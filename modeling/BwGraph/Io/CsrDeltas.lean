import Mathlib.Algebra.Order.BigOperators.Group.Finset
import BwGraph.Io.CsrPageBuilder
import BwGraph.Io.CsrRebuild

/-
  What a call of `apply_deltas` promises (`AppliesAll`): on failure nothing changes, on success the
  page holds the changed adjacency, and its giant vertices are handed out. The third step counts an
  entry for a giant vertex, but the page is built without it; a vertex that was giant on the old page
  becomes a normal one without neighbours.

  `applyDeltas_appliesAll_iff` is the exact condition (`AppliesWhen`). The proof follows the outcomes:
  a limit is passed (`appliesAll_of_rejected`), giant vertices were handed out
  (`not_appliesAll_of_giants`), or the page is rebuilt from the whole graph or cleared
  (`appliesAll_of_normal`).
-/

namespace BwGraph

open Bytes List

namespace CsrObject

variable {cfg : PageConfig} {slots : VId → Nat} {items : List (VId × List VId)}
  {obj page : CsrObject} {order spanOrder : HashOrder} {graph : AdjMap}
  {giants : List (VId × List VId)}

/-! ## What the call promises -/

/-- The adjacency with the records applied in order; `giants` yields the lists of the giant
vertices. -/
def merged (cfg : PageConfig) (deltas : List DeltaRecord) (obj : CsrObject)
    (giants : VId → List VId) : AdjMap :=
  deltas.foldl applyRecord (obj.adjacency cfg giants)

/-- The page holds an adjacency: it has one entry for every vertex, with its degree, and its
neighbours unless the vertex is giant. -/
structure StoresGraph (cfg : PageConfig) (graph : AdjMap) (page : CsrObject) : Prop where
  entry : ∀ v nbrs, graph.lookup v = some nbrs → ∃ i < page.numVertices,
    (page.vertexAt i).vertexId = v ∧ (page.vertexAt i).isDeleted = false ∧
      (page.vertexAt i).degree = nbrs.length ∧
      (nbrs.length < cfg.giantDegreeBound → page.readNeighbors cfg i = nbrs)
  only : ∀ i < page.numVertices, (graph.lookup (page.vertexAt i).vertexId).isSome = true
  once : ∀ i j, i < page.numVertices → j < page.numVertices →
    (page.vertexAt i).vertexId = (page.vertexAt j).vertexId → i = j

/-- The lists the giant store can have for a page: as long as the entries of the page say. -/
def GiantLists (cfg : PageConfig) (obj : CsrObject) (giants : VId → List VId) : Prop :=
  ∀ v i, obj.GiantAt cfg obj.vertexSpan.size v i → (giants v).length = (obj.vertexAt i).degree

/-- A call that fails leaves everything as it was. After one that succeeds the page holds the
adjacency with the records applied, and every giant vertex of it is handed out once, with its whole
list. -/
def AppliesAll (cfg : PageConfig) (order spanOrder : HashOrder) (deltas : List DeltaRecord)
    (obj : CsrObject) (vertexMap : List (VId × Nat)) (giantVertexIds : List (VId × List VId)) :
    Prop :=
  let result := obj.applyDeltas cfg order spanOrder deltas vertexMap giantVertexIds
  (result.1 = .failed → result.2 = (obj, vertexMap, giantVertexIds)) ∧
  (result.1 = .inserted → ∀ giants, obj.GiantLists cfg giants →
    result.2.1.StoresGraph cfg (obj.merged cfg deltas giants) ∧
    ∀ v nbrs, (obj.merged cfg deltas giants).lookup v = some nbrs →
      cfg.giantDegreeBound ≤ nbrs.length →
      result.2.2.2.filter (fun p => p.1 = v) = [(v, nbrs)])

section Lists

variable {deltas : List DeltaRecord} {lists : VId → List VId} {v : VId} {i j : Nat}

/-- `old_graph` after the second step. -/
def newGraph (cfg : PageConfig) (deltas : List DeltaRecord) (obj : CsrObject) : AdjMap :=
  deltas.foldl applyRecord (obj.oldGraph cfg)

/-- The list of a vertex is there or not whatever the lists of the giant vertices. -/
theorem isSome_lookup_merged (cfg : PageConfig) (deltas : List DeltaRecord) (obj : CsrObject)
    (lists : VId → List VId) (v : VId) : ((obj.merged cfg deltas lists).lookup v).isSome =
      ((obj.newGraph cfg deltas).lookup v).isSome := by
  rw [merged, newGraph, lookup_foldl_applyRecord, lookup_foldl_applyRecord]
  refine isSome_listAfter ?_
  unfold adjacency oldGraph
  rcases lookup_foldl_listEntry cfg obj v obj.vertexSpan.size with ⟨i, -, h⟩ | ⟨-, list, h⟩
  · rw [h lists, h fun _ => []]
    rfl
  · rw [h lists, h fun _ => []]

/-- When every giant vertex of the page is deleted its list does not matter. -/
theorem lookup_merged (h : ∀ v i, obj.GiantAt cfg obj.vertexSpan.size v i → Erased deltas v)
    (lists : VId → List VId) (v : VId) :
    (obj.merged cfg deltas lists).lookup v = (obj.newGraph cfg deltas).lookup v := by
  rw [merged, newGraph, lookup_foldl_applyRecord, lookup_foldl_applyRecord]
  unfold adjacency oldGraph
  rcases lookup_foldl_listEntry cfg obj v obj.vertexSpan.size with ⟨i, hg, -⟩ | ⟨-, list, hl⟩
  · exact lookup_erased (h v i hg) _ _
  · rw [hl lists, hl fun _ => []]

/-- The last entry of a vertex is one. -/
theorem GiantAt.unique {n : Nat} (h : obj.GiantAt cfg n v i) (h' : obj.GiantAt cfg n v j) :
    i = j := by
  obtain ⟨hi, hlive, hid, -, hlast⟩ := h
  obtain ⟨hj, hlive', hid', -, hlast'⟩ := h'
  rcases Nat.lt_trichotomy i j with hlt | heq | hgt
  · exact absurd hid' (hlast j hlt hj hlive')
  · exact heq
  · exact absurd hid (hlast' i hgt hi hlive)

/-- The giant store can have any id in all its lists. -/
theorem exists_giantLists (cfg : PageConfig) (obj : CsrObject) (x : VId) :
    ∃ lists, obj.GiantLists cfg lists ∧ ∀ v i, obj.GiantAt cfg obj.vertexSpan.size v i →
      lists v = replicate (obj.vertexAt i).degree x := by
  have hall : ∀ v, ∃ list : List VId, ∀ i, obj.GiantAt cfg obj.vertexSpan.size v i →
      list = replicate (obj.vertexAt i).degree x := by
    intro v
    by_cases h : ∃ i, obj.GiantAt cfg obj.vertexSpan.size v i
    · obtain ⟨i, hi⟩ := h
      exact ⟨replicate (obj.vertexAt i).degree x, fun j hj => by rw [hi.unique hj]⟩
    · exact ⟨[], fun i hi => absurd ⟨i, hi⟩ h⟩
  choose lists hlists using hall
  refine ⟨lists, fun v i hi => ?_, fun v i hi => hlists v i hi⟩
  rw [hlists v i hi, length_replicate]

/-- A page of the items of a map holds the map. -/
theorem StoresItems.storesGraph (h : page.StoresItems cfg items)
    (hnodup : (items.map Prod.fst).Nodup) (hids : ∀ it ∈ items, ∀ d ∈ it.2, d < cfg.idLimit)
    (hmem : ∀ it, it ∈ items ↔ graph.lookup it.1 = some it.2) : page.StoresGraph cfg graph := by
  refine ⟨fun v nbrs hv => ?_, fun i hi => ?_, fun i j hi hj hij => ?_⟩
  · obtain ⟨i, hi⟩ := List.getElem?_of_mem ((hmem (v, nbrs)).2 hv)
    obtain ⟨hid, hlive, hdeg⟩ := h.entry i v nbrs hi
    refine ⟨i, ?_, hid, hlive, hdeg, fun hn => h.neighbors i v nbrs hi hn
      (hids _ (List.mem_of_getElem? hi))⟩
    rw [h.numVertices]
    exact (List.getElem?_eq_some_iff.1 hi).1
  · rw [h.numVertices] at hi
    obtain ⟨it, hit⟩ : ∃ it, items[i]? = some it := ⟨_, List.getElem?_eq_getElem hi⟩
    rw [(h.entry i it.1 it.2 hit).1, (hmem it).1 (List.mem_of_getElem? hit)]
    rfl
  · rw [h.numVertices] at hi hj
    have hid := (h.entry i items[i].1 items[i].2 (List.getElem?_eq_getElem hi)).1
    have hid' := (h.entry j items[j].1 items[j].2 (List.getElem?_eq_getElem hj)).1
    have hleft : i < (items.map Prod.fst).length := by rwa [List.length_map]
    have hright : j < (items.map Prod.fst).length := by rwa [List.length_map]
    have hsame : (items.map Prod.fst)[i] = (items.map Prod.fst)[j] := by
      rw [List.getElem_map, List.getElem_map, ← hid, ← hid', hij]
    exact hnodup.getElem_inj_iff.1 hsame

/-- The entries of such a page have the degrees of the lists. -/
theorem StoresItems.degree_lt (h : page.StoresItems cfg items)
    (hmem : ∀ it, it ∈ items ↔ graph.lookup it.1 = some it.2)
    (hnormal : ∀ v nbrs, graph.lookup v = some nbrs → nbrs.length < cfg.giantDegreeBound) :
    ∀ i < page.numVertices, (page.vertexAt i).degree < cfg.giantDegreeBound := by
  intro i hi
  rw [h.numVertices] at hi
  obtain ⟨it, hit⟩ : ∃ it, items[i]? = some it := ⟨_, getElem?_eq_getElem hi⟩
  rw [(h.entry i it.1 it.2 hit).2.2]
  exact hnormal it.1 it.2 ((hmem it).1 (mem_of_getElem? hit))

section

variable {graph' : AdjMap} (h : page.StoresGraph cfg graph)
include h

theorem StoresGraph.congr (hl : ∀ v, graph'.lookup v = graph.lookup v) :
    page.StoresGraph cfg graph' := by
  refine ⟨fun v nbrs hv => h.entry v nbrs (hl v ▸ hv), fun i hi => ?_, h.once⟩
  rw [hl]
  exact h.only i hi

/-- A page holds one list for a vertex. -/
theorem StoresGraph.lookup_eq (h' : page.StoresGraph cfg graph')
    (hsmall : ∀ i < page.numVertices, (page.vertexAt i).degree < cfg.giantDegreeBound)
    {nbrs nbrs' : List VId} (hv : graph.lookup v = some nbrs) (hv' : graph'.lookup v = some nbrs') :
    nbrs' = nbrs := by
  obtain ⟨i, hi, hid, -, hdeg, hread⟩ := h.entry v nbrs hv
  obtain ⟨j, hj, hid', -, hdeg', hread'⟩ := h'.entry v nbrs' hv'
  obtain rfl := h.once i j hi hj (hid.trans hid'.symm)
  rw [← hread (hdeg ▸ hsmall i hi), hread' (hdeg' ▸ hsmall i hi)]

end

/-- A page that holds the adjacency for all lists of the giant vertices holds none of them: the
records delete them. -/
theorem erased_of_stores
    (hsmall : ∀ i < page.numVertices, (page.vertexAt i).degree < cfg.giantDegreeBound)
    (hall : ∀ lists, obj.GiantLists cfg lists → page.StoresGraph cfg (obj.merged cfg deltas lists))
    (hg : obj.GiantAt cfg obj.vertexSpan.size v i) : Erased deltas v := by
  by_contra he
  -- an id no record is about, which the giant store has in all lists or in none
  obtain ⟨x, hfresh⟩ : ∃ x : Nat, ∀ r ∈ deltas, r.second < x := by
    refine ⟨(deltas.map DeltaRecord.second).sum + 1, fun r hr => ?_⟩
    have hle := single_le_sum (fun _ _ => Nat.zero_le _) _
      (mem_map_of_mem (f := DeltaRecord.second) hr)
    exact Nat.lt_succ_of_le hle
  have hx : ∀ r ∈ deltas, r.second ≠ x := fun r hr => Nat.ne_of_lt (hfresh r hr)
  obtain ⟨lists, hlists, hrep⟩ := exists_giantLists cfg obj x
  obtain ⟨lists', hlists', hrep'⟩ := exists_giantLists cfg obj (x + 1)
  have hlook : ∀ lists : VId → List VId, (obj.adjacency cfg lists).lookup v = some (lists v) := by
    rcases lookup_foldl_listEntry cfg obj v obj.vertexSpan.size with ⟨j, -, h⟩ | ⟨hnone, -⟩
    · exact h
    · exact absurd hg (hnone i)
  have hafter : ∀ lists : VId → List VId, ∃ nbrs,
      (obj.merged cfg deltas lists).lookup v = some nbrs ∧ (x ∈ nbrs ↔ x ∈ lists v) := by
    intro lists
    obtain ⟨nbrs, hnbrs, hmem⟩ := mem_of_not_erased he hx (lists v)
    refine ⟨nbrs, ?_, hmem⟩
    rw [merged, lookup_foldl_applyRecord, hlook lists, hnbrs]
  obtain ⟨nbrs, hv, hin⟩ := hafter lists
  obtain ⟨nbrs', hv', hin'⟩ := hafter lists'
  have hsame := (hall lists hlists).lookup_eq (hall lists' hlists') hsmall hv hv'
  have hpos : (obj.vertexAt i).degree ≠ 0 := by
    intro hzero
    -- then the bound is zero, and the page has no entry at all
    obtain ⟨k, hk, -⟩ := (hall lists hlists).entry v nbrs hv
    have hdeg := hg.2.2.2.1
    have hlt := hsmall k hk
    omega
  have hleft : x ∈ nbrs := hin.2 (by
    rw [hrep v i hg]
    exact mem_replicate.2 ⟨hpos, rfl⟩)
  rw [← hsame] at hleft
  have hright := hin'.1 hleft
  rw [hrep' v i hg] at hright
  exact absurd (eq_of_mem_replicate hright) (Nat.ne_of_lt (Nat.lt_succ_self x))

end Lists

/-! ## When the promise is kept -/

/-- The items the third step meets, in order. -/
def newItems (cfg : PageConfig) (order : HashOrder) (deltas : List DeltaRecord) (obj : CsrObject) :
    List (VId × List VId) := graphItems order (obj.newGraph cfg deltas)

/-- The page has room for the items with two slots a vertex. -/
def SlotsFit (cfg : PageConfig) (items : List (VId × List VId)) : Prop :=
  PageFits cfg.transaction cfg.toConfig items.length
    (items.map fun it => vertexBytes cfg.toConfig (fun _ => 2) it.1 it.2).sum

/-- The limits of the third step for items without a giant vertex. -/
structure WithinLimits (cfg : PageConfig) (items : List (VId × List VId)) : Prop where
  edges : (items.map (normalDegree cfg.toConfig)).sum ≤ uint16Max
  vertices : items.length ≤ uint16Max
  bytes : fixedSize cfg.toConfig items.length +
    (items.map (normalDegree cfg.toConfig)).sum * 4 ≤ cfg.pageSize

/-- No giant vertex comes while the edges in front of it fit 16 bits. If the limits of the third step
hold, either there is room for two slots a vertex, the records delete the giant vertices of the page
and the encoding of the build holds all ids, or the page is zero and the map is what the build pushes
before it throws. -/
structure AppliesWhen (cfg : PageConfig) (order spanOrder : HashOrder) (deltas : List DeltaRecord)
    (obj : CsrObject) (vertexMap : List (VId × Nat)) : Prop where
  giants : ∀ k it, (obj.newItems cfg order deltas)[k]? = some it →
    (((obj.newItems cfg order deltas).take k).map (normalDegree cfg.toConfig)).sum ≤ uint16Max →
    it.2.length < cfg.giantDegreeBound
  rebuilt : WithinLimits cfg (obj.newItems cfg order deltas) →
    (SlotsFit cfg (obj.newItems cfg order deltas) →
      (∀ v i, obj.GiantAt cfg obj.vertexSpan.size v i → Erased deltas v) ∧
      ∀ it ∈ obj.newItems cfg order deltas, ∀ d ∈ it.2, d < cfg.idLimit) ∧
    (¬ SlotsFit cfg (obj.newItems cfg order deltas) →
      obj.data = List.replicate cfg.pageSize 0 ∧ vertexMap =
        (CsrLayout.addVertices cfg.toConfig (fun _ => 2)
          (spanItems order spanOrder (obj.newGraph cfg deltas) []) ⟨[], 0, []⟩).2.pushed)

/-- The constructor takes the spans when the section with two slots a vertex fits; an empty map it
takes always. -/
theorem csrPageIn_spans_iff (hn : ∀ it ∈ graphItems order graph, it.2.length < cfg.giantDegreeBound)
    (hlim : WithinLimits cfg (graphItems order graph)) :
    (∃ r, csrPageIn cfg.transaction cfg.toConfig (fun _ => 2)
      (spanItems order spanOrder graph []) = .ok r) ↔ SlotsFit cfg (graphItems order graph) := by
  obtain ⟨hedges, -, hused⟩ := hlim
  unfold SlotsFit
  have hperm := @spanItems_perm order spanOrder graph
  have hdegrees : ∀ it ∈ graphItems order graph, it.2.length ≤ uint32Max := by
    intro it hit
    have hle := single_le_sum (fun _ _ => Nat.zero_le _) _
      (mem_map_of_mem (f := normalDegree cfg.toConfig) hit)
    rw [Separated.normalDegree_normal (hn it hit)] at hle
    exact Nat.le_trans (Nat.le_trans hle hedges) (by decide)
  by_cases hne : spanItems order spanOrder graph [] = []
  · have hnil : graphItems order graph = [] := nil_perm.1 (hne ▸ hperm)
    rw [hnil] at hused ⊢
    refine iff_of_true ?_ ⟨Nat.zero_le _, Nat.zero_le _, ?_⟩
    · rw [hne]
      exact ⟨_, rfl⟩
    · have hts : tsDataSize cfg.transaction 0 = 0 := by
        unfold tsDataSize
        split_ifs <;> rfl
      simp only [map_nil, sum_nil, length_nil, hts]
      exact hused
  · rw [csrPageIn_ok_iff cfg.transaction cfg.toConfig (fun _ => 2) hne, hperm.length_eq,
      (hperm.map fun it => vertexBytes cfg.toConfig (fun _ => 2) it.1 it.2).sum_nat]
    exact and_iff_right fun it hit => hdegrees it (hperm.mem_iff.1 hit)

section Outcomes

variable {deltas : List DeltaRecord} {vertexMap : List (VId × Nat)}
  {giantVertexIds : List (VId × List VId)} {acc : Separated} {passed : Bool}

/-- One of the limits of the third step is passed. -/
theorem applyDeltas_rejected (hsep : Separated.separate cfg.toConfig (obj.newItems cfg order deltas)
      ⟨cfg.headerBytes, 0, 0, []⟩ = (passed, acc))
    (h : passed = true → acc.normalVertexCount ≤ uint16Max → cfg.pageSize < acc.usedBytes) :
    obj.applyDeltas cfg order spanOrder deltas vertexMap giantVertexIds =
      (.failed, obj, vertexMap, giantVertexIds ++ acc.giants) := by
  unfold newItems newGraph at hsep
  unfold applyDeltas
  dsimp only
  rw [hsep]
  dsimp only
  split_ifs with h1 h2 h3
  · rfl
  · rfl
  · rfl
  · exact absurd (h (Bool.eq_true_of_not_eq_false h1) (Nat.not_lt.1 h2)) h3

section

variable
  (hsep : Separated.separate cfg.toConfig (obj.newItems cfg order deltas) ⟨cfg.headerBytes, 0, 0, []⟩ = (true, acc))
include hsep

/-- The page is rebuilt. -/
theorem applyDeltas_rebuilt (hcount : acc.normalVertexCount ≤ uint16Max)
    (hused : acc.usedBytes ≤ cfg.pageSize) :
    obj.applyDeltas cfg order spanOrder deltas vertexMap giantVertexIds =
      ((obj.rebuild cfg (spanItems order spanOrder (obj.newGraph cfg deltas) acc.giants)).1,
        (obj.rebuild cfg (spanItems order spanOrder (obj.newGraph cfg deltas) acc.giants)).2.1,
        (obj.rebuild cfg (spanItems order spanOrder (obj.newGraph cfg deltas) acc.giants)).2.2,
        giantVertexIds ++ acc.giants) := by
  unfold newItems newGraph at hsep
  unfold applyDeltas newGraph
  dsimp only
  rw [hsep]
  dsimp only
  rw [if_neg (by decide), if_neg (Nat.not_lt.2 hcount), if_neg (Nat.not_lt.2 hused)]

/-- Without giant vertices the limits are those of the items. -/
theorem separated_normal
    (hn : ∀ it ∈ obj.newItems cfg order deltas, it.2.length < cfg.giantDegreeBound) :
    acc.normalVertexCount = (obj.newItems cfg order deltas).length ∧
      acc.usedBytes = fixedSize cfg.toConfig (obj.newItems cfg order deltas).length +
        ((obj.newItems cfg order deltas).map (normalDegree cfg.toConfig)).sum * 4 := by
  have hcounts := Separated.separate_counts hn (by rw [hsep])
  rw [hsep] at hcounts
  dsimp only at hcounts
  rw [hcounts]
  exact ⟨Nat.zero_add _, rfl⟩

end

section

variable
  (hsep : Separated.separate cfg.toConfig (obj.newItems cfg order deltas) ⟨cfg.headerBytes, 0, 0, []⟩ = (passed, acc))
include hsep

/-- The loop found no giant vertex exactly when none comes before it ends. -/
theorem giants_separated_iff :
    acc.giants = [] ↔ ∀ k it, (obj.newItems cfg order deltas)[k]? = some it →
      (((obj.newItems cfg order deltas).take k).map (normalDegree cfg.toConfig)).sum ≤ uint16Max →
      it.2.length < cfg.giantDegreeBound := by
  have h := @Separated.giants_separate_eq_iff cfg.toConfig (obj.newItems cfg order deltas)
    ⟨cfg.headerBytes, 0, 0, []⟩ (Nat.zero_le _)
  rw [hsep] at h
  simpa only [Nat.zero_add] using h

theorem passed_iff :
    passed = true ↔
      ((obj.newItems cfg order deltas).map (normalDegree cfg.toConfig)).sum ≤ uint16Max := by
  have h := @Separated.separate_passed cfg.toConfig (obj.newItems cfg order deltas)
    ⟨cfg.headerBytes, 0, 0, []⟩ (Nat.zero_le _)
  rw [hsep] at h
  simpa only [Nat.zero_add] using h

end

/-- A loop that goes through and found no giant vertex has met normal ones only. -/
theorem normal_of_giants_nil (hsep : Separated.separate cfg.toConfig (obj.newItems cfg order deltas)
      ⟨cfg.headerBytes, 0, 0, []⟩ = (true, acc)) (hnil : acc.giants = []) :
    ∀ it ∈ obj.newItems cfg order deltas, it.2.length < cfg.giantDegreeBound := by
  intro it hit
  obtain ⟨k, hk⟩ := getElem?_of_mem hit
  refine (giants_separated_iff hsep).1 hnil k it hk (Nat.le_trans ?_ ((passed_iff hsep).1 rfl))
  conv_rhs => rw [← take_append_drop k (obj.newItems cfg order deltas), map_append,
    sum_append]
  exact Nat.le_add_right _ _

section

variable
  (hsep : Separated.separate cfg.toConfig (obj.newItems cfg order deltas) ⟨cfg.headerBytes, 0, 0, []⟩ = (passed, acc))
  (h : passed = true → acc.normalVertexCount ≤ uint16Max → cfg.pageSize < acc.usedBytes)
include hsep h

/-- Where a limit of the third step is passed, the call keeps its promise when it has found no giant
vertex. -/
theorem appliesAll_of_rejected :
    obj.AppliesAll cfg order spanOrder deltas vertexMap giantVertexIds ↔ acc.giants = [] := by
  unfold AppliesAll
  dsimp only
  rw [applyDeltas_rejected hsep h]
  dsimp only
  constructor
  · intro hall
    have heq := (Prod.mk.inj (Prod.mk.inj (hall.1 rfl)).2).2
    exact append_right_eq_self.1 heq
  · intro hnil
    refine ⟨fun _ => ?_, fun hins => by cases hins⟩
    rw [hnil, append_nil]

theorem appliesWhen_of_rejected :
    AppliesWhen cfg order spanOrder deltas obj vertexMap ↔ acc.giants = [] := by
  rw [giants_separated_iff hsep]
  refine ⟨fun hw => hw.giants, fun hgiants => ⟨hgiants, fun hlim => ?_⟩⟩
  obtain rfl := (passed_iff hsep).2 hlim.edges
  obtain ⟨hcount, hused⟩ := separated_normal hsep
    (normal_of_giants_nil hsep ((giants_separated_iff hsep).2 hgiants))
  have hover := h rfl (by rw [hcount]; exact hlim.vertices)
  rw [hused] at hover
  exact absurd hlim.bytes (Nat.not_le.2 hover)

end

/-- The ids of the spans are 32-bit numbers. -/
theorem spans_lt (hbytes : ∀ b ∈ obj.data, b < 256) (hfirst : ∀ r ∈ deltas, r.first < 2 ^ 32) :
    ∀ it ∈ spanItems order spanOrder (obj.newGraph cfg deltas) giants, it.1 < 2 ^ 32 := by
  intro it hit
  have hlook := (mem_spanItems.1 hit).1
  have hin : it.1 ∈ obj.newGraph cfg deltas := AList.lookup_isSome.1 (by rw [hlook]; rfl)
  exact foldl_applyRecord_lt hbytes hfirst hin

/-- Where a giant vertex was found the rebuilt page does not hold it. -/
theorem not_appliesAll_of_giants (hsize : cfg.pageSize < 2 ^ 32) (hbytes : ∀ b ∈ obj.data, b < 256)
    (hparent : obj.links.parentPageNo < 2 ^ 32)
    (hcount : obj.links.neighborPageCount ≤ cfg.maxBlockNeighbor)
    (hfirst : ∀ r ∈ deltas, r.first < 2 ^ 32)
    (hsep : Separated.separate cfg.toConfig (obj.newItems cfg order deltas)
      ⟨cfg.headerBytes, 0, 0, []⟩ = (true, acc)) (hvertices : acc.normalVertexCount ≤ uint16Max)
    (hused : acc.usedBytes ≤ cfg.pageSize) (hne : acc.giants ≠ []) :
    ¬ obj.AppliesAll cfg order spanOrder deltas vertexMap giantVertexIds := by
  intro hall
  unfold AppliesAll at hall
  dsimp only at hall
  rw [applyDeltas_rebuilt hsep hvertices hused] at hall
  by_cases hfit : ∃ r, csrPageIn cfg.transaction cfg.toConfig (fun _ => 2)
    (spanItems order spanOrder (obj.newGraph cfg deltas) acc.giants) = .ok r
  · obtain ⟨page, vm, hrebuild, hstores⟩ := rebuild_ok hsize hparent hcount
      (spans_lt hbytes hfirst) hfit
    rw [hrebuild] at hall
    obtain ⟨lists, hlists, -⟩ := exists_giantLists cfg obj 0
    have hgraph := (hall.2 rfl lists hlists).1
    obtain ⟨it, hit⟩ := exists_mem_of_ne_nil _ hne
    -- the vertex is in the graph, so the page would have an entry for it
    have hmem : it ∈ obj.newItems cfg order deltas := by
      have hfound : it ∈ (Separated.separate cfg.toConfig (obj.newItems cfg order deltas)
          ⟨cfg.headerBytes, 0, 0, []⟩).2.giants := by
        rw [hsep]
        exact hit
      exact (Separated.mem_giants_separate hfound).resolve_left not_mem_nil
    have hsome : ((obj.merged cfg deltas lists).lookup it.1).isSome = true := by
      rw [isSome_lookup_merged, mem_graphItems.1 hmem]
      rfl
    obtain ⟨nbrs, hnbrs⟩ := Option.isSome_iff_exists.1 hsome
    obtain ⟨i, hi, hid, -⟩ := hgraph.entry it.1 nbrs hnbrs
    rw [hstores.numVertices] at hi
    obtain ⟨item, hitem⟩ : ∃ item, (spanItems order spanOrder (obj.newGraph cfg deltas)
      acc.giants)[i]? = some item := ⟨_, getElem?_eq_getElem hi⟩
    have hsame := (hstores.entry i item.1 item.2 hitem).1.symm.trans hid
    refine (mem_spanItems.1 (mem_of_getElem? hitem)).2 ?_
    rw [hsame]
    exact mem_map_of_mem hit
  · rw [rebuild_failed hfit] at hall
    have heq := (Prod.mk.inj (Prod.mk.inj (hall.1 rfl)).2).2
    exact hne (append_right_eq_self.1 heq)

/-- Without a giant vertex the page is rebuilt from the whole graph, or cleared. -/
theorem appliesAll_of_normal (hsize : cfg.pageSize < 2 ^ 32) (hlen : obj.data.length = cfg.pageSize)
    (hbytes : ∀ b ∈ obj.data, b < 256) (hparent : obj.links.parentPageNo < 2 ^ 32)
    (hcount : obj.links.neighborPageCount ≤ cfg.maxBlockNeighbor)
    (hfirst : ∀ r ∈ deltas, r.first < 2 ^ 32)
    (hsep : Separated.separate cfg.toConfig (obj.newItems cfg order deltas)
      ⟨cfg.headerBytes, 0, 0, []⟩ = (true, acc)) (hvertices : acc.normalVertexCount ≤ uint16Max)
    (hused : acc.usedBytes ≤ cfg.pageSize) (hnil : acc.giants = [])
    (hlim : WithinLimits cfg (obj.newItems cfg order deltas)) :
    obj.AppliesAll cfg order spanOrder deltas vertexMap giantVertexIds ↔
      (SlotsFit cfg (obj.newItems cfg order deltas) →
        (∀ v i, obj.GiantAt cfg obj.vertexSpan.size v i → Erased deltas v) ∧
        ∀ it ∈ obj.newItems cfg order deltas, ∀ d ∈ it.2, d < cfg.idLimit) ∧
      (¬ SlotsFit cfg (obj.newItems cfg order deltas) →
        obj.data = replicate cfg.pageSize 0 ∧ vertexMap =
          (CsrLayout.addVertices cfg.toConfig (fun _ => 2)
            (spanItems order spanOrder (obj.newGraph cfg deltas) []) ⟨[], 0, []⟩).2.pushed) := by
  have hn := normal_of_giants_nil hsep hnil
  have hfit := @csrPageIn_spans_iff cfg order spanOrder (obj.newGraph cfg deltas) hn hlim
  have hmem : ∀ it, it ∈ spanItems order spanOrder (obj.newGraph cfg deltas) [] ↔
      (obj.newGraph cfg deltas).lookup it.1 = some it.2 := by
    intro it
    rw [mem_spanItems]
    exact and_iff_left not_mem_nil
  unfold AppliesAll
  dsimp only
  rw [applyDeltas_rebuilt hsep hvertices hused, hnil, append_nil]
  by_cases hslots : SlotsFit cfg (obj.newItems cfg order deltas)
  · obtain ⟨page, vm, hrebuild, hstores⟩ := rebuild_ok hsize hparent hcount
      (spans_lt hbytes hfirst) (hfit.2 hslots)
    have hnormal : ∀ v nbrs, (obj.newGraph cfg deltas).lookup v = some nbrs →
        nbrs.length < cfg.giantDegreeBound :=
      fun v nbrs hv => hn (v, nbrs) (mem_graphItems.2 hv)
    rw [hrebuild]
    dsimp only
    constructor
    · intro hall
      have hgraphs := fun lists hl => (hall.2 rfl lists hl).1
      have herased : ∀ v i, obj.GiantAt cfg obj.vertexSpan.size v i → Erased deltas v :=
        fun v i hg => erased_of_stores (hstores.degree_lt hmem hnormal) hgraphs hg
      refine ⟨fun _ => ⟨herased, fun it hit => ?_⟩, fun h => absurd hslots h⟩
      -- what is read back fits the encoding
      have hlook := mem_graphItems.1 hit
      obtain ⟨lists, hlists, -⟩ := exists_giantLists cfg obj 0
      rw [← lookup_merged herased lists] at hlook
      obtain ⟨i, hi, -, -, -, hread⟩ := (hgraphs lists hlists).entry it.1 it.2 hlook
      rw [← hread (hn it hit)]
      exact hstores.limit i hi
    · intro h
      obtain ⟨herased, hids⟩ := h.1 hslots
      have hnew := hstores.storesGraph nodup_spanItems
        (fun it hit => hids it (mem_graphItems.2 ((hmem it).1 hit))) hmem
      refine ⟨fun hfailed => (by cases hfailed), fun _ lists _ => ⟨?_, fun v nbrs hv hge => ?_⟩⟩
      · exact hnew.congr (lookup_merged herased lists)
      · rw [lookup_merged herased] at hv
        exact absurd (hnormal v nbrs hv) (Nat.not_lt.2 hge)
  · rw [rebuild_failed fun h => hslots (hfit.1 h)]
    have hzero : poke obj.data 0 (replicate cfg.pageSize 0) =
        replicate cfg.pageSize 0 := by
      rw [poke_eq (by rw [length_replicate, hlen, Nat.zero_add]), take_zero,
        length_replicate, drop_of_length_le (by rw [hlen, Nat.zero_add]), nil_append,
        append_nil]
    rw [hzero]
    dsimp only
    constructor
    · intro hall
      obtain ⟨hobj, hrest⟩ := Prod.mk.inj (hall.1 rfl)
      exact ⟨fun h => absurd h hslots, fun _ =>
        ⟨(congrArg CsrObject.data hobj).symm, (Prod.mk.inj hrest).1.symm⟩⟩
    · intro h
      obtain ⟨hdata, hmap⟩ := h.2 hslots
      refine ⟨fun _ => ?_, fun hins => by cases hins⟩
      rw [← hdata, ← hmap]

/-- A call that fails leaves everything as it was, and one that succeeds leaves the page with the
adjacency changed by the records, exactly when no giant vertex comes up, and if the limits of the
third step hold the two slots of every vertex fit too, and no giant vertex of the page stays. -/
theorem applyDeltas_appliesAll_iff (hsize : cfg.pageSize < 2 ^ 32)
    (hlen : obj.data.length = cfg.pageSize) (hbytes : ∀ b ∈ obj.data, b < 256)
    (hparent : obj.links.parentPageNo < 2 ^ 32)
    (hcount : obj.links.neighborPageCount ≤ cfg.maxBlockNeighbor)
    (hfirst : ∀ r ∈ deltas, r.first < 2 ^ 32) :
    obj.AppliesAll cfg order spanOrder deltas vertexMap giantVertexIds ↔
      AppliesWhen cfg order spanOrder deltas obj vertexMap := by
  cases hsep : Separated.separate cfg.toConfig (obj.newItems cfg order deltas)
    ⟨cfg.headerBytes, 0, 0, []⟩ with
  | mk passed acc =>
    by_cases hrej : passed = true → acc.normalVertexCount ≤ uint16Max → cfg.pageSize < acc.usedBytes
    · rw [appliesAll_of_rejected hsep hrej, appliesWhen_of_rejected hsep hrej]
    · obtain ⟨rfl, hrest⟩ := Classical.not_imp.1 hrej
      obtain ⟨hvertices, hover⟩ := Classical.not_imp.1 hrest
      have hused := Nat.not_lt.1 hover
      by_cases hnil : acc.giants = []
      · obtain ⟨hcounted, hbytesUsed⟩ := separated_normal hsep (normal_of_giants_nil hsep hnil)
        have hlim : WithinLimits cfg (obj.newItems cfg order deltas) :=
          ⟨(passed_iff hsep).1 rfl, hcounted ▸ hvertices, hbytesUsed ▸ hused⟩
        rw [appliesAll_of_normal hsize hlen hbytes hparent hcount hfirst hsep hvertices hused
          hnil hlim]
        refine ⟨fun h => ⟨(giants_separated_iff hsep).1 hnil, fun _ => h⟩, fun h => h.rebuilt hlim⟩
      · refine iff_of_false (not_appliesAll_of_giants hsize hbytes hparent hcount hfirst hsep
          hvertices hused hnil) fun h => hnil ((giants_separated_iff hsep).2 h.giants)

end Outcomes

/-- A vertex of two neighbours gets a third one; the page has 64 bytes. -/
theorem applyDeltas_appliesAll_third : ∃ obj vm,
    (new ⟨⟨64, 64, 1, 4, 1, 0, false⟩, false⟩).buildFromAdjacencyMap
      ⟨⟨64, 64, 1, 4, 1, 0, false⟩, false⟩ (fun _ => 0) [(1, [2, 3])] [] = (none, obj, vm) ∧
    obj.AppliesAll ⟨⟨64, 64, 1, 4, 1, 0, false⟩, false⟩ .listed .listed
      [⟨.edge, .insert, 1, 4, 0, none⟩] vm [] := by
  refine ⟨_, _, rfl, ?_⟩
  refine (@applyDeltas_appliesAll_iff ⟨⟨64, 64, 1, 4, 1, 0, false⟩, false⟩ _ .listed .listed
    [⟨.edge, .insert, 1, 4, 0, none⟩] _ [] (by decide) (by decide +kernel) (by decide +kernel)
    (by decide) (by decide) (by decide)).2 ⟨?_, fun _ => ⟨fun _ => ⟨?_, by decide +kernel⟩, ?_⟩⟩
  · intro k it hit hsum
    have hmem := List.mem_of_getElem? hit
    clear hit hsum
    revert it
    decide +kernel
  · intro v i hg
    obtain rfl : i = 0 := Nat.lt_one_iff.1 hg.1
    exact absurd hg.2.2.2.1 (by decide +kernel)
  · intro hno
    exact absurd ⟨by decide +kernel, by decide +kernel, by decide +kernel⟩ hno

/-- On a page of 48 bytes the same call fails after it has cleared the page. -/
theorem applyDeltas_cleared : ¬ ∀ (cfg : PageConfig) (order spanOrder : HashOrder)
    (deltas : List DeltaRecord) (obj : CsrObject) (vertexMap : List (VId × Nat))
    (giantVertexIds : List (VId × List VId)), BuiltObject cfg obj → cfg.pageSize < 2 ^ 32 →
    (∀ r ∈ deltas, r.first < cfg.idLimit ∧ r.second < cfg.idLimit) →
    obj.AppliesAll cfg order spanOrder deltas vertexMap giantVertexIds := by
  intro hall
  have hkept := (hall ⟨⟨48, 64, 1, 4, 1, 0, false⟩, false⟩ .listed .listed
    [⟨.edge, .insert, 1, 4, 0, none⟩] _ [(1, 0)] [] (@BuiltObject.map
      ⟨⟨48, 64, 1, 4, 1, 0, false⟩, false⟩ (new ⟨⟨48, 64, 1, 4, 1, 0, false⟩, false⟩) (fun _ => 0)
      [(1, [2, 3])] _ [] _ (by decide) (by decide) (by decide) (by decide) rfl) (by decide)
    (by decide)).1 (by decide +kernel)
  have hbytes := congrArg CsrObject.data (Prod.mk.inj hkept).1
  revert hbytes
  decide +kernel

end CsrObject

end BwGraph
