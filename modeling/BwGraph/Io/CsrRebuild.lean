import BwGraph.Io.CsrRecords
import BwGraph.Part.PageSize

/-
  `csr_page_t::apply_deltas` (`io_csr.cc`), which rebuilds a page from its adjacency changed by a span
  of records, and its steps behind the records. The third step hands out the giant vertices while it
  still checks the limits of the page (`Separated.giants_separate_eq_iff`), without the slots and the
  timestamps that the build adds. The fifth step clears the page and the vertex map before a build
  that may throw: it leaves the page of the items (`rebuild_ok`) or a cleared one (`rebuild_failed`).
-/

namespace BwGraph

open Bytes List AList CsrObject

/-- The locals of the third step of `apply_deltas`. -/
structure Separated where
  usedBytes : Nat
  normalVertexCount : Nat
  totalEdgeCount : Nat
  giants : List (VId × List VId)
  deriving DecidableEq, Repr

namespace Separated

/-- The loop of the third step: whether it goes through, and the locals at that point. -/
def separate (cfg : Config) : List (VId × List VId) → Separated → Bool × Separated
  | [], acc => (true, acc)
  | item :: items, acc =>
    if item.2.length ≥ cfg.giantDegreeBound then
      separate cfg items { acc with
        usedBytes := acc.usedBytes + csrVertexBytes
        giants := acc.giants ++ [item] }
    else
      let acc := { acc with
        usedBytes := acc.usedBytes + csrVertexBytes + item.2.length * 4
        normalVertexCount := acc.normalVertexCount + 1 }
      if acc.totalEdgeCount + item.2.length > uint16Max then (false, acc)
      else separate cfg items { acc with totalEdgeCount := acc.totalEdgeCount + item.2.length }

end Separated

namespace CsrObject

/-- The items of `old_graph` in iteration order. -/
def graphItems (order : HashOrder) (graph : AdjMap) : List (VId × List VId) :=
  (order.order graph.keys).map fun v => (v, graph.get v)

/-- `adj_map_spans` in its own iteration order: the items that are not giant. -/
def spanItems (order spanOrder : HashOrder) (graph : AdjMap) (giants : List (VId × List VId)) :
    List (VId × List VId) :=
  (spanOrder.order (((graphItems order graph).filter fun it =>
    it.1 ∉ giants.map Prod.fst).map Prod.fst)).map fun v => (v, graph.get v)

/-- The fifth step: the page is cleared, built with two slots for each vertex, and parsed. -/
def rebuild (cfg : PageConfig) (items : List (VId × List VId)) (obj : CsrObject) :
    InsertStatus × CsrObject × List (VId × Nat) :=
  let cleared := { obj with data := poke obj.data 0 (List.replicate cfg.pageSize 0) }
  match cleared.buildFromAdjacencyMap cfg (fun _ => 2) items [] with
  | (some _, page, vertexMap) => (.failed, page, vertexMap)
  | (none, page, vertexMap) =>
    match { page with isParse := false }.parseFromPageData cfg with
    | (some _, page) => (.failed, page, vertexMap)
    | (none, page) => (.inserted, page, vertexMap)

/-- `apply_deltas`: the status, the page, `vertex_map` and `giant_vertex_ids`. -/
def applyDeltas (cfg : PageConfig) (order spanOrder : HashOrder) (deltas : List DeltaRecord)
    (obj : CsrObject) (vertexMap : List (VId × Nat)) (giantVertexIds : List (VId × List VId)) :
    InsertStatus × CsrObject × List (VId × Nat) × List (VId × List VId) :=
  let graph := deltas.foldl applyRecord (obj.oldGraph cfg)
  let (passed, acc) := Separated.separate cfg.toConfig (graphItems order graph)
    ⟨cfg.headerBytes, 0, 0, []⟩
  let giantVertexIds := giantVertexIds ++ acc.giants
  if passed = false then (.failed, obj, vertexMap, giantVertexIds)
  else if acc.normalVertexCount > uint16Max then (.failed, obj, vertexMap, giantVertexIds)
  else if acc.usedBytes > cfg.pageSize then (.failed, obj, vertexMap, giantVertexIds)
  else
    let (status, page, vertexMap) :=
      obj.rebuild cfg (spanItems order spanOrder graph acc.giants)
    (status, page, vertexMap, giantVertexIds)

end CsrObject

/-! ## The third step -/

namespace Separated

variable {cfg : Config} {items : List (VId × List VId)} {item : VId × List VId} {acc : Separated}

theorem separate_giant (h : item.2.length ≥ cfg.giantDegreeBound) :
    separate cfg (item :: items) acc = separate cfg items { acc with
      usedBytes := acc.usedBytes + csrVertexBytes
      giants := acc.giants ++ [item] } := if_pos h

section

variable (h : item.2.length < cfg.giantDegreeBound)
include h

theorem separate_over (hover : acc.totalEdgeCount + item.2.length > uint16Max) :
    separate cfg (item :: items) acc = (false, { acc with
      usedBytes := acc.usedBytes + csrVertexBytes + item.2.length * 4
      normalVertexCount := acc.normalVertexCount + 1 }) := by
  rw [separate, if_neg (Nat.not_le.2 h)]
  exact if_pos hover

theorem separate_normal (hroom : acc.totalEdgeCount + item.2.length ≤ uint16Max) :
    separate cfg (item :: items) acc = separate cfg items { acc with
      usedBytes := acc.usedBytes + csrVertexBytes + item.2.length * 4
      normalVertexCount := acc.normalVertexCount + 1
      totalEdgeCount := acc.totalEdgeCount + item.2.length } := by
  rw [separate, if_neg (Nat.not_le.2 h)]
  exact if_neg (Nat.not_lt.2 hroom)

omit h in
theorem normalDegree_giant (h : item.2.length ≥ cfg.giantDegreeBound) :
    normalDegree cfg item = 0 := if_pos h

theorem normalDegree_normal : normalDegree cfg item = item.2.length := if_neg (Nat.not_le.2 h)

end

/-- The loop goes through when the edges of the normal vertices stay within 16 bits. -/
theorem separate_passed (hacc : acc.totalEdgeCount ≤ uint16Max) :
    (separate cfg items acc).1 = true ↔
      acc.totalEdgeCount + (items.map (normalDegree cfg)).sum ≤ uint16Max := by
  induction items generalizing acc with
  | nil => exact iff_of_true rfl hacc
  | cons item items ih =>
    rw [map_cons, sum_cons]
    rcases Nat.lt_or_ge item.2.length cfg.giantDegreeBound with hn | hg
    · rw [normalDegree_normal hn]
      rcases Nat.lt_or_ge uint16Max (acc.totalEdgeCount + item.2.length) with hover | hroom
      · rw [separate_over hn hover]
        exact iff_of_false Bool.false_ne_true (by omega)
      · rw [separate_normal hn hroom, ih hroom]
        dsimp only
        rw [Nat.add_assoc]
    · rw [separate_giant hg, normalDegree_giant hg, Nat.zero_add]
      exact ih hacc

/-- Giant vertices are only added. -/
theorem giants_separate : ∃ found, (separate cfg items acc).2.giants = acc.giants ++ found := by
  induction items generalizing acc with
  | nil => exact ⟨[], (append_nil _).symm⟩
  | cons item items ih =>
    rcases Nat.lt_or_ge item.2.length cfg.giantDegreeBound with hn | hg
    · rcases Nat.lt_or_ge uint16Max (acc.totalEdgeCount + item.2.length) with hover | hroom
      · rw [separate_over hn hover]
        exact ⟨[], (append_nil _).symm⟩
      · rw [separate_normal hn hroom]
        exact ih
    · rw [separate_giant hg]
      obtain ⟨found, hfound⟩ := @ih { acc with
        usedBytes := acc.usedBytes + csrVertexBytes
        giants := acc.giants ++ [item] }
      exact ⟨item :: found, by rw [hfound, append_assoc]; rfl⟩

theorem mem_giants_separate {it : VId × List VId}
    (h : it ∈ (separate cfg items acc).2.giants) : it ∈ acc.giants ∨ it ∈ items := by
  induction items generalizing acc with
  | nil => exact .inl h
  | cons item items ih =>
    rcases Nat.lt_or_ge item.2.length cfg.giantDegreeBound with hn | hg
    · rcases Nat.lt_or_ge uint16Max (acc.totalEdgeCount + item.2.length) with hover | hroom
      · rw [separate_over hn hover] at h
        exact .inl h
      · rw [separate_normal hn hroom] at h
        exact (ih h).imp_right (mem_cons_of_mem _)
    · rw [separate_giant hg] at h
      rcases ih h with hacc | hitems
      · rcases mem_append.1 hacc with hacc | hitem
        · exact .inl hacc
        · rw [mem_singleton.1 hitem]
          exact .inr mem_cons_self
      · exact .inr (mem_cons_of_mem _ hitems)

/-- None is added exactly when the loop meets none: it ends where the edges pass 16 bits. -/
theorem giants_separate_eq_iff (hacc : acc.totalEdgeCount ≤ uint16Max) :
    (separate cfg items acc).2.giants = acc.giants ↔ ∀ k it, items[k]? = some it →
      acc.totalEdgeCount + ((items.take k).map (normalDegree cfg)).sum ≤ uint16Max →
      it.2.length < cfg.giantDegreeBound := by
  induction items generalizing acc with
  | nil => exact iff_of_true rfl fun k it hit => by cases hit
  | cons item items ih =>
    rcases Nat.lt_or_ge item.2.length cfg.giantDegreeBound with hn | hg
    · have hstep : ∀ k, ((item :: items).take (k + 1)).map (normalDegree cfg) =
          item.2.length :: (items.take k).map (normalDegree cfg) := by
        intro k
        rw [take_succ_cons, map_cons, normalDegree_normal hn]
      rcases Nat.lt_or_ge uint16Max (acc.totalEdgeCount + item.2.length) with hover | hroom
      · rw [separate_over hn hover]
        refine iff_of_true rfl fun k it hit hsum => ?_
        cases k with
        | zero =>
          cases hit
          exact hn
        | succ k =>
          rw [hstep, sum_cons] at hsum
          omega
      · rw [separate_normal hn hroom, ih hroom]
        refine ⟨fun h k it hit hsum => ?_, fun h k it hit hsum => ?_⟩
        · cases k with
          | zero =>
            cases hit
            exact hn
          | succ k =>
            rw [hstep, sum_cons] at hsum
            exact h k it hit (by dsimp only; omega)
        · refine h (k + 1) it hit ?_
          rw [hstep, sum_cons]
          dsimp only at hsum
          omega
    · rw [separate_giant hg]
      refine iff_of_false (fun h => ?_) fun h => ?_
      · obtain ⟨found, hfound⟩ := @giants_separate cfg items { acc with
          usedBytes := acc.usedBytes + csrVertexBytes
          giants := acc.giants ++ [item] }
        have hlen := congrArg List.length (hfound.symm.trans h)
        simp only [length_append, length_singleton] at hlen
        omega
      · exact absurd (h 0 item rfl hacc) (Nat.not_lt.2 hg)

/-- Without giant vertices the loop counts the vertices, their entries and their neighbours. -/
theorem separate_counts (hn : ∀ it ∈ items, it.2.length < cfg.giantDegreeBound)
    (hpass : (separate cfg items acc).1 = true) : (separate cfg items acc).2 =
      ⟨acc.usedBytes + items.length * csrVertexBytes + (items.map (normalDegree cfg)).sum * 4,
        acc.normalVertexCount + items.length,
        acc.totalEdgeCount + (items.map (normalDegree cfg)).sum, acc.giants⟩ := by
  induction items generalizing acc with
  | nil => simp [separate]
  | cons item items ih =>
    have hone := hn item mem_cons_self
    rcases Nat.lt_or_ge uint16Max (acc.totalEdgeCount + item.2.length) with hover | hroom
    · rw [separate_over hone hover] at hpass
      cases hpass
    · rw [separate_normal hone hroom] at hpass ⊢
      rw [ih (fun it hit => hn it (mem_cons_of_mem _ hit)) hpass, map_cons,
        sum_cons, normalDegree_normal hone, length_cons]
      simp only [mk.injEq, and_true]
      unfold csrVertexBytes
      omega

end Separated

/-! ## The fifth step -/

theorem CsrLayout.addVertices_some {cfg : Config} {slots : VId → Nat}
    {items : List (VId × List VId)} {acc acc' : CsrLayout} {message : String}
    (h : CsrLayout.addVertices cfg slots items acc = (some message, acc')) :
    items.foldlM (CsrLayout.addVertex cfg slots) acc = .error message := by
  induction items generalizing acc with
  | nil => cases h
  | cons item items ih =>
    rw [addVertices] at h
    rw [foldlM_cons]
    cases h1 : acc.addVertex cfg slots item with
    | error text =>
      rw [h1] at h
      obtain ⟨hmessage, -⟩ := Prod.mk.inj h
      rw [Option.some.inj hmessage]
      rfl
    | ok acc1 =>
      rw [h1] at h
      exact ih h

namespace CsrObject

variable {cfg : PageConfig} {slots : VId → Nat} {items : List (VId × List VId)}
  {obj page : CsrObject} {vm vm' : List (VId × Nat)} {message : String}

/-- When the build throws the object is as it was, and the map holds what the loop has pushed. -/
theorem build_thrown (h : obj.buildFromAdjacencyMap cfg slots items vm = (some message, page, vm')) :
    page = obj ∧
      vm' = vm ++ (CsrLayout.addVertices cfg.toConfig slots items ⟨[], 0, []⟩).2.pushed := by
  unfold buildFromAdjacencyMap at h
  by_cases hne : items = []
  · rw [if_pos hne] at h
    cases h
  rw [if_neg hne] at h
  dsimp only at h
  cases hadd : CsrLayout.addVertices cfg.toConfig slots items ⟨[], 0, []⟩ with
  | mk thrown acc =>
    rw [hadd] at h
    cases thrown with
    | some text =>
      cases h
      exact ⟨rfl, rfl⟩
    | none =>
      dsimp only at h
      split_ifs at h
      · cases h
        exact ⟨rfl, rfl⟩
      · cases h
        exact ⟨rfl, rfl⟩
      · cases h
        exact ⟨rfl, rfl⟩
      · cases h

/-- The build returns when the constructor of a page does. -/
theorem build_none_iff : (obj.buildFromAdjacencyMap cfg slots items vm).1 = none ↔
    ∃ r, csrPageIn cfg.transaction cfg.toConfig slots items = .ok r := by
  unfold buildFromAdjacencyMap csrPageIn
  by_cases hne : items = []
  · rw [if_pos hne, if_pos hne]
    exact iff_of_true rfl ⟨_, rfl⟩
  rw [if_neg hne, if_neg hne]
  dsimp only
  cases hadd : CsrLayout.addVertices cfg.toConfig slots items ⟨[], 0, []⟩ with
  | mk thrown acc =>
    cases thrown with
    | some text =>
      rw [CsrLayout.addVertices_some hadd]
      refine iff_of_false (fun h => by cases h) fun h => ?_
      obtain ⟨r, hr⟩ := h
      cases hr
    | none =>
      rw [CsrLayout.addVertices_none hadd]
      have hts : cfg.tsDataSize acc.allNeighborBytes.length =
          tsDataSize cfg.transaction acc.allNeighborBytes.length := rfl
      simp only [bind, Except.bind, fixedSize, hts]
      split_ifs
      · exact iff_of_false (fun h => by cases h) (by rintro ⟨_, hr⟩; cases hr)
      · exact iff_of_false (fun h => by cases h) (by rintro ⟨_, hr⟩; cases hr)
      · exact iff_of_false (fun h => by cases h) (by rintro ⟨_, hr⟩; cases hr)
      · exact iff_of_true rfl ⟨_, rfl⟩

/-- Parsing a page that is in step with its header sets the timestamp pointer only. -/
theorem Synced.parse_again (h : page.Synced cfg) :
    parseFromPageData cfg { page with isParse := false } =
      (none, { page with edgeTsPtr :=
        if cfg.transaction then page.parsedTsPtr cfg else page.edgeTsPtr }) := by
  have hpage : page.page.numVertices = page.numVertices := length_vertexReads _ _
  have hne : page.page.numVertices ≠ 0 := by
    have hpos := h.pos
    omega
  unfold parseFromPageData
  dsimp only
  rw [parse_data h]
  dsimp only
  rw [if_neg hne, hpage]
  refine Prod.ext rfl ?_
  have hts : (if cfg.transaction = true then some (fixedSize cfg.toConfig page.numVertices +
      neighborDataSize (page.page.usedBytes - fixedSize cfg.toConfig page.numVertices))
      else page.edgeTsPtr) =
      if cfg.transaction = true then page.parsedTsPtr cfg else page.edgeTsPtr := by
    unfold parsedTsPtr
    split_ifs <;> rfl
  cases page
  simp only [mk.injEq, true_and]
  exact ⟨h.isParse.symm, rfl, rfl, h.neighborPageSpan.symm, h.vertexSpan.symm, h.neighborPtr.symm,
    hts⟩

/-- Whether a parse goes through, and how many vertices it finds, depends on the bytes. -/
theorem parse_congr {obj' parsed : CsrObject} (hdata : obj'.data = obj.data)
    (h : obj.parseFromPageData cfg = (none, parsed)) :
    ∃ parsed', obj'.parseFromPageData cfg = (none, parsed') ∧
      parsed'.numVertices = parsed.numVertices := by
  unfold parseFromPageData at h ⊢
  rw [hdata]
  cases hp : BwGraph.parseFromPageData cfg.toConfig obj.data with
  | error message =>
    rw [hp] at h
    cases h
  | ok r =>
    rw [hp] at h
    dsimp only at h ⊢
    by_cases h0 : r.1.numVertices = 0
    · rw [if_pos h0] at h ⊢
      cases h
      exact ⟨_, rfl, rfl⟩
    · rw [if_neg h0] at h ⊢
      cases h
      exact ⟨_, rfl, rfl⟩

/-- The page has the items for vertices, in order; an id beyond the encoding of the build is not read
back. -/
structure StoresItems (cfg : PageConfig) (items : List (VId × List VId)) (page : CsrObject) :
    Prop where
  numVertices : page.numVertices = items.length
  entry : ∀ i v nbrs, items[i]? = some (v, nbrs) → (page.vertexAt i).vertexId = v ∧
    (page.vertexAt i).isDeleted = false ∧ (page.vertexAt i).degree = nbrs.length
  neighbors : ∀ i v nbrs, items[i]? = some (v, nbrs) → nbrs.length < cfg.giantDegreeBound →
    (∀ d ∈ nbrs, d < cfg.idLimit) → page.readNeighbors cfg i = nbrs
  limit : ∀ i < page.numVertices, ∀ d ∈ page.readNeighbors cfg i, d < cfg.idLimit

theorem StoresItems.nil (h : page.numVertices = 0) : page.StoresItems cfg [] := by
  refine ⟨h, fun i v nbrs hi => ?_, fun i v nbrs hi => ?_, fun i hi => ?_⟩
  · cases hi
  · cases hi
  · rw [h] at hi
    exact absurd hi (Nat.not_lt_zero i)

/-- The page rebuilt. -/
theorem rebuild_ok (hsize : cfg.pageSize < 2 ^ 32) (hparent : obj.links.parentPageNo < 2 ^ 32)
    (hcount : obj.links.neighborPageCount ≤ cfg.maxBlockNeighbor)
    (hids : ∀ it ∈ items, it.1 < 2 ^ 32)
    (hfit : ∃ r, csrPageIn cfg.transaction cfg.toConfig (fun _ => 2) items = .ok r) :
    ∃ page vertexMap, obj.rebuild cfg items = (.inserted, page, vertexMap) ∧
      page.StoresItems cfg items := by
  unfold rebuild
  dsimp only
  generalize hcleared : { obj with data := poke obj.data 0 (replicate cfg.pageSize 0) } =
    cleared
  have hlinks : cleared.links = obj.links := by rw [← hcleared]
  have hnone := (@build_none_iff cfg (fun _ => 2) items cleared []).2 hfit
  cases hbuild : cleared.buildFromAdjacencyMap cfg (fun _ => 2) items [] with
  | mk thrown rest =>
    obtain ⟨page, vertexMap⟩ := rest
    rw [hbuild] at hnone
    obtain rfl : thrown = none := hnone
    dsimp only
    by_cases hne : items = []
    · subst hne
      unfold buildFromAdjacencyMap at hbuild
      rw [if_pos rfl] at hbuild
      obtain rfl := (Prod.mk.inj (Prod.mk.inj hbuild).2).1
      obtain ⟨parsed, hparse, hnum⟩ := @parse_congr cfg (ofData (cleared.builtEmpty cfg).data)
        { cleared.builtEmpty cfg with isParse := false } _ rfl
        (parse_builtEmpty (.refl 0 16 (cleared.builtEmpty cfg).data))
      rw [hparse]
      exact ⟨parsed, vertexMap, rfl, .nil hnum⟩
    · obtain ⟨hb, -⟩ := build_ok hne hbuild hsize hids (hlinks ▸ hparent) (hlinks ▸ hcount)
      rw [hb.synced.parse_again]
      refine ⟨_, vertexMap, rfl, hb.vertices, fun i v nbrs hi => ?_,
        fun i v nbrs hi hdeg hnbrs => hb.readNeighbors hi hdeg hnbrs,
        fun i _ => hb.readNeighbors_lt i⟩
      have hat : vertexAt { page with edgeTsPtr :=
          if cfg.transaction then page.parsedTsPtr cfg else page.edgeTsPtr } i =
          page.vertexAt i := rfl
      rw [hat, hb.vertexAt i v nbrs hi]
      exact ⟨rfl, rfl, rfl⟩

/-- The page that could not be rebuilt. -/
theorem rebuild_failed
    (hfit : ¬ ∃ r, csrPageIn cfg.transaction cfg.toConfig (fun _ => 2) items = .ok r) :
    obj.rebuild cfg items = (.failed,
      { obj with data := poke obj.data 0 (replicate cfg.pageSize 0) },
      (CsrLayout.addVertices cfg.toConfig (fun _ => 2) items ⟨[], 0, []⟩).2.pushed) := by
  unfold rebuild
  dsimp only
  generalize { obj with data := poke obj.data 0 (replicate cfg.pageSize 0) } = cleared
  have hsome : (cleared.buildFromAdjacencyMap cfg (fun _ => 2) items []).1 ≠ none :=
    fun h => hfit (build_none_iff.1 h)
  cases hbuild : cleared.buildFromAdjacencyMap cfg (fun _ => 2) items [] with
  | mk thrown rest =>
    cases thrown with
    | none =>
      rw [hbuild] at hsome
      exact absurd rfl hsome
    | some message =>
      obtain ⟨hpage, hmap⟩ := build_thrown hbuild
      dsimp only
      rw [hpage, hmap, nil_append]

/-! ## The items -/

variable {order spanOrder : HashOrder} {graph : AdjMap} {giants : List (VId × List VId)}

variable {it : VId × List VId}

theorem mem_graphItems : it ∈ graphItems order graph ↔ graph.lookup it.1 = some it.2 := by
  unfold graphItems
  rw [mem_map]
  constructor
  · intro h
    obtain ⟨v, hv, rfl⟩ := h
    exact lookup_eq_get (mem_keys.2 ((order.perm graph.keys).mem_iff.1 hv))
  · intro h
    have hin : it.1 ∈ graph := lookup_isSome.1 (by rw [h]; rfl)
    have hget := (lookup_eq_get hin).symm.trans h
    exact ⟨it.1, (order.perm graph.keys).mem_iff.2 (mem_keys.1 hin),
      Prod.ext rfl (Option.some.inj hget)⟩

theorem nodup_graphItems : ((graphItems order graph).map Prod.fst).Nodup := by
  have hids : (graphItems order graph).map Prod.fst = order.order graph.keys := by
    rw [graphItems, map_map]
    exact map_id _
  rw [hids]
  exact (order.perm graph.keys).nodup_iff.2 graph.nodupKeys

theorem mem_spanItems :
    it ∈ spanItems order spanOrder graph giants ↔
      graph.lookup it.1 = some it.2 ∧ it.1 ∉ giants.map Prod.fst := by
  unfold spanItems
  rw [mem_map]
  constructor
  · intro h
    obtain ⟨v, hv, rfl⟩ := h
    obtain ⟨item, hitem, rfl⟩ := mem_map.1 ((spanOrder.perm _).mem_iff.1 hv)
    obtain ⟨hmem, hout⟩ := mem_filter.1 hitem
    have hlook := mem_graphItems.1 hmem
    have hin : item.1 ∈ graph := lookup_isSome.1 (by rw [hlook]; rfl)
    exact ⟨lookup_eq_get hin, of_decide_eq_true hout⟩
  · intro h
    have hin : it.1 ∈ graph := lookup_isSome.1 (by rw [h.1]; rfl)
    have hget := (lookup_eq_get hin).symm.trans h.1
    refine ⟨it.1, (spanOrder.perm _).mem_iff.2 (mem_map.2 ⟨it, ?_, rfl⟩),
      Prod.ext rfl (Option.some.inj hget)⟩
    exact mem_filter.2 ⟨mem_graphItems.2 h.1, decide_eq_true h.2⟩

theorem spanItems_ids : (spanItems order spanOrder graph giants).map Prod.fst =
    spanOrder.order (((graphItems order graph).filter fun it =>
      it.1 ∉ giants.map Prod.fst).map Prod.fst) := by
  rw [spanItems, map_map]
  exact map_id _

theorem nodup_spanItems : ((spanItems order spanOrder graph giants).map Prod.fst).Nodup := by
  rw [spanItems_ids, (spanOrder.perm _).nodup_iff]
  exact nodup_graphItems.sublist (filter_sublist.map Prod.fst)

/-- Without giant vertices the spans are the items in another order. -/
theorem spanItems_perm : (spanItems order spanOrder graph []).Perm (graphItems order graph) := by
  refine (perm_ext_iff_of_nodup nodup_spanItems.of_map nodup_graphItems.of_map).2
    fun it => ?_
  rw [mem_spanItems, mem_graphItems]
  exact and_iff_left not_mem_nil

end CsrObject

end BwGraph
