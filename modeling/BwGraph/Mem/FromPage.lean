import Mathlib.Data.List.Induction
import BwGraph.Io.CsrObject
import BwGraph.Mem.SubMap

/-
  `mem_sub_map_t::from_csr_page` (`mem_g0map.cc`), with which `graph_sample_page` copies a page. It
  hands the byte offset of an entry to `get_neighbors`, which takes the position of an entry. So the
  list a vertex gets is that of the entry at this position, or none past the last one, and the copy
  is right exactly if these lists are the same (`fromCsrPage_iff`).
-/

namespace BwGraph

open CsrObject
open List

/-- `from_csr_page`. -/
def SubMap.fromCsrPage (cfg : PageConfig) (page : CsrObject) : SubMap :=
  .fromEntries ((List.range page.vertexSpan.size).map fun i =>
    ((page.vertexAt i).vertexId, page.getNeighbors cfg (page.vertexAt i).offset))

/-- The map holds the vertices of the page, each with its list there, and the number of edges. -/
structure SubMap.CopyOf (cfg : PageConfig) (page : CsrObject) (m : SubMap) : Prop where
  keys : ∀ v, v ∈ m.adjacencyMap ↔ ∃ i < page.numVertices, (page.vertexAt i).vertexId = v
  lists : ∀ i < page.numVertices,
    m.adjacencyMap.lookup (page.vertexAt i).vertexId = some (page.getNeighbors cfg i)
  edges : m.edgeCount.2 = page.numEdges

/-- Where the neighbours of item `i` begin: four bytes for each neighbour and each slot before. -/
def neighborOffset (slots : VId → Nat) (items : List (VId × List VId)) (i : Nat) : Nat :=
  4 * ((items.take i).map fun it => it.2.length + slots it.1).sum

/-- The list of the item at a position; nothing past the last one. -/
def listAt (items : List (VId × List VId)) (i : Nat) : List VId :=
  (items.map Prod.snd).getD i []

/-- Taken for positions, the byte offsets lead to the same lists. -/
def OffsetsHit (slots : VId → Nat) (items : List (VId × List VId)) : Prop :=
  ∀ i < items.length, listAt items (neighborOffset slots items i) = listAt items i

/-! ## Entries into a map -/

theorem mem_foldl_insert (entries : List (VId × List VId)) (m : AdjMap) (v : VId) :
    v ∈ entries.foldl (fun m e => m.insert e.1 e.2) m ↔ v ∈ m ∨ v ∈ entries.map Prod.fst := by
  induction entries generalizing m with
  | nil => simp
  | cons e entries ih =>
    rw [foldl_cons, ih, AList.mem_insert, map_cons, mem_cons]
    constructor
    · intro h
      rcases h with (rfl | h) | h
      · exact .inr (.inl rfl)
      · exact .inl h
      · exact .inr (.inr h)
    · intro h
      rcases h with h | rfl | h
      · exact .inl (.inr h)
      · exact .inl (.inl rfl)
      · exact .inr h

theorem lookup_foldl_insert_of_mem {entries : List (VId × List VId)}
    (hnd : (entries.map Prod.fst).Nodup) {e : VId × List VId} (he : e ∈ entries) (m : AdjMap) :
    (entries.foldl (fun m e => m.insert e.1 e.2) m).lookup e.1 = some e.2 := by
  induction entries using List.reverseRecOn with
  | nil => exact absurd he not_mem_nil
  | append_singleton entries last ih =>
    rw [map_append, nodup_append] at hnd
    rw [foldl_append, foldl_cons, foldl_nil]
    rcases mem_append.1 he with hmem | hmem
    · have hne : e.1 ≠ last.1 :=
        hnd.2.2 e.1 (mem_map_of_mem hmem) last.1 mem_cons_self
      rw [AList.lookup_insert_ne hne]
      exact ih hnd.1 hmem
    · rw [mem_singleton.1 hmem]
      exact AList.lookup_insert _

/-! ## Built pages -/

section Built

variable {cfg : PageConfig} {slots : VId → Nat} {items : List (VId × List VId)} {page : CsrObject}

theorem length_take_flatMap_block (hraw : cfg.neighborCompress = false)
    (hgiant : ∀ it ∈ items, it.2.length < cfg.giantDegreeBound) (i : Nat) :
    ((items.take i).flatMap (block cfg.toConfig slots)).length = neighborOffset slots items i := by
  have hsub : ∀ it ∈ items.take i, it.2.length < cfg.giantDegreeBound := fun it hit =>
    hgiant it (mem_of_mem_take hit)
  unfold neighborOffset
  generalize items.take i = l at hsub
  rw [block_eq_rawBlock hraw]
  induction l with
  | nil => rfl
  | cons it l ih =>
    have hone : (rawBlock cfg.toConfig slots it).length = 4 * (it.2.length + slots it.1) := by
      unfold rawBlock
      rw [if_neg (Nat.not_le.2 (hsub it mem_cons_self)), length_flatMap_wordWrite,
        length_append, length_replicate, Nat.mul_comm]
    rw [flatMap_cons, length_append, hone,
      ih fun it hit => hsub it (mem_cons_of_mem _ hit), map_cons, sum_cons,
      ← Nat.mul_add]

section

variable (h : page.Built cfg slots items) (hraw : cfg.neighborCompress = false)
  (hgiant : ∀ it ∈ items, it.2.length < cfg.giantDegreeBound)
include h hraw hgiant

/-- Reading at any position gives the list there. -/
theorem CsrObject.Built.getNeighbors_eq (hids : ∀ it ∈ items, ∀ d ∈ it.2, d < 2 ^ 32) (i : Nat) :
    page.getNeighbors cfg i = listAt items i := by
  unfold listAt
  by_cases hi : i < items.length
  · have hget : items[i]? = some (items[i].1, items[i].2) := getElem?_eq_getElem hi
    have hmem : (items[i].1, items[i].2) ∈ items := getElem_mem hi
    have hlimit : cfg.toConfig.idLimit = 2 ^ 32 := by
      unfold Config.idLimit
      rw [hraw, if_neg Bool.false_ne_true]
    have hread := h.readNeighbors hget (hgiant _ hmem) fun d hd => hlimit ▸ hids _ hmem d hd
    unfold CsrObject.readNeighbors at hread
    rw [hraw, if_neg Bool.false_ne_true] at hread
    rw [hread, getD_eq_getElem _ _ (by rw [length_map]; exact hi), getElem_map]
  · have hout : i ≥ page.numVertices := by
      rw [h.vertices]
      exact Nat.le_of_not_lt hi
    unfold CsrObject.getNeighbors
    rw [if_pos hout, getD_eq_default _ _ (by rw [length_map]; exact Nat.le_of_not_lt hi)]

theorem CsrObject.Built.vertexAt_eq {i : Nat} (hi : i < items.length) :
    (page.vertexAt i).vertexId = (items[i]).1 ∧
      (page.vertexAt i).offset = neighborOffset slots items i := by
  have hget : items[i]? = some (items[i].1, items[i].2) := getElem?_eq_getElem hi
  rw [h.vertexAt i _ _ hget, if_neg (Nat.not_le.2 (hgiant _ (getElem_mem hi)))]
  exact ⟨rfl, length_take_flatMap_block hraw hgiant i⟩

theorem CsrObject.Built.map_vertexId :
    ((List.range items.length).map fun i => (page.vertexAt i).vertexId) = items.map Prod.fst := by
  refine ext_getElem (by rw [length_map, length_map, length_range]) ?_
  intro i h1 h2
  rw [length_map, length_range] at h1
  rw [getElem_map, getElem_map, getElem_range]
  exact (h.vertexAt_eq hraw hgiant h1).1

/-- What `from_csr_page` reads from the page. -/
theorem CsrObject.Built.fromCsrPage_eq (hids : ∀ it ∈ items, ∀ d ∈ it.2, d < 2 ^ 32) :
    SubMap.fromCsrPage cfg page = .fromEntries ((List.range items.length).map fun i =>
      ((page.vertexAt i).vertexId, listAt items (neighborOffset slots items i))) := by
  unfold SubMap.fromCsrPage
  rw [h.synced.vertexSpan]
  dsimp only
  rw [h.vertices]
  congr 1
  refine map_congr_left fun i hi => ?_
  rw [(h.vertexAt_eq hraw hgiant (mem_range.1 hi)).2, h.getNeighbors_eq hraw hgiant hids]

end

theorem sum_length_listAt (items : List (VId × List VId)) :
    ((List.range items.length).map fun i => (listAt items i).length).sum =
      (items.map fun it => it.2.length).sum := by
  congr 1
  refine ext_getElem (by rw [length_map, length_map, length_range]) ?_
  intro i h1 h2
  rw [length_map, length_range] at h1
  rw [getElem_map, getElem_map, getElem_range]
  unfold listAt
  rw [getD_eq_getElem _ _ (by rw [length_map]; exact h1), getElem_map]

theorem CsrObject.Built.copyOf_iff (h : page.Built cfg slots items)
    (hraw : cfg.neighborCompress = false)
    (hgiant : ∀ it ∈ items, it.2.length < cfg.giantDegreeBound)
    (hids : ∀ it ∈ items, ∀ d ∈ it.2, d < 2 ^ 32) (hnd : (items.map Prod.fst).Nodup)
    (hedges : page.numEdges = (items.map (normalDegree cfg.toConfig)).sum) :
    SubMap.CopyOf cfg page (.fromCsrPage cfg page) ↔ OffsetsHit slots items := by
  rw [h.fromCsrPage_eq hraw hgiant hids]
  set entries := (List.range items.length).map fun i =>
    ((page.vertexAt i).vertexId, listAt items (neighborOffset slots items i)) with hentries
  have hkeys : entries.map Prod.fst = items.map Prod.fst := by
    rw [hentries, map_map]
    exact h.map_vertexId hraw hgiant
  have hlookup : ∀ i < items.length,
      (SubMap.fromEntries entries).adjacencyMap.lookup (page.vertexAt i).vertexId =
        some (listAt items (neighborOffset slots items i)) := by
    intro i hi
    refine lookup_foldl_insert_of_mem (hkeys ▸ hnd) (e := ((page.vertexAt i).vertexId,
      listAt items (neighborOffset slots items i))) ?_ ∅
    exact mem_map.2 ⟨i, mem_range.2 hi, rfl⟩
  constructor
  · intro hcopy i hi
    have hlist := hcopy.lists i (by rw [h.vertices]; exact hi)
    rw [hlookup i hi, h.getNeighbors_eq hraw hgiant hids] at hlist
    exact Option.some.inj hlist
  · intro hhit
    refine ⟨fun v => ?_, fun i hi => ?_, ?_⟩
    · refine (mem_foldl_insert entries ∅ v).trans ?_
      rw [or_iff_right (AList.notMem_empty v), h.vertices]
      constructor
      · intro hv
        obtain ⟨e, he, rfl⟩ := mem_map.1 hv
        obtain ⟨i, hi, rfl⟩ := mem_map.1 he
        exact ⟨i, mem_range.1 hi, rfl⟩
      · intro hv
        obtain ⟨i, hi, rfl⟩ := hv
        exact mem_map.2 ⟨_, mem_map.2 ⟨i, mem_range.2 hi, rfl⟩, rfl⟩
    · rw [h.vertices] at hi
      rw [hlookup i hi, h.getNeighbors_eq hraw hgiant hids, hhit i hi]
    · show (entries.map fun e => e.2.length).sum = page.numEdges
      have hnormal : items.map (normalDegree cfg.toConfig) = items.map fun it => it.2.length :=
        map_congr_left fun it hit => by
          unfold normalDegree
          rw [if_neg (Nat.not_le.2 (hgiant it hit))]
      rw [hedges, hnormal, ← sum_length_listAt items, hentries, map_map]
      congr 1
      refine map_congr_left fun i hi => ?_
      rw [Function.comp_apply, hhit i (mem_range.1 hi)]

end Built

/-- The map from a page built in the raw build without giants is a copy of it exactly if each byte
offset, taken for a position, leads to an equal list. -/
theorem fromCsrPage_iff {cfg : PageConfig} {slots : VId → Nat} {items : List (VId × List VId)}
    {start page : CsrObject} {vm vm' : List (VId × Nat)} (hraw : cfg.neighborCompress = false)
    (hsize : cfg.pageSize < 2 ^ 32) (hparent : start.links.parentPageNo < 2 ^ 32)
    (hcount : start.links.neighborPageCount ≤ cfg.maxBlockNeighbor)
    (hnd : (items.map Prod.fst).Nodup) (hkeys : ∀ it ∈ items, it.1 < 2 ^ 32)
    (hids : ∀ it ∈ items, ∀ d ∈ it.2, d < 2 ^ 32)
    (hgiant : ∀ it ∈ items, it.2.length < cfg.giantDegreeBound)
    (hbuild : start.buildFromAdjacencyMap cfg slots items vm = (none, page, vm')) :
    SubMap.CopyOf cfg page (.fromCsrPage cfg page) ↔ OffsetsHit slots items := by
  by_cases hne : items = []
  · unfold CsrObject.buildFromAdjacencyMap at hbuild
    rw [if_pos hne] at hbuild
    obtain rfl := (Prod.mk.inj (Prod.mk.inj hbuild).2).1
    refine iff_of_true ⟨fun v => ?_, fun i hi => absurd hi (Nat.not_lt_zero i), rfl⟩ fun i hi => ?_
    · refine iff_of_false (AList.notMem_empty v) fun h => ?_
      obtain ⟨i, hi, -⟩ := h
      exact absurd hi (Nat.not_lt_zero i)
    · rw [hne] at hi
      exact absurd hi (Nat.not_lt_zero i)
  · obtain ⟨hbuilt, -, -, hedges, -⟩ :=
      CsrObject.build_ok hne hbuild hsize hkeys hparent hcount
    exact hbuilt.copyOf_iff hraw hgiant hids hnd hedges

/-- The neighbours of vertex 1 begin at byte 4, so it gets the list of the entry at position 4. -/
theorem fromCsrPage_misread : ∃ page vm',
    (CsrObject.new ⟨⟨128, 64, 2, 4, 1, 0, false⟩, false⟩).buildFromAdjacencyMap
      ⟨⟨128, 64, 2, 4, 1, 0, false⟩, false⟩ (fun _ => 0)
      [(0, [7]), (1, [8]), (2, []), (3, []), (4, [9])] [] = (none, page, vm') ∧
    page.getNeighbors ⟨⟨128, 64, 2, 4, 1, 0, false⟩, false⟩ 1 = [8] ∧
    (SubMap.fromCsrPage ⟨⟨128, 64, 2, 4, 1, 0, false⟩, false⟩ page).getNeighbors 1 = [9] ∧
    ¬SubMap.CopyOf ⟨⟨128, 64, 2, 4, 1, 0, false⟩, false⟩ page
      (.fromCsrPage ⟨⟨128, 64, 2, 4, 1, 0, false⟩, false⟩ page) := by
  refine ⟨_, _, rfl, by decide +kernel, by decide +kernel, fun h => ?_⟩
  have hlist := h.lists 1 (by decide)
  revert hlist
  decide +kernel

/-- One vertex with a neighbour before four without. -/
theorem fromCsrPage_iff_star : ∃ page vm',
    (CsrObject.new ⟨⟨128, 64, 2, 4, 1, 0, false⟩, false⟩).buildFromAdjacencyMap
      ⟨⟨128, 64, 2, 4, 1, 0, false⟩, false⟩ (fun _ => 0)
      [(0, [3]), (1, []), (2, []), (3, []), (4, [])] [] = (none, page, vm') ∧
    SubMap.CopyOf ⟨⟨128, 64, 2, 4, 1, 0, false⟩, false⟩ page
      (.fromCsrPage ⟨⟨128, 64, 2, 4, 1, 0, false⟩, false⟩ page) :=
  ⟨_, _, rfl, (@fromCsrPage_iff ⟨⟨128, 64, 2, 4, 1, 0, false⟩, false⟩ (fun _ => 0)
    [(0, [3]), (1, []), (2, []), (3, []), (4, [])]
    (CsrObject.new ⟨⟨128, 64, 2, 4, 1, 0, false⟩, false⟩) _ [] _ rfl (by decide) (by decide)
    (by decide) (by decide) (by decide) (by decide) (by decide) rfl).2
    (by unfold OffsetsHit; decide)⟩

end BwGraph
