import BwGraph.Io.CsrObject

/-
  What a raw page stores, vertex by vertex. A region is the part of the neighbour section that a
  vertex was given when it was added, slots included, with the degree its entry has now. The regions
  lie one behind another, and an entry holds the byte offset of its region; a vertex that was giant
  when it was added has an empty region and the offset 0 (`CsrObject.Holds`). A vertex may become
  giant later on, and then keeps its region and its offset.
-/

namespace BwGraph

open Bytes
open List

/-- The region of a vertex. -/
structure Region where
  vertexId : VId
  degree : Nat
  isExternal : Bool
  words : List VId
  deriving DecidableEq, Repr

namespace Region

/-- The region an `add_vertex` or an item of an adjacency map gives. -/
def ofVertex (cfg : Config) (vertexId : VId) (neighbors : List VId) (slots : Nat) : Region :=
  if neighbors.length % 2 ^ 32 ≥ cfg.giantDegreeBound then
    ⟨vertexId, neighbors.length % 2 ^ 32, true, []⟩
  else ⟨vertexId, neighbors.length % 2 ^ 32, false, neighbors ++ List.replicate slots 0⟩

/-- The words of all regions. -/
def stored (rs : List Region) : List VId := rs.flatMap Region.words

/-- The number of words in front of a region. -/
def start (rs : List Region) (i : Nat) : Nat := ((rs.map fun r => r.words.length).take i).sum

/-- The entry of a vertex whose region begins behind `k` words. -/
def entry (r : Region) (k : Nat) : CsrVertex :=
  ⟨r.vertexId, r.degree, if r.isExternal then 0 else k * 4, 0⟩

/-- The degree fits the region, and the fields fit their widths. -/
structure Valid (cfg : Config) (r : Region) : Prop where
  vertexId : r.vertexId < 2 ^ 32
  degree : r.degree < 2 ^ 32
  words : ∀ w ∈ r.words, w < 2 ^ 32
  giant : r.isExternal = true → r.words = [] ∧ cfg.giantDegreeBound ≤ r.degree
  inside : r.isExternal = false → r.degree ≤ r.words.length

variable {cfg : Config} {rs : List Region} {r r' : Region} {i j k : Nat} {d : VId}

theorem length_stored (rs : List Region) :
    (stored rs).length = (rs.map fun r => r.words.length).sum := by
  rw [stored, length_flatMap]

theorem start_succ (h : rs[i]? = some r) : start rs (i + 1) = start rs i + r.words.length := by
  unfold start
  rw [take_add_one, getElem?_map, h, sum_append]
  rfl

theorem start_cons (q : Region) (rs : List Region) (i : Nat) :
    start (q :: rs) (i + 1) = q.words.length + start rs i := by
  rw [start, map_cons, take_succ_cons, sum_cons, start]

theorem start_mono (rs : List Region) (h : i ≤ j) : start rs i ≤ start rs j := by
  unfold start
  rw [← Nat.min_eq_left h, ← take_take]
  generalize (rs.map fun r => r.words.length).take j = ns
  conv_rhs => rw [← take_append_drop i ns]
  rw [sum_append]
  exact Nat.le_add_right _ _

theorem start_length (rs : List Region) : start rs rs.length = (stored rs).length := by
  rw [length_stored, start, take_of_length_le (by rw [length_map])]

variable (h : rs[i]? = some r)
include h

/-- A region ends before the next one begins, and inside the section. -/
theorem start_add_le : start rs i + r.words.length ≤ (stored rs).length := by
  have hlt := (List.getElem?_eq_some_iff.1 h).1
  rw [← start_succ h, ← start_length]
  exact start_mono rs hlt

/-- The words of a region are those of the section from its start on. -/
theorem drop_stored : (stored rs).drop (start rs i) = r.words ++ stored (rs.drop (i + 1)) := by
  induction rs generalizing i with
  | nil => cases h
  | cons q rs ih =>
    cases i with
    | zero =>
      cases h
      rfl
    | succ i =>
      rw [start_cons, stored, flatMap_cons, drop_length_add_append]
      exact ih h

/-! ## Changing one region -/

theorem lengths_set (hr : r'.words.length = r.words.length) :
    (rs.set i r').map (fun r => r.words.length) = rs.map fun r => r.words.length := by
  have hlt := (List.getElem?_eq_some_iff.1 h).1
  refine List.ext_getElem? fun j => ?_
  rw [List.getElem?_map, List.getElem?_set, List.getElem?_map]
  split_ifs with hij
  · rw [← hij, h, Option.map_some, Option.map_some, hr]
  · rfl

theorem start_set (hr : r'.words.length = r.words.length) (j : Nat) :
    start (rs.set i r') j = start rs j := by
  rw [start, lengths_set h hr, start]

theorem stored_set (hk : k < r.words.length) (hr : r'.words = r.words.set k d) :
    stored (rs.set i r') = (stored rs).set (start rs i + k) d := by
  induction rs generalizing i with
  | nil => cases h
  | cons q rs ih =>
    cases i with
    | zero =>
      rw [getElem?_cons_zero, Option.some.injEq] at h
      subst h
      have hzero : start (q :: rs) 0 = 0 := rfl
      rw [hzero, Nat.zero_add, set_cons_zero, stored, flatMap_cons, hr, stored,
        flatMap_cons, set_append_left _ _ hk]
    | succ i =>
      have htail := ih h
      unfold stored at htail ⊢
      rw [start_cons, set_cons_succ, flatMap_cons, flatMap_cons, htail,
        Nat.add_assoc, set_append_right _ _ (by omega), Nat.add_sub_cancel_left]

end Region

/-! ## Words in bytes -/

theorem drop_flatMap_wordWrite (ws : List VId) (k : Nat) :
    (ws.flatMap wordWrite).drop (k * 4) = (ws.drop k).flatMap wordWrite := by
  induction ws generalizing k with
  | nil => rw [drop_nil, flatMap_nil, drop_nil]
  | cons w ws ih =>
    cases k with
    | zero => rfl
    | succ k =>
      have hk : (k + 1) * 4 = (wordWrite w).length + k * 4 := by
        rw [length_wordWrite]
        omega
      rw [flatMap_cons, hk, drop_length_add_append, ih, drop_succ_cons]

variable {ws : List VId}

/-- Reading words that were stored. -/
theorem wordReads_stored (hws : ∀ w ∈ ws, w < 2 ^ 32) (rest : List Nat) {k n : Nat}
    (h : k + n ≤ ws.length) :
    wordReads n ((ws.flatMap wordWrite ++ rest).drop (k * 4)) = (ws.drop k).take n := by
  have hlen : ((ws.drop k).take n).length = n := by
    rw [length_take, length_drop]
    omega
  have hbytes : k * 4 ≤ (ws.flatMap wordWrite).length := by
    rw [length_flatMap_wordWrite]
    omega
  have hsplit : (ws.drop k).flatMap wordWrite =
      ((ws.drop k).take n).flatMap wordWrite ++ ((ws.drop k).drop n).flatMap wordWrite := by
    rw [← flatMap_append, take_append_drop]
  have hread := wordReads_append ((ws.drop k).take n)
    (fun w hw => hws w (mem_of_mem_drop (mem_of_mem_take hw)))
    (((ws.drop k).drop n).flatMap wordWrite ++ rest)
  rw [hlen] at hread
  rw [drop_append_of_le_length hbytes, drop_flatMap_wordWrite, hsplit, append_assoc, hread]

/-- Storing a word over one of them. -/
theorem poke_stored (rest : List Nat) {k : Nat} (h : k < ws.length) (d : VId) :
    poke (ws.flatMap wordWrite ++ rest) (k * 4) (wordWrite d) =
      (ws.set k d).flatMap wordWrite ++ rest := by
  rw [poke_append (by rw [length_flatMap_wordWrite, length_wordWrite]; omega)]
  congr 1
  induction ws generalizing k with
  | nil => exact absurd h (Nat.not_lt_zero _)
  | cons w ws ih =>
    cases k with
    | zero => rfl
    | succ k =>
      have hpos : (k + 1) * 4 = (wordWrite w).length + k * 4 := by
        rw [length_wordWrite]
        omega
      rw [length_cons] at h
      rw [flatMap_cons, hpos, set_cons_succ, flatMap_cons, ← ih (by omega),
        poke_append_right]

namespace CsrObject

/-! ## Pages that store regions -/

/-- The page stores the regions. -/
structure Holds (cfg : PageConfig) (rs : List Region) (obj : CsrObject) : Prop where
  synced : obj.Synced cfg
  length : obj.data.length = cfg.pageSize
  vertices : obj.numVertices = rs.length
  vertexAt : ∀ i r, rs[i]? = some r → obj.vertexAt i = r.entry (Region.start rs i)
  stored : ∃ rest, obj.data.drop (fixedSize cfg.toConfig rs.length) =
    (Region.stored rs).flatMap wordWrite ++ rest
  usedBytes : obj.usedBytes = fixedSize cfg.toConfig rs.length + (Region.stored rs).length * 4 +
    cfg.tsDataSize ((Region.stored rs).length * 4)
  valid : ∀ r ∈ rs, r.Valid cfg.toConfig
  edgeTsPtr : cfg.transaction = true → obj.edgeTsPtr.isSome = true

variable {cfg : PageConfig} {rs : List Region} {r : Region} {obj : CsrObject} {i : Nat}

variable (h : obj.Holds cfg rs)
include h

/-- The words of the regions fit the page. -/
theorem Holds.fits :
    fixedSize cfg.toConfig rs.length + (Region.stored rs).length * 4 ≤ cfg.pageSize := by
  have hmost := h.synced.most
  have hused := h.usedBytes
  omega

theorem Holds.validAt (hi : rs[i]? = some r) : r.Valid cfg.toConfig :=
  h.valid r (mem_of_getElem? hi)

theorem Holds.words : ∀ w ∈ Region.stored rs, w < 2 ^ 32 := by
  intro w hw
  obtain ⟨r, hr, hwr⟩ := mem_flatMap.1 hw
  exact (h.valid r hr).words w hwr

theorem Holds.neighborPos : obj.neighborPos = fixedSize cfg.toConfig rs.length := by
  rw [h.synced.neighborPos, h.vertices]

end CsrObject

/-- The neighbours a reader finds in a region. -/
def Region.neighbors (cfg : Config) (r : Region) : List VId :=
  if r.degree ≥ cfg.giantDegreeBound then [] else r.words.take r.degree

namespace CsrObject

variable {cfg : PageConfig} {rs : List Region} {r : Region} {obj : CsrObject} {i : Nat}

theorem Holds.getNeighbors (h : obj.Holds cfg rs) (hi : rs[i]? = some r) :
    obj.getNeighbors cfg i = r.neighbors cfg.toConfig := by
  have hlt : i < rs.length := (List.getElem?_eq_some_iff.1 hi).1
  have hv := h.validAt hi
  unfold CsrObject.getNeighbors Region.neighbors
  rw [if_neg (by rw [h.vertices]; omega), h.vertexAt i r hi]
  dsimp only [Region.entry]
  by_cases hg : r.degree ≥ cfg.giantDegreeBound
  · rw [if_pos hg, if_pos hg]
  · have hext : r.isExternal = false := by
      cases hx : r.isExternal with
      | false => rfl
      | true => exact absurd (hv.giant hx).2 hg
    have hin := hv.inside hext
    have hend := Region.start_add_le hi
    have hdiv : Region.start rs i * 4 / 4 * 4 = Region.start rs i * 4 := by omega
    obtain ⟨rest, hst⟩ := h.stored
    rw [if_neg hg, if_neg hg, if_neg (by rw [hext]; decide), hdiv, h.neighborPos,
      ← List.drop_drop, hst, wordReads_stored h.words rest (by omega), Region.drop_stored hi,
      List.take_append_of_le_length hin]

theorem Holds.getVertexDegree (h : obj.Holds cfg rs) (hi : rs[i]? = some r) :
    obj.getVertexDegree i = r.degree := by
  have hlt : i < rs.length := (List.getElem?_eq_some_iff.1 hi).1
  unfold CsrObject.getVertexDegree
  rw [if_neg (by rw [h.vertices]; omega), h.vertexAt i r hi]
  rfl

end CsrObject

/-! ## Pages built from an adjacency map -/

namespace Region

variable {cfg : Config} {slots : VId → Nat} {items : List (VId × List VId)}

/-- The regions of the items of an adjacency map. -/
def ofItems (cfg : Config) (slots : VId → Nat) (items : List (VId × List VId)) : List Region :=
  items.map fun it => ofVertex cfg it.1 it.2 (slots it.1)

theorem ofVertex_valid {v : VId} {nbrs : List VId} (hv : v < 2 ^ 32)
    (hnbrs : ∀ d ∈ nbrs, d < 2 ^ 32) (n : Nat) : (ofVertex cfg v nbrs n).Valid cfg := by
  have hlt : nbrs.length % 2 ^ 32 < 2 ^ 32 := Nat.mod_lt _ (by decide)
  unfold ofVertex
  split_ifs with hg
  · exact ⟨hv, hlt, fun w hw => absurd hw not_mem_nil, fun _ => ⟨rfl, hg⟩, nofun⟩
  · refine ⟨hv, hlt, fun w hw => ?_, nofun, fun _ => ?_⟩
    · rcases mem_append.1 hw with hw | hw
      · exact hnbrs w hw
      · rw [eq_of_mem_replicate hw]
        decide
    · rw [length_append]
      exact Nat.le_trans (Nat.mod_le _ _) (Nat.le_add_right _ _)

theorem flatMap_words_ofVertex {it : VId × List VId} (h : it.2.length < 2 ^ 32) :
    (ofVertex cfg it.1 it.2 (slots it.1)).words.flatMap wordWrite = rawBlock cfg slots it := by
  unfold ofVertex rawBlock
  rw [Nat.mod_eq_of_lt h]
  split_ifs <;> rfl

theorem flatMap_stored_ofItems (h : ∀ it ∈ items, it.2.length < 2 ^ 32) :
    (stored (ofItems cfg slots items)).flatMap wordWrite = items.flatMap (rawBlock cfg slots) := by
  rw [stored, ofItems, flatMap_map, flatMap_assoc]
  exact flatMap_congr fun it hit => flatMap_words_ofVertex (h it hit)

theorem start_ofItems (h : ∀ it ∈ items, it.2.length < 2 ^ 32) (i : Nat) :
    start (ofItems cfg slots items) i * 4 =
      ((items.take i).flatMap (rawBlock cfg slots)).length := by
  have htake : ∀ it ∈ items.take i, it.2.length < 2 ^ 32 :=
    fun it hit => h it (mem_of_mem_take hit)
  rw [← flatMap_stored_ofItems htake, length_flatMap_wordWrite, length_stored, start,
    ← map_take, ofItems, ← map_take, ← ofItems, Nat.mul_comm]

end Region

/-- A raw page built from an adjacency map stores the regions of the items. -/
theorem CsrObject.Built.holds {cfg : PageConfig} {slots : VId → Nat} {items : List (VId × List VId)}
    {obj : CsrObject} (h : obj.Built cfg slots items) (hraw : cfg.neighborCompress = false)
    (hids : ∀ it ∈ items, it.1 < 2 ^ 32) (hnbrs : ∀ it ∈ items, ∀ d ∈ it.2, d < 2 ^ 32)
    (hts : cfg.transaction = true → obj.edgeTsPtr.isSome = true) :
    obj.Holds cfg (Region.ofItems cfg.toConfig slots items) := by
  have hblock : items.flatMap (block cfg.toConfig slots) =
      (Region.stored (Region.ofItems cfg.toConfig slots items)).flatMap wordWrite := by
    rw [Region.flatMap_stored_ofItems h.degree, block_eq_rawBlock hraw]
  have hlen : (Region.ofItems cfg.toConfig slots items).length = items.length := length_map _
  have hsize : (items.flatMap (block cfg.toConfig slots)).length =
      (Region.stored (Region.ofItems cfg.toConfig slots items)).length * 4 := by
    rw [hblock, length_flatMap_wordWrite, Nat.mul_comm]
  refine ⟨h.synced, h.length, by rw [h.vertices, hlen], fun i r hi => ?_, ?_, ?_, fun r hr => ?_,
    hts⟩
  · obtain ⟨it, hit, rfl⟩ : ∃ it, items[i]? = some it ∧
        Region.ofVertex cfg.toConfig it.1 it.2 (slots it.1) = r := by
      rw [Region.ofItems, getElem?_map] at hi
      exact Option.map_eq_some_iff.1 hi
    have hlt := h.degree it (mem_of_getElem? hit)
    rw [h.vertexAt i it.1 it.2 hit, Region.entry, Region.start_ofItems h.degree,
      block_eq_rawBlock hraw, Region.ofVertex, Nat.mod_eq_of_lt hlt]
    split_ifs <;> first | rfl | contradiction
  · obtain ⟨n, hn⟩ := h.neighbors
    rw [h.synced.neighborPos, h.vertices] at hn
    rw [hlen, hn, hblock]
    exact ⟨_, rfl⟩
  · rw [h.usedBytes, hlen, hsize]
  · obtain ⟨it, hit, rfl⟩ := mem_map.1 hr
    exact Region.ofVertex_valid (hids it hit) (hnbrs it hit) _

end BwGraph
