import Mathlib.Algebra.BigOperators.Group.List.Basic
import BwGraph.Common.Type
import BwGraph.Lib.BinarySearch
import BwGraph.Lib.Rows

/-
  The two in-memory graphs in CSR form: `mem_sub_com_t` (`mem_g0com.cc`), whose vertices are
  `0..n-1`, and `mem_sub_csr_t` (`mem_g0csr.cc`), whose vertices are any. Both look for an edge by
  `std::binary_search` in the neighbour list. What is read outside an array has no result here.
-/

namespace BwGraph

open AList

open Rows CountingSort
open List

/-- What a constructor or a query does instead of giving a result: it throws, or it reads or writes
outside an array. -/
inductive MemError
  | runtimeError (message : String)
  | outOfRange
deriving DecidableEq

/-- The part of `neighborList` between two offsets. -/
def rowAt (offsets : List Nat) (neighborList : List VId) (i j : Nat) : Option (List VId) :=
  match offsets[i]?, offsets[j]? with
  | some lo, some hi =>
    if lo ≤ hi ∧ hi ≤ neighborList.length then some (slice neighborList lo hi) else none
  | _, _ => none

/-- Each row in turn is copied to its offset. -/
def fillRows (offsets : List Nat) (row : VId → List VId) (order : List VId) (list : List VId) :
    List VId :=
  order.foldl (fun list v => Bytes.poke list (offsets.getD v 0) (row v)) list

/-- `std::binary_search` over a neighbour list. -/
def searchRow (row : List VId) (dst : VId) : Bool :=
  binarySearch (fun i => row.getD i 0) row.length dst

/-! ## `mem_sub_com_t` -/

structure SubCom where
  offsets : List Nat
  neighborList : List VId
  communities : List Nat
  communityStructure : List (List VId)
  numVertices : Nat
deriving DecidableEq

namespace SubCom

/-- `mem_sub_com_t()`. -/
def new : SubCom := ⟨[], [], [], [], 0⟩

/-- `mem_sub_com_t(offsets_vec, neighbor_list_vec, communities_vec)`. -/
def ofVectors (offsets : List Nat) (neighborList : List VId) (communities : List Nat) : SubCom where
  offsets := offsets
  neighborList := neighborList
  communities := communities
  communityStructure := []
  numVertices := if offsets = [] then 0 else offsets.length - 1

/-- `mem_sub_com_t(adj_map, community_map)`. The number of vertices is computed in 32 bits; from the
id `UINT32_MAX` on it is 0, and the loops write outside the arrays. -/
def ofAdjMap (ho : HashOrder) (adjMap : AdjMap) (communityMap : AList fun _ : VId => Nat) :
    Except MemError SubCom :=
  if adjMap.entries = [] then .ok new
  else
    let keys := ho.order adjMap.keys
    let maxVertex := keys.foldl (fun m v => (adjMap.get v).foldl max (max m v)) 0
    if 2 ^ 32 ≤ maxVertex + 1 then .error .outOfRange
    else
      let numVertices := maxVertex + 1
      let counts := keys.foldl (fun counts v => counts.set (v + 1) (adjMap.get v).length)
        (List.replicate (numVertices + 1) 0)
      let offsets := (counts.drop 1).scanl (· + ·) (counts.getD 0 0)
      .ok {
        offsets := offsets
        neighborList := fillRows offsets (fun v => (adjMap.get v).insertionSort (· ≤ ·)) keys
          (List.replicate (offsets.getD numVertices 0) 0)
        communities := (List.range numVertices).map fun i => (communityMap.lookup i).getD i
        communityStructure := []
        numVertices := numVertices }

/-- `get_neighbors`. -/
def getNeighbors (g : SubCom) (v : VId) : Option (List VId) :=
  if v < g.numVertices then rowAt g.offsets g.neighborList v ((v + 1) % 2 ^ 32) else some []

/-- `has_edge`. -/
def hasEdge (g : SubCom) (src dst : VId) : Option Bool :=
  if src < g.numVertices then
    (rowAt g.offsets g.neighborList src ((src + 1) % 2 ^ 32)).map fun row => searchRow row dst
  else some false

end SubCom

/-! ## `mem_sub_csr_t` -/

structure SubCsr where
  vertexIndex : AList fun _ : VId => Nat
  offsets : List Nat
  neighborList : List VId

namespace SubCsr

/-- `mem_sub_csr_t()`. -/
def new : SubCsr := ⟨∅, [], []⟩

/-- One round of the loop that fills the arrays: the offsets, the neighbours, the next offset. -/
def appendRow (st : List Nat × List VId × Nat) (neighbors : List VId) :
    List Nat × List VId × Nat :=
  (st.1 ++ [st.2.2], st.2.1 ++ neighbors, st.2.2 + neighbors.length)

/-- `mem_sub_csr_t(adj_map)`. -/
def ofAdjMap (ho : HashOrder) (adjMap : AdjMap) : SubCsr :=
  if adjMap.entries = [] then new
  else
    let sortedVertices := (ho.order adjMap.keys).insertionSort (· ≤ ·)
    let filled := (sortedVertices.map adjMap.get).foldl appendRow ([], [], 0)
    { vertexIndex := sortedVertices.zipIdx.foldl (fun m e => m.insert e.1 e.2) ∅
      offsets := filled.1 ++ [filled.2.2]
      neighborList := filled.2.1 }

/-- `get_neighbors`. -/
def getNeighbors (g : SubCsr) (v : VId) : Option (List VId) :=
  match g.vertexIndex.lookup v with
  | none => some []
  | some i => rowAt g.offsets g.neighborList i (i + 1)

/-- `has_edge`. -/
def hasEdge (g : SubCsr) (src dst : VId) : Option Bool :=
  match g.vertexIndex.lookup src with
  | none => some false
  | some i => (rowAt g.offsets g.neighborList i (i + 1)).map fun row => searchRow row dst

end SubCsr

/-! ## Arrays that hold rows -/

/-- The offsets and the list hold the rows, one behind the other. -/
structure HoldsRows (offsets : List Nat) (neighborList : List VId) (rows : List (List VId)) :
    Prop where
  offsets_eq : offsets = starts (rows.map List.length)
  length_eq : neighborList.length = offset (fun j => (rows.getD j []).length) rows.length
  row_eq : ∀ i < rows.length, slice neighborList (offset (fun j => (rows.getD j []).length) i)
    (offset (fun j => (rows.getD j []).length) (i + 1)) = rows.getD i []

theorem offset_map_length (rows : List (List VId)) (n : Nat) :
    offset (fun j => (rows.map List.length).getD j 0) n =
      offset (fun j => (rows.getD j []).length) n := by
  refine offset_congr fun i _ => ?_
  rw [getD_eq_getElem?_getD, getD_eq_getElem?_getD, getElem?_map]
  rcases rows[i]? with _ | r <;> rfl

variable {offsets : List Nat} {neighborList : List VId} {rows : List (List VId)}

theorem HoldsRows.rowAt_eq (h : HoldsRows offsets neighborList rows) {i : Nat}
    (hi : i < rows.length) : rowAt offsets neighborList i (i + 1) = some (rows.getD i []) := by
  have hle : offset (fun j => (rows.getD j []).length) (i + 1) ≤ neighborList.length := by
    rw [h.length_eq]
    exact offset_mono hi
  have hlen : i < (rows.map List.length).length := by
    rw [length_map]
    exact hi
  unfold rowAt
  rw [h.offsets_eq, getElem?_starts (Nat.le_of_lt hlen), getElem?_starts hlen, offset_map_length,
    offset_map_length]
  dsimp only
  rw [if_pos ⟨offset_mono (Nat.le_succ i), hle⟩, h.row_eq i hi]

/-- Rows one behind the other are held. -/
theorem holdsRows_flatten (rows : List (List VId)) :
    HoldsRows (starts (rows.map List.length)) rows.flatten rows := by
  refine ⟨rfl, ?_, fun i hi => slice_flatten rows hi⟩
  induction rows with
  | nil => rfl
  | cons r rows ih => rw [flatten_cons, length_append, ih, length_cons, offset_cons]

/-- Rows copied in any order to their offsets are held. -/
theorem holdsRows_fillRows {order : List VId} (hnd : order.Nodup) {row : VId → List VId} {n : Nat}
    (hlt : ∀ v ∈ order, v < n) (hrest : ∀ v, v ∉ order → row v = []) {offsets : List Nat}
    (hoffsets : offsets = starts (((List.range n).map row).map List.length)) :
    HoldsRows offsets (fillRows offsets row order (List.replicate (offsets.getD n 0) 0))
      ((List.range n).map row) := by
  have hrow : ∀ v < n, ((List.range n).map row).getD v [] = row v := by
    intro v hv
    rw [getD_eq_getElem _ _ (by rw [length_map, length_range]; exact hv),
      getElem_map, getElem_range]
  have hoffset : ∀ m ≤ n, offset (fun j => (((List.range n).map row).getD j []).length) m =
      offset (fun u => (row u).length) m := fun m hm =>
    offset_congr fun i hi => by rw [hrow i (Nat.lt_of_lt_of_le hi hm)]
  have hget : ∀ v ≤ n, offsets.getD v 0 = offset (fun u => (row u).length) v := by
    intro v hv
    rw [hoffsets, getD_eq_getElem?_getD, getElem?_starts (by simpa using hv),
      offset_map_length, hoffset v hv]
    rfl
  have hstore : fillRows offsets row order (List.replicate (offsets.getD n 0) 0) =
      storeRows row order (List.replicate (offset (fun u => (row u).length) n) 0) := by
    unfold fillRows storeRows
    rw [hget n (Nat.le_refl n)]
    refine foldl_ext _ _ _ fun list v hv => ?_
    rw [hget v (Nat.le_of_lt (hlt v hv))]
  rw [hstore]
  refine ⟨hoffsets, ?_, fun v hv => ?_⟩
  · rw [length_storeRows, length_replicate, length_map, length_range,
      hoffset n (Nat.le_refl n)]
  · rw [length_map, length_range] at hv
    rw [hrow v hv, hoffset v (Nat.le_of_lt hv), hoffset (v + 1) hv]
    by_cases hmem : v ∈ order
    · refine slice_storeRows hnd (fun u hu => ?_) hmem
      rw [length_replicate]
      exact offset_mono (hlt u hu)
    · rw [hrest v hmem]
      unfold slice
      show List.take (offset _ v + (row v).length - offset _ v) _ = []
      rw [hrest v hmem, length_nil, Nat.add_zero, Nat.sub_self, take_zero]

/-! ## The constructors from a map -/

namespace SubCsr

theorem foldl_appendRow (rows : List (List VId)) (st : List Nat × List VId × Nat) :
    (rows.foldl appendRow st).1 ++ [(rows.foldl appendRow st).2.2] =
        st.1 ++ (rows.map List.length).scanl (· + ·) st.2.2 ∧
      (rows.foldl appendRow st).2.1 = st.2.1 ++ rows.flatten := by
  induction rows generalizing st with
  | nil => exact ⟨rfl, (append_nil _).symm⟩
  | cons r rows ih =>
    obtain ⟨hoff, hlist⟩ := ih (appendRow st r)
    refine ⟨?_, ?_⟩
    · rw [foldl_cons, hoff, map_cons, scanl_cons]
      exact append_assoc _ _ _
    · rw [foldl_cons, hlist, flatten_cons]
      exact append_assoc _ _ _

/-- The position of each vertex. -/
theorem lookup_foldl_insert (vs : List VId) (hnd : vs.Nodup) (k : Nat)
    (m : AList fun _ : VId => Nat) (v : VId) :
    ((vs.zipIdx k).foldl (fun m e => m.insert e.1 e.2) m).lookup v =
      if v ∈ vs then some (k + vs.idxOf v) else m.lookup v := by
  induction vs generalizing k m with
  | nil => rfl
  | cons w vs ih =>
    obtain ⟨hw, hnd'⟩ := nodup_cons.1 hnd
    rw [zipIdx_cons, foldl_cons, ih hnd']
    by_cases he : v = w
    · subst he
      rw [if_neg hw, if_pos mem_cons_self, lookup_insert, idxOf_cons_self,
        Nat.add_zero]
    · simp only [mem_cons, he, false_or]
      split_ifs with hv
      · rw [idxOf_cons_ne _ (Ne.symm he), Nat.add_assoc, Nat.add_comm 1]
      · exact lookup_insert_ne he

theorem holdsRows_foldl_appendRow (rows : List (List VId)) :
    HoldsRows ((rows.foldl appendRow ([], [], 0)).1 ++ [(rows.foldl appendRow ([], [], 0)).2.2])
      (rows.foldl appendRow ([], [], 0)).2.1 rows := by
  obtain ⟨hoff, hlist⟩ := foldl_appendRow rows ([], [], 0)
  rw [hoff, hlist]
  exact holdsRows_flatten rows

/-- What is stored for a vertex: its list in the map, in its order. -/
theorem lookup_ofAdjMap (ho : HashOrder) (adjMap : AdjMap) (v : VId) :
    (v ∉ adjMap ∧ (ofAdjMap ho adjMap).vertexIndex.lookup v = none) ∨
      ∃ i, (ofAdjMap ho adjMap).vertexIndex.lookup v = some i ∧
        rowAt (ofAdjMap ho adjMap).offsets (ofAdjMap ho adjMap).neighborList i (i + 1) =
          some (adjMap.get v) := by
  unfold ofAdjMap
  split_ifs with hempty
  · refine .inl ⟨fun hmem => ?_, rfl⟩
    have hkey := AList.mem_keys.1 hmem
    unfold AList.keys at hkey
    rw [hempty] at hkey
    exact absurd hkey not_mem_nil
  set vs := (ho.order adjMap.keys).insertionSort (· ≤ ·)
  have hperm : vs.Perm adjMap.keys := (perm_insertionSort _ _).trans (ho.perm _)
  have hlookup := lookup_foldl_insert vs (hperm.nodup_iff.2 adjMap.keys_nodup) 0 ∅ v
  by_cases hv : v ∈ vs
  · rw [if_pos hv, Nat.zero_add] at hlookup
    refine .inr ⟨vs.idxOf v, hlookup, ?_⟩
    have hlt : vs.idxOf v < (vs.map adjMap.get).length := by
      rw [length_map]
      exact idxOf_lt_length_of_mem hv
    refine ((holdsRows_foldl_appendRow (vs.map adjMap.get)).rowAt_eq hlt).trans ?_
    rw [getD_eq_getElem _ _ hlt, getElem_map, getElem_idxOf]
  · rw [if_neg hv] at hlookup
    exact .inl ⟨fun hmem => hv (hperm.mem_iff.2 (AList.mem_keys.1 hmem)), hlookup⟩

/-- The neighbours of a vertex, and the search among them. -/
theorem queries_ofAdjMap (ho : HashOrder) (adjMap : AdjMap) (v : VId) :
    (ofAdjMap ho adjMap).getNeighbors v = some (adjMap.get v) ∧
      ∀ dst, (ofAdjMap ho adjMap).hasEdge v dst = some (searchRow (adjMap.get v) dst) := by
  unfold getNeighbors hasEdge
  rcases lookup_ofAdjMap ho adjMap v with ⟨hmem, hnone⟩ | ⟨i, hi, hrow⟩
  · have hget : adjMap.get v = [] := by
      unfold AdjMap.get
      rw [lookup_eq_none.2 hmem]
      rfl
    rw [hnone, hget]
    exact ⟨rfl, fun dst => rfl⟩
  · rw [hi]
    dsimp only
    rw [hrow]
    exact ⟨rfl, fun dst => rfl⟩

end SubCsr

namespace SubCom

/-- What the map constructor stores as row `v`. -/
def sortedRow (adjMap : AdjMap) (v : VId) : List VId := (adjMap.get v).insertionSort (· ≤ ·)

variable (adjMap : AdjMap)

theorem length_sortedRow (v : VId) :
    (sortedRow adjMap v).length = (adjMap.get v).length := length_insertionSort _ _

/-- The first pass: the lengths of the lists, each behind its vertex. -/
theorem foldl_counts (adjMap : AdjMap) {keys : List VId} {n : Nat} (hlt : ∀ v ∈ keys, v < n)
    {counts : List Nat} (hlen : counts.length = n + 1) :
    (keys.foldl (fun counts v => counts.set (v + 1) (adjMap.get v).length) counts).length =
        n + 1 ∧
      ∀ i ≤ n, (keys.foldl (fun counts v => counts.set (v + 1) (adjMap.get v).length)
          counts).getD i 0 =
        if i ≠ 0 ∧ i - 1 ∈ keys then (adjMap.get (i - 1)).length else counts.getD i 0 := by
  induction keys generalizing counts with
  | nil => exact ⟨hlen, fun i _ => by rw [if_neg fun h => not_mem_nil h.2]; rfl⟩
  | cons v keys ih =>
    have hset : (counts.set (v + 1) (adjMap.get v).length).length = n + 1 := by
      rw [length_set, hlen]
    obtain ⟨hlen', hget⟩ := ih (fun w hw => hlt w (mem_cons_of_mem _ hw)) hset
    refine ⟨hlen', fun i hi => ?_⟩
    rw [foldl_cons, hget i hi, Bytes.getD_set]
    by_cases hin : i ≠ 0 ∧ i - 1 ∈ keys
    · rw [if_pos hin, if_pos ⟨hin.1, mem_cons_of_mem _ hin.2⟩]
    · rw [if_neg hin]
      by_cases he : i = v + 1
      · subst he
        rw [if_pos ⟨rfl, by omega⟩, Nat.add_sub_cancel, if_pos ⟨by omega, mem_cons_self⟩]
      · rw [if_neg fun h => he h.1, if_neg]
        intro h
        rcases mem_cons.1 h.2 with hv' | hmem
        · omega
        · exact hin ⟨h.1, hmem⟩

/-- The offsets after the summation: those of the rows. -/
theorem offsets_ofAdjMap {keys : List VId} {n : Nat} (hlt : ∀ v ∈ keys, v < n)
    (hall : ∀ v, v ∉ keys → adjMap.get v = []) :
    (((keys.foldl (fun counts v => counts.set (v + 1) (adjMap.get v).length)
      (List.replicate (n + 1) 0)).drop 1).scanl (· + ·)
      ((keys.foldl (fun counts v => counts.set (v + 1) (adjMap.get v).length)
        (List.replicate (n + 1) 0)).getD 0 0)) =
      starts (((List.range n).map (sortedRow adjMap)).map List.length) := by
  obtain ⟨hlen, hget⟩ := @foldl_counts adjMap _ _ hlt (List.replicate (n + 1) 0)
    length_replicate
  set counts := keys.foldl (fun counts v => counts.set (v + 1) (adjMap.get v).length)
    (List.replicate (n + 1) 0) with hcounts
  have hzero : counts.getD 0 0 = 0 := by
    rw [hget 0 (Nat.zero_le n), if_neg fun h => h.1 rfl]
    rfl
  unfold starts
  rw [hzero]
  congr 1
  refine ext_getElem ?_ fun i h1 h2 => ?_
  · rw [length_drop, hlen, length_map, length_map, length_range]
    rfl
  · rw [length_drop, hlen] at h1
    have hi := hget (i + 1) (by omega)
    rw [getD_eq_getElem _ _ (by omega)] at hi
    rw [getElem_map, getElem_map, getElem_range, length_sortedRow,
      getElem_drop]
    simp only [Nat.add_comm 1 i]
    rw [hi]
    split_ifs with hmem
    · rfl
    · rw [hall i fun hk => hmem ⟨Nat.succ_ne_zero i, hk⟩]
      simp

theorem le_foldl_max (l : List VId) (m : Nat) : m ≤ l.foldl max m := by
  induction l generalizing m with
  | nil => exact Nat.le_refl m
  | cons v l ih => exact (Nat.le_max_left m v).trans (ih (max m v))

/-- No key is above the largest id. -/
theorem key_le_max (keys : List VId) (m : Nat) :
    m ≤ keys.foldl (fun m v => (adjMap.get v).foldl max (max m v)) m ∧
      ∀ v ∈ keys, v ≤ keys.foldl (fun m v => (adjMap.get v).foldl max (max m v)) m := by
  induction keys generalizing m with
  | nil => exact ⟨Nat.le_refl m, fun v hv => absurd hv not_mem_nil⟩
  | cons w keys ih =>
    obtain ⟨hle, hall⟩ := ih ((adjMap.get w).foldl max (max m w))
    have hstep := le_foldl_max (adjMap.get w) (max m w)
    refine ⟨?_, fun v hv => ?_⟩
    · exact ((Nat.le_max_left m w).trans hstep).trans hle
    · rcases mem_cons.1 hv with rfl | hv
      · exact ((Nat.le_max_right m v).trans hstep).trans hle
      · exact hall v hv

variable {ho : HashOrder} {adjMap : AdjMap} {communityMap : AList fun _ : VId => Nat} {g : SubCom}
  (h : ofAdjMap ho adjMap communityMap = .ok g)
include h

theorem holdsRows_ofAdjMap (hne : adjMap.entries ≠ []) :
    g.numVertices < 2 ^ 32 ∧ (∀ v, v ∈ adjMap → v < g.numVertices) ∧
      HoldsRows g.offsets g.neighborList ((List.range g.numVertices).map (sortedRow adjMap)) := by
  unfold ofAdjMap at h
  rw [if_neg hne] at h
  dsimp only at h
  split_ifs at h with hmax
  obtain rfl := Except.ok.inj h
  have hperm : (ho.order adjMap.keys).Perm adjMap.keys := ho.perm _
  have hkeys := (key_le_max adjMap (ho.order adjMap.keys) 0).2
  set keys := ho.order adjMap.keys
  set maxVertex := keys.foldl (fun m v => (adjMap.get v).foldl max (max m v)) 0
  have hlt : ∀ v ∈ keys, v < maxVertex + 1 := fun v hv => Nat.lt_succ_of_le (hkeys v hv)
  have hrest : ∀ v, v ∉ keys → adjMap.get v = [] := by
    intro v hv
    unfold AdjMap.get
    rw [lookup_eq_none.2 fun hmem => hv (hperm.mem_iff.2 (mem_keys.1 hmem))]
    rfl
  refine ⟨Nat.lt_of_not_le hmax,
    fun v hv => hlt v (hperm.mem_iff.2 (mem_keys.1 hv)), ?_⟩
  refine holdsRows_fillRows (hperm.nodup_iff.2 adjMap.keys_nodup) hlt (fun v hv => ?_)
    (offsets_ofAdjMap adjMap hlt hrest)
  rw [hrest v hv]
  rfl

/-- The neighbours of a vertex, ascending, and the search among them. -/
theorem queries_ofAdjMap (v : VId) :
    g.getNeighbors v = some (sortedRow adjMap v) ∧
      ∀ dst, g.hasEdge v dst = some (searchRow (sortedRow adjMap v) dst) := by
  have hnone : v ∉ adjMap → sortedRow adjMap v = [] := by
    intro hmem
    unfold sortedRow AdjMap.get
    rw [AList.lookup_eq_none.2 hmem]
    rfl
  unfold getNeighbors hasEdge
  by_cases hne : adjMap.entries = []
  · unfold ofAdjMap at h
    rw [if_pos hne] at h
    obtain rfl := Except.ok.inj h
    have hmem : v ∉ adjMap := by
      intro hv
      have hkey := AList.mem_keys.1 hv
      unfold AList.keys at hkey
      rw [hne] at hkey
      exact absurd hkey not_mem_nil
    rw [hnone hmem]
    exact ⟨rfl, fun dst => rfl⟩
  · obtain ⟨hn, hkeys, hrows⟩ := holdsRows_ofAdjMap h hne
    split_ifs with hv
    · have hrow := hrows.rowAt_eq (i := v) (by rw [length_map, length_range]; exact hv)
      rw [getD_eq_getElem _ _ (by rw [length_map, length_range]; exact hv),
        getElem_map, getElem_range] at hrow
      rw [Nat.mod_eq_of_lt (Nat.lt_of_le_of_lt hv hn), hrow]
      exact ⟨rfl, fun dst => rfl⟩
    · rw [hnone fun hmem => hv (hkeys v hmem)]
      exact ⟨rfl, fun dst => rfl⟩

end SubCom

end BwGraph
