import BwGraph.Io.CsrPageBuilder
import BwGraph.Part.PageSize

/-
  The timestamps of the edges of a page (`get_edge_ts`, `write_edge_timestamps`), in the build with
  transactions. The array lies behind the neighbour section, and the entry of a neighbour is found by
  the offset of its vertex in units of four bytes: the array is parallel to the neighbours where a
  neighbour is a word. In the raw build no two neighbours share an entry, and a parse finds the array
  where the build put it (`edgeTs_written`). In the compressed build a neighbour takes one to four
  bytes, so that entries may coincide or lie behind the array, and a parse finds it elsewhere unless
  the section is a multiple of four bytes; `edgeTs_iff` is the exact condition.
-/

namespace BwGraph

open Nat CsrObject

open Bytes
open List

/-- `INVALID_TS`: always visible. -/
def invalidTs : Nat := 0

/-- The entry of the `j`-th neighbour of a vertex in the timestamp array. -/
def CsrVertex.tsIndex (e : CsrVertex) (j : Nat) : Nat := (e.offset / 4 + j) % 2 ^ 32

namespace CsrObject

/-- `get_edge_ts`. -/
def getEdgeTs (obj : CsrObject) (vertexOffset j : Nat) : Nat :=
  match obj.edgeTsPtr with
  | none => invalidTs
  | some ptr =>
    if vertexOffset ≥ obj.numVertices then invalidTs
    else longRead (obj.data.drop (ptr + (obj.vertexAt vertexOffset).tsIndex j * timestampBytes))

/-- The inner loop of `write_edge_timestamps`: the first `count` timestamps of a vertex. -/
def writeTsVec (ptr : Nat) (v : CsrVertex) (tsVec : List Nat) (count : Nat) (data : List Nat) :
    List Nat :=
  (List.range count).foldl
    (fun data j => poke data (ptr + v.tsIndex j * timestampBytes) (longWrite (tsVec.getD j 0))) data

/-- One iteration of the outer loop. -/
def writeVertexTs (cfg : PageConfig) (tsMap : VId → Option (List Nat)) (ptr : Nat) (obj : CsrObject)
    (vi : Nat) : CsrObject :=
  let v := obj.vertexAt vi
  if v.degree ≥ cfg.giantDegreeBound then obj
  else
    match tsMap v.vertexId with
    | none => obj
    | some tsVec =>
      { obj with data := writeTsVec ptr v tsVec (min tsVec.length v.degree) obj.data }

/-- `write_edge_timestamps`. -/
def writeEdgeTimestamps (cfg : PageConfig) (obj : CsrObject) (tsMap : VId → Option (List Nat)) :
    CsrObject :=
  match obj.edgeTsPtr with
  | none => obj
  | some ptr =>
    { (List.range obj.numVertices).foldl (writeVertexTs cfg tsMap ptr) obj with isDirty := true }

/-- The timestamp `tsMap` gives for the `j`-th neighbour of a vertex. -/
def tsGiven (tsMap : VId → Option (List Nat)) (v : VId) (j : Nat) : Nat :=
  ((tsMap v).bind fun tsVec => tsVec[j]?).getD invalidTs

/-! ## One array -/

/-- The entry `k` of the array at `ptr`. -/
def tsEntry (ptr : Nat) (data : List Nat) (k : Nat) : Nat :=
  longRead (data.drop (ptr + k * timestampBytes))

theorem tsEntry_poke_self {ptr k t : Nat} {data : List Nat} (ht : t < 2 ^ 64)
    (h : ptr + (k + 1) * timestampBytes ≤ data.length) :
    tsEntry ptr (poke data (ptr + k * timestampBytes) (longWrite t)) k = t := by
  unfold timestampBytes at h
  unfold tsEntry
  rw [drop_poke (by rw [length_longWrite]; unfold timestampBytes; omega)]
  exact longRead_longWrite ht _

theorem tsEntry_poke_ne {ptr k k' t : Nat} (data : List Nat) (h : k' ≠ k) :
    tsEntry ptr (poke data (ptr + k * timestampBytes) (longWrite t)) k' = tsEntry ptr data k' := by
  unfold tsEntry timestampBytes
  refine readsFirst_longRead.poke ?_
  rw [length_longWrite]
  omega

section WriteTsVec

variable {ptr count : Nat} {v : CsrVertex} {tsVec data : List Nat}

theorem writeTsVec_succ : writeTsVec ptr v tsVec (count + 1) data =
    poke (writeTsVec ptr v tsVec count data) (ptr + v.tsIndex count * timestampBytes)
      (longWrite (tsVec.getD count 0)) := by
  rw [writeTsVec, range_succ, foldl_append]
  rfl

@[simp] theorem length_writeTsVec : (writeTsVec ptr v tsVec count data).length = data.length := by
  induction count with
  | zero => rfl
  | succ count ih => rw [writeTsVec_succ, length_poke, ih]

/-- Nothing in front of the array is written. -/
theorem agreeOn_writeTsVec : AgreeOn 0 ptr (writeTsVec ptr v tsVec count data) data := by
  induction count with
  | zero => exact .refl _ _ _
  | succ count ih =>
    rw [writeTsVec_succ]
    exact (agreeOn_poke _ (.inl (Nat.le_add_right _ _))).trans ih

/-- An entry no neighbour of the vertex has. -/
theorem tsEntry_writeTsVec_ne {k : Nat} (h : ∀ j < count, k ≠ v.tsIndex j) :
    tsEntry ptr (writeTsVec ptr v tsVec count data) k = tsEntry ptr data k := by
  induction count with
  | zero => rfl
  | succ count ih =>
    rw [writeTsVec_succ, tsEntry_poke_ne _ (h count (lt_succ_self _)),
      ih fun j hj => h j (lt_succ_of_lt hj)]

/-- The entry of one of the neighbours written. -/
theorem tsEntry_writeTsVec {j : Nat} (hj : j < count)
    (hinj : ∀ j j', j < count → j' < count → v.tsIndex j = v.tsIndex j' → j = j')
    (hvals : ∀ t ∈ tsVec, t < 2 ^ 64)
    (hfit : ∀ j < count, ptr + (v.tsIndex j + 1) * timestampBytes ≤ data.length) :
    tsEntry ptr (writeTsVec ptr v tsVec count data) (v.tsIndex j) = tsVec.getD j 0 := by
  induction count with
  | zero => exact absurd hj (Nat.not_lt_zero j)
  | succ count ih =>
    rw [writeTsVec_succ]
    rcases Nat.lt_succ_iff_lt_or_eq.1 hj with hlt | rfl
    · rw [tsEntry_poke_ne _ fun h => Nat.ne_of_lt hlt (hinj _ _ hj (lt_succ_self _) h)]
      exact ih hlt (fun a b ha hb => hinj a b (lt_succ_of_lt ha) (lt_succ_of_lt hb))
        fun a ha => hfit a (lt_succ_of_lt ha)
    · refine tsEntry_poke_self ?_ (by rw [length_writeTsVec]; exact hfit j hj)
      rcases Nat.lt_or_ge j tsVec.length with hlt | hge
      · rw [getD_eq_getElem _ _ hlt]
        exact hvals _ (getElem_mem hlt)
      · rw [getD_eq_default _ _ hge]
        decide

end WriteTsVec

/-! ## The whole page -/

/-- The page has a `j`-th neighbour of the vertex `i`; those of a giant vertex are not on it. -/
def HasNeighbor (cfg : PageConfig) (obj : CsrObject) (i j : Nat) : Prop :=
  i < obj.numVertices ∧ (obj.vertexAt i).degree < cfg.giantDegreeBound ∧
    j < (obj.vertexAt i).degree

/-- No two neighbours have the same entry. -/
def TsApart (cfg : PageConfig) (obj : CsrObject) : Prop :=
  ∀ i j i' j', obj.HasNeighbor cfg i j → obj.HasNeighbor cfg i' j' →
    (obj.vertexAt i).tsIndex j = (obj.vertexAt i').tsIndex j' → i = i' ∧ j = j'

/-- The first `m` vertices are written. -/
structure TsWritten (cfg : PageConfig) (obj : CsrObject) (tsMap : VId → Option (List Nat))
    (ptr m : Nat) (obj' : CsrObject) : Prop where
  same : obj' = { obj with data := obj'.data }
  length : obj'.data.length = obj.data.length
  front : AgreeOn 0 ptr obj'.data obj.data
  entries : ∀ i j, obj.HasNeighbor cfg i j →
    tsEntry ptr obj'.data ((obj.vertexAt i).tsIndex j) =
      if i < m then ((tsMap (obj.vertexAt i).vertexId).bind fun tsVec => tsVec[j]?).getD
        (tsEntry ptr obj.data ((obj.vertexAt i).tsIndex j))
      else tsEntry ptr obj.data ((obj.vertexAt i).tsIndex j)

variable {cfg : PageConfig} {obj obj' : CsrObject} {tsMap : VId → Option (List Nat)} {ptr m : Nat}

section

variable (h : TsWritten cfg obj tsMap ptr m obj')
include h

/-- The entries of the vertex array are read in front of the timestamps. -/
theorem TsWritten.vertexAt (hs : obj.Synced cfg)
    (hptr : fixedSize cfg.toConfig obj.numVertices ≤ ptr) {i : Nat} (hi : i < obj.numVertices) :
    obj'.vertexAt i = obj.vertexAt i := by
  have hspan : obj'.vertexSpan = obj.vertexSpan := by rw [h.same]
  unfold CsrObject.vertexAt
  rw [hspan]
  refine readsFirst_vertexRead.congr (h.front.mono (Nat.zero_le _) ?_)
  rw [hs.vertexSpan]
  unfold fixedSize csrVertexBytes at hptr
  unfold csrVertexBytes
  dsimp only
  omega

/-- The entries of the other vertices, which an iteration does not write. -/
theorem TsWritten.entry_other {data : List Nat} {i j : Nat} (hij : obj.HasNeighbor cfg i j)
    (hne : i ≠ m) (hdata : tsEntry ptr data ((obj.vertexAt i).tsIndex j) =
      tsEntry ptr obj'.data ((obj.vertexAt i).tsIndex j)) :
    tsEntry ptr data ((obj.vertexAt i).tsIndex j) =
      if i < m + 1 then ((tsMap (obj.vertexAt i).vertexId).bind fun tsVec => tsVec[j]?).getD
        (tsEntry ptr obj.data ((obj.vertexAt i).tsIndex j))
      else tsEntry ptr obj.data ((obj.vertexAt i).tsIndex j) := by
  rw [hdata, h.entries i j hij]
  by_cases hlt : i < m
  · rw [if_pos hlt, if_pos (lt_succ_of_lt hlt)]
  · rw [if_neg hlt, if_neg (by omega)]

/-- An iteration that writes nothing. -/
theorem TsWritten.skip (hskip : cfg.giantDegreeBound ≤ (obj.vertexAt m).degree ∨
      tsMap (obj.vertexAt m).vertexId = none) : TsWritten cfg obj tsMap ptr (m + 1) obj' := by
  refine ⟨h.same, h.length, h.front, fun i j hij => ?_⟩
  by_cases him : i = m
  · rw [h.entries i j hij, if_neg (by omega), if_pos (by omega)]
    rcases hskip with hg | hnone
    · rw [← him] at hg
      exact absurd hij.2.1 (Nat.not_lt.2 hg)
    · rw [him, hnone, Option.bind_none, Option.getD_none]
  · exact h.entry_other hij him rfl

end

/-- An iteration that writes the timestamps of a vertex. -/
theorem TsWritten.write (h : TsWritten cfg obj tsMap ptr m obj') (hm : m < obj.numVertices)
    (hdeg : (obj.vertexAt m).degree < cfg.giantDegreeBound) {tsVec : List Nat}
    (hmap : tsMap (obj.vertexAt m).vertexId = some tsVec) (hvals : ∀ t ∈ tsVec, t < 2 ^ 64)
    (hapart : obj.TsApart cfg) (hfit : ∀ i j, obj.HasNeighbor cfg i j →
      ptr + ((obj.vertexAt i).tsIndex j + 1) * timestampBytes ≤ obj.data.length) :
    TsWritten cfg obj tsMap ptr (m + 1) { obj' with
      data := writeTsVec ptr (obj.vertexAt m) tsVec (min tsVec.length (obj.vertexAt m).degree)
        obj'.data } := by
  have hnbr : ∀ j, j < min tsVec.length (obj.vertexAt m).degree → obj.HasNeighbor cfg m j :=
    fun j hj => ⟨hm, hdeg, Nat.lt_of_lt_of_le hj (Nat.min_le_right _ _)⟩
  refine ⟨?_, ?_, agreeOn_writeTsVec.trans h.front, fun i j hij => ?_⟩
  · have hsame := h.same
    generalize obj'.data = d at hsame ⊢
    rw [hsame]
  · exact length_writeTsVec.trans h.length
  · by_cases him : i = m
    · subst him
      rw [if_pos (lt_succ_self i), hmap, Option.bind_some]
      dsimp only
      by_cases hj : j < min tsVec.length (obj.vertexAt i).degree
      · have hinj : ∀ a b, a < min tsVec.length (obj.vertexAt i).degree →
            b < min tsVec.length (obj.vertexAt i).degree →
            (obj.vertexAt i).tsIndex a = (obj.vertexAt i).tsIndex b → a = b :=
          fun a b ha hb hab => (hapart i a i b (hnbr a ha) (hnbr b hb) hab).2
        have hroom : ∀ a, a < min tsVec.length (obj.vertexAt i).degree →
            ptr + ((obj.vertexAt i).tsIndex a + 1) * timestampBytes ≤ obj'.data.length := by
          intro a ha
          rw [h.length]
          exact hfit i a (hnbr a ha)
        have hlt : j < tsVec.length := Nat.lt_of_lt_of_le hj (Nat.min_le_left _ _)
        rw [tsEntry_writeTsVec hj hinj hvals hroom, getD_eq_getElem _ _ hlt,
          getElem?_eq_getElem hlt, Option.getD_some]
      · have hge : tsVec.length ≤ j := by
          have hjd := hij.2.2
          omega
        have hne : ∀ a, a < min tsVec.length (obj.vertexAt i).degree →
            (obj.vertexAt i).tsIndex j ≠ (obj.vertexAt i).tsIndex a :=
          fun a ha hab => hj ((hapart i j i a hij (hnbr a ha) hab).2 ▸ ha)
        rw [tsEntry_writeTsVec_ne hne, h.entries i j hij, if_neg (Nat.lt_irrefl i),
          getElem?_eq_none hge, Option.getD_none]
    · refine h.entry_other hij him (tsEntry_writeTsVec_ne fun a ha hab => him ?_)
      exact (hapart i j m a hij (hnbr a ha) hab).1

variable (h : TsWritten cfg obj tsMap ptr m obj') (hs : obj.Synced cfg)
  (hptr : fixedSize cfg.toConfig obj.numVertices ≤ ptr)
include h hs hptr

/-- One iteration of the outer loop. -/
theorem TsWritten.step (hm : m < obj.numVertices)
    (hvals : ∀ v tsVec, tsMap v = some tsVec → ∀ t ∈ tsVec, t < 2 ^ 64) (hapart : obj.TsApart cfg)
    (hfit : ∀ i j, obj.HasNeighbor cfg i j →
      ptr + ((obj.vertexAt i).tsIndex j + 1) * timestampBytes ≤ obj.data.length) :
    TsWritten cfg obj tsMap ptr (m + 1) (writeVertexTs cfg tsMap ptr obj' m) := by
  unfold writeVertexTs
  dsimp only
  rw [h.vertexAt hs hptr hm]
  by_cases hg : (obj.vertexAt m).degree ≥ cfg.giantDegreeBound
  · rw [if_pos hg]
    exact h.skip (.inl hg)
  · rw [if_neg hg]
    cases hmap : tsMap (obj.vertexAt m).vertexId with
    | none => exact h.skip (.inr hmap)
    | some tsVec => exact h.write hm (Nat.not_le.1 hg) hmap (hvals _ _ hmap) hapart hfit

omit h hs hptr in
/-- The loop over the vertices. -/
theorem tsWritten_foldl (hs : obj.Synced cfg) (hptr : fixedSize cfg.toConfig obj.numVertices ≤ ptr)
    (hvals : ∀ v tsVec, tsMap v = some tsVec → ∀ t ∈ tsVec, t < 2 ^ 64) (hapart : obj.TsApart cfg)
    (hfit : ∀ i j, obj.HasNeighbor cfg i j →
      ptr + ((obj.vertexAt i).tsIndex j + 1) * timestampBytes ≤ obj.data.length)
    (hm : m ≤ obj.numVertices) :
    TsWritten cfg obj tsMap ptr m ((List.range m).foldl (writeVertexTs cfg tsMap ptr) obj) := by
  induction m with
  | zero => exact ⟨rfl, rfl, .refl _ _ _, fun i j _ => (if_neg (Nat.not_lt_zero i)).symm⟩
  | succ m ih =>
    rw [range_succ, foldl_append]
    exact (ih (le_of_succ_le hm)).step hs hptr hm hvals hapart hfit

omit h hs hptr in
theorem writeEdgeTimestamps_eq (hptr : obj.edgeTsPtr = some ptr) :
    obj.writeEdgeTimestamps cfg tsMap = { (List.range obj.numVertices).foldl
      (writeVertexTs cfg tsMap ptr) obj with isDirty := true } := by
  unfold writeEdgeTimestamps
  rw [hptr]

omit h hs hptr in
/-- What `write_edge_timestamps` leaves of the page, and what a parse of its bytes gives. -/
theorem writeEdgeTimestamps_written (hs : obj.Synced cfg) (hsome : obj.edgeTsPtr = some ptr)
    (hptr : fixedSize cfg.toConfig obj.numVertices ≤ ptr)
    (hvals : ∀ v tsVec, tsMap v = some tsVec → ∀ t ∈ tsVec, t < 2 ^ 64)
    (hapart : obj.TsApart cfg) (hfit : ∀ i j, obj.HasNeighbor cfg i j →
      ptr + ((obj.vertexAt i).tsIndex j + 1) * timestampBytes ≤ obj.data.length) :
    ∃ obj', TsWritten cfg obj tsMap ptr obj.numVertices obj' ∧
      obj.writeEdgeTimestamps cfg tsMap = { obj' with isDirty := true } ∧
      (ofData (obj.writeEdgeTimestamps cfg tsMap).data).parseFromPageData cfg =
        (none, { obj' with isDirty := false, edgeTsPtr := obj.parsedTsPtr cfg }) := by
  have hw := tsWritten_foldl hs hptr hvals hapart hfit (Nat.le_refl obj.numVertices)
  generalize hrun : (List.range obj.numVertices).foldl (writeVertexTs cfg tsMap ptr) obj = obj' at hw
  have heq : obj.writeEdgeTimestamps cfg tsMap = { obj' with isDirty := true } := by
    rw [writeEdgeTimestamps_eq hsome, hrun]
  have h16 : 16 ≤ ptr := by
    unfold fixedSize Config.headerBytes at hptr
    omega
  have hs' := (hs.of_agree (hw.front.mono (Nat.le_refl _) h16)).reparse
  refine ⟨obj', hw, heq, ?_⟩
  rw [heq]
  have hsame := hw.same
  generalize obj'.data = d at hsame hs' ⊢
  rw [hsame]
  exact hs'

/-- The neighbours lie in front of the timestamps. -/
theorem TsWritten.getNeighbors {i : Nat}
    (hfront : i < obj.numVertices → (obj.vertexAt i).degree < cfg.giantDegreeBound →
      obj.neighborPos + (obj.vertexAt i).offset / 4 * 4 + (obj.vertexAt i).degree * 4 ≤ ptr) :
    obj'.getNeighbors cfg i = obj.getNeighbors cfg i := by
  have hnum : obj'.numVertices = obj.numVertices := by rw [h.same]
  have hpos : obj'.neighborPos = obj.neighborPos := by rw [h.same]; rfl
  unfold CsrObject.getNeighbors
  rw [hnum]
  by_cases hi : i ≥ obj.numVertices
  · rw [if_pos hi, if_pos hi]
  rw [if_neg hi, if_neg hi, h.vertexAt hs hptr (Nat.not_le.1 hi), hpos]
  dsimp only
  by_cases hg : (obj.vertexAt i).degree ≥ cfg.giantDegreeBound
  · rw [if_pos hg, if_pos hg]
  rw [if_neg hg, if_neg hg]
  exact (readsFirst_wordReads _).congr
    (h.front.mono (Nat.zero_le _) (hfront (Nat.not_le.1 hi) (Nat.not_le.1 hg)))

end CsrObject

/-! ## Pages built from an adjacency map -/

/-- The bytes the neighbours and the slots of some items take. -/
def itemsBytes (cfg : Config) (slots : VId → Nat) (items : List (VId × List VId)) : Nat :=
  (items.map fun it => vertexBytes cfg slots it.1 it.2).sum

/-- The bytes in front of the neighbours of an item. -/
def byteOffset (cfg : Config) (slots : VId → Nat) (items : List (VId × List VId)) (i : Nat) : Nat :=
  itemsBytes cfg slots (items.take i)

/-- With a neighbour counted as four bytes, the neighbours of every vertex end before those of the
next ones begin and within the section, which is a multiple of four bytes. -/
structure TsFits (cfg : Config) (slots : VId → Nat) (items : List (VId × List VId)) : Prop where
  apart : ∀ i i' v nbrs v' nbrs', i < i' → items[i]? = some (v, nbrs) →
    items[i']? = some (v', nbrs') → nbrs.length < cfg.giantDegreeBound →
    nbrs'.length < cfg.giantDegreeBound → nbrs' ≠ [] →
    byteOffset cfg slots items i / 4 + nbrs.length ≤ byteOffset cfg slots items i' / 4
  inside : ∀ i v nbrs, items[i]? = some (v, nbrs) → nbrs.length < cfg.giantDegreeBound → nbrs ≠ [] →
    byteOffset cfg slots items i / 4 + nbrs.length ≤ itemsBytes cfg slots items / 4 ∧
      itemsBytes cfg slots items % 4 = 0

section Offsets

variable {cfg : Config} {slots : VId → Nat} {items : List (VId × List VId)} {i i' : Nat}
  {it : VId × List VId}

theorem length_flatMap_block (items : List (VId × List VId)) :
    (items.flatMap (block cfg slots)).length = itemsBytes cfg slots items := by
  rw [itemsBytes, length_flatMap]
  simp only [length_block]

theorem byteOffset_succ (h : items[i]? = some it) :
    byteOffset cfg slots items (i + 1) =
      byteOffset cfg slots items i + vertexBytes cfg slots it.1 it.2 := by
  unfold byteOffset itemsBytes
  rw [take_add_one, h, map_append, List.sum_append]
  simp

theorem byteOffset_mono (h : i ≤ i') :
    byteOffset cfg slots items i ≤ byteOffset cfg slots items i' := by
  unfold byteOffset itemsBytes
  rw [← Nat.min_eq_left h, ← take_take]
  generalize items.take i' = front
  conv_rhs => rw [← take_append_drop i front]
  rw [map_append, List.sum_append]
  exact Nat.le_add_right _ _

theorem byteOffset_length :
    byteOffset cfg slots items items.length = itemsBytes cfg slots items := by
  rw [byteOffset, take_length]

/-- The bytes of an item end before those of a later one begin, and within the section. -/
theorem byteOffset_add_le (h : items[i]? = some it) (hi : i < i') :
    byteOffset cfg slots items i + vertexBytes cfg slots it.1 it.2 ≤
      byteOffset cfg slots items i' := by
  rw [← byteOffset_succ h]
  exact byteOffset_mono hi

theorem byteOffset_add_le_itemsBytes (h : items[i]? = some it) :
    byteOffset cfg slots items i + vertexBytes cfg slots it.1 it.2 ≤ itemsBytes cfg slots items := by
  rw [← byteOffset_length]
  exact byteOffset_add_le h (List.getElem?_eq_some_iff.1 h).1

/-- Every neighbour takes a byte at least. -/
theorem length_le_vertexBytes (h : it.2.length < cfg.giantDegreeBound) :
    it.2.length ≤ vertexBytes cfg slots it.1 it.2 := by
  rw [vertexBytes, if_neg (Nat.not_le.2 h)]
  exact Nat.le_trans (length_le_encodedBytes cfg it.2) (Nat.le_add_right _ _)

/-- Without compression the offsets count words. -/
theorem itemsBytes_raw (hraw : cfg.neighborCompress = false) (items : List (VId × List VId)) :
    itemsBytes cfg slots items % 4 = 0 := by
  induction items with
  | nil => rfl
  | cons it items ih =>
    have hone : vertexBytes cfg slots it.1 it.2 % 4 = 0 := by
      rw [vertexBytes, encodedBytes, hraw, if_neg Bool.false_ne_true]
      split_ifs
      · rfl
      · omega
    unfold itemsBytes at ih ⊢
    rw [map_cons, sum_cons]
    omega

/-- In the raw build the timestamps always fit. -/
theorem tsFits_raw (hraw : cfg.neighborCompress = false) (slots : VId → Nat)
    (items : List (VId × List VId)) : TsFits cfg slots items := by
  have hbytes : ∀ v nbrs, nbrs.length < cfg.giantDegreeBound →
      nbrs.length * 4 ≤ vertexBytes cfg slots v nbrs := by
    intro v nbrs hdeg
    rw [vertexBytes, if_neg (Nat.not_le.2 hdeg), encodedBytes, if_neg (by rw [hraw]; decide)]
    exact Nat.le_add_right _ _
  constructor
  · intro i i' v nbrs v' nbrs' hii hi hi' hdeg hdeg' _
    have hle := @byteOffset_add_le cfg slots items i i' (v, nbrs) hi hii
    have hv := hbytes v nbrs hdeg
    dsimp only at hle
    omega
  · intro i v nbrs hi hdeg _
    have hle := @byteOffset_add_le_itemsBytes cfg slots items i (v, nbrs) hi
    have hv := hbytes v nbrs hdeg
    have hwords := @itemsBytes_raw cfg slots hraw items
    dsimp only at hle
    omega

end Offsets

namespace CsrObject

/-- Every neighbour has its entry within the used bytes. -/
def TsInside (cfg : PageConfig) (obj : CsrObject) : Prop :=
  ∀ i j, obj.HasNeighbor cfg i j → ∃ ptr, obj.edgeTsPtr = some ptr ∧
    ptr + ((obj.vertexAt i).tsIndex j + 1) * timestampBytes ≤ obj.usedBytes

variable {cfg : PageConfig} {slots : VId → Nat} {items : List (VId × List VId)}
  {obj obj' start : CsrObject} {tsMap : VId → Option (List Nat)} {vm vm' : List (VId × Nat)}
  {i j : Nat} {v : VId} {nbrs : List VId}

/-- The neighbours on a built page are those of the items below the giant bound. -/
theorem Built.hasNeighbor_iff (h : obj.Built cfg slots items) (hi : items[i]? = some (v, nbrs)) :
    obj.HasNeighbor cfg i j ↔ nbrs.length < cfg.giantDegreeBound ∧ j < nbrs.length := by
  have hlt : i < obj.numVertices := h.vertices ▸ (List.getElem?_eq_some_iff.1 hi).1
  unfold HasNeighbor
  rw [h.vertexAt i v nbrs hi]
  exact ⟨fun hc => hc.2, fun hc => ⟨hlt, hc⟩⟩

theorem Built.item_of_hasNeighbor (h : obj.Built cfg slots items) (hij : obj.HasNeighbor cfg i j) :
    ∃ v nbrs, items[i]? = some (v, nbrs) ∧ nbrs.length < cfg.giantDegreeBound ∧ j < nbrs.length := by
  obtain ⟨it, hit⟩ : ∃ it, items[i]? = some it :=
    ⟨_, getElem?_eq_getElem (h.vertices ▸ hij.1)⟩
  obtain ⟨hdeg, hj⟩ := (h.hasNeighbor_iff (v := it.1) hit).1 hij
  exact ⟨it.1, it.2, hit, hdeg, hj⟩

/-- A page with timestamps as the build leaves it: the array of `ts_data_size` bytes is behind the
neighbour section. -/
structure TsBuilt (cfg : PageConfig) (slots : VId → Nat) (items : List (VId × List VId))
    (obj : CsrObject) : Prop where
  built : obj.Built cfg slots items
  transaction : cfg.transaction = true
  edgeTsPtr : obj.edgeTsPtr =
    some (fixedSize cfg.toConfig items.length + itemsBytes cfg.toConfig slots items)
  narrow : itemsBytes cfg.toConfig slots items < 2 ^ 16

theorem TsBuilt.of_build (hne : items ≠ []) (htxn : cfg.transaction = true)
    (h : start.buildFromAdjacencyMap cfg slots items vm = (none, obj, vm'))
    (hsize : cfg.pageSize < 2 ^ 32) (hids : ∀ it ∈ items, it.1 < 2 ^ 32)
    (hparent : start.links.parentPageNo < 2 ^ 32)
    (hcount : start.links.neighborPageCount ≤ cfg.maxBlockNeighbor) :
    obj.TsBuilt cfg slots items := by
  obtain ⟨hb, -, -, -, hnarrow, hptr, -⟩ := build_ok hne h hsize hids hparent hcount
  rw [if_pos htxn, length_flatMap_block] at hptr
  rw [length_flatMap_block] at hnarrow
  exact ⟨hb, htxn, hptr, hnarrow⟩

section

variable (h : obj.TsBuilt cfg slots items)
include h

theorem TsBuilt.usedBytes :
    obj.usedBytes = fixedSize cfg.toConfig items.length + itemsBytes cfg.toConfig slots items +
      itemsBytes cfg.toConfig slots items / 4 * timestampBytes := by
  rw [h.built.usedBytes, PageConfig.tsDataSize, if_pos h.transaction, length_flatMap_block]

/-- The entry of a neighbour. -/
theorem TsBuilt.tsIndex (hi : items[i]? = some (v, nbrs))
    (hdeg : nbrs.length < cfg.giantDegreeBound) (hj : j < nbrs.length) :
    (obj.vertexAt i).tsIndex j = byteOffset cfg.toConfig slots items i / 4 + j := by
  have hle := @byteOffset_add_le_itemsBytes cfg.toConfig slots items i (v, nbrs) hi
  have hblock := @length_le_vertexBytes cfg.toConfig slots (v, nbrs) hdeg
  have hnarrow := h.narrow
  have hoff : (obj.vertexAt i).offset = byteOffset cfg.toConfig slots items i := by
    rw [h.built.vertexAt i v nbrs hi, if_neg (Nat.not_le.2 hdeg), byteOffset, length_flatMap_block]
  unfold CsrVertex.tsIndex
  rw [hoff]
  dsimp only at hle hblock
  omega

/-- The array of a fresh page is zero. -/
theorem TsBuilt.data :
    ∃ n, obj.data.drop (fixedSize cfg.toConfig items.length +
      itemsBytes cfg.toConfig slots items) = List.replicate n 0 := by
  obtain ⟨n, hn⟩ := h.built.neighbors
  refine ⟨n, ?_⟩
  rw [← drop_drop, ← h.built.vertices, ← h.built.synced.neighborPos, hn,
    ← length_flatMap_block]
  exact drop_left

end

theorem longRead_zeros (n : Nat) : longRead (List.replicate n 0) = 0 := by
  have hword : ∀ m, wordRead (List.replicate m 0) = 0 := by
    intro m
    simp [wordRead]
  simp [longRead, drop_replicate, hword]

section

variable (h : obj.TsBuilt cfg slots items)
include h

theorem TsBuilt.tsEntry (k : Nat) :
    CsrObject.tsEntry (fixedSize cfg.toConfig items.length + itemsBytes cfg.toConfig slots items)
      obj.data k = 0 := by
  obtain ⟨n, hn⟩ := h.data
  rw [CsrObject.tsEntry, ← drop_drop, hn, drop_replicate, longRead_zeros]

/-- Where a parse looks for the array. -/
theorem TsBuilt.parsedTsPtr :
    obj.parsedTsPtr cfg = some (fixedSize cfg.toConfig items.length +
      (itemsBytes cfg.toConfig slots items / 4 * 4 +
        itemsBytes cfg.toConfig slots items % 4 / 3)) := by
  have hused := h.usedBytes
  unfold CsrObject.parsedTsPtr neighborDataSize
  unfold timestampBytes at hused ⊢
  rw [if_pos h.transaction, h.built.vertices, hused]
  congr 2
  omega

theorem TsBuilt.apart (hfits : TsFits cfg.toConfig slots items) : obj.TsApart cfg := by
  intro i j i' j' hij hij' heq
  obtain ⟨v, nbrs, hi, hdeg, hj⟩ := h.built.item_of_hasNeighbor hij
  obtain ⟨v', nbrs', hi', hdeg', hj'⟩ := h.built.item_of_hasNeighbor hij'
  rw [h.tsIndex hi hdeg hj, h.tsIndex hi' hdeg' hj'] at heq
  rcases Nat.lt_trichotomy i i' with hlt | rfl | hgt
  · have hap := hfits.apart i i' v nbrs v' nbrs' hlt hi hi' hdeg hdeg'
      (length_pos_iff.1 (zero_lt_of_lt hj'))
    omega
  · exact ⟨rfl, by omega⟩
  · have hap := hfits.apart i' i v' nbrs' v nbrs hgt hi' hi hdeg' hdeg
      (length_pos_iff.1 (zero_lt_of_lt hj))
    omega

theorem TsBuilt.inside (hfits : TsFits cfg.toConfig slots items) : obj.TsInside cfg := by
  intro i j hij
  obtain ⟨v, nbrs, hi, hdeg, hj⟩ := h.built.item_of_hasNeighbor hij
  have hin := (hfits.inside i v nbrs hi hdeg (length_pos_iff.1 (zero_lt_of_lt hj))).1
  refine ⟨_, h.edgeTsPtr, ?_⟩
  rw [h.tsIndex hi hdeg hj, h.usedBytes]
  unfold timestampBytes
  omega

end

/-- The timestamps are written, and a parse finds the page as it was but for the pointer. -/
theorem TsBuilt.written (h : obj.TsBuilt cfg slots items) (hapart : obj.TsApart cfg)
    (hinside : obj.TsInside cfg) (hvals : ∀ v tsVec, tsMap v = some tsVec → ∀ t ∈ tsVec, t < 2 ^ 64) :
    ∃ obj', TsWritten cfg obj tsMap (fixedSize cfg.toConfig items.length +
        itemsBytes cfg.toConfig slots items) obj.numVertices obj' ∧
      obj.writeEdgeTimestamps cfg tsMap = { obj' with isDirty := true } ∧
      (ofData (obj.writeEdgeTimestamps cfg tsMap).data).parseFromPageData cfg =
        (none, { obj' with isDirty := false, edgeTsPtr := obj.parsedTsPtr cfg }) := by
  refine writeEdgeTimestamps_written h.built.synced h.edgeTsPtr ?_ hvals hapart fun i j hij => ?_
  · rw [h.built.vertices]
    exact Nat.le_add_right _ _
  · obtain ⟨ptr, hptr, hle⟩ := hinside i j hij
    obtain rfl := Option.some.inj (h.edgeTsPtr.symm.trans hptr)
    have hmost := h.built.synced.most
    rw [h.built.length]
    exact Nat.le_trans hle hmost

section

variable (h : obj.TsBuilt cfg slots items)
  (hw : TsWritten cfg obj tsMap (fixedSize cfg.toConfig items.length + itemsBytes cfg.toConfig slots items) obj.numVertices obj')
  (hi : items[i]? = some (v, nbrs)) (hdeg : nbrs.length < cfg.giantDegreeBound)
  (hj : j < nbrs.length)
include h hw hi hdeg hj

/-- What is read from an object over the written bytes, wherever its pointer leads. -/
theorem TsBuilt.getEdgeTs_eq (dirty : Bool) (ptr : Nat) :
    CsrObject.getEdgeTs { obj' with isDirty := dirty, edgeTsPtr := some ptr } i j =
      CsrObject.tsEntry ptr obj'.data (byteOffset cfg.toConfig slots items i / 4 + j) := by
  have hlt : i < obj.numVertices := h.built.vertices ▸ (List.getElem?_eq_some_iff.1 hi).1
  have hnum : obj'.numVertices = obj.numVertices := by rw [hw.same]
  have hptr : fixedSize cfg.toConfig obj.numVertices ≤
      fixedSize cfg.toConfig items.length + itemsBytes cfg.toConfig slots items := by
    rw [h.built.vertices]
    exact Nat.le_add_right _ _
  have hat := hw.vertexAt h.built.synced hptr hlt
  unfold CsrObject.getEdgeTs
  dsimp only
  rw [hnum, if_neg (Nat.not_le.2 hlt), CsrObject.tsEntry, ← h.tsIndex hi hdeg hj, ← hat]
  rfl

/-- The entry of a neighbour holds the timestamp of the map. -/
theorem TsBuilt.tsEntry_written :
    CsrObject.tsEntry (fixedSize cfg.toConfig items.length + itemsBytes cfg.toConfig slots items)
      obj'.data (byteOffset cfg.toConfig slots items i / 4 + j) = tsGiven tsMap v j := by
  have hij := (h.built.hasNeighbor_iff (j := j) hi).2 ⟨hdeg, hj⟩
  have hent := hw.entries i j hij
  rw [if_pos hij.1, h.tsEntry, h.tsIndex hi hdeg hj, h.built.vertexAt i v nbrs hi] at hent
  exact hent

theorem TsBuilt.getEdgeTs_written :
    getEdgeTs { obj' with isDirty := true } i j = tsGiven tsMap v j := by
  have hptr : obj'.edgeTsPtr = some (fixedSize cfg.toConfig items.length +
      itemsBytes cfg.toConfig slots items) := by
    rw [hw.same]
    exact h.edgeTsPtr
  have hsame : { obj' with isDirty := true } = { obj' with
      isDirty := true
      edgeTsPtr := some (fixedSize cfg.toConfig items.length +
        itemsBytes cfg.toConfig slots items) } := by
    rw [← hptr]
  rw [hsame, h.getEdgeTs_eq hw hi hdeg hj, h.tsEntry_written hw hi hdeg hj]

end

/-- Every neighbour below the giant bound has the timestamp of the map. -/
def GivesTs (cfg : PageConfig) (items : List (VId × List VId)) (tsMap : VId → Option (List Nat))
    (obj : CsrObject) : Prop :=
  ∀ i v nbrs j, items[i]? = some (v, nbrs) → nbrs.length < cfg.giantDegreeBound →
    j < nbrs.length → obj.getEdgeTs i j = tsGiven tsMap v j

/-- A section of whole words: a parse finds the array where the build put it. -/
theorem TsBuilt.parsedTsPtr_eq (h : obj.TsBuilt cfg slots items)
    (hwords : itemsBytes cfg.toConfig slots items % 4 = 0) :
    obj.parsedTsPtr cfg = obj.edgeTsPtr := by
  rw [h.parsedTsPtr, h.edgeTsPtr, hwords]
  congr 2
  omega

/-- With neighbours that fit, the timestamps of the map are read, before and after a parse, and the
neighbours are as they were. -/
theorem TsBuilt.gives (h : obj.TsBuilt cfg slots items) (hfits : TsFits cfg.toConfig slots items)
    (hvals : ∀ v tsVec, tsMap v = some tsVec → ∀ t ∈ tsVec, t < 2 ^ 64) :
    ∃ parsed, (ofData (obj.writeEdgeTimestamps cfg tsMap).data).parseFromPageData cfg =
        (none, parsed) ∧
      (obj.writeEdgeTimestamps cfg tsMap).GivesTs cfg items tsMap ∧
      parsed.GivesTs cfg items tsMap ∧
      ∀ i, (obj.writeEdgeTimestamps cfg tsMap).getNeighbors cfg i = obj.getNeighbors cfg i ∧
        parsed.getNeighbors cfg i = obj.getNeighbors cfg i := by
  obtain ⟨obj', hw, heq, hparse⟩ := h.written (h.apart hfits) (h.inside hfits) hvals
  refine ⟨_, hparse, fun i v nbrs j hi hdeg hj => ?_, fun i v nbrs j hi hdeg hj => ?_, fun i => ?_⟩
  · rw [heq]
    exact h.getEdgeTs_written hw hi hdeg hj
  · have hwords := (hfits.inside i v nbrs hi hdeg
      (length_pos_iff.1 (zero_lt_of_lt hj))).2
    rw [h.parsedTsPtr_eq hwords, h.edgeTsPtr, h.getEdgeTs_eq hw hi hdeg hj,
      h.tsEntry_written hw hi hdeg hj]
  · have hsame : obj'.getNeighbors cfg i = obj.getNeighbors cfg i := by
      refine hw.getNeighbors h.built.synced ?_ fun hi hdeg => ?_
      · rw [h.built.vertices]
        exact Nat.le_add_right _ _
      · obtain ⟨it, hit⟩ : ∃ it, items[i]? = some it :=
          ⟨_, getElem?_eq_getElem (h.built.vertices ▸ hi)⟩
        have hentry := h.built.vertexAt i it.1 it.2 hit
        rw [hentry] at hdeg
        have hin := @byteOffset_add_le_itemsBytes cfg.toConfig slots items i it hit
        rw [if_neg (Nat.not_le.2 hdeg)] at hentry
        rw [hentry, h.built.synced.neighborPos, h.built.vertices]
        dsimp only
        rw [length_flatMap_block, ← byteOffset]
        by_cases hnil : it.2 = []
        · rw [hnil, length_nil]
          omega
        · have hfit := (hfits.inside i it.1 it.2 hit hdeg hnil).1
          omega
    rw [heq]
    exact ⟨hsame, hsame⟩

/-- On an empty page nothing is written, and nothing is read. -/
theorem builtEmpty_gives (cfg : PageConfig) (start : CsrObject) (tsMap : VId → Option (List Nat)) :
    ∃ parsed, (ofData ((start.builtEmpty cfg).writeEdgeTimestamps cfg tsMap).data).parseFromPageData
        cfg = (none, parsed) ∧
      ∀ i, ((start.builtEmpty cfg).writeEdgeTimestamps cfg tsMap).getNeighbors cfg i =
          (start.builtEmpty cfg).getNeighbors cfg i ∧
        parsed.getNeighbors cfg i = (start.builtEmpty cfg).getNeighbors cfg i := by
  have hnum : (start.builtEmpty cfg).numVertices = 0 := rfl
  generalize hempty : start.builtEmpty cfg = empty at hnum
  have hwrite : (empty.writeEdgeTimestamps cfg tsMap).data = empty.data ∧
      (empty.writeEdgeTimestamps cfg tsMap).numVertices = 0 := by
    unfold writeEdgeTimestamps
    rw [hnum]
    split
    · exact ⟨rfl, hnum⟩
    · exact ⟨rfl, hnum⟩
  have hagree : AgreeOn 0 16 (empty.writeEdgeTimestamps cfg tsMap).data
      (start.builtEmpty cfg).data := by
    rw [hwrite.1, hempty]
    exact .refl 0 16 _
  have hparsed : ({ (ofData (empty.writeEdgeTimestamps cfg tsMap).data).cleared with
    isParse := true } : CsrObject).numVertices = 0 := rfl
  refine ⟨_, parse_builtEmpty hagree, fun i => ?_⟩
  rw [(reads_of_numVertices_eq_zero hwrite.2 cfg i).1,
    (reads_of_numVertices_eq_zero hparsed cfg i).1, (reads_of_numVertices_eq_zero hnum cfg i).1]
  exact ⟨rfl, rfl⟩

theorem build_nil (h : start.buildFromAdjacencyMap cfg slots [] vm = (none, obj, vm')) :
    obj = start.builtEmpty cfg := by
  unfold buildFromAdjacencyMap at h
  rw [if_pos rfl] at h
  exact (Prod.mk.inj (Prod.mk.inj h).2).1.symm

/-! ## The build without compression -/

/-- In the raw build the timestamps written are read, before and after a parse of the page, and no
neighbour changes. -/
theorem edgeTs_written (htxn : cfg.transaction = true) (hraw : cfg.neighborCompress = false)
    (hsize : cfg.pageSize < 2 ^ 32) (hparent : start.links.parentPageNo < 2 ^ 32)
    (hcount : start.links.neighborPageCount ≤ cfg.maxBlockNeighbor)
    (hids : ∀ it ∈ items, it.1 < 2 ^ 32)
    (hbuild : start.buildFromAdjacencyMap cfg slots items vm = (none, obj, vm'))
    (hvals : ∀ v tsVec, tsMap v = some tsVec → ∀ t ∈ tsVec, t < 2 ^ 64) :
    ∃ parsed, (ofData (obj.writeEdgeTimestamps cfg tsMap).data).parseFromPageData cfg =
        (none, parsed) ∧
      (obj.writeEdgeTimestamps cfg tsMap).GivesTs cfg items tsMap ∧
      parsed.GivesTs cfg items tsMap ∧
      ∀ i, (obj.writeEdgeTimestamps cfg tsMap).getNeighbors cfg i = obj.getNeighbors cfg i ∧
        parsed.getNeighbors cfg i = obj.getNeighbors cfg i := by
  by_cases hne : items = []
  · subst hne
    obtain rfl := build_nil hbuild
    obtain ⟨parsed, hparse, hnbrs⟩ := builtEmpty_gives cfg start tsMap
    refine ⟨parsed, hparse, ?_, ?_, hnbrs⟩
    · intro i v nbrs j hi
      cases hi
    · intro i v nbrs j hi
      cases hi
  · have h := TsBuilt.of_build hne htxn hbuild hsize hids hparent hcount
    exact h.gives (tsFits_raw hraw slots items) hvals

/-- Two vertices with a slot and a giant one between them. -/
theorem edgeTs_written_pair : ∃ obj vm',
    (new ⟨⟨128, 64, 3, 3, 1, 0, false⟩, true⟩).buildFromAdjacencyMap
      ⟨⟨128, 64, 3, 3, 1, 0, false⟩, true⟩ (fun _ => 1) [(1, [2, 3]), (4, [5, 6, 7]), (8, [9])] [] =
        (none, obj, vm') ∧
    (obj.writeEdgeTimestamps ⟨⟨128, 64, 3, 3, 1, 0, false⟩, true⟩ fun v =>
      if v = 8 then some [77] else none).getEdgeTs 2 0 = 77 := by
  refine ⟨_, _, rfl, ?_⟩
  obtain ⟨_, -, hgives, -⟩ := @edgeTs_written ⟨⟨128, 64, 3, 3, 1, 0, false⟩, true⟩ (fun _ => 1)
    [(1, [2, 3]), (4, [5, 6, 7]), (8, [9])] _ (new ⟨⟨128, 64, 3, 3, 1, 0, false⟩, true⟩)
    (fun v => if v = 8 then some [77] else none) [] _ rfl rfl (by decide) (by decide) (by decide)
    (by decide) rfl (by
      intro v tsVec hv t ht
      split_ifs at hv with h8
      cases hv
      rw [mem_singleton.1 ht]
      decide)
  exact hgives 2 8 [9] 0 rfl (by decide) (by decide)

/-! ## Both builds -/

/-- A page whose entries lie apart and within the used bytes has neighbours that fit, provided the
section is one of whole words. -/
theorem TsBuilt.fits (h : obj.TsBuilt cfg slots items) (hapart : obj.TsApart cfg)
    (hinside : obj.TsInside cfg) (hwords : ∀ (i : Nat) (v : VId) (nbrs : List VId),
      items[i]? = some (v, nbrs) → nbrs.length < cfg.giantDegreeBound → nbrs ≠ [] →
      itemsBytes cfg.toConfig slots items % 4 = 0) : TsFits cfg.toConfig slots items := by
  constructor
  · intro i i' v nbrs v' nbrs' hii hi hi' hdeg hdeg' hne
    have hmono := @byteOffset_mono cfg.toConfig slots items i i' (Nat.le_of_lt hii)
    have hpos := length_pos_iff.2 hne
    by_contra hlt
    -- the neighbour of `i` that shares the entry of the first one of `i'`
    generalize hj : byteOffset cfg.toConfig slots items i' / 4 -
      byteOffset cfg.toConfig slots items i / 4 = j
    have hjlt : j < nbrs.length := by omega
    have hsame : (obj.vertexAt i).tsIndex j = (obj.vertexAt i').tsIndex 0 := by
      rw [h.tsIndex hi hdeg hjlt, h.tsIndex hi' hdeg' hpos]
      omega
    have heq := hapart i j i' 0 ((h.built.hasNeighbor_iff hi).2 ⟨hdeg, hjlt⟩)
      ((h.built.hasNeighbor_iff hi').2 ⟨hdeg', hpos⟩) hsame
    exact absurd heq.1 (Nat.ne_of_lt hii)
  · intro i v nbrs hi hdeg hne
    refine ⟨?_, hwords i v nbrs hi hdeg hne⟩
    have hpos := length_pos_iff.2 hne
    have hlast : nbrs.length - 1 < nbrs.length := sub_lt hpos Nat.one_pos
    obtain ⟨ptr, hptr, hle⟩ := hinside i (nbrs.length - 1)
      ((h.built.hasNeighbor_iff hi).2 ⟨hdeg, hlast⟩)
    obtain rfl := Option.some.inj (h.edgeTsPtr.symm.trans hptr)
    rw [h.tsIndex hi hdeg hlast, h.usedBytes] at hle
    unfold timestampBytes at hle
    omega

theorem longRead_eq_one {buf : List Nat} (h : longRead buf = 1) :
    buf.getD 0 0 = 1 ∧ buf.getD 1 0 = 0 ∧ buf.getD 2 0 = 0 := by
  have hword : wordRead buf = 1 := by
    unfold longRead at h
    omega
  unfold wordRead at hword
  have h1 : buf.getD 1 0 <<< 8 ≤ 1 := Nat.le_trans right_le_or
    (Nat.le_trans left_le_or (Nat.le_trans left_le_or (Nat.le_of_eq hword)))
  have h2 : buf.getD 2 0 <<< 16 ≤ 1 :=
    Nat.le_trans right_le_or (Nat.le_trans left_le_or (Nat.le_of_eq hword))
  have h3 : buf.getD 3 0 <<< 24 ≤ 1 := Nat.le_trans right_le_or (Nat.le_of_eq hword)
  rw [shiftLeft_eq] at h1 h2 h3
  have hz1 : buf.getD 1 0 = 0 := by omega
  have hz2 : buf.getD 2 0 = 0 := by omega
  have hz3 : buf.getD 3 0 = 0 := by omega
  rw [hz1, hz2, hz3] at hword
  exact ⟨by simpa using hword, hz1, hz2⟩

/-- A timestamp of 1 cannot be read one or two bytes before its place as well. -/
theorem tsEntry_shift {ptr s k : Nat} {data : List Nat} (hs : s = 1 ∨ s = 2) (hle : s ≤ ptr)
    (h : tsEntry ptr data k = 1) : tsEntry (ptr - s) data k ≠ 1 := by
  intro hshift
  unfold tsEntry at h hshift
  have hbyte : ((data.drop (ptr - s + k * timestampBytes)).getD s 0) = 1 := by
    have h0 := (longRead_eq_one h).1
    rw [getD_drop] at h0 ⊢
    rw [← h0]
    congr 1
    omega
  rcases hs with rfl | rfl
  · rw [(longRead_eq_one hshift).2.1] at hbyte
    cases hbyte
  · rw [(longRead_eq_one hshift).2.2] at hbyte
    cases hbyte

/-- A timestamp of 1 for the first neighbour of every vertex. -/
def onesTs : VId → Option (List Nat) := fun _ => some [1]

theorem onesTs_lt : ∀ v tsVec, onesTs v = some tsVec → ∀ t ∈ tsVec, t < 2 ^ 64 := by
  intro v tsVec hv t ht
  obtain rfl := Option.some.inj hv
  rw [mem_singleton.1 ht]
  decide

/-- When a parse gives the timestamps too, the section is one of whole words. -/
theorem TsBuilt.words (h : obj.TsBuilt cfg slots items) (hapart : obj.TsApart cfg)
    (hinside : obj.TsInside cfg) (hi : items[i]? = some (v, nbrs))
    (hdeg : nbrs.length < cfg.giantDegreeBound) (hne : nbrs ≠ [])
    (hgives : ∃ parsed, (ofData (obj.writeEdgeTimestamps cfg onesTs).data).parseFromPageData cfg =
      (none, parsed) ∧ parsed.GivesTs cfg items onesTs) :
    itemsBytes cfg.toConfig slots items % 4 = 0 := by
  have hpos := length_pos_iff.2 hne
  obtain ⟨obj', hw, -, hparse⟩ := h.written hapart hinside onesTs_lt
  obtain ⟨parsed, hparsed, hgiven⟩ := hgives
  obtain rfl := (Prod.mk.inj (hparse.symm.trans hparsed)).2
  have hone := hgiven i v nbrs 0 hi hdeg hpos
  rw [h.parsedTsPtr, h.getEdgeTs_eq hw hi hdeg hpos] at hone
  have hlive := h.tsEntry_written hw hi hdeg hpos
  by_contra hmod
  generalize itemsBytes cfg.toConfig slots items = total at hone hlive hmod
  have hshift : fixedSize cfg.toConfig items.length + (total / 4 * 4 + total % 4 / 3) =
      fixedSize cfg.toConfig items.length + total - (if total % 4 = 1 then 1 else 2) := by
    split_ifs <;> omega
  rw [hshift] at hone
  refine tsEntry_shift ?_ ?_ hlive hone
  · split_ifs
    · exact .inl rfl
    · exact .inr rfl
  · split_ifs <;> omega

/-- In both builds the entries of the neighbours lie apart and within the used bytes, and what is
written is read, before and after a parse of the page, exactly when the neighbours fit as words. -/
theorem edgeTs_iff (htxn : cfg.transaction = true)
    (hsize : cfg.pageSize < 2 ^ 32) (hparent : start.links.parentPageNo < 2 ^ 32)
    (hcount : start.links.neighborPageCount ≤ cfg.maxBlockNeighbor)
    (hids : ∀ it ∈ items, it.1 < 2 ^ 32)
    (hbuild : start.buildFromAdjacencyMap cfg slots items vm = (none, obj, vm')) :
    (obj.TsApart cfg ∧ obj.TsInside cfg ∧ ∀ tsMap : VId → Option (List Nat),
      (∀ v tsVec, tsMap v = some tsVec → ∀ t ∈ tsVec, t < 2 ^ 64) →
      ∃ parsed, (ofData (obj.writeEdgeTimestamps cfg tsMap).data).parseFromPageData cfg =
          (none, parsed) ∧
        (obj.writeEdgeTimestamps cfg tsMap).GivesTs cfg items tsMap ∧
        parsed.GivesTs cfg items tsMap) ↔
    TsFits cfg.toConfig slots items := by
  by_cases hne : items = []
  · subst hne
    obtain rfl := build_nil hbuild
    refine iff_of_true ⟨?_, ?_, fun tsMap _ => ?_⟩ ⟨?_, ?_⟩
    · intro i j i' j' hij
      exact absurd hij.1 (Nat.not_lt_zero i)
    · intro i j hij
      exact absurd hij.1 (Nat.not_lt_zero i)
    · obtain ⟨parsed, hparse, -⟩ := builtEmpty_gives cfg start tsMap
      refine ⟨parsed, hparse, ?_, ?_⟩
      · intro i v nbrs j hi
        cases hi
      · intro i v nbrs j hi
        cases hi
    · intro i i' v nbrs v' nbrs' _ hi
      cases hi
    · intro i v nbrs hi
      cases hi
  · have h := TsBuilt.of_build hne htxn hbuild hsize hids hparent hcount
    constructor
    · rintro ⟨hapart, hinside, hall⟩
      refine h.fits hapart hinside fun i v nbrs hi hdeg hnil => ?_
      obtain ⟨parsed, hparse, -, hgives⟩ := hall onesTs onesTs_lt
      exact h.words hapart hinside hi hdeg hnil ⟨parsed, hparse, hgives⟩
    · intro hfits
      refine ⟨h.apart hfits, h.inside hfits, fun tsMap hvals => ?_⟩
      obtain ⟨parsed, hparse, hlive, hparsed, -⟩ := h.gives hfits hvals
      exact ⟨parsed, hparse, hlive, hparsed⟩

/-- Two compressed neighbours of four bytes each. -/
theorem edgeTs_iff_words : ∃ obj vm',
    (new ⟨⟨128, 64, 3, 3, 1, 0, true⟩, true⟩).buildFromAdjacencyMap
      ⟨⟨128, 64, 3, 3, 1, 0, true⟩, true⟩ (fun _ => 0) [(1, [2 ^ 23]), (4, [2 ^ 24])] [] =
        (none, obj, vm') ∧ obj.TsApart ⟨⟨128, 64, 3, 3, 1, 0, true⟩, true⟩ := by
  refine ⟨_, _, rfl, ?_⟩
  refine ((@edgeTs_iff ⟨⟨128, 64, 3, 3, 1, 0, true⟩, true⟩ (fun _ => 0)
    [(1, [2 ^ 23]), (4, [2 ^ 24])] _ (new ⟨⟨128, 64, 3, 3, 1, 0, true⟩, true⟩) [] _ rfl (by decide)
    (by decide) (by decide) (by decide) rfl).2 ⟨?_, ?_⟩).1
  · intro i i' v nbrs v' nbrs' hii hi hi' hdeg hdeg' hne
    obtain ⟨hlt, -⟩ := List.getElem?_eq_some_iff.1 hi'
    simp only [List.length_cons, List.length_nil] at hlt
    obtain ⟨rfl, rfl⟩ : i = 0 ∧ i' = 1 := by omega
    cases hi
    decide
  · intro i v nbrs hi hdeg hne
    obtain ⟨hlt, -⟩ := List.getElem?_eq_some_iff.1 hi
    simp only [List.length_cons, List.length_nil] at hlt
    obtain rfl | rfl : i = 0 ∨ i = 1 := by omega
    · cases hi
      decide
    · cases hi
      decide

/-- Two compressed neighbours of one byte each share the first entry, and the array has none. -/
theorem edgeTs_shared : ¬ ∀ (cfg : PageConfig) (start obj : CsrObject) (slots : VId → Nat)
    (items : List (VId × List VId)) (vm vm' : List (VId × Nat)), cfg.transaction = true →
    cfg.neighborCompress = true → cfg.pageSize < 2 ^ 32 → start.links.parentPageNo < 2 ^ 32 →
    start.links.neighborPageCount ≤ cfg.maxBlockNeighbor →
    (∀ it ∈ items, it.1 < 2 ^ 30 ∧ ∀ d ∈ it.2, d < 2 ^ 30) →
    start.buildFromAdjacencyMap cfg slots items vm = (none, obj, vm') →
    obj.TsApart cfg ∧ obj.TsInside cfg ∧ ∀ tsMap : VId → Option (List Nat),
      (∀ v tsVec, tsMap v = some tsVec → ∀ t ∈ tsVec, t < 2 ^ 64) →
      ∃ parsed, (ofData (obj.writeEdgeTimestamps cfg tsMap).data).parseFromPageData cfg =
          (none, parsed) ∧
        (obj.writeEdgeTimestamps cfg tsMap).GivesTs cfg items tsMap ∧
        parsed.GivesTs cfg items tsMap := by
  intro hall
  have hapart := (hall ⟨⟨128, 64, 3, 3, 1, 0, true⟩, true⟩
    (new ⟨⟨128, 64, 3, 3, 1, 0, true⟩, true⟩) _ (fun _ => 0) [(1, [2]), (4, [3])] [] _ rfl rfl
    (by decide) (by decide) (by decide) (by decide) rfl).1
  have hsame := hapart 0 0 1 0 ⟨by decide, by decide +kernel, by decide +kernel⟩
    ⟨by decide, by decide +kernel, by decide +kernel⟩ (by decide +kernel)
  cases hsame.1

end CsrObject

end BwGraph
