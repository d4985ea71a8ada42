import Mathlib.Algebra.Order.Ring.Nat
import Mathlib.Data.List.Flatten
import BwGraph.Lib.Scatter

/-
  The parallel sequence operations (`sequence.h`, `index_map.h`). Sizes are `size_t`, taken modulo
  2^64; the block size is a parameter, and `none` stands for an access outside a sequence or to a
  cell that was not written. The three loops over blocks of `pack` (count, scan, scatter) fill arrays
  in any order of the writes.

  `packIndex_eq`: with a sequence of at least one element whose blocks fit in `size_t`, `pack_index`
  gives the true indices in ascending order. `packIndex_none`: else, if it goes by blocks, a block
  begins behind its end and the cut reads outside the sequence; an empty sequence has such blocks.
-/

namespace BwGraph

open List Nat

/-- `size_t` arithmetic. -/
@[irreducible] def sizeMod : Nat := 2 ^ 64

theorem sizeMod_pos : 0 < sizeMod := by
  rw [sizeMod]
  exact Nat.two_pow_pos 64

/-- `num_blocks`; `n - 1` wraps at zero. -/
def numBlocks (n b : Nat) : Nat := (1 + (n + sizeMod - 1) % sizeMod / b) % sizeMod

/-- `in_imap`, `array_imap`: what is read at an index, between `s` and `e`. -/
structure IndexMap (α : Type) where
  f : Nat → Option α
  s : Nat
  e : Nat

namespace IndexMap

variable {α : Type} (A : IndexMap α)

/-- The map of an array. -/
def ofList (l : List α) : IndexMap α := ⟨fun i => l[i]?, 0, l.length⟩

def size : Nat := (A.e + sizeMod - A.s) % sizeMod

def get (i : Nat) : Option α := A.f ((i + A.s) % sizeMod)

def cut (ss ee : Nat) : IndexMap α := ⟨A.f, (A.s + ss) % sizeMod, (A.s + ee) % sizeMod⟩

/-- What a loop over the map reads. -/
def toList : Option (List α) := (List.range A.size).mapM A.get

end IndexMap

variable {α : Type}

/-- `sliced_for`, the bodies of which give their writes. -/
def slicedFor (o : WriteOrder) (n b : Nat) (cells : List (Option α))
    (f : Nat → Nat → Nat → Option (List (α × Nat))) : Option (List α) :=
  ((List.range (numBlocks n b)).mapM fun i =>
    let s := i * b % sizeMod
    f i s (min ((s + b) % sizeMod) n)).bind fun ws => o.scatter cells ws.flatten

/-- `sliced_for` with one value for each block, written to `Sums`. -/
def blockSums (o : WriteOrder) (n b : Nat) (f : Nat → Nat → Option α) : Option (List α) :=
  slicedFor o n b (List.replicate (numBlocks n b) none) fun i s e => (f s e).map fun v => [(v, i)]

/-- `reduce_serial`. It reads the first element before it looks at the size. -/
def reduceSerial (f : α → α → α) (A : IndexMap α) : Option α :=
  (A.get 0).bind fun r => A.toList.map fun l => l.tail.foldl f r

def reduce (o : WriteOrder) (b : Nat) (sequential : Bool) (f : α → α → α) (A : IndexMap α) :
    Option α :=
  if numBlocks A.size b ≤ 1 ∨ sequential then reduceSerial f A
  else (blockSums o A.size b fun s e => reduceSerial f (A.cut s e)).bind fun sums =>
    reduceSerial f (.ofList sums)

/-- The loop of `scan_serial`: the total and the values it writes. -/
def scanSerial (inclusive : Bool) (f : α → α → α) (zero : α) (l : List α) : α × List α :=
  outputs (fun r t => (f r t, if inclusive then f r t else r)) zero l

/-- `scan`, into the array `cells`, which may be the one it reads: a block reads and writes its own
cells only, and each one before it is written. -/
def scan (o : WriteOrder) (b : Nat) (inclusive sequential : Bool) (f : α → α → α) (zero : α)
    (A : IndexMap α) (cells : List (Option α)) : Option (α × List α) :=
  if numBlocks A.size b ≤ 2 ∨ sequential then
    A.toList.bind fun l =>
      let r := scanSerial inclusive f zero l
      (WriteOrder.serial.scatter cells r.2.zipIdx).map fun out => (r.1, out)
  else
    (blockSums o A.size b fun s e => reduceSerial f (A.cut s e)).bind fun sums =>
      let r := scanSerial false f zero sums
      (slicedFor o A.size b cells fun i s e => r.2[i]?.bind fun z => (A.cut s e).toList.map fun l =>
        (scanSerial inclusive f z l).2.zipIdx s).map fun out => (r.1, out)

/-- `sum_flags_serial`. -/
def sumFlagsSerial (A : IndexMap Bool) : Option Nat :=
  A.toList.map fun l => l.foldl (fun r t => r + t.toNat) 0

/-- The values that the loops of `pack_serial` and `pack_serial_at` write, in order. -/
def selected (A : IndexMap α) (fl : IndexMap Bool) : Option (List α) :=
  ((List.range A.size).mapM fun i => (fl.get i).bind fun t =>
    if t then (A.get i).map fun v => [v] else some []).map List.flatten

def packSerial (A : IndexMap α) (fl : IndexMap Bool) : Option (List α) :=
  (sumFlagsSerial fl).bind fun m => (selected A fl).bind fun l =>
    WriteOrder.serial.scatter (List.replicate m none) l.zipIdx

def pack (o : WriteOrder) (b : Nat) (sequential : Bool) (A : IndexMap α) (fl : IndexMap Bool) :
    Option (List α) :=
  if numBlocks A.size b ≤ 1 ∨ sequential then packSerial A fl
  else
    (blockSums o A.size b fun s e => sumFlagsSerial (fl.cut s e)).bind fun sums =>
      (scan o b false false (· + ·) 0 (.ofList sums) (sums.map some)).bind fun r =>
        slicedFor o A.size b (List.replicate r.1 none) fun i s e => r.2[i]?.bind fun k =>
          (selected (A.cut s e) (fl.cut s e)).map fun l => l.zipIdx k

/-- `pack_index`, with indices of `w` bits. -/
def packIndex (o : WriteOrder) (b : Nat) (sequential : Bool) (w : Nat) (fl : IndexMap Bool) :
    Option (List Nat) :=
  pack o b sequential ⟨fun i => some (i % 2 ^ w), 0, fl.size⟩ fl

/-- The true indices, in ascending order. -/
def trueIndices (flags : List Bool) : List Nat :=
  (List.range flags.length).filter fun i => flags.getD i false

/-! ## Blocks -/

/-- A sequence that is not empty and whose blocks end below 2^64. -/
structure Fits (n b : Nat) : Prop where
  pos : 1 ≤ n
  lt : n < sizeMod
  block_pos : 0 < b
  blocks_lt : numBlocks n b * b < sizeMod

variable {n b : Nat} {o : WriteOrder}

theorem numBlocks_eq (hn : 1 ≤ n) (hlt : n < sizeMod) : numBlocks n b = 1 + (n - 1) / b := by
  have hdiv : (n - 1) / b ≤ n - 1 := Nat.div_le_self _ _
  have hmod : (n + sizeMod - 1) % sizeMod = n - 1 := by
    rw [show n + sizeMod - 1 = n - 1 + sizeMod by omega, add_mod_right]
    exact mod_eq_of_lt (by omega)
  rw [numBlocks, hmod]
  exact mod_eq_of_lt (by omega)

variable {i : Nat}

theorem lt_numBlocks (hn : 1 ≤ n) (hlt : n < sizeMod) (hb : 0 < b) :
    i < numBlocks n b ↔ i * b < n := by
  rw [numBlocks_eq hn hlt, lt_one_add_iff, Nat.le_div_iff_mul_le hb]
  omega

/-- The indices of a block. -/
def sliceIndices (n b i : Nat) : List Nat := List.range' (i * b) (min (i * b + b) n - i * b)

theorem flatMap_slice (k : Nat) : (range k).flatMap (sliceIndices n b) = range (min (k * b) n) := by
  induction k with
  | zero => simp
  | succ k ih =>
    rw [range_succ, flatMap_append, ih, flatMap_singleton, sliceIndices, succ_mul]
    rcases Nat.le_total n (k * b) with h | h
    · rw [show min (k * b + b) n - k * b = 0 by omega, range'_zero, append_nil]
      congr 1
      omega
    · rw [Nat.min_eq_left h, range_eq_range', range_eq_range',
        show min (k * b + b) n = k * b + (min (k * b + b) n - k * b) by omega, Nat.add_sub_cancel_left,
        ← range'_append_1, Nat.zero_add]

namespace Fits

variable (h : Fits n b)

include h in
theorem lt_iff {i : Nat} : i < numBlocks n b ↔ i * b < n := lt_numBlocks h.pos h.lt h.block_pos

include h in
theorem flatMap_slices : (range (numBlocks n b)).flatMap (sliceIndices n b) = range n := by
  have hle : n ≤ numBlocks n b * b :=
    Nat.not_lt.1 fun hlt => Nat.lt_irrefl _ (h.lt_iff.2 hlt)
  rw [flatMap_slice, Nat.min_eq_right hle]

include h in
/-- The blocks of the block sums are no more. -/
theorem sums : Fits (numBlocks n b) b := by
  have hL := h.blocks_lt
  have hpos : 1 ≤ numBlocks n b := h.lt_iff.2 (by have := h.pos; omega)
  obtain ⟨k, hk⟩ := Nat.exists_eq_add_of_le' hpos
  have hkb : k ≤ k * b := Nat.le_mul_of_pos_right _ h.block_pos
  rw [hk, succ_mul] at hL
  have hlt : k + 1 < sizeMod := by
    have := h.block_pos
    omega
  refine ⟨hpos, hk ▸ hlt, h.block_pos, ?_⟩
  have hdiv := div_mul_le_self k b
  rw [hk, numBlocks_eq (Nat.le_add_left 1 k) hlt, Nat.add_mul, Nat.one_mul, Nat.add_sub_cancel]
  omega

variable {cells : List (Option α)} {f : Nat → Nat → Nat → Option (List (α × Nat))}

include h in
theorem slicedFor_eq {t : Nat → List (α × Nat)} {l : List α}
    (hf : ∀ i, i * b < n → f i (i * b) (min (i * b + b) n) = some (t i))
    (hws : (range (numBlocks n b)).flatMap t = l.zipIdx)
    (hc : cells.length = l.length) : slicedFor o n b cells f = some l := by
  have hbody : ∀ i ∈ range (numBlocks n b), (let s := i * b % sizeMod
      f i s (min ((s + b) % sizeMod) n)) = some (t i) := by
    intro i hi
    rw [mem_range] at hi
    have hin := h.lt_iff.1 hi
    have hnext : i * b + b ≤ numBlocks n b * b := by
      rw [← succ_mul]
      exact Nat.mul_le_mul_right b hi
    have hlt := h.blocks_lt
    show f i (i * b % sizeMod) (min ((i * b % sizeMod + b) % sizeMod) n) = _
    rw [mod_eq_of_lt (a := i * b) (by omega), mod_eq_of_lt (by omega)]
    exact hf i hin
  rw [slicedFor, mapM_eq_some_map hbody, Option.bind_some, ← flatMap_def, hws]
  exact o.scatter_zipIdx hc

include h in
theorem blockSums_eq {f : Nat → Nat → Option α} {v : Nat → α}
    (hf : ∀ i, i * b < n → f (i * b) (min (i * b + b) n) = some (v i)) :
    blockSums o n b f = some ((range (numBlocks n b)).map v) := by
  refine h.slicedFor_eq (t := fun i => [(v i, i)]) (fun i hi => by rw [hf i hi]; rfl) ?_ (by simp)
  have hzip := zipIdx_flatMap (fun i => [v i]) (numBlocks n b)
  simpa [← map_eq_flatMap] using hzip

end Fits

/-! ## Serial loops over a cut -/

/-- `A` is the map of the first `n` values of `x`. -/
structure IndexMap.Reads (A : IndexMap α) (n : Nat) (x : Nat → α) : Prop where
  s_eq : A.s = 0
  e_eq : A.e = n
  f_eq : ∀ i < n, A.f i = some (x i)

theorem reads_ofList_map (n : Nat) (x : Nat → α) :
    (IndexMap.ofList ((range n).map x)).Reads n x :=
  ⟨rfl, by simp [IndexMap.ofList], fun i hi => by simp [IndexMap.ofList, hi]⟩

namespace IndexMap.Reads

variable {A : IndexMap α} {x : Nat → α} (h : A.Reads n x) (hlt : n < sizeMod) {s e : Nat}

include h hlt

theorem size_cut (hs : s ≤ e) (he : e ≤ n) : (A.cut s e).size = e - s := by
  have hsm : (A.s + s) % sizeMod = s := by rw [h.s_eq, Nat.zero_add, mod_eq_of_lt (by omega)]
  have hem : (A.s + e) % sizeMod = e := by rw [h.s_eq, Nat.zero_add, mod_eq_of_lt (by omega)]
  show ((A.s + e) % sizeMod + sizeMod - (A.s + s) % sizeMod) % sizeMod = e - s
  rw [hsm, hem, show e + sizeMod - s = e - s + sizeMod by omega, add_mod_right]
  exact mod_eq_of_lt (by omega)

theorem get_cut (he : e ≤ n) {i : Nat} (hi : s + i < e) : (A.cut s e).get i = some (x (s + i)) := by
  have hi' : (i + (A.s + s) % sizeMod) % sizeMod = s + i := by
    rw [h.s_eq, Nat.zero_add, mod_eq_of_lt (a := s) (by omega), Nat.add_comm,
      mod_eq_of_lt (by omega)]
  show A.f ((i + (A.s + s) % sizeMod) % sizeMod) = _
  rw [hi']
  exact h.f_eq _ (by omega)

theorem toList_cut (hs : s ≤ e) (he : e ≤ n) :
    (A.cut s e).toList = some ((range' s (e - s)).map x) := by
  rw [toList, h.size_cut hlt hs he, range'_eq_map_range, map_map]
  refine mapM_eq_some_map fun i hi => ?_
  rw [mem_range] at hi
  exact h.get_cut hlt he (by omega)

theorem cut_self : A.cut 0 n = A := by
  rw [cut, h.s_eq, Nat.zero_add, zero_mod, Nat.zero_add, mod_eq_of_lt hlt, ← h.e_eq, ← h.s_eq]

theorem size_eq : A.size = n := by
  rw [← h.cut_self hlt]
  exact h.size_cut hlt (Nat.zero_le n) (Nat.le_refl n)

theorem toList_eq : A.toList = some ((range n).map x) := by
  have hcut := h.toList_cut hlt (Nat.zero_le n) (Nat.le_refl n)
  rwa [h.cut_self hlt, Nat.sub_zero, ← range_eq_range'] at hcut

/-- The reduction of a part that is not empty, as a step of a fold. -/
theorem reduceSerial_cut (f : α → α → α) [Std.Associative f] (hs : s < e) (he : e ≤ n) :
    ∃ v, reduceSerial f (A.cut s e) = some v ∧
      ∀ z, f z v = ((range' s (e - s)).map x).foldl f z := by
  have hget := h.get_cut hlt he (i := 0) hs
  have hlist := h.toList_cut hlt (Nat.le_of_lt hs) he
  rw [show e - s = e - s - 1 + 1 by omega, range'_succ, map_cons] at hlist ⊢
  refine ⟨_, by rw [reduceSerial, hget, hlist]; rfl, fun z => ?_⟩
  show f z (List.foldl f (x s) _) = _
  rw [foldl_cons, foldl_assoc]
  rfl

theorem selected_cut {fl : IndexMap Bool} {t : Nat → Bool} (hfl : fl.Reads n t) (hs : s ≤ e)
    (he : e ≤ n) : selected (A.cut s e) (fl.cut s e) =
      some (((range' s (e - s)).filter t).map x) := by
  have hbody : ∀ i ∈ range (e - s), ((fl.cut s e).get i).bind (fun t =>
      if t then ((A.cut s e).get i).map fun v => [v] else some []) =
        some (if t (s + i) then [x (s + i)] else []) := by
    intro i hi
    rw [mem_range] at hi
    rw [hfl.get_cut hlt he (by omega), h.get_cut hlt he (by omega), Option.bind_some]
    split <;> rfl
  rw [selected, h.size_cut hlt hs he, mapM_eq_some_map hbody, Option.map_some,
    range'_eq_map_range]
  congr 1
  induction range (e - s) with
  | nil => rfl
  | cons i l ih =>
    rw [map_cons, flatten_cons, ih, map_cons, filter_cons]
    split <;> rfl

end IndexMap.Reads

/-! ## The block scan -/

section

variable {A : IndexMap α} {x : Nat → α} (hr : A.Reads n x) (h : Fits n b) (f : α → α → α)
include hr h

/-- The block sums of a reduction; the first of them are folded like their blocks. -/
theorem IndexMap.Reads.blockSums_reduceSerial [Std.Associative f] : ∃ v : Nat → α,
      (blockSums o n b fun s e => reduceSerial f (A.cut s e)) =
        some ((range (numBlocks n b)).map v) ∧
      ∀ z, ∀ k ≤ numBlocks n b, ((range k).map v).foldl f z =
        (((range k).flatMap (sliceIndices n b)).map x).foldl f z := by
  have hex : ∀ i, ∃ v, i * b < n → reduceSerial f (A.cut (i * b) (min (i * b + b) n)) = some v ∧
      ∀ z, f z v = ((sliceIndices n b i).map x).foldl f z := by
    intro i
    by_cases hi : i * b < n
    · obtain ⟨v, hv⟩ := hr.reduceSerial_cut h.lt f (s := i * b) (e := min (i * b + b) n)
        (by have := h.block_pos; omega) (Nat.min_le_right _ _)
      exact ⟨v, fun _ => hv⟩
    · exact ⟨x 0, fun hi' => absurd hi' hi⟩
  choose v hv using hex
  refine ⟨v, h.blockSums_eq fun i hi => (hv i hi).1, fun z k => ?_⟩
  induction k with
  | zero => exact fun _ => rfl
  | succ k ih =>
    intro hk
    have hkn := h.lt_iff.1 hk
    rw [range_succ, map_append, foldl_append, ih (by omega), flatMap_append,
      map_append, foldl_append, flatMap_singleton]
    exact (hv k hkn).2 _

/-- A reduction of a sequence that is not empty is a fold over it. -/
theorem reduce_eq [Std.Associative f] (sequential : Bool) :
    ∃ v, reduce o b sequential f A = some v ∧ ∀ z, f z v = ((range n).map x).foldl f z := by
  unfold reduce
  rw [hr.size_eq h.lt]
  split
  · have hcut := hr.reduceSerial_cut h.lt f h.pos (Nat.le_refl n)
    rwa [hr.cut_self h.lt, Nat.sub_zero, ← range_eq_range'] at hcut
  · obtain ⟨v, hv, hsums⟩ := hr.blockSums_reduceSerial (o := o) h f
    have hL := reads_ofList_map (numBlocks n b) v
    obtain ⟨w, hw, hfold⟩ := hL.reduceSerial_cut h.sums.lt f h.sums.pos (Nat.le_refl _)
    rw [hL.cut_self h.sums.lt] at hw
    rw [hv, Option.bind_some]
    refine ⟨w, hw, fun z => ?_⟩
    rw [hfold, Nat.sub_zero, ← range_eq_range', hsums z _ (Nat.le_refl _), h.flatMap_slices]

end

section

variable (inclusive : Bool) (f : α → α → α) (z : α) (l : List α)

theorem scanSerial_fst : (scanSerial inclusive f z l).1 = l.foldl f z := by
  induction l generalizing z with
  | nil => rfl
  | cons a l ih => exact ih (f z a)

theorem length_scanSerial : (scanSerial inclusive f z l).2.length = l.length := by
  induction l generalizing z with
  | nil => rfl
  | cons a l ih => exact congrArg (· + 1) (ih (f z a))

end

/-- What an exclusive scan leaves at an index. -/
theorem getElem?_scanSerial (f : α → α → α) (z : α) (v : Nat → α) (hi : i < n) :
    (scanSerial false f z ((range n).map v)).2[i]? =
      some (((range i).map v).foldl f z) := by
  have hget : ∀ l : List α, ∀ z i, i < l.length →
      (scanSerial false f z l).2[i]? = some ((l.take i).foldl f z) := by
    intro l
    induction l with
    | nil => simp
    | cons a l ih =>
      intro z i hi
      cases i with
      | zero => rfl
      | succ i => exact ih (f z a) i (lt_of_succ_lt_succ hi)
  rw [hget _ z i (by simpa using hi), ← map_take, take_range, Nat.min_eq_left (Nat.le_of_lt hi)]

variable {A : IndexMap α} {x : Nat → α}

/-- A scan of a sequence that is not empty is the serial scan. -/
theorem scan_eq (hr : A.Reads n x) (h : Fits n b) (f : α → α → α) [Std.Associative f]
    (inclusive sequential : Bool) (zero : α) {cells : List (Option α)} (hc : cells.length = n) :
    scan o b inclusive sequential f zero A cells =
      some (scanSerial inclusive f zero ((range n).map x)) := by
  unfold scan
  rw [hr.size_eq h.lt]
  split
  · have hlen : cells.length = (scanSerial inclusive f zero ((range n).map x)).2.length := by
      rw [length_scanSerial, length_map, length_range, hc]
    rw [hr.toList_eq h.lt, Option.bind_some]
    dsimp only
    rw [WriteOrder.scatter_zipIdx _ hlen]
    rfl
  · obtain ⟨v, hv, hsums⟩ := hr.blockSums_reduceSerial (o := o) h f
    let part i := (sliceIndices n b i).map x
    have hstart : ∀ k ≤ numBlocks n b, ((range k).map v).foldl f zero =
        (scanSerial inclusive f zero ((range k).flatMap part)).1 := by
      intro k hk
      rw [hsums zero k hk, scanSerial_fst, map_flatMap]
    let out i := (scanSerial inclusive f
      (scanSerial inclusive f zero ((range i).flatMap part)).1 (part i)).2
    have hout : ∀ k, (range k).flatMap out =
        (scanSerial inclusive f zero (((range k).flatMap (sliceIndices n b)).map x)).2 := by
      intro k
      rw [map_flatMap]
      exact outputs_flatMap _ zero part k
    have hlen : ∀ k, k * b < n → ((range k).flatMap out).length = k * b := by
      intro k hk
      rw [hout, length_scanSerial, length_map, flatMap_slice, length_range]
      omega
    rw [hv, Option.bind_some]
    dsimp only
    rw [h.slicedFor_eq (t := fun i => (out i).zipIdx (i * b))
      (l := (scanSerial inclusive f zero ((range n).map x)).2)]
    · have hall : (range (numBlocks n b)).flatMap part = (range n).map x := by
        rw [← h.flatMap_slices, map_flatMap]
      rw [scanSerial_fst, hstart _ (Nat.le_refl _), hall]
      rfl
    · intro i hi
      have hiL := h.lt_iff.2 hi
      rw [getElem?_scanSerial f zero v hiL, hstart i (Nat.le_of_lt hiL), Option.bind_some,
        hr.toList_cut h.lt (by omega) (Nat.min_le_right _ _)]
      rfl
    · rw [← h.flatMap_slices, ← hout, ← zipIdx_flatMap]
      refine flatMap_congr fun i hi => ?_
      rw [hlen i (h.lt_iff.1 (mem_range.1 hi))]
    · rw [length_scanSerial, length_map, length_range, hc]

/-! ## Packing -/

theorem sumFlags_foldl (l : List Bool) (r : Nat) :
    l.foldl (fun r t => r + t.toNat) r = r + l.count true := by
  induction l generalizing r with
  | nil => rfl
  | cons t l ih =>
    rw [foldl_cons, ih, count_cons]
    cases t with
    | false => rfl
    | true => exact Nat.add_right_comm r 1 _

/-- The call goes in one pass, or by blocks that fit. -/
def OnePassOrFits (n b : Nat) (sequential : Bool) : Prop :=
  sequential = true ∨ numBlocks n b ≤ 1 ∨ 1 ≤ n ∧ numBlocks n b * b < sizeMod

theorem Fits.onePassOrFits {sequential : Bool} (h : Fits n b) : OnePassOrFits n b sequential :=
  .inr (.inr ⟨h.pos, h.blocks_lt⟩)

/-- `pack` keeps the values with a true flag, in order. -/
theorem pack_eq {fl : IndexMap Bool} {t : Nat → Bool} (hr : A.Reads n x) (hfl : fl.Reads n t)
    (hlt : n < sizeMod) (hb : 0 < b) {sequential : Bool} (hpath : OnePassOrFits n b sequential) :
    pack o b sequential A fl = some (((range n).filter t).map x) := by
  have hsum : ∀ s e, s ≤ e → e ≤ n → sumFlagsSerial (fl.cut s e) =
      some (((range' s (e - s)).filter t).map x).length := by
    intro s e hs he
    rw [sumFlagsSerial, hfl.toList_cut hlt hs he, Option.map_some, sumFlags_foldl, Nat.zero_add,
      length_map, ← countP_eq_length_filter, List.count, countP_map]
    simp [Function.comp_def]
  unfold pack
  rw [hr.size_eq hlt]
  split
  · have hself := hr.selected_cut hlt hfl (Nat.zero_le n) (Nat.le_refl n)
    have hm := hsum 0 n (Nat.zero_le n) (Nat.le_refl n)
    rw [hr.cut_self hlt, hfl.cut_self hlt] at hself
    rw [hfl.cut_self hlt] at hm
    rw [packSerial, hm, hself, Option.bind_some, Option.bind_some,
      WriteOrder.scatter_zipIdx _ length_replicate, Nat.sub_zero, ← range_eq_range']
  · rename_i hpar
    rw [not_or] at hpar
    obtain ⟨hpos, hblocks⟩ := (hpath.resolve_left hpar.2).resolve_left hpar.1
    have h : Fits n b := ⟨hpos, hlt, hb, hblocks⟩
    let part i := ((sliceIndices n b i).filter t).map x
    have hall : (range (numBlocks n b)).flatMap part = ((range n).filter t).map x := by
      rw [← h.flatMap_slices, filter_flatMap, map_flatMap]
    have hcount : ∀ k, ((range k).map fun i => (part i).length).foldl (· + ·) 0 =
        ((range k).flatMap part).length := by
      intro k
      rw [length_flatMap, sum_eq_foldl]
    have hle : ∀ i, i * b < n → i * b ≤ min (i * b + b) n := fun i hi => by omega
    rw [h.blockSums_eq (v := fun i => (part i).length) fun i hi =>
      hsum _ _ (hle i hi) (Nat.min_le_right _ _), Option.bind_some,
      scan_eq (reads_ofList_map _ _) h.sums _ _ _ _ (by simp), Option.bind_some, scanSerial_fst, hcount]
    refine h.slicedFor_eq (t := fun i => (part i).zipIdx ((range i).flatMap part).length)
      (fun i hi => ?_) ?_ ?_
    · rw [getElem?_scanSerial _ _ _ (h.lt_iff.2 hi), hcount,
        Option.bind_some, hr.selected_cut hlt hfl (hle i hi) (Nat.min_le_right _ _)]
      rfl
    · rw [zipIdx_flatMap, hall]
    · rw [length_replicate, hall]

/-! ## The true indices -/

theorem reads_ofList (flags : List Bool) :
    (IndexMap.ofList flags).Reads flags.length fun i => flags.getD i false :=
  ⟨rfl, rfl, fun i hi => by simp [IndexMap.ofList, hi]⟩

variable {flags : List Bool} {sequential : Bool} {w : Nat}

theorem mem_trueIndices : i ∈ trueIndices flags ↔ flags[i]? = some true := by
  rw [trueIndices, List.mem_filter, List.mem_range, List.getD_eq_getElem?_getD]
  cases hi : flags[i]? with
  | none => simp
  | some t => simp [(List.getElem?_eq_some_iff.1 hi).1]

theorem nodup_trueIndices (flags : List Bool) : (trueIndices flags).Nodup :=
  nodup_range.filter _

theorem length_trueIndices (flags : List Bool) : (trueIndices flags).length = flags.count true := by
  conv_rhs => rw [← map_getD_range flags false]
  rw [trueIndices, ← countP_eq_length_filter, List.count, countP_map]
  simp [Function.comp_def]

/-- Indices are kept by the cast to `w` bits exactly when they fit. -/
theorem map_mod_eq_self_iff {l : List Nat} : l.map (· % 2 ^ w) = l ↔ ∀ i ∈ l, i < 2 ^ w := by
  conv_lhs => rw [← map_id l, map_map, map_inj_left]
  exact forall₂_congr fun i _ => mod_eq_iff_lt (Nat.ne_of_gt (Nat.two_pow_pos w))

/-- A cut that ends before it begins reads on until it is outside. -/
theorem toList_cut_none {l : List α} (hl : l.length < sizeMod) {s e : Nat} (hs : s < sizeMod)
    (he : e < s) : ((IndexMap.ofList l).cut s e).toList = none := by
  have hcut : (IndexMap.ofList l).cut s e = ⟨fun i => l[i]?, s, e⟩ := by
    simp only [IndexMap.cut, IndexMap.ofList, Nat.zero_add]
    rw [mod_eq_of_lt hs, mod_eq_of_lt (by omega)]
  rw [hcut]
  refine mapM_eq_none (a := max l.length s - s) (mem_range.2 ?_) (getElem?_eq_none ?_)
  · show _ < (e + sizeMod - s) % sizeMod
    rw [mod_eq_of_lt (by omega)]
    omega
  · show _ ≤ (max l.length s - s + s) % sizeMod
    rw [mod_eq_of_lt (by omega)]
    omega

/-- In an empty sequence, or at the end of one that reaches 2^64, a block ends before it begins. -/
theorem exists_badBlock (hlt : n < sizeMod) (hb : 0 < b) (hb' : b < sizeMod)
    (hl : 1 < numBlocks n b) (hfit : ¬Fits n b) : ∃ i < numBlocks n b,
      min ((i * b % sizeMod + b) % sizeMod) n < i * b % sizeMod := by
  rcases Nat.eq_zero_or_pos n with rfl | hn
  · refine ⟨1, hl, ?_⟩
    rw [Nat.one_mul, mod_eq_of_lt hb']
    omega
  · have hover : sizeMod ≤ numBlocks n b * b := Nat.not_lt.1 fun hL => hfit ⟨hn, hlt, hb, hL⟩
    obtain ⟨k, hk⟩ := Nat.exists_eq_add_of_lt hl
    have hlast : (1 + k) * b < n := (lt_numBlocks hn hlt hb).1 (by omega)
    rw [hk, succ_mul] at hover
    refine ⟨1 + k, by omega, ?_⟩
    rw [mod_eq_of_lt (a := (1 + k) * b) (by omega), mod_eq_sub_mod hover,
      mod_eq_of_lt (by omega)]
    omega

variable (hlt : flags.length < sizeMod) (hb : 0 < b)
include hlt hb

theorem packIndex_eq (hpath : OnePassOrFits flags.length b sequential) :
    packIndex o b sequential w (.ofList flags) = some ((trueIndices flags).map (· % 2 ^ w)) := by
  have hfl := reads_ofList flags
  rw [packIndex, hfl.size_eq hlt]
  exact pack_eq ⟨rfl, rfl, fun _ _ => rfl⟩ hfl hlt hb hpath

variable (hb' : b < sizeMod)
include hb'

theorem packIndex_none (hpath : ¬OnePassOrFits flags.length b sequential) :
    packIndex o b sequential w (.ofList flags) = none := by
  simp only [OnePassOrFits, not_or, Nat.not_le] at hpath
  obtain ⟨hseq, hl, hover⟩ := hpath
  obtain ⟨i, hi, hbad⟩ := exists_badBlock hlt hb hb' hl fun h => hover ⟨h.pos, h.blocks_lt⟩
  have hreads : IndexMap.Reads (α := Nat) ⟨fun i => some (i % 2 ^ w), 0, flags.length⟩
      flags.length (· % 2 ^ w) := ⟨rfl, rfl, fun _ _ => rfl⟩
  have hcut := toList_cut_none (l := flags) hlt (mod_lt (i * b) sizeMod_pos) hbad
  rw [packIndex, (reads_ofList flags).size_eq hlt, pack, hreads.size_eq hlt, if_neg (not_or.2 ⟨Nat.not_le.2 hl, hseq⟩), blockSums,
    slicedFor, mapM_eq_none (mem_range.2 hi)]
  · rfl
  · dsimp only
    rw [sumFlagsSerial, hcut]
    rfl

/-- `pack_index` gives the true indices exactly when it goes in one pass or its blocks fit, and the
indices fit in its type. -/
theorem packIndex_iff : packIndex o b sequential w (.ofList flags) = some (trueIndices flags) ↔
    OnePassOrFits flags.length b sequential ∧ ∀ i ∈ trueIndices flags, i < 2 ^ w := by
  by_cases h : OnePassOrFits flags.length b sequential
  · rw [packIndex_eq hlt hb h, Option.some_inj, map_mod_eq_self_iff, and_iff_right h]
  · rw [packIndex_none hlt hb hb' h]
    exact iff_of_false nofun fun hh => h hh.1

end BwGraph
