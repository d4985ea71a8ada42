import Mathlib.Data.List.Sort
import BwGraph.Lib.Bytes
import BwGraph.Lib.CountingSort

/-
  Rows of numbers in one array: row `v` starts where the lengths of the rows before it end
  (`CountingSort.offset`). The rows may be stored in any order, each at its start; afterwards every
  one is read back as the slice between its start and the next (`slice_storeRows`), as it is from
  the rows put one behind the other (`slice_flatten`). `unique` is `std::unique`: on a sorted list
  what stays is strictly ascending.
-/

namespace Rows

open CountingSort Bytes List

/-- The values of an array from `lo` up to `hi`. -/
def slice {α : Type} (l : List α) (lo hi : Nat) : List α := (l.drop lo).take (hi - lo)

/-- The running sums of a list of lengths. -/
def starts (lens : List Nat) : List Nat := lens.scanl (· + ·) 0

/-- Each row in turn is stored at its start. -/
def storeRows (row : Nat → List Nat) (order : List Nat) (buf : List Nat) : List Nat :=
  order.foldl (fun buf v => poke buf (offset (fun u => (row u).length) v) (row v)) buf

/-- `std::unique`: of equal neighbours one stays. -/
def unique : List Nat → List Nat
  | [] => []
  | x :: l => if (unique l).head? = some x then unique l else x :: unique l

/-! ## Offsets -/

theorem offset_congr {f g : Nat → Nat} {n : Nat} (h : ∀ i < n, f i = g i) :
    offset f n = offset g n := by
  induction n with
  | zero => rfl
  | succ n ih =>
    show offset f n + f n = offset g n + g n
    rw [ih fun i hi => h i (Nat.lt_succ_of_lt hi), h n (Nat.lt_succ_self n)]

theorem offset_mono {f : Nat → Nat} {i j : Nat} (h : i ≤ j) : offset f i ≤ offset f j := by
  rcases Nat.eq_or_lt_of_le h with rfl | hlt
  · exact Nat.le_refl _
  · exact Nat.le_trans (Nat.le_add_right _ _) (offset_le hlt)

theorem getElem?_starts {lens : List Nat} {i : Nat} (hi : i ≤ lens.length) :
    (starts lens)[i]? = some (offset (fun j => lens.getD j 0) i) := by
  induction i with
  | zero =>
    unfold starts
    rw [getElem?_scanl_zero]
    rfl
  | succ i ih =>
    have hlt : i < lens.length := hi
    have hprev := ih (Nat.le_of_lt hlt)
    unfold starts at hprev ⊢
    rw [getElem?_succ_scanl, hprev, getElem?_eq_getElem hlt]
    show some (_ + _) = some (offset _ i + lens.getD i 0)
    rw [getD_eq_getElem _ _ hlt]

theorem length_starts (lens : List Nat) : (starts lens).length = lens.length + 1 :=
  length_scanl

/-! ## Slices -/

theorem getElem?_slice {α : Type} (l : List α) (lo hi i : Nat) :
    (slice l lo hi)[i]? = if i < hi - lo then l[lo + i]? else none := by
  unfold slice
  rw [getElem?_take, getElem?_drop]

theorem slice_congr {lo hi : Nat} {buf buf' : List Nat} (h : AgreeOn lo hi buf buf')
    (hlen : buf.length = buf'.length) : slice buf lo hi = slice buf' lo hi := by
  refine ext_getElem? fun i => ?_
  rw [getElem?_slice, getElem?_slice]
  split_ifs with hi'
  · have hget := h (lo + i) (by omega) (by omega)
    by_cases hlt : lo + i < buf.length
    · rw [getD_eq_getElem _ _ hlt, getD_eq_getElem _ _ (hlen ▸ hlt)] at hget
      rw [getElem?_eq_getElem hlt, getElem?_eq_getElem (hlen ▸ hlt), hget]
    · rw [getElem?_eq_none (by omega), getElem?_eq_none (by omega)]
  · rfl

theorem slice_poke {buf bs : List Nat} {pos : Nat} (h : pos + bs.length ≤ buf.length) :
    slice (poke buf pos bs) pos (pos + bs.length) = bs := by
  unfold slice
  rw [drop_poke h, Nat.add_sub_cancel_left, take_left]

theorem length_storeRows (row : Nat → List Nat) (order : List Nat) (buf : List Nat) :
    (storeRows row order buf).length = buf.length := by
  unfold storeRows
  induction order generalizing buf with
  | nil => rfl
  | cons v order ih => rw [foldl_cons, ih, length_poke]

variable {row : Nat → List Nat}

variable {order : List Nat}

/-- Storing other rows leaves the place of a row as it is. -/
theorem agreeOn_storeRows {v : Nat} (hv : v ∉ order) (buf : List Nat) :
    AgreeOn (offset (fun u => (row u).length) v) (offset (fun u => (row u).length) (v + 1))
      (storeRows row order buf) buf := by
  unfold storeRows
  induction order generalizing buf with
  | nil => exact .refl _ _ buf
  | cons w order ih =>
    rw [mem_cons, not_or] at hv
    refine AgreeOn.trans (ih hv.2 _) (agreeOn_poke buf ?_)
    rcases Nat.lt_or_ge v w with hlt | hge
    · exact .inl (offset_mono hlt)
    · exact .inr (offset_le (Nat.lt_of_le_of_ne hge (Ne.symm hv.1)))

/-- Each row that was stored is read back. -/
theorem slice_storeRows (hnd : order.Nodup) {buf : List Nat}
    (hfit : ∀ v ∈ order, offset (fun u => (row u).length) (v + 1) ≤ buf.length) {v : Nat}
    (hv : v ∈ order) :
    slice (storeRows row order buf) (offset (fun u => (row u).length) v)
      (offset (fun u => (row u).length) (v + 1)) = row v := by
  induction order generalizing buf with
  | nil => exact absurd hv not_mem_nil
  | cons w order ih =>
    obtain ⟨hw, hnd'⟩ := nodup_cons.1 hnd
    show slice (storeRows row order (poke buf _ (row w))) _ _ = row v
    by_cases he : v = w
    · rw [he]
      rw [slice_congr (agreeOn_storeRows hw _) (length_storeRows row order _)]
      exact slice_poke (hfit w mem_cons_self)
    · refine ih hnd' (fun u hu => ?_) ((mem_cons.1 hv).resolve_left he)
      rw [length_poke]
      exact hfit u (mem_cons_of_mem _ hu)

theorem offset_cons (r : List Nat) (rows : List (List Nat)) (n : Nat) :
    offset (fun j => ((r :: rows).getD j []).length) (n + 1) =
      r.length + offset (fun j => (rows.getD j []).length) n := by
  induction n with
  | zero => exact Nat.add_comm 0 _
  | succ n ih =>
    show offset _ (n + 1) + _ = _ + (offset _ n + _)
    rw [ih, Nat.add_assoc]
    rfl

/-- Rows one behind the other. -/
theorem slice_flatten (rows : List (List Nat)) {i : Nat} (hi : i < rows.length) :
    slice rows.flatten (offset (fun j => (rows.getD j []).length) i)
      (offset (fun j => (rows.getD j []).length) (i + 1)) = rows.getD i [] := by
  induction rows generalizing i with
  | nil => exact absurd hi (Nat.not_lt_zero i)
  | cons r rows ih =>
    rw [flatten_cons]
    rcases i with _ | i
    · show ((r ++ rows.flatten).drop 0).take (0 + r.length - 0) = r
      rw [drop_zero, Nat.zero_add, Nat.sub_zero, take_left]
    · have hrest := ih (Nat.lt_of_succ_lt_succ hi)
      unfold slice at hrest ⊢
      rw [offset_cons, offset_cons, ← drop_drop, drop_left, Nat.add_sub_add_left]
      exact hrest

/-! ## Sorted rows -/

theorem mem_unique {x : Nat} {l : List Nat} : x ∈ unique l ↔ x ∈ l := by
  induction l with
  | nil => exact Iff.rfl
  | cons y l ih =>
    unfold unique
    split_ifs with hhead
    · rw [ih, mem_cons]
      refine (or_iff_right_of_imp fun he => ?_).symm
      rw [← he] at hhead
      exact ih.1 (mem_of_mem_head? hhead)
    · rw [mem_cons, ih, mem_cons]

/-- On a sorted list the result is strictly ascending. -/
theorem pairwise_unique {l : List Nat} (h : l.Pairwise (· ≤ ·)) : (unique l).Pairwise (· < ·) := by
  induction l with
  | nil => exact .nil
  | cons y l ih =>
    obtain ⟨hall, htail⟩ := pairwise_cons.1 h
    have hstrict := ih htail
    unfold unique
    split_ifs with hhead
    · exact hstrict
    · refine pairwise_cons.2 ⟨fun z hz => ?_, hstrict⟩
      have hle := hall z (mem_unique.1 hz)
      -- the first of the rest is not `y`, and the others are above it
      rcases hl : unique l with _ | ⟨w, l'⟩
      · rw [hl] at hz
        exact absurd hz not_mem_nil
      · rw [hl] at hz hhead hstrict
        have hw := hall w (mem_unique.1 (hl ▸ mem_cons_self))
        have hne : w ≠ y := fun he => hhead (congrArg some he)
        rcases mem_cons.1 hz with rfl | hz
        · omega
        · have hwz := (pairwise_cons.1 hstrict).1 z hz
          omega

end Rows
