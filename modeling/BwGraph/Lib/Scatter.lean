import Mathlib.Data.List.Nodup
import BwGraph.Lib.Run

/-
  Parallel loops that write to an array. The bodies write to cells of their own and read nothing
  that another body writes, so a run of the loop is its writes in some order; `WriteOrder` is any
  order of all of them, which is more than the interleavings of the bodies. Cells of a new array are
  `none` until they are written, and `scatter` has no outcome when a write is outside the array or a
  cell is left unwritten.

  `scatter_eq`: writes to different cells have the outcome of the loop in sequence, whatever the
  order. `zipIdx_flatMap` and `outputs_flatMap` join what the bodies do to the work of one pass.
-/

/-- An order of the writes of a loop, which are values with their addresses. -/
structure WriteOrder where
  order : ∀ {α : Type}, List (α × Nat) → List (α × Nat)
  perm : ∀ {α : Type} (ws : List (α × Nat)), (order ws).Perm ws

namespace WriteOrder

open List

/-- The order of a loop in sequence. -/
def serial : WriteOrder := ⟨fun ws => ws, fun _ => List.Perm.refl _⟩

variable {α : Type} (o : WriteOrder)

/-- The array after the writes. -/
def scatter (cells : List (Option α)) (ws : List (α × Nat)) : Option (List α) :=
  if ws.all fun w => w.2 < cells.length then
    ((o.order ws).foldl (fun cells w => cells.set w.2 (some w.1)) cells).mapM id
  else none

variable {cells : List (Option α)} {ws : List (α × Nat)}

theorem scatter_eq (hlt : ∀ w ∈ ws, w.2 < cells.length) (hnd : (ws.map Prod.snd).Nodup) :
    o.scatter cells ws = (ws.foldl (fun cells w => cells.set w.2 (some w.1)) cells).mapM id := by
  have hall : (ws.all fun w => w.2 < cells.length) = true := by simpa using hlt
  rw [scatter, if_pos hall]
  congr 1
  refine (o.perm ws).foldl_eq' (fun w hw w' hw' cells => ?_) cells
  by_cases heq : w = w'
  · rw [heq]
  · refine set_comm _ _ fun hadd => heq ?_
    exact inj_on_of_nodup_map hnd ((o.perm ws).mem_iff.1 hw) ((o.perm ws).mem_iff.1 hw') hadd

theorem foldl_set_zipIdx (vals : List α) (done : List (Option α)) {rest : List (Option α)}
    (h : rest.length = vals.length) :
    (vals.zipIdx done.length).foldl (fun cells w => cells.set w.2 (some w.1)) (done ++ rest) =
      done ++ vals.map some := by
  induction vals generalizing done rest with
  | nil =>
    obtain rfl := eq_nil_of_length_eq_zero h
    rfl
  | cons v vals ih =>
    obtain ⟨c, rest, rfl⟩ := exists_cons_of_length_eq_add_one h
    rw [zipIdx_cons, foldl_cons]
    have hset : (done ++ c :: rest).set done.length (some v) = (done ++ [some v]) ++ rest := by simp
    have hlen : done.length + 1 = (done ++ [some v]).length := by simp
    rw [hset, hlen, ih _ (Nat.succ.inj h), append_assoc, map_cons, singleton_append]

/-- Every cell gets its value. -/
theorem scatter_zipIdx {vals : List α} (h : cells.length = vals.length) :
    o.scatter cells vals.zipIdx = some vals := by
  have hlt : ∀ w ∈ vals.zipIdx, w.2 < cells.length := by
    intro w hw
    have := snd_lt_of_mem_zipIdx hw
    omega
  have hnd : (vals.zipIdx.map Prod.snd).Nodup := by
    rw [zipIdx_map_snd]
    exact nodup_range'
  rw [o.scatter_eq hlt hnd]
  have hset := foldl_set_zipIdx vals [] h
  rw [length_nil, nil_append, nil_append] at hset
  rw [hset, mapM_map]
  exact (mapM_eq_some_map fun _ _ => rfl).trans (congrArg some (map_id vals))

theorem getElem?_foldl_set {c : α} {l : List Nat} {v : Nat} :
    ((l.map fun i => (c, i)).foldl (fun cells w => cells.set w.2 (some w.1)) cells)[v]? =
      if v ∈ l ∧ v < cells.length then some (some c) else cells[v]? := by
  induction l generalizing cells with
  | nil => simp
  | cons i l ih =>
    rw [map_cons, foldl_cons, ih, length_set, getElem?_set]
    simp only [mem_cons]
    grind

/-- Flags that are set where the loop says. -/
theorem scatter_flags {n : Nat} {l : List Nat} (hlt : ∀ v ∈ l, v < n) (hnd : l.Nodup) :
    o.scatter (replicate n (some false)) (l.map fun v => (true, v)) =
      some ((range n).map fun v => decide (v ∈ l)) := by
  have hnd' : ((l.map fun v => (true, v)).map Prod.snd).Nodup := by
    rw [map_map]
    exact (map_id l).symm ▸ hnd
  have hcells : (l.map fun v => (true, v)).foldl (fun cells w => cells.set w.2 (some w.1))
      (replicate n (some false)) = (range n).map fun v => some (decide (v ∈ l)) := by
    apply ext_getElem?
    intro v
    rw [getElem?_foldl_set]
    grind
  rw [o.scatter_eq (by simpa using hlt) hnd', hcells, mapM_map]
  exact mapM_eq_some_map fun _ _ => rfl

end WriteOrder

/-! ## Bodies in the order of the loop -/

variable {α β σ : Type}

/-- Each part is written behind the parts before it. -/
theorem zipIdx_flatMap (part : Nat → List α) (k : Nat) :
    ((List.range k).flatMap fun i => (part i).zipIdx ((List.range i).flatMap part).length) =
      ((List.range k).flatMap part).zipIdx := by
  induction k with
  | zero => rfl
  | succ k ih =>
    rw [List.range_succ, List.flatMap_append, ih, List.flatMap_append, List.zipIdx_append]
    simp

variable (step : σ → α → σ × β) (s : σ)

theorem outputs_append (l l' : List α) :
    outputs step s (l ++ l') = ((outputs step (outputs step s l).1 l').1,
      (outputs step s l).2 ++ (outputs step (outputs step s l).1 l').2) := by
  induction l generalizing s with
  | nil => rfl
  | cons a l ih =>
    rw [List.cons_append, outputs, ih]
    rfl

/-- Each part is done from the state in which the parts before it end. -/
theorem outputs_flatMap (part : Nat → List α) (k : Nat) :
    ((List.range k).flatMap fun i =>
      (outputs step (outputs step s ((List.range i).flatMap part)).1 (part i)).2) =
      (outputs step s ((List.range k).flatMap part)).2 := by
  induction k with
  | zero => rfl
  | succ k ih =>
    rw [List.range_succ, List.flatMap_append, ih, List.flatMap_append, outputs_append]
    simp
