import Mathlib.Tactic.SplitIfs

/-
  A cached value that is written back while others modify it. The flusher holds the latch of the
  cell and goes through the phases test, write, clear; a modification changes the value and sets
  the dirty flag without taking the latch. The cell is `Synced` while a clean cell agrees with
  its stored copy, and, between the write and the clearing, also a dirty one. Every action keeps
  this except a modification in that window (`Cell.Synced.step`).
-/

namespace WriteBack

variable {α : Type*}

/-- Where the holder of the latch stands; `idle` when the latch is free. -/
inductive Phase where
  | idle
  | latched
  | dirtySeen
  | written
  | cleared
  deriving DecidableEq, Repr

/-- A value in memory, its stored copy, the dirty flag and the flusher's phase. -/
structure Cell (α : Type*) where
  mem : α
  disk : α
  dirty : Bool
  phase : Phase
  deriving DecidableEq, Repr

/-- What can happen to a cell. -/
inductive Act (α : Type*) where
  | modify (x : α)
  | latch
  | test
  | write
  | clear
  | unlatch
  deriving DecidableEq, Repr

/-- One action; `none` when it is not enabled. -/
def Cell.step (c : Cell α) : Act α → Option (Cell α)
  | .modify x => some { c with mem := x, dirty := true }
  | .latch => if c.phase = .idle then some { c with phase := .latched } else none
  | .test =>
    if c.phase = .latched then
      some { c with phase := if c.dirty then .dirtySeen else .cleared }
    else none
  | .write =>
    if c.phase = .dirtySeen then some { c with disk := c.mem, phase := .written } else none
  | .clear =>
    if c.phase = .written then some { c with dirty := false, phase := .cleared } else none
  | .unlatch => if c.phase = .cleared then some { c with phase := .idle } else none

/-- A clean cell agrees with its stored copy; after the write a dirty one does too. -/
def Cell.Synced (c : Cell α) : Prop := c.dirty = false ∨ c.phase = .written → c.disk = c.mem

/-- The action does not modify a cell that was written and not yet cleared. -/
def Cell.Timely (c : Cell α) : Act α → Prop
  | .modify _ => c.phase ≠ .written
  | _ => True

variable {c c' : Cell α} {a : Act α}

theorem Cell.Synced.step (h : c.Synced) (ht : c.Timely a) (hs : c.step a = some c') :
    c'.Synced := by
  cases a with
  | modify x =>
    obtain rfl := Option.some.inj hs
    rintro (hd | hp)
    · exact absurd hd (by simp)
    · exact absurd hp ht
  | latch =>
    simp only [Cell.step] at hs
    split_ifs at hs
    obtain rfl := Option.some.inj hs
    exact fun hc => h (.inl (hc.resolve_right (by simp)))
  | test =>
    simp only [Cell.step] at hs
    split_ifs at hs <;> obtain rfl := Option.some.inj hs <;>
      exact fun hc => h (.inl (hc.resolve_right (by simp)))
  | write =>
    simp only [Cell.step] at hs
    split_ifs at hs
    obtain rfl := Option.some.inj hs
    exact fun _ => rfl
  | clear =>
    simp only [Cell.step] at hs
    split_ifs at hs with hp
    obtain rfl := Option.some.inj hs
    exact fun _ => h (.inr hp)
  | unlatch =>
    simp only [Cell.step] at hs
    split_ifs at hs
    obtain rfl := Option.some.inj hs
    exact fun hc => h (.inl (hc.resolve_right (by simp)))

/-- What only a modification changes. -/
theorem Cell.step_mem (hs : c.step a = some c') (ha : ∀ x, a ≠ .modify x) : c'.mem = c.mem := by
  cases a with
  | modify x => exact absurd rfl (ha x)
  | latch | test | write | clear | unlatch =>
    simp only [Cell.step] at hs
    split_ifs at hs <;> obtain rfl := Option.some.inj hs <;> rfl

/-- What a final flush of the cell leaves in the store. -/
def Cell.closed (c : Cell α) : α := if c.dirty then c.mem else c.disk

theorem Cell.Synced.closed {c : Cell α} (h : c.Synced) : c.closed = c.mem := by
  unfold Cell.closed
  split_ifs with hd
  · rfl
  · exact h (.inl (Bool.not_eq_true _ ▸ hd))

end WriteBack
