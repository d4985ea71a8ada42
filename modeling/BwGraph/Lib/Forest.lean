import Mathlib.Data.Nat.Basic
import Mathlib.Logic.Function.Basic

/-
  Parent arrays in which no vertex has a parent above itself. Following the parents ends at a root
  (`find_eq_root`); `root` is invariant along the parents and under a shortcut to a lower vertex
  with the same root (`root_update`).
-/

namespace Forest

open Function

/-- Follows the parents up to a root, with fuel. -/
def find (parent : Nat → Nat) : Nat → Nat → Option Nat
  | 0, _ => none
  | fuel + 1, v => if parent v = v then some v else find parent fuel (parent v)

/-- The root of a vertex. -/
def root (parent : Nat → Nat) (v : Nat) : Nat := (find parent (v + 1) v).getD v

variable {parent : Nat → Nat}

theorem find_eq_of_lt (h : ∀ v, parent v ≤ v) {fuel v : Nat} (hv : v < fuel) :
    find parent fuel v = find parent (v + 1) v := by
  induction v using Nat.strong_induction_on generalizing fuel with
  | _ v ih =>
    cases fuel with
    | zero => exact absurd hv (Nat.not_lt_zero v)
    | succ fuel =>
      unfold find
      by_cases hp : parent v = v
      · rw [if_pos hp, if_pos hp]
      · have hlt : parent v < v := Nat.lt_of_le_of_ne (h v) hp
        rw [if_neg hp, if_neg hp, ih _ hlt (by omega), ih _ hlt hlt]

theorem root_of_fixed {v : Nat} (hv : parent v = v) : root parent v = v := by
  unfold root find
  rw [if_pos hv]
  rfl

variable (h : ∀ v, parent v ≤ v)
include h

variable (v : Nat)

theorem find_isSome : ∃ r, find parent (v + 1) v = some r := by
  induction v using Nat.strong_induction_on with
  | _ v ih =>
    unfold find
    by_cases hp : parent v = v
    · exact ⟨v, if_pos hp⟩
    · have hlt : parent v < v := Nat.lt_of_le_of_ne (h v) hp
      obtain ⟨r, hr⟩ := ih _ hlt
      exact ⟨r, by rw [if_neg hp, find_eq_of_lt h hlt, hr]⟩

/-- With enough fuel the search ends at the root. -/
theorem find_eq_root {fuel v : Nat} (hv : v < fuel) :
    find parent fuel v = some (root parent v) := by
  obtain ⟨r, hr⟩ := find_isSome h v
  rw [find_eq_of_lt h hv, root, hr]
  rfl

theorem root_parent : root parent (parent v) = root parent v := by
  by_cases hp : parent v = v
  · rw [hp]
  · have hlt : parent v < v := Nat.lt_of_le_of_ne (h v) hp
    have hv := find_eq_root h (Nat.lt_succ_self v)
    unfold find at hv
    rw [if_neg hp, find_eq_root h hlt] at hv
    exact Option.some.inj hv

/-- What holds of a root and is passed down from the parents holds of the roots. -/
theorem root_induction {p : Nat → Nat → Prop} (hfixed : ∀ v, parent v = v → p v v)
    (hstep : ∀ v, parent v < v → p (parent v) (root parent v) → p v (root parent v)) (v : Nat) :
    p v (root parent v) := by
  induction v using Nat.strong_induction_on with
  | _ v ih =>
    by_cases hp : parent v = v
    · rw [root_of_fixed hp]
      exact hfixed v hp
    · have hlt : parent v < v := Nat.lt_of_le_of_ne (h v) hp
      have := ih _ hlt
      rw [root_parent h] at this
      exact hstep v hlt this

theorem root_le : root parent v ≤ v :=
  root_induction h (p := fun v r => r ≤ v) (fun _ _ => Nat.le_refl _)
    (fun _ hlt hle => Nat.le_trans hle (Nat.le_of_lt hlt)) v

theorem parent_root : parent (root parent v) = root parent v :=
  root_induction h (p := fun _ r => parent r = r) (fun _ hv => hv) (fun _ _ hr => hr) v

/-- A shortcut to a lower vertex with the same root changes no root. -/
theorem root_update {v x : Nat} (hx : x < v) (hroot : root parent x = root parent v) (w : Nat) :
    root (update parent v x) w = root parent w := by
  have hself : update parent v x v = x := update_self _ _ _
  have h' : ∀ w, update parent v x w ≤ w := by
    intro w
    by_cases hw : w = v
    · rw [hw, hself]
      exact Nat.le_of_lt hx
    · rw [update_of_ne hw]
      exact h w
  induction w using Nat.strong_induction_on with
  | _ w ih =>
    by_cases hw : w = v
    · subst hw
      rw [← root_parent h' w, hself, ih x hx, hroot]
    · have hp : update parent v x w = parent w := update_of_ne hw _ _
      by_cases hfix : parent w = w
      · rw [root_of_fixed hfix, root_of_fixed (hp.trans hfix)]
      · have hlt : parent w < w := Nat.lt_of_le_of_ne (h w) hfix
        rw [← root_parent h' w, hp, ih _ hlt, root_parent h]

end Forest
