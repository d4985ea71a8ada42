import Mathlib.Data.List.Basic
import Mathlib.Logic.Function.Basic

/-
  Parent pointers with ranks that grow along them, over a finite list of nodes. A climb from a
  node passes nodes of ever higher rank, so it ends before it has passed them all
  (`Ranked.higher_parent_lt`). The pointers stay ranked when nodes on a path are redirected to its
  root (`Ranked.compress`) and when one root is linked below another (`Ranked.link`,
  `Ranked.linkEqual`).
-/

open List

namespace RankedForest

open Function

variable {α : Type*} {nodes : List α} {parent : α → α} {rank : α → Nat}

/-- Parents are nodes, and of higher rank than their children. -/
structure Ranked (nodes : List α) (parent : α → α) (rank : α → Nat) : Prop where
  closed : ∀ x ∈ nodes, parent x ∈ nodes
  climbs : ∀ x ∈ nodes, parent x ≠ x → rank x < rank (parent x)

/-- The number of nodes of at least the rank of `x`. -/
def higher (nodes : List α) (rank : α → Nat) (x : α) : Nat :=
  (nodes.filter fun y => rank x ≤ rank y).length

theorem higher_le (x : α) : higher nodes rank x ≤ nodes.length := length_filter_le _ _

theorem higher_pos {x : α} (hx : x ∈ nodes) : 0 < higher nodes rank x :=
  length_pos_of_mem (mem_filter.2 ⟨hx, decide_eq_true (Nat.le_refl _)⟩)

variable {x y : α}

theorem higher_lt (hx : x ∈ nodes) (h : rank x < rank y) :
    higher nodes rank y < higher nodes rank x := by
  unfold higher
  induction nodes with
  | nil => simp at hx
  | cons z nodes ih =>
    have hle : (nodes.filter fun w => rank y ≤ rank w).length ≤
        (nodes.filter fun w => rank x ≤ rank w).length := by
      apply List.Sublist.length_le
      apply monotone_filter_right
      intro w hw
      have := of_decide_eq_true hw
      exact decide_eq_true (by omega)
    rw [filter_cons, filter_cons]
    rcases mem_cons.1 hx with rfl | hx
    · rw [if_neg (by simpa using h), if_pos (by simp), length_cons]
      omega
    · have := ih hx
      split_ifs with h1 h2 h2
      · simp only [length_cons]
        omega
      · simp only [decide_eq_true_eq] at h1 h2
        omega
      · simp only [length_cons]
        omega
      · exact this

theorem Ranked.higher_parent_lt (h : Ranked nodes parent rank) {x : α} (hx : x ∈ nodes)
    (hp : parent x ≠ x) : higher nodes rank (parent x) < higher nodes rank x :=
  higher_lt hx (h.climbs x hx hp)

theorem ranked_id (nodes : List α) : Ranked nodes id fun _ => 0 :=
  ⟨fun _ hx => hx, fun _ _ hp => absurd rfl hp⟩

/-- Nodes of lower rank are redirected to a node. -/
theorem Ranked.compress [DecidableEq α] (h : Ranked nodes parent rank) {path : List α} {root : α}
    (hroot : root ∈ nodes) (hpath : ∀ x ∈ path, rank x < rank root) :
    Ranked nodes (fun y => if y ∈ path then root else parent y) rank := by
  constructor
  · intro x hx
    split_ifs
    · exact hroot
    · exact h.closed x hx
  · intro x hx hp
    split_ifs at hp ⊢ with hm
    · exact hpath x hm
    · exact h.climbs x hx hp

/-- A root is linked below a node of higher rank. -/
theorem Ranked.link [DecidableEq α] (h : Ranked nodes parent rank) (hy : y ∈ nodes)
    (hlt : rank x < rank y) : Ranked nodes (update parent x y) rank := by
  constructor
  · intro z hz
    rw [update_apply]
    split_ifs
    · exact hy
    · exact h.closed z hz
  · intro z hz hp
    rw [update_apply] at hp ⊢
    split_ifs at hp ⊢ with he
    · rw [he]
      exact hlt
    · exact h.climbs z hz hp

/-- A root is linked below another of the same rank, which grows. -/
theorem Ranked.linkEqual [DecidableEq α] (h : Ranked nodes parent rank) (hx : x ∈ nodes)
    (hxroot : parent x = x) (hne : x ≠ y) (heq : rank x = rank y) :
    Ranked nodes (update parent y x) (update rank x (rank x + 1)) := by
  constructor
  · intro z hz
    rw [update_apply]
    split_ifs
    · exact hx
    · exact h.closed z hz
  · intro z hz hp
    have hgrow : ∀ w, rank w ≤ update rank x (rank x + 1) w := fun w => by
      rw [update_apply]
      split_ifs with hw
      · rw [hw]
        omega
      · exact Nat.le_refl _
    rw [update_apply] at hp
    by_cases hzy : z = y
    · rw [hzy, update_self, update_self, update_of_ne hne.symm]
      omega
    · rw [if_neg hzy] at hp
      have hzx : z ≠ x := fun he => hp (he ▸ hxroot)
      rw [update_of_ne hzy, update_of_ne hzx]
      exact Nat.lt_of_lt_of_le (h.climbs z hz hp) (hgrow _)

end RankedForest
