import Mathlib.Data.List.Count
import Mathlib.Algebra.Order.Ring.Nat

/-
  Votes by plurality. `Plurality votes w`: no candidate has more votes than `w`, and `w` is the
  least one with that many. `Elects` adds what happens without any vote: the winner is the one who
  held the office. There is exactly one winner, whatever the order of the votes (`Elects.unique`,
  `Elects.of_perm`).

  `better` is the usual way to find it: one pass over the candidates in any order, which keeps the
  best one so far with its count. `foldl_better` is what the pass finds for any counts that are not
  zero, `elects_foldl` that it finds the winner.
-/

open List

variable {α : Type*} [LinearOrder α]

/-- `w` has the most votes, and is the least of those who have. -/
structure Plurality (votes : List α) (w : α) : Prop where
  mem : w ∈ votes
  most : ∀ a ∈ votes, votes.count a ≤ votes.count w
  least : ∀ a ∈ votes, votes.count a = votes.count w → w ≤ a

variable {votes : List α}

theorem Plurality.unique {w w' : α} (h : Plurality votes w) (h' : Plurality votes w') : w = w' := by
  have hc : votes.count w = votes.count w' := le_antisymm (h'.most w h.mem) (h.most w' h'.mem)
  exact le_antisymm (h.least w' h'.mem hc.symm) (h'.least w h.mem hc)

theorem Plurality.of_perm {votes votes' : List α} (hp : votes.Perm votes') {w : α}
    (h : Plurality votes w) : Plurality votes' w := by
  refine ⟨hp.mem_iff.1 h.mem, fun a ha => ?_, fun a ha hc => ?_⟩
  · rw [← hp.count_eq, ← hp.count_eq]
    exact h.most a (hp.mem_iff.2 ha)
  · rw [← hp.count_eq, ← hp.count_eq] at hc
    exact h.least a (hp.mem_iff.2 ha) hc

/-- The winner of the votes; without any, the current holder. -/
def Elects (current : α) (votes : List α) (w : α) : Prop :=
  votes = [] ∧ w = current ∨ Plurality votes w

theorem Elects.unique {current : α} {w w' : α} (h : Elects current votes w)
    (h' : Elects current votes w') : w = w' := by
  rcases h with ⟨hnil, rfl⟩ | h <;> rcases h' with ⟨hnil', rfl⟩ | h'
  · rfl
  · exact absurd (hnil ▸ h'.mem) not_mem_nil
  · exact absurd (hnil' ▸ h.mem) not_mem_nil
  · exact h.unique h'

/-- One candidate against the best one so far. -/
def better (count : α → Nat) (best : α × Nat) (a : α) : α × Nat :=
  if count a > best.2 ∨ count a = best.2 ∧ a < best.1 then (a, count a) else best

/-- A pass that starts with the best of `seen` ends with the best of all. -/
theorem foldl_better_of_best (count : α → Nat) (labels seen : List α) {b : α} (hb : b ∈ seen)
    (hbest : ∀ a ∈ seen, count a < count b ∨ count a = count b ∧ b ≤ a) :
    ∃ w ∈ seen ++ labels, labels.foldl (better count) (b, count b) = (w, count w) ∧
      ∀ a ∈ seen ++ labels, count a < count w ∨ count a = count w ∧ w ≤ a := by
  induction labels generalizing seen b with
  | nil => exact ⟨b, by simpa using hb, rfl, by simpa using hbest⟩
  | cons c labels ih =>
    rw [foldl_cons, better]
    split_ifs with hc
    · have hc' : ∀ a ∈ seen ++ [c], count a < count c ∨ count a = count c ∧ c ≤ a := by
        intro a ha
        rcases mem_append.1 ha with ha | ha
        · rcases hbest a ha with hlt | ⟨heq, hle⟩ <;> rcases hc with hgt | ⟨heq', hlt'⟩
          · exact .inl (hlt.trans hgt)
          · exact .inl (heq' ▸ hlt)
          · exact .inl (heq ▸ hgt)
          · exact .inr ⟨heq.trans heq'.symm, hlt'.le.trans hle⟩
        · rw [mem_singleton.1 ha]
          exact .inr ⟨rfl, le_rfl⟩
      simpa using ih (seen ++ [c]) (mem_append_right _ mem_cons_self) hc'
    · have hc' : ∀ a ∈ seen ++ [c], count a < count b ∨ count a = count b ∧ b ≤ a := by
        intro a ha
        rcases mem_append.1 ha with ha | ha
        · exact hbest a ha
        · rw [mem_singleton.1 ha]
          push Not at hc
          rcases Nat.lt_or_ge (count c) (count b) with hlt | hge
          · exact .inl hlt
          · have heq := le_antisymm hc.1 hge
            exact .inr ⟨heq, hc.2 heq⟩
      simpa using ih (seen ++ [c]) (mem_append_left _ hb) hc'

/-- What a pass over the candidates finds, if each of them has a vote. -/
theorem foldl_better (count : α → Nat) (labels : List α) (current : α)
    (hpos : ∀ a ∈ labels, 0 < count a) (hne : labels ≠ []) :
    ∃ w ∈ labels, labels.foldl (better count) (current, 0) = (w, count w) ∧
      ∀ a ∈ labels, count a < count w ∨ count a = count w ∧ w ≤ a := by
  cases labels with
  | nil => exact absurd rfl hne
  | cons c labels =>
    rw [foldl_cons, better, if_pos (.inl (hpos c mem_cons_self))]
    refine foldl_better_of_best count labels [c] mem_cons_self fun a ha => ?_
    rw [mem_singleton.1 ha]
    exact .inr ⟨rfl, le_rfl⟩

/-- A pass over the candidates with their votes finds the winner. -/
theorem elects_foldl {votes labels : List α} {count : α → Nat} (current : α)
    (hmem : ∀ a, a ∈ labels ↔ a ∈ votes) (hcount : ∀ a ∈ votes, count a = votes.count a) :
    Elects current votes (labels.foldl (better count) (current, 0)).1 := by
  by_cases hne : labels = []
  · subst hne
    refine .inl ⟨eq_nil_iff_forall_not_mem.2 fun a ha => ?_, rfl⟩
    exact absurd ((hmem a).2 ha) not_mem_nil
  · obtain ⟨w, hw, heq, hbest⟩ := foldl_better count labels current
      (fun a ha => hcount a ((hmem a).1 ha) ▸ count_pos_iff.2 ((hmem a).1 ha)) hne
    have hwv := (hmem w).1 hw
    rw [heq]
    refine .inr ⟨hwv, fun a ha => ?_, fun a ha hc => ?_⟩
    · rw [← hcount a ha, ← hcount w hwv]
      rcases hbest a ((hmem a).2 ha) with hlt | ⟨he, -⟩
      · exact hlt.le
      · exact he.le
    · rw [← hcount a ha, ← hcount w hwv] at hc
      rcases hbest a ((hmem a).2 ha) with hlt | ⟨-, hle⟩
      · exact absurd hc (Nat.ne_of_lt hlt)
      · exact hle
