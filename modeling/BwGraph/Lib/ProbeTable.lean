import Mathlib.Data.Fintype.Card
import Mathlib.Data.List.FinRange
import Mathlib.Logic.Function.Basic
import BwGraph.Lib.Plurality

/-
  A table of `k` slots in which votes are counted by several threads at once. A thread looks for the
  key of its vote from the first slot on; it adds to the slot that has the key, or claims the first
  free slot for it, and when all slots have other keys, it raises the overflow flag. A slot never
  gets another key, so all that a thread has seen of the slots that are taken stays true.

  `ProbeTable.Ok` is the invariant that the steps of all threads keep, whatever their order: the
  taken slots come first, no key has two slots, and unless the table has overflown, every vote that
  is done is in the count of its slot; `done` says how many there are for each key. The counts are
  numbers modulo `bound`.

  When all votes are done, the flag is raised exactly if there are more keys than slots
  (`Ok.overflow_iff`), and one pass over the slots finds the winner (`Ok.elects`).
-/

/-- The slots: their keys and counts, and the flag. -/
structure ProbeTable (α : Type*) (k : Nat) where
  keys : Fin k → α
  counts : Fin k → Nat
  overflow : Bool

namespace ProbeTable

open Function List

variable {α : Type*} {k : Nat}

/-- The key of slot `p` becomes `a`. -/
def claim (T : ProbeTable α k) (p : Fin k) (a : α) : ProbeTable α k :=
  { T with keys := Function.update T.keys p a }

/-- One more vote in slot `p`. -/
def add (bound : Nat) (T : ProbeTable α k) (p : Fin k) : ProbeTable α k :=
  { T with counts := Function.update T.counts p ((T.counts p + 1) % bound) }

/-- The flag is raised. -/
def overflown (T : ProbeTable α k) : ProbeTable α k := { T with overflow := true }

/-- The slots before `p` are taken, and have other keys than `a`. -/
def Passed (empty : α) (T : ProbeTable α k) (p : Nat) (a : α) : Prop :=
  ∀ j : Fin k, (j : Nat) < p → T.keys j ≠ empty ∧ T.keys j ≠ a

variable {empty : α} {T : ProbeTable α k}

/-- The slots that are taken keep their keys. -/
def Grows (empty : α) (T T' : ProbeTable α k) : Prop :=
  ∀ p, T.keys p ≠ empty → T'.keys p = T.keys p

variable {a : α} {p : Fin k}

theorem grows_claim (hp : T.keys p = empty) : T.Grows empty (T.claim p a) := by
  intro q hq
  refine update_of_ne ?_ ..
  rintro rfl
  exact hq hp

theorem Passed.grows {T' : ProbeTable α k} {p : Nat} (h : T.Passed empty p a)
    (hgrow : T.Grows empty T') : T'.Passed empty p a := by
  intro j hj
  obtain ⟨hne, ha⟩ := h j hj
  rw [hgrow j hne]
  exact ⟨hne, ha⟩

theorem Passed.succ (h : T.Passed empty p a) (hp : T.keys p ≠ empty) (ha : T.keys p ≠ a) :
    T.Passed empty (p + 1) a := by
  intro j hj
  rcases Nat.lt_succ_iff_lt_or_eq.1 hj with hlt | heq
  · exact h j hlt
  · rw [Fin.ext heq]
    exact ⟨hp, ha⟩

variable [LinearOrder α]

/-- The invariant of a table for the votes `all`, of which `done a` are done for each `a`. -/
structure Ok (empty : α) (bound : Nat) (all : List α) (done : α → Nat) (T : ProbeTable α k) :
    Prop where
  filled : ∀ p q, p < q → T.keys q ≠ empty → T.keys p ≠ empty
  mem : ∀ p, T.keys p ≠ empty → T.keys p ∈ all
  unique : ∀ p q, T.keys p ≠ empty → T.keys p = T.keys q → p = q
  counts : T.overflow = false → ∀ p, T.counts p =
    if T.keys p = empty then 0 else done (T.keys p) % bound
  found : T.overflow = false → ∀ a, 0 < done a → ∃ p, T.keys p ≠ empty ∧ T.keys p = a
  overflow : T.overflow = true → k < all.dedup.length

variable {bound : Nat} {all : List α} {done : α → Nat}

/-- A table with free slots only. -/
theorem ok_free (hkeys : ∀ p, T.keys p = empty) (hcounts : ∀ p, T.counts p = 0)
    (hflag : T.overflow = false) (hdone : ∀ a, done a = 0) : T.Ok empty bound all done := by
  refine ⟨fun p q _ hq => absurd (hkeys q) hq, fun p hp => absurd (hkeys p) hp,
    fun p q hp _ => absurd (hkeys p) hp, fun _ p => ?_, fun _ a ha => ?_, fun h => ?_⟩
  · rw [hcounts, if_pos (hkeys p)]
  · rw [hdone] at ha
    exact absurd ha (lt_irrefl 0)
  · rw [hflag] at h
    cases h

section

variable (h : T.Ok empty bound all done)
include h

/-- A key that is not in the slots before the first free one has no vote yet. -/
theorem Ok.done_eq_zero (hflag : T.overflow = false) (ha : a ≠ empty) (hp : T.keys p = empty)
    (hpass : T.Passed empty p a) : done a = 0 := by
  by_contra hne
  obtain ⟨q, -, hq⟩ := h.found hflag a (Nat.pos_of_ne_zero hne)
  rcases lt_trichotomy q p with hlt | rfl | hgt
  · exact (hpass q hlt).2 hq
  · exact ha (hq.symm.trans hp)
  · exact h.filled p q hgt (hq ▸ ha) hp

/-- A thread claims the first free slot. -/
theorem Ok.claim (ha : a ≠ empty) (hall : a ∈ all) (hp : T.keys p = empty)
    (hpass : T.Passed empty p a) : (T.claim p a).Ok empty bound all done := by
  have hself : (T.claim p a).keys p = a := update_self ..
  have hother : ∀ q, q ≠ p → (T.claim p a).keys q = T.keys q :=
    fun q hq => update_of_ne hq ..
  -- no slot has the key yet
  have hnew : ∀ q, T.keys q ≠ a := by
    intro q hq
    rcases lt_trichotomy q p with hlt | rfl | hgt
    · exact (hpass q hlt).2 hq
    · exact ha (hq.symm.trans hp)
    · exact h.filled p q hgt (hq ▸ ha) hp
  refine ⟨fun q r hqr hr => ?_, fun q hq => ?_, fun q r hq hqr => ?_, fun hflag q => ?_,
    fun hflag b hb => ?_, h.overflow⟩
  · by_cases hqp : q = p
    · rw [hqp, hself]
      exact ha
    · rw [hother q hqp]
      by_cases hrp : r = p
      · exact (hpass q (hrp ▸ hqr)).1
      · exact h.filled q r hqr (hother r hrp ▸ hr)
  · by_cases hqp : q = p
    · rw [hqp, hself]
      exact hall
    · rw [hother q hqp] at hq ⊢
      exact h.mem q hq
  · by_cases hqp : q = p <;> by_cases hrp : r = p
    · rw [hqp, hrp]
    · rw [hqp, hself, hother r hrp] at hqr
      exact absurd hqr.symm (hnew r)
    · rw [hrp, hself, hother q hqp] at hqr
      exact absurd hqr (hnew q)
    · rw [hother q hqp] at hq
      rw [hother q hqp, hother r hrp] at hqr
      exact h.unique q r hq hqr
  · show T.counts q = _
    by_cases hqp : q = p
    · rw [hqp, hself, if_neg ha, h.counts hflag p, if_pos hp,
        h.done_eq_zero hflag ha hp hpass, Nat.zero_mod]
    · rw [hother q hqp]
      exact h.counts hflag q
  · obtain ⟨q, hne, hq⟩ := h.found hflag b hb
    have hqp : q ≠ p := fun heq => hne (heq ▸ hp)
    exact ⟨q, by rwa [hother q hqp], (hother q hqp).trans hq⟩

/-- A thread adds its vote to the slot of its key. -/
theorem Ok.add (ha : a ≠ empty) (hp : T.keys p = a) :
    (T.add bound p).Ok empty bound all
      (update done a (done a + 1)) := by
  refine ⟨h.filled, h.mem, h.unique, fun hflag q => ?_, fun hflag b hb => ?_, h.overflow⟩
  · show update T.counts p ((T.counts p + 1) % bound) q =
      if T.keys q = empty then 0 else update done a (done a + 1) (T.keys q) % bound
    by_cases hqp : q = p
    · subst hqp
      rw [update_self, hp, if_neg ha, update_self, h.counts hflag q, hp,
        if_neg ha, Nat.mod_add_mod]
    · have hne : T.keys q ≠ empty → T.keys q ≠ a :=
        fun hq heq => hqp (h.unique q p hq (heq.trans hp.symm))
      rw [update_of_ne hqp, h.counts hflag q]
      by_cases hq : T.keys q = empty
      · rw [if_pos hq, if_pos hq]
      · rw [if_neg hq, if_neg hq, update_of_ne (hne hq)]
  · by_cases hba : b = a
    · exact ⟨p, hp ▸ ha, hp.trans hba.symm⟩
    · rw [update_of_ne hba] at hb
      exact h.found hflag b hb

end

/-- The keys of the taken slots. -/
def labels (empty : α) (T : ProbeTable α k) : List α :=
  ((List.finRange k).filter fun p => T.keys p ≠ empty).map T.keys

theorem mem_labels : a ∈ T.labels empty ↔ ∃ p, T.keys p ≠ empty ∧ T.keys p = a := by
  simp [labels, mem_map, mem_filter]

section

variable (h : T.Ok empty bound all done)
include h

theorem Ok.nodup_labels : (T.labels empty).Nodup := by
  refine List.Nodup.map_on (fun p hp q _ hpq => ?_) ((nodup_finRange k).filter _)
  have hp : T.keys p ≠ empty := by simpa using (mem_filter.1 hp).2
  exact h.unique p q hp hpq

theorem Ok.labels_subset : T.labels empty ⊆ all.dedup := by
  intro a ha
  obtain ⟨p, hp, rfl⟩ := mem_labels.1 ha
  exact mem_dedup.2 (h.mem p hp)

/-- A thread that has passed all slots raises the flag; from then on the counts are not used. -/
theorem Ok.overflown (hall : a ∈ all) (hpass : T.Passed empty k a) (done' : α → Nat) :
    T.overflown.Ok empty bound all done' := by
  refine ⟨h.filled, h.mem, h.unique, fun hflag => ?_, fun hflag => ?_, fun _ => ?_⟩
  · cases hflag
  · cases hflag
  · have hnot : a ∉ T.labels empty := by
      intro hmem
      obtain ⟨p, -, hp⟩ := mem_labels.1 hmem
      exact (hpass p p.isLt).2 hp
    have hlen : (T.labels empty).length = k := by
      have hfull : (finRange k).filter (fun p => T.keys p ≠ empty) = finRange k :=
        filter_eq_self.2 fun p _ => by simpa using (hpass p p.isLt).1
      rw [labels, hfull, length_map, length_finRange]
    have hsub : a :: T.labels empty ⊆ all.dedup :=
      cons_subset.2 ⟨mem_dedup.2 hall, h.labels_subset⟩
    have hle := (subperm_of_subset (nodup_cons.2 ⟨hnot, h.nodup_labels⟩) hsub).length_le
    rw [length_cons, hlen] at hle
    exact hle

/-- Once the flag is up, votes may be dropped. -/
theorem Ok.drop (hflag : T.overflow = true) (done' : α → Nat) : T.Ok empty bound all done' := by
  refine ⟨h.filled, h.mem, h.unique, fun hf => ?_, fun hf => ?_, h.overflow⟩
  · rw [hflag] at hf
    cases hf
  · rw [hflag] at hf
    cases hf

end

/-! ## When all votes are done -/

section

variable (h : T.Ok empty bound all all.count)
include h

/-- The slots have the labels of the votes, if the flag is down. -/
theorem Ok.mem_labels_iff (hflag : T.overflow = false) (a : α) : a ∈ T.labels empty ↔ a ∈ all := by
  constructor
  · intro ha
    exact mem_dedup.1 (h.labels_subset ha)
  · intro ha
    exact mem_labels.2 (h.found hflag a (count_pos_iff.2 ha))

/-- The flag is raised exactly if there are more keys than slots. -/
theorem Ok.overflow_iff : T.overflow = true ↔ k < all.dedup.length := by
  refine ⟨h.overflow, fun hlt => ?_⟩
  by_contra hflag
  have hflag := Bool.eq_false_iff.2 hflag
  have hsub : all.dedup ⊆ T.labels empty :=
    fun a ha => (h.mem_labels_iff hflag a).2 (mem_dedup.1 ha)
  have hle := (subperm_of_subset (nodup_dedup all) hsub).length_le
  have hk : (T.labels empty).length ≤ k := by
    rw [labels, length_map]
    exact (length_filter_le ..).trans_eq length_finRange
  omega

/-- The slot of a key that has votes. -/
theorem Ok.slot (hflag : T.overflow = false) (ha : a ∈ all) :
    ∃ p, T.keys p = a ∧ T.counts p = all.count a % bound := by
  obtain ⟨p, hp, heq⟩ := h.found hflag a (count_pos_iff.2 ha)
  refine ⟨p, heq, ?_⟩
  rw [h.counts hflag p, if_neg hp, heq]

end

/-- One slot against the best key so far. -/
def betterSlot (empty : α) (T : ProbeTable α k) (best : α × Nat) (p : Fin k) : α × Nat :=
  if T.keys p = empty then best
  else if T.counts p > best.2 ∨ T.counts p = best.2 ∧ T.keys p < best.1 then
    (T.keys p, T.counts p)
  else best

/-- A pass over the slots is one over the labels. -/
theorem foldl_betterSlot (count : α → Nat)
    (hcount : ∀ p, T.keys p ≠ empty → T.counts p = count (T.keys p)) (best : α × Nat) :
    (finRange k).foldl (T.betterSlot empty) best =
      (T.labels empty).foldl (better count) best := by
  unfold labels
  generalize finRange k = slots
  induction slots generalizing best with
  | nil => rfl
  | cons p slots ih =>
    rw [foldl_cons]
    by_cases hp : T.keys p = empty
    · rw [filter_cons_of_neg (by simpa using hp), betterSlot, if_pos hp]
      exact ih best
    · rw [filter_cons_of_pos (by simpa using hp), map_cons, foldl_cons, betterSlot,
        if_neg hp, hcount p hp]
      exact ih _

/-- A pass over the slots finds the winner, if no count has wrapped around. -/
theorem Ok.elects (h : T.Ok empty bound all all.count) (hflag : T.overflow = false)
    (hbound : ∀ a ∈ all, all.count a < bound) (current : α) :
    Elects current all ((finRange k).foldl (T.betterSlot empty) (current, 0)).1 := by
  have hcount : ∀ p, T.keys p ≠ empty → T.counts p = all.count (T.keys p) := by
    intro p hp
    rw [h.counts hflag p, if_neg hp, Nat.mod_eq_of_lt (hbound _ (h.mem p hp))]
  rw [foldl_betterSlot all.count hcount]
  exact elects_foldl current (h.mem_labels_iff hflag) fun _ _ => rfl

end ProbeTable
