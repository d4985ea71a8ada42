import Mathlib.Data.Nat.Find
import Mathlib.Algebra.Order.Ring.Nat

/-
  `std::lower_bound` and `std::binary_search` over the first `n` values of a sequence, sorted or
  not. The halving looks at positions that depend on the length and on the answers only; `probes`
  lists those in front of an answer `p`. The search ends at `p` exactly when each of them says so
  (`lowerBoundFrom_iff`), and it finds a value exactly where that holds of one of its positions
  (`binarySearch_iff`). So it never finds what is not there; that it finds everything is
  `Searchable`, which follows from ascending order and, where no value is repeated, means it.
-/

open List

variable {α : Type*} [LinearOrder α]

/-- The loop of `std::lower_bound` from `first` on, over `len` values. -/
def lowerBoundFrom (a : Nat → α) (v : α) : Nat → Nat → Nat → Nat
  | 0, first, _ => first
  | fuel + 1, first, len =>
    if len = 0 then first
    else if a (first + len / 2) < v then
      lowerBoundFrom a v fuel (first + len / 2 + 1) (len - len / 2 - 1)
    else lowerBoundFrom a v fuel first (len / 2)

/-- `std::binary_search`. -/
def binarySearch (a : Nat → α) (n : Nat) (v : α) : Bool :=
  decide (lowerBoundFrom a v n 0 n < n ∧ ¬v < a (lowerBoundFrom a v n 0 n))

/-- The positions looked at on the way to `p`. -/
def probes : Nat → Nat → Nat → Nat → List Nat
  | 0, _, _, _ => []
  | fuel + 1, first, len, p =>
    if len = 0 then []
    else (first + len / 2) ::
      if first + len / 2 < p then probes fuel (first + len / 2 + 1) (len - len / 2 - 1) p
      else probes fuel first (len / 2) p

/-- The search for `v` is led to `p`. -/
def LedTo (a : Nat → α) (n : Nat) (v : α) (p : Nat) : Prop :=
  ∀ m ∈ probes n 0 n p, (a m < v ↔ m < p)

/-- Every value has a position that the search for it is led to. -/
def Searchable (a : Nat → α) (n : Nat) : Prop :=
  ∀ i < n, ∃ p < n, a p = a i ∧ LedTo a n (a i) p

variable {a : Nat → α} {v : α} {n : Nat}

theorem lowerBoundFrom_le {fuel first len : Nat} :
    first ≤ lowerBoundFrom a v fuel first len ∧
      lowerBoundFrom a v fuel first len ≤ first + len := by
  induction fuel generalizing first len with
  | zero =>
    unfold lowerBoundFrom
    omega
  | succ fuel ih =>
    unfold lowerBoundFrom
    split_ifs with h0 hlt
    · omega
    · obtain ⟨h1, h2⟩ := @ih (first + len / 2 + 1) (len - len / 2 - 1)
      omega
    · obtain ⟨h1, h2⟩ := @ih first (len / 2)
      omega

variable {fuel first len p : Nat}

/-- The loop ends at `p` exactly when every position it looks at on the way sends it there. -/
theorem lowerBoundFrom_iff (hfuel : len ≤ fuel) (hlo : first ≤ p) (hhi : p ≤ first + len) :
    lowerBoundFrom a v fuel first len = p ↔ ∀ m ∈ probes fuel first len p, (a m < v ↔ m < p) := by
  induction fuel generalizing first len with
  | zero =>
    unfold lowerBoundFrom probes
    exact iff_of_true (by omega) fun m hm => absurd hm not_mem_nil
  | succ fuel ih =>
    unfold lowerBoundFrom probes
    by_cases h0 : len = 0
    · rw [if_pos h0, if_pos h0]
      exact iff_of_true (by omega) fun m hm => absurd hm not_mem_nil
    rw [if_neg h0, if_neg h0, forall_mem_cons]
    by_cases hp : first + len / 2 < p
    · rw [if_pos hp, iff_true_right hp]
      split_ifs with hlt
      · rw [ih (by omega) (by omega) (by omega), and_iff_right hlt]
      · refine iff_of_false (fun he => ?_) fun h => hlt h.1
        have hle := (@lowerBoundFrom_le _ _ a v fuel first (len / 2)).2
        omega
    · rw [if_neg hp, iff_false_right hp]
      split_ifs with hlt
      · refine iff_of_false (fun he => ?_) fun h => h.1 hlt
        have hge := (@lowerBoundFrom_le _ _ a v fuel (first + len / 2 + 1) (len - len / 2 - 1)).1
        omega
      · rw [ih (by omega) (by omega) (by omega), and_iff_right hlt]

/-- A position within the range is looked at itself. -/
theorem mem_probes (hfuel : len ≤ fuel) (hlo : first ≤ p) (hhi : p < first + len) :
    p ∈ probes fuel first len p := by
  induction fuel generalizing first len with
  | zero => omega
  | succ fuel ih =>
    unfold probes
    rw [if_neg (by omega)]
    by_cases he : p = first + len / 2
    · rw [← he]
      exact mem_cons_self
    refine mem_cons_of_mem _ ?_
    split_ifs with hp
    · exact ih (by omega) (by omega) (by omega)
    · exact ih (by omega) (by omega) (by omega)

theorem probes_lt {fuel first len p m : Nat} (hm : m ∈ probes fuel first len p) :
    first ≤ m ∧ m < first + len := by
  induction fuel generalizing first len with
  | zero => exact absurd hm not_mem_nil
  | succ fuel ih =>
    unfold probes at hm
    split_ifs at hm with h0 hp
    · exact absurd hm not_mem_nil
    · rcases mem_cons.1 hm with rfl | hm
      · omega
      · obtain ⟨h1, h2⟩ := ih hm
        omega
    · rcases mem_cons.1 hm with rfl | hm
      · omega
      · obtain ⟨h1, h2⟩ := ih hm
        omega

/-- A value is found exactly when the search is led to one of its positions. -/
theorem binarySearch_iff : binarySearch a n v = true ↔ ∃ p < n, a p = v ∧ LedTo a n v p := by
  unfold binarySearch
  rw [decide_eq_true_iff]
  constructor
  · intro h
    obtain ⟨hlt, hle⟩ := h
    have hled := (lowerBoundFrom_iff (Nat.le_refl n) (Nat.zero_le _) (by omega)).1
      (Eq.refl (lowerBoundFrom a v n 0 n))
    -- the last position is looked at, and its value is not below `v`
    have hself := hled _ (mem_probes (Nat.le_refl n) (Nat.zero_le _) (by omega))
    have hnot : ¬a (lowerBoundFrom a v n 0 n) < v := fun hv => Nat.lt_irrefl _ (hself.1 hv)
    exact ⟨_, hlt, le_antisymm (not_lt.1 hle) (not_lt.1 hnot), hled⟩
  · intro h
    obtain ⟨p, hp, hv, hled⟩ := h
    rw [(lowerBoundFrom_iff (Nat.le_refl n) (Nat.zero_le p) (by omega)).2 hled, hv]
    exact ⟨hp, lt_irrefl v⟩

/-- Exactly the values of a searchable sequence are all found. -/
theorem binarySearch_complete_iff :
    (∀ v, binarySearch a n v = true ↔ ∃ i < n, a i = v) ↔ Searchable a n := by
  constructor
  · intro h i hi
    exact binarySearch_iff.1 ((h (a i)).2 ⟨i, hi, rfl⟩)
  · intro h v
    constructor
    · intro hfound
      obtain ⟨p, hp, hv, -⟩ := binarySearch_iff.1 hfound
      exact ⟨p, hp, hv⟩
    · intro hmem
      obtain ⟨i, hi, rfl⟩ := hmem
      exact binarySearch_iff.2 (h i hi)

/-- Ascending order is enough: the search is led to the first position of a value. -/
theorem searchable_of_ascending (h : ∀ i j, i < j → j < n → a i ≤ a j) : Searchable a n := by
  intro i hi
  classical
  have hex : ∃ p, p < n ∧ a p = a i := ⟨i, hi, rfl⟩
  obtain ⟨hp, hv⟩ := Nat.find_spec hex
  refine ⟨Nat.find hex, hp, hv, fun m hm => ?_⟩
  have hmn := (probes_lt hm).2
  constructor
  · intro hlt
    by_contra hge
    rcases Nat.eq_or_lt_of_le (Nat.le_of_not_lt hge) with he | hgt
    · rw [← he, hv] at hlt
      exact lt_irrefl _ hlt
    · have hle := h _ m hgt (by omega)
      rw [hv] at hle
      exact absurd hlt (not_lt.2 hle)
  · intro hlt
    have hne : a m ≠ a i := fun he => Nat.find_min hex hlt ⟨by omega, he⟩
    have hle := h m _ hlt hp
    rw [hv] at hle
    exact lt_of_le_of_ne hle hne

/-- If every position is the one the search for its value is led to, the order is ascending. -/
theorem ascending_of_led {fuel first len : Nat} (hfuel : len ≤ fuel)
    (h : ∀ p, first ≤ p → p < first + len → ∀ m ∈ probes fuel first len p, (a m < a p ↔ m < p))
    {p q : Nat} (hlo : first ≤ p) (hpq : p < q) (hhi : q < first + len) : a p ≤ a q := by
  induction fuel generalizing first len with
  | zero => omega
  | succ fuel ih =>
    have hlen : len ≠ 0 := by omega
    -- what the middle says of each position
    have hmid : ∀ p, first ≤ p → p < first + len →
        (a (first + len / 2) < a p ↔ first + len / 2 < p) := by
      intro p h1 h2
      refine h p h1 h2 _ ?_
      unfold probes
      rw [if_neg hlen]
      exact mem_cons_self
    have hright : ∀ p, first + len / 2 + 1 ≤ p →
        p < first + len / 2 + 1 + (len - len / 2 - 1) →
        ∀ m ∈ probes fuel (first + len / 2 + 1) (len - len / 2 - 1) p, (a m < a p ↔ m < p) := by
      intro p h1 h2 m hm
      refine h p (by omega) (by omega) m ?_
      unfold probes
      rw [if_neg hlen, if_pos (by omega)]
      exact mem_cons_of_mem _ hm
    have hleft : ∀ p, first ≤ p → p < first + len / 2 →
        ∀ m ∈ probes fuel first (len / 2) p, (a m < a p ↔ m < p) := by
      intro p h1 h2 m hm
      refine h p h1 (by omega) m ?_
      unfold probes
      rw [if_neg hlen, if_neg (by omega)]
      exact mem_cons_of_mem _ hm
    by_cases hq : q < first + len / 2
    · exact ih (by omega) hleft hlo hq
    by_cases hp : first + len / 2 < p
    · exact ih (by omega) hright (by omega) (by omega)
    -- the middle lies between the two
    have hple : a p ≤ a (first + len / 2) :=
      not_lt.1 fun hlt => hp ((hmid p hlo (by omega)).1 hlt)
    by_cases he : q = first + len / 2
    · rw [he]
      exact hple
    · exact le_trans hple (le_of_lt ((hmid q (by omega) hhi).2 (by omega)))

/-- Without repeated values, only ascending order lets everything be found. -/
theorem searchable_iff_ascending (hinj : ∀ i j, i < n → j < n → a i = a j → i = j) :
    Searchable a n ↔ ∀ i j, i < j → j < n → a i ≤ a j := by
  refine ⟨fun h i j hij hj => ?_, searchable_of_ascending⟩
  refine ascending_of_led (Nat.le_refl n) (fun p _ hp => ?_) (Nat.zero_le i) hij (by omega)
  obtain ⟨p', hp', hv, hled⟩ := h p (by omega)
  rw [hinj p' p hp' (by omega) hv] at hled
  exact hled

/-- A repeated value may stand out of order. -/
example :
    Searchable (fun i => [1, 2, 1].getD i 0) 3 ∧ ¬Searchable (fun i => [2, 1].getD i 0) 2 := by
  unfold Searchable LedTo
  decide
