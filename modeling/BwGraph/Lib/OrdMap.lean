import Mathlib.Order.Lattice
import Mathlib.Data.List.Basic

/-
  Ordered maps (`std::map`): a list of entries with strictly ascending keys, the order being part
  of the structure. Iteration from the first key and from `upper_bound` are prefixes and suffixes
  of the list, so erasing a prefix while its keys are below a bound keeps exactly the entries from
  the bound on (`mem_dropBelow`), and the entries past a key are those with a greater one
  (`mem_above`).
-/

/-- An ordered map. -/
structure OrdMap (κ α : Type*) [LinearOrder κ] where
  entries : List (κ × α)
  sorted : entries.Pairwise fun x y => x.1 < y.1

namespace OrdMap

open List

variable {κ α : Type*} [LinearOrder κ]

/-- No entries. -/
def empty : OrdMap κ α := ⟨[], List.Pairwise.nil⟩

/-- The value at a key. -/
def find? (m : OrdMap κ α) (k : κ) : Option α :=
  (m.entries.find? fun e => e.1 = k).map Prod.snd

/-- `m[k] = a` on the entries. -/
def insertEntry (k : κ) (a : α) : List (κ × α) → List (κ × α)
  | [] => [(k, a)]
  | e :: l => if k < e.1 then (k, a) :: e :: l
      else if k = e.1 then (k, a) :: l else e :: insertEntry k a l

variable {l : List (κ × α)} {k : κ} {e : κ × α}

variable {a : α}

theorem mem_insertEntry (h : e ∈ insertEntry k a l) : e = (k, a) ∨ e ∈ l := by
  induction l with
  | nil => exact .inl (mem_singleton.1 h)
  | cons x l ih =>
    unfold insertEntry at h
    split_ifs at h with h1 h2
    · rcases mem_cons.1 h with h | h
      · exact .inl h
      · exact .inr h
    · rcases mem_cons.1 h with h | h
      · exact .inl h
      · exact .inr (mem_cons_of_mem _ h)
    · rcases mem_cons.1 h with h | h
      · exact .inr (h ▸ mem_cons_self)
      · exact (ih h).imp_right (mem_cons_of_mem _)

theorem sorted_insertEntry (k : κ) (a : α) (h : l.Pairwise fun x y => x.1 < y.1) :
    (insertEntry k a l).Pairwise fun x y => x.1 < y.1 := by
  induction l with
  | nil => exact pairwise_singleton _ _
  | cons x l ih =>
    obtain ⟨hx, hl⟩ := pairwise_cons.1 h
    unfold insertEntry
    split_ifs with h1 h2
    · refine pairwise_cons.2 ⟨fun y hy => ?_, h⟩
      rcases mem_cons.1 hy with rfl | hy
      · exact h1
      · exact lt_trans h1 (hx y hy)
    · exact pairwise_cons.2 ⟨fun y hy => h2 ▸ hx y hy, hl⟩
    · refine pairwise_cons.2 ⟨fun y hy => ?_, ih hl⟩
      rcases mem_insertEntry hy with rfl | hy
      · exact lt_of_le_of_ne (not_lt.1 h1) (Ne.symm h2)
      · exact hx y hy

/-- `m[k] = a`. -/
def insert (m : OrdMap κ α) (k : κ) (a : α) : OrdMap κ α :=
  ⟨insertEntry k a m.entries, sorted_insertEntry k a m.sorted⟩

/-- `m.emplace(k, a)`: a key that is present keeps its value. -/
def emplace (m : OrdMap κ α) (k : κ) (a : α) : OrdMap κ α :=
  if (m.find? k).isSome then m else m.insert k a

/-- `m.erase(k)`. -/
def erase (m : OrdMap κ α) (k : κ) : OrdMap κ α :=
  ⟨m.entries.filter fun e => e.1 ≠ k, m.sorted.filter _⟩

/-- The first key. -/
def minKey? (m : OrdMap κ α) : Option κ := m.entries.head?.map Prod.fst

/-- Erase from the front while the keys are below `k`. -/
def dropBelow (m : OrdMap κ α) (k : κ) : OrdMap κ α :=
  ⟨m.entries.dropWhile fun e => e.1 < k, m.sorted.sublist (List.dropWhile_sublist _)⟩

/-- The entries from `m.upper_bound(k)` on. -/
def above (m : OrdMap κ α) (k : κ) : List (κ × α) := m.entries.dropWhile fun e => e.1 ≤ k

variable {m : OrdMap κ α} {p : κ → Bool}

theorem find?_eq_some : m.find? k = some a ↔ (k, a) ∈ m.entries := by
  unfold find?
  obtain ⟨l, hl⟩ := m
  simp only
  induction l with
  | nil => simp
  | cons e l ih =>
    obtain ⟨he, hl'⟩ := pairwise_cons.1 hl
    by_cases hk : e.1 = k
    · subst hk
      rw [find?_cons_of_pos (by simp), Option.map_some, mem_cons]
      constructor
      · intro h
        cases h
        exact .inl rfl
      · rintro (h | h)
        · rw [← h]
        · exact absurd (he _ h) (lt_irrefl _)
    · rw [find?_cons_of_neg (by simpa using hk), ih hl', mem_cons]
      constructor
      · exact .inr
      · rintro (h | h)
        · exact absurd (by rw [← h]) hk
        · exact h

theorem mem_insert_self (m : OrdMap κ α) (k : κ) (a : α) : (k, a) ∈ (m.insert k a).entries := by
  obtain ⟨l, hl⟩ := m
  show (k, a) ∈ insertEntry k a l
  clear hl
  induction l with
  | nil => exact mem_singleton.2 rfl
  | cons x l ih =>
    unfold insertEntry
    split_ifs
    · exact mem_cons_self
    · exact mem_cons_self
    · exact mem_cons_of_mem _ ih

theorem mem_insert_ne (m : OrdMap κ α) (a : α) (h : e.1 ≠ k) :
    e ∈ (m.insert k a).entries ↔ e ∈ m.entries := by
  obtain ⟨l, hl⟩ := m
  show e ∈ insertEntry k a l ↔ e ∈ l
  have hne : e ≠ (k, a) := fun he => h (by rw [he])
  clear hl
  induction l with
  | nil => simp [insertEntry, hne]
  | cons x l ih =>
    unfold insertEntry
    split_ifs with h1 h2
    · simp [hne]
    · have hx : e ≠ x := fun he => h (by rw [he, h2])
      simp [hne, hx]
    · simp [ih]

theorem find?_insert_self (m : OrdMap κ α) (k : κ) (a : α) : (m.insert k a).find? k = some a :=
  find?_eq_some.2 (m.mem_insert_self k a)

theorem find?_insert_ne (m : OrdMap κ α) {k k' : κ} (a : α) (h : k' ≠ k) :
    (m.insert k a).find? k' = m.find? k' := by
  apply Option.ext
  intro b
  rw [find?_eq_some, find?_eq_some]
  exact m.mem_insert_ne a h

theorem mem_erase : e ∈ (m.erase k).entries ↔ e ∈ m.entries ∧ e.1 ≠ k := by
  simp [erase]

theorem find?_erase_self (m : OrdMap κ α) (k : κ) : (m.erase k).find? k = none := by
  cases h : (m.erase k).find? k with
  | none => rfl
  | some a => exact absurd rfl (mem_erase.1 (find?_eq_some.1 h)).2

theorem find?_erase_ne (m : OrdMap κ α) {k k' : κ} (h : k' ≠ k) :
    (m.erase k).find? k' = m.find? k' := by
  apply Option.ext
  intro b
  rw [find?_eq_some, find?_eq_some, mem_erase]
  exact ⟨fun h => h.1, fun hm => ⟨hm, h⟩⟩

theorem minKey?_le (h : m.minKey? = some k) (he : e ∈ m.entries) : k ≤ e.1 := by
  obtain ⟨l, hl⟩ := m
  cases l with
  | nil => cases he
  | cons x l =>
    cases h
    rcases mem_cons.1 he with rfl | he
    · exact le_refl _
    · exact le_of_lt ((pairwise_cons.1 hl).1 e he)

theorem exists_of_minKey? (h : m.minKey? = some k) : ∃ a, (k, a) ∈ m.entries := by
  obtain ⟨l, hl⟩ := m
  cases l with
  | nil => cases h
  | cons x l =>
    cases h
    exact ⟨x.2, mem_cons_self⟩

theorem minKey?_eq_none : m.minKey? = none ↔ m.entries = [] := by
  unfold minKey?
  simp

/-- In a sorted list, the entries past a prefix are those that fail its condition. -/
theorem mem_dropWhile (hl : l.Pairwise fun x y => x.1 < y.1)
    (hp : ∀ k k', k < k' → p k' = true → p k = true) :
    e ∈ l.dropWhile (fun e => p e.1) ↔ e ∈ l ∧ p e.1 = false := by
  induction l with
  | nil => simp
  | cons x l ih =>
    obtain ⟨hx, hl'⟩ := pairwise_cons.1 hl
    cases hpx : p x.1 with
    | true =>
      have hdrop : (x :: l).dropWhile (fun e => p e.1) = l.dropWhile (fun e => p e.1) :=
        dropWhile_cons_of_pos hpx
      rw [hdrop, ih hl', mem_cons]
      constructor
      · rintro ⟨h1, h2⟩
        exact ⟨.inr h1, h2⟩
      · rintro ⟨rfl | h1, h2⟩
        · rw [hpx] at h2
          cases h2
        · exact ⟨h1, h2⟩
    | false =>
      rw [dropWhile_cons_of_neg (by simp [hpx])]
      refine ⟨fun h => ⟨h, ?_⟩, fun h => h.1⟩
      rcases mem_cons.1 h with rfl | h
      · exact hpx
      · cases he : p e.1 with
        | false => rfl
        | true =>
          rw [hp _ _ (hx e h) he] at hpx
          cases hpx

theorem mem_dropBelow : e ∈ (m.dropBelow k).entries ↔ e ∈ m.entries ∧ k ≤ e.1 := by
  have h := mem_dropWhile (p := fun x => decide (x < k)) m.sorted
    (fun a b hab hb => by simp at hb ⊢; exact lt_trans hab hb) (e := e)
  simpa [dropBelow] using h

theorem mem_above : e ∈ m.above k ↔ e ∈ m.entries ∧ k < e.1 := by
  have h := mem_dropWhile (p := fun x => decide (x ≤ k)) m.sorted
    (fun a b hab hb => by simp at hb ⊢; exact le_trans (le_of_lt hab) hb) (e := e)
  simpa [above] using h

/-! ## Scans -/

/-- `Seek(k)`, then `Next` while the keys meet `p`. -/
def scan (m : OrdMap κ α) (k : κ) (p : κ → Bool) : List (κ × α) :=
  (m.entries.dropWhile fun e => e.1 < k).takeWhile fun e => p e.1

/-- Where `p` goes down to `k`, the entries that meet it are a prefix. -/
theorem takeWhile_eq_filter (hl : l.Pairwise fun x y => x.1 < y.1) (hk : ∀ e ∈ l, k ≤ e.1)
    (hp : ∀ x y, k ≤ x → x < y → p y = true → p x = true) :
    (l.takeWhile fun e => p e.1) = l.filter fun e => p e.1 := by
  induction l with
  | nil => rfl
  | cons x l ih =>
    obtain ⟨hx, hl'⟩ := pairwise_cons.1 hl
    rw [forall_mem_cons] at hk
    cases hpx : p x.1 with
    | true =>
      rw [takeWhile_cons, filter_cons, ih hl' hk.2, hpx]
      rfl
    | false =>
      rw [takeWhile_cons_of_neg (by simp [hpx]), filter_cons_of_neg (by simp [hpx])]
      refine (filter_eq_nil_iff.2 fun y hy hpy => ?_).symm
      rw [hp x.1 y.1 hk.1 (hx y hy) hpy] at hpx
      cases hpx

/-- A scan finds all entries of an interval that starts at `k`. -/
theorem scan_eq_filter (m : OrdMap κ α) (hk : ∀ x, p x = true → k ≤ x)
    (hp : ∀ x y, k ≤ x → x < y → p y = true → p x = true) :
    m.scan k p = m.entries.filter fun e => p e.1 := by
  obtain ⟨l, hl⟩ := m
  show ((l.dropWhile fun e => e.1 < k).takeWhile fun e => p e.1) = l.filter fun e => p e.1
  induction l with
  | nil => rfl
  | cons x l ih =>
    obtain ⟨hx, hl'⟩ := pairwise_cons.1 hl
    by_cases hlt : x.1 < k
    · have hpx : ¬ p x.1 = true := fun h => absurd hlt (not_lt.2 (hk x.1 h))
      rw [dropWhile_cons_of_pos (by simpa using hlt), filter_cons, if_neg hpx]
      exact ih hl'
    · rw [dropWhile_cons_of_neg (by simpa using hlt)]
      refine takeWhile_eq_filter hl (fun e he => ?_) hp
      rcases mem_cons.1 he with rfl | he
      · exact not_lt.1 hlt
      · exact le_trans (not_lt.1 hlt) (le_of_lt (hx e he))

theorem filter_insert (m : OrdMap κ α) (a : α) (hk : p k = false) :
    ((m.insert k a).entries.filter fun e => p e.1) = m.entries.filter fun e => p e.1 := by
  obtain ⟨l, hl⟩ := m
  show ((insertEntry k a l).filter fun e => p e.1) = l.filter fun e => p e.1
  clear hl
  induction l with
  | nil => simp [insertEntry, hk]
  | cons x l ih =>
    unfold insertEntry
    split_ifs with h1 h2
    · simp [hk]
    · subst h2
      simp [hk]
    · rw [filter_cons, filter_cons, ih]

theorem filter_erase (m : OrdMap κ α) (hk : p k = false) :
    ((m.erase k).entries.filter fun e => p e.1) = m.entries.filter fun e => p e.1 := by
  unfold erase
  rw [filter_filter]
  refine filter_congr fun e _ => ?_
  by_cases he : e.1 = k
  · simp [he, hk]
  · simp [he]

/-! ## Many entries -/

/-- `emplace` for a list of entries: the first one of a key stays. -/
def emplaceAll (l : List (κ × α)) : OrdMap κ α := l.foldl (fun m e => m.emplace e.1 e.2) empty

theorem find?_emplace (m : OrdMap κ α) (k k' : κ) (a : α) :
    (m.emplace k a).find? k' = (m.find? k').or (if k = k' then some a else none) := by
  unfold emplace
  by_cases hk : k = k'
  · subst hk
    cases hm : m.find? k with
    | some b => simp [hm]
    | none => simp [find?_insert_self]
  · have hne : k' ≠ k := fun h => hk h.symm
    rw [if_neg hk, Option.or_none]
    split
    · rfl
    · exact m.find?_insert_ne a hne

theorem find?_emplaceAll (l : List (κ × α)) (k : κ) :
    (emplaceAll l).find? k = (l.find? fun e => e.1 = k).map Prod.snd := by
  have hfold : ∀ (l : List (κ × α)) (m : OrdMap κ α),
      (l.foldl (fun m e => m.emplace e.1 e.2) m).find? k =
        (m.find? k).or ((l.find? fun e => e.1 = k).map Prod.snd) := by
    intro l
    induction l with
    | nil => simp
    | cons e l ih =>
      intro m
      rw [foldl_cons, ih, find?_emplace, Option.or_assoc]
      by_cases he : e.1 = k
      · simp [he]
      · simp [he]
  exact hfold l empty

theorem mem_of_find?_emplaceAll (h : (emplaceAll l).find? k = some a) : (k, a) ∈ l := by
  rw [find?_emplaceAll] at h
  obtain ⟨e, he, rfl⟩ := Option.map_eq_some_iff.1 h
  have hk : e.1 = k := by simpa using find?_some he
  rw [← hk]
  exact mem_of_find?_eq_some he

/-- Where the entries of a key agree, it does not matter which of them stays. -/
theorem find?_emplaceAll_eq_some (hl : ∀ a b, (k, a) ∈ l → (k, b) ∈ l → a = b) :
    (emplaceAll l).find? k = some a ↔ (k, a) ∈ l := by
  refine ⟨mem_of_find?_emplaceAll, fun h => ?_⟩
  cases hf : (emplaceAll l).find? k with
  | some b => rw [hl b a (mem_of_find?_emplaceAll hf) h]
  | none =>
    rw [find?_emplaceAll, Option.map_eq_none_iff, find?_eq_none] at hf
    exact absurd (decide_eq_true rfl) (hf _ h)

theorem find?_foldl_erase (l : List (κ × α)) (m : OrdMap κ α) (k : κ) :
    (l.foldl (fun m e => m.erase e.1) m).find? k =
      if k ∈ l.map Prod.fst then none else m.find? k := by
  induction l generalizing m with
  | nil => simp
  | cons e l ih =>
    rw [foldl_cons, ih, map_cons]
    by_cases hk : k = e.1
    · subst hk
      simp [find?_erase_self]
    · simp only [m.find?_erase_ne hk, mem_cons, hk, false_or]

theorem filter_foldl_erase (l : List (κ × α)) (m : OrdMap κ α) (hl : ∀ e ∈ l, p e.1 = false) :
    ((l.foldl (fun m e => m.erase e.1) m).entries.filter fun e => p e.1) =
      m.entries.filter fun e => p e.1 := by
  induction l generalizing m with
  | nil => rfl
  | cons e l ih =>
    rw [forall_mem_cons] at hl
    rw [foldl_cons, ih _ hl.2, m.filter_erase hl.1]

theorem mem_of_mem_foldl_erase {x : κ × α} (h : x ∈ (l.foldl (fun m e => m.erase e.1) m).entries) :
    x ∈ m.entries := by
  induction l generalizing m with
  | nil => exact h
  | cons e l ih => exact (mem_erase.1 (ih h)).1

end OrdMap
