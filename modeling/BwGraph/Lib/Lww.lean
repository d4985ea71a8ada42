import Mathlib.Data.Set.Insert
import Mathlib.Data.List.Induction

/-
  Last-writer-wins sets. An `Op` inserts or erases one element; `lww s ops` applies a history,
  oldest first, to a set. The latest operation on an element decides its membership (`mem_lww`),
  and a log that is stored newest first is read by looking for the first operation on the element
  (`newest`, `mem_lww_reverse`). `collect` is that reading as a program: one pass over a
  newest-first log, which keeps the elements seen so far and sorts each new one into the inserted
  or the erased ones. `applyList` is the other use of a log, the merge into a list.
-/

namespace Lww

open List

variable {α : Type*}

/-- One operation of a history: insert or erase an element. -/
inductive Op (α : Type*) where
  | insert (a : α)
  | erase (a : α)
  deriving DecidableEq, Repr

/-- The element an operation is about. -/
def Op.key : Op α → α
  | .insert a => a
  | .erase a => a

@[simp] theorem Op.key_insert (a : α) : (Op.insert a).key = a := rfl

@[simp] theorem Op.key_erase (a : α) : (Op.erase a).key = a := rfl

/-- The set after one operation. -/
def Op.apply (s : Set α) : Op α → Set α
  | .insert a => Insert.insert a s
  | .erase a => s \ {a}

/-- The set after a history, oldest operation first. -/
def lww (s : Set α) (ops : List (Op α)) : Set α := ops.foldl Op.apply s

variable (s : Set α)

@[simp] theorem lww_nil : lww s [] = s := rfl

@[simp] theorem lww_cons (o : Op α) (ops : List (Op α)) :
    lww s (o :: ops) = lww (o.apply s) ops := rfl

theorem lww_append (xs ys : List (Op α)) : lww s (xs ++ ys) = lww (lww s xs) ys :=
  foldl_append

theorem lww_concat (ops : List (Op α)) (o : Op α) : lww s (ops ++ [o]) = o.apply (lww s ops) := by
  rw [lww_append]; rfl

/-- A larger set stays larger. -/
theorem lww_mono {s t : Set α} (h : s ⊆ t) (ops : List (Op α)) : lww s ops ⊆ lww t ops := by
  induction ops generalizing s t with
  | nil => exact h
  | cons o ops ih =>
    refine ih ?_
    cases o with
    | insert a => exact Set.insert_subset_insert h
    | erase a => exact fun d hd => ⟨h hd.1, hd.2⟩

/-- Insertions add their elements. -/
theorem lww_map_insert (l : List α) : lww s (l.map .insert) = s ∪ {d | d ∈ l} := by
  induction l generalizing s with
  | nil => simp
  | cons a l ih =>
    rw [map_cons, lww_cons, ih]
    ext d
    simp only [Op.apply, Set.mem_union, Set.mem_insert_iff, Set.mem_ofPred_eq, mem_cons]
    rw [or_assoc, or_left_comm]

variable {s : Set α} {ops : List (Op α)}

/-- An operation that changes nothing: the element is there, ... -/
theorem apply_insert_eq_self {a : α} : (Op.insert a).apply s = s ↔ a ∈ s :=
  Set.insert_eq_self

/-- ... or is not there. -/
theorem apply_erase_eq_self {a : α} : (Op.erase a).apply s = s ↔ a ∉ s := by
  constructor
  · intro he ha
    rw [← he] at ha
    exact ha.2 rfl
  · intro ha
    ext d
    exact ⟨And.left, fun hd => ⟨hd, fun hda => ha (hda ▸ hd)⟩⟩

/-- A history of erasures. -/
theorem mem_lww_of_erases (h : ∀ o ∈ ops, ∃ a, o = .erase a) (d : α) :
    d ∈ lww s ops ↔ d ∈ s ∧ .erase d ∉ ops := by
  induction ops generalizing s with
  | nil => simp
  | cons o ops ih =>
    obtain ⟨a, rfl⟩ := h o mem_cons_self
    rw [lww_cons, ih fun o' ho' => h o' (mem_cons_of_mem _ ho')]
    simp only [Op.apply, Set.mem_sdiff, Set.mem_singleton_iff, mem_cons, Op.erase.injEq,
      not_or]
    exact and_assoc

theorem lww_of_erases_eq_self (h : ∀ o ∈ ops, ∃ a, o = .erase a) :
    lww s ops = s ↔ ∀ d, .erase d ∈ ops → d ∉ s := by
  constructor
  · intro he d hd hs
    rw [← he] at hs
    exact ((mem_lww_of_erases h d).1 hs).2 hd
  · intro hn
    ext d
    rw [mem_lww_of_erases h]
    exact ⟨And.left, fun hs => ⟨hs, fun hd => hn d hd hs⟩⟩

/-- The set after an event that may have an operation. -/
def applyEvent {ε : Type*} (opOn : ε → Option (Op α)) (s : Set α) (e : ε) : Set α :=
  match opOn e with
  | none => s
  | some o => o.apply s

theorem applyEvent_none {ε : Type*} {opOn : ε → Option (Op α)} {e : ε} (h : opOn e = none)
    (s : Set α) : applyEvent opOn s e = s := by
  simp [applyEvent, h]

variable {o : Op α} {d : α}

theorem applyEvent_some {ε : Type*} {opOn : ε → Option (Op α)} {e : ε} (h : opOn e = some o)
    (s : Set α) : applyEvent opOn s e = o.apply s := by
  simp [applyEvent, h]

/-- The operations of a run with one more event. -/
theorem lww_filterMap_concat {ε : Type*} (opOn : ε → Option (Op α)) (s : Set α) (es : List ε)
    (e : ε) : lww s ((es ++ [e]).filterMap opOn) =
      applyEvent opOn (lww s (es.filterMap opOn)) e := by
  rw [filterMap_append]
  cases h : opOn e with
  | none => simp [h, applyEvent]
  | some o => simp [h, applyEvent, lww_concat]

theorem mem_apply_of_key_ne (h : o.key ≠ d) : d ∈ o.apply s ↔ d ∈ s := by
  have h' : d ≠ o.key := Ne.symm h
  cases o with
  | insert a => simp_all [Op.apply]
  | erase a => simp_all [Op.apply]

/-- Nothing appears from nowhere. -/
theorem mem_of_mem_lww (h : d ∈ lww s ops) : d ∈ s ∨ ∃ o ∈ ops, o.key = d := by
  induction ops generalizing s with
  | nil => exact .inl h
  | cons o ops ih =>
    rcases ih h with hd | ⟨o', ho', hk⟩
    · by_cases hk : o.key = d
      · exact .inr ⟨o, mem_cons_self, hk⟩
      · exact .inl ((mem_apply_of_key_ne hk).1 hd)
    · exact .inr ⟨o', mem_cons_of_mem _ ho', hk⟩

variable [DecidableEq α]

/-- The first operation on `d` in a log: the newest one when the log is newest first. -/
def newest (d : α) (log : List (Op α)) : Option (Op α) := log.find? fun o => o.key = d

theorem newest_cons_self (log : List (Op α)) (h : o.key = d) : newest d (o :: log) = some o := by
  simp [newest, h]

theorem newest_cons_ne (log : List (Op α)) (h : o.key ≠ d) :
    newest d (o :: log) = newest d log := by
  simp [newest, h]

variable {log : List (Op α)}

theorem newest_key (h : newest d log = some o) : o.key = d := by
  simpa using find?_some h

/-- Newest first, the first operation on `d` decides its membership. -/
theorem mem_lww_reverse (s : Set α) (log : List (Op α)) (d : α) :
    d ∈ lww s log.reverse ↔
      newest d log = some (.insert d) ∨ (newest d log = none ∧ d ∈ s) := by
  induction log with
  | nil => simp [newest]
  | cons o log ih =>
    rw [reverse_cons, lww_concat]
    by_cases h : o.key = d
    · rw [newest_cons_self log h]
      subst h
      cases o <;> simp [Op.apply]
    · rw [newest_cons_ne log h, mem_apply_of_key_ne h, ih]

/-- Histories agreeing on every element they start from agree at the end. -/
theorem lww_congr_of_reverse {s t : Set α} (h : newest d log = none → (d ∈ s ↔ d ∈ t)) :
    d ∈ lww s log.reverse ↔ d ∈ lww t log.reverse := by
  rw [mem_lww_reverse, mem_lww_reverse]
  constructor
  · rintro (h1 | ⟨h1, h2⟩)
    · exact .inl h1
    · exact .inr ⟨h1, (h h1).1 h2⟩
  · rintro (h1 | ⟨h1, h2⟩)
    · exact .inl h1
    · exact .inr ⟨h1, (h h1).2 h2⟩

/-- An element added to the base that no erasure of the log hides is added to the result. -/
theorem lww_insert_reverse (h : newest d log ≠ some (.erase d)) :
    lww (Insert.insert d s) log.reverse = (Op.insert d).apply (lww s log.reverse) := by
  ext x
  by_cases hx : x = d
  · subst hx
    have hn : newest x log = none ∨ newest x log = some (.insert x) := by
      rcases ho : newest x log with _ | o
      · exact .inl rfl
      · have hk := newest_key ho
        cases o with
        | insert a => exact .inr (by rw [show a = x from hk])
        | erase a => exact absurd (by rw [ho, show a = x from hk]) h
    rw [mem_lww_reverse]
    rcases hn with hn | hn <;> simp [hn, Op.apply]
  · have hmem : x ∈ (Op.insert d).apply (lww s log.reverse) ↔ x ∈ lww s log.reverse :=
      mem_apply_of_key_ne (Ne.symm hx)
    rw [hmem]
    exact lww_congr_of_reverse fun _ => by simp [hx]

/-! ## Reading a newest-first log -/

/-- What a pass over a newest-first log has collected so far. -/
structure Collected (α : Type*) where
  inserts : List α
  deletes : List α
  seen : List α

/-- One step of the pass: only the first operation on an element counts. -/
def Collected.add (c : Collected α) (o : Op α) : Collected α :=
  if o.key ∈ c.seen then c
  else match o with
    | .insert a => { c with inserts := c.inserts ++ [a], seen := a :: c.seen }
    | .erase a => { c with deletes := a :: c.deletes, seen := a :: c.seen }

/-- The pass over the whole log. -/
def collect (log : List (Op α)) : Collected α := log.foldl Collected.add ⟨[], [], []⟩

theorem collect_concat (log : List (Op α)) (o : Op α) :
    collect (log ++ [o]) = (collect log).add o := by
  simp [collect, foldl_append]

theorem newest_concat (d : α) (log : List (Op α)) (o : Op α) :
    newest d (log ++ [o]) = (newest d log).or (newest d [o]) := by
  simp [newest, find?_append]

/-- The pass sorts every element by the newest operation on it. -/
structure Collected.Sorted (c : Collected α) (log : List (Op α)) : Prop where
  mem_inserts : ∀ d, d ∈ c.inserts ↔ newest d log = some (.insert d)
  mem_deletes : ∀ d, d ∈ c.deletes ↔ newest d log = some (.erase d)
  mem_seen : ∀ d, d ∈ c.seen ↔ newest d log ≠ none
  nodup : c.inserts.Nodup

theorem Collected.Sorted.add {c : Collected α} (h : c.Sorted log) (o : Op α) :
    (c.add o).Sorted (log ++ [o]) := by
  by_cases hs : o.key ∈ c.seen
  · have hadd : c.add o = c := by simp [Collected.add, hs]
    have hn : ∀ d, newest d (log ++ [o]) = newest d log := by
      intro d
      rw [newest_concat]
      by_cases hd : o.key = d
      · subst hd
        obtain ⟨o', ho'⟩ := Option.ne_none_iff_exists'.1 ((h.mem_seen _).1 hs)
        simp [ho']
      · rw [newest_cons_ne [] hd]
        simp [newest]
    rw [hadd]
    exact ⟨fun d => by rw [hn]; exact h.mem_inserts d, fun d => by rw [hn]; exact h.mem_deletes d,
      fun d => by rw [hn]; exact h.mem_seen d, h.nodup⟩
  · have hnone : newest o.key log = none := by
      by_contra hc
      exact hs ((h.mem_seen _).2 hc)
    have hself : newest o.key (log ++ [o]) = some o := by
      rw [newest_concat, hnone, newest_cons_self [] rfl]; rfl
    have hne : ∀ d, o.key ≠ d → newest d (log ++ [o]) = newest d log := by
      intro d hd
      rw [newest_concat, newest_cons_ne [] hd]
      simp [newest]
    cases o with
    | insert a =>
      have ha : a ∉ c.inserts := fun hm => by
        rw [h.mem_inserts] at hm
        simp [hm] at hnone
      simp only [Op.key_insert] at hself hne hnone hs
      refine ⟨fun d => ?_, fun d => ?_, fun d => ?_, ?_⟩
      · by_cases hd : a = d
        · subst hd; simp [Collected.add, hs, hself]
        · rw [hne d hd, ← h.mem_inserts]; simp [Collected.add, hs, Ne.symm hd]
      · by_cases hd : a = d
        · subst hd
          simp [Collected.add, hs, hself, h.mem_deletes, hnone]
        · rw [hne d hd, ← h.mem_deletes]; simp [Collected.add, hs]
      · by_cases hd : a = d
        · subst hd; simp [Collected.add, hs, hself]
        · rw [hne d hd, ← h.mem_seen]; simp [Collected.add, hs, Ne.symm hd]
      · have hd : ∀ x ∈ c.inserts, x ≠ a := fun x hx he => ha (he ▸ hx)
        simpa [Collected.add, hs, nodup_append] using ⟨h.nodup, hd⟩
    | erase a =>
      simp only [Op.key_erase] at hself hne hnone hs
      refine ⟨fun d => ?_, fun d => ?_, fun d => ?_, ?_⟩
      · by_cases hd : a = d
        · subst hd
          simp [Collected.add, hs, hself, h.mem_inserts, hnone]
        · rw [hne d hd, ← h.mem_inserts]; simp [Collected.add, hs]
      · by_cases hd : a = d
        · subst hd; simp [Collected.add, hs, hself]
        · rw [hne d hd, ← h.mem_deletes]; simp [Collected.add, hs, Ne.symm hd]
      · by_cases hd : a = d
        · subst hd; simp [Collected.add, hs, hself]
        · rw [hne d hd, ← h.mem_seen]; simp [Collected.add, hs, Ne.symm hd]
      · simpa [Collected.add, hs] using h.nodup

theorem collect_sorted (log : List (Op α)) : (collect log).Sorted log := by
  induction log using reverseRecOn with
  | nil => exact ⟨by simp [collect, newest], by simp [collect, newest], by simp [collect, newest],
      nodup_nil⟩
  | append_singleton log o ih =>
    rw [collect_concat]
    exact ih.add o

/-- The list a reader returns: the base without the erased elements, then the inserted ones. -/
def Collected.result (c : Collected α) (base : List α) : List α :=
  base.filter (fun d => d ∉ c.deletes) ++ c.inserts.filter (fun d => d ∉ c.deletes)

theorem filter_collect_inserts (log : List (Op α)) :
    (collect log).inserts.filter (fun d => d ∉ (collect log).deletes) = (collect log).inserts := by
  rw [filter_eq_self]
  intro d hd
  have hs := collect_sorted log
  rw [hs.mem_inserts] at hd
  simp [hs.mem_deletes, hd]

/-- Reading a newest-first log over a base list gives the last-writer-wins set. -/
theorem mem_result (base : List α) (log : List (Op α)) (d : α) :
    d ∈ (collect log).result base ↔ d ∈ lww {x | x ∈ base} log.reverse := by
  have hs := collect_sorted log
  rw [mem_lww_reverse, Collected.result, filter_collect_inserts, mem_append, mem_filter,
    hs.mem_inserts]
  simp only [decide_eq_true_eq, hs.mem_deletes, Set.mem_ofPred_eq]
  rcases ho : newest d log with _ | o
  · simp
  · have hk := newest_key ho
    cases o with
    | insert a => subst hk; simp
    | erase a => subst hk; simp

/-- A base without duplicates that no insertion repeats is read without duplicates. -/
theorem nodup_result {base : List α} (hb : base.Nodup) (hfresh : ∀ d, .insert d ∈ log → d ∉ base) :
    ((collect log).result base).Nodup := by
  have hs := collect_sorted log
  rw [Collected.result, filter_collect_inserts, nodup_append]
  refine ⟨hb.filter _, hs.nodup, fun a ha b hbm he => ?_⟩
  subst he
  have hmem := mem_of_find?_eq_some ((hs.mem_inserts a).1 hbm)
  exact hfresh a hmem (mem_filter.1 ha).1

/-! ## Merging a log into a list -/

/-- One operation on a list: an insertion appends, an erasure removes every occurrence. -/
def Op.applyList (l : List α) : Op α → List α
  | .insert a => l ++ [a]
  | .erase a => l.filter fun d => d ≠ a

/-- The list after a log, oldest operation first. -/
def applyList (l : List α) (ops : List (Op α)) : List α := ops.foldl Op.applyList l

variable (l : List α) (ops : List (Op α))

theorem setOf_mem_applyList : {x | x ∈ applyList l ops} = lww {x | x ∈ l} ops := by
  induction ops generalizing l with
  | nil => rfl
  | cons o ops ih =>
    have h : {x | x ∈ o.applyList l} = o.apply {x | x ∈ l} := by
      cases o with
      | insert a => ext x; simp [Op.applyList, Op.apply, or_comm]
      | erase a => ext x; simp [Op.applyList, Op.apply]
    rw [lww_cons, ← h]
    exact ih (o.applyList l)

theorem mem_applyList (d : α) : d ∈ applyList l ops ↔ d ∈ lww {x | x ∈ l} ops := by
  rw [← setOf_mem_applyList]; rfl

end Lww
