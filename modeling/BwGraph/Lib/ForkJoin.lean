import Mathlib.Algebra.Order.Ring.Nat
import Mathlib.Data.List.Nodup
import Mathlib.Order.RelClasses
import Mathlib.Algebra.Order.BigOperators.Group.List
import BwGraph.Lib.Run

/-
  Fork-join loops. The main thread stands at the head of its loop with the memory `m`; `fork`
  either ends the loop or starts a parallel section, the tasks of which take their steps in any
  order; when all of them are finished, `join` leads back to the head. The steps are total except
  at the end of the loop (`stuck_iff`), so a run that cannot be continued has left the loop.

  `Invariant` is the proof rule: what holds at the head, what holds in a section that was forked
  from it, and that the steps keep it (`Invariant.of_run`, for runs with a condition on the steps
  `GuardedInvariant.of_steps`). `Variant` adds a measure of the tasks and one of the head, and every
  run is finite whatever the order of the steps (`Variant.terminates`).
-/

/-- A loop with a parallel section as its body. -/
structure ForkJoin (σ τ : Type*) where
  /-- The head of the loop: `none` ends it. -/
  fork : σ → Option (σ × List τ)
  /-- One step of a task; `none` when it is finished. -/
  next : σ → τ → Option (σ × τ)
  /-- The end of the section. -/
  join : σ → List τ → σ

namespace ForkJoin

open List

variable {σ τ : Type*} (P : ForkJoin σ τ)

/-- Where the main thread stands. -/
inductive State (σ τ : Type*) where
  | head (m : σ)
  | body (m : σ) (ts : List τ)

/-- One step: of task `i`, or of the main thread. -/
def step : State σ τ → Option Nat → Option (State σ τ)
  | .head m, none => (P.fork m).map fun r => .body r.1 r.2
  | .head _, some _ => none
  | .body m ts, none =>
    if ts.all fun t => (P.next m t).isNone then some (.head (P.join m ts)) else none
  | .body m ts, some i =>
    ts[i]?.bind fun t => (P.next m t).map fun r => .body r.1 (ts.set i r.2)

/-- No run from here is infinite. -/
def Terminates (s : State σ τ) : Prop := Acc (fun s' s => ∃ e, P.step s e = some s') s

/-- No step is enabled. -/
def Stuck (s : State σ τ) : Prop := ∀ e, P.step s e = none

/-- A run leads to a state without a step. -/
def EndsIn (s s' : State σ τ) : Prop := ∃ es, runAll P.step s es = some s' ∧ P.Stuck s'

/-- A section can always go on: with a task, or past its end. -/
theorem stuck_iff {s : State σ τ} : P.Stuck s ↔ ∃ m, s = .head m ∧ P.fork m = none := by
  constructor
  · intro h
    cases s with
    | head m => exact ⟨m, rfl, Option.map_eq_none_iff.1 (h none)⟩
    | body m ts =>
      have hjoin := h none
      simp only [step] at hjoin
      split_ifs at hjoin with hall
      rw [all_eq_true] at hall
      push Not at hall
      obtain ⟨t, ht, hsome⟩ := hall
      obtain ⟨i, hi⟩ := mem_iff_getElem?.1 ht
      obtain ⟨r, hr⟩ : ∃ r, P.next m t = some r := by
        cases hn : P.next m t with
        | none => exact absurd (by rw [hn]; rfl) hsome
        | some r => exact ⟨r, rfl⟩
      have htask := h (some i)
      simp [step, hi, hr] at htask
  · rintro ⟨m, rfl, hm⟩ e
    cases e with
    | none => simp [step, hm]
    | some i => rfl

/-- A loop that terminates can be run to its end. -/
theorem Terminates.exists_stuck {s : State σ τ} (h : P.Terminates s) :
    ∃ es s', runAll P.step s es = some s' ∧ P.Stuck s' := by
  induction h with
  | intro s _ ih =>
    by_cases hstuck : P.Stuck s
    · exact ⟨[], s, rfl, hstuck⟩
    · unfold Stuck at hstuck
      push Not at hstuck
      obtain ⟨e, hsome⟩ := hstuck
      obtain ⟨s1, hstep⟩ := Option.ne_none_iff_exists'.1 hsome
      obtain ⟨es, s', hrun, hend⟩ := ih s1 ⟨e, hstep⟩
      refine ⟨e :: es, s', ?_, hend⟩
      rw [runAll, hstep]
      exact hrun

/-- What holds at the head, and in a section forked from the memory `m₁`. -/
structure Invariant (head : σ → Prop) (sec : σ → σ → List τ → Prop) : Prop where
  fork : ∀ m₁ m ts, head m₁ → P.fork m₁ = some (m, ts) → sec m₁ m ts
  next : ∀ m₁ m ts i t m' t', sec m₁ m ts → ts[i]? = some t → P.next m t = some (m', t') →
    sec m₁ m' (ts.set i t')
  join : ∀ m₁ m ts, head m₁ → sec m₁ m ts → (∀ t ∈ ts, P.next m t = none) →
    head (P.join m ts)

/-- An invariant of the runs all of whose steps meet a condition on the state before the step. -/
structure GuardedInvariant (ok : State σ τ → Option Nat → Prop) (head : σ → Prop)
    (sec : σ → σ → List τ → Prop) : Prop where
  fork : ∀ m₁ m ts, head m₁ → P.fork m₁ = some (m, ts) → sec m₁ m ts
  next : ∀ m₁ m ts i t m' t', sec m₁ m ts → ok (.body m ts) (some i) → ts[i]? = some t →
    P.next m t = some (m', t') → sec m₁ m' (ts.set i t')
  join : ∀ m₁ m ts, head m₁ → sec m₁ m ts → ok (.body m ts) none →
    (∀ t ∈ ts, P.next m t = none) → head (P.join m ts)

/-- The invariant of a state. -/
def Holds (head : σ → Prop) (sec : σ → σ → List τ → Prop) : State σ τ → Prop
  | .head m => head m
  | .body m ts => ∃ m₁, head m₁ ∧ sec m₁ m ts

variable {P} {head : σ → Prop} {sec : σ → σ → List τ → Prop}

variable {ts : List τ} {s s' : State σ τ} {es : List (Option Nat)}

theorem all_finished {m : σ} (h : (ts.all fun t => (P.next m t).isNone) = true) :
    ∀ t ∈ ts, P.next m t = none :=
  fun t ht => Option.isNone_iff_eq_none.1 (all_eq_true.1 h t ht)

section

variable {ok : State σ τ → Option Nat → Prop} (h : P.GuardedInvariant ok head sec)
include h

theorem GuardedInvariant.of_step {e : Option Nat} (hs : Holds head sec s) (hok : ok s e)
    (hstep : P.step s e = some s') : Holds head sec s' := by
  cases s with
  | head m =>
    cases e with
    | none =>
      obtain ⟨⟨m', ts⟩, hf, rfl⟩ := Option.map_eq_some_iff.1 hstep
      exact ⟨m, hs, h.fork m m' ts hs hf⟩
    | some i => cases hstep
  | body m ts =>
    obtain ⟨m1, hm1, hsec⟩ := hs
    cases e with
    | none =>
      simp only [step] at hstep
      split_ifs at hstep with hall
      obtain rfl := Option.some.inj hstep
      exact h.join m1 m ts hm1 hsec hok (all_finished hall)
    | some i =>
      obtain ⟨t, ht, hnext⟩ := Option.bind_eq_some_iff.1 hstep
      obtain ⟨⟨m', t'⟩, hn, rfl⟩ := Option.map_eq_some_iff.1 hnext
      exact ⟨m1, hm1, h.next m1 m ts i t m' t' hsec hok ht hn⟩

/-- A run all of whose steps meet the condition keeps the invariant, and when it cannot be
continued, the loop has ended. -/
theorem GuardedInvariant.of_steps (hs : Holds head sec s)
    (run : Steps (guarded ok fun s e s' => P.step s e = some s') s es s') :
    Holds head sec s' ∧ (P.Stuck s' → ∃ m, s' = .head m ∧ head m ∧ P.fork m = none) := by
  have hinv : Holds head sec s' := run.inv (fun _ s => Holds head sec s) hs
    fun _ _ _ _ hs hstep => h.of_step hs hstep.1 hstep.2
  refine ⟨hinv, fun hstuck => ?_⟩
  obtain ⟨m, rfl, hm⟩ := P.stuck_iff.1 hstuck
  exact ⟨m, rfl, hinv, hm⟩

end

theorem Invariant.guarded (h : P.Invariant head sec) :
    P.GuardedInvariant (fun _ _ => True) head sec :=
  ⟨h.fork, fun m1 m ts i t m' t' hsec _ => h.next m1 m ts i t m' t' hsec,
    fun m1 m ts hm hsec _ => h.join m1 m ts hm hsec⟩

/-- A run keeps the invariant, and when it cannot be continued, the loop has ended. -/
theorem Invariant.of_run (h : P.Invariant head sec) (hs : Holds head sec s)
    (run : runAll P.step s es = some s') :
    Holds head sec s' ∧ (P.Stuck s' → ∃ m, s' = .head m ∧ head m ∧ P.fork m = none) := by
  refine h.guarded.of_steps hs (Steps.of_runAll (fun _ _ _ hstep => ?_) run)
  exact ⟨trivial, hstep⟩

/-- Measures that decrease: `rank` with the steps of a task, `size` from head to head. -/
structure Variant (P : ForkJoin σ τ) (head : σ → Prop) (sec : σ → σ → List τ → Prop)
    (rank : τ → Nat) (size : σ → Nat) : Prop where
  inv : P.Invariant head sec
  rank_lt : ∀ m₁ m ts t m' t', sec m₁ m ts → t ∈ ts → P.next m t = some (m', t') → rank t' < rank t
  size_lt : ∀ m₁ m ts, head m₁ → sec m₁ m ts → (∀ t ∈ ts, P.next m t = none) →
    size (P.join m ts) < size m₁

/-! ## One task among many -/

theorem sum_set_add {l : List Nat} {i a b : Nat} (hi : l[i]? = some a) :
    (l.set i b).sum + a = l.sum + b := by
  induction l generalizing i with
  | nil => cases hi
  | cons c l ih =>
    cases i with
    | zero =>
      cases hi
      simp only [set_cons_zero, sum_cons]
      omega
    | succ i =>
      have := ih hi
      simp only [set_cons_succ, sum_cons]
      omega

variable {i : Nat}

/-- A sum over the tasks, after a step of one of them. -/
theorem sum_map_set {t : τ} (t' : τ) (ht : ts[i]? = some t) (f : τ → Nat) :
    ((ts.set i t').map f).sum + f t = (ts.map f).sum + f t' := by
  rw [map_set]
  refine sum_set_add ?_
  rw [getElem?_map, ht]
  rfl

section

variable {κ : Type*} {t t' : τ} (ht : ts[i]? = some t)
include ht

/-- What the steps of a task do not change is the same for the list of tasks. -/
theorem map_set_eq {f : τ → κ} (hf : f t' = f t) : (ts.set i t').map f = ts.map f := by
  obtain ⟨hi, rfl⟩ := List.getElem?_eq_some_iff.1 ht
  have hi' : i < (ts.map f).length := by rwa [List.length_map]
  rw [List.map_set, hf, ← List.getElem_map f (h := hi'), List.set_getElem_self]

variable {f : τ → List κ}

theorem flatMap_set_eq (hf : f t' = f t) : (ts.set i t').flatMap f = ts.flatMap f := by
  rw [flatMap_def, flatMap_def, map_set_eq ht hf]

/-- A task has added an item to its own. -/
theorem flatMap_set_perm {x : κ} (hf : f t' = f t ++ [x]) :
    ((ts.set i t').flatMap f).Perm (ts.flatMap f ++ [x]) := by
  induction ts generalizing i with
  | nil => cases ht
  | cons u ts ih =>
    cases i with
    | zero =>
      cases ht
      rw [set_cons_zero, flatMap_cons, flatMap_cons, hf, append_assoc,
        append_assoc]
      exact perm_append_comm.append_left _
    | succ i =>
      rw [set_cons_succ, flatMap_cons, flatMap_cons, append_assoc]
      exact (ih ht).append_left _

end

variable {p : τ → Prop}

theorem forall_mem_set {t' : τ} (h : ∀ t ∈ ts, p t) (h' : p t') : ∀ t ∈ ts.set i t', p t := by
  intro t ht
  rcases mem_or_eq_of_mem_set ht with ht | rfl
  · exact h t ht
  · exact h'

/-- A task with a property is still there, unless it is the one that took the step. -/
theorem exists_mem_set {t : τ} (t' : τ) (ht : ts[i]? = some t) (h : ∃ u ∈ ts, p u) :
    (∃ u ∈ ts.set i t', p u) ∨ p t := by
  obtain ⟨u, hu, hp⟩ := h
  obtain ⟨j, hj⟩ := mem_iff_getElem?.1 hu
  by_cases hij : i = j
  · subst hij
    rw [ht] at hj
    obtain rfl := Option.some.inj hj
    exact .inr hp
  · refine .inl ⟨u, mem_of_getElem? (i := j) ?_, hp⟩
    rw [getElem?_set_ne hij]
    exact hj

theorem mem_set_self {t : τ} (t' : τ) (ht : ts[i]? = some t) : t' ∈ ts.set i t' :=
  List.mem_set (List.getElem?_eq_some_iff.1 ht).1 t'

/-- The other tasks have other keys, if every task has its own. -/
theorem mem_set_of_nodup {κ : Type*} {t t' u : τ} {f : τ → κ} (hnd : (ts.map f).Nodup)
    (ht : ts[i]? = some t) (hu : u ∈ ts.set i t') : u = t' ∨ u ∈ ts ∧ f u ≠ f t := by
  obtain ⟨j, hj⟩ := List.mem_iff_getElem?.1 hu
  by_cases hij : i = j
  · subst hij
    rw [List.getElem?_set_self (List.getElem?_eq_some_iff.1 ht).1] at hj
    exact .inl (Option.some.inj hj).symm
  · rw [List.getElem?_set_ne hij] at hj
    refine .inr ⟨List.mem_of_getElem? hj, fun heq => hij ?_⟩
    have hft : (ts.map f)[i]? = some (f t) := by
      rw [List.getElem?_map, ht]
      rfl
    have hfu : (ts.map f)[j]? = some (f t) := by
      rw [List.getElem?_map, hj, ← heq]
      rfl
    obtain ⟨hi, hti⟩ := List.getElem?_eq_some_iff.1 hft
    obtain ⟨hj, huj⟩ := List.getElem?_eq_some_iff.1 hfu
    exact (List.Nodup.getElem_inj_iff hnd).1 (hti.trans huj.symm)

/-- A section can be run to the end of all its tasks, if their steps lower a rank. -/
theorem exists_finished {rank : τ → Nat}
    (hrank : ∀ m t m' t', P.next m t = some (m', t') → rank t' < rank t) (m : σ) (ts : List τ) :
    ∃ es m' ts', runAll P.step (.body m ts) es = some (.body m' ts') ∧
      ∀ t ∈ ts', P.next m' t = none := by
  induction hn : (ts.map rank).sum using Nat.strong_induction_on generalizing m ts with
  | _ n ih =>
    by_cases hall : ∀ t ∈ ts, P.next m t = none
    · exact ⟨[], m, ts, rfl, hall⟩
    · push Not at hall
      obtain ⟨t, ht, hsome⟩ := hall
      obtain ⟨i, hi⟩ := mem_iff_getElem?.1 ht
      obtain ⟨⟨m', t'⟩, hnext⟩ := Option.ne_none_iff_exists'.1 hsome
      have hlt := hrank m t m' t' hnext
      have hsum := sum_map_set t' hi rank
      obtain ⟨es, m2, ts2, hrun, hfin⟩ := ih _ (by omega) m' (ts.set i t') rfl
      refine ⟨some i :: es, m2, ts2, ?_, hfin⟩
      rw [runAll]
      simp [step, hi, hnext, hrun]

/-! ## Tasks in sequence -/

section Chain

variable {next : σ → τ → Option (σ × τ)} {m m' : σ} {l l' : List τ}

/-- One step of tasks that are done one after the other. -/
def chainNext (next : σ → τ → Option (σ × τ)) (m : σ) : List τ → Option (σ × List τ)
  | [] => none
  | t :: l =>
    match next m t with
    | some r => some (r.1, r.2 :: l)
    | none => (chainNext next m l).map fun r => (r.1, t :: r.2)

/-- It is a step of one of them. -/
theorem chainNext_step (h : chainNext next m l = some (m', l')) :
    ∃ i t t', l[i]? = some t ∧ next m t = some (m', t') ∧ l' = l.set i t' := by
  induction l generalizing l' with
  | nil => cases h
  | cons t l ih =>
    unfold chainNext at h
    cases hn : next m t with
    | some r =>
      simp only [hn] at h
      cases h
      exact ⟨0, t, r.2, rfl, hn, rfl⟩
    | none =>
      simp only [hn] at h
      obtain ⟨⟨m2, l2⟩, hl, heq⟩ := Option.map_eq_some_iff.1 h
      cases heq
      obtain ⟨i, u, u', hi, hu, rfl⟩ := ih hl
      exact ⟨i + 1, u, u', hi, hu, rfl⟩

/-- When there is none, all of them are finished. -/
theorem chainNext_eq_none (h : chainNext next m l = none) : ∀ t ∈ l, next m t = none := by
  induction l with
  | nil => exact forall_mem_nil _
  | cons t l ih =>
    unfold chainNext at h
    cases hn : next m t with
    | some r =>
      simp only [hn] at h
      cases h
    | none =>
      simp only [hn] at h
      exact forall_mem_cons.2 ⟨hn, ih (Option.map_eq_none_iff.1 h)⟩

theorem chainNext_rank {rank : τ → Nat}
    (hrank : ∀ t t', t ∈ l → next m t = some (m', t') → rank t' < rank t)
    (h : chainNext next m l = some (m', l')) : (l'.map rank).sum < (l.map rank).sum := by
  obtain ⟨i, t, t', hi, ht, rfl⟩ := chainNext_step h
  have hsum := sum_map_set t' hi rank
  have hlt := hrank t t' (mem_of_getElem? hi) ht
  omega

/-- A task within a task is one of all tasks. -/
theorem flatten_set {ts : List (List τ)} {i j : Nat} {l : List τ} {t : τ} (hi : ts[i]? = some l)
    (hj : l[j]? = some t) (t' : τ) :
    ∃ k, ts.flatten[k]? = some t ∧ (ts.set i (l.set j t')).flatten = ts.flatten.set k t' := by
  induction ts generalizing i with
  | nil => cases hi
  | cons u ts ih =>
    cases i with
    | zero =>
      cases hi
      have hlt := (List.getElem?_eq_some_iff.1 hj).1
      refine ⟨j, ?_, ?_⟩
      · rw [List.flatten_cons, List.getElem?_append_left hlt]
        exact hj
      · rw [List.set_cons_zero, List.flatten_cons, List.flatten_cons, List.set_append_left j t' hlt]
    | succ i =>
      obtain ⟨k, hk, heq⟩ := ih hi
      refine ⟨u.length + k, ?_, ?_⟩
      · rw [List.flatten_cons, List.getElem?_append_right (Nat.le_add_right _ _),
          Nat.add_sub_cancel_left]
        exact hk
      · rw [List.set_cons_succ, List.flatten_cons, List.flatten_cons, heq,
          List.set_append_right _ t' (Nat.le_add_right _ _), Nat.add_sub_cancel_left]

/-- A step of a chain of tasks among many is a step of one of all tasks. -/
theorem chainNext_flatten {ts : List (List τ)} {i : Nat} (hi : ts[i]? = some l)
    (h : chainNext next m l = some (m', l')) :
    ∃ k t t', ts.flatten[k]? = some t ∧ next m t = some (m', t') ∧
      (ts.set i l').flatten = ts.flatten.set k t' := by
  obtain ⟨j, t, t', hj, ht, rfl⟩ := chainNext_step h
  obtain ⟨k, hk, heq⟩ := flatten_set hi hj t'
  exact ⟨k, t, t', hk, ht, heq⟩

end Chain

/-- A section without a loop around it. -/
def parallel (next : σ → τ → Option (σ × τ)) : ForkJoin σ τ := ⟨fun _ => none, next, fun m _ => m⟩

/-- What holds of the tasks of a section and is kept by their steps. -/
theorem parallel_inv {next : σ → τ → Option (σ × τ)} (I : σ → List τ → Prop)
    (hnext : ∀ m ts i t m' t', I m ts → ts[i]? = some t → next m t = some (m', t') →
      I m' (ts.set i t')) {m m' : σ} {ts ts' : List τ} (h : I m ts)
    (run : runAll (parallel next).step (.body m ts) es = some (.body m' ts')) : I m' ts' := by
  have hinv : (parallel next).Invariant (fun _ => True) fun _ => I := by
    refine ⟨fun m1 m ts _ hf => ?_, fun _ => hnext, fun _ _ _ _ _ _ => trivial⟩
    cases hf
  obtain ⟨⟨_, -, hI⟩, -⟩ := hinv.of_run (s := .body m ts) ⟨m, trivial, h⟩ run
  exact hI

/-- A section that notes the items of its tasks, in any order, notes each of them once. -/
theorem parallel_notes {α : Type*} [DecidableEq α] {next : List α → τ → Option (List α × τ)}
    {ok : τ → Prop} {todo : τ → List α}
    (hnext : ∀ m t m' t', ok t → next m t = some (m', t') → ok t' ∧
      (m' = m ∧ todo t' = todo t ∨ ∃ x, m' = m ++ [x] ∧ todo t = x :: todo t'))
    (hend : ∀ m t, ok t → next m t = none → todo t = []) {ts ts' : List τ} {m' : List α}
    (hok : ∀ t ∈ ts, ok t)
    (run : runAll (parallel next).step (.body [] ts) es = some (.body m' ts'))
    (hfin : ∀ t ∈ ts', next m' t = none) : m'.Perm (ts.flatMap todo) := by
  have hinv := parallel_inv (fun m us => (∀ t ∈ us, ok t) ∧ ∀ x,
    m.count x + (us.map fun t => (todo t).count x).sum = (ts.flatMap todo).count x) ?_ ?_ run
  · obtain ⟨hok', hcount⟩ := hinv
    rw [perm_iff_count]
    intro x
    rw [← hcount x, sum_eq_zero, Nat.add_zero]
    intro c hc
    obtain ⟨t, ht, rfl⟩ := mem_map.1 hc
    rw [hend m' t (hok' t ht) (hfin t ht)]
    rfl
  · rintro m us i t m2 t' ⟨hok', hcount⟩ hi hn
    obtain ⟨hok2, hstep⟩ := hnext m t m2 t' (hok' t (mem_of_getElem? hi)) hn
    refine ⟨forall_mem_set hok' hok2, fun x => ?_⟩
    have hsum := sum_map_set t' hi fun t => (todo t).count x
    have hx := hcount x
    rcases hstep with ⟨rfl, heq⟩ | ⟨y, rfl, heq⟩
    · rw [heq] at hsum
      omega
    · rw [heq, count_cons] at hsum
      rw [count_append, count_singleton]
      omega
  · refine ⟨hok, fun x => ?_⟩
    rw [count_flatMap, count_nil, Nat.zero_add]
    rfl

variable {rank : τ → Nat} {size : σ → Nat} (h : P.Variant head sec rank size)
include h

/-- A section ends, if the loop ends from wherever it joins. -/
theorem Variant.section_terminates {m1 : σ}
    (hjoin : ∀ m ts, sec m1 m ts → (∀ t ∈ ts, P.next m t = none) →
      P.Terminates (.head (P.join m ts))) (n : Nat) {m : σ} (hn : (ts.map rank).sum ≤ n)
    (hsec : sec m1 m ts) : P.Terminates (.body m ts) := by
  induction n using Nat.strong_induction_on generalizing m ts with
  | _ n ih =>
    refine Acc.intro _ fun s' ⟨e, hstep⟩ => ?_
    cases e with
    | none =>
      simp only [step] at hstep
      split_ifs at hstep with hall
      obtain rfl := Option.some.inj hstep
      exact hjoin m ts hsec (all_finished hall)
    | some i =>
      obtain ⟨t, ht, hnext⟩ := Option.bind_eq_some_iff.1 hstep
      obtain ⟨⟨m', t'⟩, hnx, rfl⟩ := Option.map_eq_some_iff.1 hnext
      have hlt := h.rank_lt m1 m ts t m' t' hsec (mem_of_getElem? ht) hnx
      have hsum : ((ts.set i t').map rank).sum < (ts.map rank).sum := by
        have := sum_map_set t' ht rank
        omega
      exact ih _ (lt_of_lt_of_le hsum hn) le_rfl (h.inv.next m1 m ts i t m' t' hsec ht hnx)

/-- Every run is finite. -/
theorem Variant.terminates {m : σ} (hm : head m) : P.Terminates (.head m) := by
  induction hn : size m using Nat.strong_induction_on generalizing m with
  | _ n ih =>
    refine Acc.intro _ fun s' ⟨e, hstep⟩ => ?_
    cases e with
    | none =>
      obtain ⟨⟨m', ts⟩, hf, rfl⟩ := Option.map_eq_some_iff.1 hstep
      refine h.section_terminates (fun m2 ts2 hsec hfin => ?_) _ le_rfl (h.inv.fork m m' ts hm hf)
      exact ih _ (hn ▸ h.size_lt m m2 ts2 hm hsec hfin) (h.inv.join m m2 ts2 hm hsec hfin) rfl
    | some i => cases hstep

end ForkJoin
