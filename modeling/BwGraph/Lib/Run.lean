import Mathlib.Data.List.Basic

/-
  Runs of a labelled transition system, and the binding of a state monad with errors.
  `Steps step s es s'` is a finite run with the labels `es`; `Steps.inv` derives what holds after
  every run from what one step preserves, with the labels so far as history. `guarded ok step`
  restricts the steps by a condition on the state before the step.
-/

variable {σ ε : Type*}

/-- A finite run; `es` are its labels, first to last. -/
inductive Steps (step : σ → ε → σ → Prop) (s : σ) : List ε → σ → Prop
  | nil : Steps step s [] s
  | snoc {es : List ε} {s' s'' : σ} {e : ε} (run : Steps step s es s') (h : step s' e s'') :
      Steps step s (es ++ [e]) s''

/-- The steps that meet a condition on the state before the step. -/
def guarded (ok : σ → ε → Prop) (step : σ → ε → σ → Prop) (s : σ) (e : ε) (s' : σ) : Prop :=
  ok s e ∧ step s e s'

variable {es : List ε}

section

variable {step : σ → ε → σ → Prop}

/-- What holds at the start and is kept by every step holds after every run. -/
theorem Steps.inv {s : σ} (I : List ε → σ → Prop) (h0 : I [] s)
    (hstep : ∀ es s' e s'', I es s' → step s' e s'' → I (es ++ [e]) s'') {s' : σ}
    (run : Steps step s es s') : I es s' := by
  induction run with
  | nil => exact h0
  | snoc _ h ih => exact hstep _ _ _ _ ih h

variable {ok : σ → ε → Prop} {I G : σ → Prop}

/-- The steps of a run met the condition exactly when the run ends in a good state, if a step leads
to a good state exactly from a good state with the condition met. -/
theorem Steps.good_iff {s s' : σ} (hI : I s) (hG : G s)
    (hstep : ∀ s e s', I s → step s e s' → I s' ∧ (G s' ↔ G s ∧ ok s e)) (run : Steps step s es s') :
    G s' ↔ Steps (guarded ok step) s es s' := by
  constructor
  · intro h
    induction run with
    | nil => exact .nil
    | @snoc es s' s'' e run hs ih =>
      have hI' : I s' := run.inv (fun _ => I) hI fun _ _ _ _ h hs => (hstep _ _ _ h hs).1
      obtain ⟨h', hok⟩ := (hstep s' e s'' hI' hs).2.1 h
      exact .snoc (ih h') ⟨hok, hs⟩
  · intro h
    refine (h.inv (fun _ s => I s ∧ G s) ⟨hI, hG⟩ fun es s' e s'' hs hst => ?_).2
    obtain ⟨hI'', hiff⟩ := hstep s' e s'' hs.1 hst.2
    exact ⟨hI'', hiff.2 ⟨hs.2, hst.1⟩⟩

/-- Every state of a run is good exactly when its steps meet the condition, if from a good state a
step leads to a good one exactly with the condition met. `I` is what is known of a good state. -/
theorem Steps.always_iff
    (hstep : ∀ s e s', I s → step s e s' → (G s' → ok s e) ∧ (ok s e → I s' ∧ G s')) {s s' : σ}
    (hI : I s) :
    Steps (fun s e s' => step s e s' ∧ G s') s es s' ↔ Steps (guarded ok step) s es s' := by
  constructor
  · intro run
    have hboth : I s' ∧ Steps (guarded ok step) s es s' := by
      induction run with
      | nil => exact ⟨hI, .nil⟩
      | snoc _ h ih =>
        have hok := (hstep _ _ _ ih.1 h.1).1 h.2
        exact ⟨((hstep _ _ _ ih.1 h.1).2 hok).1, ih.2.snoc ⟨hok, h.1⟩⟩
    exact hboth.2
  · intro run
    have hboth : I s' ∧ Steps (fun s e s' => step s e s' ∧ G s') s es s' := by
      induction run with
      | nil => exact ⟨hI, .nil⟩
      | snoc _ h ih =>
        have hgood := (hstep _ _ _ ih.1 h.2).2 h.1
        exact ⟨hgood.1, ih.2.snoc ⟨h.2, hgood.2⟩⟩
    exact hboth.2

end

theorem Steps.cons {step : σ → ε → σ → Prop} {s s' s'' : σ} {e : ε} {es : List ε}
    (h : step s e s') (run : Steps step s' es s'') : Steps step s (e :: es) s'' := by
  induction run with
  | nil => exact .snoc .nil h
  | snoc _ h' ih => exact .snoc ih h'

theorem Steps.append {step : σ → ε → σ → Prop} {s s' s'' : σ} {es es' : List ε}
    (run : Steps step s es s') (run' : Steps step s' es' s'') : Steps step s (es ++ es') s'' := by
  induction run' with
  | nil => simpa using run
  | snoc _ h ih =>
    rw [← List.append_assoc]
    exact .snoc ih h

/-- A run with fewer steps allowed is a run. -/
theorem Steps.mono {step step' : σ → ε → σ → Prop} (h : ∀ s e s', step s e s' → step' s e s')
    {s s' : σ} (run : Steps step s es s') : Steps step' s es s' := by
  induction run with
  | nil => exact .nil
  | snoc _ hs ih => exact .snoc ih (h _ _ _ hs)

/-- The state after a partial step function has taken the labels in order. -/
def runAll (step : σ → ε → Option σ) : σ → List ε → Option σ
  | s, [] => some s
  | s, e :: es => (step s e).bind fun s' => runAll step s' es

theorem runAll_append (step : σ → ε → Option σ) (s : σ) (es es' : List ε) :
    runAll step s (es ++ es') = (runAll step s es).bind fun s' => runAll step s' es' := by
  induction es generalizing s with
  | nil => rfl
  | cons e es ih =>
    simp only [List.cons_append, runAll, Option.bind_assoc]
    congr 1
    funext s'
    exact ih s'

section

variable {step : σ → ε → Option σ} {R : σ → ε → σ → Prop}

theorem Steps.of_runAll_mem (h : ∀ e ∈ es, ∀ s s', step s e = some s' → R s e s') {s s' : σ}
    (hr : runAll step s es = some s') : Steps R s es s' := by
  induction es generalizing s with
  | nil =>
    cases hr
    exact .nil
  | cons e es ih =>
    obtain ⟨s1, h1, hr⟩ := Option.bind_eq_some_iff.1 hr
    exact .cons (h e List.mem_cons_self s s1 h1)
      (ih (fun e' he' => h e' (List.mem_cons_of_mem _ he')) hr)

theorem Steps.of_runAll (h : ∀ s e s', step s e = some s' → R s e s') {s s' : σ}
    (hr : runAll step s es = some s') : Steps R s es s' :=
  Steps.of_runAll_mem (fun e _ s s' => h s e s') hr

end

/-! ## Steps with outputs -/

/-- The last state and the outputs of a step function that takes its inputs in order. -/
def outputs {σ α β : Type*} (step : σ → α → σ × β) : σ → List α → σ × List β
  | s, [] => (s, [])
  | s, a :: as =>
    let rest := outputs step (step s a).1 as
    (rest.1, (step s a).2 :: rest.2)

/-- Two step functions give the same outputs if related states do so for one input and stay
related. The relation may speak of the inputs to come. -/
theorem outputs_sim {σ τ α β : Type*} {f : σ → α → σ × β} {g : τ → α → τ × β}
    {R : σ → τ → List α → Prop}
    (hstep : ∀ s t a as, R s t (a :: as) → R (f s a).1 (g t a).1 as ∧ (f s a).2 = (g t a).2) {s : σ}
    {t : τ} {as : List α} (h : R s t as) :
    R (outputs f s as).1 (outputs g t as).1 [] ∧ (outputs f s as).2 = (outputs g t as).2 := by
  induction as generalizing s t with
  | nil => exact ⟨h, rfl⟩
  | cons a as ih =>
    obtain ⟨hnext, hout⟩ := hstep s t a as h
    obtain ⟨hend, hrest⟩ := ih hnext
    refine ⟨hend, ?_⟩
    show (f s a).2 :: _ = (g t a).2 :: _
    rw [hout, hrest]

/-! ## Computations with errors -/

theorem map_getD_range {α : Type} (l : List α) (d : α) :
    (List.range l.length).map (fun i => l.getD i d) = l := by
  refine List.ext_getElem (by rw [List.length_map, List.length_range]) fun i h1 h2 => ?_
  simp [h2]

variable {α β : Type} {f : α → Option β}

theorem mapM_eq_some_map {g : α → β} {l : List α} (h : ∀ a ∈ l, f a = some (g a)) :
    l.mapM f = some (l.map g) := by
  induction l with
  | nil => rfl
  | cons a l ih =>
    rw [List.forall_mem_cons] at h
    rw [List.mapM_cons, h.1, ih h.2]
    rfl

theorem mapM_getElem? {α : Type} (l : List α) :
    ((List.range l.length).mapM fun i => l[i]?) = some l := by
  cases l with
  | nil => rfl
  | cons a l =>
    refine (mapM_eq_some_map (g := fun i => (a :: l).getD i a) fun i hi => ?_).trans
      (congrArg some (map_getD_range _ a))
    rw [List.getElem?_eq_getElem (List.mem_range.1 hi), List.getD_eq_getElem?_getD,
      List.getElem?_eq_getElem (List.mem_range.1 hi)]
    rfl

theorem mapM_eq_none {l : List α} {a : α} (ha : a ∈ l) (h : f a = none) : l.mapM f = none := by
  induction l with
  | nil => cases ha
  | cons b l ih =>
    rw [List.mapM_cons]
    rcases List.mem_cons.1 ha with rfl | ha
    · rw [h]
      rfl
    · cases f b <;> simp [ih ha]

/-- A sequence returns normally exactly when both parts do. -/
theorem Except.bind_eq_ok {ε α β : Type} {x : Except ε α} {f : α → Except ε β} {b : β} :
    (x >>= f) = .ok b ↔ ∃ a, x = .ok a ∧ f a = .ok b := by
  cases x with
  | error e => exact iff_of_false (fun h => by cases h) (fun ⟨a, h, _⟩ => by cases h)
  | ok a =>
    constructor
    · exact fun h => ⟨a, rfl, h⟩
    · rintro ⟨a', h, h'⟩
      cases h
      exact h'

section

variable {ε σ α : Type} {f : σ → α → Except ε σ}

/-- What holds at the start and is kept by every step of a loop that returns holds at its end. -/
theorem Except.foldlM_inv (I : List α → σ → Prop)
    (hstep : ∀ done s a s', I done s → f s a = .ok s' → I (done ++ [a]) s') {done l : List α}
    {s s' : σ} (h0 : I done s) (h : l.foldlM f s = .ok s') : I (done ++ l) s' := by
  induction l generalizing done s with
  | nil =>
    cases h
    rw [List.append_nil]
    exact h0
  | cons a l ih =>
    rw [List.foldlM_cons] at h
    obtain ⟨s1, h1, hrest⟩ := Except.bind_eq_ok.1 h
    rw [List.append_cons]
    exact ih (hstep done s a s1 h0 h1) hrest

/-- A loop whose steps fail on certain inputs, whatever the state, returns exactly without them. -/
theorem Except.foldlM_ok_iff {bad : α → Prop} (h : ∀ s a, (∃ s', f s a = .ok s') ↔ ¬bad a)
    {l : List α} {s : σ} : (∃ s', l.foldlM f s = .ok s') ↔ ∀ a ∈ l, ¬bad a := by
  induction l generalizing s with
  | nil => exact iff_of_true ⟨s, rfl⟩ fun a ha => absurd ha List.not_mem_nil
  | cons a l ih =>
    rw [List.foldlM_cons, List.forall_mem_cons]
    constructor
    · intro hok
      obtain ⟨s', hok⟩ := hok
      obtain ⟨s1, h1, hrest⟩ := Except.bind_eq_ok.1 hok
      exact ⟨(h s a).1 ⟨s1, h1⟩, ih.1 ⟨s', hrest⟩⟩
    · intro hgood
      obtain ⟨s1, h1⟩ := (h s a).2 hgood.1
      obtain ⟨s', hrest⟩ := ih.2 hgood.2
      exact ⟨s', Except.bind_eq_ok.2 ⟨s1, h1, hrest⟩⟩

/-- The exception of a loop is one of its steps. -/
theorem Except.foldlM_error {P : ε → Prop} (h : ∀ s a e, f s a = .error e → P e) {l : List α}
    {s : σ} {e : ε} (he : l.foldlM f s = .error e) : P e := by
  induction l generalizing s with
  | nil => cases he
  | cons a l ih =>
    rw [List.foldlM_cons] at he
    cases hf : f s a with
    | error e' =>
      rw [hf] at he
      cases he
      exact h s a e hf
    | ok s1 =>
      rw [hf] at he
      exact ih he

end

/-! ## Computations with state and errors -/

namespace EStateM

variable {ε σ α β : Type}

variable {f : α → EStateM ε σ β} {x : EStateM ε σ α}

/-- A sequence returns normally exactly when both parts do. -/
theorem bind_eq_ok {s s'' : σ} {b : β} :
    (x >>= f) s = .ok b s'' ↔ ∃ a s', x s = .ok a s' ∧ f a s' = .ok b s'' := by
  show EStateM.bind x f s = _ ↔ _
  unfold EStateM.bind
  cases h : x s with
  | ok a s' => simp
  | error e s' => simp

variable {e : ε} {s s' : σ}

/-- A sequence fails in its first part, or in the second after the first returned. -/
theorem bind_eq_error {s s'' : σ} :
    (x >>= f) s = .error e s'' ↔
      x s = .error e s'' ∨ ∃ a s', x s = .ok a s' ∧ f a s' = .error e s'' := by
  show EStateM.bind x f s = _ ↔ _
  unfold EStateM.bind
  cases h : x s with
  | ok a s' => simp
  | error e s' => simp

@[simp] theorem pure_eq_ok {a b : α} : (pure a : EStateM ε σ α) s = .ok b s' ↔ a = b ∧ s = s' := by
  show EStateM.Result.ok a s = _ ↔ _
  simp

theorem get_bind {f : σ → EStateM ε σ β} {s : σ} : ((get : EStateM ε σ σ) >>= f) s = f s s := rfl

variable {a : α}

theorem bind_ok_eq (h : x s = .ok a s') : (x >>= f) s = f a s' := by
  show EStateM.bind x f s = _
  unfold EStateM.bind
  rw [h]

theorem bind_error_eq (h : x s = .error e s') : (x >>= f) s = .error e s' := by
  show EStateM.bind x f s = _
  unfold EStateM.bind
  rw [h]

/-- The value of a normal return. -/
def Result.value? : Result ε σ α → Option α
  | .ok a _ => some a
  | .error _ _ => none

/-- The state a computation ends in. -/
def Result.state : Result ε σ α → σ
  | .ok _ s => s
  | .error _ s => s

theorem state_bind_error (h : x s = .error e s') : ((x >>= f) s).state = s' := by
  rw [bind_error_eq h]
  rfl

/-- Every way out of a computation, by return or by exception, keeps `P`. -/
def Keeps (P : σ → Prop) (x : EStateM ε σ α) : Prop := ∀ s, P s → P (x s).state

variable {P : σ → Prop}

theorem Keeps.pure (a : α) : Keeps P (pure a : EStateM ε σ α) := fun _ h => h

theorem Keeps.throw (e : ε) : Keeps P (throw e : EStateM ε σ α) := fun _ h => h

/-- What the first part leads to and every continuation keeps holds on every way out. -/
theorem Keeps.after {s : σ} (hx : P (x s).state) (hf : ∀ a, Keeps P (f a)) :
    P ((x >>= f) s).state := by
  show P (EStateM.bind x f s).state
  unfold EStateM.bind
  cases h : x s with
  | ok a s' =>
    rw [h] at hx
    exact hf a s' hx
  | error e s' =>
    rw [h] at hx
    exact hx

/-- What a computation keeps holds where it returns. -/
theorem Keeps.of_ok (hx : x.Keeps P) (hs : P s) (h : x s = .ok a s') : P s' := by
  have hP := hx s hs
  rw [h] at hP
  exact hP

theorem Keeps.bind (hx : Keeps P x) (hf : ∀ a, Keeps P (f a)) :
    Keeps P (x >>= f) := fun s hs => Keeps.after (hx s hs) hf

variable {r : Result ε σ α}

theorem Result.eq_ok_of_value? (h : r.value? = some a) : r = .ok a r.state := by
  cases r with
  | ok b s => cases h; rfl
  | error e s => cases h

/-- The exception of a computation that threw. -/
def Result.error? : Result ε σ α → Option ε
  | .ok _ _ => none
  | .error e _ => some e

theorem Result.eq_error_of_error? (h : r.error? = some e) : r = .error e r.state := by
  cases r with
  | ok b s => cases h
  | error e' s => cases h; rfl

end EStateM
