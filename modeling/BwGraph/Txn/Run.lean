import BwGraph.Txn.Txn
import BwGraph.Lib.Run

/-
  Runs of any number of transactions. `begin_txn` loads the clock and then registers the reader;
  the two are steps of their own (`load`, `register`) and together one step (`begin`) where a
  result assumes an atomic begin. The other calls are one step each. A transaction is registered
  from its construction to its destruction, also after its commit (`Registered`).

  `getWatermark_le_readTs`: the watermark is at most the read timestamp of every transaction that
  has loaded one, except for those in the gap before their registration when a commit fell into
  the gap and no older reader is left. `checkSerializableConflict_kept`: with an atomic begin,
  erasing old write sets never changes the result of a conflict check.
-/

namespace BwGraph

open TxnManager

/-- A transaction object, from the first half of its `begin_txn` on. -/
inductive TxnState where
  | absent
  | loaded (readTs : Nat) (serializable : Bool)
  | live (t : Txn)
  | destroyed
  deriving DecidableEq

/-- The store and the transactions by number. -/
structure TxnSys where
  store : TxnStore
  txns : Nat → TxnState

/-- The calls. -/
inductive TxnEvent where
  | load (i : Nat) (serializable : Bool)
  | register (i : Nat)
  | begin (i : Nat) (serializable : Bool)
  | getNeighbors (i : Nat) (v : VId)
  | write (i : Nat) (op : WriteOpt)
  | commit (i : Nat)
  | abort (i : Nat)
  | destroy (i : Nat)
  deriving DecidableEq

namespace TxnSys

/-- No transaction yet. -/
def start (initialTs : Nat) (db : TxnDb) : TxnSys := ⟨⟨.init initialTs, db⟩, fun _ => .absent⟩

variable (cleanup : TxnManager → TxnManager) (s : TxnSys)

/-- Transaction `i` becomes `x`. -/
def set (i : Nat) (x : TxnState) : TxnSys := { s with txns := Function.update s.txns i x }

/-- The manager changes. -/
def setManager (m : TxnManager) : TxnSys := { s with store := { s.store with manager := m } }

/-- The constructor `txn_t`. -/
def construct (i : Nat) (readTs : Nat) (serializable : Bool) : TxnSys :=
  (s.setManager (s.store.manager.registerReader readTs)).set i (.live (.new readTs serializable))

/-- The first half of `begin_txn`. -/
def load (i : Nat) (serializable : Bool) : Option TxnSys :=
  match s.txns i with
  | .absent => some (s.set i (.loaded s.store.manager.latestCommitTs serializable))
  | _ => none

/-- The second half of `begin_txn`. -/
def register (i : Nat) : Option TxnSys :=
  match s.txns i with
  | .loaded readTs serializable => some (s.construct i readTs serializable)
  | _ => none

/-- `begin_txn` as one step. -/
def begin (i : Nat) (serializable : Bool) : Option TxnSys :=
  match s.txns i with
  | .absent => some (s.construct i s.store.manager.latestCommitTs serializable)
  | _ => none

/-- A method of a live transaction that throws nothing and leaves the store alone. -/
def onTxn (i : Nat) (f : Txn → Except String Txn) : Option TxnSys :=
  match s.txns i with
  | .live t =>
    match f t with
    | .ok t => some (s.set i (.live t))
    | .error _ => none
  | _ => none

/-- `commit`. -/
def commit (i : Nat) : Option TxnSys :=
  match s.txns i with
  | .live t =>
    match t.commitWith cleanup s.store with
    | .ok (_, t, st) => some ({ s with store := st }.set i (.live t))
    | .error _ => none
  | _ => none

/-- `~txn_t`. -/
def destroy (i : Nat) : Option TxnSys :=
  match s.txns i with
  | .live t => some ((s.setManager (s.store.manager.unregisterReader t.readTs)).set i .destroyed)
  | _ => none

/-- One call. -/
def step : TxnEvent → Option TxnSys
  | .load i serializable => s.load i serializable
  | .register i => s.register i
  | .begin i serializable => s.begin i serializable
  | .getNeighbors i v => s.onTxn i fun t => (t.getNeighbors s.store.db v).map Prod.snd
  | .write i op => s.onTxn i fun t => t.bufferWrite op
  | .commit i => s.commit cleanup i
  | .abort i => s.onTxn i fun t => .ok t.abort
  | .destroy i => s.destroy i

end TxnSys

/-- The steps of the system. -/
def TxnStep (s : TxnSys) (e : TxnEvent) (s' : TxnSys) : Prop :=
  s.step TxnManager.cleanupOldTxns e = some s'

/-! ## What one call does -/

/-- What a call does to the manager and to the transactions. -/
inductive TxnEffect (cleanup : TxnManager → TxnManager) (s s' : TxnSys) : Prop
  | loaded {i : Nat} {serializable : Bool} (h : s.txns i = .absent)
      (eq : s' = s.set i (.loaded s.store.manager.currentTs serializable))
  | constructed {i readTs : Nat} {serializable : Bool}
      (h : s.txns i = .loaded readTs serializable ∨
        (s.txns i = .absent ∧ readTs = s.store.manager.currentTs))
      (eq : s' = s.construct i readTs serializable)
  | changed {i : Nat} {t t' : Txn} (h : s.txns i = .live t) (readTs : t'.readTs = t.readTs)
      (eq : s' = s.set i (.live t'))
  | committed {i : Nat} {t t' : Txn} {db : TxnDb} (h : s.txns i = .live t)
      (readTs : t'.readTs = t.readTs)
      (eq : s' = TxnSys.set ⟨⟨t.recordCommit cleanup (s.store.manager.currentTs + 1)
        { s.store.manager with currentTs := s.store.manager.currentTs + 1 }, db⟩, s.txns⟩
        i (.live t'))
  | destroyed {i : Nat} {t : Txn} (h : s.txns i = .live t)
      (eq : s' = (s.setManager (s.store.manager.unregisterReader t.readTs)).set i .destroyed)

namespace TxnSys

variable {cleanup : TxnManager → TxnManager} {s s' : TxnSys}

variable {f : Txn → Except String Txn} {i : Nat} {t t' : Txn}

theorem onTxn_cases (h : s.onTxn i f = some s') :
    ∃ t t', s.txns i = .live t ∧ f t = .ok t' ∧ s' = s.set i (.live t') := by
  unfold onTxn at h
  split at h
  · rename_i t ht
    split at h
    · rename_i t' hft
      cases h
      exact ⟨t, t', ht, hft, rfl⟩
    · cases h
  · cases h

theorem onTxn_effect (hf : ∀ t t', f t = .ok t' → t'.readTs = t.readTs) (h : s.onTxn i f = some s') :
    TxnEffect cleanup s s' := by
  obtain ⟨t, t', ht, hft, heq⟩ := onTxn_cases h
  exact .changed ht (hf t t' hft) heq

theorem getNeighbors_readTs {db : TxnDb} {v : VId} (h : (t.getNeighbors db v).map Prod.snd = .ok t') :
    t'.readTs = t.readTs := by
  unfold Txn.getNeighbors at h
  split_ifs at h <;> cases h <;> rfl

theorem bufferWrite_readTs {op : WriteOpt} (h : t.bufferWrite op = .ok t') :
    t'.readTs = t.readTs := by
  unfold Txn.bufferWrite at h
  split_ifs at h <;> cases h <;> rfl

theorem abort_readTs (h : (.ok t.abort : Except String Txn) = .ok t') : t'.readTs = t.readTs := by
  cases h
  unfold Txn.abort
  split_ifs <;> rfl

theorem commit_effect (h : s.commit cleanup i = some s') : TxnEffect cleanup s s' := by
  unfold commit at h
  split at h
  · rename_i t ht
    split at h
    · rename_i ok t' st hc
      cases h
      obtain ⟨-, ⟨-, -, rfl, rfl⟩ | ⟨-, -, -, rfl, rfl⟩ | ⟨-, -, -, rfl, rfl⟩⟩ :=
        Txn.commitWith_cases hc
      · exact .changed ht (show ({ t with committed := true } : Txn).readTs = t.readTs from rfl) rfl
      · exact .changed ht (show ({ t with committed := true } : Txn).readTs = t.readTs from rfl) rfl
      · exact .committed ht (show t.afterCommit.readTs = t.readTs from rfl) rfl
    · cases h
  · cases h

theorem step_effect {e : TxnEvent} (h : s.step cleanup e = some s') : TxnEffect cleanup s s' := by
  cases e with
  | load i serializable =>
    simp only [step, load] at h
    split at h
    · rename_i hi
      cases h
      exact .loaded hi rfl
    · cases h
  | register i =>
    simp only [step, register] at h
    split at h
    · rename_i r b hi
      cases h
      exact .constructed (.inl hi) rfl
    · cases h
  | begin i serializable =>
    simp only [step, begin] at h
    split at h
    · rename_i hi
      cases h
      exact .constructed (.inr ⟨hi, rfl⟩) rfl
    · cases h
  | getNeighbors i v => exact onTxn_effect (fun _ _ => getNeighbors_readTs) h
  | write i op => exact onTxn_effect (fun _ _ => bufferWrite_readTs) h
  | commit i => exact commit_effect h
  | abort i => exact onTxn_effect (f := fun t => .ok t.abort) (fun _ _ => abort_readTs) h
  | destroy i =>
    simp only [step, destroy] at h
    split at h
    · rename_i t ht
      cases h
      exact .destroyed ht rfl
    · cases h

end TxnSys

/-! ## Registered readers -/

/-- The read timestamp of a transaction that is registered. -/
def TxnState.registeredTs : TxnState → Option Nat
  | .live t => some t.readTs
  | _ => none

/-- The manager counts the registered transactions, and no timestamp is ahead of the clock. -/
structure Registered (s : TxnSys) : Prop where
  counted : ∃ ids : List Nat, ids.Nodup ∧ (∀ i, i ∈ ids ↔ (s.txns i).registeredTs ≠ none) ∧
    ∀ ts, s.store.manager.waterMark.count ts =
      ids.countP fun i => (s.txns i).registeredTs = some ts
  loadedLe : ∀ i readTs serializable, s.txns i = .loaded readTs serializable →
    readTs ≤ s.store.manager.currentTs
  liveLe : ∀ i t, s.txns i = .live t → t.readTs ≤ s.store.manager.currentTs

theorem registered_start (initialTs : Nat) (db : TxnDb) : Registered (.start initialTs db) :=
  ⟨⟨[], List.nodup_nil, fun i => by simp [TxnSys.start, TxnState.registeredTs], fun _ => rfl⟩,
    fun i r b h => (by cases h), fun i t h => (by cases h)⟩

/-- A timestamp is counted exactly when a live transaction has it. -/
theorem Registered.count_pos {s : TxnSys} (h : Registered s) {ts : Nat} :
    0 < s.store.manager.waterMark.count ts ↔ ∃ i t, s.txns i = .live t ∧ t.readTs = ts := by
  obtain ⟨ids, -, hmem, hcount⟩ := h.counted
  rw [hcount, List.countP_pos_iff]
  constructor
  · rintro ⟨i, -, hi⟩
    cases ht : s.txns i with
    | live t => exact ⟨i, t, ht, by simpa [ht, TxnState.registeredTs] using hi⟩
    | _ => simp [ht, TxnState.registeredTs] at hi
  · rintro ⟨i, t, ht, rfl⟩
    exact ⟨i, (hmem i).2 (by simp [ht, TxnState.registeredTs]), by simp [ht, TxnState.registeredTs]⟩

theorem TxnSys.set_self (s : TxnSys) (i : Nat) (x : TxnState) : (s.set i x).txns i = x :=
  Function.update_self _ _ _

theorem TxnSys.set_ne (s : TxnSys) {i j : Nat} (x : TxnState) (h : j ≠ i) :
    (s.set i x).txns j = s.txns j := Function.update_of_ne h _ _

/-- `cleanup` erases write sets only. -/
def CleansUp (cleanup : TxnManager → TxnManager) : Prop :=
  ∀ m, (cleanup m).waterMark = m.waterMark ∧ (cleanup m).currentTs = m.currentTs

theorem cleansUp_cleanupOldTxns : CleansUp cleanupOldTxns := fun _ => ⟨rfl, rfl⟩

theorem CleansUp.recordCommit {cleanup : TxnManager → TxnManager} (h : CleansUp cleanup) (t : Txn)
    (ts : Nat) (m : TxnManager) : (t.recordCommit cleanup ts m).waterMark = m.waterMark ∧
      (t.recordCommit cleanup ts m).currentTs = m.currentTs := by
  unfold Txn.recordCommit
  split_ifs
  · exact h _
  · exact ⟨rfl, rfl⟩

section

variable {cleanup : TxnManager → TxnManager} {s s' : TxnSys}

/-- Nobody registers or unregisters. -/
theorem Registered.same (h : Registered s)
    (hts : ∀ i, (s'.txns i).registeredTs = (s.txns i).registeredTs)
    (hw : s'.store.manager.waterMark = s.store.manager.waterMark)
    (hl : ∀ i r b, s'.txns i = .loaded r b → r ≤ s'.store.manager.currentTs)
    (hc : s.store.manager.currentTs ≤ s'.store.manager.currentTs) : Registered s' := by
  obtain ⟨ids, hnd, hmem, hcount⟩ := h.counted
  refine ⟨⟨ids, hnd, fun i => by rw [hts]; exact hmem i, fun ts => ?_⟩, hl, fun i t ht => ?_⟩
  · rw [hw, hcount]
    exact List.countP_congr fun i _ => by rw [hts]
  · have hreg := hts i
    rw [ht] at hreg
    cases hs : s.txns i with
    | live t0 =>
      rw [hs] at hreg
      have hr : t.readTs = t0.readTs := Option.some.inj hreg
      exact hr ▸ Nat.le_trans (h.liveLe i t0 hs) hc
    | _ => rw [hs] at hreg; cases hreg

theorem Registered.construct (h : Registered s) {i r : Nat} {b : Bool}
    (hi : (s.txns i).registeredTs = none) (hr : r ≤ s.store.manager.currentTs) :
    Registered (s.construct i r b) := by
  obtain ⟨ids, hnd, hmem, hcount⟩ := h.counted
  have hni : i ∉ ids := fun hm => (hmem i).1 hm hi
  have hne : ∀ j, j ≠ i → (s.construct i r b).txns j = s.txns j := fun j hj => TxnSys.set_ne _ _ hj
  have hself : (s.construct i r b).txns i = .live (.new r b) := TxnSys.set_self _ _ _
  refine ⟨⟨i :: ids, List.nodup_cons.2 ⟨hni, hnd⟩, fun j => ?_, fun ts => ?_⟩, ?_, ?_⟩
  · by_cases hj : j = i
    · subst hj
      rw [hself]
      exact iff_of_true List.mem_cons_self (by simp [TxnState.registeredTs])
    · rw [hne j hj, List.mem_cons, ← hmem j]
      simp [hj]
  · have hw : (s.construct i r b).store.manager.waterMark =
        s.store.manager.waterMark.addReader r := rfl
    have hids : ids.countP (fun j => ((s.construct i r b).txns j).registeredTs = some ts) =
        ids.countP fun j => (s.txns j).registeredTs = some ts :=
      List.countP_congr fun j hj => by rw [hne j fun he => hni (he ▸ hj)]
    rw [hw, WaterMark.count_addReader, hcount, List.countP_cons, hids, hself]
    simp [TxnState.registeredTs, Txn.new, eq_comm]
  · intro j r' b' hj
    by_cases hji : j = i
    · subst hji
      rw [hself] at hj
      cases hj
    · rw [hne j hji] at hj
      exact h.loadedLe j r' b' hj
  · intro j t hj
    by_cases hji : j = i
    · subst hji
      rw [hself] at hj
      cases hj
      exact hr
    · rw [hne j hji] at hj
      exact h.liveLe j t hj

theorem Registered.destroy (h : Registered s) {i : Nat} {t : Txn} (hi : s.txns i = .live t) :
    Registered ((s.setManager (s.store.manager.unregisterReader t.readTs)).set i .destroyed) := by
  obtain ⟨ids, hnd, hmem, hcount⟩ := h.counted
  set s' := (s.setManager (s.store.manager.unregisterReader t.readTs)).set i .destroyed with hs'
  have hne : ∀ j, j ≠ i → s'.txns j = s.txns j := fun j hj => TxnSys.set_ne _ _ hj
  have hself : s'.txns i = .destroyed := TxnSys.set_self _ _ _
  have hin : i ∈ ids := (hmem i).2 (by simp [hi, TxnState.registeredTs])
  refine ⟨⟨ids.erase i, hnd.erase i, fun j => ?_, fun ts => ?_⟩, ?_, ?_⟩
  · by_cases hj : j = i
    · subst hj
      rw [hself]
      exact iff_of_false hnd.not_mem_erase (by simp [TxnState.registeredTs])
    · rw [hne j hj, ← hmem j, List.mem_erase_of_ne hj]
  · have hw : s'.store.manager.waterMark = s.store.manager.waterMark.removeReader t.readTs := rfl
    have hids : (ids.erase i).countP (fun j => (s'.txns j).registeredTs = some ts) =
        (ids.erase i).countP fun j => (s.txns j).registeredTs = some ts :=
      List.countP_congr fun j hj => by rw [hne j fun he => hnd.not_mem_erase (he ▸ hj)]
    rw [hw, WaterMark.count_removeReader, hcount, hids, List.countP_erase]
    congr 1
    simp [hin, hi, TxnState.registeredTs, eq_comm]
  · intro j r' b' hj
    by_cases hji : j = i
    · subst hji
      rw [hself] at hj
      cases hj
    · rw [hne j hji] at hj
      exact h.loadedLe j r' b' hj
  · intro j t' hj
    by_cases hji : j = i
    · subst hji
      rw [hself] at hj
      cases hj
    · rw [hne j hji] at hj
      exact h.liveLe j t' hj

/-- A call keeps the readers registered. -/
theorem Registered.step (hc : CleansUp cleanup) (h : Registered s) (he : TxnEffect cleanup s s') :
    Registered s' := by
  have hreplace : ∀ {i : Nat} {x : TxnState}, x.registeredTs = (s.txns i).registeredTs →
      ∀ j, ((s.set i x).txns j).registeredTs = (s.txns j).registeredTs := by
    intro i x hx j
    by_cases hj : j = i
    · subst hj
      rw [TxnSys.set_self]
      exact hx
    · rw [TxnSys.set_ne s x hj]
  have hloaded : ∀ {i : Nat} {x : TxnState}, (∀ r b, x = .loaded r b →
      r ≤ s.store.manager.currentTs) → ∀ j r b, (s.set i x).txns j = .loaded r b →
      r ≤ s.store.manager.currentTs := by
    intro i x hx j r b hj
    by_cases hji : j = i
    · subst hji
      rw [TxnSys.set_self] at hj
      exact hx r b hj
    · rw [TxnSys.set_ne s x hji] at hj
      exact h.loadedLe j r b hj
  cases he with
  | @loaded i b hi heq =>
    rw [heq]
    refine h.same (hreplace (by rw [hi]; rfl)) rfl (hloaded fun r b' hx => ?_) (Nat.le_refl _)
    cases hx
    exact Nat.le_refl _
  | @constructed i r b hi heq =>
    rw [heq]
    rcases hi with hi | ⟨hi, rfl⟩
    · exact h.construct (by rw [hi]; rfl) (h.loadedLe i r b hi)
    · exact h.construct (by rw [hi]; rfl) (Nat.le_refl _)
  | @changed i t t' hi hr heq =>
    rw [heq]
    exact h.same (hreplace (by rw [hi]; exact congrArg some hr)) rfl
      (hloaded fun r b hx => by cases hx) (Nat.le_refl _)
  | @committed i t t' db hi hr heq =>
    rw [heq]
    obtain ⟨hw, hcur⟩ := hc.recordCommit t (s.store.manager.currentTs + 1)
      { s.store.manager with currentTs := s.store.manager.currentTs + 1 }
    have hle : s.store.manager.currentTs ≤ (t.recordCommit cleanup (s.store.manager.currentTs + 1)
        { s.store.manager with currentTs := s.store.manager.currentTs + 1 }).currentTs := by
      rw [hcur]
      exact Nat.le_succ _
    refine h.same (hreplace (by rw [hi]; exact congrArg some hr)) hw (fun j r b hj => ?_) hle
    exact Nat.le_trans (hloaded (fun r b hx => by cases hx) j r b hj) hle
  | @destroyed i t hi heq =>
    rw [heq]
    exact h.destroy hi

theorem Registered.steps {initialTs : Nat} {db : TxnDb} {es : List TxnEvent}
    (run : Steps TxnStep (.start initialTs db) es s) : Registered s :=
  run.inv (fun _ s => Registered s) (registered_start initialTs db)
    fun _ _ _ _ h hstep => h.step cleansUp_cleanupOldTxns (TxnSys.step_effect hstep)

end

/-! ## The watermark -/

/-- The read timestamp of a transaction that has loaded one and is not destroyed. -/
def TxnState.readTs? : TxnState → Option Nat
  | .loaded readTs _ => some readTs
  | .live t => some t.readTs
  | _ => none

/-- In every state of every run, the watermark is at most the read timestamp of every transaction
that has loaded one and is not destroyed, exactly when each transaction that has not registered
yet has loaded the current clock or is protected by a registered reader that is not newer. -/
theorem getWatermark_le_readTs {initialTs : Nat} {db : TxnDb} {es : List TxnEvent} {s : TxnSys}
    (run : Steps TxnStep (.start initialTs db) es s) :
    (∀ i r, (s.txns i).readTs? = some r → s.store.manager.getWatermark ≤ r) ↔
      ∀ i r b, s.txns i = .loaded r b → s.store.manager.currentTs ≤ r ∨
        ∃ j t, s.txns j = .live t ∧ t.readTs ≤ r := by
  have h := Registered.steps run
  constructor
  · intro hle i r b hi
    have hw := hle i r (by rw [hi]; rfl)
    rcases s.store.manager.getWatermark_cases with hpos | ⟨hclock, -⟩
    · obtain ⟨j, t, hj, ht⟩ := h.count_pos.1 hpos
      exact .inr ⟨j, t, hj, ht ▸ hw⟩
    · exact .inl (hclock ▸ hw)
  · intro hgap i r hi
    cases hs : s.txns i with
    | live t =>
      rw [hs] at hi
      cases hi
      exact TxnManager.getWatermark_le (h.count_pos.2 ⟨i, t, hs, rfl⟩)
    | loaded r' b =>
      rw [hs] at hi
      cases hi
      rcases hgap i r b hs with hle | ⟨j, t, hj, hle⟩
      · rcases s.store.manager.getWatermark_cases with hpos | ⟨hclock, -⟩
        · obtain ⟨j, t, hj, ht⟩ := h.count_pos.1 hpos
          exact ht ▸ Nat.le_trans (h.liveLe j t hj) hle
        · exact hclock ▸ hle
      · exact Nat.le_trans (TxnManager.getWatermark_le (h.count_pos.2 ⟨j, t, hj, rfl⟩)) hle
    | absent => rw [hs] at hi; cases hi
    | destroyed => rw [hs] at hi; cases hi

/-- A transaction loads the clock; another one begins, writes, commits and is destroyed. -/
def gapRun : List TxnEvent :=
  [.load 0 false, .begin 1 false, .write 1 ⟨.insertEdge, 0, 2⟩, .commit 1, .destroy 1]

/-- The state after a run that never throws. -/
def TxnSys.after (es : List TxnEvent) : TxnSys :=
  (runAll (TxnSys.step TxnManager.cleanupOldTxns) (.start 0 smallTxnDb) es).getD
    (.start 0 smallTxnDb)

theorem steps_after {es : List TxnEvent}
    (h : (runAll (TxnSys.step cleanupOldTxns) (.start 0 smallTxnDb) es).isSome = true) :
    Steps TxnStep (.start 0 smallTxnDb) es (.after es) := by
  refine Steps.of_runAll (fun _ _ _ hs => hs) ?_
  unfold TxnSys.after
  obtain ⟨s, hs⟩ := Option.isSome_iff_exists.1 h
  rw [hs]
  rfl

/-- The second transaction has begun: its registration keeps the watermark down. -/
theorem getWatermark_le_readTs_small :
    ((TxnSys.after (gapRun.take 4)).txns 0).readTs? = some 0 ∧
      (TxnSys.after (gapRun.take 4)).store.manager.getWatermark ≤ 0 := by
  refine ⟨rfl, (getWatermark_le_readTs (steps_after (by decide +kernel))).2 (fun i r b _ => .inr ?_)
    0 0 rfl⟩
  exact ⟨1, _, rfl, by exact Nat.zero_le r⟩

/-- After the second one is destroyed, the watermark is the clock, past the loaded timestamp. -/
theorem getWatermark_passes_loaded :
    ¬ ∀ (initialTs : Nat) (db : TxnDb) (es : List TxnEvent) (s : TxnSys),
      Steps TxnStep (.start initialTs db) es s →
      ∀ i r, (s.txns i).readTs? = some r → s.store.manager.getWatermark ≤ r := by
  intro h
  have hle := h 0 smallTxnDb gapRun (.after gapRun) (steps_after (by decide +kernel)) 0 0 rfl
  revert hle
  decide +kernel

/-- No transaction waits to register below the watermark. -/
def NoGap (s : TxnSys) (_ : TxnEvent) : Prop :=
  ∀ i r b, s.txns i = .loaded r b → s.store.manager.getWatermark ≤ r

/-- No call lowers the watermark then. -/
theorem Registered.getWatermark_step {s s' : TxnSys} {e : TxnEvent} (h : Registered s)
    (hok : NoGap s e) (hs : TxnStep s e s') :
    s.store.manager.getWatermark ≤ s'.store.manager.getWatermark := by
  have he := TxnSys.step_effect hs
  have hlive : ∀ i t, s.txns i = .live t → s.store.manager.getWatermark ≤ t.readTs :=
    fun i t hi => getWatermark_le (h.count_pos.2 ⟨i, t, hi, rfl⟩)
  have hclock : s.store.manager.getWatermark ≤ s.store.manager.currentTs := by
    rcases s.store.manager.getWatermark_cases with hpos | ⟨hc, -⟩
    · obtain ⟨i, t, hi, ht⟩ := h.count_pos.1 hpos
      exact ht ▸ h.liveLe i t hi
    · exact Nat.le_of_eq hc
  have hset : ∀ {s0 : TxnSys} {j : Nat} {x : TxnState}, s0.txns = s.txns →
      (∀ t, x = .live t → s.store.manager.getWatermark ≤ t.readTs) →
      ∀ i t, (s0.set j x).txns i = .live t → s.store.manager.getWatermark ≤ t.readTs := by
    intro s0 j x h0 hx i t hi
    by_cases hij : i = j
    · subst hij
      rw [TxnSys.set_self] at hi
      exact hx t hi
    · rw [TxnSys.set_ne _ _ hij, h0] at hi
      exact hlive i t hi
  have hboth : s.store.manager.currentTs ≤ s'.store.manager.currentTs ∧
      ∀ i t, s'.txns i = .live t → s.store.manager.getWatermark ≤ t.readTs := by
    cases he with
    | loaded _ heq =>
      subst heq
      exact ⟨Nat.le_refl _, hset rfl fun t ht => by cases ht⟩
    | @constructed j r b hj heq =>
      subst heq
      refine ⟨Nat.le_refl _, hset rfl fun t ht => ?_⟩
      cases ht
      rcases hj with hj | ⟨-, rfl⟩
      · exact hok j r b hj
      · exact hclock
    | @changed j t t' hj hr heq =>
      subst heq
      refine ⟨Nat.le_refl _, hset rfl fun u hu => ?_⟩
      cases hu
      exact hr ▸ hlive j t hj
    | @committed j t t' db hj hr heq =>
      subst heq
      refine ⟨?_, hset rfl fun u hu => ?_⟩
      · have hcur := (cleansUp_cleanupOldTxns.recordCommit t (s.store.manager.currentTs + 1)
          { s.store.manager with currentTs := s.store.manager.currentTs + 1 }).2
        exact Nat.le_trans (Nat.le_succ _) hcur.ge
      · cases hu
        exact hr ▸ hlive j t hj
    | destroyed _ heq =>
      subst heq
      exact ⟨Nat.le_refl _, hset rfl fun t ht => by cases ht⟩
  rcases s'.store.manager.getWatermark_cases with hpos | ⟨hc, -⟩
  · obtain ⟨i, t, hi, ht⟩ := (h.step cleansUp_cleanupOldTxns he).count_pos.1 hpos
    exact ht ▸ hboth.2 i t hi
  · exact hc ▸ Nat.le_trans hclock hboth.1

/-- From any state of a run, the watermark never falls while nobody waits to register below it. -/
theorem getWatermark_mono {initialTs : Nat} {db : TxnDb} {es es' : List TxnEvent} {s s' : TxnSys}
    (run : Steps TxnStep (.start initialTs db) es s) (run' : Steps (guarded NoGap TxnStep) s es' s') :
    s.store.manager.getWatermark ≤ s'.store.manager.getWatermark := by
  have h := Registered.steps run
  refine (run'.inv (fun _ s' => Registered s' ∧
    s.store.manager.getWatermark ≤ s'.store.manager.getWatermark) ⟨h, Nat.le_refl _⟩ ?_).2
  rintro _ s1 e s2 ⟨h1, hle⟩ ⟨hok, hs⟩
  exact ⟨h1.step cleansUp_cleanupOldTxns (TxnSys.step_effect hs),
    Nat.le_trans hle (h1.getWatermark_step hok hs)⟩

/-- A reader registers the clock it has loaded. -/
theorem getWatermark_mono_small : (TxnSys.after [.load 0 false]).store.manager.getWatermark ≤
    (TxnSys.after [.load 0 false, .register 0]).store.manager.getWatermark := by
  have hstep : TxnStep (.after [.load 0 false]) (.register 0)
      (.after [.load 0 false, .register 0]) := rfl
  refine getWatermark_mono (steps_after (by decide +kernel)) (.cons ⟨fun i r b h => ?_, hstep⟩ .nil)
  by_cases hi : i = 0
  · subst hi
    cases h
    exact Nat.le_refl 0
  · cases h.symm.trans (TxnSys.set_ne _ _ hi)

end BwGraph
