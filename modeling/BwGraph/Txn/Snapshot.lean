import BwGraph.Txn.Txn
import BwGraph.Lib.Run

/-
  Snapshot reads while other transactions commit. `commit` is cut into its steps: take the commit
  lock and check, allocate the timestamp, apply one write, record and release. The clock shows the
  new timestamp from its allocation on, before the writes are in the chains, so a transaction that
  loads the clock in between gets a read timestamp whose records are still to come.

  `getNeighbors_repeatable`: a transaction that loaded the clock while no commit had writes left to
  apply reads the same list of a vertex however often it asks.
-/

namespace BwGraph

open TxnDb

/-- Where a transaction stands. -/
inductive TxnPc where
  | absent
  | loaded (readTs : Nat) (serializable : Bool)
  | live (t : Txn)
  | locked (t : Txn)
  | applying (t : Txn) (commitTs : Nat) (rest : List WriteOpt)
  | destroyed
  deriving DecidableEq

/-- The store, the holder of the commit lock, the transactions by number. -/
structure TxnConc where
  store : TxnStore
  commitLock : Option Nat
  txns : Nat → TxnPc

/-- The steps of all transactions. -/
inductive TxnAction where
  | load (i : Nat) (serializable : Bool)
  | register (i : Nat)
  | getNeighbors (i : Nat) (v : VId)
  | write (i : Nat) (op : WriteOpt)
  | commitEmpty (i : Nat)
  | lockCommit (i : Nat)
  | alloc (i : Nat)
  | apply (i : Nat)
  | release (i : Nat)
  | abort (i : Nat)
  | destroy (i : Nat)
  deriving DecidableEq

namespace TxnConc

/-- No transaction yet. -/
def start (initialTs : Nat) (db : TxnDb) : TxnConc :=
  ⟨⟨.init initialTs, db⟩, none, fun _ => .absent⟩

variable (s : TxnConc)

/-- Transaction `i` moves on. -/
def set (i : Nat) (x : TxnPc) : TxnConc := { s with txns := Function.update s.txns i x }

/-- The manager changes. -/
def setManager (m : TxnManager) : TxnConc := { s with store := { s.store with manager := m } }

/-- The first half of `begin_txn`. -/
def load (i : Nat) (serializable : Bool) : Option TxnConc :=
  match s.txns i with
  | .absent => some (s.set i (.loaded s.store.manager.latestCommitTs serializable))
  | _ => none

/-- The second half of `begin_txn`. -/
def register (i : Nat) : Option TxnConc :=
  match s.txns i with
  | .loaded readTs serializable =>
    some ((s.setManager (s.store.manager.registerReader readTs)).set i
      (.live (.new readTs serializable)))
  | _ => none

/-- A method of a live transaction that leaves the store alone. -/
def onTxn (i : Nat) (f : Txn → Except String Txn) : Option TxnConc :=
  match s.txns i with
  | .live t =>
    match f t with
    | .ok t => some (s.set i (.live t))
    | .error _ => none
  | _ => none

/-- `commit` of a transaction without writes. -/
def commitEmpty (i : Nat) : Option TxnConc :=
  s.onTxn i fun t =>
    if t.committed ∨ t.writeOps ≠ [] then .error Txn.committedError
    else .ok { t with committed := true }

/-- `commit` up to the check, under the lock; a conflict gives the lock back. -/
def lockCommit (i : Nat) : Option TxnConc :=
  match s.txns i, s.commitLock with
  | .live t, none =>
    if t.committed ∨ t.writeOps = [] then none
    else if t.Conflicts s.store.manager then some (s.set i (.live { t with committed := true }))
    else some { s.set i (.locked { t with committed := true }) with commitLock := some i }
  | _, _ => none

/-- `alloc_commit_ts`. -/
def alloc (i : Nat) : Option TxnConc :=
  match s.txns i with
  | .locked t =>
    some ((s.setManager s.store.manager.allocCommitTs.2).set i
      (.applying t s.store.manager.allocCommitTs.1 t.writeOps))
  | _ => none

/-- One round of `apply_writes`. -/
def apply (i : Nat) : Option TxnConc :=
  match s.txns i with
  | .applying t commitTs (op :: rest) =>
    some (TxnConc.set { s with
      store := { s.store with db := (s.store.db.applyWrite t.readTs commitTs op).2 } } i
      (.applying t commitTs rest))
  | _ => none

/-- The end of `commit`. -/
def release (i : Nat) : Option TxnConc :=
  match s.txns i with
  | .applying t commitTs [] =>
    some { (s.setManager (t.recordCommit TxnManager.cleanupOldTxns commitTs s.store.manager)).set i
      (.live t.afterCommit) with commitLock := none }
  | _ => none

/-- `~txn_t`. -/
def destroy (i : Nat) : Option TxnConc :=
  match s.txns i with
  | .live t => some ((s.setManager (s.store.manager.unregisterReader t.readTs)).set i .destroyed)
  | _ => none

/-- One step of one transaction. -/
def step : TxnAction → Option TxnConc
  | .load i serializable => s.load i serializable
  | .register i => s.register i
  | .getNeighbors i v => s.onTxn i fun t => (t.getNeighbors s.store.db v).map Prod.snd
  | .write i op => s.onTxn i fun t => t.bufferWrite op
  | .commitEmpty i => s.commitEmpty i
  | .lockCommit i => s.lockCommit i
  | .alloc i => s.alloc i
  | .apply i => s.apply i
  | .release i => s.release i
  | .abort i => s.onTxn i fun t => .ok t.abort
  | .destroy i => s.destroy i

end TxnConc

/-- The steps of the system. -/
def TxnConcStep (s : TxnConc) (e : TxnAction) (s' : TxnConc) : Prop := s.step e = some s'

/-- No commit has allocated its timestamp and not yet applied all its writes. -/
def TxnConc.NoOpenCommit (s : TxnConc) : Prop :=
  ∀ i t commitTs rest, s.txns i = .applying t commitTs rest → rest = []

/-- The read timestamp of a transaction, while it can be asked for neighbours. -/
def TxnPc.readTs? : TxnPc → Option Nat
  | .loaded readTs _ => some readTs
  | .live t => some t.readTs
  | .locked t => some t.readTs
  | .applying t _ _ => some t.readTs
  | _ => none

/-! ## What a step does to reads -/

/-- Every write still to be applied is of a commit after `r`. -/
structure Ahead (r : Nat) (s : TxnConc) : Prop where
  clock : r ≤ s.store.manager.currentTs
  open_ : ∀ i t commitTs rest, s.txns i = .applying t commitTs rest → rest = [] ∨ r < commitTs

/-- `db'` has the vertices of `db`, with the same lists for a reader at `r`. -/
structure SameReads (r : Nat) (db db' : TxnDb) : Prop where
  size : db.size ≤ db'.size
  read : ∀ v, v < db.size → db'.readNeighborCloneTxn v r = db.readNeighborCloneTxn v r

theorem SameReads.refl (r : Nat) (db : TxnDb) : SameReads r db db := ⟨Nat.le_refl _, fun _ _ => rfl⟩

theorem SameReads.trans {r : Nat} {db db' db'' : TxnDb} (h : SameReads r db db')
    (h' : SameReads r db' db'') : SameReads r db db'' :=
  ⟨Nat.le_trans h.size h'.size,
    fun v hv => (h'.read v (Nat.lt_of_lt_of_le hv h.size)).trans (h.read v hv)⟩

theorem sameReads_appendRecord {r : Nat} (db : TxnDb) {rec : TxnRecord} (h : ¬ rec.Visible r) :
    SameReads r db (db.appendRecord rec) := by
  refine ⟨Nat.le_refl _, fun v _ => readNeighborCloneTxn_congr rfl ?_⟩
  by_cases hv : v = rec.first
  · subst hv
    simp [appendRecord, h]
  · simp [appendRecord, hv]

theorem sameReads_setDelete {r : Nat} (db : TxnDb) (w : VId) (b : Bool) :
    SameReads r db (db.setDelete w b) := by
  refine ⟨Nat.le_refl _, fun v _ => readNeighborCloneTxn_congr ?_ rfl⟩
  by_cases hv : v = w
  · subst hv
    simp [setDelete, baseEdges]
  · simp [setDelete, baseEdges, hv]

/-- A write of a commit after `r` is not seen at `r`. -/
theorem sameReads_applyWrite {r beginTs commitTs : Nat} (hr : r < commitTs) (db : TxnDb)
    (op : WriteOpt) : SameReads r db (db.applyWrite beginTs commitTs op).2 := by
  have hinv : ∀ rec : TxnRecord, rec.commitTs = commitTs → ¬ rec.Visible r := by
    rintro rec rfl ⟨-, -, hle⟩
    exact absurd hle (Nat.not_le.2 hr)
  unfold applyWrite
  cases op.type with
  | insertEdge =>
    simp only [insertEdgeTxn]
    split_ifs
    · exact SameReads.refl r db
    · exact sameReads_appendRecord db (hinv _ rfl)
  | deleteEdge =>
    simp only [deleteEdgeTxn]
    split_ifs
    · exact SameReads.refl r db
    · exact sameReads_appendRecord db (hinv _ rfl)
  | insertVertex =>
    simp only [TxnDb.insertSingleVertex]
    split_ifs
    · exact SameReads.refl r db
    · exact sameReads_setDelete db _ _
    · -- the new vertex is none of the vertices that existed
      refine ⟨Nat.le_succ _, fun v hv => readNeighborCloneTxn_congr ?_ ?_⟩
      · simp [baseEdges, Nat.ne_of_lt hv]
      · simp [Nat.ne_of_lt hv]
  | deleteVertex =>
    simp only [TxnDb.deleteVertex]
    split_ifs
    · exact SameReads.refl r db
    · exact sameReads_setDelete db _ _

/-- What a step of transaction `i`, which leaves it at `y`, does. -/
structure TxnMoves (s s' : TxnConc) (i : Nat) (y : TxnPc) : Prop where
  txns : s'.txns = Function.update s.txns i y
  present : y ≠ .absent
  readTs : y.readTs? = none ∨ y.readTs? = (s.txns i).readTs? ∨ s.txns i = .absent
  clock : s.store.manager.currentTs ≤ s'.store.manager.currentTs
  opens : ∀ t commitTs rest, y = .applying t commitTs rest →
    s.store.manager.currentTs < commitTs ∨ ∃ op, s.txns i = .applying t commitTs (op :: rest)
  db : s'.store.db = s.store.db ∨ ∃ t commitTs op rest, s.txns i = .applying t commitTs (op :: rest) ∧
    s'.store.db = (s.store.db.applyWrite t.readTs commitTs op).2

namespace TxnConc

variable {s s' : TxnConc}

theorem onTxn_moves {i : Nat} {f : Txn → Except String Txn}
    (hf : ∀ t t', f t = .ok t' → t'.readTs = t.readTs) (h : s.onTxn i f = some s') :
    ∃ i y, TxnMoves s s' i y := by
  unfold onTxn at h
  split at h
  · rename_i t ht
    split at h
    · rename_i t' hft
      cases h
      refine ⟨i, .live t', rfl, by simp, .inr (.inl ?_), Nat.le_refl _, by simp, .inl rfl⟩
      rw [ht]
      exact congrArg some (hf t t' hft)
    · cases h
  · cases h

theorem lockCommit_moves {i : Nat} (h : s.lockCommit i = some s') : ∃ i y, TxnMoves s s' i y := by
  unfold lockCommit at h
  split at h
  · rename_i t ht hl
    split_ifs at h
    · cases h
      exact ⟨i, .live { t with committed := true }, rfl, by simp, .inr (.inl (by rw [ht]; rfl)),
        Nat.le_refl _, by simp, .inl rfl⟩
    · cases h
      exact ⟨i, .locked { t with committed := true }, rfl, by simp, .inr (.inl (by rw [ht]; rfl)),
        Nat.le_refl _, by simp, .inl rfl⟩
  · cases h

theorem step_moves {e : TxnAction} (h : s.step e = some s') : ∃ i y, TxnMoves s s' i y := by
  cases e with
  | load i b =>
    simp only [step, load] at h
    split at h
    · rename_i hi
      cases h
      exact ⟨i, .loaded s.store.manager.latestCommitTs b, rfl, by simp, .inr (.inr hi),
        Nat.le_refl _, by simp, .inl rfl⟩
    · cases h
  | register i =>
    simp only [step, register] at h
    split at h
    · rename_i r b hi
      cases h
      exact ⟨i, .live (.new r b), rfl, by simp, .inr (.inl (by rw [hi]; rfl)), Nat.le_refl _,
        by simp, .inl rfl⟩
    · cases h
  | getNeighbors i v =>
    simp only [step] at h
    refine onTxn_moves (fun t t' ht => ?_) h
    unfold Txn.getNeighbors at ht
    split_ifs at ht <;> cases ht <;> rfl
  | write i op =>
    simp only [step] at h
    refine onTxn_moves (fun t t' ht => ?_) h
    unfold Txn.bufferWrite at ht
    split_ifs at ht <;> cases ht <;> rfl
  | commitEmpty i =>
    simp only [step, commitEmpty] at h
    refine onTxn_moves (fun t t' ht => ?_) h
    split_ifs at ht
    cases ht
    rfl
  | lockCommit i =>
    simp only [step] at h
    exact lockCommit_moves h
  | alloc i =>
    simp only [step, alloc] at h
    split at h
    · rename_i t hi
      cases h
      refine ⟨i, .applying t s.store.manager.allocCommitTs.1 t.writeOps, rfl, by simp,
        .inr (.inl (by rw [hi]; rfl)), Nat.le_succ _, ?_, .inl rfl⟩
      intro t' cts rest he
      cases he
      exact .inl (Nat.lt_succ_self _)
    · cases h
  | apply i =>
    simp only [step, apply] at h
    split at h
    · rename_i t cts op rest hi
      cases h
      refine ⟨i, .applying t cts rest, rfl, by simp, .inr (.inl (by rw [hi]; rfl)), Nat.le_refl _, ?_,
        .inr ⟨t, cts, op, rest, hi, rfl⟩⟩
      intro t' cts' rest' he
      cases he
      exact .inr ⟨op, hi⟩
    · cases h
  | release i =>
    simp only [step, release] at h
    split at h
    · rename_i t cts hi
      cases h
      refine ⟨i, .live t.afterCommit, rfl, by simp, .inr (.inl (by rw [hi]; rfl)), ?_, by simp,
        .inl rfl⟩
      show s.store.manager.currentTs ≤ (t.recordCommit _ cts s.store.manager).currentTs
      unfold Txn.recordCommit
      split_ifs
      · exact Nat.le_refl _
      · exact Nat.le_refl _
    · cases h
  | abort i =>
    simp only [step] at h
    refine onTxn_moves (f := fun t => .ok t.abort) (fun t t' ht => ?_) h
    cases ht
    unfold Txn.abort
    split_ifs <;> rfl
  | destroy i =>
    simp only [step, destroy] at h
    split at h
    · cases h
      exact ⟨i, .destroyed, rfl, by simp, .inl rfl, Nat.le_refl _, by simp, .inl rfl⟩
    · cases h

end TxnConc

variable {s s' : TxnConc} {r : Nat}

theorem Ahead.step (h : Ahead r s) {e : TxnAction} (hs : TxnConcStep s e s') :
    Ahead r s' ∧ SameReads r s.store.db s'.store.db := by
  obtain ⟨i, y, hm⟩ := TxnConc.step_moves hs
  refine ⟨⟨Nat.le_trans h.clock hm.clock, fun j t cts rest hj => ?_⟩, ?_⟩
  · rw [hm.txns] at hj
    by_cases hji : j = i
    · subst hji
      rw [Function.update_self] at hj
      rcases hm.opens t cts rest hj with hlt | ⟨op, hop⟩
      · exact .inr (Nat.lt_of_le_of_lt h.clock hlt)
      · exact .inr ((h.open_ j t cts _ hop).resolve_left (by simp))
    · rw [Function.update_of_ne hji] at hj
      exact h.open_ j t cts rest hj
  · rcases hm.db with hdb | ⟨t, cts, op, rest, hi, hdb⟩
    · rw [hdb]
      exact SameReads.refl r _
    · rw [hdb]
      exact sameReads_applyWrite ((h.open_ i t cts _ hi).resolve_left (by simp)) _ op

variable {es : List TxnAction}

/-- Along a run nothing that a reader at `r` sees changes. -/
theorem Ahead.steps (h : Ahead r s) (run : Steps TxnConcStep s es s') :
    Ahead r s' ∧ SameReads r s.store.db s'.store.db :=
  run.inv (fun _ s' => Ahead r s' ∧ SameReads r s.store.db s'.store.db) ⟨h, SameReads.refl r _⟩
    fun _ _ _ _ hi hstep => ⟨(hi.1.step hstep).1, hi.2.trans (hi.1.step hstep).2⟩

/-- A transaction that owns the read timestamp `r` never gets another one. -/
theorem readTs_steps {i : Nat} (run : Steps TxnConcStep s es s') (h : (s.txns i).readTs? = some r)
    {t : Txn} (ht : s'.txns i = .live t) : t.readTs = r := by
  have hinv := run.inv
    (fun _ s' => s'.txns i ≠ .absent ∧ ∀ r', (s'.txns i).readTs? = some r' → r' = r)
    ⟨fun hc => (by rw [hc] at h; cases h), fun r' hr => Option.some.inj (hr.symm.trans h)⟩
    fun _ s1 _ s2 hi hstep => by
      obtain ⟨j, y, hm⟩ := TxnConc.step_moves hstep
      rw [hm.txns]
      by_cases hij : i = j
      · subst hij
        rw [Function.update_self]
        refine ⟨hm.present, fun r' hr => ?_⟩
        rcases hm.readTs with hn | hsame | habs
        · rw [hn] at hr
          cases hr
        · exact hi.2 r' (hsame ▸ hr)
        · exact absurd habs hi.1
      · rw [Function.update_of_ne hij]
        exact hi
  exact hinv.2 t.readTs (by rw [ht]; rfl)

/-- A transaction that loaded its read timestamp while no commit was between its allocation and
its last write reads the same neighbours of a vertex at any two later points of its life. -/
theorem getNeighbors_repeatable {es1 es2 : List TxnAction} {s0 s1 s2 s3 : TxnConc} {i : Nat}
    {b : Bool} (hopen : s0.NoOpenCommit) (hload : TxnConcStep s0 (.load i b) s1)
    (run1 : Steps TxnConcStep s1 es1 s2) (run2 : Steps TxnConcStep s2 es2 s3) {t t' : Txn}
    (ht : s2.txns i = .live t) (ht' : s3.txns i = .live t') {v : VId} (hv : v < s2.store.db.size) :
    s3.store.db.readNeighborCloneTxn v t'.readTs = s2.store.db.readNeighborCloneTxn v t.readTs := by
  have hahead : Ahead s0.store.manager.currentTs s0 :=
    ⟨Nat.le_refl _, fun j u cts rest hj => .inl (hopen j u cts rest hj)⟩
  have hr1 : (s1.txns i).readTs? = some s0.store.manager.currentTs := by
    have hl : s0.load i b = some s1 := hload
    unfold TxnConc.load at hl
    split at hl
    · cases hl
      simp [TxnConc.set, TxnPc.readTs?, TxnManager.latestCommitTs]
    · cases hl
  have hr2 : t.readTs = s0.store.manager.currentTs := readTs_steps run1 hr1 ht
  have hr3 : t'.readTs = s0.store.manager.currentTs :=
    readTs_steps run2 (by rw [ht]; exact congrArg some hr2) ht'
  have h2 := ((hahead.step hload).1.steps run1).1
  rw [hr2, hr3]
  exact (h2.steps run2).2.read v hv

/-- The state after some steps on the small database. -/
def TxnConc.after (es : List TxnAction) : TxnConc :=
  (runAll TxnConc.step (.start 0 smallTxnDb) es).getD (.start 0 smallTxnDb)

theorem steps_after_conc (es es' : List TxnAction)
    (h : (runAll TxnConc.step (.start 0 smallTxnDb) (es ++ es')).isSome = true) :
    Steps TxnConcStep (.after es) es' (.after (es ++ es')) := by
  obtain ⟨s', hs'⟩ := Option.isSome_iff_exists.1 h
  have hsplit := hs'
  rw [runAll_append] at hsplit
  obtain ⟨s, hs, hrest⟩ := Option.bind_eq_some_iff.1 hsplit
  unfold TxnConc.after
  rw [hs, hs']
  exact Steps.of_runAll (fun _ _ _ hs => hs) hrest

/-- A transaction inserts the edge from 0 to 2, up to the allocation of its timestamp. -/
def openCommit : List TxnAction :=
  [.load 0 false, .register 0, .write 0 ⟨.insertEdge, 0, 2⟩, .lockCommit 0, .alloc 0]

/-- ... and its end. -/
def closeCommit : List TxnAction := [.apply 0, .release 0]

/-- The transaction 1 begins before the commit and asks before and after it. -/
theorem getNeighbors_repeatable_small :
    (TxnConc.after ([.load 1 false, .register 1] ++
      (openCommit ++ closeCommit))).store.db.readNeighborCloneTxn 0 0 =
      (TxnConc.after [.load 1 false, .register 1]).store.db.readNeighborCloneTxn 0 0 := by
  have hopen : (TxnConc.start 0 smallTxnDb).NoOpenCommit := fun _ _ _ _ h => by cases h
  have hload : TxnConcStep (.start 0 smallTxnDb) (.load 1 false) (.after [.load 1 false]) := rfl
  exact getNeighbors_repeatable hopen hload
    (steps_after_conc [.load 1 false] [.register 1] (by decide +kernel))
    (steps_after_conc [.load 1 false, .register 1] (openCommit ++ closeCommit) (by decide +kernel))
    (show _ = TxnPc.live (.new 0 false) by decide +kernel)
    (show _ = TxnPc.live (.new 0 false) by decide +kernel) (by decide +kernel)

/-- The transaction 1 begins between the allocation and the write: the neighbour 2 appears. -/
theorem getNeighbors_sees_half_commit :
    ¬ ∀ (initialTs : Nat) (db : TxnDb) (es es' : List TxnAction) (s s' : TxnConc),
      Steps TxnConcStep (.start initialTs db) es s → Steps TxnConcStep s es' s' →
      ∀ (i : Nat) (t t' : Txn), s.txns i = .live t → s'.txns i = .live t' →
      ∀ v, v < s.store.db.size →
        {d | d ∈ s'.store.db.readNeighborCloneTxn v t'.readTs} =
          {d | d ∈ s.store.db.readNeighborCloneTxn v t.readTs} := by
  intro h
  have hset := h 0 smallTxnDb _ _ _ _
    (steps_after_conc [] (openCommit ++ [.load 1 false, .register 1]) (by decide +kernel))
    (steps_after_conc (openCommit ++ [.load 1 false, .register 1]) closeCommit
      (by decide +kernel)) 1 (.new 1 false) (.new 1 false)
    (by decide +kernel) (by decide +kernel) 0 (by decide +kernel)
  have hmem := Set.ext_iff.1 hset 2
  revert hmem
  simp only [Set.mem_ofPred_eq]
  decide +kernel

end BwGraph
