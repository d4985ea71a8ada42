import BwGraph.Txn.Consolidation
import BwGraph.Db.Reopen

/-
  `close` and `open` of the transaction build (`db_build.cc`). A close writes the CSR pages with
  their timestamp arrays, the delta pages with the commit timestamp of every record, the vertex
  index with the heads of the delta chains, and leaves the giant and the property store in RocksDB.
  An open reads all of it back, but the constructor calls `init_txn_manager(0)`: the clock starts
  again at 0 while the timestamps in the files do not.

  A history is any number of sessions with any calls, consolidations and recyclings
  (`SessionStep`), and a log of the writes that commits have applied. The first transaction after
  an open reads at timestamp 0, so it sees no delta record and no base edge with a timestamp
  (`mem_readNeighborCloneTxn_zero`). It returns the inserted edges and none of the deleted ones
  exactly when the timestamp-free base lists already show what the log says
  (`getNeighbors_reopened`).
-/

namespace BwGraph

open TxnSys

/-! ## The files -/

/-- What a close leaves behind. The page map and the transaction manager are not saved. -/
structure TxnFiles where
  size : Nat
  items : VId → TxnItem
  chain : VId → List TxnRecord
  pages : PageNo → List TxnEntry
  giants : VId → Option (List VId)
  edgeTs : VId → VId → Option Nat

/-- `close`. -/
def closeTxnDb (db : TxnDb) : TxnFiles :=
  ⟨db.size, db.items, db.chain, db.pages, db.giants, db.edgeTs⟩

/-- `open`, up to the transaction manager. -/
def openTxnDb (files : TxnFiles) : TxnDb where
  size := files.size
  items := files.items
  chain := files.chain
  pending := fun _ => []
  pages := files.pages
  giants := files.giants
  edgeTs := files.edgeTs

/-- A read at timestamp 0 sees no delta record, and of the base list the edges without a
timestamp. -/
theorem mem_readNeighborCloneTxn_zero {db : TxnDb} {v d : VId} :
    d ∈ db.readNeighborCloneTxn v 0 ↔ (d, 0) ∈ db.baseEdges v := by
  have hseen : ∀ type, ¬ db.Seen v 0 type d := by
    rintro type ⟨rec, -, ⟨-, hne, hle⟩, -⟩
    exact hne (Nat.le_zero.1 hle)
  rw [TxnDb.mem_readNeighborCloneTxn]
  constructor
  · rintro ⟨⟨⟨d', ts⟩, he, rfl, hts⟩ | h, -⟩
    · have h0 : ts = 0 := by
        simp only [Nat.le_zero, or_self] at hts
        exact hts
      exact h0 ▸ he
    · exact absurd h (hseen _)
  · intro he
    exact ⟨.inl ⟨_, he, rfl, .inl rfl⟩, hseen _⟩

/-! ## Sessions -/

/-- The writes among `ops` that `apply_writes` does not skip. -/
def TxnDb.acceptedWrites (beginTs commitTs : Nat) (db : TxnDb) (ops : List WriteOpt) :
    List WriteOpt :=
  ((ops.zip (db.writeFlags beginTs commitTs ops)).filter Prod.snd).map Prod.fst

/-- The writes that an event applies: those of a commit that gets past its check. -/
def SmoSys.applied (s : SmoSys) : SmoEvent → List WriteOpt
  | .call (.commit i) =>
    match s.sys.txns i with
    | .live t =>
      if t.Conflicts s.sys.store.manager then []
      else s.db.acceptedWrites t.readTs s.sys.store.manager.allocCommitTs.1 t.writeOps
    | _ => []
  | _ => []

/-- The database with the log of all applied writes, oldest first. -/
structure Session where
  smo : SmoSys
  log : List WriteOpt

/-- What happens to a database over several sessions. -/
inductive SessionEvent where
  | run (e : SmoEvent)
  | reopen (fileSize : Nat)

namespace Session

/-- A database that has just been built. -/
def start (db : TxnDb) (disk : DiskManager) : Session := ⟨.start 0 db disk, []⟩

/-- `close` and `open`: the log is that of the caller, the clock is 0 again. -/
def reopen (cfg : Config) (s : Session) (fileSize : Nat) : Session :=
  ⟨.start 0 (openTxnDb (closeTxnDb s.smo.db))
    (.openFile cfg.pageSize fileSize fun q => s.smo.db.pages q ≠ []), s.log⟩

/-- One event. -/
def step (cfg : Config) (s : Session) : SessionEvent → Option Session
  | .run e => (s.smo.step cfg e).map fun smo => ⟨smo, s.log ++ s.smo.applied e⟩
  | .reopen fileSize => some (s.reopen cfg fileSize)

end Session

/-- The steps of a history. -/
def SessionStep (cfg : Config) (s : Session) (e : SessionEvent) (s' : Session) : Prop :=
  s.step cfg e = some s'

/-- The type of the last write of the edge (v, d). -/
def lastWrite (log : List WriteOpt) (v d : VId) : Option WriteOpsType :=
  (log.reverse.find? fun op => (op.type = .insertEdge ∨ op.type = .deleteEdge) ∧
    op.src = v ∧ op.dst = d).map WriteOpt.type

namespace Session

/-- In a transaction that begins now, `get_neighbors` returns every edge whose last committed
operation was an insertion and none whose last one was a deletion. -/
def ReadsLog (s : Session) : Prop :=
  ∀ (serializable : Bool) (v : VId), ∃ nbrs t',
    (Txn.new s.smo.sys.store.manager.latestCommitTs serializable).getNeighbors s.smo.db v =
      .ok (nbrs, t') ∧
    ∀ d, (lastWrite s.log v d = some .insertEdge → d ∈ nbrs) ∧
      (lastWrite s.log v d = some .deleteEdge → d ∉ nbrs)

/-- Of the edges in the log, the base lists have exactly the inserted ones without a timestamp. -/
def Untimed (s : Session) : Prop :=
  ∀ v d, (lastWrite s.log v d = some .insertEdge → (d, 0) ∈ s.smo.db.baseEdges v) ∧
    (lastWrite s.log v d = some .deleteEdge → (d, 0) ∉ s.smo.db.baseEdges v)

theorem getNeighbors_new (db : TxnDb) (readTs : Nat) (serializable : Bool) (v : VId) :
    ∃ t', (Txn.new readTs serializable).getNeighbors db v =
      .ok (db.readNeighborCloneTxn v readTs, t') := ⟨_, rfl⟩

/-- A state with the clock at 0. -/
theorem readsLog_iff {s : Session} (h0 : s.smo.sys.store.manager.latestCommitTs = 0) :
    s.ReadsLog ↔ s.Untimed := by
  constructor
  · intro h v d
    obtain ⟨nbrs, t', hn, hlog⟩ := h false v
    obtain ⟨t'', hr⟩ := getNeighbors_new s.smo.db s.smo.sys.store.manager.latestCommitTs false v
    rw [hr] at hn
    cases hn
    rw [h0] at hlog
    exact ⟨fun hi => mem_readNeighborCloneTxn_zero.1 ((hlog d).1 hi),
      fun hd hm => (hlog d).2 hd (mem_readNeighborCloneTxn_zero.2 hm)⟩
  · intro h serializable v
    obtain ⟨t', hr⟩ := getNeighbors_new s.smo.db s.smo.sys.store.manager.latestCommitTs
      serializable v
    refine ⟨_, t', hr, fun d => ?_⟩
    rw [h0]
    exact ⟨fun hi => mem_readNeighborCloneTxn_zero.2 ((h v d).1 hi),
      fun hd hm => (h v d).2 hd (mem_readNeighborCloneTxn_zero.1 hm)⟩

end Session

/-! ## What commits leave to a reader at timestamp 0 -/

section

variable {cfg : Config} {db : TxnDb} {disk : DiskManager}

/-- Only a commit changes the database, and its records carry a positive timestamp. -/
theorem sameReads_call {s s' : TxnSys} {e : TxnEvent} (h : TxnStep s e s') :
    SameReads 0 s.store.db s'.store.db := by
  have hon : ∀ {i : Nat} {f : Txn → Except String Txn}, s.onTxn i f = some s' →
      SameReads 0 s.store.db s'.store.db := by
    intro i f hf
    obtain ⟨t, t', -, -, rfl⟩ := onTxn_cases hf
    exact SameReads.refl _ _
  unfold TxnStep at h
  cases e with
  | load i b =>
    simp only [step, load] at h
    split at h <;> cases h
    exact SameReads.refl _ _
  | register i =>
    simp only [step, register] at h
    split at h <;> cases h
    exact SameReads.refl _ _
  | begin i b =>
    simp only [step, begin] at h
    split at h <;> cases h
    exact SameReads.refl _ _
  | getNeighbors i v => exact hon h
  | write i op => exact hon h
  | commit i =>
    simp only [step, commit] at h
    split at h
    · rename_i t ht
      split at h
      · rename_i ok t' st hc
        cases h
        obtain ⟨-, ⟨-, -, -, rfl⟩ | ⟨-, -, -, -, rfl⟩ | ⟨-, -, -, -, rfl⟩⟩ :=
          Txn.commitWith_cases hc
        · exact SameReads.refl _ _
        · exact SameReads.refl _ _
        · exact sameReads_applyWrites (Nat.succ_pos _) _ _ _
      · cases h
    · cases h
  | abort i => exact hon (f := fun t => .ok t.abort) h
  | destroy i =>
    simp only [step, destroy] at h
    split at h <;> cases h
    exact SameReads.refl _ _

/-- The event is no consolidation. -/
def SessionEvent.Unmerged : SessionEvent → Prop
  | .run (.consolidate _ _) => False
  | _ => True

theorem sameReads_step {s s' : Session} {e : SessionEvent} (he : e.Unmerged)
    (h : SessionStep cfg s e s') : SameReads 0 s.smo.db s'.smo.db := by
  cases e with
  | reopen fileSize =>
    cases h
    exact ⟨Nat.le_refl _, fun _ _ => rfl⟩
  | run e =>
    obtain ⟨smo, hsmo, rfl⟩ := Option.map_eq_some_iff.1 h
    cases e with
    | call c =>
      obtain ⟨sys, hsys, rfl⟩ := Option.map_eq_some_iff.1 hsmo
      exact sameReads_call hsys
    | consolidate env p => exact absurd he id
    | recycle p =>
      simp only [SmoSys.step] at hsmo
      split_ifs at hsmo
      cases hsmo
      exact SameReads.refl _ _

/-- Without a consolidation, a reader at timestamp 0 has the loaded lists for ever. -/
theorem sameReads_unmerged {es : List SessionEvent} {s : Session}
    (run : Steps (SessionStep cfg) (.start db disk) es s) (hes : ∀ e ∈ es, e.Unmerged) :
    SameReads 0 db s.smo.db := by
  refine run.inv (fun es s => (∀ e ∈ es, e.Unmerged) → SameReads 0 db s.smo.db)
    (fun _ => SameReads.refl 0 db) (fun es s e s' ih hs hes => ?_) hes
  rw [List.forall_mem_append, List.forall_mem_singleton] at hes
  exact (ih hes.1).trans (sameReads_step hes.2 hs)

/-- In every history, the first transaction after a close and an open reads what the log of
committed writes says exactly when the closed database had it in its base lists without any
timestamp. Only a consolidation can bring it there: in a history without one these edges are those
that were loaded. -/
theorem getNeighbors_reopened {es : List SessionEvent} {s s' : Session}
    (run : Steps (SessionStep cfg) (.start db disk) es s) {fileSize : Nat}
    (h : SessionStep cfg s (.reopen fileSize) s') :
    (s'.ReadsLog ↔ s.Untimed) ∧
      ((∀ e ∈ es, e.Unmerged) → ∀ v < db.size, ∀ d,
        (d, 0) ∈ s.smo.db.baseEdges v ↔ (d, 0) ∈ db.baseEdges v) := by
  cases h
  refine ⟨Session.readsLog_iff rfl, fun hes v hv d => ?_⟩
  rw [← mem_readNeighborCloneTxn_zero, ← mem_readNeighborCloneTxn_zero,
    (sameReads_unmerged run hes).read v hv]

end

/-! ## Two histories of three vertices -/

/-- The state after a run of `smallTxnDb`. -/
def Session.after (es : List SessionEvent) : Session :=
  (runAll (Session.step txnCfg) (.start smallTxnDb smallDisk) es).getD (.start smallTxnDb smallDisk)

theorem steps_after_session {es : List SessionEvent}
    (h : (runAll (Session.step txnCfg) (.start smallTxnDb smallDisk) es).isSome = true) :
    Steps (SessionStep txnCfg) (.start smallTxnDb smallDisk) es (.after es) := by
  refine Steps.of_runAll (fun _ _ _ hs => hs) ?_
  unfold Session.after
  obtain ⟨s, hs⟩ := Option.isSome_iff_exists.1 h
  rw [hs]
  rfl

/-- Edge (0, 1) of the loaded graph is deleted and the deletion merged; edge (1, 2), which is not
in the graph, is deleted too. -/
def mergedDeletion : List SessionEvent :=
  (writeTxn 0 .deleteEdge 0 1 ++ writeTxn 1 .deleteEdge 1 2 ++
    [SmoEvent.consolidate .smooth 0]).map .run

/-- The edges in a log. -/
def loggedEdges (log : List WriteOpt) : List (VId × VId) := log.map fun op => (op.src, op.dst)

theorem lastWrite_eq_none {log : List WriteOpt} {v d : VId} (h : (v, d) ∉ loggedEdges log) :
    lastWrite log v d = none := by
  unfold lastWrite
  rw [Option.map_eq_none_iff, List.find?_eq_none]
  intro op hop hc
  simp only [decide_eq_true_eq] at hc
  exact h (List.mem_map.2 ⟨op, List.mem_reverse.1 hop, by rw [hc.2.1, hc.2.2]⟩)

/-- Both deletions are kept: the first one has left the base list, the second one had nothing to
remove. -/
theorem getNeighbors_reopened_merged :
    ((Session.after mergedDeletion).reopen txnCfg 8192).ReadsLog := by
  have run : Steps (SessionStep txnCfg) (.start smallTxnDb smallDisk) mergedDeletion
      (.after mergedDeletion) := steps_after_session (by decide +kernel)
  have hstep : SessionStep txnCfg (.after mergedDeletion) (.reopen 8192)
      ((Session.after mergedDeletion).reopen txnCfg 8192) := rfl
  refine (getNeighbors_reopened run hstep).1.2 fun v d => ?_
  have hlog : loggedEdges (Session.after mergedDeletion).log = [(0, 1), (1, 2)] := by
    decide +kernel
  have hw : lastWrite (Session.after mergedDeletion).log 0 1 = some .deleteEdge ∧
      lastWrite (Session.after mergedDeletion).log 1 2 = some .deleteEdge := by decide +kernel
  have hb : (1, 0) ∉ (Session.after mergedDeletion).smo.db.baseEdges 0 ∧
      (2, 0) ∉ (Session.after mergedDeletion).smo.db.baseEdges 1 := by decide +kernel
  by_cases hm : (v, d) ∈ loggedEdges (Session.after mergedDeletion).log
  · simp only [hlog, List.mem_cons, Prod.mk.injEq, List.not_mem_nil, or_false] at hm
    rcases hm with ⟨rfl, rfl⟩ | ⟨rfl, rfl⟩
    · exact ⟨fun h => absurd (hw.1.symm.trans h) (by decide), fun _ => hb.1⟩
    · exact ⟨fun h => absurd (hw.2.symm.trans h) (by decide), fun _ => hb.2⟩
  · rw [lastWrite_eq_none hm]
    exact ⟨fun h => (by cases h), fun h => (by cases h)⟩

/-- One committed insertion. -/
def committedInsertion : List SessionEvent := (writeTxn 0 .insertEdge 0 2).map .run

/-- The record of (0, 2) is in the files with timestamp 1, and the new clock is 0: the edge is not
returned. -/
theorem getNeighbors_reopened_loses :
    ¬ ∀ (cfg : Config) (db : TxnDb) (disk : DiskManager), TxnLoaded 0 db disk →
      ∀ (es : List SessionEvent) (s : Session), Steps (SessionStep cfg) (.start db disk) es s →
      ∀ (fileSize : Nat) (s' : Session), SessionStep cfg s (.reopen fileSize) s' → s'.ReadsLog := by
  intro h
  have run : Steps (SessionStep txnCfg) (.start smallTxnDb smallDisk) committedInsertion
      (.after committedInsertion) := steps_after_session (by decide +kernel)
  obtain ⟨nbrs, t', hn, hlog⟩ := h txnCfg smallTxnDb smallDisk txnLoaded_small _ _ run 4096 _ rfl
    false 0
  have hmem : 2 ∈ nbrs := (hlog 2).1 (by decide +kernel)
  have hread : (Txn.new 0 false).getNeighbors
      ((Session.after committedInsertion).reopen txnCfg 4096).smo.db 0 =
        .ok ([1], Txn.new 0 false) := by decide +kernel
  have hclock : ((Session.after committedInsertion).reopen txnCfg
      4096).smo.sys.store.manager.latestCommitTs = 0 := rfl
  rw [hclock, hread] at hn
  cases hn
  revert hmem
  decide

end BwGraph
