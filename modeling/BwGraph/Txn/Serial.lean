import BwGraph.Txn.Cleanup
import BwGraph.Txn.Snapshot

/-
  Serializability. A history is a run together with what its calls returned; it is serializable
  when the calls of the committed transactions, executed one transaction after another in some
  order, return the same (`Serializable`).

  Updating transactions are ordered by their commits and a read-only one goes behind the commit
  whose timestamp it reads at. That works when the check of `commit` sees every record that is
  newer than the snapshot of the transaction and of a vertex it has read (`Detected`). The check
  compares hashes of vertex keys with hashes of edge keys, so it sees an edge to vertex 0, whose
  key is that of its source, and hash collisions, but no other edge.

  Without any condition the store is what the commits alone make of it, one after another
  (`store_replays`).
-/

namespace BwGraph

open List TxnSys TxnDb

/-! ## Histories -/

/-- What a call returned. -/
inductive TxnResult where
  | none
  | neighbors (result : List VId)
  | committed (ok : Bool)
  deriving DecidableEq

/-- The result of a call that does not throw. -/
def TxnSys.result (s : TxnSys) : TxnEvent → TxnResult
  | .getNeighbors i v =>
    match s.txns i with
    | .live t => .neighbors (s.store.db.readNeighborCloneTxn v t.readTs)
    | _ => .none
  | .commit i =>
    match s.txns i with
    | .live t =>
      match t.commit s.store with
      | .ok (ok, _, _) => .committed ok
      | .error _ => .none
    | _ => .none
  | _ => .none

/-- A call and its result. -/
abbrev TxnCall := TxnEvent × TxnResult

/-- One call with its result. -/
def TxnCallStep (s : TxnSys) (c : TxnCall) (s' : TxnSys) : Prop :=
  TxnStep s c.1 s' ∧ c.2 = s.result c.1

/-- The transaction a call belongs to. -/
def TxnEvent.txn : TxnEvent → Nat
  | .load i _ | .register i | .begin i _ | .getNeighbors i _ | .write i _ | .commit i | .abort i
  | .destroy i => i

/-- The calls that make a transaction up to its commit. -/
def TxnEvent.ofBody : TxnEvent → Bool
  | .begin _ _ | .getNeighbors _ _ | .write _ _ | .commit _ => true
  | _ => false

/-- The calls of transaction `i` up to its commit, in their order. -/
def callsOf (i : Nat) (h : List TxnCall) : List TxnCall :=
  h.filter fun c => c.1.txn = i && c.1.ofBody

/-- The transaction committed. -/
def CommittedIn (h : List TxnCall) (i : Nat) : Prop := (.commit i, .committed true) ∈ h

/-- The committed transactions can be executed one after another with the same results. -/
def Serializable (initialTs : Nat) (db : TxnDb) (h : List TxnCall) : Prop :=
  ∃ order : List Nat, order.Nodup ∧ (∀ i, i ∈ order ↔ CommittedIn h i) ∧
    ∃ s, Steps TxnCallStep (.start initialTs db) (order.flatMap fun i => callsOf i h) s

/-- The histories considered: serializable transactions with an atomic begin, which read existing
vertices and insert and delete edges. -/
def InScope (s : TxnSys) : TxnEvent → Prop
  | .load _ _ => False
  | .register _ => False
  | .begin _ serializable => serializable = true
  | .getNeighbors _ v => v < s.store.db.size
  | .write _ op => op.type = .insertEdge ∨ op.type = .deleteEdge
  | _ => True

/-- When a transaction that writes commits, the check can see every record newer than its snapshot
of a vertex that it has read: the hash of the edge is among the hashes it has read. -/
def Detected (s : TxnSys) : TxnEvent → Prop
  | .commit i => ∀ t, s.txns i = .live t → t.writeOps ≠ [] →
      ∀ v, computeKeyHash v 0 ∈ t.readSetHashes → ∀ rec ∈ s.store.db.chain v,
        t.readTs < rec.commitTs → computeKeyHash v rec.second ∈ t.readSetHashes
  | _ => True

/-- No timestamp of the loaded database is ahead of the clock. -/
structure Opened (initialTs : Nat) (db : TxnDb) : Prop where
  base : ∀ v, ∀ e ∈ db.baseEdges v, e.2 ≤ initialTs
  chain : ∀ v, ∀ rec ∈ db.chain v, rec.commitTs ≤ initialTs

/-! ## Databases up to begin timestamps -/

/-- The record without its begin timestamp, which nothing reads. -/
def TxnRecord.forget (rec : TxnRecord) : TxnRecord := { rec with beginTs := 0 }

/-- The databases differ in begin timestamps and pending records only. -/
structure Agree (db db' : TxnDb) : Prop where
  size : db'.size = db.size
  items : db'.items = db.items
  chain : ∀ v, (db'.chain v).map TxnRecord.forget = (db.chain v).map TxnRecord.forget
  pages : db'.pages = db.pages
  giants : db'.giants = db.giants
  edgeTs : db'.edgeTs = db.edgeTs

theorem Agree.refl (db : TxnDb) : Agree db db := ⟨rfl, rfl, fun _ => rfl, rfl, rfl, rfl⟩

variable {db db' : TxnDb}

theorem Agree.baseEdges (h : Agree db db') (v : VId) : db'.baseEdges v = db.baseEdges v := by
  unfold TxnDb.baseEdges
  rw [h.items, h.pages, h.giants, h.edgeTs]

theorem scan_forget (readTs : Nat) (recs : List TxnRecord) (scan : TxnDb.Scan) :
    (recs.map TxnRecord.forget).foldl (TxnDb.Scan.visit readTs) scan =
      recs.foldl (TxnDb.Scan.visit readTs) scan := by
  induction recs generalizing scan with
  | nil => rfl
  | cons rec recs ih =>
    rw [map_cons, foldl_cons, foldl_cons, ih]
    rfl

theorem Agree.read {db db' : TxnDb} (h : Agree db db') (v : VId) (readTs : Nat) :
    db'.readNeighborCloneTxn v readTs = db.readNeighborCloneTxn v readTs := by
  unfold readNeighborCloneTxn TxnDb.scanChain
  rw [h.baseEdges, ← scan_forget readTs (db'.chain v), h.chain, scan_forget]

theorem Agree.appendRecord (h : Agree db db') {rec rec' : TxnRecord}
    (hrec : rec'.forget = rec.forget) : Agree (db.appendRecord rec) (db'.appendRecord rec') := by
  have hfirst : rec'.forget.first = rec.forget.first := by rw [hrec]
  have hfirst : rec'.first = rec.first := hfirst
  refine ⟨h.size, h.items, fun v => ?_, h.pages, h.giants, h.edgeTs⟩
  by_cases hv : v = rec.first
  · subst hv
    simp [TxnDb.appendRecord, hfirst, hrec, h.chain]
  · simp [TxnDb.appendRecord, hfirst, hv, h.chain]

theorem Agree.setDelete (h : Agree db db') (v : VId) (b : Bool) :
    Agree (db.setDelete v b) (db'.setDelete v b) :=
  ⟨h.size, by rw [TxnDb.setDelete, h.items]; rfl, h.chain, h.pages, h.giants, h.edgeTs⟩

/-- A write does the same to both, whatever the begin timestamps. -/
theorem Agree.applyWrite (h : Agree db db') (op : WriteOpt) (b b' c : Nat) :
    Agree (db.applyWrite b c op).2 (db'.applyWrite b' c op).2 := by
  unfold TxnDb.applyWrite
  cases op.type with
  | insertEdge =>
    simp only [TxnDb.insertEdgeTxn, h.size, h.items]
    split_ifs
    · exact h
    · exact h.appendRecord rfl
  | deleteEdge =>
    simp only [TxnDb.deleteEdgeTxn, h.size]
    split_ifs
    · exact h
    · exact h.appendRecord rfl
  | insertVertex =>
    simp only [TxnDb.insertSingleVertex, h.size, h.items]
    split_ifs
    · exact h
    · exact h.setDelete op.src false
    · refine ⟨rfl, rfl, fun v => ?_, h.pages, h.giants, h.edgeTs⟩
      by_cases hv : v = db.size
      · simp [hv]
      · simp [hv, h.chain]
  | deleteVertex =>
    simp only [TxnDb.deleteVertex, h.size, h.items]
    split_ifs
    · exact h
    · exact h.setDelete op.src true

/-- Only edges are written. -/
def EdgeOps (ops : List WriteOpt) : Prop :=
  ∀ op ∈ ops, op.type = .insertEdge ∨ op.type = .deleteEdge

variable {ops : List WriteOpt}

theorem Agree.applyWrites (h : Agree db db') (ops : List WriteOpt) (b b' c : Nat) :
    Agree (db.applyWrites b c ops).2 (db'.applyWrites b' c ops).2 := by
  induction ops generalizing db db' with
  | nil => exact h
  | cons op ops ih => exact ih (h.applyWrite op b b' c)

/-! ## Replaying the commits -/

/-- The database after some commits, oldest first, with consecutive timestamps. -/
def replay (db : TxnDb) (initialTs : Nat) (log : List (List WriteOpt)) : TxnDb :=
  log.zipIdx.foldl (fun db p => (db.applyWrites 0 (initialTs + p.2 + 1) p.1).2) db

variable (db : TxnDb) (initialTs : Nat)

theorem replay_concat (log : List (List WriteOpt)) (ops : List WriteOpt) :
    replay db initialTs (log ++ [ops]) =
      ((replay db initialTs log).applyWrites 0 (initialTs + log.length + 1) ops).2 := by
  unfold replay
  rw [zipIdx_append, foldl_append]
  simp

theorem sameReads_applyWrites {r commitTs : Nat} (hr : r < commitTs) (beginTs : Nat)
    (ops : List WriteOpt) (db : TxnDb) :
    SameReads r db (db.applyWrites beginTs commitTs ops).2 := by
  induction ops generalizing db with
  | nil => exact SameReads.refl r db
  | cons op ops ih =>
    exact (sameReads_applyWrite hr db op).trans (ih (db.applyWrite beginTs commitTs op).2)

/-- Later commits are not seen at the timestamp of an earlier one. -/
theorem sameReads_replay (log log' : List (List WriteOpt)) :
    SameReads (initialTs + log.length) (replay db initialTs log)
      (replay db initialTs (log ++ log')) := by
  induction log' using reverseRecOn with
  | nil =>
    rw [append_nil]
    exact SameReads.refl _ _
  | append_singleton log' ops ih =>
    rw [← append_assoc, replay_concat]
    refine ih.trans (sameReads_applyWrites ?_ 0 ops _)
    rw [length_append]
    omega

/-- What an edge write leaves alone. -/
theorem applyWrite_edge {db : TxnDb} {op : WriteOpt}
    (hop : op.type = .insertEdge ∨ op.type = .deleteEdge) (beginTs commitTs : Nat) :
    (db.applyWrite beginTs commitTs op).2.size = db.size ∧
    (∀ v, (db.applyWrite beginTs commitTs op).2.baseEdges v = db.baseEdges v) ∧
    ∀ v, ∀ rec ∈ (db.applyWrite beginTs commitTs op).2.chain v,
      rec ∈ db.chain v ∨ (rec.commitTs = commitTs ∧ v = op.src ∧ rec.second = op.dst) := by
  have happend : ∀ rec : TxnRecord, rec.commitTs = commitTs → rec.first = op.src →
      rec.second = op.dst → ∀ v, ∀ rec' ∈ (db.appendRecord rec).chain v,
        rec' ∈ db.chain v ∨ (rec'.commitTs = commitTs ∧ v = op.src ∧ rec'.second = op.dst) := by
    intro rec hts hfirst hsecond v rec' hrec
    by_cases hv : v = rec.first
    · subst hv
      simp only [appendRecord, Function.update_self, mem_cons] at hrec
      rcases hrec with rfl | hrec
      · exact .inr ⟨hts, hfirst, hsecond⟩
      · exact .inl hrec
    · simp only [appendRecord, ne_eq, hv, not_false_eq_true, Function.update_of_ne] at hrec
      exact .inl hrec
  unfold applyWrite
  rcases hop with hop | hop
  · simp only [hop, insertEdgeTxn]
    split_ifs
    · exact ⟨rfl, fun _ => rfl, fun _ _ h => .inl h⟩
    · exact ⟨rfl, fun _ => rfl, happend _ rfl rfl rfl⟩
  · simp only [hop, deleteEdgeTxn]
    split_ifs
    · exact ⟨rfl, fun _ => rfl, fun _ _ h => .inl h⟩
    · exact ⟨rfl, fun _ => rfl, happend _ rfl rfl rfl⟩

theorem applyWrites_edge (hops : EdgeOps ops) (beginTs commitTs : Nat) :
    ∀ db : TxnDb, (db.applyWrites beginTs commitTs ops).2.size = db.size ∧
    (∀ v, (db.applyWrites beginTs commitTs ops).2.baseEdges v = db.baseEdges v) ∧
    ∀ v, ∀ rec ∈ (db.applyWrites beginTs commitTs ops).2.chain v, rec ∈ db.chain v ∨
      (rec.commitTs = commitTs ∧ ∃ op ∈ ops, v = op.src ∧ rec.second = op.dst) := by
  induction ops with
  | nil => exact fun db => ⟨rfl, fun _ => rfl, fun _ _ h => .inl h⟩
  | cons op ops ih =>
    intro db
    obtain ⟨hsize, hbase, hchain⟩ :=
      @applyWrite_edge db op (hops op mem_cons_self) beginTs commitTs
    obtain ⟨hsize', hbase', hchain'⟩ := ih (fun o ho => hops o (mem_cons_of_mem _ ho))
      (db.applyWrite beginTs commitTs op).2
    refine ⟨hsize'.trans hsize, fun v => (hbase' v).trans (hbase v), fun v rec hrec => ?_⟩
    rcases hchain' v rec hrec with h | ⟨hts, o, ho, h⟩
    · rcases hchain v rec h with h | ⟨hts, h⟩
      · exact .inl h
      · exact .inr ⟨hts, op, mem_cons_self, h⟩
    · exact .inr ⟨hts, o, mem_cons_of_mem _ ho, h⟩

theorem replay_edge {db : TxnDb} {initialTs : Nat} {log : List (List WriteOpt)}
    (hlog : ∀ ops ∈ log, EdgeOps ops) : (replay db initialTs log).size = db.size ∧
      ∀ v, (replay db initialTs log).baseEdges v = db.baseEdges v := by
  induction log using reverseRecOn with
  | nil => exact ⟨rfl, fun _ => rfl⟩
  | append_singleton log ops ih =>
    obtain ⟨hsize, hbase⟩ := ih fun o ho => hlog o (mem_append_left _ ho)
    obtain ⟨hsize', hbase', -⟩ := applyWrites_edge
      (hlog ops (mem_append_right _ (mem_singleton.2 rfl))) 0
      (initialTs + log.length + 1) (replay db initialTs log)
    rw [replay_concat]
    exact ⟨hsize'.trans hsize, fun v => (hbase' v).trans (hbase v)⟩

/-! ## Any run -/

/-- The writes that a call commits. -/
def TxnSys.commits (s : TxnSys) : TxnEvent → List (List WriteOpt)
  | .commit i =>
    match s.txns i with
    | .live t => if t.writeOps = [] ∨ t.Conflicts s.store.manager then [] else [t.writeOps]
    | _ => []
  | _ => []

/-- A call with the writes that it commits. -/
def CommitStep (s : TxnSys) (c : TxnEvent × List (List WriteOpt)) (s' : TxnSys) : Prop :=
  TxnStep s c.1 s' ∧ c.2 = s.commits c.1

/-- A call commits nothing and leaves the database alone, or it is a commit with the next
timestamp. -/
theorem TxnStep.commits {s s' : TxnSys} {e : TxnEvent} (h : TxnStep s e s') :
    (s.commits e = [] ∧ s'.store.db = s.store.db ∧
      s'.store.manager.currentTs = s.store.manager.currentTs) ∨
    ∃ b ops, s.commits e = [ops] ∧
      s'.store.manager.currentTs = s.store.manager.currentTs + 1 ∧
      s'.store.db = (s.store.db.applyWrites b (s.store.manager.currentTs + 1) ops).2 := by
  cases e with
  | getNeighbors _ _ | write _ _ | abort _ =>
    simp only [TxnStep, step] at h
    obtain ⟨_, _, _, _, rfl⟩ := onTxn_cases h
    exact .inl ⟨rfl, rfl, rfl⟩
  | commit i =>
    unfold TxnStep step TxnSys.commit at h
    dsimp only at h
    split at h
    · rename_i t ht
      split at h
      · rename_i ok t' st hc
        cases h
        simp only [TxnSys.commits, ht]
        obtain ⟨-, ⟨hops, -, -, rfl⟩ | ⟨-, hconf, -, -, rfl⟩ | ⟨hops, hconf, -, -, rfl⟩⟩ :=
          Txn.commitWith_cases hc
        · exact .inl ⟨if_pos (.inl hops), rfl, rfl⟩
        · exact .inl ⟨if_pos (.inr hconf), rfl, rfl⟩
        · refine .inr ⟨t.readTs, t.writeOps, if_neg (not_or.2 ⟨hops, hconf⟩), ?_, rfl⟩
          exact (cleansUp_cleanupOldTxns.recordCommit t _ _).2
      · cases h
    · cases h
  | _ =>
    unfold TxnStep step load register begin destroy at h
    dsimp only at h
    split at h <;> cases h
    exact .inl ⟨rfl, rfl, rfl⟩

/-- In every state of every run, at any isolation level, the clock counts the commits that wrote,
and the database is what these commits alone make of it, one after another. -/
theorem store_replays {initialTs : Nat} {db : TxnDb} {cs : List (TxnEvent × List (List WriteOpt))}
    {s : TxnSys} (run : Steps CommitStep (.start initialTs db) cs s) :
    s.store.manager.currentTs = initialTs + (cs.flatMap Prod.snd).length ∧
      Agree (replay db initialTs (cs.flatMap Prod.snd)) s.store.db := by
  induction run with
  | nil => exact ⟨rfl, Agree.refl db⟩
  | @snoc cs s1 s2 c _ h ih =>
    obtain ⟨⟨hclock, hdb⟩, hs, hc⟩ := And.intro ih h
    rw [flatMap_append, flatMap_singleton, hc]
    rcases hs.commits with ⟨hnone, hdb', hclock'⟩ | ⟨b, ops, hone, hclock', hdb'⟩
    · rw [hnone, append_nil, hdb', hclock']
      exact ⟨hclock, hdb⟩
    · rw [hone, replay_concat, length_append, hdb', hclock', hclock]
      exact ⟨Nat.add_assoc _ _ _, hdb.applyWrites ops 0 b _⟩

/-- One transaction writes an edge and commits. -/
theorem store_replays_small : Agree (replay smallTxnDb 0 [[⟨.insertEdge, 0, 2⟩]])
    (TxnSys.after [.begin 0 true, .write 0 ⟨.insertEdge, 0, 2⟩, .commit 0]).store.db := by
  have run : Steps CommitStep (.start 0 smallTxnDb) ([] ++ [(.begin 0 true, [])] ++
      [(.write 0 ⟨.insertEdge, 0, 2⟩, [])] ++ [(.commit 0, [[⟨.insertEdge, 0, 2⟩]])])
      (.after [.begin 0 true, .write 0 ⟨.insertEdge, 0, 2⟩, .commit 0]) :=
    .snoc (.snoc (.snoc .nil ⟨rfl, rfl⟩) ⟨rfl, rfl⟩) ⟨rfl, by decide +kernel⟩
  exact (store_replays run).2

/-! ## The calls of one transaction -/

/-- The writes among some calls. -/
def writesOf (calls : List TxnCall) : List WriteOpt :=
  calls.filterMap fun c => match c.1 with
    | .write _ op => some op
    | _ => none

/-- A call between begin and commit, where reading gives `read`. -/
inductive BodyCall (i size : Nat) (read : VId → List VId) : TxnCall → Prop
  | read {v : VId} (hv : v < size) : BodyCall i size read (.getNeighbors i v, .neighbors (read v))
  | write {op : WriteOpt} (hop : op.type = .insertEdge ∨ op.type = .deleteEdge) :
      BodyCall i size read (.write i op, .none)

/-- What a transaction has recorded of its calls. -/
structure Buffered (i : Nat) (t : Txn) (calls : List TxnCall) : Prop where
  committed : t.committed = false
  serializable : t.serializable = true
  writeOps : t.writeOps = writesOf calls
  reads : ∀ v res, (.getNeighbors i v, res) ∈ calls → computeKeyHash v 0 ∈ t.readSetHashes
  writes : ∀ op ∈ t.writeOps, computeKeyHash op.src op.dst ∈ t.writeSetHashes

theorem buffered_new (i r : Nat) : Buffered i (.new r true) [] :=
  ⟨rfl, rfl, rfl, fun _ _ h => absurd h not_mem_nil, fun _ h => absurd h not_mem_nil⟩

/-- The transaction after one more read. -/
def Txn.withRead (t : Txn) (v : VId) : Txn :=
  { t with readSetHashes := insert (computeKeyHash v 0) t.readSetHashes }

/-- The transaction after one more write. -/
def Txn.withWrite (t : Txn) (op : WriteOpt) : Txn :=
  { t with
    writeOps := t.writeOps ++ [op]
    writeSetHashes := insert (computeKeyHash op.src op.dst) t.writeSetHashes }

variable {calls : List TxnCall} {t : Txn}

theorem Buffered.getNeighbors {i : Nat} (h : Buffered i t calls) (db : TxnDb) (v : VId) :
    t.getNeighbors db v = .ok (db.readNeighborCloneTxn v t.readTs, t.withRead v) := by
  unfold Txn.getNeighbors
  rw [if_neg (by simp [h.committed]), if_pos h.serializable]
  rfl

theorem Buffered.bufferWrite {i : Nat} (h : Buffered i t calls) (op : WriteOpt) :
    t.bufferWrite op = .ok (t.withWrite op) := by
  unfold Txn.bufferWrite
  rw [if_neg (by simp [h.committed]), if_pos h.serializable]
  rfl

theorem Buffered.read {i : Nat} {t : Txn} {calls : List TxnCall} (h : Buffered i t calls) (v : VId)
    (res : TxnResult) : Buffered i (t.withRead v) (calls ++ [(.getNeighbors i v, res)]) := by
  refine ⟨h.committed, h.serializable, ?_, fun w res' hw => ?_, h.writes⟩
  · rw [writesOf, filterMap_append]
    exact h.writeOps.trans (append_nil _).symm
  · rcases mem_append.1 hw with hw | hw
    · exact Finset.mem_insert_of_mem (h.reads w res' hw)
    · cases mem_singleton.1 hw
      exact Finset.mem_insert_self _ _

theorem Buffered.write {i : Nat} {t : Txn} {calls : List TxnCall} (h : Buffered i t calls)
    (op : WriteOpt) : Buffered i (t.withWrite op) (calls ++ [(.write i op, .none)]) := by
  refine ⟨h.committed, h.serializable, ?_, fun w res hw => ?_, fun op' hop => ?_⟩
  · rw [writesOf, filterMap_append]
    exact congrArg (fun ops => ops ++ [op]) h.writeOps
  · rcases mem_append.1 hw with hw | hw
    · exact h.reads w res hw
    · cases mem_singleton.1 hw
  · rcases mem_append.1 hop with hop | hop
    · exact Finset.mem_insert_of_mem (h.writes op' hop)
    · cases mem_singleton.1 hop
      exact Finset.mem_insert_self _ _

theorem edgeOps_writesOf {i size : Nat} {read : VId → List VId}
    (h : ∀ c ∈ calls, BodyCall i size read c) : EdgeOps (writesOf calls) := by
  intro op hop
  obtain ⟨c, hc, hw⟩ := mem_filterMap.1 hop
  cases h c hc with
  | read _ => cases hw
  | write hop =>
    cases hw
    exact hop

/-! ## Executing one transaction alone -/

/-- Nothing is recorded as committed after the clock. -/
def TxnManager.UpToDate (m : TxnManager) : Prop :=
  ∀ e ∈ m.committedTxns.entries, e.1 ≤ m.currentTs

variable {m : TxnManager}

theorem TxnManager.UpToDate.check (h : m.UpToDate) (readSet : Finset UInt32) :
    m.checkSerializableConflict m.currentTs readSet = false := by
  rw [Bool.eq_false_iff, Ne, TxnManager.checkSerializableConflict_iff]
  rintro ⟨e, he, hlt, -⟩
  exact absurd (h e he) (Nat.not_le.2 hlt)

theorem TxnManager.UpToDate.recordCommit (h : m.UpToDate) (t : Txn) :
    (t.recordCommit TxnManager.cleanupOldTxns m.allocCommitTs.1 m.allocCommitTs.2).UpToDate := by
  have hlt : ∀ e ∈ m.committedTxns.entries, e.1 < m.currentTs + 1 :=
    fun e he => Nat.lt_succ_of_le (h e he)
  intro e he
  unfold Txn.recordCommit at he ⊢
  split_ifs at he ⊢
  · rcases (mem_emplace hlt).1 (OrdMap.mem_dropBelow.1 he).1 with rfl | he
    · exact Nat.le_refl _
    · exact Nat.le_of_lt (hlt e he)
  · exact Nat.le_of_lt (hlt e he)

variable {s : TxnSys} {i : Nat}

/-- The body of a transaction whose reads are what the database gives at its timestamp. -/
theorem steps_body (hi : s.txns i = .live t) (hb : Buffered i t []) {size : Nat}
    (h : ∀ c ∈ calls, BodyCall i size (fun v => s.store.db.readNeighborCloneTxn v t.readTs) c) :
    ∃ t', t'.readTs = t.readTs ∧ Buffered i t' calls ∧
      Steps TxnCallStep s calls (s.set i (.live t')) := by
  induction calls using reverseRecOn with
  | nil =>
    refine ⟨t, rfl, hb, ?_⟩
    have hs : s.set i (.live t) = s := by
      unfold TxnSys.set
      rw [← hi, Function.update_eq_self]
    rw [hs]
    exact .nil
  | append_singleton calls c ih =>
    obtain ⟨t', hr, hb', run⟩ := ih fun c hc => h c (mem_append_left _ hc)
    have hlive : (s.set i (.live t')).txns i = .live t' := TxnSys.set_self s i _
    have hset : ∀ x, (s.set i (.live t')).set i x = s.set i x := fun x => by
      unfold TxnSys.set
      rw [Function.update_idem]
    cases h c (mem_append_right _ (mem_singleton.2 rfl)) with
    | @read v hv =>
      refine ⟨t'.withRead v, hr, hb'.read v _, .snoc run ⟨?_, ?_⟩⟩
      · show TxnSys.onTxn _ i _ = _
        unfold TxnSys.onTxn
        rw [hlive]
        simp only [hb'.getNeighbors, Except.map, hset]
      · show _ = (s.set i (.live t')).result (.getNeighbors i v)
        unfold TxnSys.result
        simp only [hlive, hr]
        rfl
    | @write op hop =>
      refine ⟨t'.withWrite op, hr, hb'.write op, .snoc run ⟨?_, rfl⟩⟩
      show TxnSys.onTxn _ i _ = _
      unfold TxnSys.onTxn
      rw [hlive]
      simp only [hb'.bufferWrite, hset]

/-- The store after a transaction with some writes. -/
structure RanAlone (s s' : TxnSys) (i : Nat) (ops : List WriteOpt) : Prop where
  others : ∀ j, j ≠ i → s'.txns j = s.txns j
  upToDate : s'.store.manager.UpToDate
  readOnly : ops = [] → s'.store.manager.currentTs = s.store.manager.currentTs ∧
    s'.store.db = s.store.db
  update : ops ≠ [] → s'.store.manager.currentTs = s.store.manager.currentTs + 1 ∧
    s'.store.db = (s.store.db.applyWrites s.store.manager.currentTs
      (s.store.manager.currentTs + 1) ops).2

/-- A transaction alone commits: nothing was committed since it began. -/
theorem steps_alone (hi : s.txns i = .absent) (hup : s.store.manager.UpToDate) {size : Nat}
    (h : ∀ c ∈ calls, BodyCall i size
      (fun v => s.store.db.readNeighborCloneTxn v s.store.manager.currentTs) c) :
    ∃ s', Steps TxnCallStep s
        ((.begin i true, .none) :: (calls ++ [(.commit i, .committed true)])) s' ∧
      RanAlone s s' i (writesOf calls) := by
  set r := s.store.manager.currentTs
  have hbegin : TxnCallStep s (.begin i true, .none) (s.construct i r true) := by
    refine ⟨?_, rfl⟩
    show s.begin i true = _
    unfold begin
    rw [hi]
    rfl
  obtain ⟨t, htr, hb, run⟩ := steps_body (set_self _ i _ : (s.construct i r true).txns i = _)
    (buffered_new i r) h
  set s1 := (s.construct i r true).set i (.live t) with hs1
  have hlive : s1.txns i = .live t := set_self _ i _
  have hothers : ∀ j, j ≠ i → s1.txns j = s.txns j := fun j hj => by
    rw [hs1, set_ne _ _ hj]
    exact set_ne _ _ hj
  have hstep : ∀ {ok t' st}, t.commit s1.store = .ok (ok, t', st) →
      TxnCallStep s1 (.commit i, .committed ok) (set ⟨st, s1.txns⟩ i (.live t')) := by
    intro ok t' st hc
    refine ⟨?_, ?_⟩
    · show s1.commit _ i = _
      unfold commit
      unfold Txn.commit at hc
      simp only [hlive, hc]
    · show _ = s1.result (.commit i)
      unfold result
      simp only [hlive, hc]
  by_cases hops : writesOf calls = []
  · refine ⟨_, .cons hbegin (run.append (.snoc .nil (hstep (Txn.commitWith_empty _ s1.store
      hb.committed (hb.writeOps.trans hops))))), ?_, hup, fun _ => ⟨rfl, rfl⟩, absurd hops⟩
    intro j hj
    rw [set_ne _ _ hj]
    exact hothers j hj
  · have hconf : ¬ t.Conflicts s1.store.manager := by
      rintro ⟨-, -, hc⟩
      rw [htr] at hc
      have hf : s1.store.manager.checkSerializableConflict r t.readSetHashes = false :=
        hup.check t.readSetHashes
      exact absurd (hf.symm.trans hc) (by simp)
    refine ⟨_, .cons hbegin (run.append (.snoc .nil (hstep (Txn.commitWith_applied _
      hb.committed (fun he => hops (hb.writeOps.symm.trans he)) hconf)))), ?_, ?_, (absurd · hops),
      fun _ => ⟨(cleansUp_cleanupOldTxns.recordCommit t _ _).2, ?_⟩⟩
    · intro j hj
      rw [set_ne _ _ hj]
      exact hothers j hj
    · have hup1 : s1.store.manager.UpToDate := hup
      exact hup1.recordCommit t
    · show (s1.store.db.applyWrites t.readTs s1.store.manager.allocCommitTs.1 t.writeOps).2 = _
      rw [htr, hb.writeOps]
      rfl

end BwGraph
