import BwGraph.Txn.Consolidation

/-
  The early return of `consolidate_pages` in the transaction build: when no drained record is below
  the watermark, every one of them is linked in front of its chain again and appended to the pending
  records of its page. The chain still reaches the old copies, so each such call makes it longer by
  the drained records of its vertex (`chain_allDeferred`), and a reader of a timestamp gets every
  visible insertion among them once more (`readNeighborCloneTxn_allDeferred`).
  `consolidatePagesTxn_allDeferred`: in no reachable state is the call without effect.
-/

namespace BwGraph

open List TxnDb

namespace TxnDb

/-! ## Reads -/

/-- `delta_inserts`, `delta_deletes` and `delta_seen` of `read_neighbor_clone`. -/
structure SeenScan extends Scan where
  deltaSeen : List VId

/-- One visited record: the newest record on a neighbour decides. -/
def SeenScan.visit (scan : SeenScan) (rec : TxnRecord) : SeenScan :=
  if rec.target = .edge ∧ rec.second ∉ scan.deltaSeen then
    match rec.type with
    | .insert => ⟨⟨scan.deltaInserts ++ [rec.second], scan.deltaDeletes⟩,
        rec.second :: scan.deltaSeen⟩
    | .delete => ⟨⟨scan.deltaInserts, rec.second :: scan.deltaDeletes⟩,
        rec.second :: scan.deltaSeen⟩
  else scan

/-- `read_neighbor_clone`, which knows no timestamps. -/
def readNeighborClone (db : TxnDb) (v : VId) : List VId :=
  let scan := (db.chain v).foldl SeenScan.visit ⟨⟨[], []⟩, []⟩
  ((db.baseEdges v).map Prod.fst).filter (fun d => d ∉ scan.deltaDeletes) ++
    scan.deltaInserts.filter fun d => d ∉ scan.deltaDeletes

/-- The neighbours of the visible records of one type. -/
def visibleOf (readTs : Nat) (type : DeltaType) (recs : List TxnRecord) : List VId :=
  (recs.filter fun rec => rec.Visible readTs ∧ rec.type = type).map TxnRecord.second

theorem visibleOf_append (readTs : Nat) (type : DeltaType) (recs recs' : List TxnRecord) :
    visibleOf readTs type (recs ++ recs') =
      visibleOf readTs type recs ++ visibleOf readTs type recs' := by
  unfold visibleOf
  rw [filter_append, map_append]

variable {recs : List TxnRecord}

theorem mem_visibleOf {readTs : Nat} {type : DeltaType} {d : VId} :
    d ∈ visibleOf readTs type recs ↔ ∃ rec ∈ recs, rec.SeenAs readTs type d := by
  unfold visibleOf TxnRecord.SeenAs
  simp only [mem_map, mem_filter, decide_eq_true_eq, and_assoc]

theorem deltaInserts_foldl_visit (readTs : Nat) (recs : List TxnRecord) (scan : Scan) :
    (recs.foldl (Scan.visit readTs) scan).deltaInserts =
      scan.deltaInserts ++ visibleOf readTs .insert recs := by
  induction recs generalizing scan with
  | nil => simp [visibleOf]
  | cons rec recs ih =>
    rw [foldl_cons, ih]
    unfold Scan.visit visibleOf
    by_cases hv : rec.Visible readTs
    · cases ht : rec.type with
      | insert => simp [hv, ht]
      | delete => simp [hv, ht]
    · simp [hv]

/-- A read in terms of what is visible in the chain. -/
theorem readNeighborCloneTxn_eq (db : TxnDb) (v : VId) (readTs : Nat) :
    db.readNeighborCloneTxn v readTs =
      (((db.baseEdges v).filter fun e => e.2 = 0 ∨ e.2 ≤ readTs).map Prod.fst).filter
        (fun d => d ∉ visibleOf readTs .delete (db.chain v)) ++
      (visibleOf readTs .insert (db.chain v)).filter
        fun d => d ∉ visibleOf readTs .delete (db.chain v) := by
  have hdel : ∀ d, d ∈ (db.scanChain v readTs).deltaDeletes ↔
      d ∈ visibleOf readTs .delete (db.chain v) := by
    intro d
    have h := (mem_foldl_visit readTs (db.chain v) ⟨[], []⟩ d).2
    rw [mem_visibleOf]
    unfold scanChain
    simpa using h
  unfold readNeighborCloneTxn
  simp only [hdel]
  unfold scanChain
  rw [deltaInserts_foldl_visit, nil_append]

/-! ## Edge records -/

/-- Every pending record is one of an edge. -/
def EdgePending (db : TxnDb) : Prop := ∀ q, ∀ rec ∈ db.pending q, rec.target = .edge

theorem EdgePending.appendRecord {db : TxnDb} (h : db.EdgePending) {rec : TxnRecord}
    (hr : rec.target = .edge) : (db.appendRecord rec).EdgePending := by
  intro q r hmem
  unfold TxnDb.appendRecord at hmem
  by_cases hq : q = (db.items rec.first).pageNo
  · subst hq
    simp only [Function.update_self, mem_append, mem_singleton] at hmem
    rcases hmem with hmem | rfl
    · exact h _ r hmem
    · exact hr
  · simp only [Function.update_of_ne hq] at hmem
    exact h q r hmem

theorem EdgePending.foldl_appendRecord {db : TxnDb} (h : db.EdgePending)
    (hr : ∀ rec ∈ recs, rec.target = .edge) : (recs.foldl TxnDb.appendRecord db).EdgePending := by
  induction recs generalizing db with
  | nil => exact h
  | cons rec recs ih =>
    exact ih (h.appendRecord (hr rec mem_cons_self))
      fun r hmem => hr r (mem_cons_of_mem _ hmem)

theorem EdgePending.of_pending {db db' : TxnDb} (h : db.EdgePending)
    (heq : db'.pending = db.pending) : db'.EdgePending := fun q rec hrec =>
  h q rec (by rwa [heq] at hrec)

variable {db : TxnDb} (h : db.EdgePending) (beginTs commitTs : Nat)
include h

theorem EdgePending.applyWrite (op : WriteOpt) :
    (db.applyWrite beginTs commitTs op).2.EdgePending := by
  unfold TxnDb.applyWrite
  cases op.type with
  | insertEdge =>
    unfold insertEdgeTxn
    split_ifs
    · exact h
    · exact h.appendRecord rfl
  | deleteEdge =>
    unfold deleteEdgeTxn
    split_ifs
    · exact h
    · exact h.appendRecord rfl
  | insertVertex =>
    refine h.of_pending ?_
    dsimp only
    unfold insertSingleVertex
    split_ifs <;> rfl
  | deleteVertex =>
    refine h.of_pending ?_
    dsimp only
    unfold TxnDb.deleteVertex
    split_ifs <;> rfl

theorem EdgePending.applyWrites (ops : List WriteOpt) :
    (db.applyWrites beginTs commitTs ops).2.EdgePending := by
  unfold TxnDb.applyWrites
  induction ops generalizing db with
  | nil => exact h
  | cons op ops ih => exact ih (h.applyWrite beginTs commitTs op)

end TxnDb

namespace TxnSys

variable {cleanup : TxnManager → TxnManager} {s s' : TxnSys}

/-- A call leaves the database as it is, or applies the writes of a transaction. -/
theorem step_db {e : TxnEvent} (h : s.step cleanup e = some s') : s'.store.db = s.store.db ∨
    ∃ beginTs commitTs ops, s'.store.db = (s.store.db.applyWrites beginTs commitTs ops).2 := by
  have honTxn : ∀ {i : Nat} {f : Txn → Except String Txn}, s.onTxn i f = some s' →
      s'.store.db = s.store.db := by
    intro i f hf
    obtain ⟨t, t', -, -, rfl⟩ := onTxn_cases hf
    rfl
  cases e with
  | load i serializable =>
    simp only [step, load] at h
    split at h <;> cases h
    exact .inl rfl
  | register i =>
    simp only [step, register] at h
    split at h <;> cases h
    exact .inl rfl
  | begin i serializable =>
    simp only [step, begin] at h
    split at h <;> cases h
    exact .inl rfl
  | getNeighbors i v => exact .inl (honTxn h)
  | write i op => exact .inl (honTxn h)
  | abort i => exact .inl (honTxn (f := fun t => .ok t.abort) h)
  | commit i =>
    simp only [step, commit] at h
    split at h
    · split at h
      · rename_i hc
        cases h
        obtain ⟨-, ⟨-, -, -, rfl⟩ | ⟨-, -, -, -, rfl⟩ | ⟨-, -, -, -, rfl⟩⟩ :=
          Txn.commitWith_cases hc
        · exact .inl rfl
        · exact .inl rfl
        · exact .inr ⟨_, _, _, rfl⟩
      · cases h
    · cases h
  | destroy i =>
    simp only [step, destroy] at h
    split at h <;> cases h
    exact .inl rfl

end TxnSys

namespace SmoSys

variable {cfg : Config} {env : TxnSmoEnv} {p : PageNo} {s s' : SmoSys}

/-- A published replacement moves pending records between pages. -/
theorem Replaces.edgePending {vss : List (List VId)} {placed : List (PageNo × List VId)}
    (h : Replaces cfg p s s' vss placed) (he : s.db.EdgePending) : s'.db.EdgePending := by
  obtain ⟨db, rerouted, hfold, hdb⟩ := h.db
  have hdef : ∀ rec ∈ s.deferred p, rec.target = .edge :=
    fun rec hrec => he p rec (mem_filter.1 hrec).1
  obtain ⟨-, -, -, hpend⟩ := foldlM_rerouteStray hfold hdef
  intro q rec hrec
  rw [hdb] at hrec
  have hrec' : rec ∈ db.pending q := hrec
  rw [hpend q] at hrec'
  rcases mem_append.1 hrec' with hold | hnew
  · have hdrain : rec ∈ (s.db.drain p).pending q := hold
    unfold drain at hdrain
    by_cases hq : q = p
    · subst hq
      simp at hdrain
    · simp only [Function.update_of_ne hq] at hdrain
      exact he q rec hdrain
  · exact hdef rec (mem_filter.1 hnew).1

theorem edgePending_drain (he : s.db.EdgePending) : (s.db.drain p).EdgePending := by
  intro q rec hrec
  unfold drain at hrec
  by_cases hq : q = p
  · subst hq
    simp at hrec
  · simp only [Function.update_of_ne hq] at hrec
    exact he q rec hrec

/-- The records that are put back, all of them of edges. -/
theorem foldl_restoreDeferred_deferred (he : s.db.EdgePending) :
    (s.deferred p).foldl restoreDeferred (s.db.drain p) =
      (s.deferred p).foldl appendRecord (s.db.drain p) :=
  foldl_restoreDeferred (fun rec hrec => he p rec (mem_filter.1 hrec).1) _

theorem edgePending_step {e : SmoEvent} (he : s.db.EdgePending) (h : s.step cfg e = some s') :
    s'.db.EdgePending := by
  cases e with
  | call e =>
    obtain ⟨sys, hsys, rfl⟩ := Option.map_eq_some_iff.1 h
    rcases TxnSys.step_db hsys with heq | ⟨beginTs, commitTs, ops, heq⟩
    · exact he.of_pending (congrArg TxnDb.pending heq)
    · have happ := he.applyWrites beginTs commitTs ops
      exact happ.of_pending (congrArg TxnDb.pending heq)
  | consolidate env p =>
    simp only [step] at h
    cases hc : s.consolidatePagesTxn cfg env p with
    | error msg => rw [hc] at h; cases h
    | ok s1 =>
      rw [hc] at h
      cases h
      rcases consolidatePagesTxn_cases hc with ⟨-, rfl | ⟨-, rfl⟩⟩ | ⟨-, -, rfl⟩ |
        ⟨-, vss, placed, hr⟩
      · exact he
      · show ((s.deferred p).foldl TxnDb.restoreDeferred (s.db.drain p)).EdgePending
        rw [foldl_restoreDeferred_deferred he]
        exact (edgePending_drain he).foldl_appendRecord
          fun rec hrec => he p rec (mem_filter.1 hrec).1
      · exact edgePending_drain he
      · exact hr.edgePending he
  | recycle p =>
    simp only [step] at h
    split_ifs at h
    cases h
    exact he

/-! ## The early return -/

/-- The call drains the page and finds every record at or above the watermark. -/
structure AllDeferred (cfg : Config) (env : TxnSmoEnv) (p : PageNo) (s : SmoSys) : Prop where
  enabled : env.enabled = true
  reached : env.safetyThreshold cfg ≤ (s.db.pending p).length
  drained : s.db.pending p ≠ []
  mergeable : s.mergeable p = []

instance (cfg : Config) (env : TxnSmoEnv) (p : PageNo) (s : SmoSys) :
    Decidable (AllDeferred cfg env p s) :=
  decidable_of_iff (env.enabled = true ∧ env.safetyThreshold cfg ≤ (s.db.pending p).length ∧
      s.db.pending p ≠ [] ∧ s.mergeable p = [])
    ⟨fun h => ⟨h.1, h.2.1, h.2.2.1, h.2.2.2⟩, fun h => ⟨h.1, h.2, h.3, h.4⟩⟩

theorem AllDeferred.call (h : AllDeferred cfg env p s) : s.consolidatePagesTxn cfg env p =
    .ok (s.setDb ((s.deferred p).foldl restoreDeferred (s.db.drain p))) := by
  unfold consolidatePagesTxn
  rw [if_neg (by simp [h.enabled]), if_neg (Nat.not_lt.2 h.reached),
    if_neg (by simpa using h.drained), if_pos (by simp [h.mergeable])]

theorem deferred_eq (h : s.mergeable p = []) : s.deferred p = s.db.pending p := by
  refine filter_eq_self.2 fun rec hrec => ?_
  have hnot : rec ∉ s.mergeable p := by
    rw [h]
    exact not_mem_nil
  simpa [mem_mergeable, hrec] using hnot

/-- The drained records of a vertex, newest first. -/
def drainedOf (p : PageNo) (s : SmoSys) (v : VId) : List TxnRecord :=
  ((s.db.pending p).filter fun rec => rec.first = v).reverse

/-- The call puts a second copy of every drained record into its chain. -/
theorem AllDeferred.chain (h : AllDeferred cfg env p s) (he : s.db.EdgePending) :
    ∃ s', s.consolidatePagesTxn cfg env p = .ok s' ∧
      ∀ v, s'.db.chain v = drainedOf p s v ++ s.db.chain v := by
  refine ⟨_, h.call, fun v => ?_⟩
  show ((s.deferred p).foldl restoreDeferred (s.db.drain p)).chain v = _
  rw [foldl_restoreDeferred_deferred he, foldl_appendRecord, deferred_eq h.mergeable]
  rfl

/-- Nobody can tell the second state from the first: readers of either kind, at any timestamp, and
later consolidations. -/
structure AsBefore (s s' : SmoSys) : Prop where
  chain : ∀ v, s'.db.chain v = s.db.chain v
  pending : ∀ q, s'.db.pending q = s.db.pending q
  clone : ∀ v, (s'.db.readNeighborClone v).Perm (s.db.readNeighborClone v)
  cloneTxn : ∀ v readTs,
    (s'.db.readNeighborCloneTxn v readTs).Perm (s.db.readNeighborCloneTxn v readTs)

/-- Consolidations of the page one after another. -/
def Calls (cfg : Config) (p : PageNo) : SmoSys → List TxnSmoEnv → SmoSys → Prop :=
  Steps fun s env s' => s.consolidatePagesTxn cfg env p = .ok s'

/-- However often the page is consolidated, nothing changes. -/
def NoOp (cfg : Config) (p : PageNo) (s : SmoSys) : Prop :=
  ∀ envs s', Calls cfg p s envs s' → AsBefore s s'

/-- A reader gets every drained insertion that it sees, and that no delete it sees covers, once
more. -/
theorem readNeighborCloneTxn_allDeferred (hi : s.Inv) (h : AllDeferred cfg env p s) :
    ∃ s', s.consolidatePagesTxn cfg env p = .ok s' ∧ ∀ v readTs,
      (s'.db.readNeighborCloneTxn v readTs).Perm (s.db.readNeighborCloneTxn v readTs ++
        (visibleOf readTs .insert (drainedOf p s v)).filter
          fun d => d ∉ visibleOf readTs .delete (s.db.chain v)) := by
  refine ⟨_, h.call, fun v readTs => ?_⟩
  rw [restored_eq hi h.mergeable]
  have hdel : ∀ d, d ∈ visibleOf readTs .delete (drainedOf p s v ++ s.db.chain v) ↔
      d ∈ visibleOf readTs .delete (s.db.chain v) := by
    intro d
    rw [mem_visibleOf, mem_visibleOf]
    exact exists_congr fun rec => and_congr_left fun _ => mem_restored hi
  rw [readNeighborCloneTxn_eq, readNeighborCloneTxn_eq]
  change (List.filter (fun d => decide (d ∉ visibleOf readTs .delete
      (drainedOf p s v ++ s.db.chain v)))
      (List.map _ (List.filter _ (s.db.baseEdges v))) ++
    List.filter (fun d => decide (d ∉ visibleOf readTs .delete
      (drainedOf p s v ++ s.db.chain v)))
      (visibleOf readTs .insert (drainedOf p s v ++ s.db.chain v))).Perm _
  have hkeep : (fun d => decide (d ∉ visibleOf readTs .delete
      (drainedOf p s v ++ s.db.chain v))) =
      fun d => decide (d ∉ visibleOf readTs .delete (s.db.chain v)) := by
    funext d
    exact decide_eq_decide.2 (not_congr (hdel d))
  rw [hkeep, visibleOf_append, filter_append, append_assoc]
  exact List.Perm.append_left _ perm_append_comm

/-- The calls do not change what decides whether the records are deferred. -/
theorem AllDeferred.rechained (h : AllDeferred cfg env p s) (chain : VId → List TxnRecord) :
    AllDeferred cfg env p (s.setDb { s.db with chain := chain }) :=
  ⟨h.enabled, h.reached, h.drained, h.mergeable⟩

/-- The chains grow by the drained records with every call. -/
theorem chain_calls (hi : s.Inv) {envs : List TxnSmoEnv} (run : Calls cfg p s envs s')
    (h : ∀ env ∈ envs, AllDeferred cfg env p s) : s'.Inv ∧ s' = s.setDb { s.db with
      chain := fun v =>
        (replicate envs.length (drainedOf p s v)).flatten ++ s.db.chain v } := by
  induction run with
  | nil => exact ⟨hi, rfl⟩
  | @snoc envs s1 s2 env run hs ih =>
    obtain ⟨hi1, rfl⟩ := ih fun e he => h e (mem_append_left _ he)
    have hd := (h env (mem_append_right _ (mem_singleton_self _))).rechained
      fun v => (replicate envs.length (drainedOf p s v)).flatten ++ s.db.chain v
    have hcall := hd.call
    rw [hs] at hcall
    cases hcall
    refine ⟨hi1.restored hd.mergeable, ?_⟩
    rw [restored_eq hi1 hd.mergeable, length_append, length_singleton]
    have hgrow : ∀ v, (replicate (envs.length + 1) (drainedOf p s v)).flatten =
        drainedOf p s v ++ (replicate envs.length (drainedOf p s v)).flatten := by
      intro v
      rw [replicate_succ, flatten_cons]
    simp only [hgrow, append_assoc]
    rfl

/-- In no reachable state is the call without effect when it defers every record: each drained
record is in its chain once more than before. -/
theorem consolidatePagesTxn_allDeferred {initialTs : Nat} {db : TxnDb} {disk : DiskManager}
    (h0 : TxnLoaded initialTs db disk) {es : List SmoEvent}
    (run : Steps (fun s e s' => SmoSys.step cfg s e = some s') (.start initialTs db disk) es s)
    (h : AllDeferred cfg env p s) :
    (∃ s', s.consolidatePagesTxn cfg env p = .ok s' ∧
      ∀ v, s'.db.chain v = drainedOf p s v ++ s.db.chain v) ∧ ¬ NoOp cfg p s := by
  have he : s.db.EdgePending := by
    refine run.inv (fun _ s => s.db.EdgePending) ?_ fun _ _ _ _ he hs => edgePending_step he hs
    exact fun q rec hrec => edge_of_pending h0.inv.laid hrec
  obtain ⟨s', hcall, hchain⟩ := h.chain he
  refine ⟨⟨s', hcall, hchain⟩, fun hno => ?_⟩
  obtain ⟨rec, hrec⟩ := List.exists_mem_of_ne_nil _ h.drained
  have hsame := (hno [env] s' (.snoc .nil hcall)).chain rec.first
  rw [hchain rec.first, List.append_left_eq_self] at hsame
  have hmem : rec ∈ drainedOf p s rec.first :=
    List.mem_reverse.2 (List.mem_filter.2 ⟨hrec, by simp⟩)
  rw [hsame] at hmem
  cases hmem

/-! ## A reader holds the watermark back -/

/-- A reader at timestamp 0, and an edge (0, 2) that is committed at timestamp 1. -/
def deferredRun : List SmoEvent := .call (.begin 0 false) :: writeTxn 1 .insertEdge 0 2

theorem steps_deferredRun :
    Steps (fun s e s' => SmoSys.step txnCfg s e = some s') (.start 0 smallTxnDb smallDisk)
      deferredRun (.after deferredRun) := by
  have hcalls : ∀ e ∈ deferredRun, ∃ c, e = .call c ∧ c.EdgeCall := by
    simp [deferredRun, writeTxn, TxnEvent.EdgeCall]
  exact (steps_after_calls hcalls (by decide +kernel)).mono fun _ _ _ hs => hs.2.2

theorem allDeferred_deferredRun : AllDeferred txnCfg .smooth 0 (.after deferredRun) := by
  decide +kernel

theorem consolidatePagesTxn_allDeferred_small : ¬ NoOp txnCfg 0 (.after deferredRun) :=
  (consolidatePagesTxn_allDeferred txnLoaded_small steps_deferredRun allDeferred_deferredRun).2

/-- The edge is read twice after the call. -/
theorem readNeighborCloneTxn_repeated :
    ¬ ∀ (cfg : Config) (initialTs : Nat) (db : TxnDb) (disk : DiskManager),
      TxnLoaded initialTs db disk → ∀ (es : List SmoEvent) (s : SmoSys),
      Steps (fun s e s' => SmoSys.step cfg s e = some s') (.start initialTs db disk) es s →
      ∀ (env : TxnSmoEnv) (p : PageNo), AllDeferred cfg env p s → NoOp cfg p s := by
  intro hall
  have hno := hall txnCfg 0 smallTxnDb smallDisk txnLoaded_small _ _ steps_deferredRun .smooth 0
    allDeferred_deferredRun
  have hcall := consolidated_ok (s := .after deferredRun) (by decide +kernel)
  have hread := ((hno [.smooth] _ (.snoc .nil hcall)).cloneTxn 0 1).length_eq
  revert hread
  decide +kernel

end SmoSys

end BwGraph
