import BwGraph.Txn.Serial
import Mathlib.Data.List.Permutation

/-
  The serial order of a history. The transactions that wrote are kept in the order of their
  commits, with their writes (`log`), and those that only read with the number of commits they
  see (`ros`); `Ledger` says what their calls returned in terms of the commits alone. A step keeps
  it (`Hist.step`): a read sees the commits up to its timestamp, and a commit that passes the
  check moves the transaction to the end, where its reads would be the same because no record of
  a vertex it has read is newer. The serial execution then follows the log (`Ledger.serial`).
-/

namespace BwGraph

open List TxnSys TxnManager

/-! ## Calls and commits of a growing history -/

section

variable {h : List TxnCall} {c : TxnCall} {j : Nat}

theorem callsOf_other (hc : ¬ (c.1.txn = j ∧ c.1.ofBody = true)) :
    callsOf j (h ++ [c]) = callsOf j h := by
  have hf : (decide (c.1.txn = j) && c.1.ofBody) = false := by
    rw [Bool.eq_false_iff, Ne, Bool.and_eq_true, decide_eq_true_eq]
    exact hc
  unfold callsOf
  rw [filter_append, filter_singleton, hf]
  exact append_nil _

theorem callsOf_body (hj : c.1.txn = j) (hc : c.1.ofBody = true) :
    callsOf j (h ++ [c]) = callsOf j h ++ [c] := by
  have ht : (decide (c.1.txn = j) && c.1.ofBody) = true := by simp [hj, hc]
  unfold callsOf
  rw [filter_append, filter_singleton, ht]
  rfl

theorem committedIn_append :
    CommittedIn (h ++ [c]) j ↔ CommittedIn h j ∨ c = (.commit j, .committed true) := by
  unfold CommittedIn
  rw [mem_append, mem_singleton]
  exact or_congr Iff.rfl eq_comm

end

/-! ## The ledger -/

section

variable (db : TxnDb) (initialTs : Nat)

/-- What a reader sees behind the first `k` commits. -/
def readAt (log : List (Nat × List WriteOpt)) (k : Nat) (v : VId) : List VId :=
  (replay db initialTs ((log.take k).map Prod.snd)).readNeighborCloneTxn v (initialTs + k)

/-- Transaction `i` has committed the writes `ops`, and its reads were those behind the first `k`
commits. -/
def Ran (h : List TxnCall) (log : List (Nat × List WriteOpt)) (i k : Nat) (ops : List WriteOpt) :
    Prop :=
  ∃ calls, callsOf i h = (.begin i true, .none) :: (calls ++ [(.commit i, .committed true)]) ∧
    (∀ c ∈ calls, BodyCall i db.size (readAt db initialTs log k) c) ∧ writesOf calls = ops

/-- The committed transactions: those that wrote, in the order of their commits, and those that
only read, with the number of commits they see. -/
structure Ledger (h : List TxnCall) (log : List (Nat × List WriteOpt)) (ros : List (Nat × Nat)) :
    Prop where
  mem : ∀ i, CommittedIn h i ↔ i ∈ log.map Prod.fst ++ ros.map Prod.fst
  nodup : (log.map Prod.fst ++ ros.map Prod.fst).Nodup
  logOk : ∀ k i ops, log[k]? = some (i, ops) → ops ≠ [] ∧ Ran db initialTs h log i k ops
  rosOk : ∀ i k, (i, k) ∈ ros → k ≤ log.length ∧ Ran db initialTs h log i k []

variable {db initialTs} {h : List TxnCall} {log : List (Nat × List WriteOpt)}
  {ros : List (Nat × Nat)}

theorem readAt_append (e : Nat × List WriteOpt) {k : Nat} (hk : k ≤ log.length) :
    readAt db initialTs (log ++ [e]) k = readAt db initialTs log k := by
  unfold readAt
  rw [take_append_of_le_length hk]

theorem ledger_nil : Ledger db initialTs [] [] [] :=
  ⟨fun i => by simp [CommittedIn], by simp, fun k i ops hk => by simp at hk,
    fun i k hk => by simp at hk⟩

theorem Ran.callsOf_eq {i k : Nat} {ops : List WriteOpt} (hr : Ran db initialTs h log i k ops)
    {h' : List TxnCall} {log' : List (Nat × List WriteOpt)} (hc : callsOf i h' = callsOf i h)
    (hread : readAt db initialTs log' k = readAt db initialTs log k) :
    Ran db initialTs h' log' i k ops := by
  obtain ⟨calls, hcalls, hbody, hops⟩ := hr
  exact ⟨calls, hc.trans hcalls, hread ▸ hbody, hops⟩

section

variable (hl : Ledger db initialTs h log ros)
include hl

theorem Ledger.ran_committed {k i : Nat} {ops : List WriteOpt} (hk : log[k]? = some (i, ops)) :
    CommittedIn h i :=
  (hl.mem i).2 (mem_append_left _ (mem_map.2 ⟨_, mem_of_getElem? hk, rfl⟩))

theorem Ledger.ros_committed {k i : Nat} (hk : (i, k) ∈ ros) : CommittedIn h i :=
  (hl.mem i).2 (mem_append_right _ (mem_map.2 ⟨_, hk, rfl⟩))

/-- A call that commits nothing, of a transaction that has not committed. -/
theorem Ledger.other {c : TxnCall} (hc : ∀ i, c ≠ (.commit i, .committed true))
    (hbody : c.1.ofBody = true → ¬ CommittedIn h c.1.txn) :
    Ledger db initialTs (h ++ [c]) log ros := by
  have hcalls : ∀ j, CommittedIn h j → callsOf j (h ++ [c]) = callsOf j h := fun j hj =>
    callsOf_other fun ⟨he, hb⟩ => hbody hb (he ▸ hj)
  refine ⟨fun i => ?_, hl.nodup, fun k i ops hk => ?_, fun i k hk => ?_⟩
  · rw [committedIn_append, ← hl.mem i]
    exact or_iff_left (hc i)
  · obtain ⟨hne, hr⟩ := hl.logOk k i ops hk
    exact ⟨hne, hr.callsOf_eq (hcalls i (hl.ran_committed hk)) rfl⟩
  · obtain ⟨hle, hr⟩ := hl.rosOk i k hk
    exact ⟨hle, hr.callsOf_eq (hcalls i (hl.ros_committed hk)) rfl⟩

end

variable {res : TxnResult}

theorem callsOf_commit_self {i : Nat} :
    callsOf i (h ++ [(.commit i, res)]) = callsOf i h ++ [(.commit i, res)] := by
  have hb : TxnEvent.ofBody (.commit i) = true := rfl
  exact callsOf_body (c := (.commit i, res)) rfl hb

/-- The calls of the others when a transaction commits. -/
theorem callsOf_commit {i j : Nat} (hj : j ≠ i) :
    callsOf j (h ++ [(.commit i, res)]) = callsOf j h :=
  callsOf_other fun ⟨he, _⟩ => hj he.symm

variable {calls : List TxnCall}

/-- A transaction that only read commits. -/
theorem Ledger.readOnly (hl : Ledger db initialTs h log ros) {i k : Nat} (hi : ¬ CommittedIn h i)
    (hk : k ≤ log.length) (hcalls : callsOf i h = (.begin i true, .none) :: calls)
    (hbody : ∀ c ∈ calls, BodyCall i db.size (readAt db initialTs log k) c)
    (hops : writesOf calls = []) :
    Ledger db initialTs (h ++ [(.commit i, .committed true)]) log (ros ++ [(i, k)]) := by
  have hne : ∀ j, CommittedIn h j → j ≠ i := fun j hj he => hi (he ▸ hj)
  refine ⟨fun j => ?_, ?_, fun k' j ops hk' => ?_, fun j k' hk' => ?_⟩
  · rw [committedIn_append, hl.mem j]
    simp [or_assoc, eq_comm]
  · have hnot := mt (hl.mem i).2 hi
    rw [map_append, ← append_assoc]
    exact nodup_append.2 ⟨hl.nodup, nodup_singleton _, fun a ha b hb he => by
      have hbi : b = i := by simpa using hb
      exact hnot (hbi ▸ he ▸ ha)⟩
  · obtain ⟨h1, hr⟩ := hl.logOk k' j ops hk'
    exact ⟨h1, hr.callsOf_eq (callsOf_commit (hne j (hl.ran_committed hk'))) rfl⟩
  · rcases mem_append.1 hk' with hk' | hk'
    · obtain ⟨h1, hr⟩ := hl.rosOk j k' hk'
      exact ⟨h1, hr.callsOf_eq (callsOf_commit (hne j (hl.ros_committed hk'))) rfl⟩
    · cases mem_singleton.1 hk'
      refine ⟨hk, calls, ?_, hbody, hops⟩
      rw [callsOf_commit_self, hcalls]
      rfl

/-- A transaction that wrote commits. -/
theorem Ledger.update (hl : Ledger db initialTs h log ros) {i : Nat} (hi : ¬ CommittedIn h i)
    (hcalls : callsOf i h = (.begin i true, .none) :: calls)
    (hbody : ∀ c ∈ calls, BodyCall i db.size (readAt db initialTs log log.length) c)
    (hops : writesOf calls ≠ []) :
    Ledger db initialTs (h ++ [(.commit i, .committed true)]) (log ++ [(i, writesOf calls)])
      ros := by
  have hne : ∀ j, CommittedIn h j → j ≠ i := fun j hj he => hi (he ▸ hj)
  refine ⟨fun j => ?_, ?_, fun k j ops hk => ?_, fun j k hk => ?_⟩
  · rw [committedIn_append, hl.mem j]
    simp [or_assoc, or_comm, eq_comm]
  · have hnot := mt (hl.mem i).2 hi
    rw [List.map_append, List.append_assoc]
    exact List.perm_middle.nodup_iff.2 (List.nodup_cons.2 ⟨hnot, hl.nodup⟩)
  · by_cases hlt : k < log.length
    · rw [List.getElem?_append_left hlt] at hk
      obtain ⟨h1, hr⟩ := hl.logOk k j ops hk
      exact ⟨h1, hr.callsOf_eq (callsOf_commit (hne j (hl.ran_committed hk)))
        (readAt_append _ (Nat.le_of_lt hlt))⟩
    · have hklen : k = log.length := by
        have hk' := (List.getElem?_eq_some_iff.1 hk).1
        rw [List.length_append, List.length_singleton] at hk'
        omega
      subst hklen
      rw [List.getElem?_append_right (Nat.le_refl _), Nat.sub_self] at hk
      cases hk
      refine ⟨hops, calls, ?_, ?_, rfl⟩
      · rw [callsOf_commit_self, hcalls]
        rfl
      · rw [readAt_append _ (Nat.le_refl _)]
        exact hbody
  · obtain ⟨h1, hr⟩ := hl.rosOk j k hk
    refine ⟨?_, hr.callsOf_eq (callsOf_commit (hne j (hl.ros_committed hk))) (readAt_append _ h1)⟩
    rw [List.length_append]
    omega

end

/-! ## The invariant of a history -/

section

variable (db : TxnDb) (initialTs : Nat)

/-- The state of a history with its ledger. -/
structure Hist (h : List TxnCall) (s : TxnSys) (log : List (Nat × List WriteOpt))
    (ros : List (Nat × Nat)) : Prop where
  ledger : Ledger db initialTs h log ros
  registered : Registered s
  clock : s.store.manager.currentTs = initialTs + log.length
  agree : Agree (replay db initialTs (log.map Prod.snd)) s.store.db
  upToDate : s.store.manager.UpToDate
  chainLe : ∀ v, ∀ rec ∈ s.store.db.chain v, rec.commitTs ≤ s.store.manager.currentTs
  absent : ∀ i, s.txns i = .absent → callsOf i h = []
  live : ∀ i t, s.txns i = .live t → t.committed = false → ∃ k calls, t.readTs = initialTs + k ∧
    k ≤ log.length ∧ callsOf i h = (.begin i true, .none) :: calls ∧
    (∀ c ∈ calls, BodyCall i db.size (readAt db initialTs log k) c) ∧ Buffered i t calls
  done : ∀ i, CommittedIn h i → s.txns i ≠ .absent ∧
    ∀ t, s.txns i = .live t → t.committed = true
  recorded : ∀ i t, s.txns i = .live t → ∀ v, ∀ rec ∈ s.store.db.chain v,
    t.readTs < rec.commitTs → ∃ e ∈ s.store.manager.committedTxns.entries,
      e.1 = rec.commitTs ∧ computeKeyHash v rec.second ∈ e.2.keyHashes

variable {db initialTs} {h : List TxnCall} {log : List (Nat × List WriteOpt)}
  {ros : List (Nat × Nat)} {s s' : TxnSys} {i : Nat}

theorem hist_start (ho : Opened initialTs db) :
    Hist db initialTs [] (.start initialTs db) [] [] where
  ledger := ledger_nil
  registered := registered_start initialTs db
  clock := rfl
  agree := Agree.refl db
  upToDate := fun e he => absurd he not_mem_nil
  chainLe := ho.chain
  absent := fun _ _ => rfl
  live := fun i t ht => by cases ht
  done := fun i hi => absurd hi not_mem_nil
  recorded := fun i t ht => by cases ht

section

variable (H : Hist db initialTs h s log ros)
include H

theorem Hist.not_committed {t : Txn} (hi : s.txns i = .live t) (ht : t.committed = false) :
    ¬ CommittedIn h i := fun hc => by
  have h1 := (H.done i hc).2 t hi
  rw [ht] at h1
  cases h1

theorem Hist.edgeOps : ∀ ops ∈ log.map Prod.snd, EdgeOps ops := by
  intro ops hops
  obtain ⟨⟨i, ops'⟩, he, rfl⟩ := mem_map.1 hops
  obtain ⟨k, hk⟩ := getElem?_of_mem he
  obtain ⟨-, calls, -, hbody, heq⟩ := H.ledger.logOk k i ops' hk
  exact heq ▸ edgeOps_writesOf hbody

theorem Hist.size : s.store.db.size = db.size :=
  H.agree.size.trans (replay_edge H.edgeOps).1

end

/-- A read sees the commits up to its timestamp. -/
theorem Hist.read (H : Hist db initialTs h s log ros) {k : Nat} (hk : k ≤ log.length) {v : VId}
    (hv : v < db.size) :
    s.store.db.readNeighborCloneTxn v (initialTs + k) = readAt db initialTs log k v := by
  have hsame := sameReads_replay db initialTs ((log.take k).map Prod.snd)
    ((log.drop k).map Prod.snd)
  rw [← map_append, take_append_drop, length_map, length_take,
    Nat.min_eq_left hk] at hsame
  have hsize : (replay db initialTs ((log.take k).map Prod.snd)).size = db.size := by
    refine (replay_edge fun ops hops => H.edgeOps ops ?_).1
    exact map_subset _ (take_subset k log) hops
  rw [H.agree.read]
  exact hsame.read v (hsize.symm ▸ hv)

/-- When no record of `v` is newer than the timestamp `k`, the later commits change nothing. -/
theorem Hist.read_last (H : Hist db initialTs h s log ros) (ho : Opened initialTs db) {k : Nat}
    (hk : k ≤ log.length) {v : VId} (hv : v < db.size)
    (hnew : ∀ rec ∈ s.store.db.chain v, rec.commitTs ≤ initialTs + k) :
    readAt db initialTs log log.length v = readAt db initialTs log k v := by
  rw [← H.read (Nat.le_refl _) hv, ← H.read hk hv]
  have hbase : s.store.db.baseEdges v = db.baseEdges v :=
    (H.agree.baseEdges v).trans ((replay_edge H.edgeOps).2 v)
  have hts : ∀ e ∈ s.store.db.baseEdges v, ∀ k, (e.2 = 0 ∨ e.2 ≤ initialTs + k) = True := by
    intro e he k
    have hle := ho.base v e (hbase ▸ he)
    exact eq_true (.inr (Nat.le_trans hle (Nat.le_add_right _ _)))
  have hscan : ∀ (recs : List TxnRecord) (scan : TxnDb.Scan),
      (∀ rec ∈ recs, rec.commitTs ≤ initialTs + k) →
      recs.foldl (TxnDb.Scan.visit (initialTs + log.length)) scan =
        recs.foldl (TxnDb.Scan.visit (initialTs + k)) scan := by
    intro recs
    induction recs with
    | nil => exact fun _ _ => rfl
    | cons rec recs ih =>
      intro scan hle
      obtain ⟨h1, h2⟩ := forall_mem_cons.1 hle
      have hvis : rec.Visible (initialTs + log.length) ↔ rec.Visible (initialTs + k) := by
        unfold TxnRecord.Visible
        refine and_congr Iff.rfl (and_congr Iff.rfl (iff_of_true ?_ h1))
        omega
      rw [foldl_cons, foldl_cons, ih _ h2]
      unfold TxnDb.Scan.visit
      simp only [hvis]
  have hfilter : ∀ k, (s.store.db.baseEdges v).filter (fun e => e.2 = 0 ∨ e.2 ≤ initialTs + k) =
      s.store.db.baseEdges v := fun k =>
    filter_eq_self.2 fun e he => by simpa using hts e he k
  unfold TxnDb.readNeighborCloneTxn TxnDb.scanChain
  rw [hscan _ _ hnew, hfilter, hfilter]

/-- A call that commits nothing. -/
theorem Hist.touch (H : Hist db initialTs h s log ros) {c : TxnCall} {x : TxnState} {m : TxnManager}
    (hs : s' = (s.setManager m).set i x) (hclock : m.currentTs = s.store.manager.currentTs)
    (hcom : m.committedTxns = s.store.manager.committedTxns) (hc : c.1.txn = i)
    (hnc : ∀ j, c ≠ (.commit j, .committed true)) (hbody : c.1.ofBody = true → ¬ CommittedIn h i)
    (hx : x ≠ .absent)
    (hlive : ∀ t, x = .live t → t.committed = false → ∃ k calls, t.readTs = initialTs + k ∧
      k ≤ log.length ∧ callsOf i (h ++ [c]) = (.begin i true, .none) :: calls ∧
      (∀ c ∈ calls, BodyCall i db.size (readAt db initialTs log k) c) ∧ Buffered i t calls)
    (hdone : CommittedIn h i → ∀ t, x = .live t → t.committed = true)
    (hts : ∀ t, x = .live t → t.readTs = s.store.manager.currentTs ∨
      ∃ t0, s.txns i = .live t0 ∧ t0.readTs = t.readTs)
    (hreg : Registered s') : Hist db initialTs (h ++ [c]) s' log ros := by
  have hself : s'.txns i = x := by
    rw [hs]
    exact set_self _ _ _
  have hne : ∀ j, j ≠ i → s'.txns j = s.txns j := fun j hj => by
    rw [hs]
    exact set_ne _ _ hj
  have hdb : s'.store.db = s.store.db := by rw [hs]; rfl
  have hm : s'.store.manager = m := by rw [hs]; rfl
  have hcalls : ∀ j, j ≠ i → callsOf j (h ++ [c]) = callsOf j h := fun j hj =>
    callsOf_other fun ⟨he, _⟩ => hj (he.symm.trans hc)
  refine ⟨H.ledger.other hnc (fun hb => hc ▸ hbody hb), hreg, ?_, ?_, ?_, ?_, fun j hj => ?_,
    fun j t hj ht => ?_, fun j hj => ?_, fun j t hj => ?_⟩
  · rw [hm, hclock]
    exact H.clock
  · rw [hdb]
    exact H.agree
  · rw [hm]
    unfold TxnManager.UpToDate
    rw [hclock, hcom]
    exact H.upToDate
  · rw [hdb, hm, hclock]
    exact H.chainLe
  · by_cases hji : j = i
    · subst hji
      exact absurd (hself.symm.trans hj) hx
    · rw [hne j hji] at hj
      rw [hcalls j hji]
      exact H.absent j hj
  · by_cases hji : j = i
    · subst hji
      exact hlive t (hself.symm.trans hj) ht
    · rw [hne j hji] at hj
      rw [hcalls j hji]
      exact H.live j t hj ht
  · have hj' := (committedIn_append.1 hj).resolve_right (hnc j)
    by_cases hji : j = i
    · subst hji
      exact ⟨fun ha => hx (hself.symm.trans ha), fun t ht => hdone hj' t (hself.symm.trans ht)⟩
    · rw [hne j hji]
      exact H.done j hj'
  · rw [hdb, hm, hcom]
    by_cases hji : j = i
    · subst hji
      intro v rec hrec hlt
      rcases hts t (hself.symm.trans hj) with hr | ⟨t0, h0, hr⟩
      · exact absurd (H.chainLe v rec hrec) (Nat.not_le.2 (hr ▸ hlt))
      · exact H.recorded j t0 h0 v rec hrec (hr ▸ hlt)
    · rw [hne j hji] at hj
      exact H.recorded j t hj

/-- The calls of a live transaction. -/
theorem Hist.call (H : Hist db initialTs h s log ros) {t t' : Txn} {c : TxnCall}
    (hi : s.txns i = .live t) (ht : t.committed = false) (hc : c.1.txn = i)
    (hbody : c.1.ofBody = true) (hnc : ∀ j, c ≠ (.commit j, .committed true))
    (hr : t'.readTs = t.readTs) (hcall : ∀ k, t.readTs = initialTs + k → k ≤ log.length →
      BodyCall i db.size (readAt db initialTs log k) c)
    (hbuilt : ∀ calls, Buffered i t calls → Buffered i t' (calls ++ [c]))
    (hreg : Registered (s.set i (.live t'))) :
    Hist db initialTs (h ++ [c]) (s.set i (.live t')) log ros := by
  refine H.touch (m := s.store.manager) rfl rfl rfl hc hnc
    (fun _ => H.not_committed hi ht) (by simp) (fun u hu _ => ?_)
    (fun hcom => absurd hcom (H.not_committed hi ht)) (fun u hu => .inr ?_) hreg
  · cases hu
    obtain ⟨k, calls, hk, hle, hcalls, hb, hbt⟩ := H.live i t hi ht
    refine ⟨k, calls ++ [c], hr.trans hk, hle, ?_, fun c' hc' => ?_, hbuilt calls hbt⟩
    · rw [callsOf_body hc hbody, hcalls]
      rfl
    · rcases mem_append.1 hc' with hc' | hc'
      · exact hb c' hc'
      · exact mem_singleton.1 hc' ▸ hcall k hk hle
  · cases hu
    exact ⟨t, hi, hr.symm⟩

section

variable (H : Hist db initialTs h s log ros)
include H

variable {calls : List TxnCall} {t : Txn}

/-- A commit that passes its check has read nothing that changed since its snapshot. -/
theorem Hist.commit_reads (ho : Opened initialTs db) (hi : s.txns i = .live t)
    (hd : Detected s (.commit i)) {k : Nat} (hk : t.readTs = initialTs + k) (hle : k ≤ log.length)
    (hbody : ∀ c ∈ calls, BodyCall i db.size (readAt db initialTs log k) c)
    (hb : Buffered i t calls) (hops : t.writeOps ≠ []) (hconf : ¬ t.Conflicts s.store.manager) :
    ∀ c ∈ calls, BodyCall i db.size (readAt db initialTs log log.length) c := by
  have hwrites : t.writeSetHashes ≠ ∅ := by
    obtain ⟨op, hop⟩ := exists_mem_of_ne_nil _ hops
    exact Finset.ne_empty_of_mem (hb.writes op hop)
  have hcheck : s.store.manager.checkSerializableConflict t.readTs t.readSetHashes ≠ true :=
    fun hc => hconf ⟨hb.serializable, hwrites, hc⟩
  intro c hc
  cases hbody c hc with
  | @read v hv =>
    have hread := hb.reads v _ hc
    -- a newer record would be in a recorded write set, under a hash that was read
    have hnew : ∀ rec ∈ s.store.db.chain v, rec.commitTs ≤ initialTs + k := by
      intro rec hrec
      by_contra hlt
      rw [← hk, Nat.not_le] at hlt
      obtain ⟨e, he, hets, hhash⟩ := H.recorded i t hi v rec hrec hlt
      exact hcheck (checkSerializableConflict_iff.2
        ⟨e, he, hets ▸ hlt, _, hd t hi hops v hread rec hrec hlt, hhash⟩)
    rw [← H.read_last ho hle hv hnew]
    exact .read hv
  | write hop => exact .write hop

/-- A commit without writes. -/
theorem Hist.commitEmpty (hi : s.txns i = .live t) (ht : t.committed = false) {k : Nat}
    (hle : k ≤ log.length) (hcalls : callsOf i h = (.begin i true, .none) :: calls)
    (hbody : ∀ c ∈ calls, BodyCall i db.size (readAt db initialTs log k) c)
    (hops : writesOf calls = []) (hs : s' = s.set i (.live { t with committed := true }))
    (hreg : Registered s') :
    Hist db initialTs (h ++ [(.commit i, .committed true)]) s' log (ros ++ [(i, k)]) := by
  -- as for a call that commits nothing, with the ledger of the longer history
  have hother : Hist db initialTs (h ++ [(.commit i, .committed false)]) s' log ros := by
    refine H.touch (m := s.store.manager) hs rfl rfl rfl (by simp)
      (fun _ => H.not_committed hi ht) (by simp) (fun u hu hcf => ?_)
      (fun hcom => absurd hcom (H.not_committed hi ht)) (fun u hu => .inr ?_) hreg
    · cases hu
      cases hcf
    · cases hu
      exact ⟨t, hi, rfl⟩
  have hself : s'.txns i = .live { t with committed := true } := by
    rw [hs]
    exact set_self _ _ _
  have hne : ∀ j u, s'.txns j = .live u → u.committed = false → j ≠ i := by
    rintro j u hj hu rfl
    rw [hself] at hj
    cases hj
    cases hu
  refine ⟨H.ledger.readOnly (H.not_committed hi ht) hle hcalls hbody hops, hreg, hother.clock,
    hother.agree, hother.upToDate, hother.chainLe, fun j hj => ?_, fun j u hj hu => ?_,
    fun j hj => ?_, hother.recorded⟩
  · have hji : j ≠ i := by
      rintro rfl
      rw [hself] at hj
      cases hj
    rw [callsOf_commit hji, ← callsOf_commit hji]
    exact hother.absent j hj
  · have hji := hne j u hj hu
    rw [callsOf_commit hji, ← callsOf_commit hji]
    exact hother.live j u hj hu
  · rcases committedIn_append.1 hj with hj | hj
    · exact hother.done j (committedIn_append.2 (.inl hj))
    · cases hj
      refine ⟨fun ha => ?_, fun u hu => ?_⟩
      · rw [hself] at ha
        cases ha
      · rw [hself] at hu
        cases hu
        rfl

/-- A commit that applies its writes. -/
theorem Hist.commit (ho : Opened initialTs db) (hi : s.txns i = .live t) (ht : t.committed = false)
    (hd : Detected s (.commit i)) (hops : t.writeOps ≠ []) (hconf : ¬ t.Conflicts s.store.manager)
    (hs : s' = set ⟨t.storeAfter cleanupOldTxns s.store, s.txns⟩ i
      (.live t.afterCommit)) (hreg : Registered s') :
    Hist db initialTs (h ++ [(.commit i, .committed true)]) s' (log ++ [(i, t.writeOps)]) ros := by
  obtain ⟨k, calls, hk, hle, hcalls, hbody, hb⟩ := H.live i t hi ht
  have hbody' := H.commit_reads ho hi hd hk hle hbody hb hops hconf
  have hedge : EdgeOps t.writeOps := hb.writeOps ▸ edgeOps_writesOf hbody
  have hncom := H.not_committed hi ht
  set ts := s.store.manager.currentTs + 1 with hts
  have hself : s'.txns i = .live t.afterCommit := by
    rw [hs]
    exact set_self _ _ _
  have hne : ∀ j, j ≠ i → s'.txns j = s.txns j := fun j hj => by
    rw [hs]
    exact set_ne _ _ hj
  have hdb : s'.store.db = (s.store.db.applyWrites t.readTs ts t.writeOps).2 := by rw [hs]; rfl
  have hm : s'.store.manager = t.recordCommit cleanupOldTxns ts
      s.store.manager.allocCommitTs.2 := by rw [hs]; rfl
  have hclock : s'.store.manager.currentTs = ts := by
    rw [hm]
    exact (cleansUp_cleanupOldTxns.recordCommit t _ _).2
  have hlen : (log ++ [(i, t.writeOps)]).length = log.length + 1 := by simp
  obtain ⟨-, -, hchain⟩ := applyWrites_edge hedge t.readTs ts s.store.db
  rw [← hdb] at hchain
  refine ⟨?_, hreg, ?_, ?_, ?_, fun v rec hrec => ?_, fun j hj => ?_, fun j u hj hu => ?_,
    fun j hj => ?_, fun j u hj v rec hrec hlt => ?_⟩
  · have hl := H.ledger.update hncom hcalls hbody' (hb.writeOps ▸ hops)
    rw [← hb.writeOps] at hl
    exact hl
  · rw [hclock, hlen, hts, H.clock]
    omega
  · rw [map_append, hdb, map_singleton, replay_concat, length_map, ← H.clock]
    exact H.agree.applyWrites _ 0 t.readTs ts
  · rw [hm]
    exact H.upToDate.recordCommit t
  · rw [hclock]
    rcases hchain v rec hrec with hold | ⟨heq, -⟩
    · exact Nat.le_succ_of_le (H.chainLe v rec hold)
    · exact Nat.le_of_eq heq
  · by_cases hji : j = i
    · subst hji
      rw [hself] at hj
      cases hj
    · rw [hne j hji] at hj
      rw [callsOf_commit hji]
      exact H.absent j hj
  · by_cases hji : j = i
    · subst hji
      rw [hself] at hj
      cases hj
      cases hu
    · rw [hne j hji] at hj
      obtain ⟨k', calls', hk', hle', hcalls', hbody'', hb'⟩ := H.live j u hj hu
      refine ⟨k', calls', hk', by omega, ?_, ?_, hb'⟩
      · rw [callsOf_commit hji]
        exact hcalls'
      · rw [readAt_append _ hle']
        exact hbody''
  · by_cases hji : j = i
    · subst hji
      refine ⟨fun ha => ?_, fun u hu => ?_⟩
      · rw [hself] at ha
        cases ha
      · rw [hself] at hu
        cases hu
        rfl
    · rw [hne j hji]
      refine H.done j ((committedIn_append.1 hj).resolve_right fun he => hji ?_)
      cases he
      rfl
  · -- the watermark keeps every write set that a live transaction can still run into
    obtain ⟨u0, hu0, hr⟩ : ∃ u0, s.txns j = .live u0 ∧ u0.readTs = u.readTs := by
      by_cases hji : j = i
      · subst hji
        rw [hself] at hj
        cases hj
        exact ⟨t, hi, rfl⟩
      · rw [hne j hji] at hj
        exact ⟨u, hj, rfl⟩
    have hltAll : ∀ e ∈ s.store.manager.committedTxns.entries, e.1 < ts :=
      fun e he => Nat.lt_succ_of_le (H.upToDate e he)
    set data : CommittedTxnData := ⟨t.writeSetHashes, t.readTs, ts⟩
    have hent : ∀ e, e = (ts, data) ∨ e ∈ s.store.manager.committedTxns.entries →
        u.readTs < e.1 → e ∈ s'.store.manager.committedTxns.entries := by
      intro e he hlt
      have hwm : getWatermark
          (s.store.manager.allocCommitTs.2.addCommittedTxn ts data) ≤ e.1 := by
        refine Nat.le_of_lt (Nat.lt_of_le_of_lt (getWatermark_le ?_) hlt)
        exact H.registered.count_pos.2 ⟨j, u0, hu0, hr⟩
      rw [hm]
      unfold Txn.recordCommit
      rw [if_pos hb.serializable]
      exact OrdMap.mem_dropBelow.2 ⟨(mem_emplace hltAll).2 he, hwm⟩
    rcases hchain v rec hrec with hold | ⟨heq, op, hop, rfl, hsecond⟩
    · obtain ⟨e, he, hets, hhash⟩ := H.recorded j u0 hu0 v rec hold (hr ▸ hlt)
      exact ⟨e, hent e (.inr he) (hets ▸ hlt), hets, hhash⟩
    · exact ⟨(ts, data), hent _ (.inl rfl) (heq ▸ hlt), heq.symm, hsecond ▸ hb.writes op hop⟩

/-- One call keeps the invariant, with a longer ledger if it commits. -/
theorem Hist.step (ho : Opened initialTs db) {c : TxnCall} (hscope : InScope s c.1)
    (hd : Detected s c.1) (hs : TxnCallStep s c s') :
    ∃ log' ros', Hist db initialTs (h ++ [c]) s' log' ros' := by
  obtain ⟨e, res⟩ := c
  obtain ⟨hstep, hres⟩ := hs
  simp only at hscope hd hstep hres
  have hreg : Registered s' :=
    H.registered.step cleansUp_cleanupOldTxns (TxnSys.step_effect hstep)
  cases e with
  | load i b => exact absurd hscope id
  | register i => exact absurd hscope id
  | begin i b =>
    have hb : b = true := hscope
    subst hb
    have hstep' : s.begin i true = some s' := hstep
    unfold TxnSys.begin at hstep'
    split at hstep'
    · rename_i habs
      cases hstep'
      have hncom : ¬ CommittedIn h i := fun hc => (H.done i hc).1 habs
      refine ⟨log, ros, H.touch rfl rfl rfl rfl (by simp) (fun _ => hncom) (by simp)
        (fun t ht _ => ?_) (fun hc => absurd hc hncom) (fun t ht => .inl ?_) hreg⟩
      · cases ht
        refine ⟨log.length, [], H.clock, Nat.le_refl _, ?_, by simp, buffered_new i _⟩
        have hcalls : callsOf i (h ++ [(.begin i true, res)]) =
            callsOf i h ++ [(.begin i true, res)] :=
          callsOf_body (c := (.begin i true, res)) rfl (show TxnEvent.ofBody _ = true from rfl)
        rw [hcalls, H.absent i habs, hres]
        rfl
      · cases ht
        rfl
    · cases hstep'
  | getNeighbors i v =>
    obtain ⟨t, t', hi, hf, rfl⟩ := TxnSys.onTxn_cases hstep
    have ht : t.committed = false := by
      by_contra hc
      have hc : t.committed = true := by simpa using hc
      unfold Txn.getNeighbors at hf
      rw [if_pos hc] at hf
      cases hf
    obtain ⟨-, calls0, -, -, -, -, hb0⟩ := H.live i t hi ht
    rw [hb0.getNeighbors] at hf
    cases hf
    have hres : res = .neighbors (s.store.db.readNeighborCloneTxn v t.readTs) := by
      rw [hres]
      unfold TxnSys.result
      simp only [hi]
    refine ⟨log, ros, H.call hi ht rfl rfl (by simp) rfl (fun k hk hle => ?_)
      (fun calls hb => hb.read v res) hreg⟩
    have hv : v < db.size := H.size ▸ hscope
    rw [hres, hk, H.read hle hv]
    exact .read hv
  | write i op =>
    obtain ⟨t, t', hi, hf, rfl⟩ := TxnSys.onTxn_cases hstep
    have ht : t.committed = false := by
      by_contra hc
      have hc : t.committed = true := by simpa using hc
      unfold Txn.bufferWrite at hf
      rw [if_pos hc] at hf
      cases hf
    obtain ⟨-, calls0, -, -, -, -, hb0⟩ := H.live i t hi ht
    rw [hb0.bufferWrite] at hf
    cases hf
    have hres : res = .none := hres
    subst hres
    exact ⟨log, ros, H.call hi ht rfl rfl (by simp) rfl (fun k _ _ => .write hscope)
      (fun calls hb => hb.write op) hreg⟩
  | commit i =>
    have hstep' : s.commit cleanupOldTxns i = some s' := hstep
    unfold TxnSys.commit at hstep'
    split at hstep'
    · rename_i t hi
      split at hstep'
      · rename_i ok t' st hc
        cases hstep'
        have hres : res = .committed ok := by
          rw [hres]
          unfold TxnSys.result Txn.commit
          simp only [hi, hc]
        subst hres
        obtain ⟨ht, ⟨hops, rfl, rfl, rfl⟩ | ⟨-, -, rfl, rfl, rfl⟩ | ⟨hops, hconf, rfl, rfl, rfl⟩⟩ :=
          Txn.commitWith_cases hc
        · obtain ⟨k, calls, hk, hle, hcalls, hbody, hb⟩ := H.live i t hi ht
          exact ⟨log, ros ++ [(i, k)], H.commitEmpty hi ht hle hcalls hbody
            (hb.writeOps ▸ hops) rfl hreg⟩
        · refine ⟨log, ros, H.touch (m := s.store.manager) rfl rfl rfl rfl (by simp)
            (fun _ => H.not_committed hi ht) (by simp) (fun u hu hcf => ?_)
            (fun hcom => absurd hcom (H.not_committed hi ht)) (fun u hu => .inr ?_) hreg⟩
          · cases hu
            cases hcf
          · cases hu
            exact ⟨t, hi, rfl⟩
        · exact ⟨_, ros, H.commit ho hi ht hd hops hconf rfl hreg⟩
      · cases hstep'
    · cases hstep'
  | abort i =>
    obtain ⟨t, t', hi, hf, rfl⟩ := TxnSys.onTxn_cases (f := fun t => .ok t.abort) hstep
    cases hf
    have hcom : t.abort.committed = true := by
      unfold Txn.abort
      split_ifs with hc
      · exact hc
      · rfl
    refine ⟨log, ros, H.touch (m := s.store.manager) rfl rfl rfl rfl (by simp)
      (fun hb => by cases hb) (by simp) (fun u hu hcf => ?_) (fun _ u hu => ?_)
      (fun u hu => .inr ?_) hreg⟩
    · cases hu
      rw [hcom] at hcf
      cases hcf
    · cases hu
      exact hcom
    · cases hu
      exact ⟨t, hi, (TxnSys.abort_readTs rfl).symm⟩
  | destroy i =>
    have hstep' : s.destroy i = some s' := hstep
    unfold TxnSys.destroy at hstep'
    split at hstep'
    · cases hstep'
      exact ⟨log, ros, H.touch rfl rfl rfl rfl (by simp) (fun hb => by cases hb) (by simp)
        (fun u hu => by cases hu) (fun _ u hu => by cases hu) (fun u hu => by cases hu) hreg⟩
    · cases hstep'

end

/-! ## The serial execution -/

/-- The serial execution behind the first `n` commits, with the transactions that ran. -/
structure SerialAt (db : TxnDb) (initialTs : Nat) (log : List (Nat × List WriteOpt)) (n : Nat)
    (ran : List Nat) (s : TxnSys) : Prop where
  clock : s.store.manager.currentTs = initialTs + n
  agree : Agree (replay db initialTs ((log.take n).map Prod.snd)) s.store.db
  upToDate : s.store.manager.UpToDate
  absent : ∀ i, i ∉ ran → s.txns i = .absent

theorem serialAt_start : SerialAt db initialTs log 0 [] (.start initialTs db) :=
  ⟨rfl, Agree.refl db, fun _ he => absurd he not_mem_nil, fun _ _ => rfl⟩

theorem SerialAt.read {n : Nat} {ran : List Nat} (hs : SerialAt db initialTs log n ran s) (v : VId) :
    s.store.db.readNeighborCloneTxn v s.store.manager.currentTs = readAt db initialTs log n v := by
  rw [hs.clock, hs.agree.read]
  rfl

variable {ran : List Nat} {n : Nat}

variable {ops : List WriteOpt}

section

variable (hs : SerialAt db initialTs log n ran s) (hi : i ∉ ran)
include hs hi

/-- A transaction of the ledger runs alone with the results it had. -/
theorem SerialAt.run (hr : Ran db initialTs h log i n ops) :
    ∃ s', Steps TxnCallStep s (callsOf i h) s' ∧ RanAlone s s' i ops ∧ EdgeOps ops ∧
      ∀ j, j ∉ ran ++ [i] → s'.txns j = .absent := by
  obtain ⟨calls, hcalls, hbody, rfl⟩ := hr
  have hread : readAt db initialTs log n =
      fun v => s.store.db.readNeighborCloneTxn v s.store.manager.currentTs :=
    funext fun v => (hs.read v).symm
  obtain ⟨s', run, halone⟩ := steps_alone (hs.absent i hi) hs.upToDate (hread ▸ hbody)
  refine ⟨s', hcalls ▸ run, halone, edgeOps_writesOf hbody, fun j hj => ?_⟩
  rw [mem_append, mem_singleton, not_or] at hj
  rw [halone.others j hj.2]
  exact hs.absent j hj.1

theorem SerialAt.readOnly (hr : Ran db initialTs h log i n []) :
    ∃ s', Steps TxnCallStep s (callsOf i h) s' ∧ SerialAt db initialTs log n (ran ++ [i]) s' := by
  obtain ⟨s', run, halone, -, habs⟩ := hs.run hi hr
  obtain ⟨hclock, hdb⟩ := halone.readOnly rfl
  exact ⟨s', run, hclock.trans hs.clock, hdb ▸ hs.agree, halone.upToDate, habs⟩

omit hs hi in
theorem SerialAt.readOnlys {is : List Nat} (hr : ∀ i ∈ is, Ran db initialTs h log i n [])
    (hnd : (ran ++ is).Nodup) (hs : SerialAt db initialTs log n ran s) :
    ∃ s', Steps TxnCallStep s (is.flatMap fun i => callsOf i h) s' ∧
      SerialAt db initialTs log n (ran ++ is) s' := by
  induction is generalizing s ran with
  | nil => exact ⟨s, .nil, by simpa using hs⟩
  | cons i is ih =>
    have hi : i ∉ ran := fun hm => (nodup_append.1 hnd).2.2 i hm i mem_cons_self rfl
    obtain ⟨s1, run1, hs1⟩ := hs.readOnly hi (hr i mem_cons_self)
    rw [append_cons] at hnd ⊢
    obtain ⟨s2, run2, hs2⟩ := ih (fun j hj => hr j (mem_cons_of_mem _ hj)) hnd hs1
    exact ⟨s2, run1.append run2, hs2⟩

theorem SerialAt.update (hn : log[n]? = some (i, ops)) (hops : ops ≠ [])
    (hr : Ran db initialTs h log i n ops) :
    ∃ s', Steps TxnCallStep s (callsOf i h) s' ∧
      SerialAt db initialTs log (n + 1) (ran ++ [i]) s' := by
  obtain ⟨s', run, halone, hedge, habs⟩ := hs.run hi hr
  obtain ⟨hclock, hdb⟩ := halone.update hops
  refine ⟨s', run, hclock.trans (by rw [hs.clock]; rfl), ?_, halone.upToDate, habs⟩
  have hlen : (log.take n).length = n :=
    List.length_take_of_le (Nat.le_of_lt (List.getElem?_eq_some_iff.1 hn).1)
  rw [List.take_add_one, hn, List.map_append, hdb, hs.clock]
  show Agree (replay db initialTs ((log.take n).map Prod.snd ++ [ops])) _
  rw [replay_concat, List.length_map, hlen]
  exact hs.agree.applyWrites _ 0 _ _

end

/-- The transactions between two commits: those that only read, then the next one to write. -/
def slot (log : List (Nat × List WriteOpt)) (ros : List (Nat × Nat)) (k : Nat) : List Nat :=
  (ros.filter fun p => p.2 = k).map Prod.fst ++ (log[k]?.map Prod.fst).toList

theorem mem_slot {k : Nat} : i ∈ slot log ros k ↔
    (i, k) ∈ ros ∨ ∃ ops, log[k]? = some (i, ops) := by
  unfold slot
  rw [mem_append]
  refine or_congr ?_ ?_
  · simp
  · cases log[k]? with
    | none => simp
    | some e => simp [Prod.ext_iff, eq_comm]

variable (hl : Ledger db initialTs h log ros)
include hl

/-- No transaction is in two slots. -/
theorem Ledger.nodup_slots (n : Nat) : ((range n).flatMap (slot log ros)).Nodup := by
  obtain ⟨hlog, hros, hdisj⟩ := List.nodup_append.1 hl.nodup
  have hin : ∀ {k i ops}, log[k]? = some (i, ops) → i ∈ log.map Prod.fst := fun hk =>
    List.mem_map.2 ⟨_, List.mem_of_getElem? hk, rfl⟩
  have hinr : ∀ {k i}, (i, k) ∈ ros → i ∈ ros.map Prod.fst := fun hk => List.mem_map.2 ⟨_, hk, rfl⟩
  refine List.nodup_flatMap.2 ⟨fun k _ => ?_, ?_⟩
  · refine List.nodup_append.2 ⟨(hros.sublist ((List.filter_sublist).map _)), ?_, ?_⟩
    · cases log[k]? with
      | none => exact List.nodup_nil
      | some e => exact List.nodup_singleton _
    · rintro a ha b hb rfl
      obtain ⟨p, hp, rfl⟩ := List.mem_map.1 ha
      have hb' : ∃ ops, log[k]? = some (p.1, ops) := by
        cases hk : log[k]? with
        | none => simp [hk] at hb
        | some e => exact ⟨e.2, by simp [hk] at hb; rw [hb]⟩
      obtain ⟨ops, hops⟩ := hb'
      exact hdisj _ (hin hops) _ (hinr (List.mem_of_mem_filter hp)) rfl
  · refine List.nodup_range.imp fun {k k'} hne => ?_
    intro i hk hk'
    rcases mem_slot.1 hk with hk | ⟨ops, hk⟩
    · rcases mem_slot.1 hk' with hk' | ⟨ops', hk'⟩
      · exact hne (congrArg Prod.snd (List.inj_on_of_nodup_map hros hk hk' rfl))
      · exact hdisj _ (hin hk') _ (hinr hk) rfl
    · rcases mem_slot.1 hk' with hk' | ⟨ops', hk'⟩
      · exact hdisj _ (hin hk) _ (hinr hk') rfl
      · have h1 : (log.map Prod.fst)[k]? = some i := by simp [hk]
        have h2 : (log.map Prod.fst)[k']? = some i := by simp [hk']
        have hlt : k < (log.map Prod.fst).length := (List.getElem?_eq_some_iff.1 h1).1
        exact hne ((List.getElem?_inj hlt hlog).1 (h1.trans h2.symm))

theorem Ledger.ran_readOnly (n : Nat) :
    ∀ i ∈ (ros.filter fun p => p.2 = n).map Prod.fst, Ran db initialTs h log i n [] := by
  intro i hi
  obtain ⟨p, hp, rfl⟩ := mem_map.1 hi
  obtain ⟨hp, hpn⟩ := mem_filter.1 hp
  have hpn : p.2 = n := by simpa using hpn
  exact hpn ▸ (hl.rosOk p.1 p.2 hp).2

theorem Ledger.serial_prefix (hn : n ≤ log.length) :
    ∃ s, Steps TxnCallStep (.start initialTs db)
        (((range n).flatMap (slot log ros)).flatMap fun i => callsOf i h) s ∧
      SerialAt db initialTs log n ((range n).flatMap (slot log ros)) s := by
  induction n with
  | zero => exact ⟨_, .nil, serialAt_start⟩
  | succ n ih =>
    obtain ⟨s, run, hs⟩ := ih (Nat.le_of_succ_le hn)
    have hnd := hl.nodup_slots (n + 1)
    rw [range_succ, flatMap_append, flatMap_singleton] at hnd ⊢
    obtain ⟨⟨i, ops⟩, hk⟩ : ∃ e, log[n]? = some e := ⟨_, getElem?_eq_getElem hn⟩
    obtain ⟨hops, hran⟩ := hl.logOk n i ops hk
    have hslot : slot log ros n = (ros.filter fun p => p.2 = n).map Prod.fst ++ [i] := by
      unfold slot
      rw [hk]
      rfl
    rw [hslot, ← append_assoc] at hnd ⊢
    obtain ⟨hnd1, -, hdisj⟩ := nodup_append.1 hnd
    obtain ⟨s1, run1, hs1⟩ := hs.readOnlys (hl.ran_readOnly n) hnd1
    have hi : i ∉ (range n).flatMap (slot log ros) ++
        (ros.filter fun p => p.2 = n).map Prod.fst := fun hm =>
      hdisj i hm i mem_cons_self rfl
    obtain ⟨s2, run2, hs2⟩ := hs1.update hi hk hops hran
    refine ⟨s2, ?_, hs2⟩
    rw [flatMap_append, flatMap_append, flatMap_singleton]
    exact (run.append run1).append run2

/-- The transactions of a ledger, one after another, return what they returned. -/
theorem Ledger.serial : Serializable initialTs db h := by
  obtain ⟨s, run, hs⟩ := hl.serial_prefix (Nat.le_refl _)
  have hlast : slot log ros log.length = (ros.filter fun p => p.2 = log.length).map Prod.fst := by
    unfold slot
    rw [List.getElem?_eq_none (Nat.le_refl _)]
    exact List.append_nil _
  have hnd := hl.nodup_slots (log.length + 1)
  have hsplit : (range (log.length + 1)).flatMap (slot log ros) =
      (range log.length).flatMap (slot log ros) ++
        (ros.filter fun p => p.2 = log.length).map Prod.fst := by
    rw [List.range_succ, List.flatMap_append, List.flatMap_singleton, hlast]
  refine ⟨(range (log.length + 1)).flatMap (slot log ros), hnd, fun i => ?_, ?_⟩
  · rw [hl.mem i, List.mem_flatMap, List.mem_append]
    constructor
    · rintro ⟨k, -, hk⟩
      rcases mem_slot.1 hk with hk | ⟨ops, hk⟩
      · exact .inr (List.mem_map.2 ⟨_, hk, rfl⟩)
      · exact .inl (List.mem_map.2 ⟨_, List.mem_of_getElem? hk, rfl⟩)
    · rintro (hi | hi)
      · obtain ⟨⟨j, ops⟩, he, rfl⟩ := List.mem_map.1 hi
        obtain ⟨k, hk⟩ := List.getElem?_of_mem he
        have hlt := (List.getElem?_eq_some_iff.1 hk).1
        exact ⟨k, List.mem_range.2 (by omega), mem_slot.2 (.inr ⟨ops, hk⟩)⟩
      · obtain ⟨⟨j, k⟩, he, rfl⟩ := List.mem_map.1 hi
        have hle := (hl.rosOk j k he).1
        exact ⟨k, List.mem_range.2 (by omega), mem_slot.2 (.inl he)⟩
  · rw [hsplit] at hnd ⊢
    obtain ⟨s', run', -⟩ := hs.readOnlys (hl.ran_readOnly log.length) hnd
    rw [List.flatMap_append]
    exact ⟨s', run.append run'⟩

end

/-- Every history of serializable transactions with an atomic begin is serializable if each
commit that writes can see, by the hashes it has read, every record that is newer than its
snapshot and of a vertex it has read. -/
theorem committed_serializable {initialTs : Nat} {db : TxnDb} (ho : Opened initialTs db)
    {h : List TxnCall} {s : TxnSys}
    (run : Steps (guarded (fun s c => InScope s c.1 ∧ Detected s c.1) TxnCallStep)
      (.start initialTs db) h s) : Serializable initialTs db h := by
  obtain ⟨log, ros, H⟩ := run.inv (fun h s => ∃ log ros, Hist db initialTs h s log ros)
    ⟨[], [], hist_start ho⟩
    fun _ _ _ _ ⟨_, _, H⟩ hstep => H.step ho hstep.1.1 hstep.1.2 hstep.2
  exact H.ledger.serial

/-! ## Two histories -/

/-- The calls with what they return. -/
def TxnSys.calls (s : TxnSys) : List TxnEvent → List TxnCall
  | [] => []
  | e :: es => (e, s.result e) ::
      ((s.step TxnManager.cleanupOldTxns e).map fun s' => s'.calls es).getD []

/-- Steps are determined by the calls. -/
theorem TxnSys.calls_of_steps {s s' : TxnSys} {h : List TxnCall} (run : Steps TxnCallStep s h s') :
    ∀ es, s.calls (h.map Prod.fst ++ es) = h ++ s'.calls es := by
  induction run with
  | nil => exact fun es => rfl
  | @snoc h s1 s2 c _ hs ih =>
    intro es
    rw [map_append, append_assoc, ih, append_assoc]
    obtain ⟨hstep, hres⟩ := hs
    have hstep : s1.step cleanupOldTxns c.1 = some s2 := hstep
    simp only [map_singleton, singleton_append, calls, hstep, ← hres,
      Option.map_some, Option.getD_some]

/-- The calls meet a condition, each in the state before it. -/
def TxnSys.Along (ok : TxnSys → TxnEvent → Prop) (s : TxnSys) : List TxnEvent → Prop
  | [] => True
  | e :: es => ok s e ∧ ∀ s', s.step TxnManager.cleanupOldTxns e = some s' → s'.Along ok es

theorem steps_calls {ok : TxnSys → TxnEvent → Prop} {es : List TxnEvent} {s s' : TxnSys}
    (h : runAll (step cleanupOldTxns) s es = some s') (hok : s.Along ok es) :
    Steps (guarded (fun s c => ok s c.1) TxnCallStep) s (s.calls es) s' := by
  induction es generalizing s with
  | nil =>
    cases h
    exact .nil
  | cons e es ih =>
    obtain ⟨s1, h1, h⟩ := Option.bind_eq_some_iff.1 h
    have hcalls : s.calls (e :: es) = (e, s.result e) :: s1.calls es := by
      simp only [calls, h1, Option.map_some, Option.getD_some]
    rw [hcalls]
    exact .cons ⟨hok.1, h1, rfl⟩ (ih h (hok.2 s1 h1))

/-- Two transactions, each of which reads a vertex that the other one writes. -/
def crossing (d d' : VId) : List TxnEvent :=
  [.begin 0 true, .begin 1 true, .getNeighbors 0 0, .getNeighbors 1 1,
    .write 0 ⟨.insertEdge, 1, d⟩, .write 1 ⟨.insertEdge, 0, d'⟩, .commit 0, .commit 1]

theorem opened_smallTxnDb : Opened 0 smallTxnDb := by
  constructor
  · intro v e he
    unfold TxnDb.baseEdges smallTxnDb at he
    simp only at he
    rcases v with _ | _ | _ | v
    · have he : e ∈ [((1 : VId), 0)] := he
      rw [mem_singleton.1 he]
    · cases he
    · cases he
    · cases he
  · intro v rec hrec
    cases hrec

/-- Both insert an edge to vertex 0, whose key hash is that of its source: the second one runs
into a conflict. -/
theorem committed_serializable_small :
    Serializable 0 smallTxnDb ((TxnSys.start 0 smallTxnDb).calls (crossing 0 0)) := by
  have hrun : (runAll (TxnSys.step TxnManager.cleanupOldTxns) (.start 0 smallTxnDb)
      (crossing 0 0)).isSome = true := by decide +kernel
  obtain ⟨s, hs⟩ := Option.isSome_iff_exists.1 hrun
  have hall : (TxnSys.start 0 smallTxnDb).Along (fun s e => InScope s e ∧ Detected s e)
      (crossing 0 0) → Serializable 0 smallTxnDb
        ((TxnSys.start 0 smallTxnDb).calls (crossing 0 0)) :=
    fun h => committed_serializable opened_smallTxnDb (steps_calls hs h)
  apply hall
  refine ⟨⟨rfl, trivial⟩, fun s1 h1 => ?_⟩
  cases h1
  refine ⟨⟨rfl, trivial⟩, fun s1 h1 => ?_⟩
  cases h1
  refine ⟨⟨show 0 < 3 by decide, trivial⟩, fun s1 h1 => ?_⟩
  cases h1
  refine ⟨⟨show 1 < 3 by decide, trivial⟩, fun s1 h1 => ?_⟩
  cases h1
  refine ⟨⟨.inl rfl, trivial⟩, fun s1 h1 => ?_⟩
  cases h1
  refine ⟨⟨.inl rfl, trivial⟩, fun s1 h1 => ?_⟩
  cases h1
  refine ⟨⟨trivial, fun t ht hops v hv rec hrec => ?_⟩, fun s1 h1 => ?_⟩
  · cases hrec
  cases h1
  refine ⟨⟨trivial, fun t ht hops v hv rec hrec hlt => ?_⟩, fun s1 h1 => trivial⟩
  have hrec : rec ∈ Function.update (fun _ => []) 1 [⟨.edge, .insert, 1, 0, 0, 1⟩] v := hrec
  have hsecond : rec.second = 0 := by
    by_cases h1 : v = 1
    · rw [h1, Function.update_self, mem_singleton] at hrec
      rw [hrec]
    · rw [Function.update_of_ne h1] at hrec
      cases hrec
  rw [hsecond]
  exact hv

/-- With other destinations both commit, and neither order gives both their results. -/
theorem committed_not_serializable :
    ¬ ∀ (initialTs : Nat) (db : TxnDb), Opened initialTs db → ∀ (h : List TxnCall) (s : TxnSys),
      Steps (guarded (fun s c => InScope s c.1) TxnCallStep) (.start initialTs db) h s →
      Serializable initialTs db h := by
  intro hall
  have hrun : (runAll (TxnSys.step TxnManager.cleanupOldTxns) (.start 0 smallTxnDb)
      (crossing 2 2)).isSome = true := by decide +kernel
  obtain ⟨s, hs⟩ := Option.isSome_iff_exists.1 hrun
  have hscope : (TxnSys.start 0 smallTxnDb).Along InScope (crossing 2 2) := by
    refine ⟨rfl, fun s1 h1 => ?_⟩
    cases h1
    refine ⟨rfl, fun s1 h1 => ?_⟩
    cases h1
    refine ⟨show 0 < 3 by decide, fun s1 h1 => ?_⟩
    cases h1
    refine ⟨show 1 < 3 by decide, fun s1 h1 => ?_⟩
    cases h1
    refine ⟨.inl rfl, fun s1 h1 => ?_⟩
    cases h1
    refine ⟨.inl rfl, fun s1 h1 => ⟨trivial, fun s1 h1 => ⟨trivial, fun s1 h1 => trivial⟩⟩⟩
  obtain ⟨order, hnd, hmem, s', run⟩ := hall 0 smallTxnDb opened_smallTxnDb _ s
    (steps_calls hs hscope)
  set h := (TxnSys.start 0 smallTxnDb).calls (crossing 2 2) with hh
  have hval : h = [(.begin 0 true, .none), (.begin 1 true, .none),
      (.getNeighbors 0 0, .neighbors [1]), (.getNeighbors 1 1, .neighbors []),
      (.write 0 ⟨.insertEdge, 1, 2⟩, .none), (.write 1 ⟨.insertEdge, 0, 2⟩, .none),
      (.commit 0, .committed true), (.commit 1, .committed true)] := by
    rw [hh]
    decide +kernel
  have hperm : order.Perm [0, 1] := by
    refine (perm_ext_iff_of_nodup hnd (by decide)).2 fun i => ?_
    rw [hmem i, CommittedIn, hval]
    simp
  have hcalls := TxnSys.calls_of_steps run []
  rw [append_nil, show s'.calls [] = [] from rfl, append_nil, hval] at hcalls
  rcases perm_pair.1 hperm with rfl | rfl
  · revert hcalls
    decide +kernel
  · revert hcalls
    decide +kernel

end BwGraph
