import BwGraph.Txn.Run

/-
  Erasing old write sets. Two runs over the same calls are compared, one in which every commit
  cleans up and one in which nothing is erased. They stay equal up to the recorded write sets
  (`TxnSys.withCommitted`), and what only the second one still has lies at or below every read
  timestamp in use and below the clock (`Kept`), so no conflict check, now or later, can see the
  difference.
-/

namespace BwGraph

open TxnSys TxnManager OrdMap

/-- The write sets replaced. -/
def TxnManager.withCommitted (m : TxnManager) (c : OrdMap Nat CommittedTxnData) : TxnManager :=
  { m with committedTxns := c }

/-- The same system with other recorded write sets. -/
def TxnSys.withCommitted (s : TxnSys) (c : OrdMap Nat CommittedTxnData) : TxnSys :=
  s.setManager (s.store.manager.withCommitted c)

/-- `begin_txn` is one step. -/
def TxnEvent.Atomic : TxnEvent → Prop
  | .load _ _ => False
  | .register _ => False
  | _ => True

instance (e : TxnEvent) : Decidable e.Atomic := by
  unfold TxnEvent.Atomic
  cases e <;> infer_instance

/-- `c` has all recorded write sets of `s`, and besides them only some that no reader looks at. -/
structure Kept (s : TxnSys) (c : OrdMap Nat CommittedTxnData) : Prop where
  le : ∀ e ∈ c.entries, e.1 ≤ s.store.manager.currentTs
  sub : ∀ e ∈ s.store.manager.committedTxns.entries, e ∈ c.entries
  old : ∀ e ∈ c.entries, e ∉ s.store.manager.committedTxns.entries →
    ∀ i t, s.txns i = .live t → e.1 ≤ t.readTs

variable {s s' : TxnSys} {c : OrdMap Nat CommittedTxnData}

variable {i : Nat}

section

variable (h : Kept s c)
include h

theorem Kept.check {t : Txn} (hi : s.txns i = .live t) (readSet : Finset UInt32) :
    (s.store.manager.withCommitted c).checkSerializableConflict t.readTs readSet =
      s.store.manager.checkSerializableConflict t.readTs readSet := by
  rw [Bool.eq_iff_iff, checkSerializableConflict_iff,
    checkSerializableConflict_iff]
  constructor
  · rintro ⟨e, he, hlt, hh⟩
    refine ⟨e, ?_, hlt, hh⟩
    by_contra hn
    exact absurd hlt (Nat.not_lt.2 (h.old e he hn i t hi))
  · rintro ⟨e, he, hlt, hh⟩
    exact ⟨e, h.sub e he, hlt, hh⟩

omit h in
/-- The other calls do not look at the write sets. -/
theorem step_withCommitted {e : TxnEvent} (he : ∀ i, e ≠ .commit i)
    (cleanup cleanup' : TxnManager → TxnManager) :
    (s.withCommitted c).step cleanup' e = (s.step cleanup e).map fun s => s.withCommitted c := by
  have hon : ∀ (i : Nat) (f : Txn → Except String Txn),
      (s.withCommitted c).onTxn i f = (s.onTxn i f).map fun s => s.withCommitted c := by
    intro i f
    unfold onTxn
    have htx : (s.withCommitted c).txns i = s.txns i := rfl
    rw [htx]
    cases s.txns i with
    | live t =>
      simp only
      cases f t <;> rfl
    | _ => rfl
  cases e with
  | load i b =>
    simp only [step, load]
    have htx : (s.withCommitted c).txns i = s.txns i := rfl
    rw [htx]
    cases s.txns i <;> rfl
  | register i =>
    simp only [step, register]
    have htx : (s.withCommitted c).txns i = s.txns i := rfl
    rw [htx]
    cases s.txns i <;> rfl
  | begin i b =>
    simp only [step, begin]
    have htx : (s.withCommitted c).txns i = s.txns i := rfl
    rw [htx]
    cases s.txns i <;> rfl
  | getNeighbors i v => exact hon i _
  | write i op => exact hon i _
  | commit i => exact absurd rfl (he i)
  | abort i => exact hon i fun t => .ok t.abort
  | destroy i =>
    simp only [step, destroy]
    have htx : (s.withCommitted c).txns i = s.txns i := rfl
    rw [htx]
    cases s.txns i <;> rfl

/-- A call that changes no write set and lets no transaction start before the clock keeps `c`. -/
theorem Kept.same (hcom : s'.store.manager.committedTxns = s.store.manager.committedTxns)
    (hclock : s'.store.manager.currentTs = s.store.manager.currentTs)
    (hlive : ∀ i t, s'.txns i = .live t → (∃ t0, s.txns i = .live t0 ∧ t.readTs = t0.readTs) ∨
      t.readTs = s.store.manager.currentTs) : Kept s' c := by
  refine ⟨fun e he => hclock ▸ h.le e he, fun e he => h.sub e (hcom ▸ he),
    fun e he hn i t ht => ?_⟩
  rw [hcom] at hn
  rcases hlive i t ht with ⟨t0, h0, hr⟩ | hr
  · exact hr ▸ h.old e he hn i t0 h0
  · exact hr ▸ h.le e he

omit h in
theorem mem_emplace {m : OrdMap Nat CommittedTxnData} {k : Nat} {d : CommittedTxnData}
    (hk : ∀ e ∈ m.entries, e.1 < k) {e : Nat × CommittedTxnData} :
    e ∈ (m.emplace k d).entries ↔ e = (k, d) ∨ e ∈ m.entries := by
  have hnone : m.find? k = none := by
    cases hf : m.find? k with
    | none => rfl
    | some d' => exact absurd (hk _ (find?_eq_some.1 hf)) (Nat.lt_irrefl _)
  have hins : m.emplace k d = m.insert k d := by simp [emplace, hnone]
  rw [hins]
  constructor
  · exact mem_insertEntry
  · rintro (rfl | he)
    · exact m.mem_insert_self _ _
    · exact (m.mem_insert_ne d (Nat.ne_of_lt (hk e he))).2 he

/-- The write sets after a commit, with and without the clean-up. -/
theorem Kept.commit (hreg : Registered s) {t : Txn} (hi : s.txns i = .live t) {ok : Bool} {t' : Txn}
    {st : TxnStore} (hc : t.commitWith cleanupOldTxns s.store = .ok (ok, t', st)) :
    ∃ c', t.commitWith id (s.withCommitted c).store =
        .ok (ok, t', ⟨st.manager.withCommitted c', st.db⟩) ∧
      Kept (set ⟨st, s.txns⟩ i (.live t')) c' := by
  have hconf : t.Conflicts (s.withCommitted c).store.manager ↔ t.Conflicts s.store.manager := by
    unfold Txn.Conflicts
    rw [show (s.withCommitted c).store.manager = s.store.manager.withCommitted c from rfl,
      h.check hi]
  have hlive : ∀ {st : TxnStore} {t' : Txn} {j : Nat} {u : Txn},
      (set ⟨st, s.txns⟩ i (.live t')).txns j = .live u → t'.readTs = t.readTs →
      ∃ u0, s.txns j = .live u0 ∧ u.readTs = u0.readTs := by
    intro st t' j u hu hr
    by_cases hj : j = i
    · subst hj
      rw [set_self] at hu
      cases hu
      exact ⟨t, hi, hr⟩
    · rw [set_ne _ _ hj] at hu
      exact ⟨u, hu, rfl⟩
  obtain ⟨hcom, ⟨hops, rfl, rfl, rfl⟩ | ⟨hops, hcf, rfl, rfl, rfl⟩ | ⟨hops, hcf, rfl, rfl, rfl⟩⟩ :=
    Txn.commitWith_cases hc
  · exact ⟨c, Txn.commitWith_empty id _ hcom hops,
      h.same rfl rfl fun j u hu => .inl (hlive hu rfl)⟩
  · exact ⟨c, Txn.commitWith_conflict id hcom hops (hconf.2 hcf),
      h.same rfl rfl fun j u hu => .inl (hlive hu rfl)⟩
  · set ts := s.store.manager.currentTs + 1
    set data : CommittedTxnData := ⟨t.writeSetHashes, t.readTs, ts⟩
    have hlt : ∀ e ∈ c.entries, e.1 < ts := fun e he => Nat.lt_succ_of_le (h.le e he)
    by_cases hser : t.serializable = true
    · refine ⟨c.emplace ts data, ?_, ?_⟩
      · rw [Txn.commitWith_applied id hcom hops fun hx => hcf (hconf.1 hx)]
        unfold Txn.storeAfter Txn.recordCommit
        rw [if_pos hser, if_pos hser]
        rfl
      · -- the clean-up drops what lies below the watermark
        have hst : (t.storeAfter cleanupOldTxns s.store).manager =
            (({ s.store.manager with currentTs := ts } : TxnManager).addCommittedTxn ts
              data).cleanupOldTxns := by
          unfold Txn.storeAfter Txn.recordCommit
          rw [if_pos hser]
          rfl
        have hlts : ∀ e ∈ s.store.manager.committedTxns.entries, e.1 < ts :=
          fun e he => hlt e (h.sub e he)
        have hent : ∀ e, e ∈ (t.storeAfter cleanupOldTxns
            s.store).manager.committedTxns.entries ↔
            (e = (ts, data) ∨ e ∈ s.store.manager.committedTxns.entries) ∧
              ({ s.store.manager with currentTs := ts } : TxnManager).getWatermark ≤ e.1 := by
          intro e
          rw [hst]
          show e ∈ (dropBelow _ _).entries ↔ _
          rw [mem_dropBelow]
          exact and_congr (mem_emplace hlts) Iff.rfl
        refine ⟨fun e he => ?_, fun e he => ?_, fun e he hn j u hu => ?_⟩
        · show e.1 ≤ (t.storeAfter cleanupOldTxns s.store).manager.currentTs
          rw [hst]
          rcases (mem_emplace hlt).1 he with rfl | he
          · exact Nat.le_refl _
          · exact Nat.le_of_lt (hlt e he)
        · rcases ((hent e).1 he).1 with rfl | he
          · exact (mem_emplace hlt).2 (.inl rfl)
          · exact (mem_emplace hlt).2 (.inr (h.sub e he))
        · obtain ⟨u0, hu0, hr⟩ := hlive hu rfl
          have hwm : ({ s.store.manager with currentTs := ts } : TxnManager).getWatermark ≤
              u.readTs := by
            rw [hr]
            exact getWatermark_le (hreg.count_pos.2 ⟨j, u0, hu0, rfl⟩)
          have hn' : ¬ ((e = (ts, data) ∨ e ∈ s.store.manager.committedTxns.entries) ∧
              ({ s.store.manager with currentTs := ts } : TxnManager).getWatermark ≤ e.1) :=
            fun hx => hn ((hent e).2 hx)
          by_cases hge : ({ s.store.manager with currentTs := ts } : TxnManager).getWatermark ≤ e.1
          · have hout : e ∉ s.store.manager.committedTxns.entries := fun hx => hn' ⟨.inr hx, hge⟩
            rcases (mem_emplace hlt).1 he with rfl | he
            · exact absurd ⟨.inl rfl, hge⟩ hn'
            · exact hr ▸ h.old e he hout j u0 hu0
          · exact Nat.le_of_lt (Nat.lt_of_lt_of_le (Nat.lt_of_not_le hge) hwm)
    · refine ⟨c, ?_, ?_⟩
      · rw [Txn.commitWith_applied id hcom hops fun hx => hcf (hconf.1 hx)]
        unfold Txn.storeAfter Txn.recordCommit
        rw [if_neg hser, if_neg hser]
        rfl
      · have hst : (t.storeAfter cleanupOldTxns s.store).manager =
            { s.store.manager with currentTs := ts } := by
          unfold Txn.storeAfter Txn.recordCommit
          rw [if_neg hser]
          rfl
        refine ⟨fun e he => ?_, fun e he => ?_, fun e he hn j u hu => ?_⟩
        · show e.1 ≤ (t.storeAfter cleanupOldTxns s.store).manager.currentTs
          rw [hst]
          exact Nat.le_of_lt (hlt e he)
        · have he' : e ∈ (t.storeAfter cleanupOldTxns
            s.store).manager.committedTxns.entries := he
          rw [hst] at he'
          exact h.sub e he'
        · have hn' : e ∉ (t.storeAfter cleanupOldTxns
            s.store).manager.committedTxns.entries := hn
          rw [hst] at hn'
          obtain ⟨u0, hu0, hr⟩ := hlive hu rfl
          exact hr ▸ h.old e he hn' j u0 hu0

/-! ## Whole runs -/

theorem Kept.onTxn {f : Txn → Except String Txn} (hf : ∀ t t', f t = .ok t' → t'.readTs = t.readTs)
    (hs : s.onTxn i f = some s') : Kept s' c := by
  obtain ⟨t, t', hi, hft, rfl⟩ := onTxn_cases hs
  refine h.same rfl rfl fun j u hu => .inl ?_
  by_cases hj : j = i
  · subst hj
    rw [set_self] at hu
    cases hu
    exact ⟨t, hi, hf t t' hft⟩
  · rw [set_ne _ _ hj] at hu
    exact ⟨u, hu, rfl⟩

/-- One call: the run that erases nothing can follow. -/
theorem Kept.step (hreg : Registered s) {e : TxnEvent} (he : e.Atomic)
    (hs : s.step cleanupOldTxns e = some s') :
    ∃ c', (s.withCommitted c).step id e = some (s'.withCommitted c') ∧ Kept s' c' := by
  have hother : (∀ i, e ≠ .commit i) →
      (s.withCommitted c).step id e = some (s'.withCommitted c) := fun hne => by
    rw [step_withCommitted hne cleanupOldTxns id, hs, Option.map_some]
  cases e with
  | load i b => exact absurd he id
  | register i => exact absurd he id
  | begin i b =>
    refine ⟨c, hother fun j hj => (by cases hj), ?_⟩
    simp only [TxnSys.step, TxnSys.begin] at hs
    split at hs
    · cases hs
      refine h.same rfl rfl fun j u hu => ?_
      by_cases hj : j = i
      · subst hj
        rw [TxnSys.construct, TxnSys.set_self] at hu
        cases hu
        exact .inr rfl
      · rw [TxnSys.construct, TxnSys.set_ne _ _ hj] at hu
        exact .inl ⟨u, hu, rfl⟩
    · cases hs
  | getNeighbors i v =>
    exact ⟨c, hother fun j hj => (by cases hj), h.onTxn (fun _ _ => TxnSys.getNeighbors_readTs) hs⟩
  | write i op =>
    exact ⟨c, hother fun j hj => (by cases hj), h.onTxn (fun _ _ => TxnSys.bufferWrite_readTs) hs⟩
  | abort i =>
    exact ⟨c, hother fun j hj => (by cases hj),
      h.onTxn (f := fun t => .ok t.abort) (fun _ _ => TxnSys.abort_readTs) hs⟩
  | destroy i =>
    refine ⟨c, hother fun j hj => (by cases hj), ?_⟩
    simp only [TxnSys.step, TxnSys.destroy] at hs
    split at hs
    · cases hs
      refine h.same rfl rfl fun j u hu => .inl ?_
      by_cases hj : j = i
      · subst hj
        rw [TxnSys.set_self] at hu
        cases hu
      · rw [TxnSys.set_ne _ _ hj] at hu
        exact ⟨u, hu, rfl⟩
    · cases hs
  | commit i =>
    simp only [TxnSys.step, TxnSys.commit] at hs
    split at hs
    · rename_i t ht
      split at hs
      · rename_i ok t' st hc
        cases hs
        obtain ⟨c', hc', hk⟩ := h.commit hreg ht hc
        refine ⟨c', ?_, hk⟩
        simp only [TxnSys.step, TxnSys.commit]
        rw [show (s.withCommitted c).txns i = .live t from ht]
        simp only [hc']
        rfl
      · cases hs
    · cases hs

/-- The same calls can be made when nothing is ever erased, and up to the recorded write sets they
lead to the same state. -/
theorem Kept.steps (hreg : Registered s) {es : List TxnEvent} (hes : ∀ e ∈ es, e.Atomic)
    (hs : runAll (TxnSys.step cleanupOldTxns) s es = some s') :
    ∃ c', runAll (TxnSys.step id) (s.withCommitted c) es = some (s'.withCommitted c') ∧
      Kept s' c' := by
  induction es generalizing s c with
  | nil =>
    cases hs
    exact ⟨c, rfl, h⟩
  | cons e es ih =>
    obtain ⟨s1, h1, hs⟩ := Option.bind_eq_some_iff.1 hs
    obtain ⟨c1, hc1, hk1⟩ := h.step hreg (hes e List.mem_cons_self) h1
    obtain ⟨c', hc', hk'⟩ := ih hk1 (hreg.step cleansUp_cleanupOldTxns (TxnSys.step_effect h1))
      (fun e he => hes e (List.mem_cons_of_mem _ he)) hs
    exact ⟨c', Option.bind_eq_some_iff.2 ⟨_, hc1, hc'⟩, hk'⟩

end

/-- With an atomic `begin_txn`, cleaning up changes nothing but the recorded write sets, and the
check of every live transaction against any read set gives what it gives when nothing is ever
erased. -/
theorem checkSerializableConflict_kept {initialTs : Nat} {db : TxnDb} {es : List TxnEvent}
    (hes : ∀ e ∈ es, e.Atomic)
    (hs : runAll (TxnSys.step TxnManager.cleanupOldTxns) (.start initialTs db) es = some s) :
    ∃ s', runAll (TxnSys.step id) (.start initialTs db) es = some s' ∧
      s'.txns = s.txns ∧ s'.store.db = s.store.db ∧
      s'.store.manager.currentTs = s.store.manager.currentTs ∧
      ∀ i t, s.txns i = .live t → ∀ readSet,
        s'.store.manager.checkSerializableConflict t.readTs readSet =
          s.store.manager.checkSerializableConflict t.readTs readSet := by
  have h0 : Kept (.start initialTs db) .empty :=
    ⟨fun e he => absurd he List.not_mem_nil, fun e he => absurd he List.not_mem_nil,
      fun e he => absurd he List.not_mem_nil⟩
  obtain ⟨c, hc, hk⟩ := h0.steps (registered_start initialTs db) hes hs
  exact ⟨s.withCommitted c, hc, rfl, rfl, rfl, fun i t hi readSet => hk.check hi readSet⟩

/-- Two commits, the first of which is erased by the second, and a reader that begins after. -/
def cleanupRun : List TxnEvent :=
  [.begin 0 true, .write 0 ⟨.insertEdge, 0, 2⟩, .commit 0, .destroy 0, .begin 1 true,
    .destroy 1, .begin 2 true, .write 2 ⟨.deleteEdge, 0, 1⟩, .commit 2, .destroy 2, .begin 3 true,
    .write 3 ⟨.insertEdge, 1, 2⟩, .commit 3, .begin 4 true]

theorem checkSerializableConflict_kept_small :
    ∃ s', runAll (TxnSys.step id) (.start 0 smallTxnDb) cleanupRun = some s' ∧
      ∀ readSet, s'.store.manager.checkSerializableConflict 3 readSet =
        (TxnSys.after cleanupRun).store.manager.checkSerializableConflict 3 readSet := by
  have hs : runAll (TxnSys.step TxnManager.cleanupOldTxns) (.start 0 smallTxnDb) cleanupRun =
      some (.after cleanupRun) := by
    unfold TxnSys.after
    cases h : runAll (TxnSys.step TxnManager.cleanupOldTxns) (.start 0 smallTxnDb) cleanupRun with
    | some s => rfl
    | none =>
      have hsome : (runAll (TxnSys.step TxnManager.cleanupOldTxns) (.start 0 smallTxnDb)
          cleanupRun).isSome = true := by decide +kernel
      rw [h] at hsome
      cases hsome
  obtain ⟨s', hs', -, -, -, hcheck⟩ := checkSerializableConflict_kept (by decide) hs
  exact ⟨s', hs', hcheck 4 _ rfl⟩

end BwGraph
