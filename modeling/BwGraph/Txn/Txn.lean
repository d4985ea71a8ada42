import BwGraph.Txn.Manager
import BwGraph.Txn.Db

/-
  `txn_t` (`txn.h`, `txn.cc`): a transaction buffers its writes and applies them in `commit`. The
  commit lock makes a commit one step here; the interleaving of single writes with other
  transactions is the subject of `BwGraph.Txn.Snapshot`.

  `commit` is all-or-nothing when the conflict check fails, and otherwise exactly when every
  buffered write is accepted after the ones before it (`commit_allOrNothing`): a write that is
  rejected is skipped and the call returns true.
-/

namespace BwGraph

/-! ## Key hashes -/

/-- `fnv1a_hash`. -/
def fnv1aHash (bytes : List UInt8) : UInt32 :=
  bytes.foldl (fun hash b => (hash ^^^ b.toUInt32) * 16777619) 2166136261

/-- The four bytes of a `v_id_t`, least significant first. -/
def vIdBytes (v : VId) : List UInt8 :=
  [UInt8.ofNat v, UInt8.ofNat (v / 2 ^ 8), UInt8.ofNat (v / 2 ^ 16), UInt8.ofNat (v / 2 ^ 24)]

/-- `compute_key_hash`: with destination 0 the key is the vertex. -/
def computeKeyHash (src dst : VId) : UInt32 :=
  if dst = 0 then fnv1aHash (vIdBytes src) else fnv1aHash (vIdBytes src ++ vIdBytes dst)

/-! ## Transactions -/

/-- `txn_t`. -/
structure Txn where
  readTs : Nat
  writeOps : List WriteOpt
  committed : Bool
  serializable : Bool
  writeSetHashes : Finset UInt32
  readSetHashes : Finset UInt32
  deriving DecidableEq

/-- The database with its transaction manager. -/
structure TxnStore where
  manager : TxnManager
  db : TxnDb

namespace Txn

/-- A new transaction at a read timestamp. -/
def new (readTs : Nat) (serializable : Bool) : Txn := ⟨readTs, [], false, serializable, ∅, ∅⟩

/-- What every method throws after `commit` or `abort`. -/
def committedError : String := "cannot operate on committed transaction!"

/-- `get_neighbors`. -/
def getNeighbors (t : Txn) (db : TxnDb) (v : VId) : Except String (List VId × Txn) :=
  if t.committed then .error committedError
  else .ok (db.readNeighborCloneTxn v t.readTs,
    if t.serializable then
      { t with readSetHashes := insert (computeKeyHash v 0) t.readSetHashes }
    else t)

/-- Buffer a write. -/
def bufferWrite (t : Txn) (op : WriteOpt) : Except String Txn :=
  if t.committed then .error committedError
  else .ok { t with
    writeOps := t.writeOps ++ [op]
    writeSetHashes := if t.serializable then
      insert (computeKeyHash op.src op.dst) t.writeSetHashes else t.writeSetHashes }

/-- `insert_edge`. -/
def insertEdge (t : Txn) (src dst : VId) : Except String Txn :=
  t.bufferWrite ⟨.insertEdge, src, dst⟩

/-- `delete_edge`. -/
def deleteEdge (t : Txn) (src dst : VId) : Except String Txn :=
  t.bufferWrite ⟨.deleteEdge, src, dst⟩

/-- `insert_vertex`. -/
def insertVertex (t : Txn) (v : VId) : Except String Txn := t.bufferWrite ⟨.insertVertex, v, 0⟩

/-- `delete_vertex`. -/
def deleteVertex (t : Txn) (v : VId) : Except String Txn := t.bufferWrite ⟨.deleteVertex, v, 0⟩

/-- The check of `commit` finds a conflict. -/
def Conflicts (t : Txn) (m : TxnManager) : Prop :=
  t.serializable = true ∧ t.writeSetHashes ≠ ∅ ∧
    m.checkSerializableConflict t.readTs t.readSetHashes = true

instance (t : Txn) (m : TxnManager) : Decidable (t.Conflicts m) :=
  inferInstanceAs (Decidable (_ ∧ _ ∧ _))

/-- The end of `commit`: the write set of a serializable transaction is recorded, then `cleanup`
runs. -/
def recordCommit (cleanup : TxnManager → TxnManager) (t : Txn) (commitTs : Nat)
    (m : TxnManager) : TxnManager :=
  if t.serializable then
    cleanup (m.addCommittedTxn commitTs ⟨t.writeSetHashes, t.readTs, commitTs⟩)
  else m

/-- `commit`, with what it does to clean up. -/
def commitWith (cleanup : TxnManager → TxnManager) (t : Txn) (st : TxnStore) :
    Except String (Bool × Txn × TxnStore) :=
  if t.committed then .error committedError
  else if t.writeOps = [] then .ok (true, { t with committed := true }, st)
  else if t.Conflicts st.manager then .ok (false, { t with committed := true }, st)
  else
    let (commitTs, m) := st.manager.allocCommitTs
    let (applied, db) := st.db.applyWrites t.readTs commitTs t.writeOps
    if !applied then .ok (false, { t with committed := true }, ⟨m, db⟩)
    else .ok (true, { t with
        committed := true
        writeSetHashes := if t.serializable then ∅ else t.writeSetHashes },
      ⟨t.recordCommit cleanup commitTs m, db⟩)

/-- `commit`. -/
def commit (t : Txn) (st : TxnStore) : Except String (Bool × Txn × TxnStore) :=
  t.commitWith TxnManager.cleanupOldTxns st

/-- `abort`. -/
def abort (t : Txn) : Txn :=
  if t.committed then t else { t with committed := true, writeOps := [] }

/-- The transaction after a commit that got past its check. -/
def afterCommit (t : Txn) : Txn :=
  { t with committed := true, writeSetHashes := if t.serializable then ∅ else t.writeSetHashes }

/-- The store after such a commit. -/
def storeAfter (cleanup : TxnManager → TxnManager) (t : Txn) (st : TxnStore) : TxnStore :=
  ⟨t.recordCommit cleanup st.manager.allocCommitTs.1 st.manager.allocCommitTs.2,
    (st.db.applyWrites t.readTs st.manager.allocCommitTs.1 t.writeOps).2⟩

/-- The normal returns of `commit`: nothing to write, a conflict, or the writes applied. -/
theorem commitWith_cases {cleanup : TxnManager → TxnManager} {t t' : Txn} {st st' : TxnStore}
    {ok : Bool} (h : t.commitWith cleanup st = .ok (ok, t', st')) :
    t.committed = false ∧
      ((t.writeOps = [] ∧ ok = true ∧ t' = { t with committed := true } ∧ st' = st) ∨
      (t.writeOps ≠ [] ∧ t.Conflicts st.manager ∧ ok = false ∧ t' = { t with committed := true } ∧
        st' = st) ∨
      (t.writeOps ≠ [] ∧ ¬ t.Conflicts st.manager ∧ ok = true ∧ t' = t.afterCommit ∧
        st' = t.storeAfter cleanup st)) := by
  unfold commitWith at h
  by_cases hcom : t.committed = true
  · rw [if_pos hcom] at h
    cases h
  rw [if_neg hcom] at h
  refine ⟨by simpa using hcom, ?_⟩
  by_cases hops : t.writeOps = []
  · rw [if_pos hops] at h
    cases h
    exact .inl ⟨hops, rfl, rfl, rfl⟩
  rw [if_neg hops] at h
  by_cases hconf : t.Conflicts st.manager
  · rw [if_pos hconf] at h
    cases h
    exact .inr (.inl ⟨hops, hconf, rfl, rfl, rfl⟩)
  rw [if_neg hconf] at h
  cases h
  exact .inr (.inr ⟨hops, hconf, rfl, rfl, rfl⟩)

section

variable (cleanup : TxnManager → TxnManager) {t : Txn}

theorem commitWith_empty (st : TxnStore) (h : t.committed = false) (hops : t.writeOps = []) :
    t.commitWith cleanup st = .ok (true, { t with committed := true }, st) := by
  unfold commitWith
  rw [if_neg (by simp [h]), if_pos hops]

variable {st : TxnStore} (h : t.committed = false) (hops : t.writeOps ≠ [])
include h hops

theorem commitWith_conflict (hconf : t.Conflicts st.manager) :
    t.commitWith cleanup st = .ok (false, { t with committed := true }, st) := by
  unfold commitWith
  rw [if_neg (by simp [h]), if_neg hops, if_pos hconf]

theorem commitWith_applied (hconf : ¬ t.Conflicts st.manager) :
    t.commitWith cleanup st = .ok (true, t.afterCommit, t.storeAfter cleanup st) := by
  unfold commitWith
  rw [if_neg (by simp [h]), if_neg hops, if_neg hconf]
  rfl

end

/-! ## Commit as all-or-nothing -/

/-- Every buffered write was applied: the commit got past its check, and each write succeeded. -/
def WritesApplied (t : Txn) (st : TxnStore) : Prop :=
  t.writeOps = [] ∨ (¬ t.Conflicts st.manager ∧
    ∀ b ∈ TxnDb.writeFlags t.readTs st.manager.allocCommitTs.1 st.db t.writeOps, b = true)

/-- `commit` returns true exactly when every buffered write was applied, and when it returns false
the database is as before. -/
def AllOrNothing (t : Txn) (st : TxnStore) : Prop :=
  ∀ ok t' st', t.commit st = .ok (ok, t', st') →
    (ok = true ↔ t.WritesApplied st) ∧ (ok = false → st'.db = st.db)

/-- A commit is all-or-nothing exactly when it runs into a conflict or the database accepts every
buffered write after the ones before it. -/
theorem commit_allOrNothing (t : Txn) (st : TxnStore) (h : t.committed = false) :
    t.AllOrNothing st ↔
      (t.writeOps ≠ [] ∧ t.Conflicts st.manager) ∨ st.db.marks.AcceptsAll t.writeOps := by
  have happ : ¬ t.Conflicts st.manager → t.writeOps ≠ [] →
      (t.WritesApplied st ↔ st.db.marks.AcceptsAll t.writeOps) := by
    intro hconf hops
    unfold WritesApplied
    rw [TxnDb.writeFlags_all]
    simp [hops, hconf]
  constructor
  · intro hall
    by_cases hops : t.writeOps = []
    · rw [hops]
      exact .inr trivial
    · by_cases hconf : t.Conflicts st.manager
      · exact .inl ⟨hops, hconf⟩
      · -- the loop returns true whatever happened to the writes
        have hc := commitWith_applied TxnManager.cleanupOldTxns h hops hconf
        exact .inr ((happ hconf hops).1 ((hall _ _ _ hc).1.1 rfl))
  · intro hcond ok t' st' hc
    obtain ⟨-, ⟨hops, rfl, -, -⟩ | ⟨hops, hconf, rfl, -, rfl⟩ | ⟨hops, hconf, rfl, -, -⟩⟩ :=
      commitWith_cases hc
    · exact ⟨iff_of_true rfl (.inl hops), fun he => by cases he⟩
    · refine ⟨iff_of_false (by simp) ?_, fun _ => rfl⟩
      rintro (he | ⟨hn, -⟩)
      · exact hops he
      · exact hn hconf
    · have hacc := hcond.resolve_left fun hl => hconf hl.2
      exact ⟨iff_of_true rfl ((happ hconf hops).2 hacc), fun he => by cases he⟩

end Txn

/-- Three vertices on page 0; vertex 0 was loaded with the neighbour 1. -/
def smallTxnDb : TxnDb where
  size := 3
  items := fun v => ⟨0, v, .normal, false⟩
  chain := fun _ => []
  pending := fun _ => []
  pages := fun _ => [⟨0, false, [(1, 0)]⟩, ⟨1, false, []⟩, ⟨2, false, []⟩]
  giants := fun _ => none
  edgeTs := fun _ _ => none

/-- The store as `init_txn_manager` leaves it. -/
def smallStore : TxnStore := ⟨.init 0, smallTxnDb⟩

/-- A transaction that inserts two edges of vertex 0. -/
def twoInserts (d d' : VId) : Txn :=
  { Txn.new 0 false with writeOps := [⟨.insertEdge, 0, d⟩, ⟨.insertEdge, 0, d'⟩] }

/-- Two edges between existing vertices. -/
theorem commit_allOrNothing_small : (twoInserts 1 2).AllOrNothing smallStore :=
  ((twoInserts 1 2).commit_allOrNothing smallStore rfl).2 (.inr (by decide))

/-- Vertex 7 does not exist: the second insert is rejected, the first one stays and becomes
visible, and the call returns true. -/
theorem commit_skips_rejected :
    ¬ ∀ (t : Txn) (st : TxnStore), t.committed = false → t.AllOrNothing st := by
  intro h
  have hc : ∃ t' st', (twoInserts 2 7).commit smallStore = .ok (true, t', st') := ⟨_, _, rfl⟩
  obtain ⟨t', st', hc⟩ := hc
  rcases (h (twoInserts 2 7) smallStore rfl true t' st' hc).1.1 rfl with hnil | ⟨-, hflags⟩
  · cases hnil
  · exact absurd (hflags false (by decide)) (by decide)

end BwGraph
