import Mathlib.Logic.Function.Basic
import BwGraph.Common.Type
import BwGraph.Lib.Lww

/-
  The database of the transaction build (`BW_GRAPH_ENABLE_TRANSACTION`, raw neighbour arrays), as
  far as transactions see it: the vertex index, the CSR entries with one commit timestamp per
  edge, the giant store and the delta records with their timestamps. The records of a vertex are
  the list followed from `delta_heads_`, newest first; those of a page are the chain of its
  page-map entry, oldest first. How records lie on delta pages and neighbours on CSR pages is the
  subject of the other modules; nothing here depends on it.

  `readNeighborCloneTxn` reads the records committed at or before the read timestamp, whatever
  their order (`mem_readNeighborCloneTxn`): a visible delete hides the neighbour, also from an
  insert that came later. So the read is the last-writer-wins one exactly when no edge was
  deleted and then inserted again in what the reader sees (`readNeighborCloneTxn_lww_iff`).
-/

namespace BwGraph

open List

/-- `delta_record_t` with the transaction fields; the link is the place in the chain. -/
structure TxnRecord where
  target : DeltaTarget
  type : DeltaType
  first : VId
  second : VId
  beginTs : Nat
  commitTs : Nat
  deriving DecidableEq, Repr

/-- Committed at or before the read timestamp; `INVALID_TS` is 0. -/
def TxnRecord.Visible (readTs : Nat) (rec : TxnRecord) : Prop :=
  rec.target = .edge ∧ rec.commitTs ≠ 0 ∧ rec.commitTs ≤ readTs

instance (readTs : Nat) (rec : TxnRecord) : Decidable (rec.Visible readTs) :=
  inferInstanceAs (Decidable (_ ∧ _ ∧ _))

/-- The operation an edge record stands for. -/
def TxnRecord.op (rec : TxnRecord) : Lww.Op VId :=
  match rec.type with
  | .insert => .insert rec.second
  | .delete => .erase rec.second

/-- The record is a visible operation of the given type on `d`. -/
def TxnRecord.SeenAs (readTs : Nat) (type : DeltaType) (d : VId) (rec : TxnRecord) : Prop :=
  rec.Visible readTs ∧ rec.type = type ∧ rec.second = d

/-- `v_item_t`. -/
structure TxnItem where
  pageNo : PageNo
  offset : Nat
  vertexType : VertexType
  isDelete : Bool
  deriving DecidableEq, Repr

/-- One entry of a CSR page: its neighbours, each with the timestamp of its insertion. -/
structure TxnEntry where
  vertexId : VId
  isDeleted : Bool
  edges : List (VId × Nat)
  deriving DecidableEq, Repr

/-- The database. `edgeTs` is the property `"__ts"` of the property store. -/
structure TxnDb where
  size : Nat
  items : VId → TxnItem
  chain : VId → List TxnRecord
  pending : PageNo → List TxnRecord
  pages : PageNo → List TxnEntry
  giants : VId → Option (List VId)
  edgeTs : VId → VId → Option Nat

namespace TxnDb

/-! ## Reads -/

/-- The base list with timestamps: from the giant store, or of the CSR entry. -/
def baseEdges (db : TxnDb) (v : VId) : List (VId × Nat) :=
  if (db.items v).vertexType = .giant then
    ((db.giants v).getD []).map fun d => (d, (db.edgeTs v d).getD 0)
  else (((db.pages (db.items v).pageNo)[(db.items v).offset]?).map TxnEntry.edges).getD []

/-- `delta_inserts` and `delta_deletes` of `read_neighbor_clone_txn`. -/
structure Scan where
  deltaInserts : List VId
  deltaDeletes : List VId

/-- One visited record. -/
def Scan.visit (readTs : Nat) (scan : Scan) (rec : TxnRecord) : Scan :=
  if rec.Visible readTs then
    match rec.type with
    | .insert => { scan with deltaInserts := scan.deltaInserts ++ [rec.second] }
    | .delete => { scan with deltaDeletes := rec.second :: scan.deltaDeletes }
  else scan

/-- The loop over the chain. -/
def scanChain (db : TxnDb) (v : VId) (readTs : Nat) : Scan :=
  (db.chain v).foldl (Scan.visit readTs) ⟨[], []⟩

/-- `read_neighbor_clone_txn`. -/
def readNeighborCloneTxn (db : TxnDb) (v : VId) (readTs : Nat) : List VId :=
  let scan := db.scanChain v readTs
  let base := ((db.baseEdges v).filter fun e => e.2 = 0 ∨ e.2 ≤ readTs).map Prod.fst
  base.filter (fun d => d ∉ scan.deltaDeletes) ++
    scan.deltaInserts.filter fun d => d ∉ scan.deltaDeletes

/-- Some record of the chain is a visible operation of the given type on `d`. -/
def Seen (db : TxnDb) (v : VId) (readTs : Nat) (type : DeltaType) (d : VId) : Prop :=
  ∃ rec ∈ db.chain v, rec.SeenAs readTs type d

theorem mem_foldl_visit (readTs : Nat) (recs : List TxnRecord) (scan : Scan) (d : VId) :
    (d ∈ (recs.foldl (Scan.visit readTs) scan).deltaInserts ↔
      d ∈ scan.deltaInserts ∨ ∃ rec ∈ recs, rec.SeenAs readTs .insert d) ∧
    (d ∈ (recs.foldl (Scan.visit readTs) scan).deltaDeletes ↔
      d ∈ scan.deltaDeletes ∨ ∃ rec ∈ recs, rec.SeenAs readTs .delete d) := by
  induction recs generalizing scan with
  | nil => simp
  | cons rec recs ih =>
    obtain ⟨h1, h2⟩ := ih (scan.visit readTs rec)
    rw [foldl_cons, h1, h2, exists_mem_cons_iff, exists_mem_cons_iff]
    unfold Scan.visit TxnRecord.SeenAs
    by_cases hv : rec.Visible readTs
    · cases ht : rec.type with
      | insert => simp [hv, or_assoc, eq_comm]
      | delete => simp [hv, or_assoc, or_left_comm, eq_comm]
    · simp [hv]

variable {readTs : Nat} {v : VId}

variable {db : TxnDb} {d : VId}

/-- The read as a set: base and visible inserts, less everything with a visible delete. -/
theorem mem_readNeighborCloneTxn :
    d ∈ db.readNeighborCloneTxn v readTs ↔
      ((∃ e ∈ db.baseEdges v, e.1 = d ∧ (e.2 = 0 ∨ e.2 ≤ readTs)) ∨ db.Seen v readTs .insert d) ∧
        ¬ db.Seen v readTs .delete d := by
  obtain ⟨hi, hd⟩ := mem_foldl_visit readTs (db.chain v) ⟨[], []⟩ d
  simp only [not_mem_nil, false_or] at hi hd
  unfold readNeighborCloneTxn scanChain Seen
  simp only [mem_append, mem_filter, decide_eq_true_eq, hi, hd, mem_map]
  constructor
  · rintro (⟨⟨e, ⟨he, hts⟩, rfl⟩, hn⟩ | ⟨h, hn⟩)
    · exact ⟨.inl ⟨e, he, rfl, hts⟩, hn⟩
    · exact ⟨.inr h, hn⟩
  · rintro ⟨⟨e, he, rfl, hts⟩ | h, hn⟩
    · exact .inl ⟨⟨e, ⟨he, hts⟩, rfl⟩, hn⟩
    · exact .inr ⟨h, hn⟩

/-! ## The last writer -/

/-- The visible part of the chain as operations, newest first. -/
def visibleOps (db : TxnDb) (v : VId) (readTs : Nat) : List (Lww.Op VId) :=
  ((db.chain v).filter fun r => r.Visible readTs).map TxnRecord.op

/-- What the last writer leaves: the visible base edges, then the visible records from the oldest
to the newest. -/
def lwwNeighbors (db : TxnDb) (v : VId) (readTs : Nat) : Set VId :=
  Lww.lww {d | ∃ e ∈ db.baseEdges v, e.1 = d ∧ (e.2 = 0 ∨ e.2 ≤ readTs)}
    (db.visibleOps v readTs).reverse

/-- The newest visible record on `d` is an insert, and an older one is a delete. -/
def Reinserted (db : TxnDb) (v : VId) (readTs : Nat) (d : VId) : Prop :=
  Lww.newest d (db.visibleOps v readTs) = some (.insert d) ∧ db.Seen v readTs .delete d

instance (db : TxnDb) (v : VId) (readTs : Nat) (type : DeltaType) (d : VId) :
    Decidable (db.Seen v readTs type d) :=
  inferInstanceAs (Decidable (∃ rec ∈ db.chain v, rec.Visible readTs ∧ _ ∧ _))

instance (db : TxnDb) (v : VId) (readTs : Nat) (d : VId) : Decidable (db.Reinserted v readTs d) :=
  inferInstanceAs (Decidable (_ ∧ _))

theorem mem_visibleOps {o : Lww.Op VId} :
    o ∈ db.visibleOps v readTs ↔ ∃ rec ∈ db.chain v, rec.Visible readTs ∧ rec.op = o := by
  unfold visibleOps
  simp only [mem_map, mem_filter, decide_eq_true_eq, and_assoc]

theorem insert_mem_visibleOps :
    Lww.Op.insert d ∈ db.visibleOps v readTs ↔ db.Seen v readTs .insert d := by
  rw [mem_visibleOps]
  refine exists_congr fun rec => and_congr_right fun _ => and_congr_right fun _ => ?_
  unfold TxnRecord.op
  cases rec.type <;> simp

theorem erase_mem_visibleOps :
    Lww.Op.erase d ∈ db.visibleOps v readTs ↔ db.Seen v readTs .delete d := by
  rw [mem_visibleOps]
  refine exists_congr fun rec => and_congr_right fun _ => and_congr_right fun _ => ?_
  unfold TxnRecord.op
  cases rec.type <;> simp

/-- One neighbour: the read and the last writer agree on it unless it was inserted again. -/
theorem mem_readNeighborCloneTxn_lww :
    (d ∈ db.readNeighborCloneTxn v readTs ↔ d ∈ db.lwwNeighbors v readTs) ↔
      ¬ db.Reinserted v readTs d := by
  unfold lwwNeighbors Reinserted
  rw [mem_readNeighborCloneTxn, Lww.mem_lww_reverse, ← insert_mem_visibleOps,
    ← erase_mem_visibleOps]
  rcases hn : Lww.newest d (db.visibleOps v readTs) with _ | o
  · -- no visible record on `d`: the base decides on both sides
    have hno : ∀ o ∈ db.visibleOps v readTs, o.key ≠ d := by
      simpa [Lww.newest, find?_eq_none] using hn
    have hi : Lww.Op.insert d ∉ db.visibleOps v readTs := fun h => hno _ h rfl
    have he : Lww.Op.erase d ∉ db.visibleOps v readTs := fun h => hno _ h rfl
    simp [hi, he]
  · have hmem : o ∈ db.visibleOps v readTs := mem_of_find?_eq_some hn
    have hkey := Lww.newest_key hn
    cases o with
    | insert a =>
      obtain rfl : a = d := hkey
      simp [hmem]
    | erase a =>
      obtain rfl : a = d := hkey
      simp [hmem]

/-- The read is what the last writer leaves if and only if no neighbour is inserted again behind
a delete the reader sees. -/
theorem readNeighborCloneTxn_lww_iff (db : TxnDb) (v : VId) (readTs : Nat) :
    (∀ d, d ∈ db.readNeighborCloneTxn v readTs ↔ d ∈ db.lwwNeighbors v readTs) ↔
      ∀ d, ¬ db.Reinserted v readTs d :=
  forall_congr' fun _ => mem_readNeighborCloneTxn_lww

/-- Vertex 0 without base neighbours; its edge to 1 was inserted, deleted and inserted again, by
the commits 1, 2 and 3. -/
def reinsertedDb : TxnDb where
  size := 2
  items := fun v => ⟨0, v, .normal, false⟩
  chain := fun v => if v = 0 then
    [⟨.edge, .insert, 0, 1, 2, 3⟩, ⟨.edge, .delete, 0, 1, 1, 2⟩, ⟨.edge, .insert, 0, 1, 0, 1⟩] else []
  pending := fun _ => []
  pages := fun _ => [⟨0, false, []⟩, ⟨1, false, []⟩]
  giants := fun _ => none
  edgeTs := fun _ _ => none

theorem readNeighborCloneTxn_reinserted :
    reinsertedDb.readNeighborCloneTxn 0 3 = [] ∧ 1 ∈ reinsertedDb.lwwNeighbors 0 3 := by
  refine ⟨by decide, ?_⟩
  unfold lwwNeighbors
  rw [Lww.mem_lww_reverse]
  exact .inl (by decide)

/-- A read depends on the base list and on the visible part of the chain. -/
theorem readNeighborCloneTxn_congr {db db' : TxnDb} (hb : db'.baseEdges v = db.baseEdges v)
    (hc : (db'.chain v).filter (fun r => r.Visible readTs) =
      (db.chain v).filter fun r => r.Visible readTs) :
    db'.readNeighborCloneTxn v readTs = db.readNeighborCloneTxn v readTs := by
  have hscan : ∀ (recs : List TxnRecord) (scan : Scan),
      recs.foldl (Scan.visit readTs) scan =
        (recs.filter fun r => r.Visible readTs).foldl (Scan.visit readTs) scan := by
    intro recs
    induction recs with
    | nil => exact fun _ => rfl
    | cons rec recs ih =>
      intro scan
      by_cases hv : rec.Visible readTs
      · rw [filter_cons_of_pos (by simpa using hv), foldl_cons, foldl_cons, ih]
      · have hs : scan.visit readTs rec = scan := by simp [Scan.visit, hv]
        rw [filter_cons_of_neg (by simpa using hv), foldl_cons, hs, ih]
  unfold readNeighborCloneTxn scanChain
  rw [hb, hscan (db'.chain v), hc, ← hscan (db.chain v)]

/-! ## Writes -/

/-- Link a record in front of the chain of its source and append it to the chain of its page. -/
def appendRecord (db : TxnDb) (rec : TxnRecord) : TxnDb :=
  { db with
    chain := Function.update db.chain rec.first (rec :: db.chain rec.first)
    pending := Function.update db.pending (db.items rec.first).pageNo
      (db.pending (db.items rec.first).pageNo ++ [rec]) }

/-- `insert_edge_txn`, up to the decision whether a consolidation task is submitted. -/
def insertEdgeTxn (db : TxnDb) (src dst : VId) (beginTs commitTs : Nat) : Bool × TxnDb :=
  if src ≥ db.size ∨ dst ≥ db.size ∨ (db.items src).isDelete ∨ (db.items dst).isDelete then
    (false, db)
  else (true, db.appendRecord ⟨.edge, .insert, src, dst, beginTs, commitTs⟩)

/-- `delete_edge_txn`. -/
def deleteEdgeTxn (db : TxnDb) (src dst : VId) (beginTs commitTs : Nat) : Bool × TxnDb :=
  if src ≥ db.size ∨ dst ≥ db.size then (false, db)
  else (true, db.appendRecord ⟨.edge, .delete, src, dst, beginTs, commitTs⟩)

/-- Set or clear the deletion mark of a vertex. -/
def setDelete (db : TxnDb) (v : VId) (b : Bool) : TxnDb :=
  { db with items := Function.update db.items v { db.items v with isDelete := b } }

/-- `insert_single_vertex`: a new vertex gets the next id, whatever id was asked for, and the
location (0, 0). -/
def insertSingleVertex (db : TxnDb) (v : VId) : Bool × TxnDb :=
  if v < db.size ∧ (db.items v).isDelete = false then (false, db)
  else if v < db.size then (true, db.setDelete v false)
  else (true, { db with
    size := db.size + 1
    items := Function.update db.items db.size ⟨0, 0, .normal, false⟩
    chain := Function.update db.chain db.size [] })

/-- `delete_vertex(v, false)`. -/
def deleteVertex (db : TxnDb) (v : VId) : Bool × TxnDb :=
  if v ≥ db.size ∨ (db.items v).isDelete then (false, db) else (true, db.setDelete v true)

end TxnDb

/-- `write_ops_type_t`. -/
inductive WriteOpsType where
  | insertEdge
  | deleteEdge
  | insertVertex
  | deleteVertex
  deriving DecidableEq, Repr

/-- `write_opt_t`. -/
structure WriteOpt where
  type : WriteOpsType
  src : VId
  dst : VId
  deriving DecidableEq, Repr

namespace TxnDb

/-- One round of the loop of `apply_writes`: the flag `success` and the database. -/
def applyWrite (beginTs commitTs : Nat) (db : TxnDb) (op : WriteOpt) : Bool × TxnDb :=
  match op.type with
  | .insertEdge => db.insertEdgeTxn op.src op.dst beginTs commitTs
  | .deleteEdge => db.deleteEdgeTxn op.src op.dst beginTs commitTs
  | .insertVertex => db.insertSingleVertex op.src
  | .deleteVertex => db.deleteVertex op.src

/-- `apply_writes`: a failed write is reported on the error stream and skipped. -/
def applyWrites (beginTs commitTs : Nat) (db : TxnDb) (ops : List WriteOpt) : Bool × TxnDb :=
  (true, ops.foldl (fun db op => (db.applyWrite beginTs commitTs op).2) db)

/-- The flags of the writes, in order. -/
def writeFlags (beginTs commitTs : Nat) : TxnDb → List WriteOpt → List Bool
  | _, [] => []
  | db, op :: ops =>
    (db.applyWrite beginTs commitTs op).1 ::
      writeFlags beginTs commitTs (db.applyWrite beginTs commitTs op).2 ops

/-! ## Which writes are accepted -/

/-- What the validation of a write reads: the number of vertices and their deletion marks. -/
structure Marks where
  size : Nat
  isDelete : VId → Bool

/-- The marks of a database. -/
def marks (db : TxnDb) : Marks := ⟨db.size, fun v => (db.items v).isDelete⟩

/-- The write is accepted. -/
def Marks.Accepts (m : Marks) (op : WriteOpt) : Prop :=
  match op.type with
  | .insertEdge => op.src < m.size ∧ op.dst < m.size ∧ m.isDelete op.src = false ∧
      m.isDelete op.dst = false
  | .deleteEdge => op.src < m.size ∧ op.dst < m.size
  | .insertVertex => op.src < m.size → m.isDelete op.src = true
  | .deleteVertex => op.src < m.size ∧ m.isDelete op.src = false

/-- The marks after a write that was accepted. -/
def Marks.after (m : Marks) (op : WriteOpt) : Marks :=
  match op.type with
  | .insertVertex =>
    if op.src < m.size then ⟨m.size, Function.update m.isDelete op.src false⟩
    else ⟨m.size + 1, Function.update m.isDelete m.size false⟩
  | .deleteVertex => ⟨m.size, Function.update m.isDelete op.src true⟩
  | _ => m

/-- Every write is accepted after the ones before it. -/
def Marks.AcceptsAll (m : Marks) : List WriteOpt → Prop
  | [] => True
  | op :: ops => m.Accepts op ∧ (m.after op).AcceptsAll ops

instance (m : Marks) (op : WriteOpt) : Decidable (m.Accepts op) := by
  unfold Marks.Accepts
  cases op.type <;> infer_instance

instance Marks.decAcceptsAll (m : Marks) : (ops : List WriteOpt) → Decidable (m.AcceptsAll ops)
  | [] => isTrue trivial
  | _ :: ops => @instDecidableAnd _ _ inferInstance (decAcceptsAll _ ops)

variable (db : TxnDb)

theorem marks_appendRecord (rec : TxnRecord) : (db.appendRecord rec).marks = db.marks := rfl

/-- `applyWrite` succeeds exactly on the writes that the marks accept. -/
theorem applyWrite_accepts (beginTs commitTs : Nat) (op : WriteOpt) :
    (db.applyWrite beginTs commitTs op).1 = true ↔ db.marks.Accepts op := by
  unfold applyWrite Marks.Accepts marks
  cases op.type with
  | insertEdge =>
    unfold insertEdgeTxn
    split_ifs with h
    · simp only [false_iff]
      rintro ⟨h1, h2, h3, h4⟩
      rcases h with h | h | h | h
      · exact absurd h1 (Nat.not_lt.2 h)
      · exact absurd h2 (Nat.not_lt.2 h)
      · rw [h3] at h; cases h
      · rw [h4] at h; cases h
    · simp only [not_or, Nat.not_le, ge_iff_le, Bool.not_eq_true] at h
      exact iff_of_true rfl h
  | deleteEdge =>
    unfold deleteEdgeTxn
    split_ifs with h
    · simp only [false_iff, not_and_or, Nat.not_lt]
      exact h
    · simp only [not_or, Nat.not_le, ge_iff_le] at h
      exact iff_of_true rfl h
  | insertVertex =>
    unfold insertSingleVertex
    split_ifs with h h'
    · simp [h.1, h.2]
    · exact iff_of_true rfl fun hv => by
        by_contra hc
        exact h ⟨hv, by simpa using hc⟩
    · exact iff_of_true rfl fun hv => absurd hv h'
  | deleteVertex =>
    unfold deleteVertex
    split_ifs with h
    · simp only [false_iff]
      rintro ⟨h1, h2⟩
      rcases h with h | h
      · exact absurd h1 (Nat.not_lt.2 h)
      · rw [h2] at h; cases h
    · simp only [not_or, Nat.not_le, ge_iff_le, Bool.not_eq_true] at h
      exact iff_of_true rfl h

theorem marks_setDelete (v : VId) (b : Bool) :
    (db.setDelete v b).marks = ⟨db.size, Function.update db.marks.isDelete v b⟩ := by
  unfold setDelete marks
  congr 1
  funext w
  by_cases hw : w = v
  · subst hw; simp
  · simp [hw]

/-- A successful write leaves the marks that `Marks.after` says. -/
theorem marks_applyWrite {db : TxnDb} {beginTs commitTs : Nat} {op : WriteOpt}
    (h : db.marks.Accepts op) :
    (db.applyWrite beginTs commitTs op).2.marks = db.marks.after op := by
  have hok := (applyWrite_accepts db beginTs commitTs op).2 h
  unfold applyWrite at hok ⊢
  unfold Marks.after
  cases ht : op.type with
  | insertEdge =>
    simp only [ht, insertEdgeTxn] at hok ⊢
    split_ifs at hok ⊢ with hc
    exact marks_appendRecord _ _
  | deleteEdge =>
    simp only [ht, deleteEdgeTxn] at hok ⊢
    split_ifs at hok ⊢ with hc
    exact marks_appendRecord _ _
  | insertVertex =>
    simp only [ht, insertSingleVertex] at hok ⊢
    by_cases hv : op.src < db.size
    · rw [if_pos (show op.src < db.marks.size from hv)]
      split_ifs at hok ⊢ with hc
      exact marks_setDelete db _ _
    · rw [if_neg (show ¬ op.src < db.marks.size from hv), if_neg fun hc => hv hc.1, if_neg hv]
      unfold marks
      congr 1
      funext w
      by_cases hw : w = db.size
      · subst hw; simp
      · simp [hw]
  | deleteVertex =>
    simp only [ht, deleteVertex] at hok ⊢
    split_ifs at hok ⊢ with hc
    exact marks_setDelete db _ _

/-- All writes succeed exactly when the marks accept them one after another. -/
theorem writeFlags_all (beginTs commitTs : Nat) (ops : List WriteOpt) :
    (∀ b ∈ writeFlags beginTs commitTs db ops, b = true) ↔ db.marks.AcceptsAll ops := by
  induction ops generalizing db with
  | nil => simp [writeFlags, Marks.AcceptsAll]
  | cons op ops ih =>
    unfold writeFlags Marks.AcceptsAll
    rw [forall_mem_cons, applyWrite_accepts, ih]
    constructor
    · rintro ⟨h1, h2⟩
      exact ⟨h1, marks_applyWrite h1 ▸ h2⟩
    · rintro ⟨h1, h2⟩
      exact ⟨h1, (marks_applyWrite h1).symm ▸ h2⟩

end TxnDb

end BwGraph
