import BwGraph.Db.Refinement

/-
  `close` and `open` (`db_build.cc`). A close writes the dirty pages and saves the vertex index
  with the heads of the delta chains; an open starts with empty pools, counts the pages of each
  file by a backward scan for the last page that is not all zeros, and starts with an empty page
  map. So the chain of a vertex is read after an open as before the close, but no record is
  pending on a page any more.

  A run may close and open the database at any time (`StoreStep`). A read returns the
  last-writer-wins set of all calls of the run as long as no consolidation drops the chain of a
  vertex whose records are not all pending on its page (`readNeighborClone_reopened`).
-/

namespace BwGraph

open CsrPool PageMap DiskManager CsrPage

/-! ## The files -/

/-- What a close leaves in the directory. A page of the delta file that was never written is
`none`; a fresh delta page already has a header. -/
structure DbFiles where
  csr : PageNo → CsrPage
  delta : PageNo → Option (List DeltaRecord)
  vertexIndex : VertexIndex
  giantDb : GiantDb

/-- The file content of a page once `flush_csr_pages` has written the dirty frames. -/
def CsrPool.flushed (pool : CsrPool) (p : PageNo) : CsrPage :=
  match pool.frames p with
  | some f => if f.dirty then f.page else pool.disk p
  | none => pool.disk p

/-- `close`. -/
def closeDb (db : Db) : DbFiles where
  csr := db.csrPool.flushed
  delta q := if q < db.pageMap.deltaDisk.globalPageCount then some (db.pageMap.deltaPool q).records
    else none
  vertexIndex := db.vertexIndex
  giantDb := db.giantDb

/-- The backward scan of `disk_manager_t::init`: one more than the last page below `n` that is not
all zeros. -/
def scanBackward (nonzero : PageNo → Bool) : Nat → Nat
  | 0 => 0
  | i + 1 => if nonzero i then i + 1 else scanBackward nonzero i

/-- `BW_GRAPH_DEFAULT_DB_IO_SIZE`. -/
def defaultDbIoSize : Nat := 16

/-- The disk manager of an existing file of `fileSize` bytes. -/
def DiskManager.openFile (pageSize fileSize : Nat) (nonzero : PageNo → Bool) : DiskManager where
  pageSize := pageSize
  pageCapacity := if fileSize = 0 then defaultDbIoSize else fileSize
  freeSlots := []
  globalPageCount := scanBackward nonzero (fileSize / pageSize)
  validPageCount := scanBackward nonzero (fileSize / pageSize)

/-- `load_from_file`: every vertex gets a version object of its own. -/
def VertexIndex.loadFromFile (vi : VertexIndex) : VertexIndex where
  size := vi.size
  items v := { vi.items v with cur := ⟨v, (vi.items v).cur.pageNo, (vi.items v).cur.offset⟩ }
  deltaHeads := vi.deltaHeads
  nextVersion := vi.size

/-- `open`. -/
def openDb (cfg : Config) (files : DbFiles) (csrSize deltaSize : Nat) : Db where
  vertexIndex := files.vertexIndex.loadFromFile
  pageMap :=
    { inner := fun _ => none
      deltaPool := fun q => ⟨(files.delta q).getD [], .accumulate⟩
      deltaDisk := .openFile cfg.deltaPageSize deltaSize fun q => (files.delta q).isSome
      forwarders := fun _ => ⟨fun _ => none, fun _ => none⟩
      nextForwarder := 0 }
  csrPool :=
    { frames := fun _ => none
      disk := files.csr
      diskManager := .openFile cfg.pageSize csrSize fun q => files.csr q ≠ CsrPage.empty
      retired := [] }
  giantDb := files.giantDb

/-- The files are as long as what was written to them. -/
structure DbFiles.Hold (cfg : Config) (files : DbFiles) (csrSize deltaSize : Nat) : Prop where
  csr : ∀ q, files.csr q ≠ CsrPage.empty → (q + 1) * cfg.pageSize ≤ csrSize
  delta : ∀ q, (files.delta q).isSome → (q + 1) * cfg.deltaPageSize ≤ deltaSize

/-! ## Opening a closed database -/

theorem scanBackward_le (nonzero : PageNo → Bool) (n : Nat) : scanBackward nonzero n ≤ n := by
  induction n with
  | zero => exact Nat.le_refl 0
  | succ i ih =>
    unfold scanBackward
    split_ifs <;> omega

variable {nonzero : PageNo → Bool}

theorem lt_scanBackward {q n : Nat} (hq : nonzero q) (hlt : q < n) :
    q < scanBackward nonzero n := by
  induction n with
  | zero => exact absurd hlt (Nat.not_lt_zero q)
  | succ i ih =>
    unfold scanBackward
    split_ifs with hi
    · exact hlt
    · have hne : q ≠ i := by
        rintro rfl
        exact hi hq
      exact ih (by omega)

/-- A page that is not all zeros is counted. -/
theorem DiskManager.lt_openFile {pageSize fileSize : Nat} (hps : 0 < pageSize) {q : Nat}
    (hq : nonzero q) (hlt : (q + 1) * pageSize ≤ fileSize) :
    q < (openFile pageSize fileSize nonzero).globalPageCount :=
  lt_scanBackward hq ((Nat.le_div_iff_mul_le hps).2 hlt)

theorem DiskManager.openFile_capacity (pageSize fileSize : Nat) (nonzero : PageNo → Bool) :
    (openFile pageSize fileSize nonzero).globalPageCount * pageSize ≤
      (openFile pageSize fileSize nonzero).pageCapacity := by
  have hle : scanBackward nonzero (fileSize / pageSize) * pageSize ≤ fileSize :=
    (Nat.mul_le_mul_right _ (scanBackward_le _ _)).trans (Nat.div_mul_le_self _ _)
  unfold openFile
  dsimp only
  split_ifs with h0
  · omega
  · exact hle

variable {cfg : Config} {paged : Set VId} {nbrs : VId → Set VId} {db db' db0 : Db}
  {csrSize deltaSize : Nat}

theorem CsrPool.flushed_eq {pool : CsrPool} (h : pool.Ok) (p : PageNo) :
    pool.flushed p = pool.page p := by
  unfold flushed
  cases hf : pool.frames p with
  | none => exact (page_of_no_frame h.file hf).symm
  | some f =>
    rw [page_of_frame hf]
    dsimp only
    split_ifs with hd
    · rfl
    · exact (h.clean p f hf (by simpa using hd)).symm

/-- What closing and opening a database does, seen from the invariant. -/
structure Reopened (db db' : Db) : Prop where
  pool : db'.csrPool.Ok
  alloc : db'.csrPool.AllocOk
  page : ∀ p, db'.csrPool.page p = db.csrPool.page p
  inUse : ∀ p, db.csrPool.page p ≠ CsrPage.empty → db'.csrPool.InUse p
  pageMap : db'.pageMap.Ok
  noForwarder : ∀ p, db'.pageMap.acquireForwarderFor p = none
  noPending : ∀ p, db'.pageMap.pageRecs p = []
  getRecord : ∀ l, db'.pageMap.getRecord l = db.pageMap.getRecord l
  size : db'.vertexIndex.size = db.vertexIndex.size
  location : ∀ v, db'.location v = db.location v
  vertexType : ∀ v, (db'.vertexIndex.items v).vertexType = (db.vertexIndex.items v).vertexType
  isDelete : ∀ v, (db'.vertexIndex.items v).isDelete = (db.vertexIndex.items v).isDelete
  deltaHeads : db'.vertexIndex.deltaHeads = db.vertexIndex.deltaHeads
  giantDb : db'.giantDb = db.giantDb

/-- The pages of the CSR file are read after an open as before the close. -/
theorem openDb_csrPool (hps : 0 < cfg.pageSize) (hpool : db.csrPool.Ok)
    (hold : (closeDb db).Hold cfg csrSize deltaSize) :
    (openDb cfg (closeDb db) csrSize deltaSize).csrPool.Ok ∧
      (∀ p, (openDb cfg (closeDb db) csrSize deltaSize).csrPool.page p = db.csrPool.page p) ∧
      ∀ p, db.csrPool.page p ≠ empty →
        p < (openDb cfg (closeDb db) csrSize deltaSize).csrPool.diskManager.globalPageCount := by
  have hcount : ∀ p, db.csrPool.page p ≠ empty →
      p < (openDb cfg (closeDb db) csrSize deltaSize).csrPool.diskManager.globalPageCount := by
    intro p hp
    rw [← flushed_eq hpool] at hp
    exact lt_openFile hps (decide_eq_true hp) (hold.csr p hp)
  have hok : (openDb cfg (closeDb db) csrSize deltaSize).csrPool.Ok := by
    refine ⟨hps, openFile_capacity _ _ _, fun q hq => ?_, fun p f hf => by cases hf⟩
    by_contra hne
    have hne' : db.csrPool.page q ≠ empty := flushed_eq hpool q ▸ hne
    exact absurd (hcount q hne') (Nat.not_lt.2 hq)
  refine ⟨hok, fun p => ?_, hcount⟩
  rw [page_of_no_frame hok.file rfl]
  exact flushed_eq hpool p

theorem reopened_openDb (hps : 0 < cfg.pageSize) (hds : 0 < cfg.deltaPageSize)
    (hpool : db.csrPool.Ok) (hpm : db.pageMap.Ok) (hold : (closeDb db).Hold cfg csrSize deltaSize) :
    Reopened db (openDb cfg (closeDb db) csrSize deltaSize) := by
  obtain ⟨hok, hpage, hcount⟩ := openDb_csrPool hps hpool hold
  have hrecs : ∀ q, ((openDb cfg (closeDb db) csrSize deltaSize).pageMap.deltaPool q).records =
      (db.pageMap.deltaPool q).records := by
    intro q
    by_cases hq : q < db.pageMap.deltaDisk.globalPageCount
    · simp [openDb, closeDb, hq]
    · simp [openDb, closeDb, hq, hpm.unused q (Nat.le_of_not_lt hq)]
  refine ⟨hok, ⟨List.nodup_nil, by simp [openDb, openFile, freePages],
      List.nodup_nil, by simp [openDb], by simp [openDb]⟩, hpage, fun p hp => ?_, ?_,
    fun _ => rfl, fun _ => rfl, fun l => ?_, rfl, fun _ => rfl, fun _ => rfl, fun _ => rfl, rfl, rfl⟩
  · exact ⟨hcount p hp, by simp [openDb, openFile, freePages],
      by simp [openDb]⟩
  · refine ⟨hds, rfl, fun q hq => ?_, fun _ => List.nodup_nil, by simp [chain, openDb,
      getOrCreateEntry], by simp [chain, openDb, getOrCreateEntry]⟩
    rw [hrecs]
    refine hpm.unused q (Nat.le_of_not_lt fun hlt => ?_)
    have hsome : ((closeDb db).delta q).isSome := by simp [closeDb, hlt]
    have hcount : q < (openFile cfg.deltaPageSize deltaSize fun q =>
        ((closeDb db).delta q).isSome).globalPageCount :=
      lt_openFile hds hsome (hold.delta q hsome)
    exact absurd hcount (Nat.not_lt.2 hq)
  · unfold getRecord
    rw [hrecs]

theorem Reopened.base (h : Reopened db db') (v : VId) : db'.base cfg v = db.base cfg v := by
  unfold Db.base
  rw [h.vertexType, h.giantDb, h.location, h.page]

/-- Closing and opening keeps the invariant. -/
theorem Inv.reopened (hi : Inv cfg paged nbrs db) (h : Reopened db db') :
    Inv cfg paged nbrs db' := by
  have hinUse : ∀ v ∈ paged, db'.csrPool.InUse (db.location v).1 := by
    intro v hv
    refine h.inUse _ fun hempty => ?_
    obtain ⟨e, he, -⟩ := hi.entry v hv
    rw [hempty] at he
    cases he
  exact hi.sameView ⟨⟨h.pool, h.alloc, h.pageMap, h.noForwarder, h.size, h.isDelete, h.vertexType,
      h.location, fun v _ w i => by rw [h.page], hinUse⟩,
    fun v _ => h.base v,
    fun v cells hc => by rw [h.deltaHeads]; exact hc.congr fun x _ => h.getRecord x.1,
    fun p r hr => by rw [h.noPending] at hr; cases hr⟩

/-! ## Runs with reopenings -/

/-- The events of a run that may close and open the database. -/
inductive StoreEvent where
  | call (e : DbEvent)
  | reopen (csrSize deltaSize : Nat)

/-- One step of such a run; the files hold what was written to them. -/
inductive StoreStep (cfg : Config) (db : Db) : StoreEvent → Db → Prop
  | call {e : DbEvent} {db' : Db} (h : SeqStep cfg db e db') : StoreStep cfg db (.call e) db'
  | reopen {csrSize deltaSize : Nat} (h : (closeDb db).Hold cfg csrSize deltaSize) :
      StoreStep cfg db (.reopen csrSize deltaSize) (openDb cfg (closeDb db) csrSize deltaSize)

/-- A consolidation with pending records is of a mergeable page: in particular every vertex of the
page has all the records of its chain pending there. -/
def SafeStep (cfg : Config) (paged : Set VId) (db : Db) : StoreEvent → Prop
  | .call e => Safe cfg paged db e
  | .reopen _ _ => True

/-- The calls of a run. -/
def callsIn (es : List StoreEvent) : List DbEvent :=
  es.filterMap fun
    | .call e => some e
    | .reopen _ _ => none

theorem callsIn_concat_call (es : List StoreEvent) (e : DbEvent) :
    callsIn (es ++ [.call e]) = callsIn es ++ [e] := by
  simp [callsIn]

theorem callsIn_concat_reopen (es : List StoreEvent) (csrSize deltaSize : Nat) :
    callsIn (es ++ [.reopen csrSize deltaSize]) = callsIn es := by
  simp [callsIn]

/-- A run whose consolidations are all safe keeps the invariant over every reopening. -/
theorem Inv.storeSteps (hps : 0 < cfg.pageSize) (hds : 0 < cfg.deltaPageSize)
    (hi : Inv cfg paged nbrs db) {es : List StoreEvent}
    (run : Steps (guarded (SafeStep cfg paged) (StoreStep cfg)) db es db') :
    Inv cfg paged (nbrsAfter nbrs (callsIn es)) db' ∧
      db'.vertexIndex.size = db.vertexIndex.size := by
  refine run.inv (fun es db' => Inv cfg paged (nbrsAfter nbrs (callsIn es)) db' ∧
    db'.vertexIndex.size = db.vertexIndex.size) ⟨hi, rfl⟩ ?_
  rintro es db1 e db2 ⟨h, hsize⟩ ⟨hsafe, hstep⟩
  cases hstep with
  | call hcall =>
    rw [callsIn_concat_call, nbrsAfter_concat]
    exact ⟨h.step hsafe hcall, (h.effect hsafe hcall).size.trans hsize⟩
  | reopen hold =>
    rw [callsIn_concat_reopen]
    have hr := reopened_openDb hps hds h.pool h.pageMap hold
    exact ⟨h.reopened hr, hr.size.trans hsize⟩

/-- Along every run with reopenings whose consolidations are all of mergeable pages, a read returns
the last-writer-wins set of the loaded neighbours and all calls so far. -/
theorem readNeighborClone_reopened (hps : 0 < cfg.pageSize) (hds : 0 < cfg.deltaPageSize)
    (h0 : Loaded cfg paged db0) {es : List StoreEvent}
    (run : Steps (guarded (SafeStep cfg paged) (StoreStep cfg)) db0 es db) {v : VId}
    (hv : v < db0.vertexIndex.size) :
    Reads cfg db v (Lww.lww {d | d ∈ db0.base cfg v} (opsIn v (callsIn es))) := by
  obtain ⟨h, hsize⟩ := h0.inv.storeSteps hps hds run
  exact h.reads (hsize.symm ▸ hv)

/-- The small database after `insert_edge(0, 3)`, a close and an open. -/
def smallReopened : Db := openDb (smallConfig false) (closeDb (smallInserted false)) 100 120

/-- ... after `insert_edge(1, 0)` ... -/
def smallReopenedInserted : Db := (insertEdge (smallConfig false) 1 0 0 smallReopened).state

/-- ... and after the consolidation of page 0. -/
def smallReopenedMerged : Db :=
  (consolidatePages (smallConfig false) .smooth 0 smallReopenedInserted).state

/-- Without frames the files are as long as the managers count. -/
theorem hold_of_uncached (hpool : db.csrPool.Ok) (hf : ∀ q, db.csrPool.frames q = none)
    (hc : db.csrPool.diskManager.globalPageCount * cfg.pageSize ≤ csrSize)
    (hd : db.pageMap.deltaDisk.globalPageCount * cfg.deltaPageSize ≤ deltaSize) :
    (closeDb db).Hold cfg csrSize deltaSize := by
  constructor
  · intro q hq
    have hlt : q < db.csrPool.diskManager.globalPageCount := by
      by_contra hle
      refine hq ?_
      show db.csrPool.flushed q = empty
      rw [flushed_eq hpool, page_of_no_frame hpool.file (hf q)]
      exact hpool.unwritten q (Nat.le_of_not_lt hle)
    exact (Nat.mul_le_mul_right _ hlt).trans hc
  · intro q hq
    have hlt : q < db.pageMap.deltaDisk.globalPageCount := by
      by_contra hle
      simp [closeDb, hle] at hq
    exact (Nat.mul_le_mul_right _ hlt).trans hd

theorem smallInserted_hold : (closeDb (smallInserted false)).Hold (smallConfig false) 100 120 := by
  have run : Steps (guarded (MergeStep (smallConfig false)
      {v | v < (smallDb false).vertexIndex.size}) (SeqStep (smallConfig false))) (smallDb false)
      ([] ++ [.insertEdge 0 3 0]) (smallInserted false) :=
    .snoc .nil ⟨trivial, .insertEdge (smallDb_inserts false)⟩
  exact hold_of_uncached ((smallDb_loaded false).tracked.steps run).inv.pool (fun _ => rfl)
    (by decide +kernel) (by decide +kernel)

/-- Insertions before the close and after the open. -/
theorem readNeighborClone_reopened_small :
    Reads (smallConfig false) smallReopenedInserted 0
      (Lww.lww {d | d ∈ (smallDb false).base (smallConfig false) 0} [.insert 3]) := by
  have hins : insertEdge (smallConfig false) 1 0 0 smallReopened = .ok true smallReopenedInserted :=
    EStateM.Result.eq_ok_of_value? (by decide +kernel)
  have run : Steps (guarded (SafeStep (smallConfig false)
      {v | v < (smallDb false).vertexIndex.size}) (StoreStep (smallConfig false))) (smallDb false)
      ([] ++ [.call (.insertEdge 0 3 0)] ++ [.reopen 100 120] ++ [.call (.insertEdge 1 0 0)])
      smallReopenedInserted :=
    .snoc (.snoc (.snoc .nil ⟨trivial, .call (.insertEdge (smallDb_inserts false))⟩)
      ⟨trivial, .reopen smallInserted_hold⟩) ⟨trivial, .call (.insertEdge hins)⟩
  exact readNeighborClone_reopened (by decide) (by decide) (smallDb_loaded false) run
    (by decide +kernel)

/-- A consolidation after the open drops the chain of vertex 0 without merging it. -/
theorem readNeighborClone_lost_by_reopen :
    ¬ ∀ (cfg : Config) (paged : Set VId) (db0 : Db), 0 < cfg.pageSize → 0 < cfg.deltaPageSize →
      Loaded cfg paged db0 →
      ∀ (es : List StoreEvent) (db : Db), Steps (StoreStep cfg) db0 es db →
      ∀ v, v < db0.vertexIndex.size →
        Reads cfg db v (Lww.lww {d | d ∈ db0.base cfg v} (opsIn v (callsIn es))) := by
  intro h
  have hins : insertEdge (smallConfig false) 1 0 0 smallReopened = .ok true smallReopenedInserted :=
    EStateM.Result.eq_ok_of_value? (by decide +kernel)
  have hmerge : consolidatePages (smallConfig false) .smooth 0 smallReopenedInserted =
      .ok .published smallReopenedMerged := EStateM.Result.eq_ok_of_value? (by decide +kernel)
  have hread := h (smallConfig false) _ (smallDb false) (by decide) (by decide)
    (smallDb_loaded false) ([] ++ [.call (.insertEdge 0 3 0)] ++ [.reopen 100 120] ++
      [.call (.insertEdge 1 0 0)] ++ [.call (.consolidate 0 .smooth)]) smallReopenedMerged
    (.snoc (.snoc (.snoc (.snoc .nil (.call (.insertEdge (smallDb_inserts false))))
      (.reopen smallInserted_hold)) (.call (.insertEdge hins))) (.call (.consolidate hmerge))) 0
    (by decide +kernel)
  have hgot : readNeighborClone (smallConfig false) 0 smallReopenedMerged 0 = some [1, 2] := by
    decide +kernel
  exact not_reads 0 hgot 3 (by decide +kernel) hread

end BwGraph
