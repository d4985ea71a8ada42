import BwGraph.Db.Refinement
import BwGraph.Io.Slots

/-
  Runs that mix `insert_edge_direct` with `insert_edge` and `delete_edge`. A direct insertion
  writes a reserved slot of the CSR page and falls back to a delta record when there is none; the
  frame it writes is not marked dirty. The invariant is that of the other runs for the database as
  its readers see it (`Db.seen`), whose file holds what the frames show.

  A slot write counts as an insertion at its place in the call order when the newest delta record
  of the pair is not a deletion, when the new degree stays below the giant bound and while no
  clean frame that differs from the file is evicted (`readNeighborClone_direct`).
-/

namespace BwGraph

open Function List CsrPool

variable {cfg : Config} {paged : Set VId} {n : Nat} {nbrs : VId → Set VId} {db db' db0 : Db}
  {g : MemGraph}

/-! ## The database its readers see -/

/-- The database with every frame written back. -/
def Db.seen (db : Db) : Db :=
  { db with csrPool := { db.csrPool with
      frames := fun _ => none
      disk := db.csrPool.page } }

theorem page_seen (h : db.seen.csrPool.Ok) (q : PageNo) :
    db.seen.csrPool.page q = db.csrPool.page q :=
  page_of_no_frame h.file rfl

theorem base_seen (h : db.seen.csrPool.Ok) (v : VId) : db.seen.base cfg v = db.base cfg v := by
  unfold Db.base
  rw [page_seen h]
  rfl

theorem reads_seen (h : db.seen.csrPool.Ok) {v : VId} {s : Set VId} (hr : Reads cfg db.seen v s) :
    Reads cfg db v s := by
  obtain ⟨r, ⟨n, hn⟩, hset⟩ := hr
  refine ⟨r, ⟨n, fun fuel hf => ?_⟩, hset⟩
  have hread := hn fuel hf
  unfold readNeighborClone at hread ⊢
  rw [base_seen h] at hread
  exact hread

/-- What holds along runs with direct insertions. -/
structure DirectInv (cfg : Config) (paged : Set VId) (n : Nat) (nbrs : VId → Set VId) (db : Db) :
    Prop where
  size : db.vertexIndex.size = n
  file : db.csrPool.FileOk
  inv : Inv cfg paged nbrs db.seen
  spaced : cfg.neighborCompress = false → ∀ q, (db.csrPool.page q).Spaced cfg

theorem DirectInv.reads (h : DirectInv cfg paged n nbrs db) {v : VId}
    (hv : v < n) : Reads cfg db v (nbrs v) :=
  reads_seen h.inv.pool (h.inv.reads (h.size.symm ▸ hv))

/-! ## Steps that keep what is seen -/

/-- Background work of the pool, also when a clean frame differs from the file. -/
structure Rebuffers (pool pool' : CsrPool) : Prop where
  file : pool'.FileOk
  page : ∀ q, pool'.page q = pool.page q
  freeSlots : pool'.diskManager.freeSlots = pool.diskManager.freeSlots
  pageSize : pool'.diskManager.pageSize = pool.diskManager.pageSize
  globalPageCount : pool.diskManager.globalPageCount ≤ pool'.diskManager.globalPageCount
  retired : pool'.retired = pool.retired

variable {pool : CsrPool}

theorem rebuffers_load (h : pool.FileOk) (p : PageNo) : Rebuffers pool (pool.load p) := by
  refine ⟨h.load p, page_load h p, ?_, ?_, ?_, ?_⟩ <;> cases hf : pool.frames p <;>
    simp [load, hf]

theorem rebuffers_flush (h : pool.FileOk) (p : PageNo) : Rebuffers pool (pool.flush p) := by
  have hfile := h.flush p
  have hpage := page_flush h p
  cases hf : pool.frames p with
  | none =>
    rw [show pool.flush p = pool by simp [flush, hf]]
    exact ⟨h, fun _ => rfl, rfl, rfl, Nat.le_refl _, rfl⟩
  | some f =>
    cases hd : f.dirty with
    | false =>
      rw [show pool.flush p = pool by simp [flush, hf, hd]]
      exact ⟨h, fun _ => rfl, rfl, rfl, Nat.le_refl _, rfl⟩
    | true =>
      rw [flush_of_dirty hf hd] at hfile hpage ⊢
      exact ⟨hfile, hpage, rfl, rfl, Nat.le_max_left _ _, rfl⟩

theorem rebuffers_evict (h : pool.FileOk) {p : PageNo}
    (hclean : ∀ f, pool.frames p = some f → f.dirty = false → f.page = pool.disk p) :
    Rebuffers pool (pool.evict p) := by
  have hfile := h.evict p
  have hpage := page_evict h hclean
  cases hf : pool.frames p with
  | none =>
    rw [show pool.evict p = pool by simp [evict, hf]]
    exact ⟨h, fun _ => rfl, rfl, rfl, Nat.le_refl _, rfl⟩
  | some f =>
    cases hd : f.dirty with
    | false =>
      rw [evict_of_clean hf hd] at hfile hpage ⊢
      exact ⟨hfile, hpage, rfl, rfl, Nat.le_refl _, rfl⟩
    | true =>
      rw [evict_of_dirty hf hd] at hfile hpage ⊢
      exact ⟨hfile, hpage, rfl, rfl, Nat.le_max_left _ _, rfl⟩

theorem Rebuffers.refreshes (h : Rebuffers db.csrPool pool) (hok : db.seen.csrPool.Ok) :
    db.seen.csrPool.Refreshes (Db.seen { db with csrPool := pool }).csrPool := by
  have hok' : (Db.seen { db with csrPool := pool }).csrPool.Ok := by
    refine ⟨h.file.pageSize, h.file.capacity, fun q hq => ?_, fun p f hf => by cases hf⟩
    exact (h.page q).trans (hok.unwritten q (Nat.le_trans h.globalPageCount hq))
  refine ⟨hok', fun q => ?_, ?_, h.globalPageCount, h.retired⟩
  · rw [page_seen hok', page_seen hok]
    exact h.page q
  · unfold DiskManager.freePages Db.seen
    rw [h.freeSlots, h.pageSize]

theorem DirectInv.rebuffered (h : DirectInv cfg paged n nbrs db) (hr : Rebuffers db.csrPool pool) :
    DirectInv cfg paged n nbrs { db with csrPool := pool } :=
  ⟨h.size, hr.file, h.inv.repooled ((hr.refreshes h.inv.pool).repooled h.inv.alloc),
    fun hraw q => by rw [hr.page]; exact h.spaced hraw q⟩

theorem DirectInv.written (h : DirectInv cfg paged n nbrs db) {type : DeltaType} {src dst : VId}
    {time : Nat} (hsrc : src < db.vertexIndex.size) (hdst : dst < db.vertexIndex.size)
    (happ : appendEdge cfg type src dst time db = .ok () db') :
    DirectInv cfg paged n (update nbrs src ((edgeOp type dst).apply (nbrs src))) db' := by
  have hfwd : db.pageMap.acquireForwarderFor (db.location src).1 = none := h.inv.noForwarder _
  have hpm : db.pageMap.Ok := h.inv.pageMap
  obtain ⟨loc, hw⟩ := appendEdge_ok hpm hfwd happ
  have hseen : Written db.seen db'.seen type src dst time loc := by
    refine ⟨hw.appends, hw.vertexIndex, ?_, hw.giantDb⟩
    unfold Db.seen
    rw [hw.csrPool]
  exact ⟨hw.size.trans h.size, by rw [hw.csrPool]; exact h.file, h.inv.written hseen hsrc hdst,
    by rw [hw.csrPool]; exact h.spaced⟩

/-! ## Slot writes -/

/-- A slot write of `d` behind entry `e` of vertex `v`, and nothing else. -/
structure SlotStep (cfg : Config) (db db' : Db) (v : VId) (e : CsrVertex) (d : VId) : Prop where
  ok : db'.csrPool.Ok
  alloc : db'.csrPool.AllocOk
  inUse : ∀ p, db.csrPool.InUse p → db'.csrPool.InUse p
  vertexId : e.vertexId = v
  write : SlotWrite cfg (db.csrPool.page (db.location v).1) (db'.csrPool.page (db.location v).1)
    (db.location v).2 e d
  page_ne : ∀ q, q ≠ (db.location v).1 → db'.csrPool.page q = db.csrPool.page q
  vertexIndex : db'.vertexIndex = db.vertexIndex
  pageMap : db'.pageMap = db.pageMap
  giantDb : db'.giantDb = db.giantDb

namespace SlotStep

variable {v d : VId} {e : CsrVertex}

variable (h : SlotStep cfg db db' v e d)
include h

theorem location (w : VId) : db'.location w = db.location w := by
  unfold Db.location
  rw [h.vertexIndex]

theorem hasEntry (q : PageNo) (w : VId) (i : Nat) :
    (db'.csrPool.page q).HasEntry w i ↔ (db.csrPool.page q).HasEntry w i := by
  by_cases hq : q = (db.location v).1
  · -- entries of other offsets stay, and that of `v` keeps its id and its mark
    subst hq
    exact h.write.hasEntry w i
  · rw [h.page_ne q hq]

/-- The base list of the vertex grows by the new neighbour. -/
theorem base_self (hs : (db.csrPool.page (db.location v).1).Spaced cfg) (hd : d < 2 ^ 32)
    (hnormal : (db.vertexIndex.items v).vertexType ≠ .giant)
    (hdeg : e.degree + 1 < cfg.giantDegreeBound) : db'.base cfg v = db.base cfg v ++ [d] := by
  unfold Db.base
  rw [h.vertexIndex, h.location, if_neg hnormal, if_neg hnormal]
  exact h.write.readNeighbors_self hs hd hdeg

/-- The base lists of the other vertices stay. -/
theorem base_ne (hi : Inv cfg paged nbrs db) (hs : (db.csrPool.page (db.location v).1).Spaced cfg)
    {w : VId} (hw : w < db.vertexIndex.size) (hne : w ≠ v) : db'.base cfg w = db.base cfg w := by
  unfold Db.base
  rw [h.vertexIndex, h.location, h.giantDb]
  split_ifs with hg
  · rfl
  by_cases hp : (db.location w).1 = (db.location v).1
  · rw [hp]
    refine h.write.readNeighbors_ne hs fun ho => hne ?_
    have hwp : w ∈ paged := by
      by_contra hc
      exact hg (hi.giant w hw hc)
    obtain ⟨e', he', hid, -⟩ := hi.entry w hwp
    rw [hp, ho, h.write.entry] at he'
    rw [← hid, ← Option.some.inj he']
    exact h.vertexId
  · rw [h.page_ne _ hp]

end SlotStep

/-- A slot write below the giant bound that no deletion hides keeps the invariant. -/
theorem Inv.slotWritten {v d : VId} {e : CsrVertex} (hi : Inv cfg paged nbrs db)
    (h : SlotStep cfg db db' v e d) (hs : (db.csrPool.page (db.location v).1).Spaced cfg)
    (hv : v < db.vertexIndex.size) (hnormal : (db.vertexIndex.items v).vertexType ≠ .giant)
    (hd : d < db.vertexIndex.size) (hdeg : e.degree + 1 < cfg.giantDegreeBound)
    (hdel : ∀ cells, DeltaChain db.pageMap (db.vertexIndex.deltaHeads v) cells →
      Lww.newest d (opsOf cells) ≠ some (.erase d)) :
    Inv cfg paged (update nbrs v ((Lww.Op.insert d).apply (nbrs v))) db' := by
  have hd32 : d < 2 ^ 32 := by
    have hlim : cfg.idLimit = 2 ^ 32 := by simp [Config.idLimit, h.write.raw]
    exact Nat.lt_of_lt_of_le hd (hlim ▸ hi.size)
  have hframe : SameFrame paged db db' := ⟨h.ok, h.alloc, by rw [h.pageMap]; exact hi.pageMap,
    by rw [h.pageMap]; exact hi.noForwarder, by rw [h.vertexIndex],
    fun w => by rw [h.vertexIndex], fun w => by rw [h.vertexIndex], h.location,
    fun w _ => h.hasEntry _, fun w hw => h.inUse _ (hi.inUse w hw)⟩
  refine hi.frame hframe (fun w hw c hc => ?_) (fun w hw => ?_) fun p r hr => ?_
  · by_cases hwv : w = v
    · subst hwv
      rw [h.base_self hs hd32 hnormal hdeg, mem_append, mem_singleton] at hc
      rcases hc with hc | rfl
      · exact hi.baseIds w hw c hc
      · exact hd
    · rw [h.base_ne hi hs hw hwv] at hc
      exact hi.baseIds w hw c hc
  · obtain ⟨cells, hc⟩ := hi.shows w hw
    refine ⟨cells, by rw [h.pageMap, h.vertexIndex]; exact hc.chain, hc.edge, hc.source,
      by rw [h.vertexIndex]; exact hc.ids, ?_⟩
    by_cases hwv : w = v
    · subst hwv
      have hset : {x | x ∈ db.base cfg w ++ [d]} = Insert.insert d {x | x ∈ db.base cfg w} := by
        ext x
        simp [or_comm]
      rw [h.base_self hs hd32 hnormal hdeg, update_self, hset,
        Lww.lww_insert_reverse (hdel cells hc.chain), hc.set]
    · rw [h.base_ne hi hs hw hwv, update_of_ne hwv]
      exact hc.set
  · rw [h.pageMap] at hr
    exact hi.pending p r hr

/-- A loaded page has a frame that shows it. -/
theorem CsrPool.frame_load (hfile : pool.FileOk) (p : PageNo) :
    ∃ f, (pool.load p).frames p = some f ∧ f.page = pool.page p := by
  obtain ⟨f, hf⟩ : ∃ f, (pool.load p).frames p = some f := by
    cases hf : pool.frames p with
    | some f => exact ⟨f, by simp [load, hf]⟩
    | none => exact ⟨⟨pool.readPage p, false⟩, by simp [load, hf]⟩
  refine ⟨f, hf, ?_⟩
  rw [← page_load hfile p p, page_of_frame hf]

variable {src dst : VId}

/-- `writeSlot` shows the page it wrote, and every other page as before. -/
theorem writeSlot_ok {p : PageNo} {offset : Nat} {status : InsertStatus} (hfile : db.csrPool.FileOk)
    (h : writeSlot cfg p offset src dst db = .ok status db') :
    ∃ page, (db.csrPool.page p).insertEdgeInSlot cfg offset src dst = (status, page) ∧
      db'.csrPool.page p = page ∧ (∀ q, q ≠ p → db'.csrPool.page q = db.csrPool.page q) ∧
      db'.csrPool.disk = db.csrPool.disk ∧ db'.csrPool.diskManager = db.csrPool.diskManager ∧
      db' = { db with csrPool := db'.csrPool } ∧ db'.csrPool.retired = db.csrPool.retired := by
  have hload : (db.csrPool.load p).disk = db.csrPool.disk ∧
      (db.csrPool.load p).diskManager = db.csrPool.diskManager ∧
      (db.csrPool.load p).retired = db.csrPool.retired := by
    cases hf : db.csrPool.frames p with
    | some f => simp [CsrPool.load, hf]
    | none => simp [CsrPool.load, hf]
  obtain ⟨h1, h2, h3⟩ := hload
  obtain ⟨f, hf, hpage⟩ := CsrPool.frame_load hfile p
  obtain ⟨⟨st, page⟩, hins⟩ :
      ∃ r, (db.csrPool.page p).insertEdgeInSlot cfg offset src dst = r := ⟨_, rfl⟩
  unfold writeSlot at h
  simp only [hf, hpage, hins] at h
  cases h
  refine ⟨page, hins, CsrPool.page_of_frame (f := { f with page := page }) (by simp),
    fun q hq => ?_, h1, h2, rfl, h3⟩
  rw [← CsrPool.page_load hfile p q]
  simp [CsrPool.page, CsrPool.readPage, hq]

/-! ## Runs -/

/-- The events of a run with direct insertions. -/
inductive DirectEvent where
  | direct (src dst : VId) (time : Nat)
  | call (e : DbEvent)

/-- Writes and background work: no consolidation, so nothing to recycle. -/
def DbEvent.Plain : DbEvent → Prop
  | .consolidate _ _ => False
  | .recycle _ => False
  | _ => True

/-- One step of such a run. A direct insertion is on a normal vertex and returned true. -/
inductive DirectStep (cfg : Config) (db : Db) : DirectEvent → Db → Prop
  | direct {src dst : VId} {time : Nat} {db' : Db} (hsrc : src < db.vertexIndex.size)
      (hnormal : (db.vertexIndex.items src).vertexType = .normal)
      (hdst : dst < db.vertexIndex.size)
      (h : insertEdgeDirect cfg src dst time db = .ok true db') :
      DirectStep cfg db (.direct src dst time) db'
  | call {e : DbEvent} {db' : Db} (he : e.Plain) (h : SeqStep cfg db e db') :
      DirectStep cfg db (.call e) db'

/-- The operation of an event on vertex `v`, if it has one. -/
def DirectEvent.opOn (v : VId) : DirectEvent → Option (Lww.Op VId)
  | .direct src dst _ => if src = v then some (.insert dst) else none
  | .call e => e.opOn v

/-- The operations on `v` of a run, in call order. -/
def directOps (v : VId) (es : List DirectEvent) : List (Lww.Op VId) :=
  es.filterMap (DirectEvent.opOn v)

/-- A direct insertion that finds a slot is not hidden by a newer-looking deletion of its chain and
stays below the giant bound; a clean frame that is evicted agrees with the file. -/
def DirectOk (cfg : Config) (db : Db) : DirectEvent → Prop
  | .direct src dst _ =>
    ((db.csrPool.page (db.location src).1).insertEdgeInSlot cfg (db.location src).2 src dst).1 =
        .inserted →
      (∀ e, (db.csrPool.page (db.location src).1).vertexSpan[(db.location src).2]? = some e →
        e.degree + 1 < cfg.giantDegreeBound) ∧
      ∀ cells, DeltaChain db.pageMap (db.vertexIndex.deltaHeads src) cells →
        Lww.newest dst (opsOf cells) ≠ some (.erase dst)
  | .call (.evict p) =>
    ∀ f, db.csrPool.frames p = some f → f.dirty = false → f.page = db.csrPool.disk p
  | .call _ => True

/-- `insert_edge_direct` returned true: it wrote a slot, or found none and appended a record. -/
theorem insertEdgeDirect_true {time : Nat} (h : insertEdgeDirect cfg src dst time db = .ok true db') :
    writeSlot cfg (db.location src).1 (db.location src).2 src dst db = .ok .inserted db' ∨
      ∃ db1, writeSlot cfg (db.location src).1 (db.location src).2 src dst db = .ok .slotFull db1 ∧
        insertEdge cfg src dst time db1 = .ok true db' := by
  obtain ⟨status, db1, hw, ⟨rfl, hins⟩ | ⟨-, hst, rfl⟩⟩ := insertEdgeDirect_cases h
  · exact .inr ⟨db1, hw, hins⟩
  · exact .inl (hst rfl ▸ hw)

/-- A slot write that goes through keeps the invariant. -/
theorem DirectInv.slotWritten (h : DirectInv cfg paged n nbrs db) {time : Nat}
    (hsrc : src < db.vertexIndex.size) (hnormal : (db.vertexIndex.items src).vertexType = .normal)
    (hdst : dst < db.vertexIndex.size) (hok : DirectOk cfg db (.direct src dst time))
    (hw : writeSlot cfg (db.location src).1 (db.location src).2 src dst db = .ok .inserted db') :
    DirectInv cfg paged n (update nbrs src ((Lww.Op.insert dst).apply (nbrs src))) db' := by
  obtain ⟨page, hins, hself, hne, hdisk, hdm, hdb, hret⟩ := writeSlot_ok h.file hw
  obtain ⟨e, hid, hwrite⟩ := insertEdgeInSlot_inserted hins
  obtain ⟨hdeg, hdel⟩ := hok (by rw [hins])
  have hspaced := h.spaced hwrite.raw
  have hng : (db.vertexIndex.items src).vertexType ≠ .giant := by rw [hnormal]; simp
  have hfile : db'.csrPool.FileOk :=
    ⟨by rw [hdm]; exact h.file.pageSize, by rw [hdm]; exact h.file.capacity,
      by rw [hdm, hdisk]; exact h.file.unwritten⟩
  have hpaged : src ∈ paged := by
    by_contra hc
    exact hng (h.inv.giant src hsrc hc)
  have hpin := h.inv.inUse src hpaged
  have hseen : db'.seen.csrPool.Ok := by
    refine ⟨hfile.pageSize, hfile.capacity, fun q hq => ?_, fun p f hf => by cases hf⟩
    have hq' : db.csrPool.diskManager.globalPageCount ≤ q := hdm ▸ hq
    have hqp : q ≠ (db.location src).1 := by
      rintro rfl
      exact absurd hpin.1 (Nat.not_lt.2 hq')
    exact (hne q hqp).trans (h.inv.pool.unwritten q hq')
  have hstep : SlotStep cfg db.seen db'.seen src e dst := by
    have halloc : db'.seen.csrPool.diskManager = db.seen.csrPool.diskManager := hdm
    refine ⟨hseen, ?_, fun p hp => ?_, hid, ?_, fun q hq => ?_, ?_, ?_, ?_⟩
    · have ha := h.inv.alloc
      refine ⟨by rw [halloc]; exact ha.freeNodup, by rw [halloc]; exact ha.freeLt, ?_, ?_, ?_⟩
      · exact hret ▸ ha.retiredNodup
      · rw [halloc]; exact hret ▸ ha.retiredLt
      · rw [halloc]; exact hret ▸ ha.disjoint
    · refine ⟨by rw [halloc]; exact hp.1, by rw [halloc]; exact hp.2.1, ?_⟩
      exact hret ▸ hp.2.2
    · rw [page_seen h.inv.pool, page_seen hseen]
      exact hself ▸ hwrite
    · rw [page_seen h.inv.pool, page_seen hseen]
      exact hne q hq
    · rw [hdb]; rfl
    · rw [hdb]; rfl
    · rw [hdb]; rfl
  have hdeg' := hdeg e hwrite.entry
  refine ⟨by rw [hdb]; exact h.size, hfile,
    h.inv.slotWritten hstep ?_ hsrc hng hdst hdeg' hdel, fun hraw q => ?_⟩
  · rw [page_seen h.inv.pool]
    exact hspaced _
  · by_cases hq : q = (db.location src).1
    · rw [hq, hself]
      exact hwrite.spaced (hspaced _) hdeg'
    · rw [hne q hq]
      exact hspaced q

/-- The neighbour sets after one more event. -/
def directNbrs (nbrs : VId → Set VId) (e : DirectEvent) (v : VId) : Set VId :=
  Lww.applyEvent (DirectEvent.opOn v) (nbrs v) e

theorem directNbrs_of_none {e : DirectEvent} (h : ∀ v, e.opOn v = none) :
    directNbrs nbrs e = nbrs := by
  funext v
  exact Lww.applyEvent_none (h v) _

theorem DirectInv.step (h : DirectInv cfg paged n nbrs db) {e : DirectEvent}
    (hok : DirectOk cfg db e) (hstep : DirectStep cfg db e db') :
    DirectInv cfg paged n (directNbrs nbrs e) db' := by
  cases hstep with
  | @direct src dst time _ hsrc hnormal hdst hdir =>
    have hn : directNbrs nbrs (.direct src dst time) =
        update nbrs src ((Lww.Op.insert dst).apply (nbrs src)) :=
      applyEvent_update (fun _ => rfl) nbrs
    rw [hn]
    rcases insertEdgeDirect_true hdir with hw | ⟨db1, hw, hins⟩
    · exact h.slotWritten hsrc hnormal hdst hok hw
    · -- the page was loaded and left as it was
      obtain ⟨page, hfull, hself, hne, hdisk, hdm, hdb, hret⟩ := writeSlot_ok h.file hw
      have hpage := insertEdgeInSlot_kept hfull (by simp)
      have hr : Rebuffers db.csrPool db1.csrPool := by
        refine ⟨⟨?_, ?_, ?_⟩, fun q => ?_, by rw [hdm], by rw [hdm], by rw [hdm], hret⟩
        · rw [hdm]; exact h.file.pageSize
        · rw [hdm]; exact h.file.capacity
        · rw [hdm, hdisk]; exact h.file.unwritten
        · by_cases hq : q = (db.location src).1
          · rw [hq, hself, hpage]
          · exact hne q hq
      have h1 : DirectInv cfg paged n nbrs db1 := hdb ▸ h.rebuffered hr
      obtain ⟨hs, hd, happ⟩ := insertEdge_true hins
      exact h1.written hs hd happ
  | @call e _ hplain hcall =>
    cases hcall with
    | @insertEdge src dst time _ hins =>
      obtain ⟨hs, hd, happ⟩ := insertEdge_true hins
      have hn : directNbrs nbrs (.call (.insertEdge src dst time)) =
          update nbrs src ((Lww.Op.insert dst).apply (nbrs src)) :=
        applyEvent_update (fun _ => rfl) nbrs
      rw [hn]
      exact h.written hs hd happ
    | @deleteEdge src dst time _ hdel =>
      obtain ⟨hs, hd, happ⟩ := deleteEdge_true hdel
      have hn : directNbrs nbrs (.call (.deleteEdge src dst time)) =
          update nbrs src ((Lww.Op.erase dst).apply (nbrs src)) :=
        applyEvent_update (fun _ => rfl) nbrs
      rw [hn]
      exact h.written hs hd happ
    | consolidate => exact hplain.elim
    | recycle => exact hplain.elim
    | load p =>
      rw [directNbrs_of_none fun _ => rfl]
      exact h.rebuffered (rebuffers_load h.file p)
    | flush p =>
      rw [directNbrs_of_none fun _ => rfl]
      exact h.rebuffered (rebuffers_flush h.file p)
    | evict p =>
      rw [directNbrs_of_none fun _ => rfl]
      exact h.rebuffered (rebuffers_evict h.file hok)

/-- The neighbour sets after the operations of a run. -/
def directAfter (nbrs : VId → Set VId) (es : List DirectEvent) (v : VId) : Set VId :=
  Lww.lww (nbrs v) (directOps v es)

theorem directAfter_concat (nbrs : VId → Set VId) (es : List DirectEvent) (e : DirectEvent) :
    directAfter nbrs (es ++ [e]) = directNbrs (directAfter nbrs es) e := by
  funext v
  exact Lww.lww_filterMap_concat _ _ _ _

theorem DirectInv.steps (h : DirectInv cfg paged n nbrs db) {es : List DirectEvent}
    (run : Steps (guarded (DirectOk cfg) (DirectStep cfg)) db es db') :
    DirectInv cfg paged n (directAfter nbrs es) db' :=
  run.inv (fun es db => DirectInv cfg paged n (directAfter nbrs es) db) h
    fun es _ e _ h hstep => directAfter_concat nbrs es e ▸ h.step hstep.1 hstep.2

/-! ## Loaded pages are spaced -/

variable {pages : List CsrPage} {env : BuildEnv}

variable {items items' : VId → VItem} {parts : List (List VId)}

variable {pageNo : PageNo}

theorem standardPages_mem (h : standardPages cfg env g pageNo parts items = .ok (pages, items')) :
    ∀ page ∈ pages, ∃ (part : List VId) (vm : List (VId × Nat)), buildFromAdjacencyMap cfg (fun _ => 0)
      (part.map fun v => (v, g.neighbors v)) = .ok (page, vm) := by
  induction parts generalizing pageNo items pages with
  | nil =>
    cases h
    simp
  | cons part parts ih =>
    obtain ⟨page, vm, rest, hb, hr, rfl⟩ := standardPages_cons h
    exact forall_mem_cons.2 ⟨⟨_, vm, hb⟩, ih hr⟩

theorem standardPages_spaced (hraw : cfg.neighborCompress = false)
    (h : standardPages cfg env g pageNo parts items = .ok (pages, items')) :
    ∀ page ∈ pages, page.Spaced cfg := by
  intro page hp
  obtain ⟨part, vm, hb⟩ := standardPages_mem h page hp
  exact spaced_buildFromAdjacencyMap hraw hb

/-- The builder of a segment packs some items, and its finished pages are spaced. -/
def SegmentSpaced (cfg : Config) (builder : CsrPageBuilder) (r : SegmentResult) : Prop :=
  (∃ items, builder.Packs cfg (fun _ => cfg.edgeSlotCount) items) ∧
    ∀ page ∈ r.pages, page.Spaced cfg

variable {builder builder' : CsrPageBuilder} {r r' : SegmentResult} {rs : List SegmentResult}
  {st st' : BatchState}

variable {page : CsrPage} {vs : List VId}

theorem SegmentSpaced.addPage {r : SegmentResult} {vm : List (VId × Nat)}
    (hraw : cfg.neighborCompress = false) (h : SegmentSpaced cfg builder r)
    (hb : builder.build cfg = .ok (page, vm, builder')) :
    SegmentSpaced cfg builder' (r.addPage page vm) := by
  obtain ⟨⟨items, hp⟩, hs⟩ := h
  refine ⟨⟨[], (hp.build hb).2.2.2⟩, fun q hq => ?_⟩
  rcases mem_append.1 hq with hq | hq
  · exact hs q hq
  · rw [mem_singleton.1 hq]
    exact spaced_build hraw hp hb

theorem SegmentSpaced.seqVertex {v : VId} (hraw : cfg.neighborCompress = false)
    (h : SegmentSpaced cfg builder r) (hv : seqVertex cfg g v builder r = .ok (builder', r')) :
    SegmentSpaced cfg builder' r' := by
  have hadd : ∀ {b b' : CsrPageBuilder} {r : SegmentResult}, SegmentSpaced cfg b r →
      b.addVertex cfg v (g.neighbors v) cfg.edgeSlotCount = .ok (some b') →
      SegmentSpaced cfg b' r := by
    rintro b b' r ⟨⟨items, hp⟩, hs⟩ ha
    exact ⟨⟨_, hp.addVertex ha⟩, hs⟩
  obtain ⟨-, rfl, rfl⟩ | ⟨-, ⟨ha, rfl⟩ | ⟨page, vm, b, hb, rfl, ha⟩⟩ := seqVertex_cases hv
  · exact h
  · exact hadd h ha
  · exact hadd (h.addPage hraw hb) ha

theorem SegmentSpaced.seqVertices {builder : CsrPageBuilder} (hraw : cfg.neighborCompress = false)
    (h : SegmentSpaced cfg builder r) (hv : seqVertices cfg g vs builder r = .ok r') :
    ∀ page ∈ r'.pages, page.Spaced cfg := by
  induction vs generalizing builder r with
  | nil =>
    obtain ⟨-, rfl⟩ | ⟨page, vm, b, hb, rfl⟩ := seqVertices_nil hv
    · exact h.2
    · exact (h.addPage hraw hb).2
  | cons v vs ih =>
    obtain ⟨b, r1, hs, hrest⟩ := seqVertices_cons hv
    exact ih (h.seqVertex hraw hs) hrest

theorem seqSegments_spaced (hraw : cfg.neighborCompress = false) {segments : List (List VId)}
    (h : seqSegments cfg g segments = .ok rs) : ∀ r ∈ rs, ∀ page ∈ r.pages, page.Spaced cfg := by
  induction segments generalizing rs with
  | nil =>
    cases h
    simp
  | cons vs segments ih =>
    obtain ⟨r, rs', hs, hr, rfl⟩ := seqSegments_cons h
    have h0 : SegmentSpaced cfg CsrPageBuilder.init ⟨[], [], []⟩ :=
      ⟨⟨[], CsrPageBuilder.Packs.init⟩, by simp⟩
    exact forall_mem_cons.2 ⟨h0.seqVertices hraw hs, ih hr⟩

theorem mem_indexSegments {items : VId → VItem} (h : page ∈ (indexSegments rs pages items).1) :
    page ∈ pages ∨ ∃ r ∈ rs, page ∈ r.pages := by
  induction rs generalizing pages items with
  | nil => exact .inl h
  | cons r rs ih =>
    rcases ih h with hp | ⟨r', hr', hp⟩
    · rcases mem_append.1 hp with hp | hp
      · exact .inl hp
      · exact .inr ⟨r, mem_cons_self, hp⟩
    · exact .inr ⟨r', mem_cons_of_mem _ hr', hp⟩

section

variable (hraw : cfg.neighborCompress = false) (h : ∀ page ∈ st.pages, page.Spaced cfg)
include hraw h

theorem flushBatch_spaced (hf : flushBatch cfg env st = .ok st') :
    ∀ page ∈ st'.pages, page.Spaced cfg := by
  unfold flushBatch at hf
  split_ifs at hf
  · cases hf
    exact h
  dsimp only at hf
  split at hf
  · cases hf
  · rename_i page vm hb
    cases hf
    intro q hq
    rcases mem_append.1 hq with hq | hq
    · exact h q hq
    · rw [mem_singleton.1 hq]
      exact spaced_buildFromAdjacencyMap hraw hb

theorem batchVertices_spaced (hv : batchVertices cfg env g vs st = .ok st') :
    ∀ page ∈ st'.pages, page.Spaced cfg := by
  induction vs generalizing st with
  | nil => exact flushBatch_spaced hraw h hv
  | cons v vs ih =>
    unfold batchVertices at hv
    cases hb : batchVertex cfg env g st v with
    | error e => rw [hb] at hv; cases hv
    | ok st1 =>
      rw [hb] at hv
      refine ih ?_ hv
      unfold batchVertex at hb
      dsimp only at hb
      split_ifs at hb
      · cases hb
        exact h
      · cases hf : flushBatch cfg env st with
        | error e => rw [hf] at hb; cases hb
        | ok st2 =>
          have hs := flushBatch_spaced hraw h hf
          rw [hf] at hb
          cases hb
          exact hs
      · cases hb
        exact h

end

theorem writePages_forall {p : CsrPage → Prop} (h : ∀ q, p (pool.disk q))
    (hp : ∀ page ∈ pages, p page) (n : PageNo) : ∀ q, p ((pool.writePages n pages).disk q) := by
  induction pages generalizing pool n with
  | nil => exact h
  | cons page pages ih =>
    obtain ⟨h1, h2⟩ := forall_mem_cons.1 hp
    refine ih (fun q => ?_) h2 (n + 1)
    show p (update pool.disk n page q)
    by_cases hq : q = n
    · rw [hq, update_self]
      exact h1
    · rw [update_of_ne hq]
      exact h q

/-- The database was loaded by one of the three builds. -/
def Built (cfg : Config) (g : MemGraph) (db : Db) : Prop :=
  (∃ (env : BuildEnv) (partition : List (List VId)),
      partition.flatten.Perm (List.range g.vertexCount) ∧
        buildStandardDb cfg env g partition = .ok db) ∨
    PackedBuild cfg g db

theorem Built.loadedDb (h : Built cfg g db) : ∃ env pages items giants,
    db = loadedDb cfg env g pages items giants ∧
      (cfg.neighborCompress = false → ∀ page ∈ pages, page.Spaced cfg) := by
  rcases h with ⟨env, partition, -, h⟩ | ⟨-, env, numThreads, -, h⟩ | ⟨env, h⟩
  · obtain ⟨pages, items, hr, rfl⟩ := buildStandardDb_ok h
    exact ⟨_, _, _, _, rfl, fun hraw => standardPages_spaced hraw hr⟩
  · unfold buildSeqDb at h
    cases hr : seqSegments cfg g
        ((range numThreads).map (segmentVertices numThreads g.vertexCount)) with
    | error e => rw [hr] at h; cases h
    | ok rs =>
      rw [hr] at h
      cases h
      refine ⟨_, _, _, _, rfl, fun hraw page hp => ?_⟩
      rcases mem_indexSegments hp with hp | ⟨r, hmem, hp⟩
      · cases hp
      · exact seqSegments_spaced hraw hr r hmem page hp
  · unfold buildCompressedDb at h
    cases hr : batchVertices cfg env g (range g.vertexCount)
        ⟨[], cfg.headerBytes, [], VItem.init, []⟩ with
    | error e => rw [hr] at h; cases h
    | ok st =>
      rw [hr] at h
      cases h
      exact ⟨_, _, _, _, rfl, fun hraw => batchVertices_spaced hraw (by simp) hr⟩

theorem seen_eq (hok : db.csrPool.Ok) (hf : ∀ q, db.csrPool.frames q = none) : db.seen = db := by
  have hframes : db.csrPool.frames = fun _ => none := funext hf
  have hdisk : db.csrPool.page = db.csrPool.disk :=
    funext fun q => page_of_no_frame hok.file (hf q)
  unfold Db.seen
  rw [hdisk, ← hframes]

theorem Built.loaded (hps : 0 < cfg.pageSize) (hds : 0 < cfg.deltaPageSize)
    (hn : g.vertexCount ≤ cfg.idLimit) (h : Built cfg g db) :
    ∃ paged, Loaded cfg paged db ∧ db.vertexIndex.size = g.vertexCount ∧
      ∀ v, v < g.vertexCount → loadedNbrs cfg db v = {d | d ∈ g.neighbors v} := by
  rcases h with ⟨env, partition, hpart, h⟩ | h
  · exact ⟨_, buildStandardDb_loaded hps hds hn hpart h⟩
  · exact ⟨_, h.loaded hps hds hn⟩

theorem Built.directInv (hps : 0 < cfg.pageSize) (hds : 0 < cfg.deltaPageSize)
    (hn : g.vertexCount ≤ cfg.idLimit) (h : Built cfg g db) :
    ∃ paged, DirectInv cfg paged g.vertexCount (loadedNbrs cfg db) db ∧
      ∀ v, v < g.vertexCount → loadedNbrs cfg db v = {d | d ∈ g.neighbors v} := by
  obtain ⟨paged, h0, hsize, hnbrs⟩ := h.loaded hps hds hn
  obtain ⟨env, pages, items, giants, hdb, hspaced⟩ := h.loadedDb
  have hw := writtenFrom_writePages (create_ok hps env.csrCapacity)
    (fun _ => rfl) 0 pages
  have hframes : ∀ q, db.csrPool.frames q = none := hdb ▸ hw.frames
  refine ⟨paged, ⟨hsize, h0.pool.file, ?_, fun hraw q => ?_⟩, hnbrs⟩
  · rw [seen_eq h0.pool hframes]
    exact h0.inv
  · rw [page_of_no_frame h0.pool.file (hframes q), hdb]
    exact writePages_forall (fun _ => CsrPage.spaced_empty cfg) (hspaced hraw) 0 q

/-- Along every run of direct and other writes whose slot writes are neither hidden nor at the
giant bound nor evicted unwritten, a read returns the last-writer-wins set of the loaded
neighbours and all writes in call order. -/
theorem readNeighborClone_direct (hps : 0 < cfg.pageSize) (hds : 0 < cfg.deltaPageSize)
    (hn : g.vertexCount ≤ cfg.idLimit) (hb : Built cfg g db0) {es : List DirectEvent}
    (run : Steps (guarded (DirectOk cfg) (DirectStep cfg)) db0 es db) {v : VId}
    (hv : v < g.vertexCount) :
    Reads cfg db v (Lww.lww {d | d ∈ g.neighbors v} (directOps v es)) := by
  obtain ⟨paged, h0, hnbrs⟩ := hb.directInv hps hds hn
  rw [← hnbrs v hv]
  exact (h0.steps run).reads hv

/-- Pages of 200 bytes, one slot behind the neighbours of each vertex. -/
def slotConfig : Config := ⟨200, 120, 0, 50, 1, 1, false⟩

/-- The small graph, loaded by `build_seq_db`. -/
def slotDb : Db :=
  (buildSeqDb slotConfig ⟨.listed, 0, 0⟩ 1 smallGraph).toOption.getD
    (loadedDb slotConfig ⟨.listed, 0, 0⟩ smallGraph [] VItem.init [])

theorem slotDb_packed : PackedBuild slotConfig smallGraph slotDb :=
  .seq rfl ⟨.listed, 0, 0⟩ Nat.one_pos (by decide +kernel) _

theorem slotDb_built : Built slotConfig smallGraph slotDb := .inr slotDb_packed

/-- The database after `insert_edge_direct(0, 3)`. -/
def slotInserted : Db := (insertEdgeDirect slotConfig 0 3 0 slotDb).state

/-- A direct insertion that finds its slot. -/
theorem readNeighborClone_direct_small :
    Reads slotConfig slotInserted 0
      (Lww.lww {d | d ∈ smallGraph.neighbors 0} [.insert 3]) := by
  have hins : insertEdgeDirect slotConfig 0 3 0 slotDb = .ok true slotInserted :=
    EStateM.Result.eq_ok_of_value? (by decide +kernel)
  have hok : DirectOk slotConfig slotDb (.direct 0 3 0) := by
    refine fun _ => ⟨fun e he => ?_, fun cells hc => ?_⟩
    · have hentry : (slotDb.csrPool.page (slotDb.location 0).1).vertexSpan[(slotDb.location 0).2]? =
          some ⟨0, 2, 0, 0⟩ := by decide +kernel
      rw [hentry] at he
      cases he
      decide
    · have hnil : cells = [] := hc.det .nil
      rw [hnil]
      simp [opsOf, Lww.newest]
  have run : Steps (guarded (DirectOk slotConfig) (DirectStep slotConfig)) slotDb
      ([] ++ [.direct 0 3 0]) slotInserted :=
    .snoc .nil ⟨hok, .direct (by decide +kernel) (by decide +kernel) (by decide +kernel) hins⟩
  exact readNeighborClone_direct (by decide) (by decide) (by decide) slotDb_built run (by decide)

/-- The database after `delete_edge(0, 1)` ... -/
def slotDeleted : Db := (deleteEdge slotConfig 0 1 0 slotDb).state

/-- ... and `insert_edge_direct(0, 1)`. -/
def slotReinserted : Db := (insertEdgeDirect slotConfig 0 1 0 slotDeleted).state

/-- A direct insertion below an older deletion record is not read. -/
theorem readNeighborClone_direct_hidden :
    ¬ ∀ (cfg : Config) (g : MemGraph) (db0 : Db), 0 < cfg.pageSize → 0 < cfg.deltaPageSize →
      g.vertexCount ≤ cfg.idLimit → Built cfg g db0 →
      ∀ (es : List DirectEvent) (db : Db), Steps (DirectStep cfg) db0 es db →
      ∀ v, v < g.vertexCount →
        Reads cfg db v (Lww.lww {d | d ∈ g.neighbors v} (directOps v es)) := by
  intro h
  have hdel : deleteEdge slotConfig 0 1 0 slotDb = .ok true slotDeleted :=
    EStateM.Result.eq_ok_of_value? (by decide +kernel)
  have hins : insertEdgeDirect slotConfig 0 1 0 slotDeleted = .ok true slotReinserted :=
    EStateM.Result.eq_ok_of_value? (by decide +kernel)
  have hread := h slotConfig smallGraph slotDb (by decide) (by decide) (by decide) slotDb_built
    ([] ++ [.call (.deleteEdge 0 1 0)] ++ [.direct 0 1 0]) slotReinserted
    (.snoc (.snoc .nil (.call (show DbEvent.Plain (.deleteEdge 0 1 0) from trivial)
      (.deleteEdge hdel)))
      (.direct (by decide +kernel) (by decide +kernel) (by decide +kernel) hins)) 0 (by decide)
  have hgot : readNeighborClone slotConfig 1 slotReinserted 0 = some [2] := by decide +kernel
  exact not_reads 1 hgot 1 (by decide +kernel) hread

end BwGraph
