import BwGraph.Db.Direct
import BwGraph.Db.Reopen

/-
  What becomes of a slot write. `insert_edge_direct` writes the new neighbour into the frame of
  the CSR page and returns; it does not mark the frame dirty, and only dirty frames are written
  back by an eviction, by the flusher or by a close. A run here consists of direct insertions with
  any result, reads that load a page, evictions, passes of the flusher, and closes followed by
  opens.

  Every neighbour that a slot write acknowledged is in the list of its page in every state of a
  run in which no clean frame that differs from the file is dropped and no slot write takes a
  vertex to the giant bound (`slotWrites_kept`).
-/

namespace BwGraph

open List CsrPool

variable {cfg : Config} {n : Nat} {db db' db0 : Db} {g : MemGraph}

/-- The neighbours of a vertex on its CSR page. -/
def Db.pageNeighbors (cfg : Config) (db : Db) (v : VId) : List VId :=
  (db.csrPool.page (db.location v).1).readNeighbors cfg (db.location v).2

/-- Whether a direct insertion finds a slot. -/
def Db.findsSlot (cfg : Config) (db : Db) (src dst : VId) : Bool :=
  ((db.csrPool.page (db.location src).1).insertEdgeInSlot cfg (db.location src).2 src dst).1 =
    .inserted

/-! ## Runs -/

/-- The events of a run; `slot` tells whether the insertion was a slot write. -/
inductive SlotEvent where
  | direct (src dst : VId) (time : Nat) (slot : Bool)
  | load (p : PageNo)
  | flush (p : PageNo)
  | evict (p : PageNo)
  | reopen (csrSize deltaSize : Nat)

/-- One step of a run. -/
inductive SlotRunStep (cfg : Config) (db : Db) : SlotEvent → Db → Prop
  | direct {src dst : VId} {time : Nat} (hsrc : src < db.vertexIndex.size) (hdst : dst < 2 ^ 32) :
      SlotRunStep cfg db (.direct src dst time (db.findsSlot cfg src dst))
        (insertEdgeDirect cfg src dst time db).state
  | load {p : PageNo} : SlotRunStep cfg db (.load p) { db with csrPool := db.csrPool.load p }
  | flush {p : PageNo} : SlotRunStep cfg db (.flush p) { db with csrPool := db.csrPool.flush p }
  | evict {p : PageNo} : SlotRunStep cfg db (.evict p) { db with csrPool := db.csrPool.evict p }
  | reopen {csrSize deltaSize : Nat} (h : (closeDb db).Hold cfg csrSize deltaSize) :
      SlotRunStep cfg db (.reopen csrSize deltaSize) (openDb cfg (closeDb db) csrSize deltaSize)

/-- The frame of a page, when it is clean, agrees with the file. -/
def CsrPool.Saved (pool : CsrPool) (p : PageNo) : Prop :=
  ∀ f, pool.frames p = some f → f.dirty = false → f.page = pool.disk p

/-- A slot write leaves its vertex below the giant bound; a frame that is dropped is dirty or
agrees with the file. -/
def SlotRunOk (cfg : Config) (db : Db) : SlotEvent → Prop
  | .direct src _ _ slot => slot = true →
    ∀ e, (db.csrPool.page (db.location src).1).vertexSpan[(db.location src).2]? = some e →
      e.degree + 1 < cfg.giantDegreeBound
  | .evict p => db.csrPool.Saved p
  | .reopen _ _ => ∀ p, db.csrPool.Saved p
  | _ => True

/-- The neighbour arrays of every page that holds a vertex lie one behind the other, as the
constructors lay them out, and the file is as long as the manager says. -/
structure Db.SlotReady (cfg : Config) (db : Db) : Prop where
  file : db.csrPool.FileOk
  spaced : cfg.neighborCompress = false → ∀ v, v < db.vertexIndex.size →
    (db.csrPool.page (db.location v).1).Spaced cfg

/-- What holds along such runs; `written` are the neighbours that slot writes acknowledged. -/
structure SlotInv (cfg : Config) (written : List (VId × VId)) (db : Db) : Prop where
  ready : db.SlotReady cfg
  kept : ∀ x ∈ written, x.2 ∈ db.pageNeighbors cfg x.1

/-- The slot writes of a run. -/
def slotWrites (es : List SlotEvent) : List (VId × VId) :=
  es.filterMap fun
    | .direct src dst _ true => some (src, dst)
    | _ => none

/-! ## One step -/

variable {written : List (VId × VId)}

/-- A step that keeps the locations and the pages that are seen keeps the invariant. -/
theorem SlotInv.rebuffered (h : SlotInv cfg written db) (hfile : db'.csrPool.FileOk)
    (hpage : ∀ q, db'.csrPool.page q = db.csrPool.page q)
    (hsize : db'.vertexIndex.size = db.vertexIndex.size)
    (hloc : ∀ v, db'.location v = db.location v) : SlotInv cfg written db' := by
  refine ⟨⟨hfile, fun hraw v hv => ?_⟩, fun x hx => ?_⟩
  · rw [hloc, hpage]
    exact h.ready.spaced hraw v (hsize ▸ hv)
  · unfold Db.pageNeighbors
    rw [hloc, hpage]
    exact h.kept x hx

/-- The pool, the number of vertices and their items are these. -/
def Db.Frames (pool : CsrPool) (size : Nat) (items : VId → VItem) (db : Db) : Prop :=
  db.csrPool = pool ∧ db.vertexIndex.size = size ∧ db.vertexIndex.items = items

theorem keeps_onPageMap {α : Type} (x : EStateM String PageMap α) (pool : CsrPool)
    (size : Nat) (items : VId → VItem) : (onPageMap x).Keeps (Db.Frames pool size items) := by
  intro s hs
  unfold onPageMap
  cases x s.pageMap with
  | ok a pm => exact hs
  | error e pm => exact hs

/-- `insert_edge` touches neither the CSR pool nor a location, whatever its outcome. -/
theorem keeps_insertEdge (src dst : VId) (time : Nat) (pool : CsrPool) (size : Nat)
    (items : VId → VItem) : (insertEdge cfg src dst time).Keeps (Db.Frames pool size items) := by
  have happ : (appendEdge cfg .insert src dst time).Keeps (Db.Frames pool size items) := by
    intro s hs
    unfold appendEdge
    rw [EStateM.get_bind]
    exact EStateM.Keeps.after (keeps_onPageMap _ pool size items s hs) fun _ _ hs' => hs'
  intro s hs
  unfold insertEdge
  rw [EStateM.get_bind]
  split_ifs
  · exact hs
  · exact EStateM.Keeps.after (happ s hs) fun _ => EStateM.Keeps.pure _

/-- A slot write below the giant bound adds its neighbour and keeps those written before. -/
theorem SlotInv.slotWritten (h : SlotInv cfg written db) {src dst : VId} {page : CsrPage}
    (hsrc : src < db.vertexIndex.size) (hdst : dst < 2 ^ 32)
    (hdeg : ∀ e, (db.csrPool.page (db.location src).1).vertexSpan[(db.location src).2]? = some e →
      e.degree + 1 < cfg.giantDegreeBound)
    (hins : (db.csrPool.page (db.location src).1).insertEdgeInSlot cfg (db.location src).2 src dst =
      (.inserted, page)) (hself : db'.csrPool.page (db.location src).1 = page)
    (hne : ∀ q, q ≠ (db.location src).1 → db'.csrPool.page q = db.csrPool.page q)
    (hfile : db'.csrPool.FileOk) (hsize : db'.vertexIndex.size = db.vertexIndex.size)
    (hloc : ∀ v, db'.location v = db.location v) : SlotInv cfg (written ++ [(src, dst)]) db' := by
  obtain ⟨e, -, hwrite⟩ := insertEdgeInSlot_inserted hins
  have hspaced := h.ready.spaced hwrite.raw src hsrc
  have hdeg' := hdeg e hwrite.entry
  have hread := hwrite.readNeighbors_self hspaced hdst hdeg'
  refine ⟨⟨hfile, fun hraw v hv => ?_⟩, fun x hx => ?_⟩
  · rw [hloc]
    by_cases hq : (db.location v).1 = (db.location src).1
    · rw [hq, hself]
      exact hwrite.spaced hspaced hdeg'
    · rw [hne _ hq]
      exact h.ready.spaced hraw v (hsize ▸ hv)
  · unfold Db.pageNeighbors
    rw [hloc]
    rcases mem_append.1 hx with hx | hx
    · have hkept := h.kept x hx
      unfold Db.pageNeighbors at hkept
      by_cases hp : (db.location x.1).1 = (db.location src).1
      · rw [hp] at hkept ⊢
        rw [hself]
        by_cases ho : (db.location x.1).2 = (db.location src).2
        · rw [ho] at hkept ⊢
          rw [hread]
          exact mem_append_left _ hkept
        · rw [hwrite.readNeighbors_ne hspaced ho]
          exact hkept
      · rw [hne _ hp]
        exact hkept
    · rw [mem_singleton.1 hx, hself, hread]
      exact mem_append_right _ mem_cons_self

/-- A direct insertion: a slot write, or no change of a page that is seen. -/
theorem SlotInv.direct {written : List (VId × VId)} (h : SlotInv cfg written db) {src dst : VId}
    {time : Nat} (hsrc : src < db.vertexIndex.size) (hdst : dst < 2 ^ 32)
    (hok : SlotRunOk cfg db (.direct src dst time (db.findsSlot cfg src dst))) :
    SlotInv cfg (if db.findsSlot cfg src dst then written ++ [(src, dst)] else written)
      (insertEdgeDirect cfg src dst time db).state := by
  obtain ⟨status, db1, hw⟩ : ∃ status db1,
      writeSlot cfg (db.location src).1 (db.location src).2 src dst db = .ok status db1 := by
    unfold writeSlot
    dsimp only
    split
    · exact ⟨_, _, rfl⟩
    · exact ⟨_, _, rfl⟩
  obtain ⟨page, hins, hself, hne, hdisk, hdm, hdb, -⟩ := writeSlot_ok h.ready.file hw
  have hfile : db1.csrPool.FileOk :=
    ⟨by rw [hdm]; exact h.ready.file.pageSize, by rw [hdm]; exact h.ready.file.capacity,
      by rw [hdm, hdisk]; exact h.ready.file.unwritten⟩
  have hloc : ∀ v, db1.location v = db.location v := by
    intro v
    rw [hdb]
    rfl
  have hrest : Db.Frames db1.csrPool db1.vertexIndex.size db1.vertexIndex.items
      (insertEdgeDirect cfg src dst time db).state := by
    unfold insertEdgeDirect
    rw [EStateM.get_bind]
    refine EStateM.Keeps.after (x := writeSlot cfg (db.location src).1 (db.location src).2 src dst)
      ?_ fun st => ?_
    · rw [hw]
      exact ⟨rfl, rfl, rfl⟩
    · cases st with
      | slotFull => exact keeps_insertEdge src dst time _ _ _
      | inserted => exact EStateM.Keeps.pure _
      | exists_ => exact EStateM.Keeps.pure _
      | failed => exact EStateM.Keeps.pure _
  have hloc' : ∀ v, (insertEdgeDirect cfg src dst time db).state.location v = db.location v := by
    intro v
    rw [← hloc v]
    unfold Db.location
    rw [hrest.2.2]
  have hsize : (insertEdgeDirect cfg src dst time db).state.vertexIndex.size =
      db.vertexIndex.size := by
    rw [hrest.2.1, hdb]
  have hfinds : db.findsSlot cfg src dst = decide (status = .inserted) := by
    unfold Db.findsSlot
    rw [hins]
  split_ifs with hslot
  · have hst : status = .inserted := by rwa [hfinds, decide_eq_true_eq] at hslot
    subst hst
    exact h.slotWritten hsrc hdst (hok hslot) hins (by rw [hrest.1]; exact hself)
      (by rw [hrest.1]; exact hne) (by rw [hrest.1]; exact hfile) hsize hloc'
  · have hst : status ≠ .inserted := by rwa [hfinds, decide_eq_true_eq] at hslot
    have hpage := insertEdgeInSlot_kept hins hst
    refine h.rebuffered (by rw [hrest.1]; exact hfile) (fun q => ?_) hsize hloc'
    rw [hrest.1]
    by_cases hq : q = (db.location src).1
    · rw [hq, hself, hpage]
    · exact hne q hq

theorem slotWrites_concat (es : List SlotEvent) (e : SlotEvent) :
    slotWrites (es ++ [e]) = slotWrites es ++ slotWrites [e] := by
  unfold slotWrites
  rw [filterMap_append]

theorem SlotInv.step (hps : 0 < cfg.pageSize) {es : List SlotEvent} {e : SlotEvent}
    (h : SlotInv cfg (slotWrites es) db) (hok : SlotRunOk cfg db e)
    (hstep : SlotRunStep cfg db e db') : SlotInv cfg (slotWrites (es ++ [e])) db' := by
  rw [slotWrites_concat]
  cases hstep with
  | @direct src dst time hsrc hdst =>
    have hdir := h.direct hsrc hdst hok
    cases hslot : db.findsSlot cfg src dst with
    | true => rwa [hslot, if_pos rfl] at hdir
    | false =>
      rw [hslot, if_neg (by decide)] at hdir
      exact (append_nil (slotWrites es)).symm ▸ hdir
  | load =>
    rw [show slotWrites [SlotEvent.load _] = [] from rfl, append_nil]
    exact h.rebuffered (h.ready.file.load _) (page_load h.ready.file _) rfl fun _ => rfl
  | flush =>
    rw [show slotWrites [SlotEvent.flush _] = [] from rfl, append_nil]
    exact h.rebuffered (h.ready.file.flush _) (page_flush h.ready.file _) rfl fun _ => rfl
  | evict =>
    rw [show slotWrites [SlotEvent.evict _] = [] from rfl, append_nil]
    exact h.rebuffered (h.ready.file.evict _) (page_evict h.ready.file hok) rfl fun _ => rfl
  | reopen hold =>
    rw [show slotWrites [SlotEvent.reopen _ _] = [] from rfl, append_nil]
    have hpool : db.csrPool.Ok :=
      ⟨h.ready.file.pageSize, h.ready.file.capacity, h.ready.file.unwritten, hok⟩
    obtain ⟨hok', hpage, -⟩ := openDb_csrPool hps hpool hold
    exact h.rebuffered hok'.file hpage rfl fun _ => rfl

/-- Along every run that drops no unsaved frame and keeps slot-written vertices below the giant
bound, every neighbour that a slot write acknowledged stays in the list of its page. -/
theorem slotWrites_kept (hps : 0 < cfg.pageSize) (h0 : db0.SlotReady cfg) {es : List SlotEvent}
    (run : Steps (guarded (SlotRunOk cfg) (SlotRunStep cfg)) db0 es db) {src dst : VId} {time : Nat}
    (h : SlotEvent.direct src dst time true ∈ es) : dst ∈ db.pageNeighbors cfg src := by
  have hinit : SlotInv cfg (slotWrites []) db0 := ⟨h0, fun x hx => absurd hx List.not_mem_nil⟩
  have hinv : SlotInv cfg (slotWrites es) db :=
    run.inv (fun es db => SlotInv cfg (slotWrites es) db) hinit
      fun es _ e _ hi hstep => hi.step hps hstep.1 hstep.2
  have hmem : (src, dst) ∈ slotWrites es := List.mem_filterMap.2 ⟨_, h, rfl⟩
  exact hinv.kept _ hmem

/-- One slot behind each vertex of a consolidated page. -/
def slotEnv : SmoEnv := { SmoEnv.smooth with slots := fun _ => 1 }

/-- The slot database after `insert_edge(0, 3)` ... -/
def slotAppended : Db := (insertEdge slotConfig 0 3 0 slotDb).state

/-- ... and the consolidation of its page; the frame of the new page is still dirty. -/
def slotMerged : Db := (consolidatePages slotConfig slotEnv 0 slotAppended).state

theorem slotMerged_ready : slotMerged.SlotReady slotConfig := by
  have hins : insertEdge slotConfig 0 3 0 slotDb = .ok true slotAppended :=
    EStateM.Result.eq_ok_of_value? (by decide +kernel)
  have hmerge : consolidatePages slotConfig slotEnv 0 slotAppended = .ok .published slotMerged :=
    EStateM.Result.eq_ok_of_value? (by decide +kernel)
  have hstep : MergeStep slotConfig (smallGraph.pagedVertices slotConfig) slotAppended
      (.consolidate 0 slotEnv) :=
    fun _ => ⟨⟨0, by decide +kernel, by decide +kernel⟩, .inl rfl, by decide +kernel⟩
  obtain ⟨hloaded, -, -⟩ := slotDb_packed.loaded (by decide) (by decide) (by decide)
  have run : Steps (guarded (MergeStep slotConfig (smallGraph.pagedVertices slotConfig))
      (SeqStep slotConfig)) slotDb ([] ++ [.insertEdge 0 3 0] ++ [.consolidate 0 slotEnv])
      slotMerged :=
    .snoc (.snoc .nil ⟨trivial, .insertEdge hins⟩) ⟨hstep, .consolidate hmerge⟩
  refine ⟨(hloaded.tracked.steps run).inv.pool.file, fun hraw v hv => ?_⟩
  have hloc : ∀ v, v < slotMerged.vertexIndex.size → (slotMerged.location v).1 = 1 := by
    decide +kernel
  have hbuild : (buildFromAdjacencyMap slotConfig (fun _ => 1)
      [(3, [0, 1, 2]), (2, [0, 1]), (1, [2, 3]), (0, [1, 2, 3])]).toOption.map Prod.fst =
        some (slotMerged.csrPool.page 1) := by
    decide +kernel
  rw [hloc v hv]
  cases hb : buildFromAdjacencyMap slotConfig (fun _ => 1)
      [(3, [0, 1, 2]), (2, [0, 1]), (1, [2, 3]), (0, [1, 2, 3])] with
  | error e => rw [hb] at hbuild; cases hbuild
  | ok r =>
    rw [hb] at hbuild
    rw [← Option.some.inj hbuild]
    exact spaced_buildFromAdjacencyMap hraw hb

/-- ... after `insert_edge_direct(1, 0)` ... -/
def slotWritten : Db := (insertEdgeDirect slotConfig 1 0 0 slotMerged).state

/-- ... after an eviction of the new page ... -/
def slotEvicted : Db := { slotWritten with csrPool := slotWritten.csrPool.evict 1 }

/-- ... and after it is loaded again. -/
def slotReloaded : Db := { slotEvicted with csrPool := slotEvicted.csrPool.load 1 }

/-- A slot write into a page that a consolidation has just installed survives the eviction. -/
theorem slotWrites_kept_dirty : 0 ∈ slotReloaded.pageNeighbors slotConfig 1 := by
  have hslot : slotMerged.findsSlot slotConfig 1 0 = true := by decide +kernel
  have hwrite : SlotRunStep slotConfig slotMerged (.direct 1 0 0 true) slotWritten := by
    rw [← hslot]
    exact .direct (by decide +kernel) (by decide)
  have hdeg : SlotRunOk slotConfig slotMerged (.direct 1 0 0 true) := by
    intro _ e he
    have hentry : (slotMerged.csrPool.page (slotMerged.location 1).1).vertexSpan[
        (slotMerged.location 1).2]? = some ⟨1, 2, 28, 0⟩ := by decide +kernel
    rw [hentry] at he
    cases he
    decide
  have hdirty : (slotWritten.csrPool.frames 1).map Frame.dirty = some true := by decide +kernel
  have hsaved : SlotRunOk slotConfig slotWritten (.evict 1) := by
    intro f hf hclean
    rw [hf, Option.map_some, hclean] at hdirty
    cases hdirty
  have hevict : SlotRunStep slotConfig slotWritten (.evict 1) slotEvicted := .evict
  have hload : SlotRunStep slotConfig slotEvicted (.load 1) slotReloaded := .load
  have run : Steps (guarded (SlotRunOk slotConfig) (SlotRunStep slotConfig)) slotMerged
      ([] ++ [.direct 1 0 0 true] ++ [.evict 1] ++ [.load 1]) slotReloaded :=
    .snoc (.snoc (.snoc .nil ⟨hdeg, hwrite⟩) ⟨hsaved, hevict⟩) ⟨trivial, hload⟩
  have hmem : SlotEvent.direct 1 0 0 true ∈
      ([] ++ [.direct 1 0 0 true] ++ [.evict 1] ++ [.load 1] : List SlotEvent) :=
    List.mem_cons_self
  exact slotWrites_kept (by decide) slotMerged_ready run hmem

/-- A slot write into a loaded page is lost when the page is evicted. -/
theorem slotWrites_evicted : ¬ ∀ (cfg : Config) (g : MemGraph) (db0 : Db), 0 < cfg.pageSize →
    0 < cfg.deltaPageSize → g.vertexCount ≤ cfg.idLimit → Built cfg g db0 →
    ∀ (es : List SlotEvent) (db : Db), Steps (SlotRunStep cfg) db0 es db →
    ∀ (src dst : VId) (time : Nat), SlotEvent.direct src dst time true ∈ es →
      dst ∈ db.pageNeighbors cfg src := by
  intro h
  have hslot : slotDb.findsSlot slotConfig 0 3 = true := by decide +kernel
  have hwrite : SlotRunStep slotConfig slotDb (.direct 0 3 0 true) slotInserted := by
    rw [← hslot]
    exact .direct (by decide +kernel) (by decide)
  have hevict : SlotRunStep slotConfig slotInserted (.evict 0)
      { slotInserted with csrPool := slotInserted.csrPool.evict 0 } := .evict
  have hmem : SlotEvent.direct 0 3 0 true ∈
      ([] ++ [.direct 0 3 0 true] ++ [.evict 0] : List SlotEvent) := List.mem_cons_self
  have hkept := h slotConfig smallGraph slotDb (by decide) (by decide) (by decide) slotDb_built _ _
    (.snoc (.snoc .nil hwrite) hevict) 0 3 0 hmem
  revert hkept
  decide +kernel

end BwGraph
