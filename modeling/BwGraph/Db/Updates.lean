import BwGraph.Io.Slots
import BwGraph.Db.Vertices

/-
  Runs of all updates of one open database, each to its end: writes with and without slots, new and
  deleted vertices, consolidations and the background work of the pool.

  Every call but the consolidations that find records to merge leaves the pages of the pool alone
  (`SameStore`); a slot write changes the degree of one entry of a cached page (`SameEntries`). As
  long as no page is replaced, no vertex is created and no giant vertex with neighbours is deleted
  (`Unreplaced`), the database is still the one it was loaded as, up to degrees (`Settled`).
-/

namespace BwGraph

open Function
open EStateM (bind_eq_ok get_bind pure_eq_ok)

/-! ## `delete_vertex` -/

/-- The loop of `delete_vertex` over the neighbours; `clock` is the time at each of its calls. -/
def deleteEdges (cfg : Config) (v : VId) : List VId → (Nat → Nat) → DbM Unit
  | [], _ => pure ()
  | d :: removed, clock => do
    let _ ← deleteEdge cfg v d (clock 0)
    let _ ← deleteEdge cfg d v (clock 1)
    deleteEdges cfg v removed fun i => clock (i + 2)

/-- `delete_vertex`. The vertex is already marked when `is_giant_vertex` is asked. -/
def deleteVertex (cfg : Config) (v : VId) (removeNeighbors : Bool) (clock : Nat → Nat) :
    DbM Bool := do
  let vi := (← get).vertexIndex
  if v ≥ vi.size ∨ (vi.items v).isDelete then return false
  else
    modify fun db => { db with vertexIndex := { db.vertexIndex with
      items := Function.update vi.items v { vi.items v with isDelete := true } } }
    let db ← get
    if removeNeighbors ∧ !db.vertexIndex.isGiantVertex v then
      deleteEdges cfg v (db.base cfg v) clock
    return true

/-! ## Runs -/

/-- The events of a run of updates. -/
inductive UpdateEvent where
  | call (e : GrowEvent)
  | insertEdgeDirect (src dst : VId) (time : Nat)
  | deleteVertex (v : VId) (removeNeighbors : Bool) (clock : Nat → Nat)

/-- One call that returned. -/
inductive UpdateStep (cfg : Config) (db : Db) : UpdateEvent → Db → Prop
  | call {e : GrowEvent} {db' : Db} (h : GrowCall cfg db e db') : UpdateStep cfg db (.call e) db'
  | insertEdgeDirect {src dst : VId} {time : Nat} {b : Bool} {db' : Db}
      (hsrc : src < db.vertexIndex.size)
      (h : insertEdgeDirect cfg src dst time db = .ok b db') :
      UpdateStep cfg db (.insertEdgeDirect src dst time) db'
  | deleteVertex {v : VId} {removeNeighbors : Bool} {clock : Nat → Nat} {b : Bool} {db' : Db}
      (h : deleteVertex cfg v removeNeighbors clock db = .ok b db') :
      UpdateStep cfg db (.deleteVertex v removeNeighbors clock) db'

/-- The step replaces no page, creates no vertex and deletes no giant vertex with neighbours. -/
def Unreplaced (cfg : Config) (db : Db) : UpdateEvent → Prop
  | .call (.call (.consolidate p env)) =>
    Merges cfg env db p → (mergedGraph cfg db p).keys = []
  | .call (.insertSingleVertex v) => v < db.vertexIndex.size
  | .call (.insertVertexWithNeighbors _ _) => False
  | .deleteVertex v _ _ => v < db.vertexIndex.size →
    (db.vertexIndex.items v).vertexType = .giant → db.giantDb.readNeighborClone v = []
  | _ => True

/-! ## What the calls leave alone -/

/-- The pages, the giant store and the index items are the same. -/
structure SameStore (db db' : Db) : Prop where
  csrPool : db'.csrPool = db.csrPool
  giantDb : db'.giantDb = db.giantDb
  size : db'.vertexIndex.size = db.vertexIndex.size
  items : db'.vertexIndex.items = db.vertexIndex.items

variable {cfg : Config} {db db' : Db}

theorem SameStore.refl (db : Db) : SameStore db db := ⟨rfl, rfl, rfl, rfl⟩

theorem SameStore.trans {db'' : Db} (h : SameStore db db') (h' : SameStore db' db'') :
    SameStore db db'' :=
  ⟨h'.csrPool.trans h.csrPool, h'.giantDb.trans h.giantDb, h'.size.trans h.size,
    h'.items.trans h.items⟩

variable {src dst : VId} {time : Nat} {b : Bool}

theorem appendEdge_same {type : DeltaType} (h : appendEdge cfg type src dst time db = .ok () db') :
    SameStore db db' := by
  unfold appendEdge at h
  rw [get_bind] at h
  obtain ⟨⟨loc, b⟩, db1, happ, h⟩ := bind_eq_ok.1 h
  obtain ⟨pm, -, rfl⟩ := onPageMap_ok.1 happ
  cases h
  exact ⟨rfl, rfl, rfl, rfl⟩

theorem insertEdge_same (h : insertEdge cfg src dst time db = .ok b db') : SameStore db db' := by
  rcases insertEdge_cases h with ⟨-, -, happ⟩ | ⟨-, -, rfl⟩
  · exact appendEdge_same happ
  · exact .refl _

theorem deleteEdge_same (h : deleteEdge cfg src dst time db = .ok b db') : SameStore db db' := by
  rcases deleteEdge_cases h with ⟨-, -, happ⟩ | ⟨-, -, rfl⟩
  · exact appendEdge_same happ
  · exact .refl _

theorem deleteEdges_same {v : VId} {removed : List VId} {clock : Nat → Nat}
    (h : deleteEdges cfg v removed clock db = .ok () db') : SameStore db db' := by
  induction removed generalizing db clock with
  | nil =>
    obtain ⟨-, rfl⟩ := pure_eq_ok.1 h
    exact .refl db
  | cons d removed ih =>
    obtain ⟨b, db1, hone, h⟩ := bind_eq_ok.1 h
    obtain ⟨b', db2, htwo, hrest⟩ := bind_eq_ok.1 h
    exact (deleteEdge_same hone).trans ((deleteEdge_same htwo).trans (ih hrest))

/-- A consolidation that replaces no page. -/
theorem consolidatePages_same {env : SmoEnv} {p : PageNo} {exit : SmoExit}
    (hnot : Merges cfg env db p → (mergedGraph cfg db p).keys = [])
    (h : consolidatePages cfg env p db = .ok exit db') : SameStore db db' := by
  unfold consolidatePages at h
  rw [get_bind] at h
  split_ifs at h with hen hth
  · obtain ⟨-, rfl⟩ := pure_eq_ok.1 h
    exact .refl db
  · obtain ⟨-, rfl⟩ := pure_eq_ok.1 h
    exact .refl db
  · have hfetch : fetchDeltas p db = .ok (db.pageMap.pageRecs p)
        { db with pageMap := (db.pageMap.fetchDeltasWithMark p).2 } := by
      rw [← PageMap.fetchDeltasWithMark_fst]
      rfl
    obtain ⟨deltas, db1, hf, h⟩ := bind_eq_ok.1 h
    obtain ⟨rfl, rfl⟩ := EStateM.Result.ok.inj (hfetch.symm.trans hf)
    have hsame : SameStore db { db with pageMap := (db.pageMap.fetchDeltasWithMark p).2 } :=
      ⟨rfl, rfl, rfl, rfl⟩
    split_ifs at h with hnil
    · obtain ⟨-, rfl⟩ := pure_eq_ok.1 h
      exact hsame
    · have hkeys := hnot ⟨by simpa using hen, not_lt.1 hth, by simpa using hnil⟩
      have hnone : buildReplacement cfg env p (db.pageMap.pageRecs p)
          { db with pageMap := (db.pageMap.fetchDeltasWithMark p).2 } =
            .ok none { db with pageMap := (db.pageMap.fetchDeltasWithMark p).2 } := by
        unfold buildReplacement
        rw [get_bind]
        have hempty : (mergedGraph cfg db p).keys.isEmpty = true := by
          rw [hkeys]
          rfl
        exact congrFun (if_pos hempty) _
      obtain ⟨r, db2, hr, h⟩ := bind_eq_ok.1 h
      rw [hnone] at hr
      cases hr
      obtain ⟨-, rfl⟩ := pure_eq_ok.1 h
      exact hsame

/-! ## Pages up to degrees -/

/-- The entries of `page'` are those of `page`, with degrees that are not smaller. -/
structure SameEntries (page page' : CsrPage) : Prop where
  ids : page'.vertexSpan.map (fun e => (e.vertexId, e.isDeleted)) =
    page.vertexSpan.map fun e => (e.vertexId, e.isDeleted)
  degree : ∀ (i : Nat) (e e' : CsrVertex), page.vertexSpan[i]? = some e →
    page'.vertexSpan[i]? = some e' → e.degree ≤ e'.degree

theorem SameEntries.refl (page : CsrPage) : SameEntries page page := by
  refine ⟨rfl, fun i e e' he he' => ?_⟩
  rw [he] at he'
  exact (congrArg CsrVertex.degree (Option.some.inj he')).le

variable {i : Nat}

section

variable {page page' : CsrPage} (h : SameEntries page page')
include h

theorem SameEntries.getElem? {e' : CsrVertex} (he' : page'.vertexSpan[i]? = some e') :
    ∃ e, page.vertexSpan[i]? = some e ∧ e.vertexId = e'.vertexId ∧ e.isDeleted = e'.isDeleted ∧
      e.degree ≤ e'.degree := by
  have hids := congrArg (fun l => l[i]?) h.ids
  simp only [List.getElem?_map, he', Option.map_some] at hids
  obtain ⟨e, he, hpair⟩ := Option.map_eq_some_iff.1 hids.symm
  exact ⟨e, he, (Prod.ext_iff.1 hpair).1, (Prod.ext_iff.1 hpair).2, h.degree i e e' he he'⟩

theorem SameEntries.hasEntry {v : VId} (he : page.HasEntry v i) : page'.HasEntry v i := by
  obtain ⟨e, he, rfl, hdel⟩ := he
  have hids := congrArg (fun l => l[i]?) h.ids
  simp only [List.getElem?_map, he, Option.map_some] at hids
  obtain ⟨e', he', hpair⟩ := Option.map_eq_some_iff.1 hids
  exact ⟨e', he', (Prod.ext_iff.1 hpair).1, (Prod.ext_iff.1 hpair).2.trans hdel⟩

end

theorem SameEntries.trans {page page' page'' : CsrPage} (h : SameEntries page page')
    (h' : SameEntries page' page'') : SameEntries page page'' := by
  refine ⟨h'.ids.trans h.ids, fun i e e'' he he'' => ?_⟩
  obtain ⟨e', he', -, -, hle⟩ := h'.getElem? he''
  exact (h.degree i e e' he he').trans hle

/-- A slot write raises one degree. -/
theorem sameEntries_insertEdgeInSlot {page page' : CsrPage} {v d : VId} {status : InsertStatus}
    (h : page.insertEdgeInSlot cfg i v d = (status, page')) : SameEntries page page' := by
  by_cases hst : status = .inserted
  · subst hst
    obtain ⟨e, -, hw⟩ := insertEdgeInSlot_inserted h
    refine ⟨?_, fun j e1 e' he1 he' => ?_⟩
    · rw [hw.vertexSpan, List.map_set]
      obtain ⟨hlt, heq⟩ := List.getElem?_eq_some_iff.1 hw.entry
      refine List.ext_getElem? fun j => ?_
      rw [List.getElem?_set]
      split_ifs with hj hlen
      · subst hj
        rw [List.getElem?_map, hw.entry]
        rfl
      · subst hj
        exact absurd (by rwa [List.length_map]) hlen
      · rfl
    · by_cases hj : j = i
      · subst hj
        rw [hw.getElem?_self] at he'
        rw [hw.entry] at he1
        cases he1
        cases he'
        exact Nat.le_succ _
      · rw [hw.getElem?_ne hj, he1] at he'
        exact (congrArg CsrVertex.degree (Option.some.inj he')).le
  · rw [insertEdgeInSlot_kept h hst]
    exact .refl page

/-! ## Runs that replace no page -/

/-- The database is as `db0` was loaded, up to degrees, cached pages and deletion marks. -/
structure Settled (db0 db : Db) : Prop where
  disk : db.csrPool.disk = db0.csrPool.disk
  diskManager : db.csrPool.diskManager = db0.csrPool.diskManager
  retired : db.csrPool.retired = []
  frames : ∀ q f, db.csrPool.frames q = some f →
    f.dirty = false ∧ SameEntries (db0.csrPool.readPage q) f.page
  giantDb : db.giantDb = db0.giantDb
  size : db.vertexIndex.size = db0.vertexIndex.size
  location : ∀ v, db.location v = db0.location v
  vertexType : ∀ v, (db.vertexIndex.items v).vertexType = (db0.vertexIndex.items v).vertexType
  giants : ∀ v, v < db0.vertexIndex.size → (db0.vertexIndex.items v).vertexType = .giant →
    db0.giantDb.readNeighborClone v ≠ [] → (db.vertexIndex.items v).isDelete = false

variable {db0 : Db}

section

variable (h : Settled db0 db)
include h

theorem Settled.readPage (q : PageNo) : db.csrPool.readPage q = db0.csrPool.readPage q := by
  unfold CsrPool.readPage
  rw [h.diskManager, h.disk]

/-- A page that is seen is that of the file, up to degrees. -/
theorem Settled.page (q : PageNo) : SameEntries (db0.csrPool.readPage q) (db.csrPool.page q) := by
  unfold CsrPool.page
  cases hf : db.csrPool.frames q with
  | none =>
    rw [← h.readPage]
    exact .refl _
  | some f => exact (h.frames q f hf).2

theorem Settled.same (hs : SameStore db db') : Settled db0 db' := by
  refine ⟨hs.csrPool ▸ h.disk, hs.csrPool ▸ h.diskManager, hs.csrPool ▸ h.retired,
    hs.csrPool ▸ h.frames, hs.giantDb.trans h.giantDb, hs.size.trans h.size, fun v => ?_,
    hs.items ▸ h.vertexType, hs.items ▸ h.giants⟩
  rw [← h.location, Db.location, hs.items]
  rfl

/-- Other frames, each of them clean and with the entries of its page. -/
theorem Settled.of_frames {frames : PageNo → Option Frame}
    (hf : ∀ q f, frames q = some f → f.dirty = false ∧ SameEntries (db0.csrPool.readPage q) f.page) :
    Settled db0 { db with csrPool := { db.csrPool with frames := frames } } :=
  ⟨h.disk, h.diskManager, h.retired, hf, h.giantDb, h.size, h.location, h.vertexType, h.giants⟩

theorem Settled.set_frame {p : PageNo} {f : Option Frame}
    (hf : ∀ g, f = some g → g.dirty = false ∧ SameEntries (db0.csrPool.readPage p) g.page) :
    Settled db0 { db with
      csrPool := { db.csrPool with frames := update db.csrPool.frames p f } } := by
  refine h.of_frames fun q g hg => ?_
  by_cases hq : q = p
  · subst hq
    rw [update_self] at hg
    exact hf g hg
  · rw [update_of_ne hq] at hg
    exact h.frames q g hg

theorem Settled.load (p : PageNo) : Settled db0 { db with csrPool := db.csrPool.load p } := by
  unfold CsrPool.load
  split
  · exact h
  · refine h.set_frame fun g hg => ?_
    cases hg
    rw [h.readPage]
    exact ⟨rfl, .refl _⟩

theorem Settled.evict (p : PageNo) : Settled db0 { db with csrPool := db.csrPool.evict p } := by
  cases hf : db.csrPool.frames p with
  | none =>
    rw [show db.csrPool.evict p = db.csrPool by simp [CsrPool.evict, hf]]
    exact h
  | some f =>
    rw [CsrPool.evict_of_clean hf (h.frames p f hf).1]
    exact h.set_frame fun g hg => by cases hg

end

theorem Settled.flush (h : Settled db0 db) (p : PageNo) :
    Settled db0 { db with csrPool := db.csrPool.flush p } := by
  have hflush : db.csrPool.flush p = db.csrPool := by
    cases hf : db.csrPool.frames p with
    | none => simp [CsrPool.flush, hf]
    | some f => simp [CsrPool.flush, hf, (h.frames p f hf).1]
  rw [hflush]
  exact h

section

variable (h : Settled db0 db)
include h

theorem Settled.writeSlot {p : PageNo} {offset : Nat} {status : InsertStatus}
    (hw : writeSlot cfg p offset src dst db = .ok status db') : Settled db0 db' := by
  have hl := h.load p
  unfold BwGraph.writeSlot at hw
  dsimp only at hw
  cases hf : (db.csrPool.load p).frames p with
  | none =>
    rw [hf] at hw
    cases hw
    exact hl
  | some f =>
    rw [hf] at hw
    obtain ⟨hclean, hsame⟩ := hl.frames p f hf
    cases hins : f.page.insertEdgeInSlot cfg offset src dst with
    | mk st page =>
      simp only [hins] at hw
      cases hw
      refine hl.set_frame fun g hg => ?_
      cases hg
      exact ⟨hclean, hsame.trans (sameEntries_insertEdgeInSlot hins)⟩

/-- Other deletion marks; no giant vertex with neighbours gets one. -/
theorem Settled.set_isDelete {v : VId}
    (hb : b = true → (db.vertexIndex.items v).vertexType = .giant →
      db.giantDb.readNeighborClone v = []) :
    Settled db0 { db with vertexIndex := { db.vertexIndex with
      items := update db.vertexIndex.items v
        { db.vertexIndex.items v with isDelete := b } } } := by
  refine ⟨h.disk, h.diskManager, h.retired, h.frames, h.giantDb, h.size, fun w => ?_, fun w => ?_,
    fun w hw hg hne => ?_⟩
  · rw [← h.location]
    exact location_setDelete db v b w
  · rw [← h.vertexType]
    exact (VertexIndex.items_setDelete db.vertexIndex.items v b w).2
  · by_cases hwv : w = v
    · subst hwv
      simp only [update_self]
      cases b with
      | false => rfl
      | true =>
        have hnil := hb rfl ((h.vertexType w).trans hg)
        rw [h.giantDb] at hnil
        exact absurd hnil hne
    · simp only [update_of_ne hwv]
      exact h.giants w hw hg hne

theorem Settled.insertEdgeDirect (hd : insertEdgeDirect cfg src dst time db = .ok b db') :
    Settled db0 db' := by
  obtain ⟨status, db1, hw, ⟨-, hins⟩ | ⟨-, -, rfl⟩⟩ := insertEdgeDirect_cases hd
  · exact (h.writeSlot hw).same (insertEdge_same hins)
  · exact h.writeSlot hw

theorem Settled.deleteVertex {v : VId} {removeNeighbors : Bool} {clock : Nat → Nat}
    (hok : Unreplaced cfg db (.deleteVertex v removeNeighbors clock))
    (hd : deleteVertex cfg v removeNeighbors clock db = .ok b db') : Settled db0 db' := by
  unfold BwGraph.deleteVertex at hd
  rw [get_bind] at hd
  split_ifs at hd with hc
  · obtain ⟨-, rfl⟩ := pure_eq_ok.1 hd
    exact h
  · rw [not_or, not_le] at hc
    obtain ⟨⟨⟩, db1, hm, hd⟩ := bind_eq_ok.1 hd
    cases hm
    have h1 := h.set_isDelete (v := v) (b := true) fun _ => hok hc.1
    rw [get_bind] at hd
    split_ifs at hd
    · obtain ⟨⟨⟩, db2, he, hd⟩ := bind_eq_ok.1 hd
      obtain ⟨-, rfl⟩ := pure_eq_ok.1 hd
      exact h1.same (deleteEdges_same he)
    · obtain ⟨-, rfl⟩ := pure_eq_ok.1 hd
      exact h1

/-- A step that replaces no page keeps the database settled. -/
theorem Settled.step {e : UpdateEvent} (hok : Unreplaced cfg db e) (hstep : UpdateStep cfg db e db') :
    Settled db0 db' := by
  cases hstep with
  | insertEdgeDirect _ hd => exact h.insertEdgeDirect hd
  | deleteVertex hd => exact h.deleteVertex hok hd
  | call hcall =>
    cases hcall with
    | insertVertexWithNeighbors _ => exact absurd hok id
    | @insertSingleVertex v b _ hins =>
      unfold insertSingleVertex at hins
      dsimp only at hins
      split_ifs at hins with hlt hdel
      · cases hins
        exact h.set_isDelete fun hb => by cases hb
      · cases hins
        exact h
      · exact absurd hok hlt
    | @call e _ hseq =>
      cases hseq with
      | insertEdge hi => exact h.same (insertEdge_same hi)
      | deleteEdge hd => exact h.same (deleteEdge_same hd)
      | consolidate hc => exact h.same (consolidatePages_same hok hc)
      | load p => exact h.load p
      | evict p => exact h.evict p
      | flush p => exact h.flush p
      | recycle hr =>
        rw [h.retired] at hr
        cases hr

theorem Settled.steps {es : List UpdateEvent}
    (run : Steps (guarded (Unreplaced cfg) (UpdateStep cfg)) db es db') : Settled db0 db' :=
  run.inv (fun _ db => Settled db0 db) h fun _ _ _ _ hs hstep => hs.step hstep.1 hstep.2

end

/-- A database without cached and retired pages, all vertices of which exist. -/
theorem settled_refl (hframes : ∀ q, db.csrPool.frames q = none) (hret : db.csrPool.retired = [])
    (hlive : ∀ v, v < db.vertexIndex.size → (db.vertexIndex.items v).isDelete = false) :
    Settled db db := by
  refine ⟨rfl, rfl, hret, fun q f hf => ?_, rfl, rfl, fun _ => rfl, fun _ => rfl,
    fun v hv _ _ => hlive v hv⟩
  rw [hframes] at hf
  cases hf

end BwGraph
