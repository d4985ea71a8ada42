import BwGraph.Db.DeleteVertex
import BwGraph.Db.Housed
import BwGraph.Db.Virtual
import BwGraph.Buf.PageMapRun

/-
  What a vertex reads as that `insert_single_vertex` or `insert_vertex_with_neighbors` returned
  true for, right after the call and in every later state of a sound run. The new vertex borrows
  the first entry of a page and reads the list of that entry besides its own records, so the calls
  do what they are meant to exactly when this list adds nothing: it is empty (`Vacant`), or holds
  given neighbours only. A deleted vertex comes back as it was left.
-/

namespace BwGraph

open Function Nat VertexIndex Lww

variable {cfg : Config} {bare : Set VId} {logs : VId → List (Lww.Op VId)} {db db' : Db} {v : VId}

/-! ## `insert_single_vertex` -/

/-- The vertex exists, is not deleted and has no neighbours. -/
structure InsertedEmpty (cfg : Config) (db : Db) (v : VId) : Prop where
  lt : v < db.vertexIndex.size
  live : (db.vertexIndex.items v).isDelete = false
  reads : Reads cfg db v ∅

/-- A deleted vertex was left without neighbours; a new one is the next one, and the first entry
of page 0 lists nothing. -/
def Vacant (cfg : Config) (db : Db) (v : VId) : Prop :=
  if v < db.vertexIndex.size then Reads cfg db v ∅
  else v = db.vertexIndex.size ∧ (db.csrPool.page 0).readNeighbors cfg 0 = []

/-- Two databases that agree on the base list and the log of a vertex read it alike. -/
theorem reads_congr {logs' : VId → List (Lww.Op VId)} (hl : Logged logs db) (hl' : Logged logs' db')
    (hbase : db'.base cfg v = db.base cfg v) (hlog : logs' v = logs v) {s : Set VId} :
    Reads cfg db' v s ↔ Reads cfg db v s := by
  rw [(hl.log v).reads_iff, (hl'.log v).reads_iff, hbase, hlog]

theorem insertedEmpty_iff (hl : Logged logs db) (hrun : insertSingleVertex v db = .ok true db') :
    InsertedEmpty cfg db' v ↔ Vacant cfg db v := by
  unfold insertSingleVertex at hrun
  dsimp only at hrun
  unfold Vacant
  split_ifs at hrun with hlt hdel
  · -- the mark of a deleted vertex is cleared
    cases hrun
    rw [if_pos hlt]
    have hl' : Logged logs ({ db with vertexIndex := { db.vertexIndex with
        items := update db.vertexIndex.items v
          { db.vertexIndex.items v with isDelete := false } } } : Db) := hl.same rfl rfl
    have hreads : Reads cfg (_ : Db) v ∅ ↔ Reads cfg db v ∅ :=
      reads_congr hl hl' (base_congr (location_setDelete db v false v)
        (items_setDelete db.vertexIndex.items v false v).2 rfl fun _ => rfl) rfl
    exact ⟨fun h => hreads.1 h.reads, fun h => ⟨hlt, by simp, hreads.2 h⟩⟩
  · cases hrun
  · cases hrun
    rw [if_neg hlt]
    have hb := borrows_emplaceBack db 0
    constructor
    · intro h
      have hv : v = db.vertexIndex.size :=
        Nat.le_antisymm (le_of_lt_succ h.lt) (Nat.not_lt.1 hlt)
      subst hv
      refine ⟨rfl, ?_⟩
      have hset := ((hb.logged hl).log _).reads_iff.1 h.reads
      rw [update_self, hb.base_new, lww_nil] at hset
      exact List.eq_nil_iff_forall_not_mem.2 fun d hd => Set.eq_empty_iff_forall_notMem.1 hset d hd
    · rintro ⟨rfl, hnil⟩
      refine ⟨lt_succ_self _, hb.undeleted, ((hb.logged hl).log _).reads_iff.2 ?_⟩
      rw [update_self, hb.base_new, hnil, lww_nil]
      simp

/-- A vertex that reads as empty shows nothing in any other way. -/
theorem Housed.showsAs_empty (h : Housed bare logs db) (hr : Reads cfg db v ∅) :
    ShowsAs cfg bare (logs v) db v ∅ := by
  have hset := (h.logged.log v).reads_iff.1 hr
  refine ⟨hset, fun _ _ => Set.subset_eq_empty ?_ hset⟩
  exact lww_mono (Set.empty_subset _) _

/-- The vertex of a call that returned true is empty exactly when it was vacant; it then stays empty
in sound runs as long as no edge is inserted from it. -/
theorem insertSingleVertex_empty_iff {paged : Set VId} {s0 s : CachedDb} (h0 : Loaded cfg paged s0.db)
    {es : List CachedEvent} (run : Steps (CachedStep cfg) s0 es s)
    (hrun : insertSingleVertex v s.db = .ok true db') :
    (InsertedEmpty cfg db' v ↔ Vacant cfg s.db v) ∧
      (Vacant cfg s.db v → SoundSteps cfg (unpaged paged s0.db) s0 es s →
        HousedStep cfg (unpaged paged s0.db) s (.call (.insertSingleVertex v)) →
        ∀ (es' : List CachedEvent) (s' : CachedDb),
        SoundSteps cfg (unpaged paged s0.db) ⟨db', s.neighborCache⟩ es' s' →
        (∀ e ∈ es', ∀ d, ¬ e.Writes v (.insert d)) →
        v < s'.db.vertexIndex.size ∧ Reads cfg s'.db v ∅) := by
  obtain ⟨logs, hl⟩ := CachedDb.logged_steps h0 run
  have hiff : InsertedEmpty cfg db' v ↔ Vacant cfg s.db v := insertedEmpty_iff hl hrun
  refine ⟨hiff, fun hv hsound hstep es' s' run' hno => ?_⟩
  have hempty := hiff.2 hv
  obtain ⟨logs1, h1⟩ := h0.housed.steps hsound
  obtain ⟨logs2, h2⟩ : ∃ logs2, Carries cfg (unpaged paged s0.db) (fun _ _ => False) logs1 s.db
      logs2 db' := h1.housed.insertSingleVertex hstep hrun
  obtain ⟨logs3, h3⟩ := Housed.steps (s := ⟨db', s.neighborCache⟩) h2.housed run'
  refine ⟨Nat.lt_of_lt_of_le hempty.lt h3.size, ?_⟩
  refine (h3.shows v hempty.lt ∅ (h2.housed.showsAs_empty hempty.reads) ?_).reads h3.housed.logged
  rintro o ⟨e, he, hw⟩
  cases o with
  | insert d => exact absurd hw (hno e he d)
  | erase d => exact Lww.apply_erase_eq_self.2 (Set.notMem_empty d)

/-- Vertex 2 of the pair graph deleted and inserted again, then the edge (0, 2) written, then page
0 consolidated. -/
def pairRevived : Db := (insertSingleVertex 2 (CachedDb.afterDelete CachedDb.pairOpened 2).db).state

def revivedWritten : Db := (insertEdge giantConfig 0 2 0 pairRevived).state

def revivedMerged : Db := (consolidatePages giantConfig .smooth 0 revivedWritten).state

theorem revivedWritten_sound : MergesSoundly giantConfig
    (unpaged (CachedDb.pairGraph.pagedVertices giantConfig) CachedDb.pairOpened.db) revivedWritten 0 :=
  mergesSoundly_of_page (by decide +kernel) (by decide +kernel) (by decide +kernel) (.inl rfl)

theorem mergePairStep {s : CachedDb}
    (h : consolidatePages giantConfig .smooth 0 s.db = .ok .published db') :
    CachedStep giantConfig s (.call (.call (.consolidate 0 .smooth)))
      ⟨db', s.cacheAfter giantConfig (.call (.consolidate 0 .smooth))⟩ :=
  .call (e := .call (.consolidate 0 .smooth)) (.call (.consolidate h))

theorem revived_run (c : VId → Option (List VId)) : ∃ c', SoundSteps giantConfig
    (unpaged (CachedDb.pairGraph.pagedVertices giantConfig) CachedDb.pairOpened.db) ⟨pairRevived, c⟩
    ([] ++ [.call (.call (.insertEdge 0 2 0))] ++ [.call (.call (.consolidate 0 .smooth))])
    ⟨revivedMerged, c'⟩ := by
  have hwrite : insertEdge giantConfig 0 2 0 pairRevived = .ok true revivedWritten :=
    EStateM.Result.eq_ok_of_value? (by decide +kernel)
  have hmerge : consolidatePages giantConfig .smooth 0 revivedWritten = .ok .published revivedMerged :=
    EStateM.Result.eq_ok_of_value? (by decide +kernel)
  have hstep : CachedStep giantConfig ⟨pairRevived, c⟩ (.call (.call (.insertEdge 0 2 0)))
      ⟨revivedWritten, c⟩ := .call (e := .call (.insertEdge 0 2 0)) (.call (.insertEdge hwrite))
  exact ⟨_, .snoc (.snoc .nil ⟨trivial, hstep⟩) ⟨fun _ _ => revivedWritten_sound, mergePairStep hmerge⟩⟩

/-- Vertex 2 had no neighbours when it was deleted. -/
theorem insertSingleVertex_empty_iff_pair :
    InsertedEmpty giantConfig pairRevived 2 ∧ Reads giantConfig revivedMerged 2 ∅ := by
  have hdel : CachedDb.pairOpened.deleteVertex giantConfig 2 true (fun _ => 0) =
      .ok true (CachedDb.afterDelete CachedDb.pairOpened 2) :=
    EStateM.Result.eq_ok_of_value? (by decide +kernel)
  have hins : insertSingleVertex 2 (CachedDb.afterDelete CachedDb.pairOpened 2).db =
      .ok true pairRevived := EStateM.Result.eq_ok_of_value? (by decide +kernel)
  have hlt : 2 < (CachedDb.afterDelete CachedDb.pairOpened 2).db.vertexIndex.size := by
    decide +kernel
  have hread : BwGraph.readNeighborClone giantConfig 0
      (CachedDb.afterDelete CachedDb.pairOpened 2).db 2 = some [] := by decide +kernel
  have hvacant : Vacant giantConfig (CachedDb.afterDelete CachedDb.pairOpened 2).db 2 := by
    unfold Vacant
    rw [if_pos hlt]
    exact ⟨[], returns_of_fuel hread, by simp⟩
  obtain ⟨c', run'⟩ := revived_run (CachedDb.afterDelete CachedDb.pairOpened 2).neighborCache
  obtain ⟨hiff, hlater⟩ := insertSingleVertex_empty_iff (s := CachedDb.afterDelete CachedDb.pairOpened 2)
    CachedDb.pairOpened_loaded (.snoc .nil (.deleteVertex hdel)) hins
  have hlast := (hlater hvacant (.snoc .nil ⟨trivial, .deleteVertex hdel⟩)
    (fun hle => absurd hlt (Nat.not_lt.2 hle)) _ _ run' fun e he d hw => by
      rcases List.mem_pair.1 he with rfl | rfl
      · exact absurd hw.1 (by decide)
      · exact hw).2
  dsimp only at hlast
  exact ⟨hiff.2 hvacant, hlast⟩

/-- Vertex 3 is new, and lists the neighbour of vertex 0. -/
theorem insertSingleVertex_borrows :
    ¬ ∀ (cfg : Config) (paged : Set VId) (s0 : CachedDb), Loaded cfg paged s0.db →
      ∀ (es : List CachedEvent) (s : CachedDb), Steps (CachedStep cfg) s0 es s →
      ∀ (v : VId) (db' : Db), insertSingleVertex v s.db = .ok true db' →
        InsertedEmpty cfg db' v := by
  intro h
  have hins : insertSingleVertex 3 CachedDb.pairOpened.db =
      .ok true (insertSingleVertex 3 CachedDb.pairOpened.db).state :=
    EStateM.Result.eq_ok_of_value? (by decide +kernel)
  have hread : BwGraph.readNeighborClone giantConfig 0
      (insertSingleVertex 3 CachedDb.pairOpened.db).state 3 = some [1] := by decide +kernel
  obtain ⟨r, hr, hset⟩ :=
    (h giantConfig _ CachedDb.pairOpened CachedDb.pairOpened_loaded [] _ .nil 3 _ hins).reads
  rw [hr.unique (returns_of_fuel hread)] at hset
  exact absurd hset (by simp)

/-! ## `insert_vertex_with_neighbors` -/

/-- The new vertex has a new id, exists, and has the given neighbours; the others keep theirs. -/
structure InsertedWith (cfg : Config) (db db' : Db) (v : VId) (neighbors : List VId) : Prop where
  fresh : db.vertexIndex.size ≤ v
  lt : v < db'.vertexIndex.size
  reads : Reads cfg db' v {d | d ∈ neighbors}
  others : ∀ w < db.vertexIndex.size, ∀ s, Reads cfg db w s → Reads cfg db' w s

/-- The list that a new vertex with these neighbours borrows. -/
def borrowedList (cfg : Config) (db : Db) (neighbors : List VId) : List VId :=
  (db.csrPool.page (bestPage (db.vertexIndex.emplaceBack 0 0) neighbors)).readNeighbors cfg 0

/-- The first entry of the page lists given neighbours only. -/
def BorrowsWithin (cfg : Config) (db : Db) (neighbors : List VId) : Prop :=
  ∀ d ∈ borrowedList cfg db neighbors, d ∈ neighbors

/-! ### The call returns -/

section

variable (hfit : PageMap.FitsRecord cfg) (h : Logged logs db)
include hfit h

theorem insertEdge_returns (src dst : VId) (time : Nat) :
    ∃ b db', insertEdge cfg src dst time db = .ok b db' := by
  unfold insertEdge
  rw [EStateM.get_bind]
  split_ifs
  · exact ⟨false, db, rfl⟩
  · obtain ⟨loc, pm, hins⟩ := PageMap.insertDeltaAndGetLoc_returns hfit h.pageMap (db.location src).1
      (newRecord db .insert src dst time)
    have happ := appendEdge_of_insert (h.noForwarder _) hins
    exact ⟨true, _, EStateM.bind_eq_ok.2 ⟨(), _, happ, rfl⟩⟩

theorem insertEdges_returns (src : VId) (neighbors : List VId) (clock : Nat → Nat) :
    ∃ db', insertEdges cfg src neighbors clock db = .ok () db' := by
  induction neighbors generalizing db logs clock with
  | nil => exact ⟨db, rfl⟩
  | cons n ns ih =>
    obtain ⟨b, db1, hone⟩ := insertEdge_returns hfit h src n (clock 0)
    have hnext : ∃ logs1, Logged logs1 db1 := by
      rcases h.insertEdge hone with ⟨-, -, h1⟩ | ⟨-, -, rfl⟩
      · exact ⟨_, h1⟩
      · exact ⟨logs, h⟩
    obtain ⟨logs1, h1⟩ := hnext
    obtain ⟨db', hrest⟩ := ih h1 fun i => clock (i + 1)
    exact ⟨db', EStateM.bind_eq_ok.2 ⟨b, db1, hone, hrest⟩⟩

theorem insertVertexWithNeighbors_returns (neighbors : List VId) (clock : Nat → Nat) :
    ∃ v db', insertVertexWithNeighbors cfg neighbors clock db = .ok v db' := by
  set q := bestPage (db.vertexIndex.emplaceBack 0 0) neighbors
  obtain ⟨db1, hupd⟩ : ∃ db1, updateVertexLoc db.vertexIndex.size q 0
      { db with vertexIndex := db.vertexIndex.emplaceBack 0 0 } = .ok () db1 := by
    simp [updateVertexLoc, prepareVertexVersion, publishPreparedVersion]
  have hb := (borrows_emplaceBack db 0).updateVertexLoc hupd
  obtain ⟨db', hedges⟩ := insertEdges_returns hfit (hb.logged h) db.vertexIndex.size neighbors clock
  refine ⟨db.vertexIndex.size, db', ?_⟩
  unfold insertVertexWithNeighbors
  refine EStateM.bind_eq_ok.2 ⟨db, db, rfl, EStateM.bind_eq_ok.2 ⟨(), _, rfl, ?_⟩⟩
  exact EStateM.bind_eq_ok.2 ⟨(), db1, hupd, EStateM.bind_eq_ok.2 ⟨(), db', hedges, rfl⟩⟩

end

/-! ### What it leaves -/

variable {clock : Nat → Nat}

section

variable (h : Logged logs db) {neighbors : List VId}
  (hlive : ∀ n ∈ neighbors, n < db.vertexIndex.size ∧ (db.vertexIndex.items n).isDelete = false)
  (hrun : insertVertexWithNeighbors cfg neighbors clock db = .ok v db')
include h hlive hrun

/-- The log of the new vertex holds an insertion of every neighbour. -/
theorem insertVertexWithNeighbors_logged :
    v = db.vertexIndex.size ∧ (∃ db1,
      Borrows db db1 (bestPage (db.vertexIndex.emplaceBack 0 0) neighbors) ∧ SameStore db1 db') ∧
      Logged (update logs v (neighbors.map .insert)) db' := by
  obtain ⟨rfl, db1, hupd, hedges⟩ := insertVertexWithNeighbors_ok hrun
  have hb := (borrows_emplaceBack db 0).updateVertexLoc hupd
  obtain ⟨hsame, hlog⟩ := (hb.logged h).insertEdges hedges
  refine ⟨rfl, ⟨db1, hb, hsame⟩, ?_⟩
  have hall : neighbors.filter (fun n => decide (db1.Accepts db.vertexIndex.size n)) = neighbors := by
    refine List.filter_eq_self.2 fun n hn => decide_eq_true ?_
    obtain ⟨hlt, hdel⟩ := hlive n hn
    refine ⟨hb.size ▸ lt_succ_self _, hb.size ▸ lt_succ_of_lt hlt, hb.undeleted, ?_⟩
    rw [hb.items n (Nat.ne_of_lt hlt)]
    exact hdel
  rw [hall, update_self, List.nil_append, update_idem] at hlog
  exact hlog

theorem insertedWith_iff :
    InsertedWith cfg db db' v neighbors ↔ BorrowsWithin cfg db neighbors := by
  obtain ⟨rfl, ⟨db1, hb, hsame⟩, hlog⟩ := insertVertexWithNeighbors_logged h hlive hrun
  have hset : Reads cfg db' db.vertexIndex.size {d | d ∈ neighbors} ↔
      BorrowsWithin cfg db neighbors := by
    rw [(hlog.log _).reads_iff, update_self, hsame.base, hb.base_new, lww_map_insert,
      Set.union_eq_right]
    exact Iff.rfl
  refine ⟨fun hi => hset.1 hi.reads, fun hw => ⟨Nat.le_refl _, ?_, hset.2 hw, fun w hlt s hs => ?_⟩⟩
  · rw [hsame.size, hb.size]
    exact lt_succ_self _
  · have hne := Nat.ne_of_lt hlt
    exact (reads_congr h hlog ((hsame.base w).trans (hb.base hne)) (update_of_ne hne ..)).2 hs

/-- The new vertex shows the neighbours in either way. -/
theorem showsAs_neighbors (hw : BorrowsWithin cfg db neighbors) (hl : Logged logs' db') :
    ShowsAs cfg bare (logs' v) db' v {d | d ∈ neighbors} := by
  have hreads := ((insertedWith_iff h hlive hrun).2 hw).reads
  obtain ⟨-, -, hlog⟩ := insertVertexWithNeighbors_logged h hlive hrun
  have hops : logs' v = neighbors.map .insert := by
    rw [(hl.log v).unique (hlog.log v), update_self]
  refine ⟨(hl.log v).reads_iff.1 hreads, fun _ _ => ?_⟩
  rw [hops, lww_map_insert, Set.empty_union]

end

/-- `insert_vertex_with_neighbors` returns a new vertex, which has exactly the given neighbours if
and only if the list it borrows holds no others; it then keeps them in sound runs, whatever is
consolidated, except for what is inserted or deleted from it. -/
theorem insertVertexWithNeighbors_iff {paged : Set VId} {s0 s : CachedDb}
    (h0 : Loaded cfg paged s0.db) {es : List CachedEvent} (run : Steps (CachedStep cfg) s0 es s)
    {neighbors : List VId}
    (hlive : ∀ n ∈ neighbors,
      n < s.db.vertexIndex.size ∧ (s.db.vertexIndex.items n).isDelete = false)
    (clock : Nat → Nat) :
    (PageMap.FitsRecord cfg →
      ∃ v db', insertVertexWithNeighbors cfg neighbors clock s.db = .ok v db') ∧
    ∀ v db', insertVertexWithNeighbors cfg neighbors clock s.db = .ok v db' →
      (InsertedWith cfg s.db db' v neighbors ↔ BorrowsWithin cfg s.db neighbors) ∧
      (BorrowsWithin cfg s.db neighbors → SoundSteps cfg (unpaged paged s0.db) s0 es s →
        HousedStep cfg (unpaged paged s0.db) s (.call (.insertVertexWithNeighbors neighbors clock)) →
        ∀ (es' : List CachedEvent) (s' : CachedDb),
        SoundSteps cfg (unpaged paged s0.db) ⟨db', s.neighborCache⟩ es' s' →
        (∀ e ∈ es', ∀ o, e.Writes v o → o.apply {d | d ∈ neighbors} = {d | d ∈ neighbors}) →
        v < s'.db.vertexIndex.size ∧ Reads cfg s'.db v {d | d ∈ neighbors}) := by
  obtain ⟨logs, hl⟩ := CachedDb.logged_steps h0 run
  refine ⟨fun hfit => insertVertexWithNeighbors_returns hfit hl neighbors clock,
    fun v db' hrun => ?_⟩
  have hiff := insertedWith_iff hl hlive hrun
  refine ⟨hiff, fun hw hsound hstep es' s' run' hkeep => ?_⟩
  have hlt := (hiff.2 hw).lt
  obtain ⟨logs1, h1⟩ := h0.housed.steps hsound
  obtain ⟨logs2, h2⟩ : ∃ logs2, Carries cfg (unpaged paged s0.db) (fun _ _ => False) logs1 s.db
      logs2 db' := h1.housed.insertVertexWithNeighbors hstep hrun
  obtain ⟨logs3, h3⟩ := Housed.steps (s := ⟨db', s.neighborCache⟩) h2.housed run'
  refine ⟨Nat.lt_of_lt_of_le hlt h3.size, ?_⟩
  have hshows : ShowsAs cfg (unpaged paged s0.db) (logs2 v) db' v {d | d ∈ neighbors} :=
    showsAs_neighbors hl hlive hrun hw h2.housed.logged
  refine (h3.shows v hlt _ hshows ?_).reads h3.housed.logged
  rintro o ⟨e, he, hw⟩
  exact hkeep e he o hw

/-- Vertex 3 inserted into the pair graph with the neighbour 1, then page 0 consolidated. -/
def pairJoined : Db :=
  (insertVertexWithNeighbors giantConfig [1] (fun _ => 0) CachedDb.pairOpened.db).state

def joinedMerged : Db := (consolidatePages giantConfig .smooth 0 pairJoined).state

theorem pairJoined_sound : MergesSoundly giantConfig
    (unpaged (CachedDb.pairGraph.pagedVertices giantConfig) CachedDb.pairOpened.db) pairJoined 0 :=
  mergesSoundly_of_page (by decide +kernel) (by decide +kernel) (by decide +kernel) (.inl rfl)

/-- Vertex 0, whose list vertex 3 borrows, has the neighbour 1, too. -/
theorem insertVertexWithNeighbors_iff_pair :
    (∃ v db', insertVertexWithNeighbors giantConfig [1] (fun _ => 0) CachedDb.pairOpened.db =
      .ok v db') ∧ InsertedWith giantConfig CachedDb.pairOpened.db pairJoined 3 [1] ∧
      Reads giantConfig joinedMerged 3 {d | d ∈ [1]} := by
  have hlive : ∀ n ∈ [1], n < CachedDb.pairOpened.db.vertexIndex.size ∧
      (CachedDb.pairOpened.db.vertexIndex.items n).isDelete = false := by decide +kernel
  obtain ⟨hreturns, hleaves⟩ := insertVertexWithNeighbors_iff CachedDb.pairOpened_loaded .nil hlive
    fun _ => 0
  have hfit : PageMap.FitsRecord giantConfig := by
    unfold PageMap.FitsRecord
    decide
  have hjoin : insertVertexWithNeighbors giantConfig [1] (fun _ => 0) CachedDb.pairOpened.db =
      .ok 3 pairJoined := EStateM.Result.eq_ok_of_value? (by decide +kernel)
  obtain ⟨hiff, hlater⟩ := hleaves 3 pairJoined hjoin
  have hwithin : BorrowsWithin giantConfig CachedDb.pairOpened.db [1] := by
    unfold BorrowsWithin
    decide +kernel
  have huse : CachedDb.pairOpened.db.csrPool.InUse
      (bestPage (CachedDb.pairOpened.db.vertexIndex.emplaceBack 0 0) [1]) := by decide +kernel
  have hmerge : consolidatePages giantConfig .smooth 0 pairJoined = .ok .published joinedMerged :=
    EStateM.Result.eq_ok_of_value? (by decide +kernel)
  have run' : SoundSteps giantConfig
      (unpaged (CachedDb.pairGraph.pagedVertices giantConfig) CachedDb.pairOpened.db)
      ⟨pairJoined, CachedDb.pairOpened.neighborCache⟩
      ([] ++ [.call (.call (.consolidate 0 .smooth))]) _ :=
    .snoc .nil ⟨fun _ _ => pairJoined_sound, mergePairStep hmerge⟩
  have hlast := (hlater hwithin .nil huse.not_unused _ _ run' fun e he o hw => by
    obtain rfl := List.mem_singleton.1 he
    exact absurd hw id).2
  dsimp only at hlast
  exact ⟨hreturns hfit, hiff.2 hwithin, hlast⟩

/-- With the neighbour 2 alone, vertex 3 lists the neighbour of vertex 0 as well. -/
theorem insertVertexWithNeighbors_borrows :
    ¬ ∀ (cfg : Config) (paged : Set VId) (s0 : CachedDb), Loaded cfg paged s0.db →
      ∀ (es : List CachedEvent) (s : CachedDb), Steps (CachedStep cfg) s0 es s →
      ∀ neighbors : List VId, (∀ n ∈ neighbors,
        n < s.db.vertexIndex.size ∧ (s.db.vertexIndex.items n).isDelete = false) →
      ∀ (clock : Nat → Nat) (v : VId) (db' : Db),
        insertVertexWithNeighbors cfg neighbors clock s.db = .ok v db' →
        InsertedWith cfg s.db db' v neighbors := by
  intro h
  have hjoin : insertVertexWithNeighbors giantConfig [2] (fun _ => 0) CachedDb.pairOpened.db =
      .ok 3 (insertVertexWithNeighbors giantConfig [2] (fun _ => 0) CachedDb.pairOpened.db).state :=
    EStateM.Result.eq_ok_of_value? (by decide +kernel)
  have hread : BwGraph.readNeighborClone giantConfig 1 (insertVertexWithNeighbors giantConfig [2]
      (fun _ => 0) CachedDb.pairOpened.db).state 3 = some [1, 2] := by decide +kernel
  obtain ⟨r, hr, hset⟩ := (h giantConfig _ CachedDb.pairOpened CachedDb.pairOpened_loaded [] _ .nil
    [2] (by decide +kernel) _ 3 _ hjoin).reads
  rw [hr.unique (returns_of_fuel hread)] at hset
  have hmem : (1 : VId) ∈ {d | d ∈ [2]} := hset ▸ (by decide : (1 : VId) ∈ [1, 2])
  exact absurd hmem (by decide)

end BwGraph
