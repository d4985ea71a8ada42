import BwGraph.Db.Refinement

/-
  Consolidations that leave after their first drain without publishing: by an exception, or by a
  normal return because nothing was pending or the merged graph is empty. None of the ways out puts
  the drained records back, so the store is as before exactly when nothing was drained
  (`consolidatePages_unpublished`). Otherwise the records are still read through the vertices'
  own chains, until the next consolidation of the page drops these.
-/

namespace BwGraph

open PageMap

variable {cfg : Config} {paged : Set VId} {env : SmoEnv} {p : PageNo} {db db' db0 : Db}

/-! ## What every way out keeps -/

/-- A page stays drained while the replacement is published. -/
theorem keeps_finalizeVertices (giants : List VId) (f : Nat) (locs : Locations) (vs : List VId) :
    (finalizeVertices giants f locs vs).Keeps fun db => db.pageMap.chain p = [] := by
  induction vs with
  | nil => exact .pure _
  | cons v vs ih =>
    unfold finalizeVertices
    split
    · exact ih
    · refine .bind (fun db h => ?_) fun _ => ih
      unfold finalizeVertex
      cases (db.pageMap.forwarders f).reroutedTail v
      all_goals
        dsimp only
        generalize VertexIndex.publishPreparedVersion _ v _ = o
        cases o <;> exact h

theorem pageRecs_of_chain {pm : PageMap} (h : pm.chain p = []) : pm.pageRecs p = [] := by
  rw [pageRecs_eq, h]
  rfl

theorem chain_fetchDeltasWithMark (pm : PageMap) (p : PageNo) :
    (pm.fetchDeltasWithMark p).2.chain p = [] := by
  unfold fetchDeltasWithMark
  cases hi : pm.inner p with
  | none => simp [chain, getOrCreateEntry, hi]
  | some e => simp [chain, getOrCreateEntry]

/-- The drain of a page without records. -/
theorem fetchDeltas_of_nil (h : db.pageMap.pageRecs p = []) :
    fetchDeltas p db =
      .ok [] { db with pageMap := (db.pageMap.fetchDeltasWithMark p).2 } := by
  show EStateM.Result.ok (db.pageMap.fetchDeltasWithMark p).1 _ = _
  have hnil : (db.pageMap.fetchDeltasWithMark p).1 = [] :=
    (fetchDeltasWithMark_fst _ _).trans h
  rw [hnil]
  rfl

/-- The page stays drained on every way out of the publication. -/
theorem keeps_publishReplacement (r : Replacement) :
    (publishReplacement cfg env p r).Keeps fun db => db.pageMap.chain p = [] := by
  refine .bind (fun db h => ?_) fun f db h => ?_
  · exact (((sameChains_makeForwarder _ _).trans
      (sameChains_installForwarderFor _ _ _)).chain p).trans h
  · show (EStateM.bind (fetchDeltas p) _ db).state.pageMap.chain p = []
    simp only [EStateM.bind, fetchDeltas_of_nil (pageRecs_of_chain h)]
    -- a drained page has no strays, so the loop over them does nothing
    refine EStateM.Keeps.bind (P := fun db : Db => db.pageMap.chain p = []) (.pure ())
      (fun _ => .bind (keeps_finalizeVertices _ _ _ _) fun _ db h => ?_) _
      (chain_fetchDeltasWithMark _ _)
    exact ((sameChains_detachForwarderFor _ _).chain p).trans h

/-- A call that gets past its threshold leaves the page drained, whatever happens then. -/
theorem consolidatePages_drains (cfg : Config) (env : SmoEnv) (p : PageNo) (db : Db) :
    (consolidatePages cfg env p db).value? = some .disabled ∨
      (consolidatePages cfg env p db).value? = some .belowThreshold ∨
      (consolidatePages cfg env p db).state.pageMap.chain p = [] := by
  unfold consolidatePages
  rw [EStateM.get_bind]
  split_ifs
  · exact .inl rfl
  · exact .inr (.inl rfl)
  · refine .inr (.inr (EStateM.Keeps.after (P := fun db : Db => db.pageMap.chain p = []) ?_ ?_))
    · exact chain_fetchDeltasWithMark _ _
    · intro deltas
      split_ifs
      · exact .pure _
      · refine .bind (keeps_buildReplacement (P := fun pm _ => pm.chain p = []) p deltas) fun r => ?_
        cases r with
        | none => exact .pure _
        | some r => exact .bind (keeps_publishReplacement r) fun _ => .pure _

/-! ## The store after such a call -/

/-- The call left after its first drain without publishing. -/
def LeavesUnpublished (cfg : Config) (env : SmoEnv) (p : PageNo) (db db' : Db) : Prop :=
  (∃ e, consolidatePages cfg env p db = .error e db') ∨
    ∃ exit, consolidatePages cfg env p db = .ok exit db' ∧ (exit = .noDeltas ∨ exit = .emptyGraph)

/-- The store is as it was: the records of the page are pending again, no forwarder redirects its
writers, and the sets `nbrs` are read, now and after every further run. -/
structure StoreKept (cfg : Config) (paged : Set VId) (nbrs : VId → Set VId) (p : PageNo)
    (db db' : Db) : Prop where
  recs : db'.pageMap.pageRecs p = db.pageMap.pageRecs p
  forwarder : db'.pageMap.acquireForwarderFor p = none
  reads : ∀ (es : List DbEvent) (db'' : Db),
    Steps (guarded (MergeStep cfg paged) (SeqStep cfg)) db' es db'' →
    ∀ v, v < db.vertexIndex.size → Reads cfg db'' v (nbrsAfter nbrs es v)

theorem LeavesUnpublished.drained (h : LeavesUnpublished cfg env p db db') :
    db'.pageMap.pageRecs p = [] := by
  refine pageRecs_of_chain ?_
  rcases h with ⟨e, h⟩ | ⟨exit, h, rfl | rfl⟩ <;>
    simpa [h, EStateM.Result.value?, EStateM.Result.state] using
      consolidatePages_drains cfg env p db

/-- With nothing to drain the call only looks at the page. -/
theorem LeavesUnpublished.drainOnly (h : LeavesUnpublished cfg env p db db')
    (hpm : db.pageMap.Ok) (hnil : db.pageMap.pageRecs p = []) : DrainOnly p db db' := by
  have hfetch := fetchDeltas_of_nil hnil
  have hout : consolidatePages cfg env p db = .ok .disabled db ∨
      consolidatePages cfg env p db = .ok .belowThreshold db ∨
      consolidatePages cfg env p db =
        .ok .noDeltas { db with pageMap := (db.pageMap.fetchDeltasWithMark p).2 } := by
    unfold consolidatePages
    rw [EStateM.get_bind]
    split_ifs
    · exact .inl rfl
    · exact .inr (.inl rfl)
    · refine .inr (.inr (EStateM.bind_eq_ok.2 ⟨_, _, hfetch, rfl⟩))
  have hdb' : db' = { db with pageMap := (db.pageMap.fetchDeltasWithMark p).2 } := by
    rcases hout with ho | ho | ho <;> rcases h with ⟨e, h⟩ | ⟨exit, h, rfl | rfl⟩ <;>
      rw [ho] at h <;> cases h
    rfl
  rw [hdb']
  exact (fetchDeltas_ok hpm hfetch).2

/-- In every state of a run, a call that leaves without publishing keeps the store exactly when
no record was pending on its page. -/
theorem consolidatePages_unpublished (h0 : Loaded cfg paged db0) {es : List DbEvent}
    (run : Steps (guarded (MergeStep cfg paged) (SeqStep cfg)) db0 es db)
    (h : LeavesUnpublished cfg env p db db') :
    StoreKept cfg paged (nbrsAfter (loadedNbrs cfg db0) es) p db db' ↔
      db.pageMap.pageRecs p = [] := by
  constructor
  · intro hk
    rw [← hk.recs, h.drained]
  · intro hnil
    have ht := h0.tracked.steps run
    have hd := h.drainOnly ht.inv.pageMap hnil
    have ht' : Tracked cfg paged db.vertexIndex.size (nbrsAfter (loadedNbrs cfg db0) es) db' :=
      ⟨ht.inv.drained hd, by rw [hd.vertexIndex],
        fun v hv => (ht.synced v hv).drained hd fun _ => hnil⟩
    refine ⟨by rw [h.drained, hnil], ?_, fun es' db'' run' v hv => ?_⟩
    · rw [hd.drains.forwarders.acquire]
      exact ht.inv.noForwarder p
    · have ht'' := ht'.steps run'
      exact ht''.inv.reads (ht''.size.symm ▸ hv)

/-- The settings of the small graph with a threshold of zero. -/
def eagerConfig : Config := { smallConfig false with maxDeltaChainLength := 0 }

theorem smallDb_loaded_eager :
    Loaded eagerConfig {v | v < (smallDb false).vertexIndex.size} (smallDb false) := by
  have h := smallDb_loaded false
  exact ⟨h.pool, h.alloc, h.pageMap, h.noForwarder, h.size, h.undeleted, h.giant, h.pagedLt,
    h.entry, h.inUse, h.owned, h.baseIds, h.noHead, h.noPending⟩

/-- A call on the freshly loaded page returns because nothing is pending. -/
theorem consolidatePages_unpublished_small :
    StoreKept eagerConfig {v | v < (smallDb false).vertexIndex.size}
      (nbrsAfter (loadedNbrs eagerConfig (smallDb false)) []) 0 (smallDb false)
      (consolidatePages eagerConfig { SmoEnv.smooth with requestedThreshold := 0 } 0
        (smallDb false)).state := by
  have hout : (consolidatePages eagerConfig { SmoEnv.smooth with requestedThreshold := 0 } 0
      (smallDb false)).value? = some .noDeltas := by decide +kernel
  exact (consolidatePages_unpublished smallDb_loaded_eager .nil
    (.inr ⟨_, EStateM.Result.eq_ok_of_value? hout, .inl rfl⟩)).2 (by decide +kernel)

/-- A call that finds every frame pinned when it copies its first page. -/
def SmoEnv.pinned : SmoEnv :=
  { SmoEnv.smooth with
    claim := fun _ => .error "buf_pool: all pages are pinned, cannot allocate new page" }

/-- The small database after `insert_edge(0, 3)` and a consolidation that throws. -/
def smallFailed : Db :=
  (consolidatePages (smallConfig false) .pinned 0 (smallInserted false)).state

/-- ... after `insert_edge(1, 0)` ... -/
def smallFailedInserted : Db := (insertEdge (smallConfig false) 1 0 0 smallFailed).state

/-- ... and after a consolidation that publishes. -/
def smallFailedMerged : Db :=
  (consolidatePages (smallConfig false) .smooth 0 smallFailedInserted).state

/-- The records drained by a call that threw are lost at the next consolidation: vertex 0 does not
get its neighbour 3. -/
theorem consolidatePages_loses_drained :
    ¬ ∀ (cfg : Config) (paged : Set VId) (db0 : Db), Loaded cfg paged db0 →
      ∀ (es : List DbEvent) (db : Db),
        Steps (guarded (MergeStep cfg paged) (SeqStep cfg)) db0 es db →
      ∀ (env : SmoEnv) (p : PageNo) (db' : Db), LeavesUnpublished cfg env p db db' →
        StoreKept cfg paged (nbrsAfter (loadedNbrs cfg db0) es) p db db' := by
  intro h
  have hfail : LeavesUnpublished (smallConfig false) .pinned 0 (smallInserted false)
      smallFailed := by
    refine .inl ⟨"buf_pool: all pages are pinned, cannot allocate new page", ?_⟩
    refine EStateM.Result.eq_error_of_error? ?_
    decide +kernel
  have run : Steps (guarded (MergeStep (smallConfig false)
      {v | v < (smallDb false).vertexIndex.size}) (SeqStep (smallConfig false))) (smallDb false)
      ([] ++ [.insertEdge 0 3 0]) (smallInserted false) :=
    .snoc .nil ⟨trivial, .insertEdge (smallDb_inserts false)⟩
  have hins : insertEdge (smallConfig false) 1 0 0 smallFailed = .ok true smallFailedInserted :=
    EStateM.Result.eq_ok_of_value? (by decide +kernel)
  have hmerge : consolidatePages (smallConfig false) .smooth 0 smallFailedInserted =
      .ok .published smallFailedMerged := EStateM.Result.eq_ok_of_value? (by decide +kernel)
  have hstep : MergeStep (smallConfig false) {v | v < (smallDb false).vertexIndex.size}
      smallFailedInserted (.consolidate 0 .smooth) :=
    fun _ => ⟨⟨0, by decide +kernel, by decide +kernel⟩, .inl rfl, by decide +kernel⟩
  have run' : Steps (guarded (MergeStep (smallConfig false)
      {v | v < (smallDb false).vertexIndex.size}) (SeqStep (smallConfig false))) smallFailed
      ([] ++ [.insertEdge 1 0 0] ++ [.consolidate 0 .smooth]) smallFailedMerged :=
    .snoc (.snoc .nil ⟨trivial, .insertEdge hins⟩) ⟨hstep, .consolidate hmerge⟩
  have hread : Reads (smallConfig false) smallFailedMerged 0
      (Lww.lww {d | d ∈ (smallDb false).base (smallConfig false) 0} [.insert 3]) :=
    (h (smallConfig false) _ _ (smallDb_loaded false) _ _ run _ _ _ hfail).reads _ _ run' 0
      (by decide +kernel)
  have hgot : readNeighborClone (smallConfig false) 0 smallFailedMerged 0 = some [1, 2] := by
    decide +kernel
  exact not_reads 0 hgot 3 (by decide +kernel) hread

end BwGraph
