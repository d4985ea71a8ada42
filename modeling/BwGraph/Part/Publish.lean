import BwGraph.Part.Replace

/-
  What one call of `consolidatePages` does to the database when nothing else runs. A call that
  publishes moves every vertex of the merged graph to its replacement page, empties its delta
  chain and sets its type (`Published`); the pages and the vertices outside the merged graph stay
  as they are. The other normal returns change nothing, except that `noDeltas` and `emptyGraph`
  have drained the chain of the page (`consolidatePages_ok`).

  The second drain of a sequential call finds nothing, so no stray is rerouted and no chain is
  cut behind a boundary record.
-/

namespace BwGraph

open AList PageMap VertexIndex

open EStateM (bind_eq_ok pure_eq_ok)

/-- The merged graph of a page with its whole chain. -/
def mergedGraph (cfg : Config) (db : Db) (p : PageNo) : AdjMap :=
  buildMergedGraph cfg (db.csrPool.page p) (db.pageMap.pageRecs p) db.vertexIndex db.giantDb

/-- The replacement can be read back: raw neighbour arrays, or no split. -/
def Readable (cfg : Config) (graph : AdjMap) : Prop :=
  cfg.neighborCompress = false ∨ estimatePageBytes cfg graph ≤ cfg.pageSize

instance (cfg : Config) (graph : AdjMap) : Decidable (Readable cfg graph) :=
  inferInstanceAs (Decidable (_ ∨ _))

variable {cfg : Config} {env : SmoEnv} {p : PageNo} {graph : AdjMap} {db db' : Db}

/-! ## The replacement -/

/-- What `buildReplacement` leaves for a nonempty merged graph. -/
structure Prepared (cfg : Config) (graph : AdjMap) (db db' : Db) (r : Replacement) : Prop where
  items : db'.vertexIndex.items = db.vertexIndex.items
  deltaHeads : db'.vertexIndex.deltaHeads = db.vertexIndex.deltaHeads
  size : db'.vertexIndex.size = db.vertexIndex.size
  pageMap : db'.pageMap = db.pageMap
  pages : Replaces cfg (Readable cfg graph ∧ IdsFit cfg graph) graph db.csrPool db'.csrPool
    r.locations
  mem : ∀ v, v ∈ r.locations ↔ v ∈ graph
  giants : ∀ v, v ∈ r.giantVertices ↔ v ∈ graph ∧ StoredGiant cfg db.vertexIndex graph v
  stored : ∀ v, v ∈ graph → StoredGiant cfg db.vertexIndex graph v →
    db'.giantDb.store v = some ((graph.get v).insertionSort (· ≤ ·))
  kept : ∀ v, ¬ (v ∈ graph ∧ StoredGiant cfg db.vertexIndex graph v) →
    db'.giantDb.store v = db.giantDb.store v

/-- What `buildReplacement` leaves, whatever the pool. -/
structure Drafted (cfg : Config) (graph : AdjMap) (db db' : Db) (r : Replacement) : Prop where
  items : db'.vertexIndex.items = db.vertexIndex.items
  deltaHeads : db'.vertexIndex.deltaHeads = db.vertexIndex.deltaHeads
  size : db'.vertexIndex.size = db.vertexIndex.size
  pageMap : db'.pageMap = db.pageMap
  mem : ∀ v, v ∈ r.locations ↔ v ∈ graph
  giants : ∀ v, v ∈ r.giantVertices ↔ v ∈ graph ∧ StoredGiant cfg db.vertexIndex graph v
  stored : ∀ v, v ∈ graph → StoredGiant cfg db.vertexIndex graph v →
    db'.giantDb.store v = some ((graph.get v).insertionSort (· ≤ ·))
  kept : ∀ v, ¬ (v ∈ graph ∧ StoredGiant cfg db.vertexIndex graph v) →
    db'.giantDb.store v = db.giantDb.store v

theorem Prepared.drafted {r : Replacement} (h : Prepared cfg graph db db' r) :
    Drafted cfg graph db db' r :=
  ⟨h.items, h.deltaHeads, h.size, h.pageMap, h.mem, h.giants, h.stored, h.kept⟩

variable {r : Option Replacement}

section

variable {deltas : List DeltaRecord}
  (hgraph : buildMergedGraph cfg (db.csrPool.page p) deltas db.vertexIndex db.giantDb = graph)
  (h : buildReplacement cfg env p deltas db = .ok r db')
include hgraph h

/-- The giant lists are written, then the pages. -/
theorem buildReplacement_cases :
    (r = none ∧ db' = db ∧ graph.keys = []) ∨
    ∃ r' db1, r = some r' ∧ db1.csrPool = db.csrPool ∧
      (PoolOnly db1 db' → (∀ v, v ∈ r'.locations ↔ v ∈ graph) → Drafted cfg graph db db' r') ∧
      (cfg.pageSize < estimatePageBytes cfg graph ∧
          doSplit cfg env graph db1 = .ok r'.locations db' ∨
        estimatePageBytes cfg graph ≤ cfg.pageSize ∧
          doNoSplit cfg env graph db1 = .ok r'.locations db') := by
  unfold buildReplacement at h
  rw [EStateM.get_bind] at h
  simp only [hgraph] at h
  split_ifs at h with hempty hest
  · obtain ⟨rfl, rfl⟩ := pure_eq_ok.1 h
    exact .inl ⟨rfl, rfl, List.isEmpty_iff.1 hempty⟩
  all_goals
    obtain ⟨giants, db1, hpers, h⟩ := bind_eq_ok.1 h
    obtain ⟨locs, db2, hdo, h⟩ := bind_eq_ok.1 h
    obtain ⟨rfl, rfl⟩ := pure_eq_ok.1 h
    obtain ⟨h1, h2, h3, h4, h5, h6⟩ := persistGiants_ok hpers
    have hord : ∀ v, v ∈ env.graphOrder.order graph.keys ↔ v ∈ graph := fun v => by
      rw [(env.graphOrder.perm graph.keys).mem_iff, mem_keys]
    simp only [hord, List.not_mem_nil, or_false] at h4 h5 h6
    refine .inr ⟨_, db1, rfl, h3, fun hs hm => ?_, ?_⟩
    · exact ⟨hs.items.trans (by rw [h1]), hs.deltaHeads.trans (by rw [h1]),
        hs.size.trans (by rw [h1]), hs.pageMap.trans h2, hm, h4, by rw [hs.giantDb]; exact h5,
        by rw [hs.giantDb]; exact h6⟩
  · exact .inl ⟨hest, hdo⟩
  · exact .inr ⟨Nat.not_lt.1 hest, hdo⟩

theorem buildReplacement_drafted :
    (r = none ∧ db' = db ∧ graph.keys = []) ∨ ∃ r', r = some r' ∧ Drafted cfg graph db db' r' := by
  rcases buildReplacement_cases hgraph h with hnone | ⟨r', db1, hr, -, hdraft, ⟨-, hdo⟩ | ⟨-, hdo⟩⟩
  · exact .inl hnone
  · obtain ⟨hs, hm⟩ := doSplit_mem hdo
    exact .inr ⟨r', hr, hdraft hs hm⟩
  · obtain ⟨hs, hm⟩ := doNoSplit_mem hdo
    exact .inr ⟨r', hr, hdraft hs hm⟩

end

theorem buildReplacement_ok {deltas : List DeltaRecord} (hok : db.csrPool.Ok)
    (halloc : db.csrPool.AllocOk)
    (hgraph : buildMergedGraph cfg (db.csrPool.page p) deltas db.vertexIndex db.giantDb = graph)
    (h : buildReplacement cfg env p deltas db = .ok r db') :
    (r = none ∧ db' = db ∧ graph.keys = []) ∨ ∃ r', r = some r' ∧ Prepared cfg graph db db' r' := by
  rcases buildReplacement_cases hgraph h with hnone | ⟨r', db1, hr, hpool, hdraft, hdo⟩
  · exact .inl hnone
  · rw [← hpool] at hok halloc
    have hbuilt : PoolOnly db1 db' ∧
        Replaces cfg (Readable cfg graph ∧ IdsFit cfg graph) graph db1.csrPool db'.csrPool
          r'.locations ∧ ∀ v, v ∈ r'.locations ↔ v ∈ graph := by
      rcases hdo with ⟨hest, hdo⟩ | ⟨-, hdo⟩
      · obtain ⟨hs, hr, hm⟩ := doSplit_replaces hok halloc hdo
        refine ⟨hs, hr.mono fun hread => ?_, hm⟩
        exact ⟨hread.1.resolve_right (Nat.not_le.2 hest), hread.2⟩
      · exact doNoSplit_replaces hok halloc And.right hdo
    obtain ⟨hs, hrep, hm⟩ := hbuilt
    rw [hpool] at hrep
    have hd := hdraft hs hm
    exact .inr ⟨r', hr, hd.items, hd.deltaHeads, hd.size, hd.pageMap, hrep, hm, hd.giants,
      hd.stored, hd.kept⟩

/-! ## The version switch -/

/-- The state of a vertex after its version switch. -/
def VItem.switched (item : VItem) (giants : List VId) (v : VId)
    (prepared : PreparedVertexVersion) : VItem :=
  ⟨prepared.desired, if v ∈ giants then .giant else .normal, item.isDelete⟩

variable {giants : List VId} {f : Nat}

theorem finalizeVertex_ok {v : VId} {prepared : PreparedVertexVersion}
    (hf : (db.pageMap.forwarders f).reroutedTail v = none)
    (h : finalizeVertex giants f v prepared db = .ok () db') :
    db' = { db with
      vertexIndex := { db.vertexIndex with
        items := Function.update db.vertexIndex.items v
          ((db.vertexIndex.items v).switched giants v prepared)
        deltaHeads := Function.update db.vertexIndex.deltaHeads v none } } := by
  unfold finalizeVertex at h
  simp only [hf, publishPreparedVersion, setVertexType,
    setDeltaHead, Function.update_self] at h
  by_cases hid : (db.vertexIndex.items v).cur.id = prepared.expected
  · simp only [hid, if_true, Function.update_idem] at h
    cases h
    rfl
  · simp only [hid, if_false] at h
    cases h

variable {locs : Locations}

/-- `finalizeVertices` switches the vertices it goes over and no other. -/
theorem finalizeVertices_ok (vs : List VId)
    (hf : ∀ v, (db.pageMap.forwarders f).reroutedTail v = none)
    (h : finalizeVertices giants f locs vs db = .ok () db') :
    db'.pageMap = db.pageMap ∧ db'.csrPool = db.csrPool ∧ db'.giantDb = db.giantDb ∧
      db'.vertexIndex.size = db.vertexIndex.size ∧
      (∀ v prepared, v ∈ vs → locs.lookup v = some prepared →
        db'.vertexIndex.items v = (db.vertexIndex.items v).switched giants v prepared ∧
        db'.vertexIndex.deltaHeads v = none) ∧
      ∀ v, ¬ (v ∈ vs ∧ v ∈ locs) → db'.vertexIndex.items v = db.vertexIndex.items v ∧
        db'.vertexIndex.deltaHeads v = db.vertexIndex.deltaHeads v := by
  induction vs generalizing db with
  | nil =>
    obtain ⟨-, rfl⟩ := pure_eq_ok.1 h
    simp
  | cons w vs ih =>
    unfold finalizeVertices at h
    cases hl : locs.lookup w with
    | none =>
      rw [hl] at h
      have hw : w ∉ locs := lookup_eq_none.1 hl
      obtain ⟨h1, h2, h3, h4, h5, h6⟩ := ih hf h
      refine ⟨h1, h2, h3, h4, fun v pr hv hpr => ?_, fun v hv => ?_⟩
      · rcases List.mem_cons.1 hv with rfl | hv
        · rw [hl] at hpr; cases hpr
        · exact h5 v pr hv hpr
      · exact h6 v fun hc => hv ⟨List.mem_cons_of_mem _ hc.1, hc.2⟩
    | some pw =>
      rw [hl] at h
      obtain ⟨⟨⟩, db1, hone, h⟩ := bind_eq_ok.1 h
      have hdb1 := finalizeVertex_ok (hf w) hone
      obtain ⟨h1, h2, h3, h4, h5, h6⟩ := ih (by rw [hdb1]; exact hf) h
      have hw : w ∈ locs := by
        by_contra hc
        rw [lookup_eq_none.2 hc] at hl
        cases hl
      have hne : ∀ v, v ≠ w → db1.vertexIndex.items v = db.vertexIndex.items v ∧
          db1.vertexIndex.deltaHeads v = db.vertexIndex.deltaHeads v := by
        intro v hv
        rw [hdb1]
        simp [hv]
      have hself : db1.vertexIndex.items w = (db.vertexIndex.items w).switched giants w pw ∧
          db1.vertexIndex.deltaHeads w = none := by
        rw [hdb1]
        simp
      refine ⟨h1.trans (by rw [hdb1]), h2.trans (by rw [hdb1]), h3.trans (by rw [hdb1]),
        h4.trans (by rw [hdb1]), fun v pr hv hpr => ?_, fun v hv => ?_⟩
      · by_cases hvw : v = w
        · subst hvw
          rw [hl] at hpr
          cases hpr
          by_cases hin : v ∈ vs
          · obtain ⟨h7, h8⟩ := h5 v pw hin hl
            exact ⟨by rw [h7, hself.1]; rfl, h8⟩
          · obtain ⟨h7, h8⟩ := h6 v fun hc => hin hc.1
            exact ⟨h7.trans hself.1, h8.trans hself.2⟩
        · obtain ⟨h7, h8⟩ := h5 v pr ((List.mem_cons.1 hv).resolve_left hvw) hpr
          exact ⟨by rw [h7, (hne v hvw).1], h8⟩
      · have hvw : v ≠ w := by
          rintro rfl
          exact hv ⟨List.mem_cons_self, hw⟩
        obtain ⟨h7, h8⟩ := h6 v fun hc => hv ⟨List.mem_cons_of_mem _ hc.1, hc.2⟩
        exact ⟨h7.trans (hne v hvw).1, h8.trans (hne v hvw).2⟩

/-! ## A published consolidation -/

/-- What a consolidation of `p` that publishes the graph `graph` does. -/
structure Published (cfg : Config) (p : PageNo) (graph : AdjMap) (db db' : Db)
    (locs : Locations) : Prop where
  size : db'.vertexIndex.size = db.vertexIndex.size
  mem : ∀ v, v ∈ locs ↔ v ∈ graph
  switched : ∀ v prepared, locs.lookup v = some prepared →
    (db'.vertexIndex.items v).cur = prepared.desired ∧
    ((db'.vertexIndex.items v).vertexType = .giant ↔ StoredGiant cfg db.vertexIndex graph v) ∧
    (db'.vertexIndex.items v).isDelete = (db.vertexIndex.items v).isDelete ∧
    db'.vertexIndex.deltaHeads v = none
  unswitched : ∀ v, v ∉ graph → db'.vertexIndex.items v = db.vertexIndex.items v ∧
    db'.vertexIndex.deltaHeads v = db.vertexIndex.deltaHeads v
  pageMap : db'.pageMap.Ok
  getRecord : ∀ l, db'.pageMap.getRecord l = db.pageMap.getRecord l
  recs_self : db'.pageMap.pageRecs p = []
  recs_ne : ∀ q, q ≠ p → db'.pageMap.pageRecs q = db.pageMap.pageRecs q
  forwarder_self : db'.pageMap.acquireForwarderFor p = none
  forwarder_ne : ∀ q, q ≠ p →
    db'.pageMap.acquireForwarderFor q = db.pageMap.acquireForwarderFor q
  stored : ∀ v, v ∈ graph → StoredGiant cfg db.vertexIndex graph v →
    db'.giantDb.store v = some ((graph.get v).insertionSort (· ≤ ·))
  kept : ∀ v, ¬ (v ∈ graph ∧ StoredGiant cfg db.vertexIndex graph v) →
    db'.giantDb.store v = db.giantDb.store v
  pages : Replaces cfg (Readable cfg graph ∧ IdsFit cfg graph) graph db.csrPool
    { db'.csrPool with retired := db.csrPool.retired } locs
  retired : db'.csrPool.retired = p :: db.csrPool.retired

/-- The same outside of the CSR pool, whatever state the pool is in. -/
structure Switches (cfg : Config) (p : PageNo) (graph : AdjMap) (db db' : Db)
    (locs : Locations) : Prop where
  size : db'.vertexIndex.size = db.vertexIndex.size
  mem : ∀ v, v ∈ locs ↔ v ∈ graph
  switched : ∀ v prepared, locs.lookup v = some prepared →
    (db'.vertexIndex.items v).cur = prepared.desired ∧
    ((db'.vertexIndex.items v).vertexType = .giant ↔ StoredGiant cfg db.vertexIndex graph v) ∧
    (db'.vertexIndex.items v).isDelete = (db.vertexIndex.items v).isDelete ∧
    db'.vertexIndex.deltaHeads v = none
  unswitched : ∀ v, v ∉ graph → db'.vertexIndex.items v = db.vertexIndex.items v ∧
    db'.vertexIndex.deltaHeads v = db.vertexIndex.deltaHeads v
  pageMap : db'.pageMap.Ok
  getRecord : ∀ l, db'.pageMap.getRecord l = db.pageMap.getRecord l
  recs_self : db'.pageMap.pageRecs p = []
  recs_ne : ∀ q, q ≠ p → db'.pageMap.pageRecs q = db.pageMap.pageRecs q
  forwarder_self : db'.pageMap.acquireForwarderFor p = none
  forwarder_ne : ∀ q, q ≠ p →
    db'.pageMap.acquireForwarderFor q = db.pageMap.acquireForwarderFor q
  stored : ∀ v, v ∈ graph → StoredGiant cfg db.vertexIndex graph v →
    db'.giantDb.store v = some ((graph.get v).insertionSort (· ≤ ·))
  kept : ∀ v, ¬ (v ∈ graph ∧ StoredGiant cfg db.vertexIndex graph v) →
    db'.giantDb.store v = db.giantDb.store v

theorem Published.switches (h : Published cfg p graph db db' locs) :
    Switches cfg p graph db db' locs :=
  ⟨h.size, h.mem, h.switched, h.unswitched, h.pageMap, h.getRecord, h.recs_self, h.recs_ne,
    h.forwarder_self, h.forwarder_ne, h.stored, h.kept⟩

/-- What the drain of a page and nothing else does. -/
structure DrainOnly (p : PageNo) (db db' : Db) : Prop where
  vertexIndex : db'.vertexIndex = db.vertexIndex
  csrPool : db'.csrPool = db.csrPool
  giantDb : db'.giantDb = db.giantDb
  drains : db.pageMap.Drains db'.pageMap p

theorem fetchDeltas_ok {deltas : List DeltaRecord} (hpm : db.pageMap.Ok)
    (h : fetchDeltas p db = .ok deltas db') :
    deltas = db.pageMap.pageRecs p ∧ DrainOnly p db db' := by
  cases h
  exact ⟨fetchDeltasWithMark_fst _ _,
    ⟨rfl, rfl, rfl, drains_fetchDeltasWithMark hpm p⟩⟩

theorem installForwarder_ok (h : installForwarder p locs db = .ok f db') :
    db'.vertexIndex = db.vertexIndex ∧ db'.csrPool = db.csrPool ∧ db'.giantDb = db.giantDb ∧
      db.pageMap.SameChains db'.pageMap ∧
      (∀ q, q ≠ p → db'.pageMap.acquireForwarderFor q = db.pageMap.acquireForwarderFor q) ∧
      ∀ v, (db'.pageMap.forwarders f).reroutedTail v = none := by
  unfold installForwarder at h
  set m : VId → Option PageNo := fun v => (locs.lookup v).map fun q => q.desired.pageNo
  rw [EStateM.Result.ok.injEq] at h
  obtain ⟨rfl, rfl⟩ := h
  refine ⟨rfl, rfl, rfl, ?_, fun q hq => ?_, fun v => ?_⟩
  · exact (sameChains_makeForwarder _ m).trans (sameChains_installForwarderFor _ _ _)
  · exact acquireForwarderFor_install_ne (db.pageMap.makeForwarder m).2 _ hq
  · simp [makeForwarder, installForwarderFor]

variable {db0 : Db}

theorem publishReplacement_switches {r : Replacement} (hprep : Drafted cfg graph db0 db r)
    (hpm : db0.pageMap.Ok) (hrecs : db0.pageMap.pageRecs p = [])
    (h : publishReplacement cfg env p r db = .ok () db') :
    Switches cfg p graph db0 db' r.locations ∧
      db'.csrPool = { db.csrPool with retired := p :: db.csrPool.retired } := by
  unfold publishReplacement at h
  obtain ⟨f, db1, hinst, h⟩ := bind_eq_ok.1 h
  obtain ⟨stray, db2, hfetch, h⟩ := bind_eq_ok.1 h
  obtain ⟨⟨⟩, db3, hstray, h⟩ := bind_eq_ok.1 h
  obtain ⟨⟨⟩, db4, hfin, hdetach⟩ := bind_eq_ok.1 h
  cases hdetach
  obtain ⟨hvi1, hpool1, hgiant1, hsame1, hacq1, htail1⟩ := installForwarder_ok hinst
  rw [hprep.pageMap] at hsame1 hacq1
  obtain ⟨rfl, hd⟩ := fetchDeltas_ok (hsame1.ok hpm) hfetch
  -- the forwarder was installed on a drained page: there is no stray
  rw [hsame1.pageRecs, hrecs] at hstray
  obtain ⟨-, rfl⟩ := pure_eq_ok.1 hstray
  obtain ⟨hpm4, h2, h3, h4, h5, h6⟩ := finalizeVertices_ok _
    (fun v => by rw [hd.drains.forwarders.forwarders]; exact htail1 v) hfin
  rw [hd.vertexIndex, hvi1] at h4 h5 h6
  rw [hd.csrPool, hpool1] at h2
  rw [hd.giantDb, hgiant1] at h3
  have hdet := sameChains_detachForwarderFor db4.pageMap p
  have hdrain := hd.drains
  have hord : ∀ v, v ∈ env.locationOrder.order r.locations.keys ↔ v ∈ r.locations := fun v => by
    rw [(env.locationOrder.perm _).mem_iff, mem_keys]
  have hpool : db4.csrPool = db.csrPool := h2
  refine ⟨⟨h4.trans hprep.size, hprep.mem, ?_, ?_, ?_, ?_, ?_, ?_, ?_, ?_, ?_, ?_⟩,
    congrArg (fun pool : CsrPool => { pool with retired := p :: pool.retired }) hpool⟩
  · intro v prepared hl
    have hmem : v ∈ r.locations := by
      by_contra hc
      rw [lookup_eq_none.2 hc] at hl
      cases hl
    obtain ⟨h7, h8⟩ := h5 v prepared ((hord v).2 hmem) hl
    have h7' : db4.vertexIndex.items v =
        (db0.vertexIndex.items v).switched r.giantVertices v prepared := by
      rw [← hprep.items]; exact h7
    refine ⟨by rw [h7']; rfl, ?_, by rw [h7']; rfl, h8⟩
    rw [h7']
    unfold VItem.switched
    by_cases hg : v ∈ r.giantVertices
    · simp [hg, ((hprep.giants v).1 hg).2]
    · have hng : ¬ StoredGiant cfg db0.vertexIndex graph v :=
        fun hs => hg ((hprep.giants v).2 ⟨(hprep.mem v).1 hmem, hs⟩)
      simp [hg, hng]
  · intro v hv
    obtain ⟨h7, h8⟩ := h6 v fun hc => hv ((hprep.mem v).1 hc.2)
    exact ⟨h7.trans (congrFun hprep.items v), h8.trans (congrFun hprep.deltaHeads v)⟩
  · exact hdet.ok (hpm4 ▸ hdrain.ok)
  · intro l
    exact (hdet.getRecord l).trans (by rw [hpm4, hdrain.get, hsame1.getRecord])
  · exact (hdet.pageRecs p).trans (by rw [hpm4, hdrain.recs_self])
  · intro q hq
    exact (hdet.pageRecs q).trans (by rw [hpm4, hdrain.recs_ne q hq, hsame1.pageRecs])
  · exact acquireForwarderFor_detach_self _ _
  · intro q hq
    refine (acquireForwarderFor_detach_ne _ hq).trans ?_
    rw [hpm4, hdrain.forwarders.acquire, hacq1 q hq]
  · intro v hv hs
    exact (congrArg (fun g : GiantDb => g.store v) h3).trans (hprep.stored v hv hs)
  · intro v hv
    exact (congrArg (fun g : GiantDb => g.store v) h3).trans (hprep.kept v hv)

theorem publishReplacement_ok {r : Replacement} (hprep : Prepared cfg graph db0 db r)
    (hpm : db0.pageMap.Ok) (hrecs : db0.pageMap.pageRecs p = [])
    (h : publishReplacement cfg env p r db = .ok () db') :
    Published cfg p graph db0 db' r.locations := by
  obtain ⟨hs, hpool⟩ := publishReplacement_switches hprep.drafted hpm hrecs h
  refine ⟨hs.size, hs.mem, hs.switched, hs.unswitched, hs.pageMap, hs.getRecord, hs.recs_self,
    hs.recs_ne, hs.forwarder_self, hs.forwarder_ne, hs.stored, hs.kept, ?_, ?_⟩
  · rw [hpool, ← hprep.pages.retired]
    exact hprep.pages
  · rw [hpool, hprep.pages.retired]

theorem Switches.after_drain (hd : DrainOnly p db db0) (h : Switches cfg p graph db0 db' locs) :
    Switches cfg p graph db db' locs := by
  have hvi := hd.vertexIndex
  refine ⟨h.size.trans (by rw [hvi]), h.mem, ?_, ?_, h.pageMap,
    fun l => (h.getRecord l).trans (hd.drains.get l), h.recs_self,
    fun q hq => (h.recs_ne q hq).trans (hd.drains.recs_ne q hq), h.forwarder_self,
    fun q hq => (h.forwarder_ne q hq).trans (hd.drains.forwarders.acquire q), ?_, ?_⟩
  · rw [← hvi]; exact h.switched
  · rw [← hvi]; exact h.unswitched
  · rw [← hvi]; exact h.stored
  · rw [← hvi, ← hd.giantDb]; exact h.kept

theorem Published.after_drain (hd : DrainOnly p db db0) (h : Published cfg p graph db0 db' locs) :
    Published cfg p graph db db' locs := by
  have hs := h.switches.after_drain hd
  refine ⟨hs.size, hs.mem, hs.switched, hs.unswitched, hs.pageMap, hs.getRecord, hs.recs_self,
    hs.recs_ne, hs.forwarder_self, hs.forwarder_ne, hs.stored, hs.kept, ?_, ?_⟩
  · rw [← hd.csrPool]; exact h.pages
  · rw [← hd.csrPool]; exact h.retired

variable {exit : SmoExit}

section

variable (hpm : db.pageMap.Ok) (h : consolidatePages cfg env p db = .ok exit db')
include hpm h

/-- The normal returns of a consolidation, up to what the replacement is. -/
theorem consolidatePages_cases :
    ((exit = .disabled ∨ exit = .belowThreshold) ∧ db' = db) ∨
    (exit = .noDeltas ∧ db.pageMap.pageRecs p = [] ∧ DrainOnly p db db') ∨
    (db.pageMap.pageRecs p ≠ [] ∧ ∃ db0 r db1, DrainOnly p db db0 ∧
      buildReplacement cfg env p (db.pageMap.pageRecs p) db0 = .ok r db1 ∧
      (r = none ∧ exit = .emptyGraph ∧ db' = db1 ∨
        ∃ r', r = some r' ∧ exit = .published ∧ publishReplacement cfg env p r' db1 = .ok () db')) := by
  unfold consolidatePages at h
  rw [EStateM.get_bind] at h
  split_ifs at h with hen hlen
  · obtain ⟨rfl, rfl⟩ := pure_eq_ok.1 h
    exact .inl ⟨.inl rfl, rfl⟩
  · obtain ⟨rfl, rfl⟩ := pure_eq_ok.1 h
    exact .inl ⟨.inr rfl, rfl⟩
  obtain ⟨deltas, db0, hfetch, h⟩ := bind_eq_ok.1 h
  obtain ⟨rfl, hd⟩ := fetchDeltas_ok hpm hfetch
  split_ifs at h with hempty
  · obtain ⟨rfl, rfl⟩ := pure_eq_ok.1 h
    exact .inr (.inl ⟨rfl, List.isEmpty_iff.1 hempty, hd⟩)
  have hne : db.pageMap.pageRecs p ≠ [] := fun he => hempty (by rw [he]; rfl)
  obtain ⟨r, db1, hbuild, hrest⟩ := bind_eq_ok.1 h
  refine .inr (.inr ⟨hne, db0, r, db1, hd, hbuild, ?_⟩)
  cases r with
  | none =>
    obtain ⟨rfl, rfl⟩ := pure_eq_ok.1 hrest
    exact .inl ⟨rfl, rfl, rfl⟩
  | some r' =>
    obtain ⟨⟨⟩, db2, hpub, hret⟩ := bind_eq_ok.1 hrest
    obtain ⟨rfl, rfl⟩ := pure_eq_ok.1 hret
    exact .inr ⟨r', rfl, rfl, hpub⟩

omit hpm h in
/-- The merged graph is that of the state before the drain. -/
theorem DrainOnly.mergedGraph (hd : DrainOnly p db db0) :
    buildMergedGraph cfg (db0.csrPool.page p) (db.pageMap.pageRecs p) db0.vertexIndex
      db0.giantDb = mergedGraph cfg db p := by
  rw [hd.csrPool, hd.vertexIndex, hd.giantDb]
  rfl

/-- The normal returns of a consolidation, whatever the pool. -/
theorem consolidatePages_switches :
    ((exit = .disabled ∨ exit = .belowThreshold) ∧ db' = db) ∨
    (exit = .noDeltas ∧ db.pageMap.pageRecs p = [] ∧ DrainOnly p db db') ∨
    (exit = .emptyGraph ∧ db.pageMap.pageRecs p ≠ [] ∧ (mergedGraph cfg db p).keys = [] ∧
      DrainOnly p db db') ∨
    (exit = .published ∧ db.pageMap.pageRecs p ≠ [] ∧
      ∃ locs, Switches cfg p (mergedGraph cfg db p) db db' locs) := by
  rcases consolidatePages_cases hpm h with h | h | ⟨hne, db0, r, db1, hd, hbuild, hrest⟩
  · exact .inl h
  · exact .inr (.inl h)
  rcases buildReplacement_drafted hd.mergedGraph hbuild with ⟨rfl, rfl, hkeys⟩ | ⟨r', rfl, hdraft⟩
  · rcases hrest with ⟨-, rfl, rfl⟩ | ⟨r', hr, -⟩
    · exact .inr (.inr (.inl ⟨rfl, hne, hkeys, hd⟩))
    · cases hr
  · rcases hrest with ⟨hr, -⟩ | ⟨r'', hr, rfl, hpub⟩
    · cases hr
    · cases hr
      obtain ⟨hs, -⟩ := publishReplacement_switches hdraft hd.drains.ok hd.drains.recs_self hpub
      exact .inr (.inr (.inr ⟨rfl, hne, _, hs.after_drain hd⟩))

end

/-- The normal returns of a consolidation. -/
theorem consolidatePages_ok (hok : db.csrPool.Ok) (halloc : db.csrPool.AllocOk)
    (hpm : db.pageMap.Ok) (h : consolidatePages cfg env p db = .ok exit db') :
    ((exit = .disabled ∨ exit = .belowThreshold) ∧ db' = db) ∨
    (exit = .noDeltas ∧ db.pageMap.pageRecs p = [] ∧ DrainOnly p db db') ∨
    (exit = .emptyGraph ∧ db.pageMap.pageRecs p ≠ [] ∧ (mergedGraph cfg db p).keys = [] ∧
      DrainOnly p db db') ∨
    (exit = .published ∧ db.pageMap.pageRecs p ≠ [] ∧
      ∃ locs, Published cfg p (mergedGraph cfg db p) db db' locs) := by
  rcases consolidatePages_cases hpm h with h | h | ⟨hne, db0, r, db1, hd, hbuild, hrest⟩
  · exact .inl h
  · exact .inr (.inl h)
  rcases buildReplacement_ok (hd.csrPool ▸ hok) (hd.csrPool ▸ halloc) hd.mergedGraph hbuild with
    ⟨rfl, rfl, hkeys⟩ | ⟨r', rfl, hprep⟩
  · rcases hrest with ⟨-, rfl, rfl⟩ | ⟨r', hr, -⟩
    · exact .inr (.inr (.inl ⟨rfl, hne, hkeys, hd⟩))
    · cases hr
  · rcases hrest with ⟨hr, -⟩ | ⟨r'', hr, rfl, hpub⟩
    · cases hr
    · cases hr
      have hp := publishReplacement_ok hprep hd.drains.ok hd.drains.recs_self hpub
      exact .inr (.inr (.inr ⟨rfl, hne, _, hp.after_drain hd⟩))

end BwGraph
