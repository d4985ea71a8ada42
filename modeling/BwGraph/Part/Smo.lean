import BwGraph.Db.State
import BwGraph.Part.Reorder

/-
  `smo_ctl_t` (`smo.cc`): consolidation of a CSR page with its delta chain. The chain is drained,
  merged with the page (`buildMergedGraph`), the result is written to one new page (`doNoSplit`)
  or packed onto several (`doSplit`), giant vertices go to the giant store, a forwarder redirects
  writers, strays are drained again, and every vertex is switched to its new version.

  Each step of `consolidate_pages` that runs under its own latch is a definition of its own, so
  that the sequential function and the interleaving model share them. The run-time choices that
  the source leaves open are in `SmoEnv`: the iteration order of the hash maps, the slot
  reservations of the update sketch, whether a RocksDB write succeeds, which frame the buffer pool
  reclaims. The version switch is immediate (`manual_version_switch_` is off) and the index tree is
  absent (`index_page_map_` is null), so `old_parent_no` is not read.
-/

namespace BwGraph

open EStateM (bind_eq_ok pure_eq_ok)

/-- What one call of `consolidate_pages` meets at run time. `slots` is
`get_per_vertex_reservation`, or the configured slot count without a sketch; `claim` is the result
of `claim_frame_for_reuse` for the page being copied. -/
structure SmoEnv where
  graphOrder : HashOrder
  viewOrder : HashOrder
  locationOrder : HashOrder
  gorder : GorderEnv
  slots : VId → Nat
  putOk : VId → Bool
  claim : PageNo → Except String (Option PageNo)
  requestedThreshold : Nat
  enabled : Bool

/-- A call that meets no obstacle: every write succeeds, a free frame is at hand. -/
def SmoEnv.smooth : SmoEnv where
  graphOrder := .listed
  viewOrder := .listed
  locationOrder := .listed
  gorder := ⟨.listed, .listed, fun _ _ _ => 0⟩
  slots := fun _ => 0
  putOk := fun _ => true
  claim := fun _ => .ok none
  requestedThreshold := 1
  enabled := true

/-! ## The merged graph -/

namespace AdjMap

/-- `for (auto& [v, nbrs] : graph) nbrs = f(v, nbrs)`. -/
def mapLists (f : VId → List VId → List VId) (g : AdjMap) : AdjMap :=
  g.keys.foldl (fun (acc : AdjMap) v => acc.insert v (f v (acc.get v))) g

end AdjMap

/-- One entry of the base page. The raw build assigns a vertex's list, the compressed build
appends to it. -/
def snapshotStep (cfg : Config) (page : CsrPage) (graph : AdjMap) (p : CsrVertex × Nat) : AdjMap :=
  if p.1.isDeleted then graph
  else graph.insert p.1.vertexId
    ((if cfg.neighborCompress then graph.get p.1.vertexId else []) ++ page.readNeighbors cfg p.2)

/-- The snapshot of the base page. -/
def snapshotPage (cfg : Config) (page : CsrPage) : AdjMap :=
  page.vertexSpan.zipIdx.foldl (snapshotStep cfg page) ∅

/-- The lists of giant vertices come from the giant store. -/
def replaceGiants (vi : VertexIndex) (giantDb : GiantDb) (graph : AdjMap) : AdjMap :=
  graph.mapLists fun v nbrs => if vi.isGiantVertex v then giantDb.readNeighborClone v else nbrs

/-- One delta record applied to the graph. -/
def applyDelta (graph : AdjMap) (delta : DeltaRecord) : AdjMap :=
  if delta.target ≠ .edge then graph
  else match delta.type with
    | .insert => graph.insert delta.first (graph.get delta.first ++ [delta.second])
    | .delete =>
      if delta.first ∈ graph then
        graph.insert delta.first ((graph.get delta.first).filter fun d => d ≠ delta.second)
      else graph

/-- `std::sort`, then `std::unique` on the sorted list. -/
def sortUnique (l : List VId) : List VId := (l.insertionSort (· ≤ ·)).dedup

/-- `build_merged_graph`. -/
def buildMergedGraph (cfg : Config) (page : CsrPage) (deltas : List DeltaRecord)
    (vi : VertexIndex) (giantDb : GiantDb) : AdjMap :=
  (deltas.foldl applyDelta (replaceGiants vi giantDb (snapshotPage cfg page))).mapLists
    fun _ nbrs => sortUnique nbrs

/-- `estimate_page_bytes`: the same upper bound in both builds. -/
def estimatePageBytes (cfg : Config) (graph : AdjMap) : Nat :=
  cfg.headerBytes + (graph.keys.map fun v => csrVertexBytes + (graph.get v).length * 4).sum

/-! ## The replacement pages -/

/-- `vertex_location_map_t`. -/
abbrev Locations := AList (fun _ : VId => PreparedVertexVersion)

/-- `disk_manager->allocate_page()`, as a page number. -/
def allocateCsrPage : DbM PageNo := fun db =>
  .ok db.csrPool.allocatePage.1 { db with csrPool := db.csrPool.allocatePage.2 }

/-- `buf_page_cp` and `mark_dirty`; `message` is thrown when the page is already cached. -/
def copyIntoPool (env : SmoEnv) (message : String) (pageNo : PageNo) (page : CsrPage) :
    DbM Unit := fun db =>
  match db.csrPool.frames pageNo with
  | some _ => .error message db
  | none =>
    match env.claim pageNo with
    | .error e => .error e db
    | .ok victim =>
      match db.csrPool.bufPageCp pageNo page victim with
      | none => .error message db
      | some pool => .ok () { db with csrPool := pool.markDirty pageNo }

/-- `new_locations[v] = prepare_vertex_version(v, page_no, offset)` for a vertex map. -/
def prepareVersions (pageNo : PageNo) : List (VId × Nat) → Locations → DbM Locations
  | [], locs => pure locs
  | (v, offset) :: vm, locs => fun db =>
    let (prepared, vi) := db.vertexIndex.prepareVertexVersion v pageNo offset
    prepareVersions pageNo vm (locs.insert v prepared) { db with vertexIndex := vi }

/-- `do_no_split`. -/
def doNoSplit (cfg : Config) (env : SmoEnv) (graph : AdjMap) : DbM Locations := do
  let newPageNo ← allocateCsrPage
  match buildFromAdjacencyMap cfg env.slots
      ((env.viewOrder.order graph.keys).map fun v => (v, graph.get v)) with
  | .error e => throw e
  | .ok (page, vertexMap) =>
    copyIntoPool env "SMO no-split: allocated page already exists in buffer pool" newPageNo page
    prepareVersions newPageNo vertexMap ∅

/-- `flush_current_page` of `do_split`: the cleared builder and the new locations. -/
def flushCurrentPage (cfg : Config) (env : SmoEnv) (builder : CsrPageBuilder)
    (locs : Locations) : DbM (CsrPageBuilder × Locations) :=
  if builder.isEmpty then pure (builder, locs)
  else match builder.build cfg with
    | .error e => throw e
    | .ok (page, vertexMap, builder) => do
      let newPageNo ← allocateCsrPage
      copyIntoPool env "SMO split: allocated page already exists in buffer pool" newPageNo page
      let locs ← prepareVersions newPageNo vertexMap locs
      return (builder, locs)

/-- One vertex of the packing loop of `do_split`. -/
def packVertex (cfg : Config) (env : SmoEnv) (graph : AdjMap) (v : VId)
    (builder : CsrPageBuilder) (locs : Locations) : DbM (CsrPageBuilder × Locations) :=
  match builder.addVertex cfg v (graph.get v) (env.slots v) with
  | .error e => throw e
  | .ok (some builder) => return (builder, locs)
  | .ok none => do
    let (builder, locs) ← flushCurrentPage cfg env builder locs
    match builder.addVertex cfg v (graph.get v) (env.slots v) with
    | .error e => throw e
    | .ok none => throw "Failed to pack vertex into empty page"
    | .ok (some builder) => return (builder, locs)

/-- The packing loop of `do_split`. -/
def packVertices (cfg : Config) (env : SmoEnv) (graph : AdjMap) :
    List VId → CsrPageBuilder → Locations → DbM (CsrPageBuilder × Locations)
  | [], builder, locs => pure (builder, locs)
  | v :: vs, builder, locs =>
    if v ∈ graph then do
      let (builder, locs) ← packVertex cfg env graph v builder locs
      packVertices cfg env graph vs builder locs
    else packVertices cfg env graph vs builder locs

/-- `do_split`. -/
def doSplit (cfg : Config) (env : SmoEnv) (graph : AdjMap) : DbM Locations := do
  let sortedVertices := gorderReorderingOptimized cfg env.gorder graph 20
  let (builder, locs) ← packVertices cfg env graph sortedVertices CsrPageBuilder.init ∅
  let (_, locs) ← flushCurrentPage cfg env builder locs
  return locs

/-- The giant vertices of the merged graph, written to the giant store one after another. -/
def persistGiants (cfg : Config) (env : SmoEnv) (graph : AdjMap) :
    List VId → List VId → DbM (List VId)
  | [], giants => pure giants
  | v :: vs, giants => fun db =>
    if db.vertexIndex.isGiantVertex v ∨ (graph.get v).length ≥ cfg.giantDegreeBound then
      if env.putOk v then
        persistGiants cfg env graph vs (v :: giants)
          { db with giantDb := db.giantDb.insertVertex v (graph.get v) }
      else .error "SMO: failed to persist promoted giant vertex" db
    else persistGiants cfg env graph vs giants db

/-- What a consolidation prepares before it installs the forwarder. -/
structure Replacement where
  locations : Locations
  giantVertices : List VId

/-- From the drained deltas to the replacement pages; `none` when the merged graph is empty. -/
def buildReplacement (cfg : Config) (env : SmoEnv) (oldPageNo : PageNo)
    (deltas : List DeltaRecord) : DbM (Option Replacement) := do
  let db ← get
  let graph := buildMergedGraph cfg (db.csrPool.page oldPageNo) deltas db.vertexIndex db.giantDb
  if graph.keys.isEmpty then return none
  else
    let giants ← persistGiants cfg env graph (env.graphOrder.order graph.keys) []
    let locations ←
      if estimatePageBytes cfg graph > cfg.pageSize then doSplit cfg env graph
      else doNoSplit cfg env graph
    return some ⟨locations, giants⟩

/-! ## The version switch -/

/-- The forwarder with the new page of every vertex, installed on the old page's entry. -/
def installForwarder (oldPageNo : PageNo) (locs : Locations) : DbM Nat := fun db =>
  let (f, pm) := db.pageMap.makeForwarder fun v => (locs.lookup v).map fun p => p.desired.pageNo
  .ok f { db with pageMap := pm.installForwarderFor oldPageNo f }

/-- A stray record, prepended to its vertex's chain and appended to the new page's chain. -/
def rerouteStray (cfg : Config) (locs : Locations) (forwarder : Nat) (delta : DeltaRecord) :
    DbM Unit :=
  if delta.target ≠ .edge then pure ()
  else match locs.lookup delta.first with
    | none => throw "SMO stray delta source is missing from replacement pages"
    | some newLoc => do
      let db ← get
      let record := { delta with next := db.vertexIndex.deltaHeads delta.first }
      let loc ← onPageMap (PageMap.insertDeltaAndGetLoc cfg newLoc.desired.pageNo record)
      modify fun db => { db with
        vertexIndex := db.vertexIndex.setDeltaHead delta.first (some loc)
        pageMap := db.pageMap.noteReroutedTail forwarder delta.first loc }

/-- The loop over the strays. -/
def rerouteStrays (cfg : Config) (locs : Locations) (forwarder : Nat) :
    List DeltaRecord → DbM Unit
  | [] => pure ()
  | delta :: stray => do
    rerouteStray cfg locs forwarder delta
    rerouteStrays cfg locs forwarder stray

/-- `finalize_consolidation` for one vertex: cut the chain behind the first rerouted record, or
drop it, and publish the new version. -/
def finalizeVertex (giants : List VId) (forwarder : Nat) (v : VId)
    (prepared : PreparedVertexVersion) : DbM Unit := fun db =>
  let boundary := (db.pageMap.forwarders forwarder).reroutedTail v
  let pageMap := match boundary with
    | some loc => db.pageMap.truncateChainAt loc
    | none => db.pageMap
  let newHead := match boundary with
    | some _ => db.vertexIndex.deltaHeads v
    | none => none
  let vi := (db.vertexIndex.setDeltaHead v newHead).setVertexType v
    (if v ∈ giants then .giant else .normal)
  match vi.publishPreparedVersion v prepared with
  | none => .error "SMO vertex version CAS failed" { db with pageMap := pageMap, vertexIndex := vi }
  | some vi => .ok () { db with pageMap := pageMap, vertexIndex := vi }

/-- The loop of `finalize_consolidation` over the new locations. -/
def finalizeVertices (giants : List VId) (forwarder : Nat) (locs : Locations) :
    List VId → DbM Unit
  | [] => pure ()
  | v :: vs =>
    match locs.lookup v with
    | none => finalizeVertices giants forwarder locs vs
    | some prepared => do
      finalizeVertex giants forwarder v prepared
      finalizeVertices giants forwarder locs vs

/-- The end of `publish_version_switch`: the forwarder goes, and the old page waits for the
reclamation of the versions that named it. -/
def detachOldPage (oldPageNo : PageNo) : DbM Unit :=
  modify fun db => { db with
    pageMap := db.pageMap.detachForwarderFor oldPageNo
    csrPool := { db.csrPool with retired := oldPageNo :: db.csrPool.retired } }

/-- `fetch_deltas_with_mark` on the page map of the database. -/
def fetchDeltas (pageNo : PageNo) : DbM (List DeltaRecord) := fun db =>
  let (deltas, pm) := db.pageMap.fetchDeltasWithMark pageNo
  .ok deltas { db with pageMap := pm }

/-- The ways `consolidate_pages` returns normally. -/
inductive SmoExit where
  | disabled
  | belowThreshold
  | noDeltas
  | emptyGraph
  | published
  deriving DecidableEq, Repr

/-- The threshold of the safety check. -/
def safetyThreshold (cfg : Config) (env : SmoEnv) : Nat :=
  if env.requestedThreshold = 0 then cfg.maxDeltaChainLength else env.requestedThreshold

/-- From the installed replacement to the published one. -/
def publishReplacement (cfg : Config) (env : SmoEnv) (oldPageNo : PageNo) (r : Replacement) :
    DbM Unit := do
  let forwarder ← installForwarder oldPageNo r.locations
  let stray ← fetchDeltas oldPageNo
  rerouteStrays cfg r.locations forwarder stray
  finalizeVertices r.giantVertices forwarder r.locations
    (env.locationOrder.order r.locations.keys)
  detachOldPage oldPageNo

/-- `consolidate_pages`. -/
def consolidatePages (cfg : Config) (env : SmoEnv) (oldPageNo : PageNo) : DbM SmoExit := do
  let db ← get
  if !env.enabled then return .disabled
  else if db.pageMap.getDeltaChainLength oldPageNo < safetyThreshold cfg env then
    return .belowThreshold
  else
    let deltas ← fetchDeltas oldPageNo
    if deltas.isEmpty then return .noDeltas
    else
      match ← buildReplacement cfg env oldPageNo deltas with
      | none => return .emptyGraph
      | some r =>
        publishReplacement cfg env oldPageNo r
        return .published

/-! ## What a run of the page writers is -/

section

variable {cfg : Config} {env : SmoEnv} {graph : AdjMap} {db db' : Db} {locs locs' : Locations}
  {builder builder' : CsrPageBuilder} {v : VId}

theorem doNoSplit_cases (h : doNoSplit cfg env graph db = .ok locs db') :
    ∃ q page vm message db1 db2, buildFromAdjacencyMap cfg env.slots
        ((env.viewOrder.order graph.keys).map fun v => (v, graph.get v)) = .ok (page, vm) ∧
      allocateCsrPage db = .ok q db1 ∧ copyIntoPool env message q page db1 = .ok () db2 ∧
      prepareVersions q vm ∅ db2 = .ok locs db' := by
  unfold doNoSplit at h
  obtain ⟨q, db1, hal, h⟩ := bind_eq_ok.1 h
  rcases hbuild : buildFromAdjacencyMap cfg env.slots
      ((env.viewOrder.order graph.keys).map fun v => (v, graph.get v)) with e | ⟨page, vm⟩ <;>
    rw [hbuild] at h
  · cases h
  · obtain ⟨⟨⟩, db2, hcopy, hprep⟩ := bind_eq_ok.1 h
    exact ⟨q, page, vm, _, db1, db2, rfl, hal, hcopy, hprep⟩

theorem flushCurrentPage_cases
    (h : flushCurrentPage cfg env builder locs db = .ok (builder', locs') db') :
    (builder.entries = [] ∧ builder' = builder ∧ locs' = locs ∧ db' = db) ∨
    ∃ q page vm message db1 db2, builder.build cfg = .ok (page, vm, builder') ∧
      allocateCsrPage db = .ok q db1 ∧ copyIntoPool env message q page db1 = .ok () db2 ∧
      prepareVersions q vm locs db2 = .ok locs' db' := by
  unfold flushCurrentPage at h
  split_ifs at h with hempty
  · obtain ⟨he, rfl⟩ := pure_eq_ok.1 h
    cases he
    exact .inl ⟨List.isEmpty_iff.1 hempty, rfl, rfl, rfl⟩
  · rcases hbuild : builder.build cfg with e | ⟨page, vm, b⟩ <;> rw [hbuild] at h
    · cases h
    · obtain ⟨q, db1, hal, h⟩ := bind_eq_ok.1 h
      obtain ⟨⟨⟩, db2, hcopy, h⟩ := bind_eq_ok.1 h
      obtain ⟨locs1, db3, hprep, h⟩ := bind_eq_ok.1 h
      obtain ⟨he, rfl⟩ := pure_eq_ok.1 h
      cases he
      exact .inr ⟨q, page, vm, _, db1, db2, rfl, hal, hcopy, hprep⟩

theorem packVertex_cases
    (h : packVertex cfg env graph v builder locs db = .ok (builder', locs') db') :
    (builder.addVertex cfg v (graph.get v) (env.slots v) = .ok (some builder') ∧
      locs' = locs ∧ db' = db) ∨
    ∃ b, flushCurrentPage cfg env builder locs db = .ok (b, locs') db' ∧
      b.addVertex cfg v (graph.get v) (env.slots v) = .ok (some builder') := by
  unfold packVertex at h
  rcases hadd : builder.addVertex cfg v (graph.get v) (env.slots v) with e | (_ | b) <;>
    rw [hadd] at h
  · cases h
  · obtain ⟨⟨b, locs1⟩, db1, hflush, h⟩ := bind_eq_ok.1 h
    rcases hadd' : b.addVertex cfg v (graph.get v) (env.slots v) with e | (_ | b') <;>
      simp only [hadd'] at h
    · cases h
    · cases h
    · obtain ⟨he, rfl⟩ := pure_eq_ok.1 h
      cases he
      exact .inr ⟨b, hflush, hadd'⟩
  · obtain ⟨he, rfl⟩ := pure_eq_ok.1 h
    cases he
    exact .inl ⟨rfl, rfl, rfl⟩

end

/-! ## What building the replacement leaves alone -/

/-- A property of the delta records and of the heads of the delta chains. -/
def OnDeltas (P : PageMap → (VId → Option DeltaLoc) → Prop) (db : Db) : Prop :=
  P db.pageMap db.vertexIndex.deltaHeads

section

variable {cfg : Config} {env : SmoEnv} {P : PageMap → (VId → Option DeltaLoc) → Prop}

theorem keeps_copyIntoPool (message : String) (q : PageNo) (page : CsrPage) :
    (copyIntoPool env message q page).Keeps (OnDeltas P) := by
  intro db h
  unfold copyIntoPool
  cases db.csrPool.frames q with
  | some f => exact h
  | none =>
    cases env.claim q with
    | error e => exact h
    | ok victim =>
      cases hcp : db.csrPool.bufPageCp q page victim with
      | none => simp only [hcp]; exact h
      | some pool => simp only [hcp]; exact h

theorem keeps_prepareVersions (q : PageNo) (vm : List (VId × Nat)) (locs : Locations) :
    (prepareVersions q vm locs).Keeps (OnDeltas P) := by
  induction vm generalizing locs with
  | nil => exact .pure _
  | cons x vm ih => exact fun db h => ih _ _ h

theorem keeps_allocateCsrPage : allocateCsrPage.Keeps (OnDeltas P) := fun _ h => h

section

variable (graph : AdjMap)

theorem keeps_doNoSplit : (doNoSplit cfg env graph).Keeps (OnDeltas P) := by
  refine .bind keeps_allocateCsrPage fun q => ?_
  split
  · exact .throw _
  · exact .bind (keeps_copyIntoPool _ _ _) fun _ => keeps_prepareVersions _ _ _

theorem keeps_flushCurrentPage (builder : CsrPageBuilder) (locs : Locations) :
    (flushCurrentPage cfg env builder locs).Keeps (OnDeltas P) := by
  unfold flushCurrentPage
  split_ifs
  · exact .pure _
  · split
    · exact .throw _
    · exact .bind keeps_allocateCsrPage fun _ => .bind (keeps_copyIntoPool _ _ _) fun _ =>
        .bind (keeps_prepareVersions _ _ _) fun _ => .pure _

theorem keeps_packVertex (v : VId) (builder : CsrPageBuilder) (locs : Locations) :
    (packVertex cfg env graph v builder locs).Keeps (OnDeltas P) := by
  unfold packVertex
  split
  · exact .throw _
  · exact .pure _
  · refine .bind (keeps_flushCurrentPage _ _) fun x => ?_
    split
    split
    · exact .throw _
    · exact .throw _
    · exact .pure _

theorem keeps_packVertices (vs : List VId) (builder : CsrPageBuilder) (locs : Locations) :
    (packVertices cfg env graph vs builder locs).Keeps (OnDeltas P) := by
  induction vs generalizing builder locs with
  | nil => exact .pure _
  | cons v vs ih =>
    unfold packVertices
    split_ifs
    · exact .bind (keeps_packVertex _ _ _ _) fun _ => ih _ _
    · exact ih _ _

theorem keeps_doSplit : (doSplit cfg env graph).Keeps (OnDeltas P) :=
  .bind (keeps_packVertices _ _ _ _) fun _ => .bind (keeps_flushCurrentPage _ _) fun _ => .pure _

theorem keeps_persistGiants (vs giants : List VId) :
    (persistGiants cfg env graph vs giants).Keeps (OnDeltas P) := by
  induction vs generalizing giants with
  | nil => exact .pure _
  | cons v vs ih =>
    intro db h
    unfold persistGiants
    split_ifs
    · exact ih _ _ h
    · exact h
    · exact ih _ _ h

end

/-- Building the replacement touches neither the page map nor the heads of the delta chains. -/
theorem keeps_buildReplacement (p : PageNo) (deltas : List DeltaRecord) :
    (buildReplacement cfg env p deltas).Keeps (OnDeltas P) := by
  refine .bind (fun _ h => h) fun db => ?_
  dsimp only
  split_ifs
  · exact .pure _
  all_goals
    refine .bind (keeps_persistGiants _ _ _) fun _ => ?_
    first
      | exact .bind (keeps_doSplit _) fun _ => .pure _
      | exact .bind (keeps_doNoSplit _) fun _ => .pure _

end

end BwGraph
