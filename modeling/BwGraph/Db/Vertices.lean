import BwGraph.Db.Refinement

/-
  New vertices: `insert_single_vertex`, `insert_vertex_with_neighbors` (`db_dyn.cc`) and the calls
  of the vertex index they use, in runs with the writes, the consolidations and the recycling of
  replaced pages. A new vertex gets a location without an entry there: page 0, or the page of most
  of its neighbours.

  `Anchored` is the invariant: every vertex refers to a page in use, and a page that was handed out
  again is referred to by the vertices it was handed out for alone. It is kept as long as a new
  vertex is placed on a page in use, and a consolidation finds all vertices of its page in the
  merged graph (`HostedStep`). Without this a vertex is left on the replaced page
  (`insertSingleVertex_dangles`).
-/

namespace BwGraph

open VertexIndex

open EStateM (bind_eq_ok pure_eq_ok)

/-! ## The calls -/

namespace VertexIndex

/-- `items.emplace_back(page_no, offset)`, and an empty delta head. -/
def emplaceBack (vi : VertexIndex) (pageNo : PageNo) (offset : Nat) : VertexIndex where
  size := vi.size + 1
  items := Function.update vi.items vi.size ⟨⟨vi.nextVersion, pageNo, offset⟩, .normal, false⟩
  deltaHeads := Function.update vi.deltaHeads vi.size none
  nextVersion := vi.nextVersion + 1

/-- `allocate_new_vertex`. -/
def allocateNewVertex (vi : VertexIndex) : VId × VertexIndex := (vi.size, vi.emplaceBack 0 0)

end VertexIndex

/-- `update_vertex_loc`. -/
def updateVertexLoc (v : VId) (pageNo : PageNo) (offset : Nat) : DbM Unit := fun db =>
  let (prepared, vi) := db.vertexIndex.prepareVertexVersion v pageNo offset
  match vi.publishPreparedVersion v prepared with
  | none => .error "vertex location CAS failed" { db with vertexIndex := vi }
  | some vi => .ok () { db with vertexIndex := vi }

/-- `insert_single_vertex`. The id of a vertex that never existed is not looked at: the new vertex
is the next one. -/
def insertSingleVertex (v : VId) : DbM Bool := fun db =>
  let vi := db.vertexIndex
  if v < vi.size then
    if (vi.items v).isDelete then
      .ok true { db with vertexIndex := { vi with
        items := Function.update vi.items v { vi.items v with isDelete := false } } }
    else .ok false db
  else .ok true { db with vertexIndex := vi.emplaceBack 0 0 }

/-- `page_count`, `best_page` and `max_count`. -/
structure PageVote where
  pageCount : PageNo → Nat
  bestPage : PageNo
  maxCount : Nat

/-- The vote of one neighbour. -/
def PageVote.add (vote : PageVote) (pageNo : PageNo) : PageVote :=
  let count := vote.pageCount pageNo + 1
  let pageCount := Function.update vote.pageCount pageNo count
  if count > vote.maxCount then ⟨pageCount, pageNo, count⟩
  else { vote with pageCount := pageCount }

/-- The first page that the most neighbours are on; page 0 without neighbours. -/
def bestPage (vi : VertexIndex) (neighbors : List VId) : PageNo :=
  (neighbors.foldl (fun (vote : PageVote) n => vote.add (vi.items n).cur.pageNo)
    ⟨fun _ => 0, 0, 0⟩).bestPage

/-- The loop of `insert_edge` over the neighbours; `clock` is the time at each of its turns. -/
def insertEdges (cfg : Config) (src : VId) : List VId → (Nat → Nat) → DbM Unit
  | [], _ => pure ()
  | n :: neighbors, clock => do
    let _ ← insertEdge cfg src n (clock 0)
    insertEdges cfg src neighbors fun i => clock (i + 1)

/-- `insert_vertex_with_neighbors`. -/
def insertVertexWithNeighbors (cfg : Config) (neighbors : List VId) (clock : Nat → Nat) :
    DbM VId := do
  let (v, vi) := (← get).vertexIndex.allocateNewVertex
  modify fun db => { db with vertexIndex := vi }
  updateVertexLoc v (bestPage vi neighbors) 0
  insertEdges cfg v neighbors clock
  return v

/-! ## Runs with new vertices -/

/-- The events of a run that creates vertices. -/
inductive GrowEvent where
  | call (e : DbEvent)
  | insertSingleVertex (v : VId)
  | insertVertexWithNeighbors (neighbors : List VId) (clock : Nat → Nat)

/-- One call that returned. -/
inductive GrowCall (cfg : Config) (db : Db) : GrowEvent → Db → Prop
  | call {e : DbEvent} {db' : Db} (h : SeqStep cfg db e db') : GrowCall cfg db (.call e) db'
  | insertSingleVertex {v : VId} {b : Bool} {db' : Db} (h : insertSingleVertex v db = .ok b db') :
      GrowCall cfg db (.insertSingleVertex v) db'
  | insertVertexWithNeighbors {neighbors : List VId} {clock : Nat → Nat} {v : VId} {db' : Db}
      (h : insertVertexWithNeighbors cfg neighbors clock db = .ok v db') :
      GrowCall cfg db (.insertVertexWithNeighbors neighbors clock) db'

/-- The vertices that a page number was last handed out again for, if it ever was. -/
abbrev Reused := PageNo → Option (Set VId)

/-- A page that leaves the free list was handed out for the vertices that move to it. -/
def handOut (db db' : Db) (reused : Reused) : Reused := fun q =>
  if q ∈ db.csrPool.diskManager.freePages ∧ q ∉ db'.csrPool.diskManager.freePages then
    some {v | (db'.location v).1 = q ∧ (db.location v).1 ≠ q}
  else reused q

/-- A call, with the account of the pages handed out again. -/
def GrowStep (cfg : Config) (s : Db × Reused) (e : GrowEvent) (s' : Db × Reused) : Prop :=
  GrowCall cfg s.1 e s'.1 ∧ s'.2 = handOut s.1 s'.1 s.2

/-- The current version of `v` refers neither to a free page nor to one that was handed out again
for other vertices. -/
def RefersLive (s : Db × Reused) (v : VId) : Prop :=
  (s.1.location v).1 ∉ s.1.csrPool.diskManager.freePages ∧
    ∀ owners, s.2 (s.1.location v).1 = some owners → v ∈ owners

/-- Page `q` is in use and was not handed out again. -/
def CanHost (s : Db × Reused) (q : PageNo) : Prop := s.1.csrPool.InUse q ∧ s.2 q = none

/-- The consolidation of `p` passes its checks and finds records to merge. -/
def Merges (cfg : Config) (env : SmoEnv) (db : Db) (p : PageNo) : Prop :=
  env.enabled = true ∧ safetyThreshold cfg env ≤ db.pageMap.getDeltaChainLength p ∧
    db.pageMap.pageRecs p ≠ []

/-- Vertex `v` has an entry on page `p`, or an insertion pending there. -/
def OnPage (db : Db) (p : PageNo) (v : VId) : Prop :=
  (∃ i, (db.csrPool.page p).HasEntry v i) ∨
    ∃ r ∈ db.pageMap.pageRecs p, r.target = .edge ∧ r.type = .insert ∧ r.first = v

/-- A new vertex is placed on a page in use that was not handed out again; a consolidation that
merges finds every vertex located on its page there. -/
def HostedStep (cfg : Config) (s : Db × Reused) : GrowEvent → Prop
  | .insertSingleVertex v => s.1.vertexIndex.size ≤ v → CanHost s 0
  | .insertVertexWithNeighbors neighbors _ =>
      CanHost s (bestPage s.1.vertexIndex.allocateNewVertex.2 neighbors)
  | .call (.consolidate p env) => Merges cfg env s.1 p →
      ∀ v, v < s.1.vertexIndex.size → (s.1.location v).1 = p → OnPage s.1 p v
  | .call _ => True

variable {cfg : Config} {db db' : Db} {reused : Reused} {v : VId}

/-! ## The invariant -/

/-- The part of the invariant that is about the database alone. -/
structure Rooted (db : Db) : Prop where
  pool : db.csrPool.Ok
  alloc : db.csrPool.AllocOk
  pageMap : db.pageMap.Ok
  noForwarder : ∀ p, db.pageMap.acquireForwarderFor p = none
  inUse : ∀ v, v < db.vertexIndex.size → db.csrPool.InUse (db.location v).1
  pending : ∀ p, db.pageMap.pageRecs p ≠ [] → db.csrPool.InUse p

/-- Every vertex refers to a page in use, and a page handed out again has its owners alone. -/
structure Anchored (s : Db × Reused) : Prop where
  rooted : Rooted s.1
  reusedLt : ∀ q, s.2 q ≠ none → q < s.1.csrPool.diskManager.globalPageCount
  owner : ∀ v, v < s.1.vertexIndex.size → ∀ owners, s.2 (s.1.location v).1 = some owners →
    v ∈ owners

theorem Anchored.refersLive {s : Db × Reused} (h : Anchored s) (hv : v < s.1.vertexIndex.size) :
    RefersLive s v :=
  ⟨(h.rooted.inUse v hv).2.1, h.owner v hv⟩

variable {q : PageNo}

theorem handOut_of_inUse (hq : db.csrPool.InUse q) : handOut db db' reused q = reused q :=
  if_neg fun hc => hq.2.1 hc.1

section

variable (h : Anchored (db, reused))
include h

theorem Anchored.handOut_ne_none
    (hcount : db.csrPool.diskManager.globalPageCount ≤ db'.csrPool.diskManager.globalPageCount)
    (hq : handOut db db' reused q ≠ none) : q < db'.csrPool.diskManager.globalPageCount := by
  refine Nat.lt_of_lt_of_le ?_ hcount
  by_cases hf : q ∈ db.csrPool.diskManager.freePages
  · exact h.rooted.alloc.freeLt q hf
  · refine h.reusedLt q ?_
    rwa [handOut, if_neg fun hc => hf hc.1] at hq

/-- A page that was unused belongs to the vertices that moved to it. -/
theorem Anchored.mem_handOut (hv : v < db.vertexIndex.size)
    (hold : db.csrPool.Unused (db'.location v).1) (hnew : db'.csrPool.InUse (db'.location v).1)
    {owners : Set VId} (ho : handOut db db' reused (db'.location v).1 = some owners) :
    v ∈ owners := by
  unfold handOut at ho
  split_ifs at ho with hc
  · cases ho
    refine ⟨rfl, fun he => ?_⟩
    exact (h.rooted.inUse v hv).not_unused (he ▸ hold)
  · -- a page number that was never allocated was never handed out again
    rcases hold with hf | hge
    · exact absurd ⟨hf, hnew.2.1⟩ hc
    · have hlt := h.reusedLt _ fun hn => Option.some_ne_none owners (ho.symm.trans hn)
      exact absurd hlt (Nat.not_lt.2 hge)

variable (h' : Rooted db')
  (hcount : db.csrPool.diskManager.globalPageCount ≤ db'.csrPool.diskManager.globalPageCount)
include h' hcount

/-- A step after which every vertex is where it was, on a page that was unused, or new on a page
that can host it. -/
theorem Anchored.step_of_moved (hloc : ∀ v, v < db'.vertexIndex.size →
      (v < db.vertexIndex.size ∧ (db'.location v).1 = (db.location v).1) ∨
      (v < db.vertexIndex.size ∧ db.csrPool.Unused (db'.location v).1) ∨
      CanHost (db, reused) (db'.location v).1) : Anchored (db', handOut db db' reused) := by
  refine ⟨h', fun q hq => h.handOut_ne_none hcount hq, fun v hv owners ho => ?_⟩
  have ho : handOut db db' reused (db'.location v).1 = some owners := ho
  rcases hloc v hv with ⟨hlt, he⟩ | ⟨hlt, hu⟩ | hhost
  · rw [he, handOut_of_inUse (h.rooted.inUse v hlt)] at ho
    exact h.owner v hlt owners ho
  · exact h.mem_handOut hlt hu (h'.inUse v hv) ho
  · rw [handOut_of_inUse hhost.1] at ho
    exact absurd (ho.symm.trans hhost.2) (Option.some_ne_none owners)

/-- The common case: the vertices stay where they are. -/
theorem Anchored.step_of_kept (hvi : db'.vertexIndex.size = db.vertexIndex.size)
    (hloc : ∀ v, db'.location v = db.location v) : Anchored (db', handOut db db' reused) :=
  h.step_of_moved h' hcount fun v hv => .inl ⟨hvi ▸ hv, by rw [hloc]⟩

end

/-! ## Writes -/

theorem Rooted.written {type : DeltaType} {src dst : VId} {time : Nat} {loc : DeltaLoc}
    (h : Rooted db) (hw : Written db db' type src dst time loc)
    (hsrc : src < db.vertexIndex.size) : Rooted db' := by
  refine ⟨hw.csrPool ▸ h.pool, hw.csrPool ▸ h.alloc, hw.appends.ok,
    fun p => (hw.appends.forwarders.acquire p).trans (h.noForwarder p), fun v hv => ?_,
    fun p hp => ?_⟩
  · rw [hw.csrPool, hw.location]
    exact h.inUse v (hw.size ▸ hv)
  · rw [hw.csrPool]
    by_cases hps : p = (db.location src).1
    · rw [hps]
      exact h.inUse src hsrc
    · rw [hw.appends.recs_ne p hps] at hp
      exact h.pending p hp

/-- `insert_edge` and `delete_edge` move no vertex. -/
structure Appended (db db' : Db) : Prop where
  rooted : Rooted db'
  csrPool : db'.csrPool = db.csrPool
  size : db'.vertexIndex.size = db.vertexIndex.size
  location : ∀ v, db'.location v = db.location v

theorem Appended.refl (h : Rooted db) : Appended db db := ⟨h, rfl, rfl, fun _ => rfl⟩

theorem Appended.trans {db'' : Db} (h : Appended db db') (h' : Appended db' db'') :
    Appended db db'' :=
  ⟨h'.rooted, h'.csrPool.trans h.csrPool, h'.size.trans h.size,
    fun v => (h'.location v).trans (h.location v)⟩

theorem Rooted.appendEdge {type : DeltaType} {src dst : VId} {time : Nat} (h : Rooted db)
    (hsrc : src < db.vertexIndex.size)
    (hrun : appendEdge cfg type src dst time db = .ok () db') : Appended db db' := by
  obtain ⟨loc, hw⟩ := appendEdge_ok h.pageMap (h.noForwarder _) hrun
  exact ⟨h.written hw hsrc, hw.csrPool, hw.size, hw.location⟩

theorem Rooted.insertEdge {src dst : VId} {time : Nat} {b : Bool} (h : Rooted db)
    (hrun : insertEdge cfg src dst time db = .ok b db') : Appended db db' := by
  rcases insertEdge_cases hrun with ⟨-, hacc, happ⟩ | ⟨-, -, rfl⟩
  · exact h.appendEdge hacc.1 happ
  · exact .refl h

variable {clock : Nat → Nat} {p : PageNo}

variable {neighbors : List VId}

theorem Rooted.insertEdges {src : VId} (h : Rooted db)
    (hrun : insertEdges cfg src neighbors clock db = .ok () db') : Appended db db' := by
  induction neighbors generalizing db clock with
  | nil =>
    obtain ⟨-, rfl⟩ := pure_eq_ok.1 hrun
    exact .refl h
  | cons n ns ih =>
    obtain ⟨b, db1, hone, hrest⟩ := bind_eq_ok.1 hrun
    have h1 := h.insertEdge hone
    exact h1.trans (ih h1.rooted hrest)

theorem Anchored.appended (h : Anchored (db, reused)) (ha : Appended db db') :
    Anchored (db', handOut db db' reused) :=
  h.step_of_kept ha.rooted (by rw [ha.csrPool]) ha.size ha.location

/-! ## The pool and the consolidations -/

theorem Rooted.repooled (h : Rooted db) (hr : Repooled db db') : Rooted db' := by
  refine ⟨hr.ok, hr.alloc, hr.pageMap ▸ h.pageMap, hr.pageMap ▸ h.noForwarder, fun v hv => ?_,
    fun p hp => ?_⟩
  · rw [hr.location]
    exact hr.inUse _ (h.inUse v (hr.vertexIndex ▸ hv))
  · rw [hr.pageMap] at hp
    exact hr.inUse p (h.pending p hp)

theorem Anchored.repooled (h : Anchored (db, reused)) (hr : Repooled db db')
    (hcount : db.csrPool.diskManager.globalPageCount ≤ db'.csrPool.diskManager.globalPageCount) :
    Anchored (db', handOut db db' reused) :=
  h.step_of_kept (h.rooted.repooled hr) hcount (by rw [hr.vertexIndex]) hr.location

theorem Rooted.drained (h : Rooted db) (hd : DrainOnly p db db') : Rooted db' := by
  refine ⟨hd.csrPool ▸ h.pool, hd.csrPool ▸ h.alloc, hd.drains.ok,
    fun q => (hd.drains.forwarders.acquire q).trans (h.noForwarder q), fun v hv => ?_,
    fun q hq => ?_⟩
  · rw [hd.csrPool, hd.location]
    exact h.inUse v (hd.vertexIndex ▸ hv)
  · rw [hd.csrPool]
    by_cases hqp : q = p
    · rw [hqp, hd.drains.recs_self] at hq
      exact absurd rfl hq
    · rw [hd.drains.recs_ne q hqp] at hq
      exact h.pending q hq

theorem Anchored.drained (h : Anchored (db, reused)) (hd : DrainOnly p db db') :
    Anchored (db', handOut db db' reused) :=
  h.step_of_kept (h.rooted.drained hd) (by rw [hd.csrPool]) (by rw [hd.vertexIndex]) hd.location

theorem mem_mergedGraph_of_onPage (h : OnPage db p v) : v ∈ mergedGraph cfg db p :=
  mem_buildMergedGraph.2 h

/-- Publishing a page whose vertices are all merged leaves no vertex on it. -/
theorem Rooted.published {p : PageNo} {locs : Locations} (h : Rooted db)
    (hrecs : db.pageMap.pageRecs p ≠ [])
    (hall : ∀ v, v < db.vertexIndex.size → (db.location v).1 = p → OnPage db p v)
    (hp : Published cfg p (mergedGraph cfg db p) db db' locs) : Rooted db' := by
  have hin := h.pending p hrecs
  refine ⟨hp.poolOk, hp.allocOk hin, hp.pageMap, fun q => ?_, fun v hv => ?_, fun q hq => ?_⟩
  · by_cases hq : q = p
    · rw [hq]
      exact hp.forwarder_self
    · exact (hp.forwarder_ne q hq).trans (h.noForwarder q)
  · rw [hp.size] at hv
    by_cases hg : v ∈ mergedGraph cfg db p
    · obtain ⟨prepared, hl⟩ := mem_locations.1 ((hp.mem v).2 hg)
      rw [hp.location_switched hl]
      exact hp.inUse_switched hl hin
    · rw [hp.location_kept hg]
      exact hp.inUse_kept (h.inUse v hv) fun he => hg (mem_mergedGraph_of_onPage (hall v hv he))
  · by_cases hqp : q = p
    · rw [hqp, hp.recs_self] at hq
      exact absurd rfl hq
    · rw [hp.recs_ne q hqp] at hq
      exact hp.inUse_kept (h.pending q hq) hqp

theorem Anchored.published {p : PageNo} {locs : Locations} (h : Anchored (db, reused))
    (hrecs : db.pageMap.pageRecs p ≠ [])
    (hall : ∀ v, v < db.vertexIndex.size → (db.location v).1 = p → OnPage db p v)
    (hp : Published cfg p (mergedGraph cfg db p) db db' locs) :
    Anchored (db', handOut db db' reused) := by
  refine h.step_of_moved (h.rooted.published hrecs hall hp) hp.pages.countLe fun v hv => ?_
  rw [hp.size] at hv
  by_cases hg : v ∈ mergedGraph cfg db p
  · obtain ⟨prepared, hl⟩ := mem_locations.1 ((hp.mem v).2 hg)
    rw [hp.location_switched hl]
    exact .inr (.inl ⟨hv, (hp.pages.fresh v prepared hl).1⟩)
  · exact .inl ⟨hv, by rw [hp.location_kept hg]⟩

/-- A consolidation that published passed its checks. -/
theorem merges_of_published {env : SmoEnv} (h : consolidatePages cfg env p db = .ok .published db')
    (hrecs : db.pageMap.pageRecs p ≠ []) : Merges cfg env db p := by
  unfold consolidatePages at h
  rw [EStateM.get_bind] at h
  split_ifs at h with hen hlen
  · obtain ⟨he, -⟩ := pure_eq_ok.1 h
    cases he
  · obtain ⟨he, -⟩ := pure_eq_ok.1 h
    cases he
  · exact ⟨by simpa using hen, Nat.not_lt.1 hlen, hrecs⟩

theorem Anchored.consolidate {env : SmoEnv} {p : PageNo} {exit : SmoExit}
    (h : Anchored (db, reused)) (hs : HostedStep cfg (db, reused) (.call (.consolidate p env)))
    (hrun : consolidatePages cfg env p db = .ok exit db') :
    Anchored (db', handOut db db' reused) := by
  rcases consolidatePages_ok h.rooted.pool h.rooted.alloc h.rooted.pageMap hrun with
    ⟨-, rfl⟩ | ⟨-, -, hd⟩ | ⟨-, -, -, hd⟩ | ⟨rfl, hrecs, locs, hp⟩
  · exact h.appended (.refl h.rooted)
  · exact h.drained hd
  · exact h.drained hd
  · exact h.published hrecs (hs (merges_of_published hrun hrecs)) hp

theorem Anchored.seqStep {e : DbEvent} (h : Anchored (db, reused))
    (hs : HostedStep cfg (db, reused) (.call e)) (hstep : SeqStep cfg db e db') :
    Anchored (db', handOut db db' reused) := by
  cases hstep with
  | insertEdge hrun => exact h.appended (h.rooted.insertEdge hrun)
  | deleteEdge hrun =>
    obtain ⟨hsrc, -, happ⟩ := deleteEdge_true hrun
    exact h.appended (h.rooted.appendEdge hsrc happ)
  | consolidate hrun => exact h.consolidate hs hrun
  | load p =>
    have hr := CsrPool.refreshes_load h.rooted.pool p
    exact h.repooled (hr.repooled h.rooted.alloc) hr.globalPageCount
  | evict p =>
    have hr := CsrPool.refreshes_evict h.rooted.pool p
    exact h.repooled (hr.repooled h.rooted.alloc) hr.globalPageCount
  | flush p =>
    have hr := CsrPool.refreshes_flush h.rooted.pool p
    exact h.repooled (hr.repooled h.rooted.alloc) hr.globalPageCount
  | recycle hp =>
    exact h.repooled (repooled_recyclePage h.rooted.pool h.rooted.alloc hp)
      (Nat.le_of_eq (DiskManager.deletePage_globalPageCount _ _).symm)

/-! ## New vertices -/

/-- `db'` is `db` with one more vertex, on page `q`. -/
structure Grows (db db' : Db) (q : PageNo) : Prop where
  csrPool : db'.csrPool = db.csrPool
  pageMap : db'.pageMap = db.pageMap
  size : db'.vertexIndex.size = db.vertexIndex.size + 1
  location_new : (db'.location db.vertexIndex.size).1 = q
  location : ∀ v, v < db.vertexIndex.size → db'.location v = db.location v

theorem Grows.rooted (h : Grows db db' q) (hr : Rooted db) (hq : db.csrPool.InUse q) :
    Rooted db' := by
  refine ⟨h.csrPool ▸ hr.pool, h.csrPool ▸ hr.alloc, h.pageMap ▸ hr.pageMap,
    h.pageMap ▸ hr.noForwarder, fun v hv => ?_, by rw [h.csrPool, h.pageMap]; exact hr.pending⟩
  rw [h.csrPool]
  rcases Nat.lt_succ_iff_lt_or_eq.1 (h.size ▸ hv) with hlt | rfl
  · rw [h.location v hlt]
    exact hr.inUse v hlt
  · rw [h.location_new]
    exact hq

/-- A new vertex, and then records: the vertices of before stay where they are. -/
theorem Anchored.grown {db1 : Db} (h : Anchored (db, reused)) (hg : Grows db db1 q)
    (hq : CanHost (db, reused) q) (ha : Appended db1 db') :
    Anchored (db', handOut db db' reused) := by
  refine h.step_of_moved ha.rooted (by rw [ha.csrPool, hg.csrPool]) fun v hv => ?_
  rw [ha.size, hg.size] at hv
  rw [ha.location]
  rcases Nat.lt_succ_iff_lt_or_eq.1 hv with hlt | rfl
  · exact .inl ⟨hlt, by rw [hg.location v hlt]⟩
  · rw [hg.location_new]
    exact .inr (.inr hq)

theorem grows_emplaceBack (db : Db) (q : PageNo) (offset : Nat) :
    Grows db { db with vertexIndex := db.vertexIndex.emplaceBack q offset } q := by
  refine ⟨rfl, rfl, rfl, ?_, fun v hv => ?_⟩
  · simp [Db.location, emplaceBack]
  · simp [Db.location, emplaceBack, Nat.ne_of_lt hv]

/-- A deletion mark leaves every vertex where it is. -/
theorem location_setDelete (db : Db) (v : VId) (mark : Bool) (w : VId) :
    ({ db with vertexIndex := { db.vertexIndex with
      items := Function.update db.vertexIndex.items v
        { db.vertexIndex.items v with isDelete := mark } } } : Db).location w = db.location w := by
  unfold Db.location
  rw [(items_setDelete db.vertexIndex.items v mark w).1]

theorem Anchored.insertSingleVertex {b : Bool} (h : Anchored (db, reused))
    (hs : HostedStep cfg (db, reused) (.insertSingleVertex v))
    (hrun : insertSingleVertex v db = .ok b db') : Anchored (db', handOut db db' reused) := by
  unfold BwGraph.insertSingleVertex at hrun
  dsimp only at hrun
  split_ifs at hrun with hlt hdel
  · -- a deleted vertex comes back where it was
    cases hrun
    have hloc := location_setDelete db v false
    refine h.appended ⟨⟨h.rooted.pool, h.rooted.alloc, h.rooted.pageMap, h.rooted.noForwarder,
      fun w hw => ?_, h.rooted.pending⟩, rfl, rfl, hloc⟩
    rw [hloc]
    exact h.rooted.inUse w hw
  · cases hrun
    exact h.appended (.refl h.rooted)
  · cases hrun
    have hhost := hs (Nat.not_lt.1 hlt)
    have hg := grows_emplaceBack db 0 0
    exact h.grown hg hhost (.refl (hg.rooted h.rooted hhost.1))

/-- The version of the new vertex is published: nothing else could have changed it. -/
theorem updateVertexLoc_ok {offset : Nat} (hrun : updateVertexLoc v q offset db = .ok () db') :
    db' = { db with vertexIndex := { db.vertexIndex with
      items := Function.update db.vertexIndex.items v { db.vertexIndex.items v with
        cur := ⟨db.vertexIndex.nextVersion, q, offset⟩ }
      nextVersion := db.vertexIndex.nextVersion + 1 } } := by
  simp only [updateVertexLoc, prepareVertexVersion, publishPreparedVersion,
    if_true, EStateM.Result.ok.injEq, true_and] at hrun
  exact hrun.symm

theorem Grows.updateVertexLoc {db1 : Db} {q0 q : PageNo} {offset : Nat} (hg : Grows db db1 q0)
    (hrun : updateVertexLoc db.vertexIndex.size q offset db1 = .ok () db') : Grows db db' q := by
  rw [updateVertexLoc_ok hrun]
  refine ⟨hg.csrPool, hg.pageMap, hg.size, ?_, fun v hv => ?_⟩
  · simp [Db.location]
  · have hloc := hg.location v hv
    unfold Db.location at hloc ⊢
    simpa [Nat.ne_of_lt hv] using hloc

/-- What the parts of `insert_vertex_with_neighbors` do. -/
theorem insertVertexWithNeighbors_ok
    (hrun : insertVertexWithNeighbors cfg neighbors clock db = .ok v db') :
    v = db.vertexIndex.size ∧ ∃ db1,
      updateVertexLoc v (bestPage (db.vertexIndex.emplaceBack 0 0) neighbors) 0
        { db with vertexIndex := db.vertexIndex.emplaceBack 0 0 } = .ok () db1 ∧
      insertEdges cfg v neighbors clock db1 = .ok () db' := by
  unfold insertVertexWithNeighbors at hrun
  rw [EStateM.get_bind] at hrun
  obtain ⟨⟨⟩, db1, hset, hrun⟩ := bind_eq_ok.1 hrun
  cases hset
  obtain ⟨⟨⟩, db2, hupd, hrun⟩ := bind_eq_ok.1 hrun
  obtain ⟨⟨⟩, db3, hedges, hret⟩ := bind_eq_ok.1 hrun
  obtain ⟨rfl, rfl⟩ := pure_eq_ok.1 hret
  exact ⟨rfl, db2, hupd, hedges⟩

theorem Anchored.insertVertexWithNeighbors (h : Anchored (db, reused))
    (hs : HostedStep cfg (db, reused) (.insertVertexWithNeighbors neighbors clock))
    (hrun : insertVertexWithNeighbors cfg neighbors clock db = .ok v db') :
    Anchored (db', handOut db db' reused) := by
  obtain ⟨rfl, db2, hupd, hedges⟩ := insertVertexWithNeighbors_ok hrun
  have hg := (grows_emplaceBack db 0 0).updateVertexLoc hupd
  exact h.grown hg hs ((hg.rooted h.rooted hs.1).insertEdges hedges)

/-! ## Runs -/

theorem Anchored.step {s s' : Db × Reused} {e : GrowEvent} (h : Anchored s)
    (hs : HostedStep cfg s e) (hstep : GrowStep cfg s e s') : Anchored s' := by
  obtain ⟨db, reused⟩ := s
  obtain ⟨db', reused'⟩ := s'
  obtain ⟨hcall, hr⟩ := hstep
  have hr : reused' = handOut db db' reused := hr
  subst hr
  cases hcall with
  | call hseq => exact h.seqStep hs hseq
  | insertSingleVertex hrun => exact h.insertSingleVertex hs hrun
  | insertVertexWithNeighbors hrun => exact h.insertVertexWithNeighbors hs hrun

theorem Loaded.anchored {paged : Set VId} (h : Loaded cfg paged db)
    (hall : ∀ v, v < db.vertexIndex.size → db.csrPool.InUse (db.location v).1) :
    Anchored (db, fun _ => none) :=
  ⟨⟨h.pool, h.alloc, h.pageMap, h.noForwarder, hall, fun p hp => absurd (h.noPending p) hp⟩,
    fun _ hq => absurd rfl hq, fun _ _ _ ho => absurd ho.symm (Option.some_ne_none _)⟩

/-- In every run in which new vertices are placed on pages in use that were not handed out again
and consolidations find all vertices of their page, no current version refers to a free page or to
one that was handed out again for other vertices. -/
theorem refersLive_of_hosted {paged : Set VId} {db0 : Db} {es : List GrowEvent}
    {s : Db × Reused} (h0 : Loaded cfg paged db0)
    (hall : ∀ v, v < db0.vertexIndex.size → db0.csrPool.InUse (db0.location v).1)
    (run : Steps (guarded (HostedStep cfg) (GrowStep cfg)) (db0, fun _ => none) es s)
    (hv : v < s.1.vertexIndex.size) : RefersLive s v :=
  (run.inv (fun _ s => Anchored s) (h0.anchored hall)
    fun _ _ _ _ h hstep => h.step hstep.1 hstep.2).refersLive hv

/-- The small database with one more vertex, 4, which is located on page 0. -/
def smallGrown : Db := (insertSingleVertex 4 (smallDb false)).state

/-- ... and an edge from `src` to 3, ... -/
def smallGrownInserted (src : VId) : Db :=
  (insertEdge (smallConfig false) src 3 0 smallGrown).state

/-- ... and page 0 consolidated, ... -/
def smallGrownMerged (src : VId) : Db :=
  (consolidatePages (smallConfig false) .smooth 0 (smallGrownInserted src)).state

/-- ... and recycled. -/
def smallGrownRecycled (src : VId) : Db :=
  { smallGrownMerged src with csrPool := (smallGrownMerged src).csrPool.recyclePage 0 }

theorem smallGrown_created : insertSingleVertex 4 (smallDb false) = .ok true smallGrown :=
  EStateM.Result.eq_ok_of_value? (by decide +kernel)

/-- The steps from the edge on, whichever pages were handed out before. -/
theorem smallGrown_steps (src : VId) (ok : Db × Reused → GrowEvent → Prop) (reused : Reused)
    (hins : (insertEdge (smallConfig false) src 3 0 smallGrown).value? = some true)
    (hmerge : (consolidatePages (smallConfig false) .smooth 0 (smallGrownInserted src)).value? =
      some .published) (hretired : 0 ∈ (smallGrownMerged src).csrPool.retired)
    (h1 : ∀ reused, ok (smallGrown, reused) (.call (.insertEdge src 3 0)))
    (h2 : ∀ reused, ok (smallGrownInserted src, reused) (.call (.consolidate 0 .smooth)))
    (h3 : ∀ reused, ok (smallGrownMerged src, reused) (.call (.recycle 0))) :
    ∃ reused' es, Steps (guarded ok (GrowStep (smallConfig false))) (smallGrown, reused) es
      (smallGrownRecycled src, reused') := by
  have h1 : Steps (guarded ok (GrowStep (smallConfig false))) (smallGrown, reused) _
      (smallGrownInserted src, handOut smallGrown (smallGrownInserted src) reused) :=
    .snoc .nil ⟨h1 _, .call (.insertEdge (EStateM.Result.eq_ok_of_value? hins)), rfl⟩
  have h2 : guarded ok (GrowStep (smallConfig false))
      (smallGrownInserted src, handOut smallGrown (smallGrownInserted src) reused) _
      (smallGrownMerged src, handOut (smallGrownInserted src) (smallGrownMerged src) _) :=
    ⟨h2 _, .call (.consolidate (EStateM.Result.eq_ok_of_value? hmerge)), rfl⟩
  exact ⟨handOut (smallGrownMerged src) (smallGrownRecycled src) _, _,
    (h1.snoc h2).snoc ⟨h3 _, .call (.recycle hretired), rfl⟩⟩

/-- With an insertion on the new vertex pending, the consolidation moves it like the others. -/
theorem refersLive_of_hosted_small :
    ∃ reused, RefersLive (smallGrownRecycled 4, reused) 4 := by
  have hload := smallDb_loaded false
  have hspan : ((smallGrownInserted 4).csrPool.page 0).vertexSpan.map
      (fun e => (e.vertexId, e.isDeleted)) = (List.range 4).map fun v => (v, false) := by
    decide +kernel
  have hpage : ∀ v, v < 5 → OnPage (smallGrownInserted 4) 0 v := by
    intro v hv
    rcases Nat.lt_succ_iff_lt_or_eq.1 hv with hlt | rfl
    · have hget := congrArg (·[v]?) hspan
      simp only [List.getElem?_map, List.getElem?_range hlt, Option.map_some] at hget
      obtain ⟨e, he, heq⟩ := Option.map_eq_some_iff.1 hget
      obtain ⟨h1, h2⟩ := Prod.mk.inj heq
      exact .inl ⟨v, e, he, h1, h2⟩
    · exact .inr (by decide +kernel)
  obtain ⟨reused, es, run⟩ := smallGrown_steps 4 (HostedStep (smallConfig false))
    (handOut (smallDb false) smallGrown fun _ => none)
    (by decide +kernel) (by decide +kernel) (by decide +kernel) (fun _ => trivial)
    (fun _ _ v hv _ => hpage v hv) (fun _ => trivial)
  have hfirst : Steps (guarded (HostedStep (smallConfig false)) (GrowStep (smallConfig false)))
      (smallDb false, fun _ => none) ([] ++ [.insertSingleVertex 4]) (smallGrown, _) :=
    .snoc .nil ⟨fun _ => ⟨hload.inUse 0 (by decide +kernel), rfl⟩,
      .insertSingleVertex smallGrown_created, rfl⟩
  have hsize : 4 < (smallGrownRecycled 4).vertexIndex.size := by decide +kernel
  exact ⟨reused, refersLive_of_hosted hload hload.inUse (hfirst.append run) hsize⟩

/-- A new vertex without records stays on page 0 when the others leave it, and the page is
freed. -/
theorem insertSingleVertex_dangles :
    ¬ ∀ (cfg : Config) (paged : Set VId) (db0 : Db), Loaded cfg paged db0 →
      (∀ v, v < db0.vertexIndex.size → db0.csrPool.InUse (db0.location v).1) →
      ∀ (es : List GrowEvent) (s : Db × Reused),
      Steps (GrowStep cfg) (db0, fun _ => none) es s →
      ∀ v, v < s.1.vertexIndex.size → RefersLive s v := by
  intro h
  have hload := smallDb_loaded false
  obtain ⟨reused, es, run⟩ := smallGrown_steps 0 (fun _ _ => True)
    (handOut (smallDb false) smallGrown fun _ => none)
    (by decide +kernel) (by decide +kernel) (by decide +kernel) (fun _ => trivial)
    (fun _ => trivial) (fun _ => trivial)
  have hfirst : Steps (GrowStep (smallConfig false)) (smallDb false, fun _ => none)
      ([] ++ [.insertSingleVertex 4]) (smallGrown, _) :=
    .snoc .nil ⟨.insertSingleVertex smallGrown_created, rfl⟩
  have hsize : 4 < (smallGrownRecycled 0).vertexIndex.size := by decide +kernel
  have hfree : ((smallGrownRecycled 0).location 4).1 ∈
      (smallGrownRecycled 0).csrPool.diskManager.freePages := by decide +kernel
  exact (h _ _ _ hload hload.inUse _ _ (hfirst.append (run.mono fun _ _ _ hs => hs.2)) 4
    hsize).1 hfree

end BwGraph
