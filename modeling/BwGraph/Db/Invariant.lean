import BwGraph.Db.Dyn
import BwGraph.Part.Publish

/-
  The invariant of sequential runs. `Inv cfg paged nbrs db` ties the three places of a vertex
  together: its base list (CSR entry or giant store), its own delta chain and the chain of its page.
  Reading base and chain gives the set `nbrs v`; a live CSR page holds entries of vertices located there
  only; a record pending on a page belongs to a vertex located there. A vertex without a CSR entry
  has to be giant.

  `Synced db v` says in addition that the page's chain holds exactly the operations of the
  vertex's chain. A consolidation merges the former and drops the latter, so it keeps the
  invariant when the vertices of the page are synced (`Mergeable`, `Inv.published`).
-/

namespace BwGraph

open DiskManager VertexIndex

/-- The chain of `v` is made of edge records of `v`, and base and chain give the set `s`. -/
structure Shows (cfg : Config) (db : Db) (v : VId) (s : Set VId)
    (cells : List (DeltaLoc × DeltaRecord)) : Prop where
  chain : DeltaChain db.pageMap (db.vertexIndex.deltaHeads v) cells
  edge : ∀ c ∈ cells, c.2.target = .edge
  source : ∀ c ∈ cells, c.2.first = v
  ids : ∀ c ∈ cells, c.2.second < db.vertexIndex.size
  set : Lww.lww {x | x ∈ db.base cfg v} (opsOf cells).reverse = s

/-- Vertex `v` has a CSR entry at its location. -/
def Db.HasEntry (db : Db) (v : VId) : Prop :=
  (db.csrPool.page (db.location v).1).HasEntry v (db.location v).2

/-- The invariant of sequential runs. `nbrs` are the neighbour sets to be shown, `paged` the
vertices that have a CSR entry; the others are kept in the giant store alone. -/
structure Inv (cfg : Config) (paged : Set VId) (nbrs : VId → Set VId) (db : Db) : Prop where
  pool : db.csrPool.Ok
  alloc : db.csrPool.AllocOk
  pageMap : db.pageMap.Ok
  noForwarder : ∀ p, db.pageMap.acquireForwarderFor p = none
  size : db.vertexIndex.size ≤ cfg.idLimit
  undeleted : ∀ v, v < db.vertexIndex.size → (db.vertexIndex.items v).isDelete = false
  giant : ∀ v, v < db.vertexIndex.size → v ∉ paged →
    (db.vertexIndex.items v).vertexType = .giant
  pagedLt : ∀ v ∈ paged, v < db.vertexIndex.size
  entry : ∀ v ∈ paged, db.HasEntry v
  inUse : ∀ v ∈ paged, db.csrPool.InUse (db.location v).1
  owned : ∀ v ∈ paged, ∀ w i, (db.csrPool.page (db.location v).1).HasEntry w i →
    w ∈ paged ∧ db.location w = ((db.location v).1, i)
  baseIds : ∀ v, v < db.vertexIndex.size → ∀ d ∈ db.base cfg v, d < db.vertexIndex.size
  shows : ∀ v, v < db.vertexIndex.size → ∃ cells, Shows cfg db v (nbrs v) cells
  pending : ∀ p, ∀ r ∈ db.pageMap.pageRecs p, r.target = .edge ∧
    r.first < db.vertexIndex.size ∧ r.second < db.vertexIndex.size ∧ (db.location r.first).1 = p

/-- The chain of the page of `v` holds the operations of the chain of `v`. -/
def Synced (db : Db) (v : VId) : Prop :=
  ∃ cells, DeltaChain db.pageMap (db.vertexIndex.deltaHeads v) cells ∧
    opsFor v (db.pageMap.pageRecs (db.location v).1) = (opsOf cells).reverse

/-- `read_neighbor_clone(v)` returns `r`, for all fuel from some point on. -/
def Returns (cfg : Config) (db : Db) (v : VId) (r : List VId) : Prop :=
  ∃ n, ∀ fuel, n ≤ fuel → readNeighborClone cfg fuel db v = some r

/-- `read_neighbor_clone(v)` returns the set `s`. -/
def Reads (cfg : Config) (db : Db) (v : VId) (s : Set VId) : Prop :=
  ∃ r : List VId, Returns cfg db v r ∧ {d | d ∈ r} = s

variable {cfg : Config} {paged : Set VId} {nbrs : VId → Set VId} {db db' : Db}

variable {v : VId} {cells : List (DeltaLoc × DeltaRecord)}

/-- A read returns one list only. -/
theorem Returns.unique {r r' : List VId} (h : Returns cfg db v r) (h' : Returns cfg db v r') :
    r = r' := by
  obtain ⟨n, hn⟩ := h
  obtain ⟨n', hn'⟩ := h'
  have he := hn (max n n') (Nat.le_max_left _ _)
  rw [hn' _ (Nat.le_max_right _ _)] at he
  exact (Option.some.inj he).symm

/-- A read that ends is what every longer one returns. -/
theorem returns_of_fuel {r : List VId} {fuel : Nat} (h : readNeighborClone cfg fuel db v = some r) :
    Returns cfg db v r := by
  refine ⟨fuel, fun fuel' hle => ?_⟩
  unfold readNeighborClone at h ⊢
  obtain ⟨scan, hscan, rfl⟩ := Option.map_eq_some_iff.1 h
  rw [scanChain_mono hscan hle, Option.map_some]

theorem Shows.returns {s : Set VId} (h : Shows cfg db v s cells) :
    Returns cfg db v ((Lww.collect (opsOf cells)).result (db.base cfg v)) :=
  ⟨cells.length, fun _ hf => readNeighborClone_of_chain h.chain h.edge hf⟩

theorem Shows.reads {s : Set VId} (h : Shows cfg db v s cells) : Reads cfg db v s := by
  refine ⟨_, h.returns, ?_⟩
  ext d
  rw [← h.set, ← Lww.mem_result]
  rfl

section

variable (h : Inv cfg paged nbrs db) (hv : v < db.vertexIndex.size)
include h hv

/-- In a state of the invariant a read gives the expected set. -/
theorem Inv.reads : Reads cfg db v (nbrs v) := by
  obtain ⟨cells, hc⟩ := h.shows v hv
  exact hc.reads

theorem Inv.isGiantVertex :
    db.vertexIndex.isGiantVertex v = true ↔ (db.vertexIndex.items v).vertexType = .giant := by
  simp [VertexIndex.isGiantVertex, hv, h.undeleted v hv]

end

/-! ## Appending a record -/

/-- The record that a write links in front of the chain of `src`. -/
def newRecord (db : Db) (type : DeltaType) (src dst : VId) (time : Nat) : DeltaRecord :=
  ⟨.edge, type, src, dst, time, db.vertexIndex.deltaHeads src⟩

/-- What a write does to the database. -/
structure Written (db db' : Db) (type : DeltaType) (src dst : VId) (time : Nat)
    (loc : DeltaLoc) : Prop where
  appends : db.pageMap.Appends db'.pageMap (db.location src).1 (newRecord db type src dst time) loc
  vertexIndex : db'.vertexIndex = db.vertexIndex.setDeltaHead src (some loc)
  csrPool : db'.csrPool = db.csrPool
  giantDb : db'.giantDb = db.giantDb

theorem appendEdge_ok {type : DeltaType} {src dst : VId} {time : Nat} (hpm : db.pageMap.Ok)
    (hfwd : db.pageMap.acquireForwarderFor (db.location src).1 = none)
    (h : appendEdge cfg type src dst time db = .ok () db') :
    ∃ loc, Written db db' type src dst time loc := by
  unfold appendEdge at h
  rw [EStateM.get_bind] at h
  obtain ⟨⟨loc, rerouted⟩, db1, hmap, hset⟩ := EStateM.bind_eq_ok.1 h
  obtain ⟨pm, hins, rfl⟩ := onPageMap_ok.1 hmap
  cases hset
  unfold PageMap.insertDeltaWithForward at hins
  obtain ⟨_, _, hget, hroute'⟩ := EStateM.bind_eq_ok.1 hins
  cases hget
  have hroute : db.pageMap.routeOf (db.location src).1 src = ((db.location src).1, none) := by
    unfold PageMap.routeOf
    rw [hfwd]
  rw [hroute] at hroute'
  obtain ⟨loc', pm', happ, hret⟩ := EStateM.bind_eq_ok.1 hroute'
  obtain ⟨he, rfl⟩ := EStateM.pure_eq_ok.1 hret
  cases he
  exact ⟨loc, PageMap.appends_insertDeltaAndGetLoc hpm happ, rfl, rfl, rfl⟩

variable {type : DeltaType} {src dst : VId} {time : Nat} {loc : DeltaLoc}

section

variable (h : Written db db' type src dst time loc)
include h

theorem Written.items : db'.vertexIndex.items = db.vertexIndex.items := by
  rw [h.vertexIndex]; rfl

theorem Written.size : db'.vertexIndex.size = db.vertexIndex.size := by
  rw [h.vertexIndex]; rfl

theorem Written.location (v : VId) : db'.location v = db.location v := by
  unfold Db.location
  rw [h.items]

theorem Written.base (v : VId) : db'.base cfg v = db.base cfg v := by
  unfold Db.base
  rw [h.location, h.items, h.csrPool, h.giantDb]

theorem Written.head_self : db'.vertexIndex.deltaHeads src = some loc := by
  rw [h.vertexIndex]; simp [setDeltaHead]

theorem Written.head_ne (hv : v ≠ src) :
    db'.vertexIndex.deltaHeads v = db.vertexIndex.deltaHeads v := by
  rw [h.vertexIndex]; simp [setDeltaHead, hv]

/-- Every chain is kept: the new record lies outside of it. -/
theorem Written.keeps {head : Option DeltaLoc} (hc : DeltaChain db.pageMap head cells) :
    DeltaChain db'.pageMap head cells := by
  refine hc.congr fun x hx => h.appends.get_ne x.1 fun he => ?_
  have hg := hc.get_of_mem hx
  rw [he, h.appends.fresh] at hg
  cases hg

/-- The chain of the source grows by the new record. -/
theorem Written.chain_self (hc : DeltaChain db.pageMap (db.vertexIndex.deltaHeads src) cells) :
    DeltaChain db'.pageMap (db'.vertexIndex.deltaHeads src)
      ((loc, newRecord db type src dst time) :: cells) := by
  rw [h.head_self]
  exact .cons h.appends.get_self (h.keeps hc)

end

/-- The operation of a write. -/
def edgeOp (type : DeltaType) (dst : VId) : Lww.Op VId :=
  match type with
  | .insert => .insert dst
  | .delete => .erase dst

theorem newRecord_op (db : Db) (type : DeltaType) (src dst : VId) (time : Nat) :
    (newRecord db type src dst time).op = edgeOp type dst := by
  cases type <;> rfl

/-- What every step that publishes no page leaves as it is: locations, types and entries. -/
structure SameFrame (paged : Set VId) (db db' : Db) : Prop where
  pool : db'.csrPool.Ok
  alloc : db'.csrPool.AllocOk
  pageMap : db'.pageMap.Ok
  noForwarder : ∀ p, db'.pageMap.acquireForwarderFor p = none
  size : db'.vertexIndex.size = db.vertexIndex.size
  isDelete : ∀ v, (db'.vertexIndex.items v).isDelete = (db.vertexIndex.items v).isDelete
  vertexType : ∀ v, (db'.vertexIndex.items v).vertexType = (db.vertexIndex.items v).vertexType
  location : ∀ v, db'.location v = db.location v
  hasEntry : ∀ v ∈ paged, ∀ w i, (db'.csrPool.page (db.location v).1).HasEntry w i ↔
    (db.csrPool.page (db.location v).1).HasEntry w i
  inUse : ∀ v ∈ paged, db'.csrPool.InUse (db.location v).1

/-- The invariant after such a step, from the lists, the chains and the pending records. -/
theorem Inv.frame {nbrs' : VId → Set VId} (hi : Inv cfg paged nbrs db) (h : SameFrame paged db db')
    (hbase : ∀ v, v < db.vertexIndex.size → ∀ d ∈ db'.base cfg v, d < db.vertexIndex.size)
    (hshows : ∀ v, v < db.vertexIndex.size → ∃ cells, Shows cfg db' v (nbrs' v) cells)
    (hpending : ∀ p, ∀ r ∈ db'.pageMap.pageRecs p, r.target = .edge ∧
      r.first < db.vertexIndex.size ∧ r.second < db.vertexIndex.size ∧
      (db.location r.first).1 = p) : Inv cfg paged nbrs' db' := by
  refine ⟨h.pool, h.alloc, h.pageMap, h.noForwarder, h.size ▸ hi.size, ?_, ?_, h.size ▸ hi.pagedLt,
    ?_, ?_, ?_, by rw [h.size]; exact hbase, by rw [h.size]; exact hshows, ?_⟩
  · intro v hv
    rw [h.isDelete]
    exact hi.undeleted v (h.size ▸ hv)
  · intro v hv hnp
    rw [h.vertexType]
    exact hi.giant v (h.size ▸ hv) hnp
  · intro v hv
    unfold Db.HasEntry
    rw [h.location, h.hasEntry v hv]
    exact hi.entry v hv
  · intro v hv
    rw [h.location]
    exact h.inUse v hv
  · intro v hv w i hwi
    rw [h.location, h.hasEntry v hv] at hwi
    rw [h.location, h.location]
    exact hi.owned v hv w i hwi
  · intro p r hr
    rw [h.size, h.location]
    exact hpending p r hr

/-- A write keeps the invariant, with its operation applied to the set of its source. -/
theorem Inv.written (h : Inv cfg paged nbrs db) (hw : Written db db' type src dst time loc)
    (hsrc : src < db.vertexIndex.size) (hdst : dst < db.vertexIndex.size) :
    Inv cfg paged (Function.update nbrs src ((edgeOp type dst).apply (nbrs src))) db' := by
  have hframe : SameFrame paged db db' := ⟨by rw [hw.csrPool]; exact h.pool,
    by rw [hw.csrPool]; exact h.alloc, hw.appends.ok,
    fun p => (hw.appends.forwarders.acquire p).trans (h.noForwarder p), hw.size,
    fun v => by rw [hw.items], fun v => by rw [hw.items], hw.location,
    fun v _ w i => by rw [hw.csrPool], fun v hv => by rw [hw.csrPool]; exact h.inUse v hv⟩
  refine h.frame hframe (fun v hv => ?_) (fun v hv => ?_) fun p r hr => ?_
  · rw [hw.base]
    exact h.baseIds v hv
  · obtain ⟨cells, hc⟩ := h.shows v hv
    by_cases hvs : v = src
    · subst hvs
      refine ⟨_, hw.chain_self hc.chain, ?_, ?_, ?_, ?_⟩
      · intro c hcm
        rcases List.mem_cons.1 hcm with rfl | hcm
        · rfl
        · exact hc.edge c hcm
      · intro c hcm
        rcases List.mem_cons.1 hcm with rfl | hcm
        · rfl
        · exact hc.source c hcm
      · intro c hcm
        rw [hw.size]
        rcases List.mem_cons.1 hcm with rfl | hcm
        · exact hdst
        · exact hc.ids c hcm
      · rw [hw.base, Function.update_self, opsOf, List.map_cons, List.reverse_cons, Lww.lww_concat,
          newRecord_op]
        exact congrArg (Lww.Op.apply · (edgeOp type dst)) hc.set
    · refine ⟨cells, ?_, hc.edge, hc.source, by rw [hw.size]; exact hc.ids, ?_⟩
      · rw [hw.head_ne hvs]
        exact hw.keeps hc.chain
      · rw [hw.base, Function.update_of_ne hvs]
        exact hc.set
  · by_cases hp : p = (db.location src).1
    · subst hp
      rw [hw.appends.recs_self, List.mem_append, List.mem_singleton] at hr
      rcases hr with hr | rfl
      · exact h.pending _ r hr
      · exact ⟨rfl, hsrc, hdst, rfl⟩
    · rw [hw.appends.recs_ne p hp] at hr
      exact h.pending p r hr

theorem opsFor_append (v : VId) (xs ys : List DeltaRecord) :
    opsFor v (xs ++ ys) = opsFor v xs ++ opsFor v ys := by
  simp [opsFor]

/-- A write keeps synced vertices synced. -/
theorem Synced.written (hw : Written db db' type src dst time loc) {v : VId} (h : Synced db v) :
    Synced db' v := by
  obtain ⟨cells, hc, hops⟩ := h
  unfold Synced
  rw [hw.location]
  by_cases hvs : v = src
  · subst hvs
    refine ⟨_, hw.chain_self hc, ?_⟩
    have hnew : opsFor v [newRecord db type v dst time] = [(newRecord db type v dst time).op] :=
      opsFor_cons_self [] rfl rfl
    rw [hw.appends.recs_self, opsFor_append, hops, hnew, opsOf, opsOf, List.map_cons,
      List.reverse_cons]
  · refine ⟨cells, by rw [hw.head_ne hvs]; exact hw.keeps hc, ?_⟩
    rw [← hops]
    by_cases hp : (db.location v).1 = (db.location src).1
    · rw [hp, hw.appends.recs_self, opsFor_append,
        opsFor_cons_ne [] fun hc => hvs hc.2.symm]
      simp [opsFor]
    · rw [hw.appends.recs_ne _ hp]

/-! ## Databases that show the same -/

/-- The two databases show the same lists, chains and pending records. -/
structure SameView (cfg : Config) (paged : Set VId) (db db' : Db) : Prop
    extends SameFrame paged db db' where
  base : ∀ v, v < db.vertexIndex.size → db'.base cfg v = db.base cfg v
  chain : ∀ v cells, DeltaChain db.pageMap (db.vertexIndex.deltaHeads v) cells →
    DeltaChain db'.pageMap (db'.vertexIndex.deltaHeads v) cells
  pending : ∀ p, ∀ r ∈ db'.pageMap.pageRecs p, r ∈ db.pageMap.pageRecs p

theorem Inv.sameView (hi : Inv cfg paged nbrs db) (h : SameView cfg paged db db') :
    Inv cfg paged nbrs db' := by
  refine hi.frame h.toSameFrame (fun v hv => ?_) (fun v hv => ?_) fun p r hr =>
    hi.pending p r (h.pending p r hr)
  · rw [h.base v hv]
    exact hi.baseIds v hv
  · obtain ⟨cells, hc⟩ := hi.shows v hv
    refine ⟨cells, h.chain v cells hc.chain, hc.edge, hc.source, by rw [h.size]; exact hc.ids, ?_⟩
    rw [h.base v hv]
    exact hc.set

/-! ## Steps that change the CSR pool only -/

/-- `db'` has another CSR pool, which shows the pages in use as before and keeps them in use. -/
structure Repooled (db db' : Db) : Prop where
  ok : db'.csrPool.Ok
  alloc : db'.csrPool.AllocOk
  page : ∀ p, db.csrPool.InUse p → db'.csrPool.page p = db.csrPool.page p
  inUse : ∀ p, db.csrPool.InUse p → db'.csrPool.InUse p
  vertexIndex : db'.vertexIndex = db.vertexIndex
  pageMap : db'.pageMap = db.pageMap
  giantDb : db'.giantDb = db.giantDb

theorem CsrPool.Refreshes.allocOk {pool pool' : CsrPool} (h : pool.Refreshes pool')
    (ha : pool.AllocOk) : pool'.AllocOk := by
  refine ⟨h.freePages ▸ ha.freeNodup, fun q hq => ?_, h.retired ▸ ha.retiredNodup, fun q hq => ?_,
    h.freePages ▸ h.retired ▸ ha.disjoint⟩
  · exact Nat.lt_of_lt_of_le (ha.freeLt q (h.freePages ▸ hq)) h.globalPageCount
  · exact Nat.lt_of_lt_of_le (ha.retiredLt q (h.retired ▸ hq)) h.globalPageCount

theorem CsrPool.Refreshes.repooled {pool : CsrPool} (h : db.csrPool.Refreshes pool)
    (ha : db.csrPool.AllocOk) : Repooled db { db with csrPool := pool } :=
  ⟨h.ok, h.allocOk ha, fun p _ => h.page p, fun _ hp => ⟨Nat.lt_of_lt_of_le hp.1 h.globalPageCount,
    h.freePages ▸ hp.2.1, h.retired ▸ hp.2.2⟩, rfl, rfl, rfl⟩

variable {p : PageNo}

/-- Recycling a retired page touches no page in use. -/
theorem repooled_recyclePage (hok : db.csrPool.Ok) (ha : db.csrPool.AllocOk)
    (hp : p ∈ db.csrPool.retired) :
    Repooled db { db with csrPool := db.csrPool.recyclePage p } := by
  have hmem : ∀ q, q ∈ (db.csrPool.recyclePage p).diskManager.freePages →
      q = p ∨ q ∈ db.csrPool.diskManager.freePages :=
    fun q hq => mem_freePages_deletePage hok.pageSize hq
  have hret : ∀ q, q ∈ (db.csrPool.recyclePage p).retired ↔ q ≠ p ∧ q ∈ db.csrPool.retired :=
    fun q => ha.retiredNodup.mem_erase_iff
  have hcount : (db.csrPool.recyclePage p).diskManager.globalPageCount =
      db.csrPool.diskManager.globalPageCount := deletePage_globalPageCount _ _
  have hne : ∀ q, db.csrPool.InUse q → q ≠ p := by
    rintro q hq rfl
    exact hq.2.2 hp
  refine ⟨hok.recyclePage p, ⟨?_, ?_, ?_, ?_, ?_⟩, fun q hq => CsrPool.page_recyclePage hok (hne q hq),
    fun q hq => ⟨?_, ?_, ?_⟩, rfl, rfl, rfl⟩
  · exact nodup_freePages_deletePage hok.pageSize (ha.disjoint p hp) ha.freeNodup
  · intro q hq
    rw [hcount]
    rcases hmem q hq with rfl | hq
    · exact ha.retiredLt q hp
    · exact ha.freeLt q hq
  · exact ha.retiredNodup.erase p
  · intro q hq
    rw [hcount]
    exact ha.retiredLt q ((hret q).1 hq).2
  · intro q hq hf
    obtain ⟨hqp, hq⟩ := (hret q).1 hq
    rcases hmem q hf with rfl | hf
    · exact hqp rfl
    · exact ha.disjoint q hq hf
  · rw [hcount]
    exact hq.1
  · intro hf
    rcases hmem q hf with rfl | hf
    · exact hne q hq rfl
    · exact hq.2.1 hf
  · exact fun hr => hq.2.2 ((hret q).1 hr).2

theorem Repooled.location (h : Repooled db db') (v : VId) : db'.location v = db.location v := by
  unfold Db.location
  rw [h.vertexIndex]

theorem Repooled.base (h : Repooled db db') (hi : Inv cfg paged nbrs db)
    (hv : v < db.vertexIndex.size) : db'.base cfg v = db.base cfg v := by
  unfold Db.base
  rw [h.location, h.vertexIndex, h.giantDb]
  split_ifs with hg
  · rfl
  · have hp : v ∈ paged := by
      by_contra hc
      exact hg (hi.giant v hv hc)
    rw [h.page _ (hi.inUse v hp)]

theorem Inv.repooled (hi : Inv cfg paged nbrs db) (h : Repooled db db') : Inv cfg paged nbrs db' :=
  hi.sameView ⟨⟨h.ok, h.alloc, by rw [h.pageMap]; exact hi.pageMap,
      by rw [h.pageMap]; exact hi.noForwarder, by rw [h.vertexIndex],
      fun v => by rw [h.vertexIndex], fun v => by rw [h.vertexIndex], h.location,
      fun v hv w i => by rw [h.page _ (hi.inUse v hv)], fun v hv => h.inUse _ (hi.inUse v hv)⟩,
    fun v hv => h.base hi hv, fun v cells hc => by rw [h.pageMap, h.vertexIndex]; exact hc,
    fun p r hr => by rw [h.pageMap] at hr; exact hr⟩

theorem Synced.repooled (h : Repooled db db') (hs : Synced db v) : Synced db' v := by
  unfold Synced
  rw [h.location, h.pageMap, h.vertexIndex]
  exact hs

/-! ## Draining a page -/

variable (h : DrainOnly p db db')
include h

theorem DrainOnly.location (v : VId) : db'.location v = db.location v := by
  unfold Db.location
  rw [h.vertexIndex]

theorem DrainOnly.base (v : VId) : db'.base cfg v = db.base cfg v := by
  unfold Db.base
  rw [h.location, h.vertexIndex, h.csrPool, h.giantDb]

theorem DrainOnly.chain {head : Option DeltaLoc} (hc : DeltaChain db.pageMap head cells) :
    DeltaChain db'.pageMap head cells :=
  hc.congr fun x _ => h.drains.get x.1

omit h in
/-- A drain that nothing follows keeps what readers see. -/
theorem Inv.drained (hi : Inv cfg paged nbrs db) (h : DrainOnly p db db') :
    Inv cfg paged nbrs db' := by
  have hpending : ∀ q, ∀ r ∈ db'.pageMap.pageRecs q, r ∈ db.pageMap.pageRecs q := by
    intro q r hr
    by_cases hq : q = p
    · subst hq
      rw [h.drains.recs_self] at hr
      cases hr
    · rw [h.drains.recs_ne q hq] at hr
      exact hr
  exact hi.sameView ⟨⟨by rw [h.csrPool]; exact hi.pool, by rw [h.csrPool]; exact hi.alloc,
      h.drains.ok, fun q => (h.drains.forwarders.acquire q).trans (hi.noForwarder q),
      by rw [h.vertexIndex], fun v => by rw [h.vertexIndex], fun v => by rw [h.vertexIndex],
      h.location, fun v _ w i => by rw [h.csrPool],
      fun v hv => by rw [h.csrPool]; exact hi.inUse v hv⟩,
    fun v _ => h.base v, fun v cells hc => by rw [h.vertexIndex]; exact h.chain hc, hpending⟩

theorem Synced.drained (hs : Synced db v) (hp : (db.location v).1 = p → db.pageMap.pageRecs p = []) :
    Synced db' v := by
  obtain ⟨cells, hc, hops⟩ := hs
  refine ⟨cells, by rw [h.vertexIndex]; exact h.chain hc, ?_⟩
  rw [← hops, h.location]
  by_cases hq : (db.location v).1 = p
  · rw [hq, h.drains.recs_self, hp hq]
  · rw [h.drains.recs_ne _ hq]

end BwGraph
