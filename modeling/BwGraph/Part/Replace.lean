import BwGraph.Part.Merge

/-
  What the replacement pages of a consolidation are. `doNoSplit` and `doSplit` put every vertex of
  the merged graph on exactly one new page (`Replaces`): the new pages were free or past the end of
  the file, all other pages are untouched, and each vertex has an entry with its list there. The
  lists can be read back when the pages are laid out for this build (`readable`): always for
  `doNoSplit`, in the raw build for `doSplit`, whose page builder knows raw words only.
  `persistGiants` writes the lists of the giant vertices.
-/

namespace BwGraph

open AList

open EStateM (bind_eq_ok pure_eq_ok)
open List

/-! ## Pages in use -/

/-- The free and the retired pages are distinct pages of the file. -/
structure CsrPool.AllocOk (pool : CsrPool) : Prop where
  freeNodup : pool.diskManager.freePages.Nodup
  freeLt : ∀ q ∈ pool.diskManager.freePages, q < pool.diskManager.globalPageCount
  retiredNodup : pool.retired.Nodup
  retiredLt : ∀ q ∈ pool.retired, q < pool.diskManager.globalPageCount
  disjoint : ∀ q ∈ pool.retired, q ∉ pool.diskManager.freePages

/-- The page may be handed out by the allocator of `pool`. -/
def CsrPool.Unused (pool : CsrPool) (q : PageNo) : Prop :=
  q ∈ pool.diskManager.freePages ∨ pool.diskManager.globalPageCount ≤ q

/-- The page was handed out and is not given back. -/
def CsrPool.InUse (pool : CsrPool) (q : PageNo) : Prop :=
  q < pool.diskManager.globalPageCount ∧ q ∉ pool.diskManager.freePages ∧ q ∉ pool.retired

instance (pool : CsrPool) (q : PageNo) : Decidable (pool.InUse q) :=
  inferInstanceAs (Decidable (_ ∧ _ ∧ _))

variable {q : PageNo}

variable {pool : CsrPool}

theorem CsrPool.InUse.not_unused (h : pool.InUse q) : ¬ pool.Unused q := by
  rintro (hf | hc)
  · exact h.2.1 hf
  · exact absurd h.1 (Nat.not_lt.2 hc)

/-- The databases differ in the CSR pool and in the supply of version objects only. -/
structure PoolOnly (db db' : Db) : Prop where
  items : db'.vertexIndex.items = db.vertexIndex.items
  deltaHeads : db'.vertexIndex.deltaHeads = db.vertexIndex.deltaHeads
  size : db'.vertexIndex.size = db.vertexIndex.size
  pageMap : db'.pageMap = db.pageMap
  giantDb : db'.giantDb = db.giantDb

theorem PoolOnly.refl (db : Db) : PoolOnly db db := ⟨rfl, rfl, rfl, rfl, rfl⟩

theorem PoolOnly.trans {db db' db'' : Db} (h : PoolOnly db db') (h' : PoolOnly db' db'') :
    PoolOnly db db'' :=
  ⟨h'.items.trans h.items, h'.deltaHeads.trans h.deltaHeads, h'.size.trans h.size,
    h'.pageMap.trans h.pageMap, h'.giantDb.trans h.giantDb⟩

/-! ## A page that stores some items -/

/-- The page has one undeleted entry per item, in order, and below the giant bound its list can
be read back if `readable`. -/
structure CsrPage.Stores (cfg : Config) (readable : Prop) (page : CsrPage)
    (items : List (VId × List VId)) : Prop where
  hasEntry : ∀ (i : Nat) (v : VId) (nbrs : List VId), items[i]? = some (v, nbrs) →
    page.HasEntry v i
  item : ∀ (i : Nat) (e : CsrVertex), page.vertexSpan[i]? = some e →
    e.isDeleted = false ∧ ∃ nbrs, items[i]? = some (e.vertexId, nbrs)
  read : readable → ∀ (i : Nat) (v : VId) (nbrs : List VId), items[i]? = some (v, nbrs) →
    nbrs.length < cfg.giantDegreeBound → page.readNeighbors cfg i = nbrs

variable {page : CsrPage} {slots : VId → Nat} {vm : List (VId × Nat)}

theorem CsrPage.Laid.stores {cfg : Config} {items : List (VId × List VId)}
    (h : page.Laid cfg slots items) {readable : Prop}
    (hids : readable → ∀ it ∈ items, ∀ d ∈ it.2, d < cfg.idLimit) :
    page.Stores cfg readable items :=
  ⟨fun _ _ _ hi => h.hasEntry hi, fun _ _ he => h.item_of_entry he,
    fun hr _ _ _ hi hd => h.readNeighbors hi hd (hids hr _ (mem_of_getElem? hi))⟩

/-- A page of the builder stores its items, that can be read in the raw build only. -/
theorem CsrPageBuilder.Packs.stores {cfg : Config} {b b' : CsrPageBuilder}
    {items : List (VId × List VId)} (hb : b.Packs cfg slots items)
    (h : b.build cfg = .ok (page, vm, b')) {readable : Prop}
    (hraw : readable → cfg.neighborCompress = false)
    (hids : readable → ∀ it ∈ items, ∀ d ∈ it.2, d < cfg.idLimit) :
    page.Stores cfg readable items := by
  obtain ⟨hspan, -, -, -⟩ := hb.build h
  have hget := getElem?_lay cfg _ (rawBlock_giant cfg slots) 0 items
  refine ⟨fun i v nbrs hi => ?_, fun i e he => ?_, fun hr i v nbrs hi hd => ?_⟩
  · unfold CsrPage.HasEntry
    rw [hspan, hget, hi]
    exact ⟨_, rfl, rfl, rfl⟩
  · rw [hspan, hget] at he
    obtain ⟨⟨v, nbrs⟩, hi, rfl⟩ := Option.map_eq_some_iff.1 he
    exact ⟨rfl, nbrs, hi⟩
  · exact (hb.build_laid (hraw hr) h).readNeighbors hi hd (hids hr _ (mem_of_getElem? hi))

variable {v : VId}

theorem mem_vertexMap {vertices : List CsrVertex} {i : Nat} :
    (v, i) ∈ vertexMap vertices ↔
      ∃ e : CsrVertex, vertices[i]? = some e ∧ e.vertexId = v := by
  unfold vertexMap
  rw [mem_map]
  constructor
  · rintro ⟨⟨e, j⟩, hm, he⟩
    cases he
    exact ⟨e, mem_zipIdx_iff_getElem?.1 hm, rfl⟩
  · rintro ⟨e, he, rfl⟩
    exact ⟨(e, i), mem_zipIdx_iff_getElem?.2 he, rfl⟩

theorem vertexMap_fst (vertices : List CsrVertex) :
    (vertexMap vertices).map Prod.fst = vertices.map CsrVertex.vertexId := by
  unfold vertexMap
  rw [map_map]
  show vertices.zipIdx.map (CsrVertex.vertexId ∘ Prod.fst) = _
  rw [← map_map, zipIdx_map_fst]

/-! ## Preparing versions -/

/-- `prepareVersions` binds every vertex of the map to the page and its offset. -/
theorem prepareVersions_ok (q : PageNo) (vm : List (VId × Nat)) (hvm : (vm.map Prod.fst).Nodup)
    (locs : Locations) (db : Db) :
    ∃ locs' db', prepareVersions q vm locs db = .ok locs' db' ∧ PoolOnly db db' ∧
      db'.csrPool = db.csrPool ∧
      (∀ v, v ∈ locs' ↔ v ∈ vm.map Prod.fst ∨ v ∈ locs) ∧
      (∀ v off, (v, off) ∈ vm → ∃ p, locs'.lookup v = some p ∧ p.desired.pageNo = q ∧
        p.desired.offset = off) ∧
      ∀ v, v ∉ vm.map Prod.fst → locs'.lookup v = locs.lookup v := by
  induction vm generalizing locs db with
  | nil => exact ⟨locs, db, rfl, PoolOnly.refl db, rfl, by simp, by simp, fun _ _ => rfl⟩
  | cons x vm ih =>
    obtain ⟨v, off⟩ := x
    rw [map_cons, nodup_cons] at hvm
    obtain ⟨hv, hvm⟩ := hvm
    set prepared : PreparedVertexVersion :=
      ⟨(db.vertexIndex.items v).cur.id, ⟨db.vertexIndex.nextVersion, q, off⟩⟩ with hprep
    obtain ⟨locs', db', hrun, hsame, hpool, hmem, hget, hne⟩ := ih hvm (locs.insert v prepared)
      { db with vertexIndex := { db.vertexIndex with
          nextVersion := db.vertexIndex.nextVersion + 1 } }
    refine ⟨locs', db', hrun, ?_, hpool, ?_, ?_, ?_⟩
    · exact ⟨hsame.items, hsame.deltaHeads, hsame.size, hsame.pageMap, hsame.giantDb⟩
    · intro w
      rw [hmem, mem_insert, map_cons, mem_cons]
      tauto
    · intro w o hw
      rcases mem_cons.1 hw with he | hw
      · cases he
        refine ⟨prepared, ?_, rfl, rfl⟩
        rw [hne v hv, lookup_insert]
      · exact hget w o hw
    · intro w hw
      rw [map_cons, mem_cons, not_or] at hw
      rw [hne w hw.2, lookup_insert_ne hw.1]

/-! ## The replacement -/

/-- The pages `locs` points to, built since `pool0`, hold the lists of `graph`. -/
structure Replaces (cfg : Config) (readable : Prop) (graph : AdjMap) (pool0 pool : CsrPool)
    (locs : Locations) : Prop where
  ok : pool.Ok
  alloc : pool.AllocOk
  retired : pool.retired = pool0.retired
  freeSub : ∀ q ∈ pool.diskManager.freePages, q ∈ pool0.diskManager.freePages
  countLe : pool0.diskManager.globalPageCount ≤ pool.diskManager.globalPageCount
  old : ∀ q, ¬ pool0.Unused q → pool.page q = pool0.page q
  fresh : ∀ v p, locs.lookup v = some p → pool0.Unused p.desired.pageNo ∧
    pool.InUse p.desired.pageNo
  entry : ∀ v p, locs.lookup v = some p →
    (pool.page p.desired.pageNo).HasEntry v p.desired.offset
  owned : ∀ v p, locs.lookup v = some p → ∀ (i : Nat) (e : CsrVertex),
    (pool.page p.desired.pageNo).vertexSpan[i]? = some e → e.isDeleted = false ∧
      ∃ p', locs.lookup e.vertexId = some p' ∧ p'.desired.pageNo = p.desired.pageNo ∧
        p'.desired.offset = i
  read : readable → ∀ v p, locs.lookup v = some p →
    (graph.get v).length < cfg.giantDegreeBound →
    (pool.page p.desired.pageNo).readNeighbors cfg p.desired.offset = graph.get v

theorem Replaces.mono {cfg : Config} {readable readable' : Prop} {graph : AdjMap}
    {pool0 pool : CsrPool} {locs : Locations} (h : Replaces cfg readable graph pool0 pool locs)
    (hr : readable' → readable) : Replaces cfg readable' graph pool0 pool locs :=
  ⟨h.ok, h.alloc, h.retired, h.freeSub, h.countLe, h.old, h.fresh, h.entry, h.owned,
    fun hr' => h.read (hr hr')⟩

/-- The items of a page: some vertices with their lists. -/
def itemsOf (graph : AdjMap) (vs : List VId) : List (VId × List VId) :=
  vs.map fun v => (v, graph.get v)

theorem itemsOf_fst (graph : AdjMap) (vs : List VId) : (itemsOf graph vs).map Prod.fst = vs := by
  unfold itemsOf
  rw [map_map]
  exact map_id vs

variable {vs : List VId}

variable {nbrs : List VId}

theorem getElem?_itemsOf {graph : AdjMap} {i : Nat} :
    (itemsOf graph vs)[i]? = some (v, nbrs) ↔ vs[i]? = some v ∧ nbrs = graph.get v := by
  unfold itemsOf
  rw [getElem?_map, Option.map_eq_some_iff]
  constructor
  · rintro ⟨w, hw, he⟩
    cases he
    exact ⟨hw, rfl⟩
  · rintro ⟨hw, rfl⟩
    exact ⟨v, hw, rfl⟩

theorem CsrPage.Stores.vertexIds {cfg : Config} {readable : Prop} {items : List (VId × List VId)}
    (h : page.Stores cfg readable items) :
    page.vertexSpan.map CsrVertex.vertexId = items.map Prod.fst := by
  apply ext_getElem?
  intro i
  rw [getElem?_map, getElem?_map]
  cases he : page.vertexSpan[i]? with
  | some e =>
    obtain ⟨-, nbrs, hi⟩ := h.item i e he
    rw [hi]
    rfl
  | none =>
    cases hi : items[i]? with
    | none => rfl
    | some it =>
      obtain ⟨e, he', -, -⟩ := h.hasEntry i it.1 it.2 hi
      rw [he] at he'
      cases he'

variable {message : String}

theorem copyIntoPool_ok {env : SmoEnv} {db db' : Db}
    (h : copyIntoPool env message q page db = .ok () db') :
    ∃ victim pool, db.csrPool.bufPageCp q page victim = some pool ∧
      db' = { db with csrPool := pool.markDirty q } := by
  unfold copyIntoPool at h
  split at h
  · cases h
  · split at h
    · cases h
    · rename_i victim _
      split at h
      · cases h
      · rename_i pool hcp
        cases h
        exact ⟨victim, pool, hcp, rfl⟩

theorem Replaces.refl {cfg : Config} {readable : Prop} {graph : AdjMap} (hok : pool.Ok)
    (halloc : pool.AllocOk) : Replaces cfg readable graph pool pool ∅ := by
  refine ⟨hok, halloc, rfl, fun _ hq => hq, Nat.le_refl _, fun _ _ => rfl, ?_, ?_, ?_, ?_⟩
  · intro v p hp; simp at hp
  · intro v p hp; simp at hp
  · intro v p hp; simp at hp
  · intro _ v p hp; simp at hp

/-- One more page: allocate, copy, prepare the versions of its vertices. -/
theorem Replaces.addPage {cfg : Config} {env : SmoEnv} {readable : Prop} {graph : AdjMap}
    {pool0 : CsrPool} {db db1 db2 db3 : Db} {locs locs' : Locations}
    (h : Replaces cfg readable graph pool0 db.csrPool locs) (hvs : vs.Nodup)
    (hnew : ∀ v ∈ vs, v ∉ locs) (hpage : page.Stores cfg readable (itemsOf graph vs))
    (halloc : allocateCsrPage db = .ok q db1)
    (hcopy : copyIntoPool env message q page db1 = .ok () db2)
    (hprep : prepareVersions q (vertexMap page.vertexSpan) locs db2 = .ok locs' db3) :
    PoolOnly db db3 ∧ Replaces cfg readable graph pool0 db3.csrPool locs' ∧
      ∀ v, v ∈ locs' ↔ v ∈ vs ∨ v ∈ locs := by
  cases halloc
  set q := db.csrPool.allocatePage.1
  obtain ⟨hq1, hq2, hq3, hfn, hfs, hcl⟩ :=
    DiskManager.allocatePage_free h.ok.pageSize h.alloc.freeNodup h.alloc.freeLt
  obtain ⟨victim, pool, hcp, rfl⟩ := copyIntoPool_ok hcopy
  have hinst := CsrPool.installs_bufPageCp h.ok.allocatePage hcp
  have hids : page.vertexSpan.map CsrVertex.vertexId = vs := by
    rw [hpage.vertexIds, itemsOf_fst]
  obtain ⟨locs1, db4, hrun, hsame, hpool, hmem, hget, hne⟩ :=
    prepareVersions_ok q (vertexMap page.vertexSpan)
      (by rw [vertexMap_fst, hids]; exact hvs) locs
      { db with csrPool := pool.markDirty q }
  obtain ⟨rfl, rfl⟩ : locs1 = locs' ∧ db4 = db3 := by
    have he := hrun.symm.trans hprep
    simpa using he
  rw [vertexMap_fst, hids] at hmem hne
  -- the page is new: free or past the end for `pool0`, and none of the pages built so far
  have hunused : pool0.Unused q := by
    rcases hq2 with hq2 | hq2
    · exact .inl (h.freeSub q hq2)
    · exact .inr (Nat.le_trans h.countLe hq2)
  have hnotold : ∀ v p, locs.lookup v = some p → p.desired.pageNo ≠ q := by
    intro v p hp he
    have hin := (h.fresh v p hp).2
    rcases hq2 with hq2 | hq2
    · exact hin.2.1 (he ▸ hq2)
    · exact absurd hin.1 (by rw [he]; exact Nat.not_lt.2 hq2)
  have hself : db4.csrPool.page q = page := by rw [hpool]; exact hinst.page_self
  have hother : ∀ q', q' ≠ q → db4.csrPool.page q' = db.csrPool.page q' := by
    intro q' hq'
    rw [hpool]
    exact (hinst.page_ne q' hq').trans (CsrPool.page_allocatePage h.ok q')
  have hfree : db4.csrPool.diskManager.freePages = db.csrPool.diskManager.afterAllocate.freePages := by
    rw [hpool]; exact hinst.freePages
  have hcount : db.csrPool.diskManager.afterAllocate.globalPageCount ≤
      db4.csrPool.diskManager.globalPageCount := by
    rw [hpool]; exact hinst.globalPageCount
  have hret : db4.csrPool.retired = db.csrPool.retired := by rw [hpool]; exact hinst.retired
  have hcount' := Nat.le_trans hcl hcount
  have hqret : q ∉ db4.csrPool.retired := by
    rw [hret]
    intro hm
    rcases hq2 with hq2 | hq2
    · exact h.alloc.disjoint q hm hq2
    · exact absurd (h.alloc.retiredLt q hm) (Nat.not_lt.2 hq2)
  have hlookup : ∀ v p, locs1.lookup v = some p →
      (∃ i, vs[i]? = some v ∧ p.desired.pageNo = q ∧ p.desired.offset = i) ∨
      locs.lookup v = some p := by
    intro v p hp
    by_cases hv : v ∈ vs
    · obtain ⟨i, hi⟩ := mem_iff_getElem?.1 hv
      obtain ⟨e, he, hev, -⟩ := hpage.hasEntry i v (graph.get v) (getElem?_itemsOf.2 ⟨hi, rfl⟩)
      obtain ⟨p', hp', h1, h2⟩ := hget v i (mem_vertexMap.2 ⟨e, he, hev⟩)
      rw [hp] at hp'
      cases hp'
      exact .inl ⟨i, hi, h1, h2⟩
    · rw [hne v hv] at hp
      exact .inr hp
  have hold : ∀ v p, locs.lookup v = some p → locs1.lookup v = some p := by
    intro v p hp
    rw [hne v]
    · exact hp
    · intro hv
      refine hnew v hv ?_
      by_contra hc
      rw [lookup_eq_none.2 hc] at hp
      cases hp
  refine ⟨⟨hsame.items, hsame.deltaHeads, hsame.size, hsame.pageMap, hsame.giantDb⟩,
    ⟨by rw [hpool]; exact hinst.ok, ?_, hret.trans h.retired, ?_, Nat.le_trans h.countLe hcount',
      ?_, ?_, ?_, ?_, ?_⟩, hmem⟩
  · refine ⟨hfree ▸ hfn, fun q' hq' => ?_, hret ▸ h.alloc.retiredNodup, fun q' hq' => ?_,
      fun q' hq' hf => ?_⟩
    · rw [hfree] at hq'
      exact Nat.lt_of_lt_of_le (h.alloc.freeLt q' (hfs q' hq')) hcount'
    · rw [hret] at hq'
      exact Nat.lt_of_lt_of_le (h.alloc.retiredLt q' hq') hcount'
    · rw [hret] at hq'
      rw [hfree] at hf
      exact h.alloc.disjoint q' hq' (hfs q' hf)
  · intro q' hq'
    rw [hfree] at hq'
    exact h.freeSub q' (hfs q' hq')
  · intro q' hq'
    rw [hother q' fun he => hq' (he ▸ hunused)]
    exact h.old q' hq'
  · intro v p hp
    rcases hlookup v p hp with ⟨i, -, hpn, -⟩ | hp
    · rw [hpn]
      exact ⟨hunused, Nat.lt_of_lt_of_le hq3 hcount, by rw [hfree]; exact hq1, hqret⟩
    · obtain ⟨h1, h2, h3, h4⟩ := h.fresh v p hp
      refine ⟨h1, Nat.lt_of_lt_of_le h2 hcount', ?_, hret ▸ h4⟩
      rw [hfree]
      exact fun hf => h3 (hfs _ hf)
  · intro v p hp
    rcases hlookup v p hp with ⟨i, hi, hpn, hoff⟩ | hp
    · rw [hpn, hoff, hself]
      exact hpage.hasEntry i v (graph.get v) (getElem?_itemsOf.2 ⟨hi, rfl⟩)
    · rw [hother _ (hnotold v p hp)]
      exact h.entry v p hp
  · intro v p hp i e he
    rcases hlookup v p hp with ⟨j, -, hpn, -⟩ | hp
    · rw [hpn, hself] at he
      obtain ⟨hd, nbrs, hi⟩ := hpage.item i e he
      obtain ⟨p', hp', h1, h2⟩ := hget e.vertexId i (mem_vertexMap.2 ⟨e, he, rfl⟩)
      exact ⟨hd, p', hp', h1.trans hpn.symm, h2⟩
    · rw [hother _ (hnotold v p hp)] at he
      obtain ⟨hd, p', hp', h1, h2⟩ := h.owned v p hp i e he
      exact ⟨hd, p', hold _ _ hp', h1, h2⟩
  · intro hr v p hp hdeg
    rcases hlookup v p hp with ⟨i, hi, hpn, hoff⟩ | hp
    · rw [hpn, hoff, hself]
      exact hpage.read hr i v (graph.get v) (getElem?_itemsOf.2 ⟨hi, rfl⟩) hdeg
    · rw [hother _ (hnotold v p hp)]
      exact h.read hr v p hp hdeg

/-! ## The page without a split -/

/-- The ids of the merged lists fit the encodings of this build. -/
def IdsFit (cfg : Config) (graph : AdjMap) : Prop :=
  ∀ v, ∀ d ∈ graph.get v, d < cfg.idLimit

theorem IdsFit.items {cfg : Config} {graph : AdjMap} (h : IdsFit cfg graph) (vs : List VId) :
    ∀ it ∈ itemsOf graph vs, ∀ d ∈ it.2, d < cfg.idLimit := by
  intro it hit
  obtain ⟨v, -, rfl⟩ := mem_map.1 hit
  exact h v

theorem doNoSplit_replaces {cfg : Config} {env : SmoEnv} {graph : AdjMap} {db db' : Db}
    {locs : Locations} (hok : db.csrPool.Ok) (halloc : db.csrPool.AllocOk) {readable : Prop}
    (hids : readable → IdsFit cfg graph) (h : doNoSplit cfg env graph db = .ok locs db') :
    PoolOnly db db' ∧ Replaces cfg readable graph db.csrPool db'.csrPool locs ∧
      ∀ v, v ∈ locs ↔ v ∈ graph := by
  obtain ⟨q, page, vm, message, db1, db2, hbuild, hal, hcopy, hprep⟩ := doNoSplit_cases h
  obtain ⟨hlaid, rfl⟩ := buildFromAdjacencyMap_ok hbuild
  have hperm := env.viewOrder.perm graph.keys
  have hst : page.Stores cfg readable (itemsOf graph (env.viewOrder.order graph.keys)) :=
    hlaid.stores fun hr => (hids hr).items _
  obtain ⟨hsame, hrep, hmem⟩ := (Replaces.refl hok halloc).addPage
    (hperm.nodup_iff.2 graph.keys_nodup) (fun v _ => AList.notMem_empty v) hst hal hcopy hprep
  refine ⟨hsame, hrep, fun v => (hmem v).trans ?_⟩
  rw [hperm.mem_iff, ← AList.mem_keys]
  simp [AList.notMem_empty]

/-! ## The pages of a split -/

/-- The packing loop of a split: `done` are on finished pages, `cur` on the builder's page. -/
structure Packing (cfg : Config) (env : SmoEnv) (graph : AdjMap) (db0 db : Db)
    (done cur : List VId) (builder : CsrPageBuilder) (locs : Locations) : Prop where
  same : PoolOnly db0 db
  replaces : Replaces cfg (cfg.neighborCompress = false ∧ IdsFit cfg graph) graph db0.csrPool
    db.csrPool locs
  packs : builder.Packs cfg env.slots (itemsOf graph cur)
  mem : ∀ v, v ∈ locs ↔ v ∈ done
  nodup : (done ++ cur).Nodup

variable {cfg : Config} {env : SmoEnv} {graph : AdjMap} {db0 db db' : Db} {done cur : List VId}
  {builder builder' : CsrPageBuilder} {locs locs' : Locations}

theorem Packing.flush (h : Packing cfg env graph db0 db done cur builder locs)
    (hrun : flushCurrentPage cfg env builder locs db = .ok (builder', locs') db') :
    Packing cfg env graph db0 db' (done ++ cur) [] builder' locs' := by
  obtain ⟨hempty, rfl, rfl, rfl⟩ | ⟨q, page, vm, message, db1, db2, hbuild, hal, hcopy, hprep⟩ :=
    flushCurrentPage_cases hrun
  · have hcur : cur = [] := by
      have hlen := congrArg List.length h.packs.entries
      rw [length_lay, hempty, itemsOf, length_map] at hlen
      exact length_eq_zero_iff.1 hlen.symm
    subst hcur
    exact ⟨h.same, h.replaces, h.packs, by simpa using h.mem, by simpa using h.nodup⟩
  · obtain ⟨-, -, rfl, hb'⟩ := h.packs.build hbuild
    obtain ⟨hnd1, hnd2, hdis⟩ := nodup_append.1 h.nodup
    obtain ⟨hsame, hrep, hmem⟩ := h.replaces.addPage hnd2
      (fun v hv hl => hdis v ((h.mem v).1 hl) v hv rfl)
      (h.packs.stores hbuild And.left fun hr => hr.2.items cur) hal hcopy hprep
    refine ⟨h.same.trans hsame, hrep, hb', fun v => ?_, by simpa using h.nodup⟩
    rw [hmem, h.mem, mem_append]
    exact or_comm

section

variable (h : Packing cfg env graph db0 db done cur builder locs) (hv : v ∉ done ++ cur)
include h hv

theorem Packing.add
    (hadd : builder.addVertex cfg v (graph.get v) (env.slots v) = .ok (some builder')) :
    Packing cfg env graph db0 db done (cur ++ [v]) builder' locs := by
  refine ⟨h.same, h.replaces, ?_, h.mem, ?_⟩
  · have hp := h.packs.addVertex hadd
    simpa [itemsOf] using hp
  · rw [← append_assoc, nodup_append]
    refine ⟨h.nodup, by simp, fun a ha b hb => ?_⟩
    rw [mem_singleton.1 hb]
    exact fun he => hv (he ▸ ha)

theorem Packing.packVertex
    (hrun : packVertex cfg env graph v builder locs db = .ok (builder', locs') db') :
    ∃ done' cur', Packing cfg env graph db0 db' done' cur' builder' locs' ∧
      done' ++ cur' = (done ++ cur) ++ [v] := by
  obtain ⟨hadd, rfl, rfl⟩ | ⟨b, hflush, hadd⟩ := packVertex_cases hrun
  · exact ⟨done, cur ++ [v], h.add hv hadd, by simp⟩
  · -- the page is full: it is written, and the vertex opens the next one
    exact ⟨done ++ cur, [] ++ [v], (h.flush hflush).add (by simpa using hv) hadd, by simp⟩

end

theorem Packing.packVertices (vs : List VId)
    (h : Packing cfg env graph db0 db done cur builder locs) (hvs : (done ++ cur ++ vs).Nodup)
    (hg : ∀ v ∈ vs, v ∈ graph)
    (hrun : packVertices cfg env graph vs builder locs db = .ok (builder', locs') db') :
    ∃ done' cur', Packing cfg env graph db0 db' done' cur' builder' locs' ∧
      done' ++ cur' = done ++ cur ++ vs := by
  induction vs generalizing db done cur builder locs with
  | nil =>
    obtain ⟨he, rfl⟩ := pure_eq_ok.1 hrun
    cases he
    exact ⟨done, cur, h, by simp⟩
  | cons v vs ih =>
    unfold BwGraph.packVertices at hrun
    rw [if_pos (hg v mem_cons_self)] at hrun
    obtain ⟨⟨b1, locs1⟩, db1, h1, hrun⟩ := bind_eq_ok.1 hrun
    have hv : v ∉ done ++ cur := by
      intro hm
      exact (nodup_append.1 hvs).2.2 v hm v mem_cons_self rfl
    obtain ⟨done1, cur1, hp1, he1⟩ := h.packVertex hv h1
    have heq : done ++ cur ++ v :: vs = done1 ++ cur1 ++ vs := by rw [he1]; simp
    obtain ⟨done2, cur2, hp2, he2⟩ := ih hp1 (heq ▸ hvs)
      (fun w hw => hg w (mem_cons_of_mem _ hw)) hrun
    exact ⟨done2, cur2, hp2, by rw [he2, heq]⟩

theorem doSplit_replaces (hok : db.csrPool.Ok) (halloc : db.csrPool.AllocOk)
    (h : doSplit cfg env graph db = .ok locs db') :
    PoolOnly db db' ∧
      Replaces cfg (cfg.neighborCompress = false ∧ IdsFit cfg graph) graph db.csrPool db'.csrPool
        locs ∧
      ∀ v, v ∈ locs ↔ v ∈ graph := by
  unfold doSplit at h
  obtain ⟨⟨b1, locs1⟩, db1, hpack, h⟩ := bind_eq_ok.1 h
  obtain ⟨⟨b2, locs2⟩, db2, hflush, h⟩ := bind_eq_ok.1 h
  obtain ⟨he, rfl⟩ := pure_eq_ok.1 h
  subst he
  have hperm := gorder_perm cfg env.gorder graph 20
  have h0 : Packing cfg env graph db db [] [] CsrPageBuilder.init ∅ :=
    ⟨PoolOnly.refl db, Replaces.refl hok halloc, CsrPageBuilder.Packs.init,
      by simp [AList.notMem_empty], by simp⟩
  obtain ⟨done, cur, hp, heq⟩ := h0.packVertices _
    (by simpa using hperm.nodup_iff.2 graph.keys_nodup)
    (fun v hv => AList.mem_keys.2 (hperm.mem_iff.1 hv)) hpack
  have hp2 := hp.flush hflush
  refine ⟨hp2.same, hp2.replaces, fun v => ?_⟩
  rw [hp2.mem, heq, AList.mem_keys, nil_append, nil_append, hperm.mem_iff]

/-! ## The new locations, whatever the pool -/

theorem prepareVersions_mem (h : prepareVersions q vm locs db = .ok locs' db') :
    PoolOnly db db' ∧ ∀ v, v ∈ locs' ↔ v ∈ vm.map Prod.fst ∨ v ∈ locs := by
  induction vm generalizing locs db with
  | nil =>
    obtain ⟨rfl, rfl⟩ := pure_eq_ok.1 h
    exact ⟨.refl db, by simp⟩
  | cons x vm ih =>
    obtain ⟨v, offset⟩ := x
    obtain ⟨hsame, hmem⟩ := ih h
    refine ⟨⟨hsame.items, hsame.deltaHeads, hsame.size, hsame.pageMap, hsame.giantDb⟩,
      fun w => ?_⟩
    rw [hmem, mem_insert, map_cons, mem_cons]
    tauto

/-- One more page, whatever the pool. -/
theorem addPage_mem {db1 db2 : Db} (halloc : allocateCsrPage db = .ok q db1)
    (hcopy : copyIntoPool env message q page db1 = .ok () db2)
    (hprep : prepareVersions q (vertexMap page.vertexSpan) locs db2 = .ok locs' db') :
    PoolOnly db db' ∧ ∀ v, v ∈ locs' ↔ v ∈ page.vertexSpan.map CsrVertex.vertexId ∨ v ∈ locs := by
  cases halloc
  obtain ⟨victim, pool, -, rfl⟩ := copyIntoPool_ok hcopy
  obtain ⟨hsame, hmem⟩ := prepareVersions_mem hprep
  rw [vertexMap_fst] at hmem
  exact ⟨⟨hsame.items, hsame.deltaHeads, hsame.size, hsame.pageMap, hsame.giantDb⟩, hmem⟩

theorem doNoSplit_mem (h : doNoSplit cfg env graph db = .ok locs db') :
    PoolOnly db db' ∧ ∀ v, v ∈ locs ↔ v ∈ graph := by
  obtain ⟨q, page, vm, message, db1, db2, hbuild, hal, hcopy, hprep⟩ := doNoSplit_cases h
  obtain ⟨hlaid, rfl⟩ := buildFromAdjacencyMap_ok hbuild
  obtain ⟨hsame, hmem⟩ := addPage_mem hal hcopy hprep
  refine ⟨hsame, fun v => (hmem v).trans ?_⟩
  have hids : page.vertexSpan.map CsrVertex.vertexId = env.viewOrder.order graph.keys := by
    rw [hlaid.vertexSpan, lay_vertexIds]
    exact itemsOf_fst graph _
  rw [hids, (env.viewOrder.perm graph.keys).mem_iff, ← AList.mem_keys]
  simp [AList.notMem_empty]

/-- The vertices of a split so far: on finished pages, or on the builder's page. -/
def Packed (builder : CsrPageBuilder) (locs : Locations) (v : VId) : Prop :=
  v ∈ builder.entries.map CsrVertex.vertexId ∨ v ∈ locs

theorem flushCurrentPage_mem
    (h : flushCurrentPage cfg env builder locs db = .ok (builder', locs') db') :
    PoolOnly db db' ∧ builder'.entries = [] ∧ ∀ v, v ∈ locs' ↔ Packed builder locs v := by
  obtain ⟨hnil, rfl, rfl, rfl⟩ | ⟨q, page, vm, message, db1, db2, hbuild, hal, hcopy, hprep⟩ :=
    flushCurrentPage_cases h
  · refine ⟨.refl _, hnil, fun v => ?_⟩
    rw [Packed, hnil]
    simp
  · unfold CsrPageBuilder.build at hbuild
    simp only at hbuild
    split_ifs at hbuild
    cases hbuild
    obtain ⟨hsame, hmem⟩ := addPage_mem hal hcopy hprep
    exact ⟨hsame, rfl, hmem⟩

theorem addVertex_mem {n : Nat} (h : builder.addVertex cfg v nbrs n = .ok (some builder')) (w : VId) :
    Packed builder' locs w ↔ w = v ∨ Packed builder locs w := by
  have hids : builder'.entries.map CsrVertex.vertexId =
      builder.entries.map CsrVertex.vertexId ++ [v] := by
    unfold CsrPageBuilder.addVertex at h
    dsimp only at h
    split_ifs at h <;> cases h <;> simp
  unfold Packed
  rw [hids, mem_append, mem_singleton]
  tauto

theorem packVertex_mem (h : packVertex cfg env graph v builder locs db = .ok (builder', locs') db') :
    PoolOnly db db' ∧ ∀ w, Packed builder' locs' w ↔ w = v ∨ Packed builder locs w := by
  obtain ⟨hadd, rfl, rfl⟩ | ⟨b, hflush, hadd⟩ := packVertex_cases h
  · exact ⟨.refl _, addVertex_mem hadd⟩
  · obtain ⟨hsame, hnil, hmem⟩ := flushCurrentPage_mem hflush
    refine ⟨hsame, fun w => (addVertex_mem hadd w).trans ?_⟩
    rw [← hmem, Packed, hnil]
    simp

theorem packVertices_mem (hg : ∀ v ∈ vs, v ∈ graph)
    (h : packVertices cfg env graph vs builder locs db = .ok (builder', locs') db') :
    PoolOnly db db' ∧ ∀ w, Packed builder' locs' w ↔ w ∈ vs ∨ Packed builder locs w := by
  induction vs generalizing db builder locs with
  | nil =>
    obtain ⟨he, rfl⟩ := pure_eq_ok.1 h
    cases he
    exact ⟨.refl db, by simp⟩
  | cons v vs ih =>
    unfold packVertices at h
    rw [if_pos (hg v mem_cons_self)] at h
    obtain ⟨⟨b1, locs1⟩, db1, hone, h⟩ := bind_eq_ok.1 h
    obtain ⟨hsame, hmem⟩ := packVertex_mem hone
    obtain ⟨hsame', hmem'⟩ := ih (fun w hw => hg w (mem_cons_of_mem _ hw)) h
    refine ⟨hsame.trans hsame', fun w => ?_⟩
    rw [hmem', hmem, mem_cons]
    tauto

theorem doSplit_mem (h : doSplit cfg env graph db = .ok locs db') :
    PoolOnly db db' ∧ ∀ v, v ∈ locs ↔ v ∈ graph := by
  unfold doSplit at h
  obtain ⟨⟨b1, locs1⟩, db1, hpack, h⟩ := bind_eq_ok.1 h
  obtain ⟨⟨b2, locs2⟩, db2, hflush, h⟩ := bind_eq_ok.1 h
  obtain ⟨he, rfl⟩ := pure_eq_ok.1 h
  subst he
  have hperm := gorder_perm cfg env.gorder graph 20
  obtain ⟨hsame, hmem⟩ :=
    packVertices_mem (fun v hv => AList.mem_keys.2 (hperm.mem_iff.1 hv)) hpack
  obtain ⟨hsame', -, hmem'⟩ := flushCurrentPage_mem hflush
  refine ⟨hsame.trans hsame', fun v => ?_⟩
  rw [hmem', hmem, hperm.mem_iff, ← AList.mem_keys, Packed]
  simp [CsrPageBuilder.init, AList.notMem_empty]

/-! ## The giant vertices -/

/-- Which vertices of the merged graph are kept in the giant store. -/
def StoredGiant (cfg : Config) (vi : VertexIndex) (graph : AdjMap) (v : VId) : Prop :=
  vi.isGiantVertex v = true ∨ (graph.get v).length ≥ cfg.giantDegreeBound

instance (cfg : Config) (vi : VertexIndex) (graph : AdjMap) (v : VId) :
    Decidable (StoredGiant cfg vi graph v) := inferInstanceAs (Decidable (_ ∨ _))

theorem persistGiants_ok {vs giants giants' : List VId}
    (h : persistGiants cfg env graph vs giants db = .ok giants' db') :
    db'.vertexIndex = db.vertexIndex ∧ db'.pageMap = db.pageMap ∧ db'.csrPool = db.csrPool ∧
      (∀ v, v ∈ giants' ↔ (v ∈ vs ∧ StoredGiant cfg db.vertexIndex graph v) ∨ v ∈ giants) ∧
      (∀ v, v ∈ vs → StoredGiant cfg db.vertexIndex graph v →
        db'.giantDb.store v = some ((graph.get v).insertionSort (· ≤ ·))) ∧
      (∀ v, ¬ (v ∈ vs ∧ StoredGiant cfg db.vertexIndex graph v) →
        db'.giantDb.store v = db.giantDb.store v) := by
  induction vs generalizing giants db with
  | nil =>
    obtain ⟨rfl, rfl⟩ := pure_eq_ok.1 h
    simp
  | cons w vs ih =>
    simp only [persistGiants] at h
    by_cases hw : StoredGiant cfg db.vertexIndex graph w
    · have hcond := hw
      unfold StoredGiant at hcond
      simp only [hcond, if_true] at h
      split_ifs at h with hput
      · obtain ⟨h1, h2, h3, h4, h5, h6⟩ := ih h
        refine ⟨h1, h2, h3, fun v => ?_, fun v hv hs => ?_, fun v hv => ?_⟩
        · rw [h4, mem_cons, mem_cons]
          by_cases hvw : v = w
          · subst hvw; simp [hw]
          · simp [hvw]
        · by_cases hin : v ∈ vs
          · exact h5 v hin hs
          · rw [h6 v fun hc => hin hc.1]
            rcases mem_cons.1 hv with rfl | hv
            · simp [GiantDb.insertVertex]
            · exact absurd hv hin
        · have hvw : v ≠ w := by
            rintro rfl
            exact hv ⟨mem_cons_self, hw⟩
          rw [h6 v fun hc => hv ⟨mem_cons_of_mem _ hc.1, hc.2⟩]
          simp [GiantDb.insertVertex, hvw]
    · have hcond := hw
      unfold StoredGiant at hcond
      simp only [hcond, if_false] at h
      obtain ⟨h1, h2, h3, h4, h5, h6⟩ := ih h
      refine ⟨h1, h2, h3, fun v => ?_, fun v hv hs => ?_, fun v hv => ?_⟩
      · rw [h4, mem_cons]
        by_cases hvw : v = w
        · subst hvw; simp [hw]
        · simp [hvw]
      · rcases mem_cons.1 hv with rfl | hv
        · exact absurd hs hw
        · exact h5 v hv hs
      · exact h6 v fun hc => hv ⟨mem_cons_of_mem _ hc.1, hc.2⟩

end BwGraph
