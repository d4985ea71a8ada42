import BwGraph.Db.Invariant

/-
  A consolidation keeps the invariant. `Mergeable cfg paged db p` is what it takes: page `p` is the
  page of some vertex, its vertices are synced, the replacement can be read back, and every pending
  insertion is of a vertex that has an entry. Then the merged graph holds the vertices of the page
  with the sets they are to show (`Mergeable.mem_graph`, `Mergeable.get_graph`), and publishing it
  shows the same sets as before (`Inv.published`).
-/

namespace BwGraph

/-- When a consolidation of `p` merges what its vertices show. -/
structure Mergeable (cfg : Config) (paged : Set VId) (db : Db) (p : PageNo) : Prop where
  live : ∃ v ∈ paged, (db.location v).1 = p
  readable : Readable cfg (mergedGraph cfg db p)
  synced : ∀ v ∈ paged, (db.location v).1 = p → Synced db v
  inserts : ∀ r ∈ db.pageMap.pageRecs p, r.type = .insert → r.first ∈ paged

variable {cfg : Config} {paged : Set VId} {nbrs : VId → Set VId} {db db' : Db} {p : PageNo}
  {locs : Locations}

/-! ## The merged graph -/

variable {v : VId} {graph : AdjMap} {prepared : PreparedVertexVersion}

section

variable (hm : Mergeable cfg paged db p) (hi : Inv cfg paged nbrs db)
include hm hi

theorem Mergeable.uniqueEntry (hv : v ∈ paged) (hp : (db.location v).1 = p) :
    (db.csrPool.page p).UniqueEntry v (db.location v).2 := by
  subst hp
  refine ⟨hi.entry v hv, fun j hj => ?_⟩
  obtain ⟨-, hl⟩ := hi.owned v hv v j hj
  rw [hl]

/-- The merged graph holds exactly the vertices of the page. -/
theorem Mergeable.mem_graph : v ∈ mergedGraph cfg db p ↔ v ∈ paged ∧ (db.location v).1 = p := by
  unfold mergedGraph
  rw [mem_buildMergedGraph]
  constructor
  · rintro (⟨i, he⟩ | ⟨r, hr, -, ht, rfl⟩)
    · obtain ⟨w, hw, hwp⟩ := hm.live
      subst hwp
      obtain ⟨h1, h2⟩ := hi.owned w hw v i he
      exact ⟨h1, by rw [h2]⟩
    · exact ⟨hm.inserts r hr ht, (hi.pending p r hr).2.2.2⟩
  · rintro ⟨hv, hp⟩
    exact .inl ⟨_, (hm.uniqueEntry hi hv hp).here⟩

omit hm hi in
theorem Inv.baseOnPage (hi : Inv cfg paged nbrs db) (hv : v < db.vertexIndex.size) :
    baseOnPage cfg (db.csrPool.page (db.location v).1) db.vertexIndex db.giantDb v
      (db.location v).2 = db.base cfg v := by
  unfold BwGraph.baseOnPage Db.base
  by_cases hg : (db.vertexIndex.items v).vertexType = .giant
  · rw [if_pos ((hi.isGiantVertex hv).2 hg), if_pos hg]
  · rw [if_neg fun hc => hg ((hi.isGiantVertex hv).1 hc), if_neg hg]

/-- The merged list of a vertex is the set it shows. -/
theorem Mergeable.get_graph (hv : v ∈ paged) (hp : (db.location v).1 = p) :
    {d | d ∈ (mergedGraph cfg db p).get v} = nbrs v := by
  obtain ⟨cells, hc⟩ := hi.shows v (hi.pagedLt v hv)
  obtain ⟨cells', hc', hops⟩ := hm.synced v hv hp
  have he : cells' = cells := hc'.det hc.chain
  subst he
  ext d
  have hbase := hi.baseOnPage (hi.pagedLt v hv)
  rw [hp] at hbase hops
  unfold mergedGraph
  rw [Set.mem_ofPred_eq, mem_get_buildMergedGraph (hm.uniqueEntry hi hv hp), hbase, hops, hc.set]

omit hm hi in
/-- The neighbours a vertex shows are vertices. -/
theorem Inv.nbrs_lt (hi : Inv cfg paged nbrs db) (hv : v < db.vertexIndex.size) {d : VId}
    (hd : d ∈ nbrs v) : d < db.vertexIndex.size := by
  obtain ⟨cells, hc⟩ := hi.shows v hv
  rw [← hc.set] at hd
  rcases Lww.mem_of_mem_lww hd with hd | ⟨o, ho, rfl⟩
  · exact hi.baseIds v hv d hd
  · rw [List.mem_reverse, opsOf] at ho
    obtain ⟨c, hcm, rfl⟩ := List.mem_map.1 ho
    rw [DeltaRecord.op_key]
    exact hc.ids c hcm

theorem Mergeable.get_lt {v d : VId} (hd : d ∈ (mergedGraph cfg db p).get v) :
    d < db.vertexIndex.size := by
  by_cases hv : v ∈ mergedGraph cfg db p
  · obtain ⟨hv, hp⟩ := (hm.mem_graph hi).1 hv
    have hset := hm.get_graph hi hv hp
    exact hi.nbrs_lt (hi.pagedLt v hv) (hset ▸ hd)
  · rw [AdjMap.get_eq_nil_of_notMem hv] at hd
    cases hd

theorem Mergeable.idsFit : IdsFit cfg (mergedGraph cfg db p) :=
  fun _ _ hd => Nat.lt_of_lt_of_le (hm.get_lt hi hd) hi.size

end

/-! ## The published graph -/

theorem mem_locations : v ∈ locs ↔ ∃ prepared, locs.lookup v = some prepared := by
  constructor
  · intro hv
    cases hl : locs.lookup v with
    | none => exact absurd hv (AList.lookup_eq_none.1 hl)
    | some x => exact ⟨x, rfl⟩
  · rintro ⟨x, hx⟩
    by_contra hc
    rw [AList.lookup_eq_none.2 hc] at hx
    cases hx

theorem page_with_retired (pool : CsrPool) (l : List PageNo) (q : PageNo) :
    ({ pool with retired := l } : CsrPool).page q = pool.page q := rfl

section

variable (h : Published cfg p graph db db' locs)
include h

/-- A vertex outside the merged graph keeps its location. -/
theorem Published.location_kept (hv : v ∉ graph) : db'.location v = db.location v := by
  unfold Db.location
  rw [(h.unswitched v hv).1]

/-- A vertex of the merged graph moves to its prepared location. -/
theorem Published.location_switched (hl : locs.lookup v = some prepared) :
    db'.location v = (prepared.desired.pageNo, prepared.desired.offset) := by
  unfold Db.location
  rw [(h.switched v prepared hl).1]

/-- The base list of a vertex of the merged graph is its merged list. -/
theorem Published.base_switched (hr : Readable cfg graph) (hids : IdsFit cfg graph) (hv : v ∈ graph)
    (hsort : (graph.get v).insertionSort (· ≤ ·) = graph.get v) : db'.base cfg v = graph.get v := by
  obtain ⟨prepared, hl⟩ := mem_locations.1 ((h.mem v).2 hv)
  obtain ⟨-, htype, -, -⟩ := h.switched v prepared hl
  unfold Db.base
  rw [h.location_switched hl]
  by_cases hs : StoredGiant cfg db.vertexIndex graph v
  · rw [if_pos (htype.2 hs), GiantDb.readNeighborClone, h.stored v hv hs, hsort]
    rfl
  · rw [if_neg fun hg => hs (htype.1 hg)]
    have hdeg : (graph.get v).length < cfg.giantDegreeBound := by
      by_contra hc
      exact hs (.inr (Nat.not_lt.1 hc))
    exact h.pages.read ⟨hr, hids⟩ v prepared hl hdeg

theorem Published.base_kept (hv : v ∉ graph)
    (hp : (db.vertexIndex.items v).vertexType ≠ .giant → ¬ db.csrPool.Unused (db.location v).1) :
    db'.base cfg v = db.base cfg v := by
  unfold Db.base
  rw [h.location_kept hv, (h.unswitched v hv).1]
  split_ifs with hg
  · rw [GiantDb.readNeighborClone, GiantDb.readNeighborClone, h.kept v fun hc => hv hc.1]
  · exact congrArg (fun page => CsrPage.readNeighbors cfg page _) (h.pages.old _ (hp hg))

theorem Published.poolOk : db'.csrPool.Ok :=
  ⟨h.pages.ok.pageSize, h.pages.ok.capacity, h.pages.ok.unwritten, h.pages.ok.clean⟩

theorem Published.allocOk (hp : db.csrPool.InUse p) : db'.csrPool.AllocOk := by
  have ha := h.pages.alloc
  refine ⟨ha.freeNodup, ha.freeLt, ?_, fun q hq => ?_, fun q hq => ?_⟩
  · rw [h.retired]
    exact List.nodup_cons.2 ⟨hp.2.2, ha.retiredNodup⟩
  · rw [h.retired] at hq
    rcases List.mem_cons.1 hq with rfl | hq
    · exact Nat.lt_of_lt_of_le hp.1 h.pages.countLe
    · exact ha.retiredLt q hq
  · rw [h.retired] at hq
    rcases List.mem_cons.1 hq with rfl | hq
    · exact fun hf => hp.2.1 (h.pages.freeSub q hf)
    · exact ha.disjoint q hq

/-- A page in use other than the consolidated one stays in use. -/
theorem Published.inUse_kept {q : PageNo} (hq : db.csrPool.InUse q) (hne : q ≠ p) :
    db'.csrPool.InUse q := by
  refine ⟨Nat.lt_of_lt_of_le hq.1 h.pages.countLe, fun hf => hq.2.1 (h.pages.freeSub q hf), ?_⟩
  rw [h.retired, List.mem_cons, not_or]
  exact ⟨hne, hq.2.2⟩

/-- A replacement page is another page than every page in use before. -/
theorem Published.fresh_ne (hl : locs.lookup v = some prepared) {q : PageNo}
    (hq : db.csrPool.InUse q) : prepared.desired.pageNo ≠ q := by
  rintro rfl
  exact hq.not_unused (h.pages.fresh v prepared hl).1

theorem Published.inUse_switched (hl : locs.lookup v = some prepared) (hp : db.csrPool.InUse p) :
    db'.csrPool.InUse prepared.desired.pageNo := by
  obtain ⟨h1, h2, h3⟩ := (h.pages.fresh v prepared hl).2
  refine ⟨h1, h2, ?_⟩
  rw [h.retired, List.mem_cons, not_or]
  exact ⟨h.fresh_ne hl hp, h3⟩

theorem Published.chain {head : Option DeltaLoc} {cells : List (DeltaLoc × DeltaRecord)}
    (hc : DeltaChain db.pageMap head cells) : DeltaChain db'.pageMap head cells :=
  hc.congr fun x _ => h.getRecord x.1

end

section

variable (hm : Mergeable cfg paged db p) (hi : Inv cfg paged nbrs db)
  (h : Published cfg p (mergedGraph cfg db p) db db' locs)
include hm hi h

/-- The base list of a vertex of the page becomes its merged list. -/
theorem Mergeable.base_switched (hv : v ∈ paged) (hp : (db.location v).1 = p) :
    db'.base cfg v = (mergedGraph cfg db p).get v := by
  have hg := (hm.mem_graph hi).2 ⟨hv, hp⟩
  exact h.base_switched hm.readable (hm.idsFit hi) hg (buildMergedGraph_sorted hg).2

/-- The base lists of the other vertices stay. -/
theorem Mergeable.base_kept (hv : v < db.vertexIndex.size)
    (hn : ¬ (v ∈ paged ∧ (db.location v).1 = p)) : db'.base cfg v = db.base cfg v := by
  refine h.base_kept (fun hg => hn ((hm.mem_graph hi).1 hg)) fun hg => (hi.inUse v ?_).not_unused
  by_contra hc
  exact hg (hi.giant v hv hc)

end

/-- Publishing the merged graph of a mergeable page keeps the invariant. -/
theorem Inv.published (hi : Inv cfg paged nbrs db) (hm : Mergeable cfg paged db p)
    (h : Published cfg p (mergedGraph cfg db p) db db' locs) : Inv cfg paged nbrs db' := by
  have hpin : db.csrPool.InUse p := by
    obtain ⟨w, hw, rfl⟩ := hm.live
    exact hi.inUse w hw
  have hsw : ∀ v, v ∈ paged → (db.location v).1 = p → ∃ prepared, locs.lookup v = some prepared :=
    fun v hv hp => mem_locations.1 ((h.mem v).2 ((hm.mem_graph hi).2 ⟨hv, hp⟩))
  have hkeep : ∀ v, ¬ (v ∈ paged ∧ (db.location v).1 = p) → v ∉ mergedGraph cfg db p :=
    fun v hv hg => hv ((hm.mem_graph hi).1 hg)
  have hlocks : ∀ v prepared, locs.lookup v = some prepared →
      v ∈ paged ∧ (db.location v).1 = p := fun v prepared hl =>
    (hm.mem_graph hi).1 ((h.mem v).1 (mem_locations.2 ⟨prepared, hl⟩))
  refine ⟨h.poolOk, h.allocOk hpin, h.pageMap, fun q => ?_, by rw [h.size]; exact hi.size, ?_, ?_,
    by rw [h.size]; exact hi.pagedLt, ?_, ?_, ?_, ?_, ?_, ?_⟩
  · by_cases hq : q = p
    · rw [hq]; exact h.forwarder_self
    · rw [h.forwarder_ne q hq]; exact hi.noForwarder q
  · intro v hv
    rw [h.size] at hv
    by_cases hvp : v ∈ paged ∧ (db.location v).1 = p
    · obtain ⟨prepared, hl⟩ := hsw v hvp.1 hvp.2
      rw [(h.switched v prepared hl).2.2.1]
      exact hi.undeleted v hv
    · rw [(h.unswitched v (hkeep v hvp)).1]
      exact hi.undeleted v hv
  · intro v hv hnp
    rw [h.size] at hv
    rw [(h.unswitched v (hkeep v fun hc => hnp hc.1)).1]
    exact hi.giant v hv hnp
  · intro v hv
    unfold Db.HasEntry
    by_cases hp : (db.location v).1 = p
    · obtain ⟨prepared, hl⟩ := hsw v hv hp
      rw [h.location_switched hl]
      exact h.pages.entry v prepared hl
    · rw [h.location_kept (hkeep v fun hc => hp hc.2)]
      have hold := h.pages.old _ (hi.inUse v hv).not_unused
      rw [page_with_retired] at hold
      rw [hold]
      exact hi.entry v hv
  · intro v hv
    by_cases hp : (db.location v).1 = p
    · obtain ⟨prepared, hl⟩ := hsw v hv hp
      rw [h.location_switched hl]
      exact h.inUse_switched hl hpin
    · rw [h.location_kept (hkeep v fun hc => hp hc.2)]
      exact h.inUse_kept (hi.inUse v hv) hp
  · intro v hv w i hwi
    by_cases hp : (db.location v).1 = p
    · obtain ⟨prepared, hl⟩ := hsw v hv hp
      rw [h.location_switched hl] at hwi ⊢
      obtain ⟨e, he, rfl, -⟩ := hwi
      obtain ⟨-, prepared', hl', hq, hoff⟩ := h.pages.owned v prepared hl i e he
      refine ⟨(hlocks _ _ hl').1, ?_⟩
      rw [h.location_switched hl', hq, hoff]
    · rw [h.location_kept (hkeep v fun hc => hp hc.2)] at hwi ⊢
      have hold := h.pages.old _ (hi.inUse v hv).not_unused
      rw [page_with_retired] at hold
      rw [hold] at hwi
      obtain ⟨h1, h2⟩ := hi.owned v hv w i hwi
      refine ⟨h1, ?_⟩
      rw [h.location_kept (hkeep w fun hc => hp (by rw [← hc.2, h2])), h2]
  · intro v hv d hd
    rw [h.size] at hv ⊢
    by_cases hvp : v ∈ paged ∧ (db.location v).1 = p
    · rw [hm.base_switched hi h hvp.1 hvp.2] at hd
      exact hm.get_lt hi hd
    · rw [hm.base_kept hi h hv hvp] at hd
      exact hi.baseIds v hv d hd
  · intro v hv
    rw [h.size] at hv
    by_cases hvp : v ∈ paged ∧ (db.location v).1 = p
    · obtain ⟨prepared, hl⟩ := hsw v hvp.1 hvp.2
      refine ⟨[], ?_, by simp, by simp, by simp, ?_⟩
      · rw [(h.switched v prepared hl).2.2.2]
        exact .nil
      · rw [hm.base_switched hi h hvp.1 hvp.2, hm.get_graph hi hvp.1 hvp.2]
        rfl
    · obtain ⟨cells, hc⟩ := hi.shows v hv
      refine ⟨cells, ?_, hc.edge, hc.source, by rw [h.size]; exact hc.ids, ?_⟩
      · rw [(h.unswitched v (hkeep v hvp)).2]
        exact h.chain hc.chain
      · rw [hm.base_kept hi h hv hvp]
        exact hc.set
  · intro q r hr
    rw [h.size]
    by_cases hq : q = p
    · subst hq
      rw [h.recs_self] at hr
      cases hr
    · rw [h.recs_ne q hq] at hr
      obtain ⟨h1, h2, h3, h4⟩ := hi.pending q r hr
      refine ⟨h1, h2, h3, ?_⟩
      rw [h.location_kept (hkeep r.first fun hc => hq (by rw [← h4, hc.2]))]
      exact h4

/-- Publishing keeps the vertices with entries synced; those of the page start afresh. -/
theorem Synced.published (hi : Inv cfg paged nbrs db) (hm : Mergeable cfg paged db p)
    (h : Published cfg p (mergedGraph cfg db p) db db' locs) {v : VId} (hv : v ∈ paged)
    (hs : Synced db v) : Synced db' v := by
  unfold Synced
  by_cases hp : (db.location v).1 = p
  · obtain ⟨prepared, hl⟩ := mem_locations.1 ((h.mem v).2 ((hm.mem_graph hi).2 ⟨hv, hp⟩))
    have hne : prepared.desired.pageNo ≠ p := h.fresh_ne hl (hp ▸ hi.inUse v hv)
    refine ⟨[], by rw [(h.switched v prepared hl).2.2.2]; exact .nil, ?_⟩
    rw [h.location_switched hl, h.recs_ne _ hne]
    -- whatever is pending on the new page is of vertices located there
    have hnone : ∀ r ∈ db.pageMap.pageRecs prepared.desired.pageNo,
        ¬ (r.target = .edge ∧ r.first = v) := by
      rintro r hr ⟨-, rfl⟩
      exact hne ((hi.pending _ r hr).2.2.2.symm.trans hp)
    simp only [opsFor, opsOf, List.map_nil, List.reverse_nil, List.map_eq_nil_iff,
      List.filter_eq_nil_iff, decide_eq_true_eq]
    exact hnone
  · obtain ⟨cells, hc, hops⟩ := hs
    have hg : v ∉ mergedGraph cfg db p := fun hg => hp ((hm.mem_graph hi).1 hg).2
    refine ⟨cells, by rw [(h.unswitched v hg).2]; exact h.chain hc, ?_⟩
    rw [h.location_kept hg, h.recs_ne _ hp]
    exact hops

end BwGraph
