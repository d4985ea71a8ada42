import BwGraph.Db.Cached
import BwGraph.Db.Direct

/-
  Where the vertices of a run live. A loaded vertex has a CSR entry at its location, or is a giant
  without one (`bare`). A new vertex borrows a location, page 0 or the page of most of its
  neighbours, and has no entry there until a consolidation finds an insertion of it pending on
  that page. `Lodged` lists the states of a vertex, and `Housed` is the invariant of the runs whose
  consolidations and recycled pages are sound (`HousedStep`).

  A vertex shows a set through its base list and its log (`ShowsAs`); a borrower has to show it
  through the log alone as well, since the merge does not look at the list it borrows. Every step
  keeps what a vertex shows, as far as its operations on the vertex do (`Carries`).
-/

namespace BwGraph

open Function List CsrPool VertexIndex Lww

/-- The operations on `v` pending on the page of `v`. -/
def Db.pendingOps (db : Db) (v : VId) : List (Lww.Op VId) :=
  opsFor v (db.pageMap.pageRecs (db.location v).1)

/-- How a vertex with the log `ops` stands on its page: with an entry; without one, nothing of it
merged or dropped; without one, what was pending of it dropped with other records of the page. -/
inductive Lodged (db : Db) (v : VId) (ops : List (Lww.Op VId)) : Prop
  | housed (entry : db.HasEntry v) (synced : db.pendingOps v = ops)
  | fresh (normal : (db.vertexIndex.items v).vertexType ≠ .giant) (synced : db.pendingOps v = ops)
  | dropped (normal : (db.vertexIndex.items v).vertexType ≠ .giant)
      (noEntry : ∀ i, ¬ (db.csrPool.page (db.location v).1).HasEntry v i)
      (same : Lww.lww ∅ (db.pendingOps v) = Lww.lww ∅ ops)

/-- The invariant. `bare` are the giants that were loaded without an entry. -/
structure Housed (bare : Set VId) (logs : VId → List (Lww.Op VId)) (db : Db) : Prop where
  pool : db.csrPool.Ok
  alloc : db.csrPool.AllocOk
  logged : Logged logs db
  bareLt : ∀ v ∈ bare, v < db.vertexIndex.size
  bareGiant : ∀ v ∈ bare, (db.vertexIndex.items v).vertexType = .giant
  taken : ∀ v < db.vertexIndex.size, v ∉ bare → ¬ db.csrPool.Unused (db.location v).1
  lodged : ∀ v < db.vertexIndex.size, v ∉ bare → Lodged db v (logs v)
  pending : ∀ p, ∀ r ∈ db.pageMap.pageRecs p, r.target = .edge ∧
    r.first < db.vertexIndex.size ∧ (db.location r.first).1 = p

/-- Base list and log of `v` give the set `s`; without an entry the log alone gives it, too. -/
structure ShowsAs (cfg : Config) (bare : Set VId) (ops : List (Lww.Op VId)) (db : Db) (v : VId)
    (s : Set VId) : Prop where
  set : Lww.lww {x | x ∈ db.base cfg v} ops = s
  borrowed : v ∉ bare → ¬ db.HasEntry v → Lww.lww ∅ ops = s

/-- A step from `db` to `db'` that may append the operations `adds v` to the log of `v`: the
invariant is kept, and so is every set that these operations do not change. -/
structure Carries (cfg : Config) (bare : Set VId) (adds : VId → Lww.Op VId → Prop)
    (logs : VId → List (Lww.Op VId)) (db : Db) (logs' : VId → List (Lww.Op VId)) (db' : Db) :
    Prop where
  housed : Housed bare logs' db'
  size : db.vertexIndex.size ≤ db'.vertexIndex.size
  shows : ∀ v < db.vertexIndex.size, ∀ s, ShowsAs cfg bare (logs v) db v s →
    (∀ o, adds v o → o.apply s = s) → ShowsAs cfg bare (logs' v) db' v s

variable {cfg : Config} {bare : Set VId} {logs logs' logs'' : VId → List (Lww.Op VId)}
  {db db' db'' : Db} {v : VId} {ops : List (Lww.Op VId)} {adds : VId → Lww.Op VId → Prop}

/-- In a state of the invariant a vertex reads as it shows. -/
theorem ShowsAs.reads {s : Set VId} (h : ShowsAs cfg bare (logs v) db v s)
    (hl : Logged logs db) : Reads cfg db v s :=
  (hl.log v).reads_iff.2 h.set

theorem Carries.refl (h : Housed bare logs db) : Carries cfg bare adds logs db logs db :=
  ⟨h, Nat.le_refl _, fun _ _ _ hs _ => hs⟩

theorem Carries.trans (h : Carries cfg bare adds logs db logs' db')
    (h' : Carries cfg bare adds logs' db' logs'' db'') :
    Carries cfg bare adds logs db logs'' db'' :=
  ⟨h'.housed, Nat.le_trans h.size h'.size, fun v hv s hs ha =>
    h'.shows v (Nat.lt_of_lt_of_le hv h.size) s (h.shows v hv s hs ha) ha⟩

/-- Fewer operations are kept by more sets. -/
theorem Carries.mono {adds' : VId → Lww.Op VId → Prop} (h : Carries cfg bare adds logs db logs' db')
    (ha : ∀ v < db.vertexIndex.size, ∀ o, adds v o → adds' v o) :
    Carries cfg bare adds' logs db logs' db' :=
  ⟨h.housed, h.size, fun v hv s hs hk => h.shows v hv s hs fun o ho => hk o (ha v hv o ho)⟩

/-! ## Steps that leave a vertex where it is -/

theorem Lodged.congr (h : Lodged db v ops) (hloc : db'.location v = db.location v)
    (hpage : db'.csrPool.page (db.location v).1 = db.csrPool.page (db.location v).1)
    (htype : (db'.vertexIndex.items v).vertexType = (db.vertexIndex.items v).vertexType)
    (hops : db'.pendingOps v = db.pendingOps v) : Lodged db' v ops := by
  cases h with
  | housed entry synced =>
    refine .housed ?_ (hops.trans synced)
    unfold Db.HasEntry
    rw [hloc, hpage]
    exact entry
  | fresh normal synced => exact .fresh (by rwa [htype]) (hops.trans synced)
  | dropped normal noEntry same =>
    refine .dropped (by rwa [htype]) ?_ (by rwa [hops])
    rw [hloc, hpage]
    exact noEntry

theorem ShowsAs.congr {s : Set VId} (h : ShowsAs cfg bare ops db v s)
    (hbase : db'.base cfg v = db.base cfg v) (hentry : v ∉ bare → (db'.HasEntry v ↔ db.HasEntry v)) :
    ShowsAs cfg bare ops db' v s :=
  ⟨by rw [hbase]; exact h.set, fun hb hn => h.borrowed hb fun he => hn ((hentry hb).2 he)⟩

/-- What stays of a vertex when its location, its page and its type do. -/
theorem base_congr (hloc : db'.location v = db.location v)
    (htype : (db'.vertexIndex.items v).vertexType = (db.vertexIndex.items v).vertexType)
    (hstore : db'.giantDb.store v = db.giantDb.store v)
    (hpage : (db.vertexIndex.items v).vertexType ≠ .giant →
      db'.csrPool.page (db.location v).1 = db.csrPool.page (db.location v).1) :
    db'.base cfg v = db.base cfg v := by
  unfold Db.base GiantDb.readNeighborClone
  rw [hloc, htype, hstore]
  split_ifs with hg
  · rfl
  · rw [hpage hg]

theorem hasEntry_congr (hloc : db'.location v = db.location v)
    (hpage : db'.csrPool.page (db.location v).1 = db.csrPool.page (db.location v).1) :
    db'.HasEntry v ↔ db.HasEntry v := by
  unfold Db.HasEntry
  rw [hloc, hpage]

/-! ## Writes -/

variable {src dst : VId}

theorem Written.pendingOps {type : DeltaType} {time : Nat} {loc : DeltaLoc}
    (hw : Written db db' type src dst time loc) (v : VId) :
    db'.pendingOps v = db.pendingOps v ++ if v = src then [edgeOp type dst] else [] := by
  unfold Db.pendingOps
  rw [hw.location]
  by_cases hp : (db.location v).1 = (db.location src).1
  · rw [hp, hw.appends.recs_self, opsFor_append]
    by_cases hv : v = src
    · rw [if_pos hv, opsFor_cons_self [] rfl hv.symm, newRecord_op]
      rfl
    · rw [if_neg hv, opsFor_cons_ne [] fun hc => hv hc.2.symm]
      rfl
  · have hv : v ≠ src := fun hv => hp (by rw [hv])
    rw [hw.appends.recs_ne _ hp, if_neg hv, append_nil]

/-- A write appends to the log of its source, and what is pending of it grows alike. -/
theorem Lodged.written {type : DeltaType} {src dst : VId} {time : Nat} {loc : DeltaLoc}
    (h : Lodged db v ops) (hw : Written db db' type src dst time loc) :
    Lodged db' v (ops ++ if v = src then [edgeOp type dst] else []) := by
  have hpend := hw.pendingOps v
  cases h with
  | housed entry synced =>
    refine .housed ?_ (by rw [hpend, synced])
    unfold Db.HasEntry
    rw [hw.location, hw.csrPool]
    exact entry
  | fresh normal synced => exact .fresh (by rwa [hw.items]) (by rw [hpend, synced])
  | dropped normal noEntry same =>
    refine .dropped (by rwa [hw.items]) ?_ (by rw [hpend, lww_append, lww_append, same])
    rw [hw.location, hw.csrPool]
    exact noEntry

theorem Housed.written {type : DeltaType} {src dst : VId} {time : Nat} {loc : DeltaLoc}
    (h : Housed bare logs db) (hw : Written db db' type src dst time loc)
    (hsrc : src < db.vertexIndex.size) :
    Carries cfg bare (fun v o => v = src ∧ o = edgeOp type dst) logs db
      (update logs src (logs src ++ [edgeOp type dst])) db' := by
  have hlogs : ∀ v, update logs src (logs src ++ [edgeOp type dst]) v =
      logs v ++ if v = src then [edgeOp type dst] else [] := by
    intro v
    by_cases hv : v = src
    · rw [hv, update_self, if_pos rfl]
    · rw [update_of_ne hv, if_neg hv, append_nil]
  refine ⟨⟨by rw [hw.csrPool]; exact h.pool, by rw [hw.csrPool]; exact h.alloc,
    h.logged.written hw, by rw [hw.size]; exact h.bareLt, by rw [hw.items]; exact h.bareGiant,
    ?_, ?_, ?_⟩, Nat.le_of_eq hw.size.symm, ?_⟩
  · intro v hv hb
    rw [hw.csrPool, hw.location]
    exact h.taken v (hw.size ▸ hv) hb
  · intro v hv hb
    rw [hlogs]
    exact (h.lodged v (hw.size ▸ hv) hb).written hw
  · intro p r hr
    rw [hw.size, hw.location]
    by_cases hp : p = (db.location src).1
    · rw [hp, hw.appends.recs_self, mem_append, mem_singleton] at hr
      rcases hr with hr | rfl
      · rw [hp]
        exact h.pending _ r hr
      · exact ⟨rfl, hsrc, hp.symm⟩
    · rw [hw.appends.recs_ne p hp] at hr
      exact h.pending p r hr
  · intro v hv s hs hk
    have hentry : db'.HasEntry v ↔ db.HasEntry v :=
      hasEntry_congr (hw.location v) (by rw [hw.csrPool])
    rw [hlogs]
    by_cases hvs : v = src
    · rw [if_pos hvs]
      have hkeep := hk _ ⟨hvs, rfl⟩
      refine ⟨?_, fun hb hn => ?_⟩
      · rw [hw.base, lww_concat, hs.set, hkeep]
      · rw [lww_concat, hs.borrowed hb fun he => hn (hentry.2 he), hkeep]
    · rw [if_neg hvs, append_nil]
      exact hs.congr (hw.base v) fun _ => hentry

/-! ## Steps on the pool and the marks -/

/-- The vertices stay where they are, and those with a page see it unchanged. -/
structure Rests (bare : Set VId) (db db' : Db) : Prop where
  ok : db'.csrPool.Ok
  alloc : db'.csrPool.AllocOk
  page : ∀ v < db.vertexIndex.size, v ∉ bare →
    db'.csrPool.page (db.location v).1 = db.csrPool.page (db.location v).1
  taken : ∀ v < db.vertexIndex.size, v ∉ bare → ¬ db.csrPool.Unused (db.location v).1 →
    ¬ db'.csrPool.Unused (db.location v).1
  size : db'.vertexIndex.size = db.vertexIndex.size
  deltaHeads : db'.vertexIndex.deltaHeads = db.vertexIndex.deltaHeads
  location : ∀ v, db'.location v = db.location v
  vertexType : ∀ v,
    (db'.vertexIndex.items v).vertexType = (db.vertexIndex.items v).vertexType
  pageMap : db'.pageMap = db.pageMap
  giantDb : db'.giantDb = db.giantDb

theorem Rests.pendingOps (h : Rests bare db db') (v : VId) :
    db'.pendingOps v = db.pendingOps v := by
  unfold Db.pendingOps
  rw [h.location, h.pageMap]

theorem Housed.rests (h : Housed bare logs db) (hr : Rests bare db db') :
    Carries cfg bare adds logs db logs db' := by
  refine ⟨⟨hr.ok, hr.alloc, h.logged.same hr.pageMap hr.deltaHeads,
    by rw [hr.size]; exact h.bareLt, fun v hv => (hr.vertexType v).trans (h.bareGiant v hv),
    ?_, ?_, ?_⟩, Nat.le_of_eq hr.size.symm, ?_⟩
  · intro v hv hb
    rw [hr.size] at hv
    rw [hr.location]
    exact hr.taken v hv hb (h.taken v hv hb)
  · intro v hv hb
    rw [hr.size] at hv
    exact (h.lodged v hv hb).congr (hr.location v) (hr.page v hv hb) (hr.vertexType v)
      (hr.pendingOps v)
  · intro p r hr'
    rw [hr.pageMap] at hr'
    rw [hr.size, hr.location]
    exact h.pending p r hr'
  · intro v hv s hs _
    refine hs.congr (base_congr (hr.location v) (hr.vertexType v) (by rw [hr.giantDb]) fun hg => ?_)
      fun hb => hasEntry_congr (hr.location v) (hr.page v hv hb)
    exact hr.page v hv fun hb => hg (h.bareGiant v hb)

/-- Loading, evicting and flushing a page. -/
theorem CsrPool.Refreshes.rests {pool : CsrPool} (h : db.csrPool.Refreshes pool)
    (ha : db.csrPool.AllocOk) : Rests bare db { db with csrPool := pool } := by
  refine ⟨h.ok, h.allocOk ha, fun v _ _ => h.page _, fun v _ _ hu hu' => hu ?_, rfl, rfl,
    fun _ => rfl, fun _ => rfl, rfl, rfl⟩
  rcases hu' with hf | hc
  · exact .inl (h.freePages ▸ hf)
  · exact .inr (Nat.le_trans h.globalPageCount hc)

/-- Recycling a replaced page that no vertex refers to. -/
theorem rests_recyclePage (h : Housed bare logs db) {p : PageNo} (hp : p ∈ db.csrPool.retired)
    (hno : ∀ v < db.vertexIndex.size, v ∉ bare → (db.location v).1 ≠ p) :
    Rests bare db { db with csrPool := db.csrPool.recyclePage p } := by
  have hr := repooled_recyclePage h.pool h.alloc hp
  refine ⟨hr.ok, hr.alloc, fun v hv hb => page_recyclePage h.pool (hno v hv hb),
    fun v hv hb hu hu' => hu ?_, rfl, rfl, fun _ => rfl, fun _ => rfl, rfl, rfl⟩
  rcases hu' with hf | hc
  · rcases DiskManager.mem_freePages_deletePage h.pool.pageSize hf with he | hf
    · exact absurd he (hno v hv hb)
    · exact .inl hf
  · have hcount : (db.csrPool.recyclePage p).diskManager.globalPageCount =
        db.csrPool.diskManager.globalPageCount := DiskManager.deletePage_globalPageCount _ _
    have hle : (db.csrPool.recyclePage p).diskManager.globalPageCount ≤ (db.location v).1 := hc
    exact .inr (hcount ▸ hle)

/-- Setting a deletion mark. -/
theorem rests_setDelete (h : Housed bare logs db) (v : VId) (mark : Bool) :
    Rests bare db { db with vertexIndex := { db.vertexIndex with
      items := update db.vertexIndex.items v
        { db.vertexIndex.items v with isDelete := mark } } } := by
  exact ⟨h.pool, h.alloc, fun _ _ _ => rfl, fun _ _ _ hu => hu, rfl, rfl,
    location_setDelete db v mark, fun w => (items_setDelete _ v mark w).2, rfl, rfl⟩

/-! ## Consolidations that publish nothing -/

variable {p : PageNo}

theorem notMem_mergedGraph (h : v ∉ mergedGraph cfg db p) :
    (∀ i, ¬ (db.csrPool.page p).HasEntry v i) ∧
      lww ∅ (opsFor v (db.pageMap.pageRecs p)) = ∅ := by
  unfold mergedGraph at h
  rw [mem_buildMergedGraph, not_or] at h
  refine ⟨fun i hi => h.1 ⟨i, hi⟩, ?_⟩
  refine (lww_of_erases_eq_self fun o ho => ?_).2 fun d _ => Set.notMem_empty d
  obtain ⟨r, hr, rfl⟩ := mem_map.1 ho
  obtain ⟨hr, hc⟩ := mem_filter.1 hr
  obtain ⟨ht, hv⟩ := of_decide_eq_true hc
  refine ⟨r.second, ?_⟩
  cases hty : r.type with
  | insert => exact absurd ⟨r, hr, ht, hty, hv⟩ h.2
  | delete => simp [DeltaRecord.op, hty]

theorem DrainOnly.pendingOps (hd : DrainOnly p db db') (v : VId) :
    db'.pendingOps v = if (db.location v).1 = p then [] else db.pendingOps v := by
  unfold Db.pendingOps
  rw [hd.location]
  by_cases hp : (db.location v).1 = p
  · rw [if_pos hp, hp, hd.drains.recs_self]
    rfl
  · rw [if_neg hp, hd.drains.recs_ne _ hp]

/-- What is dropped with a page that does not merge the vertex are deletions of a borrower. -/
theorem Lodged.cleared (h : Lodged db v ops) (hloc : db'.location v = db.location v)
    (hpage : db'.csrPool.page (db.location v).1 = db.csrPool.page (db.location v).1)
    (htype : (db'.vertexIndex.items v).vertexType = (db.vertexIndex.items v).vertexType)
    (hpend : db'.pendingOps v = if (db.location v).1 = p then [] else db.pendingOps v)
    (hno : v ∉ mergedGraph cfg db p) : Lodged db' v ops := by
  by_cases hp : (db.location v).1 = p
  · obtain ⟨hentry, hempty⟩ := notMem_mergedGraph hno
    have hnone : lww ∅ (db.pendingOps v) = ∅ := by rw [Db.pendingOps, hp, hempty]
    have hno' : ∀ i, ¬ (db'.csrPool.page (db'.location v).1).HasEntry v i := by
      rw [hloc, hpage, hp]
      exact hentry
    rw [if_pos hp] at hpend
    cases h with
    | housed entry synced =>
      unfold Db.HasEntry at entry
      rw [hp] at entry
      exact absurd entry (hentry _)
    | fresh normal synced =>
      exact .dropped (by rwa [htype]) hno' (by rw [hpend, ← synced, hnone, lww_nil])
    | dropped normal noEntry same =>
      exact .dropped (by rwa [htype]) hno' (by rw [hpend, ← same, hnone, lww_nil])
  · exact h.congr hloc hpage htype (by rw [hpend, if_neg hp])

theorem Lodged.drained (h : Lodged db v ops) (hd : DrainOnly p db db')
    (hno : db.pageMap.pageRecs p = [] ∨ v ∉ mergedGraph cfg db p) : Lodged db' v ops := by
  have hpend := hd.pendingOps v
  have hpage : db'.csrPool.page (db.location v).1 = db.csrPool.page (db.location v).1 := by
    rw [hd.csrPool]
  have htype : (db'.vertexIndex.items v).vertexType = (db.vertexIndex.items v).vertexType := by
    rw [hd.vertexIndex]
  rcases hno with hnil | hno
  · refine h.congr (hd.location v) hpage htype ?_
    rw [hpend]
    split_ifs with hp
    · rw [Db.pendingOps, hp, hnil]
      rfl
    · rfl
  · exact h.cleared (hd.location v) hpage htype hpend hno

theorem Housed.drained (h : Housed bare logs db) (hd : DrainOnly p db db')
    (hno : db.pageMap.pageRecs p = [] ∨ ∀ v, v ∉ mergedGraph cfg db p) :
    Carries cfg bare adds logs db logs db' := by
  refine ⟨⟨by rw [hd.csrPool]; exact h.pool, by rw [hd.csrPool]; exact h.alloc,
    h.logged.drained hd, by rw [hd.vertexIndex]; exact h.bareLt,
    by rw [hd.vertexIndex]; exact h.bareGiant, ?_, ?_, ?_⟩,
    Nat.le_of_eq (by rw [hd.vertexIndex]), ?_⟩
  · intro v hv hb
    rw [hd.vertexIndex] at hv
    rw [hd.csrPool, hd.location]
    exact h.taken v hv hb
  · intro v hv hb
    rw [hd.vertexIndex] at hv
    exact (h.lodged v hv hb).drained hd (hno.imp_right fun hall => hall v)
  · intro q r hr
    rw [hd.vertexIndex, hd.location]
    by_cases hq : q = p
    · rw [hq, hd.drains.recs_self] at hr
      exact absurd hr not_mem_nil
    · rw [hd.drains.recs_ne q hq] at hr
      exact h.pending q r hr
  · intro v _ s hs _
    exact hs.congr (hd.base v) fun _ => hasEntry_congr (hd.location v) (by rw [hd.csrPool])

/-! ## Consolidations that publish -/

/-- The merge of page `p` finds what its vertices show: the page is in use and holds current
entries only, every merged vertex exists and is no giant without an entry and no deleted giant, and
the replacement can be read back. -/
structure MergesSoundly (cfg : Config) (bare : Set VId) (db : Db) (p : PageNo) : Prop where
  inUse : db.csrPool.InUse p
  current : ∀ v i, (db.csrPool.page p).HasEntry v i → db.location v = (p, i)
  known : ∀ v ∈ mergedGraph cfg db p, v < db.vertexIndex.size ∧ v ∉ bare
  giants : ∀ v ∈ mergedGraph cfg db p, (db.vertexIndex.items v).vertexType = .giant →
    (db.vertexIndex.items v).isDelete = false
  readable : Readable cfg (mergedGraph cfg db p)
  ids : IdsFit cfg (mergedGraph cfg db p)

variable {p : PageNo} {locs : Locations}

/-- The same, read off the entries of the page and the merged lists. -/
theorem mergesSoundly_of_page (hin : db.csrPool.InUse p)
    (hcur : ∀ x ∈ (db.csrPool.page p).vertexSpan.zipIdx, db.location x.1.vertexId = (p, x.2))
    (hknown : ∀ v ∈ (mergedGraph cfg db p).keys, v < db.vertexIndex.size ∧ v ∉ bare ∧
      (db.vertexIndex.items v).vertexType = .normal ∧
      ∀ d ∈ (mergedGraph cfg db p).get v, d < cfg.idLimit)
    (hread : Readable cfg (mergedGraph cfg db p)) : MergesSoundly cfg bare db p := by
  have hk : ∀ {v}, v ∈ mergedGraph cfg db p → _ := fun {v} hv => hknown v (AList.mem_keys.1 hv)
  refine ⟨hin, ?_, fun v hv => ⟨(hk hv).1, (hk hv).2.1⟩, fun v hv hg => ?_, hread, fun v d hd => ?_⟩
  · rintro v i ⟨e, he, rfl, -⟩
    exact hcur (e, i) (mem_zipIdx_iff_getElem?.2 he)
  · rw [(hk hv).2.2.1] at hg
    cases hg
  · by_cases hv : v ∈ mergedGraph cfg db p
    · exact (hk hv).2.2.2 d hd
    · rw [AdjMap.get, AList.lookup_eq_none.2 hv] at hd
      exact absurd hd not_mem_nil

section

variable (hm : MergesSoundly cfg bare db p)
include hm

theorem MergesSoundly.located (h : Housed bare logs db) (hv : v ∈ mergedGraph cfg db p) :
    (db.location v).1 = p := by
  unfold mergedGraph at hv
  rcases mem_buildMergedGraph.1 hv with ⟨i, hi⟩ | ⟨r, hr, -, -, rfl⟩
  · rw [hm.current v i hi]
  · exact (h.pending p r hr).2.2

theorem MergesSoundly.baseOnPage (hv : v ∈ mergedGraph cfg db p) {i : Nat}
    (hloc : db.location v = (p, i)) :
    baseOnPage cfg (db.csrPool.page p) db.vertexIndex db.giantDb v i = db.base cfg v := by
  obtain ⟨hlt, -⟩ := hm.known v hv
  have hgiant : db.vertexIndex.isGiantVertex v = true ↔
      (db.vertexIndex.items v).vertexType = .giant := by
    constructor
    · intro hg
      simp only [isGiantVertex, Bool.and_eq_true, decide_eq_true_eq] at hg
      exact hg.2
    · intro hg
      simp [isGiantVertex, hlt, hm.giants v hv hg, hg]
  unfold BwGraph.baseOnPage Db.base
  rw [hloc]
  by_cases hg : (db.vertexIndex.items v).vertexType = .giant
  · rw [if_pos (hgiant.2 hg), if_pos hg]
  · rw [if_neg fun hc => hg (hgiant.1 hc), if_neg hg]

/-- The merged list of a vertex is the set it shows. -/
theorem MergesSoundly.get (h : Housed bare logs db) {s : Set VId}
    (hs : ShowsAs cfg bare (logs v) db v s) (hv : v ∈ mergedGraph cfg db p) :
    {d | d ∈ (mergedGraph cfg db p).get v} = s := by
  obtain ⟨hlt, hb⟩ := hm.known v hv
  have hp := hm.located h hv
  have hpend : db.pendingOps v = opsFor v (db.pageMap.pageRecs p) := by rw [Db.pendingOps, hp]
  have hl := h.lodged v hlt hb
  ext d
  rw [Set.mem_ofPred_eq]
  by_cases he : ∃ i, (db.csrPool.page p).HasEntry v i
  · -- its own entry: nothing pending of it was ever dropped
    obtain ⟨i, hi⟩ := he
    have hloc := hm.current v i hi
    have hunique : (db.csrPool.page p).UniqueEntry v i := by
      refine ⟨hi, fun j hj => ?_⟩
      have hj := hm.current v j hj
      rw [hloc] at hj
      exact (Prod.mk.inj hj).2.symm
    have hsynced : db.pendingOps v = logs v := by
      cases hl with
      | housed _ synced => exact synced
      | fresh _ synced => exact synced
      | dropped _ noEntry _ =>
        rw [hp] at noEntry
        exact absurd hi (noEntry i)
    have hbase := hm.baseOnPage hv hloc
    unfold mergedGraph
    rw [mem_get_buildMergedGraph hunique, hbase, ← hpend, hsynced, hs.set]
  · -- a borrower with an insertion pending
    rw [not_exists] at he
    have hno : ¬ db.HasEntry v := by
      unfold Db.HasEntry
      rw [hp]
      exact he _
    have hsame : lww ∅ (db.pendingOps v) = lww ∅ (logs v) := by
      cases hl with
      | housed entry _ => exact absurd entry hno
      | fresh _ synced => rw [synced]
      | dropped _ _ same => exact same
    unfold mergedGraph at hv ⊢
    rw [mem_get_buildMergedGraph_of_noEntry he hv, ← hpend, hsame, hs.borrowed hb hno]

end

variable {q : PageNo}

theorem Published.not_unused {graph : AdjMap} (hp : Published cfg p graph db db' locs)
    (hq : ¬ db.csrPool.Unused q) : ¬ db'.csrPool.Unused q := by
  rintro (hf | hc)
  · exact hq (.inl (hp.pages.freeSub q hf))
  · exact hq (.inr (Nat.le_trans hp.pages.countLe hc))

/-- A merged vertex has an entry, and nothing is pending of it. -/
theorem MergesSoundly.lodged (hm : MergesSoundly cfg bare db p) (h : Housed bare logs db)
    (hp : Published cfg p (mergedGraph cfg db p) db db' locs) (hv : v ∈ mergedGraph cfg db p) :
    Lodged db' v [] ∧ db'.HasEntry v := by
  obtain ⟨prepared, hl⟩ := mem_locations.1 ((hp.mem v).2 hv)
  have hne : prepared.desired.pageNo ≠ p := hp.fresh_ne hl hm.inUse
  have hentry : db'.HasEntry v := by
    unfold Db.HasEntry
    rw [hp.location_switched hl]
    exact hp.pages.entry v prepared hl
  refine ⟨.housed hentry ?_, hentry⟩
  rw [Db.pendingOps, hp.location_switched hl, hp.recs_ne _ hne]
  -- whatever is pending on the new page is of vertices located there
  have hnone : ∀ r ∈ db.pageMap.pageRecs prepared.desired.pageNo,
      ¬ (r.target = .edge ∧ r.first = v) := by
    rintro r hr ⟨-, rfl⟩
    exact hne ((h.pending _ r hr).2.2.symm.trans (hm.located h hv))
  simp only [opsFor, map_eq_nil_iff, filter_eq_nil_iff, decide_eq_true_eq]
  exact hnone

section

variable (hp : Published cfg p (mergedGraph cfg db p) db db' locs)
include hp

/-- What publishing does to a vertex that is not merged. -/
theorem Published.pendingOps (hv : v ∉ mergedGraph cfg db p) :
    db'.pendingOps v = if (db.location v).1 = p then [] else db.pendingOps v := by
  unfold Db.pendingOps
  rw [hp.location_kept hv]
  split_ifs with he
  · rw [he, hp.recs_self]
    rfl
  · rw [hp.recs_ne _ he]

theorem Published.page_kept (h : Housed bare logs db) (hlt : v < db.vertexIndex.size)
    (hb : v ∉ bare) : db'.csrPool.page (db.location v).1 = db.csrPool.page (db.location v).1 := by
  have hold := hp.pages.old _ (h.taken v hlt hb)
  rwa [page_with_retired] at hold

end

/-- Publishing a sound merge carries every vertex on. -/
theorem Housed.published (h : Housed bare logs db) (hm : MergesSoundly cfg bare db p)
    (hp : Published cfg p (mergedGraph cfg db p) db db' locs) :
    Carries cfg bare adds logs db (fun v => if v ∈ mergedGraph cfg db p then [] else logs v) db' := by
  refine ⟨⟨hp.poolOk, hp.allocOk hm.inUse, h.logged.switches hp.switches,
    by rw [hp.size]; exact h.bareLt, fun v hv => ?_, fun v hv hb => ?_, fun v hv hb => ?_,
    fun q r hr => ?_⟩, Nat.le_of_eq hp.size.symm, fun v hlt s hs _ => ?_⟩
  · rw [(hp.unswitched v fun hg => (hm.known v hg).2 hv).1]
    exact h.bareGiant v hv
  · rw [hp.size] at hv
    by_cases hg : v ∈ mergedGraph cfg db p
    · obtain ⟨prepared, hl⟩ := mem_locations.1 ((hp.mem v).2 hg)
      rw [hp.location_switched hl]
      exact (hp.inUse_switched hl hm.inUse).not_unused
    · rw [hp.location_kept hg]
      exact hp.not_unused (h.taken v hv hb)
  · rw [hp.size] at hv
    by_cases hg : v ∈ mergedGraph cfg db p
    · rw [if_pos hg]
      exact (hm.lodged h hp hg).1
    · rw [if_neg hg]
      exact (h.lodged v hv hb).cleared (hp.location_kept hg) (hp.page_kept h hv hb)
        (by rw [(hp.unswitched v hg).1]) (hp.pendingOps hg) hg
  · rw [hp.size]
    by_cases hq : q = p
    · rw [hq, hp.recs_self] at hr
      exact absurd hr not_mem_nil
    · rw [hp.recs_ne q hq] at hr
      obtain ⟨h1, h2, h3⟩ := h.pending q r hr
      refine ⟨h1, h2, ?_⟩
      rw [hp.location_kept fun hg => hq (h3.symm.trans (hm.located h hg))]
      exact h3
  · by_cases hg : v ∈ mergedGraph cfg db p
    · have hget := hm.get h hs hg
      have hbase := hp.base_switched hm.readable hm.ids hg (buildMergedGraph_sorted hg).2
      rw [if_pos hg]
      refine ⟨?_, fun _ hn => absurd (hm.lodged h hp hg).2 hn⟩
      rw [hbase, lww_nil]
      exact hget
    · rw [if_neg hg]
      refine hs.congr (hp.base_kept hg fun hng => h.taken v hlt fun hb => hng (h.bareGiant v hb))
        fun hb => hasEntry_congr (hp.location_kept hg) (hp.page_kept h hlt hb)

theorem Housed.consolidate {env : SmoEnv} {exit : SmoExit} (h : Housed bare logs db)
    (hm : Merges cfg env db p → (mergedGraph cfg db p).keys ≠ [] → MergesSoundly cfg bare db p)
    (hrun : consolidatePages cfg env p db = .ok exit db') :
    ∃ logs', Carries cfg bare adds logs db logs' db' := by
  rcases consolidatePages_ok h.pool h.alloc h.logged.pageMap hrun with
    ⟨-, rfl⟩ | ⟨-, hnil, hd⟩ | ⟨-, -, hkeys, hd⟩ | ⟨rfl, hrecs, locs, hp⟩
  · exact ⟨logs, .refl h⟩
  · exact ⟨logs, h.drained hd (.inl hnil)⟩
  · refine ⟨logs, h.drained hd (.inr fun v hv => ?_)⟩
    rw [AList.mem_keys, hkeys] at hv
    exact not_mem_nil hv
  · refine ⟨_, h.published (hm (merges_of_published hrun hrecs) fun hkeys => ?_) hp⟩
    -- a call that merges nothing retires nothing
    have hretired := hp.retired
    rw [(consolidatePages_same (fun _ => hkeys) hrun).csrPool] at hretired
    exact cons_ne_self _ _ hretired.symm

/-! ## New vertices -/

/-- `db'` is `db` with one more vertex, at the place of the first entry of page `q`. -/
structure Borrows (db db' : Db) (q : PageNo) : Prop where
  csrPool : db'.csrPool = db.csrPool
  pageMap : db'.pageMap = db.pageMap
  giantDb : db'.giantDb = db.giantDb
  size : db'.vertexIndex.size = db.vertexIndex.size + 1
  place : db'.location db.vertexIndex.size = (q, 0)
  normal : (db'.vertexIndex.items db.vertexIndex.size).vertexType = .normal
  undeleted : (db'.vertexIndex.items db.vertexIndex.size).isDelete = false
  noHead : db'.vertexIndex.deltaHeads db.vertexIndex.size = none
  items : ∀ v, v ≠ db.vertexIndex.size → db'.vertexIndex.items v = db.vertexIndex.items v
  deltaHeads : ∀ v, v ≠ db.vertexIndex.size →
    db'.vertexIndex.deltaHeads v = db.vertexIndex.deltaHeads v

theorem borrows_emplaceBack (db : Db) (q : PageNo) :
    Borrows db { db with vertexIndex := db.vertexIndex.emplaceBack q 0 } q := by
  refine ⟨rfl, rfl, rfl, rfl, ?_, ?_, ?_, update_self .., fun v hv => ?_, fun v hv => ?_⟩
  · simp [Db.location, emplaceBack]
  · simp [emplaceBack]
  · simp [emplaceBack]
  · exact update_of_ne hv ..
  · exact update_of_ne hv ..

theorem Borrows.updateVertexLoc {db1 : Db} {q q' : PageNo} (hb : Borrows db db1 q)
    (hrun : updateVertexLoc db.vertexIndex.size q' 0 db1 = .ok () db') : Borrows db db' q' := by
  rw [updateVertexLoc_ok hrun]
  refine ⟨hb.csrPool, hb.pageMap, hb.giantDb, hb.size, ?_, ?_, ?_, hb.noHead, fun v hv => ?_,
    hb.deltaHeads⟩
  · simp [Db.location]
  · simpa using hb.normal
  · simpa using hb.undeleted
  · exact (update_of_ne hv ..).trans (hb.items v hv)

section

variable (hb : Borrows db db' q)
include hb

theorem Borrows.location (hv : v ≠ db.vertexIndex.size) : db'.location v = db.location v := by
  unfold Db.location
  rw [hb.items v hv]

/-- The new vertex shows the list it borrows. -/
theorem Borrows.base_new :
    db'.base cfg db.vertexIndex.size = (db.csrPool.page q).readNeighbors cfg 0 := by
  unfold Db.base
  rw [hb.normal, if_neg (by decide), hb.place, hb.csrPool]

theorem Borrows.base (hv : v ≠ db.vertexIndex.size) : db'.base cfg v = db.base cfg v :=
  base_congr (hb.location hv) (by rw [hb.items v hv]) (by rw [hb.giantDb])
    fun _ => by rw [hb.csrPool]

theorem Borrows.logged (h : Logged logs db) : Logged (update logs db.vertexIndex.size []) db' := by
  refine ⟨hb.pageMap ▸ h.pageMap, hb.pageMap ▸ h.noForwarder, fun v => ?_⟩
  by_cases hv : v = db.vertexIndex.size
  · subst hv
    rw [update_self]
    exact logs_of_no_head hb.noHead
  · rw [update_of_ne hv]
    exact (h.log v).congr (hb.deltaHeads v hv) fun l => by rw [hb.pageMap]

end

theorem Housed.borrows (h : Housed bare logs db) (hb : Borrows db db' q)
    (hq : ¬ db.csrPool.Unused q) :
    Carries cfg bare adds logs db (update logs db.vertexIndex.size []) db' := by
  have hpend : ∀ v, v ≠ db.vertexIndex.size → db'.pendingOps v = db.pendingOps v := by
    intro v hv
    unfold Db.pendingOps
    rw [hb.location hv, hb.pageMap]
  have hlt : ∀ v, v < db'.vertexIndex.size → v ≠ db.vertexIndex.size →
      v < db.vertexIndex.size := by
    intro v hv hne
    have hv : v < db.vertexIndex.size + 1 := hb.size ▸ hv
    omega
  refine ⟨⟨hb.csrPool ▸ h.pool, hb.csrPool ▸ h.alloc, hb.logged h.logged, fun v hv => ?_,
    fun v hv => ?_, fun v hv hbare => ?_, fun v hv hbare => ?_, fun p r hr => ?_⟩,
    hb.size ▸ Nat.le_succ _, fun v hv s hs _ => ?_⟩
  · rw [hb.size]
    exact Nat.lt_succ_of_lt (h.bareLt v hv)
  · rw [hb.items v (Nat.ne_of_lt (h.bareLt v hv))]
    exact h.bareGiant v hv
  · rw [hb.csrPool]
    by_cases hn : v = db.vertexIndex.size
    · rw [hn, hb.place]
      exact hq
    · rw [hb.location hn]
      exact h.taken v (hlt v hv hn) hbare
  · by_cases hn : v = db.vertexIndex.size
    · subst hn
      rw [update_self]
      refine .fresh (by rw [hb.normal]; decide) ?_
      -- a pending record is of a vertex that was there before
      rw [Db.pendingOps, hb.pageMap]
      simp only [opsFor, map_eq_nil_iff, filter_eq_nil_iff, decide_eq_true_eq]
      rintro r hr ⟨-, he⟩
      exact Nat.ne_of_lt (h.pending _ r hr).2.1 he
    · rw [update_of_ne hn]
      exact (h.lodged v (hlt v hv hn) hbare).congr (hb.location hn) (by rw [hb.csrPool])
        (by rw [hb.items v hn]) (hpend v hn)
  · rw [hb.pageMap] at hr
    obtain ⟨h1, h2, h3⟩ := h.pending p r hr
    rw [hb.size, hb.location (Nat.ne_of_lt h2)]
    exact ⟨h1, Nat.lt_succ_of_lt h2, h3⟩
  · have hn := Nat.ne_of_lt hv
    rw [update_of_ne hn]
    exact hs.congr (hb.base hn) fun _ => hasEntry_congr (hb.location hn) (by rw [hb.csrPool])

/-! ## The calls -/

theorem Housed.insertEdge {src dst : VId} {time : Nat} {b : Bool} (h : Housed bare logs db)
    (hrun : insertEdge cfg src dst time db = .ok b db') :
    ∃ logs', Carries cfg bare (fun v o => v = src ∧ o = .insert dst) logs db logs' db' := by
  rcases h.logged.insertEdge hrun with ⟨rfl, -, -⟩ | ⟨-, -, rfl⟩
  · obtain ⟨hsrc, -, happ⟩ := insertEdge_true hrun
    obtain ⟨loc, hw⟩ := appendEdge_ok h.logged.pageMap (h.logged.noForwarder _) happ
    exact ⟨_, h.written hw hsrc⟩
  · exact ⟨logs, .refl h⟩

theorem Housed.deleteEdge {src dst : VId} {time : Nat} {b : Bool} (h : Housed bare logs db)
    (hrun : deleteEdge cfg src dst time db = .ok b db') :
    ∃ logs', Carries cfg bare (fun v o => v = src ∧ o = .erase dst) logs db logs' db' := by
  rcases h.logged.deleteEdge hrun with ⟨rfl, -, -⟩ | ⟨-, -, rfl⟩
  · obtain ⟨hsrc, -, happ⟩ := deleteEdge_true hrun
    obtain ⟨loc, hw⟩ := appendEdge_ok h.logged.pageMap (h.logged.noForwarder _) happ
    exact ⟨_, h.written hw hsrc⟩
  · exact ⟨logs, .refl h⟩

variable {clock : Nat → Nat}

variable {neighbors : List VId}

theorem Housed.insertEdges {src : VId} (h : Housed bare logs db)
    (hrun : insertEdges cfg src neighbors clock db = .ok () db') :
    ∃ logs', Carries cfg bare (fun v _ => v = src) logs db logs' db' := by
  induction neighbors generalizing db logs clock with
  | nil =>
    obtain ⟨-, rfl⟩ := EStateM.pure_eq_ok.1 hrun
    exact ⟨logs, .refl h⟩
  | cons n ns ih =>
    obtain ⟨b, db1, hone, hrest⟩ := EStateM.bind_eq_ok.1 hrun
    obtain ⟨logs1, h1⟩ := h.insertEdge hone
    obtain ⟨logs2, h2⟩ := ih h1.housed hrest
    exact ⟨logs2, (h1.mono fun _ _ _ ho => ho.1).trans h2⟩

/-- The operations that `delete_vertex(v)` may append to the log of `w`. -/
def Removes (v w : VId) (o : Lww.Op VId) : Prop := w = v ∧ (∃ d, o = .erase d) ∨ o = .erase v

/-- The loop of `delete_vertex` appends deletions from `v` and deletions of `v`. -/
theorem Housed.deleteEdges {removed : List VId} (h : Housed bare logs db)
    (hrun : deleteEdges cfg v removed clock db = .ok () db') :
    ∃ logs', Carries cfg bare (Removes v) logs db logs' db' := by
  induction removed generalizing db logs clock with
  | nil =>
    obtain ⟨-, rfl⟩ := EStateM.pure_eq_ok.1 hrun
    exact ⟨logs, .refl h⟩
  | cons d removed ih =>
    obtain ⟨b, db1, hone, hrun⟩ := EStateM.bind_eq_ok.1 hrun
    obtain ⟨b', db2, htwo, hrest⟩ := EStateM.bind_eq_ok.1 hrun
    obtain ⟨logs1, h1⟩ := h.deleteEdge hone
    obtain ⟨logs2, h2⟩ := h1.housed.deleteEdge htwo
    obtain ⟨logs3, h3⟩ := ih h2.housed hrest
    exact ⟨logs3, ((h1.mono fun _ _ _ ho => .inl ⟨ho.1, _, ho.2⟩).trans
      (h2.mono fun _ _ _ ho => .inr ho.2)).trans h3⟩

theorem Housed.insertSingleVertex {b : Bool} (h : Housed bare logs db)
    (hq : db.vertexIndex.size ≤ v → ¬ db.csrPool.Unused 0)
    (hrun : insertSingleVertex v db = .ok b db') :
    ∃ logs', Carries cfg bare adds logs db logs' db' := by
  unfold BwGraph.insertSingleVertex at hrun
  dsimp only at hrun
  split_ifs at hrun with hlt hdel
  · cases hrun
    exact ⟨logs, h.rests (rests_setDelete h v false)⟩
  · cases hrun
    exact ⟨logs, .refl h⟩
  · cases hrun
    exact ⟨_, h.borrows (borrows_emplaceBack db 0) (hq (Nat.not_lt.1 hlt))⟩

theorem Housed.insertVertexWithNeighbors (h : Housed bare logs db)
    (hq : ¬ db.csrPool.Unused (bestPage (db.vertexIndex.emplaceBack 0 0) neighbors))
    (hrun : insertVertexWithNeighbors cfg neighbors clock db = .ok v db') :
    ∃ logs', Carries cfg bare adds logs db logs' db' := by
  obtain ⟨rfl, db1, hupd, hedges⟩ := insertVertexWithNeighbors_ok hrun
  have h1 : Carries cfg bare adds logs db _ db1 :=
    h.borrows ((borrows_emplaceBack db 0).updateVertexLoc hupd) hq
  obtain ⟨logs2, h2⟩ := h1.housed.insertEdges hedges
  refine ⟨logs2, h2.housed, Nat.le_trans h1.size h2.size, fun v hv s hs hk => ?_⟩
  exact h2.shows v (Nat.lt_of_lt_of_le hv h1.size) s (h1.shows v hv s hs hk)
    fun o ho => absurd ho (Nat.ne_of_lt hv)

theorem Housed.deleteVertex {s s' : CachedDb} {remove : Bool} {b : Bool} (h : Housed bare logs s.db)
    (hrun : s.deleteVertex cfg v remove clock = .ok b s') :
    ∃ logs', Carries cfg bare (fun w o => remove = true ∧ Removes v w o) logs s.db logs' s'.db := by
  rcases CachedDb.deleteVertex_ok hrun with
    ⟨-, rfl, -⟩ | ⟨-, -, -, ⟨-, rfl⟩ | ⟨hr, db, hdb, rfl⟩⟩
  · exact ⟨logs, .refl h⟩
  · exact ⟨logs, h.rests (rests_setDelete h v true)⟩
  · have h1 : Carries cfg bare (fun w o => remove = true ∧ Removes v w o) logs s.db logs
        (s.marked v).db := h.rests (rests_setDelete h v true)
    obtain ⟨logs2, h2⟩ := h1.housed.deleteEdges hdb
    exact ⟨logs2, h1.trans (h2.mono fun _ _ _ ho => ⟨hr, ho⟩)⟩

/-- A slot write that finds no room loads the page and no more. -/
theorem writeSlot_refused {offset : Nat} {status : InsertStatus} (hfile : db.csrPool.FileOk)
    (hno : ((db.csrPool.page p).insertEdgeInSlot cfg offset src dst).1 ≠ .inserted)
    (hw : writeSlot cfg p offset src dst db = .ok status db') :
    status ≠ .inserted ∧ db' = { db with csrPool := db.csrPool.load p } := by
  obtain ⟨f, hf, hpage⟩ := frame_load hfile p
  obtain ⟨⟨st, page⟩, hins⟩ :
      ∃ r, (db.csrPool.page p).insertEdgeInSlot cfg offset src dst = r := ⟨_, rfl⟩
  rw [hins] at hno
  unfold writeSlot at hw
  simp only [hf, hpage, hins] at hw
  cases hw
  refine ⟨hno, ?_⟩
  have hframe : ({ f with page := page } : Frame) = f := by
    rw [insertEdgeInSlot_kept hins hno, ← hpage]
  rw [hframe, ← hf, update_eq_self]

theorem Housed.insertEdgeDirect {time : Nat} {b : Bool} (h : Housed bare logs db)
    (hno : ((db.csrPool.page (db.location src).1).insertEdgeInSlot cfg (db.location src).2 src
      dst).1 ≠ .inserted) (hrun : insertEdgeDirect cfg src dst time db = .ok b db') :
    ∃ logs', Carries cfg bare (fun v o => v = src ∧ o = .insert dst) logs db logs' db' := by
  obtain ⟨status, db1, hw, hcases⟩ := insertEdgeDirect_cases hrun
  obtain ⟨hst, rfl⟩ := writeSlot_refused h.pool.file hno hw
  have h1 : Carries cfg bare (fun v o => v = src ∧ o = .insert dst) logs db logs
      { db with csrPool := db.csrPool.load (db.location src).1 } :=
    h.rests ((refreshes_load h.pool _).rests h.alloc)
  rcases hcases with ⟨-, hrun⟩ | ⟨-, -, rfl⟩
  · obtain ⟨logs2, h2⟩ := h1.housed.insertEdge hrun
    exact ⟨logs2, h1.trans h2⟩
  · exact ⟨logs, h1⟩

/-! ## Runs -/

/-- The operations that a call may append to the log of a vertex that was there before. -/
def CachedEvent.Writes : CachedEvent → VId → Lww.Op VId → Prop
  | .call (.call (.insertEdge src dst _)), v, o => v = src ∧ o = .insert dst
  | .call (.call (.deleteEdge src dst _)), v, o => v = src ∧ o = .erase dst
  | .insertEdgeDirect src dst _, v, o => v = src ∧ o = .insert dst
  | .deleteVertex u remove _, v, o => remove = true ∧ Removes u v o
  | _, _, _ => False

/-- What a step needs: merges are sound, no vertex refers to a page that is recycled, a new vertex
is placed on a page that is not free, and a direct insertion finds no room in its slots. -/
def HousedStep (cfg : Config) (bare : Set VId) (s : CachedDb) : CachedEvent → Prop
  | .call (.call (.consolidate p env)) => Merges cfg env s.db p →
      (mergedGraph cfg s.db p).keys ≠ [] → MergesSoundly cfg bare s.db p
  | .call (.call (.recycle p)) =>
      ∀ v < s.db.vertexIndex.size, v ∉ bare → (s.db.location v).1 ≠ p
  | .call (.insertSingleVertex v) => s.db.vertexIndex.size ≤ v → ¬ s.db.csrPool.Unused 0
  | .call (.insertVertexWithNeighbors neighbors _) =>
      ¬ s.db.csrPool.Unused (bestPage (s.db.vertexIndex.emplaceBack 0 0) neighbors)
  | .insertEdgeDirect src dst _ =>
      ((s.db.csrPool.page (s.db.location src).1).insertEdgeInSlot cfg (s.db.location src).2 src
        dst).1 ≠ .inserted
  | _ => True

/-- A run of such steps. -/
abbrev SoundSteps (cfg : Config) (bare : Set VId) :=
  Steps (guarded (HousedStep cfg bare) (CachedStep cfg))

variable {s s' : CachedDb} {e : CachedEvent}

theorem Housed.step (h : Housed bare logs s.db) (hs : HousedStep cfg bare s e)
    (hstep : CachedStep cfg s e s') : ∃ logs', Carries cfg bare e.Writes logs s.db logs' s'.db := by
  have hread : s'.db = s.db → ∃ logs', Carries cfg bare e.Writes logs s.db logs' s'.db :=
    fun he => ⟨logs, by rw [he]; exact .refl h⟩
  cases hstep with
  | call hcall =>
    cases hcall with
    | insertSingleVertex hrun => exact h.insertSingleVertex hs hrun
    | insertVertexWithNeighbors hrun => exact h.insertVertexWithNeighbors hs hrun
    | call hseq =>
      cases hseq with
      | insertEdge hrun => exact h.insertEdge hrun
      | deleteEdge hrun => exact h.deleteEdge hrun
      | consolidate hrun => exact h.consolidate hs hrun
      | load p => exact ⟨_, h.rests ((refreshes_load h.pool p).rests h.alloc)⟩
      | evict p => exact ⟨_, h.rests ((refreshes_evict h.pool p).rests h.alloc)⟩
      | flush p => exact ⟨_, h.rests ((refreshes_flush h.pool p).rests h.alloc)⟩
      | recycle hp => exact ⟨_, h.rests (rests_recyclePage h hp hs)⟩
  | insertEdgeDirect _ hrun => exact h.insertEdgeDirect hs hrun
  | deleteVertex hrun => exact h.deleteVertex hrun
  | readNeighbor v => exact hread (s.readNeighbor_db cfg v)
  | readNeighborWithDelta v => exact hread (s.readNeighborWithDelta_db cfg v)
  | @readNeighborClone v fuel _ _ => exact hread (s.readNeighborClone_db cfg fuel v)
  | getVertexDegree v => exact hread (s.getVertexDegree_db cfg v)

/-- A run carries every vertex on, by all the operations of its calls. -/
theorem Housed.steps (h : Housed bare logs s.db) {es : List CachedEvent}
    (run : SoundSteps cfg bare s es s') :
    ∃ logs', Carries cfg bare (fun v o => ∃ e ∈ es, e.Writes v o) logs s.db logs' s'.db := by
  refine run.inv (fun es s' => ∃ logs', Carries cfg bare (fun v o => ∃ e ∈ es, e.Writes v o) logs
    s.db logs' s'.db) ⟨logs, .refl h⟩ ?_
  rintro es s1 e s2 ⟨logs1, h1⟩ ⟨hs, hstep⟩
  obtain ⟨logs2, h2⟩ := h1.housed.step hs hstep
  refine ⟨logs2, (h1.mono ?_).trans (h2.mono ?_)⟩
  · exact fun _ _ _ ⟨e', he', hw⟩ => ⟨e', mem_append_left _ he', hw⟩
  · exact fun _ _ _ hw => ⟨e, mem_append_right _ (mem_singleton.2 rfl), hw⟩

/-- The vertices that have no entry on the pages. -/
def unpaged (paged : Set VId) (db : Db) : Set VId := {v | v < db.vertexIndex.size ∧ v ∉ paged}

instance (paged : Set VId) [DecidablePred (· ∈ paged)] (db : Db) (v : VId) :
    Decidable (v ∈ unpaged paged db) :=
  inferInstanceAs (Decidable (_ ∧ ¬ v ∈ paged))

/-- After loading, the vertices without an entry are giants, and nothing is pending. -/
theorem Loaded.housed {paged : Set VId} (h : Loaded cfg paged db) :
    Housed (unpaged paged db) (fun _ => []) db := by
  have hpaged : ∀ v < db.vertexIndex.size, v ∉ unpaged paged db → v ∈ paged := fun v hv hb => by
    by_contra hp
    exact hb ⟨hv, hp⟩
  refine ⟨h.pool, h.alloc, h.logged, fun v hv => hv.1, fun v hv => h.giant v hv.1 hv.2,
    fun v hv hb => (h.inUse v (hpaged v hv hb)).not_unused,
    fun v hv hb => .housed (h.entry v (hpaged v hv hb)) ?_, fun p r hr => ?_⟩
  · rw [Db.pendingOps, h.noPending]
    rfl
  · rw [h.noPending p] at hr
    exact absurd hr not_mem_nil

end BwGraph
