import BwGraph.Db.Pending

/-
  The virtual database of a database with pending switches is the one in which all of them were
  published (`Settles`). Every step of the real database is a step of the virtual one with the
  immediate switch: a write to a forwarded vertex is there an ordinary write to its new page
  (`Settles.write`), background work of the pool is the same work (`Settles.refresh`,
  `Settles.recycle`), and noting a switch is a published consolidation (`Settles.noted`).
-/

namespace BwGraph

open List Option AList CsrPool PageMap VertexIndex

open Function
open EStateM (bind_eq_ok pure_eq_ok)

variable {cfg : Config} {env : SmoEnv} {db db' : Db} {v : VId}

/-! ## The versions a replacement expects -/

/-- Every prepared version is to replace the current one. -/
def Expects (items : VId → VItem) (locs : Locations) : Prop :=
  ∀ v prepared, locs.lookup v = some prepared → (items v).cur.id = prepared.expected

variable {I : VId → VItem} {locs locs' : Locations} {graph : AdjMap}

theorem prepareVersions_expects {q : PageNo} {vm : List (VId × Nat)} (hI : db.vertexIndex.items = I)
    (he : Expects I locs) (h : prepareVersions q vm locs db = .ok locs' db') :
    db'.vertexIndex.items = I ∧ Expects I locs' := by
  induction vm generalizing db locs with
  | nil =>
    obtain ⟨rfl, rfl⟩ := pure_eq_ok.1 h
    exact ⟨hI, he⟩
  | cons x vm ih =>
    have hins : Expects I
        (locs.insert x.1 (db.vertexIndex.prepareVertexVersion x.1 q x.2).1) := by
      intro v prepared hl
      by_cases hv : v = x.1
      · subst hv
        rw [lookup_insert] at hl
        cases hl
        rw [← hI]
        rfl
      · rw [lookup_insert_ne hv] at hl
        exact he v prepared hl
    exact ih (show ({ db with vertexIndex :=
      (db.vertexIndex.prepareVertexVersion x.1 q x.2).2 } : Db).vertexIndex.items = I from hI) hins h

theorem copyIntoPool_items {message : String} {q : PageNo} {page : CsrPage}
    (h : copyIntoPool env message q page db = .ok () db') :
    db'.vertexIndex.items = db.vertexIndex.items := by
  obtain ⟨victim, pool, -, rfl⟩ := copyIntoPool_ok h
  rfl

variable {b b' : CsrPageBuilder} {p : PageNo}

section

variable (hI : db.vertexIndex.items = I)
include hI

theorem flushCurrentPage_expects (he : Expects I locs)
    (h : flushCurrentPage cfg env b locs db = .ok (b', locs') db') :
    db'.vertexIndex.items = I ∧ Expects I locs' := by
  obtain ⟨-, -, rfl, rfl⟩ | ⟨q, page, vm, message, db1, db2, -, hal, hcopy, hprep⟩ :=
    flushCurrentPage_cases h
  · exact ⟨hI, he⟩
  · cases hal
    exact prepareVersions_expects ((copyIntoPool_items hcopy).trans hI) he hprep

theorem packVertex_expects (he : Expects I locs)
    (h : packVertex cfg env graph v b locs db = .ok (b', locs') db') :
    db'.vertexIndex.items = I ∧ Expects I locs' := by
  obtain ⟨-, rfl, rfl⟩ | ⟨b1, hflush, -⟩ := packVertex_cases h
  · exact ⟨hI, he⟩
  · exact flushCurrentPage_expects hI he hflush

omit hI in
theorem packVertices_expects {vs : List VId} (hI : db.vertexIndex.items = I) (he : Expects I locs)
    (h : packVertices cfg env graph vs b locs db = .ok (b', locs') db') :
    db'.vertexIndex.items = I ∧ Expects I locs' := by
  induction vs generalizing db locs b with
  | nil =>
    obtain ⟨hr, rfl⟩ := pure_eq_ok.1 h
    cases hr
    exact ⟨hI, he⟩
  | cons v vs ih =>
    unfold packVertices at h
    split_ifs at h
    · obtain ⟨⟨b1, locs1⟩, db1, hone, h⟩ := bind_eq_ok.1 h
      obtain ⟨h1, h2⟩ := packVertex_expects hI he hone
      exact ih h1 h2 h
    · exact ih hI he h

theorem doSplit_expects (h : doSplit cfg env graph db = .ok locs db') : Expects I locs := by
  unfold doSplit at h
  obtain ⟨⟨b1, locs1⟩, db1, hpack, h⟩ := bind_eq_ok.1 h
  obtain ⟨⟨b2, locs2⟩, db2, hflush, h⟩ := bind_eq_ok.1 h
  obtain ⟨hr, rfl⟩ := pure_eq_ok.1 h
  subst hr
  have hnil : Expects I (∅ : Locations) := fun v prepared hl => by simp at hl
  obtain ⟨h1, h2⟩ := packVertices_expects hI hnil hpack
  exact (flushCurrentPage_expects h1 h2 hflush).2

theorem doNoSplit_expects (h : doNoSplit cfg env graph db = .ok locs db') : Expects I locs := by
  obtain ⟨q, page, vm, message, db1, db2, -, hal, hcopy, hprep⟩ := doNoSplit_cases h
  cases hal
  have hnil : Expects I (∅ : Locations) := fun v prepared hl => by simp at hl
  exact (prepareVersions_expects ((copyIntoPool_items hcopy).trans hI) hnil hprep).2

end

variable {deltas : List DeltaRecord}

variable {r : Replacement}

/-- The versions of a replacement are prepared for the current ones. -/
theorem buildReplacement_expects (h : buildReplacement cfg env p deltas db = .ok (some r) db') :
    Expects db.vertexIndex.items r.locations := by
  unfold buildReplacement at h
  rw [EStateM.get_bind] at h
  dsimp only at h
  split_ifs at h
  · obtain ⟨hr, -⟩ := pure_eq_ok.1 h
    cases hr
  all_goals
    obtain ⟨giants, db1, hpers, h⟩ := bind_eq_ok.1 h
    obtain ⟨locs, db2, hdo, h⟩ := bind_eq_ok.1 h
    obtain ⟨hr, -⟩ := pure_eq_ok.1 h
    cases hr
    have hI : db1.vertexIndex.items = db.vertexIndex.items := by rw [(persistGiants_ok hpers).1]
    first
      | exact doSplit_expects hI hdo
      | exact doNoSplit_expects hI hdo

/-! ## Writes -/

variable {dbv : Db} {pending : List VersionSwitch} {sw : VersionSwitch} {type : DeltaType}
  {src dst : VId} {time : Nat}

/-- No forwarder is left in the virtual database. -/
theorem Settles.noForwarder (h : Settles pending db dbv) (hp : Pends db pending) (p : PageNo) :
    dbv.pageMap.acquireForwarderFor p = none := by
  rw [h.acquire]
  split_ifs with hc
  · rfl
  · exact hp.unforwarded p fun sw hsw he => hc (he ▸ mem_map_of_mem hsw)

theorem Settles.location_kept (h : Settles pending db dbv)
    (hv : ∀ sw ∈ pending, v ∉ sw.locations) : dbv.location v = db.location v := by
  unfold Db.location
  rw [(h.kept v hv).1]

variable {prepared : PreparedVertexVersion}

theorem Settles.location_switched (h : Settles pending db dbv) (hsw : sw ∈ pending)
    (hl : sw.locations.lookup v = some prepared) :
    dbv.location v = (prepared.desired.pageNo, prepared.desired.offset) := by
  unfold Db.location
  rw [(h.switched sw hsw v prepared hl).1]
  rfl

/-- A vertex outside the pending switches is not forwarded. -/
theorem Pends.routeOf_kept (h : Pends db pending) (hv : ∀ sw ∈ pending, v ∉ sw.locations)
    (p : PageNo) : db.pageMap.routeOf p v = (p, none) := by
  unfold routeOf
  by_cases hp : ∀ sw ∈ pending, sw.oldPageNo ≠ p
  · rw [h.unforwarded p hp]
  · push Not at hp
    obtain ⟨sw, hsw, rfl⟩ := hp
    obtain ⟨hacq, -, hmap⟩ := h.forwarded sw hsw
    simp only [hacq, PageDelta.lookupForward, hmap, lookup_eq_none.2 (hv sw hsw),
      map_none]

/-- A vertex of a pending switch is forwarded to its new page. -/
theorem Pends.routeOf_switched (h : Pends db pending) (hsw : sw ∈ pending)
    (hl : sw.locations.lookup v = some prepared) :
    db.pageMap.routeOf (db.location v).1 v = (prepared.desired.pageNo, some sw.forwarder) := by
  obtain ⟨hacq, -, hmap⟩ := h.forwarded sw hsw
  rw [h.located sw hsw v (mem_locations.2 ⟨prepared, hl⟩)]
  unfold routeOf
  simp only [hacq, PageDelta.lookupForward, hmap, hl, map_some]

/-- What a write does, forwarded or not. -/
theorem appendEdge_routed (h : appendEdge cfg type src dst time db = .ok () db') :
    ∃ loc pm, insertDeltaAndGetLoc cfg (db.pageMap.routeOf (db.location src).1 src).1
        (newRecord db type src dst time) db.pageMap = .ok loc pm ∧
      db' = { db with
        vertexIndex := db.vertexIndex.setDeltaHead src (some loc)
        pageMap := match (db.pageMap.routeOf (db.location src).1 src).2 with
          | none => pm
          | some f => pm.noteReroutedTail f src loc } := by
  unfold appendEdge at h
  rw [EStateM.get_bind] at h
  obtain ⟨⟨loc, rerouted⟩, db1, hmap, hset⟩ := bind_eq_ok.1 h
  obtain ⟨pm, hins, rfl⟩ := onPageMap_ok.1 hmap
  cases hset
  unfold insertDeltaWithForward at hins
  obtain ⟨_, _, hget, hroute⟩ := bind_eq_ok.1 hins
  cases hget
  rcases hr : db.pageMap.routeOf (db.location src).1 src with ⟨q, _ | f⟩
  · rw [hr] at hroute
    obtain ⟨loc', pm', happ, hret⟩ := bind_eq_ok.1 hroute
    obtain ⟨he, rfl⟩ := pure_eq_ok.1 hret
    cases he
    exact ⟨loc, pm', happ, rfl⟩
  · rw [hr] at hroute
    obtain ⟨loc', pm', happ, hret⟩ := bind_eq_ok.1 hroute
    obtain ⟨⟨⟩, pm2, hnote, hret⟩ := bind_eq_ok.1 hret
    cases hnote
    obtain ⟨he, rfl⟩ := pure_eq_ok.1 hret
    cases he
    exact ⟨loc, pm', happ, rfl⟩

variable {loc : DeltaLoc}

/-- The other way round, without a forwarder. -/
theorem appendEdge_of_insert {pm : PageMap}
    (hfwd : db.pageMap.acquireForwarderFor (db.location src).1 = none)
    (h : insertDeltaAndGetLoc cfg (db.location src).1 (newRecord db type src dst time)
      db.pageMap = .ok loc pm) :
    appendEdge cfg type src dst time db = .ok () { db with
      vertexIndex := db.vertexIndex.setDeltaHead src (some loc)
      pageMap := pm } := by
  have hroute : db.pageMap.routeOf (db.location src).1 src = ((db.location src).1, none) := by
    unfold routeOf
    rw [hfwd]
  have hins : insertDeltaWithForward cfg (db.location src).1 src
      (newRecord db type src dst time) db.pageMap = .ok (loc, false) pm := by
    refine bind_eq_ok.2 ⟨db.pageMap, db.pageMap, rfl, ?_⟩
    rw [hroute]
    exact bind_eq_ok.2 ⟨loc, pm, h, rfl⟩
  exact bind_eq_ok.2 ⟨db, db, rfl, bind_eq_ok.2
    ⟨(loc, false), { db with pageMap := pm }, onPageMap_ok.2 ⟨pm, hins, rfl⟩, rfl⟩⟩

theorem Pends.not_both {a b : VersionSwitch} (h : Pends db pending) (ha : a ∈ pending)
    (hb : b ∈ pending) (hne : a ≠ b) (hva : v ∈ a.locations) : v ∉ b.locations := by
  have : Std.Symm fun x y : VersionSwitch => ∀ w ∈ x.locations, w ∉ y.locations :=
    ⟨fun _ _ hxy w hy hx => hxy w hx hy⟩
  exact h.disjoint.forall ha hb hne v hva

theorem Pends.not_boundary (h : Pends db pending) (hfresh : db.pageMap.getRecord loc = none) :
    loc ∉ boundaries db pending := by
  rintro ⟨sw, hsw, v, hv, hb⟩
  obtain ⟨r, hr⟩ := h.tails sw hsw v hv loc hb
  rw [hfresh] at hr
  cases hr

/-- A write to a vertex outside the pending switches is the same write in the virtual database. -/
theorem Settles.write_kept (hp : Pends db pending) (hs : Settles pending db dbv)
    (hok : db.pageMap.Ok) (hsrc : ∀ sw ∈ pending, src ∉ sw.locations)
    (h : appendEdge cfg type src dst time db = .ok () db') :
    ∃ dbv', appendEdge cfg type src dst time dbv = .ok () dbv' ∧ Pends db' pending ∧
      Settles pending db' dbv' := by
  obtain ⟨loc, pm, hins, rfl⟩ := appendEdge_routed h
  rw [hp.routeOf_kept hsrc] at hins ⊢
  have hrec : newRecord dbv type src dst time = newRecord db type src dst time := by
    rw [newRecord, (hs.kept src hsrc).2]
    rfl
  have hloc := hs.location_kept hsrc
  obtain ⟨pmv, hinsv, hm⟩ := hs.cuts.mirrors.insertDeltaAndGetLoc hins
    (newRecord dbv type src dst time)
  have ha := appends_insertDeltaAndGetLoc hok hins
  have hav := appends_insertDeltaAndGetLoc (hs.cuts.mirrors.ok hok) hinsv
  have hne : ∀ sw ∈ pending, ∀ v ∈ sw.locations, v ≠ src := by
    rintro sw hsw v hv rfl
    exact hsrc sw hsw hv
  have htail : ∀ sw v, (pm.forwarders sw.forwarder).reroutedTail v = db.tail sw v := fun sw v => by
    rw [ha.forwarders.forwarders]
    rfl
  refine ⟨_, appendEdge_of_insert (hs.noForwarder hp _) (by rw [hloc]; exact hinsv), ?_, ?_⟩
  · refine ⟨hp.disjoint, hp.distinct, hp.handles, hp.order, hp.expected, hp.located, ?_, ?_, ?_⟩
    · intro sw hsw
      obtain ⟨h1, h2, h3⟩ := hp.forwarded sw hsw
      exact ⟨(ha.forwarders.acquire _).trans h1, ha.forwarders.nextForwarder ▸ h2,
        ha.forwarders.forwarders ▸ h3⟩
    · exact fun p hq => (ha.forwarders.acquire p).trans (hp.unforwarded p hq)
    · intro sw hsw v hv b hb
      obtain ⟨r, hr⟩ := hp.tails sw hsw v hv b ((htail sw v).symm.trans hb)
      obtain ⟨r', hr', -⟩ := ha.persists.get b r hr
      exact ⟨r', hr'⟩
  · refine ⟨hs.size, fun sw hsw v prepared hl => ?_, fun v hv => ?_, hs.csrPool, hs.giantDb, ?_, ?_⟩
    · obtain ⟨h1, h2⟩ := hs.switched sw hsw v prepared hl
      have hvs := hne sw hsw v (mem_locations.2 ⟨prepared, hl⟩)
      refine ⟨h1, ?_⟩
      simp only [setDeltaHead, update_of_ne hvs, h2, Db.tail]
      rw [ha.forwarders.forwarders]
    · obtain ⟨h1, h2⟩ := hs.kept v hv
      refine ⟨h1, ?_⟩
      by_cases hvs : v = src
      · subst hvs
        simp [setDeltaHead]
      · simp only [setDeltaHead, update_of_ne hvs, h2]
    · have hB : boundaries { db with
          vertexIndex := db.vertexIndex.setDeltaHead src (some loc), pageMap := pm } pending =
          boundaries db pending := by
        ext b
        simp only [boundaries, Set.mem_ofPred_eq, Db.tail, ha.forwarders.forwarders]
      rw [hB]
      exact hs.cuts.append ha hav hm (fun _ _ => Iff.rfl)
        (fun hc => absurd hc (hp.not_boundary ha.fresh)) (fun _ => hrec)
    · intro p
      exact (hav.forwarders.acquire p).trans ((hs.acquire p).trans (by
        rw [← ha.forwarders.acquire p]))

/-- The tails after `note_rerouted_tail` on the forwarder of a switch. -/
theorem Pends.tail_noted {pm : PageMap} (hp : Pends db pending) (hsw : sw ∈ pending)
    (hf : pm.forwarders = db.pageMap.forwarders) {a : VersionSwitch} (ha : a ∈ pending)
    (hv : v ∈ a.locations) (hsrc : src ∈ sw.locations) :
    ((pm.noteReroutedTail sw.forwarder src loc).forwarders a.forwarder).reroutedTail v =
      if v = src then some ((db.tail sw src).getD loc) else db.tail a v := by
  by_cases he : a.forwarder = sw.forwarder
  · have hasw : a = sw := inj_on_of_nodup_map hp.handles ha hsw he
    subst hasw
    simp only [noteReroutedTail, update_self, PageDelta.noteReroutedTail, hf,
      Db.tail]
    cases ht : (db.pageMap.forwarders a.forwarder).reroutedTail src with
    | some b =>
      split_ifs with hvs
      · rw [hvs, ht]
        rfl
      · rfl
    | none =>
      by_cases hvs : v = src
      · simp [hvs]
      · simp [hvs]
  · have hvs : v ≠ src := by
      rintro rfl
      have hasw : a = sw := by
        by_contra hne
        exact hp.not_both ha hsw hne hv hsrc
      exact he (hasw ▸ rfl)
    simp only [noteReroutedTail, update_of_ne he, hf, if_neg hvs, Db.tail]

/-- The first rerouted record of a vertex is a boundary, the later ones are not. -/
theorem Pends.mem_boundaries_noted {db1 : Db} {loc l : DeltaLoc} (hp : Pends db pending)
    (hsw : sw ∈ pending) (hsrc : src ∈ sw.locations) (htail : ∀ a ∈ pending, ∀ v ∈ a.locations,
      db1.tail a v = if v = src then some ((db.tail sw src).getD loc) else db.tail a v) :
    l ∈ boundaries db1 pending ↔
      l ∈ boundaries db pending ∨ (l = loc ∧ db.tail sw src = none) := by
  constructor
  · rintro ⟨a, ha, v, hv, hb⟩
    rw [htail a ha v hv] at hb
    split_ifs at hb with hvs
    · cases ht : db.tail sw src with
      | none =>
        rw [ht] at hb
        exact .inr ⟨(some.inj hb).symm, rfl⟩
      | some b =>
        rw [ht] at hb
        have hbl : b = l := some.inj hb
        exact .inl ⟨sw, hsw, src, hsrc, hbl ▸ ht⟩
    · exact .inl ⟨a, ha, v, hv, hb⟩
  · rintro (⟨a, ha, v, hv, hb⟩ | ⟨rfl, ht⟩)
    · refine ⟨a, ha, v, hv, ?_⟩
      rw [htail a ha v hv]
      split_ifs with hvs
      · subst hvs
        have hasw : a = sw := by
          by_contra hc
          exact hp.not_both ha hsw hc hv hsrc
        rw [← hasw, hb]
        rfl
      · exact hb
    · refine ⟨sw, hsw, src, hsrc, ?_⟩
      rw [htail sw hsw src hsrc, if_pos rfl, ht]
      rfl

/-- A forwarded write is, in the virtual database, a write to the new page of the vertex. -/
theorem Settles.write_switched (hp : Pends db pending) (hs : Settles pending db dbv)
    (hok : db.pageMap.Ok) (hsw : sw ∈ pending) (hl : sw.locations.lookup src = some prepared)
    (h : appendEdge cfg type src dst time db = .ok () db') :
    ∃ dbv', appendEdge cfg type src dst time dbv = .ok () dbv' ∧ Pends db' pending ∧
      Settles pending db' dbv' := by
  have hsrc : src ∈ sw.locations := mem_locations.2 ⟨prepared, hl⟩
  obtain ⟨loc, pm, hins, rfl⟩ := appendEdge_routed h
  rw [hp.routeOf_switched hsw hl] at hins ⊢
  have hloc := hs.location_switched hsw hl
  obtain ⟨pmv, hinsv, hm⟩ := hs.cuts.mirrors.insertDeltaAndGetLoc hins
    (newRecord dbv type src dst time)
  have ha := appends_insertDeltaAndGetLoc hok hins
  have hav := appends_insertDeltaAndGetLoc (hs.cuts.mirrors.ok hok) hinsv
  set db1 : Db := { db with
    vertexIndex := db.vertexIndex.setDeltaHead src (some loc)
    pageMap := pm.noteReroutedTail sw.forwarder src loc } with hdb1
  have htail : ∀ a ∈ pending, ∀ v ∈ a.locations,
      db1.tail a v = if v = src then some ((db.tail sw src).getD loc) else db.tail a v :=
    fun a hapend v hv => hp.tail_noted hsw ha.forwarders.forwarders hapend hv hsrc
  have hmap : ∀ a : VersionSwitch, (db1.pageMap.forwarders a.forwarder).forwardMap =
      (db.pageMap.forwarders a.forwarder).forwardMap := by
    intro a
    by_cases he : a.forwarder = sw.forwarder
    · simp only [hdb1, noteReroutedTail, he, update_self,
        PageDelta.noteReroutedTail, ha.forwarders.forwarders]
      split <;> rfl
    · simp only [hdb1, noteReroutedTail, update_of_ne he, ha.forwarders.forwarders]
  refine ⟨_, appendEdge_of_insert (hs.noForwarder hp _) (by rw [hloc]; exact hinsv), ?_, ?_⟩
  · refine ⟨hp.disjoint, hp.distinct, hp.handles, hp.order, hp.expected, hp.located, ?_, ?_, ?_⟩
    · intro a hapend
      obtain ⟨h1, h2, h3⟩ := hp.forwarded a hapend
      refine ⟨(ha.forwarders.acquire _).trans h1, ?_, fun v => ?_⟩
      · show a.forwarder < pm.nextForwarder
        rw [ha.forwarders.nextForwarder]
        exact h2
      · rw [hmap]
        exact h3 v
    · exact fun p hq => (ha.forwarders.acquire p).trans (hp.unforwarded p hq)
    · intro a hapend v hv b hb
      rw [htail a hapend v hv] at hb
      split_ifs at hb with hvs
      · cases hb
        cases ht : db.tail sw src with
        | none => exact ⟨_, ha.get_self⟩
        | some b =>
          obtain ⟨r, hr⟩ := hp.tails sw hsw src hsrc b ht
          obtain ⟨r', hr', -⟩ := ha.persists.get b r hr
          exact ⟨r', hr'⟩
      · obtain ⟨r, hr⟩ := hp.tails a hapend v hv b hb
        obtain ⟨r', hr', -⟩ := ha.persists.get b r hr
        exact ⟨r', hr'⟩
  · refine ⟨hs.size, fun a hapend v pr hpr => ?_, fun v hv => ?_, hs.csrPool, hs.giantDb, ?_, ?_⟩
    · obtain ⟨h1, h2⟩ := hs.switched a hapend v pr hpr
      have hva := mem_locations.2 ⟨pr, hpr⟩
      refine ⟨h1, ?_⟩
      rw [htail a hapend v hva]
      by_cases hvs : v = src
      · subst hvs
        simp [hdb1, setDeltaHead]
      · simp only [hdb1, setDeltaHead, update_of_ne hvs, h2, if_neg hvs]
    · obtain ⟨h1, h2⟩ := hs.kept v hv
      have hvs : v ≠ src := by
        rintro rfl
        exact hv sw hsw hsrc
      exact ⟨h1, by simp only [hdb1, setDeltaHead, update_of_ne hvs, h2]⟩
    · have hB := fun l => hp.mem_boundaries_noted hsw hsrc htail (l := l)
      have hhead := (hs.switched sw hsw src prepared hl).2
      have hloc' : loc ∈ boundaries db1 pending ↔ db.tail sw src = none := by
        rw [hB, or_iff_right (hp.not_boundary ha.fresh)]
        exact and_iff_right rfl
      have hold : ∀ l, l ≠ loc → (l ∈ boundaries db1 pending ↔ l ∈ boundaries db pending) :=
        fun l hne => (hB l).trans (or_iff_left fun hc => hne hc.1)
      have hcuts := hs.cuts.append ha hav hm hold
        (fun hc => by rw [newRecord, hhead, hloc'.1 hc]; rfl)
        (fun hc => by
          obtain ⟨b, ht⟩ := ne_none_iff_exists'.1 fun hn => hc (hloc'.2 hn)
          rw [newRecord, hhead, ht]
          rfl)
      exact ⟨hcuts.chain, hcuts.deltaDisk, hcuts.cut, hcuts.keep⟩
    · intro p
      exact (hav.forwarders.acquire p).trans ((hs.acquire p).trans (by
        rw [← ha.forwarders.acquire p]
        rfl))

/-- Every write of the real database is a write of the virtual one. -/
theorem Settles.write (hp : Pends db pending) (hs : Settles pending db dbv)
    (hok : db.pageMap.Ok) (h : appendEdge cfg type src dst time db = .ok () db') :
    ∃ dbv', appendEdge cfg type src dst time dbv = .ok () dbv' ∧ Pends db' pending ∧
      Settles pending db' dbv' := by
  by_cases hsrc : ∀ sw ∈ pending, src ∉ sw.locations
  · exact hs.write_kept hp hok hsrc h
  · push Not at hsrc
    obtain ⟨sw, hsw, hmem⟩ := hsrc
    obtain ⟨prepared, hl⟩ := mem_locations.1 hmem
    exact hs.write_switched hp hok hsw hl h

/-! ## The pool -/

section

variable (h : Settles pending db dbv)
include h

theorem Settles.poolOk (hok : dbv.csrPool.Ok) : db.csrPool.Ok := by
  rw [h.csrPool] at hok
  exact ⟨hok.pageSize, hok.capacity, hok.unwritten, hok.clean⟩

theorem Settles.allocOk (ha : dbv.csrPool.AllocOk) : db.csrPool.AllocOk := by
  rw [h.csrPool] at ha
  exact ⟨ha.freeNodup, ha.freeLt, (nodup_append.1 ha.retiredNodup).2.1,
    fun q hq => ha.retiredLt q (mem_append_right _ hq),
    fun q hq => ha.disjoint q (mem_append_right _ hq)⟩

theorem Settles.page (q : PageNo) : dbv.csrPool.page q = db.csrPool.page q := by
  rw [h.csrPool]
  rfl

end

/-- Work on the pool that leaves the retired pages alone. -/
theorem Settles.refresh {pool : CsrPool} (hp : Pends db pending) (hs : Settles pending db dbv)
    (hret : pool.retired = db.csrPool.retired) :
    Pends { db with csrPool := pool } pending ∧ Settles pending { db with csrPool := pool }
      { dbv with csrPool := { pool with retired := dbv.csrPool.retired } } := by
  refine ⟨⟨hp.disjoint, hp.distinct, hp.handles, hp.order, hp.expected, hp.located, hp.forwarded,
    hp.unforwarded, hp.tails⟩, ⟨hs.size, hs.switched, hs.kept, ?_, hs.giantDb, hs.cuts, hs.acquire⟩⟩
  simp only [hs.csrPool, hret]

section

variable (pool : CsrPool) (l : List PageNo) (p : PageNo)

theorem CsrPool.load_retired :
    ({ pool with retired := l } : CsrPool).load p = { pool.load p with retired := l } := by
  unfold load
  cases h : pool.frames p <;> rfl

theorem CsrPool.evict_retired :
    ({ pool with retired := l } : CsrPool).evict p = { pool.evict p with retired := l } := by
  unfold evict
  cases h : pool.frames p with
  | none => rfl
  | some f => cases hd : f.dirty <;> simp [hd, writePage]

theorem CsrPool.flush_retired :
    ({ pool with retired := l } : CsrPool).flush p = { pool.flush p with retired := l } := by
  unfold flush
  cases h : pool.frames p with
  | none => rfl
  | some f => cases hd : f.dirty <;> simp [hd, writePage]

end

/-- A published page is recycled; the old pages of the pending switches are not among them. -/
theorem Settles.recycle {p : PageNo} (hp : Pends db pending) (hs : Settles pending db dbv)
    (ha : dbv.csrPool.AllocOk) (hr : p ∈ db.csrPool.retired) :
    p ∈ dbv.csrPool.retired ∧ Pends { db with csrPool := db.csrPool.recyclePage p } pending ∧
      Settles pending { db with csrPool := db.csrPool.recyclePage p }
        { dbv with csrPool := dbv.csrPool.recyclePage p } := by
  have hnd := ha.retiredNodup
  rw [hs.csrPool] at hnd
  have hold : p ∉ (pending.map VersionSwitch.oldPageNo).reverse := fun hm =>
    (nodup_append.1 hnd).2.2 p hm p hr rfl
  refine ⟨by rw [hs.csrPool]; exact mem_append_right _ hr,
    ⟨hp.disjoint, hp.distinct, hp.handles, hp.order, hp.expected, hp.located, hp.forwarded,
    hp.unforwarded, hp.tails⟩, ⟨hs.size, hs.switched, hs.kept, ?_, hs.giantDb, hs.cuts, hs.acquire⟩⟩
  simp only [hs.csrPool, recyclePage, erase_append_right _ hold]

/-! ## Drains -/

/-- Draining a page of both databases. -/
theorem Settles.drain (hp : Pends db pending) (hs : Settles pending db dbv) (hok : db.pageMap.Ok)
    (p : PageNo) : Pends { db with pageMap := (db.pageMap.fetchDeltasWithMark p).2 } pending ∧
      Settles pending { db with pageMap := (db.pageMap.fetchDeltasWithMark p).2 }
        { dbv with pageMap := (dbv.pageMap.fetchDeltasWithMark p).2 } := by
  have hd := drains_fetchDeltasWithMark hok p
  have hdv := drains_fetchDeltasWithMark (hs.cuts.mirrors.ok hok) p
  have htail : ∀ sw v, ({ db with pageMap := (db.pageMap.fetchDeltasWithMark p).2 } : Db).tail sw v =
      db.tail sw v := hd.forwarders.tail
  have hB : boundaries { db with pageMap := (db.pageMap.fetchDeltasWithMark p).2 } pending =
      boundaries db pending := by
    simp only [boundaries, htail]
  refine ⟨⟨hp.disjoint, hp.distinct, hp.handles, hp.order, hp.expected, hp.located, ?_, ?_, ?_⟩,
    ⟨hs.size, ?_, hs.kept, hs.csrPool, hs.giantDb, ?_, ?_⟩⟩
  · intro sw hsw
    obtain ⟨h1, h2, h3⟩ := hp.forwarded sw hsw
    exact ⟨(hd.forwarders.acquire _).trans h1, hd.forwarders.nextForwarder ▸ h2,
      hd.forwarders.forwarders ▸ h3⟩
  · exact fun q hq => (hd.forwarders.acquire q).trans (hp.unforwarded q hq)
  · intro sw hsw v hv b hb
    rw [htail] at hb
    obtain ⟨r, hr⟩ := hp.tails sw hsw v hv b hb
    exact ⟨r, (hd.get b).trans hr⟩
  · intro sw hsw v prepared hl
    rw [htail]
    exact hs.switched sw hsw v prepared hl
  · rw [hB]
    exact hs.cuts.drain hok p
  · intro q
    refine (hdv.forwarders.acquire q).trans ((hs.acquire q).trans ?_)
    rw [← hd.forwarders.acquire q]

/-! ## Noting a switch -/

/-- What noting the switch of a replacement does to the page map of a drained page. -/
structure Notes (pm pm' : PageMap) (p : PageNo) (sw : VersionSwitch) : Prop where
  chain_self : pm'.chain p = []
  chain_ne : ∀ q, q ≠ p → pm'.chain q = pm.chain q
  deltaDisk : pm'.deltaDisk = pm.deltaDisk
  get : ∀ l, pm'.getRecord l = pm.getRecord l
  acquire_self : pm'.acquireForwarderFor p = some sw.forwarder
  acquire_ne : ∀ q, q ≠ p → pm'.acquireForwarderFor q = pm.acquireForwarderFor q
  handle : sw.forwarder = pm.nextForwarder
  next : pm'.nextForwarder = pm.nextForwarder + 1
  forwarders : pm'.forwarders = Function.update pm.forwarders sw.forwarder
    ⟨fun v => (sw.locations.lookup v).map fun prepared => prepared.desired.pageNo, fun _ => none⟩

theorem fetchDeltas_eq (h : fetchDeltas p db = .ok deltas db') :
    deltas = db.pageMap.pageRecs p ∧
      db' = { db with pageMap := (db.pageMap.fetchDeltasWithMark p).2 } := by
  cases h
  exact ⟨fetchDeltasWithMark_fst _ _, rfl⟩

theorem prepareSwitch_ok (hok : db.pageMap.Ok) (hrecs : db.pageMap.pageRecs p = [])
    (h : prepareSwitch cfg env p r db = .ok sw db') :
    sw.oldPageNo = p ∧ sw.locations = r.locations ∧ sw.giantVertices = r.giantVertices ∧
      sw.order = env.locationOrder.order r.locations.keys ∧
      db'.vertexIndex = db.vertexIndex ∧ db'.csrPool = db.csrPool ∧ db'.giantDb = db.giantDb ∧
      Notes db.pageMap db'.pageMap p sw := by
  unfold prepareSwitch at h
  obtain ⟨f, db1, hinst, h⟩ := bind_eq_ok.1 h
  obtain ⟨stray, db2, hfetch, h⟩ := bind_eq_ok.1 h
  obtain ⟨⟨⟩, db3, hstray, h⟩ := bind_eq_ok.1 h
  obtain ⟨rfl, rfl⟩ := pure_eq_ok.1 h
  obtain ⟨rfl, rfl⟩ := fetchDeltas_eq hfetch
  obtain ⟨hvi, hpool, hgiant, hsame, hacq, -⟩ := installForwarder_ok hinst
  -- the forwarder was installed on a drained page: there is no stray
  rw [hsame.pageRecs, hrecs] at hstray
  obtain ⟨-, rfl⟩ := pure_eq_ok.1 hstray
  have hd := drains_fetchDeltasWithMark (hsame.ok hok) p
  refine ⟨rfl, rfl, rfl, rfl, hvi, hpool, hgiant, ?_⟩
  unfold installForwarder at hinst
  cases hinst
  refine ⟨?_, fun q hq => ?_, ?_, ?_, ?_, fun q hq => ?_, rfl, ?_, ?_⟩
  · exact (PageMap.chain_fetchDeltasWithMark _ _ _).trans (if_pos rfl)
  · exact (PageMap.chain_fetchDeltasWithMark _ _ _).trans ((if_neg hq).trans (hsame.chain q))
  · exact (deltaDisk_fetchDeltasWithMark _ _).trans hsame.deltaDisk
  · exact fun l => (hd.get l).trans (hsame.getRecord l)
  · exact (hd.forwarders.acquire p).trans (acquireForwarderFor_install_self _ _ _)
  · exact (hd.forwarders.acquire q).trans (hacq q hq)
  · exact hd.forwarders.nextForwarder
  · exact hd.forwarders.forwarders

/-- A new switch of vertices outside the pending ones. -/
theorem Pends.noted (hp : Pends db pending) (hvi : db'.vertexIndex.items = db.vertexIndex.items)
    (hold : sw.oldPageNo = p)
    (hclear : ∀ a ∈ pending, a.oldPageNo ≠ p ∧ ∀ v ∈ a.locations, v ∉ sw.locations)
    (hord : sw.order.Nodup ∧ ∀ v, v ∈ sw.order ↔ v ∈ sw.locations)
    (hexp : Expects db.vertexIndex.items sw.locations)
    (hloc : ∀ v ∈ sw.locations, (db.location v).1 = p) (hn : Notes db.pageMap db'.pageMap p sw) :
    Pends db' (pending ++ [sw]) := by
  have hlocation : ∀ v, db'.location v = db.location v := fun v => by
    unfold Db.location
    rw [hvi]
  have hlt : ∀ a ∈ pending, a.forwarder ≠ sw.forwarder := fun a ha he => by
    have h2 := (hp.forwarded a ha).2.1
    rw [he, hn.handle] at h2
    exact Nat.lt_irrefl _ h2
  have hfw : ∀ a ∈ pending, db'.pageMap.forwarders a.forwarder =
      db.pageMap.forwarders a.forwarder := fun a ha => by
    rw [hn.forwarders, update_of_ne (hlt a ha)]
  have hself : db'.pageMap.forwarders sw.forwarder = ⟨fun v => (sw.locations.lookup v).map
      fun prepared => prepared.desired.pageNo, fun _ => none⟩ := by
    rw [hn.forwarders, update_self]
  refine ⟨?_, ?_, ?_, ?_, ?_, ?_, ?_, ?_, ?_⟩
  · refine pairwise_append.2 ⟨hp.disjoint, pairwise_singleton _ _, fun a ha b hb => ?_⟩
    cases mem_singleton.1 hb
    exact (hclear a ha).2
  · rw [map_append, map_singleton, nodup_append]
    refine ⟨hp.distinct, nodup_singleton _, fun x hx y hy => ?_⟩
    obtain ⟨a, ha, rfl⟩ := mem_map.1 hx
    rw [mem_singleton.1 hy, hold]
    exact (hclear a ha).1
  · rw [map_append, map_singleton, nodup_append]
    refine ⟨hp.handles, nodup_singleton _, fun x hx y hy => ?_⟩
    obtain ⟨a, ha, rfl⟩ := mem_map.1 hx
    rw [mem_singleton.1 hy]
    exact hlt a ha
  · intro a ha
    rcases mem_append.1 ha with ha | ha
    · exact hp.order a ha
    · cases mem_singleton.1 ha
      exact hord
  · intro a ha v prepared hl
    rw [hvi]
    rcases mem_append.1 ha with ha | ha
    · exact hp.expected a ha v prepared hl
    · cases mem_singleton.1 ha
      exact hexp v prepared hl
  · intro a ha v hv
    rw [hlocation]
    rcases mem_append.1 ha with ha | ha
    · exact hp.located a ha v hv
    · cases mem_singleton.1 ha
      exact (hloc v hv).trans hold.symm
  · intro a ha
    rcases mem_append.1 ha with ha | ha
    · obtain ⟨h1, h2, h3⟩ := hp.forwarded a ha
      refine ⟨(hn.acquire_ne _ (hclear a ha).1).trans h1, ?_, by rw [hfw a ha]; exact h3⟩
      rw [hn.next]
      exact Nat.lt_succ_of_lt h2
    · cases mem_singleton.1 ha
      refine ⟨by rw [hold]; exact hn.acquire_self, ?_, fun v => by rw [hself]⟩
      rw [hn.next, hn.handle]
      exact Nat.lt_succ_self _
  · intro q hq
    have hqp : q ≠ p := fun he => hq sw (mem_append_right _ (mem_singleton_self sw))
      (hold.trans he.symm)
    rw [hn.acquire_ne q hqp]
    exact hp.unforwarded q fun a ha => hq a (mem_append_left _ ha)
  · intro a ha v hv b hb
    rcases mem_append.1 ha with ha | ha
    · rw [Db.tail, hfw a ha] at hb
      obtain ⟨r, hr⟩ := hp.tails a ha v hv b hb
      exact ⟨r, (hn.get b).trans hr⟩
    · cases mem_singleton.1 ha
      rw [Db.tail, hself] at hb
      cases hb

/-- The replacement of a pool whose retired pages are others. -/
theorem Replaces.with_retired {readable : Prop} {pool0 pool : CsrPool} {l : List PageNo}
    (h : Replaces cfg readable graph pool0 pool locs)
    (ha : ({ pool0 with retired := l } : CsrPool).AllocOk) :
    Replaces cfg readable graph { pool0 with retired := l } { pool with retired := l } locs := by
  refine ⟨⟨h.ok.pageSize, h.ok.capacity, h.ok.unwritten, h.ok.clean⟩,
    ⟨h.alloc.freeNodup, h.alloc.freeLt, ha.retiredNodup, fun q hq => ?_, fun q hq hf => ?_⟩, rfl,
    h.freeSub, h.countLe, h.old, fun v prepared hl => ?_, h.entry, h.owned, h.read⟩
  · exact Nat.lt_of_lt_of_le (ha.retiredLt q hq) h.countLe
  · exact ha.disjoint q hq (h.freeSub q hf)
  · obtain ⟨hu, hin⟩ := h.fresh v prepared hl
    refine ⟨hu, hin.1, hin.2.1, fun hq => ?_⟩
    rcases hu with hf | hge
    · exact ha.disjoint _ hq hf
    · exact absurd (ha.retiredLt _ hq) (Nat.not_lt.2 hge)

/-- The virtual database with one more switch published. -/
def Db.settle (dbv : Db) (sw : VersionSwitch) (pool : CsrPool) (giantDb : GiantDb) : Db where
  vertexIndex := { dbv.vertexIndex with
    items := fun v => match sw.locations.lookup v with
      | some prepared => (dbv.vertexIndex.items v).switched sw.giantVertices v prepared
      | none => dbv.vertexIndex.items v
    deltaHeads := fun v => match sw.locations.lookup v with
      | some _ => none
      | none => dbv.vertexIndex.deltaHeads v }
  pageMap := dbv.pageMap
  csrPool := { pool with retired := sw.oldPageNo :: dbv.csrPool.retired }
  giantDb := giantDb

variable (dbv : Db) (pool : CsrPool) (giantDb : GiantDb)

theorem Db.settle_switched (hl : sw.locations.lookup v = some prepared) :
    (dbv.settle sw pool giantDb).vertexIndex.items v =
        (dbv.vertexIndex.items v).switched sw.giantVertices v prepared ∧
      (dbv.settle sw pool giantDb).vertexIndex.deltaHeads v = none := by
  simp only [Db.settle, hl, and_self]

theorem Db.settle_kept (hv : v ∉ sw.locations) :
    (dbv.settle sw pool giantDb).vertexIndex.items v = dbv.vertexIndex.items v ∧
      (dbv.settle sw pool giantDb).vertexIndex.deltaHeads v = dbv.vertexIndex.deltaHeads v := by
  simp only [Db.settle, lookup_eq_none.2 hv, and_self]

variable {dbv pool giantDb}

/-- The new switch is one more to settle. -/
theorem Settles.noted (hp : Pends db pending) (hs : Settles pending db dbv)
    (hsize : db'.vertexIndex.size = db.vertexIndex.size)
    (hitems : db'.vertexIndex.items = db.vertexIndex.items)
    (hheads : db'.vertexIndex.deltaHeads = db.vertexIndex.deltaHeads)
    (hret : db'.csrPool.retired = db.csrPool.retired) (hold : sw.oldPageNo = p)
    (hclear : ∀ a ∈ pending, a.oldPageNo ≠ p ∧ ∀ v ∈ a.locations, v ∉ sw.locations)
    (hchain : db.pageMap.chain p = []) (hn : Notes db.pageMap db'.pageMap p sw) :
    Settles (pending ++ [sw]) db' (dbv.settle sw db'.csrPool db'.giantDb) := by
  have hfw : ∀ a ∈ pending, ∀ v, db'.tail a v = db.tail a v := fun a ha v => by
    have hne : a.forwarder ≠ sw.forwarder := by
      intro he
      have h2 := (hp.forwarded a ha).2.1
      rw [he, hn.handle] at h2
      exact Nat.lt_irrefl _ h2
    unfold Db.tail
    rw [hn.forwarders, update_of_ne hne]
  have hself : ∀ v, db'.tail sw v = none := fun v => by
    unfold Db.tail
    rw [hn.forwarders, update_self]
  refine ⟨hs.size.trans hsize.symm, ?_, ?_, ?_, rfl, ⟨?_, ?_, ?_, ?_⟩, ?_⟩
  · intro a ha v prepared hl
    have hva := mem_locations.2 ⟨prepared, hl⟩
    rw [hitems, hheads]
    rcases mem_append.1 ha with ha | ha
    · obtain ⟨h1, h2⟩ := hs.switched a ha v prepared hl
      obtain ⟨h3, h4⟩ := dbv.settle_kept db'.csrPool db'.giantDb
        ((hclear a ha).2 v hva)
      rw [h3, h4, hfw a ha]
      exact ⟨h1, h2⟩
    · cases mem_singleton.1 ha
      obtain ⟨h3, h4⟩ := dbv.settle_switched db'.csrPool db'.giantDb hl
      have hout : ∀ b ∈ pending, v ∉ b.locations := fun b hb hvb => (hclear b hb).2 v hvb hva
      rw [h3, h4, (hs.kept v hout).1, hself]
      exact ⟨rfl, rfl⟩
  · intro v hv
    rw [hitems, hheads]
    obtain ⟨h1, h2⟩ := hs.kept v fun a ha => hv a (mem_append_left _ ha)
    obtain ⟨h3, h4⟩ := dbv.settle_kept db'.csrPool db'.giantDb
      (hv sw (mem_append_right _ (mem_singleton_self sw)))
    exact ⟨h3.trans h1, h4.trans h2⟩
  · simp [Db.settle, hs.csrPool, hret]
  · intro q
    by_cases hq : q = p
    · subst hq
      exact (hs.cuts.chain q).trans (hchain.trans hn.chain_self.symm)
    · exact (hs.cuts.chain q).trans (hn.chain_ne q hq).symm
  · exact hs.cuts.deltaDisk.trans hn.deltaDisk.symm
  · rintro l ⟨a, ha, v, hv, hb⟩
    rcases mem_append.1 ha with ha | ha
    · rw [hfw a ha] at hb
      exact (hs.cuts.cut l ⟨a, ha, v, hv, hb⟩).trans (by rw [hn.get])
    · cases mem_singleton.1 ha
      rw [hself] at hb
      cases hb
  · intro l hl
    refine (hs.cuts.keep l fun hc => hl ?_).trans (hn.get l).symm
    obtain ⟨a, ha, v, hv, hb⟩ := hc
    exact ⟨a, mem_append_left _ ha, v, hv, (hfw a ha v).trans hb⟩
  · intro q
    refine (hs.noForwarder hp q).trans ?_
    split_ifs with hq
    · rfl
    · rw [map_append, map_singleton, hold, mem_append, mem_singleton,
        not_or] at hq
      rw [hn.acquire_ne q hq.2]
      exact (hp.unforwarded q fun a ha he => hq.1 (he ▸ mem_map_of_mem ha)).symm

/-- In the virtual database, noting the switch of a drained page is publishing it. -/
theorem Settles.published {p : PageNo} {db1 : Db} {r : Replacement} (hp : Pends db pending)
    (hs : Settles pending db dbv) (hok : db.pageMap.Ok) (hchain : db.pageMap.chain p = [])
    (hprep : Prepared cfg graph db db1 r) (hpool : dbv.csrPool.AllocOk)
    (hclear : ∀ a ∈ pending, ∀ v ∈ a.locations, v ∉ graph) (hold : sw.oldPageNo = p)
    (hlocs : sw.locations = r.locations) (hgiants : sw.giantVertices = r.giantVertices) :
    Published cfg p graph dbv (dbv.settle sw db1.csrPool db1.giantDb) sw.locations := by
  have hmem : ∀ v, v ∈ sw.locations ↔ v ∈ graph := fun v => by rw [hlocs]; exact hprep.mem v
  have hgiant : ∀ v, v ∈ graph →
      (StoredGiant cfg dbv.vertexIndex graph v ↔ StoredGiant cfg db.vertexIndex graph v) := by
    intro v hv
    have hkept := (hs.kept v fun a ha hva => hclear a ha v hva hv).1
    unfold StoredGiant isGiantVertex
    rw [hkept, hs.size]
  refine ⟨rfl, hmem, ?_, ?_, hs.cuts.mirrors.ok hok, fun _ => rfl, ?_, fun _ _ => rfl,
    hs.noForwarder hp p, fun _ _ => rfl, ?_, ?_, ?_, by rw [← hold]; rfl⟩
  · intro v prepared hl
    have hv := (hmem v).1 (mem_locations.2 ⟨prepared, hl⟩)
    obtain ⟨h1, h2⟩ := dbv.settle_switched db1.csrPool db1.giantDb hl
    rw [h1, h2]
    refine ⟨rfl, ?_, rfl, rfl⟩
    rw [hgiant v hv]
    unfold VItem.switched
    have hg := hprep.giants v
    rw [← hgiants] at hg
    by_cases hin : v ∈ sw.giantVertices
    · simp only [hin, if_true, true_iff]
      exact (hg.1 hin).2
    · simp only [hin, if_false, reduceCtorEq, false_iff]
      exact fun hst => hin (hg.2 ⟨hv, hst⟩)
  · exact fun v hv => Db.settle_kept _ _ _ fun hl => hv ((hmem v).1 hl)
  · show dbv.pageMap.pageRecs p = []
    rw [pageRecs_eq, hs.cuts.chain, hchain]
    rfl
  · intro v hv hst
    exact hprep.stored v hv ((hgiant v hv).1 hst)
  · intro v hv
    show db1.giantDb.store v = dbv.giantDb.store v
    rw [hs.giantDb]
    exact hprep.kept v fun hc => hv ⟨hc.1, (hgiant v hc.1).2 hc.2⟩
  · have hv : dbv.csrPool = { db.csrPool with retired := dbv.csrPool.retired } := by
      rw [hs.csrPool]
    have hpages := hprep.pages.with_retired (l := dbv.csrPool.retired) (hv ▸ hpool)
    rw [hlocs, hv]
    exact hpages

/-! ## The merged graph -/

theorem AdjMap.mapLists_congr {f f' : VId → List VId → List VId} {g : AdjMap}
    (h : ∀ v ∈ g, ∀ l, f v l = f' v l) : g.mapLists f = g.mapLists f' := by
  unfold AdjMap.mapLists
  exact foldl_ext _ _ _ fun acc v hv => by rw [h v (mem_keys.2 hv)]

theorem foldl_applyDelta_unlink {ds ds' : List DeltaRecord}
    (h : ds'.map unlink = ds.map unlink) (g : AdjMap) :
    ds'.foldl applyDelta g = ds.foldl applyDelta g := by
  have hone : ∀ l : List DeltaRecord, l.foldl applyDelta g =
      (l.map unlink).foldl applyDelta g := fun l => by
    rw [foldl_map]
    rfl
  rw [hone ds', hone ds, h]

/-- A page without vertices of the pending switches merges to the same graph. -/
theorem Settles.mergedGraph (hs : Settles pending db dbv)
    (hclear : ∀ sw ∈ pending, ∀ v ∈ sw.locations, ¬ OnPage db p v) :
    mergedGraph cfg dbv p = mergedGraph cfg db p := by
  unfold BwGraph.mergedGraph buildMergedGraph
  have hgiants : replaceGiants dbv.vertexIndex dbv.giantDb (snapshotPage cfg (dbv.csrPool.page p)) =
      replaceGiants db.vertexIndex db.giantDb (snapshotPage cfg (db.csrPool.page p)) := by
    unfold replaceGiants
    rw [hs.page, hs.giantDb]
    refine AdjMap.mapLists_congr fun v hv l => ?_
    have hkept := (hs.kept v fun sw hsw hm => hclear sw hsw v hm (.inl (mem_snapshotPage.1 hv))).1
    unfold isGiantVertex
    rw [hkept, hs.size]
  rw [hgiants, foldl_applyDelta_unlink (hs.cuts.pageRecs_unlink p)]

end BwGraph
