import BwGraph.Db.Virtual

/-
  Runs with the manual version switch: writes, consolidations that only note their switch, calls
  of `publish_pending_versions` and the background work of the pool, in any order. `Simulated` is
  the invariant: the virtual database, with all pending switches published, shows the neighbour
  sets of the run.

  It is kept as long as no consolidation merges the old page of a pending switch or a page with a
  vertex of one (`ClearStep`): its versions are prepared for a version that the earlier switch
  replaces, and the compare-and-swap fails (`publishPendingVersions_throws`).
-/

namespace BwGraph

open CsrPool PageMap Lww

open EStateM (bind_eq_ok pure_eq_ok)

/-- The events of a run with the manual switch. -/
inductive ManualEvent where
  | call (e : DbEvent)
  | publish

/-- The operation of an event on vertex `v`, if it has one. -/
def ManualEvent.opOn (v : VId) : ManualEvent → Option (Lww.Op VId)
  | .call e => e.opOn v
  | .publish => none

/-- One step of a run with the manual switch. -/
inductive ManualStep (cfg : Config) (s : ManualDb) : ManualEvent → ManualDb → Prop
  | call {e : DbEvent} {db' : Db} (hne : ∀ p env, e ≠ .consolidate p env)
      (h : SeqStep cfg s.db e db') : ManualStep cfg s (.call e) { s with db := db' }
  | consolidate {p : PageNo} {env : SmoEnv} {exit : SmoExit} {s' : ManualDb}
      (h : consolidatePagesManual cfg env p s = .ok exit s') :
      ManualStep cfg s (.call (.consolidate p env)) s'
  | publish {s' : ManualDb} (h : publishPendingVersions s = .ok () s') :
      ManualStep cfg s .publish s'

/-- What a consolidation that merges needs: its page is the page of a vertex with an entry, the
replacement can be read back, no pending insertion is of a vertex without an entry, and neither
the page nor a vertex on it is in a pending switch. -/
def ClearStep (cfg : Config) (paged : Set VId) (s : ManualDb) : ManualEvent → Prop
  | .call (.consolidate p env) => Merges cfg env s.db p →
      (∃ v ∈ paged, (s.db.location v).1 = p) ∧ Readable cfg (mergedGraph cfg s.db p) ∧
        (∀ r ∈ s.db.pageMap.pageRecs p, r.type = .insert → r.first ∈ paged) ∧
        ∀ sw ∈ s.pending, sw.oldPageNo ≠ p ∧ ∀ v ∈ sw.locations, ¬ OnPage s.db p v
  | _ => True

/-- The virtual database shows the sets `nbrs`. -/
structure Simulated (cfg : Config) (paged : Set VId) (n : Nat) (nbrs : VId → Set VId)
    (s : ManualDb) : Prop where
  pends : Pends s.db s.pending
  virtual : ∃ dbv, Settles s.pending s.db dbv ∧ Tracked cfg paged n nbrs dbv

variable {cfg : Config} {env : SmoEnv} {paged : Set VId} {n : Nat} {nbrs : VId → Set VId}
  {db db' dbv dbv' : Db} {pending : List VersionSwitch} {s s' : ManualDb} {p : PageNo}

/-! ## Publishing -/

/-- Two databases that show the same to every call. -/
structure Agrees (db db' : Db) : Prop where
  size : db'.vertexIndex.size = db.vertexIndex.size
  items : db'.vertexIndex.items = db.vertexIndex.items
  deltaHeads : db'.vertexIndex.deltaHeads = db.vertexIndex.deltaHeads
  csrPool : db'.csrPool = db.csrPool
  giantDb : db'.giantDb = db.giantDb
  pageMap : db'.pageMap.Ok
  getRecord : ∀ l, db'.pageMap.getRecord l = db.pageMap.getRecord l
  pageRecs : ∀ q, db'.pageMap.pageRecs q = db.pageMap.pageRecs q
  acquire : ∀ q, db'.pageMap.acquireForwarderFor q = db.pageMap.acquireForwarderFor q

/-- Publishing the same switches leads to databases that agree. -/
theorem Settles.agrees (h : Settles pending db dbv) (h' : Settles pending db dbv')
    (hok : db.pageMap.Ok) : Agrees dbv dbv' := by
  have hboth : ∀ v, dbv'.vertexIndex.items v = dbv.vertexIndex.items v ∧
      dbv'.vertexIndex.deltaHeads v = dbv.vertexIndex.deltaHeads v := by
    intro v
    by_cases hv : ∀ sw ∈ pending, v ∉ sw.locations
    · obtain ⟨h1, h2⟩ := h.kept v hv
      obtain ⟨h3, h4⟩ := h'.kept v hv
      exact ⟨h3.trans h1.symm, h4.trans h2.symm⟩
    · push Not at hv
      obtain ⟨sw, hsw, hm⟩ := hv
      obtain ⟨prepared, hl⟩ := mem_locations.1 hm
      obtain ⟨h1, h2⟩ := h.switched sw hsw v prepared hl
      obtain ⟨h3, h4⟩ := h'.switched sw hsw v prepared hl
      exact ⟨h3.trans h1.symm, h4.trans h2.symm⟩
  have hget : ∀ l, dbv'.pageMap.getRecord l = dbv.pageMap.getRecord l := by
    intro l
    by_cases hl : l ∈ boundaries db pending
    · rw [h.cuts.cut l hl, h'.cuts.cut l hl]
    · rw [h.cuts.keep l hl, h'.cuts.keep l hl]
  refine ⟨h'.size.trans h.size.symm, funext fun v => (hboth v).1, funext fun v => (hboth v).2,
    h'.csrPool.trans h.csrPool.symm, h'.giantDb.trans h.giantDb.symm, h'.cuts.mirrors.ok hok, hget,
    fun q => ?_, fun q => (h'.acquire q).trans (h.acquire q).symm⟩
  rw [pageRecs_eq, pageRecs_eq, h.cuts.chain, h'.cuts.chain]
  congr 1
  funext q'
  exact List.ext_getElem? fun i => hget ⟨q', i⟩

theorem Agrees.location (h : Agrees db db') (v : VId) : db'.location v = db.location v := by
  unfold Db.location
  rw [h.items]

theorem Agrees.base (h : Agrees db db') (v : VId) : db'.base cfg v = db.base cfg v := by
  unfold Db.base
  rw [h.location, h.items, h.csrPool, h.giantDb]

theorem Agrees.chain (h : Agrees db db') {head : Option DeltaLoc}
    {cells : List (DeltaLoc × DeltaRecord)} (hc : DeltaChain db.pageMap head cells) :
    DeltaChain db'.pageMap head cells :=
  hc.congr fun x _ => h.getRecord x.1

theorem Inv.agrees (hi : Inv cfg paged nbrs db) (h : Agrees db db') : Inv cfg paged nbrs db' :=
  hi.sameView ⟨⟨by rw [h.csrPool]; exact hi.pool, by rw [h.csrPool]; exact hi.alloc, h.pageMap,
      fun q => (h.acquire q).trans (hi.noForwarder q), h.size, fun v => by rw [h.items],
      fun v => by rw [h.items], h.location, fun v _ w i => by rw [h.csrPool],
      fun v hv => by rw [h.csrPool]; exact hi.inUse v hv⟩,
    fun v _ => h.base v, fun v cells hc => by rw [h.deltaHeads]; exact h.chain hc,
    fun q r hr => by rw [h.pageRecs] at hr; exact hr⟩

theorem Synced.agrees (h : Agrees db db') {v : VId} (hs : Synced db v) : Synced db' v := by
  obtain ⟨cells, hc, hops⟩ := hs
  refine ⟨cells, ?_, ?_⟩
  · rw [h.deltaHeads]
    exact h.chain hc
  · rw [h.pageRecs, h.location]
    exact hops

theorem Tracked.agrees (ht : Tracked cfg paged n nbrs db) (h : Agrees db db') :
    Tracked cfg paged n nbrs db' :=
  ⟨ht.inv.agrees h, h.size.trans ht.size, fun v hv => (ht.synced v hv).agrees h⟩

theorem Settles.pageMapOk (h : Settles pending db dbv) (hok : dbv.pageMap.Ok) : db.pageMap.Ok :=
  h.cuts.mirrors.symm.ok hok

/-- Publishing the pending switches returns, and the database is the virtual one. -/
theorem Simulated.publish (h : Simulated cfg paged n nbrs s) :
    ∃ db', publishPendingVersions s = .ok () ⟨db', []⟩ ∧ Settles s.pending s.db db' ∧
      Tracked cfg paged n nbrs db' := by
  obtain ⟨dbv, hs, ht⟩ := h.virtual
  obtain ⟨db', hrun, hs'⟩ := publishSwitches_settles h.pends
  refine ⟨db', ?_, hs', ht.agrees (hs.agrees hs' (hs.pageMapOk ht.inv.pageMap))⟩
  refine bind_eq_ok.2 ⟨s, s, rfl, ?_⟩
  refine bind_eq_ok.2 ⟨(), ⟨s.db, []⟩, rfl, ?_⟩
  exact onDb_of_ok hrun

/-- A database without pending switches is its own virtual database. -/
theorem Tracked.simulated (h : Tracked cfg paged n nbrs db) :
    Simulated cfg paged n nbrs ⟨db, []⟩ := by
  have hp : Pends db [] := ⟨.nil, List.nodup_nil, List.nodup_nil, by simp, by simp, by simp,
    by simp, fun q _ => h.inv.noForwarder q, by simp⟩
  obtain ⟨db', hrun, hs⟩ := publishSwitches_settles hp
  obtain ⟨-, rfl⟩ := pure_eq_ok.1 hrun
  exact ⟨hp, db, hs, h⟩

/-! ## Calls other than consolidations -/

variable {src dst : VId}

theorem insertEdge_of_append {time : Nat} (hi : Inv cfg paged nbrs db)
    (hsrc : src < db.vertexIndex.size) (hdst : dst < db.vertexIndex.size)
    (h : appendEdge cfg .insert src dst time db = .ok () db') :
    insertEdge cfg src dst time db = .ok true db' := by
  refine bind_eq_ok.2 ⟨db, db, rfl, ?_⟩
  have hc : ¬ (src ≥ db.vertexIndex.size ∨ dst ≥ db.vertexIndex.size ∨
      (db.vertexIndex.items src).isDelete = true ∨ (db.vertexIndex.items dst).isDelete = true) := by
    simp [Nat.not_le.2 hsrc, Nat.not_le.2 hdst, hi.undeleted src hsrc, hi.undeleted dst hdst]
  rw [if_neg hc]
  exact bind_eq_ok.2 ⟨(), db', h, rfl⟩

theorem deleteEdge_of_append {time : Nat} (hsrc : src < db.vertexIndex.size)
    (hdst : dst < db.vertexIndex.size) (h : appendEdge cfg .delete src dst time db = .ok () db') :
    deleteEdge cfg src dst time db = .ok true db' := by
  refine bind_eq_ok.2 ⟨db, db, rfl, ?_⟩
  have hc : ¬ (src ≥ db.vertexIndex.size ∨ dst ≥ db.vertexIndex.size) := by
    simp [Nat.not_le.2 hsrc, Nat.not_le.2 hdst]
  rw [if_neg hc]
  exact bind_eq_ok.2 ⟨(), db', h, rfl⟩

/-- A call is the same call of the virtual database. -/
theorem Settles.call {e : DbEvent} (hp : Pends db pending) (hs : Settles pending db dbv)
    (hi : Inv cfg paged nbrs dbv) (hne : ∀ p env, e ≠ .consolidate p env) (h : SeqStep cfg db e db') :
    ∃ dbv', SeqStep cfg dbv e dbv' ∧ Pends db' pending ∧ Settles pending db' dbv' := by
  have hok := hs.pageMapOk hi.pageMap
  have hpool := hs.poolOk hi.pool
  cases h with
  | insertEdge hrun =>
    obtain ⟨hsrc, hdst, happ⟩ := insertEdge_true hrun
    obtain ⟨dbv', happ', hp', hs'⟩ := hs.write hp hok happ
    exact ⟨dbv', .insertEdge (insertEdge_of_append hi (hs.size ▸ hsrc) (hs.size ▸ hdst) happ'),
      hp', hs'⟩
  | deleteEdge hrun =>
    obtain ⟨hsrc, hdst, happ⟩ := deleteEdge_true hrun
    obtain ⟨dbv', happ', hp', hs'⟩ := hs.write hp hok happ
    exact ⟨dbv', .deleteEdge (deleteEdge_of_append (hs.size ▸ hsrc) (hs.size ▸ hdst) happ'),
      hp', hs'⟩
  | consolidate _ => exact absurd rfl (hne _ _)
  | load q =>
    obtain ⟨hp', hs'⟩ := hs.refresh hp (refreshes_load hpool q).retired
    have hv : dbv.csrPool.load q =
        { db.csrPool.load q with retired := dbv.csrPool.retired } := by
      rw [hs.csrPool, load_retired]
    exact ⟨_, .load q, hp', hv ▸ hs'⟩
  | evict q =>
    obtain ⟨hp', hs'⟩ := hs.refresh hp (refreshes_evict hpool q).retired
    have hv : dbv.csrPool.evict q =
        { db.csrPool.evict q with retired := dbv.csrPool.retired } := by
      rw [hs.csrPool, evict_retired]
    exact ⟨_, .evict q, hp', hv ▸ hs'⟩
  | flush q =>
    obtain ⟨hp', hs'⟩ := hs.refresh hp (refreshes_flush hpool q).retired
    have hv : dbv.csrPool.flush q =
        { db.csrPool.flush q with retired := dbv.csrPool.retired } := by
      rw [hs.csrPool, flush_retired]
    exact ⟨_, .flush q, hp', hv ▸ hs'⟩
  | recycle hr =>
    obtain ⟨hrv, hp', hs'⟩ := hs.recycle hp hi.alloc hr
    exact ⟨_, .recycle hrv, hp', hs'⟩

theorem Simulated.call {e : DbEvent} (h : Simulated cfg paged n nbrs s)
    (hne : ∀ p env, e ≠ .consolidate p env) (hstep : SeqStep cfg s.db e db') :
    Simulated cfg paged n (nbrsStep nbrs e) { s with db := db' } := by
  obtain ⟨dbv, hs, ht⟩ := h.virtual
  obtain ⟨dbv', hstep', hp', hs'⟩ := hs.call h.pends ht.inv hne hstep
  have hm : MergeStep cfg paged dbv e := by
    cases e with
    | consolidate p env => exact absurd rfl (hne p env)
    | _ => trivial
  exact ⟨hp', dbv', hs', ht.step hm hstep'⟩

/-! ## Consolidations -/

/-- The normal returns of a consolidation with the manual switch. -/
theorem consolidatePagesManual_ok {exit : SmoExit}
    (h : consolidatePagesManual cfg env p s = .ok exit s') :
    s' = s ∨
    (s.db.pageMap.pageRecs p = [] ∧
      s' = { s with db := { s.db with pageMap := (s.db.pageMap.fetchDeltasWithMark p).2 } }) ∨
    (Merges cfg env s.db p ∧ ∃ r db1,
      buildReplacement cfg env p (s.db.pageMap.pageRecs p)
        { s.db with pageMap := (s.db.pageMap.fetchDeltasWithMark p).2 } = .ok r db1 ∧
      match r with
      | none => s' = { s with db := db1 }
      | some r => ∃ sw, prepareSwitch cfg env p r db1 = .ok sw s'.db ∧
          s'.pending = s.pending ++ [sw]) := by
  unfold consolidatePagesManual at h
  rw [EStateM.get_bind] at h
  split_ifs at h with hen hlen
  · obtain ⟨-, rfl⟩ := pure_eq_ok.1 h
    exact .inl rfl
  · obtain ⟨-, rfl⟩ := pure_eq_ok.1 h
    exact .inl rfl
  obtain ⟨deltas, s1, hfetch, h⟩ := bind_eq_ok.1 h
  obtain ⟨hfetch, hpend1⟩ := onDb_ok hfetch
  obtain ⟨rfl, hdb1⟩ := fetchDeltas_eq hfetch
  obtain ⟨db1, pend1⟩ := s1
  cases hpend1
  cases hdb1
  split_ifs at h with hempty
  · obtain ⟨-, rfl⟩ := pure_eq_ok.1 h
    exact .inr (.inl ⟨List.isEmpty_iff.1 hempty, rfl⟩)
  have hm : Merges cfg env s.db p :=
    ⟨by simpa using hen, Nat.not_lt.1 hlen, fun he => hempty (by rw [he]; rfl)⟩
  obtain ⟨r, s2, hbuild, h⟩ := bind_eq_ok.1 h
  obtain ⟨hbuild, hpend2⟩ := onDb_ok hbuild
  obtain ⟨db2, pend2⟩ := s2
  cases hpend2
  refine .inr (.inr ⟨hm, r, db2, hbuild, ?_⟩)
  cases r with
  | none =>
    obtain ⟨-, rfl⟩ := pure_eq_ok.1 h
    rfl
  | some r =>
    obtain ⟨sw, s3, hprep, h⟩ := bind_eq_ok.1 h
    obtain ⟨hprep, hpend3⟩ := onDb_ok hprep
    obtain ⟨⟨⟩, s4, hpush, h⟩ := bind_eq_ok.1 h
    cases hpush
    obtain ⟨-, rfl⟩ := pure_eq_ok.1 h
    exact ⟨sw, hprep, congrArg (· ++ [sw]) hpend3⟩

/-- A clear page is mergeable in the virtual database. -/
theorem Tracked.mergeable (ht : Tracked cfg paged n nbrs dbv) (hp : Pends db pending)
    (hs : Settles pending db dbv) (hlive : ∃ v ∈ paged, (db.location v).1 = p)
    (hread : Readable cfg (mergedGraph cfg db p))
    (hins : ∀ r ∈ db.pageMap.pageRecs p, r.type = .insert → r.first ∈ paged)
    (hclear : ∀ sw ∈ pending, sw.oldPageNo ≠ p ∧ ∀ v ∈ sw.locations, ¬ OnPage db p v) :
    Mergeable cfg paged dbv p := by
  refine ⟨?_, ?_, fun v hv _ => ht.synced v hv, fun r hr hty => ?_⟩
  · obtain ⟨v, hv, rfl⟩ := hlive
    have hout : ∀ sw ∈ pending, v ∉ sw.locations := fun sw hsw hm =>
      (hclear sw hsw).1 (hp.located sw hsw v hm).symm
    exact ⟨v, hv, by rw [hs.location_kept hout]⟩
  · rw [hs.mergedGraph fun sw hsw => (hclear sw hsw).2]
    exact hread
  · have hm := List.mem_map_of_mem (f := unlink) hr
    rw [hs.cuts.pageRecs_unlink] at hm
    obtain ⟨r', hr', he⟩ := List.mem_map.1 hm
    have hfst : (unlink r').first = (unlink r).first := by rw [he]
    have htype : (unlink r').type = (unlink r).type := by rw [he]
    have hpaged := hins r' hr' (htype.trans hty)
    rwa [show r'.first = r.first from hfst] at hpaged

/-- A consolidation that notes its switch publishes it in the virtual database. -/
theorem Simulated.noted {r : Replacement} {db1 : Db} {sw : VersionSwitch}
    (h : Simulated cfg paged n nbrs s)
    (hclear : (∃ v ∈ paged, (s.db.location v).1 = p) ∧ Readable cfg (mergedGraph cfg s.db p) ∧
      (∀ r ∈ s.db.pageMap.pageRecs p, r.type = .insert → r.first ∈ paged) ∧
      ∀ sw ∈ s.pending, sw.oldPageNo ≠ p ∧ ∀ v ∈ sw.locations, ¬ OnPage s.db p v)
    (hbuild : buildReplacement cfg env p (s.db.pageMap.pageRecs p)
      { s.db with pageMap := (s.db.pageMap.fetchDeltasWithMark p).2 } = .ok (some r) db1)
    (hprep : prepareSwitch cfg env p r db1 = .ok sw db') :
    Simulated cfg paged n nbrs ⟨db', s.pending ++ [sw]⟩ := by
  obtain ⟨dbv, hs, ht⟩ := h.virtual
  obtain ⟨hlive, hread, hins, hclear⟩ := hclear
  have hm := ht.mergeable h.pends hs hlive hread hins hclear
  have hgraph : mergedGraph cfg dbv p = mergedGraph cfg s.db p :=
    hs.mergedGraph fun sw hsw => (hclear sw hsw).2
  have hok := hs.pageMapOk ht.inv.pageMap
  obtain ⟨hp0, hs0⟩ := hs.drain h.pends hok p
  have hd := drains_fetchDeltasWithMark hok p
  have hdv := drains_fetchDeltasWithMark ht.inv.pageMap p
  have hchain0 : (s.db.pageMap.fetchDeltasWithMark p).2.chain p = [] :=
    (PageMap.chain_fetchDeltasWithMark _ _ _).trans (if_pos rfl)
  set db0 : Db := { s.db with pageMap := (s.db.pageMap.fetchDeltasWithMark p).2 }
  have hgraph0 : buildMergedGraph cfg (db0.csrPool.page p) (s.db.pageMap.pageRecs p)
      db0.vertexIndex db0.giantDb = mergedGraph cfg s.db p := rfl
  have hp1 : Prepared cfg (mergedGraph cfg s.db p) db0 db1 r := by
    rcases buildReplacement_ok (hs0.poolOk ht.inv.pool) (hs0.allocOk ht.inv.alloc) hgraph0 hbuild
      with ⟨hr, -⟩ | ⟨r', hr, hp1⟩
    · cases hr
    · cases hr
      exact hp1
  have hrecs1 : db1.pageMap.pageRecs p = [] := by
    rw [hp1.pageMap]
    exact hd.recs_self
  obtain ⟨hold, hlocs, hgiants, horder, hvi, hpool, hgdb, hn⟩ :=
    prepareSwitch_ok (by rw [hp1.pageMap]; exact hd.ok) hrecs1 hprep
  rw [hp1.pageMap] at hn
  have hmem : ∀ v, v ∈ sw.locations ↔ v ∈ mergedGraph cfg s.db p := fun v => by
    rw [hlocs]
    exact hp1.mem v
  have hnot : ∀ a ∈ s.pending, ∀ v ∈ a.locations, v ∉ mergedGraph cfg s.db p :=
    fun a ha v hv hg => (hclear a ha).2 v hv (mem_buildMergedGraph.1 hg)
  have hsep : ∀ a ∈ s.pending, a.oldPageNo ≠ p ∧ ∀ v ∈ a.locations, v ∉ sw.locations :=
    fun a ha => ⟨(hclear a ha).1, fun v hv hl => hnot a ha v hv ((hmem v).1 hl)⟩
  have hloc : ∀ v ∈ sw.locations, (s.db.location v).1 = p := by
    intro v hv
    have hg := (hmem v).1 hv
    have hout : ∀ a ∈ s.pending, v ∉ a.locations := fun a ha hva => hnot a ha v hva hg
    rw [← hs.location_kept hout]
    rw [← hgraph] at hg
    exact ((hm.mem_graph ht.inv).1 hg).2
  have hord : sw.order.Nodup ∧ ∀ v, v ∈ sw.order ↔ v ∈ sw.locations := by
    rw [horder, hlocs]
    have hperm := env.locationOrder.perm r.locations.keys
    exact ⟨hperm.nodup_iff.2 r.locations.keys_nodup, fun v => by
      rw [hperm.mem_iff, AList.mem_keys]⟩
  have hitems : db'.vertexIndex.items = s.db.vertexIndex.items := by rw [hvi, hp1.items]
  refine ⟨hp0.noted hitems hold hsep hord (hlocs ▸ buildReplacement_expects hbuild) hloc hn,
    _, hs0.noted hp0 (by rw [hvi, hp1.size]) hitems (by rw [hvi, hp1.deltaHeads])
      (by rw [hpool]; exact hp1.pages.retired) hold hsep hchain0 hn, ?_⟩
  -- in the virtual database the page is drained and published
  have hpub := hs0.published hp0 hd.ok hchain0 hp1 ht.inv.alloc hnot hold hlocs hgiants
  rw [← hpool, ← hgdb] at hpub
  have hdrain : DrainOnly p dbv { dbv with pageMap := (dbv.pageMap.fetchDeltasWithMark p).2 } :=
    ⟨rfl, rfl, rfl, hdv⟩
  have hpub := hpub.after_drain hdrain
  rw [← hgraph] at hpub
  exact ⟨ht.inv.published hm hpub, hpub.size.trans ht.size,
    fun v hv => (ht.synced v hv).published ht.inv hm hpub hv⟩

/-- The drain of a page without records. -/
theorem Simulated.drained (h : Simulated cfg paged n nbrs s) (hnil : s.db.pageMap.pageRecs p = []) :
    Simulated cfg paged n nbrs
      { s with db := { s.db with pageMap := (s.db.pageMap.fetchDeltasWithMark p).2 } } := by
  obtain ⟨dbv, hs, ht⟩ := h.virtual
  obtain ⟨hp', hs'⟩ := hs.drain h.pends (hs.pageMapOk ht.inv.pageMap) p
  have hd : DrainOnly p dbv { dbv with pageMap := (dbv.pageMap.fetchDeltasWithMark p).2 } :=
    ⟨rfl, rfl, rfl, drains_fetchDeltasWithMark ht.inv.pageMap p⟩
  have hnilv : dbv.pageMap.pageRecs p = [] := by
    have hrecs := hs.cuts.pageRecs_unlink p
    rw [hnil] at hrecs
    exact List.map_eq_nil_iff.1 hrecs
  exact ⟨hp', _, hs', ht.inv.drained hd, ht.size,
    fun v hv => (ht.synced v hv).drained hd fun _ => hnilv⟩

theorem Simulated.consolidate {exit : SmoExit} (h : Simulated cfg paged n nbrs s)
    (hs : ClearStep cfg paged s (.call (.consolidate p env)))
    (hrun : consolidatePagesManual cfg env p s = .ok exit s') : Simulated cfg paged n nbrs s' := by
  rcases consolidatePagesManual_ok hrun with rfl | ⟨hnil, rfl⟩ | ⟨hm, r, db1, hbuild, hres⟩
  · exact h
  · exact h.drained hnil
  have hclear := hs hm
  cases r with
  | some r =>
    obtain ⟨sw, hprep, hpend⟩ := hres
    have hnoted := h.noted hclear hbuild hprep
    rwa [← hpend] at hnoted
  | none =>
    -- the page of a vertex with an entry merges to a graph with that vertex
    exfalso
    obtain ⟨dbv, hs, ht⟩ := h.virtual
    obtain ⟨hlive, hread, hins, hclear⟩ := hclear
    have hmerge := ht.mergeable h.pends hs hlive hread hins hclear
    obtain ⟨hp0, hs0⟩ := hs.drain h.pends (hs.pageMapOk ht.inv.pageMap) p
    have hkeys : (mergedGraph cfg s.db p).keys = [] := by
      rcases buildReplacement_ok (hs0.poolOk ht.inv.pool) (hs0.allocOk ht.inv.alloc)
        (show _ = mergedGraph cfg s.db p from rfl) hbuild with ⟨-, -, hk⟩ | ⟨r', hr, -⟩
      · exact hk
      · cases hr
    obtain ⟨v, hv, hvp⟩ := hmerge.live
    have hg := (hmerge.mem_graph ht.inv).2 ⟨hv, hvp⟩
    rw [hs.mergedGraph fun sw hsw => (hclear sw hsw).2, AList.mem_keys, hkeys] at hg
    cases hg

/-! ## Runs -/

/-- The operations on `v` of a run, in call order. -/
def manualOpsIn (v : VId) (es : List ManualEvent) : List (Lww.Op VId) :=
  es.filterMap (ManualEvent.opOn v)

/-- The neighbour sets after one more event. -/
def manualNbrsStep (nbrs : VId → Set VId) (e : ManualEvent) (v : VId) : Set VId :=
  Lww.applyEvent (ManualEvent.opOn v) (nbrs v) e

theorem Simulated.step {e : ManualEvent} (h : Simulated cfg paged n nbrs s)
    (hs : ClearStep cfg paged s e) (hstep : ManualStep cfg s e s') :
    Simulated cfg paged n (manualNbrsStep nbrs e) s' := by
  cases hstep with
  | call hne hcall => exact h.call hne hcall
  | @consolidate p env _ _ hrun =>
    have hn : manualNbrsStep nbrs (.call (.consolidate p env)) = nbrs :=
      funext fun v => applyEvent_none rfl _
    rw [hn]
    exact h.consolidate hs hrun
  | publish hrun =>
    have hn : manualNbrsStep nbrs .publish = nbrs := funext fun v => applyEvent_none rfl _
    obtain ⟨db', hrun', -, ht⟩ := h.publish
    rw [hrun] at hrun'
    cases hrun'
    rw [hn]
    exact ht.simulated

theorem Simulated.steps {es : List ManualEvent} (h : Simulated cfg paged n nbrs s)
    (run : Steps (guarded (ClearStep cfg paged) (ManualStep cfg)) s es s') :
    Simulated cfg paged n (fun v => lww (nbrs v) (manualOpsIn v es)) s' := by
  refine run.inv (fun es s => Simulated cfg paged n
    (fun v => lww (nbrs v) (manualOpsIn v es)) s) h fun es s1 e s2 h1 hstep => ?_
  have hn : (fun v => lww (nbrs v) (manualOpsIn v (es ++ [e]))) =
      manualNbrsStep (fun v => lww (nbrs v) (manualOpsIn v es)) e :=
    funext fun v => lww_filterMap_concat _ _ _ _
  rw [hn]
  exact h1.step hstep.1 hstep.2

/-- After every run in which consolidations keep away from the pending switches,
`publish_pending_versions` returns with every switch published, and a read of every vertex gives
the last-writer-wins set. -/
theorem publishPendingVersions_reads {db0 : Db} {es : List ManualEvent}
    (h0 : Loaded cfg paged db0)
    (run : Steps (guarded (ClearStep cfg paged) (ManualStep cfg)) ⟨db0, []⟩ es s) :
    ∃ db', publishPendingVersions s = .ok () ⟨db', []⟩ ∧
      (∀ sw ∈ s.pending, ∀ v prepared, sw.locations.lookup v = some prepared →
        db'.location v = (prepared.desired.pageNo, prepared.desired.offset)) ∧
      ∀ v, v < db0.vertexIndex.size →
        Reads cfg db' v (Lww.lww {d | d ∈ db0.base cfg v} (manualOpsIn v es)) := by
  obtain ⟨db', hrun, hs, ht⟩ := (h0.tracked.simulated.steps run).publish
  exact ⟨db', hrun, fun sw hsw v prepared hl => hs.location_switched hsw hl,
    fun v hv => ht.inv.reads (ht.size.symm ▸ hv)⟩

/-- The small database with an insertion, a noted switch, and a forwarded insertion. -/
def smallNoted : ManualDb :=
  (consolidatePagesManual (smallConfig false) .smooth 0 ⟨smallInserted false, []⟩).state

/-- ... and an insertion on vertex 1, which the forwarder sends to the new page. -/
def smallForwarded : Db := (insertEdge (smallConfig false) 1 0 0 smallNoted.db).state

/-- The switch is published behind the forwarded insertion. -/
theorem publishPendingVersions_reads_small :
    ∃ db', publishPendingVersions ⟨smallForwarded, smallNoted.pending⟩ = .ok () ⟨db', []⟩ ∧
      Reads (smallConfig false) db' 1
        (Lww.lww {d | d ∈ (smallDb false).base (smallConfig false) 1} [.insert 0]) := by
  have hnote : consolidatePagesManual (smallConfig false) .smooth 0 ⟨smallInserted false, []⟩ =
      .ok .published smallNoted := EStateM.Result.eq_ok_of_value? (by decide +kernel)
  have hins : insertEdge (smallConfig false) 1 0 0 smallNoted.db = .ok true smallForwarded :=
    EStateM.Result.eq_ok_of_value? (by decide +kernel)
  have hload := smallDb_loaded false
  have hclear : ClearStep (smallConfig false) {v | v < (smallDb false).vertexIndex.size}
      ⟨smallInserted false, []⟩ (.call (.consolidate 0 .smooth)) :=
    fun _ => ⟨⟨0, by decide +kernel, by decide +kernel⟩, .inl rfl, by decide +kernel, by simp⟩
  have run : Steps (guarded (ClearStep (smallConfig false)
      {v | v < (smallDb false).vertexIndex.size}) (ManualStep (smallConfig false)))
      ⟨smallDb false, []⟩ ([] ++ [.call (.insertEdge 0 3 0)] ++
        [.call (.consolidate 0 .smooth)] ++ [.call (.insertEdge 1 0 0)])
      ⟨smallForwarded, smallNoted.pending⟩ :=
    .snoc (.snoc (.snoc .nil
      ⟨trivial, .call (fun _ _ h => by cases h) (.insertEdge (smallDb_inserts false))⟩)
      ⟨hclear, .consolidate hnote⟩)
      ⟨trivial, .call (fun _ _ h => by cases h) (.insertEdge hins)⟩
  obtain ⟨db', hrun, -, hreads⟩ := publishPendingVersions_reads hload run
  exact ⟨db', hrun, hreads 1 (by decide +kernel)⟩

/-- The giant database with a noted switch of page 0, ... -/
def giantNoted : ManualDb :=
  (consolidatePagesManual giantConfig .smooth 0 ⟨giantInserted 0, []⟩).state

/-- ... an insertion on the giant vertex 3, which is located on page 0 and not forwarded, ... -/
def giantPending : Db := (insertEdge giantConfig 3 4 0 giantNoted.db).state

/-- ... and a second switch of page 0. -/
def giantNotedTwice : ManualDb :=
  (consolidatePagesManual giantConfig .smooth 0 ⟨giantPending, giantNoted.pending⟩).state

/-- Two pending switches of the same old page: the second cannot be published. -/
theorem publishPendingVersions_throws :
    ¬ ∀ (cfg : Config) (paged : Set VId) (db0 : Db), Loaded cfg paged db0 →
      ∀ (es : List ManualEvent) (s : ManualDb), Steps (ManualStep cfg) ⟨db0, []⟩ es s →
      ∃ db', publishPendingVersions s = .ok () ⟨db', []⟩ ∧ ∀ v, v < db0.vertexIndex.size →
        Reads cfg db' v (Lww.lww {d | d ∈ db0.base cfg v} (manualOpsIn v es)) := by
  intro h
  have hload := (giantDb_built.loaded (by decide) (by decide) (by decide)).1
  have h1 : insertEdge giantConfig 0 4 0 giantDb = .ok true (giantInserted 0) :=
    EStateM.Result.eq_ok_of_value? (by decide +kernel)
  have h2 : consolidatePagesManual giantConfig .smooth 0 ⟨giantInserted 0, []⟩ =
      .ok .published giantNoted := EStateM.Result.eq_ok_of_value? (by decide +kernel)
  have h3 : insertEdge giantConfig 3 4 0 giantNoted.db = .ok true giantPending :=
    EStateM.Result.eq_ok_of_value? (by decide +kernel)
  have h4 : consolidatePagesManual giantConfig .smooth 0 ⟨giantPending, giantNoted.pending⟩ =
      .ok .published giantNotedTwice := EStateM.Result.eq_ok_of_value? (by decide +kernel)
  have run : Steps (ManualStep giantConfig) ⟨giantDb, []⟩ ([] ++ [.call (.insertEdge 0 4 0)] ++
      [.call (.consolidate 0 .smooth)] ++ [.call (.insertEdge 3 4 0)] ++
      [.call (.consolidate 0 .smooth)]) giantNotedTwice :=
    .snoc (.snoc (.snoc (.snoc .nil (.call (fun _ _ h => by cases h) (.insertEdge h1)))
      (.consolidate h2)) (.call (fun _ _ h => by cases h) (.insertEdge h3))) (.consolidate h4)
  obtain ⟨db', hrun, -⟩ := h _ _ _ hload _ _ run
  have hfail : (publishPendingVersions giantNotedTwice).error? =
      some "SMO vertex version CAS failed" := by decide +kernel
  rw [hrun] at hfail
  cases hfail

end BwGraph
