import BwGraph.Db.Vertices

/-
  The manual version switch (`manual_version_switch_`, `smo.cc`): a consolidation builds the
  replacement, installs the forwarder and only notes the switch; `publish_pending_versions`
  publishes the noted switches, oldest first. Until then the vertices keep their old versions and
  the forwarder sends their writers to the new page, so that the chain of a vertex is made of the
  rerouted records in front of the merged ones.

  `Pends` says how a database and its pending switches fit together. Then publishing them all
  returns, and `Settles` is what it does (`publishSwitches_settles`).
-/

namespace BwGraph

open List PageMap VertexIndex

/-! ## The calls -/

/-- `pending_version_switch_t`; `order` is the order in which a loop goes over the locations. -/
structure VersionSwitch where
  oldPageNo : PageNo
  locations : Locations
  giantVertices : List VId
  forwarder : Nat
  order : List VId

/-- An open database and the `pending_version_switches_` of its `smo_ctl_t`, oldest first. -/
structure ManualDb where
  db : Db
  pending : List VersionSwitch

/-- Computations with a manual version switch. -/
abbrev ManualM := EStateM String ManualDb

/-- A computation on the database. -/
def onDb {α : Type} (x : DbM α) : ManualM α := fun s =>
  match x s.db with
  | .ok a db => .ok a { s with db := db }
  | .error e db => .error e { s with db := db }

/-- `publish_version_switch`. -/
def publishVersionSwitch (sw : VersionSwitch) : DbM Unit := do
  finalizeVertices sw.giantVertices sw.forwarder sw.locations sw.order
  detachOldPage sw.oldPageNo

/-- The loop of `publish_pending_versions`. -/
def publishSwitches : List VersionSwitch → DbM Unit
  | [] => pure ()
  | sw :: pending => do
    publishVersionSwitch sw
    publishSwitches pending

/-- `publish_pending_versions`. -/
def publishPendingVersions : ManualM Unit := do
  let pending := (← get).pending
  modify fun s => { s with pending := [] }
  onDb (publishSwitches pending)

/-- From the replacement to the switch that is noted. -/
def prepareSwitch (cfg : Config) (env : SmoEnv) (oldPageNo : PageNo) (r : Replacement) :
    DbM VersionSwitch := do
  let forwarder ← installForwarder oldPageNo r.locations
  let stray ← fetchDeltas oldPageNo
  rerouteStrays cfg r.locations forwarder stray
  return ⟨oldPageNo, r.locations, r.giantVertices, forwarder,
    env.locationOrder.order r.locations.keys⟩

/-- `consolidate_pages` with the manual switch; `published` is the return at the end. -/
def consolidatePagesManual (cfg : Config) (env : SmoEnv) (oldPageNo : PageNo) :
    ManualM SmoExit := do
  let db := (← get).db
  if !env.enabled then return .disabled
  else if db.pageMap.getDeltaChainLength oldPageNo < safetyThreshold cfg env then
    return .belowThreshold
  else
    let deltas ← onDb (fetchDeltas oldPageNo)
    if deltas.isEmpty then return .noDeltas
    else
      match ← onDb (buildReplacement cfg env oldPageNo deltas) with
      | none => return .emptyGraph
      | some r =>
        let sw ← onDb (prepareSwitch cfg env oldPageNo r)
        modify fun s => { s with pending := s.pending ++ [sw] }
        return .published

theorem onDb_ok {α : Type} {x : DbM α} {s s' : ManualDb} {a : α} (h : onDb x s = .ok a s') :
    x s.db = .ok a s'.db ∧ s'.pending = s.pending := by
  unfold onDb at h
  cases hx : x s.db with
  | ok b db =>
    rw [hx] at h
    cases h
    exact ⟨rfl, rfl⟩
  | error e db =>
    rw [hx] at h
    cases h

theorem onDb_of_ok {α : Type} {x : DbM α} {s : ManualDb} {a : α} {db : Db}
    (h : x s.db = .ok a db) : onDb x s = .ok a { s with db := db } := by
  unfold onDb
  rw [h]

variable {cfg : Config} {db db' : Db} {pending : List VersionSwitch} {sw : VersionSwitch} {v : VId}

/-! ## One switch -/

/-- The first record of `v` that the forwarder rerouted. -/
def Db.tail (db : Db) (sw : VersionSwitch) (v : VId) : Option DeltaLoc :=
  (db.pageMap.forwarders sw.forwarder).reroutedTail v

/-- What finalizing the vertices `vs` of a switch does. -/
structure Finalizes (sw : VersionSwitch) (vs : List VId) (db db' : Db) : Prop where
  size : db'.vertexIndex.size = db.vertexIndex.size
  items : ∀ v ∈ vs, ∀ prepared, sw.locations.lookup v = some prepared →
    db'.vertexIndex.items v = (db.vertexIndex.items v).switched sw.giantVertices v prepared
  head : ∀ v ∈ vs, v ∈ sw.locations →
    db'.vertexIndex.deltaHeads v = (db.tail sw v).bind fun _ => db.vertexIndex.deltaHeads v
  kept : ∀ v, ¬ (v ∈ vs ∧ v ∈ sw.locations) →
    db'.vertexIndex.items v = db.vertexIndex.items v ∧
    db'.vertexIndex.deltaHeads v = db.vertexIndex.deltaHeads v
  csrPool : db'.csrPool = db.csrPool
  giantDb : db'.giantDb = db.giantDb
  cuts : db.pageMap.Cuts db'.pageMap
    {b | ∃ v ∈ vs, v ∈ sw.locations ∧ db.tail sw v = some b}
  forwarders : db.pageMap.SameForwarders db'.pageMap

/-- The compare-and-swap of a vertex that still has the version it was prepared for. -/
theorem finalizeVertex_finalizes {prepared : PreparedVertexVersion}
    (hl : sw.locations.lookup v = some prepared)
    (hid : (db.vertexIndex.items v).cur.id = prepared.expected) :
    ∃ db', finalizeVertex sw.giantVertices sw.forwarder v prepared db = .ok () db' ∧
      Finalizes sw [v] db db' := by
  have hmem : v ∈ sw.locations := mem_locations.2 ⟨prepared, hl⟩
  have hset : ∀ w ∈ [v], w = v := fun w hw => mem_singleton.1 hw
  unfold finalizeVertex
  simp only [publishPreparedVersion, setVertexType,
    setDeltaHead, Function.update_self, hid, if_true, Function.update_idem]
  refine ⟨_, rfl, rfl, ?_, ?_, ?_, rfl, rfl, ?_, ?_⟩
  · intro w hw pr hpr
    cases hset w hw
    rw [hl] at hpr
    cases hpr
    simp [VItem.switched]
  · intro w hw _
    cases hset w hw
    unfold Db.tail
    cases (db.pageMap.forwarders sw.forwarder).reroutedTail v <;> simp
  · intro w hw
    have hne : w ≠ v := fun he => hw ⟨he ▸ mem_singleton_self v, he ▸ hmem⟩
    simp [hne]
  · cases ht : (db.pageMap.forwarders sw.forwarder).reroutedTail v with
    | none =>
      refine ⟨fun _ => rfl, rfl, fun l hl => ?_, fun l _ => rfl⟩
      obtain ⟨w, hw, -, hb⟩ := hl
      cases hset w hw
      rw [Db.tail, ht] at hb
      cases hb
    | some b =>
      have hcut := cuts_truncateChainAt db.pageMap b
      refine ⟨hcut.chain, hcut.deltaDisk, fun l hl => ?_, fun l hl => ?_⟩
      · obtain ⟨w, hw, -, hb⟩ := hl
        cases hset w hw
        rw [Db.tail, ht] at hb
        cases hb
        exact hcut.cut _ rfl
      · refine hcut.keep l fun he => hl ⟨v, mem_singleton_self v, hmem, ?_⟩
        rw [Db.tail, ht, show l = b from he]
  · cases (db.pageMap.forwarders sw.forwarder).reroutedTail v with
    | none => exact .refl _
    | some b => exact ⟨fun _ => rfl, rfl, rfl⟩

theorem PageMap.SameForwarders.tail (h : db.pageMap.SameForwarders db'.pageMap)
    (sw : VersionSwitch) (v : VId) : db'.tail sw v = db.tail sw v := by
  unfold Db.tail
  rw [h.forwarders]

/-- A vertex that is not finalized yet, and then the others. -/
theorem Finalizes.cons {db1 : Db} {vs : List VId} (h : Finalizes sw [v] db db1)
    (hv : v ∉ vs) (h' : Finalizes sw vs db1 db') : Finalizes sw (v :: vs) db db' := by
  have hself : v ∈ [v] := mem_singleton_self v
  have hne : ∀ w ∈ vs, db1.vertexIndex.items w = db.vertexIndex.items w ∧
      db1.vertexIndex.deltaHeads w = db.vertexIndex.deltaHeads w :=
    fun w hw => h.kept w fun hc => hv (mem_singleton.1 hc.1 ▸ hw)
  refine ⟨h'.size.trans h.size, fun w hw pr hpr => ?_, fun w hw hm => ?_, fun w hw => ?_,
    h'.csrPool.trans h.csrPool, h'.giantDb.trans h.giantDb, ?_, h.forwarders.trans h'.forwarders⟩
  · rcases mem_cons.1 hw with rfl | hw
    · rw [(h'.kept w fun hc => hv hc.1).1, h.items w hself pr hpr]
    · rw [h'.items w hw pr hpr, (hne w hw).1]
  · rcases mem_cons.1 hw with rfl | hw
    · rw [(h'.kept w fun hc => hv hc.1).2, h.head w hself hm]
    · rw [h'.head w hw hm, (hne w hw).2, h.forwarders.tail]
  · obtain ⟨h1, h2⟩ := h'.kept w fun hc => hw ⟨mem_cons_of_mem _ hc.1, hc.2⟩
    obtain ⟨h3, h4⟩ := h.kept w fun hc => hw ⟨mem_singleton.1 hc.1 ▸ mem_cons_self, hc.2⟩
    exact ⟨h1.trans h3, h2.trans h4⟩
  · convert h.cuts.trans h'.cuts using 1
    ext b
    simp only [Set.mem_ofPred_eq, exists_mem_cons_iff, not_mem_nil, false_and,
      exists_false, or_false, h.forwarders.tail]

/-- Every vertex of the switch is finalized once and still has the version it was prepared for. -/
theorem finalizeVertices_finalizes {vs : List VId} (hnd : vs.Nodup)
    (hid : ∀ v ∈ vs, ∀ prepared, sw.locations.lookup v = some prepared →
      (db.vertexIndex.items v).cur.id = prepared.expected) :
    ∃ db', finalizeVertices sw.giantVertices sw.forwarder sw.locations vs db = .ok () db' ∧
      Finalizes sw vs db db' := by
  induction vs generalizing db with
  | nil =>
    refine ⟨db, rfl, rfl, by simp, by simp, fun _ _ => ⟨rfl, rfl⟩, rfl, rfl, ?_, .refl _⟩
    exact ⟨fun _ => rfl, rfl, fun l hl => by simp at hl, fun _ _ => rfl⟩
  | cons v vs ih =>
    obtain ⟨hv, hnd⟩ := nodup_cons.1 hnd
    unfold finalizeVertices
    cases hl : sw.locations.lookup v with
    | none =>
      obtain ⟨db', hrun, hf⟩ := ih hnd fun w hw => hid w (mem_cons_of_mem _ hw)
      have hmem : v ∉ sw.locations := AList.lookup_eq_none.1 hl
      have hiff : ∀ w, (w ∈ v :: vs ∧ w ∈ sw.locations) ↔ (w ∈ vs ∧ w ∈ sw.locations) := by
        intro w
        rw [mem_cons]
        constructor
        · rintro ⟨rfl | h1, h2⟩
          · exact absurd h2 hmem
          · exact ⟨h1, h2⟩
        · rintro ⟨h1, h2⟩
          exact ⟨.inr h1, h2⟩
      refine ⟨db', hrun, hf.size, fun w hw pr hpr => ?_, fun w hw hm => ?_, fun w hw => ?_,
        hf.csrPool, hf.giantDb, ?_, hf.forwarders⟩
      · exact hf.items w ((hiff w).1 ⟨hw, mem_locations.2 ⟨pr, hpr⟩⟩).1 pr hpr
      · exact hf.head w ((hiff w).1 ⟨hw, hm⟩).1 hm
      · exact hf.kept w fun hc => hw ((hiff w).2 hc)
      · convert hf.cuts using 1
        ext b
        simp only [Set.mem_ofPred_eq, ← and_assoc, hiff]
    | some prepared =>
      obtain ⟨db1, hone, hf1⟩ := finalizeVertex_finalizes hl (hid v mem_cons_self prepared hl)
      have hid1 : ∀ w ∈ vs, ∀ pr, sw.locations.lookup w = some pr →
          (db1.vertexIndex.items w).cur.id = pr.expected := by
        intro w hw pr hpr
        rw [(hf1.kept w fun hc => hv (mem_singleton.1 hc.1 ▸ hw)).1]
        exact hid w (mem_cons_of_mem _ hw) pr hpr
      obtain ⟨db', hrun, hf⟩ := ih hnd hid1
      exact ⟨db', EStateM.bind_eq_ok.2 ⟨(), db1, hone, hrun⟩, hf1.cons hv hf⟩

/-! ## All switches -/

/-- How a database and its pending switches fit together. -/
structure Pends (db : Db) (pending : List VersionSwitch) : Prop where
  disjoint : pending.Pairwise fun a b => ∀ v ∈ a.locations, v ∉ b.locations
  distinct : (pending.map VersionSwitch.oldPageNo).Nodup
  handles : (pending.map VersionSwitch.forwarder).Nodup
  order : ∀ sw ∈ pending, sw.order.Nodup ∧ ∀ v, v ∈ sw.order ↔ v ∈ sw.locations
  expected : ∀ sw ∈ pending, ∀ v prepared, sw.locations.lookup v = some prepared →
    (db.vertexIndex.items v).cur.id = prepared.expected
  located : ∀ sw ∈ pending, ∀ v ∈ sw.locations, (db.location v).1 = sw.oldPageNo
  forwarded : ∀ sw ∈ pending, db.pageMap.acquireForwarderFor sw.oldPageNo = some sw.forwarder ∧
    sw.forwarder < db.pageMap.nextForwarder ∧
    ∀ v, (db.pageMap.forwarders sw.forwarder).forwardMap v =
      (sw.locations.lookup v).map fun prepared => prepared.desired.pageNo
  unforwarded : ∀ p, (∀ sw ∈ pending, sw.oldPageNo ≠ p) → db.pageMap.acquireForwarderFor p = none
  tails : ∀ sw ∈ pending, ∀ v ∈ sw.locations, ∀ b, db.tail sw v = some b →
    ∃ r, db.pageMap.getRecord b = some r

/-- The records in front of which the chains are cut. -/
def boundaries (db : Db) (pending : List VersionSwitch) : Set DeltaLoc :=
  {b | ∃ sw ∈ pending, ∃ v ∈ sw.locations, db.tail sw v = some b}

/-- `db'` is `db` with the pending switches published. -/
structure Settles (pending : List VersionSwitch) (db db' : Db) : Prop where
  size : db'.vertexIndex.size = db.vertexIndex.size
  switched : ∀ sw ∈ pending, ∀ v prepared, sw.locations.lookup v = some prepared →
    db'.vertexIndex.items v = (db.vertexIndex.items v).switched sw.giantVertices v prepared ∧
    db'.vertexIndex.deltaHeads v = (db.tail sw v).bind fun _ => db.vertexIndex.deltaHeads v
  kept : ∀ v, (∀ sw ∈ pending, v ∉ sw.locations) →
    db'.vertexIndex.items v = db.vertexIndex.items v ∧
    db'.vertexIndex.deltaHeads v = db.vertexIndex.deltaHeads v
  csrPool : db'.csrPool = { db.csrPool with
    retired := (pending.map VersionSwitch.oldPageNo).reverse ++ db.csrPool.retired }
  giantDb : db'.giantDb = db.giantDb
  cuts : db.pageMap.Cuts db'.pageMap (boundaries db pending)
  acquire : ∀ p, db'.pageMap.acquireForwarderFor p =
    if p ∈ pending.map VersionSwitch.oldPageNo then none else db.pageMap.acquireForwarderFor p

theorem PageMap.SameChains.cuts {pm pm' pm'' : PageMap} {B : Set DeltaLoc}
    (h : pm'.SameChains pm'') (hc : pm.Cuts pm' B) : pm.Cuts pm'' B :=
  ⟨fun p => (h.chain p).trans (hc.chain p), h.deltaDisk.trans hc.deltaDisk,
    fun l hl => (h.getRecord l).trans (hc.cut l hl),
    fun l hl => (h.getRecord l).trans (hc.keep l hl)⟩

theorem PageMap.detachForwarderFor_forwarders (pm : PageMap) (p : PageNo) :
    (pm.detachForwarderFor p).forwarders = pm.forwarders ∧
      (pm.detachForwarderFor p).nextForwarder = pm.nextForwarder := by
  unfold detachForwarderFor
  split <;> exact ⟨rfl, rfl⟩

/-- The first of the pending switches. -/
theorem Pends.publishVersionSwitch (h : Pends db (sw :: pending)) :
    ∃ db', publishVersionSwitch sw db = .ok () db' ∧ Settles [sw] db db' ∧
      db'.pageMap.forwarders = db.pageMap.forwarders ∧
      db'.pageMap.nextForwarder = db.pageMap.nextForwarder := by
  have hsw : sw ∈ sw :: pending := mem_cons_self
  obtain ⟨hnd, hord⟩ := h.order sw hsw
  obtain ⟨db1, hrun, hf⟩ := finalizeVertices_finalizes hnd
    (fun v _ prepared hl => h.expected sw hsw v prepared hl)
  refine ⟨_, EStateM.bind_eq_ok.2 ⟨(), db1, hrun, rfl⟩, ⟨hf.size, ?_, ?_, ?_, hf.giantDb, ?_, ?_⟩,
    ?_, ?_⟩
  · intro sw' hsw' v prepared hl
    cases mem_singleton.1 hsw'
    have hmem := mem_locations.2 ⟨prepared, hl⟩
    exact ⟨hf.items v ((hord v).2 hmem) prepared hl, hf.head v ((hord v).2 hmem) hmem⟩
  · intro v hv
    exact hf.kept v fun hc => hv sw (mem_singleton_self sw) hc.2
  · show ({ db1.csrPool with retired := sw.oldPageNo :: db1.csrPool.retired } : CsrPool) = _
    rw [hf.csrPool]
    rfl
  · refine (sameChains_detachForwarderFor db1.pageMap sw.oldPageNo).cuts ?_
    convert hf.cuts using 1
    ext b
    simp only [boundaries, Set.mem_ofPred_eq, mem_singleton, exists_eq_left]
    constructor
    · rintro ⟨v, hv, hb⟩
      exact ⟨v, (hord v).2 hv, hv, hb⟩
    · rintro ⟨v, -, hv, hb⟩
      exact ⟨v, hv, hb⟩
  · intro p
    rw [map_singleton]
    by_cases hp : p = sw.oldPageNo
    · subst hp
      rw [if_pos (mem_singleton_self _)]
      exact acquireForwarderFor_detach_self _ _
    · rw [if_neg fun hc => hp (mem_singleton.1 hc)]
      exact (acquireForwarderFor_detach_ne _ hp).trans (hf.forwarders.acquire p)
  · exact (detachForwarderFor_forwarders _ _).1.trans hf.forwarders.forwarders
  · exact (detachForwarderFor_forwarders _ _).2.trans hf.forwarders.nextForwarder

/-- The other switches stay pending. -/
theorem Pends.rest (h : Pends db (sw :: pending)) (hs : Settles [sw] db db')
    (hfw : db'.pageMap.forwarders = db.pageMap.forwarders)
    (hnext : db'.pageMap.nextForwarder = db.pageMap.nextForwarder) : Pends db' pending := by
  obtain ⟨hdis, hdisj⟩ := pairwise_cons.1 h.disjoint
  obtain ⟨hold, hdist⟩ := nodup_cons.1 h.distinct
  have hkept : ∀ sw' ∈ pending, ∀ v ∈ sw'.locations,
      db'.vertexIndex.items v = db.vertexIndex.items v := by
    intro sw' hsw' v hv
    refine (hs.kept v fun a ha hva => ?_).1
    cases mem_singleton.1 ha
    exact hdis sw' hsw' v hva hv
  have htail : ∀ sw' v, db'.tail sw' v = db.tail sw' v := fun sw' v => by
    unfold Db.tail
    rw [hfw]
  refine ⟨hdisj, hdist, (nodup_cons.1 h.handles).2,
    fun a ha => h.order a (mem_cons_of_mem _ ha), ?_, ?_, ?_, ?_, ?_⟩
  · intro a ha v prepared hl
    rw [hkept a ha v (mem_locations.2 ⟨prepared, hl⟩)]
    exact h.expected a (mem_cons_of_mem _ ha) v prepared hl
  · intro a ha v hv
    unfold Db.location
    rw [hkept a ha v hv]
    exact h.located a (mem_cons_of_mem _ ha) v hv
  · intro a ha
    obtain ⟨h1, h2, h3⟩ := h.forwarded a (mem_cons_of_mem _ ha)
    have hne : a.oldPageNo ∉ [sw].map VersionSwitch.oldPageNo := by
      intro hc
      rw [map_singleton, mem_singleton] at hc
      exact hold (hc ▸ mem_map_of_mem ha)
    refine ⟨?_, hnext ▸ h2, hfw ▸ h3⟩
    rw [hs.acquire, if_neg hne]
    exact h1
  · intro p hp
    rw [hs.acquire]
    split_ifs with hc
    · rfl
    · refine h.unforwarded p fun a ha => ?_
      rcases mem_cons.1 ha with rfl | ha
      · exact fun he => hc (he ▸ mem_singleton_self _)
      · exact hp a ha
  · intro a ha v hv b hb
    rw [htail] at hb
    obtain ⟨r, hr⟩ := h.tails a (mem_cons_of_mem _ ha) v hv b hb
    by_cases hB : b ∈ boundaries db [sw]
    · exact ⟨_, by rw [hs.cuts.cut b hB, hr]; rfl⟩
    · exact ⟨r, by rw [hs.cuts.keep b hB, hr]⟩

theorem Settles.cons {db1 : Db} (h : Pends db (sw :: pending)) (hs : Settles [sw] db db1)
    (hfw : db1.pageMap.forwarders = db.pageMap.forwarders) (hs' : Settles pending db1 db') :
    Settles (sw :: pending) db db' := by
  obtain ⟨hdis, -⟩ := pairwise_cons.1 h.disjoint
  have htail : ∀ a v, db1.tail a v = db.tail a v := fun a v => by
    unfold Db.tail
    rw [hfw]
  refine ⟨hs'.size.trans hs.size, ?_, ?_, ?_, hs'.giantDb.trans hs.giantDb, ?_, ?_⟩
  · intro a ha v prepared hl
    have hmem := mem_locations.2 ⟨prepared, hl⟩
    rcases mem_cons.1 ha with rfl | ha
    · obtain ⟨h1, h2⟩ := hs'.kept v fun b hb hvb => hdis b hb v hmem hvb
      obtain ⟨h3, h4⟩ := hs.switched a (mem_singleton_self a) v prepared hl
      exact ⟨h1.trans h3, h2.trans h4⟩
    · obtain ⟨h1, h2⟩ := hs'.switched a ha v prepared hl
      obtain ⟨h3, h4⟩ := hs.kept v fun b hb hvb => by
        cases mem_singleton.1 hb
        exact hdis a ha v hvb hmem
      rw [h1, h2, h3, h4, htail]
      exact ⟨rfl, rfl⟩
  · intro v hv
    obtain ⟨h1, h2⟩ := hs'.kept v fun b hb => hv b (mem_cons_of_mem _ hb)
    obtain ⟨h3, h4⟩ := hs.kept v fun b hb => hv b (mem_singleton.1 hb ▸ mem_cons_self)
    exact ⟨h1.trans h3, h2.trans h4⟩
  · rw [hs'.csrPool, hs.csrPool]
    simp
  · convert hs.cuts.trans hs'.cuts using 1
    ext b
    simp only [boundaries, Set.mem_ofPred_eq, exists_mem_cons_iff, not_mem_nil, false_and,
      exists_false, or_false, htail]
  · intro p
    rw [hs'.acquire, hs.acquire]
    simp only [map_cons, map_nil, mem_cons, not_mem_nil, or_false]
    by_cases hp : p ∈ pending.map VersionSwitch.oldPageNo
    · rw [if_pos hp, if_pos (.inr hp)]
    · simp only [hp, if_false, or_false]

/-- Publishing the pending switches returns. -/
theorem publishSwitches_settles (h : Pends db pending) :
    ∃ db', publishSwitches pending db = .ok () db' ∧ Settles pending db db' := by
  induction pending generalizing db with
  | nil =>
    refine ⟨db, rfl, rfl, by simp, fun _ _ => ⟨rfl, rfl⟩, rfl, rfl, ?_, fun p => ?_⟩
    · exact ⟨fun _ => rfl, rfl, fun l hl => by simp [boundaries] at hl, fun _ _ => rfl⟩
    · rw [if_neg (by simp)]
  | cons sw pending ih =>
    obtain ⟨db1, hrun, hs, hfw, hnext⟩ := h.publishVersionSwitch
    obtain ⟨db', hrun', hs'⟩ := ih (h.rest hs hfw hnext)
    exact ⟨db', EStateM.bind_eq_ok.2 ⟨(), db1, hrun, hrun'⟩, hs.cons h hfw hs'⟩

end BwGraph
