import BwGraph.Db.Consolidation

/-
  Sequential runs: one call of `insert_edge`, `delete_edge` or `consolidate_pages` after another,
  each to its end, with the background work of the CSR buffer pool (load, evict, flush, recycle a
  replaced page) anywhere in between. A run is a `Steps` of `SeqStep`, whose write steps are the
  calls that returned true and whose consolidation steps are the calls that returned normally.

  `Inv.step` is what one step keeps, given `Safe` at the consolidations; `Inv.steps` is the run
  lemma. As long as the vertices with entries stay synced, `Safe` asks for less (`MergeStep`), and
  when every vertex has an entry only the readability of the replacement is left (`ReadableStep`).
-/

namespace BwGraph

/-- The events of a sequential run. -/
inductive DbEvent where
  | insertEdge (src dst : VId) (time : Nat)
  | deleteEdge (src dst : VId) (time : Nat)
  | consolidate (p : PageNo) (env : SmoEnv)
  | load (p : PageNo)
  | evict (p : PageNo)
  | flush (p : PageNo)
  | recycle (p : PageNo)

/-- One step of a sequential run. -/
inductive SeqStep (cfg : Config) (db : Db) : DbEvent → Db → Prop
  | insertEdge {src dst : VId} {time : Nat} {db' : Db}
      (h : insertEdge cfg src dst time db = .ok true db') :
      SeqStep cfg db (.insertEdge src dst time) db'
  | deleteEdge {src dst : VId} {time : Nat} {db' : Db}
      (h : deleteEdge cfg src dst time db = .ok true db') :
      SeqStep cfg db (.deleteEdge src dst time) db'
  | consolidate {p : PageNo} {env : SmoEnv} {exit : SmoExit} {db' : Db}
      (h : consolidatePages cfg env p db = .ok exit db') :
      SeqStep cfg db (.consolidate p env) db'
  | load (p : PageNo) : SeqStep cfg db (.load p) { db with csrPool := db.csrPool.load p }
  | evict (p : PageNo) : SeqStep cfg db (.evict p) { db with csrPool := db.csrPool.evict p }
  | flush (p : PageNo) : SeqStep cfg db (.flush p) { db with csrPool := db.csrPool.flush p }
  | recycle {p : PageNo} (h : p ∈ db.csrPool.retired) :
      SeqStep cfg db (.recycle p) { db with csrPool := db.csrPool.recyclePage p }

/-- The operation of an event on vertex `v`, if it has one. -/
def DbEvent.opOn (v : VId) : DbEvent → Option (Lww.Op VId)
  | .insertEdge src dst _ => if src = v then some (.insert dst) else none
  | .deleteEdge src dst _ => if src = v then some (.erase dst) else none
  | _ => none

/-- The operations on `v` of a run, in call order. -/
def opsIn (v : VId) (es : List DbEvent) : List (Lww.Op VId) := es.filterMap (DbEvent.opOn v)

/-- The neighbour sets after the operations of a run. -/
def nbrsAfter (nbrs : VId → Set VId) (es : List DbEvent) (v : VId) : Set VId :=
  Lww.lww (nbrs v) (opsIn v es)

/-- What a step needs for the invariant: a consolidation with pending records is of a mergeable
page. -/
def Safe (cfg : Config) (paged : Set VId) (db : Db) : DbEvent → Prop
  | .consolidate p _ => db.pageMap.pageRecs p ≠ [] → Mergeable cfg paged db p
  | _ => True

variable {cfg : Config} {paged : Set VId} {nbrs : VId → Set VId} {db db' : Db}

/-! ## Calls that return true -/

variable {src dst : VId} {time : Nat}

/-- `insert_edge` returned true: both ends exist and the record was appended. -/
theorem insertEdge_true (h : insertEdge cfg src dst time db = .ok true db') :
    src < db.vertexIndex.size ∧ dst < db.vertexIndex.size ∧
      appendEdge cfg .insert src dst time db = .ok () db' := by
  rcases insertEdge_cases h with ⟨-, hacc, happ⟩ | ⟨hb, -⟩
  · exact ⟨hacc.1, hacc.2.1, happ⟩
  · cases hb

/-- `delete_edge` returned true: both ends exist and the record was appended. -/
theorem deleteEdge_true (h : deleteEdge cfg src dst time db = .ok true db') :
    src < db.vertexIndex.size ∧ dst < db.vertexIndex.size ∧
      appendEdge cfg .delete src dst time db = .ok () db' := by
  rcases deleteEdge_cases h with ⟨-, hacc, happ⟩ | ⟨hb, -⟩
  · exact ⟨hacc.1, hacc.2, happ⟩
  · cases hb

/-! ## One step -/

/-- What a step does, seen from the invariant. -/
inductive Effect (cfg : Config) (paged : Set VId) (db : Db) (e : DbEvent) (db' : Db) : Prop
  | written {type : DeltaType} {src dst : VId} {time : Nat} {loc : DeltaLoc}
      (op : ∀ v, e.opOn v = if src = v then some (edgeOp type dst) else none)
      (src_lt : src < db.vertexIndex.size) (dst_lt : dst < db.vertexIndex.size)
      (h : Written db db' type src dst time loc)
  | same (op : ∀ v, e.opOn v = none) (h : db' = db)
  | repooled (op : ∀ v, e.opOn v = none) (h : Repooled db db')
  | drained {p : PageNo} (op : ∀ v, e.opOn v = none) (h : DrainOnly p db db')
      (hp : ∀ v ∈ paged, (db.location v).1 = p → db.pageMap.pageRecs p = [])
  | published {p : PageNo} {locs : Locations} (op : ∀ v, e.opOn v = none)
      (hm : Mergeable cfg paged db p)
      (h : Published cfg p (mergedGraph cfg db p) db db' locs)

variable {e : DbEvent}

theorem Inv.effect (hi : Inv cfg paged nbrs db) (hs : Safe cfg paged db e)
    (h : SeqStep cfg db e db') : Effect cfg paged db e db' := by
  cases h with
  | @insertEdge src dst time _ h =>
    obtain ⟨h1, h2, happ⟩ := insertEdge_true h
    obtain ⟨loc, hw⟩ := appendEdge_ok hi.pageMap (hi.noForwarder _) happ
    exact .written (fun _ => rfl) h1 h2 hw
  | @deleteEdge src dst time _ h =>
    obtain ⟨h1, h2, happ⟩ := deleteEdge_true h
    obtain ⟨loc, hw⟩ := appendEdge_ok hi.pageMap (hi.noForwarder _) happ
    exact .written (fun _ => rfl) h1 h2 hw
  | @consolidate p env exit _ h =>
    rcases consolidatePages_ok hi.pool hi.alloc hi.pageMap h with
      ⟨-, rfl⟩ | ⟨-, hnil, hd⟩ | ⟨-, hne, hkeys, hd⟩ | ⟨-, hne, locs, hp⟩
    · exact .same (fun _ => rfl) rfl
    · exact .drained (fun _ => rfl) hd fun _ _ _ => hnil
    · -- no vertex of the page has an entry, so no vertex with an entry is located there
      refine .drained (fun _ => rfl) hd fun v hv hvp => absurd ?_ hne
      have hg := (hs hne).mem_graph hi (v := v)
      rw [AList.mem_keys, hkeys] at hg
      exact absurd (hg.2 ⟨hv, hvp⟩) (List.not_mem_nil)
    · exact .published (fun _ => rfl) (hs hne) hp
  | load p =>
    exact .repooled (fun _ => rfl) ((CsrPool.refreshes_load hi.pool p).repooled hi.alloc)
  | evict p =>
    exact .repooled (fun _ => rfl) ((CsrPool.refreshes_evict hi.pool p).repooled hi.alloc)
  | flush p =>
    exact .repooled (fun _ => rfl) ((CsrPool.refreshes_flush hi.pool p).repooled hi.alloc)
  | recycle hr => exact .repooled (fun _ => rfl) (repooled_recyclePage hi.pool hi.alloc hr)

/-- The neighbour sets after one more event. -/
def nbrsStep (nbrs : VId → Set VId) (e : DbEvent) (v : VId) : Set VId :=
  Lww.applyEvent (DbEvent.opOn v) (nbrs v) e

theorem nbrsAfter_concat (nbrs : VId → Set VId) (es : List DbEvent) (e : DbEvent) :
    nbrsAfter nbrs (es ++ [e]) = nbrsStep (nbrsAfter nbrs es) e := by
  funext v
  exact Lww.lww_filterMap_concat _ _ _ _

theorem nbrsStep_of_none (h : ∀ v, e.opOn v = none) : nbrsStep nbrs e = nbrs := by
  funext v
  exact Lww.applyEvent_none (h v) _

/-- An event with an operation on one vertex changes the set of that vertex. -/
theorem applyEvent_update {ε : Type} {opOn : VId → ε → Option (Lww.Op VId)} {e : ε} {src : VId}
    {o : Lww.Op VId} (h : ∀ v, opOn v e = if src = v then some o else none) (nbrs : VId → Set VId) :
    (fun v => Lww.applyEvent (opOn v) (nbrs v) e) =
      Function.update nbrs src (o.apply (nbrs src)) := by
  funext v
  by_cases hv : src = v
  · subst hv
    rw [Function.update_self]
    exact Lww.applyEvent_some (by rw [h, if_pos rfl]) _
  · rw [Function.update_of_ne (Ne.symm hv)]
    exact Lww.applyEvent_none (by rw [h, if_neg hv]) _

section

variable (hi : Inv cfg paged nbrs db) (hs : Safe cfg paged db e) (h : SeqStep cfg db e db')
include hi hs h

/-- One safe step keeps the invariant. -/
theorem Inv.step : Inv cfg paged (nbrsStep nbrs e) db' := by
  cases hi.effect hs h with
  | @written type src dst time loc hop hsrc hdst hw =>
    have hn : nbrsStep nbrs e = Function.update nbrs src ((edgeOp type dst).apply (nbrs src)) :=
      applyEvent_update hop nbrs
    rw [hn]
    exact hi.written hw hsrc hdst
  | same hop h => rw [nbrsStep_of_none hop, h]; exact hi
  | repooled hop h => rw [nbrsStep_of_none hop]; exact hi.repooled h
  | drained hop h => rw [nbrsStep_of_none hop]; exact hi.drained h
  | published hop hm h => rw [nbrsStep_of_none hop]; exact hi.published hm h

/-- One safe step keeps the vertices with entries synced. -/
theorem Synced.step {v : VId} (hv : v ∈ paged) (hsync : Synced db v) : Synced db' v := by
  cases hi.effect hs h with
  | written hop hsrc hdst hw => exact hsync.written hw
  | same hop h => rw [h]; exact hsync
  | repooled hop h => exact hsync.repooled h
  | drained hop h hp => exact hsync.drained h (hp v hv)
  | published hop hm h => exact hsync.published hi hm h hv

end

theorem Effect.size (h : Effect cfg paged db e db') :
    db'.vertexIndex.size = db.vertexIndex.size := by
  cases h with
  | written _ _ _ h => exact h.size
  | same _ h => rw [h]
  | repooled _ h => rw [h.vertexIndex]
  | drained _ h => rw [h.vertexIndex]
  | published _ _ h => exact h.size

/-! ## Runs -/

variable {es : List DbEvent}

/-- A run whose consolidations are all safe keeps the invariant. -/
theorem Inv.steps (hi : Inv cfg paged nbrs db)
    (run : Steps (guarded (Safe cfg paged) (SeqStep cfg)) db es db') :
    Inv cfg paged (nbrsAfter nbrs es) db' :=
  run.inv (fun es db => Inv cfg paged (nbrsAfter nbrs es) db) hi
    fun es _ e _ h hstep => nbrsAfter_concat nbrs es e ▸ h.step hstep.1 hstep.2

/-! ## Loaded databases -/

/-- A database as it is after loading: the vertices of `paged` have their CSR entries, nothing is
pending. -/
structure Loaded (cfg : Config) (paged : Set VId) (db : Db) : Prop where
  pool : db.csrPool.Ok
  alloc : db.csrPool.AllocOk
  pageMap : db.pageMap.Ok
  noForwarder : ∀ p, db.pageMap.acquireForwarderFor p = none
  size : db.vertexIndex.size ≤ cfg.idLimit
  undeleted : ∀ v, v < db.vertexIndex.size → (db.vertexIndex.items v).isDelete = false
  giant : ∀ v, v < db.vertexIndex.size → v ∉ paged →
    (db.vertexIndex.items v).vertexType = .giant
  pagedLt : ∀ v ∈ paged, v < db.vertexIndex.size
  entry : ∀ v ∈ paged, db.HasEntry v
  inUse : ∀ v ∈ paged, db.csrPool.InUse (db.location v).1
  owned : ∀ v ∈ paged, ∀ w i, (db.csrPool.page (db.location v).1).HasEntry w i →
    w ∈ paged ∧ db.location w = ((db.location v).1, i)
  baseIds : ∀ v, v < db.vertexIndex.size → ∀ d ∈ db.base cfg v, d < db.vertexIndex.size
  noHead : ∀ v, db.vertexIndex.deltaHeads v = none
  noPending : ∀ p, db.pageMap.pageRecs p = []

/-- The neighbour sets a database was loaded with. -/
def loadedNbrs (cfg : Config) (db : Db) (v : VId) : Set VId := {d | d ∈ db.base cfg v}

theorem Loaded.inv (h : Loaded cfg paged db) : Inv cfg paged (loadedNbrs cfg db) db := by
  refine ⟨h.pool, h.alloc, h.pageMap, h.noForwarder, h.size, h.undeleted, h.giant, h.pagedLt,
    h.entry, h.inUse, h.owned, h.baseIds, fun v _ => ⟨[], ?_, by simp, by simp, by simp, rfl⟩, ?_⟩
  · rw [h.noHead v]
    exact .nil
  · intro p r hr
    rw [h.noPending p] at hr
    cases hr

theorem Loaded.synced (h : Loaded cfg paged db) (v : VId) : Synced db v :=
  ⟨[], by rw [h.noHead v]; exact .nil, by rw [h.noPending]; rfl⟩

/-! ## Synced runs -/

/-- What a consolidation with pending records needs as long as the vertices with entries are
synced: its page is the page of one of them, the replacement can be read back, and no pending
insertion is of a vertex without an entry. -/
def MergeStep (cfg : Config) (paged : Set VId) (db : Db) : DbEvent → Prop
  | .consolidate p _ => db.pageMap.pageRecs p ≠ [] →
      (∃ v ∈ paged, (db.location v).1 = p) ∧ Readable cfg (mergedGraph cfg db p) ∧
        ∀ r ∈ db.pageMap.pageRecs p, r.type = .insert → r.first ∈ paged
  | _ => True

/-- The invariant together with the number of vertices and the synced chains. -/
structure Tracked (cfg : Config) (paged : Set VId) (n : Nat) (nbrs : VId → Set VId) (db : Db) :
    Prop where
  inv : Inv cfg paged nbrs db
  size : db.vertexIndex.size = n
  synced : ∀ v ∈ paged, Synced db v

theorem Loaded.tracked (h : Loaded cfg paged db) :
    Tracked cfg paged db.vertexIndex.size (loadedNbrs cfg db) db :=
  ⟨h.inv, rfl, fun v _ => h.synced v⟩

variable {n : Nat}

section

variable (h : Tracked cfg paged n nbrs db)
include h

theorem Tracked.safe (hm : MergeStep cfg paged db e) : Safe cfg paged db e := by
  cases e with
  | consolidate p env =>
    intro hne
    obtain ⟨hlive, hread, hins⟩ := hm hne
    exact ⟨hlive, hread, fun v hv _ => h.synced v hv, hins⟩
  | _ => trivial

theorem Tracked.step (hm : MergeStep cfg paged db e) (hstep : SeqStep cfg db e db') :
    Tracked cfg paged n (nbrsStep nbrs e) db' :=
  ⟨h.inv.step (h.safe hm) hstep, (h.inv.effect (h.safe hm) hstep).size.trans h.size,
    fun v hv => (h.synced v hv).step h.inv (h.safe hm) hstep hv⟩

theorem Tracked.steps (run : Steps (guarded (MergeStep cfg paged) (SeqStep cfg)) db es db') :
    Tracked cfg paged n (nbrsAfter nbrs es) db' :=
  run.inv (fun es db => Tracked cfg paged n (nbrsAfter nbrs es) db) h
    fun es _ e _ h hstep => nbrsAfter_concat nbrs es e ▸ h.step hstep.1 hstep.2

end

/-! ## Every vertex has an entry -/

/-- The replacement that a consolidation with pending records builds can be read back. -/
def ReadableStep (cfg : Config) (db : Db) : DbEvent → Prop
  | .consolidate p _ => db.pageMap.pageRecs p ≠ [] → Readable cfg (mergedGraph cfg db p)
  | _ => True

/-- When every vertex has an entry, pending records are of vertices located on their page. -/
theorem Tracked.mergeStep (h : Tracked cfg {v | v < n} n nbrs db) (hr : ReadableStep cfg db e) :
    MergeStep cfg {v | v < n} db e := by
  cases e with
  | consolidate p env =>
    intro hne
    obtain ⟨r, hmem⟩ := List.exists_mem_of_ne_nil _ hne
    have hlt : ∀ r ∈ db.pageMap.pageRecs p, r.first < n := fun r hmem =>
      h.size ▸ (h.inv.pending p r hmem).2.1
    exact ⟨⟨r.first, hlt r hmem, (h.inv.pending p r hmem).2.2.2⟩, hr hne, fun r hmem _ => hlt r hmem⟩
  | _ => trivial

theorem Tracked.readableSteps (h : Tracked cfg {v | v < n} n nbrs db)
    (run : Steps (guarded (ReadableStep cfg) (SeqStep cfg)) db es db') :
    Tracked cfg {v | v < n} n (nbrsAfter nbrs es) db' :=
  run.inv (fun es db => Tracked cfg {v | v < n} n (nbrsAfter nbrs es) db) h
    fun es _ e _ h hstep => nbrsAfter_concat nbrs es e ▸ h.step (h.mergeStep hstep.1) hstep.2

end BwGraph
