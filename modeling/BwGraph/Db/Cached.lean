import BwGraph.Db.External
import BwGraph.Db.Logged

/-
  A database together with the read cache of its giant store (`db.cc`, `db_dyn.cc`).
  `read_neighbor` and `read_neighbor_with_delta` hand out the cached list of a giant vertex,
  `read_neighbor_clone` and the merge of a consolidation go to RocksDB and fill the cache, and
  `delete_vertex` enumerates the neighbours to remove through `read_neighbor`. What
  `read_neighbor_clone` returns does not depend on the cache (`CachedDb.readNeighborClone_fst`).

  `CachedStep` is one call of an update or of a read. Every chain ends after every run of them
  (`CachedDb.logged_steps`).
-/

namespace BwGraph

/-- An open database with the cache of its giant store. -/
structure CachedDb where
  db : Db
  neighborCache : VId → Option (List VId)

namespace CachedDb

/-- The giant store and its cache. -/
def giants (s : CachedDb) : GiantVertexDb := ⟨s.db.giantDb, s.neighborCache⟩

/-- The state after a read of the giant store. -/
def withGiants (s : CachedDb) (g : GiantVertexDb) : CachedDb := ⟨s.db, g.neighborCache⟩

/-- `vertex_type == GIANT`. -/
def IsGiant (s : CachedDb) (v : VId) : Prop := (s.db.vertexIndex.items v).vertexType = .giant

instance (s : CachedDb) (v : VId) : Decidable (s.IsGiant v) :=
  inferInstanceAs (Decidable (_ = _))

/-! ## Reads -/

/-- `get_neighbors` at the location of a vertex. -/
def csrNeighbors (cfg : Config) (s : CachedDb) (v : VId) : List VId :=
  (s.db.csrPool.page (s.db.location v).1).readNeighbors cfg (s.db.location v).2

/-- `read_neighbor`. -/
def readNeighbor (cfg : Config) (s : CachedDb) (v : VId) : List VId × CachedDb :=
  if s.IsGiant v then
    let (neighbors, g) := s.giants.readNeighbor v
    (neighbors, s.withGiants g)
  else (s.csrNeighbors cfg v, s)

/-- `read_neighbor_with_delta`: the base list and the head of the delta chain. -/
def readNeighborWithDelta (cfg : Config) (s : CachedDb) (v : VId) :
    (List VId × Option DeltaLoc) × CachedDb :=
  if s.IsGiant v then
    let (neighbors, g) := s.giants.readNeighbor v
    ((neighbors, none), s.withGiants g)
  else ((s.csrNeighbors cfg v, s.db.vertexIndex.deltaHeads v), s)

/-- `read_neighbor_clone`, with fuel for the chain. -/
def readNeighborClone (cfg : Config) (fuel : Nat) (s : CachedDb) (v : VId) :
    Option (List VId) × CachedDb :=
  let fold := fun cur base =>
    (scanChain s.db.pageMap fuel cur ⟨[], [], []⟩).map fun scan => scan.result base
  if s.IsGiant v then
    let (giantBase, g) := s.giants.readNeighborClone v
    (fold (s.db.vertexIndex.deltaHeads v) giantBase, s.withGiants g)
  else
    let ((neighbors, cur), s) := s.readNeighborWithDelta cfg v
    (fold cur neighbors, s)

/-- `get_vertex_degree`. -/
def getVertexDegree (cfg : Config) (s : CachedDb) (v : VId) : Nat × CachedDb :=
  if s.db.vertexIndex.isGiantVertex v then
    let (degree, g) := s.giants.getVertexDegree v
    (degree, s.withGiants g)
  else
    let (neighbors, s) := s.readNeighbor cfg v
    (neighbors.length, s)

/-! ## Updates -/

/-- `delete_vertex`. The vertex is already marked when `is_giant_vertex` is asked. -/
def deleteVertex (cfg : Config) (v : VId) (removeNeighbors : Bool) (clock : Nat → Nat) :
    EStateM String CachedDb Bool := fun s =>
  let vi := s.db.vertexIndex
  if v ≥ vi.size ∨ (vi.items v).isDelete then .ok false s
  else
    let marked : CachedDb := { s with db := { s.db with vertexIndex := { vi with
      items := Function.update vi.items v { vi.items v with isDelete := true } } } }
    if removeNeighbors ∧ !marked.db.vertexIndex.isGiantVertex v then
      let (removed, s) := marked.readNeighbor cfg v
      match deleteEdges cfg v removed clock s.db with
      | .ok () db => .ok true { s with db := db }
      | .error e db => .error e { s with db := db }
    else .ok true marked

/-- The reads of `build_merged_graph`: the giant vertices `vs` of the page, one after another. -/
def mergeReads (vi : VertexIndex) (g : GiantVertexDb) (vs : List VId) : GiantVertexDb :=
  vs.foldl (fun g v => if vi.isGiantVertex v then (g.readNeighborClone v).2 else g) g

instance (cfg : Config) (env : SmoEnv) (db : Db) (p : PageNo) : Decidable (Merges cfg env db p) :=
  inferInstanceAs (Decidable (_ ∧ _ ∧ _))

/-- The cache after an update. A consolidation that merges reads the giant vertices of its page,
before it writes their new lists. -/
def cacheAfter (cfg : Config) (s : CachedDb) : GrowEvent → VId → Option (List VId)
  | .call (.consolidate p env) =>
    if Merges cfg env s.db p then
      (mergeReads s.db.vertexIndex s.giants
        (snapshotPage cfg (s.db.csrPool.page p)).keys).neighborCache
    else s.neighborCache
  | _ => s.neighborCache

end CachedDb

/-! ## Runs -/

/-- The events of a run of updates and reads. -/
inductive CachedEvent where
  | call (e : GrowEvent)
  | insertEdgeDirect (src dst : VId) (time : Nat)
  | deleteVertex (v : VId) (removeNeighbors : Bool) (clock : Nat → Nat)
  | readNeighbor (v : VId)
  | readNeighborWithDelta (v : VId)
  | readNeighborClone (v : VId)
  | getVertexDegree (v : VId)

/-- One call that returned. -/
inductive CachedStep (cfg : Config) (s : CachedDb) : CachedEvent → CachedDb → Prop
  | call {e : GrowEvent} {db' : Db} (h : GrowCall cfg s.db e db') :
      CachedStep cfg s (.call e) ⟨db', s.cacheAfter cfg e⟩
  | insertEdgeDirect {src dst : VId} {time : Nat} {b : Bool} {db' : Db}
      (hsrc : src < s.db.vertexIndex.size)
      (h : insertEdgeDirect cfg src dst time s.db = .ok b db') :
      CachedStep cfg s (.insertEdgeDirect src dst time) ⟨db', s.neighborCache⟩
  | deleteVertex {v : VId} {removeNeighbors : Bool} {clock : Nat → Nat} {b : Bool} {s' : CachedDb}
      (h : s.deleteVertex cfg v removeNeighbors clock = .ok b s') :
      CachedStep cfg s (.deleteVertex v removeNeighbors clock) s'
  | readNeighbor (v : VId) : CachedStep cfg s (.readNeighbor v) (s.readNeighbor cfg v).2
  | readNeighborWithDelta (v : VId) :
      CachedStep cfg s (.readNeighborWithDelta v) (s.readNeighborWithDelta cfg v).2
  | readNeighborClone (v : VId) {fuel : Nat} {r : List VId}
      (h : (s.readNeighborClone cfg fuel v).1 = some r) :
      CachedStep cfg s (.readNeighborClone v) (s.readNeighborClone cfg fuel v).2
  | getVertexDegree (v : VId) : CachedStep cfg s (.getVertexDegree v) (s.getVertexDegree cfg v).2

namespace CachedDb

variable {cfg : Config} {s s' : CachedDb} {logs : VId → List (Lww.Op VId)}

/-! ## What reads return and change -/

section

variable (cfg : Config)

/-- The copying read does not look at the cache. -/
theorem readNeighborClone_fst (fuel : Nat) (s : CachedDb) (v : VId) :
    (s.readNeighborClone cfg fuel v).1 = BwGraph.readNeighborClone cfg fuel s.db v := by
  unfold readNeighborClone BwGraph.readNeighborClone Db.base
  by_cases hg : s.IsGiant v
  · have hg' : (s.db.vertexIndex.items v).vertexType = .giant := hg
    have hbase := s.giants.readNeighborClone_fst v
    simp only [if_pos hg, if_pos hg', hbase]
    rfl
  · have hg' : ¬ (s.db.vertexIndex.items v).vertexType = .giant := hg
    simp only [if_neg hg, if_neg hg', readNeighborWithDelta]
    rfl

variable (s : CachedDb)

theorem readNeighbor_db (v : VId) : (s.readNeighbor cfg v).2.db = s.db := by
  unfold readNeighbor
  split <;> rfl

theorem readNeighborWithDelta_db (v : VId) : (s.readNeighborWithDelta cfg v).2.db = s.db := by
  unfold readNeighborWithDelta
  split <;> rfl

theorem readNeighborClone_db (fuel : Nat) (s : CachedDb) (v : VId) :
    (s.readNeighborClone cfg fuel v).2.db = s.db := by
  unfold readNeighborClone
  by_cases hg : s.IsGiant v
  · rw [if_pos hg]
    rfl
  · rw [if_neg hg]
    exact s.readNeighborWithDelta_db cfg v

theorem getVertexDegree_db (v : VId) : (s.getVertexDegree cfg v).2.db = s.db := by
  unfold getVertexDegree
  split
  · rfl
  · exact s.readNeighbor_db cfg v

end

/-- Two states with the same pages, locations, types and giant lists hand out the same list. -/
theorem readNeighbor_fst_congr {v : VId} (hpool : s'.db.csrPool = s.db.csrPool)
    (hloc : s'.db.location v = s.db.location v) (htype : s'.IsGiant v ↔ s.IsGiant v)
    (hgiants : s'.giants = s.giants) : (s'.readNeighbor cfg v).1 = (s.readNeighbor cfg v).1 := by
  unfold readNeighbor csrNeighbors
  by_cases hg : s.IsGiant v
  · rw [if_pos hg, if_pos (htype.2 hg), hgiants]
  · rw [if_neg hg, if_neg fun hc => hg (htype.1 hc), hpool, hloc]

/-! ## `delete_vertex` -/

/-- The state with `v` marked as deleted. -/
def marked (s : CachedDb) (v : VId) : CachedDb :=
  { s with db := { s.db with vertexIndex := { s.db.vertexIndex with
    items := Function.update s.db.vertexIndex.items v
      { s.db.vertexIndex.items v with isDelete := true } } } }

theorem marked_location (s : CachedDb) (v w : VId) :
    (s.marked v).db.location w = s.db.location w := location_setDelete s.db v true w

theorem marked_isGiant (s : CachedDb) (v w : VId) : (s.marked v).IsGiant w ↔ s.IsGiant w := by
  unfold IsGiant marked
  rw [(VertexIndex.items_setDelete s.db.vertexIndex.items v true w).2]

theorem marked_isGiantVertex (s : CachedDb) (v : VId) :
    (s.marked v).db.vertexIndex.isGiantVertex v = false := by
  simp [marked, VertexIndex.isGiantVertex]

theorem marked_readNeighbor (cfg : Config) (s : CachedDb) (v : VId) :
    ((s.marked v).readNeighbor cfg v).1 = (s.readNeighbor cfg v).1 :=
  readNeighbor_fst_congr rfl (s.marked_location v v) (s.marked_isGiant v v) rfl

section

variable {v : VId} {removeNeighbors : Bool} {clock : Nat → Nat} {b : Bool}

/-- The returns of `delete_vertex`. The marked vertex is not taken for a giant one, so its
neighbours are always enumerated. -/
theorem deleteVertex_ok (h : s.deleteVertex cfg v removeNeighbors clock = .ok b s') :
    (b = false ∧ s' = s ∧
      (s.db.vertexIndex.size ≤ v ∨ (s.db.vertexIndex.items v).isDelete = true)) ∨
    (b = true ∧ v < s.db.vertexIndex.size ∧ (s.db.vertexIndex.items v).isDelete = false ∧
      (removeNeighbors = false ∧ s' = s.marked v ∨
        removeNeighbors = true ∧ ∃ db, deleteEdges cfg v (s.readNeighbor cfg v).1 clock
          (s.marked v).db = .ok () db ∧
          s' = { ((s.marked v).readNeighbor cfg v).2 with db := db })) := by
  unfold deleteVertex at h
  dsimp only at h
  split_ifs at h with hc hr
  · cases h
    exact .inl ⟨rfl, rfl, hc⟩
  · rw [not_or, Nat.not_le, Bool.not_eq_true] at hc
    refine .inr ?_
    have hread := s.marked_readNeighbor cfg v
    have hdb := (s.marked v).readNeighbor_db cfg v
    rw [show ({ s with db := _ } : CachedDb) = s.marked v from rfl] at h
    rw [hread, hdb] at h
    cases hrun : deleteEdges cfg v (s.readNeighbor cfg v).1 clock (s.marked v).db with
    | ok _ db =>
      rw [hrun] at h
      cases h
      exact ⟨rfl, hc.1, hc.2, .inr ⟨hr.1, db, rfl, rfl⟩⟩
    | error e db =>
      rw [hrun] at h
      cases h
  · rw [not_or, Nat.not_le, Bool.not_eq_true] at hc
    cases h
    refine .inr ⟨rfl, hc.1, hc.2, .inl ⟨?_, rfl⟩⟩
    have hng := s.marked_isGiantVertex v
    by_contra hrm
    rw [Bool.not_eq_false] at hrm
    refine hr ⟨hrm, ?_⟩
    rw [Bool.not_eq_true', ← hng]
    rfl

/-! ## Every chain ends -/

theorem logged_deleteVertex (h : Logged logs s.db)
    (hrun : s.deleteVertex cfg v removeNeighbors clock = .ok b s') : ∃ logs, Logged logs s'.db := by
  have hm : Logged logs (s.marked v).db := h.same rfl rfl
  rcases deleteVertex_ok hrun with ⟨-, rfl, -⟩ | ⟨-, hv, -, ⟨-, rfl⟩ | ⟨-, db, hdb, rfl⟩⟩
  · exact ⟨logs, h⟩
  · exact ⟨logs, hm⟩
  · exact ⟨_, hm.deleteEdges (v := v) hv hdb⟩

end

theorem logged_step (h : Logged logs s.db) {e : CachedEvent} (hstep : CachedStep cfg s e s') :
    ∃ logs, Logged logs s'.db := by
  cases hstep with
  | call hcall => exact h.growCall hcall
  | insertEdgeDirect _ hrun => exact h.insertEdgeDirect hrun
  | deleteVertex hrun => exact logged_deleteVertex h hrun
  | readNeighbor v => exact ⟨logs, (s.readNeighbor_db cfg v).symm ▸ h⟩
  | readNeighborWithDelta v => exact ⟨logs, (s.readNeighborWithDelta_db cfg v).symm ▸ h⟩
  | @readNeighborClone v fuel _ _ => exact ⟨logs, (s.readNeighborClone_db cfg fuel v).symm ▸ h⟩
  | getVertexDegree v => exact ⟨logs, (s.getVertexDegree_db cfg v).symm ▸ h⟩

/-- After every run of a loaded database every chain ends. -/
theorem logged_steps {paged : Set VId} {s0 : CachedDb} (h0 : Loaded cfg paged s0.db)
    {es : List CachedEvent} (run : Steps (CachedStep cfg) s0 es s) : ∃ logs, Logged logs s.db :=
  run.inv (fun _ s => ∃ logs, Logged logs s.db) ⟨_, h0.logged⟩
    fun _ _ _ _ ⟨_, h⟩ hstep => logged_step h hstep

end CachedDb

end BwGraph
