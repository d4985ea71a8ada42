import BwGraph.Db.Cached

/-
  `delete_vertex(v, true)` on a database whose edges go both ways: it is to leave no edge from or
  to `v`. It enumerates the neighbours through `read_neighbor`, which sees the base list alone, the
  CSR entry or the cached giant list, and deletes both directions of each edge it finds there. So a
  neighbour that only the chain of `v` holds keeps its edges with `v`, and the call does what it
  is to do exactly when every neighbour is in the list that `read_neighbor` hands out
  (`CachedDb.deleteVertex_isolates_iff`).
-/

namespace BwGraph

/-- The edges that the copying reads show go both ways; `nbrs` are the neighbour sets. -/
structure SymmetricEdges (cfg : Config) (db : Db) (nbrs : VId → Set VId) : Prop where
  reads : ∀ w, w < db.vertexIndex.size → Reads cfg db w (nbrs w)
  lt : ∀ w, w < db.vertexIndex.size → ∀ d ∈ nbrs w, d < db.vertexIndex.size
  symm : ∀ w, w < db.vertexIndex.size → ∀ d ∈ nbrs w, w ∈ nbrs d

/-- No copying read shows an edge from or to `v`. -/
def Disconnected (cfg : Config) (db : Db) (v : VId) : Prop :=
  ∀ w, w < db.vertexIndex.size → ∃ s, Reads cfg db w s ∧ v ∉ s ∧ (w = v → s = ∅)

namespace CachedDb

variable {cfg : Config} {s s' : CachedDb} {v : VId} {clock : Nat → Nat}
  {nbrs : VId → Set VId}

theorem marked_base (cfg : Config) (s : CachedDb) (v w : VId) :
    (s.marked v).db.base cfg w = s.db.base cfg w := by
  have hg := s.marked_isGiant v w
  unfold IsGiant at hg
  unfold Db.base
  rw [marked_location]
  by_cases hw : (s.db.vertexIndex.items w).vertexType = .giant
  · rw [if_pos hw, if_pos (hg.2 hw)]
    rfl
  · rw [if_neg hw, if_neg fun hc => hw (hg.1 hc)]
    rfl

/-- After the call every read has lost what the deletions name. -/
theorem reads_deleteVertex {logs : VId → List (Lww.Op VId)} (hlog : Logged logs s.db)
    (hlive : (s.db.vertexIndex.items v).isDelete = false) (hv : v < s.db.vertexIndex.size)
    {b : Bool} (hrun : s.deleteVertex cfg v true clock = .ok b s') {w : VId} {n : Set VId}
    (hn : Reads cfg s.db w n) :
    s'.db.vertexIndex.size = s.db.vertexIndex.size ∧ Reads cfg s'.db w {d | d ∈ n ∧
      .erase d ∉ removals s.db.vertexIndex.size v (s.readNeighbor cfg v).1 w} := by
  rcases deleteVertex_ok hrun with ⟨-, -, hno⟩ | ⟨-, -, -, ⟨hf, -⟩ | ⟨-, db, hdb, rfl⟩⟩
  · rcases hno with hno | hno
    · exact absurd hv (Nat.not_lt.2 hno)
    · rw [hlive] at hno
      cases hno
  · cases hf
  · have hm : Logged logs (s.marked v).db := hlog.same rfl rfl
    have hlog' := (hm.deleteEdges (v := v) hv hdb).log w
    have hsame := deleteEdges_same hdb
    have hbase : db.base cfg w = s.db.base cfg w := (hsame.base w).trans (marked_base cfg s v w)
    refine ⟨hsame.size, hlog'.reads_iff.2 ?_⟩
    have hset := (hlog.log w).reads_iff.1 hn
    show Lww.lww {x | x ∈ db.base cfg w} _ = _
    rw [hbase, Lww.lww_append, hset]
    ext d
    exact Lww.mem_lww_of_erases removals_erase d

/-- In a state of a run whose edges go both ways, `delete_vertex(v, true)` leaves no edge from or
to `v` exactly when `read_neighbor(v)` hands out every neighbour of `v`. -/
theorem deleteVertex_isolates_iff {paged : Set VId} {s0 : CachedDb} (h0 : Loaded cfg paged s0.db)
    {es : List CachedEvent} (run : Steps (CachedStep cfg) s0 es s)
    (hsymm : SymmetricEdges cfg s.db nbrs) (hv : v < s.db.vertexIndex.size)
    (hlive : (s.db.vertexIndex.items v).isDelete = false) {b : Bool}
    (hrun : s.deleteVertex cfg v true clock = .ok b s') :
    Disconnected cfg s'.db v ↔ ∀ d ∈ nbrs v, d ∈ (s.readNeighbor cfg v).1 := by
  obtain ⟨logs, hlog⟩ := logged_steps h0 run
  have hafter := fun w (hw : w < s.db.vertexIndex.size) =>
    reads_deleteVertex hlog hlive hv hrun (hsymm.reads w hw)
  have hsize := (hafter v hv).1
  constructor
  · intro hiso d hd
    obtain ⟨t, ht, -, hempty⟩ := hiso v (hsize.symm ▸ hv)
    have hnil := ((hafter v hv).2.unique ht).trans (hempty rfl)
    have herase : Lww.Op.erase d ∈ removals s.db.vertexIndex.size v (s.readNeighbor cfg v).1 v := by
      by_contra hc
      have hmem : d ∈ (∅ : Set VId) := hnil ▸ ⟨hd, hc⟩
      exact hmem
    obtain ⟨d', hd', -, ⟨-, he⟩ | ⟨hvd, he⟩⟩ := mem_removals.1 herase
    · cases he
      exact hd'
    · cases he
      exact hvd ▸ hd'
  · intro hall w hw
    have hw0 : w < s.db.vertexIndex.size := hsize ▸ hw
    refine ⟨_, (hafter w hw0).2, ?_, ?_⟩
    · -- an edge to `v` goes both ways, so its source was enumerated
      rintro ⟨hmem, hno⟩
      have hwv := hsymm.symm w hw0 v hmem
      exact hno (mem_removals.2 ⟨w, hall w hwv, hw0, .inr ⟨rfl, rfl⟩⟩)
    · rintro rfl
      refine Set.eq_empty_iff_forall_notMem.2 fun d hd => ?_
      exact hd.2 (mem_removals.2
        ⟨d, hall d hd.1, hsymm.lt w hv d hd.1, .inl ⟨rfl, rfl⟩⟩)

/-! ## A small graph with one edge in both directions -/

/-- One edge between 0 and 1; vertex 2 is alone. -/
def pairGraph : MemGraph := .ofLists [[1], [0], []] (by decide)

/-- The loaded database of the pair graph. -/
def pairDb : Db :=
  (buildSeqDb giantConfig ⟨.listed, 0, 0⟩ 1 pairGraph).toOption.getD
    (loadedDb giantConfig ⟨.listed, 0, 0⟩ pairGraph [] VItem.init [])

theorem pairDb_built : PackedBuild giantConfig pairGraph pairDb :=
  .seq rfl ⟨.listed, 0, 0⟩ Nat.one_pos (by decide +kernel) _

/-- The same with nothing cached. -/
def pairOpened : CachedDb := ⟨pairDb, fun _ => none⟩

theorem pairOpened_loaded :
    Loaded giantConfig (pairGraph.pagedVertices giantConfig) pairOpened.db :=
  (pairDb_built.loaded (by decide) (by decide) (by decide)).1

/-- Three vertices whose reads are as listed, with every edge listed in both directions. -/
theorem symmetricEdges_of_lists {db : Db} {fuel : Nat} (lists : VId → List VId)
    (hsize : db.vertexIndex.size = 3)
    (hreads : ∀ w < 3, BwGraph.readNeighborClone giantConfig fuel db w = some (lists w))
    (hboth : ∀ w < 3, ∀ d ∈ lists w, d < 3 ∧ w ∈ lists d) :
    SymmetricEdges giantConfig db fun w => {d | d ∈ lists w} := by
  refine ⟨fun w hw => ⟨lists w, returns_of_fuel (hreads w (hsize ▸ hw)), rfl⟩,
    fun w hw d hd => ?_, fun w hw d hd => (hboth w (hsize ▸ hw) d hd).2⟩
  rw [hsize]
  exact (hboth w (hsize ▸ hw) d hd).1

/-- `delete_vertex(v, true)` on a state. -/
def afterDelete (s : CachedDb) (v : VId) : CachedDb :=
  (s.deleteVertex giantConfig v true fun _ => 0).state

/-- The edge of vertex 0 is in its base list. -/
theorem deleteVertex_isolates_iff_pair : Disconnected giantConfig (afterDelete pairOpened 0).db 0 := by
  have hrun : pairOpened.deleteVertex giantConfig 0 true (fun _ => 0) =
      .ok true (afterDelete pairOpened 0) := EStateM.Result.eq_ok_of_value? (by decide +kernel)
  have hreads : ∀ w < 3, BwGraph.readNeighborClone giantConfig 0 pairOpened.db w =
      some ([[1], [0], []].getD w []) := by decide +kernel
  have hsymm := symmetricEdges_of_lists (fun w => [[1], [0], []].getD w []) (by decide +kernel)
    hreads (by decide)
  refine (deleteVertex_isolates_iff pairOpened_loaded .nil hsymm (by decide +kernel)
    (by decide +kernel) hrun).2 fun d hd => ?_
  have hread : (pairOpened.readNeighbor giantConfig 0).1 = [1] := by decide +kernel
  rw [hread]
  exact hd

/-- The state after `insert_edge(src, dst)`. -/
def afterInsert (s : CachedDb) (src dst : VId) : CachedDb :=
  ⟨(insertEdge giantConfig src dst 0 s.db).state, s.neighborCache⟩

theorem afterInsert_step {s : CachedDb} {src dst : VId}
    (h : (insertEdge giantConfig src dst 0 s.db).value? = some true) :
    CachedStep giantConfig s (.call (.call (.insertEdge src dst 0))) (afterInsert s src dst) :=
  .call (e := .call (.insertEdge src dst 0))
    (.call (.insertEdge (EStateM.Result.eq_ok_of_value? h)))

/-- The edge between 0 and 2 is in their chains alone: vertex 0 still shows 2 after the call. -/
theorem deleteVertex_keeps_pending :
    ¬ ∀ (cfg : Config) (paged : Set VId) (s0 : CachedDb), Loaded cfg paged s0.db →
      ∀ (es : List CachedEvent) (s : CachedDb), Steps (CachedStep cfg) s0 es s →
      ∀ nbrs, SymmetricEdges cfg s.db nbrs →
      ∀ v, v < s.db.vertexIndex.size → (s.db.vertexIndex.items v).isDelete = false →
      ∀ (clock : Nat → Nat) (s' : CachedDb), s.deleteVertex cfg v true clock = .ok true s' →
        Disconnected cfg s'.db v := by
  intro h
  set s := afterInsert (afterInsert pairOpened 0 2) 2 0
  have run : Steps (CachedStep giantConfig) pairOpened
      ([] ++ [.call (.call (.insertEdge 0 2 0))] ++ [.call (.call (.insertEdge 2 0 0))]) s :=
    .snoc (.snoc .nil (afterInsert_step (by decide +kernel))) (afterInsert_step (by decide +kernel))
  have hreads : ∀ w < 3, BwGraph.readNeighborClone giantConfig 1 s.db w =
      some ([[1, 2], [0], [0]].getD w []) := by decide +kernel
  have hsymm := symmetricEdges_of_lists (fun w => [[1, 2], [0], [0]].getD w [])
    (by decide +kernel) hreads (by decide)
  have hrun : s.deleteVertex giantConfig 2 true (fun _ => 0) = .ok true (afterDelete s 2) :=
    EStateM.Result.eq_ok_of_value? (by decide +kernel)
  obtain ⟨t, ⟨r, hr, rfl⟩, hno, -⟩ := h giantConfig _ pairOpened pairOpened_loaded _ s run _ hsymm 2
    (by decide +kernel) (by decide +kernel) _ _ hrun 0 (by decide +kernel)
  have hgot : BwGraph.readNeighborClone giantConfig 1 (afterDelete s 2).db 0 = some [1, 2] := by
    decide +kernel
  rw [hr.unique (returns_of_fuel hgot)] at hno
  exact hno (by decide)

end CachedDb

end BwGraph
