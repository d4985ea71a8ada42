import BwGraph.Db.Updates

/-
  The delta chains of a database as logs, whatever state the CSR pool is in. `Logs db v ops` says
  that the chain of `v` ends and holds the operations `ops`, oldest first; a read of `v` then gives
  the last-writer-wins set of its base list and `ops` (`Logs.reads`). `Logged logs db` says so for
  every vertex.

  A write appends its operation to the log of its source, a consolidation that publishes empties
  the logs of the merged vertices, and nothing else touches a log: after every run of updates every
  chain ends.
-/

namespace BwGraph

open Function

/-- The chain of `v` ends and holds the operations `ops`, oldest first. -/
def Logs (db : Db) (v : VId) (ops : List (Lww.Op VId)) : Prop :=
  ∃ cells, DeltaChain db.pageMap (db.vertexIndex.deltaHeads v) cells ∧
    (∀ c ∈ cells, c.2.target = .edge) ∧ (opsOf cells).reverse = ops

/-- The chain of every vertex `v` holds `logs v`, and no forwarder is installed. -/
structure Logged (logs : VId → List (Lww.Op VId)) (db : Db) : Prop where
  pageMap : db.pageMap.Ok
  noForwarder : ∀ p, db.pageMap.acquireForwarderFor p = none
  log : ∀ v, Logs db v (logs v)

variable {cfg : Config} {db db' : Db} {logs : VId → List (Lww.Op VId)} {v : VId}
  {ops : List (Lww.Op VId)}

/-! ## Logs -/

theorem Logs.unique {ops' : List (Lww.Op VId)} (h : Logs db v ops) (h' : Logs db v ops') :
    ops = ops' := by
  obtain ⟨cells, hc, -, rfl⟩ := h
  obtain ⟨cells', hc', -, rfl⟩ := h'
  rw [hc.det hc']

/-- A read gives the last-writer-wins set of the base list and the log. -/
theorem Logs.reads (h : Logs db v ops) : Reads cfg db v (Lww.lww {x | x ∈ db.base cfg v} ops) := by
  obtain ⟨cells, hc, hedge, rfl⟩ := h
  refine ⟨_, ⟨cells.length, fun _ hf => readNeighborClone_of_chain hc hedge hf⟩, ?_⟩
  ext d
  exact Lww.mem_result _ _ d

theorem Reads.unique {s t : Set VId} (h : Reads cfg db v s) (h' : Reads cfg db v t) : s = t := by
  obtain ⟨r, hr, rfl⟩ := h
  obtain ⟨r', hr', rfl⟩ := h'
  rw [hr.unique hr']

/-- A read gives the set `s` exactly when base list and log do. -/
theorem Logs.reads_iff (h : Logs db v ops) {s : Set VId} :
    Reads cfg db v s ↔ Lww.lww {x | x ∈ db.base cfg v} ops = s := by
  constructor
  · exact fun hs => h.reads.unique hs
  · exact fun hs => hs ▸ h.reads

/-- A log is kept by a step that keeps its chain and its head. -/
theorem Logs.congr (h : Logs db v ops)
    (hhead : db'.vertexIndex.deltaHeads v = db.vertexIndex.deltaHeads v)
    (hget : ∀ l, db'.pageMap.getRecord l = db.pageMap.getRecord l) : Logs db' v ops := by
  obtain ⟨cells, hc, hedge, hops⟩ := h
  exact ⟨cells, by rw [hhead]; exact hc.congr fun x _ => hget x.1, hedge, hops⟩

theorem logs_of_no_head (h : db.vertexIndex.deltaHeads v = none) : Logs db v [] :=
  ⟨[], by rw [h]; exact .nil, by simp, rfl⟩

theorem Loaded.logged {paged : Set VId} (h : Loaded cfg paged db) : Logged (fun _ => []) db :=
  ⟨h.pageMap, h.noForwarder, fun v => logs_of_no_head (h.noHead v)⟩

/-! ## Writes -/

theorem Logged.written {type : DeltaType} {src dst : VId} {time : Nat} {loc : DeltaLoc}
    (h : Logged logs db) (hw : Written db db' type src dst time loc) :
    Logged (update logs src (logs src ++ [edgeOp type dst])) db' := by
  refine ⟨hw.appends.ok, fun p => (hw.appends.forwarders.acquire p).trans (h.noForwarder p),
    fun v => ?_⟩
  obtain ⟨cells, hc, hedge, hops⟩ := h.log v
  by_cases hv : v = src
  · subst hv
    rw [update_self]
    refine ⟨_, hw.chain_self hc, ?_, ?_⟩
    · intro c hcm
      rcases List.mem_cons.1 hcm with rfl | hcm
      · rfl
      · exact hedge c hcm
    · rw [opsOf, List.map_cons, List.reverse_cons, newRecord_op, ← hops]
      rfl
  · rw [update_of_ne hv]
    exact ⟨cells, by rw [hw.head_ne hv]; exact hw.keeps hc, hedge, hops⟩

variable {src dst : VId}

theorem Logged.appendEdge {type : DeltaType} {time : Nat} (h : Logged logs db)
    (hrun : appendEdge cfg type src dst time db = .ok () db') :
    Logged (update logs src (logs src ++ [edgeOp type dst])) db' := by
  obtain ⟨loc, hw⟩ := appendEdge_ok h.pageMap (h.noForwarder _) hrun
  exact h.written hw

/-- `insert_edge` appends to the log of its source, or returns false and changes nothing. -/
theorem Logged.insertEdge {src dst : VId} {time : Nat} {b : Bool} (h : Logged logs db)
    (hrun : insertEdge cfg src dst time db = .ok b db') :
    (b = true ∧ db.Accepts src dst ∧
      Logged (update logs src (logs src ++ [.insert dst])) db') ∨
    (b = false ∧ ¬ db.Accepts src dst ∧ db' = db) := by
  rcases insertEdge_cases hrun with ⟨hb, hacc, happ⟩ | hno
  · exact .inl ⟨hb, hacc, h.appendEdge happ⟩
  · exact .inr hno

/-- `delete_edge` does the same, without a look at deletion marks. -/
theorem Logged.deleteEdge {src dst : VId} {time : Nat} {b : Bool} (h : Logged logs db)
    (hrun : deleteEdge cfg src dst time db = .ok b db') :
    (b = true ∧ (src < db.vertexIndex.size ∧ dst < db.vertexIndex.size) ∧
      Logged (update logs src (logs src ++ [.erase dst])) db') ∨
    (b = false ∧ ¬ (src < db.vertexIndex.size ∧ dst < db.vertexIndex.size) ∧ db' = db) := by
  rcases deleteEdge_cases hrun with ⟨hb, hacc, happ⟩ | hno
  · exact .inl ⟨hb, hacc, h.appendEdge happ⟩
  · exact .inr hno

theorem SameStore.accepts (h : SameStore db db') (src dst : VId) :
    db'.Accepts src dst ↔ db.Accepts src dst := by
  unfold Db.Accepts
  rw [h.size, h.items]

theorem SameStore.base (h : SameStore db db') (v : VId) : db'.base cfg v = db.base cfg v := by
  unfold Db.base Db.location
  rw [h.items, h.csrPool, h.giantDb]

variable {clock : Nat → Nat}

variable {neighbors : List VId}

/-- The loop of `insert_vertex_with_neighbors` appends insertions to the log of the new vertex. -/
theorem Logged.insertEdges {src : VId} (h : Logged logs db)
    (hrun : insertEdges cfg src neighbors clock db = .ok () db') :
    SameStore db db' ∧ Logged (update logs src (logs src ++
      (neighbors.filter fun n => decide (db.Accepts src n)).map .insert)) db' := by
  induction neighbors generalizing db logs clock with
  | nil =>
    obtain ⟨-, rfl⟩ := EStateM.pure_eq_ok.1 hrun
    exact ⟨.refl db, by simpa using h⟩
  | cons n ns ih =>
    obtain ⟨b, db1, hone, hrest⟩ := EStateM.bind_eq_ok.1 hrun
    have hsame := insertEdge_same hone
    rcases h.insertEdge hone with ⟨-, hacc, h1⟩ | ⟨-, hacc, rfl⟩
    · obtain ⟨hs, hl⟩ := ih h1 hrest
      refine ⟨hsame.trans hs, ?_⟩
      simp only [hsame.accepts, update_self, update_idem] at hl
      simpa [hacc] using hl
    · obtain ⟨hs, hl⟩ := ih h hrest
      exact ⟨hs, by simpa [hacc] using hl⟩

/-- The deletions that the call for `d` of the loop of `delete_vertex` appends to the log of `w`. -/
def removal (v d w : VId) : List (Lww.Op VId) :=
  (if w = v then [.erase d] else []) ++ (if w = d then [.erase v] else [])

/-- The deletions that the loop over `removed` appends to the log of `w`. -/
def removals (n : Nat) (v : VId) (removed : List VId) (w : VId) : List (Lww.Op VId) :=
  (removed.filter fun d => decide (d < n)).flatMap fun d => removal v d w

variable {removed : List VId}

theorem mem_removals {n : Nat} {w : VId} {o : Lww.Op VId} :
    o ∈ removals n v removed w ↔
      ∃ d ∈ removed, d < n ∧ (w = v ∧ o = .erase d ∨ w = d ∧ o = .erase v) := by
  unfold removals removal
  simp only [List.mem_flatMap, List.mem_filter, decide_eq_true_eq, List.mem_append, and_assoc]
  refine exists_congr fun d => and_congr_right fun _ => and_congr_right fun _ => ?_
  by_cases hv : w = v <;> by_cases hd : w = d <;> simp [hv, hd]

theorem removals_erase {n : Nat} {w : VId} : ∀ o ∈ removals n v removed w, ∃ a, o = .erase a := by
  intro o ho
  obtain ⟨d, -, -, ⟨-, rfl⟩ | ⟨-, rfl⟩⟩ := mem_removals.1 ho
  · exact ⟨d, rfl⟩
  · exact ⟨v, rfl⟩

theorem update_removal (logs : VId → List (Lww.Op VId)) (v d w : VId) :
    update (update logs v (logs v ++ [.erase d])) d
      (update logs v (logs v ++ [.erase d]) d ++ [.erase v]) w =
        logs w ++ removal v d w := by
  unfold removal
  by_cases hwd : w = d
  · subst hwd
    rw [update_self]
    by_cases hwv : w = v
    · subst hwv
      simp
    · simp [hwv]
  · rw [update_of_ne hwd]
    by_cases hwv : w = v
    · subst hwv
      simp [hwd]
    · simp [hwv, hwd]

theorem Logged.deleteEdges (h : Logged logs db) (hv : v < db.vertexIndex.size)
    (hrun : deleteEdges cfg v removed clock db = .ok () db') :
    Logged (fun w => logs w ++ removals db.vertexIndex.size v removed w) db' := by
  induction removed generalizing db logs clock with
  | nil =>
    obtain ⟨-, rfl⟩ := EStateM.pure_eq_ok.1 hrun
    simpa [removals] using h
  | cons d removed ih =>
    obtain ⟨b, db1, hone, hrun⟩ := EStateM.bind_eq_ok.1 hrun
    obtain ⟨b', db2, htwo, hrest⟩ := EStateM.bind_eq_ok.1 hrun
    have hs1 := deleteEdge_same hone
    have hs2 := deleteEdge_same htwo
    rcases h.deleteEdge hone with ⟨-, ⟨-, hd⟩, h1⟩ | ⟨-, hd, rfl⟩
    · rcases h1.deleteEdge htwo with ⟨-, -, h2⟩ | ⟨-, hd', -⟩
      · have hl := ih h2 (by rw [hs2.size, hs1.size]; exact hv) hrest
        rw [hs2.size, hs1.size] at hl
        have heq : ∀ w, logs w ++ removals db.vertexIndex.size v (d :: removed) w =
            logs w ++ removal v d w ++ removals db.vertexIndex.size v removed w := fun w => by
          simp [removals, hd]
        simp only [heq, ← update_removal]
        exact hl
      · exact absurd ⟨hs1.size ▸ hd, hs1.size ▸ hv⟩ hd'
    · rcases h.deleteEdge htwo with ⟨-, ⟨hd', -⟩, -⟩ | ⟨-, -, rfl⟩
      · exact absurd ⟨hv, hd'⟩ hd
      · have hnd : ¬ d < db2.vertexIndex.size := fun hlt => hd ⟨hv, hlt⟩
        have heq : ∀ w, removals db2.vertexIndex.size v (d :: removed) w =
            removals db2.vertexIndex.size v removed w := fun w => by simp [removals, hnd]
        simp only [heq]
        exact ih h hv hrest

/-! ## Steps that write nothing -/

variable {p : PageNo}

theorem Logged.drained (h : Logged logs db) (hd : DrainOnly p db db') : Logged logs db' :=
  ⟨hd.drains.ok, fun q => (hd.drains.forwarders.acquire q).trans (h.noForwarder q),
    fun v => (h.log v).congr (by rw [hd.vertexIndex]) hd.drains.get⟩

/-- A consolidation that publishes empties the logs of the merged vertices. -/
theorem Logged.switches {graph : AdjMap} {locs : Locations} (h : Logged logs db)
    (hs : Switches cfg p graph db db' locs) :
    Logged (fun v => if v ∈ graph then [] else logs v) db' := by
  refine ⟨hs.pageMap, fun q => ?_, fun v => ?_⟩
  · by_cases hq : q = p
    · rw [hq]
      exact hs.forwarder_self
    · exact (hs.forwarder_ne q hq).trans (h.noForwarder q)
  · by_cases hv : v ∈ graph
    · obtain ⟨prepared, hl⟩ := mem_locations.1 ((hs.mem v).2 hv)
      rw [if_pos hv]
      exact logs_of_no_head (hs.switched v prepared hl).2.2.2
    · rw [if_neg hv]
      exact (h.log v).congr (hs.unswitched v hv).2 hs.getRecord

/-- A step that keeps the page map and the heads. -/
theorem Logged.same (h : Logged logs db) (hpm : db'.pageMap = db.pageMap)
    (hheads : db'.vertexIndex.deltaHeads = db.vertexIndex.deltaHeads) : Logged logs db' :=
  ⟨hpm ▸ h.pageMap, hpm ▸ h.noForwarder,
    fun v => (h.log v).congr (congrFun hheads v) fun l => by rw [hpm]⟩

/-- A new vertex has an empty log. -/
theorem Logged.emplaceBack (h : Logged logs db) (q : PageNo) (offset : Nat) :
    Logged (update logs db.vertexIndex.size [])
      { db with vertexIndex := db.vertexIndex.emplaceBack q offset } := by
  refine ⟨h.pageMap, h.noForwarder, fun v => ?_⟩
  by_cases hv : v = db.vertexIndex.size
  · subst hv
    rw [update_self]
    exact logs_of_no_head (update_self ..)
  · rw [update_of_ne hv]
    exact (h.log v).congr (update_of_ne hv ..) fun _ => rfl

/-! ## Every call -/

/-- The slot write leaves the index, the deltas and the giant store alone. -/
theorem writeSlot_vertexIndex {offset : Nat} {status : InsertStatus}
    (hw : writeSlot cfg p offset src dst db = .ok status db') :
    db'.vertexIndex = db.vertexIndex ∧ db'.pageMap = db.pageMap ∧ db'.giantDb = db.giantDb := by
  unfold writeSlot at hw
  dsimp only at hw
  split at hw <;> cases hw <;> exact ⟨rfl, rfl, rfl⟩

/-- A new location changes nothing else. -/
theorem updateVertexLoc_kept {q : PageNo} {offset : Nat}
    (h : updateVertexLoc v q offset db = .ok () db') :
    db'.pageMap = db.pageMap ∧ db'.giantDb = db.giantDb ∧
      db'.vertexIndex.size = db.vertexIndex.size ∧
      db'.vertexIndex.deltaHeads = db.vertexIndex.deltaHeads ∧
      ∀ w, (db'.vertexIndex.items w).vertexType = (db.vertexIndex.items w).vertexType := by
  rw [updateVertexLoc_ok h]
  refine ⟨rfl, rfl, rfl, rfl, fun w => ?_⟩
  by_cases hw : w = v
  · subst hw
    simp
  · simp [hw]

theorem Logged.insertSingleVertex {b : Bool} (h : Logged logs db)
    (hrun : insertSingleVertex v db = .ok b db') : ∃ logs, Logged logs db' := by
  unfold BwGraph.insertSingleVertex at hrun
  dsimp only at hrun
  split_ifs at hrun
  · cases hrun
    exact ⟨logs, h.same rfl rfl⟩
  · cases hrun
    exact ⟨logs, h⟩
  · cases hrun
    exact ⟨_, h.emplaceBack 0 0⟩

theorem Logged.insertVertexWithNeighbors (h : Logged logs db)
    (hrun : insertVertexWithNeighbors cfg neighbors clock db = .ok v db') :
    ∃ logs, Logged logs db' := by
  obtain ⟨rfl, db1, hupd, hedges⟩ := insertVertexWithNeighbors_ok hrun
  obtain ⟨hpm, -, -, hheads, -⟩ := updateVertexLoc_kept hupd
  exact ⟨_, (((h.emplaceBack 0 0).same hpm hheads).insertEdges hedges).2⟩

theorem Logged.consolidate {env : SmoEnv} {p : PageNo} {exit : SmoExit} (h : Logged logs db)
    (hrun : consolidatePages cfg env p db = .ok exit db') : ∃ logs, Logged logs db' := by
  rcases consolidatePages_switches h.pageMap hrun with
    ⟨-, rfl⟩ | ⟨-, -, hd⟩ | ⟨-, -, -, hd⟩ | ⟨-, -, locs, hs⟩
  · exact ⟨logs, h⟩
  · exact ⟨logs, h.drained hd⟩
  · exact ⟨logs, h.drained hd⟩
  · exact ⟨_, h.switches hs⟩

theorem Logged.growCall {e : GrowEvent} (h : Logged logs db) (hcall : GrowCall cfg db e db') :
    ∃ logs, Logged logs db' := by
  cases hcall with
  | insertSingleVertex hrun => exact h.insertSingleVertex hrun
  | insertVertexWithNeighbors hrun => exact h.insertVertexWithNeighbors hrun
  | call hseq =>
    cases hseq with
    | insertEdge hrun =>
      rcases h.insertEdge hrun with ⟨-, -, hl⟩ | ⟨-, -, rfl⟩
      · exact ⟨_, hl⟩
      · exact ⟨logs, h⟩
    | deleteEdge hrun =>
      rcases h.deleteEdge hrun with ⟨-, -, hl⟩ | ⟨-, -, rfl⟩
      · exact ⟨_, hl⟩
      · exact ⟨logs, h⟩
    | consolidate hrun => exact h.consolidate hrun
    | load p => exact ⟨logs, h.same rfl rfl⟩
    | evict p => exact ⟨logs, h.same rfl rfl⟩
    | flush p => exact ⟨logs, h.same rfl rfl⟩
    | recycle hp => exact ⟨logs, h.same rfl rfl⟩

theorem Logged.insertEdgeDirect {time : Nat} {b : Bool} (h : Logged logs db)
    (hrun : insertEdgeDirect cfg src dst time db = .ok b db') : ∃ logs, Logged logs db' := by
  obtain ⟨status, db1, hw, hcases⟩ := insertEdgeDirect_cases hrun
  obtain ⟨hvi, hpm, -⟩ := writeSlot_vertexIndex hw
  have h1 : Logged logs db1 := h.same hpm (by rw [hvi])
  rcases hcases with ⟨-, hrun⟩ | ⟨-, -, rfl⟩
  · rcases h1.insertEdge hrun with ⟨-, -, hl⟩ | ⟨-, -, rfl⟩
    · exact ⟨_, hl⟩
    · exact ⟨logs, h1⟩
  · exact ⟨logs, h1⟩

end BwGraph
