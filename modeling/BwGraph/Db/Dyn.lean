import BwGraph.Db.State
import BwGraph.Lib.Chain
import BwGraph.Lib.Lww

/-
  The dynamic operations of the non-transaction build: `insert_edge`, `delete_edge` and
  `insert_edge_direct` (`db_dyn.cc`), and the read `read_neighbor_clone` (`db.cc`).
  A write links a record in front of the vertex's chain and appends it to the chain of the
  vertex's page. The end of `insert_edge` only decides whether a consolidation task is submitted;
  such a task is an event of its own in a run. The statistics kept by the update sketch are left
  out.

  `readNeighborClone` follows the chain with fuel. On a chain of edge records it returns, for all
  fuel from the chain's length on, what `Lww.collect` reads (`readNeighborClone_of_chain`).
-/

namespace BwGraph

open EStateM (bind_eq_ok get_bind pure_eq_ok)

/-! ## Writes -/

/-- The part of `insert_edge` and `delete_edge` under the vertex's write latch. -/
def appendEdge (cfg : Config) (type : DeltaType) (src dst : VId) (time : Nat) : DbM Unit := do
  let db ← get
  let record : DeltaRecord := ⟨.edge, type, src, dst, time, db.vertexIndex.deltaHeads src⟩
  let (loc, _) ← onPageMap (PageMap.insertDeltaWithForward cfg (db.location src).1 src record)
  modify fun db => { db with vertexIndex := db.vertexIndex.setDeltaHead src (some loc) }

/-- `insert_edge`. -/
def insertEdge (cfg : Config) (src dst : VId) (time : Nat) : DbM Bool := do
  let vi := (← get).vertexIndex
  if src ≥ vi.size ∨ dst ≥ vi.size ∨ (vi.items src).isDelete ∨ (vi.items dst).isDelete then
    return false
  else
    appendEdge cfg .insert src dst time
    return true

/-- `delete_edge`, which does not look at deletion marks. -/
def deleteEdge (cfg : Config) (src dst : VId) (time : Nat) : DbM Bool := do
  let vi := (← get).vertexIndex
  if src ≥ vi.size ∨ dst ≥ vi.size then return false
  else
    appendEdge cfg .delete src dst time
    return true

/-- The slot write of `insert_edge_direct`. The frame is not marked dirty. -/
def writeSlot (cfg : Config) (pageNo : PageNo) (offset : Nat) (src dst : VId) :
    DbM InsertStatus := fun db =>
  let pool := db.csrPool.load pageNo
  match pool.frames pageNo with
  | none => .ok .failed { db with csrPool := pool }
  | some f =>
    let (status, page) := f.page.insertEdgeInSlot cfg offset src dst
    .ok status { db with
      csrPool := { pool with
        frames := Function.update pool.frames pageNo (some { f with page := page }) } }

/-- `insert_edge_direct`. -/
def insertEdgeDirect (cfg : Config) (src dst : VId) (time : Nat) : DbM Bool := do
  let (pageNo, offset) := (← get).location src
  match ← writeSlot cfg pageNo offset src dst with
  | .inserted => return true
  | .slotFull => insertEdge cfg src dst time
  | _ => return false

/-! ### What a call that returns has done -/

/-- `insert_edge` appends a record. -/
def Db.Accepts (db : Db) (src dst : VId) : Prop :=
  src < db.vertexIndex.size ∧ dst < db.vertexIndex.size ∧
    (db.vertexIndex.items src).isDelete = false ∧ (db.vertexIndex.items dst).isDelete = false

instance (db : Db) (src dst : VId) : Decidable (db.Accepts src dst) :=
  inferInstanceAs (Decidable (_ ∧ _ ∧ _ ∧ _))

section Cases

variable {cfg : Config} {db db' : Db} {src dst : VId} {time : Nat} {b : Bool}

theorem insertEdge_cases (h : insertEdge cfg src dst time db = .ok b db') :
    (b = true ∧ db.Accepts src dst ∧ appendEdge cfg .insert src dst time db = .ok () db') ∨
      (b = false ∧ ¬ db.Accepts src dst ∧ db' = db) := by
  unfold insertEdge at h
  rw [get_bind] at h
  split_ifs at h with hc
  · obtain ⟨rfl, rfl⟩ := pure_eq_ok.1 h
    refine .inr ⟨rfl, fun ha => ?_, rfl⟩
    obtain ⟨h1, h2, h3, h4⟩ := ha
    rw [h3, h4] at hc
    simp [Nat.not_le.2 h1, Nat.not_le.2 h2] at hc
  · obtain ⟨⟨⟩, db1, happ, hret⟩ := bind_eq_ok.1 h
    obtain ⟨rfl, rfl⟩ := pure_eq_ok.1 hret
    simp only [not_or, Nat.not_le, Bool.not_eq_true] at hc
    exact .inl ⟨rfl, hc, happ⟩

theorem deleteEdge_cases (h : deleteEdge cfg src dst time db = .ok b db') :
    (b = true ∧ (src < db.vertexIndex.size ∧ dst < db.vertexIndex.size) ∧
        appendEdge cfg .delete src dst time db = .ok () db') ∨
      (b = false ∧ ¬ (src < db.vertexIndex.size ∧ dst < db.vertexIndex.size) ∧ db' = db) := by
  unfold deleteEdge at h
  rw [get_bind] at h
  split_ifs at h with hc
  · obtain ⟨rfl, rfl⟩ := pure_eq_ok.1 h
    exact .inr ⟨rfl, fun ha => hc.elim (Nat.not_le.2 ha.1) (Nat.not_le.2 ha.2), rfl⟩
  · obtain ⟨⟨⟩, db1, happ, hret⟩ := bind_eq_ok.1 h
    obtain ⟨rfl, rfl⟩ := pure_eq_ok.1 hret
    rw [not_or, Nat.not_le, Nat.not_le] at hc
    exact .inl ⟨rfl, hc, happ⟩

theorem insertEdgeDirect_cases (h : insertEdgeDirect cfg src dst time db = .ok b db') :
    ∃ status db1, writeSlot cfg (db.location src).1 (db.location src).2 src dst db =
        .ok status db1 ∧
      ((status = .slotFull ∧ insertEdge cfg src dst time db1 = .ok b db') ∨
        (status ≠ .slotFull ∧ (b = true → status = .inserted) ∧ db' = db1)) := by
  unfold insertEdgeDirect at h
  rw [get_bind] at h
  obtain ⟨status, db1, hw, h⟩ := bind_eq_ok.1 h
  refine ⟨status, db1, hw, ?_⟩
  cases status with
  | slotFull => exact .inl ⟨rfl, h⟩
  | inserted | exists_ | failed =>
    obtain ⟨rfl, rfl⟩ := pure_eq_ok.1 h
    exact .inr ⟨by decide, by decide, rfl⟩

end Cases

/-! ## Reads -/

/-- `delta_inserts`, `delta_deletes` and `delta_seen` of `read_neighbor_clone`. -/
structure DeltaScan where
  deltaInserts : List VId
  deltaDeletes : List VId
  deltaSeen : List VId
  deriving DecidableEq, Repr

/-- One visited record. -/
def DeltaScan.visit (scan : DeltaScan) (rec : DeltaRecord) : DeltaScan :=
  if rec.target = .edge ∧ rec.second ∉ scan.deltaSeen then
    match rec.type with
    | .insert => { scan with
        deltaInserts := scan.deltaInserts ++ [rec.second]
        deltaSeen := rec.second :: scan.deltaSeen }
    | .delete => { scan with
        deltaDeletes := rec.second :: scan.deltaDeletes
        deltaSeen := rec.second :: scan.deltaSeen }
  else scan

/-- The loop `while (cur.is_valid())`, with fuel. -/
def scanChain (pm : PageMap) : Nat → Option DeltaLoc → DeltaScan → Option DeltaScan
  | _, none, scan => some scan
  | 0, some _, _ => none
  | fuel + 1, some loc, scan =>
    match pm.getRecord loc with
    | none => none
    | some rec => scanChain pm fuel rec.next (scan.visit rec)

/-- The list returned for a base list. -/
def DeltaScan.result (scan : DeltaScan) (base : List VId) : List VId :=
  base.filter (fun d => d ∉ scan.deltaDeletes) ++
    scan.deltaInserts.filter (fun d => d ∉ scan.deltaDeletes)

/-- The base list of a vertex: the giant store's, or that of its CSR entry. -/
def Db.base (cfg : Config) (db : Db) (v : VId) : List VId :=
  if (db.vertexIndex.items v).vertexType = .giant then db.giantDb.readNeighborClone v
  else (db.csrPool.page (db.location v).1).readNeighbors cfg (db.location v).2

/-- `read_neighbor_clone`; `none` when the fuel does not reach the end of the chain. -/
def readNeighborClone (cfg : Config) (fuel : Nat) (db : Db) (v : VId) : Option (List VId) :=
  (scanChain db.pageMap fuel (db.vertexIndex.deltaHeads v) ⟨[], [], []⟩).map fun scan =>
    scan.result (db.base cfg v)

/-! ## A read is last-writer-wins -/

/-- The scan of edge records is the library's pass over their operations. -/
def DeltaScan.toCollected (scan : DeltaScan) : Lww.Collected VId :=
  ⟨scan.deltaInserts, scan.deltaDeletes, scan.deltaSeen⟩

theorem toCollected_visit (scan : DeltaScan) {rec : DeltaRecord} (h : rec.target = .edge) :
    (scan.visit rec).toCollected = scan.toCollected.add rec.op := by
  unfold DeltaScan.visit Lww.Collected.add DeltaScan.toCollected
  by_cases hs : rec.second ∈ scan.deltaSeen
  · simp [hs]
  · cases ht : rec.type <;> simp [hs, h, ht, DeltaRecord.op]

theorem toCollected_foldl_visit (recs : List DeltaRecord) (h : ∀ r ∈ recs, r.target = .edge)
    (scan : DeltaScan) :
    (recs.foldl DeltaScan.visit scan).toCollected =
      (recs.map DeltaRecord.op).foldl Lww.Collected.add scan.toCollected := by
  induction recs generalizing scan with
  | nil => rfl
  | cons r recs ih =>
    rw [List.foldl_cons, ih (fun x hx => h x (List.mem_cons_of_mem _ hx)), List.map_cons,
      List.foldl_cons, toCollected_visit scan (h r List.mem_cons_self)]

/-- The delta chain of a vertex: the cells from its head on, newest first. -/
abbrev DeltaChain (pm : PageMap) (head : Option DeltaLoc) (cells : List (DeltaLoc × DeltaRecord)) :
    Prop :=
  Chain pm.getRecord DeltaRecord.next head cells

variable {cells : List (DeltaLoc × DeltaRecord)}

variable {fuel : Nat} {head : Option DeltaLoc}

theorem scanChain_of_chain {pm : PageMap} (h : DeltaChain pm head cells) (hf : cells.length ≤ fuel)
    (scan : DeltaScan) :
    scanChain pm fuel head scan = some ((cells.map Prod.snd).foldl DeltaScan.visit scan) := by
  induction h generalizing fuel scan with
  | nil => cases fuel <;> rfl
  | cons hg t ih =>
    cases fuel with
    | zero => simp at hf
    | succ n =>
      simp only [scanChain, hg, List.map_cons, List.foldl_cons]
      exact ih (Nat.le_of_succ_le_succ hf) _

/-- The operations of a chain, newest first. -/
def opsOf (cells : List (DeltaLoc × DeltaRecord)) : List (Lww.Op VId) :=
  cells.map fun c => c.2.op

/-- A chain of edge records is read as the last-writer-wins log of its operations. -/
theorem readNeighborClone_of_chain {cfg : Config} {db : Db} {v : VId}
    (h : DeltaChain db.pageMap (db.vertexIndex.deltaHeads v) cells)
    (hedge : ∀ c ∈ cells, c.2.target = .edge) (hf : cells.length ≤ fuel) :
    readNeighborClone cfg fuel db v =
      some ((Lww.collect (opsOf cells)).result (db.base cfg v)) := by
  have hrecs : ∀ r ∈ cells.map Prod.snd, r.target = .edge := by
    intro r hr
    obtain ⟨c, hc, rfl⟩ := List.mem_map.1 hr
    exact hedge c hc
  have hscan := toCollected_foldl_visit (cells.map Prod.snd) hrecs ⟨[], [], []⟩
  rw [List.map_map] at hscan
  unfold readNeighborClone
  rw [scanChain_of_chain h hf, Option.map_some]
  show some ((((cells.map Prod.snd).foldl DeltaScan.visit ⟨[], [], []⟩).toCollected).result _) = _
  rw [hscan]
  rfl

/-- More fuel does not change a result. -/
theorem scanChain_mono {pm : PageMap} {scan scan' : DeltaScan}
    (h : scanChain pm fuel head scan = some scan') {fuel' : Nat} (hle : fuel ≤ fuel') :
    scanChain pm fuel' head scan = some scan' := by
  induction fuel generalizing head scan fuel' with
  | zero =>
    cases head with
    | none => cases fuel' <;> exact h
    | some l => simp [scanChain] at h
  | succ n ih =>
    cases head with
    | none => cases fuel' <;> exact h
    | some l =>
      obtain ⟨m, rfl⟩ : ∃ m, fuel' = m + 1 := ⟨fuel' - 1, by omega⟩
      simp only [scanChain] at h ⊢
      cases hg : pm.getRecord l with
      | none => simp [hg] at h
      | some r =>
        simp only [hg] at h ⊢
        exact ih h (by omega)

end BwGraph
