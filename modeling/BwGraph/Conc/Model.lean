import BwGraph.Db.Run

/-
  The interleaving model: any number of writers (`insert_edge`, `delete_edge`), any number of
  readers (`read_neighbor_clone`) and one consolidation of a page, each cut into the sections that
  run under one latch or are atomic. A writer takes the write latch of its source and reads
  location and head, looks the forwarder up, appends under the latch of the page-map entry, notes
  the rerouted tail, publishes the head and gives the latch back. The consolidation drains the
  page, builds the replacement, installs the forwarder, drains again, re-inserts the strays one by one under the
  write latch of their source, switches the vertices one by one under theirs and detaches the
  forwarder. A reader takes base and head together and then visits one record at a time.

  `step` runs one section; `none` means that the section cannot run now, or that it throws. The
  time of a record is the number of its writer. A call of `consolidate_pages` that returns before
  it has something to publish is not a consolidation of this model.
-/

namespace BwGraph

/-- One call of `insert_edge` or `delete_edge`. -/
structure WriteOp where
  type : DeltaType
  src : VId
  dst : VId
  deriving DecidableEq, Repr

/-- The call gets past its validation. -/
def WriteOp.Valid (op : WriteOp) (vi : VertexIndex) : Prop :=
  op.src < vi.size ∧ op.dst < vi.size ∧
    (op.type = .insert → (vi.items op.src).isDelete = false ∧ (vi.items op.dst).isDelete = false)

instance (op : WriteOp) (vi : VertexIndex) : Decidable (op.Valid vi) :=
  inferInstanceAs (Decidable (_ ∧ _ ∧ (_ → _ ∧ _)))

/-- Where a writer stands; from `located` to `published` it holds the latch of its source. -/
inductive WriterPc where
  | ready
  | located (page : PageNo) (record : DeltaRecord)
  | routed (target : PageNo) (forwarder : Option Nat) (record : DeltaRecord)
  | appended (forwarder : Option Nat) (loc : DeltaLoc)
  | noted (loc : DeltaLoc)
  | published
  | acknowledged
  deriving DecidableEq, Repr

/-- The location a writer may publish: a rerouted one has to be noted first. -/
def WriterPc.publishable : WriterPc → Option DeltaLoc
  | .appended none loc => some loc
  | .noted loc => some loc
  | _ => none

/-- Where the consolidation stands, with the local variables that are live there. -/
inductive SmoPc where
  | ready
  | drained (deltas : List DeltaRecord)
  | built (deltas : List DeltaRecord) (r : Replacement)
  | forwarding (deltas : List DeltaRecord) (r : Replacement) (forwarder : Nat)
  | rerouting (deltas : List DeltaRecord) (r : Replacement) (forwarder : Nat)
      (stray : List DeltaRecord)
  | finalizing (deltas : List DeltaRecord) (r : Replacement) (forwarder : Nat) (rest : List VId)
  | finished (deltas : List DeltaRecord) (r : Replacement)

/-- Where a reader stands; `base` is the neighbour span of the page it holds. -/
inductive ReaderPc where
  | ready
  | reading (base : List VId) (cur : Option DeltaLoc) (scan : DeltaScan)
  | returned (result : List VId)
  deriving DecidableEq, Repr

/-- A state: the database, the holders of the vertex write latches, the parties. -/
structure ConcState where
  db : Db
  latch : VId → Option Nat
  writer : Nat → WriterPc
  smo : SmoPc
  reader : Nat → ReaderPc

/-- What a run is given: the build, the choices and the page of the consolidation, the call of
every writer and the vertex of every reader. -/
structure Scene where
  cfg : Config
  env : SmoEnv
  page : PageNo
  ops : Nat → WriteOp
  reads : Nat → VId

/-- The sections of all parties. -/
inductive ConcAction where
  | lock (i : Nat)
  | route (i : Nat)
  | append (i : Nat)
  | note (i : Nat)
  | publish (i : Nat)
  | unlock (i : Nat)
  | fetch
  | build
  | install
  | fetchStrays
  | reroute
  | startFinalize
  | finalize
  | detach
  | snapshot (k : Nat)
  | visit (k : Nat)
  | finish (k : Nat)
  deriving DecidableEq, Repr

/-- Nobody has started. -/
def ConcState.start (db : Db) : ConcState :=
  ⟨db, fun _ => none, fun _ => .ready, .ready, fun _ => .ready⟩

namespace ConcState

variable (sc : Scene) (s : ConcState)

/-- Writer `i` moves on. -/
def setWriter (i : Nat) (pc : WriterPc) : ConcState :=
  { s with writer := Function.update s.writer i pc }

/-- The database and the stage of the consolidation after a part that returned. -/
def smoStep {α : Type} (x : DbM α) (pc : α → SmoPc) : Option ConcState :=
  match x s.db with
  | .ok a db => some { s with db := db, smo := pc a }
  | .error _ _ => none

/-! ## Writers -/

/-- The record of writer `i`, linked to the current head of its source. -/
def newRecord (i : Nat) : DeltaRecord :=
  BwGraph.newRecord s.db (sc.ops i).type (sc.ops i).src (sc.ops i).dst i

/-- Validate, take the latch, read the location and the head. -/
def lock (i : Nat) : Option ConcState :=
  match s.writer i with
  | .ready =>
    if (sc.ops i).Valid s.db.vertexIndex ∧ s.latch (sc.ops i).src = none then
      some { s.setWriter i (.located (s.db.location (sc.ops i).src).1 (s.newRecord sc i)) with
        latch := Function.update s.latch (sc.ops i).src (some i) }
    else none
  | _ => none

/-- The lookup of the forwarder in `insert_delta_with_forward`. -/
def route (i : Nat) : Option ConcState :=
  match s.writer i with
  | .located page record =>
    let (target, forwarder) := s.db.pageMap.routeOf page (sc.ops i).src
    some (s.setWriter i (.routed target forwarder record))
  | _ => none

/-- `insert_delta_and_get_loc`. -/
def append (i : Nat) : Option ConcState :=
  match s.writer i with
  | .routed target forwarder record =>
    match onPageMap (PageMap.insertDeltaAndGetLoc sc.cfg target record) s.db with
    | .ok loc db => some { s.setWriter i (.appended forwarder loc) with db := db }
    | .error _ _ => none
  | _ => none

/-- `note_rerouted_tail` of a rerouted record. -/
def note (i : Nat) : Option ConcState :=
  match s.writer i with
  | .appended (some f) loc =>
    some { s.setWriter i (.noted loc) with
      db := { s.db with pageMap := s.db.pageMap.noteReroutedTail f (sc.ops i).src loc } }
  | _ => none

/-- `delta_heads_[src] = loc`. -/
def publish (i : Nat) : Option ConcState :=
  (s.writer i).publishable.map fun loc =>
    { s.setWriter i .published with
      db := { s.db with
        vertexIndex := s.db.vertexIndex.setDeltaHead (sc.ops i).src (some loc) } }

/-- Give the latch back and return true. -/
def unlock (i : Nat) : Option ConcState :=
  match s.writer i with
  | .published =>
    some { s.setWriter i .acknowledged with
      latch := Function.update s.latch (sc.ops i).src none }
  | _ => none

/-! ## The consolidation -/

/-- The checks at the start of `consolidate_pages` and the first drain. -/
def fetch : Option ConcState :=
  match s.smo with
  | .ready =>
    if sc.env.enabled = true ∧
        safetyThreshold sc.cfg sc.env ≤ s.db.pageMap.getDeltaChainLength sc.page ∧
        s.db.pageMap.pageRecs sc.page ≠ [] then
      s.smoStep (fetchDeltas sc.page) .drained
    else none
  | _ => none

/-- The replacement pages; a call with an empty merged graph returns here. -/
def build : Option ConcState :=
  match s.smo with
  | .drained deltas =>
    match buildReplacement sc.cfg sc.env sc.page deltas s.db with
    | .ok (some r) db => some { s with db := db, smo := .built deltas r }
    | _ => none
  | _ => none

/-- `install_forwarder_for`. -/
def install : Option ConcState :=
  match s.smo with
  | .built deltas r => s.smoStep (installForwarder sc.page r.locations) (.forwarding deltas r)
  | _ => none

/-- The second drain. -/
def fetchStrays : Option ConcState :=
  match s.smo with
  | .forwarding deltas r f => s.smoStep (fetchDeltas sc.page) (.rerouting deltas r f)
  | _ => none

/-- The next stray, under the latch of its source. -/
def reroute : Option ConcState :=
  match s.smo with
  | .rerouting deltas r f (delta :: stray) =>
    if s.latch delta.first = none then
      s.smoStep (rerouteStray sc.cfg r.locations f delta) fun _ => .rerouting deltas r f stray
    else none
  | _ => none

/-- All strays are re-inserted: `publish_version_switch` starts. -/
def startFinalize : Option ConcState :=
  match s.smo with
  | .rerouting deltas r f [] =>
    some { s with
      smo := .finalizing deltas r f (sc.env.locationOrder.order r.locations.keys) }
  | _ => none

/-- The next vertex of `finalize_consolidation`, under its latch. -/
def finalize : Option ConcState :=
  match s.smo with
  | .finalizing deltas r f (v :: rest) =>
    if s.latch v = none then
      s.smoStep (finalizeVertices r.giantVertices f r.locations [v]) fun _ =>
        .finalizing deltas r f rest
    else none
  | _ => none

/-- The forwarder goes. -/
def detach : Option ConcState :=
  match s.smo with
  | .finalizing deltas r _ [] => s.smoStep (detachOldPage sc.page) fun _ => .finished deltas r
  | _ => none

/-! ## Readers -/

/-- Base and head of a normal vertex, under its read latch. -/
def snapshot (k : Nat) : Option ConcState :=
  match s.reader k with
  | .ready =>
    if s.latch (sc.reads k) = none ∧ sc.reads k < s.db.vertexIndex.size ∧
        (s.db.vertexIndex.items (sc.reads k)).vertexType = .normal then
      some { s with
        reader := Function.update s.reader k (.reading (s.db.base sc.cfg (sc.reads k))
          (s.db.vertexIndex.deltaHeads (sc.reads k)) ⟨[], [], []⟩) }
    else none
  | _ => none

/-- One round of `while (cur.is_valid())`. -/
def visit (k : Nat) : Option ConcState :=
  match s.reader k with
  | .reading base (some loc) scan =>
    (s.db.pageMap.getRecord loc).map fun rec =>
      { s with
        reader := Function.update s.reader k (.reading base rec.next (scan.visit rec)) }
  | _ => none

/-- The chain has ended: compose the result. -/
def finish (k : Nat) : Option ConcState :=
  match s.reader k with
  | .reading base none scan =>
    some { s with reader := Function.update s.reader k (.returned (scan.result base)) }
  | _ => none

/-- One section of one party. -/
def step : ConcAction → Option ConcState
  | .lock i => s.lock sc i
  | .route i => s.route sc i
  | .append i => s.append sc i
  | .note i => s.note sc i
  | .publish i => s.publish sc i
  | .unlock i => s.unlock sc i
  | .fetch => s.fetch sc
  | .build => s.build sc
  | .install => s.install sc
  | .fetchStrays => s.fetchStrays sc
  | .reroute => s.reroute sc
  | .startFinalize => s.startFinalize sc
  | .finalize => s.finalize
  | .detach => s.detach sc
  | .snapshot k => s.snapshot sc k
  | .visit k => s.visit k
  | .finish k => s.finish k

end ConcState

/-- The steps of the interleaving model. -/
def ConcStep (sc : Scene) (s : ConcState) (e : ConcAction) (s' : ConcState) : Prop :=
  s.step sc e = some s'

end BwGraph
