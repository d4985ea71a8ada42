import BwGraph.Conc.Model
import BwGraph.Db.Refinement

/-
  Any number of consolidations beside the writers and readers, and what all of them keep: a
  location denotes its record for ever, up to a link that is cleared, and the chain from every
  head ends, visits no location twice and holds records of its own vertex only.

  The order that the sections respect is the order of time: a record is linked to what was
  already a chain when its writer read the head, and nothing relinks it later. The chains of the
  heads and of the records that writers hold survive every section by one rule
  (`PageMap.Persists`, `Linked.persist`), whichever page the record went to.
-/

namespace BwGraph

open Function PageMap VertexIndex ConcState

/-! ## Many consolidations -/

/-- What a run with many consolidations is given; each has its own page and choices. -/
structure MultiScene where
  cfg : Config
  env : Nat → SmoEnv
  page : Nat → PageNo
  ops : Nat → WriteOp
  reads : Nat → VId

/-- The scene of one consolidation. -/
def MultiScene.scene (sc : MultiScene) (k : Nat) : Scene :=
  ⟨sc.cfg, sc.env k, sc.page k, sc.ops, sc.reads⟩

/-- A state with the consolidations by number. -/
structure MultiState where
  db : Db
  latch : VId → Option Nat
  writer : Nat → WriterPc
  smo : Nat → SmoPc
  reader : Nat → ReaderPc

/-- The steps: a section of a writer, a reader or of consolidation `k`, or the buffer pool. -/
inductive MultiAction where
  | party (k : Nat) (a : ConcAction)
  | load (p : PageNo)
  | evict (p : PageNo)
  | flush (p : PageNo)
  | recycle (p : PageNo)

namespace MultiState

/-- Nobody has started. -/
def start (db : Db) : MultiState :=
  ⟨db, fun _ => none, fun _ => .ready, fun _ => .ready, fun _ => .ready⟩

/-- What consolidation `k` and the writers and readers see. -/
def view (s : MultiState) (k : Nat) : ConcState := ⟨s.db, s.latch, s.writer, s.smo k, s.reader⟩

/-- The state after a section of the view of `k`. -/
def put (s : MultiState) (k : Nat) (t : ConcState) : MultiState :=
  ⟨t.db, t.latch, t.writer, Function.update s.smo k t.smo, t.reader⟩

section

variable (s : MultiState) (k : Nat)

@[simp] theorem view_put (t : ConcState) : (s.put k t).view k = t := by
  simp [put, view]

@[simp] theorem put_view : s.put k (s.view k) = s := by
  simp [put, view]

@[simp] theorem put_put (t t' : ConcState) : (s.put k t).put k t' = s.put k t' := by
  simp [put]

end

/-- Another CSR pool. -/
def setPool (s : MultiState) (pool : CsrPool) : MultiState :=
  { s with db := { s.db with csrPool := pool } }

end MultiState

/-- The steps of the model with many consolidations. -/
inductive MultiStep (sc : MultiScene) (s : MultiState) : MultiAction → MultiState → Prop
  | party {k : Nat} {a : ConcAction} {t : ConcState}
      (h : ConcStep (sc.scene k) (s.view k) a t) : MultiStep sc s (.party k a) (s.put k t)
  | load (p : PageNo) : MultiStep sc s (.load p) (s.setPool (s.db.csrPool.load p))
  | evict (p : PageNo) : MultiStep sc s (.evict p) (s.setPool (s.db.csrPool.evict p))
  | flush (p : PageNo) : MultiStep sc s (.flush p) (s.setPool (s.db.csrPool.flush p))
  | recycle {p : PageNo} (h : p ∈ s.db.csrPool.retired) :
      MultiStep sc s (.recycle p) (s.setPool (s.db.csrPool.recyclePage p))

/-! ## Chains of own records -/

/-- From `head` on there are only records of `v`, and the chain ends. -/
def OwnChain (pm : PageMap) (v : VId) (head : Option DeltaLoc) : Prop :=
  Linked pm.getRecord DeltaRecord.next (fun r => r.first = v) head

variable {pm pm' : PageMap}

theorem OwnChain.persist {v : VId} {head : Option DeltaLoc} (h : OwnChain pm v head)
    (hp : pm.Persists pm') : OwnChain pm' v head := by
  refine Linked.persist h fun l r hr hv => ?_
  obtain ⟨r', hr', rfl | rfl⟩ := hp.get l r hr
  · exact ⟨_, hr', hv, .inl rfl⟩
  · exact ⟨_, hr', hv, .inr rfl⟩

/-- What a writer of `v` holds: a record linked to a chain of `v`, or the location of one. -/
def WriterPc.Holds (pm : PageMap) (v : VId) : WriterPc → Prop
  | .located _ record => record.first = v ∧ OwnChain pm v record.next
  | .routed _ _ record => record.first = v ∧ OwnChain pm v record.next
  | .appended _ loc => OwnChain pm v (some loc)
  | .noted loc => OwnChain pm v (some loc)
  | _ => True

theorem WriterPc.Holds.persist {v : VId} {pc : WriterPc} (h : pc.Holds pm v) (hp : pm.Persists pm') :
    pc.Holds pm' v := by
  cases pc with
  | located p record => exact ⟨h.1, h.2.persist hp⟩
  | routed p f record => exact ⟨h.1, h.2.persist hp⟩
  | appended f loc => exact OwnChain.persist h hp
  | noted loc => exact OwnChain.persist h hp
  | _ => trivial

/-- The invariant: every head and every record in the hands of a writer starts a chain of its
vertex. -/
structure ChainsOk (ops : Nat → WriteOp) (db : Db) (writer : Nat → WriterPc) : Prop where
  pageMap : db.pageMap.Ok
  heads : ∀ v, OwnChain db.pageMap v (db.vertexIndex.deltaHeads v)
  holds : ∀ i, (writer i).Holds db.pageMap (ops i).src

section

variable {ops : Nat → WriteOp} {db db' : Db} {writer : Nat → WriterPc}

/-- A section that moves no writer, and leaves every head or gives it a chain. -/
theorem ChainsOk.heads_changed (h : ChainsOk ops db writer) (hp : db.pageMap.Persists db'.pageMap)
    (hh : ∀ v, db'.vertexIndex.deltaHeads v = db.vertexIndex.deltaHeads v ∨
      OwnChain db'.pageMap v (db'.vertexIndex.deltaHeads v)) : ChainsOk ops db' writer := by
  refine ⟨hp.ok, fun v => ?_, fun i => (h.holds i).persist hp⟩
  rcases hh v with hv | hv
  · rw [hv]
    exact (h.heads v).persist hp
  · exact hv

/-- A section of writer `i`. -/
theorem ChainsOk.moved (h : ChainsOk ops db writer) {i : Nat} {pc : WriterPc}
    (hp : db.pageMap.Persists db'.pageMap)
    (hh : ∀ v, db'.vertexIndex.deltaHeads v = db.vertexIndex.deltaHeads v ∨
      OwnChain db'.pageMap v (db'.vertexIndex.deltaHeads v))
    (hpc : pc.Holds db'.pageMap (ops i).src) : ChainsOk ops db' (update writer i pc) := by
  have hc := h.heads_changed hp hh
  refine ⟨hc.pageMap, hc.heads, fun j => ?_⟩
  by_cases hj : j = i
  · subst hj
    rw [update_self]
    exact hpc
  · rw [update_of_ne hj]
    exact hc.holds j

/-- Nothing but the forwarders of the page map changes. -/
theorem persists_of_sameChains {pm pm' : PageMap} (hok : pm.Ok) (h : pm.SameChains pm') :
    pm.Persists pm' := .of_get (h.ok hok) h.getRecord

/-- What a section does to the page map, the heads and the writers. -/
def ChainStep (ops : Nat → WriteOp) (db : Db) (writer : Nat → WriterPc) (db' : Db)
    (writer' : Nat → WriterPc) : Prop :=
  ChainsOk ops db writer → db.pageMap.Persists db'.pageMap ∧ ChainsOk ops db' writer'

theorem chainStep_same (h1 : db'.pageMap = db.pageMap)
    (h2 : db'.vertexIndex.deltaHeads = db.vertexIndex.deltaHeads) :
    ChainStep ops db writer db' writer := by
  intro h
  have hp : db.pageMap.Persists db'.pageMap := by
    rw [h1]
    exact .refl h.pageMap
  exact ⟨hp, h.heads_changed hp fun v => .inl (congrFun h2 v)⟩

theorem chainStep_pageMap {pm : PageMap} (hp : db.pageMap.Ok → db.pageMap.Persists pm) :
    ChainStep ops db writer { db with pageMap := pm } writer := fun h =>
  ⟨hp h.pageMap, h.heads_changed (hp h.pageMap) fun _ => .inl rfl⟩

variable {f : Nat} {giants : List VId}

variable {locs : Locations}

/-- A stray is re-inserted in front of the chain of its source. -/
theorem chainStep_rerouteStray {cfg : Config} {delta : DeltaRecord}
    (h : rerouteStray cfg locs f delta db = .ok () db') : ChainStep ops db writer db' writer := by
  intro hc
  unfold rerouteStray at h
  split_ifs at h
  · obtain ⟨-, rfl⟩ := EStateM.pure_eq_ok.1 h
    exact chainStep_same rfl rfl hc
  · cases hl : locs.lookup delta.first with
    | none =>
      rw [hl] at h
      cases h
    | some newLoc =>
      rw [hl] at h
      obtain ⟨_, _, hget, h⟩ := EStateM.bind_eq_ok.1 h
      cases hget
      obtain ⟨loc, db1, hmap, h⟩ := EStateM.bind_eq_ok.1 h
      obtain ⟨pm, hins, rfl⟩ := onPageMap_ok.1 hmap
      cases h
      have happ := appends_insertDeltaAndGetLoc hc.pageMap hins
      have hnote := persists_of_sameChains happ.ok
        (sameChains_noteReroutedTail pm f delta.first loc)
      have hp := happ.persists.trans hnote
      refine ⟨hp, hc.heads_changed hp fun v => ?_⟩
      by_cases hv : v = delta.first
      · subst hv
        have hhead : OwnChain pm delta.first (some loc) :=
          .cons happ.get_self rfl ((hc.heads delta.first).persist happ.persists)
        right
        simp only [setDeltaHead, update_self]
        exact hhead.persist hnote
      · left
        simp [setDeltaHead, hv]

/-- A vertex is switched: its chain is cut or dropped. -/
theorem chainStep_finalizeVertex {v : VId} {prepared : PreparedVertexVersion}
    (h : finalizeVertex giants f v prepared db = .ok () db') :
    ChainStep ops db writer db' writer := by
  intro hc
  have hheads : ∀ {vi vi' : VertexIndex}, vi.publishPreparedVersion v prepared = some vi' →
      vi'.deltaHeads = vi.deltaHeads := by
    intro vi vi' hpub
    unfold publishPreparedVersion at hpub
    split_ifs at hpub
    cases hpub
    rfl
  unfold finalizeVertex at h
  cases hb : (db.pageMap.forwarders f).reroutedTail v with
  | none =>
    simp only [hb] at h
    split at h
    · cases h
    · rename_i vi hpub
      cases h
      refine ⟨.refl hc.pageMap, hc.heads_changed (.refl hc.pageMap) fun w => ?_⟩
      have hw := congrFun (hheads hpub) w
      by_cases hwv : w = v
      · subst hwv
        right
        rw [hw]
        simp only [setVertexType, setDeltaHead, update_self]
        exact .nil
      · left
        rw [hw]
        simp [setVertexType, setDeltaHead, hwv]
  | some b =>
    simp only [hb] at h
    split at h
    · cases h
    · rename_i vi hpub
      cases h
      have hp := persists_truncateChainAt hc.pageMap b
      refine ⟨hp, hc.heads_changed hp fun w => .inl ?_⟩
      rw [congrFun (hheads hpub) w]
      simp [setVertexType, setDeltaHead]

theorem chainStep_finalizeVertices {v : VId}
    (h : finalizeVertices giants f locs [v] db = .ok () db') :
    ChainStep ops db writer db' writer := by
  unfold finalizeVertices at h
  cases hl : locs.lookup v with
  | none =>
    rw [hl] at h
    obtain ⟨-, rfl⟩ := EStateM.pure_eq_ok.1 h
    exact chainStep_same rfl rfl
  | some prepared =>
    rw [hl] at h
    obtain ⟨⟨⟩, db1, h1, h2⟩ := EStateM.bind_eq_ok.1 h
    obtain ⟨-, rfl⟩ := EStateM.pure_eq_ok.1 h2
    exact chainStep_finalizeVertex h1

end

/-! ## One section -/

section

variable {sc : Scene} {s s' : ConcState}

theorem chainStep_smoStep {α : Type} {x : DbM α} {pc : α → SmoPc} (h : s.smoStep x pc = some s')
    (hx : ∀ a db', x s.db = .ok a db' → ChainStep sc.ops s.db s.writer db' s.writer) :
    ChainStep sc.ops s.db s.writer s'.db s'.writer := by
  unfold smoStep at h
  split at h
  · rename_i a db' hx'
    cases h
    exact hx a db' hx'
  · cases h

variable {i : Nat}

variable {pc : WriterPc}

theorem chainStep_writer
    (hpc : ChainsOk sc.ops s.db s.writer → pc.Holds s.db.pageMap (sc.ops i).src) :
    ChainStep sc.ops s.db s.writer s.db (update s.writer i pc) := fun hc =>
  ⟨.refl hc.pageMap, hc.moved (.refl hc.pageMap) (fun _ => .inl rfl) (hpc hc)⟩

theorem chainStep_lock (h : s.lock sc i = some s') :
    ChainStep sc.ops s.db s.writer s'.db s'.writer := by
  unfold lock at h
  split at h
  · split_ifs at h
    cases h
    exact chainStep_writer fun hc => ⟨rfl, hc.heads _⟩
  · cases h

theorem chainStep_route (h : s.route sc i = some s') :
    ChainStep sc.ops s.db s.writer s'.db s'.writer := by
  unfold route at h
  split at h
  · rename_i page record hi
    cases h
    refine chainStep_writer fun hc => ?_
    have hh := hc.holds i
    rw [hi] at hh
    exact hh
  · cases h

theorem chainStep_append (h : s.append sc i = some s') :
    ChainStep sc.ops s.db s.writer s'.db s'.writer := by
  unfold append at h
  split at h
  · rename_i target f record hi
    split at h
    · rename_i loc db hmap
      cases h
      obtain ⟨pm, hins, rfl⟩ := onPageMap_ok.1 hmap
      intro hc
      have happ := appends_insertDeltaAndGetLoc hc.pageMap hins
      have hh := hc.holds i
      rw [hi] at hh
      refine ⟨happ.persists, hc.moved happ.persists (fun _ => .inl rfl) ?_⟩
      exact Linked.cons happ.get_self hh.1 (hh.2.persist happ.persists)
    · cases h
  · cases h

theorem chainStep_note (h : s.note sc i = some s') :
    ChainStep sc.ops s.db s.writer s'.db s'.writer := by
  unfold note at h
  split at h
  · rename_i f loc hi
    cases h
    intro hc
    have hp := persists_of_sameChains hc.pageMap
      (sameChains_noteReroutedTail s.db.pageMap f (sc.ops i).src loc)
    have hh := (hc.holds i).persist hp
    rw [hi] at hh
    exact ⟨hp, hc.moved hp (fun _ => .inl rfl) hh⟩
  · cases h

theorem publishable_cases {loc : DeltaLoc} (h : pc.publishable = some loc) :
    pc = .appended none loc ∨ pc = .noted loc := by
  unfold WriterPc.publishable at h
  split at h
  · cases h
    exact .inl rfl
  · cases h
    exact .inr rfl
  · cases h

theorem chainStep_publish (h : s.publish sc i = some s') :
    ChainStep sc.ops s.db s.writer s'.db s'.writer := by
  obtain ⟨loc, hloc, rfl⟩ := Option.map_eq_some_iff.1 h
  intro hc
  have hh : OwnChain s.db.pageMap (sc.ops i).src (some loc) := by
    have hi := hc.holds i
    rcases publishable_cases hloc with hpc | hpc
    · rw [hpc] at hi
      exact hi
    · rw [hpc] at hi
      exact hi
  refine ⟨.refl hc.pageMap, hc.moved (.refl hc.pageMap) (fun v => ?_) trivial⟩
  by_cases hv : v = (sc.ops i).src
  · subst hv
    right
    simp only [setDeltaHead, update_self]
    exact hh
  · left
    simp [setDeltaHead, hv]

theorem chainStep_unlock (h : s.unlock sc i = some s') :
    ChainStep sc.ops s.db s.writer s'.db s'.writer := by
  unfold unlock at h
  split at h
  · cases h
    exact chainStep_writer fun _ => trivial
  · cases h

theorem chainStep_build (h : s.build sc = some s') :
    ChainStep sc.ops s.db s.writer s'.db s'.writer := by
  unfold build at h
  split at h
  · rename_i deltas hpc
    split at h
    · rename_i r db hb
      cases h
      have hkeep : OnDeltas
          (fun pm heads => pm = s.db.pageMap ∧ heads = s.db.vertexIndex.deltaHeads)
          (buildReplacement sc.cfg sc.env sc.page deltas s.db).state :=
        keeps_buildReplacement sc.page deltas s.db ⟨rfl, rfl⟩
      rw [hb] at hkeep
      exact chainStep_same hkeep.1 hkeep.2
    · cases h
  · cases h

/-- Every section keeps the chains and the records. -/
theorem chainStep {a : ConcAction} (h : ConcStep sc s a s') :
    ChainStep sc.ops s.db s.writer s'.db s'.writer := by
  cases a with
  | lock i => exact chainStep_lock h
  | route i => exact chainStep_route h
  | append i => exact chainStep_append h
  | note i => exact chainStep_note h
  | publish i => exact chainStep_publish h
  | unlock i => exact chainStep_unlock h
  | fetch =>
    have h : s.fetch sc = some s' := h
    unfold fetch at h
    split at h
    · split_ifs at h
      refine chainStep_smoStep h fun a db' hx => ?_
      cases hx
      exact chainStep_pageMap fun hok =>
        .of_get (drains_fetchDeltasWithMark hok _).ok
          (drains_fetchDeltasWithMark hok _).get
    · cases h
  | build => exact chainStep_build h
  | install =>
    have h : s.install sc = some s' := h
    unfold install at h
    split at h
    · refine chainStep_smoStep h fun a db' hx => ?_
      cases hx
      exact chainStep_pageMap fun hok => persists_of_sameChains hok
        ((sameChains_makeForwarder _ _).trans (sameChains_installForwarderFor _ _ _))
    · cases h
  | fetchStrays =>
    have h : s.fetchStrays sc = some s' := h
    unfold fetchStrays at h
    split at h
    · refine chainStep_smoStep h fun a db' hx => ?_
      cases hx
      exact chainStep_pageMap fun hok =>
        .of_get (drains_fetchDeltasWithMark hok _).ok
          (drains_fetchDeltasWithMark hok _).get
    · cases h
  | reroute =>
    have h : s.reroute sc = some s' := h
    unfold reroute at h
    split at h
    · split_ifs at h
      exact chainStep_smoStep h fun _ _ hx => chainStep_rerouteStray hx
    · cases h
  | startFinalize =>
    have h : s.startFinalize sc = some s' := h
    unfold startFinalize at h
    split at h
    · cases h
      exact chainStep_same rfl rfl
    · cases h
  | finalize =>
    have h : s.finalize = some s' := h
    unfold finalize at h
    split at h
    · split_ifs at h
      exact chainStep_smoStep h fun _ _ hx => chainStep_finalizeVertices hx
    · cases h
  | detach =>
    have h : s.detach sc = some s' := h
    unfold detach at h
    split at h
    · refine chainStep_smoStep h fun a db' hx => ?_
      cases hx
      intro hc
      have hp := persists_of_sameChains hc.pageMap
        (sameChains_detachForwarderFor s.db.pageMap sc.page)
      exact ⟨hp, hc.heads_changed hp fun _ => .inl rfl⟩
    · cases h
  | snapshot k =>
    have h : s.snapshot sc k = some s' := h
    unfold snapshot at h
    split at h
    · split_ifs at h
      cases h
      exact chainStep_same rfl rfl
    · cases h
  | visit k =>
    have h : s.visit k = some s' := h
    unfold visit at h
    split at h
    · obtain ⟨rec, -, rfl⟩ := Option.map_eq_some_iff.1 h
      exact chainStep_same rfl rfl
    · cases h
  | finish k =>
    have h : s.finish k = some s' := h
    unfold finish at h
    split at h
    · cases h
      exact chainStep_same rfl rfl
    · cases h

end

/-! ## Runs -/

/-- The invariant of a run, with what it keeps of an earlier page map. -/
theorem chainsOk_steps {sc : MultiScene} {s s' : MultiState} {es : List MultiAction}
    (h : ChainsOk sc.ops s.db s.writer) (run : Steps (MultiStep sc) s es s') :
    s.db.pageMap.Persists s'.db.pageMap ∧ ChainsOk sc.ops s'.db s'.writer := by
  refine run.inv (fun _ t => s.db.pageMap.Persists t.db.pageMap ∧ ChainsOk sc.ops t.db t.writer)
    ⟨.refl h.pageMap, h⟩ fun _ t e t' ht hstep => ?_
  have hone : ChainStep sc.ops t.db t.writer t'.db t'.writer := by
    cases hstep with
    | party hs => exact chainStep hs
    | load p => exact chainStep_same rfl rfl
    | evict p => exact chainStep_same rfl rfl
    | flush p => exact chainStep_same rfl rfl
    | recycle hp => exact chainStep_same rfl rfl
  obtain ⟨hp, hc⟩ := hone ht.2
  exact ⟨ht.1.trans hp, hc⟩

/-- In every interleaving of writers, readers and consolidations, from a state without deltas on:
a location that `insert_delta_and_get_loc` returns was free and denotes the inserted record; from
then on it denotes the same record, up to a cleared link; and the chain from the head of every
vertex ends, visits no location twice and holds records of that vertex only. -/
theorem deltaChains_stable {sc : MultiScene} {db : Db} (hpm : db.pageMap.Ok)
    (hheads : ∀ v, db.vertexIndex.deltaHeads v = none) {es es' : List MultiAction}
    {s s' : MultiState} (run : Steps (MultiStep sc) (.start db) es s)
    (run' : Steps (MultiStep sc) s es' s') :
    (∀ p record loc pm, PageMap.insertDeltaAndGetLoc sc.cfg p record s.db.pageMap = .ok loc pm →
      s.db.pageMap.getRecord loc = none ∧ pm.getRecord loc = some record) ∧
    (∀ loc r, s.db.pageMap.getRecord loc = some r →
      s'.db.pageMap.getRecord loc = some r ∨
        s'.db.pageMap.getRecord loc = some { r with next := none }) ∧
    ∀ v, ∃ cells, DeltaChain s.db.pageMap (s.db.vertexIndex.deltaHeads v) cells ∧
      (cells.map Prod.fst).Nodup ∧ ∀ c ∈ cells, c.2.first = v := by
  have h0 : ChainsOk sc.ops db fun _ => .ready :=
    ⟨hpm, fun v => by rw [hheads v]; exact .nil, fun _ => trivial⟩
  obtain ⟨-, h⟩ := chainsOk_steps (s := .start db) h0 run
  obtain ⟨hp, -⟩ := chainsOk_steps h run'
  refine ⟨fun p record loc pm hins => ?_, fun loc r hr => ?_, fun v => ?_⟩
  · have happ := PageMap.appends_insertDeltaAndGetLoc h.pageMap hins
    exact ⟨happ.fresh, happ.get_self⟩
  · obtain ⟨r', hr', rfl | rfl⟩ := hp.get loc r hr
    · exact .inl hr'
    · exact .inr hr'
  · obtain ⟨cells, hc, hown⟩ := h.heads v
    exact ⟨cells, hc, hc.nodup, hown⟩

/-- A run of the model with one consolidation is a run of this one. -/
theorem steps_view {sc : MultiScene} {k : Nat} {es : List ConcAction} {s : MultiState}
    {t : ConcState} (h : runAll (step (sc.scene k)) (s.view k) es = some t) :
    Steps (MultiStep sc) s (es.map (.party k)) (s.put k t) := by
  induction es generalizing s with
  | nil =>
    cases h
    rw [MultiState.put_view]
    exact .nil
  | cons e es ih =>
    obtain ⟨t1, h1, h⟩ := Option.bind_eq_some_iff.1 h
    have hrest := ih (s := s.put k t1) (by rw [MultiState.view_put]; exact h)
    rw [MultiState.put_put] at hrest
    exact Steps.cons (.party h1) hrest

/-- The sections of a writer that is not rerouted. -/
def writeSections (i : Nat) : List ConcAction :=
  [.lock i, .route i, .append i, .publish i, .unlock i]

/-- The sections of a consolidation of four vertices without strays. -/
def smoSections : List ConcAction :=
  [.fetch, .build, .install, .fetchStrays, .startFinalize, .finalize, .finalize, .finalize,
    .finalize, .detach]

/-- Every writer inserts the edge from 0 to 3, the consolidations are of page 0. -/
def smallScene : MultiScene :=
  ⟨smallConfig false, fun _ => .smooth, fun _ => 0, fun _ => ⟨.insert, 0, 3⟩, fun _ => 0⟩

/-- The first record of the small database is where it was after a consolidation has merged it. -/
theorem deltaChains_stable_small :
    ∃ s s', Steps (MultiStep smallScene) (.start (smallDb false))
        ((writeSections 0).map (.party 0)) s ∧
      Steps (MultiStep smallScene) s (smoSections.map (.party 0)) s' ∧
      (s.db.pageMap.getRecord ⟨0, 0⟩).isSome = true ∧
      ∀ r, s.db.pageMap.getRecord ⟨0, 0⟩ = some r → s'.db.pageMap.getRecord ⟨0, 0⟩ = some r ∨
        s'.db.pageMap.getRecord ⟨0, 0⟩ = some { r with next := none } := by
  obtain ⟨t, ht⟩ := Option.isSome_iff_exists.1 (show (runAll (ConcState.step (smallScene.scene 0))
    ((MultiState.start (smallDb false)).view 0) (writeSections 0)).isSome = true by decide +kernel)
  have hrec : ((runAll (ConcState.step (smallScene.scene 0))
      ((MultiState.start (smallDb false)).view 0) (writeSections 0)).bind fun t =>
        t.db.pageMap.getRecord ⟨0, 0⟩).isSome = true := by decide +kernel
  have hsmo : ((runAll (ConcState.step (smallScene.scene 0))
      ((MultiState.start (smallDb false)).view 0) (writeSections 0)).bind fun t =>
        runAll (ConcState.step (smallScene.scene 0)) t smoSections).isSome = true := by
    decide +kernel
  rw [ht] at hrec hsmo
  obtain ⟨t', ht'⟩ := Option.isSome_iff_exists.1 hsmo
  rw [Option.bind_some, ← (MultiState.start (smallDb false)).view_put 0 t] at ht'
  have run := steps_view ht
  have run' := steps_view ht'
  exact ⟨_, _, run, run', hrec, (deltaChains_stable (smallDb_loaded false).pageMap
    (smallDb_loaded false).noHead run run').2.1 _⟩

end BwGraph
