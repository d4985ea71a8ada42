import BwGraph.Algo.WccSv

/-
  Connected components by label propagation with an edge map (`wcc_map` of `db_algorithm.cc`). A
  round copies the labels of the frontier to `prevIDs` and lowers the labels of the neighbours; the
  vertices whose label a call has lowered for the first time in the round are the next frontier.
  The compare-and-swap is a strong one: the spurious failures of the weak one repeat a step.

  A dense map stops at the first update of a vertex. A neighbour that it skips may have a lower
  label; if that neighbour was not lowered itself in the round, it is not active any more and its
  label never arrives (`wccMap_pathDb`). `SkipsOk` is the condition that this does not happen.
  Then an edge whose end has a greater label than its start leaves the frontier (`WmStable`), and
  the labels are the least vertices of the components (`wccMap_guarded`). Every run ends, whatever
  it skips.
-/

namespace BwGraph

open Function List Option Nat
open ForkJoin hiding next

/-- Where `wcc_map` stands in its loop. -/
inductive WmPhase where
  /-- Before the copying of the labels. -/
  | sync
  /-- Before the edge map. -/
  | edges
  /-- In a dense map, before the giant vertices; `next` is what the pages have marked. -/
  | giants (next : List VId)

/-- The arrays and the frontier of `wcc_map`. -/
structure WmMem where
  ids : VId → VId
  prevIds : VId → VId
  frontier : VertexSubset
  phase : WmPhase

/-- A call of `wcc_min_functor_t::update_atomic`, with its locals. -/
inductive MinCall where
  | loadSrc (src dst : VId)
  | loadDst (srcId dst : VId)
  | cas (srcId cur orig dst : VId)
  /-- The compare-and-swap succeeded, before `prevIDs[dst]` is loaded. -/
  | check (orig dst : VId)
  deriving DecidableEq

/-- `wcc_min_functor_t`. -/
def wccMinFunctor : EdgeFunctor WmMem MinCall where
  cond _ _ := true
  start src dst := .loadSrc src dst
  next m
    | .loadSrc src dst => (m, .inl (.loadDst (m.ids src) dst))
    | .loadDst srcId dst =>
      let cur := m.ids dst
      if srcId ≥ cur then (m, .inr false) else (m, .inl (.cas srcId cur cur dst))
    | .cas srcId cur orig dst =>
      if m.ids dst = cur then
        ({ m with ids := Function.update m.ids dst srcId }, .inl (.check orig dst))
      else
        let cur := m.ids dst
        if srcId < cur then (m, .inl (.cas srcId cur orig dst)) else (m, .inr false)
    | .check orig dst => (m, .inr (decide (orig = m.prevIds dst)))

/-- A call of `wcc_sync_functor_t`, with its locals. -/
inductive SyncPc where
  | load
  | store (id : VId)
  | finished
  deriving DecidableEq

/-- One step of `wcc_sync_functor_t`. -/
def wccSyncNext (m : WmMem) (v : VId) : SyncPc → Option (WmMem × SyncPc)
  | .load => some (m, .store (m.ids v))
  | .store id => some ({ m with prevIds := Function.update m.prevIds v id }, .finished)
  | .finished => none

/-- A task of one of the parallel parts. -/
inductive WmTask where
  | sync (v : VId) (pc : SyncPc)
  | edge (t : MapTask MinCall)

/-- What a task has put into the output. -/
def WmTask.marked : WmTask → List VId
  | .sync _ _ => []
  | .edge t => t.marked

/-- The output of the tasks. -/
def wmOutput (ts : List WmTask) : List VId := ts.flatMap WmTask.marked

/-- The loop of `wcc_map`. The number of vertices of a sparse output is a `v_id_t`. -/
def wccMap (g : MapGraph) (thresholdDivisor : Nat) : ForkJoin WmMem WmTask where
  fork m :=
    match m.phase with
    | .sync =>
      if m.frontier.numNonZeros g.vertexCount = 0 then none
      else some (m, (m.frontier.toSparse g.vertexCount).map fun v => .sync v .load)
    | .edges =>
      let tasks := if g.usesDense thresholdDivisor (m.frontier.numNonZeros g.vertexCount) then
        g.pageTasks else g.sparseTasks (m.frontier.toSparse g.vertexCount)
      some (m, tasks.map WmTask.edge)
    | .giants _ => some (m, g.giantTasks.map WmTask.edge)
  next m
    | .sync v pc => (wccSyncNext m v pc).map fun r => (r.1, .sync v r.2)
    | .edge t => (edgeMapNext wccMinFunctor m.frontier.isIn m t).map fun r => (r.1, .edge r.2)
  join m ts :=
    match m.phase with
    | .sync => { m with phase := .edges }
    | .edges =>
      if g.usesDense thresholdDivisor (m.frontier.numNonZeros g.vertexCount) then
        { m with phase := .giants (wmOutput ts) }
      else
        { m with
          frontier := .sparse ((wmOutput ts).take ((wmOutput ts).length % 2 ^ 32))
          phase := .sync }
    | .giants next =>
      { m with
        frontier := .dense fun v => decide (v ∈ next ++ wmOutput ts)
        phase := .sync }

/-- The arrays before the loop. -/
def wccMapStart (vertexCount : Nat) : WmMem := ⟨id, id, makeFullFrontier vertexCount, .sync⟩

/-! ## Every run -/

/-- The labels are below their vertices, in the same component, and the frontier has vertices of
the graph only. -/
structure WmBasic (g : MapGraph) (m : WmMem) : Prop where
  le : ∀ v, m.ids v ≤ v
  conn : ∀ v, Walk.Conn g.Edge v (m.ids v)
  active : ∀ v, m.frontier.isIn v = true → v < g.vertexCount

/-- What the locals of a call say in a map that was started from `m₁`. -/
def MinCall.Ok (g : MapGraph) (m₁ m : WmMem) (src dst : VId) : MinCall → Prop
  | .loadSrc s d => s = src ∧ d = dst
  | .loadDst x d => d = dst ∧ Walk.Conn g.Edge src x
  | .cas x cur _ d => d = dst ∧ Walk.Conn g.Edge src x ∧ x < cur ∧ m.ids dst ≤ cur
  | .check _ d => d = dst ∧ m.ids dst < m₁.ids dst

/-- The memory after a step of a map: labels have gone down, the rest is the same. -/
structure WmLower (m m' : WmMem) : Prop where
  ids : ∀ v, m'.ids v ≤ m.ids v
  prevIds : m'.prevIds = m.prevIds
  frontier : m'.frontier = m.frontier
  phase : m'.phase = m.phase

variable {g : MapGraph} {m₁ m m' : WmMem}

theorem WmLower.refl (m : WmMem) : WmLower m m := ⟨fun _ => le_rfl, rfl, rfl, rfl⟩

theorem WmLower.trans {m'' : WmMem} (h : WmLower m m') (h' : WmLower m' m'') : WmLower m m'' :=
  ⟨fun v => (h'.ids v).trans (h.ids v), h'.prevIds.trans h.prevIds, h'.frontier.trans h.frontier,
    h'.phase.trans h.phase⟩

variable {src dst : VId}

variable {r : MinCall}

theorem MinCall.Ok.mono (h : r.Ok g m₁ m src dst) (hm : WmLower m m') : r.Ok g m₁ m' src dst := by
  cases r with
  | loadSrc s d => exact h
  | loadDst x d => exact h
  | cas x cur orig d => exact ⟨h.1, h.2.1, h.2.2.1, (hm.ids dst).trans h.2.2.2⟩
  | check orig d => exact ⟨h.1, (hm.ids dst).trans_lt h.2⟩

/-- What the steps inside a call can do: only the compare-and-swap writes. -/
theorem wccMin_inner {r r' : MinCall} (h : wccMinFunctor.next m r = (m', .inl r')) :
    (∃ src dst, r = .loadSrc src dst ∧ m' = m ∧ r' = .loadDst (m.ids src) dst) ∨
    (∃ x dst, r = .loadDst x dst ∧ x < m.ids dst ∧ m' = m ∧
      r' = .cas x (m.ids dst) (m.ids dst) dst) ∨
    (∃ x cur orig dst, r = .cas x cur orig dst ∧ m.ids dst ≠ cur ∧ x < m.ids dst ∧ m' = m ∧
      r' = .cas x (m.ids dst) orig dst) ∨
    ∃ x orig dst, r = .cas x (m.ids dst) orig dst ∧
      m' = { m with ids := update m.ids dst x } ∧ r' = .check orig dst := by
  cases r with
  | loadSrc src dst =>
    cases h
    exact .inl ⟨src, dst, rfl, rfl, rfl⟩
  | loadDst x dst =>
    simp only [wccMinFunctor] at h
    split_ifs at h with hge
    · cases h
    · cases h
      exact .inr (.inl ⟨x, dst, rfl, Nat.not_le.1 hge, rfl, rfl⟩)
  | cas x cur orig dst =>
    simp only [wccMinFunctor] at h
    split_ifs at h with heq hlt
    · cases h
      exact .inr (.inr (.inr ⟨x, orig, dst, by rw [heq], rfl, rfl⟩))
    · cases h
      exact .inr (.inr (.inl ⟨x, cur, orig, dst, rfl, heq, hlt, rfl, rfl⟩))
    · cases h
  | check orig dst => cases h

/-- How a call can return. -/
theorem wccMin_ret {b : Bool} (h : wccMinFunctor.next m r = (m', .inr b)) :
    m' = m ∧ ((∃ x dst, r = .loadDst x dst ∧ m.ids dst ≤ x ∧ b = false) ∨
      (∃ x cur orig dst, r = .cas x cur orig dst ∧ m.ids dst ≤ x ∧ b = false) ∨
      ∃ orig dst, r = .check orig dst ∧ b = decide (orig = m.prevIds dst)) := by
  cases r with
  | loadSrc src dst => cases h
  | loadDst x dst =>
    simp only [wccMinFunctor] at h
    split_ifs at h with hge
    · cases h
      exact ⟨rfl, .inl ⟨x, dst, rfl, hge, rfl⟩⟩
    · cases h
  | cas x cur orig dst =>
    simp only [wccMinFunctor] at h
    split_ifs at h with heq hlt
    · cases h
    · cases h
    · cases h
      exact ⟨rfl, .inr (.inl ⟨x, cur, orig, dst, rfl, Nat.not_lt.1 hlt, rfl⟩)⟩
  | check orig dst =>
    cases h
    exact ⟨rfl, .inr (.inr ⟨orig, dst, rfl, rfl⟩)⟩

/-- The compare-and-swap lowers the label of the destination. -/
theorem WmLower.cas {dst x : VId} (hlt : x < m.ids dst) :
    WmLower m { m with ids := update m.ids dst x } := by
  refine ⟨fun v => ?_, rfl, rfl, rfl⟩
  show update m.ids dst x v ≤ m.ids v
  by_cases hv : v = dst
  · rw [hv, update_self]
    exact hlt.le
  · rw [update_of_ne hv]

theorem MinCall.Ok.inner {src dst : VId} {r r' : MinCall} (h : r.Ok g m₁ m src dst)
    (hb : WmBasic g m) (hm : WmLower m₁ m) (hpair : Walk.Conn g.Edge src dst)
    (hnext : wccMinFunctor.next m r = (m', .inl r')) :
    WmBasic g m' ∧ WmLower m m' ∧ r'.Ok g m₁ m' src dst := by
  rcases wccMin_inner hnext with ⟨s, d, rfl, rfl, rfl⟩ | ⟨x, d, rfl, hlt, rfl, rfl⟩ |
    ⟨x, cur, orig, d, rfl, hne, hlt, rfl, rfl⟩ | ⟨x, orig, d, rfl, rfl, rfl⟩
  · obtain ⟨rfl, rfl⟩ := h
    exact ⟨hb, .refl _, rfl, hb.conn s⟩
  · obtain ⟨rfl, hconn⟩ := h
    exact ⟨hb, .refl _, rfl, hconn, hlt, le_rfl⟩
  · obtain ⟨rfl, hconn, -, -⟩ := h
    exact ⟨hb, .refl _, rfl, hconn, hlt, le_rfl⟩
  · obtain ⟨rfl, hconn, hlt, -⟩ := h
    have hself : update m.ids d x d = x := update_self _ _ _
    have hlow : WmLower m { m with ids := update m.ids d x } := .cas hlt
    refine ⟨⟨fun v => (hlow.ids v).trans (hb.le v), fun v => ?_, hb.active⟩, hlow, rfl, ?_⟩
    · show Walk.Conn g.Edge v (update m.ids d x v)
      by_cases hv : v = d
      · rw [hv, hself]
        exact hpair.symm.trans hconn
      · rw [update_of_ne hv]
        exact hb.conn v
    · show update m.ids d x d < m₁.ids d
      rw [hself]
      exact hlt.trans_le (hm.ids d)

namespace WmTask

/-- The pairs that a task has left. -/
def left : WmTask → List (VId × VId)
  | .sync _ _ => []
  | .edge t => t.left

/-- What holds of a task of a map that was started from `m₁`. -/
def EdgeOk (g : MapGraph) (m₁ m : WmMem) : WmTask → Prop
  | .sync _ _ => False
  | .edge t => (∀ p ∈ t.left, p.1 < g.vertexCount ∧ p.2 < g.vertexCount ∧
      Walk.Conn g.Edge p.1 p.2) ∧
    (∀ src dst r, t.call = some (src, dst, r) → r.Ok g m₁ m src dst) ∧
    ∀ v ∈ t.marked, v < g.vertexCount ∧ m.ids v < m₁.ids v

theorem EdgeOk.mono {t : WmTask} (h : t.EdgeOk g m₁ m) (hm : WmLower m m') : t.EdgeOk g m₁ m' := by
  cases t with
  | sync v pc => exact h
  | edge t =>
    obtain ⟨h1, h2, h3⟩ := h
    exact ⟨h1, fun src dst r hc => (h2 src dst r hc).mono hm,
      fun v hv => ⟨(h3 v hv).1, (hm.ids v).trans_lt (h3 v hv).2⟩⟩

end WmTask

/-- What holds in a map that was started from `m₁`. -/
structure WmEdges (g : MapGraph) (m₁ m : WmMem) (ts : List WmTask) : Prop where
  basic : WmBasic g m
  lower : WmLower m₁ m
  tasks : ∀ t ∈ ts, t.EdgeOk g m₁ m

variable {ts : List WmTask} {i : Nat}

theorem WmEdges.next (h : WmEdges g m₁ m ts) {t t' : MapTask MinCall} (ht : ts[i]? = some (.edge t))
    (hnext : edgeMapNext wccMinFunctor m.frontier.isIn m t = some (m', t')) :
    WmEdges g m₁ m' (ts.set i (.edge t')) ∧ WmLower m m' := by
  obtain ⟨hleft, hcall, hmarked⟩ := h.tasks _ (mem_of_getElem? ht)
  cases edgeMapNext_step (fun _ _ => rfl) hnext with
  | idle call call' keep sub marked =>
    refine ⟨⟨h.basic, h.lower, forall_mem_set h.tasks
      ⟨fun p hp => hleft p (sub hp), fun src dst r hc => ?_, ?_⟩⟩, .refl _⟩
    · rw [call'] at hc
      cases hc
    · rw [marked]
      exact hmarked
  | start call call' left marked =>
    refine ⟨⟨h.basic, h.lower, forall_mem_set h.tasks
      ⟨fun p hp => hleft p (left ▸ hp), fun src dst r hc => ?_, ?_⟩⟩, .refl _⟩
    · rw [call'] at hc
      cases hc
      exact ⟨rfl, rfl⟩
    · rw [marked]
      exact hmarked
  | @inner _ _ src dst r r' call next call' left marked =>
    have hmem := hleft _ (MapTask.call_mem_left call)
    obtain ⟨hb, hm, hok⟩ := (hcall src dst r call).inner h.basic h.lower hmem.2.2 next
    refine ⟨⟨hb, h.lower.trans hm, forall_mem_set (fun u hu => (h.tasks u hu).mono hm)
      ⟨fun p hp => hleft p (left ▸ hp), fun src' dst' r'' hc => ?_, fun v hv => ?_⟩⟩, hm⟩
    · rw [call'] at hc
      cases hc
      exact hok
    · obtain ⟨h1, h2⟩ := hmarked v (marked ▸ hv)
      exact ⟨h1, (hm.ids v).trans_lt h2⟩
  | @ret _ _ src dst r b call next call' keep sub marked =>
    obtain ⟨rfl, hret⟩ := wccMin_ret next
    refine ⟨⟨h.basic, h.lower, forall_mem_set h.tasks
      ⟨fun p hp => hleft p (sub hp), fun src' dst' r' hc => ?_, fun v hv => ?_⟩⟩, .refl _⟩
    · rw [call'] at hc
      cases hc
    · rw [marked] at hv
      cases b with
      | false => exact hmarked v hv
      | true =>
        rcases mem_append.1 hv with hv | hv
        · exact hmarked v hv
        · rw [mem_singleton.1 hv]
          refine ⟨(hleft _ (MapTask.call_mem_left call)).2.1, ?_⟩
          rcases hret with ⟨x, d, -, -, hb⟩ | ⟨x, cur, orig, d, -, -, hb⟩ | ⟨orig, d, rfl, -⟩
          · cases hb
          · cases hb
          · exact (hcall src dst _ call).2

/-- What holds of a task of the copying of the labels. -/
def WmTask.SyncOk (g : MapGraph) (m : WmMem) : WmTask → Prop
  | .sync v pc => v < g.vertexCount ∧ ∀ id, pc = .store id → id = m.ids v
  | .edge _ => False

/-- What holds in the copying of the labels. -/
structure WmSync (g : MapGraph) (m₁ m : WmMem) (ts : List WmTask) : Prop where
  running : m₁.frontier.numNonZeros g.vertexCount ≠ 0
  ids : m.ids = m₁.ids
  frontier : m.frontier = m₁.frontier
  phase : m.phase = m₁.phase
  tasks : ∀ t ∈ ts, t.SyncOk g m

variable {v : VId}

variable {pc pc' : SyncPc}

/-- A step of the copying writes the label of a vertex, or nothing. -/
theorem WmSync.next (h : WmSync g m₁ m ts) (ht : ts[i]? = some (.sync v pc))
    (hnext : wccSyncNext m v pc = some (m', pc')) :
    WmSync g m₁ m' (ts.set i (.sync v pc')) ∧
      (pc = .load ∧ m' = m ∧ pc' = .store (m.ids v) ∨
        pc' = .finished ∧ m' = { m with prevIds := update m.prevIds v (m.ids v) }) := by
  obtain ⟨hv, hid⟩ := h.tasks _ (mem_of_getElem? ht)
  cases pc with
  | load =>
    cases hnext
    refine ⟨⟨h.running, h.ids, h.frontier, h.phase, forall_mem_set h.tasks ⟨hv, ?_⟩⟩,
      .inl ⟨rfl, rfl, rfl⟩⟩
    intro id hid
    cases hid
    rfl
  | store id =>
    cases hnext
    obtain rfl := hid id rfl
    refine ⟨⟨h.running, h.ids, h.frontier, h.phase,
      forall_mem_set (fun u hu => ?_) ⟨hv, fun id hid => ?_⟩⟩, .inr ⟨rfl, rfl⟩⟩
    · have hok := h.tasks u hu
      cases u with
      | sync w pc => exact hok
      | edge t => exact hok
    · cases hid
  | finished => cases hnext

/-- What the pages have marked are vertices. -/
def WmMem.NextOk (g : MapGraph) (m : WmMem) : Prop :=
  ∀ next, m.phase = .giants next → ∀ v ∈ next, v < g.vertexCount

/-- What holds between the parallel parts. -/
structure WmHead (g : MapGraph) (m : WmMem) : Prop where
  basic : WmBasic g m
  next : m.NextOk g

/-- What holds in a parallel part. -/
def WmSection (g : MapGraph) (m₁ m : WmMem) (ts : List WmTask) : Prop :=
  match m₁.phase with
  | .sync => WmSync g m₁ m ts
  | .edges => WmEdges g m₁ m ts
  | .giants _ => WmEdges g m₁ m ts

variable {tasks : List (MapTask MinCall)}

/-- The start of a map. -/
theorem WmEdges.init (hg : g.Ok) (hm : WmBasic g m₁)
    (htasks : ∀ t ∈ tasks, t.call = none ∧ t.marked = [] ∧
      ∀ p ∈ t.left, g.Edge p.1 p.2 ∨ g.Edge p.2 p.1) : WmEdges g m₁ m₁ (tasks.map WmTask.edge) := by
  refine ⟨hm, .refl _, fun t ht => ?_⟩
  obtain ⟨t, hmem, rfl⟩ := mem_map.1 ht
  refine ⟨fun p hp => ?_, fun src dst r hc => ?_, fun v hv => ?_⟩
  · rcases (htasks t hmem).2.2 p hp with he | he
    · exact ⟨he.1, hg.lt _ he.1 _ he.2, .edge he⟩
    · exact ⟨hg.lt _ he.1 _ he.2, he.1, Walk.Conn.symm (.edge he)⟩
  · rw [(htasks t hmem).1] at hc
    cases hc
  · rw [(htasks t hmem).2.1] at hv
    cases hv

variable {thresholdDivisor : Nat} {t t' : WmTask}

theorem WmSection.fork (hg : g.Ok) (hm : WmHead g m₁)
    (hfork : (wccMap g thresholdDivisor).fork m₁ = some (m, ts)) : WmSection g m₁ m ts := by
  have hactive : ∀ v ∈ m₁.frontier.toSparse g.vertexCount, v < g.vertexCount :=
    fun v hv => hm.basic.active v ((VertexSubset.mem_toSparse hm.basic.active).1 hv)
  unfold WmSection
  cases hphase : m₁.phase with
  | sync =>
    simp only [wccMap, hphase] at hfork
    split_ifs at hfork with hzero
    cases hfork
    refine ⟨hzero, rfl, rfl, rfl, fun t ht => ?_⟩
    obtain ⟨v, hv, rfl⟩ := mem_map.1 ht
    exact ⟨hactive v hv, fun id hid => nomatch hid⟩
  | edges =>
    simp only [wccMap, hphase] at hfork
    cases hfork
    refine WmEdges.init hg hm.basic (hg.tasks hactive ?_)
    split_ifs
    · exact .inl rfl
    · exact .inr (.inr rfl)
  | giants next =>
    simp only [wccMap, hphase] at hfork
    cases hfork
    exact WmEdges.init hg hm.basic (hg.tasks hactive (.inr (.inl rfl)))

theorem WmSection.next (h : WmSection g m₁ m ts) (ht : ts[i]? = some t)
    (hnext : (wccMap g thresholdDivisor).next m t = some (m', t')) :
    WmSection g m₁ m' (ts.set i t') := by
  have hedges : WmEdges g m₁ m ts → WmEdges g m₁ m' (ts.set i t') := by
    intro h
    cases t with
    | sync v pc => exact (h.tasks _ (mem_of_getElem? ht)).elim
    | edge t =>
      obtain ⟨⟨m2, t2⟩, hstep, heq⟩ := map_eq_some_iff.1 hnext
      cases heq
      exact (h.next ht hstep).1
  unfold WmSection at h ⊢
  cases hphase : m₁.phase with
  | sync =>
    rw [hphase] at h
    cases t with
    | sync v pc =>
      obtain ⟨⟨m2, pc'⟩, hstep, heq⟩ := map_eq_some_iff.1 hnext
      cases heq
      exact (WmSync.next h ht hstep).1
    | edge t => exact (h.tasks _ (mem_of_getElem? ht)).elim
  | edges =>
    rw [hphase] at h
    exact hedges h
  | giants next =>
    rw [hphase] at h
    exact hedges h

/-- What a map has marked has been lowered. -/
theorem WmEdges.mem_output (h : WmEdges g m₁ m ts) (hv : v ∈ wmOutput ts) :
    v < g.vertexCount ∧ m.ids v < m₁.ids v := by
  obtain ⟨t, ht, hv⟩ := mem_flatMap.1 hv
  have hok := h.tasks t ht
  cases t with
  | sync w pc => cases hv
  | edge t => exact hok.2.2 v hv

theorem WmSection.join (hm : WmHead g m₁) (h : WmSection g m₁ m ts) :
    WmHead g ((wccMap g thresholdDivisor).join m ts) := by
  unfold WmSection at h
  cases hphase : m₁.phase with
  | sync =>
    simp only [hphase] at h
    have hp : m.phase = .sync := h.phase.trans hphase
    simp only [wccMap, hp]
    refine ⟨⟨?_, ?_, ?_⟩, fun next hn => nomatch hn⟩
    · rw [h.ids]
      exact hm.basic.le
    · rw [h.ids]
      exact hm.basic.conn
    · rw [h.frontier]
      exact hm.basic.active
  | edges =>
    simp only [hphase] at h
    have hp : m.phase = .edges := h.lower.phase.trans hphase
    simp only [wccMap, hp]
    split_ifs
    · refine ⟨⟨h.basic.le, h.basic.conn, h.basic.active⟩, fun next hn v hv => ?_⟩
      cases hn
      exact (h.mem_output hv).1
    · refine ⟨⟨h.basic.le, h.basic.conn, fun v hv => ?_⟩, fun next hn => nomatch hn⟩
      exact (h.mem_output (mem_of_mem_take (decide_eq_true_iff.1 hv))).1
  | giants next =>
    simp only [hphase] at h
    have hp : m.phase = .giants next := h.lower.phase.trans hphase
    simp only [wccMap, hp]
    refine ⟨⟨h.basic.le, h.basic.conn, fun v hv => ?_⟩, fun next hn => nomatch hn⟩
    rcases mem_append.1 (decide_eq_true_iff.1 hv) with hv | hv
    · exact hm.next next hphase v hv
    · exact (h.mem_output hv).1

/-- A bound of the steps that a call has left. -/
def MinCall.rank (n : Nat) : MinCall → Nat
  | .loadSrc _ _ => n + 2
  | .loadDst _ _ => n + 1
  | .cas _ cur _ _ => cur + 1
  | .check _ _ => 0

/-- A measure of the steps that a task has left. -/
def WmTask.rank (n : Nat) : WmTask → Nat
  | .sync _ .load => 2
  | .sync _ (.store _) => 1
  | .sync _ .finished => 0
  | .edge t => t.rank (n + 2) (MinCall.rank n)

theorem MinCall.Ok.rank_lt {r r' : MinCall} (h : r.Ok g m₁ m src dst) (hb : WmBasic g m)
    (hdst : dst < g.vertexCount) (hnext : wccMinFunctor.next m r = (m', .inl r')) :
    r'.rank g.vertexCount < r.rank g.vertexCount := by
  rcases wccMin_inner hnext with ⟨s, d, rfl, -, rfl⟩ | ⟨x, d, rfl, -, -, rfl⟩ |
    ⟨x, cur, orig, d, rfl, hne, -, -, rfl⟩ | ⟨x, orig, d, rfl, -, rfl⟩
  · exact lt_succ_self _
  · obtain ⟨rfl, -⟩ := h
    exact succ_lt_succ ((hb.le d).trans_lt hdst)
  · obtain ⟨rfl, -, -, hle⟩ := h
    exact succ_lt_succ (Nat.lt_of_le_of_ne hle hne)
  · exact succ_pos _

theorem WmSection.rank_lt (h : WmSection g m₁ m ts) (ht : t ∈ ts)
    (hnext : (wccMap g thresholdDivisor).next m t = some (m', t')) :
    t'.rank g.vertexCount < t.rank g.vertexCount := by
  cases t with
  | sync v pc =>
    obtain ⟨⟨m2, pc'⟩, hstep, heq⟩ := map_eq_some_iff.1 hnext
    cases heq
    cases pc with
    | finished => cases hstep
    | _ =>
      cases hstep
      simp [WmTask.rank]
  | edge t =>
    obtain ⟨⟨m2, t2⟩, hstep, heq⟩ := map_eq_some_iff.1 hnext
    cases heq
    have hedges : WmEdges g m₁ m ts := by
      unfold WmSection at h
      cases hphase : m₁.phase with
      | sync =>
        rw [hphase] at h
        exact (h.tasks _ ht).elim
      | _ =>
        rw [hphase] at h
        exact h
    obtain ⟨hleft, hcall, -⟩ := hedges.tasks _ ht
    refine edgeMapNext_rank (fun p _ => le_rfl) (fun src dst r m2 r' hc hn => ?_) hstep
    have hmem := hleft _ (MapTask.call_mem_left hc)
    exact (hcall src dst r hc).rank_lt hedges.basic hmem.2.1 hn

/-- How far the phase is from the end, when no label changes any more. -/
def WmMem.weight (n : Nat) (m : WmMem) : Nat :=
  match m.phase with
  | .sync => if m.frontier.numNonZeros n = 0 then 0 else 3
  | .edges => 2
  | .giants next => if next = [] then 1 else 4

/-- The sum of the labels, then the phase. -/
def WmMem.size (n : Nat) (m : WmMem) : Nat := labelSize n m.ids (m.weight n)

theorem WmSection.size_lt (h : WmSection g m₁ m ts) :
    ((wccMap g thresholdDivisor).join m ts).size g.vertexCount < m₁.size g.vertexCount := by
  unfold WmSection at h
  cases hphase : m₁.phase with
  | sync =>
    simp only [hphase] at h
    have hp : m.phase = .sync := h.phase.trans hphase
    simp only [wccMap, hp]
    refine labelSize_lt (fun v => (congrFun h.ids v).le) (.inr ?_)
    simp [WmMem.weight, hphase, h.running]
  | edges =>
    simp only [hphase] at h
    have hp : m.phase = .edges := h.lower.phase.trans hphase
    have hw : m₁.weight g.vertexCount = 2 := by simp [WmMem.weight, hphase]
    simp only [wccMap, hp]
    split_ifs
    · refine labelSize_lt h.lower.ids ?_
      rw [hw]
      by_cases hout : wmOutput ts = []
      · exact .inr (by simp [WmMem.weight, hout])
      · obtain ⟨v, hv⟩ := exists_mem_of_ne_nil _ hout
        exact .inl ⟨⟨v, h.mem_output hv⟩, by simp [WmMem.weight, hout]⟩
    · refine labelSize_lt h.lower.ids ?_
      rw [hw]
      unfold WmMem.weight
      dsimp only
      split_ifs with hzero
      · exact .inr (by decide)
      · obtain ⟨v, hv⟩ := VertexSubset.exists_of_numNonZeros hzero
        have hmem := mem_of_mem_take (decide_eq_true_iff.1 hv)
        exact .inl ⟨⟨v, h.mem_output hmem⟩, by decide⟩
  | giants next =>
    simp only [hphase] at h
    have hp : m.phase = .giants next := h.lower.phase.trans hphase
    have hw : m₁.weight g.vertexCount = if next = [] then 1 else 4 := by
      simp [WmMem.weight, hphase]
    simp only [wccMap, hp]
    refine labelSize_lt h.lower.ids ?_
    rw [hw]
    unfold WmMem.weight
    dsimp only
    by_cases hnext : next = []
    · rw [if_pos hnext]
      split_ifs with hzero
      · exact .inr (by decide)
      · obtain ⟨v, hv⟩ := VertexSubset.exists_of_numNonZeros hzero
        have hmem : v ∈ next ++ wmOutput ts := decide_eq_true_iff.1 hv
        rw [hnext] at hmem
        exact .inl ⟨⟨v, h.mem_output hmem⟩, by decide⟩
    · rw [if_neg hnext]
      refine .inr ?_
      split_ifs
      · decide
      · decide

theorem wccMap_variant (hg : g.Ok) (thresholdDivisor : Nat) :
    (wccMap g thresholdDivisor).Variant (WmHead g) (WmSection g) (WmTask.rank g.vertexCount)
      (WmMem.size g.vertexCount) :=
  ⟨⟨fun _ _ _ hm hf => .fork hg hm hf, fun _ _ _ _ _ _ _ h ht hnext => h.next ht hnext,
    fun _ _ _ hm h _ => h.join hm⟩, fun _ _ _ _ _ _ h ht hnext => h.rank_lt ht hnext,
    fun _ _ _ _ h _ => h.size_lt⟩

theorem WmHead.init (g : MapGraph) : WmHead g (wccMapStart g.vertexCount) :=
  ⟨⟨fun _ => le_rfl, fun v => .refl v, fun _ hv => decide_eq_true_iff.1 hv⟩,
    fun _ hn => nomatch hn⟩

/-! ## Runs that skip no lower label -/

/-- The label was lowered in this round. -/
def WmMem.Lowered (m : WmMem) (v : VId) : Prop := m.ids v < m.prevIds v

/-- The label of the source has arrived, or the source is active in the next round. -/
def WmMem.Settled (m : WmMem) (src dst : VId) : Prop := m.ids dst ≤ m.ids src ∨ m.Lowered src

/-- A dense task that is about to stop at an update skips no lower label for good. -/
def WmTask.SkipsOk (m : WmMem) : WmTask → Prop
  | .sync _ _ => True
  | .edge t => ∀ src dst, t.call = some (src, dst, .check (m.prevIds dst) dst) →
    ∀ p ∈ t.skipped, m.frontier.isIn p.1 = true → m.Settled p.1 p.2

/-- The condition on a step: what a dense task skips is settled, and the output of a sparse map has
a 32-bit size. -/
def WmStepOk (g : MapGraph) (thresholdDivisor : Nat) :
    ForkJoin.State WmMem WmTask → Option Nat → Prop
  | .head _, _ => True
  | .body m ts, some i => ∀ t, ts[i]? = some t → t.SkipsOk m
  | .body m ts, none =>
    g.usesDense thresholdDivisor (m.frontier.numNonZeros g.vertexCount) = false →
      (wmOutput ts).length < 2 ^ 32

instance (m : WmMem) (src dst : VId) : Decidable (m.Settled src dst) :=
  inferInstanceAs (Decidable (m.ids dst ≤ m.ids src ∨ m.ids src < m.prevIds src))

instance (m : WmMem) (t : WmTask) : Decidable (t.SkipsOk m) :=
  match t with
  | .sync _ _ => .isTrue trivial
  | .edge t =>
    decidable_of_iff (∀ c ∈ t.call, c.2.2 = .check (m.prevIds c.2.1) c.2.1 →
        ∀ p ∈ t.skipped, m.frontier.isIn p.1 = true → m.Settled p.1 p.2)
      ⟨fun h src dst hc => h (src, dst, _) hc rfl,
        fun h c hc heq => h c.1 c.2.1 (heq ▸ hc)⟩

instance (g : MapGraph) (thresholdDivisor : Nat) (st : ForkJoin.State WmMem WmTask)
    (e : Option Nat) : Decidable (WmStepOk g thresholdDivisor st e) :=
  match st, e with
  | .head _, _ => .isTrue trivial
  | .body m ts, some i =>
    decidable_of_iff (∀ t ∈ ts[i]?, t.SkipsOk m) ⟨fun h t ht => h t ht, fun h t ht => h t ht⟩
  | .body m ts, none =>
    inferInstanceAs (Decidable (g.usesDense thresholdDivisor
      (m.frontier.numNonZeros g.vertexCount) = false → (wmOutput ts).length < 2 ^ 32))

/-- What the locals of a call say about the labels of its ends. -/
def MinCall.Keeps (m : WmMem) (src dst : VId) : MinCall → Prop
  | .loadSrc _ _ => True
  | .loadDst x _ => m.ids src = x ∨ m.Lowered src
  | .cas x cur orig _ => (m.ids src = x ∨ m.Lowered src) ∧ cur ≤ orig ∧ orig ≤ m.prevIds dst
  | .check _ _ => m.Settled src dst

namespace WmTask

/-- What the call of a task says about the labels. -/
def Keeps (m : WmMem) : WmTask → Prop
  | .sync _ _ => True
  | .edge t => ∀ src dst r, t.call = some (src, dst, r) → r.Keeps m src dst

/-- The task has marked the vertex, or will with its next step. -/
def Marks (m : WmMem) (v : VId) : WmTask → Prop
  | .sync _ _ => False
  | .edge t => v ∈ t.marked ∨ ∃ src, t.call = some (src, v, .check (m.prevIds v) v)

end WmTask

theorem WmLower.lowered (hm : WmLower m m') (h : m.Lowered v) : m'.Lowered v := by
  show m'.ids v < m'.prevIds v
  rw [hm.prevIds]
  exact (hm.ids v).trans_lt h

/-- A label that is not lowered keeps its value. -/
theorem WmLower.eq_or_lowered (hm : WmLower m m') (hlow : m.ids v ≤ m.prevIds v) :
    m'.ids v = m.ids v ∨ m'.Lowered v := by
  rcases (hm.ids v).lt_or_eq with hlt | heq
  · refine .inr ?_
    show m'.ids v < m'.prevIds v
    rw [hm.prevIds]
    exact hlt.trans_le hlow
  · exact .inl heq

theorem WmLower.settled (hm : WmLower m m') (hlow : m.ids src ≤ m.prevIds src)
    (h : m.Settled src dst) : m'.Settled src dst := by
  rcases h with hle | hl
  · rcases hm.eq_or_lowered hlow with heq | hl
    · refine .inl ?_
      rw [heq]
      exact (hm.ids dst).trans hle
    · exact .inr hl
  · exact .inr (hm.lowered hl)

theorem MinCall.Keeps.mono (h : r.Keeps m src dst) (hm : WmLower m m')
    (hlow : m.ids src ≤ m.prevIds src) : r.Keeps m' src dst := by
  have hsrc : ∀ x, m.ids src = x ∨ m.Lowered src → m'.ids src = x ∨ m'.Lowered src := by
    intro x hx
    rcases hx with rfl | hl
    · exact hm.eq_or_lowered hlow
    · exact .inr (hm.lowered hl)
  cases r with
  | loadSrc s d => trivial
  | loadDst x d => exact hsrc x h
  | cas x cur orig d => exact ⟨hsrc x h.1, h.2.1, hm.prevIds ▸ h.2.2⟩
  | check orig d => exact hm.settled hlow h

/-- What holds of the labels in a map over `pairs`, after `next` was marked before it. -/
structure WmTrack (g : MapGraph) (pairs : VId → VId → Prop) (next : List VId) (m : WmMem)
    (ts : List WmTask) : Prop where
  low : ∀ v, m.ids v ≤ m.prevIds v
  lowered : ∀ v, m.Lowered v → v ∈ next ∨ ∃ t ∈ ts, t.Marks m v
  covered : ∀ src dst, pairs src dst → m.frontier.isIn src = true →
    m.Settled src dst ∨ ∃ t ∈ ts, (src, dst) ∈ t.left
  calls : ∀ t ∈ ts, t.Keeps m
  stable : ∀ u v, g.Edge u v → m.prevIds v ≤ m.prevIds u ∨ m.frontier.isIn u = true

variable {pairs : VId → VId → Prop}

/-- A step of one task, by what it does to the task and to the labels. -/
theorem WmTrack.step {next : List VId} (h : WmTrack g pairs next m ts) (ht : ts[i]? = some t)
    (hm : WmLower m m') (hnew : ∀ v, m'.Lowered v → ¬ m.Lowered v → t'.Marks m' v)
    (hmarks : ∀ v, t.Marks m v → t'.Marks m' v)
    (hleft : ∀ p ∈ t.left, m.frontier.isIn p.1 = true → p ∈ t'.left ∨ m'.Settled p.1 p.2)
    (hcalls : t'.Keeps m') : WmTrack g pairs next m' (ts.set i t') := by
  refine ⟨fun v => ?_, fun v hv => ?_, fun src dst hp hin => ?_,
    forall_mem_set (fun u hu => ?_) hcalls, fun u v huv => ?_⟩
  · rw [hm.prevIds]
    exact (hm.ids v).trans (h.low v)
  · by_cases hv' : m.Lowered v
    · rcases h.lowered v hv' with hn | hex
      · exact .inl hn
      · rcases exists_mem_set t' ht hex with ⟨u, hu, hmk⟩ | hmk
        · refine .inr ⟨u, hu, ?_⟩
          cases u with
          | sync w pc => exact hmk
          | edge u =>
            unfold WmTask.Marks at hmk ⊢
            rw [hm.prevIds]
            exact hmk
        · exact .inr ⟨t', mem_set_self t' ht, hmarks v hmk⟩
    · exact .inr ⟨t', mem_set_self t' ht, hnew v hv hv'⟩
  · rw [hm.frontier] at hin
    rcases h.covered src dst hp hin with hs | hex
    · exact .inl (hm.settled (h.low src) hs)
    · rcases exists_mem_set t' ht hex with hex | hmem
      · exact .inr hex
      · rcases hleft _ hmem hin with hmem | hs
        · exact .inr ⟨t', mem_set_self t' ht, hmem⟩
        · exact .inl hs
  · have hk := h.calls u hu
    cases u with
    | sync w pc => trivial
    | edge u => exact fun src dst r hc => (hk src dst r hc).mono hm (h.low src)
  · rw [hm.prevIds, hm.frontier]
    exact h.stable u v huv

/-- What a step inside a call says about the labels. -/
theorem MinCall.Keeps.inner {src dst : VId} {r r' : MinCall} (h : r.Keeps m src dst)
    (hok : r.Ok g m₁ m src dst) (hlow : ∀ v, m.ids v ≤ m.prevIds v)
    (hnext : wccMinFunctor.next m r = (m', .inl r')) :
    r'.Keeps m' src dst ∧
      ∀ v, m'.Lowered v → ¬ m.Lowered v → v = dst ∧ r' = .check (m'.prevIds dst) dst := by
  rcases wccMin_inner hnext with ⟨s, d, rfl, rfl, rfl⟩ | ⟨x, d, rfl, hlt, rfl, rfl⟩ |
    ⟨x, cur, orig, d, rfl, hne, hlt, rfl, rfl⟩ | ⟨x, orig, d, rfl, rfl, rfl⟩
  · obtain ⟨rfl, rfl⟩ := hok
    exact ⟨.inl rfl, fun v hv hv' => absurd hv hv'⟩
  · obtain ⟨rfl, -⟩ := hok
    exact ⟨⟨h, le_rfl, hlow d⟩, fun v hv hv' => absurd hv hv'⟩
  · obtain ⟨rfl, -, -, hle⟩ := hok
    exact ⟨⟨h.1, hle.trans h.2.1, h.2.2⟩, fun v hv hv' => absurd hv hv'⟩
  · obtain ⟨rfl, -, hlt, -⟩ := hok
    obtain ⟨hsrc, hcur, horig⟩ := h
    have hself : update m.ids d x d = x := update_self _ _ _
    have hm : WmLower m { m with ids := update m.ids d x } := .cas hlt
    refine ⟨?_, fun v hv hv' => ?_⟩
    · rcases hsrc with hx | hl
      · refine .inl ?_
        show update m.ids d x d ≤ update m.ids d x src
        by_cases hs : src = d
        · rw [hs]
        · rw [hself, update_of_ne hs, hx]
      · exact .inr (hm.lowered hl)
    · have hvd : v = d := by
        by_contra hne
        have hv : update m.ids d x v < m.prevIds v := hv
        rw [update_of_ne hne] at hv
        exact hv' hv
      subst hvd
      -- the first change of the round was tried from the label at its start
      have hstart : m.prevIds v ≤ m.ids v := Nat.not_lt.1 hv'
      have heq : orig = m.prevIds v := le_antisymm horig (hstart.trans hcur)
      exact ⟨rfl, by rw [heq]⟩

theorem WmTrack.next {next : List VId} (h : WmTrack g pairs next m ts) (he : WmEdges g m₁ m ts)
    {t t' : MapTask MinCall} (ht : ts[i]? = some (.edge t)) (hskip : (WmTask.edge t).SkipsOk m)
    (hnext : edgeMapNext wccMinFunctor m.frontier.isIn m t = some (m', t')) :
    WmTrack g pairs next m' (ts.set i (.edge t')) := by
  have hm := (he.next ht hnext).2
  have hcall := (he.tasks _ (mem_of_getElem? ht)).2.1
  have hkeeps := h.calls _ (mem_of_getElem? ht)
  cases edgeMapNext_step (fun _ _ => rfl) hnext with
  | idle call call' keep sub marked =>
    refine h.step ht hm (fun v hv hv' => absurd hv hv') (fun v hv => ?_)
      (fun p hp hin => .inl (keep p hp hin)) fun src dst r hc => ?_
    · rcases hv with hv | ⟨src, hc⟩
      · exact .inl (marked ▸ hv)
      · rw [call] at hc
        cases hc
    · rw [call'] at hc
      cases hc
  | start call call' left marked =>
    refine h.step ht hm (fun v hv hv' => absurd hv hv') (fun v hv => ?_)
      (fun p hp _ => .inl ?_) fun src dst r hc => ?_
    · rcases hv with hv | ⟨src, hc⟩
      · exact .inl (marked ▸ hv)
      · rw [call] at hc
        cases hc
    · show p ∈ t'.left
      rw [left]
      exact hp
    · rw [call'] at hc
      cases hc
      trivial
  | @inner _ _ src dst r r' call next call' left marked =>
    obtain ⟨hk, hnew⟩ := (hkeeps src dst r call).inner (hcall src dst r call) h.low next
    refine h.step ht hm (fun v hv hv' => ?_) (fun v hv => ?_) (fun p hp _ => .inl ?_)
      fun src' dst' r'' hc => ?_
    · obtain ⟨rfl, rfl⟩ := hnew v hv hv'
      exact .inr ⟨src, call'⟩
    · rcases hv with hv | ⟨src', hc⟩
      · exact .inl (marked ▸ hv)
      · rw [call] at hc
        cases hc
        cases next
    · show p ∈ t'.left
      rw [left]
      exact hp
    · rw [call'] at hc
      cases hc
      exact hk
  | @ret _ _ src dst r b call next call' keep sub marked =>
    obtain ⟨hmm, hret⟩ := wccMin_ret next
    subst m'
    have hk := hkeeps src dst r call
    have hok := hcall src dst r call
    have hsettled : m.Settled src dst := by
      have harrived : ∀ x, m.ids dst ≤ x → m.ids src = x ∨ m.Lowered src →
          m.Settled src dst := by
        intro x hx hsrc
        rcases hsrc with rfl | hl
        · exact .inl hx
        · exact .inr hl
      rcases hret with ⟨x, d, rfl, hle, -⟩ | ⟨x, cur, orig, d, rfl, hle, -⟩ | ⟨orig, d, rfl, -⟩
      · obtain ⟨rfl, -⟩ := hok
        exact harrived x hle hk
      · obtain ⟨rfl, -⟩ := hok
        exact harrived x hle hk.1
      · exact hk
    have htrue : b = true → r = .check (m.prevIds dst) dst := by
      intro hb
      rcases hret with ⟨x, d, -, -, hb'⟩ | ⟨x, cur, orig, d, -, -, hb'⟩ | ⟨orig, d, rfl, hb'⟩
      · rw [hb] at hb'
        cases hb'
      · rw [hb] at hb'
        cases hb'
      · obtain ⟨rfl, -⟩ := hok
        rw [of_decide_eq_true (hb'.symm.trans hb)]
    refine h.step ht hm (fun v hv hv' => absurd hv hv') (fun v hv => .inl ?_) (fun p hp hin => ?_)
      fun src' dst' r' hc => ?_
    · rw [marked]
      rcases hv with hv | ⟨src', hc⟩
      · split_ifs
        · exact mem_append_left _ hv
        · exact hv
      · rw [call] at hc
        cases hc
        rcases hret with ⟨x, d, hr, -⟩ | ⟨x, cur, orig, d, hr, -⟩ | ⟨orig, d, hr, hb⟩
        · cases hr
        · cases hr
        · cases hr
          rw [hb, decide_eq_true rfl]
          exact mem_append_right _ (mem_singleton_self _)
    · rcases keep p hp with rfl | hp | ⟨hb, hs⟩
      · exact .inr hsettled
      · exact .inl hp
      · rw [htrue hb] at call
        exact .inr (hskip src dst call p hs hin)
    · rw [call'] at hc
      cases hc

/-- What holds of the labels while they are copied. -/
structure WmCopy (g : MapGraph) (m : WmMem) (ts : List WmTask) : Prop where
  same : ∀ v, m.prevIds v = m.ids v ∨ ∃ pc, pc ≠ .finished ∧ WmTask.sync v pc ∈ ts
  stable : ∀ u v, g.Edge u v → m.ids v ≤ m.ids u ∨ m.frontier.isIn u = true

theorem WmCopy.next (h : WmCopy g m ts) (hs : WmSync g m₁ m ts) (ht : ts[i]? = some (.sync v pc))
    (hnext : wccSyncNext m v pc = some (m', pc')) : WmCopy g m' (ts.set i (.sync v pc')) := by
  have hkeep : ∀ u, (∃ pc2, pc2 ≠ .finished ∧ WmTask.sync u pc2 ∈ ts) →
      (∃ pc2, pc2 ≠ .finished ∧ WmTask.sync u pc2 ∈ ts.set i (.sync v pc')) ∨ u = v := by
    rintro u ⟨pc2, hne, hmem⟩
    rcases exists_mem_set (.sync v pc') ht ⟨_, hmem, rfl⟩ with ⟨t, ht', rfl⟩ | heq
    · exact .inl ⟨pc2, hne, ht'⟩
    · cases heq
      exact .inr rfl
  rcases (hs.next ht hnext).2 with ⟨rfl, rfl, rfl⟩ | ⟨rfl, rfl⟩
  · refine ⟨fun u => ?_, h.stable⟩
    rcases h.same u with heq | hex
    · exact .inl heq
    · rcases hkeep u hex with hex | rfl
      · exact .inr hex
      · exact .inr ⟨.store (m'.ids u), by simp, mem_set_self _ ht⟩
  · refine ⟨fun u => ?_, h.stable⟩
    by_cases hu : u = v
    · rw [hu]
      exact .inl (update_self _ _ _)
    · rcases h.same u with heq | hex
      · exact .inl ((update_of_ne hu _ _).trans heq)
      · rcases hkeep u hex with hex | hu'
        · exact .inr hex
        · exact absurd hu' hu

/-- An edge whose end has the greater label leaves the frontier. -/
def WmStable (g : MapGraph) (m : WmMem) : Prop :=
  match m.phase with
  | .sync => (∀ v, m.frontier.isIn v = false → m.prevIds v = m.ids v) ∧
    ∀ u v, g.Edge u v → m.ids v ≤ m.ids u ∨ m.frontier.isIn u = true
  | .edges => WmTrack g (fun _ _ => False) [] m []
  | .giants next => WmTrack g (rowPairs g.pages) next m []

/-- What holds of the labels in a parallel part. -/
def WmTracked (g : MapGraph) (thresholdDivisor : Nat) (m₁ m : WmMem) (ts : List WmTask) : Prop :=
  match m₁.phase with
  | .sync => WmCopy g m ts
  | .edges =>
    if g.usesDense thresholdDivisor (m₁.frontier.numNonZeros g.vertexCount) then
      WmTrack g (rowPairs g.pages) [] m ts
    else WmTrack g g.Edge [] m ts
  | .giants next => WmTrack g (rowPairs (g.giants :: g.pages)) next m ts

/-- The start of a map: its tasks have the new pairs. -/
theorem WmTrack.init {pairs pairs' : VId → VId → Prop} {next : List VId}
    (h : WmTrack g pairs next m [])
    (hpairs : ∀ src dst, pairs' src dst → m.frontier.isIn src = true →
      pairs src dst ∨ ∃ t ∈ tasks, (src, dst) ∈ t.left) (hcalls : ∀ t ∈ tasks, t.call = none) :
    WmTrack g pairs' next m (tasks.map WmTask.edge) := by
  refine ⟨h.low, fun v hv => ?_, fun src dst hp hin => ?_, fun t ht => ?_, h.stable⟩
  · rcases h.lowered v hv with hn | ⟨t, ht, -⟩
    · exact .inl hn
    · cases ht
  · rcases hpairs src dst hp hin with hp | ⟨t, ht, hmem⟩
    · rcases h.covered src dst hp hin with hs | ⟨t, ht, -⟩
      · exact .inl hs
      · cases ht
    · exact .inr ⟨.edge t, mem_map_of_mem ht, hmem⟩
  · obtain ⟨t, hmem, rfl⟩ := mem_map.1 ht
    intro src dst r hc
    rw [hcalls t hmem] at hc
    cases hc

section

variable {pairs : VId → VId → Prop} {next : List VId}

/-- The end of a map: no task has anything left, and what they have marked is in the output. -/
theorem WmTrack.finished (h : WmTrack g pairs next m ts)
    (hfin : ∀ t ∈ ts, (wccMap g thresholdDivisor).next m t = none) :
    WmTrack g pairs (next ++ wmOutput ts) m [] := by
  have hdone : ∀ t, WmTask.edge t ∈ ts → t.left = [] ∧ t.call = none := fun t ht =>
    edgeMapNext_eq_none (map_eq_none_iff.1 (hfin _ ht))
  refine ⟨h.low, fun v hv => .inl ?_, fun src dst hp hin => .inl ?_,
    forall_mem_nil _, h.stable⟩
  · rcases h.lowered v hv with hn | ⟨t, ht, hmk⟩
    · exact mem_append_left _ hn
    · refine mem_append_right _ (mem_flatMap.2 ⟨t, ht, ?_⟩)
      cases t with
      | sync w pc => exact hmk.elim
      | edge t =>
        rcases hmk with hmk | ⟨src, hc⟩
        · exact hmk
        · rw [(hdone t ht).2] at hc
          cases hc
  · rcases h.covered src dst hp hin with hs | ⟨t, ht, hmem⟩
    · exact hs
    · cases t with
      | sync w pc => cases hmem
      | edge t =>
        have hmem : (src, dst) ∈ t.left := hmem
        rw [(hdone t ht).1] at hmem
        cases hmem

theorem WmTrack.withPhase (h : WmTrack g pairs next m []) (phase : WmPhase) :
    WmTrack g pairs next { m with phase := phase } [] := by
  refine ⟨h.low, fun v hv => ?_, fun src dst hp hin => ?_, forall_mem_nil _, h.stable⟩
  · rcases h.lowered v hv with hn | ⟨t, ht, -⟩
    · exact .inl hn
    · cases ht
  · rcases h.covered src dst hp hin with hs | ⟨t, ht, -⟩
    · exact .inl hs
    · cases ht

/-- The next frontier: every vertex whose label was lowered. -/
theorem WmTrack.stable_next (h : WmTrack g pairs next m []) (hpairs : ∀ u v, g.Edge u v → pairs u v)
    {frontier : VertexSubset} (hfrontier : ∀ v ∈ next, frontier.isIn v = true) :
    WmStable g { m with frontier := frontier, phase := .sync } := by
  have hin : ∀ v, m.Lowered v → frontier.isIn v = true := by
    intro v hv
    rcases h.lowered v hv with hn | ⟨t, ht, -⟩
    · exact hfrontier v hn
    · cases ht
  have hsame : ∀ v, frontier.isIn v = true ∨ m.prevIds v = m.ids v := by
    intro v
    rcases (h.low v).lt_or_eq with hlt | heq
    · exact .inl (hin v hlt)
    · exact .inr heq.symm
  refine ⟨fun v hv => ?_, fun u v huv => ?_⟩
  · rcases hsame v with hv' | heq
    · rw [show frontier.isIn v = false from hv] at hv'
      cases hv'
    · exact heq
  · show m.ids v ≤ m.ids u ∨ frontier.isIn u = true
    rcases h.stable u v huv with hle | hu
    · rcases hsame u with hu | heq
      · exact .inr hu
      · rw [← heq]
        exact .inl ((h.low v).trans hle)
    · rcases h.covered u v (hpairs u v huv) hu with hs | ⟨t, ht, -⟩
      · exact hs.imp_right (hin u)
      · cases ht

end

theorem WmTracked.fork (hm : WmHead g m₁) (hs : WmStable g m₁)
    (hfork : (wccMap g thresholdDivisor).fork m₁ = some (m, ts)) :
    WmTracked g thresholdDivisor m₁ m ts := by
  have hmem : ∀ v, v ∈ m₁.frontier.toSparse g.vertexCount ↔ m₁.frontier.isIn v = true :=
    fun v => VertexSubset.mem_toSparse hm.basic.active
  unfold WmTracked
  unfold WmStable at hs
  cases hphase : m₁.phase with
  | sync =>
    simp only [hphase] at hs
    simp only [wccMap, hphase] at hfork
    split_ifs at hfork
    cases hfork
    refine ⟨fun v => ?_, hs.2⟩
    cases hv : m₁.frontier.isIn v with
    | false => exact .inl (hs.1 v hv)
    | true => exact .inr ⟨.load, by simp, mem_map.2 ⟨v, (hmem v).2 hv, rfl⟩⟩
  | edges =>
    simp only [hphase] at hs
    simp only [wccMap, hphase] at hfork
    cases hfork
    dsimp only
    split_ifs
    · refine hs.init (fun src dst hp _ => .inr ?_) fun t ht => ?_
      · obtain ⟨rows, hrows, hrow⟩ := hp
        exact ⟨_, mem_map_of_mem hrows, mem_left_dense.2 hrow⟩
      · obtain ⟨rows, -, rfl⟩ := mem_map.1 ht
        rfl
    · refine hs.init (fun src dst hp hin => .inr ?_) fun t ht => ?_
      · exact ⟨_, mem_map_of_mem ((hmem src).2 hin), mem_left_sparse.2 ⟨rfl, hp.2⟩⟩
      · obtain ⟨v, -, rfl⟩ := mem_map.1 ht
        rfl
  | giants next =>
    simp only [hphase] at hs
    simp only [wccMap, hphase] at hfork
    cases hfork
    refine hs.init (fun src dst hp _ => ?_) fun t ht => ?_
    · obtain ⟨rows, hrows, hrow⟩ := hp
      rcases mem_cons.1 hrows with rfl | hrows
      · exact .inr ⟨_, mem_singleton_self _, mem_left_dense.2 hrow⟩
      · exact .inl ⟨rows, hrows, hrow⟩
    · rw [mem_singleton.1 ht]
      rfl

theorem WmTracked.next (h : WmTracked g thresholdDivisor m₁ m ts) (hsec : WmSection g m₁ m ts)
    (ht : ts[i]? = some t) (hskip : t.SkipsOk m)
    (hnext : (wccMap g thresholdDivisor).next m t = some (m', t')) :
    WmTracked g thresholdDivisor m₁ m' (ts.set i t') := by
  have htrack : ∀ pairs next, WmEdges g m₁ m ts → WmTrack g pairs next m ts →
      WmTrack g pairs next m' (ts.set i t') := by
    intro pairs next he h
    cases t with
    | sync v pc => exact (he.tasks _ (mem_of_getElem? ht)).elim
    | edge t =>
      obtain ⟨⟨m2, t2⟩, hstep, heq⟩ := map_eq_some_iff.1 hnext
      cases heq
      exact h.next he ht hskip hstep
  unfold WmTracked at h ⊢
  unfold WmSection at hsec
  cases hphase : m₁.phase with
  | sync =>
    simp only [hphase] at h hsec
    cases t with
    | sync v pc =>
      obtain ⟨⟨m2, pc'⟩, hstep, heq⟩ := map_eq_some_iff.1 hnext
      cases heq
      exact h.next hsec ht hstep
    | edge t => exact (hsec.tasks _ (mem_of_getElem? ht)).elim
  | edges =>
    simp only [hphase] at h hsec
    dsimp only
    split_ifs at h ⊢
    · exact htrack _ _ hsec h
    · exact htrack _ _ hsec h
  | giants next =>
    simp only [hphase] at h hsec
    exact htrack _ _ hsec h

theorem WmTracked.join (hg : g.Ok) (hsym : ∀ u v, g.Edge u v → g.Edge v u)
    (h : WmTracked g thresholdDivisor m₁ m ts) (hsec : WmSection g m₁ m ts)
    (hok : WmStepOk g thresholdDivisor (.body m ts) none)
    (hfin : ∀ t ∈ ts, (wccMap g thresholdDivisor).next m t = none) :
    WmStable g ((wccMap g thresholdDivisor).join m ts) := by
  unfold WmTracked at h
  unfold WmSection at hsec
  cases hphase : m₁.phase with
  | sync =>
    simp only [hphase] at h hsec
    have hp : m.phase = .sync := hsec.phase.trans hphase
    have hsame : ∀ v, m.prevIds v = m.ids v := by
      intro v
      rcases h.same v with heq | ⟨pc, hne, hmem⟩
      · exact heq
      · have hnone := map_eq_none_iff.1 (hfin _ hmem)
        cases pc with
        | load => cases hnone
        | store id => cases hnone
        | finished => exact absurd rfl hne
    simp only [wccMap, hp]
    refine ⟨fun v => (hsame v).ge, fun v hv => ?_, fun src dst hp => hp.elim,
      forall_mem_nil _, fun u v huv => ?_⟩
    · exact absurd (hsame v) (Nat.ne_of_gt hv)
    · show m.prevIds v ≤ m.prevIds u ∨ m.frontier.isIn u = true
      rw [hsame u, hsame v]
      exact h.stable u v huv
  | edges =>
    simp only [hphase] at h hsec
    have hp : m.phase = .edges := hsec.lower.phase.trans hphase
    simp only [wccMap, hp]
    rw [← hsec.lower.frontier] at h
    split_ifs at h ⊢ with hdense
    · exact (h.finished hfin).withPhase _
    · have hlen := hok (Bool.eq_false_iff.2 hdense)
      refine (h.finished hfin).stable_next (fun u v huv => huv) fun v hv => ?_
      refine decide_eq_true ?_
      rw [mod_eq_of_lt hlen, take_length]
      exact hv
  | giants next =>
    simp only [hphase] at h hsec
    have hp : m.phase = .giants next := hsec.lower.phase.trans hphase
    simp only [wccMap, hp]
    refine (h.finished hfin).stable_next (fun u v huv => ?_) fun v hv => decide_eq_true hv
    -- the pull of `v` from `u` stands in the list of `v`
    exact (hg.edge_iff v u).1 (hsym u v huv)

/-- The runs whose steps all meet the condition. -/
theorem wccMap_guardedInvariant (hg : g.Ok) (hsym : ∀ u v, g.Edge u v → g.Edge v u)
    (thresholdDivisor : Nat) :
    (wccMap g thresholdDivisor).GuardedInvariant (WmStepOk g thresholdDivisor)
      (fun m => WmHead g m ∧ WmStable g m)
      fun m₁ m ts => WmSection g m₁ m ts ∧ WmTracked g thresholdDivisor m₁ m ts :=
  ⟨fun _ _ _ hm hf => ⟨.fork hg hm.1 hf, .fork hm.1 hm.2 hf⟩,
    fun _ _ _ _ t _ _ h hok ht hnext =>
      ⟨h.1.next ht hnext, h.2.next h.1 ht (hok t ht) hnext⟩,
    fun _ _ _ hm h hok hfin => ⟨h.1.join hm.1, h.2.join hg hsym h.1 hok hfin⟩⟩

theorem WmStable.init (g : MapGraph) : WmStable g (wccMapStart g.vertexCount) :=
  ⟨fun _ _ => rfl, fun _ _ huv => .inr (decide_eq_true huv.1)⟩

/-- At the end of the loop every vertex has the least label of its component. -/
theorem WmStable.leastOf (hsym : ∀ u v, g.Edge u v → g.Edge v u) (hm : WmHead g m)
    (hs : WmStable g m) (hend : (wccMap g thresholdDivisor).fork m = none) (v : VId) :
    Walk.LeastOf g.Edge v (m.ids v) := by
  unfold WmStable at hs
  cases hphase : m.phase with
  | sync =>
    simp only [hphase] at hs
    simp only [wccMap, hphase] at hend
    split_ifs at hend with hzero
    have hle : ∀ u v, g.Edge u v → m.ids v ≤ m.ids u := by
      intro u v huv
      rcases hs.2 u v huv with hle | hin
      · exact hle
      · rw [VertexSubset.numNonZeros_eq_zero hzero huv.1] at hin
        cases hin
    exact Walk.leastOf_of_fixed (fun u v huv => le_antisymm (hle v u (hsym u v huv)) (hle u v huv))
      hm.basic.conn hm.basic.le v
  | edges =>
    simp only [wccMap, hphase] at hend
    cases hend
  | giants next =>
    simp only [wccMap, hphase] at hend
    cases hend

/-- On every symmetric database that was just built every run of `wcc_map` ends; a run whose steps
all meet the condition ends with the least vertex of its component as the label of every vertex. -/
theorem wccMap_guarded {cfg : Config} {g : MemGraph} {db : Db} (hps : 0 < cfg.pageSize)
    (hds : 0 < cfg.deltaPageSize) (hn : g.vertexCount ≤ cfg.idLimit)
    (hv : g.vertexCount < 2 ^ 32) (hb : Built cfg g db) (hsym : g.Symmetric)
    (totalEdges thresholdDivisor : Nat) :
    (wccMap (db.mapGraph cfg totalEdges) thresholdDivisor).Terminates
      (.head (wccMapStart db.getVertexCount)) ∧
    ∀ es st, Steps (guarded (WmStepOk (db.mapGraph cfg totalEdges) thresholdDivisor) fun s e s' =>
          (wccMap (db.mapGraph cfg totalEdges) thresholdDivisor).step s e = some s')
        (.head (wccMapStart db.getVertexCount)) es st →
      (wccMap (db.mapGraph cfg totalEdges) thresholdDivisor).Stuck st →
      ∃ m, st = .head m ∧ ∀ v, v < g.vertexCount → Walk.LeastOf g.Edge v (m.ids v) := by
  have hst := hb.stores hps hds hn hv
  have hok := hb.mapGraph_ok hps hds hn hv totalEdges
  have hsym' : ∀ u v, (db.mapGraph cfg totalEdges).Edge u v →
      (db.mapGraph cfg totalEdges).Edge v u := by
    rw [hst.mapEdge]
    exact hsym
  refine ⟨(wccMap_variant hok thresholdDivisor).terminates (.init _), fun es st run hstuck => ?_⟩
  have hinv := wccMap_guardedInvariant hok hsym' thresholdDivisor
  have hstart := And.intro (WmHead.init (db.mapGraph cfg totalEdges))
    (WmStable.init (db.mapGraph cfg totalEdges))
  obtain ⟨m, rfl, ⟨hm, hs⟩, hend⟩ := (hinv.of_steps (s := .head _) hstart run).2 hstuck
  refine ⟨m, rfl, fun v _ => ?_⟩
  rw [← hst.mapEdge totalEdges]
  exact hs.leastOf hsym' hm hend v

/-- A step, if it meets the condition. -/
def wmCheckedStep (g : MapGraph) (thresholdDivisor : Nat) (st : ForkJoin.State WmMem WmTask)
    (e : Option Nat) : Option (ForkJoin.State WmMem WmTask) :=
  if WmStepOk g thresholdDivisor st e then (wccMap g thresholdDivisor).step st e else none

/-- The label of a vertex at the end of the loop. -/
def wmEndLabel (g : MapGraph) (thresholdDivisor : Nat) (v : VId) :
    ForkJoin.State WmMem WmTask → Option VId
  | .head m => if ((wccMap g thresholdDivisor).fork m).isNone then some (m.ids v) else none
  | .body _ _ => none

theorem wmEndLabel_eq_some {v l : VId} {o : Option (ForkJoin.State WmMem WmTask)}
    (h : o.bind (wmEndLabel g thresholdDivisor v) = some l) :
    ∃ m, o = some (.head m) ∧ (wccMap g thresholdDivisor).Stuck (.head m) ∧ m.ids v = l := by
  obtain ⟨st, rfl, hst⟩ := bind_eq_some_iff.1 h
  cases st with
  | body m ts => cases hst
  | head m =>
    simp only [wmEndLabel] at hst
    split_ifs at hst with hend
    exact ⟨m, rfl, (stuck_iff _).2 ⟨m, rfl, isNone_iff_eq_none.1 hend⟩,
      some.inj hst⟩

/-- Events that are taken several times in a row. -/
def bursts (l : List (Option Nat × Nat)) : List (Option Nat) :=
  l.flatMap fun p => List.replicate p.2 p.1

/-- A run on the path that takes the pages in order. -/
def pathRunInOrder : List (Option Nat) :=
  bursts [(none, 1), (some 0, 2), (some 1, 2), (some 2, 2), (some 3, 2), (some 4, 2), (none, 2),
    (some 0, 5), (some 1, 5), (some 2, 6), (some 3, 6), (some 4, 6), (none, 4),
    (some 0, 2), (some 1, 2), (some 2, 2), (none, 2),
    (some 0, 5), (some 1, 5), (some 2, 6), (some 3, 6), (some 4, 9), (none, 4),
    (some 0, 2), (none, 2),
    (some 0, 3), (some 1, 3), (some 2, 7), (some 3, 6), (some 4, 4), (none, 4),
    (some 0, 2), (none, 2),
    (some 0, 3), (some 1, 6), (some 2, 4), (some 3, 4), (some 4, 6), (none, 4),
    (some 0, 2), (none, 2),
    (some 0, 3), (some 1, 3), (some 2, 6), (some 3, 4), (some 4, 4), (none, 3)]

/-- All its steps meet the condition, and vertex 4 has the least label. -/
theorem wccMap_guarded_pathDb :
    ∃ es m, Steps (guarded (WmStepOk (pathDb.mapGraph pathConfig 0) 20) fun s e s' =>
          (wccMap (pathDb.mapGraph pathConfig 0) 20).step s e = some s')
        (.head (wccMapStart pathDb.getVertexCount)) es (.head m) ∧
      m.ids 4 = 0 ∧ Walk.LeastOf pathGraph.Edge 4 (m.ids 4) := by
  have hrun : (runAll (wmCheckedStep (pathDb.mapGraph pathConfig 0) 20)
      (.head (wccMapStart pathDb.getVertexCount)) pathRunInOrder).bind
        (wmEndLabel (pathDb.mapGraph pathConfig 0) 20 4) = some 0 := by
    decide +kernel
  obtain ⟨m, hm, hstuck, hlabel⟩ := wmEndLabel_eq_some hrun
  have hsteps : Steps (guarded (WmStepOk (pathDb.mapGraph pathConfig 0) 20) fun s e s' =>
      (wccMap (pathDb.mapGraph pathConfig 0) 20).step s e = some s')
        (.head (wccMapStart pathDb.getVertexCount)) pathRunInOrder (.head m) := by
    refine Steps.of_runAll (fun s e s' hstep => ?_) hm
    unfold wmCheckedStep at hstep
    split_ifs at hstep with hok
    exact ⟨hok, hstep⟩
  obtain ⟨m', heq, hleast⟩ := (wccMap_guarded (by decide) (by decide) (by decide) (by decide)
    pathDb_built pathGraph_symmetric 0 20).2 _ _ hsteps hstuck
  cases heq
  exact ⟨pathRunInOrder, m, hsteps, hlabel, hleast 4 (by decide)⟩

/-- A run on the path that takes the page of vertex 4 first. -/
def pathRun : List (Option Nat) :=
  bursts [(none, 1), (some 4, 2), (some 2, 2), (some 3, 2), (some 0, 2), (some 1, 2), (none, 2),
    (some 4, 6), (some 2, 6), (some 3, 6), (some 0, 5), (some 1, 5), (none, 4),
    (some 2, 2), (some 0, 2), (some 1, 2), (none, 2),
    (some 4, 6), (some 2, 6), (some 3, 6), (some 0, 5), (some 1, 5), (none, 4),
    (some 0, 2), (none, 2),
    (some 4, 4), (some 2, 6), (some 3, 6), (some 0, 3), (some 1, 3), (none, 3)]

/-- In the second round vertex 4 takes the label 1 of vertex 2 and skips vertex 3, which has the
label 0 and is not lowered any more: vertices 1, 2 and 4 keep the label 1. -/
theorem wccMap_pathDb : Built pathConfig pathGraph pathDb ∧ pathGraph.Symmetric ∧
    ∃ es m, runAll (wccMap (pathDb.mapGraph pathConfig 0) 20).step
        (.head (wccMapStart pathDb.getVertexCount)) es = some (.head m) ∧
      (wccMap (pathDb.mapGraph pathConfig 0) 20).Stuck (.head m) ∧
      ¬ Walk.LeastOf pathGraph.Edge 4 (m.ids 4) := by
  have hrun : (runAll (wccMap (pathDb.mapGraph pathConfig 0) 20).step
      (.head (wccMapStart pathDb.getVertexCount)) pathRun).bind
        (wmEndLabel (pathDb.mapGraph pathConfig 0) 20 4) = some 1 := by
    decide +kernel
  obtain ⟨m, hm, hstuck, hlabel⟩ := wmEndLabel_eq_some hrun
  refine ⟨pathDb_built, pathGraph_symmetric, pathRun, m, hm, hstuck, fun hleast => ?_⟩
  have hconn : Walk.Conn pathGraph.Edge 4 0 :=
    .trans (v := 3) (.edge ⟨by decide, by decide⟩) (.edge ⟨by decide, by decide⟩)
  have hle : m.ids 4 ≤ 0 := hleast.2 hconn
  rw [hlabel] at hle
  cases hle

end BwGraph
