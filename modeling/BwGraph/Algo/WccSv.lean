import BwGraph.Lib.Forest
import BwGraph.Algo.EdgeMap
import BwGraph.Algo.Wcc

/-
  Connected components by hooking and pointer jumping (`wcc_sv` of `db_algorithm.cc`). A round
  hooks: an edge map over all vertices looks for the roots of both ends of every edge and hangs the
  higher root below the lower one by a compare-and-swap. Passes of pointer jumping follow until one
  moves nothing, and the rounds end when one has hooked nothing.

  No parent is ever above its vertex, and a parent is in the component of its vertex. While the
  parents have not changed since the start of a map, a call that has returned has seen the same
  root at both ends (`HookCall.Ok`); a failed compare-and-swap or a skipped neighbour needs a
  change, which sets `changed` before the map ends. Pointer jumping changes no root. So after the
  last round the roots agree along the edges (`SvHead`), on every stored graph, symmetric or not.
-/

namespace BwGraph

open Function List ForkJoin

/-- Where `wcc_sv` stands in its loops. -/
inductive SvPhase where
  /-- Before the edge map of a round. -/
  | hook
  /-- In a dense map, before the giant vertices. -/
  | giants
  /-- Before a pass of pointer jumping. -/
  | compress (anyHook : Bool)
  | done
  deriving DecidableEq

/-- The arrays and flags of `wcc_sv`. -/
structure SvMem where
  parent : VId → VId
  changed : Bool
  moved : Bool
  phase : SvPhase

/-- A call of `wcc_hook_functor_t::update_atomic`, with its locals. -/
inductive HookCall where
  /-- In `wcc_find_root(parent, src)`. -/
  | srcRoot (dst v : VId)
  /-- In `wcc_find_root(parent, dst)`. -/
  | dstRoot (srcRoot v : VId)
  | cas (hi lo : VId)
  /-- The compare-and-swap succeeded, before `changed` is set. -/
  | store
  deriving DecidableEq

/-- `wcc_hook_functor_t`. -/
def wccHookFunctor : EdgeFunctor SvMem HookCall where
  cond _ _ := true
  start src dst := .srcRoot dst src
  next m
    | .srcRoot dst v =>
      let p := m.parent v
      if p = v then (m, .inl (.dstRoot v dst)) else (m, .inl (.srcRoot dst p))
    | .dstRoot srcRoot v =>
      let p := m.parent v
      if p = v then
        if srcRoot = v then (m, .inr false)
        else (m, .inl (.cas (max srcRoot v) (min srcRoot v)))
      else (m, .inl (.dstRoot srcRoot p))
    | .cas hi lo =>
      if m.parent hi = hi then
        ({ m with parent := Function.update m.parent hi lo }, .inl .store)
      else (m, .inr false)
    | .store => ({ m with changed := true }, .inr true)

/-- A call of `wcc_compress_functor_t`, with its locals. -/
inductive CompressPc where
  | load
  | loaded (p : VId)
  | store (p gp : VId)
  | setMoved
  | finished
  deriving DecidableEq

/-- One step of `wcc_compress_functor_t`. -/
def wccCompressNext (m : SvMem) (v : VId) : CompressPc → Option (SvMem × CompressPc)
  | .load => some (m, .loaded (m.parent v))
  | .loaded p =>
    let gp := m.parent p
    if p ≠ gp then some (m, .store p gp) else some (m, .finished)
  | .store _ gp => some ({ m with parent := Function.update m.parent v gp }, .setMoved)
  | .setMoved => some ({ m with moved := true }, .finished)
  | .finished => none

/-- A task of one of the parallel parts. -/
inductive SvTask where
  | hook (t : MapTask HookCall)
  | compress (v : VId) (pc : CompressPc)

/-- `make_full_frontier`. -/
def makeFullFrontier (vertexCount : Nat) : VertexSubset := .dense fun v => decide (v < vertexCount)

/-- The loops of `wcc_sv`. -/
def wccSv (g : MapGraph) (thresholdDivisor : Nat) : ForkJoin SvMem SvTask where
  fork m :=
    let all := makeFullFrontier g.vertexCount
    match m.phase with
    | .hook =>
      let tasks := if g.usesDense thresholdDivisor (all.numNonZeros g.vertexCount) then g.pageTasks
        else g.sparseTasks (all.toSparse g.vertexCount)
      some ({ m with changed := false }, tasks.map SvTask.hook)
    | .giants => some (m, g.giantTasks.map SvTask.hook)
    | .compress _ =>
      some ({ m with moved := false },
        (all.toSparse g.vertexCount).map fun v => .compress v .load)
    | .done => none
  next m
    | .hook t =>
      (edgeMapNext wccHookFunctor (makeFullFrontier g.vertexCount).isIn m t).map fun r =>
        (r.1, .hook r.2)
    | .compress v pc => (wccCompressNext m v pc).map fun r => (r.1, .compress v r.2)
  join m _ :=
    let all := makeFullFrontier g.vertexCount
    match m.phase with
    | .hook =>
      if g.usesDense thresholdDivisor (all.numNonZeros g.vertexCount) then
        { m with phase := .giants }
      else { m with phase := .compress m.changed }
    | .giants => { m with phase := .compress m.changed }
    | .compress anyHook =>
      if m.moved then m
      else if anyHook then { m with phase := .hook } else { m with phase := .done }
    | .done => m

/-- The arrays before the loops; an empty graph has no rounds. -/
def wccSvStart (vertexCount : Nat) : SvMem :=
  ⟨id, false, false, if vertexCount = 0 then .done else .hook⟩

/-- The results: `wcc_find_root` of every vertex, with fuel. -/
def wccSvResults (vertexCount : Nat) (parent : VId → VId) (fuel : Nat) :
    Option (List (VId × VId)) :=
  (List.range vertexCount).mapM fun v => (Forest.find parent fuel v).map fun r => (v, r)

/-! ## Calls of the hook functor -/

/-- The ends have the same root. -/
def SameRoot (parent : VId → VId) (u v : VId) : Prop := Forest.root parent u = Forest.root parent v

/-- The parents are below their vertices, in the same component. -/
structure SvForest (g : MapGraph) (m : SvMem) : Prop where
  le : ∀ v, m.parent v ≤ v
  conn : ∀ v, Walk.Conn g.Edge v (m.parent v)
  out : ∀ v, g.vertexCount ≤ v → m.parent v = v

/-- What the locals of a call say in a map that was started from `m₁`. -/
def HookCall.Ok (g : MapGraph) (m₁ m : SvMem) (src dst : VId) : HookCall → Prop
  | .srcRoot d v => d = dst ∧ v < g.vertexCount ∧ Walk.Conn g.Edge src v ∧
    (m.parent = m₁.parent → SameRoot m₁.parent v src)
  | .dstRoot r v => r < g.vertexCount ∧ v < g.vertexCount ∧ Walk.Conn g.Edge src r ∧
    Walk.Conn g.Edge dst v ∧
    (m.parent = m₁.parent → Forest.root m₁.parent src = r ∧ SameRoot m₁.parent v dst)
  | .cas hi lo => lo < hi ∧ hi < g.vertexCount ∧ Walk.Conn g.Edge hi lo ∧
    (m.parent = m₁.parent → m₁.parent hi = hi)
  | .store => m.parent ≠ m₁.parent

variable {g : MapGraph} {m₁ m m' : SvMem}

/-- Parents that only went down are unchanged only if they were before. -/
theorem parent_eq_of_le (hle : ∀ v, m.parent v ≤ m₁.parent v) (hle' : ∀ v, m'.parent v ≤ m.parent v)
    (h : m'.parent = m₁.parent) : m.parent = m₁.parent :=
  funext fun v => le_antisymm (hle v) (h ▸ hle' v)

variable {src dst : VId}

theorem HookCall.Ok.mono {r : HookCall} (h : r.Ok g m₁ m src dst)
    (hle : ∀ v, m.parent v ≤ m₁.parent v) (hle' : ∀ v, m'.parent v ≤ m.parent v) :
    r.Ok g m₁ m' src dst := by
  have heq := parent_eq_of_le hle hle'
  cases r with
  | srcRoot d v => exact ⟨h.1, h.2.1, h.2.2.1, fun hu => h.2.2.2 (heq hu)⟩
  | dstRoot r v => exact ⟨h.1, h.2.1, h.2.2.1, h.2.2.2.1, fun hu => h.2.2.2.2 (heq hu)⟩
  | cas hi lo => exact ⟨h.1, h.2.1, h.2.2.1, fun hu => h.2.2.2 (heq hu)⟩
  | store => exact fun hu => h (heq hu)

/-- What a step inside a call does. -/
theorem HookCall.Ok.inner {src dst : VId} {r r' : HookCall} (h : r.Ok g m₁ m src dst)
    (hf1 : ∀ v, m₁.parent v ≤ v) (hf : SvForest g m) (hle : ∀ v, m.parent v ≤ m₁.parent v)
    (hdst : dst < g.vertexCount) (hpair : Walk.Conn g.Edge src dst)
    (hnext : wccHookFunctor.next m r = (m', .inl r')) :
    SvForest g m' ∧ (∀ v, m'.parent v ≤ m.parent v) ∧ m'.phase = m.phase ∧
      m'.changed = m.changed ∧ r'.Ok g m₁ m' src dst ∧
      (m'.parent ≠ m.parent → r' = .store) := by
  cases r with
  | srcRoot d v =>
    obtain ⟨rfl, hv, hconn, hroot⟩ := h
    simp only [wccHookFunctor] at hnext
    split_ifs at hnext with hp
    · cases hnext
      refine ⟨hf, fun _ => le_rfl, rfl, rfl, ⟨hv, hdst, hconn, .refl _, fun hu => ⟨?_, rfl⟩⟩,
        fun hne => absurd rfl hne⟩
      rw [← hroot hu]
      exact Forest.root_of_fixed (hu ▸ hp)
    · cases hnext
      refine ⟨hf, fun _ => le_rfl, rfl, rfl,
        ⟨rfl, (hf.le v).trans_lt hv, hconn.trans (hf.conn v), fun hu => ?_⟩,
        fun hne => absurd rfl hne⟩
      rw [hu]
      exact (Forest.root_parent hf1 v).trans (hroot hu)
  | dstRoot sr v =>
    obtain ⟨hsr, hv, hconn, hconn', hroot⟩ := h
    simp only [wccHookFunctor] at hnext
    split_ifs at hnext with hp heq
    · cases hnext
    · cases hnext
      refine ⟨hf, fun _ => le_rfl, rfl, rfl, ⟨?_, max_lt hsr hv, ?_, fun hu => ?_⟩,
        fun hne => absurd rfl hne⟩
      · exact min_lt_max.2 heq
      · have hboth : Walk.Conn g.Edge sr v := (hconn.symm.trans hpair).trans hconn'
        rcases le_total sr v with hle' | hle'
        · rw [max_eq_right hle', min_eq_left hle']
          exact hboth.symm
        · rw [max_eq_left hle', min_eq_right hle']
          exact hboth
      · have hsr : m₁.parent sr = sr := by
          rw [← (hroot hu).1]
          exact Forest.parent_root hf1 src
        rcases max_choice sr v with hmax | hmax
        · rw [hmax]
          exact hsr
        · rw [hmax, ← hu]
          exact hp
    · cases hnext
      refine ⟨hf, fun _ => le_rfl, rfl, rfl, ⟨hsr, (hf.le v).trans_lt hv, hconn,
        hconn'.trans (hf.conn v), fun hu => ⟨(hroot hu).1, ?_⟩⟩, fun hne => absurd rfl hne⟩
      rw [hu]
      exact (Forest.root_parent hf1 v).trans (hroot hu).2
  | cas hi lo =>
    obtain ⟨hlt, hhi, hconn, -⟩ := h
    simp only [wccHookFunctor] at hnext
    split_ifs at hnext with hp
    swap
    · cases hnext
    cases hnext
    have hself : update m.parent hi lo hi = lo := update_self _ _ _
    have hlow : ∀ v, update m.parent hi lo v ≤ m.parent v := by
      intro v
      by_cases hv : v = hi
      · rw [hv, hself, hp]
        exact hlt.le
      · rw [update_of_ne hv]
    refine ⟨⟨fun v => (hlow v).trans (hf.le v), fun v => ?_, fun v hv => ?_⟩, hlow, rfl, rfl,
      fun hu => ?_, fun _ => rfl⟩
    · show Walk.Conn g.Edge v (update m.parent hi lo v)
      by_cases hv : v = hi
      · rw [hv, hself]
        exact hconn
      · rw [update_of_ne hv]
        exact hf.conn v
    · show update m.parent hi lo v = v
      have hne : v ≠ hi := fun heq => absurd (heq ▸ hhi) (Nat.not_lt.2 hv)
      rw [update_of_ne hne]
      exact hf.out v hv
    · have hu : update m.parent hi lo = m₁.parent := hu
      have hlo : lo = m₁.parent hi := hself ▸ congrFun hu hi
      have hge := hle hi
      rw [hp, ← hlo] at hge
      exact absurd hlt (Nat.not_lt.2 hge)
  | store => cases hnext

/-- What the last step of a call does: it returns true after a change only, and false on a pair
with the same root, if nothing has changed. -/
theorem HookCall.Ok.ret {src dst : VId} {r : HookCall} {b : Bool} (h : r.Ok g m₁ m src dst)
    (hnext : wccHookFunctor.next m r = (m', .inr b)) :
    m'.parent = m.parent ∧ m'.phase = m.phase ∧ m'.changed = (m.changed || b) ∧
      (b = true ∨ r ≠ .store) ∧ (b = true → m.parent ≠ m₁.parent) ∧
      (m.parent = m₁.parent → SameRoot m₁.parent src dst) := by
  cases r with
  | srcRoot d v =>
    simp only [wccHookFunctor] at hnext
    split_ifs at hnext
    all_goals cases hnext
  | dstRoot sr v =>
    obtain ⟨hsr, hv, hconn, hconn', hroot⟩ := h
    simp only [wccHookFunctor] at hnext
    split_ifs at hnext with hp heq
    · cases hnext
      refine ⟨rfl, rfl, (Bool.or_false _).symm, .inr (by simp), by simp, fun hu => ?_⟩
      obtain ⟨h1, h2⟩ := hroot hu
      have hvroot : Forest.root m₁.parent v = v := Forest.root_of_fixed (hu ▸ hp)
      exact h1.trans (heq.trans (hvroot.symm.trans h2))
    · cases hnext
    · cases hnext
  | cas hi lo =>
    obtain ⟨-, -, -, hroot⟩ := h
    simp only [wccHookFunctor] at hnext
    split_ifs at hnext with hp
    · cases hnext
    · cases hnext
      refine ⟨rfl, rfl, (Bool.or_false _).symm, .inr (by simp), by simp, fun hu => ?_⟩
      exact absurd (hu ▸ hroot hu) hp
  | store =>
    cases hnext
    exact ⟨rfl, rfl, (Bool.or_true _).symm, .inl rfl, fun _ => h, fun hu => absurd hu h⟩

/-! ## A map of hooks -/

namespace SvTask

/-- The pairs that a task has left. -/
def left : SvTask → List (VId × VId)
  | .hook t => t.left
  | .compress _ _ => []

/-- The task has changed a parent and not set `changed` since. -/
def Pending : SvTask → Prop
  | .hook t => ∃ src dst, t.call = some (src, dst, .store)
  | .compress _ _ => False

/-- What holds of a task of a map that was started from `m₁`. -/
def HookOk (g : MapGraph) (m₁ m : SvMem) : SvTask → Prop
  | .hook t => (∀ p ∈ t.left, p.1 < g.vertexCount ∧ p.2 < g.vertexCount ∧
      Walk.Conn g.Edge p.1 p.2) ∧
    ∀ src dst r, t.call = some (src, dst, r) → r.Ok g m₁ m src dst
  | .compress _ _ => False

theorem HookOk.mono {t : SvTask} (h : t.HookOk g m₁ m) (hle : ∀ v, m.parent v ≤ m₁.parent v)
    (hle' : ∀ v, m'.parent v ≤ m.parent v) : t.HookOk g m₁ m' := by
  cases t with
  | hook t => exact ⟨h.1, fun src dst r hc => (h.2 src dst r hc).mono hle hle'⟩
  | compress v pc => exact h

end SvTask

/-- What holds in a map over `pairs` that was started from `m₁`, with the flag `c`. -/
structure SvHook (g : MapGraph) (pairs : VId → VId → Prop) (c : Bool) (m₁ m : SvMem)
    (ts : List SvTask) : Prop where
  phase : m.phase = m₁.phase
  forest : SvForest g m
  le : ∀ v, m.parent v ≤ m₁.parent v
  tasks : ∀ t ∈ ts, t.HookOk g m₁ m
  covered : ∀ src dst, pairs src dst → (m.parent = m₁.parent → SameRoot m₁.parent src dst) ∨
    ∃ t ∈ ts, (src, dst) ∈ t.left
  flag : m.parent ≠ m₁.parent → m.changed = true ∨ ∃ t ∈ ts, t.Pending
  changed : m.changed = true → c = true ∨ m.parent ≠ m₁.parent
  keep : c = true → m.changed = true

variable {ts : List SvTask} {c : Bool} {i : Nat} {t t' : SvTask}

section

variable {pairs : VId → VId → Prop}

/-- A step of one task, by what it does to the task and to the memory. -/
theorem SvHook.step (h : SvHook g pairs c m₁ m ts) (ht : ts[i]? = some t)
    (hphase : m'.phase = m.phase) (hforest : SvForest g m') (hle : ∀ v, m'.parent v ≤ m.parent v)
    (hok : t'.HookOk g m₁ m')
    (hleft : ∀ p ∈ t.left, p ∈ t'.left ∨ (m'.parent = m₁.parent → SameRoot m₁.parent p.1 p.2))
    (hpending : t.Pending → m'.changed = true) (hflag : m'.parent ≠ m.parent → t'.Pending)
    (hchanged : m'.changed = m.changed ∨ m'.changed = true ∧ m'.parent ≠ m₁.parent) :
    SvHook g pairs c m₁ m' (ts.set i t') := by
  have heq := parent_eq_of_le h.le hle
  refine ⟨hphase.trans h.phase, hforest, fun v => (hle v).trans (h.le v),
    forall_mem_set (fun u hu => (h.tasks u hu).mono h.le hle) hok,
    fun src dst hp => ?_, fun hne => ?_, fun hc => ?_, fun hc => ?_⟩
  · rcases h.covered src dst hp with hd | hex
    · exact .inl fun hu => hd (heq hu)
    · rcases exists_mem_set t' ht hex with hex | hmem
      · exact .inr hex
      · rcases hleft _ hmem with hmem | hd
        · exact .inr ⟨t', mem_set_self t' ht, hmem⟩
        · exact .inl hd
  · by_cases hm : m'.parent = m.parent
    · rcases h.flag (hm ▸ hne) with hc | hex
      · rcases hchanged with heq | ⟨hc', -⟩
        · exact .inl (heq.trans hc)
        · exact .inl hc'
      · rcases exists_mem_set t' ht hex with hex | hp
        · exact .inr hex
        · exact .inl (hpending hp)
    · exact .inr ⟨t', mem_set_self t' ht, hflag hm⟩
  · rcases hchanged with hc' | ⟨-, hne⟩
    · rcases h.changed (hc' ▸ hc) with hc | hne
      · exact .inl hc
      · exact .inr fun hu => hne (heq hu)
    · exact .inr hne
  · rcases hchanged with hc' | ⟨hc', -⟩
    · rw [hc']
      exact h.keep hc
    · exact hc'

theorem SvHook.next (hf1 : ∀ v, m₁.parent v ≤ v) (h : SvHook g pairs c m₁ m ts)
    {t t' : MapTask HookCall} (ht : ts[i]? = some (.hook t))
    (hnext : edgeMapNext wccHookFunctor (makeFullFrontier g.vertexCount).isIn m t = some (m', t')) :
    SvHook g pairs c m₁ m' (ts.set i (.hook t')) := by
  obtain ⟨hleft, hcall⟩ := h.tasks _ (mem_of_getElem? ht)
  cases edgeMapNext_step (fun _ _ => rfl) hnext with
  | idle call call' keep sub marked =>
    refine h.step ht rfl h.forest (fun _ => le_rfl) ⟨fun p hp => hleft p (sub hp), ?_⟩
      (fun p hp => .inl (keep p hp (decide_eq_true (hleft p hp).1))) ?_ (fun hne => absurd rfl hne)
      (.inl rfl)
    · intro src dst r hc
      rw [call'] at hc
      cases hc
    · rintro ⟨src, dst, hc⟩
      rw [call] at hc
      cases hc
  | @start _ src dst call call' left marked =>
    have hmem := hleft _ (left ▸ MapTask.call_mem_left call')
    refine h.step ht rfl h.forest (fun _ => le_rfl) ⟨fun p hp => hleft p (left ▸ hp), ?_⟩
      (fun p hp => .inl ?_) ?_ (fun hne => absurd rfl hne) (.inl rfl)
    · intro src' dst' r hc
      rw [call'] at hc
      cases hc
      exact ⟨rfl, hmem.1, .refl _, fun _ => rfl⟩
    · show p ∈ t'.left
      rw [left]
      exact hp
    · rintro ⟨src', dst', hc⟩
      rw [call] at hc
      cases hc
  | @inner _ _ src dst r r' call next call' left marked =>
    have hmem := hleft _ (MapTask.call_mem_left call)
    obtain ⟨hforest, hle, hphase, hchanged, hok, hstore⟩ :=
      (hcall src dst r call).inner hf1 h.forest h.le hmem.2.1 hmem.2.2 next
    refine h.step ht hphase hforest hle ⟨fun p hp => hleft p (left ▸ hp), ?_⟩
      (fun p hp => .inl ?_) ?_ ?_ (.inl hchanged)
    · intro src' dst' r'' hc
      rw [call'] at hc
      cases hc
      exact hok
    · show p ∈ t'.left
      rw [left]
      exact hp
    · rintro ⟨src', dst', hc⟩
      rw [call] at hc
      cases hc
      cases next
    · intro hne
      exact ⟨src, dst, by rw [call', hstore hne]⟩
  | @ret _ _ src dst r b call next call' keep sub marked =>
    obtain ⟨hparent, hphase, hchanged, hstore, htrue, hsame⟩ := (hcall src dst r call).ret next
    refine h.step ht hphase ⟨?_, ?_, ?_⟩ (fun v => (congrFun hparent v).le)
      ⟨fun p hp => hleft p (sub hp), ?_⟩ (fun p hp => ?_) ?_ (fun hne => absurd hparent hne) ?_
    · rw [hparent]
      exact h.forest.le
    · rw [hparent]
      exact h.forest.conn
    · rw [hparent]
      exact h.forest.out
    · intro src' dst' r' hc
      rw [call'] at hc
      cases hc
    · rw [hparent]
      rcases keep p hp with rfl | hp | ⟨hb, -⟩
      · exact .inr hsame
      · exact .inl hp
      · exact .inr fun hu => absurd hu (htrue hb)
    · rintro ⟨src', dst', hc⟩
      rw [call] at hc
      cases hc
      rcases hstore with rfl | hne
      · rw [hchanged, Bool.or_true]
      · exact absurd rfl hne
    · rw [hchanged, hparent]
      cases b with
      | false => exact .inl (Bool.or_false _)
      | true => exact .inr ⟨Bool.or_true _, htrue rfl⟩

/-- After the map: without a change the ends of its pairs have the same root. -/
theorem SvHook.finished (h : SvHook g pairs c m₁ m ts)
    (hfin : ∀ t, SvTask.hook t ∈ ts → t.left = [] ∧ t.call = none) (hc : m.changed = false) :
    m.parent = m₁.parent ∧ ∀ src dst, pairs src dst → SameRoot m₁.parent src dst := by
  have heq : m.parent = m₁.parent := by
    by_contra hne
    rcases h.flag hne with hch | ⟨t, ht, hp⟩
    · rw [hc] at hch
      cases hch
    · cases t with
      | hook t =>
        obtain ⟨src, dst, hcall⟩ := hp
        rw [(hfin t ht).2] at hcall
        cases hcall
      | compress v pc => exact hp
  refine ⟨heq, fun src dst hp => ?_⟩
  rcases h.covered src dst hp with hd | ⟨t, ht, hmem⟩
  · exact hd heq
  · cases t with
    | hook t =>
      have hmem : (src, dst) ∈ t.left := hmem
      rw [(hfin t ht).1] at hmem
      cases hmem
    | compress v pc => cases hmem

end

/-! ## A pass of pointer jumping -/

/-- What the locals of a call of the compress functor say in a pass that was started from `m₁`. -/
def CompressPc.Ok (g : MapGraph) (m₁ m : SvMem) (v : VId) : CompressPc → Prop
  | .load => True
  | .loaded p => m.parent v = p
  | .store p gp => m.parent v = p ∧ gp < p ∧ Walk.Conn g.Edge v gp ∧ SameRoot m.parent gp v
  | .setMoved => m.parent v < m₁.parent v
  | .finished => True

namespace SvTask

/-- The vertex of a task of a pass. -/
def key : SvTask → VId
  | .hook _ => 0
  | .compress v _ => v

/-- What holds of a task of a pass that was started from `m₁`. -/
def CompressOk (g : MapGraph) (m₁ m : SvMem) : SvTask → Prop
  | .hook _ => False
  | .compress v pc => v < g.vertexCount ∧ pc.Ok g m₁ m v

end SvTask

/-- What holds in a pass that was started from `m₁`. -/
structure SvCompress (g : MapGraph) (m₁ m : SvMem) (ts : List SvTask) : Prop where
  phase : m.phase = m₁.phase
  forest : SvForest g m
  le : ∀ v, m.parent v ≤ m₁.parent v
  roots : ∀ v, Forest.root m.parent v = Forest.root m₁.parent v
  moved : m.moved = true → ∃ v, v < g.vertexCount ∧ m.parent v < m₁.parent v
  keys : ts.map SvTask.key = List.range g.vertexCount
  tasks : ∀ t ∈ ts, t.CompressOk g m₁ m

variable {pc pc' : CompressPc}

section

variable (h : SvCompress g m₁ m ts) {v : VId} (ht : ts[i]? = some (.compress v pc))
include h ht

/-- A step that changes no parent. -/
theorem SvCompress.step (hphase : m'.phase = m.phase) (hparent : m'.parent = m.parent)
    (hok : pc'.Ok g m₁ m v) (hmoved : m'.moved = true → m.moved = true ∨ m.parent v < m₁.parent v) :
    SvCompress g m₁ m' (ts.set i (.compress v pc')) := by
  have htask := h.tasks _ (mem_of_getElem? ht)
  have hkeep : ∀ {u : SvTask}, u.CompressOk g m₁ m → u.CompressOk g m₁ m' := by
    intro u hu
    cases u with
    | hook t => exact hu
    | compress w pc =>
      refine ⟨hu.1, ?_⟩
      have := hu.2
      unfold CompressPc.Ok at this ⊢
      rw [hparent]
      exact this
  refine ⟨hphase.trans h.phase, ⟨?_, ?_, ?_⟩, ?_, ?_, fun hm => ?_,
    (map_set_eq ht ?_).trans h.keys,
    forall_mem_set (fun u hu => hkeep (h.tasks u hu)) (hkeep ⟨htask.1, hok⟩)⟩
  · rw [hparent]
    exact h.forest.le
  · rw [hparent]
    exact h.forest.conn
  · rw [hparent]
    exact h.forest.out
  · rw [hparent]
    exact h.le
  · rw [hparent]
    exact h.roots
  · rw [hparent]
    rcases hmoved hm with hm | hlt
    · exact h.moved hm
    · exact ⟨v, htask.1, hlt⟩
  · rfl

omit h ht in
/-- The parent of the vertex jumps; every other task has another vertex. -/
theorem SvCompress.store (h : SvCompress g m₁ m ts) {v p gp : VId}
    (ht : ts[i]? = some (.compress v (.store p gp))) :
    SvCompress g m₁ { m with parent := update m.parent v gp }
      (ts.set i (.compress v .setMoved)) := by
  obtain ⟨hv, rfl, hgp, hconn, hroot⟩ := h.tasks _ (mem_of_getElem? ht)
  have hself : update m.parent v gp v = gp := update_self _ _ _
  have hlow : ∀ w, update m.parent v gp w ≤ m.parent w := by
    intro w
    by_cases hw : w = v
    · rw [hw, hself]
      exact hgp.le
    · rw [update_of_ne hw]
  have hroots : ∀ w, Forest.root (update m.parent v gp) w = Forest.root m.parent w :=
    Forest.root_update h.forest.le (hgp.trans_le (h.forest.le v)) hroot
  refine ⟨h.phase, ⟨fun w => (hlow w).trans (h.forest.le w), fun w => ?_, fun w hw => ?_⟩,
    fun w => (hlow w).trans (h.le w), fun w => (hroots w).trans (h.roots w), fun hm => ?_,
    (map_set_eq ht ?_).trans h.keys, fun u hu => ?_⟩
  · show Walk.Conn g.Edge w (update m.parent v gp w)
    by_cases hw : w = v
    · rw [hw, hself]
      exact hconn
    · rw [update_of_ne hw]
      exact h.forest.conn w
  · show update m.parent v gp w = w
    have hne : w ≠ v := fun heq => absurd (heq ▸ hv) (Nat.not_lt.2 hw)
    rw [update_of_ne hne]
    exact h.forest.out w hw
  · obtain ⟨w, hw, hlt⟩ := h.moved hm
    exact ⟨w, hw, (hlow w).trans_lt hlt⟩
  · rfl
  · have hnd : (ts.map SvTask.key).Nodup := by
      rw [h.keys]
      exact nodup_range
    rcases mem_set_of_nodup hnd ht hu with rfl | ⟨hmem, hne⟩
    · refine ⟨hv, ?_⟩
      show update m.parent v gp v < m₁.parent v
      rw [hself]
      exact hgp.trans_le (h.le v)
    · have hok := h.tasks u hmem
      cases u with
      | hook t => exact hok
      | compress w pc =>
        have hne : w ≠ v := hne
        have hw : update m.parent v gp w = m.parent w := update_of_ne hne _ _
        refine ⟨hok.1, ?_⟩
        cases pc with
        | load => trivial
        | loaded q => exact hw.trans hok.2
        | store q gq =>
          obtain ⟨h1, h2, h3, h4⟩ := hok.2
          exact ⟨hw.trans h1, h2, h3, (hroots gq).trans (h4.trans (hroots w).symm)⟩
        | setMoved => exact hw.le.trans_lt hok.2
        | finished => trivial

theorem SvCompress.next (hnext : wccCompressNext m v pc = some (m', pc')) :
    SvCompress g m₁ m' (ts.set i (.compress v pc')) := by
  obtain ⟨hv, hok⟩ := h.tasks _ (mem_of_getElem? ht)
  cases pc with
  | load =>
    cases hnext
    exact h.step ht rfl rfl rfl .inl
  | loaded p =>
    obtain rfl : m.parent v = p := hok
    simp only [wccCompressNext] at hnext
    split_ifs at hnext with hne
    · cases hnext
      refine h.step ht rfl rfl ⟨rfl, ?_, ?_, ?_⟩ .inl
      · exact Nat.lt_of_le_of_ne (h.forest.le _) (Ne.symm hne)
      · exact (h.forest.conn v).trans (h.forest.conn _)
      · exact (Forest.root_parent h.forest.le _).trans (Forest.root_parent h.forest.le v)
    · cases hnext
      exact h.step ht rfl rfl trivial .inl
  | store p gp =>
    cases hnext
    exact h.store ht
  | setMoved =>
    cases hnext
    exact h.step ht rfl rfl trivial fun _ => .inr hok
  | finished => cases hnext

end

/-! ## The rounds -/

/-- What the phase says about the roots. -/
def SvMem.Rooted (g : MapGraph) (m : SvMem) : Prop :=
  match m.phase with
  | .hook => True
  | .giants => m.changed = false → ∀ src dst, rowPairs g.pages src dst → SameRoot m.parent src dst
  | .compress anyHook => anyHook = false → ∀ u v, g.Edge u v → SameRoot m.parent u v
  | .done => ∀ u v, g.Edge u v → SameRoot m.parent u v

/-- What holds between the parallel parts. -/
structure SvHead (g : MapGraph) (m : SvMem) : Prop where
  forest : SvForest g m
  rooted : m.Rooted g

/-- The dense mode is used. -/
def svDense (g : MapGraph) (thresholdDivisor : Nat) : Bool :=
  g.usesDense thresholdDivisor ((makeFullFrontier g.vertexCount).numNonZeros g.vertexCount)

/-- What holds in a parallel part. -/
def SvSection (g : MapGraph) (thresholdDivisor : Nat) (m₁ m : SvMem) (ts : List SvTask) : Prop :=
  match m₁.phase with
  | .hook =>
    SvHook g (if svDense g thresholdDivisor then rowPairs g.pages else g.Edge) false m₁ m ts
  | .giants => SvHook g (rowPairs [g.giants]) m₁.changed m₁ m ts
  | .compress _ => SvCompress g m₁ m ts
  | .done => False

/-- The start of a map: its tasks have the pairs. -/
theorem SvHook.init {pairs : VId → VId → Prop} {tasks : List (MapTask HookCall)} (hg : g.Ok)
    (hm : SvForest g m₁) (hphase : m.phase = m₁.phase) (hparent : m.parent = m₁.parent)
    (hc : m.changed = c) (htasks : ∀ t ∈ tasks, t.call = none ∧ t.marked = [] ∧
      ∀ p ∈ t.left, g.Edge p.1 p.2 ∨ g.Edge p.2 p.1)
    (hpairs : ∀ src dst, pairs src dst → ∃ t ∈ tasks, (src, dst) ∈ t.left) :
    SvHook g pairs c m₁ m (tasks.map SvTask.hook) := by
  refine ⟨hphase, ⟨?_, ?_, ?_⟩, fun v => (congrFun hparent v).le, fun t ht => ?_,
    fun src dst hp => .inr ?_, fun hne => absurd hparent hne, fun h => .inl (hc ▸ h),
    fun h => hc.trans h⟩
  · rw [hparent]
    exact hm.le
  · rw [hparent]
    exact hm.conn
  · rw [hparent]
    exact hm.out
  · obtain ⟨t, hmem, rfl⟩ := mem_map.1 ht
    refine ⟨fun p hp => ?_, fun src dst r hcl => ?_⟩
    · rcases (htasks t hmem).2.2 p hp with he | he
      · exact ⟨he.1, hg.lt _ he.1 _ he.2, .edge he⟩
      · exact ⟨hg.lt _ he.1 _ he.2, he.1, Walk.Conn.symm (.edge he)⟩
    · rw [(htasks t hmem).1] at hcl
      cases hcl
  · obtain ⟨t, ht, hmem⟩ := hpairs src dst hp
    exact ⟨.hook t, mem_map_of_mem ht, hmem⟩

variable {thresholdDivisor : Nat}

theorem SvSection.fork (hg : g.Ok) (hm : SvHead g m₁)
    (hfork : (wccSv g thresholdDivisor).fork m₁ = some (m, ts)) :
    SvSection g thresholdDivisor m₁ m ts := by
  have hall : (makeFullFrontier g.vertexCount).toSparse g.vertexCount =
      range g.vertexCount :=
    filter_eq_self.2 fun v hv => decide_eq_true (mem_range.1 hv)
  have hrange : ∀ v ∈ range g.vertexCount, v < g.vertexCount :=
    fun v hv => mem_range.1 hv
  unfold SvSection
  cases hphase : m₁.phase with
  | hook =>
    simp only [wccSv, hphase, hall] at hfork
    cases hfork
    by_cases hd : svDense g thresholdDivisor = true
    · rw [if_pos hd, if_pos (show g.usesDense _ _ = true from hd)]
      refine SvHook.init hg hm.forest hphase.symm rfl rfl (hg.tasks hrange (.inl rfl))
        fun src dst hp => ?_
      obtain ⟨rows, hr, row, hrow, heq, hsrc⟩ := hp
      exact ⟨_, mem_map_of_mem hr, mem_left_dense.2 ⟨row, hrow, heq, hsrc⟩⟩
    · rw [if_neg hd, if_neg (show ¬ g.usesDense _ _ = true from hd)]
      refine SvHook.init hg hm.forest hphase.symm rfl rfl
        (hg.tasks hrange (.inr (.inr rfl))) fun src dst hp => ?_
      exact ⟨_, mem_map_of_mem (mem_range.2 hp.1), mem_left_sparse.2 ⟨rfl, hp.2⟩⟩
  | giants =>
    simp only [wccSv, hphase] at hfork
    cases hfork
    refine SvHook.init hg hm.forest rfl rfl rfl (hg.tasks hrange (.inr (.inl rfl)))
      fun src dst hp => ?_
    obtain ⟨rows, hr, row, hrow, heq, hsrc⟩ := hp
    rw [mem_singleton.1 hr] at hrow
    exact ⟨_, mem_singleton_self _, mem_left_dense.2 ⟨row, hrow, heq, hsrc⟩⟩
  | compress anyHook =>
    simp only [wccSv, hphase, hall] at hfork
    cases hfork
    refine ⟨hphase.symm, ⟨hm.forest.le, hm.forest.conn, hm.forest.out⟩, fun _ => le_rfl,
      fun _ => rfl, by simp, ?_, fun t ht => ?_⟩
    · rw [map_map]
      exact map_id _
    · obtain ⟨v, hv, rfl⟩ := mem_map.1 ht
      exact ⟨mem_range.1 hv, trivial⟩
  | done =>
    simp only [wccSv, hphase] at hfork
    cases hfork

theorem SvSection.next (hf1 : ∀ v, m₁.parent v ≤ v) (h : SvSection g thresholdDivisor m₁ m ts)
    (ht : ts[i]? = some t) (hnext : (wccSv g thresholdDivisor).next m t = some (m', t')) :
    SvSection g thresholdDivisor m₁ m' (ts.set i t') := by
  have hhook : ∀ {pairs : VId → VId → Prop} {c : Bool}, SvHook g pairs c m₁ m ts →
      SvHook g pairs c m₁ m' (ts.set i t') := by
    intro pairs c h
    cases t with
    | hook t =>
      obtain ⟨⟨m2, t2⟩, hstep, heq⟩ := Option.map_eq_some_iff.1 hnext
      cases heq
      exact h.next hf1 ht hstep
    | compress v pc => exact (h.tasks _ (mem_of_getElem? ht)).elim
  unfold SvSection at h ⊢
  cases hphase : m₁.phase with
  | hook =>
    rw [hphase] at h
    exact hhook h
  | giants =>
    rw [hphase] at h
    exact hhook h
  | compress anyHook =>
    rw [hphase] at h
    cases t with
    | hook t => exact (h.tasks _ (mem_of_getElem? ht)).elim
    | compress v pc =>
      obtain ⟨⟨m2, pc'⟩, hstep, heq⟩ := Option.map_eq_some_iff.1 hnext
      cases heq
      exact SvCompress.next h ht hstep
  | done =>
    rw [hphase] at h
    exact h

/-- The tasks of a map are finished. -/
theorem wccSv_finished (hfin : ∀ t ∈ ts, (wccSv g thresholdDivisor).next m t = none)
    (t : MapTask HookCall) (ht : SvTask.hook t ∈ ts) : t.left = [] ∧ t.call = none :=
  edgeMapNext_eq_none (Option.map_eq_none_iff.1 (hfin _ ht))

theorem SvSection.join (hg : g.Ok) (hm : SvHead g m₁) (h : SvSection g thresholdDivisor m₁ m ts)
    (hfin : ∀ t ∈ ts, (wccSv g thresholdDivisor).next m t = none) :
    SvHead g ((wccSv g thresholdDivisor).join m ts) := by
  have hend := wccSv_finished hfin
  unfold SvSection at h
  cases hphase : m₁.phase with
  | hook =>
    simp only [hphase] at h
    have hp : m.phase = .hook := h.phase.trans hphase
    simp only [wccSv, hp]
    by_cases hd : svDense g thresholdDivisor = true
    · rw [if_pos hd] at h
      rw [if_pos (show g.usesDense _ _ = true from hd)]
      refine ⟨⟨h.forest.le, h.forest.conn, h.forest.out⟩, fun hc src dst hpair => ?_⟩
      obtain ⟨heq, hsame⟩ := h.finished hend hc
      show SameRoot m.parent src dst
      rw [heq]
      exact hsame src dst hpair
    · rw [if_neg hd] at h
      rw [if_neg (show ¬ g.usesDense _ _ = true from hd)]
      refine ⟨⟨h.forest.le, h.forest.conn, h.forest.out⟩, fun hc u v huv => ?_⟩
      obtain ⟨heq, hsame⟩ := h.finished hend hc
      show SameRoot m.parent u v
      rw [heq]
      exact hsame u v huv
  | giants =>
    simp only [hphase] at h
    have hp : m.phase = .giants := h.phase.trans hphase
    simp only [wccSv, hp]
    refine ⟨⟨h.forest.le, h.forest.conn, h.forest.out⟩, fun hc u v huv => ?_⟩
    obtain ⟨heq, hsame⟩ := h.finished hend hc
    have hc1 : m₁.changed = false := by
      rw [Bool.eq_false_iff]
      intro hc1
      rw [h.keep hc1] at hc
      cases hc
    have hpages := hm.rooted
    simp only [SvMem.Rooted, hphase] at hpages
    show SameRoot m.parent u v
    rw [heq]
    obtain ⟨rows, hrows, row, hrow, rfl, hv⟩ := (hg.edge_iff u v).1 huv
    rcases mem_cons.1 hrows with rfl | hrows
    · exact (hsame v row.1 ⟨_, mem_singleton_self _, row, hrow, rfl, hv⟩).symm
    · exact (hpages hc1 v row.1 ⟨rows, hrows, row, hrow, rfl, hv⟩).symm
  | compress anyHook =>
    simp only [hphase] at h
    have hp : m.phase = .compress anyHook := h.phase.trans hphase
    have hroot := hm.rooted
    simp only [SvMem.Rooted, hphase] at hroot
    have hkeep : anyHook = false → ∀ u v, g.Edge u v → SameRoot m.parent u v :=
      fun hb u v huv => (h.roots u).trans ((hroot hb u v huv).trans (h.roots v).symm)
    simp only [wccSv, hp]
    split_ifs with hmoved hany
    · refine ⟨h.forest, ?_⟩
      simp only [SvMem.Rooted, hp]
      exact hkeep
    · exact ⟨⟨h.forest.le, h.forest.conn, h.forest.out⟩, trivial⟩
    · exact ⟨⟨h.forest.le, h.forest.conn, h.forest.out⟩, hkeep (Bool.eq_false_iff.2 hany)⟩
  | done =>
    simp only [hphase] at h

/-! ## Termination -/

/-- A bound of the steps that a call has left. -/
def HookCall.rank (n : Nat) : HookCall → Nat
  | .srcRoot _ v => n + 3 + v
  | .dstRoot _ v => v + 2
  | .cas _ _ => 1
  | .store => 0

/-- A measure of the steps that a task has left. -/
def SvTask.rank (n : Nat) : SvTask → Nat
  | .hook t => t.rank (2 * n + 3) (HookCall.rank n)
  | .compress _ .load => 4
  | .compress _ (.loaded _) => 3
  | .compress _ (.store _ _) => 2
  | .compress _ .setMoved => 1
  | .compress _ .finished => 0

theorem HookCall.Ok.rank_lt {r r' : HookCall} (h : r.Ok g m₁ m src dst) (hf : SvForest g m)
    (hdst : dst < g.vertexCount) (hnext : wccHookFunctor.next m r = (m', .inl r')) :
    r'.rank g.vertexCount < r.rank g.vertexCount := by
  have hlow : ∀ {v : VId}, m.parent v ≠ v → m.parent v < v :=
    fun hne => Nat.lt_of_le_of_ne (hf.le _) hne
  cases r with
  | srcRoot d v =>
    obtain ⟨rfl, -⟩ := h
    simp only [wccHookFunctor] at hnext
    split_ifs at hnext with hp
    · cases hnext
      refine (Nat.add_lt_add_right hdst 2).trans_le ?_
      simp only [HookCall.rank]
      omega
    · cases hnext
      exact Nat.add_lt_add_left (hlow hp) _
  | dstRoot sr v =>
    simp only [wccHookFunctor] at hnext
    split_ifs at hnext with hp heq
    · cases hnext
    · cases hnext
      simp [HookCall.rank]
    · cases hnext
      exact Nat.add_lt_add_right (hlow hp) _
  | cas hi lo =>
    simp only [wccHookFunctor] at hnext
    split_ifs at hnext
    · cases hnext
      simp [HookCall.rank]
    · cases hnext
  | store => cases hnext

theorem SvHook.rank_lt {pairs : VId → VId → Prop} (h : SvHook g pairs c m₁ m ts) (ht : t ∈ ts)
    (hnext : (wccSv g thresholdDivisor).next m t = some (m', t')) :
    t'.rank g.vertexCount < t.rank g.vertexCount := by
  have hok := h.tasks t ht
  cases t with
  | compress v pc => exact hok.elim
  | hook t =>
    obtain ⟨⟨m2, t2⟩, hstep, heq⟩ := Option.map_eq_some_iff.1 hnext
    cases heq
    refine edgeMapNext_rank (fun p hp => ?_) (fun src dst r m2 r' hcall hn => ?_) hstep
    · have hlt := (hok.1 p hp).1
      show g.vertexCount + 3 + p.1 ≤ 2 * g.vertexCount + 3
      refine (Nat.add_le_add_left hlt.le _).trans ?_
      omega
    · have hmem := hok.1 _ (MapTask.call_mem_left hcall)
      exact (hok.2 src dst r hcall).rank_lt h.forest hmem.2.1 hn

theorem SvCompress.rank_lt (h : SvCompress g m₁ m ts) (ht : t ∈ ts)
    (hnext : (wccSv g thresholdDivisor).next m t = some (m', t')) :
    t'.rank g.vertexCount < t.rank g.vertexCount := by
  have hok := h.tasks t ht
  cases t with
  | hook t => exact hok.elim
  | compress v pc =>
    obtain ⟨⟨m2, pc'⟩, hstep, heq⟩ := Option.map_eq_some_iff.1 hnext
    cases heq
    cases pc with
    | loaded p =>
      simp only [wccCompressNext] at hstep
      split_ifs at hstep
      all_goals
        cases hstep
        simp [SvTask.rank]
    | finished => cases hstep
    | _ =>
      cases hstep
      simp [SvTask.rank]

/-- How far the phase is from the end, when no parent changes any more. -/
def SvMem.weight (m : SvMem) : Nat :=
  match m.phase with
  | .hook => 4
  | .giants => if m.changed then 6 else 3
  | .compress anyHook => if anyHook then 5 else 2
  | .done => 0

/-- The sum of the parents, then the phase. -/
def SvMem.size (n : Nat) (m : SvMem) : Nat := labelSize n m.parent m.weight

/-- Parents that have changed have gone down somewhere. -/
theorem SvHook.lowered {pairs : VId → VId → Prop} (h : SvHook g pairs c m₁ m ts)
    (hf1 : SvForest g m₁) (hne : m.parent ≠ m₁.parent) :
    ∃ v, v < g.vertexCount ∧ m.parent v < m₁.parent v := by
  by_contra hnone
  push Not at hnone
  refine hne (funext fun v => ?_)
  by_cases hv : v < g.vertexCount
  · exact le_antisymm (h.le v) (hnone v hv)
  · rw [h.forest.out v (Nat.not_lt.1 hv), hf1.out v (Nat.not_lt.1 hv)]

theorem SvSection.size_lt (hm : SvHead g m₁) (h : SvSection g thresholdDivisor m₁ m ts) :
    ((wccSv g thresholdDivisor).join m ts).size g.vertexCount < m₁.size g.vertexCount := by
  unfold SvSection at h
  cases hphase : m₁.phase with
  | hook =>
    simp only [hphase] at h
    have hp : m.phase = .hook := h.phase.trans hphase
    have hw : m₁.weight = 4 := by simp [SvMem.weight, hphase]
    have hlow : m.changed = true → ∃ v, v < g.vertexCount ∧ m.parent v < m₁.parent v := by
      intro hc
      rcases h.changed hc with hc | hne
      · cases hc
      · exact h.lowered hm.forest hne
    simp only [wccSv, hp]
    split_ifs
    · refine labelSize_lt h.le ?_
      rw [hw]
      cases hc : m.changed with
      | true => exact .inl ⟨hlow hc, by simp [SvMem.weight]⟩
      | false => exact .inr (by simp [SvMem.weight])
    · refine labelSize_lt h.le ?_
      rw [hw]
      cases hc : m.changed with
      | true => exact .inl ⟨hlow hc, by simp [SvMem.weight]⟩
      | false => exact .inr (by simp [SvMem.weight])
  | giants =>
    simp only [hphase] at h
    have hp : m.phase = .giants := h.phase.trans hphase
    simp only [wccSv, hp]
    refine labelSize_lt h.le ?_
    cases hc1 : m₁.changed with
    | true =>
      have hc := h.keep hc1
      exact .inr (by simp [SvMem.weight, hphase, hc, hc1])
    | false =>
      cases hc : m.changed with
      | true =>
        refine .inl ⟨?_, by simp [SvMem.weight, hphase, hc1]⟩
        rcases h.changed hc with hc' | hne
        · rw [hc1] at hc'
          cases hc'
        · exact h.lowered hm.forest hne
      | false => exact .inr (by simp [SvMem.weight, hphase, hc1])
  | compress anyHook =>
    simp only [hphase] at h
    have hp : m.phase = .compress anyHook := h.phase.trans hphase
    simp only [wccSv, hp]
    split_ifs with hmoved hany
    · refine labelSize_lt h.le (.inl ⟨h.moved hmoved, ?_⟩)
      simp [SvMem.weight, hp, hphase]
    · refine labelSize_lt h.le (.inr ?_)
      simp [SvMem.weight, hphase, hany]
    · refine labelSize_lt h.le (.inr ?_)
      simp [SvMem.weight, hphase, hany]
  | done =>
    simp only [hphase] at h

theorem wccSv_variant (hg : g.Ok) (thresholdDivisor : Nat) :
    (wccSv g thresholdDivisor).Variant (SvHead g)
      (fun m₁ m ts => SvHead g m₁ ∧ SvSection g thresholdDivisor m₁ m ts)
      (SvTask.rank g.vertexCount) (SvMem.size g.vertexCount) := by
  refine ⟨⟨fun m₁ m ts hm hf => ⟨hm, .fork hg hm hf⟩, fun m₁ m ts i t m' t' h ht hnext => ?_,
    fun m₁ m ts hm h hfin => h.2.join hg hm hfin⟩, fun m₁ m ts t m' t' h ht hnext => ?_,
    fun m₁ m ts hm h _ => h.2.size_lt hm⟩
  · exact ⟨h.1, h.2.next h.1.forest.le ht hnext⟩
  · obtain ⟨-, hsec⟩ := h
    unfold SvSection at hsec
    cases hphase : m₁.phase with
    | hook =>
      rw [hphase] at hsec
      exact SvHook.rank_lt hsec ht hnext
    | giants =>
      rw [hphase] at hsec
      exact SvHook.rank_lt hsec ht hnext
    | compress anyHook =>
      rw [hphase] at hsec
      exact SvCompress.rank_lt hsec ht hnext
    | done =>
      rw [hphase] at hsec
      exact hsec.elim

theorem SvHead.init (g : MapGraph) : SvHead g (wccSvStart g.vertexCount) := by
  refine ⟨⟨fun _ => le_rfl, fun v => .refl v, fun _ _ => rfl⟩, ?_⟩
  unfold SvMem.Rooted wccSvStart
  by_cases hn : g.vertexCount = 0
  · simp only [if_pos hn]
    intro u v huv
    have := huv.1
    rw [hn] at this
    exact absurd this (Nat.not_lt_zero u)
  · simp only [if_neg hn]

/-- Roots that agree along the edges are the least vertices of the components. -/
theorem SvHead.leastOf (hm : SvHead g m) (hphase : m.phase = .done) (v : VId) :
    Walk.LeastOf g.Edge v (Forest.root m.parent v) := by
  have hroot := hm.rooted
  simp only [SvMem.Rooted, hphase] at hroot
  refine Walk.leastOf_of_fixed hroot (fun v => ?_) (Forest.root_le hm.forest.le) v
  refine Forest.root_induction hm.forest.le (p := fun v r => Walk.Conn g.Edge v r)
    (fun v _ => .refl v) (fun v _ hc => ?_) v
  exact (hm.forest.conn v).trans hc

/-- Every run of `wcc_sv` ends, and its results are the least vertices of the components. -/
theorem wccSv_spec (hg : g.Ok) (thresholdDivisor : Nat) :
    (wccSv g thresholdDivisor).Terminates (.head (wccSvStart g.vertexCount)) ∧
      ∀ es st, runAll (wccSv g thresholdDivisor).step (.head (wccSvStart g.vertexCount)) es =
          some st →
        (wccSv g thresholdDivisor).Stuck st →
        ∃ m r, st = .head m ∧ wccSvResults g.vertexCount m.parent g.vertexCount = some r ∧
          r.map Prod.fst = range g.vertexCount ∧
          ∀ v l, (v, l) ∈ r → Walk.LeastOf g.Edge v l := by
  have hvar := wccSv_variant hg thresholdDivisor
  refine ⟨hvar.terminates (SvHead.init g), fun es st run hstuck => ?_⟩
  obtain ⟨m, rfl, hm, hfork⟩ := (hvar.inv.of_run (s := .head _) (SvHead.init g) run).2 hstuck
  have hphase : m.phase = .done := by
    cases hp : m.phase with
    | done => rfl
    | _ => simp [wccSv, hp] at hfork
  refine ⟨m, (range g.vertexCount).map fun v => (v, Forest.root m.parent v), rfl, ?_, ?_,
    fun v l hmem => ?_⟩
  · refine mapM_eq_some_map fun v hv => ?_
    rw [Forest.find_eq_root hm.forest.le (mem_range.1 hv)]
    rfl
  · rw [map_map]
    exact map_id _
  · obtain ⟨w, -, heq⟩ := mem_map.1 hmem
    cases heq
    exact hm.leastOf hphase v

/-- On every database that was just built, symmetric or not, every run of `wcc_sv` ends, and its
results give every vertex the least vertex of its weakly connected component. -/
theorem wccSv_built {cfg : Config} {g : MemGraph} {db : Db} (hps : 0 < cfg.pageSize)
    (hds : 0 < cfg.deltaPageSize) (hn : g.vertexCount ≤ cfg.idLimit)
    (hv : g.vertexCount < 2 ^ 32) (hb : Built cfg g db)
    (totalEdges thresholdDivisor : Nat) :
    (wccSv (db.mapGraph cfg totalEdges) thresholdDivisor).Terminates
      (.head (wccSvStart db.getVertexCount)) ∧
    ∀ es st, runAll (wccSv (db.mapGraph cfg totalEdges) thresholdDivisor).step
        (.head (wccSvStart db.getVertexCount)) es = some st →
      (wccSv (db.mapGraph cfg totalEdges) thresholdDivisor).Stuck st →
      ∃ m r, st = .head m ∧
        wccSvResults db.getVertexCount m.parent db.getVertexCount = some r ∧
        r.map Prod.fst = List.range g.vertexCount ∧
        ∀ v l, (v, l) ∈ r → Walk.LeastOf g.Edge v l := by
  have hst := hb.stores hps hds hn hv
  obtain ⟨hterm, hfinal⟩ := wccSv_spec (hb.mapGraph_ok hps hds hn hv totalEdges) thresholdDivisor
  rw [hst.mapEdge] at hfinal
  refine ⟨hterm, fun es st run hstuck => ?_⟩
  obtain ⟨m, r, hm, hr, hkeys, hleast⟩ := hfinal es st run hstuck
  refine ⟨m, r, hm, hr, ?_, hleast⟩
  rw [hkeys, ← hst.count]
  rfl

/-- The path, with the divisor 20. -/
theorem wccSv_built_pathDb :
    (wccSv (pathDb.mapGraph pathConfig 0) 20).Terminates
      (.head (wccSvStart pathDb.getVertexCount)) :=
  (wccSv_built (by decide) (by decide) (by decide) (by decide) pathDb_built 0 20).1

/-- On a symmetric database that was just built, `parallel_bfs` from `s` returns the vertices to
which `parallel_wcc` gives the label of `s`, and `wcc_sv` gives every vertex the same label as
`parallel_wcc`. -/
theorem parallelBfs_component {cfg : Config} {g : MemGraph} {db : Db} (hps : 0 < cfg.pageSize)
    (hds : 0 < cfg.deltaPageSize) (hn : g.vertexCount ≤ cfg.idLimit)
    (hv : g.vertexCount < 2 ^ 32) (hb : Built cfg g db) (hsym : g.Symmetric)
    (hedges : ((range g.vertexCount).map fun v => (db.base cfg v).length).sum < 2 ^ 32)
    (srcFirst : Bool) (totalEdges thresholdDivisor : Nat) {s : VId} (hs : s < g.vertexCount)
    {st st' st''}
    (run : (parallelBfs db.getVertexCount (db.base cfg)).EndsIn (.head (parallelBfsStart s)) st)
    (run' : (parallelWcc srcFirst db.getVertexCount (db.base cfg)).EndsIn
      (.head (parallelWccStart db.getVertexCount)) st')
    (run'' : (wccSv (db.mapGraph cfg totalEdges) thresholdDivisor).EndsIn
      (.head (wccSvStart db.getVertexCount)) st'') :
    ∃ m m' m'' r r'', st = .head m ∧ st' = .head m' ∧ st'' = .head m'' ∧
      bfsResults db.getVertexCount m.parent db.getVertexCount = some r ∧
      wccSvResults db.getVertexCount m''.parent db.getVertexCount = some r'' ∧
      ∀ v, v < g.vertexCount →
        ((∃ d, (v, d) ∈ r) ↔ m'.label v = m'.label s) ∧ (v, m'.label v) ∈ r'' := by
  have hst := hb.stores hps hds hn hv
  have hok := hb.mapGraph_ok hps hds hn hv totalEdges
  obtain ⟨es'', run'', hend''⟩ := run''
  obtain ⟨m'', r'', rfl, hr'', hkeys, hleast''⟩ :=
    (wccSv_spec hok thresholdDivisor).2 es'' _ run'' hend''
  rw [hst.mapEdge] at hleast''
  have hsym' : ∀ u v, StoredEdge g.vertexCount (db.base cfg) u v →
      StoredEdge g.vertexCount (db.base cfg) v u := by
    rw [hst.edge]
    exact hsym
  rw [hst.count] at run run' ⊢
  obtain ⟨⟨es, run, hend⟩, es', run', hend'⟩ := And.intro run run'
  obtain ⟨m, r, rfl, hr, -, hdist⟩ := (parallelBfs_spec hv hst.lt hs).2 es _ run hend
  obtain ⟨m', rfl, hleast⟩ := (parallelWcc_spec srcFirst hst.lt hsym' hedges).2 es' _ run' hend'
  refine ⟨m, m', m'', r, r'', rfl, rfl, rfl, hr, hst.count ▸ hr'', fun v hlt => ⟨?_, ?_⟩⟩
  · simp only [hdist]
    rw [Walk.exists_dist_iff hsym', (hleast v).eq_iff (hleast s)]
    exact ⟨Walk.Conn.symm, Walk.Conn.symm⟩
  · have hmem : v ∈ r''.map Prod.fst := by
      rw [hkeys]
      exact List.mem_range.2 (Nat.lt_of_lt_of_eq hlt hst.count.symm)
    obtain ⟨⟨v', l⟩, hl, rfl⟩ := List.mem_map.1 hmem
    rw [hst.edge] at hleast
    rwa [(hleast v').unique (hleast'' v' l hl)]

/-- The path from vertex 1. -/
theorem parallelBfs_component_pathDb : ∃ st r, ∃ label : VId → VId,
    (parallelBfs pathDb.getVertexCount (pathDb.base pathConfig)).EndsIn
      (.head (parallelBfsStart 1)) (.head st) ∧
    bfsResults pathDb.getVertexCount st.parent pathDb.getVertexCount = some r ∧
    ∀ v, v < 5 → ((∃ d, (v, d) ∈ r) ↔ label v = label 1) := by
  have hst := pathDb_built.stores (by decide) (by decide) (by decide) (by decide)
  have hsym : ∀ u v, StoredEdge pathGraph.vertexCount (pathDb.base pathConfig) u v →
      StoredEdge pathGraph.vertexCount (pathDb.base pathConfig) v u := by
    rw [hst.edge]
    exact pathGraph_symmetric
  have hedges : ((range pathGraph.vertexCount).map fun v =>
      (pathDb.base pathConfig v).length).sum < 2 ^ 32 := by
    decide +kernel
  obtain ⟨es, st, run⟩ := (parallelBfs_spec (s := 1) (by decide) hst.lt (by decide)).1.exists_stuck
  obtain ⟨es', st', run'⟩ := (parallelWcc_spec true hst.lt hsym hedges).1.exists_stuck
  obtain ⟨es'', st'', run''⟩ := (wccSv_spec (pathDb_built.mapGraph_ok (by decide) (by decide)
    (by decide) (by decide) 8) 20).1.exists_stuck
  rw [← hst.count] at run run'
  obtain ⟨m, m', m'', r, r'', rfl, -, -, hr, -, h⟩ := parallelBfs_component (by decide) (by decide)
    (by decide) (by decide) pathDb_built pathGraph_symmetric hedges true 8 20 (s := 1) (by decide)
    ⟨es, run⟩ ⟨es', run'⟩ ⟨es'', run''⟩
  exact ⟨m, r, m'.label, ⟨es, run⟩, hr, fun v hv => (h v hv).1⟩

end BwGraph
