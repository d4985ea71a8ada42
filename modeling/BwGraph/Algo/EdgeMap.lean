import Mathlib.Algebra.Order.BigOperators.Group.Finset
import BwGraph.Algo.Bfs

/-
  The edge map of the algorithms (`edge_map.h`, `vertex_set.h`) and the wcc functors' common
  ground. A functor is called for pairs of a source and a destination; each atomic access of its
  `update_atomic` is a step. A dense map pulls: one task per page goes through the vertices of the
  page and calls for their neighbours in the frontier until a call returns true; after the pages
  one more task goes through the giant vertices. A sparse map pushes along the lists of the active
  vertices. Ranges, arenas and the grouping of active vertices by page only restrict the order of
  the steps.

  The output of a map is kept with the tasks (`marked`): it is read only after the map, and the
  order of a sparse frontier is that of tasks which run in any order.

  `MapStep` says what a step of a task can do, whatever the mode, in terms of the pairs it has left.
-/

namespace BwGraph

open List Nat CsrPool CsrPage

/-- `vertex_subset_t`: flags, or a list that may have repetitions. -/
inductive VertexSubset where
  | dense (d : VId → Bool)
  | sparse (s : List VId)

namespace VertexSubset

/-- `num_non_zeros`. -/
def numNonZeros (n : Nat) : VertexSubset → Nat
  | dense d => ((List.range n).filter d).length
  | sparse s => s.length

/-- `is_in`, after `to_dense`. -/
def isIn : VertexSubset → VId → Bool
  | dense d, v => d v
  | sparse s, v => decide (v ∈ s)

/-- The vertices `vtx`, after `to_sparse`. -/
def toSparse (n : Nat) : VertexSubset → List VId
  | dense d => (List.range n).filter d
  | sparse s => s

variable {a : VertexSubset}

variable {n : Nat}

theorem mem_toSparse (h : ∀ v, a.isIn v = true → v < n) {v : VId} :
    v ∈ a.toSparse n ↔ a.isIn v = true := by
  cases a with
  | dense d =>
    refine ⟨fun hv => (mem_filter.1 hv).2, fun hv => ?_⟩
    exact mem_filter.2 ⟨mem_range.2 (h v hv), hv⟩
  | sparse s => exact decide_eq_true_iff.symm

theorem numNonZeros_eq_zero (h : a.numNonZeros n = 0) {v : VId} (hv : v < n) :
    a.isIn v = false := by
  cases a with
  | dense d =>
    rw [Bool.eq_false_iff]
    intro hd
    have hmem : v ∈ (range n).filter d := mem_filter.2 ⟨mem_range.2 hv, hd⟩
    rw [eq_nil_of_length_eq_zero h] at hmem
    cases hmem
  | sparse s =>
    obtain rfl := eq_nil_of_length_eq_zero h
    simp [isIn]

theorem exists_of_numNonZeros (h : a.numNonZeros n ≠ 0) : ∃ v, a.isIn v = true := by
  cases a with
  | dense d =>
    obtain ⟨v, hv⟩ := exists_mem_of_length_pos (Nat.pos_of_ne_zero h)
    exact ⟨v, (mem_filter.1 hv).2⟩
  | sparse s =>
    obtain ⟨v, hv⟩ := exists_mem_of_length_pos (Nat.pos_of_ne_zero h)
    exact ⟨v, decide_eq_true hv⟩

end VertexSubset

/-- A functor with the memory `σ` and the local state `ρ` of a call of `update_atomic`. -/
structure EdgeFunctor (σ ρ : Type) where
  cond : σ → VId → Bool
  /-- The call with a source and a destination. -/
  start : VId → VId → ρ
  /-- One atomic access, after which the call goes on or returns. -/
  next : σ → ρ → σ × (ρ ⊕ Bool)

/-- The two loops of `bw_edge_map`. -/
inductive EdgeMapMode where
  | dense
  | sparse
  deriving DecidableEq

/-- Where a task stands; `key` is the vertex whose list is scanned, `rest` what is left of it. -/
inductive MapPc (ρ : Type) where
  /-- Before the next vertex of the page. -/
  | next
  | scan (key : VId) (rest : List VId)
  | call (src dst : VId) (rest : List VId) (r : ρ)

/-- One page or the giant vertices of a dense map, or one active vertex of a sparse map. -/
structure MapTask (ρ : Type) where
  mode : EdgeMapMode
  /-- The vertices that follow, with their lists. -/
  rows : List (VId × List VId)
  pc : MapPc ρ
  /-- What the task has put into the output. -/
  marked : List VId

variable {σ ρ : Type}

/-- One step of the loops of `bw_edge_map_dense`. -/
def edgeMapDenseNext (f : EdgeFunctor σ ρ) (isIn : VId → Bool) (m : σ) (t : MapTask ρ) :
    Option (σ × MapTask ρ) :=
  match t.pc with
  | .next =>
    match t.rows with
    | [] => none
    | (dst, neighbors) :: rows =>
      if f.cond m dst then some (m, { t with rows := rows, pc := .scan dst neighbors })
      else some (m, { t with rows := rows })
  | .scan _ [] => some (m, { t with pc := .next })
  | .scan dst (src :: rest) =>
    if isIn src then some (m, { t with pc := .call src dst rest (f.start src dst) })
    else some (m, { t with pc := .scan dst rest })
  | .call src dst rest r =>
    match f.next m r with
    | (m', .inl r') => some (m', { t with pc := .call src dst rest r' })
    | (m', .inr false) => some (m', { t with pc := .scan dst rest })
    | (m', .inr true) => some (m', { t with pc := .next, marked := t.marked ++ [dst] })

/-- One step of the loop of `bw_edge_map_sparse` over the list of an active vertex. -/
def edgeMapSparseNext (f : EdgeFunctor σ ρ) (m : σ) (t : MapTask ρ) : Option (σ × MapTask ρ) :=
  match t.pc with
  | .next => none
  | .scan _ [] => some (m, { t with pc := .next })
  | .scan src (dst :: rest) =>
    if f.cond m dst then some (m, { t with pc := .call src dst rest (f.start src dst) })
    else some (m, { t with pc := .scan src rest })
  | .call src dst rest r =>
    match f.next m r with
    | (m', .inl r') => some (m', { t with pc := .call src dst rest r' })
    | (m', .inr false) => some (m', { t with pc := .scan src rest })
    | (m', .inr true) => some (m', { t with pc := .scan src rest, marked := t.marked ++ [dst] })

/-- One step of a task. -/
def edgeMapNext (f : EdgeFunctor σ ρ) (isIn : VId → Bool) (m : σ) (t : MapTask ρ) :
    Option (σ × MapTask ρ) :=
  match t.mode with
  | .dense => edgeMapDenseNext f isIn m t
  | .sparse => edgeMapSparseNext f m t

/-- What an edge map reads of the database. -/
structure MapGraph where
  vertexCount : Nat
  /-- `read_neighbor`. -/
  nbrs : VId → List VId
  /-- The undeleted vertices of each page, with the lists of the page. -/
  pages : List (List (VId × List VId))
  /-- The giant vertices, with the lists of the giant store. -/
  giants : List (VId × List VId)
  /-- `get_total_edge_count`. -/
  totalEdges : Nat

namespace MapGraph

/-- The dense mode is chosen for frontiers above the threshold. -/
def usesDense (g : MapGraph) (thresholdDivisor activeCount : Nat) : Bool :=
  let threshold := if g.totalEdges > 0 then g.totalEdges / thresholdDivisor
    else g.vertexCount / thresholdDivisor
  decide (activeCount > threshold)

/-- The parallel part of a dense map. -/
def pageTasks (g : MapGraph) : List (MapTask ρ) := g.pages.map fun rows => ⟨.dense, rows, .next, []⟩

/-- The loop over the giant vertices. -/
def giantTasks (g : MapGraph) : List (MapTask ρ) := [⟨.dense, g.giants, .next, []⟩]

/-- A sparse map. -/
def sparseTasks (g : MapGraph) (active : List VId) : List (MapTask ρ) :=
  active.map fun src => ⟨.sparse, [], .scan src (g.nbrs src), []⟩

/-- The stored edges. -/
def Edge (g : MapGraph) (u v : VId) : Prop := StoredEdge g.vertexCount g.nbrs u v

/-- The pages and the giant vertices together have the stored edges. -/
structure Ok (g : MapGraph) : Prop where
  lt : ∀ v, v < g.vertexCount → ∀ d ∈ g.nbrs v, d < g.vertexCount
  edge_iff : ∀ u v, g.Edge u v ↔ ∃ rows ∈ g.giants :: g.pages, ∃ row ∈ rows, row.1 = u ∧ v ∈ row.2

end MapGraph

/-! ## What a step can do -/

/-- The pair of a call for `x` in the list of `key`. -/
def EdgeMapMode.pair (mode : EdgeMapMode) (key x : VId) : VId × VId :=
  match mode with
  | .dense => (x, key)
  | .sparse => (key, x)

namespace MapTask

/-- The call that is running. -/
def call (t : MapTask ρ) : Option (VId × VId × ρ) :=
  match t.pc with
  | .call src dst _ r => some (src, dst, r)
  | _ => none

/-- The pairs of the list that is scanned that a dense task skips when the running call returns
true. -/
def skipped (t : MapTask ρ) : List (VId × VId) :=
  match t.mode, t.pc with
  | .dense, .call _ dst rest _ => rest.map (EdgeMapMode.dense.pair dst)
  | _, _ => []

/-- The pairs of the list that is scanned. -/
def current (t : MapTask ρ) : List (VId × VId) :=
  match t.pc with
  | .next => []
  | .scan key rest => rest.map (t.mode.pair key)
  | .call src dst rest _ =>
    (src, dst) :: match t.mode with
      | .dense => rest.map (EdgeMapMode.dense.pair dst)
      | .sparse => rest.map (EdgeMapMode.sparse.pair src)

/-- The pairs that are left. -/
def left (t : MapTask ρ) : List (VId × VId) :=
  t.current ++ match t.mode with
    | .dense => t.rows.flatMap fun row => row.2.map (EdgeMapMode.dense.pair row.1)
    | .sparse => []

theorem call_mem_left {t : MapTask ρ} {src dst : VId} {r : ρ} (h : t.call = some (src, dst, r)) :
    (src, dst) ∈ t.left := by
  obtain ⟨mode, rows, pc, marked⟩ := t
  cases pc with
  | next => cases h
  | scan key rest => cases h
  | call src' dst' rest r' =>
    cases h
    exact mem_append_left _ mem_cons_self

end MapTask

/-- The calls that the rows of dense tasks ask for. -/
def rowPairs (rowss : List (List (VId × List VId))) (src dst : VId) : Prop :=
  ∃ rows ∈ rowss, ∃ row ∈ rows, row.1 = dst ∧ src ∈ row.2

variable {p : VId × VId}

theorem mem_left_dense {rows : List (VId × List VId)} {marked : List VId} :
    p ∈ (⟨.dense, rows, .next, marked⟩ : MapTask ρ).left ↔
      ∃ row ∈ rows, row.1 = p.2 ∧ p.1 ∈ row.2 := by
  simp only [MapTask.left, MapTask.current, nil_append, mem_flatMap, mem_map,
    EdgeMapMode.pair]
  constructor
  · rintro ⟨row, hrow, src, hsrc, rfl⟩
    exact ⟨row, hrow, rfl, hsrc⟩
  · rintro ⟨row, hrow, heq, hsrc⟩
    exact ⟨row, hrow, p.1, hsrc, Prod.ext rfl heq⟩

theorem mem_left_sparse {src : VId} {rest marked : List VId} :
    p ∈ (⟨.sparse, [], .scan src rest, marked⟩ : MapTask ρ).left ↔ p.1 = src ∧ p.2 ∈ rest := by
  simp only [MapTask.left, MapTask.current, append_nil, mem_map, EdgeMapMode.pair]
  constructor
  · rintro ⟨dst, hdst, rfl⟩
    exact ⟨rfl, hdst⟩
  · rintro ⟨heq, hdst⟩
    exact ⟨p.2, hdst, Prod.ext heq.symm rfl⟩

/-- The tasks of the three kinds of maps. -/
theorem MapGraph.Ok.tasks {g : MapGraph} (hg : g.Ok) {active : List VId}
    (hactive : ∀ v ∈ active, v < g.vertexCount) {tasks : List (MapTask ρ)}
    (htasks : tasks = g.pageTasks ∨ tasks = g.giantTasks ∨ tasks = g.sparseTasks active) :
    ∀ t ∈ tasks, t.call = none ∧ t.marked = [] ∧
      ∀ p ∈ t.left, g.Edge p.1 p.2 ∨ g.Edge p.2 p.1 := by
  have hrows : ∀ rows ∈ g.giants :: g.pages, ∀ row ∈ rows, ∀ v ∈ row.2, g.Edge row.1 v :=
    fun rows hrows row hrow v hv => (hg.edge_iff _ _).2 ⟨rows, hrows, row, hrow, rfl, hv⟩
  intro t ht
  rcases htasks with rfl | rfl | rfl
  · obtain ⟨rows, hr, rfl⟩ := mem_map.1 ht
    refine ⟨rfl, rfl, fun p hp => ?_⟩
    obtain ⟨row, hrow, heq, hsrc⟩ := mem_left_dense.1 hp
    exact .inr (heq ▸ hrows rows (mem_cons_of_mem _ hr) row hrow _ hsrc)
  · rw [mem_singleton.1 ht]
    refine ⟨rfl, rfl, fun p hp => ?_⟩
    obtain ⟨row, hrow, heq, hsrc⟩ := mem_left_dense.1 hp
    exact .inr (heq ▸ hrows _ mem_cons_self row hrow _ hsrc)
  · obtain ⟨v, hv, rfl⟩ := mem_map.1 ht
    refine ⟨rfl, rfl, fun p hp => ?_⟩
    obtain ⟨rfl, hdst⟩ := mem_left_sparse.1 hp
    exact .inl ⟨hactive _ hv, hdst⟩

/-- What a step of a task can do. -/
inductive MapStep (f : EdgeFunctor σ ρ) (isIn : VId → Bool) (m : σ) (t : MapTask ρ) :
    σ → MapTask ρ → Prop
  /-- It goes on in its lists, past pairs it does not call for. -/
  | idle {t' : MapTask ρ} (call : t.call = none) (call' : t'.call = none)
      (keep : ∀ p ∈ t.left, isIn p.1 = true → p ∈ t'.left) (sub : t'.left ⊆ t.left)
      (marked : t'.marked = t.marked) : MapStep f isIn m t m t'
  /-- It calls for a pair. -/
  | start {t' : MapTask ρ} {src dst : VId} (call : t.call = none)
      (call' : t'.call = some (src, dst, f.start src dst)) (left : t'.left = t.left)
      (marked : t'.marked = t.marked) : MapStep f isIn m t m t'
  /-- The call goes on. -/
  | inner {m' : σ} {t' : MapTask ρ} {src dst : VId} {r r' : ρ} (call : t.call = some (src, dst, r))
      (next : f.next m r = (m', .inl r')) (call' : t'.call = some (src, dst, r'))
      (left : t'.left = t.left) (marked : t'.marked = t.marked) : MapStep f isIn m t m' t'
  /-- The call returns. -/
  | ret {m' : σ} {t' : MapTask ρ} {src dst : VId} {r : ρ} {b : Bool}
      (call : t.call = some (src, dst, r)) (next : f.next m r = (m', .inr b))
      (call' : t'.call = none)
      (keep : ∀ p ∈ t.left, p = (src, dst) ∨ p ∈ t'.left ∨ b = true ∧ p ∈ t.skipped)
      (sub : t'.left ⊆ t.left) (marked : t'.marked = if b then t.marked ++ [dst] else t.marked) :
      MapStep f isIn m t m' t'

/-- What a step of a task can do when the functor has a condition: pairs whose destination does not
meet it are passed by as well. -/
inductive CondStep (f : EdgeFunctor σ ρ) (isIn : VId → Bool) (m : σ) (t : MapTask ρ) :
    σ → MapTask ρ → Prop
  | idle {t' : MapTask ρ} (call : t.call = none) (call' : t'.call = none)
      (keep : ∀ p ∈ t.left, isIn p.1 = true → p ∈ t'.left ∨ f.cond m p.2 = false)
      (sub : t'.left ⊆ t.left) (mode : t'.mode = t.mode) (marked : t'.marked = t.marked) :
      CondStep f isIn m t m t'
  | start {t' : MapTask ρ} {src dst : VId} (call : t.call = none)
      (call' : t'.call = some (src, dst, f.start src dst)) (left : t'.left = t.left)
      (active : t.mode = .dense → isIn src = true) (mode : t'.mode = t.mode)
      (marked : t'.marked = t.marked) : CondStep f isIn m t m t'
  | inner {m' : σ} {t' : MapTask ρ} {src dst : VId} {r r' : ρ} (call : t.call = some (src, dst, r))
      (next : f.next m r = (m', .inl r')) (call' : t'.call = some (src, dst, r'))
      (left : t'.left = t.left) (mode : t'.mode = t.mode) (marked : t'.marked = t.marked) :
      CondStep f isIn m t m' t'
  | ret {m' : σ} {t' : MapTask ρ} {src dst : VId} {r : ρ} {b : Bool}
      (call : t.call = some (src, dst, r)) (next : f.next m r = (m', .inr b))
      (call' : t'.call = none)
      (keep : ∀ p ∈ t.left, p = (src, dst) ∨ p ∈ t'.left ∨ b = true ∧ p ∈ t.skipped)
      (sub : t'.left ⊆ t.left) (mode : t'.mode = t.mode)
      (marked : t'.marked = if b then t.marked ++ [dst] else t.marked) : CondStep f isIn m t m' t'

/-- A skipped pair has the destination of the call. -/
theorem MapTask.snd_of_mem_skipped {t : MapTask ρ} {src dst : VId} {r : ρ}
    (hcall : t.call = some (src, dst, r)) (h : p ∈ t.skipped) : p.2 = dst := by
  obtain ⟨mode, rows, pc, marked⟩ := t
  cases pc with
  | next => cases hcall
  | scan key rest => cases hcall
  | call src' dst' rest r' =>
    cases hcall
    cases mode with
    | sparse => cases h
    | dense =>
      obtain ⟨x, -, rfl⟩ := mem_map.1 h
      rfl

theorem MapTask.left_cons (dst : VId) (neighbors : List VId) (rows : List (VId × List VId))
    (marked : List VId) : (⟨.dense, (dst, neighbors) :: rows, .next, marked⟩ : MapTask ρ).left =
      neighbors.map (EdgeMapMode.dense.pair dst) ++
        (⟨.dense, rows, .next, marked⟩ : MapTask ρ).left := by
  simp [MapTask.left, MapTask.current]

variable {f : EdgeFunctor σ ρ} {t t' : MapTask ρ} {m m' : σ}

variable {isIn : VId → Bool}

theorem edgeMapDenseNext_step (hmode : t.mode = .dense)
    (h : edgeMapDenseNext f isIn m t = some (m', t')) : CondStep f isIn m t m' t' := by
  obtain ⟨mode, rows, pc, marked⟩ := t
  obtain rfl : mode = .dense := hmode
  cases pc with
  | next =>
    cases rows with
    | nil => cases h
    | cons row rows =>
      obtain ⟨dst, neighbors⟩ := row
      simp only [edgeMapDenseNext] at h
      split_ifs at h with hcond
      · cases h
        exact .idle rfl rfl (fun p hp _ => .inl (by simpa [MapTask.left, MapTask.current] using hp))
          (fun p hp => by simpa [MapTask.left, MapTask.current] using hp) rfl rfl
      · cases h
        refine .idle rfl rfl (fun p hp _ => ?_) (fun p hp => ?_) rfl rfl
        · rw [MapTask.left_cons] at hp
          rcases mem_append.1 hp with hp | hp
          · obtain ⟨src, -, rfl⟩ := mem_map.1 hp
            exact .inr (Bool.eq_false_iff.2 hcond)
          · exact .inl hp
        · rw [MapTask.left_cons]
          exact mem_append_right _ hp
  | scan dst rest =>
    cases rest with
    | nil =>
      cases h
      exact .idle rfl rfl (fun p hp _ => .inl hp) (fun p hp => hp) rfl rfl
    | cons src rest =>
      simp only [edgeMapDenseNext] at h
      split_ifs at h with hin
      · cases h
        exact .start rfl rfl rfl (fun _ => hin) rfl rfl
      · cases h
        refine .idle rfl rfl (fun p hp hp' => ?_) (fun p hp => mem_cons_of_mem _ hp) rfl rfl
        rcases mem_cons.1 hp with rfl | hp
        · exact absurd hp' hin
        · exact .inl hp
  | call src dst rest r =>
    simp only [edgeMapDenseNext] at h
    rcases hnext : f.next m r with ⟨m2, res⟩
    rw [hnext] at h
    cases res with
    | inl r' =>
      cases h
      exact .inner rfl hnext rfl rfl rfl rfl
    | inr b =>
      cases b with
      | false =>
        cases h
        exact .ret rfl hnext rfl (fun p hp => (mem_cons.1 hp).imp_right .inl)
          (fun p hp => mem_cons_of_mem _ hp) rfl rfl
      | true =>
        cases h
        refine .ret rfl hnext rfl (fun p hp => ?_) (fun p hp => ?_) rfl rfl
        · rcases mem_append.1 hp with hp | hp
          · exact (mem_cons.1 hp).imp_right fun hp => .inr ⟨rfl, hp⟩
          · exact .inr (.inl hp)
        · exact mem_append_right _ hp

theorem edgeMapSparseNext_step (hmode : t.mode = .sparse)
    (h : edgeMapSparseNext f m t = some (m', t')) : CondStep f isIn m t m' t' := by
  obtain ⟨mode, rows, pc, marked⟩ := t
  obtain rfl : mode = .sparse := hmode
  cases pc with
  | next => cases h
  | scan src rest =>
    cases rest with
    | nil =>
      cases h
      exact .idle rfl rfl (fun p hp _ => .inl hp) (fun p hp => hp) rfl rfl
    | cons dst rest =>
      simp only [edgeMapSparseNext] at h
      split_ifs at h with hcond
      · cases h
        exact .start rfl rfl rfl (fun hdense => nomatch hdense) rfl rfl
      · cases h
        refine .idle rfl rfl (fun p hp _ => ?_) (fun p hp => mem_cons_of_mem _ hp) rfl rfl
        rcases mem_cons.1 hp with rfl | hp
        · exact .inr (Bool.eq_false_iff.2 hcond)
        · exact .inl hp
  | call src dst rest r =>
    simp only [edgeMapSparseNext] at h
    rcases hnext : f.next m r with ⟨m2, res⟩
    rw [hnext] at h
    cases res with
    | inl r' =>
      cases h
      exact .inner rfl hnext rfl rfl rfl rfl
    | inr b =>
      cases b with
      | false =>
        cases h
        exact .ret rfl hnext rfl (fun p hp => (mem_cons.1 hp).imp_right .inl)
          (fun p hp => mem_cons_of_mem _ hp) rfl rfl
      | true =>
        cases h
        exact .ret rfl hnext rfl (fun p hp => (mem_cons.1 hp).imp_right .inl)
          (fun p hp => mem_cons_of_mem _ hp) rfl rfl

theorem edgeMapNext_condStep (h : edgeMapNext f isIn m t = some (m', t')) :
    CondStep f isIn m t m' t' := by
  unfold edgeMapNext at h
  cases hmode : t.mode with
  | dense =>
    rw [hmode] at h
    exact edgeMapDenseNext_step hmode h
  | sparse =>
    rw [hmode] at h
    exact edgeMapSparseNext_step hmode h

/-- A functor without a condition: every step of a task is a `MapStep`. -/
theorem edgeMapNext_step (hcond : ∀ m v, f.cond m v = true)
    (h : edgeMapNext f isIn m t = some (m', t')) : MapStep f isIn m t m' t' := by
  cases edgeMapNext_condStep h with
  | idle call call' keep sub mode marked =>
    refine .idle call call' (fun p hp hin => (keep p hp hin).resolve_right ?_) sub marked
    rw [hcond]
    exact Bool.true_eq_false_eq_False
  | start call call' left active mode marked => exact .start call call' left marked
  | inner call next call' left mode marked => exact .inner call next call' left marked
  | ret call next call' keep sub mode marked => exact .ret call next call' keep sub marked

/-- A finished task has no pairs left. -/
theorem edgeMapNext_eq_none {m : σ} {t : MapTask ρ} (h : edgeMapNext f isIn m t = none) :
    t.left = [] ∧ t.call = none := by
  obtain ⟨mode, rows, pc, marked⟩ := t
  cases mode with
  | dense =>
    simp only [edgeMapNext, edgeMapDenseNext] at h
    cases pc with
    | next =>
      cases rows with
      | nil => exact ⟨rfl, rfl⟩
      | cons row rows =>
        dsimp only at h
        split_ifs at h
    | scan dst rest =>
      cases rest with
      | nil => cases h
      | cons src rest =>
        dsimp only at h
        split_ifs at h
    | call src dst rest r =>
      rcases hnext : f.next m r with ⟨m2, r' | b⟩
      · simp [hnext] at h
      · cases b <;> simp [hnext] at h
  | sparse =>
    simp only [edgeMapNext, edgeMapSparseNext] at h
    cases pc with
    | next => exact ⟨rfl, rfl⟩
    | scan src rest =>
      cases rest with
      | nil => cases h
      | cons dst rest =>
        dsimp only at h
        split_ifs at h
    | call src dst rest r =>
      rcases hnext : f.next m r with ⟨m2, r' | b⟩
      · simp [hnext] at h
      · cases b <;> simp [hnext] at h

/-! ## The length of a map -/

/-- A measure of the steps that a task has left, when a call takes at most `bound`. -/
def MapTask.rank (bound : Nat) (callRank : ρ → Nat) (t : MapTask ρ) : Nat :=
  (t.rows.map fun row => (bound + 2) * row.2.length + 2).sum + match t.pc with
    | .next => 0
    | .scan _ rest => (bound + 2) * rest.length + 1
    | .call _ _ rest r => (bound + 2) * rest.length + 2 + callRank r

variable {callRank : ρ → Nat}

/-- Every step lowers the rank, if the steps of a call lower its rank. -/
theorem edgeMapNext_rank {bound : Nat} (hstart : ∀ p ∈ t.left, callRank (f.start p.1 p.2) ≤ bound)
    (hinner : ∀ src dst r m2 r', t.call = some (src, dst, r) → f.next m r = (m2, .inl r') →
      callRank r' < callRank r) (h : edgeMapNext f isIn m t = some (m', t')) :
    t'.rank bound callRank < t.rank bound callRank := by
  obtain ⟨mode, rows, pc, marked⟩ := t
  cases mode with
  | dense =>
    simp only [edgeMapNext, edgeMapDenseNext] at h
    cases pc with
    | next =>
      cases rows with
      | nil => cases h
      | cons row rows =>
        dsimp only at h
        split_ifs at h
        · cases h
          simp only [MapTask.rank, map_cons, sum_cons]
          omega
        · cases h
          simp only [MapTask.rank, map_cons, sum_cons]
          omega
    | scan dst rest =>
      cases rest with
      | nil =>
        cases h
        simp [MapTask.rank]
      | cons src rest =>
        dsimp only at h
        have hs : callRank (f.start src dst) ≤ bound := hstart (src, dst) mem_cons_self
        split_ifs at h
        · cases h
          simp only [MapTask.rank, length_cons, mul_succ]
          omega
        · cases h
          simp only [MapTask.rank, length_cons, mul_succ]
          omega
    | call src dst rest r =>
      rcases hnext : f.next m r with ⟨m2, r' | b⟩
      · have hlt := hinner src dst r m2 r' rfl hnext
        simp only [hnext] at h
        cases h
        simp only [MapTask.rank]
        omega
      · cases b with
        | false =>
          simp only [hnext] at h
          cases h
          simp only [MapTask.rank]
          omega
        | true =>
          simp only [hnext] at h
          cases h
          simp only [MapTask.rank]
          omega
  | sparse =>
    simp only [edgeMapNext, edgeMapSparseNext] at h
    cases pc with
    | next => cases h
    | scan src rest =>
      cases rest with
      | nil =>
        cases h
        simp [MapTask.rank]
      | cons dst rest =>
        dsimp only at h
        have hs : callRank (f.start src dst) ≤ bound := hstart (src, dst) mem_cons_self
        split_ifs at h
        · cases h
          simp only [MapTask.rank, length_cons, mul_succ]
          omega
        · cases h
          simp only [MapTask.rank, length_cons, mul_succ]
          omega
    | call src dst rest r =>
      rcases hnext : f.next m r with ⟨m2, r' | b⟩
      · have hlt := hinner src dst r m2 r' rfl hnext
        simp only [hnext] at h
        cases h
        simp only [MapTask.rank]
        omega
      · cases b with
        | false =>
          simp only [hnext] at h
          cases h
          simp only [MapTask.rank]
          omega
        | true =>
          simp only [hnext] at h
          cases h
          simp only [MapTask.rank]
          omega

/-! ## Maps without output -/

/-- A task of `bw_edge_map_no_output`: the edges that it has left, and the call that is running. -/
structure EdgeTask (ρ : Type) where
  edges : List (VId × VId)
  call : Option ρ

/-- One step of the loops of `bw_edge_map_no_output` over the edges of active sources. -/
def edgeMapNoOutputNext (f : EdgeFunctor σ ρ) (m : σ) (t : EdgeTask ρ) :
    Option (σ × EdgeTask ρ) :=
  match t.call with
  | some r =>
    match f.next m r with
    | (m', .inl r') => some (m', { t with call := some r' })
    | (m', .inr _) => some (m', { t with call := none })
  | none =>
    match t.edges with
    | [] => none
    | (src, dst) :: edges =>
      if f.cond m dst then some (m, ⟨edges, some (f.start src dst)⟩) else some (m, ⟨edges, none⟩)

/-- A finished task has no edge left and no call running. -/
theorem edgeMapNoOutputNext_eq_none {m : σ} {t : EdgeTask ρ}
    (h : edgeMapNoOutputNext f m t = none) : t = ⟨[], none⟩ := by
  obtain ⟨edges, call⟩ := t
  cases call with
  | some r =>
    simp only [edgeMapNoOutputNext] at h
    rcases hnext : f.next m r with ⟨m2, r' | b⟩
    · simp [hnext] at h
    · simp [hnext] at h
  | none =>
    cases edges with
    | nil => rfl
    | cons e edges =>
      simp only [edgeMapNoOutputNext] at h
      split_ifs at h

/-- A measure of the steps that a task has left, when a call takes at most `bound`. -/
def EdgeTask.rank (bound : Nat) (callRank : ρ → Nat) (t : EdgeTask ρ) : Nat :=
  (bound + 2) * t.edges.length + match t.call with
    | none => 0
    | some r => callRank r + 1

/-- Every step lowers the rank, if the steps of a call lower its rank. -/
theorem edgeMapNoOutputNext_rank {bound : Nat}
    (hstart : ∀ src dst, callRank (f.start src dst) ≤ bound)
    (hinner : ∀ m r m' r', f.next m r = (m', .inl r') → callRank r' < callRank r)
    {t t' : EdgeTask ρ} (h : edgeMapNoOutputNext f m t = some (m', t')) :
    t'.rank bound callRank < t.rank bound callRank := by
  obtain ⟨edges, call⟩ := t
  cases call with
  | some r =>
    simp only [edgeMapNoOutputNext] at h
    rcases hnext : f.next m r with ⟨m2, r' | b⟩
    · have hlt := hinner m r m2 r' hnext
      simp only [hnext] at h
      cases h
      simp only [EdgeTask.rank]
      omega
    · simp only [hnext] at h
      cases h
      simp only [EdgeTask.rank]
      omega
  | none =>
    cases edges with
    | nil => cases h
    | cons e edges =>
      have hs := hstart e.1 e.2
      simp only [edgeMapNoOutputNext] at h
      split_ifs at h
      · cases h
        simp only [EdgeTask.rank, length_cons, mul_succ]
        omega
      · cases h
        simp only [EdgeTask.rank, length_cons, mul_succ]
        omega

/-- The sum of labels, then a weight below 8. -/
def labelSize (n : Nat) (label : VId → VId) (weight : Nat) : Nat :=
  8 * (∑ v ∈ Finset.range n, label v) + weight

/-- The size goes down with a label, or with the weight if no label goes up. -/
theorem labelSize_lt {n : Nat} {label1 label : VId → VId} {weight1 weight : Nat}
    (hle : ∀ v, label v ≤ label1 v)
    (h : (∃ v, v < n ∧ label v < label1 v) ∧ weight < weight1 + 8 ∨ weight < weight1) :
    labelSize n label weight < labelSize n label1 weight1 := by
  have hsum : ∑ v ∈ Finset.range n, label v ≤ ∑ v ∈ Finset.range n, label1 v :=
    Finset.sum_le_sum fun v _ => hle v
  unfold labelSize
  rcases h with ⟨⟨v, hv, hlt⟩, hw⟩ | hw
  · have hsum' : ∑ v ∈ Finset.range n, label v + 1 ≤ ∑ v ∈ Finset.range n, label1 v :=
      Finset.sum_lt_sum (fun v _ => hle v) ⟨v, Finset.mem_range.2 hv, hlt⟩
    have := Nat.mul_le_mul_left 8 hsum'
    rw [Nat.mul_add] at this
    omega
  · have := Nat.mul_le_mul_left 8 hsum
    omega

/-! ## Databases that were just built -/

/-- The undeleted vertices of a page. -/
def Db.pageRows (cfg : Config) (db : Db) (p : PageNo) : List (VId × List VId) :=
  ((db.csrPool.page p).vertexSpan.zipIdx.filter fun x => !x.1.isDeleted).map fun x =>
    (x.1.vertexId, (db.csrPool.page p).readNeighbors cfg x.2)

/-- The giant vertices. -/
def Db.giantRows (db : Db) : List (VId × List VId) :=
  ((List.range db.getVertexCount).filter fun v => !(db.vertexIndex.items v).isDelete &&
    decide ((db.vertexIndex.items v).vertexType = .giant)).map fun v =>
      (v, db.giantDb.readNeighborClone v)

/-- What an edge map reads. After a build `get_page_count` is the number of pages written. -/
def Db.mapGraph (cfg : Config) (db : Db) (totalEdges : Nat) : MapGraph where
  vertexCount := db.getVertexCount
  nbrs := db.base cfg
  pages := (List.range db.csrPool.diskManager.globalPageCount).map (db.pageRows cfg)
  giants := db.giantRows
  totalEdges := totalEdges

theorem mem_pageRows {cfg : Config} {db : Db} {p : PageNo} {row : VId × List VId} :
    row ∈ db.pageRows cfg p ↔ ∃ i e, (db.csrPool.page p).vertexSpan[i]? = some e ∧
      e.isDeleted = false ∧ row = (e.vertexId, (db.csrPool.page p).readNeighbors cfg i) := by
  unfold Db.pageRows
  rw [mem_map]
  constructor
  · rintro ⟨⟨e, i⟩, hx, rfl⟩
    obtain ⟨hmem, hdel⟩ := mem_filter.1 hx
    exact ⟨i, e, mk_mem_zipIdx_iff_getElem?.1 hmem, by simpa using hdel, rfl⟩
  · rintro ⟨i, e, he, hdel, rfl⟩
    refine ⟨(e, i), mem_filter.2 ⟨mk_mem_zipIdx_iff_getElem?.2 he, ?_⟩, rfl⟩
    simpa using hdel

variable {page : CsrPage}

/-- An entry with a giant degree has no neighbours on its page. -/
theorem CsrPage.readNeighbors_of_giant {cfg : Config} {i : Nat} {e : CsrVertex}
    (he : page.vertexSpan[i]? = some e) (hdeg : cfg.giantDegreeBound ≤ e.degree) :
    page.readNeighbors cfg i = [] := by
  simp [readNeighbors, getNeighborPtvRange, getNeighbors, he, hdeg]

variable {cfg : Config} {g : MemGraph} {db : Db}

theorem Built.placed (hn : g.vertexCount ≤ cfg.idLimit) (h : Built cfg g db) :
    ∃ paged, PlacedDb cfg g paged db := by
  rcases h with ⟨env, partition, hpart, h⟩ | h
  · exact ⟨_, buildStandardDb_placed hn hpart h⟩
  · exact ⟨_, h.placed hn⟩

/-- The entries of the page have the degrees of their vertices. -/
def DegreesOf (g : MemGraph) (page : CsrPage) : Prop :=
  ∀ (i : Nat) (e : CsrVertex), page.vertexSpan[i]? = some e →
    e.degree = (g.neighbors e.vertexId).length

theorem degreesOf_of_laid {slots : VId → Nat} {part : List VId}
    (h : page.Laid cfg slots (part.map fun v => (v, g.neighbors v))) : DegreesOf g page := by
  intro i e he
  rw [h.vertexSpan, getElem?_lay cfg _ (block_giant cfg slots)] at he
  obtain ⟨it, hit, rfl⟩ := Option.map_eq_some_iff.1 he
  rw [getElem?_map, Option.map_eq_some_iff] at hit
  obtain ⟨v, -, rfl⟩ := hit
  rfl

section

variable (hps : 0 < cfg.pageSize) (hn : g.vertexCount ≤ cfg.idLimit) (h : Built cfg g db)
  {q : PageNo} {i : Nat} {e : CsrVertex} (he : (db.csrPool.page q).vertexSpan[i]? = some e)
  (hg : (db.vertexIndex.items e.vertexId).vertexType = .giant)
include hps hn h he hg

/-- The entry of a giant vertex has a giant degree. -/
theorem Built.giant_degree : cfg.giantDegreeBound ≤ e.degree := by
  rcases h with ⟨env, partition, hpart, h⟩ | h
  · have hdeg := (((buildStandardDb_placed hn hpart h).entry hps he).2.2.2).1 hg
    refine hdeg.trans_eq ?_
    obtain ⟨pages, items, hr, rfl⟩ := buildStandardDb_ok h
    have hw := writtenFrom_writePages (create_ok hps env.csrCapacity)
      (fun _ => rfl) 0 pages
    have hall : ∀ q, DegreesOf g
        (((create cfg.pageSize env.csrCapacity).writePages 0 pages).disk q) := by
      refine writePages_forall (fun q i e he => ?_) (fun page hp => ?_) 0
      · cases he
      · obtain ⟨part, vm, hb⟩ := standardPages_mem hr page hp
        exact degreesOf_of_laid (buildFromAdjacencyMap_ok hb).1
    refine (hall q i e ?_).symm
    rw [← page_of_no_frame hw.ok.file (hw.frames q)]
    exact he
  · obtain ⟨-, hmem, -, hiff⟩ := (h.placed hn).entry hps he
    have hng : g.isGiant cfg e.vertexId = false := hmem.2
    have hdeg := hiff.1 hg
    simp [MemGraph.isGiant] at hng
    omega

/-- The entry of a giant vertex has no neighbours on its page. -/
theorem Built.readNeighbors_giant : (db.csrPool.page q).readNeighbors cfg i = [] :=
  readNeighbors_of_giant he (h.giant_degree hps hn he hg)

end

/-- On a database that was just built the rows of an edge map are the stored edges. -/
theorem Built.mapGraph_ok (hps : 0 < cfg.pageSize) (hds : 0 < cfg.deltaPageSize)
    (hn : g.vertexCount ≤ cfg.idLimit) (hv : g.vertexCount < 2 ^ 32) (h : Built cfg g db)
    (totalEdges : Nat) : (db.mapGraph cfg totalEdges).Ok := by
  have hst := h.stores hps hds hn hv
  obtain ⟨paged, hp⟩ := h.placed hn
  obtain ⟨hl, hsize, -⟩ := hp.loaded hps hds hn
  have hcount : (db.mapGraph cfg totalEdges).vertexCount = g.vertexCount := hst.count
  refine ⟨fun v hvn d hd => ?_, fun u v => ⟨fun huv => ?_, ?_⟩⟩
  · rw [hcount] at hvn ⊢
    exact hst.lt v hvn d hd
  · -- a giant vertex is in the giant store, any other on the page of its location
    obtain ⟨hu, hmem⟩ := huv
    have hu' : u < db.vertexIndex.size := by
      rw [hsize, ← hcount]
      exact hu
    by_cases hg : (db.vertexIndex.items u).vertexType = .giant
    · refine ⟨db.giantRows, mem_cons_self, (u, db.giantDb.readNeighborClone u), ?_, rfl, ?_⟩
      · refine mem_map.2 ⟨u, mem_filter.2 ⟨mem_range.2 hu, ?_⟩, rfl⟩
        simp [hl.undeleted u hu', hg]
      · have hmem : v ∈ db.base cfg u := hmem
        rwa [Db.base, if_pos hg] at hmem
    · have hpaged : u ∈ paged := by
        by_contra hc
        exact hg (hl.giant u hu' hc)
      obtain ⟨e, he, rfl, hdel⟩ := hl.entry u hpaged
      refine ⟨db.pageRows cfg (db.location e.vertexId).1, mem_cons_of_mem _ ?_, _,
        mem_pageRows.2 ⟨_, e, he, hdel, rfl⟩, rfl, ?_⟩
      · exact mem_map_of_mem (mem_range.2 (hl.inUse _ hpaged).1)
      · have hmem : v ∈ db.base cfg e.vertexId := hmem
        rwa [Db.base, if_neg hg] at hmem
  · rintro ⟨rows, hrows, row, hrow, rfl, hmem⟩
    rcases mem_cons.1 hrows with rfl | hrows
    · obtain ⟨w, hw, rfl⟩ := mem_map.1 hrow
      obtain ⟨hwn, hg⟩ := mem_filter.1 hw
      have hg : (db.vertexIndex.items w).vertexType = .giant := by
        rw [Bool.and_eq_true, decide_eq_true_iff] at hg
        exact hg.2
      refine ⟨mem_range.1 hwn, ?_⟩
      show v ∈ db.base cfg w
      rw [Db.base, if_pos hg]
      exact hmem
    · obtain ⟨q, -, rfl⟩ := mem_map.1 hrows
      obtain ⟨i, e, he, -, rfl⟩ := mem_pageRows.1 hrow
      obtain ⟨-, hpaged, hloc, -⟩ := hp.entry hps he
      refine ⟨?_, ?_⟩
      · rw [hcount, ← hsize]
        exact hl.pagedLt _ hpaged
      · have hng : ¬ (db.vertexIndex.items e.vertexId).vertexType = .giant := by
          intro hg
          rw [h.readNeighbors_giant hps hn he hg] at hmem
          cases hmem
        show v ∈ db.base cfg e.vertexId
        rw [Db.base, if_neg hng, hloc]
        exact hmem

/-- The stored edges of the map are those of the graph. -/
theorem Stores.mapEdge (h : Stores cfg g db) (totalEdges : Nat) :
    (db.mapGraph cfg totalEdges).Edge = g.Edge := by
  rw [← h.edge]
  show StoredEdge db.getVertexCount (db.base cfg) = _
  rw [h.count]

end BwGraph
