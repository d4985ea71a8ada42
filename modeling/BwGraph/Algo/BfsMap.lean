import Mathlib.Data.List.SplitBy
import BwGraph.Algo.Wcc
import BwGraph.Algo.EdgeMap
import BwGraph.Algo.PageScan

/-
  Breadth-first search with an edge map (`parallel_bfs_map` of `db_algorithm.cc`). In a round every
  vertex without a parent that has a neighbour in the frontier gets one by a compare-and-swap, and
  is in the next frontier. A dense map pulls along the list of the vertex itself, a sparse one
  pushes along the lists of the frontier; on a symmetric graph these are the same edges. A large
  sparse frontier is grouped by page when the pool does not hold all pages: then a task goes through
  the vertices of a page, one after the other, and reads their lists from the page.

  Whatever mode is chosen for a round, it finds the vertices of the next level, each once
  (`BmRound`). So the results are those of `bfs` (`parallelBfsMap_bfs`).
-/

namespace BwGraph

open Function List
open ForkJoin hiding next

/-- Where `bw_edge_map` stands. -/
inductive BmPhase where
  /-- At the head of the loop. -/
  | edges
  /-- In a dense map, before the giant vertices; `next` is what the pages have marked. -/
  | giants (next : List VId)

/-- The parents and the frontier of `parallel_bfs_map`. -/
structure BmMem where
  parent : VId → Option VId
  frontier : VertexSubset
  phase : BmPhase

/-- `bfs_functor_t`; a call is one compare-and-swap. -/
def bfsFunctor : EdgeFunctor BmMem (VId × VId) where
  cond m v := decide (m.parent v = none)
  start src dst := (src, dst)
  next m c :=
    if m.parent c.2 = none then
      ({ m with parent := Function.update m.parent c.2 (some c.1) }, .inr true)
    else (m, .inr false)

/-- The output of the tasks. -/
def bmOutput (ts : List (MapTask (VId × VId))) : List VId := ts.flatMap MapTask.marked

/-- A sparse map with the given groups of active vertices, each with its list. -/
def groupTasks (groups : List (List (VId × List VId))) : List (List (MapTask (VId × VId))) :=
  groups.map fun rows => rows.map fun row => ⟨.sparse, [], .scan row.1 row.2, []⟩

/-- The loop of `parallel_bfs_map`; `groups` are the groups of a sparse frontier. The number of
vertices of a sparse output is a `v_id_t`. -/
def bfsMap (g : MapGraph) (groups : List VId → List (List (VId × List VId)))
    (thresholdDivisor : Nat) : ForkJoin BmMem (List (MapTask (VId × VId))) where
  fork m :=
    match m.phase with
    | .edges =>
      if m.frontier.numNonZeros g.vertexCount = 0 then none
      else some (m, if g.usesDense thresholdDivisor (m.frontier.numNonZeros g.vertexCount) then
        g.pageTasks.map fun t => [t] else groupTasks (groups (m.frontier.toSparse g.vertexCount)))
    | .giants _ => some (m, [g.giantTasks])
  next m := ForkJoin.chainNext (edgeMapNext bfsFunctor m.frontier.isIn) m
  join m ts :=
    match m.phase with
    | .edges =>
      if g.usesDense thresholdDivisor (m.frontier.numNonZeros g.vertexCount) then
        { m with phase := .giants (bmOutput ts.flatten) }
      else
        { m with
          frontier := .sparse ((bmOutput ts.flatten).take ((bmOutput ts.flatten).length % 2 ^ 32)) }
    | .giants next =>
      { m with
        frontier := .dense fun v => decide (v ∈ next ++ bmOutput ts.flatten)
        phase := .edges }

/-- The active vertices in the order of their pages and offsets, with a group for each page. -/
def Db.pageGroups (cfg : Config) (db : Db) (active : List VId) : List (List (VId × List VId)) :=
  let before (lhs rhs : ActiveVertex) : Prop :=
    lhs.pageNo < rhs.pageNo ∨ lhs.pageNo = rhs.pageNo ∧ lhs.offset ≤ rhs.offset
  let sorted := (active.map db.activeVertex).insertionSort before
  (sorted.splitBy fun lhs rhs => lhs.pageNo == rhs.pageNo).map fun group =>
    group.map fun item => (item.src, db.itemNeighbors cfg item)

/-- The groups of a sparse map. -/
def Db.sparseGroups (cfg : Config) (db : Db) (residentPageCapacity : Nat) (active : List VId) :
    List (List (VId × List VId)) :=
  if db.csrPool.diskManager.validPageCount > residentPageCapacity ∧ active.length > 64 then
    db.pageGroups cfg active
  else active.map fun src => [(src, db.base cfg src)]

/-- The divisor is at least 40 when the pool does not hold all pages. -/
def bfsMapDivisor (pageCount residentPageCapacity thresholdDivisor : Nat) : Nat :=
  if pageCount > residentPageCapacity then max thresholdDivisor 40 else thresholdDivisor

/-- `parallel_bfs_map`, up to the results. -/
def parallelBfsMap (cfg : Config) (db : Db)
    (totalEdges residentPageCapacity thresholdDivisor : Nat) :
    ForkJoin BmMem (List (MapTask (VId × VId))) :=
  bfsMap (db.mapGraph cfg totalEdges) (db.sparseGroups cfg residentPageCapacity)
    (bfsMapDivisor db.csrPool.diskManager.validPageCount residentPageCapacity thresholdDivisor)

/-- The start vertex is its own parent. -/
def bfsMapStart (startVertex : VId) : BmMem :=
  ⟨Function.update (fun _ => none) startVertex (some startVertex), .sparse [startVertex], .edges⟩

/-! ## Levels -/

/-- The frontier is level `k`, and of the next level the vertices `next` have been found. -/
structure BmLevel (g : MapGraph) (s : VId) (k : Nat) (next : List VId) (m : BmMem) : Prop where
  frontier : ∀ v, m.frontier.isIn v = true ↔ Walk.Dist g.Edge s v k
  found : ∀ v, m.parent v ≠ none ↔ (∃ d ≤ k, Walk.Dist g.Edge s v d) ∨ v ∈ next
  level : ∀ v ∈ next, Walk.Dist g.Edge s v (k + 1)
  nodup : next.Nodup
  root : m.parent s = some s
  tree : ∀ v u, v ≠ s → m.parent v = some u →
    ∃ d, Walk.Dist g.Edge s u d ∧ Walk.Dist g.Edge s v (d + 1)

section Level

variable {g : MapGraph} {s : VId} {k : Nat} {next next' : List VId} {m : BmMem}

variable (h : BmLevel g s k next m)
include h

theorem BmLevel.perm (hp : next.Perm next') : BmLevel g s k next' m :=
  ⟨h.frontier, fun v => by rw [h.found v, hp.mem_iff], fun v hv => h.level v (hp.mem_iff.2 hv),
    hp.nodup_iff.1 h.nodup, h.root, h.tree⟩

section

variable {src dst : VId} (hsrc : m.frontier.isIn src = true) (hedge : g.Edge src dst)
  (hnone : m.parent dst = none)
include hsrc hedge hnone

/-- A vertex without a parent at an edge from the frontier is one of the next level. -/
theorem BmLevel.dist_succ : Walk.Dist g.Edge s dst (k + 1) := by
  refine ((h.frontier src).1 hsrc).succ hedge fun d hd hh => ?_
  obtain ⟨d', hd', hdist⟩ := hh.exists_dist
  exact (h.found dst).2 (.inl ⟨d', hd'.trans hd, hdist⟩) hnone

/-- The compare-and-swap gives it its parent. -/
theorem BmLevel.cas :
    BmLevel g s k (next ++ [dst])
      { m with parent := update m.parent dst (some src) } := by
  have hdist := h.dist_succ hsrc hedge hnone
  have hnot : dst ∉ next := fun hmem => (h.found dst).2 (.inr hmem) hnone
  have hroot : s ≠ dst := by
    rintro rfl
    rw [h.root] at hnone
    cases hnone
  refine ⟨h.frontier, fun v => ?_, fun v hv => ?_, ?_, ?_, fun v u hvs hu => ?_⟩
  · show update m.parent dst (some src) v ≠ none ↔ _
    by_cases hv : v = dst
    · subst hv
      simp
    · rw [update_of_ne hv, h.found v]
      simp [hv]
  · rcases mem_append.1 hv with hv | hv
    · exact h.level v hv
    · rw [mem_singleton.1 hv]
      exact hdist
  · exact h.nodup.append (nodup_singleton _) (by simpa using hnot)
  · exact (update_of_ne hroot _ _).trans h.root
  · have hu : update m.parent dst (some src) v = some u := hu
    by_cases hv : v = dst
    · subst hv
      rw [update_self] at hu
      cases hu
      exact ⟨k, (h.frontier src).1 hsrc, hdist⟩
    · rw [update_of_ne hv] at hu
      exact h.tree v u hvs hu

end

/-- When the whole next level has been found, it may be the frontier. -/
theorem BmLevel.succ (hall : ∀ u v, g.Edge u v → m.frontier.isIn u = true → m.parent v ≠ none)
    {frontier : VertexSubset} (hfrontier : ∀ v, frontier.isIn v = true ↔ v ∈ next) (phase : BmPhase) :
    BmLevel g s (k + 1) [] { m with frontier := frontier, phase := phase } := by
  have hnext : ∀ v, v ∈ next ↔ Walk.Dist g.Edge s v (k + 1) := by
    refine fun v => ⟨h.level v, fun hd => ?_⟩
    obtain ⟨u, hu, huv⟩ := hd.pred
    rcases (h.found v).1 (hall u v huv ((h.frontier u).2 hu)) with ⟨d, hdk, hd'⟩ | hmem
    · exact absurd (hd'.unique hd) (by omega)
    · exact hmem
  refine ⟨fun v => (hfrontier v).trans (hnext v), fun v => ?_, forall_mem_nil _,
    nodup_nil, h.root, h.tree⟩
  show m.parent v ≠ none ↔ _
  rw [h.found v, hnext v]
  constructor
  · rintro (⟨d, hd, hdist⟩ | hdist)
    · exact .inl ⟨d, hd.trans (Nat.le_succ k), hdist⟩
    · exact .inl ⟨k + 1, le_rfl, hdist⟩
  · rintro (⟨d, hd, hdist⟩ | hmem)
    · rcases Nat.lt_or_eq_of_le hd with hlt | rfl
      · exact .inl ⟨d, Nat.le_of_lt_succ hlt, hdist⟩
      · exact .inr hdist
    · cases hmem

end Level

/-! ## A map -/

/-- What holds of a task: the pairs that it has left lead from the frontier along edges. -/
structure BmTaskOk (g : MapGraph) (isIn : VId → Bool) (t : MapTask (VId × VId)) : Prop where
  edge : ∀ p ∈ t.left, isIn p.1 = true → g.Edge p.1 p.2
  sparse : t.mode = .sparse → ∀ p ∈ t.left, isIn p.1 = true
  call : ∀ src dst r, t.call = some (src, dst, r) → r = (src, dst) ∧ isIn src = true

/-- What holds in a map that was started from `m₁`, when `next` was found before it and `pairs` are
the pairs that it goes through. -/
structure BmRound (g : MapGraph) (s : VId) (k : Nat) (next : List VId) (pairs : VId → VId → Prop)
    (m₁ m : BmMem) (ts : List (MapTask (VId × VId))) : Prop where
  level : BmLevel g s k (next ++ bmOutput ts) m
  phase : m.phase = m₁.phase
  frontier : m.frontier = m₁.frontier
  keep : ∀ v, m₁.parent v ≠ none → m.parent v ≠ none
  fresh : ∀ v ∈ bmOutput ts, m₁.parent v = none
  tasks : ∀ t ∈ ts, BmTaskOk g m.frontier.isIn t
  covered : ∀ u v, pairs u v → m.frontier.isIn u = true →
    m.parent v ≠ none ∨ ∃ t ∈ ts, (u, v) ∈ t.left

section Round

variable {g : MapGraph} {s : VId} {k : Nat} {done : List VId} {pairs : VId → VId → Prop}
  {m₁ m m' : BmMem} {ts : List (MapTask (VId × VId))}

variable {t t' : MapTask (VId × VId)}

variable (h : BmRound g s k done pairs m₁ m ts)
include h

variable {i : Nat}

/-- A task goes on in its lists. -/
theorem BmRound.setTask (ht : ts[i]? = some t) (hmarked : t'.marked = t.marked)
    (hok : BmTaskOk g m.frontier.isIn t')
    (hkeep : ∀ p ∈ t.left, m.frontier.isIn p.1 = true → p ∈ t'.left ∨ m.parent p.2 ≠ none) :
    BmRound g s k done pairs m₁ m (ts.set i t') := by
  have hout : bmOutput (ts.set i t') = bmOutput ts := flatMap_set_eq ht hmarked
  refine ⟨hout ▸ h.level, h.phase, h.frontier, h.keep, hout ▸ h.fresh,
    forall_mem_set h.tasks hok, fun u v huv hu => ?_⟩
  rcases h.covered u v huv hu with hp | hex
  · exact .inl hp
  · rcases exists_mem_set t' ht hex with hex | hleft
    · exact .inr hex
    · rcases hkeep _ hleft hu with hin | hp
      · exact .inr ⟨t', mem_set_self t' ht, hin⟩
      · exact .inl hp

/-- A call returns true: its destination has been found. -/
theorem BmRound.found {src dst : VId} (ht : ts[i]? = some t) (hsrc : m.frontier.isIn src = true)
    (hedge : g.Edge src dst) (hnone : m.parent dst = none) (hmarked : t'.marked = t.marked ++ [dst])
    (hok : BmTaskOk g m.frontier.isIn t') (hkeep : ∀ p ∈ t.left, p.2 = dst ∨ p ∈ t'.left) :
    BmRound g s k done pairs m₁ { m with parent := update m.parent dst (some src) }
      (ts.set i t') := by
  have hout : (bmOutput (ts.set i t')).Perm (bmOutput ts ++ [dst]) :=
    flatMap_set_perm ht hmarked
  have hparent : ∀ v, v = dst ∨ m.parent v ≠ none →
      update m.parent dst (some src) v ≠ none := by
    intro v hv
    by_cases heq : v = dst
    · simp [heq]
    · rw [update_of_ne heq]
      exact hv.resolve_left heq
  refine ⟨?_, h.phase, h.frontier, fun v hv => hparent v (.inr (h.keep v hv)), fun v hv => ?_,
    forall_mem_set h.tasks hok, fun u v huv hu => ?_⟩
  · have hcas := h.level.cas hsrc hedge hnone
    rw [append_assoc] at hcas
    exact hcas.perm (hout.symm.append_left done)
  · rcases mem_append.1 (hout.mem_iff.1 hv) with hv | hv
    · exact h.fresh v hv
    · rw [mem_singleton.1 hv]
      exact by_contra fun hne => h.keep dst hne hnone
  · rcases h.covered u v huv hu with hp | hex
    · exact .inl (hparent v (.inr hp))
    · rcases exists_mem_set t' ht hex with hex | hleft
      · exact .inr hex
      · rcases hkeep _ hleft with hdst | hin
        · exact .inl (hparent v (.inl hdst))
        · exact .inr ⟨t', mem_set_self t' ht, hin⟩

theorem BmRound.next (ht : ts[i]? = some t)
    (hnext : edgeMapNext bfsFunctor m.frontier.isIn m t = some (m', t')) :
    BmRound g s k done pairs m₁ m' (ts.set i t') := by
  have hok := h.tasks t (mem_of_getElem? ht)
  have hsparse : t'.left ⊆ t.left → t'.mode = t.mode → t'.mode = .sparse →
      ∀ p ∈ t'.left, m.frontier.isIn p.1 = true :=
    fun hsub hmode hs p hp => hok.sparse (hmode ▸ hs) p (hsub hp)
  cases edgeMapNext_condStep hnext with
  | idle call call' keep sub mode marked =>
    refine h.setTask ht marked ⟨fun p hp => hok.edge p (sub hp), hsparse sub mode,
      fun src dst r hc => ?_⟩ fun p hp hin => ?_
    · rw [call'] at hc
      cases hc
    · exact (keep p hp hin).imp_right of_decide_eq_false
  | @start _ src dst call call' left active mode marked =>
    refine h.setTask ht marked ⟨fun p hp => hok.edge p (left ▸ hp),
      hsparse (fun p hp => left ▸ hp) mode, fun src' dst' r hc => ?_⟩ fun p hp _ => .inl (left ▸ hp)
    rw [call'] at hc
    cases hc
    refine ⟨rfl, ?_⟩
    cases hmode : t.mode with
    | dense => exact active hmode
    | sparse => exact hok.sparse hmode _ (left ▸ MapTask.call_mem_left call')
  | @inner _ _ src dst r r' call next call' left mode marked =>
    simp only [bfsFunctor] at next
    split_ifs at next <;> cases next
  | @ret _ _ src dst r b call next call' keep sub mode marked =>
    obtain ⟨rfl, hsrc⟩ := hok.call src dst r call
    have hok' : BmTaskOk g m.frontier.isIn t' := by
      refine ⟨fun p hp => hok.edge p (sub hp), hsparse sub mode, fun src' dst' r hc => ?_⟩
      rw [call'] at hc
      cases hc
    simp only [bfsFunctor] at next
    split_ifs at next with hnone
    · cases next
      refine h.found ht hsrc (hok.edge _ (MapTask.call_mem_left call) hsrc) hnone marked hok' ?_
      intro p hp
      rcases keep p hp with rfl | hin | ⟨-, hskip⟩
      · exact .inl rfl
      · exact .inr hin
      · exact .inl (MapTask.snd_of_mem_skipped call hskip)
    · cases next
      refine h.setTask ht marked hok' fun p hp _ => ?_
      rcases keep p hp with rfl | hin | ⟨hb, -⟩
      · exact .inr hnone
      · exact .inl hin
      · cases hb

/-- A finished map has gone through all its pairs. -/
theorem BmRound.finished (hfin : ∀ t ∈ ts, edgeMapNext bfsFunctor m.frontier.isIn m t = none) :
    ∀ u v, pairs u v → m.frontier.isIn u = true → m.parent v ≠ none := by
  intro u v huv hu
  rcases h.covered u v huv hu with hp | ⟨t, ht, hleft⟩
  · exact hp
  · rw [(edgeMapNext_eq_none (hfin t ht)).1] at hleft
    cases hleft

end Round

/-! ## The loop -/

/-- What has been found of the next level between the two parts of a dense map. -/
def BmMem.next (m : BmMem) : List VId :=
  match m.phase with
  | .edges => []
  | .giants next => next

/-- The pairs that the map has gone through so far. -/
def BmMem.donePairs (g : MapGraph) (m : BmMem) : VId → VId → Prop :=
  match m.phase with
  | .edges => fun _ _ => False
  | .giants _ => rowPairs g.pages

/-- ... and those that it has gone through at the end of the part that is next. -/
def BmMem.pairs (g : MapGraph) (thresholdDivisor : Nat) (m : BmMem) : VId → VId → Prop :=
  match m.phase with
  | .edges =>
    if g.usesDense thresholdDivisor (m.frontier.numNonZeros g.vertexCount) then rowPairs g.pages
    else g.Edge
  | .giants _ => rowPairs (g.giants :: g.pages)

/-- What holds between the parts. -/
def BmHead (g : MapGraph) (s : VId) (m : BmMem) : Prop :=
  ∃ k, BmLevel g s k m.next m ∧
    ∀ u v, m.donePairs g u v → m.frontier.isIn u = true → m.parent v ≠ none

/-- What holds in a part. -/
def BmSection (g : MapGraph) (s : VId) (thresholdDivisor : Nat) (m₁ m : BmMem)
    (ts : List (List (MapTask (VId × VId)))) : Prop :=
  (m₁.phase = .edges → m₁.frontier.numNonZeros g.vertexCount ≠ 0) ∧
    ∃ k, BmRound g s k m₁.next (m₁.pairs g thresholdDivisor) m₁ m ts.flatten

/-- The groups have the active vertices with their lists, each once. -/
def GroupsOk (g : MapGraph) (groups : List VId → List (List (VId × List VId))) : Prop :=
  ∀ active, (groups active).flatten.Perm (active.map fun v => (v, g.nbrs v))

section Loop

variable {g : MapGraph} {groups : List VId → List (List (VId × List VId))} {s : VId}
  {thresholdDivisor k : Nat} {m₁ m m' : BmMem} {ts : List (MapTask (VId × VId))}
  {tss : List (List (MapTask (VId × VId)))}

theorem BmLevel.lt (hg : g.Ok) (hs : s < g.vertexCount) {next : List VId}
    (h : BmLevel g s k next m) (v : VId) (hv : m.frontier.isIn v = true) : v < g.vertexCount :=
  (dist_lt hg.lt hs ((h.frontier v).1 hv)).1

variable {pairs : VId → VId → Prop}

/-- The start of a part. -/
theorem BmLevel.round {next : List VId} (h : BmLevel g s k next m)
    (hts : ∀ t ∈ ts, t.call = none ∧ t.marked = []) (htasks : ∀ t ∈ ts,
      (∀ p ∈ t.left, m.frontier.isIn p.1 = true → g.Edge p.1 p.2) ∧
      (t.mode = .sparse → ∀ p ∈ t.left, m.frontier.isIn p.1 = true))
    (hcovered : ∀ u v, pairs u v → m.frontier.isIn u = true →
      m.parent v ≠ none ∨ ∃ t ∈ ts, (u, v) ∈ t.left) : BmRound g s k next pairs m m ts := by
  have hout : bmOutput ts = [] :=
    flatMap_eq_nil_iff.2 fun t ht => (hts t ht).2
  refine ⟨?_, rfl, rfl, fun _ => id, ?_, fun t ht => ⟨(htasks t ht).1, (htasks t ht).2, ?_⟩,
    hcovered⟩
  · rw [hout, append_nil]
    exact h
  · rw [hout]
    exact forall_mem_nil _
  · intro src dst r hc
    rw [(hts t ht).1] at hc
    cases hc

section

variable (hg : g.Ok) (hsym : ∀ u v, g.Edge u v → g.Edge v u)
include hg hsym

/-- The pairs of dense tasks are edges, as the graph is symmetric. -/
theorem edge_of_rows {rows : List (VId × List VId)} (hrows : rows ∈ g.giants :: g.pages)
    {marked : List VId} {p : VId × VId}
    (hp : p ∈ (⟨.dense, rows, .next, marked⟩ : MapTask (VId × VId)).left) : g.Edge p.1 p.2 := by
  obtain ⟨row, hrow, heq, hmem⟩ := mem_left_dense.1 hp
  exact hsym _ _ ((hg.edge_iff _ _).2 ⟨rows, hrows, row, hrow, heq, hmem⟩)

/-- All edges are among the pairs of the pages and the giant vertices. -/
theorem rowPairs_of_edge {u v : VId} (h : g.Edge u v) : rowPairs (g.giants :: g.pages) u v :=
  (hg.edge_iff v u).1 (hsym u v h)

/-- The start of a dense part. -/
theorem BmLevel.round_dense {next : List VId} {pairs : VId → VId → Prop} (h : BmLevel g s k next m)
    {rowss : List (List (VId × List VId))} (hrowss : ∀ rows ∈ rowss, rows ∈ g.giants :: g.pages)
    (hcovered : ∀ u v, pairs u v → m.frontier.isIn u = true →
      m.parent v ≠ none ∨ rowPairs rowss u v) :
    BmRound g s k next pairs m m (rowss.map fun rows => ⟨.dense, rows, .next, []⟩) := by
  refine h.round (fun t ht => ?_) (fun t ht => ?_) fun u v huv hu => ?_
  · obtain ⟨rows, -, rfl⟩ := mem_map.1 ht
    exact ⟨rfl, rfl⟩
  · obtain ⟨rows, hrows, rfl⟩ := mem_map.1 ht
    exact ⟨fun p hp _ => edge_of_rows hg hsym (hrowss rows hrows) hp, fun hs => nomatch hs⟩
  · refine (hcovered u v huv hu).imp_right ?_
    rintro ⟨rows, hrows, hrow⟩
    exact ⟨_, mem_map_of_mem hrows, mem_left_dense.2 hrow⟩

end

/-- The start of a sparse map. -/
theorem BmLevel.round_sparse (hg : g.Ok) (hgroups : GroupsOk g groups) (hs : s < g.vertexCount)
    {next : List VId} (h : BmLevel g s k next m) :
    BmRound g s k next g.Edge m m
      (groupTasks (groups (m.frontier.toSparse g.vertexCount))).flatten := by
  have hmem : ∀ row, row ∈ (groups (m.frontier.toSparse g.vertexCount)).flatten ↔
      m.frontier.isIn row.1 = true ∧ row.2 = g.nbrs row.1 := by
    intro row
    rw [(hgroups _).mem_iff, mem_map]
    constructor
    · rintro ⟨v, hv, rfl⟩
      exact ⟨(VertexSubset.mem_toSparse (h.lt hg hs)).1 hv, rfl⟩
    · rintro ⟨hin, heq⟩
      exact ⟨row.1, (VertexSubset.mem_toSparse (h.lt hg hs)).2 hin, Prod.ext rfl heq.symm⟩
  unfold groupTasks
  rw [← map_flatten]
  refine h.round (fun t ht => ?_) (fun t ht => ?_) fun u v huv hu => ?_
  · obtain ⟨row, -, rfl⟩ := mem_map.1 ht
    exact ⟨rfl, rfl⟩
  · obtain ⟨row, hrow, rfl⟩ := mem_map.1 ht
    obtain ⟨hin, hlist⟩ := (hmem row).1 hrow
    refine ⟨fun p hp _ => ?_, fun _ p hp => ?_⟩
    · obtain ⟨heq, hdst⟩ := mem_left_sparse.1 hp
      exact heq ▸ ⟨h.lt hg hs row.1 hin, hlist ▸ hdst⟩
    · rw [(mem_left_sparse.1 hp).1]
      exact hin
  · exact .inr ⟨_, mem_map_of_mem ((hmem (u, g.nbrs u)).2 ⟨hu, rfl⟩),
      mem_left_sparse.2 ⟨rfl, huv.2⟩⟩

theorem BmHead.fork (hg : g.Ok) (hgroups : GroupsOk g groups)
    (hsym : ∀ u v, g.Edge u v → g.Edge v u) (hs : s < g.vertexCount) (hm : BmHead g s m₁)
    (hfork : (bfsMap g groups thresholdDivisor).fork m₁ = some (m, tss)) :
    BmSection g s thresholdDivisor m₁ m tss := by
  obtain ⟨k, hlevel, hdone⟩ := hm
  cases hphase : m₁.phase with
  | edges =>
    simp only [bfsMap, hphase] at hfork
    split_ifs at hfork with hzero hdense
    · cases hfork
      refine ⟨fun _ => hzero, k, ?_⟩
      simp only [BmMem.pairs, hphase, hdense, if_true]
      rw [← flatMap_def, flatMap_singleton']
      exact hlevel.round_dense hg hsym (fun _ => mem_cons_of_mem _) fun _ _ huv _ => .inr huv
    · cases hfork
      refine ⟨fun _ => hzero, k, ?_⟩
      simp only [BmMem.pairs, hphase, hdense, Bool.false_eq_true, if_false]
      exact hlevel.round_sparse hg hgroups hs
  | giants next =>
    simp only [bfsMap, hphase] at hfork
    cases hfork
    refine ⟨fun hp => ?_, k, ?_⟩
    · rw [hphase] at hp
      cases hp
    · have hgiants : ∀ rows ∈ [g.giants], rows ∈ g.giants :: g.pages :=
        fun rows hrows => mem_singleton.1 hrows ▸ mem_cons_self
      rw [flatten_singleton]
      refine hlevel.round_dense hg hsym hgiants ?_
      simp only [BmMem.pairs, BmMem.donePairs, hphase] at hdone ⊢
      rintro u v ⟨rows, hrows, hrow⟩ hu
      rcases mem_cons.1 hrows with rfl | hrows
      · exact .inr ⟨_, mem_singleton_self _, hrow⟩
      · exact .inl (hdone u v ⟨rows, hrows, hrow⟩ hu)

theorem BmSection.next (h : BmSection g s thresholdDivisor m₁ m tss) {i : Nat}
    {l l' : List (MapTask (VId × VId))} (hi : tss[i]? = some l)
    (hnext : (bfsMap g groups thresholdDivisor).next m l = some (m', l')) :
    BmSection g s thresholdDivisor m₁ m' (tss.set i l') := by
  obtain ⟨hrunning, k, hround⟩ := h
  obtain ⟨j, t, t', hj, ht, heq⟩ := chainNext_flatten hi hnext
  exact ⟨hrunning, k, heq ▸ hround.next hj ht⟩

variable {done : List VId}

/-- A sparse output is no longer than a `v_id_t` says. -/
theorem BmRound.take_output (hg : g.Ok) (hn : g.vertexCount < 2 ^ 32) (hs : s < g.vertexCount)
    (h : BmRound g s k done pairs m₁ m ts) :
    (bmOutput ts).take ((bmOutput ts).length % 2 ^ 32) = bmOutput ts := by
  have hnd : (bmOutput ts).Nodup := (nodup_append.1 h.level.nodup).2.1
  have hsub : bmOutput ts ⊆ range g.vertexCount := by
    intro v hv
    have hd := h.level.level v (mem_append_right _ hv)
    exact mem_range.2 (dist_lt hg.lt hs hd).1
  have hlen := (subperm_of_subset hnd hsub).length_le
  rw [length_range] at hlen
  rw [Nat.mod_eq_of_lt (by omega), take_length]

theorem BmSection.join (hg : g.Ok) (hsym : ∀ u v, g.Edge u v → g.Edge v u)
    (hn : g.vertexCount < 2 ^ 32) (hs : s < g.vertexCount)
    (h : BmSection g s thresholdDivisor m₁ m tss)
    (hfin : ∀ l ∈ tss, (bfsMap g groups thresholdDivisor).next m l = none) :
    BmHead g s ((bfsMap g groups thresholdDivisor).join m tss) := by
  obtain ⟨-, k, hround⟩ := h
  have hall := hround.finished fun t ht => by
    obtain ⟨l, hl, ht⟩ := mem_flatten.1 ht
    exact chainNext_eq_none (hfin l hl) t ht
  have hphase := hround.phase
  have hlevel := hround.level
  cases hphase1 : m₁.phase with
  | edges =>
    rw [hphase1] at hphase
    simp only [BmMem.next, hphase1, nil_append] at hlevel
    simp only [BmMem.pairs, hphase1, ← hround.frontier] at hall
    simp only [bfsMap, hphase]
    split_ifs at hall ⊢ with hdense
    · exact ⟨k, ⟨hlevel.frontier, hlevel.found, hlevel.level, hlevel.nodup, hlevel.root,
        hlevel.tree⟩, hall⟩
    · have hin : ∀ v, (VertexSubset.sparse (bmOutput tss.flatten)).isIn v = true ↔
          v ∈ bmOutput tss.flatten := fun v => decide_eq_true_iff
      rw [hround.take_output hg hn hs]
      exact ⟨k + 1, hlevel.succ hall hin .edges, fun u v huv => huv.elim⟩
  | giants next =>
    rw [hphase1] at hphase
    simp only [BmMem.next, hphase1] at hlevel
    simp only [BmMem.pairs, hphase1] at hall
    simp only [bfsMap, hphase]
    have hin : ∀ v, (VertexSubset.dense fun v =>
        decide (v ∈ next ++ bmOutput tss.flatten)).isIn v = true ↔
          v ∈ next ++ bmOutput tss.flatten := fun v => decide_eq_true_iff
    refine ⟨k + 1, ?_, fun u v huv => huv.elim⟩
    exact hlevel.succ (fun u v huv hu => hall u v (rowPairs_of_edge hg hsym huv) hu) hin .edges

/-! ## The end of the loop -/

/-- The vertices that are not found yet, three for each, and a weight that goes down when none is
found. -/
def BmMem.size (n : Nat) (m : BmMem) : Nat :=
  3 * ((Finset.range n).filter fun v => m.parent v = none).card + match m.phase with
    | .edges => if m.frontier.numNonZeros n = 0 then 0 else 2
    | .giants next => if next = [] then 1 else 3

/-- A part finds as many vertices as it marks, at least one if any. -/
theorem BmRound.unfound (hg : g.Ok) (hs : s < g.vertexCount) (h : BmRound g s k done pairs m₁ m ts) :
    ((Finset.range g.vertexCount).filter fun v => m.parent v = none).card +
      (if bmOutput ts = [] then 0 else 1) ≤
      ((Finset.range g.vertexCount).filter fun v => m₁.parent v = none).card := by
  have hsub : ((Finset.range g.vertexCount).filter fun v => m.parent v = none) ⊆
      (Finset.range g.vertexCount).filter fun v => m₁.parent v = none := by
    intro v hv
    obtain ⟨hvn, hnone⟩ := Finset.mem_filter.1 hv
    exact Finset.mem_filter.2 ⟨hvn, by_contra fun hne => h.keep v hne hnone⟩
  split_ifs with hout
  · exact Finset.card_le_card hsub
  · obtain ⟨v, hv⟩ := exists_mem_of_ne_nil _ hout
    refine Finset.card_lt_card ((Finset.ssubset_iff_of_subset hsub).2 ⟨v, ?_, fun hmem => ?_⟩)
    · have hd := h.level.level v (mem_append_right _ hv)
      exact Finset.mem_filter.2 ⟨Finset.mem_range.2 (dist_lt hg.lt hs hd).1, h.fresh v hv⟩
    · exact (h.level.found v).2 (.inr (mem_append_right _ hv)) (Finset.mem_filter.1 hmem).2

/-- The weight of a frontier that is empty if nothing was marked. -/
theorem frontier_weight_le {n : Nat} {frontier : VertexSubset} {marked : Prop} [Decidable marked]
    (h : ¬ marked → frontier.numNonZeros n = 0) :
    (if frontier.numNonZeros n = 0 then 0 else 2) ≤ if marked then 2 else 0 := by
  by_cases hm : marked
  · rw [if_pos hm]
    split_ifs
    · exact Nat.zero_le 2
    · exact le_rfl
  · rw [if_pos (h hm)]
    exact Nat.zero_le _

theorem BmSection.size_lt (hg : g.Ok) (hs : s < g.vertexCount)
    (h : BmSection g s thresholdDivisor m₁ m tss) :
    ((bfsMap g groups thresholdDivisor).join m tss).size g.vertexCount < m₁.size g.vertexCount := by
  obtain ⟨hrunning, k, hround⟩ := h
  have hcard := hround.unfound hg hs
  have hphase := hround.phase
  cases hphase1 : m₁.phase with
  | edges =>
    rw [hphase1] at hphase
    have hsize : m₁.size g.vertexCount =
        3 * ((Finset.range g.vertexCount).filter fun v => m₁.parent v = none).card + 2 := by
      rw [BmMem.size, hphase1]
      dsimp only
      rw [if_neg (hrunning hphase1)]
    rw [hsize]
    simp only [bfsMap, hphase]
    split_ifs
    · show 3 * ((Finset.range g.vertexCount).filter fun v => m.parent v = none).card +
        (if bmOutput tss.flatten = [] then 1 else 3) < _
      split_ifs at hcard ⊢
      · omega
      · omega
    · have hw : (if (VertexSubset.sparse ((bmOutput tss.flatten).take
          ((bmOutput tss.flatten).length % 2 ^ 32))).numNonZeros g.vertexCount = 0 then 0 else 2) ≤
          if bmOutput tss.flatten ≠ [] then 2 else 0 := by
        refine frontier_weight_le fun hnil => ?_
        rw [not_not.1 hnil]
        rfl
      refine lt_of_le_of_lt (Nat.add_le_add_left hw _) ?_
      rw [ite_not]
      dsimp only
      split_ifs at hcard ⊢
      · omega
      · omega
  | giants next =>
    rw [hphase1] at hphase
    have hsize : m₁.size g.vertexCount =
        3 * ((Finset.range g.vertexCount).filter fun v => m₁.parent v = none).card +
          if next = [] then 1 else 3 := by
      rw [BmMem.size, hphase1]
    rw [hsize]
    simp only [bfsMap, hphase]
    have hw : (if (VertexSubset.dense fun v =>
        decide (v ∈ next ++ bmOutput tss.flatten)).numNonZeros g.vertexCount = 0 then 0 else 2) ≤
        if next ++ bmOutput tss.flatten ≠ [] then 2 else 0 := by
      refine frontier_weight_le fun hnil => ?_
      rw [not_not.1 hnil]
      simp [VertexSubset.numNonZeros]
    refine lt_of_le_of_lt (Nat.add_le_add_left hw _) ?_
    rw [ite_not]
    dsimp only
    by_cases hnext : next = []
    · rw [hnext, nil_append, if_pos rfl]
      split_ifs at hcard ⊢
      · omega
      · omega
    · rw [if_neg hnext, if_neg fun hnil => hnext (append_eq_nil_iff.1 hnil).1]
      omega

theorem bfsMap_variant (hg : g.Ok) (hgroups : GroupsOk g groups)
    (hsym : ∀ u v, g.Edge u v → g.Edge v u) (hn : g.vertexCount < 2 ^ 32) (hs : s < g.vertexCount)
    (thresholdDivisor : Nat) :
    (bfsMap g groups thresholdDivisor).Variant (BmHead g s) (BmSection g s thresholdDivisor)
      (fun l => (l.map (MapTask.rank 0 fun _ => 0)).sum) (BmMem.size g.vertexCount) where
  inv :=
    ⟨fun _ _ _ hm hf => hm.fork hg hgroups hsym hs hf,
      fun _ _ _ _ _ _ _ h hi hnext => h.next hi hnext,
      fun _ _ _ _ h hfin => h.join hg hsym hn hs hfin⟩
  rank_lt m₁ m ts l m' l' _ _ hnext := by
    refine chainNext_rank (fun t t' _ ht => ?_) hnext
    refine edgeMapNext_rank (fun _ _ => le_rfl) (fun src dst r m2 r' _ h => ?_) ht
    simp only [bfsFunctor] at h
    split_ifs at h <;> cases h
  size_lt _ _ _ _ h _ := h.size_lt hg hs

theorem BmHead.init (g : MapGraph) (s : VId) : BmHead g s (bfsMapStart s) := by
  have hzero : ∀ v, Walk.Dist g.Edge s v 0 ↔ v = s := by
    intro v
    constructor
    · exact fun h => h.1
    · rintro rfl
      exact Walk.Dist.start v
  have hparent : ∀ v, (bfsMapStart s).parent v ≠ none ↔ v = s := by
    intro v
    by_cases hv : v = s
    · simp [bfsMapStart, hv]
    · simp [bfsMapStart, hv]
  refine ⟨0, ⟨fun v => ?_, fun v => ?_, forall_mem_nil _, nodup_nil, ?_, ?_⟩,
    fun u v huv => huv.elim⟩
  · rw [hzero v]
    exact decide_eq_true_iff.trans mem_singleton
  · rw [hparent v]
    constructor
    · exact fun hv => .inl ⟨0, le_rfl, (hzero v).2 hv⟩
    · rintro (⟨d, hd, hdist⟩ | hmem)
      · obtain rfl := Nat.le_zero.1 hd
        exact (hzero v).1 hdist
      · cases hmem
  · show update (fun _ => none) s (some s) s = some s
    exact update_self _ _ _
  · intro v u hvs hu
    exact absurd ((hparent v).1 (by rw [hu]; exact Option.some_ne_none u)) hvs

/-- At the end of the loop the results are the vertices that can be reached, with their
distances. -/
theorem BmHead.results (hg : g.Ok) (hs : s < g.vertexCount) (hm : BmHead g s m)
    (hend : (bfsMap g groups thresholdDivisor).fork m = none) :
    ∃ r, bfsResults g.vertexCount m.parent g.vertexCount = some r ∧ (r.map Prod.fst).Nodup ∧
      ∀ v d, (v, d) ∈ r ↔ Walk.Dist g.Edge s v d := by
  obtain ⟨k, hlevel, -⟩ := hm
  cases hphase : m.phase with
  | edges =>
    simp only [bfsMap, hphase] at hend
    split_ifs at hend with hzero
    simp only [BmMem.next, hphase] at hlevel
    have hnone : ∀ v, m.frontier.isIn v = false := by
      intro v
      rw [Bool.eq_false_iff]
      intro hv
      rw [VertexSubset.numNonZeros_eq_zero hzero (hlevel.lt hg hs v hv)] at hv
      cases hv
    have hhead : BfsHead g.vertexCount g.nbrs s k ⟨m.parent, fun _ => false, m.frontier.isIn, 0⟩ :=
      ⟨fun v => (hlevel.found v).trans (or_iff_left not_mem_nil), hlevel.frontier,
        hlevel.root, hlevel.tree, iff_of_true rfl hnone⟩
    exact hhead.results hg.lt hs rfl
  | giants next =>
    simp only [bfsMap, hphase] at hend
    cases hend

end Loop

/-- Grouped by page or not, the lists of the active vertices are read, each once. -/
theorem Db.sparseGroups_ok (cfg : Config) (db : Db) (totalEdges residentPageCapacity : Nat) :
    GroupsOk (db.mapGraph cfg totalEdges) (db.sparseGroups cfg residentPageCapacity) := by
  intro active
  show (db.sparseGroups cfg residentPageCapacity active).flatten.Perm
    (active.map fun v => (v, db.base cfg v))
  unfold Db.sparseGroups
  split_ifs
  · unfold Db.pageGroups
    dsimp only
    rw [← map_flatten, flatten_splitBy]
    have hperm := (perm_insertionSort (fun lhs rhs : ActiveVertex => lhs.pageNo < rhs.pageNo ∨
      lhs.pageNo = rhs.pageNo ∧ lhs.offset ≤ rhs.offset) (active.map db.activeVertex)).map
        fun item => (item.src, db.itemNeighbors cfg item)
    refine hperm.trans ?_
    rw [map_map]
    rfl
  · rw [← flatMap_def, map_eq_flatMap]

/-- On every symmetric database that was just built every run of `parallel_bfs_map` ends with the
pairs that `bfs` returns, whatever mode is chosen in each round. -/
theorem parallelBfsMap_bfs {cfg : Config} {g : MemGraph} {db : Db} (hps : 0 < cfg.pageSize)
    (hds : 0 < cfg.deltaPageSize) (hn : g.vertexCount ≤ cfg.idLimit)
    (hv : g.vertexCount < 2 ^ 32) (hb : Built cfg g db) (hsym : g.Symmetric)
    (totalEdges residentPageCapacity thresholdDivisor : Nat) {s : VId}
    (hs : s < db.getVertexCount) :
    ∃ r, bfs db.getVertexCount (db.base cfg) s (db.getVertexCount + 1) = some r ∧
      (parallelBfsMap cfg db totalEdges residentPageCapacity thresholdDivisor).Terminates
        (.head (bfsMapStart s)) ∧
      ∀ es st, runAll (parallelBfsMap cfg db totalEdges residentPageCapacity thresholdDivisor).step
          (.head (bfsMapStart s)) es = some st →
        (parallelBfsMap cfg db totalEdges residentPageCapacity thresholdDivisor).Stuck st →
        ∃ m r', st = .head m ∧ bfsResults db.getVertexCount m.parent db.getVertexCount = some r' ∧
          r'.Perm r := by
  have hst := hb.stores hps hds hn hv
  have hok := hb.mapGraph_ok hps hds hn hv totalEdges
  have hsym' : ∀ u v, (db.mapGraph cfg totalEdges).Edge u v →
      (db.mapGraph cfg totalEdges).Edge v u := by
    rw [hst.mapEdge]
    exact hsym
  have hlt : ∀ v, v < db.getVertexCount → ∀ d ∈ db.base cfg v, d < db.getVertexCount := hok.lt
  obtain ⟨r, hr, hnd, hdist⟩ := bfs_spec hlt hs (Nat.lt_succ_self _)
  have hcount : (db.mapGraph cfg totalEdges).vertexCount < 2 ^ 32 := by
    rw [show (db.mapGraph cfg totalEdges).vertexCount = db.getVertexCount from rfl, hst.count]
    exact hv
  have hvar := bfsMap_variant hok (db.sparseGroups_ok cfg totalEdges residentPageCapacity) hsym'
    hcount hs (bfsMapDivisor db.csrPool.diskManager.validPageCount residentPageCapacity
      thresholdDivisor)
  have hinit := BmHead.init (db.mapGraph cfg totalEdges) s
  refine ⟨r, hr, hvar.terminates hinit, fun es st run hstuck => ?_⟩
  obtain ⟨m, rfl, hm, hend⟩ := (hvar.inv.of_run (s := .head _) hinit run).2 hstuck
  obtain ⟨r', hr', hnd', hdist'⟩ := hm.results hok hs hend
  refine ⟨m, r', rfl, hr', (perm_ext_iff_of_nodup hnd'.of_map hnd.of_map).2 ?_⟩
  rintro ⟨v, d⟩
  rw [hdist' v d, hdist v d]
  rfl

/-- The path from vertex 1. -/
theorem parallelBfsMap_bfs_pathDb :
    ∃ r, bfs pathDb.getVertexCount (pathDb.base pathConfig) 1 (pathDb.getVertexCount + 1) = some r ∧
      ∃ es m r', runAll (parallelBfsMap pathConfig pathDb 8 2 20).step (.head (bfsMapStart 1)) es =
          some (.head m) ∧
        bfsResults pathDb.getVertexCount m.parent pathDb.getVertexCount = some r' ∧ r'.Perm r := by
  obtain ⟨r, hr, hterm, hrun⟩ := parallelBfsMap_bfs (by decide) (by decide) (by decide) (by decide)
    pathDb_built pathGraph_symmetric 8 2 20 (s := 1) (by decide +kernel)
  obtain ⟨es, st, run, hstuck⟩ := hterm.exists_stuck
  obtain ⟨m, r', rfl, hres⟩ := hrun es st run hstuck
  exact ⟨r, hr, es, m, r', run, hres⟩

end BwGraph
