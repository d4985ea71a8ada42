import Mathlib.Data.Finset.Card
import Mathlib.Data.Finset.Range
import BwGraph.Lib.ForkJoin
import BwGraph.Lib.Walk
import BwGraph.Db.Direct

/-
  Breadth-first search (`bfs` and `parallel_bfs` of `db_algorithm.cc`). `n` is `get_vertex_count`
  and `nbrs` is `read_neighbor`, which on a database that was just built gives the stored list of a
  vertex, giant or not.

  `bfs` takes the vertices from a queue. `parallelBfs` goes level by level: a parallel scan of the
  edges of the active vertices (`bw_edge_scan`), in which every vertex without a parent gets one
  by a compare-and-swap and is active in the next round. A task is one active vertex with the
  neighbours it has not yet processed; the load, the compare-and-swap and the setting of the bit
  are steps of their own, and the tasks take theirs in any order. Ranges of the scan, the arena and
  the grouping of active vertices by page only restrict that order.

  Both give exactly the vertices that can be reached with their hop distances
  (`bfs_spec`, `parallelBfs_spec`, together `bfs_parallelBfs`).
-/

namespace BwGraph

open Function List Nat ForkJoin

/-- `get_vertex_count`. -/
def Db.getVertexCount (db : Db) : Nat := db.vertexIndex.size % 2 ^ 32

/-- The stored edges. -/
def StoredEdge (n : Nat) (nbrs : VId → List VId) (u v : VId) : Prop := u < n ∧ v ∈ nbrs u

/-! ## The queue -/

/-- The locals of `bfs`. -/
structure BfsState where
  visited : VId → Bool
  levels : VId → Nat
  toVisit : List VId
  visitedOrder : List (VId × Nat)

/-- One neighbour of the vertex at the front. -/
def bfsNeighbor (n nextLevel : Nat) (st : BfsState) (neighbor : VId) : BfsState :=
  if neighbor < n ∧ st.visited neighbor = false then
    { st with
      visited := Function.update st.visited neighbor true
      levels := Function.update st.levels neighbor nextLevel
      toVisit := st.toVisit ++ [neighbor] }
  else st

/-- The loop of `bfs`, with fuel. -/
def bfsLoop (n : Nat) (nbrs : VId → List VId) : Nat → BfsState → Option (List (VId × Nat))
  | 0, _ => none
  | fuel + 1, st =>
    match st.toVisit with
    | [] => some st.visitedOrder
    | currentVertex :: rest =>
      bfsLoop n nbrs fuel ((nbrs currentVertex).foldl
        (bfsNeighbor n (st.levels currentVertex + 1))
        { st with
          toVisit := rest
          visitedOrder := st.visitedOrder ++ [(currentVertex, st.levels currentVertex)] })

/-- `bfs`. -/
def bfs (n : Nat) (nbrs : VId → List VId) (startVertex : VId) (fuel : Nat) :
    Option (List (VId × Nat)) :=
  bfsLoop n nbrs fuel ⟨Function.update (fun _ => false) startVertex true, fun _ => 0,
    [startVertex], []⟩

/-- What the loop over the neighbours appends to the queue. -/
theorem foldl_bfsNeighbor (n nextLevel : Nat) (l : List VId) (st : BfsState) :
    ∃ new : List VId, new.Nodup ∧ (∀ v, v ∈ new ↔ v ∈ l ∧ v < n ∧ st.visited v = false) ∧
      l.foldl (bfsNeighbor n nextLevel) st =
        { st with
          visited := fun v => st.visited v || decide (v ∈ new)
          levels := fun v => if v ∈ new then nextLevel else st.levels v
          toVisit := st.toVisit ++ new } := by
  refine Walk.exists_foldl_taken (fun st v => v < n ∧ st.visited v = false)
    (fun st new _ => { st with
      visited := fun v => st.visited v || decide (v ∈ new)
      levels := fun v => if v ∈ new then nextLevel else st.levels v
      toVisit := st.toVisit ++ new })
    (fun st => ?_) (fun st d v => ?_) (fun st d new l hd hnot => ?_) (fun st d new l hd => ?_) l st
  · simp
  · by_cases hd : d < n ∧ st.visited d = false
    · rw [show bfsNeighbor n nextLevel st d = _ from if_pos hd]
      by_cases hv : v = d <;> simp [hv]
    · rw [show bfsNeighbor n nextLevel st d = _ from if_neg hd]
      exact ⟨fun h => ⟨h, fun he => hd (he ▸ h)⟩, And.left⟩
  · rw [show bfsNeighbor n nextLevel st d = _ from if_pos hd]
    congr 1
    · funext v
      by_cases hv : v = d <;> simp [hv]
    · funext v
      by_cases hv : v = d <;> simp [hv, hnot]
    · simp
  · rw [show bfsNeighbor n nextLevel st d = _ from if_neg hd]

/-- What holds at the head of the loop of `bfs`. -/
structure BfsInv (n : Nat) (nbrs : VId → List VId) (s : VId) (st : BfsState) : Prop where
  nodup : (st.visitedOrder.map Prod.fst ++ st.toVisit).Nodup
  visited : ∀ v, st.visited v = true ↔ v ∈ st.visitedOrder.map Prod.fst ++ st.toVisit
  lt : ∀ v, st.visited v = true → v < n
  start : st.visited s = true ∧ st.levels s = 0
  hops : ∀ v, st.visited v = true → Walk.Hops (StoredEdge n nbrs) s (st.levels v) v
  order : ∀ x ∈ st.visitedOrder, x.2 = st.levels x.1
  closed : ∀ u ∈ st.visitedOrder.map Prod.fst, ∀ v ∈ nbrs u,
    st.visited v = true ∧ st.levels v ≤ st.levels u + 1
  /-- The queue is in the order of the levels, and no visited vertex is more than one level past
  it. -/
  sorted : st.toVisit.Pairwise fun u v => st.levels u ≤ st.levels v
  bound : ∀ u ∈ st.toVisit, ∀ v, st.visited v = true → st.levels v ≤ st.levels u + 1

variable {n : Nat} {nbrs : VId → List VId}

variable {s : VId}

theorem BfsInv.init (hs : s < n) :
    BfsInv n nbrs s ⟨update (fun _ => false) s true, fun _ => 0, [s], []⟩ := by
  have hvisited : ∀ v, update (fun _ => false) s true v = true ↔ v = s := by
    intro v
    by_cases hv : v = s
    · simp [hv]
    · simp [hv]
  refine ⟨by simp, fun v => ?_, fun v hv => ?_, ⟨(hvisited s).2 rfl, rfl⟩, fun v hv => ?_, by simp,
    by simp, by simp, by simp⟩
  · simpa using hvisited v
  · rw [(hvisited v).1 hv]
    exact hs
  · exact (hvisited v).1 hv

variable {rest : List VId} {st : BfsState}

/-- The front of the queue is done: its new neighbours are behind all others. -/
theorem BfsInv.step (hlt : ∀ v, v < n → ∀ d ∈ nbrs v, d < n) (h : BfsInv n nbrs s st) {cur : VId}
    (hq : st.toVisit = cur :: rest) :
    BfsInv n nbrs s ((nbrs cur).foldl (bfsNeighbor n (st.levels cur + 1))
      { st with
        toVisit := rest
        visitedOrder := st.visitedOrder ++ [(cur, st.levels cur)] }) := by
  obtain ⟨new, hnd, hmem, heq⟩ := foldl_bfsNeighbor n (st.levels cur + 1) (nbrs cur)
    { st with toVisit := rest, visitedOrder := st.visitedOrder ++ [(cur, st.levels cur)] }
  rw [heq]
  clear heq
  simp only at hmem
  have hcurmem : cur ∈ st.toVisit := by
    rw [hq]
    exact mem_cons_self
  have hcur : st.visited cur = true := (h.visited cur).2 (mem_append_right _ hcurmem)
  have hcurlt := h.lt cur hcur
  have hnew : ∀ v ∈ new, st.visited v = false := fun v hv => ((hmem v).1 hv).2.2
  have hold : ∀ v, st.visited v = true → v ∉ new := fun v hv hm => by
    rw [hnew v hm] at hv
    cases hv
  have hvis : ∀ v, (st.visited v || decide (v ∈ new)) = true ↔ st.visited v = true ∨ v ∈ new := by
    intro v
    rw [Bool.or_eq_true, decide_eq_true_iff]
  -- the levels: the old ones stay, the new ones are one past the front
  have hlold : ∀ v, st.visited v = true →
      (if v ∈ new then st.levels cur + 1 else st.levels v) = st.levels v :=
    fun v hv => if_neg (hold v hv)
  have hlnew : ∀ v ∈ new, (if v ∈ new then st.levels cur + 1 else st.levels v) =
      st.levels cur + 1 := fun v hv => if_pos hv
  have hrest : ∀ u ∈ rest, st.visited u = true := by
    intro u hu
    refine (h.visited u).2 (mem_append_right _ ?_)
    rw [hq]
    exact mem_cons_of_mem _ hu
  have hsorted := h.sorted
  rw [hq, pairwise_cons] at hsorted
  have hfront : ∀ v, st.visited v = true → st.levels v ≤ st.levels cur + 1 :=
    fun v hv => h.bound cur hcurmem v hv
  have hlist : (st.visitedOrder ++ [(cur, st.levels cur)]).map Prod.fst ++ (rest ++ new) =
      (st.visitedOrder.map Prod.fst ++ st.toVisit) ++ new := by
    rw [hq]
    simp
  refine ⟨?_, fun v => ?_, fun v hv => ?_, ⟨?_, ?_⟩, fun v hv => ?_, fun x hx => ?_,
    fun u hu v hv => ?_, ?_, fun u hu v hv => ?_⟩
  · show ((st.visitedOrder ++ [(cur, st.levels cur)]).map Prod.fst ++ (rest ++ new)).Nodup
    rw [hlist]
    refine nodup_append.2 ⟨h.nodup, hnd, fun a ha b hb hab => ?_⟩
    subst hab
    exact hold a ((h.visited a).2 ha) hb
  · show _ ↔ v ∈ (st.visitedOrder ++ [(cur, st.levels cur)]).map Prod.fst ++ (rest ++ new)
    rw [hlist, hvis, mem_append, h.visited]
  · rcases (hvis v).1 hv with hv | hv
    · exact h.lt v hv
    · exact ((hmem v).1 hv).2.1
  · exact (hvis s).2 (.inl h.start.1)
  · exact (hlold s h.start.1).trans h.start.2
  · rcases (hvis v).1 hv with hv | hv
    · show Walk.Hops _ s (if v ∈ new then _ else _) v
      rw [hlold v hv]
      exact h.hops v hv
    · show Walk.Hops _ s (if v ∈ new then _ else _) v
      rw [hlnew v hv]
      exact ⟨cur, h.hops cur hcur, hcurlt, ((hmem v).1 hv).1⟩
  · show x.2 = if x.1 ∈ new then _ else _
    rcases mem_append.1 hx with hx | hx
    · rw [hlold x.1 ((h.visited _).2 (mem_append_left _ (mem_map_of_mem hx)))]
      exact h.order x hx
    · rw [mem_singleton.1 hx, hlold cur hcur]
  · show _ ∧ (if v ∈ new then _ else _) ≤ (if u ∈ new then _ else _) + 1
    rw [map_append, mem_append] at hu
    rcases hu with hu | hu
    · obtain ⟨h1, h2⟩ := h.closed u hu v hv
      rw [hlold v h1, hlold u ((h.visited _).2 (mem_append_left _ hu))]
      exact ⟨(hvis v).2 (.inl h1), h2⟩
    · have hu : u = cur := by simpa using hu
      subst hu
      rw [hlold u hcur]
      cases hvv : st.visited v with
      | true =>
        rw [hlold v hvv]
        exact ⟨(hvis v).2 (.inl hvv), hfront v hvv⟩
      | false =>
        have hvn := (hmem v).2 ⟨hv, hlt u hcurlt v hv, hvv⟩
        rw [hlnew v hvn]
        exact ⟨(hvis v).2 (.inr hvn), le_rfl⟩
  · refine pairwise_append.2 ⟨?_, ?_, fun u hu v hv => ?_⟩
    · refine hsorted.2.imp_of_mem fun {a b} ha hb hab => ?_
      show (if a ∈ new then _ else _) ≤ if b ∈ new then _ else _
      rw [hlold a (hrest a ha), hlold b (hrest b hb)]
      exact hab
    · refine List.Pairwise.imp_of_mem (R := fun _ _ => True) (fun {a b} ha hb _ => ?_)
        (pairwise_of_forall fun _ _ => trivial)
      show (if a ∈ new then _ else _) ≤ if b ∈ new then _ else _
      rw [hlnew a ha, hlnew b hb]
    · show (if u ∈ new then _ else _) ≤ if v ∈ new then _ else _
      rw [hlold u (hrest u hu), hlnew v hv]
      exact hfront u (hrest u hu)
  · show (if v ∈ new then _ else _) ≤ (if u ∈ new then _ else _) + 1
    have hu' : st.levels cur ≤ if u ∈ new then st.levels cur + 1 else st.levels u := by
      rcases mem_append.1 hu with hu | hu
      · rw [hlold u (hrest u hu)]
        exact hsorted.1 u hu
      · rw [hlnew u hu]
        exact le_succ _
    rcases (hvis v).1 hv with hv | hv
    · rw [hlold v hv]
      exact (hfront v hv).trans (succ_le_succ hu')
    · rw [hlnew v hv]
      exact succ_le_succ hu'

theorem BfsInv.length_le (h : BfsInv n nbrs s st) : st.visitedOrder.length ≤ n := by
  have hnd := (nodup_append.1 h.nodup).1
  have hsub : st.visitedOrder.map Prod.fst ⊆ range n := by
    intro v hv
    exact mem_range.2 (h.lt v ((h.visited v).2 (mem_append_left _ hv)))
  have hle := (hnd.subperm hsub).length_le
  rwa [length_map, length_range] at hle

/-- An empty queue: the levels are the distances. -/
theorem BfsInv.levels (h : BfsInv n nbrs s st) (hq : st.toVisit = []) :
    Walk.Levels (StoredEdge n nbrs) s (fun v => st.visited v = true) st.levels := by
  refine ⟨h.start, h.hops, fun u v hu huv => ?_⟩
  have hmem := (h.visited u).1 hu
  rw [hq, append_nil] at hmem
  exact h.closed u hmem v huv.2

/-- `bfs` returns the vertices that can be reached, each once, with its distance. -/
theorem bfs_spec (hlt : ∀ v, v < n → ∀ d ∈ nbrs v, d < n) (hs : s < n) {fuel : Nat}
    (hfuel : n < fuel) :
    ∃ r, bfs n nbrs s fuel = some r ∧ (r.map Prod.fst).Nodup ∧
      ∀ v d, (v, d) ∈ r ↔ Walk.Dist (StoredEdge n nbrs) s v d := by
  have hloop : ∀ (fuel : Nat) (st : BfsState), BfsInv n nbrs s st →
      n < fuel + st.visitedOrder.length →
      ∃ r, bfsLoop n nbrs fuel st = some r ∧ (r.map Prod.fst).Nodup ∧
        ∀ v d, (v, d) ∈ r ↔ Walk.Dist (StoredEdge n nbrs) s v d := by
    intro fuel
    induction fuel with
    | zero =>
      intro st h hn
      have := h.length_le
      omega
    | succ fuel ih =>
      intro st h hn
      unfold bfsLoop
      cases hq : st.toVisit with
      | nil =>
        have hnd := h.nodup
        rw [hq, append_nil] at hnd
        refine ⟨st.visitedOrder, rfl, hnd, fun v d => ?_⟩
        rw [← (h.levels hq).eq_dist v d, h.visited v, hq, append_nil, mem_map]
        constructor
        · intro hm
          exact ⟨⟨(v, d), hm, rfl⟩, (h.order _ hm).symm⟩
        · rintro ⟨⟨⟨w, d'⟩, hm, rfl⟩, hd⟩
          rw [← hd, ← h.order _ hm]
          exact hm
      | cons cur rest =>
        refine ih _ (h.step hlt hq) ?_
        obtain ⟨new, -, -, heq⟩ := foldl_bfsNeighbor n (st.levels cur + 1) (nbrs cur)
          { st with toVisit := rest, visitedOrder := st.visitedOrder ++ [(cur, st.levels cur)] }
        rw [heq]
        simp only [length_append, length_cons, length_nil]
        omega
  exact hloop fuel _ (BfsInv.init hs) (by simpa using hfuel)

/-! ## The level-synchronous search -/

/-- The arrays of `parallel_bfs`; an entry `INVALID_VID` of `parent` is `none`. -/
structure BfsMem where
  parent : VId → Option VId
  activeIn : VId → Bool
  activeOut : VId → Bool
  activeVertices : Nat

/-- Where the body of the scan stands with the next neighbour. -/
inductive BfsPc where
  | load
  | cas
  | setBit
  deriving DecidableEq

/-- One active vertex of the scan. -/
structure BfsTask where
  src : VId
  rest : List VId
  pc : BfsPc
  /-- What its calls have returned, summed up. -/
  result : Nat

/-- One step of the lambda that `parallel_bfs` passes to `bw_edge_scan`. -/
def bfsNext (m : BfsMem) (t : BfsTask) : Option (BfsMem × BfsTask) :=
  match t.rest with
  | [] => none
  | dst :: rest =>
    match t.pc with
    | .load =>
      if m.parent dst = none then some (m, { t with pc := .cas })
      else some (m, { t with rest := rest })
    | .cas =>
      if m.parent dst = none then
        some ({ m with parent := Function.update m.parent dst (some t.src) },
          { t with pc := .setBit })
      else some (m, { t with rest := rest, pc := .load })
    | .setBit =>
      some ({ m with activeOut := Function.update m.activeOut dst true },
        { t with rest := rest, pc := .load, result := t.result + 1 })

/-- The loop of `parallel_bfs`. -/
def parallelBfs (n : Nat) (nbrs : VId → List VId) : ForkJoin BfsMem BfsTask where
  fork m :=
    if m.activeVertices = 0 then none
    else some ({ m with activeIn := m.activeOut, activeOut := fun _ => false },
      ((List.range n).filter m.activeOut).map fun v => ⟨v, nbrs v, .load, 0⟩)
  next := bfsNext
  join m ts := { m with activeVertices := (ts.map BfsTask.result).sum % 2 ^ 32 }

/-- The arrays before the loop. -/
def parallelBfsStart (startVertex : VId) : BfsMem where
  parent := Function.update (fun _ => none) startVertex (some startVertex)
  activeIn := fun _ => false
  activeOut := Function.update (fun _ => false) startVertex true
  activeVertices := 1

/-- The loop over the parents of one vertex, with fuel. -/
def parentDist (parent : VId → Option VId) : Nat → VId → Option Nat
  | 0, _ => none
  | fuel + 1, curr =>
    match parent curr with
    | none => none
    | some p => if p = curr then some 0 else (parentDist parent fuel p).map (· + 1)

/-- The results of `parallel_bfs`. -/
def bfsResults (n : Nat) (parent : VId → Option VId) (fuel : Nat) : Option (List (VId × Nat)) :=
  ((List.range n).filter fun v => (parent v).isSome).mapM fun v =>
    (parentDist parent fuel v).map fun dist => (v, dist)

/-- What holds at the head of the loop after `k` rounds. -/
structure BfsHead (n : Nat) (nbrs : VId → List VId) (s : VId) (k : Nat) (m : BfsMem) : Prop where
  found : ∀ v, m.parent v ≠ none ↔ ∃ d ≤ k, Walk.Dist (StoredEdge n nbrs) s v d
  active : ∀ v, m.activeOut v = true ↔ Walk.Dist (StoredEdge n nbrs) s v k
  root : m.parent s = some s
  tree : ∀ v u, v ≠ s → m.parent v = some u → ∃ d, Walk.Dist (StoredEdge n nbrs) s u d ∧
    Walk.Dist (StoredEdge n nbrs) s v (d + 1)
  count : m.activeVertices = 0 ↔ ∀ v, m.activeOut v = false

/-- The vertices that got a parent since the head. -/
def newlyFound (n : Nat) (m₁ m : BfsMem) : Finset VId :=
  (Finset.range n).filter fun v => m₁.parent v = none ∧ m.parent v ≠ none

/-- The calls of a task that have found a vertex. -/
def BfsTask.finds (t : BfsTask) : Nat := t.result + if t.pc = .setBit then 1 else 0

/-- What holds of one task of a round. -/
structure BfsTask.Ok (n : Nat) (nbrs : VId → List VId) (m₁ m : BfsMem) (t : BfsTask) : Prop where
  src : m₁.activeOut t.src = true ∧ t.src < n
  done : ∃ done, nbrs t.src = done ++ t.rest ∧ ∀ d ∈ done, m.parent d ≠ none
  pending : t.pc = .setBit → ∃ d rest, t.rest = d :: rest ∧ m₁.parent d = none ∧ m.parent d ≠ none

/-- What holds in a round that was forked from `m₁`. -/
structure BfsRound (n : Nat) (nbrs : VId → List VId) (m₁ m : BfsMem) (ts : List BfsTask) :
    Prop where
  running : m₁.activeVertices ≠ 0
  keep : ∀ v, m₁.parent v ≠ none → m.parent v = m₁.parent v
  fresh : ∀ v u, m₁.parent v = none → m.parent v = some u →
    m₁.activeOut u = true ∧ StoredEdge n nbrs u v
  bits : ∀ v, m.activeOut v = true → m₁.parent v = none ∧ m.parent v ≠ none
  marked : ∀ v, m₁.parent v = none → m.parent v ≠ none → m.activeOut v = true ∨
    ∃ t ∈ ts, t.pc = .setBit ∧ t.rest.head? = some v
  tasks : ∀ t ∈ ts, t.Ok n nbrs m₁ m
  keys : ts.map BfsTask.src = (List.range n).filter m₁.activeOut
  count : (ts.map BfsTask.finds).sum = (newlyFound n m₁ m).card

variable {t t' : BfsTask} {m₁ m : BfsMem} {ts : List BfsTask}

/-- What a step of a task can do. -/
theorem bfsNext_cases {m m' : BfsMem} (h : bfsNext m t = some (m', t')) :
    ∃ dst rest, t.rest = dst :: rest ∧
      ((t.pc ≠ .setBit ∧ m.parent dst ≠ none ∧ m' = m ∧
          t' = { t with rest := rest, pc := .load }) ∨
        (t.pc = .load ∧ m.parent dst = none ∧ m' = m ∧ t' = { t with pc := .cas }) ∨
        (t.pc = .cas ∧ m.parent dst = none ∧
          m' = { m with parent := update m.parent dst (some t.src) } ∧
          t' = { t with pc := .setBit }) ∨
        (t.pc = .setBit ∧ m' = { m with activeOut := update m.activeOut dst true } ∧
          t' = { t with rest := rest, pc := .load, result := t.result + 1 })) := by
  obtain ⟨src, rest, pc, result⟩ := t
  cases rest with
  | nil => cases h
  | cons dst rest =>
    refine ⟨dst, rest, rfl, ?_⟩
    simp only [bfsNext] at h
    cases pc with
    | load =>
      simp only at h
      split_ifs at h with hp
      · cases h
        exact .inr (.inl ⟨rfl, hp, rfl, rfl⟩)
      · cases h
        exact .inl ⟨by simp, hp, rfl, rfl⟩
    | cas =>
      simp only at h
      split_ifs at h with hp
      · cases h
        exact .inr (.inr (.inl ⟨rfl, hp, rfl, rfl⟩))
      · cases h
        exact .inl ⟨by simp, hp, rfl, rfl⟩
    | setBit =>
      cases h
      exact .inr (.inr (.inr ⟨rfl, rfl, rfl⟩))

theorem BfsTask.Ok.mono {m₁ m m' : BfsMem} {t : BfsTask} (h : t.Ok n nbrs m₁ m)
    (hm : ∀ v, m.parent v ≠ none → m'.parent v ≠ none) : t.Ok n nbrs m₁ m' := by
  obtain ⟨done, hdone, hall⟩ := h.done
  refine ⟨h.src, ⟨done, hdone, fun d hd => hm d (hall d hd)⟩, fun hp => ?_⟩
  obtain ⟨d, rest, hr, h1, h2⟩ := h.pending hp
  exact ⟨d, rest, hr, h1, hm d h2⟩

variable {dst : VId} {i : Nat} {k : Nat}

/-- The next neighbour is done. -/
theorem BfsTask.Ok.advance (h : t.Ok n nbrs m₁ m) (hr : t.rest = dst :: rest)
    (hp : m.parent dst ≠ none) (hsrc : t'.src = t.src) (hr' : t'.rest = rest)
    (hpc : t'.pc ≠ .setBit) : t'.Ok n nbrs m₁ m := by
  obtain ⟨done, hdone, hall⟩ := h.done
  refine ⟨hsrc ▸ h.src, ⟨done ++ [dst], ?_, fun d hd => ?_⟩, fun hc => absurd hc hpc⟩
  · rw [hsrc, hdone, hr, hr', append_assoc]
    rfl
  · rcases mem_append.1 hd with hd | hd
    · exact hall d hd
    · rw [mem_singleton.1 hd]
      exact hp

section

variable (h : BfsRound n nbrs m₁ m ts)
include h

/-- A step that changes no memory. -/
theorem BfsRound.setTask (ht : ts[i]? = some t) (hpc : t.pc ≠ .setBit) (hok : t'.Ok n nbrs m₁ m)
    (hsrc : t'.src = t.src) (hfinds : t'.finds = t.finds) : BfsRound n nbrs m₁ m (ts.set i t') := by
  refine ⟨h.running, h.keep, h.fresh, h.bits, fun v h1 h2 => ?_,
    forall_mem_set h.tasks hok, ?_, ?_⟩
  · rcases h.marked v h1 h2 with hb | hex
    · exact .inl hb
    · rcases exists_mem_set t' ht hex with hex | hp
      · exact .inr hex
      · exact absurd hp.1 hpc
  · rw [map_set_eq ht hsrc, h.keys]
  · have := sum_map_set t' ht BfsTask.finds
    have hcount := h.count
    omega

omit h in
/-- The compare-and-swap succeeds. -/
theorem BfsRound.cas (hlt : ∀ v, v < n → ∀ d ∈ nbrs v, d < n) (h : BfsRound n nbrs m₁ m ts)
    {t : BfsTask} (ht : ts[i]? = some t) (hr : t.rest = dst :: rest) (hpc : t.pc = .cas)
    (hp : m.parent dst = none) :
    BfsRound n nbrs m₁ { m with parent := update m.parent dst (some t.src) }
      (ts.set i { t with pc := .setBit }) := by
  have hok := h.tasks t (mem_of_getElem? ht)
  have hmono : ∀ v, m.parent v ≠ none →
      update m.parent dst (some t.src) v ≠ none := by
    intro v hv
    by_cases hvd : v = dst
    · simp [hvd]
    · simpa [hvd] using hv
  have hnone : m₁.parent dst = none := by
    by_contra hne
    rw [← h.keep dst hne] at hne
    exact hne hp
  obtain ⟨done, hdone, hall⟩ := hok.done
  have hmem : dst ∈ nbrs t.src := by
    rw [hdone, hr]
    exact mem_append_right _ mem_cons_self
  have hself : update m.parent dst (some t.src) dst = some t.src :=
    update_self _ _ _
  refine ⟨h.running, fun v hv => ?_, fun v u h1 h2 => ?_, fun v hv => ?_, fun v h1 h2 => ?_,
    forall_mem_set (fun u hu => (h.tasks u hu).mono hmono) ?_, ?_, ?_⟩
  · have hvd : v ≠ dst := fun heq => hv (heq ▸ hnone)
    show update m.parent dst _ v = _
    rw [update_of_ne hvd]
    exact h.keep v hv
  · by_cases hvd : v = dst
    · subst hvd
      obtain rfl := Option.some.inj (hself.symm.trans h2)
      exact ⟨hok.src.1, hok.src.2, hmem⟩
    · have h2 : update m.parent dst (some t.src) v = some u := h2
      rw [update_of_ne hvd] at h2
      exact h.fresh v u h1 h2
  · exact ⟨(h.bits v hv).1, hmono v (h.bits v hv).2⟩
  · by_cases hvd : v = dst
    · subst hvd
      exact .inr ⟨_, mem_set_self _ ht, rfl, by rw [hr]; rfl⟩
    · have h2 : update m.parent dst (some t.src) v ≠ none := h2
      rw [update_of_ne hvd] at h2
      rcases h.marked v h1 h2 with hb | hex
      · exact .inl hb
      · rcases exists_mem_set { t with pc := .setBit } ht hex with hex | hq
        · exact .inr hex
        · rw [hpc] at hq
          cases hq.1
  · refine ⟨hok.src, ⟨done, hdone, fun d hd => hmono d (hall d hd)⟩, fun _ => ?_⟩
    refine ⟨dst, rest, hr, hnone, ?_⟩
    show update m.parent dst _ dst ≠ none
    rw [hself]
    exact Option.some_ne_none _
  · refine (map_set_eq ht ?_).trans h.keys
    rfl
  · have hinsert : newlyFound n m₁ { m with
        parent := update m.parent dst (some t.src) } =
          insert dst (newlyFound n m₁ m) := by
      ext v
      unfold newlyFound
      by_cases hvd : v = dst
      · subst hvd
        simp [hnone, hlt t.src hok.src.2 v hmem]
      · simp [hvd]
    have hnotin : dst ∉ newlyFound n m₁ m := by simp [newlyFound, hp]
    have hfinds : BfsTask.finds { t with pc := .setBit } = t.finds + 1 := by
      simp [BfsTask.finds, hpc]
    have hsum := sum_map_set { t with pc := .setBit } ht BfsTask.finds
    have hcount := h.count
    rw [hinsert, Finset.card_insert_of_notMem hnotin]
    omega

/-- The bit of the vertex that was found is set. -/
theorem BfsRound.setBit {t : BfsTask} (ht : ts[i]? = some t) (hr : t.rest = dst :: rest)
    (hpc : t.pc = .setBit) : BfsRound n nbrs m₁ { m with activeOut := update m.activeOut dst true }
      (ts.set i { t with rest := rest, pc := .load, result := t.result + 1 }) := by
  have hok := h.tasks t (mem_of_getElem? ht)
  obtain ⟨d, rest', hr', hnone, hp⟩ := hok.pending hpc
  rw [hr] at hr'
  obtain ⟨rfl, rfl⟩ := List.cons.inj hr'
  have hok' : ∀ u : BfsTask, u.Ok n nbrs m₁ m → u.Ok n nbrs m₁
      { m with activeOut := update m.activeOut dst true } :=
    fun u hu => hu.mono fun _ => id
  refine ⟨h.running, h.keep, h.fresh, fun v hv => ?_, fun v h1 h2 => ?_,
    forall_mem_set (fun u hu => hok' u (h.tasks u hu)) ?_, ?_, ?_⟩
  · by_cases hvd : v = dst
    · subst hvd
      exact ⟨hnone, hp⟩
    · have hv : update m.activeOut dst true v = true := hv
      rw [update_of_ne hvd] at hv
      exact h.bits v hv
  · show update m.activeOut dst true v = true ∨ _
    by_cases hvd : v = dst
    · subst hvd
      exact .inl (update_self _ _ _)
    · rw [update_of_ne hvd]
      rcases h.marked v h1 h2 with hb | hex
      · exact .inl hb
      · rcases exists_mem_set { t with rest := rest, pc := .load, result := t.result + 1 }
          ht hex with hex | hq
        · exact .inr hex
        · rw [hr] at hq
          exact absurd (Option.some.inj hq.2).symm hvd
  · exact hok' _ (hok.advance hr hp rfl rfl (by simp))
  · refine (map_set_eq ht ?_).trans h.keys
    rfl
  · have hfinds : BfsTask.finds { t with rest := rest, pc := .load, result := t.result + 1 } =
        t.finds := by simp [BfsTask.finds, hpc]
    have hsum := sum_map_set
      { t with rest := rest, pc := .load, result := t.result + 1 } ht BfsTask.finds
    have hcount : _ = (newlyFound n m₁ m).card := h.count
    show _ = (newlyFound n m₁ m).card
    omega

omit h in
theorem BfsRound.next (hlt : ∀ v, v < n → ∀ d ∈ nbrs v, d < n) {m₁ m m' : BfsMem}
    (h : BfsRound n nbrs m₁ m ts) (ht : ts[i]? = some t) (hnext : bfsNext m t = some (m', t')) :
    BfsRound n nbrs m₁ m' (ts.set i t') := by
  have hok := h.tasks t (mem_of_getElem? ht)
  obtain ⟨dst, rest, hr, ⟨hpc, hp, rfl, rfl⟩ | ⟨hpc, hp, rfl, rfl⟩ | ⟨hpc, hp, rfl, rfl⟩ |
    ⟨hpc, rfl, rfl⟩⟩ := bfsNext_cases hnext
  · refine h.setTask ht hpc (hok.advance hr hp rfl rfl (by simp)) rfl ?_
    simp [BfsTask.finds, hpc]
  · refine h.setTask ht (by simp [hpc]) ⟨hok.src, hok.done, fun hc => ?_⟩ rfl ?_
    · cases hc
    · simp [BfsTask.finds, hpc]
  · exact h.cas hlt ht hr hpc hp
  · exact h.setBit ht hr hpc

omit h in
/-- A task is finished when it has no neighbours left. -/
theorem bfsNext_eq_none {m : BfsMem} {t : BfsTask} (h : bfsNext m t = none) : t.rest = [] := by
  obtain ⟨src, rest, pc, result⟩ := t
  cases rest with
  | nil => rfl
  | cons dst rest =>
    simp only [bfsNext] at h
    cases pc with
    | load =>
      simp only at h
      split_ifs at h
    | cas =>
      simp only at h
      split_ifs at h
    | setBit => cases h

/-- What a finished round has found: the next level. -/
theorem BfsRound.found_iff (hm : BfsHead n nbrs s k m₁) (hfin : ∀ t ∈ ts, bfsNext m t = none)
    (v : VId) :
    m₁.parent v = none ∧ m.parent v ≠ none ↔ Walk.Dist (StoredEdge n nbrs) s v (k + 1) := by
  have hnot : m₁.parent v = none ↔ ∀ d ≤ k, ¬ Walk.Hops (StoredEdge n nbrs) s d v := by
    rw [← not_iff_not, ← ne_eq, hm.found v]
    push Not
    constructor
    · rintro ⟨d, hd, hdist⟩
      exact ⟨d, hd, hdist.1⟩
    · rintro ⟨d, hd, hh⟩
      obtain ⟨d', hd', hdist⟩ := hh.exists_dist
      exact ⟨d', hd'.trans hd, hdist⟩
  constructor
  · rintro ⟨h1, h2⟩
    obtain ⟨u, hu⟩ := Option.ne_none_iff_exists'.1 h2
    obtain ⟨hact, hedge⟩ := h.fresh v u h1 hu
    exact ((hm.active u).1 hact).succ hedge (hnot.1 h1)
  · intro hd
    refine ⟨hnot.2 fun d hd' hh => hd.2 d (lt_succ_of_le hd') hh, ?_⟩
    obtain ⟨u, hu, hlt, hmem⟩ := hd.pred
    have hkey : u ∈ ts.map BfsTask.src := by
      rw [h.keys]
      exact mem_filter.2 ⟨mem_range.2 hlt, (hm.active u).2 hu⟩
    obtain ⟨t, ht, rfl⟩ := mem_map.1 hkey
    obtain ⟨done, hdone, hall⟩ := (h.tasks t ht).done
    rw [bfsNext_eq_none (hfin t ht), append_nil] at hdone
    exact hall v (hdone ▸ hmem)

/-- In a finished round the sum of the results is the number of vertices found. -/
theorem BfsRound.sum_result (hfin : ∀ t ∈ ts, bfsNext m t = none) :
    (ts.map BfsTask.result).sum = (newlyFound n m₁ m).card := by
  rw [← h.count]
  congr 1
  refine map_congr_left fun t ht => ?_
  have hpc : t.pc ≠ .setBit := by
    intro hc
    obtain ⟨d, rest, hr, -⟩ := (h.tasks t ht).pending hc
    rw [bfsNext_eq_none (hfin t ht)] at hr
    cases hr
  simp [BfsTask.finds, hpc]

end

theorem BfsRound.join (hn : n < 2 ^ 32) (hlt : ∀ v, v < n → ∀ d ∈ nbrs v, d < n)
    (h : BfsRound n nbrs m₁ m ts) (hm : BfsHead n nbrs s k m₁) (hfin : ∀ t ∈ ts, bfsNext m t = none) :
    BfsHead n nbrs s (k + 1)
      { m with activeVertices := (ts.map BfsTask.result).sum % 2 ^ 32 } := by
  have hfound := h.found_iff hm hfin
  have hactive : ∀ v, m.activeOut v = true ↔ Walk.Dist (StoredEdge n nbrs) s v (k + 1) := by
    intro v
    rw [← hfound v]
    refine ⟨h.bits v, fun hv => ?_⟩
    rcases h.marked v hv.1 hv.2 with hb | ⟨t, ht, -, hhead⟩
    · exact hb
    · rw [bfsNext_eq_none (hfin t ht)] at hhead
      cases hhead
  refine ⟨fun v => ?_, hactive, ?_, fun v u hvs hu => ?_, ?_⟩
  · constructor
    · intro hv
      by_cases h1 : m₁.parent v = none
      · exact ⟨k + 1, le_rfl, (hfound v).1 ⟨h1, hv⟩⟩
      · obtain ⟨d, hd, hdist⟩ := (hm.found v).1 h1
        exact ⟨d, hd.trans (le_succ k), hdist⟩
    · rintro ⟨d, hd, hdist⟩
      rcases Nat.lt_or_eq_of_le hd with hd | rfl
      · have h1 := (hm.found v).2 ⟨d, le_of_lt_succ hd, hdist⟩
        show m.parent v ≠ none
        rw [h.keep v h1]
        exact h1
      · exact ((hfound v).2 hdist).2
  · show m.parent s = some s
    rw [h.keep s (by rw [hm.root]; exact Option.some_ne_none _)]
    exact hm.root
  · have hu : m.parent v = some u := hu
    by_cases h1 : m₁.parent v = none
    · refine ⟨k, (hm.active u).1 (h.fresh v u h1 hu).1, (hfound v).1 ⟨h1, ?_⟩⟩
      rw [hu]
      exact Option.some_ne_none _
    · exact hm.tree v u hvs (by rw [← h.keep v h1, hu])
  · show (ts.map BfsTask.result).sum % 2 ^ 32 = 0 ↔ ∀ v, m.activeOut v = false
    have hcard : (newlyFound n m₁ m).card ≤ n := by
      refine (Finset.card_filter_le _ _).trans ?_
      rw [Finset.card_range]
    rw [h.sum_result hfin, mod_eq_of_lt (by omega), Finset.card_eq_zero]
    constructor
    · intro hempty v
      rw [Bool.eq_false_iff]
      intro hv
      have hpar := h.bits v hv
      obtain ⟨u, hu⟩ := Option.ne_none_iff_exists'.1 hpar.2
      obtain ⟨-, hun, hmem⟩ := h.fresh v u hpar.1 hu
      have hin : v ∈ newlyFound n m₁ m :=
        Finset.mem_filter.2 ⟨Finset.mem_range.2 (hlt u hun v hmem), hpar⟩
      rw [hempty] at hin
      cases hin
    · intro hnone
      refine Finset.eq_empty_of_forall_notMem fun v hv => ?_
      have hd := (hactive v).2 ((hfound v).1 (Finset.mem_filter.1 hv).2)
      rw [hnone v] at hd
      cases hd

/-- A measure of the steps that a task has left. -/
def BfsTask.rank (t : BfsTask) : Nat :=
  3 * t.rest.length + match t.pc with
    | .load => 2
    | .cas => 1
    | .setBit => 0

theorem bfsNext_rank {m m' : BfsMem} (h : bfsNext m t = some (m', t')) : t'.rank < t.rank := by
  obtain ⟨dst, rest, hr, ⟨hpc, -, -, rfl⟩ | ⟨hpc, -, -, rfl⟩ | ⟨hpc, -, -, rfl⟩ | ⟨hpc, -, rfl⟩⟩ :=
    bfsNext_cases h
  · unfold BfsTask.rank
    simp only [hr, length_cons]
    omega
  · simp [BfsTask.rank, hpc]
  · simp [BfsTask.rank, hpc]
  · unfold BfsTask.rank
    simp only [hr, hpc, length_cons]
    omega

/-- The vertices that are not found yet, and one more while the search goes on. -/
def BfsMem.size (n : Nat) (m : BfsMem) : Nat :=
  ((Finset.range n).filter fun v => m.parent v = none).card +
    if m.activeVertices = 0 then 0 else 1

theorem BfsRound.size_lt (h : BfsRound n nbrs m₁ m ts) (hfin : ∀ t ∈ ts, bfsNext m t = none) :
    BfsMem.size n { m with activeVertices := (ts.map BfsTask.result).sum % 2 ^ 32 } <
      m₁.size n := by
  have hcard : ((Finset.range n).filter fun v => m.parent v = none).card +
      (newlyFound n m₁ m).card = ((Finset.range n).filter fun v => m₁.parent v = none).card := by
    rw [← Finset.card_union_of_disjoint]
    · congr 1
      ext v
      simp only [newlyFound, Finset.mem_union, Finset.mem_filter, Finset.mem_range]
      constructor
      · rintro (⟨hv, hp⟩ | ⟨hv, hp⟩)
        · refine ⟨hv, by_contra fun hne => ?_⟩
          rw [← h.keep v hne] at hne
          exact hne hp
        · exact ⟨hv, hp.1⟩
      · rintro ⟨hv, hp⟩
        by_cases hm : m.parent v = none
        · exact .inl ⟨hv, hm⟩
        · exact .inr ⟨hv, hp, hm⟩
    · rw [Finset.disjoint_left]
      intro v hv hv'
      exact (Finset.mem_filter.1 hv').2.2 (Finset.mem_filter.1 hv).2
  unfold BfsMem.size
  rw [if_neg h.running, h.sum_result hfin]
  dsimp only
  by_cases hzero : (newlyFound n m₁ m).card = 0
  · rw [hzero, if_pos (zero_mod _)]
    omega
  · split_ifs <;> omega

theorem parallelBfs_variant (hn : n < 2 ^ 32) (hlt : ∀ v, v < n → ∀ d ∈ nbrs v, d < n) (s : VId) :
    (parallelBfs n nbrs).Variant (fun m => ∃ k, BfsHead n nbrs s k m) (BfsRound n nbrs)
      BfsTask.rank (BfsMem.size n) := by
  refine ⟨⟨fun m₁ m ts hm hf => ?_, fun m₁ m ts i t m' t' hsec ht hnext => hsec.next hlt ht hnext,
    fun m₁ m ts ⟨k, hk⟩ hsec hfin => ⟨k + 1, hsec.join hn hlt hk hfin⟩⟩,
    fun m₁ m ts t m' t' _ _ hnext => bfsNext_rank hnext,
    fun m₁ m ts _ hsec hfin => hsec.size_lt hfin⟩
  simp only [parallelBfs] at hf
  split_ifs at hf with hzero
  cases hf
  refine ⟨hzero, fun _ _ => rfl, fun v u h1 h2 => ?_, fun v hv => ?_, fun v h1 h2 => ?_,
    fun t ht => ?_, ?_, ?_⟩
  · rw [show m₁.parent v = some u from h2] at h1
    cases h1
  · cases hv
  · exact absurd h1 h2
  · obtain ⟨v, hv, rfl⟩ := mem_map.1 ht
    obtain ⟨hv1, hv2⟩ := mem_filter.1 hv
    refine ⟨⟨hv2, mem_range.1 hv1⟩, ⟨[], rfl, fun d hd => ?_⟩, fun hc => ?_⟩
    · cases hd
    · cases hc
  · rw [map_map]
    exact map_id _
  · have hempty : newlyFound n m₁ { m₁ with
        activeIn := m₁.activeOut
        activeOut := fun _ => false } = ∅ := by
      refine Finset.eq_empty_of_forall_notMem fun v hv => ?_
      exact (Finset.mem_filter.1 hv).2.2 (Finset.mem_filter.1 hv).2.1
    rw [hempty, Finset.card_empty, map_map, sum_eq_zero]
    intro x hx
    obtain ⟨v, -, rfl⟩ := mem_map.1 hx
    rfl

theorem BfsHead.init (n : Nat) (nbrs : VId → List VId) (s : VId) :
    BfsHead n nbrs s 0 (parallelBfsStart s) := by
  have hzero : ∀ v, Walk.Dist (StoredEdge n nbrs) s v 0 ↔ v = s := by
    intro v
    constructor
    · exact fun h => h.1
    · rintro rfl
      exact Walk.Dist.start v
  refine ⟨fun v => ?_, fun v => ?_, ?_, fun v u hv hu => ?_, ?_⟩
  · constructor
    · intro hv
      refine ⟨0, le_rfl, (hzero v).2 (by_contra fun hne => hv ?_)⟩
      simp [parallelBfsStart, hne]
    · rintro ⟨d, hd, hdist⟩
      obtain rfl := Nat.le_zero.1 hd
      simp [parallelBfsStart, (hzero v).1 hdist]
  · rw [hzero v]
    by_cases hv : v = s
    · simp [parallelBfsStart, hv]
    · simp [parallelBfsStart, hv]
  · simp [parallelBfsStart]
  · simp [parallelBfsStart, hv] at hu
  · constructor
    · intro h
      cases h
    · intro h
      have := h s
      simp [parallelBfsStart] at this

/-! ## The results -/

/-- The parents lead to the start in as many steps as the distance says. -/
theorem BfsHead.parentDist {m : BfsMem} (h : BfsHead n nbrs s k m) {d fuel : Nat} {v : VId}
    (hv : m.parent v ≠ none) (hd : Walk.Dist (StoredEdge n nbrs) s v d) (hfuel : d < fuel) :
    parentDist m.parent fuel v = some d := by
  induction fuel generalizing v d with
  | zero => exact absurd hfuel (Nat.not_lt_zero d)
  | succ fuel ih =>
    obtain ⟨p, hp⟩ := Option.ne_none_iff_exists'.1 hv
    unfold BwGraph.parentDist
    rw [hp]
    dsimp only
    by_cases hvs : v = s
    · subst hvs
      rw [h.root] at hp
      obtain rfl := Option.some.inj hp
      rw [if_pos rfl, (Walk.Dist.start v).unique hd]
    · obtain ⟨d', hu, hv'⟩ := h.tree v p hvs hp
      obtain rfl := hv'.unique hd
      have hne : p ≠ v := by
        rintro rfl
        exact absurd (hu.unique hv') (Nat.ne_of_lt (lt_succ_self d'))
      have hparent : m.parent p ≠ none := by
        obtain ⟨e, he, hdist⟩ := (h.found v).1 hv
        have := hdist.unique hv'
        exact (h.found p).2 ⟨d', by omega, hu⟩
      rw [if_neg hne, ih hparent hu (by omega)]
      rfl

section

variable (hlt : ∀ v, v < n → ∀ d ∈ nbrs v, d < n) (hs : s < n)
include hlt hs

theorem dist_lt {v : VId} {d : Nat} (h : Walk.Dist (StoredEdge n nbrs) s v d) : v < n ∧ d < n := by
  have hreach : ∀ d v, Walk.Hops (StoredEdge n nbrs) s d v → v < n := by
    intro d v hv
    cases d with
    | zero =>
      rw [show v = s from hv]
      exact hs
    | succ d =>
      obtain ⟨u, -, hu, hmem⟩ := hv
      exact hlt u hu v hmem
  exact ⟨hreach d v h.1, h.lt_of_bounded fun u i hu => hreach i u hu.1⟩

/-- When nothing is active any more, the results are the vertices that can be reached, each once,
with its distance. -/
theorem BfsHead.results {m : BfsMem} (h : BfsHead n nbrs s k m) (hzero : m.activeVertices = 0) :
    ∃ r, bfsResults n m.parent n = some r ∧ (r.map Prod.fst).Nodup ∧
      ∀ v d, (v, d) ∈ r ↔ Walk.Dist (StoredEdge n nbrs) s v d := by
  -- no vertex is at distance `k`, hence none is further away
  have hbelow : ∀ v d, Walk.Dist (StoredEdge n nbrs) s v d → d ≤ k := by
    intro v d hd
    by_contra hgt
    obtain ⟨u, hu⟩ := hd.exists_of_le (Nat.le_of_lt (Nat.not_le.1 hgt))
    have := (h.active u).2 hu
    rw [h.count.1 hzero u] at this
    cases this
  set vs := (range n).filter fun v => (m.parent v).isSome
  have hvs : ∀ v, v ∈ vs ↔ ∃ d, Walk.Dist (StoredEdge n nbrs) s v d := by
    intro v
    rw [mem_filter, mem_range, Option.isSome_iff_ne_none, h.found v]
    constructor
    · rintro ⟨-, d, -, hd⟩
      exact ⟨d, hd⟩
    · rintro ⟨d, hd⟩
      exact ⟨(dist_lt hlt hs hd).1, d, hbelow v d hd, hd⟩
  have hdist : ∀ v ∈ vs, ∃ d, BwGraph.parentDist m.parent n v = some d ∧
      Walk.Dist (StoredEdge n nbrs) s v d := by
    intro v hv
    obtain ⟨d, hd⟩ := (hvs v).1 hv
    refine ⟨d, h.parentDist ?_ hd (dist_lt hlt hs hd).2, hd⟩
    exact Option.isSome_iff_ne_none.1 (mem_filter.1 hv).2
  choose! dist hpd hdd using hdist
  refine ⟨vs.map fun v => (v, dist v), ?_, ?_, fun v d => ?_⟩
  · refine mapM_eq_some_map fun v hv => ?_
    rw [hpd v hv]
    rfl
  · rw [map_map]
    exact (map_id vs).symm ▸ nodup_range.filter _
  · rw [mem_map]
    constructor
    · rintro ⟨u, hu, heq⟩
      obtain ⟨rfl, rfl⟩ := Prod.mk.inj heq
      exact hdd u hu
    · intro hd
      have hv := (hvs v).2 ⟨d, hd⟩
      exact ⟨v, hv, by rw [(hdd v hv).unique hd]⟩

end

/-- Every run of `parallel_bfs` ends, and its results are the vertices that can be reached, each
once, with its distance. -/
theorem parallelBfs_spec (hn : n < 2 ^ 32) (hlt : ∀ v, v < n → ∀ d ∈ nbrs v, d < n) (hs : s < n) :
    (parallelBfs n nbrs).Terminates (.head (parallelBfsStart s)) ∧
      ∀ es st, runAll (parallelBfs n nbrs).step (.head (parallelBfsStart s)) es = some st →
        (parallelBfs n nbrs).Stuck st →
        ∃ m r, st = .head m ∧ bfsResults n m.parent n = some r ∧ (r.map Prod.fst).Nodup ∧
          ∀ v d, (v, d) ∈ r ↔ Walk.Dist (StoredEdge n nbrs) s v d := by
  have hvar := parallelBfs_variant hn hlt s
  have hinit : ∃ k, BfsHead n nbrs s k (parallelBfsStart s) := ⟨0, BfsHead.init n nbrs s⟩
  refine ⟨hvar.terminates hinit, fun es st run hstuck => ?_⟩
  obtain ⟨m, rfl, ⟨k, hk⟩, hfork⟩ := (hvar.inv.of_run (s := .head _) hinit run).2 hstuck
  have hzero : m.activeVertices = 0 := by
    by_contra hne
    simp [parallelBfs, hne] at hfork
  obtain ⟨r, hr⟩ := hk.results hlt hs hzero
  exact ⟨m, r, rfl, hr⟩

/-! ## Databases that were just built -/

/-- The edges of a graph. -/
def MemGraph.Edge (g : MemGraph) (u v : VId) : Prop := u < g.vertexCount ∧ v ∈ g.neighbors u

/-- What `read_neighbor` gives on a database that was just built. -/
structure Stores (cfg : Config) (g : MemGraph) (db : Db) : Prop where
  count : db.getVertexCount = g.vertexCount
  mem_base : ∀ v, v < g.vertexCount → ∀ d, d ∈ db.base cfg v ↔ d ∈ g.neighbors v

section

variable {cfg : Config} {g : MemGraph} {db : Db}

theorem Built.stores (hps : 0 < cfg.pageSize) (hds : 0 < cfg.deltaPageSize)
    (hn : g.vertexCount ≤ cfg.idLimit) (hv : g.vertexCount < 2 ^ 32) (h : Built cfg g db) :
    Stores cfg g db := by
  obtain ⟨paged, -, hsize, hnbrs⟩ := h.loaded hps hds hn
  refine ⟨?_, fun v hvn d => ?_⟩
  · rw [Db.getVertexCount, hsize, mod_eq_of_lt hv]
  · have := Set.ext_iff.1 (hnbrs v hvn) d
    exact this

theorem Stores.lt (h : Stores cfg g db) (v : VId) (hv : v < g.vertexCount) (d : VId)
    (hd : d ∈ db.base cfg v) : d < g.vertexCount :=
  g.neighbors_lt v d ((h.mem_base v hv d).1 hd)

theorem Stores.edge (h : Stores cfg g db) : StoredEdge g.vertexCount (db.base cfg) = g.Edge := by
  funext u v
  refine propext ⟨fun hu => ⟨hu.1, ?_⟩, fun hu => ⟨hu.1, ?_⟩⟩
  · exact (h.mem_base u hu.1 v).1 hu.2
  · exact (h.mem_base u hu.1 v).2 hu.2

end

/-- On a database that was just built, `bfs` and every run of `parallel_bfs` return the same pairs:
the vertices that can be reached from the start, each once, with its hop distance. -/
theorem bfs_parallelBfs {cfg : Config} {g : MemGraph} {db : Db} (hps : 0 < cfg.pageSize)
    (hds : 0 < cfg.deltaPageSize) (hn : g.vertexCount ≤ cfg.idLimit)
    (hv : g.vertexCount < 2 ^ 32) (hb : Built cfg g db) {s : VId} (hs : s < db.getVertexCount) :
    (∃ r, bfs db.getVertexCount (db.base cfg) s (db.getVertexCount + 1) = some r ∧
      (r.map Prod.fst).Nodup ∧ ∀ v d, (v, d) ∈ r ↔ Walk.Dist g.Edge s v d) ∧
    (parallelBfs db.getVertexCount (db.base cfg)).Terminates (.head (parallelBfsStart s)) ∧
    ∀ es st, runAll (parallelBfs db.getVertexCount (db.base cfg)).step
        (.head (parallelBfsStart s)) es = some st →
      (parallelBfs db.getVertexCount (db.base cfg)).Stuck st →
      ∃ m r, st = .head m ∧ bfsResults db.getVertexCount m.parent db.getVertexCount = some r ∧
        (r.map Prod.fst).Nodup ∧ ∀ v d, (v, d) ∈ r ↔ Walk.Dist g.Edge s v d := by
  have hst := hb.stores hps hds hn hv
  rw [hst.count] at hs ⊢
  rw [← hst.edge]
  exact ⟨bfs_spec hst.lt hs (Nat.lt_succ_self _), parallelBfs_spec hv hst.lt hs⟩

/-- The small graph from vertex 0. -/
theorem bfs_parallelBfs_slotDb :
    (∃ r, bfs slotDb.getVertexCount (slotDb.base slotConfig) 0 (slotDb.getVertexCount + 1) =
      some r ∧ (0, 0) ∈ r) ∧
    (parallelBfs slotDb.getVertexCount (slotDb.base slotConfig)).Terminates
      (.head (parallelBfsStart 0)) := by
  obtain ⟨⟨r, hr, -, hdist⟩, hterm, -⟩ := bfs_parallelBfs (s := 0) (by decide) (by decide)
    (by decide) (by decide) slotDb_built (by decide +kernel)
  exact ⟨⟨r, hr, (hdist 0 0).2 (Walk.Dist.start 0)⟩, hterm⟩

end BwGraph
