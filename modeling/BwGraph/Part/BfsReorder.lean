import BwGraph.Db.Build
import BwGraph.Lib.BreadthFirst
import BwGraph.Part.ReorderPlain

/-
  `bfs_reordering` and `bfs_reordering_for_csr` (`reorder.h`): the vertices in the order of
  breadth-first searches, one after the other until every vertex is listed. The searches of the
  map version skip neighbours that are not keys; it restarts inside its loop, at the first
  unvisited key in hash order. The other version restarts at the unvisited vertices by index.

  Both keep `Running`: the searches done are settled, and the open one satisfies the queue
  invariant. Every round lists a vertex, so both end, and the result is a permutation that is cut
  into segments (`bfsReordering_segments`). `giant_set` of the map version is filled and never
  read; it is left out. Ids have 32 bits, a `mem_sub_com_t` has fewer vertices than that.
-/

namespace BwGraph

open BreadthFirst List

/-- The locals of a search. -/
structure BfsOrder where
  ordered : List VId
  queue : List VId
  visited : Finset VId

namespace BfsOrder

/-- Nothing is listed yet. -/
def start : BfsOrder := ⟨[], [], ∅⟩

/-- A vertex to start a search from. -/
def pushSeed (st : BfsOrder) (seed : VId) : BfsOrder :=
  { st with queue := st.queue ++ [seed], visited := insert seed st.visited }

/-- One neighbour of the vertex just listed. -/
def visitNeighbor (inside : VId → Bool) (st : BfsOrder) (neighbor : VId) : BfsOrder :=
  if inside neighbor ∧ neighbor ∉ st.visited then
    { st with queue := st.queue ++ [neighbor], visited := insert neighbor st.visited }
  else st

/-- The first vertex of the queue is listed and its neighbours are visited. -/
def visitFront (inside : VId → Bool) (neighbors : List VId) (st : BfsOrder) (current : VId)
    (rest : List VId) : BfsOrder :=
  neighbors.foldl (visitNeighbor inside)
    { st with queue := rest, ordered := st.ordered ++ [current] }

/-- The loop `while (!queue.empty())`, with fuel. -/
def drain (g : MemGraph) : Nat → BfsOrder → Option BfsOrder
  | 0, _ => none
  | fuel + 1, st =>
    match st.queue with
    | [] => some st
    | current :: rest =>
      drain g fuel (st.visitFront (fun _ => true) (g.neighbors current) current rest)

/-- `bfs_from`. -/
def bfsFrom (g : MemGraph) (fuel : Nat) (st : BfsOrder) (seed : VId) : Option BfsOrder :=
  drain g fuel (st.pushSeed seed)

/-- A search from a vertex, if it was not visited. -/
def restart (g : MemGraph) (fuel : Nat) (st : BfsOrder) (v : VId) : Option BfsOrder :=
  if v ∈ st.visited then some st else bfsFrom g fuel st v

/-- The first unvisited key is queued when nothing is waiting. -/
def refill (keys : HashOrder) (adj : AdjMap) (st : BfsOrder) : BfsOrder :=
  if st.queue = [] then
    match (keys.order adj.keys).find? fun u => u ∉ st.visited with
    | none => st
    | some u => st.pushSeed u
  else st

/-- One round of the loop of `bfs_reordering`. -/
def round (keys : HashOrder) (adj : AdjMap) (st : BfsOrder) : Except String BfsOrder :=
  match (st.refill keys adj).queue with
  | [] => .error "front() of an empty queue"
  | u :: rest => do
    let neighbors ← adj.at u
    return (st.refill keys adj).visitFront (fun v => decide (v ∈ adj)) neighbors u rest

/-- The loop `while (!bfs_queue.empty() || visited.size() < n)`, with fuel. -/
def loop (keys : HashOrder) (adj : AdjMap) : Nat → BfsOrder → Option (Except String (List VId))
  | 0, _ => none
  | fuel + 1, st =>
    if st.queue ≠ [] ∨ st.visited.card < adj.keys.length then
      match st.round keys adj with
      | .error e => some (.error e)
      | .ok st => loop keys adj fuel st
    else some (.ok st.ordered)

end BfsOrder

/-- `bfs_reordering_for_csr`. -/
def bfsReorderingForCsr (g : MemGraph) (startVertex : VId) (fuel : Nat) : Option (List VId) :=
  if g.vertexCount = 0 then some []
  else if ¬ startVertex < g.vertexCount then some []
  else do
    let st ← BfsOrder.bfsFrom g fuel .start startVertex
    let st ← (List.range g.vertexCount).foldlM (BfsOrder.restart g fuel) st
    return st.ordered

/-- The seed: the given one, or the key with the most neighbours among the keys. -/
def bfsSeed (keys degrees : HashOrder) (adj : AdjMap) (seedVertex : VId) : VId :=
  if seedVertex = 0 ∨ seedVertex ∉ adj then
    match GorderState.bestOf (fun u => (adj.get u).countP fun v => decide (v ∈ adj))
        (degrees.order adj.keys) none with
    | some u => u
    | none => ((keys.order adj.keys).head?).getD 0
  else seedVertex

/-- `bfs_reordering`. -/
def bfsReordering (keys degrees : HashOrder) (adj : AdjMap) (seedVertex : VId) (fuel : Nat) :
    Option (Except String (List VId)) :=
  if adj.keys = [] then some (.ok [])
  else (BfsOrder.start.pushSeed (bfsSeed keys degrees adj seedVertex)).loop keys adj fuel

/-! ## One vertex -/

namespace BfsOrder

variable {st : BfsOrder} {vertices : List VId} {edge : VId → VId → Prop}

/-- What the loop over the neighbours appends to the queue. -/
theorem foldl_visitNeighbor (inside : VId → Bool) (neighbors : List VId) (st : BfsOrder) :
    ∃ new : List VId, new.Nodup ∧
      (∀ v, v ∈ new ↔ v ∈ neighbors ∧ inside v = true ∧ v ∉ st.visited) ∧
      neighbors.foldl (visitNeighbor inside) st =
        ⟨st.ordered, st.queue ++ new, st.visited ∪ new.toFinset⟩ := by
  refine Walk.exists_foldl_taken (fun st v => inside v = true ∧ v ∉ st.visited)
    (fun st new _ => ⟨st.ordered, st.queue ++ new, st.visited ∪ new.toFinset⟩)
    (fun st => ?_) (fun st d v => ?_) (fun st d new l hd hnot => ?_) (fun st d new l hd => ?_)
    neighbors st
  · simp
  · by_cases hd : inside d = true ∧ d ∉ st.visited
    · rw [show visitNeighbor inside st d = _ from if_pos hd]
      by_cases hv : v = d <;> simp [hv]
    · rw [show visitNeighbor inside st d = _ from if_neg hd]
      exact ⟨fun h => ⟨h, fun he => hd (he ▸ h)⟩, And.left⟩
  · rw [show visitNeighbor inside st d = _ from if_pos hd]
    simp [append_assoc]
  · rw [show visitNeighbor inside st d = _ from if_neg hd]

/-- The searches done are settled, and the open one keeps the queue invariant. -/
structure Running (vertices : List VId) (edge : VId → VId → Prop) (st : BfsOrder) : Prop where
  visited : ∀ v, v ∈ st.visited ↔ v ∈ st.ordered ++ st.queue
  inside : ∀ v ∈ st.ordered ++ st.queue, v ∈ vertices
  search : ∃ segs out s level, BreadthFirst.Settled edge segs ∧ st.ordered = segs.flatten ++ out ∧
    Searching edge segs.flatten s level out st.queue

section

variable (h : st.Running vertices edge)
include h

theorem Running.nodup : (st.ordered ++ st.queue).Nodup := by
  obtain ⟨segs, out, s, level, hs, ho, hq⟩ := h.search
  rw [ho, append_assoc]
  refine nodup_append.2 ⟨hs.nodup, hq.nodup, fun a ha b hb he => ?_⟩
  exact hq.fresh b hb (he ▸ ha)

theorem Running.length_le : (st.ordered ++ st.queue).length ≤ vertices.length :=
  (h.nodup.subperm h.inside).length_le

/-- With nothing waiting the open search is settled. -/
theorem Running.settled (hq : st.queue = []) :
    ∃ segs, BreadthFirst.Settled edge segs ∧ st.ordered = segs.flatten := by
  obtain ⟨segs, out, s, level, hs, ho, hrun⟩ := h.search
  rw [hq] at hrun
  exact ⟨segs ++ [out], hs.concat hrun, by rw [ho]; simp⟩

omit h in
/-- A search from a vertex that was not visited. -/
theorem running_pushSeed (hvisited : ∀ v, v ∈ st.visited ↔ v ∈ st.ordered)
    (hinside : ∀ v ∈ st.ordered, v ∈ vertices) (hq : st.queue = []) {segs : List (List VId)}
    (hs : BreadthFirst.Settled edge segs) (ho : st.ordered = segs.flatten) {v : VId}
    (hv : v ∈ vertices) (hn : v ∉ st.visited) : (st.pushSeed v).Running vertices edge := by
  have hqueue : (st.pushSeed v).queue = [v] := by
    unfold pushSeed
    rw [hq]
    rfl
  constructor
  · intro u
    rw [hqueue]
    show u ∈ insert v st.visited ↔ u ∈ st.ordered ++ [v]
    rw [Finset.mem_insert, hvisited, mem_append, mem_singleton, or_comm]
  · intro u hu
    rw [hqueue] at hu
    rcases mem_append.1 hu with hu | hu
    · exact hinside u hu
    · rw [mem_singleton.1 hu]
      exact hv
  · refine ⟨segs, [], v, fun _ => 0, hs, ?_, ?_⟩
    · rw [append_nil]
      exact ho
    · rw [hqueue]
      apply Searching.start
      rw [← ho, ← hvisited]
      exact hn

/-- The same after a search that has run dry. -/
theorem Running.pushSeed (hq : st.queue = []) {v : VId} (hv : v ∈ vertices) (hn : v ∉ st.visited) :
    (st.pushSeed v).Running vertices edge := by
  obtain ⟨segs, hs, ho⟩ := h.settled hq
  have hvisited := h.visited
  have hinside := h.inside
  rw [hq, append_nil] at hvisited hinside
  exact running_pushSeed hvisited hinside hq hs ho hv hn

/-- A vertex is listed and its new neighbours wait. -/
theorem Running.visitFront {inside : VId → Bool} {neighbors : List VId} {current : VId}
    {rest : List VId} (hq : st.queue = current :: rest)
    (hedge : ∀ v, edge current v ↔ v ∈ neighbors ∧ inside v = true)
    (hvertex : ∀ v, edge current v → v ∈ vertices) :
    (st.visitFront inside neighbors current rest).Running vertices edge ∧
      (st.visitFront inside neighbors current rest).ordered = st.ordered ++ [current] := by
  obtain ⟨new, hnd, hmem, heq⟩ := foldl_visitNeighbor inside neighbors
    { st with queue := rest, ordered := st.ordered ++ [current] }
  have hstep : st.visitFront inside neighbors current rest =
      ⟨st.ordered ++ [current], rest ++ new, st.visited ∪ new.toFinset⟩ := heq
  have hnew : ∀ v, v ∈ new ↔ edge current v ∧ v ∉ st.visited := fun v => by
    rw [hmem v, hedge v, and_assoc]
  have hlist : (st.ordered ++ [current]) ++ (rest ++ new) = (st.ordered ++ st.queue) ++ new := by
    rw [hq]
    simp
  rw [hstep]
  refine ⟨⟨fun v => ?_, fun v hv => ?_, ?_⟩, rfl⟩
  · show v ∈ st.visited ∪ new.toFinset ↔ v ∈ (st.ordered ++ [current]) ++ (rest ++ new)
    rw [hlist, Finset.mem_union, h.visited v, mem_toFinset, mem_append (t := new)]
  · have hv' : v ∈ (st.ordered ++ [current]) ++ (rest ++ new) := hv
    rw [hlist] at hv'
    rcases mem_append.1 hv' with hv' | hv'
    · exact h.inside v hv'
    · exact hvertex v ((hnew v).1 hv').1
  · obtain ⟨segs, out, s, level, hs, ho, hrun⟩ := h.search
    rw [hq] at hrun
    refine ⟨segs, out ++ [current], s, _, hs, ?_, hrun.step hnd fun v => ?_⟩
    · show st.ordered ++ [current] = _
      rw [ho, append_assoc]
    · rw [hnew v, h.visited v, hq, ho, append_assoc, mem_append (s := segs.flatten)]
      unfold Fresh
      rw [not_or, and_assoc]

end

/-! ## The graph in memory -/

/-- An edge of a graph in memory. -/
def csrEdge (g : MemGraph) (u v : VId) : Prop := v ∈ g.neighbors u

/-- A search ends, and leaves nothing waiting. -/
theorem drain_running {g : MemGraph} (fuel : Nat) {st : BfsOrder}
    (h : st.Running (range g.vertexCount) (csrEdge g))
    (hf : g.vertexCount < fuel + st.ordered.length) :
    ∃ st', drain g fuel st = some st' ∧ st'.Running (range g.vertexCount) (csrEdge g) ∧
      st'.queue = [] ∧ st.visited ⊆ st'.visited := by
  induction fuel generalizing st with
  | zero =>
    have hle := h.length_le
    rw [length_append, length_range] at hle
    omega
  | succ fuel ih =>
    unfold drain
    rcases hq : st.queue with _ | ⟨current, rest⟩
    · exact ⟨st, rfl, h, hq, Finset.Subset.refl _⟩
    · have hedge : ∀ v, csrEdge g current v ↔ v ∈ g.neighbors current ∧ true = true := fun v => by
        rw [csrEdge, eq_self, and_true]
      obtain ⟨h', ho⟩ := h.visitFront hq hedge fun v hv =>
        mem_range.2 (g.neighbors_lt current v hv)
      obtain ⟨st', hst, hrun, hempty, hsub⟩ := ih h' (by
        rw [ho, length_append, length_singleton]
        omega)
      refine ⟨st', hst, hrun, hempty, fun v hv => hsub ?_⟩
      obtain ⟨new, -, -, heq⟩ := foldl_visitNeighbor (fun _ => true) (g.neighbors current)
        { st with queue := rest, ordered := st.ordered ++ [current] }
      have hvis : (st.visitFront (fun _ => true) (g.neighbors current) current rest).visited =
        st.visited ∪ new.toFinset := congrArg visited heq
      rw [hvis]
      exact Finset.mem_union_left _ hv

/-- The vertices of a list are searched one after the other. -/
theorem foldlM_restart {g : MemGraph} {fuel : Nat} (hf : g.vertexCount < fuel) (l : List VId)
    (hl : ∀ v ∈ l, v < g.vertexCount) {st : BfsOrder}
    (h : st.Running (range g.vertexCount) (csrEdge g)) (hq : st.queue = []) :
    ∃ st', l.foldlM (restart g fuel) st = some st' ∧
      st'.Running (range g.vertexCount) (csrEdge g) ∧ st'.queue = [] ∧
      st.visited ⊆ st'.visited ∧ ∀ v ∈ l, v ∈ st'.visited := by
  induction l generalizing st with
  | nil => exact ⟨st, rfl, h, hq, Finset.Subset.refl _, fun v hv => by cases hv⟩
  | cons v l ih =>
    have hone : ∃ st1, restart g fuel st v = some st1 ∧
        st1.Running (range g.vertexCount) (csrEdge g) ∧ st1.queue = [] ∧
        st.visited ⊆ st1.visited ∧ v ∈ st1.visited := by
      unfold restart
      split_ifs with hv
      · exact ⟨st, rfl, h, hq, Finset.Subset.refl _, hv⟩
      · have hstart := h.pushSeed hq (mem_range.2 (hl v mem_cons_self)) hv
        obtain ⟨st1, hst, hrun, hempty, hsub⟩ := drain_running fuel hstart (by omega)
        exact ⟨st1, hst, hrun, hempty, fun u hu => hsub (Finset.mem_insert_of_mem hu),
          hsub (Finset.mem_insert_self v _)⟩
    obtain ⟨st1, hst1, hrun1, hempty1, hsub1, hv1⟩ := hone
    obtain ⟨st', hst, hrun, hempty, hsub, hall⟩ :=
      ih (fun u hu => hl u (mem_cons_of_mem v hu)) hrun1 hempty1
    refine ⟨st', ?_, hrun, hempty, hsub1.trans hsub, fun u hu => ?_⟩
    · rw [foldlM_cons, hst1]
      exact hst
    · rcases mem_cons.1 hu with rfl | hu
      · exact hsub hv1
      · exact hall u hu

/-! ## The adjacency map -/

/-- An edge of an adjacency map between two of its keys. -/
def mapEdge (adj : AdjMap) (u v : VId) : Prop := v ∈ adj.get u ∧ v ∈ adj

variable {adj : AdjMap}

section

variable (h : st.Running adj.keys (mapEdge adj)) (keys : HashOrder)
  (hopen : st.queue ≠ [] ∨ st.visited.card < adj.keys.length)
include h hopen

/-- Before all keys are visited something waits after the refill. -/
theorem Running.refill :
    (st.refill keys adj).Running adj.keys (mapEdge adj) ∧ (st.refill keys adj).queue ≠ [] ∧
      (st.refill keys adj).ordered = st.ordered := by
  unfold BfsOrder.refill
  by_cases hq : st.queue = []
  · rw [if_pos hq]
    have hlt : st.visited.card < adj.keys.length := hopen.resolve_left fun hne => hne hq
    rcases hf : (keys.order adj.keys).find? fun u => u ∉ st.visited with _ | u
    · have hall := find?_eq_none.1 hf
      have hsub : adj.keys ⊆ st.visited.toList := fun u hu => by
        have := hall u ((keys.perm _).mem_iff.2 hu)
        simpa using this
      have hle := (adj.keys_nodup.subperm hsub).length_le
      rw [Finset.length_toList] at hle
      omega
    · have hu : u ∈ adj.keys := (keys.perm _).mem_iff.1 (mem_of_find?_eq_some hf)
      have hn : u ∉ st.visited := by simpa using find?_some hf
      refine ⟨h.pushSeed hq hu hn, ?_, rfl⟩
      show st.queue ++ [u] ≠ []
      simp
  · rw [if_neg hq]
    exact ⟨h, hq, rfl⟩

/-- A round lists one vertex. -/
theorem Running.round :
    ∃ st', st.round keys adj = .ok st' ∧ st'.Running adj.keys (mapEdge adj) ∧
      st'.ordered.length = st.ordered.length + 1 := by
  obtain ⟨hrun, hne, ho⟩ := h.refill keys hopen
  unfold BfsOrder.round
  rcases hq : (st.refill keys adj).queue with _ | ⟨u, rest⟩
  · exact absurd hq hne
  · have hu : u ∈ adj := by
      apply hrun.inside u
      rw [hq]
      exact mem_append_right _ mem_cons_self
    have hedge : ∀ v, mapEdge adj u v ↔ v ∈ adj.get u ∧ decide (v ∈ adj) = true := fun v => by
      rw [mapEdge, decide_eq_true_eq]
    obtain ⟨h', ho'⟩ := hrun.visitFront hq hedge fun v hv => hv.2
    refine ⟨_, ?_, h', ?_⟩
    · dsimp only
      rw [AdjMap.at_eq_ok hu]
      rfl
    · rw [ho', length_append, length_singleton, ho]

end

/-- The loop ends with a settled list of all keys. -/
theorem loop_running (keys : HashOrder) (fuel : Nat) {st : BfsOrder}
    (h : st.Running adj.keys (mapEdge adj)) (hf : adj.keys.length < fuel + st.ordered.length) :
    ∃ segs, st.loop keys adj fuel = some (.ok segs.flatten) ∧
      BreadthFirst.Settled (mapEdge adj) segs ∧
      segs.flatten.Perm adj.keys := by
  induction fuel generalizing st with
  | zero =>
    have hle := h.length_le
    rw [length_append] at hle
    omega
  | succ fuel ih =>
    unfold loop
    by_cases hopen : st.queue ≠ [] ∨ st.visited.card < adj.keys.length
    · rw [if_pos hopen]
      obtain ⟨st', hst, h', hlen⟩ := h.round keys hopen
      rw [hst]
      exact ih h' (by omega)
    · rw [if_neg hopen]
      rw [not_or, not_not, Nat.not_lt] at hopen
      obtain ⟨segs, hs, ho⟩ := h.settled hopen.1
      have hnodup := h.nodup
      have hvisited := h.visited
      have hinside := h.inside
      rw [hopen.1, append_nil] at hnodup hvisited hinside
      have hset : st.visited = st.ordered.toFinset := by
        ext v
        rw [hvisited v, mem_toFinset]
      have hlen := hopen.2
      rw [hset, toFinset_card_of_nodup hnodup] at hlen
      refine ⟨segs, by rw [ho], hs, ?_⟩
      rw [← ho]
      exact (hnodup.subperm hinside).perm_of_length_le hlen

end BfsOrder

/-! ## The two orders -/

variable (keys degrees : HashOrder)

/-- The seed is a key. -/
theorem bfsSeed_mem {adj : AdjMap} (seedVertex : VId) (h : adj.keys ≠ []) :
    bfsSeed keys degrees adj seedVertex ∈ adj := by
  unfold bfsSeed
  by_cases hs : seedVertex = 0 ∨ seedVertex ∉ adj
  · rw [if_pos hs]
    rcases hb : GorderState.bestOf (fun u => (adj.get u).countP fun v => decide (v ∈ adj))
        (degrees.order adj.keys) none with _ | u
    · rcases ho : keys.order adj.keys with _ | ⟨u, rest⟩
      · have hp := keys.perm adj.keys
        rw [ho] at hp
        exact absurd hp.nil_eq.symm h
      · have hu : u ∈ keys.order adj.keys := ho ▸ mem_cons_self
        exact AList.mem_keys.2 ((keys.perm _).mem_iff.1 hu)
    · rcases GorderState.bestOf_mem _ none hb with hm | ⟨s, hs⟩
      · exact AList.mem_keys.2 ((degrees.perm _).mem_iff.1 hm)
      · cases hs
  · rw [if_neg hs]
    exact Decidable.of_not_not fun hn => hs (.inr hn)

/-- The map version. -/
theorem bfsReordering_settled (adj : AdjMap) (seedVertex : VId) {fuel : Nat}
    (hf : adj.keys.length < fuel) :
    ∃ segs, bfsReordering keys degrees adj seedVertex fuel = some (.ok segs.flatten) ∧
      BreadthFirst.Settled (BfsOrder.mapEdge adj) segs ∧ segs.flatten.Perm adj.keys := by
  unfold bfsReordering
  split_ifs with hempty
  · rw [hempty]
    exact ⟨[], rfl, BreadthFirst.Settled.nil _, List.Perm.refl _⟩
  · apply BfsOrder.loop_running keys fuel
    · exact BfsOrder.running_pushSeed (fun v => by simp [BfsOrder.start])
        (fun v hv => by cases hv) rfl (BreadthFirst.Settled.nil _) rfl
        (AList.mem_keys.1 (bfsSeed_mem keys degrees seedVertex hempty))
        (Finset.notMem_empty _)
    · exact Nat.lt_of_lt_of_le hf (Nat.le_add_right _ _)

/-- The version for graphs in memory. -/
theorem bfsReorderingForCsr_settled (g : MemGraph) {startVertex : VId}
    (hs : startVertex < g.vertexCount) {fuel : Nat} (hf : g.vertexCount < fuel) :
    ∃ segs, bfsReorderingForCsr g startVertex fuel = some segs.flatten ∧
      BreadthFirst.Settled (BfsOrder.csrEdge g) segs ∧
      segs.flatten.Perm (range g.vertexCount) := by
  have hpos : g.vertexCount ≠ 0 := Nat.ne_zero_of_lt hs
  unfold bfsReorderingForCsr
  rw [if_neg hpos, if_neg (not_not.2 hs)]
  have hstart : (BfsOrder.start.pushSeed startVertex).Running (range g.vertexCount)
      (BfsOrder.csrEdge g) :=
    BfsOrder.running_pushSeed (fun v => by simp [BfsOrder.start]) (fun v hv => by cases hv) rfl
      (BreadthFirst.Settled.nil _) rfl (mem_range.2 hs) (Finset.notMem_empty _)
  obtain ⟨st1, hst1, hrun1, hempty1, -⟩ := BfsOrder.drain_running fuel hstart
    (Nat.lt_of_lt_of_le hf (Nat.le_add_right _ _))
  obtain ⟨st, hst, hrun, hempty, -, hall⟩ := BfsOrder.foldlM_restart hf (range g.vertexCount)
    (fun v hv => mem_range.1 hv) hrun1 hempty1
  obtain ⟨segs, hset, ho⟩ := hrun.settled hempty
  have hnodup := hrun.nodup
  have hvisited := hrun.visited
  have hinside := hrun.inside
  rw [hempty, append_nil] at hnodup hvisited hinside
  refine ⟨segs, ?_, hset, ?_⟩
  · unfold BfsOrder.bfsFrom
    rw [hst1]
    show (do
      let st ← (range g.vertexCount).foldlM (BfsOrder.restart g fuel) st1
      return st.ordered) = _
    rw [hst, ← ho]
    rfl
  · rw [← ho]
    refine (perm_ext_iff_of_nodup hnodup nodup_range).2 fun v => ⟨hinside v, fun hv => ?_⟩
    exact (hvisited v).1 (hall v hv)

/-- Both orders list every vertex once, in segments: each one starts at a vertex that was not
listed and lists what is reached from it through such vertices, in non-decreasing distance. -/
theorem bfsReordering_segments (keys degrees : HashOrder) (adj : AdjMap) (seedVertex : VId)
    (g : MemGraph) {startVertex : VId} (hs : startVertex < g.vertexCount) {fuel : Nat}
    (hadj : adj.keys.length < fuel) (hg : g.vertexCount < fuel) :
    (∃ segs, bfsReordering keys degrees adj seedVertex fuel = some (.ok segs.flatten) ∧
      segs.flatten.Perm adj.keys ∧ Segmented (BfsOrder.mapEdge adj) segs) ∧
    ∃ segs, bfsReorderingForCsr g startVertex fuel = some segs.flatten ∧
      segs.flatten.Perm (List.range g.vertexCount) ∧ Segmented (BfsOrder.csrEdge g) segs := by
  obtain ⟨segs, hok, hset, hperm⟩ := bfsReordering_settled keys degrees adj seedVertex hadj
  obtain ⟨segs', hok', hset', hperm'⟩ := bfsReorderingForCsr_settled g hs hg
  exact ⟨⟨segs, hok, hperm, hset.segmented⟩, segs', hok', hperm', hset'.segmented⟩

/-- A map with a neighbour that is not a key, and a graph with two components. -/
theorem bfsReordering_segments_small :
    let adj := ([(4, [9, 5]), (5, []), (6, [4])] : List (VId × List VId)).foldl
      (fun (m : AdjMap) item => m.insert item.1 item.2) ∅
    let g := MemGraph.ofLists [[1], [0], [3, 0], []] (by decide)
    (∃ segs, bfsReordering .listed .listed adj 4 9 = some (.ok segs.flatten) ∧
      segs.flatten.Perm adj.keys ∧ Segmented (BfsOrder.mapEdge adj) segs) ∧
    ∃ segs, bfsReorderingForCsr g 2 9 = some segs.flatten ∧
      segs.flatten.Perm (List.range 4) ∧ Segmented (BfsOrder.csrEdge g) segs :=
  bfsReordering_segments .listed .listed _ 4 _ (by decide) (by decide) (by decide)

end BwGraph
