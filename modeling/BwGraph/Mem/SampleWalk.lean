import Mathlib.Data.Set.Card
import BwGraph.Lib.Walk
import BwGraph.Mem.SubCom
import BwGraph.Mem.SubMap

/-
  Sampling by a random walk: `graph_sample_walk` of the database (`db_algorithm.cc`) and
  `graph_sample_random_walk` of `mem_sub_com_t` (`mem_g0com.cc`). The loop goes on until
  `max_vertices` different vertices have been sampled, or until the start turns out to have no
  neighbours. What the generator returns is a list, one `Draw` a round; a run that has used up its
  list has no result.

  Some list leads to the end exactly if the start has no neighbours or `max_vertices` of them can be
  reached (`sampleWalk_ends_iff`). Otherwise every vertex there is has been sampled at some time,
  and the loop walks on among them.
-/

namespace BwGraph

open List Option

/-! ## One round -/

/-- What the generator returns in a round: for `restart_dist`, for `dist`, and whether
`restart_prob` gave less than 0.15. -/
structure Draw where
  restart : Nat
  neighbor : Nat
  again : Bool

/-- `std::uniform_int_distribution` over the positions of a list. -/
def pick (l : List VId) (r : Nat) : VId := l.getD (r % l.length) 0

/-- The locals of the two functions. -/
structure WalkState where
  sampledVertices : List VId
  visitedSet : Finset VId
  walkedEdges : AdjMap
  currentVertex : VId

namespace WalkState

def start (startVertex : VId) : WalkState := ⟨[startVertex], {startVertex}, ∅, startVertex⟩

/-- Nowhere to go: from another sampled vertex, or out of the loop. -/
def restart (st : WalkState) (d : Draw) : Option WalkState :=
  if 1 < st.sampledVertices.length then
    some { st with currentVertex := pick st.sampledVertices d.restart }
  else none

/-- On to the next vertex, and from there now and then to any sampled one. -/
def visit (st : WalkState) (d : Draw) (nextVertex : VId) : WalkState :=
  let sampledVertices :=
    if nextVertex ∈ st.visitedSet then st.sampledVertices else st.sampledVertices ++ [nextVertex]
  { sampledVertices := sampledVertices
    visitedSet := insert nextVertex st.visitedSet
    walkedEdges := st.walkedEdges.insert st.currentVertex
      (st.walkedEdges.get st.currentVertex ++ [nextVertex])
    currentVertex :=
      if d.again = true ∧ 1 < sampledVertices.length then pick sampledVertices d.restart
      else nextVertex }

end WalkState

/-- A round of `graph_sample_walk`; `none` is the `break`. -/
def walkRound (readNeighbor : VId → List VId) (vertexCount : Nat) (st : WalkState) (d : Draw) :
    Option WalkState :=
  if readNeighbor st.currentVertex = [] then st.restart d
  else
    let validNeighbors := (readNeighbor st.currentVertex).filter (· < vertexCount)
    if validNeighbors = [] then st.restart d
    else some (st.visit d (pick validNeighbors d.neighbor))

/-- The valid neighbour with `i` valid ones before it. -/
def selectValid (numVertices : Nat) : List VId → Nat → VId
  | [], _ => 0
  | neighbor :: rest, i =>
    if neighbor < numVertices then
      if i = 0 then neighbor else selectValid numVertices rest (i - 1)
    else selectValid numVertices rest i

/-- A round of `graph_sample_random_walk`, which counts the valid neighbours in place. -/
def comWalkRound (neighborsSpan : VId → List VId) (numVertices : Nat) (st : WalkState) (d : Draw) :
    Option WalkState :=
  if neighborsSpan st.currentVertex = [] then st.restart d
  else
    let validCount := (neighborsSpan st.currentVertex).countP (· < numVertices)
    if validCount = 0 then st.restart d
    else some (st.visit d
      (selectValid numVertices (neighborsSpan st.currentVertex) (d.neighbor % validCount)))

/-! ## The loop and the two functions -/

/-- The loop. It has no result where the draws do not lead to its end. -/
def walkLoop (round : WalkState → Draw → Option WalkState) (maxVertices : Nat) :
    List Draw → WalkState → Option AdjMap
  | [], st => if st.sampledVertices.length < maxVertices then none else some st.walkedEdges
  | d :: draws, st =>
    if st.sampledVertices.length < maxVertices then
      match round st d with
      | none => some st.walkedEdges
      | some st' => walkLoop round maxVertices draws st'
    else some st.walkedEdges

/-- How a call ends: `reserve(max_vertices)` throws, or the walked edges come back. -/
inductive Sampling
  | thrown
  | returned (m : SubMap)

/-- `graph_sample_walk`. Whether the two `reserve` calls succeed is up to the library. -/
def graphSampleWalk (readNeighbor : VId → List VId) (vertexCount : Nat) (reserved : Bool)
    (startVertex : VId) (maxVertices : Nat) (draws : List Draw) : Option Sampling :=
  if reserved then
    (walkLoop (walkRound readNeighbor vertexCount) maxVertices draws
      (.start startVertex)).map fun walkedEdges => .returned (.ofMap walkedEdges)
  else some .thrown

/-- A `mem_sub_com_t` whose offsets stay within its arrays. -/
structure ComGraph where
  graph : SubCom
  held : ∀ v, (graph.getNeighbors v).isSome = true

/-- `get_neighbors_span`. -/
def ComGraph.neighborsSpan (g : ComGraph) (v : VId) : List VId :=
  (g.graph.getNeighbors v).get (g.held v)

/-- `graph_sample_random_walk`. -/
def ComGraph.graphSampleRandomWalk (g : ComGraph) (reserved : Bool) (startVertex : VId)
    (maxVertices : Nat) (draws : List Draw) : Option Sampling :=
  if startVertex < g.graph.numVertices then
    if reserved then
      (walkLoop (comWalkRound g.neighborsSpan g.graph.numVertices) maxVertices draws
        (.start startVertex)).map fun walkedEdges => .returned (.ofMap walkedEdges)
    else some .thrown
  else some (.returned (.ofMap ∅))

/-! ## The two rounds are one -/

theorem selectValid_eq (n : Nat) (l : List VId) (i : Nat) :
    selectValid n l i = (l.filter (· < n)).getD i 0 := by
  induction l generalizing i with
  | nil => rfl
  | cons v l ih =>
    unfold selectValid
    by_cases hv : v < n
    · rw [if_pos hv, filter_cons_of_pos (by simpa using hv)]
      rcases i with _ | i
      · rfl
      · exact ih i
    · rw [if_neg hv, filter_cons_of_neg (by simpa using hv)]
      exact ih i

theorem comWalkRound_eq (read : VId → List VId) (n : Nat) :
    comWalkRound read n = walkRound read n := by
  funext st d
  unfold comWalkRound walkRound
  dsimp only
  rw [selectValid_eq, countP_eq_length_filter]
  simp only [length_eq_zero_iff]
  rfl

/-! ## What a round does -/

section Walk

variable (read : VId → List VId) (n : Nat) (s : VId)

/-- A step of the walk. -/
def WalkStep (u v : VId) : Prop := v ∈ read u ∧ v < n

/-- The vertices that the walk can come to. -/
def WalkReach : Set VId := {v | Relation.ReflTransGen (WalkStep read n) s v}

/-- What holds of the locals in every round. -/
structure Walking (st : WalkState) : Prop where
  nodup : st.sampledVertices.Nodup
  start_mem : s ∈ st.sampledVertices
  reached : ∀ v ∈ st.sampledVertices, v ∈ WalkReach read n s
  current_mem : st.currentVertex ∈ st.sampledVertices
  visited : ∀ v, v ∈ st.visitedSet ↔ v ∈ st.sampledVertices
  edges : ∀ u, ∀ v ∈ st.walkedEdges.get u, WalkStep read n u v

variable {read n s}

theorem pick_mem {l : List VId} (hl : l ≠ []) (r : Nat) : pick l r ∈ l := by
  have hlt : r % l.length < l.length := Nat.mod_lt _ (length_pos_iff.2 hl)
  unfold pick
  rw [getD_eq_getElem _ _ hlt]
  exact getElem_mem hlt

theorem pick_idxOf {l : List VId} {v : VId} (hv : v ∈ l) : pick l (l.idxOf v) = v := by
  have hlt := idxOf_lt_length_of_mem hv
  unfold pick
  rw [Nat.mod_eq_of_lt hlt, getD_eq_getElem _ _ hlt, getElem_idxOf]

theorem walking_start : Walking read n s (.start s) where
  nodup := nodup_singleton s
  start_mem := mem_cons_self
  reached := fun v hv => by
    rw [mem_singleton.1 hv]
    exact .refl
  current_mem := mem_cons_self
  visited := fun v => by
    unfold WalkState.start
    rw [Finset.mem_singleton, mem_singleton]
  edges := fun u v hv => absurd hv not_mem_nil

/-- A round, by whether the vertex has a neighbour to go to. -/
theorem walkRound_eq (st : WalkState) (d : Draw) : walkRound read n st d =
    if (read st.currentVertex).filter (· < n) = [] then st.restart d
    else some (st.visit d (pick ((read st.currentVertex).filter (· < n)) d.neighbor)) := by
  unfold walkRound
  by_cases hnil : read st.currentVertex = []
  · rw [if_pos hnil, hnil]
    rfl
  · rw [if_neg hnil]

theorem filter_lt_eq_nil_iff {u : VId} : (read u).filter (· < n) = [] ↔ ∀ v ∈ read u, n ≤ v := by
  rw [filter_eq_nil_iff]
  refine forall_congr' fun v => forall_congr' fun _ => ?_
  rw [decide_eq_true_iff, Nat.not_lt]

theorem walkStep_of_mem_filter {u v : VId} (h : v ∈ (read u).filter (· < n)) :
    WalkStep read n u v := by
  obtain ⟨hmem, hlt⟩ := mem_filter.1 h
  exact ⟨hmem, of_decide_eq_true hlt⟩

variable {st : WalkState}

theorem Walking.ne_nil (h : Walking read n s st) : st.sampledVertices ≠ [] :=
  ne_nil_of_mem h.start_mem

/-- Going on from a sampled vertex. -/
theorem Walking.moved (h : Walking read n s st) {u : VId} (hu : u ∈ st.sampledVertices) :
    Walking read n s { st with currentVertex := u } :=
  ⟨h.nodup, h.start_mem, h.reached, hu, h.visited, h.edges⟩

theorem visit_currentVertex (st : WalkState) (d : Draw) (v : VId) :
    (st.visit d v).currentVertex =
      if d.again = true ∧ 1 < (st.visit d v).sampledVertices.length then
        pick (st.visit d v).sampledVertices d.restart
      else v := rfl

theorem mem_visit (hvisited : ∀ u, u ∈ st.visitedSet ↔ u ∈ st.sampledVertices) (d : Draw)
    (u v : VId) : u ∈ (st.visit d v).sampledVertices ↔ u = v ∨ u ∈ st.sampledVertices := by
  unfold WalkState.visit
  dsimp only
  split_ifs with hmem
  · refine (or_iff_right_of_imp fun he => ?_).symm
    rw [he]
    exact (hvisited v).1 hmem
  · rw [mem_append, mem_singleton, or_comm]

theorem Walking.visit (h : Walking read n s st) (d : Draw) {v : VId}
    (hv : WalkStep read n st.currentVertex v) : Walking read n s (st.visit d v) := by
  have hiff := fun u => mem_visit h.visited d u v
  have hv' : v ∈ (st.visit d v).sampledVertices := (hiff v).2 (.inl rfl)
  refine ⟨?_, (hiff s).2 (.inr h.start_mem), fun u hu => ?_, ?_, fun u => ?_, fun u w hw => ?_⟩
  · unfold WalkState.visit
    dsimp only
    split_ifs with hmem
    · exact h.nodup
    · refine nodup_append.2 ⟨h.nodup, nodup_singleton v, fun a ha b hb => ?_⟩
      rw [mem_singleton.1 hb]
      exact fun he => hmem ((h.visited v).2 (he ▸ ha))
  · rcases (hiff u).1 hu with rfl | hu
    · exact Relation.ReflTransGen.tail (h.reached _ h.current_mem) hv
    · exact h.reached u hu
  · rw [visit_currentVertex]
    by_cases hagain : d.again = true ∧ 1 < (st.visit d v).sampledVertices.length
    · rw [if_pos hagain]
      exact pick_mem (ne_nil_of_mem hv') _
    · rw [if_neg hagain]
      exact hv'
  · show u ∈ insert v st.visitedSet ↔ _
    rw [Finset.mem_insert, h.visited u, hiff u]
  · change w ∈ AdjMap.get (st.walkedEdges.insert st.currentVertex _) u at hw
    unfold AdjMap.get at hw
    by_cases hu : u = st.currentVertex
    · subst hu
      rw [AList.lookup_insert] at hw
      rcases mem_append.1 hw with hw | hw
      · exact h.edges _ w hw
      · rw [mem_singleton.1 hw]
        exact hv
    · rw [AList.lookup_insert_ne hu] at hw
      exact h.edges u w hw

variable {d : Draw}

/-- What holds before a round holds after it. -/
theorem Walking.round {st st' : WalkState} (h : Walking read n s st)
    (hr : walkRound read n st d = some st') : Walking read n s st' := by
  rw [walkRound_eq] at hr
  split_ifs at hr with hdead
  · unfold WalkState.restart at hr
    split_ifs at hr
    obtain rfl := some.inj hr
    exact h.moved (pick_mem h.ne_nil _)
  · obtain rfl := some.inj hr
    exact h.visit d (walkStep_of_mem_filter (pick_mem hdead _))

/-- The loop is left early only if the start has no neighbours. -/
theorem Walking.dead_of_break (h : Walking read n s st) (hr : walkRound read n st d = none) :
    ∀ v ∈ read s, n ≤ v := by
  rw [walkRound_eq] at hr
  split_ifs at hr with hdead
  unfold WalkState.restart at hr
  split_ifs at hr with hlen
  -- only the start has been sampled
  obtain ⟨u, hu⟩ := length_eq_one_iff.1
    (Nat.le_antisymm (Nat.le_of_not_lt hlen) (length_pos_iff.2 h.ne_nil))
  have hs := h.start_mem
  have hc := h.current_mem
  rw [hu] at hs hc
  rw [mem_singleton.1 hs, ← mem_singleton.1 hc]
  exact filter_lt_eq_nil_iff.1 hdead

/-! ## How far the walk comes -/

theorem walkReach_finite : (WalkReach read n s).Finite := by
  refine ((Set.finite_lt_nat n).insert s).subset fun v hv => ?_
  rcases Relation.ReflTransGen.cases_tail hv with he | ⟨u, -, hstep⟩
  · exact .inl he
  · exact .inr hstep.2

theorem ncard_walkReach_le (hs : s < n) : (WalkReach read n s).ncard ≤ n := by
  have hsub : WalkReach read n s ⊆ (Finset.range n : Set VId) := by
    intro v hv
    rcases Relation.ReflTransGen.cases_tail hv with he | ⟨u, -, hstep⟩
    · rw [he]
      exact Finset.mem_coe.2 (Finset.mem_range.2 hs)
    · exact Finset.mem_coe.2 (Finset.mem_range.2 hstep.2)
  have hle := Set.ncard_le_ncard hsub (Finset.finite_toSet _)
  rwa [Set.ncard_coe_finset, Finset.card_range] at hle

theorem Walking.length_le (h : Walking read n s st) :
    st.sampledVertices.length ≤ (WalkReach read n s).ncard := by
  rw [← toFinset_card_of_nodup h.nodup, ← Set.ncard_coe_finset]
  refine Set.ncard_le_ncard (fun v hv => ?_) walkReach_finite
  exact h.reached v (mem_toFinset.1 hv)

/-- While a vertex that can be reached has not been sampled, an edge leads out of the sampled
ones. -/
theorem Walking.exists_exit (h : Walking read n s st)
    (hlt : st.sampledVertices.length < (WalkReach read n s).ncard) :
    ∃ u ∈ st.sampledVertices, ∃ v, v ∉ st.sampledVertices ∧ WalkStep read n u v := by
  have hmissing : ∃ v ∈ WalkReach read n s, v ∉ st.sampledVertices := by
    by_contra hall
    push Not at hall
    have hle := Set.ncard_le_ncard (t := (st.sampledVertices.toFinset : Set VId))
      (fun v hv => mem_toFinset.2 (hall v hv)) (Finset.finite_toSet _)
    rw [Set.ncard_coe_finset, toFinset_card_of_nodup h.nodup] at hle
    omega
  obtain ⟨v, hv, hnot⟩ := hmissing
  exact Walk.exists_exit (S := {v | v ∈ st.sampledVertices}) h.start_mem hv hnot

/-- Some draws lead the loop to its end. -/
def CanEnd (read : VId → List VId) (n maxVertices : Nat) (st : WalkState) : Prop :=
  ∃ draws, (walkLoop (walkRound read n) maxVertices draws st).isSome = true

variable {maxVertices : Nat}

theorem canEnd_of_le (h : maxVertices ≤ st.sampledVertices.length) :
    CanEnd read n maxVertices st := by
  refine ⟨[], ?_⟩
  unfold walkLoop
  rw [if_neg (Nat.not_lt.2 h)]
  rfl

/-- A round more. -/
theorem CanEnd.of_round {st st' : WalkState} (hr : walkRound read n st d = some st')
    (h : CanEnd read n maxVertices st') : CanEnd read n maxVertices st := by
  by_cases hlen : st.sampledVertices.length < maxVertices
  · obtain ⟨draws, hd⟩ := h
    refine ⟨d :: draws, ?_⟩
    unfold walkLoop
    rw [if_pos hlen, hr]
    exact hd
  · exact canEnd_of_le (Nat.le_of_not_lt hlen)

section

variable (h : Walking read n s st)
include h

/-- At a vertex with an unsampled neighbour, the walk can go there. -/
theorem Walking.grow_at {v : VId} (hv : v ∉ st.sampledVertices)
    (hstep : WalkStep read n st.currentVertex v) :
    ∃ d st', walkRound read n st d = some st' ∧ Walking read n s st' ∧
      st.sampledVertices.length < st'.sampledVertices.length := by
  have hmem : v ∈ (read st.currentVertex).filter (· < n) :=
    mem_filter.2 ⟨hstep.1, decide_eq_true hstep.2⟩
  let d : Draw := ⟨0, ((read st.currentVertex).filter (· < n)).idxOf v, false⟩
  refine ⟨d, st.visit d v, ?_, h.visit d hstep, ?_⟩
  · rw [walkRound_eq, if_neg (ne_nil_of_mem hmem)]
    show some (st.visit d (pick _ (List.idxOf v _))) = _
    rw [pick_idxOf hmem]
  · unfold WalkState.visit
    dsimp only
    rw [if_neg fun hvis => hv ((h.visited v).1 hvis), length_append]
    exact Nat.lt_succ_self _

/-- In one round the walk can sample a vertex or come to a given sampled one. -/
theorem Walking.go_to {u : VId} (hu : u ∈ st.sampledVertices) (hne : u ≠ st.currentVertex) :
    ∃ d st', walkRound read n st d = some st' ∧ Walking read n s st' ∧
      (st.sampledVertices.length < st'.sampledVertices.length ∨
        st'.sampledVertices = st.sampledVertices ∧ st'.currentVertex = u) := by
  have hlen : 1 < st.sampledVertices.length := by
    by_contra hle
    obtain ⟨w, hw⟩ := length_eq_one_iff.1
      (Nat.le_antisymm (Nat.le_of_not_lt hle) (length_pos_iff.2 h.ne_nil))
    have hc := h.current_mem
    rw [hw] at hu hc
    exact hne ((mem_singleton.1 hu).trans (mem_singleton.1 hc).symm)
  let d : Draw := ⟨st.sampledVertices.idxOf u, 0, true⟩
  have hround : ∀ st', walkRound read n st d = some st' → Walking read n s st' :=
    fun st' hr => h.round hr
  by_cases hdead : (read st.currentVertex).filter (· < n) = []
  · have hr : walkRound read n st d = some { st with currentVertex := u } := by
      rw [walkRound_eq, if_pos hdead]
      unfold WalkState.restart
      rw [if_pos hlen, pick_idxOf hu]
    exact ⟨d, _, hr, hround _ hr, .inr ⟨rfl, rfl⟩⟩
  · have hr : walkRound read n st d = _ := walkRound_eq st d
    rw [if_neg hdead] at hr
    refine ⟨d, _, hr, hround _ hr, ?_⟩
    generalize pick _ d.neighbor = v
    by_cases hv : v ∈ st.visitedSet
    · have hsame : (st.visit d v).sampledVertices = st.sampledVertices := if_pos hv
      refine .inr ⟨hsame, ?_⟩
      rw [visit_currentVertex, hsame, if_pos ⟨rfl, hlen⟩]
      exact pick_idxOf hu
    · have hmore : (st.visit d v).sampledVertices = st.sampledVertices ++ [v] := if_neg hv
      rw [hmore, length_append]
      exact .inl (Nat.lt_succ_self _)

theorem Walking.canEnd (hmax : maxVertices ≤ (WalkReach read n s).ncard) :
    CanEnd read n maxVertices st := by
  -- by induction on how many vertices are still to be sampled
  induction hk : maxVertices - st.sampledVertices.length using Nat.strong_induction_on
    generalizing st with
  | _ k ih =>
    by_cases hle : maxVertices ≤ st.sampledVertices.length
    · exact canEnd_of_le hle
    have hmore : ∀ st', Walking read n s st' →
        st.sampledVertices.length < st'.sampledVertices.length → CanEnd read n maxVertices st' :=
      fun st' h' hlt => ih _ (by omega) h' rfl
    obtain ⟨u, hu, v, hv, hstep⟩ := h.exists_exit (by omega)
    have hat : ∀ st', Walking read n s st' → st'.sampledVertices = st.sampledVertices →
        st'.currentVertex = u → CanEnd read n maxVertices st' := by
      intro st' h' hsame hcur
      obtain ⟨d, st'', hr, hw, hlt⟩ := h'.grow_at (hsame ▸ hv) (hcur ▸ hstep)
      rw [hsame] at hlt
      exact (hmore st'' hw hlt).of_round hr
    by_cases hcur : u = st.currentVertex
    · exact hat st h rfl hcur.symm
    · obtain ⟨d, st', hr, hw, hlt | ⟨hsame, hcur'⟩⟩ := h.go_to hu hcur
      · exact (hmore st' hw hlt).of_round hr
      · exact (hat st' hw hsame hcur').of_round hr

/-- Where the loop ends: at a start without neighbours, or with `maxVertices` of the vertices that
can be reached; and what it returns are edges of the graph. -/
theorem Walking.ended {draws : List Draw} {m : AdjMap}
    (hm : walkLoop (walkRound read n) maxVertices draws st = some m) :
    ((∀ v ∈ read s, n ≤ v) ∨ maxVertices ≤ (WalkReach read n s).ncard) ∧
      ∀ u, ∀ v ∈ m.get u, WalkStep read n u v := by
  have hfull : ∀ st, Walking read n s st → ¬st.sampledVertices.length < maxVertices →
      maxVertices ≤ (WalkReach read n s).ncard := fun st hw hlen =>
    (Nat.le_of_not_lt hlen).trans hw.length_le
  induction draws generalizing st with
  | nil =>
    unfold walkLoop at hm
    split_ifs at hm with hlen
    obtain rfl := some.inj hm
    exact ⟨.inr (hfull st h hlen), h.edges⟩
  | cons d draws ih =>
    unfold walkLoop at hm
    split_ifs at hm with hlen
    · rcases hr : walkRound read n st d with _ | st'
      all_goals rw [hr] at hm
      · obtain rfl := some.inj hm
        exact ⟨.inl (h.dead_of_break hr), h.edges⟩
      · exact ih (h.round hr) hm
    · obtain rfl := some.inj hm
      exact ⟨.inr (hfull st h hlen), h.edges⟩

end

/-- Some draws end the loop exactly if the start has no neighbours or enough vertices can be
reached. -/
theorem walkLoop_ends_iff : CanEnd read n maxVertices (.start s) ↔
    (∀ v ∈ read s, n ≤ v) ∨ maxVertices ≤ (WalkReach read n s).ncard := by
  constructor
  · intro h
    obtain ⟨draws, hd⟩ := h
    obtain ⟨m, hm⟩ := isSome_iff_exists.1 hd
    exact (walking_start.ended hm).1
  · intro h
    rcases h with hdead | hmax
    · by_cases hlen : 1 < maxVertices
      · refine ⟨[⟨0, 0, false⟩], ?_⟩
        have hr : walkRound read n (.start s) ⟨0, 0, false⟩ = none := by
          rw [walkRound_eq]
          exact if_pos (filter_lt_eq_nil_iff.2 hdead)
        unfold walkLoop
        rw [if_pos (show (WalkState.start s).sampledVertices.length < maxVertices from hlen), hr]
        rfl
      · exact canEnd_of_le (Nat.le_of_not_lt hlen)
    · exact walking_start.canEnd hmax

end Walk

/-! ## The two functions -/

/-- What a walk over the database returns are edges of the graph. -/
theorem graphSampleWalk_edges {read : VId → List VId} {n s maxVertices : Nat} {reserved : Bool}
    {draws : List Draw} {m : SubMap}
    (h : graphSampleWalk read n reserved s maxVertices draws = some (.returned m)) :
    ∀ u, ∀ v ∈ m.getNeighbors u, WalkStep read n u v := by
  unfold graphSampleWalk at h
  split_ifs at h
  · obtain ⟨edges, he, hm⟩ := map_eq_some_iff.1 h
    obtain rfl := Sampling.returned.inj hm
    exact (walking_start.ended he).2
  · exact nomatch h

/-- The loops can end exactly if the start has no neighbours or `maxVertices` vertices can be
reached from it. -/
theorem sampleWalk_ends_iff (reserved : Bool) (startVertex : VId) (maxVertices : Nat) :
    (∀ (readNeighbor : VId → List VId) (vertexCount : Nat),
      (∃ draws, (graphSampleWalk readNeighbor vertexCount reserved startVertex maxVertices
        draws).isSome = true) ↔
      reserved = false ∨ (∀ v ∈ readNeighbor startVertex, vertexCount ≤ v) ∨
        maxVertices ≤ (WalkReach readNeighbor vertexCount startVertex).ncard) ∧
    ∀ g : ComGraph,
      (∃ draws, (g.graphSampleRandomWalk reserved startVertex maxVertices draws).isSome = true) ↔
      g.graph.numVertices ≤ startVertex ∨ reserved = false ∨
        (∀ v ∈ g.neighborsSpan startVertex, g.graph.numVertices ≤ v) ∨
        maxVertices ≤ (WalkReach g.neighborsSpan g.graph.numVertices startVertex).ncard := by
  have hwalk : ∀ (read : VId → List VId) (n : Nat),
      (∃ draws, (if reserved then
        (walkLoop (walkRound read n) maxVertices draws (.start startVertex)).map
          fun walkedEdges => Sampling.returned (.ofMap walkedEdges)
        else some .thrown).isSome = true) ↔
      reserved = false ∨ (∀ v ∈ read startVertex, n ≤ v) ∨
        maxVertices ≤ (WalkReach read n startVertex).ncard := by
    intro read n
    rw [← walkLoop_ends_iff]
    rcases reserved with _ | _
    · exact iff_of_true ⟨[], rfl⟩ (.inl rfl)
    · refine Iff.trans (exists_congr fun draws => ?_) (or_iff_right Bool.noConfusion).symm
      rw [if_pos rfl, Option.isSome_map]
  refine ⟨hwalk, fun g => ?_⟩
  unfold ComGraph.graphSampleRandomWalk
  rw [comWalkRound_eq]
  by_cases hs : startVertex < g.graph.numVertices
  · simp only [if_pos hs]
    rw [hwalk]
    exact (or_iff_right (Nat.not_le.2 hs)).symm
  · simp only [if_neg hs]
    exact iff_of_true ⟨[], rfl⟩ (.inl (Nat.le_of_not_lt hs))

/-- Vertices 0 and 1, each with the other as its neighbour. -/
def twoVertices : ComGraph where
  graph := ⟨[0, 1, 2], [1, 0], [0, 0], [], 2⟩
  held := fun v => by
    rcases v with _ | _ | v
    all_goals rfl

/-- Two vertices are never three. -/
theorem sampleWalk_endless :
    (¬∃ draws, (graphSampleWalk (fun v => [1 - v]) 2 true 0 3 draws).isSome = true) ∧
    ¬∃ draws, (twoVertices.graphSampleRandomWalk true 0 3 draws).isSome = true := by
  have hnot : ∀ read : VId → List VId, (∃ v ∈ read 0, v < 2) →
      ¬∃ draws, (walkLoop (walkRound read 2) 3 draws (.start 0)).isSome = true := by
    intro read hex h
    obtain ⟨v, hv, hlt⟩ := hex
    rcases walkLoop_ends_iff.1 h with hdead | hmax
    · exact absurd hlt (Nat.not_lt.2 (hdead v hv))
    · have hle : (WalkReach read 2 0).ncard ≤ 2 := ncard_walkReach_le (by decide)
      omega
  unfold ComGraph.graphSampleRandomWalk graphSampleWalk
  rw [comWalkRound_eq]
  refine ⟨fun h => ?_, fun h => ?_⟩
  · obtain ⟨draws, hd⟩ := h
    rw [if_pos rfl, Option.isSome_map] at hd
    exact hnot (fun v => [1 - v]) ⟨1, List.mem_cons_self, by decide⟩ ⟨draws, hd⟩
  · obtain ⟨draws, hd⟩ := h
    rw [if_pos (by decide), if_pos rfl, Option.isSome_map] at hd
    exact hnot twoVertices.neighborsSpan ⟨1, List.mem_cons_self, by decide⟩ ⟨draws, hd⟩

end BwGraph
