import BwGraph.Db.Refinement
import BwGraph.Part.Reorder

/-
  `gorder_reordering_optimized` on a `mem_sub_com_t` (`reorder.h`): the same heuristic as on an
  adjacency map, with a count of every vertex in an array and with a seed that is taken by degree
  only. The map version falls back to the first key when no vertex has a neighbour; this one
  returns an empty order, so an edgeless graph loses its vertices
  (`gorderReorderingOptimizedCom_iff`). On every other graph the result is a permutation of the
  vertices.

  Counts are 8 bits wide and may wrap to 0 while the vertex is still a candidate, or leave it out
  of the candidates while its count is positive. Neither loses a vertex: a candidate is always an
  unvisited vertex, and without candidates the first unvisited vertex is taken.
-/

namespace BwGraph

open List

/-- The locals of the loop; `visited` holds of exactly the ordered vertices. -/
structure ComGorderState where
  ordered : List VId
  windowQueue : List VId
  windowNeighborCount : VId → Nat
  activeCandidates : List VId

namespace ComGorderState

/-- `window_neighbor_count[v]`, 8 bits wide. -/
def setCount (st : ComGorderState) (v : VId) (c : Nat) : ComGorderState :=
  { st with windowNeighborCount := Function.update st.windowNeighborCount v (c % 256) }

/-- `active_candidates.insert(v)`. -/
def insertCandidate (st : ComGorderState) (v : VId) : ComGorderState :=
  { st with activeCandidates := st.activeCandidates.insert v }

/-- `active_candidates.erase(v)`. -/
def eraseCandidate (st : ComGorderState) (v : VId) : ComGorderState :=
  { st with activeCandidates := st.activeCandidates.filter (· ≠ v) }

/-- Bucket of a candidate. -/
def bucketIdx (st : ComGorderState) (v : VId) : Nat := min (st.windowNeighborCount v) 20

/-- The candidates of the highest non-empty bucket, in scan order. -/
def topBucket (st : ComGorderState) (scan : List VId) : List VId :=
  let top := (scan.map st.bucketIdx).foldl max 0
  scan.filter fun v => st.bucketIdx v = top

/-- The vertex the candidates offer: the best of the last eight of the bucket. -/
def pickCandidate (cfg : Config) (env : GorderEnv) (g : MemGraph) (st : ComGorderState) :
    Option VId :=
  let bucket := st.topBucket (env.candidates.order st.activeCandidates)
  let score := fun v => env.score (st.windowNeighborCount v) (g.neighbors v).length
    (decide ((g.neighbors v).length ≥ cfg.giantDegreeBound))
  GorderState.bestOf score (bucket.reverse.take 8) none

/-- One neighbour of the seed. -/
def seedNeighbor (st : ComGorderState) (ngh : VId) : ComGorderState :=
  if ngh ∈ st.ordered then st else (st.setCount ngh 1).insertCandidate ngh

/-- One neighbour of the vertex just placed. -/
def enterNeighbor (st : ComGorderState) (ngh : VId) : ComGorderState :=
  if ngh ∈ st.ordered then st
  else
    let st' := if st.windowNeighborCount ngh = 0 then st.insertCandidate ngh else st
    st'.setCount ngh (st.windowNeighborCount ngh + 1)

/-- One neighbour of the vertex that leaves the window. -/
def leaveNeighbor (st : ComGorderState) (ngh : VId) : ComGorderState :=
  if ngh ∈ st.ordered then st
  else
    let st' := st.setCount ngh (st.windowNeighborCount ngh + 255)
    if st'.windowNeighborCount ngh = 0 then st'.eraseCandidate ngh else st'

/-- The window slides when it is too long. -/
def slideWindow (g : MemGraph) (windowSize : Nat) (st : ComGorderState) : ComGorderState :=
  if st.windowQueue.length > windowSize then
    match st.windowQueue with
    | [] => st
    | removed :: rest => (g.neighbors removed).foldl leaveNeighbor { st with windowQueue := rest }
  else st

/-- Place a vertex: the body of the loop after the choice. -/
def place (g : MemGraph) (windowSize : Nat) (st : ComGorderState) (v : VId) : ComGorderState :=
  let st := { st with ordered := st.ordered ++ [v] }.eraseCandidate v
  let st := { st with windowQueue := st.windowQueue ++ [v] }
  ((g.neighbors v).foldl enterNeighbor st).slideWindow g windowSize

/-- The new window of the next component. -/
def clearWindow (st : ComGorderState) : ComGorderState :=
  { st with windowQueue := [], windowNeighborCount := fun _ => 0, activeCandidates := [] }

/-- The vertex of the next round and the state it is placed in. -/
def choose (cfg : Config) (env : GorderEnv) (g : MemGraph) (st : ComGorderState) :
    Option (VId × ComGorderState) :=
  match st.pickCandidate cfg env g with
  | some v => some (v, st)
  | none =>
    ((List.range g.vertexCount).find? fun u => u ∉ st.ordered).map fun u => (u, st.clearWindow)

/-- The loop `while (ordered.size() < n)`; each round places one vertex. -/
def loop (cfg : Config) (env : GorderEnv) (g : MemGraph) (windowSize : Nat) :
    Nat → ComGorderState → List VId
  | 0, st => st.ordered
  | fuel + 1, st =>
    if st.ordered.length < g.vertexCount then
      match st.choose cfg env g with
      | none => st.ordered
      | some (v, st) => loop cfg env g windowSize fuel (st.place g windowSize v)
    else st.ordered

end ComGorderState

/-- The seed: the first vertex of the highest degree, if that is positive. -/
def comGorderSeed (g : MemGraph) : Option VId :=
  ((List.range g.vertexCount).foldl (fun (acc : Option VId × Nat) u =>
    if (g.neighbors u).length > acc.2 then (some u, (g.neighbors u).length) else acc) (none, 0)).1

/-- `gorder_reordering_optimized(mem_sub_com_t&)`. -/
def gorderReorderingOptimizedCom (cfg : Config) (env : GorderEnv) (g : MemGraph)
    (windowSize : Nat) : List VId :=
  match comGorderSeed g with
  | none => []
  | some seed =>
    let st : ComGorderState := ⟨[seed], [seed], fun _ => 0, []⟩
    let st := (g.neighbors seed).foldl ComGorderState.seedNeighbor st
    st.loop cfg env g windowSize g.vertexCount

/-! ## The candidates -/

namespace ComGorderState

/-- What every round keeps: placed vertices are distinct vertices of the graph, candidates are
vertices not placed yet. -/
structure Inv (g : MemGraph) (st : ComGorderState) : Prop where
  nodup : st.ordered.Nodup
  lt : ∀ v ∈ st.ordered, v < g.vertexCount
  candidates : ∀ v ∈ st.activeCandidates, v < g.vertexCount ∧ v ∉ st.ordered

variable {cfg : Config} {env : GorderEnv} {g : MemGraph} {st : ComGorderState}

theorem Inv.setCount (h : st.Inv g) (v : VId) (c : Nat) : (st.setCount v c).Inv g :=
  ⟨h.nodup, h.lt, h.candidates⟩

variable {v : VId}

theorem Inv.insertCandidate (h : st.Inv g) (hv : v < g.vertexCount) (hn : v ∉ st.ordered) :
    (st.insertCandidate v).Inv g := by
  refine ⟨h.nodup, h.lt, fun u hu => ?_⟩
  rcases mem_insert_iff.1 hu with rfl | hu
  · exact ⟨hv, hn⟩
  · exact h.candidates u hu

theorem Inv.eraseCandidate (h : st.Inv g) (v : VId) : (st.eraseCandidate v).Inv g :=
  ⟨h.nodup, h.lt, fun u hu => h.candidates u (mem_filter.1 hu).1⟩

/-- A pass over the neighbours of a vertex changes counts and candidates only. -/
def Counts (g : MemGraph) (f : ComGorderState → VId → ComGorderState) : Prop :=
  ∀ st v, st.Inv g → v < g.vertexCount → (f st v).Inv g ∧ (f st v).ordered = st.ordered

theorem counts_seedNeighbor : Counts g seedNeighbor := by
  intro st v h hv
  unfold seedNeighbor
  split_ifs with hn
  · exact ⟨h, rfl⟩
  · exact ⟨(h.setCount v 1).insertCandidate hv hn, rfl⟩

theorem counts_enterNeighbor : Counts g enterNeighbor := by
  intro st v h hv
  unfold enterNeighbor
  split_ifs with hn h0
  · exact ⟨h, rfl⟩
  · exact ⟨(h.insertCandidate hv hn).setCount v _, rfl⟩
  · exact ⟨h.setCount v _, rfl⟩

theorem counts_leaveNeighbor : Counts g leaveNeighbor := by
  intro st v h hv
  unfold leaveNeighbor
  dsimp only
  split_ifs
  · exact ⟨h, rfl⟩
  · exact ⟨(h.setCount v _).eraseCandidate v, rfl⟩
  · exact ⟨h.setCount v _, rfl⟩

theorem Counts.foldl {f : ComGorderState → VId → ComGorderState} (hf : Counts g f) (h : st.Inv g)
    {l : List VId} (hl : ∀ v ∈ l, v < g.vertexCount) :
    (l.foldl f st).Inv g ∧ (l.foldl f st).ordered = st.ordered := by
  induction l generalizing st with
  | nil => exact ⟨h, rfl⟩
  | cons v l ih =>
    obtain ⟨h1, ho1⟩ := hf st v h (hl v mem_cons_self)
    obtain ⟨h2, ho2⟩ := ih h1 fun w hw => hl w (mem_cons_of_mem v hw)
    exact ⟨h2, ho2.trans ho1⟩

theorem Inv.slideWindow (h : st.Inv g) (windowSize : Nat) :
    (st.slideWindow g windowSize).Inv g ∧
      (st.slideWindow g windowSize).ordered = st.ordered := by
  unfold ComGorderState.slideWindow
  split_ifs
  · split
    · exact ⟨h, rfl⟩
    · rename_i removed rest _
      have h1 : ({ st with windowQueue := rest } : ComGorderState).Inv g :=
        ⟨h.nodup, h.lt, h.candidates⟩
      exact counts_leaveNeighbor.foldl h1 (g.neighbors_lt removed)
  · exact ⟨h, rfl⟩

/-- Placing a vertex that is not placed yet. -/
theorem Inv.place (h : st.Inv g) (windowSize : Nat) (hv : v < g.vertexCount) (hn : v ∉ st.ordered) :
    (st.place g windowSize v).Inv g ∧
      (st.place g windowSize v).ordered = st.ordered ++ [v] := by
  have h1 : ({ ({ st with ordered := st.ordered ++ [v] } : ComGorderState).eraseCandidate v with
      windowQueue := st.windowQueue ++ [v] } : ComGorderState).Inv g := by
    refine ⟨?_, fun u hu => ?_, fun u hu => ?_⟩
    · rw [← concat_eq_append]
      exact h.nodup.concat hn
    · rcases mem_append.1 hu with hu | hu
      · exact h.lt u hu
      · rw [mem_singleton.1 hu]
        exact hv
    · obtain ⟨hu, hne⟩ := mem_filter.1 hu
      obtain ⟨hlt, hnot⟩ := h.candidates u hu
      refine ⟨hlt, fun hm => ?_⟩
      rcases mem_append.1 hm with hm | hm
      · exact hnot hm
      · exact of_decide_eq_true hne (mem_singleton.1 hm)
  obtain ⟨h2, ho2⟩ := counts_enterNeighbor.foldl h1 (g.neighbors_lt v)
  obtain ⟨h3, ho3⟩ := h2.slideWindow windowSize
  exact ⟨h3, ho3.trans ho2⟩

theorem pickCandidate_mem (h : st.pickCandidate cfg env g = some v) : v ∈ st.activeCandidates := by
  rcases GorderState.bestOf_mem _ none h with hm | ⟨s, hs⟩
  · have h1 := mem_reverse.1 (mem_of_mem_take hm)
    exact (env.candidates.perm _).mem_iff.1 (mem_filter.1 h1).1
  · cases hs

theorem Inv.choose (h : st.Inv g) {st' : ComGorderState} (hc : st.choose cfg env g = some (v, st')) :
    st'.Inv g ∧ st'.ordered = st.ordered ∧ v < g.vertexCount ∧ v ∉ st.ordered := by
  unfold ComGorderState.choose at hc
  split at hc
  · rename_i u hu
    cases hc
    exact ⟨h, rfl, h.candidates _ (pickCandidate_mem hu)⟩
  · obtain ⟨u, hu, he⟩ := Option.map_eq_some_iff.1 hc
    cases he
    refine ⟨⟨h.nodup, h.lt, by simp [clearWindow]⟩, rfl, ?_, ?_⟩
    · exact mem_range.1 (mem_of_find?_eq_some hu)
    · have hfound := find?_some hu
      exact of_decide_eq_true hfound

/-- A round that starts before every vertex is placed finds one. -/
theorem choose_ne_none (hlt : st.ordered.length < g.vertexCount) : st.choose cfg env g ≠ none := by
  unfold ComGorderState.choose
  split
  · simp
  · intro hc
    have hall := find?_eq_none.1 (Option.map_eq_none_iff.1 hc)
    have hsub : range g.vertexCount ⊆ st.ordered := fun u hu =>
      Decidable.of_not_not fun hn => hall u hu (decide_eq_true hn)
    have hle := (nodup_range.subperm hsub).length_le
    rw [length_range] at hle
    omega

/-- The loop ends with every vertex placed once. -/
theorem loop_perm (windowSize fuel : Nat) (h : st.Inv g)
    (hf : g.vertexCount ≤ st.ordered.length + fuel) :
    (st.loop cfg env g windowSize fuel).Perm (range g.vertexCount) := by
  have hfull : ∀ st : ComGorderState, st.Inv g → g.vertexCount ≤ st.ordered.length →
      st.ordered.Perm (range g.vertexCount) := fun st h hle =>
    (h.nodup.subperm fun v hv => mem_range.2 (h.lt v hv)).perm_of_length_le
      (by rw [length_range]; exact hle)
  induction fuel generalizing st with
  | zero => exact hfull st h hf
  | succ fuel ih =>
    unfold ComGorderState.loop
    split_ifs with hlt
    · split
      · rename_i hc
        exact absurd hc (choose_ne_none hlt)
      · rename_i v st' hc
        obtain ⟨h', ho', hv, hn⟩ := h.choose hc
        obtain ⟨h2, ho2⟩ := h'.place windowSize hv (ho' ▸ hn)
        apply ih h2
        rw [ho2, ho', length_append, length_singleton]
        omega
    · exact hfull st h (Nat.not_lt.1 hlt)

end ComGorderState

/-! ## The seed -/

/-- The seed is found when some vertex has a neighbour, and only then. -/
theorem comGorderSeed_spec (g : MemGraph) :
    (∀ v, comGorderSeed g = some v → v < g.vertexCount ∧ g.neighbors v ≠ []) ∧
      (comGorderSeed g = none → ∀ v < g.vertexCount, g.neighbors v = []) := by
  -- along the scan: the best vertex so far, or no degree at all
  have hscan : ∀ (l : List VId) (acc : Option VId × Nat),
      (∀ v, acc.1 = some v → v < g.vertexCount ∧ g.neighbors v ≠ []) →
      (acc.1 = none → acc.2 = 0) → (∀ v ∈ l, v < g.vertexCount) →
      ∀ r, r = l.foldl (fun (acc : Option VId × Nat) u =>
        if (g.neighbors u).length > acc.2 then (some u, (g.neighbors u).length) else acc) acc →
      (∀ v, r.1 = some v → v < g.vertexCount ∧ g.neighbors v ≠ []) ∧
        (r.1 = none → acc.1 = none ∧ ∀ v ∈ l, g.neighbors v = []) := by
    intro l
    induction l with
    | nil =>
      intro acc h1 _ _ r hr
      subst hr
      exact ⟨h1, fun hn => ⟨hn, by simp⟩⟩
    | cons u l ih =>
      intro acc h1 h2 hl r hr
      have hl' : ∀ v ∈ l, v < g.vertexCount := fun v hv => hl v (mem_cons_of_mem u hv)
      rw [foldl_cons] at hr
      by_cases hu : (g.neighbors u).length > acc.2
      · rw [if_pos hu] at hr
        have hne : g.neighbors u ≠ [] := fun he => by rw [he] at hu; simp at hu
        obtain ⟨ih1, ih2⟩ := ih _ (fun v hv => by cases hv; exact ⟨hl u mem_cons_self, hne⟩)
          (fun hn => by cases hn) hl' r hr
        exact ⟨ih1, fun hn => absurd (ih2 hn).1 (by simp)⟩
      · rw [if_neg hu] at hr
        obtain ⟨ih1, ih2⟩ := ih _ h1 h2 hl' r hr
        refine ⟨ih1, fun hn => ⟨(ih2 hn).1, fun v hv => ?_⟩⟩
        rcases mem_cons.1 hv with rfl | hv
        · have h0 := h2 (ih2 hn).1
          exact length_eq_zero_iff.1 (by omega)
        · exact (ih2 hn).2 v hv
  obtain ⟨h1, h2⟩ := hscan (range g.vertexCount) (none, 0) (by simp) (fun _ => rfl)
    (fun v hv => mem_range.1 hv) _ rfl
  exact ⟨h1, fun hn v hv => (h2 hn).2 v (mem_range.2 hv)⟩

/-- The order is a permutation of the vertices unless the graph has vertices and no edge. -/
theorem gorderReorderingOptimizedCom_iff (cfg : Config) (env : GorderEnv) (g : MemGraph)
    (windowSize : Nat) :
    (gorderReorderingOptimizedCom cfg env g windowSize).Perm (List.range g.vertexCount) ↔
      g.vertexCount = 0 ∨ ∃ v < g.vertexCount, g.neighbors v ≠ [] := by
  obtain ⟨hsome, hnone⟩ := comGorderSeed_spec g
  unfold gorderReorderingOptimizedCom
  rcases hseed : comGorderSeed g with _ | seed
  · have hlists := hnone hseed
    constructor
    · intro hp
      have hlen := hp.length_eq
      rw [List.length_range, List.length_nil] at hlen
      exact .inl hlen.symm
    · rintro (h0 | ⟨v, hv, hne⟩)
      · rw [h0, List.range_zero]
      · exact absurd (hlists v hv) hne
  · obtain ⟨hlt, hne⟩ := hsome seed hseed
    refine iff_of_true ?_ (.inr ⟨seed, hlt, hne⟩)
    have h0 : (⟨[seed], [seed], fun _ => 0, []⟩ : ComGorderState).Inv g :=
      ⟨List.nodup_singleton seed, by simpa using hlt, by simp⟩
    obtain ⟨h1, ho1⟩ := ComGorderState.counts_seedNeighbor.foldl h0 (g.neighbors_lt seed)
    exact ComGorderState.loop_perm windowSize _ h1 (by rw [ho1]; simp)

/-- A single vertex without neighbours is lost. -/
theorem gorderReorderingOptimizedCom_loses :
    ¬ ∀ (cfg : Config) (env : GorderEnv) (g : MemGraph) (windowSize : Nat),
      (gorderReorderingOptimizedCom cfg env g windowSize).Perm (List.range g.vertexCount) := by
  intro h
  have hp := h (smallConfig false) ⟨.listed, .listed, fun _ _ _ => 0⟩ (.ofLists [[]] (by simp)) 20
  exact absurd hp.length_eq (by decide)

end BwGraph
