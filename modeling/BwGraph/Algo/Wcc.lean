import Mathlib.Algebra.Order.BigOperators.Group.Finset
import BwGraph.Algo.Bfs

/-
  Connected components (`wcc` and `parallel_wcc` of `db_algorithm.cc`). `wcc` numbers the
  components one after another, each found by a queue. `parallelWcc` propagates the least label
  along the edges of the active vertices (`bw_edge_scan`) until no label changes; the loads of the
  labels, the compare-and-swap and the setting of the bit are steps of their own. Which operand of
  `label[src] < label[dst]` is loaded first is left to the compiler (`srcFirst`).

  In a round every label only decreases, and a finished task has lowered the labels of its
  neighbours to the label its vertex had at the start of the round (`WccTask.Ok`). So an edge whose
  end still has a greater label than its start leaves an active vertex (`WccHead.stable`), and
  labels without active vertices are constant on components (`parallelWcc_spec`). On a symmetric
  graph both give the same partition (`parallelWcc_wcc`).
-/

namespace BwGraph

open Function List Nat ForkJoin

/-! ## One component after another -/

/-- The locals of `wcc`; an entry `UINT32_MAX` of `component_id` is `none`. -/
structure WccState where
  componentId : VId → Option VId
  toVisit : List VId

/-- One neighbour of the vertex at the front. -/
def wccNeighbor (n : Nat) (currentComponent : VId) (st : WccState) (neighbor : VId) : WccState :=
  if neighbor < n ∧ st.componentId neighbor = none then
    ⟨Function.update st.componentId neighbor (some currentComponent), st.toVisit ++ [neighbor]⟩
  else st

/-- The search for one component, with fuel. -/
def wccSearch (n : Nat) (nbrs : VId → List VId) (currentComponent : VId) :
    Nat → WccState → Option (VId → Option VId)
  | 0, _ => none
  | fuel + 1, st =>
    match st.toVisit with
    | [] => some st.componentId
    | currentVertex :: rest =>
      wccSearch n nbrs currentComponent fuel
        ((nbrs currentVertex).foldl (wccNeighbor n currentComponent) ⟨st.componentId, rest⟩)

/-- The loop of `wcc` over the start vertices. -/
def wccLoop (n : Nat) (nbrs : VId → List VId) (fuel : Nat) :
    List VId → (VId → Option VId) → VId → Option (VId → Option VId)
  | [], componentId, _ => some componentId
  | startVertex :: starts, componentId, currentComponent =>
    if componentId startVertex ≠ none then wccLoop n nbrs fuel starts componentId currentComponent
    else
      (wccSearch n nbrs currentComponent fuel
        ⟨Function.update componentId startVertex (some currentComponent), [startVertex]⟩).bind
        fun componentId => wccLoop n nbrs fuel starts componentId (currentComponent + 1)

/-- `wcc`: the component ids, of which the result lists those below `n`. -/
def wcc (n : Nat) (nbrs : VId → List VId) (fuel : Nat) : Option (VId → Option VId) :=
  wccLoop n nbrs fuel (List.range n) (fun _ => none) 0

/-- What the loop over the neighbours appends to the queue. -/
theorem foldl_wccNeighbor (n : Nat) (c : VId) (l : List VId) (st : WccState) :
    ∃ new : List VId, new.Nodup ∧
      (∀ v, v ∈ new ↔ v ∈ l ∧ v < n ∧ st.componentId v = none) ∧
      l.foldl (wccNeighbor n c) st =
        ⟨fun v => if v ∈ new then some c else st.componentId v, st.toVisit ++ new⟩ := by
  refine Walk.exists_foldl_taken (fun st v => v < n ∧ st.componentId v = none)
    (fun st new _ => ⟨fun v => if v ∈ new then some c else st.componentId v, st.toVisit ++ new⟩)
    (fun st => ?_) (fun st d v => ?_) (fun st d new l hd hnot => ?_) (fun st d new l hd => ?_) l st
  · simp
  · by_cases hd : d < n ∧ st.componentId d = none
    · rw [show wccNeighbor n c st d = _ from if_pos hd]
      by_cases hv : v = d <;> simp [hv]
    · rw [show wccNeighbor n c st d = _ from if_neg hd]
      exact ⟨fun h => ⟨h, fun he => hd (he ▸ h)⟩, And.left⟩
  · rw [show wccNeighbor n c st d = _ from if_pos hd]
    congr 1
    · funext v
      by_cases hv : v = d <;> simp [hv, hnot]
    · simp
  · rw [show wccNeighbor n c st d = _ from if_neg hd]

/-- The vertices without a component. -/
def unvisited (n : Nat) (componentId : VId → Option VId) : Finset VId :=
  (Finset.range n).filter fun v => componentId v = none

variable {n : Nat} {nbrs : VId → List VId}

/-- What holds while the component of `s` is searched; `old` are the ids before it. -/
structure WccSearch (n : Nat) (nbrs : VId → List VId) (old : VId → Option VId) (s c : VId)
    (st : WccState) : Prop where
  keep : ∀ v, old v ≠ none → st.componentId v = old v
  new : ∀ v, old v = none → st.componentId v ≠ none → v < n ∧ st.componentId v = some c ∧
    Walk.Conn (StoredEdge n nbrs) s v
  start : st.componentId s = some c
  queue : ∀ u ∈ st.toVisit, old u = none ∧ st.componentId u ≠ none
  closed : ∀ u, old u = none → st.componentId u ≠ none → u ∉ st.toVisit → ∀ v ∈ nbrs u,
    st.componentId v ≠ none

variable {old : VId → Option VId}

variable {rest : List VId}

section

variable (hlt : ∀ v, v < n → ∀ d ∈ nbrs v, d < n) {s c : VId} {st : WccState}
  (h : WccSearch n nbrs old s c st)
include hlt h

theorem WccSearch.step {cur : VId} (hq : st.toVisit = cur :: rest) :
    WccSearch n nbrs old s c
        ((nbrs cur).foldl (wccNeighbor n c) ⟨st.componentId, rest⟩) ∧
      (unvisited n ((nbrs cur).foldl (wccNeighbor n c) ⟨st.componentId, rest⟩).componentId).card +
        ((nbrs cur).foldl (wccNeighbor n c) ⟨st.componentId, rest⟩).toVisit.length + 1 =
      (unvisited n st.componentId).card + st.toVisit.length := by
  obtain ⟨new, hnd, hmem, heq⟩ := foldl_wccNeighbor n c (nbrs cur) ⟨st.componentId, rest⟩
  rw [heq]
  dsimp only at hmem ⊢
  generalize hids : (fun v => if v ∈ new then some c else st.componentId v) = ids
  have hcurmem : cur ∈ st.toVisit := by
    rw [hq]
    exact mem_cons_self
  obtain ⟨hcurold, hcurset⟩ := h.queue cur hcurmem
  obtain ⟨hcurlt, -, hcurconn⟩ := h.new cur hcurold hcurset
  have hnew : ∀ v ∈ new, ids v = some c := by
    intro v hv
    rw [← hids]
    exact if_pos hv
  have hrest : ∀ v, v ∉ new → ids v = st.componentId v := by
    intro v hv
    rw [← hids]
    exact if_neg hv
  have hold : ∀ v, st.componentId v ≠ none → ids v = st.componentId v :=
    fun v hv => hrest v fun hm => hv ((hmem v).1 hm).2.2
  have hset : ∀ v, st.componentId v ≠ none → ids v ≠ none := fun v hv => by rwa [hold v hv]
  have hsetnew : ∀ v ∈ new, ids v ≠ none := fun v hv => by
    rw [hnew v hv]
    exact Option.some_ne_none _
  have hcase : ∀ v, ids v ≠ none → v ∈ new ∨ st.componentId v ≠ none := by
    intro v hv
    by_cases hm : v ∈ new
    · exact .inl hm
    · rw [hrest v hm] at hv
      exact .inr hv
  refine ⟨⟨fun v hv => ?_, fun v h1 h2 => ?_, ?_, fun u hu => ?_, fun u h1 h2 h3 v hv => ?_⟩, ?_⟩
  · have hk := h.keep v hv
    exact (hold v (by rwa [hk])).trans hk
  · rcases hcase v h2 with hm | hs
    · obtain ⟨hvn, hvlt, -⟩ := (hmem v).1 hm
      exact ⟨hvlt, hnew v hm, hcurconn.trans (.edge ⟨hcurlt, hvn⟩)⟩
    · obtain ⟨hvlt, hid, hconn⟩ := h.new v h1 hs
      exact ⟨hvlt, (hold v hs).trans hid, hconn⟩
  · exact (hold s (by rw [h.start]; exact Option.some_ne_none _)).trans h.start
  · rcases mem_append.1 hu with hu | hu
    · obtain ⟨h1, h2⟩ := h.queue u (by rw [hq]; exact mem_cons_of_mem _ hu)
      exact ⟨h1, hset u h2⟩
    · refine ⟨by_contra fun hne => ?_, hsetnew u hu⟩
      have hk := h.keep u hne
      rw [((hmem u).1 hu).2.2] at hk
      exact hne hk.symm
  · rw [mem_append, not_or] at h3
    rcases hcase u h2 with hm | hs
    · exact absurd hm h3.2
    · by_cases huc : u = cur
      · subst huc
        by_cases hvs : st.componentId v = none
        · exact hsetnew v ((hmem v).2 ⟨hv, hlt u hcurlt v hv, hvs⟩)
        · exact hset v hvs
      · refine hset v (h.closed u h1 hs ?_ v hv)
        rw [hq, mem_cons, not_or]
        exact ⟨huc, h3.1⟩
  · -- every new vertex leaves the unvisited ones and enters the queue
    have hunion : unvisited n st.componentId = unvisited n ids ∪ new.toFinset := by
      ext v
      simp only [unvisited, Finset.mem_union, Finset.mem_filter, Finset.mem_range,
        mem_toFinset]
      by_cases hm : v ∈ new
      · simp [hm, ((hmem v).1 hm).2]
      · simp [hm, hrest v hm]
    have hdisj : Disjoint (unvisited n ids) new.toFinset := by
      rw [Finset.disjoint_left]
      intro v hv hm
      exact hsetnew v (mem_toFinset.1 hm) (Finset.mem_filter.1 hv).2
    rw [hunion, Finset.card_union_of_disjoint hdisj, toFinset_card_of_nodup hnd, hq]
    simp only [length_append, length_cons]
    omega

omit hlt h in
theorem WccSearch.init {s : VId} (hs : old s = none) (hlt : s < n) (c : VId) :
    WccSearch n nbrs old s c ⟨update old s (some c), [s]⟩ := by
  have hne : ∀ v, v ≠ s → update old s (some c) v = old v :=
    fun v hv => update_of_ne hv _ _
  refine ⟨fun v hv => hne v ?_, fun v h1 h2 => ?_, update_self _ _ _, fun u hu => ?_,
    fun u h1 h2 h3 => ?_⟩
  · rintro rfl
    exact hv hs
  · have hvs : v = s := by
      by_contra hc
      exact h2 ((hne v hc).trans h1)
    subst hvs
    exact ⟨hlt, update_self _ _ _, .refl v⟩
  · rw [mem_singleton.1 hu]
    exact ⟨hs, by simp⟩
  · have hus : u ≠ s := fun heq => h3 (by simp [heq])
    exact absurd ((hne u hus).trans h1) h2

omit hlt h in
theorem card_unvisited_update_lt {s : VId} (hs : s < n) (ids : VId → Option VId) (c : VId) :
    (unvisited n (update ids s (some c))).card < n := by
  have hsub : unvisited n (update ids s (some c)) ⊂ Finset.range n := by
    refine (Finset.ssubset_iff_of_subset (Finset.filter_subset _ _)).2 ⟨s, ?_, ?_⟩
    · exact Finset.mem_range.2 hs
    · simp
  have hcard := Finset.card_lt_card hsub
  rwa [Finset.card_range] at hcard

/-- The search returns when the queue is empty: the new vertices are the component of `s`. -/
theorem wccSearch_spec (fuel : Nat)
    (hfuel : (unvisited n st.componentId).card + st.toVisit.length < fuel) :
    ∃ ids, wccSearch n nbrs c fuel st = some ids ∧ WccSearch n nbrs old s c ⟨ids, []⟩ := by
  induction fuel generalizing st with
  | zero => exact absurd hfuel (Nat.not_lt_zero _)
  | succ fuel ih =>
    unfold wccSearch
    obtain ⟨ids, toVisit⟩ := st
    cases toVisit with
    | nil => exact ⟨ids, rfl, h⟩
    | cons cur rest =>
      obtain ⟨hstep, hcard⟩ := h.step hlt rfl
      exact ih hstep (by omega)

end

/-- What holds at the head of the loop over the start vertices. -/
structure WccOuter (n : Nat) (nbrs : VId → List VId) (done : List VId) (ids : VId → Option VId)
    (c : VId) : Prop where
  done : ∀ v ∈ done, ids v ≠ none
  lt : ∀ v, ids v ≠ none → v < n
  id_lt : ∀ v x, ids v = some x → x < c
  closed : ∀ u, ids u ≠ none → ∀ v ∈ nbrs u, ids v ≠ none
  same : ∀ u v, ids u ≠ none → ids v ≠ none →
    (ids u = ids v ↔ Walk.Conn (StoredEdge n nbrs) u v)

section

variable (hsym : ∀ u v, StoredEdge n nbrs u v → StoredEdge n nbrs v u) {done : List VId}
include hsym

variable {ids : VId → Option VId}

/-- In a symmetric graph the vertices with an id are a union of components. -/
theorem WccOuter.of_conn {c : VId} (h : WccOuter n nbrs done ids c) {u v : VId}
    (hc : Walk.Conn (StoredEdge n nbrs) u v) : ids u ≠ none ↔ ids v ≠ none := by
  have hedge : ∀ u v, StoredEdge n nbrs u v → (ids u ≠ none) = (ids v ≠ none) := by
    intro u v huv
    refine propext ⟨fun hu => h.closed u hu v huv.2, fun hv => h.closed v hv u (hsym u v huv).2⟩
  exact iff_of_eq (Walk.Conn.congr hedge hc)

/-- A new component has been found. -/
theorem WccOuter.search {s c : VId} (h : WccOuter n nbrs done old c)
    (hw : WccSearch n nbrs old s c ⟨ids, []⟩) : WccOuter n nbrs (done ++ [s]) ids (c + 1) := by
  have hkeep : ∀ v, old v ≠ none → ids v = old v := hw.keep
  have hset : ∀ v, old v ≠ none → ids v ≠ none := fun v hv => by rwa [hkeep v hv]
  have hnewid : ∀ v, old v = none → ids v ≠ none → ids v = some c :=
    fun v h1 h2 => (hw.new v h1 h2).2.1
  have hdiff : ∀ u v, old u ≠ none → old v = none → ids v ≠ none →
      ids u ≠ ids v ∧ ¬ Walk.Conn (StoredEdge n nbrs) u v := by
    intro u v hu hv hv'
    refine ⟨fun heq => ?_, fun hc => (h.of_conn hsym hc).1 hu hv⟩
    rw [hnewid v hv hv', hkeep u hu] at heq
    exact lt_irrefl _ (h.id_lt u c heq)
  refine ⟨fun v hv => ?_, fun v hv => ?_, fun v x hx => ?_, fun u hu v hv => ?_,
    fun u v hu hv => ?_⟩
  · rcases mem_append.1 hv with hv | hv
    · exact hset v (h.done v hv)
    · rw [mem_singleton.1 hv, show ids s = some c from hw.start]
      exact Option.some_ne_none _
  · by_cases ho : old v = none
    · exact (hw.new v ho hv).1
    · exact h.lt v ho
  · by_cases ho : old v = none
    · have := hnewid v ho (by rw [hx]; exact Option.some_ne_none _)
      rw [this] at hx
      rw [← Option.some.inj hx]
      exact lt_succ_self c
    · rw [hkeep v ho] at hx
      exact lt_succ_of_lt (h.id_lt v x hx)
  · by_cases ho : old u = none
    · exact hw.closed u ho hu (not_mem_nil) v hv
    · exact hset v (h.closed u ho v hv)
  · by_cases hou : old u = none
    · by_cases hov : old v = none
      · rw [hnewid u hou hu, hnewid v hov hv]
        exact iff_of_true rfl ((hw.new u hou hu).2.2.symm.trans (hw.new v hov hv).2.2)
      · obtain ⟨h1, h2⟩ := hdiff v u hov hou hu
        exact iff_of_false h1.symm fun hc => h2 hc.symm
    · by_cases hov : old v = none
      · obtain ⟨h1, h2⟩ := hdiff u v hou hov hv
        exact iff_of_false h1 h2
      · rw [hkeep u hou, hkeep v hov]
        exact h.same u v hou hov

end

/-- `wcc` gives two vertices the same id exactly when they are connected. -/
theorem wcc_spec (hlt : ∀ v, v < n → ∀ d ∈ nbrs v, d < n)
    (hsym : ∀ u v, StoredEdge n nbrs u v → StoredEdge n nbrs v u) {fuel : Nat} (hfuel : n < fuel) :
    ∃ ids, wcc n nbrs fuel = some ids ∧ (∀ v, v < n → ids v ≠ none) ∧
      ∀ u v, u < n → v < n → (ids u = ids v ↔ Walk.Conn (StoredEdge n nbrs) u v) := by
  have hloop : ∀ (starts done : List VId) (ids : VId → Option VId) (c : VId),
      WccOuter n nbrs done ids c → (∀ v ∈ starts, v < n) →
      ∃ ids' c', wccLoop n nbrs fuel starts ids c = some ids' ∧
        WccOuter n nbrs (done ++ starts) ids' c' := by
    intro starts
    induction starts with
    | nil =>
      intro done ids c h _
      exact ⟨ids, c, rfl, by simpa using h⟩
    | cons s starts ih =>
      intro done ids c h hstarts
      rw [forall_mem_cons] at hstarts
      rw [show done ++ s :: starts = (done ++ [s]) ++ starts by simp]
      unfold wccLoop
      by_cases hs : ids s = none
      · rw [if_neg (not_not.2 hs)]
        obtain ⟨ids', hsearch, hdone⟩ := wccSearch_spec hlt (WccSearch.init hs hstarts.1 c)
          fuel (by
            have := card_unvisited_update_lt hstarts.1 ids c
            simp only [length_cons, length_nil]
            omega)
        rw [hsearch]
        exact ih _ ids' (c + 1) (h.search hsym hdone) hstarts.2
      · rw [if_pos hs]
        refine ih _ ids c ⟨fun v hv => ?_, h.lt, h.id_lt, h.closed, h.same⟩ hstarts.2
        rcases mem_append.1 hv with hv | hv
        · exact h.done v hv
        · rw [mem_singleton.1 hv]
          exact hs
  obtain ⟨ids, c, hrun, h⟩ := hloop (range n) [] (fun _ => none) 0
    ⟨by simp, by simp, by simp, by simp, by simp⟩ fun v hv => mem_range.1 hv
  have hall : ∀ v, v < n → ids v ≠ none := fun v hv => h.done v (by simpa using hv)
  exact ⟨ids, hrun, hall, fun u v hu hv => h.same u v (hall u hu) (hall v hv)⟩

/-! ## Label propagation -/

/-- The arrays of `parallel_wcc`. -/
structure WccMem where
  label : VId → VId
  activeIn : VId → Bool
  activeOut : VId → Bool
  activeVertices : Nat

/-- Where the body of the scan stands with the next neighbour, with the values it has loaded. -/
inductive WccPc where
  /-- Before `label[src] < label[dst]`. -/
  | start
  | loaded (first : VId)
  /-- Before `old_label = label[dst]`. -/
  | loadOld
  /-- Before `label[src] < old_label`. -/
  | test (oldLabel : VId)
  /-- Before the last argument of the compare-and-swap. -/
  | arg (oldLabel : VId)
  | cas (oldLabel newLabel : VId)
  /-- The compare-and-swap failed, before the reload. -/
  | reload (oldLabel : VId)
  | setBit
  deriving DecidableEq

/-- One active vertex of the scan. -/
structure WccTask where
  src : VId
  rest : List VId
  pc : WccPc
  result : Nat

/-- The call for a neighbour returned 0. -/
def WccTask.advance (t : WccTask) (rest : List VId) : WccTask :=
  { t with rest := rest, pc := .start }

/-- One step of the lambda that `parallel_wcc` passes to `bw_edge_scan`. -/
def wccNext (srcFirst : Bool) (m : WccMem) (t : WccTask) : Option (WccMem × WccTask) :=
  match t.rest with
  | [] => none
  | dst :: rest =>
    match t.pc with
    | .start =>
      some (m, { t with pc := .loaded (if srcFirst then m.label t.src else m.label dst) })
    | .loaded first =>
      let srcLabel := if srcFirst then first else m.label t.src
      let dstLabel := if srcFirst then m.label dst else first
      if srcLabel < dstLabel then some (m, { t with pc := .loadOld }) else some (m, t.advance rest)
    | .loadOld => some (m, { t with pc := .test (m.label dst) })
    | .test oldLabel =>
      if m.label t.src < oldLabel then some (m, { t with pc := .arg oldLabel })
      else some (m, t.advance rest)
    | .arg oldLabel => some (m, { t with pc := .cas oldLabel (m.label t.src) })
    | .cas oldLabel newLabel =>
      if m.label dst = oldLabel then
        some ({ m with label := Function.update m.label dst newLabel }, { t with pc := .setBit })
      else some (m, { t with pc := .reload oldLabel })
    | .reload _ => some (m, { t with pc := .test (m.label dst) })
    | .setBit =>
      some ({ m with activeOut := Function.update m.activeOut dst true },
        { t.advance rest with result := t.result + 1 })

/-- The loop of `parallel_wcc`. -/
def parallelWcc (srcFirst : Bool) (n : Nat) (nbrs : VId → List VId) : ForkJoin WccMem WccTask where
  fork m :=
    if m.activeVertices = 0 then none
    else some ({ m with activeIn := m.activeOut, activeOut := fun _ => false },
      ((List.range n).filter m.activeOut).map fun v => ⟨v, nbrs v, .start, 0⟩)
  next := wccNext srcFirst
  join m ts := { m with activeVertices := (ts.map WccTask.result).sum % 2 ^ 32 }

/-- The arrays before the loop. -/
def parallelWccStart (n : Nat) : WccMem := ⟨id, fun _ => false, fun v => decide (v < n), n⟩

/-- What holds at the head of the loop. -/
structure WccHead (n : Nat) (nbrs : VId → List VId) (m : WccMem) : Prop where
  le : ∀ v, m.label v ≤ v
  conn : ∀ v, Walk.Conn (StoredEdge n nbrs) v (m.label v)
  stable : ∀ u v, StoredEdge n nbrs u v → m.label v ≤ m.label u ∨ m.activeOut u = true
  count : m.activeVertices = 0 → ∀ v, v < n → m.activeOut v = false

/-- What the values that a task has loaded say in a round forked from `m₁`. -/
def WccTask.Loaded (srcFirst : Bool) (m₁ m : WccMem) (t : WccTask) (dst : VId) : Prop :=
  match t.pc with
  | .start => True
  | .loaded x => if srcFirst then x ≤ m₁.label t.src else m.label dst ≤ x
  | .loadOld => True
  | .test old => m.label dst ≤ old
  | .arg old => m.label dst ≤ old ∧ m.label t.src < old
  | .cas old new => m.label dst ≤ old ∧ new < old ∧ new ≤ m₁.label t.src
  | .reload old => m.label dst < old
  | .setBit => m.label dst ≤ m₁.label t.src ∧ m.label dst < m₁.label dst

/-- What holds of one task of a round. -/
structure WccTask.Ok (srcFirst : Bool) (n : Nat) (nbrs : VId → List VId) (m₁ m : WccMem)
    (t : WccTask) : Prop where
  src : m₁.activeOut t.src = true ∧ t.src < n
  done : ∃ done, nbrs t.src = done ++ t.rest ∧ (∀ d ∈ done, m.label d ≤ m₁.label t.src) ∧
    t.result ≤ done.length
  loaded : ∀ dst rest, t.rest = dst :: rest → t.Loaded srcFirst m₁ m dst
  conn : ∀ old new, t.pc = .cas old new → Walk.Conn (StoredEdge n nbrs) t.src new

/-- What holds in a round that was forked from `m₁`. -/
structure WccRound (srcFirst : Bool) (n : Nat) (nbrs : VId → List VId) (m₁ m : WccMem)
    (ts : List WccTask) : Prop where
  running : m₁.activeVertices ≠ 0
  le : ∀ v, m.label v ≤ m₁.label v
  le_self : ∀ v, m.label v ≤ v
  conn : ∀ v, Walk.Conn (StoredEdge n nbrs) v (m.label v)
  changed : ∀ v, m.label v < m₁.label v → m.activeOut v = true ∨
    ∃ t ∈ ts, t.pc = .setBit ∧ t.rest.head? = some v
  bits : ∀ v, m.activeOut v = true → ∃ t ∈ ts, 0 < t.result
  results : ∀ t ∈ ts, 0 < t.result → ∃ v, v < n ∧ m.label v < m₁.label v
  tasks : ∀ t ∈ ts, t.Ok srcFirst n nbrs m₁ m
  keys : ts.map WccTask.src = (List.range n).filter m₁.activeOut

variable {t t' : WccTask}

/-- What a step of a task can do: look at the labels and go on with the same neighbour or the next,
lower the label of the neighbour, or set its bit. -/
theorem wccNext_cases {srcFirst : Bool} {m m' : WccMem} (h : wccNext srcFirst m t = some (m', t')) :
    ∃ dst rest, t.rest = dst :: rest ∧
      ((t.pc ≠ .setBit ∧ m' = m ∧ ((∃ pc, pc ≠ .setBit ∧ t' = { t with pc := pc }) ∨
          t' = t.advance rest)) ∨
        (∃ new, t.pc = .cas (m.label dst) new ∧
          m' = { m with label := update m.label dst new } ∧
          t' = { t with pc := .setBit }) ∨
        (t.pc = .setBit ∧ m' = { m with activeOut := update m.activeOut dst true } ∧
          t' = { t.advance rest with result := t.result + 1 })) := by
  obtain ⟨src, rest, pc, result⟩ := t
  cases rest with
  | nil => cases h
  | cons dst rest =>
    refine ⟨dst, rest, rfl, ?_⟩
    simp only [wccNext] at h
    cases pc with
    | start =>
      cases h
      exact .inl ⟨by simp, rfl, .inl ⟨_, by simp, rfl⟩⟩
    | loaded first =>
      dsimp only at h
      split_ifs at h
      all_goals cases h
      all_goals first
        | exact .inl ⟨by simp, rfl, .inl ⟨_, by simp, rfl⟩⟩
        | exact .inl ⟨by simp, rfl, .inr rfl⟩
    | loadOld =>
      cases h
      exact .inl ⟨by simp, rfl, .inl ⟨_, by simp, rfl⟩⟩
    | test old =>
      dsimp only at h
      split_ifs at h
      · cases h
        exact .inl ⟨by simp, rfl, .inl ⟨_, by simp, rfl⟩⟩
      · cases h
        exact .inl ⟨by simp, rfl, .inr rfl⟩
    | arg old =>
      cases h
      exact .inl ⟨by simp, rfl, .inl ⟨_, by simp, rfl⟩⟩
    | cas old new =>
      dsimp only at h
      split_ifs at h with heq
      · cases h
        exact .inr (.inl ⟨new, by rw [heq], rfl, rfl⟩)
      · cases h
        exact .inl ⟨by simp, rfl, .inl ⟨_, by simp, rfl⟩⟩
    | reload old =>
      cases h
      exact .inl ⟨by simp, rfl, .inl ⟨_, by simp, rfl⟩⟩
    | setBit =>
      cases h
      exact .inr (.inr ⟨rfl, rfl, rfl⟩)

variable {srcFirst : Bool}

theorem WccTask.Ok.mono {m₁ m m' : WccMem} {t : WccTask} (h : t.Ok srcFirst n nbrs m₁ m)
    (hm : ∀ v, m'.label v ≤ m.label v) : t.Ok srcFirst n nbrs m₁ m' := by
  obtain ⟨done, hdone, hall, hres⟩ := h.done
  refine ⟨h.src, ⟨done, hdone, fun d hd => (hm d).trans (hall d hd), hres⟩, fun dst rest hr => ?_,
    h.conn⟩
  have hl := h.loaded dst rest hr
  have hdst := hm dst
  have hsrc := hm t.src
  unfold WccTask.Loaded at hl ⊢
  cases hpc : t.pc with
  | start => trivial
  | loaded x =>
    rw [hpc] at hl
    cases srcFirst with
    | true => exact hl
    | false => exact hdst.trans hl
  | loadOld => trivial
  | test old =>
    rw [hpc] at hl
    exact hdst.trans hl
  | arg old =>
    rw [hpc] at hl
    exact ⟨hdst.trans hl.1, hsrc.trans_lt hl.2⟩
  | cas old new =>
    rw [hpc] at hl
    exact ⟨hdst.trans hl.1, hl.2⟩
  | reload old =>
    rw [hpc] at hl
    exact hdst.trans_lt hl
  | setBit =>
    rw [hpc] at hl
    exact ⟨hdst.trans hl.1, hdst.trans_lt hl.2⟩

variable {m₁ m : WccMem} {dst : VId} {ts : List WccTask}

/-- The call for the next neighbour is over, and the label of the neighbour is low enough. -/
theorem WccTask.Ok.advance (h : t.Ok srcFirst n nbrs m₁ m) (hr : t.rest = dst :: rest)
    (hle : m.label dst ≤ m₁.label t.src) (hsrc : t'.src = t.src) (hr' : t'.rest = rest)
    (hpc : t'.pc = .start) (hres : t'.result ≤ t.result + 1) : t'.Ok srcFirst n nbrs m₁ m := by
  obtain ⟨done, hdone, hall, hlen⟩ := h.done
  refine ⟨hsrc ▸ h.src, ⟨done ++ [dst], ?_, fun d hd => ?_, ?_⟩, fun d r _ => ?_,
    fun old new hc => ?_⟩
  · rw [hsrc, hdone, hr, hr', append_assoc]
    rfl
  · rw [hsrc]
    rcases mem_append.1 hd with hd | hd
    · exact hall d hd
    · rw [mem_singleton.1 hd]
      exact hle
  · rw [length_append, length_singleton]
    omega
  · unfold WccTask.Loaded
    rw [hpc]
    trivial
  · rw [hpc] at hc
    cases hc

/-- The task stays with the same neighbour. -/
theorem WccTask.Ok.stay {t : WccTask} (h : t.Ok srcFirst n nbrs m₁ m) (hr : t.rest = dst :: rest)
    {pc : WccPc} (hl : WccTask.Loaded srcFirst m₁ m { t with pc := pc } dst)
    (hc : ∀ old new, pc = .cas old new → Walk.Conn (StoredEdge n nbrs) t.src new) :
    WccTask.Ok srcFirst n nbrs m₁ m { t with pc := pc } := by
  refine ⟨h.src, h.done, fun d r hd => ?_, hc⟩
  have hd : t.rest = d :: r := hd
  rw [hr] at hd
  obtain ⟨rfl, rfl⟩ := List.cons.inj hd
  exact hl

/-- A step that only looks at the labels. -/
theorem WccTask.Ok.look (h : t.Ok srcFirst n nbrs m₁ m) (hle : ∀ v, m.label v ≤ m₁.label v)
    (hconn : ∀ v, Walk.Conn (StoredEdge n nbrs) v (m.label v)) (hpc : t.pc ≠ .setBit)
    (hpc' : t'.pc ≠ .setBit) (hnext : wccNext srcFirst m t = some (m, t')) :
    t'.Ok srcFirst n nbrs m₁ m := by
  have hsrcle := hle t.src
  have hsrcconn := hconn t.src
  obtain ⟨src, rest, pc, result⟩ := t
  cases rest with
  | nil => cases hnext
  | cons dst rest =>
    have hl := h.loaded dst rest rfl
    simp only [wccNext] at hnext
    cases pc with
    | start =>
      cases hnext
      refine h.stay rfl ?_ fun _ _ hc => nomatch hc
      cases srcFirst with
      | true => exact hsrcle
      | false => exact le_rfl
    | loaded first =>
      dsimp only [WccTask.Loaded] at hnext hl
      cases srcFirst with
      | true =>
        simp only [if_true] at hnext hl
        split_ifs at hnext with hlt
        · cases hnext
          exact h.stay rfl trivial fun _ _ hc => nomatch hc
        · cases hnext
          exact h.advance rfl ((Nat.not_lt.1 hlt).trans hl) rfl rfl rfl (le_succ _)
      | false =>
        simp only [Bool.false_eq_true, if_false] at hnext hl
        split_ifs at hnext with hlt
        · cases hnext
          exact h.stay rfl trivial fun _ _ hc => nomatch hc
        · cases hnext
          refine h.advance rfl ?_ rfl rfl rfl (le_succ _)
          exact hl.trans ((Nat.not_lt.1 hlt).trans hsrcle)
    | loadOld =>
      cases hnext
      exact h.stay rfl le_rfl fun _ _ hc => nomatch hc
    | test old =>
      dsimp only [WccTask.Loaded] at hnext hl
      split_ifs at hnext with hlt
      · cases hnext
        exact h.stay rfl ⟨hl, hlt⟩ fun _ _ hc => nomatch hc
      · cases hnext
        refine h.advance rfl ?_ rfl rfl rfl (le_succ _)
        exact hl.trans ((Nat.not_lt.1 hlt).trans hsrcle)
    | arg old =>
      cases hnext
      refine h.stay rfl ⟨hl.1, hl.2, hsrcle⟩ fun _ _ hc => ?_
      cases hc
      exact hsrcconn
    | cas old new =>
      dsimp only [WccTask.Loaded] at hnext hl
      split_ifs at hnext with heq
      · rw [← (Prod.mk.inj (Option.some.inj hnext)).2] at hpc'
        exact absurd rfl hpc'
      · cases hnext
        exact h.stay rfl (Nat.lt_of_le_of_ne hl.1 heq) fun _ _ hc => nomatch hc
    | reload old =>
      cases hnext
      exact h.stay rfl le_rfl fun _ _ hc => nomatch hc
    | setBit => exact absurd rfl hpc

variable {i : Nat}

section

variable (h : WccRound srcFirst n nbrs m₁ m ts)
include h

/-- A step that changes no memory. -/
theorem WccRound.setTask (ht : ts[i]? = some t) (hpc : t.pc ≠ .setBit)
    (hok : t'.Ok srcFirst n nbrs m₁ m) (hsrc : t'.src = t.src) (hres : t'.result = t.result) :
    WccRound srcFirst n nbrs m₁ m (ts.set i t') := by
  refine ⟨h.running, h.le, h.le_self, h.conn, fun v hv => ?_, fun v hv => ?_,
    forall_mem_set h.results fun hpos => ?_, forall_mem_set h.tasks hok,
    (map_set_eq ht hsrc).trans h.keys⟩
  · rcases h.changed v hv with hb | hex
    · exact .inl hb
    · rcases exists_mem_set t' ht hex with hex | hp
      · exact .inr hex
      · exact absurd hp.1 hpc
  · rcases exists_mem_set t' ht (h.bits v hv) with hex | hpos
    · exact hex
    · exact ⟨t', mem_set_self t' ht, hres ▸ hpos⟩
  · exact h.results t (mem_of_getElem? ht) (hres ▸ hpos)

/-- The compare-and-swap succeeds. -/
theorem WccRound.cas {t : WccTask} (ht : ts[i]? = some t) (hr : t.rest = dst :: rest) {new : VId}
    (hpc : t.pc = .cas (m.label dst) new) :
    WccRound srcFirst n nbrs m₁ { m with label := update m.label dst new }
      (ts.set i { t with pc := .setBit }) := by
  have hok := h.tasks t (mem_of_getElem? ht)
  obtain ⟨-, hlt, hsrc⟩ : m.label dst ≤ m.label dst ∧ new < m.label dst ∧ new ≤ m₁.label t.src := by
    have hl := hok.loaded dst rest hr
    rwa [WccTask.Loaded, hpc] at hl
  obtain ⟨done, hdone, hall, hlen⟩ := hok.done
  have hmem : dst ∈ nbrs t.src := by
    rw [hdone, hr]
    exact mem_append_right _ mem_cons_self
  have hself : update m.label dst new dst = new := update_self _ _ _
  have hmono : ∀ v, update m.label dst new v ≤ m.label v := by
    intro v
    by_cases hv : v = dst
    · rw [hv, hself]
      exact hlt.le
    · rw [update_of_ne hv]
  refine ⟨h.running, fun v => (hmono v).trans (h.le v), fun v => (hmono v).trans (h.le_self v),
    fun v => ?_, fun v hv => ?_, fun v hv => ?_, forall_mem_set (fun u hu hpos => ?_) ?_,
    forall_mem_set (fun u hu => (h.tasks u hu).mono hmono) ?_, ?_⟩
  · show Walk.Conn _ v (update m.label dst new v)
    by_cases hv : v = dst
    · rw [hv, hself]
      have hedge : Walk.Conn (StoredEdge n nbrs) t.src dst := .edge ⟨hok.src.2, hmem⟩
      exact hedge.symm.trans (hok.conn _ new hpc)
    · rw [update_of_ne hv]
      exact h.conn v
  · by_cases hvd : v = dst
    · subst hvd
      exact .inr ⟨_, mem_set_self _ ht, rfl, by rw [hr]; rfl⟩
    · have hv : update m.label dst new v < m₁.label v := hv
      rw [update_of_ne hvd] at hv
      rcases h.changed v hv with hb | hex
      · exact .inl hb
      · rcases exists_mem_set { t with pc := .setBit } ht hex with hex | hq
        · exact .inr hex
        · rw [hpc] at hq
          cases hq.1
  · rcases exists_mem_set { t with pc := .setBit } ht (h.bits v hv) with hex | hpos
    · exact hex
    · exact ⟨_, mem_set_self _ ht, hpos⟩
  · obtain ⟨v, hv, hlt'⟩ := h.results u hu hpos
    exact ⟨v, hv, (hmono v).trans_lt hlt'⟩
  · intro hpos
    obtain ⟨v, hv, hlt'⟩ := h.results t (mem_of_getElem? ht) hpos
    exact ⟨v, hv, (hmono v).trans_lt hlt'⟩
  · refine (hok.mono hmono).stay hr ?_ fun _ _ hc => nomatch hc
    refine ⟨?_, ?_⟩
    · show update m.label dst new dst ≤ _
      rw [hself]
      exact hsrc
    · show update m.label dst new dst < _
      rw [hself]
      exact hlt.trans_le (h.le dst)
  · refine (map_set_eq ht ?_).trans h.keys
    rfl

omit h in
/-- The bit of the neighbour is set. -/
theorem WccRound.setBit (hlt : ∀ v, v < n → ∀ d ∈ nbrs v, d < n)
    (h : WccRound srcFirst n nbrs m₁ m ts) {t : WccTask} (ht : ts[i]? = some t)
    (hr : t.rest = dst :: rest) (hpc : t.pc = .setBit) :
    WccRound srcFirst n nbrs m₁ { m with activeOut := update m.activeOut dst true }
      (ts.set i { t.advance rest with result := t.result + 1 }) := by
  have hok := h.tasks t (mem_of_getElem? ht)
  obtain ⟨hsrc, hdst⟩ : m.label dst ≤ m₁.label t.src ∧ m.label dst < m₁.label dst := by
    have hl := hok.loaded dst rest hr
    rwa [WccTask.Loaded, hpc] at hl
  obtain ⟨done, hdone, -, -⟩ := hok.done
  have hdstn : dst < n := by
    refine hlt t.src hok.src.2 dst ?_
    rw [hdone, hr]
    exact mem_append_right _ mem_cons_self
  have hnew : { t.advance rest with result := t.result + 1 } ∈
      ts.set i { t.advance rest with result := t.result + 1 } := mem_set_self _ ht
  refine ⟨h.running, h.le, h.le_self, h.conn, fun v hv => ?_, fun v _ => ?_,
    forall_mem_set h.results fun _ => ⟨dst, hdstn, hdst⟩,
    forall_mem_set (fun u hu => (h.tasks u hu).mono fun _ => le_rfl) ?_, ?_⟩
  · show update m.activeOut dst true v = true ∨ _
    by_cases hvd : v = dst
    · subst hvd
      exact .inl (update_self _ _ _)
    · rw [update_of_ne hvd]
      rcases h.changed v hv with hb | hex
      · exact .inl hb
      · rcases exists_mem_set { t.advance rest with result := t.result + 1 } ht hex
          with hex | hq
        · exact .inr hex
        · rw [hr] at hq
          exact absurd (Option.some.inj hq.2).symm hvd
  · exact ⟨_, hnew, succ_pos _⟩
  · have hok' : t.Ok srcFirst n nbrs m₁
        { m with activeOut := update m.activeOut dst true } := hok.mono fun _ => le_rfl
    refine hok'.advance hr hsrc ?_ ?_ ?_ ?_
    all_goals rfl
  · refine (map_set_eq ht ?_).trans h.keys
    rfl

omit h in
theorem WccRound.next (hlt : ∀ v, v < n → ∀ d ∈ nbrs v, d < n) {m₁ m m' : WccMem}
    (h : WccRound srcFirst n nbrs m₁ m ts) (ht : ts[i]? = some t)
    (hnext : wccNext srcFirst m t = some (m', t')) :
    WccRound srcFirst n nbrs m₁ m' (ts.set i t') := by
  have hok := h.tasks t (mem_of_getElem? ht)
  obtain ⟨dst, rest, hr, ⟨hpc, rfl, ⟨pc, hpc', rfl⟩ | rfl⟩ | ⟨new, hpc, rfl, rfl⟩ |
    ⟨hpc, rfl, rfl⟩⟩ := wccNext_cases hnext
  · exact h.setTask ht hpc (hok.look h.le h.conn hpc hpc' hnext) rfl rfl
  · exact h.setTask ht hpc (hok.look h.le h.conn hpc (by simp [WccTask.advance]) hnext) rfl rfl
  · exact h.cas ht hr hpc
  · exact h.setBit hlt ht hr hpc

omit h in
/-- A task is finished when it has no neighbours left. -/
theorem wccNext_eq_none {m : WccMem} {t : WccTask} (h : wccNext srcFirst m t = none) :
    t.rest = [] := by
  obtain ⟨src, rest, pc, result⟩ := t
  cases rest with
  | nil => rfl
  | cons dst rest =>
    simp only [wccNext] at h
    cases pc with
    | loaded first =>
      dsimp only at h
      split_ifs at h
    | test old =>
      dsimp only at h
      split_ifs at h
    | cas old new =>
      dsimp only at h
      split_ifs at h
    | _ => cases h

/-- The results of a finished round sum up to at most the number of edges. -/
theorem WccRound.sum_result_le :
    (ts.map WccTask.result).sum ≤ ((range n).map fun v => (nbrs v).length).sum := by
  have hle : (ts.map WccTask.result).sum ≤ (ts.map fun t => (nbrs t.src).length).sum := by
    refine sum_le_sum fun t ht => ?_
    obtain ⟨done, hdone, -, hlen⟩ := (h.tasks t ht).done
    rw [hdone, length_append]
    omega
  have hmap : (ts.map fun t => (nbrs t.src).length) =
      ((range n).filter m₁.activeOut).map fun v => (nbrs v).length := by
    rw [← h.keys, map_map]
    rfl
  rw [hmap] at hle
  exact hle.trans ((filter_sublist.map _).sum_le_sum fun _ _ => Nat.zero_le _)

end

theorem WccRound.join (hedges : ((range n).map fun v => (nbrs v).length).sum < 2 ^ 32)
    (h : WccRound srcFirst n nbrs m₁ m ts) (hm : WccHead n nbrs m₁)
    (hfin : ∀ t ∈ ts, wccNext srcFirst m t = none) :
    WccHead n nbrs { m with activeVertices := (ts.map WccTask.result).sum % 2 ^ 32 } := by
  have hactive : ∀ v, m.label v < m₁.label v → m.activeOut v = true := by
    intro v hv
    rcases h.changed v hv with hb | ⟨t, ht, -, hhead⟩
    · exact hb
    · rw [wccNext_eq_none (hfin t ht)] at hhead
      cases hhead
  refine ⟨h.le_self, h.conn, fun u v huv => ?_, fun hzero v _ => ?_⟩
  · by_cases hu : m.label u < m₁.label u
    · exact .inr (hactive u hu)
    · -- the label of `u` is the one that its task has passed on
      have hu : m.label u = m₁.label u := le_antisymm (h.le u) (Nat.not_lt.1 hu)
      refine .inl ?_
      show m.label v ≤ m.label u
      rw [hu]
      rcases hm.stable u v huv with hle | hact
      · exact (h.le v).trans hle
      · have hkey : u ∈ ts.map WccTask.src := by
          rw [h.keys]
          exact mem_filter.2 ⟨mem_range.2 huv.1, hact⟩
        obtain ⟨t, ht, rfl⟩ := mem_map.1 hkey
        obtain ⟨done, hdone, hall, -⟩ := (h.tasks t ht).done
        rw [wccNext_eq_none (hfin t ht), append_nil] at hdone
        exact hall v (hdone ▸ huv.2)
  · rw [Bool.eq_false_iff]
    intro hv
    obtain ⟨t, ht, hpos⟩ := h.bits v hv
    have hle := single_le_sum (fun _ _ => Nat.zero_le _) _
      (mem_map_of_mem (f := WccTask.result) ht)
    have hzero : (ts.map WccTask.result).sum % 2 ^ 32 = 0 := hzero
    rw [mod_eq_of_lt (h.sum_result_le.trans_lt hedges)] at hzero
    omega

/-! ## Termination -/

/-- A measure of the steps that a task has left. -/
def WccTask.rank (n : Nat) (t : WccTask) : Nat :=
  (4 * n + 9) * t.rest.length + match t.pc with
    | .start => 4 * n + 8
    | .loaded _ => 4 * n + 7
    | .loadOld => 4 * n + 6
    | .test old => 4 * old + 3
    | .arg old => 4 * old + 2
    | .cas old _ => 4 * old + 1
    | .reload old => 4 * old
    | .setBit => 0

theorem WccTask.rank_advance_lt (n : Nat) (hr : t.rest = dst :: rest) (hr' : t'.rest = rest)
    (hpc : t'.pc = .start) : t'.rank n < t.rank n := by
  unfold WccTask.rank
  rw [hr, hr', hpc, length_cons, mul_succ]
  dsimp only
  omega

/-- Each failed compare-and-swap has seen a lower label of the neighbour. -/
theorem WccTask.Ok.rank_lt (hlt : ∀ v, v < n → ∀ d ∈ nbrs v, d < n) {m₁ m m' : WccMem}
    (h : t.Ok srcFirst n nbrs m₁ m) (hle : ∀ v, m.label v ≤ v)
    (hnext : wccNext srcFirst m t = some (m', t')) : t'.rank n < t.rank n := by
  obtain ⟨src, rest, pc, result⟩ := t
  cases rest with
  | nil => cases hnext
  | cons dst rest =>
    have hl := h.loaded dst rest rfl
    have hbelow : ∀ a b : Nat, a < b → 4 * a + 3 < 4 * b + 6 := by omega
    have hbelow' : ∀ a b : Nat, a < b → 4 * a + 3 < 4 * b := by omega
    have hdst : m.label dst < n := by
      obtain ⟨done, hdone, -⟩ := h.done
      refine (hle dst).trans_lt (hlt src h.src.2 dst ?_)
      have hdone : nbrs src = done ++ dst :: rest := hdone
      rw [hdone]
      exact mem_append_right _ mem_cons_self
    simp only [wccNext] at hnext
    cases pc with
    | start =>
      cases hnext
      simp [WccTask.rank]
    | loaded first =>
      dsimp only at hnext
      split_ifs at hnext
      all_goals cases hnext
      all_goals first
        | exact WccTask.rank_advance_lt n rfl rfl rfl
        | simp [WccTask.rank]
    | loadOld =>
      cases hnext
      refine Nat.add_lt_add_left ?_ _
      exact hbelow _ n hdst
    | test old =>
      dsimp only at hnext
      split_ifs at hnext
      · cases hnext
        simp [WccTask.rank]
      · cases hnext
        exact WccTask.rank_advance_lt n rfl rfl rfl
    | arg old =>
      cases hnext
      simp [WccTask.rank]
    | cas old new =>
      dsimp only at hnext
      split_ifs at hnext
      all_goals
        cases hnext
        simp [WccTask.rank]
    | reload old =>
      cases hnext
      refine Nat.add_lt_add_left ?_ _
      exact hbelow' _ old hl
    | setBit =>
      cases hnext
      exact WccTask.rank_advance_lt n rfl rfl rfl

/-- The sum of the labels, and one more while the propagation goes on. -/
def WccMem.size (n : Nat) (m : WccMem) : Nat :=
  (∑ v ∈ Finset.range n, m.label v) + if m.activeVertices = 0 then 0 else 1

theorem WccRound.size_lt (h : WccRound srcFirst n nbrs m₁ m ts) :
    WccMem.size n { m with activeVertices := (ts.map WccTask.result).sum % 2 ^ 32 } <
      m₁.size n := by
  have hle : ∑ v ∈ Finset.range n, m.label v ≤ ∑ v ∈ Finset.range n, m₁.label v :=
    Finset.sum_le_sum fun v _ => h.le v
  unfold WccMem.size
  rw [if_neg h.running]
  dsimp only
  by_cases hzero : (ts.map WccTask.result).sum = 0
  · rw [hzero, if_pos (zero_mod _)]
    exact lt_succ_of_le hle
  · obtain ⟨t, ht, hpos⟩ : ∃ t ∈ ts, 0 < t.result := by
      by_contra hnone
      push Not at hnone
      refine hzero (sum_eq_zero fun x hx => ?_)
      obtain ⟨t, ht, rfl⟩ := mem_map.1 hx
      exact Nat.le_zero.1 (hnone t ht)
    obtain ⟨v, hv, hvlt⟩ := h.results t ht hpos
    have hlt : ∑ v ∈ Finset.range n, m.label v < ∑ v ∈ Finset.range n, m₁.label v :=
      Finset.sum_lt_sum (fun v _ => h.le v) ⟨v, Finset.mem_range.2 hv, hvlt⟩
    refine Nat.add_lt_add_of_lt_of_le hlt ?_
    split_ifs <;> omega

theorem WccRound.fork (hm : WccHead n nbrs m₁)
    (hf : (parallelWcc srcFirst n nbrs).fork m₁ = some (m, ts)) :
    WccRound srcFirst n nbrs m₁ m ts := by
  simp only [parallelWcc] at hf
  split_ifs at hf with hzero
  cases hf
  refine ⟨hzero, fun _ => le_rfl, hm.le, hm.conn, fun v hv => ?_, fun v hv => ?_,
    fun t ht hpos => ?_, fun t ht => ?_, ?_⟩
  · exact absurd hv (lt_irrefl _)
  · cases hv
  · obtain ⟨v, -, rfl⟩ := mem_map.1 ht
    cases hpos
  · obtain ⟨v, hv, rfl⟩ := mem_map.1 ht
    obtain ⟨hv1, hv2⟩ := mem_filter.1 hv
    refine ⟨⟨hv2, mem_range.1 hv1⟩, ⟨[], rfl, fun d hd => ?_, le_rfl⟩, fun _ _ _ => trivial,
      fun _ _ hc => nomatch hc⟩
    cases hd
  · rw [map_map]
    exact map_id _

theorem parallelWcc_variant (srcFirst : Bool) (hlt : ∀ v, v < n → ∀ d ∈ nbrs v, d < n)
    (hedges : ((range n).map fun v => (nbrs v).length).sum < 2 ^ 32) :
    (parallelWcc srcFirst n nbrs).Variant (WccHead n nbrs) (WccRound srcFirst n nbrs)
      (WccTask.rank n) (WccMem.size n) := by
  refine ⟨⟨fun m₁ m ts hm hf => .fork hm hf,
    fun m₁ m ts i t m' t' h ht hnext => h.next hlt ht hnext,
    fun m₁ m ts hm h hfin => h.join hedges hm hfin⟩, fun m₁ m ts t m' t' h ht hnext => ?_,
    fun m₁ m ts _ h _ => h.size_lt⟩
  exact (h.tasks t ht).rank_lt hlt h.le_self hnext

theorem WccHead.init (n : Nat) (nbrs : VId → List VId) : WccHead n nbrs (parallelWccStart n) := by
  refine ⟨fun _ => le_rfl, fun v => .refl v, fun u v huv => .inr ?_, fun hzero v hv => ?_⟩
  · exact decide_eq_true huv.1
  · rw [show n = 0 from hzero] at hv
    exact absurd hv (Nat.not_lt_zero v)

/-- In a symmetric graph without active vertices every label is the least of its component. -/
theorem WccHead.leastOf (hsym : ∀ u v, StoredEdge n nbrs u v → StoredEdge n nbrs v u) {m : WccMem}
    (h : WccHead n nbrs m) (hzero : m.activeVertices = 0) (v : VId) :
    Walk.LeastOf (StoredEdge n nbrs) v (m.label v) := by
  have hle : ∀ u v, StoredEdge n nbrs u v → m.label v ≤ m.label u := by
    intro u v huv
    rcases h.stable u v huv with hle | hact
    · exact hle
    · rw [h.count hzero u huv.1] at hact
      cases hact
  exact Walk.leastOf_of_fixed (fun u v huv => le_antisymm (hle v u (hsym u v huv)) (hle u v huv))
    h.conn h.le v

/-- Every run of `parallel_wcc` on a symmetric graph ends with the least labels. -/
theorem parallelWcc_spec (srcFirst : Bool) (hlt : ∀ v, v < n → ∀ d ∈ nbrs v, d < n)
    (hsym : ∀ u v, StoredEdge n nbrs u v → StoredEdge n nbrs v u)
    (hedges : ((range n).map fun v => (nbrs v).length).sum < 2 ^ 32) :
    (parallelWcc srcFirst n nbrs).Terminates (.head (parallelWccStart n)) ∧
      ∀ es st, runAll (parallelWcc srcFirst n nbrs).step (.head (parallelWccStart n)) es = some st →
        (parallelWcc srcFirst n nbrs).Stuck st →
        ∃ m, st = .head m ∧ ∀ v, Walk.LeastOf (StoredEdge n nbrs) v (m.label v) := by
  have hvar := parallelWcc_variant srcFirst hlt hedges
  refine ⟨hvar.terminates (WccHead.init n nbrs), fun es st run hstuck => ?_⟩
  obtain ⟨m, rfl, hm, hfork⟩ := (hvar.inv.of_run (s := .head _) (WccHead.init n nbrs) run).2 hstuck
  have hzero : m.activeVertices = 0 := by
    by_contra hne
    simp [parallelWcc, hne] at hfork
  exact ⟨m, rfl, hm.leastOf hsym hzero⟩

/-! ## Databases that were just built -/

/-- Every edge is stored in both directions. -/
def MemGraph.Symmetric (g : MemGraph) : Prop := ∀ u v, g.Edge u v → g.Edge v u

/-- On a symmetric database that was just built and holds fewer than `2 ^ 32` edges, every run of
`parallel_wcc` ends, every vertex is labelled with the least vertex of its component, and equal
labels are equal component ids of `wcc`. -/
theorem parallelWcc_wcc {cfg : Config} {g : MemGraph} {db : Db} (hps : 0 < cfg.pageSize)
    (hds : 0 < cfg.deltaPageSize) (hn : g.vertexCount ≤ cfg.idLimit)
    (hv : g.vertexCount < 2 ^ 32) (hb : Built cfg g db) (hsym : g.Symmetric)
    (hedges : ((List.range g.vertexCount).map fun v => (db.base cfg v).length).sum < 2 ^ 32)
    (srcFirst : Bool) :
    (parallelWcc srcFirst db.getVertexCount (db.base cfg)).Terminates
      (.head (parallelWccStart db.getVertexCount)) ∧
    ∃ ids, wcc db.getVertexCount (db.base cfg) (db.getVertexCount + 1) = some ids ∧
      ∀ es st, runAll (parallelWcc srcFirst db.getVertexCount (db.base cfg)).step
          (.head (parallelWccStart db.getVertexCount)) es = some st →
        (parallelWcc srcFirst db.getVertexCount (db.base cfg)).Stuck st →
        ∃ m, st = .head m ∧ (∀ v, v < g.vertexCount → Walk.LeastOf g.Edge v (m.label v)) ∧
          ∀ u v, u < g.vertexCount → v < g.vertexCount →
            (m.label u = m.label v ↔ ids u = ids v) := by
  have hst := hb.stores hps hds hn hv
  have hsym' : ∀ u v, StoredEdge g.vertexCount (db.base cfg) u v →
      StoredEdge g.vertexCount (db.base cfg) v u := by
    rw [hst.edge]
    exact hsym
  rw [hst.count, ← hst.edge]
  obtain ⟨hterm, hfinal⟩ := parallelWcc_spec srcFirst hst.lt hsym' hedges
  obtain ⟨ids, hids, -, hsame⟩ := wcc_spec hst.lt hsym' (Nat.lt_succ_self g.vertexCount)
  refine ⟨hterm, ids, hids, fun es st run hstuck => ?_⟩
  obtain ⟨m, rfl, hleast⟩ := hfinal es st run hstuck
  refine ⟨m, rfl, fun v _ => hleast v, fun u v hu hv => ?_⟩
  rw [hsame u v hu hv]
  exact (hleast u).eq_iff (hleast v)

/-- The path 1, 2, 4, 3, 0. -/
def pathGraph : MemGraph := MemGraph.ofLists [[3], [2], [1, 4], [0, 4], [2, 3]] (by decide)

/-- Pages with room for one vertex. -/
def pathConfig : Config := ⟨40, 120, 0, 50, 1, 0, false⟩

/-- The path, loaded by `build_seq_db`. -/
def pathDb : Db :=
  (buildSeqDb pathConfig ⟨.listed, 0, 0⟩ 1 pathGraph).toOption.getD
    (loadedDb pathConfig ⟨.listed, 0, 0⟩ pathGraph [] VItem.init [])

theorem pathDb_built : Built pathConfig pathGraph pathDb :=
  .inr (.seq rfl ⟨.listed, 0, 0⟩ Nat.one_pos (by decide +kernel) _)

theorem pathGraph_symmetric : pathGraph.Symmetric := by
  have hall : ∀ u < 5, ∀ v ∈ pathGraph.neighbors u, v < 5 ∧ u ∈ pathGraph.neighbors v := by
    decide
  exact fun u v huv => hall u huv.1 v huv.2

/-- The labels of the path. -/
theorem parallelWcc_wcc_pathDb :
    (parallelWcc true pathDb.getVertexCount (pathDb.base pathConfig)).Terminates
      (.head (parallelWccStart pathDb.getVertexCount)) ∧
    ∃ ids, wcc pathDb.getVertexCount (pathDb.base pathConfig) (pathDb.getVertexCount + 1) =
      some ids := by
  obtain ⟨hterm, ids, hids, -⟩ := parallelWcc_wcc (by decide) (by decide) (by decide) (by decide)
    pathDb_built pathGraph_symmetric (by decide +kernel) true
  exact ⟨hterm, ids, hids⟩

end BwGraph
