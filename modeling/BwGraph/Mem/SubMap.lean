import Mathlib.Algebra.BigOperators.Group.List.Basic
import BwGraph.Common.Type
import BwGraph.Lib.Run

/-
  `mem_sub_map_t` (`mem_g0map.cc`): a hash map from the vertices to their neighbour lists, with a
  cached number of edges. The lists may repeat a neighbour: the constructor takes any map, and
  `graph_sample_walk` records a walked edge each time it is walked.

  The cache is always right. The removals delete one occurrence in each list, so a neighbour that
  was there twice is still there afterwards: `remove_edge` and `remove_vertex` do what they are for
  exactly when no list holds more occurrences than they delete (`subMap_runs`).
-/

namespace BwGraph

open List Option AList AdjMap

/-- `mem_sub_map_t`. -/
structure SubMap where
  adjacencyMap : AdjMap
  totalEdges : Nat
  edgeCountValid : Bool

/-- All lists changed by a function of the vertex. -/
def AdjMap.changeLists (f : VId → List VId → List VId) (m : AdjMap) : AdjMap where
  entries := m.entries.map fun e => ⟨e.1, f e.1 e.2⟩
  nodupKeys := by
    have hkeys : (m.entries.map fun e => (⟨e.1, f e.1 e.2⟩ : Sigma fun _ : VId => List VId)).keys =
        m.entries.keys := by
      unfold List.keys
      rw [List.map_map]
      rfl
    unfold List.NodupKeys
    rw [hkeys]
    exact m.nodupKeys

/-- The lengths of all lists. -/
def AdjMap.edges (m : AdjMap) : Nat := (m.entries.map fun e => e.2.length).sum

namespace SubMap

/-- `mem_sub_map_t()`. -/
def new : SubMap := ⟨∅, 0, true⟩

/-- `update_edge_count`. -/
def updateEdgeCount (m : SubMap) : SubMap :=
  { m with totalEdges := m.adjacencyMap.edges, edgeCountValid := true }

/-- `mem_sub_map_t(adj_map)`. -/
def ofMap (adjMap : AdjMap) : SubMap := updateEdgeCount ⟨adjMap, 0, false⟩

/-- The loop of `from_csr_page` over what it reads from the page. -/
def fromEntries (entries : List (VId × List VId)) : SubMap where
  adjacencyMap := entries.foldl (fun m e => m.insert e.1 e.2) ∅
  totalEdges := (entries.map fun e => e.2.length).sum
  edgeCountValid := true

/-- `edge_count`, with the cache it leaves. -/
def edgeCount (m : SubMap) : SubMap × Nat :=
  if m.edgeCountValid then (m, m.totalEdges)
  else (m.updateEdgeCount, m.updateEdgeCount.totalEdges)

/-- `has_vertex`. -/
def hasVertex (m : SubMap) (v : VId) : Bool := (m.adjacencyMap.lookup v).isSome

/-- `has_edge`. -/
def hasEdge (m : SubMap) (src dst : VId) : Bool :=
  match m.adjacencyMap.lookup src with
  | none => false
  | some neighbors => neighbors.contains dst

/-- `get_neighbors`. -/
def getNeighbors (m : SubMap) (v : VId) : List VId := m.adjacencyMap.get v

/-- `add_vertex`. -/
def addVertex (m : SubMap) (v : VId) : SubMap × Bool :=
  if m.hasVertex v then (m, false)
  else ({ m with adjacencyMap := m.adjacencyMap.insert v [] }, true)

/-- `add_edge`. -/
def addEdge (m : SubMap) (src dst : VId) : SubMap × Bool :=
  let m := (m.addVertex src).1
  let m := (m.addVertex dst).1
  let neighbors := m.adjacencyMap.get src
  if neighbors.contains dst then (m, false)
  else
    ({ m with
        adjacencyMap := m.adjacencyMap.insert src (neighbors ++ [dst])
        edgeCountValid := false }, true)

/-- `remove_neighbor`: the first occurrence goes. -/
def removeNeighbor (neighbors : List VId) (target : VId) : List VId × Bool :=
  if neighbors.contains target then (neighbors.erase target, true) else (neighbors, false)

/-- `remove_vertex`. -/
def removeVertex (m : SubMap) (v : VId) : SubMap × Bool :=
  if m.hasVertex v then
    ({ m with
        adjacencyMap := (m.adjacencyMap.changeLists fun u neighbors =>
          if u ≠ v then (removeNeighbor neighbors v).1 else neighbors).erase v
        edgeCountValid := false }, true)
  else (m, false)

/-- `remove_edge`. -/
def removeEdge (m : SubMap) (src dst : VId) : SubMap × Bool :=
  match m.adjacencyMap.lookup src with
  | none => (m, false)
  | some neighbors =>
    if (removeNeighbor neighbors dst).2 then
      ({ m with
          adjacencyMap := m.adjacencyMap.insert src (removeNeighbor neighbors dst).1
          edgeCountValid := false }, true)
    else (m, false)

/-- `clear`. -/
def clear (_ : SubMap) : SubMap := ⟨∅, 0, true⟩

/-- The calls that change a map or its cache. -/
inductive Op
  | addVertex (v : VId)
  | addEdge (src dst : VId)
  | removeVertex (v : VId)
  | removeEdge (src dst : VId)
  | edgeCount
  | clear

/-- The map after a call. -/
def after (m : SubMap) : Op → SubMap
  | .addVertex v => (m.addVertex v).1
  | .addEdge src dst => (m.addEdge src dst).1
  | .removeVertex v => (m.removeVertex v).1
  | .removeEdge src dst => (m.removeEdge src dst).1
  | .edgeCount => m.edgeCount.1
  | .clear => m.clear

def step (m : SubMap) (op : Op) (m' : SubMap) : Prop := m' = m.after op

/-- A new map: empty, from a map, or from the entries of a page. -/
inductive Built : SubMap → Prop
  | new : Built new
  | ofMap (adjMap : AdjMap) : Built (ofMap adjMap)
  | fromEntries (entries : List (VId × List VId)) (h : (entries.map Prod.fst).Nodup) :
      Built (fromEntries entries)

/-! ## The number of edges -/

/-- A valid cache holds the number of edges. -/
def CacheRight (m : SubMap) : Prop :=
  m.edgeCountValid = true → m.totalEdges = m.adjacencyMap.edges

variable {m : SubMap}

theorem CacheRight.edgeCount (h : m.CacheRight) : m.edgeCount.2 = m.adjacencyMap.edges := by
  unfold SubMap.edgeCount
  split_ifs with hv
  · exact h hv
  · rfl

theorem edges_insert_new {m : AdjMap} {v : VId} (hv : v ∉ m) (l : List VId) :
    edges (m.insert v l) = l.length + m.edges := by
  unfold edges
  rw [entries_insert_of_notMem hv, map_cons, sum_cons]

theorem edges_foldl_insert (entries : List (VId × List VId)) (m : AdjMap)
    (hnd : (entries.map Prod.fst).Nodup) (hnew : ∀ e ∈ entries, e.1 ∉ m) :
    edges (entries.foldl (fun m e => m.insert e.1 e.2) m) =
      m.edges + (entries.map fun e => e.2.length).sum := by
  induction entries generalizing m with
  | nil => rfl
  | cons e entries ih =>
    rw [map_cons, nodup_cons] at hnd
    rw [foldl_cons, ih _ hnd.2, edges_insert_new (hnew e mem_cons_self), map_cons,
      sum_cons]
    · omega
    · intro e' he' hmem
      rcases (mem_insert _).1 hmem with he | hmem
      · exact hnd.1 (mem_map.2 ⟨e', he', he⟩)
      · exact hnew e' (mem_cons_of_mem _ he') hmem

theorem Built.cacheRight (h : Built m) : m.CacheRight := by
  rcases h with _ | adjMap | ⟨entries, hnd⟩
  · exact fun _ => rfl
  · exact fun _ => rfl
  · intro _
    show _ = edges (entries.foldl (fun m e => m.insert e.1 e.2) ∅)
    rw [edges_foldl_insert entries ∅ hnd fun e _ => notMem_empty e.1]
    exact (Nat.zero_add _).symm

theorem CacheRight.addVertex (h : m.CacheRight) (v : VId) : (m.addVertex v).1.CacheRight := by
  unfold SubMap.addVertex
  split_ifs with hv
  · exact h
  · intro hvalid
    have hnew : v ∉ m.adjacencyMap := fun hmem => hv (lookup_isSome.2 hmem)
    refine (h hvalid).trans ?_
    exact ((edges_insert_new hnew []).trans (Nat.zero_add _)).symm

/-- Every call keeps the cache right. -/
theorem CacheRight.after (h : m.CacheRight) (op : Op) : (m.after op).CacheRight := by
  rcases op with v | ⟨src, dst⟩ | v | ⟨src, dst⟩ | _ | _
  · exact h.addVertex v
  · unfold SubMap.after SubMap.addEdge
    dsimp only
    split_ifs
    · exact (h.addVertex src).addVertex dst
    · exact fun hvalid => nomatch hvalid
  · unfold SubMap.after SubMap.removeVertex
    dsimp only
    split_ifs
    · exact fun hvalid => nomatch hvalid
    · exact h
  · show (m.removeEdge src dst).1.CacheRight
    unfold SubMap.removeEdge
    rcases m.adjacencyMap.lookup src with _ | neighbors
    · exact h
    · dsimp only
      split_ifs
      · exact fun hvalid => nomatch hvalid
      · exact h
  · unfold SubMap.after SubMap.edgeCount
    split_ifs
    · exact h
    · exact fun _ => rfl
  · exact fun _ => rfl

/-! ## The removals -/

theorem mem_erase_iff_two_le {l : List VId} {v : VId} : v ∈ l.erase v ↔ 2 ≤ l.count v := by
  rw [← count_pos_iff, count_erase_self]
  omega

theorem removeNeighbor_fst (l : List VId) (v : VId) : (removeNeighbor l v).1 = l.erase v := by
  unfold removeNeighbor
  split_ifs with h
  · rfl
  · exact (erase_of_not_mem fun hmem => h (contains_iff_mem.2 hmem)).symm

theorem lookup_changeLists (f : VId → List VId → List VId) (m : AdjMap) (u : VId) :
    (m.changeLists f).lookup u = (m.lookup u).map (f u) :=
  dlookup_map₂ (f := f) u

theorem removeEdge_iff (m : SubMap) (src dst : VId) :
    ((m.removeEdge src dst).2 = true → (m.removeEdge src dst).1.hasEdge src dst = false) ↔
      ∀ l, m.adjacencyMap.lookup src = some l → l.count dst ≤ 1 := by
  unfold removeEdge
  rcases hl : m.adjacencyMap.lookup src with _ | l
  · exact iff_of_true (fun h => nomatch h) fun l h => nomatch h
  dsimp only
  by_cases hmem : dst ∈ l
  · have hfound : (removeNeighbor l dst).2 = true := by
      unfold removeNeighbor
      rw [if_pos (contains_iff_mem.2 hmem)]
    rw [if_pos hfound, removeNeighbor_fst]
    have hafter : hasEdge { m with
        adjacencyMap := m.adjacencyMap.insert src (l.erase dst)
        edgeCountValid := false } src dst = (l.erase dst).contains dst := by
      unfold hasEdge
      rw [lookup_insert]
    rw [hafter, Bool.eq_false_iff, ne_eq, contains_iff_mem, mem_erase_iff_two_le]
    constructor
    · intro h l' hl'
      obtain rfl := some.inj hl'
      have hlt := h rfl
      omega
    · intro h _
      have hle := h l rfl
      omega
  · have hmiss : (removeNeighbor l dst).2 = false := by
      unfold removeNeighbor
      rw [if_neg fun h => hmem (contains_iff_mem.1 h)]
    rw [hmiss]
    refine iff_of_true (fun h => nomatch h) fun l' hl' => ?_
    obtain rfl := some.inj hl'
    rw [count_eq_zero_of_not_mem hmem]
    omega

theorem removeVertex_iff (m : SubMap) (v : VId) :
    (∀ u l, (m.removeVertex v).1.adjacencyMap.lookup u = some l → v ∉ l) ↔
      ∀ u l, u ≠ v → m.adjacencyMap.lookup u = some l →
        l.count v ≤ if m.hasVertex v then 1 else 0 := by
  unfold removeVertex
  split_ifs with hv
  · have hget : ∀ u, u ≠ v → ((m.adjacencyMap.changeLists fun u neighbors =>
        if u ≠ v then (removeNeighbor neighbors v).1 else neighbors).erase v).lookup u =
          (m.adjacencyMap.lookup u).map fun l => l.erase v := by
      intro u hu
      rw [lookup_erase_ne hu, lookup_changeLists]
      simp only [if_pos hu, removeNeighbor_fst]
    constructor
    · intro h u l hu hl
      have hnot := h u (l.erase v) ((hget u hu).trans (by rw [hl]; rfl))
      rw [mem_erase_iff_two_le] at hnot
      omega
    · intro h u l hl
      by_cases hu : u = v
      · subst hu
        exact nomatch (lookup_erase u _).symm.trans hl
      · obtain ⟨l', hl', rfl⟩ := map_eq_some_iff.1 ((hget u hu).symm.trans hl)
        have hle := h u l' hu hl'
        rw [mem_erase_iff_two_le]
        omega
  · constructor
    · intro h u l _ hl
      rw [count_eq_zero_of_not_mem (h u l hl)]
    · intro h u l hl hmem
      by_cases hu : u = v
      · subst hu
        refine hv ?_
        unfold hasVertex
        rw [hl]
        rfl
      · have hle := h u l hu hl
        have hpos := count_pos_iff.2 hmem
        omega

/-- What a call is for, besides the number of edges. -/
def Done (m : SubMap) (op : Op) (m' : SubMap) : Prop :=
  match op with
  | .removeVertex v => ∀ u l, m'.adjacencyMap.lookup u = some l → v ∉ l
  | .removeEdge src dst => (m.removeEdge src dst).2 = true → m'.hasEdge src dst = false
  | _ => True

/-- No list has more occurrences than the call deletes. -/
def Single (m : SubMap) (op : Op) : Prop :=
  match op with
  | .removeVertex v => ∀ u l, u ≠ v → m.adjacencyMap.lookup u = some l →
      l.count v ≤ if m.hasVertex v then 1 else 0
  | .removeEdge src dst => ∀ l, m.adjacencyMap.lookup src = some l → l.count dst ≤ 1
  | _ => True

theorem done_iff_single {m m' : SubMap} {op : Op} (h : m.step op m') :
    m.Done op m' ↔ m.Single op := by
  obtain rfl := h
  rcases op with v | ⟨src, dst⟩ | v | ⟨src, dst⟩ | _ | _
  · exact Iff.rfl
  · exact Iff.rfl
  · exact removeVertex_iff m v
  · exact removeEdge_iff m src dst
  · exact Iff.rfl
  · exact Iff.rfl

/-- The number of edges is right in every state reached, and the calls of a run did what they are
for exactly when each found no more occurrences than it deletes. -/
theorem subMap_runs {m₀ m : SubMap} {ops : List Op} (h₀ : Built m₀) (run : Steps step m₀ ops m) :
    m.edgeCount.2 = m.adjacencyMap.edges ∧
    (Steps (fun m op m' => m.step op m' ∧ m.Done op m') m₀ ops m ↔
      Steps (guarded Single step) m₀ ops m) := by
  refine ⟨?_, fun h => h.mono fun m op m' hs => ?_, fun h => h.mono fun m op m' hs => ?_⟩
  · refine CacheRight.edgeCount (run.inv (fun _ m => m.CacheRight) h₀.cacheRight ?_)
    intro _ m' op m'' hright hs
    rw [hs]
    exact hright.after op
  · exact ⟨(done_iff_single hs.1).1 hs.2, hs.1⟩
  · exact ⟨hs.2, (done_iff_single hs.2).2 hs.1⟩

/-- A walk along `0 → 1` twice: one occurrence stays, whatever is removed. -/
def walkedTwice : AdjMap := AList.insert 0 [1, 1] (AList.insert 1 [] ∅)

theorem subMap_repeated :
    ((ofMap walkedTwice).removeEdge 0 1).2 = true ∧
    ((ofMap walkedTwice).removeEdge 0 1).1.hasEdge 0 1 = true ∧
    ((ofMap walkedTwice).removeVertex 1).2 = true ∧
    ((ofMap walkedTwice).removeVertex 1).1.adjacencyMap.lookup 0 = some [1] := by
  decide +kernel

/-- Two removals of the edge, then of the vertex. -/
theorem subMap_runs_twice :
    let m := (((ofMap walkedTwice).removeEdge 0 1).1.removeEdge 0 1).1
    (m.removeVertex 1).1.edgeCount.2 = 0 ∧
    (Steps (fun m op m' => m.step op m' ∧ m.Done op m') (ofMap walkedTwice)
        [.removeEdge 0 1, .removeEdge 0 1, .removeVertex 1] (m.removeVertex 1).1 ↔
      Steps (guarded Single step) (ofMap walkedTwice)
        [.removeEdge 0 1, .removeEdge 0 1, .removeVertex 1] (m.removeVertex 1).1) :=
  ⟨by decide +kernel,
    (subMap_runs (.ofMap walkedTwice) (.snoc (.snoc (.snoc .nil rfl) rfl) rfl)).2⟩

end SubMap

end BwGraph
