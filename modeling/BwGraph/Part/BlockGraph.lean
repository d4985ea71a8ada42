import Mathlib.Data.List.Perm.Basic
import BwGraph.Io.Index

/-
  Graphs of blocks (`partition.h`): the adjacency map of the pages of one level of the index tree,
  its partition into parts of bounded weight, the subgraph of one part, and the sparsification
  that chooses the neighbour pages of a block. The partitioner itself is KaMinPar; what the callers
  rely on is that its parts are not empty and hold every block once (`BlockPartitioner`).

  Every map that the index tree is built from is made of `addEdges` on reserved keys, so it is
  symmetric and closed: a neighbour of a block is a block (`BlockAdjMap.Closed`).
-/

namespace BwGraph

open List AList

namespace BlockAdjMap

/-- `map.insert({key, {}})` for some keys: a key that is there keeps its value. -/
def reserve (m : BlockAdjMap) (keys : List PageNo) : BlockAdjMap :=
  keys.foldl (fun m k => if k ∈ m then m else m.insert k []) m

/-- `map[a].insert(b)`. -/
def addNeighbor (m : BlockAdjMap) (a b : PageNo) : BlockAdjMap :=
  m.insert a (if b ∈ getNeighborPages m a then getNeighborPages m a
    else getNeighborPages m a ++ [b])

/-- The two insertions for an edge between two pages. -/
def addEdge (m : BlockAdjMap) (e : PageNo × PageNo) : BlockAdjMap :=
  (m.addNeighbor e.1 e.2).addNeighbor e.2 e.1

/-- The edges of a list, one after another. -/
def addEdges (m : BlockAdjMap) (es : List (PageNo × PageNo)) : BlockAdjMap := es.foldl addEdge m

end BlockAdjMap

/-- `induced_block_subgraph`. -/
def inducedBlockSubgraph (graph : BlockAdjMap) (block : List PageNo) : BlockAdjMap :=
  block.foldl (fun sub b =>
    sub.insert b (getNeighborPages sub b ++ (getNeighborPages graph b).filter fun n => n ∈ sub))
    (BlockAdjMap.reserve ∅ block)

/-! ## Partition -/

/-- What `absolute_weight_graph_partition` may return: parts with compressed numbers, so that none
is empty, which hold every block once. -/
structure BlockPartitioner where
  parts : BlockAdjMap → Nat → List (List PageNo)
  cover : ∀ graph w, (parts graph w).flatten.Perm graph.keys
  nonempty : ∀ graph w, ∀ part ∈ parts graph w, part ≠ []

/-- `absolute_weight_block_partition`. -/
def absoluteWeightBlockPartition (bp : BlockPartitioner) (graph : BlockAdjMap)
    (maxBlockWeight : Nat) : Except String (List (List PageNo)) :=
  if maxBlockWeight = 0 then .error "max_block_weight must be > 0"
  else .ok (bp.parts graph maxBlockWeight)

/-- What `at` throws. -/
def atError : String := "at() did not find key"

/-- `block_part_map.at`. -/
def partAt (parts : List (List PageNo)) (block : PageNo) : Except String Nat :=
  if block ∈ parts.flatten then .ok (parts.findIdx fun part => decide (block ∈ part))
  else .error atError

/-! ## Sparsification -/

/-- An edge with its importance. -/
abbrev ScoredEdge := Nat × PageNo × PageNo

/-- `std::sort` by descending importance: equal scores may come in any order. -/
structure EdgeSort where
  sort : List ScoredEdge → List ScoredEdge
  perm : ∀ es, (sort es).Perm es
  sorted : ∀ es, (sort es).Pairwise fun e e' => e'.1 ≤ e.1

/-- A stable sort by importance. -/
def EdgeSort.stable : EdgeSort where
  sort := fun es => es.mergeSort fun e e' => decide (e'.1 ≤ e.1)
  perm := fun es => es.mergeSort_perm _
  sorted := fun es => by
    refine (List.pairwise_mergeSort (fun a b c hab hbc => ?_) (fun a b => ?_) es).imp fun h => ?_
    · rw [decide_eq_true_eq] at *
      exact Nat.le_trans hbc hab
    · rw [Bool.or_eq_true, decide_eq_true_eq, decide_eq_true_eq]
      exact Nat.le_total _ _
    · exact of_decide_eq_true h

/-- The locals of `graph_sparsification`. -/
structure SparseState where
  result : BlockAdjMap
  currentDegrees : PageNo → Nat
  parent : PageNo → PageNo
  rank : PageNo → Nat
  treeEdges : Nat

namespace SparseState

/-- `try_add_edge`. -/
def tryAddEdge (maxDegree : Nat) (s : SparseState) (u v : PageNo) : SparseState :=
  if s.currentDegrees u < maxDegree ∧ s.currentDegrees v < maxDegree then
    let result := s.result.insert u (getNeighborPages s.result u ++ [v])
    let result := result.insert v (getNeighborPages result v ++ [u])
    let degrees := Function.update s.currentDegrees u (s.currentDegrees u + 1)
    { s with
      result := result
      currentDegrees := Function.update degrees v (degrees v + 1) }
  else s

/-- The loop of `find_root`: the path and the root; a path is shorter than the number of nodes. -/
def rootPath (parent : PageNo → PageNo) : Nat → PageNo → List PageNo × PageNo
  | 0, x => ([], x)
  | fuel + 1, x =>
    if parent x = x then ([], x)
    else
      let (path, root) := rootPath parent fuel (parent x)
      (x :: path, root)

/-- `find_root` with path compression. -/
def findRoot (nodes : Nat) (s : SparseState) (x : PageNo) : PageNo × SparseState :=
  let (path, root) := rootPath s.parent nodes x
  (root, { s with parent := fun y => if y ∈ path then root else s.parent y })

/-- `union_sets`. -/
def unionSets (nodes : Nat) (s : SparseState) (x y : PageNo) : Bool × SparseState :=
  let (rootX, s) := s.findRoot nodes x
  let (rootY, s) := s.findRoot nodes y
  if rootX = rootY then (false, s)
  else if s.rank rootX < s.rank rootY then
    (true, { s with parent := Function.update s.parent rootX rootY })
  else if s.rank rootX > s.rank rootY then
    (true, { s with parent := Function.update s.parent rootY rootX })
  else
    (true, { s with
      parent := Function.update s.parent rootY rootX
      rank := Function.update s.rank rootX (s.rank rootX + 1) })

/-- One edge of the first phase; the loop stops once the tree has all of its edges. -/
def treeEdge (nodes maxDegree : Nat) (s : SparseState) (e : ScoredEdge) : SparseState :=
  if s.treeEdges ≥ nodes - 1 then s
  else
    let (rootU, s) := s.findRoot nodes e.2.1
    let (rootV, s) := s.findRoot nodes e.2.2
    if rootU ≠ rootV ∧ s.currentDegrees e.2.1 < maxDegree ∧ s.currentDegrees e.2.2 < maxDegree then
      let (joined, s) := s.unionSets nodes e.2.1 e.2.2
      if joined then
        { s.tryAddEdge maxDegree e.2.1 e.2.2 with treeEdges := s.treeEdges + 1 }
      else s
    else s

/-- One edge of the second phase. -/
def extraEdge (maxDegree : Nat) (s : SparseState) (e : ScoredEdge) : SparseState :=
  if s.currentDegrees e.2.1 < maxDegree ∧ s.currentDegrees e.2.2 < maxDegree ∧
      e.2.2 ∉ getNeighborPages s.result e.2.1 then
    s.tryAddEdge maxDegree e.2.1 e.2.2
  else s

end SparseState

/-- The edges with their scores, each pair of endpoints once. -/
def edgesWithScores (ho : HashOrder) (graph : BlockAdjMap) : List ScoredEdge :=
  let edges := (ho.order graph.keys).flatMap fun u => (getNeighborPages graph u).map fun v => (u, v)
  (edges.foldl (fun (acc : List (PageNo × PageNo) × List ScoredEdge) e =>
    let pair := (min e.1 e.2, max e.1 e.2)
    if pair ∈ acc.1 then acc
    else (pair :: acc.1, acc.2 ++ [((getNeighborPages graph e.1).length +
      (getNeighborPages graph e.2).length, e.1, e.2)])) ([], [])).2

/-- The two endpoints in ascending order. -/
def edgePair (u v : PageNo) : PageNo × PageNo := (min u v, max u v)

/-- The scan that collects the edges: every pair once. -/
def collectEdge (graph : BlockAdjMap) (acc : List (PageNo × PageNo) × List ScoredEdge)
    (e : PageNo × PageNo) : List (PageNo × PageNo) × List ScoredEdge :=
  if edgePair e.1 e.2 ∈ acc.1 then acc
  else (edgePair e.1 e.2 :: acc.1, acc.2 ++ [((getNeighborPages graph e.1).length +
    (getNeighborPages graph e.2).length, e.1, e.2)])

theorem edgesWithScores_eq (ho : HashOrder) (graph : BlockAdjMap) :
    edgesWithScores ho graph = (((ho.order graph.keys).flatMap fun u =>
      (getNeighborPages graph u).map fun v => (u, v)).foldl (collectEdge graph) ([], [])).2 := rfl

/-- `graph_sparsification`. -/
def graphSparsification (ho : HashOrder) (es : EdgeSort) (graph : BlockAdjMap) (maxDegree : Nat) :
    BlockAdjMap :=
  if maxDegree = 0 ∨ graph.keys = [] then ∅
  else
    let nodes := graph.keys.length
    let edges := es.sort (edgesWithScores ho graph)
    let s : SparseState := ⟨BlockAdjMap.reserve ∅ graph.keys, fun _ => 0, id, fun _ => 0, 0⟩
    let s := edges.foldl (SparseState.treeEdge nodes maxDegree) s
    (edges.foldl (SparseState.extraEdge maxDegree) s).result

/-! ## Keys and neighbours -/

namespace BlockAdjMap

variable {m : BlockAdjMap}

variable {k : PageNo}

variable {keys : List PageNo} {es : List (PageNo × PageNo)}

theorem mem_reserve : k ∈ m.reserve keys ↔ k ∈ m ∨ k ∈ keys := by
  unfold reserve
  induction keys generalizing m with
  | nil => simp
  | cons x xs ih =>
    rw [foldl_cons, ih, mem_cons]
    split
    · rename_i hx
      constructor
      · rintro (h | h)
        · exact .inl h
        · exact .inr (.inr h)
      · rintro (h | rfl | h)
        · exact .inl h
        · exact .inl hx
        · exact .inr h
    · rw [mem_insert, or_comm (a := k = x), or_assoc]

theorem mem_addNeighbor {a b k : PageNo} : k ∈ m.addNeighbor a b ↔ k = a ∨ k ∈ m :=
  mem_insert m

theorem mem_addEdge {e : PageNo × PageNo} : k ∈ m.addEdge e ↔ k ∈ m ∨ k = e.1 ∨ k = e.2 := by
  unfold addEdge
  rw [mem_addNeighbor, mem_addNeighbor]
  tauto

theorem mem_addEdges : k ∈ m.addEdges es ↔ k ∈ m ∨ ∃ e ∈ es, k = e.1 ∨ k = e.2 := by
  unfold addEdges
  induction es generalizing m with
  | nil => simp
  | cons e es ih => rw [foldl_cons, ih, mem_addEdge, exists_mem_cons_iff, or_assoc]

theorem mem_getNeighborPages_addNeighbor {a b k n : PageNo} :
    n ∈ getNeighborPages (m.addNeighbor a b) k ↔ n ∈ getNeighborPages m k ∨ (k = a ∧ n = b) := by
  unfold addNeighbor
  by_cases hk : k = a
  · subst hk
    have hself : ∀ l : List PageNo, getNeighborPages (insert k l m) k = l := fun l => by
      simp [getNeighborPages]
    rw [hself]
    split
    · rename_i hb
      constructor
      · exact .inl
      · rintro (h | ⟨-, rfl⟩)
        · exact h
        · exact hb
    · simp
  · have hne : ∀ l : List PageNo, getNeighborPages (insert a l m) k = getNeighborPages m k :=
      fun l => by simp [getNeighborPages, lookup_insert_ne hk]
    rw [hne]
    simp [hk]

theorem mem_getNeighborPages_addEdges {k n : PageNo} :
    n ∈ getNeighborPages (m.addEdges es) k ↔
      n ∈ getNeighborPages m k ∨ (k, n) ∈ es ∨ (n, k) ∈ es := by
  unfold addEdges
  induction es generalizing m with
  | nil => simp
  | cons e es ih =>
    rw [foldl_cons, ih, addEdge, mem_getNeighborPages_addNeighbor,
      mem_getNeighborPages_addNeighbor, mem_cons, mem_cons, Prod.ext_iff, Prod.ext_iff]
    tauto

theorem getNeighborPages_reserve : getNeighborPages (m.reserve keys) k = getNeighborPages m k := by
  unfold reserve
  induction keys generalizing m with
  | nil => rfl
  | cons x xs ih =>
    rw [foldl_cons, ih]
    split
    · rfl
    · rename_i hx
      by_cases hk : k = x
      · subst hk
        simp [getNeighborPages, lookup_eq_none.2 hx]
      · simp [getNeighborPages, lookup_insert_ne hk]

/-- Neighbours are keys, on both sides. -/
structure Closed (m : BlockAdjMap) : Prop where
  key : ∀ a b, b ∈ getNeighborPages m a → b ∈ m
  symm : ∀ a b, b ∈ getNeighborPages m a → a ∈ getNeighborPages m b

/-- A map made of reserved keys and edges. -/
theorem closed_addEdges (keys : List PageNo) (es : List (PageNo × PageNo)) :
    Closed ((reserve ∅ keys).addEdges es) := by
  have hnone : ∀ a b, b ∉ getNeighborPages (reserve ∅ keys) a := fun a b h => by
    rw [getNeighborPages_reserve] at h
    cases h
  constructor
  · intro a b h
    rw [mem_getNeighborPages_addEdges] at h
    rw [mem_addEdges]
    rcases h with h | h | h
    · exact absurd h (hnone a b)
    · exact .inr ⟨_, h, .inr rfl⟩
    · exact .inr ⟨_, h, .inl rfl⟩
  · intro a b h
    rw [mem_getNeighborPages_addEdges] at h ⊢
    rcases h with h | h | h
    · exact absurd h (hnone a b)
    · exact .inr (.inr h)
    · exact .inr (.inl h)

end BlockAdjMap

variable {k : PageNo} {graph : BlockAdjMap} {s : SparseState} {maxDegree : Nat}

variable {block : List PageNo}

theorem mem_inducedBlockSubgraph : k ∈ inducedBlockSubgraph graph block ↔ k ∈ block := by
  have hfold : ∀ (f : BlockAdjMap → PageNo → List PageNo) (bs : List PageNo) (m : BlockAdjMap),
      k ∈ bs.foldl (fun sub b => sub.insert b (f sub b)) m ↔ k ∈ m ∨ k ∈ bs := by
    intro f bs
    induction bs with
    | nil => simp
    | cons b bs ih =>
      intro m
      rw [foldl_cons, ih, mem_insert, mem_cons]
      tauto
  unfold inducedBlockSubgraph
  rw [hfold, BlockAdjMap.mem_reserve]
  simp

theorem keys_inducedBlockSubgraph (h : block.Nodup) :
    (inducedBlockSubgraph graph block).keys.Perm block :=
  (perm_ext_iff_of_nodup (keys_nodup _) h).2 fun _ => mem_inducedBlockSubgraph

/-! ## The sparse map -/

theorem mem_tryAddEdge {u v k : PageNo} (h : k ∈ s.result) :
    k ∈ (s.tryAddEdge maxDegree u v).result := by
  unfold SparseState.tryAddEdge
  split
  · exact (mem_insert _).2 (.inr ((mem_insert _).2 (.inr h)))
  · exact h

theorem result_unionSets (nodes : Nat) (s : SparseState) (x y : PageNo) :
    (s.unionSets nodes x y).2.result = s.result := by
  unfold SparseState.unionSets
  dsimp only
  split_ifs <;> rfl

variable {e : ScoredEdge}

theorem mem_treeEdge {nodes maxDegree : Nat} (h : k ∈ s.result) :
    k ∈ (s.treeEdge nodes maxDegree e).result := by
  unfold SparseState.treeEdge
  dsimp only
  split_ifs
  · exact h
  · refine mem_tryAddEdge ?_
    rw [result_unionSets]
    exact h
  · rw [result_unionSets]
    exact h
  · exact h

theorem mem_extraEdge (h : k ∈ s.result) : k ∈ (s.extraEdge maxDegree e).result := by
  unfold SparseState.extraEdge
  split
  · exact mem_tryAddEdge h
  · exact h

theorem mem_foldl_result {f : SparseState → ScoredEdge → SparseState}
    (hf : ∀ s e, k ∈ s.result → k ∈ (f s e).result) (es : List ScoredEdge) (h : k ∈ s.result) :
    k ∈ (es.foldl f s).result := by
  induction es generalizing s with
  | nil => exact h
  | cons e es ih => exact ih (hf s e h)

/-- With a positive degree bound, every block has an entry in the sparse map. -/
theorem mem_graphSparsification {ho : HashOrder} {es : EdgeSort} (hd : 0 < maxDegree)
    (h : k ∈ graph) : k ∈ graphSparsification ho es graph maxDegree := by
  have hkey : k ∈ graph.keys := h
  have hne : graph.keys ≠ [] := ne_nil_of_mem hkey
  unfold graphSparsification
  rw [if_neg (by simp only [hne, or_false]; omega)]
  refine mem_foldl_result (fun s e => mem_extraEdge) _
    (mem_foldl_result (fun s e => mem_treeEdge) _ ?_)
  exact BlockAdjMap.mem_reserve.2 (.inr hkey)

theorem graphSparsification_zero (ho : HashOrder) (es : EdgeSort) (graph : BlockAdjMap) :
    graphSparsification ho es graph 0 = ∅ := if_pos (.inl rfl)

/-- `pre_partition_handle`: every edge in both directions, without loops. -/
def prePartitionHandle (oldGraph : AdjMap) : AdjMap :=
  (BlockAdjMap.reserve ∅ oldGraph.keys).addEdges (oldGraph.keys.flatMap fun v =>
    ((oldGraph.get v).filter fun n => n ≠ v).map fun n => (v, n))

/-- The result is the symmetric closure without loops, with a list for every vertex that has one or
is the neighbour of another. -/
theorem prePartitionHandle_sound (g : AdjMap) (u : VId) :
    (∀ v, v ∈ (prePartitionHandle g).get u ↔ u ≠ v ∧ (v ∈ g.get u ∨ u ∈ g.get v)) ∧
      (u ∈ prePartitionHandle g ↔ u ∈ g ∨ ∃ v, v ≠ u ∧ u ∈ g.get v) := by
  have hkey : ∀ a b, b ∈ g.get a → a ∈ g.keys := by
    intro a b hb
    by_contra ha
    rw [AdjMap.get, lookup_eq_none.2 ha] at hb
    cases hb
  have hedge : ∀ a b, (a, b) ∈ (g.keys.flatMap fun v =>
      ((g.get v).filter fun n => n ≠ v).map fun n => (v, n)) ↔ a ≠ b ∧ b ∈ g.get a := by
    intro a b
    simp only [mem_flatMap, mem_map, mem_filter, decide_eq_true_eq, Prod.mk.injEq]
    constructor
    · rintro ⟨_, -, _, ⟨hb, hne⟩, rfl, rfl⟩
      exact ⟨hne.symm, hb⟩
    · rintro ⟨hne, hb⟩
      exact ⟨a, hkey a b hb, b, ⟨hb, hne.symm⟩, rfl, rfl⟩
  refine ⟨fun v => ?_, ?_⟩
  · show v ∈ getNeighborPages _ u ↔ _
    unfold prePartitionHandle
    rw [BlockAdjMap.mem_getNeighborPages_addEdges, BlockAdjMap.getNeighborPages_reserve, hedge, hedge]
    have hnil : v ∉ getNeighborPages ∅ u := not_mem_nil
    tauto
  · unfold prePartitionHandle
    rw [BlockAdjMap.mem_addEdges, BlockAdjMap.mem_reserve]
    constructor
    · rintro ((h | h) | ⟨⟨a, b⟩, he, rfl | rfl⟩)
      · exact absurd h (notMem_empty u)
      · exact .inl h
      · exact .inl (hkey _ b ((hedge _ b).1 he).2)
      · exact .inr ⟨a, (hedge a _).1 he⟩
    · rintro (h | ⟨v, hv⟩)
      · exact .inl (.inr h)
      · exact .inr ⟨(v, u), (hedge v u).2 hv, .inr rfl⟩

end BwGraph
