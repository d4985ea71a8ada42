import Mathlib.Algebra.Order.BigOperators.Group.List
import Mathlib.Algebra.Order.Group.Nat
import BwGraph.Db.Refinement
import BwGraph.Lib.Labelling

/-
  `absolute_weight_graph_partition` (`partition.h`): a first partition by KaMinPar, then rounds in
  which every block that is too heavy is cut into at least two by a k-way partition of its
  subgraph, until none is too heavy. KaMinPar is not part of the repository; `KaMinPar` is what it
  promises. Its weights are machine integers of its own choice and are taken without overflow.

  Each cut refines the map of the vertices to their blocks and separates two vertices, as long as
  the heavy block has two. A single vertex that is heavier than the bound stays a heavy block,
  which is cut again in every round: then the loop never ends. So the call returns blocks within
  the bound if and only if every vertex is (`absoluteWeightGraphPartition_iff`).
-/

namespace BwGraph

open Function List Option AList

open Labelling

/-- `folly::F14FastMap<v_id_t, size_t>`: the block of each vertex. -/
abbrev BlockMap := AList fun _ : VId => Nat

/-- A graph as KaMinPar takes it. -/
structure ShmGraph where
  xadj : List Nat
  adjncy : List Nat
  nodeWeights : List Nat

/-- KaMinPar, with bounds for the blocks and without. Every node gets a block below `k`, and a
k-way partition of two or more nodes has two blocks that are not empty. The k-way partitions of a
run are numbered: no two of them need agree. -/
structure KaMinPar where
  absolute : ShmGraph → Nat → List Nat → Nat → Nat
  kway : Nat → ShmGraph → Nat → Nat → Nat
  absolute_lt : ∀ shm k bounds i, 0 < k → i < shm.nodeWeights.length → absolute shm k bounds i < k
  kway_lt : ∀ call shm k i, 0 < k → i < shm.nodeWeights.length → kway call shm k i < k
  kway_splits : ∀ call shm k, 2 ≤ k → 2 ≤ shm.nodeWeights.length →
    ∃ i < shm.nodeWeights.length, ∃ j < shm.nodeWeights.length,
      kway call shm k i ≠ kway call shm k j

/-- The iteration orders of the block map and of the vertices of a subgraph. -/
structure PartitionEnv where
  blocks : HashOrder
  nodes : HashOrder

/-! ## Weights and inputs -/

/-- The weight of a vertex with `deg` neighbours. -/
def degreeWeight (cfg : Config) (deg : Nat) : Nat :=
  if deg ≥ cfg.giantDegreeBound then 1 else 1 + deg

/-- `node_weight_original`. -/
def nodeWeightOriginal (cfg : Config) (g : MemGraph) (v : VId) : Nat :=
  degreeWeight cfg (g.neighbors v).length

/-- `block_weight_original`. -/
def blockWeightOriginal (cfg : Config) (g : MemGraph) (nodes : List VId) : Nat :=
  (nodes.map (nodeWeightOriginal cfg g)).sum

/-- Rows in CSR form. -/
def ShmGraph.ofRows (rows : List (List Nat)) (nodeWeights : List Nat) : ShmGraph where
  xadj := (rows.map List.length).scanl (· + ·) 0
  adjncy := rows.flatten
  nodeWeights := nodeWeights

/-- The whole graph. -/
def initialInput (cfg : Config) (g : MemGraph) (enableEdgeWeight : Bool) : ShmGraph :=
  let rows := (List.range g.vertexCount).map g.neighbors
  .ofRows rows (rows.map fun row => if enableEdgeWeight then degreeWeight cfg row.length else 1)

/-- A subgraph: the neighbours are those that are nodes of it. -/
def kwayInput (cfg : Config) (subgraph : AdjMap) (nodes : List VId) : ShmGraph :=
  let rows := nodes.map fun u => (subgraph.get u).filterMap fun v => nodes.idxOf? v
  .ofRows rows (rows.map fun row => degreeWeight cfg row.length)

/-- `emplace` of the block of each vertex, by index. -/
def emplaceParts (nodes : List VId) (part : Nat → Nat) : BlockMap :=
  nodes.zipIdx.foldl (fun m x => if x.1 ∈ m then m else m.insert x.1 (part x.2)) ∅

/-- `kway_graph_partition`. -/
def kwayGraphPartition (cfg : Config) (env : PartitionEnv) (kmp : KaMinPar) (call : Nat)
    (subgraph : AdjMap) (k : Nat) : Except String BlockMap :=
  if k = 0 then .error "k must be >= 1"
  else if subgraph.keys = [] then .ok ∅
  else
    let nodes := env.nodes.order subgraph.keys
    .ok (emplaceParts nodes (kmp.kway call (kwayInput cfg subgraph nodes) (min k nodes.length)))

/-- `compute_induced_subgraph`. -/
def computeInducedSubgraph (g : MemGraph) (vertexSubset : List VId) : Except String AdjMap :=
  match vertexSubset.find? fun v => ¬ v < g.vertexCount with
  | some v => .error ("Vertex " ++ toString v ++ " does not exist")
  | none => .ok (vertexSubset.foldl (fun (m : AdjMap) v =>
      m.insert v (((g.neighbors v).filter fun d => d ∈ vertexSubset).insertionSort (· ≤ ·))) ∅)

/-! ## Refinement -/

/-- The largest block number. -/
def maxBlockId (blockOf : BlockMap) : Nat := (blockOf.entries.map Sigma.snd).foldl max 0

/-- The vertices of one block, in the order of the map. -/
def bucket (env : PartitionEnv) (blockOf : BlockMap) (b : Nat) : List VId :=
  (env.blocks.order blockOf.keys).filter fun v => blockOf.lookup v = some b

/-- `collect_blocks`. -/
def collectBlocks (env : PartitionEnv) (blockOf : BlockMap) : List (List VId) :=
  (List.range (maxBlockId blockOf + 1)).map (bucket env blockOf)

/-- `block_of[v] = new_ids[lb]`: part 0 keeps the number, the others get new ones. -/
def relabel (b maxBid : Nat) (localMap : BlockMap) (blockOf : BlockMap) (v : VId) : BlockMap :=
  match localMap.lookup v with
  | none => blockOf
  | some lb => blockOf.insert v (if lb = 0 then b else maxBid + lb)

/-- The locals of the second pass; `calls` counts the k-way partitions. -/
structure RefineState where
  blockOf : BlockMap
  maxBid : Nat
  calls : Nat

/-- One overweight block. -/
def refineBlock (cfg : Config) (env : PartitionEnv) (kmp : KaMinPar) (g : MemGraph)
    (maxBlockWeight : Nat) (buckets : List (List VId)) (st : RefineState) (b : Nat) :
    Except String RefineState := do
  let verts := buckets.getD b []
  let bw := blockWeightOriginal cfg g verts
  let sub ← computeInducedSubgraph g verts
  if sub.keys = [] then return st
  else
    let k2 := max 2 ((bw + maxBlockWeight - 1) / maxBlockWeight)
    let localMap ← kwayGraphPartition cfg env kmp st.calls sub k2
    return ⟨verts.foldl (relabel b st.maxBid localMap) st.blockOf, st.maxBid + (k2 - 1),
      st.calls + 1⟩

/-- The overweight blocks. -/
def overweightBlocks (cfg : Config) (g : MemGraph) (maxBlockWeight : Nat)
    (buckets : List (List VId)) : List Nat :=
  (List.range buckets.length).filter fun b =>
    buckets.getD b [] ≠ [] ∧ blockWeightOriginal cfg g (buckets.getD b []) > maxBlockWeight

/-- One round: the new map, the calls so far and `any_over`. -/
def refineRound (cfg : Config) (env : PartitionEnv) (kmp : KaMinPar) (g : MemGraph)
    (maxBlockWeight : Nat) (blockOf : BlockMap) (calls : Nat) :
    Except String (BlockMap × Nat × Bool) := do
  let buckets := collectBlocks env blockOf
  let overweight := overweightBlocks cfg g maxBlockWeight buckets
  let st ← overweight.foldlM (refineBlock cfg env kmp g maxBlockWeight buckets)
    ⟨blockOf, maxBlockId blockOf, calls⟩
  return (st.blockOf, st.calls, !overweight.isEmpty)

/-- The loop `while (true)`, with fuel. -/
def refineLoop (cfg : Config) (env : PartitionEnv) (kmp : KaMinPar) (g : MemGraph)
    (maxBlockWeight : Nat) : Nat → BlockMap → Nat → Option (Except String BlockMap)
  | 0, _, _ => none
  | fuel + 1, blockOf, calls =>
    match refineRound cfg env kmp g maxBlockWeight blockOf calls with
    | .error e => some (.error e)
    | .ok (blockOf, calls, anyOver) =>
      if anyOver then refineLoop cfg env kmp g maxBlockWeight fuel blockOf calls
      else some (.ok blockOf)

/-- The number of a block: the next one when it has none. -/
def remapBlock (blockOf : BlockMap) (acc : (Nat → Option Nat) × Nat) (v : VId) :
    (Nat → Option Nat) × Nat :=
  match blockOf.lookup v with
  | none => acc
  | some bid =>
    match acc.1 bid with
    | some _ => acc
    | none => (Function.update acc.1 bid (some acc.2), acc.2 + 1)

/-- `bid = remap[bid]`. -/
def renumber (remap : Nat → Option Nat) (blockOf : BlockMap) (v : VId) : BlockMap :=
  match blockOf.lookup v with
  | none => blockOf
  | some bid => blockOf.insert v ((remap bid).getD (2 ^ 64 - 1))

/-- `compress_block_ids`. -/
def compressBlockIds (env : PartitionEnv) (blockOf : BlockMap) : BlockMap :=
  let order := env.blocks.order blockOf.keys
  let remap := (order.foldl (remapBlock blockOf) (fun _ => none, 0)).1
  order.foldl (renumber remap) blockOf

/-- `absolute_weight_graph_partition`. -/
def absoluteWeightGraphPartition (cfg : Config) (env : PartitionEnv) (kmp : KaMinPar)
    (g : MemGraph) (maxBlockWeight : Nat) (enableEdgeWeight refine : Bool) (fuel : Nat) :
    Option (Except String BlockMap) :=
  if maxBlockWeight = 0 then some (.error "max_block_weight must be > 0")
  else if g.vertexCount = 0 then some (.ok ∅)
  else
    let input := initialInput cfg g enableEdgeWeight
    let numPartitions := (input.nodeWeights.sum + maxBlockWeight - 1) / maxBlockWeight
    let blockOf := emplaceParts (List.range g.vertexCount)
      (kmp.absolute input numPartitions (List.replicate numPartitions maxBlockWeight))
    let refined := if refine then refineLoop cfg env kmp g maxBlockWeight fuel blockOf 0
      else some (.ok blockOf)
    refined.map fun r => r.map (compressBlockIds env)

/-! ## Maps and weights -/

variable {cfg : Config} {env : PartitionEnv} {kmp : KaMinPar} {g : MemGraph}
  {maxBlockWeight : Nat}

/-- Every node gets the part of its index. -/
theorem lookup_emplaceParts (nodes : List VId) (part : Nat → Nat) (v : VId) :
    (emplaceParts nodes part).lookup v =
      if v ∈ nodes then some (part (nodes.idxOf v)) else none := by
  unfold emplaceParts
  induction nodes using reverseRecOn with
  | nil => rfl
  | append_singleton nodes x ih =>
    rw [zipIdx_append, foldl_append]
    set m := nodes.zipIdx.foldl
      (fun (m : BlockMap) x => if x.1 ∈ m then m else m.insert x.1 (part x.2)) ∅ with hm
    show (if x ∈ m then m else m.insert x (part (0 + nodes.length))).lookup v = _
    by_cases hv : v ∈ nodes
    · rw [if_pos hv] at ih
      rw [if_pos (mem_append_left _ hv), idxOf_append_of_mem hv]
      split_ifs with hx
      · exact ih
      · have hvm : v ∈ m := lookup_isSome.1 (by rw [ih]; rfl)
        have hvx : v ≠ x := fun he => hx (he ▸ hvm)
        rw [lookup_insert_ne hvx, ih]
    · rw [if_neg hv] at ih
      by_cases he : v = x
      · subst he
        rw [if_neg (lookup_eq_none.1 ih), lookup_insert,
          if_pos (mem_append_right _ mem_cons_self), idxOf_append_of_notMem hv,
          idxOf_cons_self, Nat.zero_add, Nat.add_zero]
      · have hv' : v ∉ nodes ++ [x] := by
          rw [mem_append, mem_singleton]
          exact fun h => h.elim hv he
        rw [if_neg hv']
        split_ifs
        · exact ih
        · rw [lookup_insert_ne he, ih]

/-- A loop that changes the entry of each element once. -/
theorem lookup_foldl {f : BlockMap → VId → BlockMap} {F : VId → Option Nat → Option Nat}
    (hself : ∀ m v, (f m v).lookup v = F v (m.lookup v))
    (hother : ∀ m v w, w ≠ v → (f m v).lookup w = m.lookup w) {l : List VId} (hnd : l.Nodup)
    (m : BlockMap) (w : VId) :
    (l.foldl f m).lookup w = if w ∈ l then F w (m.lookup w) else m.lookup w := by
  induction l generalizing m with
  | nil => rfl
  | cons v l ih =>
    obtain ⟨hv, hl⟩ := nodup_cons.1 hnd
    rw [foldl_cons, ih hl]
    by_cases he : w = v
    · subst he
      rw [if_neg hv, if_pos mem_cons_self, hself]
    · rw [hother m v w he]
      simp only [mem_cons, he, false_or]

variable {v : VId}

variable {nodes : List VId}

theorem nodeWeight_le_blockWeight (h : v ∈ nodes) :
    nodeWeightOriginal cfg g v ≤ blockWeightOriginal cfg g nodes :=
  le_sum_of_mem (mem_map_of_mem h)

/-- A list that is too heavy although its vertices are not has two of them. -/
theorem two_le_length_of_heavy (hlight : ∀ v ∈ nodes, nodeWeightOriginal cfg g v ≤ maxBlockWeight)
    (h : blockWeightOriginal cfg g nodes > maxBlockWeight) : 2 ≤ nodes.length := by
  rcases nodes with _ | ⟨v, _ | ⟨w, rest⟩⟩
  · exact absurd h (Nat.not_lt_zero _)
  · have hw : blockWeightOriginal cfg g [v] = nodeWeightOriginal cfg g v := by
      simp [blockWeightOriginal]
    have := hlight v mem_cons_self
    omega
  · simp

/-! ## The cut of one block -/

/-- The subgraph of valid vertices has them as keys. -/
theorem computeInducedSubgraph_ok {verts : List VId} (h : ∀ v ∈ verts, v < g.vertexCount) :
    ∃ sub, computeInducedSubgraph g verts = .ok sub ∧ ∀ v, v ∈ sub ↔ v ∈ verts := by
  have hnone : (verts.find? fun v => ¬ v < g.vertexCount) = none := by
    apply find?_eq_none.2
    intro v hv
    simpa using h v hv
  have hfold : ∀ (row : VId → List VId) (l : List VId) (m : AdjMap) (v : VId),
      v ∈ l.foldl (fun (m : AdjMap) v => m.insert v (row v)) m ↔ v ∈ l ∨ v ∈ m := by
    intro row l
    induction l with
    | nil => simp
    | cons a l ih =>
      intro m v
      rw [foldl_cons, ih, mem_insert, mem_cons]
      constructor
      · rintro (h | h | h)
        · exact .inl (.inr h)
        · exact .inl (.inl h)
        · exact .inr h
      · rintro ((h | h) | h)
        · exact .inr (.inl h)
        · exact .inl h
        · exact .inr (.inr h)
  unfold computeInducedSubgraph
  rw [hnone]
  refine ⟨_, rfl, fun v => ?_⟩
  rw [hfold]
  simp [notMem_empty]

/-- A k-way partition gives every vertex a part below `k`, and two vertices two different ones. -/
theorem kwayGraphPartition_ok (cfg : Config) (env : PartitionEnv) (kmp : KaMinPar) (call : Nat)
    {sub : AdjMap} (hne : sub.keys ≠ []) {k : Nat} (hk : 2 ≤ k) :
    ∃ localMap, kwayGraphPartition cfg env kmp call sub k = .ok localMap ∧
      (∀ v ∈ sub, ∃ lb < k, localMap.lookup v = some lb) ∧
      (2 ≤ sub.keys.length → ∃ u ∈ sub, ∃ v ∈ sub, localMap.lookup u ≠ localMap.lookup v) := by
  set nodes := env.nodes.order sub.keys with hnodes
  have hperm : nodes.Perm sub.keys := env.nodes.perm sub.keys
  have hnd : nodes.Nodup := hperm.nodup_iff.2 sub.keys_nodup
  have hmem : ∀ v, v ∈ nodes ↔ v ∈ sub := fun v => hperm.mem_iff
  have hweights : (kwayInput cfg sub nodes).nodeWeights.length = nodes.length := by
    simp [kwayInput, ShmGraph.ofRows]
  have hk0 : ¬ k = 0 := by omega
  refine ⟨_, by unfold kwayGraphPartition; rw [if_neg hk0, if_neg hne], fun v hv => ?_, fun h2 => ?_⟩
  · have hv' := (hmem v).2 hv
    have hi := idxOf_lt_length_of_mem hv'
    rw [lookup_emplaceParts, ← hnodes, if_pos hv']
    refine ⟨_, ?_, rfl⟩
    have := kmp.kway_lt call (kwayInput cfg sub nodes) (min k nodes.length) _ (by omega)
      (by rw [hweights]; exact hi)
    omega
  · rw [← hperm.length_eq] at h2
    obtain ⟨i, hi, j, hj, hij⟩ := kmp.kway_splits call (kwayInput cfg sub nodes)
      (min k nodes.length) (by omega) (by omega)
    rw [hweights] at hi hj
    refine ⟨nodes[i], (hmem _).1 (getElem_mem hi), nodes[j], (hmem _).1 (getElem_mem hj),
      ?_⟩
    rw [lookup_emplaceParts, lookup_emplaceParts, ← hnodes, if_pos (getElem_mem hi),
      if_pos (getElem_mem hj), hnd.idxOf_getElem, hnd.idxOf_getElem]
    exact fun he => hij (some.inj he)

/-- Every vertex has a block, up to the largest number. -/
structure Blocks (g : MemGraph) (blockOf : BlockMap) (maxBid : Nat) : Prop where
  keys : ∀ v, v ∈ blockOf ↔ v < g.vertexCount
  bound : ∀ v b, blockOf.lookup v = some b → b ≤ maxBid

/-- What one cut does: the vertices of the block keep its number or get a new one, and two of them
are told apart. -/
structure Cut (old new : RefineState) (b : Nat) : Prop where
  maxBid : old.maxBid ≤ new.maxBid
  others : ∀ v, old.blockOf.lookup v ≠ some b → new.blockOf.lookup v = old.blockOf.lookup v
  inside : ∀ v, old.blockOf.lookup v = some b →
    ∃ c, new.blockOf.lookup v = some c ∧ (c = b ∨ old.maxBid < c)

/-- The vertices of a block have the numbers of their parts: part 0 keeps that of the block. -/
structure Renumbered (old new : BlockMap) (b maxBid k : Nat) (localMap : BlockMap) : Prop where
  others : ∀ v, old.lookup v ≠ some b → new.lookup v = old.lookup v
  inside : ∀ v, old.lookup v = some b → ∃ lb < k, localMap.lookup v = some lb ∧
    new.lookup v = some (if lb = 0 then b else maxBid + lb)

section Renumbered

variable {old new localMap : BlockMap} {b maxBid k : Nat}

/-- The loop over the vertices of a block. -/
theorem renumbered_foldl {verts : List VId} (hnd : verts.Nodup)
    (hb : ∀ v, v ∈ verts ↔ old.lookup v = some b)
    (hparts : ∀ v ∈ verts, ∃ lb < k, localMap.lookup v = some lb) :
    Renumbered old (verts.foldl (relabel b maxBid localMap) old) b maxBid k localMap := by
  have hlookup : ∀ v, (verts.foldl (relabel b maxBid localMap) old).lookup v =
      if v ∈ verts then (localMap.lookup v).elim (old.lookup v)
        (fun lb => some (if lb = 0 then b else maxBid + lb))
      else old.lookup v := by
    refine lookup_foldl (F := fun v o => (localMap.lookup v).elim o
      (fun lb => some (if lb = 0 then b else maxBid + lb))) (fun m v => ?_) (fun m v w hw => ?_)
      hnd old
    · unfold relabel
      rcases localMap.lookup v with _ | lb
      · rfl
      · exact lookup_insert m
    · unfold relabel
      rcases localMap.lookup v with _ | lb
      · rfl
      · exact lookup_insert_ne hw
  constructor
  · intro v hv
    rw [hlookup, if_neg fun hm => hv ((hb v).1 hm)]
  · intro v hv
    have hvm := (hb v).2 hv
    obtain ⟨lb, hlt, hlb⟩ := hparts v hvm
    refine ⟨lb, hlt, hlb, ?_⟩
    rw [hlookup, if_pos hvm, hlb]
    rfl

variable (hr : Renumbered old new b maxBid k localMap) (h : Blocks g old maxBid)
include hr h

theorem Renumbered.blocks : Blocks g new (maxBid + (k - 1)) := by
  constructor
  · intro v
    rw [← h.keys v, ← lookup_isSome, ← lookup_isSome]
    by_cases hv : old.lookup v = some b
    · obtain ⟨lb, -, -, hnv⟩ := hr.inside v hv
      rw [hv, hnv]
      rfl
    · rw [hr.others v hv]
  · intro v c hc
    by_cases hv : old.lookup v = some b
    · obtain ⟨lb, hlt, -, hnv⟩ := hr.inside v hv
      have hle := h.bound v b hv
      rw [hnv] at hc
      cases hc
      show (if lb = 0 then b else maxBid + lb) ≤ maxBid + (k - 1)
      split_ifs <;> omega
    · rw [hr.others v hv] at hc
      exact Nat.le_trans (h.bound v c hc) (Nat.le_add_right _ _)

/-- Vertices of different parts have different numbers. -/
theorem Renumbered.ne {u v : VId} (hu : old.lookup u = some b) (hv : old.lookup v = some b)
    (huv : localMap.lookup u ≠ localMap.lookup v) : new.lookup u ≠ new.lookup v := by
  obtain ⟨lu, -, hlu, hnu⟩ := hr.inside u hu
  obtain ⟨lv, -, hlv, hnv⟩ := hr.inside v hv
  have hle := h.bound u b hu
  intro he
  rw [hnu, hnv, some_inj] at he
  rw [hlu, hlv] at huv
  refine huv (congrArg some ?_)
  split_ifs at he <;> omega

end Renumbered

variable {buckets : List (List VId)}

variable {st : RefineState}

theorem refineBlock_ok (cfg : Config) (env : PartitionEnv) (kmp : KaMinPar) (maxBlockWeight : Nat)
    (h : Blocks g st.blockOf st.maxBid) {b : Nat} (hnd : (buckets.getD b []).Nodup)
    (hb : ∀ v, v ∈ buckets.getD b [] ↔ st.blockOf.lookup v = some b) (hne : buckets.getD b [] ≠ []) :
    ∃ st', refineBlock cfg env kmp g maxBlockWeight buckets st b = .ok st' ∧
      Blocks g st'.blockOf st'.maxBid ∧ Cut st st' b ∧
      (2 ≤ (buckets.getD b []).length → ∃ u v, st.blockOf.lookup u = some b ∧
        st.blockOf.lookup v = some b ∧ st'.blockOf.lookup u ≠ st'.blockOf.lookup v) := by
  unfold refineBlock
  set verts := buckets.getD b []
  have hvalid : ∀ v ∈ verts, v < g.vertexCount := fun v hv =>
    (h.keys v).1 (lookup_isSome.1 (by rw [(hb v).1 hv]; rfl))
  obtain ⟨sub, hsub, hmem⟩ := computeInducedSubgraph_ok hvalid
  have hperm : sub.keys.Perm verts :=
    (perm_ext_iff_of_nodup sub.keys_nodup hnd).2 hmem
  have hsubne : sub.keys ≠ [] := fun he => by
    rw [he] at hperm
    exact hne hperm.nil_eq.symm
  set k2 := max 2 ((blockWeightOriginal cfg g verts + maxBlockWeight - 1) / maxBlockWeight) with hk2
  have hk : 2 ≤ k2 := Nat.le_max_left _ _
  obtain ⟨localMap, hlocal, hparts, hsplit⟩ := kwayGraphPartition_ok cfg env kmp st.calls hsubne hk
  have hr : Renumbered st.blockOf (verts.foldl (relabel b st.maxBid localMap) st.blockOf) b
      st.maxBid k2 localMap :=
    renumbered_foldl hnd hb fun v hv => hparts v ((hmem v).2 hv)
  refine ⟨⟨_, st.maxBid + (k2 - 1), st.calls + 1⟩, ?_, hr.blocks h,
    ⟨Nat.le_add_right _ _, hr.others, fun v hv => ?_⟩, fun h2 => ?_⟩
  · dsimp only
    rw [hsub]
    show (if sub.keys = [] then _ else _) = _
    rw [if_neg hsubne, ← hk2, hlocal]
    rfl
  · obtain ⟨lb, -, -, hnv⟩ := hr.inside v hv
    refine ⟨_, hnv, ?_⟩
    split_ifs with h0
    · exact .inl rfl
    · exact .inr (by omega)
  · rw [← hperm.length_eq] at h2
    obtain ⟨u, hu, v, hv, huv⟩ := hsplit h2
    have hub := (hb u).1 ((hmem u).1 hu)
    have hvb := (hb v).1 ((hmem v).1 hv)
    exact ⟨u, v, hub, hvb, hr.ne h hub hvb huv⟩

/-! ## One round -/

/-- The blocks of a map, told apart by its labels. -/
abbrev vertexSet (g : MemGraph) : Finset VId := Finset.range g.vertexCount

/-- A cut refines the map. -/
theorem Cut.refines {old new : RefineState} {b : Nat} (h : Blocks g old.blockOf old.maxBid)
    (hc : Cut old new b) (hb : b ≤ old.maxBid) :
    Refines (vertexSet g) (fun v => new.blockOf.lookup v) fun v => old.blockOf.lookup v := by
  -- a vertex of the block and another one keep apart
  have hapart : ∀ u v, old.blockOf.lookup u = some b → old.blockOf.lookup v ≠ some b →
      new.blockOf.lookup u ≠ new.blockOf.lookup v := by
    intro u v hu hv he
    obtain ⟨c, hnc, hcase⟩ := hc.inside u hu
    rw [hnc, hc.others v hv] at he
    rcases hcase with rfl | hlt
    · exact hv he.symm
    · have := h.bound v c he.symm
      omega
  intro u _ v _ huv
  by_cases hu : old.blockOf.lookup u = some b
  · by_cases hv : old.blockOf.lookup v = some b
    · exact hu.trans hv.symm
    · exact absurd huv (hapart u v hu hv)
  · by_cases hv : old.blockOf.lookup v = some b
    · exact absurd huv.symm (hapart v u hv hu)
    · show old.blockOf.lookup u = old.blockOf.lookup v
      rw [← hc.others u hu, ← hc.others v hv]
      exact huv

/-- The cut of one block leaves the vertices of another one together. -/
theorem Cut.other_block {old new : RefineState} {b c : Nat} (hc : Cut old new b) (hne : c ≠ b)
    (hle : c ≤ old.maxBid) (v : VId) :
    new.blockOf.lookup v = some c ↔ old.blockOf.lookup v = some c := by
  by_cases hv : old.blockOf.lookup v = some b
  · obtain ⟨d, hd, hcase⟩ := hc.inside v hv
    rw [hd, hv, some_inj, some_inj]
    exact iff_of_false (fun he => by omega) hne.symm
  · rw [hc.others v hv]

/-- The second pass: the map is refined, and if every block has two vertices, two are told apart
that were together. -/
theorem refineBlocks_ok (cfg : Config) (env : PartitionEnv) (kmp : KaMinPar) (maxBlockWeight : Nat)
    (heavy : List Nat) (hover : heavy.Nodup) (h : Blocks g st.blockOf st.maxBid)
    (hb : ∀ b ∈ heavy, b ≤ st.maxBid ∧ (buckets.getD b []).Nodup ∧ buckets.getD b [] ≠ [] ∧
      ∀ v, v ∈ buckets.getD b [] ↔ st.blockOf.lookup v = some b) :
    ∃ st', heavy.foldlM (refineBlock cfg env kmp g maxBlockWeight buckets) st = .ok st' ∧
      Blocks g st'.blockOf st'.maxBid ∧
      Refines (vertexSet g) (fun v => st'.blockOf.lookup v) (fun v => st.blockOf.lookup v) ∧
      (heavy ≠ [] → (∀ b ∈ heavy, 2 ≤ (buckets.getD b []).length) →
        ∃ u ∈ vertexSet g, ∃ v ∈ vertexSet g, st.blockOf.lookup u = st.blockOf.lookup v ∧
          st'.blockOf.lookup u ≠ st'.blockOf.lookup v) := by
  induction heavy generalizing st with
  | nil => exact ⟨st, rfl, h, Refines.refl _ _, fun hne => absurd rfl hne⟩
  | cons b heavy ih =>
    obtain ⟨hbo, hover⟩ := nodup_cons.1 hover
    obtain ⟨hle, hnd, hne, hmem⟩ := hb b mem_cons_self
    obtain ⟨st1, hst1, h1, hcut, hsplit⟩ := refineBlock_ok cfg env kmp maxBlockWeight h hnd hmem hne
    have hb1 : ∀ c ∈ heavy, c ≤ st1.maxBid ∧ (buckets.getD c []).Nodup ∧ buckets.getD c [] ≠ [] ∧
        ∀ v, v ∈ buckets.getD c [] ↔ st1.blockOf.lookup v = some c := by
      intro c hc
      obtain ⟨hle', hnd', hne', hmem'⟩ := hb c (mem_cons_of_mem b hc)
      refine ⟨Nat.le_trans hle' hcut.maxBid, hnd', hne', fun v => ?_⟩
      rw [hmem' v, hcut.other_block (fun he => hbo (he ▸ hc)) hle' v]
    obtain ⟨st', hst', h', href, -⟩ := ih hover h1 hb1
    refine ⟨st', ?_, h', href.trans (hcut.refines h hle), fun _ htwo => ?_⟩
    · rw [foldlM_cons, hst1]
      exact hst'
    · obtain ⟨u, v, hu, hv, huv⟩ := hsplit (htwo b mem_cons_self)
      have hvertex : ∀ w, st.blockOf.lookup w = some b → w ∈ vertexSet g := fun w hw =>
        Finset.mem_range.2 ((h.keys w).1 (lookup_isSome.1 (by rw [hw]; rfl)))
      exact ⟨u, hvertex u hu, v, hvertex v hv, hu.trans hv.symm,
        fun he => huv (href u (hvertex u hu) v (hvertex v hv) he)⟩

variable {blockOf : BlockMap}

variable {b : Nat}

theorem mem_bucket : v ∈ bucket env blockOf b ↔ blockOf.lookup v = some b := by
  unfold bucket
  rw [mem_filter, decide_eq_true_eq, (env.blocks.perm _).mem_iff]
  constructor
  · exact fun h => h.2
  · intro h
    exact ⟨mem_keys.1 (lookup_isSome.1 (by rw [h]; rfl)), h⟩

theorem nodup_bucket (env : PartitionEnv) (blockOf : BlockMap) (b : Nat) :
    (bucket env blockOf b).Nodup :=
  ((env.blocks.perm _).nodup_iff.2 blockOf.keys_nodup).filter _

/-- The largest number bounds every number. -/
theorem le_maxBlockId (h : blockOf.lookup v = some b) : b ≤ maxBlockId blockOf := by
  have hmem : b ∈ blockOf.entries.map Sigma.snd :=
    mem_map.2 ⟨⟨v, b⟩, mem_lookup_iff.1 h, rfl⟩
  have hmax : maxBlockId blockOf ∈ 0 :: blockOf.entries.map Sigma.snd ∧
      ∀ b ∈ 0 :: blockOf.entries.map Sigma.snd, b ≤ maxBlockId blockOf :=
    max?_eq_some_iff.1 max?_cons'
  exact hmax.2 b (mem_cons_of_mem 0 hmem)

theorem getD_collectBlocks (h : b ≤ maxBlockId blockOf) :
    (collectBlocks env blockOf).getD b [] = bucket env blockOf b := by
  unfold collectBlocks
  rw [getD_eq_getElem?_getD, getElem?_map, getElem?_range (Nat.lt_succ_of_le h)]
  rfl

/-- The overweight blocks of a map. -/
theorem mem_overweightBlocks :
    b ∈ overweightBlocks cfg g maxBlockWeight (collectBlocks env blockOf) ↔
      b ≤ maxBlockId blockOf ∧ bucket env blockOf b ≠ [] ∧
        blockWeightOriginal cfg g (bucket env blockOf b) > maxBlockWeight := by
  have hlen : (collectBlocks env blockOf).length = maxBlockId blockOf + 1 := by
    simp [collectBlocks]
  unfold overweightBlocks
  rw [mem_filter, mem_range, hlen, decide_eq_true_eq, Nat.lt_succ_iff]
  constructor
  · rintro ⟨hle, h⟩
    rw [getD_collectBlocks hle] at h
    exact ⟨hle, h⟩
  · rintro ⟨hle, h⟩
    rw [getD_collectBlocks hle]
    exact ⟨hle, h⟩

/-- A map that has a block for each vertex and no other keys. -/
def Total (g : MemGraph) (blockOf : BlockMap) : Prop := ∀ v, v ∈ blockOf ↔ v < g.vertexCount

/-- Some block is too heavy. -/
def Heavy (cfg : Config) (env : PartitionEnv) (g : MemGraph) (maxBlockWeight : Nat)
    (blockOf : BlockMap) : Prop :=
  ∃ b, blockWeightOriginal cfg g (bucket env blockOf b) > maxBlockWeight

section

variable (cfg : Config) (env : PartitionEnv) (kmp : KaMinPar)

/-- One round: it goes on exactly with a heavy block, and refines the map; the map is the same
without a heavy block, and two vertices are told apart when no vertex is heavy itself. -/
theorem refineRound_ok (maxBlockWeight : Nat) (h : Total g blockOf) (calls : Nat) :
    ∃ blockOf' calls' anyOver,
      refineRound cfg env kmp g maxBlockWeight blockOf calls = .ok (blockOf', calls', anyOver) ∧
      Total g blockOf' ∧ (anyOver = true ↔ Heavy cfg env g maxBlockWeight blockOf) ∧
      (anyOver = false → blockOf' = blockOf) ∧
      (anyOver = true → (∀ v < g.vertexCount, nodeWeightOriginal cfg g v ≤ maxBlockWeight) →
        (Labelling.pairs (vertexSet g) fun v => blockOf'.lookup v).card <
          (Labelling.pairs (vertexSet g) fun v => blockOf.lookup v).card) := by
  unfold refineRound
  dsimp only
  set heavy := overweightBlocks cfg g maxBlockWeight (collectBlocks env blockOf)
  have hnd : heavy.Nodup := nodup_range.filter _
  have hblocks : Blocks g blockOf (maxBlockId blockOf) := ⟨h, fun v b => le_maxBlockId⟩
  have hin : ∀ b ∈ heavy, b ≤ maxBlockId blockOf ∧ ((collectBlocks env blockOf).getD b []).Nodup ∧
      (collectBlocks env blockOf).getD b [] ≠ [] ∧
      ∀ v, v ∈ (collectBlocks env blockOf).getD b [] ↔ blockOf.lookup v = some b := by
    intro b hb
    obtain ⟨hle, hne, -⟩ := mem_overweightBlocks.1 hb
    rw [getD_collectBlocks hle]
    exact ⟨hle, nodup_bucket env blockOf b, hne, fun v => mem_bucket⟩
  have hstart : Blocks g (⟨blockOf, maxBlockId blockOf, calls⟩ : RefineState).blockOf
      (maxBlockId blockOf) := hblocks
  obtain ⟨st, hst, h', href, hsplit⟩ :=
    refineBlocks_ok cfg env kmp maxBlockWeight heavy hnd hstart hin
  have hany : (!heavy.isEmpty) = true ↔ heavy ≠ [] := by simp
  refine ⟨st.blockOf, st.calls, !heavy.isEmpty, by rw [hst]; rfl, h'.keys, ?_, fun hf => ?_,
    fun ht hlight => ?_⟩
  · rw [hany]
    constructor
    · intro hne
      obtain ⟨b, hb⟩ := exists_mem_of_ne_nil _ hne
      exact ⟨b, (mem_overweightBlocks.1 hb).2.2⟩
    · rintro ⟨b, hb⟩ hnil
      have hne : bucket env blockOf b ≠ [] := fun he => by
        rw [he] at hb
        exact Nat.not_lt_zero _ hb
      obtain ⟨v, hv⟩ := exists_mem_of_ne_nil _ hne
      have hm : b ∈ heavy := mem_overweightBlocks.2 ⟨le_maxBlockId (mem_bucket.1 hv), hne, hb⟩
      rw [hnil] at hm
      cases hm
  · have hnil : heavy = [] := by simpa using hf
    rw [hnil] at hst
    cases hst
    rfl
  · obtain ⟨u, hu, v, hv, hsame, hdiff⟩ := hsplit (hany.1 ht) fun b hb => by
      obtain ⟨hle, -, hheavy⟩ := mem_overweightBlocks.1 hb
      rw [getD_collectBlocks hle]
      refine two_le_length_of_heavy (fun v hv => hlight v ?_) hheavy
      exact (h v).1 (lookup_isSome.1 (by rw [mem_bucket.1 hv]; rfl))
    exact href.card_lt hu hv hsame hdiff

/-! ## The loop -/

/-- Without a vertex that is too heavy the rounds end without a block that is. -/
theorem refineLoop_ok {maxBlockWeight : Nat}
    (hlight : ∀ v < g.vertexCount, nodeWeightOriginal cfg g v ≤ maxBlockWeight) (fuel : Nat)
    (h : Total g blockOf) (calls : Nat)
    (hf : (Labelling.pairs (vertexSet g) fun v => blockOf.lookup v).card < fuel) :
    ∃ blockOf', refineLoop cfg env kmp g maxBlockWeight fuel blockOf calls = some (.ok blockOf') ∧
      Total g blockOf' ∧ ¬ Heavy cfg env g maxBlockWeight blockOf' := by
  induction fuel generalizing blockOf calls with
  | zero => exact absurd hf (Nat.not_lt_zero _)
  | succ fuel ih =>
    obtain ⟨blockOf', calls', anyOver, hround, h', hany, hsame, hless⟩ :=
      refineRound_ok cfg env kmp maxBlockWeight h calls
    unfold refineLoop
    rw [hround]
    dsimp only
    rcases anyOver
    · rw [if_neg Bool.false_ne_true]
      refine ⟨blockOf', rfl, h', fun hheavy => ?_⟩
      rw [hsame rfl] at hheavy
      exact Bool.false_ne_true (hany.2 hheavy)
    · rw [if_pos rfl]
      have := hless rfl hlight
      exact ih h' calls' (by omega)

/-- A vertex that is too heavy is in a heavy block in every round. -/
theorem refineLoop_endless {maxBlockWeight : Nat} {w : VId} (hw : w < g.vertexCount)
    (hheavy : nodeWeightOriginal cfg g w > maxBlockWeight) (fuel : Nat) (h : Total g blockOf)
    (calls : Nat) : refineLoop cfg env kmp g maxBlockWeight fuel blockOf calls = none := by
  induction fuel generalizing blockOf calls with
  | zero => rfl
  | succ fuel ih =>
    obtain ⟨blockOf', calls', anyOver, hround, h', hany, -, -⟩ :=
      refineRound_ok cfg env kmp maxBlockWeight h calls
    have hblock : Heavy cfg env g maxBlockWeight blockOf := by
      obtain ⟨b, hb⟩ := isSome_iff_exists.1 (lookup_isSome.2 ((h w).2 hw))
      exact ⟨b, Nat.lt_of_lt_of_le hheavy (nodeWeight_le_blockWeight (mem_bucket.2 hb))⟩
    unfold refineLoop
    rw [hround, hany.2 hblock]
    exact ih h' calls'

end

/-! ## The numbers of the result -/

/-- The numbers given so far: below the next one, and different for different blocks. -/
structure Remapped (remap : Nat → Option Nat) (nextId : Nat) : Prop where
  below : ∀ b i, remap b = some i → i < nextId
  inj : ∀ b c i, remap b = some i → remap c = some i → b = c

/-- A block without a number gets the next one. -/
theorem Remapped.insert {remap : Nat → Option Nat} {nextId : Nat} (h : Remapped remap nextId)
    (bid : Nat) : Remapped (update remap bid (some nextId)) (nextId + 1) := by
  constructor
  · intro b i hi
    by_cases he : b = bid
    · rw [he, update_self] at hi
      cases hi
      exact Nat.lt_succ_self _
    · rw [update_of_ne he] at hi
      exact Nat.lt_succ_of_lt (h.below b i hi)
  · intro b c i hb hc
    by_cases hbe : b = bid
    · by_cases hce : c = bid
      · rw [hbe, hce]
      · rw [hbe, update_self] at hb
        rw [update_of_ne hce] at hc
        cases hb
        exact absurd (h.below c _ hc) (Nat.lt_irrefl _)
    · rw [update_of_ne hbe] at hb
      by_cases hce : c = bid
      · rw [hce, update_self] at hc
        cases hc
        exact absurd (h.below b _ hb) (Nat.lt_irrefl _)
      · rw [update_of_ne hce] at hc
        exact h.inj b c i hb hc

/-- One vertex: its block has a number afterwards. -/
theorem Remapped.step {acc : (Nat → Option Nat) × Nat} (h : Remapped acc.1 acc.2)
    (blockOf : BlockMap) (v : VId) :
    Remapped (remapBlock blockOf acc v).1 (remapBlock blockOf acc v).2 ∧
      (∀ b, (acc.1 b).isSome → ((remapBlock blockOf acc v).1 b).isSome) ∧
      ∀ b, blockOf.lookup v = some b → ((remapBlock blockOf acc v).1 b).isSome := by
  unfold remapBlock
  rcases hv : blockOf.lookup v with _ | bid
  · exact ⟨h, fun b hb => hb, fun b hb => by cases hb⟩
  dsimp only
  rcases hr : acc.1 bid with _ | n
  · refine ⟨h.insert bid, fun b hb => ?_, fun b hb => ?_⟩
    · show (update acc.1 bid (some acc.2) b).isSome
      by_cases he : b = bid
      · rw [he, update_self]
        rfl
      · rw [update_of_ne he]
        exact hb
    · cases hb
      show (update acc.1 bid (some acc.2) bid).isSome
      rw [update_self]
      rfl
  · refine ⟨h, fun b hb => hb, fun b hb => ?_⟩
    cases hb
    show (acc.1 bid).isSome
    rw [hr]
    rfl

theorem Remapped.foldl (acc : (Nat → Option Nat) × Nat) (h : Remapped acc.1 acc.2)
    (blockOf : BlockMap) (l : List VId) :
    Remapped (l.foldl (remapBlock blockOf) acc).1 (l.foldl (remapBlock blockOf) acc).2 ∧
      (∀ b, (acc.1 b).isSome → ((l.foldl (remapBlock blockOf) acc).1 b).isSome) ∧
      ∀ v ∈ l, ∀ b, blockOf.lookup v = some b →
        ((l.foldl (remapBlock blockOf) acc).1 b).isSome := by
  induction l generalizing acc with
  | nil => exact ⟨h, fun b hb => hb, fun v hv => by cases hv⟩
  | cons v l ih =>
    obtain ⟨hone, hkept, hset⟩ := h.step blockOf v
    obtain ⟨hall, hmono, hdone⟩ := ih _ hone
    rw [foldl_cons]
    refine ⟨hall, fun b hb => hmono b (hkept b hb), fun u hu b hb => ?_⟩
    rcases mem_cons.1 hu with rfl | hu
    · exact hmono b (hset b hb)
    · exact hdone u hu b hb

/-- The table of the second pass, and the next number after it. -/
def remapTable (env : PartitionEnv) (blockOf : BlockMap) : (Nat → Option Nat) × Nat :=
  (env.blocks.order blockOf.keys).foldl (remapBlock blockOf) (fun _ => none, 0)

theorem Remapped.start : Remapped (fun _ => none) 0 :=
  ⟨fun b i hi => (by cases hi), fun b c i hi => (by cases hi)⟩

section

variable (env : PartitionEnv)

theorem remapped_remapTable (blockOf : BlockMap) :
    Remapped (remapTable env blockOf).1 (remapTable env blockOf).2 :=
  (Remapped.foldl (fun _ => none, 0) Remapped.start blockOf _).1

/-- Every block in use has a number. -/
theorem remapTable_some {v : VId} {b : Nat} (hv : blockOf.lookup v = some b) :
    ∃ i, (remapTable env blockOf).1 b = some i := by
  have hmem : v ∈ env.blocks.order blockOf.keys := by
    refine (env.blocks.perm _).mem_iff.2 (mem_keys.1 (lookup_isSome.1 ?_))
    rw [hv]
    rfl
  exact isSome_iff_exists.1
    ((Remapped.foldl (fun _ => none, 0) Remapped.start blockOf _).2.2 v hmem b hv)

/-- The third pass applies the table to every vertex. -/
theorem lookup_compressBlockIds (blockOf : BlockMap) (v : VId) :
    (compressBlockIds env blockOf).lookup v =
      (blockOf.lookup v).map fun b => ((remapTable env blockOf).1 b).getD (2 ^ 64 - 1) := by
  have hperm : (env.blocks.order blockOf.keys).Perm blockOf.keys := env.blocks.perm _
  have hfold := lookup_foldl (f := renumber (remapTable env blockOf).1)
    (F := fun _ o => o.map fun b => ((remapTable env blockOf).1 b).getD (2 ^ 64 - 1))
    (fun m v => by
      unfold renumber
      rcases hm : m.lookup v with _ | b
      · exact hm
      · exact lookup_insert m)
    (fun m v w hw => by
      unfold renumber
      rcases m.lookup v with _ | b
      · rfl
      · exact lookup_insert_ne hw)
    (hperm.nodup_iff.2 blockOf.keys_nodup) blockOf v
  show ((env.blocks.order blockOf.keys).foldl (renumber (remapTable env blockOf).1)
    blockOf).lookup v = _
  rw [hfold]
  split_ifs with hm
  · rfl
  · rw [lookup_eq_none.2 fun hk => hm (hperm.mem_iff.2 (mem_keys.1 hk))]
    rfl

/-- The result has the same blocks under other numbers. -/
theorem compressBlockIds_spec (blockOf : BlockMap) :
    ∃ renamed : Nat → Nat,
      (∀ v, (compressBlockIds env blockOf).lookup v = (blockOf.lookup v).map renamed) ∧
      ∀ u v b c, blockOf.lookup u = some b → blockOf.lookup v = some c → renamed b = renamed c →
        b = c := by
  refine ⟨fun b => ((remapTable env blockOf).1 b).getD (2 ^ 64 - 1),
    lookup_compressBlockIds env blockOf, fun u v b c hu hv he => ?_⟩
  obtain ⟨i, hi⟩ := remapTable_some env hu
  obtain ⟨j, hj⟩ := remapTable_some env hv
  have he : ((remapTable env blockOf).1 b).getD (2 ^ 64 - 1) =
    ((remapTable env blockOf).1 c).getD (2 ^ 64 - 1) := he
  rw [hi, hj] at he
  have hij : i = j := he
  rw [← hij] at hj
  exact (remapped_remapTable env blockOf).inj b c i hi hj

end

/-! ## The partition -/

/-- The vertices of a block. -/
def blockVertices (g : MemGraph) (blockOf : BlockMap) (b : Nat) : List VId :=
  (List.range g.vertexCount).filter fun v => blockOf.lookup v = some b

theorem blockWeight_bucket (h : Total g blockOf) (b : Nat) :
    blockWeightOriginal cfg g (bucket env blockOf b) =
      blockWeightOriginal cfg g (blockVertices g blockOf b) := by
  have hperm : (bucket env blockOf b).Perm (blockVertices g blockOf b) := by
    refine (perm_ext_iff_of_nodup (nodup_bucket env blockOf b)
      (nodup_range.filter _)).2 fun v => ?_
    rw [mem_bucket, mem_filter, mem_range, decide_eq_true_eq]
    constructor
    · exact fun hv => ⟨(h v).1 (lookup_isSome.1 (by rw [hv]; rfl)), hv⟩
    · exact fun hv => hv.2
  exact (hperm.map _).sum_eq

/-- The blocks keep their vertices under the new numbers. -/
theorem blockWeight_compressed
    (h : ∀ b, blockWeightOriginal cfg g (blockVertices g blockOf b) ≤ maxBlockWeight) (c : Nat) :
    blockWeightOriginal cfg g (blockVertices g (compressBlockIds env blockOf) c) ≤
      maxBlockWeight := by
  obtain ⟨renamed, hlookup, hinj⟩ := compressBlockIds_spec env blockOf
  by_cases hex : ∃ v b, blockOf.lookup v = some b ∧ renamed b = c
  · obtain ⟨v, b, hv, hb⟩ := hex
    have hsame : blockVertices g (compressBlockIds env blockOf) c = blockVertices g blockOf b := by
      unfold blockVertices
      refine filter_congr fun u _ => ?_
      rw [hlookup u, decide_eq_decide]
      rcases hu : blockOf.lookup u with _ | d
      · simp
      · rw [map_some, some_inj, some_inj, ← hb]
        exact ⟨fun he => hinj u v d b hu hv he, fun he => by rw [he]⟩
    rw [hsame]
    exact h b
  · have hnone : blockVertices g (compressBlockIds env blockOf) c = [] := by
      apply filter_eq_nil_iff.2
      intro u _ hu
      rw [decide_eq_true_eq, hlookup u] at hu
      obtain ⟨b, hb, he⟩ := map_eq_some_iff.1 hu
      exact hex ⟨u, b, hb, he⟩
    rw [hnone]
    exact Nat.zero_le _

theorem total_emplaceParts (g : MemGraph) (part : Nat → Nat) :
    Total g (emplaceParts (range g.vertexCount) part) := by
  intro v
  rw [← lookup_isSome, lookup_emplaceParts, ← mem_range]
  split_ifs with h
  · exact iff_of_true rfl h
  · exact iff_of_false Bool.false_ne_true h

/-- A graph with a vertex that is too heavy is never partitioned. -/
theorem absoluteWeightGraphPartition_none (cfg : Config) (env : PartitionEnv) (kmp : KaMinPar)
    {maxBlockWeight : Nat} (hmax : maxBlockWeight ≠ 0) {w : VId} (hw : w < g.vertexCount)
    (hheavy : nodeWeightOriginal cfg g w > maxBlockWeight) (enableEdgeWeight : Bool) (fuel : Nat) :
    absoluteWeightGraphPartition cfg env kmp g maxBlockWeight enableEdgeWeight true fuel = none := by
  unfold absoluteWeightGraphPartition
  dsimp only
  rw [if_neg hmax, if_neg (Nat.ne_zero_of_lt hw), if_pos rfl,
    refineLoop_endless cfg env kmp hw hheavy fuel (total_emplaceParts g _) 0]
  rfl

/-- The partition ends, with a block for every vertex and every block within the bound, if and only
if every vertex is within the bound. -/
theorem absoluteWeightGraphPartition_iff (cfg : Config) (env : PartitionEnv) (kmp : KaMinPar)
    (g : MemGraph) {maxBlockWeight : Nat} (hmax : 0 < maxBlockWeight) (enableEdgeWeight : Bool) :
    (∃ fuel blockOf, absoluteWeightGraphPartition cfg env kmp g maxBlockWeight enableEdgeWeight
        true fuel = some (.ok blockOf) ∧ (∀ v, v ∈ blockOf ↔ v < g.vertexCount) ∧
      ∀ b, blockWeightOriginal cfg g (blockVertices g blockOf b) ≤ maxBlockWeight) ↔
    ∀ v < g.vertexCount, nodeWeightOriginal cfg g v ≤ maxBlockWeight := by
  have hmax' : maxBlockWeight ≠ 0 := by omega
  constructor
  · rintro ⟨fuel, blockOf, hok, -⟩ v hv
    by_contra hheavy
    rw [absoluteWeightGraphPartition_none cfg env kmp hmax' hv (Nat.lt_of_not_le hheavy)] at hok
    cases hok
  · intro hlight
    by_cases hn : g.vertexCount = 0
    · refine ⟨0, ∅, ?_, fun v => ?_, fun b => ?_⟩
      · unfold absoluteWeightGraphPartition
        rw [if_neg hmax', if_pos hn]
      · rw [hn]
        exact iff_of_false (AList.notMem_empty v) (Nat.not_lt_zero v)
      · unfold blockVertices
        rw [hn]
        exact Nat.zero_le _
    · set input := initialInput cfg g enableEdgeWeight with hinput
      set k := (input.nodeWeights.sum + maxBlockWeight - 1) / maxBlockWeight with hk
      set start := emplaceParts (List.range g.vertexCount)
        (kmp.absolute input k (List.replicate k maxBlockWeight)) with hstart
      set fuel := (Labelling.pairs (vertexSet g) fun v => start.lookup v).card + 1
      obtain ⟨blockOf, hloop, htotal, hnot⟩ := refineLoop_ok cfg env kmp hlight fuel
        (total_emplaceParts g _ : Total g start) 0 (Nat.lt_succ_self _)
      refine ⟨fuel, compressBlockIds env blockOf, ?_, fun v => ?_, fun b => ?_⟩
      · unfold absoluteWeightGraphPartition
        dsimp only
        rw [if_neg hmax', if_neg hn, if_pos rfl, ← hinput, ← hk, ← hstart, hloop]
        rfl
      · obtain ⟨renamed, hlookup, -⟩ := compressBlockIds_spec env blockOf
        rw [← htotal v, ← AList.lookup_isSome, ← AList.lookup_isSome, hlookup, Option.isSome_map]
      · refine blockWeight_compressed (fun b => ?_) b
        have hbucket : blockWeightOriginal cfg g (bucket env blockOf b) =
            blockWeightOriginal cfg g (blockVertices g blockOf b) := blockWeight_bucket htotal b
        rw [← hbucket]
        exact Nat.le_of_not_lt fun hlt => hnot ⟨b, hlt⟩

/-- KaMinPar dealing the nodes out in turn. -/
def KaMinPar.cyclic : KaMinPar where
  absolute _ k _ i := i % k
  kway _ _ k i := i % k
  absolute_lt _ _ _ _ hk _ := Nat.mod_lt _ hk
  kway_lt _ _ _ _ hk _ := Nat.mod_lt _ hk
  kway_splits _ shm k hk hn := by
    refine ⟨0, by omega, 1, by omega, ?_⟩
    rw [Nat.zero_mod, Nat.mod_eq_of_lt hk]
    exact Nat.zero_ne_one

/-- Two neighbours and a vertex apart, blocks of weight 2. -/
theorem absoluteWeightGraphPartition_iff_three :
    let g := MemGraph.ofLists [[1], [0], []] (by decide)
    ∃ fuel blockOf, absoluteWeightGraphPartition (smallConfig false) ⟨.listed, .listed⟩ .cyclic g 2
        true true fuel = some (.ok blockOf) ∧ (∀ v, v ∈ blockOf ↔ v < 3) ∧
      ∀ b, blockWeightOriginal (smallConfig false) g (blockVertices g blockOf b) ≤ 2 :=
  (absoluteWeightGraphPartition_iff (smallConfig false) ⟨.listed, .listed⟩ .cyclic
    (MemGraph.ofLists [[1], [0], []] (by decide)) (by decide) true).2 (by decide)

/-- One edge and the bound 1: the source of the edge weighs 2, and its block is cut for ever. -/
theorem absoluteWeightGraphPartition_endless :
    ¬ ∃ fuel blockOf, absoluteWeightGraphPartition (smallConfig false) ⟨.listed, .listed⟩ .cyclic
      (MemGraph.ofLists [[1], []] (by decide)) 1 true true fuel = some blockOf := by
  rintro ⟨fuel, blockOf, h⟩
  exact Option.some_ne_none blockOf (h.symm.trans
    (absoluteWeightGraphPartition_none _ _ _ (by decide) (w := 0) (by decide) (by decide) true fuel))

end BwGraph
