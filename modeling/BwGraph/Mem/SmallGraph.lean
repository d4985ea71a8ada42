import Mathlib.Data.Finset.Sort
import Mathlib.Algebra.Order.BigOperators.Group.List
import Mathlib.Algebra.Order.Group.Nat
import BwGraph.Common.Type
import BwGraph.Lib.FreshDigraph

/-
  `tmp_small_graph_t` (`small_graph.cc`): an array of vertices that are marked when deleted, the
  set of neighbours of each, and three counters kept up to date by the operations. The sizes of the
  C++ types, of which the number of bytes in use is a sum, are parameters. The counters are size_t
  and count what is in memory, so they are taken as numbers; a vertex id is 32 bits wide.
-/

namespace BwGraph

open List Option FreshDigraph

/-- `small_vertex_t`. -/
structure SmallVertex where
  deleted : Bool
  neighbors : Finset VId
deriving DecidableEq

/-- `tmp_small_graph_t`. -/
structure SmallGraph where
  vertices : List SmallVertex
  liveVertexCount : Nat
  edgeCount : Nat
  memoryUsage : Nat
deriving DecidableEq

/-- `vertex_logical_bytes` and `edge_logical_bytes`. -/
structure LogicalBytes where
  vertex : Nat
  edge : Nat

namespace SmallGraph

/-- `tmp_small_graph_t()`. -/
def new : SmallGraph := ⟨[], 0, 0, 0⟩

/-- `insert_vertex`. -/
def insertVertex (bytes : LogicalBytes) (g : SmallGraph) : SmallGraph × VId :=
  ({ g with
      vertices := g.vertices ++ [⟨false, ∅⟩]
      liveVertexCount := g.liveVertexCount + 1
      memoryUsage := g.memoryUsage + bytes.vertex }, g.vertices.length % 2 ^ 32)

/-- One round of the loop of `delete_vertex`. -/
def eraseFrom (bytes : LogicalBytes) (v : VId) (g : SmallGraph) (src : VId) : SmallGraph :=
  match g.vertices[src]? with
  | none => g
  | some x =>
    if src = v ∨ x.deleted = true then g
    else if v ∈ x.neighbors then
      { g with
        vertices := g.vertices.set src { x with neighbors := x.neighbors.erase v }
        edgeCount := g.edgeCount - 1
        memoryUsage := g.memoryUsage - bytes.edge }
    else g

/-- `delete_vertex`. -/
def deleteVertex (bytes : LogicalBytes) (g : SmallGraph) (v : VId) : SmallGraph × Bool :=
  match g.vertices[v]? with
  | none => (g, false)
  | some x =>
    if x.deleted = true then (g, false)
    else
      let outgoing := x.neighbors.card
      let cleared : SmallGraph :=
        { vertices := g.vertices.set v ⟨true, ∅⟩
          liveVertexCount := g.liveVertexCount - 1
          edgeCount := g.edgeCount - outgoing
          memoryUsage := g.memoryUsage - outgoing * bytes.edge }
      ((List.range cleared.vertices.length).foldl (eraseFrom bytes v) cleared, true)

/-- `insert_edge`. -/
def insertEdge (bytes : LogicalBytes) (g : SmallGraph) (src dst : VId) : SmallGraph × Bool :=
  match g.vertices[src]?, g.vertices[dst]? with
  | some x, some y =>
    if x.deleted = true ∨ y.deleted = true then (g, false)
    else if dst ∈ x.neighbors then (g, false)
    else
      ({ g with
          vertices := g.vertices.set src { x with neighbors := insert dst x.neighbors }
          edgeCount := g.edgeCount + 1
          memoryUsage := g.memoryUsage + bytes.edge }, true)
  | _, _ => (g, false)

/-- `delete_edge`. -/
def deleteEdge (bytes : LogicalBytes) (g : SmallGraph) (src dst : VId) : SmallGraph × Bool :=
  match g.vertices[src]?, g.vertices[dst]? with
  | some x, some y =>
    if x.deleted = true ∨ y.deleted = true then (g, false)
    else if dst ∈ x.neighbors then
      ({ g with
          vertices := g.vertices.set src { x with neighbors := x.neighbors.erase dst }
          edgeCount := g.edgeCount - 1
          memoryUsage := g.memoryUsage - bytes.edge }, true)
    else (g, false)
  | _, _ => (g, false)

/-- `has_vertex`. -/
def hasVertex (g : SmallGraph) (v : VId) : Bool :=
  match g.vertices[v]? with
  | some x => !x.deleted
  | none => false

/-- `has_edge`. -/
def hasEdge (g : SmallGraph) (src dst : VId) : Bool :=
  match g.vertices[src]?, g.vertices[dst]? with
  | some x, some y =>
    if x.deleted = true ∨ y.deleted = true then false else decide (dst ∈ x.neighbors)
  | _, _ => false

/-- `sorted_neighbors_from_set`. -/
def sortedNeighborsFromSet (neighbors : Finset VId) : List VId := neighbors.sort (· ≤ ·)

/-- `get_neighbors`. -/
def getNeighbors (g : SmallGraph) (v : VId) : List VId :=
  match g.vertices[v]? with
  | some x => if x.deleted = true then [] else sortedNeighborsFromSet x.neighbors
  | none => []

/-- `small_graph_snapshot_t`, a vertex as its mark and its neighbours. -/
structure Snapshot where
  vertices : List (Bool × List VId)
  edgeCount : Nat
  memoryUsage : Nat

/-- `snapshot`. -/
def snapshot (g : SmallGraph) : Snapshot where
  vertices := g.vertices.map fun x => (x.deleted, sortedNeighborsFromSet x.neighbors)
  edgeCount := g.edgeCount
  memoryUsage := g.memoryUsage

/-- The mutators, with what they return. -/
def apply (bytes : LogicalBytes) (g : SmallGraph) :
    FreshDigraph.Op → SmallGraph × FreshDigraph.Result
  | .insertVertex => ((g.insertVertex bytes).1, .vertex (g.insertVertex bytes).2)
  | .deleteVertex v => ((g.deleteVertex bytes v).1, .done (g.deleteVertex bytes v).2)
  | .insertEdge src dst => ((g.insertEdge bytes src dst).1, .done (g.insertEdge bytes src dst).2)
  | .deleteEdge src dst => ((g.deleteEdge bytes src dst).1, .done (g.deleteEdge bytes src dst).2)

/-! ## The counters -/

theorem sum_map_set {α : Type} (f : α → Nat) {l : List α} {i : Nat} {x : α} (hx : l[i]? = some x)
    (y : α) : ((l.set i y).map f).sum + f x = (l.map f).sum + f y := by
  induction l generalizing i with
  | nil => exact nomatch hx
  | cons z l ih =>
    rcases i with _ | i
    · obtain rfl : z = x := some.inj hx
      simp only [set_cons_zero, map_cons, sum_cons]
      omega
    · have hrest := ih (i := i) hx
      simp only [set_cons_succ, map_cons, sum_cons]
      omega

theorem sum_live (vs : List SmallVertex) :
    (vs.map fun x => if x.deleted then 0 else 1).sum = vs.countP fun x => !x.deleted := by
  induction vs with
  | nil => rfl
  | cons x vs ih =>
    rw [map_cons, sum_cons, ih]
    rcases hx : x.deleted with _ | _
    · rw [countP_cons_of_pos (by rw [hx]; rfl)]
      exact Nat.add_comm 1 _
    · rw [countP_cons_of_neg (by rw [hx]; decide)]
      exact Nat.zero_add _

/-- The counters are what they count. -/
structure Counted (bytes : LogicalBytes) (g : SmallGraph) : Prop where
  live : g.liveVertexCount = (g.vertices.map fun x => if x.deleted then 0 else 1).sum
  edges : g.edgeCount = (g.vertices.map fun x => x.neighbors.card).sum
  memory : g.memoryUsage = bytes.vertex * g.vertices.length + bytes.edge * g.edgeCount

variable {bytes : LogicalBytes} {g : SmallGraph} {a : FreshDigraph} {u v : VId} {x y : SmallVertex}

section

variable (h : g.Counted bytes) (hx : g.vertices[u]? = some x)
include h hx

/-- One vertex changes, and the counters with it. -/
theorem Counted.set (y : SmallVertex) {live edges memory : Nat}
    (hlive : live + (if x.deleted then 0 else 1) = g.liveVertexCount + (if y.deleted then 0 else 1))
    (hedges : edges + x.neighbors.card = g.edgeCount + y.neighbors.card)
    (hmemory : memory + bytes.edge * x.neighbors.card =
      g.memoryUsage + bytes.edge * y.neighbors.card) :
    Counted bytes ⟨g.vertices.set u y, live, edges, memory⟩ := by
  have hl := sum_map_set (fun x : SmallVertex => if x.deleted then 0 else 1) hx y
  have he := sum_map_set (fun x : SmallVertex => x.neighbors.card) hx y
  have hm : bytes.edge * (edges + x.neighbors.card) =
      bytes.edge * (g.edgeCount + y.neighbors.card) := by rw [hedges]
  rw [Nat.mul_add, Nat.mul_add] at hm
  constructor
  · show live = _
    have hlive' := h.live
    dsimp only at hl ⊢
    omega
  · show edges = _
    have hedges' := h.edges
    dsimp only at he ⊢
    omega
  · show memory = bytes.vertex * (g.vertices.set u y).length + bytes.edge * edges
    rw [length_set]
    have hmemory' := h.memory
    omega

theorem Counted.card_le : x.neighbors.card ≤ g.edgeCount := by
  rw [h.edges]
  exact le_sum_of_mem (mem_map.2 ⟨x, mem_of_getElem? hx, rfl⟩)

theorem Counted.live_pos (hlive : x.deleted = false) : 0 < g.liveVertexCount := by
  rw [h.live]
  have hone : 1 ∈ g.vertices.map fun x => if x.deleted then 0 else 1 :=
    mem_map.2 ⟨x, mem_of_getElem? hx, by rw [hlive]; rfl⟩
  exact le_sum_of_mem hone

end

theorem Counted.edge_le (h : g.Counted bytes) {n : Nat} (hn : n ≤ g.edgeCount) :
    bytes.edge * n ≤ g.memoryUsage := by
  have hmul := Nat.mul_le_mul_left bytes.edge hn
  have hmemory := h.memory
  omega

theorem counted_new : Counted bytes new := ⟨rfl, rfl, rfl⟩

theorem Counted.insertVertex (h : g.Counted bytes) : (g.insertVertex bytes).1.Counted bytes := by
  obtain ⟨hlive, hedges, hmemory⟩ := h
  constructor
  · show g.liveVertexCount + 1 = ((g.vertices ++ [_]).map _).sum
    rw [map_append, sum_append, hlive]
    rfl
  · show g.edgeCount = ((g.vertices ++ [_]).map _).sum
    rw [map_append, sum_append, hedges]
    rfl
  · show g.memoryUsage + bytes.vertex =
      bytes.vertex * (g.vertices ++ [_]).length + bytes.edge * g.edgeCount
    rw [length_append, hmemory, Nat.mul_add]
    show _ = _ + bytes.vertex * 1 + _
    omega

/-! ## The loop of `delete_vertex` -/

/-- What is left of a vertex after the loop. -/
def eraseOne (v : VId) (u : VId) (x : SmallVertex) : SmallVertex :=
  if u = v ∨ x.deleted = true then x else { x with neighbors := x.neighbors.erase v }

theorem getElem?_eraseFrom (v src u : VId) :
    (g.eraseFrom bytes v src).vertices[u]? =
      if u = src then (g.vertices[u]?).map (eraseOne v u) else g.vertices[u]? := by
  unfold eraseFrom eraseOne
  rcases hx : g.vertices[src]? with _ | x
  · split_ifs with hu
    · rw [hu, hx]
      rfl
    · rfl
  · dsimp only
    by_cases hu : u = src
    · subst hu
      have hlt := (List.getElem?_eq_some_iff.1 hx).1
      rw [if_pos rfl, hx, map_some]
      split_ifs with hskip hmem
      · exact hx
      · exact List.getElem?_set_self hlt
      · rw [Finset.erase_eq_of_notMem hmem]
        exact hx
    · rw [if_neg hu]
      split_ifs
      · rfl
      · exact List.getElem?_set_ne (Ne.symm hu)
      · rfl

theorem Counted.eraseFrom (h : g.Counted bytes) (v src : VId) :
    (g.eraseFrom bytes v src).Counted bytes := by
  unfold SmallGraph.eraseFrom
  rcases hx : g.vertices[src]? with _ | x
  · exact h
  · dsimp only
    split_ifs with hskip hmem
    · exact h
    · have hcard := Finset.card_erase_add_one hmem
      have hle := h.card_le hx
      have hone := h.edge_le (n := 1) (by omega)
      refine h.set hx _ rfl ?_ ?_
      · dsimp only
        omega
      · dsimp only
        rw [← hcard, Nat.mul_add]
        omega
    · exact h

theorem length_eraseFrom (v src : VId) :
    (g.eraseFrom bytes v src).vertices.length = g.vertices.length := by
  unfold eraseFrom
  rcases g.vertices[src]? with _ | x
  · rfl
  · dsimp only
    split_ifs
    · rfl
    · exact length_set
    · rfl

theorem eraseOne_eraseOne (v u : VId) (x : SmallVertex) :
    eraseOne v u (eraseOne v u x) = eraseOne v u x := by
  unfold eraseOne
  split_ifs
  · rfl
  · simp only [Finset.erase_idem]

/-- The whole loop. -/
theorem eraseFrom_foldl (v : VId) (l : List VId) (h : g.Counted bytes) :
    (l.foldl (SmallGraph.eraseFrom bytes v) g).Counted bytes ∧
      (l.foldl (SmallGraph.eraseFrom bytes v) g).vertices.length = g.vertices.length ∧
      ∀ u, (l.foldl (SmallGraph.eraseFrom bytes v) g).vertices[u]? =
        if u ∈ l then (g.vertices[u]?).map (eraseOne v u) else g.vertices[u]? := by
  induction l generalizing g with
  | nil => exact ⟨h, rfl, fun u => rfl⟩
  | cons src l ih =>
    obtain ⟨hcounted, hlength, hget⟩ := ih (h.eraseFrom v src)
    refine ⟨hcounted, hlength.trans (length_eraseFrom v src), fun u => ?_⟩
    rw [foldl_cons, hget, getElem?_eraseFrom]
    by_cases hu : u = src
    · subst hu
      rw [if_pos rfl, if_pos mem_cons_self, Option.map_map]
      split_ifs
      · congr 1
        funext x
        exact eraseOne_eraseOne v u x
      · rfl
    · simp only [hu, if_false, mem_cons, false_or]

/-! ## The graph behind the array -/

/-- The array holds the graph: the unmarked vertices are the live ones, the sets are its edges. -/
structure Represents (g : SmallGraph) (a : FreshDigraph) : Prop where
  issued : g.vertices.length = a.issued
  live : ∀ v x, g.vertices[v]? = some x → (x.deleted = false ↔ v ∈ a.live)
  edges : ∀ v x, g.vertices[v]? = some x → ∀ w, w ∈ x.neighbors ↔ (v, w) ∈ a.edges

theorem represents_new : new.Represents empty :=
  ⟨rfl, fun _ _ hx => (nomatch hx), fun _ _ hx => (nomatch hx)⟩

namespace Represents

variable (h : g.Represents a)
include h

/-- A live vertex has an entry. -/
theorem entry (hv : v ∈ a.live) : ∃ x, g.vertices[v]? = some x ∧ x.deleted = false := by
  have hlt := a.live_lt v hv
  rw [← h.issued] at hlt
  exact ⟨_, getElem?_eq_getElem hlt, (h.live v _ (getElem?_eq_getElem hlt)).2 hv⟩

theorem hasVertex_iff : g.hasVertex v = true ↔ v ∈ a.live := by
  unfold SmallGraph.hasVertex
  rcases hx : g.vertices[v]? with _ | x
  · refine ⟨fun hf => (nomatch hf), fun hv => ?_⟩
    obtain ⟨x, hx', -⟩ := h.entry hv
    rw [hx] at hx'
    exact nomatch hx'
  · rw [← h.live v x hx, Bool.not_eq_true']

theorem hasEdge_iff_mem : g.hasEdge u v = true ↔ (u, v) ∈ a.edges := by
  unfold SmallGraph.hasEdge
  constructor
  · intro hedge
    rcases hx : g.vertices[u]? with _ | x
    · rw [hx] at hedge
      exact nomatch hedge
    rcases hy : g.vertices[v]? with _ | y
    · rw [hx, hy] at hedge
      exact nomatch hedge
    rw [hx, hy] at hedge
    dsimp only at hedge
    split_ifs at hedge
    exact (h.edges u x hx v).1 (of_decide_eq_true hedge)
  · intro hedge
    obtain ⟨hu, hv⟩ := a.edges_live _ hedge
    obtain ⟨x, hx, hxl⟩ := h.entry hu
    obtain ⟨y, hy, hyl⟩ := h.entry hv
    rw [hx, hy]
    dsimp only
    rw [if_neg (by rw [hxl, hyl]; decide)]
    exact decide_eq_true ((h.edges u x hx v).2 hedge)

/-- A marked vertex has no neighbours. -/
theorem neighbors_of_deleted (hx : g.vertices[v]? = some x) (hd : x.deleted = true) :
    x.neighbors = ∅ := by
  refine Finset.eq_empty_of_forall_notMem fun w hw => ?_
  have hlive := (a.edges_live _ ((h.edges v x hx w).1 hw)).1
  rw [← h.live v x hx, hd] at hlive
  exact nomatch hlive

theorem insertVertex : (g.insertVertex bytes).1.Represents a.insertVertex := by
  have hget : ∀ v x, (g.vertices ++ [⟨false, ∅⟩])[v]? = some x →
      g.vertices[v]? = some x ∨ (v = a.issued ∧ x = ⟨false, ∅⟩) := by
    intro v x hx
    rw [List.getElem?_append] at hx
    split_ifs at hx with hlt
    · exact .inl hx
    · obtain ⟨hlt', he⟩ := List.getElem?_eq_some_iff.1 hx
      have hone : v - g.vertices.length < 1 := hlt'
      refine .inr ⟨?_, ?_⟩
      · rw [← h.issued]
        omega
      · rw [← he, List.getElem_singleton]
  have hold : ∀ w ∈ a.live, w ≠ a.issued := fun w hw => Nat.ne_of_lt (a.live_lt w hw)
  refine ⟨?_, fun v x hx => ?_, fun v x hx w => ?_⟩
  · show (g.vertices ++ [_]).length = a.issued + 1
    rw [List.length_append, h.issued]
    rfl
  · show _ ↔ v ∈ insert a.issued a.live
    rw [Finset.mem_insert]
    rcases hget v x hx with hx | ⟨rfl, rfl⟩
    · have hlt := (List.getElem?_eq_some_iff.1 hx).1
      rw [h.issued] at hlt
      have hne : v ≠ a.issued := by omega
      simp only [hne, false_or]
      exact h.live v x hx
    · exact iff_of_true rfl (.inl rfl)
  · show _ ↔ (v, w) ∈ a.edges
    rcases hget v x hx with hx | ⟨rfl, rfl⟩
    · exact h.edges v x hx w
    · refine iff_of_false (Finset.notMem_empty w) fun hedge => ?_
      exact hold _ (a.edges_live _ hedge).1 rfl

variable {a' : FreshDigraph}

/-- The neighbours of one vertex change. -/
theorem setNeighbors (hx : g.vertices[u]? = some x) (hissued : a'.issued = a.issued)
    (hlive : a'.live = a.live) {neighbors : Finset VId}
    (hself : ∀ w, w ∈ neighbors ↔ (u, w) ∈ a'.edges)
    (hother : ∀ v, v ≠ u → ∀ w, (v, w) ∈ a'.edges ↔ (v, w) ∈ a.edges) (m n : Nat) :
    Represents ⟨g.vertices.set u ⟨x.deleted, neighbors⟩, g.liveVertexCount, m, n⟩ a' := by
  have hlt := (List.getElem?_eq_some_iff.1 hx).1
  refine ⟨?_, fun v y hy => ?_, fun v y hy w => ?_⟩
  · rw [hissued, ← h.issued]
    exact List.length_set
  · rw [hlive]
    by_cases hv : v = u
    · subst hv
      obtain rfl := some.inj ((List.getElem?_set_self hlt).symm.trans hy)
      exact h.live v x hx
    · exact h.live v y ((List.getElem?_set_ne (Ne.symm hv)).symm.trans hy)
  · by_cases hv : v = u
    · subst hv
      obtain rfl := some.inj ((List.getElem?_set_self hlt).symm.trans hy)
      exact hself w
    · rw [hother v hv]
      exact h.edges v y ((List.getElem?_set_ne (Ne.symm hv)).symm.trans hy) w

theorem congr (hissued : a'.issued = a.issued) (hlive : ∀ v, v ∈ a'.live ↔ v ∈ a.live)
    (hedges : ∀ v w, (v, w) ∈ a'.edges ↔ (v, w) ∈ a.edges) : g.Represents a' := by
  refine ⟨h.issued.trans hissued.symm, fun v x hx => ?_, fun v x hx w => ?_⟩
  · rw [hlive]
    exact h.live v x hx
  · rw [hedges]
    exact h.edges v x hx w

/-- The marked vertex has no set, and every other set loses it. -/
theorem deleteVertex (hx : g.vertices[v]? = some x) {vs : List SmallVertex}
    (hlength : vs.length = g.vertices.length)
    (hget : ∀ u, vs[u]? = ((g.vertices.set v ⟨true, ∅⟩)[u]?).map (eraseOne v u)) (l m n : Nat) :
    Represents ⟨vs, l, m, n⟩ (a.deleteVertex v) := by
  have hlt := (List.getElem?_eq_some_iff.1 hx).1
  have hself : ∀ y, vs[v]? = some y → y = ⟨true, ∅⟩ := by
    intro y hy
    rw [hget, List.getElem?_set_self hlt, map_some, eraseOne, if_pos (.inl rfl)] at hy
    exact (some.inj hy).symm
  have hother : ∀ u, u ≠ v → ∀ y, vs[u]? = some y → ∃ z, g.vertices[u]? = some z ∧
      y.deleted = z.deleted ∧ ∀ w, w ∈ y.neighbors ↔ w ≠ v ∧ w ∈ z.neighbors := by
    intro u hu y hy
    rw [hget, List.getElem?_set_ne (Ne.symm hu)] at hy
    obtain ⟨z, hz, rfl⟩ := map_eq_some_iff.1 hy
    refine ⟨z, hz, ?_⟩
    unfold eraseOne
    split_ifs with hskip
    · -- a marked vertex is skipped: its set is empty
      have hnone := h.neighbors_of_deleted hz (hskip.resolve_left hu)
      refine ⟨rfl, fun w => ?_⟩
      rw [hnone]
      exact iff_of_false (Finset.notMem_empty w) fun hw => Finset.notMem_empty w hw.2
    · exact ⟨rfl, fun w => Finset.mem_erase⟩
  refine ⟨hlength.trans h.issued, fun u y hy => ?_, fun u y hy w => ?_⟩
  · rw [mem_live_deleteVertex]
    by_cases hu : u = v
    · subst hu
      rw [hself y hy]
      exact iff_of_false (fun hf => nomatch hf) fun hf => hf.1 rfl
    · obtain ⟨z, hz, hdel, -⟩ := hother u hu y hy
      rw [hdel, h.live u z hz, and_iff_right hu]
  · rw [mem_edges_deleteVertex]
    by_cases hu : u = v
    · subst hu
      rw [hself y hy]
      exact iff_of_false (Finset.notMem_empty w) fun hf => hf.2.1 rfl
    · obtain ⟨z, hz, -, hmem⟩ := hother u hu y hy
      rw [hmem, h.edges u z hz]
      tauto

end Represents

/-! ## The mutators -/

/-- What a mutator has to do: the graph changes as it should, the counters stay right and the
answer is the one of the graph. -/
def Follows (bytes : LogicalBytes) (g : SmallGraph × Bool) (a : FreshDigraph) (ok : Prop) : Prop :=
  g.1.Represents a ∧ g.1.Counted bytes ∧ (g.2 = true ↔ ok)

section

variable (h : g.Represents a) (hc : g.Counted bytes)
include h hc

theorem deleteVertex_follows (v : VId) :
    Follows bytes (g.deleteVertex bytes v) (a.deleteVertex v) (v ∈ a.live) := by
  have hkeep : v ∉ a.live → g.Represents (a.deleteVertex v) := by
    intro hv
    refine h.congr rfl (fun u => ?_) fun u w => ?_
    · rw [mem_live_deleteVertex]
      exact and_iff_right_of_imp fun hu he => hv (he ▸ hu)
    · rw [mem_edges_deleteVertex]
      refine and_iff_left_of_imp fun hedge => ⟨fun he => hv ?_, fun he => hv ?_⟩
      · exact he ▸ (a.edges_live _ hedge).1
      · exact he ▸ (a.edges_live _ hedge).2
  unfold SmallGraph.deleteVertex
  rcases hx : g.vertices[v]? with _ | x
  · have hv : v ∉ a.live := fun hv => by
      obtain ⟨x, hx', -⟩ := h.entry hv
      rw [hx] at hx'
      exact nomatch hx'
    exact ⟨hkeep hv, hc, iff_of_false Bool.false_ne_true hv⟩
  dsimp only
  split_ifs with hd
  · have hv : v ∉ a.live := fun hv => by
      rw [(h.live v x hx).2 hv] at hd
      exact nomatch hd
    exact ⟨hkeep hv, hc, iff_of_false Bool.false_ne_true hv⟩
  have hd := Bool.eq_false_iff.2 hd
  -- the own set goes at once, with its edges
  have hcleared : Counted bytes ⟨g.vertices.set v ⟨true, ∅⟩, g.liveVertexCount - 1,
      g.edgeCount - x.neighbors.card, g.memoryUsage - x.neighbors.card * bytes.edge⟩ := by
    have hpos := hc.live_pos hx hd
    have hcard := hc.card_le hx
    have hbytes := hc.edge_le hcard
    refine hc.set hx _ ?_ ?_ ?_
    · rw [hd]
      show g.liveVertexCount - 1 + 1 = g.liveVertexCount + 0
      omega
    · show g.edgeCount - x.neighbors.card + x.neighbors.card = g.edgeCount + 0
      omega
    · rw [Nat.mul_comm x.neighbors.card]
      show _ = g.memoryUsage + bytes.edge * 0
      omega
  obtain ⟨hcounted, hlength, hget⟩ :=
    eraseFrom_foldl v (range (g.vertices.set v ⟨true, ∅⟩).length) hcleared
  have hlength := hlength.trans length_set
  refine ⟨h.deleteVertex hx hlength (fun u => ?_) _ _ _, hcounted,
    iff_of_true rfl ((h.live v x hx).1 hd)⟩
  refine (hget u).trans ?_
  split_ifs with hu
  · rfl
  · rw [mem_range, not_lt] at hu
    rw [getElem?_eq_none hu]
    rfl

theorem insertEdge_follows (u v : VId) :
    Follows bytes (g.insertEdge bytes u v) (a.insertEdge u v)
      ((u ∈ a.live ∧ v ∈ a.live) ∧ (u, v) ∉ a.edges) := by
  have hkeep : ¬((u ∈ a.live ∧ v ∈ a.live) ∧ (u, v) ∉ a.edges) →
      Follows bytes (g, false) (a.insertEdge u v)
        ((u ∈ a.live ∧ v ∈ a.live) ∧ (u, v) ∉ a.edges) := by
    intro hno
    refine ⟨h.congr (issued_insertEdge a u v)
      (fun w => by rw [live_insertEdge]) fun b c => ?_, hc,
      iff_of_false Bool.false_ne_true hno⟩
    rw [mem_edges_insertEdge]
    refine or_iff_left_of_imp fun hnew => ?_
    obtain ⟨hends, rfl, rfl⟩ := hnew
    exact Classical.byContradiction fun hedge => hno ⟨hends, hedge⟩
  unfold SmallGraph.insertEdge
  rcases hx : g.vertices[u]? with _ | x
  · refine hkeep fun hok => ?_
    obtain ⟨x, hx', -⟩ := h.entry hok.1.1
    rw [hx] at hx'
    exact nomatch hx'
  rcases hy : g.vertices[v]? with _ | y
  · refine hkeep fun hok => ?_
    obtain ⟨y, hy', -⟩ := h.entry hok.1.2
    rw [hy] at hy'
    exact nomatch hy'
  dsimp only
  split_ifs with hd hmem
  · refine hkeep fun hok => ?_
    rw [(h.live u x hx).2 hok.1.1, (h.live v y hy).2 hok.1.2] at hd
    exact absurd hd (by decide)
  · exact hkeep fun hok => hok.2 ((h.edges u x hx v).1 hmem)
  · rw [not_or, Bool.not_eq_true, Bool.not_eq_true] at hd
    have hends : u ∈ a.live ∧ v ∈ a.live := ⟨(h.live u x hx).1 hd.1, (h.live v y hy).1 hd.2⟩
    refine ⟨h.setNeighbors hx (issued_insertEdge a u v)
      (live_insertEdge a u v) (fun w => ?_) (fun b hb w => ?_) _ _,
      hc.set hx _ rfl ?_ ?_, iff_of_true rfl ⟨hends, fun he => hmem ((h.edges u x hx v).2 he)⟩⟩
    · rw [mem_edges_insertEdge, Finset.mem_insert, h.edges u x hx w]
      tauto
    · rw [mem_edges_insertEdge]
      tauto
    · rw [Finset.card_insert_of_notMem hmem]
      omega
    · rw [Finset.card_insert_of_notMem hmem, Nat.mul_add]
      omega

theorem deleteEdge_follows (u v : VId) :
    Follows bytes (g.deleteEdge bytes u v) (a.deleteEdge u v) ((u, v) ∈ a.edges) := by
  have hkeep : (u, v) ∉ a.edges →
      Follows bytes (g, false) (a.deleteEdge u v) ((u, v) ∈ a.edges) := by
    intro hno
    refine ⟨h.congr rfl (fun _ => Iff.rfl) fun b c => ?_, hc,
      iff_of_false Bool.false_ne_true hno⟩
    rw [mem_edges_deleteEdge]
    refine and_iff_right_of_imp fun hedge he => hno ?_
    obtain ⟨rfl, rfl⟩ := he
    exact hedge
  unfold SmallGraph.deleteEdge
  rcases hx : g.vertices[u]? with _ | x
  · refine hkeep fun hedge => ?_
    obtain ⟨x, hx', -⟩ := h.entry (a.edges_live _ hedge).1
    rw [hx] at hx'
    exact nomatch hx'
  rcases hy : g.vertices[v]? with _ | y
  · refine hkeep fun hedge => ?_
    obtain ⟨y, hy', -⟩ := h.entry (a.edges_live _ hedge).2
    rw [hy] at hy'
    exact nomatch hy'
  dsimp only
  split_ifs with hd hmem
  · refine hkeep fun hedge => ?_
    obtain ⟨hu, hv⟩ := a.edges_live _ hedge
    rw [(h.live u x hx).2 hu, (h.live v y hy).2 hv] at hd
    exact absurd hd (by decide)
  · have hcard := Finset.card_erase_add_one hmem
    have hle := hc.card_le hx
    have hone := hc.edge_le (n := 1) (by omega)
    have hissued : (a.deleteEdge u v).issued = a.issued := rfl
    refine ⟨h.setNeighbors hx hissued rfl (fun w => ?_) (fun b hb w => ?_) _ _,
      hc.set hx _ rfl ?_ ?_, iff_of_true rfl ((h.edges u x hx v).1 hmem)⟩
    · rw [mem_edges_deleteEdge, Finset.mem_erase, h.edges u x hx w]
      tauto
    · rw [mem_edges_deleteEdge]
      tauto
    · dsimp only
      omega
    · dsimp only
      rw [← hcard, Nat.mul_add]
      omega
  · exact hkeep fun hedge => hmem ((h.edges u x hx v).2 hedge)

end

/-! ## Runs -/

/-- A state in a run, with the operations to come. -/
def Matches (bytes : LogicalBytes) (g : SmallGraph) (a : FreshDigraph)
    (ops : List FreshDigraph.Op) : Prop :=
  g.Represents a ∧ g.Counted bytes ∧ g.vertices.length + FreshDigraph.inserts ops < 2 ^ 32

variable {ops : List FreshDigraph.Op}

theorem Follows.matches {r : SmallGraph × Bool} {a' : FreshDigraph} {ok : Prop} [Decidable ok]
    (h : Follows bytes r a' ok) (hissued : a'.issued = g.vertices.length)
    (hroom : g.vertices.length + inserts ops < 2 ^ 32) :
    Matches bytes r.1 a' ops ∧ FreshDigraph.Result.done r.2 = .done (decide ok) := by
  obtain ⟨h', hc', hok⟩ := h
  refine ⟨⟨h', hc', ?_⟩, congrArg _ (Bool.eq_iff_iff.2 (hok.trans decide_eq_true_iff.symm))⟩
  rw [h'.issued, hissued]
  exact hroom

/-- One operation on the array is the one on the graph. -/
theorem Matches.step {op : FreshDigraph.Op} (h : Matches bytes g a (op :: ops)) :
    Matches bytes (g.apply bytes op).1 (a.apply op).1 ops ∧
      (g.apply bytes op).2 = (a.apply op).2 := by
  obtain ⟨hrep, hcounted, hroom⟩ := h
  rcases op with _ | v | ⟨u, v⟩ | ⟨u, v⟩
  · have hroom : g.vertices.length + (inserts ops + 1) < 2 ^ 32 := by
      unfold inserts at hroom
      rwa [countP_cons_of_pos rfl] at hroom
    refine ⟨⟨hrep.insertVertex, hcounted.insertVertex, ?_⟩, ?_⟩
    · show (g.vertices ++ [_]).length + _ < 2 ^ 32
      rw [length_append]
      show g.vertices.length + 1 + _ < _
      omega
    · show FreshDigraph.Result.vertex (g.vertices.length % 2 ^ 32) = .vertex a.issued
      rw [Nat.mod_eq_of_lt (by omega), hrep.issued]
  · exact (deleteVertex_follows hrep hcounted v).matches hrep.issued.symm hroom
  · refine (insertEdge_follows hrep hcounted u v).matches ?_ hroom
    rw [issued_insertEdge, hrep.issued]
  · exact (deleteEdge_follows hrep hcounted u v).matches hrep.issued.symm hroom

/-- What the queries of a graph say, in terms of its array and of the graph it stands for. -/
structure Sound (bytes : LogicalBytes) (g : SmallGraph) (a : FreshDigraph) : Prop where
  hasVertex_iff : ∀ v, g.hasVertex v = true ↔ v ∈ a.live
  hasEdge_iff : ∀ u v, g.hasEdge u v = true ↔ (u, v) ∈ a.edges
  neighbors_live : ∀ (v : VId) (x : SmallVertex), g.vertices[v]? = some x →
    ∀ w ∈ x.neighbors, g.hasVertex w = true
  deleted_empty : ∀ (v : VId) (x : SmallVertex), g.vertices[v]? = some x →
    x.deleted = true → x.neighbors = ∅
  edge_count : g.edgeCount = (g.vertices.map fun x => x.neighbors.card).sum
  live_vertex_count : g.liveVertexCount = g.vertices.countP fun x => !x.deleted
  memory_usage : g.memoryUsage = bytes.vertex * a.issued + bytes.edge * g.edgeCount
  snapshot_vertices : g.snapshot.vertices.length = a.issued ∧
    ∀ (v : VId) (x : SmallVertex), g.vertices[v]? = some x →
      ∃ l : List VId, g.snapshot.vertices[v]? = some (x.deleted, l) ∧ l.Pairwise (· < ·) ∧
        ∀ w, w ∈ l ↔ w ∈ x.neighbors
  snapshot_counts : g.snapshot.edgeCount = g.edgeCount ∧ g.snapshot.memoryUsage = g.memoryUsage

theorem Matches.sound (h : Matches bytes g a ops) : g.Sound bytes a := by
  obtain ⟨hrep, hcounted, -⟩ := h
  refine ⟨fun v => hrep.hasVertex_iff, fun u v => hrep.hasEdge_iff_mem, fun v x hx w hw => ?_,
    fun v x hx hd => hrep.neighbors_of_deleted hx hd, hcounted.edges, ?_, ?_,
    ⟨?_, fun v x hx => ⟨_, ?_, (Finset.sortedLT_sort _).pairwise, fun w => Finset.mem_sort _⟩⟩,
    rfl, rfl⟩
  · exact hrep.hasVertex_iff.2 (a.edges_live _ ((hrep.edges v x hx w).1 hw)).2
  · rw [hcounted.live, sum_live]
  · rw [hcounted.memory, hrep.issued]
  · exact length_map _ |>.trans hrep.issued
  · show (g.vertices.map _)[v]? = _
    rw [getElem?_map, hx]
    rfl

/-- Every run from an empty graph answers as the graph it stands for, the numbers of the vertices
are `0, 1, …`, and the queries are right in the end. -/
theorem smallGraph_sound (bytes : LogicalBytes) (ops : List FreshDigraph.Op)
    (h : FreshDigraph.inserts ops < 2 ^ 32) :
    (outputs (apply bytes) new ops).2 = (outputs FreshDigraph.apply .empty ops).2 ∧
    (outputs (apply bytes) new ops).2.filterMap FreshDigraph.Result.vertex? =
      List.range (FreshDigraph.inserts ops) ∧
    Sound bytes (outputs (apply bytes) new ops).1 (outputs FreshDigraph.apply .empty ops).1 := by
  have hstart : Matches bytes new FreshDigraph.empty ops :=
    ⟨represents_new, counted_new, by show 0 + _ < _; omega⟩
  obtain ⟨hend, hout⟩ := outputs_sim (R := Matches bytes) (fun _ _ _ _ h => h.step) hstart
  refine ⟨hout, ?_, hend.sound⟩
  rw [hout, FreshDigraph.vertices_of_run]
  exact (range_eq_range').symm

/-- A vertex with a loop and an edge each way goes, and its number is not given again. -/
theorem smallGraph_sound_loop :
    let ops : List FreshDigraph.Op := [.insertVertex, .insertVertex, .insertEdge 0 0,
      .insertEdge 0 1, .insertEdge 1 0, .deleteVertex 0, .insertVertex, .insertEdge 1 2]
    (outputs (apply ⟨40, 12⟩) new ops).2 = [.vertex 0, .vertex 1, .done true, .done true,
      .done true, .done true, .vertex 2, .done true] ∧
    (outputs (apply ⟨40, 12⟩) new ops).1.memoryUsage = 3 * 40 + 12 ∧
    Sound ⟨40, 12⟩ (outputs (apply ⟨40, 12⟩) new ops).1
      (outputs FreshDigraph.apply .empty ops).1 :=
  ⟨by decide +kernel, by decide +kernel, (smallGraph_sound _ _ (by decide)).2.2⟩

end SmallGraph

end BwGraph
