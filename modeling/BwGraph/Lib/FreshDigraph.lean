import Mathlib.Data.Finset.Prod
import BwGraph.Lib.Run

/-
  Simple directed graphs whose vertices are numbered in the order of their insertion. A number is
  never given twice, also not after its vertex is gone, and an edge goes with either of its ends.
-/

open List

/-- A directed graph: the numbers given so far, the vertices among them and the edges. -/
structure FreshDigraph where
  issued : Nat
  live : Finset Nat
  edges : Finset (Nat × Nat)
  live_lt : ∀ v ∈ live, v < issued
  edges_live : ∀ e ∈ edges, e.1 ∈ live ∧ e.2 ∈ live

namespace FreshDigraph

def empty : FreshDigraph where
  issued := 0
  live := ∅
  edges := ∅
  live_lt := fun v hv => absurd hv (Finset.notMem_empty v)
  edges_live := fun e he => absurd he (Finset.notMem_empty e)

def insertVertex (g : FreshDigraph) : FreshDigraph where
  issued := g.issued + 1
  live := insert g.issued g.live
  edges := g.edges
  live_lt := by
    intro v hv
    rcases Finset.mem_insert.1 hv with rfl | hv
    · exact Nat.lt_succ_self _
    · exact Nat.lt_succ_of_lt (g.live_lt v hv)
  edges_live := fun e he =>
    ⟨Finset.mem_insert_of_mem (g.edges_live e he).1, Finset.mem_insert_of_mem (g.edges_live e he).2⟩

def deleteVertex (g : FreshDigraph) (v : Nat) : FreshDigraph where
  issued := g.issued
  live := g.live.erase v
  edges := g.edges.filter fun e => e.1 ≠ v ∧ e.2 ≠ v
  live_lt := fun u hu => g.live_lt u (Finset.mem_of_mem_erase hu)
  edges_live := by
    intro e he
    obtain ⟨he, h1, h2⟩ := Finset.mem_filter.1 he
    obtain ⟨hl1, hl2⟩ := g.edges_live e he
    exact ⟨Finset.mem_erase.2 ⟨h1, hl1⟩, Finset.mem_erase.2 ⟨h2, hl2⟩⟩

/-- An edge needs both ends. -/
def insertEdge (g : FreshDigraph) (u v : Nat) : FreshDigraph :=
  if h : u ∈ g.live ∧ v ∈ g.live then
    { g with
      edges := insert (u, v) g.edges
      edges_live := by
        intro e he
        rcases Finset.mem_insert.1 he with rfl | he
        · exact h
        · exact g.edges_live e he }
  else g

def deleteEdge (g : FreshDigraph) (u v : Nat) : FreshDigraph where
  issued := g.issued
  live := g.live
  edges := g.edges.erase (u, v)
  live_lt := g.live_lt
  edges_live := fun e he => g.edges_live e (Finset.mem_of_mem_erase he)

inductive Op
  | insertVertex
  | deleteVertex (v : Nat)
  | insertEdge (u v : Nat)
  | deleteEdge (u v : Nat)

/-- A new number, or whether the operation was possible. -/
inductive Result
  | vertex (v : Nat)
  | done (ok : Bool)
deriving DecidableEq

def Result.vertex? : Result → Option Nat
  | vertex v => some v
  | done _ => none

/-- A deletion is possible where there is something to delete, an insertion of an edge between two
vertices that have none. -/
def apply (g : FreshDigraph) : Op → FreshDigraph × Result
  | .insertVertex => (g.insertVertex, .vertex g.issued)
  | .deleteVertex v => (g.deleteVertex v, .done (decide (v ∈ g.live)))
  | .insertEdge u v =>
    (g.insertEdge u v, .done (decide ((u ∈ g.live ∧ v ∈ g.live) ∧ (u, v) ∉ g.edges)))
  | .deleteEdge u v => (g.deleteEdge u v, .done (decide ((u, v) ∈ g.edges)))

/-- The insertions of vertices. -/
def inserts (ops : List Op) : Nat :=
  ops.countP fun op => match op with
    | .insertVertex => true
    | _ => false

variable {g : FreshDigraph}

@[simp] theorem mem_live_deleteVertex {u v : Nat} :
    u ∈ (g.deleteVertex v).live ↔ u ≠ v ∧ u ∈ g.live := Finset.mem_erase

@[simp] theorem mem_edges_deleteVertex {v a b : Nat} :
    (a, b) ∈ (g.deleteVertex v).edges ↔ (a, b) ∈ g.edges ∧ a ≠ v ∧ b ≠ v := Finset.mem_filter

@[simp] theorem live_insertEdge (g : FreshDigraph) (u v : Nat) :
    (g.insertEdge u v).live = g.live := by
  unfold insertEdge
  split_ifs <;> rfl

@[simp] theorem issued_insertEdge (g : FreshDigraph) (u v : Nat) :
    (g.insertEdge u v).issued = g.issued := by
  unfold insertEdge
  split_ifs <;> rfl

variable {u v a b : Nat}

theorem mem_edges_insertEdge :
    (a, b) ∈ (g.insertEdge u v).edges ↔
      (a, b) ∈ g.edges ∨ (u ∈ g.live ∧ v ∈ g.live) ∧ a = u ∧ b = v := by
  unfold insertEdge
  split_ifs with h
  · show (a, b) ∈ insert (u, v) g.edges ↔ _
    rw [Finset.mem_insert, Prod.mk.injEq]
    tauto
  · tauto

@[simp] theorem mem_edges_deleteEdge :
    (a, b) ∈ (g.deleteEdge u v).edges ↔ ¬(a = u ∧ b = v) ∧ (a, b) ∈ g.edges := by
  show (a, b) ∈ g.edges.erase (u, v) ↔ _
  rw [Finset.mem_erase, ne_eq, Prod.mk.injEq]

/-- The numbers of a run are consecutive. -/
theorem vertices_of_run (g : FreshDigraph) (ops : List Op) :
    (outputs apply g ops).2.filterMap Result.vertex? =
      range' g.issued (inserts ops) := by
  induction ops generalizing g with
  | nil => rfl
  | cons op ops ih =>
    show filterMap Result.vertex? ((apply g op).2 :: (outputs apply (apply g op).1 ops).2) = _
    rcases op with _ | v | ⟨u, v⟩ | ⟨u, v⟩
    · rw [filterMap_cons_some (f := Result.vertex?) (b := g.issued) rfl, ih]
      show _ = range' g.issued (countP _ _)
      rw [countP_cons_of_pos rfl, range'_succ]
      rfl
    · rw [filterMap_cons_none rfl, ih]
      rfl
    · rw [filterMap_cons_none rfl, ih]
      show range' (g.insertEdge u v).issued _ = _
      rw [issued_insertEdge]
      rfl
    · rw [filterMap_cons_none rfl, ih]
      rfl

end FreshDigraph
