import Mathlib.Data.List.Dedup
import Mathlib.Data.List.Sort
import BwGraph.Buf.BufPool
import BwGraph.Buf.PageMap
import BwGraph.Index.VertexIndex

/-
  The state of an open `bw_graph_db_t` and the store of the giant vertices (`external.cc`).
  A computation on the database is an `EStateM`: a thrown exception keeps the state it left.

  The giant store maps a vertex to the list that `deserialize_neighbors` gives for its stored
  value, which is the list it was given in ascending order.
-/

namespace BwGraph

/-- `giant_vertex_db_t`. -/
structure GiantDb where
  store : VId → Option (List VId)

namespace GiantDb

/-- `read_neighbor_clone`: empty when the key is absent. -/
def readNeighborClone (g : GiantDb) (v : VId) : List VId := (g.store v).getD []

/-- `insert_vertex` when the write succeeds. -/
def insertVertex (g : GiantDb) (v : VId) (neighbors : List VId) : GiantDb :=
  ⟨Function.update g.store v (some (neighbors.insertionSort (· ≤ ·)))⟩

end GiantDb

/-- An open database. -/
structure Db where
  vertexIndex : VertexIndex
  pageMap : PageMap
  csrPool : CsrPool
  giantDb : GiantDb

/-- Computations on the database that may throw. -/
abbrev DbM := EStateM String Db

/-- A computation on the page map, run in the database. -/
def onPageMap {α : Type} (x : EStateM String PageMap α) : DbM α := fun db =>
  match x db.pageMap with
  | .ok a pm => .ok a { db with pageMap := pm }
  | .error e pm => .error e { db with pageMap := pm }

theorem onPageMap_ok {α : Type} {x : EStateM String PageMap α} {db db' : Db} {a : α} :
    onPageMap x db = .ok a db' ↔
      ∃ pm, x db.pageMap = .ok a pm ∧ db' = { db with pageMap := pm } := by
  unfold onPageMap
  cases h : x db.pageMap with
  | ok b pm =>
    simp only [EStateM.Result.ok.injEq]
    constructor
    · rintro ⟨rfl, rfl⟩
      exact ⟨pm, ⟨rfl, rfl⟩, rfl⟩
    · rintro ⟨pm', ⟨rfl, rfl⟩, rfl⟩
      exact ⟨rfl, rfl⟩
  | error e pm => simp

/-- The location of the CSR entry of a vertex. -/
def Db.location (db : Db) (v : VId) : PageNo × Nat :=
  ((db.vertexIndex.items v).cur.pageNo, (db.vertexIndex.items v).cur.offset)

end BwGraph
