import Mathlib.Logic.Function.Basic
import BwGraph.Common.Type

/-
  `vertex_index_t` (`vertex_index.cc`): for every vertex its current version (the page and the
  offset of its CSR entry), its type, its deletion mark and the head of its delta chain. A version
  is an object of its own; `id` is its address, which the publishing compare-and-swap compares.
  Latches are not state of a sequential run; the interleaving model adds them.
-/

namespace BwGraph

/-- `vertex_version_t`. -/
structure VertexVersion where
  id : Nat
  pageNo : PageNo
  offset : Nat
  deriving DecidableEq, Repr

/-- `v_item_t`. -/
structure VItem where
  cur : VertexVersion
  vertexType : VertexType
  isDelete : Bool
  deriving DecidableEq, Repr

/-- `vertex_index_t`; `nextVersion` is the next fresh address. -/
structure VertexIndex where
  size : Nat
  items : VId → VItem
  deltaHeads : VId → Option DeltaLoc
  nextVersion : Nat

/-- `prepared_vertex_version_t`. -/
structure PreparedVertexVersion where
  expected : Nat
  desired : VertexVersion
  deriving DecidableEq, Repr

namespace VertexIndex

/-- `is_giant_vertex`. -/
def isGiantVertex (vi : VertexIndex) (v : VId) : Bool :=
  decide (v < vi.size) && !(vi.items v).isDelete && decide ((vi.items v).vertexType = .giant)

/-- A deletion mark changes neither the version nor the type of an item. -/
theorem items_setDelete (items : VId → VItem) (v : VId) (mark : Bool) (w : VId) :
    (Function.update items v { items v with isDelete := mark } w).cur = (items w).cur ∧
      (Function.update items v { items v with isDelete := mark } w).vertexType =
        (items w).vertexType := by
  by_cases hw : w = v
  · subst hw
    simp
  · simp [hw]

/-- `prepare_vertex_version`: a new version object, next to the one it expects to replace. -/
def prepareVertexVersion (vi : VertexIndex) (v : VId) (pageNo : PageNo) (offset : Nat) :
    PreparedVertexVersion × VertexIndex :=
  (⟨(vi.items v).cur.id, ⟨vi.nextVersion, pageNo, offset⟩⟩,
    { vi with nextVersion := vi.nextVersion + 1 })

/-- `publish_prepared_version`; `none` when the compare-and-swap fails. -/
def publishPreparedVersion (vi : VertexIndex) (v : VId) (prepared : PreparedVertexVersion) :
    Option VertexIndex :=
  if (vi.items v).cur.id = prepared.expected then
    some { vi with items := Function.update vi.items v { vi.items v with cur := prepared.desired } }
  else none

/-- `delta_heads_[v] = head`. -/
def setDeltaHead (vi : VertexIndex) (v : VId) (head : Option DeltaLoc) : VertexIndex :=
  { vi with deltaHeads := Function.update vi.deltaHeads v head }

/-- `items[v].vertex_type = type`. -/
def setVertexType (vi : VertexIndex) (v : VId) (type : VertexType) : VertexIndex :=
  { vi with items := Function.update vi.items v { vi.items v with vertexType := type } }

end VertexIndex

end BwGraph
