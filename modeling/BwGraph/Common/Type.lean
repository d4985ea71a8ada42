import Mathlib.Algebra.Order.Ring.Nat
import Mathlib.Data.List.AList

/-
  The plain types of `common/type.h` and the settings of `common/config.h` that the storage
  engine reads. Vertex ids and page numbers are natural numbers; where a width matters (the 16-bit
  offsets and counts of a CSR page, the 30 bits of a PTV entry) the definition says so itself.
-/

namespace BwGraph

/-- `v_id_t`. -/
abbrev VId := Nat

/-- `page_no_t`. -/
abbrev PageNo := Nat

/-- `vertex_type_t`. -/
inductive VertexType where
  | normal
  | giant
  deriving DecidableEq, Repr

/-- `delta_target_t`. -/
inductive DeltaTarget where
  | vertex
  | edge
  deriving DecidableEq, Repr

/-- `delta_type_t`. -/
inductive DeltaType where
  | insert
  | delete
  deriving DecidableEq, Repr

/-- `delta_page_status_t`. -/
inductive DeltaPageStatus where
  | accumulate
  | consolidate
  | outOfDate
  deriving DecidableEq, Repr

/-- `insert_status_t`. -/
inductive InsertStatus where
  | inserted
  | exists_
  | slotFull
  | failed
  deriving DecidableEq, Repr

/-- `csr_vertex_t`: one entry of the vertex array of a CSR page; `offset` is in bytes. -/
structure CsrVertex where
  vertexId : VId
  degree : Nat
  offset : Nat
  deleteMark : Nat
  deriving DecidableEq, Repr

/-- `csr_vertex_t::is_deleted`. -/
def CsrVertex.isDeleted (v : CsrVertex) : Bool := v.deleteMark != 0

/-- `adj_map_t`. The map itself has no order; a loop over it takes one from a `HashOrder`. -/
abbrev AdjMap := AList (fun _ : VId => List VId)

/-- `delta_head_t` that is valid; `none` stands for the invalid one. -/
structure DeltaLoc where
  pageNo : PageNo
  recordIdx : Nat
  deriving DecidableEq, Repr

/-- `UINT16_MAX`. -/
def uint16Max : Nat := 65535

/-- `UINT32_MAX`, which is also `INVALID_VID`. -/
def uint32Max : Nat := 4294967295

/-- The order in which a hash container yields its keys: any permutation of them. -/
structure HashOrder where
  order : List VId → List VId
  perm : ∀ ks, (order ks).Perm ks

/-- The container that yields its keys as they are listed. -/
def HashOrder.listed : HashOrder := ⟨fun ks => ks, fun _ => List.Perm.refl _⟩

/-- The settings (`BW_GRAPH_...`) the engine reads, and the `BWGRAPH_NEIGHBOR_COMPRESS` build
option. -/
structure Config where
  pageSize : Nat
  deltaPageSize : Nat
  maxBlockNeighbor : Nat
  giantDegreeBound : Nat
  maxDeltaChainLength : Nat
  edgeSlotCount : Nat
  neighborCompress : Bool
  deriving Repr

/-- Bytes before the vertex array: the metadata and the neighbour block. -/
def Config.headerBytes (cfg : Config) : Nat := 16 + cfg.maxBlockNeighbor * 4

/-- `sizeof(csr_vertex_t)`. -/
def csrVertexBytes : Nat := 12

/-- The value of a map at a key, empty when the key is absent (`operator[]`). -/
def AdjMap.get (m : AdjMap) (v : VId) : List VId := (m.lookup v).getD []

@[simp] theorem AdjMap.get_insert_self (m : AdjMap) (v : VId) (l : List VId) :
    AdjMap.get (AList.insert v l m) v = l := by
  simp [AdjMap.get]

theorem AdjMap.get_insert_ne (m : AdjMap) {v w : VId} (l : List VId) (h : w ≠ v) :
    AdjMap.get (AList.insert v l m) w = AdjMap.get m w := by
  simp [AdjMap.get, AList.lookup_insert_ne h]

end BwGraph
