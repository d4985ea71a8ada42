import BwGraph.Common.Type
import BwGraph.Lib.Lww

/-
  `delta_record_t` and `delta_page_t` (`io_delta.h`, `io_delta.cc`) of the non-transaction build.
  A record is linked to the next older record of the same vertex by `next`; a page holds as many
  32-byte records as fit behind its 24-byte header. An edge record is one operation on the
  neighbour set of its source vertex (`DeltaRecord.op`).
-/

namespace BwGraph

/-- `delta_record_t`; `next` is `none` when `next_page_no` is the invalid one. Nothing reads
`time`. -/
structure DeltaRecord where
  target : DeltaTarget
  type : DeltaType
  first : VId
  second : VId
  time : Nat
  next : Option DeltaLoc
  deriving DecidableEq, Repr

/-- The operation an edge record stands for. -/
def DeltaRecord.op (r : DeltaRecord) : Lww.Op VId :=
  match r.type with
  | .insert => .insert r.second
  | .delete => .erase r.second

@[simp] theorem DeltaRecord.op_key (r : DeltaRecord) : r.op.key = r.second := by
  unfold DeltaRecord.op
  cases r.type <;> rfl

/-- `delta_page_t`: its records and its status. -/
structure DeltaPage where
  records : List DeltaRecord
  status : DeltaPageStatus
  deriving DecidableEq, Repr

/-- `3 * sizeof(uint64_t)`: the header of a delta page. -/
def deltaHeaderBytes : Nat := 24

/-- `sizeof(delta_record_t)` without the transaction fields. -/
def deltaRecordBytes : Nat := 32

namespace DeltaPage

/-- `reinit`: a fresh page. -/
def reinit : DeltaPage := ⟨[], .accumulate⟩

/-- `used_bytes_`. -/
def usedBytes (page : DeltaPage) : Nat := deltaHeaderBytes + page.records.length * deltaRecordBytes

/-- `insert_delta`; `none` is the result `false`. -/
def insertDelta (cfg : Config) (page : DeltaPage) (record : DeltaRecord) : Option DeltaPage :=
  if page.usedBytes + deltaRecordBytes > cfg.deltaPageSize then none
  else some { page with records := page.records ++ [record] }

/-- `clear_record_next`. -/
def clearRecordNext (page : DeltaPage) (idx : Nat) : DeltaPage :=
  { page with records := page.records.modify idx fun r => { r with next := none } }

theorem insertDelta_records {cfg : Config} {page page' : DeltaPage} {record : DeltaRecord}
    (h : page.insertDelta cfg record = some page') : page'.records = page.records ++ [record] := by
  unfold insertDelta at h
  split_ifs at h
  cases h
  rfl

end DeltaPage

end BwGraph
