import Mathlib.Data.Finset.Sort
import Mathlib.Data.List.Lex
import Mathlib.Data.Nat.Digits.Defs
import BwGraph.Db.GiantCodec
import BwGraph.Db.PropertyStore
import BwGraph.Lib.Lww

/-
  Pending changes of giant vertices (`giant_vertex_db_t`, `external.cc`). A change of the list of a
  vertex is a record of its own, under the key "d:", the vertex and a timestamp, both in decimal.
  A read scans the records of the vertex, sorts them by time and applies them to the stored list;
  `consolidate_vertex_deltas` stores the result and deletes the records.

  The prefix of a vertex starts its own keys and no other ones, whatever the number of digits, so
  the store holds one log of changes for each vertex (`Represents`). The key of a change is its
  timestamp, though: a second change of the vertex at the same time replaces the first, and a
  change dated back is applied before those that were issued earlier. `Lands` says when neither
  is noticed. It is exact for each change (`lands_iff`), and in every run whose changes all land a
  read returns the stored list with all changes in the order in which they were issued
  (`readNeighborsWithDeltasApplied_run`).

  RocksDB is an ordered map of byte strings, writes to it succeed. The read cache of the store is
  left out: these reads go to RocksDB.
-/

namespace BwGraph

open Function List Lww OrdMap

/-! ## Keys -/

/-- `std::to_string`. -/
def decimal (n : Nat) : List Nat :=
  if n = 0 then [48] else (Nat.digits 10 n).reverse.map fun d => 48 + d

/-- `make_vertex_key`. -/
def makeVertexKey (v : VId) : List Nat := 118 :: 58 :: decimal v

/-- The prefix of the keys of the changes of a vertex. -/
def deltaPrefix (v : VId) : List Nat := 100 :: 58 :: (decimal v ++ [58])

/-- `make_delta_key`. -/
def makeDeltaKey (v : VId) (timestamp : Nat) : List Nat :=
  100 :: 58 :: (decimal v ++ 58 :: decimal timestamp)

/-! ## Records -/

/-- `ADD_NEIGHBOR`. -/
def addNeighborCode : Nat := 1

/-- `REMOVE_NEIGHBOR`. -/
def removeNeighborCode : Nat := 2

/-- `neighbor_delta_t`. -/
structure NeighborDelta where
  operation : Nat
  neighborId : VId
  timestamp : Nat
  deriving DecidableEq

/-- `serialize_delta`. -/
def serializeDelta (delta : NeighborDelta) : List Nat :=
  delta.operation :: (wordWrite delta.neighborId ++ longWrite delta.timestamp)

/-- `deserialize_delta`. -/
def deserializeDelta (data : List Nat) : Except String NeighborDelta :=
  if data.length < 1 + 4 + 8 then .error "Invalid delta data size"
  else .ok ⟨data.headD 0, wordRead (data.drop 1), longRead (data.drop 5)⟩

/-- `std::sort` by timestamp: equal ones may come in any order. -/
structure TimeSort where
  sort : List NeighborDelta → List NeighborDelta
  perm : ∀ deltas, (sort deltas).Perm deltas
  sorted : ∀ deltas, (sort deltas).Pairwise fun a b => a.timestamp ≤ b.timestamp

/-- A stable sort by timestamp. -/
def TimeSort.stable : TimeSort where
  sort := fun deltas => deltas.mergeSort fun a b => decide (a.timestamp ≤ b.timestamp)
  perm := fun deltas => deltas.mergeSort_perm _
  sorted := fun deltas => by
    refine (List.pairwise_mergeSort (fun a b c hab hbc => ?_) (fun a b => ?_) deltas).imp fun h => ?_
    · rw [decide_eq_true_eq] at *
      exact Nat.le_trans hab hbc
    · rw [Bool.or_eq_true, decide_eq_true_eq, decide_eq_true_eq]
      exact Nat.le_total _ _
    · exact of_decide_eq_true h

/-! ## The store -/

/-- The RocksDB of the giant store. -/
abbrev GiantRecords := OrdMap (List Nat) (List Nat)

namespace GiantRecords

/-- `insert_vertex`. -/
def insertVertex (gv : GroupVarint) (db : GiantRecords) (v : VId) (neighbors : List VId) :
    GiantRecords := db.insert (makeVertexKey v) (serializeNeighbors gv neighbors)

/-- `read_neighbor_clone`. -/
def readNeighborClone (gv : GroupVarint) (db : GiantRecords) (v : VId) :
    Except String (List VId) :=
  match db.find? (makeVertexKey v) with
  | none => .ok []
  | some value => deserializeNeighbors gv value

/-- `db_->Put` of one change. -/
def putDelta (db : GiantRecords) (v : VId) (delta : NeighborDelta) : GiantRecords :=
  db.insert (makeDeltaKey v delta.timestamp) (serializeDelta delta)

/-- `add_neighbor_delta`, at the time the clock shows. -/
def addNeighborDelta (db : GiantRecords) (v n : VId) (timestamp : Nat) : GiantRecords :=
  db.putDelta v ⟨addNeighborCode, n, timestamp⟩

/-- `remove_neighbor_delta`, at the time the clock shows. -/
def removeNeighborDelta (db : GiantRecords) (v n : VId) (timestamp : Nat) : GiantRecords :=
  db.putDelta v ⟨removeNeighborCode, n, timestamp⟩

/-- `db_->Write` of a batch of changes. -/
def writeDeltas (db : GiantRecords) (batch : List (VId × NeighborDelta)) : GiantRecords :=
  batch.foldl (fun db x => db.putDelta x.1 x.2) db

/-- One change of `batch_apply_deltas`: the store, the open batch and `processed`. -/
def batchDelta (acc : GiantRecords × List (VId × NeighborDelta) × Nat)
    (x : VId × NeighborDelta) : GiantRecords × List (VId × NeighborDelta) × Nat :=
  let batch := acc.2.1 ++ [x]
  let processed := acc.2.2 + 1
  if processed % 1000 = 0 then (acc.1.writeDeltas batch, [], processed)
  else (acc.1, batch, processed)

/-- The changes of a batch, in order. -/
def flatDeltas (vertexDeltas : List (VId × List NeighborDelta)) : List (VId × NeighborDelta) :=
  vertexDeltas.flatMap fun x => x.2.map fun delta => (x.1, delta)

/-- `batch_apply_deltas`. -/
def batchApplyDeltas (db : GiantRecords) (vertexDeltas : List (VId × List NeighborDelta)) :
    GiantRecords :=
  let (db, batch, _) := (flatDeltas vertexDeltas).foldl batchDelta (db, [], 0)
  if batch.isEmpty then db else db.writeDeltas batch

/-- The records that an iterator passes from `Seek(prefix)` on, while they start with it. -/
def deltaScan (db : GiantRecords) (v : VId) : List (List Nat × List Nat) :=
  db.scan (deltaPrefix v) fun key => (deltaPrefix v).isPrefixOf key

/-- The changes of a vertex by time; a record that cannot be read is skipped. -/
def sortedDeltas (srt : TimeSort) (db : GiantRecords) (v : VId) : List NeighborDelta :=
  srt.sort ((db.deltaScan v).filterMap fun x => (deserializeDelta x.2).toOption)

/-- One change applied to the set of neighbours. -/
def applyNeighborDelta (neighborSet : Finset VId) (delta : NeighborDelta) : Finset VId :=
  if delta.operation = addNeighborCode then insert delta.neighborId neighborSet
  else if delta.operation = removeNeighborCode then neighborSet.erase delta.neighborId
  else neighborSet

/-- `read_neighbors_with_deltas_applied`. -/
def readNeighborsWithDeltasApplied (gv : GroupVarint) (srt : TimeSort) (db : GiantRecords)
    (v : VId) : Except String (List VId) := do
  let neighbors ← db.readNeighborClone gv v
  return ((db.sortedDeltas srt v).foldl applyNeighborDelta neighbors.toFinset).sort (· ≤ ·)

/-- `consolidate_vertex_deltas`. -/
def consolidateVertexDeltas (gv : GroupVarint) (srt : TimeSort) (db : GiantRecords) (v : VId) :
    Except String GiantRecords := do
  let finalNeighbors ← db.readNeighborsWithDeltasApplied gv srt v
  let db := db.insertVertex gv v finalNeighbors
  return (db.deltaScan v).foldl (fun db x => db.erase x.1) db

end GiantRecords

/-! ## Keys apart -/

theorem decimal_injective : Injective decimal := by
  have hparse : ∀ n, Nat.ofDigits 10 ((decimal n).reverse.map fun b => b - 48) = n := by
    intro n
    unfold decimal
    split_ifs with h
    · rw [h]
      rfl
    · rw [map_reverse, map_map, map_reverse, reverse_reverse]
      have hid : ((fun b => b - 48) ∘ fun d => 48 + d) = fun d : Nat => d := by
        funext d
        show 48 + d - 48 = d
        omega
      rw [hid, map_id', Nat.ofDigits_digits]
  intro n m h
  rw [← hparse n, h, hparse m]

theorem colon_notMem_decimal (n : Nat) : 58 ∉ decimal n := by
  unfold decimal
  split_ifs
  · decide
  · intro h
    obtain ⟨d, hd, he⟩ := mem_map.1 h
    have := Nat.digits_lt_base (by decide) (mem_reverse.1 hd)
    omega

/-- Two texts without a separator are read off before it. -/
theorem split_at_separator {α : Type*} {c : α} {x y s t : List α} (hx : c ∉ x) (hy : c ∉ y)
    (h : x ++ c :: s = y ++ c :: t) : x = y ∧ s = t := by
  induction x generalizing y with
  | nil =>
    cases y with
    | nil => exact ⟨rfl, (List.cons.inj h).2⟩
    | cons b y => exact absurd ((List.cons.inj h).1 ▸ mem_cons_self) hy
  | cons a x ih =>
    cases y with
    | nil => exact absurd ((List.cons.inj h).1 ▸ mem_cons_self) hx
    | cons b y =>
      obtain ⟨hab, htail⟩ := List.cons.inj h
      obtain ⟨hxy, hst⟩ := ih (fun hm => hx (mem_cons_of_mem a hm))
        (fun hm => hy (mem_cons_of_mem b hm)) htail
      exact ⟨by rw [hab, hxy], hst⟩

/-- The prefix of a vertex starts the keys of its own changes only. -/
theorem deltaPrefix_isPrefix_iff {v w : VId} {timestamp : Nat} :
    deltaPrefix v <+: makeDeltaKey w timestamp ↔ v = w := by
  unfold deltaPrefix makeDeltaKey
  rw [cons_prefix_cons, cons_prefix_cons]
  constructor
  · rintro ⟨-, -, rest, h⟩
    rw [append_assoc, singleton_append] at h
    exact decimal_injective
      (split_at_separator (colon_notMem_decimal v) (colon_notMem_decimal w) h).1
  · rintro rfl
    exact ⟨rfl, rfl, decimal timestamp, by simp⟩

variable {key : List Nat}

/-- A key has the prefix of one vertex only. -/
theorem deltaPrefix_unique {v w : VId} (hv : deltaPrefix v <+: key) (hw : deltaPrefix w <+: key) :
    v = w := by
  obtain ⟨s, rfl⟩ := hv
  obtain ⟨t, ht⟩ := hw
  have h : decimal w ++ [58] ++ t = decimal v ++ [58] ++ s := (List.cons.inj (List.cons.inj ht).2).2
  rw [append_assoc, append_assoc, singleton_append] at h
  exact (decimal_injective
    (split_at_separator (colon_notMem_decimal w) (colon_notMem_decimal v) h).1).symm

theorem makeDeltaKey_inj {v w : VId} {t t' : Nat} (h : makeDeltaKey v t = makeDeltaKey w t') :
    v = w ∧ t = t' := by
  obtain ⟨hv, ht⟩ := split_at_separator (colon_notMem_decimal v) (colon_notMem_decimal w)
    (List.cons.inj (List.cons.inj h).2).2
  exact ⟨decimal_injective hv, decimal_injective ht⟩

theorem makeVertexKey_injective : Injective makeVertexKey := fun _ _ h =>
  decimal_injective (List.cons.inj (List.cons.inj h).2).2

theorem not_deltaPrefix_vertexKey (v w : VId) : ¬ deltaPrefix v <+: makeVertexKey w := fun h =>
  absurd (cons_prefix_cons.1 h).1 (by decide)

theorem makeDeltaKey_ne_vertexKey (v w : VId) (t : Nat) : makeDeltaKey v t ≠ makeVertexKey w :=
  fun h => absurd (List.cons.inj h).1 (by decide)

/-! ## One record -/

namespace NeighborDelta

/-- A change as the callers make it. -/
structure WellFormed (delta : NeighborDelta) : Prop where
  operation : delta.operation = addNeighborCode ∨ delta.operation = removeNeighborCode
  neighborId : delta.neighborId < 2 ^ 32
  timestamp : delta.timestamp < 2 ^ 64

/-- The change as an operation on a set. -/
def toOp (delta : NeighborDelta) : Lww.Op VId :=
  if delta.operation = addNeighborCode then .insert delta.neighborId else .erase delta.neighborId

@[simp] theorem toOp_key (delta : NeighborDelta) : delta.toOp.key = delta.neighborId := by
  unfold toOp
  split_ifs <;> rfl

end NeighborDelta

variable {delta : NeighborDelta}

theorem deserializeDelta_serializeDelta (h : delta.WellFormed) :
    deserializeDelta (serializeDelta delta) = .ok delta := by
  have hword := wordRead_wordWrite h.neighborId (longWrite delta.timestamp)
  have hlong := longRead_longWrite h.timestamp []
  rw [append_nil] at hlong
  have hlen : ¬ (serializeDelta delta).length < 1 + 4 + 8 := by
    rw [show (serializeDelta delta).length = 13 from rfl]
    decide
  have hdrop : (serializeDelta delta).drop 5 = longWrite delta.timestamp := rfl
  have hdrop' : (serializeDelta delta).drop 1 =
    wordWrite delta.neighborId ++ longWrite delta.timestamp := rfl
  unfold deserializeDelta
  rw [if_neg hlen, hdrop, hlong, hdrop', hword]
  rfl

/-! ## The log of a vertex -/

/-- What the store knows of a vertex: its list, and its changes by time. -/
structure VertexDeltas where
  base : List VId
  pending : List NeighborDelta

/-- A change put into a log: it takes the place of one of the same time. -/
def putByTime (delta : NeighborDelta) (log : List NeighborDelta) : List NeighborDelta :=
  log.filter (fun x => x.timestamp < delta.timestamp) ++
    delta :: log.filter fun x => delta.timestamp < x.timestamp

/-- Changes in strictly ascending order of time. -/
def ByTime (log : List NeighborDelta) : Prop := log.Pairwise fun a b => a.timestamp < b.timestamp

variable {log : List NeighborDelta}

theorem mem_putByTime {delta x : NeighborDelta} :
    x ∈ putByTime delta log ↔ x = delta ∨ (x ∈ log ∧ x.timestamp ≠ delta.timestamp) := by
  unfold putByTime
  rw [mem_append, mem_cons, mem_filter, mem_filter, decide_eq_true_eq,
    decide_eq_true_eq]
  constructor
  · rintro (⟨h1, h2⟩ | h | ⟨h1, h2⟩)
    · exact .inr ⟨h1, by omega⟩
    · exact .inl h
    · exact .inr ⟨h1, by omega⟩
  · rintro (h | ⟨h1, h2⟩)
    · exact .inr (.inl h)
    · rcases Nat.lt_or_gt_of_ne h2 with h | h
      · exact .inl ⟨h1, h⟩
      · exact .inr (.inr ⟨h1, h⟩)

theorem byTime_putByTime (h : ByTime log) : ByTime (putByTime delta log) := by
  unfold ByTime putByTime
  refine pairwise_append.2 ⟨h.filter _, pairwise_cons.2 ⟨fun x hx => ?_, h.filter _⟩,
    fun x hx y hy => ?_⟩
  · exact of_decide_eq_true (mem_filter.1 hx).2
  · have hx' : x.timestamp < delta.timestamp := of_decide_eq_true (mem_filter.1 hx).2
    rcases mem_cons.1 hy with rfl | hy
    · exact hx'
    · have hy' : delta.timestamp < y.timestamp := of_decide_eq_true (mem_filter.1 hy).2
      omega

/-- Two changes of a log at one time are one. -/
theorem ByTime.unique (h : ByTime log) {x y : NeighborDelta} (hx : x ∈ log) (hy : y ∈ log)
    (he : x.timestamp = y.timestamp) : x = y := by
  induction log with
  | nil => cases hx
  | cons a log ih =>
    obtain ⟨ha, hlog⟩ := pairwise_cons.1 h
    rcases mem_cons.1 hx with rfl | hxl
    · rcases mem_cons.1 hy with rfl | hyl
      · rfl
      · have := ha y hyl
        omega
    · rcases mem_cons.1 hy with rfl | hyl
      · have := ha x hxl
        omega
      · exact ih hlog hxl hyl

/-- A log splits at a time. -/
theorem ByTime.split (h : ByTime log) (t : Nat) :
    log = log.filter (fun x => x.timestamp < t) ++ (log.filter (fun x => x.timestamp = t) ++
      log.filter fun x => t < x.timestamp) := by
  induction log with
  | nil => rfl
  | cons a log ih =>
    obtain ⟨ha, hlog⟩ := pairwise_cons.1 h
    have hnone : ∀ (p : NeighborDelta → Bool), (∀ x ∈ log, p x = false) → log.filter p = [] :=
      fun p hp => filter_eq_nil_iff.2 fun x hx hpx => by simp [hp x hx] at hpx
    rcases Nat.lt_trichotomy a.timestamp t with hlt | heq | hgt
    · have h1 : ¬ a.timestamp = t := by omega
      have h2 : ¬ t < a.timestamp := by omega
      simp only [filter_cons, hlt, h1, h2, decide_true, decide_false, if_true,
        cons_append]
      exact congrArg (a :: ·) (ih hlog)
    · have hrest : ∀ x ∈ log, decide (x.timestamp < t) = false := fun x hx => by
        have := ha x hx
        exact decide_eq_false (by omega)
      have hsame := ih hlog
      rw [hnone _ hrest, nil_append] at hsame
      simp only [filter_cons, heq, decide_true, decide_false, if_true, lt_self_iff_false]
      rw [hnone _ hrest, if_neg (by simp), if_neg (by simp), nil_append, cons_append]
      exact congrArg (a :: ·) hsame
    · have hrest : ∀ x ∈ a :: log, t < x.timestamp := by
        intro x hx
        rcases mem_cons.1 hx with rfl | hx
        · exact hgt
        · have := ha x hx
          omega
      have h1 : (a :: log).filter (fun x => x.timestamp < t) = [] :=
        filter_eq_nil_iff.2 fun x hx hp => by
          have := hrest x hx
          have := of_decide_eq_true hp
          omega
      have h2 : (a :: log).filter (fun x => x.timestamp = t) = [] :=
        filter_eq_nil_iff.2 fun x hx hp => by
          have := hrest x hx
          have := of_decide_eq_true hp
          omega
      have h3 : (a :: log).filter (fun x => t < x.timestamp) = a :: log :=
        filter_eq_self.2 fun x hx => decide_eq_true (hrest x hx)
      rw [h1, h2, h3, nil_append, nil_append]

/-! ## Changes that land -/

/-- The operations of a log. -/
def opsOfLog (log : List NeighborDelta) : List (Lww.Op VId) := log.map NeighborDelta.toOp

/-- The changes before and after a time. -/
def earlier (log : List NeighborDelta) (t : Nat) : List NeighborDelta :=
  log.filter fun x => x.timestamp < t

def later (log : List NeighborDelta) (t : Nat) : List NeighborDelta :=
  log.filter fun x => t < x.timestamp

/-- A change is as good as the last one: no later change of its neighbour is pending, or the last
of them says the same, and the change of the same time that it replaces, if there is one, is about
the same neighbour, or is overruled by a later one, or says what the earlier ones say. -/
structure Lands (base : Set VId) (log : List NeighborDelta) (delta : NeighborDelta) : Prop where
  unopposed : ∀ o, Lww.newest delta.neighborId (opsOfLog (later log delta.timestamp)).reverse =
    some o → o = delta.toOp
  spared : ∀ x ∈ log, x.timestamp = delta.timestamp → x.neighborId = delta.neighborId ∨
    Lww.newest x.neighborId (opsOfLog (later log delta.timestamp)).reverse ≠ none ∨
    x.toOp.apply (Lww.lww base (opsOfLog (earlier log delta.timestamp))) =
      Lww.lww base (opsOfLog (earlier log delta.timestamp))

variable {base : Set VId}

theorem lands_of_newest (h : ∀ x ∈ log, x.timestamp < delta.timestamp) : Lands base log delta := by
  have hnone : later log delta.timestamp = [] := filter_eq_nil_iff.2 fun x hx hp => by
    have := h x hx
    have := of_decide_eq_true hp
    omega
  constructor
  · intro o ho
    rw [hnone] at ho
    cases ho
  · intro x hx he
    have := h x hx
    omega

variable (s : Set VId)

/-- The last operation on an element decides. -/
theorem mem_lww_last (ops : List (Lww.Op VId)) (d : VId) :
    d ∈ lww s ops ↔ newest d ops.reverse = some (.insert d) ∨
      (newest d ops.reverse = none ∧ d ∈ s) := by
  have h := mem_lww_reverse s ops.reverse d
  rw [reverse_reverse] at h
  exact h

section

variable (delta : NeighborDelta)

theorem mem_toOp_apply :
    delta.neighborId ∈ delta.toOp.apply s ↔ delta.toOp = .insert delta.neighborId := by
  unfold NeighborDelta.toOp
  split_ifs
  · simp [Lww.Op.apply]
  · simp [Lww.Op.apply]

theorem toOp_cases :
    delta.toOp = .insert delta.neighborId ∨ delta.toOp = .erase delta.neighborId := by
  unfold NeighborDelta.toOp
  split_ifs
  · exact .inl rfl
  · exact .inr rfl

/-- An operation changes a set where its element changes sides. -/
theorem toOp_apply_eq_iff :
    delta.toOp.apply s = s ↔
      (delta.neighborId ∈ delta.toOp.apply s ↔ delta.neighborId ∈ s) := by
  constructor
  · intro h
    rw [h]
  · intro h
    ext d
    by_cases hd : delta.neighborId = d
    · rw [← hd]
      exact h
    · exact mem_apply_of_key_ne (by rw [NeighborDelta.toOp_key]; exact hd)

end

/-- At most one change has a given time. -/
theorem ByTime.sameTime (h : ByTime log) {t : Nat} {x : NeighborDelta} (hx : x ∈ log)
    (hxt : x.timestamp = t) : log.filter (fun x => x.timestamp = t) = [x] := by
  have hmem : x ∈ log.filter (fun x => x.timestamp = t) :=
    mem_filter.2 ⟨hx, decide_eq_true hxt⟩
  have hpw : (log.filter (fun x => x.timestamp = t)).Pairwise
      fun a b => a.timestamp < b.timestamp := h.filter _
  have hall : ∀ y ∈ log.filter (fun x => x.timestamp = t), y.timestamp = t := fun y hy =>
    of_decide_eq_true (mem_filter.1 hy).2
  rcases hs : log.filter (fun x => x.timestamp = t) with _ | ⟨y, _ | ⟨z, rest⟩⟩
  · rw [hs] at hmem
    cases hmem
  · rw [hs] at hmem
    rw [mem_singleton.1 hmem]
    exact hs
  · rw [hs] at hpw hall
    have h1 := (pairwise_cons.1 hpw).1 z mem_cons_self
    have h2 := hall y mem_cons_self
    have h3 := hall z (mem_cons_of_mem y mem_cons_self)
    omega

section

variable (s s' : Set VId) (ops : List (Lww.Op VId))

/-- Under later operations, a change shows its own neighbour as if it were the last one exactly
when the last of them on that neighbour says the same. -/
theorem mem_overwritten_self_iff (delta : NeighborDelta) :
    (delta.neighborId ∈ lww (delta.toOp.apply s) ops ↔
      delta.neighborId ∈ delta.toOp.apply s') ↔
      ∀ o, newest delta.neighborId ops.reverse = some o → o = delta.toOp := by
  rw [mem_lww_last, mem_toOp_apply, mem_toOp_apply]
  rcases hn : newest delta.neighborId ops.reverse with _ | o
  · simp
  · have hkey := newest_key hn
    have ho : o = .insert delta.neighborId ∨ o = .erase delta.neighborId := by
      cases o with
      | insert a => exact .inl (by rw [← hkey]; rfl)
      | erase a => exact .inr (by rw [← hkey]; rfl)
    rcases ho with rfl | rfl <;> rcases toOp_cases delta with hd | hd <;> rw [hd] <;> simp

/-- Another neighbour is the same under both exactly when it was before, or a later operation
decides it. -/
theorem mem_overwritten_other_iff {d : VId} (hd : d ≠ delta.neighborId) :
    (d ∈ lww (delta.toOp.apply s) ops ↔ d ∈ delta.toOp.apply (lww s' ops)) ↔
      (newest d ops.reverse = none → (d ∈ s ↔ d ∈ s')) := by
  have hkey : delta.toOp.key ≠ d := by
    rw [NeighborDelta.toOp_key]
    exact hd.symm
  rw [mem_apply_of_key_ne hkey, mem_lww_last, mem_lww_last, mem_apply_of_key_ne hkey]
  rcases hn : newest d ops.reverse with _ | o
  · simp
  · simp

end

theorem lww_putByTime (base : Set VId) (log : List NeighborDelta) (delta : NeighborDelta) :
    lww base (opsOfLog (putByTime delta log)) =
      lww (delta.toOp.apply (lww base (opsOfLog (earlier log delta.timestamp))))
        (opsOfLog (later log delta.timestamp)) := by
  unfold putByTime opsOfLog
  rw [map_append, map_cons, lww_append, lww_cons]
  rfl

theorem ByTime.lww_split (h : ByTime log) (base : Set VId) (t : Nat) :
    lww base (opsOfLog log) =
      lww (lww (lww base (opsOfLog (earlier log t)))
        (opsOfLog (log.filter fun x => x.timestamp = t))) (opsOfLog (later log t)) := by
  conv => lhs; rw [h.split t]
  unfold opsOfLog
  rw [map_append, map_append, lww_append, lww_append]
  rfl

/-- A change that is put into a log acts like the newest one exactly when it lands. -/
theorem lands_iff (h : ByTime log) :
    lww base (opsOfLog (putByTime delta log)) =
      delta.toOp.apply (lww base (opsOfLog log)) ↔ Lands base log delta := by
  rw [lww_putByTime, h.lww_split base delta.timestamp]
  set E := lww base (opsOfLog (earlier log delta.timestamp))
  set L := opsOfLog (later log delta.timestamp)
  set same := log.filter (fun x => x.timestamp = delta.timestamp) with hsame
  constructor
  · intro heq
    refine ⟨(mem_overwritten_self_iff E _ L delta).1 (by rw [heq]), fun x hx hxt => ?_⟩
    by_cases hk : x.neighborId = delta.neighborId
    · exact .inl hk
    · refine .inr (or_iff_not_imp_left.2 fun hnone => ?_)
      have hsides := (mem_overwritten_other_iff E (lww E (opsOfLog same)) L hk).1 (by rw [heq])
        (Decidable.of_not_not hnone)
      rw [hsame, h.sameTime hx hxt] at hsides
      exact (toOp_apply_eq_iff E x).2 hsides.symm
  · intro hl
    ext d
    by_cases hd : d = delta.neighborId
    · rw [hd]
      exact (mem_overwritten_self_iff E _ L delta).2 hl.unopposed
    · refine (mem_overwritten_other_iff E (lww E (opsOfLog same)) L hd).2 fun hnone => ?_
      rcases hs : same with _ | ⟨x, rest⟩
      · rfl
      · -- the change that is replaced
        have hx : x ∈ same := by rw [hs]; exact mem_cons_self
        obtain ⟨hxl, hxt⟩ := mem_filter.1 hx
        have hxt : x.timestamp = delta.timestamp := of_decide_eq_true hxt
        rw [← hs, hsame, h.sameTime hxl hxt]
        show d ∈ E ↔ d ∈ x.toOp.apply E
        by_cases hdx : x.neighborId = d
        · rcases hl.spared x hxl hxt with hk | hk | hk
          · exact absurd (hdx.symm.trans hk) hd
          · rw [hdx] at hk
            exact absurd hnone hk
          · rw [hk]
        · exact (mem_apply_of_key_ne (by rw [NeighborDelta.toOp_key]; exact hdx)).symm

/-! ## The store holds a log for each vertex -/

/-- The records of the store: the list of every vertex, and under the prefix of a vertex one record
for each of its changes. -/
structure Represents (gv : GroupVarint) (db : GiantRecords) (view : VId → VertexDeltas) :
    Prop where
  base : ∀ v, db.readNeighborClone gv v = .ok (view v).base
  ids : ∀ v, ∀ d ∈ (view v).base, d < 2 ^ 32
  records : ∀ v key value, deltaPrefix v <+: key → ((key, value) ∈ db.entries ↔
    ∃ delta ∈ (view v).pending, key = makeDeltaKey v delta.timestamp ∧ value = serializeDelta delta)
  byTime : ∀ v, ByTime (view v).pending
  wellFormed : ∀ v, ∀ delta ∈ (view v).pending, delta.WellFormed

/-- The neighbours of a vertex with its changes applied. -/
def VertexDeltas.set (x : VertexDeltas) : Set VId :=
  Lww.lww {d | d ∈ x.base} (opsOfLog x.pending)

theorem foldl_applyNeighborDelta (h : ∀ x ∈ log, x.WellFormed) (s : Finset VId) (d : VId) :
    d ∈ log.foldl GiantRecords.applyNeighborDelta s ↔ d ∈ lww {x | x ∈ s} (opsOfLog log) := by
  induction log generalizing s with
  | nil => rfl
  | cons a log ih =>
    have hstep : {x | x ∈ GiantRecords.applyNeighborDelta s a} = a.toOp.apply {x | x ∈ s} := by
      ext x
      unfold GiantRecords.applyNeighborDelta NeighborDelta.toOp
      rcases (h a mem_cons_self).operation with ha | ha
      · rw [if_pos ha, if_pos ha]
        simp [Lww.Op.apply]
      · have hne : ¬ a.operation = addNeighborCode := by rw [ha]; decide
        rw [if_neg hne, if_neg hne, if_pos ha]
        simp [Lww.Op.apply, and_comm]
    rw [foldl_cons, ih (fun x hx => h x (mem_cons_of_mem a hx)), hstep]
    rfl

variable {gv : GroupVarint} {srt : TimeSort} {db : GiantRecords} {view : VId → VertexDeltas}

theorem deltaScan_eq (db : GiantRecords) (v : VId) :
    db.deltaScan v = db.entries.filter fun x => (deltaPrefix v).isPrefixOf x.1 := by
  apply scan_eq_filter
  · intro x hx
    exact le_of_isPrefix (List.isPrefixOf_iff_prefix.1 hx)
  · intro x y hx hxy hy
    exact List.isPrefixOf_iff_prefix.2
      (isPrefix_of_lt hx hxy (List.isPrefixOf_iff_prefix.1 hy))

section

variable (h : Represents gv db view)
include h

theorem Represents.mem_deltaScan (v : VId) (x : List Nat × List Nat) : x ∈ db.deltaScan v ↔
      ∃ delta ∈ (view v).pending, x = (makeDeltaKey v delta.timestamp, serializeDelta delta) := by
  rw [deltaScan_eq, mem_filter]
  constructor
  · rintro ⟨hm, hp⟩
    obtain ⟨delta, hd, hk, hv⟩ := (h.records v x.1 x.2 (List.isPrefixOf_iff_prefix.1 hp)).1 hm
    exact ⟨delta, hd, Prod.ext hk hv⟩
  · rintro ⟨delta, hd, rfl⟩
    have hp : deltaPrefix v <+: makeDeltaKey v delta.timestamp := deltaPrefix_isPrefix_iff.2 rfl
    exact ⟨(h.records v _ _ hp).2 ⟨delta, hd, rfl, rfl⟩, List.isPrefixOf_iff_prefix.2 hp⟩

/-- The scan finds the changes of the vertex, and sorting puts them in the order of the log. -/
theorem Represents.sortedDeltas (srt : TimeSort) (v : VId) :
    db.sortedDeltas srt v = (view v).pending := by
  set found := (db.deltaScan v).filterMap fun x => (deserializeDelta x.2).toOption with hfound
  have hread : ∀ x delta, x ∈ db.deltaScan v → (deserializeDelta x.2).toOption = some delta →
      delta ∈ (view v).pending ∧ x.1 = makeDeltaKey v delta.timestamp := by
    intro x delta hx hd
    obtain ⟨delta', hm, rfl⟩ := (h.mem_deltaScan v x).1 hx
    rw [deserializeDelta_serializeDelta (h.wellFormed v delta' hm)] at hd
    cases hd
    exact ⟨hm, rfl⟩
  have hmem : ∀ delta, delta ∈ found ↔ delta ∈ (view v).pending := by
    intro delta
    rw [hfound, mem_filterMap]
    constructor
    · rintro ⟨x, hx, hd⟩
      exact (hread x delta hx hd).1
    · intro hd
      refine ⟨_, (h.mem_deltaScan v _).2 ⟨delta, hd, rfl⟩, ?_⟩
      rw [deserializeDelta_serializeDelta (h.wellFormed v delta hd)]
      rfl
  have hnodup : found.Nodup := by
    have hkeys : (db.deltaScan v).Pairwise fun x y => x.1 < y.1 := by
      rw [deltaScan_eq]
      exact db.sorted.filter _
    rw [hfound, List.Nodup, pairwise_filterMap]
    refine hkeys.imp_of_mem fun {x y} hx hy hlt a ha b hb hab => ?_
    rw [(hread x a hx ha).2, (hread y b hy hb).2, hab] at hlt
    exact lt_irrefl _ hlt
  have hlog : (view v).pending.Nodup := (h.byTime v).imp fun {a b} hlt hab => by
    rw [hab] at hlt
    omega
  have hperm : (srt.sort found).Perm (view v).pending :=
    (srt.perm found).trans ((perm_ext_iff_of_nodup hnodup hlog).2 hmem)
  show srt.sort found = (view v).pending
  have hpw : (view v).pending.Pairwise fun a b => a.timestamp ≤ b.timestamp :=
    (h.byTime v).imp fun {a b} hlt => Nat.le_of_lt hlt
  refine hperm.eq_of_pairwise (fun a b ha hb h1 h2 => ?_) (srt.sorted found) hpw
  exact (h.byTime v).unique (hperm.mem_iff.1 ha) hb (Nat.le_antisymm h1 h2)

omit h in
/-- A read applies the changes of the vertex to its list, by time. -/
theorem Represents.read (h : Represents gv db view) (srt : TimeSort) (v : VId) :
    ∃ neighborSet : Finset VId,
      db.readNeighborsWithDeltasApplied gv srt v = .ok (neighborSet.sort (· ≤ ·)) ∧
        ∀ d, d ∈ neighborSet ↔ d ∈ (view v).set := by
  refine ⟨(view v).pending.foldl GiantRecords.applyNeighborDelta (view v).base.toFinset, ?_,
    fun d => ?_⟩
  · unfold GiantRecords.readNeighborsWithDeltasApplied
    rw [h.base v, h.sortedDeltas srt v]
    rfl
  · rw [foldl_applyNeighborDelta (h.wellFormed v)]
    unfold VertexDeltas.set
    simp only [mem_toFinset]

/-- A change is recorded in the log of its vertex. -/
theorem Represents.putDelta (v : VId) (hd : delta.WellFormed) :
    Represents gv (db.putDelta v delta)
      (update view v ⟨(view v).base, putByTime delta (view v).pending⟩) := by
  have hbase : ∀ w, (update view v
      ⟨(view v).base, putByTime delta (view v).pending⟩ w).base = (view w).base := by
    intro w
    by_cases hw : w = v
    · rw [hw, update_self]
    · rw [update_of_ne hw]
  constructor
  · intro w
    rw [hbase, ← h.base w]
    unfold GiantRecords.readNeighborClone GiantRecords.putDelta
    rw [db.find?_insert_ne _ (makeDeltaKey_ne_vertexKey v w _).symm]
  · intro w
    rw [hbase]
    exact h.ids w
  · intro w key value hp
    by_cases hk : key = makeDeltaKey v delta.timestamp
    · -- the key of the change itself: its record replaces another one
      have hw : w = v := by
        rw [hk] at hp
        exact deltaPrefix_isPrefix_iff.1 hp
      rw [hw, update_self, ← find?_eq_some, hk]
      unfold GiantRecords.putDelta
      rw [db.find?_insert_self, Option.some_inj]
      constructor
      · rintro rfl
        exact ⟨delta, mem_putByTime.2 (.inl rfl), rfl, rfl⟩
      · rintro ⟨x, hx, hkx, rfl⟩
        rcases mem_putByTime.1 hx with rfl | ⟨-, hne⟩
        · rfl
        · exact absurd (makeDeltaKey_inj hkx).2.symm hne
    · have hold : (key, value) ∈ (db.putDelta v delta).entries ↔ (key, value) ∈ db.entries :=
        db.mem_insert_ne _ hk
      rw [hold, h.records w key value hp]
      by_cases hw : w = v
      · rw [hw, update_self]
        constructor
        · rintro ⟨x, hx, hkx, hv⟩
          refine ⟨x, mem_putByTime.2 (.inr ⟨hx, fun he => hk ?_⟩), hkx, hv⟩
          rw [hkx, he]
        · rintro ⟨x, hx, hkx, hv⟩
          rcases mem_putByTime.1 hx with rfl | ⟨hm, -⟩
          · exact absurd hkx hk
          · exact ⟨x, hm, hkx, hv⟩
      · rw [update_of_ne hw]
  · intro w
    by_cases hw : w = v
    · rw [hw, update_self]
      exact byTime_putByTime (h.byTime v)
    · rw [update_of_ne hw]
      exact h.byTime w
  · intro w x hx
    by_cases hw : w = v
    · rw [hw, update_self] at hx
      rcases mem_putByTime.1 hx with rfl | ⟨hm, -⟩
      · exact hd
      · exact h.wellFormed v x hm
    · rw [update_of_ne hw] at hx
      exact h.wellFormed w x hx

theorem Represents.set_ids (v : VId) : ∀ d ∈ (view v).set, d < 2 ^ 32 := by
  intro d hd
  rcases mem_of_mem_lww hd with hb | ⟨o, ho, hk⟩
  · exact h.ids v d hb
  · obtain ⟨x, hx, rfl⟩ := mem_map.1 ho
    rw [NeighborDelta.toOp_key] at hk
    rw [← hk]
    exact (h.wellFormed v x hx).neighborId

end

variable {ids : Finset VId}

/-- A set of 32-bit numbers has a length that fits 64 bits. -/
theorem length_sort_lt (h : ∀ d ∈ ids, d < 2 ^ 32) : (ids.sort (· ≤ ·)).length < 2 ^ 64 := by
  have hsub : ids ⊆ Finset.range (2 ^ 32) := fun d hd => Finset.mem_range.2 (h d hd)
  have hcard := Finset.card_le_card hsub
  rw [Finset.card_range] at hcard
  rw [Finset.length_sort]
  omega

/-- The records of a vertex are erased. -/
def wipeDeltas (db : GiantRecords) (v : VId) : GiantRecords :=
  (db.deltaScan v).foldl (fun db x => db.erase x.1) db

variable {v : VId}

theorem find?_wipeDeltas (h : ¬ deltaPrefix v <+: key) :
    (wipeDeltas db v).find? key = db.find? key := by
  unfold wipeDeltas
  rw [find?_foldl_erase, if_neg]
  intro hm
  obtain ⟨x, hx, rfl⟩ := mem_map.1 hm
  rw [deltaScan_eq] at hx
  exact h (List.isPrefixOf_iff_prefix.1 (mem_filter.1 hx).2)

theorem find?_wipeDeltas_own {key value : List Nat} (h : deltaPrefix v <+: key) :
    (wipeDeltas db v).find? key ≠ some value := by
  unfold wipeDeltas
  rw [find?_foldl_erase]
  intro hf
  split_ifs at hf with hm
  refine hm (mem_map.2 ⟨(key, value), ?_, rfl⟩)
  rw [deltaScan_eq, mem_filter]
  exact ⟨find?_eq_some.1 hf, List.isPrefixOf_iff_prefix.2 h⟩

/-- A sorted list that is stored without pending changes. -/
theorem Represents.wipeDeltas (h : Represents gv db view) (v : VId) (hids : ∀ d ∈ ids, d < 2 ^ 32) :
    Represents gv (wipeDeltas (db.insertVertex gv v (ids.sort (· ≤ ·))) v)
      (update view v ⟨ids.sort (· ≤ ·), []⟩) := by
  have hsortIds : ∀ d ∈ ids.sort (· ≤ ·), d < 2 ^ 32 := fun d hd =>
    hids d ((Finset.mem_sort _).1 hd)
  constructor
  · intro w
    unfold GiantRecords.readNeighborClone
    rw [find?_wipeDeltas (not_deltaPrefix_vertexKey v w)]
    by_cases hw : w = v
    · rw [hw, update_self]
      unfold GiantRecords.insertVertex
      rw [db.find?_insert_self]
      show deserializeNeighbors gv (serializeNeighbors gv (ids.sort (· ≤ ·))) = _
      rw [deserializeNeighbors_sorted hsortIds (length_sort_lt hids),
        (Finset.pairwise_sort ids (· ≤ ·)).insertionSort_eq]
    · rw [update_of_ne hw, ← h.base w]
      unfold GiantRecords.insertVertex GiantRecords.readNeighborClone
      rw [db.find?_insert_ne _ fun he => hw (makeVertexKey_injective he)]
  · intro w d hd
    by_cases hw : w = v
    · rw [hw, update_self] at hd
      exact hsortIds d hd
    · rw [update_of_ne hw] at hd
      exact h.ids w d hd
  · intro w key value hp
    rw [← find?_eq_some]
    by_cases hw : w = v
    · rw [hw, update_self]
      exact iff_of_false (find?_wipeDeltas_own (hw ▸ hp)) fun ⟨x, hx, _⟩ => by cases hx
    · -- another vertex, whose records have keys of their own
      have hne : key ≠ makeVertexKey v := fun he => not_deltaPrefix_vertexKey w v (he ▸ hp)
      rw [update_of_ne hw, ← h.records w key value hp, ← find?_eq_some,
        find?_wipeDeltas fun hpv => hw (deltaPrefix_unique hp hpv)]
      unfold GiantRecords.insertVertex
      rw [db.find?_insert_ne _ hne]
  · intro w
    by_cases hw : w = v
    · rw [hw, update_self]
      exact List.Pairwise.nil
    · rw [update_of_ne hw]
      exact h.byTime w
  · intro w x hx
    by_cases hw : w = v
    · rw [hw, update_self] at hx
      cases hx
    · rw [update_of_ne hw] at hx
      exact h.wellFormed w x hx

/-- A consolidation stores what a read returns, and empties the log. -/
theorem Represents.consolidate (h : Represents gv db view) (srt : TimeSort) (v : VId) :
    ∃ db' neighborSet, db.consolidateVertexDeltas gv srt v = .ok db' ∧
      (∀ d, d ∈ neighborSet ↔ d ∈ (view v).set) ∧
      Represents gv db' (update view v ⟨Finset.sort neighborSet (· ≤ ·), []⟩) := by
  obtain ⟨neighborSet, hread, hset⟩ := h.read srt v
  refine ⟨_, neighborSet, ?_, hset, h.wipeDeltas v fun d hd => h.set_ids v d ((hset d).1 hd)⟩
  unfold GiantRecords.consolidateVertexDeltas
  rw [hread]
  rfl

/-! ## Runs -/

/-- The operations on the changes. -/
inductive DeltaEvent where
  | addNeighborDelta (v n : VId) (timestamp : Nat)
  | removeNeighborDelta (v n : VId) (timestamp : Nat)
  | batchApplyDeltas (vertexDeltas : List (VId × List NeighborDelta))
  | consolidateVertexDeltas (v : VId)

namespace DeltaEvent

/-- The changes an operation records, in the order in which they are issued. -/
def deltas : DeltaEvent → List (VId × NeighborDelta)
  | .addNeighborDelta v n timestamp => [(v, ⟨addNeighborCode, n, timestamp⟩)]
  | .removeNeighborDelta v n timestamp => [(v, ⟨removeNeighborCode, n, timestamp⟩)]
  | .batchApplyDeltas vertexDeltas => GiantRecords.flatDeltas vertexDeltas
  | .consolidateVertexDeltas _ => []

/-- What the clock shows to an operation that asks it. -/
def clock? : DeltaEvent → Option Nat
  | .addNeighborDelta _ _ timestamp => some timestamp
  | .removeNeighborDelta _ _ timestamp => some timestamp
  | .batchApplyDeltas _ => none
  | .consolidateVertexDeltas _ => none

end DeltaEvent

/-- The changes of a vertex, as operations. -/
def opsOn (v : VId) (deltas : List (VId × NeighborDelta)) : List (Lww.Op VId) :=
  opsOfLog ((deltas.filter fun x => x.1 = v).map Prod.snd)

/-- The changes of a vertex that a run records. -/
def issuedOn (v : VId) (es : List DeltaEvent) : List (Lww.Op VId) :=
  es.flatMap fun e => opsOn v e.deltas

namespace GiantRecords

/-- One operation. -/
def step (gv : GroupVarint) (srt : TimeSort) (db : GiantRecords) :
    DeltaEvent → Except String GiantRecords
  | .addNeighborDelta v n timestamp => .ok (db.addNeighborDelta v n timestamp)
  | .removeNeighborDelta v n timestamp => .ok (db.removeNeighborDelta v n timestamp)
  | .batchApplyDeltas vertexDeltas => .ok (db.batchApplyDeltas vertexDeltas)
  | .consolidateVertexDeltas v => db.consolidateVertexDeltas gv srt v

/-- A step with changes as the callers make them. -/
def DeltaStep (gv : GroupVarint) (srt : TimeSort) (db : GiantRecords) (e : DeltaEvent)
    (db' : GiantRecords) : Prop :=
  (∀ x ∈ e.deltas, x.2.WellFormed) ∧ db.step gv srt e = .ok db'

/-- The stored list of a vertex. -/
def stored (gv : GroupVarint) (db : GiantRecords) (v : VId) : List VId :=
  (db.readNeighborClone gv v).toOption.getD []

/-- Every change lands, in the state in which its turn comes. -/
def AllLand (gv : GroupVarint) (srt : TimeSort) (db : GiantRecords) :
    List (VId × NeighborDelta) → Prop
  | [] => True
  | x :: deltas => Lands {d | d ∈ db.stored gv x.1} (db.sortedDeltas srt x.1) x.2 ∧
      AllLand gv srt (db.putDelta x.1 x.2) deltas

/-- The changes of an operation land. -/
def LandingStep (gv : GroupVarint) (srt : TimeSort) (db : GiantRecords) (e : DeltaEvent) : Prop :=
  AllLand gv srt db e.deltas

theorem writeDeltas_append (db : GiantRecords) (xs ys : List (VId × NeighborDelta)) :
    db.writeDeltas (xs ++ ys) = (db.writeDeltas xs).writeDeltas ys := foldl_append

theorem foldl_batchDelta (l batch : List (VId × NeighborDelta)) (db : GiantRecords) (n : Nat) :
    (l.foldl batchDelta (db, batch, n)).1.writeDeltas (l.foldl batchDelta (db, batch, n)).2.1 =
      db.writeDeltas (batch ++ l) := by
  induction l generalizing db batch n with
  | nil => rw [append_nil]; rfl
  | cons x l ih =>
    rw [foldl_cons]
    have hsplit : batch ++ x :: l = (batch ++ [x]) ++ l := by simp
    by_cases hfull : (n + 1) % 1000 = 0
    · have hstep : batchDelta (db, batch, n) x = (db.writeDeltas (batch ++ [x]), [], n + 1) :=
        if_pos hfull
      rw [hstep, ih, hsplit, writeDeltas_append db (batch ++ [x])]
      rfl
    · have hstep : batchDelta (db, batch, n) x = (db, batch ++ [x], n + 1) := if_neg hfull
      rw [hstep, ih, hsplit]

/-- A batch records its changes one after the other. -/
theorem batchApplyDeltas_eq (db : GiantRecords) (vertexDeltas : List (VId × List NeighborDelta)) :
    db.batchApplyDeltas vertexDeltas = db.writeDeltas (flatDeltas vertexDeltas) := by
  have h := foldl_batchDelta (flatDeltas vertexDeltas) [] db 0
  rw [nil_append] at h
  unfold batchApplyDeltas
  rcases hf : (flatDeltas vertexDeltas).foldl batchDelta (db, [], 0) with ⟨db', batch, n⟩
  rw [hf] at h
  dsimp only at h ⊢
  split_ifs with he
  · rw [isEmpty_iff.1 he] at h
    exact h
  · exact h

end GiantRecords

/-- Changes that land are applied in the order in which they are recorded. -/
theorem Represents.writeDeltas (deltas : List (VId × NeighborDelta))
    (h : Represents gv db view) (hd : ∀ x ∈ deltas, x.2.WellFormed) :
    ∃ view', Represents gv (db.writeDeltas deltas) view' ∧
      (db.AllLand gv srt deltas → ∀ v, (view' v).set = lww (view v).set (opsOn v deltas)) := by
  induction deltas generalizing db view with
  | nil => exact ⟨view, h, fun _ v => rfl⟩
  | cons x deltas ih =>
    have h1 := h.putDelta x.1 (hd x mem_cons_self)
    obtain ⟨view', h2, hset⟩ := ih h1 fun y hy => hd y (mem_cons_of_mem x hy)
    refine ⟨view', h2, fun hl v => ?_⟩
    obtain ⟨hland, hrest⟩ := hl
    have hbase : db.stored gv x.1 = (view x.1).base := by
      unfold GiantRecords.stored
      rw [h.base]
      rfl
    rw [hbase, h.sortedDeltas srt] at hland
    rw [hset hrest v]
    unfold opsOn opsOfLog
    by_cases hv : x.1 = v
    · subst hv
      rw [filter_cons_of_pos (by simp), map_cons, map_cons, lww_cons,
        update_self]
      congr 1
      exact (lands_iff (h.byTime x.1)).2 hland
    · rw [filter_cons_of_neg (by simpa using hv), update_of_ne (Ne.symm hv)]

variable {db' : GiantRecords}

variable {e : DeltaEvent}

/-- One operation: the changes are recorded, or the log is folded into the list. -/
theorem Represents.step (h : Represents gv db view) (hs : db.DeltaStep gv srt e db') :
    ∃ view', Represents gv db' view' ∧
      (db.LandingStep gv srt e → ∀ v, (view' v).set = lww (view v).set (opsOn v e.deltas)) := by
  obtain ⟨hwf, hs⟩ := hs
  rcases e with ⟨v, n, t⟩ | ⟨v, n, t⟩ | vertexDeltas | v
  · cases hs
    exact h.writeDeltas [(v, ⟨addNeighborCode, n, t⟩)] hwf
  · cases hs
    exact h.writeDeltas [(v, ⟨removeNeighborCode, n, t⟩)] hwf
  · cases hs
    rw [GiantRecords.batchApplyDeltas_eq]
    exact h.writeDeltas (GiantRecords.flatDeltas vertexDeltas) hwf
  · obtain ⟨db1, neighborSet, hok, hset, h'⟩ := h.consolidate srt v
    have he : db.consolidateVertexDeltas gv srt v = .ok db' := hs
    rw [hok] at he
    cases he
    refine ⟨_, h', fun _ w => ?_⟩
    show _ = (view w).set
    by_cases hw : w = v
    · rw [hw, update_self]
      ext d
      show d ∈ lww {x | x ∈ neighborSet.sort (· ≤ ·)} [] ↔ _
      rw [lww_nil, Set.mem_ofPred_eq, Finset.mem_sort, hset]
    · rw [update_of_ne hw]

/-- A change of its own step lands when it is later than all that are pending for its vertex. -/
theorem Represents.landingStep_of_newest (h : Represents gv db view) (he : e.deltas = [(v, delta)])
    (hnew : ∀ x ∈ (view v).pending, x.timestamp < delta.timestamp) : db.LandingStep gv srt e := by
  unfold GiantRecords.LandingStep
  rw [he]
  refine ⟨?_, trivial⟩
  rw [h.sortedDeltas srt]
  exact lands_of_newest hnew

/-- A store without records. -/
theorem represents_empty (gv : GroupVarint) : Represents gv empty fun _ => ⟨[], []⟩ := by
  constructor
  · exact fun v => rfl
  · intro v d hd
    cases hd
  · intro v key value hp
    refine iff_of_false (fun h => ?_) fun ⟨x, hx, _⟩ => ?_
    · cases h
    · cases hx
  · exact fun v => List.Pairwise.nil
  · intro v x hx
    cases hx

/-- What every run keeps, and what every run of landing changes keeps. -/
theorem Represents.run {es : List DeltaEvent} (h : Represents gv db view)
    (run : Steps (guarded (GiantRecords.LandingStep gv srt) (GiantRecords.DeltaStep gv srt)) db es
      db') : ∃ view', Represents gv db' view' ∧
      ∀ v, (view' v).set = lww (view v).set (issuedOn v es) := by
  refine run.inv (fun es db' => ∃ view', Represents gv db' view' ∧
    ∀ v, (view' v).set = lww (view v).set (issuedOn v es)) ⟨view, h, fun v => rfl⟩ ?_
  rintro es db1 e db2 ⟨view1, h1, hset1⟩ ⟨hland, hs⟩
  obtain ⟨view2, h2, hset2⟩ := h1.step hs
  refine ⟨view2, h2, fun v => ?_⟩
  rw [hset2 hland v, hset1 v]
  unfold issuedOn
  rw [flatMap_append, lww_append, flatMap_cons, flatMap_nil, append_nil]

/-- A read depends on the set of neighbours only. -/
theorem Represents.read_congr {view' : VId → VertexDeltas} (h : Represents gv db view)
    (h' : Represents gv db' view') (hset : (view' v).set = (view v).set) :
    db'.readNeighborsWithDeltasApplied gv srt v = db.readNeighborsWithDeltasApplied gv srt v := by
  obtain ⟨s, hs, hm⟩ := h.read srt v
  obtain ⟨s', hs', hm'⟩ := h'.read srt v
  have heq : s' = s := by
    ext d
    rw [hm, hm', hset]
  rw [hs, hs', heq]

/-- In every run whose changes land, a read returns in ascending order the neighbours before the
run with all changes applied as they were issued, and a consolidation changes no read. -/
theorem readNeighborsWithDeltasApplied_run (gv : GroupVarint) (srt : TimeSort)
    {db0 db : GiantRecords} {view0 : VId → VertexDeltas} {es : List DeltaEvent}
    (h0 : Represents gv db0 view0)
    (run : Steps (guarded (GiantRecords.LandingStep gv srt) (GiantRecords.DeltaStep gv srt))
      db0 es db) (v : VId) :
    (∃ l, db.readNeighborsWithDeltasApplied gv srt v = .ok l ∧ l.Pairwise (· < ·) ∧
      {d | d ∈ l} = Lww.lww (view0 v).set (issuedOn v es)) ∧
    ∃ db', db.consolidateVertexDeltas gv srt v = .ok db' ∧
      ∀ w, db'.readNeighborsWithDeltasApplied gv srt w =
        db.readNeighborsWithDeltasApplied gv srt w := by
  obtain ⟨view, h, hset⟩ := h0.run run
  constructor
  · obtain ⟨s, hs, hm⟩ := h.read srt v
    refine ⟨_, hs, (Finset.sortedLT_sort s).pairwise, ?_⟩
    ext d
    rw [Set.mem_ofPred_eq, Finset.mem_sort, hm, hset]
  · obtain ⟨db', s, hok, hm, h'⟩ := h.consolidate srt v
    have hs : db.DeltaStep gv srt (.consolidateVertexDeltas v) db' := ⟨fun x hx => (by cases hx), hok⟩
    obtain ⟨view', h2, hset2⟩ := h.step hs
    exact ⟨db', hok, fun w => h.read_congr h2 (hset2 trivial w)⟩

/-- Three changes of one vertex, each in a tick of its own. -/
theorem readNeighborsWithDeltasApplied_run_three :
    ∃ db, Steps (GiantRecords.DeltaStep follyGroupVarint .stable) OrdMap.empty
        [.addNeighborDelta 7 1 5, .addNeighborDelta 7 2 6, .removeNeighborDelta 7 1 9] db ∧
      ∃ l, db.readNeighborsWithDeltasApplied follyGroupVarint .stable 7 = .ok l ∧
        l.Pairwise (· < ·) ∧ {d | d ∈ l} = {2} := by
  have h0 := represents_empty follyGroupVarint
  have hwf1 : NeighborDelta.WellFormed ⟨addNeighborCode, 1, 5⟩ := ⟨.inl rfl, by decide, by decide⟩
  have hwf2 : NeighborDelta.WellFormed ⟨addNeighborCode, 2, 6⟩ := ⟨.inl rfl, by decide, by decide⟩
  have hwf3 : NeighborDelta.WellFormed ⟨removeNeighborCode, 1, 9⟩ :=
    ⟨.inr rfl, by decide, by decide⟩
  have h1 := h0.putDelta 7 hwf1
  have h2 := h1.putDelta 7 hwf2
  have hd1 : ∀ x ∈ (DeltaEvent.addNeighborDelta 7 1 5).deltas, x.2.WellFormed :=
    fun x hx => mem_singleton.1 hx ▸ hwf1
  have hd2 : ∀ x ∈ (DeltaEvent.addNeighborDelta 7 2 6).deltas, x.2.WellFormed :=
    fun x hx => mem_singleton.1 hx ▸ hwf2
  have hd3 : ∀ x ∈ (DeltaEvent.removeNeighborDelta 7 1 9).deltas, x.2.WellFormed :=
    fun x hx => mem_singleton.1 hx ▸ hwf3
  have run : Steps (guarded (GiantRecords.LandingStep follyGroupVarint .stable)
      (GiantRecords.DeltaStep follyGroupVarint .stable)) OrdMap.empty
      [.addNeighborDelta 7 1 5, .addNeighborDelta 7 2 6, .removeNeighborDelta 7 1 9] _ :=
    .cons ⟨h0.landingStep_of_newest rfl (by decide), hd1, rfl⟩
      (.cons ⟨h1.landingStep_of_newest rfl (by decide), hd2, rfl⟩
        (.cons ⟨h2.landingStep_of_newest rfl (by decide), hd3, rfl⟩ .nil))
  obtain ⟨⟨l, hl, hpw, hset⟩, -⟩ := readNeighborsWithDeltasApplied_run _ _ h0 run 7
  refine ⟨_, run.mono fun _ _ _ h => h.2, l, hl, hpw, hset.trans ?_⟩
  ext d
  simp [issuedOn, opsOn, opsOfLog, DeltaEvent.deltas, NeighborDelta.toOp, VertexDeltas.set,
    Lww.Op.apply, addNeighborCode, removeNeighborCode]

/-- Two neighbours added in one tick: the record of the second replaces that of the first. -/
theorem readNeighborsWithDeltasApplied_loses :
    ¬ ∀ (es : List DeltaEvent) (db : GiantRecords),
      Steps (GiantRecords.DeltaStep follyGroupVarint .stable) OrdMap.empty es db →
      (es.filterMap DeltaEvent.clock?).Pairwise (· ≤ ·) → ∀ v l,
      db.readNeighborsWithDeltasApplied follyGroupVarint .stable v = .ok l →
      {d | d ∈ l} = Lww.lww ∅ (issuedOn v es) := by
  intro hclaim
  have h0 := represents_empty follyGroupVarint
  have hwf1 : NeighborDelta.WellFormed ⟨addNeighborCode, 1, 5⟩ := ⟨.inl rfl, by decide, by decide⟩
  have hwf2 : NeighborDelta.WellFormed ⟨addNeighborCode, 2, 5⟩ := ⟨.inl rfl, by decide, by decide⟩
  have h2 := (h0.putDelta 7 hwf1).putDelta 7 hwf2
  have run : Steps (GiantRecords.DeltaStep follyGroupVarint .stable) OrdMap.empty
      [.addNeighborDelta 7 1 5, .addNeighborDelta 7 2 5] _ :=
    .cons ⟨fun x hx => mem_singleton.1 hx ▸ hwf1, rfl⟩
      (.cons ⟨fun x hx => mem_singleton.1 hx ▸ hwf2, rfl⟩ .nil)
  obtain ⟨s, hs, hm⟩ := h2.read .stable 7
  have hset := hclaim _ _ run (by decide) 7 _ hs
  have hissued : 1 ∈ Lww.lww (∅ : Set VId)
      (issuedOn 7 [.addNeighborDelta 7 1 5, .addNeighborDelta 7 2 5]) := by
    simp [issuedOn, opsOn, opsOfLog, DeltaEvent.deltas, NeighborDelta.toOp, Lww.Op.apply]
  rw [← hset, Set.mem_ofPred_eq, Finset.mem_sort, hm] at hissued
  simp [update_self, VertexDeltas.set, putByTime, opsOfLog, NeighborDelta.toOp,
    Lww.Op.apply] at hissued

end BwGraph
