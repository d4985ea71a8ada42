import Mathlib.Data.List.Dedup
import BwGraph.Part.Partition

/-
  `compress_block_ids` (`partition.h`) renumbers the blocks after the refinement, which leaves
  gaps. The numbers are given out in the order in which the hash map is read; whatever that order
  is, exactly the numbers below the number of blocks are in use afterwards.
-/

namespace BwGraph

variable {env : PartitionEnv} {blockOf : BlockMap}

/-- The numbers of the blocks that have a vertex. -/
def usedBlocks (blockOf : BlockMap) : List Nat :=
  (blockOf.entries.map Sigma.snd).dedup

theorem mem_usedBlocks {b : Nat} : b ∈ usedBlocks blockOf ↔ ∃ v, blockOf.lookup v = some b := by
  unfold usedBlocks
  rw [List.mem_dedup, List.mem_map]
  constructor
  · intro h
    obtain ⟨⟨v, c⟩, hmem, rfl⟩ := h
    exact ⟨v, AList.mem_lookup_iff.2 hmem⟩
  · intro h
    obtain ⟨v, hv⟩ := h
    exact ⟨⟨v, b⟩, AList.mem_lookup_iff.1 hv, rfl⟩

/-- Every number given out belongs to a block in use. -/
def Filled (blockOf : BlockMap) (acc : (Nat → Option Nat) × Nat) : Prop :=
  ∀ i < acc.2, ∃ b ∈ usedBlocks blockOf, acc.1 b = some i

variable {acc : (Nat → Option Nat) × Nat}

theorem Filled.step (h : Filled blockOf acc) (v : VId) :
    Filled blockOf (remapBlock blockOf acc v) := by
  unfold remapBlock
  rcases hv : blockOf.lookup v with _ | bid
  · exact h
  dsimp only
  rcases hr : acc.1 bid with _ | n
  · intro i hi
    have hi : i < acc.2 + 1 := hi
    show ∃ b ∈ usedBlocks blockOf, Function.update acc.1 bid (some acc.2) b = some i
    by_cases he : i = acc.2
    · refine ⟨bid, mem_usedBlocks.2 ⟨v, hv⟩, ?_⟩
      rw [Function.update_self, he]
    · -- an earlier number: its block is not `bid`, which had none
      obtain ⟨b, hb, hi⟩ := h i (by omega)
      refine ⟨b, hb, ?_⟩
      rw [Function.update_of_ne, hi]
      intro hbid
      rw [hbid, hr] at hi
      exact nomatch hi
  · exact h

theorem Filled.foldl (h : Filled blockOf acc) (l : List VId) :
    Filled blockOf (l.foldl (remapBlock blockOf) acc) := by
  induction l generalizing acc with
  | nil => exact h
  | cons v l ih => exact ih (h.step v)

end BwGraph
