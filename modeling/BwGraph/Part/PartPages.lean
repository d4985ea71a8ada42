import BwGraph.Part.PageSize
import BwGraph.Part.Partition

/-
  The pages of the constructor of `vertex_index_t` (`vertex_index.cc`): one for each part, with the
  lists of its vertices and without slots. The partitioner bounds the weight of a part, one for a
  vertex and one for each neighbour of a vertex that is not giant; the page builder checks bytes and
  counts. Twelve bytes for each unit of weight cover the entry, the encoded neighbours and the
  timestamps in every build (`partPages_ok`). What the weight does not bound is the degree of a
  giant vertex, which has to be a 32-bit number (`partPages_degree`).
-/

namespace BwGraph

open List

/-- `get_neighbors_span`. -/
def MemGraph.neighborsSpan (g : MemGraph) (v : VId) : List VId :=
  if v < g.vertexCount then g.neighbors v else []

/-- `induce_subgraph_iter`, in the order of its hash map. -/
def induceSubgraphIter (ho : HashOrder) (g : MemGraph) (inducedVertex : List VId) :
    List (VId × List VId) :=
  (ho.order inducedVertex.dedup).map fun v => (v, g.neighborsSpan v)

/-- The pages of the constructor, one a part. -/
def partPages (txn : Bool) (cfg : Config) (ho : HashOrder) (g : MemGraph)
    (partition : List (List VId)) : Except String (List (CsrPage × List (VId × Nat))) :=
  partition.mapM fun part => csrPageIn txn cfg (fun _ => 0) (induceSubgraphIter ho g part)

/-! ## Bytes for weight -/

variable (cfg : Config)

theorem encodedBytes_le (neighbors : List VId) :
    encodedBytes cfg neighbors ≤ 4 * neighbors.length := by
  unfold encodedBytes
  split_ifs
  · induction neighbors with
    | nil => exact Nat.le_refl 0
    | cons d neighbors ih =>
      have hd : ptvEncodedSize d ≤ 4 := by
        unfold ptvEncodedSize
        split_ifs <;> omega
      rw [map_cons, sum_cons, length_cons]
      omega
  · omega

/-- A unit of weight for the vertex, and one for each four bytes of its neighbours. -/
theorem vertexBytes_le (v : VId) (neighbors : List VId) :
    4 + vertexBytes cfg (fun _ => 0) v neighbors ≤ 4 * degreeWeight cfg neighbors.length := by
  unfold vertexBytes degreeWeight
  split_ifs
  · omega
  · have hle := encodedBytes_le cfg neighbors
    dsimp only
    omega

theorem sum_vertexBytes_le (items : List (VId × List VId)) :
    4 * items.length + (items.map fun it => vertexBytes cfg (fun _ => 0) it.1 it.2).sum ≤
      4 * (items.map fun it => degreeWeight cfg it.2.length).sum := by
  induction items with
  | nil => exact Nat.le_refl 0
  | cons it items ih =>
    have hone := vertexBytes_le cfg it.1 it.2
    rw [map_cons, map_cons, sum_cons, sum_cons, length_cons]
    omega

variable {cfg : Config} {part : List VId}

/-- The weight bounds all that the constructor checks, apart from the degrees. -/
theorem pageFits_of_weight (txn : Bool) {n bytes W : Nat}
    (hpage : cfg.headerBytes + 12 * W ≤ cfg.pageSize) (hsize : cfg.pageSize ≤ 65536)
    (hweight : 4 * n + bytes ≤ 4 * W) : PageFits txn cfg n bytes := by
  have hheader : 16 ≤ cfg.headerBytes := Nat.le_add_right 16 _
  have hts : tsDataSize txn bytes ≤ 2 * bytes := by
    unfold tsDataSize
    split_ifs <;> omega
  refine ⟨?_, ?_, ?_⟩
  · unfold uint16Max
    omega
  · unfold uint16Max
    omega
  · unfold csrVertexBytes
    omega

/-! ## The parts -/

theorem sum_dedup_le (w : VId → Nat) (part : List VId) :
    (part.dedup.map w).sum ≤ (part.map w).sum :=
  ((dedup_sublist part).map w).sum_le_sum fun _ _ => Nat.zero_le _

variable {g : MemGraph}

/-- The items of a part weigh no more than the part. -/
theorem weight_induceSubgraphIter (cfg : Config) (ho : HashOrder)
    (hpart : ∀ v ∈ part, v < g.vertexCount) :
    ((induceSubgraphIter ho g part).map fun it => degreeWeight cfg it.2.length).sum ≤
      blockWeightOriginal cfg g part := by
  have hperm := ho.perm part.dedup
  have hsame : (induceSubgraphIter ho g part).map (fun it => degreeWeight cfg it.2.length) =
      (ho.order part.dedup).map (nodeWeightOriginal cfg g) := by
    unfold induceSubgraphIter
    rw [map_map]
    refine map_congr_left fun v hv => ?_
    have hlt := hpart v (mem_dedup.1 (hperm.mem_iff.1 hv))
    rw [Function.comp_apply]
    unfold MemGraph.neighborsSpan nodeWeightOriginal
    rw [if_pos hlt]
  rw [hsame, (hperm.map _).sum_nat]
  exact sum_dedup_le _ part

variable {ho : HashOrder}

theorem degree_induceSubgraphIter {n : Nat} (hdeg : ∀ v ∈ part, (g.neighbors v).length ≤ n) :
    ∀ it ∈ induceSubgraphIter ho g part, it.2.length ≤ n := by
  intro it hit
  obtain ⟨v, hv, rfl⟩ := mem_map.1 hit
  have hmem := mem_dedup.1 ((ho.perm part.dedup).mem_iff.1 hv)
  show (g.neighborsSpan v).length ≤ n
  unfold MemGraph.neighborsSpan
  split_ifs
  · exact hdeg v hmem
  · exact Nat.zero_le n

/-- The page of one part. -/
theorem partPage_ok (txn : Bool) (ho : HashOrder) {W : Nat}
    (hpage : cfg.headerBytes + 12 * W ≤ cfg.pageSize) (hsize : cfg.pageSize ≤ 65536)
    (hpart : ∀ v ∈ part, v < g.vertexCount) (hweight : blockWeightOriginal cfg g part ≤ W)
    (hdeg : ∀ v ∈ part, (g.neighbors v).length ≤ uint32Max) :
    ∃ r, csrPageIn txn cfg (fun _ => 0) (induceSubgraphIter ho g part) = .ok r := by
  by_cases hne : induceSubgraphIter ho g part = []
  · unfold csrPageIn
    rw [if_pos hne]
    exact ⟨_, rfl⟩
  · rw [csrPageIn_ok_iff txn cfg _ hne]
    have hsum := sum_vertexBytes_le cfg (induceSubgraphIter ho g part)
    have hle := weight_induceSubgraphIter cfg ho hpart
    exact ⟨degree_induceSubgraphIter hdeg, pageFits_of_weight txn hpage hsize (by omega)⟩

theorem mapM_ok {α β : Type} {f : α → Except String β} {l : List α}
    (h : ∀ a ∈ l, ∃ b, f a = .ok b) : ∃ bs, l.mapM f = .ok bs := by
  induction l with
  | nil => exact ⟨[], rfl⟩
  | cons a l ih =>
    obtain ⟨b, hb⟩ := h a mem_cons_self
    obtain ⟨bs, hbs⟩ := ih fun a ha => h a (mem_cons_of_mem _ ha)
    refine ⟨b :: bs, ?_⟩
    rw [mapM_cons, hb]
    show l.mapM f >>= _ = _
    rw [hbs]
    rfl

/-- The pages of a partition whose parts weigh at most `W` are built, in every build, if twelve
bytes for each unit fit on the page and no vertex has more than 2^32 - 1 neighbours. -/
theorem partPages_ok (txn : Bool) (cfg : Config) (ho : HashOrder) (g : MemGraph) (W : Nat)
    (partition : List (List VId)) (hpage : 16 + cfg.maxBlockNeighbor * 4 + 12 * W ≤ cfg.pageSize)
    (hsize : cfg.pageSize ≤ 65536) (hparts : ∀ part ∈ partition, ∀ v ∈ part, v < g.vertexCount)
    (hweight : ∀ part ∈ partition, blockWeightOriginal cfg g part ≤ W)
    (hdeg : ∀ v < g.vertexCount, (g.neighbors v).length ≤ uint32Max) :
    ∃ pages, partPages txn cfg ho g partition = .ok pages :=
  mapM_ok fun part hp => partPage_ok txn ho hpage hsize (hparts part hp) (hweight part hp)
    fun v hv => hdeg v (hparts part hp v hv)

/-- Two neighbours and a vertex apart, on pages with room for a weight of 4. -/
theorem partPages_ok_three :
    let g := MemGraph.ofLists [[1], [0], []] (by decide)
    ∃ pages, partPages true ⟨128, 64, 2, 4, 1, 0, true⟩ .listed g [[0, 1], [2]] = .ok pages :=
  partPages_ok true ⟨128, 64, 2, 4, 1, 0, true⟩ .listed
    (MemGraph.ofLists [[1], [0], []] (by decide)) 4 [[0, 1], [2]] (by decide) (by decide) (by decide)
    (by decide) (by decide)

/-- One vertex with `degree` loops. -/
def loopsGraph (degree : Nat) : MemGraph where
  vertexCount := 1
  neighbors := fun _ => List.replicate degree 0
  neighbors_lt := fun _ d hd => by
    rw [List.eq_of_mem_replicate hd]
    exact Nat.one_pos

variable {degree : Nat}

theorem partPages_loops {txn : Bool} (h : uint32Max < degree) :
    ¬∃ pages, partPages txn cfg ho (loopsGraph degree) [[0]] = .ok pages := by
  intro hex
  obtain ⟨pages, hpages⟩ := hex
  have horder : ho.order [0] = [0] := perm_singleton.1 (ho.perm [0])
  have hitems : induceSubgraphIter ho (loopsGraph degree) [0] = [(0, replicate degree 0)] := by
    unfold induceSubgraphIter
    rw [show [0].dedup = [0] from rfl, horder]
    rfl
  unfold partPages at hpages
  rw [mapM_cons, hitems] at hpages
  rcases hpage : csrPageIn txn cfg (fun _ => 0) [(0, replicate degree 0)] with e | r
  · rw [hpage] at hpages
    exact nomatch hpages
  · have hle := ((csrPageIn_ok_iff txn cfg (fun _ => 0) (cons_ne_nil _ _)).1 ⟨r, hpage⟩).1 _
      mem_cons_self
    rw [length_replicate] at hle
    omega

theorem blockWeight_loops (h : cfg.giantDegreeBound ≤ degree) :
    blockWeightOriginal cfg (loopsGraph degree) [0] = 1 := by
  unfold blockWeightOriginal nodeWeightOriginal degreeWeight loopsGraph
  rw [map_singleton, sum_singleton, length_replicate, if_pos h]

/-- A giant vertex weighs 1, but with more than 2^32 - 1 neighbours its page is not built. -/
theorem partPages_giant (txn : Bool) (ho : HashOrder) (hgiant : cfg.giantDegreeBound ≤ degree)
    (h : uint32Max < degree) :
    (∀ part ∈ [[0]], ∀ v ∈ part, v < (loopsGraph degree).vertexCount) ∧
    (∀ part ∈ [[0]], blockWeightOriginal cfg (loopsGraph degree) part ≤ 1) ∧
    ¬∃ pages, partPages txn cfg ho (loopsGraph degree) [[0]] = .ok pages := by
  refine ⟨fun part hp v hv => ?_, fun part hp => ?_, partPages_loops h⟩
  · rw [mem_singleton.1 hp] at hv
    rw [mem_singleton.1 hv]
    exact Nat.one_pos
  · rw [mem_singleton.1 hp, blockWeight_loops hgiant]

/-- One vertex with 2^32 loops and a bound of 1, on pages of 128 bytes. -/
theorem partPages_degree :
    16 + 2 * 4 + 12 * 1 ≤ 128 ∧ 128 ≤ 65536 ∧
    (∀ part ∈ [[0]], ∀ v ∈ part, v < (loopsGraph (2 ^ 32)).vertexCount) ∧
    (∀ part ∈ [[0]],
      blockWeightOriginal ⟨128, 64, 2, 4, 1, 0, false⟩ (loopsGraph (2 ^ 32)) part ≤ 1) ∧
    ¬∃ pages, partPages false ⟨128, 64, 2, 4, 1, 0, false⟩ .listed (loopsGraph (2 ^ 32)) [[0]] =
      .ok pages :=
  have hgiant : (⟨128, 64, 2, 4, 1, 0, false⟩ : Config).giantDegreeBound ≤ 2 ^ 32 := by decide
  ⟨by decide, by decide, partPages_giant false .listed hgiant (by decide)⟩

end BwGraph
