import BwGraph.Part.Smo

/-
  The two size tests of a consolidation. `estimate_page_bytes` (`smo.cc`) selects `do_no_split`;
  the limits of the `csr_page_t` constructor (`io_csr.cc`) then decide whether the one page can be
  built. Both are modelled for all builds: raw or compressed neighbours (`cfg.neighborCompress`),
  with or without the timestamp section of the transaction build (`txn`).

  The estimate counts the neighbours of every vertex and no reserved slot. The constructor counts
  the slots, leaves out the giant vertices, and has 16-bit limits of its own that do not depend on
  the page size. `csrPageIn_ok_iff` says exactly when the page is built, `noSplit_builds_iff` what
  that means for a merged graph that passed the estimate.
-/

namespace BwGraph

open List

/-! ## The tests in all builds -/

/-- `ts_data_size`: a timestamp for every four bytes of the neighbour section. -/
def tsDataSize (txn : Bool) (neighborDataSize : Nat) : Nat :=
  if txn then neighborDataSize / 4 * 8 else 0

/-- `estimate_page_bytes`. -/
def estimatePageBytesIn (txn : Bool) (cfg : Config) (graph : AdjMap) : Nat :=
  cfg.headerBytes + (graph.keys.map fun v =>
    csrVertexBytes + (graph.get v).length * 4 + if txn then (graph.get v).length * 8 else 0).sum

/-- The constructor of `csr_page_t` with per-vertex slots. The timestamps themselves are zero when
it returns; they count in `used_bytes_`. -/
def csrPageIn (txn : Bool) (cfg : Config) (slots : VId → Nat) (items : List (VId × List VId)) :
    Except String (CsrPage × List (VId × Nat)) :=
  if items = [] then .ok (CsrPage.empty, [])
  else do
    let acc ← items.foldlM (CsrLayout.addVertex cfg slots) ⟨[], 0, []⟩
    if items.length > uint16Max then
      .error ("Vertex count exceeds uint16_t limit: " ++ toString items.length)
    else if acc.totalEdgeCount > uint16Max then
      .error ("Edge count exceeds uint16_t limit: " ++ toString acc.totalEdgeCount)
    else
      let totalRequired := cfg.headerBytes + acc.vertices.length * csrVertexBytes +
        acc.allNeighborBytes.length + tsDataSize txn acc.allNeighborBytes.length
      if totalRequired > cfg.pageSize then
        .error ("CSR data too large for single page: " ++ toString totalRequired ++
          " bytes required, " ++ toString cfg.pageSize ++ " bytes available")
      else
        .ok (⟨acc.totalEdgeCount, totalRequired, acc.vertices, acc.allNeighborBytes⟩,
          vertexMap acc.vertices)

/-- Without transactions these are the functions of the other modules. -/
theorem estimatePageBytesIn_false (cfg : Config) (graph : AdjMap) :
    estimatePageBytesIn false cfg graph = estimatePageBytes cfg graph := rfl

theorem csrPageIn_false (cfg : Config) (slots : VId → Nat) (items : List (VId × List VId)) :
    csrPageIn false cfg slots items = buildFromAdjacencyMap cfg slots items := rfl

/-! ## Bytes of a vertex -/

/-- The encoded neighbours of a list. -/
def encodedBytes (cfg : Config) (neighbors : List VId) : Nat :=
  if cfg.neighborCompress then (neighbors.map ptvEncodedSize).sum else neighbors.length * 4

/-- What a vertex takes in the neighbour section: nothing for a giant one, else its encoded
neighbours and four bytes for each reserved slot. -/
def vertexBytes (cfg : Config) (slots : VId → Nat) (v : VId) (neighbors : List VId) : Nat :=
  if neighbors.length ≥ cfg.giantDegreeBound then 0
  else encodedBytes cfg neighbors + slots v * 4

variable (cfg : Config) (neighbors : List VId)

theorem length_neighborBytes (slot : Nat) :
    (neighborBytes cfg neighbors slot).length = encodedBytes cfg neighbors + slot * 4 := by
  unfold neighborBytes encodedBytes
  split_ifs with h
  · rw [length_append, length_flatMap, length_flatten, map_replicate,
      sum_replicate_nat]
    simp only [ptvWrite_length]
    rfl
  · rw [length_append, length_flatMap_wordWrite, length_flatten, map_replicate,
      sum_replicate_nat, Nat.mul_comm 4]
    rfl

theorem length_block (cfg : Config) (slots : VId → Nat) (item : VId × List VId) :
    (block cfg slots item).length = vertexBytes cfg slots item.1 item.2 := by
  unfold block vertexBytes
  split_ifs
  · rfl
  · exact length_neighborBytes cfg item.2 _

/-- Every neighbour takes a byte at least. -/
theorem length_le_encodedBytes : neighbors.length ≤ encodedBytes cfg neighbors := by
  unfold encodedBytes
  split_ifs
  · induction neighbors with
    | nil => rfl
    | cons d neighbors ih =>
      have hd : 1 ≤ ptvEncodedSize d := by
        unfold ptvEncodedSize
        split_ifs <;> omega
      rw [map_cons, sum_cons, length_cons]
      omega
  · omega

/-! ## When the constructor returns -/

/-- One vertex passes the checks of the loop. -/
theorem addVertex_ok_iff {cfg : Config} {slots : VId → Nat} {acc : CsrLayout}
    {item : VId × List VId} (hacc : acc.allNeighborBytes.length ≤ uint16Max) :
    (∃ acc', acc.addVertex cfg slots item = .ok acc') ↔
      item.2.length ≤ uint32Max ∧
        acc.allNeighborBytes.length + vertexBytes cfg slots item.1 item.2 ≤ uint16Max := by
  unfold CsrLayout.addVertex vertexBytes
  simp only [length_neighborBytes]
  by_cases h1 : item.2.length > uint32Max
  · simp [h1, Nat.not_le.2 h1]
  · by_cases h2 : item.2.length ≥ cfg.giantDegreeBound
    · simp [h1, h2, Nat.not_lt.1 h1, hacc]
    · simp only [if_neg h1, if_neg h2]
      split_ifs with h3
      · simp [Nat.not_le.2 h3]
      · simp [Nat.not_lt.1 h1, Nat.not_lt.1 h3]

variable {acc acc' : CsrLayout} {slots : VId → Nat}

/-- The edge count never passes the bytes, so the 16-bit limit on it adds nothing. -/
theorem addVertex_edges {cfg : Config} {item : VId × List VId}
    (h : acc.addVertex cfg slots item = .ok acc')
    (hacc : acc.totalEdgeCount ≤ acc.allNeighborBytes.length) :
    acc'.totalEdgeCount ≤ acc'.allNeighborBytes.length := by
  unfold CsrLayout.addVertex at h
  simp only at h
  split_ifs at h with h1 h2 h3
  · cases h
    exact hacc
  · cases h
    have hd := length_le_encodedBytes cfg item.2
    simp only [length_append, length_neighborBytes]
    omega

/-- The loop passes its checks if and only if no degree and no prefix of the section is too long,
and the section is longest at the end. -/
theorem foldlM_addVertex_ok_iff {cfg : Config} {slots : VId → Nat} (items : List (VId × List VId))
    {acc : CsrLayout} (hacc : acc.allNeighborBytes.length ≤ uint16Max) :
    (∃ acc', items.foldlM (CsrLayout.addVertex cfg slots) acc = .ok acc') ↔
      (∀ it ∈ items, it.2.length ≤ uint32Max) ∧
        acc.allNeighborBytes.length +
          (items.map fun it => vertexBytes cfg slots it.1 it.2).sum ≤ uint16Max := by
  induction items generalizing acc with
  | nil => simpa [pure, Except.pure] using hacc
  | cons item items ih =>
    rw [foldlM_cons, forall_mem_cons, map_cons, sum_cons]
    have hone := @addVertex_ok_iff cfg slots acc item hacc
    cases h1 : acc.addVertex cfg slots item with
    | error e =>
      have hno : ¬ (item.2.length ≤ uint32Max ∧
          acc.allNeighborBytes.length + vertexBytes cfg slots item.1 item.2 ≤ uint16Max) := by
        rw [← hone, h1]
        rintro ⟨_, h⟩
        cases h
      constructor
      · rintro ⟨_, h⟩
        cases h
      · rintro ⟨⟨hd, -⟩, hs⟩
        exact absurd ⟨hd, by omega⟩ hno
    | ok acc1 =>
      obtain ⟨hd, hs⟩ := hone.1 ⟨acc1, h1⟩
      have hlen : acc1.allNeighborBytes.length =
          acc.allNeighborBytes.length + vertexBytes cfg slots item.1 item.2 := by
        rw [(addVertex_layout h1).2, length_append, length_block]
      have hrest := @ih acc1 (by omega)
      rw [hlen, Nat.add_assoc] at hrest
      refine hrest.trans ?_
      exact and_congr_left' ⟨fun h => ⟨hd, h⟩, fun h => h.2⟩

theorem foldlM_addVertex_edges {cfg : Config} (items : List (VId × List VId))
    (h : items.foldlM (CsrLayout.addVertex cfg slots) acc = .ok acc')
    (hacc : acc.totalEdgeCount ≤ acc.allNeighborBytes.length) :
    acc'.totalEdgeCount ≤ acc'.allNeighborBytes.length := by
  induction items generalizing acc with
  | nil =>
    cases h
    exact hacc
  | cons item items ih =>
    rw [foldlM_cons] at h
    cases h1 : acc.addVertex cfg slots item with
    | error e => rw [h1] at h; cases h
    | ok acc1 =>
      rw [h1] at h
      exact ih h (addVertex_edges h1 hacc)

/-- What the limits of the constructor ask of a graph with `n` vertices and a neighbour section of
`bytes` bytes. -/
structure PageFits (txn : Bool) (cfg : Config) (n bytes : Nat) : Prop where
  vertices : n ≤ uint16Max
  offsets : bytes ≤ uint16Max
  page : cfg.headerBytes + n * csrVertexBytes + bytes + tsDataSize txn bytes ≤ cfg.pageSize

/-- The constructor returns a page for a non-empty map if and only if the limits hold. -/
theorem csrPageIn_ok_iff (txn : Bool) (cfg : Config) (slots : VId → Nat)
    {items : List (VId × List VId)} (hne : items ≠ []) :
    (∃ r, csrPageIn txn cfg slots items = .ok r) ↔
      (∀ it ∈ items, it.2.length ≤ uint32Max) ∧
        PageFits txn cfg items.length
          (items.map fun it => vertexBytes cfg slots it.1 it.2).sum := by
  have hloop := @foldlM_addVertex_ok_iff cfg slots items ⟨[], 0, []⟩ (Nat.zero_le _)
  simp only [length_nil, Nat.zero_add] at hloop
  unfold csrPageIn
  rw [if_neg hne]
  cases hf : items.foldlM (CsrLayout.addVertex cfg slots) ⟨[], 0, []⟩ with
  | error e =>
    refine iff_of_false ?_ fun h => ?_
    · rintro ⟨_, h⟩
      cases h
    · obtain ⟨_, hok⟩ := hloop.2 ⟨h.1, h.2.offsets⟩
      rw [hf] at hok
      cases hok
  | ok acc =>
    obtain ⟨hdeg, hoff⟩ := hloop.1 ⟨acc, hf⟩
    obtain ⟨hv, hb⟩ := foldlM_addVertex_layout items hf
    have hlen : acc.vertices.length = items.length := by
      rw [hv, length_append, length_lay]
      exact Nat.zero_add _
    have hbytes : acc.allNeighborBytes.length =
        (items.map fun it => vertexBytes cfg slots it.1 it.2).sum := by
      rw [hb, length_append, length_flatMap]
      simp only [length_block, length_nil, Nat.zero_add]
    have hedges := foldlM_addVertex_edges items hf (Nat.zero_le _)
    simp only [bind, Except.bind, hlen, hbytes] at hedges ⊢
    split_ifs with h1 h2 h3
    · exact iff_of_false (by rintro ⟨_, h⟩; cases h) fun h => absurd h.2.vertices (Nat.not_le.2 h1)
    · exact iff_of_false (by rintro ⟨_, h⟩; cases h) fun h =>
        absurd (hedges.trans h.2.offsets) (Nat.not_le.2 h2)
    · exact iff_of_false (by rintro ⟨_, h⟩; cases h) fun h => absurd h.2.page (Nat.not_le.2 h3)
    · exact iff_of_true ⟨_, rfl⟩ ⟨hdeg, Nat.not_lt.1 h1, hoff, Nat.not_lt.1 h3⟩

/-! ## `do_no_split` -/

/-- The items of the merged graph in the order of the view. -/
def viewItems (ho : HashOrder) (graph : AdjMap) : List (VId × List VId) :=
  (ho.order graph.keys).map fun v => (v, graph.get v)

/-- The neighbour section of the merged graph, slots included. -/
def sectionBytes (cfg : Config) (slots : VId → Nat) (graph : AdjMap) : Nat :=
  (graph.keys.map fun v => vertexBytes cfg slots v (graph.get v)).sum

/-- For a merged graph that passed the estimate the constructor of `do_no_split` returns if and
only if the degrees are 32-bit numbers, there are at most 65535 vertices, the neighbour section
with the reserved slots has at most 65535 bytes, and the page has room for all of it. -/
theorem noSplit_builds_iff (txn : Bool) (cfg : Config) (slots : VId → Nat) (ho : HashOrder)
    (graph : AdjMap) (hest : estimatePageBytesIn txn cfg graph ≤ cfg.pageSize) :
    (∃ r, csrPageIn txn cfg slots (viewItems ho graph) = .ok r) ↔
      (∀ v ∈ graph.keys, (graph.get v).length ≤ uint32Max) ∧
        PageFits txn cfg graph.keys.length (sectionBytes cfg slots graph) := by
  have hperm := ho.perm graph.keys
  have hlen : (viewItems ho graph).length = graph.keys.length := by
    rw [viewItems, List.length_map, hperm.length_eq]
  have hsum : ((viewItems ho graph).map fun it => vertexBytes cfg slots it.1 it.2).sum =
      sectionBytes cfg slots graph := by
    rw [viewItems, List.map_map]
    exact (hperm.map _).sum_nat
  by_cases hne : viewItems ho graph = []
  · -- the empty map is written without any check, and the estimate is the header
    have hkeys : graph.keys = [] := by
      rw [← List.length_eq_zero_iff, ← hlen, hne]
      rfl
    rw [hne]
    refine iff_of_true ⟨_, rfl⟩ ?_
    unfold sectionBytes
    unfold estimatePageBytesIn at hest
    rw [hkeys] at hest ⊢
    refine ⟨fun v hv => absurd hv List.not_mem_nil, Nat.zero_le _, Nat.zero_le _, ?_⟩
    cases txn <;> simpa [tsDataSize] using hest
  · rw [csrPageIn_ok_iff txn cfg slots hne, hlen, hsum]
    refine and_congr_left' ⟨fun h v hv => ?_, fun h it hit => ?_⟩
    · exact h (v, graph.get v) (List.mem_map.2 ⟨v, hperm.mem_iff.2 hv, rfl⟩)
    · obtain ⟨v, hv, rfl⟩ := List.mem_map.1 hit
      exact h v (hperm.mem_iff.1 hv)

/-- A graph of one vertex with the neighbours below its degree. -/
def slottedGraph (degree : Nat) : AdjMap := AList.insert 0 (List.range degree) ∅

/-- Pages of 128 bytes with a header of 24. -/
def slottedConfig : Config := ⟨128, 64, 2, 100, 4, 4, false⟩

theorem noSplit_builds_slots :
    estimatePageBytesIn true slottedConfig (slottedGraph 4) ≤ slottedConfig.pageSize ∧
      ∃ r, csrPageIn true slottedConfig (fun _ => 2) (viewItems .listed (slottedGraph 4)) = .ok r :=
  ⟨by decide, (noSplit_builds_iff true slottedConfig (fun _ => 2) .listed (slottedGraph 4)
    (by decide)).2 ⟨by decide, by decide, by decide, by decide⟩⟩

/-- With 22 neighbours the estimate is 124 bytes, and the four slots need 16 more. -/
theorem noSplit_throws_slots :
    estimatePageBytesIn false slottedConfig (slottedGraph 22) ≤ slottedConfig.pageSize ∧
      ∃ e, csrPageIn false slottedConfig (fun _ => 4) (viewItems .listed (slottedGraph 22)) =
        .error e := ⟨by decide, _, rfl⟩

end BwGraph
