import BwGraph.Common.PtvCodec

/-
  `csr_page_t` (`io_csr.cc`) and `csr_page_builder_t` (`builder.cc`). A page is its parsed form:
  the vertex array and the bytes of the neighbour section. `buildFromAdjacencyMap` and the page
  builder are the two ways to lay out a page; `insertEdgeInSlot` is the in-place write. The page
  data of a layout is stated once, by `lay` and `block`: both constructors, when they return,
  produce it (`buildFromAdjacencyMap_ok`, `Packs.build`), and reading an entry of it gives the
  neighbours back (`CsrPage.Laid.readNeighbors`).

  The builder writes raw words in every build, while a page of the compressed build is read as
  PTV bytes: `Packs.build_laid` holds for the raw build only. The parent page number and the
  neighbour block of a page belong to the index tree and are left out.
-/

namespace BwGraph

open List

/-- A parsed `csr_page_t`; `numVertices` is the length of the vertex array. -/
structure CsrPage where
  numEdges : Nat
  usedBytes : Nat
  vertexSpan : List CsrVertex
  neighborData : List Nat
  deriving DecidableEq, Repr

namespace CsrPage

/-- The page built from an empty adjacency map, which is also what a zeroed page parses to. -/
def empty : CsrPage := ⟨0, 0, [], []⟩

/-- `get_num_vertices`. -/
def numVertices (page : CsrPage) : Nat := page.vertexSpan.length

/-- `get_neighbors`: raw words. -/
def getNeighbors (cfg : Config) (page : CsrPage) (vertexOffset : Nat) : List VId :=
  match page.vertexSpan[vertexOffset]? with
  | none => []
  | some vertex =>
    if vertex.degree ≥ cfg.giantDegreeBound then []
    else wordReads vertex.degree (page.neighborData.drop (vertex.offset / 4 * 4))

/-- `get_neighbor_ptv_range`, iterated. -/
def getNeighborPtvRange (cfg : Config) (page : CsrPage) (vertexOffset : Nat) : List VId :=
  match page.vertexSpan[vertexOffset]? with
  | none => []
  | some vertex =>
    if vertex.degree ≥ cfg.giantDegreeBound then []
    else ptvReads vertex.degree (page.neighborData.drop vertex.offset)

/-- The neighbours a reader of this build decodes. -/
def readNeighbors (cfg : Config) (page : CsrPage) (vertexOffset : Nat) : List VId :=
  if cfg.neighborCompress then page.getNeighborPtvRange cfg vertexOffset
  else page.getNeighbors cfg vertexOffset

/-- Entry `i` of the page is an undeleted one of vertex `v`. -/
def HasEntry (page : CsrPage) (v : VId) (i : Nat) : Prop :=
  ∃ e : CsrVertex, page.vertexSpan[i]? = some e ∧ e.vertexId = v ∧ e.isDeleted = false

end CsrPage

/-! ## Building a page from an adjacency map -/

/-- The bytes of one normal vertex: its neighbours, then its empty slots. -/
def neighborBytes (cfg : Config) (neighbors : List VId) (slot : Nat) : List Nat :=
  if cfg.neighborCompress then
    neighbors.flatMap ptvWrite ++ (List.replicate slot (ptvWriteSlot 0)).flatten
  else neighbors.flatMap wordWrite ++ (List.replicate slot (wordWrite 0)).flatten

/-- The locals of `build_from_adjacency_map`; `current_byte_offset` is the length of the data. -/
structure CsrLayout where
  vertices : List CsrVertex
  totalEdgeCount : Nat
  allNeighborBytes : List Nat

/-- One iteration of the loop of `build_from_adjacency_map`. -/
def CsrLayout.addVertex (cfg : Config) (slots : VId → Nat) (acc : CsrLayout)
    (item : VId × List VId) : Except String CsrLayout :=
  let degree := item.2.length
  if degree > uint32Max then .error "Vertex degree exceeds uint32_t limit"
  else if degree ≥ cfg.giantDegreeBound then
    .ok { acc with vertices := acc.vertices ++ [⟨item.1, degree, 0, 0⟩] }
  else
    let bytes := neighborBytes cfg item.2 (slots item.1)
    let needed := acc.allNeighborBytes.length + bytes.length
    if needed > uint16Max then
      .error ("Neighbor data offset exceeds uint16_t limit (65535 bytes). " ++
        "Page has too much neighbor data: " ++ toString needed ++ " bytes")
    else
      .ok { vertices := acc.vertices ++ [⟨item.1, degree, acc.allNeighborBytes.length, 0⟩]
            totalEdgeCount := acc.totalEdgeCount + degree
            allNeighborBytes := acc.allNeighborBytes ++ bytes }

/-- `vertex_map`: the index of each vertex in the page. -/
def vertexMap (vertices : List CsrVertex) : List (VId × Nat) :=
  vertices.zipIdx.map fun p => (p.1.vertexId, p.2)

/-- `csr_page_t::build_from_adjacency_map`, over the items of the map in iteration order. -/
def buildFromAdjacencyMap (cfg : Config) (slots : VId → Nat) (items : List (VId × List VId)) :
    Except String (CsrPage × List (VId × Nat)) :=
  if items = [] then .ok (CsrPage.empty, [])
  else do
    let acc ← items.foldlM (CsrLayout.addVertex cfg slots) ⟨[], 0, []⟩
    if items.length > uint16Max then
      .error ("Vertex count exceeds uint16_t limit: " ++ toString items.length)
    else if acc.totalEdgeCount > uint16Max then
      .error ("Edge count exceeds uint16_t limit: " ++ toString acc.totalEdgeCount)
    else
      let totalRequired := cfg.headerBytes + acc.vertices.length * csrVertexBytes +
        acc.allNeighborBytes.length
      if totalRequired > cfg.pageSize then
        .error ("CSR data too large for single page: " ++ toString totalRequired ++
          " bytes required, " ++ toString cfg.pageSize ++ " bytes available")
      else
        .ok (⟨acc.totalEdgeCount, totalRequired, acc.vertices, acc.allNeighborBytes⟩,
          vertexMap acc.vertices)

/-! ## The page builder -/

/-- `csr_page_builder_t`; `entries` are its parallel arrays `vertices_`, `degrees_`, `offsets_`. -/
structure CsrPageBuilder where
  entries : List CsrVertex
  edges : List VId
  currentEdgeOffset : Nat
  giantVertices : List (VId × List VId)

namespace CsrPageBuilder

/-- A fresh builder. -/
def init : CsrPageBuilder := ⟨[], [], 0, []⟩

/-- `is_empty`. -/
def isEmpty (b : CsrPageBuilder) : Bool := b.entries.isEmpty

/-- `estimated_size`. -/
def estimatedSize (cfg : Config) (b : CsrPageBuilder) : Nat :=
  cfg.headerBytes + b.entries.length * csrVertexBytes + b.edges.length * 4

/-- `add_vertex`; `none` is the result `false`, which leaves the builder as it was. -/
def addVertex (cfg : Config) (b : CsrPageBuilder) (vertexId : VId) (neighbors : List VId)
    (perVertexSlots : Nat) : Except String (Option CsrPageBuilder) :=
  let degree := neighbors.length
  let isGiant := decide (degree ≥ cfg.giantDegreeBound)
  let newEstimatedSize := b.estimatedSize cfg + csrVertexBytes +
    if isGiant then 0 else (degree + perVertexSlots) * 4
  if newEstimatedSize > cfg.pageSize ∧ !b.entries.isEmpty then .ok none
  else if isGiant then
    .ok (some { b with
      entries := b.entries ++ [⟨vertexId, degree, 0, 0⟩]
      giantVertices := b.giantVertices ++ [(vertexId, neighbors)] })
  else if b.currentEdgeOffset > uint16Max then .error "Byte offset exceeds uint16_t limit"
  else
    .ok (some { b with
      entries := b.entries ++ [⟨vertexId, degree, b.currentEdgeOffset, 0⟩]
      edges := b.edges ++ neighbors ++ List.replicate perVertexSlots 0
      currentEdgeOffset := b.currentEdgeOffset + (degree + perVertexSlots) * 4 })

/-- `clear_all`, which keeps `giant_vertices_`. -/
def clearAll (b : CsrPageBuilder) : CsrPageBuilder := ⟨[], [], 0, b.giantVertices⟩

/-- `build`: the page, its vertex map and the cleared builder. -/
def build (cfg : Config) (b : CsrPageBuilder) :
    Except String (CsrPage × List (VId × Nat) × CsrPageBuilder) :=
  if b.entries.isEmpty then .error "Cannot build empty CSR page"
  else
    let giantSet := b.giantVertices.map Prod.fst
    let numEdges := ((b.entries.filter fun e => e.vertexId ∉ giantSet).map CsrVertex.degree).sum
    if b.entries.length > uint16Max then .error "Vertex count exceeds uint16_t limit"
    else if numEdges > uint16Max then .error "Edge count exceeds uint16_t limit"
    else
      let totalSize := cfg.headerBytes + b.entries.length * csrVertexBytes + b.edges.length * 4
      if totalSize > cfg.pageSize then
        .error ("CSR data too large for page: " ++ toString totalSize ++ " bytes required, " ++
          toString cfg.pageSize ++ " bytes available")
      else
        .ok (⟨numEdges, totalSize, b.entries, b.edges.flatMap wordWrite⟩,
          vertexMap b.entries, b.clearAll)

end CsrPageBuilder

/-! ## The in-place write -/

/-- Overwrite the word at index `i` of the neighbour section. -/
def setWord (data : List Nat) (i : Nat) (id : VId) : List Nat :=
  data.take (i * 4) ++ wordWrite id ++ data.drop (i * 4 + 4)

/-- `insert_edge_in_slot`. -/
def CsrPage.insertEdgeInSlot (cfg : Config) (page : CsrPage) (srcVertexOffset : Nat)
    (srcVertexId destVertexId : VId) : InsertStatus × CsrPage :=
  match page.vertexSpan[srcVertexOffset]? with
  | none => (.failed, page)
  | some vertexItem =>
    if cfg.neighborCompress then (.slotFull, page)
    else if srcVertexId ≠ vertexItem.vertexId then (.failed, page)
    else if vertexItem.degree ≥ cfg.giantDegreeBound then (.failed, page)
    else
      let neighborEndIdx := vertexItem.offset / 4 + vertexItem.degree
      let neighborCapacityEndIdx :=
        match page.vertexSpan[srcVertexOffset + 1]? with
        | some nextVertexItem => nextVertexItem.offset / 4
        | none =>
          (page.usedBytes - 16 - cfg.maxBlockNeighbor * 4 - page.numVertices * csrVertexBytes) / 4
      if neighborEndIdx ≥ neighborCapacityEndIdx then (.slotFull, page)
      else
        let requiredBytes := cfg.headerBytes + page.numVertices * csrVertexBytes +
          (neighborEndIdx + 1) * 4
        (.inserted,
          { numEdges := page.numEdges + 1
            usedBytes := if requiredBytes > page.usedBytes then requiredBytes else page.usedBytes
            vertexSpan := page.vertexSpan.set srcVertexOffset
              { vertexItem with degree := vertexItem.degree + 1 }
            neighborData := setWord page.neighborData neighborEndIdx destVertexId })

/-! ## What the constructors lay out -/

/-- The vertex array of a page whose neighbour section is the blocks of `items` from byte `off`
on; a giant vertex has offset 0. -/
def lay (cfg : Config) (block : VId × List VId → List Nat) :
    Nat → List (VId × List VId) → List CsrVertex
  | _, [] => []
  | off, item :: items =>
    if item.2.length ≥ cfg.giantDegreeBound then
      ⟨item.1, item.2.length, 0, 0⟩ :: lay cfg block off items
    else ⟨item.1, item.2.length, off, 0⟩ :: lay cfg block (off + (block item).length) items

/-- The bytes `build_from_adjacency_map` stores for a vertex; none for a giant one. -/
def block (cfg : Config) (slots : VId → Nat) (item : VId × List VId) : List Nat :=
  if item.2.length ≥ cfg.giantDegreeBound then [] else neighborBytes cfg item.2 (slots item.1)

/-- The bytes the page builder stores for a vertex. -/
def rawBlock (cfg : Config) (slots : VId → Nat) (item : VId × List VId) : List Nat :=
  if item.2.length ≥ cfg.giantDegreeBound then []
  else (item.2 ++ List.replicate (slots item.1) 0).flatMap wordWrite

section

variable (cfg : Config)

theorem lay_append (blk : VId × List VId → List Nat)
    (hblk : ∀ it : VId × List VId, it.2.length ≥ cfg.giantDegreeBound → blk it = []) (off : Nat)
    (xs ys : List (VId × List VId)) :
    lay cfg blk off (xs ++ ys) =
      lay cfg blk off xs ++ lay cfg blk (off + (xs.flatMap blk).length) ys := by
  induction xs generalizing off with
  | nil => simp [lay]
  | cons x xs ih =>
    simp only [cons_append, lay]
    split_ifs with hx
    · simp [ih, hblk x hx]
    · simp [ih, Nat.add_assoc]

section

variable (slots : VId → Nat) (it : VId × List VId) (h : it.2.length ≥ cfg.giantDegreeBound)
include h

theorem block_giant : block cfg slots it = [] := by
  simp [block, h]

theorem rawBlock_giant : rawBlock cfg slots it = [] := by
  simp [rawBlock, h]

end

section

variable (blk : VId × List VId → List Nat) (off : Nat) (items : List (VId × List VId))

theorem lay_vertexIds : (lay cfg blk off items).map CsrVertex.vertexId = items.map Prod.fst := by
  induction items generalizing off with
  | nil => rfl
  | cons x xs ih =>
    simp only [lay]
    split_ifs <;> simp [ih]

theorem length_lay : (lay cfg blk off items).length = items.length := by
  have h := congrArg List.length (lay_vertexIds cfg blk off items)
  simpa using h

end

theorem getElem?_lay (blk : VId × List VId → List Nat)
    (hblk : ∀ it : VId × List VId, it.2.length ≥ cfg.giantDegreeBound → blk it = []) (off : Nat)
    (items : List (VId × List VId)) (i : Nat) :
    (lay cfg blk off items)[i]? = items[i]?.map fun it =>
      ⟨it.1, it.2.length, if it.2.length ≥ cfg.giantDegreeBound then 0
        else off + ((items.take i).flatMap blk).length, 0⟩ := by
  induction items generalizing off i with
  | nil => simp [lay]
  | cons x xs ih =>
    cases i with
    | zero =>
      simp only [lay]
      split_ifs with hx
      · simp [hx]
      · have hx' : ¬ cfg.giantDegreeBound ≤ x.2.length := hx
        simp [hx']
    | succ i =>
      simp only [lay]
      split_ifs with hx
      · simp [ih, hblk x hx]
      · simp [ih, Nat.add_assoc]

end

theorem drop_flatMap_take {α β : Type} (f : α → List β) (items : List α) (i : Nat) :
    (items.flatMap f).drop ((items.take i).flatMap f).length = (items.drop i).flatMap f := by
  conv_lhs => rw [← take_append_drop i items, flatMap_append]
  rw [take_append_drop]
  exact drop_left

/-- Ids that every encoding of this build stores: 30 bits of a PTV entry, 32 of a raw word. -/
def Config.idLimit (cfg : Config) : Nat := if cfg.neighborCompress then 2 ^ 30 else 2 ^ 32

theorem block_eq_rawBlock {cfg : Config} (h : cfg.neighborCompress = false) (slots : VId → Nat) :
    block cfg slots = rawBlock cfg slots := by
  have hflat : ∀ n : Nat, (replicate n (wordWrite 0)).flatten =
      (replicate n 0).flatMap wordWrite := by
    intro n
    rw [flatMap_def, map_replicate]
  funext it
  simp [block, rawBlock, neighborBytes, h, hflat]

theorem length_rawBlock (cfg : Config) (slots : VId → Nat) (it : VId × List VId) :
    4 ∣ (rawBlock cfg slots it).length := by
  unfold rawBlock
  split_ifs
  · exact Nat.dvd_zero 4
  · rw [length_flatMap_wordWrite]
    exact Nat.dvd_mul_right 4 _

theorem dvd_length_flatMap {α β : Type} (f : α → List β) (k : Nat) (h : ∀ a, k ∣ (f a).length)
    (l : List α) : k ∣ (l.flatMap f).length := by
  induction l with
  | nil => simp
  | cons a l ih =>
    rw [flatMap_cons, length_append]
    exact Nat.dvd_add (h a) ih

/-- A page as the constructors lay it out: the vertex array and the neighbour section of
`items`. -/
structure CsrPage.Laid (cfg : Config) (slots : VId → Nat) (page : CsrPage)
    (items : List (VId × List VId)) : Prop where
  vertexSpan : page.vertexSpan = lay cfg (block cfg slots) 0 items
  neighborData : page.neighborData = items.flatMap (block cfg slots)

namespace CsrPage.Laid

variable {cfg : Config} {slots : VId → Nat} {page : CsrPage} {items : List (VId × List VId)}

variable {nbrs : List VId}

variable (h : page.Laid cfg slots items) {i : Nat}
include h

variable {v : VId}

variable (hi : items[i]? = some (v, nbrs))
include hi

theorem hasEntry : page.HasEntry v i := by
  unfold CsrPage.HasEntry
  rw [h.vertexSpan, getElem?_lay cfg _ (block_giant cfg slots), hi]
  exact ⟨_, rfl, rfl, rfl⟩

omit hi in
/-- Every entry of a laid-out page is that of an item. -/
theorem item_of_entry {e : CsrVertex} (he : page.vertexSpan[i]? = some e) :
    e.isDeleted = false ∧ ∃ nbrs, items[i]? = some (e.vertexId, nbrs) := by
  rw [h.vertexSpan, getElem?_lay cfg _ (block_giant cfg slots)] at he
  obtain ⟨⟨v, nbrs⟩, hi, rfl⟩ := Option.map_eq_some_iff.1 he
  exact ⟨rfl, nbrs, hi⟩

/-- The bytes from the offset of a normal entry on start with its block. -/
theorem drop_offset :
    ∃ rest, page.neighborData.drop ((items.take i).flatMap (block cfg slots)).length =
      block cfg slots (v, nbrs) ++ rest := by
  rw [h.neighborData, drop_flatMap_take]
  have hd : items.drop i = (v, nbrs) :: items.drop (i + 1) := by
    rw [drop_eq_getElem?_toList_append, hi]
    rfl
  rw [hd, flatMap_cons]
  exact ⟨_, rfl⟩

/-- Reading an entry below the giant bound gives its neighbours back. -/
theorem readNeighbors (hdeg : nbrs.length < cfg.giantDegreeBound)
    (hids : ∀ d ∈ nbrs, d < cfg.idLimit) : page.readNeighbors cfg i = nbrs := by
  obtain ⟨rest, hrest⟩ := h.drop_offset hi
  have hng : ¬ nbrs.length ≥ cfg.giantDegreeBound := Nat.not_le.2 hdeg
  have he : page.vertexSpan[i]? = some ⟨v, nbrs.length,
      ((items.take i).flatMap (block cfg slots)).length, 0⟩ := by
    rw [h.vertexSpan, getElem?_lay cfg _ (block_giant cfg slots), hi]
    simp [hng]
  unfold CsrPage.readNeighbors
  cases hc : cfg.neighborCompress with
  | true =>
    have hlim : cfg.idLimit = 2 ^ 30 := by simp [Config.idLimit, hc]
    have hblk : block cfg slots (v, nbrs) = nbrs.flatMap ptvWrite ++
        (replicate (slots v) (ptvWriteSlot 0)).flatten := by
      simp [block, hng, neighborBytes, hc]
    simp only [if_true, CsrPage.getNeighborPtvRange, he, hng, if_false, hrest, hblk,
      append_assoc]
    exact ptvReads_append nbrs (fun d hd => hlim ▸ hids d hd) _
  | false =>
    have hlim : cfg.idLimit = 2 ^ 32 := by simp [Config.idLimit, hc]
    have hblk : block cfg slots (v, nbrs) = nbrs.flatMap wordWrite ++
        (replicate (slots v) (wordWrite 0)).flatten := by
      simp [block, hng, neighborBytes, hc]
    have hdiv : ((items.take i).flatMap (block cfg slots)).length / 4 * 4 =
        ((items.take i).flatMap (block cfg slots)).length := by
      rw [block_eq_rawBlock hc]
      exact Nat.div_mul_cancel (dvd_length_flatMap _ 4 (length_rawBlock cfg slots) _)
    simp only [Bool.false_eq_true, if_false, CsrPage.getNeighbors, he, hng, hdiv, hrest, hblk,
      append_assoc]
    exact wordReads_append nbrs (fun d hd => hlim ▸ hids d hd) _

end CsrPage.Laid

/-! ## The constructors lay out what they are given -/

section

variable {cfg : Config} {slots : VId → Nat}

variable {acc acc' : CsrLayout}

theorem addVertex_layout {item : VId × List VId} (h : acc.addVertex cfg slots item = .ok acc') :
    acc'.vertices = acc.vertices ++ lay cfg (block cfg slots) acc.allNeighborBytes.length [item] ∧
      acc'.allNeighborBytes = acc.allNeighborBytes ++ block cfg slots item := by
  unfold CsrLayout.addVertex at h
  simp only at h
  split_ifs at h with h1 h2 h3
  · cases h
    simp [lay, block, h2]
  · cases h
    simp [lay, block, h2]

theorem foldlM_addVertex_layout (items : List (VId × List VId))
    (h : items.foldlM (CsrLayout.addVertex cfg slots) acc = .ok acc') :
    acc'.vertices = acc.vertices ++ lay cfg (block cfg slots) acc.allNeighborBytes.length items ∧
      acc'.allNeighborBytes = acc.allNeighborBytes ++ items.flatMap (block cfg slots) := by
  induction items generalizing acc with
  | nil =>
    cases h
    simp [lay]
  | cons item items ih =>
    rw [foldlM_cons] at h
    cases h1 : acc.addVertex cfg slots item with
    | error e => rw [h1] at h; cases h
    | ok acc1 =>
      rw [h1] at h
      obtain ⟨hv, hb⟩ := addVertex_layout h1
      obtain ⟨hv', hb'⟩ := ih h
      have hsplit : lay cfg (block cfg slots) acc.allNeighborBytes.length (item :: items) = _ :=
        lay_append cfg (block cfg slots) (block_giant cfg slots) _ [item] items
      refine ⟨?_, ?_⟩
      · rw [hv', hv, hb, hsplit]
        simp
      · rw [hb', hb]
        simp

/-- `build_from_adjacency_map`, when it returns. -/
theorem buildFromAdjacencyMap_ok {items : List (VId × List VId)} {page : CsrPage}
    {vm : List (VId × Nat)} (h : buildFromAdjacencyMap cfg slots items = .ok (page, vm)) :
    page.Laid cfg slots items ∧ vm = vertexMap page.vertexSpan := by
  unfold buildFromAdjacencyMap at h
  by_cases h0 : items = []
  · rw [if_pos h0] at h
    cases h
    subst h0
    exact ⟨⟨rfl, rfl⟩, rfl⟩
  · rw [if_neg h0] at h
    cases hf : items.foldlM (CsrLayout.addVertex cfg slots) ⟨[], 0, []⟩ with
    | error e => rw [hf] at h; cases h
    | ok acc =>
      obtain ⟨hv, hb⟩ := foldlM_addVertex_layout items hf
      simp only [nil_append, length_nil] at hv hb
      simp only [hf, bind, Except.bind] at h
      split_ifs at h
      cases h
      exact ⟨⟨hv, hb⟩, rfl⟩

end

/-- The builder after packing `items` onto the current page. -/
structure CsrPageBuilder.Packs (cfg : Config) (slots : VId → Nat) (b : CsrPageBuilder)
    (items : List (VId × List VId)) : Prop where
  entries : b.entries = lay cfg (rawBlock cfg slots) 0 items
  edges : b.edges.flatMap wordWrite = items.flatMap (rawBlock cfg slots)
  offset : b.currentEdgeOffset = (items.flatMap (rawBlock cfg slots)).length

namespace CsrPageBuilder.Packs

variable {cfg : Config} {slots : VId → Nat} {b b' : CsrPageBuilder}
  {items : List (VId × List VId)}

theorem init : CsrPageBuilder.init.Packs cfg slots [] := ⟨rfl, rfl, rfl⟩

variable (hb : b.Packs cfg slots items)
include hb

theorem addVertex {v : VId} {nbrs : List VId} (h : b.addVertex cfg v nbrs (slots v) = .ok (some b')) :
    b'.Packs cfg slots (items ++ [(v, nbrs)]) := by
  have hlay := lay_append cfg (rawBlock cfg slots) (rawBlock_giant cfg slots) 0 items [(v, nbrs)]
  rw [Nat.zero_add] at hlay
  unfold CsrPageBuilder.addVertex at h
  simp only [decide_eq_true_eq] at h
  by_cases h2 : nbrs.length ≥ cfg.giantDegreeBound
  · simp only [if_pos h2] at h
    split_ifs at h
    · cases h
    · cases h
      refine ⟨?_, ?_, ?_⟩
      · rw [hlay, hb.entries]; simp [lay, h2]
      · rw [hb.edges]; simp [rawBlock, h2]
      · rw [hb.offset]; simp [rawBlock, h2]
  · simp only [if_neg h2] at h
    split_ifs at h
    · cases h
    cases h
    refine ⟨?_, ?_, ?_⟩
    · rw [hlay, hb.entries, hb.offset]; simp [lay, h2]
    · rw [append_assoc, flatMap_append, hb.edges, flatMap_append]
      simp [rawBlock, h2]
    · have hlen : (rawBlock cfg slots (v, nbrs)).length = (nbrs.length + slots v) * 4 := by
        rw [rawBlock, if_neg h2, length_flatMap_wordWrite, length_append,
          length_replicate, Nat.mul_comm]
      rw [hb.offset, flatMap_append, length_append, flatMap_singleton, hlen]

variable {vm : List (VId × Nat)}

variable {page : CsrPage}

/-- `build`, when it returns, gives the page of the packed items and an empty builder. -/
theorem build (h : b.build cfg = .ok (page, vm, b')) :
    page.vertexSpan = lay cfg (rawBlock cfg slots) 0 items ∧
      page.neighborData = items.flatMap (rawBlock cfg slots) ∧
      vm = vertexMap page.vertexSpan ∧ b'.Packs cfg slots [] := by
  unfold CsrPageBuilder.build at h
  simp only at h
  split_ifs at h
  cases h
  exact ⟨hb.entries, hb.edges, rfl, ⟨rfl, rfl, rfl⟩⟩

/-- In the raw build the page of the builder is laid out like one built from a map. -/
theorem build_laid (hraw : cfg.neighborCompress = false) (h : b.build cfg = .ok (page, vm, b')) :
    page.Laid cfg slots items := by
  obtain ⟨h1, h2, -, -⟩ := hb.build h
  exact ⟨by rw [h1, block_eq_rawBlock hraw], by rw [h2, block_eq_rawBlock hraw]⟩

end CsrPageBuilder.Packs

end BwGraph
