import Mathlib.Data.List.GetD
import BwGraph.Io.Csr

/-
  The bytes of a CSR page (`io_csr.cc`). `build_from_adjacency_map` clears the page and writes a
  header of five fields, the neighbour block, the vertex array and the neighbour section behind
  one another; counts and offsets are narrowed to 16 bits as they are stored.
  `parse_from_page_data` finds the sections again from the header alone.

  What was written is what is parsed (`parse_buildPageData`): the checks of the build bound every
  number by its field (`Sized`), and a page all of whose numbers fit their fields is read back
  from its bytes (`CsrPage.parse_pageData`), up to the zeros behind the neighbour section, which
  no reader reaches.
-/

namespace BwGraph

open List CsrPage

/-! ## Fields -/

/-- A `uint16_t` in memory. -/
def halfWrite (n : Nat) : List Nat := [byte n, byte (n >>> 8)]

/-- The `uint16_t` at the start of a buffer. -/
def halfRead (buf : List Nat) : Nat := buf.getD 0 0 ||| buf.getD 1 0 <<< 8

/-- A `csr_vertex_t` in memory. -/
def vertexWrite (v : CsrVertex) : List Nat :=
  wordWrite v.vertexId ++ wordWrite v.degree ++ halfWrite v.offset ++ halfWrite v.deleteMark

/-- The `csr_vertex_t` at the start of a buffer. -/
def vertexRead (buf : List Nat) : CsrVertex :=
  ⟨wordRead buf, wordRead (buf.drop 4), halfRead (buf.drop 8), halfRead (buf.drop 10)⟩

/-- The span of `count` vertices at the start of a buffer. -/
def vertexReads : Nat → List Nat → List CsrVertex
  | 0, _ => []
  | count + 1, buf => vertexRead buf :: vertexReads count (buf.drop csrVertexBytes)

theorem halfRead_halfWrite {n : Nat} (hn : n < 2 ^ 16) (rest : List Nat) :
    halfRead (halfWrite n ++ rest) = n := by
  have hn' : n < 65536 := hn
  unfold halfRead halfWrite
  simp only [cons_append, nil_append, getD_cons_zero, getD_cons_succ]
  rw [Nat.or_comm, join2 _ (byte_lt _), byte_shiftRight, byte]
  omega

/-- Every field of a vertex fits its width. -/
structure CsrVertex.Sized (v : CsrVertex) : Prop where
  vertexId : v.vertexId < 2 ^ 32
  degree : v.degree < 2 ^ 32
  offset : v.offset < 2 ^ 16
  deleteMark : v.deleteMark < 2 ^ 16

theorem vertexRead_vertexWrite {v : CsrVertex} (hv : v.Sized) (rest : List Nat) :
    vertexRead (vertexWrite v ++ rest) = v := by
  have h0 : wordRead (vertexWrite v ++ rest) = v.vertexId := by
    rw [vertexWrite, append_assoc, append_assoc, append_assoc]
    exact wordRead_wordWrite hv.vertexId _
  have h4 : wordRead ((vertexWrite v ++ rest).drop 4) = v.degree :=
    wordRead_wordWrite hv.degree (halfWrite v.offset ++ halfWrite v.deleteMark ++ rest)
  have h8 : halfRead ((vertexWrite v ++ rest).drop 8) = v.offset :=
    halfRead_halfWrite hv.offset (halfWrite v.deleteMark ++ rest)
  have h10 : halfRead ((vertexWrite v ++ rest).drop 10) = v.deleteMark :=
    halfRead_halfWrite hv.deleteMark rest
  rw [vertexRead, h0, h4, h8, h10]

theorem vertexReads_append (vs : List CsrVertex) (hvs : ∀ v ∈ vs, v.Sized) (rest : List Nat) :
    vertexReads vs.length (vs.flatMap vertexWrite ++ rest) = vs := by
  induction vs with
  | nil => rfl
  | cons v vs ih =>
    have hv := vertexRead_vertexWrite (hvs v mem_cons_self) (vs.flatMap vertexWrite ++ rest)
    have hdrop : (vertexWrite v ++ (vs.flatMap vertexWrite ++ rest)).drop csrVertexBytes =
        vs.flatMap vertexWrite ++ rest := rfl
    simp only [length_cons, vertexReads, flatMap_cons, append_assoc, hv]
    rw [hdrop, ih fun x hx => hvs x (mem_cons_of_mem _ hx)]

theorem length_flatMap_vertexWrite (vs : List CsrVertex) :
    (vs.flatMap vertexWrite).length = vs.length * csrVertexBytes := by
  induction vs with
  | nil => rfl
  | cons v vs ih =>
    have hv : (vertexWrite v).length = csrVertexBytes := rfl
    rw [flatMap_cons, length_append, ih, hv, length_cons, Nat.succ_mul,
      Nat.add_comm]

/-! ## The bytes of a page -/

/-- The header fields that belong to the index tree: `parent_page_no_` and
`neighbor_page_count_`. -/
structure PageLinks where
  parentPageNo : PageNo
  neighborPageCount : Nat
  deriving DecidableEq, Repr

/-- The header: `vertex_count`, `edge_count`, `used_bytes`, `parent_page_no` and
`neighbor_page_count`. -/
def headerWrite (vertexCount edgeCount usedBytes : Nat) (links : PageLinks) : List Nat :=
  halfWrite vertexCount ++ halfWrite edgeCount ++ wordWrite usedBytes ++
    wordWrite links.parentPageNo ++ wordWrite links.neighborPageCount

/-- The page data of a non-empty map: everything behind what is copied stays cleared. -/
def CsrPage.pageData (cfg : Config) (links : PageLinks) (page : CsrPage) : List Nat :=
  let copied := headerWrite page.numVertices page.numEdges page.usedBytes links ++
    List.replicate (cfg.maxBlockNeighbor * 4) 0 ++ page.vertexSpan.flatMap vertexWrite ++
    page.neighborData
  copied ++ List.replicate (cfg.pageSize - copied.length) 0

/-- The page data of the empty map, whose header counts its own 16 bytes. -/
def emptyPageData (cfg : Config) : List Nat :=
  let copied := headerWrite 0 0 16 ⟨0, 0⟩
  copied ++ List.replicate (cfg.pageSize - copied.length) 0

/-- What `build_from_adjacency_map` leaves: the members, the page data and `vertex_map`. -/
structure BuiltPage where
  page : CsrPage
  links : PageLinks
  data : List Nat
  vertexMap : List (VId × Nat)

/-- `build_from_adjacency_map` on a page with these links; the empty map resets them. -/
def buildPageData (cfg : Config) (slots : VId → Nat) (links : PageLinks)
    (items : List (VId × List VId)) : Except String BuiltPage := do
  let (page, vertexMap) ← buildFromAdjacencyMap cfg slots items
  if items = [] then .ok ⟨page, ⟨0, 0⟩, emptyPageData cfg, vertexMap⟩
  else .ok ⟨page, links, page.pageData cfg links, vertexMap⟩

/-- `parse_from_page_data`. The neighbour pointer has no length of its own: the section reaches to
the end of the page. -/
def parseFromPageData (cfg : Config) (data : List Nat) : Except String (CsrPage × PageLinks) :=
  let vertexCount := halfRead data
  let edgeCount := halfRead (data.drop 2)
  let usedBytes := wordRead (data.drop 4)
  let parentPageNo := wordRead (data.drop 8)
  let neighborPageCount := wordRead (data.drop 12)
  if vertexCount = 0 ∧ edgeCount = 0 then .ok (CsrPage.empty, ⟨0, 0⟩)
  else if vertexCount = 0 ∧ edgeCount > 0 then
    .error "Invalid CSR page: edge_count > 0 but vertex_count == 0"
  else if neighborPageCount > cfg.maxBlockNeighbor then
    .error ("Invalid CSR page: neighbor_page_count (" ++ toString neighborPageCount ++
      ") exceeds max (" ++ toString cfg.maxBlockNeighbor ++ ")")
  else
    let vertexDataSize := vertexCount * csrVertexBytes
    let minimumRequired := cfg.headerBytes + vertexDataSize
    if usedBytes < minimumRequired then
      .error ("Invalid CSR page: used_bytes (" ++ toString usedBytes ++
        ") is less than minimum required (" ++ toString minimumRequired ++ ")")
    else if usedBytes > cfg.pageSize then
      .error ("Invalid CSR page: used_bytes (" ++ toString usedBytes ++
        ") exceeds page size (" ++ toString cfg.pageSize ++ ")")
    else
      .ok (⟨edgeCount, usedBytes, vertexReads vertexCount (data.drop cfg.headerBytes),
        data.drop (cfg.headerBytes + vertexDataSize)⟩, ⟨parentPageNo, neighborPageCount⟩)

/-! ## Parsing what was written -/

/-- Every number of the page fits its field, and the page its size. -/
structure CsrPage.Sized (cfg : Config) (page : CsrPage) : Prop where
  vertexSpan : ∀ e ∈ page.vertexSpan, e.Sized
  numVertices : page.numVertices < 2 ^ 16
  numEdges : page.numEdges < 2 ^ 16
  least : cfg.headerBytes + page.numVertices * csrVertexBytes ≤ page.usedBytes
  most : page.usedBytes ≤ cfg.pageSize

/-- The page with `n` zero bytes behind its neighbour section. -/
def CsrPage.padded (page : CsrPage) (n : Nat) : CsrPage :=
  { page with neighborData := page.neighborData ++ List.replicate n 0 }

theorem CsrPage.pageData_eq (cfg : Config) (links : PageLinks) (page : CsrPage) :
    ∃ n, page.pageData cfg links =
      headerWrite page.numVertices page.numEdges page.usedBytes links ++
        (replicate (cfg.maxBlockNeighbor * 4) 0 ++ (page.vertexSpan.flatMap vertexWrite ++
          (page.padded n).neighborData)) := by
  simp only [pageData, padded, append_assoc]
  exact ⟨_, rfl⟩

variable {cfg : Config}

/-- The bytes of a page whose numbers fit are parsed to it. -/
theorem CsrPage.parse_pageData {page : CsrPage} (h : page.Sized cfg) (hne : page.vertexSpan ≠ [])
    (hsize : cfg.pageSize < 2 ^ 32) {links : PageLinks} (hparent : links.parentPageNo < 2 ^ 32)
    (hcount : links.neighborPageCount ≤ cfg.maxBlockNeighbor) :
    ∃ n, parseFromPageData cfg (page.pageData cfg links) = .ok (page.padded n, links) := by
  obtain ⟨n, hn⟩ := page.pageData_eq cfg links
  refine ⟨n, ?_⟩
  rw [hn]
  generalize hrest : replicate (cfg.maxBlockNeighbor * 4) 0 ++
    (page.vertexSpan.flatMap vertexWrite ++ (page.padded n).neighborData) = rest
  have hused : page.usedBytes < 2 ^ 32 := Nat.lt_of_le_of_lt h.most hsize
  have hcount' : links.neighborPageCount < 2 ^ 32 := by
    have hle := h.least
    unfold Config.headerBytes at hle
    omega
  generalize hhead : headerWrite page.numVertices page.numEdges page.usedBytes links = head
  have hlen : head.length = 16 := by rw [← hhead]; rfl
  have h0 : halfRead (head ++ rest) = page.numVertices := by
    rw [← hhead]
    simp only [headerWrite, append_assoc]
    exact halfRead_halfWrite h.numVertices _
  have h2 : halfRead ((head ++ rest).drop 2) = page.numEdges := by
    rw [← hhead]
    exact halfRead_halfWrite h.numEdges (wordWrite page.usedBytes ++
      wordWrite links.parentPageNo ++ wordWrite links.neighborPageCount ++ rest)
  have h4 : wordRead ((head ++ rest).drop 4) = page.usedBytes := by
    rw [← hhead]
    exact wordRead_wordWrite hused (wordWrite links.parentPageNo ++
      wordWrite links.neighborPageCount ++ rest)
  have h8 : wordRead ((head ++ rest).drop 8) = links.parentPageNo := by
    rw [← hhead]
    exact wordRead_wordWrite hparent (wordWrite links.neighborPageCount ++ rest)
  have h12 : wordRead ((head ++ rest).drop 12) = links.neighborPageCount := by
    rw [← hhead]
    exact wordRead_wordWrite hcount' rest
  have hvert : (head ++ rest).drop cfg.headerBytes =
      page.vertexSpan.flatMap vertexWrite ++ (page.padded n).neighborData := by
    rw [← hrest, ← append_assoc]
    refine drop_left' ?_
    rw [length_append, hlen, length_replicate, Config.headerBytes]
  have hnbr : (head ++ rest).drop (cfg.headerBytes + page.numVertices * csrVertexBytes) =
      (page.padded n).neighborData := by
    rw [← drop_drop, hvert]
    refine drop_left' ?_
    rw [length_flatMap_vertexWrite, numVertices]
  have hpos : page.numVertices ≠ 0 := by
    rw [numVertices]
    exact fun h0 => hne (length_eq_zero_iff.1 h0)
  have hread : vertexReads page.numVertices (page.vertexSpan.flatMap vertexWrite ++
      (page.padded n).neighborData) = page.vertexSpan :=
    vertexReads_append page.vertexSpan h.vertexSpan _
  unfold parseFromPageData
  simp only [h0, h2, h4, h8, h12, hvert, hnbr, hread]
  rw [if_neg fun hc => hpos hc.1, if_neg fun hc => hpos hc.1, if_neg (Nat.not_lt.2 hcount),
    if_neg (Nat.not_lt.2 h.least), if_neg (Nat.not_lt.2 h.most)]
  rfl

theorem parse_emptyPageData (cfg : Config) :
    parseFromPageData cfg (emptyPageData cfg) = .ok (empty, ⟨0, 0⟩) := by
  have h0 : halfRead (emptyPageData cfg) = 0 := halfRead_halfWrite (by decide) _
  have h2 : halfRead ((emptyPageData cfg).drop 2) = 0 := halfRead_halfWrite (by decide) _
  unfold parseFromPageData
  exact if_pos ⟨h0, h2⟩

/-! ## What the build checks -/

/-- The locals of the build: every vertex fits its fields, the next offset its 16 bits. -/
structure CsrLayout.Sized (acc : CsrLayout) : Prop where
  vertices : ∀ e ∈ acc.vertices, e.Sized
  offset : acc.allNeighborBytes.length < 2 ^ 16

theorem CsrVertex.sized_of_bounds {id degree offset : Nat} (hid : id < 2 ^ 32)
    (hdeg : ¬ degree > uint32Max) (hoff : offset < 2 ^ 16) :
    (⟨id, degree, offset, 0⟩ : CsrVertex).Sized := by
  refine ⟨hid, ?_, hoff, Nat.two_pow_pos 16⟩
  exact Nat.lt_succ_of_le (Nat.not_lt.1 hdeg)

variable {slots : VId → Nat}

variable {acc acc' : CsrLayout}

theorem CsrLayout.Sized.addVertex {item : VId × List VId} (hacc : acc.Sized) (hid : item.1 < 2 ^ 32)
    (h : acc.addVertex cfg slots item = .ok acc') : acc'.Sized := by
  unfold CsrLayout.addVertex at h
  simp only at h
  split_ifs at h with h1 h2 h3
  · cases h
    refine ⟨?_, hacc.offset⟩
    intro e he
    rcases mem_append.1 he with he | he
    · exact hacc.vertices e he
    · rw [mem_singleton.1 he]
      exact CsrVertex.sized_of_bounds hid h1 (Nat.two_pow_pos 16)
  · cases h
    have hoff := hacc.offset
    refine ⟨?_, ?_⟩
    · intro e he
      rcases mem_append.1 he with he | he
      · exact hacc.vertices e he
      · rw [mem_singleton.1 he]
        exact CsrVertex.sized_of_bounds hid h1 hoff
    · rw [length_append]
      unfold uint16Max at h3
      omega

theorem CsrLayout.Sized.foldlM (items : List (VId × List VId)) (hacc : acc.Sized)
    (hids : ∀ it ∈ items, it.1 < 2 ^ 32)
    (h : items.foldlM (CsrLayout.addVertex cfg slots) acc = .ok acc') : acc'.Sized := by
  induction items generalizing acc with
  | nil =>
    cases h
    exact hacc
  | cons item items ih =>
    rw [foldlM_cons] at h
    cases h1 : acc.addVertex cfg slots item with
    | error e => rw [h1] at h; cases h
    | ok acc1 =>
      rw [h1] at h
      exact ih (hacc.addVertex (hids item mem_cons_self) h1)
        (fun it hit => hids it (mem_cons_of_mem _ hit)) h

/-- A page that `build_from_adjacency_map` returns has passed every check. -/
theorem buildFromAdjacencyMap_sized {items : List (VId × List VId)} {page : CsrPage}
    {vm : List (VId × Nat)} (hne : items ≠ []) (hids : ∀ it ∈ items, it.1 < 2 ^ 32)
    (h : buildFromAdjacencyMap cfg slots items = .ok (page, vm)) : page.Sized cfg := by
  obtain ⟨hlaid, -⟩ := buildFromAdjacencyMap_ok h
  have hcount : page.numVertices = items.length := by
    rw [numVertices, hlaid.vertexSpan, length_lay]
  unfold buildFromAdjacencyMap at h
  rw [if_neg hne] at h
  cases hf : items.foldlM (CsrLayout.addVertex cfg slots) ⟨[], 0, []⟩ with
  | error e => rw [hf] at h; cases h
  | ok acc =>
    have hacc : acc.Sized := CsrLayout.Sized.foldlM items
      ⟨fun e he => absurd he not_mem_nil, by decide⟩ hids hf
    simp only [hf, bind, Except.bind] at h
    split_ifs at h with h1 h2 h3
    cases h
    unfold uint16Max at h1 h2
    refine ⟨hacc.vertices, ?_, ?_, ?_, ?_⟩
    · rw [hcount]
      omega
    · exact Nat.lt_succ_of_le (Nat.not_lt.1 h2)
    · exact Nat.le_add_right _ _
    · exact Nat.not_lt.1 h3

/-! ## Zeros behind the data -/

theorem getD_append_zeros (buf : List Nat) (n i : Nat) :
    (buf ++ replicate n 0).getD i 0 = buf.getD i 0 := by
  rcases Nat.lt_or_ge i buf.length with hi | hi
  · exact getD_append _ _ _ _ hi
  · rw [getD_append_right _ _ _ _ hi, getD_eq_default _ _ hi,
      getD_eq_getElem?_getD, getElem?_getD_replicate_default_eq]

theorem drop_append_zeros (buf : List Nat) (n k : Nat) :
    ∃ m, (buf ++ replicate n 0).drop k = buf.drop k ++ replicate m 0 := by
  refine ⟨n - (k - buf.length), ?_⟩
  rw [drop_append, drop_replicate]

variable (count : Nat) (buf : List Nat) (n : Nat)

theorem wordReads_append_zeros :
    wordReads count (buf ++ replicate n 0) = wordReads count buf := by
  induction count generalizing buf n with
  | zero => rfl
  | succ count ih =>
    obtain ⟨m, hm⟩ := drop_append_zeros buf n 4
    simp only [wordReads, wordRead, getD_append_zeros, hm, ih]

theorem ptvRead_append_zeros (buf : List Nat) (n : Nat) :
    ptvRead (buf ++ replicate n 0) = ptvRead buf := by
  simp only [ptvRead, getD_append_zeros]

theorem ptvReads_append_zeros :
    ptvReads count (buf ++ replicate n 0) = ptvReads count buf := by
  induction count generalizing buf n with
  | zero => rfl
  | succ count ih =>
    obtain ⟨m, hm⟩ := drop_append_zeros buf n (ptvRead buf).2
    simp only [ptvReads, ptvRead_append_zeros, hm, ih]

theorem CsrPage.readNeighbors_padded (cfg : Config) (page : CsrPage) (n i : Nat) :
    (page.padded n).readNeighbors cfg i = page.readNeighbors cfg i := by
  have hword : ∀ count off, wordReads count ((page.padded n).neighborData.drop off) =
      wordReads count (page.neighborData.drop off) := by
    intro count off
    obtain ⟨m, hm⟩ := drop_append_zeros page.neighborData n off
    rw [padded, hm, wordReads_append_zeros]
  have hptv : ∀ count off, ptvReads count ((page.padded n).neighborData.drop off) =
      ptvReads count (page.neighborData.drop off) := by
    intro count off
    obtain ⟨m, hm⟩ := drop_append_zeros page.neighborData n off
    rw [padded, hm, ptvReads_append_zeros]
  have hspan : (page.padded n).vertexSpan = page.vertexSpan := rfl
  simp only [readNeighbors, getNeighbors, getNeighborPtvRange, hspan, hword,
    hptv]

section

variable {page : CsrPage} {items : List (VId × List VId)} (h : page.Laid cfg slots items) {i : Nat}
  {v : VId} {nbrs : List VId} (hi : items[i]? = some (v, nbrs))
include h hi

/-- A reader finds no neighbours of a giant vertex on its page. -/
theorem CsrPage.Laid.readNeighbors_giant (hdeg : cfg.giantDegreeBound ≤ nbrs.length) :
    page.readNeighbors cfg i = [] := by
  have he : page.vertexSpan[i]? = some ⟨v, nbrs.length, 0, 0⟩ := by
    rw [h.vertexSpan, getElem?_lay cfg _ (block_giant cfg slots), hi]
    simp [hdeg]
  simp [CsrPage.readNeighbors, CsrPage.getNeighbors, CsrPage.getNeighborPtvRange, he, hdeg]

/-! ## The round trip -/

theorem getElem?_vertexMap : (vertexMap page.vertexSpan)[i]? = some (v, i) := by
  rw [vertexMap, getElem?_map, getElem?_zipIdx, h.vertexSpan,
    getElem?_lay cfg _ (block_giant cfg slots), hi]
  simp

end

/-- The degrees of the vertex array, in order. -/
theorem lay_degrees (cfg : Config) (blk : VId × List VId → List Nat) (off : Nat)
    (items : List (VId × List VId)) :
    (lay cfg blk off items).map (fun e => (e.vertexId, e.degree)) =
      items.map fun it => (it.1, it.2.length) := by
  induction items generalizing off with
  | nil => rfl
  | cons x xs ih =>
    simp only [lay]
    split_ifs <;> simp [ih]

/-- Parsing the page data that `build_from_adjacency_map` wrote gives the vertices of the map in
order with their degrees, the counts of the built page, and at the index `vertex_map` names the
neighbours of each vertex; those of a giant vertex are not on the page. -/
theorem parse_buildPageData (cfg : Config) (slots : VId → Nat) (links : PageLinks)
    (items : List (VId × List VId)) (hsize : cfg.pageSize < 2 ^ 32)
    (hparent : links.parentPageNo < 2 ^ 32)
    (hcount : links.neighborPageCount ≤ cfg.maxBlockNeighbor)
    (hids : ∀ it ∈ items, it.1 < 2 ^ 32 ∧ ∀ d ∈ it.2, d < cfg.idLimit) {built : BuiltPage}
    (h : buildPageData cfg slots links items = .ok built) :
    ∃ parsed, parseFromPageData cfg built.data = .ok (parsed, built.links) ∧
      parsed.vertexSpan.map (fun e => (e.vertexId, e.degree)) =
        items.map (fun it => (it.1, it.2.length)) ∧
      parsed.vertexSpan = built.page.vertexSpan ∧ parsed.numEdges = built.page.numEdges ∧
      parsed.usedBytes = built.page.usedBytes ∧ built.vertexMap.length = items.length ∧
      ∀ i v nbrs, items[i]? = some (v, nbrs) → built.vertexMap[i]? = some (v, i) ∧
        parsed.readNeighbors cfg i = if nbrs.length < cfg.giantDegreeBound then nbrs else [] := by
  unfold buildPageData at h
  cases hb : buildFromAdjacencyMap cfg slots items with
  | error e => rw [hb] at h; cases h
  | ok r =>
    obtain ⟨page, vm⟩ := r
    obtain ⟨hlaid, rfl⟩ := buildFromAdjacencyMap_ok hb
    have hdegs : page.vertexSpan.map (fun e => (e.vertexId, e.degree)) =
        items.map (fun it => (it.1, it.2.length)) := by
      rw [hlaid.vertexSpan, lay_degrees]
    have hlen : (vertexMap page.vertexSpan).length = items.length := by
      rw [vertexMap, length_map, length_zipIdx, hlaid.vertexSpan, length_lay]
    have hread : ∀ i v nbrs, items[i]? = some (v, nbrs) →
        page.readNeighbors cfg i = if nbrs.length < cfg.giantDegreeBound then nbrs else [] := by
      intro i v nbrs hi
      have hmem : (v, nbrs) ∈ items := mem_of_getElem? hi
      split_ifs with hdeg
      · exact hlaid.readNeighbors hi hdeg (hids _ hmem).2
      · exact hlaid.readNeighbors_giant hi (Nat.not_lt.1 hdeg)
    simp only [hb, bind, Except.bind] at h
    split_ifs at h with hne
    · cases h
      have hpage : page = CsrPage.empty := by
        rw [buildFromAdjacencyMap, if_pos hne] at hb
        cases hb
        rfl
      subst hpage
      exact ⟨CsrPage.empty, parse_emptyPageData cfg, hdegs, rfl, rfl, rfl, hlen,
        fun i v nbrs hi => ⟨getElem?_vertexMap hlaid hi, hread i v nbrs hi⟩⟩
    · cases h
      have hsized := buildFromAdjacencyMap_sized hne (fun it hit => (hids it hit).1) hb
      have hspan : page.vertexSpan ≠ [] := by
        intro h0
        rw [h0] at hdegs
        exact hne (map_eq_nil_iff.1 hdegs.symm)
      obtain ⟨n, hn⟩ := CsrPage.parse_pageData hsized hspan hsize hparent hcount
      refine ⟨page.padded n, hn, hdegs, rfl, rfl, rfl, hlen, ?_⟩
      intro i v nbrs hi
      rw [CsrPage.readNeighbors_padded]
      exact ⟨getElem?_vertexMap hlaid hi, hread i v nbrs hi⟩

/-- The compressed build: ids of one, two and four bytes with a slot behind them, a giant vertex
and one without neighbours. -/
theorem parse_buildPageData_mixed : ∃ built parsed,
    buildPageData ⟨256, 64, 2, 4, 1, 1, true⟩ (fun v => v % 2) ⟨0, 0⟩
      [(5, [7, 300, 70000000]), (6, [1, 2, 3, 4]), (8, [])] = .ok built ∧
    parseFromPageData ⟨256, 64, 2, 4, 1, 1, true⟩ built.data = .ok (parsed, built.links) ∧
    parsed.readNeighbors ⟨256, 64, 2, 4, 1, 1, true⟩ 0 = [7, 300, 70000000] ∧
    parsed.readNeighbors ⟨256, 64, 2, 4, 1, 1, true⟩ 1 = [] := by
  obtain ⟨built, hb⟩ : ∃ built, buildPageData ⟨256, 64, 2, 4, 1, 1, true⟩ (fun v => v % 2) ⟨0, 0⟩
      [(5, [7, 300, 70000000]), (6, [1, 2, 3, 4]), (8, [])] = .ok built := ⟨_, rfl⟩
  obtain ⟨parsed, hp, -, -, -, -, -, hread⟩ := parse_buildPageData _ _ _ _ (by decide) (by decide)
    (by decide) (by decide) hb
  exact ⟨built, parsed, hb, hp, (hread 0 5 _ rfl).2, (hread 1 6 _ rfl).2⟩

end BwGraph
