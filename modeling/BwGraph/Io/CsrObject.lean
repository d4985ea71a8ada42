import BwGraph.Io.PageData
import BwGraph.Io.Index
import BwGraph.Common.PtvIter
import BwGraph.Lib.Run

/-
  `csr_page_t` as an object (`io_csr.h`, `io_csr.cc`): the bytes of the page, and the members that
  say where in them the vertices, the neighbours and the timestamps lie. Every read and every write
  goes through the bytes, so a write of one section that reaches into another one shows; a byte past
  the end of the page reads as zero and is not written. Unlike the parsed form of `BwGraph.Io.Csr`
  the object exists in both builds, with and without the timestamp section.

  An object whose members are those of its header (`Synced`) is what a parse of its bytes gives
  (`Synced.reparse`); so is an object right after `parse_from_page_data` (`synced_of_parse`) or
  `build_from_adjacency_map` (`build_ok`).
-/

namespace BwGraph

open CsrPage

open Bytes
open List

/-- The settings, and `BW_GRAPH_ENABLE_TRANSACTION`. -/
structure PageConfig extends Config where
  transaction : Bool
  deriving Repr

/-- `sizeof(timestamp_t)`. -/
def timestampBytes : Nat := 8

/-- A span into the page: the position of its first byte and the number of its items. -/
structure PageSpan where
  pos : Nat
  size : Nat
  deriving DecidableEq, Repr

/-- `csr_page_t`. A pointer into the page is the position it points to; `edge_ts_ptr_` stays null
without transactions. -/
structure CsrObject where
  data : List Nat
  isDirty : Bool
  isParse : Bool
  numVertices : Nat
  numEdges : Nat
  usedBytes : Nat
  links : PageLinks
  neighborPageSpan : PageSpan
  vertexSpan : PageSpan
  neighborPtr : Option Nat
  edgeTsPtr : Option Nat
  deriving DecidableEq, Repr

namespace CsrObject

/-! ## Parsing -/

/-- A fresh object over some page data. -/
def ofData (data : List Nat) : CsrObject :=
  ⟨data, false, false, 0, 0, 0, ⟨0, 0⟩, ⟨0, 0⟩, ⟨0, 0⟩, none, none⟩

/-- The constructor `csr_page_t(page_no)`. -/
def new (cfg : PageConfig) : CsrObject := ofData (List.replicate cfg.pageSize 0)

/-- The members in their empty state; `is_parse_` and `edge_ts_ptr_` are not among them. -/
def cleared (obj : CsrObject) : CsrObject :=
  { obj with
    numVertices := 0
    numEdges := 0
    usedBytes := 0
    links := ⟨0, 0⟩
    neighborPageSpan := ⟨0, 0⟩
    vertexSpan := ⟨0, 0⟩
    neighborPtr := none }

/-- Where the neighbour section begins. -/
def fixedSize (cfg : Config) (numVertices : Nat) : Nat :=
  cfg.headerBytes + numVertices * csrVertexBytes

/-- `neighbor_data_sz` and `neighbor_data_size`: the part of the remaining bytes that is not
timestamps. -/
def neighborDataSize (remaining : Nat) : Nat := remaining * 4 / (4 + timestampBytes)

/-- `parse_from_page_data`: what it throws, and the object. -/
def parseFromPageData (cfg : PageConfig) (obj : CsrObject) : Option String × CsrObject :=
  match BwGraph.parseFromPageData cfg.toConfig obj.data with
  | .error message => (some message, obj.cleared)
  | .ok (page, links) =>
    if page.numVertices = 0 then (none, { obj.cleared with isParse := true })
    else
      let fixed := fixedSize cfg.toConfig page.numVertices
      (none, { obj with
        isParse := true
        numVertices := page.numVertices
        numEdges := page.numEdges
        usedBytes := page.usedBytes
        links := links
        neighborPageSpan := ⟨16, links.neighborPageCount⟩
        vertexSpan := ⟨cfg.headerBytes, page.numVertices⟩
        neighborPtr := some fixed
        edgeTsPtr := if cfg.transaction then some (fixed + neighborDataSize (page.usedBytes - fixed))
          else obj.edgeTsPtr })

/-! ## Reading -/

/-- `vertex_span_[i]`. -/
def vertexAt (obj : CsrObject) (i : Nat) : CsrVertex :=
  vertexRead (obj.data.drop (obj.vertexSpan.pos + i * csrVertexBytes))

/-- `neighbor_ptr_`; the null pointer reads the page from its start. -/
def neighborPos (obj : CsrObject) : Nat := obj.neighborPtr.getD 0

/-- `get_neighbors`. -/
def getNeighbors (cfg : PageConfig) (obj : CsrObject) (vertexOffset : Nat) : List VId :=
  if vertexOffset ≥ obj.numVertices then []
  else
    let vertex := obj.vertexAt vertexOffset
    if vertex.degree ≥ cfg.giantDegreeBound then []
    else wordReads vertex.degree (obj.data.drop (obj.neighborPos + vertex.offset / 4 * 4))

/-- `get_neighbor_ptv_range`. -/
def getNeighborPtvRange (cfg : PageConfig) (obj : CsrObject) (vertexOffset : Nat) :
    PtvNeighborRange :=
  if vertexOffset ≥ obj.numVertices then ⟨0, 0⟩
  else
    let vertex := obj.vertexAt vertexOffset
    if vertex.degree ≥ cfg.giantDegreeBound then ⟨0, 0⟩
    else ⟨obj.neighborPos + vertex.offset, UInt32.ofNat vertex.degree⟩

/-- The neighbours a reader of this build sees. -/
def readNeighbors (cfg : PageConfig) (obj : CsrObject) (vertexOffset : Nat) : List VId :=
  if cfg.neighborCompress then
    ((obj.getNeighborPtvRange cfg vertexOffset).collect obj.data).1
  else obj.getNeighbors cfg vertexOffset

/-- `get_vertex_degree`. -/
def getVertexDegree (obj : CsrObject) (vertexOffset : Nat) : Nat :=
  if vertexOffset ≥ obj.numVertices then 0 else (obj.vertexAt vertexOffset).degree

/-! ## Building -/

end CsrObject

/-- The loop of `build_from_adjacency_map`: what it throws, and the locals at that point. -/
def CsrLayout.addVertices (cfg : Config) (slots : VId → Nat) :
    List (VId × List VId) → CsrLayout → Option String × CsrLayout
  | [], acc => (none, acc)
  | item :: items, acc =>
    match acc.addVertex cfg slots item with
    | .error message => (some message, acc)
    | .ok acc' => addVertices cfg slots items acc'

/-- What the loop has pushed to `vertex_map`; `page_offset` has 16 bits. -/
def CsrLayout.pushed (acc : CsrLayout) : List (VId × Nat) :=
  acc.vertices.zipIdx.map fun p => (p.1.vertexId, p.2 % 2 ^ 16)

/-- `ts_data_size`. -/
def PageConfig.tsDataSize (cfg : PageConfig) (neighborDataSize : Nat) : Nat :=
  if cfg.transaction then neighborDataSize / 4 * timestampBytes else 0

namespace CsrObject

/-- What an empty adjacency map makes of the object. -/
def builtEmpty (cfg : PageConfig) (obj : CsrObject) : CsrObject :=
  { obj.cleared with data := poke (List.replicate cfg.pageSize 0) 0 (headerWrite 0 0 16 ⟨0, 0⟩) }

/-- The end of `build_from_adjacency_map`: the page is cleared, the header, the neighbour block, the
vertices and the neighbours are copied, and the members are set. -/
def laidOut (cfg : PageConfig) (acc : CsrLayout) (totalRequired : Nat) (obj : CsrObject) :
    CsrObject :=
  let usedBytes := totalRequired % 2 ^ 32
  let fixed := fixedSize cfg.toConfig acc.vertices.length
  let data := List.replicate cfg.pageSize 0
  let data := poke data 0
    (headerWrite acc.vertices.length acc.totalEdgeCount usedBytes obj.links)
  let data := poke data 16 (List.replicate (cfg.maxBlockNeighbor * 4) 0)
  let data := poke data cfg.headerBytes (acc.vertices.flatMap vertexWrite)
  let data := poke data fixed acc.allNeighborBytes
  { obj with
    data := data
    isParse := true
    numVertices := acc.vertices.length
    numEdges := acc.totalEdgeCount
    usedBytes := usedBytes
    neighborPageSpan := ⟨16, obj.links.neighborPageCount⟩
    vertexSpan := ⟨cfg.headerBytes, acc.vertices.length⟩
    neighborPtr := some fixed
    edgeTsPtr := if cfg.transaction then some (fixed + acc.allNeighborBytes.length)
      else obj.edgeTsPtr }

/-- `build_from_adjacency_map` over the items of the map in iteration order: what it throws, the
object and `vertex_map`. -/
def buildFromAdjacencyMap (cfg : PageConfig) (slots : VId → Nat) (items : List (VId × List VId))
    (obj : CsrObject) (vertexMap : List (VId × Nat)) :
    Option String × CsrObject × List (VId × Nat) :=
  if items = [] then (none, obj.builtEmpty cfg, vertexMap)
  else
    let (thrown, acc) := CsrLayout.addVertices cfg.toConfig slots items ⟨[], 0, []⟩
    let vertexMap := vertexMap ++ acc.pushed
    match thrown with
    | some message => (some message, obj, vertexMap)
    | none =>
      if items.length > uint16Max then
        (some ("Vertex count exceeds uint16_t limit: " ++ toString items.length), obj, vertexMap)
      else if acc.totalEdgeCount > uint16Max then
        (some ("Edge count exceeds uint16_t limit: " ++ toString acc.totalEdgeCount), obj, vertexMap)
      else
        let totalRequired := fixedSize cfg.toConfig acc.vertices.length +
          acc.allNeighborBytes.length + cfg.tsDataSize acc.allNeighborBytes.length
        if totalRequired > cfg.pageSize then
          (some ("CSR data too large for single page: " ++ toString totalRequired ++
            " bytes required, " ++ toString cfg.pageSize ++ " bytes available"), obj, vertexMap)
        else (none, obj.laidOut cfg acc totalRequired, vertexMap)

end CsrObject

/-! ## Fields as readers -/

theorem readsFirst_wordRead : ReadsFirst 4 wordRead := by
  intro buf buf' h
  unfold wordRead
  rw [h 0 (by omega) (by omega), h 1 (by omega) (by omega), h 2 (by omega) (by omega),
    h 3 (by omega) (by omega)]

theorem readsFirst_halfRead : ReadsFirst 2 halfRead := by
  intro buf buf' h
  unfold halfRead
  rw [h 0 (by omega) (by omega), h 1 (by omega) (by omega)]

theorem readsFirst_longRead : ReadsFirst 8 longRead := by
  intro buf buf' h
  have hhigh : AgreeOn 4 (4 + 4) buf buf' := h.mono (by omega) (by omega)
  unfold longRead
  rw [readsFirst_wordRead.mono (by omega) buf buf' h, readsFirst_wordRead.congr hhigh]

theorem readsFirst_vertexRead : ReadsFirst csrVertexBytes vertexRead := by
  intro buf buf' h
  have h4 : AgreeOn 4 (4 + 4) buf buf' := h.mono (by omega) (by decide)
  have h8 : AgreeOn 8 (8 + 2) buf buf' := h.mono (by omega) (by decide)
  have h10 : AgreeOn 10 (10 + 2) buf buf' := h.mono (by omega) (by decide)
  unfold vertexRead
  rw [readsFirst_wordRead.mono (by decide) buf buf' h, readsFirst_wordRead.congr h4,
    readsFirst_halfRead.congr h8, readsFirst_halfRead.congr h10]

theorem readsFirst_wordReads (n : Nat) : ReadsFirst (n * 4) (wordReads n) := by
  induction n with
  | zero => exact fun _ _ _ => rfl
  | succ n ih =>
    intro buf buf' h
    have htail : AgreeOn 4 (4 + n * 4) buf buf' := h.mono (by omega) (by omega)
    rw [wordReads, wordReads, readsFirst_wordRead.mono (by omega) buf buf' h, ih.congr htail]

theorem getElem?_vertexReads (n i : Nat) (buf : List Nat) :
    (vertexReads n buf)[i]? =
      if i < n then some (vertexRead (buf.drop (i * csrVertexBytes))) else none := by
  induction n generalizing i buf with
  | zero => simp [vertexReads]
  | succ n ih =>
    cases i with
    | zero => simp [vertexReads]
    | succ i =>
      rw [vertexReads, getElem?_cons_succ, ih, drop_drop]
      have hlen : csrVertexBytes + i * csrVertexBytes = (i + 1) * csrVertexBytes := by
        rw [Nat.succ_mul, Nat.add_comm]
      simp [hlen]

theorem length_vertexReads (n : Nat) (buf : List Nat) : (vertexReads n buf).length = n := by
  induction n generalizing buf with
  | zero => rfl
  | succ n ih => rw [vertexReads, length_cons, ih]

/-! ## Objects in step with their header -/

namespace CsrObject

/-- The parsed form of the object. -/
def page (obj : CsrObject) : CsrPage :=
  ⟨obj.numEdges, obj.usedBytes, vertexReads obj.numVertices (obj.data.drop obj.vertexSpan.pos),
    obj.data.drop obj.neighborPos⟩

/-- The members are those a parse of the page data would set; the timestamp pointer apart. -/
structure Synced (cfg : PageConfig) (obj : CsrObject) : Prop where
  isParse : obj.isParse = true
  pos : 0 < obj.numVertices
  numVertices : halfRead obj.data = obj.numVertices
  numEdges : halfRead (obj.data.drop 2) = obj.numEdges
  usedBytes : wordRead (obj.data.drop 4) = obj.usedBytes
  parentPageNo : wordRead (obj.data.drop 8) = obj.links.parentPageNo
  neighborPageCount : wordRead (obj.data.drop 12) = obj.links.neighborPageCount
  count : obj.links.neighborPageCount ≤ cfg.maxBlockNeighbor
  least : fixedSize cfg.toConfig obj.numVertices ≤ obj.usedBytes
  most : obj.usedBytes ≤ cfg.pageSize
  neighborPageSpan : obj.neighborPageSpan = ⟨16, obj.links.neighborPageCount⟩
  vertexSpan : obj.vertexSpan = ⟨cfg.headerBytes, obj.numVertices⟩
  neighborPtr : obj.neighborPtr = some (fixedSize cfg.toConfig obj.numVertices)

variable {cfg : PageConfig} {obj obj' : CsrObject} {i : Nat}

theorem Synced.neighborPos (h : obj.Synced cfg) :
    obj.neighborPos = fixedSize cfg.toConfig obj.numVertices := by
  rw [CsrObject.neighborPos, h.neighborPtr]
  rfl

/-- The parsed form of a page whose header is read. -/
theorem parse_data (h : obj.Synced cfg) :
    BwGraph.parseFromPageData cfg.toConfig obj.data = .ok (obj.page, obj.links) := by
  have hpos := h.pos
  have hne : obj.numVertices ≠ 0 := by omega
  have hleast : ¬ obj.usedBytes < cfg.headerBytes + obj.numVertices * csrVertexBytes :=
    Nat.not_lt.2 h.least
  unfold BwGraph.parseFromPageData
  simp only [h.numVertices, h.numEdges, h.usedBytes, h.parentPageNo, h.neighborPageCount]
  rw [if_neg fun hc => hne hc.1, if_neg fun hc => hne hc.1, if_neg (Nat.not_lt.2 h.count),
    if_neg hleast, if_neg (Nat.not_lt.2 h.most), page, h.vertexSpan, h.neighborPos]
  rfl

/-- The timestamp pointer a parse sets. -/
def parsedTsPtr (cfg : PageConfig) (obj : CsrObject) : Option Nat :=
  if cfg.transaction then some (fixedSize cfg.toConfig obj.numVertices +
    neighborDataSize (obj.usedBytes - fixedSize cfg.toConfig obj.numVertices)) else none

/-- Parsing the bytes of such an object gives its members again. -/
theorem Synced.reparse (h : obj.Synced cfg) : (ofData obj.data).parseFromPageData cfg =
    (none, { obj with isDirty := false, edgeTsPtr := obj.parsedTsPtr cfg }) := by
  have hpage : obj.page.numVertices = obj.numVertices := length_vertexReads _ _
  have hne : obj.page.numVertices ≠ 0 := by
    have hpos := h.pos
    omega
  have hdata : (ofData obj.data).data = obj.data := rfl
  unfold parseFromPageData
  rw [hdata, parse_data h]
  dsimp only
  rw [if_neg hne, hpage]
  refine Prod.ext rfl ?_
  cases obj
  simp only [ofData, CsrObject.mk.injEq, true_and]
  exact ⟨h.isParse.symm, rfl, rfl, h.neighborPageSpan.symm, h.vertexSpan.symm, h.neighborPtr.symm,
    rfl⟩

/-- The header of a page lies in its first 16 bytes. -/
theorem Synced.of_agree {data : List Nat} (h : obj.Synced cfg) (ha : AgreeOn 0 16 data obj.data) :
    { obj with data := data }.Synced cfg := by
  have hword : ∀ k, k + 4 ≤ 16 → wordRead (data.drop k) = wordRead (obj.data.drop k) :=
    fun k hk => readsFirst_wordRead.congr (ha.mono (Nat.zero_le _) hk)
  have h0 : halfRead data = halfRead obj.data :=
    readsFirst_halfRead data obj.data (ha.mono (Nat.le_refl _) (by omega))
  have h2 : halfRead (data.drop 2) = halfRead (obj.data.drop 2) :=
    readsFirst_halfRead.congr (ha.mono (Nat.zero_le _) (by omega))
  exact ⟨h.isParse, h.pos, h0.trans h.numVertices, h2.trans h.numEdges,
    (hword 4 (by omega)).trans h.usedBytes, (hword 8 (by omega)).trans h.parentPageNo,
    (hword 12 (by omega)).trans h.neighborPageCount, h.count, h.least, h.most, h.neighborPageSpan,
    h.vertexSpan, h.neighborPtr⟩

/-- Entries with the same degree and offset in front of the same bytes give the same neighbours. -/
theorem readNeighbors_congr (hn : obj'.numVertices = obj.numVertices)
    (hdeg : (obj'.vertexAt i).degree = (obj.vertexAt i).degree)
    (hoff : (obj'.vertexAt i).offset = (obj.vertexAt i).offset)
    (hpos : obj'.neighborPos = obj.neighborPos)
    (hdata : obj'.data.drop obj.neighborPos = obj.data.drop obj.neighborPos) :
    obj'.readNeighbors cfg i = obj.readNeighbors cfg i := by
  have hdrop : ∀ k, obj'.data.drop (obj.neighborPos + k) = obj.data.drop (obj.neighborPos + k) := by
    intro k
    rw [← drop_drop, hdata, drop_drop]
  unfold readNeighbors getNeighborPtvRange getNeighbors
  dsimp only
  rw [hn, hdeg, hoff, hpos, hdrop, PtvNeighborRange.collect_fst, PtvNeighborRange.collect_fst]
  split_ifs
  · rfl
  · rfl
  · rw [hdrop]
  · rfl
  · rfl
  · rfl

/-- A parse that goes through and finds vertices. -/
theorem synced_of_parse (h : obj.parseFromPageData cfg = (none, obj'))
    (hpos : 0 < obj'.numVertices) : obj'.Synced cfg ∧ obj'.data = obj.data ∧
      obj'.isDirty = obj.isDirty ∧
      obj'.edgeTsPtr = if cfg.transaction then obj'.parsedTsPtr cfg else obj.edgeTsPtr := by
  unfold parseFromPageData at h
  cases hp : BwGraph.parseFromPageData cfg.toConfig obj.data with
  | error message => rw [hp] at h; cases h
  | ok r =>
    obtain ⟨page, links⟩ := r
    rw [hp] at h
    dsimp only at h
    by_cases h0 : page.numVertices = 0
    · rw [if_pos h0] at h
      cases h
      exact absurd hpos (Nat.lt_irrefl 0)
    · rw [if_neg h0] at h
      cases h
      have hp' := hp
      unfold BwGraph.parseFromPageData at hp'
      dsimp only at hp'
      split_ifs at hp' with h1 h2 h3 h4 h5
      · cases hp'
        exact absurd rfl h0
      · cases hp'
        have hlen : CsrPage.numVertices ⟨halfRead (obj.data.drop 2), wordRead (obj.data.drop 4),
            vertexReads (halfRead obj.data) (obj.data.drop cfg.headerBytes),
            obj.data.drop (cfg.headerBytes + halfRead obj.data * csrVertexBytes)⟩ =
            halfRead obj.data := length_vertexReads _ _
        refine ⟨⟨rfl, hpos, hlen.symm, rfl, rfl, rfl, rfl, Nat.not_lt.1 h3, ?_, Nat.not_lt.1 h5,
          rfl, rfl, rfl⟩, rfl, rfl, ?_⟩
        · rw [hlen]
          exact Nat.not_lt.1 h4
        · unfold parsedTsPtr
          split_ifs <;> rfl

end CsrObject

/-! ## What the build leaves -/

variable {acc acc' : CsrLayout}

theorem CsrLayout.addVertices_none {cfg : Config} {slots : VId → Nat}
    {items : List (VId × List VId)} (h : CsrLayout.addVertices cfg slots items acc = (none, acc')) :
    items.foldlM (CsrLayout.addVertex cfg slots) acc = .ok acc' := by
  induction items generalizing acc with
  | nil =>
    cases h
    rfl
  | cons item items ih =>
    rw [addVertices] at h
    rw [foldlM_cons]
    cases h1 : acc.addVertex cfg slots item with
    | error message => rw [h1] at h; cases h
    | ok acc1 =>
      rw [h1] at h
      exact ih h

/-- The degree of an item that counts as edges of the page. -/
def normalDegree (cfg : Config) (item : VId × List VId) : Nat :=
  if item.2.length ≥ cfg.giantDegreeBound then 0 else item.2.length

theorem totalEdgeCount_foldlM {cfg : Config} {slots : VId → Nat} {items : List (VId × List VId)}
    (h : items.foldlM (CsrLayout.addVertex cfg slots) acc = .ok acc') :
    acc'.totalEdgeCount = acc.totalEdgeCount + (items.map (normalDegree cfg)).sum := by
  induction items generalizing acc with
  | nil =>
    cases h
    rfl
  | cons item items ih =>
    rw [foldlM_cons] at h
    obtain ⟨acc1, h1, h2⟩ := Except.bind_eq_ok.1 h
    have hone : acc1.totalEdgeCount = acc.totalEdgeCount + normalDegree cfg item := by
      unfold CsrLayout.addVertex at h1
      unfold normalDegree
      dsimp only at h1
      split_ifs at h1 with _ hg
      · cases h1
        rw [if_pos hg]
        rfl
      · cases h1
        rw [if_neg hg]
    rw [ih h2, hone, map_cons, sum_cons, Nat.add_assoc]

namespace CsrObject

/-- A page with the given items as both builders leave it: its header is that of its members, and
the vertices and the neighbour section are laid out in order. -/
structure Built (cfg : PageConfig) (slots : VId → Nat) (items : List (VId × List VId))
    (obj : CsrObject) : Prop where
  synced : obj.Synced cfg
  length : obj.data.length = cfg.pageSize
  vertices : obj.numVertices = items.length
  vertexAt : ∀ i v nbrs, items[i]? = some (v, nbrs) → obj.vertexAt i = ⟨v, nbrs.length,
    if nbrs.length ≥ cfg.giantDegreeBound then 0
      else ((items.take i).flatMap (block cfg.toConfig slots)).length, 0⟩
  neighbors : ∃ n, obj.data.drop obj.neighborPos =
    items.flatMap (block cfg.toConfig slots) ++ List.replicate n 0
  usedBytes : obj.usedBytes = fixedSize cfg.toConfig items.length +
    (items.flatMap (block cfg.toConfig slots)).length +
      cfg.tsDataSize (items.flatMap (block cfg.toConfig slots)).length
  degree : ∀ it ∈ items, it.2.length < 2 ^ 32

variable {cfg : PageConfig} {slots : VId → Nat} {items : List (VId × List VId)}
  {obj obj' : CsrObject} {vm vm' : List (VId × Nat)}

/-- Copies that lie one behind another on a cleared page are those of the parsed form. -/
theorem poke_pageData (links : PageLinks) (page : CsrPage)
    (h : fixedSize cfg.toConfig page.vertexSpan.length + page.neighborData.length ≤ cfg.pageSize) :
    poke (poke (poke (poke (List.replicate cfg.pageSize 0) 0
      (headerWrite page.numVertices page.numEdges page.usedBytes links)) 16
      (List.replicate (cfg.maxBlockNeighbor * 4) 0)) cfg.headerBytes
      (page.vertexSpan.flatMap vertexWrite)) (fixedSize cfg.toConfig page.vertexSpan.length)
      page.neighborData = page.pageData cfg.toConfig links := by
  generalize hhead : headerWrite page.numVertices page.numEdges page.usedBytes links = head
  have hlen : head.length = 16 := by
    rw [← hhead]
    rfl
  have h16 : (16 : Nat) = 0 + head.length := by rw [hlen]
  have hverts : cfg.headerBytes =
      0 + (head ++ List.replicate (cfg.maxBlockNeighbor * 4) 0).length := by
    rw [length_append, hlen, length_replicate, Nat.zero_add, Config.headerBytes]
  have hnbrs : fixedSize cfg.toConfig page.vertexSpan.length = 0 + (head ++
      List.replicate (cfg.maxBlockNeighbor * 4) 0 ++
        page.vertexSpan.flatMap vertexWrite).length := by
    rw [length_append, length_flatMap_vertexWrite, fixedSize, hverts, Nat.zero_add,
      Nat.zero_add]
  have hcopied : (head ++ List.replicate (cfg.maxBlockNeighbor * 4) 0 ++
      page.vertexSpan.flatMap vertexWrite ++ page.neighborData).length ≤ cfg.pageSize := by
    rw [length_append]
    omega
  unfold pageData
  dsimp only
  rw [hhead, h16, poke_poke, hverts, poke_poke, hnbrs, poke_poke,
    poke_eq (by rw [length_replicate]; omega), take_zero, nil_append, Nat.zero_add,
    drop_replicate]

variable {acc : CsrLayout} {total : Nat}

theorem laidOut_data
    (h : fixedSize cfg.toConfig acc.vertices.length + acc.allNeighborBytes.length ≤ cfg.pageSize) :
    (obj.laidOut cfg acc total).data = pageData cfg.toConfig obj.links
      ⟨acc.totalEdgeCount, total % 2 ^ 32, acc.vertices, acc.allNeighborBytes⟩ :=
  poke_pageData obj.links ⟨acc.totalEdgeCount, total % 2 ^ 32, acc.vertices, acc.allNeighborBytes⟩ h

theorem sized_of_layout (hacc : acc.Sized) (hv : acc.vertices.length ≤ uint16Max)
    (he : acc.totalEdgeCount ≤ uint16Max)
    (hleast : fixedSize cfg.toConfig acc.vertices.length ≤ total % 2 ^ 32)
    (hmost : total % 2 ^ 32 ≤ cfg.pageSize) :
    CsrPage.Sized cfg.toConfig
      ⟨acc.totalEdgeCount, total % 2 ^ 32, acc.vertices, acc.allNeighborBytes⟩ :=
  ⟨hacc.vertices, Nat.lt_succ_of_le hv, Nat.lt_succ_of_le he, hleast, hmost⟩

section

variable (blk : VId × List VId → List Nat) (off : Nat) (items : List (VId × List VId))

theorem pushed_lay (k : Nat) : ((lay cfg.toConfig blk off items).zipIdx k).map
      (fun p => (p.1.vertexId, p.2 % 2 ^ 16)) =
        (items.zipIdx k).map fun p => (p.1.1, p.2 % 2 ^ 16) := by
  induction items generalizing off k with
  | nil => rfl
  | cons item items ih =>
    rw [lay]
    split_ifs
    · rw [zipIdx_cons, zipIdx_cons, map_cons, map_cons, ih]
    · rw [zipIdx_cons, zipIdx_cons, map_cons, map_cons, ih]

theorem lay_degrees_only :
    (lay cfg.toConfig blk off items).map CsrVertex.degree = items.map fun it => it.2.length := by
  have h := congrArg (List.map Prod.snd) (lay_degrees cfg.toConfig blk off items)
  rw [map_map, map_map] at h
  exact h

end

variable {i : Nat}

/-- The entries of the parsed form are what `vertex_span_` yields. -/
theorem getElem?_page (hi : i < obj.numVertices) :
    obj.page.vertexSpan[i]? = some (obj.vertexAt i) := by
  show (vertexReads obj.numVertices (obj.data.drop obj.vertexSpan.pos))[i]? = _
  rw [getElem?_vertexReads, if_pos hi, drop_drop]
  rfl

variable {page : CsrPage}

/-- The object a parse makes of the bytes of a parsed form. -/
theorem parse_pageData {links : PageLinks} (hsized : page.Sized cfg.toConfig)
    (hne : page.vertexSpan ≠ []) (hsize : cfg.pageSize < 2 ^ 32)
    (hparent : links.parentPageNo < 2 ^ 32)
    (hcount : links.neighborPageCount ≤ cfg.maxBlockNeighbor) :
    ∃ parsed, (ofData (page.pageData cfg.toConfig links)).parseFromPageData cfg = (none, parsed) ∧
      parsed.Synced cfg ∧ parsed.data = page.pageData cfg.toConfig links ∧
      parsed.links = links ∧ parsed.isDirty = false ∧
      parsed.edgeTsPtr = (if cfg.transaction then parsed.parsedTsPtr cfg else none) ∧
      parsed.numVertices = page.numVertices ∧ ∃ n, parsed.page = page.padded n := by
  obtain ⟨n, hp⟩ := CsrPage.parse_pageData hsized hne hsize hparent hcount
  have hnum : (page.padded n).numVertices = page.numVertices := rfl
  have hpos : 0 < page.numVertices := length_pos_iff.2 hne
  have hd : (ofData (page.pageData cfg.toConfig links)).data = page.pageData cfg.toConfig links :=
    rfl
  cases hof : (ofData (page.pageData cfg.toConfig links)).parseFromPageData cfg with
  | mk thrown parsed =>
    have hof' := hof
    unfold parseFromPageData at hof'
    rw [hd, hp] at hof'
    dsimp only at hof'
    rw [hnum, if_neg (by omega)] at hof'
    obtain ⟨rfl, hparsed⟩ := Prod.mk.inj hof'
    have hverts : parsed.numVertices = page.numVertices := by rw [← hparsed]
    have hlinks : parsed.links = links := by rw [← hparsed]
    obtain ⟨hs, hdata, hdirty, hts⟩ := synced_of_parse hof (hverts ▸ hpos)
    refine ⟨parsed, rfl, hs, hdata, hlinks, hdirty, hts, hverts, n, ?_⟩
    have hsame := parse_data hs
    rw [hdata, hd, hp] at hsame
    exact (congrArg Prod.fst (Except.ok.inj hsame)).symm

/-- An object whose bytes are those of a parsed form, and whose members are those of the form, is in
step with its header, and the form is its own. -/
theorem synced_of_pageData (hsized : page.Sized cfg.toConfig) (hne : page.vertexSpan ≠ [])
    (hsize : cfg.pageSize < 2 ^ 32) (hparent : obj.links.parentPageNo < 2 ^ 32)
    (hcount : obj.links.neighborPageCount ≤ cfg.maxBlockNeighbor)
    (hdata : obj.data = CsrPage.pageData cfg.toConfig obj.links page) (hparse : obj.isParse = true)
    (hnv : obj.numVertices = page.numVertices) (hnew : obj.numEdges = page.numEdges)
    (hused : obj.usedBytes = page.usedBytes)
    (hblock : obj.neighborPageSpan = ⟨16, obj.links.neighborPageCount⟩)
    (hspan : obj.vertexSpan = ⟨cfg.headerBytes, page.numVertices⟩)
    (hptr : obj.neighborPtr = some (fixedSize cfg.toConfig page.numVertices)) :
    obj.Synced cfg ∧ ∃ n, obj.page = page.padded n := by
  obtain ⟨parsed, -, hs, hsame, hlinks, -, -, hverts, n, hpage⟩ :=
    parse_pageData hsized hne hsize hparent hcount
  have hedges : parsed.numEdges = page.numEdges := congrArg CsrPage.numEdges hpage
  have hbytes : parsed.usedBytes = page.usedBytes := congrArg CsrPage.usedBytes hpage
  rw [← hdata] at hsame
  have hsync : obj.Synced cfg := by
    refine ⟨hparse, ?_, ?_, ?_, ?_, ?_, ?_, hcount, ?_, ?_, hblock, ?_, ?_⟩
    · rw [hnv]
      exact length_pos_iff.2 hne
    · rw [← hsame, hs.numVertices, hverts, hnv]
    · rw [← hsame, hs.numEdges, hedges, hnew]
    · rw [← hsame, hs.usedBytes, hbytes, hused]
    · rw [← hsame, hs.parentPageNo, hlinks]
    · rw [← hsame, hs.neighborPageCount, hlinks]
    · rw [hnv, hused]
      exact hsized.least
    · rw [hused]
      exact hsized.most
    · rw [hnv]
      exact hspan
    · rw [hnv]
      exact hptr
  refine ⟨hsync, n, ?_⟩
  have h1 := parse_data hsync
  rw [← hsame, parse_data hs, hpage] at h1
  exact (congrArg Prod.fst (Except.ok.inj h1)).symm

/-- `build_from_adjacency_map`, when it returns. -/
theorem build_ok (hne : items ≠ [])
    (h : obj.buildFromAdjacencyMap cfg slots items vm = (none, obj', vm'))
    (hsize : cfg.pageSize < 2 ^ 32) (hids : ∀ it ∈ items, it.1 < 2 ^ 32)
    (hparent : obj.links.parentPageNo < 2 ^ 32)
    (hcount : obj.links.neighborPageCount ≤ cfg.maxBlockNeighbor) :
    obj'.Built cfg slots items ∧ obj'.links = obj.links ∧ obj'.isDirty = obj.isDirty ∧
      obj'.numEdges = (items.map (normalDegree cfg.toConfig)).sum ∧
      (items.flatMap (block cfg.toConfig slots)).length < 2 ^ 16 ∧
      obj'.edgeTsPtr = (if cfg.transaction then some (fixedSize cfg.toConfig items.length +
        (items.flatMap (block cfg.toConfig slots)).length) else obj.edgeTsPtr) ∧
      vm' = vm ++ items.zipIdx.map fun p => (p.1.1, p.2 % 2 ^ 16) := by
  unfold buildFromAdjacencyMap at h
  rw [if_neg hne] at h
  dsimp only at h
  cases hadd : CsrLayout.addVertices cfg.toConfig slots items ⟨[], 0, []⟩ with
  | mk thrown acc =>
    rw [hadd] at h
    cases thrown with
    | some message => cases h
    | none =>
      dsimp only at h
      have hfold := CsrLayout.addVertices_none hadd
      obtain ⟨hv, hb⟩ := foldlM_addVertex_layout items hfold
      simp only [List.nil_append, List.length_nil] at hv hb
      have hedges := totalEdgeCount_foldlM hfold
      rw [Nat.zero_add] at hedges
      have hacc : acc.Sized := CsrLayout.Sized.foldlM items
        ⟨fun e he => absurd he List.not_mem_nil, by decide⟩ hids hfold
      have hlen : acc.vertices.length = items.length := by rw [hv, length_lay]
      split_ifs at h with h1 h2 h3
      iterate 3 cases h
      cases h
      generalize htot : fixedSize cfg.toConfig acc.vertices.length + acc.allNeighborBytes.length +
        cfg.tsDataSize acc.allNeighborBytes.length = total at h3
      have hmod : total % 2 ^ 32 = total := Nat.mod_eq_of_lt (by omega)
      have hsized : CsrPage.Sized cfg.toConfig
          ⟨acc.totalEdgeCount, total % 2 ^ 32, acc.vertices, acc.allNeighborBytes⟩ := by
        refine sized_of_layout hacc ?_ (Nat.not_lt.1 h2) (by omega) (by omega)
        rw [hlen]
        exact Nat.not_lt.1 h1
      have hspan : acc.vertices ≠ [] := by
        intro h0
        rw [h0] at hlen
        exact hne (List.length_eq_zero_iff.1 hlen.symm)
      have hstep : (obj.laidOut cfg acc total).Synced cfg ∧
          ∃ n, (obj.laidOut cfg acc total).page = padded
            ⟨acc.totalEdgeCount, total % 2 ^ 32, acc.vertices, acc.allNeighborBytes⟩ n :=
        synced_of_pageData hsized hspan hsize hparent hcount (laidOut_data (by omega))
          rfl rfl rfl rfl rfl rfl rfl
      obtain ⟨hsync, n, hpage⟩ := hstep
      have hnv : (obj.laidOut cfg acc total).numVertices = items.length := hlen
      refine ⟨⟨hsync, ?_, hnv, fun i v nbrs hi => ?_, ⟨n, ?_⟩, ?_, fun it hit => ?_⟩, rfl, rfl,
        hedges, ?_, ?_, ?_⟩
      · simp [laidOut]
      · have hlt : i < items.length := (List.getElem?_eq_some_iff.1 hi).1
        have hget := getElem?_page (hnv ▸ hlt : i < (obj.laidOut cfg acc total).numVertices)
        rw [hpage] at hget
        have hlay : acc.vertices[i]? = some _ := hget
        rw [hv, getElem?_lay cfg.toConfig _ (block_giant cfg.toConfig slots), hi, Nat.zero_add]
          at hlay
        exact (Option.some.inj hlay).symm
      · have hnd := congrArg neighborData hpage
        rw [← hb]
        exact hnd
      · show total % 2 ^ 32 = _
        rw [hmod, ← htot, hlen, hb]
      · have hmem : it.2.length ∈ acc.vertices.map CsrVertex.degree := by
          rw [hv, lay_degrees_only]
          exact List.mem_map_of_mem hit
        obtain ⟨e, he, hdeg⟩ := List.mem_map.1 hmem
        rw [← hdeg]
        exact (hacc.vertices e he).degree
      · rw [← hb]
        exact hacc.offset
      · rw [← hb, ← hlen]
        rfl
      · congr 1
        unfold CsrLayout.pushed
        rw [hv]
        exact pushed_lay _ _ items 0

/-- The bytes of an item lie within those of all items. -/
theorem length_take_add_le {α β : Type} (f : α → List β) {l : List α} {a : α} (h : l[i]? = some a) :
    ((l.take i).flatMap f).length + (f a).length ≤ (l.flatMap f).length := by
  have hdrop : l.drop i = a :: l.drop (i + 1) := by
    rw [drop_eq_getElem?_toList_append, h]
    rfl
  conv_rhs => rw [← take_append_drop i l, flatMap_append, hdrop, flatMap_cons,
    length_append, length_append]
  omega

/-- The bytes from the offset of an item on begin with its block. -/
theorem Built.drop_block (h : obj.Built cfg slots items) {it : VId × List VId}
    (hi : items[i]? = some it) :
    ∃ rest, obj.data.drop (obj.neighborPos +
      ((items.take i).flatMap (block cfg.toConfig slots)).length) =
        block cfg.toConfig slots it ++ rest := by
  obtain ⟨n, hn⟩ := h.neighbors
  have hle := Nat.le_of_add_right_le (length_take_add_le (block cfg.toConfig slots) hi)
  have hdrop : items.drop i = it :: items.drop (i + 1) := by
    rw [drop_eq_getElem?_toList_append, hi]
    rfl
  rw [← drop_drop, hn, drop_append_of_le_length hle, drop_flatMap_take, hdrop,
    flatMap_cons, append_assoc]
  exact ⟨_, rfl⟩

/-- Reading an entry below the giant bound gives the neighbours of its item back. -/
theorem Built.readNeighbors (h : obj.Built cfg slots items) {v : VId} {nbrs : List VId}
    (hi : items[i]? = some (v, nbrs)) (hdeg : nbrs.length < cfg.giantDegreeBound)
    (hids : ∀ d ∈ nbrs, d < cfg.idLimit) : obj.readNeighbors cfg i = nbrs := by
  obtain ⟨rest, hrest⟩ := h.drop_block hi
  have hlt : i < obj.numVertices := h.vertices ▸ (List.getElem?_eq_some_iff.1 hi).1
  have hng := Nat.not_le.2 hdeg
  have hentry := h.vertexAt i v nbrs hi
  rw [if_neg hng] at hentry
  generalize hoff : ((items.take i).flatMap (block cfg.toConfig slots)).length = off
    at hrest hentry
  unfold CsrObject.readNeighbors
  cases hcomp : cfg.neighborCompress with
  | true =>
    have hlim : cfg.idLimit = 2 ^ 30 := by rw [Config.idLimit, hcomp, if_pos rfl]
    have hcount : (UInt32.ofNat nbrs.length).toNat = nbrs.length := by
      rw [UInt32.toNat_ofNat', Nat.mod_eq_of_lt (h.degree _ (List.mem_of_getElem? hi))]
    rw [if_pos rfl, getNeighborPtvRange, if_neg (Nat.not_le.2 hlt), hentry]
    dsimp only
    rw [if_neg hng, PtvNeighborRange.collect_fst, hcount, hrest, block, if_neg hng, neighborBytes,
      hcomp, if_pos rfl, List.append_assoc]
    exact ptvReads_append nbrs (fun d hd => hlim ▸ hids d hd) _
  | false =>
    have hlim : cfg.idLimit = 2 ^ 32 := by
      rw [Config.idLimit, hcomp, if_neg Bool.false_ne_true]
    have hdiv : off / 4 * 4 = off := by
      rw [← hoff, block_eq_rawBlock hcomp]
      exact Nat.div_mul_cancel (dvd_length_flatMap _ 4 (length_rawBlock cfg.toConfig slots) _)
    rw [if_neg Bool.false_ne_true, getNeighbors, if_neg (Nat.not_le.2 hlt), hentry]
    dsimp only
    rw [if_neg hng, hdiv, hrest, block, if_neg hng, neighborBytes, hcomp,
      if_neg Bool.false_ne_true, List.append_assoc]
    exact wordReads_append nbrs (fun d hd => hlim ▸ hids d hd) _

/-- Bytes with the header of an empty page parse to a page of no vertices. -/
theorem parse_builtEmpty {start : CsrObject} {data : List Nat}
    (h : AgreeOn 0 16 data (start.builtEmpty cfg).data) :
    (ofData data).parseFromPageData cfg =
      (none, { (ofData data).cleared with isParse := true }) := by
  have hagree : AgreeOn 0 4 data (List.replicate cfg.pageSize 0) := by
    have hcut := poke_poke (List.replicate cfg.pageSize 0) 0 (List.replicate 4 0)
      (wordWrite 16 ++ wordWrite 0 ++ wordWrite 0)
    rw [poke_zeros] at hcut
    have hzeros : (start.builtEmpty cfg).data = poke (List.replicate cfg.pageSize 0)
        (0 + (List.replicate 4 0).length) (wordWrite 16 ++ wordWrite 0 ++ wordWrite 0) := by
      rw [hcut]
      rfl
    rw [hzeros] at h
    exact (h.mono (Nat.le_refl _) (by omega)).trans (agreeOn_poke _ (.inl (Nat.le_refl _)))
  have hzero : ∀ k, k + 2 ≤ 4 → halfRead (data.drop k) = 0 := by
    intro k hk
    rw [readsFirst_halfRead.congr (hagree.mono (Nat.zero_le _) hk), drop_replicate, halfRead]
    simp
  have hparse : BwGraph.parseFromPageData cfg.toConfig data = .ok (empty, ⟨0, 0⟩) :=
    if_pos ⟨hzero 0 (by omega), hzero 2 (by omega)⟩
  unfold parseFromPageData
  have hdata : (ofData data).data = data := rfl
  rw [hdata, hparse]
  rfl

/-- Nothing is read from a page of no vertices. -/
theorem reads_of_numVertices_eq_zero (h : obj.numVertices = 0) (cfg : PageConfig) (i : Nat) :
    obj.getNeighbors cfg i = [] ∧ obj.getVertexDegree i = 0 := by
  unfold getNeighbors getVertexDegree
  rw [h]
  exact ⟨if_pos (Nat.zero_le i), if_pos (Nat.zero_le i)⟩

end CsrObject

end BwGraph
