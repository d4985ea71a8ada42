import BwGraph.Io.CsrRegions

/-
  `csr_page_builder_t` (`builder.h`, `builder.cc`) in both builds, up to the object `build` returns.
  The builder lays one vertex behind another; `current_edge_offset_` has 32 bits, and so have a
  degree and the sum of a degree and its slots. Whatever it packs into a page that fits is stored
  there as regions (`PageBuilder.build_holds`).

  `BuiltObject` are the pages that this `build` and `build_from_adjacency_map` leave.
-/

namespace BwGraph

open Bytes List Region CsrPage

/-- `csr_page_builder_t`, with `page_size_` and `edge_slot_count_`. -/
structure PageBuilder extends CsrPageBuilder where
  pageSize : Nat
  edgeSlotCount : Nat

namespace PageBuilder

/-- The constructor. -/
def new (pageSize edgeSlotCount : Nat) : PageBuilder :=
  { CsrPageBuilder.init with pageSize, edgeSlotCount }

/-- `estimated_size`. -/
def estimatedSize (cfg : PageConfig) (b : PageBuilder) : Nat :=
  cfg.headerBytes + b.entries.length * csrVertexBytes + b.edges.length * 4 +
    cfg.tsDataSize (b.edges.length * 4)

/-- `add_vertex`; `none` is the result `false`, which leaves the builder as it was. -/
def addVertex (cfg : PageConfig) (b : PageBuilder) (vertexId : VId) (neighbors : List VId)
    (perVertexSlots : Nat) : Except String (Option PageBuilder) :=
  let degree := neighbors.length % 2 ^ 32
  let isGiant := decide (degree ≥ cfg.giantDegreeBound)
  let neighborBytes := (degree + perVertexSlots) % 2 ^ 32 * 4
  let newEstimatedSize := b.estimatedSize cfg + csrVertexBytes +
    if isGiant then 0 else neighborBytes + cfg.tsDataSize neighborBytes
  if newEstimatedSize > b.pageSize ∧ !b.entries.isEmpty then .ok none
  else if isGiant then
    .ok (some { b with
      entries := b.entries ++ [⟨vertexId, degree, 0, 0⟩]
      giantVertices := b.giantVertices ++ [(vertexId, neighbors)] })
  else if b.currentEdgeOffset > uint16Max then .error "Byte offset exceeds uint16_t limit"
  else
    .ok (some { b with
      entries := b.entries ++ [⟨vertexId, degree, b.currentEdgeOffset, 0⟩]
      edges := b.edges ++ neighbors ++ List.replicate perVertexSlots 0
      currentEdgeOffset := (b.currentEdgeOffset + neighborBytes) % 2 ^ 32 })

/-- What `build` copies into a new page. -/
def copied (cfg : PageConfig) (b : PageBuilder) (numEdges totalSize : Nat) : List Nat :=
  let data := poke (CsrObject.new cfg).data 0 (List.replicate b.pageSize 0)
  let data := poke data 0 (headerWrite b.entries.length numEdges totalSize ⟨0, 0⟩)
  let data := poke data 16 (List.replicate (cfg.maxBlockNeighbor * 4) 0)
  let data := poke data cfg.headerBytes (b.entries.flatMap vertexWrite)
  poke data (CsrObject.fixedSize cfg.toConfig b.entries.length) (b.edges.flatMap wordWrite)

/-- `build`: the page, its vertex map and the builder after `clear_all`. -/
def build (cfg : PageConfig) (b : PageBuilder) :
    Except String (CsrObject × List (VId × Nat) × PageBuilder) :=
  if b.entries.isEmpty then .error "Cannot build empty CSR page"
  else
    let giantSet := b.giantVertices.map Prod.fst
    let numEdges := ((b.entries.filter fun e => e.vertexId ∉ giantSet).map CsrVertex.degree).sum
    if b.entries.length > uint16Max then .error "Vertex count exceeds uint16_t limit"
    else if numEdges > uint16Max then .error "Edge count exceeds uint16_t limit"
    else
      let totalSize := b.estimatedSize cfg
      if totalSize > b.pageSize then
        .error ("CSR data too large for page: " ++ toString totalSize ++ " bytes required, " ++
          toString b.pageSize ++ " bytes available")
      else
        match (CsrObject.ofData (b.copied cfg numEdges totalSize)).parseFromPageData cfg with
        | (some message, _) => .error message
        | (none, page) =>
          .ok (page, vertexMap b.entries, { b with toCsrPageBuilder := b.toCsrPageBuilder.clearAll })

end PageBuilder

/-! ## What is packed -/

namespace Region

variable {rs : List Region} {i k : Nat}

/-- The entries of regions behind `k` words. -/
def entries : Nat → List Region → List CsrVertex
  | _, [] => []
  | k, r :: rs => r.entry k :: entries (k + r.words.length) rs

theorem entries_append (k : Nat) (rs rs' : List Region) :
    entries k (rs ++ rs') = entries k rs ++ entries (k + (stored rs).length) rs' := by
  induction rs generalizing k with
  | nil => rfl
  | cons r rs ih =>
    have hlen : (stored (r :: rs)).length = r.words.length + (stored rs).length := by
      rw [stored, flatMap_cons, length_append, stored]
    rw [cons_append, entries, ih, entries, cons_append, hlen, Nat.add_assoc]

variable (k : Nat) (rs : List Region)

theorem getElem?_entries (i : Nat) :
    (entries k rs)[i]? = rs[i]?.map fun r => r.entry (k + start rs i) := by
  induction rs generalizing k i with
  | nil => rfl
  | cons r rs ih =>
    cases i with
    | zero => rfl
    | succ i =>
      rw [entries, getElem?_cons_succ, getElem?_cons_succ, ih, start_cons, Nat.add_assoc]

theorem length_entries : (entries k rs).length = rs.length := by
  induction rs generalizing k with
  | nil => rfl
  | cons r rs ih => rw [entries, length_cons, ih, length_cons]

theorem stored_append (rs rs' : List Region) : stored (rs ++ rs') = stored rs ++ stored rs' :=
  flatMap_append

end Region

namespace PageBuilder

/-- The builder has packed the regions. The offsets hold until the words take `2 ^ 32` bytes. -/
structure Packs (cfg : PageConfig) (rs : List Region) (b : PageBuilder) : Prop where
  edges : b.edges = Region.stored rs
  laid : b.edges.length * 4 < 2 ^ 32 →
    b.entries = Region.entries 0 rs ∧ b.currentEdgeOffset = b.edges.length * 4
  sized : ∀ e ∈ b.entries, e.Sized
  valid : ∀ r ∈ rs, r.Valid cfg.toConfig

variable {cfg : PageConfig} {rs : List Region} {b b' : PageBuilder} {v : VId} {nbrs : List VId}
  {slots : Nat}

theorem Packs.cleared {b : PageBuilder} : Packs cfg []
    { b with toCsrPageBuilder := b.toCsrPageBuilder.clearAll } :=
  ⟨rfl, fun _ => ⟨rfl, rfl⟩, fun _ he => absurd he not_mem_nil,
    fun _ hr => absurd hr not_mem_nil⟩

theorem Packs.new (pageSize slots : Nat) : Packs cfg [] (PageBuilder.new pageSize slots) :=
  ⟨rfl, fun _ => ⟨rfl, rfl⟩, fun _ he => absurd he not_mem_nil,
    fun _ hr => absurd hr not_mem_nil⟩

/-- `add_vertex` packs one region more. -/
theorem Packs.addVertex (hb : b.Packs cfg rs) (hv : v < 2 ^ 32) (hnbrs : ∀ d ∈ nbrs, d < 2 ^ 32)
    (h : b.addVertex cfg v nbrs slots = .ok (some b')) :
    b'.Packs cfg (rs ++ [ofVertex cfg.toConfig v nbrs slots]) ∧
      b'.pageSize = b.pageSize := by
  have hdeg : nbrs.length % 2 ^ 32 < 2 ^ 32 := Nat.mod_lt _ (by decide)
  have hvalid : ∀ r ∈ rs ++ [ofVertex cfg.toConfig v nbrs slots], r.Valid cfg.toConfig := by
    intro r hr
    rcases mem_append.1 hr with hr | hr
    · exact hb.valid r hr
    · rw [mem_singleton.1 hr]
      exact ofVertex_valid hv hnbrs slots
  unfold PageBuilder.addVertex at h
  simp only [decide_eq_true_eq] at h
  by_cases hg : nbrs.length % 2 ^ 32 ≥ cfg.giantDegreeBound
  · have hr : ofVertex cfg.toConfig v nbrs slots = ⟨v, nbrs.length % 2 ^ 32, true, []⟩ :=
      if_pos hg
    simp only [if_pos hg] at h
    split_ifs at h
    · cases h
    cases h
    refine ⟨⟨?_, fun hlt => ?_, fun e he => ?_, hvalid⟩, rfl⟩
    · rw [hr, stored_append, ← hb.edges]
      exact (append_nil _).symm
    · obtain ⟨hent, hoff⟩ := hb.laid hlt
      refine ⟨?_, hoff⟩
      dsimp only
      rw [hent, hr, entries_append]
      rfl
    · rcases mem_append.1 he with he | he
      · exact hb.sized e he
      · rw [mem_singleton.1 he]
        exact ⟨hv, hdeg, Nat.two_pow_pos 16, Nat.two_pow_pos 16⟩
  · have hr : ofVertex cfg.toConfig v nbrs slots =
        ⟨v, nbrs.length % 2 ^ 32, false, nbrs ++ replicate slots 0⟩ := if_neg hg
    simp only [if_neg hg] at h
    split_ifs at h with _ hover
    · cases h
    cases h
    refine ⟨⟨?_, fun hlt => ?_, fun e he => ?_, hvalid⟩, rfl⟩
    · rw [hr, stored_append, ← hb.edges, stored, flatMap_singleton,
        append_assoc]
    · dsimp only at hlt ⊢
      rw [length_append, length_append, length_replicate] at hlt ⊢
      obtain ⟨hent, hoff⟩ := hb.laid (by omega)
      refine ⟨?_, ?_⟩
      · rw [hent, hr, entries_append, ← hb.edges, hoff, Nat.zero_add]
        rfl
      · rw [hoff]
        omega
    · rcases mem_append.1 he with he | he
      · exact hb.sized e he
      · rw [mem_singleton.1 he]
        exact ⟨hv, hdeg, Nat.lt_succ_of_le (Nat.not_lt.1 hover), Nat.two_pow_pos 16⟩

theorem copied_eq {numEdges totalSize : Nat}
    (hfit : CsrObject.fixedSize cfg.toConfig b.entries.length + b.edges.length * 4 ≤ cfg.pageSize) :
    b.copied cfg numEdges totalSize = pageData cfg.toConfig ⟨0, 0⟩
      ⟨numEdges, totalSize, b.entries, b.edges.flatMap wordWrite⟩ := by
  have hpoke := CsrObject.poke_pageData ⟨0, 0⟩
    ⟨numEdges, totalSize, b.entries, b.edges.flatMap wordWrite⟩
    (by rw [length_flatMap_wordWrite, Nat.mul_comm]; exact hfit)
  rw [← hpoke]
  unfold copied CsrObject.new CsrObject.ofData
  dsimp only
  rw [poke_zeros]
  rfl

/-- What `build` returns stores the regions that were packed, on a page of its own. -/
theorem Packs.build_holds {obj : CsrObject} {vm : List (VId × Nat)} (hb : b.Packs cfg rs)
    (hpage : b.pageSize ≤ cfg.pageSize) (hsize : cfg.pageSize < 2 ^ 32)
    (h : b.build cfg = .ok (obj, vm, b')) : obj.Holds cfg rs ∧ obj.links = ⟨0, 0⟩ ∧
      obj.isDirty = false ∧ b' = { b with toCsrPageBuilder := b.toCsrPageBuilder.clearAll } := by
  unfold PageBuilder.build at h
  dsimp only at h
  generalize hne : ((b.entries.filter fun e =>
    e.vertexId ∉ b.giantVertices.map Prod.fst).map CsrVertex.degree).sum = numEdges at h
  by_cases h0 : b.entries.isEmpty = true
  · rw [if_pos h0] at h
    cases h
  rw [if_neg h0] at h
  by_cases h1 : b.entries.length > uint16Max
  · rw [if_pos h1] at h
    cases h
  rw [if_neg h1] at h
  by_cases h2 : numEdges > uint16Max
  · rw [if_pos h2] at h
    cases h
  rw [if_neg h2] at h
  by_cases h3 : b.estimatedSize cfg > b.pageSize
  · rw [if_pos h3] at h
    cases h
  rw [if_neg h3] at h
  have htotal : b.estimatedSize cfg = CsrObject.fixedSize cfg.toConfig b.entries.length +
      b.edges.length * 4 + cfg.tsDataSize (b.edges.length * 4) := rfl
  have hfit : CsrObject.fixedSize cfg.toConfig b.entries.length + b.edges.length * 4 ≤
      cfg.pageSize := by omega
  obtain ⟨hent, -⟩ := hb.laid (by omega)
  have hsized : CsrPage.Sized cfg.toConfig
      ⟨numEdges, b.estimatedSize cfg, b.entries, b.edges.flatMap wordWrite⟩ := by
    refine ⟨hb.sized, Nat.lt_succ_of_le (Nat.not_lt.1 h1), Nat.lt_succ_of_le (Nat.not_lt.1 h2),
      ?_, ?_⟩
    · show CsrObject.fixedSize cfg.toConfig b.entries.length ≤ b.estimatedSize cfg
      omega
    · show b.estimatedSize cfg ≤ cfg.pageSize
      omega
  have hspan : b.entries ≠ [] := fun h => h0 (by rw [h]; rfl)
  have hparent : (⟨0, 0⟩ : PageLinks).parentPageNo < 2 ^ 32 := Nat.two_pow_pos 32
  obtain ⟨parsed, hparse, hs, hdata, hlinks, hdirty, hts, hverts, n, hform⟩ :=
    CsrObject.parse_pageData hsized hspan hsize hparent (Nat.zero_le _)
  rw [copied_eq hfit, hparse] at h
  dsimp only at h
  obtain ⟨hobj, h⟩ := Prod.mk.inj (Except.ok.inj h)
  rw [← hobj]
  have hnum : parsed.numVertices = rs.length := by
    rw [hverts, numVertices, hent, length_entries]
  have hcount : b.entries.length = rs.length := by rw [hent, length_entries]
  refine ⟨⟨hs, ?_, hnum, fun i r hi => ?_, ⟨replicate n 0, ?_⟩, ?_, hb.valid, fun htxn => ?_⟩,
    hlinks, hdirty, (Prod.mk.inj h).2.symm⟩
  · rw [hdata, ← copied_eq hfit]
    simp [copied, CsrObject.new, CsrObject.ofData]
  · have hlt : i < parsed.numVertices := hnum ▸ (List.getElem?_eq_some_iff.1 hi).1
    have hget := CsrObject.getElem?_page hlt
    rw [hform] at hget
    have hentry : b.entries[i]? = some (parsed.vertexAt i) := hget
    rw [hent, getElem?_entries, hi, Nat.zero_add] at hentry
    exact (Option.some.inj hentry).symm
  · have hnd := congrArg neighborData hform
    rw [← hb.edges, ← hnum, ← hs.neighborPos]
    exact hnd
  · have hused : parsed.usedBytes = b.estimatedSize cfg := congrArg usedBytes hform
    rw [hused, htotal, hb.edges, hcount]
  · rw [hts, if_pos htxn, CsrObject.parsedTsPtr, if_pos htxn]
    rfl

/-- The builders a run of calls on a new one leads to. A `page_size` beyond the size of a page
would make `build` clear what lies behind it. -/
inductive Reaches (cfg : PageConfig) : PageBuilder → Prop
  | new {pageSize slots : Nat} (hsize : pageSize ≤ cfg.pageSize) :
      Reaches cfg (.new pageSize slots)
  | addVertex {b b' : PageBuilder} {v : VId} {nbrs : List VId} {slots : Nat} (hb : Reaches cfg b)
      (hv : v < 2 ^ 32) (hnbrs : ∀ d ∈ nbrs, d < 2 ^ 32)
      (h : b.addVertex cfg v nbrs slots = .ok (some b')) : Reaches cfg b'
  | build {b b' : PageBuilder} {obj : CsrObject} {vm : List (VId × Nat)} (hb : Reaches cfg b)
      (h : b.build cfg = .ok (obj, vm, b')) : Reaches cfg b'

theorem Reaches.packs (hsize : cfg.pageSize < 2 ^ 32) (h : Reaches cfg b) :
    b.pageSize ≤ cfg.pageSize ∧ ∃ rs, b.Packs cfg rs := by
  induction h with
  | new hpage => exact ⟨hpage, [], Packs.new _ _⟩
  | addVertex hb hv hnbrs h ih =>
    obtain ⟨hpage, rs, hpacks⟩ := ih
    obtain ⟨hpacks', hsame⟩ := hpacks.addVertex hv hnbrs h
    exact ⟨hsame ▸ hpage, _, hpacks'⟩
  | build hb h ih =>
    obtain ⟨hpage, rs, hpacks⟩ := ih
    obtain ⟨-, -, -, rfl⟩ := hpacks.build_holds hpage hsize h
    exact ⟨hpage, [], Packs.cleared⟩

end PageBuilder

/-- The pages the two builds leave. The object a map is built into may have been in use before. -/
inductive BuiltObject (cfg : PageConfig) : CsrObject → Prop
  | map {start : CsrObject} {slots : VId → Nat} {items : List (VId × List VId)} {obj : CsrObject}
      {vm vm' : List (VId × Nat)} (hparent : start.links.parentPageNo < 2 ^ 32)
      (hcount : start.links.neighborPageCount ≤ cfg.maxBlockNeighbor)
      (hids : ∀ it ∈ items, it.1 < 2 ^ 32) (hnbrs : ∀ it ∈ items, ∀ d ∈ it.2, d < 2 ^ 32)
      (h : start.buildFromAdjacencyMap cfg slots items vm = (none, obj, vm')) : BuiltObject cfg obj
  | builder {b b' : PageBuilder} {obj : CsrObject} {vm : List (VId × Nat)}
      (hb : PageBuilder.Reaches cfg b) (h : b.build cfg = .ok (obj, vm, b')) : BuiltObject cfg obj

namespace BuiltObject

variable {cfg : PageConfig} {obj : CsrObject}

variable (h : BuiltObject cfg obj) (hsize : cfg.pageSize < 2 ^ 32)
include h hsize

/-- A page of no vertices, or one in step with its header. -/
theorem synced :
    (∃ start, obj = CsrObject.builtEmpty cfg start) ∨
      obj.Synced cfg ∧ obj.data.length = cfg.pageSize := by
  cases h with
  | @map start slots items _ vm vm' hparent hcount hids hnbrs h =>
    by_cases hne : items = []
    · unfold CsrObject.buildFromAdjacencyMap at h
      rw [if_pos hne] at h
      exact .inl ⟨start, (Prod.mk.inj (Prod.mk.inj h).2).1.symm⟩
    · obtain ⟨hb, -⟩ := CsrObject.build_ok hne h hsize hids hparent hcount
      exact .inr ⟨hb.synced, hb.length⟩
  | builder hb h =>
    obtain ⟨hpage, rs, hpacks⟩ := hb.packs hsize
    obtain ⟨hholds, -⟩ := hpacks.build_holds hpage hsize h
    exact .inr ⟨hholds.synced, hholds.length⟩

/-- In the raw build the page stores regions. -/
theorem holds (hraw : cfg.neighborCompress = false) :
    (∃ start, obj = CsrObject.builtEmpty cfg start) ∨ ∃ rs, obj.Holds cfg rs := by
  cases h with
  | @map start slots items _ vm vm' hparent hcount hids hnbrs h =>
    by_cases hne : items = []
    · unfold CsrObject.buildFromAdjacencyMap at h
      rw [if_pos hne] at h
      exact .inl ⟨start, (Prod.mk.inj (Prod.mk.inj h).2).1.symm⟩
    · obtain ⟨hb, -, -, -, -, hts, -⟩ := CsrObject.build_ok hne h hsize hids hparent hcount
      exact .inr ⟨_, hb.holds hraw hids hnbrs fun htxn => by rw [hts, if_pos htxn]; rfl⟩
  | builder hb h =>
    obtain ⟨hpage, rs, hpacks⟩ := hb.packs hsize
    exact .inr ⟨rs, (hpacks.build_holds hpage hsize h).1⟩

end BuiltObject

/-- A page built into an object that has no links yet, as the constructors and the builder do. -/
def FreshPage (cfg : PageConfig) (obj : CsrObject) : Prop :=
  BuiltObject cfg obj ∧ obj.links = ⟨0, 0⟩

end BwGraph
