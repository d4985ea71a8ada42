import Mathlib.Data.List.Induction
import BwGraph.Io.CsrPageBuilder

/-
  The hierarchy links of a CSR page (`set_parent_page_no`, `add_neighbor_page_no`). A build and a
  parse keep the parent at byte 8 and the number of neighbour pages at byte 12; the two setters
  address a header of 64-bit fields, with the parent at byte 16, the number at byte 40 and the block
  from byte 48 on. The header a parse reads is therefore never written (`agreeOn_applyLinks`), and a
  parent goes into the neighbour block, or into the id of the first vertex where the block has no
  room. A page comes back with its links exactly when nothing was to be stored
  (`linksReparsed_iff`).
-/

namespace BwGraph

open Bytes List

namespace CsrObject

/-- `set_parent_page_no`. -/
def setParentPageNo (obj : CsrObject) (parentPageNo : PageNo) : CsrObject :=
  { obj with
    links := { obj.links with parentPageNo := parentPageNo }
    data := poke obj.data (4 * 4) (wordWrite parentPageNo) }

/-- `read_neighbor_block`. -/
def readNeighborBlock (obj : CsrObject) : List PageNo :=
  wordReads obj.neighborPageSpan.size (obj.data.drop obj.neighborPageSpan.pos)

/-- `add_neighbor_page_no`. -/
def addNeighborPageNo (cfg : PageConfig) (obj : CsrObject) (pageNo : PageNo) : Bool × CsrObject :=
  let count := obj.links.neighborPageCount
  if count ≥ cfg.maxBlockNeighbor then (false, obj)
  else if pageNo ∈ obj.readNeighborBlock then (false, obj)
  else
    let data := poke obj.data (6 * 8 + count * 4) (wordWrite pageNo)
    (true, { obj with
      data := poke data (5 * 8) (longWrite (count + 1))
      links := { obj.links with neighborPageCount := count + 1 }
      neighborPageSpan := ⟨6 * 8, count + 1⟩ })

/-- A call of one of the setters. -/
inductive LinkCall
  | setParentPageNo (parentPageNo : PageNo)
  | addNeighborPageNo (pageNo : PageNo)
  deriving DecidableEq, Repr

/-- One call: the page, and the neighbour pages whose addition returned true. -/
def applyLink (cfg : PageConfig) (st : CsrObject × List PageNo) :
    LinkCall → CsrObject × List PageNo
  | .setParentPageNo parentPageNo => (st.1.setParentPageNo parentPageNo, st.2)
  | .addNeighborPageNo pageNo =>
    let (added, obj) := st.1.addNeighborPageNo cfg pageNo
    (obj, if added then st.2 ++ [pageNo] else st.2)

/-- A run of calls. -/
def applyLinks (cfg : PageConfig) (obj : CsrObject) (calls : List LinkCall) :
    CsrObject × List PageNo :=
  calls.foldl (applyLink cfg) (obj, [])

/-- The parent of a call. -/
def LinkCall.parent? : LinkCall → Option PageNo
  | .setParentPageNo parentPageNo => some parentPageNo
  | .addNeighborPageNo _ => none

/-- The last parent set. -/
def lastParent (calls : List LinkCall) : Option PageNo :=
  (calls.filterMap LinkCall.parent?).getLast?

/-- Parsing the bytes after the calls gives the last parent set, the neighbour pages added in order,
and the vertices, degrees and neighbours of before. -/
def LinksReparsed (cfg : PageConfig) (obj : CsrObject) (calls : List LinkCall) : Prop :=
  ∃ parsed, (ofData (obj.applyLinks cfg calls).1.data).parseFromPageData cfg = (none, parsed) ∧
    parsed.links.parentPageNo = (lastParent calls).getD obj.links.parentPageNo ∧
    parsed.readNeighborBlock = (obj.applyLinks cfg calls).2 ∧
    parsed.numVertices = obj.numVertices ∧
    ∀ i < obj.numVertices, (parsed.vertexAt i).vertexId = (obj.vertexAt i).vertexId ∧
      parsed.getVertexDegree i = obj.getVertexDegree i ∧
      parsed.readNeighbors cfg i = obj.readNeighbors cfg i

/-! ## The bytes -/

variable {cfg : PageConfig} {obj obj' : CsrObject} {added added' : List PageNo}
  {calls : List LinkCall} {i : Nat}

variable (st : CsrObject × List PageNo)

theorem agreeOn_applyLink (call : LinkCall) :
    AgreeOn 0 16 (applyLink cfg st call).1.data st.1.data := by
  cases call with
  | setParentPageNo p => exact agreeOn_poke _ (.inl (by decide))
  | addNeighborPageNo p =>
    simp only [applyLink, addNeighborPageNo]
    split_ifs
    · exact .refl _ _ _
    · exact .refl _ _ _
    · exact (agreeOn_poke _ (.inl (by decide))).trans (agreeOn_poke _ (.inl (by omega)))

/-- No call writes the header a parse reads. -/
theorem agreeOn_applyLinks (calls : List LinkCall) :
    AgreeOn 0 16 (calls.foldl (applyLink cfg) st).1.data st.1.data := by
  induction calls generalizing st with
  | nil => exact .refl _ _ _
  | cons call calls ih => exact (ih _).trans (agreeOn_applyLink st call)

/-- The pages added stay added. -/
theorem prefix_applyLinks (st : CsrObject × List PageNo) (calls : List LinkCall) :
    st.2 <+: (calls.foldl (applyLink cfg) st).2 := by
  induction calls generalizing st with
  | nil => exact prefix_rfl
  | cons call calls ih =>
    refine List.IsPrefix.trans ?_ (ih _)
    cases call with
    | setParentPageNo p => exact prefix_rfl
    | addNeighborPageNo p =>
      simp only [applyLink]
      split_ifs
      · exact prefix_append _ _
      · exact prefix_rfl

/-- On a page without neighbour pages the first one is always added, where the block has room. -/
theorem no_add_of_added_nil (hroom : 0 < cfg.maxBlockNeighbor)
    (hcount : obj.links.neighborPageCount = 0) (hspan : obj.neighborPageSpan.size = 0)
    (h : (calls.foldl (applyLink cfg) (obj, [])).2 = []) (p : PageNo) :
    LinkCall.addNeighborPageNo p ∉ calls := by
  induction calls generalizing obj with
  | nil => exact not_mem_nil
  | cons call calls ih =>
    cases call with
    | setParentPageNo q =>
      have htail := @ih (obj.setParentPageNo q) hcount hspan h
      simpa using htail
    | addNeighborPageNo q =>
      have hstep : (applyLink cfg (obj, []) (.addNeighborPageNo q)).2 = [q] := by
        have hempty : obj.readNeighborBlock = [] := by
          rw [readNeighborBlock, hspan]
          rfl
        have hlt : ¬ obj.links.neighborPageCount ≥ cfg.maxBlockNeighbor := by omega
        simp [applyLink, addNeighborPageNo, hempty, hlt]
      have hpre := @prefix_applyLinks cfg (applyLink cfg (obj, []) (.addNeighborPageNo q)) calls
      rw [foldl_cons] at h
      rw [hstep, h] at hpre
      exact absurd (prefix_nil.1 hpre) (cons_ne_nil _ _)

/-- Where no addition takes effect only the parents are written, each over the one before. -/
theorem data_applyLinks (obj : CsrObject)
    (hno : ∀ p, LinkCall.addNeighborPageNo p ∈ calls → cfg.maxBlockNeighbor = 0) :
    (obj.applyLinks cfg calls).2 = [] ∧ (obj.applyLinks cfg calls).1.data =
      (lastParent calls).elim obj.data fun p => poke obj.data 16 (wordWrite p) := by
  induction calls using reverseRecOn with
  | nil => exact ⟨rfl, rfl⟩
  | append_singleton calls call ih =>
    obtain ⟨hadded, hdata⟩ := ih fun p hp => hno p (mem_append_left _ hp)
    unfold applyLinks at hadded hdata ⊢
    rw [foldl_append, foldl_cons, foldl_nil]
    cases call with
    | setParentPageNo p =>
      refine ⟨hadded, ?_⟩
      have hlast : lastParent (calls ++ [.setParentPageNo p]) = some p := by
        simp [lastParent, LinkCall.parent?]
      simp only [applyLink, setParentPageNo]
      rw [hlast, hdata]
      cases lastParent calls with
      | none => rfl
      | some q =>
        have hlen : (wordWrite q).length = (wordWrite p).length := rfl
        exact poke_over hlen obj.data 16
    | addNeighborPageNo p =>
      have hlast : lastParent (calls ++ [.addNeighborPageNo p]) = lastParent calls := by
        simp [lastParent, LinkCall.parent?]
      have hzero := hno p (mem_append_right _ (mem_singleton_self _))
      simp [applyLink, addNeighborPageNo, hzero, hadded, hdata, hlast]

/-! ## The page a parse finds -/

/-- The object a parse finds after the calls: that of before, with the links of the build. -/
theorem parse_applyLinks (h : obj.Synced cfg) (calls : List LinkCall) :
    (ofData (obj.applyLinks cfg calls).1.data).parseFromPageData cfg =
      (none, { obj with
        data := (obj.applyLinks cfg calls).1.data
        isDirty := false
        edgeTsPtr := obj.parsedTsPtr cfg }) :=
  (h.of_agree (agreeOn_applyLinks (obj, []) calls)).reparse

/-- The empty page stays empty. -/
theorem parse_applyLinks_empty {start : CsrObject} (hobj : obj = start.builtEmpty cfg)
    (calls : List LinkCall) :
    (ofData (obj.applyLinks cfg calls).1.data).parseFromPageData cfg =
      (none, { (ofData (obj.applyLinks cfg calls).1.data).cleared with isParse := true }) := by
  have hrun : AgreeOn 0 16 (obj.applyLinks cfg calls).1.data obj.data :=
    agreeOn_applyLinks (obj, []) calls
  rw [hobj] at hrun ⊢
  exact parse_builtEmpty hrun

/-- What a parent at byte 16 does to the vertices and neighbours of the page. -/
theorem reads_poke_parent (h : obj.Synced cfg) {p : PageNo}
    (hobj : obj'.data = poke obj.data 16 (wordWrite p)) (hn : obj'.numVertices = obj.numVertices)
    (hspan : obj'.vertexSpan = obj.vertexSpan) (hptr : obj'.neighborPtr = obj.neighborPtr)
    (i : Nat) : (cfg.maxBlockNeighbor ≠ 0 ∨ i ≠ 0 →
        (obj'.vertexAt i).vertexId = (obj.vertexAt i).vertexId) ∧
      obj'.getVertexDegree i = obj.getVertexDegree i ∧
      obj'.readNeighbors cfg i = obj.readNeighbors cfg i := by
  have hpos : obj.vertexSpan.pos = 16 + cfg.maxBlockNeighbor * 4 := by
    rw [h.vertexSpan]
    rfl
  have hdrop : ∀ k, 20 ≤ k → obj'.data.drop k = obj.data.drop k := by
    intro k hk
    rw [hobj]
    exact drop_poke_of_le hk
  have hfield : ∀ k, 4 ≤ k → (obj'.data.drop (obj'.vertexSpan.pos + i * csrVertexBytes)).drop k =
      (obj.data.drop (obj.vertexSpan.pos + i * csrVertexBytes)).drop k := by
    intro k hk
    rw [hspan, drop_drop, drop_drop]
    exact hdrop _ (by omega)
  have hdeg : (obj'.vertexAt i).degree = (obj.vertexAt i).degree :=
    congrArg wordRead (hfield 4 (by omega))
  have hoff : (obj'.vertexAt i).offset = (obj.vertexAt i).offset :=
    congrArg halfRead (hfield 8 (by omega))
  have hnpos : obj'.neighborPos = obj.neighborPos := by
    unfold neighborPos
    rw [hptr]
  refine ⟨fun hne => ?_, ?_, readNeighbors_congr hn hdeg hoff hnpos ?_⟩
  · refine congrArg wordRead ?_
    rw [hspan]
    refine hdrop _ ?_
    unfold csrVertexBytes
    omega
  · unfold getVertexDegree
    rw [hn, hdeg]
  · refine hdrop _ ?_
    have hsome := h.pos
    rw [h.neighborPos, fixedSize, Config.headerBytes, csrVertexBytes]
    omega

/-- Without a neighbour block the parent is the id of the first vertex. -/
theorem vertexId_poke_parent (h : obj.Synced cfg) (hlen : obj.data.length = cfg.pageSize)
    (hzero : cfg.maxBlockNeighbor = 0) {p : PageNo} (hp : p < 2 ^ 32)
    (hobj : obj'.data = poke obj.data 16 (wordWrite p)) (hspan : obj'.vertexSpan = obj.vertexSpan) :
    (obj'.vertexAt 0).vertexId = p := by
  have hpos : obj'.vertexSpan.pos + 0 * csrVertexBytes = 16 := by
    rw [hspan, h.vertexSpan, Config.headerBytes, hzero, Nat.zero_mul, Nat.zero_mul]
  have hfits : 16 + (wordWrite p).length ≤ obj.data.length := by
    have hsome := h.pos
    have hleast := h.least
    have hmost := h.most
    rw [fixedSize, Config.headerBytes, csrVertexBytes] at hleast
    rw [hlen, length_wordWrite]
    omega
  show wordRead (obj'.data.drop (obj'.vertexSpan.pos + 0 * csrVertexBytes)) = p
  rw [hpos, hobj, drop_poke hfits]
  exact wordRead_wordWrite hp _

/-- A page comes back with the last parent set and the neighbour pages added exactly when no
neighbour page could be added and the parent is the 0 a build writes; without a neighbour block the
0 also lands on the id of the first vertex, which must be 0. -/
theorem linksReparsed_iff (h : FreshPage cfg obj) (hsize : cfg.pageSize < 2 ^ 32)
    (calls : List LinkCall) : obj.LinksReparsed cfg calls ↔
      (∀ p, .addNeighborPageNo p ∈ calls → cfg.maxBlockNeighbor = 0) ∧
      ∀ p, lastParent calls = some p → p = 0 ∧
        (cfg.maxBlockNeighbor = 0 → obj.numVertices = 0 ∨ (obj.vertexAt 0).vertexId = 0) := by
  obtain ⟨hbuilt, hlinks⟩ := h
  have hcase := hbuilt.synced hsize
  have hblock : obj.neighborPageSpan.size = 0 := by
    rcases hcase with ⟨start, rfl⟩ | ⟨hs, -⟩
    · rfl
    · rw [hs.neighborPageSpan, hlinks]
  -- the page a parse finds, whatever the calls were
  obtain ⟨parsed, hparse, hplinks, hpsize, hpn, hpdata⟩ : ∃ parsed,
      (ofData (obj.applyLinks cfg calls).1.data).parseFromPageData cfg = (none, parsed) ∧
        parsed.links = ⟨0, 0⟩ ∧ parsed.neighborPageSpan.size = 0 ∧
        parsed.numVertices = obj.numVertices ∧ (obj.Synced cfg →
          parsed.data = (obj.applyLinks cfg calls).1.data ∧
          parsed.vertexSpan = obj.vertexSpan ∧ parsed.neighborPtr = obj.neighborPtr) := by
    rcases hcase with ⟨start, hempty⟩ | ⟨hs, -⟩
    · refine ⟨_, parse_applyLinks_empty hempty calls, rfl, rfl, ?_, fun hs => ?_⟩
      · rw [hempty]
        rfl
      · have hpos := hs.pos
        rw [hempty] at hpos
        exact absurd hpos (Nat.lt_irrefl 0)
    · exact ⟨_, parse_applyLinks hs calls, hlinks, hblock, rfl, fun _ => ⟨rfl, rfl, rfl⟩⟩
  have hpblock : parsed.readNeighborBlock = [] := by
    rw [readNeighborBlock, hpsize]
    rfl
  constructor
  · rintro ⟨parsed', hparse', hparent, hadded, hn, hverts⟩
    obtain rfl : parsed = parsed' := (Prod.mk.inj (hparse.symm.trans hparse')).2
    rw [hplinks, hlinks] at hparent
    rw [hpblock] at hadded
    have hno : ∀ p, LinkCall.addNeighborPageNo p ∈ calls → cfg.maxBlockNeighbor = 0 := by
      intro p hp
      by_contra hroom
      refine no_add_of_added_nil (Nat.pos_of_ne_zero hroom) ?_ hblock hadded.symm p hp
      rw [hlinks]
    refine ⟨hno, fun p hp => ?_⟩
    rw [hp] at hparent
    have hp0 : p = 0 := hparent.symm
    refine ⟨hp0, fun hzero => ?_⟩
    rcases hcase with ⟨start, hempty⟩ | ⟨hs, hlen⟩
    · refine .inl ?_
      rw [hempty]
      rfl
    · right
      have hdata := (data_applyLinks obj hno).2
      rw [hp, hp0, Option.elim_some] at hdata
      obtain ⟨hpd, hspan, -⟩ := hpdata hs
      rw [← (hverts 0 hs.pos).1]
      exact vertexId_poke_parent hs hlen hzero (Nat.two_pow_pos 32) (hpd.trans hdata) hspan
  · rintro ⟨hno, hlast⟩
    obtain ⟨hadded, hdata⟩ := data_applyLinks obj hno
    refine ⟨parsed, hparse, ?_, ?_, hpn, fun i hi => ?_⟩
    · rw [hplinks, hlinks]
      cases hl : lastParent calls with
      | none => rfl
      | some p => exact ((hlast p hl).1).symm
    · rw [hpblock, hadded]
    · rcases hcase with ⟨start, hempty⟩ | ⟨hs, hlen⟩
      · rw [hempty] at hi
        exact absurd hi (Nat.not_lt_zero i)
      obtain ⟨hpd, hspan, hptr⟩ := hpdata hs
      rw [hdata] at hpd
      cases hl : lastParent calls with
      | none =>
        rw [hl, Option.elim_none] at hpd
        have hsame : parsed.vertexAt i = obj.vertexAt i := by
          unfold vertexAt
          rw [hpd, hspan]
        refine ⟨by rw [hsame], ?_, readNeighbors_congr hpn ?_ ?_ ?_ ?_⟩
        · unfold getVertexDegree
          rw [hpn, hsame]
        · rw [hsame]
        · rw [hsame]
        · unfold neighborPos
          rw [hptr]
        · rw [hpd]
      | some p =>
        rw [hl, Option.elim_some] at hpd
        obtain ⟨hp0, hfirst⟩ := hlast p hl
        obtain ⟨hid, hdeg, hnbrs⟩ := reads_poke_parent hs hpd hpn hspan hptr i
        refine ⟨?_, hdeg, hnbrs⟩
        by_cases hne : cfg.maxBlockNeighbor ≠ 0 ∨ i ≠ 0
        · exact hid hne
        · obtain ⟨hzero, rfl⟩ : cfg.maxBlockNeighbor = 0 ∧ i = 0 := by omega
          rw [vertexId_poke_parent hs hlen hzero (hp0 ▸ Nat.two_pow_pos 32) hpd hspan, hp0,
            (hfirst hzero).resolve_left (by omega)]

/-- A page of one vertex, with room for two neighbour pages: a parent of 0 comes back, a neighbour
page does not. -/
theorem linksReparsed_small : ∃ obj, FreshPage ⟨⟨128, 64, 2, 4, 1, 0, false⟩, false⟩ obj ∧
    obj.LinksReparsed ⟨⟨128, 64, 2, 4, 1, 0, false⟩, false⟩ [.setParentPageNo 0] ∧
    ¬ obj.LinksReparsed ⟨⟨128, 64, 2, 4, 1, 0, false⟩, false⟩ [.addNeighborPageNo 3] := by
  have hfresh : FreshPage ⟨⟨128, 64, 2, 4, 1, 0, false⟩, false⟩ _ :=
    ⟨@BuiltObject.map ⟨⟨128, 64, 2, 4, 1, 0, false⟩, false⟩ (new ⟨⟨128, 64, 2, 4, 1, 0, false⟩, false⟩)
      (fun _ => 0) [(1, [2])] _ [] _ (by decide) (by decide) (by decide) (by decide) rfl, rfl⟩
  refine ⟨_, hfresh, ?_, ?_⟩
  · exact (linksReparsed_iff hfresh (by decide) [.setParentPageNo 0]).2
      ⟨by simp, fun p hp => ⟨by simpa [lastParent, LinkCall.parent?] using hp.symm, nofun⟩⟩
  · intro hall
    have hno := ((linksReparsed_iff hfresh (by decide) [.addNeighborPageNo 3]).1 hall).1 3
      (List.mem_singleton_self _)
    exact absurd hno (by decide)

/-- The parent 7 of that page is lost. -/
theorem linksReparsed_lost : ¬ ∀ (cfg : PageConfig) (obj : CsrObject) (calls : List LinkCall),
    FreshPage cfg obj → cfg.pageSize < 2 ^ 32 → obj.LinksReparsed cfg calls := by
  intro hall
  obtain ⟨parsed, hparse, hparent, -⟩ := hall ⟨⟨128, 64, 2, 4, 1, 0, false⟩, false⟩ _
    [.setParentPageNo 7] ⟨@BuiltObject.map ⟨⟨128, 64, 2, 4, 1, 0, false⟩, false⟩
      (new ⟨⟨128, 64, 2, 4, 1, 0, false⟩, false⟩) (fun _ => 0) [(1, [2])] _ [] _ (by decide)
      (by decide) (by decide) (by decide) rfl, rfl⟩ (by decide)
  have hlinks := congrArg (fun r => r.2.links.parentPageNo) hparse
  rw [← hlinks] at hparent
  revert hparent
  decide +kernel

end CsrObject

end BwGraph
