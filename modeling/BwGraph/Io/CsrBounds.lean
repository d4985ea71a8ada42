import BwGraph.Io.CsrInsert

/-
  What a reader looks at. `parse_from_page_data` checks the header: the neighbour block and the
  vertex array lie within the used bytes, and these within the page. An entry is taken as it is, so
  the neighbours of a page no build has written may lie anywhere (`parse_reads_behind`);
  `is_valid_csr_data`, which looks at the entries, is never called, and accepts neither slots nor
  giant vertices. On what the builds write and the slot inserts change, the neighbours lie within the
  used bytes (`neighborRange_bounds`).
-/

namespace BwGraph

open Bytes Region

namespace CsrObject

/-- The bytes a reader of the neighbours of a vertex looks at: the first one, and the one behind the
last. -/
def neighborRange (cfg : PageConfig) (obj : CsrObject) (i : Nat) : Nat × Nat :=
  if cfg.neighborCompress then
    let range := obj.getNeighborPtvRange cfg i
    (range.data, (range.collect obj.data).2.ptr)
  else
    let first := obj.neighborPos + (obj.vertexAt i).offset / 4 * 4
    (first, first + (obj.getNeighbors cfg i).length * 4)

variable {cfg : PageConfig} {obj obj' : CsrObject} {rs : List Region} {r : Region} {i : Nat}

theorem neighborRange_raw (hraw : cfg.neighborCompress = false) (hi : i < obj.numVertices)
    (hdeg : (obj.vertexAt i).degree < cfg.giantDegreeBound) :
    obj.neighborRange cfg i = (obj.neighborPos + (obj.vertexAt i).offset / 4 * 4,
      obj.neighborPos + (obj.vertexAt i).offset / 4 * 4 + (obj.vertexAt i).degree * 4) := by
  have hlen : (obj.getNeighbors cfg i).length = (obj.vertexAt i).degree := by
    unfold getNeighbors
    dsimp only
    rw [if_neg (Nat.not_le.2 hi), if_neg (Nat.not_le.2 hdeg), length_wordReads]
  unfold neighborRange
  rw [if_neg (by rw [hraw]; decide), hlen]

theorem neighborRange_compressed (hcomp : cfg.neighborCompress = true) (hi : i < obj.numVertices)
    (hdeg : (obj.vertexAt i).degree < cfg.giantDegreeBound) :
    obj.neighborRange cfg i = (obj.neighborPos + (obj.vertexAt i).offset,
      ((PtvNeighborIter.mk (obj.neighborPos + (obj.vertexAt i).offset)
        (UInt32.ofNat (obj.vertexAt i).degree)).collect obj.data).2.ptr) := by
  have hrange : obj.getNeighborPtvRange cfg i = ⟨obj.neighborPos + (obj.vertexAt i).offset,
      UInt32.ofNat (obj.vertexAt i).degree⟩ := by
    unfold getNeighborPtvRange
    dsimp only
    rw [if_neg (Nat.not_le.2 hi), if_neg (Nat.not_le.2 hdeg)]
  unfold neighborRange
  rw [if_pos hcomp, hrange]
  rfl

/-- The bytes begin behind the vertices and end at most four bytes a neighbour further on. -/
theorem neighborRange_le (hi : i < obj.numVertices)
    (hdeg : (obj.vertexAt i).degree < cfg.giantDegreeBound) :
    obj.neighborPos ≤ (obj.neighborRange cfg i).1 ∧
      (obj.neighborRange cfg i).1 ≤ (obj.neighborRange cfg i).2 ∧
      (obj.neighborRange cfg i).2 ≤
        obj.neighborPos + (obj.vertexAt i).offset + (obj.vertexAt i).degree * 4 := by
  cases hcomp : cfg.neighborCompress with
  | false =>
    rw [neighborRange_raw hcomp hi hdeg]
    dsimp only
    omega
  | true =>
    have hcount : (UInt32.ofNat (obj.vertexAt i).degree).toNat ≤ (obj.vertexAt i).degree := by
      rw [UInt32.toNat_ofNat']
      exact Nat.mod_le _ _
    obtain ⟨hlo, hhi⟩ := collect_ptr_le obj.data ⟨obj.neighborPos + (obj.vertexAt i).offset,
      UInt32.ofNat (obj.vertexAt i).degree⟩
    rw [neighborRange_compressed hcomp hi hdeg]
    dsimp only at hlo hhi ⊢
    omega

/-- The neighbours of a page that stores regions lie within the used bytes. -/
theorem Holds.neighborRange_le (h : obj.Holds cfg rs) (hi : i < obj.numVertices)
    (hdeg : (obj.vertexAt i).degree < cfg.giantDegreeBound) :
    (obj.neighborRange cfg i).2 ≤ obj.usedBytes := by
  obtain ⟨r, hr⟩ : ∃ r, rs[i]? = some r := ⟨_, List.getElem?_eq_getElem (h.vertices ▸ hi)⟩
  have hentry := h.vertexAt i r hr
  have hv := h.validAt hr
  have hle := (CsrObject.neighborRange_le hi hdeg).2.2
  rw [hentry, h.neighborPos] at hle
  rw [hentry] at hdeg
  have hext : r.isExternal = false := by
    cases hx : r.isExternal with
    | false => rfl
    | true => exact absurd (hv.giant hx).2 (Nat.not_le.2 hdeg)
  have hoff : (r.entry (start rs i)).offset = start rs i * 4 := by
    rw [entry, hext]
    rfl
  have hdegree : (r.entry (start rs i)).degree = r.degree := rfl
  have hin := hv.inside hext
  have hend := start_add_le hr
  have hused := h.usedBytes
  omega

/-- The neighbours of a page built from an adjacency map in the compressed build lie within the used
bytes. -/
theorem Built.neighborRange_le {slots : VId → Nat} {items : List (VId × List VId)}
    (h : obj.Built cfg slots items) (hcomp : cfg.neighborCompress = true) (hi : i < obj.numVertices)
    (hdeg : (obj.vertexAt i).degree < cfg.giantDegreeBound) :
    (obj.neighborRange cfg i).2 ≤ obj.usedBytes := by
  obtain ⟨it, hit⟩ : ∃ it, items[i]? = some it :=
    ⟨_, List.getElem?_eq_getElem (h.vertices ▸ hi)⟩
  have hentry := h.vertexAt i it.1 it.2 hit
  have hng : ¬ it.2.length ≥ cfg.giantDegreeBound := by
    rw [hentry] at hdeg
    exact Nat.not_le.2 hdeg
  rw [if_neg hng] at hentry
  generalize hoff : ((items.take i).flatMap (block cfg.toConfig slots)).length = off at hentry
  have hblock : block cfg.toConfig slots it = (it.2.map ptvWrite).flatten ++
      (List.replicate (slots it.1) (ptvWriteSlot 0)).flatten := by
    rw [block, if_neg hng, neighborBytes, if_pos hcomp, List.flatMap_def]
  obtain ⟨rest, hrest⟩ := h.drop_block hit
  rw [hoff, hblock, List.append_assoc] at hrest
  have hcount : (UInt32.ofNat it.2.length).toNat = (it.2.map ptvWrite).length := by
    rw [UInt32.toNat_ofNat', Nat.mod_eq_of_lt (h.degree it (List.mem_of_getElem? hit)),
      List.length_map]
  have hsz : ∀ c ∈ it.2.map ptvWrite, ∀ rest, (ptvRead (c ++ rest)).2 = c.length := by
    intro c hc rest
    obtain ⟨d, -, rfl⟩ := List.mem_map.1 hc
    exact ptvRead_ptvWrite_snd d rest
  have hptr := @collect_ptr_chunks (it.2.map ptvWrite) hsz obj.data
    ⟨obj.neighborPos + off, UInt32.ofNat it.2.length⟩ hcount _ hrest
  rw [neighborRange_compressed hcomp hi hdeg, hentry]
  dsimp only at hptr ⊢
  rw [hptr, h.usedBytes, h.synced.neighborPos, h.vertices]
  have htotal := length_take_add_le (block cfg.toConfig slots) hit
  rw [hblock, List.length_append, hoff] at htotal
  omega

/-- A slot insert changes nothing in the compressed build. -/
theorem insertEdgeInSlot_compressed (hcomp : cfg.neighborCompress = true) (obj : CsrObject)
    (i : Nat) (src dest : VId) : (obj.insertEdgeInSlot cfg i src dest).2 = obj := by
  unfold insertEdgeInSlot
  by_cases hi : i ≥ obj.numVertices
  · rw [if_pos hi]
  · rw [if_neg hi, if_pos hcomp]

/-- After any run of slot inserts on a page either build left it is the empty one, or in step with
its header with the neighbours of every vertex below the giant bound within the used bytes. -/
theorem neighborRange_le_of_run {calls : List InsertCall} (h : BuiltObject cfg obj)
    (hsize : cfg.pageSize < 2 ^ 32) (run : Steps (SlotInsert cfg) obj calls obj') :
    (∃ start, obj' = CsrObject.builtEmpty cfg start) ∨ obj'.Synced cfg ∧
      ∀ i < obj'.numVertices, (obj'.vertexAt i).degree < cfg.giantDegreeBound →
        (obj'.neighborRange cfg i).2 ≤ obj'.usedBytes := by
  cases hcomp : cfg.neighborCompress with
  | false =>
    rcases holds_of_run h hsize hcomp run with hempty | ⟨rs, hrs⟩
    · exact .inl hempty
    · exact .inr ⟨hrs.synced, fun i hi => hrs.neighborRange_le hi⟩
  | true =>
    -- in the compressed build every slot insert leaves the page as it was
    have hsame : obj' = obj := run.inv (fun _ o => o = obj) rfl fun es o call o' ho hstep => by
      rw [hstep.2, insertEdgeInSlot_compressed hcomp, ho]
    rw [hsame]
    cases h with
    | @map start slots items _ vm vm' hparent hcount hids hnbrs hbuild =>
      by_cases hne : items = []
      · unfold buildFromAdjacencyMap at hbuild
        rw [if_pos hne] at hbuild
        exact .inl ⟨start, (Prod.mk.inj (Prod.mk.inj hbuild).2).1.symm⟩
      · obtain ⟨hb, -⟩ := build_ok hne hbuild hsize hids hparent hcount
        exact .inr ⟨hb.synced, fun i hi => hb.neighborRange_le hcomp hi⟩
    | builder hb hbuild =>
      obtain ⟨hpage, rs, hpacks⟩ := hb.packs hsize
      obtain ⟨hholds, -⟩ := hpacks.build_holds hpage hsize hbuild
      exact .inr ⟨hholds.synced, fun i hi => hholds.neighborRange_le hi⟩

/-- On every page image a parse accepts the entries lie within the used bytes, these within the page,
and the neighbours of a vertex below the giant bound begin behind the vertices; they end within the
used bytes if the offset and the degree of the entry fit there, in the raw build only then. On every
image that the builds and the slot inserts leave they do. -/
theorem neighborRange_bounds (cfg : PageConfig) (hsize : cfg.pageSize < 2 ^ 32) :
    (∀ data obj, (ofData data).parseFromPageData cfg = (none, obj) → ∀ i < obj.numVertices,
      cfg.headerBytes + (i + 1) * csrVertexBytes ≤ obj.usedBytes ∧ obj.usedBytes ≤ cfg.pageSize ∧
      ((obj.vertexAt i).degree < cfg.giantDegreeBound →
        fixedSize cfg.toConfig obj.numVertices ≤ (obj.neighborRange cfg i).1 ∧
        (fixedSize cfg.toConfig obj.numVertices + (obj.vertexAt i).offset +
          (obj.vertexAt i).degree * 4 ≤ obj.usedBytes →
          (obj.neighborRange cfg i).2 ≤ obj.usedBytes) ∧
        (cfg.neighborCompress = false → ((obj.neighborRange cfg i).2 ≤ obj.usedBytes ↔
          fixedSize cfg.toConfig obj.numVertices + (obj.vertexAt i).offset / 4 * 4 +
            (obj.vertexAt i).degree * 4 ≤ obj.usedBytes)))) ∧
    ∀ obj calls obj' parsed, BuiltObject cfg obj → Steps (SlotInsert cfg) obj calls obj' →
      (ofData obj'.data).parseFromPageData cfg = (none, parsed) → ∀ i < parsed.numVertices,
      (parsed.vertexAt i).degree < cfg.giantDegreeBound →
      (parsed.neighborRange cfg i).2 ≤ parsed.usedBytes := by
  constructor
  · intro data obj hparse i hi
    obtain ⟨hs, -⟩ := synced_of_parse hparse (Nat.zero_lt_of_lt hi)
    have hleast := hs.least
    have hmost := hs.most
    refine ⟨?_, hmost, fun hdeg => ?_⟩
    · unfold fixedSize csrVertexBytes at hleast
      unfold csrVertexBytes
      omega
    · obtain ⟨hlo, hmid, hhi⟩ := neighborRange_le hi hdeg
      rw [hs.neighborPos] at hlo hhi
      refine ⟨hlo, fun hfit => Nat.le_trans hhi hfit, fun hraw => ?_⟩
      rw [neighborRange_raw hraw hi hdeg, hs.neighborPos]
  · intro obj calls obj' parsed hbuilt run hparse i hi hdeg
    rcases neighborRange_le_of_run hbuilt hsize run with ⟨start, rfl⟩ | ⟨hs, hle⟩
    · rw [parse_builtEmpty (.refl 0 16 _)] at hparse
      rw [← (Prod.mk.inj hparse).2] at hi
      exact absurd hi (Nat.not_lt_zero i)
    · rw [hs.reparse] at hparse
      obtain rfl := (Prod.mk.inj hparse).2
      exact hle i hi hdeg

/-- An accepted image of one vertex whose used bytes end with the vertex array, and whose entry has
the degree 1: the reader looks at the four bytes behind them. -/
theorem parse_reads_behind : ¬ ∀ (cfg : PageConfig) (data : List Nat) (obj : CsrObject) (i : Nat),
    data.length = cfg.pageSize → (∀ b ∈ data, b < 256) →
    (ofData data).parseFromPageData cfg = (none, obj) → i < obj.numVertices →
    (obj.vertexAt i).degree < cfg.giantDegreeBound →
    (obj.neighborRange cfg i).2 ≤ obj.usedBytes := by
  intro hall
  have hle := hall ⟨⟨48, 64, 1, 4, 1, 0, false⟩, false⟩ (headerWrite 1 0 32 ⟨0, 0⟩ ++ wordWrite 0 ++
    vertexWrite ⟨7, 1, 0, 0⟩ ++ List.replicate 16 0) _ 0 (by decide) (by decide) rfl (by decide)
    (by decide +kernel)
  revert hle
  decide +kernel

/-- The image of that vertex with its neighbour within the used bytes. -/
theorem neighborRange_bounds_one : ∃ obj : CsrObject,
    (ofData (headerWrite 1 1 36 ⟨0, 0⟩ ++ wordWrite 0 ++ vertexWrite ⟨7, 1, 0, 0⟩ ++ wordWrite 8 ++
      List.replicate 12 0)).parseFromPageData ⟨⟨48, 64, 1, 4, 1, 0, false⟩, false⟩ = (none, obj) ∧
    (obj.neighborRange ⟨⟨48, 64, 1, 4, 1, 0, false⟩, false⟩ 0).2 ≤ obj.usedBytes :=
  ⟨_, rfl, (((neighborRange_bounds ⟨⟨48, 64, 1, 4, 1, 0, false⟩, false⟩ (by decide)).1
    (headerWrite 1 1 36 ⟨0, 0⟩ ++ wordWrite 0 ++ vertexWrite ⟨7, 1, 0, 0⟩ ++ wordWrite 8 ++
      List.replicate 12 0) _ rfl 0 (by decide +kernel)).2.2 (by decide +kernel)).2.1
    (by decide +kernel)⟩

end CsrObject

end BwGraph
