import BwGraph.Db.IndexFile

/-
  An index page and its byte image (`io_index.cc`). The loader makes a fresh page, copies the image
  into it and calls `self_parse`. Both constructors build a page and mark it as parsed, so the call
  returns at once and the fresh page keeps the members of an empty one, whatever the image holds.

  What is lost are the blocks, the parent number and the neighbour pages that the live page has got
  by its map and by the setters; the page comes back only when it has got none (`reparses_iff`).
-/

namespace BwGraph

open IndexPage

namespace IndexPage

variable {cfg : IndexConfig}

/-- A call of one of the setters. -/
inductive ImageCall where
  | insertBlock (blockNo : PageNo)
  | setParentPageNo (parent : Nat)
  | addNeighborPageNo (pageNo : PageNo)
  deriving DecidableEq, Repr

/-- The page after a call. -/
def imageCall (cfg : IndexConfig) (p : IndexPage) : ImageCall → IndexPage
  | .insertBlock b => (p.insertBlock cfg b).2
  | .setParentPageNo n => p.setParentPageNo n
  | .addNeighborPageNo n => (p.addNeighborPageNo cfg n).2

/-- The page after some calls. -/
def imageCalls (cfg : IndexConfig) (p : IndexPage) (calls : List ImageCall) : IndexPage :=
  calls.foldl (imageCall cfg) p

/-- The parent number that the calls leave over one. -/
def parentAfter (parent : Nat) (calls : List ImageCall) : Nat :=
  calls.foldl (fun parent call => match call with
    | .setParentPageNo n => n
    | _ => parent) parent

/-- A fresh page that gets the image and parses it has the members of the live one. -/
def Reparses (cfg : IndexConfig) (ho : HashOrder) (fresh : Nat) (p : IndexPage) : Prop :=
  ∃ q, loadedPage cfg ho fresh p.pageNo p.data = .ok q ∧ q.numBlocks = p.numBlocks ∧
    p.SameMembers cfg q

/-! ## What a call does to the members -/

variable {p : IndexPage}

theorem Formed.imageCall (h : p.Formed cfg) (call : ImageCall) :
    (p.imageCall cfg call).Formed cfg := by
  cases call with
  | insertBlock b => exact h.insertBlock b
  | setParentPageNo n => exact h.setParentPageNo n
  | addNeighborPageNo n => exact h.addNeighborPageNo n

theorem frame_insertBlock (h : p.Formed cfg) (b : PageNo) :
    (p.insertBlock cfg b).2.parentPageNo = p.parentPageNo ∧
      (p.insertBlock cfg b).2.neighborPageCount = p.neighborPageCount := by
  unfold insertBlock
  rw [h.selfParse]
  dsimp only
  split
  · exact ⟨rfl, rfl⟩
  · split
    · exact ⟨rfl, rfl⟩
    · exact ⟨rfl, rfl⟩

theorem frame_addNeighborPageNo (p : IndexPage) (n : PageNo) :
    (p.addNeighborPageNo cfg n).2.parentPageNo = p.parentPageNo ∧
      (p.addNeighborPageNo cfg n).2.numBlocks = p.numBlocks := by
  unfold addNeighborPageNo
  split
  · exact ⟨rfl, rfl⟩
  · split
    · exact ⟨rfl, rfl⟩
    · exact ⟨rfl, rfl⟩

section

variable (h : p.Formed cfg) (call : ImageCall)
include h

/-- A block gets in unless the page is full or has it; an empty page is full without capacity. -/
theorem numBlocks_imageCall :
    (p.imageCall cfg call).numBlocks = 0 ↔
      p.numBlocks = 0 ∧ (cfg.maxBlocks = 0 ∨ ∀ b, call ≠ .insertBlock b) := by
  cases call with
  | insertBlock b =>
    unfold imageCall insertBlock
    rw [h.selfParse]
    dsimp only
    by_cases hfull : p.numBlocks ≥ cfg.maxBlocks
    · rw [if_pos hfull]
      constructor
      · intro h0
        have hnone : p.numBlocks = 0 := h0
        exact ⟨hnone, .inl (by omega)⟩
      · exact fun h0 => h0.1
    · rw [if_neg hfull]
      constructor
      · intro h0
        split at h0
        · rename_i hin
          have hblocks : p.getBlocks cfg = [] := by
            rw [← List.length_eq_zero_iff, getBlocks, length_wordReads]
            exact h0
          rw [hblocks] at hin
          cases hin
        · cases h0
      · rintro ⟨-, hcap | hcall⟩
        · omega
        · exact absurd rfl (hcall b)
  | setParentPageNo n => simp [imageCall, setParentPageNo]
  | addNeighborPageNo n =>
    have hsame : (p.imageCall cfg (.addNeighborPageNo n)).numBlocks = p.numBlocks :=
      (frame_addNeighborPageNo p n).2
    rw [hsame]
    simp

theorem neighborPageCount_imageCall :
    (p.imageCall cfg call).neighborPageCount = 0 ↔ p.neighborPageCount = 0 ∧
      (cfg.maxBlockNeighbor = 0 ∨ ∀ n, call ≠ .addNeighborPageNo n) := by
  cases call with
  | insertBlock b =>
    have hsame : (p.imageCall cfg (.insertBlock b)).neighborPageCount = p.neighborPageCount :=
      (frame_insertBlock h b).2
    rw [hsame]
    simp
  | setParentPageNo n => simp [imageCall, setParentPageNo]
  | addNeighborPageNo n =>
    unfold imageCall addNeighborPageNo
    by_cases hfull : p.neighborPageCount ≥ cfg.maxBlockNeighbor
    · simp only [if_pos hfull]
      constructor
      · intro h0
        exact ⟨h0, .inl (by omega)⟩
      · exact fun h0 => h0.1
    · simp only [if_neg hfull]
      constructor
      · intro h0
        split at h0
        · rename_i hin
          have hpages : p.readNeighborBlockClone = [] := by
            rw [← List.length_eq_zero_iff, readNeighborBlockClone, length_wordReads]
            exact h0
          rw [hpages] at hin
          cases hin
        · cases h0
      · rintro ⟨-, hcap | hcall⟩
        · omega
        · exact absurd rfl (hcall n)

theorem parentPageNo_imageCall :
    (p.imageCall cfg call).parentPageNo = parentAfter p.parentPageNo [call] := by
  cases call with
  | insertBlock b => exact (frame_insertBlock h b).1
  | setParentPageNo n => rfl
  | addNeighborPageNo n => exact (frame_addNeighborPageNo p n).1

end

/-- After all calls: what each member is, or when it is still empty. -/
theorem members_imageCalls (calls : List ImageCall) : ∀ {p : IndexPage}, p.Formed cfg →
    ((p.imageCalls cfg calls).numBlocks = 0 ↔ p.numBlocks = 0 ∧
      (cfg.maxBlocks = 0 ∨ ∀ b, ImageCall.insertBlock b ∉ calls)) ∧
    ((p.imageCalls cfg calls).neighborPageCount = 0 ↔ p.neighborPageCount = 0 ∧
      (cfg.maxBlockNeighbor = 0 ∨ ∀ n, ImageCall.addNeighborPageNo n ∉ calls)) ∧
    (p.imageCalls cfg calls).parentPageNo = parentAfter p.parentPageNo calls := by
  induction calls with
  | nil => simp [imageCalls, parentAfter]
  | cons call calls ih =>
    intro p h
    obtain ⟨hblocks, hpages, hparent⟩ := ih (h.imageCall call)
    have hrun : p.imageCalls cfg (call :: calls) = (p.imageCall cfg call).imageCalls cfg calls := rfl
    rw [hrun]
    refine ⟨hblocks.trans ?_, hpages.trans ?_, hparent.trans ?_⟩
    · rw [numBlocks_imageCall h]
      simp only [List.mem_cons, not_or, ne_comm (a := call), forall_and]
      rw [and_assoc, ← or_and_left]
    · rw [neighborPageCount_imageCall h]
      simp only [List.mem_cons, not_or, ne_comm (a := call), forall_and]
      rw [and_assoc, ← or_and_left]
    · rw [parentPageNo_imageCall h]
      rfl

theorem parentPageNo_writeRows (blocks : List PageNo) (rows : List (PageNo × List PageNo))
    (p : IndexPage) : (rows.foldl (writeRow cfg blocks) p).parentPageNo = p.parentPageNo := by
  have hbit : ∀ (p : IndexPage) (i j : Nat),
      (p.setBitmapBit cfg i j).parentPageNo = p.parentPageNo := by
    intro p i j
    unfold setBitmapBit
    split
    · rfl
    · rfl
  have hrow : ∀ (p : IndexPage) (row : PageNo × List PageNo),
      (writeRow cfg blocks p row).parentPageNo = p.parentPageNo := by
    rintro p ⟨b, adjs⟩
    unfold writeRow
    dsimp only
    induction adjs generalizing p with
    | nil => rfl
    | cons adj adjs ih =>
      rw [List.foldl_cons, ih]
      split
      · exact hbit p _ _
      · rfl
  induction rows generalizing p with
  | nil => rfl
  | cons row rows ih => rw [List.foldl_cons, ih, hrow]

theorem parentPageNo_create {ho : HashOrder} {fresh : Nat} {pageNo : PageNo} {graph : BlockAdjMap}
    (h : create cfg ho fresh pageNo graph = .ok p) : p.parentPageNo = 0 := by
  obtain ⟨-, rfl⟩ := create_ok h
  exact parentPageNo_writeRows _ _ _

theorem blank_iff (p : IndexPage) :
    p.Blank cfg ↔ p.numBlocks = 0 ∧ p.parentPageNo = 0 ∧ p.neighborPageCount = 0 := by
  have hblocks : p.getBlocks cfg = [] ↔ p.numBlocks = 0 := by
    rw [← List.length_eq_zero_iff, getBlocks, length_wordReads]
  have hpages : p.readNeighborBlockClone = [] ↔ p.neighborPageCount = 0 := by
    rw [← List.length_eq_zero_iff, readNeighborBlockClone, length_wordReads]
  constructor
  · intro h
    exact ⟨hblocks.1 h.blocks, h.parent, hpages.1 h.neighbors⟩
  · rintro ⟨h1, h2, h3⟩
    exact ⟨hblocks.2 h1, h2, hpages.2 h3⟩

/-- The parse does not read the image: it gives the live page back exactly when that is blank. -/
theorem reparses_iff_blank (ho : HashOrder) (fresh : Nat) (p : IndexPage) :
    Reparses cfg ho fresh p ↔ p.Blank cfg := by
  unfold Reparses
  rw [loadedPage_eq]
  constructor
  · rintro ⟨q, hq, -, hsame⟩
    injection hq with hq
    subst hq
    exact (sameMembers_emptyWith_iff p _ _).1 hsame
  · intro h
    exact ⟨_, rfl, ((blank_iff p).1 h).1.symm, (sameMembers_emptyWith_iff p _ _).2 h⟩

/-- A page built from a map and given some calls is parsed back from its image exactly when the map
    is empty, no block and no neighbour page was accepted, and the last parent number set is 0. -/
theorem reparses_iff {ho : HashOrder} {fresh fresh' : Nat} {pageNo : PageNo} {graph : BlockAdjMap}
    {p : IndexPage} (h : create cfg ho fresh pageNo graph = .ok p) (calls : List ImageCall) :
    Reparses cfg ho fresh' (p.imageCalls cfg calls) ↔
      graph.keys = [] ∧ (cfg.maxBlocks = 0 ∨ ∀ b, ImageCall.insertBlock b ∉ calls) ∧
        parentAfter 0 calls = 0 ∧
        (cfg.maxBlockNeighbor = 0 ∨ ∀ n, ImageCall.addNeighborPageNo n ∉ calls) := by
  obtain ⟨hblocks, hpages, hparent⟩ := members_imageCalls calls (create_formed h)
  obtain ⟨hlists, hcount⟩ := create_lists h
  have hnum : p.numBlocks = 0 ↔ graph.keys = [] := by
    rw [hlists.numBlocks, (ho.perm graph.keys).length_eq, List.length_eq_zero_iff]
  have hzero : p.parentPageNo = 0 := parentPageNo_create h
  rw [reparses_iff_blank, blank_iff, hblocks, hpages, hparent, hnum, hzero]
  simp only [hcount, true_and]
  exact and_assoc

theorem reparses_iff_oneBlock :
    Reparses oneBlockConfig ⟨id, fun _ => .refl _⟩ 0
        (oneBlockPage.imageCalls oneBlockConfig [.insertBlock 6, .setParentPageNo 2]) ↔
      (AList.insert 5 [] ∅ : BlockAdjMap).keys = [] ∧ (oneBlockConfig.maxBlocks = 0 ∨
        ∀ b, ImageCall.insertBlock b ∉ [.insertBlock 6, .setParentPageNo 2]) ∧
        parentAfter 0 [.insertBlock 6, .setParentPageNo 2] = 0 ∧
        (oneBlockConfig.maxBlockNeighbor = 0 ∨
          ∀ n, ImageCall.addNeighborPageNo n ∉ [.insertBlock 6, .setParentPageNo 2]) := by
  have h : create oneBlockConfig ⟨id, fun _ => .refl _⟩ 0 9 (AList.insert 5 [] ∅) =
      .ok oneBlockPage := by decide
  exact reparses_iff h _

/-- A page with block 5 and no call: the parsed page has no block. -/
theorem not_reparses_oneBlock :
    create oneBlockConfig ⟨id, fun _ => .refl _⟩ 0 9 (AList.insert 5 [] ∅) = .ok oneBlockPage ∧
      ¬ Reparses oneBlockConfig ⟨id, fun _ => .refl _⟩ 0
        (oneBlockPage.imageCalls oneBlockConfig []) := by
  refine ⟨by decide, fun h => ?_⟩
  have hblank := (reparses_iff_blank _ _ _).1 h
  have hblocks : (oneBlockPage.imageCalls oneBlockConfig []).getBlocks oneBlockConfig = [5] := by
    decide
  rw [hblank.blocks] at hblocks
  cases hblocks

end IndexPage

end BwGraph
