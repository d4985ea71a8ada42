import BwGraph.Io.PageData

/-
  The two encoders of a CSR page side by side: `csr_page_builder_t` (`builder.cc`), through which
  a split rebuilds its pages, and `build_from_adjacency_map` (`io_csr.cc`), through which a
  consolidation without a split does. The builder stores raw words in every build. In the
  compressed build its pages are then read as prefixed-tag ids: such a reader takes the lowest
  byte of a word for the tagged first byte of an id, and gets the word back only when it is below
  64; it then stands on the zero bytes of that word, so that every further neighbour reads as
  zero (`ptvReads_words_iff`). Hence `build_sameDecode_iff`.
-/

namespace BwGraph

open List CsrPage

/-! ## Reading words as prefixed-tag ids -/

/-- The lists whose raw words a prefixed-tag reader decodes to the list itself: an id of one
tagged byte and zeros behind it. -/
def PtvPlain : List VId → Prop
  | [] => True
  | id :: ids => id < 64 ∧ ∀ d ∈ ids, d = 0

instance : DecidablePred PtvPlain
  | [] => inferInstanceAs (Decidable True)
  | id :: ids => inferInstanceAs (Decidable (id < 64 ∧ ∀ d ∈ ids, d = 0))

theorem ptvRead_zero (rest : List Nat) : ptvRead (0 :: rest) = (0, 1) := by
  have h := ptvRead_tagged (t := 0) (h := 0) (by decide) (by decide) rest
  rw [if_pos rfl] at h
  exact h

variable {id : Nat}

/-- The bytes of a word, lowest first. -/
theorem wordWrite_bytes (hid : id < 2 ^ 32) : ∃ b0 b1 b2 b3,
    wordWrite id = [b0, b1, b2, b3] ∧ b0 < 256 ∧ b1 < 256 ∧ b2 < 256 ∧ b3 < 256 ∧
      id = b0 + 256 * b1 + 65536 * b2 + 16777216 * b3 := by
  have hid' : id < 4294967296 := hid
  refine ⟨_, _, _, _, rfl, byte_lt _, byte_lt _, byte_lt _, byte_lt _, ?_⟩
  rw [byte_shiftRight, byte_shiftRight, byte_shiftRight, byte]
  omega

/-- A word is read back as a prefixed-tag id exactly when its tag bits and all above are zero. -/
theorem ptvRead_word (hid : id < 2 ^ 32) (rest : List Nat)
    (h : (ptvRead (wordWrite id ++ rest)).1 = id) : id < 64 := by
  obtain ⟨b0, b1, b2, b3, hw, h0, h1, h2, h3, hval⟩ := wordWrite_bytes hid
  have htag : b0 = b0 / 64 * 64 + b0 % 64 := by omega
  have hread := ptvRead_tagged (t := b0 / 64) (h := b0 % 64) (by omega) (by omega)
    (b1 :: b2 :: b3 :: rest)
  rw [← htag] at hread
  rw [hw] at h
  simp only [cons_append, nil_append, hread, getD_cons_zero,
    getD_cons_succ] at h
  -- every tag but zero asks for an id that the bytes of the word do not make up
  split_ifs at h with t0 t1 t2
  · simp only at h
    omega
  · simp only [join2 _ h1] at h
    omega
  · simp only [join3 _ h1 h2] at h
    omega
  · simp only [join4 _ h1 h2 h3] at h
    omega

/-- A byte of a word below 64 is the tagged id itself. -/
theorem ptvRead_small (hid : id < 64) (rest : List Nat) :
    ptvRead (wordWrite id ++ rest) = (id, 1) ∧
      (wordWrite id ++ rest).drop 1 = replicate 3 0 ++ rest := by
  have hb0 : byte id = 0 * 64 + id := by
    rw [byte]
    omega
  have hb : ∀ i, 8 ≤ i → byte (id >>> i) = 0 := by
    intro i hi
    have hlt : id < 2 ^ i := Nat.lt_of_lt_of_le hid
      (Nat.le_trans (by decide) (Nat.pow_le_pow_right (by decide) hi))
    rw [byte_shiftRight, Nat.div_eq_of_lt hlt]
  have hw : wordWrite id = [0 * 64 + id, 0, 0, 0] := by
    rw [wordWrite, hb0, hb 8 (by decide), hb 16 (by decide), hb 24 (by decide)]
  rw [hw]
  refine ⟨?_, rfl⟩
  rw [cons_append, ptvRead_tagged (by decide) hid, if_pos rfl]

/-- A reader that stands on a zero byte reads zero until the words behind it are used up. -/
theorem eq_zero_of_ptvReads (ids : List VId) (k : Nat) (rest : List Nat)
    (h : ptvReads ids.length (replicate (k + 1) 0 ++ (ids.flatMap wordWrite ++ rest)) = ids) :
    ∀ d ∈ ids, d = 0 := by
  induction ids generalizing k with
  | nil => exact fun d hd => absurd hd not_mem_nil
  | cons id ids ih =>
    simp only [length_cons, ptvReads, replicate_succ, cons_append, ptvRead_zero,
      drop_succ_cons, drop_zero, List.cons.injEq] at h
    obtain ⟨rfl, htail⟩ := h
    have hzeros : replicate k 0 ++ ((0 :: ids).flatMap wordWrite ++ rest) =
        replicate (k + 3 + 1) 0 ++ (ids.flatMap wordWrite ++ rest) := by
      have hword : wordWrite 0 = replicate 4 0 := rfl
      rw [flatMap_cons, hword, append_assoc, ← append_assoc,
        replicate_append_replicate]
    rw [hzeros] at htail
    intro d hd
    rcases mem_cons.1 hd with hd | hd
    · exact hd
    · exact ih (k + 3) htail d hd

theorem ptvReads_zeros (m k : Nat) (hmk : m ≤ k) (rest : List Nat) :
    ptvReads m (replicate k 0 ++ rest) = replicate m 0 := by
  induction m generalizing k with
  | zero => rfl
  | succ m ih =>
    obtain ⟨k, rfl⟩ : ∃ k', k = k' + 1 := ⟨k - 1, by omega⟩
    simp only [ptvReads, replicate_succ, cons_append, ptvRead_zero, drop_succ_cons,
      drop_zero]
    rw [ih k (by omega)]

theorem flatMap_wordWrite_zeros (m : Nat) :
    (replicate m 0).flatMap wordWrite = replicate (4 * m) 0 := by
  induction m with
  | zero => rfl
  | succ m ih =>
    have hword : wordWrite 0 = replicate 4 0 := rfl
    rw [replicate_succ, flatMap_cons, ih, hword, replicate_append_replicate]
    congr 1
    omega

/-- Which lists of raw words a prefixed-tag reader gets right. -/
theorem ptvReads_words_iff (ids : List VId) (hids : ∀ d ∈ ids, d < 2 ^ 32) (rest : List Nat) :
    ptvReads ids.length (ids.flatMap wordWrite ++ rest) = ids ↔ PtvPlain ids := by
  cases ids with
  | nil => exact ⟨fun _ => trivial, fun _ => rfl⟩
  | cons id ids =>
    simp only [length_cons, ptvReads, flatMap_cons, append_assoc, List.cons.injEq]
    constructor
    · rintro ⟨hhead, htail⟩
      have hid := ptvRead_word (hids id mem_cons_self) _ hhead
      obtain ⟨hread, hdrop⟩ := ptvRead_small hid (ids.flatMap wordWrite ++ rest)
      rw [hread, hdrop] at htail
      exact ⟨hid, eq_zero_of_ptvReads ids 2 rest htail⟩
    · rintro ⟨hid, hzero⟩
      obtain ⟨hread, hdrop⟩ := ptvRead_small hid (ids.flatMap wordWrite ++ rest)
      have hids : ids = replicate ids.length 0 := eq_replicate_of_mem hzero
      rw [hread, hdrop]
      refine ⟨rfl, ?_⟩
      generalize ids.length = m at hids
      rw [hids, flatMap_wordWrite_zeros, ← append_assoc, replicate_append_replicate]
      exact ptvReads_zeros m _ (by omega) rest

/-! ## Packing one page -/

/-- The `add_vertex` calls for one page; `none` when one of them returns false. -/
def CsrPageBuilder.addVertices (cfg : Config) (slots : VId → Nat) :
    List (VId × List VId) → CsrPageBuilder → Except String (Option CsrPageBuilder)
  | [], b => .ok (some b)
  | item :: items, b => do
    match ← b.addVertex cfg item.1 item.2 (slots item.1) with
    | none => .ok none
    | some b' => addVertices cfg slots items b'

theorem CsrPageBuilder.Packs.addVertices {cfg : Config} {slots : VId → Nat}
    (items : List (VId × List VId)) {b b' : CsrPageBuilder} {packed : List (VId × List VId)}
    (hb : b.Packs cfg slots packed) (h : b.addVertices cfg slots items = .ok (some b')) :
    b'.Packs cfg slots (packed ++ items) := by
  induction items generalizing b packed with
  | nil =>
    cases h
    rw [append_nil]
    exact hb
  | cons item items ih =>
    unfold CsrPageBuilder.addVertices at h
    cases h1 : b.addVertex cfg item.1 item.2 (slots item.1) with
    | error e => rw [h1] at h; cases h
    | ok r =>
      rw [h1] at h
      cases r with
      | none => cases h
      | some b1 =>
        have hstep := ih (hb.addVertex h1) h
        rwa [append_assoc] at hstep

/-- Two pages decode alike: `get_vertices` yields the same ids and degrees in the same order, and
the neighbour reader of the build the same list at every index. -/
structure CsrPage.SameDecode (cfg : Config) (page page' : CsrPage) : Prop where
  vertices : page.vertexSpan.map (fun e => (e.vertexId, e.degree)) =
    page'.vertexSpan.map (fun e => (e.vertexId, e.degree))
  neighbors : ∀ i, page.readNeighbors cfg i = page'.readNeighbors cfg i

theorem CsrPage.readNeighbors_outside {cfg : Config} {page : CsrPage} {i : Nat}
    (h : page.vertexSpan[i]? = none) : page.readNeighbors cfg i = [] := by
  simp [readNeighbors, getNeighbors, getNeighborPtvRange, h]

section Encoders

variable {cfg : Config} {slots slots' : VId → Nat} {b b' : CsrPageBuilder} {page page' : CsrPage}
  {vm : List (VId × Nat)} {items items' : List (VId × List VId)} {i j : Nat} {v : VId}
  {nbrs : List VId}

/-- What a reader of the compressed build takes from a page of the builder: its words. -/
theorem CsrPageBuilder.Packs.readNeighbors_compressed (hb : b.Packs cfg slots items)
    (hcomp : cfg.neighborCompress = true) (h : b.build cfg = .ok (page, vm, b'))
    (hi : items[i]? = some (v, nbrs)) (hdeg : nbrs.length < cfg.giantDegreeBound) :
    ∃ rest, page.readNeighbors cfg i =
      ptvReads nbrs.length (nbrs.flatMap wordWrite ++ rest) := by
  obtain ⟨hspan, hdata, -, -⟩ := hb.build h
  have hng : ¬ nbrs.length ≥ cfg.giantDegreeBound := Nat.not_le.2 hdeg
  have he : page.vertexSpan[i]? = some ⟨v, nbrs.length,
      ((items.take i).flatMap (rawBlock cfg slots)).length, 0⟩ := by
    rw [hspan, getElem?_lay cfg _ (rawBlock_giant cfg slots), hi]
    simp [hng]
  have hdrop : items.drop i = (v, nbrs) :: items.drop (i + 1) := by
    rw [drop_eq_getElem?_toList_append, hi]
    rfl
  have hblock : rawBlock cfg slots (v, nbrs) =
      nbrs.flatMap wordWrite ++ (replicate (slots v) 0).flatMap wordWrite := by
    rw [rawBlock, if_neg hng, flatMap_append]
  refine ⟨(replicate (slots v) 0).flatMap wordWrite ++
    (items.drop (i + 1)).flatMap (rawBlock cfg slots), ?_⟩
  rw [readNeighbors, if_pos hcomp, getNeighborPtvRange, he]
  simp only [hng, if_false]
  rw [hdata, drop_flatMap_take, hdrop, flatMap_cons, hblock, append_assoc]

/-- A vertex reads the same neighbours from the page of the builder and from the page built from a
map, whatever else lies on the two pages, exactly in the raw build, as a giant vertex or with a
list that reads the same either way. -/
theorem readNeighbors_build_iff (hb : b.Packs cfg slots items)
    (h : b.build cfg = .ok (page, vm, b')) (hlaid : page'.Laid cfg slots' items')
    (hi : items[i]? = some (v, nbrs)) (hj : items'[j]? = some (v, nbrs))
    (hids : ∀ d ∈ nbrs, d < cfg.idLimit) :
    page.readNeighbors cfg i = page'.readNeighbors cfg j ↔ cfg.neighborCompress = false ∨
      (nbrs.length < cfg.giantDegreeBound → PtvPlain nbrs) := by
  cases hcomp : cfg.neighborCompress with
  | false =>
    have hbuilt := hb.build_laid hcomp h
    refine ⟨fun _ => .inl rfl, fun _ => ?_⟩
    rcases Nat.lt_or_ge nbrs.length cfg.giantDegreeBound with hdeg | hdeg
    · rw [hbuilt.readNeighbors hi hdeg hids, hlaid.readNeighbors hj hdeg hids]
    · rw [hbuilt.readNeighbors_giant hi hdeg, hlaid.readNeighbors_giant hj hdeg]
  | true =>
    have hword : ∀ d ∈ nbrs, d < 2 ^ 32 := by
      intro d hd
      have hlim := hids d hd
      rw [Config.idLimit, if_pos hcomp] at hlim
      exact Nat.lt_trans hlim (by decide)
    simp only [Bool.true_eq_false, false_or]
    rcases Nat.lt_or_ge nbrs.length cfg.giantDegreeBound with hdeg | hdeg
    · obtain ⟨rest, hread⟩ := hb.readNeighbors_compressed hcomp h hi hdeg
      rw [hread, hlaid.readNeighbors hj hdeg hids, ptvReads_words_iff nbrs hword rest]
      exact ⟨fun hp _ => hp, fun hp => hp hdeg⟩
    · have he : page.vertexSpan[i]? = some ⟨v, nbrs.length, 0, 0⟩ := by
        rw [(hb.build h).1, getElem?_lay cfg _ (rawBlock_giant cfg slots), hi]
        simp [hdeg]
      have hread : page.readNeighbors cfg i = [] := by
        simp [readNeighbors, hcomp, getNeighborPtvRange, he, hdeg]
      rw [hread, hlaid.readNeighbors_giant hj hdeg]
      exact ⟨fun _ hlt => absurd hlt (Nat.not_lt.2 hdeg), fun _ => rfl⟩

end Encoders

/-- The page the builder returns for the vertices of one page decodes like the page
`build_from_adjacency_map` builds from them exactly in the raw build, or when every list below the
giant bound is an id below 64 followed by zeros. `giants` are those of the pages the builder has
built before. -/
theorem build_sameDecode_iff (cfg : Config) (slots : VId → Nat) (giants : List (VId × List VId))
    (items : List (VId × List VId)) (hids : ∀ it ∈ items, ∀ d ∈ it.2, d < cfg.idLimit)
    {b b' : CsrPageBuilder} {page page' : CsrPage} {vm vm' : List (VId × Nat)}
    (hadd : CsrPageBuilder.addVertices cfg slots items ⟨[], [], 0, giants⟩ = .ok (some b))
    (hbuild : b.build cfg = .ok (page, vm, b'))
    (hmap : buildFromAdjacencyMap cfg slots items = .ok (page', vm')) :
    CsrPage.SameDecode cfg page page' ↔ cfg.neighborCompress = false ∨
      ∀ it ∈ items, it.2.length < cfg.giantDegreeBound → PtvPlain it.2 := by
  have hempty : CsrPageBuilder.Packs cfg slots ⟨[], [], 0, giants⟩ [] := ⟨rfl, rfl, rfl⟩
  have hb : b.Packs cfg slots items := hempty.addVertices items hadd
  obtain ⟨hlaid, -⟩ := buildFromAdjacencyMap_ok hmap
  have hread : ∀ i v nbrs, items[i]? = some (v, nbrs) → (page.readNeighbors cfg i =
      page'.readNeighbors cfg i ↔ cfg.neighborCompress = false ∨
        (nbrs.length < cfg.giantDegreeBound → PtvPlain nbrs)) := fun i v nbrs hi =>
    readNeighbors_build_iff hb hbuild hlaid hi hi (hids _ (List.mem_of_getElem? hi))
  constructor
  · intro hsame
    rcases Bool.eq_false_or_eq_true cfg.neighborCompress with hcomp | hcomp
    · refine .inr fun it hit => ?_
      obtain ⟨i, hi⟩ := List.getElem?_of_mem hit
      rcases (hread i it.1 it.2 hi).1 (hsame.neighbors i) with hraw | hplain
      · rw [hcomp] at hraw
        cases hraw
      · exact hplain
    · exact .inl hcomp
  · intro hcond
    have hspan := (hb.build hbuild).1
    refine ⟨?_, fun i => ?_⟩
    · rw [hspan, hlaid.vertexSpan, lay_degrees, lay_degrees]
    · cases hi : items[i]? with
      | none =>
        have hout : ∀ blk, (∀ it : VId × List VId, it.2.length ≥ cfg.giantDegreeBound →
            blk it = []) → (lay cfg blk 0 items)[i]? = none := by
          intro blk hblk
          rw [getElem?_lay cfg _ hblk, hi]
          rfl
        have h1 : page.vertexSpan[i]? = none := by
          rw [hspan]
          exact hout _ (rawBlock_giant cfg slots)
        have h2 : page'.vertexSpan[i]? = none := by
          rw [hlaid.vertexSpan]
          exact hout _ (block_giant cfg slots)
        rw [CsrPage.readNeighbors_outside h1, CsrPage.readNeighbors_outside h2]
      | some it =>
        refine (hread i it.1 it.2 hi).2 ?_
        exact hcond.imp_right fun hall => hall it (List.mem_of_getElem? hi)

/-- The raw build: a vertex with slots, a giant one and ids of every width. -/
theorem build_sameDecode_raw : ∃ b b' page page' vm vm',
    CsrPageBuilder.addVertices ⟨256, 64, 2, 4, 1, 1, false⟩ (fun v => v % 2)
      [(5, [7, 300, 4000000000]), (6, [1, 2, 3, 4]), (8, [])] ⟨[], [], 0, []⟩ = .ok (some b) ∧
    b.build ⟨256, 64, 2, 4, 1, 1, false⟩ = .ok (page, vm, b') ∧
    buildFromAdjacencyMap ⟨256, 64, 2, 4, 1, 1, false⟩ (fun v => v % 2)
      [(5, [7, 300, 4000000000]), (6, [1, 2, 3, 4]), (8, [])] = .ok (page', vm') ∧
    CsrPage.SameDecode ⟨256, 64, 2, 4, 1, 1, false⟩ page page' := by
  refine ⟨_, _, _, _, _, _, rfl, rfl, rfl, ?_⟩
  exact (build_sameDecode_iff _ (fun v => v % 2) []
    [(5, [7, 300, 4000000000]), (6, [1, 2, 3, 4]), (8, [])] (by decide) rfl rfl rfl).2 (.inl rfl)

/-- In the compressed build the neighbour 300 of a vertex comes back as 44 from the page of the
builder. -/
theorem build_misread : ¬ ∀ (cfg : Config) (slots : VId → Nat) (items : List (VId × List VId))
    (b b' : CsrPageBuilder) (page page' : CsrPage) (vm vm' : List (VId × Nat)),
    (∀ it ∈ items, ∀ d ∈ it.2, d < cfg.idLimit) →
    CsrPageBuilder.addVertices cfg slots items CsrPageBuilder.init = .ok (some b) →
    b.build cfg = .ok (page, vm, b') →
    buildFromAdjacencyMap cfg slots items = .ok (page', vm') →
    CsrPage.SameDecode cfg page page' := by
  intro hall
  have hsame := hall ⟨256, 64, 2, 4, 1, 0, true⟩ (fun _ => 0) [(1, [300])] _ _ _ _ _ _ (by decide)
    rfl rfl rfl
  have hread := hsame.neighbors 0
  revert hread
  decide

end BwGraph
