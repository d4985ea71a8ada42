import BwGraph.Io.Csr

/-
  The slots of a raw CSR page. `insert_edge_in_slot` writes one more neighbour behind those of a
  vertex, when the next vertex does not start there yet. On a page whose neighbour arrays lie one
  behind the other (`CsrPage.Spaced`), as both constructors lay it out, it appends to the list of
  that vertex and leaves every other list as it is (`CsrPage.Spaced.slotWritten`), unless the new
  degree reaches the giant bound: from there on readers take the vertex for a giant one.
-/

namespace BwGraph

open List Option CsrPage

/-! ## Words -/

/-- The words from index `s` on, one by one. -/
theorem wordReads_eq_map (data : List Nat) (n s : Nat) :
    wordReads n (data.drop (s * 4)) =
      (range' s n).map fun i => wordRead (data.drop (i * 4)) := by
  induction n generalizing s with
  | zero => rfl
  | succ n ih =>
    have hnext : s * 4 + 4 = (s + 1) * 4 := by omega
    rw [wordReads, drop_drop, hnext, ih, range'_succ, map_cons]

theorem wordWrite_length (id : Nat) : (wordWrite id).length = 4 := rfl

variable {k : Nat}

section

variable {data : List Nat} (hk : (k + 1) * 4 ≤ data.length)
include hk

variable (d : VId)

theorem length_setWord : (setWord data k d).length = data.length := by
  simp only [setWord, length_append, length_take, length_drop, wordWrite_length]
  omega

theorem wordRead_setWord_self {d : VId} (hd : d < 2 ^ 32) :
    wordRead ((setWord data k d).drop (k * 4)) = d := by
  have hlen : (data.take (k * 4)).length = k * 4 := by
    rw [length_take]
    omega
  rw [setWord, append_assoc, drop_left' hlen]
  exact wordRead_wordWrite hd _

/-- A byte outside the word stays. -/
theorem getElem?_setWord {m : Nat} (hm : m < k * 4 ∨ k * 4 + 4 ≤ m) :
    (setWord data k d)[m]? = data[m]? := by
  have hlen : (data.take (k * 4)).length = k * 4 := by
    rw [length_take]
    omega
  have hlen' : (data.take (k * 4) ++ wordWrite d).length = k * 4 + 4 := by
    rw [length_append, hlen, wordWrite_length]
  unfold setWord
  rcases hm with hm | hm
  · rw [getElem?_append_left (by omega), getElem?_append_left (by omega),
      getElem?_take_of_lt hm]
  · rw [getElem?_append_right (by omega), hlen', getElem?_drop]
    congr 1
    omega

theorem wordRead_setWord_ne {i : Nat} (hi : i ≠ k) :
    wordRead ((setWord data k d).drop (i * 4)) = wordRead (data.drop (i * 4)) := by
  have hget : ∀ j, j < 4 → ((setWord data k d).drop (i * 4)).getD j 0 =
      (data.drop (i * 4)).getD j 0 := by
    intro j hj
    rw [getD_eq_getElem?_getD, getD_eq_getElem?_getD, getElem?_drop,
      getElem?_drop, getElem?_setWord hk d (by omega)]
  unfold wordRead
  rw [hget 0 (by omega), hget 1 (by omega), hget 2 (by omega), hget 3 (by omega)]

/-- A word written outside a span does not change it. -/
theorem wordReads_setWord_ne {s n : Nat} (h : k < s ∨ s + n ≤ k) :
    wordReads n ((setWord data k d).drop (s * 4)) = wordReads n (data.drop (s * 4)) := by
  rw [wordReads_eq_map, wordReads_eq_map]
  refine map_congr_left fun i hi => wordRead_setWord_ne hk d ?_
  rw [mem_range'_1] at hi
  omega

end

/-- A word written right behind a span extends it. -/
theorem wordReads_setWord_end {data : List Nat} {s n : Nat} (hk : (s + n + 1) * 4 ≤ data.length)
    {d : VId} (hd : d < 2 ^ 32) :
    wordReads (n + 1) ((setWord data (s + n) d).drop (s * 4)) =
      wordReads n (data.drop (s * 4)) ++ [d] := by
  have hkeep := wordReads_setWord_ne hk d (s := s) (n := n) (.inr (Nat.le_refl _))
  rw [wordReads_eq_map] at hkeep
  rw [wordReads_eq_map, range'_concat, map_append, Nat.one_mul, hkeep, map_singleton,
    wordRead_setWord_self hk hd]

/-! ## Spaced pages -/

/-- The neighbour arrays of the normal vertices lie one behind the other inside the neighbour
section; giant vertices have offset 0. -/
structure CsrPage.Spaced (cfg : Config) (page : CsrPage) : Prop where
  used : page.usedBytes ≤ cfg.headerBytes + page.numVertices * csrVertexBytes +
    page.neighborData.length
  inside : ∀ (i : Nat) (e : CsrVertex), page.vertexSpan[i]? = some e →
    e.degree < cfg.giantDegreeBound → (e.offset / 4 + e.degree) * 4 ≤ page.neighborData.length
  ordered : ∀ (i j : Nat) (e e' : CsrVertex), i < j → page.vertexSpan[i]? = some e →
    page.vertexSpan[j]? = some e' → e.degree < cfg.giantDegreeBound →
    e'.degree < cfg.giantDegreeBound → e.offset / 4 + e.degree ≤ e'.offset / 4
  giant : ∀ (i : Nat) (e : CsrVertex), page.vertexSpan[i]? = some e →
    cfg.giantDegreeBound ≤ e.degree → e.offset = 0

theorem CsrPage.spaced_empty (cfg : Config) : empty.Spaced cfg :=
  ⟨Nat.zero_le _, by simp [empty], by simp [empty], by simp [empty]⟩

/-- `neighbor_capacity_end_idx`. -/
def CsrPage.capacityEnd (cfg : Config) (page : CsrPage) (i : Nat) : Nat :=
  match page.vertexSpan[i + 1]? with
  | some next => next.offset / 4
  | none => (page.usedBytes - 16 - cfg.maxBlockNeighbor * 4 - page.numVertices * csrVertexBytes) / 4

/-- What a slot write of `d` behind the neighbours of entry `e` does. -/
structure SlotWrite (cfg : Config) (page page' : CsrPage) (i : Nat) (e : CsrVertex) (d : VId) :
    Prop where
  raw : cfg.neighborCompress = false
  entry : page.vertexSpan[i]? = some e
  degree : e.degree < cfg.giantDegreeBound
  room : e.offset / 4 + e.degree < page.capacityEnd cfg i
  vertexSpan : page'.vertexSpan = page.vertexSpan.set i { e with degree := e.degree + 1 }
  neighborData : page'.neighborData = setWord page.neighborData (e.offset / 4 + e.degree) d
  usedBytes : page'.usedBytes ≤ max page.usedBytes (cfg.headerBytes +
    page.numVertices * csrVertexBytes + (e.offset / 4 + e.degree + 1) * 4)

variable {cfg : Config} {page page' : CsrPage} {i : Nat} {v d : VId}

/-- A slot write that goes through. -/
theorem insertEdgeInSlot_inserted (h : page.insertEdgeInSlot cfg i v d = (.inserted, page')) :
    ∃ e, e.vertexId = v ∧ SlotWrite cfg page page' i e d := by
  unfold insertEdgeInSlot at h
  cases he : page.vertexSpan[i]? with
  | none => simp [he] at h
  | some e =>
    simp only [he] at h
    change (if cfg.neighborCompress = true then _ else if v ≠ e.vertexId then _
      else if e.degree ≥ cfg.giantDegreeBound then _
      else if e.offset / 4 + e.degree ≥ page.capacityEnd cfg i then _ else _) = _ at h
    split_ifs at h with hraw hid hdeg hroom
    all_goals cases h
    all_goals
      refine ⟨e, (not_not.1 hid).symm, by simpa using hraw, he, Nat.not_le.1 hdeg,
        Nat.not_le.1 hroom, rfl, rfl, ?_⟩
      dsimp only
      omega

/-- A slot write that does not go through. -/
theorem insertEdgeInSlot_kept {status : InsertStatus}
    (h : page.insertEdgeInSlot cfg i v d = (status, page')) (hne : status ≠ .inserted) :
    page' = page := by
  unfold insertEdgeInSlot at h
  cases he : page.vertexSpan[i]? with
  | none => simp [he] at h; exact h.2.symm
  | some e =>
    simp only [he] at h
    split_ifs at h <;> cases h <;> first | rfl | exact absurd rfl hne

namespace SlotWrite

variable {e : CsrVertex}

variable (h : SlotWrite cfg page page' i e d)
include h

theorem getElem?_self : page'.vertexSpan[i]? = some { e with degree := e.degree + 1 } := by
  rw [h.vertexSpan, List.getElem?_set_self]
  exact (List.getElem?_eq_some_iff.1 h.entry).1

variable {j : Nat}

theorem getElem?_ne (hj : j ≠ i) : page'.vertexSpan[j]? = page.vertexSpan[j]? := by
  rw [h.vertexSpan, getElem?_set_ne (Ne.symm hj)]

theorem numVertices : page'.numVertices = page.numVertices := by
  unfold CsrPage.numVertices
  rw [h.vertexSpan, length_set]

theorem hasEntry (w : VId) (j : Nat) : page'.HasEntry w j ↔ page.HasEntry w j := by
  unfold CsrPage.HasEntry
  by_cases hj : j = i
  · subst hj
    rw [h.getElem?_self, h.entry]
    simp [CsrVertex.isDeleted]
  · rw [h.getElem?_ne hj]

variable (hs : page.Spaced cfg)
include hs

/-- The new word ends before every normal vertex behind entry `i` starts. -/
theorem before {e' : CsrVertex} (hij : i < j) (he' : page.vertexSpan[j]? = some e')
    (hdeg : e'.degree < cfg.giantDegreeBound) : e.offset / 4 + e.degree + 1 ≤ e'.offset / 4 := by
  have hlen : j < page.vertexSpan.length := (List.getElem?_eq_some_iff.1 he').1
  have hnext : page.vertexSpan[i + 1]? = some (page.vertexSpan[i + 1]) :=
    List.getElem?_eq_getElem (by omega)
  have hroom := h.room
  unfold capacityEnd at hroom
  rw [hnext] at hroom
  dsimp only at hroom
  by_cases hj : j = i + 1
  · subst hj
    rw [he'] at hnext
    rw [← some.inj hnext] at hroom
    exact hroom
  · -- the next vertex is a normal one, since its offset is not 0
    have hng : (page.vertexSpan[i + 1]).degree < cfg.giantDegreeBound := by
      by_contra hc
      rw [hs.giant _ _ hnext (Nat.not_lt.1 hc)] at hroom
      omega
    have hord := hs.ordered (i + 1) j _ e' (by omega) hnext he' hng hdeg
    omega

/-- The new word lies inside the neighbour section. -/
theorem inside : (e.offset / 4 + e.degree + 1) * 4 ≤ page.neighborData.length := by
  have hroom := h.room
  have hused := hs.used
  unfold capacityEnd at hroom
  cases hnext : page.vertexSpan[i + 1]? with
  | none =>
    rw [hnext] at hroom
    unfold Config.headerBytes at hused
    dsimp only at hroom
    omega
  | some next =>
    rw [hnext] at hroom
    dsimp only at hroom
    have hng : next.degree < cfg.giantDegreeBound := by
      by_contra hc
      rw [hs.giant _ _ hnext (Nat.not_lt.1 hc)] at hroom
      omega
    have hin := hs.inside _ _ hnext hng
    omega

/-- Readers get the new neighbour behind the others, below the giant bound. -/
theorem readNeighbors_self (hd : d < 2 ^ 32) (hdeg : e.degree + 1 < cfg.giantDegreeBound) :
    page'.readNeighbors cfg i = page.readNeighbors cfg i ++ [d] := by
  have h1 : ¬ e.degree + 1 ≥ cfg.giantDegreeBound := Nat.not_le.2 hdeg
  have h2 : ¬ e.degree ≥ cfg.giantDegreeBound := Nat.not_le.2 h.degree
  simp only [readNeighbors, h.raw, Bool.false_eq_true, if_false, getNeighbors,
    h.getElem?_self, h.entry, h1, h2, h.neighborData]
  exact wordReads_setWord_end (h.inside hs) hd

/-- The lists of the other entries stay. -/
theorem readNeighbors_ne (hj : j ≠ i) : page'.readNeighbors cfg j = page.readNeighbors cfg j := by
  simp only [readNeighbors, h.raw, Bool.false_eq_true, if_false, getNeighbors,
    h.getElem?_ne hj, h.neighborData]
  cases he' : page.vertexSpan[j]? with
  | none => rfl
  | some e' =>
    dsimp only
    split_ifs with hg
    · rfl
    · refine wordReads_setWord_ne (h.inside hs) d ?_
      rcases Nat.lt_or_gt_of_ne hj with hlt | hgt
      · have hord := hs.ordered j i e' e hlt he' h.entry (Nat.not_le.1 hg) h.degree
        omega
      · exact .inl (h.before hs hgt he' (Nat.not_le.1 hg))

/-- Below the giant bound the page stays spaced. -/
theorem spaced (hdeg : e.degree + 1 < cfg.giantDegreeBound) : page'.Spaced cfg := by
  have hin := h.inside hs
  have hlen : page'.neighborData.length = page.neighborData.length := by
    rw [h.neighborData, length_setWord hin]
  have hcase : ∀ (j : Nat) (e' : CsrVertex), page'.vertexSpan[j]? = some e' →
      (j = i ∧ e' = { e with degree := e.degree + 1 }) ∨
        (j ≠ i ∧ page.vertexSpan[j]? = some e') := by
    intro j e' he'
    by_cases hj : j = i
    · subst hj
      rw [h.getElem?_self] at he'
      exact .inl ⟨rfl, (some.inj he').symm⟩
    · rw [h.getElem?_ne hj] at he'
      exact .inr ⟨hj, he'⟩
  refine ⟨?_, fun j e' he' hn => ?_, fun j k e1 e2 hjk he1 he2 hn1 hn2 => ?_, fun j e' he' hg => ?_⟩
  · have hu := h.usedBytes
    have hu' := hs.used
    rw [h.numVertices, hlen]
    omega
  · rw [hlen]
    rcases hcase j e' he' with ⟨-, rfl⟩ | ⟨-, he'⟩
    · exact hin
    · exact hs.inside j e' he' hn
  · rcases hcase j e1 he1 with ⟨rfl, rfl⟩ | ⟨hj, he1⟩
    · rcases hcase k e2 he2 with ⟨rfl, -⟩ | ⟨-, he2⟩
      · exact absurd hjk (Nat.lt_irrefl _)
      · exact h.before hs hjk he2 hn2
    · rcases hcase k e2 he2 with ⟨rfl, rfl⟩ | ⟨-, he2⟩
      · exact hs.ordered j k e1 e hjk he1 h.entry hn1 h.degree
      · exact hs.ordered j k e1 e2 hjk he1 he2 hn1 hn2
  · rcases hcase j e' he' with ⟨-, rfl⟩ | ⟨-, he'⟩
    · exact absurd hdeg (Nat.not_lt.2 hg)
    · exact hs.giant j e' he' hg

end SlotWrite

/-! ## The constructors leave spaced pages -/

variable {slots : VId → Nat}

theorem length_rawBlock_ge {it : VId × List VId} (h : it.2.length < cfg.giantDegreeBound) :
    it.2.length * 4 ≤ (rawBlock cfg slots it).length := by
  rw [rawBlock, if_neg (Nat.not_le.2 h), length_flatMap_wordWrite, length_append]
  omega

/-- The block of an item lies before those of the later items. -/
theorem length_take_block {α β : Type} (f : α → List β) (items : List α) {i j : Nat} {a : α}
    (ha : items[i]? = some a) (hij : i < j) :
    ((items.take i).flatMap f).length + (f a).length ≤ ((items.take j).flatMap f).length := by
  have hsplit : items.take j = items.take i ++ a :: (items.take j).drop (i + 1) := by
    obtain ⟨hlt, hget⟩ := List.getElem?_eq_some_iff.1 ha
    have hlt' : i < (items.take j).length := by
      rw [List.length_take]
      omega
    have hi : (items.take j)[i] = a := by rw [List.getElem_take, hget]
    conv_lhs => rw [← List.take_append_drop i (items.take j), List.drop_eq_getElem_cons hlt', hi]
    rw [List.take_take, Nat.min_eq_left (Nat.le_of_lt hij)]
  rw [hsplit, List.flatMap_append, List.flatMap_cons, List.length_append, List.length_append]
  omega

variable {items : List (VId × List VId)}

/-- In the raw build a laid-out page is spaced. -/
theorem CsrPage.Laid.spaced (h : page.Laid cfg slots items) (hraw : cfg.neighborCompress = false)
    (hused : page.usedBytes ≤ cfg.headerBytes + page.numVertices * csrVertexBytes +
      page.neighborData.length) : page.Spaced cfg := by
  have hget : ∀ (j : Nat) (e : CsrVertex), page.vertexSpan[j]? = some e →
      ∃ nbrs, items[j]? = some (e.vertexId, nbrs) ∧ e.degree = nbrs.length ∧
        e.offset = if nbrs.length ≥ cfg.giantDegreeBound then 0
          else ((items.take j).flatMap (rawBlock cfg slots)).length := by
    intro j e he
    rw [h.vertexSpan, getElem?_lay cfg _ (block_giant cfg slots)] at he
    obtain ⟨⟨w, nbrs⟩, hit, rfl⟩ := map_eq_some_iff.1 he
    exact ⟨nbrs, hit, rfl, by rw [block_eq_rawBlock hraw, Nat.zero_add]⟩
  have hdvd : ∀ l : List (VId × List VId), 4 ∣ (l.flatMap (rawBlock cfg slots)).length :=
    dvd_length_flatMap _ 4 (length_rawBlock cfg slots)
  have hstart : ∀ (j : Nat) (e : CsrVertex), page.vertexSpan[j]? = some e →
      e.degree < cfg.giantDegreeBound →
      e.offset / 4 * 4 = ((items.take j).flatMap (rawBlock cfg slots)).length ∧
        ∀ k, j < k → (e.offset / 4 + e.degree) * 4 ≤
          ((items.take k).flatMap (rawBlock cfg slots)).length := by
    intro j e he hn
    obtain ⟨nbrs, hit, hdeg, hoff⟩ := hget j e he
    rw [if_neg (by omega)] at hoff
    have h1 : e.offset / 4 * 4 = ((items.take j).flatMap (rawBlock cfg slots)).length := by
      rw [hoff]
      exact Nat.div_mul_cancel (hdvd _)
    refine ⟨h1, fun k hk => ?_⟩
    have h2 := length_take_block (rawBlock cfg slots) items hit hk
    have hlt : (e.vertexId, nbrs).2.length < cfg.giantDegreeBound := hdeg ▸ hn
    have h3 : nbrs.length * 4 ≤ (rawBlock cfg slots (e.vertexId, nbrs)).length :=
      length_rawBlock_ge hlt
    rw [Nat.add_mul, h1, hdeg]
    omega
  refine ⟨hused, fun j e he hn => ?_, fun j k e e' hjk he he' hn hn' => ?_, fun j e he hg => ?_⟩
  · have hall := (hstart j e he hn).2 items.length (by
      obtain ⟨nbrs, hit, -⟩ := hget j e he
      exact (List.getElem?_eq_some_iff.1 hit).1)
    rw [h.neighborData, block_eq_rawBlock hraw]
    rwa [List.take_length] at hall
  · have h1 := (hstart j e he hn).2 k hjk
    have h2 := (hstart k e' he' hn').1
    omega
  · obtain ⟨nbrs, -, hdeg, hoff⟩ := hget j e he
    rw [hoff, if_pos (by omega)]

variable {vm : List (VId × Nat)}

theorem spaced_buildFromAdjacencyMap (hraw : cfg.neighborCompress = false)
    (h : buildFromAdjacencyMap cfg slots items = .ok (page, vm)) : page.Spaced cfg := by
  refine (buildFromAdjacencyMap_ok h).1.spaced hraw ?_
  unfold buildFromAdjacencyMap at h
  by_cases h0 : items = []
  · rw [if_pos h0] at h
    cases h
    exact Nat.zero_le _
  · rw [if_neg h0] at h
    cases hf : items.foldlM (CsrLayout.addVertex cfg slots) ⟨[], 0, []⟩ with
    | error e => rw [hf] at h; cases h
    | ok acc =>
      simp only [hf, bind, Except.bind] at h
      split_ifs at h
      cases h
      exact Nat.le_refl _

theorem spaced_build {b b' : CsrPageBuilder} (hraw : cfg.neighborCompress = false)
    (hb : b.Packs cfg slots items) (h : b.build cfg = .ok (page, vm, b')) : page.Spaced cfg := by
  refine (hb.build_laid hraw h).spaced hraw ?_
  unfold CsrPageBuilder.build at h
  simp only at h
  split_ifs at h
  cases h
  rw [length_flatMap_wordWrite, Nat.mul_comm 4]
  exact Nat.le_refl _

end BwGraph
