import BwGraph.Part.Smo

/-
  What `buildMergedGraph` computes. Its vertices are those with an undeleted entry on the page and
  those with an insertion among the deltas (`mem_buildMergedGraph`); the list of a vertex is its
  base list with its operations applied in order, sorted and without duplicates
  (`get_buildMergedGraph`), which as a set is last-writer-wins (`mem_get_buildMergedGraph`).
-/

namespace BwGraph

open List AList Lww AdjMap

/-! ## Loops over a map -/

namespace AdjMap

theorem get_eq_nil_of_notMem {g : AdjMap} {v : VId} (h : v ∉ g) : g.get v = [] := by
  simp [get, lookup_eq_none.2 h]

variable (f : VId → List VId → List VId) (l : List VId)

theorem get_foldl_insert (hl : l.Nodup) (g : AdjMap) (w : VId) :
    (l.foldl (fun (acc : AdjMap) v => acc.insert v (f v (acc.get v))) g).get w =
      if w ∈ l then f w (g.get w) else g.get w := by
  induction l generalizing g with
  | nil => simp
  | cons v l ih =>
    obtain ⟨hv, hl'⟩ := nodup_cons.1 hl
    rw [foldl_cons, ih hl']
    by_cases hw : w = v
    · subst hw
      simp [hv]
    · simp [hw, get_insert_ne _ _ hw]

theorem mem_foldl_insert (g : AdjMap) (w : VId) :
    w ∈ l.foldl (fun (acc : AdjMap) v => acc.insert v (f v (acc.get v))) g ↔ w ∈ l ∨ w ∈ g := by
  induction l generalizing g with
  | nil => simp
  | cons v l ih =>
    rw [foldl_cons, ih, mem_insert, mem_cons]
    tauto

variable {f : VId → List VId → List VId} {g : AdjMap} {w : VId}

theorem mem_mapLists : w ∈ g.mapLists f ↔ w ∈ g := by
  unfold mapLists
  rw [mem_foldl_insert, ← AList.mem_keys]
  tauto

theorem get_mapLists (h : w ∈ g) : (g.mapLists f).get w = f w (g.get w) := by
  unfold mapLists
  rw [get_foldl_insert f _ g.keys_nodup, if_pos (AList.mem_keys.1 h)]

end AdjMap

/-! ## The snapshot of the page -/

variable {cfg : Config} {v : VId}

section

variable {page : CsrPage} (l : List (CsrVertex × Nat)) (g : AdjMap)

theorem mem_foldl_snapshotStep (v : VId) :
    v ∈ l.foldl (snapshotStep cfg page) g ↔
      v ∈ g ∨ ∃ p ∈ l, p.1.isDeleted = false ∧ p.1.vertexId = v := by
  induction l generalizing g with
  | nil => simp
  | cons p l ih =>
    rw [foldl_cons, ih]
    unfold snapshotStep
    cases hd : p.1.isDeleted with
    | true => simp [hd]
    | false =>
      simp only [Bool.false_eq_true, if_false, mem_insert, exists_mem_cons_iff, hd]
      tauto

theorem get_foldl_snapshotStep_of_absent (h : ∀ p ∈ l, p.1.isDeleted = false → p.1.vertexId ≠ v) :
    (l.foldl (snapshotStep cfg page) g).get v = g.get v := by
  induction l generalizing g with
  | nil => rfl
  | cons p l ih =>
    rw [foldl_cons, ih _ fun q hq => h q (mem_cons_of_mem _ hq)]
    unfold snapshotStep
    cases hd : p.1.isDeleted with
    | true => rfl
    | false =>
      simp only [Bool.false_eq_true, if_false]
      exact get_insert_ne _ _ (h p mem_cons_self hd).symm

end

/-- The entry at index `i` is the only undeleted one of vertex `v`. -/
structure CsrPage.UniqueEntry (page : CsrPage) (v : VId) (i : Nat) : Prop where
  here : page.HasEntry v i
  only : ∀ j, page.HasEntry v j → j = i

theorem mem_snapshotPage {page : CsrPage} : v ∈ snapshotPage cfg page ↔ ∃ i, page.HasEntry v i := by
  unfold snapshotPage
  rw [mem_foldl_snapshotStep]
  constructor
  · rintro (h | ⟨⟨e, i⟩, hp, hd, hv⟩)
    · exact absurd h (notMem_empty v)
    · exact ⟨i, e, mem_zipIdx_iff_getElem?.1 hp, hv, hd⟩
  · rintro ⟨i, e, he, hv, hd⟩
    exact .inr ⟨(e, i), mem_zipIdx_iff_getElem?.2 he, hd, hv⟩

variable {i : Nat}

theorem get_snapshotPage {page : CsrPage} (h : page.UniqueEntry v i) :
    (snapshotPage cfg page).get v = page.readNeighbors cfg i := by
  obtain ⟨e, he, hv, hd⟩ := h.here
  have hmem : (e, i) ∈ page.vertexSpan.zipIdx := mem_zipIdx_iff_getElem?.2 he
  obtain ⟨l1, l2, hl⟩ := append_of_mem hmem
  have hnd : (page.vertexSpan.zipIdx.map Prod.snd).Nodup := by
    rw [zipIdx_map_snd]
    exact nodup_range'
  -- any other entry of `v` would have another index
  have hother : ∀ p ∈ l1 ++ l2, p.1.isDeleted = false → p.1.vertexId ≠ v := by
    rintro ⟨e', j⟩ hp hd' hv'
    have hp' : (e', j) ∈ page.vertexSpan.zipIdx := by
      rw [hl]
      rcases mem_append.1 hp with hp | hp
      · exact mem_append_left _ hp
      · exact mem_append_right _ (mem_cons_of_mem _ hp)
    have hj : j = i := h.only j ⟨e', mem_zipIdx_iff_getElem?.1 hp', hv', hd'⟩
    subst hj
    rw [hl, map_append, map_cons, nodup_middle] at hnd
    refine (nodup_cons.1 hnd).1 ?_
    rw [← map_append]
    exact mem_map.2 ⟨(e', j), hp, rfl⟩
  unfold snapshotPage
  rw [hl, foldl_append, foldl_cons,
    get_foldl_snapshotStep_of_absent l2 _ fun p hp => hother p (mem_append_right _ hp)]
  have h1 : (l1.foldl (snapshotStep cfg page) ∅).get v = [] := by
    rw [get_foldl_snapshotStep_of_absent l1 _ fun p hp => hother p (mem_append_left _ hp)]
    rfl
  rw [snapshotStep]
  simp only [hd, Bool.false_eq_true, if_false]
  rw [hv, get_insert_self, h1]
  simp

/-! ## The deltas -/

/-- The operations on `v` among some records, in their order. -/
def opsFor (v : VId) (deltas : List DeltaRecord) : List (Lww.Op VId) :=
  (deltas.filter fun d => d.target = .edge ∧ d.first = v).map DeltaRecord.op

variable {d : DeltaRecord}

section

variable (deltas : List DeltaRecord)

theorem opsFor_cons_self (ht : d.target = .edge) (hv : d.first = v) :
    opsFor v (d :: deltas) = d.op :: opsFor v deltas := by
  simp [opsFor, ht, hv]

theorem opsFor_cons_ne (h : ¬ (d.target = .edge ∧ d.first = v)) :
    opsFor v (d :: deltas) = opsFor v deltas := by
  simp [opsFor, h]

variable {g : AdjMap}

theorem get_applyDelta_self (ht : d.target = .edge) :
    (applyDelta g d).get d.first = d.op.applyList (g.get d.first) := by
  unfold applyDelta
  cases hty : d.type with
  | insert => simp [ht, DeltaRecord.op, hty, Lww.Op.applyList]
  | delete =>
    by_cases hm : d.first ∈ g
    · simp [ht, hm, DeltaRecord.op, hty, Lww.Op.applyList]
    · simp [ht, hm, DeltaRecord.op, hty, Lww.Op.applyList, get_eq_nil_of_notMem hm]

theorem get_applyDelta_ne (h : ¬ (d.target = .edge ∧ d.first = v)) :
    (applyDelta g d).get v = g.get v := by
  unfold applyDelta
  by_cases ht : d.target = .edge
  · have hv : v ≠ d.first := fun he => h ⟨ht, he.symm⟩
    simp only [ht, ne_eq, not_true_eq_false, if_false]
    split
    · exact get_insert_ne _ _ hv
    · split_ifs
      · exact get_insert_ne _ _ hv
      · rfl
  · simp [ht]

theorem get_foldl_applyDelta (g : AdjMap) (v : VId) :
    (deltas.foldl applyDelta g).get v = applyList (g.get v) (opsFor v deltas) := by
  induction deltas generalizing g with
  | nil => rfl
  | cons d deltas ih =>
    rw [foldl_cons, ih]
    by_cases h : d.target = .edge ∧ d.first = v
    · obtain ⟨ht, rfl⟩ := h
      rw [opsFor_cons_self deltas ht rfl, get_applyDelta_self ht]
      rfl
    · rw [opsFor_cons_ne deltas h, get_applyDelta_ne h]

theorem mem_applyDelta :
    v ∈ applyDelta g d ↔ v ∈ g ∨ (d.target = .edge ∧ d.type = .insert ∧ d.first = v) := by
  unfold applyDelta
  by_cases ht : d.target = .edge
  · cases hty : d.type with
    | insert =>
      simp only [ht, ne_eq, not_true_eq_false, if_false, mem_insert, true_and]
      constructor
      · rintro (h | h)
        · exact .inr h.symm
        · exact .inl h
      · rintro (h | h)
        · exact .inr h
        · exact .inl h.symm
    | delete =>
      by_cases hm : d.first ∈ g
      · simp only [ht, ne_eq, not_true_eq_false, if_false, hm, if_true, mem_insert]
        constructor
        · rintro (rfl | h)
          · exact .inl hm
          · exact .inl h
        · rintro (h | ⟨-, h, -⟩)
          · exact .inr h
          · cases h
      · simp [ht, hm]
  · simp [ht]

theorem mem_foldl_applyDelta (g : AdjMap) (v : VId) :
    v ∈ deltas.foldl applyDelta g ↔
      v ∈ g ∨ ∃ d ∈ deltas, d.target = .edge ∧ d.type = .insert ∧ d.first = v := by
  induction deltas generalizing g with
  | nil => simp
  | cons d deltas ih =>
    rw [foldl_cons, ih, mem_applyDelta, exists_mem_cons_iff]
    tauto

end

/-! ## Sorting -/

theorem mem_sortUnique {l : List VId} {d : VId} : d ∈ sortUnique l ↔ d ∈ l := by
  unfold sortUnique
  rw [mem_dedup, mem_insertionSort]

theorem nodup_sortUnique (l : List VId) : (sortUnique l).Nodup := nodup_dedup _

/-- A list that was sorted and made unique is stored by the giant store as it is. -/
theorem insertionSort_sortUnique (l : List VId) :
    (sortUnique l).insertionSort (· ≤ ·) = sortUnique l := by
  apply List.Pairwise.insertionSort_eq
  exact (pairwise_insertionSort (· ≤ ·) l).sublist (dedup_sublist _)

/-! ## The merged graph -/

/-- The base list of a vertex that has an entry on the page. -/
def baseOnPage (cfg : Config) (page : CsrPage) (vi : VertexIndex) (giantDb : GiantDb) (v : VId)
    (i : Nat) : List VId :=
  if vi.isGiantVertex v then giantDb.readNeighborClone v else page.readNeighbors cfg i

variable {vi : VertexIndex}

variable {page : CsrPage} {deltas : List DeltaRecord} {giantDb : GiantDb}

theorem mem_buildMergedGraph :
    v ∈ buildMergedGraph cfg page deltas vi giantDb ↔
      (∃ i, page.HasEntry v i) ∨
      ∃ d ∈ deltas, d.target = .edge ∧ d.type = .insert ∧ d.first = v := by
  unfold buildMergedGraph replaceGiants
  rw [mem_mapLists, mem_foldl_applyDelta, mem_mapLists, mem_snapshotPage]

/-- The list of a vertex with an entry: base, then its operations, sorted and unique. -/
theorem get_buildMergedGraph (h : page.UniqueEntry v i) :
    (buildMergedGraph cfg page deltas vi giantDb).get v =
      sortUnique (applyList (baseOnPage cfg page vi giantDb v i) (opsFor v deltas)) := by
  have hmem : v ∈ snapshotPage cfg page := mem_snapshotPage.2 ⟨i, h.here⟩
  have hm2 : v ∈ deltas.foldl applyDelta (replaceGiants vi giantDb (snapshotPage cfg page)) :=
    (mem_foldl_applyDelta _ _ _).2 (.inl (mem_mapLists.2 hmem))
  unfold buildMergedGraph
  rw [get_mapLists hm2, get_foldl_applyDelta]
  congr 2
  unfold replaceGiants baseOnPage
  rw [get_mapLists hmem, get_snapshotPage h]

theorem mem_get_buildMergedGraph (h : page.UniqueEntry v i) (d : VId) :
    d ∈ (buildMergedGraph cfg page deltas vi giantDb).get v ↔
      d ∈ lww {x | x ∈ baseOnPage cfg page vi giantDb v i} (opsFor v deltas) := by
  rw [get_buildMergedGraph h, mem_sortUnique, mem_applyList]

/-- A vertex without an entry starts from nothing. -/
theorem mem_get_buildMergedGraph_of_noEntry (hno : ∀ i, ¬ page.HasEntry v i)
    (hv : v ∈ buildMergedGraph cfg page deltas vi giantDb) (d : VId) :
    d ∈ (buildMergedGraph cfg page deltas vi giantDb).get v ↔
      d ∈ lww ∅ (opsFor v deltas) := by
  have hnil : (replaceGiants vi giantDb (snapshotPage cfg page)).get v = [] := by
    refine get_eq_nil_of_notMem fun hm => ?_
    obtain ⟨i, hi⟩ := mem_snapshotPage.1 (mem_mapLists.1 hm)
    exact hno i hi
  have hempty : {x : VId | x ∈ ([] : List VId)} = ∅ := by simp
  unfold buildMergedGraph at hv ⊢
  rw [get_mapLists (mem_mapLists.1 hv), mem_sortUnique, get_foldl_applyDelta, hnil,
    mem_applyList, hempty]

/-- Every list of the merged graph is sorted and has no duplicates. -/
theorem buildMergedGraph_sorted (hv : v ∈ buildMergedGraph cfg page deltas vi giantDb) :
    ((buildMergedGraph cfg page deltas vi giantDb).get v).Nodup ∧
      ((buildMergedGraph cfg page deltas vi giantDb).get v).insertionSort (· ≤ ·) =
        (buildMergedGraph cfg page deltas vi giantDb).get v := by
  unfold buildMergedGraph at hv ⊢
  rw [get_mapLists (mem_mapLists.1 hv)]
  exact ⟨nodup_sortUnique _, insertionSort_sortUnique _⟩

end BwGraph
