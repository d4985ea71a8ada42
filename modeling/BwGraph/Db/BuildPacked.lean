import BwGraph.Db.Build

/-
  The two builders that pack vertices in the order of their ids. Both place the vertices below the
  giant bound and leave the others to the giant store (`buildSeqDb_placed`,
  `buildCompressedDb_placed`). Each loop keeps how far the vertices seen so far have been placed:
  finished pages, the page being filled, and the giants.
-/

namespace BwGraph

open List Nat

/-- The vertex is too big for a CSR page. -/
def MemGraph.isGiant (cfg : Config) (g : MemGraph) (v : VId) : Bool :=
  decide ((g.neighbors v).length ≥ cfg.giantDegreeBound)

variable {cfg : Config} {g : MemGraph}

/-! ## A segment of the sequential build -/

/-- The vertices `done` of a segment: on the finished pages (`parts`), in the builder (`cur`) or
giant. -/
structure SegmentPacked (cfg : Config) (g : MemGraph) (done : List VId) (parts : List (List VId))
    (cur : List VId) (builder : CsrPageBuilder) (r : SegmentResult) : Prop where
  length : r.pages.length = parts.length
  stores : ∀ (j : Nat) (page : CsrPage) (part : List VId), r.pages[j]? = some page →
    parts[j]? = some part →
    page.Stores cfg (cfg.neighborCompress = false) (part.map fun v => (v, g.neighbors v))
  keys : r.normalVertices.map Prod.fst = parts.flatten
  normal : ∀ (j : Nat) (part : List VId) (i : Nat) (v : VId), parts[j]? = some part →
    part[i]? = some v → (v, j, i) ∈ r.normalVertices
  packs : builder.Packs cfg (fun _ => cfg.edgeSlotCount) (cur.map fun v => (v, g.neighbors v))
  placed : parts.flatten ++ cur = done.filter fun v => !g.isGiant cfg v
  giants : r.giantVertices = done.filter (g.isGiant cfg)

variable {done cur : List VId} {parts : List (List VId)} {builder builder' : CsrPageBuilder}
  {r r' : SegmentResult}

/-- The builder's page is finished. -/
theorem SegmentPacked.addPage (h : SegmentPacked cfg g done parts cur builder r)
    (hn : g.vertexCount ≤ cfg.idLimit) {page : CsrPage} {vm : List (VId × Nat)}
    (hbuild : builder.build cfg = .ok (page, vm, builder')) :
    SegmentPacked cfg g done (parts ++ [cur]) [] builder' (r.addPage page vm) := by
  have hst := h.packs.stores hbuild id (by
    intro _ it hit d hd
    obtain ⟨v, -, rfl⟩ := mem_map.1 hit
    exact Nat.lt_of_lt_of_le (g.neighbors_lt v d hd) hn)
  obtain ⟨-, -, rfl, hb'⟩ := h.packs.build hbuild
  refine ⟨by simp [SegmentResult.addPage, h.length], fun j pg pt hj hj' => ?_, ?_,
    fun j pt i v hj hi => ?_, hb', by simpa using h.placed, h.giants⟩
  · rcases Nat.lt_or_ge j r.pages.length with hlt | hge
    · rw [SegmentResult.addPage, getElem?_append_left hlt] at hj
      rw [getElem?_append_left (h.length ▸ hlt)] at hj'
      exact h.stores j pg pt hj hj'
    · rw [SegmentResult.addPage, getElem?_append_right hge, getElem?_singleton] at hj
      rw [getElem?_append_right (h.length ▸ hge), getElem?_singleton] at hj'
      split_ifs at hj hj'
      cases hj
      cases hj'
      exact hst
  · rw [SegmentResult.addPage, map_append, h.keys, map_map, flatten_append,
      flatten_singleton]
    exact congrArg (parts.flatten ++ ·) hst.vertexMap_fst
  · rw [SegmentResult.addPage, mem_append]
    rcases Nat.lt_or_ge j parts.length with hlt | hge
    · rw [getElem?_append_left hlt] at hj
      exact .inl (h.normal j pt i v hj hi)
    · rw [getElem?_append_right hge, getElem?_singleton] at hj
      split_ifs at hj with hz
      cases hj
      have hj : j = r.pages.length := by rw [h.length]; omega
      rw [hj]
      exact .inr (mem_map.2 ⟨(v, i), hst.mem_vertexMap hi, rfl⟩)

variable {v : VId} {vs : List VId}

/-- The vertex is giant, or it is on the page of the builder, which may be a new one. -/
theorem seqVertex_cases (h : seqVertex cfg g v builder r = .ok (builder', r')) :
    g.isGiant cfg v = true ∧ builder' = builder ∧
        r' = { r with giantVertices := r.giantVertices ++ [v] } ∨
      g.isGiant cfg v = false ∧
        (builder.addVertex cfg v (g.neighbors v) cfg.edgeSlotCount = .ok (some builder') ∧ r' = r ∨
          ∃ page vm b, builder.build cfg = .ok (page, vm, b) ∧ r' = r.addPage page vm ∧
            b.addVertex cfg v (g.neighbors v) cfg.edgeSlotCount = .ok (some builder')) := by
  unfold seqVertex at h
  split_ifs at h with hdeg
  · cases h
    exact .inl ⟨by simpa [MemGraph.isGiant] using hdeg, rfl, rfl⟩
  refine .inr ⟨by simpa [MemGraph.isGiant] using hdeg, ?_⟩
  rcases hadd : builder.addVertex cfg v (g.neighbors v) cfg.edgeSlotCount with e | (_ | b) <;>
    rw [hadd] at h
  · cases h
  · rcases hbuild : builder.build cfg with e | ⟨page, vm, b⟩ <;> simp only [hbuild] at h
    · cases h
    · rcases hadd' : b.addVertex cfg v (g.neighbors v) cfg.edgeSlotCount with e | (_ | b') <;>
        rw [hadd'] at h <;> cases h
      exact .inr ⟨page, vm, b, rfl, rfl, hadd'⟩
  · cases h
    exact .inl ⟨rfl, rfl⟩

theorem seqVertices_nil (h : seqVertices cfg g [] builder r = .ok r') :
    builder.isEmpty = true ∧ r' = r ∨
      ∃ page vm b, builder.build cfg = .ok (page, vm, b) ∧ r' = r.addPage page vm := by
  unfold seqVertices at h
  split_ifs at h with hempty
  · cases h
    exact .inl ⟨hempty, rfl⟩
  · split at h
    · cases h
    · cases h
      exact .inr ⟨_, _, _, ‹_›, rfl⟩

theorem seqVertices_cons (h : seqVertices cfg g (v :: vs) builder r = .ok r') :
    ∃ b r1, seqVertex cfg g v builder r = .ok (b, r1) ∧ seqVertices cfg g vs b r1 = .ok r' := by
  unfold seqVertices at h
  split at h
  · cases h
  · exact ⟨_, _, ‹_›, h⟩

theorem seqSegments_cons {segments : List (List VId)} {rs : List SegmentResult}
    (h : seqSegments cfg g (vs :: segments) = .ok rs) :
    ∃ r rs', seqVertices cfg g vs CsrPageBuilder.init ⟨[], [], []⟩ = .ok r ∧
      seqSegments cfg g segments = .ok rs' ∧ rs = r :: rs' := by
  unfold seqSegments at h
  split at h
  · cases h
  · split at h
    · cases h
    · cases h
      exact ⟨_, _, ‹_›, ‹_›, rfl⟩

section

variable (h : SegmentPacked cfg g done parts cur builder r)
include h

/-- A vertex goes to the builder's page. -/
theorem SegmentPacked.add (hv : g.isGiant cfg v = false)
    (hadd : builder.addVertex cfg v (g.neighbors v) cfg.edgeSlotCount = .ok (some builder')) :
    SegmentPacked cfg g (done ++ [v]) parts (cur ++ [v]) builder' r := by
  refine ⟨h.length, h.stores, h.keys, h.normal, ?_, ?_, ?_⟩
  · simpa using h.packs.addVertex hadd
  · rw [← append_assoc, h.placed, filter_append]
    simp [hv]
  · rw [h.giants, filter_append]
    simp [hv]

theorem SegmentPacked.seqVertex (hn : g.vertexCount ≤ cfg.idLimit)
    (hrun : seqVertex cfg g v builder r = .ok (builder', r')) :
    ∃ parts' cur', SegmentPacked cfg g (done ++ [v]) parts' cur' builder' r' := by
  obtain ⟨hv, rfl, rfl⟩ | ⟨hv, ⟨hadd, rfl⟩ | ⟨page, vm, b, hbuild, rfl, hadd⟩⟩ :=
    seqVertex_cases hrun
  · refine ⟨parts, cur, h.length, h.stores, h.keys, h.normal, h.packs, ?_, ?_⟩
    · rw [h.placed, filter_append]
      simp [hv]
    · rw [h.giants, filter_append]
      simp [hv]
  · exact ⟨_, _, h.add hv hadd⟩
  · exact ⟨_, _, (h.addPage hn hbuild).add hv hadd⟩

end

/-- A whole segment: its normal vertices are on its pages, the others are its giants. -/
theorem SegmentPacked.seqVertices (hn : g.vertexCount ≤ cfg.idLimit)
    (h : SegmentPacked cfg g done parts cur builder r)
    (hrun : seqVertices cfg g vs builder r = .ok r') :
    ∃ parts' builder', SegmentPacked cfg g (done ++ vs) parts' [] builder' r' := by
  induction vs generalizing done parts cur builder r with
  | nil =>
    obtain ⟨hempty, rfl⟩ | ⟨page, vm, b, hbuild, rfl⟩ := seqVertices_nil hrun
    · have hcur : cur = [] := by
        have hlen := congrArg List.length h.packs.entries
        rw [length_lay, isEmpty_iff.1 hempty, length_map] at hlen
        exact length_eq_zero_iff.1 hlen.symm
      subst hcur
      exact ⟨parts, builder, by simpa using h⟩
    · exact ⟨_, b, by simpa using h.addPage hn hbuild⟩
  | cons v vs ih =>
    obtain ⟨b1, r1, hone, hrest⟩ := seqVertices_cons hrun
    obtain ⟨parts1, cur1, h1⟩ := h.seqVertex hn hone
    obtain ⟨parts2, b2, h2⟩ := ih h1 hrest
    exact ⟨parts2, b2, by simpa using h2⟩

theorem SegmentPacked.init : SegmentPacked cfg g [] [] [] CsrPageBuilder.init ⟨[], [], []⟩ :=
  ⟨rfl, fun _ _ _ h => by simp at h, rfl, fun _ _ _ _ h => by simp at h,
    CsrPageBuilder.Packs.init, rfl, rfl⟩

/-! ## All segments -/

variable {pages : List CsrPage} {items : VId → VItem}

/-- The pages of a finished segment behind those placed before. -/
theorem Placed.addSegment {segParts : List (List VId)}
    (h : Placed cfg (cfg.neighborCompress = false) g.neighbors pages items parts)
    (hr : SegmentPacked cfg g done segParts [] builder r)
    (hnodup : (parts.flatten ++ segParts.flatten).Nodup) :
    Placed cfg (cfg.neighborCompress = false) g.neighbors (pages ++ r.pages)
        (indexSegment pages.length r items) (parts ++ segParts) ∧
      ∀ v, v ∉ segParts.flatten → indexSegment pages.length r items v = items v := by
  obtain ⟨-, hnd, hdis⟩ := nodup_append.1 hnodup
  have hkeys : (r.normalVertices.map Prod.fst).Nodup := hr.keys ▸ hnd
  have hupd := foldl_update_apply Prod.fst
    (fun _ x => (⟨⟨x.1, pages.length + x.2.1, x.2.2⟩, .normal, false⟩ : VItem)) r.normalVertices
    hkeys items
  have hout : ∀ v, v ∉ segParts.flatten → indexSegment pages.length r items v = items v :=
    fun v hv => (hupd v).1 (by rw [hr.keys]; exact hv)
  refine ⟨⟨by simp [h.length, hr.length], fun j pg pt hj hj' => ?_, by simpa using hnodup,
    fun j pt i v hj hi => ?_⟩, hout⟩
  · rcases Nat.lt_or_ge j pages.length with hlt | hge
    · rw [getElem?_append_left hlt] at hj
      rw [getElem?_append_left (h.length ▸ hlt)] at hj'
      exact h.stores j pg pt hj hj'
    · rw [getElem?_append_right hge] at hj
      rw [getElem?_append_right (h.length ▸ hge), ← h.length] at hj'
      exact hr.stores _ pg pt hj hj'
  · rcases Nat.lt_or_ge j parts.length with hlt | hge
    · rw [getElem?_append_left hlt] at hj
      have hm : v ∈ parts.flatten :=
        mem_flatten.2 ⟨pt, mem_of_getElem? hj, mem_of_getElem? hi⟩
      rw [hout v fun hm' => hdis v hm v hm' rfl]
      exact h.located j pt i v hj hi
    · rw [getElem?_append_right hge] at hj
      have hm : v ∈ segParts.flatten :=
        mem_flatten.2 ⟨pt, mem_of_getElem? hj, mem_of_getElem? hi⟩
      have hv : g.isGiant cfg v = false := by
        have hp := hr.placed
        rw [append_nil] at hp
        rw [hp, mem_filter] at hm
        simpa using hm.2
      have hval := (hupd v).2 _ (hr.normal _ pt i v hj hi) rfl
      have hdeg : ¬ cfg.giantDegreeBound ≤ (g.neighbors v).length := by
        simpa [MemGraph.isGiant] using hv
      rw [show indexSegment pages.length r items v = _ from hval]
      refine ⟨?_, rfl, rfl, by simp [hdeg]⟩
      show pages.length + (j - parts.length) = j
      rw [h.length]
      exact Nat.add_sub_cancel' hge

theorem seqSegments_placed (hn : g.vertexCount ≤ cfg.idLimit) {segments : List (List VId)}
    {rs : List SegmentResult}
    (h : Placed cfg (cfg.neighborCompress = false) g.neighbors pages items parts)
    (hnodup : (parts.flatten ++ segments.flatten).Nodup)
    (hrun : seqSegments cfg g segments = .ok rs) :
    ∃ parts', Placed cfg (cfg.neighborCompress = false) g.neighbors
        (indexSegments rs pages items).1 (indexSegments rs pages items).2 (parts ++ parts') ∧
      parts'.flatten = segments.flatten.filter (fun v => !g.isGiant cfg v) ∧
      rs.flatMap SegmentResult.giantVertices = segments.flatten.filter (g.isGiant cfg) := by
  induction segments generalizing pages items parts rs with
  | nil =>
    cases hrun
    exact ⟨[], by simpa [indexSegments] using h, rfl, rfl⟩
  | cons vs segments ih =>
    obtain ⟨r, rs', hone, hrest, rfl⟩ := seqSegments_cons hrun
    obtain ⟨segParts, b, hseg⟩ := SegmentPacked.init.seqVertices hn hone
    rw [nil_append] at hseg
    have hflat : segParts.flatten = vs.filter fun v => !g.isGiant cfg v := by
      simpa using hseg.placed
    rw [flatten_cons, ← append_assoc] at hnodup
    have hsub : (segParts.flatten).Sublist vs := hflat ▸ filter_sublist
    obtain ⟨hp, -⟩ := h.addSegment hseg
      ((nodup_append.1 hnodup).1.sublist (hsub.append_left _))
    obtain ⟨parts', hp', hflat', hgiants'⟩ := ih hp
      (by
        rw [flatten_append]
        exact hnodup.sublist ((hsub.append_left _).append_right _)) hrest
    refine ⟨segParts ++ parts', by simpa [indexSegments] using hp', ?_, ?_⟩
    · rw [flatten_append, hflat, hflat', flatten_cons, filter_append]
    · rw [flatMap_cons, hseg.giants, hgiants', flatten_cons, filter_append]

theorem mem_range'_min {s c n v : Nat} :
    v ∈ range' s (min (s + c) n - s) ↔ s ≤ v ∧ v < s + c ∧ v < n := by
  rw [mem_range'_1]
  omega

theorem mem_segmentVertices {t n k : Nat} :
    v ∈ segmentVertices t n k ↔
      k * ((n + t - 1) / t) ≤ v ∧ v < k * ((n + t - 1) / t) + (n + t - 1) / t ∧ v < n :=
  mem_range'_min

theorem le_mul_div_ceil {t : Nat} (n : Nat) (ht : 0 < t) : n ≤ t * ((n + t - 1) / t) := by
  have h1 := div_add_mod (n + t - 1) t
  have h2 := mod_lt (n + t - 1) ht
  omega

theorem mem_block {c v : Nat} (hc : 0 < c) : v / c * c ≤ v ∧ v < v / c * c + c := by
  have h1 := div_add_mod v c
  have h2 := mod_lt v hc
  rw [Nat.mul_comm] at h1
  omega

/-- The segments of the ids below `n`: every id is in one, and in no other. -/
theorem segments_nodup (t n : Nat) : ((range t).map (segmentVertices t n)).flatten.Nodup := by
  rw [← flatMap_def, nodup_flatMap]
  refine ⟨fun k _ => nodup_range', ?_⟩
  refine nodup_range.imp ?_
  intro a b hab v ha hb
  obtain ⟨ha1, ha2, -⟩ := mem_segmentVertices.1 ha
  obtain ⟨hb1, hb2, -⟩ := mem_segmentVertices.1 hb
  rw [← succ_mul] at ha2 hb2
  have hlt1 := Nat.lt_of_mul_lt_mul_right (Nat.lt_of_le_of_lt ha1 hb2)
  have hlt2 := Nat.lt_of_mul_lt_mul_right (Nat.lt_of_le_of_lt hb1 ha2)
  exact hab (by omega)

theorem mem_segments {t n : Nat} (ht : 0 < t) :
    v ∈ ((range t).map (segmentVertices t n)).flatten ↔ v < n := by
  rw [← flatMap_def, mem_flatMap]
  constructor
  · rintro ⟨k, -, hv⟩
    exact (mem_segmentVertices.1 hv).2.2
  · intro hv
    have hn := le_mul_div_ceil n ht
    have hc : 0 < (n + t - 1) / t := by
      refine Nat.pos_of_ne_zero fun h0 => ?_
      rw [h0, Nat.mul_zero] at hn
      exact absurd (Nat.lt_of_lt_of_le hv hn) (Nat.not_lt_zero v)
    refine ⟨v / ((n + t - 1) / t), ?_, ?_⟩
    · rw [mem_range]
      exact Nat.div_lt_of_lt_mul (Nat.mul_comm t _ ▸ Nat.lt_of_lt_of_le hv hn)
    · exact mem_segmentVertices.2 ⟨(mem_block hc).1, (mem_block hc).2, hv⟩

/-- `build_seq_db` in the raw build: the vertices below the giant bound have CSR entries. -/
theorem buildSeqDb_placed {env : BuildEnv} {numThreads : Nat} {db : Db}
    (hn : g.vertexCount ≤ cfg.idLimit) (ht : 0 < numThreads)
    (hraw : cfg.neighborCompress = false) (h : buildSeqDb cfg env numThreads g = .ok db) :
    PlacedDb cfg g {v | v < g.vertexCount ∧ g.isGiant cfg v = false} db := by
  unfold buildSeqDb at h
  set segments := (range numThreads).map (segmentVertices numThreads g.vertexCount)
  cases hrun : seqSegments cfg g segments with
  | error e => rw [hrun] at h; cases h
  | ok rs =>
    rw [hrun] at h
    cases h
    obtain ⟨parts, hp, hflat, hgiants⟩ := seqSegments_placed hn (Placed.nil VItem.init)
      (by simpa using segments_nodup numThreads g.vertexCount) hrun
    rw [nil_append] at hp
    have hmem : ∀ v, v ∈ parts.flatten ↔ v < g.vertexCount ∧ g.isGiant cfg v = false := by
      intro v
      rw [hflat, mem_filter, mem_segments ht]
      simp
    have hgm : ∀ v, v ∈ rs.flatMap SegmentResult.giantVertices ↔
        v < g.vertexCount ∧ g.isGiant cfg v = true := by
      intro v
      rw [hgiants, mem_filter, mem_segments ht]
    have hgnd : (rs.flatMap SegmentResult.giantVertices).Nodup := by
      rw [hgiants]
      exact (segments_nodup _ _).filter _
    have hupd := foldl_update_apply id
      (fun _ v => (⟨⟨v, 0, 0⟩, .giant, false⟩ : VItem))
      (rs.flatMap SegmentResult.giantVertices) (by simpa using hgnd)
      (indexSegments rs [] VItem.init).2
    have hp' : Placed cfg (cfg.neighborCompress = false) g.neighbors
        (indexSegments rs [] VItem.init).1
        (indexGiants (rs.flatMap SegmentResult.giantVertices) (indexSegments rs [] VItem.init).2)
        parts := by
      refine ⟨hp.length, hp.stores, hp.nodup, fun j pt i v hj hi => ?_⟩
      have hv : v ∈ parts.flatten :=
        mem_flatten.2 ⟨pt, mem_of_getElem? hj, mem_of_getElem? hi⟩
      have hng : v ∉ rs.flatMap SegmentResult.giantVertices := by
        rw [hgm, ((hmem v).1 hv).2]
        simp
      rw [show indexGiants _ _ v = _ from (hupd v).1 (by simpa using hng)]
      exact hp.located j pt i v hj hi
    refine ⟨env, _, g.neighbors, _, _, parts, rs.flatMap SegmentResult.giantVertices, rfl, hp', hraw,
      fun _ => List.Perm.refl _, Set.ext hmem, fun v hv => ((hmem v).1 hv).1, fun v hv => ?_,
      fun v hv hm => ?_⟩
    · rw [hgm]
      simp [hv, MemGraph.isGiant]
    · have hg : g.isGiant cfg v = true := by
        by_contra hc
        exact hm ((hmem v).2 ⟨hv, by simpa using hc⟩)
      have hval := (hupd v).2 v ((hgm v).2 ⟨hv, hg⟩) rfl
      rw [show indexGiants _ _ v = _ from hval]
      exact ⟨by simpa [MemGraph.isGiant] using hg, rfl, rfl⟩

/-! ## The batches of the compressed build -/

/-- The list the compressed build stores for a vertex. -/
def sortedNeighbors (g : MemGraph) (v : VId) : List VId := (g.neighbors v).insertionSort (· ≤ ·)

/-- The vertices `done` so far: on the finished pages, in the current batch or giant. -/
structure Batched (cfg : Config) (g : MemGraph) (done : List VId) (parts : List (List VId))
    (st : BatchState) : Prop where
  placed : Placed cfg True (sortedNeighbors g) st.pages st.items parts
  batch : ∀ x ∈ st.currentBatch, x.2 = sortedNeighbors g x.1
  perm : (parts.flatten ++ st.currentBatch.map Prod.fst).Perm
    (done.filter fun v => !g.isGiant cfg v)
  giants : st.giants = done.filter (g.isGiant cfg)
  nodup : done.Nodup
  giantItems : ∀ v ∈ done, g.isGiant cfg v = true →
    (st.items v).vertexType = .giant ∧ (st.items v).isDelete = false
  otherItems : ∀ v, (v ∈ done → g.isGiant cfg v = false) → v ∉ parts.flatten →
    st.items v = VItem.init v

theorem get_foldl_batch (batch : List (VId × List VId)) (hnd : (batch.map Prod.fst).Nodup)
    (m : AdjMap) {l : List VId} (hv : (v, l) ∈ batch) :
    (batch.foldl (fun m x => m.insert x.1 x.2) m : AdjMap).get v = l := by
  induction batch generalizing m with
  | nil => cases hv
  | cons x batch ih =>
    rw [map_cons, nodup_cons] at hnd
    rw [foldl_cons]
    rcases mem_cons.1 hv with rfl | hv
    · -- the later insertions are of other vertices
      have hkeep : ∀ (b : List (VId × List VId)) (m : AdjMap), v ∉ b.map Prod.fst →
          (b.foldl (fun m x => m.insert x.1 x.2) m : AdjMap).get v = m.get v := by
        intro b
        induction b with
        | nil => intro m _; rfl
        | cons y b ihb =>
          intro m hy
          rw [map_cons, mem_cons, not_or] at hy
          rw [foldl_cons, ihb _ hy.2, AdjMap.get_insert_ne _ _ hy.1]
      rw [hkeep batch _ hnd.1, AdjMap.get_insert_self]
    · exact ih hnd.2 _ hv

theorem length_sortedNeighbors (g : MemGraph) (v : VId) :
    (sortedNeighbors g v).length = (g.neighbors v).length :=
  (perm_insertionSort _ _).length_eq

variable {st st' : BatchState} {env : BuildEnv}

theorem Batched.batch_nodup (h : Batched cfg g done parts st) :
    (parts.flatten ++ st.currentBatch.map Prod.fst).Nodup :=
  h.perm.nodup_iff.2 (h.nodup.filter _)

/-- A flush puts the batch on a page. -/
theorem Batched.flush (h : Batched cfg g done parts st) (hn : g.vertexCount ≤ cfg.idLimit)
    (hrun : flushBatch cfg env st = .ok st') :
    ∃ parts', Batched cfg g done parts' st' ∧ st'.currentBatch = [] := by
  unfold flushBatch at hrun
  split_ifs at hrun with hempty
  · cases hrun
    exact ⟨parts, h, isEmpty_iff.1 hempty⟩
  set keys := st.currentBatch.map Prod.fst
  obtain ⟨-, hnd, hdis⟩ := nodup_append.1 h.batch_nodup
  have hperm := env.order.perm keys
  -- every vertex of the batch is stored with its sorted list
  have hview : (env.order.order keys).map (fun v =>
      (v, AdjMap.get (st.currentBatch.foldl (fun m x => m.insert x.1 x.2) ∅) v)) =
      (env.order.order keys).map fun v => (v, sortedNeighbors g v) := by
    refine map_congr_left fun v hv => ?_
    obtain ⟨⟨w, l⟩, hx, rfl⟩ := mem_map.1 (hperm.mem_iff.1 hv)
    have hl : l = sortedNeighbors g w := h.batch _ hx
    rw [get_foldl_batch _ hnd _ hx, hl]
  simp only [hview] at hrun
  cases hbuild : buildFromAdjacencyMap cfg (fun _ => 0)
      ((env.order.order keys).map fun v => (v, sortedNeighbors g v)) with
  | error e => rw [hbuild] at hrun; cases hrun
  | ok x =>
    obtain ⟨page, vm⟩ := x
    obtain ⟨hlaid, rfl⟩ := buildFromAdjacencyMap_ok hbuild
    simp only [hbuild] at hrun
    cases hrun
    have hst := hlaid.stores (by
      intro (_ : True) it hit d hd
      obtain ⟨v, -, rfl⟩ := mem_map.1 hit
      rw [sortedNeighbors, mem_insertionSort] at hd
      exact Nat.lt_of_lt_of_le (g.neighbors_lt v d hd) hn)
    have hvm : ((vertexMap page.vertexSpan).map Prod.fst).Nodup := by
      rw [hst.vertexMap_fst]
      exact hperm.nodup_iff.2 hnd
    have hupd := foldl_update_apply Prod.fst
      (fun it x => ({ it with cur := ⟨x.1, st.pages.length, x.2⟩ } : VItem))
      (vertexMap page.vertexSpan) hvm st.items
    have hout : ∀ v, v ∉ keys →
        indexBatch st.pages.length (vertexMap page.vertexSpan) st.items v = st.items v :=
      fun v hv => (hupd v).1 (by rw [hst.vertexMap_fst, hperm.mem_iff]; exact hv)
    have hnew : ∀ v ∈ keys, v ∈ done ∧ g.isGiant cfg v = false := by
      intro v hv
      have hm := h.perm.mem_iff.1 (mem_append_right _ hv)
      rw [mem_filter] at hm
      exact ⟨hm.1, by simpa using hm.2⟩
    refine ⟨parts ++ [env.order.order keys], ⟨h.placed.snoc hst ?_ ?_ ?_, by simp, ?_, h.giants,
      h.nodup, ?_, ?_⟩, rfl⟩
    · exact (hperm.append_left _).nodup_iff.2 h.batch_nodup
    · exact fun v hv => hout v fun hm => hdis v hv v hm rfl
    · intro i v hi
      have hv := hperm.mem_iff.1 (mem_of_getElem? hi)
      have hval : indexBatch st.pages.length (vertexMap page.vertexSpan) st.items v =
          { VItem.init v with cur := ⟨v, st.pages.length, i⟩ } := by
        rw [← h.otherItems v (fun _ => (hnew v hv).2) fun hm => hdis v hm v hv rfl]
        exact (hupd v).2 _ (hst.mem_vertexMap hi) rfl
      dsimp only
      rw [hval]
      have hdeg : ¬ cfg.giantDegreeBound ≤ (sortedNeighbors g v).length := by
        rw [length_sortedNeighbors]
        simpa [MemGraph.isGiant] using (hnew v hv).2
      exact ⟨rfl, rfl, rfl, by simp [VItem.init, hdeg]⟩
    · rw [flatten_append, flatten_singleton, map_nil, append_nil]
      exact (hperm.append_left _).trans h.perm
    · intro v hv hg
      dsimp only
      rw [hout v fun hm => by simp [(hnew v hm).2] at hg]
      exact h.giantItems v hv hg
    · intro v hv hm
      rw [flatten_append, flatten_singleton, mem_append, not_or,
        hperm.mem_iff] at hm
      dsimp only
      rw [hout v hm.2]
      exact h.otherItems v hv hm.1

theorem Batched.batchVertex (h : Batched cfg g done parts st) (hn : g.vertexCount ≤ cfg.idLimit)
    (hv : v ∉ done) (hrun : batchVertex cfg env g st v = .ok st') :
    ∃ parts', Batched cfg g (done ++ [v]) parts' st' := by
  have hnodup : (done ++ [v]).Nodup := by
    rw [nodup_append]
    exact ⟨h.nodup, by simp, fun a ha b hb => by
      rw [mem_singleton.1 hb]; exact fun he => hv (he ▸ ha)⟩
  unfold BwGraph.batchVertex at hrun
  by_cases hdeg : (g.neighbors v).length ≥ cfg.giantDegreeBound
  · simp only [hdeg, if_true] at hrun
    have hg : g.isGiant cfg v = true := by simpa [MemGraph.isGiant] using hdeg
    cases hrun
    have hvp : ∀ w ∈ parts.flatten, w ≠ v := by
      rintro w hw rfl
      have hm := h.perm.mem_iff.1 (mem_append_left _ hw)
      exact hv (mem_filter.1 hm).1
    refine ⟨parts, ⟨h.placed.length, h.placed.stores, h.placed.nodup, fun j pt i w hj hi => ?_⟩,
      h.batch, ?_, ?_, hnodup, ?_, ?_⟩
    · have hw := hvp w (mem_flatten.2 ⟨pt, mem_of_getElem? hj, mem_of_getElem? hi⟩)
      dsimp only
      rw [Function.update_of_ne hw]
      exact h.placed.located j pt i w hj hi
    · rw [filter_append]
      simpa [hg] using h.perm
    · rw [h.giants, filter_append]
      simp [hg]
    · intro w hw hgw
      by_cases hwv : w = v
      · subst hwv
        dsimp only
        rw [Function.update_self]
        have hinit := h.otherItems w (fun hc => absurd hc hv) fun hc => hvp w hc rfl
        exact ⟨rfl, by rw [hinit]; rfl⟩
      · dsimp only
        rw [Function.update_of_ne hwv]
        exact h.giantItems w (by simpa [hwv] using hw) hgw
    · intro w hw hm
      have hwv : w ≠ v := by
        rintro rfl
        simp [hw (by simp)] at hg
      dsimp only
      rw [Function.update_of_ne hwv]
      exact h.otherItems w (fun hc => hw (mem_append_left _ hc)) hm
  · simp only [hdeg, if_false] at hrun
    have hg : g.isGiant cfg v = false := by simpa [MemGraph.isGiant] using hdeg
    -- one more vertex in the batch of `st1`, which is `st` or `st` flushed
    have hadd : ∀ (st1 : BatchState) (parts1 : List (List VId)), Batched cfg g done parts1 st1 →
        Batched cfg g (done ++ [v]) parts1 { st1 with
          currentBatch := st1.currentBatch ++ [(v, (g.neighbors v).insertionSort (· ≤ ·))]
          currentBatchBytes := st1.currentBatchBytes +
            (csrVertexBytes + (g.neighbors v).length * 4) } := by
      intro st1 parts1 h1
      refine ⟨h1.placed, ?_, ?_, ?_, hnodup, ?_, ?_⟩
      · intro x hx
        rcases mem_append.1 hx with hx | hx
        · exact h1.batch x hx
        · rw [mem_singleton.1 hx]
          rfl
      · rw [map_append, ← append_assoc, filter_append]
        simpa [hg] using h1.perm.append_right [v]
      · rw [h1.giants, filter_append]
        simp [hg]
      · intro w hw hgw
        have hwv : w ≠ v := by
          rintro rfl
          simp [hg] at hgw
        exact h1.giantItems w (by simpa [hwv] using hw) hgw
      · intro w hw hm
        exact h1.otherItems w (fun hc => hw (mem_append_left _ hc)) hm
    by_cases hfull : (!st.currentBatch.isEmpty) = true ∧
        st.currentBatchBytes + (csrVertexBytes + (g.neighbors v).length * 4) > cfg.pageSize
    · simp only [hfull, and_self, if_true] at hrun
      cases hflush : flushBatch cfg env st with
      | error e => rw [hflush] at hrun; cases hrun
      | ok st1 =>
        rw [hflush] at hrun
        cases hrun
        obtain ⟨parts1, h1, -⟩ := h.flush hn hflush
        exact ⟨parts1, hadd st1 parts1 h1⟩
    · simp only [hfull, if_false] at hrun
      cases hrun
      exact ⟨parts, hadd st parts h⟩

theorem Batched.batchVertices (hn : g.vertexCount ≤ cfg.idLimit) (h : Batched cfg g done parts st)
    (hnd : (done ++ vs).Nodup) (hrun : batchVertices cfg env g vs st = .ok st') :
    ∃ parts', Batched cfg g (done ++ vs) parts' st' ∧ st'.currentBatch = [] := by
  induction vs generalizing done parts st with
  | nil =>
    obtain ⟨parts', h', he⟩ := h.flush hn hrun
    exact ⟨parts', by simpa using h', he⟩
  | cons v vs ih =>
    unfold BwGraph.batchVertices at hrun
    cases hone : BwGraph.batchVertex cfg env g st v with
    | error e => rw [hone] at hrun; cases hrun
    | ok st1 =>
      rw [hone] at hrun
      have hv : v ∉ done := fun hm => (nodup_append.1 hnd).2.2 v hm v mem_cons_self rfl
      obtain ⟨parts1, h1⟩ := h.batchVertex hn hv hone
      obtain ⟨parts2, h2, he⟩ := ih h1 (by simpa using hnd) hrun
      exact ⟨parts2, by simpa using h2, he⟩

/-- `build_compressed_db`, in both builds. -/
theorem buildCompressedDb_placed {db : Db} (hn : g.vertexCount ≤ cfg.idLimit)
    (h : buildCompressedDb cfg env g = .ok db) :
    PlacedDb cfg g {v | v < g.vertexCount ∧ g.isGiant cfg v = false} db := by
  unfold buildCompressedDb at h
  cases hrun : BwGraph.batchVertices cfg env g (range g.vertexCount)
      ⟨[], cfg.headerBytes, [], VItem.init, []⟩ with
  | error e => rw [hrun] at h; cases h
  | ok st =>
    rw [hrun] at h
    cases h
    have h0 : Batched cfg g [] [] ⟨[], cfg.headerBytes, [], VItem.init, []⟩ :=
      ⟨Placed.nil _, by simp, by simp, rfl, nodup_nil, by simp, fun _ _ _ => rfl⟩
    obtain ⟨parts, hb, hempty⟩ := h0.batchVertices hn (by simpa using nodup_range) hrun
    rw [nil_append] at hb
    have hperm := hb.perm
    rw [hempty, map_nil, append_nil] at hperm
    have hmem : ∀ v, v ∈ parts.flatten ↔ v < g.vertexCount ∧ g.isGiant cfg v = false := by
      intro v
      rw [hperm.mem_iff, mem_filter, mem_range]
      simp
    refine ⟨env, True, sortedNeighbors g, _, _, parts, st.giants, rfl, hb.placed, trivial,
      fun v => perm_insertionSort _ (g.neighbors v), Set.ext hmem,
      fun v hv => ((hmem v).1 hv).1, fun v hv => ?_, fun v hv hm => ?_⟩
    · rw [hb.giants, mem_filter, mem_range]
      simp [hv, MemGraph.isGiant]
    · have hg : g.isGiant cfg v = true := by
        by_contra hc
        exact hm ((hmem v).2 ⟨hv, by simpa using hc⟩)
      exact ⟨by simpa [MemGraph.isGiant] using hg, hb.giantItems v (mem_range.2 hv) hg⟩

end BwGraph
