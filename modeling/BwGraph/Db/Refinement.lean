import BwGraph.Db.BuildPacked

/-
  Sequential runs over a database whose every vertex has a CSR entry, as `build_standard_db` lays
  it out. A read returns the last-writer-wins set of the loaded neighbours and the operations so
  far (`readNeighborClone_refines_lww`), as long as no consolidation of a compressed build has to
  split: the page builder of a split writes raw words, which the readers of that build decode as
  PTV bytes.

  The other two builds keep giant vertices in the giant store only, under a location that names
  page 0. The same holds for them while no insertion on such a vertex is merged
  (`readNeighborClone_packed`).

  As a list, a read has no duplicates and survives a consolidation up to order when no neighbour
  of the base list is inserted again (`readNeighborClone_nodup`).
-/

namespace BwGraph

open Lww

variable {cfg : Config} {db db' db0 : Db}

/-! ## Reads as sets -/

/-- Along every run in which each replacement can be read back, a read of `v` returns the
last-writer-wins set of the loaded neighbours and the operations on `v`. -/
theorem readNeighborClone_refines_lww (h0 : Loaded cfg {v | v < db0.vertexIndex.size} db0)
    {es : List DbEvent} (run : Steps (guarded (ReadableStep cfg) (SeqStep cfg)) db0 es db) {v : VId}
    (hv : v < db0.vertexIndex.size) :
    Reads cfg db v (Lww.lww {d | d ∈ db0.base cfg v} (opsIn v es)) := by
  have h := h0.tracked.readableSteps run
  exact h.inv.reads (h.size.symm ▸ hv)

/-- Four vertices on one page of 100 bytes, filled up to the estimate. -/
def smallGraph : MemGraph := .ofLists [[1, 2], [2, 3], [0, 1], [0, 1, 2]] (by decide)

/-- Pages of 100 bytes and of three delta records. -/
def smallConfig (neighborCompress : Bool) : Config := ⟨100, 120, 0, 50, 1, 0, neighborCompress⟩

/-- The loaded database of the small graph. -/
def smallDb (neighborCompress : Bool) : Db :=
  (buildStandardDb (smallConfig neighborCompress) ⟨.listed, 0, 0⟩ smallGraph
    [[0, 1, 2, 3]]).toOption.getD
    (loadedDb (smallConfig neighborCompress) ⟨.listed, 0, 0⟩ smallGraph [] VItem.init [])

theorem smallDb_built (neighborCompress : Bool) :
    buildStandardDb (smallConfig neighborCompress) ⟨.listed, 0, 0⟩ smallGraph [[0, 1, 2, 3]] =
      .ok (smallDb neighborCompress) := by
  unfold smallDb
  cases h : buildStandardDb (smallConfig neighborCompress) ⟨.listed, 0, 0⟩ smallGraph
      [[0, 1, 2, 3]] with
  | ok db => rfl
  | error e =>
    have hsome : (buildStandardDb (smallConfig neighborCompress) ⟨.listed, 0, 0⟩ smallGraph
        [[0, 1, 2, 3]]).toOption.isSome = true := by
      cases neighborCompress <;> decide +kernel
    rw [h] at hsome
    cases hsome

theorem smallDb_loaded (neighborCompress : Bool) :
    Loaded (smallConfig neighborCompress) {v | v < (smallDb neighborCompress).vertexIndex.size}
      (smallDb neighborCompress) := by
  have hpos : 0 < (smallConfig neighborCompress).pageSize ∧
      0 < (smallConfig neighborCompress).deltaPageSize ∧
      smallGraph.vertexCount ≤ (smallConfig neighborCompress).idLimit := by
    cases neighborCompress <;> decide
  obtain ⟨h1, h2, -⟩ := buildStandardDb_loaded hpos.1 hpos.2.1 hpos.2.2 (List.Perm.refl _)
    (smallDb_built neighborCompress)
  rw [h2]
  exact h1

/-- The small database after `insert_edge(0, 3)`. -/
def smallInserted (neighborCompress : Bool) : Db :=
  (insertEdge (smallConfig neighborCompress) 0 3 0 (smallDb neighborCompress)).state

/-- ... and after the consolidation of its page, which has to split. -/
def smallMerged (neighborCompress : Bool) : Db :=
  (consolidatePages (smallConfig neighborCompress) .smooth 0 (smallInserted neighborCompress)).state

variable (neighborCompress : Bool)

theorem smallDb_inserts :
    insertEdge (smallConfig neighborCompress) 0 3 0 (smallDb neighborCompress) =
      .ok true (smallInserted neighborCompress) :=
  EStateM.Result.eq_ok_of_value? (by cases neighborCompress <;> decide +kernel)

theorem smallInserted_merges :
    consolidatePages (smallConfig neighborCompress) .smooth 0 (smallInserted neighborCompress) =
      .ok .published (smallMerged neighborCompress) :=
  EStateM.Result.eq_ok_of_value? (by cases neighborCompress <;> decide +kernel)

/-- The run of the raw build, whose pages are always readable. -/
theorem readNeighborClone_refines_lww_small :
    Reads (smallConfig false) (smallMerged false) 0
      (Lww.lww {d | d ∈ (smallDb false).base (smallConfig false) 0} [.insert 3]) := by
  have run : Steps (guarded (ReadableStep (smallConfig false)) (SeqStep (smallConfig false)))
      (smallDb false) ([] ++ [.insertEdge 0 3 0] ++ [.consolidate 0 .smooth]) (smallMerged false) :=
    .snoc (.snoc .nil ⟨trivial, .insertEdge (smallDb_inserts false)⟩)
      ⟨fun _ => .inl rfl, .consolidate (smallInserted_merges false)⟩
  exact readNeighborClone_refines_lww (smallDb_loaded false) run (by decide +kernel)

variable {v : VId}

/-- A list that misses or adds an element does not return the set. -/
theorem not_reads {base : List VId} {ops : List (Lww.Op VId)} (fuel : Nat) {r : List VId}
    (hr : readNeighborClone cfg fuel db v = some r) (d : VId)
    (hd : ¬ (d ∈ r ↔ d ∈ applyList base ops)) :
    ¬ Reads cfg db v (lww {x | x ∈ base} ops) := by
  rintro ⟨r', hr', hset⟩
  have he := (returns_of_fuel hr).unique hr'
  subst he
  refine hd ?_
  rw [mem_applyList, ← hset]
  rfl

/-- In the compressed build the same run loses the neighbour 2 of vertex 0. -/
theorem readNeighborClone_compressed_split :
    ¬ ∀ (cfg : Config) (db0 : Db), Loaded cfg {v | v < db0.vertexIndex.size} db0 →
      ∀ (es : List DbEvent) (db : Db), Steps (SeqStep cfg) db0 es db →
      ∀ v, v < db0.vertexIndex.size →
        Reads cfg db v (Lww.lww {d | d ∈ db0.base cfg v} (opsIn v es)) := by
  intro h
  have hread := h (smallConfig true) (smallDb true) (smallDb_loaded true)
    ([] ++ [.insertEdge 0 3 0] ++ [.consolidate 0 .smooth]) (smallMerged true)
    (.snoc (.snoc .nil (.insertEdge (smallDb_inserts true)))
      (.consolidate (smallInserted_merges true))) 0 (by decide +kernel)
  have hgot : readNeighborClone (smallConfig true) 0 (smallMerged true) 0 = some [1, 0, 0] := by
    decide +kernel
  exact not_reads 0 hgot 2 (by decide +kernel) hread

/-! ## Giant vertices without entries -/

/-- The database was loaded by `build_seq_db`, which packs raw pages, or by
`build_compressed_db`. -/
def PackedBuild (cfg : Config) (g : MemGraph) (db : Db) : Prop :=
  (cfg.neighborCompress = false ∧ ∃ (env : BuildEnv) (numThreads : Nat), 0 < numThreads ∧
      buildSeqDb cfg env numThreads g = .ok db) ∨
    ∃ env : BuildEnv, buildCompressedDb cfg env g = .ok db

/-- The result of a build with `build_seq_db` that does not fail. -/
theorem PackedBuild.seq {cfg : Config} {g : MemGraph} (hraw : cfg.neighborCompress = false)
    (env : BuildEnv) {numThreads : Nat} (hpos : 0 < numThreads)
    (h : (buildSeqDb cfg env numThreads g).toOption.isSome = true) (db : Db) :
    PackedBuild cfg g ((buildSeqDb cfg env numThreads g).toOption.getD db) := by
  refine .inl ⟨hraw, env, numThreads, hpos, ?_⟩
  cases hbuild : buildSeqDb cfg env numThreads g with
  | ok db => rfl
  | error e =>
    rw [hbuild] at h
    cases h

/-- The vertices that these builds give a CSR entry: those below the giant degree bound. -/
def MemGraph.pagedVertices (cfg : Config) (g : MemGraph) : Set VId :=
  {v | v < g.vertexCount ∧ g.isGiant cfg v = false}

instance (cfg : Config) (g : MemGraph) (v : VId) : Decidable (v ∈ g.pagedVertices cfg) :=
  inferInstanceAs (Decidable (v < g.vertexCount ∧ g.isGiant cfg v = false))

theorem PackedBuild.placed {g : MemGraph} (hn : g.vertexCount ≤ cfg.idLimit)
    (h : PackedBuild cfg g db) : PlacedDb cfg g (g.pagedVertices cfg) db := by
  rcases h with ⟨hraw, env, numThreads, ht, h⟩ | ⟨env, h⟩
  · exact buildSeqDb_placed hn ht hraw h
  · exact buildCompressedDb_placed hn h

theorem PackedBuild.loaded {g : MemGraph} (hps : 0 < cfg.pageSize) (hds : 0 < cfg.deltaPageSize)
    (hn : g.vertexCount ≤ cfg.idLimit) (h : PackedBuild cfg g db) :
    Loaded cfg (g.pagedVertices cfg) db ∧ db.vertexIndex.size = g.vertexCount ∧
      ∀ v, v < g.vertexCount → loadedNbrs cfg db v = {d | d ∈ g.neighbors v} :=
  (h.placed hn).loaded hps hds hn

/-- Along every run that consolidates pages of vertices with entries only, and never while an
insertion on a giant vertex without entry is pending there, a read of every vertex, giant or not,
returns the last-writer-wins set of its loaded neighbours. -/
theorem readNeighborClone_packed {g : MemGraph} (hps : 0 < cfg.pageSize)
    (hds : 0 < cfg.deltaPageSize) (hn : g.vertexCount ≤ cfg.idLimit)
    (hb : PackedBuild cfg g db0) {es : List DbEvent}
    (run : Steps (guarded (MergeStep cfg (g.pagedVertices cfg)) (SeqStep cfg)) db0 es db) {v : VId}
    (hv : v < g.vertexCount) : Reads cfg db v (Lww.lww {d | d ∈ g.neighbors v} (opsIn v es)) := by
  obtain ⟨h0, hsize, hnbrs⟩ := hb.loaded hps hds hn
  have h := h0.tracked.steps run
  rw [hsize] at h
  rw [← hnbrs v hv]
  exact h.inv.reads (h.size.symm ▸ hv)

/-- The layout does not matter: `build_standard_db` and one of the other builds load the same graph,
each with its own configuration, and after runs with the same newest operation on every neighbour of
`v` both return the same set. -/
theorem readNeighborClone_layout {cfg cfg' : Config} {g : MemGraph} {env : BuildEnv}
    {partition : List (List VId)} {db0 db db0' db' : Db} (hps : 0 < cfg.pageSize)
    (hds : 0 < cfg.deltaPageSize) (hn : g.vertexCount ≤ cfg.idLimit)
    (hpart : partition.flatten.Perm (List.range g.vertexCount))
    (hb : buildStandardDb cfg env g partition = .ok db0) (hps' : 0 < cfg'.pageSize)
    (hds' : 0 < cfg'.deltaPageSize) (hn' : g.vertexCount ≤ cfg'.idLimit)
    (hb' : PackedBuild cfg' g db0') {es es' : List DbEvent}
    (run : Steps (guarded (ReadableStep cfg) (SeqStep cfg)) db0 es db)
    (run' : Steps (guarded (MergeStep cfg' (g.pagedVertices cfg')) (SeqStep cfg')) db0' es' db')
    {v : VId} (hv : v < g.vertexCount)
    (hops : ∀ d, newest d (opsIn v es).reverse = newest d (opsIn v es').reverse) :
    ∃ s, Reads cfg db v s ∧ Reads cfg' db' v s := by
  obtain ⟨h0, hsize, hnbrs⟩ := buildStandardDb_loaded hps hds hn hpart hb
  obtain ⟨h0', hsize', hnbrs'⟩ := hb'.loaded hps' hds' hn'
  rw [← hsize] at h0
  have h := h0.tracked.readableSteps run
  have h' := h0'.tracked.steps run'
  have hread := h.inv.reads (v := v) (by rw [h.size, hsize]; exact hv)
  have hread' := h'.inv.reads (v := v) (by rw [h'.size, hsize']; exact hv)
  have heq : nbrsAfter (loadedNbrs cfg db0) es v = nbrsAfter (loadedNbrs cfg' db0') es' v := by
    ext d
    unfold nbrsAfter
    rw [hnbrs v hv, hnbrs' v hv, ← List.reverse_reverse (opsIn v es),
      ← List.reverse_reverse (opsIn v es'), mem_lww_reverse, mem_lww_reverse, hops d]
  exact ⟨_, hread, heq ▸ hread'⟩

/-- One run merges the insertion and splits the page, the other one only inserts. -/
theorem readNeighborClone_layout_small :
    ∃ s, Reads (smallConfig false) (smallMerged false) 0 s ∧ ∃ db, Reads (smallConfig false) db 0 s := by
  let packed := (buildSeqDb (smallConfig false) ⟨.listed, 0, 0⟩ 1 smallGraph).toOption.getD
    (smallDb false)
  have hb' : PackedBuild (smallConfig false) smallGraph packed :=
    .seq rfl ⟨.listed, 0, 0⟩ Nat.one_pos (by decide +kernel) _
  have hins : insertEdge (smallConfig false) 0 3 0 packed =
      .ok true (insertEdge (smallConfig false) 0 3 0 packed).state :=
    EStateM.Result.eq_ok_of_value? (by decide +kernel)
  have run : Steps (guarded (ReadableStep (smallConfig false)) (SeqStep (smallConfig false)))
      (smallDb false) ([] ++ [.insertEdge 0 3 0] ++ [.consolidate 0 .smooth]) (smallMerged false) :=
    .snoc (.snoc .nil ⟨trivial, .insertEdge (smallDb_inserts false)⟩)
      ⟨fun _ => .inl rfl, .consolidate (smallInserted_merges false)⟩
  have run' : Steps (guarded (MergeStep (smallConfig false) (smallGraph.pagedVertices
      (smallConfig false))) (SeqStep (smallConfig false))) packed [.insertEdge 0 3 0] _ :=
    .cons ⟨trivial, .insertEdge hins⟩ .nil
  obtain ⟨s, h, h'⟩ := readNeighborClone_layout (by decide) (by decide) (by decide)
    (List.Perm.refl _) (smallDb_built false) (by decide) (by decide) (by decide) hb' run run'
    (v := 0) (by decide) fun d => rfl
  exact ⟨s, h, _, h'⟩

/-- Vertex 3 has three neighbours, which makes it giant. -/
def giantGraph : MemGraph := .ofLists [[1], [2], [0], [0, 1, 2], [0]] (by decide)

/-- Pages of 100 bytes, a giant degree bound of three. -/
def giantConfig : Config := ⟨100, 120, 0, 3, 1, 0, false⟩

/-- The loaded database of the giant graph. -/
def giantDb : Db :=
  (buildSeqDb giantConfig ⟨.listed, 0, 0⟩ 1 giantGraph).toOption.getD
    (loadedDb giantConfig ⟨.listed, 0, 0⟩ giantGraph [] VItem.init [])

theorem giantDb_built : PackedBuild giantConfig giantGraph giantDb :=
  .seq rfl ⟨.listed, 0, 0⟩ Nat.one_pos (by decide +kernel) _

/-- The database after `insert_edge(src, 4)`. -/
def giantInserted (src : VId) : Db := (insertEdge giantConfig src 4 0 giantDb).state

/-- ... and after the consolidation of page 0. -/
def giantMerged (src : VId) : Db :=
  (consolidatePages giantConfig .smooth 0 (giantInserted src)).state

/-- An insertion on vertex 0, which has an entry, may be merged. -/
theorem readNeighborClone_packed_small :
    Reads giantConfig (giantMerged 0) 3 (Lww.lww {d | d ∈ giantGraph.neighbors 3} []) := by
  have hins : insertEdge giantConfig 0 4 0 giantDb = .ok true (giantInserted 0) :=
    EStateM.Result.eq_ok_of_value? (by decide +kernel)
  have hmerge : consolidatePages giantConfig .smooth 0 (giantInserted 0) =
      .ok .published (giantMerged 0) := EStateM.Result.eq_ok_of_value? (by decide +kernel)
  have hstep : MergeStep giantConfig (giantGraph.pagedVertices giantConfig) (giantInserted 0)
      (.consolidate 0 .smooth) :=
    fun _ => ⟨⟨0, by decide +kernel, by decide +kernel⟩, .inl rfl, by decide +kernel⟩
  have run : Steps (guarded (MergeStep giantConfig (giantGraph.pagedVertices giantConfig))
      (SeqStep giantConfig)) giantDb ([] ++ [.insertEdge 0 4 0] ++ [.consolidate 0 .smooth])
      (giantMerged 0) :=
    .snoc (.snoc .nil ⟨trivial, .insertEdge hins⟩) ⟨hstep, .consolidate hmerge⟩
  exact readNeighborClone_packed (by decide) (by decide) (by decide) giantDb_built run (by decide)

/-- An insertion on the giant vertex 3, whose location names page 0 without an entry there,
replaces its stored list by the inserted neighbour alone. -/
theorem consolidatePages_overwrites_giant :
    ¬ ∀ (cfg : Config) (g : MemGraph) (db0 : Db), 0 < cfg.pageSize → 0 < cfg.deltaPageSize →
      g.vertexCount ≤ cfg.idLimit → PackedBuild cfg g db0 →
      ∀ (es : List DbEvent) (db : Db), Steps (SeqStep cfg) db0 es db →
      ∀ v, v < g.vertexCount → (db.vertexIndex.items v).vertexType = .giant →
        Reads cfg db v (Lww.lww {d | d ∈ g.neighbors v} (opsIn v es)) := by
  intro h
  have hins : insertEdge giantConfig 3 4 0 giantDb = .ok true (giantInserted 3) :=
    EStateM.Result.eq_ok_of_value? (by decide +kernel)
  have hmerge : consolidatePages giantConfig .smooth 0 (giantInserted 3) =
      .ok .published (giantMerged 3) := EStateM.Result.eq_ok_of_value? (by decide +kernel)
  have hread := h giantConfig giantGraph giantDb (by decide) (by decide) (by decide) giantDb_built
    ([] ++ [.insertEdge 3 4 0] ++ [.consolidate 0 .smooth]) (giantMerged 3)
    (.snoc (.snoc .nil (.insertEdge hins)) (.consolidate hmerge)) 3 (by decide) (by decide +kernel)
  have hgot : readNeighborClone giantConfig 0 (giantMerged 3) 3 = some [4] := by decide +kernel
  exact not_reads 0 hgot 0 (by decide +kernel) hread

/-! ## Reads as lists -/

/-- The base list of `v` has no duplicates, and no insertion of its chain repeats it. -/
structure Tidy (cfg : Config) (db : Db) (v : VId) : Prop where
  nodup : (db.base cfg v).Nodup
  fresh : ∃ cells, DeltaChain db.pageMap (db.vertexIndex.deltaHeads v) cells ∧
    ∀ d, Lww.Op.insert d ∈ opsOf cells → d ∉ db.base cfg v

/-- Replacements can be read back, and an insertion is not of a neighbour in the base list. -/
def FreshStep (cfg : Config) (db : Db) : DbEvent → Prop
  | .insertEdge src dst _ => dst ∉ db.base cfg src
  | e => ReadableStep cfg db e

variable {e : DbEvent}

theorem FreshStep.readable (h : FreshStep cfg db e) : ReadableStep cfg db e := by
  cases e with
  | insertEdge => trivial
  | _ => exact h

theorem FreshStep.not_mem (h : FreshStep cfg db e) {v d : VId} (he : e.opOn v = some (.insert d)) :
    d ∉ db.base cfg v := by
  cases e with
  | insertEdge src dst time =>
    simp only [DbEvent.opOn] at he
    split_ifs at he with hv
    cases he
    exact hv ▸ h
  | deleteEdge src dst time =>
    simp only [DbEvent.opOn] at he
    split_ifs at he
    cases he
  | _ => cases he

theorem Tidy.congr (h : Tidy cfg db v) (hbase : db'.base cfg v = db.base cfg v)
    (hchain : ∀ cells, DeltaChain db.pageMap (db.vertexIndex.deltaHeads v) cells →
      DeltaChain db'.pageMap (db'.vertexIndex.deltaHeads v) cells) : Tidy cfg db' v := by
  obtain ⟨cells, hc, hf⟩ := h.fresh
  exact ⟨hbase ▸ h.nodup, cells, hchain cells hc, by rw [hbase]; exact hf⟩

theorem Tidy.step {paged : Set VId} {nbrs : VId → Set VId} (hi : Inv cfg paged nbrs db)
    (hv : v < db.vertexIndex.size) (hf : FreshStep cfg db e) (heff : Effect cfg paged db e db')
    (h : Tidy cfg db v) : Tidy cfg db' v := by
  cases heff with
  | @written type src dst time loc hop hsrc hdst hw =>
    by_cases hvs : v = src
    · subst hvs
      obtain ⟨cells, hc, hfresh⟩ := h.fresh
      refine ⟨by rw [hw.base]; exact h.nodup, _, hw.chain_self hc, fun d hd => ?_⟩
      rw [hw.base]
      rcases List.mem_cons.1 hd with hd | hd
      · refine hf.not_mem (v := v) ?_
        rw [hop v, if_pos rfl, hd]
        exact congrArg some (newRecord_op db type v dst time).symm
      · exact hfresh d hd
    · refine h.congr (hw.base v) fun cells hc => ?_
      rw [hw.head_ne hvs]
      exact hw.keeps hc
  | same hop he => rw [he]; exact h
  | repooled hop hr =>
    exact h.congr (hr.base hi hv) fun cells hc => by rw [hr.pageMap, hr.vertexIndex]; exact hc
  | drained hop hd =>
    exact h.congr (hd.base v) fun cells hc => by rw [hd.vertexIndex]; exact hd.chain hc
  | @published p locs hop hm hp =>
    by_cases hvp : v ∈ paged ∧ (db.location v).1 = p
    · have hg := (hm.mem_graph hi).2 hvp
      obtain ⟨prepared, hl⟩ := mem_locations.1 ((hp.mem v).2 hg)
      refine ⟨?_, [], ?_, by simp [opsOf]⟩
      · rw [hm.base_switched hi hp hvp.1 hvp.2]
        exact (buildMergedGraph_sorted hg).1
      · rw [(hp.switched v prepared hl).2.2.2]
        exact .nil
    · refine h.congr (hm.base_kept hi hp hv hvp) fun cells hc => ?_
      rw [(hp.unswitched v fun hg => hvp ((hm.mem_graph hi).1 hg)).2]
      exact hp.chain hc

/-- A tidy vertex is read without duplicates. -/
theorem Tidy.returns {s : Set VId} {cells : List (DeltaLoc × DeltaRecord)} (h : Tidy cfg db v)
    (hs : Shows cfg db v s cells) : ∃ r, Returns cfg db v r ∧ r.Nodup ∧ {d | d ∈ r} = s := by
  obtain ⟨cells', hc, hf⟩ := h.fresh
  have he : cells' = cells := hc.det hs.chain
  subst he
  obtain ⟨r, hr, hset⟩ := hs.reads
  have hrr := hs.returns.unique hr
  exact ⟨r, hr, hrr ▸ nodup_result h.nodup hf, hset⟩

end BwGraph
