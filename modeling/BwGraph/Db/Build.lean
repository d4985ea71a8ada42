import BwGraph.Db.Run

/-
  Loading a graph (`db_build.cc`, `vertex_index.cc`). `buildStandardDb` puts the parts of a given
  partition on one page each, giants included; `buildSeqDb` packs segments of ascending ids with
  the page builder and `buildCompressedDb` packs batches by an estimate of their bytes, and both
  leave the giant vertices out of the pages: their index items name page 0, offset 0.

  All three produce pages with one entry per placed vertex, at the location its index item names
  (`Placed`), and hence a loaded database (`Placed.loaded`). The lists of `buildSeqDb` can be read
  in the raw build only, since the page builder writes raw words. The writes to the giant store are
  taken to succeed. The order of the hash maps is a parameter, as is the number of threads.
-/

namespace BwGraph

open Function List CsrPool

/-- `mem_sub_com_t`: the graph to be loaded. -/
structure MemGraph where
  vertexCount : Nat
  neighbors : VId → List VId
  neighbors_lt : ∀ v, ∀ d ∈ neighbors v, d < vertexCount

/-- The graph with the given adjacency lists. -/
def MemGraph.ofLists (lists : List (List VId))
    (h : ∀ l ∈ lists, ∀ d ∈ l, d < lists.length) : MemGraph where
  vertexCount := lists.length
  neighbors v := lists.getD v []
  neighbors_lt v d hd := by
    rw [List.getD_eq_getElem?_getD] at hd
    cases hl : lists[v]? with
    | none => simp [hl] at hd
    | some l =>
      rw [hl] at hd
      exact h l (List.mem_of_getElem? hl) d hd

/-- What a build meets at run time: the order of the hash maps and the capacities the disk
managers start with. -/
structure BuildEnv where
  order : HashOrder
  csrCapacity : Nat
  deltaCapacity : Nat

/-! ## An empty database directory -/

/-- The CSR pool over an empty file. -/
def CsrPool.create (pageSize capacity : Nat) : CsrPool :=
  ⟨fun _ => none, fun _ => CsrPage.empty, ⟨pageSize, capacity, [], 0, 0⟩, []⟩

/-- Write pages to consecutive page numbers. -/
def CsrPool.writePages (pool : CsrPool) : PageNo → List CsrPage → CsrPool
  | _, [] => pool
  | pageNo, page :: pages => writePages (pool.writePage pageNo page) (pageNo + 1) pages

/-- The default `v_item_t` of a vertex. -/
def VItem.init (v : VId) : VItem := ⟨⟨v, 0, 0⟩, .normal, false⟩

/-- The giant store with the neighbours of some vertices. -/
def insertGiants (g : MemGraph) (giants : List VId) : GiantDb :=
  giants.foldl (fun giantDb v => giantDb.insertVertex v (g.neighbors v)) ⟨fun _ => none⟩

/-- The database over the pages, index items and giant vertices a builder computed. -/
def loadedDb (cfg : Config) (env : BuildEnv) (g : MemGraph) (pages : List CsrPage)
    (items : VId → VItem) (giants : List VId) : Db where
  vertexIndex := ⟨g.vertexCount, items, fun _ => none, g.vertexCount⟩
  pageMap := PageMap.create cfg.deltaPageSize env.deltaCapacity
  csrPool := (CsrPool.create cfg.pageSize env.csrCapacity).writePages 0 pages
  giantDb := insertGiants g giants

/-! ## `build_standard_db` -/

/-- The index items of one part: page and type, then the offsets of the vertex map. -/
def indexPart (cfg : Config) (g : MemGraph) (pageNo : PageNo) (part : List VId)
    (vm : List (VId × Nat)) (items : VId → VItem) : VId → VItem :=
  let items := part.foldl (fun items v => Function.update items v
    ⟨⟨v, pageNo, 0⟩, if (g.neighbors v).length ≥ cfg.giantDegreeBound then .giant else .normal,
      false⟩) items
  vm.foldl (fun items x => Function.update items x.1
    { items x.1 with cur := ⟨x.1, (items x.1).cur.pageNo, x.2⟩ }) items

/-- The loop over the partition of the constructor of `vertex_index_t`. -/
def standardPages (cfg : Config) (env : BuildEnv) (g : MemGraph) :
    PageNo → List (List VId) → (VId → VItem) → Except String (List CsrPage × (VId → VItem))
  | _, [], items => .ok ([], items)
  | pageNo, part :: parts, items =>
    match buildFromAdjacencyMap cfg (fun _ => 0)
        ((env.order.order part).map fun v => (v, g.neighbors v)) with
    | .error e => .error e
    | .ok (page, vm) =>
      match standardPages cfg env g (pageNo + 1) parts (indexPart cfg g pageNo part vm items) with
      | .error e => .error e
      | .ok (pages, items) => .ok (page :: pages, items)

/-- `build_standard_db`, without the index tree. -/
def buildStandardDb (cfg : Config) (env : BuildEnv) (g : MemGraph) (partition : List (List VId)) :
    Except String Db :=
  match standardPages cfg env g 0 partition VItem.init with
  | .error e => .error e
  | .ok (pages, items) =>
    .ok (loadedDb cfg env g pages items
      (partition.flatten.filter fun v => (g.neighbors v).length ≥ cfg.giantDegreeBound))

/-! ## `build_seq_db` -/

/-- `segment_result_t`; the local page number is the number of pages. -/
structure SegmentResult where
  pages : List CsrPage
  normalVertices : List (VId × PageNo × Nat)
  giantVertices : List VId

/-- A finished page of a segment. -/
def SegmentResult.addPage (r : SegmentResult) (page : CsrPage) (vm : List (VId × Nat)) :
    SegmentResult :=
  { r with
    pages := r.pages ++ [page]
    normalVertices := r.normalVertices ++ vm.map fun x => (x.1, r.pages.length, x.2) }

/-- One vertex of a segment. -/
def seqVertex (cfg : Config) (g : MemGraph) (v : VId) (builder : CsrPageBuilder)
    (r : SegmentResult) : Except String (CsrPageBuilder × SegmentResult) :=
  if (g.neighbors v).length ≥ cfg.giantDegreeBound then
    .ok (builder, { r with giantVertices := r.giantVertices ++ [v] })
  else match builder.addVertex cfg v (g.neighbors v) cfg.edgeSlotCount with
    | .error e => .error e
    | .ok (some builder) => .ok (builder, r)
    | .ok none =>
      match builder.build cfg with
      | .error e => .error e
      | .ok (page, vm, builder) =>
        match builder.addVertex cfg v (g.neighbors v) cfg.edgeSlotCount with
        | .error e => .error e
        | .ok none => .error "Failed to add vertex after page flush"
        | .ok (some builder) => .ok (builder, r.addPage page vm)

/-- The loop over the vertices of a segment, and its last page. -/
def seqVertices (cfg : Config) (g : MemGraph) :
    List VId → CsrPageBuilder → SegmentResult → Except String SegmentResult
  | [], builder, r =>
    if builder.isEmpty then .ok r
    else match builder.build cfg with
      | .error e => .error e
      | .ok (page, vm, _) => .ok (r.addPage page vm)
  | v :: vs, builder, r =>
    match seqVertex cfg g v builder r with
    | .error e => .error e
    | .ok (builder, r) => seqVertices cfg g vs builder r

/-- The vertices of segment `k` of `numThreads`. -/
def segmentVertices (numThreads vertexCount k : Nat) : List VId :=
  let verticesPerSegment := (vertexCount + numThreads - 1) / numThreads
  let startVertex := k * verticesPerSegment
  let endVertex := min (startVertex + verticesPerSegment) vertexCount
  List.range' startVertex (endVertex - startVertex)

/-- All segments, one after another. -/
def seqSegments (cfg : Config) (g : MemGraph) : List (List VId) → Except String (List SegmentResult)
  | [] => .ok []
  | vs :: segments =>
    match seqVertices cfg g vs CsrPageBuilder.init ⟨[], [], []⟩ with
    | .error e => .error e
    | .ok r =>
      match seqSegments cfg g segments with
      | .error e => .error e
      | .ok rs => .ok (r :: rs)

/-- The items of the normal vertices of one segment, whose pages start at `base`. -/
def indexSegment (base : PageNo) (r : SegmentResult) (items : VId → VItem) : VId → VItem :=
  r.normalVertices.foldl (fun items x => Function.update items x.1
    ⟨⟨x.1, base + x.2.1, x.2.2⟩, .normal, false⟩) items

/-- The global page numbers and the items of the normal vertices. -/
def indexSegments : List SegmentResult → List CsrPage → (VId → VItem) →
    List CsrPage × (VId → VItem)
  | [], pages, items => (pages, items)
  | r :: rs, pages, items =>
    indexSegments rs (pages ++ r.pages) (indexSegment pages.length r items)

/-- The items of the giant vertices: no page, no offset. -/
def indexGiants (giants : List VId) (items : VId → VItem) : VId → VItem :=
  giants.foldl (fun items v => Function.update items v ⟨⟨v, 0, 0⟩, .giant, false⟩) items

/-- `build_seq_db`. -/
def buildSeqDb (cfg : Config) (env : BuildEnv) (numThreads : Nat) (g : MemGraph) :
    Except String Db :=
  match seqSegments cfg g
      ((List.range numThreads).map (segmentVertices numThreads g.vertexCount)) with
  | .error e => .error e
  | .ok results =>
    let giants := results.flatMap SegmentResult.giantVertices
    let (pages, items) := indexSegments results [] VItem.init
    .ok (loadedDb cfg env g pages (indexGiants giants items) giants)

/-! ## `build_compressed_db` -/

/-- The locals of `build_compressed_db`; the current page number is the number of pages. -/
structure BatchState where
  currentBatch : List (VId × List VId)
  currentBatchBytes : Nat
  pages : List CsrPage
  items : VId → VItem
  giants : List VId

/-- `update_vertex_loc` for the vertex map of a page. -/
def indexBatch (pageNo : PageNo) (vm : List (VId × Nat)) (items : VId → VItem) : VId → VItem :=
  vm.foldl (fun items x => Function.update items x.1
    { items x.1 with cur := ⟨x.1, pageNo, x.2⟩ }) items

/-- `flush_page`. -/
def flushBatch (cfg : Config) (env : BuildEnv) (st : BatchState) : Except String BatchState :=
  if st.currentBatch.isEmpty then .ok st
  else
    let batch : AdjMap := st.currentBatch.foldl (fun m x => m.insert x.1 x.2) ∅
    match buildFromAdjacencyMap cfg (fun _ => 0)
        ((env.order.order (st.currentBatch.map Prod.fst)).map fun v => (v, batch.get v)) with
    | .error e => .error e
    | .ok (page, vm) => .ok
      { currentBatch := []
        currentBatchBytes := cfg.headerBytes
        pages := st.pages ++ [page]
        items := indexBatch st.pages.length vm st.items
        giants := st.giants }

/-- One vertex of the loop of `build_compressed_db`. -/
def batchVertex (cfg : Config) (env : BuildEnv) (g : MemGraph) (st : BatchState) (v : VId) :
    Except String BatchState :=
  let degree := (g.neighbors v).length
  if degree ≥ cfg.giantDegreeBound then .ok
    { st with
      items := Function.update st.items v { st.items v with vertexType := .giant }
      giants := st.giants ++ [v] }
  else
    let neighbors := (g.neighbors v).insertionSort (· ≤ ·)
    let vertexBytes := csrVertexBytes + degree * 4
    let flushed :=
      if !st.currentBatch.isEmpty ∧ st.currentBatchBytes + vertexBytes > cfg.pageSize then
        flushBatch cfg env st
      else .ok st
    match flushed with
    | .error e => .error e
    | .ok st => .ok
      { st with
        currentBatch := st.currentBatch ++ [(v, neighbors)]
        currentBatchBytes := st.currentBatchBytes + vertexBytes }

/-- The loop of `build_compressed_db` over the vertices. -/
def batchVertices (cfg : Config) (env : BuildEnv) (g : MemGraph) :
    List VId → BatchState → Except String BatchState
  | [], st => flushBatch cfg env st
  | v :: vs, st =>
    match batchVertex cfg env g st v with
    | .error e => .error e
    | .ok st => batchVertices cfg env g vs st

/-- `build_compressed_db`. -/
def buildCompressedDb (cfg : Config) (env : BuildEnv) (g : MemGraph) : Except String Db :=
  match batchVertices cfg env g (List.range g.vertexCount)
      ⟨[], cfg.headerBytes, [], VItem.init, []⟩ with
  | .error e => .error e
  | .ok st => .ok (loadedDb cfg env g st.pages st.items st.giants)

/-! ## Pages on file -/

theorem CsrPool.create_ok {pageSize : Nat} (h : 0 < pageSize) (capacity : Nat) :
    (create pageSize capacity).Ok :=
  ⟨h, by simp [create], fun _ _ => rfl, fun _ _ hf => by simp [create] at hf⟩

/-- Writing pages to an uncached file: the pages are there, and the file ends behind them. -/
structure CsrPool.WrittenFrom (pool pool' : CsrPool) (n : PageNo) (pages : List CsrPage) :
    Prop where
  ok : pool'.Ok
  frames : ∀ q, pool'.frames q = none
  below : ∀ q, q < n → pool'.disk q = pool.disk q
  page : ∀ j page, pages[j]? = some page → pool'.disk (n + j) = page
  freeSlots : pool'.diskManager.freeSlots = pool.diskManager.freeSlots
  globalPageCount : pages ≠ [] → n + pages.length ≤ pool'.diskManager.globalPageCount
  retired : pool'.retired = pool.retired

theorem CsrPool.writePages_disk_of_le (pool : CsrPool) {n q : Nat} (pages : List CsrPage)
    (hq : n + pages.length ≤ q) : (pool.writePages n pages).disk q = pool.disk q := by
  induction pages generalizing pool n with
  | nil => rfl
  | cons page pages ih =>
    rw [length_cons] at hq
    unfold writePages
    rw [ih _ (by omega)]
    simp [writePage, show q ≠ n by omega]

theorem CsrPool.writtenFrom_writePages {pool : CsrPool} (h : pool.Ok)
    (hf : ∀ q, pool.frames q = none) (n : PageNo) (pages : List CsrPage) :
    pool.WrittenFrom (pool.writePages n pages) n pages := by
  induction pages generalizing pool n with
  | nil => exact ⟨h, hf, fun _ _ => rfl, by simp, rfl, fun hc => absurd rfl hc, rfl⟩
  | cons page pages ih =>
    have hw : (pool.writePage n page).Ok := h.writePage n page fun f hff => by simp [hf] at hff
    have hi := ih hw hf (n + 1)
    have hn : (pool.writePages n (page :: pages)).disk n = page := by
      refine (hi.below n (Nat.lt_succ_self n)).trans ?_
      simp [writePage]
    refine ⟨hi.ok, hi.frames, fun q hq => ?_, fun j pg hj => ?_, hi.freeSlots, fun _ => ?_,
      hi.retired⟩
    · refine (hi.below q (Nat.lt_succ_of_lt hq)).trans ?_
      simp [writePage, Nat.ne_of_lt hq]
    · cases j with
      | zero =>
        cases hj
        exact hn
      | succ j =>
        have hp := hi.page j pg hj
        rwa [Nat.add_assoc, Nat.add_comm 1 j] at hp
    · by_cases hp : pages = []
      · subst hp
        exact Nat.le_max_right _ _
      · have hl := hi.globalPageCount hp
        rw [length_cons]
        rwa [Nat.add_assoc, Nat.add_comm 1] at hl

/-- `get_page_count` is past the pages written. -/
theorem CsrPool.validPageCount_writePages (pool : CsrPool) (n : PageNo) {pages : List CsrPage}
    (h : pages ≠ []) : n + pages.length ≤ (pool.writePages n pages).diskManager.validPageCount := by
  induction pages generalizing pool n with
  | nil => exact absurd rfl h
  | cons page pages ih =>
    by_cases hp : pages = []
    · subst hp
      exact Nat.le_max_right _ _
    · have hl := ih (pool.writePage n page) (n + 1) hp
      rw [length_cons]
      rwa [Nat.add_assoc, Nat.add_comm 1] at hl

/-! ## Placed vertices -/

/-- Page `j` has the entries of part `j`, in order, and the index items say so. -/
structure Placed (cfg : Config) (readable : Prop) (lists : VId → List VId) (pages : List CsrPage)
    (items : VId → VItem) (parts : List (List VId)) : Prop where
  length : pages.length = parts.length
  stores : ∀ (j : Nat) (page : CsrPage) (part : List VId), pages[j]? = some page →
    parts[j]? = some part → page.Stores cfg readable (part.map fun v => (v, lists v))
  nodup : parts.flatten.Nodup
  located : ∀ (j : Nat) (part : List VId) (i : Nat) (v : VId), parts[j]? = some part →
    part[i]? = some v → (items v).cur.pageNo = j ∧ (items v).cur.offset = i ∧
      (items v).isDelete = false ∧
      ((items v).vertexType = .giant ↔ cfg.giantDegreeBound ≤ (lists v).length)

variable {cfg : Config} {readable : Prop} {lists : VId → List VId} {pages : List CsrPage}
  {items items' : VId → VItem} {parts : List (List VId)}

theorem Placed.nil (items : VId → VItem) : Placed cfg readable lists [] items [] :=
  ⟨rfl, fun _ _ _ h => by simp at h, nodup_nil, fun _ _ _ _ h => by simp at h⟩

/-- One more page. -/
theorem Placed.snoc (h : Placed cfg readable lists pages items parts) {page : CsrPage}
    {part : List VId} (hpage : page.Stores cfg readable (part.map fun v => (v, lists v)))
    (hnodup : (parts.flatten ++ part).Nodup) (hkeep : ∀ v ∈ parts.flatten, items' v = items v)
    (hnew : ∀ i v, part[i]? = some v → (items' v).cur.pageNo = pages.length ∧
      (items' v).cur.offset = i ∧ (items' v).isDelete = false ∧
      ((items' v).vertexType = .giant ↔ cfg.giantDegreeBound ≤ (lists v).length)) :
    Placed cfg readable lists (pages ++ [page]) items' (parts ++ [part]) := by
  refine ⟨by simp [h.length], fun j pg pt hj hj' => ?_, by simpa using hnodup,
    fun j pt i v hj hi => ?_⟩
  · rcases Nat.lt_or_ge j pages.length with hlt | hge
    · rw [getElem?_append_left hlt] at hj
      rw [getElem?_append_left (h.length ▸ hlt)] at hj'
      exact h.stores j pg pt hj hj'
    · rw [getElem?_append_right hge] at hj
      rw [getElem?_append_right (h.length ▸ hge), ← h.length] at hj'
      rw [getElem?_singleton] at hj hj'
      split_ifs at hj hj'
      cases hj
      cases hj'
      exact hpage
  · rcases Nat.lt_or_ge j parts.length with hlt | hge
    · rw [getElem?_append_left hlt] at hj
      have hm : v ∈ parts.flatten :=
        mem_flatten.2 ⟨pt, mem_of_getElem? hj, mem_of_getElem? hi⟩
      rw [hkeep v hm]
      exact h.located j pt i v hj hi
    · rw [getElem?_append_right hge] at hj
      rw [getElem?_singleton] at hj
      split_ifs at hj with hz
      cases hj
      have hj : j = pages.length := by rw [h.length]; omega
      rw [hj]
      exact hnew i v hi

theorem foldl_insertVertex_store (g : MemGraph) (giants : List VId) (giantDb : GiantDb) (v : VId) :
    (giants.foldl (fun giantDb v => giantDb.insertVertex v (g.neighbors v)) giantDb).store v =
      if v ∈ giants then some ((g.neighbors v).insertionSort (· ≤ ·)) else giantDb.store v := by
  induction giants generalizing giantDb with
  | nil => simp
  | cons w giants ih =>
    rw [foldl_cons, ih]
    by_cases hv : v ∈ giants
    · simp [hv]
    · by_cases hw : v = w
      · subst hw
        simp [hv, GiantDb.insertVertex]
      · simp [hv, hw, GiantDb.insertVertex]

variable {g : MemGraph} {v : VId}

theorem insertGiants_perm {giants : List VId} (hv : v ∈ giants) :
    ((insertGiants g giants).readNeighborClone v).Perm (g.neighbors v) := by
  unfold GiantDb.readNeighborClone insertGiants
  rw [foldl_insertVertex_store, if_pos hv, Option.getD_some]
  exact perm_insertionSort _ _

/-- A placed vertex: its part, its index in it, and the page of the part. -/
theorem Placed.place (h : Placed cfg readable lists pages items parts) (env : BuildEnv)
    (hps : 0 < cfg.pageSize) (giants : List VId) (hv : v ∈ parts.flatten) :
    let db := loadedDb cfg env g pages items giants
    ∃ (part : List VId), parts[(db.location v).1]? = some part ∧
      part[(db.location v).2]? = some v ∧
      (db.csrPool.page (db.location v).1).Stores cfg readable (part.map fun v => (v, lists v)) ∧
      (db.location v).1 < pages.length ∧ (items v).isDelete = false ∧
      ((items v).vertexType = .giant ↔ cfg.giantDegreeBound ≤ (lists v).length) := by
  intro db
  have hw : (create cfg.pageSize env.csrCapacity).WrittenFrom db.csrPool 0 pages :=
    writtenFrom_writePages (create_ok hps _) (fun _ => rfl) 0 pages
  obtain ⟨part, hpart, hvp⟩ := List.mem_flatten.1 hv
  obtain ⟨j, hj⟩ := List.mem_iff_getElem?.1 hpart
  obtain ⟨i, hi⟩ := List.mem_iff_getElem?.1 hvp
  obtain ⟨h1, h2, h3, h4⟩ := h.located j part i v hj hi
  have hjlt : j < pages.length := h.length ▸ (List.getElem?_eq_some_iff.1 hj).1
  obtain ⟨page, hpj⟩ : ∃ page, pages[j]? = some page :=
    ⟨pages[j], List.getElem?_eq_getElem hjlt⟩
  have hloc : db.location v = (j, i) := Prod.ext h1 h2
  rw [hloc]
  refine ⟨part, hj, hi, ?_, hjlt, h3, h4⟩
  have hd := hw.page j page hpj
  rw [Nat.zero_add] at hd
  rw [page_of_no_frame hw.ok.file (hw.frames j), hd]
  exact h.stores j page part hpj hj

/-- The base list of every vertex has the graph's neighbours, as often as the graph has them. -/
theorem Placed.base_perm (h : Placed cfg readable lists pages items parts) (hr : readable)
    (env : BuildEnv) (hps : 0 < cfg.pageSize) (hlists : ∀ v, (lists v).Perm (g.neighbors v))
    (giants : List VId) (hgiants : ∀ v, v < g.vertexCount →
      (v ∈ giants ↔ cfg.giantDegreeBound ≤ (g.neighbors v).length))
    (hrest : ∀ v, v < g.vertexCount → v ∉ parts.flatten →
      cfg.giantDegreeBound ≤ (g.neighbors v).length ∧ (items v).vertexType = .giant ∧
      (items v).isDelete = false) (hv : v < g.vertexCount) :
    ((loadedDb cfg env g pages items giants).base cfg v).Perm (g.neighbors v) := by
  unfold Db.base
  rw [show (loadedDb cfg env g pages items giants).vertexIndex.items v = items v from rfl]
  by_cases hg : (items v).vertexType = .giant
  · have hdeg : cfg.giantDegreeBound ≤ (g.neighbors v).length := by
      by_cases hm : v ∈ parts.flatten
      · obtain ⟨part, -, -, -, -, -, ht⟩ := h.place env hps (g := g) giants hm
        exact (hlists v).length_eq ▸ ht.1 hg
      · exact (hrest v hv hm).1
    rw [if_pos hg]
    exact insertGiants_perm ((hgiants v hv).2 hdeg)
  · have hm : v ∈ parts.flatten := by
      by_contra hc
      exact hg (hrest v hv hc).2.1
    obtain ⟨part, -, hi, hst, -, -, ht⟩ := h.place env hps (g := g) giants hm
    rw [if_neg hg, hst.read hr _ v (lists v) (by simp [hi])
      (Nat.lt_of_not_le fun hc => hg (ht.2 hc))]
    exact hlists v

/-- The pages, items and giants of a build give a loaded database with the graph's neighbours. -/
theorem Placed.loaded (h : Placed cfg readable lists pages items parts) (hr : readable)
    (env : BuildEnv) {g : MemGraph} (hps : 0 < cfg.pageSize)
    (hds : 0 < cfg.deltaPageSize) (hn : g.vertexCount ≤ cfg.idLimit)
    (hlists : ∀ v, (lists v).Perm (g.neighbors v)) (hlt : ∀ v ∈ parts.flatten, v < g.vertexCount)
    (giants : List VId) (hgiants : ∀ v, v < g.vertexCount →
      (v ∈ giants ↔ cfg.giantDegreeBound ≤ (g.neighbors v).length))
    (hrest : ∀ v, v < g.vertexCount → v ∉ parts.flatten →
      cfg.giantDegreeBound ≤ (g.neighbors v).length ∧ (items v).vertexType = .giant ∧
      (items v).isDelete = false) :
    Loaded cfg {v | v ∈ parts.flatten} (loadedDb cfg env g pages items giants) ∧
      ∀ v, v < g.vertexCount →
        loadedNbrs cfg (loadedDb cfg env g pages items giants) v = {d | d ∈ g.neighbors v} := by
  set db := loadedDb cfg env g pages items giants
  have hw : (create cfg.pageSize env.csrCapacity).WrittenFrom db.csrPool 0 pages :=
    writtenFrom_writePages (create_ok hps _) (fun _ => rfl) 0 pages
  have hfree : db.csrPool.diskManager.freePages = [] := by
    unfold DiskManager.freePages
    rw [hw.freeSlots]
    rfl
  have hret : db.csrPool.retired = [] := hw.retired
  have hplace := fun (v : VId) (hv : v ∈ parts.flatten) => h.place env hps (g := g) giants hv
  have hbase : ∀ v, v < g.vertexCount → ∀ d, d ∈ db.base cfg v ↔ d ∈ g.neighbors v :=
    fun v hv d => (h.base_perm hr env hps hlists giants hgiants hrest hv).mem_iff
  refine ⟨⟨hw.ok, ?_, PageMap.create_ok hds _, fun _ => rfl, hn, ?_, ?_, hlt, ?_, ?_, ?_, ?_,
    fun _ => rfl, fun _ => rfl⟩, fun v hv => Set.ext (hbase v hv)⟩
  · refine ⟨?_, ?_, ?_, ?_, ?_⟩ <;> simp [hfree, hret]
  · intro v hv
    by_cases hm : v ∈ parts.flatten
    · obtain ⟨part, -, -, -, -, hd, -⟩ := hplace v hm
      exact hd
    · exact (hrest v hv hm).2.2
  · intro v hv hm
    exact (hrest v hv hm).2.1
  · intro v hv
    obtain ⟨part, -, hi, hst, -⟩ := hplace v hv
    refine hst.hasEntry _ v (lists v) ?_
    rw [getElem?_map]
    exact congrArg _ hi
  · intro v hv
    obtain ⟨part, -, -, -, hlt, -⟩ := hplace v hv
    have hne : pages ≠ [] := by
      rintro rfl
      exact Nat.not_lt_zero _ hlt
    have hc := hw.globalPageCount hne
    rw [Nat.zero_add] at hc
    exact ⟨Nat.lt_of_lt_of_le hlt hc, by simp [hfree], by simp [hret]⟩
  · intro v hv w i hwi
    obtain ⟨part, hj, -, hst, -⟩ := hplace v hv
    obtain ⟨e, he, rfl, -⟩ := hwi
    obtain ⟨-, nbrs, hit⟩ := hst.item i e he
    rw [getElem?_map, Option.map_eq_some_iff] at hit
    obtain ⟨w, hw', hpair⟩ := hit
    cases hpair
    obtain ⟨h1, h2, -⟩ := h.located _ part i _ hj hw'
    exact ⟨mem_flatten.2 ⟨part, mem_of_getElem? hj, mem_of_getElem? hw'⟩,
      Prod.ext h1 h2⟩
  · intro v hv d hd
    exact g.neighbors_lt v d ((hbase v hv d).1 hd)

/-- The database over pages on which exactly the vertices of `paged` are placed. -/
def PlacedDb (cfg : Config) (g : MemGraph) (paged : Set VId) (db : Db) : Prop :=
  ∃ (env : BuildEnv) (readable : Prop) (lists : VId → List VId) (pages : List CsrPage)
    (items : VId → VItem) (parts : List (List VId)) (giants : List VId),
    db = loadedDb cfg env g pages items giants ∧
    Placed cfg readable lists pages items parts ∧ readable ∧
    (∀ v, (lists v).Perm (g.neighbors v)) ∧ {v | v ∈ parts.flatten} = paged ∧
    (∀ v ∈ parts.flatten, v < g.vertexCount) ∧
    (∀ v, v < g.vertexCount → (v ∈ giants ↔ cfg.giantDegreeBound ≤ (g.neighbors v).length)) ∧
    ∀ v, v < g.vertexCount → v ∉ parts.flatten →
      cfg.giantDegreeBound ≤ (g.neighbors v).length ∧ (items v).vertexType = .giant ∧
      (items v).isDelete = false

theorem PlacedDb.loaded {g : MemGraph} {paged : Set VId} {db : Db} (h : PlacedDb cfg g paged db)
    (hps : 0 < cfg.pageSize) (hds : 0 < cfg.deltaPageSize) (hn : g.vertexCount ≤ cfg.idLimit) :
    Loaded cfg paged db ∧ db.vertexIndex.size = g.vertexCount ∧
      ∀ v, v < g.vertexCount → loadedNbrs cfg db v = {d | d ∈ g.neighbors v} := by
  obtain ⟨env, readable, lists, pages, items, parts, giants, rfl, hp, hr, hlists, rfl, hlt,
    hgiants, hrest⟩ := h
  obtain ⟨h1, h2⟩ := hp.loaded hr env hps hds hn hlists hlt giants hgiants hrest
  exact ⟨h1, rfl, h2⟩

variable {paged : Set VId} {part : List VId}

section

variable {db : Db} (h : PlacedDb cfg g paged db) (hps : 0 < cfg.pageSize)
include h hps

theorem PlacedDb.base_perm (hv : v < g.vertexCount) : (db.base cfg v).Perm (g.neighbors v) := by
  obtain ⟨env, readable, lists, pages, items, parts, giants, rfl, hp, hr, hlists, rfl, -,
    hgiants, hrest⟩ := h
  exact hp.base_perm hr env hps hlists giants hgiants hrest hv

/-- The pages of the placed vertices are below `get_page_count`. -/
theorem PlacedDb.location_lt (hv : v ∈ paged) :
    (db.location v).1 < db.csrPool.diskManager.validPageCount := by
  obtain ⟨env, readable, lists, pages, items, parts, giants, rfl, hp, -, -, rfl, -⟩ := h
  obtain ⟨-, -, -, -, hlt, -⟩ := hp.place env hps (g := g) giants hv
  have hne : pages ≠ [] := by
    rintro rfl
    exact Nat.not_lt_zero _ hlt
  have hle := validPageCount_writePages (create cfg.pageSize env.csrCapacity) 0 hne
  rw [Nat.zero_add] at hle
  exact Nat.lt_of_lt_of_le hlt hle

/-- No page is cached and none is waiting for its reclamation. -/
theorem PlacedDb.uncached :
    db.csrPool.FileOk ∧ (∀ q, db.csrPool.frames q = none) ∧ db.csrPool.retired = [] := by
  obtain ⟨env, readable, lists, pages, items, parts, giants, rfl, -⟩ := h
  have hw := writtenFrom_writePages (create_ok hps env.csrCapacity)
    (fun _ => rfl) 0 pages
  exact ⟨hw.ok.file, hw.frames, hw.retired⟩

/-- Every entry of every page is that of a placed vertex, at its location. -/
theorem PlacedDb.entry {q : PageNo} {i : Nat} {e : CsrVertex}
    (he : (db.csrPool.page q).vertexSpan[i]? = some e) :
    e.isDeleted = false ∧ e.vertexId ∈ paged ∧ db.location e.vertexId = (q, i) ∧
      ((db.vertexIndex.items e.vertexId).vertexType = .giant ↔
        cfg.giantDegreeBound ≤ (g.neighbors e.vertexId).length) := by
  obtain ⟨env, readable, lists, pages, items, parts, giants, rfl, hp, -, hlists, rfl, -⟩ := h
  have hw := writtenFrom_writePages (create_ok hps env.csrCapacity)
    (fun _ => rfl) 0 pages
  have hpage : (loadedDb cfg env g pages items giants).csrPool.page q =
      ((create cfg.pageSize env.csrCapacity).writePages 0 pages).disk q :=
    page_of_no_frame hw.ok.file (hw.frames q)
  rw [hpage] at he
  cases hq : pages[q]? with
  | none =>
    rw [writePages_disk_of_le _ _ (by simpa using hq)] at he
    cases he
  | some page =>
    have hqlt : q < parts.length := hp.length ▸ (List.getElem?_eq_some_iff.1 hq).1
    have hpart : parts[q]? = some parts[q] := List.getElem?_eq_getElem hqlt
    have hdisk := hw.page q page hq
    rw [Nat.zero_add] at hdisk
    rw [hdisk] at he
    obtain ⟨hdel, nbrs, hit⟩ := (hp.stores q page _ hq hpart).item i e he
    rw [List.getElem?_map, Option.map_eq_some_iff] at hit
    obtain ⟨w, hwi, hpair⟩ := hit
    cases hpair
    obtain ⟨h1, h2, -, h4⟩ := hp.located q _ i _ hpart hwi
    rw [(hlists _).length_eq] at h4
    exact ⟨hdel, List.mem_flatten.2 ⟨_, List.mem_of_getElem? hpart, List.mem_of_getElem? hwi⟩,
      Prod.ext h1 h2, h4⟩

end

/-! ## The loops over the vertex map -/

/-- Updating the items of the vertices of a list, each once. -/
theorem foldl_update_apply {α : Type} (key : α → VId) (f : VItem → α → VItem) (l : List α)
    (hl : (l.map key).Nodup) (items : VId → VItem) (v : VId) :
    (v ∉ l.map key →
      l.foldl (fun items x => update items (key x) (f (items (key x)) x)) items v =
        items v) ∧
    ∀ x ∈ l, key x = v →
      l.foldl (fun items x => update items (key x) (f (items (key x)) x)) items v =
        f (items v) x := by
  induction l generalizing items with
  | nil => simp
  | cons a l ih =>
    rw [map_cons, nodup_cons] at hl
    obtain ⟨ih1, ih2⟩ := ih hl.2 (update items (key a) (f (items (key a)) a))
    rw [foldl_cons]
    constructor
    · intro hv
      rw [map_cons, mem_cons, not_or] at hv
      rw [ih1 hv.2, update_of_ne hv.1]
    · rintro x hx rfl
      rcases mem_cons.1 hx with rfl | hx
      · rw [ih1 hl.1, update_self]
      · have hne : key x ≠ key a := fun he => hl.1 (he ▸ mem_map_of_mem hx)
        rw [ih2 x hx rfl, update_of_ne hne]

section

variable {page : CsrPage} (h : page.Stores cfg readable (part.map fun v => (v, lists v)))
include h

/-- The vertex map of a page that stores the vertices of a part. -/
theorem CsrPage.Stores.vertexMap_fst : (vertexMap page.vertexSpan).map Prod.fst = part := by
  rw [BwGraph.vertexMap_fst, h.vertexIds, map_map]
  exact map_id part

theorem CsrPage.Stores.mem_vertexMap {i : Nat} (hi : part[i]? = some v) :
    (v, i) ∈ vertexMap page.vertexSpan := by
  obtain ⟨e, he, hev, -⟩ := h.hasEntry i v (lists v) (by simp [hi])
  exact BwGraph.mem_vertexMap.2 ⟨e, he, hev⟩

end

/-! ## The standard build -/

section

variable {pageNo : PageNo} {vm : List (VId × Nat)} (hpart : part.Nodup)
  (hvm : (vm.map Prod.fst).Nodup)
include hpart hvm

theorem indexPart_ne (hv : v ∉ part) (hv' : v ∉ vm.map Prod.fst) :
    indexPart cfg g pageNo part vm items v = items v := by
  unfold indexPart
  rw [(foldl_update_apply Prod.fst (fun it x => { it with cur := ⟨x.1, it.cur.pageNo, x.2⟩ }) vm
    hvm _ v).1 hv']
  exact (foldl_update_apply id (fun _ v => ⟨⟨v, pageNo, 0⟩,
    if (g.neighbors v).length ≥ cfg.giantDegreeBound then .giant else .normal, false⟩) part
    (by simpa using hpart) items v).1 (by simpa using hv)

theorem indexPart_mem {i : Nat} (hv : v ∈ part) (hi : (v, i) ∈ vm) :
    indexPart cfg g pageNo part vm items v = ⟨⟨v, pageNo, i⟩,
      if (g.neighbors v).length ≥ cfg.giantDegreeBound then .giant else .normal, false⟩ := by
  unfold indexPart
  rw [(foldl_update_apply Prod.fst (fun it x => { it with cur := ⟨x.1, it.cur.pageNo, x.2⟩ }) vm
    hvm _ v).2 (v, i) hi rfl]
  have h := (foldl_update_apply id (fun _ v => ⟨⟨v, pageNo, 0⟩,
    if (g.neighbors v).length ≥ cfg.giantDegreeBound then .giant else .normal, false⟩) part
    (by simpa using hpart) items v).2 v hv rfl
  simp only [id] at h
  rw [h]

end

theorem standardPages_cons {env : BuildEnv} {pageNo : PageNo} {part : List VId}
    {parts : List (List VId)} {items items' : VId → VItem} {pages : List CsrPage}
    (h : standardPages cfg env g pageNo (part :: parts) items = .ok (pages, items')) :
    ∃ page vm rest, buildFromAdjacencyMap cfg (fun _ => 0)
        ((env.order.order part).map fun v => (v, g.neighbors v)) = .ok (page, vm) ∧
      standardPages cfg env g (pageNo + 1) parts (indexPart cfg g pageNo part vm items) =
        .ok (rest, items') ∧ pages = page :: rest := by
  unfold standardPages at h
  split at h
  · cases h
  · rename_i page vm hbuild
    split at h
    · cases h
    · rename_i rest _ hrest
      cases h
      exact ⟨page, vm, rest, hbuild, hrest, rfl⟩

/-- The loop over the partition places the rest of its parts. -/
theorem standardPages_placed {env : BuildEnv} (hn : readable → g.vertexCount ≤ cfg.idLimit)
    {rest : List (List VId)} {pages' : List CsrPage}
    (h : Placed cfg readable g.neighbors pages items parts)
    (hnodup : (parts.flatten ++ rest.flatten).Nodup)
    (hrun : standardPages cfg env g pages.length rest items = .ok (pages', items')) :
    Placed cfg readable g.neighbors (pages ++ pages') items'
        (parts ++ rest.map env.order.order) ∧
      ∀ v, v ∉ rest.flatten → items' v = items v := by
  induction rest generalizing pages items parts pages' with
  | nil =>
    cases hrun
    simpa using h
  | cons part rest ih =>
    have hperm := env.order.perm part
    obtain ⟨page, vm, pages2, hbuild, hrec, rfl⟩ := standardPages_cons hrun
    obtain ⟨hlaid, rfl⟩ := buildFromAdjacencyMap_ok hbuild
    have hids : readable → ∀ it ∈ (env.order.order part).map (fun v => (v, g.neighbors v)),
        ∀ d ∈ it.2, d < cfg.idLimit := by
      intro hr it hit d hd
      obtain ⟨v, -, rfl⟩ := mem_map.1 hit
      exact Nat.lt_of_lt_of_le (g.neighbors_lt v d hd) (hn hr)
    have hst := hlaid.stores hids
    rw [flatten_cons, ← append_assoc] at hnodup
    have hnd1 := (nodup_append.1 hnodup).1
    obtain ⟨-, hndp, hdis⟩ := nodup_append.1 hnd1
    have hvm : ((vertexMap page.vertexSpan).map Prod.fst).Nodup := by
      rw [hst.vertexMap_fst]
      exact hperm.nodup_iff.2 hndp
    set items1 := indexPart cfg g pages.length part (vertexMap page.vertexSpan) items with hi1
    have hout : ∀ v, v ∉ part → items1 v = items v := fun v hv =>
      indexPart_ne hndp hvm hv (by rw [hst.vertexMap_fst, hperm.mem_iff]; exact hv)
    have hplaced : Placed cfg readable g.neighbors (pages ++ [page]) items1
        (parts ++ [env.order.order part]) := h.snoc hst
      ((hperm.append_left _).nodup_iff.2 hnd1)
      (fun v hv => hout v fun hm => hdis v hv v hm rfl)
      (fun i v hi => by
        rw [hi1, indexPart_mem hndp hvm (hperm.mem_iff.1 (mem_of_getElem? hi))
          (hst.mem_vertexMap hi)]
        refine ⟨rfl, rfl, rfl, ?_⟩
        by_cases hd : (g.neighbors v).length ≥ cfg.giantDegreeBound <;> simp [hd])
    obtain ⟨hp, hkeep⟩ := ih hplaced
      (by
        rw [flatten_append, flatten_singleton]
        exact ((hperm.append_left _).append_right _).nodup_iff.2 hnodup)
      (by rw [length_append, length_singleton]; exact hrec)
    refine ⟨by simpa using hp, fun v hv => ?_⟩
    rw [flatten_cons, mem_append, not_or] at hv
    rw [hkeep v hv.2, hout v hv.1]

variable {env : BuildEnv} {partition : List (List VId)} {db : Db}

theorem buildStandardDb_ok (h : buildStandardDb cfg env g partition = .ok db) :
    ∃ pages items, standardPages cfg env g 0 partition VItem.init = .ok (pages, items) ∧
      db = loadedDb cfg env g pages items
        (partition.flatten.filter fun v => (g.neighbors v).length ≥ cfg.giantDegreeBound) := by
  unfold buildStandardDb at h
  split at h
  · cases h
  · cases h
    exact ⟨_, _, ‹_›, rfl⟩

/-- `build_standard_db` places every vertex. -/
theorem buildStandardDb_placed (hn : g.vertexCount ≤ cfg.idLimit)
    (hpart : partition.flatten.Perm (range g.vertexCount))
    (h : buildStandardDb cfg env g partition = .ok db) :
    PlacedDb cfg g {v | v < g.vertexCount} db := by
  obtain ⟨pages, items, hrun, rfl⟩ := buildStandardDb_ok h
  have hnil : Placed cfg True g.neighbors [] VItem.init [] := Placed.nil _
  obtain ⟨hp, -⟩ := standardPages_placed (fun _ => hn) hnil
    (by simpa using hpart.nodup_iff.2 nodup_range) hrun
  simp only [nil_append] at hp
  have hmem : ∀ v, v ∈ (partition.map env.order.order).flatten ↔ v < g.vertexCount := by
    intro v
    rw [← mem_range, ← hpart.mem_iff, mem_flatten, mem_flatten]
    constructor
    · rintro ⟨l, hl, hv⟩
      obtain ⟨part, hpm, rfl⟩ := mem_map.1 hl
      exact ⟨part, hpm, (env.order.perm part).mem_iff.1 hv⟩
    · rintro ⟨part, hpm, hv⟩
      exact ⟨_, mem_map_of_mem hpm, (env.order.perm part).mem_iff.2 hv⟩
  refine ⟨env, True, g.neighbors, pages, items, partition.map env.order.order,
    partition.flatten.filter fun v => (g.neighbors v).length ≥ cfg.giantDegreeBound, rfl, hp,
    trivial, fun _ => List.Perm.refl _, Set.ext hmem, fun v hv => (hmem v).1 hv, fun v hv => ?_,
    fun v hv hm => absurd ((hmem v).2 hv) hm⟩
  rw [mem_filter, hpart.mem_iff, mem_range]
  simp [hv]

/-- `build_standard_db` leaves a database in which every vertex has a CSR entry. -/
theorem buildStandardDb_loaded (hps : 0 < cfg.pageSize) (hds : 0 < cfg.deltaPageSize)
    (hn : g.vertexCount ≤ cfg.idLimit) (hpart : partition.flatten.Perm (range g.vertexCount))
    (h : buildStandardDb cfg env g partition = .ok db) :
    Loaded cfg {v | v < g.vertexCount} db ∧ db.vertexIndex.size = g.vertexCount ∧
      ∀ v, v < g.vertexCount → loadedNbrs cfg db v = {d | d ∈ g.neighbors v} :=
  (buildStandardDb_placed hn hpart h).loaded hps hds hn

end BwGraph
