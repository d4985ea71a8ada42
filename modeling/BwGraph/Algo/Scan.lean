import BwGraph.Algo.EdgeMap
import BwGraph.Db.Updates

/-
  The dense scan of the edge maps (`bw_edge_map_dense`, `bw_edge_map_no_output`): all pages below
  `get_page_count`, then the giant vertices. Reads go through the vertex index instead
  (`Db.base`), so the scan has the edges of the reads only while every page has the entries of the
  vertices that are located there, and no others.

  That is so after a build, and the updates keep it (`Settled`) as long as no consolidation replaces
  a page: the replacement is in the pool only, where the page count does not see it, and the old
  page stays in the file with its old entries. A new vertex is located on an entry of another one,
  and a deleted giant vertex is left out by the scan only.
-/

namespace BwGraph

open List ForkJoin

/-! ## The scan -/

/-- The edges of rows. -/
def rowEdges (rows : List (VId × List VId)) : List (VId × VId) :=
  rows.flatMap fun row => row.2.map fun d => (row.1, d)

/-- The edges that reads of the vertices below `n` return. -/
def edgeList (n : Nat) (nbrs : VId → List VId) : List (VId × VId) :=
  rowEdges ((List.range n).map fun v => (v, nbrs v))

/-- What the tasks of a dense scan go through. -/
def Db.denseRows (cfg : Config) (db : Db) : List (List (VId × List VId)) :=
  (List.range db.csrPool.diskManager.validPageCount).map (db.pageRows cfg) ++ [db.giantRows]

/-- The edges of a dense scan. -/
def Db.scanEdges (cfg : Config) (db : Db) : List (VId × VId) := (db.denseRows cfg).flatMap rowEdges

/-- A functor with a condition that is always true, the calls of which note their pair and never
stop a loop. -/
def visitFunctor : EdgeFunctor (List (VId × VId)) (VId × VId) where
  cond _ _ := true
  start src dst := (src, dst)
  next visited pair := (visited ++ [pair], .inr false)

/-- The loops of `bw_edge_map_dense` with all vertices in the frontier. -/
def denseVisits : ForkJoin (List (VId × VId)) (MapTask (VId × VId)) :=
  .parallel (edgeMapNext visitFunctor fun _ => true)

/-- The loops of `bw_edge_map_no_output` with all vertices in the frontier. -/
def noOutputVisits : ForkJoin (List (VId × VId)) (EdgeTask (VId × VId)) :=
  .parallel (edgeMapNoOutputNext visitFunctor)

/-- Whatever the order of the steps, a dense scan calls for the edges that reads return, for each
of them once. `bw_edge_map_dense` pulls: its calls have the edges the other way around. -/
structure ScansEdges (cfg : Config) (db : Db) : Prop where
  dense : ∀ es visited ts, runAll denseVisits.step
    (.body [] ((db.denseRows cfg).map fun rows => ⟨.dense, rows, .next, []⟩)) es =
      some (.body visited ts) → (∀ t ∈ ts, denseVisits.next visited t = none) →
      (visited.map Prod.swap).Perm (edgeList db.getVertexCount (db.base cfg))
  noOutput : ∀ es visited ts, runAll noOutputVisits.step
    (.body [] ((db.denseRows cfg).map fun rows => ⟨rowEdges rows, none⟩)) es =
      some (.body visited ts) → (∀ t ∈ ts, noOutputVisits.next visited t = none) →
      visited.Perm (edgeList db.getVertexCount (db.base cfg))

/-- A step of a dense task goes on, or notes the next pair. -/
theorem denseVisits_next (m : List (VId × VId)) (t : MapTask (VId × VId)) (m' : List (VId × VId))
    (t' : MapTask (VId × VId)) (ht : t.mode = .dense ∧ ∀ c, t.call = some c → c.2.2 = (c.1, c.2.1))
    (h : denseVisits.next m t = some (m', t')) :
    (t'.mode = .dense ∧ ∀ c, t'.call = some c → c.2.2 = (c.1, c.2.1)) ∧
      (m' = m ∧ t'.left = t.left ∨ ∃ x, m' = m ++ [x] ∧ t.left = x :: t'.left) := by
  obtain ⟨mode, rows, pc, marked⟩ := t
  obtain ⟨rfl, hcall⟩ : mode = .dense ∧ _ := ht
  simp only [denseVisits, parallel, edgeMapNext, edgeMapDenseNext] at h
  cases pc with
  | next =>
    cases rows with
    | nil => cases h
    | cons row rows =>
      cases h
      exact ⟨⟨rfl, fun c hc => by cases hc⟩, .inl ⟨rfl, by simp [MapTask.left, MapTask.current]⟩⟩
  | scan dst rest =>
    cases rest with
    | nil =>
      cases h
      exact ⟨⟨rfl, fun c hc => by cases hc⟩, .inl ⟨rfl, rfl⟩⟩
    | cons src rest =>
      cases h
      exact ⟨⟨rfl, fun c hc => by cases hc; rfl⟩, .inl ⟨rfl, rfl⟩⟩
  | call src dst rest r =>
    have hr : r = (src, dst) := hcall (src, dst, r) rfl
    cases h
    exact ⟨⟨rfl, fun c hc => by cases hc⟩, .inr ⟨(src, dst), by rw [hr], rfl⟩⟩

/-- The edges a task of `bw_edge_map_no_output` has not noted. -/
def EdgeTask.todo (t : EdgeTask (VId × VId)) : List (VId × VId) := t.call.toList ++ t.edges

theorem noOutputVisits_next (m : List (VId × VId)) (t : EdgeTask (VId × VId))
    (m' : List (VId × VId)) (t' : EdgeTask (VId × VId))
    (h : noOutputVisits.next m t = some (m', t')) :
    m' = m ∧ t'.todo = t.todo ∨ ∃ x, m' = m ++ [x] ∧ t.todo = x :: t'.todo := by
  obtain ⟨edges, call⟩ := t
  cases call with
  | some r =>
    cases h
    exact .inr ⟨r, rfl, rfl⟩
  | none =>
    cases edges with
    | nil => cases h
    | cons e edges =>
      cases h
      exact .inl ⟨rfl, rfl⟩

theorem left_dense (rows : List (VId × List VId)) :
    ((⟨.dense, rows, .next, []⟩ : MapTask (VId × VId)).left).map Prod.swap = rowEdges rows := by
  simp only [MapTask.left, MapTask.current, nil_append, map_flatMap, map_map,
    rowEdges]
  rfl

section

variable {rowss : List (List (VId × List VId))} {es : List (Option Nat)}
  {visited : List (VId × VId)}

/-- A dense scan calls for its edges, in some order. -/
theorem visited_dense {ts : List (MapTask (VId × VId))}
    (run : runAll denseVisits.step (.body [] (rowss.map fun rows => ⟨.dense, rows, .next, []⟩)) es =
      some (.body visited ts)) (hfin : ∀ t ∈ ts, denseVisits.next visited t = none) :
    (visited.map Prod.swap).Perm (rowss.flatMap rowEdges) := by
  have hperm := parallel_notes denseVisits_next
    (fun m t _ h => (edgeMapNext_eq_none h).1) (fun t ht => ?_) run hfin
  · have hmap := hperm.map Prod.swap
    rw [flatMap_map, map_flatMap] at hmap
    simpa only [left_dense] using hmap
  · obtain ⟨rows, -, rfl⟩ := mem_map.1 ht
    exact ⟨rfl, fun c hc => by cases hc⟩

theorem visited_noOutput {ts : List (EdgeTask (VId × VId))}
    (run : runAll noOutputVisits.step (.body [] (rowss.map fun rows => ⟨rowEdges rows, none⟩)) es =
      some (.body visited ts)) (hfin : ∀ t ∈ ts, noOutputVisits.next visited t = none) :
    visited.Perm (rowss.flatMap rowEdges) := by
  have hend : ∀ (m : List (VId × VId)) (t : EdgeTask (VId × VId)), True →
      edgeMapNoOutputNext visitFunctor m t = none → t.todo = [] := by
    intro m t _ h
    rw [edgeMapNoOutputNext_eq_none h]
    rfl
  have hperm := parallel_notes
    (fun m t m' t' (_ : True) h => ⟨trivial, noOutputVisits_next m t m' t' h⟩) hend
    (fun _ _ => trivial) run hfin
  rwa [flatMap_map] at hperm

end

/-- A dense scan can be run to its end. -/
theorem noOutputVisits_rank (m : List (VId × VId)) (t : EdgeTask (VId × VId))
    (m' : List (VId × VId)) (t' : EdgeTask (VId × VId))
    (h : noOutputVisits.next m t = some (m', t')) :
    t'.rank 0 (fun _ => 0) < t.rank 0 fun _ => 0 := by
  have h : edgeMapNoOutputNext visitFunctor m t = some (m', t') := h
  refine edgeMapNoOutputNext_rank (fun _ _ => le_rfl) (fun _ _ _ _ hc => ?_) h
  cases hc

theorem scansEdges_iff {cfg : Config} {db : Db} :
    ScansEdges cfg db ↔ (db.scanEdges cfg).Perm (edgeList db.getVertexCount (db.base cfg)) := by
  constructor
  · intro h
    obtain ⟨es, visited, ts, run, hfin⟩ := exists_finished noOutputVisits_rank []
      ((db.denseRows cfg).map fun rows => ⟨rowEdges rows, none⟩)
    exact (visited_noOutput run hfin).symm.trans (h.noOutput es visited ts run hfin)
  · intro h
    exact ⟨fun es visited ts run hfin => (visited_dense run hfin).trans h,
      fun es visited ts run hfin => (visited_noOutput run hfin).trans h⟩

/-! ## When the scan has the edges of the reads -/

/-- The pages below `get_page_count` have the lists of the normal vertices, at their locations, and
no other lists; the giant vertices with a list are not deleted. -/
structure ScanExact (cfg : Config) (db : Db) : Prop where
  listed : ∀ v, v < db.getVertexCount → (db.vertexIndex.items v).vertexType ≠ .giant →
    db.base cfg v ≠ [] → (db.location v).1 < db.csrPool.diskManager.validPageCount ∧
      (db.csrPool.page (db.location v).1).HasEntry v (db.location v).2
  located : ∀ q, q < db.csrPool.diskManager.validPageCount → ∀ i e,
    (db.csrPool.page q).vertexSpan[i]? = some e → e.isDeleted = false →
    (db.csrPool.page q).readNeighbors cfg i ≠ [] → e.vertexId < db.getVertexCount ∧
      (db.vertexIndex.items e.vertexId).vertexType ≠ .giant ∧ db.location e.vertexId = (q, i)
  giants : ∀ v, v < db.getVertexCount → (db.vertexIndex.items v).vertexType = .giant →
    db.base cfg v ≠ [] → (db.vertexIndex.items v).isDelete = false

/-- Rows without a list have no edges. -/
theorem rowEdges_filter (rows : List (VId × List VId)) :
    rowEdges (rows.filter fun row => row.2 ≠ []) = rowEdges rows := by
  induction rows with
  | nil => rfl
  | cons row rows ih =>
    unfold rowEdges at ih ⊢
    by_cases h : row.2 = []
    · rw [filter_cons_of_neg (by simpa using h), ih, flatMap_cons, h]
      rfl
    · rw [filter_cons_of_pos (by simpa using h), flatMap_cons, flatMap_cons, ih]

theorem rowEdges_flatten (rowss : List (List (VId × List VId))) :
    rowEdges rowss.flatten = rowss.flatMap rowEdges := by
  induction rowss with
  | nil => rfl
  | cons rows rowss ih =>
    unfold rowEdges at ih ⊢
    rw [flatten_cons, flatMap_append, ih, flatMap_cons]

section Exact

variable {cfg : Config} {db : Db} (h : ScanExact cfg db)

include h

section

variable {q : PageNo} (hq : q < db.csrPool.diskManager.validPageCount)
include hq

/-- A list on a page is that of the vertex of its entry. -/
theorem ScanExact.base_eq {row : VId × List VId} (hrow : row ∈ db.pageRows cfg q) (hne : row.2 ≠ []) :
    row.1 < db.getVertexCount ∧ (db.vertexIndex.items row.1).vertexType ≠ .giant ∧
      (db.location row.1).1 = q ∧ row = (row.1, db.base cfg row.1) := by
  obtain ⟨i, e, he, hdel, rfl⟩ := mem_pageRows.1 hrow
  obtain ⟨hlt, hng, hloc⟩ := h.located q hq i e he hdel hne
  refine ⟨hlt, hng, congrArg Prod.fst hloc, ?_⟩
  rw [Db.base, if_neg hng, hloc]

theorem ScanExact.nodup_pageRows : ((db.pageRows cfg q).filter fun row => row.2 ≠ []).Nodup := by
  unfold Db.pageRows
  rw [filter_map, filter_filter]
  have hzip : (db.csrPool.page q).vertexSpan.zipIdx.Nodup := by
    refine List.Nodup.of_map Prod.snd ?_
    rw [zipIdx_map_snd]
    exact nodup_range'
  refine List.Nodup.map_on ?_ (hzip.filter _)
  rintro ⟨e, i⟩ hx ⟨e', i'⟩ hx' heq
  obtain ⟨hmem, hx⟩ := mem_filter.1 hx
  obtain ⟨hmem', hx'⟩ := mem_filter.1 hx'
  simp only [Function.comp_apply, Bool.and_eq_true, decide_eq_true_eq, Bool.not_eq_true'] at hx hx'
  have he := mk_mem_zipIdx_iff_getElem?.1 hmem
  have he' := mk_mem_zipIdx_iff_getElem?.1 hmem'
  obtain ⟨-, -, hloc⟩ := h.located q hq i e he hx.2 hx.1
  obtain ⟨-, -, hloc'⟩ := h.located q hq i' e' he' hx'.2 hx'.1
  have hid : e.vertexId = e'.vertexId := congrArg Prod.fst heq
  rw [hid, hloc'] at hloc
  obtain rfl : i' = i := congrArg Prod.snd hloc
  rw [he] at he'
  cases he'
  rfl

end

/-- Every vertex with a list has one row. -/
theorem ScanExact.nodup_rows : ((db.denseRows cfg).flatten.filter fun row => row.2 ≠ []).Nodup := by
  unfold Db.denseRows
  rw [flatten_append, filter_append, flatten_singleton, ← flatMap_def,
    filter_flatMap]
  refine List.Nodup.append (nodup_flatMap.2 ⟨fun q hq => ?_, ?_⟩) ?_ ?_
  · exact h.nodup_pageRows (mem_range.1 hq)
  · refine (nodup_range).imp_of_mem fun {q q'} hq hq' hne row hrow hrow' => hne ?_
    obtain ⟨hrow, hlist⟩ := mem_filter.1 hrow
    obtain ⟨-, -, h1, -⟩ := h.base_eq (mem_range.1 hq) hrow (of_decide_eq_true hlist)
    obtain ⟨-, -, h2, -⟩ := h.base_eq (mem_range.1 hq') (mem_filter.1 hrow').1
      (of_decide_eq_true hlist)
    exact h1.symm.trans h2
  · refine List.Nodup.filter _ (List.Nodup.map (fun v w heq => ?_) (nodup_range.filter _))
    exact congrArg Prod.fst heq
  · intro row hrow hrow'
    obtain ⟨q, hq, hrow⟩ := mem_flatMap.1 hrow
    obtain ⟨hrow, hlist⟩ := mem_filter.1 hrow
    obtain ⟨-, hng, -⟩ := h.base_eq (mem_range.1 hq) hrow (of_decide_eq_true hlist)
    obtain ⟨v, hv, rfl⟩ := mem_map.1 (mem_filter.1 hrow').1
    simp only [mem_filter, Bool.and_eq_true, decide_eq_true_eq] at hv
    exact hng hv.2.2

theorem ScanExact.mem_rows (row : VId × List VId) :
    row ∈ (db.denseRows cfg).flatten.filter (fun row => row.2 ≠ []) ↔
      row ∈ ((range db.getVertexCount).map fun v => (v, db.base cfg v)).filter
        fun row => row.2 ≠ [] := by
  rw [mem_filter, mem_filter]
  refine and_congr_left fun hne => ?_
  have hne := of_decide_eq_true hne
  rw [mem_map, mem_flatten]
  constructor
  · rintro ⟨rows, hrows, hrow⟩
    rcases mem_append.1 hrows with hrows | hrows
    · obtain ⟨q, hq, rfl⟩ := mem_map.1 hrows
      obtain ⟨hlt, -, -, heq⟩ := h.base_eq (mem_range.1 hq) hrow hne
      exact ⟨row.1, mem_range.2 hlt, heq.symm⟩
    · rw [mem_singleton.1 hrows] at hrow
      obtain ⟨v, hv, rfl⟩ := mem_map.1 hrow
      obtain ⟨hlt, hg⟩ := mem_filter.1 hv
      rw [Bool.and_eq_true, decide_eq_true_iff] at hg
      exact ⟨v, hlt, by rw [Db.base, if_pos hg.2]⟩
  · rintro ⟨v, hv, rfl⟩
    have hlt := mem_range.1 hv
    by_cases hg : (db.vertexIndex.items v).vertexType = .giant
    · refine ⟨db.giantRows, mem_append_right _ (mem_singleton_self _), ?_⟩
      refine mem_map.2 ⟨v, mem_filter.2 ⟨hv, ?_⟩, by rw [Db.base, if_pos hg]⟩
      simp [h.giants v hlt hg hne, hg]
    · obtain ⟨hpage, e, he, rfl, hdel⟩ := h.listed v hlt hg hne
      refine ⟨_, mem_append_left _ (mem_map_of_mem (mem_range.2 hpage)), ?_⟩
      exact mem_pageRows.2 ⟨_, e, he, hdel, by rw [Db.base, if_neg hg]⟩

/-- Such a scan has the edges of the reads, each once. -/
theorem ScanExact.perm : (db.scanEdges cfg).Perm (edgeList db.getVertexCount (db.base cfg)) := by
  have hnd : (((range db.getVertexCount).map fun v => (v, db.base cfg v)).filter
      fun row => row.2 ≠ []).Nodup := by
    refine List.Nodup.filter _ (nodup_range.map fun v w heq => ?_)
    exact congrArg Prod.fst heq
  have hperm := (perm_ext_iff_of_nodup h.nodup_rows hnd).2 h.mem_rows
  unfold Db.scanEdges edgeList
  rw [← rowEdges_flatten, ← rowEdges_filter, ← rowEdges_filter (List.map _ _)]
  exact hperm.flatMap_right _

end Exact

/-! ## Runs -/

section Runs

variable {cfg : Config} {g : MemGraph} {db0 db : Db}

section

variable (hps : 0 < cfg.pageSize) (hds : 0 < cfg.deltaPageSize) (hn : g.vertexCount ≤ cfg.idLimit)
include hps hds hn

theorem Built.settled (h : Built cfg g db) : Settled db db := by
  obtain ⟨paged, hp⟩ := h.placed hn
  obtain ⟨-, hframes, hret⟩ := hp.uncached hps
  exact settled_refl hframes hret (hp.loaded hps hds hn).1.undeleted

/-- As long as no page was replaced, the scan is that of the build. -/
theorem Built.scanExact (hv : g.vertexCount < 2 ^ 32) (h : Built cfg g db0) (hs : Settled db0 db) :
    ScanExact cfg db := by
  obtain ⟨paged, hp⟩ := h.placed hn
  obtain ⟨hl, hsize, -⟩ := hp.loaded hps hds hn
  have hcount : db.getVertexCount = db0.vertexIndex.size := by
    rw [Db.getVertexCount, hs.size, hsize, Nat.mod_eq_of_lt hv]
  obtain ⟨-, hframes, -⟩ := hp.uncached hps
  have hpage : ∀ q, SameEntries (db0.csrPool.page q) (db.csrPool.page q) := by
    intro q
    rw [CsrPool.page, hframes]
    exact hs.page q
  refine ⟨fun v hv hng _ => ?_, fun q hq i e' he' _ hne => ?_, fun v hv hg hne => ?_⟩
  · have hpaged : v ∈ paged := by
      by_contra hc
      exact hng ((hs.vertexType v).trans (hl.giant v (hcount ▸ hv) hc))
    rw [hs.location, hs.diskManager]
    exact ⟨hp.location_lt hps hpaged, (hpage _).hasEntry (hl.entry v hpaged)⟩
  · obtain ⟨e, he, hid, -, hdeg⟩ := (hpage q).getElem? he'
    obtain ⟨-, hmem, hloc, -⟩ := hp.entry hps he
    rw [← hid]
    refine ⟨hcount ▸ hl.pagedLt _ hmem, fun hg => hne ?_, (hs.location _).trans hloc⟩
    rw [hs.vertexType] at hg
    exact CsrPage.readNeighbors_of_giant he' ((h.giant_degree hps hn he hg).trans hdeg)
  · rw [Db.base, if_pos hg, hs.giantDb] at hne
    exact hs.giants v (hcount ▸ hv) ((hs.vertexType v).symm.trans hg) hne

end

/-- In every run from a build in which no page is replaced, no vertex is created and no giant
vertex with neighbours is deleted, a dense scan has in every state the edges that reads return. -/
theorem denseScan_edges (hps : 0 < cfg.pageSize) (hds : 0 < cfg.deltaPageSize)
    (hn : g.vertexCount ≤ cfg.idLimit) (hv : g.vertexCount < 2 ^ 32) (h : Built cfg g db0)
    {es : List UpdateEvent}
    (run : Steps (guarded (Unreplaced cfg) (UpdateStep cfg)) db0 es db) : ScansEdges cfg db := by
  have hs := (h.settled hps hds hn).steps run
  exact scansEdges_iff.2 (h.scanExact hps hds hn hv hs).perm

end Runs

/-- A direct insertion into a slot and an appended deletion. -/
theorem denseScan_edges_slotDb :
    ScansEdges slotConfig (deleteEdge slotConfig 1 2 0 slotInserted).state := by
  have hins : insertEdgeDirect slotConfig 0 3 0 slotDb = .ok true slotInserted :=
    EStateM.Result.eq_ok_of_value? (by decide +kernel)
  have hdel : deleteEdge slotConfig 1 2 0 slotInserted =
      .ok true (deleteEdge slotConfig 1 2 0 slotInserted).state :=
    EStateM.Result.eq_ok_of_value? (by decide +kernel)
  have run : Steps (guarded (Unreplaced slotConfig) (UpdateStep slotConfig)) slotDb
      ([] ++ [.insertEdgeDirect 0 3 0] ++ [.call (.call (.deleteEdge 1 2 0))])
      (deleteEdge slotConfig 1 2 0 slotInserted).state :=
    .snoc (.snoc .nil ⟨trivial, .insertEdgeDirect (by decide +kernel) hins⟩)
      ⟨trivial, .call (.call (.deleteEdge hdel))⟩
  exact denseScan_edges (by decide) (by decide) (by decide) (by decide) slotDb_built run

/-- The small database after `insert_edge(0, 3)` ... -/
def scanInserted : Db := (insertEdge slotConfig 0 3 0 slotDb).state

/-- ... and the consolidation of its page. -/
def scanMerged : Db := (consolidatePages slotConfig .smooth 0 scanInserted).state

theorem scanMerged_steps : Steps (UpdateStep slotConfig) slotDb
    ([] ++ [.call (.call (.insertEdge 0 3 0))] ++ [.call (.call (.consolidate 0 .smooth))])
    scanMerged := by
  have hins : insertEdge slotConfig 0 3 0 slotDb = .ok true scanInserted :=
    EStateM.Result.eq_ok_of_value? (by decide +kernel)
  have hmerge : consolidatePages slotConfig .smooth 0 scanInserted = .ok .published scanMerged :=
    EStateM.Result.eq_ok_of_value? (by decide +kernel)
  exact .snoc (.snoc .nil (.call (.call (.insertEdge hins)))) (.call (.call (.consolidate hmerge)))

/-- After a consolidation and the flush of its page, the scan has the edges of the old page and
those of the new one. -/
theorem denseScan_replaced :
    ¬ ∀ (cfg : Config) (g : MemGraph) (db0 : Db), 0 < cfg.pageSize → 0 < cfg.deltaPageSize →
      g.vertexCount ≤ cfg.idLimit → g.vertexCount < 2 ^ 32 → Built cfg g db0 →
      ∀ (es : List UpdateEvent) (db : Db), Steps (UpdateStep cfg) db0 es db →
      ScansEdges cfg db := by
  intro h
  have hscan := h slotConfig smallGraph slotDb (by decide) (by decide) (by decide) (by decide)
    slotDb_built _ { scanMerged with csrPool := scanMerged.csrPool.flush 1 }
    (.snoc scanMerged_steps (.call (.call (.flush 1))))
  have hlen := (scansEdges_iff.1 hscan).length_eq
  exact absurd hlen (by decide +kernel)

end BwGraph
