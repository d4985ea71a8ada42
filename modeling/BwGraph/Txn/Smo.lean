import BwGraph.Txn.Run
import BwGraph.Part.Merge
import BwGraph.Storage.DiskManager

/-
  `consolidate_pages` in the transaction build, over the database of `BwGraph.Txn.Db`. The drained
  records are split at the watermark: what every registered reader sees is merged with the page
  (`buildMergedGraphWithTs`), the rest is deferred and re-inserted in front of the new versions.

  A call is one step here, so the second drain finds nothing and the version switch cannot fail.
  How `do_no_split` and `do_split` pack the merged graph is a run-time choice (`PagePacking`), as are
  the results of the writes to the giant store and of the copies into the buffer pool. The chain
  cut at the first rerouted record is the chain down to as many records as were rerouted.

  `consolidatePagesTxn_cases` says what a call that returns can have done.
-/

namespace BwGraph

open Function List AdjMap

/-! ## The merged graph with timestamps -/

/-- The record as the merge reads it. -/
def TxnRecord.delta (rec : TxnRecord) : DeltaRecord :=
  ⟨rec.target, rec.type, rec.first, rec.second, 0, none⟩

/-- The graph and `commit_map`. -/
structure TsGraph where
  graph : AdjMap
  commitMap : VId → VId → Option Nat

namespace TsGraph

/-- `commit_map[v][d] = ts`, or its removal. -/
def setTs (commitMap : VId → VId → Option Nat) (v d : VId) (ts : Option Nat) :
    VId → VId → Option Nat :=
  Function.update commitMap v (Function.update (commitMap v) d ts)

/-- One entry of the base page. -/
def snapshotEntry (g : TsGraph) (e : TxnEntry) : TsGraph :=
  if e.isDeleted then g
  else ⟨g.graph.insert e.vertexId (g.graph.get e.vertexId ++ e.edges.map Prod.fst),
    e.edges.foldl (fun c x => setTs c e.vertexId x.1 (some x.2)) g.commitMap⟩

/-- The snapshot of the base page. -/
def snapshotEntries (entries : List TxnEntry) : TsGraph :=
  entries.foldl snapshotEntry ⟨∅, fun _ _ => none⟩

/-- The lists of giant vertices come from the giant store, always visible. -/
def replaceGiants (db : TxnDb) (g : TsGraph) : TsGraph where
  graph := g.graph.mapLists fun v nbrs =>
    if (db.items v).vertexType = .giant then (db.giants v).getD [] else nbrs
  commitMap := fun v =>
    if v ∈ g.graph ∧ (db.items v).vertexType = .giant then
      fun d => if d ∈ (db.giants v).getD [] then some 0 else none
    else g.commitMap v

/-- One delta: an insert carries its timestamp, a delete removes edge and timestamp. -/
def applyDelta (g : TsGraph) (rec : TxnRecord) : TsGraph where
  graph := BwGraph.applyDelta g.graph rec.delta
  commitMap :=
    if rec.target ≠ .edge then g.commitMap
    else match rec.type with
      | .insert => setTs g.commitMap rec.first rec.second (some rec.commitTs)
      | .delete =>
        if rec.first ∈ g.graph then setTs g.commitMap rec.first rec.second none else g.commitMap

end TsGraph

/-- `build_merged_graph_with_ts`: the graph, and the timestamp of each edge. -/
def buildMergedGraphWithTs (entries : List TxnEntry) (deltas : List TxnRecord) (db : TxnDb) :
    AdjMap × (VId → VId → Nat) :=
  let g := deltas.foldl TsGraph.applyDelta ((TsGraph.snapshotEntries entries).replaceGiants db)
  (g.graph.mapLists fun _ nbrs => sortUnique nbrs, fun v d => (g.commitMap v d).getD 0)

/-! ## The replacement pages -/

/-- What `do_no_split` or `do_split` makes of a graph: the vertices of each new page. -/
structure PagePacking where
  pages : AdjMap → Except String (List (List VId))
  perm : ∀ graph vss, pages graph = .ok vss → vss.flatten.Perm graph.keys

/-- One page in the order of the map. -/
def PagePacking.single : PagePacking where
  pages := fun graph => .ok [graph.keys]
  perm := by
    intro graph vss h
    cases h
    simp

/-- What a call meets at run time. `copy` is the result of `buf_page_cp` for a new page. -/
structure TxnSmoEnv where
  packing : PagePacking
  putOk : VId → Bool
  copy : PageNo → Except String Unit
  requestedThreshold : Nat
  enabled : Bool

/-- A call that meets no obstacle. -/
def TxnSmoEnv.smooth : TxnSmoEnv := ⟨.single, fun _ => true, fun _ => .ok (), 1, true⟩

/-- The threshold of the safety check. -/
def TxnSmoEnv.safetyThreshold (cfg : Config) (env : TxnSmoEnv) : Nat :=
  if env.requestedThreshold = 0 then cfg.maxDeltaChainLength else env.requestedThreshold

/-- A page number for each page, one after another. -/
def allocatePages (copy : PageNo → Except String Unit) :
    List (List VId) → DiskManager → Except String (List (PageNo × List VId) × DiskManager)
  | [], disk => .ok ([], disk)
  | vs :: vss, disk => do
    copy disk.allocatePageNo
    let (placed, disk') ← allocatePages copy vss disk.afterAllocate
    return ((disk.allocatePageNo, vs) :: placed, disk')

/-- `new_locations`. -/
def locate : List (PageNo × List VId) → VId → Option (PageNo × Nat)
  | [], _ => none
  | (q, vs) :: placed, v => if v ∈ vs then some (q, vs.idxOf v) else locate placed v

/-- The contents of the new pages. -/
def writePages (entry : VId → TxnEntry) (placed : List (PageNo × List VId))
    (pages : PageNo → List TxnEntry) : PageNo → List TxnEntry :=
  placed.foldl (fun pages x => Function.update pages x.1 (x.2.map entry)) pages

/-- The entry of a vertex on its new page; the list of a giant is not stored there. -/
def newEntry (cfg : Config) (graph : AdjMap) (ts : VId → VId → Nat) (v : VId) : TxnEntry :=
  ⟨v, false, if (graph.get v).length ≥ cfg.giantDegreeBound then []
    else (graph.get v).map fun d => (d, ts v d)⟩

/-! ## `consolidate_pages` -/

/-- Committed before the watermark. -/
def TxnRecord.Mergeable (watermark : Nat) (rec : TxnRecord) : Prop :=
  rec.commitTs ≠ 0 ∧ rec.commitTs < watermark

instance (watermark : Nat) (rec : TxnRecord) : Decidable (rec.Mergeable watermark) :=
  inferInstanceAs (Decidable (_ ∧ _))

namespace TxnDb

/-- `fetch_deltas_with_mark`. -/
def drain (db : TxnDb) (p : PageNo) : TxnDb :=
  { db with pending := Function.update db.pending p [] }

/-- A deferred record goes back in front of the chain and behind the pending ones. -/
def restoreDeferred (db : TxnDb) (rec : TxnRecord) : TxnDb :=
  if rec.target ≠ .edge then db else db.appendRecord rec

/-- The vertices of the merged graph that go to the giant store. -/
def giantVertices (cfg : Config) (db : TxnDb) (graph : AdjMap) : List VId :=
  graph.keys.filter fun v =>
    (db.items v).vertexType = .giant ∨ (graph.get v).length ≥ cfg.giantDegreeBound

/-- The giant store and the pages with the merged lists. -/
def writeReplacement (cfg : Config) (db : TxnDb) (graph : AdjMap) (ts : VId → VId → Nat)
    (placed : List (PageNo × List VId)) : TxnDb :=
  { db with
    giants := fun v => if v ∈ db.giantVertices cfg graph then some (graph.get v) else db.giants v
    pages := writePages (newEntry cfg graph ts) placed db.pages }

/-- One stray or deferred record, with the number of records rerouted for each vertex so far. -/
def rerouteStray (placed : List (PageNo × List VId)) (st : TxnDb × (VId → Nat)) (rec : TxnRecord) :
    Except String (TxnDb × (VId → Nat)) :=
  if rec.target ≠ .edge then .ok st
  else match locate placed rec.first with
    | none => .error "SMO stray delta source is missing from replacement pages"
    | some (q, _) => .ok (
      { st.1 with
        chain := Function.update st.1.chain rec.first (rec :: st.1.chain rec.first)
        pending := Function.update st.1.pending q (st.1.pending q ++ [rec]) },
      Function.update st.2 rec.first (st.2 rec.first + 1))

/-- `finalize_consolidation`, for every vertex of `new_locations`. -/
def finalize (db : TxnDb) (placed : List (PageNo × List VId)) (giants : List VId)
    (rerouted : VId → Nat) : TxnDb :=
  { db with
    chain := fun v => match locate placed v with
      | none => db.chain v
      | some _ => (db.chain v).take (rerouted v)
    items := fun v => match locate placed v with
      | none => db.items v
      | some (q, i) => { db.items v with
          pageNo := q
          offset := i
          vertexType := if v ∈ giants then .giant else .normal } }

end TxnDb

/-- The transactions over their store, with the CSR file and the pages that wait to be recycled. -/
structure SmoSys where
  sys : TxnSys
  disk : DiskManager
  retired : List PageNo

namespace SmoSys

variable (s : SmoSys)

/-- The database. -/
def db : TxnDb := s.sys.store.db

/-- The watermark the split uses. -/
def watermark : Nat := s.sys.store.manager.getWatermark

/-- The database changes. -/
def setDb (db : TxnDb) : SmoSys :=
  { s with sys := { s.sys with store := { s.sys.store with db := db } } }

/-- The pending records of a page that are merged. -/
def mergeable (p : PageNo) : List TxnRecord :=
  (s.db.pending p).filter fun rec => rec.Mergeable s.watermark

/-- The others. -/
def deferred (p : PageNo) : List TxnRecord :=
  (s.db.pending p).filter fun rec => ¬ rec.Mergeable s.watermark

/-- From the merged graph to the published versions. -/
def publish (cfg : Config) (env : TxnSmoEnv) (p : PageNo) (graph : AdjMap)
    (ts : VId → VId → Nat) (deferred : List TxnRecord) (db : TxnDb) : Except String SmoSys := do
  let giants := db.giantVertices cfg graph
  if giants.any fun v => !env.putOk v then
    throw "SMO: failed to persist promoted giant vertex"
  else
    let vss ← env.packing.pages graph
    let (placed, disk) ← allocatePages env.copy vss s.disk
    let db := db.writeReplacement cfg graph ts placed
    let stray := db.pending p ++ deferred
    let (db, rerouted) ← stray.foldlM (TxnDb.rerouteStray placed) (db.drain p, fun _ => 0)
    return ⟨(s.setDb (db.finalize placed giants rerouted)).sys, disk, p :: s.retired⟩

/-- `consolidate_pages`. -/
def consolidatePagesTxn (cfg : Config) (env : TxnSmoEnv) (p : PageNo) : Except String SmoSys :=
  if !env.enabled then .ok s
  else if (s.db.pending p).length < env.safetyThreshold cfg then .ok s
  else if (s.db.pending p).isEmpty then .ok (s.setDb (s.db.drain p))
  else if (s.mergeable p).isEmpty then
    .ok (s.setDb ((s.deferred p).foldl TxnDb.restoreDeferred (s.db.drain p)))
  else
    let (graph, ts) := buildMergedGraphWithTs (s.db.pages p) (s.mergeable p) s.db
    if graph.keys.isEmpty then .ok (s.setDb (s.db.drain p))
    else s.publish cfg env p graph ts (s.deferred p) (s.db.drain p)

/-- `delete_page` on an old page once its last version is reclaimed. -/
def recycle (p : PageNo) : SmoSys :=
  { s with disk := s.disk.deletePage p, retired := s.retired.erase p }

end SmoSys

/-! ## What a call that returns has done -/

namespace SmoSys

variable {cfg : Config} {env : TxnSmoEnv} {p : PageNo} {s s' : SmoSys}

/-- The call gets as far as merging. -/
def Merges (cfg : Config) (env : TxnSmoEnv) (p : PageNo) (s : SmoSys) : Prop :=
  env.enabled = true ∧ env.safetyThreshold cfg ≤ (s.db.pending p).length ∧ s.mergeable p ≠ []

/-- The merged graph of a page. -/
def mergedGraph (p : PageNo) (s : SmoSys) : AdjMap × (VId → VId → Nat) :=
  buildMergedGraphWithTs (s.db.pages p) (s.mergeable p) s.db

/-- A published replacement: its pages, and the state after it. -/
structure Replaces (cfg : Config) (p : PageNo) (s s' : SmoSys) (vss : List (List VId))
    (placed : List (PageNo × List VId)) : Prop where
  perm : vss.flatten.Perm (s.mergedGraph p).1.keys
  alloc : ∃ copy, allocatePages copy vss s.disk = .ok (placed, s'.disk)
  retired : s'.retired = p :: s.retired
  txns : s'.sys.txns = s.sys.txns
  manager : s'.sys.store.manager = s.sys.store.manager
  db : ∃ db rerouted, (s.deferred p).foldlM (TxnDb.rerouteStray placed)
      ((s.db.drain p).writeReplacement cfg (s.mergedGraph p).1 (s.mergedGraph p).2 placed,
        fun _ => 0) = .ok (db, rerouted) ∧
    s'.db = db.finalize placed ((s.db.drain p).giantVertices cfg (s.mergedGraph p).1) rerouted

/-- What `publish` leaves when it returns; the page was drained before, so there are no strays. -/
theorem publish_ok {graph : AdjMap} {ts : VId → VId → Nat} {deferred : List TxnRecord} {db : TxnDb}
    (h : s.publish cfg env p graph ts deferred (db.drain p) = .ok s') :
    ∃ vss placed disk db' rerouted, vss.flatten.Perm graph.keys ∧
      allocatePages env.copy vss s.disk = .ok (placed, disk) ∧
      deferred.foldlM (TxnDb.rerouteStray placed)
        ((db.drain p).writeReplacement cfg graph ts placed, fun _ => 0) = .ok (db', rerouted) ∧
      s' = ⟨(s.setDb (db'.finalize placed ((db.drain p).giantVertices cfg graph) rerouted)).sys,
        disk, p :: s.retired⟩ := by
  have hp : ∀ placed, ((db.drain p).writeReplacement cfg graph ts placed).pending p = [] :=
    fun _ => update_self _ _ _
  have hd : ∀ placed, ((db.drain p).writeReplacement cfg graph ts placed).drain p =
      (db.drain p).writeReplacement cfg graph ts placed := by
    intro placed
    unfold TxnDb.drain TxnDb.writeReplacement
    simp
  unfold publish at h
  dsimp only at h
  split_ifs at h
  obtain ⟨vss, hv, h⟩ := Except.bind_eq_ok.1 h
  obtain ⟨⟨placed, disk⟩, ha, h⟩ := Except.bind_eq_ok.1 h
  dsimp only at h
  rw [hp, hd, nil_append] at h
  obtain ⟨⟨db', rerouted⟩, hr, h⟩ := Except.bind_eq_ok.1 h
  cases h
  exact ⟨vss, placed, disk, db', rerouted, env.packing.perm _ _ hv, ha, hr, rfl⟩

/-- A call leaves the state alone, puts the drained records back, finds nothing to merge them
into, or publishes a replacement. -/
theorem consolidatePagesTxn_cases (h : s.consolidatePagesTxn cfg env p = .ok s') :
    (¬ Merges cfg env p s ∧ (s' = s ∨ (s.mergeable p = [] ∧
      s' = s.setDb ((s.deferred p).foldl TxnDb.restoreDeferred (s.db.drain p))))) ∨
    (Merges cfg env p s ∧ (s.mergedGraph p).1.keys = [] ∧ s' = s.setDb (s.db.drain p)) ∨
    (Merges cfg env p s ∧ ∃ vss placed, Replaces cfg p s s' vss placed) := by
  unfold consolidatePagesTxn at h
  split_ifs at h with h1 h2 h3 h4
  · cases h
    exact .inl ⟨fun hm => by simp [hm.1] at h1, .inl rfl⟩
  · cases h
    exact .inl ⟨fun hm => absurd hm.2.1 (Nat.not_le.2 h2), .inl rfl⟩
  · cases h
    have hnil : s.db.pending p = [] := isEmpty_iff.1 h3
    have hm : s.mergeable p = [] := by simp [mergeable, hnil]
    refine .inl ⟨fun hm' => hm'.2.2 hm, .inr ⟨hm, ?_⟩⟩
    simp [deferred, hnil]
  · cases h
    have hm : s.mergeable p = [] := isEmpty_iff.1 h4
    exact .inl ⟨fun hm' => hm'.2.2 hm, .inr ⟨hm, rfl⟩⟩
  · have hm : Merges cfg env p s :=
      ⟨by simpa using h1, Nat.not_lt.1 h2, fun hn => h4 (by rw [hn]; rfl)⟩
    change (if (s.mergedGraph p).1.keys.isEmpty then _ else _) = _ at h
    split_ifs at h with h5
    · cases h
      exact .inr (.inl ⟨hm, isEmpty_iff.1 h5, rfl⟩)
    · refine .inr (.inr ⟨hm, ?_⟩)
      obtain ⟨vss, placed, disk, db', rerouted, hv, ha, hr, rfl⟩ := publish_ok h
      exact ⟨vss, placed, hv, ⟨_, ha⟩, rfl, rfl, rfl, db', rerouted, hr, rfl⟩

end SmoSys

/-! ## The rerouted records -/

namespace TxnDb

variable {placed : List (PageNo × List VId)}

/-- The page a rerouted record is pending on. -/
def reroutedTo (placed : List (PageNo × List VId)) (q : PageNo) (rec : TxnRecord) : Bool :=
  (locate placed rec.first).map Prod.fst = some q

/-- The loop over the rerouted records: each is put in front of its chain and behind the pending
records of its vertex's new page. -/
theorem foldlM_rerouteStray {recs : List TxnRecord} {st st' : TxnDb × (VId → Nat)}
    (h : recs.foldlM (rerouteStray placed) st = .ok st') (hedge : ∀ rec ∈ recs, rec.target = .edge) :
    (∀ rec ∈ recs, (locate placed rec.first).isSome) ∧
    st'.1 = { st.1 with chain := st'.1.chain, pending := st'.1.pending } ∧
    (∀ v, st'.1.chain v = (recs.filter fun rec => rec.first = v).reverse ++ st.1.chain v ∧
      st'.2 v = st.2 v + (recs.filter fun rec => rec.first = v).length) ∧
    ∀ q, st'.1.pending q = st.1.pending q ++ recs.filter (reroutedTo placed q) := by
  induction recs generalizing st with
  | nil =>
    cases h
    exact ⟨fun _ hr => absurd hr not_mem_nil, rfl, fun v => ⟨rfl, rfl⟩, fun q => by simp⟩
  | cons rec recs ih =>
    rw [foldlM_cons] at h
    obtain ⟨st1, h1, h2⟩ := Except.bind_eq_ok.1 h
    obtain ⟨i1, i2, i3, i4⟩ := ih h2 fun r hr => hedge r (mem_cons_of_mem _ hr)
    unfold rerouteStray at h1
    rw [if_neg (by simp [hedge rec mem_cons_self])] at h1
    cases hl : locate placed rec.first with
    | none => rw [hl] at h1; cases h1
    | some x =>
      rw [hl] at h1
      cases h1
      refine ⟨?_, i2, fun v => ?_, fun q => ?_⟩
      · intro r hr
        rcases mem_cons.1 hr with rfl | hr
        · rw [hl]; rfl
        · exact i1 r hr
      · obtain ⟨hc, hn⟩ := i3 v
        rw [hc, hn]
        by_cases hv : rec.first = v
        · subst hv
          simp
          omega
        · have hv' : v ≠ rec.first := fun he => hv he.symm
          simp [hv, hv']
      · rw [i4 q]
        by_cases hq : x.1 = q
        · subst hq
          simp [reroutedTo, hl]
        · have hq' : q ≠ x.1 := fun he => hq he.symm
          simp [reroutedTo, hl, hq, hq']

end TxnDb

/-! ## New pages -/

theorem locate_isSome {placed : List (PageNo × List VId)} {v : VId} :
    (locate placed v).isSome ↔ ∃ x ∈ placed, v ∈ x.2 := by
  induction placed with
  | nil => simp [locate]
  | cons x placed ih =>
    unfold locate
    split_ifs with h
    · simp [h]
    · rw [ih]
      simp [h]

variable {q : PageNo}

variable {placed : List (PageNo × List VId)} {v : VId} {i : Nat}

theorem mem_of_locate (h : locate placed v = some (q, i)) :
    ∃ vs, (q, vs) ∈ placed ∧ vs[i]? = some v := by
  induction placed with
  | nil => cases h
  | cons x placed ih =>
    unfold locate at h
    split_ifs at h with hv
    · cases h
      exact ⟨x.2, mem_cons_self, getElem?_idxOf hv⟩
    · obtain ⟨vs, hm, hi⟩ := ih h
      exact ⟨vs, mem_cons_of_mem _ hm, hi⟩

/-- With every vertex placed once, a vertex is located where it is placed. -/
theorem locate_of_mem {vs : List VId} (hn : (placed.map Prod.snd).flatten.Nodup)
    (hm : (q, vs) ∈ placed) (hi : vs[i]? = some v) : locate placed v = some (q, i) := by
  induction placed with
  | nil => cases hm
  | cons x placed ih =>
    rw [List.map_cons, List.flatten_cons, List.nodup_append] at hn
    obtain ⟨hn1, hn2, hdis⟩ := hn
    have hv : v ∈ vs := List.mem_of_getElem? hi
    unfold locate
    rcases List.mem_cons.1 hm with rfl | hm
    · rw [if_pos hv]
      obtain ⟨hlt, hget⟩ := List.getElem?_eq_some_iff.1 hi
      rw [← hget, hn1.idxOf_getElem]
    · have hv' : v ∈ (placed.map Prod.snd).flatten :=
        List.mem_flatten.2 ⟨vs, List.mem_map.2 ⟨(q, vs), hm, rfl⟩, hv⟩
      rw [if_neg fun hx => hdis v hx v hv' rfl]
      exact ih hn2 hm

section

variable {entry : VId → TxnEntry} {placed : List (PageNo × List VId)}
  {pages : PageNo → List TxnEntry}

theorem writePages_of_notMem (h : q ∉ placed.map Prod.fst) :
    writePages entry placed pages q = pages q := by
  unfold writePages
  induction placed generalizing pages with
  | nil => rfl
  | cons x placed ih =>
    rw [map_cons, mem_cons, not_or] at h
    rw [foldl_cons, ih h.2, update_of_ne h.1]

theorem writePages_of_mem {vs : List VId} (hn : (placed.map Prod.fst).Nodup) (h : (q, vs) ∈ placed) :
    writePages entry placed pages q = vs.map entry := by
  induction placed generalizing pages with
  | nil => cases h
  | cons x placed ih =>
    rw [map_cons, nodup_cons] at hn
    rcases mem_cons.1 h with rfl | h
    · show writePages entry placed (update pages q (vs.map entry)) q = _
      rw [writePages_of_notMem hn.1, update_self]
    · exact ih hn.2 h

end

/-- The free pages are below the end of the file and listed once. -/
structure DiskManager.FreeOk (m : DiskManager) : Prop where
  pageSize : 0 < m.pageSize
  nodup : m.freePages.Nodup
  lt : ∀ q ∈ m.freePages, q < m.globalPageCount

theorem DiskManager.FreeOk.allocate {m : DiskManager} (h : m.FreeOk) : m.afterAllocate.FreeOk := by
  obtain ⟨-, -, -, h4, h5, h6⟩ := allocatePage_free h.pageSize h.nodup h.lt
  refine ⟨by rw [afterAllocate_pageSize]; exact h.pageSize, h4, fun q hq => ?_⟩
  exact Nat.lt_of_lt_of_le (h.lt q (h5 q hq)) h6

/-- The new pages are distinct; each was free or past the end of the file, and is neither now. -/
theorem allocatePages_ok {copy : PageNo → Except String Unit} {vss : List (List VId)}
    {disk disk' : DiskManager} {placed : List (PageNo × List VId)} (hf : disk.FreeOk)
    (h : allocatePages copy vss disk = .ok (placed, disk')) :
    placed.map Prod.snd = vss ∧ (placed.map Prod.fst).Nodup ∧ disk'.FreeOk ∧
    disk.globalPageCount ≤ disk'.globalPageCount ∧ (∀ q ∈ disk'.freePages, q ∈ disk.freePages) ∧
    ∀ q ∈ placed.map Prod.fst, q ∉ disk'.freePages ∧ q < disk'.globalPageCount ∧
      (q ∈ disk.freePages ∨ disk.globalPageCount ≤ q) := by
  induction vss generalizing disk placed with
  | nil =>
    cases h
    exact ⟨rfl, nodup_nil, hf, Nat.le_refl _, fun _ hq => hq, fun _ hq => (by cases hq)⟩
  | cons vs vss ih =>
    unfold allocatePages at h
    obtain ⟨-, -, h⟩ := Except.bind_eq_ok.1 h
    obtain ⟨⟨placed', disk1⟩, h1, h⟩ := Except.bind_eq_ok.1 h
    cases h
    obtain ⟨i1, i2, i3, i4, i5, i6⟩ := ih hf.allocate h1
    obtain ⟨a1, a2, a3, a4, a5, a6⟩ := DiskManager.allocatePage_free hf.pageSize hf.nodup hf.lt
    refine ⟨by rw [map_cons, i1], ?_, i3, Nat.le_trans a6 i4, fun q hq => a5 q (i5 q hq), ?_⟩
    · rw [map_cons, nodup_cons]
      refine ⟨fun hq => ?_, i2⟩
      rcases (i6 _ hq).2.2 with hfree | hge
      · exact a1 hfree
      · exact absurd a3 (Nat.not_lt.2 hge)
    · intro q hq
      rcases mem_cons.1 hq with rfl | hq
      · exact ⟨fun hm => a1 (i5 _ hm), Nat.lt_of_lt_of_le a3 i4, a2⟩
      · obtain ⟨h1, h2, h3⟩ := i6 q hq
        refine ⟨h1, h2, ?_⟩
        rcases h3 with h3 | h3
        · exact .inl (a5 q h3)
        · exact .inr (Nat.le_trans a6 h3)

/-! ## The merged graph -/

/-- The entry counts for vertex `v`. -/
def TxnEntry.IsOf (v : VId) (e : TxnEntry) : Prop := e.isDeleted = false ∧ e.vertexId = v

instance (v : VId) (e : TxnEntry) : Decidable (e.IsOf v) := inferInstanceAs (Decidable (_ ∧ _))

namespace TsGraph

theorem graph_foldl_snapshotEntry (entries : List TxnEntry) (g : TsGraph) (v : VId) :
    (v ∈ (entries.foldl snapshotEntry g).graph ↔ v ∈ g.graph ∨ ∃ e ∈ entries, e.IsOf v) ∧
    (entries.foldl snapshotEntry g).graph.get v =
      g.graph.get v ++ (entries.filter fun e => e.IsOf v).flatMap fun e => e.edges.map Prod.fst := by
  induction entries generalizing g with
  | nil => simp
  | cons e entries ih =>
    obtain ⟨i1, i2⟩ := ih (snapshotEntry g e)
    rw [foldl_cons, i1, i2, exists_mem_cons_iff]
    unfold snapshotEntry TxnEntry.IsOf
    cases hd : e.isDeleted with
    | true => simp [hd]
    | false =>
      by_cases hv : e.vertexId = v
      · subst hv
        simp [hd]
      · have hv' : v ≠ e.vertexId := fun he => hv he.symm
        simp [hd, hv, hv', get_insert_ne _ _ hv']

theorem setTs_cases {c : VId → VId → Option Nat} {v d w x : VId} {ts : Option Nat} {t : Nat}
    (h : setTs c v d ts w x = some t) : ts = some t ∨ c w x = some t := by
  unfold setTs at h
  by_cases hw : w = v
  · subst hw
    by_cases hx : x = d
    · subst hx
      simp only [update_self] at h
      exact .inl h
    · rw [update_self, update_of_ne hx] at h
      exact .inr h
  · rw [update_of_ne hw] at h
    exact .inr h

/-- Every timestamp of the map is one of a kind. -/
def TsAll (P : Nat → Prop) (g : TsGraph) : Prop := ∀ v d ts, g.commitMap v d = some ts → P ts

variable {P : Nat → Prop}

variable {g : TsGraph}

theorem TsAll.snapshotEntry (h : g.TsAll P) {e : TxnEntry} (he : ∀ x ∈ e.edges, P x.2) :
    (g.snapshotEntry e).TsAll P := by
  have hloop : ∀ (edges : List (VId × Nat)) (c : VId → VId → Option Nat),
      (∀ x ∈ edges, P x.2) → (∀ v d ts, c v d = some ts → P ts) →
      ∀ v d ts, edges.foldl (fun c x => setTs c e.vertexId x.1 (some x.2)) c v d = some ts →
        P ts := by
    intro edges
    induction edges with
    | nil => exact fun c _ hc => hc
    | cons x edges ih =>
      intro c hx hc
      refine ih _ (fun y hy => hx y (mem_cons_of_mem _ hy)) fun v d ts hts => ?_
      rcases setTs_cases hts with hts | hts
      · cases hts
        exact hx x mem_cons_self
      · exact hc v d ts hts
  unfold TsGraph.snapshotEntry
  split_ifs
  · exact h
  · exact hloop e.edges g.commitMap he h

theorem tsAll_snapshotEntries {entries : List TxnEntry} (he : ∀ e ∈ entries, ∀ x ∈ e.edges, P x.2) :
    (snapshotEntries entries).TsAll P := by
  have hloop : ∀ (entries : List TxnEntry) (g : TsGraph), g.TsAll P →
      (∀ e ∈ entries, ∀ x ∈ e.edges, P x.2) → (entries.foldl TsGraph.snapshotEntry g).TsAll P := by
    intro entries
    induction entries with
    | nil => exact fun g hg _ => hg
    | cons e entries ih =>
      intro g hg he
      exact ih _ (hg.snapshotEntry (he e mem_cons_self))
        fun e' he' => he e' (mem_cons_of_mem _ he')
  exact hloop entries _ (fun v d ts h => by cases h) he

theorem TsAll.replaceGiants (h : g.TsAll P) (h0 : P 0) (db : TxnDb) :
    (g.replaceGiants db).TsAll P := by
  intro v d ts hts
  unfold TsGraph.replaceGiants at hts
  by_cases hg : v ∈ g.graph ∧ (db.items v).vertexType = .giant
  · by_cases hd : d ∈ (db.giants v).getD []
    · simp only [if_pos hg, if_pos hd] at hts
      cases hts
      exact h0
    · simp [if_pos hg, if_neg hd] at hts
  · simp only [if_neg hg] at hts
    exact h v d ts hts

theorem TsAll.applyDelta (h : g.TsAll P) {rec : TxnRecord} (hr : P rec.commitTs) :
    (g.applyDelta rec).TsAll P := by
  intro v d ts hts
  unfold TsGraph.applyDelta at hts
  by_cases he : rec.target = .edge
  · cases ht : rec.type with
    | insert =>
      simp only [he, ht, ne_eq, not_true_eq_false, if_false] at hts
      rcases setTs_cases hts with hts | hts
      · cases hts
        exact hr
      · exact h v d ts hts
    | delete =>
      simp only [he, ht, ne_eq, not_true_eq_false, if_false] at hts
      split_ifs at hts
      · rcases setTs_cases hts with hts | hts
        · cases hts
        · exact h v d ts hts
      · exact h v d ts hts
  · simp only [he, ne_eq, not_false_eq_true, if_true] at hts
    exact h v d ts hts

theorem TsAll.foldl_applyDelta (h : g.TsAll P) {recs : List TxnRecord}
    (hr : ∀ rec ∈ recs, P rec.commitTs) : (recs.foldl TsGraph.applyDelta g).TsAll P := by
  induction recs generalizing g with
  | nil => exact h
  | cons rec recs ih =>
    exact ih (h.applyDelta (hr rec mem_cons_self))
      fun r hr' => hr r (mem_cons_of_mem _ hr')

theorem graph_foldl_applyDelta (recs : List TxnRecord) (g : TsGraph) :
    (recs.foldl TsGraph.applyDelta g).graph =
      (recs.map TxnRecord.delta).foldl BwGraph.applyDelta g.graph := by
  induction recs generalizing g with
  | nil => rfl
  | cons rec recs ih => exact ih _

end TsGraph

section

variable {entries : List TxnEntry} {deltas : List TxnRecord} {db : TxnDb} {v : VId}

/-- The vertices of the merged graph: those with an entry and those with an insertion. -/
theorem mem_buildMergedGraphWithTs :
    v ∈ (buildMergedGraphWithTs entries deltas db).1 ↔ (∃ e ∈ entries, e.IsOf v) ∨
      ∃ rec ∈ deltas, rec.target = .edge ∧ rec.type = .insert ∧ rec.first = v := by
  unfold buildMergedGraphWithTs
  simp only [mem_mapLists, TsGraph.graph_foldl_applyDelta, mem_foldl_applyDelta]
  unfold TsGraph.replaceGiants TsGraph.snapshotEntries
  rw [mem_mapLists, (TsGraph.graph_foldl_snapshotEntry _ _ _).1]
  simp [TxnRecord.delta]

/-- The timestamps of the merged graph are those of the entries and of the merged records. -/
theorem ts_buildMergedGraphWithTs {P : Nat → Prop} (h0 : P 0)
    (he : ∀ e ∈ entries, ∀ x ∈ e.edges, P x.2) (hr : ∀ rec ∈ deltas, P rec.commitTs) (v d : VId) :
    P ((buildMergedGraphWithTs entries deltas db).2 v d) := by
  have hall := ((TsGraph.tsAll_snapshotEntries he).replaceGiants h0 db).foldl_applyDelta hr
  unfold buildMergedGraphWithTs
  simp only
  cases hc : (deltas.foldl TsGraph.applyDelta
      ((TsGraph.snapshotEntries entries).replaceGiants db)).commitMap v d with
  | none => exact h0
  | some ts => exact hall v d ts hc

end

end BwGraph
