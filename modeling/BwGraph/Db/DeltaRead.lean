import BwGraph.Db.Cached

/-
  `read_neighbor_with_delta` against `read_neighbor_clone`: folding the chain from the returned
  head over the returned base list, newest record first, is to give the set of the copying read.

  A normal vertex gives both reads the same base and the same head. For a giant vertex the head
  handed out is invalid and the base is the cached list, so the reads agree only while no record
  of its chain changes the stored list and the cached list is the stored one (`DeltaReads`). Each
  of these is lost by a step of its own: a record that changes the list, and a consolidation that
  writes another list over one that is in the cache. `deltaReads_always_iff` says that the reads
  agree throughout a run exactly when it has no such step.
-/

namespace BwGraph

open Function VertexIndex Lww

/-! ## The cache as sets -/

namespace GiantVertexDb

/-- The read through the cache gives the set that is stored. -/
def ReadsStored (g : GiantVertexDb) (v : VId) : Prop :=
  ∀ d, d ∈ (g.readNeighbor v).1 ↔ d ∈ g.db.readNeighborClone v

variable {g : GiantVertexDb}

theorem readNeighbor_of_cached {v : VId} {l : List VId} (h : g.neighborCache v = some l) :
    (g.readNeighbor v).1 = l := by
  simp [readNeighbor, h]

theorem readNeighbor_of_uncached {v : VId} (h : g.neighborCache v = none) :
    (g.readNeighbor v).1 = g.db.readNeighborClone v := by
  unfold readNeighbor
  rw [h]
  exact g.readNeighborClone_fst v

/-- A read of the store leaves in the cache what was there, or what is stored. -/
theorem neighborCache_readNeighborClone (g : GiantVertexDb) (v w : VId) :
    (g.readNeighborClone w).2.neighborCache v = g.neighborCache v ∨
      (g.readNeighborClone w).2.neighborCache v = some (g.db.readNeighborClone v) := by
  unfold readNeighborClone
  cases hs : g.db.store w with
  | none => exact .inl rfl
  | some neighbors =>
    rw [cache_neighborCache]
    by_cases hv : v = w
    · subst hv
      rw [if_pos rfl, GiantDb.readNeighborClone, hs]
      exact .inr rfl
    · rw [if_neg hv]
      exact .inl rfl

theorem neighborCache_readNeighbor (g : GiantVertexDb) (v w : VId) :
    (g.readNeighbor w).2.neighborCache v = g.neighborCache v ∨
      (g.readNeighbor w).2.neighborCache v = some (g.db.readNeighborClone v) := by
  unfold readNeighbor
  cases g.neighborCache w with
  | some l => exact .inl rfl
  | none => exact g.neighborCache_readNeighborClone v w

end GiantVertexDb

namespace CachedDb

variable {cfg : Config} {s s' : CachedDb} {logs : VId → List (Lww.Op VId)}

theorem mergeReads_cons (vi : VertexIndex) (g : GiantVertexDb) (w : VId) (vs : List VId) :
    mergeReads vi g (w :: vs) =
      mergeReads vi (if vi.isGiantVertex w then (g.readNeighborClone w).2 else g) vs := rfl

theorem neighborCache_mergeReads (vi : VertexIndex) (g : GiantVertexDb) (vs : List VId) (v : VId) :
    (mergeReads vi g vs).neighborCache v = g.neighborCache v ∨
      (mergeReads vi g vs).neighborCache v = some (g.db.readNeighborClone v) := by
  induction vs generalizing g with
  | nil => exact .inl rfl
  | cons w vs ih =>
    rw [mergeReads_cons]
    split_ifs
    · have hstep := ih (g.readNeighborClone w).2
      rw [g.readNeighborClone_db w] at hstep
      rcases hstep with hstep | hstep
      · rw [hstep]
        exact g.neighborCache_readNeighborClone v w
      · exact .inr hstep
    · exact ih g

/-! ## Both reads of a vertex -/

/-- The list that RocksDB holds for a vertex. -/
def stored (s : CachedDb) (v : VId) : List VId := s.db.giantDb.readNeighborClone v

/-- Folding the chain from the head of `read_neighbor_with_delta(v)` over its base list, newest
record first, gives the set of `read_neighbor_clone(v)`. -/
def DeltaReadAgrees (cfg : Config) (s : CachedDb) (v : VId) : Prop :=
  ∃ cells r, DeltaChain s.db.pageMap (s.readNeighborWithDelta cfg v).1.2 cells ∧
    (∃ n, ∀ fuel, n ≤ fuel → (s.readNeighborClone cfg fuel v).1 = some r) ∧
    Lww.lww {x | x ∈ (s.readNeighborWithDelta cfg v).1.1} (opsOf cells).reverse = {d | d ∈ r}

/-- Both reads of every vertex agree. -/
def DeltaReads (cfg : Config) (s : CachedDb) : Prop :=
  ∀ v, v < s.db.vertexIndex.size → DeltaReadAgrees cfg s v

variable {v : VId}

/-- What a giant vertex has to fulfil; a normal one always agrees. -/
theorem deltaReadAgrees_iff {ops : List (Lww.Op VId)} (h : Logs s.db v ops) :
    DeltaReadAgrees cfg s v ↔ (s.IsGiant v →
      {x | x ∈ (s.giants.readNeighbor v).1} = lww {x | x ∈ s.stored v} ops) := by
  -- the copying read gives the set of base list and log
  have hclone : ∀ r, (∃ n, ∀ fuel, n ≤ fuel → (s.readNeighborClone cfg fuel v).1 = some r) ↔
      Returns cfg s.db v r := fun r => by
    simp only [readNeighborClone_fst]
    rfl
  have hiff : DeltaReadAgrees cfg s v ↔ ∃ cells,
      DeltaChain s.db.pageMap (s.readNeighborWithDelta cfg v).1.2 cells ∧
      lww {x | x ∈ (s.readNeighborWithDelta cfg v).1.1} (opsOf cells).reverse =
        lww {x | x ∈ s.db.base cfg v} ops := by
    constructor
    · rintro ⟨cells, r, hc, hr, hset⟩
      exact ⟨cells, hc, hset.trans (h.reads_iff.1 ⟨r, (hclone r).1 hr, rfl⟩).symm⟩
    · rintro ⟨cells, hc, hset⟩
      obtain ⟨r, hr, hrset⟩ : Reads cfg s.db v _ := h.reads
      exact ⟨cells, r, hc, (hclone r).2 hr, hset.trans hrset.symm⟩
  rw [hiff]
  by_cases hg : s.IsGiant v
  · have hbase : s.db.base cfg v = s.stored v := if_pos hg
    have hread : (s.readNeighborWithDelta cfg v).1 = ((s.giants.readNeighbor v).1, none) := by
      rw [readNeighborWithDelta, if_pos hg]
    rw [hread, hbase]
    constructor
    · rintro ⟨cells, hc, hset⟩ -
      cases hc
      exact hset
    · exact fun hset => ⟨[], .nil, hset hg⟩
  · have hbase : s.db.base cfg v = s.csrNeighbors cfg v := if_neg hg
    have hread : (s.readNeighborWithDelta cfg v).1 =
        (s.csrNeighbors cfg v, s.db.vertexIndex.deltaHeads v) := by
      rw [readNeighborWithDelta, if_neg hg]
    rw [hread, hbase]
    obtain ⟨cells, hc, -, hops⟩ := h
    exact iff_of_true ⟨cells, hc, by rw [hops]⟩ fun hg' => absurd hg' hg

/-! ## States in which they agree -/

/-- No record of a giant vertex changes its stored list, and the read through the cache gives what
is stored. -/
structure Undisturbed (logs : VId → List (Lww.Op VId)) (s : CachedDb) : Prop where
  logged : Logged logs s.db
  cache : ∀ v, v < s.db.vertexIndex.size → s.IsGiant v → s.giants.ReadsStored v
  neutral : ∀ v, v < s.db.vertexIndex.size → s.IsGiant v →
    Lww.lww {x | x ∈ s.stored v} (logs v) = {x | x ∈ s.stored v}

theorem Undisturbed.deltaReads (h : Undisturbed logs s) : DeltaReads cfg s := by
  intro v hv
  refine (deltaReadAgrees_iff (h.logged.log v)).2 fun hg => ?_
  rw [h.neutral v hv hg]
  ext d
  exact h.cache v hv hg d

/-- The step changes nothing in what the reads of giant vertices give. -/
def KeepsDeltaReads (cfg : Config) (s : CachedDb) : CachedEvent → Prop
  | .call (.call (.insertEdge src dst _)) => s.IsGiant src → dst ∈ s.stored src
  | .call (.call (.deleteEdge src dst _)) => s.IsGiant src → dst ∉ s.stored src
  | .call (.call (.consolidate p env)) => Merges cfg env s.db p →
    ∀ v, v < s.db.vertexIndex.size → v ∈ mergedGraph cfg s.db p →
      StoredGiant cfg s.db.vertexIndex (mergedGraph cfg s.db p) v →
      ∀ l, s.cacheAfter cfg (.call (.consolidate p env)) v = some l →
        ∀ d, d ∈ l ↔ d ∈ (mergedGraph cfg s.db p).get v
  | .insertEdgeDirect src dst _ => s.IsGiant src → s.db.Accepts src dst →
    (writeSlot cfg (s.db.location src).1 (s.db.location src).2 src dst s.db).value? =
      some .slotFull → dst ∈ s.stored src
  | .deleteVertex v true _ => v < s.db.vertexIndex.size →
    (s.db.vertexIndex.items v).isDelete = false →
    ∀ d ∈ (s.readNeighbor cfg v).1, d < s.db.vertexIndex.size →
      (s.IsGiant v → d ∉ s.stored v) ∧ (s.IsGiant d → v ∉ s.stored d)
  | _ => True

/-! ## One step -/

/-- The step promotes no vertex, leaves the stored lists alone, and brings nothing else into the
cache. -/
structure SameGiants (s s' : CachedDb) : Prop where
  old : ∀ v, v < s'.db.vertexIndex.size → s'.IsGiant v → v < s.db.vertexIndex.size ∧ s.IsGiant v
  giantDb : s'.db.giantDb = s.db.giantDb
  cache : ∀ v, s'.neighborCache v = s.neighborCache v ∨ s'.neighborCache v = some (s.stored v)

theorem SameGiants.trans {s'' : CachedDb} (h : SameGiants s s') (h' : SameGiants s' s'') :
    SameGiants s s'' := by
  have hstored : ∀ v, s'.stored v = s.stored v := fun v => by
    unfold CachedDb.stored
    rw [h.giantDb]
  refine ⟨fun v hv hg => ?_, h'.giantDb.trans h.giantDb, fun v => ?_⟩
  · obtain ⟨hv', hg'⟩ := h'.old v hv hg
    exact h.old v hv' hg'
  · rcases h'.cache v with hc | hc
    · rw [hc]
      exact h.cache v
    · exact .inr (hc.trans (congrArg some (hstored v)))

theorem SameGiants.stored (h : SameGiants s s') (v : VId) : s'.stored v = s.stored v := by
  unfold CachedDb.stored
  rw [h.giantDb]

theorem readsStored_of_kept (h : s.giants.ReadsStored v) (hstored : s'.stored v = s.stored v)
    (hcache : s'.neighborCache v = s.neighborCache v ∨ s'.neighborCache v = some (s.stored v)) :
    s'.giants.ReadsStored v := by
  have hstored' : s'.giants.db.readNeighborClone v = s.stored v := hstored
  intro d
  rw [hstored']
  rcases hcache with hc | hc
  · have hread := h d
    cases hl : s.neighborCache v with
    | some l =>
      have hl' : s'.giants.neighborCache v = some l := hc.trans hl
      rw [GiantVertexDb.readNeighbor_of_cached (g := s.giants) hl] at hread
      rw [GiantVertexDb.readNeighbor_of_cached hl']
      exact hread
    | none =>
      have hl' : s'.giants.neighborCache v = none := hc.trans hl
      rw [GiantVertexDb.readNeighbor_of_uncached hl', hstored']
  · rw [GiantVertexDb.readNeighbor_of_cached hc]

theorem SameGiants.readsStored (hs : SameGiants s s') (h : Undisturbed logs s)
    (hv : v < s'.db.vertexIndex.size) (hg : s'.IsGiant v) : s'.giants.ReadsStored v := by
  obtain ⟨hv', hg'⟩ := hs.old v hv hg
  exact readsStored_of_kept (h.cache v hv' hg') (hs.stored v) (hs.cache v)

/-- The records `new` are appended, and change no stored list. -/
def Neutral (s s' : CachedDb) (new : VId → List (Lww.Op VId)) : Prop :=
  ∀ v, v < s'.db.vertexIndex.size → s'.IsGiant v →
    Lww.lww {x | x ∈ s.stored v} (new v) = {x | x ∈ s.stored v}

section

variable {new : VId → List (Lww.Op VId)}

variable (h : Undisturbed logs s) (hs : SameGiants s s')
include h hs

theorem Undisturbed.lww_appended {v : VId} (hv : v < s'.db.vertexIndex.size) (hg : s'.IsGiant v) :
    lww {x | x ∈ s'.stored v} (logs v ++ new v) = lww {x | x ∈ s.stored v} (new v) := by
  obtain ⟨hv', hg'⟩ := hs.old v hv hg
  rw [hs.stored, lww_append, h.neutral v hv' hg']

theorem Undisturbed.appended (hlog : Logged (fun v => logs v ++ new v) s'.db)
    (hn : Neutral s s' new) : Undisturbed (fun v => logs v ++ new v) s' :=
  ⟨hlog, fun _ hv hg => hs.readsStored h hv hg, fun v hv hg => by
    rw [h.lww_appended hs hv hg, hn v hv hg, hs.stored]⟩

theorem Undisturbed.neutral_of_deltaReads (hlog : Logged (fun v => logs v ++ new v) s'.db)
    (hd : DeltaReads cfg s') : Neutral s s' new := by
  intro v hv hg
  have ha := (deltaReadAgrees_iff (hlog.log v)).1 (hd v hv) hg
  rw [← h.lww_appended hs hv hg, ← ha]
  ext d
  refine (hs.readsStored h hv hg d).trans ?_
  rw [← hs.stored]
  rfl

end

/-- A step that appends nothing to a giant vertex. -/
theorem Undisturbed.kept {logs' : VId → List (Lww.Op VId)} (h : Undisturbed logs s)
    (hs : SameGiants s s') (hlog : Logged logs' s'.db)
    (hlogs : ∀ v, v < s'.db.vertexIndex.size → s'.IsGiant v → logs' v = logs v) :
    Undisturbed logs' s' := by
  refine ⟨hlog, fun _ hv hg => hs.readsStored h hv hg, fun v hv hg => ?_⟩
  obtain ⟨hv', hg'⟩ := hs.old v hv hg
  rw [hlogs v hv hg, hs.stored]
  exact h.neutral v hv' hg'

/-- After the step the reads agree exactly when `ok` holds, and then the giant vertices are
undisturbed again. -/
def Decides (cfg : Config) (s' : CachedDb) (ok : Prop) : Prop :=
  (DeltaReads cfg s' → ok) ∧ (ok → ∃ logs, Undisturbed logs s')

theorem Undisturbed.decides_of_kept {ok : Prop} (h : Undisturbed logs s) (hs : SameGiants s s')
    (hlog : Logged logs s'.db) (hok : ok) : Decides cfg s' ok :=
  ⟨fun _ => hok, fun _ => ⟨logs, h.kept hs hlog fun _ _ _ => rfl⟩⟩

/-! ## Writes -/

variable {db' : Db}

/-- The giant store and the types of all vertices are the same. -/
theorem sameGiants_of_types (hsize : db'.vertexIndex.size = s.db.vertexIndex.size)
    (htype : ∀ v, (db'.vertexIndex.items v).vertexType = (s.db.vertexIndex.items v).vertexType)
    (hgiant : db'.giantDb = s.db.giantDb) : SameGiants s ⟨db', s.neighborCache⟩ := by
  refine ⟨fun v hv hg => ⟨hsize ▸ hv, ?_⟩, hgiant, fun _ => .inl rfl⟩
  unfold IsGiant at hg ⊢
  rw [← htype]
  exact hg

theorem update_eq_append (logs : VId → List (Lww.Op VId)) (src : VId) (o : Lww.Op VId) :
    update logs src (logs src ++ [o]) =
      fun v => logs v ++ if v = src then [o] else [] := by
  funext v
  by_cases hv : v = src
  · subst hv
    simp
  · simp [hv]

/-- One record of a giant vertex is harmless when it changes nothing in the stored list. -/
theorem Undisturbed.decides_of_write (h : Undisturbed logs s) (cfg : Config) {src : VId}
    {o : Lww.Op VId} (hsize : db'.vertexIndex.size = s.db.vertexIndex.size)
    (hitems : db'.vertexIndex.items = s.db.vertexIndex.items) (hgiant : db'.giantDb = s.db.giantDb)
    (hsrc : src < s.db.vertexIndex.size) (hlog : Logged (update logs src (logs src ++ [o])) db') :
    Decides cfg ⟨db', s.neighborCache⟩
      (s.IsGiant src → o.apply {x | x ∈ s.stored src} = {x | x ∈ s.stored src}) := by
  have hs : SameGiants s ⟨db', s.neighborCache⟩ :=
    sameGiants_of_types hsize (fun v => by rw [hitems]) hgiant
  have hsame : ∀ v, CachedDb.IsGiant ⟨db', s.neighborCache⟩ v ↔ s.IsGiant v := fun v => by
    unfold IsGiant
    rw [hitems]
  rw [update_eq_append] at hlog
  constructor
  · intro hd hg
    have hn := h.neutral_of_deltaReads hs hlog hd src (hsize ▸ hsrc) ((hsame src).2 hg)
    simpa using hn
  · intro hok
    refine ⟨_, h.appended hs hlog fun v hv hg => ?_⟩
    by_cases hvs : v = src
    · subst hvs
      rw [if_pos rfl]
      exact hok ((hsame v).1 hg)
    · rw [if_neg hvs]
      rfl

theorem Undisturbed.insertEdge (h : Undisturbed logs s) {src dst : VId} {time : Nat} {db' : Db}
    (hrun : insertEdge cfg src dst time s.db = .ok true db') :
    Decides cfg ⟨db', s.neighborCache⟩ (s.IsGiant src → dst ∈ s.stored src) := by
  have hs := insertEdge_same hrun
  rcases h.logged.insertEdge hrun with ⟨-, hacc, hlog⟩ | ⟨hb, -⟩
  · have hd := h.decides_of_write cfg hs.size hs.items hs.giantDb hacc.1 hlog
    rw [apply_insert_eq_self] at hd
    exact hd
  · cases hb

theorem Undisturbed.deleteEdge (h : Undisturbed logs s) {src dst : VId} {time : Nat} {db' : Db}
    (hrun : deleteEdge cfg src dst time s.db = .ok true db') :
    Decides cfg ⟨db', s.neighborCache⟩ (s.IsGiant src → dst ∉ s.stored src) := by
  have hs := deleteEdge_same hrun
  rcases h.logged.deleteEdge hrun with ⟨-, hacc, hlog⟩ | ⟨hb, -⟩
  · have hd := h.decides_of_write cfg hs.size hs.items hs.giantDb hacc.1 hlog
    rw [apply_erase_eq_self] at hd
    exact hd
  · cases hb

theorem Undisturbed.insertEdgeDirect (h : Undisturbed logs s) {src dst : VId} {time : Nat}
    {b : Bool} (hrun : insertEdgeDirect cfg src dst time s.db = .ok b db') :
    Decides cfg ⟨db', s.neighborCache⟩
      (KeepsDeltaReads cfg s (.insertEdgeDirect src dst time)) := by
  obtain ⟨status, db1, hw, hcases⟩ := insertEdgeDirect_cases hrun
  obtain ⟨hvi, hpm, hgd⟩ := writeSlot_vertexIndex hw
  have hlog1 : Logged logs db1 := h.logged.same hpm (by rw [hvi])
  have hs1 : SameGiants s ⟨db1, s.neighborCache⟩ :=
    sameGiants_of_types (by rw [hvi]) (fun v => by rw [hvi]) hgd
  have hvalue : (writeSlot cfg (s.db.location src).1 (s.db.location src).2 src dst s.db).value? =
      some status := congrArg EStateM.Result.value? hw
  have hacc1 : db1.Accepts src dst ↔ s.db.Accepts src dst := by
    unfold Db.Accepts
    rw [hvi]
  -- without a record nothing happens to the reads of a giant vertex
  have hkept : status ≠ .slotFull ∨ ¬ s.db.Accepts src dst →
      KeepsDeltaReads cfg s (.insertEdgeDirect src dst time) := by
    intro hno _ hacc hst
    rw [hvalue] at hst
    rcases hno with hno | hno
    · exact absurd (Option.some.inj hst) hno
    · exact absurd hacc hno
  rcases hcases with ⟨rfl, hrun⟩ | ⟨hst, -, rfl⟩
  · have h1 := h.kept hs1 hlog1 fun _ _ _ => rfl
    have hs2 := insertEdge_same hrun
    rcases hlog1.insertEdge hrun with ⟨-, hacc, hlog⟩ | ⟨-, hacc, rfl⟩
    · have hd := h1.decides_of_write cfg hs2.size hs2.items hs2.giantDb hacc.1 hlog
      rw [apply_insert_eq_self] at hd
      have hg : CachedDb.IsGiant ⟨db1, s.neighborCache⟩ src ↔ s.IsGiant src := by
        unfold IsGiant
        rw [hvi]
      rw [hg, Set.mem_ofPred_eq, hs1.stored] at hd
      exact ⟨fun hdr hgs _ _ => hd.1 hdr hgs,
        fun hok => hd.2 fun hgs => hok hgs (hacc1.1 hacc) hvalue⟩
    · exact h.decides_of_kept hs1 hlog1 (hkept (.inr fun ha => hacc (hacc1.2 ha)))
  · exact h.decides_of_kept hs1 hlog1 (hkept (.inl hst))

/-! ## Consolidations -/

/-- A consolidation that passes its checks and finds records gets to the merge. -/
theorem exit_of_merges {env : SmoEnv} {p : PageNo} {exit : SmoExit} {db db' : Db}
    (hm : Merges cfg env db p) (h : consolidatePages cfg env p db = .ok exit db') :
    exit = .emptyGraph ∨ exit = .published := by
  obtain ⟨hen, hlen, hrecs⟩ := hm
  unfold consolidatePages at h
  rw [EStateM.get_bind] at h
  have hen' : ¬ (!env.enabled) = true := by simp [hen]
  rw [if_neg hen', if_neg (Nat.not_lt.2 hlen)] at h
  obtain ⟨deltas, db0, hfetch, h⟩ := EStateM.bind_eq_ok.1 h
  have hdeltas : deltas = db.pageMap.pageRecs p := by
    cases hfetch
    exact PageMap.fetchDeltasWithMark_fst _ _
  have hne : ¬ deltas.isEmpty = true := by
    rw [hdeltas, List.isEmpty_iff]
    exact hrecs
  rw [if_neg hne] at h
  obtain ⟨r, db1, -, h⟩ := EStateM.bind_eq_ok.1 h
  cases r with
  | none => exact .inl (EStateM.pure_eq_ok.1 h).1.symm
  | some r =>
    obtain ⟨⟨⟩, db2, -, h⟩ := EStateM.bind_eq_ok.1 h
    exact .inr (EStateM.pure_eq_ok.1 h).1.symm

theorem cacheAfter_consolidate (cfg : Config) (s : CachedDb) (p : PageNo) (env : SmoEnv) (v : VId) :
    s.cacheAfter cfg (.call (.consolidate p env)) v = s.neighborCache v ∨
      s.cacheAfter cfg (.call (.consolidate p env)) v = some (s.stored v) := by
  unfold cacheAfter
  dsimp only
  split_ifs
  · exact neighborCache_mergeReads _ s.giants _ v
  · exact .inl rfl

/-- A consolidation that publishes writes new lists of giant vertices below the cache. -/
theorem Undisturbed.published (h : Undisturbed logs s) {p : PageNo} {env : SmoEnv} {db' : Db}
    {locs : Locations} (hm : Merges cfg env s.db p)
    (hs : Switches cfg p (mergedGraph cfg s.db p) s.db db' locs) :
    Decides cfg ⟨db', s.cacheAfter cfg (.call (.consolidate p env))⟩
      (KeepsDeltaReads cfg s (.call (.call (.consolidate p env)))) := by
  set graph := mergedGraph cfg s.db p
  set s' : CachedDb := ⟨db', s.cacheAfter cfg (.call (.consolidate p env))⟩
  have hlog := h.logged.switches hs
  have hnew : ∀ v, v ∈ graph → (s'.IsGiant v ↔ StoredGiant cfg s.db.vertexIndex graph v) := by
    intro v hv
    obtain ⟨prepared, hl⟩ := mem_locations.1 ((hs.mem v).2 hv)
    exact (hs.switched v prepared hl).2.1
  have hstored : ∀ v, v ∈ graph → StoredGiant cfg s.db.vertexIndex graph v →
      ∀ d, d ∈ s'.stored v ↔ d ∈ graph.get v := by
    intro v hv hg d
    rw [stored, GiantDb.readNeighborClone, hs.stored v hv hg, Option.getD_some,
      List.mem_insertionSort]
  constructor
  · intro hd _ v hv hvg hsg l hl d
    have ha := (deltaReadAgrees_iff (hlog.log v)).1 (hd v (hs.size.symm ▸ hv)) ((hnew v hvg).2 hsg)
    have hl' : s'.giants.neighborCache v = some l := hl
    rw [if_pos hvg, lww_nil, GiantVertexDb.readNeighbor_of_cached hl'] at ha
    rw [← hstored v hvg hsg]
    exact Set.ext_iff.1 ha d
  · intro hok
    -- the vertices outside of the merged graph keep their lists
    have hkept : ∀ v, v ∉ graph → (s'.IsGiant v ↔ s.IsGiant v) ∧ s'.stored v = s.stored v := by
      intro v hvg
      refine ⟨?_, ?_⟩
      · unfold IsGiant
        rw [(hs.unswitched v hvg).1]
      · rw [stored, stored, GiantDb.readNeighborClone, hs.kept v fun hc => hvg hc.1]
        rfl
    refine ⟨_, hlog, fun v hv hg => ?_, fun v hv hg => ?_⟩
    · have hv0 : v < s.db.vertexIndex.size := hs.size ▸ hv
      by_cases hvg : v ∈ graph
      · have hsg := (hnew v hvg).1 hg
        intro d
        cases hl : s'.giants.neighborCache v with
        | none => rw [GiantVertexDb.readNeighbor_of_uncached hl]
        | some l =>
          rw [GiantVertexDb.readNeighbor_of_cached hl]
          exact (hok hm v hv0 hvg hsg l hl d).trans (hstored v hvg hsg d).symm
      · obtain ⟨htype, hst⟩ := hkept v hvg
        exact readsStored_of_kept (h.cache v hv0 (htype.1 hg)) hst
          (cacheAfter_consolidate cfg s p env v)
    · by_cases hvg : v ∈ graph
      · rw [if_pos hvg]
        rfl
      · obtain ⟨htype, hst⟩ := hkept v hvg
        rw [if_neg hvg, hst]
        exact h.neutral v (hs.size ▸ hv) (htype.1 hg)

theorem Undisturbed.consolidate (h : Undisturbed logs s) {p : PageNo} {env : SmoEnv}
    {exit : SmoExit} {db' : Db} (hrun : consolidatePages cfg env p s.db = .ok exit db') :
    Decides cfg ⟨db', s.cacheAfter cfg (.call (.consolidate p env))⟩
      (KeepsDeltaReads cfg s (.call (.call (.consolidate p env)))) := by
  have hcache := cacheAfter_consolidate cfg s p env
  have hdrain : DrainOnly p s.db db' →
      SameGiants s ⟨db', s.cacheAfter cfg (.call (.consolidate p env))⟩ := by
    refine fun hd => ⟨fun v hv hg => ?_, hd.giantDb, hcache⟩
    unfold IsGiant at hg
    rw [hd.vertexIndex] at hv hg
    exact ⟨hv, hg⟩
  rcases consolidatePages_switches h.logged.pageMap hrun with
    ⟨hexit, rfl⟩ | ⟨-, hrecs, hd⟩ | ⟨-, -, hkeys, hd⟩ | ⟨rfl, hrecs, locs, hs⟩
  · refine h.decides_of_kept ⟨fun v hv hg => ⟨hv, hg⟩, rfl, hcache⟩ h.logged fun hm => ?_
    rcases exit_of_merges hm hrun with rfl | rfl <;> rcases hexit with he | he <;> cases he
  · exact h.decides_of_kept (hdrain hd) (h.logged.drained hd) fun hm => absurd hrecs hm.2.2
  · refine h.decides_of_kept (hdrain hd) (h.logged.drained hd) fun _ v _ hvg => ?_
    have hmem := AList.mem_keys.1 hvg
    rw [hkeys] at hmem
    cases hmem
  · exact h.published (merges_of_published hrun hrecs) hs

/-! ## New and deleted vertices -/

/-- A new vertex is normal and has no record. -/
theorem sameGiants_emplaceBack (s : CachedDb) (q : PageNo) (offset : Nat) :
    SameGiants s ⟨{ s.db with vertexIndex := s.db.vertexIndex.emplaceBack q offset },
      s.neighborCache⟩ := by
  refine ⟨fun v hv hg => ?_, rfl, fun _ => .inl rfl⟩
  unfold IsGiant at hg ⊢
  have hne : v ≠ s.db.vertexIndex.size := by
    rintro rfl
    simp [emplaceBack] at hg
  have hlt : v < s.db.vertexIndex.size + 1 := hv
  refine ⟨Nat.lt_of_le_of_ne (Nat.lt_succ_iff.1 hlt) hne, ?_⟩
  simpa [emplaceBack, hne] using hg

/-- No giant vertex is at the new position. -/
theorem ne_of_isGiant_new {q : PageNo} {offset : Nat}
    (htype : ∀ v, (db'.vertexIndex.items v).vertexType =
      ((s.db.vertexIndex.emplaceBack q offset).items v).vertexType)
    (hg : CachedDb.IsGiant ⟨db', s.neighborCache⟩ v) : v ≠ s.db.vertexIndex.size := by
  rintro rfl
  unfold IsGiant at hg
  rw [htype] at hg
  simp [emplaceBack] at hg

theorem Undisturbed.insertSingleVertex (h : Undisturbed logs s) {v : VId} {b : Bool} {db' : Db}
    (hrun : insertSingleVertex v s.db = .ok b db') :
    ∃ logs, Undisturbed logs ⟨db', s.neighborCache⟩ := by
  unfold BwGraph.insertSingleVertex at hrun
  dsimp only at hrun
  split_ifs at hrun
  · cases hrun
    refine ⟨logs, h.kept (sameGiants_of_types rfl (fun w => ?_) rfl) (h.logged.same rfl rfl)
      fun _ _ _ => rfl⟩
    by_cases hw : w = v
    · subst hw
      simp
    · simp [hw]
  · cases hrun
    exact ⟨logs, h⟩
  · cases hrun
    refine ⟨_, h.kept (sameGiants_emplaceBack s 0 0) (h.logged.emplaceBack 0 0)
      fun w _ hg => ?_⟩
    exact update_of_ne (ne_of_isGiant_new (fun _ => rfl) hg) ..

variable {clock : Nat → Nat}

theorem Undisturbed.insertVertexWithNeighbors (h : Undisturbed logs s) {neighbors : List VId}
    (hrun : insertVertexWithNeighbors cfg neighbors clock s.db = .ok v db') :
    ∃ logs, Undisturbed logs ⟨db', s.neighborCache⟩ := by
  obtain ⟨rfl, db2, hupd, hedges⟩ := insertVertexWithNeighbors_ok hrun
  obtain ⟨hpm, hgiant, hsize, hheads, htypes⟩ := updateVertexLoc_kept hupd
  have hlog2 : Logged (update logs s.db.vertexIndex.size []) db2 :=
    (h.logged.emplaceBack 0 0).same hpm hheads
  obtain ⟨hsame, hlog3⟩ := hlog2.insertEdges hedges
  have htype : ∀ w, (db'.vertexIndex.items w).vertexType =
      ((s.db.vertexIndex.emplaceBack 0 0).items w).vertexType := by
    intro w
    rw [hsame.items]
    exact htypes w
  have hs : SameGiants ⟨{ s.db with vertexIndex := s.db.vertexIndex.emplaceBack 0 0 },
      s.neighborCache⟩ ⟨db', s.neighborCache⟩ :=
    sameGiants_of_types (hsame.size.trans hsize) htype (hsame.giantDb.trans hgiant)
  refine ⟨_, h.kept ((sameGiants_emplaceBack s 0 0).trans hs) hlog3 fun w _ hg => ?_⟩
  have hne := ne_of_isGiant_new htype hg
  exact (update_of_ne hne ..).trans (update_of_ne hne ..)

theorem sameGiants_marked (s : CachedDb) (v : VId) : SameGiants s (s.marked v) :=
  ⟨fun w hw hg => ⟨hw, (s.marked_isGiant v w).1 hg⟩, rfl, fun _ => .inl rfl⟩

/-- A read that goes through the cache. -/
theorem sameGiants_readNeighbor (cfg : Config) (s : CachedDb) (v : VId) :
    SameGiants s (s.readNeighbor cfg v).2 := by
  unfold readNeighbor
  split
  · exact ⟨fun _ hw hg => ⟨hw, hg⟩, rfl, fun w => s.giants.neighborCache_readNeighbor w v⟩
  · exact ⟨fun _ hw hg => ⟨hw, hg⟩, rfl, fun _ => .inl rfl⟩

/-- The deletions of `delete_vertex` are harmless when they hit no stored list. -/
theorem neutral_removals_iff {removed : List VId}
    (hsize : s'.db.vertexIndex.size = s.db.vertexIndex.size)
    (htype : ∀ w, s'.IsGiant w ↔ s.IsGiant w) (hv : v < s.db.vertexIndex.size) :
    Neutral s s' (removals s.db.vertexIndex.size v removed) ↔
      ∀ d ∈ removed, d < s.db.vertexIndex.size →
        (s.IsGiant v → d ∉ s.stored v) ∧ (s.IsGiant d → v ∉ s.stored d) := by
  unfold Neutral
  simp only [lww_of_erases_eq_self removals_erase, mem_removals, hsize, htype]
  constructor
  · intro h d hd hlt
    exact ⟨fun hg => h v hv hg d ⟨d, hd, hlt, .inl ⟨rfl, rfl⟩⟩,
      fun hg => h d hlt hg v ⟨d, hd, hlt, .inr ⟨rfl, rfl⟩⟩⟩
  · rintro h w hw hg k ⟨d, hd, hlt, ⟨rfl, hk⟩ | ⟨rfl, hk⟩⟩
    · cases hk
      exact (h k hd hlt).1 hg
    · cases hk
      exact (h w hd hlt).2 hg

theorem Undisturbed.deleteVertex (h : Undisturbed logs s) {removeNeighbors : Bool} {b : Bool}
    (hrun : s.deleteVertex cfg v removeNeighbors clock = .ok b s') :
    Decides cfg s' (KeepsDeltaReads cfg s (.deleteVertex v removeNeighbors clock)) := by
  rcases deleteVertex_ok hrun with ⟨-, rfl, hno⟩ | ⟨-, hv, hdel, ⟨rfl, rfl⟩ | ⟨rfl, db, hdb, rfl⟩⟩
  · have hok : KeepsDeltaReads cfg s' (.deleteVertex v removeNeighbors clock) := by
      cases removeNeighbors with
      | false => trivial
      | true =>
        intro hv hdel
        rcases hno with hno | hno
        · exact absurd hv (Nat.not_lt.2 hno)
        · rw [hdel] at hno
          cases hno
    exact ⟨fun _ => hok, fun _ => ⟨logs, h⟩⟩
  · exact h.decides_of_kept (sameGiants_marked s v) (h.logged.same rfl rfl) trivial
  · have hsame := deleteEdges_same hdb
    have hlog1 : Logged logs (s.marked v).db := h.logged.same rfl rfl
    have hlog := hlog1.deleteEdges (v := v) hv hdb
    set s' : CachedDb := { ((s.marked v).readNeighbor cfg v).2 with db := db }
    have hs : SameGiants ((s.marked v).readNeighbor cfg v).2 s' := by
      refine sameGiants_of_types (hsame.size.trans ?_) (fun w => ?_) (hsame.giantDb.trans ?_)
      · rw [readNeighbor_db]
      · rw [hsame.items, readNeighbor_db]
      · rw [readNeighbor_db]
    have hs' := (sameGiants_marked s v).trans ((sameGiants_readNeighbor cfg _ v).trans hs)
    have hsize : s'.db.vertexIndex.size = s.db.vertexIndex.size := hsame.size
    have htype : ∀ w, s'.IsGiant w ↔ s.IsGiant w := by
      intro w
      rw [← s.marked_isGiant v w]
      unfold IsGiant
      rw [show s'.db.vertexIndex.items = _ from hsame.items]
    constructor
    · intro hd _ _
      exact (neutral_removals_iff hsize htype hv).1 (h.neutral_of_deltaReads hs' hlog hd)
    · intro hok
      exact ⟨_, h.appended hs' hlog ((neutral_removals_iff hsize htype hv).2 (hok hv hdel))⟩

/-! ## Reads and the pool -/

theorem sameGiants_readNeighborWithDelta (cfg : Config) (s : CachedDb) (v : VId) :
    SameGiants s (s.readNeighborWithDelta cfg v).2 := by
  unfold readNeighborWithDelta
  split
  · exact ⟨fun _ hw hg => ⟨hw, hg⟩, rfl, fun w => s.giants.neighborCache_readNeighbor w v⟩
  · exact ⟨fun _ hw hg => ⟨hw, hg⟩, rfl, fun _ => .inl rfl⟩

theorem sameGiants_readNeighborClone (cfg : Config) (fuel : Nat) (s : CachedDb) (v : VId) :
    SameGiants s (s.readNeighborClone cfg fuel v).2 := by
  unfold readNeighborClone
  by_cases hg : s.IsGiant v
  · rw [if_pos hg]
    exact ⟨fun _ hw hg => ⟨hw, hg⟩, rfl, fun w => s.giants.neighborCache_readNeighborClone w v⟩
  · rw [if_neg hg]
    exact sameGiants_readNeighborWithDelta cfg s v

theorem sameGiants_getVertexDegree (cfg : Config) (s : CachedDb) (v : VId) :
    SameGiants s (s.getVertexDegree cfg v).2 := by
  unfold getVertexDegree
  split
  · exact ⟨fun _ hw hg => ⟨hw, hg⟩, rfl, fun w => s.giants.neighborCache_readNeighbor w v⟩
  · exact sameGiants_readNeighbor cfg s v

theorem Undisturbed.read {ok : Prop} (h : Undisturbed logs s) (hs : SameGiants s s')
    (hdb : s'.db = s.db) (hok : ok) : Decides cfg s' ok :=
  h.decides_of_kept hs (hdb ▸ h.logged) hok

theorem Undisturbed.pool {ok : Prop} (h : Undisturbed logs s) (pool : CsrPool) (hok : ok) :
    Decides cfg ⟨{ s.db with csrPool := pool }, s.neighborCache⟩ ok :=
  h.decides_of_kept (sameGiants_of_types rfl (fun _ => rfl) rfl) (h.logged.same rfl rfl) hok

/-! ## Runs -/

theorem Undisturbed.step (h : Undisturbed logs s) {e : CachedEvent} (hstep : CachedStep cfg s e s') :
    Decides cfg s' (KeepsDeltaReads cfg s e) := by
  cases hstep with
  | call hcall =>
    cases hcall with
    | insertSingleVertex hrun =>
      exact ⟨fun _ => trivial, fun _ => h.insertSingleVertex hrun⟩
    | insertVertexWithNeighbors hrun =>
      exact ⟨fun _ => trivial, fun _ => h.insertVertexWithNeighbors hrun⟩
    | call hseq =>
      cases hseq with
      | insertEdge hrun => exact h.insertEdge hrun
      | deleteEdge hrun => exact h.deleteEdge hrun
      | consolidate hrun => exact h.consolidate hrun
      | load p => exact h.pool (s.db.csrPool.load p) trivial
      | evict p => exact h.pool (s.db.csrPool.evict p) trivial
      | flush p => exact h.pool (s.db.csrPool.flush p) trivial
      | @recycle p _ => exact h.pool (s.db.csrPool.recyclePage p) trivial
  | insertEdgeDirect _ hrun => exact h.insertEdgeDirect hrun
  | deleteVertex hrun => exact h.deleteVertex hrun
  | readNeighbor v =>
    exact h.read (sameGiants_readNeighbor cfg s v) (s.readNeighbor_db cfg v) trivial
  | readNeighborWithDelta v =>
    exact h.read (sameGiants_readNeighborWithDelta cfg s v) (s.readNeighborWithDelta_db cfg v)
      trivial
  | @readNeighborClone v fuel _ _ =>
    exact h.read (sameGiants_readNeighborClone cfg fuel s v) (s.readNeighborClone_db cfg fuel v)
      trivial
  | getVertexDegree v =>
    exact h.read (sameGiants_getVertexDegree cfg s v) (s.getVertexDegree_db cfg v) trivial

theorem Loaded.undisturbed {paged : Set VId} (h : Loaded cfg paged s.db)
    (hcache : s.giants.Coherent) : Undisturbed (fun _ => []) s := by
  refine ⟨h.logged, fun v _ _ d => ?_, fun _ _ _ => rfl⟩
  rw [((GiantVertexDb.agrees_iff hcache.backed).2 hcache v).1, GiantVertexDb.readNeighborClone_fst]

/-- In every run from a loaded database the reads agree in all states exactly when no record is
appended to a giant vertex that changes its stored list, and no consolidation writes another list
over one that the cache then holds. -/
theorem deltaReads_always_iff {paged : Set VId} {s0 : CachedDb} (h0 : Loaded cfg paged s0.db)
    (hcache : s0.giants.Coherent) (es : List CachedEvent) (s : CachedDb) :
    DeltaReads cfg s0 ∧
      (Steps (fun s e s' => CachedStep cfg s e s' ∧ DeltaReads cfg s') s0 es s ↔
        Steps (guarded (KeepsDeltaReads cfg) (CachedStep cfg)) s0 es s) := by
  have hstart := Loaded.undisturbed h0 hcache
  refine ⟨hstart.deltaReads, Steps.always_iff (I := fun s => ∃ logs, Undisturbed logs s)
    (fun s e s' ⟨logs, h⟩ hstep => ?_) ⟨_, hstart⟩⟩
  have hd := h.step hstep
  refine ⟨hd.1, fun hok => ?_⟩
  obtain ⟨logs', h'⟩ := hd.2 hok
  exact ⟨⟨logs', h'⟩, h'.deltaReads⟩

/-- The database of the giant graph, nothing cached. -/
def giantOpened : CachedDb := ⟨giantDb, fun _ => none⟩

theorem giantOpened_loaded :
    Loaded giantConfig (giantGraph.pagedVertices giantConfig) giantOpened.db :=
  (giantDb_built.loaded (by decide) (by decide) (by decide)).1

theorem giantOpened_coherent : giantOpened.giants.Coherent := fun _ _ h => by cases h

/-- The state after `insert_edge(3, dst)` on the giant vertex 3. -/
def giantPending (dst : VId) : CachedDb :=
  ⟨(insertEdge giantConfig 3 dst 0 giantDb).state, fun _ => none⟩

theorem giantPending_step {dst : VId}
    (h : (insertEdge giantConfig 3 dst 0 giantDb).value? = some true) :
    CachedStep giantConfig giantOpened (.call (.call (.insertEdge 3 dst 0))) (giantPending dst) :=
  .call (e := .call (.insertEdge 3 dst 0))
    (.call (.insertEdge (EStateM.Result.eq_ok_of_value? h)))

/-- The neighbour 0 of vertex 3 is inserted again. -/
theorem deltaReads_always_iff_again :
    Steps (fun s e s' => CachedStep giantConfig s e s' ∧ DeltaReads giantConfig s') giantOpened
      ([] ++ [.call (.call (.insertEdge 3 0 0))]) (giantPending 0) :=
  (deltaReads_always_iff giantOpened_loaded giantOpened_coherent _ _).2.2
    (.snoc .nil ⟨fun _ => show 0 ∈ giantOpened.stored 3 by decide +kernel,
      giantPending_step (by decide +kernel)⟩)

/-- The pending neighbour 4 of vertex 3 is on the chain that `read_neighbor_with_delta` does not
hand out. -/
theorem not_deltaReads_pending :
    ¬ ∀ (cfg : Config) (paged : Set VId) (s0 : CachedDb), Loaded cfg paged s0.db →
      s0.giants.Coherent → ∀ (es : List CachedEvent) (s : CachedDb),
      Steps (CachedStep cfg) s0 es s → DeltaReads cfg s := by
  intro h
  have hreads := h giantConfig _ giantOpened giantOpened_loaded giantOpened_coherent
    ([] ++ [.call (.call (.insertEdge 3 4 0))]) (giantPending 4)
    (.snoc .nil (giantPending_step (by decide +kernel)))
  obtain ⟨cells, r, hc, hr, hset⟩ := hreads 3 (by decide +kernel)
  simp only [readNeighborClone_fst] at hr
  have hclone : BwGraph.readNeighborClone giantConfig 1 (giantPending 4).db 3 =
      some [0, 1, 2, 4] := by decide +kernel
  have hr' : r = [0, 1, 2, 4] := Returns.unique hr (returns_of_fuel hclone)
  have hdelta : ((giantPending 4).readNeighborWithDelta giantConfig 3).1 = ([0, 1, 2], none) := by
    decide +kernel
  rw [hdelta] at hc hset
  cases hc
  have hmem : 4 ∈ ({d | d ∈ r} : Set VId) := by
    rw [hr']
    decide
  rw [← hset] at hmem
  have hbase : 4 ∈ [0, 1, 2] := hmem
  revert hbase
  decide

end CachedDb

end BwGraph
