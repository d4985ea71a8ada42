import Mathlib.Data.List.Perm.Subperm
import BwGraph.Db.PageNumbers

/-
  Runs of a database with an index tree are runs of its numbers. A consolidation is a sequence of
  allocations and page writes, then the old page is replaced, and a split of the index takes
  numbers (`TatStep.counts`); the other calls write and recycle pages. So in a run whose numbers
  meet their conditions no index page has the number 0 or the number of a live CSR page
  (`TatDb.Built.apart`).
-/

namespace BwGraph

open EStateM (bind_eq_ok bind_ok_eq get_bind pure_eq_ok)

open List AList CsrPool

/-! ## The pages of a consolidation -/

/-- Some allocations and writes lead from one manager to the other; `ps` were handed out. -/
inductive Allots (m : DiskManager) : List PageNo → DiskManager → Prop
  | refl : Allots m [] m
  | allocate {ps : List PageNo} {m' : DiskManager} (h : Allots m ps m') :
      Allots m (ps ++ [m'.allocatePageNo]) m'.afterAllocate
  | write {ps : List PageNo} {m' : DiskManager} (h : Allots m ps m') (p : PageNo) :
      Allots m ps (m'.noteWrite p)

variable {ps : List PageNo} {p : PageNo}

theorem Allots.evict {m : DiskManager} {pool : CsrPool} (h : Allots m ps pool.diskManager)
    (p : PageNo) : Allots m ps (pool.evict p).diskManager := by
  unfold CsrPool.evict
  split
  · exact h
  · dsimp only
    split_ifs
    · exact h.write p
    · exact h

theorem Allots.flush {m : DiskManager} {ps : List PageNo} {pool : CsrPool}
    (h : Allots m ps pool.diskManager) (p : PageNo) : Allots m ps (pool.flush p).diskManager := by
  unfold CsrPool.flush
  split
  · exact h
  · split_ifs
    · exact h.write p
    · exact h

theorem CsrPool.diskManager_markDirty (pool : CsrPool) (p : PageNo) :
    (pool.markDirty p).diskManager = pool.diskManager := by
  unfold markDirty
  split <;> rfl

theorem CsrPool.diskManager_load (pool : CsrPool) (p : PageNo) :
    (pool.load p).diskManager = pool.diskManager := by
  unfold load
  split <;> rfl

variable {page : CsrPage}

theorem Allots.bufPageCp {m : DiskManager} {pool pool' : CsrPool} {victim : Option PageNo}
    (h : Allots m ps pool.diskManager) (hcp : pool.bufPageCp p page victim = some pool') :
    Allots m ps pool'.diskManager := by
  unfold CsrPool.bufPageCp at hcp
  split at hcp
  · cases hcp
  · cases hcp
    cases victim with
    | none => exact h
    | some w => exact h.evict w

/-- The new locations are on pages that were handed out since. -/
def OnNewPages (m : DiskManager) (locs : Locations) (db : Db) : Prop :=
  ∃ ps, Allots m ps db.csrPool.diskManager ∧
    ∀ v p, locs.lookup v = some p → p.desired.pageNo ∈ ps

variable {cfg : Config} {env : SmoEnv} {graph : AdjMap} {db db' : Db} {locs locs' : Locations}
  {builder builder' : CsrPageBuilder} {m : DiskManager}

theorem onNewPages_empty (db : Db) : OnNewPages db.csrPool.diskManager ∅ db :=
  ⟨[], .refl, fun _ _ h => by simp at h⟩

variable {vm : List (VId × Nat)} {deltas : List DeltaRecord}

theorem prepareVersions_onNewPages {q : PageNo} (h : prepareVersions q vm locs db = .ok locs' db') :
    db'.csrPool = db.csrPool ∧
      ∀ v p, locs'.lookup v = some p → p.desired.pageNo = q ∨ locs.lookup v = some p := by
  induction vm generalizing locs db with
  | nil =>
    obtain ⟨rfl, rfl⟩ := pure_eq_ok.1 h
    exact ⟨rfl, fun _ _ h => .inr h⟩
  | cons x vm ih =>
    obtain ⟨w, offset⟩ := x
    obtain ⟨hpool, hmem⟩ := ih h
    refine ⟨hpool, fun v p hp => ?_⟩
    rcases hmem v p hp with he | hl
    · exact .inl he
    · by_cases hv : v = w
      · subst hv
        rw [lookup_insert] at hl
        cases hl
        exact .inl rfl
      · rw [lookup_insert_ne hv] at hl
        exact .inr hl

/-- One more page. -/
theorem OnNewPages.addPage {q : PageNo} {message : String} {db1 db2 : Db} (h : OnNewPages m locs db)
    (halloc : allocateCsrPage db = .ok q db1)
    (hcopy : copyIntoPool env message q page db1 = .ok () db2)
    (hprep : prepareVersions q vm locs db2 = .ok locs' db') : OnNewPages m locs' db' := by
  obtain ⟨ps, hps, hlocs⟩ := h
  cases halloc
  obtain ⟨victim, pool, hcp, rfl⟩ := copyIntoPool_ok hcopy
  obtain ⟨hpool, hmem⟩ := prepareVersions_onNewPages hprep
  have halloc : Allots m (ps ++ [db.csrPool.allocatePage.1])
      db.csrPool.allocatePage.2.diskManager := hps.allocate
  refine ⟨ps ++ [db.csrPool.allocatePage.1], ?_, fun v p hp => ?_⟩
  · rw [hpool]
    dsimp only
    rw [diskManager_markDirty]
    exact halloc.bufPageCp hcp
  · rcases hmem v p hp with he | hl
    · rw [he]
      exact mem_append_right _ (mem_singleton_self _)
    · exact mem_append_left _ (hlocs v p hl)

theorem doNoSplit_onNewPages (h : doNoSplit cfg env graph db = .ok locs db') :
    OnNewPages db.csrPool.diskManager locs db' := by
  obtain ⟨q, page, vm, message, db1, db2, -, hal, hcopy, hprep⟩ := doNoSplit_cases h
  exact (onNewPages_empty db).addPage hal hcopy hprep

theorem OnNewPages.flushCurrentPage (hp : OnNewPages m locs db)
    (h : flushCurrentPage cfg env builder locs db = .ok (builder', locs') db') :
    OnNewPages m locs' db' := by
  obtain ⟨-, -, rfl, rfl⟩ | ⟨q, page, vm, message, db1, db2, -, hal, hcopy, hprep⟩ :=
    flushCurrentPage_cases h
  · exact hp
  · exact hp.addPage hal hcopy hprep

theorem OnNewPages.packVertex {v : VId} (hp : OnNewPages m locs db)
    (h : packVertex cfg env graph v builder locs db = .ok (builder', locs') db') :
    OnNewPages m locs' db' := by
  obtain ⟨-, rfl, rfl⟩ | ⟨b, hflush, -⟩ := packVertex_cases h
  · exact hp
  · exact hp.flushCurrentPage hflush

theorem OnNewPages.packVertices {vs : List VId} (hp : OnNewPages m locs db)
    (h : packVertices cfg env graph vs builder locs db = .ok (builder', locs') db') :
    OnNewPages m locs' db' := by
  induction vs generalizing db builder locs with
  | nil =>
    obtain ⟨he, rfl⟩ := pure_eq_ok.1 h
    cases he
    exact hp
  | cons v vs ih =>
    unfold BwGraph.packVertices at h
    split_ifs at h
    · obtain ⟨⟨b1, locs1⟩, db1, hone, h⟩ := bind_eq_ok.1 h
      exact ih (hp.packVertex hone) h
    · exact ih hp h

theorem doSplit_onNewPages (h : doSplit cfg env graph db = .ok locs db') :
    OnNewPages db.csrPool.diskManager locs db' := by
  unfold doSplit at h
  obtain ⟨⟨b1, locs1⟩, db1, hpack, h⟩ := bind_eq_ok.1 h
  obtain ⟨⟨b2, locs2⟩, db2, hflush, h⟩ := bind_eq_ok.1 h
  obtain ⟨rfl, rfl⟩ := pure_eq_ok.1 h
  exact ((onNewPages_empty db).packVertices hpack).flushCurrentPage hflush

/-- The replacement pages are pages that were handed out since. -/
theorem buildReplacement_onNewPages {r : Option Replacement}
    (h : buildReplacement cfg env p deltas db = .ok r db') : ∃ ps,
      Allots db.csrPool.diskManager ps db'.csrPool.diskManager ∧
      ∀ r', r = some r' → ∀ q ∈ r'.pageNos, q ∈ ps := by
  have hmem : ∀ {locs : Locations} {ps : List PageNo} {giants : List VId},
      (∀ v p, locs.lookup v = some p → p.desired.pageNo ∈ ps) →
      ∀ q ∈ (Replacement.mk locs giants).pageNos, q ∈ ps := by
    intro locs ps giants hlocs q hq
    obtain ⟨v, -, hv⟩ := mem_filterMap.1 (mem_dedup.1 hq)
    obtain ⟨p, hp, rfl⟩ := Option.map_eq_some_iff.1 hv
    exact hlocs v p hp
  unfold buildReplacement at h
  rw [get_bind] at h
  dsimp only at h
  split_ifs at h
  · obtain ⟨rfl, rfl⟩ := pure_eq_ok.1 h
    exact ⟨[], .refl, fun _ h => by cases h⟩
  all_goals
    obtain ⟨giants, db1, hgiants, h⟩ := bind_eq_ok.1 h
    obtain ⟨-, -, hpool, -⟩ := persistGiants_ok hgiants
    obtain ⟨locs, db2, hbuild, h⟩ := bind_eq_ok.1 h
    obtain ⟨rfl, rfl⟩ := pure_eq_ok.1 h
  · obtain ⟨ps, hps, hlocs⟩ := doSplit_onNewPages hbuild
    rw [hpool] at hps
    exact ⟨ps, hps, fun r' he => by cases he; exact hmem hlocs⟩
  · obtain ⟨ps, hps, hlocs⟩ := doNoSplit_onNewPages hbuild
    rw [hpool] at hps
    exact ⟨ps, hps, fun r' he => by cases he; exact hmem hlocs⟩

/-! ## Calls that leave the disk manager alone -/

/-- The disk manager of the CSR pages. -/
def HasManager (m : DiskManager) (db : Db) : Prop := db.csrPool.diskManager = m

theorem keepsManager_onPageMap {α : Type} (x : EStateM String PageMap α) :
    (onPageMap x).Keeps (HasManager m) := by
  intro db h
  unfold onPageMap
  split <;> exact h

theorem keepsManager_modify {f : Db → Db} (hf : ∀ db, HasManager m db → HasManager m (f db)) :
    (modify f : DbM Unit).Keeps (HasManager m) := hf

theorem keepsManager_rerouteStrays (locs : Locations) (f : Nat) (strays : List DeltaRecord) :
    (rerouteStrays cfg locs f strays).Keeps (HasManager m) := by
  induction strays with
  | nil => exact .pure _
  | cons delta strays ih =>
    refine .bind ?_ fun _ => ih
    unfold rerouteStray
    split_ifs
    · exact .pure _
    · split
      · exact .throw _
      · refine .bind (fun _ h => h) fun db => .bind (keepsManager_onPageMap _) fun loc => ?_
        exact keepsManager_modify fun _ h => h

theorem keepsManager_finalizeVertices (giants : List VId) (f : Nat) (locs : Locations)
    (vs : List VId) : (finalizeVertices giants f locs vs).Keeps (HasManager m) := by
  induction vs with
  | nil => exact .pure _
  | cons v vs ih =>
    unfold finalizeVertices
    split
    · exact ih
    · refine .bind (fun db h => ?_) fun _ => ih
      unfold finalizeVertex
      dsimp only
      split <;> exact h

theorem keepsManager_publishReplacement (p : PageNo) (r : Replacement) :
    (publishReplacement cfg env p r).Keeps (HasManager m) :=
  .bind (fun _ h => h) fun _ => .bind (fun _ h => h) fun _ =>
    .bind (keepsManager_rerouteStrays _ _ _) fun _ =>
      .bind (keepsManager_finalizeVertices _ _ _ _) fun _ => keepsManager_modify fun _ h => h

theorem keepsManager_appendEdge (type : DeltaType) (src dst : VId) (time : Nat) :
    (appendEdge cfg type src dst time).Keeps (HasManager m) :=
  .bind (fun _ h => h) fun _ => .bind (keepsManager_onPageMap _) fun _ =>
    keepsManager_modify fun _ h => h

/-! ## The index under a consolidation -/

/-- Numbers have been handed out for the pages that are new. -/
def TatIndex.Extends (t t' : TatIndex) : Prop :=
  ∃ k, HandsOut t.nextNo t'.nextNo t.indexPages t'.indexPages k ∧
    t'.handedOut = t.handedOut + k

variable {tenv : TatEnv} {t t' : TatIndex}

theorem TatIndex.Extends.refl (h : t.nextNo < 2 ^ 32) : t.Extends t := ⟨0, .refl h _, rfl⟩

variable {t'' : TatIndex}

/-- No number is handed out and no page is new. -/
theorem TatIndex.Extends.same (h : t.Extends t') (hno : t''.nextNo = t'.nextNo)
    (hout : t''.handedOut = t'.handedOut) (hpages : ∀ no ∈ t''.indexPages, no ∈ t'.indexPages) :
    t.Extends t'' := by
  obtain ⟨k, hk, hlen⟩ := h
  exact ⟨k, ⟨hno.trans hk.next, fun no hmem => hk.pages no (hpages no hmem)⟩, hout.trans hlen⟩

theorem keepsExtends_modify {f : TatIndex → TatIndex} (hf : ∀ s, (f s).nextNo = s.nextNo ∧
    (f s).handedOut = s.handedOut ∧ (f s).indexPages = s.indexPages) :
    (modify f : TreeM Unit).Keeps t.Extends := fun s h =>
  h.same (hf s).1 (hf s).2.1 fun _ hno => (hf s).2.2 ▸ hno

/-- A number is handed out, and perhaps a page put under it. -/
theorem TatIndex.Extends.fetch (h : t.Extends t') (hno : t''.nextNo = pageNoSub t'.nextNo 1)
    (hout : t''.handedOut = t'.handedOut + 1)
    (hpages : ∀ no ∈ t''.indexPages, no ∈ t'.indexPages ∨ no = t'.nextNo) : t.Extends t'' := by
  obtain ⟨k, hk, hlen⟩ := h
  have hlt : t'.nextNo < 2 ^ 32 := hk.next ▸ pageNoSub_lt _ _
  refine ⟨k + 1, hk.trans ⟨hno, fun no hmem => ?_⟩, ?_⟩
  · rw [numbersFrom_one hlt, mem_singleton]
    exact hpages no hmem
  · rw [hout, hlen, Nat.add_assoc]

theorem newIndexPage_cases (tenv : TatEnv) (no : PageNo) (adj : BlockAdjMap) :
    (∃ page, ∀ t, newIndexPage tenv no adj t = .ok page t) ∨
      ∃ e, ∀ t, newIndexPage tenv no adj t = .error e t := by
  unfold newIndexPage
  cases IndexPage.create tenv.cfg tenv.ho tenv.fresh no adj with
  | ok page => exact .inl ⟨page, fun _ => rfl⟩
  | error e => exact .inr ⟨e, fun _ => rfl⟩

section

variable (h : t.Extends t')
include h

/-- The copy of a page goes under the number it had. -/
theorem TatIndex.Extends.copyIndexPage {no : PageNo} (old : IndexPage) (adj : BlockAdjMap)
    (hno : no ∈ t'.indexPages) : t.Extends (copyIndexPage tenv no old adj t').state := by
  unfold BwGraph.copyIndexPage
  rcases newIndexPage_cases tenv no adj with ⟨page, hp⟩ | ⟨e, he⟩
  · rw [bind_ok_eq (hp t')]
    refine h.same rfl rfl fun k hk => ?_
    rcases (mem_insert t'.indexPages).1 hk with rfl | hk
    · exact hno
    · exact hk
  · rw [EStateM.state_bind_error (he t')]
    exact h

theorem TatIndex.Extends.updateIndexNoSplit (oldPageNo newPageNo no : PageNo) :
    t.Extends (updateIndexNoSplit tenv oldPageNo newPageNo no t').state := by
  unfold BwGraph.updateIndexNoSplit
  rw [get_bind]
  cases hold : t'.indexPages.lookup no with
  | none => exact h
  | some old => exact h.copyIndexPage old _ (lookup_isSome.1 (by rw [hold]; rfl))

/-- Each part takes a number, also when its page is then refused. -/
theorem TatIndex.Extends.splitIndexPages (adj : BlockAdjMap) (gp : PageNo)
    (parts : List (List PageNo)) : t.Extends (splitIndexPages tenv adj gp parts t').state := by
  induction parts generalizing t' with
  | nil => exact h
  | cons part parts ih =>
    unfold BwGraph.splitIndexPages
    split_ifs
    · exact ih h
    · have hfetch : fetchIndexNo t' = .ok t'.nextNo
          { t' with nextNo := pageNoSub t'.nextNo 1, handedOut := t'.handedOut + 1 } := rfl
      rw [bind_ok_eq hfetch]
      rcases newIndexPage_cases tenv t'.nextNo (inducedBlockSubgraph adj part) with
        ⟨page, hp⟩ | ⟨e, he⟩
      · rw [bind_ok_eq (hp _)]
        refine EStateM.Keeps.after (x := putIndexPage t'.nextNo (page.setParentPageNo gp)) ?_
          fun _ => .bind (fun _ h => ih h) fun _ => .pure _
        refine h.fetch rfl rfl fun no hno => ?_
        exact ((mem_insert t'.indexPages).1 hno).symm
      · rw [EStateM.state_bind_error (he _)]
        exact h.fetch rfl rfl fun no hno => .inl hno

theorem TatIndex.Extends.setParents (no : PageNo) (nos : List PageNo) :
    t.Extends (setParents no nos t').state := by
  have hmem : ∀ (ks : List PageNo) (m : IndexPageMap),
      ∀ k ∈ (BwGraph.setParents no ks { t' with indexPages := m }).state.indexPages, k ∈ m := by
    intro ks
    induction ks with
    | nil => exact fun m k hk => hk
    | cons no' ks ih =>
      intro m k hk
      have hk' := ih _ k hk
      split at hk'
      · rename_i page hpage
        rcases (mem_insert m).1 hk' with rfl | hk'
        · exact lookup_isSome.1 (by rw [hpage]; rfl)
        · exact hk'
      · exact hk'
  exact h.same rfl rfl (hmem nos t'.indexPages)

theorem TatIndex.Extends.updateGrandparent (oldNo gp : PageNo) (nos : List PageNo) :
    t.Extends (updateGrandparent tenv oldNo gp nos t').state := by
  unfold BwGraph.updateGrandparent
  rw [get_bind]
  cases hpage : t'.indexPages.lookup gp with
  | none => exact h
  | some page =>
    exact EStateM.Keeps.after
      (h.copyIndexPage page _ (lookup_isSome.1 (by rw [hpage]; rfl)))
      fun _ _ h => h.setParents gp nos

theorem TatIndex.Extends.updateRoot (nos : List PageNo) :
    t.Extends (updateRoot tenv nos t').state := by
  unfold BwGraph.updateRoot
  split
  · exact h.same rfl rfl fun _ h => h
  · have hfetch : fetchIndexNo t' = .ok t'.nextNo
        { t' with nextNo := pageNoSub t'.nextNo 1, handedOut := t'.handedOut + 1 } := rfl
    rw [bind_ok_eq hfetch]
    rcases newIndexPage_cases tenv t'.nextNo (BlockAdjMap.addSiblings nos ∅) with
      ⟨page, hp⟩ | ⟨e, he⟩
    · rw [bind_ok_eq (hp _)]
      refine EStateM.Keeps.after (x := putIndexPage t'.nextNo page) ?_
        fun _ => .bind (keepsExtends_modify fun _ => ⟨rfl, rfl, rfl⟩) fun _ _ h =>
          h.setParents _ nos
      refine h.fetch rfl rfl fun no hno => ?_
      exact ((mem_insert t'.indexPages).1 hno).symm
    · rw [EStateM.state_bind_error (he _)]
      exact h.fetch rfl rfl fun no hno => .inl hno

/-- Whatever becomes of a split, it has taken numbers from the counter and no others. -/
theorem TatIndex.Extends.doIndexSplit (oldNo : PageNo) (adj : BlockAdjMap) :
    t.Extends (doIndexSplit tenv oldNo adj t').state := by
  unfold BwGraph.doIndexSplit
  rw [get_bind]
  have herase : t.Extends { t' with indexPages := t'.indexPages.erase oldNo } :=
    h.same rfl rfl fun no hno => (mem_erase.1 hno).2
  have hset : (set { t' with indexPages := t'.indexPages.erase oldNo } : TreeM PUnit) t' =
      .ok ⟨⟩ { t' with indexPages := t'.indexPages.erase oldNo } := rfl
  dsimp only
  rw [bind_ok_eq hset]
  cases absoluteWeightBlockPartition tenv.partitioner adj
      (if tenv.cfg.maxBlocks > 0 then tenv.targetSize else 1) with
  | error e => exact herase
  | ok parts =>
    dsimp only
    refine EStateM.Keeps.after (herase.splitIndexPages _ _ _) fun nos =>
      .bind (keepsExtends_modify fun _ => ⟨rfl, rfl, rfl⟩) fun _ => ?_
    split_ifs
    · exact .pure _
    · exact fun _ h => h.updateGrandparent _ _ _
    · exact fun _ h => h.updateRoot _

theorem TatIndex.Extends.updateIndexSplit (oldPageNo no : PageNo) (newPageNos : List PageNo)
    (edges : List (PageNo × PageNo)) :
    t.Extends (updateIndexSplit tenv oldPageNo no newPageNos edges t').state := by
  unfold BwGraph.updateIndexSplit
  rw [get_bind]
  cases hold : t'.indexPages.lookup no with
  | none => exact h
  | some old =>
    dsimp only
    split_ifs
    · exact h.copyIndexPage old _ (lookup_isSome.1 (by rw [hold]; rfl))
    · exact h.doIndexSplit no _

end

/-! ## The numbers of a database -/

/-- The numbers of a database: every live CSR page is counted as live, and the index pages have
numbers that were handed out. -/
structure TatDb.Counts (s : TatDb) (n : PageNumbers) : Prop where
  manager : n.manager = s.db.csrPool.diskManager
  live : (s.live.map (· % 2 ^ 32)).Subperm n.live
  wired : n.wired = s.wired
  next : n.nextIndexPageNo = s.tree.nextNo
  nextLt : s.tree.nextNo < 2 ^ 32
  given : n.given.length = s.tree.handedOut
  pages : ∀ no ∈ s.tree.indexPages, no ∈ n.given

/-- When the numbers are apart, no index page has the number 0 or that of a live CSR page. -/
theorem TatDb.Counts.apart {s : TatDb} {n : PageNumbers} (h : s.Counts n) (ha : n.Apart) :
    0 ∉ s.tree.indexPages ∧ ∀ p ∈ s.live, p % 2 ^ 32 ∉ s.tree.indexPages :=
  ⟨fun hz => ha.zero (h.pages 0 hz), fun p hp hm =>
    ha.live _ (h.live.subset (mem_map.2 ⟨p, hp, rfl⟩)) (h.pages _ hm)⟩

/-- The allocations and writes of a consolidation, as steps of the numbers. -/
theorem steps_allots {n : PageNumbers} {m' : DiskManager} (h : Allots n.manager ps m') :
    ∃ es, Steps PageNumbers.Step n es
      { n with manager := m', live := n.live ++ ps.map (· % 2 ^ 32) } := by
  induction h with
  | refl =>
    refine ⟨[], ?_⟩
    rw [map_nil, append_nil]
    exact .nil
  | allocate _ ih =>
    obtain ⟨es, hes⟩ := ih
    refine ⟨es ++ [.allocate], ?_⟩
    rw [map_append, ← append_assoc]
    exact hes.snoc .allocate
  | write _ p ih =>
    obtain ⟨es, hes⟩ := ih
    exact ⟨es ++ [.write p], hes.snoc (.write p)⟩

/-- A split that takes `k` numbers. -/
theorem steps_fetch {n : PageNumbers} (hw : n.wired = true) (hn : n.nextIndexPageNo < 2 ^ 32)
    (k : Nat) : ∃ es, Steps PageNumbers.Step n es
      { n with
        nextIndexPageNo := pageNoSub n.nextIndexPageNo k
        given := n.given ++ numbersFrom n.nextIndexPageNo k } := by
  induction k with
  | zero =>
    refine ⟨[], ?_⟩
    rw [pageNoSub_zero hn, show numbersFrom n.nextIndexPageNo 0 = [] from rfl, append_nil]
    exact .nil
  | succ k ih =>
    obtain ⟨es, hes⟩ := ih
    refine ⟨es ++ [.fetch], ?_⟩
    rw [numbersFrom_succ, ← append_assoc, ← pageNoSub_add]
    exact hes.snoc (.fetch hw)

/-- An old page goes and pages that were handed out take its place. -/
theorem subperm_replace {live ps nos : List PageNo} {old : PageNo} {counted : List PageNo}
    {f : PageNo → PageNo} (h : (live.map f).Subperm counted) (hnd : nos.Nodup)
    (hnos : ∀ q ∈ nos, q ∈ ps) (hold : old ∈ live) :
    ((live.erase old ++ nos).map f).Subperm ((counted ++ ps.map f).erase (f old)) := by
  have hnew : (nos.map f).Subperm (ps.map f) := by
    obtain ⟨l, hperm, hsub⟩ := subperm_of_subset hnd hnos
    exact ⟨l.map f, hperm.map f, hsub.map f⟩
  have hperm : ((old :: (live.erase old ++ nos)).map f).Perm (live.map f ++ nos.map f) := by
    rw [← map_append, ← cons_append]
    exact ((perm_cons_erase hold).symm.append_right nos).map f
  have hall : ((old :: (live.erase old ++ nos)).map f).Subperm (counted ++ ps.map f) :=
    hperm.subperm.trans (h.append hnew)
  have herase := hall.erase (f old)
  rw [map_cons, erase_cons_head] at herase
  exact herase

/-! ## One step -/

variable {s s' : TatDb} {n : PageNumbers}

theorem TatM.onTree_ok {α : Type} {x : TreeM α} {a : α} (h : TatM.onTree x s = .ok a s') :
    x s.tree = .ok a s'.tree ∧ s' = { s with tree := s'.tree } := by
  unfold TatM.onTree at h
  cases hx : x s.tree with
  | ok b t =>
    rw [hx] at h
    cases h
    exact ⟨rfl, rfl⟩
  | error e t =>
    rw [hx] at h
    cases h

variable {oldPageNo parentNo : PageNo} {nos : List PageNo}

/-- The update of the index takes numbers only when `smo_ctl_t` knows the index. -/
theorem publishIndex_extends (hlt : s.tree.nextNo < 2 ^ 32)
    (h : publishIndex cfg tenv env oldPageNo parentNo graph nos s = .ok () s') :
    s' = { s with tree := s'.tree } ∧
      (s'.tree = s.tree ∨ s.wired = true ∧ s.tree.Extends s'.tree) := by
  unfold publishIndex at h
  rw [get_bind] at h
  split_ifs at h with hw hbytes hnos
  · obtain ⟨-, rfl⟩ := pure_eq_ok.1 h
    exact ⟨rfl, .inl rfl⟩
  · obtain ⟨hx, hs⟩ := TatM.onTree_ok h
    have hext : s.tree.Extends (updateIndexSplit tenv oldPageNo parentNo nos
        (pageLinks env.graphOrder graph fun v => (s.db.location v).1) s.tree).state :=
      (TatIndex.Extends.refl hlt).updateIndexSplit _ _ _ _
    rw [hx] at hext
    exact ⟨hs, .inr ⟨hw.1, hext⟩⟩
  · obtain ⟨hx, hs⟩ := TatM.onTree_ok h
    have hext : s.tree.Extends
        (updateIndexNoSplit tenv oldPageNo (nos.headD 0) parentNo s.tree).state :=
      (TatIndex.Extends.refl hlt).updateIndexNoSplit _ _ _
    rw [hx] at hext
    exact ⟨hs, .inr ⟨hw.1, hext⟩⟩
  · obtain ⟨-, rfl⟩ := pure_eq_ok.1 h
    exact ⟨rfl, .inl rfl⟩

/-- A step of the database is matched by steps of the numbers. -/
def Matched (n : PageNumbers) (s' : TatDb) : Prop :=
  ∃ es n', Steps PageNumbers.Step n es n' ∧ s'.Counts n'

theorem Matched.trans {n n' : PageNumbers} {es : List NumberEvent}
    (run : Steps PageNumbers.Step n es n') (h : Matched n' s') : Matched n s' := by
  obtain ⟨es', n'', run', hc⟩ := h
  exact ⟨es ++ es', n'', run.append run', hc⟩

/-- A change of the database below that keeps the manager. -/
theorem TatDb.Counts.onDb (h : s.Counts n) {db' : Db}
    (hm : HasManager s.db.csrPool.diskManager db') : TatDb.Counts { s with db := db' } n :=
  ⟨h.manager.trans hm.symm, h.live, h.wired, h.next, h.nextLt, h.given, h.pages⟩

/-- Allocations and writes below; the new pages are counted as live. -/
theorem TatDb.Counts.allots (h : s.Counts n) {db' : Db}
    (ha : Allots s.db.csrPool.diskManager ps db'.csrPool.diskManager) :
    ∃ es n', Steps PageNumbers.Step n es n' ∧ TatDb.Counts { s with db := db' } n' ∧
      n'.live = n.live ++ ps.map (· % 2 ^ 32) := by
  obtain ⟨es, hes⟩ := steps_allots (h.manager ▸ ha : Allots n.manager ps _)
  refine ⟨es, _, hes, ⟨rfl, ?_, h.wired, h.next, h.nextLt, h.given, h.pages⟩, rfl⟩
  exact h.live.trans (sublist_append_left _ _).subperm

/-- The update of the index. -/
theorem TatDb.Counts.publishIndex (h : s.Counts n)
    (hp : publishIndex cfg tenv env oldPageNo parentNo graph nos s = .ok () s') : Matched n s' := by
  obtain ⟨hs, htree⟩ := publishIndex_extends h.nextLt hp
  rcases htree with htree | ⟨hw, k, hk, hlen⟩
  · rw [htree] at hs
    exact ⟨[], n, .nil, hs ▸ h⟩
  · obtain ⟨es, hes⟩ := steps_fetch (h.wired.trans hw) (h.next ▸ h.nextLt) k
    refine ⟨es, _, hes, ?_⟩
    rw [hs]
    refine ⟨h.manager, h.live, h.wired, ?_, hk.next ▸ pageNoSub_lt _ _, ?_, fun no hno => ?_⟩
    · show pageNoSub n.nextIndexPageNo k = s'.tree.nextNo
      rw [h.next, hk.next]
    · show (n.given ++ numbersFrom n.nextIndexPageNo k).length = s'.tree.handedOut
      rw [length_append, length_numbersFrom, h.given, hlen]
    · show no ∈ n.given ++ numbersFrom n.nextIndexPageNo k
      rw [mem_append, h.next]
      rcases hk.pages no hno with hm | hm
      · exact .inl (h.pages no hm)
      · exact .inr hm

/-- The new pages take the place of the old one. -/
theorem TatDb.Counts.replacePage (h : s.Counts n) {old : PageNo} {r : Replacement}
    {live ps : List PageNo} (hlive : (s.live.map (· % 2 ^ 32)).Subperm live)
    (hn : n.live = live ++ ps.map (· % 2 ^ 32)) (hps : ∀ q ∈ r.pageNos, q ∈ ps) :
    Matched n (s.replacePage cfg old r.pageNos) := by
  have hnd : r.pageNos.Nodup := nodup_dedup _
  by_cases hold : old ∈ s.live
  · refine ⟨[.replace (old % 2 ^ 32)], _, .cons (.replace (old % 2 ^ 32)) .nil,
      ⟨h.manager, ?_, h.wired, h.next, h.nextLt, h.given, h.pages⟩⟩
    show ((s.live.erase old ++ r.pageNos).map (· % 2 ^ 32)).Subperm (n.live.erase (old % 2 ^ 32))
    rw [hn]
    exact subperm_replace hlive hnd hps hold
  · refine ⟨[], n, .nil, ⟨h.manager, ?_, h.wired, h.next, h.nextLt, h.given, h.pages⟩⟩
    show ((s.live.erase old ++ r.pageNos).map (· % 2 ^ 32)).Subperm n.live
    rw [hn, erase_of_not_mem hold, map_append]
    refine hlive.append ?_
    obtain ⟨l, hperm, hsub⟩ := subperm_of_subset hnd hps
    exact ⟨l.map (· % 2 ^ 32), hperm.map _, hsub.map _⟩

theorem fetchDeltas_manager (h : fetchDeltas p db = .ok deltas db') :
    HasManager db.csrPool.diskManager db' := by
  cases h
  exact rfl

theorem consolidatePagesIndexed_counts {exit : SmoExit} (hc : s.Counts n)
    (h : consolidatePagesIndexed cfg tenv env p s = .ok exit s') : Matched n s' := by
  unfold consolidatePagesIndexed at h
  rw [get_bind] at h
  split_ifs at h
  · obtain ⟨-, rfl⟩ := pure_eq_ok.1 h
    exact ⟨[], n, .nil, hc⟩
  · obtain ⟨-, rfl⟩ := pure_eq_ok.1 h
    exact ⟨[], n, .nil, hc⟩
  · obtain ⟨deltas, s1, hfetch, h⟩ := bind_eq_ok.1 h
    obtain ⟨hf, hs1⟩ := TatM.onDb_ok hfetch
    have hc1 : s1.Counts n := by
      rw [hs1]
      exact hc.onDb (fetchDeltas_manager hf)
    split_ifs at h
    · obtain ⟨-, rfl⟩ := pure_eq_ok.1 h
      exact ⟨[], n, .nil, hc1⟩
    · rw [get_bind] at h
      obtain ⟨r, s2, hbuild, h⟩ := bind_eq_ok.1 h
      obtain ⟨hb, hs2⟩ := TatM.onDb_ok hbuild
      obtain ⟨ps, hps, hnos⟩ := buildReplacement_onNewPages hb
      obtain ⟨es, n', run, hc2, hlive⟩ := hc1.allots hps
      rw [← hs2] at hc2
      refine Matched.trans run ?_
      cases r with
      | none =>
        obtain ⟨-, rfl⟩ := pure_eq_ok.1 h
        exact ⟨[], n', .nil, hc2⟩
      | some r =>
        obtain ⟨⟨⟩, s3, hpub, h⟩ := bind_eq_ok.1 h
        obtain ⟨hp, hs3⟩ := TatM.onDb_ok hpub
        have hc3 : s3.Counts n' := by
          rw [hs3]
          exact hc2.onDb (EStateM.Keeps.of_ok (keepsManager_publishReplacement p r) rfl hp)
        have hlive3 : s3.live = s1.live := by
          rw [hs3, hs2]
        obtain ⟨⟨⟩, s4, hrep, h⟩ := bind_eq_ok.1 h
        cases hrep
        obtain ⟨⟨⟩, s5, hidx, h⟩ := bind_eq_ok.1 h
        obtain ⟨-, rfl⟩ := pure_eq_ok.1 h
        obtain ⟨es', n'', run', hc4⟩ : Matched n' (s3.replacePage cfg p r.pageNos) :=
          hc3.replacePage (hlive3 ▸ hc1.live) hlive (hnos r rfl)
        exact Matched.trans run' (hc4.publishIndex hidx)

/-- A step of a database with an index is a sequence of steps of its numbers. -/
theorem TatStep.counts {e : DbEvent} (hc : s.Counts n) (h : TatStep cfg tenv s e s') :
    Matched n s' := by
  have hedge : ∀ {type : DeltaType} {src dst : VId} {time : Nat} {db' : Db},
      appendEdge cfg type src dst time s.db = .ok () db' → Matched n { s with db := db' } :=
    fun happ => ⟨[], n, .nil,
      hc.onDb (EStateM.Keeps.of_ok (keepsManager_appendEdge _ _ _ _) rfl happ)⟩
  have hwrites : ∀ {db' : Db}, Allots s.db.csrPool.diskManager [] db'.csrPool.diskManager →
      Matched n { s with db := db' } := by
    intro db' ha
    obtain ⟨es, n', run, hc', -⟩ := hc.allots ha
    exact ⟨es, n', run, hc'⟩
  cases h with
  | call he h =>
    cases h with
    | insertEdge h => exact hedge (insertEdge_true h).2.2
    | deleteEdge h => exact hedge (deleteEdge_true h).2.2
    | consolidate _ => exact absurd rfl (he _ _)
    | load p => exact ⟨[], n, .nil, hc.onDb (diskManager_load _ p)⟩
    | evict p => exact hwrites (Allots.refl.evict p)
    | flush p => exact hwrites (Allots.refl.flush p)
    | @recycle p _ =>
      exact ⟨[.recycle p], _, .cons (.recycle p) .nil, ⟨congrArg (DiskManager.deletePage · p)
        hc.manager, hc.live, hc.wired, hc.next, hc.nextLt, hc.given, hc.pages⟩⟩
  | consolidate h => exact consolidatePagesIndexed_counts hc h

variable {es : List DbEvent}

theorem tatSteps_counts (hc : s.Counts n) (run : Steps (TatStep cfg tenv) s es s') :
    Matched n s' := by
  induction run with
  | nil => exact ⟨[], n, .nil, hc⟩
  | snoc _ hstep ih =>
    obtain ⟨ns, n', hrun, hc'⟩ := ih
    exact Matched.trans hrun (hstep.counts hc')

/-! ## Built databases -/

/-- Consecutive pages from 0 on have their own numbers as 32-bit numbers. -/
theorem pageNos_narrow {leaves : List LeafPage} {k : Nat}
    (hnos : leaves.map LeafPage.pageNo = range k) (hk : k < 2 ^ 32) :
    (∀ p ∈ leaves, p.pageNo < 2 ^ 32) ∧
      (leaves.map LeafPage.pageNo).map (· % 2 ^ 32) = leaves.map LeafPage.pageNo := by
  have hlt : ∀ p ∈ leaves.map LeafPage.pageNo, p < 2 ^ 32 := by
    intro p hp
    rw [hnos] at hp
    exact Nat.lt_trans (mem_range.1 hp) hk
  refine ⟨fun p hp => hlt _ (mem_map.2 ⟨p, hp, rfl⟩), ?_⟩
  calc (leaves.map LeafPage.pageNo).map (· % 2 ^ 32)
    _ = (leaves.map LeafPage.pageNo).map id :=
      map_congr_left fun p hp => Nat.mod_eq_of_lt (hlt p hp)
    _ = leaves.map LeafPage.pageNo := map_id _

/-- The build of a database, with its numbers. -/
structure IndexBuild.Of (b : IndexBuild) (tenv : TatEnv) (s : TatDb) (n : PageNumbers) :
    Prop where
  pages : ∀ p ∈ b.leaves, p.pageNo < 2 ^ 32
  run : ∃ fuel manager, b.run tenv fuel manager = some (.ok n)
  counts : s.Counts n

variable {benv : BuildEnv} {fuel : Nat}

theorem buildLeveledDb_counts {g : MemGraph} {partition : List (List VId)}
    (h : buildLeveledDb cfg benv tenv fuel g partition = some (.ok s))
    (hpages : s.live.length < 2 ^ 32) : ∃ (b : IndexBuild) (n : PageNumbers), b.Of tenv s n := by
  unfold buildLeveledDb at h
  split at h
  · cases h
  · rename_i pages items hstd
    dsimp only at h
    split at h
    · cases h
    · cases h
    · rename_i r hr
      cases h
      have hnos : (leavesFrom cfg 0 pages).map LeafPage.pageNo = range pages.length := by
        rw [pageNos_leavesFrom, ← range_eq_range']
      have hk : pages.length < 2 ^ 32 := by
        rw [← length_range (n := pages.length), ← hnos]
        exact hpages
      obtain ⟨hlt, hmod⟩ := pageNos_narrow hnos hk
      obtain ⟨k, hout, hnums, -⟩ :=
        buildTatFromCsrPages_numbers (IndexBuild.startPageNo_lt (leavesFrom cfg 0 pages)) hr
      have hrun : ∀ manager, (IndexBuild.hierarchy g.neighbors (fun v => (items v).cur.pageNo)
          (leavesFrom cfg 0 pages)).run tenv fuel manager =
          some (.ok (IndexBuild.afterHierarchy manager (leavesFrom cfg 0 pages) r)) := by
        intro manager
        rw [IndexBuild.run, hr]
      refine ⟨.hierarchy _ _ (leavesFrom cfg 0 pages), _, hlt, ⟨fuel, _, hrun _⟩, rfl, ?_, rfl, rfl,
        ?_, rfl, fun no hno => ?_⟩
      · dsimp only
        rw [hmod]
        exact List.Subperm.refl _
      · have hnext : r.nextIndexPageNo = pageNoSub _ (k + 1) := hout.next
        exact hnext ▸ pageNoSub_lt _ _
      · rcases hout.pages no hno with hm | hm
        · exact absurd hm (notMem_empty no)
        · show no ∈ r.levels.flatten
          rw [hnums]
          exact hm

theorem buildReorderTatDb_counts {g : MemGraph} {parts : List (List VId)}
    (h : buildReorderTatDb cfg benv tenv fuel g parts = some (.ok s))
    (hpages : s.live.length < 2 ^ 32) : ∃ (b : IndexBuild) (n : PageNumbers), b.Of tenv s n := by
  unfold buildReorderTatDb at h
  split at h
  · cases h
  · rename_i st groups hparts
    split at h
    · cases h
    · cases h
    · rename_i t ht
      cases h
      obtain ⟨hgr, -⟩ := reorderParts_grouped (fun _ => Nat.zero_lt_one) hparts
      have hnos : groups.flatten.map LeafPage.pageNo = range st.pages.length := by
        rw [range_eq_range']
        exact hgr.nos
      have hk : st.pages.length < 2 ^ 32 := by
        rw [← length_range (n := st.pages.length), ← hnos]
        exact hpages
      obtain ⟨hlt, hmod⟩ := pageNos_narrow hnos hk
      obtain ⟨k, hout, hnums, -⟩ := buildHierarchicalTat_numbers (by decide) ht
      have hrun : ∀ manager, (IndexBuild.reorder g.neighbors (fun v => (st.items v).cur.pageNo)
          groups).run tenv fuel manager =
          some (.ok (IndexBuild.afterReorder manager groups t)) := by
        intro manager
        rw [IndexBuild.run, ht]
      refine ⟨.reorder _ _ groups, _, hlt, ⟨fuel, _, hrun _⟩, rfl, ?_, rfl, rfl, Nat.two_pow_pos 32,
        length_append, fun no hno => ?_⟩
      · dsimp only
        rw [hmod]
        exact List.Subperm.refl _
      · rcases hout.pages no hno with hm | hm
        · exact absurd hm (notMem_empty no)
        · show no ∈ t.numbers
          rw [hnums]
          exact hm

theorem TatDb.Built.counts (h : s.Built cfg tenv) :
    ∃ (b : IndexBuild) (n : PageNumbers), b.Of tenv s n := by
  cases h with
  | standard h hpages _ => exact buildLeveledDb_counts h hpages
  | reorder h hpages _ => exact buildReorderTatDb_counts h hpages

/-- Every run of a built database is one of its numbers. When these meet their conditions, no index
page has the number 0 or the number of a live CSR page after it. -/
theorem TatDb.Built.apart (h : s.Built cfg tenv) (run : Steps (TatStep cfg tenv) s es s') :
    ∃ (b : IndexBuild) (n n' : PageNumbers)
      (ns : List NumberEvent), b.Of tenv s n ∧ Steps PageNumbers.Step n ns n' ∧ s'.Counts n' ∧
      (b.Fits tenv n → Steps (guarded PageNumbers.Free PageNumbers.Step) n ns n' →
        0 ∉ s'.tree.indexPages ∧ ∀ p ∈ s'.live, p % 2 ^ 32 ∉ s'.tree.indexPages) := by
  obtain ⟨b, n, hb⟩ := h.counts
  obtain ⟨ns, n', hrun, hc⟩ := tatSteps_counts hb.counts run
  refine ⟨b, n, n', ns, hb, hrun, hc, fun hfit hfree => hc.apart ?_⟩
  obtain ⟨fuel, manager, hbuild⟩ := hb.run
  have hn : n.Counted ∧ n.Apart :=
    ⟨IndexBuild.run_counted hbuild, (IndexBuild.run_apart_iff hb.pages hbuild).2 hfit⟩
  refine (hfree.inv (fun _ n => n.Counted ∧ n.Apart) hn fun _ n1 e n2 h1 h2 => ?_).2
  exact ⟨h1.1.step h2.2, (h1.1.step_apart_iff h1.2 h2.2).2 h2.1⟩

end BwGraph
