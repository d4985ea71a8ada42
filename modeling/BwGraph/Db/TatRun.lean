import BwGraph.Db.Build
import BwGraph.Db.TatComplete
import BwGraph.Db.TatSmo

/-
  Databases built with an index tree, and what consolidations make of it. `build_standard_db`
  builds the tree over the pages before it writes them, and gives it to `smo_ctl_t`;
  `build_reorder_tat_db` packs the parts of a partition one after another, writes the pages and
  builds the tree then, and `smo_ctl_t` never learns of it.

  `set_parent_page_no` of a CSR page stores the parent at byte 16, behind the header that
  `parse_from_page_data` reads. So a page that comes back from the file has the parent 0, no
  update of the index is ever made, and no index page lists page 0 under the number 0
  (`Levels.zero_unlisted`): the tree is right only while there are no CSR pages
  (`upToDate_iff`).
-/

namespace BwGraph

open AList Nat IndexPage

open Except (bind_eq_ok)
open List

/-! ## The pages -/

/-- The bytes a page is built with. -/
def CsrPage.builtData (cfg : Config) (page : CsrPage) : List Nat :=
  if page.vertexSpan = [] then emptyPageData cfg else page.pageData cfg ⟨0, 0⟩

/-- A built page, as the construction of the tree gets it. -/
def CsrPage.leaf (cfg : Config) (pageNo : PageNo) (page : CsrPage) : LeafPage :=
  ⟨pageNo, page.vertexSpan.map CsrVertex.vertexId, 0, 0, page.builtData cfg⟩

/-- Pages with consecutive numbers. -/
def leavesFrom (cfg : Config) (pageNo : PageNo) (pages : List CsrPage) : List LeafPage :=
  (pages.zipIdx pageNo).map fun x => x.1.leaf cfg x.2

/-- The page that is read back from some bytes. -/
def parsedPage (cfg : Config) (data : List Nat) : CsrPage :=
  match parseFromPageData cfg data with
  | .ok (page, _) => page
  | .error _ => .empty

/-- `parent_page_no_` of the pages on file. -/
def parentsOf (cfg : Config) (leaves : List LeafPage) (q : PageNo) : PageNo :=
  match leaves.find? fun p => p.pageNo = q with
  | some p => parsedParent cfg p.data
  | none => 0

/-! ## `build_standard_db` with levels -/

/-- `max_page_no_l0 + 1`, as a `page_no_t`. -/
def startPageNo (leaves : List LeafPage) : PageNo :=
  ((leaves.map LeafPage.pageNo).foldl max 0 + 1) % 2 ^ 32

/-- `build_standard_db` with `BW_GRAPH_LEVELED`: the wired pages are the ones that are written. -/
def buildLeveledDb (cfg : Config) (benv : BuildEnv) (tenv : TatEnv) (fuel : Nat) (g : MemGraph)
    (partition : List (List VId)) : Option (Except String TatDb) :=
  match standardPages cfg benv g 0 partition VItem.init with
  | .error e => some (.error e)
  | .ok (pages, items) =>
    let leaves := leavesFrom cfg 0 pages
    match buildTatFromCsrPages tenv g.neighbors (fun v => (items v).cur.pageNo) fuel leaves
        (startPageNo leaves) with
    | none => none
    | some (.error e) => some (.error e)
    | some (.ok r) => some (.ok
      { db := loadedDb cfg benv g (r.leaves.map fun p => parsedPage cfg p.data) items
          (partition.flatten.filter fun v => (g.neighbors v).length ≥ cfg.giantDegreeBound)
        tree := ⟨r.indexPages, r.rootPageNo, r.nextIndexPageNo, r.levels.headD [],
          r.levels.flatten.length⟩
        wired := true
        parents := parentsOf cfg r.leaves
        live := leaves.map LeafPage.pageNo })

/-! ## `build_reorder_tat_db` -/

/-- The locals of the packing loop; `current_page_id` is the number of pages. -/
structure ReorderState where
  builder : CsrPageBuilder
  pages : List CsrPage
  items : VId → VItem

/-- A finished page: its number, and the locations of its vertices. -/
def ReorderState.flush (cfg : Config) (st : ReorderState) : Except String ReorderState :=
  match st.builder.build cfg with
  | .error e => .error e
  | .ok (page, vm, builder) => .ok
    { builder := builder
      pages := st.pages ++ [page]
      items := vm.foldl (fun items x => Function.update items x.1
        { items x.1 with cur := ⟨x.1, st.pages.length, x.2⟩, vertexType := .normal }) st.items }

/-- The vertices of one part, and its last page. -/
def reorderPart (cfg : Config) (g : MemGraph) : List VId → ReorderState → Except String ReorderState
  | [], st => if st.builder.isEmpty then .ok st else st.flush cfg
  | v :: vs, st =>
    match st.builder.addVertex cfg v (g.neighbors v) cfg.edgeSlotCount with
    | .error e => .error e
    | .ok (some builder) => reorderPart cfg g vs { st with builder := builder }
    | .ok none =>
      match st.flush cfg with
      | .error e => .error e
      | .ok st =>
        match st.builder.addVertex cfg v (g.neighbors v) cfg.edgeSlotCount with
        | .error e => .error e
        | .ok none => .error "Assertion must_success failed"
        | .ok (some builder) => reorderPart cfg g vs { st with builder := builder }

/-- All parts, with `partition_pages`. -/
def reorderParts (cfg : Config) (g : MemGraph) :
    List (List VId) → ReorderState → Except String (ReorderState × List (List LeafPage))
  | [], st => .ok (st, [])
  | part :: parts, st =>
    match reorderPart cfg g part st with
    | .error e => .error e
    | .ok st' =>
      match reorderParts cfg g parts st' with
      | .error e => .error e
      | .ok (st'', groups) =>
        .ok (st'', leavesFrom cfg st.pages.length (st'.pages.drop st.pages.length) :: groups)

/-- `build_reorder_tat_db` with `BW_GRAPH_LEVELED`, over the reordered parts. -/
def buildReorderTatDb (cfg : Config) (benv : BuildEnv) (tenv : TatEnv) (fuel : Nat) (g : MemGraph)
    (parts : List (List VId)) : Option (Except String TatDb) :=
  match reorderParts cfg g parts ⟨CsrPageBuilder.init, [], VItem.init⟩ with
  | .error e => some (.error e)
  | .ok (st, groups) =>
    match buildHierarchicalTat tenv g.neighbors (fun v => (st.items v).cur.pageNo) fuel groups
        (2 ^ 32 - 1) with
    | none => none
    | some (.error e) => some (.error e)
    | some (.ok t) =>
      let giants := parts.flatten.filter fun v => (g.neighbors v).length ≥ cfg.giantDegreeBound
      some (.ok
        { db := loadedDb cfg benv g st.pages (giants.foldl (fun items v => Function.update items v
            { items v with vertexType := .giant }) st.items) giants
          tree := ⟨t.indexPages, t.root, 0, t.level1,
            (t.trees.flatMap fun r => r.levels.flatten).length + t.top.levels.flatten.length⟩
          wired := false
          parents := parentsOf cfg groups.flatten
          live := groups.flatten.map LeafPage.pageNo })

/-- A database that was built with an index tree. There are fewer than 2^32 CSR pages, and the
index pages do not use up the 32-bit numbers. -/
inductive TatDb.Built (cfg : Config) (tenv : TatEnv) (s : TatDb) : Prop
  | standard {benv : BuildEnv} {fuel : Nat} {g : MemGraph} {partition : List (List VId)}
      (h : buildLeveledDb cfg benv tenv fuel g partition = some (.ok s))
      (hpages : s.live.length < 2 ^ 32) (hindex : s.tree.handedOut < 2 ^ 32)
  | reorder {benv : BuildEnv} {fuel : Nat} {g : MemGraph} {parts : List (List VId)}
      (h : buildReorderTatDb cfg benv tenv fuel g parts = some (.ok s))
      (hpages : s.live.length < 2 ^ 32) (hindex : s.tree.handedOut + parts.length < 2 ^ 32)

/-! ## A tree that is up to date -/

/-- The blocks of an index page; none when it is not in the map. -/
def TatIndex.blocks (cfg : IndexConfig) (t : TatIndex) (no : PageNo) : List PageNo :=
  ((t.indexPages.lookup no).map (IndexPage.getBlocks cfg)).getD []

/-- Every live CSR page is a block of the index page it names as its parent, the blocks of the
lowest index pages are the live CSR pages, each once, and every other index page is a block of the
one it names. -/
structure TatDb.UpToDate (cfg : IndexConfig) (s : TatDb) : Prop where
  parent : ∀ p ∈ s.live, p ∈ s.tree.blocks cfg (s.parents p)
  lowest : (s.tree.lowest.flatMap (s.tree.blocks cfg)).Perm s.live
  index : ∀ no page, s.tree.indexPages.lookup no = some page → no ≠ s.tree.root →
    no ∈ s.tree.blocks cfg page.parentPageNo

/-! ## No page on file has a parent -/

/-- The parent number in the header of a page is 0. -/
def Unparented (data : List Nat) : Prop :=
  ∃ front rest, data = front ++ (wordWrite 0 ++ rest) ∧ front.length = 8

theorem Unparented.parsedParent {cfg : Config} {data : List Nat} (h : Unparented data) :
    parsedParent cfg data = 0 := by
  obtain ⟨front, rest, rfl, hlen⟩ := h
  refine parsedParent_eq_zero ?_
  rw [← hlen, drop_left]
  exact wordRead_wordWrite (Nat.two_pow_pos 32) rest

/-- A store behind the parent number leaves it alone. -/
theorem Unparented.putBytes {data bytes : List Nat} {off : Nat} (h : Unparented data)
    (hoff : 12 ≤ off) : Unparented (putBytes data off bytes) := by
  obtain ⟨front, rest, rfl, hlen⟩ := h
  have hword := length_wordWrite 0
  refine ⟨front, BwGraph.putBytes rest (off - front.length - (wordWrite 0).length) bytes, ?_, hlen⟩
  rw [putBytes_append_right (by omega), putBytes_append_right (by omega)]

theorem unparented_builtData (cfg : Config) (page : CsrPage) : Unparented (page.builtData cfg) := by
  have hhead : ∀ vertexCount edgeCount usedBytes rest,
      Unparented (headerWrite vertexCount edgeCount usedBytes ⟨0, 0⟩ ++ rest) := by
    intro vertexCount edgeCount usedBytes rest
    refine ⟨halfWrite vertexCount ++ halfWrite edgeCount ++ wordWrite usedBytes,
      wordWrite 0 ++ rest, ?_, rfl⟩
    simp only [headerWrite, append_assoc]
  unfold CsrPage.builtData
  split
  · exact hhead 0 0 16 _
  · obtain ⟨n, hn⟩ := page.pageData_eq cfg ⟨0, 0⟩
    rw [hn]
    exact hhead _ _ _ _

theorem LeafPage.unparented_wire {cfg : IndexConfig} {p : LeafPage} (h : Unparented p.data)
    (parent : PageNo) (sampled : List PageNo) : Unparented (p.wire cfg parent sampled).data := by
  have hfold : ∀ (ns : List PageNo) (q : LeafPage), Unparented q.data →
      Unparented (ns.foldl (fun p n => (p.addNeighborPageNo cfg n).2) q).data := by
    intro ns
    induction ns with
    | nil => exact fun q hq => hq
    | cons n ns ih =>
      intro q hq
      refine ih _ ?_
      dsimp only
      unfold LeafPage.addNeighborPageNo
      split_ifs
      · exact hq
      · exact hq
      · exact (hq.putBytes (by omega)).putBytes (by omega)
  exact hfold _ _ (h.putBytes (by omega))

variable {cfg : Config} {tenv : TatEnv}

/-- The wiring leaves the parent numbers of the leaves alone. -/
def KeepsUnparented (wiring : Wiring) : Prop :=
  ∀ parentOf s s', wiring parentOf s = .ok s' → (∀ p ∈ s.leaves, Unparented p.data) →
    ∀ p ∈ s'.leaves, Unparented p.data

variable {parentOf : PageNo → Except String PageNo} {fuel : Nat} {r : TatResult}
  {groups : List (List LeafPage)} {g : MemGraph} {st st' : ReorderState} {s : TatDb}

theorem wireLeaves_unparented {sparse : BlockAdjMap} {ps ps' : List LeafPage}
    (h : wireLeaves tenv parentOf sparse ps = .ok ps') (hps : ∀ p ∈ ps, Unparented p.data) :
    ∀ p ∈ ps', Unparented p.data := by
  induction ps generalizing ps' with
  | nil =>
    cases h
    exact hps
  | cons p ps ih =>
    obtain ⟨parent, -, h⟩ := bind_eq_ok.1 h
    obtain ⟨sampled, -, h⟩ := bind_eq_ok.1 h
    obtain ⟨rest, hrest, h⟩ := bind_eq_ok.1 h
    cases h
    exact forall_mem_cons.2 ⟨LeafPage.unparented_wire (hps p mem_cons_self) _ _,
      ih hrest fun q hq => hps q (mem_cons_of_mem _ hq)⟩

theorem keepsUnparented_csrWiring : KeepsUnparented (csrWiring tenv) := by
  intro parentOf s s' h hs
  unfold csrWiring at h
  split at h
  · obtain ⟨leaves, hl, h⟩ := bind_eq_ok.1 h
    cases h
    exact wireLeaves_unparented hl hs
  · obtain ⟨m, -, h⟩ := bind_eq_ok.1 h
    cases h
    exact hs

theorem keepsUnparented_csrRootWiring : KeepsUnparented (csrRootWiring tenv) := by
  intro parentOf s s' h hs
  unfold csrRootWiring at h
  split at h
  · obtain ⟨leaves, hl, h⟩ := bind_eq_ok.1 h
    cases h
    exact wireLeaves_unparented hl hs
  · obtain ⟨m, -, h⟩ := bind_eq_ok.1 h
    cases h
    exact hs

variable {wiring rootWiring : Wiring} {leaves : List LeafPage} {parts : List (List VId)}

theorem buildTree_unparented (hw : KeepsUnparented wiring) (hr : KeepsUnparented rootWiring)
    {s : TatState} (h : buildTree tenv wiring rootWiring fuel s = some (.ok r))
    (hs : ∀ p ∈ s.leaves, Unparented p.data) : ∀ p ∈ r.leaves, Unparented p.data := by
  revert hs
  refine buildTree_induct s h (fun s _ hroot hs => ?_) fun s s' _ hstep ih hs => ih ?_
  · obtain ⟨root, -, hroot⟩ := bind_eq_ok.1 hroot
    obtain ⟨s1, h1, hroot⟩ := bind_eq_ok.1 hroot
    cases hroot
    have hs1 : ∀ p ∈ s1.leaves, Unparented p.data := hr _ _ _ h1 hs
    exact hs1
  · obtain ⟨parts, -, hstep⟩ := bind_eq_ok.1 hstep
    obtain ⟨s1, h1, hstep⟩ := bind_eq_ok.1 hstep
    obtain ⟨pages, -, hstep⟩ := bind_eq_ok.1 hstep
    cases hstep
    have hs1 : ∀ p ∈ s1.leaves, Unparented p.data := hw _ _ _ h1 hs
    exact hs1

theorem parentsOf_eq_zero (h : ∀ p ∈ leaves, Unparented p.data) (q : PageNo) :
    parentsOf cfg leaves q = 0 := by
  unfold parentsOf
  split
  · rename_i p hp
    exact (h p (mem_of_find?_eq_some hp)).parsedParent
  · rfl

theorem unparented_leavesFrom (pageNo : PageNo) (pages : List CsrPage) :
    ∀ p ∈ leavesFrom cfg pageNo pages, Unparented p.data := by
  intro p hp
  obtain ⟨x, -, rfl⟩ := mem_map.1 hp
  exact unparented_builtData cfg x.1

theorem unparented_reorderParts (h : reorderParts cfg g parts st = .ok (st', groups)) :
    ∀ p ∈ groups.flatten, Unparented p.data := by
  induction parts generalizing st groups with
  | nil =>
    cases h
    exact fun p hp => absurd hp not_mem_nil
  | cons part parts ih =>
    rw [reorderParts] at h
    split at h
    · cases h
    · split at h
      · cases h
      · rename_i hrest
        cases h
        intro p hp
        rw [flatten_cons, mem_append] at hp
        rcases hp with hp | hp
        · exact unparented_leavesFrom _ _ p hp
        · exact ih hrest p hp

/-- No page of a built database has a parent. -/
theorem TatDb.Built.parents (h : s.Built cfg tenv) (q : PageNo) : s.parents q = 0 := by
  cases h with
  | standard h _ _ =>
    unfold buildLeveledDb at h
    split at h
    · cases h
    · dsimp only at h
      split at h
      · cases h
      · cases h
      · rename_i r hr
        cases h
        exact parentsOf_eq_zero (buildTree_unparented keepsUnparented_csrWiring
          keepsUnparented_csrRootWiring hr (unparented_leavesFrom _ _)) q
  | reorder h _ _ =>
    unfold buildReorderTatDb at h
    split at h
    · cases h
    · rename_i hparts
      split at h
      · cases h
      · cases h
      · cases h
        exact parentsOf_eq_zero (unparented_reorderParts hparts) q

/-! ## The number 0 -/

section Zero

variable {tight : Bool} {start : PageNo} {graph : BlockAdjMap} {stack : List Level}

variable (h : Levels tenv tight start graph stack)
include h

/-- Above the bottom, blocks are numbers of the level below: no page lists its own number. -/
theorem Levels.not_self (hc : graph.Closed) (hnd : (stackNumbers stack).Nodup)
    {e : PageNo × List PageNo} (he : e ∈ stack.tail.flatten) : e.1 ∉ e.2 := by
  induction h with
  | root h => cases he
  | @level start graph rest _ _ _ _ hrest ih =>
    rw [stackNumbers_cons, nodup_append] at hnd
    rcases mem_flatten_levels.1 he with hh | ht
    · intro hself
      have hk : e.1 ∈ nextGraph tenv graph start :=
        hrest.bottom.mem_iff.1 (mem_flatMap.2 ⟨e, hh, hself⟩)
      have hno := mem_numbers_of_nextGraph hc hk
      rw [← numbers_levelOf] at hno
      exact hnd.2.2 e.1 hno e.1 (mem_map.2 ⟨e, he, rfl⟩) rfl
    · exact ih (closed_nextGraph tenv _ _) hnd.2.1 ht

/-- The bottom level has no more pages than blocks, so it does not reach the number 0. -/
theorem Levels.zero_notMem_bottom (hk : graph.keys.length ≤ start) (hpos : 0 < start)
    (hs : start < 2 ^ 32) : 0 ∉ (stack.headD []).numbers := by
  cases h with
  | root h =>
    intro hz
    rw [headD_cons, Level.numbers, map_singleton, mem_singleton] at hz
    exact absurd hz (Nat.ne_of_lt hpos)
  | level _ _ _ _ _ =>
    intro hz
    rw [headD_cons, numbers_levelOf] at hz
    obtain ⟨i, hi, heq⟩ := mem_map.1 hz
    have hlt : i < start :=
      Nat.lt_of_lt_of_le (mem_range.1 hi) (Nat.le_trans (length_parts_le tenv graph) hk)
    have hzero : pageNoSub start start = 0 := by
      unfold pageNoSub
      rw [mod_eq_of_lt hs, Nat.add_sub_cancel' (Nat.le_of_lt hs), mod_self]
    exact Nat.ne_of_lt hlt (pageNoSub_inj (Nat.lt_trans hlt hs) hs (heq.trans hzero.symm))

/-- No page with the number 0 has the block 0. -/
theorem Levels.zero_unlisted (hc : graph.Closed) (hnd : (stackNumbers stack).Nodup)
    (hk : graph.keys.length ≤ start) (hpos : 0 < start) (hs : start < 2 ^ 32) :
    ¬ ∃ e ∈ stack.flatten, e.1 = 0 ∧ 0 ∈ e.2 := by
  rintro ⟨e, he, hno, hb⟩
  rcases mem_flatten_levels.1 he with hh | ht
  · exact h.zero_notMem_bottom hk hpos hs (hno ▸ mem_map.2 ⟨e, hh, rfl⟩)
  · exact h.not_self hc hnd ht (hno ▸ hb)

end Zero

/-! ## The tree of a build -/

theorem TatIndex.mem_blocks {cfg : IndexConfig} {t : TatIndex} {no b : PageNo} :
    b ∈ t.blocks cfg no ↔ ∃ p, t.indexPages.lookup no = some p ∧ b ∈ p.getBlocks cfg := by
  unfold TatIndex.blocks
  cases t.indexPages.lookup no with
  | none => simp
  | some p => simp

/-- Without CSR pages a build leaves a root without blocks; otherwise CSR page 0 is a block of a
lowest index page, and not of an index page with the number 0. -/
structure TatDb.Fresh (cfg : IndexConfig) (s : TatDb) : Prop where
  none : s.live = [] → s.tree.lowest.flatMap (s.tree.blocks cfg) = [] ∧
    ∀ no ∈ s.tree.indexPages, no = s.tree.root
  lowest : s.live ≠ [] → 0 ∈ s.tree.lowest.flatMap (s.tree.blocks cfg)
  zero : s.live ≠ [] → 0 ∉ s.tree.blocks cfg 0

theorem pageNos_leavesFrom (pageNo : PageNo) (pages : List CsrPage) :
    (leavesFrom cfg pageNo pages).map LeafPage.pageNo = List.range' pageNo pages.length := by
  unfold leavesFrom
  rw [map_map]
  show (pages.zipIdx pageNo).map Prod.snd = _
  exact zipIdx_map_snd pageNo pages

theorem TatDb.Fresh.of_empty {cfg : IndexConfig} {start : PageNo} {root : IndexPage}
    (hlive : s.live = []) (hmap : s.tree.indexPages = insert start root ∅)
    (hroot : s.tree.root = start) (hblocks : root.getBlocks cfg = []) : s.Fresh cfg := by
  refine ⟨fun _ => ⟨?_, fun no hno => ?_⟩, fun hne => absurd hlive hne,
    fun hne => absurd hlive hne⟩
  · refine flatMap_eq_nil_iff.2 fun no _ => eq_nil_iff_forall_not_mem.2 fun b hb => ?_
    obtain ⟨p, hp, hb⟩ := TatIndex.mem_blocks.1 hb
    have hno : no ∈ s.tree.indexPages := lookup_isSome.1 (by rw [hp]; rfl)
    rw [hmap, mem_insert] at hno
    rcases hno with rfl | hno
    · rw [hmap, lookup_insert] at hp
      cases hp
      rw [hblocks] at hb
      cases hb
    · exact absurd hno (notMem_empty no)
  · rw [hmap, mem_insert] at hno
    rcases hno with rfl | hno
    · exact hroot.symm
    · exact absurd hno (notMem_empty no)

theorem csrRootWiring_nil {s : TatState} (hl : s.levels = []) (hs : s.leaves = []) :
    csrRootWiring tenv parentOf s = .ok s := by
  obtain ⟨graph, sparse, nextNo, levels, indexPages, leaves⟩ := s
  subst hl hs
  rfl

theorem rootsWiring_nil {s : TatState} (hl : s.levels = []) :
    rootsWiring tenv [] parentOf s = .ok s := by
  obtain ⟨graph, sparse, nextNo, levels, indexPages, leaves⟩ := s
  subst hl
  rfl

/-- A tree over nothing is a root without blocks. -/
theorem buildTree_empty {start : PageNo}
    (hw : ∀ parentOf s, s.levels = [] → s.leaves = [] → rootWiring parentOf s = .ok s)
    (h : buildTree tenv wiring rootWiring fuel (.start tenv ∅ start ∅ []) = some (.ok r)) :
    r.rootPageNo = start ∧ ∃ root : IndexPage, r.indexPages = insert start root ∅ ∧
      root.getBlocks tenv.cfg = [] := by
  cases fuel with
  | zero => cases h
  | succ fuel =>
    unfold buildTree at h
    have hle : ¬ (TatState.start tenv ∅ start ∅ []).graph.keys.length > tenv.cfg.maxBlocks :=
      Nat.not_lt_zero _
    rw [climb, if_neg hle] at h
    obtain ⟨root, hroot, h⟩ := bind_eq_ok.1 (Option.some.inj h)
    obtain ⟨s1, h1, h⟩ := bind_eq_ok.1 h
    rw [hw _ _ rfl rfl] at h1
    cases h1
    cases h
    refine ⟨rfl, root, rfl, ?_⟩
    have hnum := (create_lists hroot).1.numBlocks
    have hnil : tenv.ho.order (∅ : BlockAdjMap).keys = [] := (tenv.ho.perm []).eq_nil
    rw [show (TatState.start tenv ∅ start ∅ []).graph = ∅ from rfl, hnil] at hnum
    rw [getBlocks, hnum]
    rfl

/-! ### The standard build -/

variable {items : VId → VItem}

/-- What every item has, and every assignment keeps, every item has after the loop. -/
theorem forall_foldl_update {α : Type} {P : VItem → Prop} (key : α → VId) (f : VItem → α → VItem)
    (hf : ∀ it x, P it → P (f it x)) (l : List α) (h : ∀ v, P (items v)) (v : VId) :
    P (l.foldl (fun items x => Function.update items (key x) (f (items (key x)) x)) items v) := by
  induction l generalizing items with
  | nil => exact h v
  | cons x l ih =>
    refine ih fun w => ?_
    dsimp only
    by_cases hw : w = key x
    · subst hw
      rw [Function.update_self]
      exact hf _ x (h _)
    · rw [Function.update_of_ne hw]
      exact h w

variable {pageNo n : Nat}

theorem indexPart_pageNo {part : List VId} {vm : List (VId × Nat)} (hp : pageNo < n)
    (h : ∀ v, (items v).cur.pageNo < n) (v : VId) :
    (indexPart cfg g pageNo part vm items v).cur.pageNo < n := by
  have hpart := forall_foldl_update (P := fun it => it.cur.pageNo < n) id
    (fun _ v => ⟨⟨v, pageNo, 0⟩,
      if (g.neighbors v).length ≥ cfg.giantDegreeBound then .giant else .normal, false⟩)
    (fun _ _ _ => hp) part h
  exact forall_foldl_update (P := fun it => it.cur.pageNo < n) Prod.fst
    (fun it x => { it with cur := ⟨x.1, it.cur.pageNo, x.2⟩ }) (fun _ _ hit => hit) vm hpart v

variable {benv : BuildEnv} {nbrs : VId → List VId}

/-- Every part gets a page, and every vertex is on one of the pages. -/
theorem standardPages_pageNo {items items' : VId → VItem} {pages : List CsrPage}
    (h : standardPages cfg benv g pageNo parts items = .ok (pages, items'))
    (hn : pageNo + pages.length ≤ n) (hi : ∀ v, (items v).cur.pageNo < n) (v : VId) :
    (items' v).cur.pageNo < n := by
  induction parts generalizing pageNo items pages with
  | nil =>
    cases h
    exact hi v
  | cons part parts ih =>
    obtain ⟨page, vm, rest, -, hrest, rfl⟩ := standardPages_cons h
    rw [length_cons] at hn
    exact ih hrest (by omega) (indexPart_pageNo (by omega) hi)

theorem startPageNo_eq {n : Nat} (h : leaves.map LeafPage.pageNo = List.range n) (hpos : 0 < n)
    (hn : n < 2 ^ 32) : startPageNo leaves = n := by
  have hmax : ∀ k, (List.range (k + 1)).foldl max 0 = k := by
    intro k
    induction k with
    | zero => rfl
    | succ k ih =>
      rw [range_succ, foldl_append, ih]
      exact Nat.max_eq_right (le_succ k)
  obtain ⟨k, rfl⟩ : ∃ k, n = k + 1 := ⟨n - 1, by omega⟩
  unfold startPageNo
  rw [h, hmax, mod_eq_of_lt hn]

/-- The blocks of the pages `0 .. n - 1` are no more than these. -/
theorem length_keys_leafGraph {nbrs : VId → List VId} {loc : VId → PageNo} {leaves : List LeafPage}
    {n : Nat} (h : leaves.map LeafPage.pageNo = List.range n) (hloc : ∀ v, loc v < n) :
    (leafGraph nbrs loc leaves).keys.length ≤ n ∧ ∀ k ∈ leafGraph nbrs loc leaves, k < n := by
  have hlt : ∀ k ∈ leafGraph nbrs loc leaves, k < n := by
    intro k hk
    rcases mem_leafGraph.1 hk with hk | ⟨p, -, e, he, rfl⟩
    · rw [h] at hk
      exact mem_range.1 hk
    · obtain ⟨u, -, rfl⟩ := mem_map.1 he
      exact hloc u
  refine ⟨?_, hlt⟩
  have hsub : (leafGraph nbrs loc leaves).keys.Subperm (List.range n) :=
    subperm_of_subset (keys_nodup _) fun k hk => mem_range.2 (hlt k hk)
  exact hsub.length_le.trans_eq length_range

theorem headD_map_numbers (stack : List Level) :
    (stack.map Level.numbers).headD [] = (stack.headD []).numbers := by
  cases stack with
  | nil => rfl
  | cons lvl rest => rfl

variable {loc : VId → PageNo}

/-- Over the pages `0 .. n - 1`, page 0 is a block of a page of the first level, and not of an
index page with the number 0. -/
theorem buildTatFromCsrPages_zero_block {n fuel : Nat}
    (hnos : leaves.map LeafPage.pageNo = List.range n) (hloc : ∀ v, loc v < n) (hpos : 0 < n)
    (hn : n < 2 ^ 32)
    (hr : buildTatFromCsrPages tenv nbrs loc fuel leaves (startPageNo leaves) = some (.ok r))
    (hindex : r.levels.flatten.length < 2 ^ 32) :
    (∃ no ∈ r.levels.headD [], ∃ p, r.indexPages.lookup no = some p ∧ 0 ∈ p.getBlocks tenv.cfg) ∧
      ¬ ∃ p, r.indexPages.lookup 0 = some p ∧ 0 ∈ p.getBlocks tenv.cfg := by
  have hmem : 0 ∈ leaves.map LeafPage.pageNo := hnos ▸ mem_range.2 hpos
  have hne : leaves ≠ [] := fun hc => by
    rw [hc] at hmem
    cases hmem
  have hnb : 0 < tenv.cfg.maxBlockNeighbor := Nat.pos_of_ne_zero fun hz =>
    buildTatFromCsrPages_zero hz hne hr
  obtain ⟨hlen, hlt⟩ := @length_keys_leafGraph nbrs loc leaves n hnos hloc
  have hc := closed_leafGraph nbrs loc leaves
  rw [startPageNo_eq hnos hpos hn] at hr
  obtain ⟨stack, ht⟩ := buildTree_levels (wires_csrWiring hnb) (wires_csrRootWiring hnb) hc hr
  have hbuilt : Levels tenv false n (leafGraph nbrs loc leaves) stack := ht.built
  have hlevels : r.levels = stack.map Level.numbers := ht.levels
  have hgrows : MapGrows tenv ∅ r.indexPages stack.flatten := ht.grows
  rw [hlevels, ← numbers_flatten] at hindex
  have hnd : (stackNumbers stack).Nodup := by
    rw [hbuilt.numbers hn]
    exact nodup_numbersFrom (Nat.le_of_lt hindex)
  have hblocks : ∀ e ∈ stack.flatten, ∀ b ∈ e.2, b < 2 ^ 32 := fun e he b hb =>
    hbuilt.blocks_lt hc (fun k hk => Nat.lt_trans (hlt k hk) hn) he hb
  refine ⟨?_, fun hb => ?_⟩
  · have hkey : 0 ∈ leafGraph nbrs loc leaves := mem_leafGraph.2 (.inl hmem)
    obtain ⟨e, he, hb⟩ := mem_flatMap.1 (hbuilt.bottom.mem_iff.2 hkey)
    refine ⟨e.1, ?_, ?_⟩
    · rw [hlevels, headD_map_numbers]
      exact mem_map.2 ⟨e, he, rfl⟩
    · exact (hgrows.lists_iff hnd hblocks).2 ⟨e, mem_flatten_levels.2 (.inl he), rfl, hb⟩
  · exact hbuilt.zero_unlisted hc hnd hlen hpos hn ((hgrows.lists_iff hnd hblocks).1 hb)

theorem fresh_buildLeveledDb {partition : List (List VId)}
    (h : buildLeveledDb cfg benv tenv fuel g partition = some (.ok s))
    (hpages : s.live.length < 2 ^ 32) (hindex : s.tree.handedOut < 2 ^ 32) : s.Fresh tenv.cfg := by
  unfold buildLeveledDb at h
  split at h
  · cases h
  · rename_i pages items hstd
    dsimp only at h
    split at h
    · cases h
    · cases h
    · rename_i r hr
      cases h
      have hnos := @pageNos_leavesFrom cfg 0 pages
      rw [← range_eq_range'] at hnos
      dsimp only at hpages hindex
      rw [hnos, length_range] at hpages
      have hnil : (leavesFrom cfg 0 pages).map LeafPage.pageNo = [] ↔ pages = [] := by
        rw [hnos, range_eq_nil, length_eq_zero_iff]
      by_cases hp : pages = []
      · subst hp
        obtain ⟨hroot, root, hmap, hblocks⟩ :=
          buildTree_empty (fun parentOf s hl hs => csrRootWiring_nil hl hs) hr
        exact TatDb.Fresh.of_empty rfl hmap hroot hblocks
      · have hpos : 0 < pages.length := length_pos_iff.2 hp
        obtain ⟨⟨no, hno, hb⟩, hzero⟩ := buildTatFromCsrPages_zero_block hnos
          (standardPages_pageNo hstd (by omega) fun _ => hpos) hpos hpages hr hindex
        refine ⟨fun hl => absurd (hnil.1 hl) hp, fun _ => ?_, fun _ hb => ?_⟩
        · exact mem_flatMap.2 ⟨no, hno, TatIndex.mem_blocks.2 hb⟩
        · exact hzero (TatIndex.mem_blocks.1 hb)

/-! ### The packed build -/

/-- Every vertex is on one of the pages, or still on page 0. -/
def ReorderState.Located (st : ReorderState) : Prop :=
  ∀ v, (st.items v).cur.pageNo < st.pages.length + 1

theorem ReorderState.Located.flush {st st' : ReorderState} (h : st.Located)
    (hf : st.flush cfg = .ok st') : st'.Located ∧ st'.pages.length = st.pages.length + 1 := by
  unfold ReorderState.flush at hf
  split at hf
  · cases hf
  · rename_i page vm builder _
    cases hf
    have hlen : (st.pages ++ [page]).length = st.pages.length + 1 := length_append
    refine ⟨fun v => ?_, hlen⟩
    rw [hlen]
    exact forall_foldl_update (P := fun it => it.cur.pageNo < st.pages.length + 1 + 1) Prod.fst
      (fun it x => { it with cur := ⟨x.1, st.pages.length, x.2⟩, vertexType := .normal })
      (fun _ _ _ => Nat.lt_add_of_pos_right (Nat.zero_lt_two)) vm
      (fun w => lt_succ_of_lt (h w)) v

theorem ReorderState.Located.reorderPart {vs : List VId} (h : st.Located)
    (hp : reorderPart cfg g vs st = .ok st') :
    st'.Located ∧ st.pages.length ≤ st'.pages.length := by
  induction vs generalizing st with
  | nil =>
    rw [BwGraph.reorderPart] at hp
    split at hp
    · cases hp
      exact ⟨h, Nat.le_refl _⟩
    · obtain ⟨h1, h2⟩ := h.flush hp
      exact ⟨h1, h2 ▸ le_succ _⟩
  | cons v vs ih =>
    rw [BwGraph.reorderPart] at hp
    have hbuilder : ∀ {st1 : ReorderState} (builder : CsrPageBuilder), st1.Located →
        BwGraph.reorderPart cfg g vs { st1 with builder := builder } = .ok st' →
        st'.Located ∧ st1.pages.length ≤ st'.pages.length :=
      fun {st1} builder h1 h2 => @ih { st1 with builder := builder } h1 h2
    split at hp
    · cases hp
    · exact hbuilder _ h hp
    · split at hp
      · cases hp
      · rename_i st1 hflush
        obtain ⟨h1, h2⟩ := h.flush hflush
        split at hp
        · cases hp
        · cases hp
        · obtain ⟨h3, h4⟩ := hbuilder _ h1 hp
          exact ⟨h3, Nat.le_trans (h2 ▸ le_succ _) h4⟩

/-- The pages of the groups have consecutive numbers. -/
structure Grouped (st st' : ReorderState) (groups : List (List LeafPage)) : Prop where
  located : st'.Located
  le : st.pages.length ≤ st'.pages.length
  nos : groups.flatten.map LeafPage.pageNo =
    List.range' st.pages.length (st'.pages.length - st.pages.length)

theorem reorderParts_grouped (hl : st.Located) (h : reorderParts cfg g parts st = .ok (st', groups)) :
    Grouped st st' groups ∧ groups.length = parts.length := by
  induction parts generalizing st groups with
  | nil =>
    cases h
    exact ⟨⟨hl, Nat.le_refl _, by rw [Nat.sub_self]; rfl⟩, rfl⟩
  | cons part parts ih =>
    rw [reorderParts] at h
    split at h
    · cases h
    · rename_i st1 hpart
      obtain ⟨hl1, hle⟩ := hl.reorderPart hpart
      split at h
      · cases h
      · rename_i groups' hrest
        cases h
        obtain ⟨hg, hlen⟩ := ih hl1 hrest
        refine ⟨⟨hg.located, Nat.le_trans hle hg.le, ?_⟩, by rw [length_cons, hlen]; rfl⟩
        have hle' := hg.le
        have hsum : st.pages.length + (st1.pages.length - st.pages.length) = st1.pages.length := by
          omega
        have hsub : st1.pages.length - st.pages.length + (st'.pages.length - st1.pages.length) =
            st'.pages.length - st.pages.length := by omega
        have happ : List.range' st.pages.length (st1.pages.length - st.pages.length) ++
            List.range' (st.pages.length + (st1.pages.length - st.pages.length))
              (st'.pages.length - st1.pages.length) = _ := range'_append_1
        rw [hsum, hsub] at happ
        rw [flatten_cons, map_append, pageNos_leavesFrom, hg.nos, length_drop, happ]

theorem length_levels_pos {s : TatState}
    (h : buildTree tenv wiring rootWiring fuel s = some (.ok r)) : 0 < r.levels.flatten.length := by
  unfold buildTree at h
  split at h
  · cases h
  · cases h
  · obtain ⟨root, -, h⟩ := bind_eq_ok.1 (Option.some.inj h)
    obtain ⟨s1, -, h⟩ := bind_eq_ok.1 h
    cases h
    rw [flatten_append, length_append]
    exact succ_pos _

/-- What the small trees and the root of a tree over them need of the numbers. -/
theorem numbered_of_handedOut {start : PageNo} {t : TatTree} (hn : 0 < tenv.cfg.maxBlockNeighbor)
    (hs : start < 2 ^ 32) (h : buildHierarchicalTat tenv nbrs loc fuel groups start = some (.ok t))
    (hindex : (t.trees.flatMap fun r => r.levels.flatten).length + t.top.levels.flatten.length +
      groups.length < 2 ^ 32) :
    ∀ strata, ForestLevels tenv false nbrs loc start groups strata →
      (stackNumbers strata.flatten).length + strata.length + 1 < 2 ^ 32 := by
  intro strata hl
  obtain ⟨f, r, hf, hr, rfl⟩ := buildHierarchicalTat_ok h
  obtain ⟨strata', hl', hb⟩ := buildForest_levels hn hs hf
  have heq : strata' = strata := hl.eq hl'
  subst heq
  have hpos := length_levels_pos hr
  have hlevels : f.trees.map TatResult.levels = strata'.map (List.map Level.numbers) := hb.levels
  have hnum : (f.trees.flatMap fun r => r.levels.flatten) = stackNumbers strata'.flatten := by
    calc (f.trees.flatMap fun r => r.levels.flatten)
      _ = (f.trees.map TatResult.levels).flatMap List.flatten := (flatMap_map ..).symm
      _ = strata'.flatMap fun stack => (stack.map Level.numbers).flatten := by
        rw [hlevels, flatMap_map]
      _ = strata'.flatMap stackNumbers :=
        flatMap_congr fun stack _ => (numbers_flatten stack).symm
      _ = stackNumbers strata'.flatten := (stackNumbers_flatten strata').symm
  have hlen : strata'.length ≤ groups.length := by
    rw [hl.length_eq]
    exact length_filter_le _ _
  dsimp only at hindex
  rw [hnum] at hindex
  omega

/-- A tree that is numbered from the top of the 32-bit numbers does not reach the number 0. -/
theorem TatBuilt.zero_notMem {strata : List (List Level)} {top : List Level} {t : TatTree}
    (h : TatBuilt tenv nbrs loc (2 ^ 32 - 1) groups strata top t)
    (h32 : (stackNumbers strata.flatten).length + strata.length + 1 < 2 ^ 32) :
    0 ∉ t.indexPages := by
  intro hz
  have hno : 0 ∈ stackNumbers (strata.flatten ++ top) := h.grows.mem_iff.1 hz
  have hlen := h.above.length_over_roots
  rw [length_map] at hlen
  rw [stackNumbers_append, h.forest.numbers (by decide), h.above.numbers (pageNoSub_lt _ _),
    ← numbersFrom_add] at hno
  obtain ⟨i, hi, heq⟩ := mem_map.1 hno
  have hlt : i < 2 ^ 32 - 1 := Nat.lt_of_lt_of_le (mem_range.1 hi) (by omega)
  exact Nat.ne_of_lt hlt (pageNoSub_inj (Nat.lt_trans hlt (by decide)) (by decide)
    (heq.trans (by decide : (0 : Nat) = pageNoSub (2 ^ 32 - 1) (2 ^ 32 - 1))))

theorem fresh_buildReorderTatDb (h : buildReorderTatDb cfg benv tenv fuel g parts = some (.ok s))
    (hpages : s.live.length < 2 ^ 32) (hindex : s.tree.handedOut + parts.length < 2 ^ 32) :
    s.Fresh tenv.cfg := by
  unfold buildReorderTatDb at h
  split at h
  · cases h
  · rename_i st groups hparts
    split at h
    · cases h
    · cases h
    · rename_i t ht
      cases h
      obtain ⟨hgr, hlen⟩ := reorderParts_grouped (fun _ => Nat.zero_lt_one) hparts
      have hnos : groups.flatten.map LeafPage.pageNo = List.range st.pages.length := by
        rw [range_eq_range']
        exact hgr.nos
      dsimp only at hpages hindex
      rw [hnos, length_range] at hpages
      by_cases hp : groups.flatten = []
      · obtain ⟨f, r, hf, hr, rfl⟩ := buildHierarchicalTat_ok ht
        rw [buildForest_empty (flatten_eq_nil_iff.1 hp)] at hf
        cases hf
        obtain ⟨hroot, root, hmap, hblocks⟩ :=
          buildTree_empty (fun parentOf s hl _ => rootsWiring_nil hl) hr
        exact TatDb.Fresh.of_empty (by rw [hp]; rfl) hmap hroot hblocks
      · have hpos : 0 < st.pages.length := by
          rw [← length_range (n := st.pages.length), ← hnos, length_map]
          exact length_pos_iff.2 hp
        have hn : 0 < tenv.cfg.maxBlockNeighbor := Nat.pos_of_ne_zero fun hz =>
          hp (flatten_eq_nil_iff.2 (buildHierarchicalTat_zero hz ht))
        have h32 := numbered_of_handedOut hn (by decide) ht (hlen ▸ hindex)
        have hnum : Numbered tenv g.neighbors (fun v => (st.items v).cur.pageNo) (2 ^ 32 - 1)
          groups := fun strata hl => lt_of_succ_lt (h32 strata hl)
        obtain ⟨strata, top, hb⟩ := buildHierarchicalTat_levels hn (by decide) hnum ht
        have hnosOk : PageNos (fun v => (st.items v).cur.pageNo) groups := by
          refine ⟨fun pages hpg p hpp => ?_, fun v => ?_⟩
          · have hm : p.pageNo ∈ List.range st.pages.length :=
              hnos ▸ mem_map.2 ⟨p, mem_flatten.2 ⟨pages, hpg, hpp⟩, rfl⟩
            exact Nat.lt_trans (mem_range.1 hm) hpages
          · exact Nat.lt_of_lt_of_le (hgr.located v) hpages
        have hview := hb.view (by decide) hnum hnosOk
        refine ⟨fun hl => absurd (map_eq_nil_iff.1 hl) hp, fun _ => ?_, fun _ hz => ?_⟩
        · have hmem : 0 ∈ leafNos groups := by
            rw [leafNos, hnos]
            exact mem_range.2 hpos
          obtain ⟨no, hno, hlists⟩ := hb.exists_leaf hview hmem
          exact mem_flatMap.2 ⟨no, hno, TatIndex.mem_blocks.2 hlists⟩
        · obtain ⟨p, hp, -⟩ := TatIndex.mem_blocks.1 hz
          exact hb.zero_notMem (h32 strata hb.forest) (lookup_isSome.1 (by rw [hp]; rfl))

theorem TatDb.Built.fresh (h : s.Built cfg tenv) : s.Fresh tenv.cfg := by
  cases h with
  | standard h hpages hindex => exact fresh_buildLeveledDb h hpages hindex
  | reorder h hpages hindex => exact fresh_buildReorderTatDb h hpages hindex

/-! ## Runs -/

/-- After any run the tree is up to date exactly when there have been no CSR pages to list: none
was built and none is live. -/
theorem upToDate_iff {s s' : TatDb} {es : List DbEvent} (hb : s.Built cfg tenv)
    (hrun : Steps (TatStep cfg tenv) s es s') :
    s'.UpToDate tenv.cfg ↔ s.live = [] ∧ s'.live = [] := by
  obtain ⟨-, hq⟩ := TatStep.quiet_run hb.parents hrun
  have hf := hb.fresh
  constructor
  · intro h
    have hlow := h.lowest
    rw [hq.tree] at hlow
    by_cases hl : s.live = []
    · rw [(hf.none hl).1] at hlow
      exact ⟨hl, hlow.symm.eq_nil⟩
    · -- page 0 would have to be a block of its parent, the index page 0
      have h0 := h.parent 0 (hlow.mem_iff.1 (hf.lowest hl))
      rw [hq.parents, hq.tree] at h0
      exact absurd h0 (hf.zero hl)
  · rintro ⟨hl, hl'⟩
    obtain ⟨hlow, hroot⟩ := hf.none hl
    refine ⟨fun p hp => ?_, ?_, fun no page hno hne => ?_⟩
    · rw [hl'] at hp
      cases hp
    · rw [hq.tree, hlow, hl']
    · rw [hq.tree] at hno hne
      exact absurd (hroot no (AList.lookup_isSome.1 (by rw [hno]; rfl))) hne

/-! ### One page -/

/-- Pages of 120 bytes, with room for one neighbour page. -/
def leafConfig : Config := ⟨120, 120, 1, 50, 1, 0, false⟩

/-- Index pages of four blocks, in parts of two. -/
def leafEnv : TatEnv := { pairsEnv with cfg := ⟨120, 1, 4, 0, by decide, by decide, zero_lt_pageNos⟩ }

/-- Two adjacent vertices. -/
def leafGraphPair : MemGraph := .ofLists [[1], [0]] (by decide)

/-- They are built onto one page, under index page 1. -/
def leafBuild : Option TatDb :=
  (buildLeveledDb leafConfig ⟨.listed, 8, 8⟩ leafEnv 2 leafGraphPair [[0, 1]]).bind Except.toOption

/-- The built database. -/
def leafDb : TatDb := leafBuild.getD
  ⟨loadedDb leafConfig ⟨.listed, 8, 8⟩ leafGraphPair [] VItem.init [], ⟨∅, 0, 0, [], 0⟩, false,
    fun _ => 0, []⟩

theorem leafDb_built : leafDb.Built leafConfig leafEnv := by
  have hsome : leafBuild.isSome = true := by decide +kernel
  obtain ⟨s, hs⟩ := Option.isSome_iff_exists.1 hsome
  have hdb : leafDb = s := by rw [leafDb, hs, Option.getD_some]
  obtain ⟨r, hr, hok⟩ := Option.bind_eq_some_iff.1 hs
  cases r with
  | error e => cases hok
  | ok s' =>
    cases hok
    exact .standard (hdb ▸ hr) (by decide +kernel) (by decide +kernel)

/-- The CSR page comes back from the file without its parent. -/
theorem upToDate_leafDb : ¬ ∀ (cfg : Config) (tenv : TatEnv) (s s' : TatDb) (es : List DbEvent),
    s.Built cfg tenv → Steps (TatStep cfg tenv) s es s' → s'.UpToDate tenv.cfg := by
  intro h
  have hup := h leafConfig leafEnv leafDb leafDb [] leafDb_built .nil
  exact absurd (hup.parent 0 (by decide +kernel)) (by decide +kernel)

/-- An edge is inserted. -/
def leafWritten : TatDb :=
  { leafDb with db := (insertEdge leafConfig 0 0 0 leafDb.db).state }

/-- The page is consolidated. -/
def leafMerged : TatDb := (consolidatePagesIndexed leafConfig leafEnv .smooth 0 leafWritten).state

theorem steps_leafMerged : Steps (TatStep leafConfig leafEnv) leafDb
    [.insertEdge 0 0 0, .consolidate 0 .smooth] leafMerged := by
  have hw : insertEdge leafConfig 0 0 0 leafDb.db = .ok true leafWritten.db :=
    EStateM.Result.eq_ok_of_value? (by decide +kernel)
  have hm : consolidatePagesIndexed leafConfig leafEnv .smooth 0 leafWritten =
      .ok .published leafMerged := EStateM.Result.eq_ok_of_value? (by decide +kernel)
  exact .cons (.call (fun _ _ he => by cases he) (.insertEdge hw)) (.cons (.consolidate hm) .nil)

/-- Index page 1 still lists page 0 when page 1 has taken its place. -/
theorem upToDate_iff_leafMerged : leafDb.Built leafConfig leafEnv ∧
    Steps (TatStep leafConfig leafEnv) leafDb [.insertEdge 0 0 0, .consolidate 0 .smooth]
      leafMerged ∧
    leafMerged.live = [1] ∧ leafMerged.tree.blocks leafEnv.cfg 1 = [0] ∧
    (leafMerged.UpToDate leafEnv.cfg ↔ leafDb.live = [] ∧ leafMerged.live = []) :=
  ⟨leafDb_built, steps_leafMerged, by decide +kernel, by decide +kernel,
    upToDate_iff leafDb_built steps_leafMerged⟩

end BwGraph
