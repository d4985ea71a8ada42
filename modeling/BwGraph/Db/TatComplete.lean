import BwGraph.Db.TatTree

/-
  When the finished index tree is complete. The construction ends with a tree in which every CSR
  page is a block of exactly one level-1 page and every page is reached from the root exactly when
  (`TatReady`) index pages have room for neighbour pages, no edge leads from the pages of one group
  to those of another, every part on every level of a small tree fits an index page and has an edge
  to another part, and the roots of the small trees fit one index page.
-/

namespace BwGraph

open List AList BlockAdjMap

variable {env : TatEnv} {nbrs : VId → List VId} {loc : VId → PageNo} {start : PageNo}
  {groups : List (List LeafPage)} {strata : List (List Level)} {top : List Level} {t : TatTree}
  {stack : List Level}

/-! ## Level-1 pages and the pages above -/

/-- The level-1 pages of the small trees. -/
def bottoms (strata : List (List Level)) : Level := strata.flatMap fun stack => stack.headD []

/-- The other pages of the small trees. -/
def uppers (strata : List (List Level)) : Level := strata.flatMap fun stack => stack.tail.flatten

theorem flatten_perm (strata : List (List Level)) :
    strata.flatten.flatten.Perm (bottoms strata ++ uppers strata) := by
  have hsplit : strata.flatten.flatten =
      strata.flatMap fun stack => stack.headD [] ++ stack.tail.flatten := by
    rw [flatMap_def, flatten_flatten]
    congr 1
    refine map_congr_left fun stack _ => ?_
    cases stack with
    | nil => rfl
    | cons lvl rest => rfl
  rw [hsplit]
  exact (flatMap_append_perm strata _ _).symm

variable {e : PageNo × List PageNo} {no : PageNo} {tight : Bool}

theorem mem_uppers :
    e ∈ uppers strata ↔ ∃ stack ∈ strata, e ∈ stack.tail.flatten := mem_flatMap

theorem mem_bottoms : e ∈ bottoms strata ↔ ∃ stack ∈ strata, e ∈ stack.headD [] := mem_flatMap

theorem stackNumbers_flatten (strata : List (List Level)) :
    stackNumbers strata.flatten = strata.flatMap stackNumbers := by
  rw [stackNumbers, flatten_flatten, map_flatten, map_map, flatMap_def]
  rfl

theorem mem_stackNumbers_flatten :
    no ∈ stackNumbers strata.flatten ↔ ∃ stack ∈ strata, no ∈ stackNumbers stack := by
  rw [stackNumbers_flatten, mem_flatMap]

theorem length_stackNumbers_le (hst : stack ∈ strata) :
    (stackNumbers stack).length ≤ (stackNumbers strata.flatten).length := by
  rw [stackNumbers_flatten, flatMap_def]
  exact (sublist_flatten_of_mem (mem_map.2 ⟨stack, hst, rfl⟩)).length_le

/-- Where the images are disjoint, an element is in one of them. -/
theorem eq_of_nodup_flatMap {α β : Type} {l : List α} {f : α → List β} (h : (l.flatMap f).Nodup)
    {a b : α} (ha : a ∈ l) (hb : b ∈ l) {x : β} (hxa : x ∈ f a) (hxb : x ∈ f b) : a = b := by
  have hsymm : Std.Symm (Function.onFun List.Disjoint f) := ⟨fun _ _ hd _ h1 h2 => hd h2 h1⟩
  by_contra hne
  exact (nodup_flatMap.1 h).2.forall ha hb hne hxa hxb

theorem TatView.nodup_perm (h : TatView env.cfg strata top t) :
    (((bottoms strata).numbers ++ (uppers strata).numbers) ++ stackNumbers top).Nodup := by
  have hperm : (stackNumbers (strata.flatten ++ top)).Perm
      (((bottoms strata).numbers ++ (uppers strata).numbers) ++ stackNumbers top) := by
    rw [stackNumbers_append]
    refine List.Perm.append_right _ ?_
    have h1 := (flatten_perm strata).map Prod.fst
    rw [map_append] at h1
    exact h1
  exact hperm.nodup_iff.1 h.nodup

section

variable (h : TatBuilt env nbrs loc start groups strata top t)
include h

theorem TatBuilt.level1_eq_numbers : t.level1 = (bottoms strata).numbers := by
  rw [h.level1, bottoms, Level.numbers, map_flatMap]
  rfl

/-- A page of the small trees above the bottom, or of the tree over the roots, is no level-1
page. -/
theorem TatBuilt.notMem_level1 (hv : TatView env.cfg strata top t)
    (hno : no ∈ (uppers strata).numbers ∨ no ∈ stackNumbers top) : no ∉ t.level1 := by
  rw [h.level1_eq_numbers]
  intro hin
  have hnd := hv.nodup_perm
  rw [append_assoc, nodup_append] at hnd
  exact hnd.2.2 no hin no (mem_append.2 hno) rfl

end

/-- Pages of the same number are the same. -/
theorem TatView.entry_eq (h : TatView env.cfg strata top t) {e e' : PageNo × List PageNo}
    (he : e ∈ (strata.flatten ++ top).flatten) (he' : e' ∈ (strata.flatten ++ top).flatten)
    (hno : e.1 = e'.1) : e = e' :=
  inj_on_of_nodup_map h.nodup he he' hno

/-- A number is used by one small tree. -/
theorem stack_eq (hnd : (stackNumbers strata.flatten).Nodup) {a b : List Level} (ha : a ∈ strata)
    (hb : b ∈ strata) (hna : no ∈ stackNumbers a) (hnb : no ∈ stackNumbers b) : a = b := by
  rw [stackNumbers_flatten] at hnd
  exact eq_of_nodup_flatMap hnd ha hb hna hnb

/-! ## Reachable pages -/

theorem mem_forest (he : e ∈ strata.flatten.flatten) : e ∈ (strata.flatten ++ top).flatten := by
  rw [flatten_append]
  exact mem_append_left _ he

theorem mem_strata_flatten : e ∈ strata.flatten.flatten ↔ ∃ stack ∈ strata, e ∈ stack.flatten := by
  rw [flatten_flatten, mem_flatten]
  constructor
  · rintro ⟨l, hl, he⟩
    obtain ⟨stack, hst, rfl⟩ := mem_map.1 hl
    exact ⟨stack, hst, he⟩
  · rintro ⟨stack, hst, he⟩
    exact ⟨_, mem_map.2 ⟨stack, hst, rfl⟩, he⟩

section

variable (h : TatBuilt env nbrs loc start groups strata top t) (hv : TatView env.cfg strata top t)
include h hv

/-- Tight small trees under one root are reached. -/
theorem TatBuilt.reaches (h32 : Numbered env nbrs loc start groups)
    (hforest : ForestLevels env true nbrs loc start groups strata)
    (hroots : strata.length ≤ env.cfg.maxBlocks) : ∀ no ∈ t.indexPages, t.Reaches env.cfg no := by
  rcases h.above.over_roots with ⟨htop, -⟩ | ⟨no, -, hmany⟩
  · have hroot : t.root = pageNoSub start (stackNumbers strata.flatten).length := by
      rw [h.root, htop]
      rfl
    have hroottop : t.root ∈ stackNumbers top := by
      rw [htop, hroot]
      exact mem_cons_self
    have hfrom : ∀ stack ∈ strata, ∀ no ∈ stackNumbers stack, t.Reaches env.cfg no := by
      intro stack hst
      obtain ⟨start', pages, -, hl⟩ := hforest.of_mem hst
      have hlen : (stackNumbers stack).length ≤ 2 ^ 32 := by
        have hle := length_stackNumbers_le hst
        have hlt := h32 strata h.forest
        omega
      refine hl.descend (closed_leafGraph _ _ _) hlen (fun lvl hlvl no hno => ?_)
        fun e he hr b hb => ?_
      · obtain ⟨below, r, bs, rfl⟩ := hl.top
        rw [getLast?_concat] at hlvl
        cases hlvl
        rw [Level.numbers, map_singleton, mem_singleton] at hno
        subst hno
        -- the root lists the roots of the small trees
        refine Relation.ReflTransGen.single ⟨h.notMem_level1 hv (.inr hroottop), ?_⟩
        rw [hv.lists]
        refine ⟨(t.root, env.ho.order (reserve ∅ (strata.map topNumber)).keys), ?_, rfl,
          (env.ho.perm _).mem_iff.2 (mem_reserve_empty.2 (mem_map.2 ⟨_, hst, ?_⟩))⟩
        · rw [flatten_append, htop, hroot]
          exact mem_append_right _ mem_cons_self
        · rw [topNumber, getLastD_concat]
          rfl
      · refine hr.tail ⟨h.notMem_level1 hv (.inl ?_), (hv.lists _ _).2 ⟨e, mem_forest ?_, rfl, hb⟩⟩
        · exact mem_map.2 ⟨e, mem_uppers.2 ⟨stack, hst, he⟩, rfl⟩
        · exact mem_strata_flatten.2 ⟨stack, hst, mem_flatten_levels.2 (.inr he)⟩
    intro no hno
    rw [hv.keys, stackNumbers_append, mem_append] at hno
    rcases hno with hno | hno
    · obtain ⟨stack, hst, hno⟩ := mem_stackNumbers_flatten.1 hno
      exact hfrom stack hst no hno
    · rw [htop] at hno
      have heq : no = t.root := by
        rw [hroot]
        exact mem_singleton.1 hno
      subst heq
      exact .refl
  · have hle := length_reserve_le (strata.map topNumber)
    rw [length_map] at hle
    omega

/-- When every index page is reached, the roots of the small trees are on one page. -/
theorem TatBuilt.top_eq (hreach : ∀ no ∈ t.indexPages, t.Reaches env.cfg no) :
    top = [[(t.root, env.ho.order (reserve ∅ (strata.map topNumber)).keys)]] ∧
      (reserve ∅ (strata.map topNumber)).keys.length ≤ env.cfg.maxBlocks := by
  rcases h.above.over_roots with ⟨htop, hfit⟩ | ⟨no, htop, hmany⟩
  · refine ⟨?_, hfit⟩
    rw [h.root, htop]
    rfl
  · -- the root has no blocks, so that nothing else is reached
    exfalso
    have hroot : t.root = no := by
      rw [h.root, htop]
      rfl
    have hparts : env.parts (reserve ∅ (strata.map topNumber)) ≠ [] := by
      intro hnil
      have hlen := (env.partitioner.cover (reserve ∅ (strata.map topNumber))
        env.targetSize).length_eq
      rw [show env.partitioner.parts _ _ = [] from hnil, flatten_nil, length_nil] at hlen
      omega
    have hnum : pageNoSub start (stackNumbers strata.flatten).length ∈ stackNumbers top := by
      rw [htop, stackNumbers_cons, numbers_levelOf, mem_append]
      refine .inl (mem_map.2 ⟨0, mem_range.2 (length_pos_iff.2 hparts), ?_⟩)
      exact pageNoSub_zero (pageNoSub_lt _ _)
    have hne : pageNoSub start (stackNumbers strata.flatten).length ≠ no := by
      intro heq
      have hnd := hv.nodup
      rw [stackNumbers_append, nodup_append, htop, stackNumbers_cons, nodup_append] at hnd
      refine hnd.2.1.2.2 no ?_ no mem_cons_self rfl
      rw [numbers_levelOf, ← heq]
      refine mem_map.2 ⟨0, mem_range.2 (length_pos_iff.2 hparts), ?_⟩
      exact pageNoSub_zero (pageNoSub_lt _ _)
    have hr := hreach _ ((hv.keys _).2 (by
      rw [stackNumbers_append]
      exact mem_append_right _ hnum))
    rcases Relation.ReflTransGen.cases_head hr with heq | ⟨b, hb, -⟩
    · exact hne (heq.symm.trans hroot)
    · obtain ⟨e, he, hno, hbe⟩ := (hv.lists _ _).1 hb.2
      have hin : ((no, []) : PageNo × List PageNo) ∈ (strata.flatten ++ top).flatten := by
        rw [flatten_append, htop]
        exact mem_append_right _ (mem_append_right _ mem_cons_self)
      have heq := hv.entry_eq he hin (hno.trans hroot)
      rw [heq] at hbe
      cases hbe

end

theorem mem_stackNumbers_of_dropLast (h : no ∈ stackNumbers stack.dropLast) :
    no ∈ stackNumbers stack := by
  obtain ⟨e, he, rfl⟩ := mem_map.1 h
  obtain ⟨lvl, hlvl, he⟩ := mem_flatten.1 he
  exact mem_map.2 ⟨e, mem_flatten.2 ⟨lvl, dropLast_subset _ hlvl, he⟩, rfl⟩

/-- The number of the root is not used below. -/
theorem Levels.topNumber_notMem {graph : BlockAdjMap} (h : Levels env tight start graph stack)
    (hnd : (stackNumbers stack).Nodup) : topNumber stack ∉ stackNumbers stack.dropLast := by
  obtain ⟨below, no, bs, rfl⟩ := h.top
  rw [stackNumbers_append, nodup_append] at hnd
  rw [topNumber, getLastD_concat, dropLast_concat]
  exact fun hin => hnd.2.2 no hin no mem_cons_self rfl

/-- When every index page is reached, a page of a small tree below its root is a block of a page
of the same tree. -/
theorem TatBuilt.listed (h : TatBuilt env nbrs loc start groups strata top t)
    (hv : TatView env.cfg strata top t) (hreach : ∀ no ∈ t.indexPages, t.Reaches env.cfg no)
    (hst : stack ∈ strata) (hno : no ∈ stackNumbers stack.dropLast) :
    ∃ e ∈ stack.tail.flatten, no ∈ e.2 := by
  obtain ⟨htop, -⟩ := h.top_eq hv hreach
  have hin := mem_stackNumbers_of_dropLast hno
  have hforest : no ∈ stackNumbers strata.flatten := mem_stackNumbers_flatten.2 ⟨stack, hst, hin⟩
  have hnd := hv.nodup
  rw [stackNumbers_append, nodup_append] at hnd
  have hr := hreach no ((hv.keys no).2 (by
    rw [stackNumbers_append]
    exact mem_append_left _ hforest))
  rcases Relation.ReflTransGen.cases_tail hr with heq | ⟨c, -, hc⟩
  · refine absurd rfl (hnd.2.2 no hforest no ?_)
    rw [htop, heq]
    exact mem_cons_self
  · obtain ⟨e, he, rfl, hb⟩ := (hv.lists _ _).1 hc.2
    rw [flatten_append, mem_append] at he
    rcases he with he | he
    · obtain ⟨stack', hst', he⟩ := mem_strata_flatten.1 he
      obtain ⟨start', pages, -, hl⟩ := h.forest.of_mem hst'
      rcases mem_flatten_levels.1 he with hh | ht
      · -- level-1 pages have no index pages as blocks
        refine absurd ?_ hc.1
        rw [h.level1_eq_numbers]
        exact mem_map.2 ⟨e, mem_bottoms.2 ⟨stack', hst', hh⟩, rfl⟩
      · have hsame := mem_stackNumbers_of_dropLast (hl.above (closed_leafGraph _ _ _) ht hb)
        have heq := stack_eq hnd.1 hst' hst hsame hin
        subst heq
        exact ⟨e, ht, hb⟩
    · rw [htop] at he
      rw [flatten_singleton, mem_singleton] at he
      subst he
      obtain ⟨stack', hst', heq⟩ :=
        mem_map.1 (mem_reserve_empty.1 ((env.ho.perm _).mem_iff.1 hb))
      obtain ⟨start', pages, -, hl⟩ := h.forest.of_mem hst'
      have hst2 := stack_eq hnd.1 hst' hst (heq ▸ topNumber_mem hl) hin
      subst hst2
      have hnd' : (stackNumbers stack').Nodup := by
        have hall := hnd.1
        rw [stackNumbers_flatten, nodup_flatMap] at hall
        exact hall.1 stack' hst
      exact absurd (heq ▸ hno) (hl.topNumber_notMem hnd')

theorem ForestLevels.tight_of_listed (h : ForestLevels env tight nbrs loc start groups strata)
    (hs : start < 2 ^ 32) (h32 : (stackNumbers strata.flatten).length ≤ 2 ^ 32)
    (hlisted : ∀ stack ∈ strata, ∀ no ∈ stackNumbers stack.dropLast,
      ∃ e ∈ stack.tail.flatten, no ∈ e.2) : ForestLevels env true nbrs loc start groups strata := by
  induction h with
  | nil => exact .nil
  | skip _ ih => exact .skip (ih hs h32 hlisted)
  | tree hne h _ ih =>
    rw [flatten_cons, stackNumbers_append, length_append] at h32
    rw [forall_mem_cons] at hlisted
    refine .tree hne (h.tight_of_listed (closed_leafGraph _ _ _) hs ?_ hlisted.1)
      (ih (pageNoSub_lt _ _) ?_ hlisted.2)
    · exact Nat.le_trans (Nat.le_add_right _ _) h32
    · exact Nat.le_trans (Nat.le_add_left _ _) h32

/-! ## The blocks of level-1 pages -/

/-- The numbers of all CSR pages. -/
def leafNos (groups : List (List LeafPage)) : List PageNo := groups.flatten.map LeafPage.pageNo

/-- Edges between CSR pages of the tree stay within a group. -/
def Isolated (nbrs : VId → List VId) (loc : VId → PageNo) (groups : List (List LeafPage)) : Prop :=
  ∀ pages ∈ groups, ∀ p ∈ pages, ∀ e ∈ p.links nbrs loc,
    e.2 ∈ leafNos groups → e.2 ∈ pages.map LeafPage.pageNo

theorem leafNos_eq (groups : List (List LeafPage)) :
    leafNos groups = groups.flatMap fun pages => pages.map LeafPage.pageNo := by
  rw [leafNos, map_flatten, flatMap_def]

theorem ForestLevels.bottoms_perm (h : ForestLevels env tight nbrs loc start groups strata) :
    ((bottoms strata).flatMap Prod.snd).Perm
      (groups.flatMap fun pages => (leafGraph nbrs loc pages).keys) := by
  induction h with
  | nil => exact List.Perm.refl _
  | skip _ ih => exact ih
  | tree _ h _ ih =>
    rw [bottoms, flatMap_cons, flatMap_append, flatMap_cons]
    exact h.bottom.append ih

theorem nodup_leafGraph_groups_iff (hnd : (leafNos groups).Nodup) :
    (groups.flatMap fun pages => (leafGraph nbrs loc pages).keys.filter fun k =>
      decide (k ∈ leafNos groups)).Nodup ↔ Isolated nbrs loc groups := by
  rw [leafNos_eq] at hnd
  constructor
  · intro h pages hpages p hp e he hin
    have hin' := hin
    rw [leafNos_eq] at hin'
    obtain ⟨pages', hpages', hin'⟩ := mem_flatMap.1 hin'
    have hsame : pages = pages' := by
      refine eq_of_nodup_flatMap h hpages hpages' (x := e.2) ?_ ?_
      · exact mem_filter.2 ⟨mem_leafGraph.2 (.inr ⟨p, hp, e, he, rfl⟩), by simpa using hin⟩
      · exact mem_filter.2 ⟨mem_leafGraph.2 (.inl hin'), by simpa using hin⟩
    rw [hsame]
    exact hin'
  · intro h
    have hown : ∀ pages ∈ groups, ∀ k ∈ (leafGraph nbrs loc pages).keys.filter fun k =>
        decide (k ∈ leafNos groups), k ∈ pages.map LeafPage.pageNo := by
      intro pages hpages k hk
      obtain ⟨hk, hin⟩ := mem_filter.1 hk
      rcases mem_leafGraph.1 hk with hk | ⟨p, hp, e, he, rfl⟩
      · exact hk
      · exact h pages hpages p hp e he (by simpa using hin)
    refine nodup_flatMap.2 ⟨fun pages _ => (keys_nodup _).filter _, ?_⟩
    refine (nodup_flatMap.1 hnd).2.imp_of_mem fun ha hb hd k hka hkb => ?_
    exact hd (hown _ ha k hka) (hown _ hb k hkb)

section

variable (h : TatBuilt env nbrs loc start groups strata top t) (hv : TatView env.cfg strata top t)
include h hv

/-- Every CSR page is a block of some level-1 page. -/
theorem TatBuilt.exists_leaf {k : PageNo} (hk : k ∈ leafNos groups) :
    ∃ no ∈ t.level1, t.Lists env.cfg no k := by
  rw [leafNos_eq] at hk
  obtain ⟨pages, hpages, hk⟩ := mem_flatMap.1 hk
  have hmem : k ∈ groups.flatMap fun pages => (leafGraph nbrs loc pages).keys :=
    mem_flatMap.2 ⟨pages, hpages, mem_leafGraph.2 (.inl hk)⟩
  obtain ⟨e, he, hb⟩ := mem_flatMap.1 (h.forest.bottoms_perm.mem_iff.2 hmem)
  refine ⟨e.1, ?_, (hv.lists _ _).2 ⟨e, mem_forest ?_, rfl, hb⟩⟩
  · rw [h.level1_eq_numbers]
    exact mem_map.2 ⟨e, he, rfl⟩
  · exact (flatten_perm strata).mem_iff.2 (mem_append_left _ he)

theorem TatBuilt.level1_lists {no k : PageNo} :
    no ∈ t.level1 ∧ t.Lists env.cfg no k ↔ ∃ e ∈ bottoms strata, e.1 = no ∧ k ∈ e.2 := by
  have hmem : ∀ e ∈ bottoms strata, e ∈ (strata.flatten ++ top).flatten := fun e he =>
    mem_forest ((flatten_perm strata).mem_iff.2 (mem_append_left _ he))
  rw [h.level1_eq_numbers, hv.lists]
  constructor
  · rintro ⟨hno, e, he, rfl, hk⟩
    obtain ⟨e', he', heq⟩ := mem_map.1 hno
    have hsame := hv.entry_eq (hmem e' he') he heq
    exact ⟨e, hsame ▸ he', rfl, hk⟩
  · rintro ⟨e, he, rfl, hk⟩
    exact ⟨mem_map.2 ⟨e, he, rfl⟩, e, hmem e he, rfl, hk⟩

end

theorem ForestLevels.nodup_blocks (h : ForestLevels env tight nbrs loc start groups strata)
    (he : e ∈ bottoms strata) : e.2.Nodup := by
  obtain ⟨stack, hst, he⟩ := mem_bottoms.1 he
  obtain ⟨start', pages, -, hl⟩ := h.of_mem hst
  have hnd := hl.bottom.nodup_iff.2 (keys_nodup _)
  exact (nodup_flatMap.1 hnd).1 e he

/-- Every CSR page is a block of one level-1 page exactly when edges stay within the groups. -/
theorem TatBuilt.leaf_iff (h : TatBuilt env nbrs loc start groups strata top t)
    (hv : TatView env.cfg strata top t) (hnd : (leafNos groups).Nodup) :
    (∀ k ∈ leafNos groups, ∃! no, no ∈ t.level1 ∧ t.Lists env.cfg no k) ↔
      Isolated nbrs loc groups := by
  have hperm := h.forest.bottoms_perm.filter fun k => decide (k ∈ leafNos groups)
  rw [filter_flatMap, filter_flatMap] at hperm
  rw [← nodup_leafGraph_groups_iff hnd, ← hperm.nodup_iff]
  constructor
  · intro hone
    refine nodup_flatMap.2 ⟨fun e he => (h.forest.nodup_blocks he).filter _, ?_⟩
    have hnums := hv.nodup_perm
    rw [append_assoc, nodup_append] at hnums
    refine (pairwise_map.1 hnums.1).imp_of_mem fun {a b} ha hb hne k hka hkb => ?_
    obtain ⟨hka, hk⟩ := mem_filter.1 hka
    have hkb := (mem_filter.1 hkb).1
    exact hne ((hone k (by simpa using hk)).unique ((h.level1_lists hv).2 ⟨a, ha, rfl, hka⟩)
      ((h.level1_lists hv).2 ⟨b, hb, rfl, hkb⟩))
  · intro hblocks k hk
    obtain ⟨no, hno, hl⟩ := h.exists_leaf hv hk
    refine ⟨no, ⟨hno, hl⟩, fun no' hno' => ?_⟩
    obtain ⟨e, he, rfl, hke⟩ := (h.level1_lists hv).1 ⟨hno, hl⟩
    obtain ⟨e', he', rfl, hke'⟩ := (h.level1_lists hv).1 hno'
    have hsame : e' = e := eq_of_nodup_flatMap hblocks he' he (x := k)
      (mem_filter.2 ⟨hke', by simpa using hk⟩) (mem_filter.2 ⟨hke, by simpa using hk⟩)
    rw [hsame]

/-! ## Complete trees -/

/-- What the construction needs to end with a complete tree. -/
structure TatReady (env : TatEnv) (nbrs : VId → List VId) (loc : VId → PageNo) (start : PageNo)
    (groups : List (List LeafPage)) : Prop where
  neighbors : groups.flatten ≠ [] → 0 < env.cfg.maxBlockNeighbor
  isolated : Isolated nbrs loc groups
  levels : ∃ strata, ForestLevels env true nbrs loc start groups strata
  roots : (groups.filter (· ≠ [])).length ≤ env.cfg.maxBlocks

section

variable (h : ForestLevels env tight nbrs loc start groups strata)
include h

theorem ForestLevels.length_eq : strata.length = (groups.filter (· ≠ [])).length := by
  induction h with
  | nil => rfl
  | skip _ ih =>
    rw [ih]
    rfl
  | tree hne _ _ ih => rw [filter_cons_of_pos (by simpa using hne), length_cons,
      length_cons, ih]

/-- The roots of the small trees are distinct. -/
theorem nodup_topNumbers (hnd : (stackNumbers strata.flatten).Nodup) :
    (strata.map topNumber).Nodup := by
  induction h with
  | nil => exact nodup_nil
  | skip _ ih => exact ih hnd
  | @tree start pages rest stack strata _ h hrest ih =>
    rw [flatten_cons, stackNumbers_append, nodup_append] at hnd
    rw [map_cons]
    refine nodup_cons.2 ⟨fun hin => ?_, ih hnd.2.1⟩
    obtain ⟨stack', hst', heq⟩ := mem_map.1 hin
    obtain ⟨start', pages', -, hl⟩ := hrest.of_mem hst'
    have hin' := mem_stackNumbers_flatten.2 ⟨stack', hst', topNumber_mem hl⟩
    exact hnd.2.2 _ (topNumber_mem h) _ hin' heq.symm

end

/-- A tree that has been built is complete exactly under the other conditions. -/
theorem TatBuilt.complete_iff (h : TatBuilt env nbrs loc start groups strata top t)
    (hs : start < 2 ^ 32) (h32 : Numbered env nbrs loc start groups) (hp : PageNos loc groups)
    (hnd : (leafNos groups).Nodup) : t.Complete env.cfg (leafNos groups) ↔
      Isolated nbrs loc groups ∧ ForestLevels env true nbrs loc start groups strata ∧
        strata.length ≤ env.cfg.maxBlocks := by
  have hv := h.view hs h32 hp
  constructor
  · intro hc
    have hlt := h32 strata h.forest
    refine ⟨(h.leaf_iff hv hnd).1 hc.leaf, h.forest.tight_of_listed hs (by omega) ?_, ?_⟩
    · exact fun stack hst no hno => h.listed hv hc.index hst hno
    · have hfit := (h.top_eq hv hc.index).2
      rw [length_reserve (nodup_topNumbers h.forest (nodup_forest hs h32 h.forest)),
        length_map] at hfit
      exact hfit
  · rintro ⟨hiso, htight, hroots⟩
    have hreach := h.reaches hv h32 htight hroots
    refine ⟨(h.leaf_iff hv hnd).2 hiso, hreach, fun k hk => ?_⟩
    obtain ⟨no, hno, hl⟩ := h.exists_leaf hv hk
    refine ⟨no, hno, hreach no ?_, hl⟩
    obtain ⟨p, hp, -⟩ := hl
    exact lookup_isSome.1 (by rw [hp]; rfl)

/-- With room for neighbour pages, tight small trees whose roots fit one page are built. -/
theorem buildHierarchicalTat_exists (hn : 0 < env.cfg.maxBlockNeighbor) (hs : start < 2 ^ 32)
    (h32 : Numbered env nbrs loc start groups)
    (h : ForestLevels env true nbrs loc start groups strata)
    (hroots : strata.length ≤ env.cfg.maxBlocks) :
    ∃ fuel t, buildHierarchicalTat env nbrs loc fuel groups start = some (.ok t) := by
  have hlt := h32 strata h.loose
  obtain ⟨fuel, f, hf⟩ := buildForest_of_levels (f := ⟨∅, [], start, []⟩) hn h (by omega) rfl
  obtain ⟨strata', hl, hb⟩ := buildForest_levels hn hs (hf fuel (Nat.le_refl _))
  have heq : strata' = strata := h.eq hl
  subst heq
  have hnd := nodup_forest hs h32 hl
  have hfroots : f.roots = strata'.map topNumber := hb.roots
  have hnone : ∀ r ∈ f.roots, NoNeighbors f.indexPages r := by
    intro r hr
    rw [hfroots] at hr
    obtain ⟨stack, hst, rfl⟩ := mem_map.1 hr
    exact hb.noNeighbors hnd stack hst
  have hfit : (reserve ∅ f.roots).keys.length ≤ env.cfg.maxBlocks := by
    rw [hfroots]
    have hle := length_reserve_le (strata'.map topNumber)
    rw [length_map] at hle
    exact Nat.le_trans hle hroots
  have hin : ∀ r ∈ f.roots, r ∈ f.indexPages := by
    intro r hr
    obtain ⟨p, hp, -⟩ := hnone r hr
    exact lookup_isSome.1 (by rw [hp]; rfl)
  obtain ⟨r, hr⟩ := buildTatFromIndexPages_exists (rootLinks_eq_nil hnone) hin hfit f.nextNo
  refine ⟨max fuel 1, ⟨r.indexPages, r.rootPageNo, f.trees, r⟩, ?_⟩
  rw [buildHierarchicalTat, hf _ (Nat.le_max_left _ _)]
  dsimp only
  rw [hr _ (Nat.le_max_right _ _)]

/-! ### Without CSR pages -/

section

variable (h : ∀ pages ∈ groups, pages = [])
include h

theorem buildForest_empty (fuel : Nat) (f : Forest) :
    buildForest env nbrs loc fuel groups f = some (.ok f) := by
  induction groups with
  | nil => rfl
  | cons pages rest ih =>
    rw [forall_mem_cons] at h
    rw [buildForest, if_pos h.1]
    exact ih h.2

theorem ForestLevels.empty : ForestLevels env true nbrs loc start groups [] := by
  induction groups with
  | nil => exact .nil
  | cons pages rest ih =>
    rw [forall_mem_cons] at h
    rw [h.1]
    exact .skip (ih h.2)

/-- Without CSR pages the tree is one root without blocks. -/
theorem buildHierarchicalTat_empty :
    ∃ t, buildHierarchicalTat env nbrs loc 1 groups start = some (.ok t) ∧
      t.Complete env.cfg [] := by
  have hcreate : ∃ root, IndexPage.create env.cfg env.ho env.fresh start ∅ = .ok root :=
    create_exists (Nat.zero_le _) start
  obtain ⟨root, hroot⟩ := hcreate
  have hbuild : buildTatFromIndexPages env 1 ∅ [] start =
      some (.ok ⟨start, 2, pageNoSub start 1, insert start root ∅, [[start]], []⟩) := by
    have hle : ¬ (TatState.start env ((reserve ∅ []).addEdges []) start ∅
        []).graph.keys.length > env.cfg.maxBlocks := Nat.not_lt_zero _
    have hr : buildRoot env (rootsWiring env [])
        (.start env ((reserve ∅ []).addEdges []) start ∅ []) =
          .ok ⟨start, 2, pageNoSub start 1, insert start root ∅, [[start]], []⟩ :=
      Except.bind_eq_ok.2 ⟨root, hroot, rfl⟩
    unfold buildTatFromIndexPages buildTree
    rw [climb, show rootLinks ∅ [] = [] from rfl, if_neg hle]
    exact congrArg some hr
  refine ⟨⟨insert start root ∅, start, [], ⟨start, 2, pageNoSub start 1,
    insert start root ∅, [[start]], []⟩⟩, ?_, fun p hp => ?_, fun no hno => ?_,
    fun p hp => ?_⟩
  · rw [buildHierarchicalTat, buildForest_empty h]
    dsimp only
    rw [hbuild]
  · cases hp
  · rw [mem_insert] at hno
    rcases hno with rfl | hno
    · exact .refl
    · exact absurd hno (notMem_empty no)
  · cases hp

end

/-! ### With CSR pages -/

theorem buildHierarchicalTat_zero (hn : env.cfg.maxBlockNeighbor = 0) {fuel : Nat}
    (h : buildHierarchicalTat env nbrs loc fuel groups start = some (.ok t)) :
    ∀ pages ∈ groups, pages = [] := by
  obtain ⟨f, r, hf, -⟩ := buildHierarchicalTat_ok h
  exact (buildForest_zero hn hf).2

/-- The construction ends with a complete tree exactly when the groups are ready for it. -/
theorem buildHierarchicalTat_complete_iff (hs : start < 2 ^ 32)
    (h32 : Numbered env nbrs loc start groups) (hp : PageNos loc groups)
    (hnd : (leafNos groups).Nodup) :
    (∃ fuel t, buildHierarchicalTat env nbrs loc fuel groups start = some (.ok t) ∧
      t.Complete env.cfg (leafNos groups)) ↔ TatReady env nbrs loc start groups := by
  by_cases hempty : ∀ pages ∈ groups, pages = []
  · have hflat : groups.flatten = [] := flatten_eq_nil_iff.2 hempty
    have hnos : leafNos groups = [] := by rw [leafNos, hflat, map_nil]
    have hlev : ForestLevels env true nbrs loc start groups [] := .empty hempty
    refine iff_of_true ?_ ⟨fun hne => absurd hflat hne, ?_, ⟨[], hlev⟩, ?_⟩
    · rw [hnos]
      exact ⟨1, buildHierarchicalTat_empty hempty⟩
    · intro pages hpages p hpp
      rw [hempty pages hpages] at hpp
      cases hpp
    · rw [← hlev.length_eq]
      exact Nat.zero_le _
  · have hne : groups.flatten ≠ [] := fun h => hempty (flatten_eq_nil_iff.1 h)
    constructor
    · rintro ⟨fuel, t, ht, hc⟩
      have hn : 0 < env.cfg.maxBlockNeighbor := by
        by_contra hzero
        exact hempty (buildHierarchicalTat_zero (Nat.eq_zero_of_not_pos hzero) ht)
      obtain ⟨strata, top, hb⟩ := buildHierarchicalTat_levels hn hs h32 ht
      obtain ⟨hiso, hlev, hroots⟩ := (hb.complete_iff hs h32 hp hnd).1 hc
      exact ⟨fun _ => hn, hiso, ⟨strata, hlev⟩, by rw [← hlev.length_eq]; exact hroots⟩
    · rintro ⟨hn, hiso, ⟨strata, hlev⟩, hroots⟩
      rw [← hlev.length_eq] at hroots
      obtain ⟨fuel, t, ht⟩ := buildHierarchicalTat_exists (hn hne) hs h32 hlev hroots
      obtain ⟨strata', top, hb⟩ := buildHierarchicalTat_levels (hn hne) hs h32 ht
      have heq : strata' = strata := hlev.eq hb.forest
      subst heq
      exact ⟨fuel, t, ht, (hb.complete_iff hs h32 hp hnd).2 ⟨hiso, hlev, hroots⟩⟩

/-! ### Small trees -/

/-- Blocks two by two. -/
def pairs : List PageNo → List (List PageNo)
  | [] => []
  | [a] => [[a]]
  | a :: b :: rest => [a, b] :: pairs rest

theorem flatten_pairs (l : List PageNo) : (pairs l).flatten = l := by
  fun_induction pairs l with
  | case1 => rfl
  | case2 a => rfl
  | case3 a b rest ih => rw [flatten_cons, ih]; rfl

theorem ne_nil_of_mem_pairs {l part : List PageNo} (h : part ∈ pairs l) : part ≠ [] := by
  fun_induction pairs l with
  | case1 => cases h
  | case2 a =>
    rw [mem_singleton] at h
    exact h ▸ cons_ne_nil _ _
  | case3 a b rest ih =>
    rcases mem_cons.1 h with rfl | h
    · exact cons_ne_nil _ _
    · exact ih h

/-- Index pages of four blocks and one neighbour page, and parts of two blocks. -/
def pairsEnv : TatEnv where
  cfg := ⟨40, 1, 4, 0, by decide, by decide, zero_lt_pageNos⟩
  ho := .listed
  edgeSort := .stable
  fresh := 0
  partitioner := ⟨fun graph _ => pairs graph.keys, fun graph _ => .of_eq (flatten_pairs graph.keys),
    fun _ _ _ h => ne_nil_of_mem_pairs h⟩

/-- Page `n` holds vertex `n`. -/
def onePage (n : PageNo) : LeafPage := ⟨n, [n], 0, 0, []⟩

/-- Vertex `n` is on page `n`, for the pages of the examples. -/
def ownPage (v : VId) : PageNo := v % 8

/-- The vertices 1 to 5 in a row. -/
def rowNbrs (v : VId) : List VId := if v < 5 then [v + 1] else []

/-- Five pages in a row, no pages, and a page of its own. -/
def rowGroups : List (List LeafPage) := [[1, 2, 3, 4, 5].map onePage, [], [onePage 6]]

/-- Their levels, from number 100 down. -/
def rowStacks : List (List Level) :=
  [[[(100, [4, 5]), (99, [2, 3]), (98, [1])], [(97, [99, 98, 100])]], [[(96, [6])]]]

theorem forestLevels_row : ForestLevels pairsEnv true rowNbrs ownPage 100 rowGroups rowStacks := by
  refine .tree (by decide) ?_ (.skip (.tree (by decide) ?_ .nil))
  · have hlinked : ∀ part ∈ pairsEnv.parts (leafGraph rowNbrs ownPage (rowGroups.headD [])),
        PartLinked (leafGraph rowNbrs ownPage (rowGroups.headD [])) part := by
      unfold PartLinked
      decide +kernel
    have hrest : Levels pairsEnv true 97
        (nextGraph pairsEnv (leafGraph rowNbrs ownPage (rowGroups.headD [])) 100)
        [[(97, [99, 98, 100])]] := .root (by decide +kernel)
    exact .level (by decide +kernel) (by decide) (by decide +kernel) (fun _ => hlinked) hrest
  · exact .root (by decide +kernel)

theorem numbered_row : Numbered pairsEnv rowNbrs ownPage 100 rowGroups := by
  intro strata h
  rw [forestLevels_row.eq h]
  decide

/-- Five pages in a row have a complete tree. -/
theorem buildHierarchicalTat_row :
    ∃ fuel t, buildHierarchicalTat pairsEnv rowNbrs ownPage fuel rowGroups 100 = some (.ok t) ∧
      t.Complete pairsEnv.cfg (leafNos rowGroups) := by
  have hnos : PageNos ownPage rowGroups :=
    ⟨by decide +kernel, fun v => Nat.lt_of_lt_of_le (Nat.mod_lt v (by decide)) (by decide)⟩
  refine (buildHierarchicalTat_complete_iff (by decide) numbered_row hnos (by decide +kernel)).2 ?_
  exact ⟨fun _ => by decide, by unfold Isolated; decide +kernel, ⟨rowStacks, forestLevels_row⟩,
    by decide⟩

/-- The same five pages without edges. -/
def looseGroups : List (List LeafPage) := [[1, 2, 3, 4, 5].map onePage]

theorem forestLevels_loose : ForestLevels pairsEnv false (fun _ => []) ownPage 100 looseGroups
    [[[(100, [4, 5]), (99, [2, 3]), (98, [1])], [(97, [])]]] := by
  refine .tree (by decide) ?_ .nil
  have hrest : Levels pairsEnv false 97
      (nextGraph pairsEnv (leafGraph (fun _ => []) ownPage (looseGroups.headD [])) 100)
      [[(97, [])]] := .root (by decide +kernel)
  exact .level (by decide +kernel) (by decide) (by decide +kernel) (fun hf => by cases hf) hrest

/-- No part has an edge to another part, so the root gets no blocks. -/
theorem buildHierarchicalTat_loose :
    ¬ ∀ (env : TatEnv) (nbrs : VId → List VId) (loc : VId → PageNo) (groups : List (List LeafPage))
      (start : PageNo), start < 2 ^ 32 → Numbered env nbrs loc start groups → PageNos loc groups →
      (leafNos groups).Nodup → ∃ fuel t,
        buildHierarchicalTat env nbrs loc fuel groups start = some (.ok t) ∧
          t.Complete env.cfg (leafNos groups) := by
  intro h
  have hnos : PageNos ownPage looseGroups :=
    ⟨by decide +kernel, fun v => Nat.lt_of_lt_of_le (Nat.mod_lt v (by decide)) (by decide)⟩
  have hnum : Numbered pairsEnv (fun _ => []) ownPage 100 looseGroups := by
    intro strata hl
    rw [forestLevels_loose.eq hl]
    decide
  obtain ⟨fuel, t, ht, hc⟩ := h pairsEnv (fun _ => []) ownPage looseGroups 100 (by decide) hnum hnos
    (by decide +kernel)
  obtain ⟨strata, top, hb⟩ := buildHierarchicalTat_levels (by decide) (by decide) hnum ht
  have htight := ((hb.complete_iff (by decide) hnum hnos (by decide +kernel)).1 hc).2.1
  cases htight with
  | tree _ hl _ =>
    cases hl with
    | root hle => exact absurd hle (by decide +kernel)
    | level _ _ _ hlinked _ =>
      have hone := hlinked rfl [1] (by decide +kernel)
      revert hone
      unfold PartLinked
      decide +kernel

end BwGraph
