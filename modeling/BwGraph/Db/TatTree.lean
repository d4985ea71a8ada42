import Mathlib.Logic.Relation
import BwGraph.Db.TatLevels

/-
  The finished index tree. A tree is complete (`TatTree.Complete`) when every CSR page is a block
  of exactly one level-1 page and every page is reached from the root by block links. Over a
  partition of the CSR pages into groups, the construction ends with a complete tree exactly when
  no edge leads from one group to another, the small trees have tight levels, and their roots fit
  one index page (`buildHierarchicalTat_complete_iff`): roots have no neighbour pages, so that a
  second level over them would have no edges at all.
-/

namespace BwGraph

open AList BlockAdjMap

open Except (bind_eq_ok)
open List

variable {env : TatEnv} {graph : BlockAdjMap} {start : PageNo} {stack : List Level}

/-! ## The blocks of the levels of one tree -/

theorem flatMap_levelOf (env : TatEnv) (graph : BlockAdjMap) (start : PageNo) :
    ((levelOf env graph start).flatMap Prod.snd).Perm graph.keys := by
  have hparts : ∀ (parts : List (List PageNo)) (i : Nat), (∀ part ∈ parts, part.Nodup) →
      (((parts.zipIdx i).map fun x => (pageNoSub start x.2,
        env.ho.order (inducedBlockSubgraph graph x.1).keys)).flatMap Prod.snd).Perm
        parts.flatten := by
    intro parts
    induction parts with
    | nil => exact fun _ _ => List.Perm.refl _
    | cons part parts ih =>
      intro i hnd
      rw [zipIdx_cons, map_cons, flatMap_cons, flatten_cons]
      exact ((env.ho.perm _).trans (keys_inducedBlockSubgraph (hnd part mem_cons_self))).append
        (ih (i + 1) fun q hq => hnd q (mem_cons_of_mem _ hq))
  exact (hparts _ 0 fun _ hp => nodup_part hp).trans (env.partitioner.cover graph env.targetSize)

variable {tight : Bool} {e : PageNo × List PageNo}

/-- The blocks of the bottom level are the blocks of the map. -/
theorem Levels.bottom (h : Levels env tight start graph stack) :
    ((stack.headD []).flatMap Prod.snd).Perm graph.keys := by
  cases h with
  | root h =>
    show ([(start, env.ho.order graph.keys)].flatMap Prod.snd).Perm graph.keys
    rw [flatMap_singleton]
    exact env.ho.perm _
  | level _ _ _ _ _ => exact flatMap_levelOf env graph start

theorem mem_flatten_levels {levels : List Level} :
    e ∈ levels.flatten ↔ e ∈ levels.headD [] ∨ e ∈ levels.tail.flatten := by
  cases levels with
  | nil => simp
  | cons lvl rest => simp

section

variable (h : Levels env tight start graph stack) (hc : graph.Closed)
include h hc

/-- The blocks of the other levels are pages of this tree below its root. -/
theorem Levels.above (he : e ∈ stack.tail.flatten) {b : PageNo} (hb : b ∈ e.2) :
    b ∈ stackNumbers stack.dropLast := by
  induction h generalizing e with
  | root h => cases he
  | @level start graph rest _ _ _ _ hrest ih =>
    obtain ⟨below, no, bs, rfl⟩ := hrest.top
    rw [← cons_append, dropLast_concat, stackNumbers_cons, mem_append]
    rcases mem_flatten_levels.1 he with hh | ht
    · have hk : b ∈ nextGraph env graph start :=
        hrest.bottom.mem_iff.1 (mem_flatMap.2 ⟨e, hh, hb⟩)
      rw [numbers_levelOf]
      exact .inl (mem_numbers_of_nextGraph hc hk)
    · have hm := ih (closed_nextGraph env _ _) ht hb
      rw [dropLast_concat] at hm
      exact .inr hm

omit h hc in
/-- In tight levels, what holds of the root and passes from a page to its blocks holds of every
page. -/
theorem Levels.descend (h : Levels env true start graph stack) (hc : graph.Closed)
    (h32 : (stackNumbers stack).length ≤ 2 ^ 32) {P : PageNo → Prop}
    (hroot : ∀ lvl, stack.getLast? = some lvl → ∀ no ∈ lvl.numbers, P no)
    (hdown : ∀ e ∈ stack.tail.flatten, P e.1 → ∀ b ∈ e.2, P b) :
    ∀ no ∈ stackNumbers stack, P no := by
  induction h with
  | root h =>
    intro no hno
    exact hroot _ rfl no hno
  | @level start graph rest _ _ _ hlinked hrest ih =>
    have hlen := length_level_le h32
    rw [numbers_levelOf, length_numbersFrom] at hlen
    have hlast : ∀ lvl, rest.getLast? = some lvl → ∀ no ∈ lvl.numbers, P no := by
      intro lvl hl
      refine hroot lvl ?_
      obtain ⟨below, no, bs, rfl⟩ := hrest.top
      rw [getLast?_concat] at hl
      rw [← cons_append, getLast?_concat]
      exact hl
    have hall := ih (closed_nextGraph env _ _) hlen.2 hlast
      fun e he => hdown e (mem_flatten_levels.2 (.inr he))
    intro no hno
    rw [stackNumbers_cons, mem_append] at hno
    rcases hno with hno | hno
    · rw [numbers_levelOf] at hno
      obtain ⟨i, hi, rfl⟩ := mem_map.1 hno
      have hget := getElem?_eq_getElem (mem_range.1 hi)
      have hk : pageNoSub start i ∈ nextGraph env graph start :=
        (mem_nextGraph_iff hc hlen.1 hget).2 (hlinked rfl _ (getElem_mem _))
      obtain ⟨e, he, hb⟩ := mem_flatMap.1 (hrest.bottom.mem_iff.2 hk)
      have hflat := mem_flatten_levels.2 (.inl he)
      exact hdown e hflat (hall e.1 (mem_map.2 ⟨e, hflat, rfl⟩)) _ hb
    · exact hall no hno

/-- Levels in which every page below the root is a block of some page above the bottom level are
tight. -/
theorem Levels.tight_of_listed (hs : start < 2 ^ 32) (h32 : (stackNumbers stack).length ≤ 2 ^ 32)
    (hlisted : ∀ no ∈ stackNumbers stack.dropLast, ∃ e ∈ stack.tail.flatten, no ∈ e.2) :
    Levels env true start graph stack := by
  induction h with
  | root h => exact .root h
  | @level start graph rest hcap hw hfit _ hrest ih =>
    have hlen := length_level_le h32
    have hlt : pageNoSub start (env.parts graph).length < 2 ^ 32 := pageNoSub_lt _ _
    have hnum := Levels.numbers (.level hcap hw hfit (fun hf => by cases hf) hrest.loose) hs
    have hnd : (stackNumbers (levelOf env graph start :: rest)).Nodup :=
      hnum ▸ nodup_numbersFrom h32
    rw [stackNumbers_cons, List.nodup_append] at hnd
    have hdisj : ∀ {no}, no ∈ (levelOf env graph start).numbers → no ∉ stackNumbers rest :=
      fun h1 h2 => hnd.2.2 _ h1 _ h2 rfl
    have hdrop : ∀ {no}, no ∈ stackNumbers (levelOf env graph start :: rest).dropLast ↔
        no ∈ (levelOf env graph start).numbers ∨ no ∈ stackNumbers rest.dropLast := by
      intro no
      obtain ⟨below, r, bs, rfl⟩ := hrest.top
      rw [← List.cons_append, List.dropLast_concat, List.dropLast_concat, stackNumbers_cons,
        List.mem_append]
    have hsub : ∀ {no}, no ∈ stackNumbers rest.dropLast → no ∈ stackNumbers rest := by
      intro no hno
      obtain ⟨e, he, rfl⟩ := List.mem_map.1 hno
      obtain ⟨lvl, hl, he⟩ := List.mem_flatten.1 he
      exact List.mem_map.2 ⟨e, List.mem_flatten.2 ⟨lvl, List.dropLast_subset _ hl, he⟩, rfl⟩
    rw [numbers_levelOf, length_numbersFrom] at hlen
    refine .level hcap hw hfit (fun _ part hp => ?_) (ih (closed_nextGraph env _ _) hlt hlen.2 ?_)
    · -- the page of the part is listed on the next level
      obtain ⟨i, hi⟩ := List.mem_iff_getElem?.1 hp
      have hno : pageNoSub start i ∈ (levelOf env graph start).numbers := by
        rw [numbers_levelOf]
        exact List.mem_map.2 ⟨i, List.mem_range.2 (List.getElem?_eq_some_iff.1 hi).1, rfl⟩
      obtain ⟨e, he, hb⟩ := hlisted _ (hdrop.2 (.inl hno))
      rcases mem_flatten_levels.1 he with hh | ht
      · exact (mem_nextGraph_iff hc hlen.1 hi).1
          (hrest.bottom.mem_iff.1 (List.mem_flatMap.2 ⟨e, hh, hb⟩))
      · exact absurd (hsub (hrest.above (closed_nextGraph env _ _) ht hb)) (hdisj hno)
    · intro no hno
      obtain ⟨e, he, hb⟩ := hlisted no (hdrop.2 (.inr hno))
      rcases mem_flatten_levels.1 he with hh | ht
      · have hk : no ∈ nextGraph env graph start :=
          hrest.bottom.mem_iff.1 (List.mem_flatMap.2 ⟨e, hh, hb⟩)
        have hin := mem_numbers_of_nextGraph hc hk
        rw [← numbers_levelOf] at hin
        exact absurd (hsub hno) (hdisj hin)
      · exact ⟨e, ht, hb⟩

/-- Blocks are page numbers. -/
theorem Levels.blocks_lt (hk : ∀ k ∈ graph, k < 2 ^ 32) (he : e ∈ stack.flatten) {b : PageNo}
    (hb : b ∈ e.2) : b < 2 ^ 32 := by
  induction h generalizing e with
  | root h =>
    rw [flatten_singleton, mem_singleton] at he
    subst he
    exact hk b ((env.ho.perm _).mem_iff.1 hb)
  | @level start graph rest _ _ _ _ hrest ih =>
    rw [flatten_cons, mem_append] at he
    rcases he with he | he
    · exact hk b ((flatMap_levelOf env graph start).mem_iff.1 (mem_flatMap.2 ⟨e, he, hb⟩))
    · refine ih (closed_nextGraph env _ _) (fun k hk' => ?_) he hb
      obtain ⟨i, -, rfl⟩ := mem_map.1 (mem_numbers_of_nextGraph hc hk')
      exact pageNoSub_lt _ _

end

/-! ## The small trees -/

/-- The number of the root of some levels. -/
def topNumber (stack : List Level) : PageNo := (stack.getLastD []).numbers.headD 0

/-- The levels of the trees over the groups that are not empty, one after another. -/
inductive ForestLevels (env : TatEnv) (tight : Bool) (nbrs : VId → List VId) (loc : VId → PageNo) :
    PageNo → List (List LeafPage) → List (List Level) → Prop
  | nil {start : PageNo} : ForestLevels env tight nbrs loc start [] []
  | skip {start : PageNo} {rest : List (List LeafPage)} {strata : List (List Level)}
      (h : ForestLevels env tight nbrs loc start rest strata) :
      ForestLevels env tight nbrs loc start ([] :: rest) strata
  | tree {start : PageNo} {pages : List LeafPage} {rest : List (List LeafPage)}
      {stack : List Level} {strata : List (List Level)} (hne : pages ≠ [])
      (h : Levels env tight start (leafGraph nbrs loc pages) stack)
      (hrest : ForestLevels env tight nbrs loc (pageNoSub start (stackNumbers stack).length) rest
        strata) :
      ForestLevels env tight nbrs loc start (pages :: rest) (stack :: strata)

variable {nbrs : VId → List VId} {loc : VId → PageNo} {groups : List (List LeafPage)}
  {strata : List (List Level)}

theorem ForestLevels.loose (h : ForestLevels env tight nbrs loc start groups strata) :
    ForestLevels env false nbrs loc start groups strata := by
  induction h with
  | nil => exact .nil
  | skip _ ih => exact .skip ih
  | tree hne h _ ih => exact .tree hne h.loose ih

theorem ForestLevels.eq {tight tight' : Bool} {strata' : List (List Level)}
    (h : ForestLevels env tight nbrs loc start groups strata)
    (h' : ForestLevels env tight' nbrs loc start groups strata') : strata' = strata := by
  induction h generalizing strata' with
  | nil =>
    cases h'
    rfl
  | skip _ ih =>
    cases h' with
    | skip h' => exact ih h'
    | tree hne _ _ => exact absurd rfl hne
  | tree hne h _ ih =>
    cases h' with
    | skip _ => exact absurd rfl hne
    | tree _ h1 h2 =>
      have heq := h.eq h1
      subst heq
      rw [ih h2]

theorem stackNumbers_append (a b : List Level) :
    stackNumbers (a ++ b) = stackNumbers a ++ stackNumbers b := by
  simp [stackNumbers]

theorem ForestLevels.numbers (h : ForestLevels env tight nbrs loc start groups strata)
    (hs : start < 2 ^ 32) :
    stackNumbers strata.flatten = numbersFrom start (stackNumbers strata.flatten).length := by
  induction h with
  | nil => rfl
  | skip _ ih => exact ih hs
  | tree _ h _ ih =>
    have h1 := h.numbers hs
    have h2 := ih (pageNoSub_lt _ _)
    rw [flatten_cons, stackNumbers_append, length_append, numbersFrom_add, ← h1, ← h2]

/-! ## What the construction has built -/

variable {parentOf : PageNo → Except String PageNo}

theorem wireIndexPages_lookup {sampledOf : PageNo → Except String (List PageNo)} {nos : List PageNo}
    {m m' : IndexPageMap} (h : wireIndexPages env parentOf sampledOf nos m = .ok m') {no : PageNo}
    (hno : no ∉ nos) : m'.lookup no = m.lookup no := by
  induction nos generalizing m with
  | nil =>
    cases h
    rfl
  | cons x nos ih =>
    obtain ⟨page, -, h⟩ := bind_eq_ok.1 h
    obtain ⟨parent, -, h⟩ := bind_eq_ok.1 h
    obtain ⟨sampled, -, h⟩ := bind_eq_ok.1 h
    rw [mem_cons, not_or] at hno
    rw [ih h hno.2, lookup_insert_ne hno.1]

/-- The page of this number has no neighbour pages. -/
def NoNeighbors (m : IndexPageMap) (no : PageNo) : Prop :=
  ∃ p, m.lookup no = some p ∧ p.neighborPageCount = 0

variable {r : TatResult} {s : TatState} {fuel : Nat} {pages : List LeafPage}

theorem buildRoot_noNeighbors (h : buildRoot env (csrRootWiring env) s = .ok r)
    (hno : s.nextNo ∉ s.levels.flatten) : NoNeighbors r.indexPages s.nextNo := by
  obtain ⟨root, hroot, h⟩ := bind_eq_ok.1 h
  obtain ⟨s1, h1, h⟩ := bind_eq_ok.1 h
  cases h
  refine ⟨root, ?_, (IndexPage.create_lists hroot).2⟩
  unfold csrRootWiring at h1
  split at h1
  · obtain ⟨leaves, -, h1⟩ := bind_eq_ok.1 h1
    cases h1
    exact lookup_insert _
  · rename_i nos hlast
    obtain ⟨m, hm, h1⟩ := bind_eq_ok.1 h1
    cases h1
    have hnos : s.nextNo ∉ nos := fun hin =>
      hno (mem_flatten.2 ⟨nos, mem_of_getLast? hlast, hin⟩)
    exact (wireIndexPages_lookup hm hnos).trans (lookup_insert _)

theorem buildTree_noNeighbors (hn : 0 < env.cfg.maxBlockNeighbor) (hc : s.graph.Closed)
    (h : buildTree env (csrWiring env) (csrRootWiring env) fuel s = some (.ok r))
    (hnd : r.levels.flatten.Nodup) : NoNeighbors r.indexPages r.rootPageNo := by
  revert hc
  refine buildTree_induct s h (fun s _ hroot _ => ?_) fun s s' _ hs ih hc => ?_
  · have hr := buildRoot_ok (wires_csrRootWiring hn) hroot
    rw [hr.rootPageNo]
    refine buildRoot_noNeighbors hroot fun hin => ?_
    rw [hr.levels, flatten_append, nodup_append] at hnd
    exact hnd.2.2 _ hin s.nextNo (by simp) rfl
  · have hb := levelStep_ok (wires_csrWiring hn) hc hs
    exact ih (hb.graph ▸ closed_nextGraph env _ _)

theorem wireLeaves_empty {ps ps' : List LeafPage} (hne : ps ≠ []) :
    wireLeaves env parentOf ∅ ps ≠ .ok ps' := by
  intro h
  cases ps with
  | nil => exact hne rfl
  | cons p ps =>
    obtain ⟨parent, -, h⟩ := bind_eq_ok.1 h
    obtain ⟨sampled, hs, -⟩ := bind_eq_ok.1 h
    cases hs

/-- Without room for neighbour pages the sparse map is empty, and the lookup of a CSR page
throws. -/
theorem buildTatFromCsrPages_zero (hn : env.cfg.maxBlockNeighbor = 0) (hne : pages ≠ []) :
    buildTatFromCsrPages env nbrs loc fuel pages start ≠ some (.ok r) := by
  intro h
  have hsparse : (TatState.start env (leafGraph nbrs loc pages) start ∅ pages).sparse = ∅ := by
    have hzero : graphSparsification env.ho env.edgeSort (leafGraph nbrs loc pages)
        env.cfg.maxBlockNeighbor = ∅ := by
      rw [hn]
      exact graphSparsification_zero env.ho env.edgeSort (leafGraph nbrs loc pages)
    exact hzero
  cases fuel with
  | zero => cases h
  | succ fuel =>
    unfold buildTatFromCsrPages buildTree at h
    rw [climb] at h
    split at h
    · cases h
    · cases h
    · rename_i s hs
      split at hs
      · split at hs
        · cases hs
        · rename_i s' hstep
          obtain ⟨parts, -, hstep⟩ := bind_eq_ok.1 hstep
          obtain ⟨s1, h1, -⟩ := bind_eq_ok.1 hstep
          obtain ⟨leaves, hl, -⟩ := bind_eq_ok.1 h1
          rw [hsparse] at hl
          exact wireLeaves_empty hne hl
      · cases hs
        obtain ⟨root, -, h⟩ := bind_eq_ok.1 (Option.some.inj h)
        obtain ⟨s1, h1, -⟩ := bind_eq_ok.1 h
        obtain ⟨leaves, hl, -⟩ := bind_eq_ok.1 h1
        rw [show (TatState.sparse { TatState.start env (leafGraph nbrs loc pages) start ∅ pages with
          indexPages := _ }) = ∅ from hsparse] at hl
        exact wireLeaves_empty hne hl

/-- What the loop over the groups has done. -/
structure ForestBuilt (env : TatEnv) (f f' : Forest) (strata : List (List Level)) : Prop where
  nextNo : f'.nextNo = pageNoSub f.nextNo (stackNumbers strata.flatten).length
  roots : f'.roots = f.roots ++ strata.map topNumber
  levels : f'.trees.map TatResult.levels =
    f.trees.map TatResult.levels ++ strata.map (List.map Level.numbers)
  grows : MapGrows env f.indexPages f'.indexPages strata.flatten.flatten
  same : ∀ no, no ∉ stackNumbers strata.flatten →
    f'.indexPages.lookup no = f.indexPages.lookup no
  noNeighbors : (stackNumbers strata.flatten).Nodup →
    ∀ stack ∈ strata, NoNeighbors f'.indexPages (topNumber stack)

theorem ForestBuilt.refl {f : Forest} (hs : f.nextNo < 2 ^ 32) : ForestBuilt env f f [] :=
  ⟨(pageNoSub_zero hs).symm, by simp, by simp, MapGrows.refl env _, fun _ _ => rfl,
    fun _ _ h => absurd h not_mem_nil⟩

theorem TreeBuilt.topNumber_eq (h : TreeBuilt env s r stack) : topNumber stack = r.rootPageNo := by
  obtain ⟨lvl, hl, hnum⟩ := Option.map_eq_some_iff.1 h.root
  rw [topNumber, getLastD_eq_getLast?, hl, Option.getD_some, hnum]
  rfl

theorem numbers_flatten (stack : List Level) : stack.flatten.map Prod.fst =
    (stack.map Level.numbers).flatten := by
  rw [map_flatten]
  rfl

variable {es : Level} {f f' : Forest}

/-- The pages of a small tree are added to the others. -/
theorem mapGrows_union {m r : IndexPageMap} (h : MapGrows env ∅ r es) :
    MapGrows env m (r ∪ m) es := by
  have hkeys : ∀ no, no ∈ r ↔ no ∈ es.numbers := fun no => by
    rw [h.keys]
    simp [notMem_empty]
  refine ⟨fun no => ?_, fun hnd e he => ?_, fun e ⟨p, hp, hl⟩ hno => ?_⟩
  · rw [mem_union, hkeys, or_comm]
  · obtain ⟨p, hp, hl⟩ := h.new hnd e he
    have hmem : e.1 ∈ r := lookup_isSome.1 (by rw [hp]; rfl)
    exact ⟨p, by rw [lookup_union_left hmem]; exact hp, hl⟩
  · have hmem : e.1 ∉ r := fun hin => hno ((hkeys _).1 hin)
    exact ⟨p, by rw [lookup_union_right hmem]; exact hp, hl⟩

theorem closed_leafGraph (nbrs : VId → List VId) (loc : VId → PageNo) (pages : List LeafPage) :
    (leafGraph nbrs loc pages).Closed := closed_addEdges _ _

/-- One small tree more. -/
theorem ForestBuilt.add {stack : List Level} {strata : List (List Level)}
    (hno : s.nextNo = f.nextNo) (hm : s.indexPages = ∅) (hlev : s.levels = [])
    (ht : TreeBuilt env s r stack)
    (hroot : r.levels.flatten.Nodup → NoNeighbors r.indexPages r.rootPageNo)
    (h : ForestBuilt env (f.add r) f' strata) : ForestBuilt env f f' (stack :: strata) := by
  have hr : MapGrows env ∅ r.indexPages stack.flatten := hm ▸ ht.grows
  have hkeys : ∀ no, no ∈ r.indexPages ↔ no ∈ stackNumbers stack := fun no => by
    rw [hr.keys]
    simp [notMem_empty, stackNumbers, Level.numbers]
  have hnum : stackNumbers (stack :: strata).flatten =
      stackNumbers stack ++ stackNumbers strata.flatten := by
    rw [flatten_cons, stackNumbers_append]
  have hlevels : r.levels = stack.map Level.numbers := by rw [ht.levels, hlev, nil_append]
  refine ⟨?_, ?_, ?_, ?_, fun no hn => ?_, fun hnd => ?_⟩
  · rw [h.nextNo, show (f.add r).nextNo = r.nextIndexPageNo from rfl, ht.nextNo, hno,
      pageNoSub_add, hnum, length_append]
  · rw [h.roots, map_cons, ht.topNumber_eq]
    exact append_assoc _ _ _
  · rw [h.levels, map_cons, ← hlevels]
    simp [Forest.add]
  · have h1 : MapGrows env f.indexPages (f.add r).indexPages stack.flatten := mapGrows_union hr
    rw [flatten_cons, flatten_append]
    exact h1.trans h.grows
  · rw [hnum, mem_append, not_or] at hn
    rw [h.same no hn.2]
    exact lookup_union_right fun hin => hn.1 ((hkeys no).1 hin)
  · rw [hnum, nodup_append] at hnd
    have hnd' : r.levels.flatten.Nodup := by
      rw [hlevels, ← numbers_flatten]
      exact hnd.1
    refine forall_mem_cons.2 ⟨?_, h.noNeighbors hnd.2.1⟩
    obtain ⟨p, hp, hzero⟩ := hroot hnd'
    have hmem : r.rootPageNo ∈ r.indexPages := lookup_isSome.1 (by rw [hp]; rfl)
    refine ⟨p, ?_, hzero⟩
    rw [ht.topNumber_eq, h.same _ fun hin => hnd.2.2 _ ((hkeys _).1 hmem) _ hin rfl]
    exact (lookup_union_left hmem).trans hp

theorem buildForest_levels (hn : 0 < env.cfg.maxBlockNeighbor) (hs : f.nextNo < 2 ^ 32)
    (h : buildForest env nbrs loc fuel groups f = some (.ok f')) :
    ∃ strata, ForestLevels env false nbrs loc f.nextNo groups strata ∧
      ForestBuilt env f f' strata := by
  induction groups generalizing f with
  | nil =>
    cases h
    exact ⟨[], .nil, ForestBuilt.refl hs⟩
  | cons pages rest ih =>
    obtain ⟨hne, h⟩ | ⟨hne, r, hr, h⟩ := buildForest_cons h
    · obtain ⟨strata, h1, h2⟩ := ih hs h
      exact ⟨strata, hne ▸ .skip h1, h2⟩
    · have hc := closed_leafGraph nbrs loc pages
      obtain ⟨stack, ht⟩ := buildTree_levels (wires_csrWiring hn) (wires_csrRootWiring hn) hc hr
      have hnext : (f.add r).nextNo = pageNoSub f.nextNo (stackNumbers stack).length := ht.nextNo
      obtain ⟨strata, h1, h2⟩ := ih (hnext ▸ pageNoSub_lt _ _) h
      rw [hnext] at h1
      exact ⟨stack :: strata, .tree hne ht.built h1, h2.add rfl rfl rfl ht
        (buildTree_noNeighbors hn hc hr)⟩

theorem buildForest_zero (hn : env.cfg.maxBlockNeighbor = 0)
    (h : buildForest env nbrs loc fuel groups f = some (.ok f')) :
    f' = f ∧ ∀ pages ∈ groups, pages = [] := by
  induction groups generalizing f with
  | nil =>
    cases h
    exact ⟨rfl, fun _ hp => absurd hp not_mem_nil⟩
  | cons pages rest ih =>
    obtain ⟨hne, h⟩ | ⟨hne, r, hr, -⟩ := buildForest_cons h
    · obtain ⟨h1, h2⟩ := ih h
      exact ⟨h1, forall_mem_cons.2 ⟨hne, h2⟩⟩
    · exact absurd hr (buildTatFromCsrPages_zero hn hne)

theorem csrReady_start (env : TatEnv) (nbrs : VId → List VId) (loc : VId → PageNo)
    (pages : List LeafPage) (start : PageNo) :
    CsrReady env (.start env (leafGraph nbrs loc pages) start ∅ pages) := by
  refine ⟨rfl, fun _ p hp => ?_, fun nos h => by cases h⟩
  refine mem_addEdges.2 (.inl (mem_reserve.2 (.inr ?_)))
  exact mem_map.2 ⟨p, hp, rfl⟩

theorem buildForest_of_levels (hn : 0 < env.cfg.maxBlockNeighbor)
    (h : ForestLevels env true nbrs loc start groups strata)
    (h32 : (stackNumbers strata.flatten).length ≤ 2 ^ 32) {f : Forest} (hf : f.nextNo = start) :
    ∃ fuel f', ∀ fuel', fuel ≤ fuel' → buildForest env nbrs loc fuel' groups f = some (.ok f') := by
  induction h generalizing f with
  | nil => exact ⟨0, f, fun _ _ => rfl⟩
  | skip _ ih =>
    obtain ⟨fuel, f', hf'⟩ := ih h32 hf
    refine ⟨fuel, f', fun fuel' hle => ?_⟩
    rw [buildForest, if_pos rfl]
    exact hf' fuel' hle
  | @tree start pages rest stack strata hne h _ ih =>
    subst hf
    rw [flatten_cons, stackNumbers_append, length_append] at h32
    have hc := closed_leafGraph nbrs loc pages
    obtain ⟨fuel, r, hr⟩ := buildTree_of_levels hn h (Nat.le_trans (Nat.le_add_right _ _) h32) rfl
      rfl hc (csrReady_start env nbrs loc pages f.nextNo)
    obtain ⟨stack', ht⟩ := buildTree_levels (wires_csrWiring hn) (wires_csrRootWiring hn) hc
      (hr fuel (Nat.le_refl _))
    have heq : stack' = stack := h.eq ht.built
    have hnext : (f.add r).nextNo = pageNoSub f.nextNo (stackNumbers stack).length :=
      heq ▸ ht.nextNo
    obtain ⟨fuel2, f', hf'⟩ := ih (Nat.le_trans (Nat.le_add_left _ _) h32) hnext
    refine ⟨max fuel fuel2, f', fun fuel' hle => ?_⟩
    have hr' : buildTatFromCsrPages env nbrs loc fuel' pages f.nextNo = some (.ok r) :=
      hr fuel' (Nat.le_trans (Nat.le_max_left _ _) hle)
    rw [buildForest, if_neg hne, hr']
    exact hf' fuel' (Nat.le_trans (Nat.le_max_right _ _) hle)

/-! ## The finished tree -/

namespace TatTree

variable (cfg : IndexConfig) (t : TatTree)

/-- The index pages over CSR pages. -/
def level1 : List PageNo := t.trees.flatMap fun r => r.levels.headD []

/-- Page `no` has the block `b`. -/
def Lists (no b : PageNo) : Prop := ∃ p, t.indexPages.lookup no = some p ∧ b ∈ p.getBlocks cfg

/-- A block link between index pages. -/
def Child (no b : PageNo) : Prop := no ∉ t.level1 ∧ t.Lists cfg no b

/-- The index page is reached from the root. -/
def Reaches (no : PageNo) : Prop := Relation.ReflTransGen (t.Child cfg) t.root no

/-- Every CSR page is a block of exactly one level-1 page, and every page is reached from the
root. -/
structure Complete (pages : List PageNo) : Prop where
  leaf : ∀ p ∈ pages, ∃! no, no ∈ t.level1 ∧ t.Lists cfg no p
  index : ∀ no ∈ t.indexPages, t.Reaches cfg no
  reach : ∀ p ∈ pages, ∃ no ∈ t.level1, t.Reaches cfg no ∧ t.Lists cfg no p

end TatTree

/-- The tree has been built with these levels. -/
structure TatBuilt (env : TatEnv) (nbrs : VId → List VId) (loc : VId → PageNo) (start : PageNo)
    (groups : List (List LeafPage)) (strata : List (List Level)) (top : List Level)
    (t : TatTree) : Prop where
  forest : ForestLevels env false nbrs loc start groups strata
  above : Levels env false (pageNoSub start (stackNumbers strata.flatten).length)
    (BlockAdjMap.reserve ∅ (strata.map topNumber)) top
  root : t.root = topNumber top
  level1 : t.level1 = strata.flatMap fun stack => (stack.headD []).numbers
  grows : MapGrows env ∅ t.indexPages (strata.flatten ++ top).flatten

variable {roots : List PageNo} {m : IndexPageMap}

theorem rootLinks_eq_nil (h : ∀ r ∈ roots, NoNeighbors m r) : rootLinks m roots = [] := by
  refine flatMap_eq_nil_iff.2 fun r hr => ?_
  obtain ⟨p, hp, hzero⟩ := h r hr
  have hnone : p.readNeighborBlockClone = [] := by
    rw [IndexPage.readNeighborBlockClone, hzero]
    rfl
  rw [hp, Option.map_some, Option.getD_some, hnone]
  rfl

theorem level1_eq {trees : List TatResult}
    (h : trees.map TatResult.levels = strata.map (List.map Level.numbers)) :
    (trees.flatMap fun r => r.levels.headD []) =
      strata.flatMap fun stack => (stack.headD []).numbers := by
  have hleft : (trees.flatMap fun r => r.levels.headD []) =
      (trees.map TatResult.levels).flatMap fun l => l.headD [] := by
    rw [flatMap_map]
  rw [hleft, h, flatMap_map]
  refine flatMap_congr fun stack _ => ?_
  cases stack with
  | nil => rfl
  | cons lvl rest => rfl

/-- The small trees and one number more per tree have distinct 32-bit numbers. -/
def Numbered (env : TatEnv) (nbrs : VId → List VId) (loc : VId → PageNo) (start : PageNo)
    (groups : List (List LeafPage)) : Prop :=
  ∀ strata, ForestLevels env false nbrs loc start groups strata →
    (stackNumbers strata.flatten).length + strata.length < 2 ^ 32

theorem nodup_forest (hs : start < 2 ^ 32) (h32 : Numbered env nbrs loc start groups)
    (h : ForestLevels env false nbrs loc start groups strata) :
    (stackNumbers strata.flatten).Nodup := by
  rw [h.numbers hs]
  refine nodup_numbersFrom ?_
  have hlt := h32 strata h
  omega

theorem buildHierarchicalTat_levels (hn : 0 < env.cfg.maxBlockNeighbor) (hs : start < 2 ^ 32)
    (h32 : Numbered env nbrs loc start groups) {t : TatTree}
    (h : buildHierarchicalTat env nbrs loc fuel groups start = some (.ok t)) :
    ∃ strata top, TatBuilt env nbrs loc start groups strata top t := by
  obtain ⟨f, r, hf, hr, rfl⟩ := buildHierarchicalTat_ok h
  obtain ⟨strata, hl, hb⟩ := buildForest_levels hn hs hf
  have hroots : f.roots = strata.map topNumber := hb.roots
  have hnone : rootLinks f.indexPages f.roots = [] := by
    refine rootLinks_eq_nil fun r hr => ?_
    rw [hroots] at hr
    obtain ⟨stack, hst, rfl⟩ := mem_map.1 hr
    exact hb.noNeighbors (nodup_forest hs h32 hl) stack hst
  unfold buildTatFromIndexPages at hr
  rw [hnone, hroots] at hr
  obtain ⟨top, ht⟩ := buildTree_levels (wires_rootsWiring hn _) (wires_rootsWiring hn _)
    (closed_addEdges (strata.map topNumber) []) hr
  have hnext : f.nextNo = pageNoSub start (stackNumbers strata.flatten).length := hb.nextNo
  refine ⟨strata, top, hl, ?_, ht.topNumber_eq.symm, level1_eq hb.levels, ?_⟩
  · rw [← hnext]
    exact ht.built
  · rw [flatten_append]
    exact hb.grows.trans ht.grows

/-- The roots of the small trees fit one page, which is then built. -/
theorem buildTatFromIndexPages_exists (hlinks : rootLinks m roots = []) (hm : ∀ r ∈ roots, r ∈ m)
    (hfit : (reserve ∅ roots).keys.length ≤ env.cfg.maxBlocks) (start : PageNo) :
    ∃ r, ∀ fuel, 1 ≤ fuel → buildTatFromIndexPages env fuel m roots start = some (.ok r) := by
  obtain ⟨root, hroot⟩ := create_exists hfit start
  have hkeep : ∀ no ∈ roots, no ∈ m.insert start root :=
    fun no hno => (mem_insert m).2 (.inr (hm no hno))
  obtain ⟨m', hm'⟩ := wireIndexPages_exists env (fun _ => .ok start) (fun no => .ok
    (getNeighborPages (graphSparsification env.ho env.edgeSort
      ((reserve ∅ roots).addEdges []) env.cfg.maxBlockNeighbor) no)) hkeep
    (fun _ _ => ⟨_, rfl⟩) fun _ _ => ⟨_, rfl⟩
  have hbuild : ∃ r, buildRoot env (rootsWiring env roots)
      (.start env ((reserve ∅ roots).addEdges []) start m []) = .ok r :=
    ⟨_, bind_eq_ok.2 ⟨root, hroot, bind_eq_ok.2
      ⟨_, bind_eq_ok.2 ⟨m', hm', rfl⟩, rfl⟩⟩⟩
  obtain ⟨r, hr⟩ := hbuild
  refine ⟨r, fun fuel hf => ?_⟩
  obtain ⟨k, rfl⟩ : ∃ k, fuel = k + 1 := ⟨fuel - 1, by omega⟩
  have hle : ¬ (TatState.start env ((reserve ∅ roots).addEdges []) start m
      []).graph.keys.length > env.cfg.maxBlocks := Nat.not_lt.2 hfit
  unfold buildTatFromIndexPages buildTree
  rw [hlinks, climb, if_neg hle]
  exact congrArg some hr

/-! ## The level over the roots -/

variable {k : PageNo}

theorem mem_reserve_empty : k ∈ reserve ∅ roots ↔ k ∈ roots := by
  rw [mem_reserve]
  simp [notMem_empty]

theorem length_reserve_le (roots : List PageNo) :
    (reserve ∅ roots).keys.length ≤ roots.length :=
  (subperm_of_subset (keys_nodup _) fun _ hk => mem_reserve_empty.1 hk).length_le

theorem length_reserve (h : roots.Nodup) :
    (reserve ∅ roots).keys.length = roots.length :=
  ((perm_ext_iff_of_nodup (keys_nodup _) h).2 fun _ => mem_reserve_empty).length_eq

theorem length_parts_le (env : TatEnv) (graph : BlockAdjMap) :
    (env.parts graph).length ≤ graph.keys.length := by
  have hlen : ∀ parts : List (List PageNo), (∀ part ∈ parts, part ≠ []) →
      parts.length ≤ parts.flatten.length := by
    intro parts
    induction parts with
    | nil => exact fun _ => Nat.le_refl 0
    | cons part parts ih =>
      intro hne
      have h1 := length_pos_iff.2 (hne part mem_cons_self)
      have h2 := ih fun q hq => hne q (mem_cons_of_mem _ hq)
      rw [flatten_cons, length_append, length_cons]
      omega
  rw [← (env.partitioner.cover graph env.targetSize).length_eq]
  exact hlen _ (env.partitioner.nonempty graph env.targetSize)

/-- There are no edges between roots, so the next map is empty. -/
theorem nextGraph_reserve (env : TatEnv) (roots : List PageNo) (start : PageNo) :
    nextGraph env (reserve ∅ roots) start = ∅ := by
  have hnone : ∀ x, partEdges (reserve ∅ roots)
      (env.parts (reserve ∅ roots)) start x = [] := by
    intro x
    have hnbrs : x.1.flatMap (getNeighborPages (reserve ∅ roots)) = [] :=
      flatMap_eq_nil_iff.2 fun b _ => getNeighborPages_reserve
    rw [partEdges, hnbrs]
    rfl
  rw [nextGraph, flatMap_eq_nil_iff.2 fun x _ => hnone x]
  rfl

section

variable (h : Levels env false start (BlockAdjMap.reserve ∅ roots) stack)
include h

/-- The levels over roots: one page, or a level of pages under a root without blocks. -/
theorem Levels.over_roots :
    (stack = [[(start, env.ho.order (reserve ∅ roots).keys)]] ∧
        (reserve ∅ roots).keys.length ≤ env.cfg.maxBlocks) ∨
      ∃ no, stack = [levelOf env (reserve ∅ roots) start, [(no, [])]] ∧
        env.cfg.maxBlocks < (reserve ∅ roots).keys.length := by
  cases h with
  | root h => exact .inl ⟨rfl, h⟩
  | level hcap _ _ _ h =>
    rw [nextGraph_reserve] at h
    cases h with
    | root _ =>
      have hnil : env.ho.order (∅ : BlockAdjMap).keys = [] := (env.ho.perm []).eq_nil
      exact .inr ⟨_, by rw [hnil], hcap⟩
    | level hcap' _ _ _ _ => exact absurd hcap' (Nat.not_lt_zero _)

theorem Levels.length_over_roots : (stackNumbers stack).length ≤ roots.length + 1 := by
  rcases h.over_roots with ⟨rfl, -⟩ | ⟨no, rfl, -⟩
  · exact Nat.succ_le_succ (Nat.zero_le _)
  · have h1 := Nat.le_trans (length_parts_le env (reserve ∅ roots))
      (length_reserve_le roots)
    rw [stackNumbers_cons, length_append, numbers_levelOf, length_numbersFrom]
    exact Nat.succ_le_succ h1

end

/-! ## Links in the finished tree -/

/-- The levels as the tree shows them. -/
structure TatView (cfg : IndexConfig) (strata : List (List Level)) (top : List Level)
    (t : TatTree) : Prop where
  nodup : (stackNumbers (strata.flatten ++ top)).Nodup
  lists : ∀ no b, t.Lists cfg no b ↔ ∃ e ∈ (strata.flatten ++ top).flatten, e.1 = no ∧ b ∈ e.2
  keys : ∀ no, no ∈ t.indexPages ↔ no ∈ stackNumbers (strata.flatten ++ top)

theorem topNumber_mem (h : Levels env tight start graph stack) :
    topNumber stack ∈ stackNumbers stack := by
  obtain ⟨below, no, bs, rfl⟩ := h.top
  rw [topNumber, getLastD_concat, stackNumbers_append, mem_append]
  exact .inr mem_cons_self

theorem ForestLevels.of_mem (h : ForestLevels env tight nbrs loc start groups strata)
    (hst : stack ∈ strata) :
    ∃ start' pages, pages ∈ groups ∧ Levels env tight start' (leafGraph nbrs loc pages) stack := by
  induction h with
  | nil => cases hst
  | skip _ ih =>
    obtain ⟨start', pages, hp, hl⟩ := ih hst
    exact ⟨start', pages, mem_cons_of_mem _ hp, hl⟩
  | tree hne h _ ih =>
    rcases mem_cons.1 hst with rfl | hst
    · exact ⟨_, _, mem_cons_self, h⟩
    · obtain ⟨start', pages, hp, hl⟩ := ih hst
      exact ⟨start', pages, mem_cons_of_mem _ hp, hl⟩

theorem mem_leafGraph :
    k ∈ leafGraph nbrs loc pages ↔ k ∈ pages.map LeafPage.pageNo ∨
      ∃ p ∈ pages, ∃ e ∈ p.links nbrs loc, k = e.2 := by
  unfold leafGraph
  rw [mem_addEdges, mem_reserve_empty]
  constructor
  · rintro (h | ⟨e, he, hk⟩)
    · exact .inl h
    · obtain ⟨p, hp, he⟩ := mem_flatMap.1 he
      rcases hk with rfl | rfl
      · obtain ⟨n, -, rfl⟩ := mem_map.1 he
        exact .inl (mem_map.2 ⟨p, hp, rfl⟩)
      · exact .inr ⟨p, hp, e, he, rfl⟩
  · rintro (h | ⟨p, hp, e, he, rfl⟩)
    · exact .inl h
    · exact .inr ⟨e, mem_flatMap.2 ⟨p, hp, he⟩, .inr rfl⟩

/-- The page numbers are 32-bit numbers. -/
structure PageNos (loc : VId → PageNo) (groups : List (List LeafPage)) : Prop where
  pages : ∀ pages ∈ groups, ∀ p ∈ pages, p.pageNo < 2 ^ 32
  loc : ∀ v, loc v < 2 ^ 32

theorem PageNos.leafGraph_lt (h : PageNos loc groups) (hp : pages ∈ groups)
    (hk : k ∈ leafGraph nbrs loc pages) : k < 2 ^ 32 := by
  rcases mem_leafGraph.1 hk with hk | ⟨p, -, e, he, rfl⟩
  · obtain ⟨p, hpp, rfl⟩ := mem_map.1 hk
    exact h.pages pages hp p hpp
  · obtain ⟨n, -, rfl⟩ := mem_map.1 he
    exact h.loc n

theorem MapGrows.mem_iff (h : MapGrows env ∅ m es) {no : PageNo} : no ∈ m ↔ no ∈ es.numbers := by
  rw [h.keys]
  simp only [notMem_empty, false_or]

/-- The pages of a map that was filled from nothing, with their blocks. -/
theorem MapGrows.lists_iff (h : MapGrows env ∅ m es) (hnd : es.numbers.Nodup)
    (hlt : ∀ e ∈ es, ∀ b ∈ e.2, b < 2 ^ 32) {no b : PageNo} :
    (∃ p, m.lookup no = some p ∧ b ∈ p.getBlocks env.cfg) ↔ ∃ e ∈ es, e.1 = no ∧ b ∈ e.2 := by
  constructor
  · rintro ⟨p, hp, hb⟩
    obtain ⟨e, he, rfl⟩ := mem_map.1 (h.mem_iff.1 (lookup_isSome.1 (by rw [hp]; rfl)))
    obtain ⟨q, hq, hql⟩ := h.new hnd e he
    rw [hp] at hq
    cases hq
    rw [hql.getBlocks (hlt e he)] at hb
    exact ⟨e, he, rfl, hb⟩
  · rintro ⟨e, he, rfl, hb⟩
    obtain ⟨q, hq, hql⟩ := h.new hnd e he
    exact ⟨q, hq, by rw [hql.getBlocks (hlt e he)]; exact hb⟩

theorem TatBuilt.view {top : List Level} {t : TatTree}
    (h : TatBuilt env nbrs loc start groups strata top t) (hs : start < 2 ^ 32)
    (h32 : Numbered env nbrs loc start groups) (hp : PageNos loc groups) :
    TatView env.cfg strata top t := by
  have hforest := h.forest.numbers hs
  have htop := h.above.numbers (pageNoSub_lt _ _)
  have hlen := h32 strata h.forest
  have hlen' := h.above.length_over_roots
  rw [length_map] at hlen'
  have hnum : stackNumbers (strata.flatten ++ top) = numbersFrom start
      ((stackNumbers strata.flatten).length + (stackNumbers top).length) := by
    rw [numbersFrom_add, ← hforest, ← htop, stackNumbers_append]
  have hnd : (stackNumbers (strata.flatten ++ top)).Nodup := by
    rw [hnum]
    refine nodup_numbersFrom ?_
    omega
  have hlt : ∀ e ∈ (strata.flatten ++ top).flatten, ∀ b ∈ e.2, b < 2 ^ 32 := by
    intro e he b hb
    rw [flatten_append, mem_append] at he
    rcases he with he | he
    · obtain ⟨lvl, hlvl, he⟩ := mem_flatten.1 he
      obtain ⟨stack, hst, hlvl⟩ := mem_flatten.1 hlvl
      obtain ⟨start', pages, hpg, hl⟩ := h.forest.of_mem hst
      exact hl.blocks_lt (closed_leafGraph _ _ _) (fun k hk => hp.leafGraph_lt hpg hk)
        (mem_flatten.2 ⟨lvl, hlvl, he⟩) hb
    · refine h.above.blocks_lt (closed_addEdges _ []) (fun k hk => ?_) he hb
      obtain ⟨stack, hst, rfl⟩ := mem_map.1 (mem_reserve_empty.1 hk)
      obtain ⟨start', pages, -, hl⟩ := h.forest.of_mem hst
      have hmem : topNumber stack ∈ stackNumbers strata.flatten := by
        obtain ⟨e, he, heq⟩ := mem_map.1 (topNumber_mem hl)
        obtain ⟨lvl, hlvl, he⟩ := mem_flatten.1 he
        exact mem_map.2 ⟨e, mem_flatten.2 ⟨lvl, mem_flatten.2 ⟨stack, hst, hlvl⟩,
          he⟩, heq⟩
      rw [hforest] at hmem
      obtain ⟨i, -, heq⟩ := mem_map.1 hmem
      exact heq ▸ pageNoSub_lt _ _
  exact ⟨hnd, fun no b => h.grows.lists_iff hnd hlt, fun no => h.grows.mem_iff⟩

end BwGraph
