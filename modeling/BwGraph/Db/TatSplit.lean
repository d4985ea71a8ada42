import BwGraph.Db.NumberRuns
import BwGraph.Io.IndexMatrix

/-
  `do_index_split`. The old index page leaves the map first; then the new adjacency is partitioned,
  a page is built for each part, and the parent is rebuilt over the new pages, or a new root. Every
  one of these constructors throws when there are more blocks than an index page takes, and
  nothing is put back.

  A split works, with every block on exactly one new page and each new page below its parent,
  exactly when the parts fit index pages, the pages of the parent fit one with the new pages in the
  place of the old one, and so do the new pages below a new root (`doIndexSplit_iff`). Otherwise it
  throws after the old page is gone.
-/

namespace BwGraph

open AList IndexPage BlockAdjMap

open List hiding beq_eq_decide mem_keys

open EStateM (bind_error_eq bind_ok_eq get_bind)

/-! ## The keys of the changed maps -/

namespace BlockAdjMap

variable {m : BlockAdjMap} {k : PageNo}

theorem mem_mapLists {f : List PageNo → List PageNo} : k ∈ m.mapLists f ↔ k ∈ m := by
  have hfold : ∀ (ks : List PageNo) (m : BlockAdjMap),
      k ∈ ks.foldl (fun (m : BlockAdjMap) k => m.insert k (f (getNeighborPages m k))) m ↔
        k ∈ ks ∨ k ∈ m := by
    intro ks
    induction ks with
    | nil => simp
    | cons x ks ih =>
      intro m
      rw [foldl_cons, ih, mem_insert, mem_cons]
      tauto
  unfold mapLists
  rw [hfold, mem_keys]
  tauto

theorem mem_remove {old : PageNo} : k ∈ m.remove old ↔ k ≠ old ∧ k ∈ m := by
  unfold remove
  rw [mem_mapLists, mem_erase]

variable {ps : List PageNo}

theorem mem_clear : k ∈ m.clear ps ↔ k ∈ ps ∨ k ∈ m := by
  unfold clear
  induction ps generalizing m with
  | nil => simp
  | cons p ps ih =>
    rw [foldl_cons, ih, mem_insert, mem_cons]
    tauto

theorem mem_push {a b : PageNo} : k ∈ m.push a b ↔ k = a ∨ k ∈ m := by
  unfold push
  rw [mem_insert]

/-- The edges between pages that are keys add none. -/
theorem mem_pushPairs (h : ∀ p ∈ ps, p ∈ m) : k ∈ pushPairs ps m ↔ k ∈ m := by
  induction ps generalizing m with
  | nil => exact Iff.rfl
  | cons p ps ih =>
    rw [forall_mem_cons] at h
    have hfold : ∀ (qs : List PageNo) (m : BlockAdjMap), p ∈ m → (∀ q ∈ qs, q ∈ m) →
        ∀ j, j ∈ qs.foldl (fun m q => (push m p q).push q p) m ↔ j ∈ m := by
      intro qs
      induction qs with
      | nil => exact fun m _ _ j => Iff.rfl
      | cons q qs ihq =>
        intro m hp hqs j
        rw [forall_mem_cons] at hqs
        have hmem : ∀ j, j ∈ (push m p q).push q p ↔ j ∈ m := by
          intro j
          rw [mem_push, mem_push]
          constructor
          · rintro (rfl | rfl | hj)
            · exact hqs.1
            · exact hp
            · exact hj
          · exact fun hj => .inr (.inr hj)
        rw [foldl_cons, ihq _ ((hmem p).2 hp) fun q' hq' => (hmem q').2 (hqs.2 q' hq'), hmem]
    have hmem := hfold ps m h.1 h.2
    rw [pushPairs, ih fun q hq => (hmem q).2 (h.2 q hq), hmem]

theorem mem_addSiblings : k ∈ m.addSiblings ps ↔ k ∈ ps ∨ k ∈ m := by
  unfold addSiblings
  rw [mem_pushPairs fun p hp => mem_clear.2 (.inl hp), mem_clear]

end BlockAdjMap

theorem length_keys_eq {m : BlockAdjMap} {l : List PageNo} (h : ∀ k, k ∈ m ↔ k ∈ l)
    (hnd : l.Nodup) : m.keys.length = l.length :=
  ((perm_ext_iff_of_nodup m.keys_nodup hnd).2 fun k => h k).length_eq

/-- A new root has a key for each of its pages. -/
theorem length_rootAdj {nos : List PageNo} (h : nos.Nodup) :
    (addSiblings nos ∅).keys.length = nos.length := by
  refine length_keys_eq (fun k => ?_) h
  rw [mem_addSiblings]
  simp [notMem_empty]

namespace IndexPage

variable {cfg : IndexConfig} {p : IndexPage}

/-- The keys of `get_block_adj_map` are the blocks, whatever the page. -/
theorem mem_getBlockAdjMap {k : PageNo} : k ∈ p.getBlockAdjMap cfg ↔ k ∈ p.getBlocks cfg := by
  have hfold : ∀ (g : Nat → PageNo) (f : Nat → List PageNo) (is : List Nat) (m : BlockAdjMap),
      k ∈ is.foldl (fun (m : BlockAdjMap) i => m.insert (g i) (f i)) m ↔ k ∈ is.map g ∨ k ∈ m := by
    intro g f is
    induction is with
    | nil => simp
    | cons i is ih =>
      intro m
      rw [foldl_cons, ih, mem_insert, map_cons, mem_cons]
      tauto
  have hlen : (p.getBlocks cfg).length = p.numBlocks := length_wordReads _ _
  unfold getBlockAdjMap
  rw [hfold, ← hlen, map_getD_range]
  simp [notMem_empty]

theorem wordReads_words (blocks rest : List Nat) :
    wordReads blocks.length (blocks.flatMap wordWrite ++ rest) =
      blocks.map fun b => wordRead (wordWrite b) := by
  induction blocks with
  | nil => rfl
  | cons b blocks ih =>
    rw [length_cons, flatMap_cons, append_assoc, map_cons, wordReads]
    have hdrop : (wordWrite b ++ (blocks.flatMap wordWrite ++ rest)).drop 4 =
        blocks.flatMap wordWrite ++ rest := rfl
    rw [hdrop, ih]
    rfl

variable {blocks : List PageNo} (h : p.Lists cfg blocks)
include h

/-- A page lists its 32-bit blocks, whatever the others are. -/
theorem Lists.mem_getBlocks {b : PageNo} (hb : b ∈ blocks) (hlt : b < 2 ^ 32) :
    b ∈ p.getBlocks cfg := by
  obtain ⟨front, rest, hdata, hlen⟩ := h.blocksAt
  rw [IndexPage.getBlocks, hdata, h.numBlocks, ← hlen, drop_left, wordReads_words]
  refine mem_map.2 ⟨b, hb, ?_⟩
  have hword := wordRead_wordWrite hlt []
  rw [append_nil] at hword
  exact hword

theorem Lists.length_getBlocks : (p.getBlocks cfg).length = blocks.length := by
  rw [IndexPage.getBlocks, length_wordReads, h.numBlocks]

/-- `add_neighbor_page_no` for some pages leaves the blocks alone. -/
theorem Lists.addNeighborPageNos (ns : List PageNo) :
    (ns.foldl (fun p n => (p.addNeighborPageNo cfg n).2) p).Lists cfg blocks := by
  induction ns generalizing p with
  | nil => exact h
  | cons n ns ih => exact ih (h.addNeighborPageNo n)

end IndexPage

/-- The blocks of the parent after a split: the others, and the new pages. -/
def grandparentBlocks (cfg : IndexConfig) (gp : IndexPage) (oldNo : PageNo) (nos : List PageNo) :
    List PageNo := ((gp.getBlocks cfg).filter (fun b => b ≠ oldNo) ++ nos).dedup

theorem length_grandparentAdj (cfg : IndexConfig) (gp : IndexPage) (oldNo : PageNo)
    (nos : List PageNo) :
    (((gp.getBlockAdjMap cfg).remove oldNo).addSiblings nos).keys.length =
      (grandparentBlocks cfg gp oldNo nos).length := by
  refine length_keys_eq (fun k => ?_) (nodup_dedup _)
  rw [mem_addSiblings, mem_remove, mem_getBlockAdjMap,
    grandparentBlocks, mem_dedup, mem_append, mem_filter, decide_eq_true_eq]
  tauto

/-- On a page that lists the old page and none of the new ones, all but one number stay. -/
theorem length_grandparentBlocks {cfg : IndexConfig} {gp : IndexPage} {oldNo : PageNo}
    {nos : List PageNo} (hgp : (gp.getBlocks cfg).Nodup) (hold : oldNo ∈ gp.getBlocks cfg)
    (hnos : nos.Nodup) (hnew : ∀ no ∈ nos, no ∉ gp.getBlocks cfg) :
    (grandparentBlocks cfg gp oldNo nos).length + 1 = (gp.getBlocks cfg).length + nos.length := by
  have hfilter : (gp.getBlocks cfg).filter (fun b => b ≠ oldNo) =
      (gp.getBlocks cfg).erase oldNo := by
    rw [hgp.erase_eq_filter]
    congr 1
    funext b
    rw [bne, beq_eq_decide, decide_not]
  have hnd : ((gp.getBlocks cfg).filter (fun b => b ≠ oldNo) ++ nos).Nodup := by
    refine nodup_append.2 ⟨hgp.filter _, hnos, fun a ha b hb he => ?_⟩
    exact hnew b hb (he ▸ (mem_filter.1 ha).1)
  have hpos := length_pos_of_mem hold
  rw [grandparentBlocks, hnd.dedup, length_append, hfilter, length_erase_of_mem hold]
  omega

/-! ## The pages of the parts -/

variable {tenv : TatEnv} {t t' : TatIndex} {adj : BlockAdjMap} {gpNo oldNo : PageNo}
  {parts : List (List PageNo)}

-- numbers are compared by the lemmas about them, never by computing with 2 ^ 32
attribute [local irreducible] pageNoSub

/-- The parts with the numbers they get, counted down. -/
def numberedParts : PageNo → List (List PageNo) → List (PageNo × List PageNo)
  | _, [] => []
  | no, part :: parts => (no, part) :: numberedParts (pageNoSub no 1) parts

theorem numberedParts_snd (no : PageNo) (parts : List (List PageNo)) :
    (numberedParts no parts).map Prod.snd = parts := by
  induction parts generalizing no with
  | nil => rfl
  | cons part parts ih => rw [numberedParts, map_cons, ih]

theorem numberedParts_fst {no : PageNo} (hno : no < 2 ^ 32) (parts : List (List PageNo)) :
    (numberedParts no parts).map Prod.fst = numbersFrom no parts.length := by
  induction parts generalizing no with
  | nil => rfl
  | cons part parts ih =>
    rw [numberedParts, map_cons, ih (pageNoSub_lt _ _), length_cons, Nat.add_comm,
      numbersFrom_add, numbersFrom_one hno]
    rfl

/-- The page of a part: its blocks, and its parent. -/
structure PartPage (cfg : IndexConfig) (m : IndexPageMap) (gpNo : PageNo)
    (x : PageNo × List PageNo) (page : IndexPage) : Prop where
  lookup : m.lookup x.1 = some page
  lists : ∃ bs, page.Lists cfg bs ∧ bs.Perm x.2
  parent : page.parentPageNo = gpNo

/-- Each part has its page, and the other pages are as they were. -/
structure PartsPlaced (cfg : IndexConfig) (t t' : TatIndex) (gpNo : PageNo)
    (xs : List (PageNo × List PageNo)) : Prop where
  nextNo : t'.nextNo = pageNoSub t.nextNo xs.length
  root : t'.root = t.root
  new : ∀ x ∈ xs, ∃ page, PartPage cfg t'.indexPages gpNo x page
  old : ∀ no, no ∉ xs.map Prod.fst → t'.indexPages.lookup no = t.indexPages.lookup no

theorem newIndexPage_error {no : PageNo} {m : BlockAdjMap}
    (h : tenv.cfg.maxBlocks < m.keys.length) : ∃ e, ∀ t, newIndexPage tenv no m t = .error e t := by
  rcases hc : create tenv.cfg tenv.ho tenv.fresh no m with e | page
  · refine ⟨e, fun t => ?_⟩
    unfold newIndexPage
    rw [hc]
    rfl
  · have hle := create_isOk_iff.1 ⟨page, hc⟩
    exact absurd h (Nat.not_lt.2 hle)

theorem newIndexPage_ok {no : PageNo} {m : BlockAdjMap}
    (h : m.keys.length ≤ tenv.cfg.maxBlocks) : ∃ page, (∀ t, newIndexPage tenv no m t = .ok page t) ∧
      page.Lists tenv.cfg (tenv.ho.order m.keys) := by
  obtain ⟨page, hc⟩ := create_isOk_iff.2 h
  refine ⟨page, fun t => ?_, (create_lists hc).1⟩
  unfold newIndexPage
  rw [hc]
  rfl

/-- The state after a number was handed out. -/
def TatIndex.fetched (t : TatIndex) : TatIndex :=
  { t with nextNo := pageNoSub t.nextNo 1, handedOut := t.handedOut + 1 }

/-- The state after a page was put into the map. -/
def TatIndex.put (t : TatIndex) (no : PageNo) (page : IndexPage) : TatIndex :=
  { t with indexPages := t.indexPages.insert no page }

namespace TatIndex

variable (no : PageNo) (page : IndexPage)

@[simp] theorem indexPages_fetched : t.fetched.indexPages = t.indexPages := by
  obtain ⟨indexPages, root, nextNo, lowest, handedOut⟩ := t
  rfl

@[simp] theorem root_fetched_put : (t.fetched.put no page).root = t.root := by
  obtain ⟨indexPages, root, nextNo, lowest, handedOut⟩ := t
  rfl

@[simp] theorem nextNo_fetched_put : (t.fetched.put no page).nextNo = pageNoSub t.nextNo 1 := by
  obtain ⟨indexPages, root, nextNo, lowest, handedOut⟩ := t
  rfl

@[simp] theorem indexPages_fetched_put :
    (t.fetched.put no page).indexPages = t.indexPages.insert no page := by
  obtain ⟨indexPages, root, nextNo, lowest, handedOut⟩ := t
  rfl

end TatIndex

theorem fetchIndexNo_eq (t : TatIndex) : fetchIndexNo t = .ok t.nextNo t.fetched := rfl

theorem putIndexPage_eq (no : PageNo) (page : IndexPage) (t : TatIndex) :
    putIndexPage no page t = .ok () (t.put no page) := rfl

variable {part : List PageNo}

/-- One part: a number, a page, and then the rest. -/
theorem splitIndexPages_cons (hne : part ≠ []) {page : IndexPage}
    (hp : ∀ t, newIndexPage tenv t'.nextNo (inducedBlockSubgraph adj part) t = .ok page t) :
    splitIndexPages tenv adj gpNo (part :: parts) t' =
      (splitIndexPages tenv adj gpNo parts >>= fun nos => pure (t'.nextNo :: nos))
        (t'.fetched.put t'.nextNo (page.setParentPageNo gpNo)) := by
  rw [splitIndexPages, if_neg hne, bind_ok_eq (fetchIndexNo_eq t'),
    bind_ok_eq (hp _), bind_ok_eq (putIndexPage_eq _ _ _)]

/-- A part that is refused. -/
theorem splitIndexPages_refused (hne : part ≠ []) {e : String}
    (he : ∀ t, newIndexPage tenv t'.nextNo (inducedBlockSubgraph adj part) t = .error e t) :
    splitIndexPages tenv adj gpNo (part :: parts) t' = .error e t'.fetched := by
  rw [splitIndexPages, if_neg hne, bind_ok_eq (fetchIndexNo_eq t'),
    bind_error_eq (he _)]

/-- When all parts fit, each gets its page. -/
theorem splitIndexPages_ok (hn : 0 < tenv.cfg.maxBlockNeighbor) (hne : ∀ part ∈ parts, part ≠ [])
    (hnd : ∀ part ∈ parts, part.Nodup) (hfit : ∀ part ∈ parts, part.length ≤ tenv.cfg.maxBlocks)
    (hnos : ((numberedParts t.nextNo parts).map Prod.fst).Nodup) (hno : t.nextNo < 2 ^ 32) :
    ∃ t', splitIndexPages tenv adj gpNo parts t =
        .ok ((numberedParts t.nextNo parts).map Prod.fst) t' ∧
      PartsPlaced tenv.cfg t t' gpNo (numberedParts t.nextNo parts) := by
  induction parts generalizing t with
  | nil =>
    refine ⟨t, rfl, ?_, rfl, fun x hx => absurd hx not_mem_nil, fun _ _ => rfl⟩
    rw [numberedParts, length_nil, pageNoSub_zero hno]
  | cons part parts ih =>
    rw [forall_mem_cons] at hne hnd hfit
    rw [numberedParts, map_cons, nodup_cons] at hnos
    have hkeys : (inducedBlockSubgraph adj part).keys.length ≤ tenv.cfg.maxBlocks := by
      rw [(keys_inducedBlockSubgraph hnd.1).length_eq]
      exact hfit.1
    obtain ⟨page, hp, hlists⟩ := @newIndexPage_ok tenv t.nextNo _ hkeys
    have hrest := @ih (t.fetched.put t.nextNo (page.setParentPageNo gpNo))
    rw [TatIndex.nextNo_fetched_put] at hrest
    obtain ⟨t', hrun, hnext, hroot, hnew, hold⟩ :=
      hrest hne.2 hnd.2 hfit.2 hnos.2 (pageNoSub_lt _ _)
    rw [TatIndex.nextNo_fetched_put] at hnext
    rw [TatIndex.root_fetched_put] at hroot
    rw [TatIndex.indexPages_fetched_put] at hold
    refine ⟨t', ?_, ?_, hroot, ?_, fun no hmem => ?_⟩
    · rw [splitIndexPages_cons hne.1 hp]
      exact EStateM.bind_eq_ok.2 ⟨_, t', hrun, rfl⟩
    · rw [hnext, numberedParts, length_cons, Nat.add_comm, ← pageNoSub_add]
    · rw [numberedParts, forall_mem_cons]
      refine ⟨⟨page.setParentPageNo gpNo, ?_, ⟨_, hlists.setParentPageNo hn gpNo, ?_⟩, rfl⟩, hnew⟩
      · -- the later parts have other numbers
        rw [hold t.nextNo hnos.1]
        exact lookup_insert _
      · exact (tenv.ho.perm _).trans (keys_inducedBlockSubgraph hnd.1)
    · rw [numberedParts, map_cons, mem_cons, not_or] at hmem
      rw [hold no hmem.2]
      exact lookup_insert_ne hmem.1

/-- A part that does not fit ends the loop. -/
theorem splitIndexPages_throws (hne : ∀ part ∈ parts, part ≠ []) (hnd : ∀ part ∈ parts, part.Nodup)
    {part : List PageNo} (hpart : part ∈ parts) (hlarge : tenv.cfg.maxBlocks < part.length) :
    ∃ e t', splitIndexPages tenv adj gpNo parts t = .error e t' := by
  induction parts generalizing t with
  | nil => exact absurd hpart not_mem_nil
  | cons first parts ih =>
    rw [forall_mem_cons] at hne hnd
    rcases Nat.lt_or_ge tenv.cfg.maxBlocks first.length with hfirst | hfirst
    · have hkeys : tenv.cfg.maxBlocks < (inducedBlockSubgraph adj first).keys.length := by
        rw [(keys_inducedBlockSubgraph hnd.1).length_eq]
        exact hfirst
      obtain ⟨e, he⟩ := @newIndexPage_error tenv t.nextNo _ hkeys
      exact ⟨e, _, splitIndexPages_refused hne.1 he⟩
    · have hkeys : (inducedBlockSubgraph adj first).keys.length ≤ tenv.cfg.maxBlocks := by
        rw [(keys_inducedBlockSubgraph hnd.1).length_eq]
        exact hfirst
      obtain ⟨page, hp, -⟩ := @newIndexPage_ok tenv t.nextNo _ hkeys
      rcases mem_cons.1 hpart with rfl | hpart
      · exact absurd hlarge (Nat.not_lt.2 hfirst)
      · obtain ⟨e, t', hrun⟩ :=
          @ih (t.fetched.put t.nextNo (page.setParentPageNo gpNo)) hne.2 hnd.2 hpart
        refine ⟨e, t', ?_⟩
        rw [splitIndexPages_cons hne.1 hp]
        exact EStateM.bind_eq_error.2 (.inl hrun)

/-- Whatever becomes of the loop, a page that is gone and whose number is not handed out stays
gone. -/
theorem splitIndexPages_absent (hne : ∀ part ∈ parts, part ≠ []) {no : PageNo}
    (hno : no ∉ (numberedParts t.nextNo parts).map Prod.fst) (h : no ∉ t.indexPages) :
    no ∉ (splitIndexPages tenv adj gpNo parts t).state.indexPages := by
  induction parts generalizing t with
  | nil => exact h
  | cons part parts ih =>
    rw [forall_mem_cons] at hne
    rw [numberedParts, map_cons, mem_cons, not_or] at hno
    rcases newIndexPage_cases tenv t.nextNo (inducedBlockSubgraph adj part) with
      ⟨page, hp⟩ | ⟨e, he⟩
    · have habsent : no ∉ (t.fetched.put t.nextNo (page.setParentPageNo gpNo)).indexPages := by
        rw [TatIndex.indexPages_fetched_put, mem_insert]
        exact fun hm => hm.elim hno.1 h
      have hgone := ih hne.2 (by rw [TatIndex.nextNo_fetched_put]; exact hno.2) habsent
      rw [splitIndexPages_cons hne.1 hp]
      exact EStateM.Keeps.after (P := fun t : TatIndex => no ∉ t.indexPages) hgone fun _ => .pure _
    · rw [splitIndexPages_refused hne.1 he]
      show no ∉ t.fetched.indexPages
      rw [TatIndex.indexPages_fetched]
      exact h

/-! ## The parent of the new pages -/

/-- The state after `set_parent_page_no` for some pages. -/
def TatIndex.adopted (t : TatIndex) (parentNo : PageNo) (nos : List PageNo) : TatIndex :=
  { t with
    indexPages := nos.foldl (fun m no =>
      match m.lookup no with
      | some page => m.insert no (page.setParentPageNo parentNo)
      | none => m) t.indexPages }

theorem setParents_eq (parentNo : PageNo) (nos : List PageNo) (t : TatIndex) :
    setParents parentNo nos t = .ok () (t.adopted parentNo nos) := rfl

/-- Each page of the list gets the parent, and the others stay. -/
theorem TatIndex.lookup_adopted (t : TatIndex) (parentNo : PageNo) {nos : List PageNo}
    (hnd : nos.Nodup) (no : PageNo) : (t.adopted parentNo nos).indexPages.lookup no =
      if no ∈ nos then (t.indexPages.lookup no).map (fun p => p.setParentPageNo parentNo)
      else t.indexPages.lookup no := by
  have hfold : ∀ (nos : List PageNo) (m : IndexPageMap), nos.Nodup →
      (nos.foldl (fun m no =>
        match m.lookup no with
        | some page => m.insert no (page.setParentPageNo parentNo)
        | none => m) m).lookup no =
      if no ∈ nos then (m.lookup no).map (fun p => p.setParentPageNo parentNo)
      else m.lookup no := by
    intro nos
    induction nos with
    | nil => exact fun m _ => rfl
    | cons k nos ih =>
      intro m hnd
      obtain ⟨hk, hnd⟩ := nodup_cons.1 hnd
      rw [foldl_cons, ih _ hnd]
      by_cases he : no = k
      · rw [he, if_neg hk, if_pos mem_cons_self]
        cases hl : m.lookup k with
        | none => exact hl
        | some page => exact lookup_insert m
      · have hstep : (match m.lookup k with
            | some page => m.insert k (page.setParentPageNo parentNo)
            | none => m).lookup no = m.lookup no := by
          cases m.lookup k with
          | none => rfl
          | some page => exact lookup_insert_ne he
        have hmem : no ∈ k :: nos ↔ no ∈ nos := by
          rw [mem_cons, or_iff_right he]
        rw [hstep]
        simp only [hmem]
  exact hfold nos t.indexPages hnd

/-- The copy of a page over a map that fits. -/
theorem copyIndexPage_ok {no : PageNo} {old : IndexPage} {m : BlockAdjMap}
    (hn : 0 < tenv.cfg.maxBlockNeighbor) (h : m.keys.length ≤ tenv.cfg.maxBlocks) :
    ∃ page, (∀ t, copyIndexPage tenv no old m t = .ok () (t.put no page)) ∧
      page.Lists tenv.cfg (tenv.ho.order m.keys) := by
  obtain ⟨page, hp, hlists⟩ := @newIndexPage_ok tenv no m h
  refine ⟨_, fun t => ?_, (hlists.setParentPageNo hn old.parentPageNo).addNeighborPageNos
    old.readNeighborBlockClone⟩
  rw [copyIndexPage, bind_ok_eq (hp t), putIndexPage_eq]

theorem copyIndexPage_throws {no : PageNo} {old : IndexPage} {m : BlockAdjMap}
    (h : tenv.cfg.maxBlocks < m.keys.length) :
    ∃ e, ∀ t, copyIndexPage tenv no old m t = .error e t := by
  obtain ⟨e, he⟩ := @newIndexPage_error tenv no m h
  refine ⟨e, fun t => ?_⟩
  rw [copyIndexPage, bind_error_eq (he t)]

/-- The new pages below their parent. -/
structure PartsBelow (cfg : IndexConfig) (t : TatIndex) (parentNo : PageNo)
    (xs : List (PageNo × List PageNo)) : Prop where
  pages : ∀ x ∈ xs, ∃ page, PartPage cfg t.indexPages parentNo x page
  listed : ∀ x ∈ xs, x.1 ∈ t.blocks cfg parentNo
  small : (t.blocks cfg parentNo).length ≤ cfg.maxBlocks

variable {parent : IndexPage}

variable {bs : List PageNo}

/-- Pages of parts, and a parent that lists them, with the parent numbers set. -/
theorem partsBelow_adopted {cfg : IndexConfig} (hn : 0 < cfg.maxBlockNeighbor) {parentNo : PageNo}
    {xs : List (PageNo × List PageNo)} (hnd : (xs.map Prod.fst).Nodup)
    (hlt : ∀ no ∈ xs.map Prod.fst, no < 2 ^ 32) (hne : parentNo ∉ xs.map Prod.fst)
    (hparent : t.indexPages.lookup parentNo = some parent) (hbs : parent.Lists cfg bs)
    (hmem : ∀ no ∈ xs.map Prod.fst, no ∈ bs) (hfit : bs.length ≤ cfg.maxBlocks)
    (hpages : ∀ x ∈ xs, ∃ page, PartPage cfg t.indexPages gpNo x page) :
    PartsBelow cfg (t.adopted parentNo (xs.map Prod.fst)) parentNo xs := by
  have hlook : (t.adopted parentNo (xs.map Prod.fst)).indexPages.lookup parentNo = some parent := by
    rw [TatIndex.lookup_adopted t parentNo hnd, if_neg hne, hparent]
  have hblocks : (t.adopted parentNo (xs.map Prod.fst)).blocks cfg parentNo =
      parent.getBlocks cfg := by
    rw [TatIndex.blocks, hlook]
    rfl
  refine ⟨fun x hx => ?_, fun x hx => ?_, ?_⟩
  · obtain ⟨page, hlookup, ⟨part, hlists, hperm⟩, -⟩ := hpages x hx
    refine ⟨page.setParentPageNo parentNo, ?_, ⟨part, hlists.setParentPageNo hn parentNo, hperm⟩,
      rfl⟩
    rw [TatIndex.lookup_adopted t parentNo hnd, if_pos (mem_map_of_mem hx), hlookup]
    rfl
  · rw [hblocks]
    exact hbs.mem_getBlocks (hmem _ (mem_map_of_mem hx)) (hlt _ (mem_map_of_mem hx))
  · rw [hblocks, hbs.length_getBlocks]
    exact hfit

/-! ## The split -/

/-- The state after the old page left the map. -/
def TatIndex.dropped (t : TatIndex) (oldNo : PageNo) : TatIndex :=
  { t with indexPages := t.indexPages.erase oldNo }

/-- The state with the new pages among the lowest ones. -/
def TatIndex.relisted (t : TatIndex) (oldNo : PageNo) (nos : List PageNo) : TatIndex :=
  { t with lowest := t.lowest.erase oldNo ++ nos }

/-- The second half of `do_index_split`. -/
def installSplit (env : TatEnv) (oldNo gpNo : PageNo) (nos : List PageNo) : TreeM Unit :=
  if nos = [] then return
  else if gpNo ≠ 0 then updateGrandparent env oldNo gpNo nos
  else updateRoot env nos

/-- The size of the parts that `do_index_split` asks for. -/
def splitTarget (env : TatEnv) : Nat := if env.cfg.maxBlocks > 0 then env.targetSize else 1

/-- The parts it gets. -/
def splitParts (env : TatEnv) (adj : BlockAdjMap) : List (List PageNo) :=
  env.partitioner.parts adj (splitTarget env)

/-- The numbers that the parts get. -/
def splitNos (env : TatEnv) (t : TatIndex) (adj : BlockAdjMap) : List PageNo :=
  numbersFrom t.nextNo (splitParts env adj).length

/-- An index page of the tree that is to be split, with the number of its parent: another page of
the tree, or 0 for the root. -/
structure TatIndex.Splits (t : TatIndex) (oldNo gpNo : PageNo) : Prop where
  page : ∃ old, t.indexPages.lookup oldNo = some old ∧ old.parentPageNo % 2 ^ 32 = gpNo
  parent : gpNo ≠ 0 → gpNo ≠ oldNo ∧ gpNo ∈ t.indexPages

/-- The next `n` numbers are not in the map. -/
structure TatIndex.Spare (t : TatIndex) (n : Nat) : Prop where
  nextNo : t.nextNo < 2 ^ 32
  count : n ≤ 2 ^ 32
  free : ∀ no ∈ numbersFrom t.nextNo n, no ∉ t.indexPages

/-- Where a new page hangs: below the parent of the old page, or else below the root, if it is not
the root itself. -/
def Hangs (cfg : IndexConfig) (t : TatIndex) (gpNo : PageNo) (nos : List PageNo) (no : PageNo) :
    Prop :=
  ∃ page, t.indexPages.lookup no = some page ∧
    ((gpNo = 0 ∧ nos = [no] ∧ t.root = no ∧ page.parentPageNo = 0) ∨
      ((gpNo = 0 → page.parentPageNo = t.root) ∧ (gpNo ≠ 0 → page.parentPageNo = gpNo) ∧
        no ∈ t.blocks cfg page.parentPageNo ∧
        (t.blocks cfg page.parentPageNo).length ≤ cfg.maxBlocks))

/-- A completed split: new pages within the capacity hold each block once, below their parent. -/
structure SplitInto (cfg : IndexConfig) (t t' : TatIndex) (gpNo : PageNo) (adj : BlockAdjMap)
    (nos : List PageNo) : Prop where
  new : ∀ no ∈ nos, no ∉ t.indexPages
  blocks : ∀ b ∈ adj, ∃! no, no ∈ nos ∧ b ∈ t'.blocks cfg no
  small : ∀ no ∈ nos, (t'.blocks cfg no).length ≤ cfg.maxBlocks
  parents : ∀ no ∈ nos, Hangs cfg t' gpNo nos no

/-- The map and the root are as they were. -/
def TatIndex.Untouched (t t' : TatIndex) : Prop :=
  (∀ no, t'.indexPages.lookup no = t.indexPages.lookup no) ∧ t'.root = t.root

/-- A split completes or changes nothing, and changes nothing when it throws. -/
def SplitSound (cfg : IndexConfig) (t : TatIndex) (gpNo : PageNo) (adj : BlockAdjMap) :
    EStateM.Result String TatIndex Unit → Prop
  | .ok _ t' => (∃ nos, SplitInto cfg t t' gpNo adj nos) ∨ t.Untouched t'
  | .error _ t' => t.Untouched t'

/-- The parts are asked for and fit, and so do the pages below their parent. -/
structure SplitFits (env : TatEnv) (t : TatIndex) (oldNo gpNo : PageNo) (adj : BlockAdjMap) :
    Prop where
  target : splitTarget env ≠ 0
  parts : ∀ part ∈ splitParts env adj, part.length ≤ env.cfg.maxBlocks
  parent : gpNo ≠ 0 → splitParts env adj ≠ [] → ∀ gp, t.indexPages.lookup gpNo = some gp →
    (grandparentBlocks env.cfg gp oldNo (splitNos env t adj)).length ≤ env.cfg.maxBlocks
  root : gpNo = 0 → (splitParts env adj).length ≤ env.cfg.maxBlocks

theorem nodup_flatten_splitParts : (splitParts tenv adj).flatten.Nodup :=
  (tenv.partitioner.cover adj _).nodup_iff.2 adj.keys_nodup

theorem nodup_of_mem_splitParts (h : part ∈ splitParts tenv adj) :
    part.Nodup := (nodup_flatten.1 nodup_flatten_splitParts).1 part h

theorem ne_nil_of_mem_splitParts : ∀ part ∈ splitParts tenv adj, part ≠ [] :=
  tenv.partitioner.nonempty adj _

/-- No part is empty, so that there are no more of them than blocks. -/
theorem length_splitParts_le : (splitParts tenv adj).length ≤ adj.keys.length := by
  have hlen := (tenv.partitioner.cover adj (splitTarget tenv)).length_eq
  have hle : ∀ parts : List (List PageNo), (∀ part ∈ parts, part ≠ []) →
      parts.length ≤ parts.flatten.length := by
    intro parts
    induction parts with
    | nil => simp
    | cons part parts ih =>
      intro h
      obtain ⟨hpart, h⟩ := forall_mem_cons.1 h
      have hpos := length_pos_iff.2 hpart
      have := ih h
      rw [flatten_cons, length_append, length_cons]
      omega
  exact hlen ▸ hle _ ne_nil_of_mem_splitParts

/-- What `do_index_split` runs. -/
theorem doIndexSplit_eq (h : t.Splits oldNo gpNo) (ht : splitTarget tenv ≠ 0) :
    doIndexSplit tenv oldNo adj t =
      (splitIndexPages tenv adj gpNo (splitParts tenv adj) >>= fun nos =>
        modify (fun t => t.relisted oldNo nos) >>= fun _ => installSplit tenv oldNo gpNo nos)
        (t.dropped oldNo) := by
  obtain ⟨old, hold, rfl⟩ := h.page
  have hset : (set (t.dropped oldNo) : TreeM PUnit) t = .ok ⟨⟩ (t.dropped oldNo) := rfl
  have hparts : absoluteWeightBlockPartition tenv.partitioner adj
      (if tenv.cfg.maxBlocks > 0 then tenv.targetSize else 1) = .ok (splitParts tenv adj) := by
    unfold absoluteWeightBlockPartition
    exact if_neg ht
  unfold doIndexSplit
  rw [get_bind]
  dsimp only
  rw [hold]
  exact (bind_ok_eq hset).trans (by rw [hparts]; rfl)

/-- The state with another root. -/
def TatIndex.rooted (t : TatIndex) (no : PageNo) : TatIndex := { t with root := no }

section Install

variable {nos : List PageNo} {gp : IndexPage}

theorem updateGrandparent_ok (hn : 0 < tenv.cfg.maxBlockNeighbor)
    (hgp : t.indexPages.lookup gpNo = some gp)
    (h : (grandparentBlocks tenv.cfg gp oldNo nos).length ≤ tenv.cfg.maxBlocks) :
    ∃ page bs, updateGrandparent tenv oldNo gpNo nos t =
        .ok () ((t.put gpNo page).adopted gpNo nos) ∧
      page.Lists tenv.cfg bs ∧ bs.length ≤ tenv.cfg.maxBlocks ∧ ∀ no ∈ nos, no ∈ bs := by
  rw [← length_grandparentAdj] at h
  obtain ⟨page, hp, hlists⟩ := @copyIndexPage_ok tenv gpNo gp _ hn h
  refine ⟨page, _, ?_, hlists, ?_, fun no hno => ?_⟩
  · unfold updateGrandparent
    rw [get_bind, hgp]
    exact (bind_ok_eq (hp t)).trans (setParents_eq _ _ _)
  · rw [(tenv.ho.perm _).length_eq]
    exact h
  · rw [(tenv.ho.perm _).mem_iff, ← mem_keys, mem_addSiblings]
    exact .inl hno

theorem updateGrandparent_throws (hgp : t.indexPages.lookup gpNo = some gp)
    (h : tenv.cfg.maxBlocks < (grandparentBlocks tenv.cfg gp oldNo nos).length) :
    ∃ e, updateGrandparent tenv oldNo gpNo nos t = .error e t := by
  rw [← length_grandparentAdj] at h
  obtain ⟨e, he⟩ := @copyIndexPage_throws tenv gpNo gp _ h
  refine ⟨e, ?_⟩
  unfold updateGrandparent
  rw [get_bind, hgp]
  exact bind_error_eq (he t)

theorem updateRoot_eq (h : 2 ≤ nos.length) : updateRoot tenv nos =
    (do
      let rootNo ← fetchIndexNo
      let root ← newIndexPage tenv rootNo (addSiblings nos ∅)
      putIndexPage rootNo root
      modify fun t => t.rooted rootNo
      setParents rootNo nos) := by
  unfold updateRoot
  split
  · exact absurd h (Nat.lt_irrefl 1)
  · rfl

theorem updateRoot_ok (h2 : 2 ≤ nos.length) (hnd : nos.Nodup) (h : nos.length ≤ tenv.cfg.maxBlocks) :
    ∃ (s : TatIndex) (page : IndexPage) (bs : List PageNo),
      updateRoot tenv nos t = .ok () (s.adopted t.nextNo nos) ∧ s.root = t.nextNo ∧
      s.indexPages = t.indexPages.insert t.nextNo page ∧
      page.Lists tenv.cfg bs ∧ bs.length ≤ tenv.cfg.maxBlocks ∧ ∀ no ∈ nos, no ∈ bs := by
  rw [← length_rootAdj hnd] at h
  obtain ⟨page, hp, hlists⟩ := @newIndexPage_ok tenv t.nextNo _ h
  refine ⟨(t.fetched.put t.nextNo page).rooted t.nextNo, page, _, ?_, rfl,
    TatIndex.indexPages_fetched_put _ _, hlists, ?_, fun no hno => ?_⟩
  · rw [updateRoot_eq h2, bind_ok_eq (fetchIndexNo_eq t), bind_ok_eq (hp _),
      bind_ok_eq (putIndexPage_eq _ _ _)]
    rfl
  · rw [(tenv.ho.perm _).length_eq]
    exact h
  · rw [(tenv.ho.perm _).mem_iff, ← mem_keys, mem_addSiblings]
    exact .inl hno

theorem updateRoot_throws (h2 : 2 ≤ nos.length) (hnd : nos.Nodup)
    (h : tenv.cfg.maxBlocks < nos.length) : ∃ e, updateRoot tenv nos t = .error e t.fetched := by
  rw [← length_rootAdj hnd] at h
  obtain ⟨e, he⟩ := @newIndexPage_error tenv t.nextNo _ h
  refine ⟨e, ?_⟩
  rw [updateRoot_eq h2, bind_ok_eq (fetchIndexNo_eq t), bind_error_eq (he _)]

end Install

theorem TatIndex.Spare.mono {n m : Nat} (h : t.Spare n) (hm : m ≤ n) : t.Spare m := by
  refine ⟨h.nextNo, Nat.le_trans hm h.count, fun no hno => h.free no ?_⟩
  obtain ⟨i, hi, rfl⟩ := mem_map.1 hno
  rw [mem_range] at hi
  exact mem_map.2 ⟨i, mem_range.2 (Nat.lt_of_lt_of_le hi hm), rfl⟩

theorem TatIndex.Spare.nodup {n : Nat} (h : t.Spare n) : (numbersFrom t.nextNo n).Nodup :=
  nodup_numbersFrom h.count

theorem TatIndex.Splits.mem (h : t.Splits oldNo gpNo) : oldNo ∈ t.indexPages := by
  obtain ⟨old, hold, -⟩ := h.page
  exact lookup_isSome.1 (by rw [hold]; rfl)

theorem absent_dropped (t : TatIndex) (oldNo : PageNo) : oldNo ∉ (t.dropped oldNo).indexPages :=
  fun hm => (mem_erase.1 hm).1 rfl

/-- The state with the pages of all parts, before the parent is changed. -/
structure PartsReady (tenv : TatEnv) (t t' : TatIndex) (oldNo gpNo : PageNo) (adj : BlockAdjMap) :
    Prop where
  run : splitIndexPages tenv adj gpNo (splitParts tenv adj) (t.dropped oldNo) =
    .ok (splitNos tenv t adj) t'
  nextNo : t'.nextNo = pageNoSub t.nextNo (splitParts tenv adj).length
  pages : ∀ x ∈ numberedParts t.nextNo (splitParts tenv adj),
    ∃ page, PartPage tenv.cfg t'.indexPages gpNo x page
  kept : ∀ no ∉ splitNos tenv t adj,
    t'.indexPages.lookup no = (t.dropped oldNo).indexPages.lookup no

/-- The pages of the parts are built when they all fit. -/
theorem exists_partsReady (hn : 0 < tenv.cfg.maxBlockNeighbor)
    (hspare : t.Spare (splitParts tenv adj).length)
    (hparts : ∀ part ∈ splitParts tenv adj, part.length ≤ tenv.cfg.maxBlocks)
    (oldNo gpNo : PageNo) : ∃ t', PartsReady tenv t t' oldNo gpNo adj := by
  have hfst : (numberedParts t.nextNo (splitParts tenv adj)).map Prod.fst = splitNos tenv t adj :=
    numberedParts_fst hspare.nextNo (splitParts tenv adj)
  have hnd : ((numberedParts t.nextNo (splitParts tenv adj)).map Prod.fst).Nodup := by
    rw [hfst]
    exact hspare.nodup
  obtain ⟨t', hrun, hplaced⟩ := @splitIndexPages_ok tenv (t.dropped oldNo) adj gpNo _ hn
    ne_nil_of_mem_splitParts (fun part => nodup_of_mem_splitParts) hparts hnd hspare.nextNo
  have hlen : (numberedParts t.nextNo (splitParts tenv adj)).length =
      (splitParts tenv adj).length := by
    rw [← numberedParts_snd t.nextNo (splitParts tenv adj), length_map, numberedParts_snd]
  exact ⟨t', hfst ▸ hrun, hlen ▸ hplaced.nextNo, hplaced.new, fun no hno =>
    hplaced.old no (hfst.symm ▸ hno)⟩

section

variable (hr : PartsReady tenv t t' oldNo gpNo adj) (hspare : t.Spare (splitParts tenv adj).length)
  (h : t.Splits oldNo gpNo)
include hr hspare h

theorem PartsReady.gone : oldNo ∉ t'.indexPages := by
  rw [← lookup_eq_none, hr.kept oldNo fun hm => hspare.free _ hm h.mem, lookup_eq_none]
  exact absent_dropped t oldNo

theorem PartsReady.lookup_parent (hgp : gpNo ≠ 0) :
    t'.indexPages.lookup gpNo = t.indexPages.lookup gpNo := by
  obtain ⟨hself, hmem⟩ := h.parent hgp
  rw [hr.kept gpNo fun hm => hspare.free _ hm hmem]
  exact lookup_erase_ne hself

end

theorem relisted_eq (oldNo : PageNo) (nos : List PageNo) (t : TatIndex) :
    (modify (fun t => t.relisted oldNo nos) : TreeM PUnit) t = .ok ⟨⟩ (t.relisted oldNo nos) := rfl

/-- What runs on the pages of the parts. -/
theorem PartsReady.doIndexSplit (hr : PartsReady tenv t t' oldNo gpNo adj)
    (h : t.Splits oldNo gpNo) (ht : splitTarget tenv ≠ 0) : doIndexSplit tenv oldNo adj t =
      installSplit tenv oldNo gpNo (splitNos tenv t adj)
        (t'.relisted oldNo (splitNos tenv t adj)) := by
  rw [doIndexSplit_eq h ht, bind_ok_eq hr.run, bind_ok_eq (relisted_eq _ _ _)]

/-! ## A split that does not fit -/

/-- An exception after the old page was removed. -/
def LosesPage (oldNo : PageNo) (r : EStateM.Result String TatIndex Unit) : Prop :=
  ∃ e t', r = .error e t' ∧ oldNo ∉ t'.indexPages

/-- Without a part size the partition throws. -/
theorem losesPage_of_target (ht : splitTarget tenv = 0) :
    LosesPage oldNo (doIndexSplit tenv oldNo adj t) := by
  have hset : (set (t.dropped oldNo) : TreeM PUnit) t = .ok ⟨⟩ (t.dropped oldNo) := rfl
  have hparts : absoluteWeightBlockPartition tenv.partitioner adj
      (if tenv.cfg.maxBlocks > 0 then tenv.targetSize else 1) =
      .error "max_block_weight must be > 0" := by
    unfold absoluteWeightBlockPartition
    exact if_pos ht
  refine ⟨"max_block_weight must be > 0", t.dropped oldNo, ?_, absent_dropped t oldNo⟩
  unfold doIndexSplit
  rw [get_bind]
  dsimp only
  exact (bind_ok_eq hset).trans (by rw [hparts]; rfl)

/-- So does the page of a part that is too large. -/
theorem losesPage_of_part (h : t.Splits oldNo gpNo) (ht : splitTarget tenv ≠ 0)
    (hspare : t.Spare (splitParts tenv adj).length) (hpart : part ∈ splitParts tenv adj)
    (hlarge : tenv.cfg.maxBlocks < part.length) :
    LosesPage oldNo (doIndexSplit tenv oldNo adj t) := by
  obtain ⟨e, t', hrun⟩ := @splitIndexPages_throws tenv (t.dropped oldNo) adj gpNo _
    ne_nil_of_mem_splitParts (fun part => nodup_of_mem_splitParts) part hpart hlarge
  have hnew : oldNo ∉ (numberedParts t.nextNo (splitParts tenv adj)).map Prod.fst := by
    rw [numberedParts_fst hspare.nextNo]
    exact fun hm => hspare.free _ hm h.mem
  have hgone := @splitIndexPages_absent tenv (t.dropped oldNo) adj gpNo _
    ne_nil_of_mem_splitParts oldNo hnew (absent_dropped t oldNo)
  rw [hrun] at hgone
  refine ⟨e, t', ?_, hgone⟩
  rw [doIndexSplit_eq h ht]
  exact EStateM.bind_eq_error.2 (.inl hrun)

theorem splitNos_ne_nil (hne : splitParts tenv adj ≠ []) : splitNos tenv t adj ≠ [] := by
  rw [← length_pos_iff, splitNos, length_numbersFrom]
  exact length_pos_iff.2 hne

section

variable (h : t.Splits oldNo gpNo) (ht : splitTarget tenv ≠ 0)
  (hspare : t.Spare (splitParts tenv adj).length) (hr : PartsReady tenv t t' oldNo gpNo adj)
include h ht hspare hr

/-- So does the parent with more pages than it takes. -/
theorem losesPage_of_parent (hne : splitParts tenv adj ≠ []) (hgp : gpNo ≠ 0) {gp : IndexPage}
    (hl : t.indexPages.lookup gpNo = some gp) (hfull : tenv.cfg.maxBlocks <
      (grandparentBlocks tenv.cfg gp oldNo (splitNos tenv t adj)).length) :
    LosesPage oldNo (doIndexSplit tenv oldNo adj t) := by
  rw [hr.doIndexSplit h ht, installSplit, if_neg (splitNos_ne_nil hne), if_pos hgp]
  obtain ⟨e, he⟩ := @updateGrandparent_throws tenv (t'.relisted oldNo (splitNos tenv t adj)) gpNo
    oldNo _ gp ((hr.lookup_parent hspare h hgp).trans hl) hfull
  exact ⟨e, _, he, hr.gone hspare h⟩

/-- So does a new root over more pages than it takes. -/
theorem losesPage_of_root (hgp : gpNo = 0)
    (hparts : ∀ part ∈ splitParts tenv adj, part.length ≤ tenv.cfg.maxBlocks)
    (hmany : tenv.cfg.maxBlocks < (splitParts tenv adj).length) :
    LosesPage oldNo (doIndexSplit tenv oldNo adj t) := by
  have hne : splitParts tenv adj ≠ [] := ne_nil_of_length_pos (by omega)
  obtain ⟨part, hpart⟩ := exists_mem_of_ne_nil _ hne
  have hpos := length_pos_iff.2 (ne_nil_of_mem_splitParts part hpart)
  have hfit := hparts part hpart
  have hlen : (splitNos tenv t adj).length = (splitParts tenv adj).length := length_numbersFrom _ _
  rw [hr.doIndexSplit h ht, installSplit, if_neg (splitNos_ne_nil hne), if_neg (not_not.2 hgp)]
  obtain ⟨e, he⟩ := @updateRoot_throws tenv (t'.relisted oldNo (splitNos tenv t adj))
    (splitNos tenv t adj) (by omega) hspare.nodup (by omega)
  refine ⟨e, _, he, ?_⟩
  rw [TatIndex.indexPages_fetched]
  exact hr.gone hspare h

end

/-- A split that does not fit throws after the old page is gone. -/
theorem losesPage_of_not_fits (hn : 0 < tenv.cfg.maxBlockNeighbor) (h : t.Splits oldNo gpNo)
    (hspare : t.Spare (splitParts tenv adj).length) (hfits : ¬ SplitFits tenv t oldNo gpNo adj) :
    LosesPage oldNo (doIndexSplit tenv oldNo adj t) := by
  by_cases ht : splitTarget tenv = 0
  · exact losesPage_of_target ht
  by_cases hparts : ∀ part ∈ splitParts tenv adj, part.length ≤ tenv.cfg.maxBlocks
  · obtain ⟨t', hr⟩ := exists_partsReady hn hspare hparts oldNo gpNo
    by_contra hkeeps
    refine hfits ⟨ht, hparts, fun hgp hne gp hl => ?_, fun hgp => ?_⟩
    · by_contra hfull
      exact hkeeps (losesPage_of_parent h ht hspare hr hne hgp hl (Nat.not_le.1 hfull))
    · by_contra hmany
      exact hkeeps (losesPage_of_root h ht hspare hr hgp hparts (Nat.not_le.1 hmany))
  · push Not at hparts
    obtain ⟨part, hpart, hlarge⟩ := hparts
    exact losesPage_of_part h ht hspare hpart hlarge

/-! ## A split that fits -/

section Fits

variable {cfg : IndexConfig} {parentNo : PageNo} {xs : List (PageNo × List PageNo)}

theorem PartPage.insert {m : IndexPageMap} {x : PageNo × List PageNo} {page : IndexPage}
    (h : PartPage cfg m parentNo x page) {no : PageNo} (hne : x.1 ≠ no) (page' : IndexPage) :
    PartPage cfg (m.insert no page') parentNo x page :=
  ⟨(lookup_insert_ne hne).trans h.lookup, h.lists, h.parent⟩

/-- The page of a part holds it. -/
theorem PartPage.blocks_perm {x : PageNo × List PageNo} {page : IndexPage}
    (h : PartPage cfg t.indexPages parentNo x page) (hlt : ∀ b ∈ x.2, b < 2 ^ 32) :
    (t.blocks cfg x.1).Perm x.2 := by
  obtain ⟨bs, hlists, hperm⟩ := h.lists
  have hget := hlists.getBlocks fun b hb => hlt b (hperm.mem_iff.1 hb)
  rw [TatIndex.blocks, h.lookup, Option.map_some, Option.getD_some, hget]
  exact hperm

/-- The pages of disjoint parts hold each block once. -/
theorem existsUnique_block (hpages : ∀ x ∈ xs, ∃ page, PartPage cfg t.indexPages parentNo x page)
    (hcover : (xs.map Prod.snd).flatten.Perm adj.keys) (hadj : ∀ b ∈ adj, b < 2 ^ 32) :
    ∀ b ∈ adj, ∃! no, no ∈ xs.map Prod.fst ∧ b ∈ t.blocks cfg no := by
  have hin : ∀ x ∈ xs, ∀ b ∈ x.2, b ∈ adj := fun x hx b hb => mem_keys.2
    (hcover.mem_iff.1 (mem_flatten.2 ⟨x.2, mem_map_of_mem hx, hb⟩))
  have hblocks : ∀ x ∈ xs, ∀ b, b ∈ t.blocks cfg x.1 ↔ b ∈ x.2 := fun x hx b => by
    obtain ⟨page, hpage⟩ := hpages x hx
    exact (hpage.blocks_perm fun b hb => hadj b (hin x hx b hb)).mem_iff
  have hdisj : xs.Pairwise fun x y => x.2.Disjoint y.2 :=
    pairwise_map.1 (nodup_flatten.1 (hcover.nodup_iff.2 adj.keys_nodup)).2
  have hsame : ∀ x ∈ xs, ∀ y ∈ xs, ∀ b, b ∈ x.2 → b ∈ y.2 → x = y := by
    intro x hx y hy b hbx hby
    by_contra hne
    have hsymm : Std.Symm fun x y : PageNo × List PageNo => x.2.Disjoint y.2 :=
      ⟨fun _ _ h => h.symm⟩
    exact hdisj.forall hx hy hne hbx hby
  intro b hb
  obtain ⟨part, hpart, hbpart⟩ := mem_flatten.1 (hcover.mem_iff.2 (mem_keys.1 hb))
  obtain ⟨x, hx, rfl⟩ := mem_map.1 hpart
  refine ⟨x.1, ⟨mem_map_of_mem hx, (hblocks x hx b).2 hbpart⟩, ?_⟩
  rintro no ⟨hno, hbno⟩
  obtain ⟨y, hy, rfl⟩ := mem_map.1 hno
  rw [hsame y hy x hx b ((hblocks y hy b).1 hbno) hbpart]

/-- The new pages hang below their parent. -/
theorem PartsBelow.hangs (h : PartsBelow cfg t parentNo xs) (hroot : gpNo = 0 → parentNo = t.root)
    (hgp : gpNo ≠ 0 → parentNo = gpNo) (nos : List PageNo) :
    ∀ no ∈ xs.map Prod.fst, Hangs cfg t gpNo nos no := by
  intro no hno
  obtain ⟨x, hx, rfl⟩ := mem_map.1 hno
  obtain ⟨page, hpage⟩ := h.pages x hx
  refine ⟨page, hpage.lookup, .inr ?_⟩
  rw [hpage.parent]
  exact ⟨hroot, hgp, h.listed x hx, h.small⟩

end Fits

theorem numberedParts_splitNos (hspare : t.Spare (splitParts tenv adj).length) :
    (numberedParts t.nextNo (splitParts tenv adj)).map Prod.fst = splitNos tenv t adj :=
  numberedParts_fst hspare.nextNo _

/-- The pages of all parts, with their parents. -/
theorem splitInto_of_pages (hspare : t.Spare (splitParts tenv adj).length)
    (hadj : ∀ b ∈ adj, b < 2 ^ 32)
    (hparts : ∀ part ∈ splitParts tenv adj, part.length ≤ tenv.cfg.maxBlocks) {parentNo : PageNo}
    (hpages : ∀ x ∈ numberedParts t.nextNo (splitParts tenv adj),
      ∃ page, PartPage tenv.cfg t'.indexPages parentNo x page)
    (hhangs : ∀ no ∈ splitNos tenv t adj, Hangs tenv.cfg t' gpNo (splitNos tenv t adj) no) :
    SplitInto tenv.cfg t t' gpNo adj (splitNos tenv t adj) := by
  have hfst := numberedParts_splitNos hspare
  have hsnd := numberedParts_snd t.nextNo (splitParts tenv adj)
  have hcover : ((numberedParts t.nextNo (splitParts tenv adj)).map Prod.snd).flatten.Perm
      adj.keys := by
    rw [hsnd]
    exact tenv.partitioner.cover adj _
  refine ⟨hspare.free, ?_, fun no hno => ?_, hhangs⟩
  · rw [← hfst]
    exact existsUnique_block hpages hcover hadj
  · rw [← hfst] at hno
    obtain ⟨x, hx, rfl⟩ := mem_map.1 hno
    have hpart : x.2 ∈ splitParts tenv adj := by
      rw [← hsnd]
      exact mem_map_of_mem hx
    have hlt : ∀ b ∈ x.2, b < 2 ^ 32 := fun b hb => hadj b (mem_keys.2
      ((tenv.partitioner.cover adj _).mem_iff.1 (mem_flatten.2 ⟨x.2, hpart, hb⟩)))
    obtain ⟨page, hpage⟩ := hpages x hx
    rw [(hpage.blocks_perm hlt).length_eq]
    exact hparts _ hpart

theorem lt_of_mem_splitNos {no : PageNo} (h : no ∈ splitNos tenv t adj) : no < 2 ^ 32 := by
  obtain ⟨i, -, rfl⟩ := mem_map.1 h
  exact pageNoSub_lt _ _

/-- The pages of all parts, once they are adopted by a page that lists them. -/
theorem PartsReady.splitInto (hr : PartsReady tenv t t' oldNo gpNo adj)
    (hn : 0 < tenv.cfg.maxBlockNeighbor) (hspare : t.Spare (splitParts tenv adj).length)
    (hadj : ∀ b ∈ adj, b < 2 ^ 32)
    (hparts : ∀ part ∈ splitParts tenv adj, part.length ≤ tenv.cfg.maxBlocks) {parentNo : PageNo}
    (hnew : parentNo ∉ splitNos tenv t adj) {s : TatIndex}
    (hs : s.indexPages = t'.indexPages.insert parentNo parent) (hbs : parent.Lists tenv.cfg bs)
    (hsmall : bs.length ≤ tenv.cfg.maxBlocks) (hmem : ∀ no ∈ splitNos tenv t adj, no ∈ bs)
    (hroot : gpNo = 0 → parentNo = s.root) (hgp : gpNo ≠ 0 → parentNo = gpNo) :
    SplitInto tenv.cfg t (s.adopted parentNo (splitNos tenv t adj)) gpNo adj
      (splitNos tenv t adj) := by
  have hfst := numberedParts_splitNos hspare
  have hparent : s.indexPages.lookup parentNo = some parent := by
    rw [hs]
    exact lookup_insert _
  have hpages : ∀ x ∈ numberedParts t.nextNo (splitParts tenv adj),
      ∃ page, PartPage tenv.cfg s.indexPages gpNo x page := by
    intro x hx
    obtain ⟨page, hpage⟩ := hr.pages x hx
    refine ⟨page, hs ▸ hpage.insert (fun he => hnew ?_) parent⟩
    rw [← he, ← hfst]
    exact mem_map_of_mem hx
  have hbelow : PartsBelow tenv.cfg (s.adopted parentNo (splitNos tenv t adj)) parentNo
      (numberedParts t.nextNo (splitParts tenv adj)) := by
    rw [← hfst] at hnew hmem ⊢
    refine partsBelow_adopted hn ?_ (fun no hno => ?_) hnew hparent hbs hmem hsmall hpages
    · rw [hfst]
      exact hspare.nodup
    · exact lt_of_mem_splitNos (hfst ▸ hno)
  refine splitInto_of_pages hspare hadj hparts hbelow.pages fun no hno => ?_
  exact hbelow.hangs hroot hgp _ no (hfst.symm ▸ hno)

/-- Below the old parent. -/
theorem splitInto_parent (hn : 0 < tenv.cfg.maxBlockNeighbor) (h : t.Splits oldNo gpNo)
    (hadj : ∀ b ∈ adj, b < 2 ^ 32) (hspare : t.Spare (splitParts tenv adj).length)
    (hfits : SplitFits tenv t oldNo gpNo adj) (hr : PartsReady tenv t t' oldNo gpNo adj)
    (hne : splitParts tenv adj ≠ []) (hgp : gpNo ≠ 0) :
    ∃ t'', doIndexSplit tenv oldNo adj t = .ok () t'' ∧
      SplitInto tenv.cfg t t'' gpNo adj (splitNos tenv t adj) := by
  obtain ⟨gp, hl⟩ := Option.isSome_iff_exists.1 (lookup_isSome.2 (h.parent hgp).2)
  have hnew : gpNo ∉ splitNos tenv t adj := fun hm => hspare.free _ hm (h.parent hgp).2
  obtain ⟨page, bs, hrun, hbs, hsmall, hmem⟩ :=
    @updateGrandparent_ok tenv (t'.relisted oldNo (splitNos tenv t adj)) gpNo oldNo
      (splitNos tenv t adj) gp hn ((hr.lookup_parent hspare h hgp).trans hl)
      (hfits.parent hgp hne gp hl)
  have hs : ((t'.relisted oldNo (splitNos tenv t adj)).put gpNo page).indexPages =
      t'.indexPages.insert gpNo page := rfl
  refine ⟨_, ?_, hr.splitInto hn hspare hadj hfits.parts hnew hs hbs hsmall hmem
    (fun hz => absurd hz hgp) fun _ => rfl⟩
  rw [hr.doIndexSplit h hfits.target, installSplit, if_neg (splitNos_ne_nil hne), if_pos hgp]
  exact hrun

theorem splitNos_one (hspare : t.Spare (splitParts tenv adj).length)
    (hone : (splitParts tenv adj).length = 1) : splitNos tenv t adj = [t.nextNo] := by
  rw [splitNos, hone, numbersFrom_one hspare.nextNo]

/-- A single page in the place of the root. -/
theorem splitInto_single (h : t.Splits oldNo gpNo) (hadj : ∀ b ∈ adj, b < 2 ^ 32)
    (hspare : t.Spare (splitParts tenv adj).length) (hfits : SplitFits tenv t oldNo gpNo adj)
    (hr : PartsReady tenv t t' oldNo gpNo adj) (hone : (splitParts tenv adj).length = 1)
    (hgp : gpNo = 0) : ∃ t'', doIndexSplit tenv oldNo adj t = .ok () t'' ∧
      SplitInto tenv.cfg t t'' gpNo adj (splitNos tenv t adj) := by
  have hne : splitParts tenv adj ≠ [] := ne_nil_of_length_pos (by omega)
  have hnos := splitNos_one hspare hone
  have hfst := numberedParts_splitNos hspare
  refine ⟨(t'.relisted oldNo (splitNos tenv t adj)).rooted t.nextNo, ?_,
    splitInto_of_pages hspare hadj hfits.parts hr.pages fun no hno => ?_⟩
  · rw [hr.doIndexSplit h hfits.target, installSplit, if_neg (splitNos_ne_nil hne),
      if_neg (not_not.2 hgp), hnos]
    rfl
  · obtain ⟨x, hx, rfl⟩ := mem_map.1 (hfst.symm ▸ hno)
    obtain ⟨page, hpage⟩ := hr.pages x hx
    have hroot : x.1 = t.nextNo := by
      rw [hnos] at hno
      exact mem_singleton.1 hno
    exact ⟨page, hpage.lookup, .inl ⟨hgp, hroot ▸ hnos, hroot.symm, hpage.parent.trans hgp⟩⟩

section

variable (hn : 0 < tenv.cfg.maxBlockNeighbor) (h : t.Splits oldNo gpNo)
  (hadj : ∀ b ∈ adj, b < 2 ^ 32) (hspare : t.Spare ((splitParts tenv adj).length + 1))
  (hfits : SplitFits tenv t oldNo gpNo adj)
include hn h hadj hspare hfits

/-- Below a new root. -/
theorem splitInto_root (hr : PartsReady tenv t t' oldNo gpNo adj)
    (htwo : 2 ≤ (splitParts tenv adj).length) (hgp : gpNo = 0) :
    ∃ t'', doIndexSplit tenv oldNo adj t = .ok () t'' ∧
      SplitInto tenv.cfg t t'' gpNo adj (splitNos tenv t adj) := by
  have hne : splitParts tenv adj ≠ [] := ne_nil_of_length_pos (by omega)
  have hspare' := hspare.mono (Nat.le_succ _)
  have hlen : (splitNos tenv t adj).length = (splitParts tenv adj).length := length_numbersFrom _ _
  -- the number of the root comes after those of the parts
  have hnew : t'.nextNo ∉ splitNos tenv t adj := by
    have hnd := hspare.nodup
    rw [numbersFrom_succ] at hnd
    rw [hr.nextNo]
    exact fun hm => (nodup_append.1 hnd).2.2 _ hm _ (mem_singleton_self _) rfl
  obtain ⟨s, page, bs, hrun, hroot, hs, hbs, hsmall, hmem⟩ :=
    @updateRoot_ok tenv (t'.relisted oldNo (splitNos tenv t adj)) (splitNos tenv t adj)
      (by omega) hspare'.nodup (hlen ▸ hfits.root hgp)
  refine ⟨_, ?_, hr.splitInto hn hspare' hadj hfits.parts hnew hs hbs hsmall hmem
    (fun _ => hroot.symm) fun hc => absurd hgp hc⟩
  rw [hr.doIndexSplit h hfits.target, installSplit, if_neg (splitNos_ne_nil hne),
    if_neg (not_not.2 hgp)]
  exact hrun

/-- A split that fits is completed. -/
theorem splitInto_of_fits :
    ∃ t', doIndexSplit tenv oldNo adj t = .ok () t' ∧
      SplitInto tenv.cfg t t' gpNo adj (splitNos tenv t adj) := by
  have hspare' := hspare.mono (Nat.le_succ _)
  obtain ⟨t', hr⟩ := exists_partsReady hn hspare' hfits.parts oldNo gpNo
  by_cases hne : splitParts tenv adj = []
  · -- there are no blocks
    have hnos : splitNos tenv t adj = [] := by
      rw [splitNos, hne]
      rfl
    have hkeys : adj.keys = [] := by
      have hperm := tenv.partitioner.cover adj (splitTarget tenv)
      exact (hne ▸ hperm : [].flatten.Perm adj.keys).nil_eq.symm
    refine ⟨t'.relisted oldNo (splitNos tenv t adj), ?_, hspare'.free, fun b hb => ?_, ?_, ?_⟩
    · rw [hr.doIndexSplit h hfits.target, installSplit, if_pos hnos]
      rfl
    · rw [mem_keys, hkeys] at hb
      exact absurd hb not_mem_nil
    · rw [hnos]
      exact fun no hno => absurd hno not_mem_nil
    · rw [hnos]
      exact fun no hno => absurd hno not_mem_nil
  have hpos := length_pos_iff.2 hne
  by_cases hgp : gpNo = 0
  · rcases Nat.lt_or_ge 1 (splitParts tenv adj).length with htwo | hone
    · exact splitInto_root hn h hadj hspare hfits hr htwo hgp
    · exact splitInto_single h hadj hspare' hfits hr (by omega) hgp
  · exact splitInto_parent hn h hadj hspare' hfits hr hne hgp

end

theorem not_splitSound_of_losesPage {cfg : IndexConfig} (h : t.Splits oldNo gpNo)
    {r : EStateM.Result String TatIndex Unit} (hl : LosesPage oldNo r) :
    ¬ SplitSound cfg t gpNo adj r := by
  intro hsound
  obtain ⟨e, t', rfl, hgone⟩ := hl
  obtain ⟨old, hold, -⟩ := h.page
  have hsame := hsound.1 oldNo
  rw [hold, lookup_eq_none.2 hgone] at hsame
  exact Option.some_ne_none _ hsame.symm

/-- A split completes or changes nothing exactly when it fits. -/
theorem doIndexSplit_iff (hn : 0 < tenv.cfg.maxBlockNeighbor) (h : t.Splits oldNo gpNo)
    (hadj : ∀ b ∈ adj, b < 2 ^ 32) (hspare : t.Spare (adj.keys.length + 1)) :
    SplitSound tenv.cfg t gpNo adj (doIndexSplit tenv oldNo adj t) ↔
      SplitFits tenv t oldNo gpNo adj := by
  have hlen := @length_splitParts_le tenv adj
  constructor
  · intro hsound
    by_contra hfits
    exact not_splitSound_of_losesPage h
      (losesPage_of_not_fits hn h (hspare.mono (Nat.le_succ_of_le hlen)) hfits) hsound
  · intro hfits
    obtain ⟨t', hrun, hinto⟩ := splitInto_of_fits hn h hadj (hspare.mono (by omega)) hfits
    rw [hrun]
    exact .inl ⟨_, hinto⟩

/-- Below a full parent that lists the old page, no split into two pages or more fits. -/
theorem not_splitFits_of_full (hspare : t.Spare (splitParts tenv adj).length) (hgp : gpNo ≠ 0)
    {gp : IndexPage} (hl : t.indexPages.lookup gpNo = some gp) (hnd : (gp.getBlocks tenv.cfg).Nodup)
    (hold : oldNo ∈ gp.getBlocks tenv.cfg) (hin : ∀ no ∈ gp.getBlocks tenv.cfg, no ∈ t.indexPages)
    (hfull : (gp.getBlocks tenv.cfg).length = tenv.cfg.maxBlocks)
    (htwo : 2 ≤ (splitParts tenv adj).length) : ¬ SplitFits tenv t oldNo gpNo adj := by
  intro hfits
  have hfit := hfits.parent hgp (ne_nil_of_length_pos (by omega)) gp hl
  have hlen := length_grandparentBlocks hnd hold hspare.nodup fun no hno hmem =>
    hspare.free no hno (hin no hmem)
  rw [length_numbersFrom] at hlen
  unfold splitNos at hfit
  omega

/-! ## The numbers that are left -/

/-- Index numbers that were counted down leave the next ones free. -/
theorem TatDb.Counts.spare {s : TatDb} {n : PageNumbers} (h : s.Counts n) (hc : n.Counted)
    (hw : s.wired = true) {k : Nat} (hk : s.tree.handedOut + k ≤ 2 ^ 32) : s.tree.Spare k := by
  refine ⟨h.nextLt, by omega, fun no hno hmem => ?_⟩
  have hgiven := h.pages no hmem
  have hnd := @nodup_numbersFrom n.first _ hk
  rw [← h.given, numbersFrom_add, ← hc.given, ← hc.next (h.wired.trans hw), h.next] at hnd
  exact (nodup_append.1 hnd).2.2 no hgiven no hno rfl

/-- In every run of a built database the next index numbers are free, until 2^32 of them have been
handed out. -/
theorem TatDb.Built.spare {cfg : Config} {s s' : TatDb} {es : List DbEvent}
    (h : s.Built cfg tenv) (run : Steps (TatStep cfg tenv) s es s') (hw : s'.wired = true) {k : Nat}
    (hk : s'.tree.handedOut + k ≤ 2 ^ 32) : s'.tree.Spare k := by
  obtain ⟨b, n, hb⟩ := h.counts
  obtain ⟨ns, n', hrun, hcounts⟩ := tatSteps_counts hb.counts run
  obtain ⟨fuel, manager, hbuild⟩ := hb.run
  have hcounted : n'.Counted :=
    hrun.inv (fun _ n => n.Counted) (IndexBuild.run_counted hbuild) fun _ _ _ _ hn hs => hn.step hs
  exact hcounts.spare hcounted hw hk

/-! ### A full parent -/

/-- An index page without neighbour pages. -/
def placedPage (no parent : PageNo) (blocks : List PageNo) : IndexPage :=
  match IndexPage.create pairsEnv.cfg .listed 0 no (BlockAdjMap.clear blocks ∅) with
  | .ok page => page.setParentPageNo parent
  | .error _ => IndexPage.raw pairsEnv.cfg 0 no

/-- Root 96 over some index pages with two blocks each. -/
def rootOver (nos : List PageNo) : TatIndex where
  indexPages := nos.foldl
    (fun (m : IndexPageMap) no => m.insert no (placedPage no 96 [2 * no, 2 * no + 1]))
    (AList.insert 96 (placedPage 96 0 nos) ∅)
  root := 96
  nextNo := 95
  lowest := nos
  handedOut := nos.length + 1

/-- Page 100 gets a third block. -/
def threeBlocks : BlockAdjMap := BlockAdjMap.clear [200, 201, 7] ∅

theorem splits_rootOver {nos : List PageNo} (h : nos = [100, 99] ∨ nos = [100, 99, 98, 97]) :
    (rootOver nos).Splits 100 96 ∧ (rootOver nos).Spare (threeBlocks.keys.length + 1) := by
  rcases h with rfl | rfl
  · exact ⟨⟨⟨placedPage 100 96 [200, 201], by decide +kernel, by decide +kernel⟩,
      fun _ => by decide +kernel⟩, by decide +kernel, by decide +kernel, by decide +kernel⟩
  · exact ⟨⟨⟨placedPage 100 96 [200, 201], by decide +kernel, by decide +kernel⟩,
      fun _ => by decide +kernel⟩, by decide +kernel, by decide +kernel, by decide +kernel⟩

/-- Below a root with room the split works. -/
theorem doIndexSplit_two : SplitSound pairsEnv.cfg (rootOver [100, 99]) 96 threeBlocks
    (doIndexSplit pairsEnv 100 threeBlocks (rootOver [100, 99])) := by
  obtain ⟨h, hspare⟩ := splits_rootOver (.inl rfl)
  refine (doIndexSplit_iff (by decide) h (by decide +kernel) hspare).2
    ⟨by decide, by decide +kernel, fun _ _ gp hl => ?_, fun hz => absurd hz (by decide)⟩
  have hroot : (rootOver [100, 99]).indexPages.lookup 96 = some (placedPage 96 0 [100, 99]) := by
    decide +kernel
  rw [hroot] at hl
  cases hl
  decide +kernel

/-- Below a full root it throws with page 100 gone, although the parts are as small as asked for. -/
theorem doIndexSplit_unsound : ¬ ∀ (tenv : TatEnv) (t : TatIndex) (oldNo gpNo : PageNo)
    (adj : BlockAdjMap), 0 < tenv.cfg.maxBlockNeighbor → t.Splits oldNo gpNo →
    (∀ b ∈ adj, b < 2 ^ 32) → t.Spare (adj.keys.length + 1) →
    (∀ part ∈ splitParts tenv adj, part.length ≤ splitTarget tenv) →
    SplitSound tenv.cfg t gpNo adj (doIndexSplit tenv oldNo adj t) := by
  intro hall
  obtain ⟨h, hspare⟩ := splits_rootOver (.inr rfl)
  have hsound := hall pairsEnv _ 100 96 threeBlocks (by decide) h (by decide +kernel) hspare
    (by decide +kernel)
  have hfull : ¬ SplitFits pairsEnv (rootOver [100, 99, 98, 97]) 100 96 threeBlocks :=
    @not_splitFits_of_full _ _ _ _ _ (hspare.mono (by decide +kernel)) (by decide)
      (placedPage 96 0 [100, 99, 98, 97]) (by decide +kernel) (by decide +kernel)
      (by decide +kernel) (by decide +kernel) (by decide +kernel) (by decide +kernel)
  exact not_splitSound_of_losesPage h
    (losesPage_of_not_fits (by decide) h (hspare.mono (by decide +kernel)) hfull) hsound

end BwGraph
