import BwGraph.Db.TatRun

/-
  The numbers of index pages and of CSR pages. Both are `page_no_t`, and `do_index_split` never
  asks the disk manager: index numbers are handed out downward from a starting number, CSR numbers
  come from the free slots or grow with the file. `build_tat_hierarchy` starts right above the
  pages that exist, `build_reorder_tat_db` at the largest number.

  What is kept here of a database are the numbers alone (`PageNumbers`). They stay apart exactly
  while no allocation returns a number between the last index number and the first one, and no
  split takes the number 0 or the one of a live page (`pageNumbers_apart_iff`). After
  `build_tat_hierarchy` that needs a tree of one index page; the next page at the end of the file
  then takes the number of the root.
-/

namespace BwGraph

open Except (bind_eq_ok)

open List AList Nat

/-! ## Counting down -/

theorem pageNoSub_of_le {start i : Nat} (hs : start < 2 ^ 32) (hi : i ≤ start) :
    pageNoSub start i = start - i := by
  unfold pageNoSub
  omega

/-- Numbers that do not pass 0 are an interval below the first one. -/
theorem mem_numbersFrom_iff {start n p : Nat} (hs : start < 2 ^ 32) (hn : n ≤ start + 1) :
    p ∈ numbersFrom start n ↔ p ≤ start ∧ start < p + n := by
  unfold numbersFrom
  rw [mem_map]
  constructor
  · rintro ⟨i, hi, rfl⟩
    rw [mem_range] at hi
    rw [pageNoSub_of_le hs (by omega)]
    omega
  · rintro ⟨h1, h2⟩
    refine ⟨start - p, mem_range.2 (by omega), ?_⟩
    rw [pageNoSub_of_le hs (by omega)]
    omega

theorem zero_mem_numbersFrom {start n : Nat} (hs : start < 2 ^ 32) (h : start < n) :
    0 ∈ numbersFrom start n := by
  refine mem_map.2 ⟨start, mem_range.2 h, ?_⟩
  rw [pageNoSub_of_le hs (Nat.le_refl _), Nat.sub_self]

/-- They are distinct and not 0 exactly when they stop above 0. -/
theorem numbersFrom_proper_iff {start n : Nat} (hs : start < 2 ^ 32) :
    (numbersFrom start n).Nodup ∧ 0 ∉ numbersFrom start n ↔ n ≤ start := by
  constructor
  · rintro ⟨-, h⟩
    by_contra hlt
    exact h (zero_mem_numbersFrom hs (by omega))
  · intro h
    refine ⟨nodup_numbersFrom (by omega), fun hz => ?_⟩
    have hmem := (mem_numbersFrom_iff hs (by omega)).1 hz
    omega

theorem numbersFrom_succ (start : PageNo) (n : Nat) :
    numbersFrom start (n + 1) = numbersFrom start n ++ [pageNoSub start n] := by
  unfold numbersFrom
  rw [range_succ, map_append, map_singleton]

theorem numbersFrom_one {start : PageNo} (hs : start < 2 ^ 32) : numbersFrom start 1 = [start] := by
  rw [numbersFrom_succ, pageNoSub_zero hs]
  rfl

/-! ## The numbers of a build -/

section Build

variable {env : TatEnv}

/-- The wiring hands out no numbers and adds no index pages. -/
structure KeepsNumbers (wiring : Wiring) : Prop where
  nextNo : ∀ {parentOf s s'}, wiring parentOf s = .ok s' → s'.nextNo = s.nextNo
  levels : ∀ {parentOf s s'}, wiring parentOf s = .ok s' → s'.levels = s.levels
  pages : ∀ {parentOf s s'}, wiring parentOf s = .ok s' →
    ∀ no ∈ s'.indexPages, no ∈ s.indexPages

variable {parentOf : PageNo → Except String PageNo} {s s' : TatState}

variable {sampledOf : PageNo → Except String (List PageNo)}

theorem wireIndexPages_mem {nos : List PageNo} {m m' : IndexPageMap}
    (h : wireIndexPages env parentOf sampledOf nos m = .ok m') : ∀ no ∈ m', no ∈ m := by
  induction nos generalizing m with
  | nil =>
    cases h
    exact fun _ h => h
  | cons k nos ih =>
    obtain ⟨page, hpage, h⟩ := bind_eq_ok.1 h
    obtain ⟨parent, -, h⟩ := bind_eq_ok.1 h
    obtain ⟨sampled, -, h⟩ := bind_eq_ok.1 h
    have hk : k ∈ m := by
      unfold indexPageAt at hpage
      split at hpage
      · rename_i hl
        exact lookup_isSome.1 (by rw [hl]; rfl)
      · cases hpage
    intro no hno
    rcases (mem_insert m).1 (ih h no hno) with rfl | hm
    · exact hk
    · exact hm

variable {wiring : Wiring} {start : PageNo} {pages : List (PageNo × IndexPage)}

theorem keepsNumbers_of_cases
    (h : ∀ parentOf s s', wiring parentOf s = .ok s' → s'.nextNo = s.nextNo ∧
      s'.levels = s.levels ∧ ∀ no ∈ s'.indexPages, no ∈ s.indexPages) : KeepsNumbers wiring :=
  ⟨fun hw => (h _ _ _ hw).1, fun hw => (h _ _ _ hw).2.1, fun hw => (h _ _ _ hw).2.2⟩

theorem keepsNumbers_leaves
    (h : (do let leaves ← wireLeaves env parentOf s.sparse s.leaves
             return { s with leaves := leaves }) = Except.ok s') :
    s'.nextNo = s.nextNo ∧ s'.levels = s.levels ∧ ∀ no ∈ s'.indexPages, no ∈ s.indexPages := by
  obtain ⟨leaves, -, h⟩ := bind_eq_ok.1 h
  cases h
  exact ⟨rfl, rfl, fun _ h => h⟩

theorem keepsNumbers_index {nos : List PageNo}
    (h : (do let m ← wireIndexPages env parentOf sampledOf nos s.indexPages
             return { s with indexPages := m }) = Except.ok s') :
    s'.nextNo = s.nextNo ∧ s'.levels = s.levels ∧ ∀ no ∈ s'.indexPages, no ∈ s.indexPages := by
  obtain ⟨m, hm, h⟩ := bind_eq_ok.1 h
  cases h
  exact ⟨rfl, rfl, wireIndexPages_mem hm⟩

theorem keepsNumbers_csrWiring : KeepsNumbers (csrWiring env) := by
  refine keepsNumbers_of_cases fun parentOf s s' h => ?_
  unfold csrWiring at h
  split at h
  · exact keepsNumbers_leaves h
  · exact keepsNumbers_index h

theorem keepsNumbers_csrRootWiring : KeepsNumbers (csrRootWiring env) := by
  refine keepsNumbers_of_cases fun parentOf s s' h => ?_
  unfold csrRootWiring at h
  split at h
  · exact keepsNumbers_leaves h
  · exact keepsNumbers_index h

theorem keepsNumbers_rootsWiring (roots : List PageNo) : KeepsNumbers (rootsWiring env roots) :=
  keepsNumbers_of_cases fun _ _ _ h => keepsNumbers_index h

/-- One page for each part, numbered from `i` on. -/
theorem buildParts_numbers {graph : BlockAdjMap} {all parts : List (List PageNo)} {i : Nat}
    {edges : List (PageNo × PageNo)}
    (h : buildParts env graph all start i parts = .ok (pages, edges)) :
    pages.map Prod.fst = (range' i parts.length).map (pageNoSub start) := by
  induction parts generalizing i pages edges with
  | nil =>
    cases h
    rfl
  | cons part parts ih =>
    obtain ⟨page, -, h⟩ := bind_eq_ok.1 h
    obtain ⟨mine, -, h⟩ := bind_eq_ok.1 h
    obtain ⟨⟨pages', more⟩, hrest, h⟩ := bind_eq_ok.1 h
    cases h
    rw [map_cons, ih hrest]
    rfl

theorem mem_insertAll {m : IndexPageMap} {no : PageNo}
    (h : no ∈ pages.foldl (fun m e => m.insert e.1 e.2) m) : no ∈ m ∨ no ∈ pages.map Prod.fst := by
  induction pages generalizing m with
  | nil => exact .inl h
  | cons e pages ih =>
    rw [map_cons, mem_cons]
    rcases ih h with hm | hp
    · rcases (mem_insert m).1 hm with he | hm
      · exact .inr (.inl he)
      · exact .inl hm
    · exact .inr (.inr hp)

/-- What a construction does with the numbers: it hands out `k` of them, and new index pages have
numbers that it handed out. -/
structure HandsOut (start next : PageNo) (m m' : IndexPageMap) (k : Nat) : Prop where
  next : next = pageNoSub start k
  pages : ∀ no ∈ m', no ∈ m ∨ no ∈ numbersFrom start k

theorem HandsOut.refl (hs : start < 2 ^ 32) (m : IndexPageMap) :
    HandsOut start start m m 0 := ⟨(pageNoSub_zero hs).symm, fun _ h => .inl h⟩

theorem HandsOut.trans {start next next' : PageNo} {m m' m'' : IndexPageMap} {k k' : Nat}
    (h : HandsOut start next m m' k) (h' : HandsOut next next' m' m'' k') :
    HandsOut start next' m m'' (k + k') := by
  refine ⟨?_, fun no hno => ?_⟩
  · rw [h'.next, h.next, pageNoSub_add]
  · rw [numbersFrom_add, mem_append, ← h.next]
    rcases h'.pages no hno with hm | hn
    · rcases h.pages no hm with hm | hn
      · exact .inl hm
      · exact .inr (.inl hn)
    · exact .inr (.inr hn)

theorem levelStep_numbers (hw : KeepsNumbers wiring) (h : levelStep env wiring s = .ok s') :
    HandsOut s.nextNo s'.nextNo s.indexPages s'.indexPages (env.parts s.graph).length ∧
      s'.levels = s.levels ++ [numbersFrom s.nextNo (env.parts s.graph).length] := by
  obtain ⟨parts, hparts, h⟩ := bind_eq_ok.1 h
  obtain ⟨-, rfl⟩ := absoluteWeightBlockPartition_ok hparts
  obtain ⟨s1, h1, h⟩ := bind_eq_ok.1 h
  obtain ⟨⟨pages, edges⟩, h2, h⟩ := bind_eq_ok.1 h
  cases h
  have hnums : pages.map Prod.fst = numbersFrom s.nextNo (env.parts s.graph).length := by
    rw [buildParts_numbers h2, ← range_eq_range']
    rfl
  refine ⟨⟨rfl, fun no hno => ?_⟩, ?_⟩
  · rcases mem_insertAll hno with hm | hp
    · exact .inl (hw.pages h1 no hm)
    · exact .inr (hnums ▸ hp)
  · show s.levels ++ [pages.map Prod.fst] = _
    rw [hnums]

variable {r : TatResult}

theorem buildRoot_numbers (hw : KeepsNumbers wiring) {s : TatState} (hs : s.nextNo < 2 ^ 32)
    (h : buildRoot env wiring s = .ok r) :
    HandsOut s.nextNo r.nextIndexPageNo s.indexPages r.indexPages 1 ∧
      r.levels = s.levels ++ [numbersFrom s.nextNo 1] := by
  obtain ⟨root, -, h⟩ := bind_eq_ok.1 h
  obtain ⟨s1, h1, h⟩ := bind_eq_ok.1 h
  have hno := hw.nextNo h1
  have hlev := hw.levels h1
  cases h
  rw [numbersFrom_one hs]
  refine ⟨⟨by rw [hno], fun no hm => ?_⟩, by rw [hno, hlev]⟩
  rw [numbersFrom_one hs, mem_singleton]
  rcases (mem_insert s.indexPages).1 (hw.pages h1 no hm) with he | hm
  · exact .inr he
  · exact .inl hm

variable {fuel : Nat} {nbrs : VId → List VId}

/-- A tree takes consecutive numbers, and more than one only when its blocks do not fit a page. -/
theorem buildTree_numbers {wiring rootWiring : Wiring} (hw : KeepsNumbers wiring)
    (hr : KeepsNumbers rootWiring) {s : TatState} (hs : s.nextNo < 2 ^ 32)
    (h : buildTree env wiring rootWiring fuel s = some (.ok r)) :
    ∃ k, HandsOut s.nextNo r.nextIndexPageNo s.indexPages r.indexPages (k + 1) ∧
      r.levels.flatten = s.levels.flatten ++ numbersFrom s.nextNo (k + 1) ∧
      (k = 0 ↔ s.graph.keys.length ≤ env.cfg.maxBlocks) := by
  revert hs
  refine buildTree_induct s h (fun s hfit hroot hs => ?_) fun s s' hcap hstep ih hs => ?_
  · obtain ⟨hout, hlev⟩ := buildRoot_numbers hr hs hroot
    refine ⟨0, hout, ?_, iff_of_true rfl hfit⟩
    rw [hlev, flatten_append, flatten_singleton]
  · obtain ⟨hout, hlev⟩ := levelStep_numbers hw hstep
    obtain ⟨k, hout', hlev', -⟩ := ih (hout.next ▸ pageNoSub_lt _ _)
    have hpos : 0 < (env.parts s.graph).length := by
      obtain ⟨no, hno⟩ := exists_mem_of_length_pos (zero_lt_of_lt hcap)
      obtain ⟨part, hpart, -⟩ :=
        mem_flatten.1 ((mem_parts_flatten env).2 (mem_keys.2 hno))
      exact length_pos_of_mem hpart
    refine ⟨(env.parts s.graph).length + k, hout.trans hout', ?_, ?_⟩
    · rw [hlev', hlev, flatten_append, flatten_singleton, append_assoc,
        hout.next, ← numbersFrom_add, Nat.add_assoc]
    · omega

variable {loc : VId → PageNo}

/-- `build_tat_from_csr_pages`. -/
theorem buildTatFromCsrPages_numbers {pages : List LeafPage} (hs : start < 2 ^ 32)
    (h : buildTatFromCsrPages env nbrs loc fuel pages start = some (.ok r)) :
    ∃ k, HandsOut start r.nextIndexPageNo ∅ r.indexPages (k + 1) ∧
      r.levels.flatten = numbersFrom start (k + 1) ∧
      (k = 0 ↔ (leafGraph nbrs loc pages).keys.length ≤ env.cfg.maxBlocks) :=
  buildTree_numbers keepsNumbers_csrWiring keepsNumbers_csrRootWiring hs h

/-- The numbers of the small trees. -/
def Forest.numbers (f : Forest) : List PageNo := f.trees.flatMap fun r => r.levels.flatten

variable {groups : List (List LeafPage)}

theorem buildForest_numbers {f f' : Forest} (hs : f.nextNo < 2 ^ 32)
    (h : buildForest env nbrs loc fuel groups f = some (.ok f')) :
    ∃ k, HandsOut f.nextNo f'.nextNo f.indexPages f'.indexPages k ∧
      f'.numbers = f.numbers ++ numbersFrom f.nextNo k := by
  induction groups generalizing f with
  | nil =>
    cases h
    exact ⟨0, .refl hs _, (append_nil _).symm⟩
  | cons pages rest ih =>
    obtain ⟨-, h⟩ | ⟨-, r, hr, h⟩ := buildForest_cons h
    · exact ih hs h
    · obtain ⟨k, hout, hlev, -⟩ := buildTatFromCsrPages_numbers hs hr
      have hadd : HandsOut f.nextNo (f.add r).nextNo f.indexPages (f.add r).indexPages
          (k + 1) := by
        refine ⟨hout.next, fun no hno => ?_⟩
        rcases mem_union.1 hno with hm | hm
        · rcases hout.pages no hm with he | hn
          · exact absurd he (notMem_empty no)
          · exact .inr hn
        · exact .inl hm
      have hnums : (f.add r).numbers = f.numbers ++ numbersFrom f.nextNo (k + 1) := by
        rw [← hlev]
        simp [Forest.numbers, Forest.add]
      obtain ⟨k', hout', hnums'⟩ := ih (hadd.next ▸ pageNoSub_lt _ _) h
      refine ⟨k + 1 + k', hadd.trans hout', ?_⟩
      rw [hnums', hnums, append_assoc, hadd.next, ← numbersFrom_add]

/-- The numbers of all index pages of a tree, in the order they were handed out. -/
def TatTree.numbers (t : TatTree) : List PageNo :=
  (t.trees.flatMap fun r => r.levels.flatten) ++ t.top.levels.flatten

/-- The third phase of `build_reorder_tat_db`; without CSR pages there is a root and no more. -/
theorem buildHierarchicalTat_numbers {t : TatTree} (hs : start < 2 ^ 32)
    (h : buildHierarchicalTat env nbrs loc fuel groups start = some (.ok t)) :
    ∃ k, HandsOut start (pageNoSub start (k + 1)) ∅ t.indexPages (k + 1) ∧
      t.numbers = numbersFrom start (k + 1) ∧ (groups.flatten = [] → k = 0) := by
  obtain ⟨f, r, hf, hr, rfl⟩ := buildHierarchicalTat_ok h
  obtain ⟨k, hout, hnums⟩ := buildForest_numbers hs hf
  have hf32 : f.nextNo < 2 ^ 32 := by
    have hnext : f.nextNo = pageNoSub start k := hout.next
    exact hnext ▸ pageNoSub_lt _ _
  obtain ⟨k', hout', hlev, hzero⟩ :=
    buildTree_numbers (keepsNumbers_rootsWiring _) (keepsNumbers_rootsWiring _) hf32 hr
  have hboth := hout.trans hout'
  refine ⟨k + k', ⟨rfl, hboth.pages⟩, ?_, fun hnil => ?_⟩
  · show f.numbers ++ r.levels.flatten = _
    have hl : r.levels.flatten = numbersFrom f.nextNo (k' + 1) := hlev
    have hn : f.numbers = numbersFrom start k := hnums
    have hnext : f.nextNo = pageNoSub start k := hout.next
    rw [hl, hn, hnext, ← numbersFrom_add, Nat.add_assoc]
  · -- no small tree is built, and the root has no blocks
    rw [buildForest_empty (flatten_eq_nil_iff.1 hnil)] at hf
    cases hf
    have hk : (numbersFrom start k).length = 0 := by
      rw [← show Forest.numbers ⟨∅, [], start, []⟩ = numbersFrom start k from hnums]
      rfl
    rw [length_numbersFrom] at hk
    have hk' : k' = 0 := hzero.2 (Nat.zero_le _)
    omega

end Build

/-! ## The numbers of an open database -/

deriving instance DecidableEq for DiskManager

/-- What matters for the numbers: the disk manager, the live CSR pages, whether `smo_ctl_t` knows
the index, its `next_index_page_no_`, and the index numbers handed out so far with the first one. -/
structure PageNumbers where
  manager : DiskManager
  live : List PageNo
  wired : Bool
  nextIndexPageNo : PageNo
  first : PageNo
  given : List PageNo
  deriving DecidableEq

/-- What happens to them: a page is allocated for a consolidation, its old page is replaced, a
replaced page is recycled, a page is written, and a split of an index page takes a number. -/
inductive NumberEvent where
  | allocate
  | replace (p : PageNo)
  | recycle (p : PageNo)
  | write (p : PageNo)
  | fetch
  deriving Repr

namespace PageNumbers

/-- The number of the next page, narrowed to `page_no_t`. -/
def allocateNo (n : PageNumbers) : PageNo := n.manager.allocatePageNo % 2 ^ 32

/-- One step. -/
inductive Step (n : PageNumbers) : NumberEvent → PageNumbers → Prop
  | allocate : Step n .allocate
      { n with manager := n.manager.afterAllocate, live := n.live ++ [n.allocateNo] }
  | replace (p : PageNo) : Step n (.replace p) { n with live := n.live.erase p }
  | recycle (p : PageNo) : Step n (.recycle p) { n with manager := n.manager.deletePage p }
  | write (p : PageNo) : Step n (.write p) { n with manager := n.manager.noteWrite p }
  | fetch (hw : n.wired = true) : Step n .fetch
      { n with
        nextIndexPageNo := pageNoSub n.nextIndexPageNo 1
        given := n.given ++ [n.nextIndexPageNo] }

/-- The index numbers are distinct, not 0, and not those of live CSR pages. -/
structure Apart (n : PageNumbers) : Prop where
  nodup : n.given.Nodup
  zero : 0 ∉ n.given
  live : ∀ p ∈ n.live, p ∉ n.given

/-- The number lies outside the index numbers: below the last or above the first. -/
def Outside (n : PageNumbers) (p : PageNo) : Prop :=
  p + n.given.length ≤ n.first ∨ n.first < p

/-- The condition on a step: an allocated number lies outside the index numbers, and a split takes
neither 0 nor the number of a live page. -/
def Free (n : PageNumbers) : NumberEvent → Prop
  | .allocate => n.Outside n.allocateNo
  | .fetch => n.nextIndexPageNo ≠ 0 ∧ n.nextIndexPageNo ∉ n.live
  | _ => True

/-- The index numbers were counted down from the first one. -/
structure Counted (n : PageNumbers) : Prop where
  first : n.first < 2 ^ 32
  given : n.given = numbersFrom n.first n.given.length
  next : n.wired = true → n.nextIndexPageNo = pageNoSub n.first n.given.length

variable {n n' : PageNumbers}

/-- Numbers that are counted down are distinct and not 0 as long as there are enough below. -/
theorem Counted.proper_iff (h : n.Counted) :
    n.given.Nodup ∧ 0 ∉ n.given ↔ n.given.length ≤ n.first := by
  rw [h.given, length_numbersFrom]
  exact numbersFrom_proper_iff h.first

theorem Counted.outside_iff (h : n.Counted) (hlen : n.given.length ≤ n.first) {p : PageNo} :
    n.Outside p ↔ p ∉ n.given := by
  have hmem := @mem_numbersFrom_iff n.first n.given.length p h.first (le_succ_of_le hlen)
  rw [h.given, hmem]
  unfold Outside
  constructor
  · rintro (h1 | h1) ⟨h2, h3⟩
    · exact absurd h3 (Nat.not_lt.2 h1)
    · exact absurd h1 (Nat.not_lt.2 h2)
  · intro hn
    by_contra hc
    rw [not_or] at hc
    exact hn ⟨Nat.le_of_not_lt hc.2, Nat.lt_of_not_le hc.1⟩

theorem Counted.apart_iff (h : n.Counted) :
    n.Apart ↔ n.given.length ≤ n.first ∧ ∀ p ∈ n.live, n.Outside p := by
  constructor
  · intro ha
    have hlen := h.proper_iff.1 ⟨ha.nodup, ha.zero⟩
    exact ⟨hlen, fun p hp => (h.outside_iff hlen).2 (ha.live p hp)⟩
  · rintro ⟨hlen, hout⟩
    obtain ⟨hnd, hz⟩ := h.proper_iff.2 hlen
    exact ⟨hnd, hz, fun p hp => (h.outside_iff hlen).1 (hout p hp)⟩

variable {e : NumberEvent}

theorem Counted.step (h : n.Counted) (hs : n.Step e n') : n'.Counted := by
  cases hs with
  | allocate => exact ⟨h.first, h.given, h.next⟩
  | replace p => exact ⟨h.first, h.given, h.next⟩
  | recycle p => exact ⟨h.first, h.given, h.next⟩
  | write p => exact ⟨h.first, h.given, h.next⟩
  | fetch hw =>
    have hlen : (n.given ++ [n.nextIndexPageNo]).length = n.given.length + 1 := length_append
    refine ⟨h.first, ?_, fun _ => ?_⟩
    · show n.given ++ [n.nextIndexPageNo] = numbersFrom n.first _
      rw [hlen, numbersFrom_succ, ← h.given, h.next hw]
    · show pageNoSub n.nextIndexPageNo 1 = pageNoSub n.first _
      rw [hlen, h.next hw, pageNoSub_add]

/-- From numbers that are apart, a step leads to numbers that are apart exactly with the condition
met. -/
theorem Counted.step_apart_iff (h : n.Counted) (ha : n.Apart) (hs : n.Step e n') :
    n'.Apart ↔ n.Free e := by
  obtain ⟨hlen, hout⟩ := h.apart_iff.1 ha
  cases hs with
  | allocate =>
    constructor
    · intro ha'
      exact (h.outside_iff hlen).2 (ha'.live _ (mem_append_right _ (mem_singleton_self _)))
    · intro hfree
      refine ⟨ha.nodup, ha.zero, fun p hp => ?_⟩
      rcases mem_append.1 hp with hp | hp
      · exact ha.live p hp
      · rw [mem_singleton.1 hp]
        exact (h.outside_iff hlen).1 hfree
  | replace p =>
    exact iff_of_true ⟨ha.nodup, ha.zero, fun q hq => ha.live q (mem_of_mem_erase hq)⟩ trivial
  | recycle p => exact iff_of_true ⟨ha.nodup, ha.zero, ha.live⟩ trivial
  | write p => exact iff_of_true ⟨ha.nodup, ha.zero, ha.live⟩ trivial
  | fetch hw =>
    have hlast : n.nextIndexPageNo ∈ n.given ++ [n.nextIndexPageNo] :=
      mem_append_right _ (mem_singleton_self _)
    constructor
    · exact fun ha' => ⟨fun hz => ha'.zero (hz ▸ hlast), fun hl => ha'.live _ hl hlast⟩
    · rintro ⟨hz, hl⟩
      -- the counter has not reached 0, so the number below it is new
      have hnext := h.next hw
      have hlt : n.given.length < n.first := by
        refine Nat.lt_of_le_of_ne hlen fun he => hz ?_
        rw [hnext, he, pageNoSub_of_le h.first (Nat.le_refl _), Nat.sub_self]
      have hcount := h.step (Step.fetch hw)
      obtain ⟨hnd, hz'⟩ := hcount.proper_iff.2 (by
        show (n.given ++ [n.nextIndexPageNo]).length ≤ n.first
        rw [length_append]
        exact hlt)
      refine ⟨hnd, hz', fun p hp hmem => ?_⟩
      rcases mem_append.1 hmem with hm | hm
      · exact ha.live p hp hm
      · rw [mem_singleton.1 hm] at hp
        exact hl hp

end PageNumbers

/-! ## Builds -/

/-- A build of an index tree, by `build_tat_hierarchy` over all pages or by `build_reorder_tat_db`
over groups of pages. -/
inductive IndexBuild where
  | hierarchy (nbrs : VId → List VId) (loc : VId → PageNo) (leaves : List LeafPage)
  | reorder (nbrs : VId → List VId) (loc : VId → PageNo) (groups : List (List LeafPage))

namespace IndexBuild

/-- The CSR pages. -/
def leaves : IndexBuild → List LeafPage
  | .hierarchy _ _ leaves => leaves
  | .reorder _ _ groups => groups.flatten

/-- The first index number. -/
def first : IndexBuild → PageNo
  | .hierarchy _ _ leaves => startPageNo leaves
  | .reorder _ _ _ => 2 ^ 32 - 1

/-- The numbers after `build_tat_hierarchy`, which calls `set_index_page_map`. -/
def afterHierarchy (manager : DiskManager) (leaves : List LeafPage) (r : TatResult) : PageNumbers :=
  ⟨manager, leaves.map LeafPage.pageNo, true, r.nextIndexPageNo, startPageNo leaves,
    r.levels.flatten⟩

/-- The numbers after `build_reorder_tat_db`, which does not. -/
def afterReorder (manager : DiskManager) (groups : List (List LeafPage)) (t : TatTree) :
    PageNumbers :=
  ⟨manager, groups.flatten.map LeafPage.pageNo, false, 0, 2 ^ 32 - 1, t.numbers⟩

/-- The numbers of the database after the build. -/
def run (env : TatEnv) (fuel : Nat) (manager : DiskManager) :
    IndexBuild → Option (Except String PageNumbers)
  | .hierarchy nbrs loc leaves =>
    match buildTatFromCsrPages env nbrs loc fuel leaves (startPageNo leaves) with
    | none => none
    | some (.error e) => some (.error e)
    | some (.ok r) => some (.ok (afterHierarchy manager leaves r))
  | .reorder nbrs loc groups =>
    match buildHierarchicalTat env nbrs loc fuel groups (2 ^ 32 - 1) with
    | none => none
    | some (.error e) => some (.error e)
    | some (.ok t) => some (.ok (afterReorder manager groups t))

/-- The condition on the build: `build_tat_hierarchy` needs one index page, and a number above the
CSR pages; the numbers of `build_reorder_tat_db` stay above the CSR pages. -/
def Fits (env : TatEnv) (n : PageNumbers) : IndexBuild → Prop
  | .hierarchy nbrs loc leaves => (leafGraph nbrs loc leaves).keys.length ≤ env.cfg.maxBlocks ∧
      (leaves.map LeafPage.pageNo).foldl max 0 + 1 < 2 ^ 32
  | .reorder _ _ _ => ∀ p ∈ n.live, p + n.given.length < 2 ^ 32

variable {env : TatEnv} {fuel : Nat} {manager : DiskManager} {b : IndexBuild} {n : PageNumbers}

variable {nbrs : VId → List VId} {groups : List (List LeafPage)}

section

variable {loc : VId → PageNo}

variable {leaves : List LeafPage}

theorem run_hierarchy (h : (hierarchy nbrs loc leaves).run env fuel manager = some (.ok n)) :
    ∃ r, buildTatFromCsrPages env nbrs loc fuel leaves (startPageNo leaves) = some (.ok r) ∧
      n = afterHierarchy manager leaves r := by
  rw [run] at h
  split at h
  · cases h
  · cases h
  · rename_i r hr
    cases h
    exact ⟨r, hr, rfl⟩

theorem run_reorder (h : (reorder nbrs loc groups).run env fuel manager = some (.ok n)) :
    ∃ t, buildHierarchicalTat env nbrs loc fuel groups (2 ^ 32 - 1) = some (.ok t) ∧
      n = afterReorder manager groups t := by
  rw [run] at h
  split at h
  · cases h
  · cases h
  · rename_i t ht
    cases h
    exact ⟨t, ht, rfl⟩

theorem startPageNo_lt (leaves : List LeafPage) : startPageNo leaves < 2 ^ 32 :=
  mod_lt _ (Nat.two_pow_pos 32)

variable {k : Nat} {live : List Nat}

theorem counted_afterHierarchy {r : TatResult}
    (hnext : r.nextIndexPageNo = pageNoSub (startPageNo leaves) k)
    (hnums : r.levels.flatten = numbersFrom (startPageNo leaves) k) :
    (afterHierarchy manager leaves r).Counted := by
  have hlen : r.levels.flatten.length = k := by rw [hnums, length_numbersFrom]
  refine ⟨startPageNo_lt leaves, ?_, fun _ => ?_⟩
  · show r.levels.flatten = numbersFrom (startPageNo leaves) r.levels.flatten.length
    rw [hlen, hnums]
  · show r.nextIndexPageNo = pageNoSub (startPageNo leaves) r.levels.flatten.length
    rw [hlen, hnext]

theorem counted_afterReorder {t : TatTree} (hnums : t.numbers = numbersFrom (2 ^ 32 - 1) k) :
    (afterReorder manager groups t).Counted := by
  have hfirst : 2 ^ 32 - 1 < 2 ^ 32 := by decide
  refine ⟨hfirst, ?_, fun hw => by cases hw⟩
  show t.numbers = numbersFrom (2 ^ 32 - 1) t.numbers.length
  rw [hnums, length_numbersFrom]

/-- The numbers after a build were counted down. -/
theorem run_counted (h : b.run env fuel manager = some (.ok n)) : n.Counted := by
  cases b with
  | hierarchy nbrs loc leaves =>
    obtain ⟨r, hr, rfl⟩ := run_hierarchy h
    obtain ⟨k, hout, hnums, -⟩ := buildTatFromCsrPages_numbers (startPageNo_lt leaves) hr
    exact counted_afterHierarchy hout.next hnums
  | reorder nbrs loc groups =>
    obtain ⟨t, ht, rfl⟩ := run_reorder h
    obtain ⟨k, -, hnums, -⟩ := buildHierarchicalTat_numbers (by decide) ht
    exact counted_afterReorder hnums

theorem mem_foldl_max (l : List Nat) : l.foldl max 0 ∈ 0 :: l ∧ ∀ x ∈ 0 :: l, x ≤ l.foldl max 0 :=
  max?_eq_some_iff.1 max?_cons'

/-- Numbers from right above some others: a second one would be the largest of them. -/
theorem above_iff {top k : Nat} (hle : ∀ p ∈ live, p ≤ top) (hmem : top = 0 ∨ top ∈ live)
    (hlt : top < 2 ^ 32) :
    (k + 1 ≤ (top + 1) % 2 ^ 32 ∧
      ∀ p ∈ live, p + (k + 1) ≤ (top + 1) % 2 ^ 32 ∨ (top + 1) % 2 ^ 32 < p) ↔
      k = 0 ∧ top + 1 < 2 ^ 32 := by
  constructor
  · rintro ⟨hbelow, hout⟩
    have hsmall : top + 1 < 2 ^ 32 := by
      by_contra hc
      have htop : top + 1 = 2 ^ 32 := by omega
      rw [htop, mod_self] at hbelow
      omega
    rw [mod_eq_of_lt hsmall] at hbelow hout
    refine ⟨?_, hsmall⟩
    rcases hmem with rfl | hmem
    · omega
    · have htop := hout top hmem
      omega
  · rintro ⟨rfl, hsmall⟩
    rw [mod_eq_of_lt hsmall]
    exact ⟨by omega, fun p hp => .inl (succ_le_succ (hle p hp))⟩

/-- Numbers from the largest one down. -/
theorem downTo_iff (hlt : ∀ p ∈ live, p < 2 ^ 32) (hnil : live = [] → k = 0) :
    (k + 1 ≤ 2 ^ 32 - 1 ∧ ∀ p ∈ live, p + (k + 1) ≤ 2 ^ 32 - 1 ∨ 2 ^ 32 - 1 < p) ↔
      ∀ p ∈ live, p + (k + 1) < 2 ^ 32 := by
  constructor
  · rintro ⟨-, hout⟩ p hp
    have h1 := hout p hp
    have h2 := hlt p hp
    omega
  · intro hout
    refine ⟨?_, fun p hp => .inl ?_⟩
    · rcases live with _ | ⟨q, rest⟩
      · rw [hnil rfl]
        decide
      · have hq := hout q mem_cons_self
        omega
    · have h1 := hout p hp
      omega

theorem pageNos_lt (hpages : ∀ p ∈ leaves, p.pageNo < 2 ^ 32) :
    ∀ p ∈ leaves.map LeafPage.pageNo, p < 2 ^ 32 := by
  intro p hp
  obtain ⟨q, hq, rfl⟩ := mem_map.1 hp
  exact hpages q hq

/-- `build_tat_hierarchy` needs a tree of one page, and a number above the CSR pages. -/
theorem hierarchy_apart_iff (hpages : ∀ p ∈ leaves, p.pageNo < 2 ^ 32)
    (h : (hierarchy nbrs loc leaves).run env fuel manager = some (.ok n)) :
    n.Apart ↔ (hierarchy nbrs loc leaves).Fits env n := by
  have hcount := run_counted h
  obtain ⟨r, hr, rfl⟩ := run_hierarchy h
  obtain ⟨k, -, hnums, hk⟩ := buildTatFromCsrPages_numbers (startPageNo_lt leaves) hr
  have hlen : (afterHierarchy manager leaves r).given.length = k + 1 := by
    show r.levels.flatten.length = k + 1
    rw [hnums, length_numbersFrom]
  obtain ⟨hmem, hle⟩ := mem_foldl_max (leaves.map LeafPage.pageNo)
  have hlt : (leaves.map LeafPage.pageNo).foldl max 0 < 2 ^ 32 := by
    rcases mem_cons.1 hmem with h0 | hmem
    · rw [h0]
      exact Nat.two_pow_pos 32
    · exact pageNos_lt hpages _ hmem
  rw [hcount.apart_iff]
  unfold PageNumbers.Outside
  rw [Fits, hlen, ← hk]
  exact above_iff (fun p hp => hle p (mem_cons_of_mem 0 hp)) (mem_cons.1 hmem) hlt

/-- The numbers of `build_reorder_tat_db` have to stay above the CSR pages. -/
theorem reorder_apart_iff (hpages : ∀ p ∈ groups.flatten, p.pageNo < 2 ^ 32)
    (h : (reorder nbrs loc groups).run env fuel manager = some (.ok n)) :
    n.Apart ↔ (reorder nbrs loc groups).Fits env n := by
  have hcount := run_counted h
  obtain ⟨t, ht, rfl⟩ := run_reorder h
  obtain ⟨k, -, hnums, hk⟩ := buildHierarchicalTat_numbers (by decide) ht
  have hlen : (afterReorder manager groups t).given.length = k + 1 := by
    show t.numbers.length = k + 1
    rw [hnums, length_numbersFrom]
  rw [hcount.apart_iff]
  unfold PageNumbers.Outside
  rw [Fits, hlen]
  exact downTo_iff (pageNos_lt hpages) fun hnil => hk (map_eq_nil_iff.1 hnil)

end

theorem run_apart_iff (hpages : ∀ p ∈ b.leaves, p.pageNo < 2 ^ 32)
    (h : b.run env fuel manager = some (.ok n)) : n.Apart ↔ b.Fits env n := by
  cases b with
  | hierarchy nbrs loc leaves => exact hierarchy_apart_iff hpages h
  | reorder nbrs loc groups => exact reorder_apart_iff hpages h

end IndexBuild

/-! ## All runs -/

/-- After a build and in every state of a run, the index numbers are distinct, not 0 and not those
of live CSR pages exactly when the build and every step meet their conditions. -/
theorem pageNumbers_apart_iff {env : TatEnv} {fuel : Nat} {manager : DiskManager} {b : IndexBuild}
    {n n' : PageNumbers} {es : List NumberEvent} (hpages : ∀ p ∈ b.leaves, p.pageNo < 2 ^ 32)
    (h : b.run env fuel manager = some (.ok n)) :
    (n.Apart ∧ Steps (fun n e n' => n.Step e n' ∧ n'.Apart) n es n') ↔
      b.Fits env n ∧ Steps (guarded PageNumbers.Free PageNumbers.Step) n es n' := by
  rw [← IndexBuild.run_apart_iff hpages h]
  refine and_congr_right fun ha => ?_
  refine Steps.always_iff (I := fun n => n.Counted ∧ n.Apart) (fun n e n' hn hs => ?_)
    ⟨IndexBuild.run_counted h, ha⟩
  have hiff := hn.1.step_apart_iff hn.2 hs
  exact ⟨hiff.1, fun hfree => ⟨⟨hn.1.step hs, hiff.2 hfree⟩, hiff.2 hfree⟩⟩

/-- One CSR page, with number `p`. -/
def oneLeafBuild (p : PageNo) : IndexBuild := .hierarchy (fun _ => []) (fun _ => p) [onePage p]

/-- A file of six pages, of which page 2 is free. -/
def sixPages : DiskManager := ⟨16, 96, [32], 6, 6⟩

/-- A consolidation moves page 5 to page 2, and a split takes the number 5, right below the root. -/
theorem pageNumbers_apart_iff_six : ∃ n n' : PageNumbers,
    (oneLeafBuild 5).run pairsEnv 1 sixPages = some (.ok n) ∧
    n'.live = [2] ∧ n'.given = [6, 5] ∧
    Steps (guarded PageNumbers.Free PageNumbers.Step) n [.allocate, .replace 5, .fetch] n' ∧
    ((n.Apart ∧
        Steps (fun n e n' => n.Step e n' ∧ n'.Apart) n [.allocate, .replace 5, .fetch] n') ↔
      (oneLeafBuild 5).Fits pairsEnv n ∧
        Steps (guarded PageNumbers.Free PageNumbers.Step) n [.allocate, .replace 5, .fetch] n') := by
  have hrun : (oneLeafBuild 5).run pairsEnv 1 sixPages =
      some (.ok ⟨sixPages, [5], true, 5, 6, [6]⟩) := by
    decide +kernel
  have hpages : ∀ p ∈ (oneLeafBuild 5).leaves, p.pageNo < 2 ^ 32 := by
    decide
  refine ⟨_, ⟨sixPages.afterAllocate, [2], true, 4, 6, [6, 5]⟩, hrun, rfl, rfl, ?_,
    pageNumbers_apart_iff hpages hrun⟩
  exact .cons ⟨.inl (by decide), .allocate⟩ (.cons ⟨trivial, .replace 5⟩
    (.cons ⟨⟨by decide, by decide⟩, .fetch rfl⟩ .nil))

/-- A file of one page. -/
def singlePage : DiskManager := ⟨16, 16, [], 1, 1⟩

/-- The page after page 0 takes the number of the root. -/
theorem pageNumbers_meet : ¬ ∀ (env : TatEnv) (fuel : Nat) (manager : DiskManager) (b : IndexBuild)
    (n n' : PageNumbers) (es : List NumberEvent), (∀ p ∈ b.leaves, p.pageNo < 2 ^ 32) →
    b.run env fuel manager = some (.ok n) → Steps PageNumbers.Step n es n' →
    n'.given.Nodup ∧ 0 ∉ n'.given ∧ ∀ p ∈ n'.live, p ∉ n'.given := by
  intro h
  have hrun : (oneLeafBuild 0).run pairsEnv 1 singlePage =
      some (.ok ⟨singlePage, [0], true, 0, 1, [1]⟩) := by
    decide +kernel
  obtain ⟨-, -, hlive⟩ := h pairsEnv 1 singlePage (oneLeafBuild 0) _
    ⟨singlePage.afterAllocate, [0, 1], true, 0, 1, [1]⟩ [.allocate] (by decide) hrun
    (.cons .allocate .nil)
  exact hlive 1 (by decide) (by decide)

end BwGraph
