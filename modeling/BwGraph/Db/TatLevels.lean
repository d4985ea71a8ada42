import BwGraph.Db.Tat

/-
  What the construction of an index tree computes, level by level. `Levels env tight start graph
  stack` describes the levels over the blocks of `graph` without the code: the number and the
  blocks of every index page, bottom level first. It asks for what the code checks on the way
  (the parts fit an index page) and, when `tight` is set, that every part has an edge to another
  part.

  A construction that returns has built such levels (`buildTree_levels`), and tight levels are
  built (`buildTree_of_levels`): a part without an edge to another part is no block of the next
  map, so that its page is dropped or its lookup throws.
-/

namespace BwGraph

open AList IndexPage BlockAdjMap

open Except (bind_eq_ok)
open List

/-! ## Numbers -/

theorem pageNoSub_lt (start i : Nat) : pageNoSub start i < 2 ^ 32 :=
  Nat.mod_lt _ (by decide)

theorem pageNoSub_zero {start : Nat} (h : start < 2 ^ 32) : pageNoSub start 0 = start := by
  unfold pageNoSub
  omega

theorem pageNoSub_add (start i j : Nat) :
    pageNoSub (pageNoSub start i) j = pageNoSub start (i + j) := by
  unfold pageNoSub
  omega

theorem pageNoSub_inj {start i j : Nat} (hi : i < 2 ^ 32) (hj : j < 2 ^ 32)
    (h : pageNoSub start i = pageNoSub start j) : i = j := by
  unfold pageNoSub at h
  omega

/-- The first `n` numbers from `start` downwards. -/
def numbersFrom (start : PageNo) (n : Nat) : List PageNo := (List.range n).map (pageNoSub start)

theorem length_numbersFrom (start : PageNo) (n : Nat) : (numbersFrom start n).length = n := by
  simp [numbersFrom]

theorem numbersFrom_add (start : PageNo) (n k : Nat) :
    numbersFrom start (n + k) = numbersFrom start n ++ numbersFrom (pageNoSub start n) k := by
  unfold numbersFrom
  rw [range_add, map_append, map_map]
  congr 1
  refine map_congr_left fun i _ => ?_
  exact (pageNoSub_add start n i).symm

theorem nodup_numbersFrom {start : PageNo} {n : Nat} (hn : n ≤ 2 ^ 32) :
    (numbersFrom start n).Nodup := by
  refine List.Nodup.map_on (fun i hi j hj h => ?_) nodup_range
  rw [mem_range] at hi hj
  exact pageNoSub_inj (Nat.lt_of_lt_of_le hi hn) (Nat.lt_of_lt_of_le hj hn) h

/-! ## Levels -/

/-- The index pages of a level: number and blocks. -/
abbrev Level := List (PageNo × List PageNo)

/-- The numbers of a level. -/
def Level.numbers (lvl : Level) : List PageNo := lvl.map Prod.fst

/-- All numbers of some levels, in the order of their creation. -/
def stackNumbers (stack : List Level) : List PageNo := stack.flatten.map Prod.fst

/-- The part has an edge to another part. -/
def PartLinked (graph : BlockAdjMap) (part : List PageNo) : Prop :=
  ∃ b ∈ part, ∃ n ∈ getNeighborPages graph b, n ∉ part

section

variable (env : TatEnv)

/-- The parts of the blocks. -/
def TatEnv.parts (graph : BlockAdjMap) : List (List PageNo) :=
  env.partitioner.parts graph env.targetSize

/-- The index pages over the parts. -/
def levelOf (graph : BlockAdjMap) (start : PageNo) : Level :=
  (env.parts graph).zipIdx.map fun x =>
    (pageNoSub start x.2, env.ho.order (inducedBlockSubgraph graph x.1).keys)

/-- The edges from the blocks of part `x` to other parts. -/
def partEdges (graph : BlockAdjMap) (parts : List (List PageNo)) (start : PageNo)
    (x : List PageNo × Nat) : List (PageNo × PageNo) :=
  (x.1.flatMap (getNeighborPages graph)).filterMap fun n =>
    let no := pageNoSub start (parts.findIdx fun part => decide (n ∈ part))
    if no ≠ pageNoSub start x.2 then some (pageNoSub start x.2, no) else none

/-- The map of the next level. -/
def nextGraph (graph : BlockAdjMap) (start : PageNo) : BlockAdjMap :=
  BlockAdjMap.addEdges ∅ ((env.parts graph).zipIdx.flatMap
    (partEdges graph (env.parts graph) start))

/-- The levels over the blocks of a map, when the parts of every level fit. -/
inductive Levels (tight : Bool) : PageNo → BlockAdjMap → List Level → Prop
  | root {start : PageNo} {graph : BlockAdjMap} (h : graph.keys.length ≤ env.cfg.maxBlocks) :
      Levels tight start graph [[(start, env.ho.order graph.keys)]]
  | level {start : PageNo} {graph : BlockAdjMap} {rest : List Level}
      (hcap : env.cfg.maxBlocks < graph.keys.length) (hw : 0 < env.targetSize)
      (hfit : ∀ part ∈ env.parts graph, part.length ≤ env.cfg.maxBlocks)
      (hlinked : tight = true → ∀ part ∈ env.parts graph, PartLinked graph part)
      (h : Levels tight (pageNoSub start (env.parts graph).length) (nextGraph env graph start)
        rest) :
      Levels tight start graph (levelOf env graph start :: rest)

end

variable {env : TatEnv} {graph : BlockAdjMap} {start : PageNo} {stack : List Level}

variable {tight : Bool}

section

variable (h : Levels env tight start graph stack)
include h

theorem Levels.loose : Levels env false start graph stack := by
  induction h with
  | root h => exact .root h
  | level hcap hw hfit _ _ ih => exact .level hcap hw hfit (fun hf => by cases hf) ih

omit h in
/-- The levels over a map are determined. -/
theorem Levels.eq {tight tight' : Bool} {stack' : List Level}
    (h : Levels env tight start graph stack) (h' : Levels env tight' start graph stack') :
    stack' = stack := by
  induction h generalizing stack' with
  | root h =>
    cases h' with
    | root _ => rfl
    | level hcap _ _ _ _ => exact absurd h (Nat.not_le.2 hcap)
  | level hcap _ _ _ _ ih =>
    cases h' with
    | root h => exact absurd h (Nat.not_le.2 hcap)
    | level _ _ _ _ h' => rw [ih h']

omit h in
theorem numbers_levelOf (env : TatEnv) (graph : BlockAdjMap) (start : PageNo) :
    (levelOf env graph start).numbers = numbersFrom start (env.parts graph).length := by
  have hsnd : (env.parts graph).zipIdx.map Prod.snd = List.range (env.parts graph).length := by
    rw [zipIdx_map_snd, range_eq_range']
  unfold Level.numbers levelOf numbersFrom
  rw [map_map, ← hsnd, map_map]
  rfl

omit h in
theorem stackNumbers_cons (lvl : Level) (rest : List Level) :
    stackNumbers (lvl :: rest) = lvl.numbers ++ stackNumbers rest := by
  simp [stackNumbers, Level.numbers]

/-- The pages of a tree are numbered downwards from the start number. -/
theorem Levels.numbers (hs : start < 2 ^ 32) :
    stackNumbers stack = numbersFrom start (stackNumbers stack).length := by
  induction h with
  | @root start graph h =>
    have h1 : numbersFrom start 1 = [pageNoSub start 0] := rfl
    rw [show stackNumbers [[(start, env.ho.order graph.keys)]] = [start] from rfl,
      length_singleton, h1, pageNoSub_zero hs]
  | @level start graph rest _ _ _ _ _ ih =>
    rw [stackNumbers_cons, length_append, numbers_levelOf, length_numbersFrom,
      numbersFrom_add, ← ih (pageNoSub_lt _ _)]

/-- The last level is the root. -/
theorem Levels.top : ∃ below no bs, stack = below ++ [[(no, bs)]] := by
  induction h with
  | root h => exact ⟨[], _, _, rfl⟩
  | level _ _ _ _ _ ih =>
    obtain ⟨below, no, bs, rfl⟩ := ih
    exact ⟨_ :: below, no, bs, rfl⟩

end

/-! ## Parts -/

section Parts

variable {parts : List (List PageNo)}

theorem mem_zipIdx_parts {x : List PageNo × Nat} : x ∈ parts.zipIdx ↔ parts[x.2]? = some x.1 := by
  rw [mem_zipIdx_iff_getElem?]

variable {n : PageNo}

/-- In disjoint parts, a block is in one part. -/
theorem part_unique (hnd : parts.flatten.Nodup) {i j : Nat} {p q : List PageNo}
    (hp : parts[i]? = some p) (hq : parts[j]? = some q) (hn : n ∈ p) (hm : n ∈ q) : i = j := by
  obtain ⟨hi, rfl⟩ := List.getElem?_eq_some_iff.1 hp
  obtain ⟨hj, rfl⟩ := List.getElem?_eq_some_iff.1 hq
  have hpw := (List.nodup_flatten.1 hnd).2
  rw [List.pairwise_iff_getElem] at hpw
  rcases Nat.lt_trichotomy i j with hlt | heq | hlt
  · exact absurd hm ((hpw i j hi hj hlt) hn)
  · exact heq
  · exact absurd hn ((hpw j i hj hi hlt) hm)

theorem findIdx_part (hnd : parts.flatten.Nodup) {j : Nat} {q : List PageNo}
    (hq : parts[j]? = some q) (hn : n ∈ q) : (parts.findIdx fun part => decide (n ∈ part)) = j := by
  obtain ⟨hj, rfl⟩ := List.getElem?_eq_some_iff.1 hq
  have hlt : (parts.findIdx fun part => decide (n ∈ part)) < parts.length :=
    List.findIdx_lt_length_of_exists ⟨_, List.getElem_mem hj, by simpa using hn⟩
  have hmem : n ∈ parts[parts.findIdx fun part => decide (n ∈ part)] := by
    simpa using List.findIdx_getElem (w := hlt)
  exact part_unique hnd (List.getElem?_eq_getElem hlt) (List.getElem?_eq_getElem hj) hmem hn

theorem exists_part (hn : n ∈ parts.flatten) :
    ∃ (j : Nat) (q : List PageNo), parts[j]? = some q ∧ n ∈ q := by
  obtain ⟨q, hq, hn⟩ := mem_flatten.1 hn
  obtain ⟨j, hj⟩ := mem_iff_getElem?.1 hq
  exact ⟨j, q, hj, hn⟩

end Parts

theorem mem_parts_flatten (env : TatEnv) {graph : BlockAdjMap} {n : PageNo} :
    n ∈ (env.parts graph).flatten ↔ n ∈ graph :=
  (env.partitioner.cover graph env.targetSize).mem_iff

theorem nodup_parts (env : TatEnv) (graph : BlockAdjMap) : (env.parts graph).flatten.Nodup :=
  (env.partitioner.cover graph env.targetSize).nodup_iff.2 (keys_nodup graph)

variable {part : List PageNo}

theorem nodup_part (h : part ∈ env.parts graph) : part.Nodup :=
  (nodup_flatten.1 (nodup_parts env graph)).1 part h

theorem mem_partEdges {parts : List (List PageNo)} {x : List PageNo × Nat}
    {e : PageNo × PageNo} : e ∈ partEdges graph parts start x ↔
      ∃ b ∈ x.1, ∃ n ∈ getNeighborPages graph b,
        e = (pageNoSub start x.2, pageNoSub start (parts.findIdx fun part => decide (n ∈ part))) ∧
          e.2 ≠ e.1 := by
  unfold partEdges
  simp only [mem_filterMap, mem_flatMap, Option.ite_none_right_eq_some]
  constructor
  · rintro ⟨n, ⟨b, hb, hn⟩, hne, he⟩
    cases he
    exact ⟨b, hb, n, hn, rfl, hne⟩
  · rintro ⟨b, hb, n, hn, rfl, hne⟩
    exact ⟨n, ⟨b, hb, hn⟩, hne, rfl⟩

/-- The blocks of the next map are numbers of this level. -/
theorem mem_numbers_of_nextGraph (hc : graph.Closed) {k : PageNo}
    (hk : k ∈ nextGraph env graph start) : k ∈ numbersFrom start (env.parts graph).length := by
  have hnum : ∀ i, i < (env.parts graph).length →
      pageNoSub start i ∈ numbersFrom start (env.parts graph).length :=
    fun i hi => List.mem_map.2 ⟨i, List.mem_range.2 hi, rfl⟩
  unfold nextGraph at hk
  rw [mem_addEdges] at hk
  rcases hk with hk | ⟨e, he, hke⟩
  · exact absurd hk (notMem_empty k)
  · obtain ⟨x, hx, he⟩ := List.mem_flatMap.1 he
    obtain ⟨b, hb, n, hn, rfl, -⟩ := mem_partEdges.1 he
    rw [mem_zipIdx_parts] at hx
    rcases hke with rfl | rfl
    · exact hnum _ (List.getElem?_eq_some_iff.1 hx).1
    · obtain ⟨j, q, hq, hnq⟩ := exists_part ((mem_parts_flatten env).2 (hc.key _ _ hn))
      rw [findIdx_part (nodup_parts env graph) hq hnq]
      exact hnum _ (List.getElem?_eq_some_iff.1 hq).1

/-- A page is a block of the next map exactly when its part is linked. -/
theorem mem_nextGraph_iff (hc : graph.Closed) (hn32 : (env.parts graph).length ≤ 2 ^ 32) {i : Nat}
    (hi : (env.parts graph)[i]? = some part) :
    pageNoSub start i ∈ nextGraph env graph start ↔ PartLinked graph part := by
  have hnd := nodup_parts env graph
  have hlt : ∀ {j : Nat} {q : List PageNo}, (env.parts graph)[j]? = some q → j < 2 ^ 32 :=
    fun hq => Nat.lt_of_lt_of_le (List.getElem?_eq_some_iff.1 hq).1 hn32
  have hpart : ∀ {n : PageNo}, n ∈ graph →
      ∃ (j : Nat) (q : List PageNo), (env.parts graph)[j]? = some q ∧ n ∈ q :=
    fun hn => exists_part ((mem_parts_flatten env).2 hn)
  unfold nextGraph
  rw [mem_addEdges]
  constructor
  · rintro (hk | ⟨e, he, hke⟩)
    · exact absurd hk (notMem_empty _)
    · obtain ⟨⟨part', i'⟩, hx, he⟩ := List.mem_flatMap.1 he
      obtain ⟨b, hb, n, hn, rfl, hne⟩ := mem_partEdges.1 he
      rw [mem_zipIdx_parts] at hx
      obtain ⟨j, q, hq, hnq⟩ := hpart (hc.key _ _ hn)
      rw [findIdx_part hnd hq hnq] at hke hne
      have hij : i' ≠ j := fun h => hne (h ▸ rfl)
      rcases hke with hke | hke
      · have heq := pageNoSub_inj (hlt hi) (hlt hx) hke
        subst heq
        rw [hi] at hx
        cases hx
        exact ⟨b, hb, n, hn, fun hnp => hij (part_unique hnd hi hq hnp hnq)⟩
      · -- the edge comes from the other side
        have heq := pageNoSub_inj (hlt hi) (hlt hq) hke
        subst heq
        rw [hi] at hq
        cases hq
        exact ⟨n, hnq, b, hc.symm _ _ hn, fun hbp => hij (part_unique hnd hx hi hb hbp)⟩
  · rintro ⟨b, hb, n, hn, hnp⟩
    obtain ⟨j, q, hq, hnq⟩ := hpart (hc.key _ _ hn)
    have hij : j ≠ i := fun h => hnp (by
      subst h
      rw [hi] at hq
      cases hq
      exact hnq)
    refine .inr ⟨(pageNoSub start i, pageNoSub start j), List.mem_flatMap.2 ⟨(part, i),
      mem_zipIdx_parts.2 hi, mem_partEdges.2 ⟨b, hb, n, hn, ?_, ?_⟩⟩, .inl rfl⟩
    · rw [findIdx_part hnd hq hnq]
    · exact fun h => hij (pageNoSub_inj (hlt hq) (hlt hi) h)

/-! ## The pages of one level -/

/-- The map has a page of this number with these blocks. -/
def HasBlocks (env : TatEnv) (m : IndexPageMap) (e : PageNo × List PageNo) : Prop :=
  ∃ p, m.lookup e.1 = some p ∧ p.Lists env.cfg e.2

theorem partAt_ok {parts : List (List PageNo)} {n : PageNo} (h : n ∈ parts.flatten) :
    partAt parts n = .ok (parts.findIdx fun part => decide (n ∈ part)) := if_pos h

variable {no : PageNo}

theorem crossEdges_eq {parts : List (List PageNo)} {ns : List PageNo}
    (h : ∀ n ∈ ns, n ∈ parts.flatten) : crossEdges parts start no ns = .ok (ns.filterMap fun n =>
      let k := pageNoSub start (parts.findIdx fun part => decide (n ∈ part))
      if k ≠ no then some (no, k) else none) := by
  induction ns with
  | nil => rfl
  | cons n ns ih =>
    rw [crossEdges, partAt_ok (h n mem_cons_self),
      ih fun m hm => h m (mem_cons_of_mem _ hm), filterMap_cons]
    dsimp only [bind, Except.bind, pure, Except.pure]
    split_ifs <;> rfl

theorem crossEdges_part (hc : graph.Closed) (part : List PageNo) (i : Nat) :
    crossEdges (env.parts graph) start (pageNoSub start i)
      (part.flatMap (getNeighborPages graph)) =
      .ok (partEdges graph (env.parts graph) start (part, i)) := by
  refine crossEdges_eq fun n hn => ?_
  obtain ⟨b, -, hn⟩ := mem_flatMap.1 hn
  exact (mem_parts_flatten env).2 (hc.key b n hn)

/-- The index page of a part. -/
def IsPartPage (env : TatEnv) (graph : BlockAdjMap) (start : PageNo) (x : List PageNo × Nat)
    (e : PageNo × IndexPage) : Prop :=
  e.1 = pageNoSub start x.2 ∧
    e.2.Lists env.cfg (env.ho.order (inducedBlockSubgraph graph x.1).keys)

variable {pages : List (PageNo × IndexPage)}

section

variable (hc : graph.Closed) {rest : List (List PageNo)}
  (hrest : ∀ part ∈ rest, part ∈ env.parts graph)
include hc hrest

/-- What the loop over the parts returns. -/
theorem buildParts_ok {i : Nat} {edges : List (PageNo × PageNo)}
    (h : buildParts env graph (env.parts graph) start i rest = .ok (pages, edges)) :
    (∀ part ∈ rest, part.length ≤ env.cfg.maxBlocks) ∧
      edges = (rest.zipIdx i).flatMap (partEdges graph (env.parts graph) start) ∧
      List.Forall₂ (IsPartPage env graph start) (rest.zipIdx i) pages := by
  induction rest generalizing i pages edges with
  | nil =>
    cases h
    exact ⟨fun _ hp => absurd hp not_mem_nil, rfl, .nil⟩
  | cons part rest ih =>
    obtain ⟨page, hpage, h⟩ := bind_eq_ok.1 h
    obtain ⟨edges', hedges, h⟩ := bind_eq_ok.1 h
    rw [crossEdges_part hc] at hedges
    cases hedges
    obtain ⟨⟨pages', more⟩, hmore, h⟩ := bind_eq_ok.1 h
    cases h
    obtain ⟨hfit, rfl, hall⟩ := ih (fun q hq => hrest q (mem_cons_of_mem _ hq)) hmore
    have hperm : (inducedBlockSubgraph graph part).keys.Perm part :=
      keys_inducedBlockSubgraph (nodup_part (hrest part mem_cons_self))
    have hlen : part.length ≤ env.cfg.maxBlocks := by
      rw [← hperm.length_eq]
      exact create_isOk_iff.1 ⟨page, hpage⟩
    refine ⟨forall_mem_cons.2 ⟨hlen, hfit⟩, ?_, ?_⟩
    · rw [zipIdx_cons, flatMap_cons]
    · rw [zipIdx_cons]
      exact .cons ⟨rfl, (create_lists hpage).1⟩ hall

theorem buildParts_exists (hfit : ∀ part ∈ rest, part.length ≤ env.cfg.maxBlocks) (i : Nat) :
    ∃ r, buildParts env graph (env.parts graph) start i rest = .ok r := by
  induction rest generalizing i with
  | nil => exact ⟨_, rfl⟩
  | cons part rest ih =>
    obtain ⟨r, hr⟩ := ih (fun q hq => hrest q (mem_cons_of_mem _ hq))
      (fun q hq => hfit q (mem_cons_of_mem _ hq)) (i + 1)
    have hcap : (inducedBlockSubgraph graph part).keys.length ≤ env.cfg.maxBlocks := by
      rw [(keys_inducedBlockSubgraph (nodup_part (hrest part mem_cons_self))).length_eq]
      exact hfit part mem_cons_self
    have hok : ∃ page, create env.cfg env.ho env.fresh (pageNoSub start i)
        (inducedBlockSubgraph graph part) = .ok page := create_isOk_iff.2 hcap
    obtain ⟨page, hpage⟩ := hok
    refine ⟨((pageNoSub start i, page) :: r.1,
      partEdges graph (env.parts graph) start (part, i) ++ r.2), ?_⟩
    rw [buildParts, hpage]
    dsimp only [bind, Except.bind]
    rw [crossEdges_part hc, hr]
    rfl

end

/-! ## How the map grows -/

/-- The map has got pages with these numbers and blocks, and has kept the others. -/
structure MapGrows (env : TatEnv) (m m' : IndexPageMap) (es : Level) : Prop where
  keys : ∀ no, no ∈ m' ↔ no ∈ m ∨ no ∈ es.numbers
  new : es.numbers.Nodup → ∀ e ∈ es, HasBlocks env m' e
  old : ∀ e, HasBlocks env m e → e.1 ∉ es.numbers → HasBlocks env m' e

theorem MapGrows.refl (env : TatEnv) (m : IndexPageMap) : MapGrows env m m [] :=
  ⟨fun no => by simp [Level.numbers], fun _ e he => absurd he not_mem_nil, fun _ h _ => h⟩

theorem MapGrows.trans {m m' m'' : IndexPageMap} {es es' : Level} (h : MapGrows env m m' es)
    (h' : MapGrows env m' m'' es') : MapGrows env m m'' (es ++ es') := by
  have hnum : Level.numbers (es ++ es') = es.numbers ++ es'.numbers := map_append
  refine ⟨fun no => ?_, fun hnd e he => ?_, fun e he hno => ?_⟩
  · rw [h'.keys, h.keys, hnum, mem_append, or_assoc]
  · rw [hnum, nodup_append] at hnd
    rcases mem_append.1 he with he | he
    · exact h'.old e (h.new hnd.1 e he) fun hm =>
        hnd.2.2 e.1 (mem_map.2 ⟨e, he, rfl⟩) e.1 hm rfl
    · exact h'.new hnd.2.1 e he
  · rw [hnum, mem_append, not_or] at hno
    exact h'.old e (h.old e he hno.1) hno.2

variable {p : IndexPage}

/-- One page is stored. -/
theorem mapGrows_insert (m : IndexPageMap) (no : PageNo) {bs : List PageNo}
    (hp : p.Lists env.cfg bs) : MapGrows env m (m.insert no p) [(no, bs)] := by
  refine ⟨fun n => ?_, fun _ e he => ?_, fun e ⟨q, hq, hl⟩ hno => ⟨q, ?_, hl⟩⟩
  · rw [mem_insert, Level.numbers, map_singleton, mem_singleton, or_comm]
  · rw [mem_singleton] at he
    subst he
    exact ⟨p, lookup_insert m, hp⟩
  · rw [lookup_insert_ne (fun h => hno (by simp [Level.numbers, h]))]
    exact hq

/-- A page is stored again with the same blocks. -/
theorem mapGrows_rewire (m : IndexPageMap) {p p' : IndexPage} (hp : m.lookup no = some p)
    (hl : ∀ bs, p.Lists env.cfg bs → p'.Lists env.cfg bs) : MapGrows env m (m.insert no p') [] := by
  have hmem : no ∈ m := lookup_isSome.1 (by rw [hp]; rfl)
  refine ⟨fun n => ?_, fun _ e he => absurd he not_mem_nil, fun e ⟨q, hq, hql⟩ _ => ?_⟩
  · rw [mem_insert]
    constructor
    · rintro (rfl | h)
      · exact .inl hmem
      · exact .inl h
    · rintro (h | h)
      · exact .inr h
      · exact absurd h not_mem_nil
  · by_cases he : e.1 = no
    · rw [he, hp] at hq
      cases hq
      exact ⟨p', he ▸ lookup_insert m, hl _ hql⟩
    · exact ⟨q, by rw [lookup_insert_ne he]; exact hq, hql⟩

variable {xs : List (List PageNo × Nat)}

theorem mapGrows_insertAll (h : List.Forall₂ (IsPartPage env graph start) xs pages)
    (m : IndexPageMap) :
    MapGrows env m (pages.foldl (fun m e => m.insert e.1 e.2) m) (xs.map fun x =>
      (pageNoSub start x.2, env.ho.order (inducedBlockSubgraph graph x.1).keys)) := by
  induction h generalizing m with
  | nil => exact MapGrows.refl env m
  | @cons x e xs pages hxe _ ih =>
    have h1 := mapGrows_insert m e.1 hxe.2
    rw [hxe.1] at h1
    have h2 := h1.trans (ih (m.insert (pageNoSub start x.2) e.2))
    rw [foldl_cons, map_cons, hxe.1]
    exact h2

/-- Parents and neighbours leave the blocks alone. -/
theorem IndexPage.Lists.wire {cfg : IndexConfig} {blocks : List PageNo} (h : p.Lists cfg blocks)
    (hn : 0 < cfg.maxBlockNeighbor) (parent : PageNo) (sampled : List PageNo) :
    (p.wire cfg parent sampled).Lists cfg blocks := by
  unfold IndexPage.wire
  have hfold : ∀ (ns : List PageNo) (q : IndexPage), q.Lists cfg blocks →
      (ns.foldl (fun p n => (p.addNeighborPageNo cfg n).2) q).Lists cfg blocks := by
    intro ns
    induction ns with
    | nil => exact fun q hq => hq
    | cons n ns ih => exact fun q hq => ih _ (hq.addNeighborPageNo n)
  exact hfold _ _ (h.setParentPageNo hn parent)

variable {parentOf : PageNo → Except String PageNo} {nos : List PageNo}

variable {sampledOf : PageNo → Except String (List PageNo)}

theorem wireIndexPages_grows (hn : 0 < env.cfg.maxBlockNeighbor) {m m' : IndexPageMap}
    (h : wireIndexPages env parentOf sampledOf nos m = .ok m') : MapGrows env m m' [] := by
  induction nos generalizing m with
  | nil =>
    cases h
    exact MapGrows.refl env _
  | cons no nos ih =>
    obtain ⟨page, hpage, h⟩ := bind_eq_ok.1 h
    obtain ⟨parent, -, h⟩ := bind_eq_ok.1 h
    obtain ⟨sampled, -, h⟩ := bind_eq_ok.1 h
    have hlook : m.lookup no = some page := by
      unfold indexPageAt at hpage
      split at hpage
      · rename_i page' hl
        cases hpage
        exact hl
      · cases hpage
    exact (mapGrows_rewire m hlook fun bs hl => hl.wire hn parent sampled).trans (ih h)

/-! ## A construction that returns -/

/-- What a wiring keeps. -/
structure Wires (env : TatEnv) (wiring : Wiring) : Prop where
  nextNo : ∀ {parentOf s s'}, wiring parentOf s = .ok s' → s'.nextNo = s.nextNo
  levels : ∀ {parentOf s s'}, wiring parentOf s = .ok s' → s'.levels = s.levels
  grows : ∀ {parentOf s s'}, wiring parentOf s = .ok s' →
    MapGrows env s.indexPages s'.indexPages []

theorem wires_leaves {s s' : TatState}
    (h : (do let leaves ← wireLeaves env parentOf s.sparse s.leaves
             return { s with leaves := leaves }) = Except.ok s') :
    s'.nextNo = s.nextNo ∧ s'.levels = s.levels ∧ MapGrows env s.indexPages s'.indexPages [] := by
  obtain ⟨leaves, -, h⟩ := bind_eq_ok.1 h
  cases h
  exact ⟨rfl, rfl, MapGrows.refl env _⟩

theorem wires_index (hn : 0 < env.cfg.maxBlockNeighbor) {s s' : TatState}
    (h : (do let m ← wireIndexPages env parentOf sampledOf nos s.indexPages
             return { s with indexPages := m }) = Except.ok s') :
    s'.nextNo = s.nextNo ∧ s'.levels = s.levels ∧ MapGrows env s.indexPages s'.indexPages [] := by
  obtain ⟨m, hm, h⟩ := bind_eq_ok.1 h
  cases h
  exact ⟨rfl, rfl, wireIndexPages_grows hn hm⟩

theorem wires_of_cases {wiring : Wiring}
    (h : ∀ parentOf s s', wiring parentOf s = .ok s' → s'.nextNo = s.nextNo ∧
      s'.levels = s.levels ∧ MapGrows env s.indexPages s'.indexPages []) : Wires env wiring :=
  ⟨fun hw => (h _ _ _ hw).1, fun hw => (h _ _ _ hw).2.1, fun hw => (h _ _ _ hw).2.2⟩

section

variable (hn : 0 < env.cfg.maxBlockNeighbor)
include hn

theorem wires_csrWiring : Wires env (csrWiring env) := by
  refine wires_of_cases fun parentOf s s' h => ?_
  unfold csrWiring at h
  split at h
  · exact wires_leaves h
  · exact wires_index hn h

theorem wires_csrRootWiring : Wires env (csrRootWiring env) := by
  refine wires_of_cases fun parentOf s s' h => ?_
  unfold csrRootWiring at h
  split at h
  · exact wires_leaves h
  · exact wires_index hn h

theorem wires_rootsWiring (roots : List PageNo) : Wires env (rootsWiring env roots) :=
  wires_of_cases fun _ _ _ h => wires_index hn h

end

/-- What one round of the loop has done. -/
structure LevelBuilt (env : TatEnv) (s s' : TatState) : Prop where
  target : 0 < env.targetSize
  fit : ∀ part ∈ env.parts s.graph, part.length ≤ env.cfg.maxBlocks
  graph : s'.graph = nextGraph env s.graph s.nextNo
  sparse : s'.sparse = graphSparsification env.ho env.edgeSort s'.graph env.cfg.maxBlockNeighbor
  nextNo : s'.nextNo = pageNoSub s.nextNo (env.parts s.graph).length
  levels : s'.levels = s.levels ++ [(levelOf env s.graph s.nextNo).numbers]
  grows : MapGrows env s.indexPages s'.indexPages (levelOf env s.graph s.nextNo)

theorem absoluteWeightBlockPartition_ok {parts : List (List PageNo)}
    (h : absoluteWeightBlockPartition env.partitioner graph env.targetSize = .ok parts) :
    0 < env.targetSize ∧ parts = env.parts graph := by
  unfold absoluteWeightBlockPartition at h
  split at h
  · cases h
  · cases h
    exact ⟨Nat.pos_of_ne_zero ‹_›, rfl⟩

theorem fst_of_partPages (h : List.Forall₂ (IsPartPage env graph start) xs pages) :
    pages.map Prod.fst = xs.map fun x => pageNoSub start x.2 := by
  induction h with
  | nil => rfl
  | cons hxe _ ih => rw [map_cons, map_cons, ih, hxe.1]

theorem levelStep_ok {wiring : Wiring} (hw : Wires env wiring) {s s' : TatState}
    (hc : s.graph.Closed) (h : levelStep env wiring s = .ok s') : LevelBuilt env s s' := by
  obtain ⟨parts, hparts, h⟩ := bind_eq_ok.1 h
  obtain ⟨ht, rfl⟩ := absoluteWeightBlockPartition_ok hparts
  obtain ⟨s1, h1, h⟩ := bind_eq_ok.1 h
  obtain ⟨⟨pages, edges⟩, h2, h⟩ := bind_eq_ok.1 h
  obtain ⟨hfit, rfl, hall⟩ := buildParts_ok hc (fun _ hp => hp) h2
  cases h
  refine ⟨ht, hfit, rfl, rfl, rfl, ?_, (hw.grows h1).trans (mapGrows_insertAll hall _)⟩
  show s.levels ++ [pages.map Prod.fst] = _
  rw [fst_of_partPages hall, Level.numbers, levelOf, map_map]
  rfl

/-- What the construction of the root has done. -/
structure RootBuilt (env : TatEnv) (s : TatState) (r : TatResult) : Prop where
  fit : s.graph.keys.length ≤ env.cfg.maxBlocks
  rootPageNo : r.rootPageNo = s.nextNo
  nextNo : r.nextIndexPageNo = pageNoSub s.nextNo 1
  levels : r.levels = s.levels ++ [[s.nextNo]]
  grows : MapGrows env s.indexPages r.indexPages [(s.nextNo, env.ho.order s.graph.keys)]

variable {s : TatState}

variable {r : TatResult}

theorem buildRoot_ok {wiring : Wiring} (hw : Wires env wiring) (h : buildRoot env wiring s = .ok r) :
    RootBuilt env s r := by
  obtain ⟨root, hroot, h⟩ := bind_eq_ok.1 h
  obtain ⟨s1, h1, h⟩ := bind_eq_ok.1 h
  have hno := hw.nextNo h1
  have hlev := hw.levels h1
  have hg := hw.grows h1
  cases h
  refine ⟨create_isOk_iff.1 ⟨root, hroot⟩, hno, by rw [hno], by rw [hno, hlev], ?_⟩
  exact (mapGrows_insert s.indexPages s.nextNo (create_lists hroot).1).trans hg

theorem closed_nextGraph (env : TatEnv) (graph : BlockAdjMap) (start : PageNo) :
    (nextGraph env graph start).Closed := closed_addEdges [] _

/-- A construction that returns has built the levels over its blocks. -/
structure TreeBuilt (env : TatEnv) (s : TatState) (r : TatResult) (stack : List Level) : Prop where
  built : Levels env false s.nextNo s.graph stack
  levels : r.levels = s.levels ++ stack.map Level.numbers
  root : stack.getLast?.map Level.numbers = some [r.rootPageNo]
  nextNo : r.nextIndexPageNo = pageNoSub s.nextNo (stackNumbers stack).length
  grows : MapGrows env s.indexPages r.indexPages stack.flatten

theorem RootBuilt.tree {s : TatState} {r : TatResult} (h : RootBuilt env s r) :
    TreeBuilt env s r [[(s.nextNo, env.ho.order s.graph.keys)]] := by
  refine ⟨.root h.fit, h.levels, ?_, h.nextNo, h.grows⟩
  rw [h.rootPageNo]
  rfl

theorem LevelBuilt.tree {s s' : TatState} {r : TatResult} {stack : List Level}
    (hcap : env.cfg.maxBlocks < s.graph.keys.length) (h : LevelBuilt env s s')
    (h' : TreeBuilt env s' r stack) :
    TreeBuilt env s r (levelOf env s.graph s.nextNo :: stack) := by
  have hst := h'.built
  rw [h.nextNo, h.graph] at hst
  refine ⟨.level hcap h.target h.fit (fun hf => by cases hf) hst, ?_, ?_, ?_, ?_⟩
  · rw [h'.levels, h.levels, map_cons, append_assoc, singleton_append]
  · obtain ⟨below, no, bs, rfl⟩ := hst.top
    have hroot := h'.root
    rw [getLast?_append] at hroot
    rw [← cons_append, getLast?_append]
    exact hroot
  · rw [h'.nextNo, h.nextNo, pageNoSub_add, stackNumbers_cons, length_append, numbers_levelOf,
      length_numbersFrom]
  · exact h.grows.trans h'.grows

theorem buildTree_levels {wiring rootWiring : Wiring} (hw : Wires env wiring)
    (hr : Wires env rootWiring) {fuel : Nat} (hc : s.graph.Closed)
    (h : buildTree env wiring rootWiring fuel s = some (.ok r)) :
    ∃ stack, TreeBuilt env s r stack := by
  revert hc
  refine buildTree_induct s h (fun s _ hroot _ => ?_) fun s s' hcap hs ih hc => ?_
  · exact ⟨_, (buildRoot_ok hr hroot).tree⟩
  · have hb := levelStep_ok hw hc hs
    obtain ⟨stack, hst⟩ := ih (hb.graph ▸ closed_nextGraph env _ _)
    exact ⟨_, hb.tree hcap hst⟩

/-! ## Tight levels are built -/

theorem sparseAt_exists {sparse : BlockAdjMap} (h : no ∈ sparse) :
    ∃ sampled, sparseAt sparse no = .ok sampled := by
  obtain ⟨sampled, hs⟩ := Option.isSome_iff_exists.1 (lookup_isSome.2 h)
  exact ⟨sampled, by rw [sparseAt, hs]⟩

section

variable (env : TatEnv) (parentOf : PageNo → Except String PageNo)

theorem wireLeaves_exists {sparse : BlockAdjMap} {ps : List LeafPage}
    (hp : ∀ p ∈ ps, ∃ parent, parentOf p.pageNo = .ok parent) (hs : ∀ p ∈ ps, p.pageNo ∈ sparse) :
    ∃ ps', wireLeaves env parentOf sparse ps = .ok ps' := by
  induction ps with
  | nil => exact ⟨_, rfl⟩
  | cons p ps ih =>
    obtain ⟨parent, hparent⟩ := hp p mem_cons_self
    obtain ⟨sampled, hsampled⟩ := sparseAt_exists (hs p mem_cons_self)
    obtain ⟨ps', hps⟩ := ih (fun q hq => hp q (mem_cons_of_mem _ hq))
      (fun q hq => hs q (mem_cons_of_mem _ hq))
    refine ⟨p.wire env.cfg parent sampled :: ps', ?_⟩
    rw [wireLeaves, hparent, hsampled, hps]
    rfl

theorem wireIndexPages_exists (sampledOf : PageNo → Except String (List PageNo)) {m : IndexPageMap}
    (hm : ∀ no ∈ nos, no ∈ m) (hp : ∀ no ∈ nos, ∃ parent, parentOf no = .ok parent)
    (hs : ∀ no ∈ nos, ∃ sampled, sampledOf no = .ok sampled) :
    ∃ m', wireIndexPages env parentOf sampledOf nos m = .ok m' := by
  induction nos generalizing m with
  | nil => exact ⟨_, rfl⟩
  | cons no nos ih =>
    obtain ⟨page, hpage⟩ := Option.isSome_iff_exists.1
      (lookup_isSome.2 (hm no mem_cons_self))
    obtain ⟨parent, hparent⟩ := hp no mem_cons_self
    obtain ⟨sampled, hsampled⟩ := hs no mem_cons_self
    have hat : indexPageAt m no = .ok page := by rw [indexPageAt, hpage]
    obtain ⟨m', hm'⟩ := @ih (m.insert no (page.wire env.cfg parent sampled))
      (fun n hn => (mem_insert m).2 (.inr (hm n (mem_cons_of_mem _ hn))))
      (fun n hn => hp n (mem_cons_of_mem _ hn)) (fun n hn => hs n (mem_cons_of_mem _ hn))
    refine ⟨m', ?_⟩
    rw [wireIndexPages, hat, hparent, hsampled]
    exact hm'

end

/-- The level below has its entries in the map of the blocks. -/
structure CsrReady (env : TatEnv) (s : TatState) : Prop where
  sparse : s.sparse = graphSparsification env.ho env.edgeSort s.graph env.cfg.maxBlockNeighbor
  leaves : s.levels.getLast? = none → ∀ p ∈ s.leaves, p.pageNo ∈ s.graph
  pages : ∀ nos, s.levels.getLast? = some nos → ∀ no ∈ nos, no ∈ s.graph ∧ no ∈ s.indexPages

section

variable (h : CsrReady env s) (hn : 0 < env.cfg.maxBlockNeighbor)
include h hn

theorem CsrReady.mem_sparse (hno : no ∈ s.graph) : no ∈ s.sparse := by
  rw [h.sparse]
  exact mem_graphSparsification hn hno

theorem CsrReady.wiring (hp : ∀ no ∈ s.graph, ∃ parent, parentOf no = .ok parent) :
    ∃ s', csrWiring env parentOf s = .ok s' := by
  unfold csrWiring
  split
  · rename_i hlast
    have hl := h.leaves hlast
    obtain ⟨ps, hps⟩ := wireLeaves_exists env parentOf (fun p hm => hp _ (hl p hm))
      fun p hm => h.mem_sparse hn (hl p hm)
    exact ⟨_, bind_eq_ok.2 ⟨ps, hps, rfl⟩⟩
  · rename_i nos hlast
    have hl := h.pages nos hlast
    obtain ⟨m, hm⟩ := wireIndexPages_exists env parentOf (sparseAt s.sparse)
      (fun no hno => (hl no hno).2) (fun no hno => hp _ (hl no hno).1)
      fun no hno => sparseAt_exists (h.mem_sparse hn (hl no hno).1)
    exact ⟨_, bind_eq_ok.2 ⟨m, hm, rfl⟩⟩

theorem CsrReady.rootWiring (root : IndexPage) :
    ∃ s', csrRootWiring env (fun _ => .ok s.nextNo)
      { s with indexPages := s.indexPages.insert s.nextNo root } = .ok s' := by
  unfold csrRootWiring
  split
  · rename_i hlast
    have hl := h.leaves hlast
    obtain ⟨ps, hps⟩ := wireLeaves_exists env (fun _ => .ok s.nextNo) (fun p _ => ⟨_, rfl⟩)
      fun p hm => h.mem_sparse hn (hl p hm)
    exact ⟨_, bind_eq_ok.2 ⟨ps, hps, rfl⟩⟩
  · rename_i nos hlast
    have hl := h.pages nos hlast
    obtain ⟨m, hm⟩ := wireIndexPages_exists env (fun _ => .ok s.nextNo)
      (fun no => .ok (getNeighborPages s.sparse no))
      (fun no hno => (mem_insert s.indexPages).2 (.inr (hl no hno).2))
      (fun _ _ => ⟨_, rfl⟩) fun _ _ => ⟨_, rfl⟩
    exact ⟨_, bind_eq_ok.2 ⟨m, hm, rfl⟩⟩

end

theorem create_exists {graph : BlockAdjMap} (hfit : graph.keys.length ≤ env.cfg.maxBlocks)
    (no : PageNo) : ∃ p, create env.cfg env.ho env.fresh no graph = .ok p :=
  create_isOk_iff.2 hfit

theorem CsrReady.root {s : TatState} (h : CsrReady env s) (hn : 0 < env.cfg.maxBlockNeighbor)
    (hfit : s.graph.keys.length ≤ env.cfg.maxBlocks) :
    ∃ r, buildRoot env (csrRootWiring env) s = .ok r := by
  obtain ⟨root, hroot⟩ := create_exists hfit s.nextNo
  obtain ⟨s', hs'⟩ := h.rootWiring hn root
  exact ⟨_, bind_eq_ok.2 ⟨root, hroot, bind_eq_ok.2 ⟨s', hs', rfl⟩⟩⟩

theorem CsrReady.level {s : TatState} (h : CsrReady env s) (hn : 0 < env.cfg.maxBlockNeighbor)
    (hc : s.graph.Closed) (hw : 0 < env.targetSize)
    (hfit : ∀ part ∈ env.parts s.graph, part.length ≤ env.cfg.maxBlocks) :
    ∃ s', levelStep env (csrWiring env) s = .ok s' := by
  have hparts : absoluteWeightBlockPartition env.partitioner s.graph env.targetSize =
      .ok (env.parts s.graph) := if_neg (Nat.pos_iff_ne_zero.1 hw)
  have hparent : ∀ no ∈ s.graph, ∃ parent, (fun no => (partAt (env.parts s.graph) no).map
      (pageNoSub s.nextNo)) no = .ok parent := fun no hno => by
    dsimp only
    rw [partAt_ok ((mem_parts_flatten env).2 hno)]
    exact ⟨_, rfl⟩
  obtain ⟨s1, h1⟩ := h.wiring hn hparent
  obtain ⟨r, hr⟩ := buildParts_exists hc (fun _ hp => hp) hfit 0
  exact ⟨_, bind_eq_ok.2 ⟨_, hparts, bind_eq_ok.2 ⟨s1, h1,
    bind_eq_ok.2 ⟨r, hr, rfl⟩⟩⟩⟩

/-- Over linked parts, the pages of a level are the blocks of the next one. -/
theorem LevelBuilt.ready {s s' : TatState} (h : LevelBuilt env s s') (hc : s.graph.Closed)
    (hn32 : (env.parts s.graph).length ≤ 2 ^ 32)
    (hlinked : ∀ part ∈ env.parts s.graph, PartLinked s.graph part) : CsrReady env s' := by
  have hlast : s'.levels.getLast? = some (levelOf env s.graph s.nextNo).numbers := by
    rw [h.levels, getLast?_concat]
  refine ⟨h.sparse, fun hnone => ?_, fun nos hnos no hno => ?_⟩
  · rw [hlast] at hnone
    cases hnone
  · rw [hlast] at hnos
    cases hnos
    refine ⟨?_, (h.grows.keys no).2 (.inr hno)⟩
    rw [numbers_levelOf] at hno
    obtain ⟨i, hi, rfl⟩ := mem_map.1 hno
    have hget := getElem?_eq_getElem (mem_range.1 hi)
    rw [h.graph]
    exact (mem_nextGraph_iff hc hn32 hget).2 (hlinked _ (getElem_mem _))

theorem length_level_le {lvl : Level} {rest : List Level} {n : Nat}
    (h : (stackNumbers (lvl :: rest)).length ≤ n) :
    lvl.numbers.length ≤ n ∧ (stackNumbers rest).length ≤ n := by
  rw [stackNumbers_cons, length_append] at h
  omega

/-- Tight levels over the blocks of a map are built. -/
theorem buildTree_of_levels (hn : 0 < env.cfg.maxBlockNeighbor)
    (h : Levels env true start graph stack) (h32 : (stackNumbers stack).length ≤ 2 ^ 32)
    (hstart : s.nextNo = start) (hgraph : s.graph = graph) (hc : s.graph.Closed)
    (hready : CsrReady env s) :
    ∃ fuel r, ∀ fuel', fuel ≤ fuel' →
      buildTree env (csrWiring env) (csrRootWiring env) fuel' s = some (.ok r) := by
  induction h generalizing s with
  | root hfit =>
    subst hgraph
    obtain ⟨r, hr⟩ := hready.root hn hfit
    refine ⟨1, r, fun fuel' hf => ?_⟩
    obtain ⟨fuel, rfl⟩ : ∃ k, fuel' = k + 1 := ⟨fuel' - 1, by omega⟩
    unfold buildTree
    rw [climb, if_neg (Nat.not_lt.2 hfit)]
    exact congrArg some hr
  | @level start graph rest hcap hw hfit hlinked _ ih =>
    subst hgraph hstart
    have hlen := length_level_le h32
    rw [numbers_levelOf, length_numbersFrom] at hlen
    obtain ⟨s', hs'⟩ := hready.level hn hc hw hfit
    have hb := levelStep_ok (wires_csrWiring hn) hc hs'
    obtain ⟨fuel, r, hr⟩ := ih hlen.2 hb.nextNo hb.graph (hb.graph ▸ closed_nextGraph env _ _)
      (hb.ready hc hlen.1 (hlinked rfl))
    refine ⟨fuel + 1, r, fun fuel' hf => ?_⟩
    obtain ⟨k, rfl⟩ : ∃ k, fuel' = k + 1 := ⟨fuel' - 1, by omega⟩
    have hk := hr k (by omega)
    unfold buildTree at hk ⊢
    rw [climb, if_pos hcap, hs']
    exact hk

end BwGraph
