import BwGraph.Lib.Run
import BwGraph.Part.BlockGraph
import BwGraph.Db.IndexFile

/-
  The construction of the index tree (`build_tat_from_csr_pages`, `build_tat_from_index_pages` and
  the third phase of `build_reorder_tat_db`, `db_build.cc`). A level is built from the adjacency map
  of the level below: while there are more blocks than an index page holds, the map is partitioned,
  the blocks get their parents and sampled neighbours, every part becomes an index page, and the
  edges between parts make up the map of the next level. Numbers are handed out downwards from a
  start number, as 32-bit numbers.

  Both functions run the same loop (`climb`) and differ in what they do to the level below: at the
  first level of a tree over CSR pages these are CSR pages, and a block without a part or without a
  sparse entry is an exception; in the tree over the roots a missing sparse entry is skipped. The
  numbers of the index pages are kept by level, bottom first, where the source keeps those of the
  last level. The loop need not end, so it has fuel and `none` is a run that has not ended.
-/

namespace BwGraph

/-! ## CSR pages as leaves -/

/-- `csr_page_t`, as far as the index tree reads and writes it. -/
structure LeafPage where
  pageNo : PageNo
  vertices : List VId
  parentPageNo : Nat
  neighborPageCount : Nat
  data : List Nat
  deriving DecidableEq, Repr

namespace LeafPage

/-- `set_parent_page_no`: the member, and four bytes at offset 16. -/
def setParentPageNo (p : LeafPage) (parent : Nat) : LeafPage :=
  { p with parentPageNo := parent, data := putBytes p.data 16 (wordWrite parent) }

/-- The neighbour span of a page that has not been parsed again. -/
def readNeighborBlockClone (p : LeafPage) : List PageNo :=
  wordReads p.neighborPageCount (p.data.drop 48)

/-- `add_neighbor_page_no`: the number behind six 64-bit fields, the count in the last of them. -/
def addNeighborPageNo (cfg : IndexConfig) (p : LeafPage) (pageNo : PageNo) : Bool × LeafPage :=
  if p.neighborPageCount ≥ cfg.maxBlockNeighbor then (false, p)
  else if pageNo ∈ p.readNeighborBlockClone then (false, p)
  else
    let count := p.neighborPageCount + 1
    let data := putBytes p.data (48 + p.neighborPageCount * 4) (wordWrite pageNo)
    (true, { p with neighborPageCount := count, data := putBytes data 40 (longWrite count) })

/-- The parent and the sampled neighbours of a page, as many as the block has room for. -/
def wire (cfg : IndexConfig) (p : LeafPage) (parent : PageNo) (sampled : List PageNo) : LeafPage :=
  (sampled.take cfg.maxBlockNeighbor).foldl (fun p n => (p.addNeighborPageNo cfg n).2)
    (p.setParentPageNo parent)

/-- The edges from the vertices of a page to other pages. -/
def links (nbrs : VId → List VId) (loc : VId → PageNo) (p : LeafPage) : List (PageNo × PageNo) :=
  ((p.vertices.flatMap nbrs).filter fun n => loc n ≠ p.pageNo).map fun n => (p.pageNo, loc n)

end LeafPage

/-- The same for an index page. -/
def IndexPage.wire (cfg : IndexConfig) (p : IndexPage) (parent : PageNo) (sampled : List PageNo) :
    IndexPage :=
  (sampled.take cfg.maxBlockNeighbor).foldl (fun p n => (p.addNeighborPageNo cfg n).2)
    (p.setParentPageNo parent)

/-- The block adjacency map of some CSR pages; a page that an edge leads to becomes a block too. -/
def leafGraph (nbrs : VId → List VId) (loc : VId → PageNo) (pages : List LeafPage) : BlockAdjMap :=
  (BlockAdjMap.reserve ∅ (pages.map LeafPage.pageNo)).addEdges (pages.flatMap (·.links nbrs loc))

/-! ## One level -/

/-- The settings and the choices the source leaves open. -/
structure TatEnv where
  cfg : IndexConfig
  ho : HashOrder
  edgeSort : EdgeSort
  fresh : Nat
  partitioner : BlockPartitioner

/-- `start - i` in `page_no_t`. -/
def pageNoSub (start i : Nat) : Nat := (start + (2 ^ 32 - i % 2 ^ 32)) % 2 ^ 32

/-- The locals of the construction: `nextNo` is `current_index_page_no`, and the last of `levels`
is `level_page_no_list`. -/
structure TatState where
  graph : BlockAdjMap
  sparse : BlockAdjMap
  nextNo : PageNo
  levels : List (List PageNo)
  indexPages : IndexPageMap
  leaves : List LeafPage

section Level

variable (env : TatEnv)

/-- The weight bound of the partition. -/
def TatEnv.targetSize : Nat := env.cfg.maxBlocks * 6 / 10

/-- `sparse_block_adj_map.at`. -/
def sparseAt (sparse : BlockAdjMap) (pageNo : PageNo) : Except String (List PageNo) :=
  match sparse.lookup pageNo with
  | some sampled => .ok sampled
  | none => .error atError

/-- `index_pages.at`. -/
def indexPageAt (m : IndexPageMap) (pageNo : PageNo) : Except String IndexPage :=
  match m.lookup pageNo with
  | some page => .ok page
  | none => .error atError

/-- The loop over the CSR pages that sets parents and neighbours. -/
def wireLeaves (parentOf : PageNo → Except String PageNo) (sparse : BlockAdjMap) :
    List LeafPage → Except String (List LeafPage)
  | [] => .ok []
  | p :: rest => do
    let parent ← parentOf p.pageNo
    let sampled ← sparseAt sparse p.pageNo
    let ps ← wireLeaves parentOf sparse rest
    return p.wire env.cfg parent sampled :: ps

/-- The loop over index pages that does the same. -/
def wireIndexPages (parentOf : PageNo → Except String PageNo)
    (sampledOf : PageNo → Except String (List PageNo)) :
    List PageNo → IndexPageMap → Except String IndexPageMap
  | [], m => .ok m
  | no :: rest, m => do
    let page ← indexPageAt m no
    let parent ← parentOf no
    let sampled ← sampledOf no
    wireIndexPages parentOf sampledOf rest (m.insert no (page.wire env.cfg parent sampled))

/-- The edges from one part to others; `neighbors` are those of its blocks. -/
def crossEdges (parts : List (List PageNo)) (start no : PageNo) :
    List PageNo → Except String (List (PageNo × PageNo))
  | [] => .ok []
  | n :: rest => do
    let j ← partAt parts n
    let more ← crossEdges parts start no rest
    return if pageNoSub start j ≠ no then (no, pageNoSub start j) :: more else more

/-- The loop over the parts from number `i` on: the index pages and the edges between parts. -/
def buildParts (graph : BlockAdjMap) (parts : List (List PageNo)) (start : PageNo) :
    Nat → List (List PageNo) → Except String (List (PageNo × IndexPage) × List (PageNo × PageNo))
  | _, [] => .ok ([], [])
  | i, part :: rest => do
    let no := pageNoSub start i
    let page ← IndexPage.create env.cfg env.ho env.fresh no (inducedBlockSubgraph graph part)
    let edges ← crossEdges parts start no (part.flatMap (getNeighborPages graph))
    let (pages, more) ← buildParts graph parts start (i + 1) rest
    return ((no, page) :: pages, edges ++ more)

/-- The level below gets its parents: given the parts, what a round of the loop does first. -/
abbrev Wiring := (PageNo → Except String PageNo) → TatState → Except String TatState

/-- One round of the loop. -/
def levelStep (wiring : Wiring) (s : TatState) : Except String TatState := do
  let parts ← absoluteWeightBlockPartition env.partitioner s.graph env.targetSize
  let s' ← wiring (fun no => (partAt parts no).map (pageNoSub s.nextNo)) s
  let (pages, edges) ← buildParts env s.graph parts s.nextNo 0 parts
  let graph := BlockAdjMap.addEdges ∅ edges
  return { s' with
    graph := graph
    sparse := graphSparsification env.ho env.edgeSort graph env.cfg.maxBlockNeighbor
    nextNo := pageNoSub s.nextNo parts.length
    levels := s.levels ++ [pages.map Prod.fst]
    indexPages := pages.foldl (fun m e => m.insert e.1 e.2) s'.indexPages }

/-- The loop. -/
def climb (wiring : Wiring) : Nat → TatState → Option (Except String TatState)
  | 0, _ => none
  | fuel + 1, s =>
    if s.graph.keys.length > env.cfg.maxBlocks then
      match levelStep env wiring s with
      | .error e => some (.error e)
      | .ok s => climb wiring fuel s
    else some (.ok s)

/-- `tat_build_result_t`, with the leaves and the numbers by level. -/
structure TatResult where
  rootPageNo : PageNo
  levelCount : Nat
  nextIndexPageNo : PageNo
  indexPages : IndexPageMap
  levels : List (List PageNo)
  leaves : List LeafPage

/-- The root over the last map. -/
def buildRoot (wiring : Wiring) (s : TatState) : Except String TatResult := do
  let root ← IndexPage.create env.cfg env.ho env.fresh s.nextNo s.graph
  let s ← wiring (fun _ => .ok s.nextNo) { s with indexPages := s.indexPages.insert s.nextNo root }
  return ⟨s.nextNo, s.levels.length + 2, pageNoSub s.nextNo 1, s.indexPages,
    s.levels ++ [[s.nextNo]], s.leaves⟩

/-- The loop and the root; the wiring of the root may differ. -/
def buildTree (wiring rootWiring : Wiring) (fuel : Nat) (s : TatState) :
    Option (Except String TatResult) :=
  match climb env wiring fuel s with
  | none => none
  | some (.error e) => some (.error e)
  | some (.ok s) => some (buildRoot env rootWiring s)

/-- The state before the loop. -/
def TatState.start (graph : BlockAdjMap) (nextNo : PageNo) (indexPages : IndexPageMap)
    (leaves : List LeafPage) : TatState :=
  ⟨graph, graphSparsification env.ho env.edgeSort graph env.cfg.maxBlockNeighbor, nextNo, [],
    indexPages, leaves⟩

/-! ## Trees over CSR pages -/

/-- The level below in the loop of `build_tat_from_csr_pages`. -/
def csrWiring : Wiring := fun parentOf s =>
  match s.levels.getLast? with
  | none => do
    let leaves ← wireLeaves env parentOf s.sparse s.leaves
    return { s with leaves := leaves }
  | some nos => do
    let m ← wireIndexPages env parentOf (sparseAt s.sparse) nos s.indexPages
    return { s with indexPages := m }

/-- The level below the root: a missing sparse entry of an index page is skipped. -/
def csrRootWiring : Wiring := fun parentOf s =>
  match s.levels.getLast? with
  | none => do
    let leaves ← wireLeaves env parentOf s.sparse s.leaves
    return { s with leaves := leaves }
  | some nos => do
    let m ← wireIndexPages env parentOf (fun no => .ok (getNeighborPages s.sparse no)) nos
      s.indexPages
    return { s with indexPages := m }

/-- `build_tat_from_csr_pages`. -/
def buildTatFromCsrPages (nbrs : VId → List VId) (loc : VId → PageNo) (fuel : Nat)
    (pages : List LeafPage) (start : PageNo) : Option (Except String TatResult) :=
  buildTree env (csrWiring env) (csrRootWiring env) fuel
    (.start env (leafGraph nbrs loc pages) start ∅ pages)

/-! ## The tree over the roots -/

/-- The edges between the roots: their neighbour pages that are roots. -/
def rootLinks (m : IndexPageMap) (roots : List PageNo) : List (PageNo × PageNo) :=
  roots.flatMap fun r => ((m.lookup r).map IndexPage.readNeighborBlockClone).getD []
    |>.filter (· ∈ roots) |>.map fun n => (r, n)

/-- The level below in `build_tat_from_index_pages`: first the roots, then the last level. -/
def rootsWiring (roots : List PageNo) : Wiring := fun parentOf s => do
  let m ← wireIndexPages env parentOf (fun no => .ok (getNeighborPages s.sparse no))
    (s.levels.getLastD roots) s.indexPages
  return { s with indexPages := m }

/-- `build_tat_from_index_pages`, over the map that owns the roots. -/
def buildTatFromIndexPages (fuel : Nat) (m : IndexPageMap) (roots : List PageNo) (start : PageNo) :
    Option (Except String TatResult) :=
  buildTree env (rootsWiring env roots) (rootsWiring env roots) fuel
    (.start env ((BlockAdjMap.reserve ∅ roots).addEdges (rootLinks m roots)) start m [])

/-! ## The whole tree -/

/-- The tree in the making: `index_page_map`, `small_tat_roots`, `next_index_page_no`, and the
small trees so far. -/
structure Forest where
  indexPages : IndexPageMap
  roots : List PageNo
  nextNo : PageNo
  trees : List TatResult

/-- One small tree is added; its pages replace those of the same numbers. -/
def Forest.add (f : Forest) (r : TatResult) : Forest :=
  ⟨r.indexPages ∪ f.indexPages, f.roots ++ [r.rootPageNo], r.nextIndexPageNo, f.trees ++ [r]⟩

/-- The loop over the partitions; an empty one is skipped. -/
def buildForest (nbrs : VId → List VId) (loc : VId → PageNo) (fuel : Nat) :
    List (List LeafPage) → Forest → Option (Except String Forest)
  | [], f => some (.ok f)
  | pages :: rest, f =>
    if pages = [] then buildForest nbrs loc fuel rest f
    else
      match buildTatFromCsrPages env nbrs loc fuel pages f.nextNo with
      | none => none
      | some (.error e) => some (.error e)
      | some (.ok r) => buildForest nbrs loc fuel rest (f.add r)

/-- The finished tree. -/
structure TatTree where
  indexPages : IndexPageMap
  root : PageNo
  trees : List TatResult
  top : TatResult

/-- The third phase of `build_reorder_tat_db`. -/
def buildHierarchicalTat (nbrs : VId → List VId) (loc : VId → PageNo) (fuel : Nat)
    (partitionPages : List (List LeafPage)) (start : PageNo) : Option (Except String TatTree) :=
  match buildForest env nbrs loc fuel partitionPages ⟨∅, [], start, []⟩ with
  | none => none
  | some (.error e) => some (.error e)
  | some (.ok f) =>
    match buildTatFromIndexPages env fuel f.indexPages f.roots f.nextNo with
    | none => none
    | some (.error e) => some (.error e)
    | some (.ok r) => some (.ok ⟨r.indexPages, r.rootPageNo, f.trees, r⟩)

end Level

/-! ## What a construction that returns has done -/

variable {env : TatEnv} {nbrs : VId → List VId} {loc : VId → PageNo} {fuel : Nat}

/-- What holds of a state whose root is built, and of a state below one where it holds, holds at the
start of the loop. -/
@[elab_as_elim]
theorem buildTree_induct {wiring rootWiring : Wiring} {r : TatResult} {motive : TatState → Prop}
    (s : TatState) (h : buildTree env wiring rootWiring fuel s = some (.ok r))
    (root : ∀ s, s.graph.keys.length ≤ env.cfg.maxBlocks →
      buildRoot env rootWiring s = .ok r → motive s)
    (level : ∀ s s', env.cfg.maxBlocks < s.graph.keys.length →
      levelStep env wiring s = .ok s' → motive s' → motive s) : motive s := by
  induction fuel generalizing s with
  | zero => cases h
  | succ fuel ih =>
    unfold buildTree at h
    rw [climb] at h
    by_cases hcap : s.graph.keys.length > env.cfg.maxBlocks
    · rw [if_pos hcap] at h
      cases hstep : levelStep env wiring s with
      | error e => rw [hstep] at h; cases h
      | ok s' =>
        rw [hstep] at h
        exact level s s' hcap hstep (ih s' h)
    · rw [if_neg hcap] at h
      exact root s (Nat.le_of_not_lt hcap) (Option.some.inj h)

theorem buildForest_cons {pages : List LeafPage} {rest : List (List LeafPage)} {f f' : Forest}
    (h : buildForest env nbrs loc fuel (pages :: rest) f = some (.ok f')) :
    pages = [] ∧ buildForest env nbrs loc fuel rest f = some (.ok f') ∨
      pages ≠ [] ∧ ∃ r, buildTatFromCsrPages env nbrs loc fuel pages f.nextNo = some (.ok r) ∧
        buildForest env nbrs loc fuel rest (f.add r) = some (.ok f') := by
  rw [buildForest] at h
  split_ifs at h with hne
  · exact .inl ⟨hne, h⟩
  · split at h
    · cases h
    · cases h
    · exact .inr ⟨hne, _, ‹_›, h⟩

theorem buildHierarchicalTat_ok {groups : List (List LeafPage)} {start : PageNo} {t : TatTree}
    (h : buildHierarchicalTat env nbrs loc fuel groups start = some (.ok t)) :
    ∃ f r, buildForest env nbrs loc fuel groups ⟨∅, [], start, []⟩ = some (.ok f) ∧
      buildTatFromIndexPages env fuel f.indexPages f.roots f.nextNo = some (.ok r) ∧
      t = ⟨r.indexPages, r.rootPageNo, f.trees, r⟩ := by
  unfold buildHierarchicalTat at h
  split at h
  · cases h
  · cases h
  · split at h
    · cases h
    · cases h
    · cases h
      exact ⟨_, _, ‹_›, ‹_›, rfl⟩

end BwGraph
