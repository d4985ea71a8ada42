import BwGraph.Io.PageData
import BwGraph.Db.Run
import BwGraph.Db.TatTree

/-
  The index tree under consolidation (`smo.cc`). `publish_version_switch` ends with an update of
  the index page that the old CSR page names as its parent: the page is renamed there
  (`updateIndexNoSplit`) or replaced by the pages of its split (`updateIndexSplit`), and an index
  page that gets too full is split in turn (`doIndexSplit`), up to a new root. The update is left
  out when `smo_ctl_t` has no index or the parent number is 0.

  That number is the one `parse_from_page_data` reads at byte 8 of the page. The pages of a
  consolidation are built with 0 there, so that a database whose pages all have the parent 0
  keeps its tree as it is (`TatStep.quiet`).
-/

namespace BwGraph

open EStateM (bind_eq_ok get_bind pure_eq_ok)

/-! ## Changes of a block map -/

namespace BlockAdjMap

/-- `map[a].push_back(b)`. -/
def push (m : BlockAdjMap) (a b : PageNo) : BlockAdjMap := m.insert a (getNeighborPages m a ++ [b])

/-- `for (auto& [k, nbrs] : map) nbrs = f(nbrs)`. -/
def mapLists (f : List PageNo → List PageNo) (m : BlockAdjMap) : BlockAdjMap :=
  m.keys.foldl (fun m k => m.insert k (f (getNeighborPages m k))) m

/-- A page gets a new number, as a key and in the lists. -/
def rename (old new : PageNo) (m : BlockAdjMap) : BlockAdjMap :=
  let m := match m.lookup old with
    | some edges => (m.erase old).insert new edges
    | none => m
  mapLists (List.map fun n => if n = old then new else n) m

/-- A page goes, as a key and in the lists. -/
def remove (old : PageNo) (m : BlockAdjMap) : BlockAdjMap :=
  mapLists (List.filter fun n => n ≠ old) (m.erase old)

/-- `map[p] = {}` for some pages. -/
def clear (ps : List PageNo) (m : BlockAdjMap) : BlockAdjMap :=
  ps.foldl (fun m p => m.insert p []) m

/-- An edge between two pages, on the sides that are in the map. -/
def link (m : BlockAdjMap) (e : PageNo × PageNo) : BlockAdjMap :=
  let m := if e.1 ∈ m then m.addNeighbor e.1 e.2 else m
  if e.2 ∈ m then m.addNeighbor e.2 e.1 else m

/-- The loops over the pairs `i < j` of some pages. -/
def pushPairs : List PageNo → BlockAdjMap → BlockAdjMap
  | [], m => m
  | p :: ps, m => pushPairs ps (ps.foldl (fun m q => (m.push p q).push q p) m)

/-- New pages that are all adjacent to one another. -/
def addSiblings (ps : List PageNo) (m : BlockAdjMap) : BlockAdjMap := pushPairs ps (m.clear ps)

end BlockAdjMap

/-- The edges of a graph between different pages. -/
def pageLinks (order : HashOrder) (graph : AdjMap) (loc : VId → PageNo) : List (PageNo × PageNo) :=
  (order.order graph.keys).flatMap fun v =>
    ((graph.get v).filter fun u => loc u ≠ loc v).map fun u => (loc v, loc u)

/-! ## The index tree -/

/-- The index of an open database: `index_page_map`, the number of `root_index_page` and
`next_index_page_no_`. `lowest` are the index pages over CSR pages; `handedOut` is how many
numbers have been handed out. -/
structure TatIndex where
  indexPages : IndexPageMap
  root : PageNo
  nextNo : PageNo
  lowest : List PageNo
  handedOut : Nat

/-- Computations on the index that may throw. -/
abbrev TreeM := EStateM String TatIndex

/-- `new index_page_t(no, adj)`. -/
def newIndexPage (env : TatEnv) (no : PageNo) (adj : BlockAdjMap) : TreeM IndexPage :=
  match IndexPage.create env.cfg env.ho env.fresh no adj with
  | .error e => throw e
  | .ok page => return page

/-- `(*index_page_map_)[no] = page`. -/
def putIndexPage (no : PageNo) (page : IndexPage) : TreeM Unit :=
  modify fun t => { t with indexPages := t.indexPages.insert no page }

/-- `next_index_page_no_.fetch_sub(1)`. -/
def fetchIndexNo : TreeM PageNo := do
  let t ← get
  set { t with nextNo := pageNoSub t.nextNo 1, handedOut := t.handedOut + 1 }
  return t.nextNo

/-- The copy of an index page over another map, with its parent and its neighbour pages. -/
def copyIndexPage (env : TatEnv) (no : PageNo) (old : IndexPage) (adj : BlockAdjMap) :
    TreeM Unit := do
  let page ← newIndexPage env no adj
  putIndexPage no (old.readNeighborBlockClone.foldl (fun p n => (p.addNeighborPageNo env.cfg n).2)
    (page.setParentPageNo old.parentPageNo))

/-- `update_index_no_split`. -/
def updateIndexNoSplit (env : TatEnv) (oldPageNo newPageNo parentNo : PageNo) : TreeM Unit := do
  match (← get).indexPages.lookup parentNo with
  | none => return
  | some old =>
    copyIndexPage env parentNo old ((old.getBlockAdjMap env.cfg).rename oldPageNo newPageNo)

/-- The loop over the parts of an index page that is split. -/
def splitIndexPages (env : TatEnv) (adj : BlockAdjMap) (grandparentNo : PageNo) :
    List (List PageNo) → TreeM (List PageNo)
  | [] => return []
  | part :: parts =>
    if part = [] then splitIndexPages env adj grandparentNo parts
    else do
      let no ← fetchIndexNo
      let page ← newIndexPage env no (inducedBlockSubgraph adj part)
      putIndexPage no (page.setParentPageNo grandparentNo)
      let nos ← splitIndexPages env adj grandparentNo parts
      return no :: nos

/-- The parent of some index pages; a number that is not in the map is skipped. -/
def setParents (parentNo : PageNo) (nos : List PageNo) : TreeM Unit :=
  modify fun t =>
    { t with
      indexPages := nos.foldl (fun m no =>
        match m.lookup no with
        | some page => m.insert no (page.setParentPageNo parentNo)
        | none => m) t.indexPages }

/-- The new index pages in the place of the one that was split. -/
def updateGrandparent (env : TatEnv) (oldNo grandparentNo : PageNo) (nos : List PageNo) :
    TreeM Unit := do
  match (← get).indexPages.lookup grandparentNo with
  | none => return
  | some gp =>
    copyIndexPage env grandparentNo gp (((gp.getBlockAdjMap env.cfg).remove oldNo).addSiblings nos)
    setParents grandparentNo nos

/-- The root over the parts of the old root. -/
def updateRoot (env : TatEnv) : List PageNo → TreeM Unit
  | [no] => modify fun t => { t with root := no }
  | nos => do
    let rootNo ← fetchIndexNo
    let root ← newIndexPage env rootNo (BlockAdjMap.addSiblings nos ∅)
    putIndexPage rootNo root
    modify fun t => { t with root := rootNo }
    setParents rootNo nos

/-- `do_index_split`; `page_no_t` narrows the parent of the old page. -/
def doIndexSplit (env : TatEnv) (oldNo : PageNo) (adj : BlockAdjMap) : TreeM Unit := do
  let t ← get
  let grandparentNo := ((t.indexPages.lookup oldNo).map IndexPage.parentPageNo).getD 0 % 2 ^ 32
  set { t with indexPages := t.indexPages.erase oldNo }
  let targetSize := if env.cfg.maxBlocks > 0 then env.targetSize else 1
  match absoluteWeightBlockPartition env.partitioner adj targetSize with
  | .error e => throw e
  | .ok parts =>
    let nos ← splitIndexPages env adj grandparentNo parts
    modify fun t => { t with lowest := t.lowest.erase oldNo ++ nos }
    if nos = [] then return
    else if grandparentNo ≠ 0 then updateGrandparent env oldNo grandparentNo nos
    else updateRoot env nos

/-- `update_index_split`; `edges` are the edges of the merged graph between pages. -/
def updateIndexSplit (env : TatEnv) (oldPageNo parentNo : PageNo) (newPageNos : List PageNo)
    (edges : List (PageNo × PageNo)) : TreeM Unit := do
  match (← get).indexPages.lookup parentNo with
  | none => return
  | some old =>
    let adj := ((old.getBlockAdjMap env.cfg).remove oldPageNo).clear newPageNos
    let adj := edges.foldl BlockAdjMap.link adj
    if env.targetSize = 0 ∨ adj.keys.length ≤ env.targetSize then copyIndexPage env parentNo old adj
    else doIndexSplit env parentNo adj

/-! ## Consolidation with an index -/

/-- An open database with an index tree. `wired` says that `smo_ctl_t` knows the tree, `parents`
is `parent_page_no_` of the CSR pages, and `live` are the CSR pages that no consolidation has
replaced. -/
structure TatDb where
  db : Db
  tree : TatIndex
  wired : Bool
  parents : PageNo → PageNo
  live : List PageNo

/-- Computations on such a database. -/
abbrev TatM := EStateM String TatDb

/-- A computation on the database below. -/
def TatM.onDb {α : Type} (x : DbM α) : TatM α := fun s =>
  match x s.db with
  | .ok a db => .ok a { s with db := db }
  | .error e db => .error e { s with db := db }

/-- A computation on the index. -/
def TatM.onTree {α : Type} (x : TreeM α) : TatM α := fun s =>
  match x s.tree with
  | .ok a t => .ok a { s with tree := t }
  | .error e t => .error e { s with tree := t }

/-- `parent_page_no_` after `parse_from_page_data`: a page that is refused keeps 0. -/
def parsedParent (cfg : Config) (data : List Nat) : PageNo :=
  match parseFromPageData cfg data with
  | .ok (_, links) => links.parentPageNo
  | .error _ => 0

/-- The replacement pages: their numbers, each once. -/
def Replacement.pageNos (r : Replacement) : List PageNo :=
  (r.locations.keys.filterMap fun v => (r.locations.lookup v).map fun p => p.desired.pageNo).dedup

/-- The new pages are built on objects without a parent and parsed as they enter the pool. -/
def TatDb.replacePage (cfg : Config) (oldPageNo : PageNo) (newPageNos : List PageNo) (s : TatDb) :
    TatDb :=
  { s with
    parents := fun q =>
      if q ∈ newPageNos then parsedParent cfg ((s.db.csrPool.page q).pageData cfg ⟨0, 0⟩)
      else s.parents q
    live := s.live.erase oldPageNo ++ newPageNos }

/-- The end of `publish_version_switch`: the update of the index. -/
def publishIndex (cfg : Config) (tenv : TatEnv) (env : SmoEnv) (oldPageNo oldParentNo : PageNo)
    (graph : AdjMap) (newPageNos : List PageNo) : TatM Unit := do
  let s ← get
  if s.wired ∧ oldParentNo ≠ 0 then
    if estimatePageBytes cfg graph > cfg.pageSize then
      if newPageNos = [] then return
      else TatM.onTree (updateIndexSplit tenv oldPageNo oldParentNo newPageNos
        (pageLinks env.graphOrder graph fun v => (s.db.location v).1))
    else TatM.onTree (updateIndexNoSplit tenv oldPageNo (newPageNos.headD 0) oldParentNo)
  else return

/-- `consolidate_pages` of a database with an index tree. -/
def consolidatePagesIndexed (cfg : Config) (tenv : TatEnv) (env : SmoEnv) (oldPageNo : PageNo) :
    TatM SmoExit := do
  let s ← get
  if !env.enabled then return .disabled
  else if s.db.pageMap.getDeltaChainLength oldPageNo < safetyThreshold cfg env then
    return .belowThreshold
  else
    let deltas ← TatM.onDb (fetchDeltas oldPageNo)
    if deltas.isEmpty then return .noDeltas
    else
      let db := (← get).db
      let graph := buildMergedGraph cfg (db.csrPool.page oldPageNo) deltas db.vertexIndex db.giantDb
      match ← TatM.onDb (buildReplacement cfg env oldPageNo deltas) with
      | none => return .emptyGraph
      | some r =>
        TatM.onDb (publishReplacement cfg env oldPageNo r)
        modify (TatDb.replacePage cfg oldPageNo r.pageNos)
        publishIndex cfg tenv env oldPageNo (s.parents oldPageNo) graph r.pageNos
        return .published

/-- One step of a run: a consolidation, or any other call, which leaves the index alone. -/
inductive TatStep (cfg : Config) (tenv : TatEnv) (s : TatDb) : DbEvent → TatDb → Prop
  | call {e : DbEvent} {db' : Db} (he : ∀ p env, e ≠ .consolidate p env)
      (h : SeqStep cfg s.db e db') : TatStep cfg tenv s e { s with db := db' }
  | consolidate {p : PageNo} {env : SmoEnv} {exit : SmoExit} {s' : TatDb}
      (h : consolidatePagesIndexed cfg tenv env p s = .ok exit s') :
      TatStep cfg tenv s (.consolidate p env) s'

/-! ## Pages without a parent -/

variable {cfg : Config} {tenv : TatEnv} {env : SmoEnv} {s s' : TatDb}

theorem parsedParent_eq_zero {data : List Nat} (h : wordRead (data.drop 8) = 0) :
    parsedParent cfg data = 0 := by
  unfold parsedParent
  cases hp : parseFromPageData cfg data with
  | error e => rfl
  | ok r =>
    unfold parseFromPageData at hp
    dsimp only at hp
    split_ifs at hp
    · cases hp
      rfl
    · cases hp
      exact h

/-- A page that was written without a parent is parsed without one. -/
theorem parsedParent_pageData (page : CsrPage) (n : Nat) :
    parsedParent cfg (page.pageData cfg ⟨0, n⟩) = 0 := by
  refine parsedParent_eq_zero ?_
  obtain ⟨k, hk⟩ := page.pageData_eq cfg ⟨0, n⟩
  rw [hk]
  exact wordRead_wordWrite (Nat.two_pow_pos 32) (wordWrite n ++ _)

theorem TatM.onDb_ok {α : Type} {x : DbM α} {a : α} (h : TatM.onDb x s = .ok a s') :
    x s.db = .ok a s'.db ∧ s' = { s with db := s'.db } := by
  unfold TatM.onDb at h
  cases hx : x s.db with
  | ok b db =>
    rw [hx] at h
    cases h
    exact ⟨rfl, rfl⟩
  | error e db =>
    rw [hx] at h
    cases h

theorem publishIndex_zero {p : PageNo} {graph : AdjMap} {nos : List PageNo}
    (h : publishIndex cfg tenv env p 0 graph nos s = .ok () s') : s' = s := by
  unfold publishIndex at h
  rw [get_bind] at h
  rw [if_neg fun hc => hc.2 rfl] at h
  exact (pure_eq_ok.1 h).2.symm

/-- The tree is kept and no CSR page has a parent. -/
structure Quiet (s s' : TatDb) : Prop where
  tree : s'.tree = s.tree
  parents : ∀ q, s'.parents q = 0

theorem Quiet.replacePage (h : Quiet s s') (p : PageNo) (nos : List PageNo) :
    Quiet s (s'.replacePage cfg p nos) := by
  refine ⟨h.tree, fun q => ?_⟩
  show (if q ∈ nos then _ else _) = 0
  split
  · exact parsedParent_pageData _ 0
  · exact h.parents q

/-- A consolidation of a database without parents is the one without an index, and keeps the
tree. -/
theorem consolidatePagesIndexed_quiet {p : PageNo} {exit : SmoExit} (hz : ∀ q, s.parents q = 0)
    (h : consolidatePagesIndexed cfg tenv env p s = .ok exit s') :
    consolidatePages cfg env p s.db = .ok exit s'.db ∧ Quiet s s' := by
  unfold consolidatePagesIndexed at h
  rw [get_bind] at h
  unfold consolidatePages
  rw [get_bind]
  split_ifs at h with hen hlen
  · obtain ⟨rfl, rfl⟩ := pure_eq_ok.1 h
    rw [if_pos hen]
    exact ⟨rfl, rfl, hz⟩
  · obtain ⟨rfl, rfl⟩ := pure_eq_ok.1 h
    rw [if_neg hen, if_pos hlen]
    exact ⟨rfl, rfl, hz⟩
  · rw [if_neg hen, if_neg hlen]
    obtain ⟨deltas, s1, hfetch, h⟩ := bind_eq_ok.1 h
    obtain ⟨hf, hs1⟩ := TatM.onDb_ok hfetch
    have hq1 : Quiet s s1 := by
      rw [hs1]
      exact ⟨rfl, hz⟩
    split_ifs at h with hempty
    · obtain ⟨rfl, rfl⟩ := pure_eq_ok.1 h
      refine ⟨bind_eq_ok.2 ⟨deltas, _, hf, ?_⟩, hq1⟩
      rw [if_pos hempty]
      rfl
    · rw [get_bind] at h
      obtain ⟨r, s2, hbuild, h⟩ := bind_eq_ok.1 h
      obtain ⟨hb, hs2⟩ := TatM.onDb_ok hbuild
      have hq2 : Quiet s s2 := by
        rw [hs2]
        exact ⟨hq1.tree, hq1.parents⟩
      cases r with
      | none =>
        obtain ⟨rfl, rfl⟩ := pure_eq_ok.1 h
        refine ⟨bind_eq_ok.2 ⟨deltas, _, hf, ?_⟩, hq2⟩
        rw [if_neg hempty]
        exact bind_eq_ok.2 ⟨none, _, hb, rfl⟩
      | some r =>
        obtain ⟨⟨⟩, s3, hpub, h⟩ := bind_eq_ok.1 h
        obtain ⟨hp, hs3⟩ := TatM.onDb_ok hpub
        obtain ⟨⟨⟩, s4, hrep, h⟩ := bind_eq_ok.1 h
        cases hrep
        obtain ⟨⟨⟩, s5, hidx, h⟩ := bind_eq_ok.1 h
        obtain ⟨rfl, rfl⟩ := pure_eq_ok.1 h
        rw [hz p] at hidx
        have heq := publishIndex_zero hidx
        subst heq
        refine ⟨bind_eq_ok.2 ⟨deltas, _, hf, ?_⟩, Quiet.replacePage ?_ p _⟩
        · rw [if_neg hempty]
          exact bind_eq_ok.2 ⟨some r, _, hb, bind_eq_ok.2 ⟨(), _, hp, rfl⟩⟩
        · rw [hs3]
          exact ⟨hq2.tree, hq2.parents⟩

/-- Without parents, every step keeps the tree. -/
theorem TatStep.quiet {e : DbEvent} (hz : ∀ q, s.parents q = 0) (h : TatStep cfg tenv s e s') :
    SeqStep cfg s.db e s'.db ∧ Quiet s s' := by
  cases h with
  | call he h => exact ⟨h, rfl, hz⟩
  | consolidate h =>
    obtain ⟨h1, h2⟩ := consolidatePagesIndexed_quiet hz h
    exact ⟨.consolidate h1, h2⟩

/-- A run of a database without parents is a run of the database below, under the tree it started
with. -/
theorem TatStep.quiet_run {es : List DbEvent} (hz : ∀ q, s.parents q = 0)
    (h : Steps (TatStep cfg tenv) s es s') : Steps (SeqStep cfg) s.db es s'.db ∧ Quiet s s' := by
  induction h with
  | nil => exact ⟨.nil, rfl, hz⟩
  | snoc _ hstep ih =>
    obtain ⟨hrun, hq⟩ := ih
    obtain ⟨h1, h2⟩ := TatStep.quiet hq.parents hstep
    exact ⟨.snoc hrun h1, h2.tree.trans hq.tree, h2.parents⟩

end BwGraph
