import BwGraph.Algo.BfsBlock

/-
  `bfs_block_parallel` (`db_algorithm.cc`): workers take pages from one queue. A page is processed
  once only, by the worker that inserts it into `visited_pages`. Every access to what the workers
  share is a step of its own.

  A worker that finds the queue empty ends the search if it is the only active one, and else it
  tries again. None of the others leaves the loop before the search is ended, so two workers in the
  loop wait for each other forever (`BlockParState.Hung`). A call that returns was the work of one
  worker up to the end of the queue, whatever the interleaving (`ParCase`), and so it is the search
  of `bfs_block` with pages entered once (`BlockWorker.view`). Both searches on a database that was
  just built are in `bfsBlock_bfsBlockParallel`.
-/

namespace BwGraph

open Function List Option ForkJoin OutsideMap

/-! ## The workers -/

/-- What the workers share. -/
structure BlockShared where
  mem : BlockMem
  activeWorkers : Nat
  shouldContinue : Bool

/-- Where a worker stands: at its start, in the loop that waits for an item, with an item, inside a
page (`level`), in the loops over its results, or at its end. -/
inductive BlockWorker where
  | start
  | check
  | tryPop
  | idle
  | retryPop
  | stop
  | find (currentVertex : VId) (currentPageNo : PageNo)
  | insert (currentVertex : VId) (currentPageNo : PageNo)
  | enter (currentVertex : VId) (currentPageNo : PageNo)
  | level (w : BlockWork)
  | publish (w : BlockWork)
  | scan (w : BlockWork) (map : OutsideMap)
  | scanPage (w : BlockWork) (map : OutsideMap) (neighborId : VId)
  | push (items : List (VId × PageNo))
  | leave
  | finished

/-- `outside_map[page_no] = neighbor_id`, if the page has no entry. -/
def OutsideMap.emplace (map : OutsideMap) (pageNo : PageNo) (neighborId : VId) : OutsideMap :=
  if pageNo ∈ map.keys then map else map.assign pageNo neighborId

/-- One of `neighbors_to_process` under the lock. -/
def blockNeighborLocked (L : BlockLayout) (st : (VId → Bool) × BlockWork) (neighborId : VId) :
    (VId → Bool) × BlockWork :=
  if st.1 neighborId = false then blockVisit L st neighborId else st

/-- One step of the level loop of `bfs_block_inner_parallel`: a vertex of the level, the neighbours
of which are visited under one lock, or the next level. -/
def blockNextLocked (L : BlockLayout) (visited : VId → Bool) (w : BlockWork) :
    Option ((VId → Bool) × BlockWork) :=
  match w.currentLevel with
  | currentOffset :: rest =>
    let neighborSpan := L.neighbors w.pageNo currentOffset
    if ∀ d ∈ neighborSpan, d < L.vertexCount then
      some ((neighborSpan.filter fun d => L.page d = w.pageNo ∧ L.OnPage w.pageNo d).foldl
        (blockNeighborLocked L)
        (visited, { w with
          currentLevel := rest
          outside := w.outside ++ neighborSpan.filter fun d => L.page d ≠ w.pageNo }))
    else none
  | [] =>
    if w.nextLevel = [] then none
    else some (visited, { w with
      currentLevel := w.nextLevel
      nextLevel := []
      currentLevelNum := w.currentLevelNum + 1 })

/-- One step of a worker; `none` at its end and at a wrong id. -/
def blockWorkerNext (L : BlockLayout) (order : BlockMem → HashOrder) (sh : BlockShared) :
    BlockWorker → Option (BlockShared × BlockWorker)
  | .start => some ({ sh with activeWorkers := sh.activeWorkers + 1 }, .check)
  | .check => some (sh, if sh.shouldContinue then .tryPop else .leave)
  | .tryPop =>
    match sh.mem.blockQueue with
    | [] => some (sh, .idle)
    | (x, p) :: rest => some ({ sh with mem := { sh.mem with blockQueue := rest } }, .find x p)
  | .idle => some (sh, if sh.activeWorkers = 1 then .retryPop else .check)
  | .retryPop =>
    match sh.mem.blockQueue with
    | [] => some (sh, .stop)
    | (x, p) :: rest => some ({ sh with mem := { sh.mem with blockQueue := rest } }, .find x p)
  | .stop => some ({ sh with shouldContinue := false }, .leave)
  | .find x p => some (sh, if sh.mem.visitedPages p then .check else .insert x p)
  | .insert x p =>
    if sh.mem.visitedPages p then some (sh, .check)
    else some ({ sh with mem := { sh.mem with
      visitedPages := Function.update sh.mem.visitedPages p true } }, .enter x p)
  | .enter x p =>
    if L.OnPage p x ∧ sh.mem.visited x = false then
      some ({ sh with mem := { sh.mem with visited := Function.update sh.mem.visited x true } },
        .level (blockStart L x p))
    -- the block has no results, so the loops over them do nothing
    else some (sh, .push [])
  | .level w =>
    if w.currentLevel = [] ∧ w.nextLevel = [] then some (sh, .publish w)
    else (blockNextLocked L sh.mem.visited w).map fun r =>
      ({ sh with mem := { sh.mem with visited := r.1 } }, .level r.2)
  | .publish w =>
    match w.vertexOrder with
    | [] => some (sh, .scan w ⟨[], fun _ => 0⟩)
    | pair :: rest =>
      some ({ sh with mem := { sh.mem with visitedOrder := sh.mem.visitedOrder ++ [pair] } },
        .publish { w with vertexOrder := rest })
  | .scan w map =>
    match w.outside with
    | [] => some (sh, .push (map.items (order sh.mem)))
    | d :: rest =>
      some (sh, if sh.mem.visited d then .scan { w with outside := rest } map
        else .scanPage { w with outside := rest } map d)
  | .scanPage w map d =>
    some (sh, .scan w (if sh.mem.visitedPages (L.page d) then map else map.emplace (L.page d) d))
  | .push items =>
    match items with
    | [] => some (sh, .check)
    | e :: rest =>
      some ({ sh with mem := { sh.mem with blockQueue := sh.mem.blockQueue ++ [e] } }, .push rest)
  | .leave => some ({ sh with activeWorkers := sh.activeWorkers - 1 }, .finished)
  | .finished => none

/-- The shared data and the workers. -/
structure BlockParState extends BlockShared where
  workers : List BlockWorker

/-- The start of `bfs_block_parallel`. -/
def bfsBlockParallelStart (L : BlockLayout) (startVertex : VId) (numWorkers : Nat) :
    BlockParState :=
  ⟨⟨(bfsBlockStart L startVertex).mem, 0, true⟩, List.replicate numWorkers .start⟩

/-- One step of worker `i`. -/
def bfsBlockParallelStep (L : BlockLayout) (order : BlockMem → HashOrder) (st : BlockParState)
    (i : Nat) : Option BlockParState :=
  st.workers[i]?.bind fun t => (blockWorkerNext L order st.toBlockShared t).map fun r =>
    ⟨r.1, st.workers.set i r.2⟩

/-- `task_group.wait` returns. -/
def BlockParState.Returned (st : BlockParState) : Prop := ∀ t ∈ st.workers, t = .finished

/-- The worker is at its end. -/
def BlockWorker.isFinished : BlockWorker → Bool
  | .finished => true
  | _ => false

instance (st : BlockParState) : Decidable st.Returned :=
  decidable_of_iff (st.workers.all BlockWorker.isFinished = true) (by
    rw [List.all_eq_true]
    refine forall₂_congr fun t _ => ?_
    cases t <;> simp [BlockWorker.isFinished])

/-- The result: the noted pairs, sorted by level. -/
def BlockParState.Result (st : BlockParState) (result : List (VId × Nat)) : Prop :=
  result.Perm st.mem.visitedOrder ∧ result.Pairwise fun a b => a.2 ≤ b.2

/-- The worker has found itself alone, with nothing in the queue. -/
def BlockWorker.Past : BlockWorker → Prop
  | .retryPop | .stop | .leave | .finished => True
  | _ => False

/-- The worker has no item. -/
def BlockWorker.Free : BlockWorker → Prop
  | .start | .check | .tryPop | .idle | .retryPop | .stop | .leave | .finished => True
  | _ => False

/-- Two workers are in the loop, and none has found itself alone. -/
def BlockParState.Hung (st : BlockParState) : Prop :=
  st.shouldContinue = true ∧ 2 ≤ st.activeWorkers ∧ ∀ t ∈ st.workers, ¬ t.Past

/-- The step of a worker with the data is a good one: it does not start next to another one in the
loop, and it takes no page that it does harm to enter. -/
def ParOk (L : BlockLayout) (R : VId → Prop) (compressed : Bool) (st : BlockParState) (i : Nat) :
    Prop :=
  match st.workers[i]? with
  | some .start => st.activeWorkers = 0 ∨ ∃ t ∈ st.workers, t.Past
  | some (.insert x p) =>
    st.mem.visitedPages p = false → TakeOk L R False compressed st.mem x
  | _ => True

/-! ## A step under the lock -/

theorem foldl_blockNeighborLocked (L : BlockLayout) (l : List VId) (visited : VId → Bool)
    (w : BlockWork) :
    (l.filter fun d => L.page d = w.pageNo ∧ L.OnPage w.pageNo d).foldl (blockNeighborLocked L)
        (visited, { w with outside := w.outside ++ l.filter fun d => L.page d ≠ w.pageNo }) =
      l.foldl (blockNeighbor L) (visited, w) := by
  induction l generalizing visited w with
  | nil => simp
  | cons d l ih =>
    rw [foldl_cons]
    by_cases hpage : L.page d = w.pageNo
    · by_cases hon : L.OnPage w.pageNo d
      · by_cases hv : visited d = false
        · have hstep : blockNeighbor L (visited, w) d = blockVisit L (visited, w) d := by
            unfold blockNeighbor
            rw [if_neg (by simpa using hpage), if_pos ⟨hv, hon⟩]
          rw [hstep, blockVisit, ← ih]
          simp [hpage, hon, blockNeighborLocked, hv, blockVisit]
        · have hstep : blockNeighbor L (visited, w) d = (visited, w) := by
            unfold blockNeighbor
            rw [if_neg (by simpa using hpage), if_neg fun h => hv h.1]
          rw [hstep, ← ih]
          simp [hpage, hon, blockNeighborLocked, hv]
      · have hstep : blockNeighbor L (visited, w) d = (visited, w) := by
          unfold blockNeighbor
          rw [if_neg (by simpa using hpage), if_neg fun h => hon h.2]
        rw [hstep, ← ih]
        simp [hpage, hon]
    · have hstep : blockNeighbor L (visited, w) d =
          (visited, { w with outside := w.outside ++ [d] }) := if_pos hpage
      rw [hstep, ← ih]
      simp [hpage]

/-- Both level loops take the same steps. -/
theorem blockNextLocked_eq (L : BlockLayout) (visited : VId → Bool) (w : BlockWork) :
    blockNextLocked L visited w = blockNext L visited w := by
  unfold blockNextLocked blockNext
  cases hcur : w.currentLevel with
  | nil => rfl
  | cons o rest =>
    dsimp only
    have hfold := foldl_blockNeighborLocked L (L.neighbors w.pageNo o) visited
      { w with currentLevel := rest }
    dsimp only at hfold
    rw [hfold]

/-! ## One worker alone -/

/-- The memory with items that are still to be pushed. -/
def BlockMem.pushed (m : BlockMem) (items : List (VId × PageNo)) : BlockMem :=
  { m with blockQueue := m.blockQueue ++ items }

/-- The memory with an item that was popped and not used yet. -/
def BlockMem.held (m : BlockMem) (e : VId × PageNo) : BlockMem :=
  { m with blockQueue := e :: m.blockQueue }

/-- The map entries in the order of their insertion. -/
def OutsideMap.pending (map : OutsideMap) : List (VId × PageNo) := map.items .listed

/-- Where a worker stands in `bfs_block`: what it holds in its locals belongs to the queue, or to
the page. -/
def BlockWorker.view (L : BlockLayout) (m : BlockMem) : BlockWorker → BlockMem × Option BlockWork
  | .find x p | .insert x p => (m.held (x, p), none)
  | .enter x p =>
    if L.OnPage p x ∧ m.visited x = false then
      ({ m with visited := Function.update m.visited x true }, some (blockStart L x p))
    else (m, none)
  | .level w | .publish w => (m, some w)
  | .scan w map => (m.pushed map.pending, some w)
  | .scanPage w map d => (m.pushed map.pending, some { w with outside := d :: w.outside })
  | .push items => (m.pushed items, none)
  | _ => (m, none)

/-- The locals fit to where the worker stands. -/
def BlockWorker.Fits (m : BlockMem) : BlockWorker → Prop
  | .enter _ p => m.visitedPages p = true
  | .level w => m.visitedPages w.pageNo = true
  | .publish w =>
    m.visitedPages w.pageNo = true ∧ w.currentLevel = [] ∧ w.nextLevel = []
  | .scan w _ | .scanPage w _ _ =>
    m.visitedPages w.pageNo = true ∧ w.currentLevel = [] ∧ w.nextLevel = [] ∧ w.vertexOrder = []
  | _ => True

section Solo

variable {L : BlockLayout} {R : VId → Prop} {s : VId} {order : BlockMem → HashOrder}
  {sh sh' : BlockShared} {t t' : BlockWorker} {m : BlockMem} {compressed : Bool}

/-- The invariant, as the worker sees it. -/
def InvAt (L : BlockLayout) (s : VId) (m : BlockMem) (t : BlockWorker) : Prop :=
  BlockInv L s (t.view L m).1 (t.view L m).2 ∧ t.Fits m

/-- A good run so far, as the worker sees it. -/
def GoodAt (L : BlockLayout) (R : VId → Prop) (m : BlockMem) (t : BlockWorker) : Prop :=
  BlockGood L R False (t.view L m).1 (t.view L m).2

/-- A worker that is to insert a page takes a good item. -/
def TakesWell (L : BlockLayout) (R : VId → Prop) (compressed : Bool) (m : BlockMem) :
    BlockWorker → Prop
  | .insert x p => m.visitedPages p = false → TakeOk L R False compressed m x
  | _ => True

variable {e : VId × PageNo} {w : BlockWork}

theorem takeOk_held {x : VId} :
    TakeOk L R False compressed (m.held e) x ↔ TakeOk L R False compressed m x := by
  constructor
  · exact fun h => ⟨h.fresh, fun v hv hp => (h.cover v hv hp).imp_right (Or.imp_right
      fun hf => hf.1.elim), h.reads⟩
  · exact fun h => ⟨h.fresh, fun v hv hp => (h.cover v hv hp).imp_right (Or.imp_right
      fun hf => hf.1.elim), h.reads⟩

/-- A step to another place with the same view. -/
theorem InvAt.same (h : InvAt L s sh.mem t) (hview : t'.view L sh'.mem = t.view L sh.mem)
    (hfits : t'.Fits sh'.mem) (htake : TakesWell L R compressed sh.mem t) :
    InvAt L s sh'.mem t' ∧
      (GoodAt L R sh'.mem t' ↔ GoodAt L R sh.mem t ∧ TakesWell L R compressed sh.mem t) := by
  unfold InvAt GoodAt
  rw [hview, and_iff_left htake]
  exact ⟨⟨h.1, hfits⟩, Iff.rfl⟩

/-- The page of the item was read by now. -/
theorem InvAt.skip {x : VId} {p : PageNo} (h : BlockInv L s (m.held (x, p)) none)
    (hp : m.visitedPages p = true) :
    BlockInv L s m none ∧
      (BlockGood L R False m none ↔ BlockGood L R False (m.held (x, p)) none) := by
  refine ⟨h.drop (e := (x, p)) rfl rfl rfl rfl fun q => ?_, BlockGood.congr Iff.rfl
    (fun q => ?_) (fun v => ?_) fun hf => hf.elim⟩
  · exact (or_iff_left_of_imp fun hq => hq ▸ hp).symm
  · rw [taken_none, taken_none]
    rfl
  · rw [reached_none, reached_none]
    rfl

/-- The page of the item is marked. -/
theorem InvAt.insert {x : VId} {p : PageNo}
    (hraw : compressed = false → ∀ v, L.Stands v → L.Via (fun _ => True) s v → R v ∧ L.InRange v)
    (h : BlockInv L s (m.held (x, p)) none) (hp : m.visitedPages p = false) {m' : BlockMem}
    (hm' : m' = { m with visitedPages := update m.visitedPages p true }) :
    InvAt L s m' (.enter x p) ∧ (GoodAt L R m' (.enter x p) ↔
      BlockGood L R False (m.held (x, p)) none ∧ TakeOk L R False compressed m x) := by
  have hpages : ∀ q, m'.visitedPages q = true ↔ m.visitedPages q = true ∨ q = p := by
    intro q
    rw [hm']
    by_cases hq : q = p
    · simp [hq]
    · simp [hq]
  have hpage : p = L.page x := (h.queue (x, p) mem_cons_self).1
  have hfits : BlockWorker.Fits m' (.enter x p) := (hpages p).2 (.inr rfl)
  unfold InvAt GoodAt
  rw [and_iff_left hfits, ← takeOk_held (e := (x, p))]
  by_cases hon : L.OnPage p x
  · have hnew : m.visited x = false := by
      by_contra hv
      have hv : (m.held (x, p)).visited x = true := by simpa [BlockMem.held] using hv
      have ht := taken_none.1 (h.seen x hv).2.2
      rw [← hpage] at ht
      exact absurd (hp.symm.trans ht) Bool.false_ne_true
    have hview : BlockWorker.view L m' (.enter x p) =
        ({ m' with visited := update m'.visited x true }, some (blockStart L x p)) := by
      subst hm'
      exact if_pos ⟨hon, hnew⟩
    rw [hview]
    subst hm'
    exact ⟨h.take rfl hon fun q hq => (hpages q).2 (.inl hq),
      BlockGood.take_iff h rfl hon (fun q hq => (hpages q).2 (.inl hq)) (fun q => (hpages q).1)
        (fun _ => hp) hraw⟩
  · have hview : BlockWorker.view L m' (.enter x p) = (m', none) := if_neg fun hc => hon hc.1
    rw [hview]
    subst hm'
    exact ⟨h.drop (e := (x, p)) rfl rfl rfl rfl hpages,
      BlockGood.miss_iff h (e := (x, p)) rfl hon rfl rfl rfl hpages⟩

/-- One of the noted pairs is published. -/
theorem InvAt.publish {pair : VId × Nat} {rest : List (VId × Nat)} (h : BlockInv L s m (some w))
    (hw : w.vertexOrder = pair :: rest) :
    BlockInv L s { m with visitedOrder := m.visitedOrder ++ [pair] }
        (some { w with vertexOrder := rest }) ∧
      (BlockGood L R False { m with visitedOrder := m.visitedOrder ++ [pair] }
        (some { w with vertexOrder := rest }) ↔ BlockGood L R False m (some w)) := by
  have hids : blockIds { m with visitedOrder := m.visitedOrder ++ [pair] }
      (some { w with vertexOrder := rest }) = blockIds m (some w) := by
    simp [blockIds, hw]
  refine ⟨h.rework rfl rfl hids rfl rfl rfl (fun _ he => he) (fun _ he => .inl he)
    (fun _ hd => hd) fun d hd => .inr (.inr ⟨_, rfl, hd⟩), ?_⟩
  refine BlockGood.congr (by rw [hids]) (fun q => ?_) (fun v => ?_) fun hf => hf.elim
  · rw [taken_some, taken_some]
  · rw [reached_some, reached_some]

/-- An outside neighbour is done with: it gives no new item, or its page gets one. -/
theorem InvAt.scan {d : VId} {rest : List VId} (m' : BlockMem) (h : BlockInv L s m (some w))
    (hw : w.outside = d :: rest) (hvisited : m'.visited = m.visited)
    (hpages : m'.visitedPages = m.visitedPages) (horder : m'.visitedOrder = m.visitedOrder)
    (hkeep : ∀ e ∈ m.blockQueue, e ∈ m'.blockQueue)
    (hqueue : ∀ e ∈ m'.blockQueue, e ∈ m.blockQueue ∨ e = (d, L.page d))
    (hd : Taken m (some w) (L.page d) ∨ ∃ e ∈ m'.blockQueue, e.2 = L.page d) :
    BlockInv L s m' (some { w with outside := rest }) ∧
      (BlockGood L R False m' (some { w with outside := rest }) ↔
        BlockGood L R False m (some w)) := by
  have hids : blockIds m' (some { w with outside := rest }) = blockIds m (some w) := by
    simp [blockIds, horder]
  have htaken : ∀ q, Taken m' (some { w with outside := rest }) q ↔ Taken m (some w) q := by
    intro q
    rw [taken_some, taken_some, hpages]
  constructor
  · refine h.rework hvisited hpages hids rfl rfl rfl hkeep (fun e he => ?_) (fun c hc => ?_)
      fun c hc => ?_
    · refine (hqueue e he).imp_right fun heq => ?_
      rw [heq, hw]
      exact ⟨rfl, mem_cons_self⟩
    · rw [hw]
      exact mem_cons_of_mem _ hc
    · rw [hw, mem_cons] at hc
      rcases hc with rfl | hc
      · exact hd.imp (htaken _).2 .inl
      · exact .inr (.inr ⟨_, rfl, hc⟩)
  · refine BlockGood.congr (by rw [hids]) htaken (fun v => ?_) fun hf => hf.elim
    rw [reached_some, reached_some, hvisited]

/-- The last of the results is out. -/
theorem InvAt.leave (m' : BlockMem) (h : BlockInv L s m (some w))
    (hpage : m.visitedPages w.pageNo = true) (hcur : w.currentLevel = []) (hnext : w.nextLevel = [])
    (horder : w.vertexOrder = []) (houtside : w.outside = []) (hvisited : m'.visited = m.visited)
    (hpages : m'.visitedPages = m.visitedPages) (hvisitedOrder : m'.visitedOrder = m.visitedOrder)
    (hqueue : ∀ e, e ∈ m'.blockQueue ↔ e ∈ m.blockQueue) :
    BlockInv L s m' none ∧
      (BlockGood L R False m' none ↔ BlockGood L R False m (some w)) := by
  have hids : blockIds m' none = blockIds m (some w) := by
    simp [blockIds, horder, hvisitedOrder]
  have hiff : ∀ q, m'.visitedPages q = true ↔ m.visitedPages q = true ∨ w.pageNo = q := by
    intro q
    rw [hpages]
    exact (or_iff_left_of_imp fun hq => hq ▸ hpage).symm
  refine ⟨h.leave hcur hnext hvisited hids (fun q hq => (hiff q).2 (taken_some.1 hq))
    (fun e he => (hqueue e).2 he) (fun e he => .inl ((hqueue e).1 he)) fun d hd => ?_,
    BlockGood.leave_iff h hcur hnext hvisited hids hiff fun hf => hf.elim⟩
  rw [houtside] at hd
  cases hd

theorem OutsideMap.mem_emplace {map : OutsideMap} {p : PageNo} {d : VId} :
    e ∈ (map.emplace p d).pending ↔ e ∈ map.pending ∨ p ∉ map.keys ∧ e = (d, p) := by
  unfold emplace
  split_ifs with hp
  · simp [hp]
  · unfold pending
    rw [mem_items, mem_items, mem_assign]
    by_cases hep : e.2 = p
    · have hvertex : (map.assign p d).vertex e.2 = d := by
        rw [hep]
        exact update_self _ _ _
      rw [hvertex, hep]
      constructor
      · exact fun h => .inr ⟨hp, Prod.ext h.2.symm hep⟩
      · rintro (⟨hmem, -⟩ | ⟨-, rfl⟩)
        · exact absurd hmem hp
        · exact ⟨.inr rfl, rfl⟩
    · have hvertex : (map.assign p d).vertex e.2 = map.vertex e.2 := update_of_ne hep _ _
      rw [hvertex]
      constructor
      · exact fun h => .inl ⟨h.1.resolve_right hep, h.2⟩
      · rintro (h | ⟨-, rfl⟩)
        · exact ⟨.inl h.1, h.2⟩
        · exact absurd rfl hep

theorem OutsideMap.exists_emplace (map : OutsideMap) (p : PageNo) (d : VId) :
    ∃ e ∈ (map.emplace p d).pending, e.2 = p := by
  by_cases hp : p ∈ map.keys
  · exact ⟨(map.vertex p, p), mem_emplace.2 (.inl (mem_items.2 ⟨hp, rfl⟩)), rfl⟩
  · exact ⟨(d, p), mem_emplace.2 (.inr ⟨hp, rfl⟩), rfl⟩

/-- A step of a worker that is alone keeps the invariant, and the run goes on well exactly if the
worker takes a good item. -/
theorem InvAt.next
    (hraw : compressed = false → ∀ v, L.Stands v → L.Via (fun _ => True) s v → R v ∧ L.InRange v)
    (h : InvAt L s sh.mem t) (hn : blockWorkerNext L order sh t = some (sh', t')) :
    InvAt L s sh'.mem t' ∧
      (GoodAt L R sh'.mem t' ↔ GoodAt L R sh.mem t ∧ TakesWell L R compressed sh.mem t) := by
  cases t with
  | start =>
    cases hn
    exact h.same rfl trivial trivial
  | check =>
    simp only [blockWorkerNext] at hn
    split_ifs at hn <;> (cases hn; exact h.same rfl trivial trivial)
  | tryPop =>
    simp only [blockWorkerNext] at hn
    split at hn
    · cases hn
      exact h.same rfl trivial trivial
    · rename_i x p rest hq
      cases hn
      refine h.same (Prod.ext ?_ rfl) trivial trivial
      simp [BlockWorker.view, BlockMem.held, ← hq]
  | idle =>
    simp only [blockWorkerNext] at hn
    split_ifs at hn <;> (cases hn; exact h.same rfl trivial trivial)
  | retryPop =>
    simp only [blockWorkerNext] at hn
    split at hn
    · cases hn
      exact h.same rfl trivial trivial
    · rename_i x p rest hq
      cases hn
      refine h.same (Prod.ext ?_ rfl) trivial trivial
      simp [BlockWorker.view, BlockMem.held, ← hq]
  | stop =>
    cases hn
    exact h.same rfl trivial trivial
  | find x p =>
    simp only [blockWorkerNext] at hn
    split_ifs at hn with hp
    · cases hn
      obtain ⟨hinv, hgood⟩ := InvAt.skip (R := R) h.1 hp
      exact ⟨⟨hinv, trivial⟩, hgood.trans (and_iff_left trivial).symm⟩
    · cases hn
      exact h.same rfl trivial trivial
  | insert x p =>
    simp only [blockWorkerNext] at hn
    split_ifs at hn with hp
    · cases hn
      obtain ⟨hinv, hgood⟩ := InvAt.skip (R := R) h.1 hp
      refine ⟨⟨hinv, trivial⟩, hgood.trans (and_iff_left fun hnew => ?_).symm⟩
      exact absurd (hnew.symm.trans hp) Bool.false_ne_true
    · cases hn
      have hp : sh.mem.visitedPages p = false := by simpa using hp
      obtain ⟨hinv, hgood⟩ := InvAt.insert hraw h.1 hp rfl
      exact ⟨hinv, hgood.trans (and_congr_right fun _ => ⟨fun ht _ => ht, fun ht => ht hp⟩)⟩
  | enter x p =>
    simp only [blockWorkerNext] at hn
    split_ifs at hn with hx
    · cases hn
      exact h.same (if_pos hx).symm h.2 trivial
    · cases hn
      refine h.same ?_ trivial trivial
      rw [show BlockWorker.view L sh.mem (.enter x p) = (sh.mem, none) from if_neg hx]
      simp [BlockWorker.view, BlockMem.pushed]
  | level w =>
    simp only [blockWorkerNext] at hn
    split_ifs at hn with hend
    · cases hn
      exact h.same rfl ⟨h.2, hend⟩ trivial
    · obtain ⟨⟨visited', w'⟩, hw, heq⟩ := map_eq_some_iff.1 hn
      cases heq
      rw [blockNextLocked_eq] at hw
      obtain ⟨hinv, hgood⟩ : _ ∧ (BlockGood L R False _ _ ↔ BlockGood L R False _ _) :=
        BlockInv.next h.1 hw
      have hpage : w'.pageNo = w.pageNo := by
        rcases (h.1.work w rfl).next hw with ⟨u, new, hl⟩ | ⟨-, -, -, rfl⟩
        · exact hl.pageNo
        · rfl
      refine ⟨⟨hinv, ?_⟩, hgood.trans (and_iff_left trivial).symm⟩
      show sh.mem.visitedPages w'.pageNo = true
      rw [hpage]
      exact h.2
  | publish w =>
    obtain ⟨hpage, hcur, hnext⟩ := h.2
    simp only [blockWorkerNext] at hn
    split at hn
    · rename_i horder
      cases hn
      refine h.same (Prod.ext ?_ rfl) ⟨hpage, hcur, hnext, horder⟩ trivial
      simp [BlockWorker.view, BlockMem.pushed, pending, items_nil]
    · rename_i pair rest horder
      cases hn
      obtain ⟨hinv, hgood⟩ := InvAt.publish (R := R) h.1 horder
      exact ⟨⟨hinv, hpage, hcur, hnext⟩, hgood.trans (and_iff_left trivial).symm⟩
  | scan w map =>
    obtain ⟨hpage, hcur, hnext, horder⟩ := h.2
    simp only [blockWorkerNext] at hn
    split at hn
    · rename_i hout
      cases hn
      have hqueue : ∀ e, e ∈ (sh.mem.pushed (map.items (order sh.mem))).blockQueue ↔
          e ∈ (sh.mem.pushed map.pending).blockQueue := by
        simp [BlockMem.pushed, pending, mem_items]
      obtain ⟨hinv, hgood⟩ :=
        InvAt.leave (R := R) (sh.mem.pushed (map.items (order sh.mem))) h.1 hpage hcur hnext horder
          hout rfl rfl rfl hqueue
      exact ⟨⟨hinv, trivial⟩, hgood.trans (and_iff_left trivial).symm⟩
    · rename_i d rest hout
      split_ifs at hn with hv
      · cases hn
        obtain ⟨hinv, hgood⟩ := InvAt.scan (R := R) _ h.1 hout rfl rfl rfl (fun _ he => he)
          (fun _ he => .inl he) (.inl (h.1.seen d hv).2.2)
        exact ⟨⟨hinv, hpage, hcur, hnext, horder⟩, hgood.trans (and_iff_left trivial).symm⟩
      · cases hn
        refine h.same (Prod.ext rfl ?_) ⟨hpage, hcur, hnext, horder⟩ trivial
        simp [BlockWorker.view, ← hout]
  | scanPage w map d =>
    obtain ⟨hpage, hcur, hnext, horder⟩ := h.2
    simp only [blockWorkerNext] at hn
    split_ifs at hn with hv
    · cases hn
      obtain ⟨hinv, hgood⟩ := InvAt.scan (R := R) _ h.1 (w := { w with outside := d :: w.outside })
        rfl rfl rfl rfl (fun _ he => he) (fun _ he => .inl he) (.inl (.inl hv))
      exact ⟨⟨hinv, hpage, hcur, hnext, horder⟩, hgood.trans (and_iff_left trivial).symm⟩
    · cases hn
      have hkeep : ∀ e ∈ (sh.mem.pushed map.pending).blockQueue,
          e ∈ (sh.mem.pushed (map.emplace (L.page d) d).pending).blockQueue := fun e he =>
        mem_append.2
          ((mem_append.1 he).imp_right fun he => mem_emplace.2 (.inl he))
      have hqueue : ∀ e ∈ (sh.mem.pushed (map.emplace (L.page d) d).pending).blockQueue,
          e ∈ (sh.mem.pushed map.pending).blockQueue ∨ e = (d, L.page d) := by
        intro e he
        rcases mem_append.1 he with he | he
        · exact .inl (mem_append_left _ he)
        · exact (mem_emplace.1 he).imp (mem_append_right _) And.right
      obtain ⟨e, he, hpe⟩ := map.exists_emplace (L.page d) d
      obtain ⟨hinv, hgood⟩ := InvAt.scan (R := R)
        (sh.mem.pushed (map.emplace (L.page d) d).pending) h.1 rfl rfl rfl rfl hkeep hqueue
        (.inr ⟨e, mem_append_right _ he, hpe⟩)
      exact ⟨⟨hinv, hpage, hcur, hnext, horder⟩, hgood.trans (and_iff_left trivial).symm⟩
  | push items =>
    simp only [blockWorkerNext] at hn
    split at hn
    · cases hn
      refine h.same (Prod.ext ?_ rfl) trivial trivial
      simp [BlockWorker.view, BlockMem.pushed]
    · cases hn
      refine h.same (Prod.ext ?_ rfl) trivial trivial
      simp [BlockWorker.view, BlockMem.pushed]
  | leave =>
    cases hn
    exact h.same rfl trivial trivial
  | finished => cases hn

end Solo

/-! ## All workers -/

section Workers

variable {L : BlockLayout} {R : VId → Prop} {s : VId} {k : Nat} {order : BlockMem → HashOrder}
  {sh sh' : BlockShared} {t t' : BlockWorker} {st st' : BlockParState} {i : Nat}
  {compressed : Bool}

/-- Worker `i` is at `t`, and no other one has started. -/
structure Solo (L : BlockLayout) (s : VId) (k : Nat) (st : BlockParState) (i : Nat)
    (t : BlockWorker) : Prop where
  lt : i < k
  workers : st.workers = (List.replicate k .start).set i t
  notPast : ¬ t.Past
  goesOn : st.shouldContinue = true
  fresh : t = .start → st.activeWorkers = 0 ∧ st.mem = (bfsBlockStart L s).mem
  active : t ≠ .start → st.activeWorkers = 1
  idle : t = .idle → st.mem.blockQueue = []
  inv : InvAt L s st.mem t

/-- A worker has found the queue empty for good, and no worker has an item. -/
structure ParQuiet (L : BlockLayout) (s : VId) (st : BlockParState) : Prop where
  queue : st.mem.blockQueue = []
  free : ∀ t ∈ st.workers, t.Free
  past : ∃ t ∈ st.workers, t.Past
  ended : ∀ t ∈ st.workers, t = .leave ∨ t = .finished → st.shouldContinue = false
  inv : BlockInv L s st.mem none

/-- What a run can have come to. -/
def ParCase (L : BlockLayout) (s : VId) (k : Nat) (st : BlockParState) : Prop :=
  (∃ i t, Solo L s k st i t) ∨ (st.Hung ∧ st.workers ≠ []) ∨ ParQuiet L s st

/-- The call can still return, and all went well so far. -/
def ParGood (L : BlockLayout) (R : VId → Prop) (st : BlockParState) : Prop :=
  ¬ st.Hung ∧ ∀ t ∈ st.workers, t ≠ .start → GoodAt L R st.mem t

theorem bfsBlockParallelStep_eq (h : bfsBlockParallelStep L order st i = some st') :
    ∃ t sh' t', st.workers[i]? = some t ∧
      blockWorkerNext L order st.toBlockShared t = some (sh', t') ∧
      st' = ⟨sh', st.workers.set i t'⟩ := by
  obtain ⟨t, ht, h⟩ := bind_eq_some_iff.1 h
  obtain ⟨⟨sh', t'⟩, hn, rfl⟩ := map_eq_some_iff.1 h
  exact ⟨t, sh', t', ht, hn, rfl⟩

theorem BlockWorker.Free.view_eq (h : t.Free) (m : BlockMem) : t.view L m = (m, none) := by
  cases t <;> first | rfl | cases h

section

variable (h : Solo L s k st i t)
include h

theorem Solo.mem_workers {u : BlockWorker} (hu : u ∈ st.workers) : u = t ∨ u = .start := by
  rw [h.workers] at hu
  exact (mem_or_eq_of_mem_set hu).symm.imp_right eq_of_mem_replicate

theorem Solo.getElem_self : st.workers[i]? = some t := by
  rw [h.workers, getElem?_set_self (by simpa using h.lt)]

theorem Solo.mem_self : t ∈ st.workers :=
  mem_of_getElem? h.getElem_self

theorem Solo.active_le : st.activeWorkers ≤ 1 := by
  by_cases ht : t = .start
  · rw [(h.fresh ht).1]
    exact Nat.zero_le 1
  · exact (h.active ht).le

theorem Solo.not_hung : ¬ st.Hung := fun hh =>
  absurd (hh.2.1.trans h.active_le) (by decide)

theorem Solo.good_iff (ht : t ≠ .start) : ParGood L R st ↔ GoodAt L R st.mem t := by
  constructor
  · exact fun hg => hg.2 t h.mem_self ht
  · refine fun hg => ⟨h.not_hung, fun u hu hne => ?_⟩
    rcases h.mem_workers hu with rfl | rfl
    · exact hg
    · exact absurd rfl hne

end

theorem ParQuiet.not_hung (h : ParQuiet L s st) : ¬ st.Hung := fun hh => by
  obtain ⟨t, ht, hp⟩ := h.past
  exact hh.2.2 t ht hp

theorem ParQuiet.good_iff (h : ParQuiet L s st) :
    ParGood L R st ↔ BlockGood L R False st.mem none := by
  have hview : ∀ t ∈ st.workers, (GoodAt L R st.mem t ↔ BlockGood L R False st.mem none) := by
    intro t ht
    unfold GoodAt
    rw [(h.free t ht).view_eq]
  constructor
  · obtain ⟨t, ht, hp⟩ := h.past
    refine fun hg => (hview t ht).1 (hg.2 t ht ?_)
    rintro rfl
    exact hp
  · exact fun hg => ⟨h.not_hung, fun t ht _ => (hview t ht).2 hg⟩

/-- The first worker starts. -/
theorem Solo.first (h : Solo L s k st i .start) {j : Nat} (hj : j < k)
    (hn : blockWorkerNext L order st.toBlockShared .start = some (sh', t')) :
    Solo L s k ⟨sh', st.workers.set j t'⟩ j t' ∧ ParGood L R ⟨sh', st.workers.set j t'⟩ ∧
      ParGood L R st := by
  obtain ⟨hactive, hmem⟩ := h.fresh rfl
  cases hn
  have hworkers : st.workers = replicate k .start := by
    rw [h.workers, set_replicate_self]
  have hsolo : Solo L s k ⟨{ st.toBlockShared with activeWorkers := st.activeWorkers + 1 },
      st.workers.set j .check⟩ j .check := by
    refine ⟨hj, ?_, fun hp => hp, h.goesOn, by simp, fun _ => ?_, by simp, h.inv⟩
    · show st.workers.set j .check = _
      rw [hworkers]
    · show st.activeWorkers + 1 = 1
      rw [hactive]
  refine ⟨hsolo, (hsolo.good_iff (by simp)).2 ?_, h.not_hung, fun u hu hne => ?_⟩
  · show BlockGood L R False st.mem none
    rw [hmem]
    exact .init
  · exact absurd ((h.mem_workers hu).elim id id) hne

/-- What a step inside the loop does to the counters. -/
structure LoopStep (sh sh' : BlockShared) (t t' : BlockWorker) : Prop where
  goesOn : sh'.shouldContinue = true
  start : t = .start → sh'.activeWorkers = sh.activeWorkers + 1
  active : t ≠ .start → sh'.activeWorkers = sh.activeWorkers
  started : t' ≠ .start
  past : t'.Past → t = .idle ∧ sh.activeWorkers = 1 ∧ t' = .retryPop ∧ sh' = sh
  idle : t' = .idle → sh'.mem.blockQueue = []

theorem loopStep (hp : ¬ t.Past) (hgo : sh.shouldContinue = true)
    (hn : blockWorkerNext L order sh t = some (sh', t')) : LoopStep sh sh' t t' := by
  cases t with
  | retryPop => exact absurd trivial hp
  | stop => exact absurd trivial hp
  | leave => exact absurd trivial hp
  | finished => exact absurd trivial hp
  | start =>
    cases hn
    exact ⟨hgo, fun _ => rfl, fun hne => absurd rfl hne, by simp, False.elim, by simp⟩
  | check =>
    simp only [blockWorkerNext, hgo, if_true] at hn
    cases hn
    exact ⟨hgo, by simp, fun _ => rfl, by simp, False.elim, by simp⟩
  | tryPop =>
    simp only [blockWorkerNext] at hn
    split at hn
    · rename_i hq
      cases hn
      exact ⟨hgo, by simp, fun _ => rfl, by simp, False.elim, fun _ => hq⟩
    · cases hn
      exact ⟨hgo, by simp, fun _ => rfl, by simp, False.elim, by simp⟩
  | idle =>
    simp only [blockWorkerNext] at hn
    split_ifs at hn with hone
    · cases hn
      exact ⟨hgo, by simp, fun _ => rfl, by simp, fun _ => ⟨rfl, hone, rfl, rfl⟩, by simp⟩
    · cases hn
      exact ⟨hgo, by simp, fun _ => rfl, by simp, False.elim, by simp⟩
  | find x p | insert x p | enter x p =>
    simp only [blockWorkerNext] at hn
    split_ifs at hn <;>
      (cases hn; exact ⟨hgo, by simp, fun _ => rfl, by simp, False.elim, by simp⟩)
  | level w =>
    simp only [blockWorkerNext] at hn
    split_ifs at hn
    · cases hn
      exact ⟨hgo, by simp, fun _ => rfl, by simp, False.elim, by simp⟩
    · obtain ⟨r, -, heq⟩ := map_eq_some_iff.1 hn
      cases heq
      exact ⟨hgo, by simp, fun _ => rfl, by simp, False.elim, by simp⟩
  | publish w | push items =>
    simp only [blockWorkerNext] at hn
    split at hn <;>
      (cases hn; exact ⟨hgo, by simp, fun _ => rfl, by simp, False.elim, by simp⟩)
  | scan w map =>
    simp only [blockWorkerNext] at hn
    split at hn
    · cases hn
      exact ⟨hgo, by simp, fun _ => rfl, by simp, False.elim, by simp⟩
    · split_ifs at hn <;>
        (cases hn; exact ⟨hgo, by simp, fun _ => rfl, by simp, False.elim, by simp⟩)
  | scanPage w map d =>
    cases hn
    refine ⟨hgo, by simp, fun _ => rfl, by simp, fun hpast => ?_, by simp⟩
    split_ifs at hpast <;> exact hpast.elim

/-- Two workers in the loop stay there. -/
theorem BlockParState.Hung.step (h : st.Hung)
    (hstep : bfsBlockParallelStep L order st i = some st') : st'.Hung := by
  obtain ⟨hgo, hactive, hnot⟩ := h
  obtain ⟨t, sh', t', ht, hn, rfl⟩ := bfsBlockParallelStep_eq hstep
  have hl := loopStep (hnot t (mem_of_getElem? ht)) hgo hn
  refine ⟨hl.goesOn, ?_, forall_mem_set hnot fun hp => ?_⟩
  · by_cases hs : t = .start
    · exact (Nat.le_succ_of_le hactive).trans_eq (hl.start hs).symm
    · exact hactive.trans_eq (hl.active hs).symm
  · rw [(hl.past hp).2.1] at hactive
    exact absurd hactive (by decide)

/-- What a step of a worker without an item does, when the queue is empty. -/
structure FreeStep (sh sh' : BlockShared) (t t' : BlockWorker) : Prop where
  mem : sh'.mem = sh.mem
  free : t'.Free
  past : t.Past → t'.Past
  stays : sh.shouldContinue = false → sh'.shouldContinue = false
  ended : (t = .leave → sh.shouldContinue = false) → t' = .leave ∨ t' = .finished →
    sh'.shouldContinue = false

theorem freeStep (hq : sh.mem.blockQueue = []) (hf : t.Free)
    (hn : blockWorkerNext L order sh t = some (sh', t')) : FreeStep sh sh' t t' := by
  cases t with
  | find | insert | enter | level | publish | scan | scanPage | push => cases hf
  | finished => cases hn
  | start =>
    cases hn
    exact ⟨rfl, trivial, False.elim, id, fun _ h => by simp at h⟩
  | check =>
    simp only [blockWorkerNext] at hn
    split_ifs at hn with hgo
    · cases hn
      exact ⟨rfl, trivial, False.elim, id, fun _ h => by simp at h⟩
    · cases hn
      exact ⟨rfl, trivial, False.elim, id, fun _ _ => by simpa using hgo⟩
  | tryPop =>
    simp only [blockWorkerNext, hq] at hn
    cases hn
    exact ⟨rfl, trivial, False.elim, id, fun _ h => by simp at h⟩
  | idle =>
    simp only [blockWorkerNext] at hn
    split_ifs at hn <;>
      (cases hn; exact ⟨rfl, trivial, False.elim, id, fun _ h => by simp at h⟩)
  | retryPop =>
    simp only [blockWorkerNext, hq] at hn
    cases hn
    exact ⟨rfl, trivial, fun _ => trivial, id, fun _ h => by simp at h⟩
  | stop =>
    cases hn
    exact ⟨rfl, trivial, fun _ => trivial, fun _ => rfl, fun _ _ => rfl⟩
  | leave =>
    cases hn
    exact ⟨rfl, trivial, fun _ => trivial, id, fun h _ => h rfl⟩

/-- When no worker has an item and the queue is empty, nothing is done any more. -/
theorem ParQuiet.step (h : ParQuiet L s st) (hstep : bfsBlockParallelStep L order st i = some st') :
    ParQuiet L s st' ∧ st'.mem = st.mem ∧
      (st.shouldContinue = false → st'.shouldContinue = false) := by
  obtain ⟨t, sh', t', ht, hn, rfl⟩ := bfsBlockParallelStep_eq hstep
  have hmem := mem_of_getElem? ht
  have hf := freeStep h.queue (h.free t hmem) hn
  have hsh : sh'.mem = st.mem := hf.mem
  refine ⟨⟨?_, forall_mem_set h.free hf.free, ?_, ?_, ?_⟩, hsh, hf.stays⟩
  · show sh'.mem.blockQueue = []
    rw [hsh]
    exact h.queue
  · rcases exists_mem_set t' ht h.past with hp | hp
    · exact hp
    · exact ⟨t', mem_set_self t' ht, hf.past hp⟩
  · refine forall_mem_set (fun u hu hend => hf.stays (h.ended u hu hend)) ?_
    exact hf.ended fun hl => h.ended t hmem (.inl hl)
  · show BlockInv L s sh'.mem none
    rw [hsh]
    exact h.inv

theorem parOk_start (ht : st.workers[i]? = some .start) :
    ParOk L R compressed st i ↔ st.activeWorkers = 0 ∨ ∃ t ∈ st.workers, t.Past := by
  simp [ParOk, ht]

theorem parOk_iff (ht : st.workers[i]? = some t) (hne : t ≠ .start) :
    ParOk L R compressed st i ↔ TakesWell L R compressed st.mem t := by
  cases t with
  | start => exact absurd rfl hne
  | _ => simp [ParOk, ht, TakesWell]

/-- A second worker starts. -/
theorem Solo.second (h : Solo L s k st i t) (ht : t ≠ .start) {j : Nat}
    (hj : st.workers[j]? = some .start)
    (hn : blockWorkerNext L order st.toBlockShared .start = some (sh', t')) :
    BlockParState.Hung ⟨sh', st.workers.set j t'⟩ ∧ ¬ ParOk L R compressed st j := by
  have hnot : ∀ u ∈ st.workers, ¬ u.Past := by
    intro u hu
    rcases h.mem_workers hu with rfl | rfl
    · exact h.notPast
    · exact id
  constructor
  · have hl := loopStep (hnot .start (mem_of_getElem? hj)) h.goesOn hn
    refine ⟨hl.goesOn, ?_, forall_mem_set hnot fun hp => by cases (hl.past hp).1⟩
    rw [hl.start rfl, h.active ht]
  · rw [parOk_start hj, h.active ht]
    rintro (h1 | ⟨u, hu, hp⟩)
    · cases h1
    · exact hnot u hu hp

section

variable
  (hraw : compressed = false → ∀ v, L.Stands v → L.Via (fun _ => True) s v → R v ∧ L.InRange v)
include hraw

/-- A step of the worker that is alone in the loop. -/
theorem Solo.step (h : Solo L s k st i t) (ht : t ≠ .start)
    (hn : blockWorkerNext L order st.toBlockShared t = some (sh', t')) :
    (Solo L s k ⟨sh', st.workers.set i t'⟩ i t' ∧ t' ≠ .start ∨
        ParQuiet L s ⟨sh', st.workers.set i t'⟩) ∧
      (ParGood L R ⟨sh', st.workers.set i t'⟩ ↔
        ParGood L R st ∧ ParOk L R compressed st i) := by
  have hl := loopStep h.notPast h.goesOn hn
  obtain ⟨hinv, hgood⟩ := h.inv.next hraw hn
  rw [h.good_iff ht, parOk_iff h.getElem_self ht, ← hgood]
  by_cases hp : t'.Past
  · obtain ⟨rfl, -, rfl, rfl⟩ := hl.past hp
    have hq : ParQuiet L s ⟨st.toBlockShared, st.workers.set i .retryPop⟩ := by
      refine ⟨h.idle rfl, forall_mem_set (fun u hu => ?_) trivial,
        ⟨_, mem_set_self _ h.getElem_self, trivial⟩,
        forall_mem_set (fun u hu => ?_) (by simp), hinv.1⟩
      · rcases h.mem_workers hu with rfl | rfl <;> trivial
      · rcases h.mem_workers hu with rfl | rfl <;> simp
    exact ⟨.inr hq, hq.good_iff⟩
  · have hs : Solo L s k ⟨sh', st.workers.set i t'⟩ i t' := by
      refine ⟨h.lt, ?_, hp, hl.goesOn, fun hs => absurd hs hl.started,
        fun _ => (hl.active ht).trans (h.active ht), hl.idle, hinv⟩
      show st.workers.set i t' = _
      rw [h.workers, set_set]
    exact ⟨.inl ⟨hs, hl.started⟩, hs.good_iff hl.started⟩

/-- A step keeps the cases, and the run goes on well exactly if the step is a good one. -/
theorem ParCase.step (h : ParCase L s k st) (hstep : bfsBlockParallelStep L order st i = some st') :
    ParCase L s k st' ∧ (ParGood L R st' ↔ ParGood L R st ∧ ParOk L R compressed st i) := by
  rcases h with ⟨j, t, h⟩ | ⟨h, hne⟩ | h
  · obtain ⟨u, sh', u', hu, hn, rfl⟩ := bfsBlockParallelStep_eq hstep
    have hik : i < k := by
      have := (List.getElem?_eq_some_iff.1 hu).1
      rwa [h.workers, List.length_set, List.length_replicate] at this
    by_cases hstart : u = .start
    · subst hstart
      by_cases ht : t = .start
      · subst ht
        obtain ⟨hs, hg', hg⟩ := Solo.first (R := R) h hik hn
        exact ⟨.inl ⟨i, u', hs⟩,
          iff_of_true hg' ⟨hg, (parOk_start hu).2 (.inl (h.fresh rfl).1)⟩⟩
      · obtain ⟨hh, hnot⟩ : _ ∧ ¬ ParOk L R compressed st i := Solo.second h ht hu hn
        refine ⟨.inr (.inl ⟨hh, ?_⟩), iff_of_false (fun hg => hg.1 hh) fun hg => hnot hg.2⟩
        exact List.ne_nil_of_mem (mem_set_self u' hu)
    · -- only one worker has started
      have hij : i = j := by
        by_contra hij
        rw [h.workers, List.getElem?_set_ne (Ne.symm hij)] at hu
        exact hstart (List.eq_of_mem_replicate (List.mem_of_getElem? hu))
      subst hij
      obtain rfl : t = u := some.inj (h.getElem_self.symm.trans hu)
      obtain ⟨hcase, hiff⟩ := h.step hraw hstart hn
      exact ⟨hcase.imp (fun hs => ⟨i, u', hs.1⟩) .inr, hiff⟩
  · have hh := h.step hstep
    refine ⟨.inr (.inl ⟨hh, ?_⟩), iff_of_false (fun hg => hg.1 hh) fun hg => hg.1.1 h⟩
    obtain ⟨u, sh', u', hu, -, rfl⟩ := bfsBlockParallelStep_eq hstep
    exact List.ne_nil_of_mem (mem_set_self u' hu)
  · obtain ⟨hq, hmem, -⟩ := h.step hstep
    refine ⟨.inr (.inr hq), ?_⟩
    rw [hq.good_iff, h.good_iff, hmem]
    refine (and_iff_left ?_).symm
    obtain ⟨u, sh', u', hu, -, rfl⟩ := bfsBlockParallelStep_eq hstep
    by_cases hstart : u = .start
    · subst hstart
      exact (parOk_start hu).2 (.inr h.past)
    · rw [parOk_iff hu hstart]
      have hfree := h.free u (List.mem_of_getElem? hu)
      cases u with
      | insert x p => cases hfree
      | _ => trivial

end

theorem ParCase.init (hs : s < L.vertexCount) (hk : 0 < k) :
    ParCase L s k (bfsBlockParallelStart L s k) := by
  refine .inl ⟨0, .start, hk, ?_, id, rfl, fun _ => ⟨rfl, rfl⟩, fun h => absurd rfl h, by simp,
    .init hs, trivial⟩
  rw [set_replicate_self]
  rfl

theorem ParGood.init : ParGood L R (bfsBlockParallelStart L s k) := by
  refine ⟨fun h => absurd h.2.1 (by simp [bfsBlockParallelStart]), fun t ht hne => ?_⟩
  exact absurd (eq_of_mem_replicate ht) hne

end Workers

/-! ## Returning -/

section Returns

variable {L : BlockLayout} {R : VId → Prop} {s : VId} {k : Nat} {order : BlockMem → HashOrder}
  {sh sh' : BlockShared} {t t' : BlockWorker} {st st' : BlockParState} {i : Nat} {m : BlockMem}

/-- How many local steps a worker has before it. -/
def BlockWorker.rank : BlockWorker → Nat
  | .enter _ _ => 10
  | .push items => items.length + 8
  | .check => 7
  | .tryPop => 6
  | .find _ _ => 5
  | .insert _ _ => 4
  | .level w => w.vertexOrder.length + 2 * w.outside.length + 3
  | .publish w => w.vertexOrder.length + 2 * w.outside.length + 2
  | .scanPage w _ _ => 2 * w.outside.length + 2
  | .scan w _ => 2 * w.outside.length + 1
  | _ => 0

/-- What a worker alone has before it. -/
def BlockWorker.size (L : BlockLayout) (m : BlockMem) (t : BlockWorker) :
    (Nat × Nat × Nat) × Nat := (blockSize L (t.view L m).1 (t.view L m).2, t.rank)

/-- The order of the sizes. -/
def WorkerLess : (Nat × Nat × Nat) × Nat → (Nat × Nat × Nat) × Nat → Prop :=
  Prod.Lex BlockLess (· < ·)

theorem workerLess_wf : WellFounded WorkerLess := WellFounded.prod_lex blockLess_wf wellFounded_lt

theorem WorkerLess.of_rank {m m' : BlockMem}
    (hsize : blockSize L (t'.view L m').1 (t'.view L m').2 =
      blockSize L (t.view L m).1 (t.view L m).2) (hrank : t'.rank < t.rank) :
    WorkerLess (t'.size L m') (t.size L m) := by
  unfold WorkerLess BlockWorker.size
  rw [hsize]
  exact .right _ hrank

theorem WorkerLess.of_same {m m' : BlockMem} (hview : t'.view L m' = t.view L m)
    (hrank : t'.rank < t.rank) : WorkerLess (t'.size L m') (t.size L m) :=
  .of_rank (by rw [hview]) hrank

theorem OutsideMap.pending_emplace {map : OutsideMap} {p : PageNo} {d : VId} (hp : p ∉ map.keys) :
    (map.emplace p d).pending = map.pending ++ [(d, p)] := by
  have hkeys : (map.assign p d).keys = map.keys ++ [p] := if_neg hp
  have hvertex : (map.assign p d).vertex = update map.vertex p d := rfl
  unfold emplace pending items HashOrder.listed
  rw [if_neg hp]
  simp only [hkeys, hvertex, map_append, map_cons, map_nil, update_self]
  congr 1
  refine map_congr_left fun q hq => ?_
  have hqp : q ≠ p := fun hqp => hp (hqp ▸ hq)
  rw [update_of_ne hqp]

/-- Moving notes and outside neighbours leaves as much to do. -/
theorem blockSize_eq {m' : BlockMem} {w w' : BlockWork} (hvisited : m'.visited = m.visited)
    (hpages : m'.visitedPages = m.visitedPages) (hpage : w'.pageNo = w.pageNo)
    (hcur : w'.currentLevel = w.currentLevel) (hnext : w'.nextLevel = w.nextLevel)
    (items : List (VId × PageNo)) (hqueue : m'.blockQueue = m.blockQueue ++ items)
    (hnew : ∀ e ∈ items, ¬ Taken m' (some w') e.2) :
    blockSize L m' (some w') = blockSize L m (some w) := by
  have htaken : ∀ q, Taken m' (some w') q ↔ Taken m (some w) q := by
    intro q
    rw [taken_some, taken_some, hpages, hpage]
  unfold blockSize
  rw [pagesLeft_congr htaken, staleItems_eq htaken (.of_eq hqueue) hnew, levelsLeft, levelsLeft,
    hvisited, hpage, hcur, hnext]

/-- A worker alone that has started gets nearer to its end. -/
theorem InvAt.less (h : InvAt L s sh.mem t) (ht : t ≠ .start) (hp : ¬ t.Past) (hidle : t ≠ .idle)
    (hgo : sh.shouldContinue = true) (hn : blockWorkerNext L order sh t = some (sh', t')) :
    WorkerLess (t'.size L sh'.mem) (t.size L sh.mem) := by
  have hskip : ∀ x p, sh.mem.visitedPages p = true → BlockInv L s (sh.mem.held (x, p)) none →
      BlockLess (blockSize L sh.mem none) (blockSize L (sh.mem.held (x, p)) none) := by
    intro x p hvp h
    refine h.take_less (e := (x, p)) rfl rfl fun q => ?_
    rw [taken_none, taken_none]
    exact (or_iff_left_of_imp fun hq => hq ▸ hvp).symm
  cases t with
  | start => exact absurd rfl ht
  | retryPop => exact absurd trivial hp
  | stop => exact absurd trivial hp
  | leave => exact absurd trivial hp
  | finished => exact absurd trivial hp
  | idle => exact absurd rfl hidle
  | check =>
    simp only [blockWorkerNext, hgo, if_true] at hn
    cases hn
    exact .of_same rfl (by simp [BlockWorker.rank])
  | tryPop =>
    simp only [blockWorkerNext] at hn
    split at hn
    · cases hn
      exact .of_same rfl (by simp [BlockWorker.rank])
    · rename_i x p rest hq
      cases hn
      refine .of_same (Prod.ext ?_ rfl) (by simp [BlockWorker.rank])
      simp [BlockWorker.view, BlockMem.held, ← hq]
  | find x p =>
    simp only [blockWorkerNext] at hn
    split_ifs at hn with hvp
    · cases hn
      exact .left _ _ (hskip x p hvp h.1)
    · cases hn
      exact .of_same rfl (by simp [BlockWorker.rank])
  | insert x p =>
    simp only [blockWorkerNext] at hn
    split_ifs at hn with hvp
    · cases hn
      exact .left _ _ (hskip x p hvp h.1)
    · cases hn
      refine .left _ _ (BlockInv.take_less (e := (x, p)) h.1 rfl ?_ fun q => ?_)
      · show (BlockWorker.view L _ (.enter x p)).1.blockQueue = sh.mem.blockQueue
        unfold BlockWorker.view
        dsimp only
        split_ifs <;> rfl
      · show Taken (BlockWorker.view L _ (.enter x p)).1 (BlockWorker.view L _ (.enter x p)).2 q ↔
          Taken (sh.mem.held (x, p)) none q ∨ q = p
        rw [taken_none]
        have hpages : update sh.mem.visitedPages p true q = true ↔
            sh.mem.visitedPages q = true ∨ q = p := by
          by_cases hq : q = p
          · simp [hq]
          · simp [hq]
        unfold BlockWorker.view
        dsimp only
        split_ifs with hx
        · rw [taken_some]
          show update sh.mem.visitedPages p true q = true ∨ p = q ↔ _
          rw [hpages]
          exact or_iff_left_of_imp fun hq => .inr hq.symm
        · rw [taken_none]
          exact hpages
  | enter x p =>
    simp only [blockWorkerNext] at hn
    split_ifs at hn with hx
    · cases hn
      exact .of_same (if_pos hx).symm (by simp [BlockWorker.rank, blockStart])
    · cases hn
      refine .of_same ?_ (by simp [BlockWorker.rank])
      rw [show BlockWorker.view L sh.mem (.enter x p) = (sh.mem, none) from if_neg hx]
      simp [BlockWorker.view, BlockMem.pushed]
  | level w =>
    simp only [blockWorkerNext] at hn
    split_ifs at hn with hend
    · cases hn
      exact .of_same rfl (by simp [BlockWorker.rank])
    · obtain ⟨⟨visited', w'⟩, hw, heq⟩ := map_eq_some_iff.1 hn
      cases heq
      rw [blockNextLocked_eq] at hw
      exact .left _ _ ((h.1.work w rfl).next_less hw)
  | publish w =>
    simp only [blockWorkerNext] at hn
    split at hn
    · rename_i horder
      cases hn
      refine .of_same (Prod.ext ?_ rfl) (by simp [BlockWorker.rank, horder])
      simp [BlockWorker.view, BlockMem.pushed, pending, items_nil]
    · rename_i pair rest horder
      cases hn
      refine .of_rank ?_ (by simp [BlockWorker.rank, horder])
      exact blockSize_eq rfl rfl rfl rfl rfl [] (append_nil _).symm (forall_mem_nil _)
  | scan w map =>
    obtain ⟨hpage, hcur, hnext, horder⟩ := h.2
    simp only [blockWorkerNext] at hn
    split at hn
    · rename_i hout
      cases hn
      have htaken : ∀ q, Taken (sh.mem.pushed (map.items (order sh.mem))) none q ↔
          Taken (sh.mem.pushed map.pending) (some w) q := by
        intro q
        rw [taken_none, taken_some]
        exact (or_iff_left_of_imp fun hq => hq ▸ hpage).symm
      have hqueue : (sh.mem.pushed (map.items (order sh.mem))).blockQueue.Perm
          ((sh.mem.pushed map.pending).blockQueue ++ []) := by
        rw [append_nil]
        exact (((order sh.mem).perm map.keys).map _).append_left _
      exact .left _ _ (blockLess_of_levels htaken
        (staleItems_eq htaken hqueue (forall_mem_nil _)) (Nat.succ_pos _))
    · rename_i d rest hout
      split_ifs at hn with hv
      · cases hn
        refine .of_rank ?_ (by simp [BlockWorker.rank, hout])
        exact blockSize_eq rfl rfl rfl rfl rfl [] (append_nil _).symm (forall_mem_nil _)
      · cases hn
        refine .of_same (Prod.ext rfl ?_) (by simp [BlockWorker.rank, hout]; omega)
        simp [BlockWorker.view, ← hout]
  | scanPage w map d =>
    obtain ⟨hpage, -⟩ := h.2
    simp only [blockWorkerNext] at hn
    split_ifs at hn with hv
    · cases hn
      refine .of_rank ?_ (by simp [BlockWorker.rank])
      exact blockSize_eq rfl rfl rfl rfl rfl [] (append_nil _).symm (forall_mem_nil _)
    · cases hn
      refine .of_rank ?_ (by simp [BlockWorker.rank])
      by_cases hkey : L.page d ∈ map.keys
      · rw [show map.emplace (L.page d) d = map from if_pos hkey]
        exact blockSize_eq rfl rfl rfl rfl rfl [] (append_nil _).symm (forall_mem_nil _)
      · -- the new item is for a page that was not taken
        refine blockSize_eq rfl rfl rfl rfl rfl [(d, L.page d)] ?_ fun e he ht => ?_
        · simp [BlockWorker.view, BlockMem.pushed, pending_emplace hkey]
        · obtain rfl := mem_singleton.1 he
          rcases taken_some.1 ht with ht | ht
          · exact hv ht
          · rw [show w.pageNo = L.page d from ht] at hpage
            exact hv hpage
  | push items =>
    simp only [blockWorkerNext] at hn
    split at hn
    · cases hn
      refine .of_same (Prod.ext ?_ rfl) (by simp [BlockWorker.rank])
      simp [BlockWorker.view, BlockMem.pushed]
    · cases hn
      refine .of_same (Prod.ext ?_ rfl) (by simp [BlockWorker.rank])
      simp [BlockWorker.view, BlockMem.pushed]

/-- A worker stops at its end and at a wrong id only. -/
theorem InvAt.next_ne_none (hrange : ∀ v, L.Stands v → L.Via (fun _ => True) s v → L.InRange v)
    (h : InvAt L s sh.mem t) (ht : t ≠ .finished) : blockWorkerNext L order sh t ≠ none := by
  cases t with
  | finished => exact absurd rfl ht
  | tryPop | retryPop =>
    cases hq : sh.mem.blockQueue with
    | nil => simp [blockWorkerNext, hq]
    | cons e rest => simp [blockWorkerNext, hq]
  | insert x p | enter x p =>
    simp only [blockWorkerNext]
    split_ifs <;> simp
  | level w =>
    simp only [blockWorkerNext]
    split_ifs with hend
    · simp
    · rw [blockNextLocked_eq, Ne, map_eq_none_iff]
      unfold blockNext
      cases hcur : w.currentLevel with
      | nil =>
        have hnext : w.nextLevel ≠ [] := fun hnext => hend ⟨hcur, hnext⟩
        simp [hnext]
      | cons o rest =>
        obtain ⟨u, hu, -, -, hlist⟩ := (h.1.work w rfl).head hcur
        obtain ⟨hst, hvia, -⟩ := h.1.seen u hu
        have hin := hrange u hst (hvia.mono fun _ _ => trivial)
        unfold BlockLayout.InRange at hin
        rw [← hlist] at hin
        simp only
        rw [if_pos hin]
        exact some_ne_none _
  | publish w =>
    cases hw : w.vertexOrder with
    | nil => simp [blockWorkerNext, hw]
    | cons pair rest => simp [blockWorkerNext, hw]
  | scan w map =>
    cases hw : w.outside with
    | nil => simp [blockWorkerNext, hw]
    | cons d rest => simp [blockWorkerNext, hw]
  | push items =>
    cases items with
    | nil => simp [blockWorkerNext]
    | cons e rest => simp [blockWorkerNext]
  | _ => simp [blockWorkerNext]

/-- The local steps of a worker without an item when the search is over. -/
def BlockWorker.endRank : BlockWorker → Nat
  | .tryPop => 5
  | .idle => 4
  | .start | .retryPop => 3
  | .check | .stop => 2
  | .leave => 1
  | _ => 0

theorem FreeStep.endRank_lt (hq : sh.mem.blockQueue = []) (hover : sh.shouldContinue = false)
    (hf : t.Free) (hn : blockWorkerNext L order sh t = some (sh', t')) :
    t'.endRank < t.endRank := by
  cases t with
  | find | insert | enter | level | publish | scan | scanPage | push => cases hf
  | finished => cases hn
  | start | stop | leave =>
    cases hn
    simp [BlockWorker.endRank]
  | check =>
    simp only [blockWorkerNext, hover] at hn
    cases hn
    simp [BlockWorker.endRank]
  | tryPop | retryPop =>
    simp only [blockWorkerNext, hq] at hn
    cases hn
    simp [BlockWorker.endRank]
  | idle =>
    simp only [blockWorkerNext] at hn
    split_ifs at hn <;> (cases hn; simp [BlockWorker.endRank])

/-- The step of worker `i`. -/
theorem bfsBlockParallelStep_of (L : BlockLayout) (order : BlockMem → HashOrder)
    (ht : st.workers[i]? = some t)
    (hn : blockWorkerNext L order st.toBlockShared t = some (sh', t')) :
    bfsBlockParallelStep L order st i = some ⟨sh', st.workers.set i t'⟩ := by
  simp [bfsBlockParallelStep, ht, hn]

/-- The call can return from here. -/
def CanReturn (L : BlockLayout) (order : BlockMem → HashOrder) (st : BlockParState) : Prop :=
  ∃ es st', runAll (bfsBlockParallelStep L order) st es = some st' ∧ st'.Returned

theorem CanReturn.step (h : CanReturn L order st')
    (hstep : bfsBlockParallelStep L order st i = some st') : CanReturn L order st := by
  obtain ⟨es, st'', hrun, hret⟩ := h
  refine ⟨i :: es, st'', ?_, hret⟩
  rw [runAll, hstep]
  exact hrun

/-- When the search is over, all workers come to their ends. -/
theorem ParQuiet.canReturn_of_over (h : ParQuiet L s st) (hover : st.shouldContinue = false) :
    CanReturn L order st := by
  induction hn : (st.workers.map BlockWorker.endRank).sum using Nat.strong_induction_on
    generalizing st with
  | _ n ih =>
    by_cases hret : st.Returned
    · exact ⟨[], st, rfl, hret⟩
    · unfold BlockParState.Returned at hret
      push Not at hret
      obtain ⟨t, ht, hne⟩ := hret
      obtain ⟨i, hi⟩ := mem_iff_getElem?.1 ht
      obtain ⟨⟨sh', t'⟩, hnext⟩ : ∃ r, blockWorkerNext L order st.toBlockShared t = some r := by
        refine ne_none_iff_exists'.1 ?_
        have hf := h.free t ht
        cases t with
        | find | insert | enter | level | publish | scan | scanPage | push => cases hf
        | finished => exact absurd rfl hne
        | tryPop | retryPop => simp [blockWorkerNext, h.queue]
        | _ => simp [blockWorkerNext]
      have hstep := bfsBlockParallelStep_of L order hi hnext
      obtain ⟨hq, -, hstays⟩ := h.step hstep
      have hlt := FreeStep.endRank_lt h.queue hover (h.free t ht) hnext
      have hsum := sum_map_set t' hi BlockWorker.endRank
      refine CanReturn.step (ih _ ?_ hq (hstays hover) rfl) hstep
      show ((st.workers.set i t').map BlockWorker.endRank).sum < n
      omega

/-- The worker that has found the queue empty ends the search. -/
theorem ParQuiet.canReturn (h : ParQuiet L s st) : CanReturn L order st := by
  by_cases hover : st.shouldContinue = false
  · exact h.canReturn_of_over hover
  · obtain ⟨t, ht, hp⟩ := h.past
    obtain ⟨i, hi⟩ := List.mem_iff_getElem?.1 ht
    -- a worker at the store of `should_continue`
    have hstop : ∀ st1 : BlockParState, ParQuiet L s st1 → st1.workers[i]? = some .stop →
        CanReturn L order st1 := by
      intro st1 h1 hi1
      have hstep := bfsBlockParallelStep_of L order hi1 rfl
      exact CanReturn.step ((h1.step hstep).1.canReturn_of_over rfl) hstep
    cases t with
    | stop => exact hstop st h hi
    | retryPop =>
      have hstep : bfsBlockParallelStep L order st i =
          some ⟨st.toBlockShared, st.workers.set i .stop⟩ :=
        bfsBlockParallelStep_of L order hi (by simp [blockWorkerNext, h.queue])
      refine CanReturn.step (hstop _ (h.step hstep).1 ?_) hstep
      exact List.getElem?_set_self (List.getElem?_eq_some_iff.1 hi).1
    | leave => exact absurd (h.ended _ ht (.inl rfl)) hover
    | finished => exact absurd (h.ended _ ht (.inr rfl)) hover
    | _ => cases hp

section

variable (hraw : ∀ v, L.Stands v → L.Via (fun _ => True) s v → L.InRange v)
include hraw

/-- A worker that is alone in the loop comes to the end of the queue. -/
theorem Solo.canReturn (h : Solo L s k st i t) (ht : t ≠ .start) : CanReturn L order st := by
  induction hn : t.size L st.mem using workerLess_wf.induction generalizing st t with
  | _ n ih =>
    have hne : blockWorkerNext L order st.toBlockShared t ≠ none := by
      refine h.inv.next_ne_none hraw ?_
      rintro rfl
      exact h.notPast trivial
    obtain ⟨⟨sh', t'⟩, hnext⟩ := ne_none_iff_exists'.1 hne
    have hstep := bfsBlockParallelStep_of L order h.getElem_self hnext
    obtain ⟨hcase, -⟩ := h.step (R := fun _ => True)
      (fun (_ : false = false) v hst hv => ⟨trivial, hraw v hst hv⟩) ht hnext
    rcases hcase with ⟨hs, hne'⟩ | hq
    · by_cases hidle : t = .idle
      · subst hidle
        simp only [blockWorkerNext, h.active ht, if_true] at hnext
        cases hnext
        exact absurd trivial hs.notPast
      · subst hn
        exact CanReturn.step (ih _ (h.inv.less ht h.notPast hidle h.goesOn hnext) hs hne' rfl) hstep
    · exact CanReturn.step hq.canReturn hstep

/-- As long as the wait for each other is avoided, the call can return. -/
theorem ParCase.canReturn (h : ParCase L s k st) (hnot : ¬ st.Hung) : CanReturn L order st := by
  rcases h with ⟨i, t, h⟩ | ⟨h, -⟩ | h
  · by_cases ht : t = .start
    · subst ht
      have hfirst : blockWorkerNext L order st.toBlockShared .start = some _ := rfl
      have hstep := bfsBlockParallelStep_of L order h.getElem_self hfirst
      have hsolo := (Solo.first (R := fun _ => True) h h.lt hfirst).1
      exact CanReturn.step (hsolo.canReturn hraw (by simp)) hstep
    · exact h.canReturn hraw ht
  · exact absurd h hnot
  · exact h.canReturn

end

end Returns

/-! ## A database that was just built -/

section Built

variable {cfg : Config} {g : MemGraph} {db : Db} {s : VId} {order : BlockMem → HashOrder}

section

variable (hps : 0 < cfg.pageSize) (hds : 0 < cfg.deltaPageSize) (hn : g.vertexCount ≤ cfg.idLimit)
  (hv : g.vertexCount < 2 ^ 32) (hb : Built cfg g db) (hraw : cfg.neighborCompress = false)
include hps hds hn hv hb hraw

end

end Built

end BwGraph
