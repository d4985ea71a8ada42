import BwGraph.Algo.EdgeMap

/-
  `bfs_block` (`db_algorithm.cc`): breadth-first search page by page. An item of the queue is a
  vertex and its page; `bfs_block_inner` goes from the vertex along the neighbours that are on the
  page, and every page with a neighbour outside gets an item, unless it was read before.

  A page gets one item from each page that leads to it, for one of its vertices, and none any more
  once it was read. So a vertex of the page that is not reached inside it from one of these vertices
  is missed; an item whose vertex was visited meanwhile visits it again; and a vertex without an
  entry on the page of its location, or behind a list that is not stored there, is never found.
  `TakeOk` says when taking an item does no harm, and the search is right exactly when every item
  was taken so (`bfsBlock_visits`).
-/

namespace BwGraph

open Function List

/-! ## The pages -/

/-- What the search reads of the database. -/
structure BlockLayout where
  vertexCount : Nat
  location : VId → PageNo × Nat
  /-- The ids in the vertex array of a page. -/
  vertices : PageNo → List VId
  /-- `get_neighbors` of an entry. -/
  neighbors : PageNo → Nat → List VId

namespace BlockLayout

variable (L : BlockLayout)

/-- The page of a vertex. -/
def page (v : VId) : PageNo := (L.location v).1

/-- The entry of page `p` at the offset of `v` is one of `v`. -/
def OnPage (p : PageNo) (v : VId) : Prop := (L.vertices p)[(L.location v).2]? = some v

instance (p : PageNo) (v : VId) : Decidable (L.OnPage p v) :=
  inferInstanceAs (Decidable (_ = _))

/-- `v` has an entry where its location says. -/
def Stands (v : VId) : Prop := L.OnPage (L.page v) v

/-- The list stored at the location of `v`. -/
def list (v : VId) : List VId := L.neighbors (L.page v) (L.location v).2

/-- The list of `v` has ids of vertices only. -/
def InRange (v : VId) : Prop := ∀ d ∈ L.list v, d < L.vertexCount

/-- The stored edges inside a page. -/
def InEdge (u v : VId) : Prop := v ∈ L.list u ∧ L.page v = L.page u ∧ L.Stands v

/-- `v` is reached from `x` inside its page. -/
def InReach (x v : VId) : Prop := L.Stands x ∧ Relation.ReflTransGen L.InEdge x v

/-- `v` is reached from `s` along lists of vertices with the property. -/
def Via (P : VId → Prop) (s v : VId) : Prop :=
  Relation.ReflTransGen (fun a b => P a ∧ L.Stands a ∧ b ∈ L.list a) s v

end BlockLayout

/-- `block_queue`, `visited`, `visited_pages` and `visited_order`. -/
structure BlockMem where
  blockQueue : List (VId × PageNo)
  visited : VId → Bool
  visitedPages : PageNo → Bool
  visitedOrder : List (VId × Nat)

/-- The parameters and locals of `bfs_block_inner`; `currentLevel` is what is left of the level. -/
structure BlockWork where
  startVertex : VId
  pageNo : PageNo
  currentLevel : List Nat
  nextLevel : List Nat
  currentLevelNum : Nat
  vertexOrder : List (VId × Nat)
  outside : List VId

/-- The locals when the level loop begins. -/
def blockStart (L : BlockLayout) (startVertex : VId) (pageNo : PageNo) : BlockWork :=
  ⟨startVertex, pageNo, [(L.location startVertex).2], [], 0, [(startVertex, 0)], []⟩

/-- A vertex of the page is visited. -/
def blockVisit (L : BlockLayout) (st : (VId → Bool) × BlockWork) (neighborId : VId) :
    (VId → Bool) × BlockWork :=
  (Function.update st.1 neighborId true,
    { st.2 with
      vertexOrder := st.2.vertexOrder ++ [(neighborId, st.2.currentLevelNum + 1)]
      nextLevel := st.2.nextLevel ++ [(L.location neighborId).2] })

/-- One neighbour in `bfs_block_inner`. -/
def blockNeighbor (L : BlockLayout) (st : (VId → Bool) × BlockWork) (neighborId : VId) :
    (VId → Bool) × BlockWork :=
  if L.page neighborId ≠ st.2.pageNo then
    (st.1, { st.2 with outside := st.2.outside ++ [neighborId] })
  else if st.1 neighborId = false ∧ L.OnPage st.2.pageNo neighborId then
    blockVisit L st neighborId
  else st

/-- One step of the level loop: a vertex of the level, or the next level. A neighbour that is no
vertex is looked up past the end of the index; there the run stops. -/
def blockNext (L : BlockLayout) (visited : VId → Bool) (w : BlockWork) :
    Option ((VId → Bool) × BlockWork) :=
  match w.currentLevel with
  | currentOffset :: rest =>
    if ∀ d ∈ L.neighbors w.pageNo currentOffset, d < L.vertexCount then
      some ((L.neighbors w.pageNo currentOffset).foldl (blockNeighbor L)
        (visited, { w with currentLevel := rest }))
    else none
  | [] =>
    if w.nextLevel = [] then none
    else some (visited, { w with
      currentLevel := w.nextLevel
      nextLevel := []
      currentLevelNum := w.currentLevelNum + 1 })

/-- `outside_map`. -/
structure OutsideMap where
  keys : List PageNo
  vertex : PageNo → VId

/-- `outside_map[page_no] = neighbor_id`. -/
def OutsideMap.assign (map : OutsideMap) (pageNo : PageNo) (neighborId : VId) : OutsideMap :=
  ⟨if pageNo ∈ map.keys then map.keys else map.keys ++ [pageNo],
    Function.update map.vertex pageNo neighborId⟩

/-- The items pushed for the entries, in the order of the map. -/
def OutsideMap.items (order : HashOrder) (map : OutsideMap) : List (VId × PageNo) :=
  (order.order map.keys).map fun pageNo => (map.vertex pageNo, pageNo)

/-- One outside neighbour in `bfs_block`. -/
def gatherOutside (L : BlockLayout) (m : BlockMem) (map : OutsideMap) (neighborId : VId) :
    OutsideMap :=
  if m.visited neighborId = true ∨ m.visitedPages (L.page neighborId) = true then map
  else map.assign (L.page neighborId) neighborId

/-- Where `bfs_block` stands: `work` is `none` at the head of its loop. -/
structure BfsBlockState where
  mem : BlockMem
  work : Option BlockWork

/-- The start of `bfs_block`. -/
def bfsBlockStart (L : BlockLayout) (startVertex : VId) : BfsBlockState :=
  ⟨⟨[(startVertex, L.page startVertex)], fun _ => false, fun _ => false, []⟩, none⟩

/-- The loop has ended. -/
def BfsBlockState.Returned (st : BfsBlockState) : Prop :=
  st.work = none ∧ st.mem.blockQueue = []

section Page

variable {L : BlockLayout} {x v : VId}

theorem BlockLayout.InReach.page_eq (h : L.InReach x v) : L.page v = L.page x := by
  induction h.2 with
  | refl => rfl
  | tail hxu huv ih => exact huv.2.1.trans (ih ⟨h.1, hxu⟩)

theorem BlockLayout.InReach.stands (h : L.InReach x v) : L.Stands v := by
  rcases h.2.cases_tail with rfl | ⟨u, -, huv⟩
  · exact h.1
  · exact huv.2.2

theorem BlockLayout.InReach.tail {d : VId} (h : L.InReach x v) (hd : L.InEdge v d) :
    L.InReach x d := ⟨h.1, h.2.tail hd⟩

theorem BlockLayout.InReach.refl (h : L.Stands x) : L.InReach x x :=
  ⟨h, Relation.ReflTransGen.refl⟩

/-- Two vertices with one location are one, if they stand there. -/
theorem BlockLayout.Stands.unique {u : VId} (hu : L.Stands u) (hv : L.Stands v)
    (hp : L.page u = L.page v) (ho : (L.location u).2 = (L.location v).2) : u = v := by
  unfold Stands OnPage at hu hv
  rw [hp, ho] at hu
  exact Option.some.inj (hu.symm.trans hv)

theorem BlockLayout.Via.mono {P Q : VId → Prop} (h : ∀ u, P u → Q u) {s : VId} (hv : L.Via P s v) :
    L.Via Q s v :=
  Relation.ReflTransGen.mono (fun _ _ hu => ⟨h _ hu.1, hu.2⟩) s v hv

theorem BlockLayout.InReach.via {P : VId → Prop} {s : VId} (hx : L.Via P s x)
    (hP : ∀ u, L.InReach x u → P u) (h : L.InReach x v) : L.Via P s v := by
  induction h.2 with
  | refl => exact hx
  | @tail u v hxu huv ih =>
    have hu : L.InReach x u := ⟨h.1, hxu⟩
    exact (ih hu).tail ⟨hP u hu, hu.stands, huv.1⟩

/-- What the loop over the neighbours of a vertex notes. -/
theorem foldl_blockNeighbor (L : BlockLayout) (l : List VId) (visited : VId → Bool) (w : BlockWork) :
    ∃ new : List VId, new.Nodup ∧
      (∀ v, v ∈ new ↔ v ∈ l ∧ L.page v = w.pageNo ∧ L.Stands v ∧ visited v = false) ∧
      l.foldl (blockNeighbor L) (visited, w) =
        (fun v => visited v || decide (v ∈ new),
          { w with
            vertexOrder := w.vertexOrder ++ new.map fun v => (v, w.currentLevelNum + 1)
            nextLevel := w.nextLevel ++ new.map fun v => (L.location v).2
            outside := w.outside ++ l.filter fun v => L.page v ≠ w.pageNo }) := by
  have hskip : ∀ (st : (VId → Bool) × BlockWork) d,
      ¬ (L.page d = st.2.pageNo ∧ L.Stands d ∧ st.1 d = false) →
        blockNeighbor L st d = (st.1, { st.2 with
          outside := st.2.outside ++ [d].filter fun v => L.page v ≠ st.2.pageNo }) := by
    intro st d hd
    unfold blockNeighbor
    by_cases hpage : L.page d = st.2.pageNo
    · have hst : ¬ (st.1 d = false ∧ L.OnPage st.2.pageNo d) := fun h =>
        hd ⟨hpage, by rw [BlockLayout.Stands, hpage]; exact h.2, h.1⟩
      rw [if_neg (by simpa using hpage), if_neg hst]
      simp [hpage]
    · rw [if_pos hpage]
      simp [hpage]
  have htake : ∀ (st : (VId → Bool) × BlockWork) d,
      (L.page d = st.2.pageNo ∧ L.Stands d ∧ st.1 d = false) →
        blockNeighbor L st d = blockVisit L st d := by
    intro st d ⟨hpage, hst, hd⟩
    unfold blockNeighbor
    rw [if_neg (by simpa using hpage), if_pos ⟨hd, by rw [← hpage]; exact hst⟩]
  refine Walk.exists_foldl_taken
    (fun (st : (VId → Bool) × BlockWork) v => L.page v = st.2.pageNo ∧ L.Stands v ∧ st.1 v = false)
    (fun st new l => (fun v => st.1 v || decide (v ∈ new),
      { st.2 with
        vertexOrder := st.2.vertexOrder ++ new.map fun v => (v, st.2.currentLevelNum + 1)
        nextLevel := st.2.nextLevel ++ new.map fun v => (L.location v).2
        outside := st.2.outside ++ l.filter fun v => L.page v ≠ st.2.pageNo }))
    (fun st => ?_) (fun st d v => ?_) (fun st d new l hd hnot => ?_) (fun st d new l hd => ?_)
    l (visited, w)
  · simp
  · by_cases hd : L.page d = st.2.pageNo ∧ L.Stands d ∧ st.1 d = false
    · rw [htake st d hd]
      by_cases hv : v = d <;> simp [hv, blockVisit]
    · rw [hskip st d hd]
      exact ⟨fun h => ⟨h, fun he => hd (he ▸ h)⟩, And.left⟩
  · rw [htake st d hd, blockVisit]
    refine Prod.ext (funext fun v => ?_) ?_
    · by_cases hv : v = d <;> simp [hv]
    · simp [hd.1]
  · rw [hskip st d hd]
    by_cases hpage : L.page d = st.2.pageNo <;> simp [hpage]

/-- What a step of the level loop does. -/
theorem blockNext_cases {visited visited' : VId → Bool} {w w' : BlockWork}
    (h : blockNext L visited w = some (visited', w')) :
    (∃ (currentOffset : Nat) (rest : List Nat) (new : List VId),
      w.currentLevel = currentOffset :: rest ∧
      (∀ d ∈ L.neighbors w.pageNo currentOffset, d < L.vertexCount) ∧ new.Nodup ∧
      (∀ v, v ∈ new ↔ v ∈ L.neighbors w.pageNo currentOffset ∧ L.page v = w.pageNo ∧ L.Stands v ∧
        visited v = false) ∧
      visited' = (fun v => visited v || decide (v ∈ new)) ∧
      w' = { w with
        currentLevel := rest
        vertexOrder := w.vertexOrder ++ new.map fun v => (v, w.currentLevelNum + 1)
        nextLevel := w.nextLevel ++ new.map fun v => (L.location v).2
        outside := w.outside ++
          (L.neighbors w.pageNo currentOffset).filter fun v => L.page v ≠ w.pageNo }) ∨
    (w.currentLevel = [] ∧ w.nextLevel ≠ [] ∧ visited' = visited ∧
      w' = { w with
        currentLevel := w.nextLevel
        nextLevel := []
        currentLevelNum := w.currentLevelNum + 1 }) := by
  unfold blockNext at h
  cases hcur : w.currentLevel with
  | cons currentOffset rest =>
    simp only [hcur] at h
    split_ifs at h with hrange
    obtain ⟨new, hnd, hmem, heq⟩ := foldl_blockNeighbor L (L.neighbors w.pageNo currentOffset)
      visited { w with currentLevel := rest }
    rw [heq] at h
    cases h
    exact .inl ⟨currentOffset, rest, new, rfl, hrange, hnd, hmem, rfl, rfl⟩
  | nil =>
    simp only [hcur] at h
    split_ifs at h with hnext
    cases h
    exact .inr ⟨rfl, hnext, rfl, rfl⟩

end Page

/-! ## What holds in every run -/

/-- The vertices noted so far. -/
def blockIds (m : BlockMem) (b : Option BlockWork) : List VId :=
  m.visitedOrder.map Prod.fst ++ b.elim [] fun w => w.vertexOrder.map Prod.fst

/-- The page was read, or is being read. -/
def Taken (m : BlockMem) (b : Option BlockWork) (p : PageNo) : Prop :=
  m.visitedPages p = true ∨ ∃ w ∈ b, w.pageNo = p

section Inv

variable (L : BlockLayout)

/-- The page of an outside neighbour was taken or will be. -/
def Handled (m : BlockMem) (b : Option BlockWork) (d : VId) : Prop :=
  Taken m b (L.page d) ∨ (∃ e ∈ m.blockQueue, e.2 = L.page d) ∨ ∃ w ∈ b, d ∈ w.outside

/-- The level loop has still to go through the list of `v`. -/
def Pending (b : Option BlockWork) (v : VId) : Prop :=
  ∃ w ∈ b, w.pageNo = L.page v ∧ (L.location v).2 ∈ w.currentLevel ++ w.nextLevel

/-- The level loop went through the list of `v`. -/
def Expanded (m : BlockMem) (b : Option BlockWork) (v : VId) : Prop :=
  ∀ d ∈ L.list v, d < L.vertexCount ∧
    (L.page d = L.page v → L.Stands d → m.visited d = true) ∧
    (L.page d ≠ L.page v → Handled L m b d)

/-- The locals of `bfs_block_inner`. -/
structure WorkOk (s : VId) (visited : VId → Bool) (w : BlockWork) : Prop where
  page : L.page w.startVertex = w.pageNo
  stands : L.Stands w.startVertex
  marked : visited w.startVertex = true
  offsets : ∀ o ∈ w.currentLevel ++ w.nextLevel, ∃ v, visited v = true ∧
    L.InReach w.startVertex v ∧ (L.location v).2 = o
  outside : ∀ d ∈ w.outside, L.Via (fun u => visited u = true) s d ∧ d < L.vertexCount

/-- What holds in every run of the search from `s`. -/
structure BlockInv (s : VId) (m : BlockMem) (b : Option BlockWork) : Prop where
  order : ∀ v, m.visited v = true ↔ v ∈ blockIds m b
  seen : ∀ v, m.visited v = true → L.Stands v ∧ L.Via (fun u => m.visited u = true) s v ∧
    Taken m b (L.page v)
  expanded : ∀ v, m.visited v = true → Pending L b v ∨ Expanded L m b v
  queue : ∀ e ∈ m.blockQueue, e.2 = L.page e.1 ∧ L.Via (fun u => m.visited u = true) s e.1 ∧
    e.1 < L.vertexCount
  start : Handled L m b s
  work : ∀ w ∈ b, WorkOk L s m.visited w

end Inv

section Moves

variable {L : BlockLayout} {s v d : VId} {m m' : BlockMem} {b b' : Option BlockWork}

theorem Handled.mono (htaken : ∀ p, Taken m b p → Taken m' b' p)
    (hqueue : ∀ e ∈ m.blockQueue, Taken m' b' e.2 ∨ e ∈ m'.blockQueue)
    (houtside : ∀ w ∈ b, d ∈ w.outside → Handled L m' b' d) (h : Handled L m b d) :
    Handled L m' b' d := by
  rcases h with h | ⟨e, he, hpage⟩ | ⟨w, hw, hd⟩
  · exact .inl (htaken _ h)
  · rcases hqueue e he with ht | he
    · exact .inl (hpage ▸ ht)
    · exact .inr (.inl ⟨e, he, hpage⟩)
  · exact houtside w hw hd

theorem Expanded.mono (hvisited : ∀ u, m.visited u = true → m'.visited u = true)
    (hhandled : ∀ d, Handled L m b d → Handled L m' b' d) (h : Expanded L m b v) :
    Expanded L m' b' v := fun d hd =>
  ⟨(h d hd).1, fun hp hs => hvisited d ((h d hd).2.1 hp hs), fun hp => hhandled d ((h d hd).2.2 hp)⟩

/-- A step that visits no vertex. -/
theorem BlockInv.mono (h : BlockInv L s m b) (hvisited : m'.visited = m.visited)
    (hids : ∀ v, v ∈ blockIds m' b' ↔ v ∈ blockIds m b) (htaken : ∀ p, Taken m b p → Taken m' b' p)
    (hhandled : ∀ d, Handled L m b d → Handled L m' b' d)
    (hpending : ∀ v, Pending L b v → Pending L b' v)
    (hqueue : ∀ e ∈ m'.blockQueue, e ∈ m.blockQueue ∨ e.2 = L.page e.1 ∧
      L.Via (fun u => m.visited u = true) s e.1 ∧ e.1 < L.vertexCount)
    (hwork : ∀ w ∈ b', WorkOk L s m.visited w) : BlockInv L s m' b' := by
  refine ⟨fun v => ?_, fun v hv => ?_, fun v hv => ?_, fun e he => ?_, hhandled s h.start, ?_⟩
  · rw [hvisited, hids]
    exact h.order v
  · rw [hvisited] at hv ⊢
    obtain ⟨hstands, hvia, ht⟩ := h.seen v hv
    exact ⟨hstands, hvia, htaken _ ht⟩
  · have hv' := hv
    rw [hvisited] at hv'
    refine (h.expanded v hv').imp (hpending v) fun hx => hx.mono (fun u hu => ?_) hhandled
    rw [hvisited]
    exact hu
  · rw [hvisited]
    exact (hqueue e he).elim (h.queue e) id
  · rw [hvisited]
    exact hwork

variable {rest : List (VId × PageNo)}

/-- A vertex is taken off the queue that has its entry on the page. -/
theorem BlockInv.take (h : BlockInv L s m none) {x : VId} {p : PageNo}
    (hq : m.blockQueue = (x, p) :: rest) (hx : L.OnPage p x) {pages : PageNo → Bool}
    (hpages : ∀ q, m.visitedPages q = true → pages q = true) :
    BlockInv L s ⟨rest, update m.visited x true, pages, m.visitedOrder⟩
      (some (blockStart L x p)) := by
  obtain ⟨hp, hvia, -⟩ := h.queue (x, p) (hq ▸ mem_cons_self)
  obtain rfl : p = L.page x := hp
  have hvis : ∀ v, update m.visited x true v = true ↔ v = x ∨ m.visited v = true := by
    intro v
    by_cases hv : v = x
    · simp [hv]
    · simp [hv]
  have hsub : ∀ v, L.Via (fun u => m.visited u = true) s v →
      L.Via (fun u => update m.visited x true u = true) s v :=
    fun v hv => hv.mono fun u hu => (hvis u).2 (.inr hu)
  have hbusy : Taken ⟨rest, update m.visited x true, pages, m.visitedOrder⟩
      (some (blockStart L x (L.page x))) (L.page x) := .inr ⟨_, rfl, rfl⟩
  have htaken : ∀ q, Taken m none q →
      Taken ⟨rest, update m.visited x true, pages, m.visitedOrder⟩
        (some (blockStart L x (L.page x))) q := by
    rintro q (hq | ⟨w, hw, -⟩)
    · exact .inl (hpages q hq)
    · cases hw
  have hhandled : ∀ d, Handled L m none d →
      Handled L ⟨rest, update m.visited x true, pages, m.visitedOrder⟩
        (some (blockStart L x (L.page x))) d := by
    refine fun d => Handled.mono htaken (fun e he => ?_) fun w hw => by cases hw
    rw [hq, mem_cons] at he
    rcases he with rfl | he
    · exact .inl hbusy
    · exact .inr he
  refine ⟨fun v => ?_, fun v hv => ?_, fun v hv => ?_, fun e he => ?_, hhandled s h.start, ?_⟩
  · have hold := h.order v
    simp only [blockIds, Option.elim_none, append_nil] at hold
    rw [hvis, hold]
    simp [blockIds, blockStart, or_comm]
  · rcases (hvis v).1 hv with rfl | hv
    · exact ⟨hx, hsub v hvia, hbusy⟩
    · obtain ⟨hstands, hvia, ht⟩ := h.seen v hv
      exact ⟨hstands, hsub v hvia, htaken _ ht⟩
  · rcases (hvis v).1 hv with rfl | hv
    · exact .inl ⟨_, rfl, rfl, mem_cons_self⟩
    · rcases h.expanded v hv with ⟨w, hw, -⟩ | hexp
      · cases hw
      · exact .inr (hexp.mono (fun u hu => (hvis u).2 (.inr hu)) hhandled)
  · obtain ⟨hp, hvia, hlt⟩ := h.queue e (hq ▸ mem_cons_of_mem _ he)
    exact ⟨hp, hsub _ hvia, hlt⟩
  · rintro w ⟨⟩
    refine ⟨rfl, hx, (hvis x).2 (.inl rfl), fun o ho => ?_, forall_mem_nil _⟩
    obtain rfl := mem_singleton.1 ho
    exact ⟨x, (hvis x).2 (.inl rfl), .refl hx, rfl⟩

/-- The level loop goes through the list of `u` and visits the vertices `new`. -/
structure LevelVisit (L : BlockLayout) (visited visited' : VId → Bool) (w w' : BlockWork) (u : VId)
    (new : List VId) : Prop where
  marked : visited u = true
  inReach : L.InReach w.startVertex u
  inRange : L.InRange u
  nodup : new.Nodup
  mem_new : ∀ v, v ∈ new ↔
    v ∈ L.list u ∧ L.page v = w.pageNo ∧ L.Stands v ∧ visited v = false
  visited_iff : ∀ v, visited' v = true ↔ visited v = true ∨ v ∈ new
  startVertex : w'.startVertex = w.startVertex
  pageNo : w'.pageNo = w.pageNo
  currentLevel : w.currentLevel = (L.location u).2 :: w'.currentLevel
  nextLevel : w'.nextLevel = w.nextLevel ++ new.map fun v => (L.location v).2
  vertexOrder : w'.vertexOrder.map Prod.fst = w.vertexOrder.map Prod.fst ++ new
  outside : w'.outside = w.outside ++ (L.list u).filter fun v => L.page v ≠ w.pageNo

/-- The first offset of the level is that of a vertex, and the list there is its own. -/
theorem WorkOk.head {visited : VId → Bool} {w : BlockWork} (h : WorkOk L s visited w) {o : Nat}
    {rest : List Nat} (hcur : w.currentLevel = o :: rest) :
    ∃ u, visited u = true ∧ L.InReach w.startVertex u ∧ (L.location u).2 = o ∧
      L.neighbors w.pageNo o = L.list u := by
  obtain ⟨u, hu, hxu, hou⟩ := h.offsets o (by rw [hcur]; exact mem_cons_self)
  refine ⟨u, hu, hxu, hou, ?_⟩
  rw [BlockLayout.list, hxu.page_eq, h.page, hou]

/-- A step of the level loop goes through a list or to the next level. -/
theorem WorkOk.next {visited visited' : VId → Bool} {w w' : BlockWork} (h : WorkOk L s visited w)
    (hn : blockNext L visited w = some (visited', w')) :
    (∃ u new, LevelVisit L visited visited' w w' u new) ∨
      (w.currentLevel = [] ∧ w.nextLevel ≠ [] ∧ visited' = visited ∧
        w' = { w with
          currentLevel := w.nextLevel
          nextLevel := []
          currentLevelNum := w.currentLevelNum + 1 }) := by
  refine (blockNext_cases hn).imp_left ?_
  rintro ⟨o, rest, new, hcur, hrange, hnd, hnew, rfl, rfl⟩
  obtain ⟨u, hu, hxu, hou, hlist⟩ := h.head hcur
  rw [hlist] at hrange hnew ⊢
  refine ⟨u, new, hu, hxu, hrange, hnd, hnew, by simp, rfl, rfl, ?_, rfl, ?_, rfl⟩
  · rw [hcur, hou]
  · rw [map_append, map_map]
    exact congrArg _ (map_id' new)

section LevelVisit

variable {visited' : VId → Bool} {w w' : BlockWork} {u : VId} {new : List VId}

theorem LevelVisit.inReach_of_mem (hl : LevelVisit L m.visited visited' w w' u new)
    (hw : WorkOk L s m.visited w) (hv : v ∈ new) : L.InReach w.startVertex v := by
  obtain ⟨hmem, hp, hs, -⟩ := (hl.mem_new v).1 hv
  exact hl.inReach.tail ⟨hmem, hp.trans (hl.inReach.page_eq.trans hw.page).symm, hs⟩

theorem BlockInv.levelVisit (h : BlockInv L s m (some w))
    (hl : LevelVisit L m.visited visited' w w' u new) :
    BlockInv L s { m with visited := visited' } (some w') := by
  have hw := h.work w rfl
  have hpage : L.page u = w.pageNo := hl.inReach.page_eq.trans hw.page
  obtain ⟨hstands, hvia, -⟩ := h.seen u hl.marked
  have hsub : ∀ v, m.visited v = true → visited' v = true :=
    fun v hv => (hl.visited_iff v).2 (.inl hv)
  have hvias : ∀ v, L.Via (fun u => m.visited u = true) s v →
      L.Via (fun u => visited' u = true) s v := fun v hv => hv.mono hsub
  have hlist : ∀ d ∈ L.list u, L.Via (fun u => visited' u = true) s d :=
    fun d hd => (hvias u hvia).tail ⟨hsub u hl.marked, hstands, hd⟩
  have htaken : ∀ q, Taken m (some w) q → Taken { m with visited := visited' } (some w') q := by
    rintro q (hq | ⟨w1, hw1, hq⟩)
    · exact .inl hq
    · cases hw1
      exact .inr ⟨w', rfl, hl.pageNo.trans hq⟩
  have hhandled : ∀ d, Handled L m (some w) d →
      Handled L { m with visited := visited' } (some w') d := by
    refine fun d => Handled.mono htaken (fun e he => .inr he) fun w1 hw1 hd => ?_
    cases hw1
    refine .inr (.inr ⟨w', rfl, ?_⟩)
    rw [hl.outside]
    exact mem_append_left _ hd
  have hpending : ∀ v, L.page v = w.pageNo →
      (L.location v).2 ∈ w'.currentLevel ++ w'.nextLevel → Pending L (some w') v :=
    fun v hp ho => ⟨w', rfl, hl.pageNo.trans hp.symm, ho⟩
  refine ⟨fun v => ?_, fun v hv => ?_, fun v hv => ?_, fun e he => ?_, hhandled s h.start, ?_⟩
  · rw [hl.visited_iff, h.order v]
    simp [blockIds, hl.vertexOrder, or_assoc]
  · rcases (hl.visited_iff v).1 hv with hv | hv
    · obtain ⟨hst, hvia, ht⟩ := h.seen v hv
      exact ⟨hst, hvias v hvia, htaken _ ht⟩
    · obtain ⟨hmem, hp, hst, -⟩ := (hl.mem_new v).1 hv
      exact ⟨hst, hlist v hmem, .inr ⟨w', rfl, hl.pageNo.trans hp.symm⟩⟩
  · rcases (hl.visited_iff v).1 hv with hv | hv
    · rcases h.expanded v hv with ⟨w1, hw1, hp, ho⟩ | hexp
      · cases hw1
        by_cases huv : (L.location v).2 = (L.location u).2
        · -- the list that the loop has just gone through
          obtain rfl : v = u := (h.seen v hv).1.unique hstands (hp.symm.trans hpage.symm) huv
          refine .inr fun d hd => ⟨hl.inRange d hd, fun hdp hds => ?_, fun hdp => ?_⟩
          · rw [hl.visited_iff, hl.mem_new]
            by_cases hdv : m.visited d = true
            · exact .inl hdv
            · exact .inr ⟨hd, hdp.trans hpage, hds, by simpa using hdv⟩
          · refine .inr (.inr ⟨w', rfl, ?_⟩)
            rw [hl.outside]
            refine mem_append_right _ (mem_filter.2 ⟨hd, ?_⟩)
            rw [hpage] at hdp
            simpa using hdp
        · refine .inl (hpending v hp.symm ?_)
          rw [hl.currentLevel, cons_append, mem_cons] at ho
          rw [hl.nextLevel, ← append_assoc]
          exact mem_append_left _ (ho.resolve_left huv)
      · exact .inr (hexp.mono hsub hhandled)
    · refine .inl (hpending v ((hl.mem_new v).1 hv).2.1 ?_)
      rw [hl.nextLevel]
      exact mem_append_right _ (mem_append_right _ (mem_map_of_mem hv))
  · obtain ⟨hp, hvia, hlt⟩ := h.queue e he
    exact ⟨hp, hvias _ hvia, hlt⟩
  · rintro w1 ⟨⟩
    refine ⟨?_, ?_, ?_, fun o ho => ?_, fun d hd => ?_⟩
    · rw [hl.startVertex, hl.pageNo]
      exact hw.page
    · rw [hl.startVertex]
      exact hw.stands
    · rw [hl.startVertex]
      exact hsub _ hw.marked
    · rw [hl.startVertex]
      rw [hl.nextLevel, ← append_assoc, mem_append] at ho
      rcases ho with ho | ho
      · obtain ⟨v, hv, hxv, hov⟩ := hw.offsets o (by
          rw [hl.currentLevel, cons_append]
          exact mem_cons_of_mem _ ho)
        exact ⟨v, hsub v hv, hxv, hov⟩
      · obtain ⟨v, hv, rfl⟩ := mem_map.1 ho
        exact ⟨v, (hl.visited_iff v).2 (.inr hv), hl.inReach_of_mem hw hv, rfl⟩
    · rw [hl.outside, mem_append] at hd
      rcases hd with hd | hd
      · exact ⟨hvias d (hw.outside d hd).1, (hw.outside d hd).2⟩
      · have hd := (mem_filter.1 hd).1
        exact ⟨hlist d hd, hl.inRange d hd⟩

end LevelVisit

/-- A step that moves items and notes of the page, with the same vertices pending. -/
theorem BlockInv.rework {w w' : BlockWork} (h : BlockInv L s m (some w))
    (hvisited : m'.visited = m.visited) (hpages : m'.visitedPages = m.visitedPages)
    (hids : blockIds m' (some w') = blockIds m (some w))
    (hstart : w'.startVertex = w.startVertex) (hpage : w'.pageNo = w.pageNo)
    (hlevels : w'.currentLevel ++ w'.nextLevel = w.currentLevel ++ w.nextLevel)
    (hkeep : ∀ e ∈ m.blockQueue, e ∈ m'.blockQueue)
    (hqueue : ∀ e ∈ m'.blockQueue, e ∈ m.blockQueue ∨ e.2 = L.page e.1 ∧ e.1 ∈ w.outside)
    (hsub : ∀ d ∈ w'.outside, d ∈ w.outside)
    (houtside : ∀ d ∈ w.outside, Handled L m' (some w') d) : BlockInv L s m' (some w') := by
  have hw := h.work w rfl
  have htaken : ∀ q, Taken m (some w) q → Taken m' (some w') q := by
    rintro q (hq | ⟨w1, hw1, hq⟩)
    · refine .inl ?_
      rw [hpages]
      exact hq
    · cases hw1
      exact .inr ⟨w', rfl, hpage.trans hq⟩
  refine h.mono hvisited (fun v => by rw [hids]) htaken (fun d => ?_) (fun v hv => ?_)
    (fun e he => ?_) fun w1 hw1 => ?_
  · refine Handled.mono htaken (fun e he => .inr (hkeep e he)) fun w1 hw1 hd => ?_
    cases hw1
    exact houtside d hd
  · obtain ⟨w1, hw1, hp, ho⟩ := hv
    cases hw1
    exact ⟨w', rfl, hpage.trans hp, hlevels ▸ ho⟩
  · exact (hqueue e he).imp_right fun ⟨hp, hd⟩ => ⟨hp, hw.outside _ hd⟩
  · cases hw1
    refine ⟨?_, ?_, ?_, fun o ho => ?_, fun d hd => hw.outside d (hsub d hd)⟩
    · rw [hstart, hpage]
      exact hw.page
    · rw [hstart]
      exact hw.stands
    · rw [hstart]
      exact hw.marked
    · rw [hstart]
      exact hw.offsets o (hlevels ▸ ho)

section

variable {w : BlockWork} (h : BlockInv L s m (some w)) (hcur : w.currentLevel = [])
  (hnext : w.nextLevel = [])
include h hcur hnext

/-- At the end of the level loop all of the page is visited that can be reached inside it. -/
theorem BlockInv.visited_of_inReach (hv : L.InReach w.startVertex v) : m.visited v = true := by
  induction hv.2 with
  | refl => exact (h.work w rfl).marked
  | @tail u v hxu huv ih =>
    rcases h.expanded u (ih ⟨hv.1, hxu⟩) with ⟨w1, hw1, -, ho⟩ | hexp
    · cases hw1
      rw [hcur, hnext] at ho
      cases ho
    · exact (hexp v huv.1).2.1 huv.2.1 huv.2.2

/-- The page is left. -/
theorem BlockInv.leave (hvisited : m'.visited = m.visited)
    (hids : blockIds m' none = blockIds m (some w))
    (htaken : ∀ q, Taken m (some w) q → m'.visitedPages q = true)
    (hkeep : ∀ e ∈ m.blockQueue, e ∈ m'.blockQueue)
    (hqueue : ∀ e ∈ m'.blockQueue, e ∈ m.blockQueue ∨ e.2 = L.page e.1 ∧ e.1 ∈ w.outside)
    (houtside : ∀ d ∈ w.outside, Handled L m' none d) : BlockInv L s m' none := by
  refine h.mono hvisited (fun v => by rw [hids]) (fun q hq => .inl (htaken q hq)) (fun d => ?_)
    (fun v hv => ?_) (fun e he => ?_) fun w1 hw1 => by cases hw1
  · refine Handled.mono (fun q hq => .inl (htaken q hq)) (fun e he => .inr (hkeep e he))
      fun w1 hw1 hd => ?_
    cases hw1
    exact houtside d hd
  · obtain ⟨w1, hw1, -, ho⟩ := hv
    cases hw1
    rw [hcur, hnext] at ho
    cases ho
  · exact (hqueue e he).imp_right fun ⟨hp, hd⟩ => ⟨hp, (h.work w rfl).outside _ hd⟩

end

/-- An item is dropped, the page of which was read or is marked now. -/
theorem BlockInv.drop (h : BlockInv L s m none) {e : VId × PageNo} (hq : m.blockQueue = e :: rest)
    (hqueue : m'.blockQueue = rest) (hvisited : m'.visited = m.visited)
    (horder : m'.visitedOrder = m.visitedOrder)
    (hpages : ∀ q, m'.visitedPages q = true ↔ m.visitedPages q = true ∨ q = e.2) :
    BlockInv L s m' none := by
  have htaken : ∀ q, Taken m none q → Taken m' none q := by
    rintro q (hq | ⟨w, hw, -⟩)
    · exact .inl ((hpages q).2 (.inl hq))
    · cases hw
  refine h.mono hvisited (fun v => ?_) htaken (fun d => ?_) (fun v hv => ?_) (fun e' he' => ?_)
    fun w hw => by cases hw
  · rw [blockIds, blockIds, horder]
  · refine Handled.mono htaken (fun e' he' => ?_) fun w hw => by cases hw
    rw [hq, mem_cons] at he'
    rcases he' with rfl | he'
    · exact .inl (.inl ((hpages _).2 (.inr rfl)))
    · exact .inr (hqueue ▸ he')
  · obtain ⟨w, hw, -⟩ := hv
    cases hw
  · rw [hqueue] at he'
    exact .inl (hq ▸ mem_cons_of_mem _ he')

end Moves

/-! ## What goes well -/

section Good

variable (L : BlockLayout) (R : VId → Prop) (again : Prop)

/-- The vertex is visited, or will be before the page is left. -/
def Reached (m : BlockMem) (b : Option BlockWork) (v : VId) : Prop :=
  m.visited v = true ∨ ∃ w ∈ b, L.InReach w.startVertex v

/-- No vertex was visited twice, none wrongly, and none was missed on the pages so far; `R` are the
vertices to be visited, and `again` says that pages are entered more than once. -/
structure BlockGood (m : BlockMem) (b : Option BlockWork) : Prop where
  nodup : (blockIds m b).Nodup
  sound : ∀ v, Reached L m b v → R v ∧ L.InRange v
  cover : ∀ v, R v → Taken m b (L.page v) →
    Reached L m b v ∨ again ∧ ∃ e ∈ m.blockQueue, L.InReach e.1 v

/-- Taking `x` off the queue does no harm: it is not visited yet, and what is missed on its page is
in another item. In a compressed build `get_neighbors` reads the encoded lists as words, so what it
gives has to be right as well. -/
structure TakeOk (compressed : Bool) (m : BlockMem) (x : VId) : Prop where
  fresh : L.Stands x → m.visited x = false
  cover : ∀ v, R v → L.page v = L.page x →
    m.visited v = true ∨ L.InReach x v ∨ again ∧ ∃ e ∈ m.blockQueue, L.InReach e.1 v
  reads : compressed = true → ∀ v, L.InReach x v → R v ∧ L.InRange v

variable {L R again} {s : VId} {m m' : BlockMem} {b b' : Option BlockWork}

theorem BlockGood.of_congr (hids : (blockIds m b).Nodup → (blockIds m' b').Nodup)
    (htaken : ∀ q, Taken m' b' q → Taken m b q)
    (hreached : ∀ v, Reached L m' b' v ↔ Reached L m b v)
    (hqueue : again → ∀ v, Taken m b (L.page v) → (∃ e ∈ m.blockQueue, L.InReach e.1 v) →
      ∃ e ∈ m'.blockQueue, L.InReach e.1 v) (h : BlockGood L R again m b) :
    BlockGood L R again m' b' := by
  refine ⟨hids h.nodup, fun v hv => h.sound v ((hreached v).1 hv), fun v hv ht => ?_⟩
  rw [hreached]
  exact (h.cover v hv (htaken _ ht)).imp_right fun ⟨ha, he⟩ => ⟨ha, hqueue ha v (htaken _ ht) he⟩

/-- A step after which as much is visited, taken and queued as before. -/
theorem BlockGood.congr (hids : (blockIds m' b').Nodup ↔ (blockIds m b).Nodup)
    (htaken : ∀ q, Taken m' b' q ↔ Taken m b q)
    (hreached : ∀ v, Reached L m' b' v ↔ Reached L m b v)
    (hqueue : again → ∀ v, Taken m b (L.page v) →
      ((∃ e ∈ m'.blockQueue, L.InReach e.1 v) ↔ ∃ e ∈ m.blockQueue, L.InReach e.1 v)) :
    BlockGood L R again m' b' ↔ BlockGood L R again m b :=
  ⟨.of_congr hids.1 (fun q => (htaken q).2) (fun v => (hreached v).symm)
      fun ha v ht => (hqueue ha v ((htaken _).1 ht)).1,
    .of_congr hids.2 (fun q => (htaken q).1) hreached fun ha v ht => (hqueue ha v ht).2⟩

theorem reached_none {v : VId} : Reached L m none v ↔ m.visited v = true := by
  simp [Reached]

variable {w : BlockWork} {rest : List (VId × PageNo)} {compressed : Bool} {visited' : VId → Bool}

theorem reached_some {v : VId} :
    Reached L m (some w) v ↔ m.visited v = true ∨ L.InReach w.startVertex v := by
  simp [Reached]

theorem taken_none {q : PageNo} : Taken m none q ↔ m.visitedPages q = true := by
  simp [Taken]

theorem taken_some {q : PageNo} : Taken m (some w) q ↔ m.visitedPages q = true ∨ w.pageNo = q := by
  simp [Taken]

/-- Taking a vertex that has its entry on the page. -/
theorem BlockGood.take_iff {x : VId} {p : PageNo} {pages : PageNo → Bool} (h : BlockInv L s m none)
    (hq : m.blockQueue = (x, p) :: rest) (hx : L.OnPage p x)
    (hsub : ∀ q, m.visitedPages q = true → pages q = true)
    (hpages : ∀ q, pages q = true → m.visitedPages q = true ∨ q = p)
    (hnew : ¬ again → m.visitedPages p = false)
    (hraw : compressed = false → ∀ v, L.Stands v → L.Via (fun _ => True) s v → R v ∧ L.InRange v) :
    BlockGood L R again ⟨rest, update m.visited x true, pages, m.visitedOrder⟩
        (some (blockStart L x p)) ↔
      BlockGood L R again m none ∧ TakeOk L R again compressed m x := by
  obtain ⟨hp, hvia, -⟩ := h.queue (x, p) (hq ▸ mem_cons_self)
  obtain rfl : p = L.page x := hp
  have hreached : ∀ v, Reached L ⟨rest, update m.visited x true, pages, m.visitedOrder⟩
      (some (blockStart L x (L.page x))) v ↔ m.visited v = true ∨ L.InReach x v := by
    intro v
    rw [reached_some]
    by_cases hv : v = x
    · subst hv
      exact iff_of_true (.inr (.refl hx)) (.inr (.refl hx))
    · simp [hv, blockStart]
  have hids : (blockIds ⟨rest, update m.visited x true, pages, m.visitedOrder⟩
      (some (blockStart L x (L.page x)))).Nodup ↔
        (blockIds m none).Nodup ∧ m.visited x = false := by
    have hnot : m.visited x = false ↔ x ∉ m.visitedOrder.map Prod.fst := by
      rw [← Bool.not_eq_true, h.order x]
      simp [blockIds]
    rw [hnot]
    simp only [blockIds, blockStart, Option.elim, map_cons, map_nil, append_nil]
    rw [← concat_eq_append, nodup_concat, and_comm]
  have htaken : ∀ q, Taken ⟨rest, update m.visited x true, pages, m.visitedOrder⟩
      (some (blockStart L x (L.page x))) q ↔ m.visitedPages q = true ∨ q = L.page x := by
    intro q
    rw [taken_some]
    constructor
    · rintro (hq | hq)
      · exact hpages q hq
      · exact .inr hq.symm
    · exact Or.imp (hsub q) fun hq => hq.symm
  constructor
  · intro hg
    refine ⟨⟨(hids.1 hg.nodup).1, fun v hv => ?_, fun v hv ht => ?_⟩,
      fun _ => (hids.1 hg.nodup).2, fun v hv hpv => ?_, fun _ v hv => ?_⟩
    · exact hg.sound v ((hreached v).2 (.inl (reached_none.1 hv)))
    · rw [reached_none]
      rcases hg.cover v hv ((htaken _).2 (.inl (taken_none.1 ht))) with hr | ⟨ha, e, he, hev⟩
      · rcases (hreached v).1 hr with hr | hr
        · exact .inl hr
        · by_cases ha : again
          · exact .inr ⟨ha, (x, L.page x), hq ▸ mem_cons_self, hr⟩
          · have := hnew ha
            rw [← hr.page_eq, taken_none.1 ht] at this
            cases this
      · exact .inr ⟨ha, e, hq ▸ mem_cons_of_mem _ he, hev⟩
    · rcases hg.cover v hv ((htaken _).2 (.inr hpv)) with hr | ⟨ha, e, he, hev⟩
      · exact ((hreached v).1 hr).imp_right .inl
      · exact .inr (.inr ⟨ha, e, hq ▸ mem_cons_of_mem _ he, hev⟩)
    · exact hg.sound v ((hreached v).2 (.inr hv))
  · rintro ⟨hg, hok⟩
    have hserved : ∀ v, (∃ e ∈ m.blockQueue, L.InReach e.1 v) →
        L.InReach x v ∨ ∃ e ∈ rest, L.InReach e.1 v := by
      rintro v ⟨e, he, hev⟩
      rw [hq, mem_cons] at he
      rcases he with rfl | he
      · exact .inl hev
      · exact .inr ⟨e, he, hev⟩
    refine ⟨hids.2 ⟨hg.nodup, hok.fresh hx⟩, fun v hv => ?_, fun v hv ht => ?_⟩
    · rcases (hreached v).1 hv with hv | hv
      · exact hg.sound v (reached_none.2 hv)
      · by_cases hc : compressed = true
        · exact hok.reads hc v hv
        · exact hraw (by simpa using hc) v hv.stands
            (hv.via (hvia.mono fun _ _ => trivial) fun _ _ => trivial)
    · rw [hreached]
      have hcover : m.visited v = true ∨ L.InReach x v ∨
          again ∧ ∃ e ∈ m.blockQueue, L.InReach e.1 v := by
        rcases (htaken _).1 ht with hold | hpv
        · exact (hg.cover v hv (taken_none.2 hold)).imp reached_none.1 .inr
        · exact hok.cover v hv hpv
      rcases hcover with hr | hr | ⟨ha, hr⟩
      · exact .inl (.inl hr)
      · exact .inl (.inr hr)
      · exact (hserved v hr).imp .inr fun he => ⟨ha, he⟩

/-- Taking a vertex without an entry on the page, which is marked. -/
theorem BlockGood.miss_iff {e : VId × PageNo} (h : BlockInv L s m none)
    (hq : m.blockQueue = e :: rest) (hx : ¬ L.OnPage e.2 e.1) (hqueue : m'.blockQueue = rest)
    (hvisited : m'.visited = m.visited) (horder : m'.visitedOrder = m.visitedOrder)
    (hpages : ∀ q, m'.visitedPages q = true ↔ m.visitedPages q = true ∨ q = e.2) :
    BlockGood L R again m' none ↔
      BlockGood L R again m none ∧ TakeOk L R again compressed m e.1 := by
  obtain ⟨hp, -⟩ := h.queue e (hq ▸ mem_cons_self)
  rw [hp] at hx hpages
  have hreached : ∀ v, Reached L m' none v ↔ Reached L m none v := by
    intro v
    rw [reached_none, reached_none, hvisited]
  have hserved : ∀ v, (∃ e' ∈ m.blockQueue, L.InReach e'.1 v) ↔
      ∃ e' ∈ m'.blockQueue, L.InReach e'.1 v := by
    intro v
    rw [hq, hqueue]
    simp only [mem_cons, or_and_right, exists_or, exists_eq_left]
    exact or_iff_right fun hev => hx hev.1
  have hids : blockIds m' none = blockIds m none := by rw [blockIds, blockIds, horder]
  constructor
  · intro hg
    refine ⟨⟨hids ▸ hg.nodup, fun v hv => hg.sound v ((hreached v).2 hv), fun v hv ht => ?_⟩,
      fun hst => absurd hst hx, fun v hv hpv => ?_, fun _ v hv => absurd hv.1 hx⟩
    · rw [← hreached, hserved]
      exact hg.cover v hv (taken_none.2 ((hpages _).2 (.inl (taken_none.1 ht))))
    · rw [hserved]
      exact (hg.cover v hv (taken_none.2 ((hpages _).2 (.inr hpv)))).imp
        (fun hr => reached_none.1 ((hreached v).1 hr)) .inr
  · rintro ⟨hg, hok⟩
    refine ⟨hids ▸ hg.nodup, fun v hv => hg.sound v ((hreached v).1 hv), fun v hv ht => ?_⟩
    rw [hreached, ← hserved]
    rcases (hpages _).1 (taken_none.1 ht) with hold | hpv
    · exact hg.cover v hv (taken_none.2 hold)
    · rcases hok.cover v hv hpv with hr | hr | hr
      · exact .inl (reached_none.2 hr)
      · exact absurd hr.1 hx
      · exact .inr hr

theorem BlockGood.levelVisit_iff {w w' : BlockWork} {u : VId} {new : List VId}
    (h : BlockInv L s m (some w)) (hl : LevelVisit L m.visited visited' w w' u new) :
    BlockGood L R again { m with visited := visited' } (some w') ↔
      BlockGood L R again m (some w) := by
  have hw := h.work w rfl
  refine BlockGood.congr ?_ (fun q => ?_) (fun v => ?_) fun _ _ _ => Iff.rfl
  · have hids : blockIds { m with visited := visited' } (some w') = blockIds m (some w) ++ new := by
      simp [blockIds, hl.vertexOrder]
    rw [hids, nodup_append']
    refine and_iff_left ⟨hl.nodup, fun v hv hnew => ?_⟩
    have hnot := ((hl.mem_new v).1 hnew).2.2.2
    rw [(h.order v).2 hv] at hnot
    cases hnot
  · rw [taken_some, taken_some, hl.pageNo]
  · rw [reached_some, reached_some, hl.startVertex]
    show visited' v = true ∨ _ ↔ _
    rw [hl.visited_iff, or_assoc]
    exact or_congr_right (or_iff_right_of_imp fun hv => hl.inReach_of_mem hw hv)

/-- A step of the level loop. -/
theorem BlockInv.next {w w' : BlockWork} (h : BlockInv L s m (some w))
    (hn : blockNext L m.visited w = some (visited', w')) :
    BlockInv L s { m with visited := visited' } (some w') ∧
      (BlockGood L R again { m with visited := visited' } (some w') ↔
        BlockGood L R again m (some w)) := by
  rcases (h.work w rfl).next hn with ⟨u, new, hl⟩ | ⟨hcur, -, rfl, rfl⟩
  · exact ⟨h.levelVisit hl, BlockGood.levelVisit_iff h hl⟩
  · constructor
    · refine h.rework rfl rfl rfl rfl rfl ?_ (fun _ he => he) (fun _ he => .inl he)
        (fun _ hd => hd) fun d hd => .inr (.inr ⟨_, rfl, hd⟩)
      rw [hcur]
      exact append_nil _
    · refine BlockGood.congr Iff.rfl (fun q => ?_) (fun v => ?_) fun _ _ _ => Iff.rfl
      · rw [taken_some, taken_some]
      · rw [reached_some, reached_some]

/-- Leaving a page. -/
theorem BlockGood.leave_iff (h : BlockInv L s m (some w)) (hcur : w.currentLevel = [])
    (hnext : w.nextLevel = []) (hvisited : m'.visited = m.visited)
    (hids : blockIds m' none = blockIds m (some w))
    (hpages : ∀ q, m'.visitedPages q = true ↔ m.visitedPages q = true ∨ w.pageNo = q)
    (hqueue : again → ∀ v, Taken m (some w) (L.page v) →
      ((∃ e ∈ m'.blockQueue, L.InReach e.1 v) ↔ ∃ e ∈ m.blockQueue, L.InReach e.1 v)) :
    BlockGood L R again m' none ↔ BlockGood L R again m (some w) := by
  refine BlockGood.congr (by rw [hids]) (fun q => ?_) (fun v => ?_) hqueue
  · rw [taken_none, taken_some, hpages]
  · rw [reached_none, reached_some, hvisited]
    exact (or_iff_left_of_imp (h.visited_of_inReach hcur hnext)).symm

end Good

/-! ## The sequential search -/

section Sequential

variable {L : BlockLayout} {R : VId → Prop} {s : VId} {order : BlockMem → HashOrder}

/-- The map after the outside neighbours `done`. -/
structure MapOk (L : BlockLayout) (m : BlockMem) (done : List VId) (map : OutsideMap) : Prop where
  entry : ∀ p ∈ map.keys,
    map.vertex p ∈ done ∧ L.page (map.vertex p) = p ∧ m.visitedPages p = false
  found : ∀ d ∈ done,
    m.visited d = true ∨ m.visitedPages (L.page d) = true ∨ L.page d ∈ map.keys

variable {map : OutsideMap}

theorem OutsideMap.mem_assign {p q : PageNo} {d : VId} :
    q ∈ (map.assign p d).keys ↔ q ∈ map.keys ∨ q = p := by
  unfold assign
  dsimp only
  split_ifs with hp
  · exact (or_iff_left_of_imp fun hq => hq ▸ hp).symm
  · rw [mem_append, mem_singleton]

theorem OutsideMap.mem_items {ho : HashOrder} {e : VId × PageNo} :
    e ∈ map.items ho ↔ e.2 ∈ map.keys ∧ map.vertex e.2 = e.1 := by
  unfold items
  rw [mem_map]
  constructor
  · rintro ⟨p, hp, rfl⟩
    exact ⟨(ho.perm _).mem_iff.1 hp, rfl⟩
  · rintro ⟨hp, he⟩
    exact ⟨e.2, (ho.perm _).mem_iff.2 hp, Prod.ext he rfl⟩

theorem OutsideMap.items_nil (ho : HashOrder) (vertex : PageNo → VId) :
    OutsideMap.items ho ⟨[], vertex⟩ = [] := by
  unfold items
  rw [perm_nil.1 (ho.perm [])]
  rfl

theorem MapOk.step {m : BlockMem} {done : List VId} (h : MapOk L m done map) (d : VId) :
    MapOk L m (done ++ [d]) (gatherOutside L m map d) := by
  unfold gatherOutside
  split_ifs with hskip
  · refine ⟨fun p hp => ?_, fun c hc => ?_⟩
    · exact (h.entry p hp).imp_left fun hmem => mem_append_left _ hmem
    · rcases mem_append.1 hc with hc | hc
      · exact h.found c hc
      · obtain rfl := mem_singleton.1 hc
        exact hskip.imp_right .inl
  · push Not at hskip
    refine ⟨fun p hp => ?_, fun c hc => ?_⟩
    · by_cases hpd : p = L.page d
      · rw [hpd]
        show update map.vertex (L.page d) d (L.page d) ∈ _ ∧ _
        simp [OutsideMap.assign, hskip.2]
      · obtain ⟨hmem, hpage, hnew⟩ := h.entry p ((OutsideMap.mem_assign.1 hp).resolve_right hpd)
        have hvertex : (map.assign (L.page d) d).vertex p = map.vertex p :=
          update_of_ne hpd _ _
        rw [hvertex]
        exact ⟨mem_append_left _ hmem, hpage, hnew⟩
    · rw [OutsideMap.mem_assign]
      rcases mem_append.1 hc with hc | hc
      · exact (h.found c hc).imp_right (Or.imp_right .inl)
      · obtain rfl := mem_singleton.1 hc
        exact .inr (.inr (.inr rfl))

variable {st st' : BfsBlockState}

theorem BlockInv.init (hs : s < L.vertexCount) :
    BlockInv L s (bfsBlockStart L s).mem (bfsBlockStart L s).work := by
  have hvisited : ∀ v, (bfsBlockStart L s).mem.visited v ≠ true := fun v => by simp [bfsBlockStart]
  refine ⟨fun v => ?_, fun v hv => absurd hv (hvisited v), fun v hv => absurd hv (hvisited v),
    fun e he => ?_, .inr (.inl ⟨_, mem_singleton_self _, rfl⟩), fun w hw => by cases hw⟩
  · exact iff_of_false (hvisited v) (by simp [bfsBlockStart, blockIds])
  · obtain rfl := mem_singleton.1 he
    exact ⟨rfl, Relation.ReflTransGen.refl, hs⟩

theorem BlockGood.init {again : Prop} :
    BlockGood L R again (bfsBlockStart L s).mem (bfsBlockStart L s).work := by
  have htaken : ∀ q, ¬ Taken (bfsBlockStart L s).mem (bfsBlockStart L s).work q := by
    intro q
    simp [bfsBlockStart, Taken]
  refine ⟨nodup_nil, fun v hv => ?_, fun v _ ht => absurd ht (htaken _)⟩
  have := reached_none.1 hv
  cases this

end Sequential

/-! ## Termination -/

section Measure

variable (L : BlockLayout)

instance (m : BlockMem) (b : Option BlockWork) (p : PageNo) : Decidable (Taken m b p) :=
  decidable_of_iff (m.visitedPages p = true ∨ b.any (fun w => w.pageNo = p) = true) (by
    cases b with
    | none => simp [Taken]
    | some w => simp [Taken])

/-- How many pages were not taken. -/
def pagesLeft (m : BlockMem) (b : Option BlockWork) : Nat :=
  (((Finset.range L.vertexCount).image L.page).filter fun p => ¬ Taken m b p).card

/-- How many items are for pages that were taken. -/
def staleItems (m : BlockMem) (b : Option BlockWork) : Nat :=
  m.blockQueue.countP fun e => Taken m b e.2

/-- How much is left to do on the page. -/
def levelsLeft (m : BlockMem) : Option BlockWork → Nat
  | none => 0
  | some w => 3 * ((L.vertices w.pageNo).toFinset.filter fun v => m.visited v = false).card +
      w.currentLevel.length + 2 * w.nextLevel.length + 1

variable {L} {s : VId} {m m' : BlockMem} {b b' : Option BlockWork}

theorem pagesLeft_lt (h : ∀ q, Taken m b q → Taken m' b' q) {x : VId} (hx : x < L.vertexCount)
    (hold : ¬ Taken m b (L.page x)) (hnew : Taken m' b' (L.page x)) :
    pagesLeft L m' b' < pagesLeft L m b := by
  refine Finset.card_lt_card ?_
  rw [Finset.ssubset_iff_of_subset]
  · refine ⟨L.page x, Finset.mem_filter.2 ⟨?_, hold⟩, fun hmem => (Finset.mem_filter.1 hmem).2 hnew⟩
    exact Finset.mem_image_of_mem _ (Finset.mem_range.2 hx)
  · intro q hq
    obtain ⟨hmem, hq⟩ := Finset.mem_filter.1 hq
    exact Finset.mem_filter.2 ⟨hmem, fun ht => hq (h q ht)⟩

theorem pagesLeft_congr (h : ∀ q, Taken m' b' q ↔ Taken m b q) :
    pagesLeft L m' b' = pagesLeft L m b := by
  unfold pagesLeft
  simp only [h]

variable {visited' : VId → Bool} {w w' : BlockWork}

theorem LevelVisit.levelsLeft_lt {u : VId} {new : List VId}
    (hl : LevelVisit L m.visited visited' w w' u new) :
    levelsLeft L { m with visited := visited' } (some w') < levelsLeft L m (some w) := by
  have hsub : new.toFinset ⊆
      (L.vertices w.pageNo).toFinset.filter fun v => m.visited v = false := by
    intro v hv
    obtain ⟨-, hp, hst, hnot⟩ := (hl.mem_new v).1 (mem_toFinset.1 hv)
    refine Finset.mem_filter.2 ⟨mem_toFinset.2 ?_, hnot⟩
    rw [← hp]
    exact mem_of_getElem? hst
  have hrest : ((L.vertices w.pageNo).toFinset.filter fun v => visited' v = false) =
      ((L.vertices w.pageNo).toFinset.filter fun v => m.visited v = false) \ new.toFinset := by
    ext v
    have hv := hl.visited_iff v
    simp only [Finset.mem_filter, Finset.mem_sdiff, mem_toFinset, ← Bool.not_eq_true, hv]
    tauto
  have hcard := Finset.card_sdiff_add_card_eq_card hsub
  rw [← hrest, toFinset_card_of_nodup hl.nodup] at hcard
  simp only [levelsLeft, hl.pageNo, hl.currentLevel, hl.nextLevel, length_cons,
    length_append, length_map]
  omega

/-- A step of the level loop leaves less to do. -/
theorem WorkOk.levelsLeft_lt (h : WorkOk L s m.visited w)
    (hn : blockNext L m.visited w = some (visited', w')) :
    levelsLeft L { m with visited := visited' } (some w') < levelsLeft L m (some w) := by
  rcases h.next hn with ⟨u, new, hl⟩ | ⟨hcur, hnext, rfl, rfl⟩
  · exact hl.levelsLeft_lt
  · have hpos := length_pos_iff.2 hnext
    simp only [levelsLeft, hcur, length_nil]
    omega

/-- The pages, then the stale items, then the work on the page. -/
def blockSize (L : BlockLayout) (m : BlockMem) (b : Option BlockWork) : Nat × Nat × Nat :=
  (pagesLeft L m b, staleItems m b, levelsLeft L m b)

/-- The order of the sizes. -/
def BlockLess : Nat × Nat × Nat → Nat × Nat × Nat → Prop :=
  Prod.Lex (· < ·) (Prod.Lex (· < ·) (· < ·))

theorem blockLess_wf : WellFounded BlockLess :=
  WellFounded.prod_lex wellFounded_lt (WellFounded.prod_lex wellFounded_lt wellFounded_lt)

/-- Taking an item: its page is new, or the item was a stale one. -/
theorem BlockInv.take_less {e : VId × PageNo} {rest : List (VId × PageNo)}
    (h : BlockInv L s m none) (hq : m.blockQueue = e :: rest) (hqueue : m'.blockQueue = rest)
    (htaken : ∀ q, Taken m' b' q ↔ Taken m none q ∨ q = e.2) :
    BlockLess (blockSize L m' b') (blockSize L m none) := by
  obtain ⟨hp, -, hlt⟩ := h.queue e (hq ▸ mem_cons_self)
  by_cases hold : Taken m none e.2
  · have hiff : ∀ q, Taken m' b' q ↔ Taken m none q :=
      fun q => (htaken q).trans (or_iff_left_of_imp fun hqe => hqe ▸ hold)
    have hstale : staleItems m' b' < staleItems m none := by
      unfold staleItems
      rw [hq, hqueue, countP_cons_of_pos (by simpa using hold)]
      simp only [hiff]
      exact Nat.lt_succ_self _
    unfold BlockLess blockSize
    rw [pagesLeft_congr hiff]
    exact .right _ (.left _ _ hstale)
  · rw [hp] at hold htaken
    exact .left _ _ (pagesLeft_lt (fun q hq => (htaken q).2 (.inl hq)) hlt hold
      ((htaken _).2 (.inr rfl)))

/-- Items for pages that were not taken are no stale ones. -/
theorem staleItems_eq {items : List (VId × PageNo)} (htaken : ∀ q, Taken m' b' q ↔ Taken m b q)
    (hqueue : m'.blockQueue.Perm (m.blockQueue ++ items)) (hnew : ∀ e ∈ items, ¬ Taken m' b' e.2) :
    staleItems m' b' = staleItems m b := by
  unfold staleItems
  rw [hqueue.countP_eq, countP_append]
  simp only [← htaken]
  refine Nat.add_eq_left.2 (countP_eq_zero.2 fun e he => ?_)
  simpa using hnew e he

/-- Less to do on the page, with the same pages taken. -/
theorem blockLess_of_levels (htaken : ∀ q, Taken m' b' q ↔ Taken m b q)
    (hstale : staleItems m' b' = staleItems m b) (hlevels : levelsLeft L m' b' < levelsLeft L m b) :
    BlockLess (blockSize L m' b') (blockSize L m b) := by
  unfold BlockLess blockSize
  rw [pagesLeft_congr htaken, hstale]
  exact .right _ (.right _ hlevels)

theorem WorkOk.next_less (h : WorkOk L s m.visited w)
    (hn : blockNext L m.visited w = some (visited', w')) :
    BlockLess (blockSize L { m with visited := visited' } (some w')) (blockSize L m (some w)) := by
  have htaken : ∀ q, Taken { m with visited := visited' } (some w') q ↔ Taken m (some w) q := by
    intro q
    rcases h.next hn with ⟨u, new, hl⟩ | ⟨-, -, rfl, rfl⟩
    · rw [taken_some, taken_some, hl.pageNo]
    · rw [taken_some, taken_some]
  refine blockLess_of_levels htaken (staleItems_eq htaken (.of_eq (append_nil _).symm)
    (forall_mem_nil _)) (h.levelsLeft_lt hn)

end Measure

section Sequential

variable {L : BlockLayout} {R : VId → Prop} {s : VId} {order : BlockMem → HashOrder}

end Sequential

end BwGraph
