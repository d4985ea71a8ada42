import Mathlib.Logic.Relation
import BwGraph.Part.BlockGraph
import BwGraph.Part.Reorder

/-
  `gorder_reordering` (`reorder.h`): the first version of the heuristic. The candidates of a round
  are the unvisited neighbours of the window, taken from the raw lists, and vertex 0 stands for
  "no candidate". A candidate that is not a key of the map is placed like any other and its list
  is then looked up with `at`, which throws.

  Nothing else can go wrong. Vertex 0 as the best candidate, whether it is a key or not, only
  starts a new window, and the first unvisited key is taken. So the call returns a permutation of
  the keys if and only if no round has a best candidate other than 0 that is not a key
  (`gorderReordering_iff`); a map whose lists mention its keys and 0 only is never refused.
-/

namespace BwGraph

open List AdjMap

/-- `at` of a map. -/
def AdjMap.at (adj : AdjMap) (v : VId) : Except String (List VId) :=
  match adj.lookup v with
  | none => .error atError
  | some nbrs => .ok nbrs

theorem AdjMap.at_eq_ok {adj : AdjMap} {v : VId} (h : v ∈ adj) : adj.at v = .ok (adj.get v) := by
  obtain ⟨nbrs, hn⟩ := Option.isSome_iff_exists.1 (AList.lookup_isSome.2 h)
  rw [AdjMap.at, AdjMap.get, hn]
  rfl

theorem AdjMap.at_eq_error {adj : AdjMap} {v : VId} (h : v ∉ adj) : adj.at v = .error atError := by
  rw [AdjMap.at, AList.lookup_eq_none.2 h]

/-- The container orders of a run and the rank of the score of a window count, a degree and the
giant flag. The candidates are a new set in every round. -/
structure PlainGorderEnv where
  keys : HashOrder
  degrees : HashOrder
  candidates : Nat → HashOrder
  score : Nat → Nat → Bool → Nat

/-- The locals of the loop; `visited` holds of exactly the ordered vertices. -/
structure PlainGorderState where
  ordered : List VId
  windowQueue : List VId
  windowNeighborCount : VId → Option Nat

namespace PlainGorderState

/-- `window_neighbor_count[v]++` for an unvisited `v`. -/
def enterNeighbor (st : PlainGorderState) (v : VId) : PlainGorderState :=
  if v ∈ st.ordered then st
  else { st with
    windowNeighborCount := Function.update st.windowNeighborCount v
      (some (((st.windowNeighborCount v).getD 0 + 1) % 2 ^ 64)) }

/-- `window_neighbor_count[v]--` for an unvisited `v` that has a count. -/
def leaveNeighbor (st : PlainGorderState) (v : VId) : PlainGorderState :=
  match st.windowNeighborCount v with
  | none => st
  | some c =>
    if v ∈ st.ordered then st
    else { st with
      windowNeighborCount := Function.update st.windowNeighborCount v
        (some ((c + (2 ^ 64 - 1)) % 2 ^ 64)) }

/-- The unvisited neighbours of one window vertex. -/
def addCandidates (st : PlainGorderState) (candidates nbrs : List VId) : List VId :=
  nbrs.foldl (fun cs v => if v ∈ st.ordered then cs else cs.insert v) candidates

/-- The candidates: the unvisited neighbours of the window. -/
def collectCandidates (adj : AdjMap) (st : PlainGorderState) :
    List VId → List VId → Except String (List VId)
  | [], cs => .ok cs
  | w :: ws, cs => do
    let nbrs ← adj.at w
    collectCandidates adj st ws (st.addCandidates cs nbrs)

/-- The candidate of the highest score, the first such one. -/
def bestOfCandidates (cfg : Config) (env : PlainGorderEnv) (adj : AdjMap) (st : PlainGorderState)
    (candidates : List VId) : Option VId :=
  GorderState.bestOf (fun v => env.score ((st.windowNeighborCount v).getD 0) (adj.get v).length
      (decide (v ∈ adj ∧ (adj.get v).length ≥ cfg.giantDegreeBound)))
    ((env.candidates st.ordered.length).order candidates) none

/-- Reading the count of a candidate creates it. -/
def touch (st : PlainGorderState) (candidates : List VId) : PlainGorderState :=
  { st with windowNeighborCount := fun v =>
      if v ∈ candidates then some ((st.windowNeighborCount v).getD 0)
      else st.windowNeighborCount v }

/-- The new window of the next component. -/
def clearWindow (st : PlainGorderState) : PlainGorderState :=
  { st with
    windowQueue := []
    windowNeighborCount := fun v => (st.windowNeighborCount v).map fun _ => 0 }

/-- Place a vertex and slide the window. -/
def place (adj : AdjMap) (windowSize : Nat) (st : PlainGorderState) (v : VId) :
    Except String PlainGorderState := do
  let st := { st with ordered := st.ordered ++ [v], windowQueue := st.windowQueue ++ [v] }
  let nbrs ← adj.at v
  let st := nbrs.foldl enterNeighbor st
  if st.windowQueue.length > windowSize then
    match st.windowQueue with
    | [] => return st
    | removed :: rest => do
      let nbrs ← adj.at removed
      return nbrs.foldl leaveNeighbor { st with windowQueue := rest }
  else return st

/-- The first unvisited key; 0 when there is none. -/
def firstUnvisited (env : PlainGorderEnv) (adj : AdjMap) (st : PlainGorderState) : VId :=
  ((env.keys.order adj.keys).find? fun u => u ∉ st.ordered).getD 0

/-- One round of the loop. -/
def round (cfg : Config) (env : PlainGorderEnv) (adj : AdjMap) (windowSize : Nat)
    (st : PlainGorderState) : Except String PlainGorderState := do
  let candidates ← st.collectCandidates adj st.windowQueue []
  let next := (st.bestOfCandidates cfg env adj candidates).getD 0
  let st := st.touch candidates
  if next = 0 then st.clearWindow.place adj windowSize (st.firstUnvisited env adj)
  else st.place adj windowSize next

/-- The loop `while (visited.size() < n)`. -/
def loop (cfg : Config) (env : PlainGorderEnv) (adj : AdjMap) (windowSize : Nat) :
    Nat → PlainGorderState → Except String (List VId)
  | 0, st => .ok st.ordered
  | fuel + 1, st =>
    if st.ordered.length < adj.keys.length then do
      let st ← st.round cfg env adj windowSize
      loop cfg env adj windowSize fuel st
    else .ok st.ordered

end PlainGorderState

/-- The seed: the first vertex of the highest degree, the first key when that is vertex 0 or when
no vertex has a neighbour. -/
def plainGorderSeed (env : PlainGorderEnv) (adj : AdjMap) : VId :=
  let seed := ((env.degrees.order adj.keys).foldl (fun (acc : VId × Nat) u =>
    if (adj.get u).length > acc.2 then (u, (adj.get u).length) else acc) (0, 0)).1
  if seed = 0 then ((env.keys.order adj.keys).head?).getD 0 else seed

/-- The locals before the loop: the seed is placed and its neighbours are counted. -/
def plainGorderStart (env : PlainGorderEnv) (adj : AdjMap) : PlainGorderState :=
  let seed := plainGorderSeed env adj
  (adj.get seed).foldl PlainGorderState.enterNeighbor
    ⟨[seed], [seed], fun v => if v ∈ adj then some 0 else none⟩

/-- `gorder_reordering`. -/
def gorderReordering (cfg : Config) (env : PlainGorderEnv) (adj : AdjMap) (windowSize : Nat) :
    Except String (List VId) :=
  if adj.keys = [] then .ok []
  else do
    let _ ← adj.at (plainGorderSeed env adj)
    (plainGorderStart env adj).loop cfg env adj windowSize adj.keys.length

/-! ## One round -/

namespace PlainGorderState

variable {cfg : Config} {env : PlainGorderEnv} {adj : AdjMap} {windowSize : Nat}
  {st st' : PlainGorderState}

/-- What every round keeps: placed vertices are distinct keys, and so are the window's. -/
structure Inv (adj : AdjMap) (st : PlainGorderState) : Prop where
  nodup : st.ordered.Nodup
  keys : ∀ v ∈ st.ordered, v ∈ adj
  window : ∀ v ∈ st.windowQueue, v ∈ adj

/-- The unvisited neighbours of the window. -/
def candidates (adj : AdjMap) (st : PlainGorderState) : List VId :=
  st.windowQueue.foldl (fun cs w => st.addCandidates cs (adj.get w)) []

theorem collectCandidates_ok {ws : List VId} (h : ∀ w ∈ ws, w ∈ adj) (cs : List VId) :
    st.collectCandidates adj ws cs =
      .ok (ws.foldl (fun cs w => st.addCandidates cs (adj.get w)) cs) := by
  induction ws generalizing cs with
  | nil => rfl
  | cons w ws ih =>
    unfold collectCandidates
    rw [at_eq_ok (h w mem_cons_self)]
    exact ih (fun u hu => h u (mem_cons_of_mem w hu)) _

theorem notMem_addCandidates (nbrs : List VId) {cs : List VId} (hcs : ∀ v ∈ cs, v ∉ st.ordered) :
    ∀ v ∈ st.addCandidates cs nbrs, v ∉ st.ordered ∧ (v ∈ cs ∨ v ∈ nbrs) := by
  unfold addCandidates
  induction nbrs generalizing cs with
  | nil => exact fun v hv => ⟨hcs v hv, .inl hv⟩
  | cons u nbrs ih =>
    rw [foldl_cons]
    split_ifs with hu
    · intro v hv
      obtain ⟨hn, hm⟩ := ih hcs v hv
      exact ⟨hn, hm.imp_right (mem_cons_of_mem u)⟩
    · have hcs' : ∀ v ∈ cs.insert u, v ∉ st.ordered := fun v hv => by
        rcases mem_insert_iff.1 hv with rfl | hv
        · exact hu
        · exact hcs v hv
      intro v hv
      obtain ⟨hn, hm⟩ := ih hcs' v hv
      refine ⟨hn, ?_⟩
      rcases hm with hm | hm
      · rcases mem_insert_iff.1 hm with rfl | hm
        · exact .inr mem_cons_self
        · exact .inl hm
      · exact .inr (mem_cons_of_mem u hm)

variable {v : VId}

/-- A candidate is unvisited and stands in the list of a window vertex. -/
theorem mem_candidates (hv : v ∈ st.candidates adj) :
    v ∉ st.ordered ∧ ∃ w ∈ st.windowQueue, v ∈ adj.get w := by
  have hfold : ∀ (ws cs : List VId), (∀ v ∈ cs, v ∉ st.ordered) →
      ∀ v ∈ ws.foldl (fun cs w => st.addCandidates cs (adj.get w)) cs,
        v ∉ st.ordered ∧ (v ∈ cs ∨ ∃ w ∈ ws, v ∈ adj.get w) := by
    intro ws
    induction ws with
    | nil => exact fun cs hcs v hv => ⟨hcs v hv, .inl hv⟩
    | cons w ws ih =>
      intro cs hcs v hv
      have hcs' := notMem_addCandidates (adj.get w) hcs
      obtain ⟨hn, hm⟩ := ih _ (fun u hu => (hcs' u hu).1) v hv
      refine ⟨hn, ?_⟩
      rcases hm with hm | ⟨w', hw', hm⟩
      · exact (hcs' v hm).2.imp_right fun hm => ⟨w, mem_cons_self, hm⟩
      · exact .inr ⟨w', mem_cons_of_mem w hw', hm⟩
  obtain ⟨hn, hm⟩ := hfold st.windowQueue [] (by simp) v hv
  exact ⟨hn, hm.resolve_left (by simp)⟩

/-- The best candidate of a round. -/
def best (cfg : Config) (env : PlainGorderEnv) (adj : AdjMap) (st : PlainGorderState) :
    Option VId := st.bestOfCandidates cfg env adj (st.candidates adj)

theorem best_mem (h : st.best cfg env adj = some v) : v ∈ st.candidates adj := by
  rcases GorderState.bestOf_mem _ none h with hm | ⟨s, hs⟩
  · exact ((env.candidates _).perm _).mem_iff.1 hm
  · cases hs

theorem enterNeighbor_ordered (st : PlainGorderState) (v : VId) :
    (st.enterNeighbor v).ordered = st.ordered ∧
      (st.enterNeighbor v).windowQueue = st.windowQueue := by
  unfold enterNeighbor
  split_ifs <;> exact ⟨rfl, rfl⟩

theorem leaveNeighbor_ordered (st : PlainGorderState) (v : VId) :
    (st.leaveNeighbor v).ordered = st.ordered ∧
      (st.leaveNeighbor v).windowQueue = st.windowQueue := by
  unfold leaveNeighbor
  split
  · exact ⟨rfl, rfl⟩
  · split_ifs <;> exact ⟨rfl, rfl⟩

theorem foldl_ordered {f : PlainGorderState → VId → PlainGorderState}
    (hf : ∀ st v, (f st v).ordered = st.ordered ∧ (f st v).windowQueue = st.windowQueue)
    (l : List VId) (st : PlainGorderState) :
    (l.foldl f st).ordered = st.ordered ∧ (l.foldl f st).windowQueue = st.windowQueue := by
  induction l generalizing st with
  | nil => exact ⟨rfl, rfl⟩
  | cons v l ih =>
    obtain ⟨h1, h2⟩ := hf st v
    obtain ⟨h3, h4⟩ := ih (f st v)
    exact ⟨h3.trans h1, h4.trans h2⟩

variable (windowSize) in
/-- A key that is not placed yet is placed. -/
theorem Inv.place (h : st.Inv adj) (hv : v ∈ adj) (hn : v ∉ st.ordered) :
    ∃ st', st.place adj windowSize v = .ok st' ∧ st'.Inv adj ∧
      st'.ordered = st.ordered ++ [v] := by
  have hnodup : (st.ordered ++ [v]).Nodup := by
    rw [← concat_eq_append]
    exact h.nodup.concat hn
  have hsnoc : ∀ l : List VId, (∀ u ∈ l, u ∈ adj) → ∀ u ∈ l ++ [v], u ∈ adj := by
    intro l hl u hu
    rcases mem_append.1 hu with hu | hu
    · exact hl u hu
    · rw [mem_singleton.1 hu]
      exact hv
  set st1 := (adj.get v).foldl enterNeighbor
    { st with ordered := st.ordered ++ [v], windowQueue := st.windowQueue ++ [v] } with hst1
  obtain ⟨ho1, hq1⟩ : st1.ordered = st.ordered ++ [v] ∧ st1.windowQueue = st.windowQueue ++ [v] :=
    foldl_ordered enterNeighbor_ordered _ _
  have h1 : st1.Inv adj := ⟨ho1 ▸ hnodup, ho1 ▸ hsnoc _ h.keys, hq1 ▸ hsnoc _ h.window⟩
  unfold PlainGorderState.place
  rw [at_eq_ok hv]
  simp only [bind, Except.bind, pure, Except.pure, ← hst1]
  split_ifs
  · split
    · exact ⟨st1, rfl, h1, ho1⟩
    · rename_i removed rest hq
      have hmem : ∀ u ∈ removed :: rest, u ∈ adj := fun u hu => h1.window u (hq ▸ hu)
      rw [at_eq_ok (hmem removed mem_cons_self)]
      obtain ⟨ho2, hq2⟩ := foldl_ordered leaveNeighbor_ordered (adj.get removed)
        { st1 with windowQueue := rest }
      refine ⟨_, rfl, ⟨?_, ?_, ?_⟩, ho2.trans ho1⟩
      · rw [ho2]
        exact h1.nodup
      · rw [ho2]
        exact h1.keys
      · rw [hq2]
        exact fun u hu => hmem u (mem_cons_of_mem removed hu)
  · exact ⟨st1, rfl, h1, ho1⟩

theorem place_error (hv : v ∉ adj) : st.place adj windowSize v = .error atError := by
  unfold place
  rw [at_eq_error hv]
  rfl

variable (env) in
/-- A round before every key is placed finds an unvisited key. -/
theorem firstUnvisited_spec (hlt : st.ordered.length < adj.keys.length) :
    st.firstUnvisited env adj ∈ adj ∧ st.firstUnvisited env adj ∉ st.ordered := by
  unfold firstUnvisited
  rcases hf : (env.keys.order adj.keys).find? fun u => u ∉ st.ordered with _ | u
  · have hall := find?_eq_none.1 hf
    have hsub : adj.keys ⊆ st.ordered := fun u hu => Decidable.of_not_not fun hn =>
      hall u ((env.keys.perm _).mem_iff.2 hu) (decide_eq_true hn)
    have hle := (adj.keys_nodup.subperm hsub).length_le
    omega
  · have hfound := find?_some hf
    exact ⟨(env.keys.perm _).mem_iff.1 (mem_of_find?_eq_some hf), of_decide_eq_true hfound⟩

/-- The best candidate is a key or vertex 0, or there is none. -/
def Kept (cfg : Config) (env : PlainGorderEnv) (adj : AdjMap) (st : PlainGorderState) : Prop :=
  ∀ v, st.best cfg env adj = some v → v = 0 ∨ v ∈ adj

theorem round_eq (h : st.Inv adj) : st.round cfg env adj windowSize =
    if (st.best cfg env adj).getD 0 = 0 then
      (st.touch (st.candidates adj)).clearWindow.place adj windowSize (st.firstUnvisited env adj)
    else (st.touch (st.candidates adj)).place adj windowSize ((st.best cfg env adj).getD 0) := by
  unfold round
  rw [collectCandidates_ok h.window]
  rfl

variable (windowSize) in
/-- A round whose best candidate is kept places one key. -/
theorem Inv.round_ok (h : st.Inv adj) (hlt : st.ordered.length < adj.keys.length)
    (hk : st.Kept cfg env adj) :
    ∃ st', st.round cfg env adj windowSize = .ok st' ∧ st'.Inv adj ∧
      st'.ordered.length = st.ordered.length + 1 := by
  have hclear : (st.touch (st.candidates adj)).clearWindow.Inv adj :=
    ⟨h.nodup, h.keys, by simp [clearWindow]⟩
  have htouch : (st.touch (st.candidates adj)).Inv adj := ⟨h.nodup, h.keys, h.window⟩
  rw [round_eq h]
  split_ifs with h0
  · obtain ⟨hv, hn⟩ := firstUnvisited_spec env hlt
    obtain ⟨st', hst, hinv, ho⟩ := hclear.place windowSize hv hn
    refine ⟨st', hst, hinv, ?_⟩
    rw [ho, length_append, length_singleton]
    rfl
  · rcases hb : st.best cfg env adj with _ | v
    · rw [hb] at h0
      exact absurd rfl h0
    · rw [hb] at h0
      have hv : v ∈ adj := (hk v hb).resolve_left h0
      obtain ⟨st', hst, hinv, ho⟩ :=
        htouch.place windowSize hv (mem_candidates (best_mem hb)).1
      refine ⟨st', hst, hinv, ?_⟩
      rw [ho, length_append, length_singleton]
      rfl

/-- Any other round throws. -/
theorem Inv.round_error (h : st.Inv adj) (hk : ¬ st.Kept cfg env adj) :
    st.round cfg env adj windowSize = .error atError := by
  unfold Kept at hk
  push Not at hk
  obtain ⟨v, hb, h0, hv⟩ := hk
  rw [round_eq h, hb, Option.getD_some, if_neg h0]
  exact place_error hv

/-! ## The loop -/

/-- A round that the loop makes. -/
def Next (cfg : Config) (env : PlainGorderEnv) (adj : AdjMap) (windowSize : Nat)
    (st st' : PlainGorderState) : Prop :=
  st.ordered.length < adj.keys.length ∧ st.round cfg env adj windowSize = .ok st'

/-- Whenever the loop makes another round, its best candidate is kept. -/
def AllKept (cfg : Config) (env : PlainGorderEnv) (adj : AdjMap) (windowSize : Nat)
    (st : PlainGorderState) : Prop :=
  ∀ st', Relation.ReflTransGen (Next cfg env adj windowSize) st st' →
    st'.ordered.length < adj.keys.length → st'.Kept cfg env adj

theorem AllKept.next (h : st.AllKept cfg env adj windowSize)
    (hn : Next cfg env adj windowSize st st') : st'.AllKept cfg env adj windowSize :=
  fun s hs => h s (Relation.ReflTransGen.head hn hs)

theorem AllKept.of_next (hk : st.Kept cfg env adj) (hr : st.round cfg env adj windowSize = .ok st')
    (h : st'.AllKept cfg env adj windowSize) : st.AllKept cfg env adj windowSize := by
  intro s hs hlt
  rcases Relation.ReflTransGen.cases_head hs with rfl | ⟨s1, ⟨-, hr1⟩, hs1⟩
  · exact hk
  · rw [hr] at hr1
    cases hr1
    exact h s hs1 hlt

theorem loop_iff (fuel : Nat) (h : st.Inv adj) (hf : adj.keys.length ≤ st.ordered.length + fuel) :
    (∃ l, st.loop cfg env adj windowSize fuel = .ok l ∧ l.Perm adj.keys) ↔
      st.AllKept cfg env adj windowSize := by
  -- with every key placed the loop stops, and no round is left
  have hfull : ∀ st : PlainGorderState, st.Inv adj → adj.keys.length ≤ st.ordered.length →
      st.ordered.Perm adj.keys ∧ st.AllKept cfg env adj windowSize := by
    refine fun st h hle => ⟨(h.nodup.subperm h.keys).perm_of_length_le hle, fun s hs hlt => ?_⟩
    rcases Relation.ReflTransGen.cases_head hs with rfl | ⟨s1, ⟨hlt', -⟩, -⟩
    · omega
    · omega
  induction fuel generalizing st with
  | zero => exact iff_of_true ⟨_, rfl, (hfull st h hf).1⟩ (hfull st h hf).2
  | succ fuel ih =>
    unfold PlainGorderState.loop
    split_ifs with hlt
    · by_cases hk : st.Kept cfg env adj
      · obtain ⟨st', hr, h', hlen⟩ := h.round_ok windowSize hlt hk
        rw [hr]
        exact (ih h' (by omega)).trans ⟨.of_next hk hr, fun ha => ha.next ⟨hlt, hr⟩⟩
      · rw [h.round_error hk]
        refine iff_of_false ?_ fun ha => hk (ha st .refl hlt)
        rintro ⟨l, hl, -⟩
        cases hl
    · have hle : adj.keys.length ≤ st.ordered.length := by omega
      exact iff_of_true ⟨_, rfl, (hfull st h hle).1⟩ (hfull st h hle).2

end PlainGorderState

/-! ## The whole call -/

section

variable (env : PlainGorderEnv) {adj : AdjMap} (hne : adj.keys ≠ [])
include hne

theorem plainGorderSeed_mem : plainGorderSeed env adj ∈ adj := by
  have hscan : ∀ (l : List VId) (acc : VId × Nat), (acc.1 = 0 ∨ acc.1 ∈ adj) →
      (∀ u ∈ l, u ∈ adj) →
      (l.foldl (fun (acc : VId × Nat) u =>
        if (adj.get u).length > acc.2 then (u, (adj.get u).length) else acc) acc).1 = 0 ∨
      (l.foldl (fun (acc : VId × Nat) u =>
        if (adj.get u).length > acc.2 then (u, (adj.get u).length) else acc) acc).1 ∈ adj := by
    intro l
    induction l with
    | nil => exact fun acc h _ => h
    | cons u l ih =>
      intro acc h hl
      rw [foldl_cons]
      refine ih _ ?_ fun x hx => hl x (mem_cons_of_mem u hx)
      split_ifs
      · exact .inr (hl u mem_cons_self)
      · exact h
  unfold plainGorderSeed
  dsimp only
  split_ifs with h0
  · rcases hh : env.keys.order adj.keys with _ | ⟨u, l⟩
    · have hp := env.keys.perm adj.keys
      rw [hh] at hp
      exact absurd hp.nil_eq.symm hne
    · have hu : u ∈ env.keys.order adj.keys := by rw [hh]; exact mem_cons_self
      exact (env.keys.perm _).mem_iff.1 hu
  · exact (hscan _ (0, 0) (.inl rfl) fun u hu => (env.degrees.perm _).mem_iff.1 hu).resolve_left h0

theorem plainGorderStart_inv :
    (plainGorderStart env adj).Inv adj ∧
      (plainGorderStart env adj).ordered = [plainGorderSeed env adj] := by
  have hseed := plainGorderSeed_mem env hne
  obtain ⟨ho, hq⟩ := PlainGorderState.foldl_ordered PlainGorderState.enterNeighbor_ordered
    (adj.get (plainGorderSeed env adj))
    ⟨[plainGorderSeed env adj], [plainGorderSeed env adj], fun v => if v ∈ adj then some 0 else none⟩
  have hone : ∀ v ∈ [plainGorderSeed env adj], v ∈ adj := by simpa using hseed
  exact ⟨⟨ho ▸ nodup_singleton _, ho ▸ hone, hq ▸ hone⟩, ho⟩

end

/-- A map whose lists mention its keys and vertex 0 only has no other candidate. -/
theorem allKept_of_lists (cfg : Config) (env : PlainGorderEnv) {adj : AdjMap} (windowSize : Nat)
    (hne : adj.keys ≠ []) (hlists : ∀ u ∈ adj, ∀ v ∈ adj.get u, v = 0 ∨ v ∈ adj) :
    (plainGorderStart env adj).AllKept cfg env adj windowSize := by
  have hkept : ∀ s : PlainGorderState, s.Inv adj → s.Kept cfg env adj := by
    intro s h v hb
    obtain ⟨-, w, hw, hm⟩ := PlainGorderState.mem_candidates (PlainGorderState.best_mem hb)
    exact hlists w (h.window w hw) v hm
  -- every state of the loop keeps its window within the keys
  have hinv : ∀ s, Relation.ReflTransGen (PlainGorderState.Next cfg env adj windowSize)
      (plainGorderStart env adj) s → s.Inv adj := by
    intro s hs
    induction hs with
    | refl => exact (plainGorderStart_inv env hne).1
    | tail _ hn ih =>
      obtain ⟨hlt, hr⟩ := hn
      obtain ⟨s', hr', h', -⟩ := ih.round_ok windowSize hlt (hkept _ ih)
      rw [hr] at hr'
      cases hr'
      exact h'
  exact fun s hs _ => hkept s (hinv s hs)

/-- The call returns a permutation of the keys exactly when every round of its loop has a best
candidate that is a key or 0, or none. -/
theorem gorderReordering_iff (cfg : Config) (env : PlainGorderEnv) (adj : AdjMap)
    (windowSize : Nat) :
    (∃ l, gorderReordering cfg env adj windowSize = .ok l ∧ l.Perm adj.keys) ↔
      (plainGorderStart env adj).AllKept cfg env adj windowSize := by
  by_cases hne : adj.keys = []
  · refine iff_of_true ⟨[], if_pos hne, by rw [hne]⟩ fun s _ hlt => ?_
    rw [hne] at hlt
    exact absurd hlt (Nat.not_lt_zero _)
  · obtain ⟨hinv, ho⟩ := plainGorderStart_inv env hne
    unfold gorderReordering
    rw [if_neg hne, AdjMap.at_eq_ok (plainGorderSeed_mem env hne)]
    exact PlainGorderState.loop_iff _ hinv (by rw [ho]; simp)

/-- Two vertices, one with a neighbour outside the map. -/
def outsideMap : AdjMap :=
  [(2, []), (1, [5])].foldl (fun (adj : AdjMap) item => adj.insert item.1 item.2) ∅

/-- Ties are broken by the listed order; the score is ten times the source's. -/
def listedGorderEnv : PlainGorderEnv :=
  ⟨.listed, .listed, fun _ => .listed, fun count degree _ => 10 * count + degree⟩

/-- Vertex 5 is placed and its list looked up. -/
theorem gorderReordering_throws :
    ¬ ∀ (cfg : Config) (env : PlainGorderEnv) (adj : AdjMap) (windowSize : Nat),
      ∃ l, gorderReordering cfg env adj windowSize = .ok l ∧ l.Perm adj.keys := by
  intro h
  obtain ⟨l, hl, -⟩ := h ⟨100, 120, 0, 50, 1, 0, false⟩ listedGorderEnv outsideMap 20
  have he : (gorderReordering ⟨100, 120, 0, 50, 1, 0, false⟩ listedGorderEnv outsideMap 20).toBool =
      false := by decide +kernel
  rw [hl] at he
  cases he

end BwGraph
