import Mathlib.Data.List.Perm.Subperm
import Mathlib.Logic.Function.Basic
import BwGraph.Common.Type

/-
  `gorder_reordering_optimized` (`reorder.h`): the order in which a split packs the vertices of a
  merged page. A vertex is taken from the candidates next to a sliding window of recent vertices,
  the best bucket first and by a floating-point score within a sample of it; without candidates
  the next unvisited vertex starts a new window.

  The iteration order of the hash containers and the rank of the float score are parameters. What
  a split relies on holds for all of them: the result is a permutation of the vertices
  (`gorder_perm`). `INVALID_VERTEX` is `none`.
-/

namespace BwGraph

open List Option

/-- What the C++ run fixes and the source does not: container orders and the score's rank, as a
function of the window count, the degree and the giant flag. -/
structure GorderEnv where
  keys : HashOrder
  candidates : HashOrder
  score : Nat → Nat → Bool → Nat

/-- The locals of the loop; `windowNeighborCount` counts in a `uint8_t`. -/
structure GorderState where
  ordered : List VId
  windowQueue : List VId
  windowNeighborCount : VId → Option Nat
  activeCandidates : List VId

namespace GorderState

/-- `visited`: exactly the ordered vertices. -/
def visited (st : GorderState) : List VId := st.ordered

/-- Bucket of a candidate. -/
def bucketIdx (st : GorderState) (v : VId) : Nat := min ((st.windowNeighborCount v).getD 0) 20

/-- The candidates of the highest non-empty bucket, in scan order. -/
def topBucket (st : GorderState) (scan : List VId) : List VId :=
  let top := (scan.map st.bucketIdx).foldl max 0
  scan.filter fun v => st.bucketIdx v = top

/-- The best of a sample: the first one with the highest score. -/
def bestOf (score : VId → Nat) : List VId → Option (Nat × VId) → Option VId
  | [], best => best.map Prod.snd
  | v :: vs, none => bestOf score vs (some (score v, v))
  | v :: vs, some (s, b) =>
    if score v > s then bestOf score vs (some (score v, v)) else bestOf score vs (some (s, b))

/-- The vertex the candidates offer. -/
def pickCandidate (cfg : Config) (env : GorderEnv) (adj : AdjMap) (st : GorderState) :
    Option VId :=
  let bucket := st.topBucket (env.candidates.order st.activeCandidates)
  let score := fun v => env.score ((st.windowNeighborCount v).getD 0) (adj.get v).length
    (decide ((adj.get v).length ≥ cfg.giantDegreeBound))
  bestOf score (bucket.reverse.take 8) none

/-- One neighbour of the vertex just placed. -/
def enterNeighbor (adj : AdjMap) (st : GorderState) (ngh : VId) : GorderState :=
  if ngh ∉ adj.keys ∨ ngh ∈ st.visited then st
  else match st.windowNeighborCount ngh with
    | some c => { st with
        windowNeighborCount := Function.update st.windowNeighborCount ngh (some ((c + 1) % 256)) }
    | none => { st with
        windowNeighborCount := Function.update st.windowNeighborCount ngh (some 1)
        activeCandidates := st.activeCandidates.insert ngh }

/-- One neighbour of the seed. -/
def seedNeighbor (adj : AdjMap) (st : GorderState) (ngh : VId) : GorderState :=
  if ngh ∉ adj.keys ∨ ngh ∈ st.visited then st
  else { st with
    windowNeighborCount := Function.update st.windowNeighborCount ngh (some 1)
    activeCandidates := st.activeCandidates.insert ngh }

/-- One neighbour of the vertex that leaves the window. -/
def leaveNeighbor (adj : AdjMap) (st : GorderState) (ngh : VId) : GorderState :=
  if ngh ∉ adj.keys ∨ ngh ∈ st.visited then st
  else match st.windowNeighborCount ngh with
    | none => st
    | some c =>
      if c = 1 then { st with
        windowNeighborCount := Function.update st.windowNeighborCount ngh none
        activeCandidates := st.activeCandidates.filter (· ≠ ngh) }
      else { st with
        windowNeighborCount := Function.update st.windowNeighborCount ngh (some ((c + 255) % 256)) }

/-- Place a vertex: the body of the loop after the choice. -/
def place (adj : AdjMap) (windowSize : Nat) (st : GorderState) (v : VId) : GorderState :=
  let st := { st with
    ordered := st.ordered ++ [v]
    activeCandidates := st.activeCandidates.filter (· ≠ v)
    windowQueue := st.windowQueue ++ [v] }
  let st := (adj.get v).foldl (enterNeighbor adj) st
  if st.windowQueue.length > windowSize then
    match st.windowQueue with
    | [] => st
    | removed :: rest =>
      (adj.get removed).foldl (leaveNeighbor adj) { st with windowQueue := rest }
  else st

/-- The new window of the next component. -/
def clearWindow (st : GorderState) : GorderState :=
  { st with windowQueue := [], windowNeighborCount := fun _ => none, activeCandidates := [] }

/-- The vertex of the next round and the state it is placed in. -/
def choose (cfg : Config) (env : GorderEnv) (adj : AdjMap) (st : GorderState) :
    Option (VId × GorderState) :=
  match st.pickCandidate cfg env adj with
  | some v => some (v, st)
  | none =>
    ((env.keys.order adj.keys).find? fun u => u ∉ st.visited).map fun u => (u, st.clearWindow)

/-- The loop `while (visited.size() < n)`; each round places one vertex. -/
def loop (cfg : Config) (env : GorderEnv) (adj : AdjMap) (windowSize : Nat) :
    Nat → GorderState → List VId
  | 0, st => st.ordered
  | fuel + 1, st =>
    if st.visited.length < adj.keys.length then
      match st.choose cfg env adj with
      | none => st.ordered
      | some (v, st) => loop cfg env adj windowSize fuel (st.place adj windowSize v)
    else st.ordered

end GorderState

/-- The seed: a key of maximal degree, the first such one in iteration order, or the first key
when every list is empty. -/
def gorderSeed (adj : AdjMap) (keys : List VId) : Option VId :=
  let best := keys.foldl (fun (acc : Option VId × Nat) u =>
    if (adj.get u).length > acc.2 then (some u, (adj.get u).length) else acc) (none, 0)
  best.1.or keys.head?

/-- `gorder_reordering_optimized`. -/
def gorderReorderingOptimized (cfg : Config) (env : GorderEnv) (adj : AdjMap)
    (windowSize : Nat) : List VId :=
  match gorderSeed adj (env.keys.order adj.keys) with
  | none => []
  | some seed =>
    let st : GorderState := ⟨[seed], [seed], fun _ => none, []⟩
    let st := (adj.get seed).foldl (GorderState.seedNeighbor adj) st
    st.loop cfg env adj windowSize adj.keys.length

/-! ## Every vertex once -/

namespace GorderState

/-- What every round keeps: placed vertices are distinct keys, candidates are keys not placed
yet. -/
structure Inv (adj : AdjMap) (st : GorderState) : Prop where
  nodup : st.ordered.Nodup
  keys : ∀ v ∈ st.ordered, v ∈ adj.keys
  candidates : ∀ v ∈ st.activeCandidates, v ∈ adj.keys ∧ v ∉ st.ordered

variable {cfg : Config} {env : GorderEnv} {adj : AdjMap} {st : GorderState}

variable {st' : GorderState} {v : VId}

theorem Inv.of_candidates (h : st.Inv adj) (ho : st'.ordered = st.ordered)
    (hc : ∀ v ∈ st'.activeCandidates, v ∈ st.activeCandidates ∨ (v ∈ adj.keys ∧ v ∉ st.ordered)) :
    st'.Inv adj :=
  ⟨ho ▸ h.nodup, fun v hv => h.keys v (ho ▸ hv), fun v hv => by
    rw [ho]
    rcases hc v hv with hm | hm
    · exact h.candidates v hm
    · exact hm⟩

theorem enterNeighbor_ordered (st : GorderState) (ngh : VId) :
    (st.enterNeighbor adj ngh).ordered = st.ordered := by
  unfold enterNeighbor
  split_ifs
  · rfl
  · split <;> rfl

theorem leaveNeighbor_ordered (st : GorderState) (ngh : VId) :
    (st.leaveNeighbor adj ngh).ordered = st.ordered := by
  unfold leaveNeighbor
  split_ifs
  · rfl
  · split
    · rfl
    · split_ifs <;> rfl

theorem Inv.enterNeighbor (h : st.Inv adj) (ngh : VId) : (st.enterNeighbor adj ngh).Inv adj := by
  refine h.of_candidates (enterNeighbor_ordered st ngh) fun v hv => ?_
  unfold GorderState.enterNeighbor at hv
  split_ifs at hv with hskip
  · exact .inl hv
  · obtain ⟨hk, hn⟩ := not_or.1 hskip
    split at hv
    · exact .inl hv
    · rcases mem_insert_iff.1 hv with rfl | hv
      · exact .inr ⟨Decidable.of_not_not hk, hn⟩
      · exact .inl hv

theorem seedNeighbor_ordered (st : GorderState) (ngh : VId) :
    (st.seedNeighbor adj ngh).ordered = st.ordered := by
  unfold seedNeighbor
  split_ifs <;> rfl

theorem Inv.seedNeighbor (h : st.Inv adj) (ngh : VId) : (st.seedNeighbor adj ngh).Inv adj := by
  refine h.of_candidates (seedNeighbor_ordered st ngh) fun v hv => ?_
  unfold GorderState.seedNeighbor at hv
  split_ifs at hv with hskip
  · exact .inl hv
  · obtain ⟨hk, hn⟩ := not_or.1 hskip
    rcases mem_insert_iff.1 hv with rfl | hv
    · exact .inr ⟨Decidable.of_not_not hk, hn⟩
    · exact .inl hv

theorem Inv.leaveNeighbor (h : st.Inv adj) (ngh : VId) : (st.leaveNeighbor adj ngh).Inv adj := by
  refine h.of_candidates (leaveNeighbor_ordered st ngh) fun v hv => .inl ?_
  unfold GorderState.leaveNeighbor at hv
  split_ifs at hv
  · exact hv
  · split at hv
    · exact hv
    · split_ifs at hv
      · exact (mem_filter.1 hv).1
      · exact hv

theorem foldl_inv {f : GorderState → VId → GorderState}
    (hf : ∀ st v, st.Inv adj → (f st v).Inv adj ∧ (f st v).ordered = st.ordered) (l : List VId)
    (h : st.Inv adj) : (l.foldl f st).Inv adj ∧ (l.foldl f st).ordered = st.ordered := by
  induction l generalizing st with
  | nil => exact ⟨h, rfl⟩
  | cons v l ih =>
    obtain ⟨h1, ho⟩ := hf st v h
    obtain ⟨h2, ho2⟩ := ih h1
    exact ⟨h2, ho2.trans ho⟩

/-- Placing a vertex that is a key and not placed yet. -/
theorem Inv.place (h : st.Inv adj) (windowSize : Nat) (hk : v ∈ adj.keys) (hn : v ∉ st.ordered) :
    (st.place adj windowSize v).Inv adj ∧
      (st.place adj windowSize v).ordered = st.ordered ++ [v] := by
  set st1 : GorderState := { st with
    ordered := st.ordered ++ [v]
    activeCandidates := st.activeCandidates.filter (· ≠ v)
    windowQueue := st.windowQueue ++ [v] } with hst1
  have h1 : st1.Inv adj := by
    refine ⟨?_, fun u hu => ?_, fun u hu => ?_⟩
    · have hd : ∀ u ∈ st.ordered, u ≠ v := fun u hu he => hn (he ▸ hu)
      simpa [hst1, nodup_append] using ⟨h.nodup, hd⟩
    · rcases mem_append.1 hu with hu | hu
      · exact h.keys u hu
      · rw [mem_singleton.1 hu]; exact hk
    · obtain ⟨hu1, hu2⟩ := mem_filter.1 hu
      have hne : u ≠ v := by simpa using hu2
      obtain ⟨hk', hn'⟩ := h.candidates u hu1
      refine ⟨hk', fun hm => ?_⟩
      rcases mem_append.1 hm with hm | hm
      · exact hn' hm
      · exact hne (mem_singleton.1 hm)
  obtain ⟨h2, ho2⟩ := foldl_inv (f := GorderState.enterNeighbor adj)
    (fun st v (hi : st.Inv adj) => ⟨hi.enterNeighbor v, enterNeighbor_ordered st v⟩) (adj.get v) h1
  have hplace : st.place adj windowSize v =
      (let st2 := (adj.get v).foldl (GorderState.enterNeighbor adj) st1
       if st2.windowQueue.length > windowSize then
         match st2.windowQueue with
         | [] => st2
         | removed :: rest =>
           (adj.get removed).foldl (GorderState.leaveNeighbor adj) { st2 with windowQueue := rest }
       else st2) := rfl
  rw [hplace]
  simp only
  split_ifs
  · split
    · exact ⟨h2, ho2⟩
    · rename_i removed rest _
      have h3 : ({ (adj.get v).foldl (GorderState.enterNeighbor adj) st1 with
          windowQueue := rest } : GorderState).Inv adj := ⟨h2.nodup, h2.keys, h2.candidates⟩
      obtain ⟨h4, ho4⟩ := foldl_inv (f := GorderState.leaveNeighbor adj)
        (fun st v (hi : st.Inv adj) => ⟨hi.leaveNeighbor v, leaveNeighbor_ordered st v⟩)
        (adj.get removed) h3
      exact ⟨h4, ho4.trans ho2⟩
  · exact ⟨h2, ho2⟩

theorem bestOf_mem {score : VId → Nat} (l : List VId) (best : Option (Nat × VId))
    (h : bestOf score l best = some v) : v ∈ l ∨ ∃ s, best = some (s, v) := by
  induction l generalizing best with
  | nil =>
    obtain ⟨⟨s, b⟩, hb, rfl⟩ := map_eq_some_iff.1 h
    exact .inr ⟨s, hb⟩
  | cons u l ih =>
    cases best with
    | none =>
      rcases ih _ h with hm | ⟨s, hs⟩
      · exact .inl (mem_cons_of_mem _ hm)
      · cases hs
        exact .inl mem_cons_self
    | some b =>
      obtain ⟨s, b⟩ := b
      simp only [bestOf] at h
      split_ifs at h
      · rcases ih _ h with hm | ⟨s', hs⟩
        · exact .inl (mem_cons_of_mem _ hm)
        · cases hs
          exact .inl mem_cons_self
      · rcases ih _ h with hm | hs
        · exact .inl (mem_cons_of_mem _ hm)
        · exact .inr hs

theorem pickCandidate_mem (h : st.pickCandidate cfg env adj = some v) :
    v ∈ st.activeCandidates := by
  rcases bestOf_mem _ none h with hm | ⟨s, hs⟩
  · have h1 := mem_reverse.1 (mem_of_mem_take hm)
    have h2 := (mem_filter.1 h1).1
    exact (env.candidates.perm _).mem_iff.1 h2
  · cases hs

theorem Inv.choose (h : st.Inv adj) (hc : st.choose cfg env adj = some (v, st')) :
    st'.Inv adj ∧ st'.ordered = st.ordered ∧ v ∈ adj.keys ∧ v ∉ st.ordered := by
  unfold GorderState.choose at hc
  split at hc
  · rename_i u hu
    cases hc
    exact ⟨h, rfl, h.candidates _ (pickCandidate_mem hu)⟩
  · obtain ⟨u, hu, he⟩ := map_eq_some_iff.1 hc
    cases he
    refine ⟨⟨h.nodup, h.keys, by simp [clearWindow]⟩, rfl, ?_, ?_⟩
    · exact (env.keys.perm _).mem_iff.1 (mem_of_find?_eq_some hu)
    · have hv := find?_some hu
      exact of_decide_eq_true hv

/-- A round that starts before every vertex is placed finds one. -/
theorem choose_ne_none (hlt : st.ordered.length < adj.keys.length) :
    st.choose cfg env adj ≠ none := by
  unfold GorderState.choose
  split
  · simp
  · intro hc
    have hall := find?_eq_none.1 (map_eq_none_iff.1 hc)
    have hsub : adj.keys ⊆ st.ordered := fun u hu => by
      have hu' := hall u ((env.keys.perm _).mem_iff.2 hu)
      exact Decidable.of_not_not fun hn => hu' (decide_eq_true hn)
    have hle := (adj.keys_nodup.subperm hsub).length_le
    omega

theorem loop_perm (windowSize : Nat) (fuel : Nat) (h : st.Inv adj)
    (hf : adj.keys.length ≤ st.ordered.length + fuel) :
    (st.loop cfg env adj windowSize fuel).Perm adj.keys := by
  have hfull : ∀ st : GorderState, st.Inv adj → adj.keys.length ≤ st.ordered.length →
      st.ordered.Perm adj.keys := fun st h hle =>
    (h.nodup.subperm h.keys).perm_of_length_le hle
  induction fuel generalizing st with
  | zero => exact hfull st h hf
  | succ fuel ih =>
    unfold GorderState.loop
    split_ifs with hlt
    · split
      · rename_i hc
        exact absurd hc (choose_ne_none hlt)
      · rename_i v st' hc
        obtain ⟨h', ho', hk, hn⟩ := h.choose hc
        obtain ⟨h2, ho2⟩ := h'.place windowSize hk (ho' ▸ hn)
        refine ih h2 ?_
        rw [ho2, ho', length_append, length_singleton]
        omega
    · exact hfull st h (Nat.not_lt.1 hlt)

end GorderState

variable {keys : List VId}

theorem gorderSeed_mem {adj : AdjMap} {v : VId} (h : gorderSeed adj keys = some v) : v ∈ keys := by
  have hfold : ∀ (l : List VId) (acc : Option VId × Nat), (∀ u, acc.1 = some u → u ∈ keys) →
      (∀ u ∈ l, u ∈ keys) →
      ∀ u, (l.foldl (fun (acc : Option VId × Nat) u =>
        if (adj.get u).length > acc.2 then (some u, (adj.get u).length) else acc) acc).1 = some u →
        u ∈ keys := by
    intro l
    induction l with
    | nil => intro acc ha _ u hu; exact ha u hu
    | cons w l ih =>
      intro acc ha hl u hu
      refine ih _ ?_ (fun x hx => hl x (mem_cons_of_mem _ hx)) u hu
      intro x hx
      simp only at hx
      split_ifs at hx
      · cases hx; exact hl _ mem_cons_self
      · exact ha x hx
  unfold gorderSeed at h
  rcases or_eq_some_iff.1 h with h | ⟨-, h⟩
  · exact hfold keys (none, 0) (by simp) (fun _ hu => hu) v h
  · exact mem_of_mem_head? h

theorem gorderSeed_eq_none {adj : AdjMap} (h : gorderSeed adj keys = none) : keys = [] := by
  unfold gorderSeed at h
  exact head?_eq_none_iff.1 (or_eq_none_iff.1 h).2

/-- The reordering is a permutation of the vertices. -/
theorem gorder_perm (cfg : Config) (env : GorderEnv) (adj : AdjMap) (windowSize : Nat) :
    (gorderReorderingOptimized cfg env adj windowSize).Perm adj.keys := by
  unfold gorderReorderingOptimized
  split
  · rename_i hs
    have hnil := gorderSeed_eq_none hs
    have hp := env.keys.perm adj.keys
    rw [hnil] at hp
    exact hp
  · rename_i seed hs
    have hseed : seed ∈ adj.keys := (env.keys.perm _).mem_iff.1 (gorderSeed_mem hs)
    have h0 : (⟨[seed], [seed], fun _ => none, []⟩ : GorderState).Inv adj :=
      ⟨by simp, by simpa using hseed, by simp⟩
    obtain ⟨h1, ho1⟩ := GorderState.foldl_inv (f := GorderState.seedNeighbor adj)
      (fun st v (hi : st.Inv adj) => ⟨hi.seedNeighbor v, GorderState.seedNeighbor_ordered st v⟩)
      (adj.get seed) h0
    exact GorderState.loop_perm windowSize _ h1 (by rw [ho1]; simp)

end BwGraph
