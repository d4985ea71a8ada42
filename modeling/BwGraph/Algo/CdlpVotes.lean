import BwGraph.Lib.ProbeTable
import BwGraph.Algo.EdgeMap
import BwGraph.Algo.Cdlp

/-
  `parallel_cdlp_map`. The votes of an iteration go along all edges, in parallel, into the 16 slots
  of the destination (`cdlp_vote_functor_t`); each atomic access is a step. After the votes every
  vertex takes the label with the most of them (`cdlp_commit_functor_t`), or keeps its own when its
  overflow flag is set, and the slots are emptied. A task goes through the edges of one page, or of
  the giant vertices; that these come last only restricts the order. The copy of the slots that the
  commit reads is made after the last vote.

  The slots of a vertex are a `ProbeTable`. `VotesOk` says which votes are still on the way: those
  of the edges that are left and of the calls that are running; all others are in the table.
-/

namespace BwGraph

open Function List ForkJoin

/-- `kEmptyVoteKey`. -/
def emptyVoteKey : VId := uint32Max

/-- `kCdlpInitSlots`. -/
abbrev cdlpInitSlots : Nat := 16

/-- The index of a slot, of type `uint32_t`. -/
def slotIdx (dst : VId) (probe : Fin cdlpInitSlots) : Nat := (dst * cdlpInitSlots + probe) % 2 ^ 32

/-- The arrays of `parallel_cdlp_map`, and the locals of its loop. -/
structure CdlpMem where
  currentLabels : VId → VId
  nextLabels : VId → VId
  slotKeys : Nat → VId
  slotCounts : Nat → Nat
  overflow : VId → Bool
  iteration : Nat
  changed : Nat

/-- Where a call of `cdlp_vote_functor_t` stands: the access that is next. -/
inductive VoteCall where
  | loadOverflow (src dst : VId)
  | loadLabel (src dst : VId)
  | loadKey (label dst : VId) (probe : Fin cdlpInitSlots)
  | compareExchange (label dst : VId) (probe : Fin cdlpInitSlots)
  | reloadKey (label dst : VId) (probe : Fin cdlpInitSlots)
  | addCount (label dst : VId) (probe : Fin cdlpInitSlots)
  | setOverflow (label dst : VId)

/-- The next probe, or the end of the loop. -/
def nextProbe (label dst : VId) (probe : Fin cdlpInitSlots) : VoteCall :=
  if h : (probe : Nat) + 1 < cdlpInitSlots then .loadKey label dst ⟨probe + 1, h⟩
  else .setOverflow label dst

/-- `update_atomic`, one access. -/
def cdlpVoteNext (m : CdlpMem) : VoteCall → CdlpMem × (VoteCall ⊕ Bool)
  | .loadOverflow src dst =>
    if m.overflow dst then (m, .inr false) else (m, .inl (.loadLabel src dst))
  | .loadLabel src dst => (m, .inl (.loadKey (m.currentLabels src) dst 0))
  | .loadKey label dst probe =>
    let cur := m.slotKeys (slotIdx dst probe)
    if cur = label then (m, .inl (.addCount label dst probe))
    else if cur = emptyVoteKey then (m, .inl (.compareExchange label dst probe))
    else (m, .inl (nextProbe label dst probe))
  | .compareExchange label dst probe =>
    if m.slotKeys (slotIdx dst probe) = emptyVoteKey then
      ({ m with slotKeys := Function.update m.slotKeys (slotIdx dst probe) label },
        .inl (.addCount label dst probe))
    else (m, .inl (.reloadKey label dst probe))
  | .reloadKey label dst probe =>
    if m.slotKeys (slotIdx dst probe) = label then (m, .inl (.addCount label dst probe))
    else (m, .inl (nextProbe label dst probe))
  | .addCount _ dst probe =>
    let idx := slotIdx dst probe
    ({ m with slotCounts := Function.update m.slotCounts idx ((m.slotCounts idx + 1) % 2 ^ 32) },
      .inr true)
  | .setOverflow _ dst => ({ m with overflow := Function.update m.overflow dst true }, .inr false)

/-- `cdlp_vote_functor_t`. -/
def cdlpVoteFunctor : EdgeFunctor CdlpMem VoteCall where
  cond _ _ := true
  start := .loadOverflow
  next := cdlpVoteNext

/-- One slot in the loop of `cdlp_commit_functor_t`. -/
def commitSlot (m : CdlpMem) (v : VId) (best : VId × Nat) (i : Fin cdlpInitSlots) : VId × Nat :=
  if m.slotKeys (slotIdx v i) = emptyVoteKey then best
  else if m.slotCounts (slotIdx v i) > best.2 ∨
      m.slotCounts (slotIdx v i) = best.2 ∧ m.slotKeys (slotIdx v i) < best.1 then
    (m.slotKeys (slotIdx v i), m.slotCounts (slotIdx v i))
  else best

/-- The label that `cdlp_commit_functor_t` stores. -/
def commitLabel (m : CdlpMem) (v : VId) : VId :=
  if m.overflow v then m.currentLabels v
  else ((List.finRange cdlpInitSlots).foldl (commitSlot m v) (m.currentLabels v, 0)).1

/-- `cdlp_commit_functor_t`. -/
def commitVertex (m : CdlpMem) (v : VId) : CdlpMem :=
  { m with nextLabels := Function.update m.nextLabels v (commitLabel m v) }

/-- One slot in the loop of `cdlp_reset_functor_t`. -/
def resetSlot (v : VId) (m : CdlpMem) (i : Fin cdlpInitSlots) : CdlpMem :=
  { m with
    slotKeys := Function.update m.slotKeys (slotIdx v i) emptyVoteKey
    slotCounts := Function.update m.slotCounts (slotIdx v i) 0 }

/-- `cdlp_reset_functor_t`. -/
def resetVertex (m : CdlpMem) (v : VId) : CdlpMem :=
  let m := (List.finRange cdlpInitSlots).foldl (resetSlot v) m
  { m with overflow := Function.update m.overflow v false }

/-- The end of an iteration, after its votes. -/
def endIteration (n : Nat) (m : CdlpMem) : CdlpMem :=
  let m := (List.range n).foldl commitVertex m
  let changed := ((List.range n).filter fun v => m.currentLabels v ≠ m.nextLabels v).length
  let m := (List.range n).foldl resetVertex m
  { m with
    currentLabels := m.nextLabels
    nextLabels := m.currentLabels
    iteration := m.iteration + 1
    changed := changed }

/-- The loop of `parallel_cdlp_map`, over the edges of the tasks of an edge map. -/
def parallelCdlpMap (n : Nat) (edgeLists : List (List (VId × VId))) (maxIterations : Nat) :
    ForkJoin CdlpMem (EdgeTask VoteCall) where
  fork m :=
    if m.iteration < maxIterations ∧ m.changed > 0 then
      some (m, edgeLists.map fun edges => ⟨edges, none⟩)
    else none
  next := edgeMapNoOutputNext cdlpVoteFunctor
  join m _ := endIteration n m

/-- The memory before the loop, with any labels. -/
def cdlpStart (n : Nat) (labels : VId → VId) : CdlpMem where
  currentLabels := labels
  nextLabels := labels
  slotKeys _ := emptyVoteKey
  slotCounts _ := 0
  overflow _ := false
  iteration := 0
  changed := n

/-! ## The slots of a vertex -/

/-- The slots of a vertex. -/
def CdlpMem.table (m : CdlpMem) (v : VId) : ProbeTable VId cdlpInitSlots :=
  ⟨fun p => m.slotKeys (slotIdx v p), fun p => m.slotCounts (slotIdx v p), m.overflow v⟩

section Slots

variable {n : Nat} (hn : n * cdlpInitSlots ≤ 2 ^ 32)

include hn

/-- The vertices have different slots. -/
theorem slotIdx_inj {v w : Nat} (hv : v < n) (hw : w < n) {p q : Fin cdlpInitSlots}
    (h : slotIdx v p = slotIdx w q) : v = w ∧ p = q := by
  have hp : (p : Nat) < 16 := p.isLt
  have hq : (q : Nat) < 16 := q.isLt
  have hn : n * 16 ≤ 2 ^ 32 := hn
  have h : (v * 16 + p) % 2 ^ 32 = (w * 16 + q) % 2 ^ 32 := h
  rw [Nat.mod_eq_of_lt (by omega), Nat.mod_eq_of_lt (by omega)] at h
  exact ⟨by omega, Fin.ext (by omega)⟩

variable (m : CdlpMem) {dst v : VId} (hdst : dst < n) (hv : v < n) (p : Fin cdlpInitSlots)

include hdst hv

theorem table_claim (label : VId) :
    ({ m with slotKeys := update m.slotKeys (slotIdx dst p) label } : CdlpMem).table v =
      if v = dst then (m.table v).claim p label else m.table v := by
  split_ifs with h
  · subst h
    refine congrArg (ProbeTable.mk · _ _) (funext fun q => ?_)
    by_cases hq : q = p
    · subst hq
      simp
    · have hne : slotIdx v q ≠ slotIdx v p := fun heq => hq (slotIdx_inj hn hv hv heq).2
      simp [hq, hne, CdlpMem.table]
  · refine congrArg (ProbeTable.mk · _ _) (funext fun q => ?_)
    have hne : slotIdx v q ≠ slotIdx dst p := fun heq => h (slotIdx_inj hn hv hdst heq).1
    simp [hne]

theorem table_add :
    ({ m with
        slotCounts := update m.slotCounts (slotIdx dst p)
          ((m.slotCounts (slotIdx dst p) + 1) % 2 ^ 32) } : CdlpMem).table v =
      if v = dst then (m.table v).add (2 ^ 32) p else m.table v := by
  split_ifs with h
  · subst h
    refine congrArg (ProbeTable.mk _ · _) (funext fun q => ?_)
    by_cases hq : q = p
    · subst hq
      simp [CdlpMem.table]
    · have hne : slotIdx v q ≠ slotIdx v p := fun heq => hq (slotIdx_inj hn hv hv heq).2
      simp [hq, hne, CdlpMem.table]
  · refine congrArg (ProbeTable.mk _ · _) (funext fun q => ?_)
    have hne : slotIdx v q ≠ slotIdx dst p := fun heq => h (slotIdx_inj hn hv hdst heq).1
    simp [hne]

end Slots

theorem table_overflown (m : CdlpMem) (dst v : VId) :
    ({ m with overflow := update m.overflow dst true } : CdlpMem).table v =
      if v = dst then (m.table v).overflown else m.table v := by
  split_ifs with h
  · subst h
    simp [CdlpMem.table, ProbeTable.overflown]
  · simp [CdlpMem.table, h]

/-! ## The steps of a call -/

/-- The destination of a vote and its label. -/
def VoteCall.vote (labels : VId → VId) : VoteCall → VId × VId
  | .loadOverflow src dst | .loadLabel src dst => (dst, labels src)
  | .loadKey label dst _ | .compareExchange label dst _ | .reloadKey label dst _
  | .addCount label dst _ | .setOverflow label dst => (dst, label)

/-- What a call knows of the slots. -/
def VoteCall.Ok (m : CdlpMem) : VoteCall → Prop
  | .loadOverflow _ _ | .loadLabel _ _ => True
  | .loadKey label dst p | .compareExchange label dst p =>
    (m.table dst).Passed emptyVoteKey p label
  | .reloadKey label dst p =>
    (m.table dst).Passed emptyVoteKey p label ∧ (m.table dst).keys p ≠ emptyVoteKey
  | .addCount label dst p => label ≠ emptyVoteKey ∧ (m.table dst).keys p = label
  | .setOverflow label dst => (m.table dst).Passed emptyVoteKey cdlpInitSlots label

theorem VoteCall.Ok.grows {m m' : CdlpMem} {labels : VId → VId} {c : VoteCall} (h : c.Ok m)
    (hgrow : (m.table (c.vote labels).1).Grows emptyVoteKey (m'.table (c.vote labels).1)) :
    c.Ok m' := by
  cases c with
  | loadOverflow src dst => trivial
  | loadLabel src dst => trivial
  | loadKey label dst p => exact ProbeTable.Passed.grows h hgrow
  | compareExchange label dst p => exact ProbeTable.Passed.grows h hgrow
  | reloadKey label dst p =>
    have hkey : (m'.table dst).keys p = (m.table dst).keys p := hgrow p h.2
    exact ⟨h.1.grows hgrow, hkey ▸ h.2⟩
  | addCount label dst p => exact ⟨h.1, (hgrow p (h.2 ▸ h.1)).trans h.2⟩
  | setOverflow label dst => exact ProbeTable.Passed.grows h hgrow

theorem nextProbe_vote (labels : VId → VId) (label dst : VId) (p : Fin cdlpInitSlots) :
    (nextProbe label dst p).vote labels = (dst, label) := by
  unfold nextProbe
  split_ifs <;> rfl

/-- After a slot with another key the next one is looked at. -/
theorem nextProbe_ok {m : CdlpMem} {label dst : VId} {p : Fin cdlpInitSlots}
    (h : (m.table dst).Passed emptyVoteKey p label) (hp : (m.table dst).keys p ≠ emptyVoteKey)
    (hl : (m.table dst).keys p ≠ label) : (nextProbe label dst p).Ok m := by
  unfold nextProbe
  split_ifs with hlast
  · exact h.succ hp hl
  · exact fun j _ => h.succ hp hl j (by omega)

/-- All tables are in order, with `all v` as the votes for `v` and `done v` of them done. -/
def TablesOk (n : Nat) (all : VId → List VId) (done : VId → VId → Nat) (m : CdlpMem) : Prop :=
  ∀ v, v < n → (m.table v).Ok emptyVoteKey (2 ^ 32) (all v) (done v)

section Calls

variable {n : Nat} {all : VId → List VId} {done : VId → VId → Nat} {m m' : CdlpMem} {c : VoteCall}

/-- A step within a call changes the slots of its destination only, where it may claim one. -/
theorem cdlpVoteNext_inner (hn : n * cdlpInitSlots ≤ 2 ^ 32) {c' : VoteCall}
    (htab : TablesOk n all done m) (hempty : ∀ v, v < n → ∀ a ∈ all v, a ≠ emptyVoteKey)
    (hdst : (c.vote m.currentLabels).1 < n)
    (hmem : (c.vote m.currentLabels).2 ∈ all (c.vote m.currentLabels).1) (hc : c.Ok m)
    (h : cdlpVoteNext m c = (m', .inl c')) :
    m'.currentLabels = m.currentLabels ∧ m'.iteration = m.iteration ∧
      c'.vote m.currentLabels = c.vote m.currentLabels ∧ TablesOk n all done m' ∧ c'.Ok m' ∧
      ∀ v, v < n → (m.table v).Grows emptyVoteKey (m'.table v) := by
  cases c with
  | loadOverflow src dst =>
    simp only [cdlpVoteNext] at h
    split_ifs at h
    · cases h
    · cases h
      exact ⟨rfl, rfl, rfl, htab, trivial, fun _ _ _ _ => rfl⟩
  | loadLabel src dst =>
    cases h
    exact ⟨rfl, rfl, rfl, htab, fun j hj => absurd hj (Nat.not_lt_zero _), fun _ _ _ _ => rfl⟩
  | loadKey label dst p =>
    simp only [cdlpVoteNext] at h
    split_ifs at h with hkey hfree
    · cases h
      exact ⟨rfl, rfl, rfl, htab, ⟨hempty dst hdst label hmem, hkey⟩, fun _ _ _ _ => rfl⟩
    · cases h
      exact ⟨rfl, rfl, rfl, htab, hc, fun _ _ _ _ => rfl⟩
    · cases h
      exact ⟨rfl, rfl, nextProbe_vote .., htab, nextProbe_ok hc hfree hkey, fun _ _ _ _ => rfl⟩
  | compareExchange label dst p =>
    simp only [cdlpVoteNext] at h
    split_ifs at h with hfree
    · cases h
      have hne := hempty dst hdst label hmem
      have hdst : dst < n := hdst
      have htable := fun (v : VId) (hv : v < n) => table_claim hn m hdst hv p label
      refine ⟨rfl, rfl, rfl, fun v hv => ?_, ⟨hne, ?_⟩, fun v hv => ?_⟩
      · rw [htable v hv]
        split_ifs with heq
        · subst heq
          exact (htab v hv).claim hne hmem hfree hc
        · exact htab v hv
      · rw [htable dst hdst, if_pos rfl]
        exact update_self ..
      · rw [htable v hv]
        split_ifs with heq
        · subst heq
          exact ProbeTable.grows_claim hfree
        · exact fun _ _ => rfl
    · cases h
      exact ⟨rfl, rfl, rfl, htab, ⟨hc, hfree⟩, fun _ _ _ _ => rfl⟩
  | reloadKey label dst p =>
    simp only [cdlpVoteNext] at h
    split_ifs at h with hkey
    · cases h
      exact ⟨rfl, rfl, rfl, htab, ⟨hempty dst hdst label hmem, hkey⟩, fun _ _ _ _ => rfl⟩
    · cases h
      exact ⟨rfl, rfl, nextProbe_vote .., htab, nextProbe_ok hc.1 hc.2 hkey, fun _ _ _ _ => rfl⟩
  | addCount label dst p => cases h
  | setOverflow label dst => cases h

/-- One more vote is done. -/
def addDone (done : VId → VId → Nat) (x : VId × VId) (v l : VId) : Nat :=
  done v l + if x = (v, l) then 1 else 0

theorem addDone_self (done : VId → VId → Nat) (v l : VId) :
    addDone done (v, l) v = update (done v) l (done v l + 1) := by
  funext a
  by_cases ha : a = l
  · subst ha
    simp [addDone]
  · have hne : ¬ (v, l) = (v, a) := fun h => ha (Prod.ext_iff.1 h).2.symm
    simp [addDone, ha, hne]

theorem addDone_of_ne (done : VId → VId → Nat) {x : VId × VId} {v : VId} (h : v ≠ x.1) :
    addDone done x v = done v := by
  funext l
  have hne : ¬ x = (v, l) := fun heq => h (congrArg Prod.fst heq).symm
  simp [addDone, hne]

/-- When a call returns, its vote is done. -/
theorem cdlpVoteNext_ret (hn : n * cdlpInitSlots ≤ 2 ^ 32) {b : Bool}
    (htab : TablesOk n all done m) (hdst : (c.vote m.currentLabels).1 < n)
    (hmem : (c.vote m.currentLabels).2 ∈ all (c.vote m.currentLabels).1) (hc : c.Ok m)
    (h : cdlpVoteNext m c = (m', .inr b)) :
    m'.currentLabels = m.currentLabels ∧ m'.iteration = m.iteration ∧
      TablesOk n all (addDone done (c.vote m.currentLabels)) m' ∧
      ∀ v, v < n → (m.table v).Grows emptyVoteKey (m'.table v) := by
  have hother : ∀ {x : VId × VId} {v : VId}, v < n → v ≠ x.1 →
      (m.table v).Ok emptyVoteKey (2 ^ 32) (all v) (addDone done x v) := by
    intro x v hv hne
    rw [addDone_of_ne done hne]
    exact htab v hv
  cases c with
  | loadOverflow src dst =>
    simp only [cdlpVoteNext] at h
    split_ifs at h with hflag
    · cases h
      refine ⟨rfl, rfl, fun v hv => ?_, fun _ _ _ _ => rfl⟩
      by_cases heq : v = dst
      · subst heq
        exact (htab v hv).drop hflag _
      · exact hother hv heq
    · cases h
  | loadLabel src dst => cases h
  | loadKey label dst p =>
    simp only [cdlpVoteNext] at h
    split_ifs at h <;> cases h
  | compareExchange label dst p =>
    simp only [cdlpVoteNext] at h
    split_ifs at h <;> cases h
  | reloadKey label dst p =>
    simp only [cdlpVoteNext] at h
    split_ifs at h <;> cases h
  | addCount label dst p =>
    cases h
    have hdst : dst < n := hdst
    have htable := fun (v : VId) (hv : v < n) => table_add hn m hdst hv p
    refine ⟨rfl, rfl, fun v hv => ?_, fun v hv => ?_⟩
    · rw [htable v hv]
      split_ifs with heq
      · subst heq
        have hadd : addDone done (v, label) v = _ := addDone_self done v label
        rw [show (VoteCall.addCount label v p).vote m.currentLabels = (v, label) from rfl, hadd]
        exact (htab v hv).add hc.1 hc.2
      · exact hother hv heq
    · rw [htable v hv]
      split_ifs
      · exact fun _ _ => rfl
      · exact fun _ _ => rfl
  | setOverflow label dst =>
    cases h
    refine ⟨rfl, rfl, fun v hv => ?_, fun v hv => ?_⟩
    · rw [table_overflown]
      split_ifs with heq
      · subst heq
        exact (htab v hv).overflown hmem hc _
      · exact hother hv heq
    · rw [table_overflown]
      split_ifs
      · exact fun _ _ => rfl
      · exact fun _ _ => rfl

end Calls

/-! ## The votes of an iteration -/

/-- The votes for `v` along the edges. -/
def inVotes (edges : List (VId × VId)) (labels : VId → VId) (v : VId) : List VId :=
  (edges.filter fun e => e.2 = v).map fun e => labels e.1

/-- The votes of a task that are not done, with their destinations. -/
def EdgeTask.votes (labels : VId → VId) (t : EdgeTask VoteCall) : List (VId × VId) :=
  (t.call.map (VoteCall.vote labels)).toList ++ t.edges.map fun e => (e.2, labels e.1)

/-- How often a vote is still on the way. -/
def pendingVotes (labels : VId → VId) (ts : List (EdgeTask VoteCall)) (v l : VId) : Nat :=
  (ts.map fun t => (t.votes labels).count (v, l)).sum

theorem count_inVotes (edges : List (VId × VId)) (labels : VId → VId) (v l : VId) :
    (inVotes edges labels v).count l = (edges.map fun e => (e.2, labels e.1)).count (v, l) := by
  induction edges with
  | nil => rfl
  | cons e edges ih =>
    unfold inVotes at ih ⊢
    by_cases hv : e.2 = v
    · rw [filter_cons_of_pos (by simpa using hv)]
      simp only [map_cons, count_cons, ih]
      simp [hv]
    · rw [filter_cons_of_neg (by simpa using hv), ih, map_cons,
        count_cons_of_ne fun h => hv (Prod.ext_iff.1 h).1]

/-- Before the iteration all votes are on the way. -/
theorem pendingVotes_start (edgeLists : List (List (VId × VId))) (labels : VId → VId) (v l : VId) :
    pendingVotes labels (edgeLists.map fun edges => ⟨edges, none⟩) v l =
      (inVotes edgeLists.flatten labels v).count l := by
  rw [count_inVotes, map_flatten, count_flatten, map_map, pendingVotes,
    map_map]
  rfl

/-- In an iteration that has started with the memory `m₁`: the calls that are running know their
slots, and the votes that are not on the way are in the tables. -/
structure VotesOk (edges : List (VId × VId)) (n : Nat) (m₁ m : CdlpMem)
    (ts : List (EdgeTask VoteCall)) : Prop where
  currentLabels : m.currentLabels = m₁.currentLabels
  iteration : m.iteration = m₁.iteration
  calls : ∀ t ∈ ts, ∀ c, t.call = some c → c.Ok m
  pending : ∀ v l, pendingVotes m₁.currentLabels ts v l ≤
    (inVotes edges m₁.currentLabels v).count l
  tables : TablesOk n (inVotes edges m₁.currentLabels) (fun v l =>
    (inVotes edges m₁.currentLabels v).count l - pendingVotes m₁.currentLabels ts v l) m

/-- What holds at the head of the loop: all slots are free, and the labels are vertices. -/
structure CdlpHead (n : Nat) (m : CdlpMem) : Prop where
  keys : ∀ v, v < n → ∀ p, (m.table v).keys p = emptyVoteKey
  counts : ∀ v, v < n → ∀ p, (m.table v).counts p = 0
  overflow : ∀ v, v < n → m.overflow v = false
  labels : ∀ v, v < n → m.currentLabels v < n

section Iteration

variable {n : Nat} {edges : List (VId × VId)} {m₁ m m' : CdlpMem} {ts : List (EdgeTask VoteCall)}

theorem CdlpHead.votesOk (h : CdlpHead n m) (edgeLists : List (List (VId × VId))) :
    VotesOk edgeLists.flatten n m m (edgeLists.map fun edges => ⟨edges, none⟩) where
  currentLabels := rfl
  iteration := rfl
  calls t ht c hc := by
    obtain ⟨edges, -, rfl⟩ := mem_map.1 ht
    cases hc
  pending v l := (pendingVotes_start edgeLists m.currentLabels v l).le
  tables v hv := by
    refine ProbeTable.ok_free (h.keys v hv) (h.counts v hv) (h.overflow v hv) fun l => ?_
    simp only [pendingVotes_start, Nat.sub_self]

variable {x : VId × VId}

/-- A vote that is on the way is one along an edge. -/
theorem VotesOk.vote_mem (h : VotesOk edges n m₁ m ts) {t : EdgeTask VoteCall} (ht : t ∈ ts)
    (hx : x ∈ t.votes m₁.currentLabels) : x.2 ∈ inVotes edges m₁.currentLabels x.1 := by
  refine count_pos_iff.1 (lt_of_lt_of_le ?_ (h.pending x.1 x.2))
  refine lt_of_lt_of_le (count_pos_iff.2 hx) ?_
  exact single_le_sum (fun _ _ => Nat.zero_le _) _ (mem_map_of_mem ht)

theorem mem_inVotes {labels : VId → VId} {v l : VId} :
    l ∈ inVotes edges labels v ↔ ∃ u, (u, v) ∈ edges ∧ labels u = l := by
  unfold inVotes
  rw [mem_map]
  constructor
  · rintro ⟨e, he, rfl⟩
    obtain ⟨hmem, hv⟩ := mem_filter.1 he
    exact ⟨e.1, by simpa [← of_decide_eq_true hv] using hmem, rfl⟩
  · rintro ⟨u, hu, rfl⟩
    exact ⟨(u, v), mem_filter.2 ⟨hu, by simp⟩, rfl⟩

variable {i : Nat}

/-- The running calls of all tasks still know their slots when a table has grown. -/
theorem VotesOk.calls_set (h : VotesOk edges n m₁ m ts) {t' : EdgeTask VoteCall}
    (hedges : ∀ e ∈ edges, e.1 < n ∧ e.2 < n) (ht' : ∀ c, t'.call = some c → c.Ok m')
    (hgrow : ∀ v, v < n → (m.table v).Grows emptyVoteKey (m'.table v)) :
    ∀ u ∈ ts.set i t', ∀ c, u.call = some c → c.Ok m' := by
  intro u hu c hc
  rcases mem_or_eq_of_mem_set hu with hu | rfl
  · have hx : c.vote m₁.currentLabels ∈ u.votes m₁.currentLabels :=
      mem_append_left _ (by simp [hc])
    obtain ⟨w, hw, -⟩ := mem_inVotes.1 (h.vote_mem hu hx)
    exact (h.calls u hu c hc).grows (hgrow _ (hedges _ hw).2)
  · exact ht' c hc

variable {t t' : EdgeTask VoteCall}

section

variable (h : VotesOk edges n m₁ m ts) (ht : ts[i]? = some t)
  (hedges : ∀ e ∈ edges, e.1 < n ∧ e.2 < n)
include h ht hedges

/-- A step that leaves the votes of the task as they are. -/
theorem VotesOk.of_same (hvotes : t'.votes m₁.currentLabels = t.votes m₁.currentLabels)
    (hlabels : m'.currentLabels = m.currentLabels) (hiter : m'.iteration = m.iteration)
    (ht' : ∀ c, t'.call = some c → c.Ok m')
    (hgrow : ∀ v, v < n → (m.table v).Grows emptyVoteKey (m'.table v))
    (htab : TablesOk n (inVotes edges m₁.currentLabels) (fun v l =>
      (inVotes edges m₁.currentLabels v).count l - pendingVotes m₁.currentLabels ts v l) m') :
    VotesOk edges n m₁ m' (ts.set i t') := by
  have hpending : pendingVotes m₁.currentLabels (ts.set i t') =
      pendingVotes m₁.currentLabels ts := by
    funext v l
    unfold pendingVotes
    rw [map_set_eq ht (by rw [hvotes])]
  refine ⟨hlabels.trans h.currentLabels, hiter.trans h.iteration, h.calls_set hedges ht' hgrow,
    ?_, ?_⟩
  · rw [hpending]
    exact h.pending
  · rw [hpending]
    exact htab

/-- A vote is done. -/
theorem VotesOk.of_done (hvotes : t.votes m₁.currentLabels = x :: t'.votes m₁.currentLabels)
    (hlabels : m'.currentLabels = m.currentLabels) (hiter : m'.iteration = m.iteration)
    (ht' : t'.call = none) (hgrow : ∀ v, v < n → (m.table v).Grows emptyVoteKey (m'.table v))
    (htab : TablesOk n (inVotes edges m₁.currentLabels) (addDone (fun v l =>
      (inVotes edges m₁.currentLabels v).count l - pendingVotes m₁.currentLabels ts v l) x) m') :
    VotesOk edges n m₁ m' (ts.set i t') := by
  have hpending : ∀ v l, pendingVotes m₁.currentLabels (ts.set i t') v l +
      (if x = (v, l) then 1 else 0) = pendingVotes m₁.currentLabels ts v l := by
    intro v l
    have hsum := sum_map_set t' ht fun t => (t.votes m₁.currentLabels).count (v, l)
    have hcons : (t.votes m₁.currentLabels).count (v, l) =
        (t'.votes m₁.currentLabels).count (v, l) + if x = (v, l) then 1 else 0 := by
      rw [hvotes, count_cons]
      simp
    unfold pendingVotes
    omega
  refine ⟨hlabels.trans h.currentLabels, hiter.trans h.iteration,
    h.calls_set hedges (fun c hc => ?_) hgrow, fun v l => ?_, fun v hv => ?_⟩
  · rw [ht'] at hc
    cases hc
  · have := h.pending v l
    have := hpending v l
    omega
  · have hdone : addDone (fun v l => (inVotes edges m₁.currentLabels v).count l -
        pendingVotes m₁.currentLabels ts v l) x v = fun l =>
        (inVotes edges m₁.currentLabels v).count l -
          pendingVotes m₁.currentLabels (ts.set i t') v l := by
      funext l
      have := h.pending v l
      have := hpending v l
      simp only [addDone]
      omega
    have hv' := htab v hv
    rw [hdone] at hv'
    exact hv'

end

/-- Every step of a task keeps the votes in order. -/
theorem VotesOk.next (hn : n * cdlpInitSlots ≤ 2 ^ 32) (hhead : CdlpHead n m₁)
    (hedges : ∀ e ∈ edges, e.1 < n ∧ e.2 < n) (h : VotesOk edges n m₁ m ts) (ht : ts[i]? = some t)
    (hnext : edgeMapNoOutputNext cdlpVoteFunctor m t = some (m', t')) :
    VotesOk edges n m₁ m' (ts.set i t') := by
  obtain ⟨todo, call⟩ := t
  have htmem := mem_of_getElem? ht
  cases call with
  | none =>
    cases todo with
    | nil => cases hnext
    | cons e todo =>
      cases hnext
      exact h.of_same ht hedges rfl rfl rfl (fun c hc => by cases hc; trivial)
        (fun _ _ _ _ => rfl) h.tables
  | some c =>
    have hlabels := h.currentLabels
    have hx : c.vote m₁.currentLabels ∈
        (⟨todo, some c⟩ : EdgeTask VoteCall).votes m₁.currentLabels := mem_cons_self
    have hmem := h.vote_mem htmem hx
    obtain ⟨w, hw, -⟩ := mem_inVotes.1 hmem
    have hdst := (hedges _ hw).2
    -- labels are vertices, so no label is the empty key
    have hempty : ∀ v, v < n → ∀ a ∈ inVotes edges m₁.currentLabels v, a ≠ emptyVoteKey := by
      intro v _ a ha
      obtain ⟨u, hu, rfl⟩ := mem_inVotes.1 ha
      have hlt : m₁.currentLabels u < n := hhead.labels u (hedges _ hu).1
      have hn : n * 16 ≤ 2 ^ 32 := hn
      refine Nat.ne_of_lt (lt_of_lt_of_le hlt ?_)
      unfold emptyVoteKey uint32Max
      omega
    have hc := h.calls _ htmem c rfl
    simp only [edgeMapNoOutputNext] at hnext
    rw [← hlabels] at hmem hdst
    rcases hcall : cdlpVoteFunctor.next m c with ⟨m2, c' | b⟩
    · obtain ⟨h1, h2, h3, h4, h5, h6⟩ := cdlpVoteNext_inner hn (hlabels ▸ h.tables)
        (hlabels ▸ hempty) hdst hmem hc hcall
      simp only [hcall] at hnext
      cases hnext
      refine h.of_same ht hedges ?_ h1 h2 (fun d hd => by cases hd; exact h5) h6 (hlabels ▸ h4)
      rw [← hlabels]
      simp [EdgeTask.votes, h3]
    · obtain ⟨h1, h2, h3, h4⟩ := cdlpVoteNext_ret hn (hlabels ▸ h.tables) hdst hmem hc hcall
      simp only [hcall] at hnext
      cases hnext
      exact h.of_done ht hedges rfl h1 h2 rfl h4 (hlabels ▸ h3)

/-- When all tasks are finished, all votes are in the tables. -/
theorem VotesOk.finished (h : VotesOk edges n m₁ m ts)
    (hfin : ∀ t ∈ ts, edgeMapNoOutputNext cdlpVoteFunctor m t = none) :
    TablesOk n (inVotes edges m₁.currentLabels)
      (fun v => (inVotes edges m₁.currentLabels v).count) m := by
  have hpending : ∀ v l, pendingVotes m₁.currentLabels ts v l = 0 := by
    intro v l
    refine sum_eq_zero fun x hx => ?_
    obtain ⟨t, ht, rfl⟩ := mem_map.1 hx
    rw [edgeMapNoOutputNext_eq_none (hfin t ht)]
    rfl
  intro v hv
  have htab := h.tables v hv
  simp only [hpending, Nat.sub_zero] at htab
  exact htab

end Iteration

/-! ## The end of an iteration -/

theorem foldl_commitVertex (vs : List VId) (m : CdlpMem) :
    ∃ next, vs.foldl commitVertex m = { m with nextLabels := next } ∧
      ∀ v ∈ vs, next v = commitLabel m v := by
  induction vs using reverseRecOn with
  | nil => exact ⟨m.nextLabels, rfl, fun v hv => nomatch hv⟩
  | append_singleton vs u ih =>
    obtain ⟨next, heq, hnext⟩ := ih
    rw [foldl_append, foldl_cons, foldl_nil, heq]
    refine ⟨update next u (commitLabel m u), rfl, fun v hv => ?_⟩
    by_cases hu : v = u
    · subst hu
      exact update_self ..
    · rw [update_of_ne hu]
      exact hnext v ((mem_append.1 hv).resolve_right (by simpa using hu))

/-- A slot is free. -/
def CdlpMem.Free (m : CdlpMem) (idx : Nat) : Prop :=
  m.slotKeys idx = emptyVoteKey ∧ m.slotCounts idx = 0

theorem CdlpMem.Free.resetSlot {m : CdlpMem} {idx : Nat} (h : m.Free idx) (v : VId)
    (p : Fin cdlpInitSlots) : (resetSlot v m p).Free idx := by
  by_cases heq : idx = slotIdx v p
  · subst heq
    exact ⟨update_self .., update_self ..⟩
  · exact ⟨(update_of_ne heq ..).trans h.1, (update_of_ne heq ..).trans h.2⟩

theorem foldl_resetSlot (v : VId) (ps : List (Fin cdlpInitSlots)) (m : CdlpMem) :
    (∃ keys counts, ps.foldl (resetSlot v) m =
      { m with slotKeys := keys, slotCounts := counts }) ∧
      (∀ idx, m.Free idx → (ps.foldl (resetSlot v) m).Free idx) ∧
      ∀ p ∈ ps, (ps.foldl (resetSlot v) m).Free (slotIdx v p) := by
  induction ps using reverseRecOn with
  | nil => exact ⟨⟨m.slotKeys, m.slotCounts, rfl⟩, fun _ h => h, fun p hp => nomatch hp⟩
  | append_singleton ps q ih =>
    obtain ⟨⟨keys, counts, heq⟩, hkeep, hfree⟩ := ih
    rw [foldl_append, foldl_cons, foldl_nil]
    refine ⟨?_, fun idx h => (hkeep idx h).resetSlot v q, fun p hp => ?_⟩
    · rw [heq]
      exact ⟨_, _, rfl⟩
    · rcases mem_append.1 hp with hp | hp
      · exact (hfree p hp).resetSlot v q
      · rw [mem_singleton.1 hp]
        exact ⟨update_self .., update_self ..⟩

theorem resetVertex_spec (m : CdlpMem) (v : VId) :
    (∃ keys counts, resetVertex m v = { m with
      slotKeys := keys, slotCounts := counts, overflow := update m.overflow v false }) ∧
      (∀ idx, m.Free idx → (resetVertex m v).Free idx) ∧
      ∀ p, (resetVertex m v).Free (slotIdx v p) := by
  obtain ⟨⟨keys, counts, heq⟩, hkeep, hfree⟩ :=
    foldl_resetSlot v (finRange cdlpInitSlots) m
  have hfree : ∀ p, ((finRange cdlpInitSlots).foldl (resetSlot v) m).Free (slotIdx v p) :=
    fun p => hfree p (mem_finRange p)
  unfold resetVertex
  generalize (finRange cdlpInitSlots).foldl (resetSlot v) m = m' at heq hkeep hfree ⊢
  exact ⟨⟨keys, counts, by rw [heq]⟩, hkeep, hfree⟩

theorem foldl_resetVertex (vs : List VId) (m : CdlpMem) :
    (∃ keys counts overflow, vs.foldl resetVertex m =
      { m with slotKeys := keys, slotCounts := counts, overflow := overflow }) ∧
      ∀ v ∈ vs, (vs.foldl resetVertex m).overflow v = false ∧
        ∀ p, (vs.foldl resetVertex m).Free (slotIdx v p) := by
  induction vs using reverseRecOn with
  | nil => exact ⟨⟨m.slotKeys, m.slotCounts, m.overflow, rfl⟩, fun v hv => nomatch hv⟩
  | append_singleton vs u ih =>
    obtain ⟨⟨keys, counts, overflow, heq⟩, hfree⟩ := ih
    rw [foldl_append, foldl_cons, foldl_nil]
    obtain ⟨⟨keys', counts', heq'⟩, hkeep, hself⟩ := resetVertex_spec (vs.foldl resetVertex m) u
    have hflag : ∀ v, (resetVertex (vs.foldl resetVertex m) u).overflow v =
        update (vs.foldl resetVertex m).overflow u false v := by
      intro v
      rw [heq']
    refine ⟨⟨keys', counts', update overflow u false, ?_⟩, fun v hv => ?_⟩
    · rw [heq', heq]
    · rw [hflag]
      by_cases hu : v = u
      · subst hu
        exact ⟨update_self .., hself⟩
      · have hv := (mem_append.1 hv).resolve_right (by simpa using hu)
        rw [update_of_ne hu]
        exact ⟨(hfree v hv).1, fun p => hkeep _ ((hfree v hv).2 p)⟩

/-- After an iteration the vertices have the labels of the commit, and all slots are free. -/
theorem endIteration_spec (n : Nat) (m : CdlpMem) :
    (∀ v, v < n → (endIteration n m).currentLabels v = commitLabel m v) ∧
      (endIteration n m).iteration = m.iteration + 1 ∧
      (0 < (endIteration n m).changed ↔ ∃ v, v < n ∧ commitLabel m v ≠ m.currentLabels v) ∧
      ∀ v, v < n → (endIteration n m).overflow v = false ∧
        ∀ p, (endIteration n m).Free (slotIdx v p) := by
  obtain ⟨next, hnext, hlabels⟩ := foldl_commitVertex (range n) m
  obtain ⟨⟨keys, counts, overflow, heq⟩, hfree⟩ :=
    foldl_resetVertex (range n) { m with nextLabels := next }
  unfold endIteration
  rw [hnext]
  dsimp only
  refine ⟨fun v hv => ?_, ?_, ?_, fun v hv => hfree v (mem_range.2 hv)⟩
  · rw [heq]
    exact hlabels v (mem_range.2 hv)
  · rw [heq]
  · rw [length_pos_iff_exists_mem]
    simp only [mem_filter, mem_range, decide_eq_true_eq]
    refine exists_congr fun v => and_congr_right fun hv => ?_
    rw [hlabels v (mem_range.2 hv)]
    exact ne_comm

/-- The label that a vertex takes with the votes `votes`. -/
def TakesLabel (current : VId) (votes : List VId) (label : VId) : Prop :=
  if votes ≠ [] ∧ votes.dedup.length ≤ cdlpInitSlots then Plurality votes label
  else label = current

variable {votes : List VId}

/-- The commit of a vertex whose votes are all in the table. -/
theorem commitLabel_spec {m : CdlpMem} {v : VId}
    (h : (m.table v).Ok emptyVoteKey (2 ^ 32) votes votes.count)
    (hcount : votes.dedup.length ≤ cdlpInitSlots → ∀ l ∈ votes, votes.count l < 2 ^ 32) :
    TakesLabel (m.currentLabels v) votes (commitLabel m v) := by
  unfold TakesLabel commitLabel
  have hflag := h.overflow_iff
  by_cases hlen : votes.dedup.length ≤ cdlpInitSlots
  · have hdown : m.overflow v = false := by
      rw [← Bool.not_eq_true]
      exact fun hup => absurd (hflag.1 hup) (not_lt.2 hlen)
    have helects := h.elects hdown (hcount hlen) (m.currentLabels v)
    rw [hdown, if_neg Bool.false_ne_true]
    by_cases hnil : votes = []
    · rw [if_neg fun hc => hc.1 hnil]
      rcases helects with ⟨-, heq⟩ | hp
      · exact heq
      · exact absurd (hnil ▸ hp.mem) not_mem_nil
    · rw [if_pos ⟨hnil, hlen⟩]
      exact helects.resolve_left fun hc => hnil hc.1
  · have hup : m.overflow v = true := hflag.2 (not_le.1 hlen)
    rw [hup, if_pos rfl, if_neg fun hc => hlen hc.2]

/-- The commit stores the old label, or a key of the table. -/
theorem foldl_commitSlot (m : CdlpMem) (v : VId) (ps : List (Fin cdlpInitSlots))
    (best : VId × Nat) : (ps.foldl (commitSlot m v) best).1 = best.1 ∨
      ∃ p, (m.table v).keys p ≠ emptyVoteKey ∧
        (ps.foldl (commitSlot m v) best).1 = (m.table v).keys p := by
  induction ps generalizing best with
  | nil => exact .inl rfl
  | cons p ps ih =>
    rw [foldl_cons]
    by_cases hp : m.slotKeys (slotIdx v p) = emptyVoteKey
    · rw [commitSlot, if_pos hp]
      exact ih best
    · rw [commitSlot, if_neg hp]
      split_ifs
      · exact (ih _).elim (fun h => .inr ⟨p, hp, h⟩) .inr
      · exact ih best

theorem commitLabel_lt {n : Nat} {m : CdlpMem} {done : VId → Nat} {v : VId}
    (h : (m.table v).Ok emptyVoteKey (2 ^ 32) votes done) (hcurrent : m.currentLabels v < n)
    (hvotes : ∀ l ∈ votes, l < n) : commitLabel m v < n := by
  unfold commitLabel
  split_ifs
  · exact hcurrent
  · rcases foldl_commitSlot m v (finRange cdlpInitSlots) (m.currentLabels v, 0) with
      heq | ⟨p, hp, heq⟩
    · exact heq ▸ hcurrent
    · exact heq ▸ hvotes _ (h.mem p hp)

/-! ## The loop -/

/-- What the calls of a vote have left to do, at most. -/
def VoteCall.rank : VoteCall → Nat
  | .loadOverflow _ _ => 54
  | .loadLabel _ _ => 53
  | .loadKey _ _ p => 3 * (cdlpInitSlots - p) + 4
  | .compareExchange _ _ p => 3 * (cdlpInitSlots - p) + 3
  | .reloadKey _ _ p => 3 * (cdlpInitSlots - p) + 2
  | .addCount _ _ _ => 1
  | .setOverflow _ _ => 1

theorem nextProbe_rank (label dst : VId) (p : Fin cdlpInitSlots) :
    (nextProbe label dst p).rank < 3 * (cdlpInitSlots - p) + 2 := by
  have hp : (p : Nat) < 16 := p.isLt
  unfold nextProbe
  split_ifs with h
  · simp only [VoteCall.rank, cdlpInitSlots]
    omega
  · simp only [VoteCall.rank]
    omega

theorem cdlpVoteNext_rank (m : CdlpMem) (c : VoteCall) (m' : CdlpMem) (c' : VoteCall)
    (h : cdlpVoteNext m c = (m', .inl c')) : c'.rank < c.rank := by
  cases c with
  | loadOverflow src dst =>
    simp only [cdlpVoteNext] at h
    split_ifs at h
    · cases h
    · cases h
      simp [VoteCall.rank]
  | loadLabel src dst =>
    cases h
    simp [VoteCall.rank, cdlpInitSlots]
  | loadKey label dst p =>
    simp only [cdlpVoteNext] at h
    split_ifs at h
    · cases h
      simp [VoteCall.rank]
    · cases h
      simp [VoteCall.rank]
    · cases h
      exact (nextProbe_rank label dst p).trans (by simp [VoteCall.rank])
  | compareExchange label dst p =>
    simp only [cdlpVoteNext] at h
    split_ifs at h
    · cases h
      simp [VoteCall.rank]
    · cases h
      simp [VoteCall.rank]
  | reloadKey label dst p =>
    simp only [cdlpVoteNext] at h
    split_ifs at h
    · cases h
      simp [VoteCall.rank]
    · cases h
      exact nextProbe_rank label dst p
  | addCount label dst p => cases h
  | setOverflow label dst => cases h

section Loop

variable {n : Nat} {edgeLists : List (List (VId × VId))} {maxIterations : Nat}

/-- A task of the votes takes finitely many steps. -/
theorem parallelCdlpMap_rank (m : CdlpMem) (t : EdgeTask VoteCall) (m' : CdlpMem)
    (t' : EdgeTask VoteCall)
    (h : (parallelCdlpMap n edgeLists maxIterations).next m t = some (m', t')) :
    t'.rank 54 VoteCall.rank < t.rank 54 VoteCall.rank :=
  edgeMapNoOutputNext_rank (fun _ _ => le_rfl) cdlpVoteNext_rank h

variable {head : CdlpMem → Prop}

/-- A predicate that the iterations keep is an invariant of the loop. -/
theorem parallelCdlpMap_invariant (hn : n * cdlpInitSlots ≤ 2 ^ 32)
    (hedges : ∀ e ∈ edgeLists.flatten, e.1 < n ∧ e.2 < n) (hhead : ∀ m, head m → CdlpHead n m)
    (hjoin : ∀ m₁ m, head m₁ → m₁.iteration < maxIterations → 0 < m₁.changed →
      m.currentLabels = m₁.currentLabels → m.iteration = m₁.iteration →
      TablesOk n (inVotes edgeLists.flatten m₁.currentLabels)
        (fun v => (inVotes edgeLists.flatten m₁.currentLabels v).count) m →
      head (endIteration n m)) :
    (parallelCdlpMap n edgeLists maxIterations).Invariant head fun m₁ m ts =>
      (head m₁ ∧ m₁.iteration < maxIterations ∧ 0 < m₁.changed) ∧
        VotesOk edgeLists.flatten n m₁ m ts where
  fork m₁ m ts hm hfork := by
    simp only [parallelCdlpMap] at hfork
    split_ifs at hfork with hgo
    cases hfork
    exact ⟨⟨hm, hgo⟩, (hhead m₁ hm).votesOk edgeLists⟩
  next m₁ m ts i t m' t' hsec ht hnext :=
    ⟨hsec.1, hsec.2.next hn (hhead m₁ hsec.1.1) hedges ht hnext⟩
  join m₁ m ts hm hsec hfin :=
    hjoin m₁ m hm hsec.1.2.1 hsec.1.2.2 hsec.2.currentLabels hsec.2.iteration
      (hsec.2.finished hfin)

/-- The loop ends. -/
theorem parallelCdlpMap_variant {sec : CdlpMem → CdlpMem → List (EdgeTask VoteCall) → Prop}
    (hinv : (parallelCdlpMap n edgeLists maxIterations).Invariant head sec)
    (hsec : ∀ m₁ m ts, sec m₁ m ts → m₁.iteration < maxIterations ∧ m.iteration = m₁.iteration) :
    (parallelCdlpMap n edgeLists maxIterations).Variant head sec (EdgeTask.rank 54 VoteCall.rank)
      fun m => maxIterations - m.iteration where
  inv := hinv
  rank_lt _ m _ t m' t' _ _ h := parallelCdlpMap_rank m t m' t' h
  size_lt m₁ m ts _ h _ := by
    obtain ⟨hlt, heq⟩ := hsec m₁ m ts h
    have hiter : (endIteration n m).iteration = m.iteration + 1 := (endIteration_spec n m).2.1
    show maxIterations - (endIteration n m).iteration < maxIterations - m₁.iteration
    omega

end Loop

theorem cdlpHead_start {n : Nat} {labels : VId → VId} (h : ∀ v, v < n → labels v < n) :
    CdlpHead n (cdlpStart n labels) :=
  ⟨fun _ _ _ => rfl, fun _ _ _ => rfl, fun _ _ => rfl, h⟩

theorem CdlpHead.endIteration {n : Nat} {m : CdlpMem}
    (h : ∀ v, v < n → commitLabel m v < n) : CdlpHead n (endIteration n m) := by
  obtain ⟨hlabels, -, -, hfree⟩ := endIteration_spec n m
  refine ⟨fun v hv p => ((hfree v hv).2 p).1, fun v hv p => ((hfree v hv).2 p).2,
    fun v hv => (hfree v hv).1, fun v hv => ?_⟩
  rw [hlabels v hv]
  exact h v hv

/-! ## One iteration -/

/-- What one iteration of the votes has to do, whatever the order of its steps: it ends, no label
has two slots, no vote for a vertex with at most 16 labels is lost, and the vertices take the most
frequent labels. -/
structure VotesCounted (n : Nat) (edgeLists : List (List (VId × VId))) (labels : VId → VId) :
    Prop where
  ends : (parallelCdlpMap n edgeLists 1).Terminates (.head (cdlpStart n labels))
  unique : ∀ es m ts, runAll (parallelCdlpMap n edgeLists 1).step (.head (cdlpStart n labels)) es =
    some (.body m ts) → ∀ v, v < n → ∀ p q, m.slotKeys (slotIdx v p) ≠ emptyVoteKey →
      m.slotKeys (slotIdx v p) = m.slotKeys (slotIdx v q) → p = q
  counted : ∀ es m ts, runAll (parallelCdlpMap n edgeLists 1).step
    (.head (cdlpStart n labels)) es = some (.body m ts) →
      (∀ t ∈ ts, (parallelCdlpMap n edgeLists 1).next m t = none) → ∀ v, v < n →
      (inVotes edgeLists.flatten labels v).dedup.length ≤ cdlpInitSlots →
      ∀ l ∈ inVotes edgeLists.flatten labels v, ∃ p, m.slotKeys (slotIdx v p) = l ∧
        m.slotCounts (slotIdx v p) = (inVotes edgeLists.flatten labels v).count l
  takes : ∀ es s, runAll (parallelCdlpMap n edgeLists 1).step (.head (cdlpStart n labels)) es =
    some s → (parallelCdlpMap n edgeLists 1).Stuck s → ∃ m, s = .head m ∧ ∀ v, v < n →
      TakesLabel (labels v) (inVotes edgeLists.flatten labels v) (m.currentLabels v)

section OneIteration

variable {n : Nat} {edgeLists : List (List (VId × VId))} {labels : VId → VId}

/-- No label that is voted for at a vertex with at most 16 labels has 2^32 votes there. -/
def CountsFit (n : Nat) (edgeLists : List (List (VId × VId))) (labels : VId → VId) : Prop :=
  ∀ v, v < n → (inVotes edgeLists.flatten labels v).dedup.length ≤ cdlpInitSlots →
    ∀ l, (inVotes edgeLists.flatten labels v).count l < 2 ^ 32

/-- The heads of a loop with one iteration. -/
def OneIteration (n : Nat) (edgeLists : List (List (VId × VId))) (labels : VId → VId)
    (m : CdlpMem) : Prop :=
  CdlpHead n m ∧ (m = cdlpStart n labels ∨ m.iteration = 1 ∧ (CountsFit n edgeLists labels →
    ∀ v, v < n → TakesLabel (labels v) (inVotes edgeLists.flatten labels v) (m.currentLabels v)))

variable {m : CdlpMem}

theorem OneIteration.eq_start (h : OneIteration n edgeLists labels m) (hiter : m.iteration < 1) :
    m = cdlpStart n labels := by
  rcases h.2 with heq | ⟨hone, -⟩
  · exact heq
  · omega

theorem CdlpHead.votes_lt {edges : List (VId × VId)} (h : CdlpHead n m)
    (hedges : ∀ e ∈ edges, e.1 < n ∧ e.2 < n) (v : VId) :
    ∀ l ∈ inVotes edges m.currentLabels v, l < n := by
  intro l hl
  obtain ⟨u, hu, rfl⟩ := mem_inVotes.1 hl
  exact h.labels u (hedges _ hu).1

variable (hn : n * cdlpInitSlots ≤ 2 ^ 32) (hedges : ∀ e ∈ edgeLists.flatten, e.1 < n ∧ e.2 < n)
  (hlabels : ∀ v, v < n → labels v < n)

include hn hedges

theorem oneIteration_invariant :
    (parallelCdlpMap n edgeLists 1).Invariant (OneIteration n edgeLists labels) fun m₁ m ts =>
      (OneIteration n edgeLists labels m₁ ∧ m₁.iteration < 1 ∧ 0 < m₁.changed) ∧
        VotesOk edgeLists.flatten n m₁ m ts := by
  refine parallelCdlpMap_invariant hn hedges (fun m h => h.1) ?_
  intro m₁ m hm hlt _ hcur hiter htab
  have hstart := hm.eq_start hlt
  have hspec := endIteration_spec n m
  refine ⟨CdlpHead.endIteration fun v hv => ?_, .inr ⟨?_, fun hfit v hv => ?_⟩⟩
  · exact commitLabel_lt (htab v hv) (hcur ▸ hm.1.labels v hv) (hm.1.votes_lt hedges v)
  · rw [hspec.2.1, hiter]
    omega
  · rw [hspec.1 v hv]
    subst hstart
    have htakes := commitLabel_spec (htab v hv) fun hlen l _ => hfit v hv hlen l
    rwa [hcur] at htakes

include hlabels

variable {es : List (Option Nat)}

theorem oneIteration_holds {s : ForkJoin.State CdlpMem (EdgeTask VoteCall)}
    (run : runAll (parallelCdlpMap n edgeLists 1).step (.head (cdlpStart n labels)) es = some s) :
    ForkJoin.Holds (OneIteration n edgeLists labels) (fun m₁ m ts =>
        (OneIteration n edgeLists labels m₁ ∧ m₁.iteration < 1 ∧ 0 < m₁.changed) ∧
          VotesOk edgeLists.flatten n m₁ m ts) s ∧
      ((parallelCdlpMap n edgeLists 1).Stuck s → ∃ m, s = .head m ∧
        OneIteration n edgeLists labels m ∧ (parallelCdlpMap n edgeLists 1).fork m = none) := by
  refine (oneIteration_invariant hn hedges).of_run ?_ run
  exact ⟨cdlpHead_start hlabels, .inl rfl⟩

/-- The votes of a section. -/
theorem votesOk_of_run {ts : List (EdgeTask VoteCall)}
    (run : runAll (parallelCdlpMap n edgeLists 1).step (.head (cdlpStart n labels)) es =
      some (.body m ts)) : VotesOk edgeLists.flatten n (cdlpStart n labels) m ts := by
  obtain ⟨⟨m₁, -, ⟨hm1, hlt, -⟩, hvotes⟩, -⟩ := oneIteration_holds hn hedges hlabels run
  rwa [hm1.eq_start hlt] at hvotes

/-- All votes are counted if the counts fit into their type. -/
theorem CountsFit.votesCounted (h : CountsFit n edgeLists labels) :
    VotesCounted n edgeLists labels where
  ends := by
    have hvar := parallelCdlpMap_variant (@oneIteration_invariant n edgeLists labels hn hedges)
      fun m₁ m ts hsec => ⟨hsec.1.2.1, hsec.2.iteration⟩
    exact hvar.terminates ⟨cdlpHead_start hlabels, .inl rfl⟩
  unique es m ts run v hv p q hp hpq :=
    ((votesOk_of_run hn hedges hlabels run).tables v hv).unique p q hp hpq
  counted es m ts run hfin v hv hlen l hl := by
    have htab := (votesOk_of_run hn hedges hlabels run).finished hfin v hv
    have hdown : m.overflow v = false := by
      rw [← Bool.not_eq_true]
      exact fun hup => absurd (htab.overflow hup) (not_lt.2 hlen)
    obtain ⟨p, hkey, hcount⟩ := htab.slot hdown hl
    exact ⟨p, hkey, hcount.trans (Nat.mod_eq_of_lt (h v hv hlen l))⟩
  takes es s run hstuck := by
    obtain ⟨m, rfl, hm, hfork⟩ := (oneIteration_holds hn hedges hlabels run).2 hstuck
    refine ⟨m, rfl, fun v hv => ?_⟩
    rcases hm.2 with rfl | ⟨-, htakes⟩
    · -- with a vertex the first iteration takes place
      simp only [parallelCdlpMap, cdlpStart] at hfork
      rw [if_pos ⟨Nat.zero_lt_one, by omega⟩] at hfork
      cases hfork
    · exact htakes h v hv

/-- A count that does not fit loses votes. -/
theorem VotesCounted.countsFit (h : VotesCounted n edgeLists labels) :
    CountsFit n edgeLists labels := by
  intro v hv hlen l
  by_cases hl : l ∈ inVotes edgeLists.flatten labels v
  · -- run the section to the end of its tasks
    set start := cdlpStart n labels with hstart
    have hfork : (parallelCdlpMap n edgeLists 1).step (.head start) none =
        some (.body start (edgeLists.map fun edges => ⟨edges, none⟩)) := by
      simp only [step, parallelCdlpMap, hstart, cdlpStart]
      rw [if_pos ⟨Nat.zero_lt_one, by omega⟩]
      rfl
    obtain ⟨es, m, ts, hrun, hfin⟩ := exists_finished
      (@parallelCdlpMap_rank n edgeLists 1) start
      (edgeLists.map fun edges => ⟨edges, none⟩)
    have run : runAll (parallelCdlpMap n edgeLists 1).step (.head start) (none :: es) =
        some (.body m ts) := by
      rw [runAll, hfork]
      exact hrun
    have hvotes := votesOk_of_run hn hedges hlabels run
    have htab := hvotes.finished hfin v hv
    obtain ⟨p, -, hcount⟩ := h.counted _ m ts run hfin v hv hlen l hl
    have hdown : m.overflow v = false := by
      rw [← Bool.not_eq_true]
      exact fun hup => absurd (htab.overflow hup) (not_lt.2 hlen)
    have hlt : m.slotCounts (slotIdx v p) < 2 ^ 32 := by
      refine (htab.counts hdown p).trans_lt ?_
      split_ifs
      · exact Nat.two_pow_pos 32
      · exact Nat.mod_lt _ (Nat.two_pow_pos 32)
    rwa [hcount] at hlt
  · rw [count_eq_zero_of_not_mem hl]
    exact Nat.two_pow_pos 32

end OneIteration

/-- The votes of an iteration are counted, whatever the order of the atomic steps, exactly if no
label has 2^32 votes at a vertex with at most 16 labels: the counts are of type `uint32_t`, where
`cdlp` has 64-bit counts. -/
theorem parallelCdlpMap_votes_iff {n : Nat} (hn : n * cdlpInitSlots ≤ 2 ^ 32)
    {edgeLists : List (List (VId × VId))} (hedges : ∀ e ∈ edgeLists.flatten, e.1 < n ∧ e.2 < n)
    {labels : VId → VId} (hlabels : ∀ v, v < n → labels v < n) :
    VotesCounted n edgeLists labels ↔ CountsFit n edgeLists labels :=
  ⟨fun h => h.countsFit hn hedges hlabels, fun h => h.votesCounted hn hedges hlabels⟩

/-- Edges of a triangle, with a list for each page. -/
def triangleEdges : List (List (VId × VId)) := [[(0, 1), (0, 2), (1, 0)], [(1, 2), (2, 0), (2, 1)]]

theorem parallelCdlpMap_votes_triangle :
    VotesCounted 3 triangleEdges id ↔ CountsFit 3 triangleEdges id :=
  parallelCdlpMap_votes_iff (by decide) (by decide) fun _ h => h

/-- `k` edges from each of two vertices with the label 1, and one from a vertex with the label 2. -/
def wrappingEdges (k : Nat) : List (List (VId × VId)) :=
  [List.replicate k (0, 3) ++ List.replicate k (1, 3) ++ [(2, 3)]]

/-- The labels 1, 1, 2 and 3. -/
def wrappingLabels (v : VId) : VId := if v = 0 then 1 else v

theorem not_votesCounted_wrapping {k : Nat} (hk : 2 ^ 32 ≤ k + k) :
    ¬ VotesCounted 4 (wrappingEdges k) wrappingLabels := by
  intro h
  have hedges : ∀ e ∈ (wrappingEdges k).flatten, e.1 < 4 ∧ e.2 < 4 := by
    intro e he
    simp only [wrappingEdges, flatten_cons, flatten_nil, append_nil,
      mem_append, mem_replicate, mem_singleton] at he
    rcases he with (⟨-, rfl⟩ | ⟨-, rfl⟩) | rfl
    · exact ⟨by decide, by decide⟩
    · exact ⟨by decide, by decide⟩
    · exact ⟨by decide, by decide⟩
  have hvotes : inVotes (wrappingEdges k).flatten wrappingLabels 3 =
      replicate (k + k) 1 ++ [2] := by
    rw [← replicate_append_replicate, append_assoc]
    simp [inVotes, wrappingEdges, wrappingLabels, filter_append, -replicate_append_replicate]
  have hlen : (inVotes (wrappingEdges k).flatten wrappingLabels 3).dedup.length ≤ 16 := by
    have hsub : (inVotes (wrappingEdges k).flatten wrappingLabels 3).dedup ⊆ [1, 2] := by
      intro a ha
      rw [mem_dedup, hvotes] at ha
      simp only [mem_append, mem_replicate, mem_singleton] at ha
      rcases ha with ⟨-, rfl⟩ | rfl
      · exact mem_cons_self
      · exact mem_cons_of_mem _ mem_cons_self
    exact (subperm_of_subset (nodup_dedup _) hsub).length_le.trans (by decide)
  have hfit := h.countsFit (by decide) hedges (by decide) 3 (by decide) hlen 1
  rw [hvotes, count_append, count_replicate_self] at hfit
  omega

/-- The 2^32 votes for the label 1 are counted as none. -/
theorem parallelCdlpMap_votes_wrap : ¬ VotesCounted 4 (wrappingEdges (2 ^ 31)) wrappingLabels :=
  not_votesCounted_wrapping (by decide)

end BwGraph
