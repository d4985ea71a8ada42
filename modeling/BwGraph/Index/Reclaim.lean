import Mathlib.Data.List.Perm.Basic
import Mathlib.Logic.Function.Basic
import BwGraph.Lib.Run
import BwGraph.Common.Type

/-
  Reclamation of replaced vertex versions (`vertex_index.cc`, `publish_version_switch` of
  `smo.cc`). A version switch prepares a new version for every vertex of its merged graph, then
  publishes them one by one with a compare-and-swap; each success retires the replaced version
  together with the batch of the switch. A retired version goes through the queue of the GC
  threads to the hazard-pointer library, which calls its reclaimer once no reader protects it. The
  reclaimer deletes the version, decrements the counter of the batch and calls `on_complete` when
  it saw the counter at one. Each of these is an event of its own, so that runs are interleavings
  of readers, switches, GC threads and reclaimers; versions are their addresses, which `new` may
  hand out again after `delete`.

  `Account` is the bookkeeping of one switch: every version it replaced is in one stage of its way
  (`Counts.conserved`), and the counter misses exactly the reclaimers that decremented it
  (`Counts.remaining`). From it, `on_complete` is called at most once, and not before every
  replaced version of the batch is deleted; and whatever the state of a run, its GC steps can be
  taken to the end, where it has been called once (`onComplete_run`).
-/

namespace BwGraph

open List Option

/-- `prepared_vertex_version_t`, by addresses. -/
structure PreparedVersion where
  expected : Nat
  desired : Nat
  deriving DecidableEq, Repr

/-- `retired_version_t`; the batch is that of a version switch. -/
structure RetiredVersion where
  version : Nat
  batch : Option Nat
  deriving DecidableEq, Repr

/-- `vertex_version_reclaim_batch_t`; `fired` counts the calls of `on_complete`. -/
structure ReclaimBatch where
  remaining : Nat
  fired : Nat
  deriving DecidableEq, Repr

/-- One consolidation, from its merged graph to the loop of `finalize_consolidation`. -/
structure ReclaimSwitch where
  /-- The vertices of the merged graph. -/
  merged : List VId
  toPrepare : List VId
  newLocations : List (VId × PreparedVersion)
  batch : Option ReclaimBatch
  toPublish : List (VId × PreparedVersion)
  /-- The versions that the publications replaced. -/
  replaced : List Nat
  /-- A compare-and-swap failed, and `finalize_consolidation` threw. -/
  failed : Bool
  deriving DecidableEq, Repr

/-- The vertex versions and what is under way to retire them. -/
structure VersionGc where
  cur : VId → Nat
  /-- The allocated versions. -/
  live : List Nat
  /-- What the `protected_vertex_version_t` objects of the readers protect. -/
  protections : List Nat
  switches : Nat → ReclaimSwitch
  /-- Replaced, before `retire_version` has queued it. -/
  swapped : List RetiredVersion
  /-- `retired_versions_`. -/
  retiredVersions : List RetiredVersion
  /-- Retired to the hazard-pointer library. -/
  hazptr : List RetiredVersion
  /-- Deleted by its reclaimer, before the `fetch_sub`. -/
  deleted : List RetiredVersion
  /-- With the value that `fetch_sub` returned. -/
  counted : List (RetiredVersion × Nat)
  finished : List RetiredVersion

/-- The steps of all threads. -/
inductive GcEvent where
  | protect (v : VId)
  | drop (version : Nat)
  | consolidate (c : Nat) (merged : List VId)
  | prepareVertexVersion (c : Nat) (v : VId) (desired : Nat)
  | publishVersionSwitch (c : Nat)
  | publishPreparedVersion (c : Nat) (x : VId × PreparedVersion)
  | updateVertexLoc (v : VId) (desired : Nat)
  | retireVersion (r : RetiredVersion)
  | submitVersionToHazptr
  | reclaim (r : RetiredVersion)
  | fetchSub (r : RetiredVersion)
  | onComplete (x : RetiredVersion × Nat)
  deriving DecidableEq, Repr

/-- No consolidation. -/
def ReclaimSwitch.idle : ReclaimSwitch := ⟨[], [], [], none, [], [], false⟩

namespace VersionGc

/-- An index with nothing under way. -/
def start (cur : VId → Nat) (live protections : List Nat) : VersionGc :=
  ⟨cur, live, protections, fun _ => .idle, [], [], [], [], [], []⟩

def setSwitch (s : VersionGc) (c : Nat) (sw : ReclaimSwitch) : VersionGc :=
  { s with switches := Function.update s.switches c sw }

/-- The reclaimers after `delete version`: `remaining.fetch_sub(1)`, where there is a batch. -/
def fetchSub (s : VersionGc) (r : RetiredVersion) : Option VersionGc :=
  match r.batch with
  | none => some { s with deleted := s.deleted.erase r, finished := r :: s.finished }
  | some c =>
    let sw := s.switches c
    match sw.batch with
    | none => none
    | some b =>
      some (setSwitch { s with
          deleted := s.deleted.erase r
          counted := (r, b.remaining) :: s.counted } c
        { sw with batch := some { b with remaining := b.remaining - 1 } })

/-- `if (before == 1) on_complete()`. -/
def onComplete (s : VersionGc) (x : RetiredVersion × Nat) : Option VersionGc :=
  let s' := { s with counted := s.counted.erase x, finished := x.1 :: s.finished }
  match x.1.batch with
  | none => some s'
  | some c =>
    if x.2 = 1 then
      (s.switches c).batch.map fun b =>
        s'.setSwitch c { s.switches c with batch := some { b with fired := b.fired + 1 } }
    else some s'

/-- `publish_prepared_version` in the loop of `finalize_consolidation`. -/
def publishPreparedVersion (s : VersionGc) (c : Nat) (x : VId × PreparedVersion) : VersionGc :=
  let sw := s.switches c
  if s.cur x.1 = x.2.expected then
    setSwitch { s with
        cur := Function.update s.cur x.1 x.2.desired
        swapped := ⟨x.2.expected, some c⟩ :: s.swapped } c
      { sw with
        toPublish := sw.toPublish.erase x
        replaced := x.2.expected :: sw.replaced }
  else
    -- the exception destroys the prepared versions that are left
    setSwitch { s with live := s.live.diff (sw.toPublish.map fun y => y.2.desired) } c
      { sw with failed := true }

/-- One step; `none` when it is not enabled. -/
def step (s : VersionGc) : GcEvent → Option VersionGc
  | .protect v => some { s with protections := s.cur v :: s.protections }
  | .drop a => if a ∈ s.protections then
      some { s with protections := s.protections.erase a } else none
  | .consolidate c merged =>
    -- `consolidate_pages` returns when the merged graph is empty
    if s.switches c = .idle ∧ merged ≠ [] then
      some (s.setSwitch c { ReclaimSwitch.idle with merged := merged, toPrepare := merged })
    else none
  | .prepareVertexVersion c v a =>
    let sw := s.switches c
    if v ∈ sw.toPrepare ∧ a ∉ s.live then
      some (setSwitch { s with live := a :: s.live } c
        { sw with
          toPrepare := sw.toPrepare.erase v
          newLocations := sw.newLocations ++ [(v, ⟨s.cur v, a⟩)] })
    else none
  | .publishVersionSwitch c =>
    let sw := s.switches c
    if sw.merged ≠ [] ∧ sw.toPrepare = [] ∧ sw.batch = none then
      some (s.setSwitch c
        { sw with batch := some ⟨sw.newLocations.length, 0⟩, toPublish := sw.newLocations })
    else none
  | .publishPreparedVersion c x =>
    if x ∈ (s.switches c).toPublish ∧ (s.switches c).failed = false then
      some (s.publishPreparedVersion c x)
    else none
  | .updateVertexLoc v a =>
    if a ∉ s.live then
      some { s with
        cur := Function.update s.cur v a
        live := a :: s.live
        swapped := ⟨s.cur v, none⟩ :: s.swapped }
    else none
  | .retireVersion r =>
    if r ∈ s.swapped then
      some { s with swapped := s.swapped.erase r, retiredVersions := s.retiredVersions ++ [r] }
    else none
  | .submitVersionToHazptr =>
    match s.retiredVersions with
    | [] => none
    | r :: rest => some { s with retiredVersions := rest, hazptr := r :: s.hazptr }
  | .reclaim r =>
    if r ∈ s.hazptr ∧ r.version ∉ s.protections then
      some { s with
        live := s.live.erase r.version
        hazptr := s.hazptr.erase r
        deleted := r :: s.deleted }
    else none
  | .fetchSub r => if r ∈ s.deleted then s.fetchSub r else none
  | .onComplete x => if x ∈ s.counted then s.onComplete x else none

/-- The replaced versions that are not yet deleted. -/
def unreclaimed (s : VersionGc) : List RetiredVersion := s.swapped ++ s.retiredVersions ++ s.hazptr

/-- The deleted ones. -/
def reclaimed (s : VersionGc) : List RetiredVersion :=
  s.deleted ++ s.counted.map Prod.fst ++ s.finished

/-- Every version that was replaced. -/
def allRetired (s : VersionGc) : List RetiredVersion := s.unreclaimed ++ s.reclaimed

end VersionGc

/-! ## The bookkeeping of a switch -/

/-- The version was replaced by the switch `c`. -/
def RetiredVersion.ofSwitch (c : Nat) (r : RetiredVersion) : Bool := r.batch = some c

/-- How many reclaimers have decremented the counter of `c`. -/
def VersionGc.decremented (s : VersionGc) (c : Nat) : Nat :=
  s.counted.countP (fun x => x.1.ofSwitch c) + s.finished.countP (RetiredVersion.ofSwitch c)

/-- How many of them saw it at one and have not yet called `on_complete`. -/
def VersionGc.firing (s : VersionGc) (c : Nat) : Nat :=
  s.counted.countP fun x => x.1.ofSwitch c && x.2 == 1

/-- The counters of a switch that has started to publish. -/
structure Counts (s : VersionGc) (c : Nat) (sw : ReclaimSwitch) (b : ReclaimBatch) : Prop where
  allPrepared : sw.toPrepare = []
  nonempty : sw.newLocations ≠ []
  published : sw.toPublish.length + sw.replaced.length = sw.newLocations.length
  conserved : ((s.allRetired.filter (RetiredVersion.ofSwitch c)).map RetiredVersion.version).Perm
    sw.replaced
  remaining : b.remaining + s.decremented c = sw.newLocations.length
  fired : b.fired + s.firing c = if b.remaining = 0 then 1 else 0

/-- The bookkeeping of a switch before it publishes. -/
structure Unstarted (s : VersionGc) (c : Nat) (sw : ReclaimSwitch) : Prop where
  prepared : sw.toPrepare.length + sw.newLocations.length = sw.merged.length
  toPublish : sw.toPublish = []
  replaced : sw.replaced = []
  noRetired : ∀ r ∈ s.allRetired, r.ofSwitch c = false

/-- The bookkeeping of switch `c`. -/
def Account (s : VersionGc) (c : Nat) : Prop :=
  match (s.switches c).batch with
  | none => Unstarted s c (s.switches c)
  | some b => Counts s c (s.switches c) b

namespace VersionGc

/-- What the accounts of a switch see of the retired versions. -/
structure SameRetired (s s' : VersionGc) (c : Nat) : Prop where
  all : (s'.allRetired.filter (RetiredVersion.ofSwitch c)).Perm
    (s.allRetired.filter (RetiredVersion.ofSwitch c))
  decremented : s'.decremented c = s.decremented c
  firing : s'.firing c = s.firing c

variable {sw : ReclaimSwitch} {c : Nat} {b : ReclaimBatch} {s : VersionGc} {r : RetiredVersion}
  {x : RetiredVersion × Nat}

section

variable {s s' : VersionGc} (h : SameRetired s s' c)
include h

theorem SameRetired.unstarted (hu : Unstarted s c sw) : Unstarted s' c sw := by
  refine ⟨hu.prepared, hu.toPublish, hu.replaced, fun r hr => ?_⟩
  cases hc : r.ofSwitch c with
  | false => rfl
  | true =>
    have hmem := h.all.subset (mem_filter.2 ⟨hr, hc⟩)
    rw [hu.noRetired r (mem_filter.1 hmem).1] at hc
    cases hc

theorem SameRetired.counts (hc : Counts s c sw b) :
    Counts s' c sw b where
  allPrepared := hc.allPrepared
  nonempty := hc.nonempty
  published := hc.published
  conserved := (h.all.map _).trans hc.conserved
  remaining := by rw [h.decremented, hc.remaining]
  fired := by rw [h.firing, hc.fired]

theorem SameRetired.account (hsw : s'.switches c = s.switches c) (ha : Account s c) :
    Account s' c := by
  unfold Account at ha ⊢
  rw [hsw]
  cases hb : (s.switches c).batch with
  | none =>
    rw [hb] at ha
    exact h.unstarted ha
  | some b =>
    rw [hb] at ha
    exact h.counts ha

end

section

variable {s s' : VersionGc}

/-- A version that moves to another stage before its reclaimer has decremented the counter. -/
theorem SameRetired.of_perm (c : Nat) (h : s'.allRetired.Perm s.allRetired)
    (hcounted : s'.counted = s.counted) (hfinished : s'.finished = s.finished) :
    SameRetired s s' c := by
  refine ⟨h.filter _, ?_, ?_⟩
  · unfold VersionGc.decremented
    rw [hcounted, hfinished]
  · unfold VersionGc.firing
    rw [hcounted]

theorem switches_setSwitch_self (s : VersionGc) (c : Nat) (sw : ReclaimSwitch) :
    (s.setSwitch c sw).switches c = sw := Function.update_self _ _ _

theorem switches_setSwitch_ne (s : VersionGc) {c c' : Nat} (h : c' ≠ c) (sw : ReclaimSwitch) :
    (s.setSwitch c sw).switches c' = s.switches c' := Function.update_of_ne h _ _

/-- A step that replaces the record of `c` leaves the accounts of the other switches. -/
theorem account_setSwitch {s s1 : VersionGc} {c c' : Nat} (ha : Account s c')
    (hsw : s1.switches = s.switches) (hsame : c' ≠ c → SameRetired s s1 c')
    (hown : c' = c → Account (s1.setSwitch c sw) c) : Account (s1.setSwitch c sw) c' := by
  by_cases hc : c' = c
  · subst hc
    exact hown rfl
  · have hs := hsame hc
    refine SameRetired.account (s := s) ⟨hs.all, hs.decremented, hs.firing⟩ ?_ ha
    rw [switches_setSwitch_ne _ hc, hsw]

theorem account_of_none (hb : (s.switches c).batch = none) :
    Account s c ↔ Unstarted s c (s.switches c) := by
  unfold Account
  rw [hb]

theorem account_of_some (hb : (s.switches c).batch = some b) :
    Account s c ↔ Counts s c (s.switches c) b := by
  unfold Account
  rw [hb]

theorem account_setSwitch_none (hb : sw.batch = none) (h : Unstarted s c sw) :
    Account (s.setSwitch c sw) c := by
  rw [account_of_none (by rw [switches_setSwitch_self, hb]), switches_setSwitch_self]
  exact ⟨h.prepared, h.toPublish, h.replaced, h.noRetired⟩

theorem account_setSwitch_some (hb : sw.batch = some b) (h : Counts s c sw b) :
    Account (s.setSwitch c sw) c := by
  rw [account_of_some (by rw [switches_setSwitch_self, hb]), switches_setSwitch_self]
  exact ⟨h.allPrepared, h.nonempty, h.published, h.conserved, h.remaining, h.fired⟩

/-- A version of another switch, or of none, is retired. -/
theorem SameRetired.of_cons (h : s'.allRetired = r :: s.allRetired) (hr : r.ofSwitch c = false)
    (hcounted : s'.counted = s.counted) (hfinished : s'.finished = s.finished) :
    SameRetired s s' c := by
  refine ⟨?_, ?_, ?_⟩
  · rw [h, filter_cons, hr]
    exact List.Perm.refl _
  · unfold VersionGc.decremented
    rw [hcounted, hfinished]
  · unfold VersionGc.firing
    rw [hcounted]

/-! ## Moves between the stages -/

theorem count_erase_add {α : Type*} [DecidableEq α] {l : List α} {r : α} (hr : r ∈ l) (a : α) :
    (l.erase r).count a + (if r == a then 1 else 0) = l.count a := by
  rw [(perm_cons_erase hr).count_eq a, count_cons]

theorem retireVersion_perm (hr : r ∈ s.swapped) :
    allRetired { s with
      swapped := s.swapped.erase r
      retiredVersions := s.retiredVersions ++ [r] } |>.Perm s.allRetired := by
  refine perm_iff_count.2 fun a => ?_
  have := count_erase_add hr a
  simp only [allRetired, unreclaimed, reclaimed, count_append, count_cons,
    count_nil]
  omega

theorem submitVersionToHazptr_perm {rest : List RetiredVersion} (hr : s.retiredVersions = r :: rest) :
    allRetired { s with retiredVersions := rest, hazptr := r :: s.hazptr } |>.Perm
      s.allRetired := by
  refine perm_iff_count.2 fun a => ?_
  simp only [allRetired, unreclaimed, reclaimed, hr, count_append, count_cons]
  omega

theorem reclaim_perm (hr : r ∈ s.hazptr) :
    allRetired { s with
      live := s.live.erase r.version
      hazptr := s.hazptr.erase r
      deleted := r :: s.deleted } |>.Perm s.allRetired := by
  refine perm_iff_count.2 fun a => ?_
  have := count_erase_add hr a
  simp only [allRetired, unreclaimed, reclaimed, count_append, count_cons]
  omega

theorem fetchSub_perm (hr : r ∈ s.deleted) (before : Nat) :
    allRetired { s with
      deleted := s.deleted.erase r
      counted := (r, before) :: s.counted } |>.Perm s.allRetired := by
  refine perm_iff_count.2 fun a => ?_
  have := count_erase_add hr a
  simp only [allRetired, unreclaimed, reclaimed, map_cons, count_append,
    count_cons]
  omega

theorem fetchSub_none_perm (hr : r ∈ s.deleted) :
    allRetired { s with
      deleted := s.deleted.erase r
      finished := r :: s.finished } |>.Perm s.allRetired := by
  refine perm_iff_count.2 fun a => ?_
  have := count_erase_add hr a
  simp only [allRetired, unreclaimed, reclaimed, count_append, count_cons]
  omega

theorem onComplete_perm (hx : x ∈ s.counted) :
    allRetired { s with
      counted := s.counted.erase x
      finished := x.1 :: s.finished } |>.Perm s.allRetired := by
  refine perm_iff_count.2 fun a => ?_
  have hperm := ((perm_cons_erase hx).map Prod.fst).count_eq a
  simp only [map_cons, count_cons] at hperm
  simp only [allRetired, unreclaimed, reclaimed, count_append, count_cons]
  omega

/-! ## One step -/

theorem fetchSub_sameRetired (hr : r ∈ s.deleted) (hc : r.ofSwitch c = false) (before : Nat) :
    SameRetired s { s with
      deleted := s.deleted.erase r
      counted := (r, before) :: s.counted } c := by
  refine ⟨(fetchSub_perm hr before).filter _, ?_, ?_⟩
  · simp [VersionGc.decremented, hc]
  · simp [VersionGc.firing, hc]

theorem onComplete_decremented (hx : x ∈ s.counted) (c : Nat) :
    decremented { s with counted := s.counted.erase x, finished := x.1 :: s.finished } c =
      s.decremented c := by
  unfold decremented
  rw [(perm_cons_erase hx).countP_eq, countP_cons, countP_cons]
  dsimp only
  omega

theorem onComplete_firing (hx : x ∈ s.counted) (c : Nat) :
    firing { s with counted := s.counted.erase x, finished := x.1 :: s.finished } c +
      (if x.1.ofSwitch c && x.2 == 1 then 1 else 0) = s.firing c := by
  unfold firing
  rw [(perm_cons_erase hx).countP_eq, countP_cons]

/-- The reclaimers that have decremented are among the versions that were replaced. -/
theorem decremented_le (s : VersionGc) (c : Nat) :
    s.unreclaimed.countP (RetiredVersion.ofSwitch c) +
      s.deleted.countP (RetiredVersion.ofSwitch c) + s.decremented c =
        s.allRetired.countP (RetiredVersion.ofSwitch c) := by
  unfold decremented allRetired reclaimed
  rw [countP_append, countP_append, countP_append, countP_map]
  show _ + _ + (s.counted.countP (RetiredVersion.ofSwitch c ∘ Prod.fst) + _) = _
  omega

theorem countP_allRetired (h : Counts s c sw b) :
    s.allRetired.countP (RetiredVersion.ofSwitch c) = sw.replaced.length := by
  rw [countP_eq_length_filter, ← h.conserved.length_eq, length_map]

/-- A reclaimer that has not decremented yet finds the counter positive. -/
theorem remaining_pos (h : Counts s c sw b) (hr : r ∈ s.deleted) (hc : r.ofSwitch c = true) :
    0 < b.remaining := by
  have hpos : 0 < s.deleted.countP (RetiredVersion.ofSwitch c) := countP_pos_iff.2 ⟨r, hr, hc⟩
  have h1 := decremented_le s c
  have h2 := countP_allRetired h
  have h3 := h.published
  have h4 := h.remaining
  omega

theorem ofSwitch_eq_true : r.ofSwitch c = true ↔ r.batch = some c :=
  decide_eq_true_iff

theorem ofSwitch_eq_false {c c' : Nat} (h : r.batch = some c) (hc : c' ≠ c) :
    r.ofSwitch c' = false := by
  rw [RetiredVersion.ofSwitch, h]
  exact decide_eq_false fun heq => hc (some.inj heq).symm

theorem ofSwitch_none (h : r.batch = none) (c : Nat) : r.ofSwitch c = false := by
  rw [RetiredVersion.ofSwitch, h]
  exact decide_eq_false fun heq => by cases heq

/-- The batch of a version on its way is there. -/
theorem batch_of_mem (ha : Account s c) (hr : r ∈ s.allRetired) (hb : r.batch = some c) :
    ∃ b, (s.switches c).batch = some b ∧ Counts s c (s.switches c) b := by
  cases hsw : (s.switches c).batch with
  | none =>
    have := ((account_of_none hsw).1 ha).noRetired r hr
    rw [ofSwitch_eq_true.2 hb] at this
    cases this
  | some b => exact ⟨b, rfl, (account_of_some hsw).1 ha⟩

theorem mem_allRetired_of_deleted (hr : r ∈ s.deleted) : r ∈ s.allRetired := by
  simp [allRetired, reclaimed, hr]

theorem mem_allRetired_of_counted (hx : x ∈ s.counted) : x.1 ∈ s.allRetired := by
  have : x.1 ∈ s.counted.map Prod.fst := mem_map_of_mem hx
  simp [allRetired, reclaimed, this]

theorem account_publishPreparedVersion {c c' : Nat} (x : VId × PreparedVersion)
    (hx : x ∈ (s.switches c).toPublish) (hc : Account s c) (hc' : Account s c') :
    Account (s.publishPreparedVersion c x) c' := by
  have hb : ∃ b, (s.switches c).batch = some b ∧ Counts s c (s.switches c) b := by
    cases hsw : (s.switches c).batch with
    | none =>
      rw [((account_of_none hsw).1 hc).toPublish] at hx
      cases hx
    | some b => exact ⟨b, rfl, (account_of_some hsw).1 hc⟩
  obtain ⟨b, hsw, hcounts⟩ := hb
  unfold publishPreparedVersion
  dsimp only
  split_ifs
  · refine account_setSwitch hc' rfl (fun hne => ?_) fun heq => account_setSwitch_some hsw ?_
    · exact .of_cons rfl (ofSwitch_eq_false rfl hne) rfl rfl
    · have hlen := (perm_cons_erase hx).length_eq
      have hpub := hcounts.published
      refine ⟨hcounts.allPrepared, hcounts.nonempty, ?_, ?_, hcounts.remaining, hcounts.fired⟩
      · simp only [length_cons] at hlen ⊢
        omega
      · show (((RetiredVersion.mk x.2.expected (some c) :: s.allRetired).filter _).map _).Perm _
        rw [filter_cons, if_pos (ofSwitch_eq_true.2 rfl), map_cons]
        exact hcounts.conserved.cons _
  · refine account_setSwitch hc' rfl (fun hne => ?_) fun heq => account_setSwitch_some hsw ?_
    · exact .of_perm c' (List.Perm.refl _) rfl rfl
    · exact ⟨hcounts.allPrepared, hcounts.nonempty, hcounts.published, hcounts.conserved,
        hcounts.remaining, hcounts.fired⟩

/-- The counter starts at the number of prepared versions, and there is at least one. -/
theorem counts_publishVersionSwitch (h : Unstarted s c sw) (hm : sw.merged ≠ [])
    (hp : sw.toPrepare = []) :
    Counts s c { sw with
      batch := some ⟨sw.newLocations.length, 0⟩
      toPublish := sw.newLocations } ⟨sw.newLocations.length, 0⟩ := by
  have hlen := h.prepared
  rw [hp, length_nil, Nat.zero_add] at hlen
  have hpos : 0 < sw.newLocations.length := by
    rw [hlen]
    exact length_pos_iff.2 hm
  have hnone : s.allRetired.countP (RetiredVersion.ofSwitch c) = 0 := by
    rw [countP_eq_zero]
    intro r hr
    rw [h.noRetired r hr]
    decide
  have hdec := decremented_le s c
  refine ⟨hp, length_pos_iff.1 hpos, ?_, ?_, ?_, ?_⟩
  · rw [h.replaced]
    rfl
  · rw [h.replaced, filter_eq_nil_iff.2 (countP_eq_zero.1 hnone)]
    exact List.Perm.refl _
  · show sw.newLocations.length + s.decremented c = sw.newLocations.length
    omega
  · have hle : s.firing c ≤ s.decremented c := by
      unfold firing decremented
      refine le_trans (countP_mono_left fun x _ hx => ?_) (Nat.le_add_right _ _)
      exact (Bool.and_eq_true_iff.1 hx).1
    rw [if_neg (by show ¬ sw.newLocations.length = 0; omega)]
    show 0 + s.firing c = 0
    omega

theorem account_fetchSub {c' : Nat} (hr : r ∈ s.deleted) (ha : ∀ c, Account s c)
    (h : s.fetchSub r = some s') : Account s' c' := by
  unfold fetchSub at h
  cases hrb : r.batch with
  | none =>
    rw [hrb] at h
    obtain rfl := some.inj h
    refine SameRetired.account ⟨(fetchSub_none_perm hr).filter _, ?_, rfl⟩ rfl (ha c')
    simp [decremented, ofSwitch_none hrb]
  | some c =>
    rw [hrb] at h
    obtain ⟨b, hsw, hcounts⟩ := batch_of_mem (ha c) (mem_allRetired_of_deleted hr) hrb
    dsimp only at h
    rw [hsw] at h
    obtain rfl := some.inj h
    have hof := ofSwitch_eq_true.2 hrb
    have hpos := remaining_pos hcounts hr hof
    refine account_setSwitch (ha c') rfl (fun hne => ?_) fun heq => account_setSwitch_some rfl ?_
    · exact fetchSub_sameRetired hr (ofSwitch_eq_false hrb hne) _
    · have hrem := hcounts.remaining
      have hfired := hcounts.fired
      rw [if_neg (by omega)] at hfired
      refine ⟨hcounts.allPrepared, hcounts.nonempty, hcounts.published,
        (((fetchSub_perm hr _).filter _).map _).trans hcounts.conserved, ?_, ?_⟩
      · unfold decremented at hrem ⊢
        rw [countP_cons_of_pos (by exact hof)]
        dsimp only
        omega
      · -- the reclaimer that saw the counter at one is the one that will call
        unfold firing at hfired ⊢
        rw [countP_cons]
        simp only [hof, Bool.true_and, beq_iff_eq]
        split_ifs <;> omega

theorem account_onComplete {c' : Nat} (hx : x ∈ s.counted) (ha : ∀ c, Account s c)
    (h : s.onComplete x = some s') : Account s' c' := by
  have hsame : ∀ c, (x.1.ofSwitch c && x.2 == 1) = false → SameRetired s
      { s with counted := s.counted.erase x, finished := x.1 :: s.finished } c := by
    intro c hc
    refine ⟨(onComplete_perm hx).filter _, onComplete_decremented hx c, ?_⟩
    have hf := onComplete_firing hx c
    rw [hc] at hf
    exact hf
  unfold onComplete at h
  dsimp only at h
  cases hrb : x.1.batch with
  | none =>
    rw [hrb] at h
    obtain rfl := some.inj h
    exact (hsame c' (by rw [ofSwitch_none hrb]; rfl)).account rfl (ha c')
  | some c =>
    rw [hrb] at h
    dsimp only at h
    split_ifs at h with hone
    · obtain ⟨b, hsw, hcounts⟩ := batch_of_mem (ha c) (mem_allRetired_of_counted hx) hrb
      rw [hsw] at h
      obtain rfl := some.inj h
      refine account_setSwitch (ha c') rfl (fun hne => ?_) fun heq => account_setSwitch_some rfl ?_
      · exact hsame c' (by rw [ofSwitch_eq_false hrb hne]; rfl)
      · have hf := onComplete_firing hx c
        rw [ofSwitch_eq_true.2 hrb, hone, if_pos (by decide)] at hf
        have hfired := hcounts.fired
        refine ⟨hcounts.allPrepared, hcounts.nonempty, hcounts.published,
          (((onComplete_perm hx).filter _).map _).trans hcounts.conserved, ?_, ?_⟩
        · rw [onComplete_decremented hx]
          exact hcounts.remaining
        · dsimp only
          rw [← hfired]
          omega
    · obtain rfl := some.inj h
      exact (hsame c' (by simp [hone])).account rfl (ha c')

/-- Every step keeps the books. -/
theorem account_step {e : GcEvent} (ha : ∀ c, Account s c) (h : s.step e = some s') (c : Nat) :
    Account s' c := by
  cases e with
  | protect v =>
    obtain rfl := some.inj h
    exact SameRetired.account (s := s) (.of_perm c (List.Perm.refl _) rfl rfl) rfl (ha c)
  | drop a =>
    simp only [step] at h
    split_ifs at h
    obtain rfl := some.inj h
    exact SameRetired.account (s := s) (.of_perm c (List.Perm.refl _) rfl rfl) rfl (ha c)
  | consolidate c' merged =>
    simp only [step] at h
    split_ifs at h with hidle
    obtain rfl := some.inj h
    have hu := (account_of_none (c := c') (by rw [hidle.1]; rfl)).1 (ha c')
    refine account_setSwitch (ha c) rfl (fun _ => .of_perm c (List.Perm.refl _) rfl rfl)
      fun _ => account_setSwitch_none rfl ⟨?_, rfl, rfl, hu.noRetired⟩
    exact Nat.add_zero _
  | prepareVertexVersion c' v a =>
    simp only [step] at h
    split_ifs at h with hg
    obtain rfl := some.inj h
    refine account_setSwitch (ha c) rfl (fun _ => .of_perm c (List.Perm.refl _) rfl rfl) fun _ => ?_
    cases hsw : (s.switches c').batch with
    | none =>
      have hu := (account_of_none hsw).1 (ha c')
      refine account_setSwitch_none rfl ⟨?_, hu.toPublish, hu.replaced, hu.noRetired⟩
      have hlen := (perm_cons_erase hg.1).length_eq
      have hprep := hu.prepared
      simp only [length_cons, length_append, length_nil] at hlen ⊢
      omega
    | some b =>
      have hcounts := (account_of_some hsw).1 (ha c')
      rw [hcounts.allPrepared] at hg
      cases hg.1
  | publishVersionSwitch c' =>
    simp only [step] at h
    split_ifs at h with hg
    obtain rfl := some.inj h
    refine account_setSwitch (ha c) rfl (fun _ => .of_perm c (List.Perm.refl _) rfl rfl)
      fun _ => account_setSwitch_some rfl ?_
    exact counts_publishVersionSwitch ((account_of_none hg.2.2).1 (ha c')) hg.1 hg.2.1
  | publishPreparedVersion c' x =>
    simp only [step] at h
    split_ifs at h with hg
    obtain rfl := some.inj h
    exact account_publishPreparedVersion x hg.1 (ha c') (ha c)
  | updateVertexLoc v a =>
    simp only [step] at h
    split_ifs at h
    obtain rfl := some.inj h
    exact SameRetired.account (.of_cons rfl (ofSwitch_none rfl c) rfl rfl) rfl (ha c)
  | retireVersion r =>
    simp only [step] at h
    split_ifs at h with hr
    obtain rfl := some.inj h
    exact SameRetired.account (.of_perm c (retireVersion_perm hr) rfl rfl) rfl (ha c)
  | submitVersionToHazptr =>
    simp only [step] at h
    split at h
    · cases h
    · rename_i r rest hr
      obtain rfl := some.inj h
      exact SameRetired.account (.of_perm c (submitVersionToHazptr_perm hr) rfl rfl) rfl (ha c)
  | reclaim r =>
    simp only [step] at h
    split_ifs at h with hr
    obtain rfl := some.inj h
    exact SameRetired.account (.of_perm c (reclaim_perm hr.1) rfl rfl) rfl (ha c)
  | fetchSub r =>
    simp only [step] at h
    split_ifs at h with hr
    exact account_fetchSub hr ha h
  | onComplete x =>
    simp only [step] at h
    split_ifs at h with hx
    exact account_onComplete hx ha h

end

theorem account_run {cur : VId → Nat} {live protections : List Nat} {es : List GcEvent}
    (run : runAll step (start cur live protections) es = some s) (c : Nat) : Account s c := by
  have hrun := Steps.of_runAll (R := fun s e s' => s.step e = some s') (fun _ _ _ h => h) run
  refine hrun.inv (fun _ s => ∀ c, Account s c) (fun c => ?_) (fun _ s e s' ha h => ?_) c
  · refine (account_of_none rfl).2 ⟨rfl, rfl, rfl, fun r hr => ?_⟩
    cases hr
  · exact account_step ha h

/-! ## The callback -/

/-- The steps of the GC threads and of the reclaimers, and readers that let go. -/
def reclaims : GcEvent → Bool
  | .drop _ => true
  | .retireVersion _ => true
  | .submitVersionToHazptr => true
  | .reclaim _ => true
  | .fetchSub _ => true
  | .onComplete _ => true
  | _ => false

/-- How many such steps there are at most. -/
def work (s : VersionGc) : Nat :=
  5 * s.swapped.length + 4 * s.retiredVersions.length + 3 * s.hazptr.length +
    2 * s.deleted.length + s.counted.length + s.protections.length

/-- Nothing about the publications of a switch changed. -/
def SamePublished (s s' : VersionGc) : Prop :=
  ∀ c, (s'.switches c).toPublish = (s.switches c).toPublish ∧
    (s'.switches c).batch.isSome = (s.switches c).batch.isSome

theorem samePublished_setSwitch {s s1 : VersionGc} {b b' : ReclaimBatch}
    (hsw : s1.switches = s.switches) (hb : (s.switches c).batch = some b) :
    SamePublished s (s1.setSwitch c { s.switches c with batch := some b' }) := by
  intro c'
  by_cases hc : c' = c
  · subst hc
    rw [switches_setSwitch_self, hb]
    exact ⟨rfl, rfl⟩
  · rw [switches_setSwitch_ne _ hc, hsw]
    exact ⟨rfl, rfl⟩

theorem length_erase_lt {α : Type*} [BEq α] [LawfulBEq α] {l : List α} {a : α} (h : a ∈ l) :
    (l.erase a).length + 1 = l.length := (perm_cons_erase h).length_eq.symm

section

variable (ha : ∀ c, Account s c)
include ha

theorem fetchSub_progress (hr : r ∈ s.deleted) :
    ∃ s', s.fetchSub r = some s' ∧ s'.work < s.work ∧ SamePublished s s' := by
  have hlen := length_erase_lt hr
  unfold fetchSub
  cases hrb : r.batch with
  | none =>
    refine ⟨_, rfl, ?_, fun c => ⟨rfl, rfl⟩⟩
    unfold work
    dsimp only
    omega
  | some c =>
    obtain ⟨b, hsw, -⟩ := batch_of_mem (ha c) (mem_allRetired_of_deleted hr) hrb
    dsimp only
    rw [hsw]
    refine ⟨_, rfl, ?_, samePublished_setSwitch rfl hsw⟩
    unfold work setSwitch
    simp only [length_cons]
    omega

theorem onComplete_progress (hx : x ∈ s.counted) :
    ∃ s', s.onComplete x = some s' ∧ s'.work < s.work ∧ SamePublished s s' := by
  have hlen := length_erase_lt hx
  have hwork : work { s with counted := s.counted.erase x, finished := x.1 :: s.finished } <
      s.work := by
    unfold work
    dsimp only
    omega
  unfold onComplete
  dsimp only
  cases hrb : x.1.batch with
  | none => exact ⟨_, rfl, hwork, fun c => ⟨rfl, rfl⟩⟩
  | some c =>
    dsimp only
    split_ifs
    · obtain ⟨b, hsw, -⟩ := batch_of_mem (ha c) (mem_allRetired_of_counted hx) hrb
      rw [hsw]
      exact ⟨_, rfl, hwork, samePublished_setSwitch rfl hsw⟩
    · exact ⟨_, rfl, hwork, fun c => ⟨rfl, rfl⟩⟩

/-- While a retired version is on its way, some thread can take a step. -/
theorem exists_reclaims (hw : 0 < s.work) :
    ∃ e s', reclaims e = true ∧ s.step e = some s' ∧ s'.work < s.work ∧ SamePublished s s' := by
  cases hswapped : s.swapped with
  | cons r l =>
    have hr : r ∈ s.swapped := by
      rw [hswapped]
      exact mem_cons_self
    have hlen := length_erase_lt hr
    refine ⟨.retireVersion r, _, rfl, if_pos hr, ?_, fun c => ⟨rfl, rfl⟩⟩
    unfold work
    simp only [length_append, length_cons, length_nil]
    omega
  | nil =>
  cases hqueue : s.retiredVersions with
  | cons r l =>
    refine ⟨.submitVersionToHazptr, { s with retiredVersions := l, hazptr := r :: s.hazptr }, rfl,
      ?_, ?_, fun c => ⟨rfl, rfl⟩⟩
    · simp only [step, hqueue]
    · unfold work
      simp only [hqueue, length_cons]
      omega
  | nil =>
  cases hprot : s.protections with
  | cons a l =>
    have hr : a ∈ s.protections := by
      rw [hprot]
      exact mem_cons_self
    have hlen := length_erase_lt hr
    refine ⟨.drop a, _, rfl, if_pos hr, ?_, fun c => ⟨rfl, rfl⟩⟩
    unfold work
    dsimp only
    omega
  | nil =>
  cases hhaz : s.hazptr with
  | cons r l =>
    have hr : r ∈ s.hazptr := by
      rw [hhaz]
      exact mem_cons_self
    have hlen := length_erase_lt hr
    refine ⟨.reclaim r, _, rfl, if_pos ⟨hr, by simp [hprot]⟩, ?_, fun c => ⟨rfl, rfl⟩⟩
    unfold work
    simp only [length_cons]
    omega
  | nil =>
  cases hdel : s.deleted with
  | cons r l =>
    have hr : r ∈ s.deleted := by
      rw [hdel]
      exact mem_cons_self
    obtain ⟨s', hs', hlt, hsame⟩ := fetchSub_progress ha hr
    exact ⟨.fetchSub r, s', rfl, (if_pos hr).trans hs', hlt, hsame⟩
  | nil =>
  cases hcnt : s.counted with
  | cons x l =>
    have hx : x ∈ s.counted := by
      rw [hcnt]
      exact mem_cons_self
    obtain ⟨s', hs', hlt, hsame⟩ := onComplete_progress ha hx
    exact ⟨.onComplete x, s', rfl, (if_pos hx).trans hs', hlt, hsame⟩
  | nil =>
    unfold work at hw
    simp [hswapped, hqueue, hprot, hhaz, hdel, hcnt] at hw

end

/-- All of them can be taken to the end. -/
theorem exists_reclaims_all (n : Nat) (hn : s.work ≤ n) (ha : ∀ c, Account s c) :
    ∃ es s', (∀ e ∈ es, reclaims e = true) ∧ runAll step s es = some s' ∧ s'.work = 0 ∧
      SamePublished s s' ∧ ∀ c, Account s' c := by
  induction n generalizing s with
  | zero =>
    refine ⟨[], s, ?_, rfl, Nat.le_zero.1 hn, fun c => ⟨rfl, rfl⟩, ha⟩
    intro e he
    cases he
  | succ n ih =>
    rcases Nat.eq_zero_or_pos s.work with h0 | hpos
    · exact ih (by omega) ha
    · obtain ⟨e, s1, he, hs1, hlt, hsame⟩ := exists_reclaims ha hpos
      obtain ⟨es, s', hes, hrun, hwork, hsame', ha'⟩ := ih (by omega) (account_step ha hs1)
      refine ⟨e :: es, s', ?_, ?_, hwork, fun c => ?_, ha'⟩
      · rw [forall_mem_cons]
        exact ⟨he, hes⟩
      · rw [runAll, hs1]
        exact hrun
      · exact ⟨(hsame' c).1.trans (hsame c).1, (hsame' c).2.trans (hsame c).2⟩

/-- Once the reclaimers of a batch are done, its callback was called once. -/
theorem fired_eq_one (h : Counts s c sw b) (hpub : sw.toPublish = [])
    (hdone : ∀ r ∈ s.unreclaimed ++ s.deleted ++ s.counted.map Prod.fst, r.batch ≠ some c) :
    b.fired = 1 := by
  have hzero : ∀ l : List RetiredVersion,
      (∀ r ∈ l, r ∈ s.unreclaimed ++ s.deleted ++ s.counted.map Prod.fst) →
        l.countP (RetiredVersion.ofSwitch c) = 0 := by
    intro l hl
    rw [countP_eq_zero]
    exact fun r hr hc => hdone r (hl r hr) (ofSwitch_eq_true.1 hc)
  have h1 := hzero s.unreclaimed fun r hr => by simp [hr]
  have h2 := hzero s.deleted fun r hr => by simp [hr]
  have h3 : s.firing c = 0 := by
    refine countP_eq_zero.2 fun x hx hc => ?_
    refine hdone x.1 ?_ (ofSwitch_eq_true.1 (Bool.and_eq_true_iff.1 hc).1)
    have : x.1 ∈ s.counted.map Prod.fst := mem_map_of_mem hx
    simp [this]
  have hdec := decremented_le s c
  have hall := countP_allRetired h
  have hp := h.published
  have hrem := h.remaining
  have hfired := h.fired
  rw [hpub, length_nil] at hp
  rw [if_pos (by omega)] at hfired
  omega

/-- For every interleaving and every switch whose vertices are all published: `on_complete` is
called at most once, and not before every version that the switch replaced is deleted. It has been
called once when the reclaimers of these versions are done, and the steps that are left can always
be taken until then. -/
theorem onComplete_run {cur : VId → Nat} {live protections : List Nat} {es : List GcEvent}
    {s : VersionGc} (run : runAll step (start cur live protections) es = some s) {c : Nat}
    {b : ReclaimBatch} (hb : (s.switches c).batch = some b)
    (hpub : (s.switches c).toPublish = []) :
    b.fired ≤ 1 ∧
    (b.fired = 1 → ((s.reclaimed.filter (RetiredVersion.ofSwitch c)).map
      RetiredVersion.version).Perm (s.switches c).replaced) ∧
    ((∀ r ∈ s.unreclaimed ++ s.deleted ++ s.counted.map Prod.fst, r.batch ≠ some c) →
      b.fired = 1) ∧
    ∃ es' s' b', (∀ e ∈ es', reclaims e = true) ∧ runAll step s es' = some s' ∧
      (s'.switches c).batch = some b' ∧ b'.fired = 1 := by
  have ha := account_run run
  have hcounts := (account_of_some hb).1 (ha c)
  have hfired := hcounts.fired
  refine ⟨?_, fun hone => ?_, fired_eq_one hcounts hpub, ?_⟩
  · split_ifs at hfired <;> omega
  · -- the counter is at zero, so all reclaimers of the batch have decremented it
    have hzero : b.remaining = 0 := by
      by_contra hne
      rw [if_neg hne] at hfired
      omega
    have hdec := decremented_le s c
    have hall := countP_allRetired hcounts
    have hp := hcounts.published
    have hrem := hcounts.remaining
    rw [hpub, length_nil] at hp
    have hun : s.unreclaimed.countP (RetiredVersion.ofSwitch c) = 0 := by omega
    have hperm := hcounts.conserved
    rw [allRetired, filter_append,
      filter_eq_nil_iff.2 (countP_eq_zero.1 hun), nil_append] at hperm
    exact hperm
  · obtain ⟨es', s', hes, hrun, hwork, hsame, ha'⟩ := exists_reclaims_all s.work le_rfl ha
    have hsome := (hsame c).2
    rw [hb] at hsome
    obtain ⟨b', hb'⟩ := Option.isSome_iff_exists.1 hsome
    refine ⟨es', s', b', hes, hrun, hb', ?_⟩
    refine fired_eq_one ((account_of_some hb').1 (ha' c)) ((hsame c).1.trans hpub) ?_
    intro r hr
    unfold work at hwork
    have hnil : ∀ {α : Type} {l : List α}, l.length = 0 → l = [] := length_eq_zero_iff.1
    rw [unreclaimed, hnil (show s'.swapped.length = 0 by omega),
      hnil (show s'.retiredVersions.length = 0 by omega),
      hnil (show s'.hazptr.length = 0 by omega), hnil (show s'.deleted.length = 0 by omega),
      hnil (show s'.counted.length = 0 by omega)] at hr
    cases hr

/-- Two switches on different vertices while a reader holds the old version of vertex 0. -/
def twoSwitches : List GcEvent :=
  [.protect 0, .consolidate 0 [0, 1], .prepareVertexVersion 0 0 10, .prepareVertexVersion 0 1 11,
    .consolidate 1 [2], .prepareVertexVersion 1 2 12, .publishVersionSwitch 0,
    .publishVersionSwitch 1, .publishPreparedVersion 1 (2, ⟨2, 12⟩),
    .publishPreparedVersion 0 (1, ⟨1, 11⟩), .publishPreparedVersion 0 (0, ⟨0, 10⟩),
    .retireVersion ⟨1, some 0⟩, .retireVersion ⟨2, some 1⟩, .retireVersion ⟨0, some 0⟩,
    .submitVersionToHazptr, .submitVersionToHazptr, .submitVersionToHazptr,
    .reclaim ⟨1, some 0⟩, .reclaim ⟨2, some 1⟩, .fetchSub ⟨2, some 1⟩, .fetchSub ⟨1, some 0⟩,
    .onComplete (⟨2, some 1⟩, 1), .onComplete (⟨1, some 0⟩, 2)]

/-- In this run the batch of switch 1 has fired, and that of switch 0 waits for the reader. -/
theorem onComplete_run_twoSwitches :
    ∃ s b, runAll step (start id [0, 1, 2] []) twoSwitches = some s ∧
      (s.switches 0).batch = some b ∧ b.fired = 0 ∧ b.fired ≤ 1 ∧
      ∃ es' s' b', (∀ e ∈ es', reclaims e = true) ∧ runAll step s es' = some s' ∧
        (s'.switches 0).batch = some b' ∧ b'.fired = 1 := by
  have hrun : (runAll step (start id [0, 1, 2] []) twoSwitches).map
      (fun s => ((s.switches 0).batch, (s.switches 0).toPublish)) = some (some ⟨1, 0⟩, []) := by
    decide +kernel
  obtain ⟨s, hs, hsw⟩ := Option.map_eq_some_iff.1 hrun
  obtain ⟨hb, hpub⟩ := Prod.mk.inj hsw
  have h := onComplete_run hs hb hpub
  exact ⟨s, _, hs, hb, rfl, h.1, h.2.2.2⟩

end VersionGc

end BwGraph
