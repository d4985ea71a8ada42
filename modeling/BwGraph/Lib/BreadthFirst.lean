import Mathlib.Data.List.Nodup
import Mathlib.Data.List.Pairwise
import BwGraph.Lib.Walk

/-
  Breadth-first searches with restarts. A search lists the vertices it reaches outside of what
  earlier searches listed (`Segment`); searches one after the other give a list of segments
  (`Segmented`). `Searching` is the queue invariant: the vertices listed and waiting, in this
  order, have ascending levels, and the waiting ones are at most one level apart. One vertex is
  moved from the queue to the list and its new neighbours are appended (`Searching.step`); with
  the queue empty the list is a segment (`Searching.segment`). Distances are those of the whole
  graph: what was listed before is closed, so no way leads through it. Finished searches are
`Settled`.
-/

namespace BreadthFirst

open Walk List

variable {α : Type*} {adj : α → α → Prop} {earlier : List α}

/-- A step to a vertex that was not listed before. -/
def Fresh (adj : α → α → Prop) (earlier : List α) (u v : α) : Prop := adj u v ∧ v ∉ earlier

/-- No step leads out of the list. -/
def Closed (adj : α → α → Prop) (earlier : List α) : Prop :=
  ∀ u ∈ earlier, ∀ v, adj u v → v ∈ earlier

/-- A vertex that was not listed before and the vertices that are reached from it through such
vertices, in non-decreasing distance. -/
def Segment (adj : α → α → Prop) (earlier seg : List α) : Prop :=
  ∃ s rest, seg = s :: rest ∧ s ∉ earlier ∧
    (∀ v, v ∈ seg ↔ Relation.ReflTransGen (Fresh adj earlier) s v) ∧
    seg.Pairwise fun u v => ∃ d d', Dist adj s u d ∧ Dist adj s v d' ∧ d ≤ d'

/-- Each list is a segment after those before it. -/
def Segmented (adj : α → α → Prop) (segs : List (List α)) : Prop :=
  ∀ before seg after, segs = before ++ seg :: after → Segment adj before.flatten seg

theorem segmented_nil (adj : α → α → Prop) : Segmented adj [] := by
  intro before seg after h
  cases before <;> cases h

variable {segs : List (List α)} {d : Nat}

theorem Segmented.concat (h : Segmented adj segs) {seg : List α} (hs : Segment adj segs.flatten seg) :
    Segmented adj (segs ++ [seg]) := by
  intro before seg' after heq
  rcases eq_nil_or_concat after with rfl | ⟨after, last, rfl⟩
  · obtain ⟨rfl, hseg⟩ := append_inj' heq rfl
    obtain rfl := (List.cons.inj hseg).1
    exact hs
  · have hassoc : before ++ seg' :: (after ++ [last]) = (before ++ seg' :: after) ++ [last] := by
      rw [append_assoc, cons_append]
    rw [concat_eq_append, hassoc] at heq
    exact h before seg' after (append_inj' heq rfl).1

/-! ## Ways around what was listed -/

theorem reflTransGen_iff_hops {s v : α} : Relation.ReflTransGen adj s v ↔ ∃ d, Hops adj s d v := by
  constructor
  · intro h
    induction h with
    | refl => exact ⟨0, rfl⟩
    | tail _ huv ih =>
      obtain ⟨d, hd⟩ := ih
      exact ⟨d + 1, _, hd, huv⟩
  · rintro ⟨d, hd⟩
    induction d generalizing v with
    | zero =>
      obtain rfl : v = s := hd
      exact .refl
    | succ d ih =>
      obtain ⟨u, hu, huv⟩ := hd
      exact (ih hu).tail huv

theorem Hops.of_fresh {s v : α} (h : Hops (Fresh adj earlier) s d v) : Hops adj s d v := by
  induction d generalizing v with
  | zero => exact h
  | succ d ih =>
    obtain ⟨u, hu, huv⟩ := h
    exact ⟨u, ih hu, huv.1⟩

/-- A way to a vertex outside of a closed list does not meet it. -/
theorem Hops.fresh (hc : Closed adj earlier) {s v : α} (h : Hops adj s d v) (hv : v ∉ earlier) :
    Hops (Fresh adj earlier) s d v := by
  induction d generalizing v with
  | zero => exact h
  | succ d ih =>
    obtain ⟨u, hu, huv⟩ := h
    exact ⟨u, ih hu fun hm => hv (hc u hm v huv), huv, hv⟩

theorem Dist.of_fresh (hc : Closed adj earlier) {s v : α} (h : Dist (Fresh adj earlier) s v d)
    (hv : v ∉ earlier) : Dist adj s v d :=
  ⟨Hops.of_fresh h.1, fun d' hd' hh => h.2 d' hd' (Hops.fresh hc hh hv)⟩

/-! ## The queue invariant -/

/-- A search from `s` that has listed `out`; `queue` is waiting. -/
structure Searching (adj : α → α → Prop) (earlier : List α) (s : α) (level : α → Nat)
    (out queue : List α) : Prop where
  head : ∃ rest, out ++ queue = s :: rest
  zero : level s = 0
  nodup : (out ++ queue).Nodup
  fresh : ∀ v ∈ out ++ queue, v ∉ earlier
  hops : ∀ v ∈ out ++ queue, Hops (Fresh adj earlier) s (level v) v
  closed : ∀ u ∈ out, ∀ v, Fresh adj earlier u v → v ∈ out ++ queue ∧ level v ≤ level u + 1
  sorted : (out ++ queue).Pairwise fun u v => level u ≤ level v
  bound : ∀ u ∈ queue.head?, ∀ v ∈ queue, level v ≤ level u + 1

variable {s : α} {level : α → Nat} {out queue : List α}

/-- A search starts at a vertex that was not listed. -/
theorem Searching.start (hs : s ∉ earlier) : Searching adj earlier s (fun _ => 0) [] [s] where
  head := ⟨[], rfl⟩
  zero := rfl
  nodup := nodup_singleton s
  fresh := fun v hv => mem_singleton.1 hv ▸ hs
  hops := fun v hv => mem_singleton.1 hv
  closed := fun u hu => by cases hu
  sorted := pairwise_singleton _ _
  bound := fun _ _ _ _ => Nat.zero_le _

/-- The first vertex of the queue is listed, its new neighbours are queued one level below it. -/
theorem Searching.step [DecidableEq α] {u : α} {rest new : List α}
    (h : Searching adj earlier s level out (u :: rest)) (hnd : new.Nodup)
    (hnew : ∀ v, v ∈ new ↔ Fresh adj earlier u v ∧ v ∉ out ++ u :: rest) :
    Searching adj earlier s (fun v => if v ∈ new then level u + 1 else level v) (out ++ [u])
      (rest ++ new) := by
  have hlist : (out ++ [u]) ++ (rest ++ new) = (out ++ u :: rest) ++ new := by simp
  have hold : ∀ v ∈ out ++ u :: rest, v ∉ new := fun v hv hn => ((hnew v).1 hn).2 hv
  have hlevel : ∀ v ∈ out ++ u :: rest, (if v ∈ new then level u + 1 else level v) = level v :=
    fun v hv => if_neg (hold v hv)
  have hu : u ∈ out ++ u :: rest := mem_append_right _ mem_cons_self
  obtain ⟨hso, hsq, hcross⟩ := pairwise_append.1 h.sorted
  -- no vertex of the search is more than one level below the first waiting one
  have hmax : ∀ v ∈ out ++ u :: rest, level v ≤ level u + 1 := by
    intro v hv
    rcases mem_append.1 hv with hv | hv
    · exact Nat.le_succ_of_le (hcross v hv u mem_cons_self)
    · exact h.bound u rfl v hv
  constructor
  · obtain ⟨tail, ht⟩ := h.head
    exact ⟨tail ++ new, by rw [hlist, ht, cons_append]⟩
  · have hs : s ∈ out ++ u :: rest := by
      obtain ⟨tail, ht⟩ := h.head
      rw [ht]
      exact mem_cons_self
    rw [hlevel s hs]
    exact h.zero
  · rw [hlist]
    exact nodup_append.2 ⟨h.nodup, hnd, fun a ha b hb he => hold a ha (he ▸ hb)⟩
  · intro v hv
    rw [hlist] at hv
    rcases mem_append.1 hv with hv | hv
    · exact h.fresh v hv
    · exact ((hnew v).1 hv).1.2
  · intro v hv
    rw [hlist] at hv
    rcases mem_append.1 hv with hv | hv
    · rw [hlevel v hv]
      exact h.hops v hv
    · rw [if_pos hv]
      exact ⟨u, h.hops u hu, ((hnew v).1 hv).1⟩
  · intro w hw v hwv
    rw [hlist]
    have hw' : w ∈ out ++ u :: rest := by
      rcases mem_append.1 hw with hw | hw
      · exact mem_append_left _ hw
      · rw [mem_singleton.1 hw]
        exact hu
    rw [hlevel w hw']
    by_cases hv : v ∈ out ++ u :: rest
    · refine ⟨mem_append_left _ hv, ?_⟩
      rw [hlevel v hv]
      rcases mem_append.1 hw with hw | hw
      · exact (h.closed w hw v hwv).2
      · rw [mem_singleton.1 hw]
        exact hmax v hv
    · rcases mem_append.1 hw with hw | hw
      · exact absurd (h.closed w hw v hwv).1 hv
      · rw [mem_singleton.1 hw] at hwv ⊢
        have hn : v ∈ new := (hnew v).2 ⟨hwv, hv⟩
        exact ⟨mem_append_right _ hn, by rw [if_pos hn]⟩
  · rw [hlist]
    refine pairwise_append.2 ⟨?_, ?_, fun a ha b hb => ?_⟩
    · refine h.sorted.imp_of_mem fun {a b} ha hb hab => ?_
      rw [hlevel a ha, hlevel b hb]
      exact hab
    · refine (pairwise_of_forall_mem_list fun a ha b hb => ?_)
      rw [if_pos ha, if_pos hb]
    · rw [hlevel a ha, if_pos hb]
      exact hmax a ha
  · intro w hw v hv
    have hlow : level u ≤ if w ∈ new then level u + 1 else level w := by
      split_ifs with hn
      · exact Nat.le_succ _
      · have hmem := mem_of_mem_head? hw
        rcases mem_append.1 hmem with hm | hm
        · exact (pairwise_cons.1 hsq).1 w hm
        · exact absurd hm hn
    have hup : (if v ∈ new then level u + 1 else level v) ≤ level u + 1 := by
      split_ifs with hn
      · exact Nat.le_refl _
      · rcases mem_append.1 hv with hv | hv
        · exact hmax v (mem_append_right _ (mem_cons_of_mem u hv))
        · exact absurd hv hn
    omega

section

variable (h : Searching adj earlier s level out []) (hc : Closed adj earlier)
include h hc

/-- With the queue empty the search is done. -/
theorem Searching.segment : Segment adj earlier out := by
  have hout : out ++ [] = out := append_nil out
  obtain ⟨rest, hrest⟩ := h.head
  rw [hout] at hrest
  have hfresh : ∀ v ∈ out, v ∉ earlier := fun v hv => h.fresh v (by rw [hout]; exact hv)
  have hs : s ∈ out := hrest ▸ mem_cons_self
  have hlevels : Levels (Fresh adj earlier) s (· ∈ out) level := by
    refine ⟨⟨hs, h.zero⟩, fun v hv => h.hops v (by rw [hout]; exact hv), fun u v hu huv => ?_⟩
    have := h.closed u hu v huv
    rwa [hout] at this
  have hdist : ∀ v ∈ out, Dist adj s v (level v) := fun v hv =>
    Dist.of_fresh hc ((hlevels.eq_dist v (level v)).1 ⟨hv, rfl⟩) (hfresh v hv)
  refine ⟨s, rest, hrest, hfresh s hs, fun v => ?_, ?_⟩
  · rw [reflTransGen_iff_hops]
    constructor
    · exact fun hv => ⟨level v, hlevels.hops v hv⟩
    · rintro ⟨d, hd⟩
      exact (hlevels.le hd).1
  · have hsorted := h.sorted
    rw [hout] at hsorted
    exact hsorted.imp_of_mem fun {a b} ha hb hab => ⟨_, _, hdist a ha, hdist b hb, hab⟩

/-- What a finished search and the earlier ones listed is closed. -/
theorem Searching.closed_append : Closed adj (earlier ++ out) := by
  intro u hu v huv
  by_cases hv : v ∈ earlier
  · exact mem_append_left _ hv
  · rcases mem_append.1 hu with hu | hu
    · exact absurd (hc u hu v huv) hv
    · have := (h.closed u hu v ⟨huv, hv⟩).1
      rw [append_nil] at this
      exact mem_append_right _ this

end

/-! ## Searches one after the other -/

/-- Finished searches: segments that list no vertex twice and leave no step out of them. -/
structure Settled (adj : α → α → Prop) (segs : List (List α)) : Prop where
  segmented : Segmented adj segs
  closed : Closed adj segs.flatten
  nodup : segs.flatten.Nodup

theorem Settled.nil (adj : α → α → Prop) : Settled adj [] :=
  ⟨segmented_nil adj, fun u hu => (by cases hu), nodup_nil⟩

/-- A search with an empty queue is one more of them. -/
theorem Settled.concat (h : Settled adj segs) (hs : Searching adj segs.flatten s level out []) :
    Settled adj (segs ++ [out]) := by
  have hflat : (segs ++ [out]).flatten = segs.flatten ++ out := by simp
  refine ⟨h.segmented.concat (hs.segment h.closed), ?_, ?_⟩
  · rw [hflat]
    exact hs.closed_append h.closed
  · rw [hflat]
    have hnd := hs.nodup
    rw [append_nil] at hnd
    refine nodup_append.2 ⟨h.nodup, hnd, fun a ha b hb he => ?_⟩
    exact hs.fresh b (mem_append_left _ hb) (he ▸ ha)

end BreadthFirst
