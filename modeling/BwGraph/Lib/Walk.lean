import Mathlib.Combinatorics.Pigeonhole
import Mathlib.Data.Nat.Find
import Mathlib.Logic.Relation
import Mathlib.Order.Bounds.Basic

/-
  Hop distances and components of a relation. `Hops adj s d v` says that `v` is reached from `s` in
  exactly `d` steps, `Dist` that this is the least number of steps. `Levels` are the labels that a
  breadth-first search has to produce; they are the distances (`Levels.eq_dist`). `LeastOf` picks
  the least member of the weak component of a vertex; labels that agree along the edges and are
  members of the component below their vertex are that member (`leastOf_of_fixed`).
-/

namespace Walk

variable {α : Type*} {adj : α → α → Prop}

/-- `v` is reached from `s` in `d` steps. -/
def Hops (adj : α → α → Prop) (s : α) : Nat → α → Prop
  | 0, v => v = s
  | d + 1, v => ∃ u, Hops adj s d u ∧ adj u v

/-- The least number of steps to `v`. -/
def Dist (adj : α → α → Prop) (s v : α) (d : Nat) : Prop :=
  Hops adj s d v ∧ ∀ d' < d, ¬ Hops adj s d' v

variable {s v : α}

theorem Dist.unique {d d' : Nat} (h : Dist adj s v d) (h' : Dist adj s v d') : d = d' := by
  rcases Nat.lt_trichotomy d d' with hlt | heq | hlt
  · exact absurd h.1 (h'.2 d hlt)
  · exact heq
  · exact absurd h'.1 (h.2 d' hlt)

variable {d : Nat}

theorem Hops.exists_dist (h : Hops adj s d v) : ∃ d' ≤ d, Dist adj s v d' := by
  classical
  have hex : ∃ d, Hops adj s d v := ⟨d, h⟩
  exact ⟨Nat.find hex, Nat.find_min' hex h, Nat.find_spec hex, fun d' hd' => Nat.find_min hex hd'⟩

theorem Dist.start (s : α) : Dist adj s s 0 := ⟨rfl, fun _ h => absurd h (Nat.not_lt_zero _)⟩

/-- A vertex one step behind one at distance `d` that is not reached in `d` steps. -/
theorem Dist.succ {s u v : α} (h : Dist adj s u d) (huv : adj u v)
    (hv : ∀ d' ≤ d, ¬ Hops adj s d' v) : Dist adj s v (d + 1) :=
  ⟨⟨u, h.1, huv⟩, fun d' hd' => hv d' (Nat.le_of_lt_succ hd')⟩

/-- The last step to a vertex at distance `d + 1` comes from one at distance `d`. -/
theorem Dist.pred (h : Dist adj s v (d + 1)) : ∃ u, Dist adj s u d ∧ adj u v := by
  obtain ⟨u, hu, huv⟩ := h.1
  refine ⟨u, ⟨hu, fun d' hd' hu' => ?_⟩, huv⟩
  exact h.2 (d' + 1) (Nat.succ_lt_succ hd') ⟨u, hu', huv⟩

theorem Dist.exists_of_le {d i : Nat} (h : Dist adj s v d) (hi : i ≤ d) : ∃ u, Dist adj s u i := by
  induction d generalizing v with
  | zero =>
    obtain rfl := Nat.le_zero.1 hi
    exact ⟨v, h⟩
  | succ d ih =>
    rcases Nat.lt_or_eq_of_le hi with hi | rfl
    · obtain ⟨u, hu, -⟩ := h.pred
      exact ih hu (Nat.le_of_lt_succ hi)
    · exact ⟨v, h⟩

/-- Distances in a graph with fewer than `n` vertices are below `n`. -/
theorem Dist.lt_of_bounded {adj : Nat → Nat → Prop} {s v n d : Nat}
    (hn : ∀ u i, Dist adj s u i → u < n) (h : Dist adj s v d) : d < n := by
  by_contra hle
  have hex : ∀ i, ∃ u, i ≤ d → Dist adj s u i := fun i => by
    by_cases hi : i ≤ d
    · obtain ⟨u, hu⟩ := h.exists_of_le hi
      exact ⟨u, fun _ => hu⟩
    · exact ⟨0, fun hc => absurd hc hi⟩
  choose f hf using hex
  have hmaps : ∀ i ∈ Finset.range (n + 1), f i ∈ Finset.range n := by
    intro i hi
    have hi : i ≤ d := by
      have := Finset.mem_range.1 hi
      omega
    exact Finset.mem_range.2 (hn _ i (hf i hi))
  obtain ⟨i, hi, j, hj, hij, heq⟩ := Finset.exists_ne_map_eq_of_card_lt_of_maps_to
    (by rw [Finset.card_range, Finset.card_range]; exact Nat.lt_succ_self n) hmaps
  have hi := Finset.mem_range.1 hi
  have hj := Finset.mem_range.1 hj
  exact hij ((hf i (by omega)).unique (heq ▸ hf j (by omega)))

/-- Labels of the reached vertices that no edge can lower. -/
structure Levels (adj : α → α → Prop) (s : α) (seen : α → Prop) (level : α → Nat) : Prop where
  start : seen s ∧ level s = 0
  hops : ∀ v, seen v → Hops adj s (level v) v
  closed : ∀ u v, seen u → adj u v → seen v ∧ level v ≤ level u + 1

section

variable {s : α} {seen : α → Prop} {level : α → Nat} (h : Levels adj s seen level)
include h

theorem Levels.le {d : Nat} {v : α} (hv : Hops adj s d v) : seen v ∧ level v ≤ d := by
  induction d generalizing v with
  | zero =>
    rw [show v = s from hv]
    exact ⟨h.start.1, h.start.2.le⟩
  | succ d ih =>
    obtain ⟨u, hu, huv⟩ := hv
    obtain ⟨hseen, hle⟩ := ih hu
    obtain ⟨hsv, hlv⟩ := h.closed u v hseen huv
    exact ⟨hsv, by omega⟩

/-- They are the distances, of exactly the vertices that can be reached. -/
theorem Levels.eq_dist (v : α) (d : Nat) : seen v ∧ level v = d ↔ Dist adj s v d := by
  constructor
  · rintro ⟨hv, rfl⟩
    exact ⟨h.hops v hv, fun d' hd' hh => absurd (h.le hh).2 (Nat.not_le.2 hd')⟩
  · intro hd
    obtain ⟨hv, hle⟩ := h.le hd.1
    refine ⟨hv, ?_⟩
    have hdist : Dist adj s v (level v) :=
      ⟨h.hops v hv, fun d' hd' hh => absurd (h.le hh).2 (Nat.not_le.2 hd')⟩
    exact hdist.unique hd

end

/-- A set with the start that misses a vertex that can be reached has an edge that leaves it. -/
theorem exists_exit {S : Set α} (hs : s ∈ S) (hv : Relation.ReflTransGen adj s v) (hn : v ∉ S) :
    ∃ u ∈ S, ∃ w, w ∉ S ∧ adj u w := by
  induction hv with
  | refl => exact absurd hs hn
  | @tail u w _ huw ih =>
    by_cases hu : u ∈ S
    · exact ⟨u, hu, w, hn, huw⟩
    · exact ih hu

/-! ## Components -/

/-- In the same weak component. -/
def Conn (adj : α → α → Prop) : α → α → Prop := Relation.EqvGen adj

theorem Conn.refl (u : α) : Conn adj u u := Relation.EqvGen.refl u

theorem Conn.symm {u v : α} (h : Conn adj u v) : Conn adj v u := Relation.EqvGen.symm _ _ h

theorem Conn.trans {u v w : α} (h : Conn adj u v) (h' : Conn adj v w) : Conn adj u w :=
  Relation.EqvGen.trans _ _ _ h h'

theorem Conn.edge {u v : α} (h : adj u v) : Conn adj u v := Relation.EqvGen.rel _ _ h

/-- A property of pairs that holds along the edges and is an equivalence holds in components. -/
theorem Conn.congr {β : Type*} {f : α → β} (h : ∀ u v, adj u v → f u = f v) {u v : α}
    (hc : Conn adj u v) : f u = f v := by
  induction hc with
  | rel u v huv => exact h u v huv
  | refl u => rfl
  | symm u v _ ih => exact ih.symm
  | trans u v w _ _ ih ih' => exact ih.trans ih'

/-- Walks along a symmetric relation reach the component. -/
theorem exists_dist_iff (hsym : ∀ u v, adj u v → adj v u) : (∃ d, Dist adj s v d) ↔ Conn adj s v := by
  constructor
  · rintro ⟨d, h, -⟩
    induction d generalizing v with
    | zero =>
      obtain rfl : v = s := h
      exact Conn.refl v
    | succ d ih =>
      obtain ⟨u, hu, huv⟩ := h
      exact (ih hu).trans (Conn.edge huv)
  · intro h
    have hstep : ∀ u v, adj u v → (∃ d, Hops adj s d u) → ∃ d, Hops adj s d v := by
      rintro u v huv ⟨d, hd⟩
      exact ⟨d + 1, u, hd, huv⟩
    have heq := h.congr (f := fun v => ∃ d, Hops adj s d v) fun u v huv =>
      propext ⟨hstep u v huv, hstep v u (hsym u v huv)⟩
    obtain ⟨d, hd⟩ := heq.mp ⟨0, rfl⟩
    obtain ⟨d', -, hd'⟩ := hd.exists_dist
    exact ⟨d', hd'⟩

/-- The least member of the component of `v`. -/
def LeastOf [LE α] (adj : α → α → Prop) (v l : α) : Prop := IsLeast {u | Conn adj v u} l

theorem LeastOf.unique [PartialOrder α] {v l l' : α} (h : LeastOf adj v l) (h' : LeastOf adj v l') :
    l = l' := IsLeast.unique h h'

/-- Two vertices are in one component exactly when its least members agree. -/
theorem LeastOf.eq_iff [PartialOrder α] {u v l l' : α} (h : LeastOf adj u l)
    (h' : LeastOf adj v l') : l = l' ↔ Conn adj u v := by
  constructor
  · rintro rfl
    exact Conn.trans h.1 (Conn.symm h'.1)
  · intro hc
    refine LeastOf.unique h ?_
    exact ⟨hc.trans h'.1, fun w hw => h'.2 (hc.symm.trans hw)⟩

/-- Labels that agree along the edges, each a member of the component at or below its vertex. -/
theorem leastOf_of_fixed [Preorder α] {label : α → α} (hedge : ∀ u v, adj u v → label u = label v)
    (hconn : ∀ v, Conn adj v (label v)) (hle : ∀ v, label v ≤ v) (v : α) :
    LeastOf adj v (label v) := by
  refine ⟨hconn v, fun u hu => ?_⟩
  rw [Conn.congr hedge hu]
  exact hle u

/-! ## A pass over the neighbours of a vertex -/

/-- A pass `f` takes the fresh elements of a list, each once: `mark` is what it makes of the state,
given those that it takes and all that it goes over. -/
theorem exists_foldl_taken {σ : Type*} {f : σ → α → σ} (fresh : σ → α → Prop)
    (mark : σ → List α → List α → σ) (hnil : ∀ st, mark st [] [] = st)
    (hfresh : ∀ st d v, fresh (f st d) v ↔ fresh st v ∧ v ≠ d)
    (htake : ∀ st d new l, fresh st d → d ∉ new → mark (f st d) new l = mark st (d :: new) (d :: l))
    (hskip : ∀ st d new l, ¬ fresh st d → mark (f st d) new l = mark st new (d :: l))
    (l : List α) (st : σ) :
    ∃ new : List α, new.Nodup ∧ (∀ v, v ∈ new ↔ v ∈ l ∧ fresh st v) ∧
      l.foldl f st = mark st new l := by
  induction l generalizing st with
  | nil => exact ⟨[], List.nodup_nil, by simp, (hnil st).symm⟩
  | cons d l ih =>
    obtain ⟨new, hnd, hmem, heq⟩ := ih (f st d)
    rw [List.foldl_cons, heq]
    by_cases hd : fresh st d
    · have hnot : d ∉ new := fun h => ((hfresh st d d).1 ((hmem d).1 h).2).2 rfl
      refine ⟨d :: new, List.nodup_cons.2 ⟨hnot, hnd⟩, fun v => ?_, htake st d new l hd hnot⟩
      rw [List.mem_cons, List.mem_cons, hmem, hfresh]
      by_cases hv : v = d
      · simp [hv, hd]
      · simp [hv]
    · refine ⟨new, hnd, fun v => ?_, hskip st d new l hd⟩
      have hne : fresh st v → v ≠ d := fun hf he => hd (he ▸ hf)
      rw [hmem, hfresh, List.mem_cons]
      tauto

end Walk
