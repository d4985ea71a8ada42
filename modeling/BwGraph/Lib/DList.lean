import Mathlib.Data.List.Basic
import Mathlib.Data.List.Nodup
import Mathlib.Logic.Function.Basic

/-
  Doubly linked lists in a heap. `Links` are the two pointers of every node and `Ends` the head and
  the tail of one list; several lists of distinct nodes share one `Links`. `IsDList` says that a
  list is laid out: wherever it is cut at a node, the node points at the neighbours of the cut.

  `unlink`, `pushFront` and `pushBack` are the usual pointer programs, null tests included. Each
  has one rule for the list it works on and one for the lists of other nodes. A walk from the head
  visits the list (`Forward`), and one that starts again at the head goes round the list once
  before it is back (`Round`).
-/

open List

variable {ι : Type*} [DecidableEq ι]

/-- The pointers of the nodes. -/
structure Links (ι : Type*) where
  next : ι → Option ι
  prev : ι → Option ι

/-- The two ends of a list. -/
structure Ends (ι : Type*) where
  head : Option ι
  tail : Option ι

namespace Links

/-- Store a `next` pointer. -/
def setNext (L : Links ι) (x : ι) (v : Option ι) : Links ι :=
  { L with next := Function.update L.next x v }

/-- Store a `prev` pointer. -/
def setPrev (L : Links ι) (x : ι) (v : Option ι) : Links ι :=
  { L with prev := Function.update L.prev x v }

/-- Take a node out of its list. -/
def unlink (L : Links ι) (E : Ends ι) (x : ι) : Links ι × Ends ι :=
  let prev := L.prev x
  let next := L.next x
  let r : Links ι × Ends ι := match prev with
    | some p => (L.setNext p next, E)
    | none => (L, { E with head := next })
  let r : Links ι × Ends ι := match next with
    | some n => (r.1.setPrev n prev, r.2)
    | none => (r.1, { r.2 with tail := prev })
  ((r.1.setNext x none).setPrev x none, r.2)

/-- Put a node in front. -/
def pushFront (L : Links ι) (E : Ends ι) (x : ι) : Links ι × Ends ι :=
  let L := (L.setPrev x none).setNext x none
  match E.head with
  | none => (L, ⟨some x, some x⟩)
  | some h => ((L.setNext x (some h)).setPrev h (some x), { E with head := some x })

/-- Put a node at the end; a list with a head has a tail. -/
def pushBack (L : Links ι) (E : Ends ι) (x : ι) : Links ι × Ends ι :=
  let L := (L.setPrev x none).setNext x none
  match E.head, E.tail with
  | some _, some t => ((L.setNext t (some x)).setPrev x (some t), { E with tail := some x })
  | _, _ => (L, ⟨some x, some x⟩)

section

variable (L : Links ι)

section

variable (x : ι) (v : Option ι)

@[simp] theorem next_setNext_self : (L.setNext x v).next x = v := Function.update_self ..

theorem next_setNext_ne {x y : ι} (h : y ≠ x) (v : Option ι) :
    (L.setNext x v).next y = L.next y := Function.update_of_ne h ..

@[simp] theorem prev_setNext : (L.setNext x v).prev = L.prev := rfl

@[simp] theorem prev_setPrev_self : (L.setPrev x v).prev x = v := Function.update_self ..

theorem prev_setPrev_ne {x y : ι} (h : y ≠ x) (v : Option ι) :
    (L.setPrev x v).prev y = L.prev y := Function.update_of_ne h ..

@[simp] theorem next_setPrev : (L.setPrev x v).next = L.next := rfl

end

variable (E : Ends ι)

variable (x y : ι)

theorem next_unlink : (L.unlink E x).1.next y =
    if y = x then none else if L.prev x = some y then L.next x else L.next y := by
  unfold unlink
  by_cases hx : y = x
  · subst hx
    rw [if_pos rfl]
    simp
  · rw [if_neg hx]
    cases hp : L.prev x with
    | none => cases hn : L.next x <;> simp [next_setNext_ne _ hx]
    | some p =>
      by_cases hy : p = y
      · subst hy
        cases hn : L.next x <;> simp [next_setNext_ne _ hx]
      · have hy' : y ≠ p := fun h => hy h.symm
        cases hn : L.next x <;> simp [next_setNext_ne _ hx, next_setNext_ne _ hy', hy]

theorem prev_unlink : (L.unlink E x).1.prev y =
    if y = x then none else if L.next x = some y then L.prev x else L.prev y := by
  unfold unlink
  by_cases hx : y = x
  · subst hx
    rw [if_pos rfl]
    simp
  · rw [if_neg hx]
    cases hn : L.next x with
    | none => cases hp : L.prev x <;> simp [prev_setPrev_ne _ hx]
    | some n =>
      by_cases hy : n = y
      · subst hy
        cases hp : L.prev x <;> simp [prev_setPrev_ne _ hx]
      · have hy' : y ≠ n := fun h => hy h.symm
        cases hp : L.prev x <;> simp [prev_setPrev_ne _ hx, prev_setPrev_ne _ hy', hy]

theorem head_unlink (x : ι) :
    (L.unlink E x).2.head = if L.prev x = none then L.next x else E.head := by
  unfold unlink
  cases L.prev x <;> cases L.next x <;> rfl

theorem tail_unlink (x : ι) :
    (L.unlink E x).2.tail = if L.next x = none then L.prev x else E.tail := by
  unfold unlink
  cases L.prev x <;> cases L.next x <;> rfl

theorem next_pushFront : (L.pushFront E x).1.next y = if y = x then E.head else L.next y := by
  unfold pushFront
  by_cases hy : y = x
  · subst hy
    cases E.head <;> simp
  · cases E.head <;> simp [next_setNext_ne _ hy, hy]

theorem prev_pushFront : (L.pushFront E x).1.prev y =
    if E.head = some y then some x else if y = x then none else L.prev y := by
  unfold pushFront
  cases E.head with
  | none =>
    by_cases hy : y = x
    · subst hy
      simp
    · simp [prev_setPrev_ne _ hy, hy]
  | some h =>
    by_cases hh : h = y
    · subst hh
      simp
    · have hh' : y ≠ h := fun he => hh he.symm
      by_cases hy : y = x
      · subst hy
        simp [prev_setPrev_ne _ hh', hh]
      · simp [prev_setPrev_ne _ hh', prev_setPrev_ne _ hy, hh, hy]

theorem ends_pushFront (x : ι) :
    (L.pushFront E x).2 = ⟨some x, if E.head = none then some x else E.tail⟩ := by
  unfold pushFront
  cases E.head <;> rfl

end

variable {L : Links ι} {E : Ends ι}

theorem pushBack_nil (h : E.head = none) (x : ι) :
    L.pushBack E x = ((L.setPrev x none).setNext x none, ⟨some x, some x⟩) := by
  unfold pushBack
  rw [h]

theorem pushBack_concat {x t : ι} (hx : t ≠ x) (hhead : E.head ≠ none) (htail : E.tail = some t) :
    (∀ y, (L.pushBack E x).1.next y =
      if y = x then none else if y = t then some x else L.next y) ∧
    (∀ y, (L.pushBack E x).1.prev y = if y = x then some t else L.prev y) ∧
    (L.pushBack E x).2 = ⟨E.head, some x⟩ := by
  obtain ⟨h, hh⟩ := Option.ne_none_iff_exists'.1 hhead
  unfold pushBack
  rw [htail, hh]
  refine ⟨fun y => ?_, fun y => ?_, rfl⟩
  · by_cases hy : y = x
    · subst hy
      simp [next_setNext_ne _ (Ne.symm hx)]
    · by_cases hyt : y = t
      · subst hyt
        simp [hy]
      · simp [next_setNext_ne _ hy, next_setNext_ne _ hyt, hy, hyt]
  · by_cases hy : y = x
    · subst hy
      simp
    · simp [prev_setPrev_ne _ hy, hy]

end Links

/-- The list is laid out between the two ends. -/
structure IsDList (L : Links ι) (E : Ends ι) (l : List ι) : Prop where
  nodup : l.Nodup
  head : E.head = l.head?
  tail : E.tail = l.getLast?
  links : ∀ a x b, l = a ++ x :: b → L.next x = b.head? ∧ L.prev x = a.getLast?

namespace IsDList

variable {L L' : Links ι} {E : Ends ι} {l : List ι} {x : ι}

omit [DecidableEq ι] in
theorem nil (L : Links ι) : IsDList L ⟨none, none⟩ [] :=
  ⟨nodup_nil, rfl, rfl, fun a x b h => by simp at h⟩

omit [DecidableEq ι] in
/-- Only the pointers of its nodes matter to a list. -/
theorem congr (h : IsDList L E l) (hl : ∀ x ∈ l, L'.next x = L.next x ∧ L'.prev x = L.prev x) :
    IsDList L' E l := by
  refine ⟨h.nodup, h.head, h.tail, fun a x b hab => ?_⟩
  have hx : x ∈ l := by simp [hab]
  rw [(hl x hx).1, (hl x hx).2]
  exact h.links a x b hab

omit [DecidableEq ι] in
theorem next_mem (h : IsDList L E l) (hx : x ∈ l) {n : ι} (hn : L.next x = some n) : n ∈ l := by
  obtain ⟨a, b, rfl⟩ := append_of_mem hx
  rw [(h.links a x b rfl).1] at hn
  exact mem_append_right _ (mem_cons_of_mem _ (mem_of_mem_head? hn))

omit [DecidableEq ι] in
theorem prev_mem (h : IsDList L E l) (hx : x ∈ l) {p : ι} (hp : L.prev x = some p) : p ∈ l := by
  obtain ⟨a, b, rfl⟩ := append_of_mem hx
  rw [(h.links a x b rfl).2] at hp
  exact mem_append_left _ (mem_of_getLast? hp)

variable (h : IsDList L E l)
include h

/-- Taking a node out. -/
theorem unlink (hx : x ∈ l) : IsDList (L.unlink E x).1 (L.unlink E x).2 (l.erase x) := by
  obtain ⟨a, b, rfl⟩ := append_of_mem hx
  obtain ⟨hnext, hprev⟩ := h.links a x b rfl
  have hnd := h.nodup
  have hxa : x ∉ a := by
    intro hxa
    exact (nodup_append.1 hnd).2.2 x hxa x mem_cons_self rfl
  have herase : (a ++ x :: b).erase x = a ++ b := by
    rw [erase_append_right _ hxa, erase_cons_head]
  have hxb : x ∉ b := (nodup_cons.1 (nodup_append.1 hnd).2.1).1
  rw [herase]
  refine ⟨?_, ?_, ?_, ?_⟩
  · exact hnd.sublist (List.Sublist.append_left (sublist_cons_self x b) a)
  · rw [Links.head_unlink, hprev, hnext, h.head]
    cases a with
    | nil => simp
    | cons c a => simp
  · rw [Links.tail_unlink, hprev, hnext, h.tail]
    cases b with
    | nil => simp
    | cons c b => simp [getLast?_append, getLast?_cons]
  · intro c y d hcd
    rw [Links.next_unlink, Links.prev_unlink, hnext, hprev]
    have hyx : y ≠ x := by
      rintro rfl
      have hmem : y ∈ a ++ b := by simp [hcd]
      obtain hy | hy := mem_append.1 hmem
      · exact hxa hy
      · exact hxb hy
    rw [if_neg hyx, if_neg hyx]
    have hab : ∀ z ∈ a, ∀ w ∈ b, z ≠ w := fun z hz w hw =>
      (nodup_append.1 hnd).2.2 z hz w (mem_cons_of_mem _ hw)
    -- the cut is behind the node
    have hbehind : ∀ e, c = a ++ e → b = e ++ y :: d →
        (if a.getLast? = some y then b.head? else L.next y) = d.head? ∧
          (if b.head? = some y then a.getLast? else L.prev y) = c.getLast? := by
      rintro e rfl rfl
      obtain ⟨hn, hp⟩ := h.links (a ++ x :: e) y d (by simp)
      have hya : a.getLast? ≠ some y := by
        intro hlast
        exact hab y (mem_of_getLast? hlast) y (by simp) rfl
      rw [if_neg hya, hn, hp]
      refine ⟨rfl, ?_⟩
      cases e with
      | nil => simp
      | cons z e =>
        have hzy : z ≠ y := by
          rintro rfl
          have hdup := (nodup_cons.1 (nodup_append.1 hnd).2.1).2
          rw [cons_append, nodup_cons] at hdup
          exact hdup.1 (by simp)
        have hhead : ((z :: e) ++ y :: d).head? ≠ some y := fun hz => hzy (Option.some.inj hz)
        rw [if_neg hhead]
        simp [getLast?_append, getLast?_cons]
    obtain ⟨e, hc, hb⟩ | ⟨e, ha, hd⟩ := append_eq_append_iff.1 hcd
    · exact hbehind e hc hb
    · cases e with
      | nil => exact hbehind [] (by simp [ha]) (by simp [hd])
      | cons z e =>
        -- the cut is in front of the node
        obtain ⟨rfl, rfl⟩ := cons.inj hd
        subst ha
        obtain ⟨hn, hp⟩ := h.links c y (e ++ x :: b) (by simp)
        have hyb : b.head? ≠ some y := by
          intro hhead
          exact hab y (by simp) y (mem_of_mem_head? hhead) rfl
        rw [if_neg hyb, hn, hp]
        refine ⟨?_, rfl⟩
        cases e with
        | nil => simp
        | cons w e =>
          have hlast : (c ++ y :: w :: e).getLast? ≠ some y := by
            intro hlast
            have hdup := (nodup_append.1 (nodup_append.1 hnd).1).2.1
            rw [nodup_cons] at hdup
            apply hdup.1
            apply mem_of_getLast?
            rw [← hlast]
            simp [getLast?_append, getLast?_cons]
          rw [if_neg hlast]
          simp

variable {E' : Ends ι} {l' : List ι}

/-- The other lists do not notice. -/
theorem unlink_other (hx : x ∈ l) (h' : IsDList L E' l') (hdis : ∀ y ∈ l', y ∉ l) :
    IsDList (L.unlink E x).1 E' l' := by
  refine h'.congr fun y hy => ?_
  have hyx : y ≠ x := fun he => hdis y hy (he ▸ hx)
  have hp : L.prev x ≠ some y := fun hp => hdis y hy (h.prev_mem hx hp)
  have hn : L.next x ≠ some y := fun hn => hdis y hy (h.next_mem hx hn)
  rw [Links.next_unlink, Links.prev_unlink, if_neg hyx, if_neg hyx, if_neg hp, if_neg hn]
  exact ⟨rfl, rfl⟩

/-- Putting a new node in front. -/
theorem pushFront (hx : x ∉ l) : IsDList (L.pushFront E x).1 (L.pushFront E x).2 (x :: l) := by
  rw [Links.ends_pushFront, h.head]
  refine ⟨nodup_cons.2 ⟨hx, h.nodup⟩, rfl, ?_, ?_⟩
  · cases l with
    | nil => rfl
    | cons y l => simp [h.tail, getLast?_cons]
  · intro a y b hab
    rw [Links.next_pushFront, Links.prev_pushFront, h.head]
    cases a with
    | nil =>
      obtain ⟨rfl, rfl⟩ := cons.inj hab
      have hhead : l.head? ≠ some x := fun hh => hx (mem_of_mem_head? hh)
      rw [if_pos rfl, if_neg hhead, if_pos rfl]
      exact ⟨rfl, rfl⟩
    | cons z a =>
      rw [cons_append, cons.injEq] at hab
      obtain ⟨rfl, rfl⟩ := hab
      obtain ⟨hn, hp⟩ := h.links a y b rfl
      have hyx : y ≠ x := fun he => hx (by simp [he])
      rw [if_neg hyx, hn]
      refine ⟨rfl, ?_⟩
      cases a with
      | nil => simp
      | cons w a =>
        have hwy : w ≠ y := by
          rintro rfl
          have hnd := h.nodup
          rw [cons_append, nodup_cons] at hnd
          exact hnd.1 (by simp)
        have hhead : (w :: a ++ y :: b).head? ≠ some y := fun hh => hwy (Option.some.inj hh)
        rw [if_neg hhead, if_neg hyx, hp]
        simp [getLast?_cons]

theorem pushFront_other (h' : IsDList L E' l') (hx : x ∉ l') (hdis : ∀ y ∈ l', y ∉ l) :
    IsDList (L.pushFront E x).1 E' l' := by
  refine h'.congr fun y hy => ?_
  have hyx : y ≠ x := fun he => hx (he ▸ hy)
  have hhead : E.head ≠ some y := by
    rw [h.head]
    exact fun hh => hdis y hy (mem_of_mem_head? hh)
  rw [Links.next_pushFront, Links.prev_pushFront, if_neg hyx, if_neg hhead, if_neg hyx]
  exact ⟨rfl, rfl⟩

/-- Putting a new node at the end. -/
theorem pushBack (hx : x ∉ l) : IsDList (L.pushBack E x).1 (L.pushBack E x).2 (l ++ [x]) := by
  obtain rfl | ⟨l, t, rfl⟩ := l.eq_nil_or_concat'
  · rw [Links.pushBack_nil h.head]
    refine ⟨nodup_singleton x, rfl, rfl, fun a y b hab => ?_⟩
    obtain ⟨rfl, rfl, rfl⟩ : a = [] ∧ x = y ∧ b = [] := by
      cases a with
      | nil => simpa using hab
      | cons z a => simp at hab
    simp
  · have htail : E.tail = some t := by simp [h.tail]
    have hhead : E.head ≠ none := by simp [h.head]
    have htx : t ≠ x := fun he => hx (by simp [he])
    obtain ⟨hn, hp, hends⟩ := Links.pushBack_concat (L := L) htx hhead htail
    rw [hends]
    refine ⟨?_, ?_, by simp, fun a y b hab => ?_⟩
    · rw [nodup_append]
      refine ⟨h.nodup, nodup_singleton x, fun z hz w hw he => hx ?_⟩
      rw [← mem_singleton.1 hw, ← he]
      exact hz
    · rw [h.head]
      cases l <;> rfl
    · rw [hn, hp]
      obtain rfl | ⟨b, w, rfl⟩ := b.eq_nil_or_concat'
      · obtain ⟨rfl, hy⟩ := append_inj' hab rfl
        obtain rfl := (singleton_inj.1 hy)
        rw [if_neg (Ne.symm htx), if_pos rfl, if_pos rfl]
        simp
      · rw [← cons_append, ← append_assoc] at hab
        obtain ⟨hl, hy⟩ := append_inj' hab rfl
        obtain rfl := (singleton_inj.1 hy)
        obtain ⟨hn', hp'⟩ := h.links a y b hl
        have hyx : y ≠ x := fun he => hx (by rw [hl, ← he]; simp)
        rw [if_neg hyx, if_neg hyx, hn', hp']
        refine ⟨?_, rfl⟩
        obtain rfl | ⟨b, v, rfl⟩ := b.eq_nil_or_concat'
        · obtain ⟨-, hyt⟩ := append_inj' hl rfl
          rw [if_pos (singleton_inj.1 hyt).symm]
          rfl
        · rw [← cons_append, ← append_assoc] at hl
          obtain ⟨hl', hvt⟩ := append_inj' hl rfl
          have hyt : y ≠ t := by
            rintro rfl
            have hnd := h.nodup
            rw [hl', nodup_append] at hnd
            exact hnd.2.2 y (by simp) y (by simp) rfl
          rw [if_neg hyt]
          cases b <;> rfl

theorem pushBack_other (h' : IsDList L E' l') (hx : x ∉ l') (hxl : x ∉ l) (hdis : ∀ y ∈ l', y ∉ l) :
    IsDList (L.pushBack E x).1 E' l' := by
  refine h'.congr fun y hy => ?_
  have hyx : y ≠ x := fun he => hx (he ▸ hy)
  obtain rfl | ⟨l, t, rfl⟩ := l.eq_nil_or_concat'
  · rw [Links.pushBack_nil h.head]
    exact ⟨Links.next_setNext_ne _ hyx _, Links.prev_setPrev_ne _ hyx _⟩
  · have htail : E.tail = some t := by simp [h.tail]
    have hhead : E.head ≠ none := by simp [h.head]
    have htx : t ≠ x := fun he => hxl (by simp [he])
    have hyt : y ≠ t := fun he => hdis y hy (by simp [he])
    obtain ⟨hn, hp, -⟩ := Links.pushBack_concat (L := L) htx hhead htail
    rw [hn, hp, if_neg hyx, if_neg hyt, if_neg hyx]
    exact ⟨rfl, rfl⟩

end IsDList

/-! ## Walks -/

omit [DecidableEq ι] in
/-- Following `next` from a pointer visits these nodes. -/
def Links.Forward (L : Links ι) : Option ι → List ι → Prop
  | c, [] => c = none
  | c, x :: l => c = some x ∧ L.Forward (L.next x) l

omit [DecidableEq ι] in
/-- Following `next`, and the head after the tail, visits these nodes and is then at `start`. -/
def Links.Round (L : Links ι) (E : Ends ι) (start : ι) : List ι → Prop
  | [] => True
  | [x] => (L.next x).or E.head = some start
  | x :: y :: w => (L.next x).or E.head = some y ∧ y ≠ start ∧ L.Round E start (y :: w)

namespace IsDList

variable {L : Links ι} {E : Ends ι} {l : List ι}

omit [DecidableEq ι] in
theorem forward (h : IsDList L E l) : L.Forward E.head l := by
  have hcut : ∀ b a, l = a ++ b → L.Forward b.head? b := by
    intro b
    induction b with
    | nil => exact fun a _ => rfl
    | cons x b ih =>
      intro a hab
      refine ⟨rfl, ?_⟩
      rw [(h.links a x b hab).1]
      exact ih (a ++ [x]) (by simp [hab])
  rw [h.head]
  exact hcut l [] rfl

omit [DecidableEq ι] in
theorem round_of_next {start : ι} {w : List ι}
    (hw : ∀ p x q, w = p ++ x :: q → (L.next x).or E.head = some (q.head?.getD start))
    (hs : start ∉ w.tail) : L.Round E start w := by
  induction w with
  | nil => trivial
  | cons x w ih =>
    cases w with
    | nil => exact hw [] x [] rfl
    | cons y w =>
      refine ⟨hw [] x (y :: w) rfl, fun hy => hs (by simp [hy]), ih ?_ fun hin => ?_⟩
      · intro p z q hpq
        exact hw (x :: p) z q (by rw [hpq, cons_append])
      · exact hs (mem_cons_of_mem _ hin)

omit [DecidableEq ι] in
/-- Once round, from any node. -/
theorem round (h : IsDList L E l) {start : ι} (hs : start ∈ l) :
    ∃ w, (start :: w).Perm l ∧ L.Round E start (start :: w) := by
  obtain ⟨a, b, rfl⟩ := append_of_mem hs
  refine ⟨b ++ a, ?_, round_of_next ?_ ?_⟩
  · rw [← cons_append]
    exact perm_append_comm
  · intro p x q hpq
    -- in front of `start` the node is followed as in the list
    have hfront : ∀ e, a = e ++ x :: q → (L.next x).or E.head = some (q.head?.getD start) := by
      rintro e rfl
      rw [(h.links e x (q ++ start :: b) (by simp)).1]
      cases q <;> rfl
    rw [← cons_append] at hpq
    obtain ⟨e, -, ha⟩ | ⟨e, hb, hq⟩ := append_eq_append_iff.1 hpq
    · exact hfront e ha
    · cases e with
      | nil => exact hfront [] hq.symm
      | cons z e =>
        obtain ⟨rfl, rfl⟩ := cons.inj hq
        rw [(h.links (a ++ p) x e (by rw [hb, append_assoc])).1, h.head]
        cases e with
        | nil => cases a <;> simp
        | cons w e => simp
  · have hnd := h.nodup
    rw [nodup_append, nodup_cons] at hnd
    rw [tail_cons, mem_append, not_or]
    exact ⟨hnd.2.1.1, fun ha => hnd.2.2 start ha start mem_cons_self rfl⟩

end IsDList
