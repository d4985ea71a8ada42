import Mathlib.Data.List.Perm.Basic
import Mathlib.Logic.Function.Basic
import Mathlib.Order.Nat

/-
  Grouping by counting: the items are counted by key, the counts are summed up to the offsets of the
  groups, and a second pass puts every item at the cursor of its key. What was in the array before
  does not matter: afterwards the group of a key has its items, in the order of the list
  (`group_eq_filter`), and the groups of all keys together have all items (`flatMap_filter_perm`).
-/

namespace CountingSort

open Function List

variable {α : Type*} (key : α → Nat)

/-- The offsets of the groups. -/
def offset (counts : Nat → Nat) : Nat → Nat
  | 0 => 0
  | p + 1 => offset counts p + counts p

/-- Puts one item at the cursor of its key. -/
def place (st : (Nat → Nat) × (Nat → α)) (item : α) : (Nat → Nat) × (Nat → α) :=
  (Function.update st.1 (key item) (st.1 (key item) + 1),
    Function.update st.2 (st.1 (key item)) item)

/-- The group of a key in the array. -/
def group (counts : Nat → Nat) (grouped : Nat → α) (p : Nat) : List α :=
  (List.range' (offset counts p) (counts p)).map grouped

theorem offset_le {counts : Nat → Nat} {p q : Nat} (h : p < q) :
    offset counts p + counts p ≤ offset counts q := by
  induction q with
  | zero => exact absurd h (Nat.not_lt_zero p)
  | succ q ih =>
    rcases Nat.lt_succ_iff_lt_or_eq.1 h with hlt | rfl
    · exact (ih hlt).trans (Nat.le_add_right _ _)
    · exact le_rfl

variable {key}

/-- The items with a key. -/
def withKey (key : α → Nat) (items : List α) (p : Nat) : List α := items.filter fun a => key a = p

theorem withKey_append_self (done : List α) (item : α) :
    withKey key (done ++ [item]) (key item) = withKey key done (key item) ++ [item] := by
  simp [withKey]

theorem withKey_append_ne (done : List α) {item : α} {p : Nat} (h : key item ≠ p) :
    withKey key (done ++ [item]) p = withKey key done p := by
  simp [withKey, h]

/-- The cursors and the array when the items `done` are placed. -/
structure Placed (key : α → Nat) (counts : Nat → Nat) (done : List α)
    (st : (Nat → Nat) × (Nat → α)) : Prop where
  cursor : ∀ p, st.1 p = offset counts p + (withKey key done p).length
  group : ∀ p, (List.range' (offset counts p) (withKey key done p).length).map st.2 =
    withKey key done p

variable {counts : Nat → Nat} {st : (Nat → Nat) × (Nat → α)}

/-- One more item finds its place behind those of its key, and in no other group. -/
theorem Placed.place {done : List α} (h : Placed key counts done st) {item : α}
    (hfit : ∀ p, (withKey key (done ++ [item]) p).length ≤ counts p) :
    Placed key counts (done ++ [item]) (place key st item) := by
  have hself : withKey key (done ++ [item]) (key item) = withKey key done (key item) ++ [item] :=
    withKey_append_self done item
  refine ⟨fun p => ?_, fun p => ?_⟩
  · show update st.1 (key item) (st.1 (key item) + 1) p = _
    by_cases hp : p = key item
    · subst hp
      rw [update_self, hself, h.cursor, length_append]
      rfl
    · rw [update_of_ne hp, withKey_append_ne done (Ne.symm hp), h.cursor]
  · show (range' _ _).map (update st.2 (st.1 (key item)) item) = _
    have hkeep : ∀ p, (∀ i ∈ range' (offset counts p) (withKey key done p).length,
        i ≠ st.1 (key item)) → (range' (offset counts p) (withKey key done p).length).map
          (update st.2 (st.1 (key item)) item) = withKey key done p := by
      intro p hne
      rw [← h.group p, length_map, length_range']
      exact map_congr_left fun i hi => update_of_ne (hne i hi) ..
    by_cases hp : p = key item
    · subst hp
      rw [hself, length_append, length_singleton, range'_concat, map_append,
        hkeep _ fun i hi => ?_, map_singleton, Nat.one_mul, ← h.cursor, update_self]
      rw [mem_range'_1] at hi
      rw [h.cursor]
      omega
    · rw [withKey_append_ne done (Ne.symm hp)]
      refine hkeep p fun i hi => ?_
      rw [mem_range'_1] at hi
      have hfit' := hfit p
      have hfit'' := hfit (key item)
      rw [withKey_append_ne done (Ne.symm hp)] at hfit'
      rw [hself, length_append, length_singleton] at hfit''
      rw [h.cursor]
      rcases Nat.lt_or_gt_of_ne hp with hlt | hgt
      · have := @offset_le counts _ _ hlt
        omega
      · have := @offset_le counts _ _ hgt
        omega

theorem placed_foldl (items done : List α) (h : Placed key counts done st)
    (hfit : ∀ p, (withKey key (done ++ items) p).length ≤ counts p) :
    Placed key counts (done ++ items) (items.foldl (place key) st) := by
  induction items generalizing done st with
  | nil => simpa using h
  | cons item items ih =>
    have happ : done ++ item :: items = done ++ [item] ++ items := by simp
    rw [foldl_cons, happ]
    rw [happ] at hfit
    refine ih (done ++ [item]) (h.place fun p => le_trans ?_ (hfit p)) hfit
    exact (List.Sublist.filter _ (sublist_append_left _ _)).length_le

/-- After both passes the group of a key has its items, whatever was in the array. -/
theorem group_eq_filter {items : List α} (hcounts : ∀ p, counts p = (withKey key items p).length)
    (stale : Nat → α) (p : Nat) :
    group counts (items.foldl (place key) (offset counts, stale)).2 p = withKey key items p := by
  have hstart : Placed key counts [] (offset counts, stale) :=
    ⟨fun _ => rfl, fun _ => rfl⟩
  have hend := placed_foldl items [] hstart fun p => (hcounts p).ge
  have hgroup := hend.group p
  rw [nil_append] at hgroup
  unfold group
  rw [hcounts p]
  exact hgroup

/-- The groups of all keys together have all items. -/
theorem flatMap_filter_perm {keys : List Nat} (hnd : keys.Nodup) (items : List α)
    (hcover : ∀ a ∈ items, key a ∈ keys) :
    (keys.flatMap fun p => withKey key items p).Perm items := by
  induction keys generalizing items with
  | nil =>
    have hnil : items = [] := eq_nil_iff_forall_not_mem.2 fun a ha => by
      simpa using hcover a ha
    rw [hnil]
    rfl
  | cons p keys ih =>
    obtain ⟨hp, hnd⟩ := nodup_cons.1 hnd
    rw [flatMap_cons]
    have hrest : (keys.flatMap fun q => withKey key items q) =
        keys.flatMap fun q => withKey key (items.filter fun a => !decide (key a = p)) q := by
      refine flatMap_congr fun q hq => ?_
      unfold withKey
      rw [filter_filter]
      refine filter_congr fun a _ => ?_
      by_cases ha : key a = q
      · have hne : key a ≠ p := by
          rw [ha]
          rintro rfl
          exact hp hq
        simp [ha, ha ▸ hne]
      · simp [ha]
    rw [hrest]
    refine ((ih hnd _ fun a ha => ?_).append_left _).trans (filter_append_perm _ items)
    obtain ⟨ha, hne⟩ := mem_filter.1 ha
    rcases mem_cons.1 (hcover a ha) with heq | hmem
    · simp [heq] at hne
    · exact hmem

end CountingSort
