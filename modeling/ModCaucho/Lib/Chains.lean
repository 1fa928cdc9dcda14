import Mathlib.Data.Finset.Card
import Mathlib.Logic.Relation

/-!
# Chains without repetition

Steps whose targets have labels from a finite set. If no label comes twice along a chain
that begins at a place, then chains from there are bounded by the number of labels, and
what follows for a place from its successors holds there.
-/

namespace Chains

open Relation

variable {α β : Type*} [DecidableEq β] {R : α → α → Prop} {label : α → β} {P : ℕ → α → Prop}

/-- Induction along chains whose labels are taken from a set, each of them once. -/
theorem rank_of_labels (hrank : ∀ n a, (∀ b, R a b → ∃ m < n, P m b) → P n a)
    (labels : Finset β) (a : α) (hmem : ∀ b, TransGen R a b → label b ∈ labels)
    (hdistinct : ∀ b c, TransGen R a b → TransGen R b c → label c ≠ label b) :
    P labels.card a := by
  induction labels using Finset.strongInduction generalizing a with
  | H labels ih =>
      refine hrank _ _ fun b hb => ?_
      have hb' : label b ∈ labels := hmem b (.single hb)
      refine ⟨(labels.erase (label b)).card, Finset.card_erase_lt_of_mem hb', ?_⟩
      refine ih _ (Finset.erase_ssubset hb') b (fun c hc => ?_) fun c d hc hd => ?_
      · exact Finset.mem_erase.mpr ⟨hdistinct b c (.single hb) hc, hmem c (.head hb hc)⟩
      · exact hdistinct c d (.head hb hc) hd

end Chains
