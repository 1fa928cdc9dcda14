import Mathlib.Logic.ExistsUnique
import Mathlib.Logic.Function.Basic

/-!
# Exclusive holding

Places hold resources, at most one each, and a resource is open or not. Holding is
exclusive if every open resource is held in exactly one place and only open resources are
held. A place may take a resource that is not open, places may give theirs up, and a
resource may move to an empty place: each of these keeps the holding exclusive.
-/

namespace Ownership

variable {P D : Type*}

/-- Every open resource is held in exactly one place, and nothing else is held. -/
structure Exclusive (held : P → Option D) (isOpen : D → Prop) : Prop where
  unique : ∀ {p q d}, held p = some d → held q = some d → p = q
  open_iff : ∀ d, isOpen d ↔ ∃ p, held p = some d

variable {held held' : P → Option D} {isOpen isOpen' : D → Prop}

theorem Exclusive.existsUnique (h : Exclusive held isOpen) {d : D} (hd : isOpen d) :
    ∃! p, held p = some d := by
  obtain ⟨p, hp⟩ := (h.open_iff d).mp hd
  exact ⟨p, hp, fun q hq => h.unique hq hp⟩

theorem Exclusive.congr (h : Exclusive held isOpen) (hheld : ∀ p, held' p = held p)
    (hopen : ∀ d, isOpen' d ↔ isOpen d) : Exclusive held' isOpen' := by
  obtain rfl : held' = held := funext hheld
  obtain rfl : isOpen' = isOpen := funext fun d => propext (hopen d)
  exact h

/-- Some places give up what they hold. -/
theorem Exclusive.release (h : Exclusive held isOpen) (given : P → Prop)
    (hgiven : ∀ p, given p → held' p = none) (hkept : ∀ p, ¬ given p → held' p = held p)
    (hopen : ∀ d, isOpen' d ↔ isOpen d ∧ ∀ p, given p → held p ≠ some d) :
    Exclusive held' isOpen' := by
  have hback : ∀ {p d}, held' p = some d → ¬ given p ∧ held p = some d := by
    intro p d hp
    by_cases hg : given p
    · rw [hgiven p hg] at hp
      cases hp
    · exact ⟨hg, hkept p hg ▸ hp⟩
  constructor
  · intro p q d hp hq
    exact h.unique (hback hp).2 (hback hq).2
  · intro d
    rw [hopen, h.open_iff]
    constructor
    · rintro ⟨⟨p, hp⟩, hnone⟩
      have hg : ¬ given p := fun hg => hnone p hg hp
      exact ⟨p, (hkept p hg).trans hp⟩
    · rintro ⟨p, hp⟩
      obtain ⟨hg, hp⟩ := hback hp
      refine ⟨⟨p, hp⟩, fun q hq heq => ?_⟩
      obtain rfl := h.unique hp heq
      exact hg hq

variable [DecidableEq P]

/-- An empty place takes a resource that is not open yet. -/
theorem Exclusive.acquire (h : Exclusive held isOpen) {p : P} {d : D} (hempty : held p = none)
    (hnew : ¬ isOpen d) (hheld : ∀ q, held' q = Function.update held p (some d) q)
    (hopen : ∀ e, isOpen' e ↔ e = d ∨ isOpen e) : Exclusive held' isOpen' := by
  have hfree : ∀ q, held q ≠ some d := fun q hq => hnew ((h.open_iff d).mpr ⟨q, hq⟩)
  have hp : held' p = some d := by rw [hheld, Function.update_self]
  have hq : ∀ q, q ≠ p → held' q = held q := by
    intro q hne
    rw [hheld, Function.update_of_ne hne]
  constructor
  · intro a b e ha hb
    by_cases hap : a = p
    · by_cases hbp : b = p
      · rw [hap, hbp]
      · rw [hap, hp] at ha
        rw [hq b hbp, ← ha] at hb
        exact absurd hb (hfree b)
    · rw [hq a hap] at ha
      by_cases hbp : b = p
      · rw [hbp, hp] at hb
        rw [← hb] at ha
        exact absurd ha (hfree a)
      · rw [hq b hbp] at hb
        exact h.unique ha hb
  · intro e
    rw [hopen, h.open_iff]
    constructor
    · rintro (rfl | ⟨q, hqe⟩)
      · exact ⟨p, hp⟩
      · have hne : q ≠ p := by
          rintro rfl
          rw [hempty] at hqe
          cases hqe
        exact ⟨q, (hq q hne).trans hqe⟩
    · rintro ⟨q, hqe⟩
      by_cases hqp : q = p
      · rw [hqp, hp, Option.some.injEq] at hqe
        exact Or.inl hqe.symm
      · exact Or.inr ⟨q, hq q hqp ▸ hqe⟩

/-- A resource moves to an empty place. -/
theorem Exclusive.transfer (h : Exclusive held isOpen) {p q : P} {d : D} (hp : held p = some d)
    (hq : held q = none)
    (hheld : ∀ a, held' a = Function.update (Function.update held p none) q (some d) a)
    (hopen : ∀ e, isOpen' e ↔ isOpen e) : Exclusive held' isOpen' := by
  have hreleased : Exclusive (Function.update held p none) fun e => isOpen e ∧ e ≠ d := by
    refine h.release (fun a => a = p) ?_ ?_ ?_
    · rintro a rfl
      exact Function.update_self ..
    · intro a hne
      exact Function.update_of_ne hne ..
    · intro e
      refine and_congr_right fun _ => ?_
      simp [hp, eq_comm]
  have hempty : Function.update held p none q = none := by
    by_cases hqp : q = p
    · rw [hqp, Function.update_self]
    · rw [Function.update_of_ne hqp, hq]
  refine hreleased.acquire hempty (fun hd => hd.2 rfl) hheld fun e => ?_
  rw [hopen]
  by_cases he : e = d
  · rw [he]
    exact iff_of_true ((h.open_iff d).mpr ⟨p, hp⟩) (Or.inl rfl)
  · simp [he]

end Ownership
