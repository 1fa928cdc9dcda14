import Mathlib.Algebra.BigOperators.Group.List.Basic
import Mathlib.Algebra.Order.Ring.Int
import Mathlib.Data.List.Basic

/-!
# Matching brackets

Brackets with labels nest if every closing bracket has the label of the innermost bracket
that is open, and none is open at the end. The same can be said by counting alone: the
brackets balance, and a closing bracket has the label of the opening one from which the
brackets between them balance.
-/

namespace Brackets

variable {α : Type*}

/-- An opening or a closing bracket with its label. -/
inductive Bracket (α : Type*)
  | opening (a : α)
  | closing (a : α)
deriving DecidableEq, Repr

/-- By how much a bracket changes the number of open ones. -/
def Bracket.change : Bracket α → ℤ
  | opening _ => 1
  | closing _ => -1

/-- How many more brackets are opened than closed. -/
def depth (l : List (Bracket α)) : ℤ := (l.map Bracket.change).sum

/-- Below open brackets with these labels, the innermost first, every closing bracket has the
label of the innermost open one, and none is left open. -/
def WellNested : List α → List (Bracket α) → Prop
  | labels, [] => labels = []
  | labels, .opening a :: l => WellNested (a :: labels) l
  | [], .closing _ :: _ => False
  | a :: labels, .closing b :: l => a = b ∧ WellNested labels l

/-- No front has more closing brackets than opening ones. -/
def NeverBelow (l : List (Bracket α)) : Prop := ∀ front, front <+: l → 0 ≤ depth front

/-- As many brackets are closed as are opened, and none before it is open. -/
structure Balanced (l : List (Bracket α)) : Prop where
  depth_eq : depth l = 0
  below : NeverBelow l

/-- A closing bracket has the label of the opening one from which the brackets between them
balance. -/
def LabelsAgree (l : List (Bracket α)) : Prop :=
  ∀ front a inner b back, l = front ++ .opening a :: inner ++ .closing b :: back →
    Balanced inner → a = b

@[simp] theorem depth_nil : depth ([] : List (Bracket α)) = 0 := rfl

@[simp] theorem depth_cons (x : Bracket α) (l : List (Bracket α)) :
    depth (x :: l) = x.change + depth l := by
  simp [depth]

@[simp] theorem depth_append (l l' : List (Bracket α)) : depth (l ++ l') = depth l + depth l' := by
  simp [depth]

theorem front_cases {front l l' : List (Bracket α)} (h : front <+: l ++ l') :
    front <+: l ∨ ∃ rest, front = l ++ rest ∧ rest <+: l' := by
  rcases List.prefix_or_prefix_of_prefix h (List.prefix_append l l') with hin | ⟨rest, rfl⟩
  · exact Or.inl hin
  · exact Or.inr ⟨rest, rfl, (List.prefix_append_right_inj l).mp h⟩

theorem neverBelow_append {l l' : List (Bracket α)} (h : NeverBelow l)
    (h' : ∀ front, front <+: l' → 0 ≤ depth l + depth front) : NeverBelow (l ++ l') := by
  intro front hfront
  rcases front_cases hfront with hin | ⟨rest, rfl, hrest⟩
  · exact h front hin
  · rw [depth_append]
    exact h' rest hrest

theorem Balanced.nil : Balanced ([] : List (Bracket α)) := by
  refine ⟨rfl, fun front hfront => ?_⟩
  rw [List.prefix_nil.mp hfront]
  exact Int.le_refl 0

theorem Balanced.append {l l' : List (Bracket α)} (h : Balanced l) (h' : Balanced l') :
    Balanced (l ++ l') := by
  refine ⟨by rw [depth_append, h.depth_eq, h'.depth_eq]; rfl, neverBelow_append h.below ?_⟩
  intro front hfront
  rw [h.depth_eq, Int.zero_add]
  exact h'.below front hfront

/-- A pair of brackets around brackets that balance. -/
theorem Balanced.wrap {l : List (Bracket α)} (h : Balanced l) (a b : α) :
    Balanced (.opening a :: l ++ [.closing b]) := by
  constructor
  · simp [h.depth_eq, Bracket.change]
  · intro front hfront
    rcases front_cases hfront with hin | ⟨rest, rfl, hrest⟩
    · rcases List.prefix_cons_iff.mp hin with rfl | ⟨inner, rfl, hinner⟩
      · exact Int.le_refl 0
      · have hpos := h.below inner hinner
        simp only [depth_cons, Bracket.change]
        omega
    · rcases List.prefix_cons_iff.mp hrest with rfl | ⟨tail, rfl, htail⟩
      · simp [h.depth_eq, Bracket.change]
      · rw [List.prefix_nil.mp htail]
        simp [h.depth_eq, Bracket.change]

/-! ## Nested brackets balance -/

theorem WellNested.depth_eq {labels : List α} {l : List (Bracket α)} (h : WellNested labels l) :
    labels.length + depth l = 0 := by
  induction l generalizing labels with
  | nil =>
      obtain rfl : labels = [] := h
      rfl
  | cons x l ih =>
      match x, labels, h with
      | .opening a, labels, h =>
          have hrest := ih h
          simp only [List.length_cons, depth_cons, Bracket.change] at hrest ⊢
          omega
      | .closing b, a :: labels, h =>
          have hrest := ih h.2
          simp only [List.length_cons, depth_cons, Bracket.change]
          omega

theorem WellNested.below {labels : List α} {l : List (Bracket α)} (h : WellNested labels l)
    {front : List (Bracket α)} (hfront : front <+: l) : 0 ≤ labels.length + depth front := by
  induction l generalizing labels front with
  | nil =>
      rw [List.prefix_nil.mp hfront]
      simp
  | cons x l ih =>
      rcases List.prefix_cons_iff.mp hfront with rfl | ⟨tail, rfl, htail⟩
      · simp
      · match x, labels, h with
        | .opening a, labels, h =>
            have hrest := ih h htail
            simp only [List.length_cons, depth_cons, Bracket.change] at hrest ⊢
            omega
        | .closing b, a :: labels, h =>
            have hrest := ih h.2 htail
            simp only [List.length_cons, depth_cons, Bracket.change]
            omega

/-- Behind any front some brackets are open. -/
theorem WellNested.behind {labels : List α} {front rest : List (Bracket α)}
    (h : WellNested labels (front ++ rest)) : ∃ labels', WellNested labels' rest := by
  induction front generalizing labels with
  | nil => exact ⟨labels, h⟩
  | cons x front ih =>
      match x, labels, h with
      | .opening a, labels, h => exact ih h
      | .closing b, a :: labels, h => exact ih h.2

/-- Brackets that close the first few open ones leave the others as they are. -/
theorem WellNested.skip {labels below : List α} {inner rest : List (Bracket α)}
    (hlow : ∀ front, front <+: inner → 0 ≤ labels.length + depth front)
    (hzero : labels.length + depth inner = 0) (h : WellNested (labels ++ below) (inner ++ rest)) :
    WellNested below rest := by
  induction inner generalizing labels with
  | nil =>
      obtain rfl : labels = [] := List.length_eq_zero_iff.mp (by simpa using hzero)
      exact h
  | cons x inner ih =>
      have hfirst := hlow [x] (List.prefix_append [x] inner)
      have hlater (front : List (Bracket α)) (hfront : front <+: inner) :=
        hlow (x :: front) (List.cons_prefix_cons.mpr ⟨rfl, hfront⟩)
      match x, labels, h with
      | .opening a, labels, h =>
          refine @ih (a :: labels) (fun front hfront => ?_) ?_ h
          · have hpos := hlater front hfront
            simp only [List.length_cons, depth_cons, Bracket.change] at hpos ⊢
            omega
          · simp only [List.length_cons, depth_cons, Bracket.change] at hzero ⊢
            omega
      | .closing b, [], _ =>
          simp [Bracket.change] at hfirst
      | .closing b, a :: labels, h =>
          refine ih (fun front hfront => ?_) ?_ h.2
          · have hpos := hlater front hfront
            simp only [List.length_cons, depth_cons, Bracket.change] at hpos
            omega
          · simp only [List.length_cons, depth_cons, Bracket.change] at hzero
            omega

theorem WellNested.labelsAgree {l : List (Bracket α)} (h : WellNested [] l) : LabelsAgree l := by
  rintro front a inner b back rfl hinner
  rw [List.append_assoc] at h
  obtain ⟨labels, hbehind⟩ := h.behind
  have hclose : WellNested (a :: labels) (.closing b :: back) := by
    refine @WellNested.skip α [] (a :: labels) inner _ (fun front hfront => ?_) ?_ hbehind
    · simpa using hinner.below front hfront
    · simpa using hinner.depth_eq
  exact hclose.1

/-! ## Balanced brackets whose labels agree nest -/

/-- What stands in front of the rest leaves brackets with these labels open. -/
inductive Pending : List α → List (Bracket α) → Prop
  | none {front : List (Bracket α)} (balanced : Balanced front) : Pending [] front
  | some {labels : List α} {front inner : List (Bracket α)} (a : α) (below : Pending labels front)
      (balanced : Balanced inner) : Pending (a :: labels) (front ++ .opening a :: inner)

theorem Pending.append {labels : List α} {front l : List (Bracket α)} (h : Pending labels front)
    (hl : Balanced l) : Pending labels (front ++ l) := by
  cases h with
  | none balanced => exact .none (balanced.append hl)
  | some a below balanced =>
      rw [List.append_assoc, List.cons_append]
      exact .some a below (balanced.append hl)

theorem Pending.depth_eq {labels : List α} {front : List (Bracket α)} (h : Pending labels front) :
    depth front = labels.length := by
  induction h with
  | none balanced => exact balanced.depth_eq
  | some a _ balanced ih =>
      simp only [depth_append, depth_cons, ih, balanced.depth_eq, Bracket.change,
        List.length_cons]
      omega

theorem wellNested_of_pending {labels : List α} {front l : List (Bracket α)}
    (hfront : Pending labels front) (hl : Balanced (front ++ l))
    (hagree : LabelsAgree (front ++ l)) : WellNested labels l := by
  induction l generalizing labels front with
  | nil =>
      have hdepth := hl.depth_eq
      rw [List.append_nil, hfront.depth_eq] at hdepth
      exact List.length_eq_zero_iff.mp (by omega)
  | cons x l ih =>
      have hsplit : front ++ x :: l = front ++ [x] ++ l := by simp
      cases x with
      | opening a =>
          refine ih (.some a hfront .nil) ?_ ?_
          · rwa [hsplit] at hl
          · rwa [hsplit] at hagree
      | closing b =>
          cases hfront with
          | none balanced =>
              have hpos := hl.below (front ++ [.closing b]) (hsplit ▸ List.prefix_append _ l)
              rw [depth_append, balanced.depth_eq] at hpos
              simp [Bracket.change] at hpos
          | @some labels before inner a below balanced =>
              refine ⟨hagree before a inner b l rfl balanced, ?_⟩
              have hpair : Pending labels (before ++ (.opening a :: inner ++ [.closing b])) :=
                below.append (balanced.wrap a b)
              rw [hsplit, List.append_assoc before] at hl hagree
              exact ih hpair hl hagree

/-- Brackets nest if and only if they balance and their labels agree. -/
theorem wellNested_iff (l : List (Bracket α)) :
    WellNested [] l ↔ Balanced l ∧ LabelsAgree l := by
  constructor
  · intro h
    refine ⟨⟨?_, fun front hfront => ?_⟩, h.labelsAgree⟩
    · simpa using h.depth_eq
    · simpa using h.below hfront
  · rintro ⟨hbalanced, hagree⟩
    exact @wellNested_of_pending α [] [] l (.none .nil) hbalanced hagree

end Brackets
