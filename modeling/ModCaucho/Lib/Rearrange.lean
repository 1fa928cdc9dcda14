import Mathlib.Data.List.Perm.Basic
import ModCaucho.Lib.Forest

/-!
# Rearranged forests

A forest is rearranged by permuting siblings and by repeating a sibling, at any depth.
Every sibling of the one forest then has a counterpart with the same label in the other,
whose children are rearranged.
-/

namespace LinkedForest

namespace Forest

variable {α : Type*}

/-- The siblings, each as its label with its children. -/
def children : Forest α → List (α × Forest α)
  | nil => []
  | node a first next => (a, first) :: children next

@[simp] theorem children_nil : (nil : Forest α).children = [] := rfl

@[simp] theorem children_node (a : α) (f n : Forest α) :
    (node a f n).children = (a, f) :: n.children := rfl

/-- What is said of the label and the children of a sibling only. -/
theorem exists_siblings_iff {P : Forest α → Prop} {Q : α × Forest α → Prop}
    (h : ∀ a f n, P (node a f n) ↔ Q (a, f)) (s : Forest α) :
    (∃ t ∈ s.siblings, P t) ↔ ∃ x ∈ s.children, Q x := by
  induction s with
  | nil => simp [siblings]
  | node a f n _ ih =>
      simp only [siblings, children_node, List.exists_mem_cons_iff, h a f n, ih]

@[simp] theorem children_append (s t : Forest α) :
    (s.append t).children = s.children ++ t.children := by
  induction s with
  | nil => rfl
  | node a f n _ ih => simp only [node_append, children_node, ih, List.cons_append]

/-- The siblings with a label that is asked for. -/
def only (p : α → Bool) : Forest α → Forest α
  | nil => nil
  | node a first next => if p a then node a first (only p next) else only p next

@[simp] theorem children_only (p : α → Bool) (s : Forest α) :
    (s.only p).children = s.children.filter fun x => p x.1 := by
  induction s with
  | nil => rfl
  | node a f n _ ih =>
      rw [only, children_node, List.filter_cons]
      split
      · rw [children_node, ih]
      · exact ih

/-- The siblings with other children. -/
def mapFirst (g : α → Forest α → Forest α) : Forest α → Forest α
  | nil => nil
  | node a first next => node a (g a first) (mapFirst g next)

@[simp] theorem children_mapFirst (g : α → Forest α → Forest α) (s : Forest α) :
    (s.mapFirst g).children = s.children.map fun x => (x.1, g x.1 x.2) := by
  induction s with
  | nil => rfl
  | node a f n _ ih => simp only [mapFirst, children_node, ih, List.map_cons]

end Forest

open Forest

variable {α : Type*}

/-- The second forest comes from the first one by permuting siblings and repeating
siblings, also among the children. -/
inductive Rearranged : Forest α → Forest α → Prop
  | perm {s t : Forest α} : s.children.Perm t.children → Rearranged s t
  | again (a : α) (f n : Forest α) : Rearranged (node a f n) (node a f (node a f n))
  | inside (a : α) {f f' n n' : Forest α} :
      Rearranged f f' → Rearranged n n' → Rearranged (node a f n) (node a f' n')
  | trans {s t u : Forest α} : Rearranged s t → Rearranged t u → Rearranged s u

theorem Rearranged.refl (s : Forest α) : Rearranged s s := .perm (List.Perm.refl _)

/-- Every sibling on either side has a counterpart on the other one. -/
theorem Rearranged.counterparts {s t : Forest α} (h : Rearranged s t) :
    (∀ a f, (a, f) ∈ s.children → ∃ f', (a, f') ∈ t.children ∧ Rearranged f f') ∧
      ∀ a f', (a, f') ∈ t.children → ∃ f, (a, f) ∈ s.children ∧ Rearranged f f' := by
  induction h with
  | perm hperm =>
      exact ⟨fun a f hf => ⟨f, hperm.mem_iff.mp hf, .refl f⟩,
        fun a f hf => ⟨f, hperm.mem_iff.mpr hf, .refl f⟩⟩
  | again b g n =>
      refine ⟨fun a f hf => ⟨f, List.mem_cons_of_mem _ hf, .refl f⟩, fun a f hf => ⟨f, ?_, .refl f⟩⟩
      rcases List.mem_cons.mp hf with hf | hf
      · exact hf ▸ List.mem_cons_self
      · exact hf
  | inside b hfirst hnext ihfirst ihnext =>
      constructor
      · intro a f hf
        rcases List.mem_cons.mp hf with heq | hf
        · cases heq
          exact ⟨_, List.mem_cons_self, hfirst⟩
        · obtain ⟨f', hf', hrest⟩ := ihnext.1 a f hf
          exact ⟨f', List.mem_cons_of_mem _ hf', hrest⟩
      · intro a f' hf'
        rcases List.mem_cons.mp hf' with heq | hf'
        · cases heq
          exact ⟨_, List.mem_cons_self, hfirst⟩
        · obtain ⟨f, hf, hrest⟩ := ihnext.2 a f' hf'
          exact ⟨f, List.mem_cons_of_mem _ hf, hrest⟩
  | trans _ _ ih ih' =>
      constructor
      · intro a f hf
        obtain ⟨f', hf', hrest⟩ := ih.1 a f hf
        obtain ⟨f'', hf'', hrest'⟩ := ih'.1 a f' hf'
        exact ⟨f'', hf'', hrest.trans hrest'⟩
      · intro a f'' hf''
        obtain ⟨f', hf', hrest'⟩ := ih'.2 a f'' hf''
        obtain ⟨f, hf, hrest⟩ := ih.2 a f' hf'
        exact ⟨f, hf, hrest.trans hrest'⟩

/-- What holds of some sibling, and does not depend on how its children are arranged,
holds of some sibling of a rearranged forest too. -/
theorem Rearranged.exists_iff {s t : Forest α} (h : Rearranged s t) {P Q : α × Forest α → Prop}
    (hsame : ∀ a f f', (a, f) ∈ s.children → Rearranged f f' → (P (a, f) ↔ Q (a, f'))) :
    (∃ x ∈ s.children, P x) ↔ ∃ x ∈ t.children, Q x := by
  constructor
  · rintro ⟨⟨a, f⟩, hmem, hP⟩
    obtain ⟨f', hmem', hrest⟩ := h.counterparts.1 a f hmem
    exact ⟨(a, f'), hmem', (hsame a f f' hmem hrest).mp hP⟩
  · rintro ⟨⟨a, f'⟩, hmem', hQ⟩
    obtain ⟨f, hmem, hrest⟩ := h.counterparts.2 a f' hmem'
    exact ⟨(a, f), hmem, (hsame a f f' hmem hrest).mpr hQ⟩

end LinkedForest
