import Mathlib.Algebra.GroupWithZero.Nat
import Mathlib.Data.Nat.Notation
import Mathlib.Tactic.Common

/-!
# Forests

Ordered forests in the form of first child and next sibling, and the cursor of
a builder in them: the open nodes from the innermost one outwards, each with
the children that are closed already.
-/

namespace LinkedForest

/-- A list of siblings, each with the list of its children. -/
inductive Forest (α : Type*)
  | nil
  | node (a : α) (first next : Forest α)
deriving DecidableEq, Repr

namespace Forest

variable {α : Type*}

/-- The children of the first sibling. -/
def first : Forest α → Forest α
  | nil => nil
  | node _ first _ => first

/-- The lists of siblings that begin at each sibling in turn. -/
def siblings : Forest α → List (Forest α)
  | nil => []
  | node a first next => node a first next :: siblings next

/-- The siblings of the one forest, then those of the other. -/
def append : Forest α → Forest α → Forest α
  | nil, t => t
  | node a first next, t => node a first (append next t)

/-- The last sibling with its children. -/
def lastNode : Forest α → Option (α × Forest α)
  | nil => none
  | node a first nil => some (a, first)
  | node _ _ next => lastNode next

/-- The number of nodes. -/
def size : Forest α → ℕ
  | nil => 0
  | node _ first next => size first + size next + 1

@[simp] theorem nil_append (t : Forest α) : nil.append t = t := rfl

@[simp] theorem node_append (a : α) (f n t : Forest α) :
    (node a f n).append t = node a f (n.append t) := rfl

@[simp] theorem append_nil (s : Forest α) : s.append nil = s := by
  induction s with
  | nil => rfl
  | node a f n _ ih => rw [node_append, ih]

theorem append_assoc (s t u : Forest α) : (s.append t).append u = s.append (t.append u) := by
  induction s with
  | nil => rfl
  | node a f n _ ih => simp only [node_append, ih]

theorem append_eq_nil_iff (s t : Forest α) : s.append t = nil ↔ s = nil ∧ t = nil := by
  cases s <;> simp

theorem size_append (s t : Forest α) : (s.append t).size = s.size + t.size := by
  induction s with
  | nil => simp [size]
  | node a f n _ ih =>
      simp only [node_append, size, ih]
      omega

theorem lastNode_append (s t : Forest α) (h : t ≠ nil) :
    (s.append t).lastNode = t.lastNode := by
  induction s with
  | nil => rfl
  | node a f n _ ih =>
      rw [node_append]
      cases hnt : n.append t with
      | nil => exact absurd ((append_eq_nil_iff n t).mp hnt).2 h
      | node a' f' n' =>
          rw [lastNode, ← hnt, ih]
          simp

theorem append_node_inj {s t : Forest α} {a b : α} {f g : Forest α}
    (h : s.append (node a f nil) = t.append (node b g nil)) : s = t ∧ a = b ∧ f = g := by
  induction s generalizing t with
  | nil =>
      cases t with
      | nil =>
          cases h
          exact ⟨rfl, rfl, rfl⟩
      | node c f' n =>
          rw [nil_append, node_append, node.injEq] at h
          exact absurd ((append_eq_nil_iff n _).mp h.2.2.symm).2 (by simp)
  | node c f' n _ ih =>
      cases t with
      | nil =>
          rw [nil_append, node_append, node.injEq] at h
          exact absurd ((append_eq_nil_iff n _).mp h.2.2).2 (by simp)
      | node c' f'' n' =>
          rw [node_append, node_append, node.injEq] at h
          obtain ⟨rfl, rfl, hn⟩ := h
          obtain ⟨rfl, hrest⟩ := ih hn
          exact ⟨rfl, hrest⟩

/-! ## Counting -/

/-- The number of nodes with a property that may depend on their children and on whether
they are the first of their siblings. -/
def count (P : Bool → α → Forest α → Bool) : Bool → Forest α → ℕ
  | _, nil => 0
  | b, node a f n => (if P b a f then 1 else 0) + count P true f + count P false n

theorem count_append (P : Bool → α → Forest α → Bool) (b : Bool) {s : Forest α} (h : s ≠ nil)
    (t : Forest α) : count P b (s.append t) = count P b s + count P false t := by
  induction s generalizing b with
  | nil => exact absurd rfl h
  | node a f n _ ih =>
      cases n with
      | nil => simp only [node_append, nil_append, count, Nat.add_zero]
      | node a' f' n' =>
          have hn := ih false (by simp)
          simp only [node_append] at hn ⊢
          rw [count, hn]
          simp only [count]
          omega

/-- One node more at the end, which is the first one only in an empty list. -/
theorem count_append_node (P : Bool → α → Forest α → Bool) {s : Forest α} {c : Bool}
    (hc : c = true ↔ s = nil) (a : α) (f : Forest α) :
    count P true (s.append (node a f nil)) =
      count P true s + count P true f + if P c a f then 1 else 0 := by
  cases hs : s with
  | nil =>
      rw [hc.mpr hs]
      simp only [nil_append, count]
      omega
  | node a' f' n' =>
      have hfalse : c = false := by
        rw [← Bool.not_eq_true, hc, hs]
        simp
      rw [count_append P true (by simp), hfalse]
      simp only [count]
      omega

/-- Nodes of one kind are of one of two other kinds. -/
theorem count_add {P Q R : Bool → α → Forest α → Bool}
    (h : ∀ b a f, P b a f = (Q b a f || R b a f) ∧ (Q b a f && R b a f) = false) (b : Bool)
    (s : Forest α) : count P b s = count Q b s + count R b s := by
  induction s generalizing b with
  | nil => rfl
  | node a f n ihf ihn =>
      have hone : (if P b a f then 1 else 0) =
          (if Q b a f then 1 else 0) + if R b a f then 1 else 0 := by
        obtain ⟨hor, hand⟩ := h b a f
        rw [hor]
        cases hQ : Q b a f <;> cases hR : R b a f
        · rfl
        · rfl
        · rfl
        · rw [hQ, hR] at hand
          cases hand
      simp only [count, hone, ihf true, ihn false]
      omega

/-- A forest without nodes of a kind does not end with one. -/
theorem lastNode_of_count_eq_zero {P : Bool → α → Forest α → Bool} {b : Bool} {s f : Forest α}
    {a : α} (h : count P b s = 0) (hlast : s.lastNode = some (a, f)) : ∃ b', P b' a f = false := by
  induction s generalizing b with
  | nil => cases hlast
  | node a' f' n _ ih =>
      rw [count] at h
      cases n with
      | nil =>
          cases hlast
          refine ⟨b, ?_⟩
          by_contra hP
          rw [Bool.not_eq_false] at hP
          simp [hP] at h
      | node a'' f'' n' =>
          have hn : count P false (node a'' f'' n') = 0 := by omega
          exact ih hn hlast

/-! ## Contexts -/

/-- A node on the way down to a list of siblings, with the siblings around it. -/
structure Layer (α : Type*) where
  left : Forest α
  data : α
  right : Forest α

/-- The forest in which the way leads to these siblings. -/
def plug : List (Layer α) → Forest α → Forest α
  | [], s => s
  | layer :: path, s => layer.left.append (node layer.data (plug path s) layer.right)

/-- What is counted below is counted. -/
theorem le_count_plug (P : Bool → α → Forest α → Bool) {s : Forest α} {n : ℕ}
    (h : ∀ b, n ≤ s.count P b) (path : List (Layer α)) (b : Bool) :
    n ≤ (plug path s).count P b := by
  induction path generalizing b with
  | nil => exact h b
  | cons layer path ih =>
      have hnode (c : Bool) : n ≤ (node layer.data (plug path s) layer.right).count P c := by
        have hrest := ih true
        rw [count]
        omega
      rw [plug]
      by_cases hleft : layer.left = nil
      · rw [hleft]
        exact hnode b
      · rw [count_append P b hleft]
        exact Nat.le_trans (hnode false) (Nat.le_add_left _ _)

theorem size_plug (path : List (Layer α)) : ∃ n, ∀ s, (plug path s).size = n + s.size := by
  induction path with
  | nil => exact ⟨0, fun s => by simp [plug]⟩
  | cons layer path ih =>
      obtain ⟨n, hn⟩ := ih
      refine ⟨layer.left.size + layer.right.size + 1 + n, fun s => ?_⟩
      simp only [plug, size_append, size, hn]
      omega

end Forest

/-! ## The cursor -/

/-- An open node with its closed children. The children may hang behind one node more,
which is then the only child that is seen. -/
structure Frame (α : Type*) where
  data : α
  kids : Forest α
  behind : Option α
deriving DecidableEq, Repr

namespace Frame

variable {α : Type*}

/-- A node that was just opened. -/
def fresh (a : α) : Frame α := ⟨a, .nil, none⟩

/-- The children as they are seen. -/
def forest (fr : Frame α) : Forest α :=
  match fr.behind with
  | none => fr.kids
  | some a => .node a fr.kids .nil

/-- The node as a tree of its own. -/
def tree (fr : Frame α) : Forest α := .node fr.data fr.forest .nil

/-- The node with one child more. -/
def add (fr : Frame α) (t : Forest α) : Frame α := { fr with kids := fr.kids.append t }

/-- The node with these siblings more, which hang behind another node if they are the
first. -/
def graft (fr : Frame α) (a : α) (s : Forest α) : Frame α :=
  { fr with
    kids := fr.kids.append s
    behind := match fr.kids with
      | .nil => some a
      | .node .. => fr.behind }

theorem add_tree_inj {fr fr' up up' : Frame α} (h : up.add fr.tree = up'.add fr'.tree) :
    up = up' ∧ fr.data = fr'.data ∧ fr.forest = fr'.forest := by
  unfold add at h
  rw [mk.injEq] at h
  obtain ⟨hdata, hkids, hbehind⟩ := h
  obtain ⟨hkids', hnode⟩ := Forest.append_node_inj hkids
  refine ⟨?_, hnode⟩
  calc up = ⟨up.data, up.kids, up.behind⟩ := rfl
    _ = up' := by rw [hdata, hkids', hbehind]

/-- The number of closed nodes with a property. -/
def count (P : Bool → α → Forest α → Bool) (frs : List (Frame α)) : ℕ :=
  (frs.map fun fr => fr.kids.count P true).sum

@[simp] theorem count_cons (P : Bool → α → Forest α → Bool) (fr : Frame α)
    (frs : List (Frame α)) : count P (fr :: frs) = fr.kids.count P true + count P frs := rfl

theorem count_eq_zero_iff (P : Bool → α → Forest α → Bool) (frs : List (Frame α)) :
    count P frs = 0 ↔ ∀ fr ∈ frs, fr.kids.count P true = 0 := by
  induction frs with
  | nil => simp [count]
  | cons fr frs ih => rw [count_cons, Nat.add_eq_zero_iff, ih, List.forall_mem_cons]

/-- The tree when every open node is closed. -/
def closeAll (fr : Frame α) : List (Frame α) → Frame α
  | [] => fr
  | up :: ups => closeAll (up.add fr.tree) ups

/-- What holds of the data of each open node holds of the root. -/
theorem closeAll_data {P : α → Prop} {fr : Frame α} {ups : List (Frame α)}
    (h : ∀ up ∈ fr :: ups, P up.data) : P (fr.closeAll ups).data := by
  induction ups generalizing fr with
  | nil => exact h fr List.mem_cons_self
  | cons up ups ih =>
      apply ih
      intro up' hup'
      rcases List.mem_cons.mp hup' with rfl | hmem
      · exact h up (by simp)
      · exact h up' (by simp [hmem])

theorem closeAll_behind {fr : Frame α} {ups : List (Frame α)}
    (h : ∀ up ∈ fr :: ups, up.behind = none) : (fr.closeAll ups).behind = none := by
  induction ups generalizing fr with
  | nil => exact h fr List.mem_cons_self
  | cons up ups ih =>
      apply ih
      intro up' hup'
      rcases List.mem_cons.mp hup' with rfl | hmem
      · exact h up (by simp)
      · exact h up' (by simp [hmem])

end Frame

end LinkedForest
