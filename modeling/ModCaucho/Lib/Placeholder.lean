import Mathlib.Data.List.ReduceOption
import Mathlib.Tactic.Common

/-!
# Lists that start with a placeholder

A list of entries in which a weak entry gives way when it stands alone and the next
entry is enrolled. An entry that could not be made is `none`: room is made for it all
the same. What is left once a list of entries is enrolled has a closed form: everything up
to the first strong entry is gone, and everything from there on is kept.
-/

namespace Placeholder

variable {α : Type*} (weak : α → Bool)

/-- The entries that the next one is enrolled behind. -/
def kept : List α → List α
  | [a] => if weak a then [] else [a]
  | as => as

/-- The entries after one more is enrolled. -/
def enroll (as : List α) (x : Option α) : List α := kept weak as ++ x.toList

/-- What is left if all that were enrolled are weak, or none. -/
def lastAlone (xs : List (Option α)) : List α := xs.getLast?.join.toList

/-- The entries once these are enrolled in a list of which none is to be kept. -/
def settled (xs : List (Option α)) : List α :=
  match xs.dropWhile fun x => x.all weak with
  | [] => lastAlone xs
  | strong => strong.reduceOption

variable {weak}

@[simp] theorem kept_nil : kept weak ([] : List α) = [] := rfl

theorem kept_weak {a : α} (h : weak a = true) : kept weak [a] = [] := by
  rw [kept, if_pos h]

theorem kept_strong {a : α} (h : weak a = false) (as : List α) : kept weak (a :: as) = a :: as := by
  cases as with
  | nil => rw [kept, h, if_neg Bool.false_ne_true]
  | cons b as => rfl

/-- Behind a strong entry everything is kept. -/
theorem foldl_enroll_strong {a : α} (h : weak a = false) (as : List α) (xs : List (Option α)) :
    xs.foldl (enroll weak) (a :: as) = a :: as ++ xs.reduceOption := by
  induction xs generalizing as with
  | nil => simp
  | cons x xs ih =>
      rw [List.foldl_cons, enroll, kept_strong h, List.cons_append, ih]
      cases x with
      | none => simp
      | some b => simp

theorem settled_weak {x : Option α} (h : x.all weak = true) {y : Option α} (xs : List (Option α)) :
    settled weak (x :: y :: xs) = settled weak (y :: xs) := by
  have hlast : lastAlone (x :: y :: xs) = lastAlone (y :: xs) := by
    simp [lastAlone, List.getLast?_cons_cons]
  rw [settled, settled, List.dropWhile_cons_of_pos h, hlast]

theorem settled_strong {a : α} (h : weak a = false) (xs : List (Option α)) :
    settled weak (some a :: xs) = a :: xs.reduceOption := by
  rw [settled, List.dropWhile_cons_of_neg (by simp [h])]
  simp

/-- As long as no strong entry has come, there is at most the last one. -/
theorem foldl_enroll_cons {as : List α} (has : kept weak as = []) (x : Option α)
    (xs : List (Option α)) : (x :: xs).foldl (enroll weak) as = settled weak (x :: xs) := by
  induction xs generalizing as x with
  | nil =>
      rw [List.foldl_cons, List.foldl_nil, enroll, has, List.nil_append]
      cases x with
      | none => rfl
      | some a => cases h : weak a <;> simp [settled, lastAlone, h]
  | cons y xs ih =>
      rw [List.foldl_cons, enroll, has, List.nil_append]
      cases x with
      | none => rw [Option.toList_none, ih kept_nil y, settled_weak rfl]
      | some a =>
          rw [Option.toList_some]
          cases h : weak a with
          | true => rw [ih (kept_weak h) y, settled_weak (x := some a) h]
          | false => rw [foldl_enroll_strong h, settled_strong h, List.singleton_append]

/-- The entries that are left of these: all from the first strong one on, or the last one. -/
def standing (weak : α → Bool) (xs : List α) : List α :=
  match xs.dropWhile weak with
  | [] => xs.getLast?.toList
  | x :: strong => x :: strong

/-- If every entry was made, those are left. -/
theorem settled_map_some (xs : List α) : settled weak (xs.map some) = standing weak xs := by
  have hdrop : (xs.map some).dropWhile (fun x => x.all weak) = (xs.dropWhile weak).map some :=
    List.dropWhile_map
  rw [settled, hdrop, standing]
  cases xs.dropWhile weak with
  | nil =>
      simp only [lastAlone, List.map_nil, List.getLast?_map]
      cases xs.getLast? <;> rfl
  | cons x strong => simp [List.reduceOption]

theorem standing_map {β : Type*} (f : β → α) (xs : List β) :
    standing weak (xs.map f) = (standing (fun x => weak (f x)) xs).map f := by
  have hdrop : (xs.map f).dropWhile weak = (xs.dropWhile fun x => weak (f x)).map f :=
    List.dropWhile_map
  rw [standing, hdrop, standing]
  cases xs.dropWhile fun x => weak (f x) with
  | nil =>
      rw [List.map_nil, List.getLast?_map]
      cases xs.getLast? <;> rfl
  | cons x strong => rfl

/-- Something is left of any entries. -/
theorem standing_ne_nil {xs : List α} (h : xs ≠ []) : standing weak xs ≠ [] := by
  rw [standing]
  cases xs.dropWhile weak with
  | nil =>
      rw [List.getLast?_eq_getLast_of_ne_nil h]
      exact List.cons_ne_nil _ _
  | cons x strong => exact List.cons_ne_nil _ _

end Placeholder
