import Mathlib.Data.List.Infix
import Mathlib.Data.List.TakeWhile

/-!
# Searching a word in a text

`find s xs` is the part of `xs` that begins with the first occurrence of `s`.
`Met s xs rest` says that the left-to-right scan for `s`, which goes on behind
each occurrence it has found, meets one with `rest` behind it. The scan does not
meet an occurrence that overlaps one it has met before.
-/

namespace Subword

variable {α : Type*} [DecidableEq α]

/-- The part of the text that begins with the first occurrence of the word. -/
def find (s : List α) : List α → Option (List α)
  | [] => if s = [] then some [] else none
  | x :: xs => if s <+: x :: xs then some (x :: xs) else find s xs

theorem find_cons_here {s xs : List α} {x : α} (h : s <+: x :: xs) :
    find s (x :: xs) = some (x :: xs) := if_pos h

theorem find_cons_later {s xs : List α} {x : α} (h : ¬ s <+: x :: xs) :
    find s (x :: xs) = find s xs := if_neg h

/-- What is found is an occurrence. -/
theorem find_some {s xs ys : List α} (h : find s xs = some ys) :
    s <+: ys ∧ ∃ front, xs = front ++ ys := by
  induction xs with
  | nil =>
      unfold find at h
      split at h
      · next hs =>
          cases h
          exact ⟨by rw [hs], [], rfl⟩
      · cases h
  | cons x xs ih =>
      by_cases hp : s <+: x :: xs
      · rw [find_cons_here hp] at h
        cases h
        exact ⟨hp, [], rfl⟩
      · rw [find_cons_later hp] at h
        obtain ⟨hs, front, rfl⟩ := ih h
        exact ⟨hs, x :: front, rfl⟩

theorem find_isSome_iff (s xs : List α) : (find s xs).isSome ↔ s <:+: xs := by
  induction xs with
  | nil =>
      unfold find
      by_cases hs : s = [] <;> simp [hs]
  | cons x xs ih =>
      rw [List.infix_cons_iff]
      by_cases hp : s <+: x :: xs
      · simp [find_cons_here hp, hp]
      · rw [find_cons_later hp, ih]
        simp [hp]

theorem find_eq_none_iff (s xs : List α) : find s xs = none ↔ ¬ s <:+: xs := by
  rw [← find_isSome_iff]
  cases find s xs <;> simp

/-- A word is found at the beginning of a text. -/
theorem find_prefix (s xs : List α) : find s (s ++ xs) = some (s ++ xs) := by
  cases hsxs : s ++ xs with
  | nil => rw [find, if_pos (List.append_eq_nil_iff.mp hsxs).1]
  | cons x ys => exact find_cons_here (hsxs ▸ List.prefix_append s xs)

/-- The part of the text before the first occurrence of the word, or the whole text. -/
def before (s : List α) : List α → List α
  | [] => []
  | x :: xs => if s <+: x :: xs then [] else x :: before s xs

theorem before_of_find {s xs ys : List α} (h : find s xs = some ys) :
    xs.take (xs.length - ys.length) = before s xs := by
  induction xs with
  | nil => simp [before]
  | cons x xs ih =>
      by_cases hp : s <+: x :: xs
      · rw [find_cons_here hp] at h
        cases h
        simp [before, hp]
      · rw [find_cons_later hp] at h
        obtain ⟨-, front, hfront⟩ := find_some h
        have hlen : (x :: xs).length - ys.length = xs.length - ys.length + 1 := by
          rw [hfront, List.length_cons, List.length_append]
          omega
        rw [hlen, List.take_succ_cons, ih h, before, if_neg hp]

theorem before_of_absent {s xs : List α} (h : ¬ s <:+: xs) : before s xs = xs := by
  induction xs with
  | nil => rfl
  | cons x xs ih =>
      rw [List.infix_cons_iff, not_or] at h
      rw [before, if_neg h.1, ih h.2]

theorem before_le (s xs : List α) : before s xs <+: xs := by
  induction xs with
  | nil => exact List.nil_prefix
  | cons x xs ih =>
      unfold before
      split
      · exact List.nil_prefix
      · exact (List.cons_prefix_cons).mpr ⟨rfl, ih⟩

/-- Behind a text without the word, an element that is not in the word ends the search. -/
theorem before_append {s xs ys : List α} {y : α} (hxs : ¬ s <:+: xs) (hy : y ∉ s) :
    before s (xs ++ y :: ys) = xs ++ before s (y :: ys) := by
  induction xs with
  | nil => rfl
  | cons x xs ih =>
      rw [List.infix_cons_iff, not_or] at hxs
      have hnot : ¬ s <+: x :: (xs ++ y :: ys) := by
        intro hs
        have hall : x :: (xs ++ y :: ys) = x :: xs ++ [y] ++ ys := by simp
        have hfront : x :: xs <+: x :: (xs ++ y :: ys) := List.prefix_append _ _
        rcases Nat.lt_or_ge (x :: xs).length s.length with hlong | hshort
        · have hend : x :: xs ++ [y] <+: s := by
            refine List.prefix_of_prefix_length_le ?_ hs ?_
            · rw [hall]
              exact List.prefix_append _ _
            · rw [List.length_append]
              exact hlong
          exact hy (hend.subset (by simp))
        · exact hxs.1 (List.prefix_of_prefix_length_le hs hfront hshort)
      rw [List.cons_append, before, if_neg hnot, ih hxs.2, List.cons_append]

/-- The search passes over a text without the first element of the word. -/
theorem before_append_of_not_mem {a : α} {s xs ys : List α} (h : a ∉ xs) :
    before (a :: s) (xs ++ ys) = xs ++ before (a :: s) ys := by
  induction xs with
  | nil => rfl
  | cons x xs ih =>
      rw [List.mem_cons, not_or] at h
      have hnot : ¬ a :: s <+: x :: (xs ++ ys) := fun hs => h.1 (List.cons_prefix_cons.mp hs).1
      rw [List.cons_append, before, if_neg hnot, ih h.2, List.cons_append]

theorem before_self {a : α} {s ys : List α} : before (a :: s) (a :: s ++ ys) = [] :=
  if_pos (List.prefix_append _ _)

/-- The text before the first mark is unique. -/
theorem front_unique {c : α} {xs ys xs' ys' : List α} (hxs : c ∉ xs) (hys : c ∉ ys)
    (h : xs ++ c :: xs' = ys ++ c :: ys') : xs = ys := by
  have hfront : ∀ zs zs' : List α, c ∉ zs → (zs ++ c :: zs').takeWhile (· ≠ c) = zs := by
    intro zs zs' hzs
    rw [List.takeWhile_append_of_pos (fun z hz => by simpa using fun hzc : z = c => hzs (hzc ▸ hz))]
    simp
  rw [← hfront xs xs' hxs, h, hfront ys ys' hys]

/-- A word that ends with a mark occurs up to the first mark if and only if the text
before the mark ends with the rest of the word. -/
theorem find_mark {c : α} {s xs : List α} (ys : List α) (hs : c ∉ s) (hne : s ≠ [])
    (hxs : c ∉ xs) :
    find (s ++ [c]) (xs ++ c :: ys) =
      if s <:+ xs then some (s ++ c :: ys) else find (s ++ [c]) ys := by
  induction xs with
  | nil =>
      have hnot : ¬ s ++ [c] <+: c :: ys := by
        intro h
        cases s with
        | nil => exact hne rfl
        | cons a s => exact hs (List.mem_cons.mpr (Or.inl (List.cons_prefix_cons.mp h).1.symm))
      rw [List.nil_append, find_cons_later hnot, if_neg (fun h => hne (List.suffix_nil.mp h))]
  | cons x xs ih =>
      have hat : s ++ [c] <+: x :: (xs ++ c :: ys) ↔ s = x :: xs := by
        constructor
        · rintro ⟨rest, hrest⟩
          have hsplit : s ++ c :: rest = (x :: xs) ++ c :: ys := by simpa using hrest
          exact front_unique hs hxs hsplit
        · rintro rfl
          exact ⟨ys, by simp⟩
      rw [List.cons_append]
      by_cases hhere : s = x :: xs
      · rw [find_cons_here (hat.mpr hhere), hhere, if_pos (List.suffix_refl _), List.cons_append]
      · have hmem : c ∉ xs := fun h => hxs (List.mem_cons_of_mem x h)
        rw [find_cons_later (fun h => hhere (hat.mp h)), ih hmem]
        exact if_congr (List.suffix_cons_iff.trans (or_iff_right hhere)).symm rfl rfl

/-- A word does not end a text with one of its own parts before an element that it lacks. -/
theorem suffix_behind_iff {α : Type*} {c : α} {s : List α} (front xs : List α) (hs : c ∉ s) :
    s <:+ front ++ c :: xs ↔ s <:+ xs := by
  constructor
  · intro h
    rcases List.suffix_or_suffix_of_suffix h (List.suffix_append front (c :: xs)) with hin | hover
    · rcases List.suffix_cons_iff.mp hin with rfl | hin
      · exact absurd List.mem_cons_self hs
      · exact hin
    · exact absurd (hover.subset List.mem_cons_self) hs
  · exact fun h => (h.trans (List.suffix_cons c xs)).trans (List.suffix_append front _)

/-- The occurrences that the left-to-right scan meets, by what is behind them. -/
inductive Met (s : List α) : List α → List α → Prop
  | here {xs rest : List α} (h : find s xs = some (s ++ rest)) : Met s xs rest
  | later {xs mid rest : List α} (h : find s xs = some (s ++ mid)) (hmid : Met s mid rest) :
      Met s xs rest

/-- What the scan meets is an occurrence. -/
theorem Met.occurs {s xs rest : List α} (h : Met s xs rest) : ∃ front, xs = front ++ s ++ rest := by
  induction h with
  | here h =>
      obtain ⟨-, front, rfl⟩ := find_some h
      exact ⟨front, by simp⟩
  | later h hmid ih =>
      obtain ⟨-, front, rfl⟩ := find_some h
      obtain ⟨front', rfl⟩ := ih
      exact ⟨front ++ s ++ front', by simp⟩

theorem not_met_of_find_none {s xs rest : List α} (h : find s xs = none) : ¬ Met s xs rest := by
  intro hmet
  cases hmet with
  | here hs => rw [h] at hs; cases hs
  | later hs => rw [h] at hs; cases hs

/-- The scan meets the first occurrence, and then what it meets behind it. -/
theorem met_iff_of_find {s xs mid rest : List α} (h : find s xs = some (s ++ mid)) :
    Met s xs rest ↔ rest = mid ∨ Met s mid rest := by
  constructor
  · intro hmet
    cases hmet with
    | here hs =>
        rw [h, Option.some_inj] at hs
        exact Or.inl (List.append_cancel_left hs).symm
    | later hs hmid =>
        rw [h, Option.some_inj] at hs
        exact Or.inr (List.append_cancel_left hs ▸ hmid)
  · rintro (rfl | hmid)
    · exact .here h
    · exact .later h hmid

/-- What is found begins no later than any occurrence. -/
theorem find_first (s front rest : List α) :
    ∃ front₀ mid, find s (front ++ s ++ rest) = some (s ++ mid) ∧
      front ++ s ++ rest = front₀ ++ s ++ mid ∧ front₀ <+: front := by
  induction front with
  | nil =>
      exact ⟨[], rest, find_prefix s rest, rfl, List.nil_prefix⟩
  | cons x front ih =>
      by_cases hp : s <+: x :: (front ++ s ++ rest)
      · obtain ⟨mid, hmid⟩ := hp
        refine ⟨[], mid, ?_, hmid.symm, List.nil_prefix⟩
        rw [hmid]
        exact find_cons_here ⟨mid, hmid⟩
      · obtain ⟨front₀, mid, hfind, hsplit, hle⟩ := ih
        refine ⟨x :: front₀, mid, ?_, congrArg (x :: ·) hsplit, ?_⟩
        · rw [← hfind]
          exact find_cons_later hp
        · exact List.cons_prefix_cons.mpr ⟨rfl, hle⟩

/-- The first occurrence of a word in a text, by what is before and behind it. -/
structure FirstAt (s xs front rest : List α) : Prop where
  occurs : xs = front ++ s ++ rest
  first : ∀ front' rest', xs = front' ++ s ++ rest' → front.length ≤ front'.length

theorem FirstAt.find_eq {s xs front rest : List α} (h : FirstAt s xs front rest) :
    find s xs = some (s ++ rest) := by
  obtain ⟨front₀, mid, hfind, hsplit, hle⟩ := find_first s front rest
  have hfront : front₀ = front :=
    hle.eq_of_length_le (h.first front₀ mid (h.occurs.trans hsplit))
  rw [hfront, List.append_assoc, List.append_assoc] at hsplit
  rw [h.occurs, hfind, ← List.append_cancel_left hsplit]

/-- What is found directly behind a front is the first occurrence. -/
theorem firstAt_of_find {s xs front rest : List α} (h : xs = front ++ s ++ rest)
    (hfind : find s xs = some (s ++ rest)) : FirstAt s xs front rest where
  occurs := h
  first := by
    intro front' rest' hxs
    obtain ⟨front₀, mid, hfind', hsplit, hle⟩ := find_first s front' rest'
    rw [← hxs, hfind, Option.some_inj] at hfind'
    rw [← hxs, h, ← List.append_cancel_left hfind'] at hsplit
    rw [List.append_cancel_right (List.append_cancel_right hsplit)]
    exact hle.length_le

/-- A word that ends with a mark occurs first behind a text without the word. -/
theorem find_behind {c : α} {s xs : List α} (ys : List α) (hs : c ∉ s)
    (hxs : ¬ s ++ [c] <:+: xs) :
    find (s ++ [c]) (xs ++ (s ++ [c]) ++ ys) = some (s ++ [c] ++ ys) := by
  obtain ⟨front, mid, hfind, hsplit, gap, rfl⟩ := find_first (s ++ [c]) xs ys
  have hgap : gap ++ s ++ (c :: ys) = s ++ [c] ++ mid := by
    simp only [List.append_assoc, List.append_cancel_left_eq] at hsplit
    simpa using hsplit
  by_cases hnil : gap = []
  · rw [hnil, List.nil_append, List.append_assoc] at hgap
    rw [hfind]
    simpa using (List.append_cancel_left hgap).symm
  have hle : s ++ [c] <+: gap ++ s ++ (c :: ys) := ⟨mid, hgap.symm⟩
  rcases Nat.lt_or_ge s.length gap.length with hlong | hshort
  · have hin : s ++ [c] <+: gap := by
      refine List.prefix_of_prefix_length_le hle ?_ ?_
      · rw [List.append_assoc]
        exact List.prefix_append _ _
      · rw [List.length_append]
        exact hlong
    exact absurd (hin.isInfix.trans (List.suffix_append front gap).isInfix) hxs
  · -- the mark would lie in the gap or in the word before its own mark
    have hpos := List.length_pos_iff.mpr hnil
    have hin : s ++ [c] <+: gap ++ s := by
      refine List.prefix_of_prefix_length_le hle (List.prefix_append _ _) ?_
      simp only [List.length_append, List.length_singleton]
      omega
    have hpart : gap <+: s := by
      refine List.prefix_of_prefix_length_le ?_ (List.prefix_append s ([c] ++ mid)) hshort
      rw [← List.append_assoc, ← hgap, List.append_assoc]
      exact List.prefix_append _ _
    rcases List.mem_append.mp (hin.subset (by simp : c ∈ s ++ [c])) with hmem | hmem
    · exact absurd (hpart.subset hmem) hs
    · exact absurd hmem hs

/-- An occurrence is met, or it overlaps one that is met before it. -/
theorem met_or_overlaps {s : List α} (hs : s ≠ []) (front rest : List α) :
    Met s (front ++ s ++ rest) rest ∨
      ∃ v b u, v ≠ [] ∧ b ≠ [] ∧ s = v ++ b ∧ s = b ++ u ∧
        Met s (front ++ s ++ rest) (u ++ rest) := by
  -- by induction on the length of the text before the occurrence
  induction hlen : front.length using Nat.strong_induction_on generalizing front with
  | _ n ih =>
      obtain ⟨front₀, mid, hfind, hsplit, gap, rfl⟩ := find_first s front rest
      have hgap : gap ++ (s ++ rest) = s ++ mid := by
        have h := hsplit
        simp only [List.append_assoc] at h
        exact List.append_cancel_left h
      by_cases hv : gap = []
      · rw [hv, List.nil_append] at hgap
        left
        rw [← List.append_cancel_left hgap] at hfind
        exact .here hfind
      rcases Nat.lt_or_ge gap.length s.length with hshort | hlong
      · obtain ⟨b, hb⟩ : gap <+: s := List.prefix_of_prefix_length_le (List.prefix_append _ _)
          (hgap ▸ List.prefix_append s mid) hshort.le
        have hbmid : s ++ rest = b ++ mid := by
          apply @List.append_cancel_left _ gap
          rw [hgap, ← List.append_assoc, hb]
        have hblen : gap.length + b.length = s.length := by rw [← hb, List.length_append]
        have hpos := List.length_pos_iff.mpr hv
        obtain ⟨u, hu⟩ : b <+: s := List.prefix_of_prefix_length_le
          (hbmid ▸ List.prefix_append b mid) (List.prefix_append s rest) (by omega)
        have hmid : mid = u ++ rest := by
          apply @List.append_cancel_left _ b
          rw [← hbmid, ← List.append_assoc, hu]
        refine Or.inr ⟨gap, b, u, hv, ?_, hb.symm, hu.symm, .here (hmid ▸ hfind)⟩
        intro hbnil
        rw [hbnil, List.length_nil] at hblen
        omega
      · obtain ⟨front', rfl⟩ : s <+: gap := List.prefix_of_prefix_length_le
          (hgap ▸ List.prefix_append s mid) (List.prefix_append _ _) hlong
        have hmid : mid = front' ++ s ++ rest := by
          apply @List.append_cancel_left _ s
          rw [← hgap]
          simp only [List.append_assoc]
        have hpos := List.length_pos_iff.mpr hs
        have hless : front'.length < n := by
          rw [← hlen]
          simp only [List.length_append]
          omega
        rw [hmid] at hfind
        rcases ih _ hless front' rfl with hmet | ⟨v, b, u, hvne, hbne, hvb, hbu, hmet⟩
        · exact Or.inl (.later hfind hmet)
        · exact Or.inr ⟨v, b, u, hvne, hbne, hvb, hbu, .later hfind hmet⟩

/-- What is joined is a part of the whole. -/
theorem infix_of_mem_intercalate {α : Type*} {sep part : List α} {parts : List (List α)}
    (h : part ∈ parts) : part <:+: sep.intercalate parts := by
  induction parts with
  | nil => cases h
  | cons part' parts ih =>
      cases parts with
      | nil =>
          rw [List.mem_singleton] at h
          rw [h, List.intercalate_singleton]
      | cons part'' parts =>
          rw [List.intercalate_cons_cons]
          rcases List.mem_cons.mp h with rfl | h
          · exact ((List.prefix_append _ _).trans (List.prefix_append _ _)).isInfix
          · exact (ih h).trans (List.suffix_append _ _).isInfix

end Subword
