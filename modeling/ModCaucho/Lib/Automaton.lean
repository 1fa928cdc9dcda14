import ModCaucho.Lib.Subword

/-!
# Searching a word one element at a time

An automaton reads a text element by element and stops at some point, or reads all of
it. `Searches step word Keeps` says that it searches a word: `Keeps s kept` relates a
state to the end of what was read in which an occurrence can still have begun, and
no step forgets the beginning of an occurrence. Such an automaton stops exactly behind
the first occurrence, however the text overlaps itself.
-/

namespace Subword

variable {α σ : Type*}

/-- The text behind the place where the automaton stops. -/
def stopsBehind (step : σ → α → Option σ) : σ → List α → Option (List α)
  | _, [] => none
  | s, x :: xs =>
      match step s x with
      | none => some xs
      | some s' => stopsBehind step s' xs

theorem stopsBehind_stop {step : σ → α → Option σ} {s : σ} {x : α} (h : step s x = none)
    (xs : List α) : stopsBehind step s (x :: xs) = some xs := by
  rw [stopsBehind, h]

theorem stopsBehind_go {step : σ → α → Option σ} {s s' : σ} {x : α} (h : step s x = some s')
    (xs : List α) : stopsBehind step s (x :: xs) = stopsBehind step s' xs := by
  rw [stopsBehind, h]

theorem suffix_of_stopsBehind {step : σ → α → Option σ} {s : σ} {xs rest : List α}
    (h : stopsBehind step s xs = some rest) : rest <:+ xs := by
  induction xs generalizing s with
  | nil => cases h
  | cons x xs ih =>
      cases hstep : step s x with
      | none =>
          rw [stopsBehind_stop hstep, Option.some_inj] at h
          rw [← h]
          exact List.suffix_cons x xs
      | some s' =>
          rw [stopsBehind_go hstep] at h
          exact (ih h).trans (List.suffix_cons x xs)

variable [DecidableEq α]

/-- The automaton searches the word, with `Keeps` to say what a state remembers. -/
structure Searches (step : σ → α → Option σ) (word : List α) (Keeps : σ → List α → Prop) :
    Prop where
  short : ∀ {s kept}, Keeps s kept → kept.length < word.length
  stop : ∀ {s kept x}, Keeps s kept → step s x = none → kept ++ [x] = word
  go : ∀ {s s' kept x}, Keeps s kept → step s x = some s' →
    ∃ kept', Keeps s' kept' ∧ ∀ xs, find word (kept ++ x :: xs) = find word (kept' ++ xs)

variable {step : σ → α → Option σ} {word : List α} {Keeps : σ → List α → Prop}

/-- The automaton stops behind what is found. -/
theorem Searches.stopsBehind_eq (h : Searches step word Keeps) {s : σ} {kept : List α}
    (hs : Keeps s kept) (xs : List α) :
    stopsBehind step s xs = (find word (kept ++ xs)).map (List.drop word.length) := by
  induction xs generalizing s kept with
  | nil =>
      have hnone : find word (kept ++ []) = none := by
        rw [List.append_nil, find_eq_none_iff]
        intro hin
        exact Nat.not_lt.mpr hin.length_le (h.short hs)
      rw [hnone]
      rfl
  | cons x xs ih =>
      cases hstep : step s x with
      | none =>
          have hfound : find word (kept ++ x :: xs) = some (word ++ xs) := by
            rw [← h.stop hs hstep]
            simpa using find_prefix (kept ++ [x]) xs
          rw [stopsBehind_stop hstep, hfound, Option.map_some, List.drop_left]
      | some s' =>
          obtain ⟨kept', hs', hfind⟩ := h.go hs hstep
          rw [stopsBehind_go hstep, ih hs', hfind]

/-- On a text with the word, the automaton stops behind the first occurrence. -/
theorem Searches.stopsBehind_first (h : Searches step word Keeps) {s : σ} (hs : Keeps s [])
    {xs front rest : List α} (hfirst : FirstAt word xs front rest) :
    stopsBehind step s xs = some rest := by
  rw [h.stopsBehind_eq hs, List.nil_append, hfirst.find_eq, Option.map_some, List.drop_left]

/-- On a text without the word, it does not stop. -/
theorem Searches.stopsBehind_absent (h : Searches step word Keeps) {s : σ} (hs : Keeps s [])
    {xs : List α} (habsent : ¬ word <:+: xs) : stopsBehind step s xs = none := by
  rw [h.stopsBehind_eq hs, List.nil_append, (find_eq_none_iff word xs).mpr habsent]
  rfl

end Subword
