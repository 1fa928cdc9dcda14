import ModCaucho.Lib.Automaton
import ModCaucho.Registry.Scan

/-!
# Where comments and processing instructions end

The nested loops of `skip_comment` are an automaton over the number of dashes just
read, and those of `skip_pi` one over whether a question mark was just read. Both
search the text that ends what they skip: a state stands for the beginning of that
text which was just read, and longer runs of dashes or question marks keep only their
end. So each stops exactly behind the first `-->` or `?>`, and reads the rest of the
file if there is none.
-/

namespace ModCaucho

open Subword

/-- The stream when only `rest` is left of its file. -/
def Rstream.behind (is : Rstream) (rest : Text) : Rstream :=
  { is with file := rest, line := is.line + (is.file.count '\n' - rest.count '\n') }

theorem bufRead_behind {is : Rstream} {ch : Char} {file rest : Text} (hfile : is.file = ch :: file)
    (hrest : rest <:+ file) : (bufRead is).2.behind rest = is.behind rest := by
  have hcount := hrest.sublist.count_le '\n'
  simp only [bufRead, hfile, Rstream.behind, List.count_cons]
  congr 1
  by_cases hch : ch = '\n'
  · simp only [hch, beq_self_eq_true, if_true]
    omega
  · rw [if_neg hch, if_neg (by simpa using hch), Nat.add_zero]

/-- The loops that skip stop where their automaton does. -/
theorem skipUntil_eq {σ : Type} (step : σ → Char → Option σ) (s : σ) (is : Rstream) :
    skipUntil step is.file s is =
      match stopsBehind step s is.file with
      | some rest => (true, is.behind rest)
      | none => (false, is.behind []) := by
  generalize hfile : is.file = file
  induction file generalizing s is with
  | nil =>
      have hsame : is.behind [] = is := by simp [Rstream.behind, ← hfile]
      rw [skipUntil, stopsBehind, hsame]
  | cons ch file ih =>
      have hnext : (bufRead is).2.file = file := by rw [bufRead, hfile]
      have hsame (rest : Text) (hrest : rest <:+ file) := bufRead_behind hfile hrest
      cases hstep : step s ch with
      | none =>
          have hstop : (bufRead is).2 = is.behind file := by
            rw [← hsame file (List.suffix_refl _), Rstream.behind, hnext, Nat.sub_self,
              Nat.add_zero, ← hnext]
          rw [stopsBehind_stop hstep, skipUntil, hstep, hstop]
      | some s' =>
          rw [stopsBehind_go hstep, skipUntil, hstep]
          change skipUntil step file s' (bufRead is).2 = _
          rw [ih s' _ hnext]
          cases hbehind : stopsBehind step s' file with
          | none => exact congrArg (Prod.mk false) (hsame [] List.nil_suffix)
          | some rest =>
              exact congrArg (Prod.mk true) (hsame rest (suffix_of_stopsBehind hbehind))

/-! ## The two automata -/

/-- A state of `skip_comment` keeps the dashes that were just read. -/
def KeepsDashes (dashes : ℕ) (kept : Text) : Prop :=
  dashes ≤ 2 ∧ kept = List.replicate dashes '-'

theorem searches_comment : Searches commentStep "-->".toList KeepsDashes where
  short := by
    rintro dashes _ ⟨hle, rfl⟩
    rw [List.length_replicate]
    exact Nat.lt_succ_of_le hle
  stop := by
    rintro dashes _ ch ⟨-, rfl⟩ hstep
    unfold commentStep at hstep
    split at hstep
    · cases hstep
    · split at hstep
      · next hend =>
          rw [hend.1, hend.2]
          rfl
      · cases hstep
  go := by
    rintro dashes dashes' _ ch ⟨hle, rfl⟩ hstep
    have hdashes : dashes = 0 ∨ dashes = 1 ∨ dashes = 2 := by omega
    unfold commentStep at hstep
    split at hstep
    · next hdash =>
        cases hstep
        refine ⟨_, ⟨Nat.min_le_right _ 2, rfl⟩, fun xs => ?_⟩
        rw [hdash]
        rcases hdashes with rfl | rfl | rfl
        · rfl
        · rfl
        · -- of three dashes the first one does not begin the end of the comment
          exact find_cons_later (by simp [List.cons_prefix_cons])
    · next hdash =>
        split at hstep
        · cases hstep
        · next hend =>
            cases hstep
            refine ⟨[], ⟨Nat.zero_le 2, rfl⟩, fun xs => ?_⟩
            have hhere : ¬ "-->".toList <+: ch :: xs := fun h =>
              hdash (List.cons_prefix_cons.mp h).1.symm
            rcases hdashes with rfl | rfl | rfl
            · exact find_cons_later hhere
            · refine (find_cons_later ?_).trans (find_cons_later hhere)
              intro h
              exact hdash (List.cons_prefix_cons.mp (List.cons_prefix_cons.mp h).2).1.symm
            · refine (find_cons_later ?_).trans
                ((find_cons_later ?_).trans (find_cons_later hhere))
              · intro h
                have h₁ := (List.cons_prefix_cons.mp (List.cons_prefix_cons.mp h).2).2
                exact hend ⟨(List.cons_prefix_cons.mp h₁).1.symm, rfl⟩
              · intro h
                exact hdash (List.cons_prefix_cons.mp (List.cons_prefix_cons.mp h).2).1.symm

/-- A state of `skip_pi` keeps a question mark that was just read. -/
def KeepsQuestion (question : Bool) (kept : Text) : Prop :=
  kept = if question then ['?'] else []

theorem searches_pi : Searches piStep "?>".toList KeepsQuestion where
  short := by
    rintro question _ rfl
    cases question
    · decide
    · decide
  stop := by
    rintro question _ ch rfl hstep
    unfold piStep at hstep
    split at hstep
    · next hend =>
        rw [hend.1, hend.2]
        rfl
    · cases hstep
  go := by
    rintro question _ _ ch rfl hstep
    unfold piStep at hstep
    split at hstep
    · cases hstep
    · next hend =>
        cases hstep
        refine ⟨_, rfl, fun xs => ?_⟩
        -- a question mark that `>` does not follow begins no end
        have hdrop : find "?>".toList ((if question then ['?'] else []) ++ ch :: xs) =
            find "?>".toList (ch :: xs) := by
          cases question
          · rfl
          · refine find_cons_later fun h => hend ⟨?_, rfl⟩
            exact (List.cons_prefix_cons.mp (List.cons_prefix_cons.mp h).2).1.symm
        rw [hdrop]
        by_cases hmark : ch = '?'
        · rw [hmark]
          rfl
        · have hhere : ¬ "?>".toList <+: ch :: xs := fun h =>
            hmark (List.cons_prefix_cons.mp h).1.symm
          rw [find_cons_later hhere, if_neg (by simpa using hmark), List.nil_append]

/-! ## Where they end -/

/-- The result of skipping ends at the first `stop`: the stream is exactly behind it and
there is no error, or there is none, all of the file is read and the error says so. -/
structure EndsAtFirst (stop : Text) (what : String) (path : Text) (is : Rstream)
    (result : Option Text × Rstream) : Prop where
  found : ∀ front rest, FirstAt stop is.file front rest → result = (none, is.behind rest)
  missing : ¬ stop <:+: is.file →
    result = (some (errorAt path (is.behind [])
      ("expected ".toList ++ what.toList ++ " end at end of file".toList)), is.behind [])

theorem skip_endsAtFirst {σ : Type} {step : σ → Char → Option σ} {stop : Text}
    {Keeps : σ → Text → Prop} (h : Searches step stop Keeps) {s : σ} (hs : Keeps s [])
    (what : String) (path : Text) (is : Rstream) :
    EndsAtFirst stop what path is (skip step s what path is) where
  found := by
    intro front rest hfirst
    rw [skip, skipUntil_eq, h.stopsBehind_first hs hfirst]
    rfl
  missing := by
    intro habsent
    rw [skip, skipUntil_eq, h.stopsBehind_absent hs habsent]
    rfl

theorem skipComment_endsAtFirst (path : Text) (is : Rstream) :
    EndsAtFirst "-->".toList "comment" path is (skipComment path is) :=
  skip_endsAtFirst searches_comment ⟨Nat.zero_le 2, rfl⟩ "comment" path is

theorem skipPi_endsAtFirst (path : Text) (is : Rstream) :
    EndsAtFirst "?>".toList "pi" path is (skipPi path is) :=
  skip_endsAtFirst searches_pi (show KeepsQuestion false [] from rfl) "pi" path is

/-- A comment and a processing instruction end at the first text that can end them. -/
theorem skipped_endsAtFirst (path : Text) (is : Rstream) :
    EndsAtFirst "-->".toList "comment" path is (skipComment path is) ∧
      EndsAtFirst "?>".toList "pi" path is (skipPi path is) :=
  ⟨skipComment_endsAtFirst path is, skipPi_endsAtFirst path is⟩

example : skipComment [] (Rstream.start "->--->-->".toList) =
    (none, (Rstream.start "->--->-->".toList).behind "-->".toList) := by decide

/-- `cse_parse` skips a comment from behind its `<!--`. -/
theorem scanMarkup_opened (fresh : Fresh) (path : Text) {is : Rstream} {file : Text}
    (hfile : is.file = '!' :: '-' :: '-' :: file) :
    scanMarkup fresh path is =
      (.skipped, (skipComment path (is.behind file)).1, (skipComment path (is.behind file)).2) := by
  have hbehind : is.behind file = { is with file := file } := by
    simp [Rstream.behind, hfile]
  simp [scanMarkup, bufRead, hfile, expectDash, hbehind]

end ModCaucho
