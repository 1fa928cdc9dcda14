import ModCaucho.Config.Hosts

/-!
# Dispatching comes to an end

`cse_match_suffix` goes round without progress when the suffix is empty and neither the
end of the URI nor a slash is at its front. A pattern that is a single star is compiled
to an empty suffix, but its prefix is empty or begins with a slash, and the suffix is
looked for only in a URI that lies at the prefix or below it.
-/

namespace ModCaucho

open Subword

/-- The arguments of a call of `cse_add_location`. -/
structure LocationCall where
  host : Text
  webApp : Text
  pattern : Text

/-- The locations after the calls, in a configuration that has none before. -/
def addLocations (calls : List LocationCall) : List Location :=
  calls.foldl (fun locations call => cseAddLocation locations call.host call.webApp call.pattern) []

/-- Without a suffix the loop stays where it is. -/
theorem matchSuffixLoop_nil {full : Text} (h : ¬ AtEnd full) (fuel : ℕ) :
    matchSuffixLoop [] fuel full = none := by
  have hfind : find [] full = some full := find_prefix [] full
  induction fuel with
  | zero => rfl
  | succ fuel ih =>
      have hne : full ≠ [] := fun hnil => h (Or.inl hnil)
      simp only [matchSuffixLoop, hfind, List.length_nil, List.drop_zero]
      exact (if_neg h).trans ((if_neg hne).trans ih)

/-- The search for a suffix is left after some number of rounds if and only if it has a
suffix to look for, or begins in front of a slash or of the end. -/
theorem matchSuffixLoop_returns_iff (suffix full : Text) :
    (∃ fuel b, matchSuffixLoop suffix fuel full = some b) ↔ suffix ≠ [] ∨ AtEnd full := by
  constructor
  · rintro ⟨fuel, b, hb⟩
    by_contra hnot
    rw [not_or, not_not] at hnot
    rw [hnot.1, matchSuffixLoop_nil hnot.2] at hb
    cases hb
  · rintro (hsuffix | hend)
    · obtain ⟨b, hb, -⟩ := cseMatchSuffix_eq hsuffix full
      exact ⟨_, b, hb⟩
    · by_cases hsuffix : suffix = []
      · rw [hsuffix]
        exact ⟨_, true, cseMatchSuffix_nil hend⟩
      · obtain ⟨b, hb, -⟩ := cseMatchSuffix_eq hsuffix full
        exact ⟨_, b, hb⟩

theorem compiled_addLocations (calls : List LocationCall) :
    ∀ loc ∈ addLocations calls, ∃ host, Compiled host loc := by
  suffices hall : ∀ locations : List Location, (∀ loc ∈ locations, ∃ host, Compiled host loc) →
      ∀ loc ∈ calls.foldl (fun locations call =>
        cseAddLocation locations call.host call.webApp call.pattern) locations,
        ∃ host, Compiled host loc from
    hall [] fun loc h => absurd h List.not_mem_nil
  induction calls with
  | nil => exact fun locations h => h
  | cons call calls ih =>
      intro locations h
      refine ih _ fun loc hloc => ?_
      rcases (adds_cseAddLocation call.host call.webApp call.pattern).2 locations loc |>.mp hloc
        with hold | hnew
      · exact h loc hold
      · exact ⟨call.host, (adds_cseAddLocation call.host call.webApp call.pattern).1 loc hnew⟩

/-- Whatever locations have been added, every request is matched after finitely many
rounds. -/
theorem cseMatchRequest_returns (calls : List LocationCall) (host : Text) (port : ℤ)
    (uri : Text) : ∃ b, cseMatchRequest (addLocations calls) host port uri = some b := by
  obtain ⟨b, hb, -⟩ :=
    cseMatchLocation_eq (compiled_addLocations calls) host port (stripSession uri)
  rw [cseMatchRequest_eq, hb]
  cases b with
  | true => exact ⟨true, rfl⟩
  | false => exact ⟨_, rfl⟩

/-- A location that no pattern is compiled to: its prefix does not begin with a slash, and
the search for its empty suffix is never left. -/
example : cseMatchRequest [⟨[], 0, "a".toList, some [], false⟩] [] 0 "a".toList = none := by
  decide

end ModCaucho
