import ModCaucho.Config.Pattern

/-!
# Patterns stay in their web-app

Whatever a url-pattern looks like, `cse_add_location` cuts its path so that the context
of the web-app is left, or the context with something behind a slash. So a request that
the location matches lies at the context or below it.
-/

namespace ModCaucho

theorem Under.refl (path : Text) : Under path path := Or.inl rfl

theorem Under.trans {path path' uri : Text} (h : Under path path') (h' : Under path' uri) :
    Under path uri := by
  rcases h with rfl | h
  · exact h'
  · rcases h' with rfl | h'
    · exact Or.inr h
    · exact Or.inr (h.trans ((List.prefix_append path' ['/']).trans h'))

/-- Something behind a slash lies below. -/
theorem under_slash (path rest : Text) : Under path (path ++ '/' :: rest) := by
  refine Or.inr ⟨rest, ?_⟩
  rw [List.append_assoc]
  rfl

/-- The path of a pattern that does not start with a star, with its slash. -/
theorem slashed_pattern {pattern : Text} (hne : pattern ≠ []) :
    ∃ rest, (if pattern.head? ≠ some '/' then ['/'] else []) ++ pattern = '/' :: rest ∧
      pattern.length ≤ rest.length + 1 := by
  cases pattern with
  | nil => exact absurd rfl hne
  | cons ch rest =>
      by_cases hslash : ch = '/'
      · exact ⟨rest, by simp [hslash], Nat.le_refl _⟩
      · exact ⟨ch :: rest, by simp [hslash], Nat.le_succ _⟩

/-- A cut behind the context leaves the context, or something behind its slash. -/
theorem under_take (path rest : Text) {n : ℕ} (h : path.length ≤ n) :
    Under path ((path ++ '/' :: rest).take n) := by
  obtain ⟨k, rfl⟩ := Nat.exists_eq_add_of_le h
  rw [List.take_append, List.take_of_length_le (Nat.le_add_right _ _), Nat.add_sub_cancel_left]
  cases k with
  | zero => exact Or.inl (List.append_nil path)
  | succ k => exact under_slash path (rest.take k)

/-- The prefix of the location that `cse_add_location` stores lies in the web-app. -/
theorem under_locPrefix (host webApp pattern : Text) :
    Under (contextOf webApp) (compile host webApp pattern).locPrefix := by
  have hclean := cleanPrefix_contextOf webApp pattern
  unfold compile
  by_cases hnil : pattern = []
  · simp only [if_pos hnil, hclean]
    exact Under.refl _
  simp only [if_neg hnil]
  by_cases hstar : pattern.head? = some '*'
  · simp only [if_pos hstar, hclean]
    exact Under.refl _
  simp only [if_neg hstar, hclean]
  obtain ⟨rest, hrest, hlength⟩ := slashed_pattern hnil
  rw [List.append_assoc, hrest, List.length_append, List.length_cons]
  split
  · exact under_take _ _ (by omega)
  split
  · exact under_slash _ _
  split
  · exact under_take _ _ (by omega)
  · exact under_slash _ _

/-- A request that a location matches lies at its prefix or below it. -/
theorem under_of_test {loc : Location} {host uri : Text} {port : ℤ}
    (h : loc.test host port uri = some true) : Under loc.locPrefix uri := by
  unfold Location.test at h
  split at h
  · cases h
  split at h
  · cases h
  split at h
  · exact Or.inl (of_decide_eq_true (Option.some_inj.mp h))
  split at h
  · cases h
  · next hstarts => exact (cseStartsWith_iff uri loc.locPrefix).mp (not_not.mp hstarts)

/-- No pattern of a web-app, documented or not, matches a request outside the context of
the web-app. -/
theorem under_of_match (host webApp pattern host' : Text) (port : ℤ) (uri : Text)
    (h : cseMatchLocation (cseAddLocation [] host webApp pattern) host' port uri = some true) :
    Under (contextOf webApp) uri := by
  rw [cseAddLocation, cseAddUniqueLocation, if_neg List.not_mem_nil, cseMatchLocation] at h
  cases htest : (compile host webApp pattern).test host' port uri with
  | none =>
      rw [htest] at h
      cases h
  | some matched =>
      rw [htest] at h
      cases matched with
      | false => cases h
      | true => exact (under_locPrefix host webApp pattern).trans (under_of_test htest)

theorem under_of_match_servlet :
    cseMatchLocation (cseAddLocation [] [] "/servlet".toList "/*".toList) [] 0
        "/servlet/xxx".toList = some true ∧
      Under (contextOf "/servlet".toList) "/servlet/xxx".toList :=
  ⟨by decide,
    under_of_match [] "/servlet".toList "/*".toList [] 0 "/servlet/xxx".toList (by decide)⟩

end ModCaucho
