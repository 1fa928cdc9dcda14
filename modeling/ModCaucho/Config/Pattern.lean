import ModCaucho.Config.Location

/-!
# Documented url-patterns

The patterns that the documentation describes, what each of them should match,
and what the location that it is compiled to does match. The two agree but for
three kinds of requests: a `/*` of the root application is not trimmed and stays
a path of its own; the search for a suffix passes over occurrences that overlap
one it has met; and `/j_security_check` is not looked for behind `;jsessionid=`.
-/

namespace ModCaucho

open Subword

/-- A web-app id with a leading slash and without one trailing slash. -/
def contextOf (webApp : Text) : Text :=
  let slashed := if webApp ≠ [] ∧ webApp.head? ≠ some '/' then '/' :: webApp else webApp
  if slashed.getLast? = some '/' then slashed.dropLast else slashed

/-- The forms of a url-pattern that are documented. -/
inductive UrlPattern
  /-- `/p` -/
  | exact (p : Text) (ne_nil : p ≠ []) (no_star : p.getLast? ≠ some '*')
  /-- `/p/*` -/
  | below (p : Text) (ne_nil : p ≠ [])
  /-- `/*` -/
  | all
  /-- `/` -/
  | default
  /-- `*.e` -/
  | extension (e : Text)

/-- The pattern as it is written. -/
def UrlPattern.text : UrlPattern → Text
  | .exact p _ _ => '/' :: p
  | .below p _ => '/' :: p ++ ['/', '*']
  | .all => ['/', '*']
  | .default => ['/']
  | .extension e => '*' :: '.' :: e

/-- A URI without session satisfies a pattern of a web-app. -/
def Satisfies (webApp : Text) (uri : Text) : UrlPattern → Prop
  | .exact p _ _ => uri = contextOf webApp ++ '/' :: p
  | .below p _ => Under (contextOf webApp ++ '/' :: p) uri
  | .all => Under (contextOf webApp) uri
  | .default => Under (contextOf webApp) uri
  | .extension e => Under (contextOf webApp) uri ∧
      ∃ front rest, uri = front ++ '.' :: e ++ rest ∧ AtEnd rest

/-- What the location of a pattern matches. -/
def Served (webApp : Text) (uri : Text) : UrlPattern → Prop
  | .exact p _ _ => uri = contextOf webApp ++ '/' :: p
  | .below p _ => Under (contextOf webApp ++ '/' :: p) uri
  | .all => Under (if contextOf webApp = [] then ['/', '*'] else contextOf webApp) uri
  | .default => Under (contextOf webApp) uri
  | .extension e => Under (contextOf webApp) uri ∧
      ∃ rest, Met ('.' :: e) uri rest ∧ AtEnd rest

/-! ## The compiled pattern -/

/-- The web-app prefix is cleaned in the same way for all patterns. -/
theorem cleanPrefix_contextOf (webApp pattern : Text) :
    cleanPrefix webApp pattern = contextOf webApp := by
  unfold cleanPrefix
  by_cases hroot : webApp = [] ∧ pattern ≠ [] ∧ pattern.head? ≠ some '/' ∧
      pattern.head? ≠ some '*'
  · rw [if_pos hroot, hroot.1]
    rfl
  · rw [if_neg hroot]
    unfold contextOf
    by_cases hslash : webApp ≠ [] ∧ webApp.head? ≠ some '/'
    · simp only [if_pos hslash]
      rfl
    · simp only [if_neg hslash, List.nil_append]

/-- The location that a documented pattern is compiled to. -/
def UrlPattern.location (webApp : Text) : UrlPattern → Location
  | .exact p _ _ => ⟨[], 0, contextOf webApp ++ '/' :: p, none, true⟩
  | .below p _ => ⟨[], 0, contextOf webApp ++ '/' :: p, none, false⟩
  | .all =>
      ⟨[], 0, if contextOf webApp = [] then ['/', '*'] else contextOf webApp, none, false⟩
  | .default => ⟨[], 0, contextOf webApp, none, false⟩
  | .extension e => ⟨[], 0, contextOf webApp, some ('.' :: e), false⟩

theorem getLast?_append_cons (front : Text) (ch : Char) (p : Text) :
    (front ++ ch :: p).getLast? = (ch :: p).getLast? := by
  rw [List.getLast?_append]
  cases h : (ch :: p).getLast? with
  | none => simp at h
  | some last => rfl

/-- The compiler on a pattern that starts with a slash. -/
theorem compile_slash (webApp p : Text) :
    compile [] webApp ('/' :: p) =
      let clean := contextOf webApp ++ '/' :: p
      if p = [] then ⟨[], 0, clean.take (clean.length - 1), none, false⟩
      else if clean.getLast? ≠ some '*' then ⟨[], 0, clean, none, true⟩
      else if clean.length > 2 then ⟨[], 0, clean.take (clean.length - 2), none, false⟩
      else ⟨[], 0, clean, none, false⟩ := by
  have hclean := cleanPrefix_contextOf webApp ('/' :: p)
  have hlength : ('/' :: p).length ≤ 1 ↔ p = [] := by
    rw [List.length_cons, ← List.length_eq_zero_iff]
    omega
  simp only [compile, hclean, hlength, List.takeWhile_nil, List.not_mem_nil, if_false,
    List.head?_cons, List.cons_ne_nil, ne_eq, not_true_eq_false, List.append_nil]
  rfl

/-- Documented patterns are compiled as they should be, but for the `/*` of the root. -/
theorem compile_text (webApp : Text) (pattern : UrlPattern) :
    compile [] webApp pattern.text = pattern.location webApp := by
  cases pattern with
  | exact p ne_nil no_star =>
      have hlast : (contextOf webApp ++ '/' :: p).getLast? ≠ some '*' := by
        rw [getLast?_append_cons, List.getLast?_cons, List.getLast?_eq_some_getLast ne_nil]
        rw [List.getLast?_eq_some_getLast ne_nil] at no_star
        exact no_star
      rw [UrlPattern.text, compile_slash]
      simp only [if_neg ne_nil, if_pos hlast]
      rfl
  | below p ne_nil =>
      have happend : contextOf webApp ++ '/' :: (p ++ ['/', '*']) =
          contextOf webApp ++ '/' :: p ++ ['/', '*'] := by simp
      have hlast : ¬ (contextOf webApp ++ '/' :: p ++ ['/', '*']).getLast? ≠ some '*' := by
        rw [getLast?_append_cons]
        simp
      have hlength : (contextOf webApp ++ '/' :: p ++ ['/', '*']).length > 2 := by
        simp only [List.length_append, List.length_cons]
        omega
      rw [UrlPattern.text, List.cons_append, compile_slash]
      have htake : (contextOf webApp ++ '/' :: p ++ ['/', '*']).take
          ((contextOf webApp ++ '/' :: p ++ ['/', '*']).length - 2) =
          contextOf webApp ++ '/' :: p := by
        rw [List.length_append]
        exact List.take_left
      simp only [happend, if_neg hlast, if_pos hlength, htake]
      simp [UrlPattern.location]
  | all =>
      rw [UrlPattern.text, compile_slash]
      by_cases hroot : contextOf webApp = []
      · simp [UrlPattern.location, hroot]
      · have hpos := List.length_pos_iff.mpr hroot
        simp [UrlPattern.location, hroot, hpos]
  | default =>
      rw [UrlPattern.text, compile_slash]
      simp [UrlPattern.location]
  | extension e =>
      have hclean := cleanPrefix_contextOf webApp ('*' :: '.' :: e)
      simp only [UrlPattern.text, compile, hclean]
      rfl

/-! ## What a pattern serves -/

/-- The test of a compiled pattern comes to an end and says what the pattern serves. -/
theorem test_location (webApp : Text) (pattern : UrlPattern) (host : Text) (port : ℤ)
    (uri : Text) :
    ∃ b, (pattern.location webApp).test host port uri = some b ∧
      (b = true ↔ Served webApp uri pattern) := by
  have hunder : ∀ path : Text, ∃ b, (if ¬ cseStartsWith uri path = true then some false
      else some true) = some b ∧ (b = true ↔ Under path uri) := by
    intro path
    refine ⟨cseStartsWith uri path, ?_, cseStartsWith_iff uri path⟩
    cases cseStartsWith uri path <;> rfl
  cases pattern with
  | exact p ne_nil no_star =>
      have htest : ((UrlPattern.exact p ne_nil no_star).location webApp).test host port uri =
          some (decide (uri = contextOf webApp ++ '/' :: p)) := by
        rw [Location.test, if_neg (by simp [UrlPattern.location]),
          if_neg (by simp [UrlPattern.location])]
        rfl
      exact ⟨_, htest, decide_eq_true_iff⟩
  | below p ne_nil => simpa [Location.test, UrlPattern.location, Served] using hunder _
  | all => simpa [Location.test, UrlPattern.location, Served] using hunder _
  | default => simpa [Location.test, UrlPattern.location, Served] using hunder _
  | extension e =>
      by_cases hstart : cseStartsWith uri (contextOf webApp) = true
      · obtain ⟨b, hb, hiff⟩ := @cseMatchSuffix_eq ('.' :: e) (by simp) uri
        refine ⟨b, ?_, ?_⟩
        · simp [Location.test, UrlPattern.location, hstart, hb]
        · rw [hiff, Served, ← cseStartsWith_iff]
          simp [hstart]
      · refine ⟨false, by simp [Location.test, UrlPattern.location, hstart], ?_⟩
        rw [Served, ← cseStartsWith_iff]
        simp [hstart]

/-- What the compiled pattern matches satisfies the pattern. -/
theorem Served.satisfies {webApp uri : Text} {pattern : UrlPattern} (hslash : uri.head? = some '/')
    (h : Served webApp uri pattern) : Satisfies webApp uri pattern := by
  cases pattern with
  | exact p ne_nil no_star => exact h
  | below p ne_nil => exact h
  | all =>
      unfold Served at h
      unfold Satisfies
      by_cases hroot : contextOf webApp = []
      · obtain ⟨rest, rfl⟩ := List.head?_eq_some_iff.mp hslash
        rw [hroot]
        exact Or.inr ⟨rest, rfl⟩
      · rwa [if_neg hroot] at h
  | default => exact h
  | extension e =>
      obtain ⟨hunder, rest, hmet, hend⟩ := h
      obtain ⟨front, hfront⟩ := hmet.occurs
      exact ⟨hunder, front, rest, hfront, hend⟩

/-! ## Dispatch by one pattern -/

/-- A configuration with this one pattern dispatches as the pattern says. -/
def FollowsPattern (webApp : Text) (pattern : UrlPattern) (host : Text) (port : ℤ)
    (uri : Text) : Prop :=
  ∃ b, cseMatchRequest (cseAddLocation [] [] webApp pattern.text) host port uri = some b ∧
    (b = true ↔ securityCheck <:+: uri ∨ Satisfies webApp (stripSession uri) pattern)

/-- The requests that a documented pattern is wrong about: a login behind a session, the
`/*` of the root, and a suffix that only occurs across another occurrence of it. -/
def Misses (webApp : Text) (pattern : UrlPattern) (uri : Text) : Prop :=
  ¬ securityCheck <:+: stripSession uri ∧
    (securityCheck <:+: uri ∧ ¬ Satisfies webApp (stripSession uri) pattern ∨
      match pattern with
      | .all => contextOf webApp = [] ∧ ¬ Under ['/', '*'] (stripSession uri)
      | .extension e => Satisfies webApp (stripSession uri) (.extension e) ∧
          ∀ rest, Met ('.' :: e) (stripSession uri) rest → ¬ AtEnd rest
      | _ => False)

theorem stripSession_slash {uri : Text} (h : uri.head? = some '/') :
    (stripSession uri).head? = some '/' := by
  obtain ⟨rest, rfl⟩ := List.head?_eq_some_iff.mp h
  have hparam : sessionParam = ';' :: "jsessionid=".toList := by decide
  have hnot : ¬ sessionParam <+: '/' :: rest := by
    rw [hparam, List.cons_prefix_cons]
    exact fun h => absurd h.1 (by decide)
  rw [stripSession, before, if_neg hnot]
  rfl

/-- A pattern does not serve a URI that satisfies it only in two ways. -/
theorem satisfies_not_served_iff {webApp uri : Text} {pattern : UrlPattern}
    (hslash : uri.head? = some '/') :
    Satisfies webApp uri pattern ∧ ¬ Served webApp uri pattern ↔
      match pattern with
      | .all => contextOf webApp = [] ∧ ¬ Under ['/', '*'] uri
      | .extension e => Satisfies webApp uri (.extension e) ∧
          ∀ rest, Met ('.' :: e) uri rest → ¬ AtEnd rest
      | _ => False := by
  cases pattern with
  | exact p ne_nil no_star => exact ⟨fun h => h.2 h.1, False.elim⟩
  | below p ne_nil => exact ⟨fun h => h.2 h.1, False.elim⟩
  | all =>
      simp only [Satisfies, Served]
      by_cases hroot : contextOf webApp = []
      · have hunder : Under [] uri := by
          obtain ⟨rest, rfl⟩ := List.head?_eq_some_iff.mp hslash
          exact Or.inr ⟨rest, rfl⟩
        simp [hroot, hunder]
      · simp [hroot]
  | default => exact ⟨fun h => h.2 h.1, False.elim⟩
  | extension e =>
      simp only [Satisfies, Served]
      constructor
      · rintro ⟨⟨hunder, hocc⟩, hserved⟩
        exact ⟨⟨hunder, hocc⟩, fun rest hmet hend => hserved ⟨hunder, rest, hmet, hend⟩⟩
      · rintro ⟨hsat, hnone⟩
        exact ⟨hsat, fun ⟨_, rest, hmet, hend⟩ => hnone rest hmet hend⟩

/-- Dispatch by a documented pattern follows its documentation for every request but the
three kinds that are missed. -/
theorem followsPattern_iff (webApp : Text) (pattern : UrlPattern) (host : Text) (port : ℤ)
    {uri : Text} (hslash : uri.head? = some '/') :
    FollowsPattern webApp pattern host port uri ↔ ¬ Misses webApp pattern uri := by
  have hstrip := stripSession_slash hslash
  obtain ⟨b, hb, hserved⟩ := test_location webApp pattern host port (stripSession uri)
  have hresult : cseMatchRequest (cseAddLocation [] [] webApp pattern.text) host port uri =
      some (b || (find securityCheck (stripSession uri)).isSome) := by
    rw [cseMatchRequest_eq, cseAddLocation, cseAddUniqueLocation, if_neg (by simp), compile_text]
    simp only [cseMatchLocation, hb]
    cases b <;> rfl
  have hinfix : securityCheck <:+: stripSession uri → securityCheck <:+: uri :=
    fun h => h.trans (before_le _ _).isInfix
  have hsat : Served webApp (stripSession uri) pattern →
      Satisfies webApp (stripSession uri) pattern := Served.satisfies hstrip
  unfold FollowsPattern Misses
  rw [← satisfies_not_served_iff hstrip, hresult]
  simp only [Option.some.injEq, exists_eq_left', Bool.or_eq_true, hserved, find_isSome_iff]
  grind

theorem followsPattern_iff_extension :
    FollowsPattern ['a'] (.extension ['x']) ['h'] 80 ['/', 'a', '/', 'b', '.', 'x'] ↔
      ¬ Misses ['a'] (.extension ['x']) ['/', 'a', '/', 'b', '.', 'x'] :=
  followsPattern_iff ['a'] (.extension ['x']) ['h'] 80 rfl

/-- The pattern `/*` of the root application does not match `/x`. -/
theorem not_followsPattern_root :
    ¬ ∀ (webApp : Text) (pattern : UrlPattern) (host : Text) (port : ℤ) (uri : Text),
      uri.head? = some '/' → FollowsPattern webApp pattern host port uri := by
  intro hclaim
  obtain ⟨b, hb, hiff⟩ := hclaim [] .all ['h'] 80 ['/', 'x'] rfl
  have hfalse : cseMatchRequest (cseAddLocation [] [] [] UrlPattern.all.text) ['h'] 80
      ['/', 'x'] = some false := by
    decide
  have hsat : Satisfies [] (stripSession ['/', 'x']) .all :=
    (by decide : Under (contextOf []) (stripSession ['/', 'x']))
  rw [hfalse, Option.some_inj] at hb
  rw [← hb] at hiff
  exact absurd (hiff.mpr (Or.inr hsat)) Bool.false_ne_true

end ModCaucho
