import ModCaucho.Cse
import ModCaucho.Lib.CString
import ModCaucho.Lib.Subword

/-!
# Locations

The list of url-patterns that the plugin dispatches by, from `config.c`: how
`cse_add_location` compiles a pattern of a web-app, and how `cse_match_request`
searches the list for a request. Strings are lists of characters; the local
buffers of the code are taken to be long enough for them.

`cse_match_suffix` need not come to an end when the suffix is empty, so the
matching functions have no result when their loop is never left.
-/

namespace ModCaucho

open CString Subword

/-- `location_t` -/
structure Location where
  host : Text
  port : ℤ
  locPrefix : Text
  locSuffix : Option Text
  isExact : Bool
deriving DecidableEq, Repr

/-! ## Compiling patterns -/

/-- `cse_add_unique_location` -/
def cseAddUniqueLocation (locations : List Location) (loc : Location) : List Location :=
  if loc ∈ locations then locations else loc :: locations

/-- `cleanPrefix` of `cse_add_location` before the pattern is appended. -/
def cleanPrefix (webApp pattern : Text) : Text :=
  let slash :=
    if webApp = [] ∧ pattern ≠ [] ∧ pattern.head? ≠ some '/' ∧ pattern.head? ≠ some '*' then ['/']
    else if webApp ≠ [] ∧ webApp.head? ≠ some '/' then ['/']
    else []
  let clean := slash ++ webApp
  if clean.getLast? = some '/' then clean.dropLast else clean

/-- The location that `cse_add_location` adds. -/
def compile (host webApp pattern : Text) : Location :=
  let locHost := host.takeWhile (· ≠ ':')
  let locPort := if ':' ∈ host then atoi (ascii (host.drop (locHost.length + 1))) else 0
  let clean := cleanPrefix webApp pattern
  if pattern = [] then ⟨locHost, locPort, clean, none, false⟩
  else if pattern.head? = some '*' then ⟨locHost, locPort, clean, some pattern.tail, false⟩
  else
    let clean := clean ++ (if pattern.head? ≠ some '/' then ['/'] else []) ++ pattern
    if pattern.length ≤ 1 then ⟨locHost, locPort, clean.take (clean.length - 1), none, false⟩
    else if clean.getLast? ≠ some '*' then ⟨locHost, locPort, clean, none, true⟩
    else if clean.length > 2 then
      ⟨locHost, locPort, clean.take (clean.length - 2), none, false⟩
    else ⟨locHost, locPort, clean, none, false⟩

/-- `cse_add_location` -/
def cseAddLocation (locations : List Location) (host webApp pattern : Text) : List Location :=
  cseAddUniqueLocation locations (compile host webApp pattern)

/-! ## Matching requests -/

/-- `cse_starts_with` -/
def cseStartsWith : Text → Text → Bool
  | full, [] => full.isEmpty || full.head? == some '/'
  | [], _ :: _ => false
  | ch1 :: full, ch2 :: part => ch1 == ch2 && cseStartsWith full part

/-- The loop of `cse_match_suffix`. -/
def matchSuffixLoop (suffix : Text) : ℕ → Text → Option Bool
  | 0, _ => none
  | fuel + 1, full =>
      match find suffix full with
      | none => some false
      | some found =>
          let full := found.drop suffix.length
          if full = [] ∨ full.head? = some '/' then some true
          else if full = [] then some false
          else matchSuffixLoop suffix fuel full

/-- `cse_match_suffix`. A round that finds a suffix that is not empty passes over a
character, so the length of the string bounds the rounds. -/
def cseMatchSuffix (full suffix : Text) : Option Bool :=
  matchSuffixLoop suffix (full.length + 1) full

/-- The tests of `cse_match_location` on one location. -/
def Location.test (loc : Location) (host : Text) (port : ℤ) (uri : Text) : Option Bool :=
  if loc.host ≠ [] ∧ find host loc.host = none then some false
  else if port ≠ 0 ∧ loc.port ≠ 0 ∧ port ≠ loc.port then some false
  else if loc.isExact then some (uri = loc.locPrefix)
  else if ¬ cseStartsWith uri loc.locPrefix then some false
  else
    match loc.locSuffix with
    | some suffix => cseMatchSuffix uri suffix
    | none => some true

/-- `cse_match_location` -/
def cseMatchLocation : List Location → Text → ℤ → Text → Option Bool
  | [], _, _, _ => some false
  | loc :: locations, host, port, uri =>
      match loc.test host port uri with
      | none => none
      | some true => some true
      | some false => cseMatchLocation locations host port uri

/-- What a session in a URI begins with. -/
def sessionParam : Text := ";jsessionid=".toList

/-- What a login form submits to. -/
def securityCheck : Text := "/j_security_check".toList

/-- `cse_match_request` -/
def cseMatchRequest (locations : List Location) (host : Text) (port : ℤ) (uri : Text) :
    Option Bool :=
  let test :=
    match find sessionParam uri with
    | some param => uri.take (uri.length - param.length)
    | none => uri
  match cseMatchLocation locations host port test with
  | none => none
  | some true => some true
  | some false => some (find securityCheck test).isSome

/-! ## What matches -/

/-- The URI is this path or lies below it. -/
def Under (path uri : Text) : Prop := uri = path ∨ path ++ ['/'] <+: uri

instance (path uri : Text) : Decidable (Under path uri) := inferInstanceAs (Decidable (_ ∨ _))

/-- What is behind an occurrence of a suffix that counts. -/
def AtEnd (rest : Text) : Prop := rest = [] ∨ rest.head? = some '/'

instance (rest : Text) : Decidable (AtEnd rest) := inferInstanceAs (Decidable (_ ∨ _))

theorem cseStartsWith_iff (uri path : Text) : cseStartsWith uri path = true ↔ Under path uri := by
  induction path generalizing uri with
  | nil =>
      cases uri with
      | nil => simp [cseStartsWith, Under]
      | cons ch uri =>
          simp only [cseStartsWith, Under, List.isEmpty_cons, List.head?_cons, Bool.false_or,
            beq_iff_eq, Option.some.injEq, List.cons_ne_nil, false_or, List.nil_append,
            List.cons_prefix_cons, List.nil_prefix, and_true]
          exact eq_comm
  | cons ch path ih =>
      cases uri with
      | nil => simp [cseStartsWith, Under]
      | cons ch' uri =>
          have hrest := ih uri
          simp only [Under] at hrest
          simp only [cseStartsWith, Bool.and_eq_true, beq_iff_eq, hrest, Under, List.cons_append,
            List.cons_prefix_cons, List.cons.injEq]
          tauto

/-- The loop of `cse_match_suffix` looks at the occurrences that a left-to-right scan
meets, and comes to an end if the suffix is not empty. -/
theorem matchSuffixLoop_eq {suffix : Text} (hsuffix : suffix ≠ []) {fuel : ℕ} {full : Text}
    (hfuel : full.length < fuel) :
    ∃ b, matchSuffixLoop suffix fuel full = some b ∧
      (b = true ↔ ∃ rest, Met suffix full rest ∧ AtEnd rest) := by
  induction fuel generalizing full with
  | zero => omega
  | succ fuel ih =>
      cases hfind : find suffix full with
      | none =>
          refine ⟨false, by simp [matchSuffixLoop, hfind], ?_⟩
          constructor
          · intro h
            cases h
          · rintro ⟨rest, hmet, -⟩
            exact absurd hmet (not_met_of_find_none hfind)
      | some found =>
          obtain ⟨⟨rest, rfl⟩, front, rfl⟩ := find_some hfind
          have hdrop : (suffix ++ rest).drop suffix.length = rest := List.drop_left
          by_cases hend : AtEnd rest
          · refine ⟨true, ?_, ?_⟩
            · simp only [matchSuffixLoop, hfind, hdrop]
              exact if_pos hend
            · exact ⟨fun _ => ⟨rest, .here hfind, hend⟩, fun _ => rfl⟩
          · have hne : rest ≠ [] := fun hnil => hend (Or.inl hnil)
            have hpos := List.length_pos_iff.mpr hsuffix
            have hless : rest.length < fuel := by
              simp only [List.length_append] at hfuel
              omega
            obtain ⟨b, hb, hiff⟩ := ih hless
            refine ⟨b, ?_, ?_⟩
            · simp only [matchSuffixLoop, hfind, hdrop]
              exact (if_neg hend).trans ((if_neg hne).trans hb)
            · rw [hiff]
              constructor
              · rintro ⟨rest', hmet, hat⟩
                exact ⟨rest', .later hfind hmet, hat⟩
              · rintro ⟨rest', hmet, hat⟩
                rcases (met_iff_of_find hfind).mp hmet with rfl | hmet
                · exact absurd hat hend
                · exact ⟨rest', hmet, hat⟩

theorem cseMatchSuffix_eq {suffix : Text} (hsuffix : suffix ≠ []) (full : Text) :
    ∃ b, cseMatchSuffix full suffix = some b ∧
      (b = true ↔ ∃ rest, Met suffix full rest ∧ AtEnd rest) :=
  matchSuffixLoop_eq hsuffix (Nat.lt_succ_self _)

/-- The URI that is matched: the part before the session. -/
def stripSession (uri : Text) : Text := before sessionParam uri

theorem cseMatchRequest_eq (locations : List Location) (host : Text) (port : ℤ) (uri : Text) :
    cseMatchRequest locations host port uri =
      match cseMatchLocation locations host port (stripSession uri) with
      | none => none
      | some true => some true
      | some false => some (find securityCheck (stripSession uri)).isSome := by
  have htest : (match find sessionParam uri with
      | some param => uri.take (uri.length - param.length)
      | none => uri) = stripSession uri := by
    cases h : find sessionParam uri with
    | none => exact (before_of_absent ((find_eq_none_iff _ _).mp h)).symm
    | some param => exact before_of_find h
  unfold cseMatchRequest
  rw [htest]

end ModCaucho
