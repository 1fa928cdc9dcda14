import ModCaucho.Config.Location

/-!
# The search for an extension

`cse_match_suffix` looks for an occurrence of the suffix that is followed by the end of
the URI or by a slash. After an occurrence that does not count it goes on behind it, so
that it passes over an occurrence that begins inside. This makes a difference only for a
suffix that can overlap itself, and then only where no slash follows the first of the two.
-/

namespace ModCaucho

open Subword

/-- The search comes to an end and finds an occurrence that counts if there is one. -/
def FindsSuffix (suffix uri : Text) : Prop :=
  ∃ b, cseMatchSuffix uri suffix = some b ∧
    (b = true ↔ ∃ front rest, uri = front ++ suffix ++ rest ∧ AtEnd rest)

/-- If an occurrence counts, so does one that the scan of the URI meets. The scan goes on
behind each occurrence. -/
def MeetsEnd (suffix uri : Text) : Prop :=
  ∀ front rest, uri = front ++ suffix ++ rest → AtEnd rest →
    ∃ rest', Met suffix uri rest' ∧ AtEnd rest'

/-- Where the suffix occurs again `k` characters after it began, a slash follows it. -/
def OverlapsAtSlash (suffix : Text) : Prop :=
  ∀ k < suffix.length, 0 < k → suffix.drop k <+: suffix →
    (suffix.drop (suffix.length - k)).head? = some '/'

instance (suffix : Text) : Decidable (OverlapsAtSlash suffix) :=
  inferInstanceAs (Decidable (∀ k < suffix.length, _))

theorem findsSuffix_iff_meetsEnd {suffix : Text} (hsuffix : suffix ≠ []) (uri : Text) :
    FindsSuffix suffix uri ↔ MeetsEnd suffix uri := by
  obtain ⟨b, hb, hmet⟩ := cseMatchSuffix_eq hsuffix uri
  constructor
  · rintro ⟨b', hb', hocc⟩ front rest hsplit hend
    rw [hb, Option.some_inj] at hb'
    rw [← hmet, hb']
    exact hocc.mpr ⟨front, rest, hsplit, hend⟩
  · intro hmeets
    refine ⟨b, hb, hmet.trans ⟨?_, ?_⟩⟩
    · rintro ⟨rest, hmet, hend⟩
      obtain ⟨front, hsplit⟩ := hmet.occurs
      exact ⟨front, rest, hsplit, hend⟩
    · rintro ⟨front, rest, hsplit, hend⟩
      exact hmeets front rest hsplit hend

theorem overlapsAtSlash_iff (suffix : Text) :
    OverlapsAtSlash suffix ↔ ∀ v b u : Text, v ≠ [] → b ≠ [] → suffix = v ++ b →
      suffix = b ++ u → u.head? = some '/' := by
  constructor
  · intro hslash v b u hv hb hvb hbu
    have hlen := congrArg List.length hvb
    rw [List.length_append] at hlen
    have hvpos := List.length_pos_iff.mpr hv
    have hbpos := List.length_pos_iff.mpr hb
    have hdrop : suffix.drop v.length = b := by rw [hvb, List.drop_left]
    have hu : suffix.drop (suffix.length - v.length) = u := by
      rw [hlen, Nat.add_sub_cancel_left, hbu, List.drop_left]
    have hhead := hslash v.length (by omega) hvpos (by
      rw [hdrop]
      exact ⟨u, hbu.symm⟩)
    rwa [hu] at hhead
  · intro hslash k hk hpos hprefix
    obtain ⟨u, hu⟩ := hprefix
    have hdrop : suffix.drop (suffix.length - k) = u := by
      have hlen : (suffix.drop k).length = suffix.length - k := List.length_drop
      rw [← hlen]
      nth_rewrite 2 [← hu]
      exact List.drop_left
    rw [hdrop]
    refine hslash (suffix.take k) (suffix.drop k) u ?_ ?_ (List.take_append_drop k suffix).symm
      hu.symm
    · rw [← List.length_pos_iff, List.length_take]
      omega
    · rw [← List.length_pos_iff, List.length_drop]
      omega

/-- An occurrence that is passed over begins inside one that counts. -/
theorem OverlapsAtSlash.meetsEnd {suffix : Text} (hsuffix : suffix ≠ [])
    (hslash : OverlapsAtSlash suffix) (uri : Text) : MeetsEnd suffix uri := by
  rintro front rest rfl hend
  rcases met_or_overlaps hsuffix front rest with hmet | ⟨v, b, u, hv, hb, hvb, hbu, hmet⟩
  · exact ⟨rest, hmet, hend⟩
  · have hhead := (overlapsAtSlash_iff suffix).mp hslash v b u hv hb hvb hbu
    refine ⟨u ++ rest, hmet, Or.inr ?_⟩
    rw [List.head?_append, hhead]
    rfl

/-- Two copies of the suffix that overlap are a URI in which the second one is passed over. -/
theorem overlapsAtSlash_of_meetsEnd {suffix : Text}
    (hmeets : ∀ uri, MeetsEnd suffix uri) : OverlapsAtSlash suffix := by
  rw [overlapsAtSlash_iff]
  intro v b u hv hb hvb hbu
  have hlen := congrArg List.length (hvb.symm.trans hbu)
  have hbpos := List.length_pos_iff.mpr hb
  have hvpos := List.length_pos_iff.mpr hv
  simp only [List.length_append] at hlen
  have huri : v ++ suffix ++ [] = suffix ++ u := by
    rw [List.append_nil]
    nth_rewrite 1 [hbu]
    rw [← List.append_assoc, ← hvb]
  have hfind : find suffix (suffix ++ u) = some (suffix ++ u) := by
    obtain ⟨front₀, mid, hfind, hsplit, hle⟩ := find_first suffix [] u
    rw [List.prefix_nil.mp hle] at hsplit
    rw [List.nil_append] at hfind hsplit
    rwa [← hsplit] at hfind
  obtain ⟨rest', hmet, hend⟩ := hmeets (suffix ++ u) v [] huri.symm (Or.inl rfl)
  rcases (met_iff_of_find hfind).mp hmet with rfl | hlater
  · rcases hend with hnil | hhead
    · rw [hnil, List.length_nil] at hlen
      omega
    · exact hhead
  · -- what is left is shorter than the suffix
    obtain ⟨front, hfront⟩ := hlater.occurs
    have hshort := congrArg List.length hfront
    rw [hvb] at hshort
    simp only [List.length_append] at hshort
    omega

/-- A suffix is found in a URI if and only if one of its occurrences that count is met by
the scan, and it is found in every URI if and only if a slash follows wherever it
overlaps itself. -/
theorem findsSuffix_iff {suffix : Text} (hsuffix : suffix ≠ []) :
    (∀ uri, FindsSuffix suffix uri ↔ MeetsEnd suffix uri) ∧
      ((∀ uri, FindsSuffix suffix uri) ↔ OverlapsAtSlash suffix) := by
  refine ⟨findsSuffix_iff_meetsEnd hsuffix, ?_, ?_⟩
  · intro hfinds
    exact overlapsAtSlash_of_meetsEnd fun uri =>
      (findsSuffix_iff_meetsEnd hsuffix uri).mp (hfinds uri)
  · intro hslash uri
    exact (findsSuffix_iff_meetsEnd hsuffix uri).mpr (hslash.meetsEnd hsuffix uri)

/-- An extension does not overlap itself. -/
theorem findsSuffix_iff_extension : FindsSuffix ".foo".toList "/a.foo.foo/b".toList :=
  (findsSuffix_iff (by decide)).2.mpr (by decide) _

/-- The suffix `.x.x` is not found in `/.x.x.x`. -/
theorem not_findsSuffix_overlap :
    ¬ ∀ suffix uri : Text, suffix ≠ [] → FindsSuffix suffix uri := by
  intro hclaim
  obtain ⟨b, hb, hocc⟩ := hclaim ".x.x".toList "/.x.x.x".toList (by decide)
  have hfalse : cseMatchSuffix "/.x.x.x".toList ".x.x".toList = some false := by decide
  rw [hfalse, Option.some_inj] at hb
  rw [← hb] at hocc
  exact absurd (hocc.mpr ⟨"/.x".toList, [], by decide, Or.inl rfl⟩) Bool.false_ne_true

end ModCaucho
