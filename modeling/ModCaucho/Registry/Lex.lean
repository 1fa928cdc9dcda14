import Mathlib.Data.Bool.AllAny
import Mathlib.Data.List.TakeWhile
import ModCaucho.Lib.Subword
import ModCaucho.Registry.Build
import ModCaucho.Registry.Progress
import ModCaucho.Registry.Skip

/-!
# Reading canonical markup

What the reading functions do with the markup of an element in its canonical form: a
token that fits the buffer, a start tag without attributes, an end tag, and a comment.
The buffer of a stream keeps at least the room it began with.
-/

namespace ModCaucho

/-- A word that a tag holds as it is, with room in the first buffer. -/
structure IsName (w : Text) : Prop where
  ne_nil : w ≠ []
  short : w.length < 1023
  plain : ∀ ch ∈ w, isSpace ch = false ∧ ch ∉ "=/<>".toList

/-- A token of a file: not empty, with room in the first buffer, and of characters that
neither end it nor have a meaning. -/
structure IsToken (w : Text) : Prop where
  ne_nil : w ≠ []
  short : w.length < 1000
  plain : ∀ ch ∈ w, isSpace ch = false ∧ ch ∉ "<>/='\"&".toList ∧ ch ≠ '\x00'

/-- A key of an element. -/
structure IsKey (k : Text) : Prop where
  token : IsToken k
  letter : ∃ ch rest, k = ch :: rest ∧ ch.isAlpha = true
  ne_id : k ≠ "id".toList
  ne_include : k ≠ includeKey

section

variable {fresh : Fresh} {path : Text} {is : Rstream} {rest : Text}

theorem bufAppend_eq (h : is.buf.length + 2 < is.capacity) (ch : Char) :
    bufAppend fresh is ch = { is with buf := is.buf ++ [ch] } := by
  rw [bufAppend, if_neg (by omega)]

/-- A loop over the characters of a token that fits. -/
theorem forWhile_append {p : Char → Bool} {w : Text} {c ch : Char} {fuel : ℕ}
    (hfile : ch :: is.file = w ++ c :: rest) (hw : ∀ x ∈ w, p x = true) (hc : p c = false)
    (hfuel : w.length < fuel) (hroom : is.buf.length + w.length + 1 < is.capacity) :
    ∃ line, forWhile p (bufAppend fresh) fuel (some ch) is =
      (some c, { is with file := rest, line := line, buf := is.buf ++ w }) := by
  induction w generalizing is ch fuel with
  | nil =>
      cases fuel with
      | zero => omega
      | succ fuel =>
          rw [List.nil_append, List.cons.injEq] at hfile
          obtain ⟨rfl, rfl⟩ := hfile
          exact ⟨is.line, by simp [forWhile, hc]⟩
  | cons x w ih =>
      cases fuel with
      | zero => omega
      | succ fuel =>
          rw [List.cons_append, List.cons.injEq] at hfile
          obtain ⟨rfl, hfile⟩ := hfile
          simp only [List.length_cons] at hfuel hroom
          have hx : p ch = true := hw ch List.mem_cons_self
          obtain ⟨next, more, hmore⟩ : ∃ next more, is.file = next :: more := by
            cases hf : is.file with
            | nil =>
                rw [hf] at hfile
                cases w <;> cases hfile
            | cons next more => exact ⟨next, more, rfl⟩
          rw [forWhile, if_pos hx, bufAppend_eq (by omega)]
          simp only [bufRead, hmore]
          have hstep := @ih
            { is with
              file := more
              line := if next = '\n' then is.line + 1 else is.line
              buf := is.buf ++ [ch] } next fuel
            (by rw [← hmore]; exact hfile) (fun y hy => hw y (List.mem_cons_of_mem _ hy))
            (by omega) (by simp only [List.length_append, List.length_singleton]; omega)
          obtain ⟨line, hline⟩ := hstep
          exact ⟨line, by rw [hline, List.append_assoc, List.singleton_append]⟩

theorem readToken_eq (fresh : Fresh) (is : Rstream) {p : Char → Bool} {w : Text} {c ch : Char}
    (hfile : ch :: is.file = w ++ c :: rest) (hw : ∀ x ∈ w, p x = true) (hc : p c = false)
    (hroom : w.length + 1 < is.capacity) :
    ∃ line, readToken fresh p (some ch) is =
      (some c, { is with file := rest, line := line, buf := w }) := by
  have hlen : w.length < is.file.length + 1 := by
    have := congrArg List.length hfile
    simp only [List.length_cons, List.length_append] at this
    omega
  have hroom' : ({ is with buf := [] } : Rstream).buf.length + w.length + 1 < is.capacity := by
    simp only [List.length_nil]
    omega
  exact forWhile_append (by simpa using hfile) hw hc hlen hroom'

theorem skipSpace_eq {ch : Char} (h : isSpace ch = false) :
    skipSpace (some ch) is = (some ch, is) := by
  simp [skipSpace, forWhile, h]

theorem IsToken.cString_eq {w : Text} (h : IsToken w) : cString w = w :=
  List.takeWhile_eq_self_iff.mpr fun x hx => decide_eq_true (h.plain x hx).2.2

theorem IsName.ne_of_mem {w : Text} (h : IsName w) {x : Char} (hx : x ∈ w) :
    x ≠ '=' ∧ x ≠ '/' ∧ x ≠ '>' := by
  have hnot := (h.plain x hx).2
  refine ⟨?_, ?_, ?_⟩
  · rintro rfl
    exact hnot (by decide)
  · rintro rfl
    exact hnot (by decide)
  · rintro rfl
    exact hnot (by decide)

theorem IsName.isTagChar {w : Text} (h : IsName w) : ∀ x ∈ w, isTagChar x = true := by
  intro x hx
  simp [ModCaucho.isTagChar, (h.plain x hx).1, h.ne_of_mem hx]

theorem IsToken.name {w : Text} (h : IsToken w) : IsName w := by
  have hshort := h.short
  have hsub : ∀ ch ∈ "=/<>".toList, ch ∈ "<>/='\"&".toList :=
    List.all_iff_forall_prop.mp (by decide)
  exact ⟨h.ne_nil, by omega, fun ch hch =>
    ⟨(h.plain ch hch).1, fun hmem => (h.plain ch hch).2.1 (hsub ch hmem)⟩⟩

/-- A start tag without attributes. -/
theorem scanTag_eq {k : Text} {ch : Char} (hk : IsName k) (hcap : 1024 ≤ is.capacity)
    (hfile : ch :: is.file = k ++ '>' :: rest) :
    ∃ line, scanTag fresh path (some ch) is =
      (.ok ⟨cString k, [], false⟩, { is with file := rest, line := line, buf := [] }) := by
  have hshort := hk.short
  obtain ⟨line, htoken⟩ := readToken_eq fresh is hfile hk.isTagChar
    (by decide : isTagChar '>' = false) (by omega)
  have hattrs (fuel : ℕ) : scanAttributes fresh path (fuel + 1) (some '>')
      { is with file := rest, line := line, buf := k } =
        ([], false, { is with file := '>' :: rest, line := line, buf := [] }) := by
    simp [scanAttributes, scanAttribute, skipSpace, readToken, forWhile, ungetc, isSpace]
  refine ⟨line, ?_⟩
  simp only [scanTag, htoken, hk.ne_nil, if_false, hattrs, bufRead]
  simp [skipSpace, forWhile, isSpace]

/-- An end tag. -/
theorem scanEndTag_eq {k : Text} (hk : IsName k) (hcap : 1024 ≤ is.capacity)
    (hfile : is.file = k ++ '>' :: rest) :
    ∃ line, scanEndTag fresh path is =
      (.ok (), { is with file := rest, line := line, buf := k }) := by
  have hshort := hk.short
  obtain ⟨ch, w, rfl⟩ : ∃ ch w, k = ch :: w := List.exists_cons_of_ne_nil hk.ne_nil
  rw [List.cons_append] at hfile
  have hwhole : ch :: (w ++ '>' :: rest) = (ch :: w) ++ '>' :: rest := rfl
  obtain ⟨line, htoken⟩ := readToken_eq fresh
    { is with
      file := w ++ '>' :: rest
      line := if ch = '\n' then is.line + 1 else is.line }
    hwhole hk.isTagChar (by decide : isTagChar '>' = false) (by simp only; omega)
  refine ⟨line, ?_⟩
  simp only [scanEndTag, bufRead, hfile, htoken]
  simp [skipSpace, forWhile, isSpace]

/-- A comment. -/
theorem scanMarkup_comment {body : Text} (hbody : ¬ "-->".toList <:+: body)
    (hfile : is.file = '!' :: '-' :: '-' :: body ++ '-' :: '-' :: '>' :: rest) :
    ∃ line error, scanMarkup fresh path is =
      (.skipped, error, { is with file := rest, line := line }) := by
  have hopen : is.file = '!' :: '-' :: '-' :: (body ++ "-->".toList ++ rest) := by simp [hfile]
  let opened := is.behind (body ++ "-->".toList ++ rest)
  have hfirst : Subword.FirstAt "-->".toList opened.file body rest :=
    Subword.firstAt_of_find rfl (Subword.find_behind rest (by decide : '>' ∉ "--".toList) hbody)
  have hskip := (skipComment_endsAtFirst path opened).found body rest hfirst
  refine ⟨(opened.behind rest).line, none, ?_⟩
  rw [scanMarkup_opened fresh path hopen, hskip]
  rfl

/-- What is read behind a `<` that begins a start tag. -/
theorem scanMarkup_start {ch : Char} {file : Text} {tag : Tag} {is' : Rstream}
    (hfile : is.file = ch :: file) (hne : ch ≠ '!' ∧ ch ≠ '?' ∧ ch ≠ '/')
    (htag : scanTag fresh path (some ch)
      { is with file := file, line := if ch = '\n' then is.line + 1 else is.line } =
        (.ok tag, is')) :
    scanMarkup fresh path is = (.tag tag, none, is') := by
  unfold scanMarkup
  simp only [bufRead, hfile]
  split
  · next h => exact absurd (Option.some_inj.mp (Prod.mk.inj h).1) hne.1
  · next h => exact absurd (Option.some_inj.mp (Prod.mk.inj h).1) hne.2.1
  · next h => exact absurd (Option.some_inj.mp (Prod.mk.inj h).1) hne.2.2
  · next h =>
      simp only [Prod.mk.injEq] at h
      obtain ⟨rfl, rfl⟩ := h
      rw [htag]

/-- No letter begins another kind of markup. -/
theorem ne_of_isAlpha {ch : Char} (h : ch.isAlpha = true) : ch ≠ '!' ∧ ch ≠ '?' ∧ ch ≠ '/' := by
  refine ⟨?_, ?_, ?_⟩
  · rintro rfl
    revert h
    decide
  · rintro rfl
    revert h
    decide
  · rintro rfl
    revert h
    decide

/-- A start tag behind a `<`. -/
theorem scanMarkup_tag {k : Text} (hk : IsKey k) (hcap : 1024 ≤ is.capacity)
    (hfile : is.file = k ++ '>' :: rest) :
    ∃ line, scanMarkup fresh path is =
      (.tag ⟨k, [], false⟩, none, { is with file := rest, line := line, buf := [] }) := by
  obtain ⟨ch, w, rfl, halpha⟩ := hk.letter
  rw [List.cons_append] at hfile
  have hwhole : ch :: (w ++ '>' :: rest) = (ch :: w) ++ '>' :: rest := rfl
  obtain ⟨line, htag⟩ := @scanTag_eq fresh path
    { is with
      file := w ++ '>' :: rest
      line := if ch = '\n' then is.line + 1 else is.line } rest (ch :: w) ch hk.token.name hcap
    hwhole
  rw [hk.token.cString_eq] at htag
  exact ⟨line, scanMarkup_start hfile (ne_of_isAlpha halpha) htag⟩

/-- An end tag behind a `<`. -/
theorem scanMarkup_endTag {k : Text} (hk : IsName k) (hcap : 1024 ≤ is.capacity)
    (hfile : is.file = '/' :: k ++ '>' :: rest) :
    ∃ line, scanMarkup fresh path is =
      (.endTag, none, { is with file := rest, line := line, buf := k }) := by
  rw [List.cons_append] at hfile
  obtain ⟨line, hend⟩ := @scanEndTag_eq fresh path { is with file := k ++ '>' :: rest } rest k hk
    hcap rfl
  refine ⟨line, ?_⟩
  simp only [scanMarkup, bufRead, hfile]
  simp [hend]

/-! ## Attributes -/

theorem forWhile_skip {p : Char → Bool} {w : Text} {c ch : Char} {fuel : ℕ}
    (hfile : ch :: is.file = w ++ c :: rest) (hw : ∀ x ∈ w, p x = true) (hc : p c = false)
    (hfuel : w.length < fuel) :
    ∃ line, forWhile p (fun is _ => is) fuel (some ch) is =
      (some c, { is with file := rest, line := line }) := by
  induction w generalizing is ch fuel with
  | nil =>
      cases fuel with
      | zero => omega
      | succ fuel =>
          rw [List.nil_append, List.cons.injEq] at hfile
          obtain ⟨rfl, rfl⟩ := hfile
          exact ⟨is.line, by simp [forWhile, hc]⟩
  | cons x w ih =>
      cases fuel with
      | zero => omega
      | succ fuel =>
          rw [List.cons_append, List.cons.injEq] at hfile
          obtain ⟨rfl, hfile⟩ := hfile
          simp only [List.length_cons] at hfuel
          obtain ⟨next, more, hmore⟩ : ∃ next more, is.file = next :: more := by
            rw [hfile]
            cases w <;> exact ⟨_, _, rfl⟩
          rw [forWhile, if_pos (hw ch List.mem_cons_self)]
          simp only [bufRead, hmore]
          obtain ⟨line, hline⟩ := @ih
            { is with
              file := more
              line := if next = '\n' then is.line + 1 else is.line } next fuel
            (by rw [← hmore]; exact hfile) (fun y hy => hw y (List.mem_cons_of_mem _ hy)) (by omega)
          exact ⟨line, hline⟩

/-- White space that is skipped. -/
theorem skipSpace_run {w : Text} {c ch : Char} (hfile : ch :: is.file = w ++ c :: rest)
    (hw : ∀ x ∈ w, isSpace x = true) (hc : isSpace c = false) :
    ∃ line, skipSpace (some ch) is = (some c, { is with file := rest, line := line }) := by
  refine forWhile_skip hfile hw hc ?_
  have hlen := congrArg List.length hfile
  simp only [List.length_cons, List.length_append] at hlen
  omega

/-- A setting as it is written with a quote. -/
structure Quoted where
  name : Text
  value : Text
  quote : Char

/-- The name and the value fit the buffer, and the value does not hold the quote. -/
structure Quoted.Fits (q : Quoted) : Prop where
  name : IsName q.name
  quote : q.quote = '\'' ∨ q.quote = '"'
  short : q.value.length < 1023
  value : ∀ ch ∈ q.value, ch ≠ q.quote

/-- `name='value'`, with a space in front of it. -/
def Quoted.text (q : Quoted) : Text := ' ' :: q.name ++ '=' :: q.quote :: q.value ++ [q.quote]

/-- What is read of it. -/
def Quoted.attr (q : Quoted) : Attr := ⟨cString q.name, some (cString q.value)⟩

/-- An attribute with a quoted value, behind white space. -/
theorem scanAttribute_eq {q : Quoted} (hq : q.Fits) {gap : Text} {ch : Char}
    (hgap : ∀ x ∈ gap, isSpace x = true) (hcap : 1024 ≤ is.capacity)
    (hfile : ch :: is.file = gap ++ (q.text ++ rest)) :
    ∃ line, scanAttribute fresh path (some ch) is =
      (some q.attr, .more ' ', { is with file := rest, line := line, buf := q.value }) := by
  obtain ⟨first, w, hname⟩ := List.exists_cons_of_ne_nil hq.name.ne_nil
  have hfirst := hq.name.plain first (by rw [hname]; exact List.mem_cons_self)
  have hshort := hq.name.short
  have hvalue := hq.short
  have hquote : isSpace q.quote = false ∧ q.quote ≠ '/' ∧ q.quote ≠ '>' := by
    rcases hq.quote with h | h <;> rw [h] <;> decide
  have hends : some q.quote ≠ none ∧ some q.quote ≠ some '/' ∧ some q.quote ≠ some '>' := by
    simp [hquote]
  -- the space, the name, and the value up to its quote, one after the other
  have hspaces : ∀ x ∈ gap ++ [' '], isSpace x = true := by
    intro x hx
    rcases List.mem_append.mp hx with h | h
    · exact hgap x h
    · rw [List.mem_singleton.mp h]
      decide
  have hwhole : ch :: is.file =
      (gap ++ [' ']) ++ first :: (w ++ '=' :: q.quote :: (q.value ++ q.quote :: rest)) := by
    rw [hfile, Quoted.text, hname]
    simp
  obtain ⟨line₁, hskip⟩ := skipSpace_run hwhole hspaces hfirst.1
  have hchars : ∀ x ∈ q.name,
      (!isSpace x && x != '=' && x != '/' && x != '>') = true := by
    intro x hx
    simp [(hq.name.plain x hx).1, hq.name.ne_of_mem hx]
  obtain ⟨line₂, htoken⟩ := @readToken_eq (q.quote :: (q.value ++ q.quote :: rest)) fresh
    { is with
      file := w ++ '=' :: q.quote :: (q.value ++ q.quote :: rest)
      line := line₁ }
    (fun ch => !isSpace ch && ch != '=' && ch != '/' && ch != '>') q.name '=' first
    (by rw [hname]; rfl) hchars (by decide) (by simp only; omega)
  obtain ⟨next, more, hnext⟩ : ∃ next more, q.value ++ q.quote :: rest = next :: more := by
    cases q.value <;> exact ⟨_, _, rfl⟩
  obtain ⟨line₃, hread⟩ := @readToken_eq rest fresh
    { is with
      file := more
      line := if next = '\n' then line₂ + 1 else line₂
      buf := q.name }
    (fun ch => some ch != some q.quote) q.value q.quote next hnext.symm
    (fun x hx => by simp [hq.value x hx]) (by simp) (by simp only; omega)
  refine ⟨line₃, ?_⟩
  have hnewline : (if q.quote = '\n' then line₂ + 1 else line₂) = line₂ := by
    rcases hq.quote with h | h <;> rw [h] <;> rfl
  have hquoted : some q.quote = some '\'' ∨ some q.quote = some '"' :=
    hq.quote.imp (congrArg some) (congrArg some)
  rw [hnext] at hskip htoken
  simp only [scanAttribute, hskip, htoken, hq.name.ne_nil, if_false,
    skipSpace_eq (by decide : isSpace '=' = false), ne_eq, not_true_eq_false, bufRead, hnewline,
    skipSpace_eq hquote.1, hends, or_self, if_pos hquoted, hread]
  rfl

/-- No attribute is left. -/
theorem scanAttribute_done {gap : Text} {ch : Char} (hgap : ∀ x ∈ gap, isSpace x = true)
    (hfile : ch :: is.file = gap ++ '/' :: rest) :
    ∃ line, scanAttribute fresh path (some ch) is =
      (none, .done, { is with file := '/' :: rest, line := line, buf := [] }) := by
  obtain ⟨line, hskip⟩ := skipSpace_run hfile hgap (by decide)
  refine ⟨line, ?_⟩
  simp only [scanAttribute, hskip]
  simp [readToken, forWhile, ungetc]

/-- All attributes of a closed tag. -/
theorem scanAttributes_eq {qs : List Quoted} (hqs : ∀ q ∈ qs, q.Fits) {gap : Text} {ch : Char}
    {fuel : ℕ} (hgap : ∀ x ∈ gap, isSpace x = true) (hcap : 1024 ≤ is.capacity)
    (hfuel : qs.length < fuel)
    (hfile : ch :: is.file = gap ++ (qs.flatMap Quoted.text ++ '/' :: rest)) :
    ∃ line, scanAttributes fresh path fuel (some ch) is =
      (qs.map Quoted.attr, false, { is with file := '/' :: rest, line := line, buf := [] }) := by
  induction qs generalizing is gap ch fuel with
  | nil =>
      cases fuel with
      | zero => omega
      | succ fuel =>
          obtain ⟨line, hdone⟩ := @scanAttribute_done fresh path is rest gap ch hgap hfile
          exact ⟨line, by rw [scanAttributes, hdone]; rfl⟩
  | cons q qs ih =>
      cases fuel with
      | zero => omega
      | succ fuel =>
          rw [List.flatMap_cons, List.append_assoc] at hfile
          obtain ⟨line, hone⟩ := @scanAttribute_eq fresh path is
            (qs.flatMap Quoted.text ++ '/' :: rest) q (hqs q List.mem_cons_self) gap ch hgap hcap
            hfile
          have hspace : ∀ x ∈ [' '], isSpace x = true := List.all_eq_true.mp (by decide)
          obtain ⟨line', hrest⟩ := @ih
            { is with
              file := qs.flatMap Quoted.text ++ '/' :: rest
              line := line
              buf := q.value } (fun q' hq' => hqs q' (List.mem_cons_of_mem _ hq')) [' '] ' ' fuel
            hspace hcap
            (by rw [List.length_cons] at hfuel; omega) rfl
          refine ⟨line', ?_⟩
          rw [scanAttributes, hone]
          simp only [hrest]
          rfl

/-- A closed tag with attributes. -/
theorem scanTag_closed {k : Text} {qs : List Quoted} {ch : Char} (hk : IsName k)
    (hqs : ∀ q ∈ qs, q.Fits) (hcap : 1024 ≤ is.capacity)
    (hfile : ch :: is.file = k ++ (qs.flatMap Quoted.text ++ '/' :: '>' :: rest)) :
    ∃ line, scanTag fresh path (some ch) is =
      (.ok ⟨cString k, qs.map Quoted.attr, true⟩,
        { is with file := rest, line := line, buf := [] }) := by
  have hshort := hk.short
  -- the name ends at a space or at the slash
  obtain ⟨c, more, hmore, hc⟩ : ∃ c more, qs.flatMap Quoted.text ++ '/' :: '>' :: rest = c :: more ∧
      isTagChar c = false := by
    cases qs with
    | nil => exact ⟨'/', _, rfl, by decide⟩
    | cons q qs => exact ⟨' ', _, rfl, by decide⟩
  obtain ⟨line, htoken⟩ := readToken_eq fresh is (hmore ▸ hfile) hk.isTagChar hc (by omega)
  have hlen (qs : List Quoted) : qs.length ≤ (qs.flatMap Quoted.text).length := by
    induction qs with
    | nil => exact Nat.le_refl _
    | cons q qs ih =>
        simp only [List.length_cons, List.flatMap_cons, List.length_append, Quoted.text]
        omega
  have hfuel : qs.length < more.length + 1 := by
    have hle := hlen qs
    have htotal := congrArg List.length hmore
    simp only [List.length_append, List.length_cons] at htotal
    omega
  obtain ⟨line', hattrs⟩ := @scanAttributes_eq fresh path
    { is with file := more, line := line, buf := k } ('>' :: rest) qs hqs [] c (more.length + 1)
    (List.forall_mem_nil _) hcap hfuel hmore.symm
  refine ⟨line', ?_⟩
  simp only [scanTag, htoken, hk.ne_nil, if_false, hattrs, bufRead]
  simp [skipSpace, forWhile, isSpace]

end

end ModCaucho
