import ModCaucho.Registry.Lines
import ModCaucho.Registry.Skip

/-!
# The prolog of a file

What may stand in front of the first element: an XML declaration and other processing
instructions, a doctype declaration, comments, and white space. `cse_parse` has read no text
yet and reads nothing from them, so a file is parsed as if it began with the element. This
holds for included files too, and for files that cannot be parsed.

The white space goes to the buffer until the next `<`, and it must not make the buffer grow:
what the parser does with long tokens depends on the size of the buffer. A doctype
declaration ends at its first `>` outside quotes, so it has no internal subset.
-/

namespace ModCaucho

open Subword

/-! ## What is written -/

/-- White space that keeps `spaceOnly`. -/
def isBlank (ch : Char) : Prop := ch = ' ' ∨ ch = '\t' ∨ ch = '\n' ∨ ch = '\x0c'

/-- The inside of a doctype declaration: quoted strings, and other characters but `>`. -/
inductive DoctypeBody : Text → Prop
  | nil : DoctypeBody []
  | char {ch : Char} {body : Text} (hch : ch ≠ '>' ∧ ch ≠ '"' ∧ ch ≠ '\'')
      (hbody : DoctypeBody body) : DoctypeBody (ch :: body)
  | quoted {quote : Char} {value body : Text} (hquote : quote = '"' ∨ quote = '\'')
      (hvalue : quote ∉ value) (hbody : DoctypeBody body) :
      DoctypeBody (quote :: value ++ quote :: body)

theorem DoctypeBody.plain {front body : Text} (hend : '>' ∉ front) (hdouble : '"' ∉ front)
    (hsingle : '\'' ∉ front) (hbody : DoctypeBody body) : DoctypeBody (front ++ body) := by
  induction front with
  | nil => exact hbody
  | cons ch front ih =>
      rw [List.mem_cons, not_or] at hend hdouble hsingle
      exact .char ⟨Ne.symm hend.1, Ne.symm hdouble.1, Ne.symm hsingle.1⟩
        (ih hend.2 hdouble.2 hsingle.2)

/-- Markup that is no element, behind its `<`. -/
inductive Unread : Text → Prop
  | comment {body : Text} (hbody : ¬ "-->".toList <:+: body) :
      Unread ('!' :: '-' :: '-' :: (body ++ "-->".toList))
  | pi {body : Text} (hbody : ¬ "?>".toList <:+: body) : Unread ('?' :: (body ++ "?>".toList))
  | doctype {body : Text} (hbody : DoctypeBody body) : Unread ('!' :: 'D' :: (body ++ ['>']))

/-- White space and such markup. The runs of white space fit the buffer. -/
inductive Prolog : Text → Prop
  | blank {gap : Text} (hgap : ∀ ch ∈ gap, isBlank ch) (hroom : gap.length < 1023) : Prolog gap
  | markup {gap markup rest : Text} (hgap : ∀ ch ∈ gap, isBlank ch) (hroom : gap.length < 1023)
      (hmarkup : Unread markup) (hrest : Prolog rest) : Prolog (gap ++ '<' :: markup ++ rest)

/-- The second file is the first one, with or without a prolog. -/
inductive Prefaced : Text → Text → Prop
  | same (file : Text) : Prefaced file file
  | prolog {prolog file : Text} (hprolog : Prolog prolog) (hfile : file.head? = some '<') :
      Prefaced file (prolog ++ file)

/-! ## Where markup ends -/

theorem stopsBehind_quoted {quote : Char} {value : Text} (hvalue : quote ∉ value) (rest : Text) :
    stopsBehind doctypeStep (some quote) (value ++ quote :: rest) =
      stopsBehind doctypeStep none rest := by
  induction value with
  | nil => exact stopsBehind_go (by simp [doctypeStep]) rest
  | cons ch value ih =>
      rw [List.mem_cons, not_or] at hvalue
      have hinside : doctypeStep (some quote) ch = some (some quote) := by
        simp [doctypeStep, Ne.symm hvalue.1]
      rw [List.cons_append, stopsBehind_go hinside, ih hvalue.2]

/-- A doctype declaration ends at the `>` behind its inside. -/
theorem stopsBehind_doctype {body : Text} (hbody : DoctypeBody body) (rest : Text) :
    stopsBehind doctypeStep none (body ++ '>' :: rest) = some rest := by
  induction hbody with
  | nil => exact stopsBehind_stop rfl rest
  | @char ch body hch _ ih =>
      have houtside : doctypeStep none ch = some none := by simp [doctypeStep, hch]
      rw [List.cons_append, stopsBehind_go houtside, ih]
  | @quoted quote value body hquote hvalue _ ih =>
      have hne : quote ≠ '>' := by
        rintro rfl
        rcases hquote with h | h <;> cases h
      have hopens : doctypeStep none quote = some (some quote) := by
        simp [doctypeStep, hne, hquote]
      simp only [List.cons_append, List.append_assoc]
      rw [stopsBehind_go hopens, stopsBehind_quoted hvalue, ih]

variable {fresh : Fresh} {path : Text}

/-- Markup that is no element is skipped to its end. -/
theorem scanMarkup_unread {markup rest : Text} (h : Unread markup) {is : Rstream}
    (hfile : is.file = markup ++ rest) :
    ∃ line, is.line ≤ line ∧
      scanMarkup fresh path is = (.skipped, none, { is with file := rest, line := line }) := by
  cases h with
  | @comment body hbody =>
      simp only [List.cons_append] at hfile
      have hfirst : FirstAt "-->".toList (is.behind (body ++ "-->".toList ++ rest)).file body
          rest := firstAt_of_find rfl (find_behind rest (by decide : '>' ∉ "--".toList) hbody)
      have hskip := (skipComment_endsAtFirst path _).found body rest hfirst
      refine ⟨((is.behind (body ++ "-->".toList ++ rest)).behind rest).line, ?_, ?_⟩
      · exact (Nat.le_add_right _ _).trans (Nat.le_add_right _ _)
      · rw [scanMarkup_opened fresh path hfile, hskip]
        rfl
  | @pi body hbody =>
      simp only [List.cons_append] at hfile
      have hfirst : FirstAt "?>".toList (is.behind (body ++ "?>".toList ++ rest)).file body
          rest := firstAt_of_find rfl (find_behind rest (by decide : '>' ∉ "?".toList) hbody)
      have hskip := (skipPi_endsAtFirst path _).found body rest hfirst
      refine ⟨((is.behind (body ++ "?>".toList ++ rest)).behind rest).line, ?_, ?_⟩
      · exact (Nat.le_add_right _ _).trans (Nat.le_add_right _ _)
      · have hbehind : (bufRead is).2 = is.behind (body ++ "?>".toList ++ rest) := by
          simp [bufRead, hfile, Rstream.behind]
        have hquestion : (bufRead is).1 = some '?' := by simp [bufRead, hfile]
        rw [scanMarkup_eq, if_neg (by simp [hquestion]), if_pos hquestion, hbehind, hskip]
        rfl
  | @doctype body hbody =>
      simp only [List.cons_append, List.append_assoc] at hfile
      have hskip (is : Rstream) (hopened : is.file = body ++ '>' :: rest) :
          skipDoctype path is = (none, is.behind rest) := by
        rw [skipDoctype, skip, skipUntil_eq, hopened, stopsBehind_doctype hbody]
        rfl
      refine ⟨((is.behind (body ++ '>' :: rest)).behind rest).line, ?_, ?_⟩
      · exact (Nat.le_add_right _ _).trans (Nat.le_add_right _ _)
      · have hbehind : (bufRead (bufRead is).2).2 = is.behind (body ++ '>' :: rest) := by
          simp [bufRead, hfile, Rstream.behind]
        have hdoctype : scanDeclaration path (bufRead is).2 =
            (.skipped, skipDoctype path (bufRead (bufRead is).2).2) := by
          simp [scanDeclaration, bufRead, hfile]
        rw [scanMarkup_eq, if_pos (by simp [bufRead, hfile]), hdoctype, hbehind, hskip _ rfl]
        rfl

/-! ## The parser in a prolog -/

namespace Parser

variable {files files' : Files}
  {parse parse' : Text → Text → Nodes → Option Text → Except Stop Parsed}

/-- The state at a later place of its file, with this in the buffer. -/
def moved (s : Parser) (rest : Text) (line : ℕ) (buf : Text) : Parser :=
  { s with is := { s.is with file := rest, line := line, buf := buf } }

/-- White space goes to the buffer. -/
theorem loop_gap {gap rest : Text} (hgap : ∀ ch ∈ gap, isBlank ch) {s : Parser}
    (hfile : s.is.file = gap ++ rest) (hroom : s.is.buf.length + gap.length < 1023)
    (hcapacity : s.is.capacity = 1024) :
    ∃ line, s.is.line ≤ line ∧ ∀ fuel,
      s.loop fresh files parse path (fuel + gap.length) =
        (s.moved rest line (s.is.buf ++ gap)).loop fresh files parse path fuel := by
  induction gap generalizing s with
  | nil =>
      refine ⟨s.is.line, Nat.le_refl _, fun fuel => ?_⟩
      rw [List.nil_append] at hfile
      rw [List.append_nil, moved, ← hfile]
      rfl
  | cons ch gap ih =>
      rw [List.forall_mem_cons] at hgap
      rw [List.length_cons] at hroom
      let s₁ := s.moved (gap ++ rest) (if ch = '\n' then s.is.line + 1 else s.is.line)
        (s.is.buf ++ [ch])
      obtain ⟨line, hline, hloop⟩ := @ih hgap.2 s₁ rfl (by
        simp only [s₁, moved, List.length_append, List.length_singleton]
        omega) hcapacity
      refine ⟨line, ?_, fun fuel => ?_⟩
      · refine Nat.le_trans ?_ hline
        simp only [s₁, moved]
        split <;> omega
      · have hfits : ¬ s.is.buf.length + 2 ≥ s.is.capacity := by omega
        have hstep : s.loop fresh files parse path (fuel + (ch :: gap).length) =
            s₁.loop fresh files parse path (fuel + gap.length) := by
          rw [List.length_cons, ← Nat.add_assoc, loop]
          simp only [bufRead, hfile, List.cons_append, step, bufAppend, if_neg hfits,
            if_pos (show ch = ' ' ∨ ch = '\t' ∨ ch = '\n' ∨ ch = '\x0c' from hgap.1)]
          rfl
        rw [hstep, hloop]
        simp [s₁, moved]

/-- Markup that is no element is skipped. -/
theorem loop_unread {markup rest : Text} (hmarkup : Unread markup) {s : Parser}
    (hfile : s.is.file = '<' :: markup ++ rest) (hspace : s.spaceOnly = true) :
    ∃ line, s.is.line ≤ line ∧ ∀ fuel,
      s.loop fresh files parse path (fuel + 1) =
        (s.moved rest line []).loop fresh files parse path fuel := by
  obtain ⟨line, hline, hscan⟩ := @scanMarkup_unread fresh path markup rest hmarkup
    { s.is with file := markup ++ rest, buf := [] } rfl
  refine ⟨line, hline, fun fuel => ?_⟩
  rw [loop]
  simp only [bufRead, hfile, List.cons_append, if_neg (by decide : ¬ '<' = '\n'), step,
    if_neg (by decide : ¬ ('<' = ' ' ∨ '<' = '\t' ∨ '<' = '\n' ∨ '<' = '\x0c')),
    if_neg (by decide : ¬ '<' ≠ '<'), setText, hspace, if_true, hscan, Option.none_or, moved]

/-- A prolog is read to its end. -/
theorem loop_prolog {prolog rest : Text} (hprolog : Prolog prolog) {s : Parser}
    (hfile : s.is.file = prolog ++ rest) (hspace : s.spaceOnly = true) (hbuf : s.is.buf = [])
    (hcapacity : s.is.capacity = 1024) :
    ∃ n line buf, n ≤ prolog.length ∧ s.is.line ≤ line ∧ ∀ fuel,
      s.loop fresh files parse path (fuel + n) =
        (s.moved rest line buf).loop fresh files parse path fuel := by
  induction hprolog generalizing s with
  | @blank gap hgap hroom =>
      obtain ⟨line, hline, hloop⟩ :=
        @loop_gap fresh path files parse gap rest hgap s hfile (by simpa [hbuf]) hcapacity
      exact ⟨_, line, _, Nat.le_refl _, hline, hloop⟩
  | @markup gap markup prolog hgap hroom hmarkup _ ih =>
      rw [List.append_assoc, List.append_assoc] at hfile
      obtain ⟨line₁, hline₁, hloop₁⟩ :=
        @loop_gap fresh path files parse gap _ hgap s hfile (by simpa [hbuf]) hcapacity
      obtain ⟨line₂, hline₂, hloop₂⟩ := @loop_unread fresh path files parse markup _ hmarkup
        (s.moved ('<' :: markup ++ (prolog ++ rest)) line₁ (s.is.buf ++ gap)) rfl hspace
      obtain ⟨n, line₃, buf, hn, hline₃, hloop₃⟩ := @ih
        (s.moved (prolog ++ rest) line₂ []) rfl hspace rfl hcapacity
      refine ⟨n + 1 + gap.length, line₃, buf, ?_,
        hline₁.trans (hline₂.trans hline₃), fun fuel => ?_⟩
      · simp only [List.length_append, List.length_cons]
        omega
      · rw [← Nat.add_assoc, hloop₁, ← Nat.add_assoc, hloop₂]
        exact hloop₃ fuel

/-- What is in the buffer does not matter in front of a `<`. -/
theorem loop_buf {s : Parser} (hfile : s.is.file.head? = some '<') (hspace : s.spaceOnly = true)
    (buf : Text) (fuel : ℕ) :
    (s.moved s.is.file s.is.line buf).loop fresh files parse path fuel =
      s.loop fresh files parse path fuel := by
  obtain ⟨rest, hrest⟩ := List.head?_eq_some_iff.mp hfile
  cases fuel with
  | zero => rfl
  | succ fuel =>
      rw [loop, loop]
      simp only [bufRead, moved, hrest, step,
        if_neg (by decide : ¬ ('<' = ' ' ∨ '<' = '\t' ∨ '<' = '\n' ∨ '<' = '\x0c')),
        if_neg (by decide : ¬ '<' ≠ '<'), setText, hspace, if_true]

end Parser

/-- A file with a prolog is parsed as the one without it. -/
theorem parseFile_prefaced {files files' : Files}
    {parse parse' : Text → Text → Nodes → Option Text → Except Stop Parsed}
    (hfiles : Parser.SameFiles files files' parse parse') {file file' : Text}
    (h : Prefaced file file') (nodes : Nodes) {error error' : Option Text}
    (herror : error'.isSome = error.isSome) :
    ∃ k, Parser.SameRound k (parseFile fresh files parse path file nodes error)
      (parseFile fresh files' parse' path file' nodes error') := by
  unfold parseFile
  cases h with
  | same =>
      exact ⟨0, Parser.loop_same hfiles (@Parser.Same.later 0 (.start file nodes error) _ herror)
        (Nat.lt_succ_self _) (Nat.lt_succ_self _)⟩
  | @prolog prolog _ hprolog hfile =>
      obtain ⟨n, line, buf, hn, hline, hloop⟩ := @Parser.loop_prolog fresh path files' parse'
        prolog file hprolog (.start (prolog ++ file) nodes error') rfl rfl rfl rfl
      obtain ⟨k, rfl⟩ := Nat.exists_eq_add_of_le hline
      have hlength : (prolog ++ file).length + 1 = prolog.length - n + (file.length + 1) + n := by
        rw [List.length_append]
        omega
      refine ⟨k, ?_⟩
      rw [hlength, hloop]
      have hbuf (fuel : ℕ) : Parser.loop fresh files' parse' path fuel
          ((Parser.start (prolog ++ file) nodes error').moved file
            ((Parser.start (prolog ++ file) nodes error').is.line + k) buf) =
          Parser.loop fresh files' parse' path fuel
            { Parser.start file nodes error' with is := (Rstream.start file).later k } :=
        @Parser.loop_buf fresh path files' parse'
          { Parser.start file nodes error' with is := (Rstream.start file).later k } hfile rfl buf
          fuel
      rw [hbuf]
      exact Parser.loop_same hfiles (@Parser.Same.later k (.start file nodes error) _ herror)
        (Nat.lt_succ_self _) ((Nat.lt_succ_self _).trans_le (Nat.le_add_left _ _))

/-- `cse_parse` does not see the prologs of files, be it the file that it is called for or one
that is included. -/
theorem cseParse_prefaced {files files' : Files}
    (hfiles : ∀ path, Option.Rel Prefaced (files path) (files' path)) (depth : ℕ) (path : Text)
    {file file' : Text} (h : Prefaced file file') (nodes : Nodes) {error error' : Option Text}
    (herror : error'.isSome = error.isSome) :
    SameParse (cseParse fresh files depth path file nodes error)
      (cseParse fresh files' depth path file' nodes error') := by
  induction depth generalizing path file file' nodes error error' with
  | zero => exact .endless
  | succ depth ih =>
      have hsame : Parser.SameFiles files files' (cseParse fresh files depth)
          (cseParse fresh files' depth) := by
        intro path nodes error error' herror
        have hrel := hfiles path
        generalize files path = o at hrel ⊢
        generalize files' path = o' at hrel ⊢
        cases hrel with
        | none => exact Or.inl ⟨rfl, rfl⟩
        | @some file file' hfile => exact Or.inr ⟨_, _, rfl, rfl, ih path hfile nodes herror⟩
      obtain ⟨k, hround⟩ := @parseFile_prefaced fresh path files files' _ _ hsame file file' h nodes
        error error' herror
      rw [cseParse, cseParse]
      generalize parseFile fresh files (cseParse fresh files depth) path file nodes error = r
        at hround ⊢
      generalize parseFile fresh files' (cseParse fresh files' depth) path file' nodes error' = r'
        at hround ⊢
      cases hround with
      | ok h =>
          obtain ⟨herror⟩ := h
          exact .ok herror
      | null herror => exact .null herror
      | crash => exact .crash
      | endless => exact .endless

end ModCaucho
