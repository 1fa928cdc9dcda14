import ModCaucho.Registry.Load

/-!
# Line numbers

The parser counts lines for its messages only. A stream that has come to the same place at a
later line is read in the same way: the same markup is found, and a message is set in the
same places. So two parses that differ in nothing else return the same registry.
-/

namespace ModCaucho

/-- The stream at a later line. -/
def Rstream.later (k : ℕ) (is : Rstream) : Rstream := { is with line := is.line + k }

@[simp] theorem later_file (k : ℕ) (is : Rstream) : (is.later k).file = is.file := rfl

@[simp] theorem later_buf (k : ℕ) (is : Rstream) : (is.later k).buf = is.buf := rfl

variable {fresh : Fresh} {path : Text} {k : ℕ}

/-! ## Characters -/

theorem bufRead_later (is : Rstream) :
    bufRead (is.later k) = ((bufRead is).1, (bufRead is).2.later k) := by
  obtain ⟨file, line, buf, capacity, block⟩ := is
  cases file with
  | nil => rfl
  | cons ch file =>
      unfold bufRead Rstream.later
      by_cases hch : ch = '\n'
      · simp only [if_pos hch, Nat.add_right_comm]
      · simp only [if_neg hch]

theorem ungetc_later (ch : Option Char) (is : Rstream) :
    ungetc ch (is.later k) = (ungetc ch is).later k := rfl

theorem bufAppend_later (is : Rstream) (ch : Char) :
    bufAppend fresh (is.later k) ch = (bufAppend fresh is ch).later k := by
  unfold bufAppend Rstream.later
  split <;> rfl

theorem forWhile_later {p : Char → Bool} {f : Rstream → Char → Rstream}
    (hf : ∀ is ch, f (is.later k) ch = (f is ch).later k) (fuel : ℕ) (ch : Option Char)
    (is : Rstream) :
    forWhile p f fuel ch (is.later k) =
      ((forWhile p f fuel ch is).1, (forWhile p f fuel ch is).2.later k) := by
  induction fuel generalizing ch is with
  | zero => cases ch <;> rfl
  | succ fuel ih =>
      cases ch with
      | none => rfl
      | some ch =>
          simp only [forWhile, hf, bufRead_later]
          split
          · exact ih _ _
          · rfl

theorem skipSpace_later (ch : Option Char) (is : Rstream) :
    skipSpace ch (is.later k) = ((skipSpace ch is).1, (skipSpace ch is).2.later k) :=
  forWhile_later (fun _ _ => rfl) _ ch is

theorem readToken_later (p : Char → Bool) (ch : Option Char) (is : Rstream) :
    readToken fresh p ch (is.later k) =
      ((readToken fresh p ch is).1, (readToken fresh p ch is).2.later k) :=
  forWhile_later bufAppend_later _ ch { is with buf := [] }

/-! ## Tags -/

/-- The end of an attribute without its message. -/
def AttrEnd.quiet : AttrEnd → AttrEnd
  | fail _ => fail none
  | stop => stop

theorem scanAttribute_later (ch : Option Char) (is : Rstream) :
    (scanAttribute fresh path ch (is.later k)).1 = (scanAttribute fresh path ch is).1 ∧
      (scanAttribute fresh path ch (is.later k)).2.1.quiet =
        (scanAttribute fresh path ch is).2.1.quiet ∧
      (scanAttribute fresh path ch (is.later k)).2.2 =
        (scanAttribute fresh path ch is).2.2.later k := by
  unfold scanAttribute
  simp only [skipSpace_later, readToken_later, bufRead_later, later_buf, ungetc_later]
  split
  · exact ⟨rfl, rfl, rfl⟩
  · split
    · exact ⟨rfl, rfl, rfl⟩
    · split
      · exact ⟨rfl, rfl, rfl⟩
      · split
        · split
          · exact ⟨rfl, rfl, rfl⟩
          · exact ⟨rfl, rfl, rfl⟩
        · exact ⟨rfl, rfl, rfl⟩

theorem scanAttributes_later (fuel : ℕ) (ch : Option Char) (is : Rstream) :
    scanAttributes fresh path fuel ch (is.later k) =
      ((scanAttributes fresh path fuel ch is).1, (scanAttributes fresh path fuel ch is).2.1,
        (scanAttributes fresh path fuel ch is).2.2.later k) := by
  induction fuel generalizing ch is with
  | zero => rfl
  | succ fuel ih =>
      obtain ⟨hattr, hstop, his⟩ := @scanAttribute_later fresh path k ch is
      rw [scanAttributes, scanAttributes]
      generalize scanAttribute fresh path ch (is.later k) = r' at hattr hstop his ⊢
      generalize scanAttribute fresh path ch is = r at hattr hstop his ⊢
      obtain ⟨attr', stop', is'⟩ := r'
      obtain ⟨attr, stop, is⟩ := r
      obtain rfl : attr' = attr := hattr
      obtain rfl : is' = is.later k := his
      cases stop with
      | fail error =>
          cases stop' with
          | fail error' => rfl
          | done => cases hstop
          | more ch' => cases hstop
      | done =>
          cases stop' with
          | fail error' => cases hstop
          | done => rfl
          | more ch' => cases hstop
      | more ch =>
          cases stop' with
          | fail error' => cases hstop
          | done => cases hstop
          | more ch' =>
              cases hstop
              simp only [ih]

theorem scanTag_later (ch : Option Char) (is : Rstream) :
    (scanTag fresh path ch (is.later k)).1.toOption = (scanTag fresh path ch is).1.toOption ∧
      (scanTag fresh path ch (is.later k)).2 = (scanTag fresh path ch is).2.later k := by
  unfold scanTag
  simp only [skipSpace_later, readToken_later, bufRead_later, scanAttributes_later, later_buf,
    later_file]
  split
  · exact ⟨rfl, rfl⟩
  · split
    · exact ⟨rfl, rfl⟩
    · split
      · exact ⟨rfl, rfl⟩
      · split
        · exact ⟨rfl, rfl⟩
        · split
          · exact ⟨rfl, rfl⟩
          · exact ⟨rfl, rfl⟩

theorem scanEndTag_later (is : Rstream) :
    (scanEndTag fresh path (is.later k)).1.toOption = (scanEndTag fresh path is).1.toOption ∧
      (scanEndTag fresh path (is.later k)).2 = (scanEndTag fresh path is).2.later k := by
  unfold scanEndTag
  simp only [skipSpace_later, readToken_later, bufRead_later, later_buf]
  split
  · exact ⟨rfl, rfl⟩
  · split
    · exact ⟨rfl, rfl⟩
    · exact ⟨rfl, rfl⟩

/-! ## What is skipped -/

theorem skipUntil_later {σ : Type} (step : σ → Char → Option σ) (file : Text) (s : σ)
    (is : Rstream) :
    skipUntil step file s (is.later k) =
      ((skipUntil step file s is).1, (skipUntil step file s is).2.later k) := by
  induction file generalizing s is with
  | nil => rfl
  | cons ch file ih =>
      simp only [skipUntil, bufRead_later]
      cases step s ch with
      | none => rfl
      | some s' => exact ih s' _

theorem skip_later {σ : Type} (step : σ → Char → Option σ) (s : σ) (what : String)
    (is : Rstream) :
    (skip step s what path (is.later k)).1.isSome = (skip step s what path is).1.isSome ∧
      (skip step s what path (is.later k)).2 = (skip step s what path is).2.later k := by
  unfold skip
  simp only [later_file, skipUntil_later, and_true]
  cases (skipUntil step is.file s is).1 <;> rfl

theorem expectDash_later (ch : Option Char) (is : Rstream) :
    (expectDash path ch (is.later k)).isSome = (expectDash path ch is).isSome := by
  unfold expectDash
  split <;> rfl

/-- What is read behind a `<!`. -/
def scanDeclaration (path : Text) (is : Rstream) : Markup × Option Text × Rstream :=
  let (ch, is) := bufRead is
  if ch = some 'D' then (.skipped, skipDoctype path is)
  else
    let error := expectDash path ch is
    let (ch, is) := bufRead is
    let error := (expectDash path ch is).or error
    let (error', is) := skipComment path is
    (.skipped, error'.or error, is)

/-- What is found by a function that may fail. -/
def markupOf {α : Type} (found : α → Markup) (result : Except Text α × Rstream) :
    Markup × Option Text × Rstream :=
  match result with
  | (.ok a, is) => (found a, none, is)
  | (.error error, is) => (.fail, some error, is)

theorem scanMarkup_eq (is : Rstream) :
    scanMarkup fresh path is =
      if (bufRead is).1 = some '!' then scanDeclaration path (bufRead is).2
      else if (bufRead is).1 = some '?' then (.skipped, skipPi path (bufRead is).2)
      else if (bufRead is).1 = some '/' then
        markupOf (fun _ => .endTag) (scanEndTag fresh path (bufRead is).2)
      else markupOf .tag (scanTag fresh path (bufRead is).1 (bufRead is).2) := by
  unfold scanMarkup
  split
  · next hread =>
      rw [hread, if_pos rfl, scanDeclaration]
      split
      · next hread' =>
          rw [hread']
          rfl
      · next hdoctype hread' =>
          rw [hread']
          exact (if_neg hdoctype).symm
  · next hread =>
      rw [hread, if_neg (by simp), if_pos rfl]
  · next hread =>
      rw [hread, if_neg (by simp), if_neg (by simp), if_pos rfl]
      generalize scanEndTag fresh path _ = result
      rcases result with ⟨_ | _, _⟩ <;> rfl
  · next ch is₁ hbang hquestion hslash hread =>
      rw [hread, if_neg hbang, if_neg hquestion, if_neg hslash]
      generalize scanTag fresh path ch _ = result
      rcases result with ⟨_ | _, _⟩ <;> rfl

/-- The same markup is found, and a message is set or not. -/
structure SameMarkup (k : ℕ) (r r' : Markup × Option Text × Rstream) : Prop where
  markup : r'.1 = r.1
  error : r'.2.1.isSome = r.2.1.isSome
  is : r'.2.2 = r.2.2.later k

theorem scanDeclaration_later (is : Rstream) :
    SameMarkup k (scanDeclaration path is) (scanDeclaration path (is.later k)) := by
  unfold scanDeclaration
  simp only [bufRead_later]
  split
  · have hskip := @skip_later path k _ doctypeStep none "doctype" (bufRead is).2
    exact ⟨rfl, hskip.1, hskip.2⟩
  · have hskip := @skip_later path k _ commentStep 0 "comment" (bufRead (bufRead is).2).2
    refine ⟨rfl, ?_, hskip.2⟩
    simp only [Option.isSome_or, expectDash_later]
    rw [skipComment, hskip.1]
    rfl

theorem markupOf_later {α : Type} {found : α → Markup} {result result' : Except Text α × Rstream}
    (hresult : result'.1.toOption = result.1.toOption) (his : result'.2 = result.2.later k) :
    SameMarkup k (markupOf found result) (markupOf found result') := by
  obtain ⟨result, is⟩ := result
  obtain ⟨result', is'⟩ := result'
  obtain rfl : is' = is.later k := his
  cases result with
  | error error =>
      cases result' with
      | error error' => exact ⟨rfl, rfl, rfl⟩
      | ok a => cases hresult
  | ok a =>
      cases result' with
      | error error' => cases hresult
      | ok a' =>
          cases hresult
          exact ⟨rfl, rfl, rfl⟩

theorem scanMarkup_later (is : Rstream) :
    SameMarkup k (scanMarkup fresh path is) (scanMarkup fresh path (is.later k)) := by
  rw [scanMarkup_eq, scanMarkup_eq, bufRead_later]
  simp only
  split
  · exact scanDeclaration_later _
  · split
    · have hskip := @skip_later path k Bool piStep false "pi" (bufRead is).2
      exact ⟨rfl, hskip.1, hskip.2⟩
    · split
      · have hend := @scanEndTag_later fresh path k (bufRead is).2
        exact markupOf_later hend.1 hend.2
      · have htag := @scanTag_later fresh path k (bufRead is).1 (bufRead is).2
        exact markupOf_later htag.1 htag.2

/-! ## The parser -/

/-- Two results of `cse_parse` that differ in the text of a message at most. -/
inductive SameParse : Except Stop Parsed → Except Stop Parsed → Prop
  | ok {nodes : Nodes} {root : ℕ} {error error' : Option Text}
      (herror : error'.isSome = error.isSome) :
      SameParse (.ok ⟨nodes, root, error⟩) (.ok ⟨nodes, root, error'⟩)
  | null {error error' : Option Text} (herror : error'.isSome = error.isSome) :
      SameParse (.error (.null error)) (.error (.null error'))
  | crash : SameParse (.error .crash) (.error .crash)
  | endless : SameParse (.error .endless) (.error .endless)

namespace Parser

/-- The second parse is at the same place in its file, some lines later. -/
inductive Same (k : ℕ) (s : Parser) : Parser → Prop
  | later {error : Option Text} (herror : error.isSome = s.error.isSome) :
      Same k s { s with is := s.is.later k, error := error }

/-- Two results of a round, or of the loop, that differ in the line and in the text of a
message at most. -/
inductive SameRound (k : ℕ) : Except Stop Parser → Except Stop Parser → Prop
  | ok {s s' : Parser} (h : s.Same k s') : SameRound k (.ok s) (.ok s')
  | null {error error' : Option Text} (herror : error'.isSome = error.isSome) :
      SameRound k (.error (.null error)) (.error (.null error'))
  | crash : SameRound k (.error .crash) (.error .crash)
  | endless : SameRound k (.error .endless) (.error .endless)

variable {files files' : Files}
  {parse parse' : Text → Text → Nodes → Option Text → Except Stop Parsed} {s s' : Parser}

theorem Same.setText (h : s.Same k s') : s.setText.Same k s'.setText := by
  obtain ⟨herror⟩ := h
  unfold Parser.setText
  simp only [later_buf]
  split
  · exact ⟨herror⟩
  · split
    · exact ⟨herror⟩
    · exact ⟨herror⟩

/-- The parses of the two tables of files, also behind an error that was recorded before. -/
def SameFiles (files files' : Files)
    (parse parse' : Text → Text → Nodes → Option Text → Except Stop Parsed) : Prop :=
  ∀ path nodes error error', error'.isSome = error.isSome →
    (files path = none ∧ files' path = none) ∨
      ∃ file file', files path = some file ∧ files' path = some file' ∧
        SameParse (parse path file nodes error) (parse' path file' nodes error')

theorem resume_same {result result' : Except Stop Parsed} (h : s.Same k s')
    (hresult : SameParse result result') : SameRound k (s.resume result) (s'.resume result') := by
  obtain ⟨-⟩ := h
  cases hresult with
  | null herror => exact .ok ⟨herror⟩
  | crash => exact .crash
  | endless => exact .endless
  | ok herror =>
      unfold resume
      simp only
      split
      · exact .ok ⟨herror⟩
      · split
        · exact .crash
        · exact .ok ⟨herror⟩

/-- The calls for an included file are the same. -/
theorem includeLast_same (hfiles : SameFiles files files' parse parse') (h : s.Same k s') :
    SameRound k (s.includeLast files parse path) (s'.includeLast files' parse' path) := by
  have hdone := h
  obtain @⟨error, herror⟩ := h
  rw [includeLast_eq, includeLast_eq]
  unfold includeCall
  simp only
  cases (s.nodes.cell s.node).last with
  | none => exact .ok hdone
  | some last =>
      simp only
      by_cases hkey : (s.nodes.cell last).data.key = includeKey
      · simp only [if_pos hkey]
        cases findValueAt s.nodes "href".toList s.nodes.size (s.nodes.cell last).first with
        | none => exact .ok hdone
        | some value =>
            simp only
            by_cases hvalue : value = []
            · simp only [if_pos hvalue]
              exact .ok hdone
            · simp only [if_neg hvalue]
              rcases hfiles (includePath path value) s.nodes s.error error herror with
                ⟨hnone, hnone'⟩ | ⟨file, file', hfile, hfile', hparse⟩
              · rw [hnone, hnone']
                exact .ok hdone
              · rw [hfile, hfile']
                exact resume_same hdone hparse
      · simp only [if_neg hkey]
        exact .ok hdone

theorem step_same (hfiles : SameFiles files files' parse parse') (h : s.Same k s') (ch : Char) :
    SameRound k (s.step fresh files parse path ch) (s'.step fresh files' parse' path ch) := by
  unfold step
  split
  · obtain ⟨herror⟩ := h
    simp only [bufAppend_later]
    exact .ok ⟨herror⟩
  · split
    · obtain ⟨herror⟩ := h
      simp only [bufAppend_later]
      exact .ok ⟨herror⟩
    · have htext := h.setText
      generalize s.setText = s at htext ⊢
      generalize s'.setText = s' at htext ⊢
      obtain @⟨error, herror⟩ := htext
      obtain ⟨hmarkup, hmessage, his⟩ := @scanMarkup_later fresh path k s.is
      simp only
      generalize scanMarkup fresh path (s.is.later k) = r' at hmarkup hmessage his ⊢
      generalize scanMarkup fresh path s.is = r at hmarkup hmessage his ⊢
      obtain ⟨markup', message', is'⟩ := r'
      obtain ⟨markup, message, is⟩ := r
      obtain rfl : markup' = markup := hmarkup
      obtain rfl : is' = is.later k := his
      have hor : (message'.or error).isSome = (message.or s.error).isSome := by
        rw [Option.isSome_or, Option.isSome_or, herror]
        exact congrArg (· || s.error.isSome) hmessage
      cases markup' with
      | skipped => exact .ok ⟨hor⟩
      | fail => exact .null hor
      | tag tag => exact includeLast_same hfiles ⟨hor⟩
      | endTag =>
          simp only
          cases (s.nodes.cell s.node).parent with
          | none => exact .crash
          | some parent => exact includeLast_same hfiles ⟨hor⟩

/-- The loop, with bounds that it does not reach. -/
theorem loop_same (hfiles : SameFiles files files' parse parse') (h : s.Same k s')
    {fuel fuel' : ℕ} (hfuel : s.is.file.length < fuel) (hfuel' : s.is.file.length < fuel') :
    SameRound k (s.loop fresh files parse path fuel)
      (s'.loop fresh files' parse' path fuel') := by
  induction fuel generalizing s s' fuel' with
  | zero => omega
  | succ fuel ih =>
      cases fuel' with
      | zero => omega
      | succ fuel' =>
          obtain @⟨error, herror⟩ := h
          rcases hread : bufRead s.is with ⟨ch, is⟩
          rw [loop, loop]
          simp only [bufRead_later, hread]
          cases ch with
          | none => exact .ok ⟨herror⟩
          | some ch =>
              have hleft := bufRead_some_left hread
              have hstep := @step_same fresh path k files files' parse parse'
                { s with is := is } { s with is := is.later k, error := error } hfiles ⟨herror⟩ ch
              have honward (s₁ : Parser) (h : step fresh files parse path { s with is := is } ch =
                  .ok s₁) : s₁.is.file.length ≤ is.file.length := by
                simpa [charsLeft] using (step_onward h).left
              simp only
              generalize step fresh files parse path { s with is := is } ch = r at hstep honward ⊢
              generalize step fresh files' parse' path
                { s with is := is.later k, error := error } ch = r' at hstep ⊢
              cases hstep with
              | null herror => exact .null herror
              | crash => exact .crash
              | endless => exact .endless
              | @ok s₁ s₁' h =>
                  have hless := honward s₁ rfl
                  exact ih h (by omega) (by omega)

end Parser

end ModCaucho
