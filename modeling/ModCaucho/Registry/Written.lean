import ModCaucho.Registry.Depth
import ModCaucho.Registry.Lines
import ModCaucho.Registry.Tokens

/-!
# Tags as they are written

A name of 1023 characters or more does not reach the tree as it stands in the file: its front
is whatever new memory contains. But where a tag begins and ends, and whether it is closed,
never depends on what is in the buffer. So the tags of a file, with the names as they are
written, can be read off the file alone. A name that fits in the buffer is read as it is
written.
-/

namespace ModCaucho

/-- The name that begins with the next character of a file. -/
def nameWritten (is : Rstream) : Text :=
  cString (tokenAt isTagChar (bufRead is).1 (bufRead is).2.file)

/-- The tag that a round reads, with its name as it is written. -/
def tagWritten (fresh : Fresh) (path : Text) (is : Rstream) (ch : Char) : Option TagRead :=
  if ch = '<' then
    match scanMarkup fresh path is with
    | (.tag tag, _, _) => some (.start (nameWritten is) tag.closed)
    | (.endTag, _, _) => some (.stop (nameWritten (bufRead is).2))
    | _ => none
  else none

/-- The tags from here on, with their names as they are written. -/
def Reader.written (fresh : Fresh) (path : Text) : ℕ → Reader → List TagRead
  | 0, _ => []
  | fuel + 1, r =>
      match bufRead r.is with
      | (none, _) => []
      | (some ch, is) =>
          (tagWritten fresh path ({ r with is := is } : Reader).setText ch).toList ++
            match step fresh path { r with is := is } ch with
            | some r => written fresh path fuel r
            | none => []

/-- The tags that are written in a file, up to markup that cannot be read. -/
def tagsIn (file : Text) : List TagRead :=
  Reader.written (fun _ _ => ' ') [] (file.length + 1) ⟨.start file, true⟩

/-! ## What is in the buffer does not matter -/

/-- Two streams at the same place of a file. -/
structure SamePlace (is is' : Rstream) : Prop where
  file : is'.file = is.file
  empty : is'.buf = [] ↔ is.buf = []

/-- The same character was read, and the streams are at the same place. -/
def SameRead (r r' : Option Char × Rstream) : Prop :=
  ∃ ch is is', r = (ch, is) ∧ r' = (ch, is') ∧ SamePlace is is'

variable {fresh fresh' : Fresh} {path path' : Text} {is is' : Rstream}

theorem bufRead_same (h : SamePlace is is') : SameRead (bufRead is) (bufRead is') := by
  unfold bufRead
  rw [h.file]
  cases is.file with
  | nil => exact ⟨none, is, is', rfl, rfl, h⟩
  | cons ch file => exact ⟨some ch, _, _, rfl, rfl, rfl, h.empty⟩

theorem ungetc_same (h : SamePlace is is') (ch : Option Char) :
    SamePlace (ungetc ch is) (ungetc ch is') :=
  ⟨congrArg (ch.toList ++ ·) h.file, h.empty⟩

theorem emptied_same (h : SamePlace is is') :
    SamePlace { is with buf := [] } { is' with buf := [] } :=
  ⟨h.file, Iff.rfl⟩

theorem bufAppend_same (h : SamePlace is is') (ch : Char) :
    SamePlace (bufAppend fresh is ch) (bufAppend fresh' is' ch) where
  file := by rw [bufAppend_file, bufAppend_file, h.file]
  empty := by simp [bufAppend]

theorem forWhile_same {p : Char → Bool} {f f' : Rstream → Char → Rstream}
    (hf : ∀ is is' ch, SamePlace is is' → SamePlace (f is ch) (f' is' ch)) (fuel : ℕ)
    (ch : Option Char) (h : SamePlace is is') :
    SameRead (forWhile p f fuel ch is) (forWhile p f' fuel ch is') := by
  induction fuel generalizing ch is is' with
  | zero => exact ⟨ch, is, is', by cases ch <;> rfl, by cases ch <;> rfl, h⟩
  | succ fuel ih =>
      cases ch with
      | none => exact ⟨none, is, is', rfl, rfl, h⟩
      | some ch =>
          unfold forWhile
          obtain ⟨next, is₁, is₁', hread, hread', h₁⟩ := bufRead_same (hf is is' ch h)
          simp only [hread, hread']
          split
          · exact ih next h₁
          · exact ⟨some ch, is, is', rfl, rfl, h⟩

theorem skipSpace_same (h : SamePlace is is') (ch : Option Char) :
    SameRead (skipSpace ch is) (skipSpace ch is') := by
  unfold skipSpace
  rw [h.file]
  exact forWhile_same (fun _ _ _ h => h) _ ch h

theorem readToken_same (h : SamePlace is is') (p : Char → Bool) (ch : Option Char) :
    SameRead (readToken fresh p ch is) (readToken fresh' p ch is') := by
  unfold readToken
  rw [congrArg List.length h.file]
  exact forWhile_same (fun _ _ ch h => bufAppend_same h ch) _ ch (emptied_same h)

/-! ## Tags -/

theorem scanAttribute_same (h : SamePlace is is') (ch : Option Char) :
    (scanAttribute fresh' path' ch is').2.1.quiet = (scanAttribute fresh path ch is).2.1.quiet ∧
      SamePlace (scanAttribute fresh path ch is).2.2 (scanAttribute fresh' path' ch is').2.2 := by
  unfold scanAttribute
  obtain ⟨ch₁, is₁, is₁', hskip, hskip', h₁⟩ := skipSpace_same h ch
  obtain ⟨ch₂, is₂, is₂', hname, hname', h₂⟩ :=
    @readToken_same fresh fresh' _ _ h₁
      (fun ch => !isSpace ch && ch != '=' && ch != '/' && ch != '>') ch₁
  obtain ⟨ch₃, is₃, is₃', hgap, hgap', h₃⟩ := skipSpace_same h₂ ch₂
  simp only [hskip, hskip', hname, hname', hgap, hgap', h₂.empty]
  split
  · exact ⟨rfl, ungetc_same h₂ ch₂⟩
  · split
    · exact ⟨rfl, ungetc_same h₃ ch₃⟩
    · obtain ⟨ch₄, is₄, is₄', hread, hread', h₄⟩ := bufRead_same h₃
      obtain ⟨ch₅, is₅, is₅', hgap, hgap', h₅⟩ := skipSpace_same h₄ ch₄
      simp only [hread, hread', hgap, hgap']
      split
      · exact ⟨rfl, h₅⟩
      · split
        · obtain ⟨ch₆, is₆, is₆', hread, hread', h₆⟩ := bufRead_same h₅
          obtain ⟨ch₇, is₇, is₇', hvalue, hvalue', h₇⟩ :=
            @readToken_same fresh fresh' _ _ h₆ (fun ch => some ch != ch₅) ch₆
          simp only [hread, hread', hvalue, hvalue']
          split
          · exact ⟨rfl, h₇⟩
          · exact ⟨rfl, h₇⟩
        · obtain ⟨ch₆, is₆, is₆', hvalue, hvalue', h₆⟩ :=
            @readToken_same fresh fresh' _ _ h₅
              (fun ch => !isSpace ch && ch != '/' && ch != '>') ch₅
          simp only [hvalue, hvalue', true_and]
          exact h₆

theorem scanAttributes_same (h : SamePlace is is') (fuel : ℕ) (ch : Option Char) :
    (scanAttributes fresh' path' fuel ch is').2.1 = (scanAttributes fresh path fuel ch is).2.1 ∧
      SamePlace (scanAttributes fresh path fuel ch is).2.2
        (scanAttributes fresh' path' fuel ch is').2.2 := by
  induction fuel generalizing ch is is' with
  | zero => exact ⟨rfl, h⟩
  | succ fuel ih =>
      obtain ⟨hstop, h₁⟩ := @scanAttribute_same fresh fresh' path path' _ _ h ch
      rw [scanAttributes, scanAttributes]
      generalize scanAttribute fresh' path' ch is' = r' at hstop h₁ ⊢
      generalize scanAttribute fresh path ch is = r at hstop h₁ ⊢
      obtain ⟨attr', stop', is₁'⟩ := r'
      obtain ⟨attr, stop, is₁⟩ := r
      cases stop with
      | fail error =>
          cases stop' with
          | fail error' => exact ⟨rfl, h₁⟩
          | done => cases hstop
          | more ch' => cases hstop
      | done =>
          cases stop' with
          | fail error' => cases hstop
          | done => exact ⟨rfl, h₁⟩
          | more ch' => cases hstop
      | more ch =>
          cases stop' with
          | fail error' => cases hstop
          | done => cases hstop
          | more ch' =>
              cases hstop
              exact ih h₁ (some ch)

theorem scanTag_same (h : SamePlace is is') (ch : Option Char) :
    (scanTag fresh' path' ch is').1.toOption.map Tag.closed =
        (scanTag fresh path ch is).1.toOption.map Tag.closed ∧
      SamePlace (scanTag fresh path ch is).2 (scanTag fresh' path' ch is').2 := by
  unfold scanTag
  obtain ⟨ch₁, is₁, is₁', hname, hname', h₁⟩ := @readToken_same fresh fresh' _ _ h isTagChar ch
  simp only [hname, hname', h₁.empty]
  split
  · exact ⟨rfl, h₁⟩
  · obtain ⟨hfailed, h₂⟩ :=
      @scanAttributes_same fresh fresh' path path' _ _ h₁ (is₁.file.length + 1) ch₁
    obtain ⟨ch₃, is₃, is₃', hread, hread', h₃⟩ := bufRead_same h₂
    obtain ⟨ch₄, is₄, is₄', hgap, hgap', h₄⟩ := skipSpace_same h₃ ch₃
    obtain ⟨ch₅, is₅, is₅', hend, hend', h₅⟩ := bufRead_same h₄
    simp only [h₁.file, hfailed, hread, hread', hgap, hgap', hend, hend']
    split
    · exact ⟨rfl, h₂⟩
    · split
      · exact ⟨rfl, h₄⟩
      · split
        · exact ⟨rfl, h₄⟩
        · split
          · exact ⟨rfl, h₅⟩
          · exact ⟨rfl, h₅⟩

theorem scanEndTag_same (h : SamePlace is is') :
    (scanEndTag fresh' path' is').1.toOption = (scanEndTag fresh path is).1.toOption ∧
      SamePlace (scanEndTag fresh path is).2 (scanEndTag fresh' path' is').2 := by
  unfold scanEndTag
  obtain ⟨ch₁, is₁, is₁', hread, hread', h₁⟩ := bufRead_same h
  obtain ⟨ch₂, is₂, is₂', hname, hname', h₂⟩ := @readToken_same fresh fresh' _ _ h₁ isTagChar ch₁
  obtain ⟨ch₃, is₃, is₃', hgap, hgap', h₃⟩ := skipSpace_same h₂ ch₂
  simp only [hread, hread', hname, hname', hgap, hgap', h₂.empty]
  split
  · exact ⟨rfl, h₂⟩
  · split
    · exact ⟨rfl, h₃⟩
    · exact ⟨rfl, h₃⟩

/-! ## What is skipped -/

theorem skipUntil_same {σ : Type} (step : σ → Char → Option σ) (file : Text) (s : σ)
    (h : SamePlace is is') :
    SamePlace (skipUntil step file s is).2 (skipUntil step file s is').2 := by
  induction file generalizing s is is' with
  | nil => exact h
  | cons ch file ih =>
      obtain ⟨ch₁, is₁, is₁', hread, hread', h₁⟩ := bufRead_same h
      simp only [skipUntil, hread, hread']
      cases step s ch with
      | none => exact h₁
      | some s' => exact ih s' h₁

theorem skip_same {σ : Type} (step : σ → Char → Option σ) (s : σ) (what : String)
    (h : SamePlace is is') :
    SamePlace (skip step s what path is).2 (skip step s what path' is').2 := by
  unfold skip
  rw [h.file]
  exact skipUntil_same step is.file s h

theorem scanDeclaration_same (h : SamePlace is is') :
    (scanDeclaration path is).1 = .skipped ∧ (scanDeclaration path' is').1 = .skipped ∧
      SamePlace (scanDeclaration path is).2.2 (scanDeclaration path' is').2.2 := by
  unfold scanDeclaration
  obtain ⟨ch₁, is₁, is₁', hread, hread', h₁⟩ := bufRead_same h
  obtain ⟨ch₂, is₂, is₂', hdash, hdash', h₂⟩ := bufRead_same h₁
  simp only [hread, hread', hdash, hdash']
  split
  · exact ⟨rfl, rfl, @skip_same path path' _ _ _ doctypeStep none "doctype" h₁⟩
  · exact ⟨rfl, rfl, @skip_same path path' _ _ _ commentStep 0 "comment" h₂⟩

/-! ## Markup -/

/-- Markup without the names and the attributes. -/
def Markup.bare : Markup → Markup
  | .tag t => .tag ⟨[], [], t.closed⟩
  | markup => markup

/-- The same markup was read but for names and attributes, and the streams are at the same
place. -/
structure AlikeMarkup (r r' : Markup × Option Text × Rstream) : Prop where
  bare : r'.1.bare = r.1.bare
  place : SamePlace r.2.2 r'.2.2

theorem markupOf_same {α β : Type} {found : α → Markup} {f : α → β} {g : β → Markup}
    (hfound : ∀ a, (found a).bare = g (f a)) {result result' : Except Text α × Rstream}
    (hresult : result'.1.toOption.map f = result.1.toOption.map f)
    (h : SamePlace result.2 result'.2) :
    AlikeMarkup (markupOf found result) (markupOf found result') := by
  obtain ⟨result, is⟩ := result
  obtain ⟨result', is'⟩ := result'
  cases result with
  | error error =>
      cases result' with
      | error error' => exact ⟨rfl, h⟩
      | ok a => cases hresult
  | ok a =>
      cases result' with
      | error error' => cases hresult
      | ok a' =>
          have hf : f a' = f a := Option.some_inj.mp hresult
          refine ⟨?_, h⟩
          simp only [markupOf, hfound, hf]

theorem scanMarkup_same (h : SamePlace is is') :
    AlikeMarkup (scanMarkup fresh path is) (scanMarkup fresh' path' is') := by
  rw [scanMarkup_eq, scanMarkup_eq]
  obtain ⟨ch, is₁, is₁', hread, hread', h₁⟩ := bufRead_same h
  simp only [hread, hread']
  split
  · obtain ⟨hmarkup, hmarkup', h₂⟩ := @scanDeclaration_same path path' _ _ h₁
    exact ⟨by rw [hmarkup, hmarkup'], h₂⟩
  · split
    · exact ⟨rfl, skip_same piStep false "pi" h₁⟩
    · split
      · obtain ⟨hresult, h₂⟩ := @scanEndTag_same fresh fresh' path path' _ _ h₁
        exact markupOf_same (f := id) (g := fun _ => .endTag) (fun _ => rfl)
          (congrArg (Option.map id) hresult) h₂
      · obtain ⟨hclosed, h₂⟩ := @scanTag_same fresh fresh' path path' _ _ h₁ ch
        exact markupOf_same (g := fun closed => .tag ⟨[], [], closed⟩) (fun _ => rfl) hclosed h₂

theorem nameWritten_same (h : SamePlace is is') : nameWritten is' = nameWritten is := by
  obtain ⟨ch, is₁, is₁', hread, hread', h₁⟩ := bufRead_same h
  simp only [nameWritten, hread, hread', h₁.file]

/-- The name of a tag, as it is written, does not depend on the buffer either. -/
theorem tagWritten_same (h : SamePlace is is') (ch : Char) :
    tagWritten fresh' path' is' ch = tagWritten fresh path is ch := by
  have hname := nameWritten_same h
  have hend : nameWritten (bufRead is').2 = nameWritten (bufRead is).2 := by
    obtain ⟨ch, is₁, is₁', hread, hread', h₁⟩ := bufRead_same h
    rw [hread, hread']
    exact nameWritten_same h₁
  obtain ⟨hbare, -⟩ := @scanMarkup_same fresh fresh' path path' _ _ h
  rw [tagWritten, tagWritten, hname, hend]
  generalize scanMarkup fresh' path' is' = r' at hbare ⊢
  generalize scanMarkup fresh path is = r at hbare ⊢
  obtain ⟨markup', error', is₁'⟩ := r'
  obtain ⟨markup, error, is₁⟩ := r
  cases markup <;> cases markup' <;> simp only [Markup.bare, reduceCtorEq] at hbare
  · rfl
  · simp only [Markup.tag.injEq, Tag.mk.injEq, true_and] at hbare
    simp only [hbare]
  · rfl
  · rfl

/-- A tag opens or closes an element, whatever its name is read as. -/
theorem depth_tagRead (fresh : Fresh) (path : Text) (is : Rstream) (ch : Char) :
    (tagRead fresh path is ch).map TagRead.depth =
      (tagWritten fresh path is ch).map TagRead.depth := by
  unfold tagRead tagWritten
  rcases scanMarkup fresh path is with ⟨markup, error, is₁⟩
  cases markup <;> split <;> rfl

/-! ## Names that fit in the buffer -/

/-- The name that begins with the next character of a file fits in the buffer. -/
structure NameFits (is : Rstream) : Prop where
  capacity : 1024 ≤ is.capacity
  length : (tokenAt isTagChar (bufRead is).1 (bufRead is).2.file).length + 2 ≤ is.capacity

theorem bufRead_capacity (is : Rstream) : (bufRead is).2.capacity = is.capacity := by
  unfold bufRead
  split <;> rfl

/-- A name that fits is in the buffer as it is written. -/
theorem NameFits.read (h : NameFits is) :
    cString (readToken fresh isTagChar (bufRead is).1 (bufRead is).2).2.buf = nameWritten is := by
  obtain ⟨hcapacity, hlength⟩ := h
  rw [← bufRead_capacity is] at hcapacity hlength
  rw [readToken_buf, (appendAll_eq_iff hcapacity _).mpr hlength, nameWritten]

theorem skipSpace_buf (ch : Option Char) (is : Rstream) : (skipSpace ch is).2.buf = is.buf := by
  have hloop (fuel : ℕ) :
      (forWhile isSpace (fun is _ => is) fuel ch is).2.buf = is.buf := by
    induction fuel generalizing ch is with
    | zero => cases ch <;> rfl
    | succ fuel ih =>
        cases ch with
        | none => rfl
        | some ch =>
            unfold forWhile
            split
            · rw [ih]
              unfold bufRead
              split <;> rfl
            · rfl
  exact hloop _

/-- The name of a start tag is the token that was read for it. -/
theorem scanTag_name {ch : Option Char} {tag : Tag} {is' : Rstream}
    (h : scanTag fresh path ch is = (.ok tag, is')) :
    tag.name = cString (readToken fresh isTagChar ch is).2.buf := by
  unfold scanTag at h
  simp only at h
  split at h
  · cases h
  · split at h
    · cases h
    · split at h
      · cases h
        rfl
      · split at h
        · cases h
        · split at h
          · cases h
            rfl
          · cases h

/-- What is in the buffer behind an end tag is the token that was read for it. -/
theorem scanEndTag_buf {is' : Rstream} (h : scanEndTag fresh path is = (.ok (), is')) :
    is'.buf = (readToken fresh isTagChar (bufRead is).1 (bufRead is).2).2.buf := by
  unfold scanEndTag at h
  simp only at h
  split at h
  · cases h
  · split at h
    · cases h
    · cases h
      exact skipSpace_buf _ _

/-- A tag with a name that fits is read as it is written. -/
theorem tagRead_eq_tagWritten (hstart : NameFits is) (hstop : NameFits (bufRead is).2)
    (ch : Char) : tagRead fresh path is ch = tagWritten fresh path is ch := by
  rw [tagRead, tagWritten, scanMarkup_eq]
  by_cases hopen : ch = '<'
  · rw [if_pos hopen, if_pos hopen]
    by_cases hbang : (bufRead is).1 = some '!'
    · rw [if_pos hbang, scanDeclaration]
      by_cases hdoctype : (bufRead (bufRead is).2).1 = some 'D'
      · simp only [if_pos hdoctype]
      · simp only [if_neg hdoctype]
    rw [if_neg hbang]
    by_cases hquestion : (bufRead is).1 = some '?'
    · rw [if_pos hquestion]
    rw [if_neg hquestion]
    by_cases hslash : (bufRead is).1 = some '/'
    · rw [if_pos hslash]
      rcases hscan : scanEndTag fresh path (bufRead is).2 with ⟨_ | _, is'⟩
      · rfl
      · simp only [markupOf, scanEndTag_buf hscan, hstop.read]
    · rw [if_neg hslash]
      rcases hscan : scanTag fresh path (bufRead is).1 (bufRead is).2 with ⟨_ | tag, is'⟩
      · rfl
      · simp only [markupOf, scanTag_name hscan, hstart.read]
  · rw [if_neg hopen, if_neg hopen]

/-! ## A whole file -/

namespace Reader

/-- Two readers at the same place of a file. -/
structure Same (r r' : Reader) : Prop where
  place : SamePlace r.is r'.is
  spaceOnly : r'.spaceOnly = r.spaceOnly

variable {r r' : Reader}

theorem Same.setText (h : r.Same r') : SamePlace r.setText r'.setText := by
  unfold Reader.setText
  rw [h.spaceOnly]
  split
  · exact emptied_same h.place
  · exact h.place

theorem Same.step (h : r.Same r') (ch : Char) :
    Option.Rel Same (r.step fresh path ch) (r'.step fresh' path' ch) := by
  unfold Reader.step
  split
  · exact .some ⟨bufAppend_same h.place ch, h.spaceOnly⟩
  · split
    · exact .some ⟨bufAppend_same h.place ch, rfl⟩
    · obtain ⟨hbare, hplace⟩ := @scanMarkup_same fresh fresh' path path' _ _ h.setText
      generalize scanMarkup fresh' path' r'.setText = m' at hbare hplace ⊢
      generalize scanMarkup fresh path r.setText = m at hbare hplace ⊢
      obtain ⟨markup', error', is₁'⟩ := m'
      obtain ⟨markup, error, is₁⟩ := m
      cases markup <;> cases markup' <;> simp only [Markup.bare, reduceCtorEq] at hbare
      · exact .some ⟨hplace, h.spaceOnly⟩
      · exact .some ⟨hplace, h.spaceOnly⟩
      · exact .some ⟨hplace, h.spaceOnly⟩
      · exact .none

theorem written_same (h : r.Same r') (fuel : ℕ) :
    r'.written fresh' path' fuel = r.written fresh path fuel := by
  induction fuel generalizing r r' with
  | zero => rfl
  | succ fuel ih =>
      obtain ⟨ch, is, is', hread, hread', hplace⟩ := bufRead_same h.place
      rw [written, written, hread, hread']
      cases ch with
      | none => rfl
      | some ch =>
          have hsame : Same { r with is := is } { r' with is := is' } := ⟨hplace, h.spaceOnly⟩
          have htag := @tagWritten_same fresh fresh' path path' _ _ hsame.setText ch
          have hstep := @Same.step fresh fresh' path path' _ _ hsame ch
          simp only [htag]
          generalize Reader.step fresh' path' { r' with is := is' } ch = s' at hstep ⊢
          generalize Reader.step fresh path { r with is := is } ch = s at hstep ⊢
          cases hstep with
          | none => rfl
          | some hs => exact congrArg _ (ih hs)

theorem depth_tags (fresh : Fresh) (path : Text) (fuel : ℕ) (r : Reader) :
    (r.tags fresh path fuel).map TagRead.depth = (r.written fresh path fuel).map TagRead.depth := by
  induction fuel generalizing r with
  | zero => rfl
  | succ fuel ih =>
      rw [tags, written]
      rcases bufRead r.is with ⟨ch, is⟩
      cases ch with
      | none => rfl
      | some ch =>
          have hdepth := depth_tagRead fresh path ({ r with is := is } : Reader).setText ch
          simp only [List.map_append, ← Option.toList_map, hdepth]
          cases Reader.step fresh path { r with is := is } ch with
          | none => rfl
          | some r₁ => exact congrArg _ (ih r₁)

end Reader

/-- The tags of a file are the ones that are read in it, whatever is in new memory. -/
theorem written_start (fresh : Fresh) (path file : Text) :
    Reader.written fresh path (file.length + 1) ⟨.start file, true⟩ = tagsIn file :=
  Reader.written_same ⟨⟨rfl, Iff.rfl⟩, rfl⟩ _

theorem depth_tagsOf (fresh : Fresh) (path file : Text) :
    (tagsOf fresh path file).map TagRead.depth = (tagsIn file).map TagRead.depth := by
  rw [tagsOf, Reader.depth_tags, written_start]

end ModCaucho
