import ModCaucho.Registry.Progress
import ModCaucho.Registry.Refine

/-!
# Nesting of tags

The start tags and the end tags that `cse_parse` reads, round by round, and what they do to
the open elements. `parse_end_tag` reads a name and goes up without a look at it, and nothing
looks at the open elements at the end of the file.
-/

namespace ModCaucho

open LinkedForest

/-- A tag, with the name that was read. -/
inductive TagRead
  | start (name : Text) (closed : Bool)
  | stop (name : Text)
deriving DecidableEq, Repr

/-- The tag that a round reads, when the text in front of it is dealt with. -/
def tagRead (fresh : Fresh) (path : Text) (is : Rstream) (ch : Char) : Option TagRead :=
  if ch = '<' then
    match scanMarkup fresh path is with
    | (.tag tag, _, _) => some (.start tag.name tag.closed)
    | (.endTag, _, is) => some (.stop (cString is.buf))
    | _ => none
  else none

/-! ## One round -/

namespace Builder

/-- The names of the open elements, the innermost first. -/
def openNames (b : Builder) : List Text := (b.frames.map fun fr => fr.data.key).dropLast

/-- An element that would include something. -/
def includesAny (_ : Bool) (entry : Entry) (first : Registry) : Bool :=
  entry.key = includeKey ∧ first ≠ .nil

/-- No element includes anything, and none that is open could. -/
def Includeless (b : Builder) : Prop := b.count includesAny = 0 ∧ includeKey ∉ b.openNames

variable {fresh : Fresh} {path : Text} {b b' : Builder} {ch : Char}

theorem openNames_eq (h : b'.cur.data.key = b.cur.data.key) (houter : b'.outer = b.outer) :
    b'.openNames = b.openNames := by
  simp only [openNames, frames, List.map_cons, h, houter]

theorem openNames_cons {up : Frame Entry} {ups : List (Frame Entry)} (h : b.outer = up :: ups) :
    b.openNames = b.cur.data.key :: openNames { b with cur := up, outer := ups } := by
  simp only [openNames, frames, h, List.map_cons, List.dropLast_cons_cons]

/-- What a round reads is what it does. -/
theorem step_tagRead (h : b.step fresh path ch = some b') :
    (tagRead fresh path b.setText.is ch = none ∧ b'.openNames = b.openNames ∧
      ∀ P, b'.count P = b.count P) ∨
    (∃ tag is, tagRead fresh path b.setText.is ch = some (.start tag.name tag.closed) ∧
      b' = addTag { b.setText with is := is } tag) ∨
    ∃ is, tagRead fresh path b.setText.is ch = some (.stop (cString is.buf)) ∧
      close { b.setText with is := is } = some b' := by
  unfold step at h
  split at h
  · next hspace =>
      have hne : ch ≠ '<' := by
        rintro rfl
        revert hspace
        decide
      cases h
      exact Or.inl ⟨if_neg hne, rfl, fun _ => rfl⟩
  · split at h
    · next hne =>
        cases h
        exact Or.inl ⟨if_neg hne, rfl, fun _ => rfl⟩
    · next hopen =>
        obtain ⟨houter, -, -, hkey⟩ := b.setText_frames
        rw [tagRead, if_pos (not_not.mp hopen)]
        rcases hscan : scanMarkup fresh path b.setText.is with ⟨markup, error, is⟩
        simp only [hscan] at h ⊢
        cases markup with
        | skipped =>
            cases h
            exact Or.inl ⟨rfl, openNames_eq hkey houter, fun P => setText_count P b⟩
        | tag tag =>
            cases h
            exact Or.inr (Or.inl ⟨tag, is, rfl, rfl⟩)
        | endTag => exact Or.inr (Or.inr ⟨is, rfl, h⟩)
        | fail => cases h

/-- The open elements behind a start tag. -/
theorem openNames_addTag (b : Builder) (is : Rstream) (tag : Tag) :
    (addTag { b.setText with is := is } tag).openNames =
      if tag.closed then b.openNames else tag.name :: b.openNames := by
  obtain ⟨houter, -, -, hkey⟩ := b.setText_frames
  unfold addTag
  split
  · exact openNames_eq hkey houter
  · rw [openNames_cons rfl, (tagFrame_spec tag).2.1]
    exact congrArg _ (openNames_eq hkey houter)

/-- The open elements behind an end tag. -/
theorem openNames_close {is : Rstream} (h : close { b.setText with is := is } = some b') :
    b.openNames = b.cur.data.key :: b'.openNames := by
  obtain ⟨houter, -, -, -⟩ := b.setText_frames
  obtain ⟨up, hup, hcloses⟩ := closes_close h
  have hkey : b'.cur.data.key = up.data.key := by
    rw [hcloses.cur_eq]
    rfl
  have hnames : b'.openNames = openNames { b with cur := up, outer := b'.outer } :=
    openNames_eq hkey rfl
  rw [openNames_cons (houter.symm.trans hup), hnames]

/-- A round that reads no element to include leaves none. -/
theorem includeless_step (hb : b.Plain) (hless : b.Includeless)
    (h : b.step fresh path ch = some b')
    (htag : ∀ closed, tagRead fresh path b.setText.is ch ≠ some (.start includeKey closed)) :
    b'.Includeless := by
  obtain ⟨hcount, hnames⟩ := hless
  have hclosed {fr up : Frame Entry} (hc : Closes b b' fr up) (hkey : fr.data.key ≠ includeKey) :
      b'.count includesAny = 0 := by
    rw [hc.count_closed (hc.plain hb).1 includesAny (c := decide (up.kids = .nil)) (by simp),
      hc.count_eq includesAny (by simp [includesAny]), hcount]
    simp [includesAny, hkey]
  rcases step_tagRead h with ⟨-, hopen, hsame⟩ | ⟨tag, is, hread, rfl⟩ | ⟨is, hread, hclose⟩
  · exact ⟨(hsame _).trans hcount, hopen ▸ hnames⟩
  · have hname : tag.name ≠ includeKey := fun heq => htag tag.closed (heq ▸ hread)
    refine ⟨?_, ?_⟩
    · by_cases hend : tag.closed
      · refine hclosed (closes_addTag b is hend) ?_
        rwa [(tagFrame_spec tag).2.1]
      · rw [addTag, if_neg hend]
        have hkids := (tagFrame_spec tag).2.2 includesAny (by simp [includesAny])
        have htext := setText_count includesAny b
        simp only [count, frames, Frame.count_cons] at htext hcount ⊢
        omega
    · rw [openNames_addTag]
      split
      · exact hnames
      · simp [hnames, Ne.symm hname]
  · have hopen := openNames_close hclose
    rw [hopen, List.mem_cons, not_or] at hnames
    obtain ⟨up, -, hcloses⟩ := closes_close hclose
    refine ⟨hclosed hcloses ?_, hnames.2⟩
    rw [b.setText_frames.2.2.2]
    exact Ne.symm hnames.1

/-- Nothing is included at the cursor. -/
theorem Includeless.inert (hless : b.Includeless) (files : Files) (path : Text) :
    Inert files path b.cur.kids := by
  intro entry first value hlast hhref
  have hkids : b.cur.kids.count includesAny true = 0 := by
    have hcount := hless.1
    simp only [count, frames, Frame.count_cons] at hcount
    omega
  obtain ⟨_, hany⟩ := Forest.lastNode_of_count_eq_zero hkids hlast
  rw [includeHref] at hhref
  split at hhref
  · next hkey =>
      have hnil : first = .nil := by simpa [includesAny, hkey] using hany
      rw [hnil] at hhref
      cases hhref
  · cases hhref

end Builder

end ModCaucho
