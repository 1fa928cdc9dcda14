import Mathlib.Algebra.Order.Ring.Int
import ModCaucho.Registry.Nesting

/-!
# End tags at the root

`parse_end_tag` goes up to the parent of the current node without a check, and the root has
none. The tags that stand in a file can be read without the tree that is made of them, and
`cse_parse` follows NULL exactly if they contain an end tag when no element is open.
-/

namespace ModCaucho

open LinkedForest

/-- The variables of the loop of `cse_parse` that the markup is read with. -/
structure Reader where
  is : Rstream
  spaceOnly : Bool

namespace Reader

section

variable (fresh : Fresh) (path : Text)

/-- The buffer when the loop comes to a `<`. -/
def setText (r : Reader) : Rstream := if r.spaceOnly then { r.is with buf := [] } else r.is

/-- One round of the loop, with nothing behind markup that cannot be read. -/
def step (r : Reader) (ch : Char) : Option Reader :=
  if ch = ' ' ∨ ch = '\t' ∨ ch = '\n' ∨ ch = '\x0c' then
    some { r with is := bufAppend fresh r.is ch }
  else if ch ≠ '<' then some ⟨bufAppend fresh r.is ch, false⟩
  else
    match scanMarkup fresh path r.setText with
    | (.fail, _, _) => none
    | (_, _, is) => some { r with is := is }

/-- The tags from here on. -/
def tags : ℕ → Reader → List TagRead
  | 0, _ => []
  | fuel + 1, r =>
      match bufRead r.is with
      | (none, _) => []
      | (some ch, is) =>
          (tagRead fresh path ({ r with is := is } : Reader).setText ch).toList ++
            match step fresh path { r with is := is } ch with
            | some r => tags fuel r
            | none => []

end

end Reader

/-- The tags that stand in a file, up to markup that cannot be read. -/
def tagsOf (fresh : Fresh) (path file : Text) : List TagRead :=
  Reader.tags fresh path (file.length + 1) ⟨.start file, true⟩

/-- By how much a tag changes the number of open elements. -/
def TagRead.depth : TagRead → ℤ
  | .start _ closed => if closed then 0 else 1
  | .stop _ => -1

/-- With so many elements open, no end tag comes when there is none left. -/
def NeverBelow (depth : ℤ) (tags : List TagRead) : Prop :=
  ∀ front, front <+: tags → 0 ≤ depth + (front.map TagRead.depth).sum

/-- No file is included: there is none, or no element asks for one. -/
def IncludesNothing (files : Files) (tags : List TagRead) : Prop :=
  (∀ path, files path = none) ∨ ∀ closed, .start includeKey closed ∉ tags

/-- The parser returns a registry or 0. -/
def Finishes {α : Type} (result : Except Stop α) : Prop :=
  (∃ r, result = .ok r) ∨ ∃ error, result = .error (.null error)

/-! ## Tags -/

theorem neverBelow_nil {depth : ℤ} (h : 0 ≤ depth) : NeverBelow depth [] := by
  intro front hfront
  rw [List.prefix_nil.mp hfront]
  simpa using h

theorem neverBelow_cons {depth : ℤ} (h : 0 ≤ depth) (tag : TagRead) (tags : List TagRead) :
    NeverBelow depth (tag :: tags) ↔ NeverBelow (depth + tag.depth) tags := by
  constructor
  · intro hall front hfront
    have hcons := hall (tag :: front) (List.cons_prefix_cons.mpr ⟨rfl, hfront⟩)
    rwa [List.map_cons, List.sum_cons, ← Int.add_assoc] at hcons
  · intro hall front hfront
    rcases List.prefix_cons_iff.mp hfront with rfl | ⟨front', rfl, hfront'⟩
    · simpa using h
    · rw [List.map_cons, List.sum_cons, ← Int.add_assoc]
      exact hall front' hfront'

theorem not_neverBelow_neg {depth : ℤ} (h : depth < 0) (tags : List TagRead) :
    ¬ NeverBelow depth tags := by
  intro hall
  have hnil := hall [] List.nil_prefix
  simp only [List.map_nil, List.sum_nil] at hnil
  omega

/-! ## One round -/

theorem tagRead_of_fail {fresh : Fresh} {path : Text} {is : Rstream}
    (h : (scanMarkup fresh path is).1 = .fail) : tagRead fresh path is '<' = none := by
  rcases hscan : scanMarkup fresh path is with ⟨markup, error, is'⟩
  rw [hscan] at h
  cases h
  simp [tagRead, hscan]

theorem tagRead_of_endTag {fresh : Fresh} {path : Text} {is : Rstream}
    (h : (scanMarkup fresh path is).1 = .endTag) :
    ∃ name, tagRead fresh path is '<' = some (.stop name) := by
  rcases hscan : scanMarkup fresh path is with ⟨markup, error, is'⟩
  rw [hscan] at h
  cases h
  exact ⟨cString is'.buf, by simp [tagRead, hscan]⟩

namespace Builder

variable {fresh : Fresh} {path : Text} {b b' : Builder} {ch : Char}

/-- What the builder reads with. -/
def reader (b : Builder) : Reader := ⟨b.is, b.spaceOnly⟩

theorem reader_setText (b : Builder) : b.reader.setText = b.setText.is := by
  unfold Reader.setText setText reader
  split
  · rfl
  · split <;> rfl

theorem setText_spaceOnly (b : Builder) : b.setText.spaceOnly = b.spaceOnly := by
  unfold setText
  split
  · rfl
  · split <;> rfl

/-- Reading does not depend on the tree. -/
theorem reader_step (h : b.step fresh path ch = some b') :
    b.reader.step fresh path ch = some b'.reader := by
  unfold step at h
  unfold Reader.step
  split at h
  · next hspace =>
      cases h
      exact if_pos hspace
  · next hspace =>
      rw [if_neg hspace]
      split at h
      · next hopen =>
          cases h
          exact if_pos hopen
      · next hopen =>
          have honly := b.setText_spaceOnly
          rw [if_neg hopen, reader_setText]
          rcases hscan : scanMarkup fresh path b.setText.is with ⟨markup, error, is⟩
          simp only [hscan] at h ⊢
          cases markup with
          | skipped =>
              cases h
              simp [reader, honly]
          | tag tag =>
              cases h
              by_cases hclosed : tag.closed <;> simp [reader, addTag, hclosed, honly]
          | endTag =>
              unfold close at h
              cases houter : b.setText.outer with
              | nil =>
                  rw [houter] at h
                  cases h
              | cons up ups =>
                  rw [houter] at h
                  cases h
                  simp [reader, honly]
          | fail => cases h

theorem reader_step_of_fail (h : (scanMarkup fresh path b.setText.is).1 = .fail) :
    b.reader.step fresh path '<' = none := by
  unfold Reader.step
  rw [if_neg (by decide), if_neg (by decide), reader_setText]
  rcases hscan : scanMarkup fresh path b.setText.is with ⟨markup, error, is⟩
  rw [hscan] at h
  cases h
  rfl

theorem length_openNames (b : Builder) : b.openNames.length = b.outer.length := by
  simp [openNames, frames]

/-- A round opens and closes as many elements as the tag says that it reads. -/
theorem length_outer_step (h : b.step fresh path ch = some b') :
    (b'.outer.length : ℤ) = b.outer.length +
      ((tagRead fresh path b.setText.is ch).toList.map TagRead.depth).sum := by
  rw [← length_openNames, ← length_openNames]
  rcases step_tagRead h with ⟨hread, hnames, -⟩ | ⟨tag, is, hread, rfl⟩ | ⟨is, hread, hclose⟩
  · simp [hread, hnames]
  · rw [hread, openNames_addTag]
    by_cases hclosed : tag.closed <;> simp [hclosed, TagRead.depth]
  · rw [hread, openNames_close hclose]
    simp only [List.length_cons, Option.toList_some, List.map_cons, List.map_nil, List.sum_cons,
      List.sum_nil, TagRead.depth]
    omega

end Builder

namespace Parser

variable {fresh : Fresh} {files : Files} {path : Text} {s s' : Parser} {ch : Char}
  {parse : Text → Text → Nodes → Option Text → Except Stop Parsed}

/-- What the parser reads with. -/
def reader (s : Parser) : Reader := ⟨s.is, s.spaceOnly⟩

theorem reader_setText (s : Parser) :
    s.reader.setText = s.setText.is ∧ s.setText.spaceOnly = s.spaceOnly := by
  unfold Reader.setText setText reader
  split
  · exact ⟨rfl, rfl⟩
  · split <;> exact ⟨rfl, rfl⟩

theorem reader_includeLast (h : s.includeLast files parse path = .ok s') :
    s'.reader = s.reader := by
  unfold includeLast at h
  split at h
  · cases h
    rfl
  · next last _ =>
      split at h
      · cases hinclude : parseInclude files parse path s.nodes last s.error with
        | error stop =>
            rw [hinclude] at h
            cases h
        | ok result =>
            rw [hinclude] at h
            cases h
            rfl
      · cases h
        rfl

/-- Reading does not depend on the tree, and not on what other files contain. -/
theorem reader_step (h : s.step fresh files parse path ch = .ok s') :
    s.reader.step fresh path ch = some s'.reader := by
  unfold step at h
  unfold Reader.step
  split at h
  · next hspace =>
      cases h
      exact if_pos hspace
  · next hspace =>
      rw [if_neg hspace]
      split at h
      · next hopen =>
          cases h
          exact if_pos hopen
      · next hopen =>
          obtain ⟨htext, honly⟩ := s.reader_setText
          rw [if_neg hopen, htext]
          rcases hscan : scanMarkup fresh path s.setText.is with ⟨markup, error, is⟩
          simp only [hscan] at h ⊢
          cases markup with
          | skipped =>
              cases h
              simp [reader, honly]
          | tag tag =>
              rw [reader_includeLast h]
              simp [reader, honly]
          | endTag =>
              simp only at h
              split at h
              · cases h
              · rw [reader_includeLast h]
                simp [reader, honly]
          | fail => cases h

end Parser

theorem Reader.step_left {fresh : Fresh} {path : Text} {r r' : Reader} {ch : Char}
    (h : r.step fresh path ch = some r') : r'.is.file.length ≤ r.is.file.length := by
  unfold step at h
  split at h
  · cases h
    exact Nat.le_of_eq (congrArg List.length (bufAppend_file r.is ch))
  · split at h
    · cases h
      exact Nat.le_of_eq (congrArg List.length (bufAppend_file r.is ch))
    · have honward := @scanMarkup_onward fresh path r.setText
      have hfile : r.setText.file = r.is.file := by
        unfold setText
        split <;> rfl
      split at h
      · cases h
      · next hscan =>
          cases h
          rw [hscan] at honward
          have hleft := honward.left
          simp only [charsLeft, hfile] at hleft
          exact Nat.le_of_add_le_add_left hleft

/-! ## A whole file -/

section

variable {fresh : Fresh} {files : Files} {path : Text}
  {parse : Text → Text → Nodes → Option Text → Except Stop Parsed}

theorem neverBelow_append {depth : ℤ} (h : 0 ≤ depth) (read : Option TagRead)
    (tags : List TagRead) :
    NeverBelow depth (read.toList ++ tags) ↔
      NeverBelow (depth + (read.toList.map TagRead.depth).sum) tags := by
  cases read with
  | none => simp
  | some tag => simpa using neverBelow_cons h tag tags

/-- A round that the builder accepts is followed by the parser, which has nothing to include
then or later. -/
theorem step_includesNothing {s : Parser} {b b₁ : Builder} {ch : Char} {tags : List TagRead}
    (hr : Refines True s b) (hb : b.Plain) (hstep : b.step fresh path ch = some b₁)
    (hinc : (∀ path, files path = none) ∨ b.Includeless ∧ ∀ closed,
      .start includeKey closed ∉ (tagRead fresh path b.setText.is ch).toList ++ tags) :
    (∃ s₁, s.step fresh files parse path ch = .ok s₁ ∧ Refines True s₁ b₁) ∧
      ((∀ path, files path = none) ∨
        b₁.Includeless ∧ ∀ closed, .start includeKey closed ∉ tags) := by
  rcases hinc with hfiles | ⟨hless, htags⟩
  · obtain ⟨s₁, hs₁, hfollows⟩ := step_follows hr (Or.inl hb) hstep
      (inert_of_no_files hfiles path b₁.cur.kids)
    exact ⟨⟨s₁, hs₁, hfollows.refines⟩, Or.inl hfiles⟩
  · have hless₁ := Builder.includeless_step hb hless hstep fun closed htag =>
      htags closed (List.mem_append_left _ (by rw [htag]; exact List.mem_cons_self))
    obtain ⟨s₁, hs₁, hfollows⟩ := step_follows hr (Or.inl hb) hstep (hless₁.inert files path)
    exact ⟨⟨s₁, hs₁, hfollows.refines⟩,
      Or.inr ⟨hless₁, fun closed hmem => htags closed (List.mem_append_right _ hmem)⟩⟩

/-- The loop comes to the end of the file or to markup that cannot be read, unless an end
tag comes when no element is open. -/
theorem loop_finishes_iff {fuel : ℕ} {s : Parser} {b : Builder} (hr : Refines True s b)
    (hb : b.Plain) (hfuel : b.is.file.length < fuel)
    (hinc : (∀ path, files path = none) ∨
      b.Includeless ∧ ∀ closed, .start includeKey closed ∉ b.reader.tags fresh path fuel) :
    Finishes (s.loop fresh files parse path fuel) ↔
      NeverBelow b.outer.length (b.reader.tags fresh path fuel) := by
  induction fuel generalizing s b with
  | zero => omega
  | succ fuel ih =>
      have hpos : (0 : ℤ) ≤ b.outer.length := Int.natCast_nonneg _
      rcases hread : bufRead b.is with ⟨ch, is⟩
      have hread' : bufRead b.reader.is = (ch, is) := hread
      rw [Parser.loop, Reader.tags, hr.is_eq, hread, hread']
      rw [Reader.tags, hread'] at hinc
      cases ch with
      | none => exact iff_of_true (Or.inl ⟨_, rfl⟩) (neverBelow_nil hpos)
      | some ch =>
          have hr' : Refines True { s with is := is } { b with is := is } :=
            ⟨rfl, hr.spaceOnly_eq, hr.isOpen⟩
          have hplain : Builder.Plain { b with is := is } := hb
          have htext : ({ b.reader with is := is } : Reader).setText =
              ({ b with is := is } : Builder).setText.is :=
            Builder.reader_setText { b with is := is }
          have hleft := bufRead_some_left hread
          simp only [htext] at hinc ⊢
          rw [neverBelow_append hpos]
          cases hstep : Builder.step fresh path { b with is := is } ch with
          | some b₁ =>
              have hreader : Reader.step fresh path { b.reader with is := is } ch =
                  some b₁.reader := Builder.reader_step hstep
              have hless := Reader.step_left hreader
              have hdepth := Builder.length_outer_step hstep
              simp only [hreader] at hinc ⊢
              obtain ⟨⟨s₁, hs₁, hr₁⟩, hinc₁⟩ :=
                @step_includesNothing fresh files path parse _ _ _ _ _ hr' hplain hstep hinc
              simp only [hs₁, ← hdepth]
              exact ih hr₁ (Builder.step_plain hplain hstep) (by
                simp only [Builder.reader] at hless
                omega) hinc₁
          | none =>
              obtain ⟨rfl, ⟨hfail, error, hs⟩ | ⟨hend, houter, hs⟩⟩ :=
                @step_stops True files path parse fresh _ _ _ hr' hstep
              · have hnone := tagRead_of_fail hfail
                have hreader : Reader.step fresh path { b.reader with is := is } '<' = none :=
                  Builder.reader_step_of_fail hfail
                simp only [hs, hnone, hreader]
                refine iff_of_true (Or.inr ⟨error, rfl⟩) (neverBelow_nil ?_)
                simp
              · obtain ⟨name, hname⟩ := tagRead_of_endTag hend
                have hroot : b.outer.length = 0 := congrArg List.length houter
                simp only [hs, hname, hroot]
                refine iff_of_false ?_ (not_neverBelow_neg (by simp [TagRead.depth]) _)
                rintro (⟨r, hr⟩ | ⟨error, herror⟩)
                · cases hr
                · cases herror

end

theorem finishes_map {α β : Type} (f : α → β) (result : Except Stop α) :
    Finishes (result.map f) ↔ Finishes result := by
  cases result with
  | ok r => exact iff_of_true (Or.inl ⟨f r, rfl⟩) (Or.inl ⟨r, rfl⟩)
  | error stop => simp [Finishes, Except.map]

/-- A file that includes nothing is parsed to a registry or 0 if and only if it contains no
end tag at a place where no element is open. -/
theorem cseParse_finishes_iff {fresh : Fresh} {files : Files} (depth : ℕ) {path file : Text}
    (nodes : Nodes) (error : Option Text)
    (hinc : IncludesNothing files (tagsOf fresh path file)) :
    Finishes (cseParse fresh files (depth + 1) path file nodes error) ↔
      NeverBelow 0 (tagsOf fresh path file) := by
  have hless : (Builder.start file).Includeless := ⟨rfl, List.not_mem_nil⟩
  rw [cseParse, finishes_map]
  exact loop_finishes_iff (start_refines file nodes error) (start_plain file)
    (Nat.lt_succ_self _) (hinc.imp_right fun htags => ⟨hless, htags⟩)

theorem cseParse_finishes_iff_short :
    Finishes (cseParse (fun _ _ => ' ') (fun _ => none) 1 [] "<a><b/></a>".toList .empty none) := by
  refine (cseParse_finishes_iff 0 .empty none (Or.inl fun _ => rfl)).mpr ?_
  have htags : tagsOf (fun _ _ => ' ') [] "<a><b/></a>".toList =
      [.start ['a'] false, .start ['b'] true, .stop ['a']] := by decide +kernel
  rw [htags, neverBelow_cons (by decide), neverBelow_cons (by decide), neverBelow_cons (by decide)]
  exact neverBelow_nil (by decide)

/-- A single end tag: the parser goes up from the root and follows NULL. -/
theorem not_cseParse_finishes_strayEnd :
    ¬ ∀ (fresh : Fresh) (files : Files) (depth : ℕ) (path file : Text) (nodes : Nodes)
        (error : Option Text), IncludesNothing files (tagsOf fresh path file) →
      Finishes (cseParse fresh files (depth + 1) path file nodes error) := by
  intro hclaim
  have hfinishes := hclaim (fun _ _ => ' ') (fun _ => none) 0 [] "</a>".toList .empty none
    (Or.inl fun _ => rfl)
  have hcrash : cseParse (fun _ _ => ' ') (fun _ => none) 1 [] "</a>".toList .empty none =
      .error .crash := by rfl
  rw [hcrash] at hfinishes
  rcases hfinishes with ⟨r, hr⟩ | ⟨error, herror⟩
  · cases hr
  · cases herror

end ModCaucho
