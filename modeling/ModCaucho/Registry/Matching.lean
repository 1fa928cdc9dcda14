import ModCaucho.Lib.Brackets
import ModCaucho.Registry.Written

/-!
# Tags that match

`parse_end_tag` goes up without a look at the name it has read, and nothing looks at the open
elements at the end of the file. So the tags that `cse_parse` reads in a file nest only if
the file has them so: as many elements are closed as are opened, and an end tag has the name
of the start tag from which the tags between them balance. That no end tag comes too early
needs no condition, for behind it nothing is returned.
-/

namespace ModCaucho

/-- Below elements with these names, the innermost first, every end tag closes the innermost
open element and has its name, and no element is left open. -/
def Nested : List Text → List TagRead → Prop
  | names, [] => names = []
  | names, .start name closed :: tags => Nested (if closed then names else name :: names) tags
  | [], .stop _ :: _ => False
  | open_ :: names, .stop name :: tags => open_ = name ∧ Nested names tags

/-- What a tag opens or closes, labelled with its name. A closed tag does neither. -/
def TagRead.bracket : TagRead → Option (Brackets.Bracket Text)
  | .start name closed => if closed then none else some (.opening name)
  | .stop name => some (.closing name)

/-- As many elements are closed as are opened, and an end tag has the name of the start tag
from which the tags between them balance. -/
structure Matched (tags : List TagRead) : Prop where
  total : Brackets.depth (tags.filterMap TagRead.bracket) = 0
  names : Brackets.LabelsAgree (tags.filterMap TagRead.bracket)

section

variable (fresh : Fresh) (files : Files)
  (parse : Text → Text → Nodes → Option Text → Except Stop Parsed) (path : Text)

/-- The tags that the loop of `cse_parse` reads, with their names as they are written. -/
def Parser.tagsWritten (fuel : ℕ) (s : Parser) : List TagRead :=
  (s.rounds fresh files parse path fuel).filterMap fun round =>
    tagWritten fresh path round.1.setText.is round.2

end

/-- The tags of a file that `cse_parse` reads. -/
def fileTags (fresh : Fresh) (files : Files) (depth : ℕ) (path file : Text) (nodes : Nodes)
    (error : Option Text) : List TagRead :=
  Parser.tagsWritten fresh files (cseParse fresh files depth) path (file.length + 1)
    (.start file nodes error)

/-! ## Tags as brackets -/

theorem nested_iff_wellNested (names : List Text) (tags : List TagRead) :
    Nested names tags ↔ Brackets.WellNested names (tags.filterMap TagRead.bracket) := by
  induction tags generalizing names with
  | nil => exact Iff.rfl
  | cons tag tags ih =>
      cases tag with
      | start name closed =>
          rw [Nested, ih]
          cases closed <;> exact Iff.rfl
      | stop name =>
          cases names with
          | nil => exact Iff.rfl
          | cons open_ names => exact and_congr_right fun _ => ih names

theorem sum_depth (tags : List TagRead) :
    Brackets.depth (tags.filterMap TagRead.bracket) = (tags.map TagRead.depth).sum := by
  induction tags with
  | nil => rfl
  | cons tag tags ih =>
      rw [List.map_cons, List.sum_cons, ← ih, List.filterMap_cons]
      cases tag with
      | start name closed =>
          cases closed
          · exact Brackets.depth_cons _ _
          · exact (Int.zero_add _).symm
      | stop name => exact Brackets.depth_cons _ _

theorem NeverBelow.brackets {tags : List TagRead} (h : NeverBelow 0 tags) :
    Brackets.NeverBelow (tags.filterMap TagRead.bracket) := by
  intro front hfront
  obtain ⟨front', hprefix, rfl⟩ := List.prefix_filterMap_iff.mp hfront
  rw [sum_depth]
  simpa using h front' hprefix

/-- Where end tags come too early depends on what the tags open and close alone. -/
theorem NeverBelow.of_depth_eq {depth : ℤ} {tags tags' : List TagRead}
    (hdepth : tags.map TagRead.depth = tags'.map TagRead.depth) (h : NeverBelow depth tags) :
    NeverBelow depth tags' := by
  intro front hfront
  have hmapped : front.map TagRead.depth <+: tags.map TagRead.depth :=
    hdepth ▸ hfront.map TagRead.depth
  obtain ⟨front', hprefix, heq⟩ := List.prefix_map_iff.mp hmapped
  rw [heq]
  exact h front' hprefix

/-- Tags with no end tag too early nest if and only if they match. -/
theorem nested_iff_of_neverBelow {tags : List TagRead} (h : NeverBelow 0 tags) :
    Nested [] tags ↔ Matched tags := by
  rw [nested_iff_wellNested, Brackets.wellNested_iff]
  exact ⟨fun hnested => ⟨hnested.1.depth_eq, hnested.2⟩,
    fun hmatched => ⟨⟨hmatched.total, h.brackets⟩, hmatched.names⟩⟩

/-! ## A whole file -/

section

variable {fresh : Fresh} {files : Files} {path : Text}
  {parse : Text → Text → Nodes → Option Text → Except Stop Parsed}

theorem Parser.tagsWritten_cons {s s₁ : Parser} {ch : Char} {is : Rstream}
    (hread : bufRead s.is = (some ch, is))
    (hstep : step fresh files parse path { s with is := is } ch = .ok s₁) (fuel : ℕ) :
    s.tagsWritten fresh files parse path (fuel + 1) =
      (tagWritten fresh path ({ s with is := is } : Parser).setText.is ch).toList ++
        s₁.tagsWritten fresh files parse path fuel := by
  rw [tagsWritten, (rounds_cons hread hstep fuel).1, List.filterMap_cons]
  cases tagWritten fresh path ({ s with is := is } : Parser).setText.is ch <;> rfl

/-- A loop that comes to the end of the file reads the tags that are written in it. -/
theorem loop_tagsWritten {fuel : ℕ} {s s' : Parser}
    (hloop : s.loop fresh files parse path fuel = .ok s') :
    s.tagsWritten fresh files parse path fuel = s.reader.written fresh path fuel := by
  induction fuel generalizing s with
  | zero => rfl
  | succ fuel ih =>
      rcases hread : bufRead s.is with ⟨ch, is⟩
      have hread' : bufRead s.reader.is = (ch, is) := hread
      rw [Reader.written, hread']
      cases ch with
      | none =>
          rw [Parser.tagsWritten, Parser.rounds, hread]
          rfl
      | some ch =>
          cases hstep : Parser.step fresh files parse path { s with is := is } ch with
          | error stop =>
              rw [Parser.loop, hread] at hloop
              simp only [hstep] at hloop
              cases hloop
          | ok s₁ =>
              rw [(Parser.rounds_cons hread hstep fuel).2] at hloop
              have htext := (Parser.reader_setText { s with is := is }).1
              have hreader : Reader.step fresh path { s.reader with is := is } ch =
                  some s₁.reader := Parser.reader_step hstep
              rw [Parser.tagsWritten_cons hread hstep, ← htext, ih hloop]
              simp only [hreader]
              rfl

end

/-- The tags of a file that is accepted and includes nothing nest if and only if the tags in
the file match. -/
theorem nested_iff_matched {fresh : Fresh} {files : Files} {depth : ℕ} {path file : Text}
    {nodes : Nodes} {error : Option Text} {r : Parsed}
    (hparse : cseParse fresh files (depth + 1) path file nodes error = .ok r)
    (hinc : IncludesNothing files (tagsOf fresh path file)) :
    Nested [] (fileTags fresh files depth path file nodes error) ↔ Matched (tagsIn file) := by
  rw [cseParse, parseFile] at hparse
  cases hloop : Parser.loop fresh files (cseParse fresh files depth) path (file.length + 1)
      (.start file nodes error) with
  | error stop =>
      rw [hloop] at hparse
      cases hparse
  | ok s =>
      have hless : (Builder.start file).Includeless := ⟨rfl, List.not_mem_nil⟩
      have hrefines : Refines True (.start file nodes error) (.start file) :=
        start_refines file nodes error
      have hinc' := hinc.imp_right fun htags => And.intro hless htags
      have htags : fileTags fresh files depth path file nodes error = tagsIn file := by
        rw [← written_start fresh path file]
        exact loop_tagsWritten hloop
      have hbelow : NeverBelow 0 (tagsOf fresh path file) :=
        (loop_finishes_iff hrefines (start_plain file) (Nat.lt_succ_self _) hinc').mp
          (Or.inl ⟨s, hloop⟩)
      rw [htags]
      exact nested_iff_of_neverBelow (hbelow.of_depth_eq (depth_tagsOf fresh path file))

theorem nested_iff_matched_short : Matched (tagsIn "<a><b/></a>".toList) := by
  have hparse : (cseParse (fun _ _ => ' ') (fun _ => none) 1 [] "<a><b/></a>".toList .empty
      none).isOk = true := by decide +kernel
  have htags : fileTags (fun _ _ => ' ') (fun _ => none) 0 [] "<a><b/></a>".toList .empty none =
      [.start ['a'] false, .start ['b'] true, .stop ['a']] := by decide +kernel
  cases hr : cseParse (fun _ _ => ' ') (fun _ => none) 1 [] "<a><b/></a>".toList .empty none with
  | error stop =>
      rw [hr] at hparse
      cases hparse
  | ok r =>
      refine (nested_iff_matched hr (Or.inl fun _ => rfl)).mp ?_
      rw [htags]
      exact ⟨rfl, rfl⟩

/-- An end tag closes an element of another name, and an element is left open. -/
theorem not_nested_wrongEnd :
    ¬ ∀ (fresh : Fresh) (files : Files) (depth : ℕ) (path file : Text) (nodes : Nodes)
        (error : Option Text) (r : Parsed),
      cseParse fresh files (depth + 1) path file nodes error = .ok r → r.error = none →
      IncludesNothing files (tagsOf fresh path file) →
      Nested [] (fileTags fresh files depth path file nodes error) := by
  intro hclaim
  have herror : (cseParse (fun _ _ => ' ') (fun _ => none) 1 [] "<a></b><c>".toList .empty
      none).toOption.map (·.error) = some none := by decide +kernel
  have htags : fileTags (fun _ _ => ' ') (fun _ => none) 0 [] "<a></b><c>".toList .empty none =
      [.start ['a'] false, .stop ['b'], .start ['c'] false] := by decide +kernel
  cases hr : cseParse (fun _ _ => ' ') (fun _ => none) 1 [] "<a></b><c>".toList .empty none with
  | error stop =>
      rw [hr] at herror
      cases herror
  | ok r =>
      rw [hr] at herror
      have hnested := hclaim _ _ _ _ _ _ _ r hr (Option.some_inj.mp herror) (Or.inl fun _ => rfl)
      rw [htags] at hnested
      exact absurd hnested.1 (by decide)

end ModCaucho
