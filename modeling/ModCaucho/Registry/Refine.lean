import ModCaucho.Registry.Build

/-!
# Refinement of the parser

The parser on the nodes does what the builder does, as long as no element behind a tag
includes a file: in each step, and so over a whole file. With no file to include,
`cse_parse` returns the tree that `buildFile` gives.
-/

namespace ModCaucho

open LinkedForest

/-! ## Elements that include a file -/

/-- The value of the `href` of an element that `parse_include` looks for a file with. -/
def includeHref (entry : Entry) (first : Registry) : Option Text :=
  if entry.key = includeKey then
    (cseFindValue first "href".toList).bind fun value => if value = [] then none else some value
  else none

/-- No file is included for the last of the siblings. -/
def Inert (files : Files) (path : Text) (siblings : Registry) : Prop :=
  ∀ entry first value, siblings.lastNode = some (entry, first) →
    includeHref entry first = some value → files (includePath path value) = none

theorem inert_of_no_files {files : Files} (h : ∀ path, files path = none) (path : Text)
    (siblings : Registry) : Inert files path siblings :=
  fun _ _ _ _ _ => h _

/-- The node is an element that includes a file. -/
def isInclude (_ : Bool) (entry : Entry) (_ : Registry) : Bool := entry.key = includeKey

theorem inert_of_count {files : Files} {path : Text} {siblings : Registry}
    (h : siblings.count isInclude true = 0) : Inert files path siblings := by
  intro entry first value hlast hhref
  obtain ⟨_, hkey⟩ := Forest.lastNode_of_count_eq_zero h hlast
  rw [includeHref, if_neg (of_decide_eq_false hkey)] at hhref
  cases hhref

theorem findValueAt_eq {strict : Prop} {nodes : Nodes} {s : Registry} {o l : Option ℕ}
    {lo hi fuel : ℕ} (hs : nodes.Segment strict none s o l lo hi) (hfuel : hi ≤ lo + fuel)
    (key : Text) : findValueAt nodes key fuel o = cseFindValue s key := by
  induction s generalizing o l lo hi fuel with
  | nil =>
      rw [hs.1]
      cases fuel <;> rfl
  | node entry first next _ ih =>
      obtain ⟨p, mid, k, m, rfl, -, hlo, hdata, hfirst, -, hnext⟩ := hs
      have hmid := hfirst.le
      have hhi := hnext.le
      cases fuel with
      | zero => omega
      | succ fuel =>
          rw [findValueAt, cseFindValue, hdata, ih hnext (by omega)]

section

variable {strict : Prop} {files : Files} {path : Text}
  {parse : Text → Text → Nodes → Option Text → Except Stop Parsed}

/-- What `parse_include` looks for is the `href` of the last child. -/
theorem lastNode_of_open {nodes : Nodes} {root node last : ℕ} {fr : Frame Entry}
    {frs : List (Frame Entry)} (ho : nodes.Open strict root fr frs node)
    (hlast : (nodes.cell node).last = some last) :
    ∃ first, fr.kids.lastNode = some ((nodes.cell last).data, first) ∧
      findValueAt nodes "href".toList nodes.size (nodes.cell last).first =
        cseFindValue first "href".toList := by
  obtain ⟨e, -, -, hkids, -⟩ := ho
  obtain ⟨first, k, mid, hnode, hlo, hmid, hseg⟩ := hkids.last_node hlast
  exact ⟨first, hnode, findValueAt_eq hseg (by omega) _⟩

/-- Nothing happens behind a tag if no file is included for the last child. -/
theorem includeLast_inert {s : Parser} {root : ℕ} {fr : Frame Entry} {frs : List (Frame Entry)}
    (ho : s.nodes.Open strict root fr frs s.node) (hinert : Inert files path fr.kids) :
    s.includeLast files parse path = .ok s := by
  unfold Parser.includeLast
  cases hlast : (s.nodes.cell s.node).last with
  | none => rfl
  | some last =>
      obtain ⟨first, hnode, hfind⟩ := lastNode_of_open ho hlast
      simp only
      split
      · next hkey =>
          have hnone (value : Text) (hvalue : cseFindValue first "href".toList = some value)
              (hne : value ≠ []) : files (includePath path value) = none := by
            refine hinert _ _ value hnode ?_
            rw [includeHref, if_pos hkey, hvalue]
            exact if_neg hne
          unfold parseInclude
          rw [hfind]
          cases hvalue : cseFindValue first "href".toList with
          | none => rfl
          | some value =>
              by_cases hnil : value = []
              · simp only [hnil, if_true]
                rfl
              · simp only [if_neg hnil, hnone value hvalue hnil]
                rfl
      · rfl

/-! ## One step -/

/-- A later state of the parser, which refines the builder and has kept to its own nodes. -/
structure Follows (strict : Prop) (s s' : Parser) (b' : Builder) : Prop where
  refines : Refines strict s' b'
  root_eq : s'.root = s.root
  frozen : Frozen s.root s.nodes s'.nodes

theorem Follows.trans {s s' s'' : Parser} {b' b'' : Builder} (h : Follows strict s s' b')
    (h' : Follows strict s' s'' b'') : Follows strict s s'' b'' := by
  have hfrozen := h'.frozen
  rw [h.root_eq] at hfrozen
  exact ⟨h'.refines, h'.root_eq.trans h.root_eq, h.frozen.trans hfrozen⟩

theorem setText_follows {s : Parser} {b : Builder} (hr : Refines strict s b) :
    Follows strict s s.setText b.setText := by
  obtain ⟨his, hspace, hopen⟩ := hr
  have hdata := hopen.data_eq
  have hkids := hopen.kids_nil_iff
  unfold Parser.setText Builder.setText
  rw [hspace, hdata, his]
  by_cases honly : b.spaceOnly
  · rw [if_pos honly, if_pos honly]
    exact ⟨⟨rfl, rfl, hopen⟩, rfl, .refl _ _⟩
  rw [if_neg honly, if_neg honly]
  by_cases hempty : b.cur.data.value = none ∧ b.cur.kids = .nil
  · rw [if_pos hempty, if_pos ⟨hempty.1, hkids.mp hempty.2⟩]
    exact ⟨⟨rfl, rfl, open_setValue hopen _⟩, rfl, frozen_setValue hopen _⟩
  · rw [if_neg hempty, if_neg fun h => hempty ⟨h.1, hkids.mpr h.2⟩]
    exact ⟨⟨his, hspace, hopen⟩, rfl, .refl _ _⟩

/-- The node that was closed last is still held as an open one, below the cursor. -/
def JustClosed (strict : Prop) (s : Parser) (b' : Builder) (fr up : Frame Entry) : Prop :=
  ∃ i, s.nodes.Open strict s.root fr (up :: b'.outer) i ∧ (s.nodes.cell i).parent = some s.node

theorem addTag_refines {s : Parser} {b : Builder} (hr : Refines strict s b) (tag : Tag) :
    Follows strict s
        { s with nodes := (addTag s.nodes s.node tag).1, node := (addTag s.nodes s.node tag).2 }
        (b.addTag tag) ∧
      (tag.closed = true → JustClosed strict
        { s with nodes := (addTag s.nodes s.node tag).1, node := (addTag s.nodes s.node tag).2 }
        (b.addTag tag) (tagFrame tag) b.cur) := by
  obtain ⟨his, hspace, hopen⟩ := hr
  obtain ⟨hchild, hfrozen, hparent⟩ := open_addTag hopen tag
  have hnode : (addTag s.nodes s.node tag).2 = if tag.closed then s.node else s.nodes.size := rfl
  rw [hnode]
  by_cases hclosed : tag.closed
  · obtain ⟨q, hq, hup⟩ := hchild.close (Or.inl (tagFrame_spec tag).1)
    rw [hparent, Option.some_inj] at hq
    subst hq
    rw [Builder.addTag, if_pos hclosed, if_pos hclosed]
    exact ⟨⟨⟨his, hspace, hup⟩, rfl, hfrozen⟩, fun _ => ⟨_, hchild, hparent⟩⟩
  · rw [Builder.addTag, if_neg hclosed, if_neg hclosed]
    exact ⟨⟨⟨his, hspace, hchild⟩, rfl, hfrozen⟩, fun h => absurd h hclosed⟩

theorem close_refines {s : Parser} {b b' : Builder} (hr : Refines strict s b)
    (hb : b.Plain ∨ ¬ strict) (hclose : b.close = some b') :
    ∃ parent, (s.nodes.cell s.node).parent = some parent ∧
      Refines strict { s with node := parent } b' ∧
      ∀ up, b.outer = up :: b'.outer → JustClosed strict { s with node := parent } b' b.cur up := by
  obtain ⟨his, hspace, hopen⟩ := hr
  unfold Builder.close at hclose
  cases houter : b.outer with
  | nil =>
      rw [houter] at hclose
      cases hclose
  | cons up ups =>
      rw [houter] at hclose hopen
      cases hclose
      obtain ⟨q, hq, hup⟩ := hopen.close (hb.imp_left fun h => h _ List.mem_cons_self)
      refine ⟨q, hq, ⟨his, hspace, hup⟩, fun up' hup' => ?_⟩
      cases hup'
      exact ⟨s.node, hopen, hq⟩

/-- A step of the builder is a step of the parser up to the test behind a tag. -/
theorem step_cases {fresh : Fresh} {s : Parser} {b b' : Builder} {ch : Char}
    (hr : Refines strict s b) (hb : b.Plain ∨ ¬ strict) (hstep : b.step fresh path ch = some b') :
    (∃ s', s.step fresh files parse path ch = .ok s' ∧ Follows strict s s' b' ∧
      ∀ P, b'.count P = b.count P) ∨
    ∃ s', s.step fresh files parse path ch = s'.includeLast files parse path ∧
      Follows strict s s' b' ∧
      ((∃ tag, b'.cur = tagFrame tag) ∨
        ∃ fr up, Builder.Closes b b' fr up ∧ JustClosed strict s' b' fr up) := by
  unfold Builder.step at hstep
  unfold Parser.step
  have his := hr.is_eq
  by_cases hspace : ch = ' ' ∨ ch = '\t' ∨ ch = '\n' ∨ ch = '\x0c'
  · rw [if_pos hspace] at hstep ⊢
    cases hstep
    exact Or.inl ⟨_, rfl, ⟨⟨by rw [his], hr.spaceOnly_eq, hr.isOpen⟩, rfl, .refl _ _⟩,
      fun _ => rfl⟩
  rw [if_neg hspace] at hstep ⊢
  by_cases hopen : ch ≠ '<'
  · rw [if_pos hopen] at hstep ⊢
    cases hstep
    exact Or.inl ⟨_, rfl, ⟨⟨by rw [his], rfl, hr.isOpen⟩, rfl, .refl _ _⟩, fun _ => rfl⟩
  rw [if_neg hopen] at hstep ⊢
  have htext := setText_follows hr
  have hplain : b.setText.Plain ∨ ¬ strict := hb.imp_left Builder.setText_plain
  revert hstep
  simp only [htext.refines.is_eq]
  rcases hscan : scanMarkup fresh path b.setText.is with ⟨markup, error, is⟩
  simp only
  have hmoved : Follows strict s
      { s.setText with is := is, error := error.or s.setText.error } { b.setText with is := is } :=
    ⟨⟨rfl, htext.refines.spaceOnly_eq, htext.refines.isOpen⟩, htext.root_eq, htext.frozen⟩
  cases markup with
  | skipped =>
      intro hstep
      cases hstep
      exact Or.inl ⟨_, rfl, hmoved, fun P => Builder.setText_count P b⟩
  | tag tag =>
      intro hstep
      cases hstep
      obtain ⟨htag, hjust⟩ := addTag_refines hmoved.refines tag
      refine Or.inr ⟨_, rfl, hmoved.trans htag, ?_⟩
      by_cases hclosed : tag.closed
      · exact Or.inr ⟨_, _, Builder.closes_addTag b is hclosed, hjust hclosed⟩
      · refine Or.inl ⟨tag, ?_⟩
        rw [Builder.addTag, if_neg hclosed]
  | endTag =>
      intro hstep
      obtain ⟨parent, hparent, hclosed, hjust⟩ := close_refines hmoved.refines hplain hstep
      obtain ⟨up, hup, hcloses⟩ := Builder.closes_close hstep
      simp only at hparent
      rw [hparent]
      exact Or.inr ⟨_, rfl, ⟨hclosed, hmoved.root_eq, hmoved.frozen⟩,
        Or.inr ⟨_, up, hcloses, hjust up hup⟩⟩
  | fail =>
      intro hstep
      cases hstep

/-- A step of the builder is a step of the parser, if no file is included behind it. -/
theorem step_follows {fresh : Fresh} {s : Parser} {b b' : Builder} {ch : Char}
    (hr : Refines strict s b) (hb : b.Plain ∨ ¬ strict) (hstep : b.step fresh path ch = some b')
    (hinert : Inert files path b'.cur.kids) :
    ∃ s', s.step fresh files parse path ch = .ok s' ∧ Follows strict s s' b' := by
  rcases step_cases hr hb hstep with ⟨s', hs', hfollows, -⟩ | ⟨s', hs', hfollows, -⟩
  · exact ⟨s', hs', hfollows⟩
  · exact ⟨s', hs'.trans (includeLast_inert hfollows.refines.isOpen hinert), hfollows⟩

/-- A step that the builder rejects fails behind a markup that cannot be read, or crashes
behind an end tag at the root. -/
theorem step_stops {fresh : Fresh} {s : Parser} {b : Builder} {ch : Char}
    (hr : Refines strict s b) (hstep : b.step fresh path ch = none) :
    ch = '<' ∧
      (((scanMarkup fresh path b.setText.is).1 = .fail ∧
          ∃ error, s.step fresh files parse path ch = .error (.null error)) ∨
        ((scanMarkup fresh path b.setText.is).1 = .endTag ∧ b.outer = [] ∧
          s.step fresh files parse path ch = .error .crash)) := by
  unfold Builder.step at hstep
  unfold Parser.step
  by_cases hspace : ch = ' ' ∨ ch = '\t' ∨ ch = '\n' ∨ ch = '\x0c'
  · rw [if_pos hspace] at hstep
    cases hstep
  rw [if_neg hspace] at hstep ⊢
  by_cases hopen : ch ≠ '<'
  · rw [if_pos hopen] at hstep
    cases hstep
  rw [if_neg hopen] at hstep ⊢
  refine ⟨not_not.mp hopen, ?_⟩
  have htext := setText_follows hr
  revert hstep
  simp only [htext.refines.is_eq]
  rcases hscan : scanMarkup fresh path b.setText.is with ⟨markup, error, is⟩
  simp only
  cases markup with
  | skipped =>
      intro hstep
      cases hstep
  | tag tag =>
      intro hstep
      cases hstep
  | endTag =>
      intro hstep
      unfold Builder.close at hstep
      simp only at hstep
      have hopen' := htext.refines.isOpen
      cases houter : b.setText.outer with
      | nil =>
          rw [houter] at hopen'
          simp only [hopen'.root_parent]
          exact Or.inr ⟨trivial, b.setText_frames.1.symm.trans houter, trivial⟩
      | cons up ups =>
          rw [houter] at hstep
          cases hstep
  | fail => exact fun _ => Or.inl ⟨rfl, _, rfl⟩

/-- A step that the builder rejects gives no registry. -/
theorem step_rejects {fresh : Fresh} {s : Parser} {b : Builder} {ch : Char}
    (hr : Refines strict s b) (hstep : b.step fresh path ch = none) :
    ∃ stop, s.step fresh files parse path ch = .error stop := by
  rcases (step_stops hr hstep).2 with ⟨-, error, hs⟩ | ⟨-, -, hs⟩
  · exact ⟨_, hs⟩
  · exact ⟨_, hs⟩

/-! ## A whole file -/

/-- What the parser does with a file that includes nothing. -/
theorem loop_follows {fresh : Fresh} {fuel : ℕ} {s : Parser} {b b' : Builder}
    (hr : Refines strict s b) (hb : b.Plain) (hloop : b.loop fresh path fuel = some b')
    (hinert : ∀ b₁ : Builder, b₁.Plain → (∀ P, b₁.count P ≤ b'.count P) →
      Inert files path b₁.cur.kids) :
    ∃ s', s.loop fresh files parse path fuel = .ok s' ∧ Follows strict s s' b' := by
  induction fuel generalizing s b with
  | zero => cases hloop
  | succ fuel ih =>
      unfold Builder.loop at hloop
      unfold Parser.loop
      rw [hr.is_eq]
      rcases hread : bufRead b.is with ⟨ch, is⟩
      rw [hread] at hloop
      cases ch with
      | none =>
          cases hloop
          exact ⟨_, rfl, ⟨rfl, hr.spaceOnly_eq, hr.isOpen⟩, rfl, .refl _ _⟩
      | some ch =>
          obtain ⟨b₁, hstep, hrest⟩ := Option.bind_eq_some_iff.mp hloop
          have hr' : Refines strict { s with is := is } { b with is := is } :=
            ⟨rfl, hr.spaceOnly_eq, hr.isOpen⟩
          have hplain : Builder.Plain { b with is := is } := hb
          have hplain' := Builder.step_plain hplain hstep
          obtain ⟨s₁, hs₁, hfollows⟩ : ∃ s₁, Parser.step fresh files parse path
              { s with is := is } ch = .ok s₁ ∧ Follows strict { s with is := is } s₁ b₁ :=
            step_follows hr' (Or.inl hplain) hstep
              (hinert b₁ hplain' (Builder.loop_spec hplain' hrest).2)
          obtain ⟨s', hs', hfollows'⟩ := ih hfollows.refines hplain' hrest
          refine ⟨s', ?_, Follows.trans ⟨hfollows.refines, hfollows.root_eq, hfollows.frozen⟩
            hfollows'⟩
          simp only [hs₁]
          exact hs'

/-- A file that the parser accepts, with nothing to include, is accepted by the builder. -/
theorem loop_offline {fresh : Fresh} {fuel : ℕ} {s s' : Parser} {b : Builder}
    (hfiles : ∀ path, files path = none) (hr : Refines strict s b) (hb : b.Plain)
    (hloop : s.loop fresh files parse path fuel = .ok s') :
    ∃ b', b.loop fresh path fuel = some b' ∧ Refines strict s' b' ∧ s'.root = s.root := by
  cases hbuild : b.loop fresh path fuel with
  | some b' =>
      obtain ⟨s'', hs'', hfollows⟩ := loop_follows hr hb hbuild
        fun b₁ _ _ => inert_of_no_files hfiles path b₁.cur.kids
      cases hloop.symm.trans hs''
      exact ⟨b', rfl, hfollows.refines, hfollows.root_eq⟩
  | none =>
      exfalso
      induction fuel generalizing s b with
      | zero => cases hloop
      | succ fuel ih =>
          unfold Builder.loop at hbuild
          unfold Parser.loop at hloop
          rw [hr.is_eq] at hloop
          rcases hread : bufRead b.is with ⟨ch, is⟩
          rw [hread] at hbuild hloop
          cases ch with
          | none => cases hbuild
          | some ch =>
              have hr' : Refines strict { s with is := is } { b with is := is } :=
                ⟨rfl, hr.spaceOnly_eq, hr.isOpen⟩
              have hplain : Builder.Plain { b with is := is } := hb
              simp only at hloop hbuild
              cases hstep : Builder.step fresh path { b with is := is } ch with
              | none =>
                  obtain ⟨stop, hstop⟩ : ∃ stop, Parser.step fresh files parse path
                      { s with is := is } ch = .error stop := step_rejects hr' hstep
                  rw [hstop] at hloop
                  cases hloop
              | some b₁ =>
                  obtain ⟨s₁, hs₁, hfollows⟩ : ∃ s₁, Parser.step fresh files parse path
                      { s with is := is } ch = .ok s₁ ∧ Follows strict { s with is := is } s₁ b₁ :=
                    step_follows hr' (Or.inl hplain) hstep (inert_of_no_files hfiles path _)
                  rw [hstep, Option.bind_some] at hbuild
                  rw [hs₁] at hloop
                  exact ih hfollows.refines (Builder.step_plain hplain hstep) hloop hbuild

theorem start_refines (file : Text) (nodes : Nodes) (error : Option Text) :
    Refines strict (.start file nodes error) (.start file) := by
  refine ⟨rfl, rfl, nodes.size, ?_, ?_, ?_, rfl, ?_⟩
  · exact Nat.lt_succ_self _
  · refine ⟨?_, ?_, rfl⟩
    · simp [Parser.start, Builder.start, Frame.fresh]
    · simp [Parser.start]
  · exact ⟨by simp [Parser.start], by simp [Parser.start], Nat.le_refl _⟩
  · simp [Parser.start]

theorem start_plain (file : Text) : (Builder.start file).Plain := by
  intro fr hfr
  rw [List.mem_singleton.mp hfr]
  rfl

/-- What the nodes are read as when the builder has come to the end of the file. -/
theorem Refines.segment {s : Parser} {b : Builder} (hr : Refines strict s b) (hb : b.Plain) :
    s.nodes.Segment strict none b.registry (some s.root) (some s.root) s.root s.nodes.size :=
  (hr.isOpen.closeAll (Or.inl hb)).root_segment (Or.inl (Frame.closeAll_behind hb))

/-- With nothing to include, `cse_parse` returns a registry exactly for the files that the
builder accepts, and it is the one that the builder gives. -/
theorem cseParse_offline {fresh : Fresh} (hfiles : ∀ path, files path = none) (depth : ℕ)
    (file : Text) (nodes : Nodes) (error : Option Text) (t : Registry) :
    (∃ r, cseParse fresh files (depth + 1) path file nodes error = .ok r ∧
        r.nodes.Reads t (some r.root) (some r.root)) ↔
      ∃ b, buildFile fresh path file = some b ∧ t = b.registry := by
  have hstart : Refines True (.start file nodes error) (.start file) :=
    start_refines file nodes error
  constructor
  · rintro ⟨r, hparse, hreads⟩
    rw [cseParse, parseFile] at hparse
    cases hloop : Parser.loop fresh files (cseParse fresh files depth) path (file.length + 1)
        (.start file nodes error) with
    | error stop =>
        rw [hloop] at hparse
        cases hparse
    | ok s =>
        rw [hloop] at hparse
        cases hparse
        obtain ⟨b, hb, hr, -⟩ := loop_offline hfiles hstart (start_plain file) hloop
        have hplain := (Builder.loop_spec (start_plain file) hb).1
        exact ⟨b, hb, ((hr.segment hplain).eq_of_reads hreads).symm⟩
  · rintro ⟨b, hb, rfl⟩
    obtain ⟨s, hs, hfollows⟩ := loop_follows hstart (start_plain file) hb
      fun b₁ _ _ => inert_of_no_files hfiles path b₁.cur.kids
    have hplain := (Builder.loop_spec (start_plain file) hb).1
    refine ⟨⟨s.nodes, s.root, s.error⟩, ?_, (hfollows.refines.segment hplain).reads⟩
    rw [cseParse, parseFile, hs]
    rfl

end

end ModCaucho
