import ModCaucho.Lib.Replace
import ModCaucho.Registry.Splice

/-!
# Including a file

What `cse_parse` makes of a document with an element that includes a file. The parser follows
the builder of the document, but in its nodes the elements of the file are in the place of
the include element as soon as that is closed. If the include element is a first child, its
parent is left with the root of the file as its only child that is seen.
-/

namespace ModCaucho

open LinkedForest

/-- Whether `node->key` is the key of an include element. -/
def Entry.includes (entry : Entry) : Bool := entry.key = includeKey

/-- The node is an include element, but for another file. -/
def includesOther (value : Text) (_ : Bool) (entry : Entry) (first : Registry) : Bool :=
  entry.includes && decide (includeHref entry first ≠ some value)

/-- The node is an include element for this file. -/
def includesFile (value : Text) (c : Bool) (entry : Entry) (first : Registry) : Bool :=
  entry.includes && !includesOther value c entry first

theorem includesFile_leaf (value : Text) (c : Bool) (entry : Entry) :
    includesFile value c entry .nil = false := by
  have hnone : includeHref entry .nil = none := by
    rw [includeHref]
    split <;> rfl
  simp [includesFile, includesOther, hnone]

/-- An include element is one for this file or for another one. -/
theorem count_includes (value : Text) (c : Bool) (t : Registry) :
    t.count isInclude c = t.count (includesFile value) c + t.count (includesOther value) c := by
  refine Forest.count_add (fun c entry first => ?_) c t
  unfold includesFile includesOther isInclude Entry.includes
  cases decide (entry.key = includeKey) <;> cases decide (includeHref entry first ≠ some value) <;>
    exact ⟨rfl, rfl⟩

/-- An attribute includes nothing. -/
theorem tagFrame_includes {value : Text} {tag : Tag}
    (h : (tagFrame tag).kids.count (includesOther value) true = 0) :
    (tagFrame tag).kids.count isInclude true = 0 := by
  rw [count_includes value, h, (tagFrame_spec tag).2.2 _ (includesFile_leaf value)]

/-- The node is an include element without siblings before it. -/
def includesFirst (c : Bool) (entry : Entry) (_ : Registry) : Bool := c && entry.includes

namespace Builder

/-- The builder with the elements of the file in place of each include element that is
closed. -/
def spliced (b : Builder) (d : Entry) (s : Registry) : Builder :=
  { b with
    cur := b.cur.replace Entry.includes d s
    outer := b.outer.map fun fr => fr.replace Entry.includes d s }

variable {fresh : Fresh} {path value : Text} {b b' : Builder} {d : Entry} {s : Registry}
  {ch : Char}

theorem setText_spliced (hs : s ≠ .nil) (b : Builder) :
    (b.spliced d s).setText = b.setText.spliced d s := by
  have hkids : (b.cur.replace Entry.includes d s).kids = .nil ↔ b.cur.kids = .nil :=
    Forest.replace_eq_nil_iff hs b.cur.kids
  have hdata : (b.cur.replace Entry.includes d s).data = b.cur.data := rfl
  unfold setText spliced
  simp only [hkids, hdata]
  split
  · rfl
  · split <;> rfl

theorem spliced_plain (h : b.count includesFirst = 0) : (b.spliced d s).Plain := by
  have hframe (fr : Frame Entry) (hfr : fr.kids.count includesFirst true = 0) :
      (fr.replace Entry.includes d s).behind = none := by
    have hmarked : fr.kids.marked Entry.includes = false := by
      cases hkids : fr.kids with
      | nil => rfl
      | node entry first next =>
          rw [hkids, Forest.count] at hfr
          by_contra hkey
          rw [Bool.not_eq_false] at hkey
          have hfirst : includesFirst true entry first = true := hkey
          rw [if_pos hfirst] at hfr
          omega
    unfold Frame.replace
    simp only [hmarked]
    rfl
  have hzero := (Frame.count_eq_zero_iff includesFirst b.frames).mp h
  intro fr hfr
  rcases List.mem_cons.mp hfr with rfl | hmem
  · exact hframe b.cur (hzero _ List.mem_cons_self)
  · obtain ⟨fr', hmem', rfl⟩ := List.mem_map.mp hmem
    exact hframe fr' (hzero fr' (List.mem_cons_of_mem _ hmem'))

theorem spliced_of_count (hb : b.Plain) (h : b.count isInclude = 0) : b.spliced d s = b := by
  have hframe (fr : Frame Entry) (hmem : fr ∈ b.frames) :
      fr.replace Entry.includes d s = fr :=
    Frame.replace_of_count (hb fr hmem) ((Frame.count_eq_zero_iff isInclude b.frames).mp h fr hmem)
  have houter : b.outer.map (fun fr => fr.replace Entry.includes d s) = b.outer :=
    (List.map_congr_left fun fr hmem => hframe fr (List.mem_cons_of_mem _ hmem)).trans
      (List.map_id _)
  rw [spliced, hframe b.cur List.mem_cons_self, houter]

/-- No include element is left. -/
theorem spliced_count (hd : d.includes = false) (hs : s.count isInclude true = 0) (b : Builder) :
    (b.spliced d s).count isInclude = 0 := by
  rw [count, Frame.count_eq_zero_iff]
  intro fr hfr
  obtain ⟨fr', -, rfl⟩ : ∃ fr' ∈ b.frames, fr'.replace Entry.includes d s = fr := by
    rw [← List.mem_map]
    exact hfr
  exact Forest.count_replace hd hs true fr'.kids

/-- The builder closes an include element, and the other one the element with its file. -/
structure ClosesInclude (b₁ b' : Builder) (fr up : Frame Entry) (d : Entry) (s : Registry) :
    Prop where
  cur_eq : b'.cur = up.add fr.tree
  includes : fr.data.includes = true
  plain : fr.behind = none
  rest_eq : b₁ = { b'.spliced d s with
    cur := (up.replace Entry.includes d s).add (fr.replace Entry.includes d s).tree }

theorem close_spliced {b₁ : Builder} {fr up : Frame Entry} (hplain : fr.behind = none)
    (hcur : b'.cur = up.add fr.tree)
    (h : b₁ = { b'.spliced d s with
      cur := (up.replace Entry.includes d s).add (fr.replace Entry.includes d s).tree }) :
    b₁ = b'.spliced d s ∨ ∃ fr up, ClosesInclude b₁ b' fr up d s := by
  by_cases hkey : fr.data.includes = true
  · exact Or.inr ⟨fr, up, hcur, hkey, hplain, h⟩
  · rw [Bool.not_eq_true] at hkey
    have hsame : (b'.spliced d s).cur = (up.replace Entry.includes d s).add
        (fr.replace Entry.includes d s).tree := by
      rw [← Frame.add_tree_replace hplain hkey, ← hcur]
      rfl
    rw [← hsame] at h
    exact Or.inl h

/-- A step of the builder is a step of the other one, but where an include element is
closed. -/
theorem step_spliced (hs : s ≠ .nil) (hb : b.Plain) (hother : b'.count (includesOther value) = 0)
    (h : b.step fresh path ch = some b') :
    ∃ b₁, (b.spliced d s).step fresh path ch = some b₁ ∧
      (b₁ = b'.spliced d s ∨ ∃ fr up, ClosesInclude b₁ b' fr up d s) := by
  have hcur : b'.cur.kids.count (includesOther value) true = 0 := by
    rw [count, frames, Frame.count_cons] at hother
    omega
  have hplain := setText_plain hb
  unfold step at h ⊢
  simp only [setText_spliced hs]
  by_cases hspace : ch = ' ' ∨ ch = '\t' ∨ ch = '\n' ∨ ch = '\x0c'
  · rw [if_pos hspace] at h ⊢
    cases h
    exact ⟨_, rfl, Or.inl rfl⟩
  rw [if_neg hspace] at h ⊢
  by_cases hopen : ch ≠ '<'
  · rw [if_pos hopen] at h ⊢
    cases h
    exact ⟨_, rfl, Or.inl rfl⟩
  rw [if_neg hopen] at h ⊢
  have his : (b.setText.spliced d s).is = b.setText.is := rfl
  simp only [his]
  rcases hscan : scanMarkup fresh path b.setText.is with ⟨markup, error, is⟩
  simp only [hscan] at h ⊢
  cases markup with
  | skipped =>
      cases h
      exact ⟨_, rfl, Or.inl rfl⟩
  | tag tag =>
      cases h
      refine ⟨_, rfl, ?_⟩
      obtain ⟨hbehind, -, -⟩ := tagFrame_spec tag
      have hleaves (hcount : (tagFrame tag).kids.count (includesOther value) true = 0) :
          (tagFrame tag).replace Entry.includes d s = tagFrame tag :=
        Frame.replace_of_count hbehind (tagFrame_includes hcount)
      by_cases hclosed : tag.closed = true
      · have hcount : (tagFrame tag).kids.count (includesOther value) true = 0 := by
          rw [addTag, if_pos hclosed] at hcur
          have hle := @Frame.count_le_add_tree _ (tagFrame tag) b.setText.cur
            (includesOther value) hbehind
          have hzero : (b.setText.cur.add (tagFrame tag).tree).kids.count (includesOther value)
              true = 0 := hcur
          omega
        have hadded : (addTag { b.setText with is := is } tag).cur =
            b.setText.cur.add (tagFrame tag).tree := by
          rw [addTag, if_pos hclosed]
        refine close_spliced hbehind hadded ?_
        rw [addTag, addTag, if_pos hclosed, if_pos hclosed, hleaves hcount]
        rfl
      · left
        rw [addTag, if_neg hclosed] at hcur
        rw [addTag, addTag, if_neg hclosed, if_neg hclosed]
        simp only [spliced, hleaves hcur, List.map_cons]
  | endTag =>
      unfold close at h ⊢
      simp only at h
      cases houter : b.setText.outer with
      | nil =>
          rw [houter] at h
          cases h
      | cons up ups =>
          rw [houter] at h
          cases h
          have hmap : (b.setText.spliced d s).outer = up.replace Entry.includes d s ::
              ups.map fun fr => fr.replace Entry.includes d s := by
            rw [spliced, houter]
            rfl
          simp only [hmap]
          exact ⟨_, rfl, close_spliced (hplain _ List.mem_cons_self) rfl rfl⟩
  | fail => cases h

end Builder

/-! ## The parser -/

/-- The call of `cse_parse` for the file returns the file's elements, in nodes of its own. -/
def ReadsFile (parse : Text → Text → Nodes → Option Text → Except Stop Parsed) (path file : Text)
    (d : Entry) (s : Registry) : Prop :=
  ∀ nodes error, ∃ r, parse path file nodes error = .ok r ∧ r.root = nodes.size ∧
    Frozen nodes.size nodes r.nodes ∧
    r.nodes.Segment True none (.node d s .nil) (some r.root) (some r.root) r.root r.nodes.size

section

variable {strict : Prop} {fresh : Fresh} {files : Files} {path value file : Text}
  {parse : Text → Text → Nodes → Option Text → Except Stop Parsed} {d : Entry} {s : Registry}

/-- Behind an include element the file is spliced in. -/
theorem includeLast_splices {st : Parser} {b₁ b' : Builder} {fr up fr₁ up₁ : Frame Entry}
    (hs : s ≠ .nil) (hopens : files (includePath path value) = some file)
    (hreads : ReadsFile parse (includePath path value) file d s)
    (hcloses : Builder.ClosesInclude b₁ b' fr up d s)
    (hhref : includeHref fr.data fr.kids = some value) (hfr : fr.replace Entry.includes d s = fr)
    (hr : Refines strict st b₁) (hcur : b₁.cur = up₁.add fr₁.tree)
    (hjust : JustClosed strict st b₁ fr₁ up₁) :
    ∃ st', st.includeLast files parse path = .ok st' ∧ Follows strict st st' (b'.spliced d s) := by
  obtain ⟨hcur', hkey, hplain, hrest⟩ := hcloses
  have hforest : fr.forest = fr.kids := by rw [Frame.forest, hplain]
  -- the node that was closed is the include element, and its parent is the open node
  have hadd : up₁.add fr₁.tree = (up.replace Entry.includes d s).add fr.tree := by
    rw [← hcur, hrest, hfr]
  obtain ⟨hup, hdata, hfirst⟩ := Frame.add_tree_inj hadd
  obtain ⟨i, hopen, hparent⟩ := hjust
  have hlast := hopen.last_eq hparent
  -- so the call is made for the file
  have hcall : st.includeCall files path =
      some ⟨includePath path value, file, st.nodes, st.error⟩ := by
    have hnode : b₁.cur.kids.lastNode = some (fr₁.data, fr₁.forest) := by
      rw [hcur, Frame.add, Forest.lastNode_append _ _ (by simp [Frame.tree])]
      rfl
    rw [includeCall_eq hr.isOpen, hnode, Option.bind_some, hdata, hfirst, hforest, hhref,
      Option.bind_some, hopens]
    rfl
  obtain ⟨r, hparse, hroot, hfrozen, hseg⟩ := hreads st.nodes st.error
  rw [hroot] at hseg
  have hne : (r.nodes.cell st.nodes.size).first ≠ none := by
    obtain ⟨p, mid, k, m, hp, -, -, -, hfile, -⟩ := id hseg
    cases hp
    exact fun hnone => hs (hfile.nil_iff_first.mpr hnone)
  obtain ⟨nodes', hsplice, hopen', hfrozen'⟩ := splice_open hopen hparent hfrozen hseg hs
  refine ⟨{ st with nodes := nodes', error := r.error }, ?_, ⟨?_, rfl, hfrozen'⟩⟩
  · rw [Parser.includeLast_eq, hcall]
    simp only [hparse, Parser.resume, hroot, if_neg hne, hlast, Option.bind_some, hsplice]
  · have hgraft : (b'.spliced d s).cur = up₁.graft d s := by
      rw [hup, ← Frame.add_tree_graft hs hkey, ← hcur']
      rfl
    have houter : b₁.outer = (b'.spliced d s).outer := by rw [hrest]
    have his : b₁.is = (b'.spliced d s).is := by rw [hrest]
    have hspace : b₁.spaceOnly = (b'.spliced d s).spaceOnly := by rw [hrest]
    refine ⟨hr.is_eq.trans his, hr.spaceOnly_eq.trans hspace, ?_⟩
    rw [hgraft, ← houter]
    exact hopen'

/-- A step of the builder is a step of the parser, which splices the file in when the include
element is closed. -/
theorem step_splices {st : Parser} {b b' : Builder} {ch : Char} (hs : s ≠ .nil)
    (hd : d.includes = false) (hfile : s.count isInclude true = 0)
    (hopens : files (includePath path value) = some file)
    (hreads : ReadsFile parse (includePath path value) file d s)
    (hr : Refines strict st (b.spliced d s)) (hb : b.Plain)
    (hfirst : (b.spliced d s).Plain ∨ ¬ strict) (hstep : b.step fresh path ch = some b')
    (hone : b'.count isInclude ≤ 1) (hother : b'.count (includesOther value) = 0) :
    ∃ st', st.step fresh files parse path ch = .ok st' ∧
      Follows strict st st' (b'.spliced d s) := by
  obtain ⟨b₁, hstep₁, rfl | ⟨fr, up, hcloses⟩⟩ := Builder.step_spliced hs hb hother hstep
  · refine step_follows hr hfirst hstep₁ (inert_of_count ?_)
    exact Forest.count_replace hd hfile true b'.cur.kids
  obtain ⟨hcur, hkey, hplain, hrest⟩ := id hcloses
  rw [Builder.count, Builder.frames, Frame.count_cons, hcur] at hone hother
  have htree : fr.tree = .node fr.data fr.kids .nil := by
    rw [Frame.tree, Frame.forest, hplain]
  have hkids : (up.add fr.tree).kids = up.kids.append (.node fr.data fr.kids .nil) := by
    rw [← htree]
    rfl
  -- the element includes this file, and is the only include element
  have hhref : includeHref fr.data fr.kids = some value := by
    have hnone : (up.add fr.tree).kids.count (includesOther value) true = 0 := by omega
    obtain ⟨c, hc⟩ := Forest.lastNode_of_count_eq_zero hnone (by
      rw [hkids, Forest.lastNode_append _ _ (by simp)]
      rfl)
    by_contra hne
    simp [includesOther, hkey, hne] at hc
  have hfr : fr.replace Entry.includes d s = fr := by
    refine Frame.replace_of_count (b := true) hplain ?_
    have hall : (up.add fr.tree).kids.count isInclude true =
        up.kids.count isInclude true + (1 + fr.kids.count isInclude true + 0) := by
      rw [hkids]
      refine (Forest.count_marked_append (m := Entry.includes) true true true _ _).trans ?_
      rw [Forest.count, if_pos hkey]
      rfl
    have hzero : fr.kids.count isInclude true = 0 := by omega
    exact hzero
  have hlast : b₁.cur.kids.lastNode = some (fr.data, fr.kids) := by
    rw [hrest, hfr, Frame.add, htree, Forest.lastNode_append _ _ (by simp)]
    rfl
  rcases step_cases hr hfirst hstep₁ with
    ⟨-, -, -, hcount⟩ | ⟨st₁, hst₁, hfollows, ⟨tag, htag⟩ | ⟨fr₁, up₁, hc, hjust⟩⟩
  · -- an include element is not closed by text
    have hnone : b₁.count isInclude = 0 :=
      (hcount isInclude).trans (b.spliced_count hd hfile)
    rw [Builder.count, Builder.frames, Frame.count_cons] at hnone
    obtain ⟨c, hc⟩ := Forest.lastNode_of_count_eq_zero
      (Nat.eq_zero_of_add_eq_zero_right hnone) hlast
    exact absurd (hkey.symm.trans hc) (by simp)
  · -- nor is it an attribute
    rw [htag] at hlast
    obtain ⟨c, hc⟩ := Forest.lastNode_of_count_eq_zero
      ((tagFrame_spec tag).2.2 (includesFile value) (includesFile_leaf value)) hlast
    simp [includesFile, includesOther, hkey, hhref] at hc
  · obtain ⟨st', hst', hfollows'⟩ := includeLast_splices hs hopens hreads hcloses hhref hfr
      hfollows.refines hc.cur_eq hjust
    exact ⟨st', hst₁.trans hst', hfollows.trans hfollows'⟩

/-- What the parser does with a document with one include element. -/
theorem loop_splices {fuel : ℕ} {st : Parser} {b b' : Builder} (hs : s ≠ .nil)
    (hd : d.includes = false) (hfile : s.count isInclude true = 0)
    (hopens : files (includePath path value) = some file)
    (hreads : ReadsFile parse (includePath path value) file d s)
    (hr : Refines strict st (b.spliced d s)) (hb : b.Plain)
    (hloop : b.loop fresh path fuel = some b') (hone : b'.count isInclude ≤ 1)
    (hother : b'.count (includesOther value) = 0)
    (hfirst : b'.count includesFirst = 0 ∨ ¬ strict) :
    ∃ st', st.loop fresh files parse path fuel = .ok st' ∧
      Follows strict st st' (b'.spliced d s) := by
  induction fuel generalizing st b with
  | zero => cases hloop
  | succ fuel ih =>
      unfold Builder.loop at hloop
      unfold Parser.loop
      have his : st.is = b.is := hr.is_eq
      rw [his]
      rcases hread : bufRead b.is with ⟨ch, is⟩
      rw [hread] at hloop
      cases ch with
      | none =>
          cases hloop
          exact ⟨_, rfl, ⟨rfl, hr.spaceOnly_eq, hr.isOpen⟩, rfl, .refl _ _⟩
      | some ch =>
          obtain ⟨b₁, hstep, hrest⟩ := Option.bind_eq_some_iff.mp hloop
          have hr' :
              Refines strict { st with is := is } (Builder.spliced { b with is := is } d s) :=
            ⟨rfl, hr.spaceOnly_eq, hr.isOpen⟩
          have hplain : Builder.Plain { b with is := is } := hb
          have hplain' := Builder.step_plain hplain hstep
          have hle := (Builder.loop_spec hplain' hrest).2
          have hle' := Builder.count_le_step hplain hstep
          have hzero {P : Bool → Entry → Registry → Bool} (hP : b'.count P = 0) :
              b₁.count P = 0 ∧ Builder.count P { b with is := is } = 0 := by
            have h₁ := hle P
            have h₂ := hle' P
            omega
          obtain ⟨st₁, hst₁, hfollows⟩ := step_splices hs hd hfile hopens hreads hr' hplain
            (hfirst.imp_left fun h => Builder.spliced_plain (hzero h).2) hstep
            (Nat.le_trans (hle isInclude) hone) (hzero hother).1
          obtain ⟨st', hst', hfollows'⟩ := ih hfollows.refines hplain' hrest
          refine ⟨st', ?_, Follows.trans ⟨hfollows.refines, hfollows.root_eq, hfollows.frozen⟩
            hfollows'⟩
          simp only [hst₁]
          exact hst'

end

end ModCaucho
