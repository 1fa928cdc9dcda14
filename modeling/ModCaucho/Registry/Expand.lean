import ModCaucho.Registry.Include

/-!
# Documents with an include element

In the registry of a document, the elements of a file should stand where the document includes
it. They do exactly if the include element has a sibling before it and is closed at the end of
the document. The first child of its parent is replaced by the root of the file, and then
nothing but this root is seen of the children.
-/

namespace ModCaucho

open LinkedForest

/-- The place of an include element in the tree of a document. -/
structure Document where
  way : List (Forest.Layer Entry)
  before : Registry
  entry : Entry
  first : Registry
  after : Registry

namespace Document

/-- The tree of the document. -/
def tree (doc : Document) : Registry :=
  .plug doc.way (doc.before.append (.node doc.entry doc.first doc.after))

/-- The tree with the elements of the file in place of the include element. -/
def expanded (doc : Document) (included : Registry) : Registry :=
  .plug doc.way (doc.before.append (included.append doc.after))

/-- The document has this one include element, and the file that it names can be opened and
has these elements at its top, and no include element. -/
structure Includes (fresh : Fresh) (files : Files) (path file : Text) (doc : Document)
    (b : Builder) (included : Registry) : Prop where
  built : buildFile fresh path file = some b
  tree_eq : b.registry = doc.tree
  one : doc.tree.count isInclude true = 1
  opens : ∃ value file' b' root, includeHref doc.entry doc.first = some value ∧
    files (includePath path value) = some file' ∧
    buildFile fresh (includePath path value) file' = some b' ∧
    b'.registry = .node root included .nil ∧ b'.registry.count isInclude true = 0
  ne_nil : included ≠ .nil

variable {doc : Document} {d : Entry} {s : Registry}

/-- What is around the include element includes nothing. -/
theorem unmarked (hone : doc.tree.count isInclude true = 1) (hkey : doc.entry.includes = true) :
    (∀ layer ∈ doc.way, layer.Unmarked Entry.includes) ∧
      doc.before.count isInclude true = 0 ∧ doc.after.count isInclude true = 0 := by
  have hsplit : (doc.before.append (.node doc.entry doc.first doc.after)).count isInclude true =
      doc.before.count isInclude true + (1 + doc.first.count isInclude true +
        doc.after.count isInclude false) := by
    refine (Forest.count_marked_append (m := Entry.includes) true true true _ _).trans ?_
    rw [Forest.count, if_pos hkey]
    rfl
  have hafter : doc.after.count isInclude false = doc.after.count isInclude true :=
    Forest.count_marked false true doc.after
  have hne : (doc.before.append (.node doc.entry doc.first doc.after)).count
      (fun _ entry _ => entry.includes) true ≠ 0 := by
    intro hzero
    have hcount := hsplit.symm.trans hzero
    omega
  obtain ⟨hway, hcount⟩ := Forest.unmarked_of_count_plug hone hne
  have htotal := hsplit.symm.trans hcount
  exact ⟨hway, by omega, by omega⟩

/-- The tree with the file in place of the include element, below a node more if it is a first
child. -/
theorem replace_tree (hone : doc.tree.count isInclude true = 1)
    (hkey : doc.entry.includes = true) :
    Forest.hung Entry.includes d doc.tree (doc.tree.replace Entry.includes d s) =
      if doc.before = .nil then .plug doc.way (.node d (s.append doc.after) .nil)
      else doc.expanded s := by
  obtain ⟨hway, hbefore, hafter⟩ := unmarked hone hkey
  obtain ⟨hleft, hmarked⟩ := @Forest.replace_of_count _ Entry.includes d s _ _ hbefore
  obtain ⟨hright, -⟩ := @Forest.replace_of_count _ Entry.includes d s _ _ hafter
  have hsiblings : (doc.before.append (.node doc.entry doc.first doc.after)).replace Entry.includes
      d s = doc.before.append (s.append doc.after) := by
    rw [Forest.replace_append, hleft, Forest.replace, if_pos hkey, hright]
  rw [tree, Forest.hung_replace_plug hway, hsiblings, Forest.hung]
  by_cases hnil : doc.before = .nil
  · rw [if_pos hnil, hnil]
    exact congrArg (Forest.plug doc.way) (if_pos hkey)
  · rw [if_neg hnil, Forest.marked_append hnil, hmarked, if_neg Bool.false_ne_true]
    rfl

/-- Below one node more there is one node more. -/
theorem behind_ne_expanded (hnil : doc.before = .nil) :
    Forest.plug doc.way (.node d (s.append doc.after) .nil) ≠ doc.expanded s := by
  intro heq
  obtain ⟨n, hn⟩ := Forest.size_plug doc.way
  have hsize := congrArg Forest.size heq
  rw [expanded, hnil, hn, hn, Forest.size] at hsize
  simp only [Forest.size, Forest.nil_append] at hsize
  omega

/-- A tree with the include element is not the one without it. -/
theorem tree_ne_expanded (hone : doc.tree.count isInclude true = 1)
    (hkey : doc.entry.includes = true) (hs : s.count isInclude true = 0) :
    doc.tree ≠ doc.expanded s := by
  intro heq
  obtain ⟨-, hbefore, hafter⟩ := unmarked hone hkey
  obtain ⟨n, hn⟩ := Forest.count_marked_plug Entry.includes doc.way
  have hcount : (doc.before.append (s.append doc.after)).count (fun _ entry _ => entry.includes)
      true = 0 := by
    rw [Forest.count_marked_append true true true, Forest.count_marked_append true true true]
    exact congrArg₂ (· + ·) hbefore (congrArg₂ (· + ·) hs hafter)
  have hsiblings : (doc.before.append (.node doc.entry doc.first doc.after)).count
      (fun _ entry _ => entry.includes) true ≠ 0 := by
    rw [Forest.count_marked_append true true true, Forest.count, if_pos hkey]
    omega
  have htree : doc.tree.count (fun _ entry _ => entry.includes) true = _ := hn true _
  have hexpanded : (doc.expanded s).count (fun _ entry _ => entry.includes) true = _ := hn true _
  rw [← heq, htree, hcount] at hexpanded
  omega

end Document

section

variable {fresh : Fresh} {files : Files} {path file : Text} {b : Builder} {d : Entry}
  {s : Registry}

/-- The children of the open nodes are in the tree. -/
theorem count_le_registry (hb : b.Plain) (P : Bool → Entry → Registry → Bool) :
    b.count P ≤ b.registry.count P true :=
  Frame.count_le_closeAll P true hb

/-- Everything can be replaced at the end, if no include element is left open. -/
theorem spliced_registry (hb : b.Plain) (hopen : ∀ fr ∈ b.frames, fr.data.includes = false) :
    (b.spliced d s).registry =
      Forest.hung Entry.includes d b.registry (b.registry.replace Entry.includes d s) := by
  have hdata : (b.cur.closeAll b.outer).data.includes = false :=
    Frame.closeAll_data (P := fun entry : Entry => entry.includes = false) hopen
  have hmarked : b.registry.marked Entry.includes = false := hdata
  rw [Forest.hung, hmarked, if_neg Bool.false_ne_true, Builder.registry, Builder.registry,
    ← Frame.tree_replace (Frame.closeAll_behind hb) hdata, Frame.closeAll_replace hb hopen]
  rfl

/-- A file without an include element is read as it is. -/
theorem cseParse_readsFile (hbuild : buildFile fresh path file = some b)
    (hnone : b.registry.count isInclude true = 0) (hroot : b.registry = .node d s .nil)
    (depth : ℕ) : ReadsFile (cseParse fresh files (depth + 1)) path file d s := by
  intro nodes error
  have hplain := (Builder.loop_spec (start_plain file) hbuild).1
  have hzero := count_le_registry hplain isInclude
  have hstart : Refines True (.start file nodes error) (.start file) :=
    start_refines file nodes error
  have hinert (b₁ : Builder) (_ : b₁.Plain) (hle : ∀ P, b₁.count P ≤ b.count P) :
      Inert files path b₁.cur.kids := by
    have hone := hle isInclude
    rw [Builder.count, Builder.frames, Frame.count_cons] at hone
    exact inert_of_count (by omega)
  obtain ⟨st, hst, hfollows⟩ :
      ∃ st, (Parser.start file nodes error).loop fresh files (cseParse fresh files depth) path
        (file.length + 1) = .ok st ∧ Follows True (.start file nodes error) st b :=
    loop_follows hstart (start_plain file) hbuild hinert
  refine ⟨⟨st.nodes, st.root, st.error⟩, ?_, hfollows.root_eq, ?_, ?_⟩
  · rw [cseParse, parseFile, hst]
    rfl
  · obtain ⟨hsize, hsame⟩ := hfollows.frozen
    refine ⟨Nat.le_trans (Nat.le_succ _) hsize, fun q hq => (hsame q hq).trans ?_⟩
    exact if_neg (Nat.ne_of_lt hq)
  · rw [← hroot]
    exact hfollows.refines.segment hplain

/-- A registry reads as one tree only. -/
theorem cseParse_reads_iff {strict : Prop} {depth : ℕ} {nodes : Nodes} {error : Option Text}
    {r : Parsed} {t u : Registry}
    (hparse : cseParse fresh files depth path file nodes error = .ok r)
    (hseg : r.nodes.Segment strict none t (some r.root) (some r.root) r.root r.nodes.size)
    (h : ∃ r', cseParse fresh files depth path file nodes error = .ok r' ∧
      r'.nodes.Reads u (some r'.root) (some r'.root)) : t = u := by
  obtain ⟨r', hparse', hreads⟩ := h
  cases hparse.symm.trans hparse'
  exact hseg.eq_of_reads hreads

end

section

variable {fresh : Fresh} {files : Files} {path file : Text} {b : Builder} {doc : Document}
  {s : Registry}

/-- What `cse_parse` returns for the document. -/
theorem Document.Includes.parses (h : doc.Includes fresh files path file b s) :
    ∃ root : Entry, root.includes = false ∧ s.count isInclude true = 0 ∧
      doc.entry.includes = true ∧ ∀ strict : Prop, b.count includesFirst = 0 ∨ ¬ strict →
        ∀ depth nodes error, ∃ r, cseParse fresh files (depth + 2) path file nodes error = .ok r ∧
          r.nodes.Segment strict none (b.spliced root s).registry (some r.root) (some r.root)
            r.root r.nodes.size := by
  obtain ⟨value, file', b', root, hhref, hopens, hbuild', hroot, hnone⟩ := h.opens
  have hplain := (Builder.loop_spec (start_plain file) h.built).1
  have hkey : doc.entry.includes = true := by
    by_contra hkey
    rw [includeHref, if_neg (of_decide_eq_false (Bool.not_eq_true _ ▸ hkey))] at hhref
    cases hhref
  have hparts : root.includes = false ∧ s.count isInclude true = 0 := by
    rw [hroot, Forest.count] at hnone
    refine ⟨?_, by omega⟩
    by_contra hmark
    rw [Bool.not_eq_false] at hmark
    have hroot' : isInclude true root s = true := hmark
    rw [if_pos hroot'] at hnone
    omega
  have hone : b.count isInclude ≤ 1 := by
    have hle := count_le_registry hplain isInclude
    rw [h.tree_eq, h.one] at hle
    exact hle
  -- the one include element of the document is that of this file
  have hother : b.count (includesOther value) = 0 := by
    have hthis : includesFile value false doc.entry doc.first = true ∧
        includesFile value true doc.entry doc.first = true := by
      simp [includesFile, includesOther, hkey, hhref]
    have hpos := Forest.le_count_plug (includesFile value) (n := 1)
      (s := doc.before.append (.node doc.entry doc.first doc.after)) (fun c => ?_) doc.way true
    · have hsum := count_includes value true doc.tree
      have hle := count_le_registry hplain (includesOther value)
      rw [h.tree_eq] at hle
      rw [h.one] at hsum
      have hpos' : 1 ≤ doc.tree.count (includesFile value) true := hpos
      omega
    · have hnode (c : Bool) : 1 ≤ (Forest.node doc.entry doc.first doc.after).count
          (includesFile value) c := by
        rw [Forest.count, if_pos (by cases c; exact hthis.1; exact hthis.2)]
        omega
      by_cases hnil : doc.before = .nil
      · rw [hnil]
        exact hnode c
      · rw [Forest.count_append _ c hnil]
        exact Nat.le_trans (hnode false) (Nat.le_add_left _ _)
  refine ⟨root, hparts.1, hparts.2, hkey, fun strict hfirst depth nodes error => ?_⟩
  have hstart : Refines strict (.start file nodes error) ((Builder.start file).spliced root s) :=
    start_refines file nodes error
  obtain ⟨st, hst, hfollows⟩ := loop_splices h.ne_nil hparts.1 hparts.2 hopens
    (cseParse_readsFile hbuild' hnone hroot depth) hstart (start_plain file) h.built hone hother
    hfirst
  have hfirst' : (b.spliced root s).Plain ∨ ¬ strict := hfirst.imp_left Builder.spliced_plain
  refine ⟨⟨st.nodes, st.root, st.error⟩, ?_, ?_⟩
  · rw [cseParse, parseFile, hst]
    rfl
  · exact (hfollows.refines.isOpen.closeAll hfirst').root_segment
      (hfirst'.imp_left Frame.closeAll_behind)

/-- An include element behind a sibling is not a first child. -/
theorem Document.Includes.count_first (h : doc.Includes fresh files path file b s)
    (hkey : doc.entry.includes = true) (hne : doc.before ≠ .nil) : b.count includesFirst = 0 := by
  have hplain := (Builder.loop_spec (start_plain file) h.built).1
  have hle := count_le_registry hplain includesFirst
  rw [h.tree_eq] at hle
  have hsum : doc.tree.count isInclude true = doc.tree.count includesFirst true +
      doc.tree.count (fun c entry _ => !c && entry.includes) true := by
    refine Forest.count_add (fun c entry first => ?_) true doc.tree
    unfold includesFirst isInclude Entry.includes
    cases c <;> cases decide (entry.key = includeKey) <;> exact ⟨rfl, rfl⟩
  have hpos : 1 ≤ doc.tree.count (fun c entry _ => !c && entry.includes) true := by
    refine Forest.le_count_plug _ (fun c => ?_) doc.way true
    have hmark : (!false && doc.entry.includes) = true := hkey
    rw [Forest.count_append _ c hne, Forest.count, if_pos hmark]
    omega
  rw [h.one] at hsum
  omega

/-- What is made of the document when the include element is closed. -/
theorem Document.Includes.registry_eq (h : doc.Includes fresh files path file b s)
    (hkey : doc.entry.includes = true) (hopen : ∀ fr ∈ b.frames, fr.data.includes = false)
    (root : Entry) :
    (b.spliced root s).registry =
      if doc.before = .nil then .plug doc.way (.node root (s.append doc.after) .nil)
      else doc.expanded s := by
  have hplain := (Builder.loop_spec (start_plain file) h.built).1
  rw [spliced_registry hplain hopen, h.tree_eq]
  exact Document.replace_tree h.one hkey

theorem Document.Includes.of_expanded (h : doc.Includes fresh files path file b s) {depth : ℕ}
    {nodes : Nodes} {error : Option Text}
    (hreads : ∃ r, cseParse fresh files (depth + 2) path file nodes error = .ok r ∧
      r.nodes.Reads (doc.expanded s) (some r.root) (some r.root)) :
    doc.before ≠ .nil ∧ ∀ fr ∈ b.frames, fr.data.includes = false := by
  obtain ⟨root, hroot, hs, hkey, hparses⟩ := h.parses
  obtain ⟨r, hparse, hseg⟩ := hparses False (Or.inr id) depth nodes error
  have heq := cseParse_reads_iff hparse hseg hreads
  by_cases hopen : ∀ fr ∈ b.frames, fr.data.includes = false
  · refine ⟨fun hnil => ?_, hopen⟩
    rw [h.registry_eq hkey hopen, if_pos hnil] at heq
    exact Document.behind_ne_expanded hnil heq
  · -- an include element that is left open is never spliced
    exfalso
    have hplain := (Builder.loop_spec (start_plain file) h.built).1
    have hsum : doc.tree.count isInclude true =
        b.count isInclude + b.frames.countP fun fr => fr.data.includes := by
      rw [← h.tree_eq]
      exact Frame.count_closeAll true hplain
    have hsome : 0 < b.frames.countP fun fr => fr.data.includes := by
      rw [List.countP_pos_iff]
      by_contra hnone
      exact hopen fun fr hmem => Bool.eq_false_of_not_eq_true fun htrue => hnone ⟨fr, hmem, htrue⟩
    rw [h.one] at hsum
    rw [Builder.spliced_of_count hplain (by omega), h.tree_eq] at heq
    exact Document.tree_ne_expanded h.one hkey hs heq

/-- In the registry that is returned, the elements of the file stand in place of the include
element exactly if the include element has a sibling before it and is not left open. -/
theorem include_expands_iff (h : doc.Includes fresh files path file b s) (depth : ℕ)
    (nodes : Nodes) (error : Option Text) :
    (∃ r, cseParse fresh files (depth + 2) path file nodes error = .ok r ∧
        r.nodes.Reads (doc.expanded s) (some r.root) (some r.root)) ↔
      doc.before ≠ .nil ∧ ∀ fr ∈ b.frames, fr.data.includes = false := by
  refine ⟨h.of_expanded, ?_⟩
  rintro ⟨hne, hopen⟩
  obtain ⟨root, -, -, hkey, hparses⟩ := h.parses
  obtain ⟨r, hparse, hseg⟩ := hparses True (Or.inl (h.count_first hkey hne)) depth nodes error
  rw [h.registry_eq hkey hopen, if_neg hne] at hseg
  exact ⟨r, hparse, hseg.reads⟩

/-! ## An include element behind a sibling, and one without -/

/-- The tree of an element with these children before an include element. -/
def hostDocument (before : Registry) : Document where
  way := [⟨.nil, ⟨[], none⟩, .nil⟩, ⟨.nil, ⟨"host".toList, none⟩, .nil⟩]
  before := before
  entry := ⟨includeKey, none⟩
  first := .node ⟨"href".toList, some "b".toList⟩ .nil .nil
  after := .nil

/-- The file that is included. -/
def hostFiles : Files := fun path => if path = "/b".toList then some "<c/>".toList else none

theorem hostDocument_includes {file : Text} {before : Registry}
    (hbuild : (buildFile (fun _ _ => ' ') "/a".toList file).map
      (fun b => (b.registry, b.frames.all fun fr => !fr.data.includes)) =
        some ((hostDocument before).tree, true))
    (hone : (hostDocument before).tree.count isInclude true = 1) :
    ∃ b, (hostDocument before).Includes (fun _ _ => ' ') hostFiles "/a".toList file b
        (.node ⟨"c".toList, none⟩ .nil .nil) ∧ ∀ fr ∈ b.frames, fr.data.includes = false := by
  obtain ⟨b, hb, heq⟩ := Option.map_eq_some_iff.mp hbuild
  rw [Prod.mk.injEq] at heq
  have hincluded : (buildFile (fun _ _ => ' ') (includePath "/a".toList "b".toList)
      "<c/>".toList).map Builder.registry =
        some (.node ⟨[], none⟩ (.node ⟨"c".toList, none⟩ .nil .nil) .nil) := by
    decide +kernel
  obtain ⟨b', hb', hroot⟩ := Option.map_eq_some_iff.mp hincluded
  have hhref : includeHref ⟨includeKey, none⟩ (.node ⟨"href".toList, some "b".toList⟩ .nil .nil) =
      some "b".toList := by
    decide +kernel
  refine ⟨b, ⟨hb, heq.1, hone, ⟨"b".toList, "<c/>".toList, b', ⟨[], none⟩, hhref, ?_, hb', hroot,
    ?_⟩, by simp⟩, fun fr hmem => ?_⟩
  · decide +kernel
  · rw [hroot]
    decide +kernel
  · simpa using List.all_eq_true.mp heq.2 fr hmem

theorem include_expands_iff_behind :
    ∃ r, cseParse (fun _ _ => ' ') hostFiles 2 "/a".toList
        "<host><x/><resin:include href='b'/></host>".toList .empty none = .ok r ∧
      r.nodes.Reads ((hostDocument (.node ⟨"x".toList, none⟩ .nil .nil)).expanded
        (.node ⟨"c".toList, none⟩ .nil .nil)) (some r.root) (some r.root) := by
  obtain ⟨b, h, hopen⟩ := @hostDocument_includes
    "<host><x/><resin:include href='b'/></host>".toList (.node ⟨"x".toList, none⟩ .nil .nil)
    (by decide +kernel) (by decide +kernel)
  exact (include_expands_iff h 0 .empty none).mpr ⟨by simp [hostDocument], hopen⟩

/-- An include element that is the only child of its parent. -/
theorem not_include_expands_first :
    ¬ ∀ (fresh : Fresh) (files : Files) (path file : Text) (doc : Document) (b : Builder)
      (s : Registry), doc.Includes fresh files path file b s →
        ∃ depth r, cseParse fresh files (depth + 2) path file .empty none = .ok r ∧
          r.nodes.Reads (doc.expanded s) (some r.root) (some r.root) := by
  intro hall
  obtain ⟨b, h, -⟩ := @hostDocument_includes "<host><resin:include href='b'/></host>".toList .nil
    (by decide +kernel) (by decide +kernel)
  obtain ⟨depth, hreads⟩ := hall _ _ _ _ _ _ _ h
  exact (h.of_expanded hreads).1 rfl

end

end ModCaucho
