import ModCaucho.Registry.Finished
import ModCaucho.Registry.Lex

/-!
# Spellings of a setting

A setting below an element is written as an element with a text, as an attribute, or as an
element with an `id`. Three loops of the parser read them, into one buffer and below one
node, and the parser comes to the same children wherever it stands in a document.
-/

namespace ModCaucho

open LinkedForest

/-! ## What is written -/

/-- A setting that can be written in each way. Names are compared as `strcmp` does. -/
structure IsSetting (q : Quoted) : Prop where
  fits : q.Fits
  letter : ∃ ch rest, q.name = ch :: rest ∧ ch.isAlpha = true
  ne_id : cString q.name ≠ "id".toList
  ne_include : cString q.name ≠ includeKey
  text : ∀ ch ∈ q.value, ch ≠ '<'
  solid : ∃ ch ∈ q.value, ¬ (ch = ' ' ∨ ch = '\t' ∨ ch = '\n' ∨ ch = '\x0c')

/-- The name of an element around settings. -/
structure IsElement (foo : Text) : Prop where
  name : IsName foo
  letter : ∃ ch rest, foo = ch :: rest ∧ ch.isAlpha = true
  ne_include : cString foo ≠ includeKey

/-- `<name>` -/
def startTag (name : Text) : Text := '<' :: name ++ ['>']

/-- `</name>` -/
def endTag (name : Text) : Text := '<' :: '/' :: name ++ ['>']

/-- `<name id='value'/>` with the attributes in general. -/
def closedTag (name : Text) (qs : List Quoted) : Text :=
  '<' :: name ++ qs.flatMap Quoted.text ++ ['/', '>']

/-- The ways to write settings. -/
inductive Spelling
  | elements
  | attributes
  | ids

/-- An element with these settings. -/
def Spelling.write (foo : Text) (qs : List Quoted) : Spelling → Text
  | .elements =>
      startTag foo ++ (qs.flatMap fun q => startTag q.name ++ q.value ++ endTag q.name) ++
        endTag foo
  | .attributes => closedTag foo qs
  | .ids =>
      startTag foo ++
        (qs.flatMap fun q => closedTag q.name [⟨"id".toList, q.value, q.quote⟩]) ++ endTag foo

/-- The settings as children. -/
def settings : List Quoted → Registry
  | [] => .nil
  | q :: qs => .node ⟨cString q.name, some (cString q.value)⟩ .nil (settings qs)

theorem settings_append (qs : List Quoted) (q : Quoted) :
    settings (qs ++ [q]) =
      (settings qs).append (.node ⟨cString q.name, some (cString q.value)⟩ .nil .nil) := by
  induction qs with
  | nil => rfl
  | cons q' qs ih => rw [List.cons_append, settings, settings, ih, Forest.node_append]

/-! ## Where the parser stands -/

namespace Parser

/-- The state with another rest of the file. -/
def behind (s : Parser) (file : Text) (line : ℕ) : Parser :=
  { s with is := { s.is with file := file, line := line } }

section

variable (fresh : Fresh) (files : Files)
  (parse : Text → Text → Nodes → Option Text → Except Stop Parsed) (path : Text)

/-- The parser takes this many rounds from the one state to the other. -/
inductive Runs : ℕ → Parser → Parser → Prop
  | refl (s : Parser) : Runs 0 s s
  | step {n : ℕ} {s s₁ s' : Parser} {ch : Char} {is : Rstream}
      (hread : bufRead s.is = (some ch, is))
      (hstep : Parser.step fresh files parse path { s with is := is } ch = .ok s₁)
      (hrest : Runs n s₁ s') : Runs (n + 1) s s'

/-- The parser reads the text and comes from the one state to the other, whatever follows. -/
def Goes (s : Parser) (text : Text) (s' : Parser) : Prop :=
  ∀ rest line, ∃ n line', Runs fresh files parse path n (s.behind (text ++ rest) line)
    (s'.behind rest line')

end

variable {fresh : Fresh} {files : Files} {path : Text} {before : Nodes}
  {parse : Text → Text → Nodes → Option Text → Except Stop Parsed} {s s' s'' : Parser} {m n : ℕ}

theorem Runs.trans (h : Runs fresh files parse path m s s')
    (h' : Runs fresh files parse path n s' s'') : Runs fresh files parse path (m + n) s s'' := by
  induction h with
  | refl s => rwa [Nat.zero_add]
  | step hread hstep _ ih =>
      rw [Nat.add_right_comm]
      exact .step hread hstep (ih h')

/-- The loop goes the way of a run. -/
theorem Runs.loop_eq (h : Runs fresh files parse path n s s') (fuel : ℕ) :
    s.loop fresh files parse path (n + fuel) = s'.loop fresh files parse path fuel := by
  induction h with
  | refl s => rw [Nat.zero_add]
  | step hread hstep _ ih =>
      rw [Nat.add_right_comm, (rounds_cons hread hstep _).2]
      exact ih

/-- Every round reads a character. -/
theorem Runs.length_le (h : Runs fresh files parse path n s s') :
    n + s'.is.file.length ≤ s.is.file.length ∧ s.is.capacity ≤ s'.is.capacity := by
  induction h with
  | refl s => exact ⟨by omega, Nat.le_refl _⟩
  | @step n s s₁ s' ch is hread hstep _ ih =>
      have hless := bufRead_some_left hread
      have hread' := (bufRead_onward s.is).room
      rw [hread] at hread'
      obtain ⟨hleft, hroom⟩ := step_onward hstep
      simp only [charsLeft, Option.toList_none, List.length_nil, Nat.zero_add] at hleft
      simp only at hread' hroom
      omega

theorem Runs.keeps (hparse : ParseKeeps parse) (h : Runs fresh files parse path n s s')
    (hs : s.Keeps before) : s'.Keeps before := by
  induction h with
  | refl s => exact hs
  | step hread hstep _ ih => exact ih (step_keeps hparse (hs.moved _) hstep)

/-! ## The ways of the parser -/

theorem Goes.trans {text text' : Text} (h : Goes fresh files parse path s text s')
    (h' : Goes fresh files parse path s' text' s'') :
    Goes fresh files parse path s (text ++ text') s'' := by
  intro rest line
  obtain ⟨m, line₁, hruns⟩ := h (text' ++ rest) line
  obtain ⟨n, line₂, hruns'⟩ := h' rest line₁
  rw [List.append_assoc]
  exact ⟨m + n, line₂, hruns.trans hruns'⟩

theorem Goes.keeps (hparse : ParseKeeps parse) {text : Text}
    (h : Goes fresh files parse path s text s') (hs : s.Keeps before) : s'.Keeps before := by
  obtain ⟨n, line, hruns⟩ := h [] 1
  exact (hruns.keeps hparse (hs.moved _)).moved s'.is

theorem Goes.room {text : Text} (h : Goes fresh files parse path s text s')
    (hroom : 1024 ≤ s.is.capacity) : 1024 ≤ s'.is.capacity := by
  obtain ⟨n, line, hruns⟩ := h [] 1
  exact Nat.le_trans hroom hruns.length_le.2

/-- Text is kept if the node has nothing yet. -/
theorem setText_text (hseen : s.spaceOnly = false)
    (hempty : (s.nodes.cell s.node).data.value = none ∧ (s.nodes.cell s.node).first = none) :
    s.setText = { s with nodes := setValue s.nodes s.node (cString s.is.buf) } := by
  rw [setText, if_neg (by simp [hseen]), if_pos hempty]

/-- A round that begins with a `<`. -/
theorem goes_markup {text : Text}
    (h : ∀ rest line, ∃ line',
      Parser.step fresh files parse path (s.behind (text ++ rest) line) '<' =
        .ok (s'.behind rest line')) :
    Goes fresh files parse path s ('<' :: text) s' := by
  intro rest line
  obtain ⟨line', hstep⟩ := h rest line
  exact ⟨1, line', .step (by simp [behind, bufRead]) hstep (.refl _)⟩

theorem setText_behind (s : Parser) (file : Text) (line : ℕ) :
    (s.behind file line).setText = s.setText.behind file line := by
  unfold setText behind
  split
  · rfl
  · simp only
    split <;> rfl

theorem setText_room (s : Parser) : s.setText.is.capacity = s.is.capacity := by
  unfold setText
  split
  · rfl
  · split <;> rfl

theorem step_tag {tag : Tag} {is : Rstream}
    (hscan : scanMarkup fresh path s.setText.is = (.tag tag, none, is)) :
    s.step fresh files parse path '<' =
      includeLast files parse path { s.setText with
        is := is
        nodes := (addTag s.setText.nodes s.setText.node tag).1
        node := (addTag s.setText.nodes s.setText.node tag).2 } := by
  rw [step, if_neg (by decide), if_neg (by decide)]
  simp only [hscan, Option.none_or]

theorem step_endTag {is : Rstream} {parent : ℕ}
    (hscan : scanMarkup fresh path s.setText.is = (.endTag, none, is))
    (hparent : (s.setText.nodes.cell s.setText.node).parent = some parent) :
    s.step fresh files parse path '<' =
      includeLast files parse path { s.setText with is := is, node := parent } := by
  rw [step, if_neg (by decide), if_neg (by decide)]
  simp only [hscan, Option.none_or, hparent]

/-- The test behind a tag does nothing if the last child is no include element. -/
theorem includeLast_quiet
    (h : ∀ last ∈ (s.nodes.cell s.node).last, (s.nodes.cell last).data.key ≠ includeKey) :
    s.includeLast files parse path = .ok s := by
  unfold includeLast
  cases hlast : (s.nodes.cell s.node).last with
  | none => rfl
  | some last => exact if_neg (h last hlast)

/-- A start tag without attributes. -/
theorem goes_open {k : Text} (hk : IsName k)
    (hletter : ∃ ch rest, k = ch :: rest ∧ ch.isAlpha = true) (hroom : 1024 ≤ s.is.capacity)
    (hlast : ((registryAdd s.setText.nodes s.setText.node (cString k)).cell
      s.setText.nodes.size).last = none) :
    Goes fresh files parse path s (startTag k)
      { s.setText with
        is := { s.setText.is with buf := [] }
        nodes := registryAdd s.setText.nodes s.setText.node (cString k)
        node := s.setText.nodes.size } := by
  refine goes_markup fun rest line => ?_
  obtain ⟨ch, w, rfl, halpha⟩ := hletter
  have hwhole : ch :: (w ++ ['>'] ++ rest) = (ch :: w) ++ '>' :: rest := by simp
  obtain ⟨line', htag⟩ := @scanTag_eq fresh path
    { s.setText.is with
      file := w ++ ['>'] ++ rest
      line := if ch = '\n' then line + 1 else line } rest (ch :: w) ch hk
    (by rw [setText_room]; exact hroom) hwhole
  have hscan : scanMarkup fresh path (s.setText.behind (ch :: w ++ ['>'] ++ rest) line).is = _ :=
    scanMarkup_start rfl (ne_of_isAlpha halpha) htag
  refine ⟨line', ?_⟩
  rw [step_tag (by rw [setText_behind]; exact hscan), setText_behind]
  refine includeLast_quiet fun last hmem => ?_
  have hnone : (none : Option ℕ) = some last := hlast.symm.trans hmem
  cases hnone

/-- A closed tag with attributes. -/
theorem goes_closedTag {k : Text} {qs : List Quoted} (hk : IsName k)
    (hletter : ∃ ch rest, k = ch :: rest ∧ ch.isAlpha = true) (hqs : ∀ q ∈ qs, q.Fits)
    (hroom : 1024 ≤ s.is.capacity)
    (hlast : ∀ last ∈ ((addTag s.setText.nodes s.setText.node
        ⟨cString k, qs.map Quoted.attr, true⟩).1.cell s.setText.node).last,
      ((addTag s.setText.nodes s.setText.node
        ⟨cString k, qs.map Quoted.attr, true⟩).1.cell last).data.key ≠ includeKey) :
    Goes fresh files parse path s (closedTag k qs)
      { s.setText with
        is := { s.setText.is with buf := [] }
        nodes := (addTag s.setText.nodes s.setText.node
          ⟨cString k, qs.map Quoted.attr, true⟩).1 } := by
  refine goes_markup fun rest line => ?_
  obtain ⟨ch, w, rfl, halpha⟩ := hletter
  have hwhole : ch :: (w ++ qs.flatMap Quoted.text ++ ['/', '>'] ++ rest) =
      (ch :: w) ++ (qs.flatMap Quoted.text ++ '/' :: '>' :: rest) := by simp
  obtain ⟨line', htag⟩ := @scanTag_closed fresh path
    { s.setText.is with
      file := w ++ qs.flatMap Quoted.text ++ ['/', '>'] ++ rest
      line := if ch = '\n' then line + 1 else line } rest (ch :: w) qs ch hk hqs
    (by rw [setText_room]; exact hroom) hwhole
  have hscan : scanMarkup fresh path
      (s.setText.behind (ch :: w ++ qs.flatMap Quoted.text ++ ['/', '>'] ++ rest) line).is = _ :=
    scanMarkup_start rfl (ne_of_isAlpha halpha) htag
  refine ⟨line', ?_⟩
  rw [step_tag (by rw [setText_behind]; exact hscan), setText_behind]
  exact includeLast_quiet hlast

/-- An end tag. -/
theorem goes_endTag {k : Text} (hk : IsName k) (hroom : 1024 ≤ s.is.capacity) {parent : ℕ}
    (hparent : (s.setText.nodes.cell s.setText.node).parent = some parent)
    (hlast : ∀ last ∈ (s.setText.nodes.cell parent).last,
      (s.setText.nodes.cell last).data.key ≠ includeKey) :
    Goes fresh files parse path s (endTag k)
      { s.setText with is := { s.setText.is with buf := k }, node := parent } := by
  refine goes_markup fun rest line => ?_
  obtain ⟨line', hscan⟩ := @scanMarkup_endTag fresh path
    (s.setText.behind ('/' :: k ++ ['>'] ++ rest) line).is rest k hk
    (by rw [behind, setText_room]; exact hroom) (by simp [behind])
  refine ⟨line', ?_⟩
  rw [step_endTag (by rw [setText_behind]; exact hscan) (by rw [setText_behind]; exact hparent),
    setText_behind]
  exact includeLast_quiet hlast

/-- Whether the loop takes a character for white space. -/
def isBlank (ch : Char) : Bool := ch = ' ' ∨ ch = '\t' ∨ ch = '\n' ∨ ch = '\x0c'

/-- Text up to the next tag. -/
theorem goes_text {text : Text} (htext : ∀ ch ∈ text, ch ≠ '<')
    (hroom : s.is.buf.length + text.length + 1 < s.is.capacity) :
    Goes fresh files parse path s text
      { s with
        is := { s.is with buf := s.is.buf ++ text }
        spaceOnly := s.spaceOnly && text.all isBlank } := by
  induction text generalizing s with
  | nil =>
      intro rest line
      exact ⟨0, line, by simpa [behind] using Runs.refl (s.behind rest line)⟩
  | cons ch text ih =>
      rw [List.length_cons] at hroom
      intro rest line
      have hread : bufRead (s.behind (ch :: text ++ rest) line).is = (some ch,
          { s.is with
            file := text ++ rest
            line := if ch = '\n' then line + 1 else line }) := rfl
      have happend (file : Text) (line : ℕ) :
          bufAppend fresh { s.is with file := file, line := line } ch =
            { s.is with file := file, line := line, buf := s.is.buf ++ [ch] } :=
        bufAppend_eq (by simp only; omega) ch
      have hone (line : ℕ) : Parser.step fresh files parse path
          { s with is := { s.is with file := text ++ rest, line := line } } ch =
            .ok (Parser.behind { s with
              is := { s.is with buf := s.is.buf ++ [ch] }
              spaceOnly := s.spaceOnly && isBlank ch } (text ++ rest) line) := by
        have hne : ch ≠ '<' := htext ch List.mem_cons_self
        by_cases hblank : ch = ' ' ∨ ch = '\t' ∨ ch = '\n' ∨ ch = '\x0c'
        · rw [step, if_pos hblank]
          simp [happend, behind, isBlank, hblank]
        · rw [step, if_neg hblank, if_pos hne]
          simp [happend, behind, isBlank, hblank]
      obtain ⟨n, line', hruns⟩ := @ih { s with
          is := { s.is with buf := s.is.buf ++ [ch] }
          spaceOnly := s.spaceOnly && isBlank ch }
        (fun x hx => htext x (List.mem_cons_of_mem _ hx))
        (by simp only [List.length_append, List.length_singleton]; omega) rest
        (if ch = '\n' then line + 1 else line)
      refine ⟨n + 1, line', .step hread (hone _) ?_⟩
      simpa [behind, Bool.and_assoc] using hruns

end Parser

/-! ## The children of the element -/

/-- The node at `c`, which was added last in the nodes `base`, has these settings as its
children, and nothing else has changed. -/
structure Holds (base : Nodes) (c : ℕ) (qs : List Quoted) (nodes : Nodes) : Prop where
  lt : c < nodes.size
  kids : nodes.Segment True none (settings qs) (nodes.cell c).first (nodes.cell c).last (c + 1)
    nodes.size
  key : (nodes.cell c).data.key = (base.cell c).data.key
  parent : (nodes.cell c).parent = (base.cell c).parent
  before : ∀ q < c, nodes.cell q = base.cell q

section

variable {base nodes : Nodes} {c : ℕ} {qs : List Quoted}

theorem Holds.setValue (hh : Holds base c qs nodes) (value : Text) :
    Holds base c qs (setValue nodes c value) := by
  have hcell : (ModCaucho.setValue nodes c value).cell c =
      { nodes.cell c with data := { (nodes.cell c).data with value := some value } } := by
    simp [ModCaucho.setValue]
  have hother {q : ℕ} (hq : q ≠ c) : (ModCaucho.setValue nodes c value).cell q = nodes.cell q := by
    simp [ModCaucho.setValue, hq]
  refine ⟨hh.lt, ?_, ?_, ?_, fun q hq => ?_⟩
  · rw [hcell]
    exact hh.kids.frame fun q hq _ => .of_eq (hother (by omega))
  · rw [hcell]
    exact hh.key
  · rw [hcell]
    exact hh.parent
  · rw [hother (by omega)]
    exact hh.before q hq

/-- A child with a value is added at once. -/
theorem addAttribute_eq {node : ℕ} {attr : Attr} {value : Text} (hid : attr.name ≠ "id".toList)
    (hvalue : attr.value = some value) (hnode : node < nodes.size)
    (hlast : ∀ z, (nodes.cell node).last = some z → node < z ∧ z < nodes.size) :
    addAttribute nodes node attr = nodes.addLast node ⟨attr.name, some value⟩ := by
  rw [addAttribute, if_neg hid, hvalue]
  exact Heap.addLast_modify hnode (fun z hz => (hlast z hz).2) ⟨attr.name, none⟩
    fun data => { data with value := some value }

theorem Holds.addAttribute (hh : Holds base c qs nodes) {q : Quoted}
    (hid : cString q.name ≠ "id".toList) :
    Holds base c (qs ++ [q]) (addAttribute nodes c q.attr) := by
  have hlast (z : ℕ) (hz : (nodes.cell c).last = some z) : c < z ∧ z < nodes.size := by
    have hb := hh.kids.last_bounds hz
    omega
  rw [addAttribute_eq hid rfl hh.lt hlast]
  have hself : (nodes.cell c).last ≠ some c := fun hz => absurd (hlast c hz).1 (Nat.lt_irrefl c)
  have hcell := Heap.addLast_cell_self hh.lt hself ⟨q.attr.name, some (cString q.value)⟩
  refine ⟨?_, ?_, ?_, ?_, fun p hp => ?_⟩
  · rw [Heap.addLast_size]
    exact Nat.lt_succ_of_lt hh.lt
  · rw [settings_append]
    exact hh.kids.addLeaf hh.lt _
  · rw [hcell]
    exact hh.key
  · rw [hcell]
    exact hh.parent
  · have hlt := hh.lt
    rw [Heap.addLast_cell_other (by omega) (by omega) (fun hz => ?_) _]
    · exact hh.before p hp
    · have := hlast p hz
      omega

theorem Holds.addAttributes (hh : Holds base c qs nodes) {qs' : List Quoted}
    (hid : ∀ q ∈ qs', cString q.name ≠ "id".toList) :
    Holds base c (qs ++ qs') ((qs'.map Quoted.attr).foldl
      (fun nodes attr => ModCaucho.addAttribute nodes c attr) nodes) := by
  induction qs' generalizing qs nodes with
  | nil => simpa using hh
  | cons q qs' ih =>
      rw [List.append_cons]
      exact ih (hh.addAttribute (hid q List.mem_cons_self))
        fun q' hq' => hid q' (List.mem_cons_of_mem _ hq')

/-- The child that was added last. -/
theorem Holds.last_child (hh : Holds base c qs nodes) {q : Quoted}
    (hid : cString q.name ≠ "id".toList) :
    ((ModCaucho.addAttribute nodes c q.attr).cell c).last = some nodes.size ∧
      ((ModCaucho.addAttribute nodes c q.attr).cell nodes.size).data.key = cString q.name ∧
      ((ModCaucho.addAttribute nodes c q.attr).cell nodes.size).parent = some c := by
  have hlast (z : ℕ) (hz : (nodes.cell c).last = some z) : c < z ∧ z < nodes.size := by
    have hb := hh.kids.last_bounds hz
    omega
  have hself : (nodes.cell c).last ≠ some c := fun hz => absurd (hlast c hz).1 (Nat.lt_irrefl c)
  rw [addAttribute_eq hid rfl hh.lt hlast, Heap.addLast_cell_self hh.lt hself,
    Heap.addLast_cell_size hh.lt fun z hz => (hlast z hz).2]
  exact ⟨rfl, rfl, rfl⟩

end

namespace Parser

/-- The parser is below the node at `c`, which has these settings. -/
structure Inside (before base : Nodes) (c : ℕ) (qs : List Quoted) (s : Parser) : Prop where
  keeps : s.Keeps before
  room : 1024 ≤ s.is.capacity
  node_eq : s.node = c
  holds : Holds base c qs s.nodes

variable {fresh : Fresh} {files : Files} {path : Text} {before base : Nodes} {c : ℕ}
  {parse : Text → Text → Nodes → Option Text → Except Stop Parsed} {s : Parser} {q : Quoted}
  {qs : List Quoted}

theorem Inside.setText (hs : s.Inside before base c qs) : s.setText.Inside before base c qs := by
  refine ⟨setText_keeps hs.keeps, by rw [setText_room]; exact hs.room, ?_, ?_⟩
  · unfold Parser.setText
    split
    · exact hs.node_eq
    · split <;> exact hs.node_eq
  · unfold Parser.setText
    split
    · exact hs.holds
    · split
      · rw [hs.node_eq]
        exact hs.holds.setValue _
      · exact hs.holds

/-- A setting that is written as an attribute of an element of its own. -/
theorem goes_id (hparse : ParseKeeps parse) (hs : s.Inside before base c qs) (hq : IsSetting q) :
    ∃ s', Goes fresh files parse path s (closedTag q.name [⟨"id".toList, q.value, q.quote⟩]) s' ∧
      s'.Inside before base c (qs ++ [q]) := by
  have ht := hs.setText
  have hid : IsName "id".toList :=
    ⟨by decide, by decide, List.all_iff_forall_prop.mp (by decide)⟩
  have hfits : ∀ q' ∈ [Quoted.mk "id".toList q.value q.quote], q'.Fits := by
    intro q' hq'
    rw [List.mem_singleton.mp hq']
    exact ⟨hid, hq.fits.quote, hq.fits.short, hq.fits.value⟩
  -- the value goes to the new node, as for an attribute of the node above
  have hnodes : (addTag s.setText.nodes s.setText.node ⟨cString q.name,
      [Quoted.mk "id".toList q.value q.quote].map Quoted.attr, true⟩).1 =
        addAttribute s.setText.nodes c q.attr := by
    have hname : cString "id".toList = "id".toList := by decide
    rw [ht.node_eq, addAttribute, if_neg (show q.attr.name ≠ _ from hq.ne_id)]
    simp only [addTag, List.map_cons, List.map_nil, List.foldl_cons, List.foldl_nil,
      addAttribute, Quoted.attr, hname, if_true]
  obtain ⟨hlast, hkey, -⟩ := ht.holds.last_child hq.ne_id
  have hgoes := @goes_closedTag fresh files path parse s q.name
    [⟨"id".toList, q.value, q.quote⟩] hq.fits.name hq.letter hfits hs.room (by
      rw [hnodes, ht.node_eq, hlast]
      intro last hmem
      rw [← Option.some_inj.mp hmem, hkey]
      exact hq.ne_include)
  rw [hnodes] at hgoes
  exact ⟨_, hgoes, hgoes.keeps hparse hs.keeps, hgoes.room hs.room, ht.node_eq,
    ht.holds.addAttribute hq.ne_id⟩

/-- A setting that is written as an element with a text. -/
theorem goes_element (hparse : ParseKeeps parse) (hs : s.Inside before base c qs)
    (hq : IsSetting q) :
    ∃ s', Goes fresh files parse path s (startTag q.name ++ q.value ++ endTag q.name) s' ∧
      s'.Inside before base c (qs ++ [q]) := by
  have ht := hs.setText
  have hvalue := hq.fits.short
  have hroom := ht.room
  have hbounds (z : ℕ) (hz : (s.setText.nodes.cell c).last = some z) :
      c < z ∧ z < s.setText.nodes.size := by
    have hb := ht.holds.kids.last_bounds hz
    omega
  have hchild := Heap.addLast_cell_size ht.holds.lt (fun z hz => (hbounds z hz).2)
    ⟨cString q.name, none⟩
  obtain ⟨hlast, hkey, hparent⟩ := ht.holds.last_child hq.ne_id
  have hopen := @goes_open fresh files path parse s q.name hq.fits.name hq.letter hs.room (by
    rw [ht.node_eq, registryAdd, hchild])
  rw [ht.node_eq] at hopen
  have htext := @goes_text fresh files path parse
    { s.setText with
      is := { s.setText.is with buf := [] }
      nodes := registryAdd s.setText.nodes c (cString q.name)
      node := s.setText.nodes.size } q.value hq.text (by
        simp only [List.length_nil]
        omega)
  obtain ⟨ch, hch, hsolid⟩ := hq.solid
  have hseen : (s.setText.spaceOnly && q.value.all isBlank) = false := by
    rw [Bool.and_eq_false_iff, List.all_eq_false]
    exact Or.inr ⟨ch, hch, by simpa [isBlank] using hsolid⟩
  simp only [hseen, List.nil_append] at htext
  -- the text becomes the value of the new node, which has none and no children
  have hset : setText
      { s.setText with
        is := { s.setText.is with buf := q.value }
        spaceOnly := false
        nodes := registryAdd s.setText.nodes c (cString q.name)
        node := s.setText.nodes.size } =
      { s.setText with
        is := { s.setText.is with buf := q.value }
        spaceOnly := false
        nodes := addAttribute s.setText.nodes c q.attr
        node := s.setText.nodes.size } := by
    rw [setText_text rfl (by simp only [registryAdd, hchild, and_self]), addAttribute,
      if_neg (show q.attr.name ≠ _ from hq.ne_id)]
    rfl
  have hend := @goes_endTag fresh files path parse
    { s.setText with
      is := { s.setText.is with buf := q.value }
      spaceOnly := false
      nodes := registryAdd s.setText.nodes c (cString q.name)
      node := s.setText.nodes.size } q.name hq.fits.name hroom c
    (by rw [hset]; exact hparent) (by
      rw [hset, hlast]
      intro last hmem
      rw [← Option.some_inj.mp hmem, hkey]
      exact hq.ne_include)
  rw [hset] at hend
  have hgoes := (hopen.trans htext).trans hend
  exact ⟨_, hgoes, hgoes.keeps hparse hs.keeps, hgoes.room hs.room, rfl,
    ht.holds.addAttribute hq.ne_id⟩

/-- Settings that are written one after the other. -/
theorem goes_all {write : Quoted → Text}
    (hone : ∀ q, IsSetting q → ∀ s qs, Inside before base c qs s →
      ∃ s', Goes fresh files parse path s (write q) s' ∧ s'.Inside before base c (qs ++ [q]))
    {qs' : List Quoted} (hqs : ∀ q ∈ qs', IsSetting q) (hs : s.Inside before base c qs) :
    ∃ s', Goes fresh files parse path s (qs'.flatMap write) s' ∧
      s'.Inside before base c (qs ++ qs') := by
  induction qs' generalizing s qs with
  | nil =>
      refine ⟨s, fun rest line => ⟨0, line, .refl _⟩, ?_⟩
      rw [List.append_nil]
      exact hs
  | cons q qs' ih =>
      obtain ⟨s₁, hgoes, hs₁⟩ := hone q (hqs q List.mem_cons_self) s qs hs
      obtain ⟨s₂, hgoes', hs₂⟩ := ih (fun q' hq' => hqs q' (List.mem_cons_of_mem _ hq')) hs₁
      rw [List.append_cons]
      exact ⟨s₂, hgoes.trans hgoes', hs₂⟩

/-! ## The element around them -/

/-- The nodes when the element was begun. -/
def begun (s : Parser) (foo : Text) : Nodes :=
  registryAdd s.setText.nodes s.setText.node (cString foo)

theorem setText_same (s : Parser) :
    s.setText.node = s.node ∧ s.setText.nodes.size = s.nodes.size := by
  unfold Parser.setText
  split
  · exact ⟨rfl, rfl⟩
  · split <;> exact ⟨rfl, rfl⟩

/-- The node of the element is the last child where the parser stands, without children. -/
structure Begun (before : Nodes) (s : Parser) (foo : Text) : Prop where
  ordered : (s.begun foo).Ordered before.size
  size : (s.begun foo).size = s.nodes.size + 1
  key : ((s.begun foo).cell s.nodes.size).data.key = cString foo
  parent : ((s.begun foo).cell s.nodes.size).parent = some s.node
  first : ((s.begun foo).cell s.nodes.size).first = none
  last : ((s.begun foo).cell s.nodes.size).last = none
  last_child : ((s.begun foo).cell s.node).last = some s.nodes.size

theorem begun_spec (hs : s.Keeps before) (foo : Text) : Begun before s foo := by
  have ht := setText_keeps hs
  have hlast (z : ℕ) (hz : (s.setText.nodes.cell s.setText.node).last = some z) :=
    (ht.ordered _ ht.node_ge ht.node_lt).last z hz
  have hself : (s.setText.nodes.cell s.setText.node).last ≠ some s.setText.node :=
    fun hz => absurd (hlast _ hz).1 (Nat.lt_irrefl _)
  have hchild := Heap.addLast_cell_size ht.node_lt (fun z hz => (hlast z hz).2) ⟨cString foo, none⟩
  have hcell := Heap.addLast_cell_self ht.node_lt hself ⟨cString foo, none⟩
  have hordered := ht.ordered.addLast ht.node_ge ht.node_lt ⟨cString foo, none⟩
  obtain ⟨hnode, hsize⟩ := setText_same s
  rw [hsize] at hchild hcell
  refine ⟨hordered, ?_, ?_, ?_, ?_, ?_, ?_⟩
  · rw [begun, registryAdd, Heap.addLast_size, hsize]
  · rw [begun, registryAdd, hchild]
  · rw [begun, registryAdd, hchild, hnode]
  · rw [begun, registryAdd, hchild]
  · rw [begun, registryAdd, hchild]
  · rw [begun, registryAdd, ← hnode, hcell]

/-- The parser is behind the element, at the node where it was in front of it. -/
structure Behind (before : Nodes) (s : Parser) (foo : Text) (qs : List Quoted) (s' : Parser) :
    Prop where
  keeps : s'.Keeps before
  node_eq : s'.node = s.node
  holds : Holds (s.begun foo) s.nodes.size qs s'.nodes

theorem begun_holds (hs : s.Keeps before) (foo : Text) :
    Holds (s.begun foo) s.nodes.size [] (s.begun foo) := by
  have hbegun := begun_spec hs foo
  refine ⟨by rw [hbegun.size]; exact Nat.lt_succ_self _, ?_, rfl, rfl, fun _ _ => rfl⟩
  rw [hbegun.first, hbegun.last, hbegun.size]
  exact ⟨rfl, rfl, Nat.le_refl _⟩

/-- The last child where the parser stands is the element. -/
theorem holds_last_ne {foo : Text} (hs : s.Keeps before) (hfoo : IsElement foo) {nodes : Nodes}
    (hh : Holds (s.begun foo) s.nodes.size qs nodes) :
    ∀ last ∈ (nodes.cell s.node).last, (nodes.cell last).data.key ≠ includeKey := by
  have hbegun := begun_spec hs foo
  intro last hmem
  rw [hh.before s.node hs.node_lt, hbegun.last_child] at hmem
  rw [← Option.some_inj.mp hmem, hh.key, hbegun.key]
  exact hfoo.ne_include

/-- An element whose settings stand between its tags. -/
theorem goes_between (hparse : ParseKeeps parse) (hs : s.Keeps before)
    (hroom : 1024 ≤ s.is.capacity) {foo : Text} (hfoo : IsElement foo) {write : Quoted → Text}
    (hone : ∀ q, IsSetting q → ∀ s₁ qs, Inside before (s.begun foo) s.nodes.size qs s₁ →
      ∃ s₂, Goes fresh files parse path s₁ (write q) s₂ ∧
        s₂.Inside before (s.begun foo) s.nodes.size (qs ++ [q]))
    (hqs : ∀ q ∈ qs, IsSetting q) :
    ∃ s', Goes fresh files parse path s (startTag foo ++ qs.flatMap write ++ endTag foo) s' ∧
      Behind before s foo qs s' := by
  have hbegun := begun_spec hs foo
  obtain ⟨hnode, hsize⟩ := setText_same s
  have hopen := @goes_open fresh files path parse s foo hfoo.name hfoo.letter hroom
    (by rw [hsize]; exact hbegun.last)
  have hinside := Inside.mk (hopen.keeps hparse hs) (hopen.room hroom) hsize (begun_holds hs foo)
  obtain ⟨s₁, hall, hs₁⟩ := goes_all hone hqs hinside
  rw [List.nil_append] at hs₁
  have ht := hs₁.setText
  have hend := @goes_endTag fresh files path parse s₁ foo hfoo.name hs₁.room s.node
    (by rw [ht.node_eq, ht.holds.parent, hbegun.parent]) (holds_last_ne hs hfoo ht.holds)
  have hgoes := (hopen.trans hall).trans hend
  exact ⟨_, hgoes, hgoes.keeps hparse hs, rfl, ht.holds⟩

/-- Each spelling gives the element the same children. -/
theorem goes_write (hparse : ParseKeeps parse) (hs : s.Keeps before)
    (hroom : 1024 ≤ s.is.capacity) {foo : Text} (hfoo : IsElement foo)
    (hqs : ∀ q ∈ qs, IsSetting q) (form : Spelling) :
    ∃ s', Goes fresh files parse path s (form.write foo qs) s' ∧ Behind before s foo qs s' := by
  cases form with
  | elements =>
      exact goes_between hparse hs hroom hfoo (fun q hq s₁ qs hs₁ => goes_element hparse hs₁ hq) hqs
  | ids =>
      exact goes_between hparse hs hroom hfoo (fun q hq s₁ qs hs₁ => goes_id hparse hs₁ hq) hqs
  | attributes =>
      obtain ⟨hnode, hsize⟩ := setText_same s
      have hholds : Holds (s.begun foo) s.nodes.size qs
          (addTag s.setText.nodes s.setText.node
            ⟨cString foo, qs.map Quoted.attr, true⟩).1 := by
        have hadded := (begun_holds hs foo).addAttributes fun q hq => (hqs q hq).ne_id
        rw [← hsize] at hadded ⊢
        exact hadded
      have hlast : ∀ last ∈ ((addTag s.setText.nodes s.setText.node
            ⟨cString foo, qs.map Quoted.attr, true⟩).1.cell s.setText.node).last,
          ((addTag s.setText.nodes s.setText.node
            ⟨cString foo, qs.map Quoted.attr, true⟩).1.cell last).data.key ≠ includeKey := by
        have hquiet := holds_last_ne hs hfoo hholds
        rwa [← hnode] at hquiet
      have hgoes := @goes_closedTag fresh files path parse s foo qs hfoo.name hfoo.letter
        (fun q hq => (hqs q hq).fits) hroom hlast
      exact ⟨_, hgoes, hgoes.keeps hparse hs, hnode, hholds⟩

/-- The element is finished when the parser is behind it. -/
theorem Behind.seals {foo : Text} {s' : Parser} (hs : s.Keeps before)
    (hb : Behind before s foo qs s') :
    s'.Seals before s'.nodes s.nodes.size s'.nodes.size := by
  have hbegun := begun_spec hs foo
  have hnode := hs.node_lt
  refine ⟨hb.keeps, ⟨Nat.le_refl _, fun _ _ _ => rfl, ⟨rfl, rfl, rfl⟩, fun q hq hq' hout => ?_⟩, ?_⟩
  · have hlt : q < s.nodes.size := by omega
    rw [hb.holds.before q hlt]
    have hc := hbegun.ordered q hq (by rw [hbegun.size]; omega)
    rw [hbegun.size] at hc
    refine ⟨fun r hr => ?_, fun r hr => ?_, fun r hr => ?_, fun r hr => ?_, fun r hr => ?_⟩
    · have := hc.parent r hr
      omega
    · have := hc.prev r hr
      omega
    · have := hc.next r hr
      omega
    · have := hc.first r hr
      omega
    · have := hc.last r hr
      omega
  · rw [hb.node_eq]
    omega

end Parser

/-! ## In a document -/

/-- Behind the prefix of a document the parser is in element content, in this state but for
what follows. -/
def InContent (fresh : Fresh) (files : Files) (depth : ℕ) (path : Text) (nodes : Nodes)
    (error : Option Text) (pre : Text) (s : Parser) : Prop :=
  ∀ rest, ∃ n line, Parser.Runs fresh files (cseParse fresh files depth) path n
    (.start (pre ++ rest) nodes error) (s.behind rest line)

/-- Looking for a key in the children that are read. -/
theorem findValueAt_settings {nodes : Nodes} {qs : List Quoted} {o l : Option ℕ} {fuel : ℕ}
    (h : nodes.Reads (settings qs) o l) (hfuel : qs.length ≤ fuel) (key : Text) :
    findValueAt nodes key fuel o = cseFindValue (settings qs) key := by
  induction qs generalizing o l fuel with
  | nil =>
      rw [h.1]
      cases fuel <;> rfl
  | cons q qs ih =>
      obtain ⟨p, m, rfl, -, hdata, -, hnext⟩ := h
      cases fuel with
      | zero => cases hfuel
      | succ fuel =>
          rw [List.length_cons, Nat.succ_le_succ_iff] at hfuel
          rw [findValueAt, settings, cseFindValue, hdata, ih hnext hfuel]

/-- `cse_next_link` on the nodes -/
def nextLinkAt (nodes : Nodes) (key : Text) : ℕ → Option ℕ → Option ℕ
  | fuel + 1, some p =>
      if (nodes.cell p).data.key = key then some p
      else nextLinkAt nodes key fuel (nodes.cell p).next
  | _, _ => none

/-- The link behind which the later settings are. -/
theorem nextLinkAt_settings {nodes : Nodes} {qs : List Quoted} {o l : Option ℕ} {fuel : ℕ}
    (h : nodes.Reads (settings qs) o l) (hfuel : qs.length ≤ fuel) (key : Text) :
    ∃ l', nodes.Reads (cseNextLink (settings qs) key) (nextLinkAt nodes key fuel o) l' := by
  induction qs generalizing o l fuel with
  | nil =>
      rw [h.1]
      cases fuel <;> exact ⟨none, rfl, rfl⟩
  | cons q qs ih =>
      have hreads := h
      obtain ⟨p, m, rfl, -, hdata, -, hnext⟩ := h
      cases fuel with
      | zero => cases hfuel
      | succ fuel =>
          rw [List.length_cons, Nat.succ_le_succ_iff] at hfuel
          rw [nextLinkAt, settings, cseNextLink, hdata]
          by_cases hkey : cString q.name = key
          · rw [if_pos hkey, if_pos hkey]
            exact ⟨l, hreads⟩
          · rw [if_neg hkey, if_neg hkey]
            exact ih hnext hfuel

/-- The node is an element with these settings as its children, which have no children, and
the settings and their values are found there. -/
structure HasSettings (nodes : Nodes) (p : ℕ) (foo : Text) (qs : List Quoted) : Prop where
  key : (nodes.cell p).data.key = cString foo
  kids : nodes.Reads (settings qs) (nodes.cell p).first (nodes.cell p).last
  finds : ∀ key fuel, qs.length ≤ fuel →
    findValueAt nodes key fuel (nodes.cell p).first = cseFindValue (settings qs) key
  links : ∀ key fuel, qs.length ≤ fuel → ∃ l, nodes.Reads (cseNextLink (settings qs) key)
    (nextLinkAt nodes key fuel (nodes.cell p).first) l

theorem HasSettings.of_reads {nodes : Nodes} {p : ℕ} {foo : Text} {qs : List Quoted}
    (hkey : (nodes.cell p).data.key = cString foo)
    (hkids : nodes.Reads (settings qs) (nodes.cell p).first (nodes.cell p).last) :
    HasSettings nodes p foo qs :=
  ⟨hkey, hkids, fun key _ hfuel => findValueAt_settings hkids hfuel key,
    fun key _ hfuel => nextLinkAt_settings hkids hfuel key⟩

/-- Among the children of the node, with so many of them, `cse_find_value` and `cse_next_link`
find the same for every key. -/
structure SameAnswers (nodes nodes' : Nodes) (p n : ℕ) : Prop where
  finds : ∀ key fuel, n ≤ fuel →
    findValueAt nodes key fuel (nodes.cell p).first =
      findValueAt nodes' key fuel (nodes'.cell p).first
  links : ∀ key fuel, n ≤ fuel → ∃ found l l',
    nodes.Reads found (nextLinkAt nodes key fuel (nodes.cell p).first) l ∧
      nodes'.Reads found (nextLinkAt nodes' key fuel (nodes'.cell p).first) l'

theorem HasSettings.sameAnswers {nodes nodes' : Nodes} {p : ℕ} {foo : Text} {qs : List Quoted}
    (h : HasSettings nodes p foo qs) (h' : HasSettings nodes' p foo qs) :
    SameAnswers nodes nodes' p qs.length where
  finds key fuel hfuel := (h.finds key fuel hfuel).trans (h'.finds key fuel hfuel).symm
  links key fuel hfuel := by
    obtain ⟨l, hl⟩ := h.links key fuel hfuel
    obtain ⟨l', hl'⟩ := h'.links key fuel hfuel
    exact ⟨_, l, l', hl, hl'⟩

section

variable {fresh : Fresh} {files : Files} {depth : ℕ} {path : Text} {nodes : Nodes}
  {error : Option Text} {pre : Text} {s : Parser}

theorem InContent.keeps (h : InContent fresh files depth path nodes error pre s) :
    s.Keeps nodes ∧ 1024 ≤ s.is.capacity := by
  obtain ⟨n, line, hruns⟩ := h []
  have hkeeps := hruns.keeps (cseParse_keeps fresh files depth) (Parser.start_keeps _ error)
  exact ⟨hkeeps.moved s.is, hruns.length_le.2⟩

/-- The parser goes on from the state behind a prefix. -/
theorem InContent.parseFile_eq (h : InContent fresh files depth path nodes error pre s)
    (rest : Text) :
    ∃ fuel line, parseFile fresh files (cseParse fresh files depth) path (pre ++ rest) nodes error =
      (s.behind rest line).loop fresh files (cseParse fresh files depth) path fuel := by
  obtain ⟨n, line, hruns⟩ := h rest
  have hlength : n + rest.length ≤ (pre ++ rest).length := hruns.length_le.1
  refine ⟨(pre ++ rest).length + 1 - n, line, ?_⟩
  rw [← hruns.loop_eq, parseFile, Nat.add_sub_cancel' (by omega)]

/-- Text behind the prefix. -/
theorem InContent.goes (h : InContent fresh files depth path nodes error pre s) {text : Text}
    {s' : Parser} (hgoes : Parser.Goes fresh files (cseParse fresh files depth) path s text s') :
    InContent fresh files depth path nodes error (pre ++ text) s' := by
  intro rest
  obtain ⟨m, line, hruns⟩ := h (text ++ rest)
  obtain ⟨n, line', hruns'⟩ := hgoes rest line
  rw [List.append_assoc]
  exact ⟨m + n, line', hruns.trans hruns'⟩

/-- Behind the text that begins in one state the parser is in another one, at the node where
it was. Its last child is an element with these settings, and the element has them in the
registry that is returned, whatever follows. -/
structure Spelled (fresh : Fresh) (files : Files) (depth : ℕ) (path : Text) (nodes : Nodes)
    (error : Option Text) (text : Text) (s : Parser) (foo : Text) (qs : List Quoted)
    (s' : Parser) : Prop where
  content : InContent fresh files depth path nodes error text s'
  node_eq : s'.node = s.node
  last_eq : (s'.nodes.cell s.node).last = some s.nodes.size
  settings : HasSettings s'.nodes s.nodes.size foo qs
  returned : ∀ rest r, cseParse fresh files (depth + 1) path (text ++ rest) nodes error = .ok r →
    HasSettings r.nodes s.nodes.size foo qs

/-- An element in one of the spellings, behind any prefix. -/
theorem InContent.spelled {foo : Text} {qs : List Quoted}
    (hpre : InContent fresh files depth path nodes error pre s) (hfoo : IsElement foo)
    (hqs : ∀ q ∈ qs, IsSetting q) (form : Spelling) :
    ∃ s', Spelled fresh files depth path nodes error (pre ++ form.write foo qs) s foo qs s' := by
  obtain ⟨hs, hroom⟩ := hpre.keeps
  have hparse := cseParse_keeps fresh files depth
  have hbegun := Parser.begun_spec hs foo
  obtain ⟨s', hgoes, hb⟩ :=
    @Parser.goes_write fresh files path nodes _ s qs hparse hs hroom foo hfoo hqs form
  have hin := hpre.goes hgoes
  have hkey : (s'.nodes.cell s.nodes.size).data.key = cString foo := hb.holds.key.trans hbegun.key
  refine ⟨s', hin, hb.node_eq, ?_, .of_reads hkey hb.holds.kids.reads, fun rest r hr => ?_⟩
  · rw [hb.holds.before s.node hs.node_lt, hbegun.last_child]
  · obtain ⟨fuel, line, hloop⟩ := hin.parseFile_eq rest
    rw [cseParse, hloop] at hr
    rcases hsend : (s'.behind rest line).loop fresh files (cseParse fresh files depth) path fuel
      with stop | send
    · rw [hsend] at hr
      cases hr
    rw [hsend] at hr
    cases hr
    have hseals := hb.seals hs
    have hmoved : (s'.behind rest line).Seals nodes s'.nodes s.nodes.size s'.nodes.size :=
      ⟨hseals.keeps.moved _, hseals.nodes, hseals.outside⟩
    have hend := Parser.loop_seals hparse hb.holds.lt (by rw [hkey]; exact hfoo.ne_include)
      hmoved hsend
    refine .of_reads ?_ (hend.nodes.reads hb.holds.kids)
    rw [hend.nodes.top.1]
    exact hkey

/-- In whatever way the settings of an element are written, behind any prefix, the element
has the same children and the parser is at the node where it was; and so the element has them
in the registry that is returned, whatever follows, where the same is found for every key. -/
theorem spelling_children {foo : Text} {qs : List Quoted}
    (hpre : InContent fresh files depth path nodes error pre s) (hfoo : IsElement foo)
    (hqs : ∀ q ∈ qs, IsSetting q) :
    ∃ behind : Spelling → Parser,
      (∀ form, Spelled fresh files depth path nodes error (pre ++ form.write foo qs) s foo qs
        (behind form)) ∧
      ∀ (form form' : Spelling) (rest rest' : Text) (r r' : Parsed),
        cseParse fresh files (depth + 1) path (pre ++ form.write foo qs ++ rest) nodes error =
          .ok r →
        cseParse fresh files (depth + 1) path (pre ++ form'.write foo qs ++ rest') nodes error =
          .ok r' →
        SameAnswers r.nodes r'.nodes s.nodes.size qs.length := by
  choose behind hbehind using hpre.spelled hfoo hqs
  exact ⟨behind, hbehind, fun form form' rest rest' r r' hr hr' =>
    ((hbehind form).returned rest r hr).sameAnswers ((hbehind form').returned rest' r' hr')⟩

end

/-- A port and a host. -/
def twoSettings : List Quoted :=
  [⟨"port".toList, "80".toList, '"'⟩, ⟨"host".toList, "a b".toList, '\''⟩]

theorem isSetting_twoSettings : ∀ q ∈ twoSettings, IsSetting q := by
  have hport : IsName "port".toList :=
    ⟨by decide, by decide, List.all_iff_forall_prop.mp (by decide)⟩
  have hhost : IsName "host".toList :=
    ⟨by decide, by decide, List.all_iff_forall_prop.mp (by decide)⟩
  refine List.forall_mem_cons.mpr ⟨?_, List.forall_mem_singleton.mpr ?_⟩
  · exact ⟨⟨hport, by decide, by decide, List.all_iff_forall_prop.mp (by decide)⟩,
      ⟨'p', _, rfl, by decide⟩, by decide, by decide, List.all_iff_forall_prop.mp (by decide),
      ⟨'8', by decide, by decide⟩⟩
  · exact ⟨⟨hhost, by decide, by decide, List.all_iff_forall_prop.mp (by decide)⟩,
      ⟨'h', _, rfl, by decide⟩, by decide, by decide, List.all_iff_forall_prop.mp (by decide),
      ⟨'a', by decide, by decide⟩⟩

/-- Behind a start tag and some text. -/
theorem spelling_children_port :
    ∃ s, InContent (fun _ _ => ' ') (fun _ => none) 0 "/a".toList .empty none
        (startTag "server".toList ++ "some text ".toList) s ∧
      ∃ behind : Spelling → Parser,
        (∀ form, Spelled (fun _ _ => ' ') (fun _ => none) 0 "/a".toList .empty none
          (startTag "server".toList ++ "some text ".toList ++ form.write "http".toList twoSettings)
          s "http".toList twoSettings (behind form)) ∧
        ∀ (form form' : Spelling) (rest rest' : Text) (r r' : Parsed),
          cseParse (fun _ _ => ' ') (fun _ => none) 1 "/a".toList (startTag "server".toList ++
            "some text ".toList ++ form.write "http".toList twoSettings ++ rest) .empty none =
              .ok r →
          cseParse (fun _ _ => ' ') (fun _ => none) 1 "/a".toList (startTag "server".toList ++
            "some text ".toList ++ form'.write "http".toList twoSettings ++ rest') .empty none =
              .ok r' →
          SameAnswers r.nodes r'.nodes s.nodes.size 2 := by
  have hstart : InContent (fun _ _ => ' ') (fun _ => none) 0 "/a".toList .empty none []
      (.start [] .empty none) := fun rest => ⟨0, 1, .refl _⟩
  have hserver : IsName "server".toList :=
    ⟨by decide, by decide, List.all_iff_forall_prop.mp (by decide)⟩
  have hhttp : IsName "http".toList :=
    ⟨by decide, by decide, List.all_iff_forall_prop.mp (by decide)⟩
  have htag := hstart.goes (Parser.goes_open hserver ⟨'s', _, rfl, by decide⟩ (by decide) rfl)
  have htext := htag.goes (@Parser.goes_text _ _ _ _ _ "some text ".toList
    (List.all_iff_forall_prop.mp (by decide)) (by decide))
  exact ⟨_, htext, spelling_children htext ⟨hhttp, ⟨'h', _, rfl, by decide⟩, by decide⟩
    isSetting_twoSettings⟩

end ModCaucho
