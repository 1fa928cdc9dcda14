import ModCaucho.Lib.OpenForest
import ModCaucho.Registry.Parse

/-!
# Building the registry without pointers

What `cse_parse` builds from a file when nothing is included, as a forest under a
cursor. The parser on the nodes refines it: in each step the nodes hold the forest
that is built here.
-/

namespace ModCaucho

open LinkedForest

/-- The variables of `cse_parse`, with the forest in place of the nodes. -/
structure Builder where
  is : Rstream
  spaceOnly : Bool
  cur : Frame Entry
  outer : List (Frame Entry)
deriving DecidableEq

/-- `node->value = value` -/
def Entry.setValue (value : Text) (entry : Entry) : Entry := { entry with value := some value }

/-- The open node with one attribute more. -/
def withAttribute (fr : Frame Entry) (attr : Attr) : Frame Entry :=
  if attr.name = "id".toList then
    match attr.value with
    | some value => { fr with data := fr.data.setValue value }
    | none => fr
  else fr.add (.node ⟨attr.name, attr.value⟩ .nil .nil)

/-- The node of a start tag. -/
def tagFrame (tag : Tag) : Frame Entry := tag.attrs.foldl withAttribute (.fresh ⟨tag.name, none⟩)

namespace Builder

def setText (b : Builder) : Builder :=
  if b.spaceOnly then { b with is := { b.is with buf := [] } }
  else if b.cur.data.value = none ∧ b.cur.kids = .nil then
    { b with cur := { b.cur with data := b.cur.data.setValue (cString b.is.buf) } }
  else b

/-- The cursor is below the node of a start tag, or stays if the tag is closed. -/
def addTag (b : Builder) (tag : Tag) : Builder :=
  if tag.closed then { b with cur := b.cur.add (tagFrame tag).tree }
  else { b with cur := tagFrame tag, outer := b.cur :: b.outer }

/-- The node at the cursor is closed. -/
def close (b : Builder) : Option Builder :=
  match b.outer with
  | [] => none
  | up :: ups => some { b with cur := up.add b.cur.tree, outer := ups }

/-- One round of the loop. -/
def step (fresh : Fresh) (path : Text) (b : Builder) (ch : Char) : Option Builder :=
  if ch = ' ' ∨ ch = '\t' ∨ ch = '\n' ∨ ch = '\x0c' then
    some { b with is := bufAppend fresh b.is ch }
  else if ch ≠ '<' then some { b with is := bufAppend fresh b.is ch, spaceOnly := false }
  else
    let b := b.setText
    match scanMarkup fresh path b.is with
    | (.skipped, _, is) => some { b with is := is }
    | (.tag tag, _, is) => some (addTag { b with is := is } tag)
    | (.endTag, _, is) => close { b with is := is }
    | (.fail, _, _) => none

/-- The loop, with nothing for a file that is rejected. -/
def loop (fresh : Fresh) (path : Text) : ℕ → Builder → Option Builder
  | 0, _ => none
  | fuel + 1, b =>
      match bufRead b.is with
      | (none, is) => some { b with is := is }
      | (some ch, is) => (step fresh path { b with is := is } ch).bind (loop fresh path fuel)

/-- The forest before the file is read. -/
def start (file : Text) : Builder := ⟨.start file, true, .fresh ⟨[], none⟩, []⟩

/-- The tree that the forest makes, with every open node closed. -/
def registry (b : Builder) : Registry := (b.cur.closeAll b.outer).tree

end Builder

/-- What is built from a file. -/
def buildFile (fresh : Fresh) (path file : Text) : Option Builder :=
  Builder.loop fresh path (file.length + 1) (.start file)

/-! ## What a step does to the forest -/

namespace Builder

/-- The open nodes, from the innermost one outwards. -/
def frames (b : Builder) : List (Frame Entry) := b.cur :: b.outer

/-- No child of an open node hangs behind another node. -/
def Plain (b : Builder) : Prop := ∀ fr ∈ b.frames, fr.behind = none

/-- The number of closed nodes with a property. -/
def count (P : Bool → Entry → Registry → Bool) (b : Builder) : ℕ := Frame.count P b.frames

/-- A closed node was added below the innermost open node that is left. -/
structure Closes (b b' : Builder) (fr up : Frame Entry) : Prop where
  cur_eq : b'.cur = up.add fr.tree
  plain : b.Plain → fr.behind = none ∧ b'.Plain
  count_le (P : Bool → Entry → Registry → Bool) : b.count P ≤ Frame.count P (fr :: up :: b'.outer)
  count_eq (P : Bool → Entry → Registry → Bool) (hP : ∀ c entry, P c entry .nil = false) :
    Frame.count P (fr :: up :: b'.outer) = b.count P

theorem step_eq_some {fresh : Fresh} {path : Text} {b b' : Builder} {ch : Char}
    (h : b.step fresh path ch = some b') :
    (b'.cur = b.cur ∧ b'.outer = b.outer) ∨
      ∃ is, b' = { b.setText with is := is } ∨
        (∃ tag, b' = addTag { b.setText with is := is } tag) ∨
        close { b.setText with is := is } = some b' := by
  unfold step at h
  split at h
  · cases h
    exact Or.inl ⟨rfl, rfl⟩
  · split at h
    · cases h
      exact Or.inl ⟨rfl, rfl⟩
    · right
      rcases hscan : scanMarkup fresh path b.setText.is with ⟨markup, error, is⟩
      simp only [hscan] at h
      refine ⟨is, ?_⟩
      cases markup with
      | skipped => exact Or.inl (Option.some_inj.mp h).symm
      | tag tag => exact Or.inr (Or.inl ⟨tag, (Option.some_inj.mp h).symm⟩)
      | endTag => exact Or.inr (Or.inr h)
      | fail => cases h

theorem setText_frames (b : Builder) :
    b.setText.outer = b.outer ∧ b.setText.cur.kids = b.cur.kids ∧
      b.setText.cur.behind = b.cur.behind ∧ b.setText.cur.data.key = b.cur.data.key := by
  unfold setText
  split
  · exact ⟨rfl, rfl, rfl, rfl⟩
  · split <;> exact ⟨rfl, rfl, rfl, rfl⟩

theorem setText_count (P : Bool → Entry → Registry → Bool) (b : Builder) :
    b.setText.count P = b.count P := by
  obtain ⟨houter, hkids, -, -⟩ := b.setText_frames
  simp only [count, frames, Frame.count_cons, houter, hkids]

theorem setText_plain {b : Builder} (h : b.Plain) : b.setText.Plain := by
  obtain ⟨houter, -, hbehind, -⟩ := b.setText_frames
  intro fr hfr
  rcases List.mem_cons.mp hfr with rfl | hmem
  · exact hbehind.trans (h _ List.mem_cons_self)
  · exact h fr (List.mem_cons_of_mem _ (houter ▸ hmem))

end Builder

/-- The attributes of a tag are plain nodes without children. -/
theorem tagFrame_spec (tag : Tag) :
    (tagFrame tag).behind = none ∧ (tagFrame tag).data.key = tag.name ∧
      ∀ P : Bool → Entry → Registry → Bool, (∀ c entry, P c entry .nil = false) →
        (tagFrame tag).kids.count P true = 0 := by
  have hfold (attrs : List Attr) (fr : Frame Entry) (hbehind : fr.behind = none)
      (hcount : ∀ P : Bool → Entry → Registry → Bool, (∀ c entry, P c entry .nil = false) →
        fr.kids.count P true = 0) :
      (attrs.foldl withAttribute fr).behind = none ∧
        (attrs.foldl withAttribute fr).data.key = fr.data.key ∧
        ∀ P : Bool → Entry → Registry → Bool, (∀ c entry, P c entry .nil = false) →
          (attrs.foldl withAttribute fr).kids.count P true = 0 := by
    induction attrs generalizing fr with
    | nil => exact ⟨hbehind, rfl, hcount⟩
    | cons attr attrs ih =>
        have hone : (withAttribute fr attr).behind = none ∧
            (withAttribute fr attr).data.key = fr.data.key ∧
            ∀ P : Bool → Entry → Registry → Bool, (∀ c entry, P c entry .nil = false) →
              (withAttribute fr attr).kids.count P true = 0 := by
          unfold withAttribute
          split
          · cases attr.value with
            | none => exact ⟨hbehind, rfl, hcount⟩
            | some value => exact ⟨hbehind, rfl, hcount⟩
          · refine ⟨hbehind, rfl, fun P hP => ?_⟩
            have hkids := hcount P hP
            cases hnil : fr.kids with
            | nil => simp [Frame.add, hnil, Forest.count, hP]
            | node entry first next =>
                rw [Frame.add, hnil, Forest.count_append _ _ (by simp), ← hnil, hkids]
                simp [Forest.count, hP]
        obtain ⟨hbehind', hkey', hcount'⟩ := ih _ hone.1 hone.2.2
        exact ⟨hbehind', hkey'.trans hone.2.1, hcount'⟩
  exact hfold tag.attrs _ rfl fun _ _ => rfl

namespace Builder

/-- A closed tag is closed at once. -/
theorem closes_addTag (b : Builder) (is : Rstream) {tag : Tag} (hclosed : tag.closed = true) :
    Closes b (addTag { b.setText with is := is } tag) (tagFrame tag) b.setText.cur := by
  obtain ⟨hbehind, -, hblind⟩ := tagFrame_spec tag
  rw [addTag, if_pos hclosed]
  refine ⟨rfl, fun h => ⟨hbehind, fun fr hfr => ?_⟩, fun P => ?_, fun P hP => ?_⟩
  · rcases List.mem_cons.mp hfr with rfl | hmem
    · have hcur : b.setText.cur.behind = none := setText_plain h _ List.mem_cons_self
      exact hcur
    · exact setText_plain h fr (List.mem_cons_of_mem _ hmem)
  · rw [← setText_count P b, Frame.count_cons]
    exact Nat.le_add_left _ _
  · rw [← setText_count P b, Frame.count_cons, hblind P hP, Nat.zero_add]
    rfl

/-- An end tag closes the node at the cursor. -/
theorem closes_close {b b' : Builder} {is : Rstream}
    (h : close { b.setText with is := is } = some b') :
    ∃ up, b.setText.outer = up :: b'.outer ∧ Closes b b' b.setText.cur up := by
  unfold close at h
  simp only at h
  cases houter : b.setText.outer with
  | nil =>
      rw [houter] at h
      cases h
  | cons up ups =>
      rw [houter] at h
      cases h
      have hcount (P : Bool → Entry → Registry → Bool) :
          Frame.count P (b.setText.cur :: up :: ups) = b.count P := by
        rw [← setText_count P b, count, frames, houter]
      refine ⟨up, rfl, rfl, fun hb => ?_, fun P => Nat.le_of_eq (hcount P).symm,
        fun P _ => hcount P⟩
      have hall := setText_plain hb
      refine ⟨hall _ List.mem_cons_self, fun fr hfr => ?_⟩
      rcases List.mem_cons.mp hfr with rfl | hmem
      · have hup : up.behind = none := hall up (by simp [frames, houter])
        exact hup
      · exact hall fr (by simp [frames, houter, hmem])

/-- A step leaves the closed nodes as they are, opens a node, or closes one. -/
theorem step_cases {fresh : Fresh} {path : Text} {b b' : Builder} {ch : Char}
    (h : b.step fresh path ch = some b') :
    (∀ P, b'.count P = b.count P) ∧ (b.Plain → b'.Plain) ∨
      (∃ tag, b'.cur = tagFrame tag ∧
        (∀ P, b'.count P = (tagFrame tag).kids.count P true + b.count P) ∧
        (b.Plain → b'.Plain)) ∨
      ∃ fr up, Closes b b' fr up := by
  have hcur {b₁ b₂ : Builder} (hc : b₂.cur = b₁.cur) (ho : b₂.outer = b₁.outer) :
      (∀ P, b₂.count P = b₁.count P) ∧ (b₁.Plain → b₂.Plain) := by
    unfold count Plain frames
    rw [hc, ho]
    exact ⟨fun _ => rfl, id⟩
  rcases step_eq_some h with ⟨hc, ho⟩ | ⟨is, rfl | ⟨tag, rfl⟩ | hclose⟩
  · exact Or.inl (hcur hc ho)
  · obtain ⟨hcount, hplain⟩ := @hcur b.setText { b.setText with is := is } rfl rfl
    exact Or.inl ⟨fun P => (hcount P).trans (setText_count P b), fun h => hplain (setText_plain h)⟩
  · by_cases hclosed : tag.closed
    · exact Or.inr (Or.inr ⟨_, _, closes_addTag b is hclosed⟩)
    · rw [addTag, if_neg hclosed]
      refine Or.inr (Or.inl ⟨tag, rfl, fun P => ?_, fun h fr hfr => ?_⟩)
      · rw [← setText_count P b]
        rfl
      · rcases List.mem_cons.mp hfr with rfl | hmem
        · exact (tagFrame_spec tag).1
        · exact setText_plain h fr hmem
  · obtain ⟨up, -, hc⟩ := closes_close hclose
    exact Or.inr (Or.inr ⟨_, up, hc⟩)

/-- Closing a node counts it. -/
theorem Closes.count_closed {b b' : Builder} {fr up : Frame Entry} (hc : Closes b b' fr up)
    (hfr : fr.behind = none) (P : Bool → Entry → Registry → Bool) {c : Bool}
    (hnil : c = true ↔ up.kids = .nil) :
    b'.count P = Frame.count P (fr :: up :: b'.outer) + if P c fr.data fr.kids then 1 else 0 := by
  have htree : fr.tree = .node fr.data fr.kids .nil := by
    rw [Frame.tree, Frame.forest, hfr]
  rw [count, frames, Frame.count_cons, hc.cur_eq, Frame.add, htree,
    Forest.count_append_node P hnil, Frame.count_cons, Frame.count_cons]
  omega

/-- A step keeps the closed nodes. -/
theorem count_le_step {fresh : Fresh} {path : Text} {b b' : Builder} {ch : Char} (hb : b.Plain)
    (h : b.step fresh path ch = some b') (P : Bool → Entry → Registry → Bool) :
    b.count P ≤ b'.count P := by
  rcases step_cases h with ⟨hcount, -⟩ | ⟨tag, -, hcount, -⟩ | ⟨fr, up, hc⟩
  · exact Nat.le_of_eq (hcount P).symm
  · rw [hcount P]
    exact Nat.le_add_left _ _
  · rw [hc.count_closed (hc.plain hb).1 P (c := decide (up.kids = .nil)) (by simp)]
    exact Nat.le_trans (hc.count_le P) (Nat.le_add_right _ _)

theorem step_plain {fresh : Fresh} {path : Text} {b b' : Builder} {ch : Char} (hb : b.Plain)
    (h : b.step fresh path ch = some b') : b'.Plain := by
  rcases step_cases h with ⟨-, hplain⟩ | ⟨tag, -, -, hplain⟩ | ⟨fr, up, hc⟩
  · exact hplain hb
  · exact hplain hb
  · exact (hc.plain hb).2

/-- What holds of the whole file holds of every step: nothing closed is lost. -/
theorem loop_spec {fresh : Fresh} {path : Text} {fuel : ℕ} {b b' : Builder} (hb : b.Plain)
    (h : b.loop fresh path fuel = some b') :
    b'.Plain ∧ ∀ P, b.count P ≤ b'.count P := by
  induction fuel generalizing b with
  | zero => cases h
  | succ fuel ih =>
      unfold loop at h
      rcases hread : bufRead b.is with ⟨ch, is⟩
      rw [hread] at h
      cases ch with
      | none =>
          cases h
          exact ⟨hb, fun _ => Nat.le_refl _⟩
      | some ch =>
          obtain ⟨b₁, hstep, hloop⟩ := Option.bind_eq_some_iff.mp h
          have hplain : Builder.Plain { b with is := is } := hb
          obtain ⟨hplain', hcount⟩ := ih (step_plain hplain hstep) hloop
          exact ⟨hplain', fun P => Nat.le_trans (count_le_step hplain hstep P) (hcount P)⟩

end Builder

/-! ## The refinement -/

/-- The nodes of the parser hold the forest of the builder. -/
structure Refines (strict : Prop) (s : Parser) (b : Builder) : Prop where
  is_eq : s.is = b.is
  spaceOnly_eq : s.spaceOnly = b.spaceOnly
  isOpen : s.nodes.Open strict s.root b.cur b.outer s.node

/-- The nodes below an address are not touched. -/
def Frozen (n : ℕ) (nodes nodes' : Nodes) : Prop :=
  nodes.size ≤ nodes'.size ∧ ∀ q < n, nodes'.cell q = nodes.cell q

theorem Frozen.refl (n : ℕ) (nodes : Nodes) : Frozen n nodes nodes :=
  ⟨Nat.le_refl _, fun _ _ => rfl⟩

theorem Frozen.trans {n : ℕ} {nodes nodes' nodes'' : Nodes} (h : Frozen n nodes nodes')
    (h' : Frozen n nodes' nodes'') : Frozen n nodes nodes'' :=
  ⟨Nat.le_trans h.1 h'.1, fun q hq => (h'.2 q hq).trans (h.2 q hq)⟩

section

variable {strict : Prop} {nodes : Nodes} {root node : ℕ} {fr : Frame Entry}
  {frs : List (Frame Entry)}

theorem frozen_setValue (ho : nodes.Open strict root fr frs node) (value : Text) :
    Frozen root nodes (setValue nodes node value) := by
  have hroot := ho.root_le
  refine ⟨Nat.le_refl _, fun q hq => ?_⟩
  rw [setValue, Heap.modify_cell, if_neg (by omega)]

theorem frozen_registryAdd (ho : nodes.Open strict root fr frs node) (key : Text) :
    Frozen root nodes (registryAdd nodes node key) := by
  have hroot := ho.root_le
  have hlt := ho.lt_size
  refine ⟨by rw [registryAdd, Heap.addLast_size]; omega, fun q hq => ?_⟩
  refine Heap.addLast_cell_other (by omega) (by omega) (fun hz => ?_) _
  have := ho.last_bounds hz
  omega

theorem open_setValue (ho : nodes.Open strict root fr frs node) (value : Text) :
    (setValue nodes node value).Open strict root { fr with data := fr.data.setValue value } frs
      node :=
  ho.setData (Entry.setValue value)

/-- An attribute of the node at the cursor. -/
theorem open_addAttribute (ho : nodes.Open strict root fr frs node) (attr : Attr) :
    (addAttribute nodes node attr).Open strict root (withAttribute fr attr) frs node ∧
      Frozen root nodes (addAttribute nodes node attr) ∧
      ((addAttribute nodes node attr).cell node).parent = (nodes.cell node).parent := by
  unfold addAttribute withAttribute
  split
  · cases attr.value with
    | none => exact ⟨ho, .refl _ _, rfl⟩
    | some value => exact ⟨open_setValue ho value, frozen_setValue ho value, by simp [setValue]⟩
  · obtain ⟨hopen, hparent⟩ := ho.addLast ⟨attr.name, none⟩
    have hfrozen := frozen_registryAdd ho attr.name
    have hlt := ho.lt_size
    have hkeep : ((registryAdd nodes node attr.name).cell node).parent =
        (nodes.cell node).parent := by
      rw [registryAdd, Heap.addLast_cell_self hlt fun hz =>
        absurd (ho.last_bounds hz).1 (Nat.lt_irrefl _)]
    cases attr.value with
    | none =>
        obtain ⟨q, hq, hclosed⟩ := hopen.close (Or.inl rfl)
        rw [hparent, Option.some_inj] at hq
        subst hq
        exact ⟨hclosed, hfrozen, hkeep⟩
    | some value =>
        have hset := open_setValue hopen value
        obtain ⟨q, hq, hclosed⟩ := hset.close (Or.inl rfl)
        have hne : node ≠ nodes.size := by omega
        rw [setValue, Heap.modify_cell, if_pos rfl] at hq
        rw [hparent, Option.some_inj] at hq
        subst hq
        refine ⟨hclosed, hfrozen.trans (frozen_setValue hopen value), ?_⟩
        simp only [setValue, Heap.modify_cell, if_neg hne]
        exact hkeep

theorem open_addAttributes (ho : nodes.Open strict root fr frs node) (attrs : List Attr) :
    (attrs.foldl (fun nodes attr => addAttribute nodes node attr) nodes).Open strict root
        (attrs.foldl withAttribute fr) frs node ∧
      Frozen root nodes (attrs.foldl (fun nodes attr => addAttribute nodes node attr) nodes) ∧
      ((attrs.foldl (fun nodes attr => addAttribute nodes node attr) nodes).cell node).parent =
        (nodes.cell node).parent := by
  induction attrs generalizing nodes fr with
  | nil => exact ⟨ho, .refl _ _, rfl⟩
  | cons attr attrs ih =>
      obtain ⟨hopen, hfrozen, hparent⟩ := open_addAttribute ho attr
      obtain ⟨hopen', hfrozen', hparent'⟩ := ih hopen
      exact ⟨hopen', hfrozen.trans hfrozen', hparent'.trans hparent⟩

/-- The node of a start tag, before it counts as closed. -/
theorem open_addTag (ho : nodes.Open strict root fr frs node) (tag : Tag) :
    (addTag nodes node tag).1.Open strict root (tagFrame tag) (fr :: frs) nodes.size ∧
      Frozen root nodes (addTag nodes node tag).1 ∧
      ((addTag nodes node tag).1.cell nodes.size).parent = some node := by
  obtain ⟨hopen, hparent⟩ := ho.addLast ⟨tag.name, none⟩
  obtain ⟨hopen', hfrozen', hparent'⟩ := open_addAttributes hopen tag.attrs
  exact ⟨hopen', (frozen_registryAdd ho tag.name).trans hfrozen', hparent'.trans hparent⟩

end

end ModCaucho
