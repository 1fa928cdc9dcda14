import ModCaucho.Lib.Chains
import ModCaucho.Lib.OrderedHeap
import ModCaucho.Registry.Calls
import ModCaucho.Registry.Depth

/-!
# Whether a parse returns

Each call of `cse_parse` keeps to its own nodes and leaves their pointers ordered, so the
lists that it follows end. Nothing looks for a file that is being read already: a file that
includes itself is read without end. Where no file comes to be opened while it is read,
the calls are nested no deeper than there are files.
-/

namespace ModCaucho

open LinkedForest Relation

/-! ## The nodes of a call -/

section

variable {nodes nodes' : Nodes} {lo node : ℕ}

theorem ordered_setValue (ho : nodes.Ordered lo) (node : ℕ) (value : Text) :
    (setValue nodes node value).Ordered lo := by
  refine ho.modify fun hlo hlt => ?_
  obtain ⟨hparent, hprev, hnext, hfirst, hlast⟩ := ho node hlo hlt
  exact ⟨hparent, hprev, hnext, hfirst, hlast⟩

/-- A node below an address is kept when the node that changes is not. -/
theorem frozen_modify (hlo : lo ≤ node) (f : Cell Entry → Cell Entry) :
    Frozen lo nodes (nodes.modify node f) := by
  refine ⟨Nat.le_refl _, fun q hq => ?_⟩
  rw [Heap.modify_cell, if_neg (by omega)]

theorem frozen_addLast (ho : nodes.Ordered lo) (hlo : lo ≤ node) (hlt : node < nodes.size)
    (key : Text) : Frozen lo nodes (registryAdd nodes node key) := by
  refine ⟨by rw [registryAdd, Heap.addLast_size]; omega, fun q hq => ?_⟩
  refine Heap.addLast_cell_other (by omega) (by omega) (fun hz => ?_) _
  have hlast := (ho node hlo hlt).last q hz
  omega

theorem addAttribute_keeps (ho : nodes.Ordered lo) (hlo : lo ≤ node) (hlt : node < nodes.size)
    (attr : Attr) :
    (addAttribute nodes node attr).Ordered lo ∧ Frozen lo nodes (addAttribute nodes node attr) := by
  unfold addAttribute
  split
  · cases attr.value with
    | none => exact ⟨ho, .refl _ _⟩
    | some value => exact ⟨ordered_setValue ho _ _, frozen_modify hlo _⟩
  · have hadd := ho.addLast hlo hlt ⟨attr.name, none⟩
    have hfrozen := frozen_addLast ho hlo hlt attr.name
    cases attr.value with
    | none => exact ⟨hadd, hfrozen⟩
    | some value =>
        exact ⟨ordered_setValue hadd _ _, hfrozen.trans (frozen_modify (by omega) _)⟩

theorem addTag_keeps (ho : nodes.Ordered lo) (hlo : lo ≤ node) (hlt : node < nodes.size)
    (tag : Tag) :
    (addTag nodes node tag).1.Ordered lo ∧ Frozen lo nodes (addTag nodes node tag).1 ∧
      lo ≤ (addTag nodes node tag).2 ∧
        (addTag nodes node tag).2 < (addTag nodes node tag).1.size := by
  have hattrs (attrs : List Attr) {nodes' : Nodes} (ho' : nodes'.Ordered lo)
      (hlt' : nodes.size < nodes'.size) :
      (attrs.foldl (fun nodes' attr => addAttribute nodes' nodes.size attr) nodes').Ordered lo ∧
        Frozen lo nodes'
          (attrs.foldl (fun nodes' attr => addAttribute nodes' nodes.size attr) nodes') := by
    induction attrs generalizing nodes' with
    | nil => exact ⟨ho', .refl _ _⟩
    | cons attr attrs ih =>
        obtain ⟨hone, hfrozen⟩ := addAttribute_keeps ho' (by omega : lo ≤ nodes.size) hlt' attr
        obtain ⟨hall, hfrozen'⟩ := ih hone (Nat.lt_of_lt_of_le hlt' hfrozen.1)
        exact ⟨hall, hfrozen.trans hfrozen'⟩
  have hsize : nodes.size < (registryAdd nodes node tag.name).size := by
    rw [registryAdd, Heap.addLast_size]
    omega
  obtain ⟨hall, hfrozen⟩ := hattrs tag.attrs (ho.addLast hlo hlt ⟨tag.name, none⟩) hsize
  have hgrow := Nat.lt_of_lt_of_le hsize hfrozen.1
  refine ⟨hall, (frozen_addLast ho hlo hlt tag.name).trans hfrozen, ?_⟩
  unfold addTag
  simp only
  split
  · exact ⟨hlo, Nat.lt_trans hlt hgrow⟩
  · exact ⟨by omega, hgrow⟩

/-- The bound on a list of children is not what ends a search in it. -/
theorem findValueAt_bound (ho : nodes.Ordered lo) (key : Text) {fuel : ℕ} {o : Option ℕ}
    (hbound : ∀ p ∈ o, lo ≤ p ∧ p < nodes.size ∧ nodes.size ≤ p + fuel) :
    findValueAt nodes key (fuel + 1) o = findValueAt nodes key fuel o := by
  induction fuel generalizing o with
  | zero =>
      cases o with
      | none => rfl
      | some p =>
          have hp := hbound p rfl
          omega
  | succ fuel ih =>
      cases o with
      | none => rfl
      | some p =>
          obtain ⟨hlo, hlt, hfuel⟩ := hbound p rfl
          rw [findValueAt, findValueAt, ih fun q hq => ?_]
          have hnext := (ho p hlo hlt).next q hq
          exact ⟨by omega, hnext.2, by omega⟩

theorem setParents_keeps (ho : nodes.Ordered lo) {parent : ℕ} (hlo : lo ≤ parent) {o : Option ℕ}
    (hchain : ∀ p ∈ o, parent < p ∧ p < nodes.size) (fuel : ℕ) :
    (setParents (some parent) fuel o nodes).Ordered lo ∧
      Frozen lo nodes (setParents (some parent) fuel o nodes) := by
  induction fuel generalizing o nodes with
  | zero => cases o <;> exact ⟨ho, .refl _ _⟩
  | succ fuel ih =>
      cases o with
      | none => exact ⟨ho, .refl _ _⟩
      | some ptr =>
          obtain ⟨hptr, hlt⟩ := hchain ptr rfl
          have hone : (nodes.modify ptr fun c => { c with parent := some parent }).Ordered lo := by
            refine ho.setParent fun q hq => ?_
            cases hq
            exact ⟨hlo, hptr⟩
          have hrest : ∀ p ∈ (nodes.cell ptr).next, parent < p ∧ p < nodes.size := by
            intro p hp
            have hnext := (ho ptr (by omega) hlt).next p hp
            exact ⟨by omega, hnext.2⟩
          obtain ⟨hall, hfrozen⟩ := ih hone hrest
          exact ⟨hall, (frozen_modify (by omega) _).trans hfrozen⟩

/-- The first half of the splice, which links what is in front of the file. -/
def linkBefore (nodes : Nodes) (parent sub : ℕ) (prev : Option ℕ) : Nodes :=
  let nodes := nodes.modify sub fun c => { c with parent := some parent }
  match prev with
  | some prev => nodes.modify prev fun c => { c with next := (nodes.cell sub).first }
  | none => nodes.modify parent fun c => { c with first := some sub }

/-- The second half, which links the nodes of the file. -/
def linkBehind (nodes : Nodes) (parent sub : ℕ) (prev : Option ℕ) : Nodes :=
  let nodes := nodes.modify sub fun c => { c with prev := prev }
  let nodes := nodes.modify parent fun c => { c with last := (nodes.cell sub).last }
  setParents (some parent) nodes.size (nodes.cell sub).first nodes

theorem splice_eq {sub : ℕ} (hne : node ≠ sub) (h : splice nodes node sub = some nodes') :
    ∃ parent, (nodes.cell node).parent = some parent ∧
      nodes' = linkBehind (linkBefore nodes parent sub (nodes.cell node).prev) parent sub
        (nodes.cell node).prev := by
  obtain ⟨parent, hparent, rfl⟩ := Option.map_eq_some_iff.mp h
  refine ⟨parent, hparent, ?_⟩
  have hnode : (nodes.modify sub fun c => { c with parent := some parent }).cell node =
      nodes.cell node := if_neg hne
  simp only [hnode]
  rfl

theorem linkBefore_keeps (ho : nodes.Ordered lo) {parent sub : ℕ} {prev : Option ℕ}
    (hparent : lo ≤ parent ∧ parent < sub) (hprev : ∀ q ∈ prev, lo ≤ q ∧ q < sub)
    (hsub : sub < nodes.size) :
    (linkBefore nodes parent sub prev).Ordered lo ∧
      Frozen lo nodes (linkBefore nodes parent sub prev) ∧
      (linkBefore nodes parent sub prev).size = nodes.size := by
  have h₁ : (nodes.modify sub fun c => { c with parent := some parent }).Ordered lo := by
    refine ho.setParent fun q hq => ?_
    cases hq
    exact hparent
  have hfrozen : Frozen lo nodes (nodes.modify sub fun c => { c with parent := some parent }) :=
    frozen_modify (by omega) _
  unfold linkBefore
  cases prev with
  | none =>
      refine ⟨h₁.setFirst fun q hq => ?_, hfrozen.trans (frozen_modify hparent.1 _), rfl⟩
      cases hq
      exact ⟨hparent.2, hsub⟩
  | some prev =>
      have hback := hprev prev rfl
      refine ⟨h₁.setNext fun q hq => ?_, hfrozen.trans (frozen_modify hback.1 _), rfl⟩
      have hfirst := (h₁ sub (by omega) hsub).first q hq
      exact ⟨by omega, hfirst.2⟩

theorem linkBehind_keeps (ho : nodes.Ordered lo) {parent sub : ℕ} {prev : Option ℕ}
    (hparent : lo ≤ parent ∧ parent < sub) (hprev : ∀ q ∈ prev, lo ≤ q ∧ q < sub)
    (hsub : sub < nodes.size) :
    (linkBehind nodes parent sub prev).Ordered lo ∧
      Frozen lo nodes (linkBehind nodes parent sub prev) := by
  have h₁ : (nodes.modify sub fun c => { c with prev := prev }).Ordered lo := ho.setPrev hprev
  have h₂ := h₁.setLast (p := parent)
    (o := ((nodes.modify sub fun c => { c with prev := prev }).cell sub).last) fun q hq => by
      have hlast := (h₁ sub (by omega) hsub).last q hq
      exact ⟨by omega, hlast.2⟩
  have hfrozen : Frozen lo nodes (nodes.modify sub fun c => { c with prev := prev }) :=
    frozen_modify (by omega) _
  unfold linkBehind
  obtain ⟨hall, hrest⟩ := setParents_keeps h₂ hparent.1 (fun p hp => by
    have hfirst := (h₂ sub (by omega) hsub).first p hp
    exact ⟨by omega, hfirst.2⟩) nodes.size
  exact ⟨hall, (hfrozen.trans (frozen_modify hparent.1 _)).trans hrest⟩

/-- The splice of a file whose nodes are allocated behind the node that includes it. -/
theorem splice_keeps (ho : nodes.Ordered lo) {sub : ℕ} (hlo : lo ≤ node) (hlt : node < sub)
    (hsub : sub < nodes.size) (h : splice nodes node sub = some nodes') :
    nodes'.Ordered lo ∧ Frozen lo nodes nodes' := by
  obtain ⟨parent, hup, rfl⟩ := splice_eq (Nat.ne_of_lt hlt) h
  obtain ⟨hparent, hprev, -, -, -⟩ := ho node hlo (by omega)
  have hbounds : lo ≤ parent ∧ parent < sub := by
    have hbound := hparent parent hup
    exact ⟨hbound.1, by omega⟩
  have hback : ∀ q ∈ (nodes.cell node).prev, lo ≤ q ∧ q < sub := by
    intro q hq
    have hbound := hprev q hq
    exact ⟨hbound.1, by omega⟩
  obtain ⟨hbefore, hfrozen, hsize⟩ := linkBefore_keeps ho hbounds hback hsub
  obtain ⟨hbehind, hrest⟩ := linkBehind_keeps hbefore hbounds hback (hsize ▸ hsub)
  exact ⟨hbehind, hfrozen.trans hrest⟩

end

/-- A state of a call that begins with these nodes. -/
structure Parser.Keeps (before : Nodes) (s : Parser) : Prop where
  root_eq : s.root = before.size
  node_ge : before.size ≤ s.node
  node_lt : s.node < s.nodes.size
  ordered : s.nodes.Ordered before.size
  frozen : Frozen before.size before s.nodes

/-- The registry of a call that begins with these nodes. -/
structure Parsed.Keeps (before : Nodes) (r : Parsed) : Prop where
  root_eq : r.root = before.size
  root_lt : r.root < r.nodes.size
  ordered : r.nodes.Ordered before.size
  frozen : Frozen before.size before r.nodes

namespace Parser

variable {fresh : Fresh} {files : Files} {path : Text} {before : Nodes}
  {parse : Text → Text → Nodes → Option Text → Except Stop Parsed} {s s' : Parser}

theorem Keeps.moved (hs : s.Keeps before) (is : Rstream) : Keeps before { s with is := is } :=
  ⟨hs.root_eq, hs.node_ge, hs.node_lt, hs.ordered, hs.frozen⟩

theorem start_keeps (file : Text) (error : Option Text) :
    (start file before error).Keeps before := by
  have hroot : ((start file before error).nodes.cell before.size).Ordered before.size
      (before.size + 1) before.size := by
    simp only [start, Heap.alloc_cell, if_true]
    exact ⟨by simp, by simp, by simp, by simp, by simp⟩
  refine ⟨rfl, Nat.le_refl _, Nat.lt_succ_self _, fun p hp hp' => ?_, Nat.le_succ _, fun q hq => ?_⟩
  · have heq : p = before.size := Nat.le_antisymm (Nat.le_of_lt_succ hp') hp
    rw [heq]
    exact hroot
  · exact if_neg (Nat.ne_of_lt hq)

theorem setText_keeps (hs : s.Keeps before) : s.setText.Keeps before := by
  unfold setText
  split
  · exact ⟨hs.root_eq, hs.node_ge, hs.node_lt, hs.ordered, hs.frozen⟩
  · split
    · exact ⟨hs.root_eq, hs.node_ge, hs.node_lt, ordered_setValue hs.ordered _ _,
        hs.frozen.trans (frozen_modify hs.node_ge _)⟩
    · exact hs

theorem turn_keeps (hs : s.Keeps before) {ch : Char} {tagged : Bool}
    (h : s.turn fresh path ch = .ok (tagged, s')) : s'.Keeps before := by
  have htext := setText_keeps hs
  obtain ⟨_, -, ⟨-, _, rfl⟩ | ⟨_, ⟨-, rfl⟩ | ⟨-, ⟨tag, rfl⟩ | ⟨parent, hparent, rfl⟩⟩⟩⟩ :=
    turn_cases h
  · exact ⟨hs.root_eq, hs.node_ge, hs.node_lt, hs.ordered, hs.frozen⟩
  · exact ⟨htext.root_eq, htext.node_ge, htext.node_lt, htext.ordered, htext.frozen⟩
  · obtain ⟨hordered, hfrozen, hge, hlt⟩ :=
      addTag_keeps htext.ordered htext.node_ge htext.node_lt tag
    exact ⟨htext.root_eq, hge, hlt, hordered, htext.frozen.trans hfrozen⟩
  · have hup := (htext.ordered _ htext.node_ge htext.node_lt).parent parent hparent
    exact ⟨htext.root_eq, hup.1, Nat.lt_trans hup.2 htext.node_lt, htext.ordered, htext.frozen⟩

theorem resume_keeps (hs : s.Keeps before) {result : Except Stop Parsed}
    (hsub : ∀ r, result = .ok r → r.Keeps s.nodes) (h : s.resume result = .ok s') :
    s'.Keeps before := by
  obtain ⟨nodes, error, rfl, rfl | ⟨sub, rfl, hnodes⟩⟩ := resume_cases h
  · exact ⟨hs.root_eq, hs.node_ge, hs.node_lt, hs.ordered, hs.frozen⟩
  · obtain ⟨hroot, hlt, hordered, hfrozen⟩ := hsub sub rfl
    have hglue : sub.nodes.Ordered before.size :=
      hs.ordered.glue hordered hs.frozen.1 hfrozen.1 hfrozen.2
    have hfrozen' : Frozen before.size before sub.nodes :=
      ⟨Nat.le_trans hs.frozen.1 hfrozen.1, fun q hq =>
        (hfrozen.2 q (Nat.lt_of_lt_of_le hq hs.frozen.1)).trans (hs.frozen.2 q hq)⟩
    have hnode : s.node < sub.nodes.size := Nat.lt_of_lt_of_le hs.node_lt hfrozen.1
    rcases hnodes with rfl | ⟨last, hlast, hsplice⟩
    · exact ⟨hs.root_eq, hs.node_ge, hnode, hglue, hfrozen'⟩
    · have hge := hs.node_ge
      have hbounds := (hs.ordered s.node hs.node_ge hs.node_lt).last last hlast
      obtain ⟨hordered', hfrozen''⟩ := splice_keeps hglue (by omega : before.size ≤ last)
        (by omega) hlt hsplice
      exact ⟨hs.root_eq, hs.node_ge, Nat.lt_of_lt_of_le hnode hfrozen''.1, hordered',
        hfrozen'.trans hfrozen''⟩

/-- The calls of a parse keep to their own nodes. -/
def ParseKeeps (parse : Text → Text → Nodes → Option Text → Except Stop Parsed) : Prop :=
  ∀ path file nodes error r, parse path file nodes error = .ok r → r.Keeps nodes

theorem step_keeps (hparse : ParseKeeps parse) (hs : s.Keeps before) {ch : Char}
    (h : s.step fresh files parse path ch = .ok s') : s'.Keeps before := by
  obtain ⟨tagged, s₁, hturn, ⟨-, rfl⟩ | ⟨call, hcall, hresume⟩⟩ := step_cases h
  · exact turn_keeps hs hturn
  · refine resume_keeps (turn_keeps hs hturn) (fun r hr => ?_) hresume
    rw [← (includeCall_spec hcall).2.1]
    exact hparse _ _ _ _ r hr

/-- What a call keeps in each round and at the end. -/
theorem loop_keeps (hparse : ParseKeeps parse) (hs : s.Keeps before) (fuel : ℕ) :
    (∀ round ∈ s.rounds fresh files parse path fuel, round.1.Keeps before) ∧
      ∀ s', s.loop fresh files parse path fuel = .ok s' → s'.Keeps before := by
  induction fuel generalizing s with
  | zero => exact ⟨List.forall_mem_nil _, fun _ h => nomatch h⟩
  | succ fuel ih =>
      rcases hread : bufRead s.is with ⟨ch, is⟩
      have hs' := hs.moved is
      cases ch with
      | none =>
          rw [rounds, loop, hread]
          refine ⟨List.forall_mem_nil _, fun s' h => ?_⟩
          cases h
          exact hs'
      | some ch =>
          rcases hstep : step fresh files parse path { s with is := is } ch with stop | s₁
          · rw [rounds, loop, hread]
            simp only [hstep, List.mem_singleton, forall_eq, reduceCtorEq, false_implies,
              implies_true, and_true]
            exact hs'
          · obtain ⟨hrounds, hloop⟩ := rounds_cons hread hstep fuel
            obtain ⟨hall, hend⟩ := ih (step_keeps hparse hs' hstep)
            rw [hrounds, hloop]
            exact ⟨List.forall_mem_cons.mpr ⟨hs', hall⟩, hend⟩

end Parser

/-- `cse_parse` keeps to its own nodes. -/
theorem cseParse_keeps (fresh : Fresh) (files : Files) (depth : ℕ) :
    Parser.ParseKeeps (cseParse fresh files depth) := by
  induction depth with
  | zero => exact fun _ _ _ _ _ h => nomatch h
  | succ depth ih =>
      intro path file nodes error r h
      rw [cseParse, parseFile] at h
      cases hloop : Parser.loop fresh files (cseParse fresh files depth) path (file.length + 1)
          (.start file nodes error) with
      | error stop =>
          rw [hloop] at h
          cases h
      | ok s =>
          rw [hloop] at h
          cases h
          have hs := (Parser.loop_keeps ih (Parser.start_keeps file error) _).2 s hloop
          have hlt : s.root < s.nodes.size := by
            rw [hs.root_eq]
            exact Nat.lt_of_le_of_lt hs.node_ge hs.node_lt
          exact ⟨hs.root_eq, hlt, hs.ordered, hs.frozen⟩

/-- The call that is made where the nodes hold a forest. -/
theorem includeCall_eq {strict : Prop} {files : Files} {path : Text} {s : Parser} {root : ℕ}
    {fr : Frame Entry} {frs : List (Frame Entry)} (ho : s.nodes.Open strict root fr frs s.node) :
    s.includeCall files path =
      fr.kids.lastNode.bind fun last =>
        (includeHref last.1 last.2).bind fun value =>
          (files (includePath path value)).map fun file =>
            ⟨includePath path value, file, s.nodes, s.error⟩ := by
  unfold Parser.includeCall
  cases hlast : (s.nodes.cell s.node).last with
  | none =>
      obtain ⟨e, -, -, hkids, -⟩ := ho
      rw [hkids.nil_iff.mpr hlast]
      rfl
  | some last =>
      obtain ⟨first, hnode, hfind⟩ := lastNode_of_open ho hlast
      simp only [hnode, hfind, Option.bind_some, includeHref]
      split
      · cases cseFindValue first "href".toList with
        | none => rfl
        | some value =>
            simp only [Option.bind_some]
            split <;> rfl
      · rfl

/-- The file that a round opens is named by the element that it has read last. -/
theorem roundCall_href {fresh : Fresh} {files : Files} {path : Text} {s : Parser}
    {b b' : Builder} {ch : Char} {call : ParseCall} (hr : Refines True s b) (hb : b.Plain)
    (hstep : b.step fresh path ch = some b')
    (hcall : s.roundCall fresh files path ch = some call) :
    ∃ last first value, b'.cur.kids.lastNode = some (last, first) ∧
      includeHref last first = some value ∧ call.path = includePath path value := by
  -- a parse that comes to no end for the file of the call alone
  let parse (sub : Text) (_ : Text) (_ : Nodes) (_ : Option Text) : Except Stop Parsed :=
    if sub = call.path then .error .endless else .error .crash
  have hendless : s.step fresh files parse path ch = .error .endless := by
    obtain ⟨s', hturn⟩ : ∃ s', s.turn fresh path ch = .ok (true, s') := by
      unfold Parser.roundCall at hcall
      split at hcall
      · next s' hturn => exact ⟨s', hturn⟩
      · cases hcall
    rw [Parser.step_eq_roundCall, hturn, hcall]
    exact (Parser.resume_endless_iff s' _).mpr (if_pos rfl)
  rcases step_cases hr (Or.inl hb) hstep with ⟨s', hs', -, -⟩ | ⟨s', hs', hfollows, -⟩
  · rw [hs'] at hendless
    cases hendless
  · rw [hs', Parser.includeLast_eq, includeCall_eq hfollows.refines.isOpen] at hendless
    rcases hlast : b'.cur.kids.lastNode with _ | ⟨last, first⟩
    · rw [hlast] at hendless
      cases hendless
    rcases hhref : includeHref last first with _ | value
    · simp only [hlast, Option.bind_some, hhref] at hendless
      cases hendless
    rcases hfile : files (includePath path value) with _ | file
    · simp only [hlast, Option.bind_some, hhref, hfile] at hendless
      cases hendless
    simp only [hlast, Option.bind_some, hhref, hfile, Option.map_some,
      Parser.resume_endless_iff, parse] at hendless
    refine ⟨last, first, value, rfl, hhref, ?_⟩
    by_contra hne
    rw [if_neg (Ne.symm hne)] at hendless
    cases hendless

/-! ## The loops of one call -/

/-- The loops over characters come to an end by their own tests, and the bound on the
attributes of a tag cuts none off. -/
structure ScansEnd (fresh : Fresh) : Prop where
  space : ∀ ch is, ∀ ch' ∈ (skipSpace ch is).1, isSpace ch' = false
  token : ∀ p ch is, ∀ ch' ∈ (readToken fresh p ch is).1, p ch' = false
  attributes : ∀ path ch is fuel, is.file.length < fuel →
    scanAttributes fresh path fuel ch is = scanAttributes fresh path (is.file.length + 1) ch is

theorem scansEnd (fresh : Fresh) : ScansEnd fresh where
  space := skipSpace_exits
  token := readToken_exits
  attributes path ch is fuel hfuel := by
    induction fuel, Nat.succ_le_of_lt hfuel using Nat.le_induction with
    | base => rfl
    | succ fuel hle ih =>
        have hleft := charsLeft_le ch is
        rw [scanAttributes_bound (by omega) (by omega), ih (by omega)]

/-! ## Finite sets of files -/

namespace ParseCall

variable (fresh : Fresh) (files : Files)

/-- The call, for calls that are nested to this depth. -/
def run (depth : ℕ) (call : ParseCall) : Except Stop Parsed :=
  cseParse fresh files depth call.path call.file call.nodes call.error

/-- The rounds of the loop of the call. -/
def rounds (depth : ℕ) (call : ParseCall) : List (Parser × Char) :=
  Parser.rounds fresh files (cseParse fresh files depth) call.path (call.file.length + 1)
    (.start call.file call.nodes call.error)

/-- The one call makes the other one. -/
def Makes (call call' : ParseCall) : Prop :=
  ∃ depth, ∃ round ∈ call.rounds fresh files depth,
    round.1.roundCall fresh files call.path round.2 = some call'

/-- Every list of children among the nodes of the call comes to NULL, when the test behind a
tag looks for an included file and when the call returns. The bound on the search of that
test does not cut it off. -/
structure ListsEnd (call : ParseCall) : Prop where
  test : ∀ depth, ∀ round ∈ call.rounds fresh files depth, ∀ tagged s,
    round.1.turn fresh call.path round.2 = .ok (tagged, s) →
      ∀ p, call.nodes.size ≤ p → p < s.nodes.size → s.nodes.Ends (s.nodes.cell p).first ∧
        ∀ key fuel, s.nodes.size ≤ fuel →
          findValueAt s.nodes key fuel (s.nodes.cell p).first =
            findValueAt s.nodes key s.nodes.size (s.nodes.cell p).first
  result : ∀ depth r, call.run fresh files depth = .ok r →
    ∀ p, call.nodes.size ≤ p → p < r.nodes.size → r.nodes.Ends (r.nodes.cell p).first

variable {fresh files}

theorem first_ends {nodes : Nodes} {lo p : ℕ} (ho : nodes.Ordered lo) (hlo : lo ≤ p)
    (hp : p < nodes.size) : nodes.Ends (nodes.cell p).first := by
  refine ho.ends fun q hq => ?_
  have hfirst := (ho p hlo hp).first q hq
  exact ⟨by omega, hfirst.2⟩

theorem findValueAt_first {nodes : Nodes} {lo p : ℕ} (ho : nodes.Ordered lo) (hlo : lo ≤ p)
    (hp : p < nodes.size) (key : Text) {fuel : ℕ} (hfuel : nodes.size ≤ fuel) :
    findValueAt nodes key fuel (nodes.cell p).first =
      findValueAt nodes key nodes.size (nodes.cell p).first := by
  induction fuel, hfuel using Nat.le_induction with
  | base => rfl
  | succ fuel hle ih =>
      rw [findValueAt_bound ho key fun q hq => ?_, ih]
      have hfirst := (ho p hlo hp).first q hq
      exact ⟨by omega, hfirst.2, by omega⟩

theorem listsEnd (call : ParseCall) : call.ListsEnd fresh files where
  test depth round hround tagged s hturn p hlo hp := by
    have hkeeps := (Parser.loop_keeps (cseParse_keeps fresh files depth)
      (Parser.start_keeps call.file call.error) _).1 round hround
    have hordered := (Parser.turn_keeps hkeeps hturn).ordered
    exact ⟨first_ends hordered hlo hp, fun key _ => findValueAt_first hordered hlo hp key⟩
  result depth r hr p hlo hp :=
    first_ends (cseParse_keeps fresh files depth _ _ _ _ r hr).ordered hlo hp

/-- A call is made for a file that opens. -/
theorem roundCall_file {path : Text} {s : Parser} {ch : Char} {call : ParseCall}
    (h : s.roundCall fresh files path ch = some call) : files call.path = some call.file := by
  unfold Parser.roundCall at h
  split at h
  · exact (Parser.includeCall_spec h).1
  · cases h

/-- A call returns if those that it makes do. -/
theorem run_ne_endless {depth : ℕ} {call : ParseCall}
    (h : ∀ call', Makes fresh files call call' → call'.run fresh files depth ≠ .error .endless) :
    call.run fresh files (depth + 1) ≠ .error .endless := by
  have hloop : parseFile fresh files (cseParse fresh files depth) call.path call.file call.nodes
      call.error ≠ .error .endless := by
    refine Parser.loop_ne_endless (Nat.lt_succ_self _) fun round hround call' hcall => ?_
    exact h call' ⟨depth, round, hround, hcall⟩
  rw [run, cseParse]
  cases hfile : parseFile fresh files (cseParse fresh files depth) call.path call.file call.nodes
      call.error with
  | error stop =>
      rw [hfile] at hloop
      simpa [Except.map] using hloop
  | ok s => simp [Except.map]

/-- Where no file comes to be opened while it is read, a parse returns, and always with the
same result: the calls are nested no deeper than there are files, and in each of them the
loops over characters and over lists of nodes end. -/
theorem run_returns {paths : Finset Text} (hpaths : ∀ path, files path ≠ none → path ∈ paths)
    (call : ParseCall)
    (hopen : ∀ call₁ call₂, TransGen (Makes fresh files) call call₁ →
      TransGen (Makes fresh files) call₁ call₂ → call₂.path ≠ call₁.path) :
    (∃ result, result ≠ .error .endless ∧
      ∀ depth > paths.card, call.run fresh files depth = result) ∧
    (∀ call', ReflTransGen (Makes fresh files) call call' → call'.ListsEnd fresh files) ∧
    ScansEnd fresh := by
  have hrank (n : ℕ) (call : ParseCall)
      (h : ∀ call', Makes fresh files call call' → ∃ m < n, ∀ depth, m < depth →
        call'.run fresh files depth ≠ .error .endless) (depth : ℕ) (hdepth : n < depth) :
      call.run fresh files depth ≠ .error .endless := by
    cases depth with
    | zero => omega
    | succ depth =>
        refine run_ne_endless fun call' hmakes => ?_
        obtain ⟨m, hm, hcall'⟩ := h call' hmakes
        exact hcall' depth (by omega)
  have hmem (call' : ParseCall) (h : TransGen (Makes fresh files) call call') :
      call'.path ∈ paths := by
    obtain ⟨call₁, -, depth, round, -, hcall⟩ := TransGen.tail'_iff.mp h
    refine hpaths _ ?_
    rw [roundCall_file hcall]
    simp
  have hreturns : ∀ depth, paths.card < depth → call.run fresh files depth ≠ .error .endless :=
    @Chains.rank_of_labels _ _ _ (Makes fresh files) ParseCall.path
      (fun n call => ∀ depth, n < depth → call.run fresh files depth ≠ .error .endless)
      hrank paths call hmem hopen
  refine ⟨⟨call.run fresh files (paths.card + 1), hreturns _ (Nat.lt_succ_self _),
    fun depth hdepth => ?_⟩, fun call' _ => listsEnd call', scansEnd fresh⟩
  exact cseParse_settles hdepth _ _ _ _ (hreturns _ (Nat.lt_succ_self _))

/-- The calls for a file that consists of one tag. -/
theorem makes_oneTag {call call' : ParseCall} (hmakes : Makes fresh files call call')
    {path file : Text} (hcall : call.path = path ∧ call.file = file) (last : Entry)
    (first : Registry) (hopen : (bufRead (.start file)).1 = some '<')
    (hbuild : (Builder.step fresh path
      { Builder.start file with is := (bufRead (.start file)).2 } '<').map
        (fun b => (b.is.file, b.cur.kids.lastNode)) = some ([], some (last, first))) :
    (includeHref last first).map (includePath path) = some call'.path := by
  obtain ⟨rfl, rfl⟩ := hcall
  obtain ⟨depth, round, hround, hcall⟩ := hmakes
  obtain ⟨b, hstep, hb⟩ := Option.map_eq_some_iff.mp hbuild
  rw [Prod.mk.injEq] at hb
  have hread : bufRead (Parser.start call.file call.nodes call.error).is =
      (some '<', (bufRead (.start call.file)).2) := Prod.ext hopen rfl
  have hr : Refines True { Parser.start call.file call.nodes call.error with
      is := (bufRead (.start call.file)).2 }
      { Builder.start call.file with is := (bufRead (.start call.file)).2 } :=
    ⟨rfl, rfl, (start_refines call.file call.nodes call.error).isOpen⟩
  rw [rounds, Parser.rounds, hread, List.mem_cons] at hround
  rcases hround with rfl | hlater
  · obtain ⟨last', first', value, hlast, hhref, hpath⟩ :=
      roundCall_href hr (start_plain call.file) hstep hcall
    rw [hb.2, Option.some_inj, Prod.mk.injEq] at hlast
    obtain ⟨rfl, rfl⟩ := hlast
    rw [hhref, hpath, Option.map_some]
  · -- nothing stands behind the tag
    exfalso
    split at hlater
    · next s₁ hs₁ =>
        have hreader : some s₁.reader = some b.reader :=
          (Parser.reader_step hs₁).symm.trans (Builder.reader_step hstep)
        have hfile : s₁.is.file = [] := by
          rw [show s₁.is = b.is from congrArg Reader.is (Option.some_inj.mp hreader), hb.1]
        have hdone : bufRead s₁.is = (none, s₁.is) := by
          unfold bufRead
          rw [hfile]
        cases hlength : call.file.length with
        | zero =>
            rw [hlength] at hlater
            cases hlater
        | succ n =>
            rw [hlength, Parser.rounds, hdone] at hlater
            cases hlater
    · cases hlater

/-- A file that includes another one, and this a third one. -/
def chainFile : Text := "<resin:include href='b'/>".toList

def chainFiles : Files := fun path =>
  if path = "/b".toList then some "<resin:include href='c'/>".toList
  else if path = "/c".toList then some "<http port='80'/>".toList
  else none

/-- The calls are those for the three files, in this order. -/
theorem chainFiles_makes {call call' : ParseCall}
    (hmakes : Makes (fun _ _ => ' ') chainFiles call call') :
    (call.path = "/a".toList ∧ call.file = chainFile → call'.path = "/b".toList) ∧
      (call.path = "/b".toList ∧ call.file = "<resin:include href='c'/>".toList →
        call'.path = "/c".toList) ∧
      ¬ (call.path = "/c".toList ∧ call.file = "<http port='80'/>".toList) := by
  refine ⟨fun hcall => ?_, fun hcall => ?_, fun hcall => ?_⟩
  · have hpath := makes_oneTag hmakes hcall ⟨includeKey, none⟩
      (.node ⟨"href".toList, some "b".toList⟩ .nil .nil) (by decide +kernel) (by decide +kernel)
    exact Option.some_inj.mp (hpath.symm.trans (by decide +kernel))
  · have hpath := makes_oneTag hmakes hcall ⟨includeKey, none⟩
      (.node ⟨"href".toList, some "c".toList⟩ .nil .nil) (by decide +kernel) (by decide +kernel)
    exact Option.some_inj.mp (hpath.symm.trans (by decide +kernel))
  · have hpath := makes_oneTag hmakes hcall ⟨"http".toList, none⟩
      (.node ⟨"port".toList, some "80".toList⟩ .nil .nil) (by decide +kernel) (by decide +kernel)
    have hnone : (none : Option Text) = some call'.path :=
      Eq.trans (by decide +kernel) hpath
    cases hnone

theorem run_returns_chain :
    (∃ result, result ≠ .error .endless ∧ ∀ depth > 2,
        run (fun _ _ => ' ') chainFiles depth ⟨"/a".toList, chainFile, .empty, none⟩ = result) ∧
      (∀ call', ReflTransGen (Makes (fun _ _ => ' ') chainFiles)
        ⟨"/a".toList, chainFile, .empty, none⟩ call' →
          call'.ListsEnd (fun _ _ => ' ') chainFiles) ∧
      ScansEnd fun _ _ => ' ' := by
  have hopened {call call' : ParseCall} (hmakes : Makes (fun _ _ => ' ') chainFiles call call')
      {path file : Text} (hpath : call'.path = path) (hfile : chainFiles path = some file) :
      call'.path = path ∧ call'.file = file := by
    obtain ⟨_, _, -, hcall⟩ := hmakes
    have hfile' := roundCall_file hcall
    rw [hpath, hfile] at hfile'
    exact ⟨hpath, (Option.some_inj.mp hfile').symm⟩
  have hreached {call₁ : ParseCall} (h₁ : TransGen (Makes (fun _ _ => ' ') chainFiles)
      ⟨"/a".toList, chainFile, .empty, none⟩ call₁) :
      (call₁.path = "/b".toList ∧ call₁.file = "<resin:include href='c'/>".toList) ∨
        (call₁.path = "/c".toList ∧ call₁.file = "<http port='80'/>".toList) := by
    induction h₁ with
    | single hmakes => exact Or.inl (hopened hmakes ((chainFiles_makes hmakes).1 ⟨rfl, rfl⟩) rfl)
    | tail _ hmakes ih =>
        obtain ⟨-, hnext, hnone⟩ := chainFiles_makes hmakes
        rcases ih with hb | hc
        · exact Or.inr (hopened hmakes (hnext hb) rfl)
        · exact absurd hc hnone
  refine @run_returns _ _ {"/b".toList, "/c".toList} (fun path hpath => ?_) _
    fun call₁ call₂ h₁ h₂ => ?_
  · unfold chainFiles at hpath
    split at hpath
    · next heq => exact Finset.mem_insert.mpr (Or.inl heq)
    · split at hpath
      · next heq => exact Finset.mem_insert.mpr (Or.inr (Finset.mem_singleton.mpr heq))
      · exact absurd rfl hpath
  · have hlast : (call₂.path = "/c".toList ∧ call₂.file = "<http port='80'/>".toList) ∧
        call₁.path = "/b".toList := by
      induction h₂ with
      | single hmakes =>
          obtain ⟨-, hnext, hnone⟩ := chainFiles_makes hmakes
          rcases hreached h₁ with hb | hc
          · exact ⟨hopened hmakes (hnext hb) rfl, hb.1⟩
          · exact absurd hc hnone
      | tail _ hmakes ih => exact absurd ih.1 (chainFiles_makes hmakes).2.2
    rw [hlast.1.1, hlast.2]
    decide

/-- A file that includes itself. -/
def selfFile : Text := "<resin:include href='a'/>".toList

/-- The files of which the one includes itself. -/
def selfFiles : Files := fun path => if path = "/a".toList then some selfFile else none

/-- The step that reads the element finds the file again. -/
theorem selfFile_step {parse : Text → Text → Nodes → Option Text → Except Stop Parsed}
    {s : Parser} {is : Rstream}
    (hread : bufRead (Rstream.start selfFile) = (some '<', is))
    (hr : Refines True s { Builder.start selfFile with is := is })
    (hparse : ∀ nodes error, parse "/a".toList selfFile nodes error = .error .endless) :
    s.step (fun _ _ => ' ') selfFiles parse "/a".toList '<' = .error .endless := by
  obtain rfl : (bufRead (Rstream.start selfFile)).2 = is := congrArg Prod.snd hread
  have hbuild : ((Builder.step (fun _ _ => ' ') "/a".toList
      { Builder.start selfFile with is := (bufRead (Rstream.start selfFile)).2 } '<').map
        fun b => (b.count isInclude, b.cur.kids.lastNode)) =
      some (1, some (⟨includeKey, none⟩, .node ⟨"href".toList, some "a".toList⟩ .nil .nil)) := by
    decide +kernel
  obtain ⟨b, hstep, hb⟩ := Option.map_eq_some_iff.mp hbuild
  rw [Prod.mk.injEq] at hb
  rcases step_cases hr (Or.inl (start_plain selfFile)) hstep with
    ⟨_, -, -, hcount⟩ | ⟨s', hs', hfollows, -⟩
  · have hnone := hcount isInclude
    rw [hb.1] at hnone
    cases hnone
  · rw [hs', Parser.includeLast_eq, includeCall_eq hfollows.refines.isOpen, hb.2]
    have hfile : selfFiles "/a".toList = some selfFile := if_pos rfl
    have hhref : includeHref ⟨includeKey, none⟩ (.node ⟨"href".toList, some "a".toList⟩ .nil .nil) =
        some "a".toList := by decide +kernel
    have hpath : includePath "/a".toList "a".toList = "/a".toList := by decide +kernel
    simp only [Option.bind_some, hhref, hpath, hfile, Option.map_some,
      Parser.resume_endless_iff]
    exact hparse _ _

/-- A file that includes itself is read without end. -/
theorem not_run_returns_self :
    ¬ ∀ (fresh : Fresh) (files : Files) (paths : Finset Text),
      (∀ path, files path ≠ none → path ∈ paths) →
      ∀ call : ParseCall, files call.path = some call.file →
        ∃ depth, call.run fresh files depth ≠ .error .endless := by
  intro h
  have hpaths (path : Text) (hpath : selfFiles path ≠ none) :
      path ∈ ({"/a".toList} : Finset Text) := by
    unfold selfFiles at hpath
    split at hpath
    · next heq => exact Finset.mem_singleton.mpr heq
    · exact absurd rfl hpath
  have hendless (depth : ℕ) (nodes : Nodes) (error : Option Text) :
      cseParse (fun _ _ => ' ') selfFiles depth "/a".toList selfFile nodes error =
        .error .endless := by
    induction depth generalizing nodes error with
    | zero => rfl
    | succ depth ih =>
        rcases hread : bufRead (Rstream.start selfFile) with ⟨ch, is⟩
        obtain rfl : ch = some '<' := (congrArg Prod.fst hread).symm
        have hr : Refines True { Parser.start selfFile nodes error with is := is }
            { Builder.start selfFile with is := is } :=
          ⟨rfl, rfl, (start_refines selfFile nodes error).isOpen⟩
        have hread' : bufRead (Parser.start selfFile nodes error).is = (some '<', is) := hread
        rw [cseParse, parseFile, Parser.loop, hread']
        simp only [selfFile_step hread hr ih]
        rfl
  obtain ⟨depth, hdepth⟩ := h (fun _ _ => ' ') selfFiles {"/a".toList} hpaths
    ⟨"/a".toList, selfFile, .empty, none⟩ (if_pos rfl)
  exact hdepth (hendless depth _ _)

end ParseCall

end ModCaucho
