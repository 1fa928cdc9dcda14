import ModCaucho.Registry.Returns

/-!
# Finished elements

An element behind its end tag is finished: whatever follows it in the file, and whatever
is included there, the parser changes none of its nodes, but that the element may get
another sibling. The parser goes up by parent pointers and adds behind last children, and
none of these lead into the element.
-/

namespace ModCaucho

open LinkedForest

section

variable {nodes nodes' before : Nodes} {base lo hi node : ℕ}

theorem sealed_setValue (hs : Heap.Sealed before base lo hi nodes) (hlt : lo < hi)
    (hout : ¬ (lo ≤ node ∧ node < hi)) (value : Text) :
    Heap.Sealed before base lo hi (setValue nodes node value) :=
  hs.modify hlt hout fun _ _ hc => ⟨hc.parent, hc.prev, hc.next, hc.first, hc.last⟩

theorem addAttribute_sealed (hs : Heap.Sealed before base lo hi nodes) (hlt : lo < hi)
    (hbase : base ≤ node) (hnode : node < nodes.size) (hout : ¬ (lo ≤ node ∧ node < hi))
    (attr : Attr) : Heap.Sealed before base lo hi (addAttribute nodes node attr) := by
  have hsize := hs.size
  unfold addAttribute
  split
  · cases attr.value with
    | none => exact hs
    | some value => exact sealed_setValue hs hlt hout value
  · have hadd := hs.addLast hlt hbase hnode hout ⟨attr.name, none⟩
    cases attr.value with
    | none => exact hadd
    | some value => exact sealed_setValue hadd hlt (by omega) value

theorem addTag_sealed (ho : nodes.Ordered base) (hs : Heap.Sealed before base lo hi nodes)
    (hlt : lo < hi) (hbase : base ≤ node) (hnode : node < nodes.size)
    (hout : ¬ (lo ≤ node ∧ node < hi)) (tag : Tag) :
    Heap.Sealed before base lo hi (addTag nodes node tag).1 := by
  have hsize := hs.size
  have hattrs (attrs : List Attr) {nodes' : Nodes} (ho' : nodes'.Ordered base)
      (hs' : Heap.Sealed before base lo hi nodes') (hgrow : nodes.size < nodes'.size) :
      Heap.Sealed before base lo hi
        (attrs.foldl (fun nodes' attr => addAttribute nodes' nodes.size attr) nodes') := by
    induction attrs generalizing nodes' with
    | nil => exact hs'
    | cons attr attrs ih =>
        obtain ⟨hone, hfrozen⟩ := addAttribute_keeps ho' (by omega : base ≤ nodes.size) hgrow attr
        exact ih hone (addAttribute_sealed hs' hlt (by omega) hgrow (by omega) attr)
          (Nat.lt_of_lt_of_le hgrow hfrozen.1)
  refine hattrs tag.attrs (ho.addLast hbase hnode ⟨tag.name, none⟩)
    (hs.addLast hlt hbase hnode hout ⟨tag.name, none⟩) ?_
  rw [registryAdd, Heap.addLast_size]
  omega

theorem setParents_sealed (ho : nodes.Ordered base) (hs : Heap.Sealed before base lo hi nodes)
    (hlt : lo < hi) {parent : ℕ} (hparent : base ≤ parent ∧ ¬ (lo ≤ parent ∧ parent < hi))
    {o : Option ℕ} (hchain : ∀ p ∈ o, parent < p ∧ hi ≤ p ∧ p < nodes.size) (fuel : ℕ) :
    Heap.Sealed before base lo hi (setParents (some parent) fuel o nodes) := by
  induction fuel generalizing o nodes with
  | zero => cases o <;> exact hs
  | succ fuel ih =>
      cases o with
      | none => exact hs
      | some ptr =>
          obtain ⟨hptr, hhi, hsize⟩ := hchain ptr rfl
          have hset : ∀ q ∈ some parent, ¬ (lo ≤ q ∧ q < hi) := by
            intro q hq
            cases hq
            exact hparent.2
          have ho' : (nodes.modify ptr fun c => { c with parent := some parent }).Ordered base := by
            refine ho.setParent fun q hq => ?_
            cases hq
            exact ⟨hparent.1, hptr⟩
          refine ih ho' (hs.modify hlt (by omega) fun _ _ hc =>
            ⟨hset, hc.prev, hc.next, hc.first, hc.last⟩) fun p hp => ?_
          have hnext := (ho ptr (by omega) hsize).next p hp
          exact ⟨by omega, by omega, hnext.2⟩

theorem linkBefore_sealed (hs : Heap.Sealed before base lo hi nodes) (hlt : lo < hi)
    {parent sub : ℕ} {prev : Option ℕ} (hparent : ¬ (lo ≤ parent ∧ parent < hi))
    (hprev : ∀ q ∈ prev, ¬ (lo < q ∧ q < hi)) (hbase : base ≤ sub) (hhi : hi ≤ sub)
    (hsub : sub < nodes.size) :
    Heap.Sealed before base lo hi (linkBefore nodes parent sub prev) := by
  have hset : ∀ q ∈ some parent, ¬ (lo ≤ q ∧ q < hi) := by
    intro q hq
    cases hq
    exact hparent
  have h₁ : Heap.Sealed before base lo hi
      (nodes.modify sub fun c => { c with parent := some parent }) :=
    hs.modify hlt (by omega) fun _ _ hc => ⟨hset, hc.prev, hc.next, hc.first, hc.last⟩
  unfold linkBefore
  cases prev with
  | none =>
      refine h₁.modify hlt hparent fun _ _ hc => ⟨hc.parent, hc.prev, hc.next, ?_, hc.last⟩
      intro q hq
      cases hq
      omega
  | some prev => exact h₁.setNext (hprev prev rfl) (h₁.outside sub hbase hsub (by omega)).first

theorem linkBehind_sealed (ho : nodes.Ordered base) (hs : Heap.Sealed before base lo hi nodes)
    (hlt : lo < hi) {parent sub : ℕ} {prev : Option ℕ}
    (hparent : base ≤ parent ∧ parent < sub ∧ ¬ (lo ≤ parent ∧ parent < hi))
    (hback : ∀ q ∈ prev, base ≤ q ∧ q < sub) (hprev : ∀ q ∈ prev, ¬ (lo < q ∧ q < hi))
    (hhi : hi ≤ sub) (hsub : sub < nodes.size) :
    Heap.Sealed before base lo hi (linkBehind nodes parent sub prev) := by
  have ho₁ : (nodes.modify sub fun c => { c with prev := prev }).Ordered base := ho.setPrev hback
  have hs₁ : Heap.Sealed before base lo hi (nodes.modify sub fun c => { c with prev := prev }) :=
    hs.modify hlt (by omega) fun _ _ hc => ⟨hc.parent, hprev, hc.next, hc.first, hc.last⟩
  have ho₂ := ho₁.setLast (p := parent)
    (o := ((nodes.modify sub fun c => { c with prev := prev }).cell sub).last) fun q hq => by
      have hlast := (ho₁ sub (by omega) hsub).last q hq
      exact ⟨by omega, hlast.2⟩
  have hs₂ := hs₁.modify hlt hparent.2.2 (f := fun c => { c with
      last := ((nodes.modify sub fun c => { c with prev := prev }).cell sub).last })
    fun _ _ hc => ⟨hc.parent, hc.prev, hc.next, hc.first,
      (hs₁.outside sub (by omega) hsub (by omega)).last⟩
  unfold linkBehind
  refine setParents_sealed ho₂ hs₂ hlt ⟨hparent.1, hparent.2.2⟩ (fun p hp => ?_) nodes.size
  have hfirst := (ho₂ sub (by omega) hsub).first p hp
  exact ⟨by omega, by omega, hfirst.2⟩

/-- A splice behind the finished element. -/
theorem splice_sealed (ho : nodes.Ordered base) (hs : Heap.Sealed before base lo hi nodes)
    (hlt : lo < hi) {sub : ℕ} (hbase : base ≤ node) (hout : ¬ (lo ≤ node ∧ node < hi))
    (hnode : node < sub) (hhi : hi ≤ sub) (hsub : sub < nodes.size)
    (h : splice nodes node sub = some nodes') : Heap.Sealed before base lo hi nodes' := by
  obtain ⟨parent, hup, rfl⟩ := splice_eq (Nat.ne_of_lt hnode) h
  have hnodeOrdered := ho node hbase (by omega)
  have hnodeApart := hs.outside node hbase (by omega) hout
  have hbound := hnodeOrdered.parent parent hup
  have hparent : base ≤ parent ∧ ¬ (lo ≤ parent ∧ parent < hi) :=
    ⟨hbound.1, hnodeApart.parent parent hup⟩
  have hback : ∀ q ∈ (nodes.cell node).prev, base ≤ q ∧ q < sub := by
    intro q hq
    have hprev := hnodeOrdered.prev q hq
    exact ⟨hprev.1, by omega⟩
  obtain ⟨hordered, -, hsize⟩ := linkBefore_keeps ho ⟨hbound.1, by omega⟩ hback hsub
  have hbefore := linkBefore_sealed hs hlt hparent.2 hnodeApart.prev (by omega) hhi hsub
  exact linkBehind_sealed hordered hbefore hlt ⟨hparent.1, by omega, hparent.2⟩ hback
    hnodeApart.prev hhi (hsize ▸ hsub)

end

namespace Parser

/-- A state of a call in which the nodes from `lo` to `hi` are finished, as they were in the
nodes `done`. -/
structure Seals (before done : Nodes) (lo hi : ℕ) (s : Parser) : Prop where
  keeps : s.Keeps before
  nodes : Heap.Sealed done before.size lo hi s.nodes
  outside : ¬ (lo ≤ s.node ∧ s.node < hi)

variable {fresh : Fresh} {files : Files} {path : Text} {before done : Nodes} {lo hi : ℕ}
  {parse : Text → Text → Nodes → Option Text → Except Stop Parsed} {s s' : Parser}

theorem setText_seals (hlt : lo < hi) (hs : s.Seals before done lo hi) :
    s.setText.Seals before done lo hi := by
  refine ⟨setText_keeps hs.keeps, ?_, ?_⟩
  · unfold setText
    split
    · exact hs.nodes
    · split
      · exact sealed_setValue hs.nodes hlt hs.outside _
      · exact hs.nodes
  · unfold setText
    split
    · exact hs.outside
    · split <;> exact hs.outside

theorem turn_seals (hlt : lo < hi) (hs : s.Seals before done lo hi) {ch : Char} {tagged : Bool}
    (h : s.turn fresh path ch = .ok (tagged, s')) : s'.Seals before done lo hi := by
  have hkeeps := turn_keeps hs.keeps h
  obtain ⟨⟨-, hge, hnode, hordered, -⟩, hnodes, hout⟩ := setText_seals hlt hs
  obtain ⟨_, -, ⟨-, _, rfl⟩ | ⟨_, ⟨-, rfl⟩ | ⟨-, ⟨tag, rfl⟩ | ⟨parent, hparent, rfl⟩⟩⟩⟩ :=
    turn_cases h
  · exact ⟨hkeeps, hs.nodes, hs.outside⟩
  · exact ⟨hkeeps, hnodes, hout⟩
  · refine ⟨hkeeps, addTag_sealed hordered hnodes hlt hge hnode hout tag, ?_⟩
    have hsize := hnodes.size
    unfold addTag
    simp only
    split
    · exact hout
    · omega
  · exact ⟨hkeeps, hnodes, (hnodes.outside _ hge hnode hout).parent parent hparent⟩

/-- A call is made for a last child that is an include element. -/
theorem includeCall_last {call : ParseCall} (h : s.includeCall files path = some call) :
    ∃ last, (s.nodes.cell s.node).last = some last ∧
      (s.nodes.cell last).data.key = includeKey := by
  unfold includeCall at h
  split at h
  · cases h
  · next last hlast =>
      split at h
      · next hkey => exact ⟨last, hlast, hkey⟩
      · cases h

theorem resume_seals (hlt : lo < hi) (hkey : (done.cell lo).data.key ≠ includeKey)
    (hs : s.Seals before done lo hi) {call : ParseCall} {result : Except Stop Parsed}
    (hcall : s.includeCall files path = some call) (hsub : ∀ r, result = .ok r → r.Keeps s.nodes)
    (h : s.resume result = .ok s') : s'.Seals before done lo hi := by
  have hkeeps := resume_keeps hs.keeps hsub h
  obtain ⟨last, hlast, hinclude⟩ := includeCall_last hcall
  obtain ⟨nodes, error, rfl, rfl | ⟨sub, rfl, hnodes⟩⟩ := resume_cases h
  · exact ⟨hkeeps, hs.nodes, hs.outside⟩
  · obtain ⟨hroot, hrootlt, hordered, hfrozen⟩ := hsub sub rfl
    have hglue := hs.nodes.glue hlt hordered hfrozen.1 hfrozen.2
    rcases hnodes with rfl | ⟨last', hlast', hsplice⟩
    · exact ⟨hkeeps, hglue, hs.outside⟩
    · cases hlast.symm.trans hlast'
      have hge := hs.keeps.node_ge
      have hlastOut := (hs.nodes.outside s.node hge hs.keeps.node_lt hs.outside).last last hlast
      have hbounds := (hs.keeps.ordered s.node hge hs.keeps.node_lt).last last hlast
      -- the include element is not the finished one
      have hne : last ≠ lo := by
        rintro rfl
        rw [hs.nodes.top.1] at hinclude
        exact hkey hinclude
      have hsize := hs.nodes.size
      have hall : sub.nodes.Ordered before.size :=
        hs.keeps.ordered.glue hordered hs.keeps.frozen.1 hfrozen.1 hfrozen.2
      exact ⟨hkeeps, splice_sealed hall hglue hlt (by omega) (by omega) (by omega) (by omega)
        hrootlt hsplice, hs.outside⟩

theorem step_seals (hparse : ParseKeeps parse) (hlt : lo < hi)
    (hkey : (done.cell lo).data.key ≠ includeKey) (hs : s.Seals before done lo hi) {ch : Char}
    (h : s.step fresh files parse path ch = .ok s') : s'.Seals before done lo hi := by
  obtain ⟨tagged, s₁, hturn, ⟨-, rfl⟩ | ⟨call, hcall, hresume⟩⟩ := step_cases h
  · exact turn_seals hlt hs hturn
  · refine resume_seals hlt hkey (turn_seals hlt hs hturn) hcall (fun r hr => ?_) hresume
    rw [← (includeCall_spec hcall).2.1]
    exact hparse _ _ _ _ r hr

/-- What is finished stays as it is to the end of the file. -/
theorem loop_seals (hparse : ParseKeeps parse) (hlt : lo < hi)
    (hkey : (done.cell lo).data.key ≠ includeKey) (hs : s.Seals before done lo hi) {fuel : ℕ}
    (h : s.loop fresh files parse path fuel = .ok s') : s'.Seals before done lo hi := by
  induction fuel generalizing s with
  | zero => cases h
  | succ fuel ih =>
      rcases hread : bufRead s.is with ⟨ch, is⟩
      have hs' : Seals before done lo hi { s with is := is } :=
        ⟨hs.keeps.moved is, hs.nodes, hs.outside⟩
      rw [loop, hread] at h
      cases ch with
      | none =>
          cases h
          exact hs'
      | some ch =>
          rcases hstep : step fresh files parse path { s with is := is } ch with stop | s₁
          · simp only [hstep] at h
            cases h
          · simp only [hstep] at h
            exact ih (step_seals hparse hlt hkey hs' hstep) h

end Parser

end ModCaucho
