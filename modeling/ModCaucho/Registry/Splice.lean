import ModCaucho.Registry.Returns

/-!
# The splice of an included file

What the splice of `parse_include` does to the nodes when the element that includes a file
was just closed. The nodes of the file take the place of the element, and the siblings that
follow are linked behind them. If the element is the first child, its parent begins with the
root of the file instead, and the nodes are seen below that.
-/

namespace ModCaucho

open LinkedForest

section

variable {strict : Prop} {nodes nodes' sub : Nodes} {q r z : ℕ} {o l : Option ℕ} {s : Registry}
  {lo hi fuel : ℕ}

/-- Parents are not followed when a forest is read. -/
theorem setParents_links (parent : Option ℕ) (fuel : ℕ) (o : Option ℕ) (nodes : Nodes) :
    (setParents parent fuel o nodes).size = nodes.size ∧
      ∀ c, Heap.SameLinks (nodes.cell c) ((setParents parent fuel o nodes).cell c) := by
  induction fuel generalizing o nodes with
  | zero => cases o <;> exact ⟨rfl, fun _ => .of_eq rfl⟩
  | succ fuel ih =>
      cases o with
      | none => exact ⟨rfl, fun _ => .of_eq rfl⟩
      | some ptr =>
          obtain ⟨hsize, hlinks⟩ := ih (nodes.cell ptr).next
            (nodes.modify ptr fun c => { c with parent := parent })
          refine ⟨hsize, fun c => ?_⟩
          obtain ⟨hdata, hfirst, hlast, hnext⟩ := hlinks c
          have hone : Heap.SameLinks (nodes.cell c)
              ((nodes.modify ptr fun c => { c with parent := parent }).cell c) := by
            rw [Heap.modify_cell]
            split
            · next hc =>
                rw [hc]
                exact ⟨rfl, rfl, rfl, rfl⟩
            · exact .of_eq rfl
          exact ⟨hdata.trans hone.1, hfirst.trans hone.2.1, hlast.trans hone.2.2.1,
            hnext.trans hone.2.2.2⟩

/-- Only the nodes of the list get another parent. -/
theorem setParents_frozen (hs : nodes.Segment strict none s o l lo hi) (parent : Option ℕ)
    (fuel : ℕ) : Frozen lo nodes (setParents parent fuel o nodes) := by
  induction s generalizing nodes o l lo fuel with
  | nil =>
      rw [hs.1]
      cases fuel <;> exact .refl _ _
  | node entry first next _ ih =>
      obtain ⟨p, mid, k, m, rfl, -, hlo, -, hfirst, -, hnext⟩ := hs
      have hmid := hfirst.le
      cases fuel with
      | zero => exact .refl _ _
      | succ fuel =>
          have hmoved : (nodes.modify p fun c => { c with parent := parent }).Segment strict none
              next (nodes.cell p).next m mid hi := by
            refine hnext.frame fun c hc _ => .of_eq ?_
            rw [Heap.modify_cell, if_neg (by omega)]
          have hrest := ih hmoved fuel
          exact (frozen_modify hlo _).trans ⟨hrest.1, fun c hc => hrest.2 c (by omega)⟩

/-- The nodes when everything is linked but the parents. -/
def linked (nodes : Nodes) (q r : ℕ) (prev : Option ℕ) : Nodes :=
  let nodes := (linkBefore nodes q r prev).modify r fun c => { c with prev := prev }
  nodes.modify q fun c => { c with last := (nodes.cell r).last }

theorem linked_some (hqr : q ≠ r) (hzr : z ≠ r) (hzq : z ≠ q) (c : ℕ) :
    (linked nodes q r (some z)).cell c =
      if c = q then { nodes.cell q with last := (nodes.cell r).last }
      else if c = r then { nodes.cell r with parent := some q, prev := some z }
      else if c = z then { nodes.cell z with next := (nodes.cell r).first }
      else nodes.cell c := by
  unfold linked linkBefore
  by_cases hc : c = r
  · simp only [Heap.modify_cell, hc, if_neg hqr.symm, if_neg hqr, if_neg hzr.symm, if_true]
  · simp only [Heap.modify_cell, if_neg hc, if_neg hqr, if_neg hzr, if_neg hzr.symm,
      if_neg hzq.symm, if_true]

theorem linked_none (hqr : q ≠ r) (c : ℕ) :
    (linked nodes q r none).cell c =
      if c = q then { nodes.cell q with first := some r, last := (nodes.cell r).last }
      else if c = r then { nodes.cell r with parent := some q, prev := none }
      else nodes.cell c := by
  unfold linked linkBefore
  by_cases hc : c = r
  · simp only [Heap.modify_cell, hc, if_neg hqr.symm, if_true]
  · simp only [Heap.modify_cell, if_neg hc, if_neg hqr, if_neg hqr.symm, if_true]
    split <;> rfl

theorem linked_size (prev : Option ℕ) : (linked nodes q r prev).size = nodes.size := by
  cases prev <;> rfl

/-- The last step of the splice changes nothing that is read. -/
theorem linkBehind_links {prev : Option ℕ}
    (hs : (linked nodes q r prev).Segment strict none s ((linked nodes q r prev).cell r).first l
      (r + 1) nodes.size) :
    (linkBehind (linkBefore nodes q r prev) q r prev).size = nodes.size ∧
      (∀ c ≤ r, (linkBehind (linkBefore nodes q r prev) q r prev).cell c =
        (linked nodes q r prev).cell c) ∧
      (linkBehind (linkBefore nodes q r prev) q r prev).Segment strict none s
        ((linked nodes q r prev).cell r).first l (r + 1) nodes.size := by
  have heq : linkBehind (linkBefore nodes q r prev) q r prev =
      setParents (some q) (linked nodes q r prev).size ((linked nodes q r prev).cell r).first
        (linked nodes q r prev) := rfl
  obtain ⟨hsize, hlinks⟩ := setParents_links (some q) (linked nodes q r prev).size
    ((linked nodes q r prev).cell r).first (linked nodes q r prev)
  have hfrozen := setParents_frozen hs (some q) (linked nodes q r prev).size
  rw [heq]
  exact ⟨hsize.trans (linked_size prev), fun c hc => hfrozen.2 c (Nat.lt_succ_of_le hc),
    hs.frame fun c _ _ => hlinks c⟩

end

/-! ## The element that was closed last -/

section

variable {strict : Prop} {nodes sub : Nodes} {root i q : ℕ} {fr up : Frame Entry}
  {ups : List (Frame Entry)} {entry : Entry} {included : Registry}

/-- The splice replaces the element that was closed last by the nodes of the file, which are
allocated behind all others. -/
theorem splice_open (ho : nodes.Open strict root fr (up :: ups) i)
    (hq : (nodes.cell i).parent = some q) (hfrozen : Frozen nodes.size nodes sub)
    (hsub : sub.Segment True none (.node entry included .nil) (some nodes.size) (some nodes.size)
      nodes.size sub.size) (hne : included ≠ .nil) :
    ∃ nodes', splice sub i nodes.size = some nodes' ∧
      nodes'.Open strict root (up.graft entry included) ups q ∧ Frozen root nodes nodes' := by
  have hi := ho.lt_size
  obtain ⟨e, -, -, -, hpath⟩ := ho
  have hsame : ∀ c < nodes.size, sub.cell c = nodes.cell c := hfrozen.2
  have hpath' : sub.Path strict root (up :: ups) i :=
    hpath.frame (fun c hc => hsame c (by omega)) (by rw [hsame i hi]) (by rw [hsame i hi])
  have hq' : (sub.cell i).parent = some q := by rw [hsame i hi, hq]
  -- where the parent and the sibling in front are
  obtain ⟨q₁, e₁, l₁, hq₁, hz₁, he₁, hholder, hkids, -, hrest⟩ := id hpath'
  cases hq'.symm.trans hq₁
  have hqe := hholder.le
  have hroot := hrest.root_le
  have hqr : q < nodes.size := by omega
  -- the nodes of the file
  obtain ⟨r, mid, k, m, hr, -, -, hdata, hfile, hlast, hnext, -, hmid⟩ := hsub
  cases hr
  rw [← hlast trivial] at hfile
  have hfile' := (hfile.mono (Nat.le_refl _) hmid).weaken fun _ : strict => trivial
  obtain ⟨nodes', hsplice⟩ : ∃ nodes', splice sub i nodes.size = some nodes' := by
    unfold splice
    rw [hq']
    exact ⟨_, rfl⟩
  refine ⟨nodes', hsplice, ?_⟩
  obtain ⟨q₂, hq₂, rfl⟩ := splice_eq (Nat.ne_of_lt hi) hsplice
  cases hq'.symm.trans hq₂
  cases hprev : (sub.cell i).prev with
  | none =>
      have hcell := @linked_none sub q nodes.size (Nat.ne_of_lt hqr)
      have hfirst : ((linked sub q nodes.size none).cell nodes.size).first =
          (sub.cell nodes.size).first := by
        rw [hcell, if_neg (Nat.ne_of_gt hqr), if_pos rfl]
      have hlinked : (linked sub q nodes.size none).Segment strict none included
          ((linked sub q nodes.size none).cell nodes.size).first (sub.cell nodes.size).last
          (nodes.size + 1) sub.size := by
        rw [hfirst]
        refine hfile'.frame fun c hc _ => .of_eq ?_
        rw [hcell, if_neg (by omega), if_neg (by omega)]
      obtain ⟨hsize, hcells, hseg⟩ := linkBehind_links hlinked
      rw [← hcells nodes.size (Nat.le_refl _), ← hsize] at hseg
      refine ⟨hpath'.graft_behind hq' hprev hi hseg hne (fun c hc hcq => ?_) ?_ ?_ ?_, ?_⟩
      · rw [hcells c (by omega), hcell, if_neg hcq, if_neg (by omega)]
      · rw [hcells q (Nat.le_of_lt hqr), hcell, if_pos rfl]
      · rw [hcells nodes.size (Nat.le_refl _), hcell, if_neg (Nat.ne_of_gt hqr), if_pos rfl]
        exact hdata
      · rw [hcells nodes.size (Nat.le_refl _), hcell, if_neg (Nat.ne_of_gt hqr), if_pos rfl]
        exact hnext
      · refine ⟨by rw [hsize]; exact hfrozen.1, fun c hc => ?_⟩
        rw [hcells c (by omega), hcell, if_neg (by omega), if_neg (by omega), hsame c (by omega)]
  | some z =>
      obtain rfl : l₁ = some z := hz₁.symm.trans hprev
      have hz := hkids.last_bounds rfl
      have hcell := @linked_some sub q nodes.size z (Nat.ne_of_lt hqr) (by omega) (by omega)
      have hfirst : ((linked sub q nodes.size (some z)).cell nodes.size).first =
          (sub.cell nodes.size).first := by
        rw [hcell, if_neg (Nat.ne_of_gt hqr), if_pos rfl]
      have hlinked : (linked sub q nodes.size (some z)).Segment strict none included
          ((linked sub q nodes.size (some z)).cell nodes.size).first (sub.cell nodes.size).last
          (nodes.size + 1) sub.size := by
        rw [hfirst]
        refine hfile'.frame fun c hc _ => .of_eq ?_
        rw [hcell, if_neg (by omega), if_neg (by omega), if_neg (by omega)]
      obtain ⟨hsize, hcells, hseg⟩ := linkBehind_links hlinked
      refine ⟨hpath'.graft entry hq' hprev (hseg.mono (by omega) (by omega)) hne
        (fun c hc hcq hcz => ?_) ?_ ?_, ?_⟩
      · rw [hcells c (by omega), hcell, if_neg hcq, if_neg (by omega), if_neg hcz]
      · rw [hcells q (Nat.le_of_lt hqr), hcell, if_pos rfl]
      · rw [hcells z (by omega), hcell, if_neg (by omega), if_neg (by omega), if_pos rfl, hfirst]
      · refine ⟨by rw [hsize]; exact hfrozen.1, fun c hc => ?_⟩
        rw [hcells c (by omega), hcell, if_neg (by omega), if_neg (by omega), if_neg (by omega),
          hsame c (by omega)]

end

end ModCaucho
