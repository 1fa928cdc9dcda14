import ModCaucho.Lib.LinkedForest

/-!
# Heaps whose pointers are ordered

Cells are allocated at growing addresses, so a pointer to a parent or to an earlier
neighbour goes back and every other pointer goes forth. Lists of siblings in such a heap
end, in whatever way they are linked otherwise.
-/

namespace LinkedForest

variable {α : Type*}

/-- The pointers of a cell at `p` stay within bounds, and each has its direction. -/
structure Cell.Ordered (lo hi p : ℕ) (c : Cell α) : Prop where
  parent : ∀ q ∈ c.parent, lo ≤ q ∧ q < p
  prev : ∀ q ∈ c.prev, lo ≤ q ∧ q < p
  next : ∀ q ∈ c.next, p < q ∧ q < hi
  first : ∀ q ∈ c.first, p < q ∧ q < hi
  last : ∀ q ∈ c.last, p < q ∧ q < hi

theorem Cell.Ordered.mono {lo lo' hi hi' p : ℕ} {c : Cell α} (h : c.Ordered lo hi p)
    (hlo : lo' ≤ lo) (hhi : hi ≤ hi') : c.Ordered lo' hi' p where
  parent q hq := ⟨Nat.le_trans hlo (h.parent q hq).1, (h.parent q hq).2⟩
  prev q hq := ⟨Nat.le_trans hlo (h.prev q hq).1, (h.prev q hq).2⟩
  next q hq := ⟨(h.next q hq).1, Nat.lt_of_lt_of_le (h.next q hq).2 hhi⟩
  first q hq := ⟨(h.first q hq).1, Nat.lt_of_lt_of_le (h.first q hq).2 hhi⟩
  last q hq := ⟨(h.last q hq).1, Nat.lt_of_lt_of_le (h.last q hq).2 hhi⟩

namespace Heap

/-- The cells from an address on keep to themselves, with their pointers ordered. -/
def Ordered (lo : ℕ) (h : Heap α) : Prop :=
  ∀ p, lo ≤ p → p < h.size → (h.cell p).Ordered lo h.size p

/-- The list that is followed from a pointer comes to NULL. -/
inductive Ends (h : Heap α) : Option ℕ → Prop
  | null : Ends h none
  | next {p : ℕ} (hnext : Ends h (h.cell p).next) : Ends h (some p)

variable {h h' : Heap α} {lo p : ℕ}

theorem Ordered.modify (ho : h.Ordered lo) {f : Cell α → Cell α}
    (hf : lo ≤ p → p < h.size → (f (h.cell p)).Ordered lo h.size p) :
    (h.modify p f).Ordered lo := by
  intro q hq hq'
  rw [modify_cell]
  split
  · next heq =>
      subst heq
      exact hf hq hq'
  · exact ho q hq hq'

theorem Ordered.setParent (ho : h.Ordered lo) {o : Option ℕ} (hq : ∀ q ∈ o, lo ≤ q ∧ q < p) :
    (h.modify p fun c => { c with parent := o }).Ordered lo := by
  refine ho.modify fun hlo hlt => ?_
  obtain ⟨-, hprev, hnext, hfirst, hlast⟩ := ho p hlo hlt
  exact ⟨hq, hprev, hnext, hfirst, hlast⟩

theorem Ordered.setPrev (ho : h.Ordered lo) {o : Option ℕ} (hq : ∀ q ∈ o, lo ≤ q ∧ q < p) :
    (h.modify p fun c => { c with prev := o }).Ordered lo := by
  refine ho.modify fun hlo hlt => ?_
  obtain ⟨hparent, -, hnext, hfirst, hlast⟩ := ho p hlo hlt
  exact ⟨hparent, hq, hnext, hfirst, hlast⟩

theorem Ordered.setNext (ho : h.Ordered lo) {o : Option ℕ} (hq : ∀ q ∈ o, p < q ∧ q < h.size) :
    (h.modify p fun c => { c with next := o }).Ordered lo := by
  refine ho.modify fun hlo hlt => ?_
  obtain ⟨hparent, hprev, -, hfirst, hlast⟩ := ho p hlo hlt
  exact ⟨hparent, hprev, hq, hfirst, hlast⟩

theorem Ordered.setFirst (ho : h.Ordered lo) {o : Option ℕ} (hq : ∀ q ∈ o, p < q ∧ q < h.size) :
    (h.modify p fun c => { c with first := o }).Ordered lo := by
  refine ho.modify fun hlo hlt => ?_
  obtain ⟨hparent, hprev, hnext, -, hlast⟩ := ho p hlo hlt
  exact ⟨hparent, hprev, hnext, hq, hlast⟩

theorem Ordered.setLast (ho : h.Ordered lo) {o : Option ℕ} (hq : ∀ q ∈ o, p < q ∧ q < h.size) :
    (h.modify p fun c => { c with last := o }).Ordered lo := by
  refine ho.modify fun hlo hlt => ?_
  obtain ⟨hparent, hprev, hnext, hfirst, -⟩ := ho p hlo hlt
  exact ⟨hparent, hprev, hnext, hfirst, hq⟩

theorem Ordered.alloc (ho : h.Ordered lo) {c : Cell α} (hc : c.Ordered lo (h.size + 1) h.size) :
    (h.alloc c).Ordered lo := by
  intro q hq hq'
  rw [alloc_cell]
  split
  · next heq =>
      subst heq
      exact hc
  · next hne =>
      rw [alloc_size] at hq'
      exact (ho q hq (by omega)).mono (Nat.le_refl _) (Nat.le_succ _)

theorem Ordered.addLast (ho : h.Ordered lo) (hlo : lo ≤ p) (hp : p < h.size) (a : α) :
    (h.addLast p a).Ordered lo := by
  have hlast : ∀ z ∈ (h.cell p).last, p < z ∧ z < h.size := (ho p hlo hp).last
  have halloc : (h.alloc ⟨a, some p, (h.cell p).last, none, none, none⟩).Ordered lo := by
    have hparent : ∀ q ∈ some p, lo ≤ q ∧ q < h.size := by
      intro q hq
      cases hq
      exact ⟨hlo, hp⟩
    have hprev : ∀ q ∈ (h.cell p).last, lo ≤ q ∧ q < h.size := by
      intro q hq
      have hz := hlast q hq
      exact ⟨by omega, hz.2⟩
    exact ho.alloc ⟨hparent, hprev, by simp, by simp, by simp⟩
  have hchild : ∀ q ∈ some h.size, p < q ∧ q < h.size + 1 := by
    intro q hq
    cases hq
    exact ⟨hp, Nat.lt_succ_self _⟩
  unfold Heap.addLast
  cases hz : (h.cell p).last with
  | none =>
      rw [hz] at halloc
      refine halloc.modify fun hq hq' => ?_
      obtain ⟨hparent, hprev, hnext, -, -⟩ := halloc p hq hq'
      exact ⟨hparent, hprev, hnext, hchild, hchild⟩
  | some z =>
      rw [hz] at halloc
      refine (halloc.setNext fun q hq => ?_).setLast hchild
      cases hq
      exact ⟨(hlast z hz).2, Nat.lt_succ_self _⟩

/-- Cells that keep to themselves are allocated behind the others. -/
theorem Ordered.glue (ho : h.Ordered lo) (ho' : h'.Ordered h.size) (hlo : lo ≤ h.size)
    (hsize : h.size ≤ h'.size) (hsame : ∀ q < h.size, h'.cell q = h.cell q) : h'.Ordered lo := by
  intro q hq hq'
  by_cases hlt : q < h.size
  · rw [hsame q hlt]
    exact (ho q hq hlt).mono (Nat.le_refl _) hsize
  · exact (ho' q (Nat.le_of_not_lt hlt) hq').mono hlo (Nat.le_refl _)

theorem Ordered.ends (ho : h.Ordered lo) {o : Option ℕ} (hbound : ∀ p ∈ o, lo ≤ p ∧ p < h.size) :
    h.Ends o := by
  induction hn : h.size - o.getD h.size using Nat.strongRecOn generalizing o with
  | ind n ih =>
      cases o with
      | none => exact .null
      | some p =>
          obtain ⟨hlo, hp⟩ := hbound p rfl
          refine .next (ih _ ?_ (fun q hq => ?_) rfl)
          · cases hnext : (h.cell p).next with
            | none =>
                simp only [Option.getD_some, Option.getD_none] at hn ⊢
                omega
            | some q =>
                have hq := (ho p hlo hp).next q hnext
                simp only [Option.getD_some] at hn ⊢
                omega
          · have hq := (ho p hlo hp).next q hq
            exact ⟨by omega, hq.2⟩

end Heap

/-! ## Sealed cells -/

/-- No pointer leads to the cells from `lo` to `hi`, but that siblings and a parent may point to
the first one. -/
structure Cell.Apart (lo hi : ℕ) (c : Cell α) : Prop where
  parent : ∀ q ∈ c.parent, ¬ (lo ≤ q ∧ q < hi)
  prev : ∀ q ∈ c.prev, ¬ (lo < q ∧ q < hi)
  next : ∀ q ∈ c.next, ¬ (lo < q ∧ q < hi)
  first : ∀ q ∈ c.first, ¬ (lo < q ∧ q < hi)
  last : ∀ q ∈ c.last, ¬ (lo < q ∧ q < hi)

namespace Heap

variable {h h' h₀ : Heap α} {base lo hi p : ℕ}

/-- The cells from `lo` to `hi` are a finished node with what is below it: they are as in
another heap but for the siblings of the node, and the other cells from `base` on do not lead
below the node. -/
structure Sealed (h₀ : Heap α) (base lo hi : ℕ) (h : Heap α) : Prop where
  size : hi ≤ h.size
  inside : ∀ q, lo < q → q < hi → h.cell q = h₀.cell q
  top : (h.cell lo).data = (h₀.cell lo).data ∧ (h.cell lo).first = (h₀.cell lo).first ∧
    (h.cell lo).last = (h₀.cell lo).last
  outside : ∀ q, base ≤ q → q < h.size → ¬ (lo ≤ q ∧ q < hi) → (h.cell q).Apart lo hi

theorem Sealed.modify (hs : Sealed h₀ base lo hi h) (hlt : lo < hi) (hp : ¬ (lo ≤ p ∧ p < hi))
    {f : Cell α → Cell α}
    (hf : base ≤ p → p < h.size → (h.cell p).Apart lo hi → (f (h.cell p)).Apart lo hi) :
    Sealed h₀ base lo hi (h.modify p f) := by
  refine ⟨hs.size, fun q hq hq' => ?_, ?_, fun q hq hq' hout => ?_⟩
  · rw [modify_cell, if_neg (by omega)]
    exact hs.inside q hq hq'
  · rw [modify_cell, if_neg (by omega)]
    exact hs.top
  · rw [modify_cell]
    split
    · next heq =>
        subst heq
        exact hf hq hq' (hs.outside q hq hq' hout)
    · exact hs.outside q hq hq' hout

/-- The node may get another sibling behind it. -/
theorem Sealed.setNext (hs : Sealed h₀ base lo hi h) (hp : ¬ (lo < p ∧ p < hi)) {o : Option ℕ}
    (ho : ∀ q ∈ o, ¬ (lo < q ∧ q < hi)) :
    Sealed h₀ base lo hi (h.modify p fun c => { c with next := o }) := by
  refine ⟨hs.size, fun q hq hq' => ?_, ?_, fun q hq hq' hout => ?_⟩
  · rw [modify_cell, if_neg (by omega)]
    exact hs.inside q hq hq'
  · rw [modify_cell]
    split
    · next heq =>
        subst heq
        exact hs.top
    · exact hs.top
  · rw [modify_cell]
    split
    · next heq =>
        subst heq
        obtain ⟨hparent, hprev, -, hfirst, hlast⟩ := hs.outside q hq hq' hout
        exact ⟨hparent, hprev, ho, hfirst, hlast⟩
    · exact hs.outside q hq hq' hout

theorem Sealed.alloc (hs : Sealed h₀ base lo hi h) (hlt : lo < hi) {c : Cell α}
    (hc : c.Apart lo hi) : Sealed h₀ base lo hi (h.alloc c) := by
  have hsize := hs.size
  refine ⟨Nat.le_succ_of_le hsize, fun q hq hq' => ?_, ?_, fun q hq hq' hout => ?_⟩
  · rw [alloc_cell, if_neg (by omega)]
    exact hs.inside q hq hq'
  · rw [alloc_cell, if_neg (by omega)]
    exact hs.top
  · rw [alloc_cell]
    split
    · exact hc
    · rw [alloc_size] at hq'
      exact hs.outside q hq (by omega) hout

theorem Sealed.addLast (hs : Sealed h₀ base lo hi h) (hlt : lo < hi) (hbase : base ≤ p)
    (hp : p < h.size) (hout : ¬ (lo ≤ p ∧ p < hi)) (a : α) :
    Sealed h₀ base lo hi (h.addLast p a) := by
  have hsize := hs.size
  have hlast := (hs.outside p hbase hp hout).last
  have hchild : ∀ q ∈ some h.size, ¬ (lo < q ∧ q < hi) := by
    intro q hq
    cases hq
    omega
  have hparent : ∀ q ∈ some p, ¬ (lo ≤ q ∧ q < hi) := by
    intro q hq
    cases hq
    exact hout
  have halloc : Sealed h₀ base lo hi (h.alloc ⟨a, some p, (h.cell p).last, none, none, none⟩) :=
    hs.alloc hlt ⟨hparent, hlast, by simp, by simp, by simp⟩
  unfold Heap.addLast
  cases hz : (h.cell p).last with
  | none =>
      rw [hz] at halloc
      refine halloc.modify hlt hout fun _ _ hc => ?_
      exact ⟨hc.parent, hc.prev, hc.next, hchild, hchild⟩
  | some z =>
      rw [hz] at halloc
      refine (halloc.setNext (hlast z hz) hchild).modify hlt hout fun _ _ hc => ?_
      exact ⟨hc.parent, hc.prev, hc.next, hc.first, hchild⟩

/-- Cells that keep to themselves are allocated behind the others. -/
theorem Sealed.glue (hs : Sealed h₀ base lo hi h) (hlt : lo < hi) (ho : h'.Ordered h.size)
    (hsize : h.size ≤ h'.size) (hsame : ∀ q < h.size, h'.cell q = h.cell q) :
    Sealed h₀ base lo hi h' := by
  have hhi := hs.size
  refine ⟨Nat.le_trans hhi hsize, fun q hq hq' => ?_, ?_, fun q hq hq' hout => ?_⟩
  · rw [hsame q (by omega)]
    exact hs.inside q hq hq'
  · rw [hsame lo (by omega)]
    exact hs.top
  · by_cases hnew : q < h.size
    · rw [hsame q hnew]
      exact hs.outside q hq hnew hout
    · obtain ⟨hparent, hprev, hnext, hfirst, hlast⟩ := ho q (by omega) hq'
      refine ⟨fun r hr => ?_, fun r hr => ?_, fun r hr => ?_, fun r hr => ?_, fun r hr => ?_⟩
      · have := hparent r hr
        omega
      · have := hprev r hr
        omega
      · have := hnext r hr
        omega
      · have := hfirst r hr
        omega
      · have := hlast r hr
        omega

/-- The children of the finished node are read as before. -/
theorem Sealed.reads (hs : Sealed h₀ base lo hi h) {s : Forest α}
    (hkids : Segment True h₀ none s (h₀.cell lo).first (h₀.cell lo).last (lo + 1) hi) :
    Reads h s (h.cell lo).first (h.cell lo).last := by
  rw [hs.top.2.1, hs.top.2.2]
  exact (hkids.frame fun q hq hq' => .of_eq (hs.inside q (by omega) hq')).reads

/-! ## Reading a forest -/

/-- The forest that is read from a pointer on, by following `first` and `next`. -/
def read (h : Heap α) : ℕ → Option ℕ → Forest α
  | fuel + 1, some p =>
      .node (h.cell p).data (h.read fuel (h.cell p).first) (h.read fuel (h.cell p).next)
  | _, _ => .nil

@[simp] theorem read_none (h : Heap α) (fuel : ℕ) : h.read fuel none = .nil := by
  cases fuel <;> rfl

/-- The pointers go forth, so the addresses that are left bound the reading. -/
theorem Ordered.read_fuel (ho : h.Ordered lo) {fuel fuel' : ℕ} {o : Option ℕ}
    (hbounds : ∀ p ∈ o, lo ≤ p ∧ p < h.size) (hfuel : ∀ p ∈ o, h.size - p ≤ fuel)
    (hfuel' : ∀ p ∈ o, h.size - p ≤ fuel') : h.read fuel o = h.read fuel' o := by
  induction fuel generalizing fuel' o with
  | zero =>
      cases o with
      | none => simp
      | some p =>
          have hlt := (hbounds p rfl).2
          have hnone := hfuel p rfl
          omega
  | succ fuel ih =>
      cases o with
      | none => simp
      | some p =>
          obtain ⟨hlo, hlt⟩ := hbounds p rfl
          have hleft := hfuel p rfl
          have hleft' := hfuel' p rfl
          obtain ⟨fuel', rfl⟩ : ∃ n, fuel' = n + 1 := ⟨fuel' - 1, by omega⟩
          have hcell := ho p hlo hlt
          have hforth {o : Option ℕ} (ho' : ∀ q ∈ o, p < q ∧ q < h.size) :
              h.read fuel o = h.read fuel' o := by
            refine ih (fun q hq => ?_) (fun q hq => ?_) (fun q hq => ?_)
            all_goals have hq' := ho' q hq
            · exact ⟨by omega, hq'.2⟩
            · omega
            · omega
          rw [read, read, hforth hcell.first, hforth hcell.next]

end Heap

end LinkedForest
