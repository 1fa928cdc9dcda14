import ModCaucho.Lib.Forest

/-!
# Forests linked by pointers

Cells that are linked to a forest by the pointers to the parent, to both
neighbours, and to the first and the last child. Cells are allocated at growing
addresses and never freed, so that what a subtree holds lies in an interval of
addresses: `Segment` says that an interval holds the siblings from one pointer up
to another one. `Open` says that a heap holds a forest that is being built, for
the cursor at an open node.

A forest that is read at the end is well linked if the last pointers are right as
well. `strict` asks for this; without it the last pointers of closed nodes may be
anything.
-/

namespace LinkedForest

variable {α : Type*}

/-- A node with its pointers. -/
structure Cell (α : Type*) where
  data : α
  parent : Option ℕ
  prev : Option ℕ
  next : Option ℕ
  first : Option ℕ
  last : Option ℕ

/-- The cells at the addresses below `size` are allocated. -/
structure Heap (α : Type*) where
  cell : ℕ → Cell α
  size : ℕ

namespace Heap

/-- A heap without cells. -/
def empty [Inhabited α] : Heap α := ⟨fun _ => ⟨default, none, none, none, none, none⟩, 0⟩

/-- Store in a cell. -/
def modify (h : Heap α) (p : ℕ) (f : Cell α → Cell α) : Heap α :=
  { h with cell := fun q => if q = p then f (h.cell p) else h.cell q }

/-- A new cell. -/
def alloc (h : Heap α) (c : Cell α) : Heap α :=
  ⟨fun q => if q = h.size then c else h.cell q, h.size + 1⟩

/-- A new cell behind the last child of a node. -/
def addLast (h : Heap α) (p : ℕ) (a : α) : Heap α :=
  let child := h.size
  let last := (h.cell p).last
  let h := h.alloc ⟨a, some p, last, none, none, none⟩
  match last with
  | some z =>
      (h.modify z fun c => { c with next := some child }).modify p
        fun c => { c with last := some child }
  | none => h.modify p fun c => { c with first := some child, last := some child }

@[simp] theorem modify_cell (h : Heap α) (p q : ℕ) (f : Cell α → Cell α) :
    (h.modify p f).cell q = if q = p then f (h.cell p) else h.cell q := rfl

@[simp] theorem modify_size (h : Heap α) (p : ℕ) (f : Cell α → Cell α) :
    (h.modify p f).size = h.size := rfl

@[simp] theorem alloc_cell (h : Heap α) (c : Cell α) (q : ℕ) :
    (h.alloc c).cell q = if q = h.size then c else h.cell q := rfl

@[simp] theorem alloc_size (h : Heap α) (c : Cell α) : (h.alloc c).size = h.size + 1 := rfl

@[simp] theorem addLast_size (h : Heap α) (p : ℕ) (a : α) : (h.addLast p a).size = h.size + 1 := by
  unfold addLast
  cases (h.cell p).last <;> rfl

/-- The pointers that reading a forest follows, and the data. -/
def SameLinks (c c' : Cell α) : Prop :=
  c'.data = c.data ∧ c'.first = c.first ∧ c'.last = c.last ∧ c'.next = c.next

theorem SameLinks.of_eq {c c' : Cell α} (h : c' = c) : SameLinks c c' := by
  rw [h]
  exact ⟨rfl, rfl, rfl, rfl⟩

/-! ## Segments -/

/-- The interval from `lo` to `hi` holds the siblings from `o` up to `x`, `l` being the last. -/
def Segment (strict : Prop) (h : Heap α) :
    Option ℕ → Forest α → Option ℕ → Option ℕ → ℕ → ℕ → Prop
  | x, .nil, o, l, lo, hi => o = x ∧ l = none ∧ lo ≤ hi
  | x, .node a f n, o, l, lo, hi =>
      ∃ p mid k m, o = some p ∧ l = some (m.getD p) ∧ lo ≤ p ∧ (h.cell p).data = a ∧
        Segment strict h none f (h.cell p).first k (p + 1) mid ∧
        (strict → (h.cell p).last = k) ∧ Segment strict h x n (h.cell p).next m mid hi

variable {strict : Prop} {h h' : Heap α} {x y o l : Option ℕ} {s t : Forest α} {lo mid hi : ℕ}

theorem Segment.le (hs : Segment strict h x s o l lo hi) : lo ≤ hi := by
  induction s generalizing x o l lo hi with
  | nil => exact hs.2.2
  | node a f n ihf ihn =>
      obtain ⟨p, mid, k, m, -, -, hlo, -, hf, -, hn⟩ := hs
      have hmid := ihf hf
      have hhi := ihn hn
      omega

theorem Segment.last_bounds (hs : Segment strict h x s o l lo hi) {z : ℕ} (hl : l = some z) :
    lo ≤ z ∧ z < hi := by
  induction s generalizing x o l lo hi with
  | nil =>
      rw [hs.2.1] at hl
      cases hl
  | node a f n _ ihn =>
      obtain ⟨p, mid, k, m, -, rfl, hlo, -, hf, -, hn⟩ := hs
      have hmid := hf.le
      have hhi := hn.le
      cases m with
      | none =>
          rw [Option.getD_none, Option.some_inj] at hl
          omega
      | some z' =>
          have hz := ihn hn hl
          omega

theorem Segment.nil_iff (hs : Segment strict h x s o l lo hi) : s = .nil ↔ l = none := by
  cases s with
  | nil => exact ⟨fun _ => hs.2.1, fun _ => rfl⟩
  | node a f n =>
      obtain ⟨p, mid, k, m, -, rfl, -⟩ := hs
      simp

/-- Only a list without siblings begins at NULL. -/
theorem Segment.nil_iff_first (hs : Segment strict h none s o l lo hi) : s = .nil ↔ o = none := by
  cases s with
  | nil => exact ⟨fun _ => hs.1, fun _ => rfl⟩
  | node a f n =>
      obtain ⟨p, mid, k, m, rfl, -⟩ := hs
      simp

/-- Where the last sibling is. -/
theorem Segment.last_node (hs : Segment strict h x s o l lo hi) {z : ℕ} (hl : l = some z) :
    ∃ f k mid, s.lastNode = some ((h.cell z).data, f) ∧ lo ≤ z ∧ mid ≤ hi ∧
      Segment strict h none f (h.cell z).first k (z + 1) mid := by
  induction s generalizing x o l lo hi with
  | nil =>
      rw [hs.2.1] at hl
      cases hl
  | node a f n _ ihn =>
      obtain ⟨p, mid, k, m, -, rfl, hlo, ha, hf, -, hn⟩ := hs
      have hmid := hf.le
      have hhi := hn.le
      cases n with
      | nil =>
          obtain ⟨-, rfl, -⟩ := hn
          rw [Option.getD_none, Option.some_inj] at hl
          subst hl
          exact ⟨f, k, mid, by rw [Forest.lastNode, ha], hlo, hhi, hf⟩
      | node a' f' n' =>
          have hm : m = some z := by
            obtain ⟨p', mid', k', m', -, hm, -⟩ := id hn
            rw [hm, Option.getD_some] at hl
            rw [hm, hl]
          obtain ⟨f'', k'', mid'', hlast, hz, hle, hseg⟩ := ihn hn hm
          exact ⟨f'', k'', mid'', hlast, by omega, hle, hseg⟩

theorem Segment.mono (hs : Segment strict h x s o l lo hi) {lo' hi' : ℕ} (hlo : lo' ≤ lo)
    (hhi : hi ≤ hi') : Segment strict h x s o l lo' hi' := by
  induction s generalizing x o l lo lo' hi with
  | nil => exact ⟨hs.1, hs.2.1, Nat.le_trans hlo (Nat.le_trans hs.2.2 hhi)⟩
  | node a f n _ ihn =>
      obtain ⟨p, mid, k, m, ho, hl, hp, ha, hf, hk, hn⟩ := hs
      exact ⟨p, mid, k, m, ho, hl, Nat.le_trans hlo hp, ha, hf, hk, ihn hn (Nat.le_refl _) hhi⟩

/-- A segment depends on its interval only. -/
theorem Segment.frame (hs : Segment strict h x s o l lo hi)
    (hsame : ∀ q, lo ≤ q → q < hi → SameLinks (h.cell q) (h'.cell q)) :
    Segment strict h' x s o l lo hi := by
  induction s generalizing x o l lo hi with
  | nil => exact hs
  | node a f n ihf ihn =>
      obtain ⟨p, mid, k, m, ho, hl, hp, ha, hf, hk, hn⟩ := hs
      have hmid := hf.le
      have hhi := hn.le
      obtain ⟨hdata, hfirst, hlast, hnext⟩ := hsame p hp (by omega)
      refine ⟨p, mid, k, m, ho, hl, hp, hdata.trans ha, ?_, ?_, ?_⟩
      · rw [hfirst]
        exact ihf hf fun q hq hq' => hsame q (by omega) (by omega)
      · rw [hlast]
        exact hk
      · rw [hnext]
        exact ihn hn fun q hq hq' => hsame q (by omega) (by omega)

/-- The pointer behind the last sibling is turned to another cell. -/
theorem Segment.relink (hs : Segment strict h x s o l lo hi) (hne : s ≠ .nil)
    (hsame : ∀ q, lo ≤ q → q < hi → l ≠ some q → SameLinks (h.cell q) (h'.cell q))
    (hlast : ∀ q, l = some q → SameLinks { h.cell q with next := y } (h'.cell q)) :
    Segment strict h' y s o l lo hi := by
  induction s generalizing x o l lo hi with
  | nil => exact absurd rfl hne
  | node a f n _ ihn =>
      obtain ⟨p, mid, k, m, ho, hl, hp, ha, hf, hk, hn⟩ := hs
      have hmid := hf.le
      have hhi := hn.le
      cases n with
      | nil =>
          obtain ⟨-, rfl, -⟩ := hn
          obtain ⟨hdata, hfirst, hend, hnext⟩ := hlast p hl
          refine ⟨p, mid, k, none, ho, hl, hp, hdata.trans ha, ?_, ?_, ?_⟩
          · rw [hfirst]
            refine hf.frame fun q hq hq' => hsame q (by omega) (by omega) ?_
            rw [hl, Option.getD_none, ne_eq, Option.some_inj]
            omega
          · rw [hend]
            exact hk
          · exact ⟨hnext, rfl, hhi⟩
      | node a' f' n' =>
          have hm : ∃ z, m = some z := by
            obtain ⟨p', mid', k', m', -, hm, -⟩ := hn
            exact ⟨_, hm⟩
          obtain ⟨z, rfl⟩ := hm
          have hz := hn.last_bounds rfl
          have hpl : l ≠ some p := by
            rw [hl, Option.getD_some, ne_eq, Option.some_inj]
            omega
          obtain ⟨hdata, hfirst, hend, hnext⟩ := hsame p hp (by omega) hpl
          refine ⟨p, mid, k, some z, ho, hl, hp, hdata.trans ha, ?_, ?_, ?_⟩
          · rw [hfirst]
            refine hf.frame fun q hq hq' => hsame q (by omega) (by omega) ?_
            rw [hl, Option.getD_some, ne_eq, Option.some_inj]
            omega
          · rw [hend]
            exact hk
          · rw [hnext]
            refine ihn hn (by simp) ?_ ?_
            · intro q hq hq' hne'
              exact hsame q (by omega) hq' (by rwa [hl])
            · intro q hq
              exact hlast q (by rw [hl, ← hq, Option.getD_some])

theorem Segment.append (hs : Segment strict h x s o l lo mid) {m : Option ℕ}
    (ht : Segment strict h y t x m mid hi) : Segment strict h y (s.append t) o (m.or l) lo hi := by
  induction s generalizing o l lo with
  | nil =>
      obtain ⟨rfl, rfl, hlo⟩ := hs
      rw [Option.or_none]
      exact ht.mono hlo (Nat.le_refl _)
  | node a f n _ ihn =>
      obtain ⟨p, mid', k, m', ho, rfl, hp, ha, hf, hk, hn⟩ := hs
      refine ⟨p, mid', k, m.or m', ho, ?_, hp, ha, hf, hk, ihn hn⟩
      cases m <;> rfl

theorem Segment.weaken {strict' : Prop} (hle : strict' → strict)
    (hs : Segment strict h x s o l lo hi) : Segment strict' h x s o l lo hi := by
  induction s generalizing x o l lo hi with
  | nil => exact hs
  | node a f n ihf ihn =>
      obtain ⟨p, mid, k, m, ho, hl, hp, ha, hf, hk, hn⟩ := hs
      exact ⟨p, mid, k, m, ho, hl, hp, ha, ihf hf, fun hs' => hk (hle hs'), ihn hn⟩

/-! ## What is read -/

/-- Following `first` and `next` from `o` gives this forest, `l` is the last of its top
nodes, and the last pointer of every node in it is right. -/
def Reads (h : Heap α) : Forest α → Option ℕ → Option ℕ → Prop
  | .nil, o, l => o = none ∧ l = none
  | .node a f n, o, l =>
      ∃ p m, o = some p ∧ l = some (m.getD p) ∧ (h.cell p).data = a ∧
        Reads h f (h.cell p).first (h.cell p).last ∧ Reads h n (h.cell p).next m

theorem Segment.reads (hs : Segment True h none s o l lo hi) : Reads h s o l := by
  induction s generalizing o l lo hi with
  | nil => exact ⟨hs.1, hs.2.1⟩
  | node a f n ihf ihn =>
      obtain ⟨p, mid, k, m, ho, hl, -, ha, hf, hk, hn⟩ := hs
      refine ⟨p, m, ho, hl, ha, ?_, ihn hn⟩
      rw [hk trivial]
      exact ihf hf

/-- A heap does not hold two forests at one pointer. -/
theorem Segment.eq_of_reads (hs : Segment strict h none s o l lo hi) {l' : Option ℕ}
    (ht : Reads h t o l') : s = t := by
  induction s generalizing o l lo hi t l' with
  | nil =>
      cases t with
      | nil => rfl
      | node a f n =>
          obtain ⟨p, m, ho, -⟩ := ht
          rw [hs.1] at ho
          cases ho
  | node a f n ihf ihn =>
      obtain ⟨p, mid, k, m, rfl, -, -, ha, hf, -, hn⟩ := hs
      cases t with
      | nil => cases ht.1
      | node a' f' n' =>
          obtain ⟨p', m', ho, -, ha', hf', hn'⟩ := ht
          cases ho
          rw [ihf hf hf', ihn hn hn', ← ha, ha']

end Heap

end LinkedForest
