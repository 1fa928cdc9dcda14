import ModCaucho.Lib.LinkedForest

/-!
# Forests under construction

A heap that holds a forest which is being built: a cursor at an open node, whose
ancestors are open as well. Opening a node below the cursor, changing the data of
the node at the cursor and closing it keep the representation, and so does linking
other siblings in place of the node that was closed last.
-/

namespace LinkedForest.Heap

variable {α : Type*} {strict : Prop} {h h' : Heap α} {fr up : Frame α} {ups : List (Frame α)}
  {root p : ℕ}

/-- The frame is held by the cell at `p`, and its children begin at the first pointer of
the cell at `e`. The two are the same unless the children hang behind a node more. -/
def Holder (h : Heap α) (fr : Frame α) (p e : ℕ) : Prop :=
  (h.cell p).data = fr.data ∧ (h.cell p).next = none ∧
    match fr.behind with
    | none => e = p
    | some a => (h.cell p).first = some e ∧ p < e ∧ (h.cell e).data = a ∧
        (h.cell e).next = none ∧ fr.kids ≠ .nil

/-- The nodes above an open node at `p`, from the innermost one up to the root. -/
def Path (strict : Prop) (h : Heap α) (root : ℕ) : List (Frame α) → ℕ → Prop
  | [], p => p = root ∧ (h.cell p).parent = none
  | fr :: frs, p =>
      ∃ q e l, (h.cell p).parent = some q ∧ (h.cell p).prev = l ∧ e < p ∧ Holder h fr q e ∧
        Segment strict h (some p) fr.kids (h.cell e).first l (e + 1) p ∧
        (h.cell q).last = some p ∧ Path strict h root frs q

/-- The heap holds the forest that is built with the cursor at the open node at `p`. -/
def Open (strict : Prop) (h : Heap α) (root : ℕ) (fr : Frame α) (frs : List (Frame α))
    (p : ℕ) : Prop :=
  ∃ e, e < h.size ∧ Holder h fr p e ∧
    Segment strict h none fr.kids (h.cell e).first (h.cell p).last (e + 1) h.size ∧
    Path strict h root frs p

theorem Holder.le {e : ℕ} (hh : Holder h fr p e) : p ≤ e := by
  obtain ⟨-, -, hb⟩ := hh
  cases hbehind : fr.behind with
  | none =>
      simp only [hbehind] at hb
      omega
  | some a =>
      simp only [hbehind] at hb
      omega

theorem Path.root_le {frs : List (Frame α)} (hp : Path strict h root frs p) : root ≤ p := by
  induction frs generalizing p with
  | nil => exact Nat.le_of_eq hp.1.symm
  | cons fr frs ih =>
      obtain ⟨q, e, l, -, -, he, hq, -, -, hrest⟩ := hp
      have hroot := ih hrest
      have hle := hq.le
      omega

theorem Holder.frame {e : ℕ} (hh : Holder h fr p e) (hp : h'.cell p = h.cell p)
    (he : h'.cell e = h.cell e) : Holder h' fr p e := by
  unfold Holder at hh ⊢
  rw [hp, he]
  exact hh

/-- A node and its children, when it counts as closed. A node whose children hang behind
another one does not have the last pointer of a well linked forest. -/
theorem Holder.tree_segment {e hi : ℕ} (hh : Holder h fr p e)
    (hkids : Segment strict h none fr.kids (h.cell e).first (h.cell p).last (e + 1) hi)
    (hb : fr.behind = none ∨ ¬ strict) :
    Segment strict h none fr.tree (some p) (some p) p hi := by
  obtain ⟨hdata, hnext, hbehind⟩ := hh
  unfold Frame.tree Frame.forest
  cases hfr : fr.behind with
  | none =>
      simp only [hfr] at hbehind ⊢
      subst hbehind
      exact ⟨e, hi, (h.cell e).last, none, rfl, rfl, Nat.le_refl _, hdata, hkids,
        fun _ => rfl, hnext, rfl, Nat.le_refl _⟩
  | some d =>
      simp only [hfr] at hbehind ⊢
      obtain ⟨hfirst, hlt, hed, hen, -⟩ := hbehind
      have hloose : ¬ strict := hb.resolve_left (by simp [hfr])
      refine ⟨p, hi, some e, none, rfl, rfl, Nat.le_refl _, hdata, ?_,
        fun hs => absurd hs hloose, hnext, rfl, Nat.le_refl _⟩
      exact ⟨e, hi, (h.cell p).last, none, hfirst, rfl, hlt, hed, hkids,
        fun hs => absurd hs hloose, hen, rfl, Nat.le_refl _⟩

/-- The path above a node does not see what happens at and behind it. -/
theorem Path.frame {frs : List (Frame α)} (hpath : Path strict h root frs p)
    (hsame : ∀ q, q < p → h'.cell q = h.cell q) (hparent : (h'.cell p).parent = (h.cell p).parent)
    (hprev : (h'.cell p).prev = (h.cell p).prev) : Path strict h' root frs p := by
  induction frs generalizing p with
  | nil => exact ⟨hpath.1, hparent.trans hpath.2⟩
  | cons fr frs ih =>
      obtain ⟨q, e, l, hq, hl, he, hholder, hkids, hlast, hrest⟩ := hpath
      have hle := hholder.le
      have hcell := hsame q (by omega)
      refine ⟨q, e, l, hparent.trans hq, hprev.trans hl, he,
        hholder.frame hcell (hsame e he), ?_, ?_, ?_⟩
      · rw [hsame e he]
        exact hkids.frame fun r hr hr' => .of_eq (hsame r hr')
      · rw [hcell]
        exact hlast
      · exact ih hrest (fun r hr => hsame r (by omega)) (by rw [hcell]) (by rw [hcell])

/-! ## The cells that `addLast` touches -/

theorem addLast_cell_size (hp : p < h.size) (hlast : ∀ z, (h.cell p).last = some z → z < h.size)
    (a : α) :
    (h.addLast p a).cell h.size = ⟨a, some p, (h.cell p).last, none, none, none⟩ := by
  have hne : h.size ≠ p := by omega
  unfold addLast
  cases hz : (h.cell p).last with
  | none => simp [hne]
  | some z =>
      have hz' : h.size ≠ z := by
        have := hlast z hz
        omega
      simp [hne, hz']

theorem addLast_cell_self (hp : p < h.size) (hlast : (h.cell p).last ≠ some p) (a : α) :
    (h.addLast p a).cell p =
      { h.cell p with
        first := if (h.cell p).last = none then some h.size else (h.cell p).first
        last := some h.size } := by
  have hne : p ≠ h.size := by omega
  unfold addLast
  cases hz : (h.cell p).last with
  | none => simp [hne]
  | some z =>
      have hpz : p ≠ z := fun heq => hlast (heq ▸ hz)
      simp [hne, hpz]

theorem addLast_cell_last {z : ℕ} (hz : (h.cell p).last = some z) (hzp : z ≠ p) (hlt : z < h.size)
    (a : α) : (h.addLast p a).cell z = { h.cell z with next := some h.size } := by
  have hne : z ≠ h.size := by omega
  simp [addLast, hz, hzp, hne]

theorem addLast_cell_other {q : ℕ} (hq : q ≠ p) (hlt : q < h.size)
    (hlast : (h.cell p).last ≠ some q) (a : α) : (h.addLast p a).cell q = h.cell q := by
  have hne : q ≠ h.size := by omega
  unfold addLast
  cases hz : (h.cell p).last with
  | none => simp [hq, hne]
  | some z =>
      have hqz : q ≠ z := fun heq => hlast (heq ▸ hz)
      simp [hq, hqz, hne]

/-- The data of a new cell may be changed before or after it is linked. -/
theorem addLast_modify (hp : p < h.size) (hlast : ∀ z, (h.cell p).last = some z → z < h.size)
    (a : α) (f : α → α) :
    (h.addLast p a).modify h.size (fun c => { c with data := f c.data }) = h.addLast p (f a) := by
  have hne : p ≠ h.size := by omega
  have hcell (q : ℕ) : ((h.addLast p a).modify h.size fun c => { c with data := f c.data }).cell q =
      (h.addLast p (f a)).cell q := by
    unfold addLast
    cases hz : (h.cell p).last with
    | none =>
        by_cases hq : q = h.size
        · simp [hq, hne.symm]
        · simp [hq, hne]
    | some z =>
        have hlt := hlast z hz
        have hzne : z ≠ h.size := by omega
        by_cases hq : q = h.size
        · simp [hq, hne.symm, hzne.symm]
        · simp [hq, hne, hzne]
  have hsize : (h.addLast p a).size = (h.addLast p (f a)).size := by simp
  calc (h.addLast p a).modify h.size (fun c => { c with data := f c.data }) =
      ⟨((h.addLast p a).modify h.size fun c => { c with data := f c.data }).cell,
        (h.addLast p a).size⟩ := rfl
    _ = ⟨(h.addLast p (f a)).cell, (h.addLast p (f a)).size⟩ := by rw [funext hcell, hsize]

/-- A leaf more behind the children of a node. -/
theorem Segment.addLeaf {s : Forest α} (hp : p < h.size)
    (hs : Segment strict h none s (h.cell p).first (h.cell p).last (p + 1) h.size) (a : α) :
    Segment strict (h.addLast p a) none (s.append (.node a .nil .nil))
      ((h.addLast p a).cell p).first ((h.addLast p a).cell p).last (p + 1)
      (h.addLast p a).size := by
  have hbounds {z : ℕ} (hz : (h.cell p).last = some z) := hs.last_bounds hz
  have hself : (h.cell p).last ≠ some p := by
    intro hz
    have := hbounds hz
    omega
  have hcell := addLast_cell_self hp hself a
  have hchild := addLast_cell_size hp (fun z hz => (hbounds hz).2) a
  have hleaf : Segment strict (h.addLast p a) none (.node a .nil .nil) (some h.size) (some h.size)
      h.size (h.addLast p a).size := by
    refine ⟨h.size, h.size + 1, none, none, rfl, rfl, Nat.le_refl _, by rw [hchild], ?_, ?_, ?_⟩
    · rw [hchild]
      exact ⟨rfl, rfl, Nat.le_refl _⟩
    · rw [hchild]
      exact fun _ => rfl
    · rw [hchild, addLast_size]
      exact ⟨rfl, rfl, Nat.le_refl _⟩
  by_cases hnil : s = .nil
  · have hz := hs.nil_iff.mp hnil
    rw [hcell, if_pos hz, hnil, Forest.nil_append]
    exact hleaf.mono (by omega) (Nat.le_refl _)
  · have hsome : (h.cell p).last ≠ none := fun hz => hnil (hs.nil_iff.mpr hz)
    have hbefore : Segment strict (h.addLast p a) (some h.size) s (h.cell p).first (h.cell p).last
        (p + 1) h.size := by
      refine hs.relink hnil (fun q hq hq' hz => ?_) fun q hz => ?_
      · exact .of_eq (addLast_cell_other (by omega) hq' hz a)
      · have hb := hbounds hz
        exact .of_eq (addLast_cell_last hz (by omega) hb.2 a)
    have hall := hbefore.append hleaf
    rw [hcell, if_neg hsome]
    exact hall

/-! ## The steps of the cursor -/

theorem Open.lt_size (ho : Open strict h root fr ups p) : p < h.size := by
  obtain ⟨e, he, hholder, -, -⟩ := ho
  have := hholder.le
  omega

theorem Open.data_eq (ho : Open strict h root fr ups p) : (h.cell p).data = fr.data := by
  obtain ⟨e, -, hholder, -, -⟩ := ho
  exact hholder.1

theorem Open.root_le (ho : Open strict h root fr ups p) : root ≤ p := by
  obtain ⟨e, -, -, -, hpath⟩ := ho
  exact hpath.root_le

/-- The last child lies behind the cursor. -/
theorem Open.last_bounds (ho : Open strict h root fr ups p) {z : ℕ}
    (hz : (h.cell p).last = some z) : p < z ∧ z < h.size := by
  obtain ⟨e, -, hholder, hkids, -⟩ := ho
  have hle := hholder.le
  have hb := hkids.last_bounds hz
  omega

theorem Open.kids_nil_iff (ho : Open strict h root fr ups p) :
    fr.kids = .nil ↔ (h.cell p).first = none := by
  obtain ⟨e, -, ⟨-, -, hb⟩, hkids, -⟩ := ho
  cases hbehind : fr.behind with
  | none =>
      simp only [hbehind] at hb
      rw [← hb]
      exact hkids.nil_iff_first
  | some a =>
      simp only [hbehind] at hb
      simp [hb.1, hb.2.2.2.2]

/-- The node at the cursor is the last child of its parent. -/
theorem Open.last_eq {q : ℕ} (ho : Open strict h root fr (up :: ups) p)
    (hq : (h.cell p).parent = some q) : (h.cell q).last = some p := by
  obtain ⟨e, -, -, -, q', e', l, hq', -, -, -, -, hlast, -⟩ := ho
  cases hq.symm.trans hq'
  exact hlast

/-- Opening a node below the cursor. -/
theorem Open.addLast (ho : Open strict h root fr ups p) (a : α) :
    Open strict (h.addLast p a) root (.fresh a) (fr :: ups) h.size ∧
      ((h.addLast p a).cell h.size).parent = some p := by
  have hlt := ho.lt_size
  have hbounds {z : ℕ} (hz : (h.cell p).last = some z) := ho.last_bounds hz
  have hself : (h.cell p).last ≠ some p := fun hz => absurd (hbounds hz).1 (Nat.lt_irrefl p)
  have hchild := addLast_cell_size hlt (fun z hz => (hbounds hz).2) a
  have hcell := addLast_cell_self hlt hself a
  have hother {q : ℕ} (hq : q ≠ p) (hq' : q < h.size) (hz : (h.cell p).last ≠ some q) :=
    addLast_cell_other hq hq' hz a
  obtain ⟨e, he, hholder, hkids, hpath⟩ := ho
  have hle := hholder.le
  have hnlast : (h.cell p).last ≠ some e := by
    intro hz
    have := hkids.last_bounds hz
    omega
  -- the cell that the children begin at changes only if there are none
  have hentry : fr.kids ≠ .nil → ((h.addLast p a).cell e).first = (h.cell e).first := by
    intro hne
    by_cases hep : e = p
    · have hsome : (h.cell p).last ≠ none := fun hz => hne (hkids.nil_iff.mpr hz)
      rw [hep, hcell, if_neg hsome]
    · rw [hother hep he hnlast]
  have hholder' : Holder (h.addLast p a) fr p e := by
    obtain ⟨hdata, hnext, hb⟩ := hholder
    refine ⟨by rw [hcell]; exact hdata, by rw [hcell]; exact hnext, ?_⟩
    cases hbehind : fr.behind with
    | none =>
        simp only [hbehind] at hb ⊢
        exact hb
    | some d =>
        simp only [hbehind] at hb ⊢
        obtain ⟨hfirst, hpe, hed, hen, hne⟩ := hb
        have hsome : (h.cell p).last ≠ none := fun hz => hne (hkids.nil_iff.mpr hz)
        have hee := hother (by omega : e ≠ p) he hnlast
        refine ⟨by rw [hcell, if_neg hsome]; exact hfirst, hpe, by rw [hee]; exact hed,
          by rw [hee]; exact hen, hne⟩
  have hkids' : Segment strict (h.addLast p a) (some h.size) fr.kids
      ((h.addLast p a).cell e).first (h.cell p).last (e + 1) h.size := by
    by_cases hnil : fr.kids = .nil
    · have hz := hkids.nil_iff.mp hnil
      have hep : e = p := by
        obtain ⟨-, -, hb⟩ := hholder
        cases hbehind : fr.behind with
        | none =>
            simp only [hbehind] at hb
            exact hb
        | some d =>
            simp only [hbehind] at hb
            exact absurd hnil hb.2.2.2.2
      rw [hnil, hep, hcell, if_pos hz, hz]
      exact ⟨rfl, rfl, by omega⟩
    · rw [hentry hnil]
      refine hkids.relink hnil ?_ ?_
      · intro q hq hq' hz
        exact .of_eq (hother (by omega) hq' hz)
      · intro q hz
        have hb := hkids.last_bounds hz
        exact .of_eq (addLast_cell_last hz (by omega) hb.2 a)
  constructor
  · refine ⟨h.size, by rw [addLast_size]; omega, ⟨by rw [hchild]; rfl, by rw [hchild], rfl⟩, ?_, ?_⟩
    · rw [hchild, addLast_size]
      exact ⟨rfl, rfl, Nat.le_refl _⟩
    · refine ⟨p, e, (h.cell p).last, by rw [hchild], by rw [hchild], he, hholder', hkids',
        by rw [hcell], ?_⟩
      refine hpath.frame (fun q hq => hother (by omega) (by omega) fun hz => ?_)
        (by rw [hcell]) (by rw [hcell])
      have := hbounds hz
      omega
  · rw [hchild]

/-- Changing the data of the node at the cursor. -/
theorem Open.setData (ho : Open strict h root fr ups p) (f : α → α) :
    Open strict (h.modify p fun c => { c with data := f c.data }) root
      { fr with data := f fr.data } ups p := by
  obtain ⟨e, he, hholder, hkids, hpath⟩ := ho
  have hle := hholder.le
  have hfirst (q : ℕ) : ((h.modify p fun c => { c with data := f c.data }).cell q).first =
      (h.cell q).first := by
    rw [modify_cell]
    split
    · next hq => rw [hq]
    · rfl
  refine ⟨e, he, ?_, ?_, ?_⟩
  · obtain ⟨hdata, hnext, hb⟩ := hholder
    refine ⟨by simp [hdata], by simp [hnext], ?_⟩
    cases hbehind : fr.behind with
    | none =>
        simp only [hbehind] at hb ⊢
        exact hb
    | some d =>
        simp only [hbehind] at hb ⊢
        have hep : e ≠ p := by omega
        simp [hb, hep]
  · rw [hfirst]
    simp only [modify_cell, if_true]
    refine hkids.frame fun q hq hq' => .of_eq ?_
    rw [modify_cell, if_neg (by omega)]
  · refine hpath.frame (fun q hq => ?_) ?_ ?_
    · rw [modify_cell, if_neg (by omega)]
    · simp
    · simp

/-- Closing the node at the cursor. -/
theorem Open.close (ho : Open strict h root fr (up :: ups) p) (hb : fr.behind = none ∨ ¬ strict) :
    ∃ q, (h.cell p).parent = some q ∧ Open strict h root (up.add fr.tree) ups q := by
  have hlt := ho.lt_size
  obtain ⟨e, he, hholder, hkids, q, e', l, hq, -, he', hholder', hsiblings, hlast, hpath⟩ := ho
  have hpe := hholder.le
  have hqe := hholder'.le
  refine ⟨q, hq, e', by omega, ?_, ?_, hpath⟩
  · obtain ⟨hdata', hnext', hbehind'⟩ := hholder'
    refine ⟨hdata', hnext', ?_⟩
    simp only [Frame.add]
    cases hup : up.behind with
    | none =>
        simp only [hup] at hbehind' ⊢
        exact hbehind'
    | some d =>
        simp only [hup] at hbehind' ⊢
        refine ⟨hbehind'.1, hbehind'.2.1, hbehind'.2.2.1, hbehind'.2.2.2.1, ?_⟩
        rw [ne_eq, Forest.append_eq_nil_iff]
        exact fun hnil => hbehind'.2.2.2.2 hnil.1
  · have htree := hholder.tree_segment hkids hb
    have hall := hsiblings.append htree
    rw [Option.some_or, ← hlast] at hall
    exact hall

/-- At the end all open nodes count as closed. -/
theorem Open.closeAll (ho : Open strict h root fr ups p)
    (hb : (∀ up ∈ fr :: ups, up.behind = none) ∨ ¬ strict) :
    Open strict h root (fr.closeAll ups) [] root := by
  induction ups generalizing fr p with
  | nil =>
      obtain ⟨e, -, -, -, hpath⟩ := id ho
      cases hpath.1
      exact ho
  | cons up ups ih =>
      have hfr : fr.behind = none ∨ ¬ strict := hb.imp_left fun hall => hall fr List.mem_cons_self
      obtain ⟨q, -, hq⟩ := ho.close hfr
      refine ih hq (hb.imp_left fun hall up' hup' => ?_)
      rcases List.mem_cons.mp hup' with rfl | hmem
      · exact hall up (by simp)
      · exact hall up' (by simp [hmem])

/-- Nothing is above the root. -/
theorem Open.root_parent (ho : Open strict h root fr [] p) : (h.cell p).parent = none := by
  obtain ⟨e, -, -, -, hpath⟩ := ho
  exact hpath.2

/-- What the finished forest of a root is read as. -/
theorem Open.root_segment (ho : Open strict h root fr [] p) (hb : fr.behind = none ∨ ¬ strict) :
    Segment strict h none fr.tree (some root) (some root) root h.size := by
  obtain ⟨e, -, hholder, hkids, hpath⟩ := ho
  cases hpath.1
  exact hholder.tree_segment hkids hb

/-! ## Grafting -/

/-- The siblings before the node at `i` are linked to other siblings behind it, which take
the place of the node. -/
theorem Path.graft {q z i : ℕ} {s : Forest α} {o l : Option ℕ} (d : α)
    (hpath : Path strict h root (up :: ups) i) (hq : (h.cell i).parent = some q)
    (hz : (h.cell i).prev = some z) (hs : Segment strict h' none s o l i h'.size)
    (hne : s ≠ .nil) (hsame : ∀ c < i, c ≠ q → c ≠ z → h'.cell c = h.cell c)
    (hq' : h'.cell q = { h.cell q with last := l })
    (hz' : h'.cell z = { h.cell z with next := o }) :
    Open strict h' root (up.graft d s) ups q := by
  obtain ⟨q₁, e, l₁, hq₁, hz₁, he, hholder, hkids, -, hrest⟩ := hpath
  cases hq.symm.trans hq₁
  cases hz.symm.trans hz₁
  have hle := hholder.le
  have hzb := hkids.last_bounds rfl
  have hzq : z ≠ q := by omega
  have hup : up.kids ≠ .nil := fun hnil => nomatch hkids.nil_iff.mp hnil
  have hsize := hs.le
  have hlinks {c : ℕ} (hc : c < i) (hcq : c ≠ q) (hcz : c ≠ z) : SameLinks (h.cell c) (h'.cell c) :=
    .of_eq (hsame c hc hcq hcz)
  -- the cell that the children begin at keeps its links but for the last pointer
  have hentry : (h'.cell e).first = (h.cell e).first ∧ (h'.cell e).data = (h.cell e).data ∧
      (h'.cell e).next = (h.cell e).next := by
    by_cases heq : e = q
    · rw [heq, hq']
      exact ⟨rfl, rfl, rfl⟩
    · rw [hsame e he heq (by omega)]
      exact ⟨rfl, rfl, rfl⟩
  have hgraft : up.graft d s = { up with kids := up.kids.append s } := by
    unfold Frame.graft
    cases hkids : up.kids with
    | nil => exact absurd hkids hup
    | node a f n => rfl
  rw [hgraft]
  have hholder' : Holder h' { up with kids := up.kids.append s } q e := by
    obtain ⟨hdata, hnext, hb⟩ := hholder
    refine ⟨by rw [hq']; exact hdata, by rw [hq']; exact hnext, ?_⟩
    cases hbehind : up.behind with
    | none =>
        simp only [hbehind] at hb ⊢
        exact hb
    | some d =>
        simp only [hbehind] at hb ⊢
        rw [hq', hentry.2.1, hentry.2.2]
        refine ⟨hb.1, hb.2.1, hb.2.2.1, hb.2.2.2.1, ?_⟩
        rw [ne_eq, Forest.append_eq_nil_iff]
        exact fun hnil => hup hnil.1
  have hbefore : Segment strict h' o up.kids (h'.cell e).first (some z) (e + 1) i := by
    rw [hentry.1]
    refine hkids.relink hup ?_ ?_
    · intro c hc hc' hcz
      exact hlinks hc' (by omega) fun heq => hcz (heq ▸ rfl)
    · intro c hc
      cases hc
      exact .of_eq hz'
  have hall := hbefore.append hs
  refine ⟨e, by omega, hholder', ?_, ?_⟩
  · have hlast : (h'.cell q).last = l.or (some z) := by
      rw [hq']
      cases hl : l with
      | none => exact absurd (hs.nil_iff.mpr hl) hne
      | some m => rfl
    rw [hlast]
    exact hall
  · refine hrest.frame (fun c hc => hsame c (by omega) (by omega) (by omega)) ?_ ?_
    · rw [hq']
    · rw [hq']

/-- With no siblings before it, the node at `i` is replaced by another node, and the other
siblings hang behind that one. -/
theorem Path.graft_behind {q r i : ℕ} {s : Forest α} {d : α} {l : Option ℕ}
    (hpath : Path strict h root (up :: ups) i) (hq : (h.cell i).parent = some q)
    (hz : (h.cell i).prev = none) (hr : i < r)
    (hs : Segment strict h' none s (h'.cell r).first l (r + 1) h'.size) (hne : s ≠ .nil)
    (hsame : ∀ c < i, c ≠ q → h'.cell c = h.cell c)
    (hq' : h'.cell q = { h.cell q with first := some r, last := l })
    (hdata : (h'.cell r).data = d) (hnext : (h'.cell r).next = none) :
    Open strict h' root (up.graft d s) ups q := by
  obtain ⟨q₁, e, l₁, hq₁, hz₁, he, hholder, hkids, -, hrest⟩ := hpath
  cases hq.symm.trans hq₁
  cases hz.symm.trans hz₁
  have hle := hholder.le
  have hsize := hs.le
  have hgraft : up.graft d s = ⟨up.data, s, some d⟩ := by
    rw [Frame.graft, hkids.nil_iff.mpr rfl]
    rfl
  rw [hgraft]
  refine ⟨r, by omega, ⟨?_, ?_, ?_⟩, ?_, ?_⟩
  · rw [hq']
    exact hholder.1
  · rw [hq']
    exact hholder.2.1
  · simp only
    rw [hq']
    exact ⟨rfl, by omega, hdata, hnext, hne⟩
  · rw [hq']
    exact hs
  · refine hrest.frame (fun c hc => hsame c (by omega) (by omega)) ?_ ?_
    · rw [hq']
    · rw [hq']

end LinkedForest.Heap
