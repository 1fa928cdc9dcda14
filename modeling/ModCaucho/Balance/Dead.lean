import ModCaucho.Balance.Backups

/-!
# Dead runners

A runner that refuses a connect in the last pass is marked dead, and the second
pass leaves it alone until its `dead_time` is over. A runner that refuses in the
second pass is not marked there. The failure is only remembered if the last pass
comes to the same runner before another one takes the request.
-/

namespace ModCaucho

open Scan

/-! ## The runners that would take a request -/

instance (result : ConnectResult) : Decidable (∃ fd, result = .connected fd) :=
  match result with
  | .noSocket => isFalse (by simp)
  | .connected fd => isTrue ⟨fd, rfl⟩
  | .refused _ => isFalse (by simp)

instance (dial : Dial) (t : UInt32) (i : ℕ) (srun : Srun) : Decidable (Ready dial t i srun) :=
  inferInstanceAs (Decidable (_ ∨ _))

/-- The first pass would take the runner. -/
def TakesReuse (t : UInt32) (p : Child) (y : ℕ) : Prop :=
  ¬ (p.config.srun y).isBackup = true ∧ (p.config.srun y).Usable t

/-- The second pass would take the runner. -/
def TakesLive (dial : Dial) (sessionIndex : ℤ) (t : UInt32) (p : Child) (y : ℕ) : Prop :=
  ¬ Skipped sessionIndex (p.config.srun y) ∧ Ready dial t y (p.config.srun y)

/-- The last pass would take the runner. -/
def TakesAny (dial : Dial) (t : UInt32) (p : Child) (y : ℕ) : Prop :=
  (p.config.srun y).Usable t ∨ ∃ fd, dial y true = .connected fd

instance (dial : Dial) (sessionIndex : ℤ) (t : UInt32) (p : Child) (y : ℕ) :
    Decidable (TakesLive dial sessionIndex t p y) :=
  inferInstanceAs (Decidable (_ ∧ _))

instance (dial : Dial) (t : UInt32) (p : Child) (y : ℕ) : Decidable (TakesAny dial t p y) :=
  inferInstanceAs (Decidable (_ ∨ _))

/-- A call forgets that a runner refused it: the second pass tries the runner and is
refused, and another runner takes the request before the last pass comes to it. -/
structure Forgets (dial : Dial) (sessionIndex : ℤ) (t : UInt32) (order : List ℕ) (p : Child)
    (x : ℕ) : Prop where
  unused : sessionIndex < 0 → ∀ y ∈ order, ¬ TakesReuse t p y
  earlier : ∀ y ∈ order, order.idxOf y < order.idxOf x →
    ¬ TakesLive dial sessionIndex t p y
  tried : ¬ Skipped sessionIndex (p.config.srun x) ∧ ¬ (p.config.srun x).Dead t
  refused : ¬ Ready dial t x (p.config.srun x)
  taken : (∃ y ∈ order, order.idxOf x < order.idxOf y ∧ TakesLive dial sessionIndex t p y) ∨
    ∃ y ∈ order, order.idxOf y < order.idxOf x ∧ TakesAny dial t p y

/-! ## What a call leaves of a runner that it did not choose -/

theorem idxOf_lt_of_mem_left {order pre post : List ℕ} {x y : ℕ} (hnodup : order.Nodup)
    (horder : order = pre ++ y :: post) (hx : x ∈ pre) : order.idxOf x < order.idxOf y := by
  subst horder
  have hy : y ∉ pre := fun hmem => (List.nodup_append.mp hnodup).2.2 y hmem y (by simp) rfl
  rw [List.idxOf_append_of_mem hx, List.idxOf_append_of_notMem hy, List.idxOf_cons_self]
  exact List.idxOf_lt_length_of_mem hx

theorem idxOf_lt_of_mem_right {order pre post : List ℕ} {x y : ℕ} (hnodup : order.Nodup)
    (horder : order = pre ++ y :: post) (hx : x ∈ post) : order.idxOf y < order.idxOf x := by
  obtain ⟨mid, rest, rfl⟩ := List.mem_iff_append.mp hx
  apply @idxOf_lt_of_mem_left order (pre ++ y :: mid) rest y x hnodup
  · rw [horder, List.append_assoc]
    rfl
  · simp

theorem mem_left_of_idxOf_lt {pre rest : List ℕ} {x y : ℕ} (hx : x ∈ pre)
    (h : (pre ++ rest).idxOf y < (pre ++ rest).idxOf x) : y ∈ pre := by
  by_contra hy
  have hlt := List.idxOf_lt_length_of_mem hx
  rw [List.idxOf_append_of_mem hx, List.idxOf_append_of_notMem hy] at h
  omega

section Passes

variable {dial : Dial} {sessionIndex : ℤ} {t : UInt32} {order : List ℕ} {p : Child} {x y : ℕ}

theorem firstPass_false_iff (hnodup : order.Nodup) :
    (firstPass sessionIndex t order p).1 = false ↔
      (sessionIndex < 0 → ∀ y ∈ order, ¬ TakesReuse t p y) := by
  unfold firstPass
  split
  · next hs =>
      rw [(tryReuse_local t).scan_false_iff hnodup]
      simp [hs, AcceptsReuse, TakesReuse, view_srun]
  · next hs => simp [hs]

/-- What the first pass leaves of a runner that it did not take. -/
theorem rejectFirst_of_not_takes (h : sessionIndex < 0 → ¬ TakesReuse t p y) :
    (rejectFirst sessionIndex t (p.view y)).srun = p.config.srun y ∨
      ¬ (p.config.srun y).Usable t ∧
        (rejectFirst sessionIndex t (p.view y)).srun = (p.config.srun y).drained t := by
  by_cases hs : sessionIndex < 0
  · by_cases hb : (p.config.srun y).isBackup = true
    · left
      rw [rejectFirst, if_pos hs, rejectReuse, view_srun, if_pos hb, view_srun]
    · right
      refine ⟨fun hu => h hs ⟨hb, hu⟩, ?_⟩
      rw [rejectFirst, if_pos hs, rejectReuse, view_srun, if_neg hb,
        srun_map (drained_of_nil rfl) (p.view y), view_srun]
  · left
    rw [rejectFirst, if_neg hs, view_srun]

/-- The first pass does not change what the second one thinks of a runner. -/
theorem takesLive_iff (h : sessionIndex < 0 → ¬ TakesReuse t p y) :
    (¬ Skipped sessionIndex (rejectFirst sessionIndex t (p.view y)).srun ∧
        Ready dial t y (rejectFirst sessionIndex t (p.view y)).srun) ↔
      TakesLive dial sessionIndex t p y := by
  rcases rejectFirst_of_not_takes h with heq | ⟨hu, heq⟩
  · rw [heq]
    rfl
  · have hbackup : ((p.config.srun y).drained t).isBackup = (p.config.srun y).isBackup :=
      settle_isBackup t _
    simp only [heq, TakesLive, Ready, Skipped, hbackup, dead_drained, hu,
      not_usable_drained]

/-- A runner that the second pass tested and turned down has no sockets left. -/
theorem rejectLive_sockets {v : SrunView} (h : ¬ Skipped sessionIndex v.srun) :
    (rejectLive dial sessionIndex t y v).srun.sockets = [] := by
  rw [rejectLive, if_neg h]
  split
  · rw [srun_map rfl]
    rfl
  · obtain ⟨entry, made⟩ := v
    cases entry with
    | none => rfl
    | some srun => exact ported_sockets _

/-- The first two passes do not change what the last one thinks of a runner. -/
theorem takesAny_iff (h : sessionIndex < 0 → ¬ TakesReuse t p y)
    (h₂ : ¬ TakesLive dial sessionIndex t p y) :
    AcceptsAny dial t y
        (rejectLive dial sessionIndex t y (rejectFirst sessionIndex t (p.view y))) ↔
      TakesAny dial t p y := by
  apply or_congr_left
  by_cases hskip : Skipped sessionIndex (rejectFirst sessionIndex t (p.view y)).srun
  · rw [rejectLive, if_pos hskip]
    rcases rejectFirst_of_not_takes h with heq | ⟨hu, heq⟩
    · rw [heq]
    · rw [heq]
      exact iff_of_false (not_usable_drained t _) hu
  · have hempty := @rejectLive_sockets dial sessionIndex t y _ hskip
    have hu : ¬ (p.config.srun y).Usable t := by
      rcases rejectFirst_of_not_takes h with heq | ⟨hu, -⟩
      · rw [heq] at hskip
        exact fun hu => h₂ ⟨hskip, Or.inl hu⟩
      · exact hu
    apply iff_of_false _ hu
    simp [Srun.Usable, hempty]

theorem mem_split {pre post : List ℕ} {i : ℕ} (hx : x ∈ pre ++ i :: post) (hne : x ≠ i) :
    x ∈ pre ∨ x ∈ post := by
  rcases List.mem_append.mp hx with hpre | hpost
  · exact Or.inl hpre
  · exact Or.inr ((List.mem_cons.mp hpost).resolve_left hne)

/-- The call `passes dial sessionIndex t order p` did not choose the runner. -/
def Unserved (dial : Dial) (sessionIndex : ℤ) (t : UInt32) (order : List ℕ) (p : Child)
    (x : ℕ) : Prop :=
  ¬ ((passes dial sessionIndex t order p).1 = true ∧
    (passes dial sessionIndex t order p).2.stream.srun = some x)

theorem unserved_of_first (hnodup : order.Nodup) (hx : x ∈ order)
    (h : Unserved dial sessionIndex t order p x)
    (h₁ : (firstPass sessionIndex t order p).1 = true) :
    (passes dial sessionIndex t order p).2.view x = p.view x ∨
      (passes dial sessionIndex t order p).2.view x =
        rejectFirst sessionIndex t (p.view x) := by
  rw [Unserved, passes_of_first h₁] at h
  rw [passes_of_first h₁]
  unfold firstPass rejectFirst at *
  split at h₁
  · next hs =>
      simp only [if_pos hs] at h ⊢
      obtain ⟨pre, i, post, rfl, -, hacc, hrejected, hview, hfinal⟩ :=
        (tryReuse_local t).scan_true hnodup h₁
      have hserves := tryReuse_serves (((tryReuse_local t).decides i _).mpr (hview ▸ hacc))
      have hne : x ≠ i := by
        rintro rfl
        rw [hfinal] at h
        exact h ⟨trivial, hserves.srun⟩
      have hothers := (tryReuse_local t).scan_others hnodup hrejected
      rw [hfinal]
      rcases mem_split hx hne with hpre | hpost
      · exact Or.inr (hothers.1 x hpre)
      · exact Or.inl (hothers.2 x hpost)
  · cases h₁

theorem unserved_of_second (hnodup : order.Nodup) (hx : x ∈ order)
    (h : Unserved dial sessionIndex t order p x)
    (h₁ : (firstPass sessionIndex t order p).1 = false)
    (h₂ : (secondPass dial sessionIndex t order p).1 = true) :
    (passes dial sessionIndex t order p).2.view x = rejectFirst sessionIndex t (p.view x) ∨
      (passes dial sessionIndex t order p).2.view x =
          rejectLive dial sessionIndex t x (rejectFirst sessionIndex t (p.view x)) ∧
        (¬ Skipped sessionIndex (p.config.srun x) → ¬ (p.config.srun x).Dead t →
          Forgets dial sessionIndex t order p x) := by
  have hunused := (firstPass_false_iff hnodup).mp h₁
  rw [Unserved, passes_of_second h₁ h₂] at h
  rw [passes_of_second h₁ h₂, ← firstPass_view hnodup h₁ hx]
  unfold secondPass at h h₂ ⊢
  obtain ⟨pre, i, post, horder, hbefore, hacc, hrejected, hview, hfinal⟩ :=
    (tryLive_local dial sessionIndex t).scan_true hnodup h₂
  have hlive : ∀ y ∈ order, ((¬ Skipped sessionIndex
      ((firstPass sessionIndex t order p).2.view y).srun ∧
        Ready dial t y ((firstPass sessionIndex t order p).2.view y).srun) ↔
      TakesLive dial sessionIndex t p y) := by
    intro y hy
    rw [firstPass_view hnodup h₁ hy]
    exact takesLive_iff fun hs => hunused hs y hy
  have hserves := tryLive_serves
    (((tryLive_local dial sessionIndex t).decides i _).mpr (hview ▸ hacc))
  have hne : x ≠ i := by
    rintro rfl
    rw [hfinal] at h
    exact h ⟨rfl, hserves.srun⟩
  have hothers := (tryLive_local dial sessionIndex t).scan_others (horder ▸ hnodup) hrejected
  rw [hfinal]
  rcases mem_split (horder ▸ hx) hne with hpre | hpost
  · refine Or.inr ⟨hothers.1 x hpre, fun hskip hdead => ⟨hunused, ?_, ⟨hskip, hdead⟩, ?_, ?_⟩⟩
    · intro y hy hlt
      rw [horder] at hlt
      have hypre := mem_left_of_idxOf_lt hpre hlt
      exact fun htakes => hbefore y hypre ((hlive y hy).mpr htakes)
    · exact fun hready => hbefore x hpre ((hlive x hx).mpr ⟨hskip, hready⟩)
    · exact Or.inl ⟨i, by simp [horder], idxOf_lt_of_mem_left hnodup horder hpre,
        (hlive i (by simp [horder])).mp hacc⟩
  · exact Or.inl (hothers.2 x hpost)

theorem unserved_of_third (hnodup : order.Nodup) (hx : x ∈ order)
    (h : Unserved dial sessionIndex t order p x)
    (h₁ : (firstPass sessionIndex t order p).1 = false)
    (h₂ : (secondPass dial sessionIndex t order p).1 = false) :
    (passes dial sessionIndex t order p).2.view x =
        rejectAny dial t x
          (rejectLive dial sessionIndex t x (rejectFirst sessionIndex t (p.view x))) ∨
      (passes dial sessionIndex t order p).2.view x =
          rejectLive dial sessionIndex t x (rejectFirst sessionIndex t (p.view x)) ∧
        (¬ Skipped sessionIndex (p.config.srun x) → ¬ (p.config.srun x).Dead t →
          Forgets dial sessionIndex t order p x) := by
  have hunused := (firstPass_false_iff hnodup).mp h₁
  have hnone : ∀ y ∈ order, ¬ TakesLive dial sessionIndex t p y := by
    intro y hy htakes
    have hreject := ((tryLive_local dial sessionIndex t).scan_false_iff hnodup _).mp h₂ y hy
    rw [firstPass_view hnodup h₁ hy] at hreject
    exact hreject ((takesLive_iff fun hs => hunused hs y hy).mpr htakes)
  rw [Unserved, passes_of_third h₁ h₂] at h
  rw [passes_of_third h₁ h₂, ← secondPass_view hnodup h₁ h₂ hx]
  cases h₃ : (scan (tryAny dial t) order (secondPass dial sessionIndex t order p).2).1 with
  | false => exact Or.inl ((tryAny_local dial t).scan_rejects hnodup h₃ hx)
  | true =>
      obtain ⟨pre, i, post, horder, -, hacc, hrejected, hview, hfinal⟩ :=
        (tryAny_local dial t).scan_true hnodup h₃
      have hi : i ∈ order := by simp [horder]
      have hserves := tryAny_serves (((tryAny_local dial t).decides i _).mpr (hview ▸ hacc))
      have hne : x ≠ i := by
        rintro rfl
        rw [hfinal] at h
        exact h ⟨h₃, hserves.srun⟩
      have hothers := (tryAny_local dial t).scan_others (horder ▸ hnodup) hrejected
      rw [hfinal]
      rcases mem_split (horder ▸ hx) hne with hpre | hpost
      · exact Or.inl (hothers.1 x hpre)
      · refine Or.inr ⟨hothers.2 x hpost, fun hskip hdead => ?_⟩
        rw [secondPass_view hnodup h₁ h₂ hi,
          takesAny_iff (fun hs => hunused hs i hi) (hnone i hi)] at hacc
        exact {
          unused := hunused
          earlier := fun y hy _ => hnone y hy
          tried := ⟨hskip, hdead⟩
          refused := fun hready => hnone x hx ⟨hskip, hready⟩
          taken := Or.inr ⟨i, hi, idxOf_lt_of_mem_right hnodup horder hpost, hacc⟩ }

/-- A call leaves a runner outside its probe order alone. -/
theorem passes_frame (hx : x ∉ order) :
    (passes dial sessionIndex t order p).2.view x = p.view x := by
  have hfirst : (firstPass sessionIndex t order p).2.view x = p.view x := by
    unfold firstPass
    split
    · exact (tryReuse_local t).scan_frame hx p
    · rfl
  have hsecond : (secondPass dial sessionIndex t order p).2.view x = p.view x :=
    ((tryLive_local dial sessionIndex t).scan_frame hx _).trans hfirst
  cases h₁ : (firstPass sessionIndex t order p).1 with
  | true => rw [passes_of_first h₁, hfirst]
  | false =>
      cases h₂ : (secondPass dial sessionIndex t order p).1 with
      | true => rw [passes_of_second h₁ h₂, hsecond]
      | false => rw [passes_of_third h₁ h₂, (tryAny_local dial t).scan_frame hx, hsecond]

/-- What a call can leave of a runner that it did not choose. Where it stops short of
the last pass after an attempt to connect, it forgets the attempt. -/
theorem passes_unserved (hnodup : order.Nodup)
    (h : Unserved dial sessionIndex t order p x) :
    (passes dial sessionIndex t order p).2.view x = p.view x ∨
      (passes dial sessionIndex t order p).2.view x = rejectFirst sessionIndex t (p.view x) ∨
      (passes dial sessionIndex t order p).2.view x =
        rejectAny dial t x
          (rejectLive dial sessionIndex t x (rejectFirst sessionIndex t (p.view x))) ∧
        x ∈ order ∨
      (passes dial sessionIndex t order p).2.view x =
          rejectLive dial sessionIndex t x (rejectFirst sessionIndex t (p.view x)) ∧
        (¬ Skipped sessionIndex (p.config.srun x) → ¬ (p.config.srun x).Dead t →
          Forgets dial sessionIndex t order p x) := by
  by_cases hx : x ∈ order
  · cases h₁ : (firstPass sessionIndex t order p).1 with
    | true =>
        rcases unserved_of_first hnodup hx h h₁ with hview | hview
        · exact Or.inl hview
        · exact Or.inr (Or.inl hview)
    | false =>
        cases h₂ : (secondPass dial sessionIndex t order p).1 with
        | true =>
            rcases unserved_of_second hnodup hx h h₁ h₂ with hview | hview
            · exact Or.inr (Or.inl hview)
            · exact Or.inr (Or.inr (Or.inr hview))
        | false =>
            rcases unserved_of_third hnodup hx h h₁ h₂ with hview | hview
            · exact Or.inr (Or.inr (Or.inl ⟨hview, hx⟩))
            · exact Or.inr (Or.inr (Or.inr hview))
  · exact Or.inl (passes_frame hx)

/-! ## Attempts on a dead runner -/

/-- Between the two states only the last pass attempted to connect to the runner. -/
def OnlyWaits (x : ℕ) (p p' : Child) : Prop :=
  ∃ made, (p'.view x).2 = (p.view x).2 ++ made ∧ ∀ attempt ∈ made, attempt.1 = true

theorem OnlyWaits.refl (x : ℕ) (p : Child) : OnlyWaits x p p := ⟨[], by simp, by simp⟩

theorem OnlyWaits.of_eq {q q' : Child} (h : OnlyWaits x p q)
    (heq : (q'.view x).2 = (q.view x).2) : OnlyWaits x p q' := by
  obtain ⟨made, hmade, hwaits⟩ := h
  exact ⟨made, heq.trans hmade, hwaits⟩

theorem cseReuseSocket_attempts (i : ℕ) (t : UInt32) (p : Child) :
    ((cseReuseSocket i t p).2.view x).2 = (p.view x).2 := by
  by_cases hu : (p.config.srun i).Usable t
  · rw [cseReuseSocket_of_usable hu]
    rfl
  · by_cases hx : x = i
    · rw [hx, cseReuseSocket_view hu]
    · rw [cseReuseSocket_frame hx]

/-- The two passes that do not wait make no attempt on a runner taken for dead. -/
theorem tryReuse_attempts (i : ℕ) : ((tryReuse t i p).2.view x).2 = (p.view x).2 := by
  unfold tryReuse
  split
  · rfl
  · exact cseReuseSocket_attempts i t p

theorem tryLive_attempts (hdead : (p.config.srun x).Dead t) (i : ℕ) :
    ((tryLive dial sessionIndex t i p).2.view x).2 = (p.view x).2 := by
  by_cases hx : x = i
  · subst hx
    by_cases hskip : Skipped sessionIndex (p.config.srun x)
    · rw [tryLive_of_skipped hskip]
    · rw [tryLive_of_not_skipped hskip, if_pos hdead]
      split <;> exact cseReuseSocket_attempts x t p
  · rw [(tryLive_local dial sessionIndex t).frame i p x hx]

theorem rejectLive_dead {v : SrunView} (h : v.srun.Dead t) :
    (rejectLive dial sessionIndex t x v).srun.Dead t := by
  by_cases hskip : Skipped sessionIndex v.srun
  · rw [rejectLive, if_pos hskip]
    exact h
  · rw [rejectLive, if_neg hskip, if_pos h, srun_map (drained_of_nil rfl), dead_drained]
    exact h

theorem rejectLive_quiet {v : SrunView} (h : Skipped sessionIndex v.srun ∨ v.srun.Dead t) :
    (rejectLive dial sessionIndex t x v).2 = v.2 := by
  unfold rejectLive
  split
  · rfl
  · next hskip => rw [if_pos (h.resolve_left hskip)]

theorem tryAny_onlyWaits (i : ℕ) : OnlyWaits x p (tryAny dial t i p).2 := by
  by_cases hx : x = i
  · subst hx
    have hreuse := @cseReuseSocket_attempts x x t p
    have hopen : OnlyWaits x p (cseOpen dial x true (cseReuseSocket x t p).2).2 := by
      refine ⟨[(true, dial x true)], ?_, by simp⟩
      rw [cseOpen_view, hreuse]
    rw [tryAny_eq]
    split
    · exact (OnlyWaits.refl x p).of_eq hreuse
    · split
      · exact hopen
      · exact hopen
  · have hframe := (tryAny_local dial t).frame i p x hx
    exact (OnlyWaits.refl x p).of_eq (by rw [hframe])

/-- A pass whose test leaves a dead runner dead and makes no attempt on it. -/
theorem scan_quiet {f : ℕ → Child → Bool × Child} {accepts : ℕ → SrunView → Prop}
    {reject : ℕ → SrunView → SrunView} (hlocal : Local f Child.view accepts reject)
    (hquiet : ∀ q : Child, (q.config.srun x).Dead t → ∀ i,
      ((f i q).2.view x).2 = (q.view x).2)
    (hkeep : ∀ v : SrunView, v.srun.Dead t → (reject x v).srun.Dead t)
    (hdead : (p.config.srun x).Dead t) :
    ((scan f order p).1 = false → ((scan f order p).2.config.srun x).Dead t) ∧
      ((scan f order p).2.view x).2 = (p.view x).2 := by
  have hcases := @scan_cases _ _ f (fun q => (q.config.srun x).Dead t ∧ (q.view x).2 = (p.view x).2)
    (fun q => (q.view x).2 = (p.view x).2) order
    (by
      rintro i - q ⟨hq, hmade⟩ hrejected
      refine ⟨?_, (hquiet q hq i).trans hmade⟩
      by_cases hx : x = i
      · subst hx
        rw [← view_srun, hlocal.rejects x q hrejected]
        exact hkeep _ (by rwa [view_srun])
      · rw [← view_srun, hlocal.frame i q x hx, view_srun]
        exact hq)
    (fun i _ q hq _ => (hquiet q hq.1 i).trans hq.2) p ⟨hdead, rfl⟩
  refine ⟨fun h => (hcases.1 h).1, ?_⟩
  cases h : (scan f order p).1 with
  | false => exact (hcases.1 h).2
  | true => exact hcases.2 h

theorem rejectReuse_dead {v : SrunView} (h : v.srun.Dead t) : (rejectReuse t v).srun.Dead t := by
  unfold rejectReuse
  split
  · exact h
  · rw [srun_map (drained_of_nil rfl), dead_drained]
    exact h

/-- On a runner that is taken for dead, only the last pass makes attempts. -/
theorem passes_onlyWaits (hdead : (p.config.srun x).Dead t) :
    OnlyWaits x p (passes dial sessionIndex t order p).2 := by
  have hfirst : ((firstPass sessionIndex t order p).1 = false →
        ((firstPass sessionIndex t order p).2.config.srun x).Dead t) ∧
      ((firstPass sessionIndex t order p).2.view x).2 = (p.view x).2 := by
    unfold firstPass
    split
    · exact scan_quiet (tryReuse_local t) (fun q _ i => tryReuse_attempts i)
        (fun v => rejectReuse_dead) hdead
    · exact ⟨fun _ => hdead, rfl⟩
  cases h₁ : (firstPass sessionIndex t order p).1 with
  | true =>
      rw [passes_of_first h₁]
      exact (OnlyWaits.refl x p).of_eq hfirst.2
  | false =>
      have hsecond := @scan_quiet t order (firstPass sessionIndex t order p).2 x _ _ _
        (tryLive_local dial sessionIndex t) (fun q hq i => tryLive_attempts hq i)
        (fun v => rejectLive_dead) (hfirst.1 h₁)
      have hquiet := (OnlyWaits.refl x p).of_eq (hsecond.2.trans hfirst.2)
      cases h₂ : (secondPass dial sessionIndex t order p).1 with
      | true =>
          rw [passes_of_second h₁ h₂]
          exact hquiet
      | false =>
          rw [passes_of_third h₁ h₂]
          apply scan_induction (P := fun q => OnlyWaits x p q) _ hquiet
          rintro i - q ⟨made, hmade, hwaits⟩
          obtain ⟨more, hmore, hmorewaits⟩ := @tryAny_onlyWaits dial t q x i
          refine ⟨made ++ more, by rw [hmore, hmade, List.append_assoc], ?_⟩
          intro attempt hattempt
          rcases List.mem_append.mp hattempt with h | h
          · exact hwaits attempt h
          · exact hmorewaits attempt h

end Passes

/-! ## Runs of calls -/

/-- The arguments of a call of `open_connection`, with what the network does in it. -/
structure Call where
  dial : Dial
  sessionIndex : ℤ
  ip : List Byte
  time : UInt32
  rand : Int32

/-- The call itself. -/
def Call.run (c : Call) (p : Child) : Bool × Child :=
  openConnection c.dial c.sessionIndex c.ip c.time c.rand p

/-- The call was refused by the runner and forgets it. -/
def Call.Forgets (c : Call) (p : Child) (x : ℕ) : Prop :=
  ModCaucho.Forgets c.dial c.sessionIndex c.time
    (callOrder c.sessionIndex c.ip c.time c.rand p) p x

/-- Between two calls of `open_connection` the rest of the child may work on the pools
and on everything else, but nothing else marks a runner or takes a mark away. -/
structure Rests (p p' : Child) : Prop where
  isDead : ∀ i, (p'.config.srun i).isDead = (p.config.srun i).isDead
  lastTime : ∀ i, (p'.config.srun i).lastTime = (p.config.srun i).lastTime
  deadTime : ∀ i, (p'.config.srun i).deadTime = (p.config.srun i).deadTime

/-- A run of calls of `open_connection` with non-decreasing times. -/
structure CallRun where
  call : ℕ → Call
  before : ℕ → Child
  rests : ∀ n, Rests ((call n).run (before n)).2 (before (n + 1))
  time_le : ∀ n, (call n).time ≤ (call (n + 1)).time

namespace CallRun

variable (r : CallRun)

def after (n : ℕ) : Child := ((r.call n).run (r.before n)).2

/-- A connect to the runner failed in the call. -/
def Refused (x n : ℕ) : Prop :=
  ∃ attempt ∈ madeAttempts (r.before n) (r.after n) x, ∀ fd, attempt.2 ≠ .connected fd

/-- The call connected to the runner or reused one of its sockets. -/
def Chose (x n : ℕ) : Prop :=
  ((r.call n).run (r.before n)).1 = true ∧ (r.after n).stream.srun = some x

/-- In the first calls of the run up to the one at `last`, a runner that failed is left
alone for its `dead_time`: only the last pass of a call connects to it. -/
def LeavesDead (x last : ℕ) : Prop :=
  ∀ m k, m < k → k ≤ last → r.Refused x m → (∀ n, m ≤ n → n < k → ¬ r.Chose x n) →
    (r.call k).time.toNat ≤
      (r.call m).time.toNat + ((r.before m).config.srun x).deadTime →
    ∀ attempt ∈ madeAttempts (r.before k) (r.after k) x, attempt.1 = true

/-- The call does not forget the runner, and `last_time + dead_time` fits. -/
def Remembers (x n : ℕ) : Prop :=
  ¬ (r.call n).Forgets (r.before n) x ∧
    (r.call n).time.toNat + ((r.before n).config.srun x).deadTime < 2 ^ 32

end CallRun

/-! ## The mark of a dead runner -/

/-- A call at time `t` that only tested and turned down a runner has kept its mark. -/
structure KeepsMark (t : UInt32) (srun srun' : Srun) : Prop where
  isDead : srun'.isDead = srun.isDead
  deadTime : srun'.deadTime = srun.deadTime
  lastTime : srun.lastTime ≤ t → srun'.lastTime = srun.lastTime

section Mark

variable {t : UInt32}

theorem KeepsMark.refl (srun : Srun) : KeepsMark t srun srun := ⟨rfl, rfl, fun _ => rfl⟩

theorem KeepsMark.trans {srun₁ srun₂ srun₃ : Srun} (h₁ : KeepsMark t srun₁ srun₂)
    (h₂ : KeepsMark t srun₂ srun₃) : KeepsMark t srun₁ srun₃ where
  isDead := h₂.isDead.trans h₁.isDead
  deadTime := h₂.deadTime.trans h₁.deadTime
  lastTime hle := by
    have heq := h₁.lastTime hle
    rw [h₂.lastTime (heq ▸ hle), heq]

theorem keepsMark_drained (srun : Srun) : KeepsMark t srun (srun.drained t) where
  isDead := settle_isDead t srun
  deadTime := settle_deadTime t srun
  lastTime hle := by rw [Srun.drained, settle_of_le hle]

theorem keepsMark_ported (srun : Srun) : KeepsMark t srun srun.ported := by
  unfold Srun.ported
  split
  · exact ⟨rfl, rfl, fun _ => rfl⟩
  · exact KeepsMark.refl srun

/-- A mapped view keeps the mark where the map does. -/
theorem keepsMark_map {f : Srun → Srun} (hf : ∀ srun, KeepsMark t srun (f srun))
    (v : SrunView) (made : List (Bool × ConnectResult)) :
    KeepsMark t v.srun (SrunView.srun (v.1.map f, made)) := by
  obtain ⟨entry, attempts⟩ := v
  cases entry with
  | none => exact KeepsMark.refl _
  | some srun => exact hf srun

theorem keepsMark_first (sessionIndex : ℤ) (v : SrunView) :
    KeepsMark t v.srun (rejectFirst sessionIndex t v).srun := by
  unfold rejectFirst rejectReuse
  split
  · split
    · exact KeepsMark.refl _
    · exact keepsMark_map keepsMark_drained v _
  · exact KeepsMark.refl _

theorem keepsMark_live (dial : Dial) (sessionIndex : ℤ) (i : ℕ) (v : SrunView) :
    KeepsMark t v.srun (rejectLive dial sessionIndex t i v).srun := by
  unfold rejectLive
  split
  · exact KeepsMark.refl _
  · split
    · exact keepsMark_map keepsMark_drained v _
    · exact keepsMark_map (fun srun => (keepsMark_drained srun).trans (keepsMark_ported _)) v _

/-- The mark that the last pass sets. -/
theorem rejectAny_srun {dial : Dial} {i : ℕ} {v : SrunView} (h : v.1 ≠ none) :
    (rejectAny dial t i v).srun.isDead = true ∧ (rejectAny dial t i v).srun.lastTime = t ∧
      (rejectAny dial t i v).srun.deadTime = v.srun.deadTime := by
  obtain ⟨entry, attempts⟩ := v
  cases entry with
  | none => exact absurd rfl h
  | some srun =>
      exact ⟨rfl, rfl, ((keepsMark_drained srun).trans (keepsMark_ported _)).deadTime⟩

end Mark

section Call

variable {c : Call} {p : Child} {x : ℕ}

theorem Config.probeSize_le (config : Config) : config.probeSize ≤ config.srunList.length := by
  have hpos := config.capacity_pos
  have hle := config.size_le
  unfold Config.probeSize
  split <;> omega

/-- What a call leaves of a runner that it did not choose: the mark it had, unless the
last pass set it anew, or a failure that the call forgets. -/
theorem Call.run_unserved (hfits : ProbeFits p.config.probeSize)
    (h : ¬ ((c.run p).1 = true ∧ (c.run p).2.stream.srun = some x)) :
    KeepsMark c.time (p.config.srun x) ((c.run p).2.config.srun x) ∧
        (madeAttempts p (c.run p).2 x = [] ∨ c.Forgets p x) ∨
      ((c.run p).2.config.srun x).isDead = true ∧
        ((c.run p).2.config.srun x).lastTime = c.time ∧
        ((c.run p).2.config.srun x).deadTime = (p.config.srun x).deadTime := by
  have hnodup := nodup_callOrder c.sessionIndex c.ip c.time c.rand hfits
  have hmem := mem_callOrder_iff c.sessionIndex c.ip c.time c.rand hfits x
  obtain ⟨q, hconfig, -, hq, hcall⟩ :=
    openConnection_eq c.dial c.sessionIndex c.ip c.time c.rand p
  have hrun : c.run p = _ := hcall
  rw [hrun] at h ⊢
  have hforgets : ModCaucho.Forgets c.dial c.sessionIndex c.time
      (callOrder c.sessionIndex c.ip c.time c.rand p) q x → c.Forgets p x := by
    rintro ⟨hunused, hearlier, htried, hrefused, htaken⟩
    simp only [TakesReuse, TakesLive, TakesAny, hconfig] at hunused hearlier htried hrefused htaken
    exact ⟨hunused, hearlier, htried, hrefused, htaken⟩
  have hkeepsFirst := @keepsMark_first c.time c.sessionIndex (q.view x)
  have hkeepsLive := hkeepsFirst.trans (keepsMark_live c.dial c.sessionIndex x _)
  rw [hq, view_srun] at hkeepsFirst hkeepsLive
  have hunserved := passes_unserved hnodup h
  rw [hq] at hunserved
  rw [← view_srun (passes _ _ _ _ _).2]
  rcases hunserved with hview | hview | ⟨hview, hx⟩ | ⟨hview, hlive⟩
  · rw [hview, view_srun]
    refine Or.inl ⟨KeepsMark.refl _, Or.inl (madeAttempts_eq ?_)⟩
    rw [hview, List.append_nil]
  · rw [hview]
    refine Or.inl ⟨hkeepsFirst, Or.inl (madeAttempts_eq ?_)⟩
    rw [hview, rejectFirst_attempts, List.append_nil]
  · right
    rw [hview]
    have hentry : (rejectLive c.dial c.sessionIndex c.time x
        (rejectFirst c.sessionIndex c.time (p.view x))).1 ≠ none := by
      obtain ⟨f, hf⟩ := ((wanes_first c.sessionIndex c.time (p.view x)).trans
        (wanes_live c.dial c.sessionIndex c.time x _)).entry
      have hlt := Nat.lt_of_lt_of_le (hmem.mp hx) p.config.probeSize_le
      rw [hf, Child.view, List.getElem?_eq_getElem hlt]
      simp
    obtain ⟨hdead, hlast, htime⟩ := @rejectAny_srun c.time c.dial x _ hentry
    exact ⟨hdead, hlast, htime.trans hkeepsLive.deadTime⟩
  · rw [hview]
    refine Or.inl ⟨hkeepsLive, ?_⟩
    by_cases hquiet : Skipped c.sessionIndex (p.config.srun x) ∨ (p.config.srun x).Dead c.time
    · left
      apply madeAttempts_eq
      rw [hview, rejectLive_quiet, rejectFirst_attempts, List.append_nil]
      rwa [Skipped, rejectFirst_isBackup, rejectFirst_dead, view_srun]
    · obtain ⟨hskip, hdead⟩ := not_or.mp hquiet
      rw [hconfig] at hlive
      exact Or.inr (hforgets (hlive hskip hdead))

end Call

namespace CallRun

/-- Before call `k`, the runner is marked dead as of call `m` or later. -/
structure Marked (r : CallRun) (x m k : ℕ) : Prop where
  isDead : ((r.before k).config.srun x).isDead = true
  since : (r.call m).time ≤ ((r.before k).config.srun x).lastTime
  past : ((r.before k).config.srun x).lastTime ≤ (r.call k).time
  deadTime : ((r.before k).config.srun x).deadTime = ((r.before m).config.srun x).deadTime
  fits : ((r.before k).config.srun x).lastTime.toNat +
    ((r.before m).config.srun x).deadTime < 2 ^ 32

variable {r : CallRun} {x m k last : ℕ}

/-- A call that the last pass ended with a new mark. -/
theorem marked_of_mark {n : ℕ} (hmn : (r.call m).time ≤ (r.call n).time)
    (hremembers : r.Remembers x n)
    (hsame : ((r.before n).config.srun x).deadTime = ((r.before m).config.srun x).deadTime)
    (hmark : ((r.after n).config.srun x).isDead = true ∧
      ((r.after n).config.srun x).lastTime = (r.call n).time ∧
      ((r.after n).config.srun x).deadTime = ((r.before n).config.srun x).deadTime) :
    r.Marked x m (n + 1) := by
  obtain ⟨hdead, hlast, htime⟩ := hmark
  have hrests := r.rests n
  have hlast' : ((r.before (n + 1)).config.srun x).lastTime = (r.call n).time :=
    (hrests.lastTime x).trans hlast
  refine ⟨(hrests.isDead x).trans hdead, ?_, ?_, ?_, ?_⟩
  · rw [hlast']
    exact hmn
  · rw [hlast']
    exact r.time_le n
  · exact (hrests.deadTime x).trans (htime.trans hsame)
  · rw [hlast', ← hsame]
    exact hremembers.2

/-- A call that refused the runner and did not choose it leaves it marked. -/
theorem marked_of_refused (hfits : ProbeFits (r.before m).config.probeSize)
    (hremembers : r.Remembers x m) (hrefused : r.Refused x m) (hnone : ¬ r.Chose x m) :
    r.Marked x m (m + 1) := by
  rcases Call.run_unserved hfits hnone with ⟨-, hquiet | hforgets⟩ | hmark
  · obtain ⟨attempt, hattempt, -⟩ := hrefused
    rw [after, hquiet] at hattempt
    cases hattempt
  · exact absurd hforgets hremembers.1
  · exact marked_of_mark (UInt32.le_refl _) hremembers rfl hmark

/-- A marked runner stays marked through a call that does not choose it. -/
theorem Marked.step (h : r.Marked x m k) (hmk : (r.call m).time ≤ (r.call k).time)
    (hfits : ProbeFits (r.before k).config.probeSize) (hremembers : r.Remembers x k)
    (hnone : ¬ r.Chose x k) : r.Marked x m (k + 1) := by
  rcases Call.run_unserved hfits hnone with ⟨hkeeps, -⟩ | hmark
  · have hrests := r.rests k
    have hlast : ((r.before (k + 1)).config.srun x).lastTime =
        ((r.before k).config.srun x).lastTime :=
      (hrests.lastTime x).trans (hkeeps.lastTime h.past)
    refine ⟨(hrests.isDead x).trans (hkeeps.isDead.trans h.isDead), ?_, ?_, ?_, ?_⟩
    · rw [hlast]
      exact h.since
    · rw [hlast]
      exact UInt32.le_trans h.past (r.time_le k)
    · exact (hrests.deadTime x).trans (hkeeps.deadTime.trans h.deadTime)
    · rw [hlast]
      exact h.fits
  · exact marked_of_mark hmk hremembers h.deadTime hmark

theorem time_mono (hmk : m ≤ k) : (r.call m).time ≤ (r.call k).time := by
  induction k, hmk using Nat.le_induction with
  | base => exact UInt32.le_refl _
  | succ k _ ih => exact UInt32.le_trans ih (r.time_le k)

/-- From a refusal on, and while no call chooses it, the runner is marked. -/
theorem marked_of_run (hfits : ∀ n ≤ last, ProbeFits (r.before n).config.probeSize)
    (hremembers : ∀ n < last, r.Remembers x n) (hrefused : r.Refused x m) (hmk : m < k)
    (hk : k ≤ last) (hnone : ∀ n, m ≤ n → n < k → ¬ r.Chose x n) : r.Marked x m k := by
  induction k, hmk using Nat.le_induction with
  | base =>
      exact marked_of_refused (hfits m (by omega)) (hremembers m (by omega)) hrefused
        (hnone m (Nat.le_refl m) (Nat.lt_succ_self m))
  | succ k hmk ih =>
      have hmarked := ih (by omega) fun n hmn hnk => hnone n hmn (by omega)
      exact hmarked.step (time_mono (by omega)) (hfits k (by omega)) (hremembers k (by omega))
        (hnone k (by omega) (Nat.lt_succ_self k))

/-- Within the `dead_time`, a marked runner is taken for dead. -/
theorem Marked.dead (h : r.Marked x m k)
    (htime : (r.call k).time.toNat ≤
      (r.call m).time.toNat + ((r.before m).config.srun x).deadTime) :
    ((r.before k).config.srun x).Dead (r.call k).time := by
  refine ⟨h.isDead, ?_⟩
  rw [settle_of_le h.past, UInt32.le_iff_toNat_le, UInt32.toNat_add, UInt32.toNat_ofNat',
    h.deadTime]
  have hfits := h.fits
  have hsince := UInt32.le_iff_toNat_le.mp h.since
  rw [Nat.mod_eq_of_lt (by omega : ((r.before m).config.srun x).deadTime < 2 ^ 32),
    Nat.mod_eq_of_lt hfits]
  omega

/-- A run whose calls remember every refusal leaves a dead runner alone for its
`dead_time`. -/
theorem leavesDead_of_remembers (r : CallRun) (x last : ℕ)
    (hfits : ∀ n ≤ last, ProbeFits (r.before n).config.probeSize)
    (hremembers : ∀ n < last, r.Remembers x n) : r.LeavesDead x last := by
  intro m k hmk hk hrefused hnone htime
  have hdead := (marked_of_run hfits hremembers hrefused hmk hk hnone).dead htime
  obtain ⟨q, hconfig, -, hq, hcall⟩ := openConnection_eq (r.call k).dial (r.call k).sessionIndex
    (r.call k).ip (r.call k).time (r.call k).rand (r.before k)
  obtain ⟨made, hmade, hwaits⟩ := @passes_onlyWaits (r.call k).dial (r.call k).sessionIndex
    (r.call k).time (callOrder (r.call k).sessionIndex (r.call k).ip (r.call k).time
      (r.call k).rand (r.before k)) q x (hconfig ▸ hdead)
  rw [← hcall, hq] at hmade
  have heq : madeAttempts (r.before k) (r.after k) x = made := madeAttempts_eq hmade
  rw [heq]
  exact hwaits

/-- The same call over and over, with nothing in between. -/
def repeated (c : Call) (p : Child) : CallRun where
  call _ := c
  before n := n.rec p fun _ q => (c.run q).2
  rests _ := ⟨fun _ => rfl, fun _ => rfl, fun _ => rfl⟩
  time_le _ := UInt32.le_refl _

/-- A call for the session of runner 0 on a network without a runner. -/
def lostCall : Call := ⟨unreachable, 0, [], 200, 0⟩

theorem leavesDead_of_remembers_lost :
    (repeated lostCall trioChild).Refused 0 0 ∧ (repeated lostCall trioChild).LeavesDead 0 1 := by
  constructor
  · exact ⟨(false, .noSocket), by decide, by simp⟩
  · apply leavesDead_of_remembers
    · decide
    · intro n hn
      obtain rfl : n = 0 := by omega
      refine ⟨fun hforgets => ?_, by decide⟩
      exact absurd hforgets.taken (by decide)

/-- A call for the session of runner 0, where only the other runners answer. -/
def divertedCall : Call :=
  ⟨fun i _ => if i = 0 then .noSocket else .connected 3, 0, [], 200, 0⟩

/-- Runner 0 fails and runner 2, the next one in the probe order, takes the request. The next
call, in the same second, tries runner 0 again. -/
theorem not_leavesDead_diverted :
    ¬ ∀ (r : CallRun) (x last : ℕ), (∀ n ≤ last, ProbeFits (r.before n).config.probeSize) →
      r.LeavesDead x last := by
  intro hclaim
  have hleaves := hclaim (repeated divertedCall trioChild) 0 1 (by decide)
  have hattempt := hleaves 0 1 (by decide) (by decide)
    ⟨(false, .noSocket), by decide, by simp⟩
    (by
      intro n _ hn
      obtain rfl : n = 0 := by omega
      rintro ⟨-, hchosen⟩
      exact absurd hchosen (by decide))
    (by decide) (false, .noSocket) (by decide)
  exact absurd hattempt (by decide)

end CallRun

end ModCaucho
