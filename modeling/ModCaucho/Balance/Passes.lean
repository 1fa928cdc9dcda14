import ModCaucho.Balance.Local

/-!
# What the passes accept and what they leave behind

For each of the three tests: which sruns it accepts, what it does to an srun that
it rejects, and what holds of the stream and of the srun that it accepts.
-/

namespace ModCaucho

open Scan

theorem cseOpen_view (dial : Dial) (i : ℕ) (wait : Bool) (p : Child) :
    (cseOpen dial i wait p).2.view i =
      ((p.view i).1.map Srun.ported, (p.view i).2 ++ [(wait, dial i wait)]) := by
  rw [cseOpen_eq]
  simp only [Child.view, srunList_modifySrun, if_true, attempts_connectSocket, attempts_append,
    attempts]
  rfl

theorem cseOpen_frame {i j : ℕ} (hne : j ≠ i) (dial : Dial) (wait : Bool) (p : Child) :
    (cseOpen dial i wait p).2.view j = p.view j := by
  rw [cseOpen_eq]
  simp [Child.view, hne.symm, attempts_connectSocket, attempts_append, attempts]

theorem cseOpen_socket {dial : Dial} {i fd : ℕ} {wait : Bool} (h : dial i wait = .connected fd)
    (p : Child) : (cseOpen dial i wait p).2.stream.socket = fd := by
  rw [cseOpen_eq, h]
  rfl

theorem use_frame {i j : ℕ} (hne : j ≠ i) (t : UInt32) (p : Child) :
    (p.use i t).view j = p.view j := by
  simp [Child.use, Child.view, hne.symm]

/-- An srun as `cse_reuse_socket` leaves it when it finds nothing to reuse. -/
theorem srun_of_not_usable {i : ℕ} {t : UInt32} {p : Child}
    (h : ¬ (p.config.srun i).Usable t) :
    (cseReuseSocket i t p).2.config.srun i = (p.config.srun i).drained t := by
  rw [← view_srun, cseReuseSocket_view h, ← view_srun]
  cases hentry : (p.view i).1 with
  | none => simp [SrunView.srun, hentry]; rfl
  | some srun => simp [SrunView.srun, hentry]

/-! ## The first pass -/

/-- The sruns that the first pass accepts. -/
def AcceptsReuse (t : UInt32) (v : SrunView) : Prop :=
  ¬ v.srun.isBackup = true ∧ v.srun.Usable t

/-- What the first pass does to an srun it rejects. -/
def rejectReuse (t : UInt32) (v : SrunView) : SrunView :=
  if v.srun.isBackup then v else (v.1.map (Srun.drained t), v.2)

theorem tryReuse_local (t : UInt32) :
    Local (tryReuse t) Child.view (fun _ => AcceptsReuse t) (fun _ => rejectReuse t) where
  decides i p := by
    unfold tryReuse AcceptsReuse
    rw [view_srun]
    by_cases hb : (p.config.srun i).isBackup = true
    · simp [hb]
    · simp [hb, cseReuseSocket_fst]
  rejects i p h := by
    unfold tryReuse at h ⊢
    unfold rejectReuse
    rw [view_srun]
    by_cases hb : (p.config.srun i).isBackup = true
    · simp [hb]
    · rw [if_neg hb] at h ⊢
      rw [if_neg hb]
      have hu : ¬ (p.config.srun i).Usable t := by
        rw [← cseReuseSocket_fst, h]
        simp
      exact cseReuseSocket_view hu
  frame i p j hne := by
    unfold tryReuse
    split
    · rfl
    · exact cseReuseSocket_frame hne t p

/-! ## The second pass -/

/-- The sruns that would take a request in the second pass: one with a socket to
reuse, or one that is not taken for dead and connects. -/
def Ready (dial : Dial) (t : UInt32) (i : ℕ) (srun : Srun) : Prop :=
  srun.Usable t ∨ ¬ srun.Dead t ∧ ∃ fd, dial i false = .connected fd

/-- The second pass passes over an srun unseen. -/
def Skipped (sessionIndex : ℤ) (srun : Srun) : Prop :=
  sessionIndex < 0 ∧ srun.isBackup = true

instance (sessionIndex : ℤ) (srun : Srun) : Decidable (Skipped sessionIndex srun) :=
  inferInstanceAs (Decidable (_ ∧ _))

/-- What the second pass does to an srun it rejects. -/
def rejectLive (dial : Dial) (sessionIndex : ℤ) (t : UInt32) (i : ℕ) (v : SrunView) :
    SrunView :=
  if Skipped sessionIndex v.srun then v
  else if v.srun.Dead t then (v.1.map (Srun.drained t), v.2)
  else (v.1.map fun srun => (srun.drained t).ported, v.2 ++ [(false, dial i false)])

theorem tryLive_of_skipped {dial : Dial} {sessionIndex : ℤ} {t : UInt32} {i : ℕ} {p : Child}
    (h : Skipped sessionIndex (p.config.srun i)) :
    tryLive dial sessionIndex t i p = (false, p) := if_pos h

/-- The second pass on an srun that it does not skip. -/
theorem tryLive_of_not_skipped {dial : Dial} {sessionIndex : ℤ} {t : UInt32} {i : ℕ}
    {p : Child} (h : ¬ Skipped sessionIndex (p.config.srun i)) :
    tryLive dial sessionIndex t i p =
      if (p.config.srun i).Usable t then (true, (cseReuseSocket i t p).2)
      else if (p.config.srun i).Dead t then (false, (cseReuseSocket i t p).2)
      else if (cseOpen dial i false (cseReuseSocket i t p).2).1 then
        (true, (cseOpen dial i false (cseReuseSocket i t p).2).2.use i t)
      else (false, (cseOpen dial i false (cseReuseSocket i t p).2).2) := by
  refine (if_neg h).trans ?_
  by_cases hu : (p.config.srun i).Usable t
  · have hfst := (cseReuseSocket_fst i t p).mpr hu
    simp only [hfst, if_true, if_pos hu]
  · have hfst : (cseReuseSocket i t p).1 = false := by
      rw [← Bool.not_eq_true, cseReuseSocket_fst]
      exact hu
    have hdead := dead_drained t (p.config.srun i)
    unfold Srun.Dead at hdead
    rw [settle_drained] at hdead
    simp only [hfst, srun_of_not_usable hu, if_neg hu, hdead, Bool.false_eq_true, if_false]
    rfl

theorem tryLive_local (dial : Dial) (sessionIndex : ℤ) (t : UInt32) :
    Local (tryLive dial sessionIndex t) Child.view
      (fun i v => ¬ Skipped sessionIndex v.srun ∧ Ready dial t i v.srun)
      (rejectLive dial sessionIndex t) where
  decides i p := by
    rw [view_srun]
    by_cases hs : Skipped sessionIndex (p.config.srun i)
    · simp [tryLive_of_skipped hs, hs]
    · rw [tryLive_of_not_skipped hs]
      by_cases hu : (p.config.srun i).Usable t
      · simp [hu, hs, Ready]
      · by_cases hd : (p.config.srun i).Dead t
        · simp [hu, hd, Ready]
        · have hopen := cseOpen_fst dial i false (cseReuseSocket i t p).2
          by_cases ho : (cseOpen dial i false (cseReuseSocket i t p).2).1 = true
          · simp [hu, hd, hs, ho, Ready, hopen.mp ho]
          · have hno := not_exists.mp fun h => ho (hopen.mpr h)
            simp [hu, hd, ho, Ready, hno]
  rejects i p h := by
    unfold rejectLive
    rw [view_srun]
    by_cases hs : Skipped sessionIndex (p.config.srun i)
    · rw [tryLive_of_skipped hs, if_pos hs]
    · rw [tryLive_of_not_skipped hs] at h ⊢
      rw [if_neg hs]
      by_cases hu : (p.config.srun i).Usable t
      · rw [if_pos hu] at h
        cases h
      · rw [if_neg hu] at h ⊢
        by_cases hd : (p.config.srun i).Dead t
        · rw [if_pos hd, if_pos hd]
          exact cseReuseSocket_view hu
        · rw [if_neg hd] at h ⊢
          rw [if_neg hd]
          split at h
          · cases h
          · next ho =>
              rw [if_neg ho, cseOpen_view, cseReuseSocket_view hu]
              simp [Option.map_map, Function.comp_def]
  frame i p j hne := by
    by_cases hs : Skipped sessionIndex (p.config.srun i)
    · rw [tryLive_of_skipped hs]
    · rw [tryLive_of_not_skipped hs]
      have hreuse := cseReuseSocket_frame hne t p
      have hopen := (cseOpen_frame hne dial false (cseReuseSocket i t p).2).trans hreuse
      split
      · exact hreuse
      · split
        · exact hreuse
        · split
          · exact (use_frame hne t _).trans hopen
          · exact hopen

/-! ## The third pass -/

/-- The sruns that the last pass accepts. -/
def AcceptsAny (dial : Dial) (t : UInt32) (i : ℕ) (v : SrunView) : Prop :=
  v.srun.Usable t ∨ ∃ fd, dial i true = .connected fd

/-- What the last pass does to an srun it rejects. -/
def rejectAny (dial : Dial) (t : UInt32) (i : ℕ) (v : SrunView) : SrunView :=
  (v.1.map fun srun => { (srun.drained t).ported with isDead := true, lastTime := t },
    v.2 ++ [(true, dial i true)])

/-- The mark that the last pass leaves on an srun that did not connect. -/
def Child.bury (p : Child) (i : ℕ) (t : UInt32) : Child :=
  { p with config := p.config.modifySrun i fun srun =>
    { srun with isDead := true, lastTime := t } }

theorem tryAny_eq (dial : Dial) (t : UInt32) (i : ℕ) (p : Child) :
    tryAny dial t i p =
      if (p.config.srun i).Usable t then (true, (cseReuseSocket i t p).2)
      else if (cseOpen dial i true (cseReuseSocket i t p).2).1 then
        (true, (cseOpen dial i true (cseReuseSocket i t p).2).2.use i t)
      else (false, (cseOpen dial i true (cseReuseSocket i t p).2).2.bury i t) := by
  by_cases hu : (p.config.srun i).Usable t
  · have hfst := (cseReuseSocket_fst i t p).mpr hu
    simp only [tryAny, hfst, if_true, if_pos hu]
  · have hfst : (cseReuseSocket i t p).1 = false := by
      rw [← Bool.not_eq_true, cseReuseSocket_fst]
      exact hu
    simp only [tryAny, hfst, if_neg hu, Bool.false_eq_true, if_false]
    rfl

theorem tryAny_local (dial : Dial) (t : UInt32) :
    Local (tryAny dial t) Child.view (AcceptsAny dial t) (rejectAny dial t) where
  decides i p := by
    rw [tryAny_eq, AcceptsAny, view_srun]
    by_cases hu : (p.config.srun i).Usable t
    · simp [hu]
    · have hopen := cseOpen_fst dial i true (cseReuseSocket i t p).2
      by_cases ho : (cseOpen dial i true (cseReuseSocket i t p).2).1 = true
      · simp [hu, ho, hopen.mp ho]
      · have hno := not_exists.mp fun h => ho (hopen.mpr h)
        simp [hu, ho, hno]
  rejects i p h := by
    rw [tryAny_eq] at h ⊢
    split at h
    · cases h
    · next hu =>
        rw [if_neg hu]
        split at h
        · cases h
        · next ho =>
            have hview : (cseOpen dial i true (cseReuseSocket i t p).2).2.view i = _ :=
              cseOpen_view dial i true (cseReuseSocket i t p).2
            rw [cseReuseSocket_view hu, Prod.ext_iff] at hview
            obtain ⟨hentry, hattempts⟩ := hview
            rw [if_neg ho, rejectAny, Prod.ext_iff]
            refine ⟨?_, hattempts⟩
            simp only [Child.view, Child.bury, srunList_modifySrun, if_true] at hentry ⊢
            rw [hentry]
            simp [Option.map_map, Function.comp_def]
  frame i p j hne := by
    rw [tryAny_eq]
    have hreuse := cseReuseSocket_frame hne t p
    have hopen := (cseOpen_frame hne dial true (cseReuseSocket i t p).2).trans hreuse
    split
    · exact hreuse
    · split
      · exact (use_frame hne t _).trans hopen
      · rw [← hopen]
        simp [Child.bury, Child.view, hne.symm]

/-! ## The accepted srun -/

/-- `p'` is `p` after the stream was connected to srun `i` at time `t`: its socket
comes from the pool of that srun or from an attempt to connect to it, and the
srun is alive and was used now. -/
structure Serves (t : UInt32) (i : ℕ) (p p' : Child) : Prop where
  srun : p'.stream.srun = some i
  socket : 0 ≤ p'.stream.socket
  origin : (∃ fd ∈ (p.config.srun i).sockets, p'.stream.socket = (fd : ℤ)) ∨
    ∃ (wait : Bool) (fd : ℕ), p'.stream.socket = (fd : ℤ) ∧
      ∃ made, (p'.view i).2 = (p.view i).2 ++ made ++ [(wait, .connected fd)]
  attempts : ∃ made, (p'.view i).2 = (p.view i).2 ++ made
  alive : ∃ f : Srun → Srun, (p'.view i).1 = (p.view i).1.map f ∧
    ∀ srun, (f srun).isDead = false ∧ (f srun).lastTime = t

theorem serves_reuse {i : ℕ} {t : UInt32} {p : Child} (h : (p.config.srun i).Usable t) :
    Serves t i p (cseReuseSocket i t p).2 := by
  rw [cseReuseSocket_of_usable h]
  have hset := srun_settle p i t
  obtain ⟨fd, fds, hpool⟩ := List.exists_cons_of_length_pos h.1
  have hsocket : (cseReuse i t (p.settle i t)).stream.socket = fd := by
    simp [cseReuse, hset, hpool]
  have hview : ((cseReuse i t (p.settle i t)).view i).2 = (p.view i).2 := rfl
  refine ⟨rfl, ?_, Or.inl ⟨fd, by simp [hpool], hsocket⟩, ⟨[], by simp [hview]⟩, ?_⟩
  · rw [hsocket]
    exact Int.natCast_nonneg fd
  · simp only [Child.view, cseReuse, Child.settle, srunList_modifySrun, if_true, Option.map_map]
    exact ⟨_, rfl, fun srun => ⟨rfl, rfl⟩⟩

theorem serves_open {dial : Dial} {i : ℕ} {wait : Bool} {t : UInt32} {p : Child}
    (hu : ¬ (p.config.srun i).Usable t)
    (ho : (cseOpen dial i wait (cseReuseSocket i t p).2).1 = true) :
    Serves t i p ((cseOpen dial i wait (cseReuseSocket i t p).2).2.use i t) := by
  obtain ⟨fd, hfd⟩ := (cseOpen_fst _ _ _ _).mp ho
  have hview : (((cseOpen dial i wait (cseReuseSocket i t p).2).2.use i t).view i).2 =
      (p.view i).2 ++ [(wait, .connected fd)] := by
    change ((cseOpen dial i wait (cseReuseSocket i t p).2).2.view i).2 = _
    rw [cseOpen_view, cseReuseSocket_view hu, hfd]
  have hsocket := cseOpen_socket hfd (cseReuseSocket i t p).2
  refine ⟨rfl, ?_, Or.inr ⟨wait, fd, hsocket, [], by simp [hview]⟩, ⟨_, hview⟩, ?_⟩
  · rw [Child.use, hsocket]
    exact Int.natCast_nonneg fd
  · have hentry : ((cseOpen dial i wait (cseReuseSocket i t p).2).2.view i).1 =
        (p.view i).1.map fun srun => (srun.drained t).ported := by
      rw [cseOpen_view, cseReuseSocket_view hu]
      simp [Option.map_map, Function.comp_def]
    simp only [Child.view] at hentry
    simp only [Child.view, Child.use, srunList_modifySrun, if_true, hentry, Option.map_map]
    exact ⟨_, rfl, fun srun => ⟨rfl, rfl⟩⟩

theorem tryReuse_serves {t : UInt32} {i : ℕ} {p : Child} (h : (tryReuse t i p).1 = true) :
    Serves t i p (tryReuse t i p).2 := by
  unfold tryReuse at h ⊢
  split at h
  · cases h
  · next hb =>
      rw [if_neg hb]
      exact serves_reuse ((cseReuseSocket_fst i t p).mp h)

theorem tryLive_serves {dial : Dial} {sessionIndex : ℤ} {t : UInt32} {i : ℕ} {p : Child}
    (h : (tryLive dial sessionIndex t i p).1 = true) :
    Serves t i p (tryLive dial sessionIndex t i p).2 := by
  by_cases hs : Skipped sessionIndex (p.config.srun i)
  · rw [tryLive_of_skipped hs] at h
    cases h
  · rw [tryLive_of_not_skipped hs] at h ⊢
    split at h
    · next hu =>
        rw [if_pos hu]
        exact serves_reuse hu
    · next hu =>
        rw [if_neg hu]
        split at h
        · cases h
        · next hd =>
            rw [if_neg hd]
            split at h
            · next ho =>
                rw [if_pos ho]
                exact serves_open hu ho
            · cases h

theorem tryAny_serves {dial : Dial} {t : UInt32} {i : ℕ} {p : Child}
    (h : (tryAny dial t i p).1 = true) : Serves t i p (tryAny dial t i p).2 := by
  rw [tryAny_eq] at h ⊢
  split at h
  · next hu =>
      rw [if_pos hu]
      exact serves_reuse hu
  · next hu =>
      rw [if_neg hu]
      split at h
      · next ho =>
          rw [if_pos ho]
          exact serves_open hu ho
      · cases h

/-! ## Views between the passes -/

/-- What a rejection can do to a view: the pool only gets smaller and the attempts
only get more. -/
structure Wanes (v v' : SrunView) : Prop where
  entry : ∃ f : Srun → Srun, v'.1 = v.1.map f
  sockets : v'.srun.sockets ⊆ v.srun.sockets
  attempts : ∃ made, v'.2 = v.2 ++ made

theorem Wanes.refl (v : SrunView) : Wanes v v := ⟨⟨id, by simp⟩, fun _ h => h, ⟨[], by simp⟩⟩

theorem Wanes.trans {v₁ v₂ v₃ : SrunView} (h₁ : Wanes v₁ v₂) (h₂ : Wanes v₂ v₃) :
    Wanes v₁ v₃ := by
  obtain ⟨made₁, hm₁⟩ := h₁.attempts
  obtain ⟨made₂, hm₂⟩ := h₂.attempts
  obtain ⟨f, hf⟩ := h₁.entry
  obtain ⟨g, hg⟩ := h₂.entry
  exact ⟨⟨g ∘ f, by rw [hg, hf, Option.map_map]⟩, fun fd hfd => h₁.sockets (h₂.sockets hfd),
    ⟨made₁ ++ made₂, by rw [hm₂, hm₁, List.append_assoc]⟩⟩

theorem ported_sockets (srun : Srun) : srun.ported.sockets = srun.sockets := by
  unfold Srun.ported
  split <;> rfl

theorem srun_map {f : Srun → Srun} (hf : f .zero = .zero) (v : SrunView)
    (made : List (Bool × ConnectResult)) :
    SrunView.srun (v.1.map f, made) = f v.srun := by
  obtain ⟨entry, attempts⟩ := v
  cases entry with
  | none => exact hf.symm
  | some srun => rfl

theorem wanes_reuse (t : UInt32) (v : SrunView) : Wanes v (rejectReuse t v) := by
  unfold rejectReuse
  split
  · exact Wanes.refl v
  · exact ⟨⟨_, rfl⟩, by rw [srun_map rfl]; simp [Srun.drained], ⟨[], by simp⟩⟩

theorem wanes_live (dial : Dial) (sessionIndex : ℤ) (t : UInt32) (i : ℕ) (v : SrunView) :
    Wanes v (rejectLive dial sessionIndex t i v) := by
  unfold rejectLive
  split
  · exact Wanes.refl v
  · split
    · exact ⟨⟨_, rfl⟩, by rw [srun_map rfl]; simp [Srun.drained], ⟨[], by simp⟩⟩
    · refine ⟨⟨_, rfl⟩, ?_, ⟨_, rfl⟩⟩
      obtain ⟨entry, attempts⟩ := v
      cases entry with
      | none => exact fun _ h => h
      | some srun => simp [SrunView.srun, ported_sockets, Srun.drained]

theorem Serves.of_wanes {t : UInt32} {i : ℕ} {p q p' : Child} (h : Serves t i q p')
    (hw : Wanes (p.view i) (q.view i)) : Serves t i p p' := by
  obtain ⟨earlier, hearlier⟩ := hw.attempts
  refine ⟨h.srun, h.socket, ?_, ?_, ?_⟩
  · rcases h.origin with ⟨fd, hfd, hsocket⟩ | ⟨wait, fd, hsocket, made, hmade⟩
    · left
      refine ⟨fd, ?_, hsocket⟩
      rw [← view_srun] at hfd ⊢
      exact hw.sockets hfd
    · right
      exact ⟨wait, fd, hsocket, earlier ++ made, by rw [hmade, hearlier]; simp⟩
  · obtain ⟨made, hmade⟩ := h.attempts
    exact ⟨earlier ++ made, by rw [hmade, hearlier, List.append_assoc]⟩
  · obtain ⟨f, hf⟩ := hw.entry
    obtain ⟨g, hg, halive⟩ := h.alive
    exact ⟨g ∘ f, by rw [hg, hf, Option.map_map], fun srun => halive (f srun)⟩

end ModCaucho
