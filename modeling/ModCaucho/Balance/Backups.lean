import ModCaucho.Balance.Failover

/-!
# Backups and primaries

A backup should only serve a request when the primaries are down. For a request
without a session the first two passes leave the backups out, so one that is
chosen was chosen by the last pass, which every primary has failed to stop. For
a request with a session the second pass does not tell backups from primaries,
and takes the first one in probe order that is ready.
-/

namespace ModCaucho

open Scan

/-- The srun could not serve the call: it had no socket to reuse, and it was
either marked dead or refused an attempt to connect that the call made. -/
def Down (t : UInt32) (p p' : Child) (x : ℕ) : Prop :=
  ¬ (p.config.srun x).Usable t ∧
    ((p.config.srun x).MarkedDead t ∨
      ∃ attempt ∈ madeAttempts p p' x, ∀ fd, attempt.2 ≠ .connected fd)

/-- A backup other than the owner of the session was chosen only if every primary
was down. -/
def BackupsLast (sessionIndex : ℤ) (t : UInt32) (p p' : Child) : Prop :=
  ∀ b, p'.stream.srun = some b → (p.config.srun b).isBackup = true →
    ((p.config.srun b).session : ℤ) ≠ sessionIndex →
    ∀ x < p.config.srunSize, ¬ (p.config.srun x).isBackup = true → Down t p p' x

/-- With a session, the first srun in probe order that is ready is not a backup
ahead of a primary that is up. -/
def NoBackupAhead (dial : Dial) (sessionIndex : ℤ) (t : UInt32) (p : Child)
    (order : List ℕ) : Prop :=
  0 ≤ sessionIndex → ∀ pre b post, order = pre ++ b :: post →
    (∀ y ∈ pre, ¬ Ready dial t y (p.config.srun y)) → Ready dial t b (p.config.srun b) →
    (p.config.srun b).isBackup = true → ((p.config.srun b).session : ℤ) ≠ sessionIndex →
    ∀ x ∈ post, x < p.config.srunSize → ¬ (p.config.srun x).isBackup = true →
      ¬ (p.config.srun x).Usable t ∧ (p.config.srun x).MarkedDead t

/-! ## What the first pass leaves of an srun -/

theorem rejectFirst_srun (sessionIndex : ℤ) (t : UInt32) (v : SrunView) :
    (rejectFirst sessionIndex t v).srun = v.srun ∨
      (rejectFirst sessionIndex t v).srun = v.srun.drained t := by
  unfold rejectFirst rejectReuse
  split
  · split
    · exact Or.inl rfl
    · exact Or.inr (srun_map (drained_of_nil rfl) v v.2)
  · exact Or.inl rfl

theorem rejectFirst_isBackup (sessionIndex : ℤ) (t : UInt32) (v : SrunView) :
    (rejectFirst sessionIndex t v).srun.isBackup = v.srun.isBackup := by
  rcases rejectFirst_srun sessionIndex t v with h | h
  · rw [h]
  · rw [h]
    exact settle_isBackup t v.srun

theorem rejectFirst_dead (sessionIndex : ℤ) (t : UInt32) (v : SrunView) :
    (rejectFirst sessionIndex t v).srun.Dead t ↔ v.srun.Dead t := by
  rcases rejectFirst_srun sessionIndex t v with h | h
  · rw [h]
  · rw [h, dead_drained]

/-! ## Attempts through a pass -/

theorem tryAny_attempts (dial : Dial) (t : UInt32) (a : ℕ) (p : Child) (x : ℕ) :
    ∃ made, ((tryAny dial t a p).2.view x).2 = (p.view x).2 ++ made := by
  by_cases hx : x = a
  · subst hx
    cases h : (tryAny dial t x p).1 with
    | true => exact (tryAny_serves h).attempts
    | false =>
        rw [(tryAny_local dial t).rejects x p h]
        exact ⟨_, rfl⟩
  · rw [(tryAny_local dial t).frame a p x hx]
    exact ⟨[], (List.append_nil _).symm⟩

/-- The last pass only adds to the attempts to connect to an srun. -/
theorem scan_tryAny_attempts (dial : Dial) (t : UInt32) (order : List ℕ) (p : Child) (x : ℕ) :
    ∃ made, ((scan (tryAny dial t) order p).2.view x).2 = (p.view x).2 ++ made := by
  apply scan_induction (P := fun q : Child => ∃ made, (q.view x).2 = (p.view x).2 ++ made)
  · rintro a - q ⟨made, hmade⟩
    obtain ⟨more, hmore⟩ := tryAny_attempts dial t a q x
    exact ⟨made ++ more, by rw [hmore, hmade, List.append_assoc]⟩
  · exact ⟨[], (List.append_nil _).symm⟩

/-! ## Primaries that a backup was preferred to -/

section Passes

variable {dial : Dial} {sessionIndex : ℤ} {t : UInt32} {order : List ℕ} {p : Child}

/-- A primary that the second pass rejected is down, whatever the call attempts
after that. -/
theorem down_of_rejectLive {p' : Child} {x : ℕ} {made : List (Bool × ConnectResult)}
    (hprimary : ¬ (p.config.srun x).isBackup = true) (hu : ¬ (p.config.srun x).Usable t)
    (hrejected : ¬ (¬ Skipped sessionIndex (rejectFirst sessionIndex t (p.view x)).srun ∧
      Ready dial t x (rejectFirst sessionIndex t (p.view x)).srun))
    (hview : (p'.view x).2 =
      (rejectLive dial sessionIndex t x (rejectFirst sessionIndex t (p.view x))).2 ++ made) :
    Down t p p' x := by
  have hskip : ¬ Skipped sessionIndex (rejectFirst sessionIndex t (p.view x)).srun := by
    rintro ⟨-, hbackup⟩
    rw [rejectFirst_isBackup, view_srun] at hbackup
    exact hprimary hbackup
  refine ⟨hu, ?_⟩
  by_cases hdead : (p.config.srun x).Dead t
  · exact Or.inl hdead.markedDead
  · right
    have hdead' : ¬ (rejectFirst sessionIndex t (p.view x)).srun.Dead t := by
      rw [rejectFirst_dead, view_srun]
      exact hdead
    rw [rejectLive, if_neg hskip, if_neg hdead'] at hview
    simp only [rejectFirst_attempts, List.append_assoc] at hview
    rw [madeAttempts_eq hview]
    refine ⟨(false, dial x false), by simp, ?_⟩
    intro fd hfd
    exact hrejected ⟨hskip, Or.inr ⟨hdead', fd, hfd⟩⟩

/-- The first pass has turned down every primary with a socket to reuse, and so
has the second where there is no first. -/
theorem not_usable_of_rejected (hnodup : order.Nodup)
    (h₁ : (firstPass sessionIndex t order p).1 = false) {x : ℕ} (hx : x ∈ order)
    (hprimary : ¬ (p.config.srun x).isBackup = true)
    (hrejected : ¬ (¬ Skipped sessionIndex (rejectFirst sessionIndex t (p.view x)).srun ∧
      Ready dial t x (rejectFirst sessionIndex t (p.view x)).srun)) :
    ¬ (p.config.srun x).Usable t := by
  intro hu
  by_cases hs : sessionIndex < 0
  · rw [firstPass, if_pos hs] at h₁
    have hnone := ((tryReuse_local t).scan_false_iff hnodup p).mp h₁ x hx
    rw [AcceptsReuse, view_srun] at hnone
    exact hnone ⟨hprimary, hu⟩
  · rw [rejectFirst, if_neg hs, view_srun] at hrejected
    exact hrejected ⟨fun hskip => hs hskip.1, Or.inl hu⟩

/-- The last pass runs only when every primary is down. -/
theorem backupsLast_of_third (hnodup : order.Nodup)
    (hmem : ∀ x < p.config.srunSize, x ∈ order)
    (h₁ : (firstPass sessionIndex t order p).1 = false)
    (h₂ : (secondPass dial sessionIndex t order p).1 = false) :
    BackupsLast sessionIndex t p (passes dial sessionIndex t order p).2 := by
  intro b _ _ _ x hx hprimary
  have hrejected := ((tryLive_local dial sessionIndex t).scan_false_iff hnodup _).mp h₂ x
    (hmem x hx)
  rw [firstPass_view hnodup h₁ (hmem x hx)] at hrejected
  obtain ⟨made, hmade⟩ := scan_tryAny_attempts dial t order
    (secondPass dial sessionIndex t order p).2 x
  rw [secondPass_view hnodup h₁ h₂ (hmem x hx)] at hmade
  rw [passes_of_third h₁ h₂]
  exact down_of_rejectLive hprimary
    (not_usable_of_rejected hnodup h₁ (hmem x hx) hprimary hrejected) hrejected hmade

/-- Without a session the second pass takes no backup. -/
theorem not_backup_of_second {b : ℕ} (hs : sessionIndex < 0)
    (hacc : ¬ Skipped sessionIndex (rejectFirst sessionIndex t (p.view b)).srun) :
    ¬ (p.config.srun b).isBackup = true := by
  intro hbackup
  rw [← view_srun, ← rejectFirst_isBackup sessionIndex t] at hbackup
  exact hacc ⟨hs, hbackup⟩

/-- With a session the second pass is a search for the first srun that is ready. -/
theorem secondPass_of_session {pre post : List ℕ} {b : ℕ} (hs : 0 ≤ sessionIndex)
    (hnodup : (pre ++ b :: post).Nodup)
    (hpre : ∀ y ∈ pre, ¬ Ready dial t y (p.config.srun y))
    (hb : Ready dial t b (p.config.srun b)) :
    (secondPass dial sessionIndex t (pre ++ b :: post) p).1 = true ∧
      (secondPass dial sessionIndex t (pre ++ b :: post) p).2.stream.srun = some b ∧
      (∀ x ∈ pre, (secondPass dial sessionIndex t (pre ++ b :: post) p).2.view x =
        rejectLive dial sessionIndex t x (p.view x)) ∧
      ∀ x ∈ post, (secondPass dial sessionIndex t (pre ++ b :: post) p).2.view x =
        p.view x := by
  have hneg : ¬ sessionIndex < 0 := by omega
  have hlocal := tryLive_local dial sessionIndex t
  have haccepts : ∀ y, (¬ Skipped sessionIndex (p.view y).srun ∧
      Ready dial t y (p.view y).srun) ↔ Ready dial t y (p.config.srun y) := by
    intro y
    rw [view_srun]
    exact ⟨And.right, fun h => ⟨fun hskip => hneg hskip.1, h⟩⟩
  have hpre' := fun y hy => mt (haccepts y).mp (hpre y hy)
  have hscan := hlocal.scan_of_first hnodup hpre' ((haccepts b).mpr hb)
  have hbpre : b ∉ pre := fun hmem => (List.nodup_append.mp hnodup).2.2 b hmem b (by simp) rfl
  have hfirst : (firstPass sessionIndex t (pre ++ b :: post) p).2 = p := by
    rw [firstPass, if_neg hneg]
  have hrejected := (hlocal.scan_false_iff (List.nodup_append.mp hnodup).1 p).mpr hpre'
  rw [secondPass, hfirst, hscan]
  refine ⟨rfl, ?_, hlocal.scan_others hnodup hrejected⟩
  apply (tryLive_serves _).srun
  rw [hlocal.decides, hlocal.scan_frame hbpre]
  exact (haccepts b).mpr hb

/-- With a session, the chosen backup stands behind every primary that is up
exactly when it does in probe order. -/
theorem backupsLast_of_session {pre post : List ℕ} {b : ℕ} (hs : 0 ≤ sessionIndex)
    (hnodup : (pre ++ b :: post).Nodup)
    (hmem : ∀ x < p.config.srunSize, x ∈ pre ++ b :: post)
    (hpre : ∀ y ∈ pre, ¬ Ready dial t y (p.config.srun y))
    (hb : Ready dial t b (p.config.srun b)) :
    BackupsLast sessionIndex t p (passes dial sessionIndex t (pre ++ b :: post) p).2 ↔
      ((p.config.srun b).isBackup = true → ((p.config.srun b).session : ℤ) ≠ sessionIndex →
        ∀ x ∈ post, x < p.config.srunSize → ¬ (p.config.srun x).isBackup = true →
          ¬ (p.config.srun x).Usable t ∧ (p.config.srun x).MarkedDead t) := by
  have hneg : ¬ sessionIndex < 0 := by omega
  obtain ⟨htrue, hsrun, hviewpre, hviewpost⟩ := secondPass_of_session hs hnodup hpre hb
  have hfirst : firstPass sessionIndex t (pre ++ b :: post) p = (false, p) := if_neg hneg
  rw [passes_of_second (by rw [hfirst]) htrue]
  have hnone : ∀ x ∈ post, madeAttempts p
      (secondPass dial sessionIndex t (pre ++ b :: post) p).2 x = [] := by
    intro x hx
    apply madeAttempts_eq
    rw [hviewpost x hx, List.append_nil]
  constructor
  · intro hlast hbackup hsession x hx hlt hprimary
    obtain ⟨hu, hmarked | ⟨attempt, hmade, -⟩⟩ := hlast b hsrun hbackup hsession x hlt hprimary
    · exact ⟨hu, hmarked⟩
    · rw [hnone x hx] at hmade
      cases hmade
  · intro hcond b' hb' hbackup hsession x hlt hprimary
    obtain rfl : b = b' := Option.some_inj.mp (hsrun.symm.trans hb')
    rcases List.mem_append.mp (hmem x hlt) with hx | hx
    · have hview : rejectFirst sessionIndex t (p.view x) = p.view x := if_neg hneg
      have hready := hpre x hx
      refine @down_of_rejectLive dial sessionIndex t p _ x [] hprimary
        (fun hu => hready (Or.inl hu)) ?_ ?_
      · rw [hview, view_srun]
        exact fun h => hready h.2
      · rw [hview, hviewpre x hx, List.append_nil]
    · rcases List.mem_cons.mp hx with rfl | hx
      · exact absurd hbackup hprimary
      · obtain ⟨hu, hmarked⟩ := hcond hbackup hsession x hx hlt hprimary
        exact ⟨hu, Or.inl hmarked⟩

/-- Without a session, a backup is only chosen by the last pass. -/
theorem backupsLast_of_no_session (hnodup : order.Nodup)
    (hmem : ∀ x < p.config.srunSize, x ∈ order) (hs : sessionIndex < 0) :
    BackupsLast sessionIndex t p (passes dial sessionIndex t order p).2 := by
  cases h₁ : (firstPass sessionIndex t order p).1 with
  | true =>
      rw [passes_of_first h₁]
      simp only [firstPass, if_pos hs] at h₁ ⊢
      obtain ⟨pre, i, post, rfl, -, hacc, -, hview, hfinal⟩ :=
        (tryReuse_local t).scan_true hnodup h₁
      rw [hfinal]
      intro b hb hbackup
      have hok : (tryReuse t i (scan (tryReuse t) pre p).2).1 = true := by
        rw [(tryReuse_local t).decides, hview]
        exact hacc
      have hsrun := (tryReuse_serves hok).srun
      obtain rfl : i = b := Option.some_inj.mp (hsrun.symm.trans hb)
      rw [AcceptsReuse, view_srun] at hacc
      exact absurd hbackup hacc.1
  | false =>
      cases h₂ : (secondPass dial sessionIndex t order p).1 with
      | true =>
          obtain ⟨pre, i, post, rfl, -, hacc, -, hview, hfinal⟩ :=
            (tryLive_local dial sessionIndex t).scan_true hnodup h₂
          have hok := ((tryLive_local dial sessionIndex t).decides i _).mpr (hview ▸ hacc)
          have hsrun := (tryLive_serves hok).srun
          rw [passes_of_second h₁ h₂]
          intro b hb hbackup
          rw [secondPass, hfinal, hsrun] at hb
          obtain rfl : i = b := Option.some_inj.mp hb
          rw [firstPass_view hnodup h₁ (by simp)] at hacc
          exact absurd hbackup (not_backup_of_second hs hacc.1)
      | false => exact backupsLast_of_third hnodup hmem h₁ h₂

/-- Where the passes choose a backup and when they may. -/
theorem passes_backupsLast_iff (hnodup : order.Nodup)
    (hmem : ∀ x < p.config.srunSize, x ∈ order) :
    ((passes dial sessionIndex t order p).1 = true →
        BackupsLast sessionIndex t p (passes dial sessionIndex t order p).2) ↔
      NoBackupAhead dial sessionIndex t p order := by
  rcases lt_or_ge sessionIndex 0 with hs | hs
  · constructor
    · intro _ hnonneg
      omega
    · intro _ _
      exact backupsLast_of_no_session hnodup hmem hs
  · have hneg : ¬ sessionIndex < 0 := by omega
    have hfirst : firstPass sessionIndex t order p = (false, p) := if_neg hneg
    constructor
    · rintro hlast - pre b post rfl hpre hb
      have htrue := (secondPass_of_session hs hnodup hpre hb).1
      rw [← backupsLast_of_session hs hnodup hmem hpre hb]
      apply hlast
      rw [passes_of_second (by rw [hfirst]) htrue]
    · intro hahead _
      cases h₂ : (secondPass dial sessionIndex t order p).1 with
      | true =>
          obtain ⟨pre, b, post, rfl, hpre, hacc, -, -, -⟩ :=
            (tryLive_local dial sessionIndex t).scan_true hnodup h₂
          simp only [hfirst, view_srun] at hpre hacc
          have hpre' : ∀ y ∈ pre, ¬ Ready dial t y (p.config.srun y) :=
            fun y hy hready => hpre y hy ⟨fun hskip => hneg hskip.1, hready⟩
          rw [backupsLast_of_session hs hnodup hmem hpre' hacc.2]
          exact hahead hs pre b post rfl hpre' hacc.2
      | false => exact backupsLast_of_third hnodup hmem (by rw [hfirst]) h₂

end Passes

/-- Backups serve only when the primaries are down exactly when, in a request with
a session, no backup is ready ahead of a primary that is up. -/
theorem backupsLast_iff (dial : Dial) (sessionIndex : ℤ) (ip : List Byte) (t : UInt32)
    (rand : Int32) {p : Child} (hfits : ProbeFits p.config.probeSize) :
    ((openConnection dial sessionIndex ip t rand p).1 = true →
        BackupsLast sessionIndex t p (openConnection dial sessionIndex ip t rand p).2) ↔
      NoBackupAhead dial sessionIndex t p (callOrder sessionIndex ip t rand p) := by
  have hnodup := nodup_callOrder sessionIndex ip t rand hfits
  have hmem : ∀ x < p.config.srunSize, x ∈ callOrder sessionIndex ip t rand p := by
    intro x hx
    rw [mem_callOrder_iff sessionIndex ip t rand hfits]
    have := srunSize_le_probeSize p.config
    omega
  obtain ⟨q, hconfig, -, hq, hcall⟩ := openConnection_eq dial sessionIndex ip t rand p
  have hiff := @passes_backupsLast_iff dial sessionIndex t _ q hnodup
    (fun x hx => hmem x (hconfig ▸ hx))
  have hmade : ∀ p' x, madeAttempts q p' x = madeAttempts p p' x := by
    intro p' x
    have := congrArg Prod.snd (hq x)
    simp only [Child.view] at this
    rw [madeAttempts, madeAttempts, this]
  simp only [BackupsLast, NoBackupAhead, Down, hconfig, hmade] at hiff ⊢
  rw [hcall]
  exact hiff

theorem backupsLast_iff_no_session :
    ((openConnection answering (-1) [] 120 0 trioChild).1 = true →
        BackupsLast (-1) 120 trioChild (openConnection answering (-1) [] 120 0 trioChild).2) ↔
      NoBackupAhead answering (-1) 120 trioChild (callOrder (-1) [] 120 0 trioChild) :=
  backupsLast_iff answering (-1) [] 120 0 (by decide)

/-- The owner of session 0 is marked dead, and the call goes on to the backup at
index 2. The primary at index 1 is not asked. -/
theorem not_backupsLast_session :
    ¬ ∀ (dial : Dial) (sessionIndex : ℤ) (ip : List Byte) (t : UInt32) (rand : Int32)
      (p : Child), ProbeFits p.config.probeSize →
        (openConnection dial sessionIndex ip t rand p).1 = true →
        BackupsLast sessionIndex t p (openConnection dial sessionIndex ip t rand p).2 := by
  intro hclaim
  have hdown := hclaim answering 0 [] 120 0 trioChild (by decide) (by decide) 2 (by decide)
    (by decide) (by decide) 1 (by decide) (by decide)
  have hnone : madeAttempts trioChild (openConnection answering 0 [] 120 0 trioChild).2 1 = [] := by
    decide
  obtain ⟨-, hmarked | ⟨attempt, hmade, -⟩⟩ := hdown
  · exact absurd hmarked (by decide)
  · rw [hnone] at hmade
    cases hmade

end ModCaucho
