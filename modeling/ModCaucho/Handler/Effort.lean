import Mathlib.Data.List.Infix
import ModCaucho.Handler.Origin

/-!
# How long a thread can be busy

A thread that looks for an srun goes by a table that other threads change under it. It
comes to an end all the same: what it does is bounded by its probe order and its
operations, and not by what the others do. Its attempts to connect, which are what takes
the time, are first some timed ones in the probe order and then blocking ones from the
front of it, at most one of each to an srun.
-/

namespace ModCaucho

open Framing

/-! ## Attempts -/

/-- An attempt to connect: the srun, and whether it blocks. -/
abbrev Attempt := ℕ × Bool

def SysCall.attempt? : SysCall → Option Attempt
  | .connect i wait _ => some (i, wait)
  | _ => none

/-- The attempts among system calls. -/
def attemptsIn (calls : List SysCall) : List Attempt := calls.filterMap SysCall.attempt?

/-- The attempt that an action makes. -/
def Act.attempt? : Act → Option Attempt
  | .dial i wait => some (i, wait)
  | _ => none

@[simp] theorem attemptsIn_append (calls calls' : List SysCall) :
    attemptsIn (calls ++ calls') = attemptsIn calls ++ attemptsIn calls' := List.filterMap_append

theorem attemptsIn_drainPool (sockets : List ℕ) (os : Os) :
    attemptsIn (drainPool sockets os).trace = attemptsIn os.trace := by
  induction sockets generalizing os with
  | nil => rfl
  | cons socket sockets ih =>
      rw [drainPool, ih, Os.close, attemptsIn_append]
      unfold Os.send
      split
      · exact List.append_nil _
      · split <;> simp [attemptsIn, SysCall.attempt?]

theorem attemptsIn_giveUpPools (order : List ℕ → List ℕ) (is : List ℕ) (p : Child) :
    attemptsIn (is.foldl (giveUpPool order) p).os.trace = attemptsIn p.os.trace := by
  induction is generalizing p with
  | nil => rfl
  | cons i is ih => exact (ih _).trans (attemptsIn_drainPool _ _)

theorem SpeaksOrCloses.attemptsIn {c c' : Conn} (h : SpeaksOrCloses c c') :
    attemptsIn c'.os.trace = attemptsIn c.os.trace := by
  have hspoken {d : Conn} (hd : SpeaksOn c d) :
      ModCaucho.attemptsIn d.os.trace = ModCaucho.attemptsIn c.os.trace := by
    obtain ⟨-, -, calls, htrace, hcalls⟩ := hd
    have hnone : ModCaucho.attemptsIn calls = [] := by
      refine List.filterMap_eq_nil_iff.mpr fun call hcall => ?_
      obtain ⟨-, bytes, rfl⟩ := hcalls call hcall
      rfl
    rw [htrace, attemptsIn_append, hnone, List.append_nil]
  rcases h with hc | ⟨d, hd, rfl⟩
  · exact hspoken hc
  · change ModCaucho.attemptsIn (d.os.trace ++ _) = _
    rw [attemptsIn_append, hspoken hd]
    exact List.append_nil _

theorem attemptsIn_exec (dial : Dial) (a : Act) {p : Child} (htrace : p.os.trace = []) :
    attemptsIn (a.exec dial p).2.os.trace = a.attempt?.toList := by
  have hnil : attemptsIn p.os.trace = [] := by rw [htrace]; rfl
  cases a with
  | clear => exact hnil
  | use i t => exact hnil
  | bury i t => exact hnil
  | op op => exact (speaksOrCloses_exec op p.conn).attemptsIn.trans hnil
  | dial i wait =>
      change attemptsIn (cseOpen dial i wait p).2.os.trace = [(i, wait)]
      rw [cseOpen_eq]
      cases hresult : dial i wait <;>
        simp [connectSocket, Os.close, htrace, attemptsIn, SysCall.attempt?]
  | reuse i t =>
      change attemptsIn (cseReuseSocket i t p).2.os.trace = []
      by_cases hu : (p.config.srun i).Usable t
      · rw [cseReuseSocket_of_usable hu]
        exact hnil
      · rw [cseReuseSocket_of_not_usable hu]
        by_cases hempty : (p.config.srun i).sockets = []
        · simp only [if_pos hempty]
          exact hnil
        · simp only [if_neg hempty]
          exact (attemptsIn_drainPool _ _).trans hnil
  | store =>
      simp only [Act.exec]
      split
      · exact hnil
      · exact hnil

/-! ## What a program can spend -/

/-- A program that takes at most `n` actions and looks, whatever they come to, and whose
attempts to connect are in `L` whenever it is stopped. -/
def Prog.Spends : Prog → ℕ → (List Attempt → Prop) → Prop
  | done, _, L => L []
  | act a next, n, L => L [] ∧ 0 < n ∧
      ∀ b, (next b).Spends (n - 1) fun l => L (a.attempt?.toList ++ l)
  | look next, n, L => L [] ∧ 0 < n ∧ ∀ config, (next config).Spends (n - 1) L

theorem Prog.Spends.nil {prog : Prog} {n : ℕ} {L : List Attempt → Prop} (h : prog.Spends n L) :
    L [] := by
  cases prog with
  | done => exact h
  | act a next => exact h.1
  | look next => exact h.1

theorem Prog.Spends.mono {prog : Prog} {n m : ℕ} {L L' : List Attempt → Prop}
    (h : prog.Spends n L) (hle : n ≤ m) (hL : ∀ l, L l → L' l) : prog.Spends m L' := by
  induction prog generalizing n m L L' with
  | done => exact hL [] h
  | act a next ih =>
      obtain ⟨hnil, hpos, hnext⟩ := h
      exact ⟨hL [] hnil, by omega, fun b => ih b (hnext b) (by omega) fun l => hL _⟩
  | look next ih =>
      obtain ⟨hnil, hpos, hnext⟩ := h
      exact ⟨hL [] hnil, by omega, fun config => ih config (hnext config) (by omega) hL⟩

/-- No attempt any more. -/
def NoAttempt (l : List Attempt) : Prop := l = []

section

variable {n k : ℕ} {L : List Attempt → Prop} {found next : Prog}

/-- An action that is no attempt. -/
theorem spends_act {a : Act} (ha : a.attempt? = none) {next : Bool → Prog}
    (hnext : ∀ b, (next b).Spends n L) : (Prog.act a next).Spends (n + 1) L := by
  refine ⟨(hnext true).nil, Nat.succ_pos n, fun b => ?_⟩
  rw [ha]
  exact hnext b

theorem spends_look {next : Config → Prog} (hnext : ∀ config, (next config).Spends n L)
    (hnil : L []) : (Prog.look next).Spends (n + 1) L :=
  ⟨hnil, Nat.succ_pos n, hnext⟩

theorem spends_ite {c : Prop} [Decidable c] {prog prog' : Prog} (h : prog.Spends n L)
    (h' : prog'.Spends n L) : (if c then prog else prog').Spends n L := by
  split
  · exact h
  · exact h'

/-- A program that has found its srun makes no attempt. -/
theorem spends_found (hfound : found.Spends k NoAttempt) (hle : k ≤ n) (hnil : L []) :
    found.Spends n L :=
  hfound.mono hle fun l hl => by rw [show l = [] from hl]; exact hnil

theorem spends_reuse (hfound : found.Spends k NoAttempt) (hle : k ≤ n) {i : ℕ} {t : UInt32}
    (hnext : next.Spends n L) :
    (Prog.act (.reuse i t) fun reused => if reused then found else next).Spends (n + 1) L :=
  spends_act rfl fun _ => spends_ite (spends_found hfound hle hnext.nil) hnext

theorem spends_dial (hfound : found.Spends k NoAttempt) (hle : k + 1 ≤ n) {i : ℕ} {wait : Bool}
    {t : UInt32} (hnext : next.Spends n fun l => L ((i, wait) :: l)) (hnil : L []) :
    (Prog.act (.dial i wait) fun opened =>
      if opened then .act (.use i t) fun _ => found else next).Spends (n + 1) L := by
  refine ⟨hnil, Nat.succ_pos n, fun b => spends_ite ?_ hnext⟩
  exact spends_found (spends_act rfl fun _ => hfound) hle hnext.nil

end

/-- A pass that takes at most `c` steps for each srun. -/
theorem spends_passProg {one : ℕ → Prog → Prog} {missed : Prog} {c k : ℕ}
    {L : List ℕ → List Attempt → Prop}
    (hone : ∀ i rest next n, k ≤ n → next.Spends n (L rest) →
      (one i next).Spends (n + c) (L (i :: rest)))
    (hmissed : missed.Spends k (L [])) (order : List ℕ) :
    (passProg one missed order).Spends (k + c * order.length) (L order) := by
  induction order with
  | nil => exact hmissed.mono (by simp) fun _ h => h
  | cons i order ih =>
      refine (hone i order _ _ (Nat.le_add_right _ _) ih).mono (le_of_eq ?_) fun _ h => h
      rw [List.length_cons, Nat.mul_succ, Nat.add_assoc]

/-- Blocking attempts to the sruns at the front of a list. -/
def WaitsAlong (order : List ℕ) (l : List Attempt) : Prop :=
  ∃ waited : List ℕ, waited <+: order ∧ l = waited.map (·, true)

/-- Timed attempts to some sruns of a list, in its order, and then blocking ones to the
sruns at the front of another. -/
def TriesAlong (order rest : List ℕ) (l : List Attempt) : Prop :=
  ∃ timed waited : List ℕ, timed.Sublist rest ∧ waited <+: order ∧
    l = timed.map (·, false) ++ waited.map (·, true)

theorem nodup_attempts {is : List ℕ} (h : is.Nodup) (wait : Bool) : (is.map (·, wait)).Nodup :=
  h.map fun _ _ heq => congrArg Prod.fst heq

theorem TriesAlong.nodup {order rest : List ℕ} {l : List Attempt} (h : TriesAlong order rest l)
    (horder : order.Nodup) (hrest : rest.Nodup) : l.Nodup := by
  obtain ⟨timed, waited, hsub, hfront, rfl⟩ := h
  refine List.nodup_append'.mpr ⟨nodup_attempts (hrest.sublist hsub) false,
    nodup_attempts (horder.sublist hfront.sublist) true, fun attempt htimed hwaited => ?_⟩
  obtain ⟨i, -, rfl⟩ := List.mem_map.mp htimed
  obtain ⟨j, -, heq⟩ := List.mem_map.mp hwaited
  cases heq

theorem WaitsAlong.nodup {order : List ℕ} {l : List Attempt} (h : WaitsAlong order l)
    (horder : order.Nodup) : l.Nodup := by
  obtain ⟨waited, hfront, rfl⟩ := h
  exact nodup_attempts (horder.sublist hfront.sublist) true

theorem spends_openProg {found missed : Prog} {k : ℕ} (hfound : found.Spends k NoAttempt)
    (hmissed : missed.Spends k NoAttempt) (sessionIndex : ℤ) (t : UInt32) (order : List ℕ) :
    (openProg sessionIndex t order found missed).Spends (9 * order.length + k + 1)
      (TriesAlong order order) := by
  have hwait : ∀ rest, WaitsAlong rest [] := fun rest => ⟨[], List.nil_prefix, rfl⟩
  have hlast : (passProg (tryAnyProg t found) missed order).Spends (k + 1 + 3 * order.length)
      (WaitsAlong order) := by
    refine spends_passProg (fun i rest next n hn hnext => ?_) ?_ order
    · refine spends_reuse hfound (by omega) (spends_dial hfound (by omega) ?_ (hwait _))
      refine spends_act rfl fun _ => hnext.mono (Nat.le_refl n) fun l hl => ?_
      obtain ⟨waited, hfront, rfl⟩ := hl
      exact ⟨i :: waited, List.cons_prefix_cons.mpr ⟨rfl, hfront⟩, rfl⟩
    · exact spends_found hmissed (Nat.le_succ k) (hwait [])
  have htry : ∀ rest, TriesAlong order rest [] := fun rest =>
    ⟨[], [], List.nil_sublist _, List.nil_prefix, rfl⟩
  have hlive : (passProg (tryLiveProg sessionIndex t found)
      (passProg (tryAnyProg t found) missed order) order).Spends
      (k + 1 + 3 * order.length + 4 * order.length) (TriesAlong order order) := by
    refine spends_passProg (fun i rest next n hn hnext => ?_) ?_ order
    · have hpassed : next.Spends n (TriesAlong order (i :: rest)) := by
        refine hnext.mono (Nat.le_refl n) fun l hl => ?_
        obtain ⟨timed, waited, hsub, hfront, rfl⟩ := hl
        exact ⟨timed, waited, hsub.cons i, hfront, rfl⟩
      have htried : next.Spends n fun l => TriesAlong order (i :: rest) ((i, false) :: l) := by
        refine hnext.mono (Nat.le_refl n) fun l hl => ?_
        obtain ⟨timed, waited, hsub, hfront, rfl⟩ := hl
        exact ⟨i :: timed, waited, hsub.cons_cons i, hfront, rfl⟩
      refine spends_look (fun config => spends_ite
        (hpassed.mono (Nat.le_add_right n 3) fun _ h => h) ?_) (htry _)
      refine spends_reuse hfound (by omega) (spends_look (fun config => spends_ite
        (hpassed.mono (Nat.le_add_right n 1) fun _ h => h) ?_) (htry _))
      exact spends_dial hfound (by omega) htried (htry _)
    · refine hlast.mono (Nat.le_refl _) fun l hl => ?_
      obtain ⟨waited, hfront, rfl⟩ := hl
      exact ⟨[], waited, List.nil_sublist _, hfront, rfl⟩
  unfold openProg
  simp only
  refine spends_ite ?_ (hlive.mono (by omega) fun _ h => h)
  refine (spends_passProg (L := fun _ => TriesAlong order order) (c := 2)
    (fun i rest next n hn hnext => ?_) hlive order).mono (by omega) fun _ h => h
  refine spends_look (fun config => spends_ite (hnext.mono (Nat.le_succ n) fun _ h => h) ?_)
    (htry _)
  exact spends_reuse hfound (by omega) hnext

theorem spends_done : Prog.done.Spends 0 NoAttempt := rfl

theorem spends_recycleProg {next : Prog} {n : ℕ} {L : List Attempt → Prop}
    (hnext : next.Spends n L) : (recycleProg next).Spends (n + 4) L := by
  have hgoodbye : (Prog.act (.op (.write (header cseCloseCode 0))) fun _ =>
      .act (.op (.write [])) fun _ => .act (.op .close) fun _ => next).Spends (n + 3) L :=
    spends_act rfl fun _ => spends_act rfl fun _ => spends_act rfl fun _ => hnext
  exact spends_act rfl fun _ => spends_ite (hnext.mono (Nat.le_add_right n 3) fun _ h => h) hgoodbye

theorem spends_opsProg {next : Prog} {n : ℕ} {L : List Attempt → Prop} (hnext : next.Spends n L)
    (ops : List StreamOp) : (opsProg next ops).Spends (n + ops.length) L := by
  induction ops with
  | nil => exact hnext
  | cons op ops ih => exact spends_act rfl fun _ => ih

namespace Job

/-- The most actions and looks that a job takes. -/
def effort : Job → ℕ
  | request _ _ order ops _ => 9 * order.length + ops.length + 6
  | status sruns => 5 * sruns.length

/-- The attempts to connect that a job may have made at any time. -/
def Attempts : Job → List Attempt → Prop
  | request _ _ order _ _, l => TriesAlong order order l
  | status sruns, l => WaitsAlong sruns l

/-- The sruns that a job goes over. -/
def sruns : Job → List ℕ
  | request _ _ order _ _ => order
  | status sruns => sruns

theorem Attempts.nodup {job : Job} {l : List Attempt} (h : job.Attempts l)
    (hsruns : job.sruns.Nodup) : l.Nodup := by
  cases job with
  | request sessionIndex t order ops reuse => exact TriesAlong.nodup h hsruns hsruns
  | status sruns => exact WaitsAlong.nodup h hsruns

theorem spends (job : Job) : job.prog.Spends job.effort job.Attempts := by
  cases job with
  | request sessionIndex t order ops reuse =>
      have hend : (if reuse then recycleProg .done else .act (.op .close) fun _ => .done).Spends 4
          NoAttempt :=
        spends_ite (spends_recycleProg spends_done)
          (spends_act rfl fun _ => spends_done.mono (Nat.zero_le 3) fun _ h => h)
      have hfound := spends_opsProg hend ops
      refine (spends_act rfl fun _ => spends_openProg hfound (spends_done.mono (Nat.zero_le _)
        fun _ h => h) sessionIndex t order).mono ?_ fun _ h => h
      simp only [effort]
      omega
  | status sruns =>
      change (statusProg sruns).Spends (5 * sruns.length) (WaitsAlong sruns)
      induction sruns with
      | nil => exact ⟨[], List.nil_prefix, rfl⟩
      | cons i sruns ih =>
          refine ⟨⟨[], List.nil_prefix, rfl⟩, by simp, fun b => ?_⟩
          refine (spends_recycleProg ih).mono (by simp; omega) fun l hl => ?_
          obtain ⟨waited, hfront, rfl⟩ := hl
          exact ⟨i :: waited, List.cons_prefix_cons.mpr ⟨rfl, hfront⟩, rfl⟩

end Job

/-! ## What a thread spends in a run -/

/-- A step of a run: who made it, with which system calls. -/
abbrev Turn := Option ℕ × List SysCall

/-- The worlds that come of a world, with the steps that were made. -/
inductive World.Turns (start : World) : List Turn → World → Prop
  | nil : Turns start [] start
  | snoc {w w' : World} {turns : List Turn} {actor : Option ℕ} {made : List SysCall}
      (h : Turns start turns w) (step : w.Step actor made w') :
      Turns start (turns ++ [(actor, made)]) w'

/-- The steps of a thread. -/
def turnsOf (t : ℕ) (turns : List Turn) : List Turn := turns.filter fun turn => turn.1 = some t

/-- The attempts to connect that a thread has made. -/
def attemptsOf (t : ℕ) (turns : List Turn) : List Attempt :=
  (turnsOf t turns).flatMap fun turn => attemptsIn turn.2

theorem spends_step {w w' : World} {actor : Option ℕ} {made : List SysCall} {t n : ℕ}
    {L : List Attempt → Prop} (h : (w.progs t).Spends n L) (hstep : w.Step actor made w') :
    (turnsOf t [(actor, made)]).length ≤ n ∧
      (w'.progs t).Spends (n - (turnsOf t [(actor, made)]).length)
        fun l => L (attemptsOf t [(actor, made)] ++ l) := by
  have hother {actor : Option ℕ} {made : List SysCall} (hne : actor ≠ some t) :
      turnsOf t [(actor, made)] = [] := by
    simp [turnsOf, hne]
  have hself {made : List SysCall} : turnsOf t [(some t, made)] = [(some t, made)] := by
    simp [turnsOf]
  cases hstep with
  | @act t' a next dial recvs sends prog fresh =>
      by_cases ht : t' = t
      · subst ht
        rw [prog] at h
        obtain ⟨-, hpos, hnext⟩ := h
        have hmade := attemptsIn_exec dial a (show (w.child t' recvs sends).os.trace = [] from rfl)
        simp only [attemptsOf, hself, List.flatMap_singleton, hmade, World.put,
          Function.update_self]
        exact ⟨hpos, hnext _⟩
      · simp only [attemptsOf, hother fun heq => ht (Option.some.inj heq), World.put,
          Function.update_of_ne (Ne.symm ht)]
        exact ⟨Nat.zero_le n, h⟩
  | @look t' next prog =>
      by_cases ht : t' = t
      · subst ht
        rw [prog] at h
        obtain ⟨-, hpos, hnext⟩ := h
        simp only [attemptsOf, hself, List.flatMap_singleton, Function.update_self]
        exact ⟨hpos, hnext _⟩
      · simp only [attemptsOf, hother fun heq => ht (Option.some.inj heq),
          Function.update_of_ne (Ne.symm ht)]
        exact ⟨Nat.zero_le n, h⟩
  | closeChild sends =>
      simp only [attemptsOf, hother (Option.some_ne_none t).symm]
      exact ⟨Nat.zero_le n, h⟩

theorem spends_turns {start w : World} {turns : List Turn} (h : start.Turns turns w) {t n : ℕ}
    {L : List Attempt → Prop} (hspends : (start.progs t).Spends n L) :
    (turnsOf t turns).length ≤ n ∧
      (w.progs t).Spends (n - (turnsOf t turns).length) fun l => L (attemptsOf t turns ++ l) := by
  induction h with
  | nil => exact ⟨Nat.zero_le n, hspends⟩
  | @snoc w w' turns actor made h hstep ih =>
      obtain ⟨hle, hrest⟩ := ih
      obtain ⟨hle', hrest'⟩ := spends_step hrest hstep
      have hturns : turnsOf t (turns ++ [(actor, made)]) =
          turnsOf t turns ++ turnsOf t [(actor, made)] := List.filter_append ..
      rw [attemptsOf, hturns, List.length_append, List.flatMap_append, ← Nat.sub_sub]
      refine ⟨by omega, hrest'.mono (Nat.le_refl _) fun l hl => ?_⟩
      rw [List.append_assoc]
      exact hl

/-- However the threads take turns, a request or a status page is done after a number of
its own steps that the others have no influence on, and its attempts to connect are timed
ones in its probe order and then blocking ones from the front of that order. An srun that is
probed once gets at most one attempt of each kind. -/
theorem job_effort {start w : World} {turns : List Turn} (h : start.Turns turns w) {t : ℕ}
    {job : Job} (hjob : start.progs t = job.prog) :
    (turnsOf t turns).length ≤ job.effort ∧ job.Attempts (attemptsOf t turns) ∧
      (job.sruns.Nodup → (attemptsOf t turns).Nodup) := by
  have hspends := job.spends
  rw [← hjob] at hspends
  obtain ⟨hle, hrest⟩ := spends_turns h hspends
  have hnil := hrest.nil
  rw [List.append_nil] at hnil
  exact ⟨hle, hnil, hnil.nodup⟩

theorem turns_advance {times : ℕ → UInt32} {C : Aged → ℕ → Act → Prop} {a : Aged} {t fd : ℕ}
    (hallows : a.Allows C t fd) {start : World} {turns : List Turn}
    (h : start.Turns turns a.world) :
    ∃ turns', start.Turns turns' (a.advance times t fd).world := by
  unfold Aged.Allows at hallows
  unfold Aged.advance
  cases hprog : a.world.progs t with
  | done => exact ⟨turns, h⟩
  | act act next =>
      rw [hprog] at hallows
      exact ⟨_, .snoc h (.act (fun _ _ => .connected fd) [] [] hprog hallows.2)⟩
  | look next => exact ⟨_, .snoc h (.look hprog)⟩

theorem turns_perform {times : ℕ → UInt32} {C : Aged → ℕ → Act → Prop} {a : Aged}
    {steps : List (ℕ × ℕ)} (hallows : a.AllowsAll C times steps) {start : World}
    {turns : List Turn} (h : start.Turns turns a.world) :
    ∃ turns', start.Turns turns' (a.perform times steps).world := by
  induction steps generalizing a turns with
  | nil => exact ⟨turns, h⟩
  | cons step steps ih =>
      obtain ⟨turns', h'⟩ := turns_advance hallows.1 h
      exact ih hallows.2 h'

/-- The three requests to one srun, after some turns. -/
theorem job_effort_overlapped :
    ∃ turns, (launched staggered).world.Turns turns overlappedAged.world ∧
      (turnsOf 1 turns).length ≤ (Job.request 0 110 [0] [] true).effort ∧
        (Job.request 0 110 [0] [] true).Attempts (attemptsOf 1 turns) ∧
        ((Job.request 0 110 [0] [] true).sruns.Nodup → (attemptsOf 1 turns).Nodup) := by
  have hallows : (launched staggered).AllowsAll (fun _ _ _ => True) staggeredTimes
      (List.replicate 6 (0, 3) ++ List.replicate 6 (1, 4) ++
        (0, 3) :: List.replicate 2 (2, 5)) := by decide
  obtain ⟨turns, h⟩ := turns_perform hallows .nil
  exact ⟨turns, h, job_effort h rfl⟩

end ModCaucho
