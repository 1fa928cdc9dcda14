import ModCaucho.Balance.Basic

/-!
# The three tests are local

Each pass looks at one srun at a time, and what it decides and changes there
depends on that srun alone. The view of an srun is its entry in the table with
the attempts to connect to it that the trace records. In this form the tests are
local in the sense of `Scan.Local`.
-/

namespace ModCaucho

open Scan

/-! ## What a pass asks of an srun -/

/-- `last_time` after the correction that `cse_reuse_socket` makes. -/
def Srun.settle (t : UInt32) (srun : Srun) : Srun :=
  if t < srun.lastTime then { srun with lastTime := t } else srun

/-- `cse_reuse_socket` finds a socket that was used recently. -/
def Srun.Usable (t : UInt32) (srun : Srun) : Prop :=
  0 < srun.sockets.length ∧ t ≤ (srun.settle t).lastTime + UInt32.ofNat srun.liveTime

/-- The second pass takes the srun for dead. -/
def Srun.Dead (t : UInt32) (srun : Srun) : Prop :=
  srun.isDead = true ∧ t ≤ (srun.settle t).lastTime + UInt32.ofNat srun.deadTime

instance (t : UInt32) (srun : Srun) : Decidable (srun.Usable t) :=
  inferInstanceAs (Decidable (_ ∧ _))

instance (t : UInt32) (srun : Srun) : Decidable (srun.Dead t) :=
  inferInstanceAs (Decidable (_ ∧ _))

/-- The srun after `cse_reuse_socket` has given up its pool. -/
def Srun.drained (t : UInt32) (srun : Srun) : Srun := { srun.settle t with sockets := [] }

/-- The srun after `cse_open` has set its port. -/
def Srun.ported (srun : Srun) : Srun :=
  if srun.port ≤ 0 then { srun with port := defaultPort } else srun

/-- The attempts to connect to an srun that a trace records, with their `wait`
flags. -/
def attempts (i : ℕ) : List SysCall → List (Bool × ConnectResult)
  | [] => []
  | .connect j wait result :: trace =>
      if j = i then (wait, result) :: attempts i trace else attempts i trace
  | _ :: trace => attempts i trace

/-- What a pass can see and change of one srun. -/
abbrev SrunView := Option Srun × List (Bool × ConnectResult)

/-- The entry of an srun and the attempts to connect to it. -/
def Child.view (p : Child) (i : ℕ) : SrunView :=
  (p.config.srunList[i]?, attempts i p.os.trace)

/-- The entry of a view, as `Config.srun` reads it. -/
def SrunView.srun (v : SrunView) : Srun := v.1.getD .zero

theorem view_srun (p : Child) (i : ℕ) : (p.view i).srun = p.config.srun i := by
  simp [Child.view, SrunView.srun, Config.srun, List.getD_eq_getElem?_getD]

/-! ## Small steps on a view -/

@[simp] theorem settle_sockets (t : UInt32) (srun : Srun) :
    (srun.settle t).sockets = srun.sockets := by
  unfold Srun.settle
  split <;> rfl

@[simp] theorem settle_liveTime (t : UInt32) (srun : Srun) :
    (srun.settle t).liveTime = srun.liveTime := by
  unfold Srun.settle
  split <;> rfl

@[simp] theorem settle_deadTime (t : UInt32) (srun : Srun) :
    (srun.settle t).deadTime = srun.deadTime := by
  unfold Srun.settle
  split <;> rfl

@[simp] theorem settle_isDead (t : UInt32) (srun : Srun) :
    (srun.settle t).isDead = srun.isDead := by
  unfold Srun.settle
  split <;> rfl

@[simp] theorem settle_isBackup (t : UInt32) (srun : Srun) :
    (srun.settle t).isBackup = srun.isBackup := by
  unfold Srun.settle
  split <;> rfl

theorem settle_of_le {t : UInt32} {srun : Srun} (h : srun.lastTime ≤ t) :
    srun.settle t = srun := by
  rw [Srun.settle, if_neg (UInt32.not_lt.mpr h)]

theorem settle_le (t : UInt32) (srun : Srun) : (srun.settle t).lastTime ≤ t := by
  unfold Srun.settle
  split
  · exact UInt32.le_refl t
  · next h => exact UInt32.not_lt.mp h

@[simp] theorem settle_drained (t : UInt32) (srun : Srun) :
    (srun.drained t).settle t = srun.drained t :=
  settle_of_le (settle_le t srun)

theorem drained_of_nil {t : UInt32} {srun : Srun} (h : srun.sockets = []) :
    srun.drained t = srun.settle t := by
  cases srun
  subst h
  unfold Srun.drained Srun.settle
  split <;> rfl

/-- Giving up the pool does not change whether the srun counts as dead. -/
theorem dead_drained (t : UInt32) (srun : Srun) : (srun.drained t).Dead t ↔ srun.Dead t := by
  simp only [Srun.Dead, settle_drained]
  simp [Srun.drained]

theorem not_usable_drained (t : UInt32) (srun : Srun) : ¬ (srun.drained t).Usable t := by
  simp [Srun.Usable, Srun.drained]

theorem attempts_append (i : ℕ) (t t' : List SysCall) :
    attempts i (t ++ t') = attempts i t ++ attempts i t' := by
  induction t with
  | nil => rfl
  | cons call t ih =>
      cases call with
      | send fd bytes => simpa [attempts] using ih
      | close fd => simpa [attempts] using ih
      | connect j wait result => by_cases h : j = i <;> simp [attempts, h, ih]

theorem attempts_connectSocket (i : ℕ) (result : ConnectResult) (os : Os) :
    attempts i (connectSocket result os).2.trace = attempts i os.trace := by
  cases result <;> simp [connectSocket, Os.close, attempts_append, attempts]

theorem attempts_drainPool (i : ℕ) (sockets : List ℕ) (os : Os) :
    attempts i (drainPool sockets os).trace = attempts i os.trace := by
  induction sockets generalizing os with
  | nil => rfl
  | cons socket sockets ih =>
      rw [drainPool, ih]
      simp only [Os.close, attempts_append, attempts, List.append_nil]
      unfold Os.send
      split
      · rfl
      · split <;> simp [attempts_append, attempts]

@[simp] theorem srunList_modifySrun (config : Config) (i j : ℕ) (f : Srun → Srun) :
    (config.modifySrun i f).srunList[j]? =
      if i = j then config.srunList[j]?.map f else config.srunList[j]? := by
  simp only [Config.modifySrun, List.getElem?_modify]
  split <;> simp

theorem srun_modifySrun {f : Srun → Srun} (hf : f .zero = .zero) (config : Config) (i : ℕ) :
    (config.modifySrun i f).srun i = f (config.srun i) := by
  simp only [Config.srun, List.getD_eq_getElem?_getD, srunList_modifySrun, if_true]
  cases config.srunList[i]? with
  | none => exact hf.symm
  | some srun => rfl

/-! ## `cse_reuse_socket` -/

/-- The child after the correction of `last_time`. -/
def Child.settle (p : Child) (i : ℕ) (t : UInt32) : Child :=
  { p with config := p.config.modifySrun i (Srun.settle t) }

theorem srun_settle (p : Child) (i : ℕ) (t : UInt32) :
    (p.settle i t).config.srun i = (p.config.srun i).settle t :=
  srun_modifySrun (settle_of_le (UInt32.zero_le)) p.config i

/-- The child after `cse_reuse_socket` has emptied the pool. -/
def Child.emptyPool (p : Child) (i : ℕ) : Child :=
  { p with
    config := p.config.modifySrun i fun srun => { srun with sockets := [] }
    os := drainPool (p.config.srun i).sockets p.os }

theorem cseReuseSocket_eq (i : ℕ) (t : UInt32) (p : Child) :
    cseReuseSocket i t p =
      if 0 < ((p.settle i t).config.srun i).sockets.length ∧
          t ≤ ((p.settle i t).config.srun i).lastTime +
            UInt32.ofNat ((p.settle i t).config.srun i).liveTime then
        (true, cseReuse i t (p.settle i t))
      else if 0 < ((p.settle i t).config.srun i).sockets.length then
        (false, (p.settle i t).emptyPool i)
      else (false, p.settle i t) := rfl

theorem cseReuseSocket_of_usable {i : ℕ} {t : UInt32} {p : Child}
    (h : (p.config.srun i).Usable t) :
    cseReuseSocket i t p = (true, cseReuse i t (p.settle i t)) := by
  unfold Srun.Usable at h
  rw [cseReuseSocket_eq, srun_settle, settle_sockets, settle_liveTime, if_pos h]

theorem cseReuseSocket_of_not_usable {i : ℕ} {t : UInt32} {p : Child}
    (h : ¬ (p.config.srun i).Usable t) :
    cseReuseSocket i t p =
      (false, if (p.config.srun i).sockets = [] then p.settle i t
        else (p.settle i t).emptyPool i) := by
  unfold Srun.Usable at h
  rw [cseReuseSocket_eq, srun_settle, settle_sockets, settle_liveTime, if_neg h]
  by_cases hnil : (p.config.srun i).sockets = []
  · rw [if_neg (by simp [hnil]), if_pos hnil]
  · rw [if_pos (List.length_pos_iff.mpr hnil), if_neg hnil]

theorem cseReuseSocket_fst (i : ℕ) (t : UInt32) (p : Child) :
    (cseReuseSocket i t p).1 = true ↔ (p.config.srun i).Usable t := by
  by_cases h : (p.config.srun i).Usable t
  · simp [cseReuseSocket_of_usable h, h]
  · simp [cseReuseSocket_of_not_usable h, h]

theorem cseReuseSocket_view {i : ℕ} {t : UInt32} {p : Child}
    (h : ¬ (p.config.srun i).Usable t) :
    (cseReuseSocket i t p).2.view i = ((p.view i).1.map (Srun.drained t), (p.view i).2) := by
  rw [cseReuseSocket_of_not_usable h]
  by_cases hnil : (p.config.srun i).sockets = []
  · simp only [if_pos hnil, Child.view, Child.settle, srunList_modifySrun, if_true]
    rw [Config.srun, List.getD_eq_getElem?_getD] at hnil
    cases hentry : p.config.srunList[i]? with
    | none => rfl
    | some srun =>
        rw [hentry, Option.getD_some] at hnil
        simp [drained_of_nil hnil]
  · simp only [if_neg hnil, Child.view, Child.emptyPool, Child.settle, srunList_modifySrun,
      if_true, Option.map_map, attempts_drainPool]
    rfl

theorem cseReuseSocket_frame {i j : ℕ} (hne : j ≠ i) (t : UInt32) (p : Child) :
    (cseReuseSocket i t p).2.view j = p.view j := by
  by_cases h : (p.config.srun i).Usable t
  · simp [cseReuseSocket_of_usable h, cseReuse, Child.view, Child.settle, hne.symm]
  · rw [cseReuseSocket_of_not_usable h]
    by_cases hnil : (p.config.srun i).sockets = []
    · simp [if_pos hnil, Child.view, Child.settle, hne.symm]
    · simp [if_neg hnil, Child.view, Child.emptyPool, Child.settle, hne.symm,
        attempts_drainPool]

end ModCaucho
