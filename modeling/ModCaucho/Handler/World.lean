import Mathlib.Logic.Function.Basic
import ModCaucho.Handler.Program
import ModCaucho.Stream.Partial

/-!
# Overlapping requests

Any number of threads share the table of sruns and the descriptors of the process. Each
runs a request or a status page, and they take turns action by action. The system calls
of an action have any results, except that the system only hands out descriptors that are
not open.
-/

namespace ModCaucho

open Framing

/-- The descriptor that a system call opens. -/
def SysCall.opens : SysCall → Option ℕ
  | .connect _ _ (.connected fd) => some fd
  | .connect _ _ (.refused fd) => some fd
  | _ => none

/-- The descriptors that are open after a system call. -/
def SysCall.after (opened : List ℕ) : SysCall → List ℕ
  | .connect _ _ (.connected fd) => fd :: opened
  | .connect _ _ (.refused fd) => fd :: opened
  | .close fd => opened.filter fun d => (d : ℤ) ≠ fd
  | _ => opened

def openAfter (opened : List ℕ) (calls : List SysCall) : List ℕ := calls.foldl SysCall.after opened

/-- The threads with their streams, the table that they share, and the descriptors that
the plugin has opened and not closed. -/
structure World where
  config : Config
  streams : ℕ → Stream
  progs : ℕ → Prog
  opened : List ℕ

namespace World

/-- What an action of a thread works on. `recvs` and `sends` are the results of its
system calls. -/
def child (w : World) (t : ℕ) (recvs : List RecvResult) (sends : List SendResult) : Child :=
  ⟨w.config, w.streams t, ⟨recvs, sends, [], []⟩, 0⟩

/-- The world after an action of a thread. -/
def put (w : World) (t : ℕ) (p : Child) (next : Prog) : World where
  config := p.config
  streams := Function.update w.streams t p.stream
  progs := Function.update w.progs t next
  opened := openAfter w.opened p.os.trace

/-- The world after the child has closed its pools. -/
def closed (w : World) (p : Child) : World :=
  { w with config := p.config, opened := openAfter w.opened p.os.trace }

/-- What `cse_close_child` works on. It has no stream. -/
def closing (w : World) (sends : List SendResult) : Child :=
  ⟨w.config, ⟨none, 0, -1, [], 0, 0, []⟩, ⟨[], sends, [], []⟩, 0⟩

/-- A step of a thread, or of the child that ends, with the system calls that it makes. -/
inductive Step (w : World) : Option ℕ → List SysCall → World → Prop
  | act {t : ℕ} {a : Act} {next : Bool → Prog} (dial : Dial) (recvs : List RecvResult)
      (sends : List SendResult) (prog : w.progs t = .act a next)
      (fresh : ∀ call ∈ (a.exec dial (w.child t recvs sends)).2.os.trace, ∀ fd,
        call.opens = some fd → fd ∉ w.opened) :
      Step w (some t) (a.exec dial (w.child t recvs sends)).2.os.trace
        (w.put t (a.exec dial (w.child t recvs sends)).2
          (next (a.exec dial (w.child t recvs sends)).1))
  | look {t : ℕ} {next : Config → Prog} (prog : w.progs t = .look next) :
      Step w (some t) [] { w with progs := Function.update w.progs t (next w.config) }
  | closeChild (sends : List SendResult) :
      Step w none (cseCloseChild (w.closing sends)).os.trace
        (w.closed (cseCloseChild (w.closing sends)))

end World

/-- What a thread may be there for. -/
inductive Job
  | request (sessionIndex : ℤ) (requestTime : UInt32) (order : List ℕ) (ops : List StreamOp)
      (reuse : Bool)
  | status (sruns : List ℕ)

def Job.prog : Job → Prog
  | request sessionIndex t order ops reuse => requestProg sessionIndex t order ops reuse
  | status sruns => statusProg sruns

/-- The world when the child starts. A stream has no socket before it is opened. -/
structure World.Fresh (w : World) : Prop where
  opened : w.opened = []
  pools : ∀ srun ∈ w.config.srunList, srun.sockets = [] ∧ srun.maxSockets ≤ 1024
  streams : ∀ t, (w.streams t).socket = -1
  progs : ∀ t, w.progs t = .done ∨ ∃ job : Job, w.progs t = job.prog

/-- The worlds that come of a fresh one. -/
inductive World.Reachable : World → Prop
  | fresh {w : World} (h : w.Fresh) : Reachable w
  | step {w w' : World} {actor : Option ℕ} {calls : List SysCall} (h : Reachable w)
      (step : w.Step actor calls w') : Reachable w'

/-- `cse_open_child` at one index after the other. -/
theorem openChild_entries (is : List ℕ) (p : Child) (j : ℕ) (srun : Srun)
    (h : (is.foldl (fun p i => { p with config := p.config.modifySrun i fun srun =>
      { srun with sockets := [], maxSockets := 32, isDead := false, lastTime := 0 } })
      p).config.srunList[j]? = some srun) :
    srun.sockets = [] ∧ srun.maxSockets = 32 ∨ j ∉ is ∧ p.config.srunList[j]? = some srun := by
  induction is generalizing p with
  | nil => exact Or.inr ⟨by simp, h⟩
  | cons i is ih =>
      rcases ih _ h with hdone | ⟨hj, hentry⟩
      · exact Or.inl hdone
      · rw [srunList_modifySrun] at hentry
        split at hentry
        · cases hold : p.config.srunList[j]? with
          | none =>
              rw [hold] at hentry
              cases hentry
          | some old =>
              rw [hold] at hentry
              cases hentry
              exact Or.inl ⟨rfl, rfl⟩
        · next hij => exact Or.inr ⟨by simp [hj, Ne.symm hij], hentry⟩

/-- The pools are empty when the child starts, if those behind the table were never used. -/
theorem openChild_pools (p : Child)
    (h : ∀ srun ∈ p.config.srunList.drop p.config.srunSize,
      srun.sockets = [] ∧ srun.maxSockets ≤ 1024) :
    ∀ srun ∈ (cseOpenChild p).config.srunList, srun.sockets = [] ∧ srun.maxSockets ≤ 1024 := by
  intro srun hmem
  obtain ⟨j, hj⟩ := List.mem_iff_getElem?.mp hmem
  rcases openChild_entries _ p j srun hj with ⟨hpool, hmax⟩ | ⟨hbehind, hentry⟩
  · exact ⟨hpool, by omega⟩
  · rw [List.mem_range, Nat.not_lt] at hbehind
    refine h srun (List.mem_iff_getElem?.mpr ⟨j - p.config.srunSize, ?_⟩)
    rw [List.getElem?_drop, Nat.add_sub_cancel' hbehind]
    exact hentry

/-! ## Where an action may be -/

/-- An action that makes a stream does not find one that has a socket. -/
def Act.Guard : Act → Stream → Prop
  | clear, s => s.socket < 0
  | reuse _ _, s => s.socket < 0
  | .dial _ _, s => s.socket < 0
  | _, _ => True

/-- A program that never forgets a socket: it opens none while it has one, and when it is
done it has none. -/
def Prog.Safe : Prog → Stream → Prop
  | done, s => s.socket < 0
  | act a next, s => a.Guard s ∧
      ∀ (dial : Dial) (p : Child), p.stream = s →
        (next (a.exec dial p).1).Safe (a.exec dial p).2.stream
  | look next, s => ∀ config, (next config).Safe s

theorem cseReuseSocket_stream (i : ℕ) (t : UInt32) {p : Child}
    (h : (cseReuseSocket i t p).1 = false) : (cseReuseSocket i t p).2.stream = p.stream := by
  have hu : ¬ (p.config.srun i).Usable t := by
    rw [← cseReuseSocket_fst, h]
    exact Bool.false_ne_true
  rw [cseReuseSocket_of_not_usable hu]
  simp only
  split <;> rfl

theorem cseOpen_missed (dial : Dial) (i : ℕ) (wait : Bool) {p : Child}
    (h : (cseOpen dial i wait p).1 = false) : (cseOpen dial i wait p).2.stream.socket < 0 := by
  rw [cseOpen_eq] at h ⊢
  exact Int.not_le.mp (of_decide_eq_false h)

/-- A program that is safe whatever its stream is. -/
def Prog.SafeAny (prog : Prog) : Prop := ∀ s, prog.Safe s

/-- A program that is safe without a socket. -/
def Prog.SafeIdle (prog : Prog) : Prop := ∀ s : Stream, s.socket < 0 → prog.Safe s

theorem safe_reuse {i : ℕ} {t : UInt32} {found next : Prog} (hfound : found.SafeAny)
    (hnext : next.SafeIdle) :
    (Prog.act (.reuse i t) fun reused => if reused then found else next).SafeIdle := by
  intro s hs
  refine ⟨hs, fun dial p hp => ?_⟩
  change (if (cseReuseSocket i t p).1 = true then found else next).Safe
    (cseReuseSocket i t p).2.stream
  split
  · exact hfound _
  · next hmissed =>
      rw [cseReuseSocket_stream i t (Bool.eq_false_iff.mpr hmissed), hp]
      exact hnext s hs

theorem safe_dial {i : ℕ} {wait : Bool} {found next : Prog} (hfound : found.SafeAny)
    (hnext : next.SafeIdle) :
    (Prog.act (.dial i wait) fun opened => if opened then found else next).SafeIdle := by
  intro s hs
  refine ⟨hs, fun dial p hp => ?_⟩
  change (if (cseOpen dial i wait p).1 = true then found else next).Safe
    (cseOpen dial i wait p).2.stream
  split
  · exact hfound _
  · next hmissed => exact hnext _ (cseOpen_missed dial i wait (Bool.eq_false_iff.mpr hmissed))

theorem safe_use {i : ℕ} {t : UInt32} {next : Prog} (hnext : next.SafeAny) :
    (Prog.act (.use i t) fun _ => next).SafeAny :=
  fun _ => ⟨trivial, fun _ _ _ => hnext _⟩

theorem safe_bury {i : ℕ} {t : UInt32} {next : Prog} (hnext : next.SafeIdle) :
    (Prog.act (.bury i t) fun _ => next).SafeIdle := by
  intro s hs
  refine ⟨trivial, fun dial p hp => hnext _ ?_⟩
  change p.stream.socket < 0
  rw [hp]
  exact hs

theorem safe_op {op : StreamOp} {next : Prog} (hnext : next.SafeAny) :
    (Prog.act (.op op) fun _ => next).SafeAny :=
  fun _ => ⟨trivial, fun _ _ _ => hnext _⟩

theorem safe_close {next : Prog} (hnext : next.SafeIdle) :
    (Prog.act (.op .close) fun _ => next).SafeAny :=
  fun _ => ⟨trivial, fun _ _ _ => hnext _ (Int.negSucc_lt_zero 0)⟩

theorem safe_passProg {one : ℕ → Prog → Prog}
    (hone : ∀ i next, next.SafeIdle → (one i next).SafeIdle) {missed : Prog}
    (hmissed : missed.SafeIdle) (order : List ℕ) : (passProg one missed order).SafeIdle := by
  induction order with
  | nil => exact hmissed
  | cons i order ih => exact hone i _ ih

theorem safe_tryReuseProg {t : UInt32} {found : Prog} (hfound : found.SafeAny) (i : ℕ)
    (next : Prog) (hnext : next.SafeIdle) : (tryReuseProg t found i next).SafeIdle := by
  intro s hs config
  dsimp only
  split
  · exact hnext s hs
  · exact safe_reuse hfound hnext s hs

theorem safe_tryLiveProg {sessionIndex : ℤ} {t : UInt32} {found : Prog} (hfound : found.SafeAny)
    (i : ℕ) (next : Prog) (hnext : next.SafeIdle) :
    (tryLiveProg sessionIndex t found i next).SafeIdle := by
  have hopen : (Prog.look fun config =>
      if (config.srun i).isDead ∧
          (config.srun i).lastTime + UInt32.ofNat (config.srun i).deadTime ≥ t then next
      else .act (.dial i false) fun opened =>
        if opened then .act (.use i t) fun _ => found else next).SafeIdle := by
    intro s hs config
    dsimp only
    split
    · exact hnext s hs
    · exact safe_dial (safe_use hfound) hnext s hs
  intro s hs config
  dsimp only
  split
  · exact hnext s hs
  · exact safe_reuse hfound hopen s hs

theorem safe_tryAnyProg {t : UInt32} {found : Prog} (hfound : found.SafeAny) (i : ℕ)
    (next : Prog) (hnext : next.SafeIdle) : (tryAnyProg t found i next).SafeIdle :=
  safe_reuse hfound (safe_dial (safe_use hfound) (safe_bury hnext))

theorem safe_openProg {found missed : Prog} (hfound : found.SafeAny) (hmissed : missed.SafeIdle)
    (sessionIndex : ℤ) (t : UInt32) (order : List ℕ) :
    (openProg sessionIndex t order found missed).SafeIdle := by
  have hlast := safe_passProg (@safe_tryAnyProg t found hfound) hmissed order
  have hlive := safe_passProg (@safe_tryLiveProg sessionIndex t found hfound) hlast order
  have hfirst := safe_passProg (@safe_tryReuseProg t found hfound) hlive order
  unfold openProg
  simp only
  split
  · exact hfirst
  · exact hlive

theorem safe_recycleProg {next : Prog} (hnext : next.SafeIdle) : (recycleProg next).SafeAny := by
  intro s
  refine ⟨trivial, fun dial p hp => ?_⟩
  cases hstorable : p.storable with
  | some i =>
      have hexec : Act.store.exec dial p = (true, p.stored i) := by simp [Act.exec, hstorable]
      rw [hexec]
      exact hnext _ (Int.negSucc_lt_zero 0)
  | none =>
      have hexec : Act.store.exec dial p = (false, p) := by simp [Act.exec, hstorable]
      rw [hexec]
      exact safe_op (safe_op (safe_close hnext)) _

theorem safe_opsProg {next : Prog} (hnext : next.SafeAny) (ops : List StreamOp) :
    (opsProg next ops).SafeAny := by
  induction ops with
  | nil => exact hnext
  | cons op ops ih => exact safe_op ih

theorem safe_done : Prog.done.SafeIdle := fun _ hs => hs

theorem safe_requestProg (sessionIndex : ℤ) (t : UInt32) (order : List ℕ) (ops : List StreamOp)
    (reuse : Bool) : (requestProg sessionIndex t order ops reuse).SafeIdle := by
  intro s hs
  refine ⟨hs, fun dial p _ => ?_⟩
  refine safe_openProg (safe_opsProg ?_ ops) safe_done sessionIndex t order _
    (Int.negSucc_lt_zero 0)
  cases reuse with
  | true => exact safe_recycleProg safe_done
  | false => exact safe_close safe_done

theorem safe_statusProg (sruns : List ℕ) : (statusProg sruns).SafeIdle := by
  induction sruns with
  | nil => exact safe_done
  | cons i sruns ih =>
      intro s hs
      exact ⟨hs, fun _ _ _ => safe_recycleProg ih _⟩

theorem Job.safe (job : Job) : job.prog.SafeIdle := by
  cases job with
  | request sessionIndex t order ops reuse => exact safe_requestProg sessionIndex t order ops reuse
  | status sruns => exact safe_statusProg sruns

end ModCaucho
