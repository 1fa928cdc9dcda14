import ModCaucho.Balance.Failover
import ModCaucho.Balance.Pool
import ModCaucho.Handler.Flow

/-!
# Requests as programs

What a thread of the plugin does, cut into the actions that other threads do not see the
inside of: the sections between `cse_lock` and `cse_unlock`, and actions that touch the
thread's own stream only. Between two actions the table may change, so a program looks at
it again. `cse_open` makes its system calls in one action: it shares nothing with other
threads, and a descriptor that it holds meanwhile cannot be given to another. Run alone, a
program does what the functions of the plugin do.
-/

namespace ModCaucho

open Scan Framing

/-- An action of a thread. -/
inductive Act
  /-- `cse_open_connection` clears the stream. -/
  | clear
  /-- `cse_reuse_socket`, in the lock. -/
  | reuse (i : ℕ) (requestTime : UInt32)
  /-- `cse_open` -/
  | dial (i : ℕ) (wait : Bool)
  /-- The srun is marked as alive. -/
  | use (i : ℕ) (requestTime : UInt32)
  /-- The srun is marked as dead. -/
  | bury (i : ℕ) (requestTime : UInt32)
  /-- An operation on the thread's stream. -/
  | op (op : StreamOp)
  /-- The part of `cse_recycle` in the lock. -/
  | store
deriving DecidableEq, Repr

/-- The srun in whose pool `cse_recycle` can store the socket. -/
def Child.storable (p : Child) : Option ℕ :=
  p.stream.srun.filter fun i =>
    0 ≤ p.stream.socket ∧ p.config.updateCount = p.stream.updateCount ∧
      (p.config.srun i).sockets.length < (p.config.srun i).maxSockets

/-- The socket goes to the pool of the srun. -/
def Child.stored (p : Child) (i : ℕ) : Child :=
  { p with
    stream := { p.stream with socket := -1 }
    config := p.config.modifySrun i fun srun =>
      { srun with sockets := p.stream.socket.toNat :: srun.sockets } }

/-- A connection in place of the child's stream. -/
def Child.withConn (p : Child) (c : Conn) : Child := { p with stream := c.stream, os := c.os }

def Act.exec (dial : Dial) : Act → Child → Bool × Child
  | clear, p => (true, { p with stream := p.stream.clear none })
  | reuse i t, p => cseReuseSocket i t p
  | .dial i wait, p => cseOpen dial i wait p
  | use i t, p => (true, p.use i t)
  | bury i t, p => (true, p.bury i t)
  | op o, p => (true, p.withConn (o.exec p.conn))
  | store, p =>
      match p.storable with
      | some i => (true, p.stored i)
      | none => (false, p)

/-- A program of a thread. What it does next depends on what an action returned, or on
what it reads in the table. -/
inductive Prog
  | done
  | act (a : Act) (next : Bool → Prog)
  | look (next : Config → Prog)

/-- A program that is not interleaved with others. -/
def Prog.alone (dial : Dial) : Prog → Child → Child
  | done, p => p
  | act a next, p => (next (a.exec dial p).1).alone dial (a.exec dial p).2
  | look next, p => (next p.config).alone dial p

/-! ## The programs of the plugin -/

/-- A pass over the sruns, where `one` tries an srun and goes on if that fails. -/
def passProg (one : ℕ → Prog → Prog) (missed : Prog) : List ℕ → Prog
  | [] => missed
  | i :: order => one i (passProg one missed order)

/-- The body of the first pass of `open_connection`. -/
def tryReuseProg (requestTime : UInt32) (found : Prog) (i : ℕ) (next : Prog) : Prog :=
  .look fun config =>
    if (config.srun i).isBackup then next
    else .act (.reuse i requestTime) fun reused => if reused then found else next

/-- The body of the second pass. -/
def tryLiveProg (sessionIndex : ℤ) (requestTime : UInt32) (found : Prog) (i : ℕ)
    (next : Prog) : Prog :=
  .look fun config =>
    if sessionIndex < 0 ∧ (config.srun i).isBackup then next
    else .act (.reuse i requestTime) fun reused =>
      if reused then found
      else .look fun config =>
        if (config.srun i).isDead ∧
            (config.srun i).lastTime + UInt32.ofNat (config.srun i).deadTime ≥ requestTime then
          next
        else .act (.dial i false) fun opened =>
          if opened then .act (.use i requestTime) fun _ => found else next

/-- The body of the third pass. -/
def tryAnyProg (requestTime : UInt32) (found : Prog) (i : ℕ) (next : Prog) : Prog :=
  .act (.reuse i requestTime) fun reused =>
    if reused then found
    else .act (.dial i true) fun opened =>
      if opened then .act (.use i requestTime) fun _ => found
      else .act (.bury i requestTime) fun _ => next

/-- `open_connection` over a probe order. -/
def openProg (sessionIndex : ℤ) (requestTime : UInt32) (order : List ℕ) (found missed : Prog) :
    Prog :=
  let last := passProg (tryAnyProg requestTime found) missed order
  let live := passProg (tryLiveProg sessionIndex requestTime found) last order
  if sessionIndex < 0 then passProg (tryReuseProg requestTime found) live order else live

/-- `cse_recycle` -/
def recycleProg (next : Prog) : Prog :=
  .act .store fun stored =>
    if stored then next
    else .act (.op (.write (header cseCloseCode 0))) fun _ =>
      .act (.op (.write [])) fun _ => .act (.op .close) fun _ => next

/-- Operations on the thread's stream. -/
def opsProg (next : Prog) : List StreamOp → Prog
  | [] => next
  | op :: ops => .act (.op op) fun _ => opsProg next ops

/-- `caucho_request`, where `write_request` does some operations on the stream and says
whether the connection can be reused. -/
def requestProg (sessionIndex : ℤ) (requestTime : UInt32) (order : List ℕ)
    (ops : List StreamOp) (reuse : Bool) : Prog :=
  .act .clear fun _ =>
    openProg sessionIndex requestTime order
      (opsProg (if reuse then recycleProg .done else .act (.op .close) fun _ => .done) ops) .done

/-- The loop of `jvm_status`. -/
def statusProg : List ℕ → Prog
  | [] => .done
  | i :: sruns => .act (.dial i true) fun _ => recycleProg (statusProg sruns)

/-! ## Programs that run alone -/

section

variable (dial : Dial)

theorem alone_look (next : Config → Prog) (p : Child) :
    (Prog.look next).alone dial p = (next p.config).alone dial p := rfl

theorem alone_reuse (i : ℕ) (t : UInt32) (next : Bool → Prog) (p : Child) :
    (Prog.act (.reuse i t) next).alone dial p =
      (next (cseReuseSocket i t p).1).alone dial (cseReuseSocket i t p).2 := rfl

theorem alone_dial (i : ℕ) (wait : Bool) (next : Bool → Prog) (p : Child) :
    (Prog.act (.dial i wait) next).alone dial p =
      (next (cseOpen dial i wait p).1).alone dial (cseOpen dial i wait p).2 := rfl

theorem alone_use (i : ℕ) (t : UInt32) (next : Bool → Prog) (p : Child) :
    (Prog.act (.use i t) next).alone dial p = (next true).alone dial (p.use i t) := rfl

theorem alone_bury (i : ℕ) (t : UInt32) (next : Bool → Prog) (p : Child) :
    (Prog.act (.bury i t) next).alone dial p = (next true).alone dial (p.bury i t) := rfl

/-- A program that tries an srun as the body of a pass does. -/
def Tries (one : ℕ → Prog → Prog) (found : Prog) (f : ℕ → Child → Bool × Child) : Prop :=
  ∀ i next p, (one i next).alone dial p =
    if (f i p).1 then found.alone dial (f i p).2 else next.alone dial (f i p).2

theorem tries_tryReuse (t : UInt32) (found : Prog) :
    Tries dial (tryReuseProg t found) found (tryReuse t) := by
  intro i next p
  rw [tryReuseProg, alone_look, tryReuse]
  by_cases hbackup : (p.config.srun i).isBackup = true
  · simp only [if_pos hbackup, Bool.false_eq_true, if_false]
  · simp only [if_neg hbackup, alone_reuse]
    split <;> rfl

theorem tries_tryLive (sessionIndex : ℤ) (t : UInt32) (found : Prog) :
    Tries dial (tryLiveProg sessionIndex t found) found (tryLive dial sessionIndex t) := by
  intro i next p
  rw [tryLiveProg, alone_look, tryLive]
  by_cases hskip : sessionIndex < 0 ∧ (p.config.srun i).isBackup = true
  · simp only [if_pos hskip, Bool.false_eq_true, if_false]
  simp only [if_neg hskip, alone_reuse]
  by_cases hreused : (cseReuseSocket i t p).1 = true
  · simp only [if_pos hreused, if_true]
  simp only [if_neg hreused, alone_look]
  split
  · simp only [Bool.false_eq_true, if_false]
  · simp only [alone_dial]
    by_cases hopened : (cseOpen dial i false (cseReuseSocket i t p).2).1 = true
    · simp only [if_pos hopened, if_true, alone_use]
    · simp only [if_neg hopened, Bool.false_eq_true, if_false]

theorem tries_tryAny (t : UInt32) (found : Prog) :
    Tries dial (tryAnyProg t found) found (tryAny dial t) := by
  intro i next p
  rw [tryAnyProg, alone_reuse, tryAny]
  by_cases hreused : (cseReuseSocket i t p).1 = true
  · simp only [if_pos hreused, if_true]
  simp only [if_neg hreused, alone_dial]
  by_cases hopened : (cseOpen dial i true (cseReuseSocket i t p).2).1 = true
  · simp only [if_pos hopened, if_true, alone_use]
  · simp only [if_neg hopened, Bool.false_eq_true, if_false, alone_bury]
    rfl

theorem alone_passProg {one : ℕ → Prog → Prog} {found : Prog} {f : ℕ → Child → Bool × Child}
    (h : Tries dial one found f) (missed : Prog) (order : List ℕ) (p : Child) :
    (passProg one missed order).alone dial p =
      if (scan f order p).1 then found.alone dial (scan f order p).2
      else missed.alone dial (scan f order p).2 := by
  induction order generalizing p with
  | nil => rfl
  | cons i order ih =>
      rw [passProg, h i _ p]
      cases hfound : (f i p).1 with
      | true =>
          rw [scan_cons_of_true hfound]
          rfl
      | false =>
          rw [scan_cons_of_false hfound]
          exact ih _

/-- The program of `open_connection` does what its passes do. -/
theorem alone_openProg (sessionIndex : ℤ) (t : UInt32) (order : List ℕ) (found missed : Prog)
    (p : Child) :
    (openProg sessionIndex t order found missed).alone dial p =
      if (passes dial sessionIndex t order p).1 then
        found.alone dial (passes dial sessionIndex t order p).2
      else missed.alone dial (passes dial sessionIndex t order p).2 := by
  have hlast := alone_passProg dial (tries_tryAny dial t found) missed order
  have hlive := alone_passProg dial (tries_tryLive dial sessionIndex t found)
    (passProg (tryAnyProg t found) missed order) order
  have hfirst := alone_passProg dial (tries_tryReuse dial t found)
    (passProg (tryLiveProg sessionIndex t found)
      (passProg (tryAnyProg t found) missed order) order) order
  unfold openProg passes
  simp only
  by_cases hsession : sessionIndex < 0
  · simp only [if_pos hsession, hfirst]
    by_cases hreused : (scan (tryReuse t) order p).1 = true
    · simp only [if_pos hreused, if_true]
    · simp only [if_neg hreused, hlive]
      by_cases hopened :
          (scan (tryLive dial sessionIndex t) order (scan (tryReuse t) order p).2).1 = true
      · simp only [if_pos hopened, if_true]
      · simp only [if_neg hopened, hlast]
  · simp only [if_neg hsession, hlive, Bool.false_eq_true, if_false]
    by_cases hopened : (scan (tryLive dial sessionIndex t) order p).1 = true
    · simp only [if_pos hopened, if_true]
    · simp only [if_neg hopened, hlast]

theorem alone_opsProg (next : Prog) (ops : List StreamOp) (p : Child) :
    (opsProg next ops).alone dial p = next.alone dial (p.withConn (runOps ops p.conn)) := by
  induction ops generalizing p with
  | nil => rfl
  | cons op ops ih => exact ih _

theorem cseRecycle_eq (p : Child) :
    cseRecycle p =
      match p.storable with
      | some i => p.stored i
      | none => p.withConn (cseClose (cseWritePacket p.conn cseCloseCode [])) := rfl

theorem alone_store (next : Bool → Prog) (p : Child) :
    (Prog.act .store next).alone dial p =
      (next (Act.store.exec dial p).1).alone dial (Act.store.exec dial p).2 := rfl

theorem alone_recycleProg (next : Prog) (p : Child) :
    (recycleProg next).alone dial p = next.alone dial (cseRecycle p) := by
  rw [cseRecycle_eq, cseWritePacket, packet_header, recycleProg, alone_store]
  cases hstorable : p.storable with
  | some i =>
      have hexec : Act.store.exec dial p = (true, p.stored i) := by simp [Act.exec, hstorable]
      rw [hexec]
      rfl
  | none =>
      have hexec : Act.store.exec dial p = (false, p) := by simp [Act.exec, hstorable]
      rw [hexec]
      rfl

/-- The loop of `jvm_status` over these sruns. -/
def jvmStatus (sruns : List ℕ) (p : Child) : Child :=
  sruns.foldl (fun p i => cseRecycle (cseOpen dial i true p).2) p

theorem alone_statusProg (sruns : List ℕ) (p : Child) :
    (statusProg sruns).alone dial p = jvmStatus dial sruns p := by
  induction sruns generalizing p with
  | nil => rfl
  | cons i sruns ih =>
      rw [statusProg, Prog.alone, alone_recycleProg, ih]
      rfl

/-- `caucho_request`, as far as the runner is concerned. -/
def cauchoRequest (sessionIndex : ℤ) (ip : List Byte) (t : UInt32) (rand : Int32)
    (junk : ℕ → Locals) (r : Request) (reply : Reply) (p : Child) : Child :=
  let (found, p) := cseOpenConnection dial sessionIndex ip t rand p
  if found then
    let session := (p.config.srun (p.stream.srun.getD 0)).session
    let (reuse, x) := writeRequest junk session r ⟨p.conn, reply, false, []⟩
    let p := p.withConn x.conn
    if reuse then cseRecycle p else p.withConn (cseClose p.conn)
  else p

theorem performs_writeRequest (junk : ℕ → Locals) (session : ℕ) (r : Request) (x : Relay) :
    ∃ ops, runOps ops x.conn = (writeRequest junk session r x).2.conn := by
  obtain ⟨head, -, hwritten⟩ := prefaces_writeHead x session r
  obtain ⟨ops, hrun, -⟩ :=
    ((hwritten x).append (exchanges_writeRequest junk session r x)).performs
  exact ⟨ops, hrun⟩

/-- A request is one of the programs: it probes the sruns in some order, and then does
some operations on its stream. -/
theorem cauchoRequest_alone (sessionIndex : ℤ) (ip : List Byte) (t : UInt32) (rand : Int32)
    (junk : ℕ → Locals) (r : Request) (reply : Reply) (p : Child) :
    ∃ order ops reuse gCount,
      cauchoRequest dial sessionIndex ip t rand junk r reply p =
        (requestProg sessionIndex t order ops reuse).alone dial { p with gCount := gCount } := by
  obtain ⟨g, hg⟩ := startHost_snd p.config.probeSize sessionIndex ip t rand
    { p with stream := p.stream.clear none }
  have hcall : cseOpenConnection dial sessionIndex ip t rand p =
      passes dial sessionIndex t (callOrder sessionIndex ip t rand
        { p with stream := p.stream.clear none })
        { p with stream := p.stream.clear none, gCount := g } := by
    rw [← hg]
    rfl
  unfold cauchoRequest
  rw [hcall]
  generalize callOrder sessionIndex ip t rand { p with stream := p.stream.clear none } = order
  have halone := fun (ops : List StreamOp) (reuse : Bool) =>
    alone_openProg dial sessionIndex t order
      (opsProg (if reuse then recycleProg .done else .act (.op .close) fun _ => .done) ops) .done
    { p with stream := p.stream.clear none, gCount := g }
  generalize passes dial sessionIndex t order
    { p with stream := p.stream.clear none, gCount := g } = answer at halone ⊢
  obtain ⟨found, q⟩ := answer
  cases found with
  | false => exact ⟨order, [], true, g, (halone [] true).symm⟩
  | true =>
      simp only [if_true] at halone ⊢
      obtain ⟨ops, hops⟩ := performs_writeRequest junk
        (q.config.srun (q.stream.srun.getD 0)).session r ⟨q.conn, reply, false, []⟩
      generalize writeRequest junk (q.config.srun (q.stream.srun.getD 0)).session r
        ⟨q.conn, reply, false, []⟩ = exchange at hops ⊢
      obtain ⟨reuse, x⟩ := exchange
      refine ⟨order, ops, reuse, g, ?_⟩
      have hrun := halone ops reuse
      rw [alone_opsProg, show runOps ops q.conn = x.conn from hops] at hrun
      refine Eq.trans ?_ hrun.symm
      cases reuse with
      | true => exact (alone_recycleProg dial .done _).symm
      | false => rfl

end

end ModCaucho
