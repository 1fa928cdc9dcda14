import ModCaucho.Handler.Ages

/-!
# Where a connection goes

A pooled socket is handed out for the srun in whose pool it is, and nothing asks the
socket where it goes. In every run it goes to that srun: a socket comes into the pool of an
srun, and into a stream for it, by a connect to this srun alone. So what a request says to
an srun, and the goodbye to an srun, is said to no other one.
-/

namespace ModCaucho

/-! ## The other ends -/

/-- The sruns at the other ends of the descriptors after a system call. -/
def SysCall.routes (peers : ℕ → Option ℕ) : SysCall → ℕ → Option ℕ
  | .connect i _ (.connected fd) => Function.update peers fd (some i)
  | .connect _ _ (.refused fd) => Function.update peers fd none
  | .close fd => fun d => if (d : ℤ) = fd then none else peers d
  | _ => peers

/-- The sruns at the other ends of the descriptors after all these calls. -/
def peers (calls : List SysCall) : ℕ → Option ℕ := calls.foldl SysCall.routes fun _ => none

theorem peers_append (calls made : List SysCall) :
    peers (calls ++ made) = made.foldl SysCall.routes (peers calls) := List.foldl_append

/-- What is open after some calls and was not opened by them was open before. -/
theorem mem_of_mem_openAfter {calls : List SysCall} {fd : ℕ}
    (h : ∀ call ∈ calls, call.opens ≠ some fd) {opened : List ℕ}
    (hfd : fd ∈ openAfter opened calls) : fd ∈ opened := by
  induction calls generalizing opened with
  | nil => exact hfd
  | cons call calls ih =>
      have hafter : fd ∈ SysCall.after opened call :=
        ih (fun call' hcall' => h call' (List.mem_cons_of_mem call hcall')) hfd
      have hcall := h call List.mem_cons_self
      cases call with
      | send socket bytes => exact hafter
      | close socket => exact (List.mem_filter.mp hafter).1
      | connect i wait result =>
          cases result with
          | noSocket => exact hafter
          | connected d =>
              exact (List.mem_cons.mp hafter).resolve_left fun heq =>
                hcall (congrArg some heq.symm)
          | refused d =>
              exact (List.mem_cons.mp hafter).resolve_left fun heq =>
                hcall (congrArg some heq.symm)

/-- A descriptor that stays open keeps its other end. -/
theorem foldl_routes_of_open {calls : List SysCall} {fd : ℕ}
    (h : ∀ call ∈ calls, call.opens ≠ some fd) {opened : List ℕ}
    (hfd : fd ∈ openAfter opened calls) (ends : ℕ → Option ℕ) :
    calls.foldl SysCall.routes ends fd = ends fd := by
  induction calls generalizing opened ends with
  | nil => rfl
  | cons call calls ih =>
      have hrest := fun call' hcall' => h call' (List.mem_cons_of_mem call hcall')
      have hcall := h call List.mem_cons_self
      rw [List.foldl_cons, ih hrest hfd]
      cases call with
      | send socket bytes => rfl
      | close socket =>
          have hafter := mem_of_mem_openAfter hrest hfd
          exact if_neg (of_decide_eq_true (List.mem_filter.mp hafter).2)
      | connect i wait result =>
          cases result with
          | noSocket => rfl
          | connected d =>
              exact Function.update_of_ne (fun heq => hcall (congrArg some heq.symm)) _ _
          | refused d =>
              exact Function.update_of_ne (fun heq => hcall (congrArg some heq.symm)) _ _

/-! ## What an action does with the srun of a stream -/

/-- An srun is marked as used only by the stream that is connected to it. -/
def Act.Aims : Act → Stream → Prop
  | use i _, s => s.srun = some i
  | _, _ => True

/-- A program that marks no srun but the one that it is connected to. -/
def Prog.Aims : Prog → Stream → Prop
  | done, _ => True
  | act a next, s => a.Aims s ∧
      ∀ (dial : Dial) (p : Child), p.stream = s →
        (next (a.exec dial p).1).Aims (a.exec dial p).2.stream
  | look next, s => ∀ config, (next config).Aims s

/-- A program that does so on any stream. -/
def Prog.AimsAny (prog : Prog) : Prop := ∀ s, prog.Aims s

theorem aims_act {a : Act} {next : Bool → Prog} (ha : ∀ s, a.Aims s)
    (hnext : ∀ b, (next b).AimsAny) : (Prog.act a next).AimsAny :=
  fun s => ⟨ha s, fun _ _ _ => hnext _ _⟩

theorem aims_look {next : Config → Prog} (hnext : ∀ config, (next config).AimsAny) :
    (Prog.look next).AimsAny :=
  fun s config => hnext config s

theorem aims_ite {c : Prop} [Decidable c] {prog prog' : Prog} (h : prog.AimsAny)
    (h' : prog'.AimsAny) : (if c then prog else prog').AimsAny := by
  split
  · exact h
  · exact h'

theorem cseOpen_srun (dial : Dial) (i : ℕ) (wait : Bool) (p : Child) :
    (cseOpen dial i wait p).2.stream.srun = some i := by
  rw [cseOpen_eq]
  rfl

/-- A connection that was just opened is marked as used. -/
theorem aims_dial_use {i : ℕ} {wait : Bool} {t : UInt32} {found next : Prog}
    (hfound : found.AimsAny) (hnext : next.AimsAny) :
    (Prog.act (.dial i wait) fun opened =>
      if opened then .act (.use i t) fun _ => found else next).AimsAny := by
  intro s
  refine ⟨trivial, fun dial p _ => ?_⟩
  change (if (cseOpen dial i wait p).1 = true then Prog.act (.use i t) fun _ => found
    else next).Aims (cseOpen dial i wait p).2.stream
  split
  · exact ⟨cseOpen_srun dial i wait p, fun _ _ _ => hfound _⟩
  · exact hnext _

theorem aims_passProg {one : ℕ → Prog → Prog}
    (hone : ∀ i next, next.AimsAny → (one i next).AimsAny) {missed : Prog}
    (hmissed : missed.AimsAny) (order : List ℕ) : (passProg one missed order).AimsAny := by
  induction order with
  | nil => exact hmissed
  | cons i order ih => exact hone i _ ih

theorem aims_openProg {found missed : Prog} (hfound : found.AimsAny) (hmissed : missed.AimsAny)
    (sessionIndex : ℤ) (t : UInt32) (order : List ℕ) :
    (openProg sessionIndex t order found missed).AimsAny := by
  have hreuse (i : ℕ) {next : Prog} (hnext : next.AimsAny) :
      (Prog.act (.reuse i t) fun reused => if reused then found else next).AimsAny :=
    aims_act (fun _ => trivial) fun _ => aims_ite hfound hnext
  have hlast : (passProg (tryAnyProg t found) missed order).AimsAny := by
    refine aims_passProg (fun i next hnext => hreuse i ?_) hmissed order
    exact aims_dial_use hfound (aims_act (fun _ => trivial) fun _ => hnext)
  have hlive : (passProg (tryLiveProg sessionIndex t found)
      (passProg (tryAnyProg t found) missed order) order).AimsAny := by
    refine aims_passProg (fun i next hnext => ?_) hlast order
    refine aims_look fun config => aims_ite hnext (hreuse i ?_)
    exact aims_look fun config => aims_ite hnext (aims_dial_use hfound hnext)
  unfold openProg
  simp only
  refine aims_ite (aims_passProg (fun i next hnext => ?_) hlive order) hlive
  exact aims_look fun config => aims_ite hnext (hreuse i hnext)

theorem aims_done : Prog.done.AimsAny := fun _ => trivial

theorem aims_op {op : StreamOp} {next : Prog} (hnext : next.AimsAny) :
    (Prog.act (.op op) fun _ => next).AimsAny := aims_act (fun _ => trivial) fun _ => hnext

theorem aims_recycleProg {next : Prog} (hnext : next.AimsAny) : (recycleProg next).AimsAny :=
  aims_act (fun _ => trivial) fun _ => aims_ite hnext (aims_op (aims_op (aims_op hnext)))

theorem aims_opsProg {next : Prog} (hnext : next.AimsAny) (ops : List StreamOp) :
    (opsProg next ops).AimsAny := by
  induction ops with
  | nil => exact hnext
  | cons op ops ih => exact aims_op ih

theorem Job.aims (job : Job) : job.prog.AimsAny := by
  cases job with
  | request sessionIndex t order ops reuse =>
      refine aims_act (fun _ => trivial) fun _ => ?_
      refine aims_openProg (aims_opsProg ?_ ops) aims_done sessionIndex t order
      exact aims_ite (aims_recycleProg aims_done) (aims_op aims_done)
  | status sruns =>
      change (statusProg sruns).AimsAny
      induction sruns with
      | nil => exact aims_done
      | cons i sruns ih => exact aims_act (fun _ => trivial) fun _ => aims_recycleProg ih

/-! ## What an action says, and to whom -/

/-- Nothing but sends on the socket of the stream, which stays as it is. -/
def SpeaksOn (c c' : Conn) : Prop :=
  c'.stream.socket = c.stream.socket ∧ c'.stream.srun = c.stream.srun ∧
    ∃ calls, c'.os.trace = c.os.trace ++ calls ∧
      ∀ call ∈ calls, 0 ≤ c.stream.socket ∧ ∃ bytes, call = .send c.stream.socket bytes

theorem SpeaksOn.of_trace {c c' : Conn} (hsocket : c'.stream.socket = c.stream.socket)
    (hsrun : c'.stream.srun = c.stream.srun) (htrace : c'.os.trace = c.os.trace) :
    SpeaksOn c c' :=
  ⟨hsocket, hsrun, [], by rw [htrace, List.append_nil], by simp⟩

theorem SpeaksOn.trans {c c' c'' : Conn} (h : SpeaksOn c c') (h' : SpeaksOn c' c'') :
    SpeaksOn c c'' := by
  obtain ⟨hsocket, hsrun, calls, htrace, hcalls⟩ := h
  obtain ⟨hsocket', hsrun', calls', htrace', hcalls'⟩ := h'
  refine ⟨hsocket'.trans hsocket, hsrun'.trans hsrun, calls ++ calls', ?_, fun call hcall => ?_⟩
  · rw [htrace', htrace, List.append_assoc]
  · rcases List.mem_append.mp hcall with hmem | hmem
    · exact hcalls call hmem
    · exact hsocket ▸ hcalls' call hmem

theorem speaksOn_send (c : Conn) (bytes : List Byte) : SpeaksOn c (c.send bytes).2 := by
  refine ⟨rfl, rfl, ?_⟩
  rcases send_cases c bytes with ⟨-, htrace⟩ | ⟨hopen, taken, -, -, htrace⟩
  · exact ⟨[], by rw [htrace, List.append_nil], by simp⟩
  · exact ⟨_, htrace, by simp [hopen]⟩

theorem speaksOn_offered (c : Conn) : SpeaksOn c c.offered :=
  (speaksOn_send c c.stream.writeBuf).trans (.of_trace rfl rfl rfl)

theorem speaksOn_flush (c : Conn) : SpeaksOn c (cseFlush c).2 := by
  by_cases hnil : c.stream.writeBuf = []
  · rw [cseFlush_of_nil hnil]
    exact .of_trace rfl rfl rfl
  · rw [cseFlush_of_ne hnil]
    split
    · exact speaksOn_send c _
    · exact (speaksOn_send c _).trans (.of_trace rfl rfl rfl)

theorem speaksOn_recv (c : Conn) : SpeaksOn c c.recv := by
  refine .of_trace ?_ ?_ ?_
  all_goals
    unfold Conn.recv
    split <;> rfl

/-- An operation speaks on the socket of its stream, and then it may close it. -/
def SpeaksOrCloses (c c' : Conn) : Prop :=
  SpeaksOn c c' ∨ ∃ d, SpeaksOn c d ∧ c' = cseClose d

theorem speaksOrCloses_sendNothing {c d : Conn} (h : SpeaksOn c d) :
    SpeaksOrCloses c (sendNothing d) := by
  have hsend := h.trans (speaksOn_send d [])
  unfold sendNothing
  split
  · exact Or.inr ⟨_, hsend, rfl⟩
  · exact Or.inl hsend

theorem speaksOrCloses_write (c : Conn) (buf : List Byte) : SpeaksOrCloses c (cseWrite c buf) := by
  by_cases hroom : c.stream.writeLength + buf.length ≤ bufLength
  · rw [cseWrite_of_room hroom]
    exact Or.inl (.of_trace rfl rfl rfl)
  by_cases hnil : c.stream.writeBuf = []
  · rw [cseWrite_of_nil hnil (by rw [Stream.writeLength, hnil] at hroom; simpa using hroom)]
    exact speaksOrCloses_sendNothing (.of_trace rfl rfl rfl)
  · rw [cseWrite_of_full hnil hroom]
    split
    · exact Or.inr ⟨_, speaksOn_offered c, rfl⟩
    · split
      · exact Or.inl ((speaksOn_offered c).trans (.of_trace rfl rfl rfl))
      · exact speaksOrCloses_sendNothing (speaksOn_offered c)

theorem speaksOrCloses_exec (op : StreamOp) (c : Conn) : SpeaksOrCloses c (op.exec c) := by
  cases op with
  | write buf => exact speaksOrCloses_write c buf
  | flush => exact Or.inl (speaksOn_flush c)
  | fill =>
      have hrecv := (speaksOn_flush c).trans (speaksOn_recv (cseFlush c).2)
      simp only [StreamOp.exec, cseFillBuffer]
      split
      · exact Or.inl (.of_trace rfl rfl rfl)
      · split
        · exact Or.inl (speaksOn_flush c)
        · split
          · exact Or.inr ⟨_, hrecv, rfl⟩
          · exact Or.inl hrecv
  | skip n => exact Or.inl (.of_trace rfl rfl rfl)
  | close => exact Or.inr ⟨c, .of_trace rfl rfl rfl, rfl⟩

theorem SpeaksOrCloses.srun {c c' : Conn} (h : SpeaksOrCloses c c') :
    c'.stream.srun = c.stream.srun := by
  rcases h with ⟨-, hsrun, -⟩ | ⟨d, ⟨-, hsrun, -⟩, rfl⟩
  · exact hsrun
  · exact hsrun

theorem SpeaksOrCloses.socket {c c' : Conn} (h : SpeaksOrCloses c c') :
    c'.stream.socket = c.stream.socket ∨ c'.stream.socket < 0 := by
  rcases h with ⟨hsocket, -⟩ | ⟨d, -, rfl⟩
  · exact Or.inl hsocket
  · exact Or.inr (Int.negSucc_lt_zero 0)

/-- Whatever an operation sends it sends on the socket of its stream. -/
theorem SpeaksOrCloses.sends {c c' : Conn} (h : SpeaksOrCloses c c') (hstart : c.os.trace = [])
    {fd : ℤ} {bytes : List Byte} (hsend : .send fd bytes ∈ c'.os.trace) :
    0 ≤ fd ∧ fd = c.stream.socket := by
  have hspoken {d : Conn} (hd : SpeaksOn c d) (hmem : SysCall.send fd bytes ∈ d.os.trace) :
      0 ≤ fd ∧ fd = c.stream.socket := by
    obtain ⟨-, -, calls, htrace, hcalls⟩ := hd
    rw [htrace, hstart, List.nil_append] at hmem
    obtain ⟨hopen, sent, heq⟩ := hcalls _ hmem
    cases heq
    exact ⟨hopen, rfl⟩
  rcases h with hc | ⟨d, hd, rfl⟩
  · exact hspoken hc hsend
  · refine hspoken hd ?_
    rcases List.mem_append.mp hsend with hmem | hmem
    · exact hmem
    · cases List.mem_singleton.mp hmem

/-- A pool that is given up hears goodbyes, or the front of one. -/
theorem drainPool_speech {sockets : List ℕ} {os : Os} {fd : ℤ} {bytes : List Byte}
    (hsend : .send fd bytes ∈ (drainPool sockets os).trace) :
    .send fd bytes ∈ os.trace ∨ ∃ d ∈ sockets, fd = (d : ℤ) ∧ bytes <+: closePacket := by
  induction sockets generalizing os with
  | nil => exact Or.inl hsend
  | cons socket sockets ih =>
      rcases ih hsend with hmem | ⟨d, hd, heq⟩
      · rcases List.mem_append.mp hmem with hmem | hmem
        · unfold Os.send at hmem
          split at hmem
          · exact Or.inl hmem
          · split at hmem
            · rcases List.mem_append.mp hmem with hmem | hmem
              · exact Or.inl hmem
              · cases List.mem_singleton.mp hmem
                exact Or.inr ⟨socket, List.mem_cons_self, rfl, List.prefix_refl _⟩
            · rcases List.mem_append.mp hmem with hmem | hmem
              · exact Or.inl hmem
              · cases List.mem_singleton.mp hmem
                exact Or.inr ⟨socket, List.mem_cons_self, rfl, List.take_prefix _ _⟩
            · exact Or.inl hmem
        · cases List.mem_singleton.mp hmem
      · exact Or.inr ⟨d, List.mem_cons_of_mem socket hd, heq⟩

/-- The child that ends says nothing but goodbyes to the pools. -/
theorem giveUpPools_speech {is : List ℕ} {p : Child} {fd : ℤ} {bytes : List Byte}
    (hsend : .send fd bytes ∈ (is.foldl (giveUpPool id) p).os.trace) :
    .send fd bytes ∈ p.os.trace ∨ ∃ i ∈ is, ∃ d ∈ p.config.pool i,
      fd = (d : ℤ) ∧ bytes <+: closePacket := by
  induction is generalizing p with
  | nil => exact Or.inl hsend
  | cons i is ih =>
      rcases ih hsend with hmem | ⟨j, hj, d, hd, heq⟩
      · rcases drainPool_speech hmem with hold | ⟨d, hd, heq⟩
        · exact Or.inl hold
        · exact Or.inr ⟨i, List.mem_cons_self, d, hd, heq⟩
      · rw [pool_giveUpPool] at hd
        split at hd
        · cases hd
        · exact Or.inr ⟨j, List.mem_cons_of_mem i hj, d, hd, heq⟩

theorem closeChild_speech {w : World} {sends : List SendResult} {fd : ℤ} {bytes : List Byte}
    (hsend : .send fd bytes ∈ (cseCloseChild (w.closing sends)).os.trace) :
    ∃ i < w.config.srunSize, ∃ d ∈ w.config.pool i, fd = (d : ℤ) ∧ bytes <+: closePacket := by
  obtain ⟨i, hi, hrest⟩ := (giveUpPools_speech hsend).resolve_left List.not_mem_nil
  exact ⟨i, List.mem_range.mp hi, hrest⟩

theorem socket?_eq_some_iff {s : Stream} {fd : ℕ} : s.socket? = some fd ↔ s.socket = fd := by
  constructor
  · intro h
    unfold Stream.socket? at h
    split at h
    · next hopen =>
        cases h
        exact (Int.toNat_of_nonneg hopen).symm
    · cases h
  · exact socket?_of_eq

/-! ## One action -/

section

variable (dial : Dial) {p : Child}

/-- A pool loses sockets, and the only one that it can get is that of a stream that is
connected to its srun. -/
theorem pool_origin (a : Act) {j fd : ℕ} (hfd : fd ∈ (a.exec dial p).2.config.pool j) :
    fd ∈ p.config.pool j ∨ p.stream.srun = some j ∧ p.stream.socket? = some fd := by
  have hmark {config : Config} {i : ℕ} {f : Srun → Srun}
      (hf : ∀ srun, (f srun).sockets = srun.sockets) (hmem : fd ∈ (config.modifySrun i f).pool j) :
      fd ∈ config.pool j := by
    rwa [pool_modifySrun config i j hf] at hmem
  cases a with
  | clear => exact Or.inl hfd
  | op op => exact Or.inl hfd
  | use i t =>
      change fd ∈ (p.config.modifySrun i _).pool j at hfd
      refine Or.inl (hmark (fun srun => ?_) hfd)
      rfl
  | bury i t =>
      change fd ∈ (p.config.modifySrun i _).pool j at hfd
      refine Or.inl (hmark (fun srun => ?_) hfd)
      rfl
  | dial i wait =>
      change fd ∈ (cseOpen dial i wait p).2.config.pool j at hfd
      rw [cseOpen_eq] at hfd
      refine Or.inl (hmark (fun srun => ?_) hfd)
      split <;> rfl
  | reuse i t =>
      left
      change fd ∈ (cseReuseSocket i t p).2.config.pool j at hfd
      rw [← pool_settle p i j t]
      by_cases hu : (p.config.srun i).Usable t
      · rw [cseReuseSocket_of_usable hu] at hfd
        change fd ∈ ((p.settle i t).config.modifySrun i _).pool j at hfd
        by_cases hj : j = i
        · subst hj
          have hzero : (p.settle j t).config.srun j ≠ .zero := by
            refine srun_ne_zero ?_
            rw [pool_settle]
            exact List.length_pos_iff.mp hu.1
          rw [pool_modifySrun_self _ hzero] at hfd
          exact List.mem_of_mem_tail hfd
        · rwa [pool_modifySrun_of_ne _ hj] at hfd
      · rw [cseReuseSocket_of_not_usable hu] at hfd
        by_cases hnil : (p.config.srun i).sockets = []
        · simpa only [if_pos hnil] using hfd
        · simp only [if_neg hnil] at hfd
          change fd ∈ ((p.settle i t).config.modifySrun i _).pool j at hfd
          by_cases hj : j = i
          · subst hj
            have hzero : (p.settle j t).config.srun j ≠ .zero := by
              refine srun_ne_zero ?_
              rw [pool_settle]
              exact hnil
            rw [pool_modifySrun_self _ hzero] at hfd
            cases hfd
          · rwa [pool_modifySrun_of_ne _ hj] at hfd
  | store =>
      cases hstorable : p.storable with
      | none =>
          have hexec : Act.store.exec dial p = (false, p) := by simp [Act.exec, hstorable]
          rw [hexec] at hfd
          exact Or.inl hfd
      | some i =>
          have hexec : Act.store.exec dial p = (true, p.stored i) := by simp [Act.exec, hstorable]
          rw [hexec] at hfd
          obtain ⟨hsrun, hdec⟩ := Option.filter_eq_some_iff.mp hstorable
          obtain ⟨hopen, -, hroom⟩ := of_decide_eq_true hdec
          by_cases hj : j = i
          · subst hj
            have hzero : p.config.srun j ≠ .zero := by
              intro heq
              rw [heq] at hroom
              exact absurd hroom (by decide)
            change fd ∈ (p.config.modifySrun j _).pool j at hfd
            rw [pool_modifySrun_self _ hzero] at hfd
            rcases List.mem_cons.mp hfd with rfl | hmem
            · exact Or.inr ⟨hsrun, socket?_of_nonneg hopen⟩
            · exact Or.inl hmem
          · change fd ∈ (p.config.modifySrun i _).pool j at hfd
            rw [pool_modifySrun_of_ne _ hj] at hfd
            exact Or.inl hfd

/-- How a stream comes to its socket and its srun: it had them, or it took the socket from
the pool of the srun, or it was connected to the srun. -/
inductive Obtained (p q : Child) (fd : ℕ) : Prop
  | kept (socket : p.stream.socket? = some fd) (srun : q.stream.srun = p.stream.srun)
  | pooled {i : ℕ} (pool : fd ∈ p.config.pool i) (srun : q.stream.srun = some i)
  | connected {i : ℕ} {wait : Bool} (calls : q.os.trace = [.connect i wait (.connected fd)])
      (srun : q.stream.srun = some i)

theorem socket_origin {a : Act} (haims : a.Aims p.stream) (htrace : p.os.trace = []) {fd : ℕ}
    (hfd : (a.exec dial p).2.stream.socket? = some fd) : Obtained p (a.exec dial p).2 fd := by
  cases a with
  | clear => cases hfd
  | use i t => exact .kept hfd haims.symm
  | bury i t => exact .kept hfd rfl
  | op op =>
      have hspeaks := speaksOrCloses_exec op p.conn
      change (op.exec p.conn).stream.socket? = some fd at hfd
      have hsocket := socket?_eq_some_iff.mp hfd
      refine .kept (socket?_of_eq ?_) hspeaks.srun
      rcases hspeaks.socket with hsame | hclosed
      · exact hsame.symm.trans hsocket
      · omega
  | dial i wait =>
      change (cseOpen dial i wait p).2.stream.socket? = some fd at hfd
      change Obtained p (cseOpen dial i wait p).2 fd
      rw [cseOpen_eq] at hfd ⊢
      cases hresult : dial i wait with
      | noSocket =>
          rw [hresult] at hfd
          cases hfd
      | refused d =>
          rw [hresult] at hfd
          cases hfd
      | connected d =>
          rw [hresult] at hfd
          obtain rfl : d = fd := Int.ofNat_inj.mp (socket?_eq_some_iff.mp hfd)
          refine @Obtained.connected _ _ _ i wait ?_ rfl
          simp [connectSocket, htrace]
  | reuse i t =>
      change (cseReuseSocket i t p).2.stream.socket? = some fd at hfd
      change Obtained p (cseReuseSocket i t p).2 fd
      by_cases hu : (p.config.srun i).Usable t
      · rw [cseReuseSocket_of_usable hu] at hfd ⊢
        refine @Obtained.pooled _ _ _ i ?_ rfl
        have htop : (((p.settle i t).config.pool i).headD 0 : ℤ) = fd :=
          socket?_eq_some_iff.mp hfd
        obtain ⟨top, rest, hpool⟩ := List.exists_cons_of_ne_nil (List.length_pos_iff.mp hu.1)
        have hpooled : p.config.pool i = top :: rest := hpool
        rw [pool_settle, hpooled] at htop
        rw [hpooled, ← Int.ofNat_inj.mp htop]
        exact List.mem_cons_self
      · have hmissed : (cseReuseSocket i t p).1 = false := by
          rw [← Bool.not_eq_true, cseReuseSocket_fst]
          exact hu
        have hstream := cseReuseSocket_stream i t hmissed
        rw [hstream] at hfd
        exact .kept hfd (congrArg Stream.srun hstream)
  | store =>
      cases hstorable : p.storable with
      | none =>
          have hexec : Act.store.exec dial p = (false, p) := by simp [Act.exec, hstorable]
          rw [hexec] at hfd ⊢
          exact .kept hfd rfl
      | some i =>
          have hexec : Act.store.exec dial p = (true, p.stored i) := by simp [Act.exec, hstorable]
          rw [hexec] at hfd
          cases hfd

/-- What an action says: anything on the socket of its stream, or goodbyes to the pool that
it has locked. -/
theorem send_origin {a : Act} (htrace : p.os.trace = []) {fd : ℤ} {bytes : List Byte}
    (hsend : .send fd bytes ∈ (a.exec dial p).2.os.trace) :
    0 ≤ fd ∧ fd = p.stream.socket ∨ ∃ i, a.lock = some i ∧ ∃ d ∈ p.config.pool i,
      fd = (d : ℤ) ∧ bytes <+: closePacket := by
  have hquiet (hmem : SysCall.send fd bytes ∈ p.os.trace) : False := by
    rw [htrace] at hmem
    cases hmem
  cases a with
  | clear => exact (hquiet hsend).elim
  | use i t => exact (hquiet hsend).elim
  | bury i t => exact (hquiet hsend).elim
  | op op => exact Or.inl ((speaksOrCloses_exec op p.conn).sends htrace hsend)
  | dial i wait =>
      change _ ∈ (cseOpen dial i wait p).2.os.trace at hsend
      rw [cseOpen_eq] at hsend
      cases hresult : dial i wait <;>
        simp [hresult, connectSocket, Os.close, htrace] at hsend
  | reuse i t =>
      change _ ∈ (cseReuseSocket i t p).2.os.trace at hsend
      by_cases hu : (p.config.srun i).Usable t
      · rw [cseReuseSocket_of_usable hu] at hsend
        exact (hquiet hsend).elim
      · rw [cseReuseSocket_of_not_usable hu] at hsend
        by_cases hnil : (p.config.srun i).sockets = []
        · simp only [if_pos hnil] at hsend
          exact (hquiet hsend).elim
        · simp only [if_neg hnil] at hsend
          rcases drainPool_speech hsend with hmem | ⟨d, hd, heq⟩
          · exact (hquiet hmem).elim
          · have hd' : d ∈ (p.settle i t).config.pool i := hd
            rw [pool_settle] at hd'
            exact Or.inr ⟨i, rfl, d, hd', heq⟩
  | store =>
      cases hstorable : p.storable with
      | none =>
          have hexec : Act.store.exec dial p = (false, p) := by simp [Act.exec, hstorable]
          rw [hexec] at hsend
          exact (hquiet hsend).elim
      | some i =>
          have hexec : Act.store.exec dial p = (true, p.stored i) := by simp [Act.exec, hstorable]
          rw [hexec] at hsend
          exact (hquiet hsend).elim

end

/-! ## Runs -/

/-- The worlds that come of a fresh one, with all system calls that were made. -/
inductive World.Run : List SysCall → World → Prop
  | fresh {w : World} (h : w.Fresh) : Run [] w
  | step {w w' : World} {calls made : List SysCall} {actor : Option ℕ} (h : Run calls w)
      (step : w.Step actor made w') : Run (calls ++ made) w'

theorem World.Run.reachable {calls : List SysCall} {w : World} (h : World.Run calls w) :
    w.Reachable := by
  induction h with
  | fresh h => exact .fresh h
  | step _ hstep ih => exact .step ih hstep

/-- Every program marks no srun but its own, and every socket goes to the srun that it is
kept for. -/
structure World.Routed (ends : ℕ → Option ℕ) (w : World) : Prop where
  aims : ∀ t, (w.progs t).Aims (w.streams t)
  pools : ∀ i, ∀ fd ∈ w.config.pool i, ends fd = some i
  streams : ∀ t fd, (w.streams t).socket? = some fd →
    ∃ i, (w.streams t).srun = some i ∧ ends fd = some i

theorem routed_fresh {w : World} (h : w.Fresh) : w.Routed (peers []) where
  aims := by
    intro t
    rcases h.progs t with hdone | ⟨job, hjob⟩
    · rw [hdone]
      trivial
    · rw [hjob]
      exact job.aims _
  pools := by
    intro i fd hfd
    rw [(pools_fresh h i).1] at hfd
    cases hfd
  streams := by
    intro t fd hfd
    rw [socket?_eq_some_iff, h.streams t] at hfd
    cases hfd

/-- What was held before a step and is held behind it keeps its other end. -/
theorem routes_of_held {w w' : World} {made : List SysCall} {fd : ℕ}
    (hinv : w.Inv) (hinv' : w'.Inv) (hopened : w'.opened = openAfter w.opened made)
    (hfresh : ∀ call ∈ made, ∀ d, call.opens = some d → d ∉ w.opened) {place place' : Place}
    (hheld : w.held place = some fd) (hheld' : w'.held place' = some fd)
    (ends : ℕ → Option ℕ) : made.foldl SysCall.routes ends fd = ends fd := by
  have hold : fd ∈ w.opened := (hinv.exclusive.open_iff fd).mpr ⟨place, hheld⟩
  have hnew : fd ∈ w'.opened := (hinv'.exclusive.open_iff fd).mpr ⟨place', hheld'⟩
  rw [hopened] at hnew
  exact foldl_routes_of_open (fun call hcall heq => hfresh call hcall fd heq hold) hnew ends

theorem routed_act {ends : ℕ → Option ℕ} {w : World} {t : ℕ} {a : Act} {next : Bool → Prog}
    (dial : Dial) (recvs : List RecvResult) (sends : List SendResult) (hinv : w.Inv)
    (h : w.Routed ends) (prog : w.progs t = .act a next)
    (fresh : ∀ call ∈ (a.exec dial (w.child t recvs sends)).2.os.trace, ∀ fd,
      call.opens = some fd → fd ∉ w.opened) :
    (w.put t (a.exec dial (w.child t recvs sends)).2
      (next (a.exec dial (w.child t recvs sends)).1)).Routed
      ((a.exec dial (w.child t recvs sends)).2.os.trace.foldl SysCall.routes ends) := by
  have hinv' := inv_step hinv (.act dial recvs sends prog fresh)
  have haims := h.aims t
  rw [prog] at haims
  have hkeeps {fd : ℕ} {place place' : Place} (hheld : w.held place = some fd)
      (hheld' : (w.put t (a.exec dial (w.child t recvs sends)).2
        (next (a.exec dial (w.child t recvs sends)).1)).held place' = some fd) :=
    routes_of_held hinv hinv' rfl fresh hheld hheld' ends
  constructor
  · intro t'
    by_cases ht : t' = t
    · subst ht
      simp only [World.put, Function.update_self]
      exact haims.2 dial (w.child t' recvs sends) rfl
    · simp only [World.put, Function.update_of_ne ht]
      exact h.aims t'
  · intro i fd hfd
    obtain ⟨k', hk'⟩ := mem_pool_iff.mp hfd
    rcases pool_origin dial a hfd with hpool | ⟨hsrun, hsocket⟩
    · obtain ⟨k, hk⟩ := mem_pool_iff.mp hpool
      rw [hkeeps hk hk']
      exact h.pools i fd hpool
    · rw [@hkeeps fd (.stream t) _ hsocket hk']
      obtain ⟨j, hj, hends⟩ := h.streams t fd hsocket
      rw [hends, ← hj]
      exact hsrun
  · intro t' fd hfd
    by_cases ht : t' = t
    · subst ht
      have hheld' : (w.put t' (a.exec dial (w.child t' recvs sends)).2
        (next (a.exec dial (w.child t' recvs sends)).1)).held (.stream t') = some fd := hfd
      simp only [World.put, Function.update_self] at hfd ⊢
      cases socket_origin dial haims.1 rfl hfd with
      | kept socket srun =>
          rw [srun, @hkeeps fd (.stream t') _ socket hheld']
          exact h.streams t' fd socket
      | @pooled i pool srun =>
          obtain ⟨k, hk⟩ := mem_pool_iff.mp pool
          rw [hkeeps hk hheld']
          exact ⟨i, srun, h.pools i fd pool⟩
      | @connected i wait calls srun =>
          refine ⟨i, srun, ?_⟩
          rw [calls]
          exact Function.update_self ..
    · have hheld : w.held (.stream t') = some fd := by
        rw [← held_put_other w t _ _ ht]
        exact hfd
      rw [@hkeeps fd (.stream t') (.stream t') hheld hfd]
      simp only [World.put, Function.update_of_ne ht] at hfd ⊢
      exact h.streams t' fd hfd

theorem routed_step {ends : ℕ → Option ℕ} {w w' : World} {actor : Option ℕ}
    {made : List SysCall} (hinv : w.Inv) (h : w.Routed ends) (hstep : w.Step actor made w') :
    w'.Routed (made.foldl SysCall.routes ends) := by
  have hinv' := inv_step hinv hstep
  cases hstep with
  | act dial recvs sends prog fresh => exact routed_act dial recvs sends hinv h prog fresh
  | @look t next prog =>
      refine ⟨fun t' => ?_, h.pools, h.streams⟩
      by_cases ht : t' = t
      · subst ht
        have haims := h.aims t'
        rw [prog] at haims
        simp only [Function.update_self]
        exact haims w.config
      · simp only [Function.update_of_ne ht]
        exact h.aims t'
  | closeChild sends =>
      obtain ⟨hopens, -, hpools⟩ := @closeChild_calls (w.closing sends) rfl
      have hfresh : ∀ call ∈ (cseCloseChild (w.closing sends)).os.trace, ∀ d,
          call.opens = some d → d ∉ w.opened := by
        intro call hcall d hd
        rw [hopens call hcall] at hd
        cases hd
      have hkeeps {fd : ℕ} {place place' : Place} (hheld : w.held place = some fd)
          (hheld' : (w.closed (cseCloseChild (w.closing sends))).held place' = some fd) :=
        routes_of_held hinv hinv' rfl hfresh hheld hheld' ends
      refine ⟨h.aims, fun i fd hfd => ?_, fun t fd hfd => ?_⟩
      · obtain ⟨k', hk'⟩ := mem_pool_iff.mp hfd
        have hpool : fd ∈ w.config.pool i := by
          change fd ∈ (cseCloseChild (w.closing sends)).config.pool i at hfd
          rw [hpools] at hfd
          split at hfd
          · cases hfd
          · exact hfd
        obtain ⟨k, hk⟩ := mem_pool_iff.mp hpool
        rw [hkeeps hk hk']
        exact h.pools i fd hpool
      · rw [@hkeeps fd (.stream t) (.stream t) hfd hfd]
        exact h.streams t fd hfd

theorem routed_run {calls : List SysCall} {w : World} (h : World.Run calls w) :
    w.Routed (peers calls) := by
  induction h with
  | fresh h => exact routed_fresh h
  | step hrun hstep ih =>
      rw [peers_append]
      exact routed_step (inv_reachable hrun.reachable) ih hstep

/-- What a thread, or the child that ends, sends to an srun on a descriptor: anything if its
stream is connected to the srun, and goodbyes to the pool of the srun while it gives that up. -/
def World.Addresses (w : World) (actor : Option ℕ) (i fd : ℕ) (bytes : List Byte) : Prop :=
  (∃ t, actor = some t ∧ w.held (.stream t) = some fd ∧ (w.streams t).srun = some i) ∨
    ∃ k, w.MayClose actor (.slot i k) ∧ w.held (.slot i k) = some fd ∧ bytes <+: closePacket

/-- However requests, status pages and the end of the child overlap, everything that is
sent goes to the srun that it is meant for: the descriptor was last connected to the srun
of the sender's stream, or to the srun whose pool is given up. -/
theorem sends_routed {calls made : List SysCall} {w w' : World} {actor : Option ℕ}
    (h : World.Run calls w) (hstep : w.Step actor made w') {fd : ℤ} {bytes : List Byte}
    (hsend : .send fd bytes ∈ made) :
    ∃ d i : ℕ, fd = (d : ℤ) ∧ peers calls d = some i ∧ w.Addresses actor i d bytes := by
  have hrouted := routed_run h
  cases hstep with
  | @act t a next dial recvs sends prog fresh =>
      rcases send_origin dial rfl hsend with ⟨hopen, hsocket⟩ | ⟨i, hlock, d, hd, hfd, hbytes⟩
      · change fd = (w.streams t).socket at hsocket
        rw [hsocket] at hopen
        have hsome := socket?_of_nonneg hopen
        obtain ⟨i, hi, hends⟩ := hrouted.streams t _ hsome
        exact ⟨_, i, by omega, hends, Or.inl ⟨t, rfl, hsome, hi⟩⟩
      · obtain ⟨k, hk⟩ := mem_pool_iff.mp hd
        refine ⟨d, i, hfd, hrouted.pools i d hd, Or.inr ⟨k, ?_, hk, hbytes⟩⟩
        cases a with
        | reuse j time =>
            cases hlock
            exact ⟨time, next, prog⟩
        | _ => cases hlock
  | look prog => cases hsend
  | closeChild sends =>
      obtain ⟨i, hi, d, hd, hfd, hbytes⟩ := closeChild_speech hsend
      obtain ⟨k, hk⟩ := mem_pool_iff.mp hd
      exact ⟨d, i, hfd, hrouted.pools i d hd, Or.inr ⟨k, hi, hk, hbytes⟩⟩

theorem Aged.Run.calls {times : ℕ → UInt32} {C : Aged → ℕ → Act → Prop} {a : Aged}
    (h : a.Run times C) : ∃ calls, World.Run calls a.world := by
  induction h with
  | fresh h => exact ⟨[], .fresh h.world⟩
  | step _ hstep _ ih =>
      obtain ⟨calls, hrun⟩ := ih
      exact ⟨_, .step hrun hstep⟩

/-- Two requests that are for different sruns. -/
def speakingJobs : List Job :=
  [.request 0 100 [0, 1] [.write [1], .flush] true, .request 1 110 [1, 2] [.write [2], .flush] true]

def speakingTimes (t : ℕ) : UInt32 := [100].getD t 110

/-- The two requests in turn. Both are connected, each has written a byte to its srun, and
both are about to flush it. -/
def speakingAged : Aged :=
  Aged.perform speakingTimes
    ⟨{ (launched speakingJobs).world with config := (cseOpenChild trioChild).config },
      (launched speakingJobs).lastUse⟩
    (List.replicate 7 [(0, 3), (1, 4)]).flatten

theorem speakingAged_run : speakingAged.Run speakingTimes fun _ _ _ => True := by
  have hlaunched : (launched speakingJobs).Fresh speakingTimes := by
    refine launched_fresh fun t job hjob => ?_
    match t with
    | 0 => cases hjob; rfl
    | 1 => cases hjob; rfl
    | t + 2 => cases hjob
  refine perform_run (.fresh ⟨?_, hlaunched.progs⟩) (by decide)
  exact { hlaunched.world with pools := openChild_pools trioChild (by decide) }

/-- What the second request says goes to the second srun. -/
theorem sends_routed_speaking : ∃ calls, World.Run calls speakingAged.world ∧
    ∃ d i : ℕ, (4 : ℤ) = d ∧ peers calls d = some i ∧
      speakingAged.world.Addresses (some 1) i d [2] := by
  obtain ⟨calls, hrun⟩ := speakingAged_run.calls
  refine ⟨calls, hrun, sends_routed hrun (.act unreachable [] [] rfl (by decide)) ?_⟩
  decide

end ModCaucho
