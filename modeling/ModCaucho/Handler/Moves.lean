import ModCaucho.Handler.World

/-!
# What an action does with descriptors

Every action moves descriptors in one of a few ways: a new one goes to the stream, the
stream's one is closed or goes to a pool, the top one of a pool goes to the stream, or a
pool is closed. It reads this off its system calls, the pools and the socket of its stream.
-/

namespace ModCaucho

open Framing

/-! ## System calls -/

def SysCall.closes : SysCall → Option ℤ
  | .close fd => some fd
  | _ => none

/-- The descriptors that are closed, in order. -/
def closesOf (calls : List SysCall) : List ℤ := calls.filterMap SysCall.closes

@[simp] theorem closesOf_append (calls calls' : List SysCall) :
    closesOf (calls ++ calls') = closesOf calls ++ closesOf calls' := List.filterMap_append

/-- Where nothing is opened, what was open stays so unless it is closed. -/
theorem mem_openAfter {calls : List SysCall} (h : ∀ call ∈ calls, call.opens = none)
    (opened : List ℕ) (d : ℕ) :
    d ∈ openAfter opened calls ↔ d ∈ opened ∧ (d : ℤ) ∉ closesOf calls := by
  induction calls generalizing opened with
  | nil => simp [openAfter, closesOf]
  | cons call calls ih =>
      have hrest := ih fun call' hcall' => h call' (List.mem_cons_of_mem call hcall')
      have hcall := h call List.mem_cons_self
      change d ∈ openAfter (SysCall.after opened call) calls ↔ _
      rw [hrest]
      cases call with
      | send socket bytes => rfl
      | close fd =>
          have hcloses : closesOf (.close fd :: calls) = fd :: closesOf calls := rfl
          rw [hcloses, List.mem_cons, not_or]
          simp only [SysCall.after, List.mem_filter, decide_eq_true_eq, ne_eq, and_assoc]
      | connect i wait result =>
          cases result with
          | noSocket => rfl
          | connected fd => cases hcall
          | refused fd => cases hcall

/-! ## What an action does with descriptors -/

/-- The pool of an srun. -/
def Config.pool (config : Config) (i : ℕ) : List ℕ := (config.srun i).sockets

/-- The pools of all sruns but one are the same. -/
def SamePools (config config' : Config) (i : ℕ) : Prop :=
  ∀ j, j ≠ i → config'.pool j = config.pool j

/-- What an action does with descriptors, in terms of its system calls, the pools and the
socket of its stream. Only the pool that it has locked is closed. -/
inductive Moves (lock : Option ℕ) (p q : Child) (calls : List SysCall) : Prop
  | stay (pools : ∀ i, q.config.pool i = p.config.pool i)
      (socket : q.stream.socket = p.stream.socket ∨ p.stream.socket < 0 ∧ q.stream.socket < 0)
      (opens : ∀ call ∈ calls, call.opens = none) (closes : ∀ fd ∈ closesOf calls, fd < 0)
  | opened {i : ℕ} {wait : Bool} {fd : ℕ} (calls_eq : calls = [.connect i wait (.connected fd)])
      (pools : ∀ i, q.config.pool i = p.config.pool i) (idle : p.stream.socket < 0)
      (socket : q.stream.socket = fd)
  | refused {i : ℕ} {wait : Bool} {fd : ℕ}
      (calls_eq : calls = [.connect i wait (.refused fd), .close fd])
      (pools : ∀ i, q.config.pool i = p.config.pool i) (idle : p.stream.socket < 0)
      (socket : q.stream.socket < 0)
  | closed (opens : ∀ call ∈ calls, call.opens = none) (closes : closesOf calls = [p.stream.socket])
      (pools : ∀ i, q.config.pool i = p.config.pool i) (open_ : 0 ≤ p.stream.socket)
      (socket : q.stream.socket < 0)
  | popped {i fd : ℕ} (calls_eq : calls = []) (pool : p.config.pool i = fd :: q.config.pool i)
      (pools : SamePools p.config q.config i) (idle : p.stream.socket < 0)
      (socket : q.stream.socket = fd)
  | drained {i : ℕ} (lock_eq : lock = some i) (opens : ∀ call ∈ calls, call.opens = none)
      (closes : closesOf calls = (p.config.pool i).map fun fd : ℕ => (fd : ℤ))
      (pool : q.config.pool i = []) (pools : SamePools p.config q.config i)
      (socket : q.stream.socket = p.stream.socket)
  | pushed {i : ℕ} (calls_eq : calls = [])
      (pool : q.config.pool i = p.stream.socket.toNat :: p.config.pool i)
      (pools : SamePools p.config q.config i) (open_ : 0 ≤ p.stream.socket)
      (room : (p.config.pool i).length < (p.config.srun i).maxSockets)
      (socket : q.stream.socket < 0)

/-- A part of the entries that an assignment leaves alone. -/
theorem part_modifySrun {α : Type} (part : Srun → α) (config : Config) (i j : ℕ)
    {f : Srun → Srun} (hf : ∀ srun, part (f srun) = part srun) :
    part ((config.modifySrun i f).srun j) = part (config.srun j) := by
  unfold Config.srun
  rw [List.getD_eq_getElem?_getD, List.getD_eq_getElem?_getD, srunList_modifySrun]
  split
  · cases config.srunList[j]? with
    | none => rfl
    | some srun => exact hf srun
  · rfl

theorem pool_modifySrun (config : Config) (i j : ℕ) {f : Srun → Srun}
    (hf : ∀ srun, (f srun).sockets = srun.sockets) :
    (config.modifySrun i f).pool j = config.pool j := part_modifySrun Srun.sockets config i j hf

theorem pool_modifySrun_of_ne (config : Config) {i j : ℕ} (h : j ≠ i) (f : Srun → Srun) :
    (config.modifySrun i f).pool j = config.pool j := by
  unfold Config.pool Config.srun
  rw [List.getD_eq_getElem?_getD, List.getD_eq_getElem?_getD, srunList_modifySrun, if_neg h.symm]

/-- An srun with something to tell it from a cleared one is in the table. -/
theorem pool_modifySrun_self (config : Config) {i : ℕ} (h : config.srun i ≠ .zero)
    (f : Srun → Srun) : (config.modifySrun i f).pool i = (f (config.srun i)).sockets := by
  unfold Config.pool Config.srun at *
  rw [List.getD_eq_getElem?_getD] at h
  rw [List.getD_eq_getElem?_getD, List.getD_eq_getElem?_getD, srunList_modifySrun, if_pos rfl]
  cases hentry : config.srunList[i]? with
  | none =>
      rw [hentry] at h
      exact absurd rfl h
  | some srun => rfl

theorem pool_settle (p : Child) (i j : ℕ) (t : UInt32) :
    (p.settle i t).config.pool j = p.config.pool j :=
  pool_modifySrun p.config i j (settle_sockets t)

theorem srun_ne_zero {config : Config} {i : ℕ} (h : config.pool i ≠ []) :
    config.srun i ≠ .zero := by
  intro heq
  apply h
  rw [Config.pool, heq]
  rfl

/-- The sends of a pool may fail, and its sockets are closed all the same. -/
theorem drainPool_calls (sockets : List ℕ) (os : Os) :
    ∃ calls, (drainPool sockets os).trace = os.trace ++ calls ∧
      (∀ call ∈ calls, call.opens = none) ∧
      closesOf calls = sockets.map fun fd : ℕ => (fd : ℤ) := by
  induction sockets generalizing os with
  | nil => exact ⟨[], (List.append_nil _).symm, by simp, rfl⟩
  | cons socket sockets ih =>
      obtain ⟨calls, htrace, hopens, hcloses⟩ := ih ((os.send socket closePacket).2.close socket)
      obtain ⟨sent, hsent, hsends⟩ : ∃ sent, (os.send socket closePacket).2.trace =
          os.trace ++ sent ∧ ∀ call ∈ sent, ∃ bytes, call = .send (socket : ℤ) bytes := by
        unfold Os.send
        split
        · exact ⟨[], (List.append_nil _).symm, by simp⟩
        · split
          · exact ⟨_, rfl, by simp⟩
          · exact ⟨_, rfl, by simp⟩
          · exact ⟨[], (List.append_nil _).symm, by simp⟩
      have hnone : closesOf sent = [] := by
        refine List.filterMap_eq_nil_iff.mpr fun call hcall => ?_
        obtain ⟨bytes, rfl⟩ := hsends call hcall
        rfl
      refine ⟨sent ++ .close (socket : ℤ) :: calls, ?_, ?_, ?_⟩
      · rw [drainPool, htrace, Os.close, hsent, List.append_assoc, List.append_assoc]
        rfl
      · intro call hcall
        rcases List.mem_append.mp hcall with hmem | hmem
        · obtain ⟨bytes, rfl⟩ := hsends call hmem
          rfl
        · rcases List.mem_cons.mp hmem with rfl | hmem
          · rfl
          · exact hopens call hmem
      · have hcons : closesOf (.close (socket : ℤ) :: calls) = (socket : ℤ) :: closesOf calls := rfl
        rw [closesOf_append, hnone, hcons, hcloses]
        rfl

/-- What `cse_reuse_socket` closes when it finds nothing to reuse: the pool. -/
theorem reuse_closes {i : ℕ} {t : UInt32} {p : Child} (hu : ¬ (p.config.srun i).Usable t)
    (htrace : p.os.trace = []) :
    (∀ call ∈ (cseReuseSocket i t p).2.os.trace, call.opens = none) ∧
      closesOf (cseReuseSocket i t p).2.os.trace =
        (p.config.pool i).map fun fd : ℕ => (fd : ℤ) := by
  rw [cseReuseSocket_of_not_usable hu]
  by_cases hnil : (p.config.srun i).sockets = []
  · simp only [if_pos hnil]
    change (∀ call ∈ p.os.trace, _) ∧ closesOf p.os.trace = _
    rw [htrace, Config.pool, hnil]
    exact ⟨by simp, rfl⟩
  · simp only [if_neg hnil]
    obtain ⟨calls, hcalls, hopens, hcloses⟩ :=
      drainPool_calls ((p.settle i t).config.srun i).sockets (p.settle i t).os
    have hos : ((p.settle i t).emptyPool i).os.trace = calls := by
      change (drainPool _ (p.settle i t).os).trace = _
      rw [hcalls]
      change p.os.trace ++ calls = calls
      rw [htrace, List.nil_append]
    rw [hos]
    exact ⟨hopens, hcloses.trans (congrArg _ (pool_settle p i i t))⟩

theorem moves_reuse (i : ℕ) (t : UInt32) {p : Child} (hidle : p.stream.socket < 0)
    (htrace : p.os.trace = []) :
    Moves (some i) p (cseReuseSocket i t p).2 (cseReuseSocket i t p).2.os.trace := by
  by_cases hu : (p.config.srun i).Usable t
  · rw [cseReuseSocket_of_usable hu]
    obtain ⟨fd, rest, hpool⟩ := List.exists_cons_of_ne_nil (List.length_pos_iff.mp hu.1)
    have hpool' : (p.settle i t).config.pool i = fd :: rest := (pool_settle p i i t).trans hpool
    have hzero := srun_ne_zero (show (p.settle i t).config.pool i ≠ [] by rw [hpool']; simp)
    refine @Moves.popped _ _ _ _ i fd htrace ?_ ?_ hidle ?_
    · change p.config.pool i = fd :: Config.pool (Config.modifySrun _ _ _) i
      rw [pool_modifySrun_self _ hzero]
      change _ = fd :: ((p.settle i t).config.pool i).tail
      rw [hpool']
      exact hpool
    · intro j hj
      exact (pool_modifySrun_of_ne _ hj _).trans (pool_settle p i j t)
    · change (((p.settle i t).config.pool i).headD 0 : ℤ) = fd
      rw [hpool']
      rfl
  · obtain ⟨hopens, hcloses⟩ := reuse_closes hu htrace
    rw [cseReuseSocket_of_not_usable hu] at hopens hcloses ⊢
    by_cases hnil : (p.config.srun i).sockets = []
    · simp only [if_pos hnil] at hopens hcloses ⊢
      refine .stay (fun j => pool_settle p i j t) (Or.inl rfl) hopens ?_
      rw [hcloses, Config.pool, hnil]
      simp
    · simp only [if_neg hnil] at hopens hcloses ⊢
      have hzero := srun_ne_zero (show (p.settle i t).config.pool i ≠ [] by
        rw [pool_settle]
        exact hnil)
      refine @Moves.drained _ _ _ _ i rfl hopens hcloses ?_ ?_ rfl
      · exact pool_modifySrun_self _ hzero _
      · intro j hj
        exact (pool_modifySrun_of_ne _ hj _).trans (pool_settle p i j t)

theorem moves_dial (dial : Dial) (i : ℕ) (wait : Bool) {p : Child} (hidle : p.stream.socket < 0)
    (htrace : p.os.trace = []) :
    Moves none p (cseOpen dial i wait p).2 (cseOpen dial i wait p).2.os.trace := by
  rw [cseOpen_eq]
  have hpools : ∀ j, (p.config.modifySrun i fun srun =>
      if srun.port ≤ 0 then { srun with port := defaultPort } else srun).pool j =
      p.config.pool j := by
    intro j
    refine pool_modifySrun p.config i j fun srun => ?_
    split <;> rfl
  cases hresult : dial i wait with
  | noSocket =>
      refine .stay hpools (Or.inr ⟨hidle, Int.negSucc_lt_zero 0⟩) ?_ ?_
      · simp [connectSocket, htrace, SysCall.opens]
      · simp [connectSocket, htrace, closesOf, SysCall.closes]
  | connected fd =>
      refine @Moves.opened _ _ _ _ i wait fd ?_ hpools hidle rfl
      simp [connectSocket, htrace]
  | refused fd =>
      refine @Moves.refused _ _ _ _ i wait fd ?_ hpools hidle (Int.negSucc_lt_zero 0)
      simp [connectSocket, htrace, Os.close]

/-! ## Operations on a stream -/

/-- Nothing but sends, on the socket that the stream keeps. -/
def OnlySends (c c' : Conn) : Prop :=
  c'.stream.socket = c.stream.socket ∧ ∃ calls, c'.os.trace = c.os.trace ++ calls ∧
    ∀ call ∈ calls, ∃ fd bytes, call = .send fd bytes

theorem OnlySends.of_trace {c c' : Conn} (hsocket : c'.stream.socket = c.stream.socket)
    (htrace : c'.os.trace = c.os.trace) : OnlySends c c' :=
  ⟨hsocket, [], by rw [htrace, List.append_nil], by simp⟩

theorem OnlySends.trans {c c' c'' : Conn} (h : OnlySends c c') (h' : OnlySends c' c'') :
    OnlySends c c'' := by
  obtain ⟨hsocket, calls, htrace, hcalls⟩ := h
  obtain ⟨hsocket', calls', htrace', hcalls'⟩ := h'
  refine ⟨hsocket'.trans hsocket, calls ++ calls', ?_, ?_⟩
  · rw [htrace', htrace, List.append_assoc]
  · intro call hcall
    rcases List.mem_append.mp hcall with hmem | hmem
    · exact hcalls call hmem
    · exact hcalls' call hmem

theorem onlySends_send (c : Conn) (bytes : List Byte) : OnlySends c (c.send bytes).2 := by
  refine ⟨rfl, ?_⟩
  rcases send_cases c bytes with ⟨-, htrace⟩ | ⟨-, taken, -, -, htrace⟩
  · exact ⟨[], by rw [htrace, List.append_nil], by simp⟩
  · exact ⟨_, htrace, by simp⟩

theorem onlySends_offered (c : Conn) : OnlySends c c.offered :=
  (onlySends_send c c.stream.writeBuf).trans (.of_trace rfl rfl)

theorem onlySends_flush (c : Conn) : OnlySends c (cseFlush c).2 := by
  by_cases hnil : c.stream.writeBuf = []
  · rw [cseFlush_of_nil hnil]
    exact .of_trace rfl rfl
  · rw [cseFlush_of_ne hnil]
    split
    · exact onlySends_send c _
    · exact (onlySends_send c _).trans (.of_trace rfl rfl)

/-- An operation sends something, and then it may close the socket. -/
def SendsOrCloses (c c' : Conn) : Prop :=
  OnlySends c c' ∨ ∃ d, OnlySends c d ∧ c' = cseClose d

theorem sendsOrCloses_sendNothing {c d : Conn} (h : OnlySends c d) :
    SendsOrCloses c (sendNothing d) := by
  have hsend := h.trans (onlySends_send d [])
  unfold sendNothing
  split
  · exact Or.inr ⟨_, hsend, rfl⟩
  · exact Or.inl hsend

theorem sendsOrCloses_write (c : Conn) (buf : List Byte) : SendsOrCloses c (cseWrite c buf) := by
  by_cases hroom : c.stream.writeLength + buf.length ≤ bufLength
  · rw [cseWrite_of_room hroom]
    exact Or.inl (.of_trace rfl rfl)
  by_cases hnil : c.stream.writeBuf = []
  · rw [cseWrite_of_nil hnil (by rw [Stream.writeLength, hnil] at hroom; simpa using hroom)]
    exact sendsOrCloses_sendNothing (.of_trace rfl rfl)
  · rw [cseWrite_of_full hnil hroom]
    split
    · exact Or.inr ⟨_, onlySends_offered c, rfl⟩
    · split
      · exact Or.inl ((onlySends_offered c).trans (.of_trace rfl rfl))
      · exact sendsOrCloses_sendNothing (onlySends_offered c)

theorem sendsOrCloses_exec (op : StreamOp) (c : Conn) : SendsOrCloses c (op.exec c) := by
  cases op with
  | write buf => exact sendsOrCloses_write c buf
  | flush => exact Or.inl (onlySends_flush c)
  | fill =>
      have hrecv := (onlySends_flush c).trans
        (OnlySends.of_trace (recv_writing (cseFlush c).2).1 (recv_writing (cseFlush c).2).2.2)
      simp only [StreamOp.exec, cseFillBuffer]
      split
      · exact Or.inl (.of_trace rfl rfl)
      · split
        · exact Or.inl (onlySends_flush c)
        · split
          · exact Or.inr ⟨_, hrecv, rfl⟩
          · exact Or.inl hrecv
  | skip n => exact Or.inl (.of_trace rfl rfl)
  | close => exact Or.inr ⟨c, .of_trace rfl rfl, rfl⟩

theorem sends_quiet {calls : List SysCall} (h : ∀ call ∈ calls, ∃ fd bytes, call = .send fd bytes) :
    (∀ call ∈ calls, call.opens = none) ∧ closesOf calls = [] := by
  constructor
  · intro call hcall
    obtain ⟨fd, bytes, rfl⟩ := h call hcall
    rfl
  · refine List.filterMap_eq_nil_iff.mpr fun call hcall => ?_
    obtain ⟨fd, bytes, rfl⟩ := h call hcall
    rfl

theorem moves_op (op : StreamOp) {p : Child} (htrace : p.os.trace = []) :
    Moves none p (p.withConn (op.exec p.conn)) (op.exec p.conn).os.trace := by
  have hstart : p.conn.os.trace = [] := htrace
  rcases sendsOrCloses_exec op p.conn with ⟨hsocket, calls, hcalls, hsends⟩ | ⟨d, hd, hclose⟩
  · obtain ⟨hopens, hcloses⟩ := sends_quiet hsends
    rw [hcalls, hstart, List.nil_append]
    exact .stay (fun _ => rfl) (Or.inl hsocket) hopens (by simp [hcloses])
  · obtain ⟨hsocket, calls, hcalls, hsends⟩ := hd
    obtain ⟨hopens, hcloses⟩ := sends_quiet hsends
    have hall : (op.exec p.conn).os.trace = calls ++ [.close p.stream.socket] := by
      rw [hclose]
      change d.os.trace ++ [.close d.stream.socket] = _
      rw [hcalls, hsocket, hstart]
      rfl
    have hneg : (p.withConn (op.exec p.conn)).stream.socket < 0 := by
      rw [hclose]
      exact Int.negSucc_lt_zero 0
    have hopens' : ∀ call ∈ calls ++ [.close p.stream.socket], call.opens = none := by
      intro call hcall
      rcases List.mem_append.mp hcall with hmem | hmem
      · exact hopens call hmem
      · rw [List.mem_singleton.mp hmem]
        rfl
    have hcloses' : closesOf (calls ++ [.close p.stream.socket]) = [p.stream.socket] := by
      rw [closesOf_append, hcloses]
      rfl
    rw [hall]
    by_cases hidle : p.stream.socket < 0
    · refine .stay (fun _ => rfl) (Or.inr ⟨hidle, hneg⟩) hopens' ?_
      rw [hcloses']
      simpa using hidle
    · exact .closed hopens' hcloses' (fun _ => rfl) (Int.not_lt.mp hidle) hneg

theorem moves_store {p : Child} {i : ℕ} (h : p.storable = some i) (htrace : p.os.trace = []) :
    Moves none p (p.stored i) (p.stored i).os.trace := by
  obtain ⟨-, hdec⟩ := Option.filter_eq_some_iff.mp h
  obtain ⟨hopen, -, hroom⟩ := of_decide_eq_true hdec
  have hzero : p.config.srun i ≠ .zero := by
    intro heq
    rw [heq] at hroom
    exact absurd hroom (by decide)
  refine @Moves.pushed _ _ _ _ i htrace ?_ ?_ hopen hroom (Int.negSucc_lt_zero 0)
  · exact pool_modifySrun_self p.config hzero _
  · intro j hj
    exact pool_modifySrun_of_ne p.config hj _

/-- An action that only writes other fields of the table. -/
theorem moves_mark {p q : Child} (hpools : ∀ i, q.config.pool i = p.config.pool i)
    (hsocket : q.stream.socket = p.stream.socket) (htrace : q.os.trace = []) :
    Moves none p q q.os.trace := by
  rw [htrace]
  exact .stay hpools (Or.inl hsocket) (by simp) (by simp [closesOf])

/-- The srun whose pool an action may close. -/
def Act.lock : Act → Option ℕ
  | reuse i _ => some i
  | _ => none

/-- What an action can do with descriptors. -/
theorem act_moves (dial : Dial) (a : Act) {p : Child} (hguard : a.Guard p.stream)
    (htrace : p.os.trace = []) :
    Moves a.lock p (a.exec dial p).2 (a.exec dial p).2.os.trace := by
  cases a with
  | clear =>
      change Moves none p { p with stream := p.stream.clear none } p.os.trace
      rw [htrace]
      exact .stay (fun _ => rfl) (Or.inr ⟨hguard, Int.negSucc_lt_zero 0⟩) (by simp)
        (by simp [closesOf])
  | reuse i t => exact moves_reuse i t hguard htrace
  | dial i wait => exact moves_dial dial i wait hguard htrace
  | use i t => exact moves_mark (fun j => pool_modifySrun p.config i j fun _ => rfl) rfl htrace
  | bury i t => exact moves_mark (fun j => pool_modifySrun p.config i j fun _ => rfl) rfl htrace
  | op op => exact moves_op op htrace
  | store =>
      cases hstorable : p.storable with
      | some i =>
          have hexec : Act.store.exec dial p = (true, p.stored i) := by simp [Act.exec, hstorable]
          rw [hexec]
          exact moves_store hstorable htrace
      | none =>
          have hexec : Act.store.exec dial p = (false, p) := by simp [Act.exec, hstorable]
          rw [hexec]
          exact moves_mark (fun _ => rfl) rfl htrace

/-! ## The child that ends -/

theorem pool_giveUpPool (order : List ℕ → List ℕ) (p : Child) (i j : ℕ) :
    (giveUpPool order p i).config.pool j = if j = i then [] else p.config.pool j := by
  by_cases hj : j = i
  · subst hj
    rw [if_pos rfl]
    by_cases hzero : p.config.srun j = .zero
    · have hnil : p.config.pool j = [] := by rw [Config.pool, hzero]; rfl
      unfold giveUpPool Config.pool Config.srun at *
      rw [List.getD_eq_getElem?_getD] at hnil ⊢
      rw [srunList_modifySrun, if_pos rfl]
      cases p.config.srunList[j]? with
      | none => rfl
      | some srun => rfl
    · exact pool_modifySrun_self _ hzero _
  · rw [if_neg hj]
    exact pool_modifySrun_of_ne _ hj _

/-- Giving up pools one after the other, whatever becomes of the sends. -/
theorem giveUpPools_calls {is : List ℕ} (hnodup : is.Nodup) (p : Child) :
    ∃ calls, (is.foldl (giveUpPool id) p).os.trace = p.os.trace ++ calls ∧
      (∀ call ∈ calls, call.opens = none) ∧
      closesOf calls = (is.flatMap p.config.pool).map (fun fd : ℕ => (fd : ℤ)) ∧
      ∀ j, (is.foldl (giveUpPool id) p).config.pool j =
        if j ∈ is then [] else p.config.pool j := by
  induction is generalizing p with
  | nil => exact ⟨[], (List.append_nil _).symm, by simp, rfl, by simp⟩
  | cons i is ih =>
      rw [List.nodup_cons] at hnodup
      obtain ⟨calls, htrace, hopens, hcloses, hpools⟩ := ih hnodup.2 (giveUpPool id p i)
      obtain ⟨first, hfirst, hopens', hcloses'⟩ := drainPool_calls (p.config.srun i).sockets p.os
      have hrest : is.flatMap (giveUpPool id p i).config.pool = is.flatMap p.config.pool := by
        refine List.flatMap_congr fun j hj => ?_
        rw [pool_giveUpPool, if_neg (ne_of_mem_of_not_mem hj hnodup.1)]
      refine ⟨first ++ calls, ?_, ?_, ?_, fun j => ?_⟩
      · rw [List.foldl_cons, htrace]
        change (drainPool (p.config.srun i).sockets p.os).trace ++ calls = _
        rw [hfirst, List.append_assoc]
      · intro call hcall
        rcases List.mem_append.mp hcall with hmem | hmem
        · exact hopens' call hmem
        · exact hopens call hmem
      · rw [closesOf_append, hcloses', hcloses, hrest, List.flatMap_cons, List.map_append]
        rfl
      · rw [List.foldl_cons, hpools, pool_giveUpPool]
        by_cases hj : j ∈ is
        · rw [if_pos hj, if_pos (List.mem_cons_of_mem i hj)]
        · by_cases hji : j = i
          · subst hji
            simp
          · rw [if_neg hj, if_neg hji, if_neg (by simp [hj, hji])]

/-- What `cse_close_child` does with descriptors. -/
theorem closeChild_calls {p : Child} (htrace : p.os.trace = []) :
    (∀ call ∈ (cseCloseChild p).os.trace, call.opens = none) ∧
      closesOf (cseCloseChild p).os.trace =
        ((List.range p.config.srunSize).flatMap p.config.pool).map (fun fd : ℕ => (fd : ℤ)) ∧
      ∀ j, (cseCloseChild p).config.pool j =
        if j < p.config.srunSize then [] else p.config.pool j := by
  obtain ⟨calls, hcalls, hopens, hcloses, hpools⟩ :=
    giveUpPools_calls (@List.nodup_range p.config.srunSize) p
  rw [htrace, List.nil_append] at hcalls
  unfold cseCloseChild
  rw [hcalls]
  exact ⟨hopens, hcloses, fun j => by rw [hpools]; simp⟩

/-! ## The bounds of the pools -/

theorem maxSockets_exec (dial : Dial) (a : Act) (p : Child) (j : ℕ) :
    ((a.exec dial p).2.config.srun j).maxSockets = (p.config.srun j).maxSockets := by
  have hsame : ∀ (config : Config) (i : ℕ) {f : Srun → Srun},
      (∀ srun, (f srun).maxSockets = srun.maxSockets) →
      ((config.modifySrun i f).srun j).maxSockets = (config.srun j).maxSockets :=
    fun config i _ hf => part_modifySrun Srun.maxSockets config i j hf
  have hsettle : ∀ i t, ((p.settle i t).config.srun j).maxSockets =
      (p.config.srun j).maxSockets := by
    intro i t
    refine hsame p.config i fun srun => ?_
    unfold Srun.settle
    split <;> rfl
  cases a with
  | clear => rfl
  | reuse i t =>
      change ((cseReuseSocket i t p).2.config.srun j).maxSockets = _
      by_cases hu : (p.config.srun i).Usable t
      · rw [cseReuseSocket_of_usable hu]
        refine Eq.trans (hsame _ i ?_) (hsettle i t)
        exact fun _ => rfl
      · rw [cseReuseSocket_of_not_usable hu]
        simp only
        split
        · exact hsettle i t
        · refine Eq.trans (hsame _ i ?_) (hsettle i t)
          exact fun _ => rfl
  | dial i wait =>
      change ((cseOpen dial i wait p).2.config.srun j).maxSockets = _
      rw [cseOpen_eq]
      refine hsame p.config i fun srun => ?_
      split <;> rfl
  | use i t => exact hsame p.config i fun _ => rfl
  | bury i t => exact hsame p.config i fun _ => rfl
  | op op => rfl
  | store =>
      simp only [Act.exec]
      split
      · exact hsame p.config _ fun _ => rfl
      · rfl

/-- Giving up pools changes nothing but the pools. -/
theorem part_giveUpPools {α : Type} (part : Srun → α)
    (hpart : ∀ srun : Srun, part { srun with sockets := [] } = part srun) (is : List ℕ)
    (p : Child) (j : ℕ) :
    part ((is.foldl (giveUpPool id) p).config.srun j) = part (p.config.srun j) := by
  induction is generalizing p with
  | nil => rfl
  | cons i is ih =>
      rw [List.foldl_cons, ih]
      exact part_modifySrun part p.config i j hpart

/-- A pool grows only where there is room. -/
theorem Moves.bounds {lock : Option ℕ} {p q : Child} {calls : List SysCall}
    (h : Moves lock p q calls)
    (hbounds : ∀ i, (p.config.pool i).length ≤ (p.config.srun i).maxSockets) (j : ℕ) :
    (q.config.pool j).length ≤ (p.config.srun j).maxSockets := by
  cases h with
  | stay pools => rw [pools]; exact hbounds j
  | opened _ pools => rw [pools]; exact hbounds j
  | refused _ pools => rw [pools]; exact hbounds j
  | closed _ _ pools => rw [pools]; exact hbounds j
  | @popped i fd _ pool pools =>
      by_cases hj : j = i
      · subst hj
        have := hbounds j
        rw [pool, List.length_cons] at this
        omega
      · rw [pools j hj]
        exact hbounds j
  | @drained i _ _ _ pool pools =>
      by_cases hj : j = i
      · subst hj
        rw [pool]
        exact Nat.zero_le _
      · rw [pools j hj]
        exact hbounds j
  | @pushed i _ pool pools _ room =>
      by_cases hj : j = i
      · subst hj
        rw [pool, List.length_cons]
        exact room
      · rw [pools j hj]
        exact hbounds j

end ModCaucho
