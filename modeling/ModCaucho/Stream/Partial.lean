import Mathlib.Data.List.Induction
import ModCaucho.Stream.Ops

/-!
# Short sends

A stream accounts for what was written to it if the socket has accepted a prefix of it
and, while it is open, the rest is in `write_buf`. A `send` that takes only a part breaks
this: `cse_write` drops the part that was not taken, and `cse_flush` keeps the part that
was. Every other step keeps the account, so a run does exactly when none of its steps
meets such a `send`.
-/

namespace ModCaucho

open Framing

/-- The bytes that operations write. -/
def writtenBy (ops : List StreamOp) : List Byte := (ops.filterMap StreamOp.written?).flatten

/-- The socket `fd` has accepted a prefix of `bytes`, behind what it has accepted before,
and while it is open the rest of them is in the write buffer. -/
def Accounts (fd : ℤ) (before bytes : List Byte) (c : Conn) : Prop :=
  ∃ accepted, sentOn fd c.os.trace = before ++ accepted ∧ accepted <+: bytes ∧
    (0 ≤ c.stream.socket → accepted ++ c.stream.writeBuf = bytes)

/-- `send` takes all of the buffer or fails. -/
def SendsWhole (c : Conn) : Prop :=
  (c.send c.stream.writeBuf).1 < 0 ∨ (c.send c.stream.writeBuf).1 = c.stream.writeLength

/-- What the account asks of a step. A write that has to make room may not meet a short
`send`, and one that is longer than the buffer has to fail. A flush may also meet a `send`
that takes nothing. -/
def KeepsAccount : StreamOp → Conn → Prop
  | .write buf, c =>
      c.stream.writeLength + buf.length ≤ bufLength ∨
        if buf.length ≤ bufLength then SendsWhole c
        else (c.send c.stream.writeBuf).1 < 0 ∨
          c.stream.writeBuf ≠ [] ∧ ((c.send c.stream.writeBuf).2.send []).1 < 0
  | .flush, c => SendsWhole c ∨ (c.send c.stream.writeBuf).1 = 0
  | .fill, c => SendsWhole c ∨ (c.send c.stream.writeBuf).1 = 0
  | .skip _, _ => True
  | .close, _ => True

/-- `send` fails, or it takes some of the bytes from their front. -/
theorem send_cases (c : Conn) (bytes : List Byte) :
    ((c.send bytes).1 = -1 ∧ (c.send bytes).2.os.trace = c.os.trace) ∨
      0 ≤ c.stream.socket ∧ ∃ taken, taken <+: bytes ∧ (c.send bytes).1 = taken.length ∧
        (c.send bytes).2.os.trace = c.os.trace ++ [.send c.stream.socket taken] := by
  by_cases hclosed : c.stream.socket < 0
  · simp [Conn.send, Os.send, hclosed]
  · have hopen := Int.not_lt.mp hclosed
    simp only [Conn.send, Os.send, if_neg hclosed]
    cases c.os.sends with
    | nil => exact Or.inr ⟨hopen, bytes, List.prefix_refl bytes, rfl, rfl⟩
    | cons result sends =>
        cases result with
        | accepts n => exact Or.inr ⟨hopen, bytes.take n, List.take_prefix n bytes, rfl, rfl⟩
        | failed => exact Or.inl ⟨rfl, rfl⟩

section

variable {fd : ℤ} {before bytes buf : List Byte} {c : Conn}

/-- On a closed socket there is nothing to account for any more. -/
theorem Accounts.of_closed {c' : Conn} (h : Accounts fd before bytes c)
    (hsent : sentOn fd c'.os.trace = sentOn fd c.os.trace) (hclosed : c'.stream.socket < 0)
    (buf : List Byte) : Accounts fd before (bytes ++ buf) c' := by
  obtain ⟨accepted, haccepted, hfront, -⟩ := h
  refine ⟨accepted, hsent.trans haccepted, hfront.trans (List.prefix_append _ _), ?_⟩
  omega

theorem accounts_append (h : Accounts fd before bytes c) :
    Accounts fd before (bytes ++ buf) (c.append buf) := by
  obtain ⟨accepted, haccepted, hfront, hrest⟩ := h
  refine ⟨accepted, haccepted, hfront.trans (List.prefix_append _ _), fun hopen => ?_⟩
  rw [← hrest hopen, List.append_assoc]
  rfl

/-- What `send` takes off the write buffer. -/
theorem sendsWhole_iff {taken : List Byte} (hlen : (c.send c.stream.writeBuf).1 = taken.length)
    (htaken : taken <+: c.stream.writeBuf) : SendsWhole c ↔ taken = c.stream.writeBuf := by
  unfold SendsWhole
  rw [hlen, Stream.writeLength, Int.ofNat_inj]
  constructor
  · rintro (hneg | hall)
    · omega
    · exact htaken.eq_of_length hall
  · rintro rfl
    exact Or.inr rfl

/-- After a `send` of the write buffer the socket has accepted what it took. -/
theorem sentOn_send {taken : List Byte} {c' : Conn} (hfd : c.stream.socket = fd)
    (htrace : c'.os.trace = c.os.trace ++ [.send c.stream.socket taken]) :
    sentOn fd c'.os.trace = sentOn fd c.os.trace ++ taken := by
  rw [htrace, sentOn_append, hfd]
  simp [sentOn]

/-- The account of a stream whose write buffer was given to `send` and whose bytes were
replaced by the ones that are kept. -/
theorem accounts_send_iff {taken kept : List Byte} {c' : Conn} (hfd : 0 ≤ fd)
    (hsocket : c.stream.socket = fd) (h : Accounts fd before bytes c)
    (htaken : taken <+: c.stream.writeBuf)
    (hsent : sentOn fd c'.os.trace = sentOn fd c.os.trace ++ taken)
    (hsame : c'.stream.socket = fd) (hkept : c'.stream.writeBuf = kept) :
    Accounts fd before (bytes ++ buf) c' ↔ taken ++ kept = c.stream.writeBuf ++ buf := by
  obtain ⟨accepted, haccepted, hfront, hrest⟩ := h
  have hbytes := hrest (by omega)
  rw [haccepted, List.append_assoc] at hsent
  constructor
  · rintro ⟨accepted', haccepted', -, hrest'⟩
    have heq := hrest' (by omega)
    rw [hsent] at haccepted'
    rw [← List.append_cancel_left haccepted', hkept, ← hbytes, List.append_assoc,
      List.append_assoc] at heq
    exact List.append_cancel_left heq
  · intro heq
    refine ⟨accepted ++ taken, hsent, ?_, fun _ => ?_⟩
    · rw [← hbytes, List.append_assoc]
      exact (List.prefix_append_right_inj _).mpr (htaken.trans (List.prefix_append _ _))
    · rw [hkept, List.append_assoc, heq, ← hbytes, List.append_assoc]

/-! ## Flushing -/

theorem cseFlush_of_nil (h : c.stream.writeBuf = []) : cseFlush c = (0, c) := by
  simp [cseFlush, Stream.writeLength, h]

theorem cseFlush_of_ne (h : c.stream.writeBuf ≠ []) :
    cseFlush c =
      if (c.send c.stream.writeBuf).1 ≠ c.stream.writeLength then (-1, (c.send c.stream.writeBuf).2)
      else (0, { (c.send c.stream.writeBuf).2 with
        stream := { c.stream with writeBuf := [] } }) := by
  have hpos : c.stream.writeLength > 0 := List.length_pos_iff.mpr h
  rw [cseFlush, if_pos hpos]
  rfl

/-- A flush that fails leaves the socket and the buffer as they are. -/
theorem cseFlush_socket : (cseFlush c).2.stream.socket = c.stream.socket := by
  unfold cseFlush
  split
  · simp only
    split <;> rfl
  · rfl

theorem send_nil_le : (c.send []).1 ≤ 0 := by
  rcases send_cases c [] with ⟨hfst, -⟩ | ⟨-, taken, htaken, hfst, -⟩
  · rw [hfst]
    decide
  · rw [hfst, List.prefix_nil.mp htaken]
    decide

/-- A flush keeps the account unless the `send` takes some of the bytes but not all. -/
theorem accounts_flush_iff (hfd : 0 ≤ fd) (hsocket : c.stream.socket = fd ∨ c.stream.socket < 0)
    (h : Accounts fd before bytes c) :
    Accounts fd before bytes (cseFlush c).2 ↔
      SendsWhole c ∨ (c.send c.stream.writeBuf).1 = 0 := by
  by_cases hnil : c.stream.writeBuf = []
  · rw [cseFlush_of_nil hnil]
    refine iff_of_true h ?_
    have := @send_nil_le c
    rw [SendsWhole, hnil]
    omega
  rw [cseFlush_of_ne hnil]
  rcases send_cases c c.stream.writeBuf with ⟨hfst, htrace⟩ | ⟨hopen, taken, htaken, hfst, htrace⟩
  · have hshort : (c.send c.stream.writeBuf).1 ≠ (c.stream.writeLength : ℤ) := by omega
    rw [if_pos hshort]
    refine iff_of_true ?_ (Or.inl (Or.inl (by omega)))
    obtain ⟨accepted, haccepted, hfront, hrest⟩ := h
    exact ⟨accepted, by rw [htrace, haccepted], hfront, hrest⟩
  · have hsame : c.stream.socket = fd := hsocket.resolve_right (by omega)
    have hsent := @sentOn_send fd c taken (c.send c.stream.writeBuf).2 hsame htrace
    rw [sendsWhole_iff hfst htaken, hfst]
    by_cases hall : taken = c.stream.writeBuf
    · have hcount : ¬ ((taken.length : ℤ) ≠ c.stream.writeLength) := by
        rw [hall]
        exact not_not.mpr rfl
      rw [if_neg hcount]
      refine iff_of_true ?_ (Or.inl hall)
      have hiff := @accounts_send_iff fd before bytes [] c taken []
        { (c.send c.stream.writeBuf).2 with stream := { c.stream with writeBuf := [] } }
        hfd hsame h htaken hsent hsame rfl
      rw [List.append_nil, List.append_nil, List.append_nil] at hiff
      exact hiff.mpr hall
    · have hcount : (taken.length : ℤ) ≠ c.stream.writeLength := by
        intro heq
        exact hall (htaken.eq_of_length (Int.ofNat_inj.mp heq))
      rw [if_pos hcount]
      have hiff := @accounts_send_iff fd before bytes [] c taken c.stream.writeBuf
        (c.send c.stream.writeBuf).2 hfd hsame h htaken hsent hsame rfl
      rw [List.append_nil, List.append_nil] at hiff
      rw [hiff, or_iff_right hall]
      simp

theorem recv_writing (c : Conn) :
    c.recv.stream.socket = c.stream.socket ∧ c.recv.stream.writeBuf = c.stream.writeBuf ∧
      c.recv.os.trace = c.os.trace := by
  unfold Conn.recv
  split <;> exact ⟨rfl, rfl, rfl⟩

theorem sentOn_close (fd : ℤ) (c : Conn) :
    sentOn fd (cseClose c).os.trace = sentOn fd c.os.trace := by
  change sentOn fd (c.os.trace ++ [.close c.stream.socket]) = _
  rw [sentOn_append]
  exact List.append_nil _

theorem accounts_close (h : Accounts fd before bytes c) :
    Accounts fd before bytes (cseClose c) := by
  have hclosed := h.of_closed (sentOn_close fd c) (Int.negSucc_lt_zero 0) []
  rwa [List.append_nil] at hclosed

/-- Receiving is nothing to the account. -/
theorem accounts_recv (h : Accounts fd before bytes c) : Accounts fd before bytes c.recv := by
  obtain ⟨hsocket, hbuf, htrace⟩ := recv_writing c
  unfold Accounts
  rw [hsocket, hbuf, htrace]
  exact h

theorem accounts_fill_iff (hfd : 0 ≤ fd) (hsocket : c.stream.socket = fd ∨ c.stream.socket < 0)
    (h : Accounts fd before bytes c) :
    Accounts fd before bytes (cseFillBuffer c).2 ↔
      SendsWhole c ∨ (c.send c.stream.writeBuf).1 = 0 := by
  by_cases hclosed : c.stream.socket < 0
  · have hfill : (cseFillBuffer c).2 = c := by
      rw [cseFillBuffer, if_pos hclosed]
    rw [hfill]
    refine iff_of_true h (Or.inl (Or.inl ?_))
    rcases send_cases c c.stream.writeBuf with ⟨hfst, -⟩ | ⟨hopen, -⟩ <;> omega
  rw [← accounts_flush_iff hfd hsocket h, cseFillBuffer, if_neg hclosed]
  simp only
  by_cases hfailed : (cseFlush c).1 < 0
  · rw [if_pos hfailed]
  rw [if_neg hfailed]
  -- the flush has succeeded, and what follows leaves the account alone
  have hflush : Accounts fd before bytes (cseFlush c).2 := by
    rw [accounts_flush_iff hfd hsocket h]
    by_cases hnil : c.stream.writeBuf = []
    · have := @send_nil_le c
      rw [SendsWhole, hnil]
      omega
    · rw [cseFlush_of_ne hnil] at hfailed
      by_cases hall : (c.send c.stream.writeBuf).1 = c.stream.writeLength
      · exact Or.inl (Or.inr hall)
      · rw [if_pos hall] at hfailed
        exact absurd (Int.negSucc_lt_zero 0) hfailed
  refine iff_of_true ?_ hflush
  split
  · exact accounts_close (accounts_recv hflush)
  · exact accounts_recv hflush

/-! ## Writing -/

/-- A connection after its write buffer was given to `send` and emptied. -/
def Conn.offered (c : Conn) : Conn :=
  { (c.send c.stream.writeBuf).2 with stream := { c.stream with writeBuf := [] } }

/-- The part of `cse_write` that is there to send a long buffer. -/
def sendNothing (c : Conn) : Conn :=
  if (c.send []).1 < 0 then cseClose (c.send []).2 else (c.send []).2

theorem makeRoom_of_ne (h : c.stream.writeBuf ≠ []) :
    makeRoom c = ((c.send c.stream.writeBuf).1, c.offered) := by
  have hpos : c.stream.writeLength > 0 := List.length_pos_iff.mpr h
  rw [makeRoom, if_pos hpos]
  rfl

theorem cseWrite_of_room (h : c.stream.writeLength + buf.length ≤ bufLength) :
    cseWrite c buf = c.append buf := by
  rw [cseWrite, if_neg (Nat.not_lt.mpr h)]

theorem cseWrite_of_nil (h : c.stream.writeBuf = []) (hlong : ¬ buf.length ≤ bufLength) :
    cseWrite c buf = sendNothing c := by
  have hfull : c.stream.writeLength + buf.length > bufLength := by omega
  have hroom : makeRoom c = (0, c) := by simp [makeRoom, Stream.writeLength, h]
  simp only [cseWrite, if_pos hfull, hroom, if_pos (Nat.lt_of_not_le hlong), h, sendNothing]
  rfl

theorem cseWrite_of_full (h : c.stream.writeBuf ≠ [])
    (hfull : ¬ c.stream.writeLength + buf.length ≤ bufLength) :
    cseWrite c buf =
      if (c.send c.stream.writeBuf).1 < 0 then cseClose c.offered
      else if buf.length ≤ bufLength then c.offered.append buf
      else sendNothing c.offered := by
  simp only [cseWrite, if_pos (Nat.lt_of_not_le hfull), makeRoom_of_ne h]
  split
  · rfl
  · by_cases hfits : buf.length ≤ bufLength
    · rw [if_neg (Nat.not_lt.mpr hfits), if_pos hfits]
    · rw [if_pos (Nat.lt_of_not_le hfits), if_neg hfits]
      rfl

/-- A long buffer is accounted for only if the stream is closed. -/
theorem accounts_sendNothing_iff {accepted : List Byte}
    (hsocket : c.stream.socket = fd ∨ c.stream.socket < 0) (hnil : c.stream.writeBuf = [])
    (hsent : sentOn fd c.os.trace = before ++ accepted) (hfront : accepted <+: bytes)
    (hbuf : buf ≠ []) :
    Accounts fd before (bytes ++ buf) (sendNothing c) ↔ (c.send []).1 < 0 := by
  have hfront' : accepted <+: bytes ++ buf := hfront.trans (List.prefix_append _ _)
  unfold sendNothing
  rcases send_cases c [] with ⟨hfst, htrace⟩ | ⟨hopen, taken, htaken, hfst, htrace⟩
  · have hneg : (c.send []).1 < 0 := by omega
    rw [if_pos hneg]
    refine iff_of_true ⟨accepted, ?_, hfront', ?_⟩ hneg
    · rw [sentOn_close, htrace, hsent]
    · exact fun hopen => absurd hopen (Int.not_le.mpr (Int.negSucc_lt_zero 0))
  · have hsame : c.stream.socket = fd := hsocket.resolve_right (by omega)
    obtain rfl := List.prefix_nil.mp htaken
    have hneg : ¬ (c.send []).1 < 0 := by omega
    rw [if_neg hneg]
    refine iff_of_false ?_ hneg
    rintro ⟨accepted', haccepted', -, hrest⟩
    have hall := hrest hopen
    change accepted' ++ c.stream.writeBuf = _ at hall
    rw [sentOn_send hsame htrace, hsent, List.append_nil] at haccepted'
    rw [← List.append_cancel_left haccepted', hnil, List.append_nil] at hall
    have hlen := congrArg List.length hall
    have hle := hfront.length_le
    have hpos := List.length_pos_iff.mpr hbuf
    rw [List.length_append] at hlen
    omega

theorem accounts_write_iff (hfd : 0 ≤ fd) (hsocket : c.stream.socket = fd ∨ c.stream.socket < 0)
    (h : Accounts fd before bytes c) :
    Accounts fd before (bytes ++ buf) (cseWrite c buf) ↔ KeepsAccount (.write buf) c := by
  simp only [KeepsAccount]
  by_cases hroom : c.stream.writeLength + buf.length ≤ bufLength
  · rw [cseWrite_of_room hroom]
    exact iff_of_true (accounts_append h) (Or.inl hroom)
  rw [or_iff_right hroom]
  by_cases hnil : c.stream.writeBuf = []
  · have hlong : ¬ buf.length ≤ bufLength := by
      rw [Stream.writeLength, hnil] at hroom
      simpa using hroom
    have hbuf : buf ≠ [] := by
      rintro rfl
      exact hlong (Nat.zero_le _)
    obtain ⟨accepted, hsent, hfront, -⟩ := h
    rw [cseWrite_of_nil hnil hlong, if_neg hlong, hnil,
      accounts_sendNothing_iff hsocket hnil hsent hfront hbuf]
    simp
  rw [cseWrite_of_full hnil hroom]
  have hoffered : (c.offered.send []).1 = ((c.send c.stream.writeBuf).2.send []).1 := rfl
  rcases send_cases c c.stream.writeBuf with ⟨hfst, htrace⟩ | ⟨hopen, taken, htaken, hfst, htrace⟩
  · have hneg : (c.send c.stream.writeBuf).1 < 0 := by omega
    rw [if_pos hneg]
    refine iff_of_true ?_ ?_
    · refine h.of_closed ?_ (Int.negSucc_lt_zero 0) buf
      rw [sentOn_close]
      exact congrArg (sentOn fd) htrace
    · split
      · exact Or.inl hneg
      · exact Or.inl hneg
  · have hsame : c.stream.socket = fd := hsocket.resolve_right (by omega)
    have hsent := @sentOn_send fd c taken c.offered hsame htrace
    have hneg : ¬ (c.send c.stream.writeBuf).1 < 0 := by omega
    rw [if_neg hneg]
    by_cases hfits : buf.length ≤ bufLength
    · rw [if_pos hfits, if_pos hfits, sendsWhole_iff hfst htaken,
        @accounts_send_iff fd before bytes buf c taken buf (c.offered.append buf) hfd hsame h
          htaken hsent hsame rfl, List.append_cancel_right_eq]
    · have hbuf : buf ≠ [] := by
        rintro rfl
        exact hfits (Nat.zero_le _)
      obtain ⟨accepted, haccepted, hfront, hrest⟩ := h
      have hbytes := hrest (by omega)
      rw [if_neg hfits, if_neg hfits, ← hoffered]
      have htaken' : accepted ++ taken <+: bytes := by
        rw [← hbytes]
        exact (List.prefix_append_right_inj _).mpr htaken
      have hsent' : sentOn fd c.offered.os.trace = before ++ (accepted ++ taken) := by
        rw [hsent, haccepted, List.append_assoc]
      rw [@accounts_sendNothing_iff fd before bytes buf c.offered _ (Or.inl hsame) rfl hsent'
        htaken' hbuf]
      simp [hneg, hnil]

end

/-! ## Runs -/

theorem written?_getD (op : StreamOp) :
    writtenBy [op] = (op.written?).getD [] := by
  cases op <;> simp [writtenBy, StreamOp.written?]

theorem writtenBy_append (ops ops' : List StreamOp) :
    writtenBy (ops ++ ops') = writtenBy ops ++ writtenBy ops' := by
  simp [writtenBy]

/-- One step keeps the account exactly when it meets no short `send`. -/
theorem accounts_exec_iff {fd : ℤ} {before bytes : List Byte} {c : Conn} (hfd : 0 ≤ fd)
    (hsocket : c.stream.socket = fd ∨ c.stream.socket < 0) (h : Accounts fd before bytes c)
    (op : StreamOp) :
    Accounts fd before (bytes ++ writtenBy [op]) (op.exec c) ↔ KeepsAccount op c := by
  rw [written?_getD]
  cases op with
  | write buf => exact accounts_write_iff hfd hsocket h
  | flush =>
      change Accounts fd before (bytes ++ []) (cseFlush c).2 ↔ _
      rw [List.append_nil]
      exact accounts_flush_iff hfd hsocket h
  | fill =>
      change Accounts fd before (bytes ++ []) (cseFillBuffer c).2 ↔ _
      rw [List.append_nil]
      exact accounts_fill_iff hfd hsocket h
  | skip n =>
      change Accounts fd before (bytes ++ []) _ ↔ _
      rw [List.append_nil]
      exact iff_of_true h trivial
  | close =>
      change Accounts fd before (bytes ++ []) (cseClose c) ↔ _
      rw [List.append_nil]
      exact iff_of_true (accounts_close h) trivial

theorem cseWrite_socket (c : Conn) (buf : List Byte) :
    (cseWrite c buf).stream.socket = c.stream.socket ∨ (cseWrite c buf).stream.socket < 0 := by
  have hnothing : ∀ d : Conn, (sendNothing d).stream.socket = d.stream.socket ∨
      (sendNothing d).stream.socket < 0 := by
    intro d
    unfold sendNothing
    split
    · exact Or.inr (Int.negSucc_lt_zero 0)
    · exact Or.inl rfl
  by_cases hroom : c.stream.writeLength + buf.length ≤ bufLength
  · rw [cseWrite_of_room hroom]
    exact Or.inl rfl
  by_cases hnil : c.stream.writeBuf = []
  · rw [cseWrite_of_nil hnil (by rw [Stream.writeLength, hnil] at hroom; simpa using hroom)]
    exact hnothing c
  · rw [cseWrite_of_full hnil hroom]
    split
    · exact Or.inr (Int.negSucc_lt_zero 0)
    · split
      · exact Or.inl rfl
      · exact hnothing c.offered

/-- An operation keeps the socket or closes it. -/
theorem exec_socket (op : StreamOp) (c : Conn) :
    (op.exec c).stream.socket = c.stream.socket ∨ (op.exec c).stream.socket < 0 := by
  cases op with
  | write buf => exact cseWrite_socket c buf
  | flush => exact Or.inl cseFlush_socket
  | fill =>
      simp only [StreamOp.exec, cseFillBuffer]
      split
      · exact Or.inl rfl
      · split
        · exact Or.inl cseFlush_socket
        · split
          · exact Or.inr (Int.negSucc_lt_zero 0)
          · exact Or.inl ((recv_writing _).1.trans cseFlush_socket)
  | skip n => exact Or.inl rfl
  | close => exact Or.inr (Int.negSucc_lt_zero 0)

theorem runOps_socket (ops : List StreamOp) (c : Conn) :
    (runOps ops c).stream.socket = c.stream.socket ∨ (runOps ops c).stream.socket < 0 := by
  induction ops generalizing c with
  | nil => exact Or.inl rfl
  | cons op ops ih =>
      rcases ih (op.exec c) with hsame | hclosed
      · rw [runOps_cons, hsame]
        exact exec_socket op c
      · exact Or.inr hclosed

/-- A stream accounts for what is written to it at every moment of a run. -/
def AlwaysAccounts (c : Conn) (ops : List StreamOp) : Prop :=
  ∀ pre post, ops = pre ++ post →
    Accounts c.stream.socket (sentOn c.stream.socket c.os.trace) (writtenBy pre) (runOps pre c)

/-- From an open stream with an empty write buffer, a run of `cse_write`, `cse_flush` and
the other operations keeps the account exactly when no step of it meets a short `send`. -/
theorem alwaysAccounts_iff {c : Conn} (hopen : 0 ≤ c.stream.socket)
    (hempty : c.stream.writeBuf = []) (ops : List StreamOp) :
    AlwaysAccounts c ops ↔
      ∀ pre op post, ops = pre ++ op :: post → KeepsAccount op (runOps pre c) := by
  have hstep := fun (pre : List StreamOp) (op : StreamOp)
      (h : Accounts c.stream.socket (sentOn c.stream.socket c.os.trace) (writtenBy pre)
        (runOps pre c)) => accounts_exec_iff hopen (runOps_socket pre c) h op
  have hlast : ∀ pre op, runOps (pre ++ [op]) c = op.exec (runOps pre c) := by
    intro pre op
    rw [runOps_append]
    rfl
  constructor
  · intro halways pre op post hsplit
    have hbefore := halways pre (op :: post) hsplit
    have hafter := halways (pre ++ [op]) post (by rw [hsplit, List.append_assoc]; rfl)
    rw [writtenBy_append, hlast] at hafter
    exact (hstep pre op hbefore).mp hafter
  · intro hkeeps pre
    induction pre using List.reverseRecOn with
    | nil =>
        intro post _
        exact ⟨[], (List.append_nil _).symm, List.nil_prefix, fun _ => hempty⟩
    | append_singleton pre op ih =>
        intro post hsplit
        rw [List.append_assoc] at hsplit
        rw [writtenBy_append, hlast]
        exact (hstep pre op (ih _ hsplit)).mpr (hkeeps pre op post hsplit)

/-- A stream on descriptor 3 whose sends have these results. -/
def sendingWith (sends : List SendResult) : Conn :=
  ⟨⟨some 0, 0, 3, [], 0, 0, []⟩, ⟨[], sends, [], []⟩⟩

theorem alwaysAccounts_iff_whole :
    AlwaysAccounts (sendingWith [.failed, .accepts 5]) [.write [1, 2], .flush, .flush] ↔
      ∀ pre op post, [.write [1, 2], .flush, .flush] = pre ++ op :: post →
        KeepsAccount op (runOps pre (sendingWith [.failed, .accepts 5])) :=
  alwaysAccounts_iff (by decide) rfl _

/-- A flush whose `send` takes one byte of two sends that byte again when it is repeated. -/
theorem not_alwaysAccounts_short :
    ¬ ∀ (c : Conn) (ops : List StreamOp), 0 ≤ c.stream.socket → c.stream.writeBuf = [] →
      (∀ buf, StreamOp.write buf ∈ ops → buf.length ≤ bufLength) → AlwaysAccounts c ops := by
  intro hclaim
  obtain ⟨accepted, haccepted, hfront, -⟩ :=
    hclaim (sendingWith [.accepts 1]) [.write [1, 2], .flush, .flush] (by decide) rfl
      (by simp [bufLength]) _ [] (List.append_nil _).symm
  have hsent : accepted = [1, 1, 2] := haccepted.symm
  rw [hsent] at hfront
  exact absurd hfront (by decide)

/-! ## Whole sends -/

theorem recv_sends (c : Conn) : c.recv.os.sends = c.os.sends := by
  unfold Conn.recv
  split <;> rfl

/-- An operation closes the stream, or puts what it writes behind what was written. -/
theorem exec_written {c : Conn} (h : c.Sends) (op : StreamOp) :
    (op.exec c).stream.socket < 0 ∨
      (op.exec c).Sends ∧ (op.exec c).written = c.written ++ op.written?.toList.flatMap fits := by
  cases op with
  | write buf =>
      obtain ⟨hsends, -, hwritten⟩ := cseWrite_spec h buf
      refine Or.inr ⟨hsends, hwritten.trans ?_⟩
      rw [StreamOp.written?, Option.toList_some, List.flatMap_singleton]
  | flush =>
      right
      rw [StreamOp.exec, cseFlush_eq h]
      exact ⟨h.drained, c.drained_written.trans (List.append_nil _).symm⟩
  | fill =>
      have hopen : ¬ c.stream.socket < 0 := Int.not_lt.mpr h.socket
      obtain ⟨hsocket, hbuf, htrace⟩ := recv_writing c.drained
      simp only [StreamOp.exec, cseFillBuffer, if_neg hopen, cseFlush_eq h]
      rw [if_neg (Int.lt_irrefl 0)]
      split
      · exact Or.inl (Int.negSucc_lt_zero 0)
      · refine Or.inr ⟨⟨?_, ?_⟩, ?_⟩
        · rw [hsocket]
          exact h.drained.socket
        · rw [recv_sends]
          exact h.drained.all
        · change c.drained.recv.written = c.written ++ []
          rw [List.append_nil, ← c.drained_written, Conn.written, Conn.written, hsocket, hbuf,
            htrace]
  | skip n => exact Or.inr ⟨⟨h.socket, h.all⟩, (List.append_nil _).symm⟩
  | close => exact Or.inl (Int.negSucc_lt_zero 0)

/-- What operations write that leave the stream open. -/
theorem Performs.written {bufs : List (List Byte)} {c c' : Conn} (h : Performs bufs c c')
    (hsends : c.Sends) (hopen : 0 ≤ c'.stream.socket) :
    c'.written = c.written ++ bufs.flatMap fits := by
  obtain ⟨ops, rfl, rfl⟩ := h
  induction ops generalizing c with
  | nil => exact (List.append_nil _).symm
  | cons op ops ih =>
      rw [runOps_cons] at hopen ⊢
      rcases exec_written hsends op with hclosed | ⟨hsends', hwritten⟩
      · rcases runOps_socket ops (op.exec c) with heq | hlt
        · omega
        · omega
      · rw [ih hsends' hopen, hwritten, List.append_assoc, ← List.flatMap_append]
        cases hbuf : op.written? with
        | none => rw [List.filterMap_cons_none hbuf, Option.toList_none, List.nil_append]
        | some buf =>
            rw [List.filterMap_cons_some hbuf, Option.toList_some, List.singleton_append]

end ModCaucho
