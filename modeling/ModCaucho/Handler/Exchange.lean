import ModCaucho.Handler.Relay

/-!
# The exchange of one request

`write_request` sends the body one block at a time and waits for an ACK before
every block but the first. Then it sends its END packet and relays the response
up to the runner's END. The server's bytes determine what each of these waits
hears: `hear` gives the codes up to the first END or CLOSE, and `handshake` the
bytes that the waits for ACKs leave.
-/

namespace ModCaucho

open Framing

/-! ## Writing leaves the reading side alone -/

/-- `c'` is `c` after something was written. -/
structure Writes (c c' : Conn) : Prop where
  live : c.Live → c'.Live ∧ c'.stream.socket = c.stream.socket
  closed : c.stream.socket < 0 → c'.stream.socket < 0
  unread : c'.stream.unread = c.stream.unread
  recvs : c'.os.recvs = c.os.recvs

theorem Writes.refl (c : Conn) : Writes c c := ⟨fun h => ⟨h, rfl⟩, id, rfl, rfl⟩

theorem Writes.trans {c c' c'' : Conn} (h : Writes c c') (h' : Writes c' c'') : Writes c c'' where
  live hlive := by
    obtain ⟨hlive', hsocket⟩ := h.live hlive
    obtain ⟨hlive'', hsocket'⟩ := h'.live hlive'
    exact ⟨hlive'', hsocket'.trans hsocket⟩
  closed hclosed := h'.closed (h.closed hclosed)
  unread := h'.unread.trans h.unread
  recvs := h'.recvs.trans h.recvs

theorem Writes.takes {c c' : Conn} (h : Writes c c') (hlive : c.Live) : Takes [] [] c c' where
  live := (h.live hlive).1
  socket := (h.live hlive).2
  recvs := h.recvs.symm
  bytes := by simp [h.unread]
  needed := by simp

theorem Writes.pending {c c' : Conn} (h : Writes c c') : c'.pending = c.pending := by
  rw [Conn.pending, h.unread, h.recvs, Conn.pending]

theorem send_recvs (c : Conn) (bytes : List Byte) :
    (c.send bytes).2.stream = c.stream ∧ (c.send bytes).2.os.recvs = c.os.recvs := by
  refine ⟨rfl, ?_⟩
  simp only [Conn.send, Os.send]
  split
  · rfl
  · split <;> rfl

/-- The reading side of a connection. -/
def Conn.reading (c : Conn) : List Byte × ℕ × ℤ × List RecvResult :=
  (c.stream.readBuf, c.stream.readOffset, c.stream.readLength, c.os.recvs)

theorem cseWrite_reading (c : Conn) (buf : List Byte) : (cseWrite c buf).reading = c.reading := by
  have hsend := fun c' : Conn => (send_recvs c' c'.stream.writeBuf).2
  have hroom : (makeRoom c).2.reading = c.reading := by
    unfold makeRoom
    split
    · simp only [Conn.reading, hsend]
      rfl
    · rfl
  unfold cseWrite
  split
  · simp only
    split
    · exact hroom
    · split
      · have hrest : ((makeRoom c).2.send (makeRoom c).2.stream.writeBuf).2.reading =
            (makeRoom c).2.reading := by
          simp only [Conn.reading, hsend]
          rfl
        split
        · exact hrest.trans hroom
        · exact hrest.trans hroom
      · exact hroom
  · rfl

theorem cseWrite_closed {c : Conn} (h : c.stream.socket < 0) (buf : List Byte) :
    (cseWrite c buf).stream.socket < 0 := by
  have hroom : (makeRoom c).2.stream.socket < 0 := by
    unfold makeRoom
    split <;> exact h
  unfold cseWrite
  split
  · simp only
    split
    · simp [cseClose]
    · split
      · split
        · simp [cseClose]
        · exact hroom
      · exact hroom
  · exact h

theorem writes_cseWrite (c : Conn) (buf : List Byte) : Writes c (cseWrite c buf) := by
  have hreading := cseWrite_reading c buf
  simp only [Conn.reading, Prod.mk.injEq] at hreading
  obtain ⟨hbuf, hoffset, hlength, hrecvs⟩ := hreading
  refine ⟨?_, fun h => cseWrite_closed h buf, ?_, hrecvs⟩
  · intro h
    obtain ⟨hsends, hsocket, -⟩ := cseWrite_spec h.toSends buf
    exact ⟨⟨hsends, by rw [hbuf, hlength]; exact h.buffer⟩, hsocket⟩
  · simp only [Stream.unread, Stream.buffered, hbuf, hoffset, hlength]

theorem writes_cseWritePacket (c : Conn) (code : Byte) (buf : List Byte) :
    Writes c (cseWritePacket c code buf) :=
  (writes_cseWrite c _).trans (writes_cseWrite _ buf)

theorem writes_cseWriteString (c : Conn) (code : Byte) (buf : Option (List Byte)) :
    Writes c (cseWriteString c code buf) := by
  cases buf with
  | none => exact Writes.refl c
  | some buf => exact writes_cseWritePacket c code buf

/-- The codes of the packets in the head of a request. -/
def headCodes : List Byte :=
  [cseProtocol, cseMethod, cseUri, cseQueryString, cseServerName, cseServerPort, cseRemoteHost,
    cseRemoteAddr, cseRemotePort, cseRemoteUser, cseAuthType, cseSessionGroup, cseContentType,
    cseContentLength, cseIsSecure, cseHeader, cseValue]

/-- A relation that the strings in the head of a request keep to, one after the other. -/
structure HeadSteps (R : Conn → Conn → Prop) : Prop where
  refl : ∀ c, R c c
  trans : ∀ {c c' c''}, R c c' → R c' c'' → R c c''
  write : ∀ c code buf, code ∈ headCodes → R c (cseWriteString c code buf)

section

variable {R : Conn → Conn → Prop}

theorem HeadSteps.foldl (hR : HeadSteps R) {α : Type} {f : Conn → α → Conn}
    (hf : ∀ c a, R c (f c a)) (as : List α) (c : Conn) : R c (as.foldl f c) := by
  induction as generalizing c with
  | nil => exact hR.refl c
  | cons a as ih => exact hR.trans (hf c a) (ih (f c a))

theorem HeadSteps.writeEnv (hR : HeadSteps R) (c : Conn) (session : ℕ) (r : Request) :
    R c (writeEnv c session r) := by
  unfold ModCaucho.writeEnv
  repeat' refine hR.trans ?_ (hR.write _ _ _ (by decide))
  exact hR.refl c

theorem HeadSteps.writeHeaders (hR : HeadSteps R) (c : Conn)
    (hdrs : List (Option (List Byte) × List Byte)) : R c (writeHeaders c hdrs) := by
  refine hR.foldl ?_ hdrs c
  rintro c ⟨key, val⟩
  cases key with
  | none => exact hR.refl c
  | some key =>
      simp only [writeHeader]
      split
      · exact hR.write _ _ _ (by decide)
      · split
        · exact hR.write _ _ _ (by decide)
        · exact hR.trans (hR.write _ _ _ (by decide)) (hR.write _ _ _ (by decide))

theorem HeadSteps.writeAddedHeaders (hR : HeadSteps R) (c : Conn) (user : Option (List Byte))
    (hdrs : List (Option (List Byte) × List Byte)) : R c (writeAddedHeaders c user hdrs) := by
  refine hR.foldl ?_ hdrs c
  rintro c ⟨key, val⟩
  cases key with
  | none => exact hR.refl c
  | some key =>
      have hpair := fun c' : Conn => hR.trans (hR.write c' cseHeader (some key) (by decide))
        (hR.write _ cseValue (some val) (by decide))
      simp only [writeAddedHeader]
      refine hR.trans ?_ (hpair _)
      split
      · exact hR.write _ _ _ (by decide)
      · split
        · exact hR.write _ _ _ (by decide)
        · exact hR.refl c

/-- The head of a request is a sequence of strings. -/
theorem HeadSteps.writeHead (hR : HeadSteps R) (x : Relay) (session : ℕ) (r : Request) :
    R x.conn (x.writeHead session r).conn :=
  hR.trans (hR.trans (hR.writeEnv _ _ _) (hR.writeHeaders _ _)) (hR.writeAddedHeaders _ _ _)

end

theorem writes_writeHead (x : Relay) (session : ℕ) (r : Request) :
    Writes x.conn (x.writeHead session r).conn :=
  HeadSteps.writeHead
    ⟨Writes.refl, Writes.trans, fun c code buf _ => writes_cseWriteString c code buf⟩ x session r

/-! ## What the server's bytes say -/

/-- A packet with this code ends the exchange. -/
def Ends (code : ℤ) : Prop := code = cseEnd.toNat ∨ code = cseCloseCode.toNat

instance (code : ℤ) : Decidable (Ends code) := inferInstanceAs (Decidable (_ ∨ _))

/-- The codes of the packets up to the first END or CLOSE. -/
def hear : ℕ → List Byte → List Byte
  | 0, _ => []
  | n + 1, bs =>
      match packet? bs with
      | none => []
      | some (code, rest) =>
          if code = cseEnd ∨ code = cseCloseCode then [code] else code :: hear n rest

/-- The number of codes that a wait for an ACK takes for one. A code of 0 ends the
loop of `send_data` as an ACK does. -/
def acks (codes : List Byte) : ℕ := codes.countP fun code => code = cseAck ∨ code = 0

/-- The bytes that are left after `w` waits for an ACK, of which an END or CLOSE is the
last. -/
def handshake : ℕ → List Byte → List Byte
  | 0, bs => bs
  | w + 1, bs =>
      match listen cseAck bs.length bs with
      | (_, some code, rest) =>
          if code = cseEnd ∨ code = cseCloseCode then rest else handshake w rest
      | (_, none, _) => []

theorem hear_fuel {n m : ℕ} {bs : List Byte} (hn : bs.length ≤ n) (hm : bs.length ≤ m) :
    hear n bs = hear m bs := by
  induction n generalizing m bs with
  | zero =>
      have hnil : packet? bs = none := packet?_of_short (by omega)
      cases m with
      | zero => rfl
      | succ m => simp [hear, hnil]
  | succ n ih =>
      cases hp : packet? bs with
      | none => cases m <;> simp [hear, hp]
      | some found =>
          obtain ⟨code, rest⟩ := found
          have hlen := packet?_length hp
          obtain ⟨m, rfl⟩ : ∃ k, m = k + 1 := ⟨m - 1, by omega⟩
          simp only [hear, hp]
          rw [@ih m rest (by omega) (by omega)]

theorem stops_ack_iff (code : Byte) :
    Stops cseAck code ↔ (code = cseAck ∨ code = 0) ∨ code = cseEnd ∨ code = cseCloseCode := by
  unfold Stops
  tauto

theorem acks_append (codes codes' : List Byte) :
    acks (codes ++ codes') = acks codes + acks codes' := List.countP_append

/-- The codes up to the first END or CLOSE, cut behind what one wait for an ACK takes. -/
theorem hear_listen {n : ℕ} {bs codes rest : List Byte} {stop : Option Byte} (hn : bs.length ≤ n)
    (h : listen cseAck n bs = (codes, stop, rest)) :
    hear n bs = codes ++
      if stop = some cseEnd ∨ stop = some cseCloseCode then [] else hear rest.length rest := by
  induction n generalizing bs codes with
  | zero =>
      cases h
      rfl
  | succ n ih =>
      cases hp : packet? bs with
      | none =>
          rw [listen_none hp] at h
          cases h
          simp [hear, hp]
      | some found =>
          obtain ⟨code, rest'⟩ := found
          have hlen := packet?_length hp
          simp only [hear, hp]
          by_cases hstop : Stops cseAck code
          · rw [listen_stop hp hstop] at h
            cases h
            simp only [Option.some.injEq]
            rw [@hear_fuel n rest.length rest (by omega) (Nat.le_refl _)]
            split <;> simp
          · rw [listen_go hp hstop] at h
            rw [stops_ack_iff, not_or] at hstop
            simp only [Prod.mk.injEq] at h
            obtain ⟨rfl, hk, hrest⟩ := h
            have hrest' := @ih rest' (listen cseAck n rest').1 (by omega) (by rw [← hk, ← hrest])
            rw [if_neg hstop.2, hrest', List.cons_append]

/-- One wait for an ACK, in the codes up to the first END or CLOSE. -/
theorem acks_hear_listen {n : ℕ} {bs codes rest : List Byte} {k : Byte} (hn : bs.length ≤ n)
    (h : listen cseAck n bs = (codes, some k, rest)) :
    (k = cseEnd ∨ k = cseCloseCode → acks (hear n bs) = 0) ∧
      (¬ (k = cseEnd ∨ k = cseCloseCode) →
        acks (hear n bs) = acks (hear rest.length rest) + 1) := by
  obtain ⟨hstop, pre, rfl, hgo⟩ := (listen_codes h).1 k rfl
  have hpre : acks pre = 0 := by
    refine List.countP_eq_zero.mpr fun code hcode => ?_
    have hnot := hgo code hcode
    rw [stops_ack_iff, not_or] at hnot
    simpa using hnot.1
  rw [hear_listen hn h]
  simp only [Option.some.injEq, acks_append, hpre, Nat.zero_add]
  constructor
  · intro hend
    have hnot : ¬ (k = cseAck ∨ k = 0) := by
      rcases hend with rfl | rfl <;> decide
    rw [if_pos hend, acks, List.countP_singleton, if_neg (by simpa using hnot)]
    rfl
  · intro hend
    have hack : k = cseAck ∨ k = 0 := ((stops_ack_iff k).mp hstop).resolve_right hend
    rw [if_neg hend, acks, List.countP_singleton, if_pos (by simpa using hack), Nat.add_comm]

/-! ## The waits for ACKs -/

theorem ends_toNat_iff (code : Byte) : Ends code.toNat ↔ code = cseEnd ∨ code = cseCloseCode := by
  simp only [Ends, byte_cast_inj]

theorem ends_stops {ack code : Byte} (h : Ends code.toNat) : Stops ack code := by
  rcases (ends_toNat_iff code).mp h with rfl | rfl
  · exact Or.inr (Or.inl rfl)
  · exact Or.inr (Or.inr (Or.inl rfl))

/-- Where the waits for `w` ACKs leave the connection: what the server's bytes say is
left to be read, unless the connection is lost. -/
def Left (w : ℕ) (bs : List Byte) (c c' : Conn) : Prop :=
  c'.stream.socket < 0 ∨ c'.Live ∧ (∃ ms cs, Takes ms cs c c') ∧ c'.pending = handshake w bs

/-- The waits for `w` ACKs: all are answered, or an END or CLOSE takes the place of
one, or the connection is lost in one. -/
inductive Answered (w : ℕ) (bs : List Byte) (x x' : Relay) : Prop
  | completed {codes : List ℤ} (heard : x'.heard = x.heard ++ codes)
      (open_codes : ∀ code ∈ codes, ¬ Ends code) (enough : w ≤ acks (hear bs.length bs))
      (left : Left w bs x.conn x'.conn)
  | ended {codes : List ℤ} (heard : x'.heard = x.heard ++ codes)
      (end_code : ∃ code ∈ codes, Ends code) (few : acks (hear bs.length bs) < w)
      (left : Left w bs x.conn x'.conn)
  | lost {codes : List ℤ} (heard : x'.heard = x.heard ++ codes)
      (open_codes : ∀ code ∈ codes, ¬ Ends code) (socket : x'.conn.stream.socket < 0)

theorem writePacket_closed {x : Relay} (h : x.conn.stream.socket < 0) (code : Byte)
    (buf : List Byte) : (x.writePacket code buf).conn.stream.socket < 0 :=
  (writes_cseWritePacket x.conn code buf).closed h

theorem sendBody_closed (junk : ℕ → Locals) (blocks : List Chunk) {x : Relay}
    (h : x.conn.stream.socket < 0) :
    ∃ codes, (sendBody junk false blocks x).heard = x.heard ++ codes ∧
      (∀ code ∈ codes, ¬ Ends code) ∧
      (sendBody junk false blocks x).conn.stream.socket < 0 := by
  cases blocks with
  | nil => exact ⟨[], by simp [sendBody], by simp, h⟩
  | cons block blocks =>
      obtain ⟨hcode, hheard, hsocket⟩ := sendData_closed cseAck (junk 0) h
      simp only [sendBody, Bool.false_eq_true, if_false, hcode]
      rw [if_pos (Or.inl (by decide))]
      exact ⟨[-1], hheard, by decide, hsocket⟩

theorem Left.of_leaves {w : ℕ} {bs rest : List Byte} {c c' : Conn} (h : Leaves rest c c')
    (hrest : handshake w bs = rest) : Left w bs c c' := by
  cases h with
  | reading reads pending =>
      exact Or.inr ⟨reads.live, ⟨_, _, reads.toTakes⟩, by rw [pending, hrest]⟩
  | closed socket => exact Or.inl socket

theorem Left.cons {w : ℕ} {bs rest codes : List Byte} {k : Byte} {c c' c'' : Conn}
    (hlisten : listen cseAck bs.length bs = (codes, some k, rest))
    (hk : ¬ (k = cseEnd ∨ k = cseCloseCode)) (htakes : ∃ ms cs, Takes ms cs c c')
    (h : Left w rest c' c'') : Left (w + 1) bs c c'' := by
  have hrest : handshake (w + 1) bs = handshake w rest := by
    rw [handshake, hlisten]
    exact if_neg hk
  rcases h with hclosed | ⟨hlive, ⟨ms', cs', htakes'⟩, hpending⟩
  · exact Or.inl hclosed
  · obtain ⟨ms, cs, htakes⟩ := htakes
    exact Or.inr ⟨hlive, ⟨_, _, htakes.trans htakes'⟩, by rw [hrest, hpending]⟩

/-- A wait that is answered by an ACK comes before the others. -/
theorem Answered.cons {w : ℕ} {bs rest codes : List Byte} {k : Byte} {x x' x'' : Relay}
    (hlisten : listen cseAck bs.length bs = (codes, some k, rest))
    (hk : ¬ (k = cseEnd ∨ k = cseCloseCode)) (hopen : ∀ code ∈ asHeard codes, ¬ Ends code)
    (hheard : x'.heard = x.heard ++ asHeard codes) (htakes : ∃ ms cs, Takes ms cs x.conn x'.conn)
    (h : Answered w rest x' x'') : Answered (w + 1) bs x x'' := by
  have hacks := (acks_hear_listen (Nat.le_refl _) hlisten).2 hk
  have happend : ∀ codes', x''.heard = x'.heard ++ codes' →
      x''.heard = x.heard ++ (asHeard codes ++ codes') := by
    intro codes' h'
    rw [h', hheard, List.append_assoc]
  have hall : ∀ codes' : List ℤ, (∀ code ∈ codes', ¬ Ends code) →
      ∀ code ∈ asHeard codes ++ codes', ¬ Ends code := by
    intro codes' h' code hcode
    rcases List.mem_append.mp hcode with hmem | hmem
    · exact hopen code hmem
    · exact h' code hmem
  cases h with
  | @completed codes' heard open_codes enough left =>
      exact .completed (happend codes' heard) (hall codes' open_codes) (by omega)
        (left.cons hlisten hk htakes)
  | @ended codes' heard end_code few left =>
      obtain ⟨code, hmem, hend⟩ := end_code
      exact .ended (happend codes' heard) ⟨code, by simp [hmem], hend⟩ (by omega)
        (left.cons hlisten hk htakes)
  | @lost codes' heard open_codes socket =>
      exact .lost (happend codes' heard) (hall codes' open_codes) socket

theorem asHeard_open {codes : List Byte} (h : ∀ code ∈ codes, ¬ Ends code.toNat) :
    ∀ code ∈ asHeard codes, ¬ Ends code := by
  intro code hcode
  obtain ⟨b, hb, rfl⟩ := List.mem_map.mp hcode
  exact h b hb

/-- The blocks behind the first one are sent one by one, each after an ACK. -/
theorem sendBody_answered (junk : ℕ → Locals) (blocks : List Chunk) {x : Relay}
    (h : x.conn.Live) :
    Answered blocks.length x.conn.pending x (sendBody junk false blocks x) := by
  induction blocks generalizing junk x with
  | nil =>
      refine .completed (List.append_nil _).symm (by simp) (Nat.zero_le _) (Or.inr ⟨h, ?_, rfl⟩)
      exact ⟨[], [], Takes.refl h⟩
  | cons block blocks ih =>
      have hheard := @sendData_heard cseAck (by decide) (junk 0) x h
      simp only [sendBody, Bool.false_eq_true, if_false]
      generalize sendData cseAck (junk 0) x = answer at hheard ⊢
      obtain ⟨result, x'⟩ := answer
      simp only at hheard ⊢
      cases hheard with
      | @stopped codes rest k listen heard leaves =>
          obtain ⟨hstop, pre, hpre, hgo⟩ := (listen_codes listen).1 k rfl
          have hresult : ((k.toNat : ℤ) < 0 ∨ (k.toNat : ℤ) = cseEnd.toNat ∨
              (k.toNat : ℤ) = cseCloseCode.toNat) ↔ k = cseEnd ∨ k = cseCloseCode := by
            have : ¬ (k.toNat : ℤ) < 0 := by omega
            simp only [byte_cast_inj, this, false_or]
          by_cases hk : k = cseEnd ∨ k = cseCloseCode
          · rw [if_pos (hresult.mpr hk)]
            have hacks := (acks_hear_listen (Nat.le_refl _) listen).1 hk
            refine .ended heard ⟨k.toNat, ?_, (ends_toNat_iff k).mpr hk⟩ ?_ ?_
            · exact List.mem_map.mpr ⟨k, by simp [hpre], rfl⟩
            · rw [hacks]
              exact Nat.succ_pos _
            · refine Left.of_leaves leaves ?_
              rw [List.length_cons, handshake, listen]
              exact if_pos hk
          · rw [if_neg (mt hresult.mp hk)]
            have hopen : ∀ code ∈ asHeard codes, ¬ Ends code := by
              apply asHeard_open
              intro code hcode hend
              rw [hpre, List.mem_append, List.mem_singleton] at hcode
              rcases hcode with hmem | rfl
              · exact hgo code hmem (ends_stops hend)
              · exact hk ((ends_toNat_iff code).mp hend)
            cases leaves with
            | reading reads pending =>
                have hwrites := writes_cseWritePacket x'.conn cseData block.bytes
                have hrest := @ih (fun k => junk (k + 1)) (x'.writePacket cseData block.bytes)
                  (hwrites.live reads.live).1
                change Answered blocks.length (cseWritePacket x'.conn cseData block.bytes).pending
                  (x'.writePacket cseData block.bytes) _ at hrest
                rw [hwrites.pending, pending] at hrest
                refine @Answered.cons _ _ rest codes k x (x'.writePacket cseData block.bytes) _
                  listen hk hopen heard ?_ hrest
                exact ⟨_, _, reads.toTakes.trans (hwrites.takes reads.live)⟩
            | closed socket =>
                obtain ⟨codes', hcodes', hopen', hclosed⟩ :=
                  sendBody_closed (fun k => junk (k + 1)) blocks
                    (writePacket_closed socket cseData block.bytes)
                refine @Answered.lost _ _ x _ (asHeard codes ++ codes') ?_ ?_ hclosed
                · rw [hcodes', ← List.append_assoc, ← heard]
                  rfl
                · intro code hcode
                  rcases List.mem_append.mp hcode with hmem | hmem
                  · exact hopen code hmem
                  · exact hopen' code hmem
      | @lost codes failed failed_eq heard codes_go socket =>
          rw [if_pos (Or.inl (by decide))]
          refine @Answered.lost _ _ x x' (asHeard codes ++ failed) ?_ ?_ socket
          · rw [heard, List.append_assoc]
          · intro code hcode
            rcases List.mem_append.mp hcode with hmem | hmem
            · exact asHeard_open (fun b hb hend => codes_go b hb (ends_stops hend)) code hmem
            · rcases failed_eq with rfl | rfl
              · cases hmem
              · obtain rfl := List.mem_singleton.mp hmem
                decide

/-! ## The whole request -/

/-- The number of times that `write_request` waits for an ACK, if nothing goes wrong. -/
def Request.waits (r : Request) : ℕ := if r.shouldClientBlock then r.blocks.length - 1 else 0

theorem writeRequest_eq (junk : ℕ → Locals) (session : ℕ) (r : Request) (x : Relay) :
    writeRequest junk session r x =
      let (code, x) :=
        sendData cseEnd (junk 0) ((writeBody junk session r x).writePacket cseEnd [])
      (decide (code = cseEnd.toNat), x) := rfl

theorem writeBody_answered (junk : ℕ → Locals) (session : ℕ) (r : Request) {x : Relay}
    (h : x.conn.Live) :
    Answered r.waits x.conn.pending x (writeBody junk session r x) := by
  have hhead := writes_writeHead x session r
  have hlive := (hhead.live h).1
  have hskip : ∀ y : Relay, y.heard = x.heard → Writes x.conn y.conn →
      Answered 0 x.conn.pending x y := by
    intro y hheard hwrites
    refine @Answered.completed _ _ x y [] (by simpa using hheard) (by simp) (Nat.zero_le _) ?_
    exact Or.inr ⟨(hwrites.live h).1, ⟨_, _, hwrites.takes h⟩, hwrites.pending⟩
  unfold writeBody Request.waits
  simp only
  split
  · cases r.blocks with
    | nil => exact hskip _ rfl hhead
    | cons block blocks =>
        have hwrites := hhead.trans (writes_cseWritePacket _ cseData block.bytes)
        have hbody := @sendBody_answered (fun k => junk (k + 1)) blocks
          ((x.writeHead session r).writePacket cseData block.bytes) (hwrites.live h).1
        rw [show ((x.writeHead session r).writePacket cseData block.bytes).conn.pending =
          x.conn.pending from hwrites.pending] at hbody
        have hleft : ∀ c', Left blocks.length x.conn.pending
            ((x.writeHead session r).writePacket cseData block.bytes).conn c' →
            Left blocks.length x.conn.pending x.conn c' := by
          intro c' hc'
          rcases hc' with hclosed | ⟨hlive', ⟨ms, cs, htakes⟩, hpending⟩
          · exact Or.inl hclosed
          · exact Or.inr ⟨hlive', ⟨_, _, (hwrites.takes h).trans htakes⟩, hpending⟩
        simp only [sendBody, if_true, List.length_cons, Nat.add_sub_cancel]
        cases hbody with
        | completed heard open_codes enough left =>
            exact .completed heard open_codes enough (hleft _ left)
        | ended heard end_code few left => exact .ended heard end_code few (hleft _ left)
        | lost heard open_codes socket => exact .lost heard open_codes socket
  · exact hskip _ rfl hhead

/-! ## The end of the exchange -/

/-- Once an END or CLOSE was heard nothing more was, and the result says which of the
two it was. -/
def EndsExchange (heard : List ℤ) (result : Bool) : Prop :=
  ∀ pre code post, heard = pre ++ code :: post → Ends code →
    post = [] ∧ (result = true ↔ code = cseEnd.toNat)

theorem sendPacket_heard (m : Locals) (x : Relay) :
    ∃ code, (sendPacket m x).2.2.heard = x.heard ++ [code] ∧
      ((sendPacket m x).1 = code ∨ (sendPacket m x).1 = -1 ∧ ¬ Ends code) := by
  rw [sendPacket_eq]
  generalize readHeader x.conn = header
  obtain ⟨code, l1, l2, l3, c⟩ := header
  simp only
  by_cases hclosed : c.stream.socket < 0
  · rw [if_pos hclosed]
    exact ⟨-1, rfl, Or.inl rfl⟩
  · rw [if_neg hclosed]
    obtain ⟨-, hheard, hcode⟩ := handlePacket_frame code
      (low8 l1 * 65536 + low8 l2 * 256 + low8 l3) m
      { x with conn := c, heard := x.heard ++ [code] }
    refine ⟨code, hheard, ?_⟩
    rcases hcode with hcode | ⟨rfl, hcode⟩
    · exact Or.inl hcode
    · exact Or.inr ⟨hcode, by decide⟩

/-- Whatever becomes of the connection, `send_data` hears at least one packet, and an
END or CLOSE only as the last one. -/
theorem sendDataLoop_last (ack : Byte) (fuel : ℕ) (m : Locals) (x : Relay) :
    ∃ pre code, (sendDataLoop ack (fuel + 1) m x).2.heard = x.heard ++ (pre ++ [code]) ∧
      (∀ k ∈ pre, ¬ Ends k) ∧
      ((sendDataLoop ack (fuel + 1) m x).1 = code ∨
        (sendDataLoop ack (fuel + 1) m x).1 = -1 ∧ ¬ Ends code) := by
  induction fuel generalizing m x with
  | zero =>
      obtain ⟨code, hheard, hcode⟩ := sendPacket_heard m x
      unfold sendDataLoop
      generalize sendPacket m x = round at hheard hcode ⊢
      obtain ⟨result, m', x'⟩ := round
      simp only at hheard hcode ⊢
      split
      · next hgo =>
          refine ⟨[], code, hheard, by simp, Or.inr ⟨rfl, ?_⟩⟩
          rintro (rfl | rfl)
          · rcases hcode with rfl | ⟨-, hend⟩
            · exact hgo.2.1 rfl
            · exact hend (Or.inl rfl)
          · rcases hcode with rfl | ⟨-, hend⟩
            · exact hgo.2.2.1 rfl
            · exact hend (Or.inr rfl)
      · exact ⟨[], code, hheard, by simp, hcode⟩
  | succ fuel ih =>
      obtain ⟨code, hheard, hcode⟩ := sendPacket_heard m x
      rw [sendDataLoop]
      generalize sendPacket m x = round at hheard hcode ⊢
      obtain ⟨result, m', x'⟩ := round
      simp only at hheard hcode ⊢
      split
      · next hgo =>
          obtain ⟨pre, last, hlast, hpre, hresult⟩ := ih m' x'
          refine ⟨code :: pre, last, ?_, ?_, hresult⟩
          · rw [hlast, hheard, List.append_assoc]
            rfl
          · intro k hk
            rcases List.mem_cons.mp hk with rfl | hk
            · rintro (rfl | rfl)
              · rcases hcode with rfl | ⟨-, hend⟩
                · exact hgo.2.1 rfl
                · exact hend (Or.inl rfl)
              · rcases hcode with rfl | ⟨-, hend⟩
                · exact hgo.2.2.1 rfl
                · exact hend (Or.inr rfl)
            · exact hpre k hk
      · exact ⟨[], code, hheard, by simp, hcode⟩

/-- The exchange ends as it should exactly when no END or CLOSE was heard in a wait
for an ACK. This holds for every behaviour of the network and the browser. -/
theorem endsExchange_iff_body (junk : ℕ → Locals) (session : ℕ) (r : Request) (x : Relay) :
    EndsExchange (writeRequest junk session r x).2.heard (writeRequest junk session r x).1 ↔
      ∀ code ∈ (writeBody junk session r x).heard, ¬ Ends code := by
  rw [writeRequest_eq]
  obtain ⟨pre, last, hheard, hpre, hresult⟩ := sendDataLoop_last cseEnd
    ((writeBody junk session r x).writePacket cseEnd []).conn.remaining (junk 0)
    ((writeBody junk session r x).writePacket cseEnd [])
  change (sendData _ _ _).2.heard = (writeBody junk session r x).heard ++ _ at hheard
  change (sendData _ _ _).1 = _ ∨ (sendData _ _ _).1 = _ ∧ _ at hresult
  generalize sendData cseEnd (junk 0) _ = answer at hheard hresult ⊢
  obtain ⟨result, x'⟩ := answer
  simp only at hheard hresult ⊢
  rw [hheard]
  constructor
  · intro hends code hcode hend
    obtain ⟨before, after, hsplit⟩ := List.append_of_mem hcode
    have hpost := (hends before code (after ++ (pre ++ [last])) (by rw [hsplit]; simp) hend).1
    simp at hpost
  · intro hopen before code after hsplit hend
    rw [← List.append_assoc] at hsplit
    rcases List.eq_nil_or_concat after with rfl | ⟨after, k, rfl⟩
    · obtain ⟨-, hlast⟩ := List.append_inj' hsplit rfl
      obtain rfl : last = code := by simpa using hlast
      refine ⟨rfl, ?_⟩
      rcases hresult with rfl | ⟨-, hnot⟩
      · simp
      · exact absurd hend hnot
    · rw [List.concat_eq_append, ← List.cons_append, ← List.append_assoc] at hsplit
      obtain ⟨hinit, -⟩ := List.append_inj' hsplit rfl
      have hmem : code ∈ (writeBody junk session r x).heard ++ pre := by
        rw [hinit]
        simp
      rcases List.mem_append.mp hmem with hmem | hmem
      · exact absurd hend (hopen code hmem)
      · exact absurd hend (hpre code hmem)

/-- Where the sends succeed, an exchange in which an END or CLOSE is heard ends with
it exactly when the server sends as many ACKs before it as there are blocks to wait
for. -/
theorem endsExchange_iff (junk : ℕ → Locals) (session : ℕ) (r : Request) {x : Relay}
    (hlive : x.conn.Live) (hfresh : x.heard = [])
    (hconsumed : ∃ code ∈ (writeRequest junk session r x).2.heard, Ends code) :
    EndsExchange (writeRequest junk session r x).2.heard (writeRequest junk session r x).1 ↔
      r.waits ≤ acks (hear x.conn.pending.length x.conn.pending) := by
  rw [endsExchange_iff_body]
  cases writeBody_answered junk session r hlive with
  | completed heard open_codes enough left =>
      rw [hfresh, List.nil_append] at heard
      rw [heard]
      exact ⟨fun _ => enough, fun _ => open_codes⟩
  | ended heard end_code few left =>
      rw [hfresh, List.nil_append] at heard
      rw [heard]
      obtain ⟨code, hmem, hend⟩ := end_code
      constructor
      · intro hopen
        exact absurd hend (hopen code hmem)
      · omega
  | lost heard open_codes socket =>
      -- nothing is heard on a closed socket, so there was no END or CLOSE at all
      exfalso
      obtain ⟨-, hclosed, -⟩ := sendData_closed cseEnd (junk 0)
        (writePacket_closed socket cseEnd [])
      obtain ⟨code, hmem, hend⟩ := hconsumed
      rw [writeRequest_eq] at hmem
      change code ∈ (sendData cseEnd (junk 0) _).2.heard at hmem
      rw [hclosed] at hmem
      change code ∈ (writeBody junk session r x).heard ++ [-1] at hmem
      rw [heard, hfresh, List.nil_append, List.mem_append, List.mem_singleton] at hmem
      rcases hmem with hmem | rfl
      · exact open_codes code hmem hend
      · exact absurd hend (by decide)

/-! ## An upload of two blocks -/

/-- A block of one byte. -/
def oneByte : Chunk := ⟨[120], by decide, by decide⟩

/-- A request with a body of two blocks. -/
def twoBlocks : Request where
  protocol := []
  method := []
  unparsedUri := []
  args := none
  serverName := []
  serverPort := 80
  remoteHost := none
  remoteIp := []
  remotePort := 1024
  user := none
  authType := none
  headersIn := []
  subprocessEnv := []
  shouldClientBlock := true
  blocks := [oneByte, oneByte]

/-- An exchange on a fresh connection with a server that sends these chunks. -/
def exchangeWith (chunks : List Chunk) : Relay where
  conn := ⟨⟨some 0, 0, 3, [], 0, 0, []⟩, ⟨chunks.map .data, [], [], []⟩⟩
  reply := ⟨[], []⟩
  keepalive := false
  heard := []

/-- Local arrays that start out as zeros. -/
def zeroed : ℕ → Locals := fun _ => ⟨fun _ => 0, fun _ => 0, fun _ => 0⟩

/-- The server answers the first block with an ACK and the whole body with an END. -/
def politeChunks : List Chunk :=
  [⟨[cseAck, 0, 0, 0], by decide, by decide⟩, ⟨[cseEnd, 0, 0, 0], by decide, by decide⟩]

/-- The server does not want the second block and ends the exchange; then it closes
the connection. -/
def hastyChunks : List Chunk :=
  [⟨[cseEnd, 0, 0, 0], by decide, by decide⟩, ⟨[cseCloseCode, 0, 0, 0], by decide, by decide⟩]

theorem exchangeWith_live (chunks : List Chunk) : (exchangeWith chunks).conn.Live :=
  ⟨⟨by simp [exchangeWith], rfl⟩, by simp [exchangeWith]⟩

theorem endsExchange_iff_polite :
    EndsExchange (writeRequest zeroed 0 twoBlocks (exchangeWith politeChunks)).2.heard
        (writeRequest zeroed 0 twoBlocks (exchangeWith politeChunks)).1 ↔
      twoBlocks.waits ≤ acks (hear (exchangeWith politeChunks).conn.pending.length
        (exchangeWith politeChunks).conn.pending) :=
  endsExchange_iff zeroed 0 twoBlocks (exchangeWith_live politeChunks) rfl (by decide +kernel)

/-- The END in place of the ACK is not the last packet that is read, and the CLOSE
behind it makes the result 0. -/
theorem not_endsExchange_hasty :
    ¬ ∀ (junk : ℕ → Locals) (session : ℕ) (r : Request) (x : Relay), x.conn.Live →
      x.heard = [] →
      EndsExchange (writeRequest junk session r x).2.heard
        (writeRequest junk session r x).1 := by
  intro hclaim
  have hends := hclaim zeroed 0 twoBlocks (exchangeWith hastyChunks)
    (exchangeWith_live hastyChunks) rfl
  have hheard : (writeRequest zeroed 0 twoBlocks (exchangeWith hastyChunks)).2.heard =
      [90, 88] := by
    decide +kernel
  rw [hheard] at hends
  have hpost := (hends [] 90 [88] rfl (by decide)).1
  cases hpost

end ModCaucho
