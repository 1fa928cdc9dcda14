import ModCaucho.Handler.Cut
import ModCaucho.Stream.Answers

/-!
# Refills that fail

When the write buffer can not be sent, a refill fails and leaves the socket open: the read
gets nothing, and the next one tries again. So `send_data` may go on behind a packet of which
it has read only a part, and takes what the later reads get for packets. `relayAnswers` is
`send_data` on what the reads get one after the other. Only whole packets have an effect
exactly if no STATUS or HEADER packet is cut and nothing that is taken for a packet behind a
read that got nothing does anything.
-/

namespace ModCaucho

open Framing CString

/-! ## One packet -/

/-- What `cse_read_limit` leaves of the answers. -/
def limitRest (buflen readlen : ℕ) (answers : List (Option Byte)) : Option (List (Option Byte)) :=
  if buflen > readlen then (takeBytes readlen answers).2
  else (takeBytes buflen answers).2.bind fun answers => (takeBytes (readlen - buflen) answers).2

/-- What `cse_read_string` makes of the array. Without the last byte of a length it gives
up. -/
def stringMem (m : Mem) (length : ℕ) : List (Option Byte) → Mem
  | _ :: a₁ :: a₂ :: some b₃ :: answers =>
      limited m (length - 1) (headerLength a₁ a₂ (some b₃)) (arrived answers)
  | _ => m

/-- What `cse_read_string` leaves of the answers. -/
def stringRest (length : ℕ) : List (Option Byte) → Option (List (Option Byte))
  | _ :: a₁ :: a₂ :: some b₃ :: answers =>
      limitRest (length - 1) (headerLength a₁ a₂ (some b₃)) answers
  | _ :: _ :: _ :: none :: answers => some answers
  | _ => none

/-- The local arrays after a packet. -/
def triedLocals (m : Locals) (code : Byte) (len : ℕ) (answers : List (Option Byte)) : Locals :=
  if code = cseHeader then
    { m with
      key := m.key.payload len (arrived answers)
      value := match (takeBytes len answers).2 with
        | some answers => stringMem m.value localLength answers
        | none => m.value }
  else packetLocals m code len (arrived answers)

/-- What a packet does to the reply. -/
def triedOps (m : Locals) (code : Byte) (len : ℕ) (answers : List (Option Byte)) :
    List ReplyOp :=
  if code = cseHeader then
    [headerOp (triedLocals m code len answers).key (triedLocals m code len answers).value]
  else packetOps m code len (arrived answers)

/-- What a packet leaves of the answers. -/
def triedRest (code : Byte) (len : ℕ) (answers : List (Option Byte)) :
    Option (List (Option Byte)) :=
  if code = cseHeader then (takeBytes len answers).2.bind (stringRest localLength)
  else if code = cseFlushCode ∨ code = cseKeepalive ∨ code = cseSendHeader then some answers
  else (takeBytes len answers).2

/-- `send_data` ends behind the packet: it is one to stop at, or the body in it does not
come. -/
def EndsAt (ack code : Byte) (len : ℕ) (answers : List (Option Byte)) : Prop :=
  Stops ack code ∨ code = cseData ∧ (arrived answers).length < len

instance (ack code : Byte) (len : ℕ) (answers : List (Option Byte)) :
    Decidable (EndsAt ack code len answers) := inferInstanceAs (Decidable (_ ∨ _))

/-- What `send_data` does with the answers of its reads, and whether it is asked for a
keepalive. -/
def relayAnswers (ack : Byte) : ℕ → Locals → List (Option Byte) → List ReplyOp × Bool
  | n + 1, m, some code :: a₁ :: a₂ :: a₃ :: answers =>
      let len := headerLength a₁ a₂ a₃
      let ops := triedOps m code len answers
      let keepalive := decide (code = cseKeepalive)
      if EndsAt ack code len answers then (ops, keepalive)
      else
        match triedRest code len answers with
        | none => (ops, keepalive)
        | some rest =>
            let (ops', keepalive') := relayAnswers ack n (triedLocals m code len answers) rest
            (ops ++ ops', keepalive || keepalive')
  | _, _, _ => ([], false)

/-! ## The refinement -/

section

variable {c : Conn}

theorem Answers.skip {state : Option (List (Option Byte))} (h : Answers c state) (n : ℕ) :
    Answers (cseSkip c n).2 (state.bind fun answers => (takeBytes n answers).2) := by
  cases state with
  | none => exact readLoop_closed n n h
  | some answers =>
      obtain ⟨hready, rfl⟩ := h
      exact (readLoop_answers (Nat.le_refl n) hready).2

theorem cseReadLimit_answers (h : c.Ready) (buf : Mem) (buflen readlen : ℕ) :
    (cseReadLimit c buf buflen readlen).2.1 = limited buf buflen readlen (arrived c.answers) ∧
      Answers (cseReadLimit c buf buflen readlen).2.2 (limitRest buflen readlen c.answers) := by
  unfold cseReadLimit limited limitRest
  by_cases hfit : buflen > readlen
  · obtain ⟨hbytes, hrest⟩ := cseReadAll_answers h readlen
    rw [if_pos hfit, if_pos hfit, if_pos hfit]
    simp only [hbytes, takeBytes_fst]
    exact ⟨trivial, hrest⟩
  · obtain ⟨hbytes, hrest⟩ := cseReadAll_answers h buflen
    rw [if_neg hfit, if_neg hfit, if_neg hfit]
    simp only [hbytes, takeBytes_fst]
    exact ⟨trivial, hrest.skip (readlen - buflen)⟩

theorem cseReadString_answers (h : c.Ready) (buf : Mem) (length : ℕ) :
    (cseReadString c buf length).2.1 = stringMem buf length c.answers ∧
      Answers (cseReadString c buf length).2.2 (stringRest length c.answers) := by
  rw [cseReadString_eq]
  rcases readHeader_answers h with
    ⟨a, a₁, a₂, a₃, answers, c', has, hheader, hready, hrest⟩ | ⟨hshort, hclosed⟩
  · have hopen : ¬ c'.stream.socket < 0 := Int.not_lt.mpr hready.socket
    rw [has]
    simp only [hheader, hopen, false_or]
    cases a₃ with
    | none =>
        rw [if_pos (show byteResult none < 0 by decide)]
        exact ⟨rfl, hready, hrest⟩
    | some b₃ =>
        have hnot : ¬ byteResult (some b₃) < 0 := Int.not_lt.mpr (Int.natCast_nonneg b₃.toNat)
        rw [if_neg hnot]
        have hlimit := cseReadLimit_answers hready buf (length - 1)
          (headerLength a₁ a₂ (some b₃))
        rw [hrest] at hlimit
        exact hlimit
  · simp only [if_pos (Or.inl hclosed : (readHeader c).2.2.2.2.stream.socket < 0 ∨ _)]
    match c.answers, hshort with
    | [], _ => exact ⟨rfl, hclosed⟩
    | [_], _ => exact ⟨rfl, hclosed⟩
    | [_, _], _ => exact ⟨rfl, hclosed⟩
    | [_, _, _], _ => exact ⟨rfl, hclosed⟩

/-- `cse_write_response` copies what it reads to a browser that takes it all. -/
theorem writeResponseLoop_answers {fuel len : ℕ} (hfuel : len ≤ fuel) (h : c.Ready) {r : Reply}
    (hr : r.writes = []) :
    (writeResponseLoop fuel len c r).2.2.events =
        r.events ++ ((arrived c.answers).take len).map (fun b => .write [b]) ∧
      (writeResponseLoop fuel len c r).2.2.writes = [] ∧
      Answers (writeResponseLoop fuel len c r).2.1 (takeBytes len c.answers).2 ∧
      ((writeResponseLoop fuel len c r).1 < 0 ↔ (arrived c.answers).length < len) := by
  induction fuel generalizing len c r with
  | zero =>
      obtain rfl : len = 0 := by omega
      exact ⟨by simp [writeResponseLoop], hr, ⟨h, rfl⟩, by simp [writeResponseLoop]⟩
  | succ fuel ih =>
      unfold writeResponseLoop
      by_cases hlen : len = 0
      · subst hlen
        exact ⟨by simp, hr, ⟨h, rfl⟩, by simp⟩
      rw [if_neg hlen]
      obtain ⟨n, rfl⟩ : ∃ n, len = n + 1 := ⟨len - 1, by omega⟩
      have hfill := fillIfEmpty_answers h
      revert hfill
      rcases c.answers with _ | ⟨_ | b, answers⟩
      · rintro ⟨hfst, hstate⟩
        simp only [if_pos hfst]
        exact ⟨by simp [arrived], hr, hstate, by simp [arrived]⟩
      · rintro ⟨hfst, hstate⟩
        simp only [if_pos hfst]
        exact ⟨by simp [arrived], hr, hstate, by simp [arrived]⟩
      · rintro ⟨hfst, hready, hanswers⟩
        have hpos := buffered_pos_of_fillIfEmpty hfst
        simp only [if_neg hfst, rwrite_all hr]
        generalize (fillIfEmpty c).2 = c' at *
        have hk : min (n + 1) c'.stream.buffered ≤ c'.stream.buffered := Nat.min_le_right _ _
        obtain ⟨hmet, hready'⟩ := advance_answers hready hk
        have hlength := length_unread hready
        generalize hmin : min (n + 1) c'.stream.buffered = k at *
        have htaken : (c'.stream.unread.take k).length = k := by
          rw [List.length_take]
          omega
        rw [if_neg (by omega)]
        obtain ⟨hevents, hwrites, hrest, hcode⟩ := @ih (c'.advance k) (n + 1 - k) (by omega) hready'
          (r.push (.write (c'.stream.unread.take k))) hr
        rw [← hanswers, hmet, takeBytes_append (by omega), arrived_append, htaken]
        refine ⟨?_, hwrites, hrest, ?_⟩
        · have hfront : (c'.stream.unread.take k).take (n + 1) = c'.stream.unread.take k :=
            List.take_of_length_le (by omega)
          rw [hevents, events_push, ReplyOp.bytewise, List.append_assoc, ← List.map_append,
            List.take_append, htaken, hfront]
        · rw [hcode, List.length_append, htaken]
          omega

end

/-- A packet does what `triedOps` says and leaves what `triedRest` says. -/
theorem handlePacket_answers (code : Byte) (len : ℕ) (m : Locals) {x : Relay}
    (h : x.conn.Ready) (hr : x.reply.writes = []) :
    (handlePacket code.toNat len m x).1 =
        (if code = cseData ∧ (arrived x.conn.answers).length < len then -1
          else (code.toNat : ℤ)) ∧
      (handlePacket code.toNat len m x).2.1 = triedLocals m code len x.conn.answers ∧
      (handlePacket code.toNat len m x).2.2.reply.events =
        x.reply.events ++ triedOps m code len x.conn.answers ∧
      (handlePacket code.toNat len m x).2.2.reply.writes = [] ∧
      (handlePacket code.toNat len m x).2.2.keepalive =
        (x.keepalive || decide (code = cseKeepalive)) ∧
      Answers (handlePacket code.toNat len m x).2.2.conn
        (triedRest code len x.conn.answers) := by
  have hnot : (code.toNat : ℤ) ≠ -1 := by omega
  obtain ⟨hbytes, hrest⟩ := cseReadAll_answers h len
  rw [takeBytes_fst] at hbytes
  unfold handlePacket triedOps triedLocals triedRest
  simp only [byte_cast_inj, if_neg hnot]
  by_cases hstatus : code = cseStatus
  · subst hstatus
    have hheader : ¬ cseStatus = cseHeader := by decide
    have hdata : ¬ cseStatus = cseData := by decide
    have hbare : ¬ (cseStatus = cseFlushCode ∨ cseStatus = cseKeepalive ∨
        cseStatus = cseSendHeader) := by decide
    simp only [if_true, if_neg hheader, hdata, false_and, if_neg hbare, if_false, hbytes]
    exact ⟨trivial, rfl, events_push _ _, hr, by simp [cseStatus, cseKeepalive], hrest⟩
  simp only [if_neg hstatus]
  by_cases hheader : code = cseHeader
  · subst hheader
    simp only [if_true, hbytes, events_push]
    have hop (key value : Mem) :
        (if strcaseEq (key.cstr 0) (ascii "content-type".toList) = true then
            ReplyOp.contentType (value.cstr 0)
          else if strcaseEq (key.cstr 0) (ascii "set-cookie".toList) then
            .tableAdd (key.cstr 0) (value.cstr 0)
          else .tableSet (key.cstr 0) (value.cstr 0)) = headerOp key value := rfl
    simp only [hop, headerOp_bytewise]
    have hvalue : (cseReadString (cseReadAll x.conn len).2.2 m.value localLength).2.1 =
          (match (takeBytes len x.conn.answers).2 with
            | some answers => stringMem m.value localLength answers
            | none => m.value) ∧
        Answers (cseReadString (cseReadAll x.conn len).2.2 m.value localLength).2.2
          ((takeBytes len x.conn.answers).2.bind (stringRest localLength)) := by
      cases hsnd : (takeBytes len x.conn.answers).2 with
      | none =>
          rw [hsnd] at hrest
          refine ⟨?_, cseReadString_closed _ _ hrest⟩
          rw [cseReadString_eq]
          simp only [readHeader_closed hrest, true_or, if_true]
      | some answers =>
          rw [hsnd] at hrest
          have hstring := cseReadString_answers hrest.1 m.value localLength
          rw [hrest.2] at hstring
          exact hstring
    rw [hvalue.1]
    exact ⟨by simp [cseHeader, cseData], rfl, rfl, hr, by simp [cseHeader, cseKeepalive], hvalue.2⟩
  simp only [if_neg hheader]
  by_cases hdata : code = cseData
  · subst hdata
    obtain ⟨hevents, hwrites, hstate, hcode⟩ := writeResponseLoop_answers (Nat.le_refl len) h hr
    have hbare : ¬ (cseData = cseFlushCode ∨ cseData = cseKeepalive ∨
        cseData = cseSendHeader) := by decide
    simp only [if_true, cseWriteResponse, true_and, hcode, packetOps_data, if_neg hbare]
    exact ⟨rfl, hevents, hwrites, by simp [cseData, cseKeepalive], hstate⟩
  simp only [hdata, if_false, false_and]
  unfold packetOps packetLocals
  simp only [hstatus, hheader, hdata, if_false, false_or]
  by_cases hflush : code = cseFlushCode
  · subst hflush
    simp only [if_true, true_or, events_push]
    exact ⟨trivial, trivial, rfl, hr, by simp [cseFlushCode, cseKeepalive], h, rfl⟩
  simp only [if_neg hflush]
  by_cases hkeepalive : code = cseKeepalive
  · subst hkeepalive
    simp only [if_true, true_or, or_true]
    exact ⟨trivial, trivial, by simp [cseKeepalive, cseSendHeader], hr, by simp, h, rfl⟩
  simp only [if_neg hkeepalive]
  by_cases hsend : code = cseSendHeader
  · subst hsend
    simp only [if_true, or_true, events_push]
    exact ⟨trivial, trivial, rfl, hr, by simp [cseSendHeader, cseKeepalive], h, rfl⟩
  · simp only [hsend, hflush, hkeepalive, or_self, if_false, hbytes, List.append_nil,
      decide_false, Bool.or_false]
    exact ⟨trivial, trivial, trivial, hr, trivial, hrest⟩

/-! ## All packets -/

theorem limitRest_le {buflen readlen : ℕ} {answers rest : List (Option Byte)}
    (h : limitRest buflen readlen answers = some rest) : rest.length ≤ answers.length := by
  unfold limitRest at h
  split at h
  · exact takeBytes_rest_le h
  · obtain ⟨answers', hfront, hrest⟩ := Option.bind_eq_some_iff.mp h
    exact Nat.le_trans (takeBytes_rest_le hrest) (takeBytes_rest_le hfront)

theorem stringRest_le {length : ℕ} {answers rest : List (Option Byte)}
    (h : stringRest length answers = some rest) : rest.length ≤ answers.length := by
  unfold stringRest at h
  split at h
  · have hle := limitRest_le h
    simp only [List.length_cons]
    omega
  · cases h
    simp only [List.length_cons]
    omega
  · cases h

theorem triedRest_le {code : Byte} {len : ℕ} {answers rest : List (Option Byte)}
    (h : triedRest code len answers = some rest) : rest.length ≤ answers.length := by
  unfold triedRest at h
  split at h
  · obtain ⟨answers', hfront, hrest⟩ := Option.bind_eq_some_iff.mp h
    exact Nat.le_trans (stringRest_le hrest) (takeBytes_rest_le hfront)
  · split at h
    · cases h
      exact Nat.le_refl _
    · exact takeBytes_rest_le h

/-- There is no packet without a header. -/
theorem relayAnswers_short (ack : Byte) (n : ℕ) (m : Locals) {answers : List (Option Byte)}
    (h : answers.length < 4) : relayAnswers ack n m answers = ([], false) := by
  match answers, h with
  | [], _ => cases n <;> rfl
  | [a], _ => cases n <;> cases a <;> rfl
  | [a, _], _ => cases n <;> cases a <;> rfl
  | [a, _, _], _ => cases n <;> cases a <;> rfl

/-- The loop of `send_data` does with a stream what `relayAnswers` does with the answers of
its reads. -/
theorem sendDataLoop_answers {ack : Byte} {fuel n : ℕ} (m : Locals) {x : Relay}
    (h : x.conn.Ready) (hr : x.reply.writes = []) (hfuel : x.conn.remaining < fuel)
    (hn : x.conn.answers.length ≤ n) :
    (sendDataLoop ack fuel m x).2.reply.events =
        x.reply.events ++ (relayAnswers ack n m x.conn.answers).1 ∧
      (sendDataLoop ack fuel m x).2.keepalive =
        (x.keepalive || (relayAnswers ack n m x.conn.answers).2) := by
  induction fuel generalizing n m x with
  | zero => omega
  | succ fuel ih =>
      have hless := @sendPacket_remaining m x
      have hround := sendPacket_eq m x
      rcases readHeader_answers h with
        ⟨a, a₁, a₂, a₃, answers, c', has, hheader, hready, hrest⟩ | ⟨hshort, hclosed⟩
      · obtain ⟨n, rfl⟩ : ∃ k, n = k + 1 := ⟨n - 1, by rw [has, List.length_cons] at hn; omega⟩
        have hopen : ¬ c'.stream.socket < 0 := Int.not_lt.mpr hready.socket
        simp only [hheader, if_neg hopen] at hround
        rw [has] at hn ⊢
        simp only [List.length_cons] at hn
        cases a with
        | none =>
            unfold sendDataLoop
            rw [hround]
            exact ⟨(List.append_nil _).symm, (Bool.or_false _).symm⟩
        | some code =>
            obtain ⟨hcode, hlocals, hevents, hwrites, hkeepalive, hstate⟩ :=
              @handlePacket_answers code (headerLength a₁ a₂ a₃) m
                { x with conn := c', heard := x.heard ++ [(code.toNat : ℤ)] } hready hr
            change sendPacket m x = handlePacket code.toNat (headerLength a₁ a₂ a₃) m
              { x with conn := c', heard := x.heard ++ [(code.toNat : ℤ)] } at hround
            rw [← hround] at hcode hlocals hevents hwrites hkeepalive hstate
            simp only [hrest] at hcode hlocals hevents hstate
            unfold sendDataLoop relayAnswers
            generalize headerLength a₁ a₂ a₃ = len at *
            generalize sendPacket m x = round at *
            obtain ⟨result, m', y⟩ := round
            simp only at hcode hlocals hevents hwrites hkeepalive hstate hless ⊢
            by_cases hends : EndsAt ack code len answers
            · have hstop : ¬ (0 < result ∧ result ≠ cseEnd.toNat ∧ result ≠ cseCloseCode.toNat ∧
                  result ≠ ack.toNat) := by
                rcases hends with hstop | hlost
                · by_cases hshort : code = cseData ∧ (arrived answers).length < len
                  · rw [hcode, if_pos hshort]
                    omega
                  · rw [hcode, if_neg hshort]
                    exact fun hgo => (go_iff ack code).mp hgo hstop
                · rw [hcode, if_pos hlost]
                  omega
              rw [if_neg hstop, if_pos hends]
              exact ⟨hevents, hkeepalive⟩
            · obtain ⟨hgoes, htaken⟩ := not_or.mp hends
              rw [if_neg htaken] at hcode
              have hgo := (go_iff ack code).mpr hgoes
              rw [hcode] at hless ⊢
              have hpos := hless hgo.1
              rw [if_pos hgo, if_neg hends]
              cases hleft : triedRest code len answers with
              | none =>
                  rw [hleft] at hstate
                  obtain ⟨fuel, rfl⟩ : ∃ k, fuel = k + 1 := ⟨fuel - 1, by omega⟩
                  obtain ⟨hreply, hkeep⟩ := sendDataLoop_lost ack fuel m' hstate
                  rw [hreply, hkeep]
                  exact ⟨hevents, hkeepalive⟩
              | some rest =>
                  rw [hleft] at hstate
                  obtain ⟨hready', hanswers⟩ := hstate
                  have hle := triedRest_le hleft
                  obtain ⟨hevents', hkeepalive'⟩ := @ih n m' y hready' hwrites (by omega)
                    (by rw [hanswers]; omega)
                  rw [hanswers, hlocals] at hevents' hkeepalive'
                  rw [hlocals]
                  refine ⟨?_, ?_⟩
                  · rw [hevents', hevents, List.append_assoc]
                  · rw [hkeepalive', hkeepalive, Bool.or_assoc]
      · simp only [if_pos hclosed] at hround
        unfold sendDataLoop
        rw [hround, relayAnswers_short ack n m hshort]
        exact ⟨(List.append_nil _).symm, (Bool.or_false _).symm⟩

/-! ## Packets that have arrived -/

theorem arrived_eq_cons {answers : List (Option Byte)} {b : Byte} {bs : List Byte}
    (h : arrived answers = b :: bs) : ∃ rest, answers = some b :: rest ∧ arrived rest = bs := by
  match answers, h with
  | some b' :: rest, h =>
      cases h
      exact ⟨rest, rfl, rfl⟩

/-- The bytes behind a payload that has arrived. -/
theorem takeBytes_after {len : ℕ} {answers : List (Option Byte)} {bs : List Byte}
    (h : after len (arrived answers) = some bs) :
    ∃ rest, (takeBytes len answers).2 = some rest ∧ arrived rest = bs := by
  unfold after at h
  split at h
  · next hlen =>
      cases h
      exact takeBytes_snd hlen
  · cases h

theorem limitRest_after {buflen readlen : ℕ} {answers : List (Option Byte)} {bs : List Byte}
    (h : after readlen (arrived answers) = some bs) :
    ∃ rest, limitRest buflen readlen answers = some rest ∧ arrived rest = bs := by
  unfold limitRest
  by_cases hfit : buflen > readlen
  · rw [if_pos hfit]
    exact takeBytes_after h
  · have hlen : readlen ≤ (arrived answers).length := by
      by_contra hshort
      rw [after_of_lt (Nat.lt_of_not_le hshort)] at h
      cases h
    obtain ⟨front, hfront, harrived⟩ :=
      takeBytes_snd (show buflen ≤ (arrived answers).length by omega)
    rw [if_neg hfit, hfront, Option.bind_some]
    refine takeBytes_after ?_
    rw [harrived, after_drop (by omega) (by omega)]
    exact h

/-- A packet that has arrived as a whole is handled as on the bytes alone. -/
theorem answer_of_arrived (m : Locals) {code : Byte} {len : ℕ} {answers : List (Option Byte)}
    {bs : List Byte} (h : behind? code len (arrived answers) = some bs) :
    triedLocals m code len answers = packetLocals m code len (arrived answers) ∧
      triedOps m code len answers = packetOps m code len (arrived answers) ∧
      ∃ rest, triedRest code len answers = some rest ∧ arrived rest = bs := by
  by_cases hheader : code = cseHeader
  · subst hheader
    obtain ⟨-, bs', hbs', hstring⟩ := behind?_header_some h
    obtain ⟨behind, hbehind, harrived⟩ := takeBytes_after hbs'
    -- the VALUE packet has arrived too
    obtain ⟨code, b₁, b₂, b₃, payload, rfl⟩ | ⟨-, hnone, -⟩ := string_cases bs'
    · obtain ⟨r₀, rfl, h₀⟩ := arrived_eq_cons harrived
      obtain ⟨r₁, rfl, h₁⟩ := arrived_eq_cons h₀
      obtain ⟨r₂, rfl, h₂⟩ := arrived_eq_cons h₁
      obtain ⟨r₃, rfl, h₃⟩ := arrived_eq_cons h₂
      have hsame : triedLocals m cseHeader len answers =
          packetLocals m cseHeader len (arrived answers) := by
        unfold triedLocals packetLocals
        rw [if_pos rfl, if_neg (by decide), if_pos rfl, hbehind, hbs']
        simp only [stringMem, readString, headerLength_some, h₃]
      refine ⟨hsame, ?_, ?_⟩
      · rw [triedOps, if_pos rfl, packetOps_header, hsame]
      · rw [triedRest, if_pos rfl, hbehind, Option.bind_some, stringRest, headerLength_some]
        rw [behindString?, ← h₃] at hstring
        exact limitRest_after hstring
    · rw [hnone] at hstring
      cases hstring
  · refine ⟨if_neg hheader, if_neg hheader, ?_⟩
    unfold triedRest
    rw [if_neg hheader]
    by_cases hbare : code = cseFlushCode ∨ code = cseKeepalive ∨ code = cseSendHeader
    · rw [behind?, if_neg hheader, if_pos hbare] at h
      cases h
      rw [if_pos hbare]
      exact ⟨answers, rfl, rfl⟩
    · rw [behind?_of_ne hheader hbare] at h
      rw [if_neg hbare]
      exact takeBytes_after h

theorem endsAt_of_arrived (ack : Byte) {code : Byte} {len : ℕ} {answers : List (Option Byte)}
    {bs : List Byte} (h : behind? code len (arrived answers) = some bs) :
    EndsAt ack code len answers ↔ Stops ack code := by
  refine or_iff_left ?_
  rintro ⟨rfl, hshort⟩
  rw [behind?_of_ne (by decide) (by decide), after_of_lt hshort] at h
  cases h

/-! ## Behind a read that got nothing -/

/-- What is taken for a packet does nothing, if a keepalive has been asked for before or
not. -/
def Idle (keepalive : Bool) (code : Byte) (len : ℕ) (answers : List (Option Byte)) : Prop :=
  code ≠ cseStatus ∧ code ≠ cseHeader ∧ code ≠ cseFlushCode ∧ code ≠ cseSendHeader ∧
    (code = cseData → len = 0 ∨ arrived answers = []) ∧ (code = cseKeepalive → keepalive = true)

/-- Nothing that is taken for a packet does anything. -/
def Quiet (ack : Byte) (keepalive : Bool) : ℕ → List (Option Byte) → Prop
  | n + 1, some code :: a₁ :: a₂ :: a₃ :: answers =>
      let len := headerLength a₁ a₂ a₃
      Idle keepalive code len answers ∧
        (EndsAt ack code len answers ∨
          match triedRest code len answers with
          | none => True
          | some rest => Quiet ack keepalive n rest)
  | _, _ => True

theorem idle_iff (m : Locals) (keepalive : Bool) (code : Byte) (len : ℕ)
    (answers : List (Option Byte)) :
    Idle keepalive code len answers ↔
      triedOps m code len answers = [] ∧
        (keepalive || decide (code = cseKeepalive)) = keepalive := by
  have hasked : (keepalive || decide (code = cseKeepalive)) = keepalive ↔
      (code = cseKeepalive → keepalive = true) := by
    cases keepalive <;> simp
  rw [hasked, Idle, triedOps, packetOps]
  by_cases hheader : code = cseHeader
  · simp [hheader]
  by_cases hstatus : code = cseStatus
  · simp [hstatus, cseStatus, cseHeader]
  by_cases hdata : code = cseData
  · simp [hdata, cseStatus, cseHeader, cseData, cseFlushCode, cseSendHeader]
  by_cases hflush : code = cseFlushCode
  · simp [hflush, cseStatus, cseHeader, cseData, cseFlushCode]
  by_cases hsend : code = cseSendHeader
  · simp [hsend, cseStatus, cseHeader, cseData, cseFlushCode, cseSendHeader]
  · simp [hheader, hstatus, hdata, hflush, hsend]

/-- There is a packet header, or nothing is taken for a packet. -/
theorem answers_cases (answers : List (Option Byte)) :
    (∃ code a₁ a₂ a₃ rest, answers = some code :: a₁ :: a₂ :: a₃ :: rest) ∨
      (∀ ack n m, relayAnswers ack n m answers = ([], false)) ∧
        ∀ ack n keepalive, Quiet ack keepalive n answers := by
  match answers with
  | some code :: a₁ :: a₂ :: a₃ :: rest => exact Or.inl ⟨code, a₁, a₂, a₃, rest, rfl⟩
  | [] => exact Or.inr ⟨fun _ n _ => by cases n <;> rfl, fun _ n _ => by cases n <;> trivial⟩
  | none :: _ =>
      exact Or.inr ⟨fun _ n _ => by cases n <;> rfl, fun _ n _ => by cases n <;> trivial⟩
  | [some _] =>
      exact Or.inr ⟨fun _ n _ => by cases n <;> rfl, fun _ n _ => by cases n <;> trivial⟩
  | [some _, _] =>
      exact Or.inr ⟨fun _ n _ => by cases n <;> rfl, fun _ n _ => by cases n <;> trivial⟩
  | [some _, _, _] =>
      exact Or.inr ⟨fun _ n _ => by cases n <;> rfl, fun _ n _ => by cases n <;> trivial⟩

theorem asked_again_iff (keepalive now later : Bool) :
    (keepalive || (now || later)) = keepalive ↔
      (keepalive || now) = keepalive ∧ (keepalive || later) = keepalive := by
  cases keepalive <;> cases now <;> simp

/-- Nothing happens exactly if no packet does anything. -/
theorem relayAnswers_quiet_iff (ack : Byte) (keepalive : Bool) (n : ℕ) (m : Locals)
    (answers : List (Option Byte)) :
    ((relayAnswers ack n m answers).1 = [] ∧
        (keepalive || (relayAnswers ack n m answers).2) = keepalive) ↔
      Quiet ack keepalive n answers := by
  induction n generalizing m answers with
  | zero => exact iff_of_true ⟨rfl, Bool.or_false keepalive⟩ trivial
  | succ n ih =>
      rcases answers_cases answers with ⟨code, a₁, a₂, a₃, answers, rfl⟩ | ⟨hnone, hquiet⟩
      · rw [relayAnswers, Quiet]
        simp only [idle_iff m]
        generalize headerLength a₁ a₂ a₃ = len
        by_cases hends : EndsAt ack code len answers
        · simp only [hends, if_true, true_or, and_true]
        · simp only [hends, if_false, false_or]
          cases triedRest code len answers with
          | none => simp only [and_true]
          | some rest =>
              simp only [List.append_eq_nil_iff, asked_again_iff,
                ← ih (triedLocals m code len answers) rest]
              exact and_and_and_comm
      · rw [hnone]
        exact iff_of_true ⟨rfl, Bool.or_false keepalive⟩ (hquiet ack (n + 1) keepalive)

/-! ## The condition -/

/-- Up to the first read that gets nothing no STATUS or HEADER packet is cut, and every
status is legible in the array as the packets before it leave it. From there on nothing that
is taken for a packet does anything. -/
def Intact (ack : Byte) : ℕ → Locals → Bool → List (Option Byte) → Prop
  | n + 1, m, keepalive, some code :: some b₁ :: some b₂ :: some b₃ :: answers =>
      let len := ofBe24 b₁ b₂ b₃
      match behind? code len (arrived answers) with
      | some _ =>
          (code = cseStatus → Legible m.buf len (arrived answers)) ∧
            (Stops ack code ∨
              match triedRest code len answers with
              | none => True
              | some rest =>
                  Intact ack n (packetLocals m code len (arrived answers))
                    (keepalive || decide (code = cseKeepalive)) rest)
      | none =>
          code ≠ cseStatus ∧ code ≠ cseHeader ∧
            (EndsAt ack code len answers ∨
              match triedRest code len answers with
              | none => True
              | some rest => Quiet ack keepalive n rest)
  | n, _, keepalive, answers => Quiet ack keepalive n answers

/-- The header of a packet arrives, or what is there of it is no packet. -/
theorem intact_cases (answers : List (Option Byte)) :
    (∃ code b₁ b₂ b₃ rest, answers = some code :: some b₁ :: some b₂ :: some b₃ :: rest) ∨
      (arrived answers).length < 4 ∧
        ∀ ack n m keepalive, Intact ack n m keepalive answers ↔ Quiet ack keepalive n answers := by
  have hsame {answers : List (Option Byte)}
      (h : ∀ ack n m keepalive,
        Intact ack (n + 1) m keepalive answers ↔ Quiet ack keepalive (n + 1) answers) :
      ∀ ack n m keepalive, Intact ack n m keepalive answers ↔ Quiet ack keepalive n answers := by
    intro ack n m keepalive
    cases n with
    | zero => exact Iff.rfl
    | succ n => exact h ack n m keepalive
  match answers with
  | some code :: some b₁ :: some b₂ :: some b₃ :: rest =>
      exact Or.inl ⟨code, b₁, b₂, b₃, rest, rfl⟩
  | [] => exact Or.inr ⟨by simp [arrived], hsame fun _ _ _ _ => Iff.rfl⟩
  | none :: _ => exact Or.inr ⟨by simp [arrived], hsame fun _ _ _ _ => Iff.rfl⟩
  | [some _] => exact Or.inr ⟨by simp [arrived], hsame fun _ _ _ _ => Iff.rfl⟩
  | some _ :: none :: _ => exact Or.inr ⟨by simp [arrived], hsame fun _ _ _ _ => Iff.rfl⟩
  | [some _, some _] => exact Or.inr ⟨by simp [arrived], hsame fun _ _ _ _ => Iff.rfl⟩
  | some _ :: some _ :: none :: _ =>
      exact Or.inr ⟨by simp [arrived], hsame fun _ _ _ _ => Iff.rfl⟩
  | [some _, some _, some _] => exact Or.inr ⟨by simp [arrived], hsame fun _ _ _ _ => Iff.rfl⟩
  | some _ :: some _ :: some _ :: none :: _ =>
      exact Or.inr ⟨by simp [arrived], hsame fun _ _ _ _ => Iff.rfl⟩

/-- A packet does what it does, whatever comes behind it. -/
theorem triedOps_prefix (ack : Byte) (n : ℕ) (m : Locals) (code : Byte) (a₁ a₂ a₃ : Option Byte)
    (answers : List (Option Byte)) :
    triedOps m code (headerLength a₁ a₂ a₃) answers <+:
      (relayAnswers ack (n + 1) m (some code :: a₁ :: a₂ :: a₃ :: answers)).1 := by
  rw [relayAnswers]
  split
  · exact List.prefix_rfl
  · split
    · exact List.prefix_rfl
    · exact List.prefix_append _ _

/-- A packet that is cut in its payload says nothing, apart from the front of a body. -/
theorem cut_says_iff (ack : Byte) (n : ℕ) (m : Locals) (keepalive : Bool) {code b₁ b₂ b₃ : Byte}
    {answers : List (Option Byte)}
    (h : behind? code (ofBe24 b₁ b₂ b₃) (arrived answers) = none) :
    let answers' := some code :: some b₁ :: some b₂ :: some b₃ :: answers
    (Says (relayAnswers ack (n + 1) m answers').1 (whole ack (n + 1) (arrived answers')) ∧
        (keepalive || (relayAnswers ack (n + 1) m answers').2) =
          (keepalive || (whole ack (n + 1) (arrived answers')).keepalive)) ↔
      Intact ack (n + 1) m keepalive answers' := by
  have hstart := triedOps_prefix ack n m code (some b₁) (some b₂) (some b₃) answers
  have harrived : arrived (some code :: some b₁ :: some b₂ :: some b₃ :: answers) =
      code :: b₁ :: b₂ :: b₃ :: arrived answers := rfl
  rw [headerLength_some] at hstart
  simp only [harrived, whole, Intact, h]
  by_cases hdata : code = cseData
  · subst hdata
    rw [relayAnswers, headerLength_some]
    generalize ofBe24 b₁ b₂ b₃ = len at *
    rw [behind?_of_ne (by decide) (by decide)] at h
    have hends : EndsAt ack cseData len answers := by
      refine Or.inr ⟨rfl, ?_⟩
      by_contra hlong
      rw [after_of_le (Nat.not_lt.mp hlong)] at h
      cases h
    have hops : triedOps m cseData len answers =
        ((arrived answers).take len).map fun b => .write [b] := by
      rw [triedOps, if_neg (by decide), packetOps_data]
    simp only [hends, if_true, true_or, hops]
    refine iff_of_true ⟨?_, by simp [cseData, cseKeepalive]⟩ ⟨by decide, by decide, trivial⟩
    exact ⟨_, List.prefix_rfl, (List.nil_append _).symm⟩
  simp only [if_neg hdata, says_nil_part, Bool.or_false]
  by_cases heffect : code = cseStatus ∨ code = cseHeader
  · refine iff_of_false ?_ fun hintact => heffect.elim hintact.1 hintact.2.1
    rintro ⟨hnil, -⟩
    rw [hnil, List.prefix_nil] at hstart
    have hidle := (idle_iff m true code (ofBe24 b₁ b₂ b₃) answers).mpr ⟨hstart, rfl⟩
    exact heffect.elim hidle.1 hidle.2.1
  · obtain ⟨hstatus, hheader⟩ := not_or.mp heffect
    have hops : triedOps m code (ofBe24 b₁ b₂ b₃) answers = [] := by
      rw [triedOps, if_neg hheader, packetOps_cut m h hdata hstatus hheader]
    have hasked : ¬ code = cseKeepalive := by
      rintro rfl
      cases h
    rw [relayAnswers, headerLength_some]
    simp only [hops, hasked, decide_false, Bool.false_or, List.nil_append]
    rw [and_iff_right hstatus, and_iff_right hheader]
    by_cases hends : EndsAt ack code (ofBe24 b₁ b₂ b₃) answers
    · simp [hends]
    · simp only [hends, if_false, false_or]
      cases triedRest code (ofBe24 b₁ b₂ b₃) answers with
      | none => simp
      | some rest => exact relayAnswers_quiet_iff ack keepalive n _ rest

/-- What is done is what the whole packets say exactly if the answers are intact. -/
theorem relayAnswers_says_iff (ack : Byte) (n : ℕ) (m : Locals) (keepalive : Bool)
    (answers : List (Option Byte)) :
    (Says (relayAnswers ack n m answers).1 (whole ack n (arrived answers)) ∧
        (keepalive || (relayAnswers ack n m answers).2) =
          (keepalive || (whole ack n (arrived answers)).keepalive)) ↔
      Intact ack n m keepalive answers := by
  induction n generalizing m keepalive answers with
  | zero => exact iff_of_true ⟨says_nil_part.mpr rfl, rfl⟩ trivial
  | succ n ih =>
      rcases intact_cases answers with ⟨code, b₁, b₂, b₃, answers, rfl⟩ | ⟨hshort, hintact⟩
      · cases hbehind : behind? code (ofBe24 b₁ b₂ b₃) (arrived answers) with
        | none => exact cut_says_iff ack n m keepalive hbehind
        | some bs =>
            have harrived : arrived (some code :: some b₁ :: some b₂ :: some b₃ :: answers) =
                code :: b₁ :: b₂ :: b₃ :: arrived answers := rfl
            obtain ⟨hlocals, hops, rest, hrest, rfl⟩ := answer_of_arrived m hbehind
            have hends := endsAt_of_arrived ack hbehind
            have hclear := packetOps_clear m hbehind
            have hlength := length_packetOps m .clear code (ofBe24 b₁ b₂ b₃) (arrived answers)
            simp only [harrived, relayAnswers, whole, Intact, headerLength_some, hbehind, hends,
              hrest, hops, hlocals]
            generalize ofBe24 b₁ b₂ b₃ = len at *
            by_cases hstop : Stops ack code
            · simp only [hstop, if_true, true_or, and_true, says_nil_part]
              exact hclear
            · simp only [hstop, if_false, false_or, ← Bool.or_assoc]
              rw [← hclear, ← ih (packetLocals m code len (arrived answers)) _ rest]
              constructor
              · rintro ⟨⟨part, hpart, heq⟩, hasked⟩
                simp only [List.append_assoc] at heq
                obtain ⟨hfirst, hthen⟩ := List.append_inj heq hlength
                exact ⟨hfirst, ⟨part, hpart, hthen⟩, hasked⟩
              · rintro ⟨hfirst, ⟨part, hpart, hthen⟩, hasked⟩
                exact ⟨⟨part, hpart, by simp only [hfirst, hthen, List.append_assoc]⟩, hasked⟩
      · rw [whole_of_short hshort, says_nil_part, hintact]
        simpa only [Bool.or_false] using relayAnswers_quiet_iff ack keepalive (n + 1) m answers

/-- Looking for packets as far as there are bytes is as good as looking further. -/
theorem whole_fuel {ack : Byte} {n k : ℕ} {bs : List Byte} (hn : bs.length ≤ n)
    (hk : bs.length ≤ k) : whole ack n bs = whole ack k bs := by
  induction n generalizing k bs with
  | zero =>
      have hshort : bs.length < 4 := by omega
      rw [whole_of_short hshort, whole_of_short hshort]
  | succ n ih =>
      rcases header_cases bs with ⟨code, b₁, b₂, b₃, rest, rfl⟩ | hshort
      · simp only [List.length_cons] at hn hk
        obtain ⟨k, rfl⟩ : ∃ j, k = j + 1 := ⟨k - 1, by omega⟩
        rw [whole, whole]
        cases hbehind : behind? code (ofBe24 b₁ b₂ b₃) rest with
        | none => rfl
        | some rest' =>
            have hle := length_behind? hbehind
            simp only [@ih k rest' (by omega) (by omega)]
      · rw [whole_of_short hshort, whole_of_short hshort]

/-! ## The whole response -/

/-- Only the packets that arrive as a whole have an effect, and of the body in a DATA packet
that does not at most its front is copied. -/
def WholeOnly (ack : Byte) (m : Locals) (x : Relay) : Prop :=
  let w := whole ack x.conn.available.length x.conn.available
  (∃ part, part <+: w.part ∧
      (sendData ack m x).2.reply.events =
        x.reply.events ++ w.ops ++ part.map fun b => .write [b]) ∧
    (sendData ack m x).2.keepalive = (x.keepalive || w.keepalive)

/-- The first byte of a packet is in the read buffer, and no `send` takes the byte that has
to be sent before more can be read. -/
def refusedExchange : Relay where
  conn := ⟨⟨some 0, 0, 3, [81], 0, 1, [1]⟩, ⟨[], List.replicate 8 .failed, [], []⟩⟩
  reply := ⟨[], []⟩
  keepalive := false
  heard := []

/-- The server is cut off inside the status line. -/
def cutChunks : List Chunk :=
  [⟨cseStatus :: 0 :: 0 :: 6 :: ascii "200".toList, by decide, by decide⟩]

end ModCaucho
