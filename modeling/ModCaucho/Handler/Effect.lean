import ModCaucho.Handler.Relay
import ModCaucho.Stream.Available

/-!
# What `send_data` does with the bytes it finds

`relay` is `send_data` on a byte string: what happens to the reply, whether the runner
asks for a keepalive, the code that is returned, and the bytes that are left. It goes
through the packets one by one with the local arrays as they are after each packet. A
stream refines it, however the bytes are cut into chunks, so two streams on which the
same bytes are available give the same response.
-/

namespace ModCaucho

open Framing CString

/-! ## One packet -/

/-- What is left of the bytes behind a packet header once the packet is handled, or
nothing if they do not hold the whole packet. -/
def behind? (code : Byte) (len : ℕ) (bs : List Byte) : Option (List Byte) :=
  if code = cseHeader then (after len bs).bind behindString?
  else if code = cseFlushCode ∨ code = cseKeepalive ∨ code = cseSendHeader then some bs
  else after len bs

/-- What a STATUS packet sets, from the array that it was read to. The status starts
behind the first blank. -/
def statusOp (buf : Mem) : ReplyOp :=
  let i := ((buf.cstr 0).takeWhile (· ≠ 32)).length + 1
  .status (atoi (buf.cstr i)) (buf.cstr i)

/-- What a HEADER packet with its VALUE packet sets, from the two arrays. -/
def headerOp (key value : Mem) : ReplyOp :=
  if strcaseEq (key.cstr 0) (ascii "content-type".toList) then .contentType (value.cstr 0)
  else if strcaseEq (key.cstr 0) (ascii "set-cookie".toList) then
    .tableAdd (key.cstr 0) (value.cstr 0)
  else .tableSet (key.cstr 0) (value.cstr 0)

/-- An array after a payload was read to its front. -/
def Mem.payload (m : Mem) (len : ℕ) (bs : List Byte) : Mem :=
  (m.store 0 (bs.take len)).store len [0]

/-- The local arrays after a packet. -/
def packetLocals (m : Locals) (code : Byte) (len : ℕ) (bs : List Byte) : Locals :=
  if code = cseStatus then { m with buf := m.buf.payload len bs }
  else if code = cseHeader then
    { m with
      key := m.key.payload len bs
      value := match after len bs with
        | some bs => readString m.value localLength bs
        | none => m.value }
  else if code = cseData ∨ code = cseFlushCode ∨ code = cseKeepalive ∨ code = cseSendHeader then m
  else { m with buf := m.buf.store 0 (bs.take len) }

/-- What a packet does to the reply, one byte of a body at a time. -/
def packetOps (m : Locals) (code : Byte) (len : ℕ) (bs : List Byte) : List ReplyOp :=
  if code = cseStatus then [statusOp (packetLocals m code len bs).buf]
  else if code = cseHeader then
    [headerOp (packetLocals m code len bs).key (packetLocals m code len bs).value]
  else if code = cseData then (bs.take len).map fun b => .write [b]
  else if code = cseFlushCode then [.flush]
  else if code = cseSendHeader then [.sendHeader]
  else []

/-! ## All packets -/

/-- What `send_data` does with a byte string. -/
structure Outcome where
  code : ℤ
  ops : List ReplyOp
  keepalive : Bool
  rest : Option (List Byte)

/-- `send_data` on a byte string. A packet that does not arrive as a whole is the last
one, and its code is returned only if it is one to stop at. -/
def relay (ack : Byte) : ℕ → Locals → List Byte → Outcome
  | n + 1, m, code :: b₁ :: b₂ :: b₃ :: bs =>
      let len := ofBe24 b₁ b₂ b₃
      let ops := packetOps m code len bs
      let keepalive := decide (code = cseKeepalive)
      match behind? code len bs with
      | none =>
          ⟨if Stops ack code ∧ code ≠ cseData then code.toNat else -1, ops, keepalive, none⟩
      | some rest =>
          if Stops ack code then ⟨code.toNat, ops, keepalive, some rest⟩
          else
            let o := relay ack n (packetLocals m code len bs) rest
            ⟨o.code, ops ++ o.ops, keepalive || o.keepalive, o.rest⟩
  | _, _, _ => ⟨-1, [], false, none⟩

/-- There is a packet header, or too few bytes for one. -/
theorem header_cases (bs : List Byte) :
    (∃ code b₁ b₂ b₃ rest, bs = code :: b₁ :: b₂ :: b₃ :: rest) ∨ bs.length < 4 := by
  rcases string_cases bs with hlong | ⟨hshort, -⟩
  · exact Or.inl hlong
  · exact Or.inr hshort

theorem relay_of_short {ack : Byte} {n : ℕ} {m : Locals} {bs : List Byte} (h : bs.length < 4) :
    relay ack n m bs = ⟨-1, [], false, none⟩ := by
  match bs, h with
  | [], _ => cases n <;> rfl
  | [_], _ => cases n <;> rfl
  | [_, _], _ => cases n <;> rfl
  | [_, _, _], _ => cases n <;> rfl

/-- One thing done to the reply, with a write as the bytes it writes. -/
def ReplyOp.bytewise : ReplyOp → List ReplyOp
  | .write bytes => bytes.map fun b => .write [b]
  | op => [op]

/-- What was done to the reply, however the body was cut into writes. -/
def Reply.events (r : Reply) : List ReplyOp := r.ops.flatMap ReplyOp.bytewise

theorem events_push (r : Reply) (op : ReplyOp) : (r.push op).events = r.events ++ op.bytewise := by
  simp [Reply.events, Reply.push]

/-! ## The refinement -/

theorem headerOp_bytewise (key value : Mem) :
    (headerOp key value).bytewise = [headerOp key value] := by
  unfold headerOp
  split
  · rfl
  · split <;> rfl

theorem rwrite_all {r : Reply} (h : r.writes = []) (bytes : List Byte) :
    r.rwrite bytes = ((bytes.length : ℤ), r.push (.write bytes)) := by
  simp only [Reply.rwrite, h]

/-- `cse_write_response` copies the bytes it finds to a browser that takes them all. -/
theorem writeResponseLoop_ready {fuel len : ℕ} (hfuel : len ≤ fuel) {c : Conn} (h : c.Ready)
    {r : Reply} (hr : r.writes = []) :
    (writeResponseLoop fuel len c r).2.2.events =
        r.events ++ (c.available.take len).map (fun b => .write [b]) ∧
      (writeResponseLoop fuel len c r).2.2.writes = [] ∧
      Proceeds c (writeResponseLoop fuel len c r).2.1 (after len c.available) ∧
      ((writeResponseLoop fuel len c r).1 < 0 ↔ after len c.available = none) := by
  induction fuel generalizing len c r with
  | zero =>
      obtain rfl : len = 0 := by omega
      refine ⟨by simp [writeResponseLoop], hr, ⟨h, rfl, id⟩, ?_⟩
      simp [writeResponseLoop, after_zero]
  | succ fuel ih =>
      unfold writeResponseLoop
      by_cases hlen : len = 0
      · subst hlen
        refine ⟨by simp, hr, ⟨h, rfl, id⟩, ?_⟩
        simp [after_zero]
      rw [if_neg hlen]
      rcases fillIfEmpty_ready h with ⟨hfst, hready, havail, hflushes⟩ | ⟨hfst, hnil, hnone⟩
      · have hpos := buffered_pos_of_fillIfEmpty hfst
        simp only [if_neg hfst, rwrite_all hr]
        generalize (fillIfEmpty c).2 = c' at *
        have hk : min len c'.stream.buffered ≤ c'.stream.buffered := Nat.min_le_right _ _
        have hle := buffered_le hready
        have hadvance := advance_proceeds hready hk
        have hmet := unread_take hready hk
        rw [havail] at hadvance hmet hle
        generalize hmin : min len c'.stream.buffered = k at *
        rw [if_neg (by omega), hmet]
        obtain ⟨hevents, hwrites, hrest, hcode⟩ := @ih (len - k) (by omega) (c'.advance k)
          hadvance.1 (r.push (.write (c.available.take k))) hr
        rw [hadvance.2.1] at hevents hrest hcode
        rw [after_drop (by omega) (by omega)] at hrest hcode
        refine ⟨?_, hwrites, ?_, hcode⟩
        · rw [hevents, events_push, ReplyOp.bytewise, List.append_assoc, ← List.map_append,
            ← List.take_add, Nat.add_sub_cancel' (by omega)]
        · exact Proceeds.append ⟨hadvance.1, hadvance.2.1, fun hf => hadvance.2.2 (hflushes hf)⟩
            hrest
      · simp only [if_pos hfst]
        rw [hnil, List.take_nil, after_of_lt (by rw [List.length_nil]; omega)]
        exact ⟨by simp, hr, hnone, by simp⟩

theorem behind?_of_ne {code : Byte} (hheader : code ≠ cseHeader)
    (hbare : ¬ (code = cseFlushCode ∨ code = cseKeepalive ∨ code = cseSendHeader)) (len : ℕ)
    (bs : List Byte) : behind? code len bs = after len bs := by
  rw [behind?, if_neg hheader, if_neg hbare]

/-- A packet does to the reply what `packetOps` says, and leaves what `behind?` says. -/
theorem handlePacket_ready (code : Byte) (len : ℕ) (m : Locals) {x : Relay} (h : x.conn.Ready)
    (hr : x.reply.writes = [])
    (hsafe : x.conn.Flushes ∨ (code = cseHeader → (behind? code len x.conn.available).isSome)) :
    (handlePacket code.toNat len m x).1 =
        (if behind? code len x.conn.available = none ∧ code = cseData then -1
          else (code.toNat : ℤ)) ∧
      (handlePacket code.toNat len m x).2.1 = packetLocals m code len x.conn.available ∧
      (handlePacket code.toNat len m x).2.2.reply.events =
        x.reply.events ++ packetOps m code len x.conn.available ∧
      (handlePacket code.toNat len m x).2.2.reply.writes = [] ∧
      (handlePacket code.toNat len m x).2.2.keepalive =
        (x.keepalive || decide (code = cseKeepalive)) ∧
      Proceeds x.conn (handlePacket code.toNat len m x).2.2.conn
        (behind? code len x.conn.available) := by
  have hnot : (code.toNat : ℤ) ≠ -1 := by omega
  obtain ⟨hbytes, hrest⟩ := cseReadAll_ready h len
  unfold handlePacket packetOps packetLocals
  simp only [byte_cast_inj, if_neg hnot]
  by_cases hstatus : code = cseStatus
  · subst hstatus
    rw [behind?_of_ne (by decide) (by decide)]
    simp only [if_true, hbytes]
    refine ⟨by simp [cseStatus, cseData], rfl, ?_, hr, by simp [cseStatus, cseKeepalive], hrest⟩
    exact events_push _ _
  simp only [if_neg hstatus]
  by_cases hheader : code = cseHeader
  · subst hheader
    simp only [if_true, hbytes]
    have hop (key value : Mem) :
        (if strcaseEq (key.cstr 0) (ascii "content-type".toList) = true then
            ReplyOp.contentType (value.cstr 0)
          else if strcaseEq (key.cstr 0) (ascii "set-cookie".toList) = true then
            .tableAdd (key.cstr 0) (value.cstr 0)
          else .tableSet (key.cstr 0) (value.cstr 0)) = headerOp key value := rfl
    simp only [hop, events_push, headerOp_bytewise]
    cases hafter : after len x.conn.available with
    | none =>
        have hnone : behind? cseHeader len x.conn.available = none := by
          rw [behind?, if_pos rfl, hafter, Option.bind_none]
        rw [hafter] at hrest
        have hflushes := hsafe.resolve_right fun hsome => by simp [hnone] at hsome
        have hclosed := hrest hflushes
        have hvalue : (cseReadString (cseReadAll x.conn len).2.2 m.value localLength).2.1 =
            m.value := by
          rw [cseReadString_eq]
          simp only [readHeader_closed hclosed, true_or, if_true]
        simp only [hnone, hvalue]
        exact ⟨by simp [cseHeader, cseData], rfl, rfl, hr, by simp [cseHeader, cseKeepalive],
          fun _ => cseReadString_closed _ _ hclosed⟩
    | some rest =>
        rw [hafter] at hrest
        have hbehind : behind? cseHeader len x.conn.available = behindString? rest := by
          rw [behind?, if_pos rfl, hafter, Option.bind_some]
        have henough : (cseReadAll x.conn len).2.2.Flushes ∨
            (behindString? (cseReadAll x.conn len).2.2.available).isSome := by
          rw [hrest.2.1, ← hbehind]
          exact hsafe.imp hrest.2.2 fun hsome => hsome rfl
        obtain ⟨hmem, hstring⟩ := cseReadString_ready hrest.1 henough m.value localLength
        rw [hrest.2.1] at hmem hstring
        rw [hbehind]
        simp only [hmem]
        exact ⟨by simp [cseHeader, cseData], rfl, rfl, hr, by simp [cseHeader, cseKeepalive],
          hrest.append hstring⟩
  simp only [if_neg hheader]
  by_cases hdata : code = cseData
  · subst hdata
    rw [behind?_of_ne (by decide) (by decide)]
    obtain ⟨hevents, hwrites, hproceeds, hcode⟩ := writeResponseLoop_ready (Nat.le_refl len) h hr
    simp only [if_true, cseWriteResponse, true_or, and_true, hcode]
    exact ⟨trivial, trivial, hevents, hwrites, by simp [cseData, cseKeepalive], hproceeds⟩
  simp only [if_neg hdata]
  by_cases hflush : code = cseFlushCode
  · subst hflush
    have hbehind : behind? cseFlushCode len x.conn.available = some x.conn.available := rfl
    simp only [hbehind, if_true, true_or, or_true, events_push]
    exact ⟨by simp, trivial, rfl, hr, by simp [cseFlushCode, cseKeepalive], h, rfl, id⟩
  simp only [if_neg hflush]
  by_cases hkeepalive : code = cseKeepalive
  · subst hkeepalive
    have hbehind : behind? cseKeepalive len x.conn.available = some x.conn.available := rfl
    simp only [hbehind, if_true, true_or, or_true]
    exact ⟨by simp, trivial, by simp [cseKeepalive, cseSendHeader], hr, by simp, h, rfl, id⟩
  simp only [if_neg hkeepalive]
  by_cases hsend : code = cseSendHeader
  · subst hsend
    have hbehind : behind? cseSendHeader len x.conn.available = some x.conn.available := rfl
    simp only [hbehind, if_true, or_true, events_push]
    exact ⟨by simp, trivial, rfl, hr, by simp [cseSendHeader, cseKeepalive], h, rfl, id⟩
  · have hbare : ¬ (code = cseFlushCode ∨ code = cseKeepalive ∨ code = cseSendHeader) := by
      simp [hflush, hkeepalive, hsend]
    rw [behind?_of_ne hheader hbare]
    simp only [hsend, hdata, hflush, hkeepalive, or_self, and_false, if_false, hbytes,
      List.append_nil, decide_false, Bool.or_false]
    exact ⟨trivial, trivial, trivial, hr, trivial, hrest⟩

/-- One round of `send_data` on a packet with its header. -/
theorem sendPacket_ready (m : Locals) {x : Relay} (h : x.conn.Ready) {code b₁ b₂ b₃ : Byte}
    {bs : List Byte} (hbs : x.conn.available = code :: b₁ :: b₂ :: b₃ :: bs) :
    ∃ c', Proceeds x.conn c' (some bs) ∧
      sendPacket m x = handlePacket code.toNat (ofBe24 b₁ b₂ b₃) m
        { x with conn := c', heard := x.heard ++ [(code.toNat : ℤ)] } := by
  obtain ⟨c', hheader, hrest⟩ := readHeader_ready h hbs
  have hopen : ¬ c'.stream.socket < 0 := Int.not_lt.mpr hrest.1.socket
  refine ⟨c', hrest, ?_⟩
  rw [sendPacket_eq]
  simp only [hheader, if_neg hopen, low8_toNat]
  rfl

/-- One round of `send_data` that does not find a packet header. -/
theorem sendPacket_short (m : Locals) {x : Relay} (h : x.conn.Ready)
    (hshort : x.conn.available.length < 4) (hflushes : x.conn.Flushes) :
    (sendPacket m x).1 = -1 ∧ (sendPacket m x).2.2.reply = x.reply ∧
      (sendPacket m x).2.2.keepalive = x.keepalive ∧
      Proceeds x.conn (sendPacket m x).2.2.conn none := by
  have hclosed := readHeader_short h hshort
  rw [sendPacket_eq]
  simp only [if_pos (hclosed hflushes)]
  exact ⟨trivial, trivial, trivial, hclosed⟩

/-- What `send_data` did, in terms of what it does with a byte string. -/
structure Does (x : Relay) (result : ℤ) (x' : Relay) (o : Outcome) : Prop where
  code : result = o.code
  events : x'.reply.events = x.reply.events ++ o.ops
  writes : x'.reply.writes = []
  keepalive : x'.keepalive = (x.keepalive || o.keepalive)
  rest : Proceeds x.conn x'.conn o.rest

theorem sendDataLoop_lost (ack : Byte) (fuel : ℕ) (m : Locals) {x : Relay}
    (h : x.conn.stream.socket < 0) :
    (sendDataLoop ack (fuel + 1) m x).2.reply = x.reply ∧
      (sendDataLoop ack (fuel + 1) m x).2.keepalive = x.keepalive := by
  have hcode := (sendPacket_closed m h).1
  have hclosed := readHeader_closed h
  have hsame : (sendPacket m x).2.2.reply = x.reply ∧
      (sendPacket m x).2.2.keepalive = x.keepalive := by
    rw [sendPacket_eq]
    simp only [if_pos hclosed]
    exact ⟨trivial, trivial⟩
  unfold sendDataLoop
  simp only [hcode]
  rw [if_neg (by omega)]
  exact hsame

theorem length_after {len : ℕ} {bs rest : List Byte} (h : after len bs = some rest) :
    rest.length ≤ bs.length := by
  unfold after at h
  split at h
  · cases h
    rw [List.length_drop]
    exact Nat.sub_le _ _
  · cases h

theorem length_behind? {code : Byte} {len : ℕ} {bs rest : List Byte}
    (h : behind? code len bs = some rest) : rest.length ≤ bs.length := by
  unfold behind? at h
  split at h
  · obtain ⟨bs', hbs', hstring⟩ := Option.bind_eq_some_iff.mp h
    have hle := length_after hbs'
    unfold behindString? at hstring
    split at hstring
    · have hle' := length_after hstring
      simp only [List.length_cons] at hle
      omega
    · cases hstring
  · split at h
    · cases h
      exact Nat.le_refl _
    · exact length_after h

/-- The loop of `send_data` does with a stream what `relay` does with the bytes that are
available on it. -/
theorem sendDataLoop_relay {ack : Byte} {fuel n : ℕ} (m : Locals) {x : Relay}
    (h : x.conn.Ready) (hr : x.reply.writes = []) (hfuel : x.conn.remaining < fuel)
    (hn : x.conn.available.length ≤ n) (hflushes : x.conn.Flushes) :
    Does x (sendDataLoop ack fuel m x).1 (sendDataLoop ack fuel m x).2
      (relay ack n m x.conn.available) := by
  induction fuel generalizing n m x with
  | zero => omega
  | succ fuel ih =>
      rcases header_cases x.conn.available with ⟨code, b₁, b₂, b₃, bs, hbs⟩ | hshort
      · obtain ⟨n, rfl⟩ : ∃ k, n = k + 1 := ⟨n - 1, by rw [hbs, List.length_cons] at hn; omega⟩
        obtain ⟨c', hrest, hround⟩ := sendPacket_ready m h hbs
        rw [hbs, relay]
        generalize hlen : ofBe24 b₁ b₂ b₃ = len at *
        obtain ⟨hcode, hlocals, hevents, hwrites, hkeepalive, hproceeds⟩ :=
          @handlePacket_ready code len m
            { x with conn := c', heard := x.heard ++ [(code.toNat : ℤ)] } hrest.1 hr
            (Or.inl (hrest.2.2 hflushes))
        have hless := @sendPacket_remaining m x
        rw [hrest.2.1] at hcode hlocals hevents hproceeds
        rw [← hround] at hcode hlocals hevents hwrites hkeepalive hproceeds
        have hall := hrest.append hproceeds
        unfold sendDataLoop
        generalize sendPacket m x = round at *
        obtain ⟨result, m', y⟩ := round
        simp only at hcode hlocals hevents hwrites hkeepalive hall hless ⊢
        cases hbehind : behind? code len bs with
        | none =>
            rw [hbehind] at hcode hall
            simp only [true_and] at hcode
            by_cases hdata : code = cseData
            · rw [if_pos hdata] at hcode
              rw [hcode, if_neg (by omega)]
              exact ⟨by simp [hdata], hevents, hwrites, hkeepalive, hall⟩
            rw [if_neg hdata] at hcode
            by_cases hstop : Stops ack code
            · rw [hcode, if_neg fun hgo => (go_iff ack code).mp hgo hstop]
              exact ⟨by simp [hdata, hstop], hevents, hwrites, hkeepalive, hall⟩
            · have hgo := (go_iff ack code).mpr hstop
              rw [hcode] at hless ⊢
              have hpos := hless hgo.1
              obtain ⟨fuel, rfl⟩ : ∃ k, fuel = k + 1 := ⟨fuel - 1, by omega⟩
              obtain ⟨hresult, -, hclosed⟩ := sendDataLoop_closed ack fuel m' (hall hflushes)
              obtain ⟨hreply, hkeep⟩ := sendDataLoop_lost ack fuel m' (hall hflushes)
              rw [if_pos hgo]
              refine ⟨by simp [hresult, hstop], ?_, ?_, ?_, fun _ => hclosed⟩
              · rw [hreply]
                exact hevents
              · rw [hreply]
                exact hwrites
              · rw [hkeep]
                exact hkeepalive
        | some rest =>
            rw [hbehind] at hcode hall
            simp only [reduceCtorEq, false_and, if_false] at hcode
            by_cases hstop : Stops ack code
            · rw [hcode, if_neg fun hgo => (go_iff ack code).mp hgo hstop]
              simp only [if_pos hstop]
              exact ⟨rfl, hevents, hwrites, hkeepalive, hall⟩
            · have hgo := (go_iff ack code).mpr hstop
              rw [hcode] at hless ⊢
              have hpos := hless hgo.1
              have hle := length_behind? hbehind
              rw [hbs] at hn
              simp only [List.length_cons] at hn
              obtain ⟨hready, havail, hkept⟩ := hall
              have hthen := @ih n m' y hready hwrites (by omega) (by rw [havail]; omega)
                (hkept hflushes)
              rw [havail, hlocals] at hthen
              rw [if_pos hgo, hlocals]
              simp only [if_neg hstop]
              refine ⟨hthen.code, ?_, hthen.writes, ?_, Proceeds.append ⟨hready, havail, hkept⟩
                hthen.rest⟩
              · rw [hthen.events, hevents, List.append_assoc]
              · rw [hthen.keepalive, hkeepalive, Bool.or_assoc]
      · have hnone := @relay_of_short ack n m _ hshort
        obtain ⟨hcode, hreply, hkeepalive, hproceeds⟩ := sendPacket_short m h hshort hflushes
        unfold sendDataLoop
        generalize sendPacket m x = round at *
        obtain ⟨result, m', y⟩ := round
        simp only at hcode hreply hkeepalive hproceeds ⊢
        rw [hcode, if_neg (by omega), hnone]
        exact ⟨rfl, by rw [hreply, List.append_nil], by rw [hreply]; exact hr,
          by rw [hkeepalive, Bool.or_false], hproceeds⟩

end ModCaucho
