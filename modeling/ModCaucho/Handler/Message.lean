import ModCaucho.Handler.Cut
import ModCaucho.Handler.Hop
import ModCaucho.Handler.InFrame

/-!
# The answer of a runner

An answer is a list of parts, each with its own meaning for the reply: a status, a header,
some of the body, and the requests to flush, to send the header and to keep the connection.
The packets that spell an answer are read back by `send_data` as what the answer means,
whatever the local arrays held before. The types of the parts carry what this rests on: the
strings hold no NUL and fit the arrays, and a status line starts behind a blank.
-/

namespace ModCaucho

open Framing CString

/-! ## Parts -/

/-- A string without a NUL that is shorter than `n`. -/
structure Field (n : ℕ) where
  bytes : List Byte
  noNul : ∀ b ∈ bytes, b ≠ 0
  short : bytes.length < n

/-- The text of a STATUS packet: a version, a blank, and the status line. -/
structure StatusText where
  version : List Byte
  line : List Byte
  noBlank : ∀ b ∈ version, b ≠ 32
  noNul : ∀ b ∈ version ++ 32 :: line, b ≠ 0
  short : (version ++ 32 :: line).length < localLength

/-- The codes that `send_data` knows, with the ones that end it. -/
def knownCodes : List Byte :=
  [0, cseStatus, cseHeader, cseData, cseFlushCode, cseKeepalive, cseSendHeader, cseEnd,
    cseCloseCode, cseAck]

/-- A packet that is read and passed over. -/
structure Unknown where
  frame : Frame
  code : frame.code ∉ knownCodes
  short : frame.payload.length ≤ localLength

/-- Part of the answer of a runner. -/
inductive Part
  | status (text : StatusText)
  | header (key : Field localLength) (value : Field bufLength)
  | data (bytes : {bytes : List Byte // bytes.length < 2 ^ 24})
  | flush
  | keepalive
  | sendHeader
  | unknown (packet : Unknown)

/-- The packets of a part. -/
def Part.frames : Part → List Frame
  | .status text => [⟨cseStatus, text.version ++ 32 :: text.line⟩]
  | .header key value => [⟨cseHeader, key.bytes⟩, ⟨cseValue, value.bytes⟩]
  | .data bytes => [⟨cseData, bytes⟩]
  | .flush => [⟨cseFlushCode, []⟩]
  | .keepalive => [⟨cseKeepalive, []⟩]
  | .sendHeader => [⟨cseSendHeader, []⟩]
  | .unknown packet => [packet.frame]

/-- What a part means for the reply, one byte of a body at a time. -/
def Part.ops : Part → List ReplyOp
  | .status text => [.status (atoi text.line) text.line]
  | .header key value =>
      if strcaseEq key.bytes (ascii "content-type".toList) then [.contentType value.bytes]
      else if strcaseEq key.bytes (ascii "set-cookie".toList) then
        [.tableAdd key.bytes value.bytes]
      else [.tableSet key.bytes value.bytes]
  | .data bytes => bytes.1.map fun b => .write [b]
  | .flush => [.flush]
  | .sendHeader => [.sendHeader]
  | .keepalive => []
  | .unknown _ => []

/-- The part asks for the connection to be kept. -/
def Part.asks : Part → Bool
  | .keepalive => true
  | _ => false

/-! ## Arrays that hold a string -/

theorem cstr_cons {m : Mem} {start : ℕ} (hlt : start < localLength) (hne : m start ≠ 0) :
    m.cstr start = m start :: m.cstr (start + 1) := by
  have hlen : localLength - start = localLength - (start + 1) + 1 := by omega
  rw [Mem.cstr, Mem.cstr, hlen, List.range'_succ, List.map_cons,
    List.takeWhile_cons_of_pos (by simp [hne])]

/-- The string of an array that holds these bytes from some index on, with a NUL behind. -/
theorem cstr_from {m : Mem} {bytes : List Byte} {start : ℕ}
    (hlen : start + bytes.length < localLength) (hbytes : ∀ b ∈ bytes, b ≠ 0)
    (hget : ∀ (i : ℕ) (h : i < bytes.length), m (start + i) = bytes[i])
    (hnul : m (start + bytes.length) = 0) : m.cstr start = bytes := by
  induction bytes generalizing start with
  | nil => exact (cstr_eq_nil_iff m start).mpr (Or.inr hnul)
  | cons b bytes ih =>
      rw [List.length_cons] at hlen hnul
      have hfirst : m start = b := hget 0 (Nat.succ_pos _)
      have hne : m start ≠ 0 := by
        rw [hfirst]
        exact hbytes b List.mem_cons_self
      have hrest : m.cstr (start + 1) = bytes := by
        refine ih (by omega) (fun b' hb' => hbytes b' (List.mem_cons_of_mem b hb')) ?_ ?_
        · intro i hi
          have hnext := hget (i + 1) (Nat.succ_lt_succ hi)
          rw [show start + 1 + i = start + (i + 1) by omega, hnext]
          rfl
        · rw [show start + 1 + bytes.length = start + (bytes.length + 1) by omega, hnul]
      rw [cstr_cons (by omega) hne, hfirst, hrest]

theorem payload_front (m : Mem) (s bs : List Byte) {i : ℕ} (hi : i < s.length) :
    m.payload s.length (s ++ bs) i = s[i] := by
  rw [payload_get m (by simp), if_pos hi, List.take_left, List.getD_eq_getElem _ _ hi]

theorem payload_nul (m : Mem) (s bs : List Byte) :
    m.payload s.length (s ++ bs) s.length = 0 := by
  rw [payload_get m (by simp), if_neg (Nat.lt_irrefl _), if_pos rfl]

/-- What was read to an array is a string in it, from wherever one starts. -/
theorem cstr_payload_drop (m : Mem) {s : List Byte} (hs : ∀ b ∈ s, b ≠ 0)
    (hshort : s.length < localLength) (bs : List Byte) {n : ℕ} (hn : n ≤ s.length) :
    (m.payload s.length (s ++ bs)).cstr n = s.drop n := by
  have hlen : n + (s.drop n).length = s.length := by
    rw [List.length_drop]
    omega
  refine cstr_from (by omega) (fun b hb => hs b (List.mem_of_mem_drop hb)) (fun i hi => ?_) ?_
  · rw [List.length_drop] at hi
    rw [payload_front m s bs (by omega), List.getElem_drop]
  · rw [hlen, payload_nul]

theorem cstr_payload_front (m : Mem) {s : List Byte} (hs : ∀ b ∈ s, b ≠ 0)
    (hshort : s.length < localLength) (bs : List Byte) :
    (m.payload s.length (s ++ bs)).cstr 0 = s :=
  cstr_payload_drop m hs hshort bs (Nat.zero_le _)

theorem statusOp_text (m : Mem) (text : StatusText) (bs : List Byte) :
    statusOp (m.payload (text.version ++ 32 :: text.line).length
      (text.version ++ 32 :: text.line ++ bs)) = .status (atoi text.line) text.line := by
  have hword : (text.version ++ 32 :: text.line).takeWhile (· ≠ 32) = text.version := by
    rw [List.takeWhile_append_of_pos (by simpa using text.noBlank),
      List.takeWhile_cons_of_neg (by simp), List.append_nil]
  have hline : (text.version ++ 32 :: text.line).drop (text.version.length + 1) = text.line := by
    rw [List.drop_append, List.drop_of_length_le (by omega)]
    simp
  unfold statusOp
  simp only [cstr_payload_front m text.noNul text.short, hword]
  rw [cstr_payload_drop m text.noNul text.short bs (by simp), hline]

theorem headerOp_fields (m m' : Mem) (key : Field localLength) (value : Field bufLength)
    (bs rest : List Byte) :
    [headerOp (m.payload key.bytes.length (key.bytes ++ bs))
      (readString m' localLength (encode ⟨cseValue, value.bytes⟩ ++ rest))] =
      (Part.header key value).ops := by
  have hshort := value.short
  have hvalue : (readString m' localLength (encode ⟨cseValue, value.bytes⟩ ++ rest)).cstr 0 =
      value.bytes := by
    have hmod : value.bytes.length % 2 ^ 24 = value.bytes.length :=
      Nat.mod_eq_of_lt (Nat.lt_trans hshort (by decide))
    rw [encode, List.append_assoc, readString_header]
    change (limited m' bufLength (value.bytes.length % 2 ^ 24) _).cstr 0 = _
    rw [hmod, cstr_limited_front m' value.noNul (Nat.le_of_lt hshort),
      List.take_of_length_le (Nat.le_sub_one_of_lt hshort)]
  rw [headerOp, cstr_payload_front m key.noNul key.short, hvalue, Part.ops]
  split
  · rfl
  · split <;> rfl

/-! ## One part -/

/-- An outcome with what a part means in front. -/
def Outcome.behind (o : Outcome) (ops : List ReplyOp) (keepalive : Bool) : Outcome :=
  { o with ops := ops ++ o.ops, keepalive := keepalive || o.keepalive }

theorem relay_frame {ack : Byte} (n : ℕ) (m : Locals) {code : Byte} {payload bs rest : List Byte}
    (hsized : payload.length < 2 ^ 24) (hgo : ¬ Stops ack code)
    (hbehind : behind? code payload.length (payload ++ bs) = some rest) :
    relay ack (n + 1) m (encode ⟨code, payload⟩ ++ bs) =
      (relay ack n (packetLocals m code payload.length (payload ++ bs)) rest).behind
        (packetOps m code payload.length (payload ++ bs)) (decide (code = cseKeepalive)) := by
  have hlen := ofBe24_be24 hsized
  rw [encode, List.append_assoc]
  simp only [header, List.cons_append, List.nil_append, relay, hlen, hbehind, if_neg hgo]
  rfl

theorem relay_stop {ack code : Byte} (n : ℕ) (m : Locals) (hstop : Stops ack code)
    (hpart : code ∉ [cseStatus, cseHeader, cseData, cseKeepalive, cseSendHeader, cseFlushCode])
    (rest : List Byte) :
    relay ack (n + 1) m (encode ⟨code, []⟩ ++ rest) = ⟨code.toNat, [], false, some rest⟩ := by
  simp only [List.mem_cons, List.not_mem_nil, or_false, not_or] at hpart
  obtain ⟨hstatus, hheader, hdata, hkeepalive, hsend, hflush⟩ := hpart
  have hbehind : behind? code 0 rest = some rest := by
    rw [behind?, if_neg hheader]
    split
    · rfl
    · exact after_zero rest
  have hops : packetOps m code 0 rest = [] := by
    rw [packetOps, if_neg hstatus, if_neg hheader, if_neg hdata, if_neg hflush, if_neg hsend]
  have hlen : ofBe24 (be24 0).1 (be24 0).2.1 (be24 0).2.2 = 0 := rfl
  simp only [encode, header, List.length_nil, List.append_nil, List.cons_append,
    List.nil_append, relay, hlen, hbehind, if_pos hstop, hops, decide_eq_false hkeepalive]

theorem behind?_plain {code : Byte} {payload : List Byte} (hheader : code ≠ cseHeader)
    (hbare : Bare code → payload = []) (bs : List Byte) :
    behind? code payload.length (payload ++ bs) = some bs := by
  rw [behind?, if_neg hheader]
  split
  · next hcode => rw [hbare hcode, List.nil_append]
  · exact after_append payload bs

theorem behind?_pair (key : List Byte) {value : List Byte} (h : value.length < 2 ^ 24)
    (bs : List Byte) :
    behind? cseHeader key.length (key ++ (encode ⟨cseValue, value⟩ ++ bs)) = some bs := by
  rw [behind?, if_pos rfl, after_append, Option.bind_some, encode, List.append_assoc,
    behindString?_header]
  change after (value.length % 2 ^ 24) _ = _
  rw [Nat.mod_eq_of_lt h, after_append]

theorem sized_of_lt_localLength {bytes : List Byte} (h : bytes.length < localLength) :
    bytes.length < 2 ^ 24 := Nat.lt_trans h (by decide)

/-- A packet on its own that is neither a HEADER nor one to stop at. -/
theorem relay_single {ack : Byte} (n : ℕ) (m : Locals) {code : Byte} {payload : List Byte}
    (hsized : payload.length < 2 ^ 24) (hgo : ¬ Stops ack code) (hheader : code ≠ cseHeader)
    (hbare : Bare code → payload = []) (bs : List Byte) :
    ∃ m', relay ack (n + 1) m (encodeAll [⟨code, payload⟩] ++ bs) =
      (relay ack n m' bs).behind (packetOps m code payload.length (payload ++ bs))
        (decide (code = cseKeepalive)) := by
  rw [encodeAll_cons, encodeAll_nil, List.append_nil]
  exact ⟨_, relay_frame n m hsized hgo (behind?_plain hheader hbare bs)⟩

/-- A part is handled in one round, and means the same whatever the arrays hold. -/
theorem relay_part {ack : Byte} (hack : ack = cseAck ∨ ack = cseEnd) (n : ℕ) (m : Locals)
    (p : Part) (bs : List Byte) :
    ∃ m', relay ack (n + 1) m (encodeAll p.frames ++ bs) =
      (relay ack n m' bs).behind p.ops p.asks := by
  have hgo : ∀ code, (Stops ack code → code ∈ [0, cseEnd, cseCloseCode, cseAck]) := by
    intro code hstop
    rcases hack with rfl | rfl <;> rcases hstop with rfl | rfl | rfl | rfl <;> decide
  have hnil : ([] : List Byte).length < 2 ^ 24 := by decide
  cases p with
  | status text =>
      obtain ⟨m', hround⟩ := relay_single n m (sized_of_lt_localLength text.short)
        (fun h => absurd (hgo cseStatus h) (by decide)) (by decide)
        (fun h => absurd h (by decide)) bs
      refine ⟨m', hround.trans ?_⟩
      rw [packetOps_status]
      exact congrArg (fun op => Outcome.behind _ [op] false) (statusOp_text m.buf text bs)
  | header key value =>
      have hvalue := sized_of_lt_localLength (Nat.lt_trans value.short (by decide))
      have hround := relay_frame n m (sized_of_lt_localLength key.short)
        (fun h => absurd (hgo cseHeader h) (by decide)) (behind?_pair key.bytes hvalue bs)
      have hops := headerOp_fields m.key m.value key value
        (encode ⟨cseValue, value.bytes⟩ ++ bs) bs
      rw [packetOps_header] at hround
      simp only [packetLocals, if_true, after_append] at hround
      rw [if_neg (by decide)] at hround
      rw [hops] at hround
      rw [Part.frames, encodeAll_cons, encodeAll_cons, encodeAll_nil, List.append_nil,
        List.append_assoc]
      exact ⟨_, hround⟩
  | data bytes =>
      obtain ⟨m', hround⟩ := relay_single n m bytes.2
        (fun h => absurd (hgo cseData h) (by decide)) (by decide)
        (fun h => absurd h (by decide)) bs
      refine ⟨m', hround.trans ?_⟩
      rw [packetOps_data, List.take_left]
      rfl
  | flush =>
      exact relay_single n m hnil
        (fun h => absurd (hgo cseFlushCode h) (by decide)) (by decide) (fun _ => rfl) bs
  | keepalive =>
      exact relay_single n m hnil
        (fun h => absurd (hgo cseKeepalive h) (by decide)) (by decide) (fun _ => rfl) bs
  | sendHeader =>
      exact relay_single n m hnil
        (fun h => absurd (hgo cseSendHeader h) (by decide)) (by decide) (fun _ => rfl) bs
  | unknown packet =>
      obtain ⟨⟨code, payload⟩, hcode, hshort⟩ := packet
      have hne : ∀ known ∈ knownCodes, code ≠ known := fun known hmem heq => hcode (heq ▸ hmem)
      have hstops : ∀ code ∈ [0, cseEnd, cseCloseCode, cseAck], code ∈ knownCodes := by
        decide +kernel
      obtain ⟨m', hround⟩ := relay_single n m
        (Nat.lt_of_le_of_lt hshort (by decide))
        (fun h => hcode (hstops code (hgo code h)))
        (hne cseHeader (by decide))
        (fun h => h.elim (fun heq => absurd heq (hne _ (by decide))) fun h =>
          h.elim (fun heq => absurd heq (hne _ (by decide))) fun heq =>
            absurd heq (hne _ (by decide))) bs
      refine ⟨m', hround.trans ?_⟩
      rw [packetOps, if_neg (hne cseStatus (by decide)), if_neg (hne cseHeader (by decide)),
        if_neg (hne cseData (by decide)), if_neg (hne cseFlushCode (by decide)),
        if_neg (hne cseSendHeader (by decide)), decide_eq_false (hne cseKeepalive (by decide))]
      rfl

/-! ## A whole answer -/

/-- The bytes of an answer: its parts, and then the packet that ends it. -/
def answerBytes (parts : List Part) (stop : Byte) : List Byte :=
  encodeAll (parts.flatMap Part.frames) ++ encode ⟨stop, []⟩

/-- What an answer means for the reply. -/
def answerOps (parts : List Part) : List ReplyOp := parts.flatMap Part.ops

/-- `send_data` reads an answer back as what it means, and stops behind it. -/
theorem relay_answer {ack stop : Byte} (hack : ack = cseAck ∨ ack = cseEnd)
    (hstop : Stops ack stop) (hcode : stop ∈ [cseEnd, cseCloseCode, cseAck]) {n : ℕ}
    (m : Locals) (parts : List Part) (hn : parts.length < n) (rest : List Byte) :
    relay ack n m (answerBytes parts stop ++ rest) =
      ⟨stop.toNat, answerOps parts, parts.any Part.asks, some rest⟩ := by
  induction parts generalizing n m with
  | nil =>
      obtain ⟨k, rfl⟩ : ∃ k, n = k + 1 := ⟨n - 1, by simp only [List.length_nil] at hn; omega⟩
      have hpart : ∀ code ∈ [cseEnd, cseCloseCode, cseAck],
          code ∉ [cseStatus, cseHeader, cseData, cseKeepalive, cseSendHeader, cseFlushCode] := by
        decide +kernel
      exact relay_stop k m hstop (hpart stop hcode) rest
  | cons p parts ih =>
      rw [List.length_cons] at hn
      obtain ⟨k, rfl⟩ : ∃ k, n = k + 1 := ⟨n - 1, by omega⟩
      have hbytes : answerBytes (p :: parts) stop ++ rest =
          encodeAll p.frames ++ (answerBytes parts stop ++ rest) := by
        simp only [answerBytes, encodeAll, List.flatMap_cons, List.flatMap_append,
          List.append_assoc]
      obtain ⟨m', hround⟩ := relay_part hack k m p (answerBytes parts stop ++ rest)
      rw [hbytes, hround, ih m' (Nat.lt_of_succ_lt_succ hn)]
      rfl

/-- There is a byte for each part and one more. -/
theorem length_answerBytes (parts : List Part) (stop : Byte) :
    parts.length < (answerBytes parts stop).length := by
  have hparts : parts.length ≤ (encodeAll (parts.flatMap Part.frames)).length := by
    induction parts with
    | nil => exact Nat.zero_le _
    | cons p parts ih =>
        have hpos : 1 ≤ (encodeAll p.frames).length := by
          cases p <;> simp only [Part.frames, encodeAll_cons, List.length_append, length_encode] <;>
            omega
        simp only [List.flatMap_cons, encodeAll, List.flatMap_append, List.length_append,
          List.length_cons] at ih hpos ⊢
        omega
  rw [answerBytes, List.length_append, length_encode]
  omega

end ModCaucho
