import ModCaucho.Handler.Program

/-!
# The two buffers of a stream

What the functions of `stream.c` and `cse_write_response` keep about the counters of a
stream, and which bytes of `read_buf` and `write_buf` they touch. The lengths are the
`int`s that the functions take. `cse_write` adds two of them before it compares: with a
length near the largest `int` the sum wraps around, and what does not fit is copied. That
is the only way out of the buffers.
-/

namespace ModCaucho

open Framing

/-! ## Accesses -/

/-- An access to a buffer of a stream. A byte of `read_buf` is read when the last
successful `recv` has stored `received` bytes; a byte of `write_buf` is written. -/
inductive Access
  | read (index received : ℕ)
  | write (index : ℕ)
deriving DecidableEq, Repr

def Access.InBounds : Access → Prop
  | read index received => index < received
  | write index => index < bufLength

/-- The next `n` bytes of the read buffer are read. -/
def Conn.readSpan (c : Conn) (n : ℕ) : List Access :=
  (List.range' c.stream.readOffset n).map fun i => .read i c.stream.readBuf.length

/-- The next `n` bytes of the write buffer are written. -/
def Conn.writeSpan (c : Conn) (n : ℕ) : List Access :=
  (List.range' c.stream.writeLength n).map .write

/-- The accesses of `cse_read_byte`. -/
def byteAccesses (c : Conn) : List Access :=
  let (filled, c) := fillIfEmpty c
  if filled < 0 then [] else c.readSpan 1

/-- The accesses of the loop of `cse_read_all`. The loop of `cse_skip` has none. -/
def loopAccesses : ℕ → ℕ → Conn → List Access
  | 0, _, _ => []
  | fuel + 1, len, c =>
      if len = 0 then []
      else
        let (filled, c) := fillIfEmpty c
        if filled < 0 then []
        else
          let sublen := min len c.stream.buffered
          c.readSpan sublen ++ loopAccesses fuel (len - sublen) (c.advance sublen)

/-- The accesses of `cse_read_all`. -/
def allAccesses (c : Conn) (len : ℕ) : List Access := loopAccesses len len c

/-- The accesses of the loop of `cse_write_response`. -/
def responseAccesses : ℕ → ℕ → Conn → Reply → List Access
  | 0, _, _, _ => []
  | fuel + 1, len, c, r =>
      if len = 0 then []
      else
        let (filled, c) := fillIfEmpty c
        if filled < 0 then []
        else
          let sublen := min len c.stream.buffered
          let (sentlen, r) := r.rwrite (c.stream.unread.take sublen)
          c.readSpan sublen ++
            if sentlen < 0 then []
            else responseAccesses fuel (len - sublen) (c.advance sublen) r

/-! ## The functions at their `int` lengths -/

/-- The bytes that a caller has for a write, as many as an `int` can count. -/
structure Source where
  bytes : List Byte
  length_lt : bytes.length < 2 ^ 31
deriving DecidableEq, Repr

/-- `cse_read_limit` on the stream. A negative length reads nothing. -/
def cseReadLimitInt (c : Conn) (buflen readlen : Int32) : List Access × Conn :=
  if buflen > readlen then
    (allAccesses c readlen.toNatClampNeg, (cseReadAll c readlen.toNatClampNeg).2.2)
  else
    let c' := (cseReadAll c buflen.toNatClampNeg).2.2
    (allAccesses c buflen.toNatClampNeg, (cseSkip c' (readlen - buflen).toNatClampNeg).2)

/-- `cse_read_string` on the stream. -/
def cseReadStringInt (c : Conn) (length : Int32) : List Access × Conn :=
  let length := length - 1
  let (_, c₁) := cseReadByte c
  let (l1, c₂) := cseReadByte c₁
  let (l2, c₃) := cseReadByte c₂
  let (l3, c₄) := cseReadByte c₃
  let read := byteAccesses c ++ byteAccesses c₁ ++ byteAccesses c₂ ++ byteAccesses c₃
  let readLength := low8 l1 * 65536 + low8 l2 * 256 + low8 l3
  if c₄.stream.socket < 0 ∨ l3 < 0 then (read, c₄)
  else
    let (rest, c₅) := cseReadLimitInt c₄ length (Int32.ofNat readLength)
    (read ++ rest, c₅)

/-- On lengths that are not negative, this is `cse_read_limit` as it is on arrays. -/
theorem cseReadLimitInt_snd (c : Conn) (buf : Mem) {buflen readlen : ℕ} (hbuflen : buflen < 2 ^ 31)
    (hreadlen : readlen < 2 ^ 31) :
    (cseReadLimitInt c (Int32.ofNat buflen) (Int32.ofNat readlen)).2 =
      (cseReadLimit c buf buflen readlen).2.2 := by
  have hgt : Int32.ofNat buflen > Int32.ofNat readlen ↔ buflen > readlen := by
    rw [gt_iff_lt, Int32.lt_iff_toInt_lt, Int32.toInt_ofNat_of_lt hbuflen,
      Int32.toInt_ofNat_of_lt hreadlen, Int.ofNat_lt]
  unfold cseReadLimitInt cseReadLimit
  by_cases hfit : buflen > readlen
  · rw [if_pos (hgt.mpr hfit), if_pos hfit,
      Int32.toNatClampNeg_ofNat_of_lt hreadlen]
  · have hrest : (Int32.ofNat readlen - Int32.ofNat buflen).toNatClampNeg = readlen - buflen := by
      rw [Int32.toNatClampNeg, Int32.toInt_sub, Int32.toInt_ofNat_of_lt hbuflen,
        Int32.toInt_ofNat_of_lt hreadlen, Int.bmod_eq_of_le (by omega) (by omega)]
      omega
    rw [if_neg (mt hgt.mp hfit), if_neg hfit,
      Int32.toNatClampNeg_ofNat_of_lt hbuflen, hrest]

/-- On an array that is not empty, this is `cse_read_string` as it is on arrays. -/
theorem cseReadStringInt_snd (c : Conn) (buf : Mem) {length : ℕ} (hpos : 0 < length)
    (hlength : length < 2 ^ 31) :
    (cseReadStringInt c (Int32.ofNat length)).2 = (cseReadString c buf length).2.2 := by
  have hsub : Int32.ofNat length - 1 = Int32.ofNat (length - 1) := by
    apply Int32.toInt.inj
    rw [Int32.toInt_sub, Int32.toInt_ofNat_of_lt hlength, Int32.toInt_ofNat_of_lt (by omega),
      show (1 : Int32).toInt = 1 from rfl, Int.bmod_eq_of_le (by omega) (by omega)]
    omega
  have hlow (x : ℤ) : low8 x < 256 := by
    unfold low8
    omega
  unfold cseReadStringInt cseReadString
  simp only [hsub]
  split
  · rfl
  · refine cseReadLimitInt_snd _ buf (by omega) ?_
    have h₁ := hlow (cseReadByte (cseReadByte c).2).1
    have h₂ := hlow (cseReadByte (cseReadByte (cseReadByte c).2).2).1
    have h₃ := hlow (cseReadByte (cseReadByte (cseReadByte (cseReadByte c).2).2).2).1
    omega

/-- The test of `cse_write`, whose sum is an `int`. -/
def Conn.Exceeds (c : Conn) (length : ℕ) : Prop :=
  Int32.ofNat c.stream.writeLength + Int32.ofNat length > Int32.ofNat bufLength

instance (c : Conn) (length : ℕ) : Decidable (c.Exceeds length) :=
  inferInstanceAs (Decidable (_ > _))

/-- `cse_write` on the stream. Where the test lets pass what does not fit, the copy ends
behind the buffer, and what it overwrites there is left out. -/
def cseWriteInt (c : Conn) (buf : List Byte) : List Access × Conn :=
  if c.Exceeds buf.length then
    let (len, c) := makeRoom c
    if len < 0 then ([], cseClose c)
    else if buf.length > bufLength then
      let (len, c) := c.send c.stream.writeBuf
      ([], if len < 0 then cseClose c else c)
    else (c.writeSpan buf.length, c.append buf)
  else (c.writeSpan buf.length, c.append buf)

/-- `cse_write_packet` on the stream. -/
def cseWritePacketInt (c : Conn) (code : Byte) (buf : List Byte) : List Access × Conn :=
  let (head, c) := cseWriteInt c (header code buf.length)
  let (body, c) := cseWriteInt c buf
  (head ++ body, c)

/-! ## Operations -/

/-- A call of a function that works on the buffers of a stream. -/
inductive BufferOp
  | readByte
  | readAll (len : Int32)
  | skip (len : Int32)
  | readLimit (buflen readlen : Int32)
  | readString (length : Int32)
  | writeResponse (len : Int32) (r : Reply)
  | write (buf : Source)
  | writePacket (code : Byte) (buf : Source)
  | flush
  | fillBuffer
  | close
  | reuse (i : ℕ) (requestTime : UInt32)
deriving DecidableEq, Repr

/-- The accesses of a call and the state it leaves. -/
def BufferOp.run : BufferOp → Child → List Access × Child
  | readByte, p => (byteAccesses p.conn, p.withConn (cseReadByte p.conn).2)
  | readAll len, p =>
      (allAccesses p.conn len.toNatClampNeg,
        p.withConn (cseReadAll p.conn len.toNatClampNeg).2.2)
  | skip len, p => ([], p.withConn (cseSkip p.conn len.toNatClampNeg).2)
  | readLimit buflen readlen, p =>
      let (accesses, c) := cseReadLimitInt p.conn buflen readlen
      (accesses, p.withConn c)
  | readString length, p =>
      let (accesses, c) := cseReadStringInt p.conn length
      (accesses, p.withConn c)
  | writeResponse len r, p =>
      (responseAccesses len.toNatClampNeg len.toNatClampNeg p.conn r,
        p.withConn (cseWriteResponse p.conn len.toNatClampNeg r).2.1)
  | write buf, p =>
      let (accesses, c) := cseWriteInt p.conn buf.bytes
      (accesses, p.withConn c)
  | writePacket code buf, p =>
      let (accesses, c) := cseWritePacketInt p.conn code buf.bytes
      (accesses, p.withConn c)
  | flush, p => ([], p.withConn (cseFlush p.conn).2)
  | fillBuffer, p => ([], p.withConn (cseFillBuffer p.conn).2)
  | close, p => ([], p.withConn (cseClose p.conn))
  | reuse i t, p => ([], cseReuse i t p)

/-- What opens a stream. -/
inductive Opening
  | cseOpen (dial : Dial) (i : ℕ) (wait : Bool)
  | cseOpenConnection (dial : Dial) (sessionIndex : ℤ) (ip : List Byte) (requestTime : UInt32)
      (rand : Int32)

def Opening.run : Opening → Child → Child
  | .cseOpen dial i wait, p => (ModCaucho.cseOpen dial i wait p).2
  | .cseOpenConnection dial sessionIndex ip t rand, p =>
      (ModCaucho.cseOpenConnection dial sessionIndex ip t rand p).2

/-- The property holds of every call of a sequence, in the state that it finds. -/
def EachCall (P : BufferOp → Child → Prop) : List BufferOp → Child → Prop
  | [], _ => True
  | op :: ops, p => P op p ∧ EachCall P ops (op.run p).2

/-! ## The invariant -/

/-- What the counters of a stream keep. The lower bounds of `write_length` and
`read_offset` are in their types. -/
structure BufferInv (s : Stream) : Prop where
  writeLength_le : s.writeLength ≤ bufLength
  readOffset_le : s.readOffset ≤ bufLength
  readLength_le : s.readLength ≤ bufLength
  offset_le : 0 ≤ s.readLength → s.readOffset ≤ s.readLength
  received : 0 < s.readLength → s.readLength = s.readBuf.length

/-- The accesses are in bounds, and the invariant holds behind them. -/
structure Sound (accesses : List Access) (s : Stream) : Prop where
  inBounds : ∀ a ∈ accesses, a.InBounds
  inv : BufferInv s

/-- The call stays in the buffers and leaves the counters in order. -/
def BufferOp.Safe (op : BufferOp) (p : Child) : Prop := Sound (op.run p).1 (op.run p).2.stream

/-- No call of `cse_write` adds lengths that overflow. -/
def BufferOp.Fits : BufferOp → Child → Prop
  | write buf, p => p.stream.writeLength + buf.bytes.length < 2 ^ 31
  | writePacket code buf, p =>
      (cseWriteInt p.conn (header code buf.bytes.length)).2.stream.writeLength +
        buf.bytes.length < 2 ^ 31
  | _, _ => True

section

variable {s : Stream} {c : Conn}

theorem Sound.quiet (h : BufferInv s) : Sound [] s := ⟨fun _ ha => absurd ha List.not_mem_nil, h⟩

theorem Sound.append {accesses accesses' : List Access} (h : ∀ a ∈ accesses, a.InBounds)
    (h' : Sound accesses' s) : Sound (accesses ++ accesses') s where
  inBounds a ha := (List.mem_append.mp ha).elim (h a) (h'.inBounds a)
  inv := h'.inv

/-- Nothing is left to read. -/
theorem BufferInv.emptied (h : BufferInv s) {n : ℤ} (hn : n ≤ 0) :
    BufferInv { s with readOffset := 0, readLength := n } where
  writeLength_le := h.writeLength_le
  readOffset_le := Nat.zero_le _
  readLength_le := hn.trans (Int.natCast_nonneg _)
  offset_le hpos := hpos
  received hpos := absurd hn (not_le.mpr hpos)

/-- The write buffer holds other bytes. -/
theorem BufferInv.written (h : BufferInv s) {bytes : List Byte} (hlen : bytes.length ≤ bufLength) :
    BufferInv { s with writeBuf := bytes } :=
  ⟨hlen, h.readOffset_le, h.readLength_le, h.offset_le, h.received⟩

theorem bufferInv_clear (s : Stream) (srun : Option ℕ) : BufferInv (s.clear srun) where
  writeLength_le := Nat.zero_le _
  readOffset_le := Nat.zero_le _
  readLength_le := Int.natCast_nonneg _
  offset_le _ := Int.le_refl 0
  received hpos := absurd hpos (Int.lt_irrefl 0)

theorem BufferInv.close (h : BufferInv c.stream) : BufferInv (cseClose c).stream :=
  ⟨h.writeLength_le, h.readOffset_le, h.readLength_le, h.offset_le, h.received⟩

/-! ## Filling the read buffer -/

theorem BufferInv.flush (h : BufferInv c.stream) : BufferInv (cseFlush c).2.stream := by
  unfold cseFlush
  split
  · simp only
    split
    · exact h
    · exact h.written (Nat.zero_le _)
  · exact h

theorem BufferInv.recv (h : BufferInv c.stream) : BufferInv c.recv.stream := by
  unfold Conn.recv
  split
  · next chunk _ _ =>
      refine ⟨h.writeLength_le, Nat.zero_le _, ?_, fun _ => Int.natCast_nonneg _, fun _ => rfl⟩
      exact Int.ofNat_le.mpr chunk.length_le
  · exact h.emptied (by decide)
  · exact h.emptied (Int.le_refl 0)
  · exact h.emptied (Int.le_refl 0)

theorem BufferInv.fillBuffer (h : BufferInv c.stream) : BufferInv (cseFillBuffer c).2.stream := by
  unfold cseFillBuffer
  split
  · exact h
  · simp only
    split
    · exact h.flush
    · split
      · exact h.flush.recv.close
      · exact h.flush.recv

theorem BufferInv.fillIfEmpty (h : BufferInv c.stream) :
    BufferInv (ModCaucho.fillIfEmpty c).2.stream := by
  unfold ModCaucho.fillIfEmpty
  split
  · exact h.fillBuffer
  · exact h

/-! ## Reading -/

/-- Bytes that are there can be passed over. -/
theorem BufferInv.advance (h : BufferInv c.stream) {n : ℕ} (hn : n ≤ c.stream.buffered) :
    BufferInv (c.advance n).stream := by
  have hoffset := h.offset_le
  have hle := h.readLength_le
  have hn' : n = 0 ∨ (c.stream.readOffset + n : ℤ) ≤ c.stream.readLength := by
    unfold Stream.buffered at hn
    omega
  rcases hn' with rfl | hn'
  · exact h
  · refine ⟨h.writeLength_le, ?_, hle, fun _ => ?_, h.received⟩
    · change c.stream.readOffset + n ≤ bufLength
      omega
    · change ((c.stream.readOffset + n : ℕ) : ℤ) ≤ c.stream.readLength
      omega

/-- Bytes that are there can be read. -/
theorem BufferInv.readSpan (h : BufferInv c.stream) {n : ℕ} (hn : n ≤ c.stream.buffered) :
    ∀ a ∈ c.readSpan n, a.InBounds := by
  intro a ha
  obtain ⟨i, hi, rfl⟩ := List.mem_map.mp ha
  rw [List.mem_range'_1] at hi
  have hlength : 0 < c.stream.readLength → c.stream.readLength = c.stream.readBuf.length :=
    h.received
  unfold Stream.buffered at hn
  change i < c.stream.readBuf.length
  omega

theorem sound_readByte (h : BufferInv c.stream) :
    Sound (byteAccesses c) (cseReadByte c).2.stream := by
  have hfill := h.fillIfEmpty
  unfold byteAccesses cseReadByte
  by_cases hfst : (fillIfEmpty c).1 < 0
  · simp only [if_pos hfst]
    exact .quiet hfill
  · have hpos := buffered_pos_of_fillIfEmpty hfst
    simp only [if_neg hfst]
    exact ⟨hfill.readSpan hpos, hfill.advance hpos⟩

/-- The loop behind `cse_read_all` and `cse_skip`. -/
theorem sound_loop (fuel len : ℕ) (h : BufferInv c.stream) :
    Sound (loopAccesses fuel len c) (readLoop fuel len c).2.2.stream := by
  induction fuel generalizing len c with
  | zero => exact .quiet h
  | succ fuel ih =>
      have hfill := h.fillIfEmpty
      unfold loopAccesses readLoop
      by_cases hlen : len = 0
      · simp only [if_pos hlen]
        exact .quiet h
      · by_cases hfst : (fillIfEmpty c).1 < 0
        · simp only [if_neg hlen, if_pos hfst]
          exact .quiet hfill
        · have hle := Nat.min_le_right len (fillIfEmpty c).2.stream.buffered
          simp only [if_neg hlen, if_neg hfst]
          exact .append (hfill.readSpan hle) (ih _ (hfill.advance hle))

theorem sound_readAll (len : ℕ) (h : BufferInv c.stream) :
    Sound (allAccesses c len) (cseReadAll c len).2.2.stream := sound_loop len len h

theorem BufferInv.skip (h : BufferInv c.stream) (len : ℕ) : BufferInv (cseSkip c len).2.stream :=
  (sound_loop len len h).inv

theorem sound_readLimit (buflen readlen : Int32) (h : BufferInv c.stream) :
    Sound (cseReadLimitInt c buflen readlen).1 (cseReadLimitInt c buflen readlen).2.stream := by
  unfold cseReadLimitInt
  split
  · exact sound_readAll _ h
  · have hall := sound_readAll buflen.toNatClampNeg h
    exact ⟨hall.inBounds, hall.inv.skip _⟩

theorem sound_readString (length : Int32) (h : BufferInv c.stream) :
    Sound (cseReadStringInt c length).1 (cseReadStringInt c length).2.stream := by
  have h₁ := sound_readByte h
  have h₂ := sound_readByte h₁.inv
  have h₃ := sound_readByte h₂.inv
  have h₄ := sound_readByte h₃.inv
  have hread := (Sound.append h₁.inBounds (.append h₂.inBounds (.append h₃.inBounds h₄))).inBounds
  simp only [← List.append_assoc] at hread
  unfold cseReadStringInt
  simp only
  split
  · exact ⟨hread, h₄.inv⟩
  · exact .append hread (sound_readLimit _ _ h₄.inv)

theorem sound_response (fuel len : ℕ) (r : Reply) (h : BufferInv c.stream) :
    Sound (responseAccesses fuel len c r) (writeResponseLoop fuel len c r).2.1.stream := by
  induction fuel generalizing len c r with
  | zero => exact .quiet h
  | succ fuel ih =>
      have hfill := h.fillIfEmpty
      unfold responseAccesses writeResponseLoop
      by_cases hlen : len = 0
      · simp only [if_pos hlen]
        exact .quiet h
      · by_cases hfst : (fillIfEmpty c).1 < 0
        · simp only [if_neg hlen, if_pos hfst]
          exact .quiet hfill
        · have hle := Nat.min_le_right len (fillIfEmpty c).2.stream.buffered
          simp only [if_neg hlen, if_neg hfst]
          split
          · exact .append (hfill.readSpan hle) (.quiet hfill.close)
          · exact .append (hfill.readSpan hle) (ih _ _ (hfill.advance hle))

end

/-! ## Writing -/

section

variable {c : Conn}

/-- The sum of the test, as an `int`. -/
theorem exceeds_iff_bmod (h : BufferInv c.stream) {length : ℕ} (hlength : length < 2 ^ 31) :
    c.Exceeds length ↔
      (bufLength : ℤ) < ((c.stream.writeLength + length : ℕ) : ℤ).bmod (2 ^ 32) := by
  have hle : c.stream.writeLength < 2 ^ 31 := Nat.lt_of_le_of_lt h.writeLength_le (by decide)
  unfold Conn.Exceeds
  rw [gt_iff_lt, Int32.lt_iff_toInt_lt, Int32.toInt_add, Int32.toInt_ofNat_of_lt hle,
    Int32.toInt_ofNat_of_lt hlength, Int32.toInt_ofNat_of_lt (by decide : bufLength < 2 ^ 31),
    Int.natCast_add]

/-- A sum that is an `int` is compared as it is. -/
theorem exceeds_iff (h : BufferInv c.stream) {length : ℕ}
    (hsum : c.stream.writeLength + length < 2 ^ 31) :
    c.Exceeds length ↔ bufLength < c.stream.writeLength + length := by
  rw [exceeds_iff_bmod h (by omega), Int.bmod_eq_of_le (by omega) (by omega), Int.ofNat_lt]

/-- A sum that wraps around passes for small. -/
theorem not_exceeds_of_overflow (h : BufferInv c.stream) {length : ℕ} (hlength : length < 2 ^ 31)
    (hsum : 2 ^ 31 ≤ c.stream.writeLength + length) : ¬ c.Exceeds length := by
  have hle : c.stream.writeLength ≤ 8192 := h.writeLength_le
  have hwrap : ((c.stream.writeLength + length : ℕ) : ℤ).bmod (2 ^ 32) =
      (c.stream.writeLength + length : ℕ) - 2 ^ 32 := by
    rw [← Int.sub_bmod_right, Int.bmod_eq_of_le (by omega) (by omega)]
    rfl
  rw [exceeds_iff_bmod h hlength, hwrap, not_lt]
  unfold bufLength
  omega

/-- Where no sum overflows, this is `cse_write` as it is on lists. -/
theorem cseWriteInt_snd (h : BufferInv c.stream) {buf : List Byte}
    (hsum : c.stream.writeLength + buf.length < 2 ^ 31) :
    (cseWriteInt c buf).2 = cseWrite c buf := by
  have hexceeds := exceeds_iff h hsum
  unfold cseWriteInt cseWrite
  by_cases hbig : bufLength < c.stream.writeLength + buf.length
  · simp only [if_pos (hexceeds.mpr hbig), gt_iff_lt, if_pos hbig]
    split
    · rfl
    · split
      · rfl
      · rfl
  · simp only [if_neg (mt hexceeds.mp hbig), gt_iff_lt, if_neg hbig]

/-- Making room leaves nothing in the write buffer. -/
theorem makeRoom_stream (c : Conn) : (makeRoom c).2.stream = { c.stream with writeBuf := [] } := by
  unfold makeRoom
  split
  · rfl
  · next hempty =>
      have hnil : c.stream.writeBuf = [] :=
        List.length_eq_zero_iff.mp (Nat.eq_zero_of_not_pos hempty)
      rw [← hnil]

theorem sound_append {c : Conn} (h : BufferInv c.stream) {buf : List Byte}
    (hfit : c.stream.writeLength + buf.length ≤ bufLength) :
    Sound (c.writeSpan buf.length) (c.append buf).stream where
  inBounds a ha := by
    obtain ⟨i, hi, rfl⟩ := List.mem_map.mp ha
    rw [List.mem_range'_1] at hi
    exact Nat.lt_of_lt_of_le hi.2 hfit
  inv := h.written (by rw [List.length_append]; exact hfit)

theorem sound_write (h : BufferInv c.stream) {buf : List Byte}
    (hsum : c.stream.writeLength + buf.length < 2 ^ 31) :
    Sound (cseWriteInt c buf).1 (cseWriteInt c buf).2.stream := by
  have hexceeds := exceeds_iff h hsum
  unfold cseWriteInt
  by_cases hbig : bufLength < c.stream.writeLength + buf.length
  · have hroom : BufferInv (makeRoom c).2.stream := by
      rw [makeRoom_stream]
      exact h.written (Nat.zero_le _)
    have hempty : (makeRoom c).2.stream.writeLength = 0 := by
      rw [makeRoom_stream]
      rfl
    simp only [if_pos (hexceeds.mpr hbig)]
    split
    · exact .quiet hroom.close
    · split
      · split
        · exact .quiet hroom.close
        · exact .quiet hroom
      · next hlength =>
          refine sound_append hroom ?_
          rw [hempty, Nat.zero_add]
          exact Nat.not_lt.mp hlength
  · rw [if_neg (mt hexceeds.mp hbig)]
    exact sound_append h (Nat.not_lt.mp hbig)

/-- A copy behind a sum that wraps around goes over the end of the buffer. -/
theorem not_inBounds_write (h : BufferInv c.stream) {buf : List Byte}
    (hlength : buf.length < 2 ^ 31) (hsum : 2 ^ 31 ≤ c.stream.writeLength + buf.length) :
    ¬ ∀ a ∈ (cseWriteInt c buf).1, a.InBounds := by
  have hle := h.writeLength_le
  have hover : bufLength < c.stream.writeLength + buf.length :=
    Nat.lt_of_lt_of_le (by decide) hsum
  have hmem : Access.write bufLength ∈ (cseWriteInt c buf).1 := by
    rw [cseWriteInt, if_neg (not_exceeds_of_overflow h hlength hsum)]
    exact List.mem_map_of_mem (List.mem_range'_1.mpr ⟨hle, hover⟩)
  exact fun hall => Nat.lt_irrefl bufLength (hall _ hmem)

/-- `cse_write` stays in the buffer if and only if its sum does not overflow. -/
theorem sound_write_iff (h : BufferInv c.stream) {buf : List Byte} (hlength : buf.length < 2 ^ 31) :
    Sound (cseWriteInt c buf).1 (cseWriteInt c buf).2.stream ↔
      c.stream.writeLength + buf.length < 2 ^ 31 := by
  refine ⟨fun hsound => Nat.not_le.mp fun hsum => ?_, sound_write h⟩
  exact not_inBounds_write h hlength hsum hsound.inBounds

/-- The header of a packet never overflows. -/
theorem header_fits (h : BufferInv c.stream) (code : Byte) (n : ℕ) :
    c.stream.writeLength + (header code n).length < 2 ^ 31 := by
  have hle : c.stream.writeLength ≤ 8192 := h.writeLength_le
  rw [length_header]
  omega

/-- Where the bytes behind the header fit, this is `cse_write_packet` as it is on lists. -/
theorem cseWritePacketInt_snd (h : BufferInv c.stream) (code : Byte) {buf : List Byte}
    (hsum : (cseWriteInt c (header code buf.length)).2.stream.writeLength + buf.length < 2 ^ 31) :
    (cseWritePacketInt c code buf).2 = cseWritePacket c code buf := by
  have hfits := header_fits h code buf.length
  simp only [cseWritePacketInt]
  rw [cseWriteInt_snd (sound_write h hfits).inv hsum, cseWriteInt_snd h hfits, cseWritePacket,
    packet_header]

/-- The bytes behind the header of a packet decide. -/
theorem sound_writePacket_iff (h : BufferInv c.stream) (code : Byte) {buf : List Byte}
    (hlength : buf.length < 2 ^ 31) :
    Sound (cseWritePacketInt c code buf).1 (cseWritePacketInt c code buf).2.stream ↔
      (cseWriteInt c (header code buf.length)).2.stream.writeLength + buf.length < 2 ^ 31 := by
  have hhead := sound_write h (header_fits h code buf.length)
  rw [← sound_write_iff hhead.inv hlength]
  simp only [cseWritePacketInt]
  generalize cseWriteInt c (header code buf.length) = x at hhead ⊢
  constructor
  · exact fun hsound => ⟨fun a ha => hsound.inBounds a (List.mem_append_right _ ha), hsound.inv⟩
  · exact fun hbody => .append hhead.inBounds hbody

end

/-! ## Sequences of calls -/

theorem bufferInv_reuse (i : ℕ) (t : UInt32) (p : Child) : BufferInv (cseReuse i t p).stream where
  writeLength_le := Nat.zero_le _
  readOffset_le := Nat.zero_le _
  readLength_le := Int.natCast_nonneg _
  offset_le _ := Int.le_refl 0
  received hpos := absurd hpos (Int.lt_irrefl 0)

/-- One call. -/
theorem safe_iff_fits {p : Child} (h : BufferInv p.stream) (op : BufferOp) :
    op.Safe p ↔ op.Fits p := by
  have hconn : BufferInv p.conn.stream := h
  cases op with
  | readByte => exact iff_of_true (sound_readByte hconn) trivial
  | readAll len => exact iff_of_true (sound_readAll _ hconn) trivial
  | skip len => exact iff_of_true (.quiet (hconn.skip _)) trivial
  | readLimit buflen readlen => exact iff_of_true (sound_readLimit _ _ hconn) trivial
  | readString length => exact iff_of_true (sound_readString _ hconn) trivial
  | writeResponse len r => exact iff_of_true (sound_response _ _ r hconn) trivial
  | write buf => exact sound_write_iff hconn buf.length_lt
  | writePacket code buf => exact sound_writePacket_iff hconn code buf.length_lt
  | flush => exact iff_of_true (.quiet hconn.flush) trivial
  | fillBuffer => exact iff_of_true (.quiet hconn.fillBuffer) trivial
  | close => exact iff_of_true (.quiet hconn.close) trivial
  | reuse i t => exact iff_of_true (.quiet (bufferInv_reuse i t p)) trivial

/-- The bytes that the call writes. -/
def BufferOp.source? : BufferOp → Option Source
  | write buf => some buf
  | writePacket _ buf => some buf
  | _ => none

/-- What leaves an `int` room for a full write buffer always fits. -/
theorem fits_of_short {p : Child} (h : BufferInv p.stream) {op : BufferOp}
    (hshort : ∀ buf ∈ op.source?, buf.bytes.length < 2 ^ 31 - bufLength) : op.Fits p := by
  have hroom {n m : ℕ} (hn : n ≤ bufLength) (hm : m < 2 ^ 31 - bufLength) : n + m < 2 ^ 31 := by
    have hbuf : bufLength = 8192 := rfl
    omega
  cases op with
  | write buf => exact hroom h.writeLength_le (hshort buf rfl)
  | writePacket code buf =>
      have hhead := sound_write (c := p.conn) h (header_fits h code buf.bytes.length)
      exact hroom hhead.inv.writeLength_le (hshort buf rfl)
  | _ => trivial

theorem eachCall_safe_iff {p : Child} (h : BufferInv p.stream) (ops : List BufferOp) :
    EachCall BufferOp.Safe ops p ↔ EachCall BufferOp.Fits ops p := by
  induction ops generalizing p with
  | nil => exact Iff.rfl
  | cons op ops ih =>
      have hstep := safe_iff_fits h op
      constructor
      · exact fun ⟨hsafe, hrest⟩ => ⟨hstep.mp hsafe, (ih hsafe.inv).mp hrest⟩
      · exact fun ⟨hfits, hrest⟩ =>
          ⟨hstep.mpr hfits, (ih (hstep.mpr hfits).inv).mpr hrest⟩

theorem bufferInv_reuseSocket (i : ℕ) (t : UInt32) {p : Child} (h : BufferInv p.stream) :
    BufferInv (cseReuseSocket i t p).2.stream := by
  by_cases hu : (p.config.srun i).Usable t
  · rw [cseReuseSocket_of_usable hu]
    exact bufferInv_reuse i t _
  · rw [cseReuseSocket_of_not_usable hu]
    simp only
    split
    · exact h
    · exact h

theorem bufferInv_open (dial : Dial) (i : ℕ) (wait : Bool) (p : Child) :
    BufferInv (cseOpen dial i wait p).2.stream := by
  have hclear := bufferInv_clear p.stream (some i)
  rw [cseOpen_eq]
  exact ⟨hclear.writeLength_le, hclear.readOffset_le, hclear.readLength_le, hclear.offset_le,
    hclear.received⟩

/-- A stream that was just opened has its counters in order. -/
theorem bufferInv_opening (o : Opening) (p : Child) : BufferInv (o.run p).stream := by
  cases o with
  | cseOpen dial i wait => exact bufferInv_open dial i wait p
  | cseOpenConnection dial sessionIndex ip t rand =>
      have hclear := bufferInv_clear p.stream none
      obtain ⟨q, -, hconn, -, hcall⟩ := openConnection_eq dial sessionIndex ip t rand
        { p with stream := p.stream.clear none }
      have hq : BufferInv q.conn.stream := by
        rw [hconn]
        exact hclear
      change BufferInv (openConnection dial sessionIndex ip t rand _).2.stream
      rw [hcall]
      exact passes_induction (P := fun q : Child => BufferInv q.stream)
        (fun i _ hq => bufferInv_reuseSocket i t hq)
        (fun i wait q _ => bufferInv_open dial i wait q)
        (fun _ _ hq => ⟨hq.writeLength_le, hq.readOffset_le, hq.readLength_le, hq.offset_le,
          hq.received⟩)
        (fun _ _ hq => hq) hq

/-- The calls on a stream that was opened stay in its buffers and keep its counters, at
every step, if and only if no sum of `cse_write` overflows. -/
theorem safeCalls_iff (o : Opening) (p : Child) (ops : List BufferOp) :
    BufferInv (o.run p).stream ∧
      (EachCall BufferOp.Safe ops (o.run p) ↔ EachCall BufferOp.Fits ops (o.run p)) :=
  ⟨bufferInv_opening o p, eachCall_safe_iff (bufferInv_opening o p) ops⟩

/-- As many bytes as an `int` can count. -/
def Source.longest : Source where
  bytes := List.replicate (2 ^ 31 - 1) 0
  length_lt := by
    rw [List.length_replicate]
    decide

theorem not_safeCalls_longest :
    ¬ ∀ (o : Opening) (p : Child) (ops : List BufferOp), EachCall BufferOp.Safe ops (o.run p) := by
  intro hall
  have hsafe := (hall (.cseOpen answering 0 true) trioChild [.writePacket cseData .longest]).1
  have hinv := bufferInv_opening (.cseOpen answering 0 true) trioChild
  have hfits := (safe_iff_fits hinv (.writePacket cseData .longest)).mp hsafe
  generalize hp : Opening.run (.cseOpen answering 0 true) trioChild = p at hinv hfits
  have hempty : p.conn.stream.writeBuf = [] := by rw [← hp]; rfl
  have hlength : Source.longest.bytes.length = 2 ^ 31 - 1 := List.length_replicate
  have hhead (n : ℕ) :
      (cseWriteInt p.conn (header cseData n)).2.stream.writeLength = 4 := by
    have hnot : ¬ p.conn.Exceeds (header cseData n).length := by
      have hzero : p.conn.stream.writeLength = 0 := congrArg List.length hempty
      have hsum : p.conn.stream.writeLength + (header cseData n).length = 4 := by
        rw [hzero, length_header]
      rw [exceeds_iff hinv (by rw [hsum]; decide), hsum]
      decide
    rw [cseWriteInt, if_neg hnot]
    change (p.conn.stream.writeBuf ++ header cseData n).length = 4
    rw [hempty, List.nil_append, length_header]
  change (cseWriteInt p.conn (header cseData Source.longest.bytes.length)).2.stream.writeLength +
    Source.longest.bytes.length < 2 ^ 31 at hfits
  rw [hhead, hlength] at hfits
  exact absurd hfits (by decide)

end ModCaucho
