import ModCaucho.Lib.Framing
import ModCaucho.Stream.Open

/-!
# What writing puts on the socket

`written c` is everything that was written to a stream while its socket was
open: the bytes that the socket accepted, then the ones still in `write_buf`.
As long as every `send` accepts what it is given, a write appends to it, unless
the write is longer than the buffer. Such a write appends nothing, so a packet
loses its payload exactly when the payload is longer than `BUF_LENGTH`.
-/

namespace ModCaucho

open Framing

/-- The socket is open and no `send` is short or fails. -/
structure Conn.Sends (c : Conn) : Prop where
  socket : 0 ≤ c.stream.socket
  all : c.os.sends = []

/-- The bytes accepted by the socket followed by the bytes in `write_buf`. -/
def Conn.written (c : Conn) : List Byte :=
  sentOn c.stream.socket c.os.trace ++ c.stream.writeBuf

/-- The bytes of one `cse_write` that count: all of them, or none of a write
that is longer than the buffer. -/
def fits (buf : List Byte) : List Byte := if buf.length ≤ bufLength then buf else []

theorem fits_eq_self {buf : List Byte} (h : buf.length ≤ bufLength) : fits buf = buf :=
  if_pos h

theorem fits_eq_self_iff (buf : List Byte) : fits buf = buf ↔ buf.length ≤ bufLength := by
  constructor
  · intro h
    by_contra hlong
    rw [fits, if_neg hlong] at h
    rw [← h] at hlong
    exact hlong (Nat.zero_le _)
  · exact fits_eq_self

theorem fits_length_le (buf : List Byte) : (fits buf).length ≤ buf.length := by
  by_cases h : buf.length ≤ bufLength <;> simp [fits, h]

/-- `send` on a healthy connection accepts everything. -/
theorem Conn.Sends.send {c : Conn} (h : c.Sends) (bytes : List Byte) :
    c.send bytes = ((bytes.length : ℤ),
      { c with os := { c.os with trace := c.os.trace ++ [.send c.stream.socket bytes] } }) := by
  have hopen : ¬ c.stream.socket < 0 := by
    have := h.socket
    omega
  simp [Conn.send, Os.send, hopen, h.all]

/-- The state of a connection after its whole `write_buf` was sent. -/
def Conn.drained (c : Conn) : Conn where
  stream := { c.stream with writeBuf := [] }
  os :=
    if c.stream.writeBuf = [] then c.os
    else { c.os with
      trace := c.os.trace ++ [.send c.stream.socket c.stream.writeBuf] }

@[simp] theorem Conn.drained_socket (c : Conn) :
    c.drained.stream.socket = c.stream.socket := rfl

@[simp] theorem Conn.drained_writeBuf (c : Conn) : c.drained.stream.writeBuf = [] := rfl

theorem Conn.drained_sends (c : Conn) : c.drained.os.sends = c.os.sends := by
  by_cases h : c.stream.writeBuf = [] <;> simp [Conn.drained, h]

theorem Conn.Sends.drained {c : Conn} (h : c.Sends) : c.drained.Sends :=
  ⟨h.socket, (Conn.drained_sends c).trans h.all⟩

@[simp] theorem Conn.drained_written (c : Conn) : c.drained.written = c.written := by
  by_cases h : c.stream.writeBuf = []
  · simp [Conn.drained, Conn.written, h]
  · simp [Conn.drained, Conn.written, h, sentOn]

theorem Conn.drained_of_nil {c : Conn} (h : c.stream.writeBuf = []) : c.drained = c := by
  obtain ⟨stream, os⟩ := c
  obtain ⟨srun, updateCount, socket, readBuf, readOffset, readLength, writeBuf⟩ := stream
  subst h
  rfl

/-- `cse_flush` on a healthy connection drains the buffer. -/
theorem cseFlush_eq {c : Conn} (h : c.Sends) : cseFlush c = (0, c.drained) := by
  by_cases hbuf : c.stream.writeBuf = []
  · rw [Conn.drained_of_nil hbuf]
    simp [cseFlush, Stream.writeLength, hbuf]
  · have hpos : 0 < c.stream.writeBuf.length := List.length_pos_iff.mpr hbuf
    simp [cseFlush, h.send, Conn.drained, Stream.writeLength, hbuf, hpos]

/-- Making room on a healthy connection drains the buffer. -/
theorem makeRoom_eq {c : Conn} (h : c.Sends) :
    makeRoom c = ((c.stream.writeBuf.length : ℤ), c.drained) := by
  by_cases hbuf : c.stream.writeBuf = []
  · rw [Conn.drained_of_nil hbuf]
    simp [makeRoom, Stream.writeLength, hbuf]
  · have hpos : 0 < c.stream.writeBuf.length := List.length_pos_iff.mpr hbuf
    simp [makeRoom, h.send, Conn.drained, Stream.writeLength, hbuf, hpos]

theorem Conn.append_written (c : Conn) (buf : List Byte) :
    (c.append buf).written = c.written ++ buf := by
  simp [Conn.append, Conn.written]

/-- What `cse_write` does to a healthy connection: the bytes that count are
appended, and the connection stays healthy. -/
theorem cseWrite_spec {c : Conn} (h : c.Sends) (buf : List Byte) :
    (cseWrite c buf).Sends ∧ (cseWrite c buf).stream.socket = c.stream.socket ∧
      (cseWrite c buf).written = c.written ++ fits buf := by
  by_cases hfull : c.stream.writeLength + buf.length > bufLength
  · have hd := h.drained
    simp only [cseWrite, if_pos hfull, makeRoom_eq h]
    rw [if_neg (by omega)]
    by_cases hlong : buf.length > bufLength
    · -- the bytes are lost: `send` gets the empty buffer instead of them
      have hnone : fits buf = [] := if_neg (by omega)
      simp only [if_pos hlong, hd.send]
      rw [if_neg (by omega), hnone, List.append_nil, ← c.drained_written]
      exact ⟨⟨hd.socket, hd.all⟩, rfl, by simp [Conn.written, sentOn]⟩
    · rw [if_neg hlong, fits_eq_self (by omega), ← c.drained_written]
      exact ⟨⟨hd.socket, hd.all⟩, rfl, c.drained.append_written buf⟩
  · simp only [cseWrite, if_neg hfull]
    rw [fits_eq_self (by omega)]
    exact ⟨⟨h.socket, h.all⟩, rfl, c.append_written buf⟩

/-- The four bytes that `cse_write_packet` builds are the header of a frame. -/
theorem packet_header (code : Byte) (n : ℕ) :
    [code, UInt8.ofNat ((n >>> 16) &&& 0xff), UInt8.ofNat ((n >>> 8) &&& 0xff),
      UInt8.ofNat (n &&& 0xff)] = header code n := by
  have hbyte : ∀ k : ℕ, UInt8.ofNat (k &&& 0xff) = UInt8.ofNat k := by
    intro k
    have hand : k &&& 0xff = k % 256 := Nat.and_two_pow_sub_one_eq_mod k 8
    apply UInt8.toNat_inj.mp
    simp [hand]
  simp only [header, be24, hbyte, Nat.shiftRight_eq_div_pow]

/-- `cse_write_packet` on a healthy connection appends the header of the packet
and as much of the payload as counts. -/
theorem cseWritePacket_spec {c : Conn} (h : c.Sends) (code : Byte) (buf : List Byte) :
    (cseWritePacket c code buf).Sends ∧
      (cseWritePacket c code buf).stream.socket = c.stream.socket ∧
      (cseWritePacket c code buf).written = c.written ++ header code buf.length ++ fits buf := by
  have hshort : (header code buf.length).length ≤ bufLength := by simp [bufLength]
  obtain ⟨h₁, hs₁, hw₁⟩ := cseWrite_spec h (header code buf.length)
  obtain ⟨h₂, hs₂, hw₂⟩ := cseWrite_spec h₁ buf
  simp only [cseWritePacket, packet_header]
  exact ⟨h₂, hs₂.trans hs₁, by rw [hw₂, hw₁, fits_eq_self hshort]⟩

/-- Writes packets in order. -/
def writePackets (c : Conn) (ps : List Frame) : Conn :=
  ps.foldl (fun c p => cseWritePacket c p.code p.payload) c

/-- What the packets put on the socket: each header, and each payload that fits
the buffer. -/
def sentPackets (ps : List Frame) : List Byte :=
  ps.flatMap fun p => header p.code p.payload.length ++ fits p.payload

theorem writePackets_spec {c : Conn} (h : c.Sends) (ps : List Frame) :
    (writePackets c ps).Sends ∧ (writePackets c ps).stream.socket = c.stream.socket ∧
      (writePackets c ps).written = c.written ++ sentPackets ps := by
  induction ps generalizing c with
  | nil => exact ⟨h, rfl, by simp [writePackets, sentPackets]⟩
  | cons p ps ih =>
      obtain ⟨h₁, hs₁, hw₁⟩ := cseWritePacket_spec h p.code p.payload
      obtain ⟨h₂, hs₂, hw₂⟩ := ih h₁
      refine ⟨h₂, hs₂.trans hs₁, ?_⟩
      change (writePackets (cseWritePacket c p.code p.payload) ps).written = _
      rw [hw₂, hw₁]
      simp [sentPackets]

theorem sentPackets_length_le (ps : List Frame) :
    (sentPackets ps).length ≤ (encodeAll ps).length := by
  induction ps with
  | nil => simp [sentPackets]
  | cons p ps ih =>
      have := fits_length_le p.payload
      simp only [sentPackets, List.flatMap_cons, List.length_append, length_header,
        encodeAll_cons, length_encode] at ih ⊢
      omega

/-- The packets arrive whole exactly when every payload fits the buffer: a lost
payload cannot be made up for by the packets after it. -/
theorem sentPackets_eq_encodeAll_iff (ps : List Frame) :
    sentPackets ps = encodeAll ps ↔ ∀ p ∈ ps, p.payload.length ≤ bufLength := by
  induction ps with
  | nil => simp [sentPackets]
  | cons p ps ih =>
      have hsplit : sentPackets (p :: ps) =
          header p.code p.payload.length ++ (fits p.payload ++ sentPackets ps) := by
        simp [sentPackets]
      have hcode : encodeAll (p :: ps) =
          header p.code p.payload.length ++ (p.payload ++ encodeAll ps) := by
        simp [encode]
      rw [hsplit, hcode, List.append_cancel_left_eq, List.forall_mem_cons, ← ih]
      constructor
      · intro h
        have hlen := congrArg List.length h
        have h₁ := fits_length_le p.payload
        have h₂ := sentPackets_length_le ps
        simp only [List.length_append] at hlen
        have hp : (fits p.payload).length = p.payload.length := by omega
        obtain ⟨hfits, hrest⟩ := List.append_inj h hp
        exact ⟨(fits_eq_self_iff p.payload).mp hfits, hrest⟩
      · rintro ⟨hp, hrest⟩
        rw [fits_eq_self hp, hrest]

/-- A freshly opened stream is healthy and has written nothing that its socket
has not accepted. -/
theorem cseOpen_conn {dial : Dial} {i : ℕ} {wait : Bool} {p : Child}
    (hopen : (cseOpen dial i wait p).1 = true) (hall : p.os.sends = []) :
    (cseOpen dial i wait p).2.conn.Sends ∧
      (cseOpen dial i wait p).2.conn.stream.writeBuf = [] := by
  obtain ⟨fd, hfd⟩ := (cseOpen_fst dial i wait p).mp hopen
  rw [cseOpen_eq, hfd]
  exact ⟨⟨Int.natCast_nonneg fd, hall⟩, rfl⟩

/-- What `cse_flush` leaves on the socket after packets were written to a stream
with an empty buffer. -/
theorem sentOn_flush_writePackets {c : Conn} (h : c.Sends) (hempty : c.stream.writeBuf = [])
    (ps : List Frame) :
    sentOn c.stream.socket (cseFlush (writePackets c ps)).2.os.trace =
      sentOn c.stream.socket c.os.trace ++ sentPackets ps := by
  obtain ⟨hs, hsocket, hwritten⟩ := writePackets_spec h ps
  have hdrained := (writePackets c ps).drained_written
  rw [hwritten] at hdrained
  simp only [Conn.written, Conn.drained_writeBuf, Conn.drained_socket, hsocket, hempty,
    List.append_nil] at hdrained
  rw [cseFlush_eq hs]
  exact hdrained

/-- Writing the packets on the stream and flushing it puts their encoding on the
socket, and decoding what was put there gives the packets back. -/
def WritesFaithfully (c : Conn) (ps : List Frame) : Prop :=
  ∃ wire, sentOn c.stream.socket (cseFlush (writePackets c ps)).2.os.trace =
      sentOn c.stream.socket c.os.trace ++ wire ∧
    wire = encodeAll ps ∧ decodeAll wire = some ps

/-- On a freshly opened stream the wire format is written faithfully exactly when
every payload fits the write buffer. -/
theorem writesFaithfully_iff {dial : Dial} {i : ℕ} {wait : Bool} {p : Child}
    (hopen : (cseOpen dial i wait p).1 = true) (hall : p.os.sends = [])
    {ps : List Frame} (hsized : ∀ f ∈ ps, f.Sized) :
    WritesFaithfully (cseOpen dial i wait p).2.conn ps ↔
      ∀ f ∈ ps, f.payload.length ≤ bufLength := by
  obtain ⟨hs, hempty⟩ := cseOpen_conn hopen hall
  have hput := sentOn_flush_writePackets hs hempty ps
  rw [← sentPackets_eq_encodeAll_iff]
  constructor
  · rintro ⟨wire, hwire, rfl, -⟩
    rw [hput] at hwire
    exact List.append_cancel_left hwire
  · intro heq
    exact ⟨sentPackets ps, hput, heq, by rw [heq, decodeAll_encodeAll hsized]⟩

/-- A child with one servlet runner, before its first request. -/
def freshChild : Child where
  config := ⟨[.zero], 1, 0, by decide, by decide, one_lt_sizes⟩
  stream := ⟨none, 0, -1, [], 0, 0, []⟩
  os := ⟨[], [], [], []⟩
  gCount := 0

theorem writesFaithfully_iff_short :
    WritesFaithfully (cseOpen answering 0 true freshChild).2.conn
        [⟨cseMethod, [71, 69, 84]⟩, ⟨cseEnd, []⟩] ↔
      ∀ f ∈ [(⟨cseMethod, [71, 69, 84]⟩ : Frame), ⟨cseEnd, []⟩],
        f.payload.length ≤ bufLength :=
  writesFaithfully_iff (by decide) rfl (by decide)

/-- A header value of 8193 bytes, one more than the buffer holds, is announced
and never sent. -/
theorem not_writesFaithfully_long :
    ¬ ∀ (dial : Dial) (i : ℕ) (wait : Bool) (p : Child), (cseOpen dial i wait p).1 = true →
      p.os.sends = [] → ∀ ps : List Frame, (∀ f ∈ ps, f.Sized) →
        WritesFaithfully (cseOpen dial i wait p).2.conn ps := by
  intro hclaim
  have hlen : (List.replicate 8193 (120 : Byte)).length = 8193 := List.length_replicate
  generalize List.replicate 8193 (120 : Byte) = value at hlen
  have hsized : ∀ f ∈ [(⟨cseValue, value⟩ : Frame)], f.Sized := by
    simp [Frame.Sized, hlen]
  obtain ⟨wire, hwire, rfl, -⟩ :=
    hclaim answering 0 true freshChild (by decide) rfl _ hsized
  obtain ⟨hs, hempty⟩ := @cseOpen_conn answering 0 true freshChild (by decide) rfl
  rw [sentOn_flush_writePackets hs hempty] at hwire
  have hfit := (sentPackets_eq_encodeAll_iff _).mp (List.append_cancel_left hwire)
  simp [bufLength, hlen] at hfit

end ModCaucho
