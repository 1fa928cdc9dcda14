import ModCaucho.Stream.Read

/-!
# What reading finds

`available c` are the bytes that the readers find on an open stream before the first
of them fails: the unread bytes of the buffer, and behind them the bytes that arrive if
what is in the write buffer can be sent first. The chunks they arrive in leave no
trace: a reader finds the front of `available c` and leaves the rest of it. A reader
that asks for more finds what there is, and then the socket is closed, unless it was the
write buffer that could not be sent.
-/

namespace ModCaucho

open Framing

/-- The socket is open and the read buffer holds what it counts. -/
structure Conn.Ready (c : Conn) : Prop where
  socket : 0 ≤ c.stream.socket
  buffer : c.stream.readLength ≤ c.stream.readBuf.length

/-- What is in the write buffer can be sent. -/
def Conn.Flushes (c : Conn) : Prop := ¬ (cseFlush c).1 < 0

instance (c : Conn) : Decidable c.Flushes := inferInstanceAs (Decidable (¬ _))

/-- The bytes that readers find before one of them fails. -/
def Conn.available (c : Conn) : List Byte :=
  c.stream.unread ++ if c.Flushes then bytesOf (arriving c.os.recvs) else []

/-- What a reader leaves of a connection: the bytes behind the ones it has read, or
nothing if it has failed. -/
def Proceeds (c c' : Conn) : Option (List Byte) → Prop
  | some rest => c'.Ready ∧ c'.available = rest ∧ (c.Flushes → c'.Flushes)
  | none => c.Flushes → c'.stream.socket < 0

/-- The bytes behind the first `len` ones, if there are so many. -/
def after (len : ℕ) (bs : List Byte) : Option (List Byte) :=
  if len ≤ bs.length then some (bs.drop len) else none

theorem Conn.Live.ready {c : Conn} (h : c.Live) : c.Ready := ⟨h.socket, h.buffer⟩

theorem Conn.Live.flushes {c : Conn} (h : c.Live) : c.Flushes := by
  rw [Conn.Flushes, cseFlush_eq h.toSends]
  exact Int.lt_irrefl 0

theorem Conn.Live.available {c : Conn} (h : c.Live) : c.available = c.pending := by
  rw [Conn.available, if_pos h.flushes, Conn.pending]

@[simp] theorem send_stream (c : Conn) (bytes : List Byte) :
    (c.send bytes).2.stream = c.stream := rfl

theorem flushes_iff (c : Conn) :
    c.Flushes ↔
      c.stream.writeBuf = [] ∨ (c.send c.stream.writeBuf).1 = c.stream.writeLength := by
  unfold Conn.Flushes cseFlush
  by_cases hnil : c.stream.writeBuf = []
  · simp [Stream.writeLength, hnil]
  · have hpos : c.stream.writeLength > 0 := List.length_pos_iff.mpr hnil
    simp only [if_pos hpos, hnil, false_or, send_stream]
    by_cases hall : (c.send c.stream.writeBuf).1 = c.stream.writeLength
    · simp [hall]
    · simp [hall]

theorem flushes_of_nil {c : Conn} (h : c.stream.writeBuf = []) : c.Flushes :=
  (flushes_iff c).mpr (Or.inl h)

section

variable {c c' c'' : Conn}

theorem Proceeds.trans {rest rest' : List Byte} (h : Proceeds c c' (some rest))
    (h' : Proceeds c' c'' (some rest')) : Proceeds c c'' (some rest') :=
  ⟨h'.1, h'.2.1, fun hflushes => h'.2.2 (h.2.2 hflushes)⟩

theorem Proceeds.trans_none {rest : List Byte} (h : Proceeds c c' (some rest))
    (h' : Proceeds c' c'' none) : Proceeds c c'' none :=
  fun hflushes => h' (h.2.2 hflushes)

theorem Proceeds.append {rest : List Byte} {rest? : Option (List Byte)}
    (h : Proceeds c c' (some rest)) (h' : Proceeds c' c'' rest?) : Proceeds c c'' rest? := by
  cases rest? with
  | none => exact h.trans_none h'
  | some rest' => exact h.trans h'

theorem after_zero (bs : List Byte) : after 0 bs = some bs := rfl

theorem after_of_le {len : ℕ} {bs : List Byte} (h : len ≤ bs.length) :
    after len bs = some (bs.drop len) := if_pos h

theorem after_of_lt {len : ℕ} {bs : List Byte} (h : bs.length < len) : after len bs = none :=
  if_neg (Nat.not_le.mpr h)

/-- Going on behind some bytes is going on behind more of them. -/
theorem after_drop {k len : ℕ} {bs : List Byte} (hk : k ≤ len) (hbs : k ≤ bs.length) :
    after (len - k) (bs.drop k) = after len bs := by
  unfold after
  rw [List.length_drop, List.drop_drop, Nat.add_sub_cancel' hk]
  simp only [Nat.sub_le_sub_iff_right hbs]

/-! ## Filling the buffer -/

/-- A successful flush empties the write buffer and nothing else. -/
theorem cseFlush_of_flushes (h : c.Flushes) :
    (cseFlush c).2.stream = { c.stream with writeBuf := [] } ∧
      (cseFlush c).2.os.recvs = c.os.recvs := by
  refine ⟨?_, (cseFlush_recvs c).2⟩
  unfold cseFlush
  by_cases hnil : c.stream.writeBuf = []
  · rw [if_neg (by simp [Stream.writeLength, hnil]), ← hnil]
  · have hpos : c.stream.writeLength > 0 := List.length_pos_iff.mpr hnil
    have hall := ((flushes_iff c).mp h).resolve_left hnil
    simp only [if_pos hpos, send_stream, hall, ne_eq, not_true, if_false]

theorem cseFillBuffer_of_not_flushes (h : ¬ c.Flushes) :
    (cseFillBuffer c).1 < 0 := by
  unfold Conn.Flushes at h
  rw [not_not] at h
  unfold cseFillBuffer
  split
  · exact Int.negSucc_lt_zero 0
  · simp only [if_pos h]
    exact Int.negSucc_lt_zero 0

/-- A refill puts the next chunk in place, or finds none and closes the socket. -/
theorem cseFillBuffer_of_flushes (h : c.Ready) (hflushes : c.Flushes) :
    (∃ m recvs, c.os.recvs = .data m :: recvs ∧ ¬ (cseFillBuffer c).1 < 0 ∧
        (cseFillBuffer c).2.Ready ∧ (cseFillBuffer c).2.Flushes ∧
        (cseFillBuffer c).2.stream.unread = m.bytes ∧ (cseFillBuffer c).2.os.recvs = recvs) ∨
      arriving c.os.recvs = [] ∧ (cseFillBuffer c).1 < 0 ∧
        (cseFillBuffer c).2.stream.socket < 0 := by
  obtain ⟨hstream, hrecvs⟩ := cseFlush_of_flushes hflushes
  have hopen : ¬ c.stream.socket < 0 := Int.not_lt.mpr h.socket
  unfold cseFillBuffer
  simp only [if_neg hopen, if_neg (show ¬ (cseFlush c).1 < 0 from hflushes)]
  generalize (cseFlush c).2 = c' at hstream hrecvs
  cases hnext : c.os.recvs with
  | nil =>
      have hlen : c'.recv.stream.readLength ≤ 0 := by simp [Conn.recv, hrecvs, hnext]
      rw [if_pos hlen]
      exact Or.inr ⟨rfl, Int.negSucc_lt_zero 0, Int.negSucc_lt_zero 0⟩
  | cons result recvs =>
      cases result with
      | data m =>
          have hpos := m.length_pos
          have hrecv : c'.recv = ⟨{ c'.stream with
              readBuf := m.bytes, readOffset := 0, readLength := m.bytes.length },
              { c'.os with recvs := recvs, waits := c'.os.waits ++ [c'.stream.writeBuf] }⟩ := by
            simp only [Conn.recv, hrecvs, hnext]
          have hlen : ¬ (m.bytes.length : ℤ) ≤ 0 := by omega
          left
          refine ⟨m, recvs, rfl, ?_⟩
          rw [hrecv]
          simp only [if_neg hlen]
          refine ⟨by omega, ⟨?_, Int.le_refl _⟩, flushes_of_nil ?_, ?_, trivial⟩
          · rw [hstream]
            exact h.socket
          · rw [hstream]
          · simp [Stream.unread, Stream.buffered]
      | closed =>
          have hlen : c'.recv.stream.readLength ≤ 0 := by simp [Conn.recv, hrecvs, hnext]
          rw [if_pos hlen]
          exact Or.inr ⟨rfl, Int.negSucc_lt_zero 0, Int.negSucc_lt_zero 0⟩
      | failed =>
          have hlen : c'.recv.stream.readLength ≤ 0 := by simp [Conn.recv, hrecvs, hnext]
          rw [if_pos hlen]
          exact Or.inr ⟨rfl, Int.negSucc_lt_zero 0, Int.negSucc_lt_zero 0⟩

/-- The test that opens every reader loses nothing, or there is nothing to be found. -/
theorem fillIfEmpty_ready (h : c.Ready) :
    (¬ (fillIfEmpty c).1 < 0 ∧ Proceeds c (fillIfEmpty c).2 (some c.available)) ∨
      (fillIfEmpty c).1 < 0 ∧ c.available = [] ∧ Proceeds c (fillIfEmpty c).2 none := by
  unfold fillIfEmpty
  by_cases hempty : c.stream.readLength ≤ c.stream.readOffset
  · have hunread := unread_of_used hempty
    rw [if_pos hempty]
    by_cases hflushes : c.Flushes
    · rcases cseFillBuffer_of_flushes h hflushes with
        ⟨m, recvs, hrecvs, hfst, hready, hflushes', hbytes, hrest⟩ | ⟨hnone, hfst, hclosed⟩
      · refine Or.inl ⟨hfst, hready, ?_, fun _ => hflushes'⟩
        rw [Conn.available, if_pos hflushes', hbytes, hrest, Conn.available, if_pos hflushes,
          hunread, hrecvs]
        rfl
      · refine Or.inr ⟨hfst, ?_, fun _ => hclosed⟩
        rw [Conn.available, if_pos hflushes, hunread, hnone]
        rfl
    · refine Or.inr ⟨cseFillBuffer_of_not_flushes hflushes, ?_, fun hf => absurd hf hflushes⟩
      rw [Conn.available, if_neg hflushes, hunread]
      rfl
  · rw [if_neg hempty]
    exact Or.inl ⟨Int.lt_irrefl 0, h, rfl, id⟩

theorem length_unread (h : c.Ready) : c.stream.unread.length = c.stream.buffered := by
  have := h.buffer
  simp only [Stream.unread, Stream.buffered, List.length_take, List.length_drop]
  omega

theorem unread_advance {n : ℕ} (hn : n ≤ c.stream.buffered) :
    (c.advance n).stream.unread = c.stream.unread.drop n := by
  simp only [Conn.advance, Stream.unread, Stream.buffered] at hn ⊢
  rw [List.drop_take, List.drop_drop]
  congr 1
  omega

/-- Passing over unread bytes that are there. -/
theorem advance_proceeds (h : c.Ready) {n : ℕ} (hn : n ≤ c.stream.buffered) :
    Proceeds c (c.advance n) (some (c.available.drop n)) := by
  have hle : n ≤ c.stream.unread.length := by rw [length_unread h]; exact hn
  have hflushes : (c.advance n).Flushes ↔ c.Flushes := by
    rw [flushes_iff, flushes_iff]
    rfl
  refine ⟨⟨h.socket, h.buffer⟩, ?_, hflushes.mpr⟩
  rw [Conn.available, Conn.available, List.drop_append_of_le_length hle, unread_advance hn]
  simp only [hflushes]
  rfl

theorem unread_take (h : c.Ready) {n : ℕ} (hn : n ≤ c.stream.buffered) :
    c.stream.unread.take n = c.available.take n := by
  have hle : n ≤ c.stream.unread.length := by rw [length_unread h]; exact hn
  rw [Conn.available, List.take_append_of_le_length hle]

theorem buffered_le (h : c.Ready) : c.stream.buffered ≤ c.available.length := by
  rw [Conn.available, List.length_append, length_unread h]
  exact Nat.le_add_right _ _

/-! ## The readers -/

/-- `cse_read_byte` finds the first available byte. -/
theorem cseReadByte_ready (h : c.Ready) :
    (∃ b rest, c.available = b :: rest ∧ (cseReadByte c).1 = b.toNat ∧
        Proceeds c (cseReadByte c).2 (some rest)) ∨
      c.available = [] ∧ (cseReadByte c).1 = -1 ∧ Proceeds c (cseReadByte c).2 none := by
  rcases fillIfEmpty_ready h with ⟨hfst, hready, havail, hflushes⟩ | ⟨hfst, hnil, hnone⟩
  · left
    have hpos := buffered_pos_of_fillIfEmpty hfst
    simp only [cseReadByte, if_neg hfst]
    generalize (fillIfEmpty c).2 = c' at *
    have hadvance := advance_proceeds hready hpos
    have hlen := buffered_le hready
    have hunread := unread_take hready hpos
    have hlen' := length_unread hready
    rw [havail] at hadvance hlen hunread
    cases hbs : c.available with
    | nil =>
        rw [hbs, List.length_nil] at hlen
        omega
    | cons b rest =>
        rw [hbs] at hadvance hunread
        refine ⟨b, rest, rfl, ?_, hadvance.1, hadvance.2.1, fun hf => hadvance.2.2 (hflushes hf)⟩
        have hdrop : 0 < (c'.stream.readBuf.drop c'.stream.readOffset).length := by
          rw [Stream.unread, List.length_take] at hlen'
          omega
        rw [List.length_drop] at hdrop
        rw [Stream.unread, List.take_take, Nat.min_eq_left hpos,
          List.drop_eq_getElem_cons (by omega), List.take_succ_cons, List.take_succ_cons,
          List.cons.injEq] at hunread
        rw [List.getD_eq_getElem?_getD, List.getElem?_eq_getElem (by omega), Option.getD_some,
          hunread.1]
  · right
    simp only [cseReadByte, if_pos hfst]
    exact ⟨hnil, trivial, hnone⟩

/-- The loop behind `cse_read_all` and `cse_skip` finds the bytes it asks for, as far as
they are available. -/
theorem readLoop_ready {fuel len : ℕ} (hfuel : len ≤ fuel) (h : c.Ready) :
    (readLoop fuel len c).2.1 = c.available.take len ∧
      Proceeds c (readLoop fuel len c).2.2 (after len c.available) := by
  induction fuel generalizing len c with
  | zero =>
      obtain rfl : len = 0 := by omega
      exact ⟨rfl, h, rfl, id⟩
  | succ fuel ih =>
      unfold readLoop
      by_cases hlen : len = 0
      · subst hlen
        exact ⟨rfl, h, rfl, id⟩
      rw [if_neg hlen]
      rcases fillIfEmpty_ready h with ⟨hfst, hready, havail, hflushes⟩ | ⟨hfst, hnil, hnone⟩
      · have hpos := buffered_pos_of_fillIfEmpty hfst
        simp only [if_neg hfst]
        generalize (fillIfEmpty c).2 = c' at *
        have hk : min len c'.stream.buffered ≤ c'.stream.buffered := Nat.min_le_right _ _
        have hle := buffered_le hready
        have hadvance := advance_proceeds hready hk
        have hmet := unread_take hready hk
        rw [havail] at hadvance hmet hle
        generalize hmin : min len c'.stream.buffered = k at *
        obtain ⟨hbytes, hrest⟩ := @ih (c'.advance k) (len - k) (by omega) hadvance.1
        rw [hadvance.2.1] at hbytes hrest
        rw [after_drop (by omega) (by omega)] at hrest
        refine ⟨?_, ?_⟩
        · rw [hbytes, hmet, ← List.take_add, Nat.add_sub_cancel' (by omega)]
        · exact Proceeds.append ⟨hadvance.1, hadvance.2.1, fun hf => hadvance.2.2 (hflushes hf)⟩
            hrest
      · simp only [if_pos hfst]
        rw [hnil, List.take_nil, after_of_lt (by rw [List.length_nil]; omega)]
        exact ⟨rfl, hnone⟩

theorem cseReadAll_ready (h : c.Ready) (len : ℕ) :
    (cseReadAll c len).2.1 = c.available.take len ∧
      Proceeds c (cseReadAll c len).2.2 (after len c.available) :=
  readLoop_ready (Nat.le_refl len) h

/-- What `cse_read_limit` makes of the array: the bytes it finds, as far as they fit. -/
def limited (buf : Mem) (buflen readlen : ℕ) (bs : List Byte) : Mem :=
  if buflen > readlen then (buf.store 0 (bs.take readlen)).store readlen [0]
  else (buf.store 0 (bs.take buflen)).store (buflen - 1) [0]

theorem cseReadLimit_ready (h : c.Ready) (buf : Mem) (buflen readlen : ℕ) :
    (cseReadLimit c buf buflen readlen).2.1 = limited buf buflen readlen c.available ∧
      Proceeds c (cseReadLimit c buf buflen readlen).2.2 (after readlen c.available) := by
  unfold cseReadLimit limited
  by_cases hfit : buflen > readlen
  · obtain ⟨hbytes, hrest⟩ := cseReadAll_ready h readlen
    rw [if_pos hfit, if_pos hfit]
    simp only [hbytes]
    exact ⟨trivial, hrest⟩
  · obtain ⟨hbytes, hrest⟩ := cseReadAll_ready h buflen
    rw [if_neg hfit, if_neg hfit]
    simp only [hbytes]
    refine ⟨trivial, ?_⟩
    by_cases hlen : buflen ≤ c.available.length
    · rw [after_of_le hlen] at hrest
      obtain ⟨-, hskip⟩ := readLoop_ready (Nat.le_refl (readlen - buflen)) hrest.1
      rw [hrest.2.1, after_drop (by omega) hlen] at hskip
      exact hrest.append hskip
    · rw [after_of_lt (by omega)] at hrest
      rw [after_of_lt (by omega)]
      exact fun hf => readLoop_closed _ _ (hrest hf)

/-- The four bytes of a header are found. -/
theorem readHeader_ready (h : c.Ready) {code b₁ b₂ b₃ : Byte} {rest : List Byte}
    (hbs : c.available = code :: b₁ :: b₂ :: b₃ :: rest) :
    ∃ c', readHeader c =
        ((code.toNat : ℤ), (b₁.toNat : ℤ), (b₂.toNat : ℤ), (b₃.toNat : ℤ), c') ∧
      Proceeds c c' (some rest) := by
  have hone {c : Conn} {b : Byte} {bs : List Byte} (h : c.Ready) (hbs : c.available = b :: bs) :
      (cseReadByte c).1 = b.toNat ∧ Proceeds c (cseReadByte c).2 (some bs) := by
    rcases cseReadByte_ready h with ⟨b', bs', hfound, hvalue, hrest⟩ | ⟨hnil, -⟩
    · rw [hbs] at hfound
      cases hfound
      exact ⟨hvalue, hrest⟩
    · rw [hbs] at hnil
      cases hnil
  obtain ⟨hv₀, h₀⟩ := hone h hbs
  obtain ⟨hv₁, h₁⟩ := hone h₀.1 h₀.2.1
  obtain ⟨hv₂, h₂⟩ := hone h₁.1 h₁.2.1
  obtain ⟨hv₃, h₃⟩ := hone h₂.1 h₂.2.1
  exact ⟨_, by simp only [readHeader, hv₀, hv₁, hv₂, hv₃], ((h₀.trans h₁).trans h₂).trans h₃⟩

/-- A header with too few bytes fails, and closes the socket unless the write buffer is
in the way. -/
theorem readHeader_short (h : c.Ready) (hshort : c.available.length < 4) :
    Proceeds c (readHeader c).2.2.2.2 none := by
  intro hflushes
  rcases cseReadByte_ready h with ⟨b₀, r₀, hb₀, -, h₀⟩ | ⟨-, -, hnone⟩
  · rcases cseReadByte_ready h₀.1 with ⟨b₁, r₁, hb₁, -, h₁⟩ | ⟨-, -, hnone⟩
    · rcases cseReadByte_ready h₁.1 with ⟨b₂, r₂, hb₂, -, h₂⟩ | ⟨-, -, hnone⟩
      · rcases cseReadByte_ready h₂.1 with ⟨b₃, r₃, hb₃, -, -⟩ | ⟨-, -, hnone⟩
        · rw [h₀.2.1] at hb₁
          rw [h₁.2.1] at hb₂
          rw [h₂.2.1] at hb₃
          rw [hb₀, hb₁, hb₂, hb₃] at hshort
          simp only [List.length_cons] at hshort
          omega
        · exact ((h₀.trans h₁).trans h₂).trans_none hnone hflushes
      · exact cseReadByte_closed ((h₀.trans h₁).trans_none hnone hflushes)
    · exact cseReadByte_closed (cseReadByte_closed (h₀.trans_none hnone hflushes))
  · exact cseReadByte_closed (cseReadByte_closed (cseReadByte_closed (hnone hflushes)))

/-- The bytes behind a packet that is read as a string, if there is a whole one. -/
def behindString? : List Byte → Option (List Byte)
  | _ :: b₁ :: b₂ :: b₃ :: bs => after (ofBe24 b₁ b₂ b₃) bs
  | _ => none

/-- What `cse_read_string` makes of the array. -/
def readString (buf : Mem) (length : ℕ) : List Byte → Mem
  | _ :: b₁ :: b₂ :: b₃ :: bs => limited buf (length - 1) (ofBe24 b₁ b₂ b₃) bs
  | _ => buf

/-- There is a whole packet header, or nothing is read as a string. -/
theorem string_cases (bs : List Byte) :
    (∃ code b₁ b₂ b₃ rest, bs = code :: b₁ :: b₂ :: b₃ :: rest) ∨
      bs.length < 4 ∧ behindString? bs = none ∧ ∀ buf length, readString buf length bs = buf := by
  match bs with
  | code :: b₁ :: b₂ :: b₃ :: rest => exact Or.inl ⟨code, b₁, b₂, b₃, rest, rfl⟩
  | [] => exact Or.inr ⟨by simp, rfl, fun _ _ => rfl⟩
  | [_] => exact Or.inr ⟨by simp, rfl, fun _ _ => rfl⟩
  | [_, _] => exact Or.inr ⟨by simp, rfl, fun _ _ => rfl⟩
  | [_, _, _] => exact Or.inr ⟨by simp, rfl, fun _ _ => rfl⟩

theorem cseReadString_ready (h : c.Ready)
    (hflushes : c.Flushes ∨ (behindString? c.available).isSome) (buf : Mem) (length : ℕ) :
    (cseReadString c buf length).2.1 = readString buf length c.available ∧
      Proceeds c (cseReadString c buf length).2.2 (behindString? c.available) := by
  rw [cseReadString_eq]
  rcases string_cases c.available with ⟨code, b₁, b₂, b₃, rest, hbs⟩ | ⟨hshort, hnone, hbuf⟩
  · obtain ⟨c', hheader, hrest⟩ := readHeader_ready h hbs
    have hopen : ¬ (c'.stream.socket < 0 ∨ (b₃.toNat : ℤ) < 0) := by
      have := hrest.1.socket
      omega
    obtain ⟨hmem, hlimit⟩ := cseReadLimit_ready hrest.1 buf (length - 1) (ofBe24 b₁ b₂ b₃)
    rw [hrest.2.1] at hmem hlimit
    simp only [hheader, if_neg hopen, low8_toNat, hbs]
    exact ⟨hmem, hrest.append hlimit⟩
  · have hclosed := readHeader_short h hshort (hflushes.resolve_right (by simp [hnone]))
    simp only [hclosed, true_or, if_true, hnone, hbuf]
    exact ⟨trivial, fun _ => hclosed⟩

end

end ModCaucho
