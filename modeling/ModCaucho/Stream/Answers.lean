import ModCaucho.Stream.Available

/-!
# What every read gets

`answers c` is what the next reads of a connection get one after the other: the unread
bytes of the buffer, then nothing for every refill that fails because the write buffer
can not be sent, then the bytes that arrive. Behind them the connection is closed. A
reader of a single byte takes one answer; the readers of many bytes stop behind the first
answer that is not a byte.
-/

namespace ModCaucho

open Framing

/-- How many `send`s in a row do not take `len` bytes. -/
def refusals (len : ℕ) : List SendResult → ℕ
  | [] => 0
  | .accepts n :: sends => if len ≤ n then 0 else refusals len sends + 1
  | .failed :: sends => refusals len sends + 1

/-- How many refills fail before the write buffer is sent. -/
def Conn.refused (c : Conn) : ℕ :=
  if c.stream.writeBuf = [] then 0 else refusals c.stream.writeBuf.length c.os.sends

/-- What the next reads get. -/
def Conn.answers (c : Conn) : List (Option Byte) :=
  c.stream.unread.map some ++ List.replicate c.refused none ++
    (bytesOf (arriving c.os.recvs)).map some

/-- A connection that gives these answers from now on, or a closed one. -/
def Answers (c : Conn) : Option (List (Option Byte)) → Prop
  | some answers => c.Ready ∧ c.answers = answers
  | none => c.stream.socket < 0

/-- What `cse_read_byte` returns for an answer. -/
def byteResult : Option Byte → ℤ
  | some b => b.toNat
  | none => -1

/-- Up to `n` bytes of the answers, and the answers behind them. A read that gets no
byte is the last one. -/
def takeBytes : ℕ → List (Option Byte) → List Byte × Option (List (Option Byte))
  | 0, answers => ([], some answers)
  | _ + 1, [] => ([], none)
  | _ + 1, none :: answers => ([], some answers)
  | n + 1, some b :: answers =>
      let (bytes, rest) := takeBytes n answers
      (b :: bytes, rest)

theorem takeBytes_length (n : ℕ) (answers : List (Option Byte)) :
    (takeBytes n answers).1.length ≤ n := by
  induction n generalizing answers with
  | zero => exact Nat.le_refl _
  | succ n ih =>
      match answers with
      | [] => exact Nat.zero_le _
      | none :: answers => exact Nat.zero_le _
      | some b :: answers => exact Nat.succ_le_succ (ih answers)

/-- Bytes that are there are taken, and then one goes on behind them. -/
theorem takeBytes_append {n : ℕ} {bytes : List Byte} (h : bytes.length ≤ n)
    (answers : List (Option Byte)) :
    takeBytes n (bytes.map some ++ answers) =
      (bytes ++ (takeBytes (n - bytes.length) answers).1,
        (takeBytes (n - bytes.length) answers).2) := by
  induction bytes generalizing n with
  | nil => rfl
  | cons b bytes ih =>
      rw [List.length_cons] at h
      obtain ⟨n, rfl⟩ : ∃ k, n = k + 1 := ⟨n - 1, by omega⟩
      rw [List.map_cons, List.cons_append, takeBytes, ih (by omega), List.length_cons,
        Nat.add_sub_add_right]
      rfl

/-- The bytes that are read before the first read that gets nothing. -/
def arrived : List (Option Byte) → List Byte
  | some b :: answers => b :: arrived answers
  | _ => []

theorem arrived_length_le (answers : List (Option Byte)) :
    (arrived answers).length ≤ answers.length := by
  induction answers with
  | nil => exact Nat.le_refl 0
  | cons a answers ih =>
      cases a with
      | none => exact Nat.zero_le _
      | some b => exact Nat.succ_le_succ ih

theorem arrived_append (bytes : List Byte) (answers : List (Option Byte)) :
    arrived (bytes.map some ++ answers) = bytes ++ arrived answers := by
  induction bytes with
  | nil => rfl
  | cons b bytes ih => exact congrArg (b :: ·) ih

theorem arrived_map_some (bytes : List Byte) : arrived (bytes.map some) = bytes := by
  simpa [arrived] using arrived_append bytes []

theorem takeBytes_fst (n : ℕ) (answers : List (Option Byte)) :
    (takeBytes n answers).1 = (arrived answers).take n := by
  induction n generalizing answers with
  | zero => rfl
  | succ n ih =>
      match answers with
      | [] => rfl
      | none :: answers => rfl
      | some b :: answers => exact congrArg (b :: ·) (ih answers)

/-- Bytes that have arrived are taken, and the ones behind them are left. -/
theorem takeBytes_snd {n : ℕ} {answers : List (Option Byte)} (h : n ≤ (arrived answers).length) :
    ∃ rest, (takeBytes n answers).2 = some rest ∧ arrived rest = (arrived answers).drop n := by
  induction n generalizing answers with
  | zero => exact ⟨answers, rfl, rfl⟩
  | succ n ih =>
      match answers, h with
      | some b :: answers, h => exact ih (Nat.le_of_succ_le_succ h)

theorem takeBytes_rest_le {n : ℕ} {answers rest : List (Option Byte)}
    (h : (takeBytes n answers).2 = some rest) : rest.length ≤ answers.length := by
  induction n generalizing answers with
  | zero =>
      cases h
      exact Nat.le_refl _
  | succ n ih =>
      match answers, h with
      | none :: answers, h =>
          cases h
          exact Nat.le_succ _
      | some b :: answers, h => exact Nat.le_succ_of_le (ih h)

/-- The length in a packet header. The bits of a byte that is not read are ones. -/
def headerLength (a₁ a₂ a₃ : Option Byte) : ℕ :=
  low8 (byteResult a₁) * 65536 + low8 (byteResult a₂) * 256 + low8 (byteResult a₃)

theorem headerLength_some (b₁ b₂ b₃ : Byte) :
    headerLength (some b₁) (some b₂) (some b₃) = ofBe24 b₁ b₂ b₃ := by
  simp only [headerLength, byteResult, low8_toNat]
  rfl

/-! ## A refill -/

section

variable {c : Conn}

theorem flushes_iff_refused (h : 0 ≤ c.stream.socket) : c.Flushes ↔ c.refused = 0 := by
  have hopen : ¬ c.stream.socket < 0 := Int.not_lt.mpr h
  rw [flushes_iff, Conn.refused]
  by_cases hnil : c.stream.writeBuf = []
  · simp [hnil]
  · rw [if_neg hnil, or_iff_right hnil]
    simp only [Conn.send, Os.send, if_neg hopen, Stream.writeLength]
    rcases c.os.sends with _ | ⟨n | _, sends⟩
    · simp [refusals]
    · simp only [refusals, List.length_take]
      by_cases hn : c.stream.writeBuf.length ≤ n
      · simp [if_pos hn, Nat.min_eq_right hn]
      · rw [if_neg hn]
        omega
    · simp [refusals]

/-- The bytes that are available are the ones that arrive before a read gets nothing. -/
theorem available_eq_arrived (h : 0 ≤ c.stream.socket) : c.available = arrived c.answers := by
  rw [Conn.answers, List.append_assoc, arrived_append, Conn.available]
  by_cases hflushes : c.Flushes
  · rw [if_pos hflushes, (flushes_iff_refused h).mp hflushes, List.replicate_zero,
      List.nil_append, arrived_map_some]
  · obtain ⟨k, hk⟩ := Nat.exists_eq_succ_of_ne_zero (mt (flushes_iff_refused h).mpr hflushes)
    rw [if_neg hflushes, hk, List.replicate_succ]
    rfl

/-- A flush that fails has tried one `send`. -/
theorem cseFlush_refused {k : ℕ} (h : 0 ≤ c.stream.socket) (hrefused : c.refused = k + 1) :
    (cseFlush c).2.stream = c.stream ∧ (cseFlush c).2.os.recvs = c.os.recvs ∧
      (cseFlush c).2.refused = k := by
  have hopen : ¬ c.stream.socket < 0 := Int.not_lt.mpr h
  have hnot : ¬ c.Flushes := by
    rw [flushes_iff_refused h, hrefused]
    exact Nat.succ_ne_zero k
  rw [flushes_iff, not_or] at hnot
  obtain ⟨hnil, hshort⟩ := hnot
  have hpos : c.stream.writeLength > 0 := List.length_pos_iff.mpr hnil
  have hflush : (cseFlush c).2 = (c.send c.stream.writeBuf).2 := by
    unfold cseFlush
    rw [if_pos hpos]
    change (if (c.send c.stream.writeBuf).1 ≠ c.stream.writeLength then _ else _ : ℤ × Conn).2 = _
    rw [if_pos hshort]
    rfl
  rw [Conn.refused, if_neg hnil] at hrefused
  refine ⟨by rw [hflush, send_stream], (cseFlush_recvs c).2, ?_⟩
  rw [hflush, Conn.refused, send_stream, if_neg hnil]
  revert hrefused
  simp only [Conn.send, Os.send, if_neg hopen]
  rcases c.os.sends with _ | ⟨n | _, sends⟩
  · simp [refusals]
  · simp only [refusals]
    by_cases hn : c.stream.writeBuf.length ≤ n
    · rw [if_pos hn]
      intro hrefused
      cases hrefused
    · rw [if_neg hn]
      exact fun hrefused => Nat.succ_inj.mp hrefused
  · exact fun hrefused => Nat.succ_inj.mp hrefused

/-- The test that opens every reader: there is a byte in the buffer, or this read gets
nothing. -/
theorem fillIfEmpty_answers (h : c.Ready) :
    match c.answers with
    | some b :: answers => ¬ (fillIfEmpty c).1 < 0 ∧
        Answers (fillIfEmpty c).2 (some (some b :: answers))
    | none :: answers => (fillIfEmpty c).1 < 0 ∧ Answers (fillIfEmpty c).2 (some answers)
    | [] => (fillIfEmpty c).1 < 0 ∧ Answers (fillIfEmpty c).2 none := by
  unfold fillIfEmpty
  by_cases hempty : c.stream.readLength ≤ c.stream.readOffset
  · have hunread := unread_of_used hempty
    rw [if_pos hempty, Conn.answers, hunread, List.map_nil, List.nil_append]
    cases hrefused : c.refused with
    | zero =>
        have hflushes := (flushes_iff_refused h.socket).mpr hrefused
        rw [List.replicate_zero, List.nil_append]
        rcases cseFillBuffer_of_flushes h hflushes with
          ⟨m, recvs, hrecvs, hfst, hready, hflushes', hbytes, hrest⟩ | ⟨hnone, hfst, hclosed⟩
        · have hfilled : (cseFillBuffer c).2.answers =
              (bytesOf (arriving c.os.recvs)).map some := by
            rw [Conn.answers, hbytes, hrest, (flushes_iff_refused hready.socket).mp hflushes',
              hrecvs, List.replicate_zero, List.append_nil, ← List.map_append]
            rfl
          cases hbs : bytesOf (arriving c.os.recvs) with
          | nil =>
              rw [hrecvs] at hbs
              exact absurd (List.append_eq_nil_iff.mp hbs).1 m.ne_nil
          | cons b bytes => exact ⟨hfst, hready, by rw [hfilled, hbs]; rfl⟩
        · rw [hnone]
          exact ⟨hfst, hclosed⟩
    | succ k =>
        have hopen : ¬ c.stream.socket < 0 := Int.not_lt.mpr h.socket
        have hfails : (cseFlush c).1 < 0 := by
          by_contra hnot
          rw [← Conn.Flushes, flushes_iff_refused h.socket, hrefused] at hnot
          cases hnot
        obtain ⟨hstream, hrecvs, hless⟩ := cseFlush_refused h.socket hrefused
        have hfill : cseFillBuffer c = (-1, (cseFlush c).2) := by
          unfold cseFillBuffer
          simp only [if_neg hopen, if_pos hfails]
        rw [hfill, List.replicate_succ]
        refine ⟨Int.negSucc_lt_zero 0, ⟨by rw [hstream]; exact h.socket,
          by rw [hstream]; exact h.buffer⟩, ?_⟩
        rw [Conn.answers, hstream, hunread, hrecvs, hless]
        rfl
  · have hpos : 0 < c.stream.buffered := by
      rw [Stream.buffered]
      omega
    rw [if_neg hempty]
    cases hunread : c.stream.unread with
    | nil =>
        rw [← length_unread h, hunread] at hpos
        exact absurd hpos (Nat.lt_irrefl 0)
    | cons b rest =>
        have hanswers : c.answers = some b :: (rest.map some ++ List.replicate c.refused none ++
            (bytesOf (arriving c.os.recvs)).map some) := by
          rw [Conn.answers, hunread]
          rfl
        rw [hanswers]
        exact ⟨Int.lt_irrefl 0, h, hanswers⟩

/-! ## The readers -/

/-- Passing over unread bytes. -/
theorem advance_answers (h : c.Ready) {n : ℕ} (hn : n ≤ c.stream.buffered) :
    c.answers = (c.stream.unread.take n).map some ++ (c.advance n).answers ∧
      (c.advance n).Ready := by
  refine ⟨?_, h.socket, h.buffer⟩
  have hrefused : (c.advance n).refused = c.refused := rfl
  rw [Conn.answers, Conn.answers, unread_advance hn, hrefused, ← List.append_assoc,
    ← List.append_assoc, ← List.map_append, List.take_append_drop]
  rfl

/-- `cse_read_byte` takes one answer. -/
theorem cseReadByte_answers (h : c.Ready) :
    (∃ a answers, c.answers = a :: answers ∧ (cseReadByte c).1 = byteResult a ∧
        Answers (cseReadByte c).2 (some answers)) ∨
      c.answers = [] ∧ (cseReadByte c).2.stream.socket < 0 := by
  have hfill := fillIfEmpty_answers h
  revert hfill
  unfold cseReadByte
  rcases c.answers with _ | ⟨_ | b, answers⟩
  · rintro ⟨hfst, hclosed⟩
    simp only [if_pos hfst]
    exact Or.inr ⟨trivial, hclosed⟩
  · rintro ⟨hfst, hstate⟩
    simp only [if_pos hfst]
    exact Or.inl ⟨none, answers, rfl, rfl, hstate⟩
  · rintro ⟨hfst, hready, hanswers⟩
    have hpos := buffered_pos_of_fillIfEmpty hfst
    simp only [if_neg hfst]
    generalize (fillIfEmpty c).2 = c' at *
    obtain ⟨hmet, hready'⟩ := advance_answers hready hpos
    have hone : ∃ b', c'.stream.unread.take 1 = [b'] := by
      refine List.length_eq_one_iff.mp ?_
      rw [List.length_take, length_unread hready]
      omega
    obtain ⟨b', hb'⟩ := hone
    rw [hanswers, hb'] at hmet
    cases hmet
    have hfirst := congrArg List.head? hb'
    rw [List.head?_take, if_neg Nat.one_ne_zero, Stream.unread, List.head?_take,
      if_neg (Nat.ne_of_gt hpos), List.head?_drop] at hfirst
    refine Or.inl ⟨some b, _, rfl, ?_, hready', rfl⟩
    rw [List.getD_eq_getElem?_getD, hfirst]
    rfl

/-- The loop behind `cse_read_all` and `cse_skip` takes its bytes. -/
theorem readLoop_answers {fuel len : ℕ} (hfuel : len ≤ fuel) (h : c.Ready) :
    (readLoop fuel len c).2.1 = (takeBytes len c.answers).1 ∧
      Answers (readLoop fuel len c).2.2 (takeBytes len c.answers).2 := by
  induction fuel generalizing len c with
  | zero =>
      obtain rfl : len = 0 := by omega
      exact ⟨rfl, h, rfl⟩
  | succ fuel ih =>
      unfold readLoop
      by_cases hlen : len = 0
      · subst hlen
        exact ⟨rfl, h, rfl⟩
      rw [if_neg hlen]
      obtain ⟨n, rfl⟩ : ∃ n, len = n + 1 := ⟨len - 1, by omega⟩
      have hfill := fillIfEmpty_answers h
      revert hfill
      rcases c.answers with _ | ⟨_ | b, answers⟩
      · rintro ⟨hfst, hstate⟩
        simp only [if_pos hfst]
        exact ⟨rfl, hstate⟩
      · rintro ⟨hfst, hstate⟩
        simp only [if_pos hfst]
        exact ⟨rfl, hstate⟩
      · rintro ⟨hfst, hready, hanswers⟩
        have hpos := buffered_pos_of_fillIfEmpty hfst
        simp only [if_neg hfst]
        generalize (fillIfEmpty c).2 = c' at *
        have hk : min (n + 1) c'.stream.buffered ≤ c'.stream.buffered := Nat.min_le_right _ _
        obtain ⟨hmet, hready'⟩ := advance_answers hready hk
        have hlength := length_unread hready
        generalize hmin : min (n + 1) c'.stream.buffered = k at *
        have htaken : (c'.stream.unread.take k).length = k := by
          rw [List.length_take]
          omega
        obtain ⟨hbytes, hrest⟩ := @ih (c'.advance k) (n + 1 - k) (by omega) hready'
        rw [← hanswers, hmet, takeBytes_append (by omega), htaken]
        exact ⟨by rw [hbytes], hrest⟩

theorem cseReadAll_answers (h : c.Ready) (len : ℕ) :
    (cseReadAll c len).2.1 = (takeBytes len c.answers).1 ∧
      Answers (cseReadAll c len).2.2 (takeBytes len c.answers).2 :=
  readLoop_answers (Nat.le_refl len) h

/-- A packet header takes four answers, or the connection is closed behind it. -/
theorem readHeader_answers (h : c.Ready) :
    (∃ a a₁ a₂ a₃ answers c', c.answers = a :: a₁ :: a₂ :: a₃ :: answers ∧
        readHeader c = (byteResult a, byteResult a₁, byteResult a₂, byteResult a₃, c') ∧
        Answers c' (some answers)) ∨
      c.answers.length < 4 ∧ (readHeader c).2.2.2.2.stream.socket < 0 := by
  rcases cseReadByte_answers h with ⟨a, as, has, hv, hready, hrest⟩ | ⟨hnil, hclosed⟩
  · rcases cseReadByte_answers hready with ⟨a₁, as₁, has₁, hv₁, hready₁, hrest₁⟩ | ⟨hnil, hclosed⟩
    · rcases cseReadByte_answers hready₁ with
        ⟨a₂, as₂, has₂, hv₂, hready₂, hrest₂⟩ | ⟨hnil, hclosed⟩
      · rcases cseReadByte_answers hready₂ with ⟨a₃, as₃, has₃, hv₃, hstate⟩ | ⟨hnil, hclosed⟩
        · left
          refine ⟨a, a₁, a₂, a₃, as₃, _, ?_, ?_, hstate⟩
          · rw [has, ← hrest, has₁, ← hrest₁, has₂, ← hrest₂, has₃]
          · simp only [readHeader, hv, hv₁, hv₂, hv₃]
        · right
          exact ⟨by rw [has, ← hrest, has₁, ← hrest₁, has₂, ← hrest₂, hnil]; simp, hclosed⟩
      · right
        exact ⟨by rw [has, ← hrest, has₁, ← hrest₁, hnil]; simp, cseReadByte_closed hclosed⟩
    · right
      exact ⟨by rw [has, ← hrest, hnil]; simp, cseReadByte_closed (cseReadByte_closed hclosed)⟩
  · right
    exact ⟨by rw [hnil]; simp,
      cseReadByte_closed (cseReadByte_closed (cseReadByte_closed hclosed))⟩

end

end ModCaucho
