import ModCaucho.Lib.Framing
import ModCaucho.Stream.Write

/-!
# What reading takes off the stream

`pending c` are the bytes that a reader can still get: the unread ones of the
buffer and the ones that arrive before `recv` reports the end or an error. On a
connection whose sends succeed a reader either takes its bytes off the front of
`pending`, or finds too few of them and leaves the socket closed. `Reads` says
this for the first case and records which chunks had to be received on the way:
only as many as the bytes needed, and with the first of them the write buffer
was sent.
-/

namespace ModCaucho

open Framing

/-! ## Bytes to come -/

/-- The chunks that arrive before `recv` reports the end or an error. -/
def arriving : List RecvResult → List Chunk
  | .data chunk :: recvs => chunk :: arriving recvs
  | _ => []

/-- The bytes of a list of chunks. -/
def bytesOf (chunks : List Chunk) : List Byte := chunks.flatMap Chunk.bytes

@[simp] theorem bytesOf_nil : bytesOf [] = [] := rfl

@[simp] theorem bytesOf_cons (m : Chunk) (ms : List Chunk) :
    bytesOf (m :: ms) = m.bytes ++ bytesOf ms := rfl

@[simp] theorem bytesOf_append (ms ms' : List Chunk) :
    bytesOf (ms ++ ms') = bytesOf ms ++ bytesOf ms' := by
  simp [bytesOf]

theorem arriving_data_append (ms : List Chunk) (recvs : List RecvResult) :
    arriving (ms.map .data ++ recvs) = ms ++ arriving recvs := by
  induction ms with
  | nil => rfl
  | cons m ms ih => simp [arriving, ih]

/-- The bytes that a reader can still get. -/
def Conn.pending (c : Conn) : List Byte := c.stream.unread ++ bytesOf (arriving c.os.recvs)

/-- A connection that sends what it is given and whose buffer holds what it
counts. -/
structure Conn.Live (c : Conn) : Prop extends c.Sends where
  buffer : c.stream.readLength ≤ c.stream.readBuf.length

theorem Conn.Live.length_unread {c : Conn} (h : c.Live) :
    c.stream.unread.length = c.stream.buffered := by
  have := h.buffer
  simp only [Stream.unread, Stream.buffered, List.length_take, List.length_drop]
  omega

/-- `c'` is `c` after `bs` were taken off what is pending, for which the chunks `ms`
were received. -/
structure Takes (ms : List Chunk) (bs : List Byte) (c c' : Conn) : Prop where
  live : c'.Live
  socket : c'.stream.socket = c.stream.socket
  recvs : c.os.recvs = ms.map .data ++ c'.os.recvs
  bytes : c.stream.unread ++ bytesOf ms = bs ++ c'.stream.unread
  needed : ∀ ms' m, ms = ms' ++ [m] → c'.stream.unread.length < m.bytes.length

/-- `c'` is `c` after `bs` were read and nothing was written. -/
structure Reads (ms : List Chunk) (bs : List Byte) (c c' : Conn) : Prop
    extends Takes ms bs c c' where
  kept : ms = [] → c'.stream.writeBuf = c.stream.writeBuf
  flushed : ms ≠ [] → c'.stream.writeBuf = []

theorem Takes.refl {c : Conn} (h : c.Live) : Takes [] [] c c where
  live := h
  socket := rfl
  recvs := rfl
  bytes := by simp
  needed := by simp

theorem Takes.trans {ms ms' : List Chunk} {bs bs' : List Byte} {c c' c'' : Conn}
    (h : Takes ms bs c c') (h' : Takes ms' bs' c' c'') :
    Takes (ms ++ ms') (bs ++ bs') c c'' where
  live := h'.live
  socket := h'.socket.trans h.socket
  recvs := by rw [h.recvs, h'.recvs, List.map_append, List.append_assoc]
  bytes := by
    rw [bytesOf_append, ← List.append_assoc, h.bytes, List.append_assoc, h'.bytes,
      List.append_assoc]
  needed := by
    intro ms₁ m hms
    rcases List.eq_nil_or_concat ms' with rfl | ⟨ms₂, m', rfl⟩
    · have hlen := congrArg List.length h'.bytes
      simp only [bytesOf_nil, List.append_nil, List.length_append] at hlen hms
      have := h.needed ms₁ m hms
      omega
    · rw [List.concat_eq_append] at h' hms
      rw [← List.append_assoc] at hms
      obtain rfl : m' = m := by simpa using congrArg List.getLast? hms
      exact h'.needed ms₂ m' rfl

/-- Taking bytes takes them off the front of what is pending. -/
theorem Takes.pending {ms : List Chunk} {bs : List Byte} {c c' : Conn} (h : Takes ms bs c c') :
    c.pending = bs ++ c'.pending := by
  rw [Conn.pending, h.recvs, arriving_data_append, bytesOf_append, ← List.append_assoc,
    h.bytes, List.append_assoc]
  rfl

theorem Reads.refl {c : Conn} (h : c.Live) : Reads [] [] c c where
  toTakes := Takes.refl h
  kept _ := rfl
  flushed h := absurd rfl h

theorem Reads.trans {ms ms' : List Chunk} {bs bs' : List Byte} {c c' c'' : Conn}
    (h : Reads ms bs c c') (h' : Reads ms' bs' c' c'') :
    Reads (ms ++ ms') (bs ++ bs') c c'' where
  toTakes := h.toTakes.trans h'.toTakes
  kept := by
    intro hms
    obtain ⟨h₁, h₂⟩ := List.append_eq_nil_iff.mp hms
    rw [h'.kept h₂, h.kept h₁]
  flushed := by
    intro hms
    by_cases h₂ : ms' = []
    · have h₁ : ms ≠ [] := by
        rintro rfl
        exact hms (by simp [h₂])
      rw [h'.kept h₂, h.flushed h₁]
    · exact h'.flushed h₂

/-! ## Filling the buffer -/

theorem unread_of_used {c : Conn} (h : c.stream.readLength ≤ c.stream.readOffset) :
    c.stream.unread = [] := by
  have : c.stream.buffered = 0 := by
    unfold Stream.buffered
    omega
  rw [Stream.unread, this, List.take_zero]

/-- A connection whose buffer was just filled with a chunk. -/
def Conn.filled (c : Conn) (m : Chunk) (recvs : List RecvResult) : Conn where
  stream := { c.stream with
    readBuf := m.bytes, readOffset := 0, readLength := m.bytes.length, writeBuf := [] }
  os := { c.drained.os with recvs := recvs, waits := c.drained.os.waits ++ [[]] }

/-- Filling the buffer of a connection that is still to deliver something drains the
write buffer and puts one chunk in place. -/
theorem cseFillBuffer_of_data {c : Conn} (h : c.Sends) {m : Chunk} {recvs : List RecvResult}
    (hrecvs : c.os.recvs = .data m :: recvs) :
    cseFillBuffer c = ((m.bytes.length : ℤ), c.filled m recvs) := by
  have hopen : ¬ c.stream.socket < 0 := by
    have := h.socket
    omega
  have hrecvs' : c.drained.os.recvs = .data m :: recvs := by
    rw [← hrecvs]
    unfold Conn.drained
    split <;> rfl
  have hlen : ¬ (m.bytes.length : ℤ) ≤ 0 := by
    have := m.length_pos
    omega
  have hflush : ¬ (0 : ℤ) < 0 := by omega
  simp only [cseFillBuffer, if_neg hopen, cseFlush_eq h, if_neg hflush, Conn.recv, hrecvs',
    if_neg hlen]
  rfl

/-- Filling the buffer of a connection that delivers nothing more closes it. -/
theorem cseFillBuffer_of_end {c : Conn} (h : c.Sends) (hend : arriving c.os.recvs = []) :
    (cseFillBuffer c).1 = -1 ∧ (cseFillBuffer c).2.stream.socket = -1 := by
  have hopen : ¬ c.stream.socket < 0 := by
    have := h.socket
    omega
  have hrecvs' : c.drained.os.recvs = c.os.recvs := by
    unfold Conn.drained
    split <;> rfl
  have hlen : c.drained.recv.stream.readLength ≤ 0 := by
    rw [Conn.recv, hrecvs']
    cases hrecvs : c.os.recvs with
    | nil => simp
    | cons result recvs =>
        cases result with
        | data m =>
            rw [hrecvs] at hend
            cases hend
        | closed => simp
        | failed => simp
  have hflush : ¬ (0 : ℤ) < 0 := by omega
  simp only [cseFillBuffer, if_neg hopen, cseFlush_eq h, if_neg hflush, if_pos hlen]
  exact ⟨trivial, rfl⟩

/-- Passing over unread bytes that are there. -/
theorem reads_advance {c : Conn} (h : c.Live) {n : ℕ} (hn : n ≤ c.stream.buffered) :
    Reads [] (c.stream.unread.take n) c (c.advance n) where
  live := ⟨⟨h.socket, h.all⟩, h.buffer⟩
  socket := rfl
  recvs := rfl
  bytes := by
    have hdrop : (c.advance n).stream.unread = c.stream.unread.drop n := by
      simp only [Conn.advance, Stream.unread, Stream.buffered] at hn ⊢
      rw [List.drop_take, List.drop_drop]
      congr 1
      omega
    rw [hdrop, List.take_append_drop, bytesOf_nil, List.append_nil]
  needed := by simp
  kept _ := rfl
  flushed h := absurd rfl h

theorem recv_readOffset (c : Conn) : c.recv.stream.readOffset = 0 := by
  unfold Conn.recv
  split <;> rfl

theorem buffered_pos_of_cseFillBuffer {c : Conn} (h : ¬ (cseFillBuffer c).1 < 0) :
    0 < (cseFillBuffer c).2.stream.buffered := by
  by_cases hclosed : c.stream.socket < 0
  · simp [cseFillBuffer, hclosed] at h
  · by_cases hflush : (cseFlush c).1 < 0
    · simp [cseFillBuffer, hclosed, hflush] at h
    · by_cases hlen : (cseFlush c).2.recv.stream.readLength ≤ 0
      · simp [cseFillBuffer, hclosed, hflush, hlen] at h
      · simp only [cseFillBuffer, hclosed, hflush, hlen, if_false, Stream.buffered,
          recv_readOffset]
        omega

theorem buffered_pos_of_fillIfEmpty {c : Conn} (h : ¬ (fillIfEmpty c).1 < 0) :
    0 < (fillIfEmpty c).2.stream.buffered := by
  unfold fillIfEmpty at h ⊢
  split at h
  · next hempty =>
      rw [if_pos hempty]
      exact buffered_pos_of_cseFillBuffer h
  · next hfull =>
      rw [if_neg hfull]
      simp only [Stream.buffered]
      omega

theorem filled_unread (c : Conn) (m : Chunk) (recvs : List RecvResult) :
    (c.filled m recvs).stream.unread = m.bytes := by
  simp [Conn.filled, Stream.unread, Stream.buffered]

theorem filled_live {c : Conn} (h : c.Live) (m : Chunk) (recvs : List RecvResult) :
    (c.filled m recvs).Live :=
  ⟨⟨h.socket, h.toSends.drained.all⟩, Int.le_refl _⟩

/-- Reading from a buffer that had to be filled first. -/
theorem reads_filled {c : Conn} (h : c.Live) {m : Chunk} {recvs : List RecvResult}
    (hempty : c.stream.unread = []) (hrecvs : c.os.recvs = .data m :: recvs) {n : ℕ}
    (hpos : 0 < n) (hn : n ≤ (c.filled m recvs).stream.buffered) :
    Reads [m] (m.bytes.take n) c ((c.filled m recvs).advance n) := by
  have hadvance := reads_advance (filled_live h m recvs) hn
  have hbytes := hadvance.bytes
  rw [filled_unread, bytesOf_nil, List.append_nil] at hbytes
  exact {
    live := hadvance.live
    socket := rfl
    recvs := hrecvs
    bytes := by
      rw [hempty, ← hbytes]
      simp
    needed := by
      intro ms' m' hm
      obtain rfl : m = m' := by simpa using congrArg List.getLast? hm
      have hlen := congrArg List.length hbytes
      rw [← (filled_live h m recvs).length_unread, filled_unread] at hn
      rw [List.length_append, List.length_take] at hlen
      omega
    kept := by simp
    flushed := fun _ => rfl }

theorem arriving_eq_cons {recvs : List RecvResult} {m : Chunk} {ms : List Chunk}
    (h : arriving recvs = m :: ms) : ∃ recvs', recvs = .data m :: recvs' := by
  cases recvs with
  | nil => cases h
  | cons result recvs =>
      cases result with
      | data m' =>
          cases h
          exact ⟨recvs, rfl⟩
      | closed => cases h
      | failed => cases h

/-- The test that opens every reader leaves unread bytes in the buffer, or there are
none to come and the socket is closed. -/
theorem fillIfEmpty_spec {c : Conn} (h : c.Live) :
    (¬ (fillIfEmpty c).1 < 0 ∧ (fillIfEmpty c).2.Live ∧
        ∀ n, 0 < n → n ≤ (fillIfEmpty c).2.stream.buffered →
          ∃ ms, Reads ms ((fillIfEmpty c).2.stream.unread.take n) c
            ((fillIfEmpty c).2.advance n)) ∨
      (fillIfEmpty c).1 < 0 ∧ (fillIfEmpty c).2.stream.socket < 0 ∧ c.pending = [] := by
  unfold fillIfEmpty
  by_cases hempty : c.stream.readLength ≤ c.stream.readOffset
  · have hunread := unread_of_used hempty
    rw [if_pos hempty]
    cases hrecvs : arriving c.os.recvs with
    | nil =>
        right
        obtain ⟨hfst, hsocket⟩ := cseFillBuffer_of_end h.toSends hrecvs
        refine ⟨by omega, by omega, ?_⟩
        rw [Conn.pending, hrecvs, hunread]
        rfl
    | cons m ms =>
        left
        obtain ⟨recvs, hdata⟩ := arriving_eq_cons hrecvs
        rw [cseFillBuffer_of_data h.toSends hdata]
        refine ⟨by simp, filled_live h m recvs, ?_⟩
        intro n hpos hn
        rw [filled_unread]
        exact ⟨[m], reads_filled h hunread hdata hpos hn⟩
  · left
    rw [if_neg hempty]
    refine ⟨by simp, h, ?_⟩
    intro n _ hn
    exact ⟨[], reads_advance h hn⟩

/-! ## The readers -/

/-- What a reader leaves of a connection: it has read up to where `rest` begins, or
it met the end of what there was to read and the socket is closed. -/
inductive Leaves (rest : List Byte) (c c' : Conn) : Prop
  | reading {ms : List Chunk} {bs : List Byte} (reads : Reads ms bs c c')
      (pending : c'.pending = rest)
  | closed (socket : c'.stream.socket < 0) (rest : rest = [])

theorem Leaves.of_reads {ms : List Chunk} {bs rest : List Byte} {c c' c'' : Conn}
    (h : Reads ms bs c c') (h' : Leaves rest c' c'') : Leaves rest c c'' := by
  cases h' with
  | reading reads pending => exact .reading (h.trans reads) pending
  | closed socket rest => exact .closed socket rest

theorem Leaves.trans {rest rest' : List Byte} {c c' c'' : Conn} (h : Leaves rest c c')
    (hlive : c'.Live → c'.pending = rest → Leaves rest' c' c'')
    (hclosed : c'.stream.socket < 0 → c''.stream.socket < 0) (hnil : rest = [] → rest' = []) :
    Leaves rest' c c'' := by
  cases h with
  | reading reads pending => exact .of_reads reads (hlive reads.live pending)
  | closed socket rest => exact .closed (hclosed socket) (hnil rest)

theorem fillIfEmpty_closed {c : Conn} (h : c.stream.socket < 0) : (fillIfEmpty c).2 = c := by
  unfold fillIfEmpty
  split
  · rw [cseFillBuffer, if_pos h]
  · rfl

theorem cseReadByte_closed {c : Conn} (h : c.stream.socket < 0) :
    (cseReadByte c).2.stream.socket < 0 := by
  simp only [cseReadByte, fillIfEmpty_closed h]
  split <;> exact h

theorem readLoop_closed (fuel len : ℕ) {c : Conn} (h : c.stream.socket < 0) :
    (readLoop fuel len c).2.2.stream.socket < 0 := by
  induction fuel generalizing len c with
  | zero => exact h
  | succ fuel ih =>
      unfold readLoop
      split
      · exact h
      · simp only [fillIfEmpty_closed h]
        split
        · exact h
        · exact ih _ h

/-- `cse_read_byte` takes the first byte that is pending. -/
theorem cseReadByte_spec {c : Conn} (h : c.Live) :
    (∃ b rest, c.pending = b :: rest ∧ (cseReadByte c).1 = b.toNat ∧
        (∃ ms, Reads ms [b] c (cseReadByte c).2) ∧ (cseReadByte c).2.pending = rest) ∨
      c.pending = [] ∧ (cseReadByte c).1 = -1 ∧ (cseReadByte c).2.stream.socket < 0 := by
  rcases fillIfEmpty_spec h with ⟨hfst, hlive, hreads⟩ | ⟨hfst, hsocket, hpending⟩
  · left
    have hpos := buffered_pos_of_fillIfEmpty hfst
    obtain ⟨ms, hms⟩ := hreads 1 (by omega) hpos
    simp only [cseReadByte, if_neg hfst]
    generalize hc : (fillIfEmpty c).2 = c' at *
    have hlen := hlive.length_unread
    have hdrop : 0 < (c'.stream.readBuf.drop c'.stream.readOffset).length := by
      rw [Stream.unread, List.length_take] at hlen
      omega
    have hhead : c'.stream.unread.take 1 =
        [c'.stream.readBuf.getD c'.stream.readOffset 0] := by
      rw [List.length_drop] at hdrop
      rw [Stream.unread, List.take_take, Nat.min_eq_left hpos,
        List.drop_eq_getElem_cons (by omega), List.take_succ_cons, List.take_zero,
        List.getD_eq_getElem?_getD, List.getElem?_eq_getElem (by omega), Option.getD_some]
    rw [hhead] at hms
    exact ⟨_, _, hms.pending, rfl, ⟨ms, hms⟩, rfl⟩
  · right
    simp only [cseReadByte, if_pos hfst]
    exact ⟨hpending, trivial, hsocket⟩

/-- The loop behind `cse_read_all` and `cse_skip` reads the bytes it is asked for. -/
theorem readLoop_leaves {fuel len : ℕ} (hfuel : len ≤ fuel) {c : Conn} (h : c.Live) :
    Leaves (c.pending.drop len) c (readLoop fuel len c).2.2 := by
  induction fuel generalizing len c with
  | zero =>
      obtain rfl : len = 0 := by omega
      exact .reading (Reads.refl h) rfl
  | succ fuel ih =>
      unfold readLoop
      by_cases hlen : len = 0
      · subst hlen
        exact .reading (Reads.refl h) rfl
      · rw [if_neg hlen]
        rcases fillIfEmpty_spec h with ⟨hfst, hlive, hreads⟩ | ⟨hfst, hsocket, hpending⟩
        · have hpos := buffered_pos_of_fillIfEmpty hfst
          simp only [if_neg hfst]
          generalize hc : (fillIfEmpty c).2 = c' at *
          obtain ⟨ms, hms⟩ := hreads (min len c'.stream.buffered) (by omega) (by omega)
          have hfuel' : len - min len c'.stream.buffered ≤ fuel := by omega
          have hrest := ih hfuel' hms.live
          refine .of_reads hms ?_
          have htake : (c'.stream.unread.take (min len c'.stream.buffered)).length =
              min len c'.stream.buffered := by
            rw [List.length_take, hlive.length_unread]
            omega
          have hdrop : (c'.advance (min len c'.stream.buffered)).pending.drop
              (len - min len c'.stream.buffered) = c.pending.drop len := by
            have hnil : (c'.stream.unread.take (min len c'.stream.buffered)).drop len = [] :=
              List.drop_eq_nil_of_le (by omega)
            rw [hms.pending, List.drop_append, hnil, htake, List.nil_append]
          rw [← hdrop]
          exact hrest
        · simp only [if_pos hfst]
          exact .closed hsocket (by rw [hpending, List.drop_nil])

theorem cseReadAll_leaves (len : ℕ) {c : Conn} (h : c.Live) :
    Leaves (c.pending.drop len) c (cseReadAll c len).2.2 :=
  readLoop_leaves (Nat.le_refl len) h

/-- However little of it reaches the array, `cse_read_limit` reads the whole string. -/
theorem cseReadLimit_leaves (buf : Mem) (buflen readlen : ℕ) {c : Conn} (h : c.Live) :
    Leaves (c.pending.drop readlen) c (cseReadLimit c buf buflen readlen).2.2 := by
  unfold cseReadLimit
  by_cases hfit : buflen > readlen
  · rw [if_pos hfit]
    exact cseReadAll_leaves readlen h
  · rw [if_neg hfit]
    refine (cseReadAll_leaves buflen h).trans ?_ ?_ ?_
    · intro hlive hpending
      have hskip := readLoop_leaves (Nat.le_refl (readlen - buflen)) hlive
      rw [hpending, List.drop_drop, Nat.add_sub_cancel' (Nat.not_lt.mp hfit)] at hskip
      exact hskip
    · exact readLoop_closed _ _
    · intro hnil
      rw [List.drop_eq_nil_iff] at hnil ⊢
      omega

/-! ## Packet headers -/

/-- The four calls of `cse_read_byte` that read a packet header. -/
def readHeader (c : Conn) : ℤ × ℤ × ℤ × ℤ × Conn :=
  let (code, c) := cseReadByte c
  let (l1, c) := cseReadByte c
  let (l2, c) := cseReadByte c
  let (l3, c) := cseReadByte c
  (code, l1, l2, l3, c)

theorem readHeader_closed {c : Conn} (h : c.stream.socket < 0) :
    (readHeader c).2.2.2.2.stream.socket < 0 :=
  cseReadByte_closed (cseReadByte_closed (cseReadByte_closed (cseReadByte_closed h)))

/-- The four bytes of a header are read, or there are not four bytes to come. -/
theorem readHeader_spec {c : Conn} (h : c.Live) :
    (∃ (code b₁ b₂ b₃ : Byte) (rest : List Byte) (ms : List Chunk) (c' : Conn),
        c.pending = code :: b₁ :: b₂ :: b₃ :: rest ∧
        readHeader c = ((code.toNat : ℤ), (b₁.toNat : ℤ), (b₂.toNat : ℤ), (b₃.toNat : ℤ), c') ∧
        Reads ms [code, b₁, b₂, b₃] c c' ∧ c'.pending = rest) ∨
      c.pending.length < 4 ∧ (readHeader c).2.2.2.2.stream.socket < 0 := by
  rcases cseReadByte_spec h with ⟨code, r₀, hp₀, hv₀, ⟨ms₀, hr₀⟩, hq₀⟩ | ⟨hp, -, hclosed⟩
  · rcases cseReadByte_spec hr₀.live with
      ⟨b₁, r₁, hp₁, hv₁, ⟨ms₁, hr₁⟩, hq₁⟩ | ⟨hp, -, hclosed⟩
    · rcases cseReadByte_spec hr₁.live with
        ⟨b₂, r₂, hp₂, hv₂, ⟨ms₂, hr₂⟩, hq₂⟩ | ⟨hp, -, hclosed⟩
      · rcases cseReadByte_spec hr₂.live with
          ⟨b₃, r₃, hp₃, hv₃, ⟨ms₃, hr₃⟩, hq₃⟩ | ⟨hp, -, hclosed⟩
        · left
          refine ⟨code, b₁, b₂, b₃, r₃, _, _, ?_, ?_, ((hr₀.trans hr₁).trans hr₂).trans hr₃, hq₃⟩
          · rw [hp₀, ← hq₀, hp₁, ← hq₁, hp₂, ← hq₂, hp₃]
          · simp only [readHeader, hv₀, hv₁, hv₂, hv₃]
        · right
          exact ⟨by rw [hp₀, ← hq₀, hp₁, ← hq₁, hp₂, ← hq₂, hp]; simp, hclosed⟩
      · right
        refine ⟨by rw [hp₀, ← hq₀, hp₁, ← hq₁, hp]; simp, cseReadByte_closed hclosed⟩
    · right
      refine ⟨by rw [hp₀, ← hq₀, hp]; simp, cseReadByte_closed (cseReadByte_closed hclosed)⟩
  · right
    exact ⟨by rw [hp]; simp,
      cseReadByte_closed (cseReadByte_closed (cseReadByte_closed hclosed))⟩

theorem low8_toNat (b : Byte) : low8 (b.toNat : ℤ) = b.toNat := by
  have := b.toNat_lt
  unfold low8
  omega

/-- The bytes behind a packet that is read as a string. -/
def behindString : List Byte → List Byte
  | _ :: b₁ :: b₂ :: b₃ :: rest => rest.drop (ofBe24 b₁ b₂ b₃)
  | _ => []

theorem behindString_of_short {bs : List Byte} (h : bs.length < 4) : behindString bs = [] := by
  match bs, h with
  | [], _ => rfl
  | [_], _ => rfl
  | [_, _], _ => rfl
  | [_, _, _], _ => rfl

theorem cseReadString_eq (c : Conn) (buf : Mem) (length : ℕ) :
    cseReadString c buf length =
      let (_, l1, l2, l3, c) := readHeader c
      let readLength := low8 l1 * 65536 + low8 l2 * 256 + low8 l3
      if c.stream.socket < 0 ∨ l3 < 0 then (-1, buf, c)
      else cseReadLimit c buf (length - 1) readLength := rfl

/-- `cse_read_string` reads one whole packet, whatever its code and length. -/
theorem cseReadString_leaves (buf : Mem) (length : ℕ) {c : Conn} (h : c.Live) :
    Leaves (behindString c.pending) c (cseReadString c buf length).2.2 := by
  rw [cseReadString_eq]
  rcases readHeader_spec h with
    ⟨code, b₁, b₂, b₃, rest, ms, c', hpending, hheader, hreads, hrest⟩ | ⟨hshort, hclosed⟩
  · have hopen : ¬ (c'.stream.socket < 0 ∨ (b₃.toNat : ℤ) < 0) := by
      have := hreads.live.socket
      omega
    have hlimit := cseReadLimit_leaves buf (length - 1) (ofBe24 b₁ b₂ b₃) hreads.live
    rw [hrest] at hlimit
    simp only [hheader, if_neg hopen, low8_toNat, hpending]
    exact .of_reads hreads hlimit
  · simp only [hclosed, true_or, if_true]
    exact .closed hclosed (behindString_of_short hshort)

theorem cseReadString_closed (buf : Mem) (length : ℕ) {c : Conn} (h : c.stream.socket < 0) :
    (cseReadString c buf length).2.2.stream.socket < 0 := by
  rw [cseReadString_eq]
  simp only [readHeader_closed h, true_or, if_true]

/-! ## Readers use up what they read -/

theorem cseFlush_recvs (c : Conn) :
    (cseFlush c).2.stream.buffered = c.stream.buffered ∧
      (cseFlush c).2.os.recvs = c.os.recvs := by
  have hsend : (c.send c.stream.writeBuf).2.os.recvs = c.os.recvs := by
    simp only [Conn.send, Os.send]
    split
    · rfl
    · split <;> rfl
  unfold cseFlush
  split
  · simp only
    split
    · exact ⟨rfl, hsend⟩
    · exact ⟨rfl, hsend⟩
  · exact ⟨rfl, rfl⟩

theorem recv_remaining (c : Conn) :
    c.recv.remaining ≤ (c.os.recvs.map RecvResult.size).sum := by
  unfold Conn.recv
  split
  · next hrecvs =>
      simp [Conn.remaining, Stream.buffered, hrecvs, RecvResult.size]
  · next hrecvs => simp [Conn.remaining, Stream.buffered, hrecvs]
  · next hrecvs => simp [Conn.remaining, Stream.buffered, hrecvs]
  · simp [Conn.remaining, Stream.buffered]

theorem cseFillBuffer_remaining (c : Conn) : (cseFillBuffer c).2.remaining ≤ c.remaining := by
  obtain ⟨hbuffered, hrecvs⟩ := cseFlush_recvs c
  have hflush : (cseFlush c).2.remaining = c.remaining := by
    rw [Conn.remaining, hbuffered, hrecvs, Conn.remaining]
  have hrecv := recv_remaining (cseFlush c).2
  rw [hrecvs] at hrecv
  have hle : (cseFlush c).2.recv.remaining ≤ c.remaining := by
    unfold Conn.remaining at hrecv ⊢
    omega
  unfold cseFillBuffer
  split
  · exact Nat.le_refl _
  · simp only
    split
    · exact Nat.le_of_eq hflush
    · split
      · exact hle
      · exact hle

theorem fillIfEmpty_remaining (c : Conn) : (fillIfEmpty c).2.remaining ≤ c.remaining := by
  unfold fillIfEmpty
  split
  · exact cseFillBuffer_remaining c
  · exact Nat.le_refl _

theorem advance_remaining {c : Conn} {n : ℕ} (h : n ≤ c.stream.buffered) :
    (c.advance n).remaining + n = c.remaining := by
  simp only [Conn.remaining, Conn.advance, Stream.buffered] at h ⊢
  omega

/-- A byte that is read is used up. -/
theorem cseReadByte_remaining (c : Conn) :
    (cseReadByte c).2.remaining ≤ c.remaining ∧
      (0 ≤ (cseReadByte c).1 → (cseReadByte c).2.remaining < c.remaining) := by
  have hfill := fillIfEmpty_remaining c
  unfold cseReadByte
  by_cases hfst : (fillIfEmpty c).1 < 0
  · simp only [if_pos hfst]
    exact ⟨hfill, fun h => absurd h (by decide)⟩
  · have hpos := buffered_pos_of_fillIfEmpty hfst
    have hadvance : ((fillIfEmpty c).2.advance 1).remaining + 1 = (fillIfEmpty c).2.remaining :=
      advance_remaining hpos
    simp only [if_neg hfst]
    change ((fillIfEmpty c).2.advance 1).remaining ≤ _ ∧
      (_ → ((fillIfEmpty c).2.advance 1).remaining < _)
    exact ⟨by omega, fun _ => by omega⟩

theorem readLoop_remaining (fuel len : ℕ) (c : Conn) :
    (readLoop fuel len c).2.2.remaining ≤ c.remaining := by
  induction fuel generalizing len c with
  | zero => exact Nat.le_refl _
  | succ fuel ih =>
      have hfill := fillIfEmpty_remaining c
      unfold readLoop
      split
      · exact Nat.le_refl _
      · simp only
        split
        · exact hfill
        · have hmin : min len (fillIfEmpty c).2.stream.buffered ≤
              (fillIfEmpty c).2.stream.buffered := Nat.min_le_right _ _
          have hadvance := advance_remaining hmin
          have hrest := ih (len - min len (fillIfEmpty c).2.stream.buffered)
            ((fillIfEmpty c).2.advance (min len (fillIfEmpty c).2.stream.buffered))
          exact Nat.le_trans hrest (by omega)

theorem cseReadAll_remaining (c : Conn) (len : ℕ) :
    (cseReadAll c len).2.2.remaining ≤ c.remaining := readLoop_remaining len len c

theorem cseReadLimit_remaining (c : Conn) (buf : Mem) (buflen readlen : ℕ) :
    (cseReadLimit c buf buflen readlen).2.2.remaining ≤ c.remaining := by
  unfold cseReadLimit
  split
  · exact cseReadAll_remaining c readlen
  · exact Nat.le_trans (readLoop_remaining _ _ _) (cseReadAll_remaining c buflen)

theorem readHeader_remaining (c : Conn) :
    (readHeader c).2.2.2.2.remaining ≤ c.remaining ∧
      (0 ≤ (readHeader c).1 → (readHeader c).2.2.2.2.remaining < c.remaining) := by
  obtain ⟨h₀, hlt⟩ := cseReadByte_remaining c
  have h₁ := (cseReadByte_remaining (cseReadByte c).2).1
  have h₂ := (cseReadByte_remaining (cseReadByte (cseReadByte c).2).2).1
  have h₃ := (cseReadByte_remaining (cseReadByte (cseReadByte (cseReadByte c).2).2).2).1
  have hle := Nat.le_trans h₃ (Nat.le_trans h₂ h₁)
  simp only [readHeader]
  exact ⟨Nat.le_trans hle h₀, fun h => Nat.lt_of_le_of_lt hle (hlt h)⟩

theorem cseReadString_remaining (c : Conn) (buf : Mem) (length : ℕ) :
    (cseReadString c buf length).2.2.remaining ≤ c.remaining := by
  have hheader := (readHeader_remaining c).1
  rw [cseReadString_eq]
  simp only
  split
  · exact hheader
  · exact Nat.le_trans (cseReadLimit_remaining _ _ _ _) hheader

end ModCaucho
