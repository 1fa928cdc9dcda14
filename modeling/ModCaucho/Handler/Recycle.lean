import ModCaucho.Balance.Failover
import ModCaucho.Handler.Exchange

/-!
# Returning a connection to the pool

A connection should go back to the pool with nothing unsent and nothing unread.
What is written is only sent when the read buffer has to be filled. The request
ends with an END packet, so its tail is sent exactly when the answer to it needs
another `recv`: when the server's chunks are cut such that the last wait for an
ACK does not already receive the whole rest of the response.
-/

namespace ModCaucho

open Framing Scan

/-! ## Fresh connections -/

/-- Nothing was read from the connection and nothing is in its buffers. -/
structure Conn.Blank (c : Conn) : Prop where
  readLength : c.stream.readLength = 0
  readOffset : c.stream.readOffset = 0
  writeBuf : c.stream.writeBuf = []
  all : c.os.sends = []

theorem Conn.Blank.unread {c : Conn} (h : c.Blank) : c.stream.unread = [] :=
  unread_of_used (by rw [h.readLength, h.readOffset]; rfl)

theorem drainPool_sends (sockets : List ℕ) {os : Os} (h : os.sends = []) :
    (drainPool sockets os).sends = [] := by
  induction sockets generalizing os with
  | nil => exact h
  | cons socket sockets ih =>
      apply ih
      simp only [Os.close, Os.send]
      split
      · exact h
      · rw [h]

theorem blank_cseReuseSocket (i : ℕ) (t : UInt32) {p : Child} (h : p.conn.Blank) :
    (cseReuseSocket i t p).2.conn.Blank := by
  by_cases hu : (p.config.srun i).Usable t
  · rw [cseReuseSocket_of_usable hu]
    exact ⟨rfl, rfl, rfl, h.all⟩
  · rw [cseReuseSocket_of_not_usable hu]
    simp only
    split
    · exact ⟨h.readLength, h.readOffset, h.writeBuf, h.all⟩
    · exact ⟨h.readLength, h.readOffset, h.writeBuf, drainPool_sends _ h.all⟩

theorem blank_cseOpen (dial : Dial) (i : ℕ) (wait : Bool) {p : Child} (h : p.conn.Blank) :
    (cseOpen dial i wait p).2.conn.Blank := by
  rw [cseOpen_eq]
  exact ⟨rfl, rfl, rfl, (connectSocket_sends _ _).trans h.all⟩

/-- Choosing an srun writes nothing to the stream and reads nothing from it. -/
theorem blank_passes (dial : Dial) (sessionIndex : ℤ) (t : UInt32) (order : List ℕ) {p : Child}
    (h : p.conn.Blank) : (passes dial sessionIndex t order p).2.conn.Blank :=
  passes_induction (P := fun q : Child => q.conn.Blank)
    (fun i _ hq => blank_cseReuseSocket i t hq)
    (fun i wait _ hq => blank_cseOpen dial i wait hq)
    (fun _ _ hq => ⟨hq.readLength, hq.readOffset, hq.writeBuf, hq.all⟩)
    (fun _ _ hq => ⟨hq.readLength, hq.readOffset, hq.writeBuf, hq.all⟩) h

/-- The stream that `cse_open_connection` gives to a request is live and blank, as long
as the sends succeed. -/
theorem cseOpenConnection_live (dial : Dial) (sessionIndex : ℤ) (ip : List Byte) (t : UInt32)
    (rand : Int32) {p : Child} (hfits : ProbeFits p.config.probeSize) (hall : p.os.sends = [])
    (hok : (cseOpenConnection dial sessionIndex ip t rand p).1 = true) :
    (cseOpenConnection dial sessionIndex ip t rand p).2.conn.Live ∧
      (cseOpenConnection dial sessionIndex ip t rand p).2.conn.Blank := by
  unfold cseOpenConnection at hok ⊢
  generalize hq : ({ p with stream := p.stream.clear none } : Child) = q at hok ⊢
  have hconfig : q.config = p.config := by rw [← hq]
  have hblank : q.conn.Blank := by
    rw [← hq]
    exact ⟨rfl, rfl, rfl, hall⟩
  obtain ⟨q', -, hconn, -, hcall⟩ := openConnection_eq dial sessionIndex ip t rand q
  have hblank' : (openConnection dial sessionIndex ip t rand q).2.conn.Blank := by
    rw [hcall]
    exact blank_passes dial sessionIndex t _ (hconn ▸ hblank)
  have hnodup := @nodup_callOrder sessionIndex ip t rand q (hconfig ▸ hfits)
  rw [hcall] at hok
  obtain ⟨i, -, hserves⟩ := passes_serves hnodup hok
  rw [← hcall] at hserves
  refine ⟨⟨⟨hserves.socket, hblank'.all⟩, ?_⟩, hblank'⟩
  rw [hblank'.readLength]
  exact Int.natCast_nonneg _

/-! ## Counting receives -/

/-- The number of chunks that have to be received for `n` bytes. -/
def recvsFor : List Chunk → ℕ → ℕ
  | _, 0 => 0
  | [], _ + 1 => 0
  | m :: ms, n + 1 => recvsFor ms (n + 1 - m.bytes.length) + 1

/-- Chunks of which the last one was needed are as many as their bytes need. -/
theorem recvsFor_append {ms : List Chunk} {n u : ℕ} (hsum : (bytesOf ms).length = n + u)
    (hneeded : ∀ ms' m, ms = ms' ++ [m] → u < m.bytes.length) (rest : List Chunk) :
    recvsFor (ms ++ rest) n = ms.length := by
  induction ms generalizing n with
  | nil =>
      obtain rfl : n = 0 := by
        rw [bytesOf_nil, List.length_nil] at hsum
        omega
      simp [recvsFor]
  | cons m ms ih =>
      rw [bytesOf_cons, List.length_append] at hsum
      rcases List.eq_nil_or_concat ms with rfl | ⟨ms', last, rfl⟩
      · have hlast := hneeded [] m rfl
        obtain ⟨n, rfl⟩ : ∃ k, n = k + 1 := ⟨n - 1, by simp at hsum; omega⟩
        have hzero : n + 1 - m.bytes.length = 0 := by simp at hsum; omega
        simp [recvsFor, hzero]
      · have hlast := hneeded (m :: ms') last (by simp)
        have hless : u < (bytesOf (ms'.concat last)).length := by
          simp only [List.concat_eq_append, bytesOf_append, bytesOf_cons, bytesOf_nil,
            List.append_nil, List.length_append]
          omega
        obtain ⟨n, rfl⟩ : ∃ k, n = k + 1 := ⟨n - 1, by omega⟩
        have hrest := @ih (n + 1 - m.bytes.length) (by omega) (by
          intro ms'' m' h
          exact hneeded (m :: ms'') m' (by rw [h]; rfl))
        simp only [List.cons_append, recvsFor, hrest, List.length_cons]

theorem Takes.recvsFor {ms : List Chunk} {bs : List Byte} {c c' : Conn} (h : Takes ms bs c c')
    (hempty : c.stream.unread = []) (rest : List Chunk) :
    recvsFor (ms ++ rest) bs.length = ms.length := by
  have hbytes := congrArg List.length h.bytes
  rw [hempty, List.nil_append, List.length_append] at hbytes
  exact recvsFor_append hbytes h.needed rest

/-! ## `cse_recycle` -/

/-- The child with its stream as a request leaves it. -/
def Child.setConn (p : Child) (c : Conn) : Child := { p with stream := c.stream, os := c.os }

/-- `cse_recycle` puts the socket of the stream on top of the pool of its srun. -/
def Child.Stored (p : Child) : Prop :=
  ∃ i, p.stream.srun = some i ∧
    ((cseRecycle p).config.srun i).sockets =
      p.stream.socket.toNat :: (p.config.srun i).sockets

/-- Everything written was handed to `send`, and everything received was read. -/
def CleanBoundary (s : Stream) : Prop := s.writeLength = 0 ∧ s.readLength ≤ s.readOffset

instance (s : Stream) : Decidable (CleanBoundary s) := inferInstanceAs (Decidable (_ ∧ _))

/-- Only an open socket is stored, and the buffers stay as they are. -/
theorem Child.Stored.stream {p : Child} (h : p.Stored) :
    0 ≤ p.stream.socket ∧ (cseRecycle p).stream = { p.stream with socket := -1 } := by
  obtain ⟨i, hsrun, hsockets⟩ := h
  unfold cseRecycle at hsockets ⊢
  simp only [hsrun] at hsockets ⊢
  by_cases hstore : 0 ≤ p.stream.socket ∧ p.config.updateCount = p.stream.updateCount ∧
      (p.config.srun i).sockets.length < (p.config.srun i).maxSockets
  · have hsome := Option.filter_some_pos (a := i) (p := fun i => decide (0 ≤ p.stream.socket ∧
      p.config.updateCount = p.stream.updateCount ∧
      (p.config.srun i).sockets.length < (p.config.srun i).maxSockets)) (by simpa using hstore)
    rw [hsome]
    exact ⟨hstore.1, rfl⟩
  · exfalso
    have hnone := Option.filter_some_neg (a := i) (p := fun i => decide (0 ≤ p.stream.socket ∧
      p.config.updateCount = p.stream.updateCount ∧
      (p.config.srun i).sockets.length < (p.config.srun i).maxSockets)) (by simpa using hstore)
    rw [hnone] at hsockets
    exact List.cons_ne_self _ _ hsockets.symm

/-! ## The boundary -/

/-- The chunks are cut such that the answer to the request's END packet needs a receive
of its own, and such that the exchange ends where a chunk does. -/
def CutAtEnd (w : ℕ) (ms : List Chunk) : Prop :=
  let bs := bytesOf ms
  let answer := handshake w bs
  let rest := (listen cseEnd answer.length answer).2.2
  recvsFor ms (bs.length - answer.length) < recvsFor ms (bs.length - rest.length) ∧
    (bytesOf (ms.take (recvsFor ms (bs.length - rest.length)))).length =
      bs.length - rest.length

instance (w : ℕ) (ms : List Chunk) : Decidable (CutAtEnd w ms) :=
  inferInstanceAs (Decidable (_ ∧ _))

/-- What `cse_write` was just given is still in the write buffer, if it fits. -/
theorem cseWrite_writeBuf {c : Conn} (h : c.Sends) {buf : List Byte}
    (hbuf : buf.length ≤ bufLength) :
    ∃ front, (cseWrite c buf).stream.writeBuf = front ++ buf ∧
      (cseWrite c buf).stream.writeLength ≤ bufLength := by
  by_cases hfull : c.stream.writeLength + buf.length > bufLength
  · have hlong : ¬ buf.length > bufLength := by omega
    simp only [cseWrite, if_pos hfull, makeRoom_eq h, if_neg hlong]
    rw [if_neg (by omega)]
    exact ⟨[], rfl, hbuf⟩
  · simp only [cseWrite, if_neg hfull]
    refine ⟨c.stream.writeBuf, rfl, ?_⟩
    simp only [Conn.append, Stream.writeLength, List.length_append] at hfull ⊢
    omega

theorem cseWritePacket_writeBuf {c : Conn} (h : c.Sends) (code : Byte) :
    (cseWritePacket c code []).stream.writeBuf ≠ [] := by
  have hheader : (header code 0).length ≤ bufLength := by simp [bufLength]
  obtain ⟨front, hfront, hle⟩ := cseWrite_writeBuf h hheader
  have hsame : (cseWrite (cseWrite c (header code 0)) []).stream.writeBuf =
      (cseWrite c (header code 0)).stream.writeBuf := by
    rw [cseWrite, if_neg (by simpa using hle)]
    simp [Conn.append]
  unfold cseWritePacket
  simp only [packet_header, List.length_nil]
  rw [hsame, hfront]
  simp [header]

theorem unread_eq_nil_iff {c : Conn} (h : c.Live) :
    c.stream.unread = [] ↔ c.stream.readLength ≤ c.stream.readOffset := by
  constructor
  · intro hnil
    have hlen := h.length_unread
    rw [hnil, List.length_nil] at hlen
    unfold Stream.buffered at hlen
    omega
  · exact unread_of_used

/-- What was read after the END packet of the request was written decides: the packet is
sent with the first receive, and the last receive is used up where the chunks end. -/
theorem clean_iff_of_reads {c c' : Conn} {ms : List Chunk} {bs : List Byte} (h : Reads ms bs c c')
    (hwritten : c.stream.writeBuf ≠ []) :
    CleanBoundary c'.stream ↔ ms ≠ [] ∧ c'.stream.unread = [] := by
  rw [CleanBoundary, unread_eq_nil_iff h.live]
  refine and_congr_left' ?_
  unfold Stream.writeLength
  rw [List.length_eq_zero_iff]
  constructor
  · rintro hempty rfl
    rw [h.kept rfl] at hempty
    exact hwritten hempty
  · exact h.flushed

/-- The cut of the chunks, in terms of what was taken off them for the handshake and for
the answer. -/
theorem cutAtEnd_iff {w : ℕ} {c c' c'' : Conn} {ms ms' : List Chunk} {bs bs' : List Byte}
    (hempty : c.stream.unread = []) (h : Takes ms bs c c') (h' : Takes ms' bs' c' c'')
    (hanswer : c'.pending = handshake w c.pending)
    (hrest : c''.pending = (listen cseEnd c'.pending.length c'.pending).2.2) :
    CutAtEnd w (arriving c.os.recvs) ↔ ms' ≠ [] ∧ c''.stream.unread = [] := by
  have htotal := h.trans h'
  have hpending : c.pending = bytesOf (arriving c.os.recvs) := by
    rw [Conn.pending, hempty, List.nil_append]
  have hbs := congrArg List.length h.pending
  have hbs' := congrArg List.length htotal.pending
  rw [List.length_append] at hbs hbs'
  have hfirst := h.recvsFor hempty (ms' ++ arriving c''.os.recvs)
  have hsecond := htotal.recvsFor hempty (arriving c''.os.recvs)
  have harriving : arriving c.os.recvs = ms ++ ms' ++ arriving c''.os.recvs := by
    rw [htotal.recvs, arriving_data_append]
  rw [← List.append_assoc, ← harriving] at hfirst
  rw [← harriving] at hsecond
  have hbytes := congrArg List.length htotal.bytes
  rw [hempty, List.nil_append, List.length_append] at hbytes
  have htake : (arriving c.os.recvs).take (ms ++ ms').length = ms ++ ms' := by
    rw [harriving, List.take_left]
  have hn : c.pending.length - c'.pending.length = bs.length := by omega
  have hn' : c.pending.length - c''.pending.length = (bs ++ bs').length := by omega
  rw [CutAtEnd, ← hpending]
  simp only [← hanswer, ← hrest, hn, hn', hfirst, hsecond, htake, hbytes]
  rw [List.length_append, ← List.length_pos_iff, ← List.length_eq_zero_iff]
  constructor
  · rintro ⟨hless, hall⟩
    exact ⟨by omega, by omega⟩
  · rintro ⟨hless, hall⟩
    exact ⟨by omega, by omega⟩

/-- Storing an open connection leaves its buffers alone. -/
theorem cleanBoundary_recycle {p : Child} {c : Conn} (h : (p.setConn c).Stored) :
    0 ≤ c.stream.socket ∧
      (CleanBoundary (cseRecycle (p.setConn c)).stream ↔ CleanBoundary c.stream) := by
  obtain ⟨hopen, hstream⟩ := h.stream
  rw [hstream]
  exact ⟨hopen, Iff.rfl⟩

/-- A connection goes back to the pool at a message boundary exactly when the server's
chunks are cut at the end of the exchange. -/
theorem cleanBoundary_iff (junk : ℕ → Locals) (session : ℕ) (r : Request) (p : Child)
    {x : Relay} (hconn : x.conn = p.conn) (hlive : p.conn.Live) (hblank : p.conn.Blank)
    (hok : (writeRequest junk session r x).1 = true)
    (hstored : (p.setConn (writeRequest junk session r x).2.conn).Stored) :
    CleanBoundary (cseRecycle (p.setConn (writeRequest junk session r x).2.conn)).stream ↔
      CutAtEnd r.waits (arriving p.os.recvs) := by
  obtain ⟨hopen, hclean⟩ := cleanBoundary_recycle hstored
  rw [hclean]
  have hbody := writeBody_answered junk session r (hconn ▸ hlive)
  rw [writeRequest_eq] at hok hopen ⊢
  generalize writeBody junk session r x = y at hbody hok hopen ⊢
  have hwrites : Writes y.conn (y.writePacket cseEnd []).conn :=
    writes_cseWritePacket y.conn cseEnd []
  -- the connection is never lost on the way, or it could not be stored
  have hopen_of_closed : ¬ y.conn.stream.socket < 0 := by
    intro hclosed
    obtain ⟨-, -, hclosed'⟩ := sendData_closed cseEnd (junk 0)
      (writePacket_closed hclosed cseEnd [])
    exact Int.not_le.mpr hclosed' hopen
  have hleft : Left r.waits x.conn.pending x.conn y.conn := by
    cases hbody with
    | completed heard open_codes enough left => exact left
    | ended heard end_code few left => exact left
    | lost heard open_codes socket => exact absurd socket hopen_of_closed
  obtain ⟨hylive, ⟨ms, cs, htakes⟩, hpending⟩ := hleft.resolve_left hopen_of_closed
  have hzlive := (hwrites.live hylive).1
  have hheard := @sendData_heard cseEnd (by decide) (junk 0) (y.writePacket cseEnd []) hzlive
  generalize hanswer : sendData cseEnd (junk 0) (y.writePacket cseEnd []) = answer
    at hheard hok hopen ⊢
  obtain ⟨result, x'⟩ := answer
  simp only at hheard hok hopen ⊢
  cases hheard with
  | @lost codes failed failed_eq heard codes_go socket => exact absurd hok (by decide)
  | @stopped codes rest k listen heard leaves =>
      cases leaves with
      | closed socket => exact absurd hopen (Int.not_le.mpr socket)
      | @reading ms' cs' reads pending =>
          have hwritten := cseWritePacket_writeBuf hylive.toSends cseEnd
          have htotal := htakes.trans (hwrites.takes hylive)
          have hempty : x.conn.stream.unread = [] := hconn ▸ hblank.unread
          rw [clean_iff_of_reads reads hwritten]
          have hcut := @cutAtEnd_iff r.waits _ _ _ _ _ _ _ hempty htotal reads.toTakes
            (hwrites.pending.trans hpending) (by rw [pending, listen])
          rw [hconn] at hcut
          exact hcut.symm

/-- A child with one runner, connected to it, to which the server sends these chunks. -/
def pooledChild (chunks : List Chunk) : Child where
  config := ⟨[{ runner 0 false false with maxSockets := 4 }], 1, 0,
    by decide, by decide, one_lt_sizes⟩
  stream := (exchangeWith chunks).conn.stream
  os := (exchangeWith chunks).conn.os
  gCount := 0

theorem cleanBoundary_iff_polite :
    CleanBoundary (cseRecycle ((pooledChild politeChunks).setConn
        (writeRequest zeroed 0 twoBlocks (exchangeWith politeChunks)).2.conn)).stream ↔
      CutAtEnd twoBlocks.waits (arriving (pooledChild politeChunks).os.recvs) :=
  cleanBoundary_iff zeroed 0 twoBlocks (pooledChild politeChunks) rfl
    (exchangeWith_live politeChunks) ⟨rfl, rfl, rfl, rfl⟩ (by decide +kernel)
    ⟨0, by decide +kernel, by decide +kernel⟩

/-- The server sends its ACK and its END, which one receive delivers together. -/
def batchedChunks : List Chunk :=
  [⟨[cseAck, 0, 0, 0, cseEnd, 0, 0, 0], by decide, by decide⟩]

/-- The END is read from the buffer that the wait for the ACK has filled, so the second
block and the END of the request stay in the write buffer. -/
theorem not_cleanBoundary_batched :
    ¬ ∀ (junk : ℕ → Locals) (session : ℕ) (r : Request) (p : Child) (x : Relay)
      (qs : List Frame) (last : Frame), x.conn = p.conn → p.conn.Live → p.conn.Blank →
      bytesOf (arriving p.os.recvs) = encodeAll (qs ++ [last]) →
      (∀ q ∈ qs, q.code ≠ cseEnd) → last.code = cseEnd →
      (writeRequest junk session r x).1 = true →
      (p.setConn (writeRequest junk session r x).2.conn).Stored →
      CleanBoundary (cseRecycle (p.setConn (writeRequest junk session r x).2.conn)).stream := by
  intro hclaim
  have hclean := hclaim zeroed 0 twoBlocks (pooledChild batchedChunks)
    (exchangeWith batchedChunks) [⟨cseAck, []⟩] ⟨cseEnd, []⟩ rfl
    (exchangeWith_live batchedChunks) ⟨rfl, rfl, rfl, rfl⟩ (by decide) (by decide) (by decide)
    (by decide +kernel) ⟨0, by decide +kernel, by decide +kernel⟩
  exact absurd hclean (by decide +kernel)

end ModCaucho
