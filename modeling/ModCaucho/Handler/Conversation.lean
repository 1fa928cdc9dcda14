import ModCaucho.Handler.Flow
import ModCaucho.Handler.Head
import ModCaucho.Handler.Message
import ModCaucho.Stream.Partial

/-!
# A request as a conversation

`converse` is `write_request` without streams: the plugin says packets, and hears the
bytes of the runner one answer at a time. `write_request` on a stream does what `converse`
does with the bytes that are still to come, however they are cut into chunks and whether
the connection is a fresh one or not. So what holds of a conversation holds on the wire: a
runner that answers in parts gets the whole request, and the browser gets all that the
runner means.
-/

namespace ModCaucho

open Framing

/-! ## Conversations -/

/-- How far a conversation has come: the packets that were said, what was done to the reply,
whether the runner has asked to keep the connection, and the bytes that are left of it, if
the connection is not lost. -/
structure Talk where
  said : List Frame
  ops : List ReplyOp
  keepalive : Bool
  rest : Option (List Byte)

/-- The plugin says a packet. -/
def Talk.say (t : Talk) (code : Byte) (payload : List Byte) : Talk :=
  { t with said := t.said ++ [⟨code, payload⟩] }

/-- The plugin hears an answer, and gets the code that it ends with. -/
def Talk.hear (ack : Byte) (m : Locals) (t : Talk) : ℤ × Talk :=
  match t.rest with
  | none => (-1, t)
  | some bs =>
      let o := relay ack bs.length m bs
      (o.code,
        { t with ops := t.ops ++ o.ops, keepalive := t.keepalive || o.keepalive, rest := o.rest })

/-- The body: an answer is heard between each two blocks. -/
def Talk.sayBody : (ℕ → Locals) → Bool → List Chunk → Talk → Talk
  | _, _, [], t => t
  | junk, isFirst, block :: blocks, t =>
      if isFirst then sayBody junk false blocks (t.say cseData block.bytes)
      else
        let (code, t) := t.hear cseAck (junk 0)
        if code < 0 ∨ code = cseEnd.toNat ∨ code = cseCloseCode.toNat then t
        else sayBody (fun k => junk (k + 1)) false blocks (t.say cseData block.bytes)

/-- The whole request. The result says whether the connection may be used again. -/
def converse (junk : ℕ → Locals) (session : ℕ) (r : Request) (t : Talk) : Bool × Talk :=
  let t := { t with said := t.said ++ headFrames session r }
  let t := t.sayBody (fun k => junk (k + 1)) true r.body
  let (code, t) := (t.say cseEnd []).hear cseEnd (junk 0)
  (decide (code = cseEnd.toNat), t)

/-! ## What an exchange writes -/

/-- The packet that was written, if one was. -/
def Exchanged.frame? : Exchanged → Option Frame
  | .wrote code payload => some ⟨code, payload⟩
  | .heard _ => none

theorem flatMap_logBufs (log : List Exchanged) :
    (logBufs log).flatMap fits = sentPackets (log.filterMap Exchanged.frame?) := by
  induction log with
  | nil => rfl
  | cons e log ih =>
      cases e with
      | wrote code payload =>
          have hshort : (header code payload.length).length ≤ bufLength := by simp [bufLength]
          have hfits := fits_eq_self hshort
          change (packetBufs code payload ++ logBufs log).flatMap fits = _
          rw [List.flatMap_append, ih, packetBufs, List.flatMap_cons, List.flatMap_singleton,
            hfits]
          rfl
      | heard code => exact ih

/-- What an exchange writes that leaves the stream open. -/
theorem Exchanges.written {log : List Exchanged} {x y : Relay} (h : Exchanges log x y)
    (hsends : x.conn.Sends) (hopen : 0 ≤ y.conn.stream.socket) :
    y.conn.written = x.conn.written ++ sentPackets (log.filterMap Exchanged.frame?) := by
  rw [← flatMap_logBufs]
  exact h.performs.written hsends hopen

theorem frame?_wrote (code : Byte) (payload : List Byte) (log : List Exchanged) :
    (.wrote code payload :: log).filterMap Exchanged.frame? =
      ⟨code, payload⟩ :: log.filterMap Exchanged.frame? := rfl

theorem frame?_heard (codes : List ℤ) :
    (codes.map Exchanged.heard).filterMap Exchanged.frame? = [] := by
  rw [List.filterMap_map]
  exact List.filterMap_eq_nil_iff.mpr fun _ _ => rfl

/-- What was written to a stream that `send_data` leaves open was written before. -/
theorem sendData_written (ack : Byte) (m : Locals) {x : Relay} (h : x.conn.Sends)
    (hopen : 0 ≤ (sendData ack m x).2.conn.stream.socket) :
    (sendData ack m x).2.conn.written = x.conn.written := by
  have hwritten := (exchanges_sendData ack m x).written h hopen
  rw [heardSince, frame?_heard] at hwritten
  exact hwritten.trans (List.append_nil _)

/-! ## The refinement -/

/-- The exchange on the stream has come as far as the conversation. A browser that fails is
left out, and so are the bytes that were written to a connection that was lost. -/
structure Relay.Follows (before : List Byte) (x : Relay) (t : Talk) : Prop where
  events : x.reply.events = t.ops
  writes : x.reply.writes = []
  keepalive : x.keepalive = t.keepalive
  stream :
    match t.rest with
    | some bs =>
        x.conn.Live ∧ x.conn.pending = bs ∧ x.conn.written = before ++ sentPackets t.said
    | none => x.conn.stream.socket < 0

section

variable {before : List Byte} {x : Relay} {t : Talk}

theorem sentPackets_append (fs gs : List Frame) :
    sentPackets (fs ++ gs) = sentPackets fs ++ sentPackets gs := List.flatMap_append

/-- Packets are said by writing them. -/
theorem Relay.Follows.utters (h : x.Follows before t) {c : Conn} (fs : List Frame)
    (hc : c = writePackets x.conn fs) (hwrites : Writes x.conn c) :
    ({ x with conn := c } : Relay).Follows before { t with said := t.said ++ fs } where
  events := h.events
  writes := h.writes
  keepalive := h.keepalive
  stream := by
    have hstream := h.stream
    cases hrest : t.rest with
    | none =>
        rw [hrest] at hstream
        exact hwrites.closed hstream
    | some bs =>
        rw [hrest] at hstream
        obtain ⟨hlive, hpending, hwritten⟩ := hstream
        obtain ⟨-, -, hall⟩ := writePackets_spec hlive.toSends fs
        refine ⟨(hwrites.live hlive).1, hwrites.pending.trans hpending, ?_⟩
        change c.written = before ++ sentPackets (t.said ++ fs)
        rw [hc, hall, hwritten, sentPackets_append, List.append_assoc]

theorem Relay.Follows.say (h : x.Follows before t) (code : Byte) (payload : List Byte) :
    (x.writePacket code payload).Follows before (t.say code payload) :=
  h.utters [⟨code, payload⟩] rfl (writes_cseWritePacket x.conn code payload)

theorem Relay.Follows.writeHead (h : x.Follows before t) (session : ℕ) (r : Request) :
    (x.writeHead session r).Follows before { t with said := t.said ++ headFrames session r } :=
  h.utters (headFrames session r) (writeHead_frames x session r) (writes_writeHead x session r)

/-- An answer is heard by `send_data`. -/
theorem Relay.Follows.hear (h : x.Follows before t) (ack : Byte) (hack : ack ≠ cseData)
    (m : Locals) :
    (sendData ack m x).1 = (t.hear ack m).1 ∧
      (sendData ack m x).2.Follows before (t.hear ack m).2 := by
  obtain ⟨hevents, hwrites, hkeepalive, hstream⟩ := h
  unfold Talk.hear
  cases hrest : t.rest with
  | none =>
      rw [hrest] at hstream
      obtain ⟨hcode, -, hclosed⟩ := sendData_closed ack m hstream
      obtain ⟨hreply, hkeep⟩ := sendDataLoop_lost ack x.conn.remaining m hstream
      refine ⟨hcode, ?_, ?_, hkeep.trans hkeepalive, ?_⟩
      · rw [sendData, hreply]
        exact hevents
      · rw [sendData, hreply]
        exact hwrites
      · rw [hrest]
        exact hclosed
  | some bs =>
      rw [hrest] at hstream
      obtain ⟨hlive, rfl, hwritten⟩ := hstream
      have hdoes := @sendData_relay ack m x hlive hwrites
      have hafter := hdoes.stream hack hlive
      refine ⟨hdoes.code, ?_, hdoes.writes, ?_, ?_⟩
      · rw [hdoes.events, hevents]
      · rw [hdoes.keepalive, hkeepalive]
      · simp only
        generalize relay ack x.conn.pending.length m x.conn.pending = o at hafter
        cases hleft : o.rest with
        | none =>
            rw [hleft] at hafter
            exact hafter
        | some rest =>
            rw [hleft] at hafter
            obtain ⟨hlive', hpending⟩ := hafter
            exact ⟨hlive', hpending,
              (sendData_written ack m hlive.toSends hlive'.socket).trans hwritten⟩

theorem Relay.Follows.sayBody (h : x.Follows before t) (junk : ℕ → Locals) (isFirst : Bool)
    (blocks : List Chunk) :
    (sendBody junk isFirst blocks x).Follows before (t.sayBody junk isFirst blocks) := by
  induction blocks generalizing junk isFirst x t with
  | nil =>
      rw [sendBody, Talk.sayBody]
      exact h
  | cons block blocks ih =>
      rw [sendBody, Talk.sayBody]
      cases isFirst with
      | true => exact ih (h.say cseData block.bytes) junk false
      | false =>
          obtain ⟨hcode, hheard⟩ := h.hear cseAck (by decide) (junk 0)
          simp only [Bool.false_eq_true, if_false, hcode]
          split
          · exact hheard
          · exact ih (hheard.say cseData block.bytes) _ false

/-- The whole request goes on as the conversation does. -/
theorem Relay.Follows.writeRequest (h : x.Follows before t) (junk : ℕ → Locals) (session : ℕ)
    (r : Request) :
    (writeRequest junk session r x).1 = (converse junk session r t).1 ∧
      (writeRequest junk session r x).2.Follows before (converse junk session r t).2 := by
  have hbody := (h.writeHead session r).sayBody (fun k => junk (k + 1)) true r.body
  obtain ⟨hcode, hend⟩ := (hbody.say cseEnd []).hear cseEnd (by decide) (junk 0)
  rw [writeRequest_eq, writeBody_eq]
  exact ⟨congrArg (fun code : ℤ => decide (code = cseEnd.toNat)) hcode, hend⟩

end

/-- An exchange on a live stream, as a conversation that is to begin. -/
theorem Relay.follows_self (x : Relay) (h : x.conn.Live) (hwrites : x.reply.writes = []) :
    x.Follows x.conn.written ⟨[], x.reply.events, x.keepalive, some x.conn.pending⟩ :=
  ⟨rfl, hwrites, rfl, h, rfl, (List.append_nil _).symm⟩

/-- `write_request` on a stream does what the conversation does with the bytes that are
still to come, as long as the browser takes what it is given. -/
theorem writeRequest_converses (junk : ℕ → Locals) (session : ℕ) (r : Request) {x : Relay}
    (h : x.conn.Live) (hwrites : x.reply.writes = []) :
    let talk := converse junk session r ⟨[], x.reply.events, x.keepalive, some x.conn.pending⟩
    (writeRequest junk session r x).1 = talk.1 ∧
      (writeRequest junk session r x).2.Follows x.conn.written talk.2 :=
  (x.follows_self h hwrites).writeRequest junk session r

theorem writeRequest_converses_polite :
    let talk := converse zeroed 0 twoBlocks
      ⟨[], (exchangeWith politeChunks).reply.events, (exchangeWith politeChunks).keepalive,
        some (exchangeWith politeChunks).conn.pending⟩
    (writeRequest zeroed 0 twoBlocks (exchangeWith politeChunks)).1 = talk.1 ∧
      (writeRequest zeroed 0 twoBlocks (exchangeWith politeChunks)).2.Follows
        (exchangeWith politeChunks).conn.written talk.2 :=
  writeRequest_converses zeroed 0 twoBlocks (exchangeWith_live politeChunks) rfl

end ModCaucho
