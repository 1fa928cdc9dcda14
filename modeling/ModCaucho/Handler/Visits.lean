import ModCaucho.Handler.Answer
import ModCaucho.Handler.Delivery
import ModCaucho.Handler.Recycle

/-!
# One request after another

Requests that a child handles one after another, each on the connection that
`cse_open_connection` finds for it, be it a pooled one or a fresh one. The runner answers
each of them in parts, and its answer to the END of a request comes in a chunk of its own.
Then every request is a visit of its own: the runner is sent this request and nothing else,
the browser gets the answer to it, and the next visit begins where this one has ended.
-/

namespace ModCaucho

open Framing

/-! ## Chunks that hold an answer -/

/-- Bytes that end where a chunk does are taken off a blank stream with just their chunks. -/
theorem Takes.exact {ms mine : List Chunk} {bs : List Byte} {recvs : List RecvResult}
    {c c' : Conn} (h : Takes ms bs c c') (hempty : c.stream.unread = [])
    (hrecvs : c.os.recvs = mine.map .data ++ recvs) (hmine : bytesOf mine = bs) :
    ms = mine ∧ c'.stream.unread = [] ∧ c'.os.recvs = recvs := by
  have hlen : (bytesOf mine).length = bs.length + 0 := congrArg List.length hmine
  have harriving : ms ++ arriving c'.os.recvs = mine ++ arriving recvs := by
    rw [← arriving_data_append, ← arriving_data_append, ← hrecvs, ← h.recvs]
  have hcount : ms.length = mine.length := by
    rw [← h.recvsFor hempty (arriving c'.os.recvs), harriving]
    exact recvsFor_append hlen (fun _ m _ => m.length_pos) (arriving recvs)
  obtain rfl : ms = mine := (List.append_inj harriving hcount).1
  have hbytes := h.bytes
  rw [hempty, List.nil_append, hmine] at hbytes
  refine ⟨rfl, (List.append_cancel_left ((List.append_nil bs).trans hbytes)).symm, ?_⟩
  have hscript := h.recvs
  rw [hrecvs] at hscript
  exact (List.append_cancel_left hscript).symm

/-- Where the chunks end with the ACKs and with the answer to the END, a request leaves the
stream with nothing to send and nothing to read, and takes just these chunks. -/
theorem writeRequest_exact (junk : ℕ → Locals) (session : ℕ) {r : Request}
    {answers : List (List Part)} (hcount : answers.length = r.waits) (final : List Part)
    {x : Relay} (h : x.conn.Live) (hempty : x.conn.stream.unread = [])
    (hwrites : x.reply.writes = []) {early late : List Chunk} {recvs : List RecvResult}
    (hrecvs : x.conn.os.recvs = (early ++ late).map .data ++ recvs)
    (hearly : bytesOf early = ackedBytes answers)
    (hlate : bytesOf late = answerBytes final cseEnd) :
    (writeRequest junk session r x).2.conn.stream.writeBuf = [] ∧
      (writeRequest junk session r x).2.conn.stream.unread = [] ∧
      (writeRequest junk session r x).2.conn.os.recvs = recvs := by
  have hpending : x.conn.pending =
      ackedBytes answers ++ (answerBytes final cseEnd ++ bytesOf (arriving recvs)) := by
    rw [Conn.pending, hempty, hrecvs, arriving_data_append, List.nil_append, bytesOf_append,
      bytesOf_append, hearly, hlate, List.append_assoc]
  -- the body takes the chunks with the ACKs
  have hbody := ((x.follows_self h hwrites).writeHead session r).sayBody
    (fun k => junk (k + 1)) true r.body
  rw [sayBody_answered (fun k => junk (k + 1)) (r.waits_eq ▸ hcount)
    (congrArg some hpending), ← writeBody_eq] at hbody
  obtain ⟨-, hyreply, -, hlive, hleft, -⟩ := hbody
  have hanswered := writeBody_answered junk session r h
  rw [writeRequest_eq]
  generalize writeBody junk session r x = y at hyreply hlive hleft hanswered ⊢
  have hopen : ¬ y.conn.stream.socket < 0 := Int.not_lt.mpr hlive.socket
  have htaken : ∃ ms cs, Takes ms cs x.conn y.conn := by
    cases hanswered with
    | completed heard open_codes enough left => exact (left.resolve_left hopen).2.1
    | ended heard end_code few left => exact (left.resolve_left hopen).2.1
    | lost heard open_codes socket => exact absurd socket hopen
  obtain ⟨ms, cs, htakes⟩ := htaken
  have hcs : cs = ackedBytes answers := by
    have hfront := htakes.pending
    rw [hpending, hleft] at hfront
    exact (List.append_cancel_right hfront).symm
  rw [List.map_append, List.append_assoc] at hrecvs
  obtain ⟨-, hyempty, hyrecvs⟩ := htakes.exact hempty hrecvs (hearly.trans hcs.symm)
  -- the END goes out with the first receive behind it
  have hend : Writes y.conn (y.writePacket cseEnd []).conn :=
    writes_cseWritePacket y.conn cseEnd []
  have hbuf := cseWritePacket_writeBuf hlive.toSends cseEnd
  have hzlive := (hend.live hlive).1
  have hzpending : (y.writePacket cseEnd []).conn.pending =
      answerBytes final cseEnd ++ bytesOf (arriving recvs) := hend.pending.trans hleft
  have hlen : final.length < (y.writePacket cseEnd []).conn.pending.length := by
    have := length_answerBytes final cseEnd
    rw [hzpending, List.length_append]
    omega
  have hafter := (@sendData_relay cseEnd (junk 0) (y.writePacket cseEnd []) hzlive hyreply).stream
    (by decide) hzlive
  have hheard := @sendData_heard cseEnd (by decide) (junk 0) (y.writePacket cseEnd []) hzlive
  rw [hzpending, relay_answer (Or.inr rfl) (Or.inr (Or.inl rfl)) (by decide) (junk 0) final
    (hzpending ▸ hlen)] at hafter
  generalize sendData cseEnd (junk 0) (y.writePacket cseEnd []) = answer at hafter hheard ⊢
  obtain ⟨result, x'⟩ := answer
  obtain ⟨hlive', hpending'⟩ := hafter
  have hopen' : ¬ x'.conn.stream.socket < 0 := Int.not_lt.mpr hlive'.socket
  cases hheard with
  | lost failed_eq heard codes_go socket => exact absurd socket hopen'
  | stopped listen heard leaves =>
      cases leaves with
      | closed socket => exact absurd socket hopen'
      | @reading ms' cs' reads pending =>
          have hcs' : cs' = answerBytes final cseEnd := by
            have hfront := reads.pending
            rw [hzpending, hpending'] at hfront
            exact (List.append_cancel_right hfront).symm
          obtain ⟨hms', hunread, hrest⟩ := reads.exact (hend.unread.trans hyempty)
            (hend.recvs.trans hyrecvs) (hlate.trans hcs'.symm)
          have hne : ms' ≠ [] := by
            rintro rfl
            rw [← hms'] at hlate
            have := length_answerBytes final cseEnd
            rw [← hlate] at this
            exact Nat.not_lt_zero _ this
          exact ⟨reads.flushed hne, hunread, hrest⟩

/-! ## Finding a connection -/

/-- Nothing is received, and the table keeps its size. -/
structure Child.Undisturbed (p q : Child) : Prop where
  recvs : q.os.recvs = p.os.recvs
  size : q.config.srunSize = p.config.srunSize

theorem drainPool_recvs (sockets : List ℕ) (os : Os) : (drainPool sockets os).recvs = os.recvs := by
  induction sockets generalizing os with
  | nil => rfl
  | cons socket sockets ih =>
      rw [drainPool, ih]
      simp only [Os.close, Os.send]
      split
      · rfl
      · split <;> rfl

theorem connectSocket_recvs (result : ConnectResult) (os : Os) :
    (connectSocket result os).2.recvs = os.recvs := by
  cases result <;> rfl

theorem undisturbed_cseReuseSocket (i : ℕ) (t : UInt32) (p : Child) :
    p.Undisturbed (cseReuseSocket i t p).2 := by
  unfold cseReuseSocket
  simp only
  split
  · exact ⟨rfl, rfl⟩
  · split
    · exact ⟨drainPool_recvs _ _, rfl⟩
    · exact ⟨rfl, rfl⟩

theorem undisturbed_cseOpen (dial : Dial) (i : ℕ) (wait : Bool) (p : Child) :
    p.Undisturbed (cseOpen dial i wait p).2 := by
  rw [cseOpen_eq]
  exact ⟨connectSocket_recvs _ _, rfl⟩

theorem undisturbed_cseOpenConnection (dial : Dial) (sessionIndex : ℤ) (ip : List Byte)
    (t : UInt32) (rand : Int32) (p : Child) :
    p.Undisturbed (cseOpenConnection dial sessionIndex ip t rand p).2 := by
  have hstep {q q' : Child} (h : p.Undisturbed q) (h' : q.Undisturbed q') : p.Undisturbed q' :=
    ⟨h'.recvs.trans h.recvs, h'.size.trans h.size⟩
  obtain ⟨q, hconfig, hconn, -, hcall⟩ := openConnection_eq dial sessionIndex ip t rand
    { p with stream := p.stream.clear none }
  have hstart : p.Undisturbed q :=
    ⟨congrArg (fun c : Conn => c.os.recvs) hconn, congrArg Config.srunSize hconfig⟩
  rw [cseOpenConnection, hcall]
  exact passes_induction (fun i q' h => hstep h (undisturbed_cseReuseSocket i t q'))
    (fun i wait q' h => hstep h (undisturbed_cseOpen dial i wait q'))
    (fun _ _ h => ⟨h.recvs, h.size⟩) (fun _ _ h => ⟨h.recvs, h.size⟩) hstart

/-- With nothing in the write buffer, `cse_recycle` sends nothing. -/
theorem cseRecycle_sent {p : Child} (h : p.stream.writeBuf = []) :
    p.Undisturbed (cseRecycle p) ∧ (cseRecycle p).os.sends = p.os.sends ∧
      ∀ fd, sentOn fd (cseRecycle p).os.trace = sentOn fd p.os.trace := by
  have hroom : p.conn.stream.writeLength + (header cseCloseCode 0).length ≤ bufLength := by
    simp [Child.conn, Stream.writeLength, h, bufLength]
  have hpacket : (cseWritePacket p.conn cseCloseCode []).os = p.os := by
    unfold cseWritePacket
    simp only [packet_header, List.length_nil]
    rw [cseWrite, cseWrite, if_neg (Nat.not_lt.mpr hroom), if_neg]
    · rfl
    · simpa [Conn.append, Stream.writeLength] using hroom
  unfold cseRecycle
  simp only
  split
  · exact ⟨⟨rfl, rfl⟩, rfl, fun _ => rfl⟩
  · refine ⟨⟨?_, rfl⟩, ?_, fun fd => ?_⟩
    · have hrecvs := congrArg Os.recvs hpacket
      exact hrecvs
    · have hsends := congrArg Os.sends hpacket
      exact hsends
    · exact (sentOn_close fd _).trans (congrArg (fun os : Os => sentOn fd os.trace) hpacket)

/-! ## Visits -/

/-- A request with what it meets: the network, a browser that takes what it is given, and
a runner that answers it in parts. The answer to the END begins with a chunk of its own. -/
structure Visit where
  dial : Dial
  sessionIndex : ℤ
  ip : List Byte
  requestTime : UInt32
  rand : Int32
  junk : ℕ → Locals
  pathInfo : Option (List Byte)
  request : Request
  answers : List (List Part)
  final : List Part
  early : List Chunk
  late : List Chunk
  count : answers.length = request.waits
  early_bytes : bytesOf early = ackedBytes answers
  late_bytes : bytesOf late = answerBytes final cseEnd

namespace Visit

/-- What the runner sends. -/
def chunks (v : Visit) : List Chunk := v.early ++ v.late

/-- What the runner means. -/
def ops (v : Visit) : List ReplyOp := v.answers.flatMap answerOps ++ answerOps v.final

/-- `cse_open_connection` for the request. -/
def opened (v : Visit) (p : Child) : Bool × Child :=
  cseOpenConnection v.dial v.sessionIndex v.ip v.requestTime v.rand p

/-- `caucho_request` for the request. -/
def handled (apache : Apache) (settings : Settings) (v : Visit) (p : Child) : Handled :=
  handleRequest v.dial apache settings v.sessionIndex v.ip v.requestTime v.rand v.junk v.pathInfo
    v.request ⟨[], []⟩ p

/-- The browser gets what the runner means, and the runner is sent this request, and
nothing else, on the socket of the request. -/
structure InStep (v : Visit) (p : Child) (h : Handled) : Prop where
  reply : h.reply.events = v.ops ++ [.flush]
  request :
    let c := (v.opened p).2
    let session := (c.config.srun (c.stream.srun.getD 0)).session
    v.request.Fits session →
      ∃ wire, sentOn c.stream.socket h.child.os.trace = sentOn c.stream.socket c.os.trace ++ wire ∧
        understand wire = some (v.request.account session (v.request.body.map Chunk.bytes) true)

end Visit

/-- The requests one after another, each with the child that it finds. -/
def handleAll (apache : Apache) (settings : Settings) : List Visit → Child → List (Child × Handled)
  | [], _ => []
  | v :: vs, p =>
      (p, v.handled apache settings p) ::
        handleAll apache settings vs (v.handled apache settings p).child

section

variable {apache : Apache} {settings : Settings} {v : Visit} {p : Child} {recvs : List RecvResult}

/-- A request that has found a connection. -/
theorem handled_found (hsetup : apache.setupClientBlock = 0) (hfound : (v.opened p).1 = true) :
    v.handled apache settings p =
      let c := (v.opened p).2
      let done := writeRequest v.junk (c.config.srun (c.stream.srun.getD 0)).session v.request
        ⟨c.conn, ⟨[], []⟩, false, []⟩
      ⟨0, none, done.2.reply.push .flush,
        if done.1 then cseRecycle (c.withConn done.2.conn)
        else c.withConn (cseClose done.2.conn)⟩ := by
  unfold Visit.opened at hfound ⊢
  unfold Visit.handled handleRequest
  rw [if_neg (not_not.mpr hsetup)]
  generalize cseOpenConnection v.dial v.sessionIndex v.ip v.requestTime v.rand p = o at hfound ⊢
  obtain ⟨found, c⟩ := o
  obtain rfl : found = true := hfound
  simp only [if_true]
  rfl

/-- Only a request that has found a connection gets by without an error page. -/
theorem found_of_answer (hsetup : apache.setupClientBlock = 0)
    (h : (v.handled apache settings p).answer = none) : (v.opened p).1 = true := by
  unfold Visit.opened
  unfold Visit.handled handleRequest at h
  rw [if_neg (not_not.mpr hsetup)] at h
  generalize cseOpenConnection v.dial v.sessionIndex v.ip v.requestTime v.rand p = o at h ⊢
  obtain ⟨found, c⟩ := o
  cases found with
  | true => rfl
  | false => cases h

/-- A request that has found a connection is in step, and leaves the rest of what is to be
received to the next one. -/
theorem visit_inStep (hsetup : apache.setupClientBlock = 0) (hfits : ProbeFits p.config.probeSize)
    (hall : p.os.sends = []) (hrecvs : p.os.recvs = v.chunks.map .data ++ recvs)
    (hfound : (v.opened p).1 = true) :
    v.InStep p (v.handled apache settings p) ∧
      (v.handled apache settings p).child.os.recvs = recvs ∧
      (v.handled apache settings p).child.os.sends = [] ∧
      (v.handled apache settings p).child.config.srunSize = p.config.srunSize := by
  obtain ⟨hlive, hblank⟩ := cseOpenConnection_live v.dial v.sessionIndex v.ip v.requestTime v.rand
    hfits hall hfound
  have hquiet := undisturbed_cseOpenConnection v.dial v.sessionIndex v.ip v.requestTime v.rand p
  change (v.opened p).2.conn.Live at hlive
  change (v.opened p).2.conn.Blank at hblank
  change p.Undisturbed (v.opened p).2 at hquiet
  rw [handled_found hsetup hfound]
  dsimp only
  have hmine : (v.opened p).2.conn.os.recvs = (v.early ++ v.late).map .data ++ recvs :=
    hquiet.recvs.trans hrecvs
  have hpending : (v.opened p).2.conn.pending =
      ackedBytes v.answers ++ (answerBytes v.final cseEnd ++ bytesOf (arriving recvs)) := by
    rw [Conn.pending, hblank.unread, hmine, arriving_data_append, List.nil_append,
      bytesOf_append, bytesOf_append, v.early_bytes, v.late_bytes, List.append_assoc]
  generalize hc : (v.opened p).2 = c at hlive hblank hquiet hmine hpending ⊢
  generalize hsession : (c.config.srun (c.stream.srun.getD 0)).session = session
  obtain ⟨hbuf, -, hleft⟩ := @writeRequest_exact v.junk session v.request v.answers v.count v.final
    ⟨c.conn, ⟨[], []⟩, false, []⟩ hlive hblank.unread rfl _ _ _ hmine v.early_bytes v.late_bytes
  obtain ⟨hresult, hevents, -, -, hlive', -, hwritten⟩ := @writeRequest_answered v.junk session
    v.request v.answers v.count v.final ⟨c.conn, ⟨[], []⟩, false, []⟩ hlive rfl _ hpending
  obtain ⟨ops, hrun⟩ := performs_writeRequest v.junk session v.request
    ⟨c.conn, ⟨[], []⟩, false, []⟩
  generalize writeRequest v.junk session v.request ⟨c.conn, ⟨[], []⟩, false, []⟩ = done at *
  obtain ⟨reuse, x'⟩ := done
  obtain rfl : reuse = true := hresult
  simp only [if_true] at hbuf hleft hevents hlive' hwritten hrun ⊢
  have hsocket : x'.conn.stream.socket = c.stream.socket := by
    rcases runOps_socket ops c.conn with hsame | hclosed
    · rwa [hrun] at hsame
    · rw [hrun] at hclosed
      exact absurd hclosed (Int.not_lt.mpr hlive'.socket)
  obtain ⟨hundisturbed, hsends, hsent⟩ := @cseRecycle_sent (c.withConn x'.conn) hbuf
  have hstart : c.conn.written = sentOn c.stream.socket c.os.trace := by
    rw [Conn.written, hblank.writeBuf, List.append_nil]
    rfl
  refine ⟨⟨?_, fun hshort => ?_⟩, hundisturbed.recvs.trans hleft, hsends.trans hlive'.all,
    hundisturbed.size.trans hquiet.size⟩
  · rw [events_push, hevents]
    rfl
  · rw [hc] at hshort ⊢
    rw [hsession] at hshort ⊢
    refine ⟨sentPackets (requestFrames session v.request v.request.body), ?_,
      understand_sentPackets hshort v.request.body⟩
    rw [hsent, ← hstart]
    change sentOn c.stream.socket x'.conn.os.trace = _
    rw [Conn.written, hbuf, List.append_nil, hsocket] at hwritten
    exact hwritten

end

/-- Requests that follow one another, each of which finds a connection and is sent its own
answer in chunks that end with it: each of them is in step, whichever connections they
share, and what is left to be received is what comes behind the last answer. -/
theorem handleAll_inStep {apache : Apache} {settings : Settings}
    (hsetup : apache.setupClientBlock = 0) (vs : List Visit) {p : Child}
    (hfits : ProbeFits p.config.probeSize) (hall : p.os.sends = []) {recvs : List RecvResult}
    (hrecvs : p.os.recvs = (vs.flatMap Visit.chunks).map .data ++ recvs)
    (hfound : ∀ e ∈ handleAll apache settings vs p, e.2.answer = none) :
    List.Forall₂ (fun v e => v.InStep e.1 e.2) vs (handleAll apache settings vs p) ∧
      ∀ e, (handleAll apache settings vs p).getLast? = some e → e.2.child.os.recvs = recvs := by
  induction vs generalizing p with
  | nil => exact ⟨.nil, fun e he => by cases he⟩
  | cons v vs ih =>
      rw [handleAll, List.forall_mem_cons] at hfound
      rw [List.flatMap_cons, List.map_append, List.append_assoc] at hrecvs
      obtain ⟨hstep, hrest, hsends, hsize⟩ := visit_inStep hsetup hfits hall hrecvs
        (found_of_answer hsetup hfound.1)
      have hfits' : ProbeFits (v.handled apache settings p).child.config.probeSize := by
        rw [Config.probeSize, hsize]
        exact hfits
      obtain ⟨hsteps, hlast⟩ := ih hfits' hsends hrest hfound.2
      refine ⟨.cons hstep hsteps, fun e he => ?_⟩
      rw [handleAll] at he
      cases vs with
      | nil =>
          cases he
          exact hrest
      | cons v' vs => exact hlast e he

theorem bytesOf_ackChunk : bytesOf [ackChunk] = ackedBytes [[]] := by decide

theorem bytesOf_pageChunk : bytesOf [pageChunk] = answerBytes smallPage cseEnd :=
  List.append_nil _

/-- A request of two blocks that gets a small page. -/
def smallVisit : Visit where
  dial := answering
  sessionIndex := -1
  ip := []
  requestTime := 0
  rand := 0
  junk := zeroed
  pathInfo := none
  request := twoBlocks
  answers := [[]]
  final := smallPage
  early := [ackChunk]
  late := [pageChunk]
  count := rfl
  early_bytes := bytesOf_ackChunk
  late_bytes := bytesOf_pageChunk

/-- A child with one runner, which is sent what two visits are sent. -/
def visitedChild : Child := pooledChild (smallVisit.chunks ++ smallVisit.chunks)

/-- The second request comes on the connection of the first one. -/
theorem handleAll_inStep_pair :
    List.Forall₂ (fun v e => v.InStep e.1 e.2) [smallVisit, smallVisit]
        (handleAll ⟨0, fun _ => 200, fun _ => 0⟩ .start [smallVisit, smallVisit] visitedChild) ∧
      ∀ e, (handleAll ⟨0, fun _ => 200, fun _ => 0⟩ .start [smallVisit, smallVisit]
        visitedChild).getLast? = some e → e.2.child.os.recvs = [] :=
  handleAll_inStep rfl [smallVisit, smallVisit] (by decide) rfl rfl (by decide +kernel)

end ModCaucho
