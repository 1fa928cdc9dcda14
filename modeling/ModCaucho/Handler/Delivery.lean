import ModCaucho.Handler.Conversation

/-!
# What both sides get

On a connection that is not lost the runner can read back what `write_request` has put on
it: the fields and the headers of the request, as much of its body as it has asked for, and
the END, whatever it answers and whatever the browser does. A runner that answers each
block but the last with parts up to an ACK, and the whole request with parts up to an END,
gets all of the body. The browser gets what the parts mean, in order, and the next request
finds the connection behind the last of them.
-/

namespace ModCaucho

open Framing

/-! ## What the runner gets -/

/-- The packet of a block. -/
def blockFrame (block : Chunk) : Frame := ⟨cseData, block.bytes⟩

/-- The packets of a request of which these blocks were said. -/
def requestFrames (session : ℕ) (r : Request) (blocks : List Chunk) : List Frame :=
  headFrames session r ++ (blocks.map blockFrame ++ [⟨cseEnd, []⟩])

theorem read_blocks (blocks : List Chunk) {a : Account} (h : a.Between) :
    (blocks.map blockFrame).foldlM Account.take a =
      some { a with body := a.body ++ blocks.map Chunk.bytes } := by
  induction blocks generalizing a with
  | nil =>
      rw [List.map_nil, List.map_nil, List.append_nil]
      rfl
  | cons block blocks ih =>
      have hfirst := take_data h block.bytes
      have hnext : ({ a with body := a.body ++ [block.bytes] } : Account).Between :=
        ⟨h.name, h.complete⟩
      rw [List.map_cons, List.foldlM_cons, blockFrame, hfirst, Option.bind_eq_bind,
        Option.bind_some, ih hnext, List.append_assoc]
      rfl

/-- The packets of a request say what the request is. -/
theorem readAll_requestFrames (session : ℕ) (r : Request) (blocks : List Chunk) :
    Account.readAll (requestFrames session r blocks) =
      some (r.account session (blocks.map Chunk.bytes) true) := by
  have hhead := readAll_headFrames session r
  have hbetween : (r.account session [] false).Between := ⟨rfl, rfl⟩
  have hblocks := read_blocks blocks hbetween
  have hend := @take_end { r.account session [] false with
    body := [] ++ blocks.map Chunk.bytes } ⟨rfl, rfl⟩
  rw [Account.readAll] at hhead
  rw [Account.readAll, requestFrames, List.foldlM_append, hhead, Option.bind_eq_bind,
    Option.bind_some, List.foldlM_append, hblocks, Option.bind_eq_bind, Option.bind_some,
    List.foldlM_cons]
  exact congrArg (fun o => Option.bind o fun a => some a) hend

theorem requestFrames_short {session : ℕ} {r : Request} (hfits : r.Fits session)
    (blocks : List Chunk) :
    ∀ f ∈ requestFrames session r blocks, f.payload.length ≤ bufLength := by
  intro f hf
  rw [requestFrames, List.mem_append, List.mem_append] at hf
  rcases hf with hhead | hblock | hend
  · exact hfits.strings f hhead
  · obtain ⟨block, -, rfl⟩ := List.mem_map.mp hblock
    exact block.length_le
  · obtain rfl := List.mem_singleton.mp hend
    exact Nat.zero_le _

/-- What a runner makes of some bytes. -/
def understand (wire : List Byte) : Option Account := (decodeAll wire).bind Account.readAll

theorem understand_sentPackets {session : ℕ} {r : Request} (hfits : r.Fits session)
    (blocks : List Chunk) :
    understand (sentPackets (requestFrames session r blocks)) =
      some (r.account session (blocks.map Chunk.bytes) true) := by
  have hshort := requestFrames_short hfits blocks
  have hsized : ∀ f ∈ requestFrames session r blocks, f.Sized :=
    fun f hf => Nat.lt_of_le_of_lt (hshort f hf) (by decide)
  rw [understand, (sentPackets_eq_encodeAll_iff _).mpr hshort, decodeAll_encodeAll hsized,
    Option.bind_some, readAll_requestFrames]

theorem frame?_bodyLog (junk : ℕ → Locals) (isFirst : Bool) (blocks : List Chunk) (x : Relay) :
    ∃ said, said <+: blocks ∧
      (bodyLog junk isFirst blocks x).filterMap Exchanged.frame? = said.map blockFrame := by
  induction blocks generalizing junk isFirst x with
  | nil =>
      rw [bodyLog]
      exact ⟨[], List.nil_prefix, rfl⟩
  | cons block blocks ih =>
      rw [bodyLog]
      cases isFirst with
      | true =>
          obtain ⟨said, hsaid, hframes⟩ := ih junk false (x.writePacket cseData block.bytes)
          refine ⟨block :: said, List.cons_prefix_cons.mpr ⟨rfl, hsaid⟩, ?_⟩
          rw [if_pos rfl, frame?_wrote, hframes]
          rfl
      | false =>
          simp only [Bool.false_eq_true, if_false, List.filterMap_append]
          rw [heardSince, frame?_heard, List.nil_append]
          split
          · exact ⟨[], List.nil_prefix, rfl⟩
          · obtain ⟨said, hsaid, hframes⟩ := ih (fun k => junk (k + 1)) false
              ((sendData cseAck (junk 0) x).2.writePacket cseData block.bytes)
            refine ⟨block :: said, List.cons_prefix_cons.mpr ⟨rfl, hsaid⟩, ?_⟩
            rw [frame?_wrote, hframes]
            rfl

/-- Whatever the runner answers and whatever the browser does, as long as the connection is
not lost the runner can read the request off it, with a front of the body. -/
theorem writeRequest_understood (junk : ℕ → Locals) {session : ℕ} {r : Request}
    (hfits : r.Fits session) {x : Relay} (h : x.conn.Sends)
    (hopen : 0 ≤ (writeRequest junk session r x).2.conn.stream.socket) :
    ∃ wire body, (writeRequest junk session r x).2.conn.written = x.conn.written ++ wire ∧
      body <+: r.body.map Chunk.bytes ∧
      understand wire = some (r.account session body true) ∧
      ∀ hdrs, (r.account session body true).trusted =
        (({ r with headersIn := hdrs } : Request).account session body true).trusted := by
  obtain ⟨hsends, -, hwritten⟩ := writePackets_spec h (headFrames session r)
  rw [← writeHead_frames] at hsends hwritten
  have hlog := (exchanges_writeRequest junk session r x).written hsends hopen
  obtain ⟨said, hsaid, hframes⟩ := frame?_bodyLog (fun k => junk (k + 1)) true r.body
    (x.writeHead session r)
  refine ⟨sentPackets (requestFrames session r said), said.map Chunk.bytes, ?_,
    hsaid.map Chunk.bytes, understand_sentPackets hfits said,
    fun hdrs => (trusted_account session r hdrs _ _ _ _).symm⟩
  rw [hlog, hwritten, requestLog, List.filterMap_append, hframes, List.append_assoc,
    frame?_wrote, heardSince, frame?_heard, ← sentPackets_append]
  rfl

/-- The path and every string of the small request fit. -/
theorem twoBlocks_fits : twoBlocks.Fits 0 := ⟨by decide, by decide⟩

theorem writeRequest_understood_polite :
    ∃ wire body, (writeRequest zeroed 0 twoBlocks (exchangeWith politeChunks)).2.conn.written =
        (exchangeWith politeChunks).conn.written ++ wire ∧
      body <+: twoBlocks.body.map Chunk.bytes ∧
      understand wire = some (twoBlocks.account 0 body true) ∧
      ∀ hdrs, (twoBlocks.account 0 body true).trusted =
        (({ twoBlocks with headersIn := hdrs } : Request).account 0 body true).trusted :=
  writeRequest_understood zeroed twoBlocks_fits (exchangeWith_live politeChunks).toSends
    (by decide +kernel)

/-! ## What the browser gets -/

/-- An answer that has come as a whole is heard as what it means. -/
theorem hear_answer {ack stop : Byte} (hack : ack = cseAck ∨ ack = cseEnd)
    (hstop : Stops ack stop) (hcode : stop ∈ [cseEnd, cseCloseCode, cseAck]) (m : Locals)
    {t : Talk} {parts : List Part} {rest : List Byte}
    (h : t.rest = some (answerBytes parts stop ++ rest)) :
    t.hear ack m =
      ((stop.toNat : ℤ),
        (⟨t.said, t.ops ++ answerOps parts, t.keepalive || parts.any Part.asks, some rest⟩ :
          Talk)) := by
  have hlen : parts.length < (answerBytes parts stop ++ rest).length := by
    have := length_answerBytes parts stop
    rw [List.length_append]
    omega
  unfold Talk.hear
  simp only [h, relay_answer hack hstop hcode m parts hlen rest]

/-- The bytes of answers that each end with an ACK. -/
def ackedBytes (answers : List (List Part)) : List Byte :=
  answers.flatMap fun parts => answerBytes parts cseAck

/-- With an answer for each of them, all blocks are said. -/
theorem sayBody_acked (junk : ℕ → Locals) {blocks : List Chunk} {answers : List (List Part)}
    (hcount : answers.length = blocks.length) {t : Talk} {rest : List Byte}
    (h : t.rest = some (ackedBytes answers ++ rest)) :
    t.sayBody junk false blocks =
      ⟨t.said ++ blocks.map blockFrame, t.ops ++ answers.flatMap answerOps,
        t.keepalive || answers.any fun parts => parts.any Part.asks, some rest⟩ := by
  induction blocks generalizing junk answers t with
  | nil =>
      obtain rfl := List.eq_nil_of_length_eq_zero hcount
      obtain ⟨said, ops, keepalive, left⟩ := t
      simp only [ackedBytes, List.flatMap_nil, List.nil_append] at h
      subst h
      simp [Talk.sayBody]
  | cons block blocks ih =>
      cases answers with
      | nil => cases hcount
      | cons parts answers =>
          have hbytes :
              t.rest = some (answerBytes parts cseAck ++ (ackedBytes answers ++ rest)) := by
            rw [h, ackedBytes, List.flatMap_cons, List.append_assoc]
            rfl
          have hheard := hear_answer (Or.inl rfl) (Or.inr (Or.inr (Or.inr rfl))) (by decide)
            (junk 0) hbytes
          have hgo : ¬ ((cseAck.toNat : ℤ) < 0 ∨ (cseAck.toNat : ℤ) = cseEnd.toNat ∨
              (cseAck.toNat : ℤ) = cseCloseCode.toNat) := by decide
          rw [Talk.sayBody]
          simp only [Bool.false_eq_true, if_false, hheard, if_neg hgo]
          rw [ih (fun k => junk (k + 1)) (Nat.succ_inj.mp hcount) rfl]
          simp [Talk.say, blockFrame, List.flatMap_cons, List.any_cons, List.append_assoc,
            Bool.or_assoc]

/-- With an answer for each block but the last, all of the body is said. -/
theorem sayBody_answered (junk : ℕ → Locals) {blocks : List Chunk} {answers : List (List Part)}
    (hcount : answers.length = blocks.length - 1) {t : Talk} {rest : List Byte}
    (h : t.rest = some (ackedBytes answers ++ rest)) :
    t.sayBody junk true blocks =
      ⟨t.said ++ blocks.map blockFrame, t.ops ++ answers.flatMap answerOps,
        t.keepalive || answers.any fun parts => parts.any Part.asks, some rest⟩ := by
  cases blocks with
  | nil =>
      rw [Talk.sayBody]
      exact @sayBody_acked junk [] answers hcount t rest h
  | cons block blocks =>
      have hsaid := @sayBody_acked junk blocks answers hcount (t.say cseData block.bytes) rest h
      rw [Talk.sayBody, if_pos rfl, hsaid]
      simp [Talk.say, blockFrame]

/-- A runner that answers every block but the last with an ACK, and the request with an
END, hears all of the request and is heard to the end. -/
theorem converse_answered (junk : ℕ → Locals) (session : ℕ) (r : Request)
    {answers : List (List Part)} (hcount : answers.length = r.waits) (final : List Part)
    {t : Talk} {rest : List Byte}
    (h : t.rest = some (ackedBytes answers ++ (answerBytes final cseEnd ++ rest))) :
    converse junk session r t =
      (true, ⟨t.said ++ requestFrames session r r.body,
        t.ops ++ (answers.flatMap answerOps ++ answerOps final),
        t.keepalive || ((answers.any fun parts => parts.any Part.asks) || final.any Part.asks),
        some rest⟩) := by
  rw [r.waits_eq] at hcount
  have hbody := @sayBody_answered (fun k => junk (k + 1)) r.body answers hcount
    { t with said := t.said ++ headFrames session r } _ h
  have hend := @hear_answer cseEnd cseEnd (Or.inr rfl) (Or.inr (Or.inl rfl)) (by decide) (junk 0)
    (Talk.say ⟨t.said ++ headFrames session r ++ r.body.map blockFrame,
      t.ops ++ answers.flatMap answerOps,
      t.keepalive || answers.any fun parts => parts.any Part.asks,
      some (answerBytes final cseEnd ++ rest)⟩ cseEnd []) final rest rfl
  simp only [converse, hbody, hend]
  simp [Talk.say, requestFrames, List.append_assoc, Bool.or_assoc]

/-- A request on a connection on which a runner answers it in parts. -/
theorem writeRequest_answered (junk : ℕ → Locals) (session : ℕ) {r : Request}
    {answers : List (List Part)} (hcount : answers.length = r.waits) (final : List Part)
    {x : Relay} (h : x.conn.Live) (hwrites : x.reply.writes = []) {rest : List Byte}
    (hpending : x.conn.pending = ackedBytes answers ++ (answerBytes final cseEnd ++ rest)) :
    (writeRequest junk session r x).1 = true ∧
      (writeRequest junk session r x).2.Follows x.conn.written
        ⟨requestFrames session r r.body,
          x.reply.events ++ (answers.flatMap answerOps ++ answerOps final),
          x.keepalive || ((answers.any fun parts => parts.any Part.asks) || final.any Part.asks),
          some rest⟩ := by
  have hgoes := (x.follows_self h hwrites).writeRequest junk session r
  rw [converse_answered junk session r hcount final (congrArg some hpending)] at hgoes
  exact hgoes

/-- A request whose strings fit the buffer, on a connection on which a runner answers in
parts, however the answers are cut into chunks: the runner can read all of the request off
it, the browser gets what the parts mean, and the connection may be used again behind them. -/
theorem writeRequest_delivers (junk : ℕ → Locals) {session : ℕ} {r : Request}
    (hfits : r.Fits session) {answers : List (List Part)} (hcount : answers.length = r.waits)
    (final : List Part) {x : Relay} (h : x.conn.Live) (hwrites : x.reply.writes = [])
    {rest : List Byte}
    (hpending : x.conn.pending = ackedBytes answers ++ (answerBytes final cseEnd ++ rest)) :
    (writeRequest junk session r x).1 = true ∧
      (writeRequest junk session r x).2.reply.events =
        x.reply.events ++ (answers.flatMap answerOps ++ answerOps final) ∧
      (writeRequest junk session r x).2.keepalive =
        (x.keepalive || ((answers.any fun parts => parts.any Part.asks) || final.any Part.asks)) ∧
      (writeRequest junk session r x).2.conn.Live ∧
      (writeRequest junk session r x).2.conn.pending = rest ∧
      ∃ wire, (writeRequest junk session r x).2.conn.written = x.conn.written ++ wire ∧
        understand wire = some (r.account session (r.body.map Chunk.bytes) true) := by
  obtain ⟨hresult, hevents, -, hkeepalive, hlive, hrest, hwritten⟩ :=
    writeRequest_answered junk session hcount final h hwrites hpending
  exact ⟨hresult, hevents, hkeepalive, hlive, hrest, _, hwritten,
    understand_sentPackets hfits r.body⟩

/-- A page with a status, a header and a body of two bytes, after which the runner asks for
the connection to be kept. -/
def smallPage : List Part :=
  [.status ⟨[72], [50, 48, 48], by decide +kernel, by decide +kernel, by decide⟩,
    .header ⟨[65], by decide +kernel, by decide⟩ ⟨[66, 67], by decide +kernel, by decide⟩,
    .sendHeader, .data ⟨[104, 105], by decide⟩, .keepalive]

theorem smallPage_ne_nil : answerBytes smallPage cseEnd ≠ [] := List.cons_ne_nil _ _

theorem smallPage_length : (answerBytes smallPage cseEnd).length ≤ bufLength := by decide

theorem ack_ne_nil : [cseAck, 0, 0, 0] ≠ [] := List.cons_ne_nil _ _

theorem ack_length : [cseAck, 0, 0, 0].length ≤ bufLength := by decide

/-- The chunk of an ACK. -/
def ackChunk : Chunk := ⟨[cseAck, 0, 0, 0], ack_ne_nil, ack_length⟩

/-- The chunk of the page. -/
def pageChunk : Chunk := ⟨answerBytes smallPage cseEnd, smallPage_ne_nil, smallPage_length⟩

/-- The bytes of an answer with the page, cut behind the ACK. -/
def pageChunks : List Chunk := [ackChunk, pageChunk]

theorem writeRequest_delivers_small :
    (writeRequest zeroed 0 twoBlocks (exchangeWith pageChunks)).1 = true ∧
      (writeRequest zeroed 0 twoBlocks (exchangeWith pageChunks)).2.reply.events =
        (exchangeWith pageChunks).reply.events ++ ([[]].flatMap answerOps ++ answerOps smallPage) ∧
      (writeRequest zeroed 0 twoBlocks (exchangeWith pageChunks)).2.keepalive =
        ((exchangeWith pageChunks).keepalive ||
          (([[]].any fun parts : List Part => parts.any Part.asks) || smallPage.any Part.asks)) ∧
      (writeRequest zeroed 0 twoBlocks (exchangeWith pageChunks)).2.conn.Live ∧
      (writeRequest zeroed 0 twoBlocks (exchangeWith pageChunks)).2.conn.pending = [] ∧
      ∃ wire, (writeRequest zeroed 0 twoBlocks (exchangeWith pageChunks)).2.conn.written =
          (exchangeWith pageChunks).conn.written ++ wire ∧
        understand wire =
          some (twoBlocks.account 0 (twoBlocks.body.map Chunk.bytes) true) :=
  @writeRequest_delivers zeroed 0 twoBlocks twoBlocks_fits [[]] rfl smallPage
    (exchangeWith pageChunks) (exchangeWith_live pageChunks) rfl [] (by decide)

end ModCaucho
