import ModCaucho.Handler.Exchange
import ModCaucho.Stream.Available
import ModCaucho.Stream.Ops

/-!
# Flow control of a request body

The packets that `write_request` writes and the ones that it hears, in order. No block of
the body is written before the runner has answered the one before it, and behind the END
packet nothing is written. All blocks are written unless the runner's bytes hold too few
ACKs or the browser fails. Before a stream waits in `recv` its write buffer is empty.
-/

namespace ModCaucho

open Framing

/-! ## A browser that does not fail -/

theorem rwrite_writes (r : Reply) (bytes : List Byte) : (r.rwrite bytes).2.writes ⊆ r.writes := by
  unfold Reply.rwrite
  split
  · exact fun _ h => h
  · next hwrites =>
      rw [hwrites]
      exact List.subset_cons_self _ _
  · next hwrites =>
      rw [hwrites]
      exact List.subset_cons_self _ _

theorem failed_of_rwrite {r : Reply} {bytes : List Byte} (h : (r.rwrite bytes).1 < 0) :
    .failed ∈ r.writes := by
  unfold Reply.rwrite at h
  split at h
  · omega
  · omega
  · next hwrites =>
      rw [hwrites]
      exact List.mem_cons_self

theorem writeResponseLoop_writes (fuel len : ℕ) (c : Conn) (r : Reply) :
    (writeResponseLoop fuel len c r).2.2.writes ⊆ r.writes := by
  induction fuel generalizing len c r with
  | zero => exact fun _ h => h
  | succ fuel ih =>
      unfold writeResponseLoop
      split
      · exact fun _ h => h
      · simp only
        split
        · exact fun _ h => h
        · split
          · exact rwrite_writes _ _
          · exact List.Subset.trans (ih _ _ _) (rwrite_writes _ _)

theorem writeResponseLoop_lost {fuel len : ℕ} (hfuel : len ≤ fuel) {c : Conn} (h : c.Live)
    {r : Reply} (hlost : (writeResponseLoop fuel len c r).1 < 0) :
    c.pending.length < len ∨ .failed ∈ r.writes := by
  induction fuel generalizing len c r with
  | zero => cases hlost
  | succ fuel ih =>
      unfold writeResponseLoop at hlost
      by_cases hlen : len = 0
      · rw [if_pos hlen] at hlost
        cases hlost
      rw [if_neg hlen] at hlost
      rcases fillIfEmpty_spec h with ⟨hfst, hlive, hreads⟩ | ⟨hfst, -, hnil⟩
      · have hpos := buffered_pos_of_fillIfEmpty hfst
        simp only [if_neg hfst] at hlost
        generalize (fillIfEmpty c).2 = c' at *
        obtain ⟨ms, hms⟩ := hreads (min len c'.stream.buffered) (by omega) (by omega)
        have htake : (c'.stream.unread.take (min len c'.stream.buffered)).length =
            min len c'.stream.buffered := by
          rw [List.length_take, hlive.length_unread]
          omega
        split at hlost
        · next hfailed => exact Or.inr (failed_of_rwrite hfailed)
        · rcases ih (by omega) hms.live hlost with hshort | hfailed
          · left
            rw [hms.pending, List.length_append, htake]
            omega
          · exact Or.inr (rwrite_writes _ _ hfailed)
      · left
        rw [hnil]
        exact Nat.pos_of_ne_zero hlen

theorem handlePacket_writes (code : ℤ) (len : ℕ) (m : Locals) (x : Relay) :
    (handlePacket code len m x).2.2.reply.writes ⊆ x.reply.writes := by
  have hsame := List.Subset.refl x.reply.writes
  unfold handlePacket
  split
  · exact hsame
  · split
    · exact hsame
    · split
      · exact writeResponseLoop_writes _ _ _ _
      · split
        · exact hsame
        · split
          · exact hsame
          · split
            · exact hsame
            · split <;> exact hsame

theorem sendPacket_writes (m : Locals) (x : Relay) :
    (sendPacket m x).2.2.reply.writes ⊆ x.reply.writes := by
  rw [sendPacket_eq]
  simp only
  split
  · exact List.Subset.refl _
  · exact handlePacket_writes _ _ m { x with conn := _, heard := _ }

theorem sendDataLoop_writes (ack : Byte) (fuel : ℕ) (m : Locals) (x : Relay) :
    (sendDataLoop ack fuel m x).2.reply.writes ⊆ x.reply.writes := by
  induction fuel generalizing m x with
  | zero => exact List.Subset.refl _
  | succ fuel ih =>
      unfold sendDataLoop
      simp only
      split
      · exact List.Subset.trans (ih _ _) (sendPacket_writes m x)
      · exact sendPacket_writes m x

/-- A DATA packet that could not be copied was cut off, or the browser has failed. -/
theorem sendPacket_lost {m : Locals} {x : Relay} (h : x.conn.Live) {code : Byte}
    {rest : List Byte} (hp : packet? x.conn.pending = some (code, rest))
    (hlost : (sendPacket m x).1 = -1) : rest = [] ∨ .failed ∈ x.reply.writes := by
  rw [sendPacket_eq] at hlost
  rcases readHeader_spec h with
    ⟨code', b₁, b₂, b₃, bs, ms, c', hpending, hheader, hreads, hrest⟩ | ⟨hshort, -⟩
  · have hopen : ¬ c'.stream.socket < 0 := Int.not_lt.mpr hreads.live.socket
    rw [hpending, packet?, Option.some.injEq, Prod.mk.injEq] at hp
    obtain ⟨rfl, rfl⟩ := hp
    simp only [hheader, if_neg hopen, low8_toNat] at hlost
    change (handlePacket code'.toNat (ofBe24 b₁ b₂ b₃) m _).1 = -1 at hlost
    generalize ofBe24 b₁ b₂ b₃ = len at hlost ⊢
    by_cases hdata : code' = cseData
    · subst hdata
      have hloop : (writeResponseLoop len len c' x.reply).1 < 0 := by
        by_contra hnot
        rw [handlePacket_data] at hlost
        simp only [if_neg hnot] at hlost
        omega
      refine (writeResponseLoop_lost (Nat.le_refl len) hreads.live hloop).imp_left fun hshort => ?_
      have hbare :
          ¬ (cseData = cseFlushCode ∨ cseData = cseKeepalive ∨ cseData = cseSendHeader) := by
        decide
      rw [behind, if_neg (by decide), if_neg hbare, ← hrest]
      exact List.drop_eq_nil_of_le (Nat.le_of_lt hshort)
    · have hspec := handlePacket_spec code' len m
        (x := { x with conn := c', heard := x.heard ++ [(code'.toNat : ℤ)] }) hreads.live
      rcases hspec.2 with ⟨hcode, -⟩ | ⟨hcode, -, -⟩
      · rw [hcode] at hlost
        omega
      · exact absurd hcode hdata
  · rw [packet?_of_short hshort] at hp
    cases hp

/-- `send_data` gives up on a live connection only when the runner's bytes end before a
packet to stop at, or when the browser fails. -/
theorem listen_of_lost {ack : Byte} (hack : ack ≠ cseData) {fuel : ℕ} {m : Locals} {x : Relay}
    (h : x.conn.Live) (hfuel : x.conn.remaining < fuel)
    (hlost : (sendDataLoop ack fuel m x).1 = -1) :
    (listen ack x.conn.pending.length x.conn.pending).2.1 = none ∨ .failed ∈ x.reply.writes := by
  induction fuel generalizing m x with
  | zero => omega
  | succ fuel ih =>
      have hspec := sendPacket_spec m h
      have hless := @sendPacket_remaining m x
      have hsub := sendPacket_writes m x
      cases hp : packet? x.conn.pending with
      | none =>
          rw [listen_none hp]
          exact Or.inl rfl
      | some found =>
          obtain ⟨code, rest⟩ := found
          have hlen := packet?_length hp
          obtain ⟨n, hn⟩ : ∃ n, x.conn.pending.length = n + 1 :=
            ⟨x.conn.pending.length - 1, by omega⟩
          have hcut := @sendPacket_lost m x h code rest hp
          rw [hp] at hspec
          unfold sendDataLoop at hlost
          generalize sendPacket m x = round at *
          obtain ⟨result, m', y⟩ := round
          simp only at hspec hless hsub hcut hlost
          rw [hn]
          by_cases hstop : Stops ack code
          · rcases hspec.2 with ⟨hcode, -⟩ | ⟨rfl, hcode, -⟩
            · rw [hcode, if_neg fun hgo => (go_iff ack code).mp hgo hstop] at hlost
              omega
            · rcases hstop with hzero | hend | hclose | heq
              · exact absurd hzero (by decide)
              · exact absurd hend (by decide)
              · exact absurd hclose (by decide)
              · exact absurd heq.symm hack
          · rw [listen_go hp hstop, @listen_fuel ack n rest.length rest (by omega) (Nat.le_refl _)]
            rcases hspec.2 with ⟨hcode, hleaves⟩ | ⟨rfl, hcode, -⟩
            · rw [hcode, if_pos ((go_iff ack code).mpr hstop)] at hlost
              rw [hcode] at hless
              have hfuel' := hless ((go_iff ack code).mpr hstop).1
              cases hleaves with
              | reading reads pending =>
                  have hthen := ih reads.live (by omega) hlost
                  rw [pending] at hthen
                  exact hthen.imp_right fun hfailed => hsub hfailed
              | closed socket rest =>
                  subst rest
                  exact Or.inl (by rw [listen_none rfl])
            · refine (hcut hcode).imp_left fun hnil => ?_
              subst hnil
              rw [listen_none rfl]

/-! ## The packets of an exchange -/

/-- A packet of an exchange, written by the plugin or heard from the runner. -/
inductive Exchanged
  | wrote (code : Byte) (payload : List Byte)
  | heard (code : ℤ)
deriving DecidableEq, Repr

/-- The second state comes from the first by writing and hearing these packets, each
heard packet in a round of `send_data`. -/
inductive Exchanges : List Exchanged → Relay → Relay → Prop
  | nil (x : Relay) : Exchanges [] x x
  | wrote {log : List Exchanged} {x y : Relay} (code : Byte) (payload : List Byte)
      (then_ : Exchanges log (x.writePacket code payload) y) :
      Exchanges (.wrote code payload :: log) x y
  | heard {log : List Exchanged} {x y : Relay} {code : ℤ} (m : Locals)
      (heard : (sendPacket m x).2.2.heard = x.heard ++ [code])
      (then_ : Exchanges log (sendPacket m x).2.2 y) : Exchanges (.heard code :: log) x y

theorem Exchanges.append {log log' : List Exchanged} {x y z : Relay} (h : Exchanges log x y)
    (h' : Exchanges log' y z) : Exchanges (log ++ log') x z := by
  induction h with
  | nil x => exact h'
  | wrote code payload _ ih => exact .wrote code payload (ih h')
  | heard m heard _ ih => exact .heard m heard (ih h')

/-- What was heard between two states. -/
def heardSince (x y : Relay) : List Exchanged :=
  (y.heard.drop x.heard.length).map .heard

/-- The packets of `sendBody`. -/
def bodyLog : (ℕ → Locals) → Bool → List Chunk → Relay → List Exchanged
  | _, _, [], _ => []
  | junk, isFirst, block :: blocks, x =>
      if isFirst then
        .wrote cseData block.bytes :: bodyLog junk false blocks (x.writePacket cseData block.bytes)
      else
        let (code, y) := sendData cseAck (junk 0) x
        heardSince x y ++
          if code < 0 ∨ code = cseEnd.toNat ∨ code = cseCloseCode.toNat then []
          else
            .wrote cseData block.bytes ::
              bodyLog (fun k => junk (k + 1)) false blocks (y.writePacket cseData block.bytes)

/-- The blocks of a request that may have a body. -/
def Request.body (r : Request) : List Chunk := if r.shouldClientBlock then r.blocks else []

/-- The packets of `write_request` behind the head of the request. -/
def requestLog (junk : ℕ → Locals) (session : ℕ) (r : Request) (x : Relay) : List Exchanged :=
  let y := (writeBody junk session r x).writePacket cseEnd []
  bodyLog (fun k => junk (k + 1)) true r.body (x.writeHead session r) ++
    .wrote cseEnd [] :: heardSince y (writeRequest junk session r x).2

theorem heardSince_append {x y : Relay} {codes : List ℤ} (h : y.heard = x.heard ++ codes) :
    heardSince x y = codes.map .heard := by
  rw [heardSince, h, List.drop_left]

theorem exchanges_sendDataLoop (ack : Byte) (fuel : ℕ) (m : Locals) (x : Relay) :
    ∃ codes, (sendDataLoop ack fuel m x).2.heard = x.heard ++ codes ∧
      Exchanges (codes.map .heard) x (sendDataLoop ack fuel m x).2 := by
  induction fuel generalizing m x with
  | zero => exact ⟨[], (List.append_nil _).symm, .nil x⟩
  | succ fuel ih =>
      obtain ⟨code, hcode, -⟩ := sendPacket_heard m x
      unfold sendDataLoop
      simp only
      split
      · obtain ⟨codes, hcodes, hthen⟩ := ih (sendPacket m x).2.1 (sendPacket m x).2.2
        refine ⟨code :: codes, ?_, .heard m hcode hthen⟩
        rw [hcodes, hcode, List.append_assoc]
        rfl
      · exact ⟨[code], hcode, .heard m hcode (.nil _)⟩

theorem exchanges_sendData (ack : Byte) (m : Locals) (x : Relay) :
    Exchanges (heardSince x (sendData ack m x).2) x (sendData ack m x).2 := by
  obtain ⟨codes, hcodes, hexchanges⟩ := exchanges_sendDataLoop ack (x.conn.remaining + 1) m x
  change (sendData ack m x).2.heard = _ at hcodes
  rw [heardSince_append hcodes]
  exact hexchanges

theorem exchanges_sendBody (junk : ℕ → Locals) (isFirst : Bool) (blocks : List Chunk)
    (x : Relay) : Exchanges (bodyLog junk isFirst blocks x) x (sendBody junk isFirst blocks x) := by
  induction blocks generalizing junk isFirst x with
  | nil =>
      rw [bodyLog, sendBody]
      exact .nil x
  | cons block blocks ih =>
      rw [bodyLog, sendBody]
      cases isFirst with
      | true => exact .wrote cseData block.bytes (ih junk false _)
      | false =>
          have hwait := exchanges_sendData cseAck (junk 0) x
          simp only [Bool.false_eq_true, if_false]
          split
          · rw [List.append_nil]
            exact hwait
          · exact hwait.append (.wrote cseData block.bytes (ih _ false _))

theorem writeBody_eq (junk : ℕ → Locals) (session : ℕ) (r : Request) (x : Relay) :
    writeBody junk session r x =
      sendBody (fun k => junk (k + 1)) true r.body (x.writeHead session r) := by
  unfold writeBody Request.body
  cases r.shouldClientBlock <;> rfl

/-- The log of a request is what happens behind its head. -/
theorem exchanges_writeRequest (junk : ℕ → Locals) (session : ℕ) (r : Request) (x : Relay) :
    Exchanges (requestLog junk session r x) (x.writeHead session r)
      (writeRequest junk session r x).2 := by
  have hbody := exchanges_sendBody (fun k => junk (k + 1)) true r.body (x.writeHead session r)
  have hend := exchanges_sendData cseEnd (junk 0)
    ((writeBody junk session r x).writePacket cseEnd [])
  have hsame : (writeRequest junk session r x).2 =
      (sendData cseEnd (junk 0) ((writeBody junk session r x).writePacket cseEnd [])).2 := by
    rw [writeRequest_eq]
  rw [← writeBody_eq] at hbody
  rw [requestLog, hsame]
  exact hbody.append (.wrote cseEnd [] hend)

/-- The head of a request is written with packets that are neither DATA nor END. -/
def Prefaces (c c' : Conn) : Prop :=
  ∃ head : List Exchanged,
    (∀ e ∈ head, ∃ code payload, e = .wrote code payload ∧ code ∈ headCodes) ∧
      ∀ x : Relay, Exchanges head { x with conn := c } { x with conn := c' }

theorem headSteps_prefaces : HeadSteps Prefaces where
  refl c := ⟨[], by simp, fun x => .nil _⟩
  trans := by
    rintro c c' c'' ⟨head, hcodes, hhead⟩ ⟨head', hcodes', hhead'⟩
    refine ⟨head ++ head', ?_, fun x => (hhead x).append (hhead' x)⟩
    intro e he
    rcases List.mem_append.mp he with hmem | hmem
    · exact hcodes e hmem
    · exact hcodes' e hmem
  write c code buf hcode := by
    cases buf with
    | none => exact ⟨[], by simp, fun x => .nil _⟩
    | some buf => exact ⟨[.wrote code buf], by simpa using hcode, fun x => .wrote code buf (.nil _)⟩

theorem prefaces_writeHead (x : Relay) (session : ℕ) (r : Request) :
    Prefaces x.conn (x.writeHead session r).conn := headSteps_prefaces.writeHead x session r

/-! ## The window -/

/-- The payload of a DATA packet. -/
def Exchanged.data? : Exchanged → Option (List Byte)
  | .wrote code payload => if code = cseData then some payload else none
  | .heard _ => none

/-- The payloads of the DATA packets. -/
def dataOf (log : List Exchanged) : List (List Byte) := log.filterMap Exchanged.data?

/-- The number of ACK packets that were heard. -/
def acksOf (log : List Exchanged) : ℕ := log.count (.heard cseAck.toNat)

@[simp] theorem dataOf_append (log log' : List Exchanged) :
    dataOf (log ++ log') = dataOf log ++ dataOf log' := List.filterMap_append

@[simp] theorem dataOf_heard (codes : List ℤ) : dataOf (codes.map .heard) = [] := by
  induction codes with
  | nil => rfl
  | cons code codes ih => exact ih

@[simp] theorem dataOf_wrote_data (payload : List Byte) (log : List Exchanged) :
    dataOf (.wrote cseData payload :: log) = payload :: dataOf log := rfl

@[simp] theorem dataOf_wrote_end (payload : List Byte) (log : List Exchanged) :
    dataOf (.wrote cseEnd payload :: log) = dataOf log := rfl

@[simp] theorem acksOf_append (log log' : List Exchanged) :
    acksOf (log ++ log') = acksOf log + acksOf log' := List.count_append

@[simp] theorem acksOf_wrote (code : Byte) (payload : List Byte) (log : List Exchanged) :
    acksOf (.wrote code payload :: log) = acksOf log := List.count_cons_of_ne (by simp)

theorem acksOf_pos {codes : List ℤ} (h : (cseAck.toNat : ℤ) ∈ codes) :
    0 < acksOf (codes.map .heard) :=
  List.count_pos_iff.mpr (List.mem_map.mpr ⟨_, h, rfl⟩)

/-- At no point more than `k` blocks are on the way without an ACK. -/
def Window (k : ℕ) (log : List Exchanged) : Prop :=
  ∀ pre post, log = pre ++ post → (dataOf pre).length ≤ acksOf pre + k

theorem window_of_dataOf {log : List Exchanged} (h : dataOf log = []) (k : ℕ) : Window k log := by
  rintro pre post rfl
  rw [dataOf_append, List.append_eq_nil_iff] at h
  rw [h.1]
  exact Nat.zero_le _

theorem Window.append {k j : ℕ} {log log' : List Exchanged} (h : Window k log)
    (h' : Window j log') (hj : (dataOf log).length + j ≤ acksOf log + k) :
    Window k (log ++ log') := by
  intro pre post hsplit
  rcases List.append_eq_append_iff.mp hsplit with ⟨mid, rfl, hmid⟩ | ⟨mid, hmid, -⟩
  · have hrest := h' mid post hmid
    rw [dataOf_append, acksOf_append, List.length_append]
    omega
  · exact h pre mid hmid

theorem Window.wrote {log : List Exchanged} (h : Window 0 log) (payload : List Byte) :
    Window 1 (.wrote cseData payload :: log) := by
  intro pre post hsplit
  cases pre with
  | nil => exact Nat.zero_le _
  | cons e pre =>
      rw [List.cons_append, List.cons.injEq] at hsplit
      obtain ⟨rfl, hsplit⟩ := hsplit
      have hrest := h pre post hsplit
      rw [dataOf_wrote_data, acksOf_wrote, List.length_cons]
      omega

/-! ## The body -/

/-- The packets of a body: the blocks go out in order, at most `k` of them before the
first ACK, and all of them do if `complete` holds. -/
structure BodyFlow (k : ℕ) (blocks : List (List Byte)) (complete : Prop)
    (log : List Exchanged) : Prop where
  window : Window k log
  payloads : dataOf log <+: blocks
  all : complete → dataOf log = blocks
  noEnd : ∀ payload, .wrote cseEnd payload ∉ log

theorem noEnd_heard (codes : List ℤ) (payload : List Byte) :
    .wrote cseEnd payload ∉ codes.map Exchanged.heard := by
  simp

/-- A wait in which the sending stops. -/
theorem BodyFlow.heard {blocks : List (List Byte)} {complete : Prop} (codes : List ℤ)
    (h : ¬ complete) : BodyFlow 0 blocks complete (codes.map .heard) where
  window := window_of_dataOf (dataOf_heard codes) 0
  payloads := by
    rw [dataOf_heard]
    exact List.nil_prefix
  all hcomplete := absurd hcomplete h
  noEnd := noEnd_heard codes

/-- A block goes out before the others. -/
theorem BodyFlow.wrote {blocks : List (List Byte)} {complete : Prop} {log : List Exchanged}
    (h : BodyFlow 0 blocks complete log) (payload : List Byte) :
    BodyFlow 1 (payload :: blocks) complete (.wrote cseData payload :: log) where
  window := h.window.wrote payload
  payloads := (List.prefix_cons_inj payload).mpr h.payloads
  all hcomplete := by rw [dataOf_wrote_data, h.all hcomplete]
  noEnd other := by
    rw [List.mem_cons, not_or]
    exact ⟨by simp [cseEnd, cseData], h.noEnd other⟩

/-- An ACK lets the next block go out. -/
theorem BodyFlow.answered {blocks : List (List Byte)} {complete : Prop} {log : List Exchanged}
    {codes : List ℤ} (hack : (cseAck.toNat : ℤ) ∈ codes) (h : BodyFlow 1 blocks complete log) :
    BodyFlow 0 blocks complete (codes.map .heard ++ log) where
  window := by
    refine (window_of_dataOf (dataOf_heard codes) 0).append h.window ?_
    have := acksOf_pos hack
    rw [dataOf_heard, List.length_nil]
    omega
  payloads := by
    rw [dataOf_append, dataOf_heard]
    exact h.payloads
  all hcomplete := by
    rw [dataOf_append, dataOf_heard]
    exact h.all hcomplete
  noEnd payload := by
    rw [List.mem_append, not_or]
    exact ⟨noEnd_heard codes payload, h.noEnd payload⟩

theorem BodyFlow.imp {k : ℕ} {blocks : List (List Byte)} {complete complete' : Prop}
    {log : List Exchanged} (h : BodyFlow k blocks complete log) (himp : complete' → complete) :
    BodyFlow k blocks complete' log :=
  ⟨h.window, h.payloads, fun hcomplete => h.all (himp hcomplete), h.noEnd⟩

/-- The runner answers every block, and the browser does not fail. -/
def Completes (blocks : List Chunk) (x : Relay) (bs : List Byte) : Prop :=
  blocks.length ≤ acks (hear bs.length bs) ∧ .failed ∉ x.reply.writes

theorem bodyFlow_closed (junk : ℕ → Locals) (blocks : List Chunk) {x : Relay}
    (h : x.conn.stream.socket < 0) :
    BodyFlow 0 (blocks.map Chunk.bytes) (blocks = []) (bodyLog junk false blocks x) := by
  cases blocks with
  | nil => exact ⟨window_of_dataOf rfl 0, List.nil_prefix, fun _ => rfl, by simp [bodyLog]⟩
  | cons block blocks =>
      obtain ⟨hcode, hheard, -⟩ := sendData_closed cseAck (junk 0) h
      simp only [bodyLog, Bool.false_eq_true, if_false, hcode]
      rw [if_pos (Or.inl (by decide)), heardSince_append hheard, List.append_nil]
      exact .heard [-1] (by simp)

theorem acks_of_listen {bs codes rest : List Byte}
    (h : listen cseAck bs.length bs = (codes, none, rest)) : acks (hear bs.length bs) = 0 := by
  obtain ⟨rfl, hgo⟩ := (listen_codes h).2 rfl
  rw [hear_listen (Nat.le_refl _) h, acks_append]
  refine (Nat.add_eq_zero_iff).mpr ⟨?_, rfl⟩
  refine List.countP_eq_zero.mpr fun code hcode => ?_
  have hnot := hgo code hcode
  rw [stops_ack_iff, not_or] at hnot
  simpa using hnot.1

/-- The blocks behind the first one go out one by one, each after an ACK. -/
theorem bodyFlow_sendBody (junk : ℕ → Locals) (blocks : List Chunk) {x : Relay}
    (h : x.conn.Live) (hzero : 0 ∉ hear x.conn.pending.length x.conn.pending) :
    BodyFlow 0 (blocks.map Chunk.bytes) (Completes blocks x x.conn.pending)
      (bodyLog junk false blocks x) := by
  induction blocks generalizing junk x with
  | nil => exact ⟨window_of_dataOf rfl 0, List.nil_prefix, fun _ => rfl, by simp [bodyLog]⟩
  | cons block blocks ih =>
      have hheard := @sendData_heard cseAck (by decide) (junk 0) x h
      have hlost := @listen_of_lost cseAck (by decide) (x.conn.remaining + 1) (junk 0) x h
        (Nat.lt_succ_self _)
      have hsub := sendDataLoop_writes cseAck (x.conn.remaining + 1) (junk 0) x
      change (sendData cseAck (junk 0) x).1 = -1 → _ at hlost
      change (sendData cseAck (junk 0) x).2.reply.writes ⊆ _ at hsub
      rw [bodyLog]
      simp only [Bool.false_eq_true, if_false]
      generalize sendData cseAck (junk 0) x = answer at hheard hlost hsub ⊢
      obtain ⟨result, y⟩ := answer
      simp only at hheard hlost hsub ⊢
      cases hheard with
      | @stopped codes rest k listen heard leaves =>
          obtain ⟨hstop, pre, hpre, -⟩ := (listen_codes listen).1 k rfl
          have hacks := acks_hear_listen (Nat.le_refl _) listen
          have hhear := hear_listen (Nat.le_refl _) listen
          have hresult : ((k.toNat : ℤ) < 0 ∨ (k.toNat : ℤ) = cseEnd.toNat ∨
              (k.toNat : ℤ) = cseCloseCode.toNat) ↔ k = cseEnd ∨ k = cseCloseCode := by
            have : ¬ (k.toNat : ℤ) < 0 := by omega
            simp only [byte_cast_inj, this, false_or]
          rw [heardSince_append heard]
          by_cases hk : k = cseEnd ∨ k = cseCloseCode
          · rw [if_pos (hresult.mpr hk), List.append_nil]
            refine .heard _ fun hcomplete => ?_
            rw [Completes, hacks.1 hk, List.length_cons] at hcomplete
            omega
          · rw [if_neg (mt hresult.mp hk)]
            have hkzero : k ≠ 0 := by
              rintro rfl
              apply hzero
              rw [hhear, hpre]
              simp
            have hack : k = cseAck :=
              (((stops_ack_iff k).mp hstop).resolve_right hk).resolve_right hkzero
            have hmem : (cseAck.toNat : ℤ) ∈ asHeard codes := by
              refine List.mem_map.mpr ⟨cseAck, ?_, rfl⟩
              rw [hpre, hack]
              simp
            simp only [Option.some.injEq, if_neg hk] at hhear
            refine .answered hmem (.wrote ?_ block.bytes)
            cases leaves with
            | reading reads pending =>
                have hwrites := writes_cseWritePacket y.conn cseData block.bytes
                have hpending : (y.writePacket cseData block.bytes).conn.pending = rest :=
                  hwrites.pending.trans pending
                have hrest := @ih (fun k => junk (k + 1)) (y.writePacket cseData block.bytes)
                  (hwrites.live reads.live).1 (by
                    rw [hpending]
                    exact fun hmem => hzero (by rw [hhear]; simp [hmem]))
                refine hrest.imp fun hcomplete => ⟨?_, fun hfailed => hcomplete.2 (hsub hfailed)⟩
                have := hcomplete.1
                rw [hacks.2 hk, List.length_cons] at this
                rw [hpending]
                omega
            | closed socket rest =>
                refine (bodyFlow_closed _ blocks (writePacket_closed socket cseData _)).imp ?_
                intro hcomplete
                have := hcomplete.1
                subst rest
                rw [hacks.2 hk, List.length_cons] at this
                exact List.length_eq_zero_iff.mp (Nat.le_zero.mp (Nat.le_of_succ_le_succ this))
      | @lost codes failed failed_eq heard codes_go socket =>
          rw [if_pos (Or.inl (by decide)), List.append_nil]
          rw [List.append_assoc] at heard
          rw [heardSince_append heard]
          refine .heard _ fun hcomplete => ?_
          rcases hlost rfl with hnone | hfailed
          · have hacks := @acks_of_listen x.conn.pending _ _ (Prod.ext rfl (Prod.ext hnone rfl))
            rw [Completes, hacks, List.length_cons] at hcomplete
            omega
          · exact hcomplete.2 hfailed

/-! ## Waiting in `recv` -/

theorem send_waits (c : Conn) (bytes : List Byte) : (c.send bytes).2.os.waits = c.os.waits := by
  change (c.os.send c.stream.socket bytes).2.waits = c.os.waits
  unfold Os.send
  split
  · rfl
  · split <;> rfl

theorem cseFlush_waits (c : Conn) : (cseFlush c).2.os.waits = c.os.waits := by
  unfold cseFlush
  split
  · simp only
    split <;> exact send_waits c _
  · rfl

theorem recv_waits (c : Conn) : c.recv.os.waits = c.os.waits ++ [c.stream.writeBuf] := by
  unfold Conn.recv
  split <;> rfl

theorem cseWrite_waits (c : Conn) (buf : List Byte) :
    (cseWrite c buf).os.waits = c.os.waits := by
  have hroom : (makeRoom c).2.os.waits = c.os.waits := by
    unfold makeRoom
    split
    · exact send_waits c _
    · rfl
  unfold cseWrite
  split
  · simp only
    split
    · exact hroom
    · split
      · split <;> exact (send_waits _ _).trans hroom
      · exact hroom
  · rfl

/-- The second connection comes from the first, and in every `recv` on the way there was
nothing left to send. -/
def Flushed (c c' : Conn) : Prop :=
  ∃ waits, c'.os.waits = c.os.waits ++ waits ∧ ∀ unsent ∈ waits, unsent = []

theorem Flushed.of_eq {c c' : Conn} (h : c'.os.waits = c.os.waits) : Flushed c c' :=
  ⟨[], by rw [h, List.append_nil], by simp⟩

theorem Flushed.trans {c c' c'' : Conn} (h : Flushed c c') (h' : Flushed c' c'') :
    Flushed c c'' := by
  obtain ⟨waits, hwaits, hnil⟩ := h
  obtain ⟨waits', hwaits', hnil'⟩ := h'
  refine ⟨waits ++ waits', by rw [hwaits', hwaits, List.append_assoc], fun unsent hmem => ?_⟩
  exact (List.mem_append.mp hmem).elim (hnil unsent) (hnil' unsent)

/-- `cse_fill_buffer` comes to its `recv` only behind a flush that has sent everything. -/
theorem flushed_cseFillBuffer (c : Conn) : Flushed c (cseFillBuffer c).2 := by
  have hflush := cseFlush_waits c
  unfold cseFillBuffer
  split
  · exact .of_eq rfl
  · simp only
    split
    · exact .of_eq hflush
    · next hflushes =>
        have hempty : (cseFlush c).2.stream.writeBuf = [] := by
          rw [(cseFlush_of_flushes hflushes).1]
        have hrecv := recv_waits (cseFlush c).2
        rw [hempty, hflush] at hrecv
        split <;> exact ⟨[[]], hrecv, by simp⟩

theorem flushed_exec (op : StreamOp) (c : Conn) : Flushed c (op.exec c) := by
  cases op with
  | write buf => exact .of_eq (cseWrite_waits c buf)
  | flush => exact .of_eq (cseFlush_waits c)
  | fill => exact flushed_cseFillBuffer c
  | skip n => exact .of_eq rfl
  | close => exact .of_eq rfl

theorem Performs.flushed {bufs : List (List Byte)} {c c' : Conn} (h : Performs bufs c c') :
    Flushed c c' := by
  obtain ⟨ops, rfl, -⟩ := h
  induction ops generalizing c with
  | nil => exact .of_eq rfl
  | cons op ops ih => exact (flushed_exec op c).trans ih

theorem performs_writeResponseLoop (fuel len : ℕ) (c : Conn) (r : Reply) :
    Performs [] c (writeResponseLoop fuel len c r).2.1 := by
  induction fuel generalizing len c r with
  | zero => exact .refl c
  | succ fuel ih =>
      unfold writeResponseLoop
      split
      · exact .refl c
      · simp only
        split
        · exact performs_fillIfEmpty c
        · split
          · exact (performs_fillIfEmpty c).reads (performs_one .close _)
          · exact ((performs_fillIfEmpty c).reads (performs_one (.skip _) _)).reads (ih _ _ _)

theorem performs_handlePacket (code : ℤ) (len : ℕ) (m : Locals) (x : Relay) :
    Performs [] x.conn (handlePacket code len m x).2.2.conn := by
  have hread := performs_cseReadAll x.conn len
  unfold handlePacket
  split
  · exact hread
  · split
    · exact hread.reads (performs_cseReadString _ _ _)
    · split
      · exact performs_writeResponseLoop len len x.conn x.reply
      · split
        · exact .refl _
        · split
          · exact .refl _
          · split
            · exact .refl _
            · split
              · exact .refl _
              · exact hread

theorem performs_sendPacket (m : Locals) (x : Relay) :
    Performs [] x.conn (sendPacket m x).2.2.conn := by
  rw [sendPacket_eq]
  simp only
  split
  · exact performs_readHeader x.conn
  · exact (performs_readHeader x.conn).reads
      (performs_handlePacket _ _ m { x with conn := (readHeader x.conn).2.2.2.2, heard := _ })

/-- The buffers that the packets are written with. -/
def logBufs (log : List Exchanged) : List (List Byte) :=
  log.flatMap fun
    | .wrote code payload => packetBufs code payload
    | .heard _ => []

theorem Exchanges.performs {log : List Exchanged} {x y : Relay} (h : Exchanges log x y) :
    Performs (logBufs log) x.conn y.conn := by
  induction h with
  | nil x => exact .refl x.conn
  | @wrote log x y code payload _ ih => exact (performs_cseWritePacket x.conn code payload).trans ih
  | @heard log x y code m _ _ ih => exact (performs_sendPacket m x).reads ih

/-! ## The whole request -/

/-- The packets of a request: the blocks go out in order, at most one of them without an
ACK, and then one END packet. -/
structure FlowControlled (blocks : List (List Byte)) (complete : Prop)
    (log : List Exchanged) : Prop where
  window : Window 1 log
  payloads : dataOf log <+: blocks
  all : complete → dataOf log = blocks
  finished : ∃ before after, log = before ++ .wrote cseEnd [] :: after ∧
    (∀ payload, .wrote cseEnd payload ∉ before) ∧ ∀ e ∈ after, ∃ code, e = .heard code

theorem dataOf_head {head : List Exchanged}
    (h : ∀ e ∈ head, ∃ code payload, e = .wrote code payload ∧ code ∈ headCodes) :
    dataOf head = [] := by
  refine List.filterMap_eq_nil_iff.mpr fun e he => ?_
  obtain ⟨code, payload, rfl, hcode⟩ := h e he
  refine if_neg ?_
  rintro rfl
  exact absurd hcode (by decide)

theorem noEnd_head {head : List Exchanged}
    (h : ∀ e ∈ head, ∃ code payload, e = .wrote code payload ∧ code ∈ headCodes)
    (payload : List Byte) : .wrote cseEnd payload ∉ head := by
  intro hmem
  obtain ⟨code, payload', heq, hcode⟩ := h _ hmem
  cases heq
  exact absurd hcode (by decide)

/-- A body between the head of a request and its END. -/
theorem BodyFlow.flowControlled {blocks : List (List Byte)} {complete : Prop}
    {head log : List Exchanged} (h : BodyFlow 1 blocks complete log)
    (hhead : ∀ e ∈ head, ∃ code payload, e = .wrote code payload ∧ code ∈ headCodes)
    (codes : List ℤ) :
    FlowControlled blocks complete
      (head ++ (log ++ .wrote cseEnd [] :: codes.map .heard)) := by
  have hend : dataOf (.wrote cseEnd [] :: codes.map .heard) = [] := by
    rw [dataOf_wrote_end, dataOf_heard]
  have hdata : dataOf (head ++ (log ++ .wrote cseEnd [] :: codes.map .heard)) = dataOf log := by
    rw [dataOf_append, dataOf_append, dataOf_head hhead, hend, List.nil_append, List.append_nil]
  constructor
  · refine (window_of_dataOf (dataOf_head hhead) 1).append
      (h.window.append (window_of_dataOf hend 0) ?_) ?_
    · exact h.window log [] (List.append_nil _).symm
    · rw [dataOf_head hhead, List.length_nil]
      omega
  · rw [hdata]
    exact h.payloads
  · rw [hdata]
    exact h.all
  · refine ⟨head ++ log, codes.map .heard, by rw [List.append_assoc], ?_, ?_⟩
    · intro payload
      rw [List.mem_append, not_or]
      exact ⟨noEnd_head hhead payload, h.noEnd payload⟩
    · intro e he
      obtain ⟨code, -, rfl⟩ := List.mem_map.mp he
      exact ⟨code, rfl⟩

theorem Request.waits_eq (r : Request) : r.waits = r.body.length - 1 := by
  unfold Request.waits Request.body
  split <;> rfl

theorem bodyFlow_writeBody (junk : ℕ → Locals) (body : List Chunk) {x : Relay} (h : x.conn.Live)
    (hzero : 0 ∉ hear x.conn.pending.length x.conn.pending) :
    BodyFlow 1 (body.map Chunk.bytes)
      (body.length - 1 ≤ acks (hear x.conn.pending.length x.conn.pending) ∧
        .failed ∉ x.reply.writes)
      (bodyLog junk true body x) := by
  cases body with
  | nil => exact ⟨window_of_dataOf rfl 1, List.nil_prefix, fun _ => rfl, by simp [bodyLog]⟩
  | cons block blocks =>
      have hwrites := writes_cseWritePacket x.conn cseData block.bytes
      have hpending : (x.writePacket cseData block.bytes).conn.pending = x.conn.pending :=
        hwrites.pending
      rw [bodyLog, if_pos rfl]
      have hbody := @bodyFlow_sendBody junk blocks (x.writePacket cseData block.bytes)
        (hwrites.live h).1 (by rw [hpending]; exact hzero)
      rw [hpending] at hbody
      exact hbody.wrote block.bytes

end ModCaucho
