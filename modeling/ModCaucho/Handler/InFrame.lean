import ModCaucho.Handler.Copy
import ModCaucho.Handler.Effect
import ModCaucho.Handler.Exchange

/-!
# Packets and their payloads

The arms of `send_data` read the payload of their packet, each through a reader of its
own, but for FLUSH, KEEPALIVE and SEND_HEADER, which read nothing. So `send_data` stays
in step with the packets of the runner exactly as long as those three come without a
payload.
-/

namespace ModCaucho

open Framing

/-- The packets that are left behind the first one, a HEADER taking the next one with it. -/
def framesBehind : List Frame → Option (List Frame)
  | [] => none
  | p :: ps => if p.code = cseHeader then ps.tail? else some ps

/-- The codes of the packets of which only the header is read. -/
def Bare (code : Byte) : Prop :=
  code = cseFlushCode ∨ code = cseKeepalive ∨ code = cseSendHeader

instance (code : Byte) : Decidable (Bare code) := inferInstanceAs (Decidable (_ ∨ _))

/-- The codes behind which `send_data` reads on. -/
def Goes (ack : Byte) (code : ℤ) : Prop :=
  0 < code ∧ code ≠ cseEnd.toNat ∧ code ≠ cseCloseCode.toNat ∧ code ≠ ack.toNat

/-- `send_data` stays in step with these packets for so many rounds: a packet that it
handles is read to its end, and then the next one is handled. -/
def InFrame (ack : Byte) : ℕ → Locals → Relay → List Frame → Prop
  | 0, _, _, _ => True
  | fuel + 1, m, x, ps =>
      ∀ p rest, ps.head? = some p → framesBehind ps = some rest →
        ((sendPacket m x).1 = p.code.toNat →
          (sendPacket m x).2.2.conn.Ready ∧
            (sendPacket m x).2.2.conn.available = encodeAll rest) ∧
          (Goes ack (sendPacket m x).1 →
            InFrame ack fuel (sendPacket m x).2.1 (sendPacket m x).2.2 rest)

/-- `send_data` stays in step with these packets, however they come and whatever the
browser does. -/
def StaysInFrame (ack : Byte) (ps : List Frame) : Prop :=
  ∀ (m : Locals) (x : Relay), x.conn.Ready → x.conn.available = encodeAll ps →
    InFrame ack ps.length m x ps

/-- No packet that comes up to the one to stop at has a payload that is not read. -/
def NoneUnread (ack : Byte) : List Frame → Prop
  | [] => True
  | [p] => Bare p.code → p.payload = []
  | p :: q :: ps =>
      (Bare p.code → p.payload = []) ∧
        (Stops ack p.code ∨ if p.code = cseHeader then NoneUnread ack ps
          else NoneUnread ack (q :: ps))

theorem ne_header_of_bare {code : Byte} (h : Bare code) : code ≠ cseHeader := by
  rintro rfl
  exact absurd h (by decide)

theorem noneUnread_cons (ack : Byte) (p : Frame) (ps : List Frame) :
    NoneUnread ack (p :: ps) ↔
      (Bare p.code → p.payload = []) ∧
        (Stops ack p.code ∨ ∀ rest, framesBehind (p :: ps) = some rest → NoneUnread ack rest) := by
  cases ps with
  | nil =>
      by_cases hheader : p.code = cseHeader <;> simp [NoneUnread, framesBehind, hheader]
  | cons q ps =>
      by_cases hheader : p.code = cseHeader <;> simp [NoneUnread, framesBehind, hheader]

/-! ## One packet -/

/-- The connection does not depend on the reply, unless a body is copied to it. -/
theorem handlePacket_reply {code : Byte} (hdata : code ≠ cseData) (len : ℕ) (m : Locals)
    (x : Relay) (reply : Reply) :
    (handlePacket code.toNat len m { x with reply := reply }).1 =
        (handlePacket code.toNat len m x).1 ∧
      (handlePacket code.toNat len m { x with reply := reply }).2.2.conn =
        (handlePacket code.toNat len m x).2.2.conn := by
  unfold handlePacket
  simp only [byte_cast_inj, if_neg hdata]
  repeat' split
  all_goals exact ⟨rfl, rfl⟩

/-- A packet that is there as a whole is read to its end, unless its copying fails. -/
theorem handlePacket_whole (code : Byte) {len : ℕ} (m : Locals) {x : Relay} (h : x.conn.Ready)
    {rest : List Byte} (hrest : behind? code len x.conn.available = some rest) :
    (handlePacket code.toNat len m x).1 = code.toNat ∧
        Proceeds x.conn (handlePacket code.toNat len m x).2.2.conn (some rest) ∨
      code = cseData ∧ (handlePacket code.toNat len m x).1 = -1 := by
  by_cases hdata : code = cseData
  · subst hdata
    rw [behind?_of_ne (by decide) (by decide)] at hrest
    rw [handlePacket_data]
    rcases writeResponseLoop_stream (Nat.le_refl len) h x.reply with
      ⟨hone, henough, hproceeds⟩ | hlost
    · rw [after_of_le henough, Option.some_inj] at hrest
      rw [hone, ← hrest]
      exact Or.inl ⟨rfl, hproceeds⟩
    · rw [hlost]
      exact Or.inr ⟨rfl, rfl⟩
  · obtain ⟨hcode, hconn⟩ := handlePacket_reply hdata len m x ⟨[], []⟩
    obtain ⟨hcode', -, -, -, -, hproceeds⟩ := @handlePacket_ready code len m
      { x with reply := ⟨[], []⟩ } h rfl (Or.inr fun _ => by rw [hrest]; rfl)
    rw [hrest, hconn] at hproceeds
    rw [← hcode, hcode', if_neg fun hboth => hdata hboth.2]
    exact Or.inl ⟨rfl, hproceeds⟩

theorem after_append (bs rest : List Byte) : after bs.length (bs ++ rest) = some rest := by
  rw [after_of_le (by simp), List.drop_left]

/-- What is left of the bytes behind the header of a packet. -/
theorem behind?_frame {p : Frame} {ps rest : List Frame} (hsized : ∀ q ∈ ps, q.Sized)
    (hrest : framesBehind (p :: ps) = some rest) :
    behind? p.code p.payload.length (p.payload ++ encodeAll ps) =
      some (if Bare p.code then p.payload ++ encodeAll ps else encodeAll rest) := by
  rw [framesBehind] at hrest
  unfold behind?
  by_cases hheader : p.code = cseHeader
  · have hbare : ¬ Bare p.code := by
      rw [hheader]
      decide
    rw [if_pos hheader] at hrest
    rw [if_pos hheader, if_neg hbare, after_append, Option.bind_some]
    cases ps with
    | nil => cases hrest
    | cons q ps =>
        rw [List.tail?_cons, Option.some_inj] at hrest
        subst hrest
        have hq := ofBe24_be24 (hsized q List.mem_cons_self)
        rw [encodeAll_cons, encode, List.append_assoc]
        change after (ofBe24 _ _ _) (q.payload ++ encodeAll ps) = _
        rw [hq, after_append]
  · rw [if_neg hheader] at hrest
    cases hrest
    rw [if_neg hheader]
    change (if Bare p.code then some (p.payload ++ encodeAll ps) else _) = _
    by_cases hbare : Bare p.code
    · rw [if_pos hbare, if_pos hbare]
    · rw [if_neg hbare, if_neg hbare, after_append]

/-- The header of a frame is read, and then its packet is handled. -/
theorem sendPacket_framed (m : Locals) {x : Relay} (h : x.conn.Ready) {p : Frame}
    {ps rest : List Frame} (hsized : ∀ q ∈ p :: ps, q.Sized)
    (havail : x.conn.available = encodeAll (p :: ps)) (hrest : framesBehind (p :: ps) = some rest) :
    ∃ c', Proceeds x.conn c' (some (p.payload ++ encodeAll ps)) ∧
      behind? p.code p.payload.length c'.available =
        some (if Bare p.code then p.payload ++ encodeAll ps else encodeAll rest) ∧
      sendPacket m x = handlePacket p.code.toNat p.payload.length m
        { x with conn := c', heard := x.heard ++ [(p.code.toNat : ℤ)] } := by
  have hlen := ofBe24_be24 (hsized p List.mem_cons_self)
  rw [encodeAll_cons, encode, List.append_assoc] at havail
  obtain ⟨c', hheader, hround⟩ := sendPacket_ready m h havail
  have hheader : Proceeds x.conn c' (some (p.payload ++ encodeAll ps)) := hheader
  rw [hlen] at hround
  refine ⟨c', hheader, ?_, hround⟩
  rw [hheader.2.1]
  exact behind?_frame (fun q hq => hsized q (List.mem_cons_of_mem _ hq)) hrest

/-- One round of `send_data` on a packet that is there as a whole. -/
theorem sendPacket_frame (m : Locals) {x : Relay} (h : x.conn.Ready) {p : Frame}
    {ps rest : List Frame} (hsized : ∀ q ∈ p :: ps, q.Sized)
    (havail : x.conn.available = encodeAll (p :: ps)) (hrest : framesBehind (p :: ps) = some rest) :
    (sendPacket m x).1 = p.code.toNat ∧
        Proceeds x.conn (sendPacket m x).2.2.conn
          (some (if Bare p.code then p.payload ++ encodeAll ps else encodeAll rest)) ∨
      p.code = cseData ∧ (sendPacket m x).1 = -1 := by
  obtain ⟨c', hheader, hbehind, hround⟩ := sendPacket_framed m h hsized havail hrest
  rw [hround]
  rcases @handlePacket_whole p.code p.payload.length m
      { x with conn := c', heard := x.heard ++ [(p.code.toNat : ℤ)] } hheader.1 _ hbehind with
    ⟨hcode, hproceeds⟩ | hlost
  · exact Or.inl ⟨hcode, hheader.append hproceeds⟩
  · exact Or.inr hlost

/-! ## The whole sequence -/

theorem framesBehind_length {ps rest : List Frame} (hrest : framesBehind ps = some rest) :
    rest.length < ps.length := by
  cases ps with
  | nil => cases hrest
  | cons p ps =>
      rw [framesBehind] at hrest
      split at hrest
      · cases ps with
        | nil => cases hrest
        | cons q ps =>
            cases hrest
            simp only [List.length_cons]
            omega
      · cases hrest
        exact Nat.lt_succ_self _

theorem framesBehind_subset {ps rest : List Frame} (hrest : framesBehind ps = some rest) :
    rest ⊆ ps := by
  cases ps with
  | nil => cases hrest
  | cons p ps =>
      rw [framesBehind] at hrest
      split at hrest
      · cases ps with
        | nil => cases hrest
        | cons q ps =>
            cases hrest
            exact fun f hf => List.mem_cons_of_mem _ (List.mem_cons_of_mem _ hf)
      · cases hrest
        exact List.subset_cons_self p _

theorem goes_iff (ack code : Byte) : Goes ack (code.toNat : ℤ) ↔ ¬ Stops ack code := by
  have hpos : (0 : ℤ) < (code.toNat : ℤ) ↔ code ≠ 0 := by
    rw [ne_eq, ← UInt8.toNat_inj]
    change _ ↔ ¬ code.toNat = 0
    omega
  simp only [Goes, Stops, not_or, hpos, ne_eq, byte_cast_inj]

/-- The packets whose payloads are all read keep `send_data` in step. -/
theorem inFrame_of_noneUnread (ack : Byte) (fuel : ℕ) (m : Locals) {x : Relay}
    (h : x.conn.Ready) {ps : List Frame} (hsized : ∀ p ∈ ps, p.Sized)
    (havail : x.conn.available = encodeAll ps) (hread : NoneUnread ack ps) :
    InFrame ack fuel m x ps := by
  induction fuel generalizing m x ps with
  | zero => trivial
  | succ fuel ih =>
      cases ps with
      | nil =>
          intro p rest hfirst
          cases hfirst
      | cons p ps =>
          intro p' rest hfirst hrest
          cases hfirst
          obtain ⟨hbare, hbehind⟩ := (noneUnread_cons ack p ps).mp hread
          have hleft : (if Bare p.code then p.payload ++ encodeAll ps else encodeAll rest) =
              encodeAll rest := by
            by_cases hb : Bare p.code
            · rw [framesBehind, if_neg (ne_header_of_bare hb)] at hrest
              cases hrest
              rw [if_pos hb, hbare hb, List.nil_append]
            · rw [if_neg hb]
          rcases sendPacket_frame m h hsized havail hrest with ⟨hcode, hproceeds⟩ | ⟨hdata, hlost⟩
          · rw [hleft] at hproceeds
            refine ⟨fun _ => ⟨hproceeds.1, hproceeds.2.1⟩, fun hgoes => ?_⟩
            rw [hcode] at hgoes
            exact ih _ hproceeds.1 (fun q hq => hsized q (framesBehind_subset hrest hq))
              hproceeds.2.1 (hbehind.resolve_left ((goes_iff ack p.code).mp hgoes) rest hrest)
          · refine ⟨fun hcode => ?_, fun hgoes => ?_⟩
            · rw [hlost] at hcode
              omega
            · rw [hlost] at hgoes
              exact absurd hgoes.1 (by decide)

/-- A browser that takes everything: then the round on a whole packet does not fail. -/
theorem sendPacket_polite (m : Locals) {x : Relay} (h : x.conn.Ready) (hr : x.reply.writes = [])
    {p : Frame} {ps rest : List Frame} (hsized : ∀ q ∈ p :: ps, q.Sized)
    (havail : x.conn.available = encodeAll (p :: ps)) (hrest : framesBehind (p :: ps) = some rest) :
    (sendPacket m x).1 = p.code.toNat ∧ (sendPacket m x).2.2.reply.writes = [] := by
  obtain ⟨c', hheader, hbehind, hround⟩ := sendPacket_framed m h hsized havail hrest
  obtain ⟨hcode, -, -, hwrites, -⟩ := @handlePacket_ready p.code p.payload.length m
    { x with conn := c', heard := x.heard ++ [(p.code.toNat : ℤ)] } hheader.1 hr
    (Or.inr fun _ => by rw [hbehind]; rfl)
  rw [hround]
  refine ⟨?_, hwrites⟩
  rw [hcode, hbehind, if_neg fun hboth => by cases hboth.1]

/-- Only such packets keep it in step. -/
theorem noneUnread_of_inFrame (ack : Byte) (fuel : ℕ) (m : Locals) {x : Relay}
    (h : x.conn.Ready) (hr : x.reply.writes = []) {ps : List Frame}
    (hfuel : ps.length ≤ fuel) (hsized : ∀ p ∈ ps, p.Sized)
    (havail : x.conn.available = encodeAll ps) (hin : InFrame ack fuel m x ps) :
    NoneUnread ack ps := by
  induction fuel generalizing m x ps with
  | zero =>
      rw [List.eq_nil_of_length_eq_zero (Nat.le_zero.mp hfuel)]
      trivial
  | succ fuel ih =>
      cases ps with
      | nil => trivial
      | cons p ps =>
          rw [noneUnread_cons]
          cases hrest : framesBehind (p :: ps) with
          | none =>
              refine ⟨fun hbare => ?_, Or.inr fun rest hsome => by cases hsome⟩
              rw [framesBehind, if_neg (ne_header_of_bare hbare)] at hrest
              cases hrest
          | some rest =>
              obtain ⟨hstays, hgoes⟩ := hin p rest rfl hrest
              obtain ⟨hcode, hwrites⟩ := sendPacket_polite m h hr hsized havail hrest
              obtain ⟨hready, hleft⟩ := hstays hcode
              constructor
              · intro hbare
                rcases sendPacket_frame m h hsized havail hrest with ⟨-, hproceeds⟩ | ⟨-, hlost⟩
                · rw [framesBehind, if_neg (ne_header_of_bare hbare)] at hrest
                  cases hrest
                  rw [if_pos hbare] at hproceeds
                  exact List.append_left_eq_self.mp (hproceeds.2.1.symm.trans hleft)
                · rw [hcode] at hlost
                  omega
              · by_cases hstop : Stops ack p.code
                · exact Or.inl hstop
                · right
                  intro rest' hsome
                  cases hsome
                  have hshort := framesBehind_length hrest
                  rw [hcode] at hgoes
                  exact ih _ hready hwrites (by omega)
                    (fun q hq => hsized q (framesBehind_subset hrest hq)) hleft
                    (hgoes ((goes_iff ack p.code).mpr hstop))

/-- Any bytes come in some chunks. -/
theorem exists_chunks (bs : List Byte) :
    ∃ chunks : List Chunk, (exchangeWith chunks).conn.pending = bs := by
  refine ⟨bs.map fun b => ⟨[b], by simp, by simp [bufLength]⟩, ?_⟩
  simp only [exchangeWith, Conn.pending, List.map_map]
  induction bs with
  | nil => rfl
  | cons b bs ih => exact congrArg (b :: ·) ih

theorem noneUnread_of_staysInFrame (ack : Byte) {ps : List Frame} (hsized : ∀ p ∈ ps, p.Sized)
    (hstays : StaysInFrame ack ps) : NoneUnread ack ps := by
  obtain ⟨chunks, hchunks⟩ := exists_chunks (encodeAll ps)
  have hlive := exchangeWith_live chunks
  have havail := hlive.available.trans hchunks
  exact noneUnread_of_inFrame ack ps.length (zeroed 0) hlive.ready rfl (Nat.le_refl _) hsized
    havail (hstays (zeroed 0) _ hlive.ready havail)

/-- `send_data` stays in step with packets that come as a whole if and only if no FLUSH,
KEEPALIVE or SEND_HEADER packet among those it reads has a payload. -/
theorem staysInFrame_iff (ack : Byte) {ps : List Frame}
    (hsmall : ∀ p ∈ ps, p.code ≠ 0 ∧ p.payload.length ≤ bufLength) :
    StaysInFrame ack ps ↔ NoneUnread ack ps := by
  have hsized : ∀ p ∈ ps, p.Sized := fun p hp => Nat.lt_of_le_of_lt (hsmall p hp).2 (by decide)
  refine ⟨noneUnread_of_staysInFrame ack hsized, fun hread m x h havail => ?_⟩
  exact inFrame_of_noneUnread ack ps.length m h hsized havail hread

/-- A header, an unknown packet, a flush and the end of the response. -/
def framedPackets : List Frame :=
  [⟨cseHeader, [65]⟩, ⟨cseValue, [66]⟩, ⟨1, [67]⟩, ⟨cseFlushCode, []⟩, ⟨cseEnd, []⟩]

theorem staysInFrame_iff_framed :
    StaysInFrame cseEnd framedPackets ↔ NoneUnread cseEnd framedPackets :=
  staysInFrame_iff cseEnd (by decide)

/-- The payload of the FLUSH packet is read as an END packet. -/
def hiddenEnd : List Frame := [⟨cseFlushCode, [cseEnd, 0, 0, 0]⟩]

theorem not_staysInFrame_hiddenEnd :
    ¬ ∀ (ack : Byte) (ps : List Frame),
      (∀ p ∈ ps, p.code ≠ 0 ∧ p.payload.length ≤ bufLength) → StaysInFrame ack ps := by
  intro hclaim
  have hread := noneUnread_of_staysInFrame cseEnd (by simp [hiddenEnd, Frame.Sized])
    (hclaim cseEnd hiddenEnd (by decide))
  have hempty : [cseEnd, 0, 0, 0] = ([] : List Byte) := hread (Or.inl rfl)
  cases hempty

end ModCaucho
