import ModCaucho.Handler.Request
import ModCaucho.Stream.Read

/-!
# What `send_data` hears

The packets that `send_data` handles are determined by the bytes that the runner
sends. `listen` says which ones on the byte string alone, up to the packet that
stops the loop, and what is left behind it. It follows the code: a HEADER packet
takes the packet behind it for its value, and FLUSH, KEEPALIVE and SEND_HEADER
leave their payload to be taken for packets. On a connection whose sends succeed
`send_data` hears what `listen` says, or a part of it before the connection is
lost.
-/

namespace ModCaucho

open Framing

theorem byte_cast_inj (a b : Byte) : (a.toNat : ℤ) = (b.toNat : ℤ) ↔ a = b := by
  rw [Int.ofNat_inj, UInt8.toNat_inj]

/-- A DATA packet is copied to the browser. -/
theorem handlePacket_data (len : ℕ) (m : Locals) (x : Relay) :
    handlePacket cseData.toNat len m x =
      ((if (writeResponseLoop len len x.conn x.reply).1 < 0 then -1 else (cseData.toNat : ℤ)), m,
        { x with
          conn := (writeResponseLoop len len x.conn x.reply).2.1
          reply := (writeResponseLoop len len x.conn x.reply).2.2 }) := by
  unfold handlePacket
  rw [if_neg (by decide), if_neg (by decide), if_pos rfl, cseWriteResponse]

/-! ## Packets in a byte string -/

/-- What is left of the bytes behind a packet header once the packet is handled. -/
def behind (code : Byte) (len : ℕ) (bs : List Byte) : List Byte :=
  if code = cseHeader then behindString (bs.drop len)
  else if code = cseFlushCode ∨ code = cseKeepalive ∨ code = cseSendHeader then bs
  else bs.drop len

/-- The code of the packet at the front of a byte string, and what is left behind
the packet. -/
def packet? : List Byte → Option (Byte × List Byte)
  | code :: b₁ :: b₂ :: b₃ :: bs => some (code, behind code (ofBe24 b₁ b₂ b₃) bs)
  | _ => none

theorem packet?_of_short {bs : List Byte} (h : bs.length < 4) : packet? bs = none := by
  match bs, h with
  | [], _ => rfl
  | [_], _ => rfl
  | [_, _], _ => rfl
  | [_, _, _], _ => rfl

theorem length_behindString_le (bs : List Byte) : (behindString bs).length ≤ bs.length := by
  unfold behindString
  split
  · simp only [List.length_cons, List.length_drop]
    omega
  · exact Nat.zero_le _

theorem packet?_length {bs rest : List Byte} {code : Byte} (h : packet? bs = some (code, rest)) :
    rest.length + 4 ≤ bs.length := by
  unfold packet? at h
  split at h
  · next b₁ b₂ b₃ bs =>
      simp only [Option.some.injEq, Prod.mk.injEq] at h
      obtain ⟨-, rfl⟩ := h
      have hstring := length_behindString_le (bs.drop (ofBe24 b₁ b₂ b₃))
      unfold behind
      split
      · simp only [List.length_drop, List.length_cons] at hstring ⊢
        omega
      · split
        · exact Nat.le_refl _
        · simp only [List.length_drop, List.length_cons]
          omega
  · cases h

/-- The codes that end `send_data` when it waits for `ack`. -/
def Stops (ack code : Byte) : Prop := code = 0 ∨ code = cseEnd ∨ code = cseCloseCode ∨ code = ack

instance (ack code : Byte) : Decidable (Stops ack code) := inferInstanceAs (Decidable (_ ∨ _))

/-- The codes of the packets up to the one that stops `send_data`, this code, and the
bytes behind it. There is no such packet when the bytes end before. -/
def listen (ack : Byte) : ℕ → List Byte → List Byte × Option Byte × List Byte
  | 0, _ => ([], none, [])
  | n + 1, bs =>
      match packet? bs with
      | none => ([], none, [])
      | some (code, rest) =>
          if Stops ack code then ([code], some code, rest)
          else
            let (codes, stop, rest) := listen ack n rest
            (code :: codes, stop, rest)

theorem listen_none {ack : Byte} {n : ℕ} {bs : List Byte} (h : packet? bs = none) :
    listen ack n bs = ([], none, []) := by
  cases n with
  | zero => rfl
  | succ n => simp [listen, h]

theorem listen_stop {ack code : Byte} {n : ℕ} {bs rest : List Byte}
    (h : packet? bs = some (code, rest)) (hstop : Stops ack code) :
    listen ack (n + 1) bs = ([code], some code, rest) := by
  simp [listen, h, hstop]

theorem listen_go {ack code : Byte} {n : ℕ} {bs rest : List Byte}
    (h : packet? bs = some (code, rest)) (hgo : ¬ Stops ack code) :
    listen ack (n + 1) bs =
      (code :: (listen ack n rest).1, (listen ack n rest).2.1, (listen ack n rest).2.2) := by
  simp [listen, h, hgo]

/-- Looking for packets as far as there are bytes is as good as looking further. -/
theorem listen_fuel {ack : Byte} {n m : ℕ} {bs : List Byte} (hn : bs.length ≤ n)
    (hm : bs.length ≤ m) : listen ack n bs = listen ack m bs := by
  induction n generalizing m bs with
  | zero =>
      have hnil : packet? bs = none := packet?_of_short (by omega)
      rw [listen_none hnil, listen_none hnil]
  | succ n ih =>
      cases hp : packet? bs with
      | none => rw [listen_none hp, listen_none hp]
      | some found =>
          obtain ⟨code, rest⟩ := found
          have hlen := packet?_length hp
          obtain ⟨m, rfl⟩ : ∃ k, m = k + 1 := ⟨m - 1, by omega⟩
          by_cases hstop : Stops ack code
          · rw [listen_stop hp hstop, listen_stop hp hstop]
          · rw [listen_go hp hstop, listen_go hp hstop, @ih m rest (by omega) (by omega)]

/-- Only the last code that is heard stops the loop. -/
theorem listen_codes {ack : Byte} {n : ℕ} {bs codes rest : List Byte} {stop : Option Byte}
    (h : listen ack n bs = (codes, stop, rest)) :
    (∀ k, stop = some k → Stops ack k ∧ ∃ pre, codes = pre ++ [k] ∧ ∀ c ∈ pre, ¬ Stops ack c) ∧
      (stop = none → rest = [] ∧ ∀ c ∈ codes, ¬ Stops ack c) := by
  induction n generalizing bs codes with
  | zero =>
      cases h
      simp
  | succ n ih =>
      cases hp : packet? bs with
      | none =>
          rw [listen_none hp] at h
          cases h
          simp
      | some found =>
          obtain ⟨code, rest'⟩ := found
          by_cases hstop : Stops ack code
          · rw [listen_stop hp hstop] at h
            cases h
            refine ⟨?_, by simp⟩
            rintro k ⟨⟩
            exact ⟨hstop, [], rfl, by simp⟩
          · rw [listen_go hp hstop] at h
            cases h
            obtain ⟨hsome, hnone⟩ := @ih rest' _ rfl
            constructor
            · intro k hk
              obtain ⟨hk, pre, hpre, hall⟩ := hsome k hk
              exact ⟨hk, code :: pre, by rw [hpre]; rfl, by simpa [hstop] using hall⟩
            · intro hk
              obtain ⟨hrest, hall⟩ := hnone hk
              exact ⟨hrest, by simpa [hstop] using hall⟩

/-! ## One packet -/

theorem writeResponseLoop_spec {fuel len : ℕ} (hfuel : len ≤ fuel) {c : Conn} (h : c.Live)
    (r : Reply) :
    ((writeResponseLoop fuel len c r).1 = 1 ∧
        Leaves (c.pending.drop len) c (writeResponseLoop fuel len c r).2.1) ∨
      (writeResponseLoop fuel len c r).1 = -1 ∧
        (writeResponseLoop fuel len c r).2.1.stream.socket < 0 := by
  induction fuel generalizing len c r with
  | zero =>
      obtain rfl : len = 0 := by omega
      exact Or.inl ⟨rfl, .reading (Reads.refl h) rfl⟩
  | succ fuel ih =>
      unfold writeResponseLoop
      by_cases hlen : len = 0
      · subst hlen
        exact Or.inl ⟨rfl, .reading (Reads.refl h) rfl⟩
      · rw [if_neg hlen]
        rcases fillIfEmpty_spec h with ⟨hfst, hlive, hreads⟩ | ⟨hfst, hsocket, -⟩
        · have hpos := buffered_pos_of_fillIfEmpty hfst
          simp only [if_neg hfst]
          generalize hc : (fillIfEmpty c).2 = c' at *
          generalize hk : min len c'.stream.buffered = k at *
          obtain ⟨ms, hms⟩ := hreads k (by omega) (by omega)
          split
          · exact Or.inr ⟨rfl, by simp [cseClose]⟩
          · have htake : (c'.stream.unread.take k).length = k := by
              rw [List.length_take, hlive.length_unread]
              omega
            have hdrop : (c'.advance k).pending.drop (len - k) = c.pending.drop len := by
              have hnil : (c'.stream.unread.take k).drop len = [] :=
                List.drop_eq_nil_of_le (by omega)
              rw [hms.pending, List.drop_append, hnil, htake, List.nil_append]
            rw [← hdrop]
            rcases @ih (len - k) (by omega) (c'.advance k) hms.live _ with ⟨hone, hleaves⟩ | hlost
            · exact Or.inl ⟨hone, .of_reads hms hleaves⟩
            · exact Or.inr hlost
        · simp only [if_pos hfst]
          exact Or.inr ⟨trivial, hsocket⟩

/-- `send_data` on a packet of a live connection: the packet is handled and what is
behind it is left, or a DATA packet could not be copied and the connection is lost. -/
theorem handlePacket_spec (code : Byte) (len : ℕ) (m : Locals) {x : Relay} (h : x.conn.Live) :
    (handlePacket code.toNat len m x).2.2.heard = x.heard ∧
      ((handlePacket code.toNat len m x).1 = code.toNat ∧
          Leaves (behind code len x.conn.pending) x.conn
            (handlePacket code.toNat len m x).2.2.conn ∨
        code = cseData ∧ (handlePacket code.toNat len m x).1 = -1 ∧
          (handlePacket code.toNat len m x).2.2.conn.stream.socket < 0) := by
  have hnot : (code.toNat : ℤ) ≠ -1 := by omega
  have hread := cseReadAll_leaves len h
  have hkeep : Leaves x.conn.pending x.conn x.conn := .reading (Reads.refl h) rfl
  unfold handlePacket behind
  simp only [byte_cast_inj, if_neg hnot]
  by_cases hstatus : code = cseStatus
  · subst hstatus
    exact ⟨rfl, Or.inl ⟨rfl, hread⟩⟩
  · simp only [if_neg hstatus]
    by_cases hheader : code = cseHeader
    · simp only [if_pos hheader]
      refine ⟨trivial, Or.inl ⟨trivial, hread.trans ?_ ?_ ?_⟩⟩
      · intro hlive hpending
        rw [← hpending]
        exact cseReadString_leaves m.value localLength hlive
      · exact cseReadString_closed m.value localLength
      · intro hnil
        rw [hnil]
        rfl
    · simp only [if_neg hheader]
      by_cases hdata : code = cseData
      · subst hdata
        simp only [if_true]
        rcases writeResponseLoop_spec (Nat.le_refl len) h x.reply with ⟨hone, hleaves⟩ | hlost
        · refine ⟨trivial, Or.inl ⟨?_, hleaves⟩⟩
          rw [cseWriteResponse, hone]
          rfl
        · refine ⟨trivial, Or.inr ⟨trivial, ?_, hlost.2⟩⟩
          rw [cseWriteResponse, hlost.1]
          rfl
      · simp only [if_neg hdata]
        by_cases hflush : code = cseFlushCode
        · rw [if_pos (Or.inl hflush)]
          simp only [if_pos hflush]
          exact ⟨trivial, Or.inl ⟨trivial, hkeep⟩⟩
        · simp only [if_neg hflush]
          by_cases hkeepalive : code = cseKeepalive
          · rw [if_pos (Or.inr (Or.inl hkeepalive))]
            simp only [if_pos hkeepalive]
            exact ⟨trivial, Or.inl ⟨trivial, hkeep⟩⟩
          · simp only [if_neg hkeepalive]
            by_cases hsend : code = cseSendHeader
            · rw [if_pos (Or.inr (Or.inr hsend))]
              simp only [if_pos hsend]
              exact ⟨trivial, Or.inl ⟨trivial, hkeep⟩⟩
            · have hnone :
                  ¬ (code = cseFlushCode ∨ code = cseKeepalive ∨ code = cseSendHeader) := by
                simp [hflush, hkeepalive, hsend]
              simp only [if_neg hsend, if_neg hnone]
              exact ⟨trivial, Or.inl ⟨trivial, hread⟩⟩

theorem sendPacket_eq (m : Locals) (x : Relay) :
    sendPacket m x =
      let (code, l1, l2, l3, c) := readHeader x.conn
      let len := low8 l1 * 65536 + low8 l2 * 256 + low8 l3
      if c.stream.socket < 0 then (-1, m, { x with conn := c, heard := x.heard ++ [-1] })
      else handlePacket code len m { x with conn := c, heard := x.heard ++ [code] } := rfl

theorem sendPacket_closed (m : Locals) {x : Relay} (h : x.conn.stream.socket < 0) :
    (sendPacket m x).1 = -1 ∧ (sendPacket m x).2.2.heard = x.heard ++ [-1] ∧
      (sendPacket m x).2.2.conn.stream.socket < 0 := by
  have hclosed := readHeader_closed h
  rw [sendPacket_eq]
  simp only [if_pos hclosed]
  exact ⟨trivial, trivial, hclosed⟩

/-- One round of `send_data` on a live connection. -/
theorem sendPacket_spec (m : Locals) {x : Relay} (h : x.conn.Live) :
    match packet? x.conn.pending with
    | none => (sendPacket m x).1 = -1 ∧ (sendPacket m x).2.2.heard = x.heard ++ [-1] ∧
        (sendPacket m x).2.2.conn.stream.socket < 0
    | some (code, rest) => (sendPacket m x).2.2.heard = x.heard ++ [(code.toNat : ℤ)] ∧
        ((sendPacket m x).1 = code.toNat ∧ Leaves rest x.conn (sendPacket m x).2.2.conn ∨
          code = cseData ∧ (sendPacket m x).1 = -1 ∧
            (sendPacket m x).2.2.conn.stream.socket < 0) := by
  rw [sendPacket_eq]
  rcases readHeader_spec h with
    ⟨code, b₁, b₂, b₃, rest, ms, c', hpending, hheader, hreads, hrest⟩ | ⟨hshort, hclosed⟩
  · have hopen : ¬ c'.stream.socket < 0 := by
      have := hreads.live.socket
      omega
    simp only [hpending, packet?, hheader, if_neg hopen, low8_toNat]
    obtain ⟨hheard, hresult⟩ := handlePacket_spec code (ofBe24 b₁ b₂ b₃) m
      (x := { x with conn := c', heard := x.heard ++ [(code.toNat : ℤ)] }) hreads.live
    rw [hrest] at hresult
    refine ⟨hheard, ?_⟩
    rcases hresult with ⟨hcode, hleaves⟩ | hlost
    · exact Or.inl ⟨hcode, .of_reads hreads hleaves⟩
    · exact Or.inr hlost
  · rw [packet?_of_short hshort]
    simp only [if_pos hclosed]
    exact ⟨trivial, trivial, hclosed⟩

/-! ## The loop -/

theorem writeResponseLoop_remaining (fuel len : ℕ) (c : Conn) (r : Reply) :
    (writeResponseLoop fuel len c r).2.1.remaining ≤ c.remaining := by
  induction fuel generalizing len c r with
  | zero => exact Nat.le_refl _
  | succ fuel ih =>
      have hfill := fillIfEmpty_remaining c
      unfold writeResponseLoop
      split
      · exact Nat.le_refl _
      · simp only
        split
        · exact hfill
        · split
          · exact hfill
          · have hmin : min len (fillIfEmpty c).2.stream.buffered ≤
                (fillIfEmpty c).2.stream.buffered := Nat.min_le_right _ _
            have hadvance := advance_remaining hmin
            exact Nat.le_trans (ih _ _ _) (by omega)

/-- What handling a packet does in every case, also where the connection fails. -/
theorem handlePacket_frame (code : ℤ) (len : ℕ) (m : Locals) (x : Relay) :
    (handlePacket code len m x).2.2.conn.remaining ≤ x.conn.remaining ∧
      (handlePacket code len m x).2.2.heard = x.heard ∧
      ((handlePacket code len m x).1 = code ∨
        code = cseData.toNat ∧ (handlePacket code len m x).1 = -1) := by
  have hread := cseReadAll_remaining x.conn len
  unfold handlePacket
  split
  · exact ⟨hread, rfl, Or.inl rfl⟩
  · split
    · exact ⟨Nat.le_trans (cseReadString_remaining _ _ _) hread, rfl, Or.inl rfl⟩
    · split
      · next hdata =>
          refine ⟨writeResponseLoop_remaining len len x.conn x.reply, rfl, ?_⟩
          simp only
          split
          · exact Or.inr ⟨hdata, rfl⟩
          · exact Or.inl rfl
      · split
        · exact ⟨Nat.le_refl _, rfl, Or.inl rfl⟩
        · split
          · exact ⟨Nat.le_refl _, rfl, Or.inl rfl⟩
          · split
            · exact ⟨Nat.le_refl _, rfl, Or.inl rfl⟩
            · split
              · exact ⟨Nat.le_refl _, rfl, Or.inl rfl⟩
              · exact ⟨hread, rfl, Or.inl rfl⟩

/-- A round that is followed by another one has used up a byte. -/
theorem sendPacket_remaining {m : Locals} {x : Relay} (h : 0 < (sendPacket m x).1) :
    (sendPacket m x).2.2.conn.remaining < x.conn.remaining := by
  obtain ⟨hle, hlt⟩ := readHeader_remaining x.conn
  rw [sendPacket_eq] at h ⊢
  generalize readHeader x.conn = header at hle hlt h ⊢
  obtain ⟨code, l1, l2, l3, c⟩ := header
  simp only at hle hlt h ⊢
  by_cases hclosed : c.stream.socket < 0
  · simp [hclosed] at h
  · rw [if_neg hclosed] at h ⊢
    obtain ⟨hrest, -, hcode⟩ := handlePacket_frame code
      (low8 l1 * 65536 + low8 l2 * 256 + low8 l3) m
      { x with conn := c, heard := x.heard ++ [code] }
    refine Nat.lt_of_le_of_lt hrest (hlt ?_)
    omega

/-- Two calls of the loop with enough rounds agree: `send_data` always comes to its
end. -/
theorem sendDataLoop_fuel {ack : Byte} {fuel fuel' : ℕ} {m : Locals} {x : Relay}
    (h : x.conn.remaining < fuel) (h' : x.conn.remaining < fuel') :
    sendDataLoop ack fuel m x = sendDataLoop ack fuel' m x := by
  induction fuel generalizing fuel' m x with
  | zero => omega
  | succ fuel ih =>
      obtain ⟨fuel', rfl⟩ : ∃ k, fuel' = k + 1 := ⟨fuel' - 1, by omega⟩
      have hless := @sendPacket_remaining m x
      unfold sendDataLoop
      generalize sendPacket m x = round at hless ⊢
      obtain ⟨code, m', x'⟩ := round
      simp only at hless ⊢
      split
      · next hgo =>
          have := hless hgo.1
          exact ih (by omega) (by omega)
      · rfl

theorem go_iff (ack code : Byte) :
    (0 < (code.toNat : ℤ) ∧ (code.toNat : ℤ) ≠ cseEnd.toNat ∧
      (code.toNat : ℤ) ≠ cseCloseCode.toNat ∧ (code.toNat : ℤ) ≠ ack.toNat) ↔
      ¬ Stops ack code := by
  have hzero : 0 < (code.toNat : ℤ) ↔ code ≠ 0 := by
    rw [Int.natCast_pos, Nat.pos_iff_ne_zero]
    exact not_congr (UInt8.toNat_inj (b := 0))
  simp only [ne_eq, byte_cast_inj, hzero, Stops, not_or]

/-- The codes that are heard, as `send_data` keeps them. -/
def asHeard (codes : List Byte) : List ℤ := codes.map fun code => (code.toNat : ℤ)

/-- What `send_data` makes of what there is to hear: it stops at the packet that it
should stop at, or the connection is lost somewhere on the way. -/
inductive Heard (ack : Byte) (bs : List Byte) (x x' : Relay) : ℤ → Prop
  | stopped {codes rest : List Byte} {k : Byte}
      (listen : listen ack bs.length bs = (codes, some k, rest))
      (heard : x'.heard = x.heard ++ asHeard codes) (leaves : Leaves rest x.conn x'.conn) :
      Heard ack bs x x' k.toNat
  | lost {codes : List Byte} {failed : List ℤ} (failed_eq : failed = [] ∨ failed = [-1])
      (heard : x'.heard = x.heard ++ asHeard codes ++ failed)
      (codes_go : ∀ code ∈ codes, ¬ Stops ack code) (socket : x'.conn.stream.socket < 0) :
      Heard ack bs x x' (-1)

/-- A packet that does not stop the loop is followed by what is heard behind it. -/
theorem Heard.cons {ack code : Byte} {bs rest bs' : List Byte} {ms : List Chunk}
    {x x' x'' : Relay} {result : ℤ} (hp : packet? bs = some (code, rest))
    (hgo : ¬ Stops ack code) (hheard : x'.heard = x.heard ++ [(code.toNat : ℤ)])
    (hreads : Reads ms bs' x.conn x'.conn) (h : Heard ack rest x' x'' result) :
    Heard ack bs x x'' result := by
  have hlen := packet?_length hp
  have hfuel : listen ack bs.length bs = (code :: (listen ack rest.length rest).1,
      (listen ack rest.length rest).2.1, (listen ack rest.length rest).2.2) := by
    obtain ⟨n, hn⟩ : ∃ n, bs.length = n + 1 := ⟨bs.length - 1, by omega⟩
    rw [hn, listen_go hp hgo, @listen_fuel ack n rest.length rest (by omega) (Nat.le_refl _)]
  cases h with
  | stopped listen heard leaves =>
      rw [listen] at hfuel
      refine .stopped hfuel ?_ (.of_reads hreads leaves)
      rw [heard, hheard, List.append_assoc]
      rfl
  | @lost codes failed failed_eq heard codes_go socket =>
      refine @Heard.lost ack bs x x'' (code :: codes) failed failed_eq ?_
        (by simpa [hgo] using codes_go) socket
      rw [heard, hheard, List.append_assoc x.heard]
      rfl

theorem sendDataLoop_closed (ack : Byte) (fuel : ℕ) (m : Locals) {x : Relay}
    (h : x.conn.stream.socket < 0) :
    (sendDataLoop ack (fuel + 1) m x).1 = -1 ∧
      (sendDataLoop ack (fuel + 1) m x).2.heard = x.heard ++ [-1] ∧
      (sendDataLoop ack (fuel + 1) m x).2.conn.stream.socket < 0 := by
  have hclosed := sendPacket_closed m h
  unfold sendDataLoop
  generalize sendPacket m x = round at hclosed ⊢
  obtain ⟨code, m', x'⟩ := round
  obtain ⟨rfl, hheard, hsocket⟩ := hclosed
  exact ⟨rfl, hheard, hsocket⟩

theorem sendDataLoop_heard {ack : Byte} (hack : ack ≠ cseData) {fuel : ℕ} (m : Locals)
    {x : Relay} (h : x.conn.Live) (hfuel : x.conn.remaining < fuel) :
    Heard ack x.conn.pending x (sendDataLoop ack fuel m x).2 (sendDataLoop ack fuel m x).1 := by
  induction fuel generalizing m x with
  | zero => omega
  | succ fuel ih =>
      have hspec := sendPacket_spec m h
      have hless := @sendPacket_remaining m x
      unfold sendDataLoop
      generalize sendPacket m x = round at hspec hless ⊢
      obtain ⟨result, m', x'⟩ := round
      simp only at hspec hless ⊢
      cases hp : packet? x.conn.pending with
      | none =>
          rw [hp] at hspec
          obtain ⟨rfl, hheard, hclosed⟩ := hspec
          rw [if_neg (by omega)]
          exact @Heard.lost ack x.conn.pending x x' [] [-1] (Or.inr rfl)
            (by simpa [asHeard] using hheard) (by simp) hclosed
      | some found =>
          obtain ⟨code, rest⟩ := found
          rw [hp] at hspec
          obtain ⟨hheard, ⟨rfl, hleaves⟩ | ⟨rfl, rfl, hclosed⟩⟩ := hspec
          · by_cases hstop : Stops ack code
            · have hlen := packet?_length hp
              obtain ⟨n, hn⟩ : ∃ n, x.conn.pending.length = n + 1 :=
                ⟨x.conn.pending.length - 1, by omega⟩
              rw [if_neg (fun hgo => (go_iff ack code).mp hgo hstop)]
              refine @Heard.stopped ack _ x x' [code] rest code ?_ hheard hleaves
              rw [hn, listen_stop hp hstop]
            · have hgo := (go_iff ack code).mpr hstop
              have hfuel' : x'.conn.remaining < fuel := by
                have := hless hgo.1
                omega
              rw [if_pos hgo]
              cases hleaves with
              | reading reads pending =>
                  have hrest := ih m' reads.live hfuel'
                  rw [pending] at hrest
                  exact .cons hp hstop hheard reads hrest
              | closed socket rest =>
                  obtain ⟨fuel, rfl⟩ : ∃ k, fuel = k + 1 := ⟨fuel - 1, by omega⟩
                  obtain ⟨hresult, hheard', hclosed⟩ := sendDataLoop_closed ack fuel m' socket
                  rw [hresult]
                  refine @Heard.lost ack x.conn.pending x _ [code] [-1] (Or.inr rfl) ?_
                    (by simpa using hstop) hclosed
                  rw [hheard', hheard]
                  rfl
          · rw [if_neg (by omega)]
            refine @Heard.lost ack x.conn.pending x x' [cseData] [] (Or.inl rfl) ?_ ?_ hclosed
            · simpa [asHeard] using hheard
            · have : ¬ Stops ack cseData := by
                simp only [Stops, not_or]
                exact ⟨by decide, by decide, by decide, fun heq => hack heq.symm⟩
              simpa using this

/-- `send_data` on a live connection. -/
theorem sendData_heard {ack : Byte} (hack : ack ≠ cseData) (m : Locals) {x : Relay}
    (h : x.conn.Live) :
    Heard ack x.conn.pending x (sendData ack m x).2 (sendData ack m x).1 :=
  sendDataLoop_heard hack m h (Nat.lt_succ_self _)

theorem sendData_closed (ack : Byte) (m : Locals) {x : Relay} (h : x.conn.stream.socket < 0) :
    (sendData ack m x).1 = -1 ∧ (sendData ack m x).2.heard = x.heard ++ [-1] ∧
      (sendData ack m x).2.conn.stream.socket < 0 :=
  sendDataLoop_closed ack _ m h

end ModCaucho
