import Mathlib.Data.Bool.AllAny
import Mathlib.Data.List.GetD
import Mathlib.Data.List.TakeDrop
import Mathlib.Data.List.TakeWhile
import ModCaucho.Handler.Request
import ModCaucho.Stream.Available
import ModCaucho.Stream.Write

/-!
# A string on its way to the other side

`cse_write_string` on the one side and `cse_read_string` on the other, with packets
before and behind the string. `cse_read_string` takes one byte off the array for the
NUL, and `cse_read_limit` takes another one, so that a string of `BUF_LENGTH` bytes
loses its last byte. A longer string is announced and never sent.
-/

namespace ModCaucho

open Framing

/-! ## Strings in an array -/

theorem store_of_lt (m : Mem) {start i : ℕ} (h : i < start) (bytes : List Byte) :
    m.store start bytes i = m i := by
  rw [Mem.store, if_neg (by omega)]

theorem store_front (m : Mem) {bytes : List Byte} {i : ℕ} (h : i < bytes.length) :
    m.store 0 bytes i = bytes[i] := by
  rw [Mem.store, if_pos (by omega), Nat.sub_zero, List.getD_eq_getElem _ _ h]

/-- The string of an array that begins with these bytes and a NUL behind them. -/
theorem cstr_of_bytes {m : Mem} {bytes : List Byte} (hlen : bytes.length < localLength)
    (hbytes : ∀ b ∈ bytes, b ≠ 0) (hget : ∀ (i : ℕ) (h : i < bytes.length), m i = bytes[i])
    (hnul : m bytes.length = 0) : m.cstr 0 = bytes := by
  have hfront : (List.range' 0 bytes.length).map m = bytes := by
    refine List.ext_getElem (by simp) fun i hi hi' => ?_
    simp [hget i hi']
  have hbehind : ((List.range' bytes.length (localLength - bytes.length)).map m).takeWhile
      (· ≠ 0) = [] := by
    obtain ⟨n, hn⟩ : ∃ n, localLength - bytes.length = n + 1 :=
      ⟨localLength - bytes.length - 1, by omega⟩
    rw [hn, List.range'_succ, List.map_cons, List.takeWhile_cons_of_neg (by simp [hnul])]
  have hsplit : List.range' 0 localLength =
      List.range' 0 bytes.length ++ List.range' bytes.length (localLength - bytes.length) := by
    have hjoin := @List.range'_append_1 0 bytes.length (localLength - bytes.length)
    rw [Nat.zero_add, Nat.add_sub_cancel' (by omega)] at hjoin
    exact hjoin.symm
  have hall : ∀ b ∈ bytes, decide (b ≠ 0) = true := by simpa using hbytes
  rw [Mem.cstr, Nat.sub_zero, hsplit, List.map_append, hfront, List.takeWhile_append_of_pos hall,
    hbehind, List.append_nil]

/-- `cse_read_limit` keeps one byte of the array less than it was given, apart from the
NUL. -/
theorem cstr_limited_front (buf : Mem) {s : List Byte} (hs : ∀ b ∈ s, b ≠ 0)
    (hlen : s.length ≤ bufLength) (rest : List Byte) :
    (limited buf bufLength s.length (s ++ rest)).cstr 0 = s.take (bufLength - 1) := by
  have hbuf : bufLength = 8192 := rfl
  have hlocal : localLength = 8193 := rfl
  unfold limited
  by_cases hfit : bufLength > s.length
  · rw [if_pos hfit, List.take_left, List.take_of_length_le (by omega)]
    refine cstr_of_bytes (by omega) hs (fun i hi => ?_) ?_
    · rw [store_of_lt _ hi, store_front _ hi]
    · simp [Mem.store]
  · have hall : s.length = bufLength := by omega
    have htake : (s.take (bufLength - 1)).length = bufLength - 1 := by
      rw [List.length_take]
      omega
    rw [if_neg hfit, ← hall, List.take_left, hall]
    refine cstr_of_bytes (by omega) (fun b hb => hs b (List.mem_of_mem_take hb))
      (fun i hi => ?_) ?_
    · rw [htake] at hi
      rw [store_of_lt _ hi, store_front _ (by omega), List.getElem_take]
    · rw [htake]
      simp [Mem.store]

/-! ## The hop -/

/-- Three bytes hold a length up to multiples of `2 ^ 24`. -/
theorem ofBe24_be24_mod (n : ℕ) :
    ofBe24 (be24 n).1 (be24 n).2.1 (be24 n).2.2 = n % 2 ^ 24 := by
  simp only [ofBe24, be24, UInt8.toNat_ofNat']
  omega

theorem readString_header (buf : Mem) (length : ℕ) (code : Byte) (n : ℕ) (bs : List Byte) :
    readString buf length (header code n ++ bs) = limited buf (length - 1) (n % 2 ^ 24) bs := by
  rw [← ofBe24_be24_mod]
  rfl

theorem behindString?_header (code : Byte) (n : ℕ) (bs : List Byte) :
    behindString? (header code n ++ bs) = after (n % 2 ^ 24) bs := by
  rw [← ofBe24_be24_mod]
  rfl

/-- The string comes through: the array holds it, or a part of it if it is too long for
the array, and what is to be read next is what comes behind it. -/
def SurvivesHop (c : Conn) (buf : Mem) (s rest : List Byte) : Prop :=
  let (_, buf', c') := cseReadString c buf localLength
  (if s.length ≤ bufLength then buf'.cstr 0 = s else buf'.cstr 0 <+: s) ∧
    (buf'.cstr 0).length < localLength ∧ c'.Ready ∧ c'.available = rest

/-- A string comes through exactly if it is shorter than the buffer. Multiples of
`2 ^ 24` bytes are announced as an empty string, of which nothing is missing. -/
theorem survivesHop_iff_available {c : Conn} (hready : c.Ready) (hflushes : c.Flushes)
    {code : Byte} {s rest : List Byte} (hs : ∀ b ∈ s, b ≠ 0)
    (havail : c.available = header code s.length ++ (fits s ++ rest)) (buf : Mem) :
    SurvivesHop c buf s rest ↔
      s.length < bufLength ∨ bufLength < s.length ∧ s.length % 2 ^ 24 = 0 := by
  have hbuf : bufLength = 8192 := rfl
  have hlocal : localLength = 8193 := rfl
  have hroom : localLength - 1 = bufLength := rfl
  obtain ⟨hmem, hrest⟩ := cseReadString_ready hready (Or.inl hflushes) buf localLength
  rw [havail, readString_header, hroom] at hmem
  rw [havail, behindString?_header] at hrest
  unfold SurvivesHop
  generalize cseReadString c buf localLength = answer at *
  obtain ⟨result, buf', c'⟩ := answer
  simp only at hmem hrest ⊢
  by_cases hshort : s.length ≤ bufLength
  · rw [fits_eq_self hshort, Nat.mod_eq_of_lt (by omega)] at hmem hrest
    rw [after_of_le (by simp), List.drop_left] at hrest
    have hcstr := cstr_limited_front buf hs hshort rest
    rw [hmem, hcstr, if_pos hshort, List.take_eq_self_iff, List.length_take]
    constructor
    · rintro ⟨hfit, -⟩
      omega
    · intro hfit
      exact ⟨by omega, by omega, hrest.1, hrest.2.1⟩
  · have hnone : fits s = [] := if_neg hshort
    rw [hnone, List.nil_append] at hmem hrest
    rw [if_neg hshort]
    by_cases hzero : s.length % 2 ^ 24 = 0
    · rw [hzero] at hmem hrest
      have hcstr : buf'.cstr 0 = [] := by
        rw [hmem]
        exact @cstr_limited_front buf [] (by simp) (by simp) rest
      rw [hcstr]
      constructor
      · exact fun _ => Or.inr ⟨by omega, hzero⟩
      · exact fun _ => ⟨List.nil_prefix, by simp [hlocal], hrest.1, hrest.2.1⟩
    · constructor
      · -- bytes that come behind the string are read in its place
        rintro ⟨-, -, hready', havail'⟩
        exfalso
        by_cases henough : s.length % 2 ^ 24 ≤ rest.length
        · rw [after_of_le henough] at hrest
          have hlen := congrArg List.length (hrest.2.1.symm.trans havail')
          rw [List.length_drop] at hlen
          omega
        · rw [after_of_lt (by omega)] at hrest
          have hopen := hready'.socket
          have hclosed := hrest hflushes
          omega
      · rintro (hlt | ⟨-, hmod⟩)
        · omega
        · exact absurd hmod hzero

/-- What a string puts on the socket between other packets. -/
theorem sentOn_string {w : Conn} (hw : w.Sends) (hempty : w.stream.writeBuf = [])
    (ps qs : List Frame) (code : Byte) (s : List Byte) :
    sentOn w.stream.socket
        (cseFlush (writePackets (cseWriteString (writePackets w ps) code (some s)) qs)).2.os.trace =
      sentOn w.stream.socket w.os.trace ++ sentPackets ps ++
        (header code s.length ++ (fits s ++ sentPackets qs)) := by
  have hall : writePackets (cseWriteString (writePackets w ps) code (some s)) qs =
      writePackets w (ps ++ ⟨code, s⟩ :: qs) := by
    rw [writePackets, writePackets, writePackets, List.foldl_append]
    rfl
  rw [hall, sentOn_flush_writePackets hw hempty]
  simp [sentPackets]

/-- The string that one side writes between other packets, read by the other side where
the packets before it end. -/
theorem survivesHop_iff {w : Conn} (hw : w.Sends) (hempty : w.stream.writeBuf = [])
    (ps qs : List Frame) (code : Byte) {s : List Byte} (hs : ∀ b ∈ s, b ≠ 0) {c : Conn}
    (hready : c.Ready) (hflushes : c.Flushes)
    (hwire : sentOn w.stream.socket (cseFlush (writePackets
        (cseWriteString (writePackets w ps) code (some s)) qs)).2.os.trace =
      sentOn w.stream.socket w.os.trace ++ sentPackets ps ++ c.available) (buf : Mem) :
    SurvivesHop c buf s (sentPackets qs) ↔
      s.length < bufLength ∨ bufLength < s.length ∧ s.length % 2 ^ 24 = 0 := by
  rw [sentOn_string hw hempty] at hwire
  exact survivesHop_iff_available hready hflushes hs (List.append_cancel_left hwire).symm buf

/-! ## A value of two bytes, and one that just fits -/

/-- A stream that is open and has these bytes in its read buffer. -/
def holding (bytes : List Byte) : Conn where
  stream := ⟨some 0, 0, 3, bytes, 0, bytes.length, []⟩
  os := ⟨[], [], [], []⟩

theorem holding_ready (bytes : List Byte) : (holding bytes).Ready :=
  ⟨by simp [holding], by simp [holding]⟩

theorem holding_flushes (bytes : List Byte) : (holding bytes).Flushes := flushes_of_nil rfl

theorem holding_available (bytes : List Byte) : (holding bytes).available = bytes := by
  have hnone : bytesOf (arriving (holding bytes).os.recvs) = [] := rfl
  rw [Conn.available, hnone, ite_self, List.append_nil]
  simp [holding, Stream.unread, Stream.buffered]

theorem holding_sends : (holding []).Sends := ⟨by simp [holding], rfl⟩

theorem survivesHop_iff_short :
    SurvivesHop (holding [cseValue, 0, 0, 2, 79, 75, cseEnd, 0, 0, 0]) (fun _ => 0) [79, 75]
        (sentPackets [⟨cseEnd, []⟩]) ↔
      [79, 75].length < bufLength ∨ bufLength < [79, 75].length ∧ [79, 75].length % 2 ^ 24 = 0 :=
  survivesHop_iff holding_sends rfl [] [⟨cseEnd, []⟩] cseValue
    (List.all_iff_forall_prop.mp (by decide)) (holding_ready _) (holding_flushes _)
    (by
      rw [sentOn_string holding_sends rfl, holding_available]
      rfl) _

/-- A value of exactly `BUF_LENGTH` bytes loses its last byte. -/
theorem not_survivesHop_exact :
    ¬ ∀ (w : Conn), w.Sends → w.stream.writeBuf = [] →
      ∀ (ps qs : List Frame) (code : Byte) (s : List Byte), (∀ b ∈ s, b ≠ 0) →
        ∀ c : Conn, c.Ready → c.Flushes →
          sentOn w.stream.socket (cseFlush (writePackets
              (cseWriteString (writePackets w ps) code (some s)) qs)).2.os.trace =
            sentOn w.stream.socket w.os.trace ++ sentPackets ps ++ c.available →
          ∀ buf : Mem, SurvivesHop c buf s (sentPackets qs) := by
  intro hclaim
  have hlen : (List.replicate bufLength (120 : Byte)).length = bufLength := List.length_replicate
  have hbytes : ∀ b ∈ List.replicate bufLength (120 : Byte), b ≠ 0 := by
    intro b hb
    rw [List.eq_of_mem_replicate hb]
    decide
  generalize List.replicate bufLength (120 : Byte) = s at hlen hbytes
  have hsurvives := hclaim (holding []) holding_sends rfl [] [] cseValue s hbytes
    (holding (header cseValue s.length ++ (fits s ++ sentPackets []))) (holding_ready _)
    (holding_flushes _) (by rw [sentOn_string holding_sends rfl, holding_available])
    fun _ => 0
  rw [survivesHop_iff_available (holding_ready _) (holding_flushes _) hbytes
    (holding_available _)] at hsurvives
  omega

end ModCaucho
