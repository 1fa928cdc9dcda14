import Mathlib.Data.List.TakeWhile
import Mathlib.Data.Nat.Find
import ModCaucho.Handler.Effect
import ModCaucho.Handler.Exchange

/-!
# Chunks and cuts

Two things that may happen to the runner's bytes on their way. They may come in any
chunks, which makes no difference to the response. And they may end at any point: `whole`
is what the packets say that have come as a whole.
-/

namespace ModCaucho

open Framing CString

/-! ## Chunks -/

/-- The same bytes are still to come, or both connections are lost. -/
def SameStream (c c' : Conn) : Prop :=
  c.Live ∧ c'.Live ∧ c.pending = c'.pending ∨ c.stream.socket < 0 ∧ c'.stream.socket < 0

/-- Two exchanges that differ only in the chunks in which the runner's bytes come. -/
structure Alike (x y : Relay) : Prop where
  stream : SameStream x.conn y.conn
  events : x.reply.events = y.reply.events
  writes : x.reply.writes = [] ∧ y.reply.writes = []
  keepalive : x.keepalive = y.keepalive

theorem sendData_relay {ack : Byte} (m : Locals) {x : Relay} (h : x.conn.Live)
    (hr : x.reply.writes = []) :
    Does x (sendData ack m x).1 (sendData ack m x).2
      (relay ack x.conn.pending.length m x.conn.pending) := by
  rw [← h.available]
  exact sendDataLoop_relay m h.ready hr (Nat.lt_succ_self _) (Nat.le_refl _) h.flushes

/-- A stream that was live is live with these bytes to come, or it is lost. -/
theorem Does.stream {ack : Byte} (hack : ack ≠ cseData) {m : Locals} {x : Relay}
    (h : x.conn.Live) {o : Outcome}
    (hdoes : Does x (sendData ack m x).1 (sendData ack m x).2 o) :
    match o.rest with
    | some rest => (sendData ack m x).2.conn.Live ∧ (sendData ack m x).2.conn.pending = rest
    | none => (sendData ack m x).2.conn.stream.socket < 0 := by
  have hrest := hdoes.rest
  have hheard := sendData_heard hack m h
  generalize sendData ack m x = answer at *
  obtain ⟨result, x'⟩ := answer
  simp only at hrest hheard ⊢
  cases hnone : o.rest with
  | none =>
      rw [hnone] at hrest
      exact hrest h.flushes
  | some rest =>
      rw [hnone] at hrest
      obtain ⟨hready, havail, -⟩ := hrest
      have hopen := hready.socket
      have hlive : x'.conn.Live := by
        cases hheard with
        | stopped listen heard leaves =>
            cases leaves with
            | reading reads pending => exact reads.live
            | closed socket => exact absurd socket (Int.not_lt.mpr hopen)
        | lost failed_eq heard codes_go socket => exact absurd socket (Int.not_lt.mpr hopen)
      exact ⟨hlive, hlive.available.symm.trans havail⟩

/-- The response does not depend on the chunks. -/
theorem sendData_alike {ack : Byte} (hack : ack ≠ cseData) (m : Locals) {x y : Relay}
    (h : Alike x y) :
    (sendData ack m x).1 = (sendData ack m y).1 ∧
      Alike (sendData ack m x).2 (sendData ack m y).2 := by
  obtain ⟨hstream, hevents, ⟨hx, hy⟩, hkeepalive⟩ := h
  rcases hstream with ⟨hlive, hlive', hpending⟩ | ⟨hclosed, hclosed'⟩
  · have hdoes := @sendData_relay ack m _ hlive hx
    have hdoes' := @sendData_relay ack m _ hlive' hy
    rw [← hpending] at hdoes'
    have hafter := hdoes.stream hack hlive
    have hafter' := hdoes'.stream hack hlive'
    refine ⟨hdoes.code.trans hdoes'.code.symm, ?_, ?_, ⟨hdoes.writes, hdoes'.writes⟩, ?_⟩
    · generalize relay ack x.conn.pending.length m x.conn.pending = o at hafter hafter'
      cases hrest : o.rest with
      | none =>
          rw [hrest] at hafter hafter'
          exact Or.inr ⟨hafter, hafter'⟩
      | some rest =>
          rw [hrest] at hafter hafter'
          exact Or.inl ⟨hafter.1, hafter'.1, hafter.2.trans hafter'.2.symm⟩
    · rw [hdoes.events, hdoes'.events, hevents]
    · rw [hdoes.keepalive, hdoes'.keepalive, hkeepalive]
  · obtain ⟨hcode, -, hsocket⟩ := sendData_closed ack m hclosed
    obtain ⟨hcode', -, hsocket'⟩ := sendData_closed ack m hclosed'
    obtain ⟨hreply, hkeep⟩ := sendDataLoop_lost ack x.conn.remaining m hclosed
    obtain ⟨hreply', hkeep'⟩ := sendDataLoop_lost ack y.conn.remaining m hclosed'
    refine ⟨hcode.trans hcode'.symm, Or.inr ⟨hsocket, hsocket'⟩, ?_, ?_, ?_⟩
    · rw [sendData, sendData, hreply, hreply', hevents]
    · rw [sendData, sendData, hreply, hreply']
      exact ⟨hx, hy⟩
    · rw [sendData, sendData, hkeep, hkeep', hkeepalive]

theorem joined_ne_nil : [cseAck, 0, 0, 0, cseEnd, 0, 0, 0] ≠ [] := List.cons_ne_nil _ _

theorem joined_length_le : [cseAck, 0, 0, 0, cseEnd, 0, 0, 0].length ≤ bufLength := by decide

/-- The bytes of `politeChunks` in one chunk. -/
def oneChunk : List Chunk :=
  [⟨[cseAck, 0, 0, 0, cseEnd, 0, 0, 0], joined_ne_nil, joined_length_le⟩]

theorem sendData_alike_polite :
    (sendData cseEnd (zeroed 0) (exchangeWith politeChunks)).1 =
        (sendData cseEnd (zeroed 0) (exchangeWith oneChunk)).1 ∧
      Alike (sendData cseEnd (zeroed 0) (exchangeWith politeChunks)).2
        (sendData cseEnd (zeroed 0) (exchangeWith oneChunk)).2 :=
  @sendData_alike cseEnd (by decide) (zeroed 0) (exchangeWith politeChunks) (exchangeWith oneChunk)
    ⟨Or.inl ⟨exchangeWith_live _, exchangeWith_live _, rfl⟩, rfl, ⟨rfl, rfl⟩, rfl⟩

/-! ## Reading a string from an array -/

/-- Only the bytes up to a NUL matter for a string. -/
theorem cstr_congr {m m' : Mem} {start stop : ℕ} (hstop : m stop = 0) (hle : start ≤ stop)
    (hsame : ∀ k, start ≤ k → k ≤ stop → m k = m' k) : m.cstr start = m'.cstr start := by
  unfold Mem.cstr
  generalize localLength - start = n
  induction n generalizing start with
  | zero => rfl
  | succ n ih =>
      rw [List.range'_succ, List.map_cons, List.map_cons, ← hsame start (Nat.le_refl _) hle]
      by_cases hzero : m start = 0
      · rw [List.takeWhile_cons_of_neg (by simp [hzero]),
          List.takeWhile_cons_of_neg (by simp [hzero])]
      · have hlt : start < stop := by
          rcases Nat.lt_or_eq_of_le hle with hlt | rfl
          · exact hlt
          · exact absurd hstop hzero
        rw [List.takeWhile_cons_of_pos (by simp [hzero]),
          List.takeWhile_cons_of_pos (by simp [hzero]),
          ih hlt fun k hk hk' => hsame k (by omega) hk']

theorem cstr_eq_nil_iff (m : Mem) (start : ℕ) :
    m.cstr start = [] ↔ localLength ≤ start ∨ m start = 0 := by
  unfold Mem.cstr
  by_cases hout : localLength ≤ start
  · simp [Nat.sub_eq_zero_of_le hout, hout]
  · obtain ⟨n, hn⟩ : ∃ n, localLength - start = n + 1 := ⟨localLength - start - 1, by omega⟩
    rw [hn, List.range'_succ, List.map_cons]
    by_cases hzero : m start = 0
    · rw [List.takeWhile_cons_of_neg (by simp [hzero])]
      simp [hzero]
    · rw [List.takeWhile_cons_of_pos (by simp [hzero])]
      simp [hzero, hout]

/-- How far a string goes without a blank. -/
theorem length_word (m : Mem) {n : ℕ} (hn : n ≤ localLength)
    (hword : ∀ k < n, m k ≠ 0 ∧ m k ≠ 32) (hend : n < localLength → m n = 0 ∨ m n = 32) :
    ((m.cstr 0).takeWhile (· ≠ 32)).length = n := by
  unfold Mem.cstr
  rw [List.takeWhile_takeWhile, Nat.sub_zero]
  have hsplit : List.range' 0 localLength = List.range' 0 n ++ List.range' n (localLength - n) := by
    have := @List.range'_append_1 0 n (localLength - n)
    rw [Nat.zero_add, Nat.add_sub_cancel' hn] at this
    exact this.symm
  rw [hsplit, List.map_append, List.takeWhile_append_of_pos, List.length_append, List.length_map,
    List.length_range', Nat.add_eq_left, List.length_eq_zero_iff]
  · by_cases hlt : n < localLength
    · obtain ⟨k, hk⟩ : ∃ k, localLength - n = k + 1 := ⟨localLength - n - 1, by omega⟩
      rw [hk, List.range'_succ, List.map_cons, List.takeWhile_cons_of_neg]
      rcases hend hlt with hzero | hblank
      · simp [hzero]
      · simp [hblank]
    · rw [Nat.sub_eq_zero_of_le (by omega)]
      rfl
  · intro b hb
    obtain ⟨k, hk, rfl⟩ := List.mem_map.mp hb
    rw [List.mem_range'_1] at hk
    obtain ⟨hzero, hblank⟩ := hword k (by omega)
    simp [hzero, hblank]

/-! ## Statuses -/

/-- An array of zeros. -/
def Mem.clear : Mem := fun _ => 0

/-- The status of a STATUS packet lies within its payload, or what follows the payload in
the array is an empty string. -/
def Legible (buf : Mem) (len : ℕ) (bs : List Byte) : Prop :=
  (∃ b ∈ bs.take len, b = 0 ∨ b = 32) ∨ localLength ≤ len + 1 ∨ buf (len + 1) = 0

theorem payload_get (m : Mem) {len : ℕ} {bs : List Byte} (h : len ≤ bs.length) (k : ℕ) :
    m.payload len bs k =
      if k < len then (bs.take len).getD k 0 else if k = len then 0 else m k := by
  have hlen : (bs.take len).length = len := by rw [List.length_take, Nat.min_eq_left h]
  unfold Mem.payload Mem.store
  simp only [hlen, Nat.zero_le, true_and, Nat.zero_add, List.length_singleton]
  by_cases hlt : k < len
  · rw [if_neg (by omega), if_pos hlt, if_pos hlt, Nat.sub_zero]
  · by_cases heq : k = len
    · rw [if_pos (by omega), if_neg hlt, if_pos heq, heq, Nat.sub_self]
      rfl
    · rw [if_neg (by omega), if_neg hlt, if_neg hlt, if_neg heq]

/-- A status is the one that would be read from an array of zeros exactly if it is
legible. -/
theorem statusOp_eq_iff (m : Mem) {len : ℕ} {bs : List Byte} (h : len ≤ bs.length) :
    statusOp (m.payload len bs) = statusOp (Mem.clear.payload len bs) ↔ Legible m len bs := by
  have hsame (k : ℕ) (hk : k ≤ len) : m.payload len bs k = Mem.clear.payload len bs k := by
    rw [payload_get m h, payload_get _ h]
    by_cases hlt : k < len
    · rw [if_pos hlt, if_pos hlt]
    · have heq : k = len := by omega
      rw [if_neg hlt, if_neg hlt, if_pos heq, if_pos heq]
  have hzero : m.payload len bs len = 0 := by
    rw [payload_get m h, if_neg (Nat.lt_irrefl _), if_pos rfl]
  have hstart : (m.payload len bs).cstr 0 = (Mem.clear.payload len bs).cstr 0 :=
    cstr_congr hzero (Nat.zero_le _) fun k _ hk => hsame k hk
  have hmem (k : ℕ) (hk : k < len) : m.payload len bs k ∈ bs.take len := by
    have hlen : k < (bs.take len).length := by rw [List.length_take]; omega
    rw [payload_get m h, if_pos hk, List.getD_eq_getElem?_getD, List.getElem?_eq_getElem hlen,
      Option.getD_some]
    exact List.getElem_mem hlen
  -- the status starts at the same place in both arrays
  have hline {i : ℕ} (hi : (((m.payload len bs).cstr 0).takeWhile (· ≠ 32)).length = i) :
      statusOp (m.payload len bs) = statusOp (Mem.clear.payload len bs) ↔
        (m.payload len bs).cstr (i + 1) = (Mem.clear.payload len bs).cstr (i + 1) := by
    unfold statusOp
    simp only [← hstart, hi]
    constructor
    · intro heq
      exact (ReplyOp.status.inj heq).2
    · intro heq
      rw [heq]
  by_cases hword : ∃ q, q < len ∧ (m.payload len bs q = 0 ∨ m.payload len bs q = 32)
  · have hlegible : Legible m len bs := by
      obtain ⟨q, hq, hbyte⟩ := hword
      exact Or.inl ⟨_, hmem q hq, hbyte⟩
    rw [iff_true_right hlegible]
    classical
    obtain ⟨hq, hbyte⟩ := Nat.find_spec hword
    have hbefore (k : ℕ) (hk : k < Nat.find hword) :
        m.payload len bs k ≠ 0 ∧ m.payload len bs k ≠ 32 := by
      have hnot := Nat.find_min hword hk
      rw [not_and, not_or] at hnot
      exact hnot (by omega)
    generalize Nat.find hword = q at *
    by_cases hin : q ≤ localLength
    · rw [hline (length_word _ hin hbefore fun _ => hbyte)]
      exact cstr_congr hzero hq fun k _ hk => hsame k hk
    · rw [hline (length_word _ (Nat.le_refl _) (fun k hk => hbefore k (by omega))
        fun hlt => absurd hlt (Nat.lt_irrefl _))]
      rw [(cstr_eq_nil_iff _ _).mpr (Or.inl (Nat.le_succ _)),
        (cstr_eq_nil_iff _ _).mpr (Or.inl (Nat.le_succ _))]
  · have hbefore (k : ℕ) (hk : k < len) :
        m.payload len bs k ≠ 0 ∧ m.payload len bs k ≠ 32 := by
      rw [← not_or]
      exact fun hbyte => hword ⟨k, hk, hbyte⟩
    have hnone : ¬ ∃ b ∈ bs.take len, b = 0 ∨ b = 32 := by
      rintro ⟨b, hb, hbyte⟩
      obtain ⟨k, hk, rfl⟩ := List.getElem_of_mem hb
      rw [List.length_take] at hk
      refine hword ⟨k, by omega, ?_⟩
      rw [payload_get m h, if_pos (by omega), List.getD_eq_getElem?_getD,
        List.getElem?_eq_getElem (by rw [List.length_take]; omega), Option.getD_some]
      exact hbyte
    have hbehind (m' : Mem) : m'.payload len bs (len + 1) = m' (len + 1) := by
      rw [payload_get m' h, if_neg (by omega), if_neg (by omega)]
    rw [Legible, or_iff_right hnone]
    by_cases hin : len ≤ localLength
    · rw [hline (length_word _ hin hbefore fun _ => Or.inl hzero),
        (cstr_eq_nil_iff (Mem.clear.payload len bs) _).mpr (Or.inr (hbehind _)), cstr_eq_nil_iff,
        hbehind]
    · rw [hline (length_word _ (Nat.le_refl _) (fun k hk => hbefore k (by omega))
          fun hlt => absurd hlt (Nat.lt_irrefl _)),
        (cstr_eq_nil_iff _ _).mpr (Or.inl (Nat.le_succ _)),
        (cstr_eq_nil_iff _ _).mpr (Or.inl (Nat.le_succ _))]
      exact ⟨fun _ => Or.inl (by omega), fun _ => rfl⟩

/-! ## Cuts -/

/-- Local arrays of zeros. -/
def Locals.clear : Locals := ⟨.clear, .clear, .clear⟩

/-- What the packets say that arrive as a whole, and what arrives of the body of a DATA
packet that does not. -/
structure Whole where
  ops : List ReplyOp
  keepalive : Bool
  part : List Byte

/-- What a byte string says up to the packet that ends `send_data`, each packet being read
to arrays of zeros. -/
def whole (ack : Byte) : ℕ → List Byte → Whole
  | n + 1, code :: b₁ :: b₂ :: b₃ :: bs =>
      let len := ofBe24 b₁ b₂ b₃
      match behind? code len bs with
      | none => ⟨[], false, if code = cseData then bs.take len else []⟩
      | some rest =>
          let ops := packetOps .clear code len bs
          let keepalive := decide (code = cseKeepalive)
          if Stops ack code then ⟨ops, keepalive, []⟩
          else
            let w := whole ack n rest
            ⟨ops ++ w.ops, keepalive || w.keepalive, w.part⟩
  | _, _ => ⟨[], false, []⟩

/-- A string that ends inside its array does not depend on what the array was. -/
theorem cstr_payload (m m' : Mem) {len : ℕ} {bs : List Byte} (h : len ≤ bs.length) :
    (m.payload len bs).cstr 0 = (m'.payload len bs).cstr 0 := by
  refine @cstr_congr _ _ _ len ?_ (Nat.zero_le _) fun k _ hk => ?_
  · rw [payload_get m h, if_neg (Nat.lt_irrefl _), if_pos rfl]
  · rw [payload_get m h, payload_get m' h]
    by_cases hlt : k < len
    · rw [if_pos hlt, if_pos hlt]
    · rw [if_neg hlt, if_neg hlt, if_pos (by omega), if_pos (by omega)]

theorem cstr_limited (m m' : Mem) {buflen readlen : ℕ} {bs : List Byte} (hpos : 0 < buflen)
    (h : readlen ≤ bs.length) :
    (limited m buflen readlen bs).cstr 0 = (limited m' buflen readlen bs).cstr 0 := by
  unfold limited
  by_cases hfit : buflen > readlen
  · rw [if_pos hfit, if_pos hfit]
    exact cstr_payload m m' h
  · rw [if_neg hfit, if_neg hfit]
    have hlen : (bs.take buflen).length = buflen := by rw [List.length_take]; omega
    refine @cstr_congr _ _ _ (buflen - 1) ?_ (Nat.zero_le _) fun k _ hk => ?_
    · simp [Mem.store]
    · unfold Mem.store
      simp only [hlen, Nat.zero_le, true_and, Nat.zero_add, List.length_singleton, Nat.sub_zero]
      by_cases hlast : buflen - 1 ≤ k ∧ k < buflen - 1 + 1
      · rw [if_pos hlast, if_pos hlast]
      · have hin : k < buflen := by omega
        rw [if_neg hlast, if_neg hlast, if_pos hin, if_pos hin]

theorem behind?_header_some {len : ℕ} {bs rest : List Byte}
    (h : behind? cseHeader len bs = some rest) :
    len ≤ bs.length ∧ ∃ bs', after len bs = some bs' ∧ behindString? bs' = some rest := by
  rw [behind?, if_pos rfl] at h
  obtain ⟨bs', hbs', hrest⟩ := Option.bind_eq_some_iff.mp h
  refine ⟨?_, bs', hbs', hrest⟩
  by_contra hshort
  rw [after_of_lt (Nat.lt_of_not_le hshort)] at hbs'
  cases hbs'

/-- The local arrays matter to a packet that arrives as a whole only for an illegible
status. -/
theorem packetOps_clear (m : Locals) {code : Byte} {len : ℕ} {bs rest : List Byte}
    (h : behind? code len bs = some rest) :
    packetOps m code len bs = packetOps .clear code len bs ↔
      (code = cseStatus → Legible m.buf len bs) := by
  unfold packetOps packetLocals
  by_cases hstatus : code = cseStatus
  · subst hstatus
    rw [behind?_of_ne (by decide) (by decide)] at h
    have hlen : len ≤ bs.length := by
      by_contra hshort
      rw [after_of_lt (Nat.lt_of_not_le hshort)] at h
      cases h
    simp only [if_true, forall_true_left, List.cons.injEq, and_true]
    exact statusOp_eq_iff m.buf hlen
  simp only [hstatus, if_false, false_implies, iff_true]
  by_cases hheader : code = cseHeader
  · subst hheader
    obtain ⟨hlen, bs', hbs', hstring⟩ := behind?_header_some h
    have hvalue : (readString m.value localLength bs').cstr 0 =
        (readString Mem.clear localLength bs').cstr 0 := by
      unfold behindString? at hstring
      split at hstring
      · next b₁ b₂ b₃ bs'' =>
          refine cstr_limited _ _ (by decide) ?_
          by_contra hshort
          rw [after_of_lt (Nat.lt_of_not_le hshort)] at hstring
          cases hstring
      · cases hstring
    simp only [if_true, hbs', headerOp, cstr_payload m.key Locals.clear.key hlen, hvalue,
      Locals.clear]
  · simp only [hheader, if_false]

theorem length_packetOps (m m' : Locals) (code : Byte) (len : ℕ) (bs : List Byte) :
    (packetOps m code len bs).length = (packetOps m' code len bs).length := by
  unfold packetOps
  split
  · rw [List.length_singleton, List.length_singleton]
  · split
    · rw [List.length_singleton, List.length_singleton]
    · rfl

/-- A cut packet other than a STATUS, a HEADER or a DATA packet does nothing. -/
theorem packetOps_cut (m : Locals) {code : Byte} {len : ℕ} {bs : List Byte}
    (h : behind? code len bs = none) (hdata : code ≠ cseData) (hstatus : code ≠ cseStatus)
    (hheader : code ≠ cseHeader) : packetOps m code len bs = [] := by
  have hbare : ¬ (code = cseFlushCode ∨ code = cseKeepalive ∨ code = cseSendHeader) := by
    intro hbare
    rw [behind?, if_neg hheader, if_pos hbare] at h
    cases h
  rw [not_or, not_or] at hbare
  unfold packetOps
  rw [if_neg hstatus, if_neg hheader, if_neg hdata, if_neg hbare.1, if_neg hbare.2.2]

theorem packetOps_status (m : Locals) (len : ℕ) (bs : List Byte) :
    packetOps m cseStatus len bs = [statusOp (packetLocals m cseStatus len bs).buf] := by
  rw [packetOps, if_pos rfl]

theorem packetOps_header (m : Locals) (len : ℕ) (bs : List Byte) :
    packetOps m cseHeader len bs =
      [headerOp (packetLocals m cseHeader len bs).key (packetLocals m cseHeader len bs).value] := by
  rw [packetOps, if_neg (by decide), if_pos rfl]

theorem packetOps_data (m : Locals) (len : ℕ) (bs : List Byte) :
    packetOps m cseData len bs = (bs.take len).map fun b => .write [b] := by
  rw [packetOps, if_neg (by decide), if_neg (by decide), if_pos rfl]

theorem whole_of_short {ack : Byte} {n : ℕ} {bs : List Byte} (h : bs.length < 4) :
    whole ack n bs = ⟨[], false, []⟩ := by
  match bs, h with
  | [], _ => cases n <;> rfl
  | [_], _ => cases n <;> rfl
  | [_, _], _ => cases n <;> rfl
  | [_, _, _], _ => cases n <;> rfl

/-- What is done is what the whole packets say, and a part of a body. -/
def Says (ops : List ReplyOp) (w : Whole) : Prop :=
  ∃ part, part <+: w.part ∧ ops = w.ops ++ part.map fun b => .write [b]

theorem says_nil_part {ops ops' : List ReplyOp} {keepalive : Bool} :
    Says ops ⟨ops', keepalive, []⟩ ↔ ops = ops' := by
  constructor
  · rintro ⟨part, hpart, heq⟩
    rw [List.prefix_nil.mp hpart, List.map_nil, List.append_nil] at heq
    exact heq
  · rintro rfl
    exact ⟨[], List.nil_prefix, by simp⟩

end ModCaucho
