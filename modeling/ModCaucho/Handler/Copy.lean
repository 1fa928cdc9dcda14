import ModCaucho.Handler.Request
import ModCaucho.Stream.Available

/-!
# Copying the body

`cse_write_response` gives the browser the bytes of a DATA packet piece by piece, as
they come. After a call of `ap_rwrite` it goes on behind the whole piece, also where only
a part of the piece was accepted. So the body is copied as it should be exactly if no
part of a piece is refused, or nothing is accepted any more behind it.
-/

namespace ModCaucho

/-! ## Pieces -/

/-- The sizes of the chunks that are still to come. -/
def Conn.later (c : Conn) : List ℕ :=
  if c.Flushes then (arriving c.os.recvs).map fun m => m.bytes.length else []

/-- The sizes of the pieces in which the available bytes come. -/
def Conn.pieces (c : Conn) : List ℕ :=
  if c.stream.buffered = 0 then c.later else c.stream.buffered :: c.later

section

variable {c : Conn}

theorem pieces_of_pos (h : 0 < c.stream.buffered) : c.pieces = c.stream.buffered :: c.later :=
  if_neg (Nat.ne_of_gt h)

theorem pieces_advance : (c.advance c.stream.buffered).pieces = c.later := by
  have hnone : (c.advance c.stream.buffered).stream.buffered = 0 := by
    simp only [Conn.advance, Stream.buffered]
    omega
  have hflushes : (c.advance c.stream.buffered).Flushes ↔ c.Flushes := by
    rw [flushes_iff, flushes_iff]
    rfl
  rw [Conn.pieces, if_pos hnone, Conn.later, Conn.later]
  simp only [hflushes]
  rfl

/-- A refill takes the next piece, and fails if there is none. -/
theorem fillIfEmpty_pieces (h : c.Ready) :
    (¬ (fillIfEmpty c).1 < 0 → (fillIfEmpty c).2.pieces = c.pieces) ∧
      ((fillIfEmpty c).1 < 0 ↔ c.pieces = []) := by
  unfold fillIfEmpty
  by_cases hempty : c.stream.readLength ≤ c.stream.readOffset
  · have hnone : c.stream.buffered = 0 := by
      simp only [Stream.buffered]
      omega
    have hlater : c.pieces = c.later := if_pos hnone
    rw [if_pos hempty, hlater, Conn.later]
    by_cases hflushes : c.Flushes
    · rw [if_pos hflushes]
      rcases cseFillBuffer_of_flushes h hflushes with
        ⟨m, recvs, hrecvs, hfst, hready, hflushes', hbytes, hrest⟩ | ⟨hnil, hfst, -⟩
      · have hlen := congrArg List.length hbytes
        rw [length_unread hready] at hlen
        have hpos := m.length_pos
        refine ⟨fun _ => ?_, fun hlt => absurd hlt hfst, ?_⟩
        · rw [pieces_of_pos (by omega), hlen, Conn.later, if_pos hflushes', hrest, hrecvs]
          rfl
        · rw [hrecvs]
          exact fun hnil => absurd hnil (List.cons_ne_nil _ _)
      · exact ⟨fun hge => absurd hfst hge, fun _ => by rw [hnil]; rfl, fun _ => hfst⟩
    · have hfst := cseFillBuffer_of_not_flushes hflushes
      rw [if_neg hflushes]
      exact ⟨fun hge => absurd hfst hge, fun _ => rfl, fun _ => hfst⟩
  · have hpos : 0 < c.stream.buffered := by
      simp only [Stream.buffered]
      omega
    rw [if_neg hempty, pieces_of_pos hpos]
    exact ⟨fun _ => rfl, fun hlt => absurd hlt (Int.lt_irrefl 0),
      fun hnil => absurd hnil (List.cons_ne_nil _ _)⟩

end

/-! ## What is copied -/

/-- The parts of a packet that `cse_write_response` gets `ap_rwrite` to accept, each with
its start in the packet and its length. -/
def acceptedRanges : ℕ → ℕ → ℕ → Conn → Reply → List (ℕ × ℕ)
  | 0, _, _, _, _ => []
  | fuel + 1, start, len, c, r =>
      if len = 0 then []
      else
        let (filled, c) := fillIfEmpty c
        if filled < 0 then []
        else
          let sublen := min len c.stream.buffered
          let (sentlen, r) := r.rwrite (c.stream.unread.take sublen)
          if sentlen < 0 then []
          else
            (start, sentlen.toNat) ::
              acceptedRanges fuel (start + sublen) (len - sublen) (c.advance sublen) r

/-- The bytes of these parts, by their places in the packet. -/
def positions (ranges : List (ℕ × ℕ)) : List ℕ :=
  ranges.flatMap fun range => List.range' range.1 range.2

/-- A packet of `len` bytes is copied exactly: all of it in order if the result is 1, and
then the stream is behind it; the beginning of it if the result is -1. -/
def CopiesExactly (c : Conn) (len : ℕ) (r : Reply) : Prop :=
  let (result, c', _) := cseWriteResponse c len r
  let copied := positions (acceptedRanges len 0 len c r)
  (result = 1 → copied = List.range' 0 len ∧ c'.Ready ∧ c'.available = c.available.drop len) ∧
    (result = -1 → copied <+: List.range' 0 len)

/-- No part of a piece that `ap_rwrite` refuses is passed over: what comes in a piece is
accepted as a whole, or nothing is accepted behind it any more and the copying fails. -/
def NonePassedOver : ℕ → List ℕ → List RwriteResult → Prop
  | len, piece :: pieces, .accepts n :: writes =>
      if min len piece ≤ n then NonePassedOver (len - piece) pieces writes
      else len - piece ≠ 0 ∧ (pieces = [] ∨ writes.head? = some .failed)
  | _, _, _ => True

theorem nonePassedOver_zero (pieces : List ℕ) (writes : List RwriteResult) :
    NonePassedOver 0 pieces writes := by
  induction pieces generalizing writes with
  | nil => simp [NonePassedOver]
  | cons piece pieces ih =>
      cases writes with
      | nil => simp [NonePassedOver]
      | cons write writes =>
          cases write with
          | failed => simp [NonePassedOver]
          | accepts n =>
              rw [NonePassedOver, Nat.zero_min, if_pos (Nat.zero_le n), Nat.zero_sub]
              exact ih writes

theorem nonePassedOver_nil (len : ℕ) (pieces : List ℕ) : NonePassedOver len pieces [] := by
  cases pieces <;> simp [NonePassedOver]

/-! ## Copying by sizes -/

/-- What `ap_rwrite` accepts of a piece, and the results that are left. -/
def accepted : List RwriteResult → ℕ → Option (ℕ × List RwriteResult)
  | [], size => some (size, [])
  | .accepts n :: writes, size => some (min n size, writes)
  | .failed :: _, _ => none

/-- `cse_write_response` on the sizes of the pieces: its result and the accepted parts. -/
def copyPieces : ℕ → ℕ → List ℕ → List RwriteResult → ℤ × List (ℕ × ℕ)
  | _, len, [], _ => (if len = 0 then 1 else -1, [])
  | start, len, piece :: pieces, writes =>
      if len = 0 then (1, [])
      else
        match accepted writes (min len piece) with
        | none => (-1, [])
        | some (n, writes) =>
            let (result, ranges) := copyPieces (start + min len piece) (len - piece) pieces writes
            (result, (start, n) :: ranges)

theorem copyPieces_zero (start : ℕ) (pieces : List ℕ) (writes : List RwriteResult) :
    copyPieces start 0 pieces writes = (1, []) := by
  cases pieces <;> simp [copyPieces]

theorem rwrite_accepted (r : Reply) (bytes : List Byte) :
    match accepted r.writes bytes.length with
    | none => (r.rwrite bytes).1 = -1 ∧ (r.rwrite bytes).2.ops = r.ops
    | some (n, writes) => (r.rwrite bytes).1 = n ∧ (r.rwrite bytes).2.writes = writes ∧
        (r.rwrite bytes).2.ops = r.ops ++ [.write (bytes.take n)] := by
  unfold Reply.rwrite
  cases hw : r.writes with
  | nil => simp [accepted, Reply.push, hw]
  | cons write writes =>
      cases write with
      | accepts n => simp [accepted, Reply.push, List.take_eq_take_min]
      | failed => exact ⟨rfl, rfl⟩

/-- The loop does what its sizes say. -/
theorem writeResponseLoop_pieces {fuel len : ℕ} (hfuel : len ≤ fuel) {c : Conn} (h : c.Ready)
    (r : Reply) (start : ℕ) :
    ((writeResponseLoop fuel len c r).1, acceptedRanges fuel start len c r) =
      copyPieces start len c.pieces r.writes := by
  induction fuel generalizing len c r start with
  | zero =>
      obtain rfl : len = 0 := by omega
      rw [copyPieces_zero]
      rfl
  | succ fuel ih =>
      by_cases hlen : len = 0
      · subst hlen
        rw [copyPieces_zero]
        rfl
      obtain ⟨hpieces, hnone⟩ := fillIfEmpty_pieces h
      unfold writeResponseLoop acceptedRanges
      rw [if_neg hlen, if_neg hlen]
      rcases fillIfEmpty_ready h with ⟨hfst, hready, -⟩ | ⟨hfst, -⟩
      · have hpos := buffered_pos_of_fillIfEmpty hfst
        simp only [if_neg hfst]
        rw [← hpieces hfst]
        generalize (fillIfEmpty c).2 = c' at *
        rw [pieces_of_pos hpos, copyPieces, if_neg hlen]
        generalize hk : min len c'.stream.buffered = k at *
        have hwrite := rwrite_accepted r (c'.stream.unread.take k)
        have hlength : (c'.stream.unread.take k).length = k := by
          rw [List.length_take, length_unread hready]
          omega
        rw [hlength] at hwrite
        cases haccepted : accepted r.writes k with
        | none =>
            rw [haccepted] at hwrite
            simp [hwrite.1]
        | some found =>
            obtain ⟨n, writes⟩ := found
            rw [haccepted] at hwrite
            obtain ⟨hsent, rfl, -⟩ := hwrite
            have hrest := @ih (len - k) (by omega) (c'.advance k) ⟨hready.socket, hready.buffer⟩
              (r.rwrite (c'.stream.unread.take k)).2 (start + k)
            have hsame : copyPieces (start + k) (len - k) (c'.advance k).pieces
                  (r.rwrite (c'.stream.unread.take k)).2.writes =
                copyPieces (start + k) (len - c'.stream.buffered) c'.later
                  (r.rwrite (c'.stream.unread.take k)).2.writes := by
              by_cases hmore : len - k = 0
              · rw [hmore, show len - c'.stream.buffered = 0 by omega, copyPieces_zero,
                  copyPieces_zero]
              · obtain rfl : k = c'.stream.buffered := by omega
                rw [pieces_advance]
            rw [hsame] at hrest
            simp only [hsent, ← hrest]
            rw [if_neg (by omega), if_neg (by omega)]
            rfl
      · rw [hnone.mp hfst, copyPieces, if_neg hlen]
        simp [if_pos hfst]

/-! ## The law for the sizes -/

/-- These places are the ones that were to be copied, or the beginning of them. -/
def Copied (result : ℤ) (copied : List ℕ) (start len : ℕ) : Prop :=
  (result = 1 → copied = List.range' start len) ∧
    (result = -1 → copied <+: List.range' start len)

theorem range'_split {k len : ℕ} (h : k ≤ len) (start : ℕ) :
    List.range' start len = List.range' start k ++ List.range' (start + k) (len - k) := by
  rw [List.range'_append_1, Nat.add_sub_cancel' h]

/-- A piece that is accepted as a whole. -/
theorem copied_append_iff {result : ℤ} {copied : List ℕ} {k len : ℕ} (h : k ≤ len) (start : ℕ) :
    Copied result (List.range' start k ++ copied) start len ↔
      Copied result copied (start + k) (len - k) := by
  unfold Copied
  rw [range'_split h, List.append_cancel_left_eq, List.prefix_append_right_inj]

/-- A piece of which a part is refused, before anything else that is accepted. -/
theorem not_copied_gap {result : ℤ} (hresult : result = 1 ∨ result = -1) {copied : List ℕ}
    {n k len : ℕ} (hn : n < k) (hk : k ≤ len) (start : ℕ) :
    ¬ Copied result (List.range' start n ++ (start + k) :: copied) start len := by
  rintro ⟨hall, hbegin⟩
  have hfront : List.range' start n ++ (start + k) :: copied <+: List.range' start len := by
    rcases hresult with hone | hlost
    · exact (hall hone).symm ▸ List.prefix_refl _
    · exact hbegin hlost
  obtain ⟨m, hm⟩ : ∃ m, len - n = m + 1 := ⟨len - n - 1, by omega⟩
  rw [@range'_split n len (by omega), List.prefix_append_right_inj, hm, List.range'_succ,
    List.cons_prefix_cons] at hfront
  omega

theorem copyPieces_result (start len : ℕ) (pieces : List ℕ) (writes : List RwriteResult) :
    (copyPieces start len pieces writes).1 = 1 ∨ (copyPieces start len pieces writes).1 = -1 := by
  induction pieces generalizing start len writes with
  | nil =>
      rw [copyPieces]
      split
      · exact Or.inl rfl
      · exact Or.inr rfl
  | cons piece pieces ih =>
      rw [copyPieces]
      split
      · exact Or.inl rfl
      · cases accepted writes (min len piece) with
        | none => exact Or.inr rfl
        | some found => exact ih _ _ _

/-- Copying fails where no piece comes or nothing is accepted, and otherwise goes on with
the next byte of the packet. -/
theorem copyPieces_cases {len : ℕ} (hlen : len ≠ 0) {pieces : List ℕ}
    (hpieces : ∀ piece ∈ pieces, 0 < piece) {writes : List RwriteResult}
    (hwrites : ∀ n, .accepts n ∈ writes → 0 < n) (start : ℕ) :
    (pieces = [] ∨ writes.head? = some .failed) ∧ copyPieces start len pieces writes = (-1, []) ∨
      ¬ (pieces = [] ∨ writes.head? = some .failed) ∧
        ∃ copied, positions (copyPieces start len pieces writes).2 = start :: copied := by
  cases pieces with
  | nil =>
      rw [copyPieces, if_neg hlen]
      exact Or.inl ⟨Or.inl rfl, rfl⟩
  | cons piece pieces =>
      have hpiece := hpieces piece List.mem_cons_self
      rw [copyPieces, if_neg hlen]
      cases writes with
      | nil =>
          obtain ⟨k, hk⟩ : ∃ k, min len piece = k + 1 := ⟨min len piece - 1, by omega⟩
          right
          refine ⟨by simp, ?_⟩
          simp only [accepted, positions, List.flatMap_cons, hk, List.range'_succ]
          exact ⟨_, rfl⟩
      | cons write writes =>
          cases write with
          | failed => exact Or.inl ⟨Or.inr rfl, rfl⟩
          | accepts n =>
              have hn := hwrites n List.mem_cons_self
              obtain ⟨k, hk⟩ : ∃ k, min n (min len piece) = k + 1 :=
                ⟨min n (min len piece) - 1, by omega⟩
              right
              refine ⟨by simp, ?_⟩
              simp only [accepted, positions, List.flatMap_cons, hk, List.range'_succ]
              exact ⟨_, rfl⟩

/-- The sizes are copied exactly if and only if no part of a piece is passed over. -/
theorem copyPieces_copied {pieces : List ℕ} (hpieces : ∀ piece ∈ pieces, 0 < piece)
    {writes : List RwriteResult} (hwrites : ∀ n, .accepts n ∈ writes → 0 < n) (start len : ℕ) :
    Copied (copyPieces start len pieces writes).1 (positions (copyPieces start len pieces writes).2)
        start len ↔
      NonePassedOver len pieces writes := by
  induction pieces generalizing writes start len with
  | nil =>
      rw [copyPieces]
      by_cases hlen : len = 0 <;> simp [hlen, Copied, positions, NonePassedOver]
  | cons piece pieces ih =>
      have hpieces' : ∀ piece ∈ pieces, 0 < piece :=
        fun piece hmem => hpieces piece (List.mem_cons_of_mem _ hmem)
      by_cases hlen : len = 0
      · subst hlen
        simp [copyPieces_zero, nonePassedOver_zero, Copied, positions]
      rw [copyPieces, if_neg hlen]
      -- a piece of which all is accepted leaves the rest of the packet to the rest of the pieces
      have hwhole {writes' : List RwriteResult} (hwrites' : ∀ n, .accepts n ∈ writes' → 0 < n) :
          Copied (copyPieces (start + min len piece) (len - piece) pieces writes').1
              (positions ((start, min len piece) ::
                (copyPieces (start + min len piece) (len - piece) pieces writes').2)) start len ↔
            NonePassedOver (len - piece) pieces writes' := by
        have hrest : len - min len piece = len - piece := by omega
        rw [← ih hpieces' hwrites' (start + min len piece) (len - piece), positions,
          List.flatMap_cons, copied_append_iff (Nat.min_le_left _ _), hrest]
        rfl
      cases writes with
      | nil =>
          simp only [accepted]
          rw [hwhole (by simp)]
          simp [nonePassedOver_nil]
      | cons write writes =>
          have hwrites' : ∀ n, .accepts n ∈ writes → 0 < n :=
            fun n hmem => hwrites n (List.mem_cons_of_mem _ hmem)
          cases write with
          | failed => simp [accepted, Copied, positions, NonePassedOver]
          | accepts n =>
              simp only [accepted, NonePassedOver]
              by_cases hfull : min len piece ≤ n
              · rw [if_pos hfull, Nat.min_eq_right hfull]
                exact hwhole hwrites'
              · rw [if_neg hfull, show min n (min len piece) = n by omega, positions,
                  List.flatMap_cons]
                by_cases hmore : len - piece = 0
                · rw [hmore, copyPieces_zero]
                  refine iff_of_false (fun hcopied => ?_) fun hne => hne.1 rfl
                  have hlast := congrArg List.length (hcopied.1 rfl)
                  simp only [List.flatMap_nil, List.append_nil, List.length_range'] at hlast
                  omega
                · rcases copyPieces_cases hmore hpieces' hwrites' (start + min len piece) with
                    ⟨hover, hlost⟩ | ⟨hgoes, copied, hcopied⟩
                  · rw [hlost]
                    refine iff_of_true ⟨fun habs => absurd habs (by decide), fun _ => ?_⟩
                      ⟨hmore, hover⟩
                    rw [List.flatMap_nil, List.append_nil, @range'_split n len (by omega)]
                    exact List.prefix_append _ _
                  · rw [positions] at hcopied
                    rw [hcopied]
                    exact iff_of_false
                      (not_copied_gap (copyPieces_result _ _ _ _) (by omega) (by omega) start)
                      fun hover => hgoes hover.2

/-! ## The body -/

/-- `cse_write_response` is behind the packet, or it has failed. -/
theorem writeResponseLoop_stream {fuel len : ℕ} (hfuel : len ≤ fuel) {c : Conn} (h : c.Ready)
    (r : Reply) :
    ((writeResponseLoop fuel len c r).1 = 1 ∧ len ≤ c.available.length ∧
        Proceeds c (writeResponseLoop fuel len c r).2.1 (some (c.available.drop len))) ∨
      (writeResponseLoop fuel len c r).1 = -1 := by
  induction fuel generalizing len c r with
  | zero =>
      obtain rfl : len = 0 := by omega
      exact Or.inl ⟨rfl, Nat.zero_le _, h, rfl, id⟩
  | succ fuel ih =>
      unfold writeResponseLoop
      by_cases hlen : len = 0
      · subst hlen
        exact Or.inl ⟨rfl, Nat.zero_le _, h, rfl, id⟩
      rw [if_neg hlen]
      rcases fillIfEmpty_ready h with ⟨hfst, hready, havail, hflushes⟩ | ⟨hfst, -⟩
      · have hle := buffered_le hready
        have hpos := buffered_pos_of_fillIfEmpty hfst
        simp only [if_neg hfst]
        generalize (fillIfEmpty c).2 = c' at *
        have hadvance := advance_proceeds hready (Nat.min_le_right len c'.stream.buffered)
        rw [havail] at hadvance hle
        split
        · exact Or.inr rfl
        · rcases @ih (len - min len c'.stream.buffered) (by omega) _ hadvance.1 _ with
            ⟨hone, henough, hrest⟩ | hlost
          · rw [hadvance.2.1, List.length_drop] at henough
            rw [hadvance.2.1, List.drop_drop, Nat.add_sub_cancel' (Nat.min_le_left _ _)] at hrest
            exact Or.inl ⟨hone, by omega, Proceeds.append
              ⟨hadvance.1, hadvance.2.1, fun hf => hadvance.2.2 (hflushes hf)⟩ hrest⟩
          · exact Or.inr hlost
      · simp only [if_pos hfst]
        exact Or.inr trivial

theorem pieces_pos (c : Conn) : ∀ piece ∈ c.pieces, 0 < piece := by
  have hlater : ∀ piece ∈ c.later, 0 < piece := by
    unfold Conn.later
    split
    · simp only [List.mem_map, forall_exists_index, and_imp]
      rintro piece m - rfl
      exact m.length_pos
    · simp
  unfold Conn.pieces
  split
  · exact hlater
  · simpa using ⟨by omega, hlater⟩

theorem accepted_le {writes writes' : List RwriteResult} {size n : ℕ}
    (h : accepted writes size = some (n, writes')) : n ≤ size := by
  match writes, h with
  | [], h =>
      cases h
      exact Nat.le_refl _
  | .accepts k :: writes, h =>
      cases h
      exact Nat.min_le_right _ _

/-- What `ap_rwrite` accepts are the bytes at the places of the accepted parts. -/
theorem writeResponseLoop_ops {fuel len : ℕ} (hfuel : len ≤ fuel) {c : Conn} (h : c.Ready)
    (r : Reply) {start : ℕ} {bs : List Byte} (hbs : c.available = bs.drop start) :
    (writeResponseLoop fuel len c r).2.2.ops =
      r.ops ++ (acceptedRanges fuel start len c r).map
        fun range => .write ((bs.drop range.1).take range.2) := by
  induction fuel generalizing len c r start with
  | zero => simp [writeResponseLoop, acceptedRanges]
  | succ fuel ih =>
      unfold writeResponseLoop acceptedRanges
      by_cases hlen : len = 0
      · simp [hlen]
      rw [if_neg hlen, if_neg hlen]
      rcases fillIfEmpty_ready h with ⟨hfst, hready, havail, -⟩ | ⟨hfst, -⟩
      · have hpos := buffered_pos_of_fillIfEmpty hfst
        simp only [if_neg hfst]
        generalize (fillIfEmpty c).2 = c' at *
        have hk : min len c'.stream.buffered ≤ c'.stream.buffered := Nat.min_le_right _ _
        have hadvance := advance_proceeds hready hk
        have hmet := unread_take hready hk
        rw [havail, hbs] at hadvance hmet
        rw [List.drop_drop] at hadvance
        generalize hmin : min len c'.stream.buffered = k at *
        have hwrite := rwrite_accepted r (c'.stream.unread.take k)
        have hlength : (c'.stream.unread.take k).length = k := by
          rw [List.length_take, length_unread hready]
          omega
        rw [hlength] at hwrite
        cases haccepted : accepted r.writes k with
        | none =>
            rw [haccepted] at hwrite
            simp only [hwrite.1]
            rw [if_pos (by omega), if_pos (by omega), List.map_nil, List.append_nil]
            exact hwrite.2
        | some found =>
            obtain ⟨n, writes⟩ := found
            have hn := accepted_le haccepted
            rw [haccepted] at hwrite
            obtain ⟨hsent, -, hops⟩ := hwrite
            have hrest := @ih (len - k) (by omega) (c'.advance k) hadvance.1
              (r.rwrite (c'.stream.unread.take k)).2 (start + k) hadvance.2.1
            simp only [hsent]
            rw [if_neg (by omega), if_neg (by omega), hrest, hops, hmet, List.take_take,
              Nat.min_eq_left hn, List.append_assoc]
            rfl
      · simp [if_pos hfst]

/-- The places that are copied, as bytes. -/
theorem cseWriteResponse_ops {c : Conn} (h : c.Ready) (len : ℕ) (r : Reply) :
    (cseWriteResponse c len r).2.2.ops =
      r.ops ++ (acceptedRanges len 0 len c r).map
        fun range => .write ((c.available.drop range.1).take range.2) :=
  writeResponseLoop_ops (Nat.le_refl len) h r rfl

/-- `cse_write_response` copies a packet exactly if and only if it passes over no part of a
piece that the browser did not take. -/
theorem copiesExactly_iff {c : Conn} (h : c.Ready) (len : ℕ) {r : Reply}
    (hr : ∀ n, .accepts n ∈ r.writes → 0 < n) :
    CopiesExactly c len r ↔ NonePassedOver len c.pieces r.writes := by
  have hpieces := writeResponseLoop_pieces (Nat.le_refl len) h r 0
  have hstream := writeResponseLoop_stream (Nat.le_refl len) h r
  rw [← copyPieces_copied (pieces_pos c) hr 0 len, ← hpieces]
  unfold CopiesExactly Copied cseWriteResponse
  constructor
  · rintro ⟨hall, hbegin⟩
    exact ⟨fun hone => (hall hone).1, hbegin⟩
  · rintro ⟨hall, hbegin⟩
    refine ⟨fun hone => ?_, hbegin⟩
    rcases hstream with ⟨-, -, hready, havail, -⟩ | hlost
    · exact ⟨hall hone, hready, havail⟩
    · rw [hone] at hlost
      cases hlost

/-- A stream that has a piece of two bytes to give, and a browser that takes the first. -/
def twoBytes : Conn where
  stream := ⟨some 0, 0, 3, [79, 75], 0, 2, []⟩
  os := ⟨[], [], [], []⟩

theorem twoBytes_ready : twoBytes.Ready := ⟨by simp [twoBytes], by simp [twoBytes]⟩

theorem copiesExactly_iff_whole :
    CopiesExactly twoBytes 2 ⟨[], [.accepts 2]⟩ ↔ NonePassedOver 2 twoBytes.pieces [.accepts 2] :=
  copiesExactly_iff twoBytes_ready 2 (by simp)

/-- The second byte is passed over, and the result is 1. -/
theorem not_copiesExactly_short :
    ¬ ∀ (c : Conn) (len : ℕ) (r : Reply), c.Ready → (∀ n, .accepts n ∈ r.writes → 0 < n) →
      CopiesExactly c len r := by
  intro hclaim
  have hcopied := hclaim twoBytes 2 ⟨[], [.accepts 1]⟩ twoBytes_ready (by simp)
  exact absurd (hcopied.1 rfl).1 (by decide)

end ModCaucho
