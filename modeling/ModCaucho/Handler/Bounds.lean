import ModCaucho.Handler.Cut
import ModCaucho.Handler.Flow
import ModCaucho.Handler.InFrame
import ModCaucho.Stream.Answers

/-!
# The bounds of the local arrays

`send_data` has three arrays of 8193 bytes. It writes a payload to the front of one of
them and, if it goes on to read the array as a string, a NUL behind it. `Uses` records
the indices that a round writes and reads, and the place of the NUL. They depend on what
the next reads of the connection get, `answers`, and on what is in the arrays.
-/

namespace ModCaucho

/-- The uses of a local array in one round of `send_data`: the indices that are written,
the index of the NUL that is stored, and the indices that are read. -/
structure Uses where
  writes : List ℕ
  nul : Option ℕ
  reads : List ℕ

/-- The array is not used. -/
def Uses.unused : Uses := ⟨[], none, []⟩

/-- Writes stay inside the array, reads do not go past the NUL that was stored. -/
def Uses.InBounds (u : Uses) : Prop :=
  (∀ i ∈ u.writes, i < localLength) ∧ ∀ i ∈ u.reads, ∃ k, u.nul = some k ∧ i ≤ k

/-- The uses of the three arrays. -/
structure LocalUses where
  buf : Uses
  key : Uses
  value : Uses

def LocalUses.unused : LocalUses := ⟨.unused, .unused, .unused⟩

def LocalUses.InBounds (u : LocalUses) : Prop := u.buf.InBounds ∧ u.key.InBounds ∧ u.value.InBounds

/-- What a function that takes a string reads of it: up to and with its NUL. -/
def stringReads (buf : Mem) (start : ℕ) : List ℕ := List.range' start ((buf.cstr start).length + 1)

/-- The writes of `cse_read_all`. -/
def readAllWrites (c : Conn) (len : ℕ) : List ℕ := List.range (cseReadAll c len).2.1.length

/-- The place of the NUL of `cse_read_limit`. -/
def readLimitNul (buflen readlen : ℕ) : ℕ := if buflen > readlen then readlen else buflen - 1

/-- The writes of `cse_read_limit`. -/
def readLimitWrites (c : Conn) (buflen readlen : ℕ) : List ℕ :=
  readAllWrites c (min buflen readlen) ++ [readLimitNul buflen readlen]

/-- The length that `cse_read_string` goes by, and the connection behind the header, or
nothing if it gives up. -/
def readStringLength (c : Conn) : Option (ℕ × Conn) :=
  let (_, l1, l2, l3, c) := readHeader c
  if c.stream.socket < 0 ∨ l3 < 0 then none
  else some (low8 l1 * 65536 + low8 l2 * 256 + low8 l3, c)

/-- The place of the NUL of `cse_read_string`, if it stores one. -/
def readStringNul (c : Conn) (length : ℕ) : Option ℕ :=
  (readStringLength c).map fun found => readLimitNul (length - 1) found.1

/-- The writes of `cse_read_string`. -/
def readStringWrites (c : Conn) (length : ℕ) : List ℕ :=
  ((readStringLength c).map fun found => readLimitWrites found.2 (length - 1) found.1).getD []

/-- The uses of the local arrays by the `switch` of `send_data`. `atoi` and `strcasecmp`
read a front of what the copy of the string reads. -/
def packetUses (code : ℤ) (len : ℕ) (m : Locals) (x : Relay) : LocalUses :=
  let after := (handlePacket code len m x).2.1
  if code = cseStatus.toNat then
    let word := ((after.buf.cstr 0).takeWhile (· ≠ 32)).length
    { LocalUses.unused with
      buf := ⟨readAllWrites x.conn len ++ [len], some len,
        List.range (word + 1) ++ stringReads after.buf (word + 1)⟩ }
  else if code = cseHeader.toNat then
    let c := (cseReadAll x.conn len).2.2
    { LocalUses.unused with
      key := ⟨readAllWrites x.conn len ++ [len], some len, stringReads after.key 0⟩
      value := ⟨readStringWrites c localLength, readStringNul c localLength,
        stringReads after.value 0⟩ }
  else if code = cseData.toNat ∨ code = cseFlushCode.toNat ∨ code = cseKeepalive.toNat ∨
      code = cseSendHeader.toNat ∨ code = -1 then .unused
  else { LocalUses.unused with buf := ⟨readAllWrites x.conn len, none, []⟩ }

/-- The uses of the local arrays by one round of `send_data`. -/
def sendPacketUses (m : Locals) (x : Relay) : LocalUses :=
  let (code, l1, l2, l3, c) := readHeader x.conn
  let len := low8 l1 * 65536 + low8 l2 * 256 + low8 l3
  if c.stream.socket < 0 then .unused
  else packetUses code len m { x with conn := c, heard := x.heard ++ [code] }

/-- The property holds at the start of so many rounds of `send_data`. -/
def EachRound (P : Locals → Relay → Prop) (ack : Byte) : ℕ → Locals → Relay → Prop
  | 0, _, _ => True
  | fuel + 1, m, x =>
      P m x ∧ (Goes ack (sendPacket m x).1 →
        EachRound P ack fuel (sendPacket m x).2.1 (sendPacket m x).2.2)

/-- Two properties that agree under an invariant of the rounds agree on all of them. -/
theorem eachRound_congr {P Q I : Locals → Relay → Prop} {ack : Byte}
    (hstep : ∀ m x, I m x → I (sendPacket m x).2.1 (sendPacket m x).2.2)
    (hagree : ∀ m x, I m x → (P m x ↔ Q m x)) (fuel : ℕ) {m : Locals} {x : Relay} (h : I m x) :
    EachRound P ack fuel m x ↔ EachRound Q ack fuel m x := by
  induction fuel generalizing m x with
  | zero => exact Iff.rfl
  | succ fuel ih =>
      rw [EachRound, EachRound, hagree m x h, ih (hstep m x h)]

/-! ## What is written is what changes -/

theorem store_of_not_mem (m : Mem) (start : ℕ) (bytes : List Byte) {i : ℕ}
    (h : i ∉ List.range' start bytes.length) : m.store start bytes i = m i := by
  rw [List.mem_range'_1] at h
  exact if_neg h

theorem store_nul_of_not_mem (m : Mem) (bytes : List Byte) (len : ℕ) {i : ℕ}
    (h : i ∉ List.range bytes.length ++ [len]) :
    (m.store 0 bytes).store len [0] i = m i := by
  rw [List.mem_append, not_or, List.range_eq_range'] at h
  rw [store_of_not_mem _ _ _ (by simpa using h.2), store_of_not_mem _ _ _ h.1]

theorem cseReadLimit_of_not_mem (c : Conn) (buf : Mem) (buflen readlen : ℕ) {i : ℕ}
    (h : i ∉ readLimitWrites c buflen readlen) :
    (cseReadLimit c buf buflen readlen).2.1 i = buf i := by
  unfold readLimitWrites readLimitNul at h
  unfold cseReadLimit
  by_cases hfits : buflen > readlen
  · rw [if_pos hfits, Nat.min_eq_right (Nat.le_of_lt hfits)] at h
    rw [if_pos hfits]
    exact store_nul_of_not_mem _ _ _ h
  · rw [if_neg hfits, Nat.min_eq_left (Nat.not_lt.mp hfits)] at h
    rw [if_neg hfits]
    exact store_nul_of_not_mem _ _ _ h

/-- `cse_read_string` goes by its length, if it does not give up. -/
theorem cseReadString_of_length (c : Conn) (buf : Mem) (length : ℕ) :
    readStringLength c = none ∧ (cseReadString c buf length).2.1 = buf ∨
      ∃ n c', readStringLength c = some (n, c') ∧
        (cseReadString c buf length).2.1 = (cseReadLimit c' buf (length - 1) n).2.1 := by
  rcases hheader : readHeader c with ⟨code, l1, l2, l3, c'⟩
  simp only [cseReadString_eq, readStringLength, hheader]
  by_cases hlost : c'.stream.socket < 0 ∨ l3 < 0
  · simp only [if_pos hlost]
    exact Or.inl ⟨trivial, trivial⟩
  · simp only [if_neg hlost]
    exact Or.inr ⟨_, _, rfl, rfl⟩

theorem cseReadString_of_not_mem (c : Conn) (buf : Mem) (length : ℕ) {i : ℕ}
    (h : i ∉ readStringWrites c length) : (cseReadString c buf length).2.1 i = buf i := by
  rcases cseReadString_of_length c buf length with ⟨-, hbuf⟩ | ⟨n, c', hlength, hbuf⟩
  · rw [hbuf]
  · rw [readStringWrites, hlength] at h
    rw [hbuf]
    exact cseReadLimit_of_not_mem c' buf _ _ h

/-- A local array is unchanged where `packetUses` has no write. -/
theorem handlePacket_of_not_mem (code : ℤ) (len : ℕ) (m : Locals) (x : Relay) (i : ℕ) :
    (i ∉ (packetUses code len m x).buf.writes →
        (handlePacket code len m x).2.1.buf i = m.buf i) ∧
      (i ∉ (packetUses code len m x).key.writes →
        (handlePacket code len m x).2.1.key i = m.key i) ∧
      (i ∉ (packetUses code len m x).value.writes →
        (handlePacket code len m x).2.1.value i = m.value i) := by
  unfold packetUses handlePacket
  by_cases hstatus : code = cseStatus.toNat
  · simp only [if_pos hstatus]
    exact ⟨store_nul_of_not_mem _ _ _, fun _ => trivial, fun _ => trivial⟩
  simp only [if_neg hstatus]
  by_cases hheader : code = cseHeader.toNat
  · simp only [if_pos hheader]
    exact ⟨fun _ => trivial, store_nul_of_not_mem _ _ _, cseReadString_of_not_mem _ _ _⟩
  simp only [if_neg hheader]
  by_cases hbare : code = cseData.toNat ∨ code = cseFlushCode.toNat ∨ code = cseKeepalive.toNat ∨
      code = cseSendHeader.toNat ∨ code = -1
  · rcases hbare with rfl | rfl | rfl | rfl | rfl <;>
      exact ⟨fun _ => rfl, fun _ => rfl, fun _ => rfl⟩
  · rw [if_neg hbare]
    simp only [not_or] at hbare
    obtain ⟨hdata, hflush, hkeepalive, hsend, hnone⟩ := hbare
    simp only [if_neg hdata, if_neg hflush, if_neg hkeepalive, if_neg hsend, if_neg hnone]
    refine ⟨fun h => store_of_not_mem _ _ _ ?_, fun _ => trivial, fun _ => trivial⟩
    rwa [← List.range_eq_range']

/-! ## Strings that end -/

/-- A string ends before a NUL that is behind its start. -/
theorem cstr_length_le {m : Mem} {start stop : ℕ} (hstop : m stop = 0) (hle : start ≤ stop) :
    start + (m.cstr start).length ≤ stop := by
  by_contra hlong
  have hmem : stop - start < (m.cstr start).length := by omega
  have hbyte := List.getElem_mem hmem
  have hnul : (m.cstr start)[stop - start] = m stop := by
    have hpre := List.takeWhile_prefix (fun b : Byte => b ≠ 0)
      (l := (List.range' start (localLength - start)).map m)
    rw [← Mem.cstr] at hpre
    rw [hpre.getElem hmem, List.getElem_map, List.getElem_range', Nat.one_mul,
      Nat.add_sub_cancel' hle]
  rw [hnul, hstop, Mem.cstr] at hbyte
  have := List.mem_takeWhile_imp hbyte
  simp at this

theorem stringReads_le {m : Mem} {start stop : ℕ} (hstop : m stop = 0) (hle : start ≤ stop) :
    ∀ i ∈ stringReads m start, i ≤ stop := by
  intro i hi
  have := cstr_length_le hstop hle
  rw [stringReads, List.mem_range'_1] at hi
  omega

theorem start_mem_stringReads (m : Mem) (start : ℕ) : start ∈ stringReads m start := by
  rw [stringReads, List.mem_range'_1]
  omega

theorem mem_writes_iff {n len : ℕ} (h : n ≤ len) (limit : ℕ) :
    (∀ i ∈ List.range n ++ [len], i < limit) ↔ len < limit := by
  simp only [List.mem_append, List.mem_range, List.mem_singleton]
  constructor
  · exact fun hall => hall len (Or.inr rfl)
  · rintro hlen i (hi | rfl)
    · omega
    · exact hlen

/-- The first blank or NUL of an array, up to which a word goes. -/
theorem word_length_le {m : Mem} {stop : ℕ} (hstop : m stop = 0) :
    ((m.cstr 0).takeWhile (· ≠ 32)).length ≤ stop :=
  Nat.le_trans (List.takeWhile_prefix _).length_le
    (Nat.zero_add (m.cstr 0).length ▸ cstr_length_le hstop (Nat.zero_le stop))

theorem word_get {m : Mem} {k : ℕ} (h : k < ((m.cstr 0).takeWhile (· ≠ 32)).length) :
    m k ≠ 0 ∧ m k ≠ 32 := by
  have hword := List.takeWhile_prefix (fun b : Byte => b ≠ 32) (l := m.cstr 0)
  have hstring := List.takeWhile_prefix (fun b : Byte => b ≠ 0)
    (l := (List.range' 0 localLength).map m)
  have hget : ((m.cstr 0).takeWhile (· ≠ 32))[k] = m k := by
    rw [hword.getElem h]
    exact (hstring.getElem _).trans (by rw [List.getElem_map, List.getElem_range']; simp)
  have hmem := List.getElem_mem h
  rw [hget] at hmem
  have hblank := List.mem_takeWhile_imp hmem
  have hnul := List.mem_takeWhile_imp (hword.subset hmem)
  exact ⟨by simpa using hnul, by simpa using hblank⟩

/-- A payload that is read as a string, with a NUL behind it. -/
theorem stringUses_inBounds_iff (m : Mem) {bytes : List Byte} {len : ℕ} (h : bytes.length ≤ len) :
    (⟨List.range bytes.length ++ [len], some len,
      stringReads ((m.store 0 bytes).store len [0]) 0⟩ : Uses).InBounds ↔ len < localLength := by
  simp only [Uses.InBounds]
  rw [mem_writes_iff h]
  have hstop : (m.store 0 bytes).store len [0] len = 0 := by simp [Mem.store]
  exact and_iff_left fun i hi => ⟨len, rfl, stringReads_le hstop (Nat.zero_le len) i hi⟩

/-- A payload that is scanned for a blank, with a NUL behind it. -/
theorem statusUses_inBounds_iff (m : Mem) {bytes : List Byte} {len : ℕ} (h : bytes.length ≤ len) :
    (let buf := (m.store 0 bytes).store len [0]
      let word := ((buf.cstr 0).takeWhile (· ≠ 32)).length
      (⟨List.range bytes.length ++ [len], some len,
        List.range (word + 1) ++ stringReads buf (word + 1)⟩ : Uses).InBounds) ↔
      len < localLength ∧ ∃ k < len, m.store 0 bytes k = 0 ∨ m.store 0 bytes k = 32 := by
  simp only [Uses.InBounds]
  rw [mem_writes_iff h]
  refine and_congr_right fun hlen => ?_
  have hstop : (m.store 0 bytes).store len [0] len = 0 := by simp [Mem.store]
  have hsame (k : ℕ) (hk : k < len) : (m.store 0 bytes).store len [0] k = m.store 0 bytes k :=
    store_of_not_mem _ _ _ (by simpa using Nat.ne_of_lt hk)
  have hword := word_length_le hstop
  constructor
  · intro hreads
    by_contra hnone
    rw [not_exists] at hnone
    have hall (k : ℕ) (hk : k < len) : (m.store 0 bytes).store len [0] k ≠ 0 ∧
        (m.store 0 bytes).store len [0] k ≠ 32 := by
      rw [hsame k hk, ← not_or]
      exact fun hbyte => hnone k ⟨hk, hbyte⟩
    have hlength := length_word _ (Nat.le_of_lt hlen) hall fun _ => Or.inl hstop
    rw [hlength] at hreads
    obtain ⟨k, hk, hle⟩ := hreads (len + 1)
      (List.mem_append_right _ (start_mem_stringReads _ _))
    cases hk
    omega
  · rintro ⟨k, hk, hbyte⟩ i hi
    refine ⟨len, rfl, ?_⟩
    have hshort : ((((m.store 0 bytes).store len [0]).cstr 0).takeWhile (· ≠ 32)).length < len := by
      by_contra hlong
      have hlength := Nat.le_antisymm hword (Nat.not_lt.mp hlong)
      have hget := word_get (hlength.symm ▸ hk)
      rw [hsame k hk] at hget
      exact hbyte.elim hget.1 hget.2
    rcases List.mem_append.mp hi with hi | hi
    · rw [List.mem_range] at hi
      omega
    · exact stringReads_le hstop hshort i hi

/-! ## One packet -/

theorem readLoop_length (fuel len : ℕ) (c : Conn) : (readLoop fuel len c).2.1.length ≤ len := by
  induction fuel generalizing len c with
  | zero => exact Nat.zero_le _
  | succ fuel ih =>
      unfold readLoop
      split
      · exact Nat.zero_le _
      · simp only
        split
        · exact Nat.zero_le _
        · simp only [List.length_append, List.length_take]
          generalize hk : min len (fillIfEmpty c).2.stream.buffered = k
          have hrest := ih (len - k) ((fillIfEmpty c).2.advance k)
          have hmin := Nat.min_le_left k (fillIfEmpty c).2.stream.unread.length
          have hk' : k ≤ len := hk ▸ Nat.min_le_left _ _
          change min k _ + (readLoop fuel (len - k) ((fillIfEmpty c).2.advance k)).2.1.length ≤ len
          omega

/-- What is read by `cse_read_limit` is written below the NUL or up to it. -/
theorem limit_inBounds {c : Conn} (buf : Mem) {buflen : ℕ} (hpos : 0 < buflen)
    (hlimit : buflen ≤ localLength) (readlen : ℕ) :
    (∀ i ∈ readLimitWrites c buflen readlen, i < localLength) ∧
      (cseReadLimit c buf buflen readlen).2.1 (readLimitNul buflen readlen) = 0 := by
  unfold readLimitWrites readLimitNul cseReadLimit
  constructor
  · intro i hi
    have hlength := readLoop_length (min buflen readlen) (min buflen readlen) c
    rw [List.mem_append, List.mem_singleton, readAllWrites, List.mem_range] at hi
    rcases hi with hi | rfl
    · have : i < min buflen readlen := Nat.lt_of_lt_of_le hi hlength
      omega
    · split <;> omega
  · split <;> simp [Mem.store]

/-- The value of a header is read as a string only where its length was read. -/
theorem value_inBounds_iff (c : Conn) (m : Mem) :
    (⟨readStringWrites c localLength, readStringNul c localLength,
      stringReads (cseReadString c m localLength).2.1 0⟩ : Uses).InBounds ↔
      (readStringLength c).isSome := by
  simp only [Uses.InBounds, readStringWrites, readStringNul]
  rcases cseReadString_of_length c m localLength with
    ⟨hlength, hbuf⟩ | ⟨n, c', hlength, hbuf⟩
  · rw [hbuf, hlength]
    simp only [Option.map_none, Option.isSome_none, Bool.false_eq_true, iff_false, not_and]
    intro _ hreads
    obtain ⟨k, hk, -⟩ := hreads 0 (start_mem_stringReads m 0)
    cases hk
  · obtain ⟨hwrites, hnul⟩ := @limit_inBounds c' m (localLength - 1) (by decide) (by decide) n
    rw [hbuf, hlength]
    refine ⟨fun _ => rfl, fun _ => ⟨hwrites, fun i hi => ⟨_, rfl, ?_⟩⟩⟩
    exact stringReads_le hnul (Nat.zero_le _) i hi

theorem looseUses_inBounds_iff (n : ℕ) :
    (⟨List.range n, none, []⟩ : Uses).InBounds ↔ n ≤ localLength := by
  simp only [Uses.InBounds, List.mem_range, List.not_mem_nil, false_implies, implies_true, and_true]
  refine ⟨fun hall => ?_, fun hn i hi => Nat.lt_of_lt_of_le hi hn⟩
  by_contra hlong
  exact absurd (hall localLength (Nat.not_le.mp hlong)) (Nat.lt_irrefl _)

theorem unused_inBounds : Uses.unused.InBounds :=
  ⟨fun _ hi => absurd hi List.not_mem_nil, fun _ hi => absurd hi List.not_mem_nil⟩

/-- The next packet has a length that can be read. -/
def HasLength : Option (List (Option Byte)) → Prop
  | some (_ :: _ :: _ :: some _ :: _) => True
  | _ => False

theorem readStringLength_isSome {c : Conn} {state : Option (List (Option Byte))}
    (h : Answers c state) : (readStringLength c).isSome ↔ HasLength state := by
  unfold readStringLength
  cases state with
  | none =>
      have hclosed : c.stream.socket < 0 := h
      simp [HasLength, readHeader_closed hclosed]
  | some answers =>
      obtain ⟨hready, rfl⟩ := h
      rcases readHeader_answers hready with
        ⟨a, a₁, a₂, a₃, rest, c', has, hheader, hrest⟩ | ⟨hshort, hclosed⟩
      · have hopen : ¬ c'.stream.socket < 0 := Int.not_lt.mpr hrest.1.socket
        rw [has, hheader]
        simp only [hopen, false_or]
        cases a₃ with
        | none =>
            rw [if_pos (show byteResult none < 0 by decide)]
            simp [HasLength]
        | some b =>
            have hpos : ¬ byteResult (some b) < 0 := Int.not_lt.mpr (Int.natCast_nonneg b.toNat)
            rw [if_neg hpos]
            simp [HasLength]
      · simp only [if_pos (Or.inl hclosed : (readHeader c).2.2.2.2.stream.socket < 0 ∨ _)]
        match c.answers, hshort with
        | [], _ => simp [HasLength]
        | [_], _ => simp [HasLength]
        | [_, _], _ => simp [HasLength]
        | [_, _, _], _ => simp [HasLength]

/-- The condition on a packet: `len` is its length and `answers` is what the reads behind
its header get. -/
def PacketFits (m : Locals) (code : Byte) (len : ℕ) (answers : List (Option Byte)) : Prop :=
  if code = cseStatus then
    len < localLength ∧ ∃ k < len, m.buf.store 0 (takeBytes len answers).1 k = 0 ∨
      m.buf.store 0 (takeBytes len answers).1 k = 32
  else if code = cseHeader then len < localLength ∧ HasLength (takeBytes len answers).2
  else
    code = cseData ∨ code = cseFlushCode ∨ code = cseKeepalive ∨ code = cseSendHeader ∨
      (takeBytes len answers).1.length ≤ localLength

theorem packetUses_inBounds_iff (code : Byte) (len : ℕ) (m : Locals) {x : Relay}
    (h : x.conn.Ready) :
    (packetUses code.toNat len m x).InBounds ↔ PacketFits m code len x.conn.answers := by
  have hnot : (code.toNat : ℤ) ≠ -1 := by omega
  obtain ⟨hbytes, hrest⟩ := cseReadAll_answers h len
  have hlength := takeBytes_length len x.conn.answers
  unfold packetUses PacketFits
  simp only [byte_cast_inj, hnot, or_false]
  by_cases hstatus : code = cseStatus
  · simp only [if_pos hstatus]
    have harm : (handlePacket code.toNat len m x).2.1.buf =
        (m.buf.store 0 (cseReadAll x.conn len).2.1).store len [0] := by
      rw [hstatus]
      rfl
    rw [harm, readAllWrites, hbytes, ← statusUses_inBounds_iff m.buf hlength]
    exact ⟨fun h => h.1, fun h => ⟨h, unused_inBounds, unused_inBounds⟩⟩
  simp only [if_neg hstatus]
  by_cases hheader : code = cseHeader
  · simp only [if_pos hheader]
    have hkey : (handlePacket code.toNat len m x).2.1.key =
        (m.key.store 0 (cseReadAll x.conn len).2.1).store len [0] := by
      rw [hheader]
      rfl
    have hvalue : (handlePacket code.toNat len m x).2.1.value =
        (cseReadString (cseReadAll x.conn len).2.2 m.value localLength).2.1 := by
      rw [hheader]
      rfl
    rw [hkey, hvalue, readAllWrites, hbytes, ← readStringLength_isSome hrest,
      ← value_inBounds_iff _ m.value, ← stringUses_inBounds_iff m.key hlength]
    exact ⟨fun h => h.2, fun h => ⟨unused_inBounds, h⟩⟩
  simp only [if_neg hheader]
  by_cases hbare : code = cseData ∨ code = cseFlushCode ∨ code = cseKeepalive ∨ code = cseSendHeader
  · rw [if_pos hbare]
    refine iff_of_true ⟨unused_inBounds, unused_inBounds, unused_inBounds⟩ ?_
    rcases hbare with hcode | hcode | hcode | hcode <;> simp [hcode]
  · rw [if_neg hbare]
    simp only [not_or] at hbare
    obtain ⟨hdata, hflush, hkeepalive, hsend⟩ := hbare
    simp only [hdata, hflush, hkeepalive, hsend, false_or, readAllWrites, hbytes]
    rw [← looseUses_inBounds_iff]
    exact ⟨fun h => h.1, fun h => ⟨h, unused_inBounds, unused_inBounds⟩⟩

/-! ## All packets -/

/-- The read buffer holds what it counts. -/
def Conn.Buffered (c : Conn) : Prop := c.stream.readLength ≤ c.stream.readBuf.length

theorem recv_buffered (c : Conn) : c.recv.Buffered := by
  unfold Conn.recv
  split
  · exact Int.le_refl _
  · exact Int.le_trans (Int.le_of_lt (Int.negSucc_lt_zero 0)) (Int.natCast_nonneg _)
  · exact Int.natCast_nonneg _
  · exact Int.natCast_nonneg _

theorem buffered_of_stream {c c' : Conn} (hbuf : c'.stream.readBuf = c.stream.readBuf)
    (hlength : c'.stream.readLength = c.stream.readLength) (h : c.Buffered) : c'.Buffered := by
  rw [Conn.Buffered, hbuf, hlength]
  exact h

/-- Every operation on a stream leaves a buffer that holds what it counts. -/
theorem exec_buffered (op : StreamOp) {c : Conn} (h : c.Buffered) : (op.exec c).Buffered := by
  have hflush : (cseFlush c).2.stream.readBuf = c.stream.readBuf ∧
      (cseFlush c).2.stream.readLength = c.stream.readLength := by
    unfold cseFlush
    split
    · simp only
      split <;> exact ⟨rfl, rfl⟩
    · exact ⟨rfl, rfl⟩
  cases op with
  | write buf =>
      have hreading := cseWrite_reading c buf
      simp only [Conn.reading, Prod.mk.injEq] at hreading
      exact buffered_of_stream hreading.1 hreading.2.2.1 h
  | flush => exact buffered_of_stream hflush.1 hflush.2 h
  | fill =>
      change (cseFillBuffer c).2.Buffered
      unfold cseFillBuffer
      split
      · exact h
      · simp only
        split
        · exact buffered_of_stream hflush.1 hflush.2 h
        · split
          · exact buffered_of_stream rfl rfl (recv_buffered _)
          · exact recv_buffered _
  | skip n => exact h
  | close => exact h

theorem sendPacket_buffered (m : Locals) (x : Relay) (h : x.conn.Buffered) :
    (sendPacket m x).2.2.conn.Buffered := by
  obtain ⟨ops, hops, -⟩ := performs_sendPacket m x
  rw [← hops]
  clear hops
  generalize x.conn = c at h
  induction ops generalizing c with
  | nil => exact h
  | cons op ops ih => exact ih _ (exec_buffered op h)

/-- The condition on a round: the packet that comes, if one comes, fits the arrays. -/
def RoundFits (m : Locals) (x : Relay) : Prop :=
  0 ≤ x.conn.stream.socket →
    match x.conn.answers with
    | some code :: a₁ :: a₂ :: a₃ :: answers => PacketFits m code (headerLength a₁ a₂ a₃) answers
    | _ => True

theorem sendPacketUses_inBounds_iff (m : Locals) (x : Relay) (h : x.conn.Buffered) :
    (sendPacketUses m x).InBounds ↔ RoundFits m x := by
  have hunused : LocalUses.unused.InBounds := ⟨unused_inBounds, unused_inBounds, unused_inBounds⟩
  unfold sendPacketUses RoundFits
  by_cases hlost : x.conn.stream.socket < 0
  · simp only [if_pos (readHeader_closed hlost)]
    exact iff_of_true hunused fun hopen => absurd hlost (Int.not_lt.mpr hopen)
  have hready : x.conn.Ready := ⟨Int.not_lt.mp hlost, h⟩
  rw [forall_prop_of_true hready.socket]
  rcases readHeader_answers hready with
    ⟨a, a₁, a₂, a₃, answers, c', has, hheader, hready', hrest⟩ | ⟨hshort, hclosed⟩
  · have hopen : ¬ c'.stream.socket < 0 := Int.not_lt.mpr hready'.socket
    rw [has, hheader]
    simp only [if_neg hopen]
    cases a with
    | none => exact iff_of_true hunused trivial
    | some code =>
        simp only [byteResult]
        rw [← hrest]
        exact @packetUses_inBounds_iff code (headerLength a₁ a₂ a₃) m
          { x with conn := c', heard := x.heard ++ [(code.toNat : ℤ)] } hready'
  · simp only [if_pos hclosed]
    refine iff_of_true hunused ?_
    split
    · rename_i has
      rw [has, List.length_cons, List.length_cons, List.length_cons, List.length_cons] at hshort
      omega
    · trivial

/-- `send_data` stays inside its local arrays and reads nothing behind the NULs it stores,
however many packets it handles. -/
def StaysInBounds (ack : Byte) (m : Locals) (x : Relay) : Prop :=
  ∀ rounds, EachRound (fun m x => (sendPacketUses m x).InBounds) ack rounds m x

/-- Every packet that `send_data` goes to read fits its local arrays as they are then. -/
def AllFit (ack : Byte) (m : Locals) (x : Relay) : Prop :=
  ∀ rounds, EachRound RoundFits ack rounds m x

/-- `send_data` stays in bounds in exactly the runs in which all packets fit. -/
theorem staysInBounds_iff (ack : Byte) (m : Locals) {x : Relay} (h : x.conn.Buffered) :
    StaysInBounds ack m x ↔ AllFit ack m x :=
  forall_congr' fun rounds =>
    @eachRound_congr _ _ (fun _ x => x.conn.Buffered) ack
      (fun m x hx => sendPacket_buffered m x hx) sendPacketUses_inBounds_iff rounds m x h

theorem staysInBounds_iff_polite :
    StaysInBounds cseEnd (zeroed 0) (exchangeWith politeChunks) ↔
      AllFit cseEnd (zeroed 0) (exchangeWith politeChunks) :=
  staysInBounds_iff cseEnd (zeroed 0) (exchangeWith_live politeChunks).buffer

/-- A STATUS packet without a blank. -/
def bareStatus : List Chunk := [⟨[cseStatus, 0, 0, 2, 79, 75], by simp, by decide⟩]

/-- The status is looked for behind the NUL of the payload `OK`. -/
theorem not_staysInBounds_bareStatus :
    ¬ ∀ (ack : Byte) (m : Locals) (x : Relay), x.conn.Buffered → StaysInBounds ack m x := by
  intro hclaim
  have hlive := exchangeWith_live bareStatus
  have hanswers : (exchangeWith bareStatus).conn.answers =
      [some cseStatus, some 0, some 0, some 2, some 79, some 75] := rfl
  have hround := (sendPacketUses_inBounds_iff _ _ hlive.buffer).mp
    (hclaim cseEnd (zeroed 0) (exchangeWith bareStatus) hlive.buffer 1).1 hlive.socket
  rw [hanswers] at hround
  have hfits : PacketFits (zeroed 0) cseStatus 2 [some 79, some 75] := hround
  rw [PacketFits, if_pos rfl] at hfits
  obtain ⟨-, k, hk, hbyte⟩ := hfits
  match k, hk with
  | 0, _ => exact absurd hbyte (by decide)
  | 1, _ => exact absurd hbyte (by decide)

end ModCaucho
