import ModCaucho.Config.Location
import ModCaucho.Handler.Request
import Mathlib.Data.List.GetD

/-!
# The session of a request

Before a request goes to a runner, three of its strings are walked through without a
look at their lengths: `cse_match_request` copies a URI with a session to an array of
4096 bytes, `write_env` copies the path to one of 1024 bytes, and `decode_session` reads
three characters behind the name of a session, the third one first. What stands in the
memory behind a string is arbitrary.
-/

namespace ModCaucho

open CString Subword

/-! ## Sessions -/

/-- The memory at a string: its bytes, its NUL, and anything behind it. -/
def Mem.ofString (s : List Byte) (beyond : Mem) : Mem := beyond.store 0 (s ++ [0])

/-- The value of a character of a session id in `decode_session`. -/
def sessionDigit (code : Byte) : Option ℤ :=
  if 97 ≤ code ∧ code ≤ 122 then some (code.toNat - 97)
  else if 65 ≤ code ∧ code ≤ 90 then some (code.toNat - 65 + 26)
  else if 48 ≤ code ∧ code ≤ 57 then some (code.toNat - 65 + 52)
  else if code = 95 then some 62
  else if code = 47 then some 63
  else none

/-- The loop of `decode_session` over the indices below `i`, from the top one down, with
the indices that it reads. -/
def decodeLoop (session : Mem) : ℕ → ℤ → ℤ × List ℕ
  | 0, value => (value, [])
  | i + 1, value =>
      match sessionDigit (session i) with
      | some digit =>
          let (result, reads) := decodeLoop session i (64 * value + digit)
          (result, i :: reads)
      | none => (-1, [i])

/-- `decode_session` -/
def decodeSession (session : Mem) : ℤ × List ℕ := decodeLoop session 3 0

/-- An index that is read of a string, and the index of its NUL. -/
structure StringRead where
  index : ℕ
  nul : ℕ

/-- `cse_session_from_string`, with what `decode_session` reads of the string behind the
name. -/
def cseSessionFromString (beyond : List Byte → Mem) (source cookie : List Byte) :
    ℤ × List StringRead :=
  match find cookie source with
  | some found =>
      let rest := found.drop cookie.length
      let (session, reads) := decodeSession (Mem.ofString rest (beyond source))
      (session, reads.map fun i => ⟨i, rest.length⟩)
  | none => (-1, [])

/-- The name of a session in a cookie. -/
def cookieName : List Byte := ascii "JSESSIONID=".toList

/-- The name of a session in a URI. -/
def uriName : List Byte := ascii ";jsessionid=".toList

/-- `get_session_index`. The cookies come before the URI. -/
def getSessionIndex (beyond : List Byte → Mem) (uri : List Byte) :
    List (Option (List Byte) × List Byte) → ℤ × List StringRead
  | [] => cseSessionFromString beyond uri uriName
  | (key, val) :: hdrs =>
      if ∃ name ∈ key, strcaseEq name (ascii "Cookie".toList) then
        let (session, reads) := cseSessionFromString beyond val cookieName
        if session ≥ 0 then (session, reads)
        else
          let (session, reads') := getSessionIndex beyond uri hdrs
          (session, reads ++ reads')
      else getSessionIndex beyond uri hdrs

/-! ## Copies -/

/-- The indices that `cse_match_request` writes in its array. -/
def matchWrites (uri : List Byte) : List ℕ :=
  match find uriName uri with
  | some param => List.range (uri.length + 1) ++ [uri.length - param.length]
  | none => []

/-- The indices that `write_env` writes in its array. -/
def envWrites (unparsedUri : List Byte) : List ℕ :=
  let path := unparsedUri.takeWhile (· ≠ 63)
  List.range path.length ++ [path.length]

/-- The request is dispatched and forwarded within the bounds of the arrays, and nothing
is read behind the end of its strings. -/
structure RequestInBounds (beyond : List Byte → Mem) (uri : List Byte) (r : Request) : Prop where
  dispatch : ∀ i ∈ matchWrites uri, i < 4096
  env : ∀ i ∈ envWrites r.unparsedUri, i < 1024
  session : ∀ read ∈ (getSessionIndex beyond uri r.headersIn).2, read.index ≤ read.nul

/-! ## Reading a session -/

/-- A session id can be decoded. -/
def IsSessionId (rest : List Byte) : Prop :=
  3 ≤ rest.length ∧ ∀ b ∈ rest.take 3, (sessionDigit b).isSome

theorem sessionDigit_nonneg {code : Byte} {digit : ℤ} (h : sessionDigit code = some digit) :
    0 ≤ digit := by
  unfold sessionDigit at h
  simp only [UInt8.le_iff_toNat_le] at h
  split at h
  · next hlower =>
      rw [← Option.some_inj.mp h]
      have : 97 ≤ code.toNat := hlower.1
      omega
  split at h
  · next hupper =>
      rw [← Option.some_inj.mp h]
      have : 65 ≤ code.toNat := hupper.1
      omega
  split at h
  · next hdigit =>
      rw [← Option.some_inj.mp h]
      have : 48 ≤ code.toNat := hdigit.1
      omega
  split at h
  · rw [← Option.some_inj.mp h]
    decide
  split at h
  · rw [← Option.some_inj.mp h]
    decide
  · cases h

/-- The loop reads below its bound, and first of all the index just below it. -/
theorem decodeLoop_reads (session : Mem) (n : ℕ) (value : ℤ) :
    (∀ i ∈ (decodeLoop session n value).2, i < n) ∧
      (0 < n → n - 1 ∈ (decodeLoop session n value).2) := by
  induction n generalizing value with
  | zero => exact ⟨fun i hi => absurd hi List.not_mem_nil, fun h => absurd h (Nat.lt_irrefl 0)⟩
  | succ n ih =>
      unfold decodeLoop
      cases sessionDigit (session n) with
      | none =>
          refine ⟨fun i hi => ?_, fun _ => List.mem_singleton.mpr rfl⟩
          rw [List.mem_singleton.mp hi]
          exact Nat.lt_succ_self n
      | some digit =>
          refine ⟨fun i hi => ?_, fun _ => List.mem_cons_self⟩
          rcases List.mem_cons.mp hi with rfl | hi
          · exact Nat.lt_succ_self i
          · exact Nat.lt_succ_of_lt ((ih _).1 i hi)

/-- The loop succeeds if and only if all its characters have a value. -/
theorem decodeLoop_nonneg (session : Mem) (n : ℕ) {value : ℤ} (h : 0 ≤ value) :
    0 ≤ (decodeLoop session n value).1 ↔ ∀ i < n, (sessionDigit (session i)).isSome := by
  induction n generalizing value with
  | zero => exact iff_of_true h fun i hi => absurd hi (Nat.not_lt_zero i)
  | succ n ih =>
      unfold decodeLoop
      cases hdigit : sessionDigit (session n) with
      | none =>
          refine iff_of_false (show ¬ (0 : ℤ) ≤ -1 by decide) fun hall => ?_
          have := hall n (Nat.lt_succ_self n)
          rw [hdigit] at this
          cases this
      | some digit =>
          have hpos := sessionDigit_nonneg hdigit
          change 0 ≤ (decodeLoop session n (64 * value + digit)).1 ↔ _
          rw [ih (by omega), Nat.forall_lt_succ_right, hdigit]
          exact (and_iff_left rfl).symm

theorem ofString_get (s : List Byte) (beyond : Mem) {i : ℕ} (h : i ≤ s.length) :
    Mem.ofString s beyond i = s.getD i 0 := by
  unfold Mem.ofString Mem.store
  rw [if_pos (by simp; omega), Nat.sub_zero]
  by_cases hlt : i < s.length
  · simp [List.getElem?_append_left hlt]
  · obtain rfl : i = s.length := by omega
    simp

theorem decodeSession_nonneg (rest : List Byte) (beyond : Mem) :
    0 ≤ (decodeSession (Mem.ofString rest beyond)).1 ↔ IsSessionId rest := by
  rw [decodeSession, decodeLoop_nonneg _ 3 (Int.le_refl 0)]
  constructor
  · intro hall
    have hlong : 3 ≤ rest.length := by
      by_contra hshort
      have hnul := hall rest.length (Nat.not_le.mp hshort)
      rw [ofString_get rest beyond (Nat.le_refl _),
        List.getD_eq_default _ _ (Nat.le_refl _)] at hnul
      exact absurd hnul (by decide)
    refine ⟨hlong, fun b hb => ?_⟩
    obtain ⟨i, hi, rfl⟩ := List.getElem_of_mem hb
    have hlt : i < 3 := Nat.lt_of_lt_of_le hi (List.length_take_le 3 rest)
    have hdigit := hall i hlt
    rw [ofString_get rest beyond (by omega), List.getD_eq_getElem _ _ (by omega)] at hdigit
    rwa [List.getElem_take]
  · rintro ⟨hlong, hall⟩ i hi
    rw [ofString_get rest beyond (by omega), List.getD_eq_getElem _ _ (by omega)]
    refine hall _ ?_
    have hlt : i < (rest.take 3).length := by
      rw [List.length_take]
      omega
    rw [← @List.getElem_take _ rest 3 i hlt]
    exact List.getElem_mem hlt

/-- What is read of a session id is in bounds if it has two characters. -/
theorem decodeSession_reads (rest : List Byte) (session : Mem) :
    (∀ i ∈ (decodeSession session).2, i ≤ rest.length) ↔ 2 ≤ rest.length := by
  obtain ⟨hbelow, hfirst⟩ := decodeLoop_reads session 3 0
  constructor
  · exact fun hall => hall 2 (hfirst (by decide))
  · intro hlong i hi
    have := hbelow i hi
    omega

/-! ## The condition -/

/-- Where the name occurs, two characters stand behind its first occurrence. -/
def LongEnough (name source : List Byte) : Prop :=
  ∀ found, find name source = some found → 2 ≤ (found.drop name.length).length

/-- A session that can be decoded stands behind the first occurrence of the name. -/
def NamesSession (name source : List Byte) : Prop :=
  ∃ found, find name source = some found ∧ IsSessionId (found.drop name.length)

/-- The cookies up to the first one that names a session are long enough, and so is the
URI if none does. -/
def SessionFits (uri : List Byte) : List (Option (List Byte) × List Byte) → Prop
  | [] => LongEnough uriName uri
  | (key, val) :: hdrs =>
      if ∃ name ∈ key, strcaseEq name (ascii "Cookie".toList) then
        LongEnough cookieName val ∧ (NamesSession cookieName val ∨ SessionFits uri hdrs)
      else SessionFits uri hdrs

theorem cseSessionFromString_nonneg (beyond : List Byte → Mem) (source name : List Byte) :
    0 ≤ (cseSessionFromString beyond source name).1 ↔ NamesSession name source := by
  unfold cseSessionFromString NamesSession
  cases find name source with
  | none => exact iff_of_false (show ¬ (0 : ℤ) ≤ -1 by decide) fun ⟨found, h, _⟩ => by cases h
  | some found =>
      simp only [decodeSession_nonneg, Option.some.injEq, exists_eq_left']

theorem cseSessionFromString_reads (beyond : List Byte → Mem) (source name : List Byte) :
    (∀ read ∈ (cseSessionFromString beyond source name).2, read.index ≤ read.nul) ↔
      LongEnough name source := by
  unfold cseSessionFromString LongEnough
  cases find name source with
  | none => simp
  | some found =>
      simp only [List.mem_map, forall_exists_index, and_imp, forall_apply_eq_imp_iff₂,
        decodeSession_reads, Option.some.injEq, forall_eq']

theorem getSessionIndex_reads (beyond : List Byte → Mem) (uri : List Byte)
    (hdrs : List (Option (List Byte) × List Byte)) :
    (∀ read ∈ (getSessionIndex beyond uri hdrs).2, read.index ≤ read.nul) ↔
      SessionFits uri hdrs := by
  induction hdrs with
  | nil => exact cseSessionFromString_reads beyond uri uriName
  | cons hdr hdrs ih =>
      obtain ⟨key, val⟩ := hdr
      unfold getSessionIndex SessionFits
      split
      · have hreads := cseSessionFromString_reads beyond val cookieName
        have hnames := cseSessionFromString_nonneg beyond val cookieName
        simp only
        by_cases hnamed : 0 ≤ (cseSessionFromString beyond val cookieName).1
        · rw [if_pos hnamed, hreads]
          exact (and_iff_left (Or.inl (hnames.mp hnamed))).symm
        · rw [if_neg hnamed, or_iff_right (fun h => hnamed (hnames.mpr h)), ← hreads, ← ih]
          simp only [List.mem_append, or_imp, forall_and]
      · exact ih

theorem matchWrites_lt (uri : List Byte) :
    (∀ i ∈ matchWrites uri, i < 4096) ↔ (uriName <:+: uri → uri.length < 4096) := by
  unfold matchWrites
  rw [← find_isSome_iff]
  cases find uriName uri with
  | none => simp
  | some param =>
      simp only [Option.isSome_some, forall_const, List.mem_append, List.mem_range,
        List.mem_singleton]
      constructor
      · exact fun hall => hall uri.length (Or.inl (Nat.lt_succ_self _))
      · rintro hlen i (hi | rfl)
        · omega
        · omega

theorem envWrites_lt (unparsedUri : List Byte) :
    (∀ i ∈ envWrites unparsedUri, i < 1024) ↔
      (unparsedUri.takeWhile (· ≠ 63)).length < 1024 := by
  unfold envWrites
  simp only [List.mem_append, List.mem_range, List.mem_singleton]
  constructor
  · exact fun hall => hall _ (Or.inr rfl)
  · rintro hlen i (hi | rfl)
    · exact Nat.lt_trans hi hlen
    · exact hlen

/-- A request is dispatched and forwarded in bounds if and only if its URI has less than
4096 bytes where it has a session, its path has less than 1024 bytes, and the sessions
that are looked at have at least two characters. -/
theorem requestInBounds_iff (beyond : List Byte → Mem) (uri : List Byte) (r : Request) :
    RequestInBounds beyond uri r ↔
      (uriName <:+: uri → uri.length < 4096) ∧ (r.unparsedUri.takeWhile (· ≠ 63)).length < 1024 ∧
        SessionFits uri r.headersIn := by
  rw [← matchWrites_lt, ← envWrites_lt, ← getSessionIndex_reads beyond]
  exact ⟨fun h => ⟨h.dispatch, h.env, h.session⟩, fun h => ⟨h.1, h.2.1, h.2.2⟩⟩

/-- A request whose cookie ends behind the name of its session. -/
def bareCookie : Request where
  protocol := ascii "HTTP/1.0".toList
  method := ascii "GET".toList
  unparsedUri := ascii "/".toList
  args := none
  serverName := ascii "localhost".toList
  serverPort := 80
  remoteHost := none
  remoteIp := ascii "127.0.0.1".toList
  remotePort := 1024
  user := none
  authType := none
  headersIn := [(some (ascii "Cookie".toList), cookieName)]
  subprocessEnv := []
  shouldClientBlock := false
  blocks := []

/-- The third character behind the name is read, which is behind the end of the header. -/
theorem not_requestInBounds_bareCookie :
    ¬ ∀ (beyond : List Byte → Mem) (uri : List Byte) (r : Request),
      RequestInBounds beyond uri r := by
  intro hclaim
  have hreads := (hclaim (fun _ _ => 0) (ascii "/".toList) bareCookie).session
  rw [getSessionIndex_reads] at hreads
  have hlong := hreads.1 cookieName (by decide)
  exact absurd hlong (by decide)

end ModCaucho
