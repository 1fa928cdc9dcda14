import ModCaucho.Handler.Session
import Mathlib.Data.List.Nodup
import Mathlib.Tactic.Ring

/-!
# The host of a session id

A session id begins with the number of its host in three characters, least significant
one first, over an alphabet of 64 characters. `decode_session` takes the characters
back to their values, except that it subtracts the code of `A` from that of a decimal
digit: the ten digits have the values of `J` to `S`, and their own ten values belong to
no character.
-/

namespace ModCaucho

open CString Subword

/-- The characters of a session id in the order of their values: `a` to `z`, `A` to `Z`,
`0` to `9`, `_` and `/`. -/
def sessionAlphabet : List Byte :=
  (List.range' 97 26 ++ List.range' 65 26 ++ List.range' 48 10 ++ [95, 47]).map UInt8.ofNat

example : sessionAlphabet =
    ascii "abcdefghijklmnopqrstuvwxyzABCDEFGHIJKLMNOPQRSTUVWXYZ0123456789_/".toList := by
  decide +kernel

def sessionChar (k : ℕ) : Byte := sessionAlphabet.getD k 0

/-- The characters that name the host of number `n`: `aaa`, `baa`, `caa` and so on. -/
def sessionWord (n : ℕ) : List Byte :=
  [sessionChar (n % 64), sessionChar (n / 64 % 64), sessionChar (n / 4096 % 64)]

/-- The value that the character of value `k` has in `decode_session`. -/
def decodedDigit (k : ℕ) : ℕ := if 52 ≤ k ∧ k < 62 then k - 17 else k

/-- The number that `decode_session` takes the word of the number `n` for. -/
def decodedHost (n : ℕ) : ℕ :=
  decodedDigit (n % 64) + 64 * decodedDigit (n / 64 % 64) + 4096 * decodedDigit (n / 4096 % 64)

/-- The values of the characters of the word of the number `n`. -/
def hostDigits (n : ℕ) : List ℕ := [n % 64, n / 64 % 64, n / 4096 % 64]

def IsDecimal (b : Byte) : Prop := 48 ≤ b ∧ b ≤ 57

instance (b : Byte) : Decidable (IsDecimal b) := inferInstanceAs (Decidable (48 ≤ b ∧ b ≤ 57))

/-- The letter that has the value of a decimal digit, and every other character itself. -/
def asLetter (b : Byte) : Byte := if IsDecimal b then b + 26 else b

/-- No occurrence of the name begins in the text before it. -/
def FirstBehind (name front : List Byte) : Prop :=
  ∀ front' rest', front ++ name = front' ++ name ++ rest' → rest' = []

/-- Three characters of the alphabet are at the front. -/
def BeginsWithWord (rest : List Byte) : Prop :=
  3 ≤ rest.length ∧ ∀ b ∈ rest.take 3, b ∈ sessionAlphabet

/-! ## The alphabet -/

theorem sessionDigit_sessionChar {k : ℕ} (h : k < 64) :
    sessionDigit (sessionChar k) = some (decodedDigit k : ℤ) := by
  have hall : ∀ k < 64, sessionDigit (sessionChar k) = some (decodedDigit k : ℤ) := by
    decide +kernel
  exact hall k h

theorem mem_sessionAlphabet (b : Byte) :
    b ∈ sessionAlphabet ↔ b.toNat ∈ List.range' 97 26 ++ List.range' 65 26 ++
      List.range' 48 10 ++ [95, 47] := by
  have hsmall : ∀ n ∈ List.range' 97 26 ++ List.range' 65 26 ++ List.range' 48 10 ++ [95, 47],
      n < 256 := by decide
  constructor
  · intro h
    obtain ⟨n, hn, rfl⟩ := List.mem_map.mp h
    rwa [UInt8.toNat_ofNat_of_lt' (hsmall n hn)]
  · exact fun h => List.mem_map.mpr ⟨b.toNat, h, UInt8.ofNat_toNat⟩

theorem sessionDigit_isSome_iff (b : Byte) : (sessionDigit b).isSome ↔ b ∈ sessionAlphabet := by
  simp only [mem_sessionAlphabet, List.mem_append, List.mem_range'_1, List.mem_cons,
    List.not_mem_nil, or_false]
  unfold sessionDigit
  simp only [UInt8.le_iff_toNat_le, ← UInt8.toNat_inj, UInt8.toNat_ofNat]
  split_ifs <;> simp <;> omega

theorem isSessionId_iff (rest : List Byte) : IsSessionId rest ↔ BeginsWithWord rest := by
  unfold IsSessionId BeginsWithWord
  simp only [sessionDigit_isSome_iff]

theorem isDecimal_sessionChar {k : ℕ} (h : k < 64) :
    IsDecimal (sessionChar k) ↔ 52 ≤ k ∧ k < 62 := by
  have hall : ∀ k < 64, IsDecimal (sessionChar k) ↔ 52 ≤ k ∧ k < 62 := by decide +kernel
  exact hall k h

theorem asLetter_sessionChar {k : ℕ} (h : k < 64) :
    asLetter (sessionChar k) = sessionChar (decodedDigit k) := by
  have hall : ∀ k < 64, asLetter (sessionChar k) = sessionChar (decodedDigit k) := by
    decide +kernel
  exact hall k h

theorem sessionChar_inj {j k : ℕ} (hj : j < 64) (hk : k < 64) :
    sessionChar j = sessionChar k ↔ j = k := by
  have hnodup : sessionAlphabet.Nodup := by decide +kernel
  have hlong : sessionAlphabet.length = 64 := by decide +kernel
  unfold sessionChar
  rw [List.getD_eq_getElem _ _ (by omega), List.getD_eq_getElem _ _ (by omega)]
  exact List.Nodup.getElem_inj_iff hnodup

theorem decodedDigit_eq_iff (k : ℕ) : decodedDigit k = k ↔ ¬ (52 ≤ k ∧ k < 62) := by
  unfold decodedDigit
  split <;> omega

theorem decodedDigit_lt {k : ℕ} (h : k < 64) : decodedDigit k < 64 := by
  unfold decodedDigit
  split <;> omega

/-! ## A word -/

theorem decodeSession_sessionWord (n : ℕ) (rest : List Byte) (beyond : Mem) :
    (decodeSession (Mem.ofString (sessionWord n ++ rest) beyond)).1 = decodedHost n := by
  have hlong : (sessionWord n ++ rest).length = rest.length + 3 := by simp [sessionWord]
  have h₀ : Mem.ofString (sessionWord n ++ rest) beyond 0 = sessionChar (n % 64) := by
    rw [ofString_get _ _ (by omega)]
    rfl
  have h₁ : Mem.ofString (sessionWord n ++ rest) beyond 1 = sessionChar (n / 64 % 64) := by
    rw [ofString_get _ _ (by omega)]
    rfl
  have h₂ : Mem.ofString (sessionWord n ++ rest) beyond 2 = sessionChar (n / 4096 % 64) := by
    rw [ofString_get _ _ (by omega)]
    rfl
  simp only [decodeSession, decodeLoop, h₀, h₁, h₂,
    sessionDigit_sessionChar (Nat.mod_lt _ (show 64 > 0 by decide))]
  unfold decodedHost
  push_cast
  ring

theorem hostDigits_lt (n : ℕ) : ∀ k ∈ hostDigits n, k < 64 := by
  simp only [hostDigits, List.forall_mem_cons, Nat.mod_lt _ (show 64 > 0 by decide)]
  simp

theorem sessionWord_eq_map (n : ℕ) : sessionWord n = (hostDigits n).map sessionChar := rfl

theorem isDecimal_sessionWord (n : ℕ) :
    (∀ b ∈ sessionWord n, ¬ IsDecimal b) ↔ ∀ k ∈ hostDigits n, ¬ (52 ≤ k ∧ k < 62) := by
  rw [sessionWord_eq_map, List.forall_mem_map]
  exact forall₂_congr fun k hk => not_congr (isDecimal_sessionChar (hostDigits_lt n k hk))

theorem map_asLetter_sessionWord (n : ℕ) :
    (sessionWord n).map asLetter = ((hostDigits n).map decodedDigit).map sessionChar := by
  rw [sessionWord_eq_map, List.map_map, List.map_map]
  exact List.map_congr_left fun k hk => asLetter_sessionChar (hostDigits_lt n k hk)

/-- A word is read back if and only if none of its characters is a decimal digit. -/
theorem decodedHost_eq_iff {n : ℕ} (h : n < 64 ^ 3) :
    decodedHost n = n ↔ ∀ b ∈ sessionWord n, ¬ IsDecimal b := by
  rw [isDecimal_sessionWord]
  have hn : n = n % 64 + 64 * (n / 64 % 64) + 4096 * (n / 4096 % 64) := by omega
  have hle : ∀ k, decodedDigit k ≤ k := by
    intro k
    unfold decodedDigit
    split <;> omega
  have h₀ := hle (n % 64)
  have h₁ := hle (n / 64 % 64)
  have h₂ := hle (n / 4096 % 64)
  simp only [hostDigits, List.forall_mem_cons, ← decodedDigit_eq_iff, decodedHost,
    List.not_mem_nil, false_implies, implies_true, and_true]
  omega

/-- Two words are taken for one number if and only if they are one word with letters for
their decimal digits. -/
theorem decodedHost_eq_decodedHost_iff (m n : ℕ) :
    decodedHost m = decodedHost n ↔
      (sessionWord m).map asLetter = (sessionWord n).map asLetter := by
  have hlt : ∀ k, decodedDigit (k % 64) < 64 := fun k => decodedDigit_lt (Nat.mod_lt _ (by decide))
  rw [map_asLetter_sessionWord, map_asLetter_sessionWord]
  simp only [hostDigits, List.map_cons, List.map_nil, List.cons.injEq, and_true,
    sessionChar_inj (hlt _) (hlt _)]
  have hm₀ := hlt m
  have hm₁ := hlt (m / 64)
  have hn₀ := hlt n
  have hn₁ := hlt (n / 64)
  unfold decodedHost
  omega

/-! ## The name -/

theorem find_of_firstBehind {name front : List Byte} (rest : List Byte)
    (h : FirstBehind name front) :
    find name (front ++ name ++ rest) = some (name ++ rest) := by
  induction front with
  | nil =>
      cases name with
      | nil => cases rest <;> simp [find]
      | cons c name => exact find_cons_here (List.prefix_append _ _)
  | cons x front ih =>
      have hnot : ¬ name <+: x :: (front ++ name ++ rest) := by
        intro hs
        -- an occurrence at the front ends within the name that is written
        have hcut : name <+: x :: (front ++ name) := by
          refine List.prefix_of_prefix_length_le hs ?_ ?_
          · rw [← List.cons_append]
            exact List.prefix_append _ _
          · simp only [List.length_cons, List.length_append]
            omega
        obtain ⟨rest', hrest⟩ := hcut
        have hend := h [] rest' (by simpa using hrest.symm)
        rw [hend, List.append_nil] at hrest
        have hlen := congrArg List.length hrest
        simp only [List.length_cons, List.length_append] at hlen
        omega
      have hfront : FirstBehind name front := fun front' rest' hsplit =>
        h (x :: front') rest' (by rw [List.cons_append, hsplit]; rfl)
      rw [List.cons_append, List.cons_append, find_cons_later hnot]
      exact ih hfront

theorem decodeSession_eq_neg_one {rest : List Byte} (beyond : Mem) (h : ¬ IsSessionId rest) :
    (decodeSession (Mem.ofString rest beyond)).1 = -1 := by
  have hneg : ∀ (session : Mem) (n : ℕ) (value : ℤ), 0 ≤ value →
      0 ≤ (decodeLoop session n value).1 ∨ (decodeLoop session n value).1 = -1 := by
    intro session n
    induction n with
    | zero => exact fun value hvalue => Or.inl hvalue
    | succ n ih =>
        intro value hvalue
        unfold decodeLoop
        cases hdigit : sessionDigit (session n) with
        | none => exact Or.inr rfl
        | some digit =>
            have hpos := sessionDigit_nonneg hdigit
            exact ih _ (by omega)
  rw [← decodeSession_nonneg rest beyond] at h
  exact (hneg _ 3 0 (Int.le_refl 0)).resolve_left h

theorem cseSessionFromString_eq_neg_one (beyond : List Byte → Mem) {source name : List Byte}
    (h : ¬ NamesSession name source) : (cseSessionFromString beyond source name).1 = -1 := by
  unfold cseSessionFromString
  cases hfind : find name source with
  | none => rfl
  | some found => exact decodeSession_eq_neg_one _ fun hid => h ⟨found, hfind, hid⟩

theorem cseSessionFromString_behind (beyond : List Byte → Mem) {name front : List Byte}
    (rest : List Byte) (h : FirstBehind name front) :
    (cseSessionFromString beyond (front ++ name ++ rest) name).1 =
      (decodeSession (Mem.ofString rest (beyond (front ++ name ++ rest)))).1 := by
  unfold cseSessionFromString
  rw [find_of_firstBehind _ h]
  simp only [List.drop_left]

theorem cseSessionFromString_sessionWord (beyond : List Byte → Mem) {name front : List Byte}
    (n : ℕ) (rest : List Byte) (h : FirstBehind name front) :
    (cseSessionFromString beyond (front ++ name ++ (sessionWord n ++ rest)) name).1 =
      decodedHost n := by
  rw [cseSessionFromString_behind beyond _ h]
  exact decodeSession_sessionWord n rest _

/-! ## Hosts -/

/-- Behind the first occurrence of the name, the word of a number is decoded to the number
if and only if it is without decimal digits, and two words are decoded to one number if and
only if they are one word with letters for their decimal digits. Without three characters
of the alphabet behind the name, or without the name, the result is -1. -/
theorem decodesHost_iff (beyond : List Byte → Mem) (name : List Byte) :
    (∀ front rest, FirstBehind name front → ∀ n < 64 ^ 3,
      (cseSessionFromString beyond (front ++ name ++ (sessionWord n ++ rest)) name).1 = n ↔
        ∀ b ∈ sessionWord n, ¬ IsDecimal b) ∧
    (∀ front rest, FirstBehind name front → ¬ BeginsWithWord rest →
      (cseSessionFromString beyond (front ++ name ++ rest) name).1 = -1) ∧
    (∀ source, ¬ name <:+: source → (cseSessionFromString beyond source name).1 = -1) ∧
    ∀ front rest front' rest', FirstBehind name front → FirstBehind name front' →
      ∀ m < 64 ^ 3, ∀ n < 64 ^ 3,
        (cseSessionFromString beyond (front ++ name ++ (sessionWord m ++ rest)) name).1 =
            (cseSessionFromString beyond (front' ++ name ++ (sessionWord n ++ rest')) name).1 ↔
          (sessionWord m).map asLetter = (sessionWord n).map asLetter := by
  refine ⟨?_, ?_, ?_, ?_⟩
  · intro front rest hfront n hn
    rw [cseSessionFromString_sessionWord beyond n rest hfront, Nat.cast_inj]
    exact decodedHost_eq_iff hn
  · intro front rest hfront hword
    rw [cseSessionFromString_behind beyond rest hfront]
    exact decodeSession_eq_neg_one _ fun hid => hword ((isSessionId_iff rest).mp hid)
  · intro source hname
    refine cseSessionFromString_eq_neg_one beyond fun hnames => ?_
    obtain ⟨found, hfind, -⟩ := hnames
    rw [(find_eq_none_iff name source).mpr hname] at hfind
    cases hfind
  · intro front rest front' rest' hfront hfront' m _ n _
    rw [cseSessionFromString_sessionWord beyond m rest hfront,
      cseSessionFromString_sessionWord beyond n rest' hfront', Nat.cast_inj]
    exact decodedHost_eq_decodedHost_iff m n

/-- The example of the documentation: `baaX8Zwoo` goes to the second host. -/
theorem decodesHost_iff_second :
    FirstBehind cookieName (ascii "a=b; ".toList) ∧
      (cseSessionFromString (fun _ _ => 0)
        (ascii "a=b; ".toList ++ cookieName ++ (sessionWord 1 ++ ascii "X8Zwoo".toList))
        cookieName).1 = 1 := by
  have hfirst : FirstBehind cookieName (ascii "a=b; ".toList) := by
    intro front' rest' hsplit
    have hlen := congrArg List.length hsplit
    have hshort : front'.length + rest'.length = 5 := by
      simp only [List.length_append] at hlen
      have : (ascii "a=b; ".toList).length = 5 := by decide
      omega
    have hat : ∀ i ≤ 5, cookieName <+: (ascii "a=b; ".toList ++ cookieName).drop i → i = 5 := by
      decide +kernel
    have hfive := hat front'.length (by omega) (by
      rw [hsplit, List.append_assoc, List.drop_left]
      exact List.prefix_append _ _)
    exact List.length_eq_zero_iff.mp (by omega)
  exact ⟨hfirst, ((decodesHost_iff (fun _ _ => 0) cookieName).1 _ _ hfirst 1 (by decide)).mpr
    ((isDecimal_sessionWord 1).mpr (by decide))⟩

/-- The word `0aa` of the number 52 is taken for that of the number 35. -/
theorem not_decodesHost_decimal :
    ¬ ∀ (beyond : List Byte → Mem) (name front rest : List Byte) (n : ℕ), n < 64 ^ 3 →
      FirstBehind name front →
        (cseSessionFromString beyond (front ++ name ++ (sessionWord n ++ rest)) name).1 = n := by
  intro hclaim
  have hfirst : FirstBehind cookieName [] := by
    intro front' rest' hsplit
    have hlen := congrArg List.length hsplit
    simp only [List.length_append, List.length_nil] at hlen
    exact List.length_eq_zero_iff.mp (by omega)
  have hhost := hclaim (fun _ _ => 0) cookieName [] [] 52 (by decide) hfirst
  rw [cseSessionFromString_sessionWord _ _ _ hfirst, Nat.cast_inj,
    decodedHost_eq_iff (by decide)] at hhost
  exact hhost 48 (by decide) (by decide)

end ModCaucho
