import Mathlib.Algebra.GroupWithZero.Nat
import Mathlib.Data.List.Basic

/-!
# Length-prefixed frames

A frame is a code byte, a payload length in three big-endian bytes, and the
payload. `encodeAll fs` is the byte string of a list of frames, `decodeAll`
reads it back. The round trip holds for payloads shorter than `2 ^ 24`, which
is what the three length bytes can say.
-/

namespace Framing

/-- A code byte with its payload. -/
structure Frame where
  code : UInt8
  payload : List UInt8
deriving DecidableEq, Repr

/-- A payload length that the three length bytes can carry. -/
def Frame.Sized (f : Frame) : Prop := f.payload.length < 2 ^ 24

instance (f : Frame) : Decidable f.Sized :=
  inferInstanceAs (Decidable (f.payload.length < 2 ^ 24))

/-- The number that three big-endian bytes spell. -/
def ofBe24 (b₁ b₂ b₃ : UInt8) : ℕ :=
  b₁.toNat * 65536 + b₂.toNat * 256 + b₃.toNat

/-- The first, second and third big-endian byte of a number. -/
def be24 (n : ℕ) : UInt8 × UInt8 × UInt8 :=
  (UInt8.ofNat (n / 65536), UInt8.ofNat (n / 256), UInt8.ofNat n)

theorem ofBe24_be24 {n : ℕ} (h : n < 2 ^ 24) :
    ofBe24 (be24 n).1 (be24 n).2.1 (be24 n).2.2 = n := by
  simp only [ofBe24, be24, UInt8.toNat_ofNat']
  omega

/-- The four bytes that open a frame with payload length `n`. -/
def header (code : UInt8) (n : ℕ) : List UInt8 :=
  [code, (be24 n).1, (be24 n).2.1, (be24 n).2.2]

@[simp] theorem length_header (code : UInt8) (n : ℕ) : (header code n).length = 4 := rfl

/-- The bytes of one frame. -/
def encode (f : Frame) : List UInt8 := header f.code f.payload.length ++ f.payload

@[simp] theorem length_encode (f : Frame) :
    (encode f).length = f.payload.length + 4 := by
  simp [encode, Nat.add_comm]

/-- The bytes of a list of frames, in order. -/
def encodeAll (fs : List Frame) : List UInt8 := fs.flatMap encode

@[simp] theorem encodeAll_nil : encodeAll [] = [] := rfl

@[simp] theorem encodeAll_cons (f : Frame) (fs : List Frame) :
    encodeAll (f :: fs) = encode f ++ encodeAll fs := rfl

/-- Reads one frame off the front of a byte string. -/
def decode? : List UInt8 → Option (Frame × List UInt8)
  | c :: b₁ :: b₂ :: b₃ :: bs =>
      if ofBe24 b₁ b₂ b₃ ≤ bs.length then
        some (⟨c, bs.take (ofBe24 b₁ b₂ b₃)⟩, bs.drop (ofBe24 b₁ b₂ b₃))
      else none
  | _ => none

theorem decode?_encode_append {f : Frame} (h : f.Sized) (bs : List UInt8) :
    decode? (encode f ++ bs) = some (f, bs) := by
  simp only [encode, header, List.cons_append, List.nil_append, decode?]
  rw [ofBe24_be24 h]
  simp

/-- Reads frames until the byte string is used up. Each frame takes at least
four bytes, so the length of the string bounds the number of rounds. -/
def decodeFuel : ℕ → List UInt8 → Option (List Frame)
  | _, [] => some []
  | 0, _ :: _ => none
  | n + 1, b :: bs => do
      let (f, rest) ← decode? (b :: bs)
      let fs ← decodeFuel n rest
      return f :: fs

/-- Reads a byte string as a list of frames. -/
def decodeAll (bs : List UInt8) : Option (List Frame) := decodeFuel bs.length bs

theorem decodeFuel_encodeAll {fs : List Frame} (h : ∀ f ∈ fs, f.Sized) {n : ℕ}
    (hn : (encodeAll fs).length ≤ n) : decodeFuel n (encodeAll fs) = some fs := by
  induction fs generalizing n with
  | nil => cases n <;> rfl
  | cons f fs ih =>
      obtain ⟨c, p⟩ := f
      have hf := decode?_encode_append (h ⟨c, p⟩ (by simp)) (encodeAll fs)
      rw [encodeAll_cons, List.length_append, length_encode] at hn
      cases n with
      | zero => omega
      | succ n =>
          have hrest := ih (fun g hg => h g (by simp [hg])) (n := n) (by omega)
          simp only [encodeAll_cons, encode, header, List.cons_append] at hf ⊢
          rw [decodeFuel, hf]
          simp [hrest]

/-- Decoding undoes encoding. -/
theorem decodeAll_encodeAll {fs : List Frame} (h : ∀ f ∈ fs, f.Sized) :
    decodeAll (encodeAll fs) = some fs :=
  decodeFuel_encodeAll h (Nat.le_refl _)

end Framing
