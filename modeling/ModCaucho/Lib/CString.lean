import Mathlib.Algebra.Group.Int.Defs
import Mathlib.Algebra.Group.Nat.Defs
import Mathlib.Algebra.Order.Group.Int

/-!
# Strings of C

The functions of the C library that the code calls on its strings. A string is
the list of its bytes without the final NUL.
-/

namespace CString

/-- A string constant as bytes. -/
def ascii (s : List Char) : List UInt8 := s.map fun ch => UInt8.ofNat ch.toNat

/-- `%d` and `%u` of `sprintf` for a number that is not negative. -/
def decimal (n : ℕ) : List UInt8 := ascii (Nat.toDigits 10 n)

/-- `tolower` -/
def toLower (b : UInt8) : UInt8 := if 65 ≤ b ∧ b ≤ 90 then b + 32 else b

/-- `! strcasecmp(a, b)` -/
def strcaseEq (a b : List UInt8) : Bool := a.map toLower == b.map toLower

/-- `isspace` -/
def isSpace (b : UInt8) : Bool := b == 32 || (9 ≤ b && b ≤ 13)

/-- The value of the decimal digits at the front of a string. -/
def digits (s : List UInt8) : ℤ :=
  (s.takeWhile fun b => 48 ≤ b && b ≤ 57).foldl (fun n b => 10 * n + (b.toNat - 48)) 0

/-- `strtol` in base 10, which stops at the bounds of a `long` of 64 bits. -/
def strtol (s : List UInt8) : ℤ :=
  let n :=
    match s.dropWhile isSpace with
    | 45 :: s => -digits s
    | 43 :: s => digits s
    | s => digits s
  max (-2 ^ 63) (min n (2 ^ 63 - 1))

/-- `atoi`, which casts the result of `strtol` to an `int` of 32 bits. -/
def atoi (s : List UInt8) : ℤ := (strtol s).bmod (2 ^ 32)

end CString
