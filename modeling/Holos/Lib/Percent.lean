import Holos.Lib.Utf8
/-!
# Percent escapes

A byte written as `%` and two hexadecimal digits, and reading such escapes back. A `%` that
no two digits follow stands for itself.
-/

namespace Lib

/-- The upper-case hexadecimal digit of a number below 16. -/
def hexDigit (n : Nat) : Char := if n < 10 then Char.ofNat (48 + n) else Char.ofNat (55 + n)

/-- The value of a hexadecimal digit of either case. -/
def hexValue (b : UInt8) : Option Nat :=
  if 48 ≤ b && b ≤ 57 then some (b.toNat - 48)
  else if 65 ≤ b && b ≤ 70 then some (b.toNat - 55)
  else if 97 ≤ b && b ≤ 102 then some (b.toNat - 87)
  else none

/-- `%XX`. -/
def percentByte (b : UInt8) : List Char := ['%', hexDigit (b.toNat / 16), hexDigit (b.toNat % 16)]

/-- The byte two hexadecimal digits stand for. -/
def hexPair (x y : UInt8) : Option UInt8 := do
  let hi ← hexValue x
  let lo ← hexValue y
  return UInt8.ofNat (16 * hi + lo)

/-- What a byte outside an escape stands for: itself, and where forms are read `+` for a space. -/
def plain (form : Bool) (b : UInt8) : UInt8 := if form && b == 43 then 32 else b

/-- The bytes an escaped text stands for. -/
def unescape (form : Bool) : List UInt8 → List UInt8
  | [] => []
  | [b] => [plain form b]
  | [b, x] => [plain form b, plain form x]
  | b :: x :: y :: rest =>
    match if b = 37 then hexPair x y else none with
    | some v => v :: unescape form rest
    | none => plain form b :: unescape form (x :: y :: rest)

theorem unescape_plain {form : Bool} {b : UInt8} (h : b ≠ 37) (bs : List UInt8) :
    unescape form (b :: bs) = plain form b :: unescape form bs := by
  match bs with
  | [] => rfl
  | [x] => rfl
  | x :: y :: rest => rw [unescape, if_neg h]

theorem unescape_pair {form : Bool} {x y v : UInt8} (h : hexPair x y = some v) (bs : List UInt8) :
    unescape form (37 :: x :: y :: bs) = v :: unescape form bs := by
  rw [unescape, if_pos rfl, h]

theorem unescape_percent {form : Bool} {x y : UInt8} (h : hexPair x y = none) (bs : List UInt8) :
    unescape form (37 :: x :: y :: bs) = plain form 37 :: unescape form (x :: y :: bs) := by
  rw [unescape, if_pos rfl, h]

/-! ## Escaping -/

theorem hexPair_digits : ∀ b : UInt8,
    hexPair (hexDigit (b.toNat / 16)).val.toUInt8 (hexDigit (b.toNat % 16)).val.toUInt8 = some b :=
  forall_byte (by decide)

theorem encodeChar_hexDigit {n : Nat} (h : n < 16) :
    String.utf8EncodeChar (hexDigit n) = [(hexDigit n).val.toUInt8] := by
  have hsize : ∀ n < 16, (hexDigit n).utf8Size = 1 := by decide
  exact String.utf8EncodeChar_eq_singleton (hsize n h)

/-- An escaped byte is read back. -/
theorem unescape_percentByte (form : Bool) (b : UInt8) (bs : List UInt8) :
    unescape form (utf8 (percentByte b) ++ bs) = b :: unescape form bs := by
  have hb := b.toNat_lt
  have htext : utf8 (percentByte b) =
      [37, (hexDigit (b.toNat / 16)).val.toUInt8, (hexDigit (b.toNat % 16)).val.toUInt8] := by
    unfold percentByte
    rw [utf8_cons, utf8_cons, utf8_cons, encodeChar_hexDigit (by omega), encodeChar_hexDigit (by omega)]
    rfl
  rw [htext]
  exact unescape_pair (hexPair_digits b) bs

end Lib
