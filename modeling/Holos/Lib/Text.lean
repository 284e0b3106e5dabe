import Mathlib.Data.List.Basic
/-!
# Text helpers

Trimming white space, and reading a decimal number, as text handed to a server is read.
-/

namespace Lib

/-- White space, as Unicode has it. -/
def isWhitespace (c : Char) : Bool :=
  let n := c.toNat
  9 ≤ n && n ≤ 13 || n == 0x20 || n == 0x85 || n == 0xA0 || n == 0x1680 || 0x2000 ≤ n && n ≤ 0x200A ||
    n == 0x2028 || n == 0x2029 || n == 0x202F || n == 0x205F || n == 0x3000

/-- Without the white space at both ends. -/
def trim (cs : List Char) : List Char := ((cs.dropWhile isWhitespace).reverse.dropWhile isWhitespace).reverse

/-- A decimal number below `bound`, a leading `+` allowed. -/
def parseBelow (bound : Nat) (cs : List Char) : Option Nat :=
  let digits := match cs with
    | '+' :: ds => ds
    | ds => ds
  if !digits.isEmpty && digits.all (·.isDigit) then
    let n := Nat.ofDigitChars 10 digits 0
    if n < bound then some n else none
  else none

/-- Characters of a given text are checked one after the other. -/
theorem forall_mem_of_all {α : Type} {p : α → Prop} [DecidablePred p] {xs : List α} (h : xs.all (fun x => decide (p x)) = true) :
    ∀ x ∈ xs, p x := fun x hx => of_decide_eq_true (List.all_eq_true.1 h x hx)

end Lib
