import Mathlib.Algebra.Group.Nat.Defs
import Mathlib.Data.List.Lex
import Mathlib.Data.Nat.ModEq
import Mathlib.Tactic.Ring
/-!
# Numbers as bytes

A number written in a given number of bytes, most significant first, and read back. Written so,
byte strings of one width stand in the order of their numbers, whatever follows them.
-/

namespace Lib.Bytes

/-- A number in `width` bytes, the most significant first. -/
def be : Nat → Nat → List UInt8
  | 0, _ => []
  | width + 1, n => UInt8.ofNat (n / 256 ^ width % 256) :: be width n

/-- The least significant first. -/
def le (width n : Nat) : List UInt8 := (be width n).reverse

def ofBe (bytes : List UInt8) : Nat := bytes.foldl (fun n b => n * 256 + b.toNat) 0

def ofLe (bytes : List UInt8) : Nat := ofBe bytes.reverse

@[simp] theorem length_be (width n : Nat) : (be width n).length = width := by
  induction width with
  | zero => rfl
  | succ width ih => rw [be, List.length_cons, ih]

@[simp] theorem length_le (width n : Nat) : (le width n).length = width := by
  rw [le, List.length_reverse, length_be]

theorem toNat_digit (n : Nat) : (UInt8.ofNat (n % 256)).toNat = n % 256 := by
  rw [UInt8.toNat_ofNat']
  exact Nat.mod_mod n 256

/-- The first digit, and the others. -/
theorem mod_succ (n width : Nat) : n % 256 ^ (width + 1) = n / 256 ^ width % 256 * 256 ^ width + n % 256 ^ width := by
  rw [Nat.mod_pow_succ]
  ring

theorem foldl_be (width n m : Nat) :
    (be width n).foldl (fun n b => n * 256 + b.toNat) m = m * 256 ^ width + n % 256 ^ width := by
  induction width generalizing m with
  | zero => simp [be, Nat.mod_one]
  | succ width ih =>
    rw [be, List.foldl_cons, ih, toNat_digit, mod_succ]
    ring

theorem ofBe_be {width n : Nat} (h : n < 256 ^ width) : ofBe (be width n) = n := by
  rw [ofBe, foldl_be, Nat.zero_mul, Nat.zero_add, Nat.mod_eq_of_lt h]

theorem ofLe_le {width n : Nat} (h : n < 256 ^ width) : ofLe (le width n) = n := by
  rw [ofLe, le, List.reverse_reverse, ofBe_be h]

/-! ## Order -/

instance instLinearOrderUInt8 : LinearOrder UInt8 where
  le_refl _ := UInt8.le_refl _
  le_trans _ _ _ := UInt8.le_trans
  lt_iff_le_not_ge _ _ := by
    rw [UInt8.lt_iff_toNat_lt, UInt8.le_iff_toNat_le, UInt8.le_iff_toNat_le]
    omega
  le_antisymm _ _ := UInt8.le_antisymm
  le_total := UInt8.le_total
  toDecidableLE := inferInstance
  toDecidableEq := inferInstance

theorem digits_lt {p d d' r r' : Nat} (hr : r < p) (hr' : r' < p) : d * p + r < d' * p + r' ↔ d < d' ∨ (d = d' ∧ r < r') := by
  constructor
  · intro h
    rcases Nat.lt_trichotomy d d' with hlt | rfl | hgt
    · exact .inl hlt
    · exact .inr ⟨rfl, by omega⟩
    · have := Nat.mul_le_mul_right p (Nat.succ_le_of_lt hgt)
      rw [Nat.succ_mul] at this
      omega
  · rintro (hlt | ⟨rfl, hlt⟩)
    · have := Nat.mul_le_mul_right p (Nat.succ_le_of_lt hlt)
      rw [Nat.succ_mul] at this
      omega
    · omega

theorem digits_eq {p d d' r r' : Nat} (hr : r < p) (hr' : r' < p) : d * p + r = d' * p + r' ↔ d = d' ∧ r = r' := by
  constructor
  · intro h
    have hnot := (@digits_lt p d d' r r' hr hr').not.1 (by omega)
    have hnot' := (@digits_lt p d' d r' r hr' hr).not.1 (by omega)
    omega
  · rintro ⟨rfl, rfl⟩
    rfl

/-- Numbers in order are byte strings in order; of equal ones what follows decides. -/
theorem be_append_lt_iff {width n m : Nat} (hn : n < 256 ^ width) (hm : m < 256 ^ width) {xs ys : List UInt8} :
    be width n ++ xs < be width m ++ ys ↔ n < m ∨ (n = m ∧ xs < ys) := by
  have hmod : be width n ++ xs < be width m ++ ys ↔
      n % 256 ^ width < m % 256 ^ width ∨ (n % 256 ^ width = m % 256 ^ width ∧ xs < ys) := by
    clear hn hm
    induction width with
    | zero => simp [be, Nat.mod_one]
    | succ width ih =>
      have hpos : 0 < 256 ^ width := Nat.pow_pos (by decide)
      have hdigit : ∀ a b : Nat, UInt8.ofNat (a % 256) < UInt8.ofNat (b % 256) ↔ a % 256 < b % 256 := by
        intro a b
        rw [UInt8.lt_iff_toNat_lt, toNat_digit, toNat_digit]
      have hsame : ∀ a b : Nat, UInt8.ofNat (a % 256) = UInt8.ofNat (b % 256) ↔ a % 256 = b % 256 := by
        intro a b
        rw [← UInt8.toNat_inj, toNat_digit, toNat_digit]
      rw [be, be, List.cons_append, List.cons_append, List.cons_lt_cons_iff, ih, hdigit, hsame, mod_succ n, mod_succ m,
        digits_lt (Nat.mod_lt _ hpos) (Nat.mod_lt _ hpos), digits_eq (Nat.mod_lt _ hpos) (Nat.mod_lt _ hpos)]
      tauto
  rw [hmod, Nat.mod_eq_of_lt hn, Nat.mod_eq_of_lt hm]

end Lib.Bytes
