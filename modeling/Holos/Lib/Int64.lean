import Mathlib.Algebra.Order.Ring.Int
import Mathlib.Data.Option.Basic
/-!
# Arithmetic in 64 bits

Signed arithmetic as a machine has it: a result that does not fit is none.
-/

namespace Lib.Int64

/-- A number that fits. -/
def Fits (n : Int) : Prop := -2 ^ 63 ≤ n ∧ n < 2 ^ 63

instance : DecidablePred Fits := fun _ => inferInstanceAs (Decidable (_ ∧ _))

/-- The result of an operation. -/
def checked (n : Int) : Option Int := if Fits n then some n else none

theorem checked_eq_some {n r : Int} : checked n = some r ↔ r = n ∧ Fits n := by
  unfold checked
  split
  · rename_i h
    simp [h, eq_comm]
  · rename_i h
    simp [h]

theorem checked_of {n : Int} (h : Fits n) : checked n = some n := if_pos h

theorem checked_eq_none {n : Int} : checked n = none ↔ ¬Fits n := by
  unfold checked
  split
  · rename_i h
    simp [h]
  · rename_i h
    simp [h]

/-- Truncated division is made to round down by moving the negative numbers. -/
theorem tdiv_floor {k : Int} (hk : 0 < k) (n : Int) : (if n ≥ 0 then n else n - (k - 1)).tdiv k = n / k := by
  split
  · rename_i h
    exact Int.tdiv_eq_ediv_of_nonneg h
  · rename_i h
    have hneg : n - (k - 1) = -(k - 1 - n) := by omega
    have hrem : k - 1 - n = k - 1 - n % k + -(n / k) * k := by
      have := Int.emod_add_mul_ediv n k
      rw [Int.neg_mul, Int.mul_comm]
      omega
    have hlow := Int.emod_nonneg n (Int.ne_of_gt hk)
    have hhigh := Int.emod_lt_of_pos n hk
    have hzero : (k - 1 - n % k) / k = 0 := Int.ediv_eq_zero_of_lt (by omega) (by omega)
    rw [hneg, Int.neg_tdiv, Int.tdiv_eq_ediv_of_nonneg (by omega), hrem, Int.add_mul_ediv_right _ _ (Int.ne_of_gt hk), hzero,
      Int.zero_add, Int.neg_neg]

end Lib.Int64
