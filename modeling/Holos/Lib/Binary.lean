import Mathlib.Data.Int.Log
import Mathlib.Data.Rat.Floor
/-!
# Rounding to a binary format

A magnitude of a binary floating-point format is its bits read as a number: in each binade the digits
behind the point are counted up, and the next binade goes on from there. Rounding to it, to the nearest
and of two to the even one, keeps the order of numbers, but may make two of them one.
-/

namespace Lib.Binary

/-- The nearest integer, of two the even one. -/
def nearest (x : ℚ) : Int :=
  let low := ⌊x⌋
  if x - low < 1 / 2 then low else if 1 / 2 < x - low then low + 1 else low + low % 2

theorem nearest_bounds (x : ℚ) : ⌊x⌋ ≤ nearest x ∧ nearest x ≤ ⌊x⌋ + 1 := by
  unfold nearest
  dsimp only
  split
  · omega
  · split <;> omega

theorem nearest_mono {x y : ℚ} (h : x ≤ y) : nearest x ≤ nearest y := by
  have hfloor := Int.floor_mono h
  rcases eq_or_lt_of_le hfloor with heq | hlt
  · -- between the same two integers, the one nearer to its upper end is rounded up first
    unfold nearest
    dsimp only
    rw [heq]
    have hsub : x - ⌊y⌋ ≤ y - ⌊y⌋ := sub_le_sub_right h _
    split
    · split
      · exact le_rfl
      · split <;> omega
    · rename_i hx
      rw [if_neg (fun hy => hx (lt_of_le_of_lt hsub hy))]
      split
      · rename_i hx'
        rw [if_pos (lt_of_lt_of_le hx' hsub)]
      · split <;> omega
  · have hx := (nearest_bounds x).2
    have hy := (nearest_bounds y).1
    omega

theorem nearest_intCast (n : Int) : nearest n = n := by
  unfold nearest
  rw [Int.floor_intCast]
  norm_num

theorem le_nearest {n : Int} {x : ℚ} (h : (n : ℚ) ≤ x) : n ≤ nearest x := nearest_intCast n ▸ nearest_mono h

theorem nearest_le {n : Int} {x : ℚ} (h : x ≤ n) : nearest x ≤ n := nearest_intCast n ▸ nearest_mono h

/-! ## Magnitudes -/

/-- The exponent of the last digit, with so many digits behind the leading one. -/
def exponent (digits : Nat) (least : Int) (x : ℚ) : Int := max least (Int.log 2 x - digits)

/-- The place of the magnitude `x` is rounded to. -/
def place (digits : Nat) (least : Int) (x : ℚ) : Int :=
  if x = 0 then 0 else
    let e := exponent digits least x
    (e - least) * 2 ^ digits + nearest (x / 2 ^ e)

variable {digits : Nat} {least : Int} {x y : ℚ}

theorem least_le_exponent : least ≤ exponent digits least x := le_max_left _ _

theorem two_zpow_pos (e : Int) : (0 : ℚ) < 2 ^ e := zpow_pos two_pos e

theorem place_nonneg (hx : 0 ≤ x) : 0 ≤ place digits least x := by
  unfold place
  split
  · exact le_rfl
  · have hexp : least ≤ exponent digits least x := least_le_exponent
    have hnearest : 0 ≤ nearest (x / 2 ^ exponent digits least x) :=
      le_nearest (by rw [Int.cast_zero]; exact div_nonneg hx (two_zpow_pos _).le)
    have hbinades : 0 ≤ (exponent digits least x - least) * 2 ^ digits := mul_nonneg (by omega) (by positivity)
    dsimp only
    omega

/-- Below the binade that follows. -/
theorem nearest_le_binade : nearest (x / 2 ^ exponent digits least x) ≤ 2 ^ (digits + 1) := by
  refine nearest_le ?_
  have hlt : x < 2 ^ (Int.log 2 x + 1) := Int.lt_zpow_succ_log_self (by norm_num) x
  have hle : Int.log 2 x + 1 ≤ exponent digits least x + (digits + 1 : Nat) := by
    have := le_max_right least (Int.log 2 x - digits)
    unfold exponent
    push_cast
    omega
  rw [div_le_iff₀ (two_zpow_pos _)]
  push_cast
  calc x ≤ 2 ^ (Int.log 2 x + 1) := hlt.le
    _ ≤ 2 ^ (exponent digits least x + (digits + 1 : Nat)) := zpow_le_zpow_right₀ (by norm_num) hle
    _ = 2 ^ (digits + 1) * 2 ^ exponent digits least x := by rw [zpow_add₀ (by norm_num), zpow_natCast, mul_comm]

/-- Above the least exponent the leading digit is there. -/
theorem binade_le_nearest (hx : 0 < x) (hlt : least < exponent digits least x) :
    2 ^ digits ≤ nearest (x / 2 ^ exponent digits least x) := by
  refine le_nearest ?_
  have hexp : exponent digits least x = Int.log 2 x - digits := by
    unfold exponent at hlt ⊢
    omega
  have hle : (2 : ℚ) ^ Int.log 2 x ≤ x := Int.zpow_log_le_self (by norm_num) hx
  rw [le_div_iff₀ (two_zpow_pos _), hexp]
  push_cast
  calc (2 : ℚ) ^ digits * 2 ^ (Int.log 2 x - digits) = 2 ^ Int.log 2 x := by
        rw [← zpow_natCast, ← zpow_add₀ (by norm_num)]
        congr 1
        omega
    _ ≤ x := hle

theorem place_mono (hx : 0 ≤ x) (h : x ≤ y) : place digits least x ≤ place digits least y := by
  rcases eq_or_lt_of_le hx with heq | hpos
  · have hzero : place digits least x = 0 := if_pos heq.symm
    rw [hzero]
    exact place_nonneg (hx.trans h)
  · have hy : 0 < y := lt_of_lt_of_le hpos h
    have hlog : Int.log 2 x ≤ Int.log 2 y := Int.log_mono_right hpos h
    have hexp : exponent digits least x ≤ exponent digits least y := max_le_max le_rfl (by omega)
    unfold place
    rw [if_neg (ne_of_gt hpos), if_neg (ne_of_gt hy)]
    dsimp only
    rcases eq_or_lt_of_le hexp with heq | hlt
    · rw [heq]
      have := nearest_mono (div_le_div_of_nonneg_right h (two_zpow_pos (exponent digits least y)).le)
      omega
    · have hx' : nearest (x / 2 ^ exponent digits least x) ≤ 2 ^ (digits + 1) := nearest_le_binade
      have hy' := binade_le_nearest hy (lt_of_le_of_lt least_le_exponent hlt)
      have hbinades : (exponent digits least x + 1 - least) * 2 ^ digits ≤ (exponent digits least y - least) * 2 ^ digits :=
        mul_le_mul_of_nonneg_right (by omega) (by positivity)
      rw [pow_succ] at hx'
      linarith

/-! ## Signed numbers -/

/-- The place of a number between the infinities, the zeros at one. -/
def round (digits : Nat) (least top : Int) (q : ℚ) : Int :=
  if 0 ≤ q then min top (place digits least q) else -min top (place digits least (-q))

theorem round_mono {top : Int} (htop : 0 ≤ top) {q r : ℚ} (h : q ≤ r) : round digits least top q ≤ round digits least top r := by
  unfold round
  split
  · rename_i hq
    rw [if_pos (hq.trans h)]
    exact min_le_min le_rfl (place_mono hq h)
  · rename_i hq
    have hneg : 0 ≤ -q := by linarith
    split
    · rename_i hr
      have hpos : 0 ≤ min top (place digits least r) := le_min htop (place_nonneg hr)
      have hneg' : 0 ≤ min top (place digits least (-q)) := le_min htop (place_nonneg hneg)
      omega
    · rename_i hr
      exact neg_le_neg (min_le_min le_rfl (place_mono (by linarith) (neg_le_neg h)))

/-- Rounded numbers compare as the numbers do, unless two of them became one. -/
theorem compare_round_iff {top : Int} (htop : 0 ≤ top) (q r : ℚ) :
    compare (round digits least top q) (round digits least top r) = compare q r ↔ q = r ∨ round digits least top q ≠ round digits least top r := by
  rcases lt_trichotomy q r with h | h | h
  · have hle : round digits least top q ≤ round digits least top r := round_mono htop h.le
    rw [compare_lt_iff_lt.2 h, compare_lt_iff_lt]
    exact ⟨fun hlt => .inr hlt.ne, fun hne => lt_of_le_of_ne hle (hne.resolve_left h.ne)⟩
  · subst h
    simp
  · have hle : round digits least top r ≤ round digits least top q := round_mono htop h.le
    rw [compare_gt_iff_gt.2 h, compare_gt_iff_gt]
    exact ⟨fun hgt => .inr hgt.ne', fun hne => lt_of_le_of_ne hle (hne.resolve_left h.ne').symm⟩

end Lib.Binary
