import Holos.InlineOrder
import Holos.Lib.Int64
/-!
# Days and dates

The two conversions are inverse, and keep the order, over all dates and all days: the calendar
repeats every four hundred years, so what holds after the year 1 holds before it. In 64 bits
they are that, or overflow, where the days end.
-/

namespace Holos.Inline

open Lib.Int64

/-- A date of the proleptic Gregorian calendar. -/
@[ext] structure Date where
  year : Int
  month : Nat
  day : Nat
  month_pos : 1 ≤ month
  month_le : month ≤ 12
  day_pos : 1 ≤ day
  day_le : day ≤ daysInMonth year month

namespace Date

def days (t : Date) : Int := daysFromCivil t.year t.month t.day

/-- The order of the calendar. -/
def Before (t u : Date) : Prop :=
  t.year < u.year ∨ (t.year = u.year ∧ (t.month < u.month ∨ (t.month = u.month ∧ t.day < u.day)))

theorem isLeap_shift (y k : Int) : isLeap (y + 400 * k) = isLeap y := by
  have h₄ : (y + 400 * k) % 4 = y % 4 := by omega
  have h₁₀₀ : (y + 400 * k) % 100 = y % 100 := by omega
  have h₄₀₀ : (y + 400 * k) % 400 = y % 400 := by omega
  rw [isLeap, isLeap, h₄, h₁₀₀, h₄₀₀]

/-- The same date, some four hundreds of years on. -/
def shift (t : Date) (k : Int) : Date where
  year := t.year + 400 * k
  month := t.month
  day := t.day
  month_pos := t.month_pos
  month_le := t.month_le
  day_pos := t.day_pos
  day_le := by
    have h := t.day_le
    unfold daysInMonth at h ⊢
    rwa [isLeap_shift]

end Date

/-! ## Four hundred years on -/

theorem days_shift (t : Date) (k : Int) : (t.shift k).days = t.days + 146097 * k := by
  have hyear : marchYear (t.year + 400 * k) t.month = marchYear t.year t.month + 400 * k := by
    unfold marchYear
    split <;> omega
  have hshift : (t.shift k).days = daysFromCivil (t.year + 400 * k) t.month t.day := rfl
  rw [hshift, Date.days, daysFromCivil_eq, daysFromCivil_eq, hyear]
  omega

theorem civilFromDays_shift (z k : Int) :
    civilFromDays (z + 146097 * k) = ((civilFromDays z).1 + 400 * k, (civilFromDays z).2.1, (civilFromDays z).2.2) := by
  have hera : ∀ Z : Int, (if Z ≥ 0 then Z else Z - 146096).tdiv 146097 = Z / 146097 :=
    @tdiv_floor 146097 (by decide)
  have hshift : (z + 146097 * k + 719468) / 146097 = (z + 719468) / 146097 + k := by omega
  have hdoe : z + 146097 * k + 719468 - ((z + 719468) / 146097 + k) * 146097 = z + 719468 - (z + 719468) / 146097 * 146097 := by omega
  simp only [civilFromDays, hera, hshift, hdoe]
  refine Prod.ext ?_ rfl
  simp only
  split <;> omega

/-- The calendar of any date is that of one after the year 1. -/
theorem exists_shift (t : Date) : ∃ k, 1 ≤ (t.shift k).year := by
  refine ⟨t.year.natAbs + 1, ?_⟩
  simp only [Date.shift]
  omega

theorem civilFromDays_days (t : Date) : civilFromDays t.days = (t.year, (t.month : Int), (t.day : Int)) := by
  obtain ⟨k, hk⟩ := exists_shift t
  have hlate : civilFromDays (t.shift k).days = (t.year + 400 * k, (t.month : Int), (t.day : Int)) :=
    civilFromDays_daysFromCivil hk (t.shift k).month_pos (t.shift k).month_le (t.shift k).day_pos (t.shift k).day_le
  have hback : t.days = (t.shift k).days + 146097 * -k := by
    rw [days_shift]
    omega
  rw [hback, civilFromDays_shift, hlate]
  refine Prod.ext ?_ rfl
  simp only
  omega

theorem days_lt {t u : Date} (h : t.Before u) : t.days < u.days :=
  daysFromCivil_lt t.month_pos t.month_le t.day_le u.month_pos u.month_le u.day_pos h

/-! ## Every day has a date -/

/-- A day of an era is a day of one of its years. -/
theorem exists_yearOfEra {doe : Int} (h₀ : 0 ≤ doe) (h₁ : doe ≤ 146096) :
    ∃ yoe doy : Int, 0 ≤ yoe ∧ yoe ≤ 399 ∧ 0 ≤ doy ∧ doy ≤ 365 ∧ doe = 365 * yoe + yoe / 4 - yoe / 100 + doy ∧
      (doy = 365 → (yoe + 1) % 4 = 0 ∧ ((yoe + 1) % 100 ≠ 0 ∨ yoe = 399)) := by
  -- the century, the leap cycle in it, and the year in that
  obtain ⟨c, r, hc₀, hc₁, hr₀, hr₁, hsum⟩ : ∃ c r : Int, 0 ≤ c ∧ c ≤ 3 ∧ 0 ≤ r ∧ (r ≤ 36523 ∨ (r = 36524 ∧ c = 3)) ∧
      doe = 36524 * c + r := by
    by_cases hend : doe = 146096
    · exact ⟨3, 36524, by omega⟩
    · exact ⟨doe / 36524, doe % 36524, by omega⟩
  obtain ⟨q, s, hq₀, hq₁, hs₀, hs₁, hcycle⟩ : ∃ q s : Int, 0 ≤ q ∧ q ≤ 24 ∧ 0 ≤ s ∧ s ≤ 1460 ∧ r = 1461 * q + s :=
    ⟨r / 1461, r % 1461, by omega⟩
  obtain ⟨y, doy, hy₀, hy₁, hd₀, hd₁, hyear, hlast⟩ : ∃ y doy : Int, 0 ≤ y ∧ y ≤ 3 ∧ 0 ≤ doy ∧ doy ≤ 365 ∧ s = 365 * y + doy ∧
      (doy = 365 → y = 3) := by
    by_cases hend : s = 1460
    · exact ⟨3, 365, by omega⟩
    · exact ⟨s / 365, s % 365, by omega⟩
  have hfour : (100 * c + 4 * q + y) / 4 = 25 * c + q := by omega
  have hhundred : (100 * c + 4 * q + y) / 100 = c := by omega
  refine ⟨100 * c + 4 * q + y, doy, by omega, by omega, hd₀, hd₁, by omega, ?_⟩
  intro h
  have := hlast h
  omega

/-- A day of a year that starts in March is a day of one of its months. -/
theorem exists_monthOfYear {doy : Int} (h₀ : 0 ≤ doy) (h₁ : doy ≤ 365) :
    ∃ (m d : Nat), 1 ≤ m ∧ m ≤ 12 ∧ 1 ≤ d ∧ (153 * marchMonth m + 2) / 5 + d = doy + 1 ∧
      (d ≤ if m = 2 then 29 else if m = 4 ∨ m = 6 ∨ m = 9 ∨ m = 11 then 30 else 31) ∧ (m = 2 → d = 29 → doy = 365) := by
  obtain ⟨mp, hmp₀, hmp₁, hlow, hhigh⟩ : ∃ mp : Int, 0 ≤ mp ∧ mp ≤ 11 ∧ (153 * mp + 2) / 5 ≤ doy ∧ doy < (153 * (mp + 1) + 2) / 5 :=
    ⟨(5 * doy + 2) / 153, by omega⟩
  refine ⟨(if mp < 10 then mp + 3 else mp - 9).toNat, (doy - (153 * mp + 2) / 5 + 1).toNat, ?_⟩
  interval_cases mp <;> simp [marchMonth] <;> omega

theorem exists_date (z : Int) : ∃ t : Date, t.days = z := by
  obtain ⟨era, doe, hdoe₀, hdoe₁, hz⟩ : ∃ era doe : Int, 0 ≤ doe ∧ doe ≤ 146096 ∧ z + 719468 = era * 146097 + doe :=
    ⟨(z + 719468) / 146097, (z + 719468) % 146097, by omega⟩
  obtain ⟨yoe, doy, hyoe₀, hyoe₁, hdoy₀, hdoy₁, hyear, hlast⟩ := exists_yearOfEra hdoe₀ hdoe₁
  obtain ⟨m, d, hm₁, hm₂, hd₁, hmonth, hd, hfeb⟩ := exists_monthOfYear hdoy₀ hdoy₁
  obtain ⟨y, hy⟩ : ∃ y : Int, marchYear y m = yoe + 400 * era := by
    unfold marchYear
    by_cases hm : m ≤ 2
    · exact ⟨yoe + 400 * era + 1, by rw [if_pos hm]; omega⟩
    · exact ⟨yoe + 400 * era, by rw [if_neg hm]⟩
  have hvalid : d ≤ daysInMonth y m := by
    unfold daysInMonth
    by_cases hm : m = 2
    · rw [if_pos hm] at hd ⊢
      by_cases h29 : d = 29
      · -- the last day of the March year is the leap day
        have hleap := hlast (hfeb hm h29)
        have hy' : y = yoe + 1 + 400 * era := by
          rw [marchYear, if_pos (by omega)] at hy
          omega
        have : isLeap y = true := by
          rw [hy', Date.isLeap_shift]
          simp only [isLeap, Bool.and_eq_true, Bool.or_eq_true, decide_eq_true_eq, ne_eq]
          omega
        rw [if_pos this]
        exact hd
      · split <;> omega
    · rw [if_neg hm] at hd ⊢
      exact hd
  refine ⟨⟨y, m, d, hm₁, hm₂, hd₁, hvalid⟩, ?_⟩
  change daysFromCivil y m d = z
  have hfour : (yoe + 400 * era) / 4 = yoe / 4 + 100 * era := by omega
  have hhundred : (yoe + 400 * era) / 100 = yoe / 100 + 4 * era := by omega
  have hlast : (yoe + 400 * era) / 400 = era := by omega
  rw [daysFromCivil_eq, hy, hfour, hhundred, hlast]
  omega

/-! ## In 64 bits -/

/-- `days_from_civil`, each operation checked. -/
def daysFromCivil64 (y m d : Int) : Option Int := do
  let y ← if m ≤ 2 then checked (y - 1) else some y
  let era ← (if y ≥ 0 then some y else checked (y - 399)).map (·.tdiv 400)
  let yoe ← checked (y - (← checked (era * 400)))
  let mp ← if m > 2 then checked (m - 3) else checked (m + 9)
  let doy ← checked ((← checked ((← checked ((← checked (153 * mp)) + 2)).tdiv 5 + d)) - 1)
  let years ← checked ((← checked (yoe * 365)) + yoe.tdiv 4)
  let doe ← checked ((← checked (years - yoe.tdiv 100)) + doy)
  checked ((← checked ((← checked (era * 146097)) + doe)) - 719468)

/-- `civil_from_days`, each operation checked. -/
def civilFromDays64 (z : Int) : Option (Int × Int × Int) := do
  let z ← checked (z + 719468)
  let era ← (if z ≥ 0 then some z else checked (z - 146096)).map (·.tdiv 146097)
  let doe ← checked (z - (← checked (era * 146097)))
  let left ← checked ((← checked (doe - doe.tdiv 1460)) + doe.tdiv 36524)
  let yoe ← (checked (left - doe.tdiv 146096)).map (·.tdiv 365)
  let y ← checked (yoe + (← checked (era * 400)))
  let before ← checked ((← checked ((← checked (365 * yoe)) + yoe.tdiv 4)) - yoe.tdiv 100)
  let doy ← checked (doe - before)
  let mp ← (checked ((← checked (5 * doy)) + 2)).map (·.tdiv 153)
  let start ← (checked ((← checked (153 * mp)) + 2)).map (·.tdiv 5)
  let d ← checked ((← checked (doy - start)) + 1)
  let m ← if mp < 10 then checked (mp + 3) else checked (mp - 9)
  let y ← if m ≤ 2 then checked (y + 1) else some y
  return (y, m, d)

/-- What is computed on the way to a date. -/
theorem civilFromDays_steps (z : Int) : ∃ w era doe yoe doy mp m : Int, w = z + 719468 ∧
    era = (if w ≥ 0 then w else w - 146096).tdiv 146097 ∧ doe = w - era * 146097 ∧
    yoe = (doe - doe.tdiv 1460 + doe.tdiv 36524 - doe.tdiv 146096).tdiv 365 ∧
    doy = doe - (365 * yoe + yoe.tdiv 4 - yoe.tdiv 100) ∧ mp = (5 * doy + 2).tdiv 153 ∧
    m = (if mp < 10 then mp + 3 else mp - 9) ∧
    civilFromDays z = (if m ≤ 2 then yoe + era * 400 + 1 else yoe + era * 400, m, doy - (153 * mp + 2).tdiv 5 + 1) :=
  ⟨_, _, _, _, _, _, _, rfl, rfl, rfl, rfl, rfl, rfl, rfl, rfl⟩

theorem civilFromDays64_eq {z : Int} (h : Fits z) :
    civilFromDays64 z = if Fits (z + 719468) then some (civilFromDays z) else none := by
  by_cases hfit : Fits (z + 719468)
  · rw [if_pos hfit]
    obtain ⟨w, era, doe, yoe, doy, mp, m, hw, hera, hdoe, hyoe, hdoy, hmp, hm, hdate⟩ := civilFromDays_steps z
    have hw₀ : -2 ^ 63 + 719468 ≤ w ∧ w < 2 ^ 63 := by
      rw [hw]
      simp only [Fits] at h hfit
      omega
    have hround : (if w ≥ 0 then some w else checked (w - 146096)).map (·.tdiv 146097) = some era := by
      rw [hera]
      split
      · rfl
      · rw [checked_of (by simp only [Fits]; omega)]
        rfl
    have hfloor : era = w / 146097 := hera.trans (@tdiv_floor 146097 (by decide) w)
    have hdoe₀ : 0 ≤ doe ∧ doe ≤ 146096 := by omega
    obtain ⟨yoe', doy', hyoe₀, hyoe₁, hdoy₀, hdoy₁, hyear, hlast⟩ := exists_yearOfEra hdoe₀.1 hdoe₀.2
    have hcycle : doe.tdiv 1460 = doe / 1460 := Int.tdiv_eq_ediv_of_nonneg hdoe₀.1
    have hcentury : doe.tdiv 36524 = doe / 36524 := Int.tdiv_eq_ediv_of_nonneg hdoe₀.1
    have hend : doe.tdiv 146096 = doe / 146096 := Int.tdiv_eq_ediv_of_nonneg hdoe₀.1
    have hsame : yoe = yoe' := by
      rw [hyoe, hcycle, hcentury, hend, Int.tdiv_eq_ediv_of_nonneg (by omega)]
      exact yearOfEra hyoe₀ (by omega) hdoy₀ hdoy₁ hlast (by omega)
    subst hsame
    have hfour : yoe.tdiv 4 = yoe / 4 := Int.tdiv_eq_ediv_of_nonneg hyoe₀
    have hhundred : yoe.tdiv 100 = yoe / 100 := Int.tdiv_eq_ediv_of_nonneg hyoe₀
    have hdoy₂ : 0 ≤ doy ∧ doy ≤ 365 := by omega
    have hmp₀ : mp = (5 * doy + 2) / 153 := hmp.trans (Int.tdiv_eq_ediv_of_nonneg (by omega))
    have hstart : (153 * mp + 2).tdiv 5 = (153 * mp + 2) / 5 := Int.tdiv_eq_ediv_of_nonneg (by omega)
    have step : ∀ (n : Int) (f : Int → Option (Int × Int × Int)), -2 ^ 63 ≤ n ∧ n < 2 ^ 63 → (checked n).bind f = f n := by
      intro n f hn
      rw [checked_of hn]
      rfl
    have quotient : ∀ (n k : Int) (f : Int → Option (Int × Int × Int)), -2 ^ 63 ≤ n ∧ n < 2 ^ 63 →
        ((checked n).map (·.tdiv k)).bind f = f (n.tdiv k) := by
      intro n k f hn
      rw [checked_of hn]
      rfl
    rw [hdate, civilFromDays64, ← hw, Option.bind_eq_bind, step w _ (by omega), hround, Option.bind_some,
      step (era * 146097) _ (by omega), ← hdoe, step doe _ (by omega), step (doe - doe.tdiv 1460) _ (by omega),
      step (doe - doe.tdiv 1460 + doe.tdiv 36524) _ (by omega), quotient (doe - doe.tdiv 1460 + doe.tdiv 36524 - doe.tdiv 146096) 365 _ (by omega),
      ← hyoe, step (era * 400) _ (by omega), step (yoe + era * 400) _ (by omega), step (365 * yoe) _ (by omega),
      step (365 * yoe + yoe.tdiv 4) _ (by omega), step (365 * yoe + yoe.tdiv 4 - yoe.tdiv 100) _ (by omega), ← hdoy,
      step doy _ (by omega), step (5 * doy) _ (by omega), quotient (5 * doy + 2) 153 _ (by omega), ← hmp, step (153 * mp) _ (by omega),
      quotient (153 * mp + 2) 5 _ (by omega), step (doy - (153 * mp + 2).tdiv 5) _ (by omega),
      step (doy - (153 * mp + 2).tdiv 5 + 1) _ (by omega)]
    dsimp only
    have hmonth : ∀ f : Int → Option (Int × Int × Int),
        (if mp < 10 then (checked (mp + 3)).bind f else (checked (mp - 9)).bind f) = f m := by
      intro f
      rw [hm]
      split
      · exact step _ f (by omega)
      · exact step _ f (by omega)
    rw [hmonth]
    split
    · exact step _ _ (by omega)
    · rfl
  · rw [if_neg hfit, civilFromDays64, checked_eq_none.2 hfit]
    rfl

/-- What is computed on the way to the days of a date, as long as it fits. -/
theorem daysFromCivil_steps (t : Date) : ∃ Y era yoe mp doy doe : Int, Y = (if (t.month : Int) ≤ 2 then t.year - 1 else t.year) ∧
    era = (if Y ≥ 0 then Y else Y - 399).tdiv 400 ∧ yoe = Y - era * 400 ∧
    mp = (if (t.month : Int) > 2 then (t.month : Int) - 3 else (t.month : Int) + 9) ∧
    doy = (153 * mp + 2).tdiv 5 + t.day - 1 ∧ doe = yoe * 365 + yoe.tdiv 4 - yoe.tdiv 100 + doy ∧
    t.days = era * 146097 + doe - 719468 :=
  ⟨_, _, _, _, _, _, rfl, rfl, rfl, rfl, rfl, rfl, rfl⟩

theorem daysFromCivil64_eq {t : Date} (h : Fits t.year) :
    daysFromCivil64 t.year t.month t.day = if Fits t.days ∧ Fits (t.days + 719468) then some t.days else none := by
  obtain ⟨Y, era, yoe, mp, doy, doe, hY, hera, hyoe, hmp, hdoy, hdoe, hdays⟩ := daysFromCivil_steps t
  have hm₁ := t.month_pos
  have hm₂ := t.month_le
  have hd₁ := t.day_pos
  have hd₂ : t.day ≤ 31 := by
    have := t.day_le
    unfold daysInMonth at this
    split at this
    · split at this <;> omega
    · split at this <;> omega
  have hfloor : era = Y / 400 := hera.trans (@tdiv_floor 400 (by decide) Y)
  have hmp₀ : 0 ≤ mp ∧ mp ≤ 11 := by
    rw [hmp]
    split <;> omega
  have hstart : (153 * mp + 2).tdiv 5 = (153 * mp + 2) / 5 := Int.tdiv_eq_ediv_of_nonneg (by omega)
  have hfour : yoe.tdiv 4 = yoe / 4 := Int.tdiv_eq_ediv_of_nonneg (by omega)
  have hhundred : yoe.tdiv 100 = yoe / 100 := Int.tdiv_eq_ediv_of_nonneg (by omega)
  have step : ∀ (n : Int) (f : Int → Option Int), -2 ^ 63 ≤ n ∧ n < 2 ^ 63 → (checked n).bind f = f n := by
    intro n f hn
    rw [checked_of hn]
    rfl
  have stop : ∀ (n : Int) (f : Int → Option Int), ¬(-2 ^ 63 ≤ n ∧ n < 2 ^ 63) → (checked n).bind f = none := by
    intro n f hn
    rw [checked_eq_none.2 hn]
    rfl
  have hmonth : ∀ f : Int → Option Int,
      (if (t.month : Int) > 2 then (checked ((t.month : Int) - 3)).bind f else (checked ((t.month : Int) + 9)).bind f) = f mp := by
    intro f
    rw [hmp]
    split
    · exact step _ f (by omega)
    · exact step _ f (by omega)
  have hbounds := h
  simp only [Fits] at hbounds
  have hyear : ∀ f : Int → Option Int,
      (if (t.month : Int) ≤ 2 then (checked (t.year - 1)).bind f else (some t.year).bind f) = (checked Y).bind f := by
    intro f
    rw [hY]
    split
    · rfl
    · rw [checked_of h]
  have hround : ∀ f : Int → Option Int, -2 ^ 63 ≤ Y - 399 ∨ 0 ≤ Y → Y < 2 ^ 63 →
      ((if Y ≥ 0 then some Y else checked (Y - 399)).map (·.tdiv 400)).bind f = f era := by
    intro f hlow hhigh
    rw [hera]
    split
    · rfl
    · rw [checked_of (by simp only [Fits]; omega)]
      rfl
  rw [daysFromCivil64, Option.bind_eq_bind]
  dsimp only
  rw [hyear]
  by_cases hYfit : -2 ^ 63 ≤ Y ∧ Y < 2 ^ 63
  · rw [step Y _ hYfit]
    by_cases hlow : -2 ^ 63 ≤ Y - 399 ∨ 0 ≤ Y
    · rw [hround _ hlow hYfit.2, step (era * 400) _ (by omega), ← hyoe, step yoe _ (by omega), hmonth, step (153 * mp) _ (by omega),
        step (153 * mp + 2) _ (by omega), step ((153 * mp + 2).tdiv 5 + t.day) _ (by omega), ← hdoy, step doy _ (by omega),
        step (yoe * 365) _ (by omega), step (yoe * 365 + yoe.tdiv 4) _ (by omega),
        step (yoe * 365 + yoe.tdiv 4 - yoe.tdiv 100) _ (by omega), ← hdoe, step doe _ (by omega)]
      -- the last three operations overflow where the days are about to end
      by_cases hdone : Fits t.days ∧ Fits (t.days + 719468)
      · have hend := hdone
        simp only [Fits] at hend
        rw [if_pos hdone, step (era * 146097) _ (by omega), step (era * 146097 + doe) _ (by omega), ← hdays]
        exact checked_of hdone.1
      · have hend := hdone
        simp only [Fits] at hend
        rw [if_neg hdone]
        by_cases hfirst : -2 ^ 63 ≤ era * 146097 ∧ era * 146097 < 2 ^ 63
        · rw [step _ _ hfirst]
          by_cases hsecond : -2 ^ 63 ≤ era * 146097 + doe ∧ era * 146097 + doe < 2 ^ 63
          · rw [step _ _ hsecond, ← hdays]
            apply checked_eq_none.2
            simp only [Fits]
            omega
          · exact stop _ _ hsecond
        · exact stop _ _ hfirst
    · have hneg : ¬Y ≥ 0 := by omega
      have hover : ¬Fits (Y - 399) := by
        simp only [Fits]
        omega
      have hend : ¬(Fits t.days ∧ Fits (t.days + 719468)) := by
        simp only [Fits]
        omega
      rw [if_neg hneg, checked_eq_none.2 hover, if_neg hend]
      rfl
  · rw [if_neg (by simp only [Fits]; omega)]
    exact stop _ _ hYfit

/-- Days and dates are each other's, in the same order. In 64 bits they are the same numbers, but
for the last days there are, and the dates that have no day. -/
theorem civil_inverse :
    (∀ z, ∃ t : Date, civilFromDays z = (t.year, (t.month : Int), (t.day : Int)) ∧ t.days = z) ∧
    (∀ t : Date, civilFromDays t.days = (t.year, (t.month : Int), (t.day : Int))) ∧
    (∀ t u : Date, t.Before u → t.days < u.days) ∧
    (∀ z, Fits z → civilFromDays64 z = if Fits (z + 719468) then some (civilFromDays z) else none) ∧
    ∀ t : Date, Fits t.year →
      daysFromCivil64 t.year t.month t.day = if Fits t.days ∧ Fits (t.days + 719468) then some t.days else none := by
  refine ⟨?_, civilFromDays_days, fun t u => days_lt, fun z => civilFromDays64_eq, fun t => daysFromCivil64_eq⟩
  intro z
  obtain ⟨t, rfl⟩ := exists_date z
  exact ⟨t, civilFromDays_days t, rfl⟩

theorem civil_inverse_leapDay :
    civilFromDays64 (-719528 - 146097) = some (-400, 1, 1) ∧ daysFromCivil64 2000 2 29 = some 11016 := by
  have hleap := civil_inverse.2.2.2.2 ⟨2000, 2, 29, by decide, by decide, by decide, by decide⟩ (by decide)
  refine ⟨(civil_inverse.2.2.2.1 _ (by decide)).trans (by decide), hleap.trans (by decide)⟩

/-- The last day of 64 bits has no date. -/
theorem civil_overflow : Fits (2 ^ 63 - 1) ∧ civilFromDays64 (2 ^ 63 - 1) = none := by
  decide

end Holos.Inline
