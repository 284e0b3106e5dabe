import Holos.Inline
import Holos.Lib.Int64
import Mathlib.Data.List.Lex
/-!
# Payload order and value order

An inline id is made so that ids of one tag stand in the order of their values. For integers
and instants that order is strict both ways. Two floats are the exception: the zeros are equal
and have two ids, the negative one just below the other.
-/

namespace Holos.Inline

/-! ## Integers -/

theorem encodeInteger_payload {value : String} {id : TermId} (h : encodeInteger value = some id) :
    ∃ v, parseI64 value = some v ∧ id.tag = .integer ∧ (id.payload : Int) = v + intBias := by
  simp only [encodeInteger, Option.bind_eq_bind, Option.bind_eq_some_iff] at h
  obtain ⟨v, hv, h⟩ := h
  split_ifs at h with hs hr
  cases h
  refine ⟨v, hv, TermId.tag_new _ _ _, ?_⟩
  rw [TermId.payload_new]
  simp only [intBias] at *
  omega

/-! ## Floats -/

/-- The place of a float that is a number: its magnitude's bits, with its sign. -/
def signed (bits : Fin (2 ^ 32)) : Int := if bits.val < 2 ^ 31 then bits.val else 2 ^ 31 - (bits.val : Int)

/-- The comparison of two floats: nothing compares with NaN, and the zeros are equal. -/
def compareFloats (a b : Fin (2 ^ 32)) : Option Ordering :=
  if isNan a || isNan b then none else some (compare (signed a) (signed b))

/-- A float with its sign flipped. -/
def flipSign (bits : Fin (2 ^ 32)) : Fin (2 ^ 32) :=
  if h : bits.val < 2 ^ 31 then ⟨bits.val + 2 ^ 31, by omega⟩ else ⟨bits.val - 2 ^ 31, by omega⟩

def posZero : Fin (2 ^ 32) := 0
def negZero : Fin (2 ^ 32) := ⟨2 ^ 31, by decide⟩

theorem flipSign_flipSign (bits : Fin (2 ^ 32)) : flipSign (flipSign bits) = bits := by
  apply Fin.ext
  unfold flipSign
  split
  · simp only
    split <;> simp only <;> omega
  · simp only
    split <;> simp only <;> omega

/-- A float below another has the lower payload, and of equal ones only the zeros differ in it. -/
theorem orderPreservingF32_lt_iff (a b : Fin (2 ^ 32)) :
    orderPreservingF32 a < orderPreservingF32 b ↔ signed a < signed b ∨ (a = negZero ∧ b = posZero) := by
  have ha := a.isLt
  have hb := b.isLt
  simp only [orderPreservingF32, signed, negZero, posZero, Fin.ext_iff, Fin.val_zero]
  split <;> split <;> omega

theorem orderPreservingF32_injective {a b : Fin (2 ^ 32)} (h : orderPreservingF32 a = orderPreservingF32 b) : a = b := by
  have ha := a.isLt
  have hb := b.isLt
  apply Fin.ext
  simp only [orderPreservingF32] at h
  split at h <;> split at h <;> omega

theorem encodeFloat_payload {X : Datatypes} {value : String} {id : TermId} (h : encodeFloat X value = some id) :
    ∃ bits, X.parseFloat value = some bits ∧ isNan bits = false ∧ id.tag = .float ∧ id.payload = orderPreservingF32 bits := by
  simp only [encodeFloat, Option.bind_eq_bind, Option.bind_eq_some_iff] at h
  obtain ⟨bits, hbits, h⟩ := h
  split_ifs at h with hn hs
  cases h
  exact ⟨bits, hbits, by simpa using hn, TermId.tag_new _ _ _, TermId.payload_new _ _ _⟩

/-! ## Instants -/

/-- A year counted from March, and a month of it. -/
def marchYear (y : Int) (m : Nat) : Int := if m ≤ 2 then y - 1 else y
def marchMonth (m : Nat) : Int := if m ≤ 2 then m + 9 else m - 3

/-- The days of a date, counted from March, for any year. -/
theorem daysFromCivil_eq (y : Int) (m d : Nat) :
    daysFromCivil y m d = 365 * marchYear y m + marchYear y m / 4 - marchYear y m / 100 + marchYear y m / 400 +
      (153 * marchMonth m + 2) / 5 + d - 719469 := by
  have hyear : (if (m : Int) ≤ 2 then y - 1 else y) = marchYear y m := by
    unfold marchYear
    split <;> split <;> omega
  have hmonth : (if (m : Int) > 2 then (m : Int) - 3 else (m : Int) + 9) = marchMonth m := by
    unfold marchMonth
    split <;> split <;> omega
  have hmonth₀ : 0 ≤ marchMonth m := by
    unfold marchMonth
    split <;> omega
  have hera : ∀ Y : Int, (if Y ≥ 0 then Y else Y - 399).tdiv 400 = Y / 400 := @Lib.Int64.tdiv_floor 400 (by decide)
  simp only [daysFromCivil, hyear, hmonth, hera]
  generalize marchYear y m = y'
  generalize marchMonth m = mp at hmonth₀
  rw [Int.tdiv_eq_ediv_of_nonneg (show 0 ≤ 153 * mp + 2 by omega), Int.tdiv_eq_ediv_of_nonneg (show 0 ≤ y' - y' / 400 * 400 by omega),
    Int.tdiv_eq_ediv_of_nonneg (show 0 ≤ y' - y' / 400 * 400 by omega)]
  omega

/-- The last day of a month is before the next month, and that of a March year before the next
year. -/
theorem day_le {y : Int} {m d : Nat} (hm₁ : 1 ≤ m) (hm₂ : m ≤ 12) (hd : d ≤ daysInMonth y m) :
    (marchMonth m ≤ 10 → (153 * marchMonth m + 2) / 5 + d ≤ (153 * (marchMonth m + 1) + 2) / 5) ∧
      (153 * marchMonth m + 2) / 5 + d ≤ 366 ∧
      ((153 * marchMonth m + 2) / 5 + d = 366 → m = 2 ∧ isLeap y = true) := by
  cases hl : isLeap y <;> interval_cases m <;> simp [marchMonth, daysInMonth, hl] at hd ⊢ <;> omega

/-- The leap days before a year. -/
def leapDays (y : Int) : Int := y / 4 - y / 100 + y / 400

theorem leapDays_succ (y : Int) : leapDays y ≤ leapDays (y + 1) ∧
    ((y + 1) % 4 = 0 ∧ ((y + 1) % 100 ≠ 0 ∨ (y + 1) % 400 = 0) → leapDays (y + 1) = leapDays y + 1) := by
  unfold leapDays
  omega

theorem leapDays_mono {a b : Int} (h : a ≤ b) : leapDays a ≤ leapDays b := by
  induction b, h using Int.le_induction with
  | base => exact le_rfl
  | succ b _ ih => exact ih.trans (leapDays_succ b).1

/-- Dates of the calendar in order are days in order. -/
theorem daysFromCivil_lt {y y' : Int} {m m' d d' : Nat} (hm₁ : 1 ≤ m) (hm₂ : m ≤ 12)
    (hd : d ≤ daysInMonth y m) (hm₁' : 1 ≤ m') (hm₂' : m' ≤ 12) (hd' : 1 ≤ d')
    (h : y < y' ∨ (y = y' ∧ (m < m' ∨ (m = m' ∧ d < d')))) : daysFromCivil y m d < daysFromCivil y' m' d' := by
  obtain ⟨hmonth, hyear, hleap⟩ := day_le hm₁ hm₂ hd
  rw [daysFromCivil_eq, daysFromCivil_eq]
  have hmp : 0 ≤ marchMonth m' := by
    unfold marchMonth
    split <;> omega
  -- counted from March, the order is the same
  have horder : marchYear y m < marchYear y' m' ∨ (marchYear y m = marchYear y' m' ∧
      (marchMonth m < marchMonth m' ∨ (marchMonth m = marchMonth m' ∧ d < d'))) := by
    unfold marchYear marchMonth
    split <;> split <;> omega
  have hlast : (153 * marchMonth m + 2) / 5 + d = 366 → marchYear y m = y - 1 ∧ y % 4 = 0 ∧ (y % 100 ≠ 0 ∨ y % 400 = 0) := by
    intro heq
    obtain ⟨rfl, hl⟩ := hleap heq
    simp only [isLeap, Bool.and_eq_true, Bool.or_eq_true, decide_eq_true_eq, ne_eq] at hl
    exact ⟨by simp [marchYear], hl⟩
  have hmonth' : marchMonth m < marchMonth m' → marchMonth m ≤ 10 := by
    intro hlt
    have : marchMonth m' ≤ 11 := by
      unfold marchMonth
      split <;> omega
    omega
  have hyears : ∀ Y : Int, 365 * Y + Y / 4 - Y / 100 + Y / 400 = 365 * Y + leapDays Y := by
    intro Y
    unfold leapDays
    omega
  rw [hyears, hyears]
  rcases horder with hlt | ⟨heq, hlt | ⟨heq', hlt⟩⟩
  · have hmono := leapDays_mono (show marchYear y m + 1 ≤ marchYear y' m' from hlt)
    obtain ⟨hle, hsucc⟩ := leapDays_succ (marchYear y m)
    by_cases hend : (153 * marchMonth m + 2) / 5 + d = 366
    · obtain ⟨hY, hl⟩ := hlast hend
      have := hsucc (by rw [hY, sub_add_cancel]; exact hl)
      omega
    · omega
  · rw [heq]
    have := hmonth (hmonth' hlt)
    omega
  · rw [heq, heq']
    omega

/-- A date-time that is a UTC instant of a whole second and a four-digit year. -/
structure Whole (X : Datatypes) (value : String) (dt : DateTime) (second : Int) : Prop where
  parsed : X.parseDateTime value = some dt
  utc : value.endsWith 'Z' = true
  year : 1 ≤ dt.year ∧ dt.year ≤ 9999
  dot : '.' ∉ dt.second.toList
  second : parseI64 dt.second = some second

/-- Its parts, the largest first. -/
def DateTime.parts (dt : DateTime) (second : Int) : List Int := [dt.year, dt.month, dt.day, dt.hour, dt.minute, second]

def DateTime.seconds (dt : DateTime) (second : Int) : Int :=
  daysFromCivil dt.year dt.month dt.day * 86400 + dt.hour * 3600 + dt.minute * 60 + second

theorem encodeDateTime_payload {X : Datatypes} {value : String} {id : TermId} (h : encodeDateTime X value = some id) :
    ∃ dt s, Whole X value dt s ∧ id.tag = .dateTime ∧ (id.payload : Int) = dt.seconds s + dtBias := by
  unfold encodeDateTime at h
  split_ifs at h with hz
  simp only [Option.bind_eq_bind, Option.bind_eq_some_iff] at h
  obtain ⟨dt, hdt, h⟩ := h
  split_ifs at h with ht hyear hdot
  simp only [Option.bind_eq_some_iff] at h
  obtain ⟨s, hs, h⟩ := h
  split_ifs at h with hwindow
  cases h
  refine ⟨dt, s, ⟨hdt, by simpa using hz, hyear, hdot, hs⟩, TermId.tag_new _ _ _, ?_⟩
  rw [TermId.payload_new, Int.toNat_of_nonneg hwindow.1]
  rfl

theorem seconds_eq {dt dt' : DateTime} {s s' : Int} (h : dt.parts s = dt'.parts s') : dt.seconds s = dt'.seconds s' := by
  simp only [DateTime.parts, List.cons.injEq, Nat.cast_inj, and_true] at h
  obtain ⟨hy, hm, hd, hh, hmi, hs⟩ := h
  unfold DateTime.seconds
  rw [hy, hm, hd, hh, hmi, hs]

/-- The parts of instants are in the order of their seconds. -/
theorem seconds_lt {X : Datatypes} (hX : X.Lawful) {value value' : String} {dt dt' : DateTime} {s s' : Int}
    (h : Whole X value dt s) (h' : Whole X value' dt' s') (hlt : dt.parts s < dt'.parts s') : dt.seconds s < dt'.seconds s' := by
  obtain ⟨hm₁, hm₂, hd₁, hd₂, hh, hmi, hs₀, hs₁⟩ := hX.calendar value dt s h.parsed h.utc h.year.1 h.year.2 h.dot h.second
  obtain ⟨hm₁', hm₂', hd₁', hd₂', hh', hmi', hs₀', hs₁'⟩ :=
    hX.calendar value' dt' s' h'.parsed h'.utc h'.year.1 h'.year.2 h'.dot h'.second
  simp only [DateTime.parts, List.cons_lt_cons_iff, List.not_lt_nil, Nat.cast_lt, Nat.cast_inj, and_false, or_false] at hlt
  unfold DateTime.seconds
  by_cases hdate : dt.year = dt'.year ∧ dt.month = dt'.month ∧ dt.day = dt'.day
  · obtain ⟨hy, hm, hd⟩ := hdate
    rw [hy, hm, hd]
    omega
  · have := @daysFromCivil_lt dt.year dt'.year dt.month dt'.month dt.day dt'.day hm₁ hm₂ hd₂ hm₁' hm₂' hd₁' (by omega)
    omega

end Holos.Inline
