import Holos.Vocab
import Mathlib.Tactic.IntervalCases
import Mathlib.Tactic.Ring
/-!
# The inline value codec

A literal whose lexical form is the canonical one for its value may be its own id: an
integer, a float, a UTC instant, a boolean, a string of at most six bytes. Every encoder
applies one rule, that the lexical form is what the value would be written as; so decoding
what was encoded gives the literal back, and two literals never share an inline id.

Parsing and printing floats and date-times is `oxsdatatypes`' work, taken as `Datatypes`.
-/

namespace Holos.Inline

/-! ## Numbers as text -/

/-- Decimal digits, at least one. -/
def parseDigits (cs : List Char) : Option Nat :=
  if cs.isEmpty then none
  else cs.foldlM (fun n c => if c.isDigit then some (10 * n + (c.toNat - '0'.toNat)) else none) 0

/-- `str::parse::<i64>`. -/
def parseI64 (s : String) : Option Int :=
  let within : Int → Option Int := fun v => if -2 ^ 63 ≤ v ∧ v < 2 ^ 63 then some v else none
  match s.toList with
  | '-' :: cs => (parseDigits cs).bind (fun n => within (-n))
  | '+' :: cs => (parseDigits cs).bind (fun n => within n)
  | cs => (parseDigits cs).bind (fun n => within n)

/-- A number written with at least `width` characters, zeros in front. -/
def padded (width : Nat) (n : Int) : String :=
  String.ofList (List.replicate (width - (toString n).toList.length) '0' ++ (toString n).toList)

/-! ## What `oxsdatatypes` does -/

/-- A parsed `xsd:dateTime`: how it is written, and its parts. -/
structure DateTime where
  text : String
  year : Int
  month : Nat
  day : Nat
  hour : Nat
  minute : Nat
  second : String

/-- The parsing and printing of floats (as their bits) and date-times. -/
structure Datatypes where
  parseFloat : String → Option (Fin (2 ^ 32))
  floatToString : Fin (2 ^ 32) → String
  parseDateTime : String → Option DateTime

def isLeap (y : Int) : Bool := y % 4 = 0 && (y % 100 ≠ 0 || y % 400 = 0)

def daysInMonth (y : Int) (m : Nat) : Nat :=
  if m = 2 then (if isLeap y then 29 else 28) else if m = 4 ∨ m = 6 ∨ m = 9 ∨ m = 11 then 30 else 31

/-- A UTC instant in canonical form. -/
def formatDateTime (y : Int) (m d h mi s : Int) : String :=
  padded 4 y ++ "-" ++ padded 2 m ++ "-" ++ padded 2 d ++ "T" ++ padded 2 h ++ ":" ++ padded 2 mi ++ ":" ++ padded 2 s ++ "Z"

/-- A UTC date-time of whole seconds and a four-digit year is a date of the calendar and a
time of the day, and is written in the canonical form. -/
structure Datatypes.Lawful (X : Datatypes) : Prop where
  written : ∀ v dt s, X.parseDateTime v = some dt → v.endsWith 'Z' = true → 1 ≤ dt.year → dt.year ≤ 9999 →
    '.' ∉ dt.second.toList → parseI64 dt.second = some s →
    dt.text = formatDateTime dt.year dt.month dt.day dt.hour dt.minute s
  calendar : ∀ v dt s, X.parseDateTime v = some dt → v.endsWith 'Z' = true → 1 ≤ dt.year → dt.year ≤ 9999 →
    '.' ∉ dt.second.toList → parseI64 dt.second = some s →
    1 ≤ dt.month ∧ dt.month ≤ 12 ∧ 1 ≤ dt.day ∧ dt.day ≤ daysInMonth dt.year dt.month ∧
      dt.hour < 24 ∧ dt.minute < 60 ∧ 0 ≤ s ∧ s < 60

variable (X : Datatypes)

/-! ## xsd:integer -/

/-- Maps a 60-bit signed integer onto an unsigned payload, preserving order. -/
def intBias : Int := 2 ^ 59

def encodeInteger (value : String) : Option TermId := do
  let v ← parseI64 value
  if toString v ≠ value then none
  else if h : -intBias ≤ v ∧ v ≤ intBias - 1 then
    some (TermId.new .integer (v + intBias).toNat (by simp only [intBias, TermId.payloadMax] at *; omega))
  else none

def decodeInteger (payload : Nat) : Literal := .newTyped (toString ((payload : Int) - intBias)) Xsd.integer

theorem decode_encodeInteger {value : String} {id : TermId} (h : encodeInteger value = some id) :
    id.tag = .integer ∧ decodeInteger id.payload = .newTyped value Xsd.integer := by
  simp only [encodeInteger, Option.bind_eq_bind, Option.bind_eq_some_iff] at h
  obtain ⟨v, -, h⟩ := h
  split_ifs at h with hs hr
  cases h
  refine ⟨TermId.tag_new _ _ _, ?_⟩
  have hv : ((v + intBias).toNat : Int) - intBias = v := by simp only [intBias] at *; omega
  rw [TermId.payload_new, decodeInteger, hv, not_not.1 hs]

/-! ## xsd:float -/

/-- Maps the bits of a float onto a number whose order is the numeric one. -/
def orderPreservingF32 (bits : Fin (2 ^ 32)) : Nat := if bits.val < 2 ^ 31 then bits + 2 ^ 31 else 2 ^ 32 - 1 - bits

def f32FromOrderPreserving (ord : Nat) : Nat := if ord < 2 ^ 31 then 2 ^ 32 - 1 - ord else ord - 2 ^ 31

/-- The exponent is all ones and the fraction is not nought. -/
def isNan (bits : Fin (2 ^ 32)) : Bool := bits.val % 2 ^ 31 > 0x7F800000

theorem orderPreservingF32_lt (bits : Fin (2 ^ 32)) : orderPreservingF32 bits < 2 ^ 32 := by
  have := bits.isLt
  simp only [orderPreservingF32]
  split <;> omega

def encodeFloat (value : String) : Option TermId := do
  let parsed ← X.parseFloat value
  if isNan parsed then none
  else if X.floatToString parsed ≠ value then none
  else some (TermId.new .float (orderPreservingF32 parsed)
    (by have := orderPreservingF32_lt parsed; simp only [TermId.payloadMax]; omega))

/-- Only the low 32 bits are ever written; the others are masked. -/
def decodeFloat (payload : Nat) : Literal :=
  .newTyped (X.floatToString (Fin.ofNat (2 ^ 32) (f32FromOrderPreserving (payload % 2 ^ 32)))) Xsd.float

theorem f32_orderPreserving (bits : Fin (2 ^ 32)) :
    Fin.ofNat (2 ^ 32) (f32FromOrderPreserving (orderPreservingF32 bits % 2 ^ 32)) = bits := by
  have := bits.isLt
  rw [Nat.mod_eq_of_lt (orderPreservingF32_lt bits)]
  apply Fin.ext
  simp only [orderPreservingF32, f32FromOrderPreserving, Fin.val_ofNat]
  split_ifs <;> omega

theorem decode_encodeFloat {value : String} {id : TermId} (h : encodeFloat X value = some id) :
    id.tag = .float ∧ decodeFloat X id.payload = .newTyped value Xsd.float := by
  simp only [encodeFloat, Option.bind_eq_bind, Option.bind_eq_some_iff] at h
  obtain ⟨bits, -, h⟩ := h
  split_ifs at h with hn hs
  cases h
  refine ⟨TermId.tag_new _ _ _, ?_⟩
  rw [TermId.payload_new, decodeFloat, f32_orderPreserving, not_not.1 hs]

/-! ## xsd:boolean and short xsd:string -/

def utf8 (s : String) : List UInt8 := s.toByteArray.data.toList

def fromUtf8 (bytes : List UInt8) : Option String := String.fromUTF8? ⟨bytes.toArray⟩

theorem fromUtf8_utf8 (s : String) : fromUtf8 (utf8 s) = some s := by
  have h : (⟨(utf8 s).toArray⟩ : ByteArray) = s.toByteArray := by simp [utf8]
  rw [fromUtf8, h, String.fromUTF8?, dif_pos s.isValidUTF8]
  rfl

def maxInlineStr : Nat := 6

/-- Bytes left-aligned in forty-eight bits: `n` is how many follow the first. -/
def pack : Nat → List UInt8 → Nat
  | _, [] => 0
  | n, b :: bytes => b.toNat * 256 ^ n + pack (n - 1) bytes

/-- The payload of a short string: the bytes above their number, above the kind. -/
def smallString (bytes : List UInt8) : Nat := pack (maxInlineStr - 1) bytes * 2 ^ 12 + bytes.length * 2 ^ 4 + 1

theorem pack_lt (bytes : List UInt8) (n : Nat) (h : bytes.length ≤ n + 1) : pack n bytes < 256 ^ (n + 1) := by
  induction bytes generalizing n with
  | nil => simp [pack]
  | cons b bytes ih =>
    have hb : b.toNat < 256 := b.toNat_lt
    have hpos : 0 < 256 ^ n := Nat.pow_pos (by decide)
    cases n with
    | zero =>
      have : bytes = [] := List.eq_nil_of_length_eq_zero (by simpa using h)
      simp [this, pack, hb]
    | succ n =>
      have hrest := ih n (by simpa using h)
      rw [pack, Nat.add_sub_cancel, pow_succ 256 (n + 1)]
      calc b.toNat * 256 ^ (n + 1) + pack n bytes < b.toNat * 256 ^ (n + 1) + 256 ^ (n + 1) := by omega
        _ = (b.toNat + 1) * 256 ^ (n + 1) := by ring
        _ ≤ 256 * 256 ^ (n + 1) := Nat.mul_le_mul_right _ (by omega)
        _ = 256 ^ (n + 1) * 256 := by ring

theorem smallString_le {bytes : List UInt8} (h : bytes.length ≤ maxInlineStr) : smallString bytes ≤ TermId.payloadMax := by
  have := pack_lt bytes 5 h
  simp only [smallString, maxInlineStr, Nat.reduceSub, TermId.payloadMax] at *
  omega

def encodeBoolean (value : String) : Option TermId :=
  if value = "true" then some (TermId.new .small (2 ^ 4) (by decide))
  else if value = "false" then some (TermId.new .small 0 (by decide))
  else none

def encodeSmallString (value : String) : Option TermId :=
  if h : (utf8 value).length ≤ maxInlineStr then some (TermId.new .small (smallString (utf8 value)) (smallString_le h))
  else none

def decodeSmall (payload : Nat) : Option Literal :=
  if payload % 2 ^ 4 = 0 then
    some (.newTyped (if payload / 2 ^ 4 % 2 = 0 then "false" else "true") Xsd.boolean)
  else if payload % 2 ^ 4 = 1 then
    let len := payload / 2 ^ 4 % 2 ^ 8
    if len > maxInlineStr then none
    else
      let packed := payload / 2 ^ 12
      let bytes := (List.range len).map (fun i => UInt8.ofNat (packed / 256 ^ (maxInlineStr - 1 - i) % 256))
      (fromUtf8 bytes).map .simple
  else none

/-- The bytes come back out of the payload. -/
theorem unpack_pack (bytes : List UInt8) (n i : Nat) (h : bytes.length ≤ n + 1) (hi : i < bytes.length) :
    UInt8.ofNat (pack n bytes / 256 ^ (n - i) % 256) = bytes[i] := by
  induction bytes generalizing n i with
  | nil => simp at hi
  | cons b bytes ih =>
    have hb : b.toNat < 256 := b.toNat_lt
    have hlt : pack (n - 1) bytes < 256 ^ n ∨ n = 0 := by
      rcases n with _ | n
      · exact .inr rfl
      · exact .inl (pack_lt bytes n (by simpa using h))
    cases i with
    | zero =>
      have hdiv : pack n (b :: bytes) / 256 ^ (n - 0) = b.toNat := by
        rw [pack, Nat.sub_zero]
        rcases hlt with hlt | rfl
        · rw [Nat.add_comm, Nat.add_mul_div_right _ _ (Nat.pow_pos (by decide)), Nat.div_eq_of_lt hlt, Nat.zero_add]
        · have : bytes = [] := List.eq_nil_of_length_eq_zero (by simpa using h)
          simp [this, pack]
      rw [hdiv, Nat.mod_eq_of_lt hb]
      simp
    | succ i =>
      have hi' : i < bytes.length := by simpa using hi
      have hn : 1 ≤ n := by simp at h; omega
      have hpow : 256 ^ n = 256 ^ (i + 1) * 256 ^ (n - (i + 1)) := by
        rw [← pow_add]
        congr 1
        simp at h
        omega
      have hdiv : pack n (b :: bytes) / 256 ^ (n - (i + 1)) =
          256 * (b.toNat * 256 ^ i) + pack (n - 1) bytes / 256 ^ (n - (i + 1)) := by
        rw [pack, hpow, show b.toNat * (256 ^ (i + 1) * 256 ^ (n - (i + 1))) = (256 * (b.toNat * 256 ^ i)) * 256 ^ (n - (i + 1)) by ring,
          Nat.add_comm, Nat.add_mul_div_right _ _ (Nat.pow_pos (by decide)), Nat.add_comm]
      rw [hdiv, Nat.mul_add_mod, show n - (i + 1) = n - 1 - i by omega, ih (n - 1) i (by simp at h; omega) hi']
      rfl

theorem decode_encodeSmallString {value : String} {id : TermId} (h : encodeSmallString value = some id) :
    id.tag = .small ∧ decodeSmall id.payload = some (.simple value) := by
  unfold encodeSmallString at h
  split at h
  · rename_i hlen
    cases h
    refine ⟨TermId.tag_new _ _ _, ?_⟩
    have hpack := pack_lt (utf8 value) 5 hlen
    have hkind : smallString (utf8 value) % 2 ^ 4 = 1 := by simp only [smallString]; omega
    have hlength : smallString (utf8 value) / 2 ^ 4 % 2 ^ 8 = (utf8 value).length := by
      simp only [smallString, maxInlineStr, Nat.reduceSub] at hlen ⊢; omega
    have hpacked : smallString (utf8 value) / 2 ^ 12 = pack 5 (utf8 value) := by
      simp only [smallString, maxInlineStr, Nat.reduceSub] at hlen ⊢; omega
    rw [TermId.payload_new, decodeSmall, if_neg (by omega), if_pos hkind]
    simp only [hlength, hpacked]
    rw [if_neg (Nat.not_lt.2 hlen)]
    have hbytes : (List.range (utf8 value).length).map (fun i => UInt8.ofNat (pack 5 (utf8 value) / 256 ^ (maxInlineStr - 1 - i) % 256)) =
        utf8 value := by
      refine List.ext_getElem (by simp) fun i hi _ => ?_
      simp only [List.length_map, List.length_range] at hi
      rw [List.getElem_map, List.getElem_range]
      exact unpack_pack (utf8 value) 5 i hlen hi
    rw [hbytes, fromUtf8_utf8]
    rfl
  · cases h

theorem decode_encodeBoolean {value : String} {id : TermId} (h : encodeBoolean value = some id) :
    id.tag = .small ∧ decodeSmall id.payload = some (.newTyped value Xsd.boolean) := by
  unfold encodeBoolean at h
  split_ifs at h with h₁ h₂
  · cases h
    subst h₁
    exact ⟨TermId.tag_new _ _ _, by rw [TermId.payload_new]; rfl⟩
  · cases h
    subst h₂
    exact ⟨TermId.tag_new _ _ _, by rw [TermId.payload_new]; rfl⟩

/-! ## xsd:dateTime -/

/-- Days since 1970-01-01 of a date in the proleptic Gregorian calendar. -/
def daysFromCivil (y m d : Int) : Int :=
  let y := if m ≤ 2 then y - 1 else y
  let era := (if y ≥ 0 then y else y - 399).tdiv 400
  let yoe := y - era * 400
  let doy := (153 * (if m > 2 then m - 3 else m + 9) + 2).tdiv 5 + d - 1
  let doe := yoe * 365 + yoe.tdiv 4 - yoe.tdiv 100 + doy
  era * 146097 + doe - 719468

/-- The inverse of `daysFromCivil`. -/
def civilFromDays (z : Int) : Int × Int × Int :=
  let z := z + 719468
  let era := (if z ≥ 0 then z else z - 146096).tdiv 146097
  let doe := z - era * 146097
  let yoe := (doe - doe.tdiv 1460 + doe.tdiv 36524 - doe.tdiv 146096).tdiv 365
  let y := yoe + era * 400
  let doy := doe - (365 * yoe + yoe.tdiv 4 - yoe.tdiv 100)
  let mp := (5 * doy + 2).tdiv 153
  let d := doy - (153 * mp + 2).tdiv 5 + 1
  let m := if mp < 10 then mp + 3 else mp - 9
  (if m ≤ 2 then y + 1 else y, m, d)

/-- Seconds since the epoch as a canonical `xsd:dateTime`, for a year of four digits. -/
def formatUtcSeconds (secs : Int) : Option String :=
  let days := secs / 86400
  let rem := secs % 86400
  let (y, m, d) := civilFromDays days
  if 1 ≤ y ∧ y ≤ 9999 then some (formatDateTime y m d (rem / 3600) (rem % 3600 / 60) (rem % 60)) else none

def dtBias : Int := 2 ^ 59

def encodeDateTime (value : String) : Option TermId := do
  if !value.endsWith 'Z' then none
  else
    let dt ← X.parseDateTime value
    if dt.text ≠ value then none
    else if ¬ (1 ≤ dt.year ∧ dt.year ≤ 9999) then none
    else if '.' ∈ dt.second.toList then none
    else
      let second ← parseI64 dt.second
      let days := daysFromCivil dt.year dt.month dt.day
      let secs := days * 86400 + dt.hour * 3600 + dt.minute * 60 + second
      -- outside the window the source panics; a date of the calendar is well inside it
      if h : 0 ≤ secs + dtBias ∧ secs + dtBias ≤ TermId.payloadMax then
        some (TermId.new .dateTime (secs + dtBias).toNat (by omega))
      else none

def decodeDateTime (payload : Nat) : Option Literal :=
  (formatUtcSeconds ((payload : Int) - dtBias)).map (Literal.newTyped · Xsd.dateTime)

/-- The day of a four-hundred-year era gives its year back. -/
theorem yearOfEra {yoe doy doe : Int} (h₀ : 0 ≤ yoe) (h₁ : yoe < 400) (hd₀ : 0 ≤ doy) (hd₁ : doy ≤ 365)
    (hleap : doy = 365 → (yoe + 1) % 4 = 0 ∧ ((yoe + 1) % 100 ≠ 0 ∨ yoe = 399))
    (hdoe : doe = yoe * 365 + yoe / 4 - yoe / 100 + doy) :
    (doe - doe / 1460 + doe / 36524 - doe / 146096) / 365 = yoe := by
  -- a year is its century, its leap cycle and its place in that
  obtain ⟨c, q, r, hyoe, hc₀, hc₁, hq₀, hq₁, hr₀, hr₁⟩ : ∃ c q r : Int, yoe = 100 * c + 4 * q + r ∧
      0 ≤ c ∧ c ≤ 3 ∧ 0 ≤ q ∧ q ≤ 24 ∧ 0 ≤ r ∧ r ≤ 3 :=
    ⟨yoe / 100, yoe % 100 / 4, yoe % 100 % 4, by omega⟩
  subst hyoe
  have hsum : doe = 36524 * c + 1461 * q + 365 * r + doy := by omega
  clear hdoe
  have hlast : doy = 365 → r = 3 ∧ (q ≠ 24 ∨ c = 3) := by omega
  have hcycle : doe / 1460 = 25 * c + q + (24 * c + q + 365 * r + doy) / 1460 := by omega
  have hcentury : doe / 36524 - doe / 146096 = c := by
    clear hcycle
    by_cases hend : doe = 146096
    · omega
    · have hlt : doe < 36524 * (c + 1) := by omega
      have hquot : doe / 36524 = c := by omega
      omega
  have hone : (24 * c + q + 365 * r + doy) / 1460 = if 1460 ≤ 24 * c + q + 365 * r + doy then 1 else 0 := by
    split <;> omega
  rw [add_sub_assoc, hcentury, hcycle, hone]
  split <;> omega

/-- A month of the year that starts in March, and the day in it, from the day of the year. -/
theorem monthOfYear {mp d doy : Int} (h₀ : 0 ≤ mp) (h₁ : mp ≤ 11) (hd₀ : 1 ≤ d)
    (hd₁ : d ≤ if mp = 11 then 29 else if mp = 1 ∨ mp = 3 ∨ mp = 6 ∨ mp = 8 then 30 else 31)
    (hdoy : doy = (153 * mp + 2) / 5 + d - 1) : (5 * doy + 2) / 153 = mp := by
  interval_cases mp <;> simp at hd₁ hdoy <;> omega

theorem civilFromDays_daysFromCivil {y : Int} {m d : Nat} (hy : 1 ≤ y) (hm₁ : 1 ≤ m) (hm₂ : m ≤ 12) (hd₁ : 1 ≤ d)
    (hd₂ : d ≤ daysInMonth y m) : civilFromDays (daysFromCivil y m d) = (y, (m : Int), (d : Int)) := by
  -- the year and the month counted from March
  obtain ⟨y', hy'⟩ : ∃ y' : Int, y' = if (m : Int) ≤ 2 then y - 1 else y := ⟨_, rfl⟩
  obtain ⟨mp, hmp⟩ : ∃ mp : Int, mp = if (m : Int) > 2 then (m : Int) - 3 else (m : Int) + 9 := ⟨_, rfl⟩
  obtain ⟨era, yoe, hera, hyoe, hsplit, hera₀, hyoe₀, hyoe₁⟩ : ∃ era yoe : Int, era = y' / 400 ∧ yoe = y' - era * 400 ∧
      y' = era * 400 + yoe ∧ 0 ≤ era ∧ 0 ≤ yoe ∧ yoe < 400 := ⟨y' / 400, y' - y' / 400 * 400, by split at hy' <;> omega⟩
  have hmp₀ : 0 ≤ mp ∧ mp ≤ 11 := by split at hmp <;> omega
  have hd : (d : Int) ≤ if mp = 11 then 29 else if mp = 1 ∨ mp = 3 ∨ mp = 6 ∨ mp = 8 then 30 else 31 := by
    interval_cases m <;> simp [daysInMonth] at hd₂ hmp <;> simp [hmp] <;> first | omega | (split at hd₂ <;> omega)
  obtain ⟨doy, hdoy⟩ : ∃ doy : Int, doy = (153 * mp + 2) / 5 + d - 1 := ⟨_, rfl⟩
  have hmonth := monthOfYear hmp₀.1 hmp₀.2 (by omega) hd hdoy
  have hdoy₀ : 0 ≤ doy ∧ doy ≤ 365 := by
    obtain ⟨h₀, h₁⟩ := hmp₀
    interval_cases mp <;> simp at hd <;> omega
  -- the last day of that year is the end of a February with twenty-nine days
  have hleap : doy = 365 → (yoe + 1) % 4 = 0 ∧ ((yoe + 1) % 100 ≠ 0 ∨ yoe = 399) := by
    intro hlast
    have hfeb : m = 2 ∧ d = 29 := by
      interval_cases m <;> simp [daysInMonth] at hd₂ hmp <;> subst hmp <;> omega
    obtain ⟨rfl, rfl⟩ := hfeb
    have hl : isLeap y = true := by
      by_contra hno
      simp [daysInMonth, hno] at hd₂
    simp only [isLeap, Bool.and_eq_true, Bool.or_eq_true, decide_eq_true_eq, ne_eq] at hl
    simp at hy'
    omega
  obtain ⟨doe, hdoe⟩ : ∃ doe : Int, doe = yoe * 365 + yoe / 4 - yoe / 100 + doy := ⟨_, rfl⟩
  have hdoe₀ : 0 ≤ doe ∧ doe ≤ 146096 := by omega
  have hyear := yearOfEra hyoe₀ hyoe₁ hdoy₀.1 hdoy₀.2 hleap hdoe
  have hdays : daysFromCivil y m d = era * 146097 + doe - 719468 := by
    simp only [daysFromCivil, ← hy', ← hmp]
    rw [if_pos (show y' ≥ 0 by omega), Int.tdiv_eq_ediv_of_nonneg (by omega), ← hera, ← hyoe,
      Int.tdiv_eq_ediv_of_nonneg (by omega), Int.tdiv_eq_ediv_of_nonneg (by omega), Int.tdiv_eq_ediv_of_nonneg (by omega)]
    omega
  -- the quotients are of numbers that are not negative
  have hera' : (era * 146097 + doe).tdiv 146097 = era := by rw [Int.tdiv_eq_ediv_of_nonneg (by omega)]; omega
  have hcycle : doe.tdiv 1460 = doe / 1460 := Int.tdiv_eq_ediv_of_nonneg hdoe₀.1
  have hcentury : doe.tdiv 36524 = doe / 36524 := Int.tdiv_eq_ediv_of_nonneg hdoe₀.1
  have hlast : doe.tdiv 146096 = doe / 146096 := Int.tdiv_eq_ediv_of_nonneg hdoe₀.1
  have hyear' : (doe - doe / 1460 + doe / 36524 - doe / 146096).tdiv 365 = yoe := by
    rw [Int.tdiv_eq_ediv_of_nonneg (by omega), hyear]
  have hfour : yoe.tdiv 4 = yoe / 4 := Int.tdiv_eq_ediv_of_nonneg hyoe₀
  have hhundred : yoe.tdiv 100 = yoe / 100 := Int.tdiv_eq_ediv_of_nonneg hyoe₀
  have hdoy' : doe - (365 * yoe + yoe / 4 - yoe / 100) = doy := by omega
  have hmonth' : (5 * doy + 2).tdiv 153 = mp := by rw [Int.tdiv_eq_ediv_of_nonneg (by omega), hmonth]
  have hstart : (153 * mp + 2).tdiv 5 = (153 * mp + 2) / 5 := Int.tdiv_eq_ediv_of_nonneg (by omega)
  simp only [civilFromDays, hdays, sub_add_cancel, if_pos (show era * 146097 + doe ≥ 0 by omega), hera',
    add_sub_cancel_left, hcycle, hcentury, hlast, hyear', hfour, hhundred, hdoy', hmonth', hstart]
  have hm : (if mp < 10 then mp + 3 else mp - 9) = (m : Int) := by split at hmp <;> split <;> omega
  rw [hm]
  have hy'' : (if (m : Int) ≤ 2 then yoe + era * 400 + 1 else yoe + era * 400) = y := by split at hy' <;> split <;> omega
  have hd'' : doy - (153 * mp + 2) / 5 + 1 = (d : Int) := by omega
  rw [hy'', hd'']

/-- A date and a time of the day are written as the seconds they make. -/
theorem formatUtcSeconds_of_civil {y : Int} {m d h mi : Nat} {s : Int} (hy₁ : 1 ≤ y) (hy₂ : y ≤ 9999) (hm₁ : 1 ≤ m)
    (hm₂ : m ≤ 12) (hd₁ : 1 ≤ d) (hd₂ : d ≤ daysInMonth y m) (hh : h < 24) (hmi : mi < 60) (hs₀ : 0 ≤ s) (hs₁ : s < 60) :
    formatUtcSeconds (daysFromCivil y m d * 86400 + h * 3600 + mi * 60 + s) = some (formatDateTime y m d h mi s) := by
  have hdays : (daysFromCivil y m d * 86400 + h * 3600 + mi * 60 + s) / 86400 = daysFromCivil y m d := by omega
  have hrem : (daysFromCivil y m d * 86400 + h * 3600 + mi * 60 + s) % 86400 = h * 3600 + mi * 60 + s := by omega
  simp only [formatUtcSeconds, hdays, hrem, civilFromDays_daysFromCivil hy₁ hm₁ hm₂ hd₁ hd₂]
  rw [if_pos ⟨hy₁, hy₂⟩, show ((h : Int) * 3600 + mi * 60 + s) / 3600 = h by omega,
    show ((h : Int) * 3600 + mi * 60 + s) % 3600 / 60 = mi by omega, show ((h : Int) * 3600 + mi * 60 + s) % 60 = s by omega]

theorem decode_encodeDateTime (hX : X.Lawful) {value : String} {id : TermId} (h : encodeDateTime X value = some id) :
    id.tag = .dateTime ∧ decodeDateTime id.payload = some (.newTyped value Xsd.dateTime) := by
  unfold encodeDateTime at h
  split_ifs at h with hz
  simp only [Option.bind_eq_bind, Option.bind_eq_some_iff] at h
  obtain ⟨dt, hdt, h⟩ := h
  split_ifs at h with ht hyear hdot
  simp only [Option.bind_eq_some_iff] at h
  obtain ⟨s, hs, h⟩ := h
  split_ifs at h with hwindow
  cases h
  simp only [Bool.not_eq_true', Bool.not_eq_false] at hz
  rw [not_not] at ht
  have htext := hX.written value dt s hdt hz hyear.1 hyear.2 hdot hs
  obtain ⟨hm₁, hm₂, hd₁, hd₂, hh, hmi, hs₀, hs₁⟩ := hX.calendar value dt s hdt hz hyear.1 hyear.2 hdot hs
  refine ⟨TermId.tag_new _ _ _, ?_⟩
  rw [TermId.payload_new, decodeDateTime, Int.toNat_of_nonneg hwindow.1, add_sub_cancel_right,
    formatUtcSeconds_of_civil hyear.1 hyear.2 hm₁ hm₂ hd₁ hd₂ hh hmi hs₀ hs₁, ← htext, ht]
  rfl

/-! ## Literals -/

/-- The inline id of a literal, or `none` if it belongs in the dictionary. A language tag or
a direction has no room in a payload. -/
def encodeLiteral (literal : Literal) : Option TermId :=
  if literal.language.isSome || literal.direction.isSome then none
  else if literal.datatype = Xsd.string then encodeSmallString literal.value
  else if literal.datatype = Xsd.integer then encodeInteger literal.value
  else if literal.datatype = Xsd.boolean then encodeBoolean literal.value
  else if literal.datatype = Xsd.float then encodeFloat X literal.value
  else if literal.datatype = Xsd.dateTime then encodeDateTime X literal.value
  else none

/-- Decodes an inline id. The other tags are not this module's. -/
def decode (id : TermId) : Option Term :=
  match id.tag with
  | .integer => some (.literal (decodeInteger id.payload))
  | .float => some (.literal (decodeFloat X id.payload))
  | .dateTime => (decodeDateTime id.payload).map .literal
  | .small => (decodeSmall id.payload).map .literal
  | _ => none

/-- Tags whose payload carries the value. -/
def inlineTag : Tag → Bool
  | .integer | .float | .dateTime | .small => true
  | _ => false

/-- What is encoded inline decodes to the very literal. -/
theorem decode_encodeLiteral (hX : X.Lawful) {l : Literal} {id : TermId} (h : encodeLiteral X l = some id) :
    inlineTag id.tag = true ∧ decode X id = some (.literal l) := by
  unfold encodeLiteral at h
  split_ifs at h with htag h₁ h₂ h₃ h₄ h₅
  all_goals
    have hlang : l.language = none := by
      cases hl : l.language <;> simp_all
    have hsame := Literal.newTyped_value_datatype hlang
  · obtain ⟨htag, hdec⟩ := decode_encodeSmallString h
    rw [h₁] at hsame
    refine ⟨by rw [htag]; rfl, ?_⟩
    rw [decode, htag, ← hsame, hdec]
    rfl
  · obtain ⟨htag, hdec⟩ := decode_encodeInteger h
    refine ⟨by rw [htag]; rfl, ?_⟩
    rw [decode, htag, ← hsame, h₂]
    simp only [hdec]
  · obtain ⟨htag, hdec⟩ := decode_encodeBoolean h
    refine ⟨by rw [htag]; rfl, ?_⟩
    rw [decode, htag, ← hsame, h₃, hdec]
    rfl
  · obtain ⟨htag, hdec⟩ := decode_encodeFloat X h
    refine ⟨by rw [htag]; rfl, ?_⟩
    rw [decode, htag, ← hsame, h₄]
    simp only [hdec]
  · obtain ⟨htag, hdec⟩ := decode_encodeDateTime X hX h
    refine ⟨by rw [htag]; rfl, ?_⟩
    rw [decode, htag, ← hsame, h₅, hdec]
    rfl

end Holos.Inline
