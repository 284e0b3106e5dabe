import Holos.InlineOrder
import Holos.Store.Codec
/-!
# What the inline codec promises

Every literal an encoder takes decodes to itself, so two literals never share an id; the payload it
computes fits the sixty bits there are for it; and the ids of one tag, and the keys made of them,
stand in the order of the values.
-/

namespace Holos.Inline

/-! ## Integers are read as they are written -/

theorem parseDigits_toDigits (n : Nat) : parseDigits (Nat.toDigits 10 n) = some n := by
  have hfold : ∀ (cs : List Char) (m : Nat), (∀ c ∈ cs, c.isDigit = true) →
      cs.foldlM (fun n c => if c.isDigit then some (10 * n + (c.toNat - '0'.toNat)) else none) m = some (Nat.ofDigitChars 10 cs m) := by
    intro cs
    induction cs with
    | nil =>
      intro m _
      simp
    | cons c cs ih =>
      intro m hdigits
      rw [List.foldlM_cons, if_pos (hdigits c List.mem_cons_self), Option.bind_eq_bind, Option.bind_some,
        ih _ (fun d hd => hdigits d (List.mem_cons_of_mem _ hd)), Nat.ofDigitChars_cons]
  rw [parseDigits, if_neg (by simp [Nat.toDigits_ne_nil]),
    hfold _ _ (fun c hc => Nat.isDigit_of_mem_toDigits (by decide) (by decide) hc), Nat.ofDigitChars_ten_toDigits]

/-- A number in the range of the parser. -/
def InRange (v : Int) : Prop := -2 ^ 63 ≤ v ∧ v < 2 ^ 63

theorem parseI64_nat {n : Nat} (h : InRange n) : parseI64 (toString (n : Int)) = some (n : Int) := by
  have htext : (toString (n : Int)).toList = Nat.toDigits 10 n := Nat.toList_repr
  obtain ⟨c, cs, hcs⟩ := List.exists_cons_of_ne_nil (Nat.toDigits_ne_nil (n := n) (b := 10))
  have hdigit : c.isDigit = true := Nat.isDigit_of_mem_toDigits (b := 10) (n := n) (by decide) (by decide) (by simp [hcs])
  have hparse := parseDigits_toDigits n
  rw [hcs] at hparse
  simp only [parseI64, htext, hcs]
  split
  · rename_i heq
    cases heq
    exact absurd hdigit (by decide)
  · rename_i heq
    cases heq
    exact absurd hdigit (by decide)
  · rw [hparse, Option.bind_some]
    exact if_pos h

theorem parseI64_neg {s : String} {cs : List Char} {k : Nat} {v : Int} (hs : s.toList = '-' :: cs) (hk : parseDigits cs = some k)
    (hv : -(k : Int) = v) (h : InRange v) : parseI64 s = some v := by
  subst hv
  simp only [parseI64, hs, hk, Option.bind_some]
  exact if_pos h

theorem parseI64_negSucc {n : Nat} (h : InRange (Int.negSucc n)) : parseI64 (toString (Int.negSucc n)) = some (Int.negSucc n) := by
  refine parseI64_neg ?_ (parseDigits_toDigits (n + 1)) rfl h
  change ("-" ++ Nat.repr (n + 1)).toList = _
  rw [String.toList_append, Nat.toList_repr]
  rfl

theorem parseI64_toString {v : Int} (h : InRange v) : parseI64 (toString v) = some v := by
  cases v with
  | ofNat n => exact parseI64_nat h
  | negSucc n => exact parseI64_negSucc h

/-! ## Payloads -/

/-- The payload of each encoder, as it is handed to `TermId::new`, which panics on one it has no room
for. -/
def integerPayload (value : String) : Option Int := do
  let v ← parseI64 value
  if toString v ≠ value then none
  else if -intBias ≤ v ∧ v ≤ intBias - 1 then some (v + intBias) else none

def floatPayload (X : Datatypes) (value : String) : Option Int := do
  let parsed ← X.parseFloat value
  if isNan parsed then none else if X.floatToString parsed ≠ value then none else some (orderPreservingF32 parsed)

def booleanPayload (value : String) : Option Int :=
  if value = "true" then some (2 ^ 4) else if value = "false" then some 0 else none

def smallStringPayload (value : String) : Option Int :=
  if (utf8 value).length ≤ maxInlineStr then some (smallString (utf8 value)) else none

def dateTimePayload (X : Datatypes) (value : String) : Option Int :=
  if !value.endsWith 'Z' then none
  else do
    let dt ← X.parseDateTime value
    if dt.text ≠ value then none
    else if ¬ (1 ≤ dt.year ∧ dt.year ≤ 9999) then none
    else if '.' ∈ dt.second.toList then none
    else
      let second ← parseI64 dt.second
      some (dt.seconds second + dtBias)

/-- The tag and the payload of a literal that is encoded inline. -/
def payloadOf (X : Datatypes) (literal : Literal) : Option (Tag × Int) :=
  if literal.language.isSome || literal.direction.isSome then none
  else if literal.datatype = Xsd.string then (smallStringPayload literal.value).map (.small, ·)
  else if literal.datatype = Xsd.integer then (integerPayload literal.value).map (.integer, ·)
  else if literal.datatype = Xsd.boolean then (booleanPayload literal.value).map (.small, ·)
  else if literal.datatype = Xsd.float then (floatPayload X literal.value).map (.float, ·)
  else if literal.datatype = Xsd.dateTime then (dateTimePayload X literal.value).map (.dateTime, ·)
  else none

/-- An id is made of the payload of its literal, and is refused where that is. -/
def Encodes (t : Tag) (encoded : Option TermId) (payload : Option Int) : Prop :=
  (∀ p, payload = some p → ∃ id, encoded = some id ∧ id.tag = t ∧ (id.payload : Int) = p) ∧ (payload = none → encoded = none)

theorem Encodes.none {t : Tag} : Encodes t none none := by
  refine ⟨?_, fun _ => rfl⟩
  intro p hp
  cases hp

theorem Encodes.some {t : Tag} {n : Nat} {p : Int} {h : n ≤ TermId.payloadMax} (hp : (n : Int) = p) :
    Encodes t (some (TermId.new t n h)) (some p) := by
  constructor
  · rintro q ⟨⟩
    exact ⟨_, rfl, TermId.tag_new _ _ _, by rw [TermId.payload_new, hp]⟩
  · intro hnone
    cases hnone

theorem encodeInteger_encodes (value : String) : Encodes .integer (encodeInteger value) (integerPayload value) := by
  unfold encodeInteger integerPayload
  cases parseI64 value with
  | none => exact .none
  | some v =>
    simp only [Option.bind_eq_bind, Option.bind_some]
    split_ifs with hs hr
    · exact .none
    · refine .some ?_
      simp only [intBias] at hr ⊢
      omega
    · exact .none

theorem encodeFloat_encodes (X : Datatypes) (value : String) : Encodes .float (encodeFloat X value) (floatPayload X value) := by
  unfold encodeFloat floatPayload
  cases X.parseFloat value with
  | none => exact .none
  | some bits =>
    simp only [Option.bind_eq_bind, Option.bind_some]
    split_ifs
    · exact .none
    · exact .none
    · exact .some rfl

theorem encodeBoolean_encodes (value : String) : Encodes .small (encodeBoolean value) (booleanPayload value) := by
  unfold encodeBoolean booleanPayload
  split_ifs
  · exact .some rfl
  · exact .some rfl
  · exact .none

theorem encodeSmallString_encodes (value : String) : Encodes .small (encodeSmallString value) (smallStringPayload value) := by
  unfold encodeSmallString smallStringPayload
  split_ifs with hlen
  · exact .some rfl
  · exact .none

/-- An instant of a four-digit year is far inside the window. -/
theorem seconds_fit {X : Datatypes} (hX : X.Lawful) {value : String} {dt : DateTime} {second : Int} (h : Whole X value dt second) :
    0 ≤ dt.seconds second + dtBias ∧ dt.seconds second + dtBias ≤ TermId.payloadMax := by
  obtain ⟨hm₁, hm₂, hd₁, hd₂, hh, hmi, hs₀, hs₁⟩ := hX.calendar value dt second h.parsed h.utc h.year.1 h.year.2 h.dot h.second
  have hdays := daysFromCivil_eq dt.year dt.month dt.day
  obtain ⟨-, hday, -⟩ := day_le hm₁ hm₂ hd₂
  have hyear : 0 ≤ marchYear dt.year dt.month ∧ marchYear dt.year dt.month ≤ 9999 := by
    have := h.year
    unfold marchYear
    split <;> omega
  have hmonth : 0 ≤ marchMonth dt.month := by
    unfold marchMonth
    split <;> omega
  unfold DateTime.seconds dtBias TermId.payloadMax
  rw [hdays]
  generalize marchYear dt.year dt.month = y at hyear
  generalize marchMonth dt.month = m at hmonth hday
  omega

theorem encodeDateTime_encodes {X : Datatypes} (hX : X.Lawful) (value : String) :
    Encodes .dateTime (encodeDateTime X value) (dateTimePayload X value) := by
  unfold encodeDateTime dateTimePayload
  split_ifs with hz
  · exact .none
  · cases hdt : X.parseDateTime value with
    | none => exact .none
    | some dt =>
      simp only [Option.bind_eq_bind, Option.bind_some]
      split_ifs with ht hyear hdot
      · exact .none
      · exact .none
      · cases hs : parseI64 dt.second with
        | none => exact .none
        | some second =>
          have hfit := seconds_fit hX ⟨hdt, by simpa using hz, hyear, hdot, hs⟩
          simp only [Option.bind_some]
          unfold DateTime.seconds at hfit ⊢
          rw [dif_pos hfit]
          exact .some (Int.toNat_of_nonneg hfit.1)
      · exact .none

/-! ## One term, one id -/

/-- What the encoders of one literal make of its payload. -/
theorem encodeLiteral_encodes {X : Datatypes} (hX : X.Lawful) (l : Literal) :
    (∀ t p, payloadOf X l = some (t, p) → ∃ id, encodeLiteral X l = some id ∧ id.tag = t ∧ (id.payload : Int) = p) ∧
      (payloadOf X l = none → encodeLiteral X l = none) := by
  have hmap : ∀ {t : Tag} {encoded : Option TermId} {payload : Option Int}, Encodes t encoded payload →
      (∀ t' p, payload.map (t, ·) = some (t', p) → ∃ id, encoded = some id ∧ id.tag = t' ∧ (id.payload : Int) = p) ∧
        (payload.map (t, ·) = none → encoded = none) := by
    intro t encoded payload h
    constructor
    · intro t' p hp
      obtain ⟨p', hp', heq⟩ := Option.map_eq_some_iff.1 hp
      cases heq
      exact h.1 p hp'
    · intro hp
      exact h.2 (Option.map_eq_none_iff.1 hp)
  unfold payloadOf encodeLiteral
  split_ifs
  · exact ⟨fun t p hp => (nomatch hp), fun _ => rfl⟩
  · exact hmap (encodeSmallString_encodes l.value)
  · exact hmap (encodeInteger_encodes l.value)
  · exact hmap (encodeBoolean_encodes l.value)
  · exact hmap (encodeFloat_encodes X l.value)
  · exact hmap (encodeDateTime_encodes hX l.value)
  · exact ⟨fun t p hp => (nomatch hp), fun _ => rfl⟩

/-- The literals that are meant to be inlined: strings of at most six bytes, integers of sixty bits,
booleans, floats that are numbers and instants, in the form their value is written in. -/
inductive Canonical (X : Datatypes) : Literal → Prop
  | string {s} (h : (utf8 s).length ≤ 6) : Canonical X (.simple s)
  | integer {v : Int} (hlow : -2 ^ 59 ≤ v) (hhigh : v < 2 ^ 59) : Canonical X (.newTyped (toString v) Xsd.integer)
  | boolean (b : Bool) : Canonical X (.newTyped (toString b) Xsd.boolean)
  | float {s bits} (h : X.parseFloat s = some bits) (hnum : isNan bits = false) (hs : X.floatToString bits = s) :
      Canonical X (.newTyped s Xsd.float)
  | dateTime {s dt second} (h : Whole X s dt second) (hs : dt.text = s) : Canonical X (.newTyped s Xsd.dateTime)

theorem Canonical.payload {X : Datatypes} {l : Literal} (h : Canonical X l) : ∃ t p, payloadOf X l = some (t, p) := by
  cases h with
  | @string s h =>
    refine ⟨.small, smallString (utf8 s), ?_⟩
    have hlen : (utf8 s).length ≤ maxInlineStr := h
    simp [payloadOf, Literal.language, Literal.direction, Literal.datatype, Literal.value, smallStringPayload, hlen]
  | @integer v hlow hhigh =>
    have hparse : parseI64 (toString v) = some v := parseI64_toString ⟨by omega, by omega⟩
    have hrange : -intBias ≤ v ∧ v ≤ intBias - 1 := by
      unfold intBias
      omega
    refine ⟨.integer, v + intBias, ?_⟩
    change (integerPayload (toString v)).map (Tag.integer, ·) = _
    simp only [integerPayload, hparse, Option.bind_eq_bind, Option.bind_some]
    rw [if_neg (fun hne => hne rfl), if_pos hrange]
    rfl
  | boolean b =>
    cases b
    · exact ⟨.small, 0, rfl⟩
    · exact ⟨.small, 2 ^ 4, rfl⟩
  | @float s bits h hnum hs =>
    refine ⟨.float, orderPreservingF32 bits, ?_⟩
    change (floatPayload X s).map (Tag.float, ·) = _
    simp [floatPayload, h, hnum, hs]
  | @dateTime s dt second h hs =>
    refine ⟨.dateTime, dt.seconds second + dtBias, ?_⟩
    change (dateTimePayload X s).map (Tag.dateTime, ·) = _
    simp [dateTimePayload, h.parsed, h.utc, h.year, h.dot, h.second, hs]

/-- Every canonical literal is encoded, every encoded literal decodes to itself, two literals of one
id are the same, and a payload fits. -/
theorem inline_exact {X : Datatypes} (hX : X.Lawful) :
    (∀ l, Canonical X l → ∃ id, encodeLiteral X l = some id) ∧
    (∀ l id, encodeLiteral X l = some id → decode X id = some (.literal l)) ∧
    (∀ l l' id, encodeLiteral X l = some id → encodeLiteral X l' = some id → l = l') ∧
    ∀ l t p, payloadOf X l = some (t, p) → 0 ≤ p ∧ p < 2 ^ 60 ∧ ∃ id, encodeLiteral X l = some id ∧ id.tag = t ∧ (id.payload : Int) = p := by
  refine ⟨fun l hl => ?_, fun l id h => (decode_encodeLiteral X hX h).2, fun l l' id h h' => ?_, fun l t p hp => ?_⟩
  · obtain ⟨t, p, hp⟩ := hl.payload
    obtain ⟨id, hid, -⟩ := (encodeLiteral_encodes hX l).1 t p hp
    exact ⟨id, hid⟩
  · have hsame := (decode_encodeLiteral X hX h).2.symm.trans (decode_encodeLiteral X hX h').2
    cases hsame
    rfl
  · obtain ⟨id, hid, htag, hpayload⟩ := (encodeLiteral_encodes hX l).1 t p hp
    have hle := id.payload_le
    unfold TermId.payloadMax at hle
    exact ⟨by omega, by omega, id, hid, htag, hpayload⟩

/-- A parser of one float and one instant. -/
def sample : Datatypes where
  parseFloat s := if s = "1" then some 0x3F800000 else none
  floatToString bits := if bits = 0x3F800000 then "1" else ""
  parseDateTime s := if s = "1970-01-01T00:00:00Z" then some ⟨s, 1970, 1, 1, 0, 0, "0"⟩ else none

theorem sample_lawful : sample.Lawful where
  written v dt s h _ _ _ _ hs := by
    unfold sample at h
    dsimp only at h
    split_ifs at h with hv
    cases h
    have hzero : parseI64 "0" = some 0 := by decide +kernel
    cases hzero.symm.trans hs
    rw [hv]
    decide +kernel
  calendar v dt s h _ _ _ _ hs := by
    unfold sample at h
    dsimp only at h
    split_ifs at h with hv
    cases h
    have hzero : parseI64 "0" = some 0 := by decide +kernel
    cases hzero.symm.trans hs
    rw [hv]
    decide +kernel

theorem inline_exact_epoch : ∃ id, encodeLiteral sample (.newTyped "1970-01-01T00:00:00Z" Xsd.dateTime) = some id ∧
    decode sample id = some (.literal (.newTyped "1970-01-01T00:00:00Z" Xsd.dateTime)) ∧ id.payload = 2 ^ 59 := by
  have hp : payloadOf sample (.newTyped "1970-01-01T00:00:00Z" Xsd.dateTime) = some (.dateTime, 2 ^ 59) := by decide +kernel
  obtain ⟨-, hdecode, -, hfit⟩ := inline_exact sample_lawful
  obtain ⟨-, -, id, hid, -, hpayload⟩ := hfit _ _ _ hp
  exact ⟨id, hid, hdecode _ id hid, by omega⟩

/-! ## The value of a float -/

/-- The magnitude of a float, in units of the least one. An infinity is one past the largest. -/
def magnitude (m : Nat) : Nat := if m < 2 ^ 23 then m else (2 ^ 23 + m % 2 ^ 23) * 2 ^ (m / 2 ^ 23 - 1)

/-- The value of a float that is a number. -/
def floatValue (bits : Fin (2 ^ 32)) : Rat :=
  (if bits.val < 2 ^ 31 then (magnitude bits.val : Rat) else -(magnitude (bits.val - 2 ^ 31) : Rat)) / 2 ^ 149

theorem magnitude_succ (m : Nat) : magnitude m < magnitude (m + 1) := by
  unfold magnitude
  by_cases hm : m + 1 < 2 ^ 23
  · rw [if_pos (by omega), if_pos hm]
    omega
  · rw [if_neg hm]
    by_cases hfirst : m < 2 ^ 23
    · have hlast : m + 1 = 2 ^ 23 := by omega
      rw [if_pos hfirst, hlast]
      norm_num
      omega
    · rw [if_neg hfirst]
      by_cases hsame : (m + 1) / 2 ^ 23 = m / 2 ^ 23
      · rw [hsame]
        exact Nat.mul_lt_mul_of_pos_right (by omega) (Nat.pow_pos (by decide))
      · -- the last of one exponent, and the first of the next
        have hnext : (m + 1) / 2 ^ 23 = m / 2 ^ 23 + 1 := by omega
        have hend : m % 2 ^ 23 = 2 ^ 23 - 1 := by omega
        have hstart : (m + 1) % 2 ^ 23 = 0 := by omega
        obtain ⟨e, he⟩ : ∃ e, m / 2 ^ 23 = e + 1 := ⟨m / 2 ^ 23 - 1, by omega⟩
        have hpos : 0 < 2 ^ e := Nat.pow_pos (by decide)
        rw [hnext, hend, hstart, he, Nat.add_sub_cancel, Nat.add_sub_cancel]
        calc (2 ^ 23 + (2 ^ 23 - 1)) * 2 ^ e < 2 ^ 24 * 2 ^ e := Nat.mul_lt_mul_of_pos_right (by decide) hpos
          _ = (2 ^ 23 + 0) * 2 ^ (e + 1) := by ring

theorem magnitude_strictMono : StrictMono magnitude := strictMono_nat_of_lt_succ magnitude_succ

theorem neg_magnitude_lt {m n : Nat} (h : 0 < magnitude m + magnitude n) : -(magnitude m : Rat) < (magnitude n : Rat) := by
  rw [neg_lt_iff_pos_add', ← Nat.cast_add, Nat.cast_pos]
  exact h

/-- Floats stand in the order of their signed magnitudes. -/
theorem floatValue_lt_iff (a b : Fin (2 ^ 32)) : floatValue a < floatValue b ↔ signed a < signed b := by
  have hzero : magnitude 0 = 0 := by decide
  have hlt : ∀ m n, magnitude m < magnitude n ↔ m < n := fun m n => magnitude_strictMono.lt_iff_lt
  have hpos : ∀ m, 0 < m → 0 < magnitude m := fun m hm => hzero ▸ (hlt 0 m).2 hm
  unfold floatValue signed
  rw [div_lt_div_iff_of_pos_right (by positivity)]
  have ha := a.isLt
  have hb := b.isLt
  split <;> split
  · rw [Nat.cast_lt, hlt]
    omega
  · rename_i hb'
    have hnonpos : -(magnitude (b.val - 2 ^ 31) : Rat) ≤ (magnitude a.val : Rat) := (neg_nonpos.2 (Nat.cast_nonneg _)).trans (Nat.cast_nonneg _)
    exact iff_of_false (not_lt.2 hnonpos) (by omega)
  · rename_i ha' hb'
    by_cases hboth : a.val - 2 ^ 31 = 0 ∧ b.val = 0
    · rw [hboth.1, hboth.2, hzero]
      simp only [Nat.cast_zero, neg_zero, lt_self_iff_false, false_iff]
      omega
    · refine iff_of_true ?_ (by omega)
      apply neg_magnitude_lt
      rcases Nat.eq_zero_or_pos (a.val - 2 ^ 31) with h | h
      · exact Nat.add_pos_right _ (hpos _ (by omega))
      · exact Nat.add_pos_left (hpos _ h) _
  · rw [neg_lt_neg_iff, Nat.cast_lt, hlt]
    omega

/-! ## Strings -/

/-- Packed bytes of the same places stand in the order of the bytes, but for what the padding hides. -/
theorem pack_lt_pack {xs ys : List UInt8} {n : Nat} (hx : xs.length ≤ n + 1) (hy : ys.length ≤ n + 1) (h : xs < ys) :
    pack n xs < pack n ys ∨ (pack n xs = pack n ys ∧ xs.length < ys.length) := by
  induction xs generalizing ys n with
  | nil =>
    cases ys with
    | nil => exact absurd h (List.lt_irrefl _)
    | cons y ys =>
      rcases Nat.eq_zero_or_pos (pack n (y :: ys)) with hzero | hpos
      · exact .inr ⟨by rw [hzero]; rfl, by simp⟩
      · exact .inl (by simpa [pack] using hpos)
  | cons x xs ih =>
    cases ys with
    | nil => exact absurd h (by simp)
    | cons y ys =>
      have hpos : 0 < 256 ^ n := Nat.pow_pos (by decide)
      -- what follows the first byte stays below its unit
      have hbelow : ∀ {zs : List UInt8}, zs.length ≤ n → pack (n - 1) zs < 256 ^ n := by
        intro zs hzs
        cases n with
        | zero => simp [List.eq_nil_of_length_eq_zero (Nat.le_zero.1 hzs), pack]
        | succ n => exact pack_lt zs n hzs
      have hx' : xs.length ≤ n := by simpa using hx
      have hy' : ys.length ≤ n := by simpa using hy
      rw [pack, pack, Lib.Bytes.digits_lt (hbelow hx') (hbelow hy'), Lib.Bytes.digits_eq (hbelow hx') (hbelow hy')]
      rcases List.cons_lt_cons_iff.1 h with hlt | ⟨rfl, hlt⟩
      · exact .inl (.inl (UInt8.lt_iff_toNat_lt.1 hlt))
      · cases n with
        | zero =>
          rw [List.eq_nil_of_length_eq_zero (Nat.le_zero.1 hx'), List.eq_nil_of_length_eq_zero (Nat.le_zero.1 hy')] at hlt
          exact absurd hlt (List.lt_irrefl _)
        | succ n =>
          rcases ih hx' hy' hlt with hless | ⟨hsame, hshort⟩
          · exact .inl (.inr ⟨rfl, hless⟩)
          · exact .inr ⟨⟨rfl, hsame⟩, by simpa using hshort⟩

theorem smallString_lt {xs ys : List UInt8} (hx : xs.length ≤ maxInlineStr) (hy : ys.length ≤ maxInlineStr) (h : xs < ys) :
    smallString xs < smallString ys := by
  have hpack := pack_lt_pack (n := 5) hx hy h
  unfold smallString maxInlineStr at *
  simp only [Nat.reduceSub] at *
  omega

theorem smallString_lt_iff {xs ys : List UInt8} (hx : xs.length ≤ maxInlineStr) (hy : ys.length ≤ maxInlineStr) :
    smallString xs < smallString ys ↔ xs < ys := by
  constructor
  · intro h
    by_contra hnot
    rcases List.le_iff_lt_or_eq.1 (List.not_lt.1 hnot) with hlt | rfl
    · exact absurd (smallString_lt hy hx hlt) (by omega)
    · exact Nat.lt_irrefl _ h
  · exact smallString_lt hx hy

/-! ## The order of ids -/

variable {X : Datatypes}

/-- The payload an id of a literal was made of. -/
theorem payload_of_encodeLiteral (hX : X.Lawful) {l : Literal} {id : TermId} {t : Tag} {p : Int} (h : encodeLiteral X l = some id)
    (hp : payloadOf X l = some (t, p)) : id.tag = t ∧ (id.payload : Int) = p := by
  obtain ⟨id', hid', htag, hpayload⟩ := (encodeLiteral_encodes hX l).1 t p hp
  rw [h] at hid'
  cases hid'
  exact ⟨htag, hpayload⟩

/-- Ids of one tag stand in the order of their payloads. -/
theorem encodeLiteral_lt_iff (hX : X.Lawful) {l l' : Literal} {id id' : TermId} {t : Tag} {p p' : Int} (ht : t ≠ .reserved)
    (h : encodeLiteral X l = some id) (h' : encodeLiteral X l' = some id') (hp : payloadOf X l = some (t, p))
    (hp' : payloadOf X l' = some (t, p')) : id < id' ↔ p < p' := by
  obtain ⟨htag, hpayload⟩ := payload_of_encodeLiteral hX h hp
  obtain ⟨htag', hpayload'⟩ := payload_of_encodeLiteral hX h' hp'
  rw [TermId.lt_iff_payload (htag.trans htag'.symm) (htag ▸ ht), ← hpayload, ← hpayload', Nat.cast_lt]

theorem payload_of_isSome {l : Literal} {id : TermId} (hX : X.Lawful) (h : encodeLiteral X l = some id) :
    ∃ t p, payloadOf X l = some (t, p) := by
  cases hp : payloadOf X l with
  | none =>
    rw [(encodeLiteral_encodes hX l).2 hp] at h
    cases h
  | some payload => exact ⟨payload.1, payload.2, rfl⟩

theorem integerPayload_eq {value : String} {p : Int} (h : integerPayload value = some p) :
    ∃ v, parseI64 value = some v ∧ p = v + intBias := by
  obtain ⟨v, hv, h⟩ := Option.bind_eq_some_iff.1 h
  split_ifs at h
  cases h
  exact ⟨v, hv, rfl⟩

theorem floatPayload_eq {value : String} {p : Int} (h : floatPayload X value = some p) :
    ∃ bits, X.parseFloat value = some bits ∧ isNan bits = false ∧ p = orderPreservingF32 bits := by
  obtain ⟨bits, hbits, h⟩ := Option.bind_eq_some_iff.1 h
  split_ifs at h with hnan
  cases h
  exact ⟨bits, hbits, by simpa using hnan, rfl⟩

theorem dateTimePayload_eq {value : String} {p : Int} (h : dateTimePayload X value = some p) :
    ∃ dt second, Whole X value dt second ∧ p = dt.seconds second + dtBias := by
  unfold dateTimePayload at h
  split_ifs at h with hz
  obtain ⟨dt, hdt, h⟩ := Option.bind_eq_some_iff.1 h
  split_ifs at h with ht hyear hdot
  obtain ⟨second, hs, h⟩ := Option.bind_eq_some_iff.1 h
  cases h
  exact ⟨dt, second, ⟨hdt, by simpa using hz, hyear, hdot, hs⟩, rfl⟩

theorem smallStringPayload_eq {value : String} {p : Int} (h : smallStringPayload value = some p) :
    (utf8 value).length ≤ maxInlineStr ∧ p = smallString (utf8 value) := by
  unfold smallStringPayload at h
  split_ifs at h with hlen
  cases h
  exact ⟨hlen, rfl⟩

/-- Instants stand in the order of their seconds, the largest part first. -/
theorem seconds_lt_iff (hX : X.Lawful) {value value' : String} {dt dt' : DateTime} {s s' : Int} (h : Whole X value dt s)
    (h' : Whole X value' dt' s') : dt.seconds s < dt'.seconds s' ↔ dt.parts s < dt'.parts s' := by
  constructor
  · intro hlt
    rcases lt_trichotomy (dt.parts s) (dt'.parts s') with hparts | hparts | hparts
    · exact hparts
    · exact absurd (seconds_eq hparts) (ne_of_lt hlt)
    · exact absurd (seconds_lt hX h' h hparts) (not_lt_of_gt hlt)
  · exact seconds_lt hX h h'

theorem payload_of_map {t t' : Tag} {payload : Option Int} {p : Int} (h : payload.map (t, ·) = some (t', p)) : t' = t ∧ payload = some p := by
  obtain ⟨q, hq, heq⟩ := Option.map_eq_some_iff.1 h
  cases heq
  exact ⟨rfl, hq⟩

/-- Ids stand in the order of their integers, their instants and the bytes of their strings; a float
below another has the lower id, and one of lower id is not above; and the bytes of keys stand in the
order of the ids in them. -/
theorem inline_order (hX : X.Lawful) :
    (∀ s s' id id', encodeLiteral X (.newTyped s Xsd.integer) = some id → encodeLiteral X (.newTyped s' Xsd.integer) = some id' →
      ∃ v v', parseI64 s = some v ∧ parseI64 s' = some v' ∧ (id < id' ↔ v < v')) ∧
    (∀ s s' id id', encodeLiteral X (.newTyped s Xsd.dateTime) = some id → encodeLiteral X (.newTyped s' Xsd.dateTime) = some id' →
      ∃ dt second dt' second', Whole X s dt second ∧ Whole X s' dt' second' ∧ (id < id' ↔ dt.parts second < dt'.parts second')) ∧
    (∀ s s' id id', encodeLiteral X (.simple s) = some id → encodeLiteral X (.simple s') = some id' → (id < id' ↔ utf8 s < utf8 s')) ∧
    (∀ s s' id id', encodeLiteral X (.newTyped s Xsd.float) = some id → encodeLiteral X (.newTyped s' Xsd.float) = some id' →
      ∃ a b, X.parseFloat s = some a ∧ X.parseFloat s' = some b ∧ isNan a = false ∧ isNan b = false ∧
        (floatValue a < floatValue b → id < id') ∧ (id < id' → floatValue a ≤ floatValue b)) ∧
    ∀ xs ys : List TermId, Codec.key xs < Codec.key ys ↔ xs < ys := by
  refine ⟨fun s s' id id' h h' => ?_, fun s s' id id' h h' => ?_, fun s s' id id' h h' => ?_, fun s s' id id' h h' => ?_,
    Codec.key_lt_key_iff⟩
  · obtain ⟨t, p, hp⟩ := payload_of_isSome hX h
    obtain ⟨t', p', hp'⟩ := payload_of_isSome hX h'
    obtain ⟨rfl, hq⟩ := @payload_of_map .integer t (integerPayload s) p hp
    obtain ⟨rfl, hq'⟩ := @payload_of_map .integer t' (integerPayload s') p' hp'
    obtain ⟨v, hv, rfl⟩ := integerPayload_eq hq
    obtain ⟨v', hv', rfl⟩ := integerPayload_eq hq'
    refine ⟨v, v', hv, hv', ?_⟩
    rw [encodeLiteral_lt_iff hX (by decide) h h' hp hp']
    omega
  · obtain ⟨t, p, hp⟩ := payload_of_isSome hX h
    obtain ⟨t', p', hp'⟩ := payload_of_isSome hX h'
    obtain ⟨rfl, hq⟩ := @payload_of_map .dateTime t (dateTimePayload X s) p hp
    obtain ⟨rfl, hq'⟩ := @payload_of_map .dateTime t' (dateTimePayload X s') p' hp'
    obtain ⟨dt, second, hw, rfl⟩ := dateTimePayload_eq hq
    obtain ⟨dt', second', hw', rfl⟩ := dateTimePayload_eq hq'
    refine ⟨dt, second, dt', second', hw, hw', ?_⟩
    rw [encodeLiteral_lt_iff hX (by decide) h h' hp hp', ← seconds_lt_iff hX hw hw']
    omega
  · obtain ⟨t, p, hp⟩ := payload_of_isSome hX h
    obtain ⟨t', p', hp'⟩ := payload_of_isSome hX h'
    obtain ⟨rfl, hq⟩ := @payload_of_map .small t (smallStringPayload s) p hp
    obtain ⟨rfl, hq'⟩ := @payload_of_map .small t' (smallStringPayload s') p' hp'
    obtain ⟨hlen, rfl⟩ := smallStringPayload_eq hq
    obtain ⟨hlen', rfl⟩ := smallStringPayload_eq hq'
    rw [encodeLiteral_lt_iff hX (by decide) h h' hp hp', Nat.cast_lt, smallString_lt_iff hlen hlen']
  · obtain ⟨t, p, hp⟩ := payload_of_isSome hX h
    obtain ⟨t', p', hp'⟩ := payload_of_isSome hX h'
    obtain ⟨rfl, hq⟩ := @payload_of_map .float t (floatPayload X s) p hp
    obtain ⟨rfl, hq'⟩ := @payload_of_map .float t' (floatPayload X s') p' hp'
    obtain ⟨a, ha, hnum, rfl⟩ := floatPayload_eq hq
    obtain ⟨b, hb, hnum', rfl⟩ := floatPayload_eq hq'
    have hid : id < id' ↔ signed a < signed b ∨ (a = negZero ∧ b = posZero) := by
      rw [encodeLiteral_lt_iff hX (by decide) h h' hp hp', Nat.cast_lt, orderPreservingF32_lt_iff]
    refine ⟨a, b, ha, hb, hnum, hnum', ?_, ?_⟩
    · intro hlt
      exact hid.2 (.inl ((floatValue_lt_iff a b).1 hlt))
    · intro hlt
      rw [← not_lt, floatValue_lt_iff]
      rcases hid.1 hlt with hlt | ⟨rfl, rfl⟩
      · exact not_lt_of_gt hlt
      · decide

theorem inline_order_nul : ∃ id id', encodeLiteral sample (.simple "a") = some id ∧ encodeLiteral sample (.simple "a\x00") = some id' ∧
    id < id' := by
  refine ⟨_, _, rfl, rfl, ?_⟩
  exact ((inline_order sample_lawful).2.2.1 "a" "a\x00" _ _ rfl rfl).2 (by decide +kernel)

end Holos.Inline
