import Holos.Engine.RangeTheorems
import Holos.Shacl.Compare
import Holos.Store.DictionaryTheorems
import Mathlib.Data.List.TakeWhile
/-!
# How values compare

Two inline ids stand in the order of their values, except for the zeros of a float. Other numbers are
compared as doubles, so in the order of their values unless two of them are rounded to one.
-/

namespace Holos.Shacl

open Lib Inline Engine Range

/-! ## Numerals -/

/-- What a literal is as an exact number. -/
def decimalValue (s : String) : Option ℚ :=
  let (negative, cs) := F64.splitSign s.toList
  match F64.numeral cs with
  | some (q, []) => some (if negative then -q else q)
  | _ => none

/-- An integer or a decimal of this value. -/
structure Numeric (l : Literal) (q : ℚ) : Prop where
  datatype : l.datatype ∈ integers ∨ l.datatype = Vocab.xsd "decimal"
  value : decimalValue l.value = some q

theorem parse_of_decimalValue {s : String} {q : ℚ} (h : decimalValue s = some q) : F64.parse s = some (.at (F64.round q)) := by
  unfold decimalValue at h
  unfold F64.parse
  cases hn : F64.numeral (F64.splitSign s.toList).2 with
  | none =>
    simp only [hn] at h
    cases h
  | some e =>
    obtain ⟨v, rest⟩ := e
    cases rest with
    | cons c cs =>
      simp only [hn] at h
      cases h
    | nil =>
      simp only [hn] at h ⊢
      rw [← Option.some.inj h]
      simp [F64.exponent]

theorem parseDigits_cases {cs : List Char} {n : Nat} (h : parseDigits cs = some n) :
    cs ≠ [] ∧ (∀ c ∈ cs, c.isDigit = true) ∧ F64.digitsValue cs = n := by
  unfold parseDigits at h
  split at h
  · cases h
  · rename_i hne
    refine ⟨by simpa using hne, ?_⟩
    unfold F64.digitsValue
    generalize 0 = start at h ⊢
    clear hne
    induction cs generalizing start with
    | nil => exact ⟨by simp, by simpa using h⟩
    | cons c cs ih =>
      rw [List.foldlM_cons] at h
      split at h
      · rename_i hc
        obtain ⟨hall, hvalue⟩ := ih _ h
        exact ⟨List.forall_mem_cons.2 ⟨hc, hall⟩, hvalue⟩
      · cases h

theorem numeral_of_parseDigits {cs : List Char} {n : Nat} (h : parseDigits cs = some n) : F64.numeral cs = some ((n : ℚ), []) := by
  obtain ⟨hne, hall, hvalue⟩ := parseDigits_cases h
  have htake : cs.takeWhile Char.isDigit = cs := List.takeWhile_eq_self_iff.2 hall
  have hdrop : cs.dropWhile Char.isDigit = [] := List.dropWhile_eq_nil_iff.2 hall
  unfold F64.numeral
  rw [htake, hdrop]
  simp [hne, hvalue]

/-- A text an integer is parsed from has that value. -/
theorem decimalValue_of_parseI64 {s : String} {v : Int} (h : parseI64 s = some v) : decimalValue s = some (v : ℚ) := by
  have hwithin : ∀ {m : Option Nat} {f : Nat → Int}, (m.bind (fun n => if -2 ^ 63 ≤ f n ∧ f n < 2 ^ 63 then some (f n) else none)) = some v →
      ∃ n, m = some n ∧ f n = v := by
    intro m f hm
    obtain ⟨n, hn, hf⟩ := Option.bind_eq_some_iff.1 hm
    split at hf
    · exact ⟨n, hn, Option.some.inj hf⟩
    · cases hf
  unfold parseI64 at h
  unfold decimalValue
  split at h
  · rename_i cs hcs
    obtain ⟨n, hn, rfl⟩ := hwithin h
    rw [hcs]
    simp [F64.splitSign, numeral_of_parseDigits hn]
  · rename_i cs hcs
    obtain ⟨n, hn, rfl⟩ := hwithin h
    rw [hcs]
    simp [F64.splitSign, numeral_of_parseDigits hn]
  · rename_i hminus hplus
    obtain ⟨n, hn, rfl⟩ := hwithin h
    have hsplit : F64.splitSign s.toList = (false, s.toList) := by
      unfold F64.splitSign
      split
      · rename_i cs hcs
        exact absurd hcs (hminus cs)
      · rename_i cs hcs
        exact absurd hcs (hplus cs)
      · rfl
    rw [hsplit]
    simp [numeral_of_parseDigits hn]

/-! ## Inline ids -/

theorem compare_of_tag {a b : TermId} (htag : a.tag = b.tag) (hr : a.tag ≠ .reserved) : compare a b = compare a.payload b.payload := by
  have ha := val_eq hr rfl
  have hb := val_eq (htag ▸ hr) rfl
  rw [← htag] at hb
  rcases lt_trichotomy a.payload b.payload with h | h | h
  · rw [compare_lt_iff_lt.2 h, compare_lt_iff_lt, Fin.lt_def]
    omega
  · rw [compare_eq_iff_eq.2 h, compare_eq_iff_eq]
    exact Fin.ext (by omega)
  · rw [compare_gt_iff_gt.2 h, compare_gt_iff_gt, Fin.lt_def]
    omega

theorem encoder_of_tag {X : Datatypes} {l : Literal} {id : TermId} (h : encodeLiteral X l = some id) :
    (id.tag = .integer → l.datatype = Xsd.integer ∧ encodeInteger l.value = some id) ∧
    (id.tag = .float → l.datatype = Xsd.float ∧ encodeFloat X l.value = some id) ∧
    (id.tag = .dateTime → l.datatype = Xsd.dateTime ∧ encodeDateTime X l.value = some id) ∧
    (id.tag = .integer ∨ id.tag = .float ∨ id.tag = .dateTime ∨ id.tag = .small) := by
  unfold encodeLiteral at h
  split_ifs at h with htag h₁ h₂ h₃ h₄ h₅
  · have ht := (decode_encodeSmallString h).1
    simp [ht]
  · obtain ⟨n, hn, ht, -⟩ := encodeInteger_payload h
    simp [ht, h₂, h]
  · have ht := (decode_encodeBoolean h).1
    simp [ht]
  · obtain ⟨bits, hb, -, ht, -⟩ := encodeFloat_payload h
    simp [ht, h₄, h]
  · obtain ⟨dt, s, hwhole, ht, -⟩ := encodeDateTime_payload h
    simp [ht, h₅, h]

/-! ## Comparing -/

/-- UTC instants of whole seconds compare as their parts do. -/
def Temporal.Lawful (T : Temporal) (X : Datatypes) : Prop :=
  ∀ {v v' dt dt' s s'}, Whole X v dt s → Whole X v' dt' s' → T.compareDateTimes dt dt' =
    some (if dt.parts s < dt'.parts s' then .lt else if dt'.parts s' < dt.parts s then .gt else .eq)

namespace Validator

section
variable {X : Datatypes} {T : Temporal} {d : Dictionary} {la lb : Literal} {a b : TermId}

/-- A literal that is not in the dictionary is inline. -/
theorem inline_of_lookup (ha : d.lookup X (.literal la) = some a) (htag : a.tag ≠ .literal) : encodeLiteral X la = some a :=
  (dictionary_reads X d la a ha).resolve_right (fun h => htag h.2)

theorem isLiteral_of_lookup (ha : d.lookup X (.literal la) = some a) : isLiteral a = true := by
  unfold isLiteral nodeKind
  by_cases htag : a.tag = .literal
  · rw [htag]
    rfl
  · obtain ⟨-, -, -, hcases⟩ := encoder_of_tag (inline_of_lookup ha htag)
    rcases hcases with h | h | h | h <;> rw [h] <;> rfl

/-- Two literals that are not both inline under one ordered tag are compared by what is written. -/
theorem compare_written (hX : X.Lawful) (hd : Dictionary.Valid X d) (ha : d.lookup X (.literal la) = some a)
    (hb : d.lookup X (.literal lb) = some b) (htags : ¬(a.tag = b.tag ∧ ordered a.tag = true)) :
    compare X T (d.decode X) a b = .ok (compareLiterals X T la lb) := by
  unfold compare
  rw [if_neg htags, isLiteral_of_lookup ha, isLiteral_of_lookup hb, Dictionary.decode_lookup hX hd ha, Dictionary.decode_lookup hX hd hb]
  rfl

theorem compare_inline (htags : a.tag = b.tag ∧ ordered a.tag = true) :
    compare X T (d.decode X) a b = .ok (some (Ord.compare a.payload b.payload)) := by
  have hr : a.tag ≠ .reserved := by
    intro h
    rw [h] at htags
    cases htags.2
  unfold compare
  rw [if_pos htags, compare_of_tag htags.1 hr]
  rfl

/-! ### Numbers -/

theorem isNumeric_of {l : Literal} {q : ℚ} (h : Numeric l q) : isNumeric l.datatype = true := by
  unfold isNumeric
  rw [List.contains_iff_mem, List.mem_append]
  rcases h.datatype with h | h
  · exact .inl h
  · rw [h]
    exact .inr List.mem_cons_self

/-- Exact numbers that are compared by what is written are compared as doubles. -/
theorem compareLiterals_numeric {qa qb : ℚ} (hqa : Numeric la qa) (hqb : Numeric lb qb) :
    compareLiterals X T la lb = some (Ord.compare (F64.round qa) (F64.round qb)) := by
  unfold compareLiterals
  rw [isNumeric_of hqa, isNumeric_of hqb, parse_of_decimalValue hqa.value, parse_of_decimalValue hqb.value]
  rfl

/-- Of the exact numbers only integers have an ordered tag. -/
theorem integer_of_ordered (ha : d.lookup X (.literal la) = some a) {q : ℚ} (hq : Numeric la q) (hord : ordered a.tag = true) :
    a.tag = .integer := by
  have hne : a.tag ≠ .literal := by
    intro h
    rw [h] at hord
    cases hord
  obtain ⟨-, hfloat, hdate, hcases⟩ := encoder_of_tag (inline_of_lookup ha hne)
  have hother : la.datatype ≠ Xsd.float ∧ la.datatype ≠ Xsd.dateTime := by
    rcases hq.datatype with h | h
    · constructor <;> intro heq <;> rw [heq] at h <;> revert h <;> decide
    · rw [h]
      decide
  rcases hcases with h | h | h | h
  · exact h
  · exact absurd (hfloat h).1 hother.1
  · exact absurd (hdate h).1 hother.2
  · rw [h] at hord
    cases hord

theorem payload_of_integer (ha : d.lookup X (.literal la) = some a) {q : ℚ} (hq : Numeric la q) (htag : a.tag = .integer) :
    ∃ v : Int, q = v ∧ (a.payload : Int) = v + intBias := by
  have hne : a.tag ≠ .literal := by
    rw [htag]
    decide
  obtain ⟨hinteger, -⟩ := encoder_of_tag (inline_of_lookup ha hne)
  obtain ⟨v, hv, -, hpayload⟩ := encodeInteger_payload (hinteger htag).2
  refine ⟨v, ?_, hpayload⟩
  exact Option.some.inj (hq.value.symm.trans (decimalValue_of_parseI64 hv))

theorem compare_numeric (hX : X.Lawful) (hd : Dictionary.Valid X d) (ha : d.lookup X (.literal la) = some a)
    (hb : d.lookup X (.literal lb) = some b) {qa qb : ℚ} (hqa : Numeric la qa) (hqb : Numeric lb qb) :
    compare X T (d.decode X) a b = .ok (some (Ord.compare qa qb)) ↔
      (a.tag = .integer ∧ b.tag = .integer) ∨ qa = qb ∨ F64.round qa ≠ F64.round qb := by
  by_cases htags : a.tag = .integer ∧ b.tag = .integer
  · obtain ⟨va, rfl, hpa⟩ := payload_of_integer ha hqa htags.1
    obtain ⟨vb, rfl, hpb⟩ := payload_of_integer hb hqb htags.2
    have hinline : a.tag = b.tag ∧ ordered a.tag = true := ⟨htags.1.trans htags.2.symm, by rw [htags.1]; rfl⟩
    have horder : Ord.compare a.payload b.payload = Ord.compare (va : ℚ) (vb : ℚ) := by
      rcases lt_trichotomy va vb with h | h | h
      · rw [compare_lt_iff_lt.2 (Int.cast_lt.2 h : (va : ℚ) < vb), compare_lt_iff_lt]
        omega
      · rw [compare_eq_iff_eq.2 (congrArg Int.cast h : (va : ℚ) = vb), compare_eq_iff_eq]
        omega
      · rw [compare_gt_iff_gt.2 (Int.cast_lt.2 h : (vb : ℚ) < va), compare_gt_iff_gt]
        omega
    rw [compare_inline hinline, horder]
    simp [htags]
  · have hwritten : ¬(a.tag = b.tag ∧ ordered a.tag = true) := by
      rintro ⟨heq, hord⟩
      exact htags ⟨integer_of_ordered ha hqa hord, integer_of_ordered hb hqb (heq ▸ hord)⟩
    rw [compare_written hX hd ha hb hwritten, compareLiterals_numeric hqa hqb, Except.ok.injEq, Option.some.injEq]
    have hround := @Binary.compare_round_iff 52 (-1074) F64.infinity (by decide) qa qb
    simp only [htags, false_or]
    exact hround

/-! ### Floats and instants -/

/-- The two zeros, in either order. -/
def Zeros (x y : Fin (2 ^ 32)) : Prop := (x = negZero ∧ y = posZero) ∨ (x = posZero ∧ y = negZero)

theorem compare_places_iff {x y : Fin (2 ^ 32)} :
    Ord.compare (orderPreservingF32 x) (orderPreservingF32 y) = Ord.compare (signed x) (signed y) ↔ ¬Zeros x y := by
  have hlt := orderPreservingF32_lt_iff x y
  have hgt := orderPreservingF32_lt_iff y x
  unfold Zeros
  by_cases hz : (x = negZero ∧ y = posZero) ∨ (x = posZero ∧ y = negZero)
  · simp only [hz, not_true_eq_false, iff_false]
    rcases hz with ⟨rfl, rfl⟩ | ⟨rfl, rfl⟩ <;> decide
  · simp only [hz, not_false_eq_true, iff_true]
    rw [not_or] at hz
    rcases lt_trichotomy (signed x) (signed y) with h | h | h
    · rw [compare_lt_iff_lt.2 h, compare_lt_iff_lt]
      exact hlt.2 (.inl h)
    · rw [compare_eq_iff_eq.2 h, compare_eq_iff_eq]
      have hnot : ¬orderPreservingF32 x < orderPreservingF32 y := fun hp => (hlt.1 hp).elim (by omega) hz.1
      have hnot' : ¬orderPreservingF32 y < orderPreservingF32 x := fun hp => (hgt.1 hp).elim (by omega) (fun h => hz.2 h.symm)
      omega
    · rw [compare_gt_iff_gt.2 h, compare_gt_iff_gt]
      exact hgt.2 (.inl h)

theorem compare_floats (ha : d.lookup X (.literal la) = some a) (hb : d.lookup X (.literal lb) = some b) (hta : a.tag = .float)
    (htb : b.tag = .float) {x y : Fin (2 ^ 32)} (hx : X.parseFloat la.value = some x) (hy : X.parseFloat lb.value = some y) :
    compare X T (d.decode X) a b = .ok (compareFloats x y) ↔ ¬Zeros x y := by
  have payload : ∀ {l : Literal} {id : TermId} {z : Fin (2 ^ 32)}, d.lookup X (.literal l) = some id → id.tag = .float →
      X.parseFloat l.value = some z → isNan z = false ∧ id.payload = orderPreservingF32 z := by
    intro l id z hl htag hz
    obtain ⟨-, hfloat, -⟩ := encoder_of_tag (inline_of_lookup hl (by rw [htag]; decide))
    obtain ⟨bits, hbits, hnan, -, hpayload⟩ := encodeFloat_payload (hfloat htag).2
    cases hz.symm.trans hbits
    exact ⟨hnan, hpayload⟩
  obtain ⟨hnan, hpa⟩ := payload ha hta hx
  obtain ⟨hnan', hpb⟩ := payload hb htb hy
  have hinline : a.tag = b.tag ∧ ordered a.tag = true := ⟨hta.trans htb.symm, by rw [hta]; rfl⟩
  rw [compare_inline hinline, hpa, hpb]
  unfold compareFloats
  rw [hnan, hnan', ← compare_places_iff]
  simp

theorem compare_instants (hX : X.Lawful) (hT : T.Lawful X) (hd : Dictionary.Valid X d) (ha : d.lookup X (.literal la) = some a)
    (hb : d.lookup X (.literal lb) = some b) (hla : la.datatype = Xsd.dateTime) (hlb : lb.datatype = Xsd.dateTime) {dt dt' : DateTime}
    (hdt : X.parseDateTime la.value = some dt) (hdt' : X.parseDateTime lb.value = some dt') :
    compare X T (d.decode X) a b = .ok (T.compareDateTimes dt dt') := by
  have instant : ∀ {l : Literal} {id : TermId} {t : DateTime}, d.lookup X (.literal l) = some id → id.tag = .dateTime →
      X.parseDateTime l.value = some t → ∃ s, Whole X l.value t s ∧ (id.payload : Int) = t.seconds s + dtBias := by
    intro l id t hl htag ht
    obtain ⟨-, -, hdate, -⟩ := encoder_of_tag (inline_of_lookup hl (by rw [htag]; decide))
    obtain ⟨t', s, hwhole, -, hpayload⟩ := encodeDateTime_payload (hdate htag).2
    cases ht.symm.trans hwhole.parsed
    exact ⟨s, hwhole, hpayload⟩
  by_cases htags : a.tag = b.tag ∧ ordered a.tag = true
  · have hta : a.tag = .dateTime := by
      have hne : a.tag ≠ .literal := by
        intro h
        rw [h] at htags
        cases htags.2
      obtain ⟨hinteger, hfloat, -, hcases⟩ := encoder_of_tag (inline_of_lookup ha hne)
      rcases hcases with h | h | h | h
      · exact absurd ((hinteger h).1.symm.trans hla) (by decide)
      · exact absurd ((hfloat h).1.symm.trans hla) (by decide)
      · exact h
      · rw [h] at htags
        cases htags.2
    obtain ⟨s, hwhole, hpa⟩ := instant ha hta hdt
    obtain ⟨s', hwhole', hpb⟩ := instant hb (htags.1 ▸ hta) hdt'
    have hlt := seconds_lt hX hwhole hwhole'
    have hgt := seconds_lt hX hwhole' hwhole
    rw [compare_inline htags, hT hwhole hwhole']
    rcases lt_trichotomy (dt.parts s) (dt'.parts s') with h | h | h
    · have := hlt h
      rw [if_pos h, compare_lt_iff_lt.2 (by omega)]
    · have := seconds_eq h
      rw [h, if_neg (lt_irrefl _), if_neg (lt_irrefl _), compare_eq_iff_eq.2 (by omega)]
    · have := hgt h
      rw [if_neg (lt_asymm h), if_pos h, compare_gt_iff_gt.2 (by omega)]
  · rw [compare_written hX hd ha hb htags]
    have hnumeric : isNumeric Xsd.dateTime = false := by decide
    have htemporal : Xsd.dateTime = Vocab.xsd "dateTime" := by decide
    unfold compareLiterals temporalCmp
    rw [hla, hlb, hnumeric, if_pos rfl, if_pos htemporal, hdt, hdt']
    rfl

/-- A range constraint reports the values that do not compare with its bound as it asks. -/
theorem range_of_compare {values : List TermId} {bound : TermId} {c : TermId → Option Ordering} {shape : Shape} {focus component : TermId}
    {ok : Ordering → Bool} (h : ∀ v ∈ values, compare X T (d.decode X) v bound = .ok (c v)) :
    range X T (d.decode X) values bound shape focus component ok =
      .ok ((values.filter (fun v => !(c v).any ok)).map (fun v => result shape focus (some v) component)) := by
  have hloop : ∀ (vs : List TermId) (results : List ValidationResult), (∀ v ∈ vs, compare X T (d.decode X) v bound = .ok (c v)) →
      vs.foldlM (fun results v => do
        let satisfied := (← compare X T (d.decode X) v bound).any ok
        return results ++ if satisfied then [] else [result shape focus (some v) component]) results =
      Except.ok (results ++ (vs.filter (fun v => !(c v).any ok)).map (fun v => result shape focus (some v) component)) := by
    intro vs results hvs
    induction vs generalizing results with
    | nil => simp [pure, Except.pure]
    | cons v vs ih =>
      rw [List.foldlM_cons, hvs v List.mem_cons_self]
      refine (ih _ (fun w hw => hvs w (List.mem_cons_of_mem v hw))).trans ?_
      cases hv : (c v).any ok <;> simp [hv]
  exact hloop values [] h

/-- When `compare` gives the order of the values: of integers and decimals if both are inline integers, or the values are equal, or
they are not rounded to one double; of inline floats if they are not the two zeros; of date-times always. -/
theorem compare_exact_iff (hX : X.Lawful) (hT : T.Lawful X) (hd : Dictionary.Valid X d) (ha : d.lookup X (.literal la) = some a)
    (hb : d.lookup X (.literal lb) = some b) :
    (∀ qa qb, Numeric la qa → Numeric lb qb → (compare X T (d.decode X) a b = .ok (some (Ord.compare qa qb)) ↔
      (a.tag = .integer ∧ b.tag = .integer) ∨ qa = qb ∨ F64.round qa ≠ F64.round qb)) ∧
    (∀ x y, a.tag = .float → b.tag = .float → X.parseFloat la.value = some x → X.parseFloat lb.value = some y →
      (compare X T (d.decode X) a b = .ok (compareFloats x y) ↔ ¬Zeros x y)) ∧
    (∀ dt dt', la.datatype = Xsd.dateTime → lb.datatype = Xsd.dateTime → X.parseDateTime la.value = some dt →
      X.parseDateTime lb.value = some dt' → compare X T (d.decode X) a b = .ok (T.compareDateTimes dt dt')) :=
  ⟨fun _ _ hqa hqb => compare_numeric hX hd ha hb hqa hqb, fun _ _ hta htb hx hy => compare_floats ha hb hta htb hx hy,
    fun _ _ hla hlb hdt hdt' => compare_instants hX hT hd ha hb hla hlb hdt hdt'⟩

end

/-- No dates and times. -/
def timeless : Temporal := ⟨fun _ _ => none, fun _ _ => none, fun _ _ => none⟩

theorem timeless_lawful : timeless.Lawful zeros := by
  intro v v' dt dt' s s' h
  cases h.parsed

/-- An inline integer and a decimal in the dictionary. -/
theorem compare_exact_iff_mixed : ∃ (d : Dictionary) (a b : TermId), d.lookup zeros (.literal (.newTyped "5" Xsd.integer)) = some a ∧
    d.lookup zeros (.literal (.newTyped "5.5" (Vocab.xsd "decimal"))) = some b ∧
    compare zeros timeless (d.decode zeros) a b = .ok (some .lt) := by
  have hsome : (Dictionary.run zeros .new [.encode (.literal (.newTyped "5" Xsd.integer)),
      .encode (.literal (.newTyped "5.5" (Vocab.xsd "decimal")))]).isSome = true := by decide +kernel
  obtain ⟨⟨replies, d⟩, hrun⟩ := Option.isSome_iff_exists.1 hsome
  obtain ⟨a, ha⟩ := Dictionary.run_encoded hrun (.literal (.newTyped "5" Xsd.integer)) (by simp [Dictionary.encoded, Dictionary.parts])
  obtain ⟨b, hb⟩ := Dictionary.run_encoded hrun (.literal (.newTyped "5.5" (Vocab.xsd "decimal"))) (by simp [Dictionary.encoded, Dictionary.parts])
  have hqa : Numeric (.newTyped "5" Xsd.integer) 5 := ⟨.inl (by decide), by decide +kernel⟩
  have hqb : Numeric (.newTyped "5.5" (Vocab.xsd "decimal")) (11 / 2) := ⟨.inr (by decide), by decide +kernel⟩
  obtain ⟨hnumeric, -, -⟩ := compare_exact_iff zeros_lawful timeless_lawful (Dictionary.run_valid zeros_lawful hrun) ha hb
  have hlt : Ord.compare (5 : ℚ) (11 / 2) = .lt := by decide +kernel
  have hapart : F64.round 5 ≠ F64.round (11 / 2) := by decide +kernel
  refine ⟨d, a, b, ha, hb, ?_⟩
  rw [← hlt]
  exact (hnumeric 5 (11 / 2) hqa hqb).2 (.inr (.inr hapart))

/-- The ids of two literals that are the first of a dictionary, compared. -/
def comparison (la lb : Literal) : Option (Except StorageError (Option Ordering)) := do
  let (_, d) ← Dictionary.run zeros .new [.encode (.literal la), .encode (.literal lb)]
  let a ← d.lookup zeros (.literal la)
  let b ← d.lookup zeros (.literal lb)
  return compare zeros timeless (d.decode zeros) a b

/-- Two integers that one double stands for are in order if they are inline, and equal in the dictionary; and of the zeros one is
below the other. -/
theorem compare_depends_on_storage :
    decimalValue "9007199254740992" = some 9007199254740992 ∧ decimalValue "9007199254740993" = some 9007199254740993 ∧
    comparison (.newTyped "9007199254740992" Xsd.integer) (.newTyped "9007199254740993" Xsd.integer) = some (.ok (some .lt)) ∧
    comparison (.newTyped "9007199254740992" (Vocab.xsd "long")) (.newTyped "9007199254740993" (Vocab.xsd "long")) = some (.ok (some .eq)) ∧
    compareFloats negZero posZero = some .eq ∧
    comparison (.newTyped "-0" Xsd.float) (.newTyped "0" Xsd.float) = some (.ok (some .lt)) := by
  decide +kernel

end Validator

end Holos.Shacl
