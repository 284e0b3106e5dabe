import Holos.Engine.Range
import Holos.InlineOrder
/-!
# What the spans of a comparison admit

The evaluator compares values and a span cuts ids. `Evaluator` is what the SPARQL evaluator
makes of terms: integers, floats and date-times are taken apart as `oxsdatatypes` does it,
decimals and doubles and everything else are left to it. A term whose comparison holds then has
an id in one of the spans, with one exception: the two zeros of floats are equal and have two
ids, so an inclusive comparison with one of them cuts the other off.
-/

namespace Holos.Engine.Range

open Sparql
open Inline (parseI64 flipSign compareFloats posZero negZero)

/-! ## The evaluator -/

/-- A value: a number, a date-time, or something that compares with neither. -/
inductive Value (ν ω : Type) where
  | integer (n : Int)
  | float (bits : Fin (2 ^ 32))
  | number (n : ν)
  | dateTime (dt : Inline.DateTime)
  | other (o : ω)

/-- The evaluator: the value of a term, and what it does with values that are no integers, floats
or date-times. -/
structure Evaluator where
  Number : Type
  Other : Type
  value : Term → Option (Value Number Other)
  negateNumber : Number → Option Number
  compareNumbers : Value Number Other → Value Number Other → Option Ordering
  compareDateTimes : Inline.DateTime → Inline.DateTime → Option Ordering
  compareOthers : Other → Other → Option Ordering

namespace Evaluator

variable (E : Evaluator)

/-- Unary plus is defined on numbers. -/
def plus : Value E.Number E.Other → Option (Value E.Number E.Other)
  | .integer n => some (.integer n)
  | .float bits => some (.float bits)
  | .number n => some (.number n)
  | _ => none

/-- Unary minus is defined on numbers; an integer is of 64 bits. -/
def minus : Value E.Number E.Other → Option (Value E.Number E.Other)
  | .integer n => if -2 ^ 63 < n then some (.integer (-n)) else none
  | .float bits => some (.float (flipSign bits))
  | .number n => (E.negateNumber n).map .number
  | _ => none

/-- The comparison of two values, if they compare. -/
def compare : Value E.Number E.Other → Value E.Number E.Other → Option Ordering
  | .integer a, .integer b => some (Ord.compare a b)
  | .float a, .float b => compareFloats a b
  | .dateTime a, .dateTime b => E.compareDateTimes a b
  | .other a, .other b => E.compareOthers a b
  | .dateTime _, _ | _, .dateTime _ | .other _, _ | _, .other _ => none
  | a, b => E.compareNumbers a b

/-- The value of a literal under signs. -/
def constantValue : Expression → Option (Value E.Number E.Other)
  | .literal l => E.value (.literal l)
  | .unary .plus e => (constantValue e).bind E.plus
  | .unary .minus e => (constantValue e).bind E.minus
  | _ => none

/-- The value of an operand, with one variable bound. -/
def operand (v : Variable) (t : Term) : Expression → Option (Value E.Number E.Other)
  | .var w => if w = v then E.value t else none
  | e => E.constantValue e

end Evaluator

/-- Whether a comparison is of an order. -/
def Bound.admits : Bound → Ordering → Bool
  | .greater, .gt => true
  | .greaterOrEqual, .gt | .greaterOrEqual, .eq => true
  | .less, .lt => true
  | .lessOrEqual, .lt | .lessOrEqual, .eq => true
  | _, _ => false

/-- Whether a comparison is true with the variable bound to a term. -/
def Evaluator.isTrue (E : Evaluator) (v : Variable) (t : Term) : Expression → Bool
  | .binary op left right =>
    match boundOf op, E.operand v t left, E.operand v t right with
    | some bound, some a, some b => (E.compare a b).any bound.admits
    | _, _, _ => false
  | _ => false

/-- How literals are read: integers, floats and date-times by their parsers, of which the float's
puts a sign in front of what has none. Date-times that are UTC instants of whole seconds compare
as their parts do, and from the other end the other way round. -/
structure Evaluator.Lawful (E : Evaluator) (X : Inline.Datatypes) : Prop where
  integer : ∀ s, E.value (.literal (.newTyped s Xsd.integer)) = (parseI64 s).map .integer
  float : ∀ s, E.value (.literal (.newTyped s Xsd.float)) = (X.parseFloat s).map .float
  dateTime : ∀ s, E.value (.literal (.newTyped s Xsd.dateTime)) = (X.parseDateTime s).map .dateTime
  small : ∀ (l : Literal) v, l.datatype = Xsd.string ∨ l.datatype = Xsd.boolean → E.value (.literal l) = some v → ∃ o, v = .other o
  term : ∀ t v, (∀ l, t ≠ .literal l) → E.value t = some v → ∃ o, v = .other o
  sign : ∀ cs bits bits', X.parseFloat (String.ofList cs) = some bits → X.parseFloat (String.ofList ('-' :: cs)) = some bits' →
    bits' = flipSign bits
  oneSign : ∀ cs, X.parseFloat (String.ofList ('-' :: '-' :: cs)) = none
  instant : ∀ {v v' dt dt' s s'}, Inline.Whole X v dt s → Inline.Whole X v' dt' s' → E.compareDateTimes dt dt' =
    some (if dt.parts s < dt'.parts s' then .lt else if dt'.parts s' < dt.parts s then .gt else .eq)

/-- How a store finds literals: an inline one by its own id, any other in the dictionary. -/
def Reads (X : Inline.Datatypes) (lookup : Term → Option TermId) : Prop :=
  ∀ l id, lookup (.literal l) = some id → Inline.encodeLiteral X l = some id ∨ (Inline.encodeLiteral X l = none ∧ id.tag = .literal)

theorem dictionary_reads (X : Inline.Datatypes) (d : Dictionary) : Reads X (d.lookup X) := by
  intro l id h
  unfold Dictionary.lookup at h
  cases hl : Inline.encodeLiteral X l with
  | some i =>
    rw [hl] at h
    exact .inl h
  | none =>
    rw [hl] at h
    obtain ⟨i, -, hi⟩ := Option.bind_eq_some_iff.1 h
    exact .inr ⟨rfl, (TermId.checked_eq_some hi).1⟩

/-- A term that is the object of a stored quad, under its id. -/
def Stored (store : Store) (t : Term) (id : TermId) : Prop := store.lookupTerm t = some id ∧ ∃ q ∈ store.quads, q.object = id

/-! ## Ids in spans -/

theorem bits_of_tag_iff {id : TermId} {t : Tag} (hr : t ≠ .reserved) : id.tag = t ↔ id.val / 2 ^ 60 = t.bits := by
  refine ⟨fun h => bits_of_tag h hr, fun h => ?_⟩
  simp only [TermId.tag, h, Tag.fromBits_bits]

theorem val_eq {id : TermId} {t : Tag} (hr : t ≠ .reserved) (h : id.tag = t) : id.val = t.bits * 2 ^ 60 + id.payload := by
  have := bits_of_tag h hr
  simp only [TermId.payload]
  omega

theorem wholeTag_contains {id : TermId} {t : Tag} (hr : t ≠ .reserved) (h : id.tag = t) : (IdRange.wholeTag t).contains id = true := by
  have hval := val_eq hr h
  have hle := id.payload_le
  rw [IdRange.contains_iff]
  simp only [IdRange.wholeTag, Fin.le_def, TermId.new]
  omega

/-- Which side of the pivot a comparison keeps. -/
def Bound.keeps (pivot payload : Nat) : Bound → Prop
  | .greater => pivot < payload
  | .greaterOrEqual => pivot ≤ payload
  | .less => payload < pivot
  | .lessOrEqual => payload ≤ pivot

theorem orderedSpan_contains_iff {ordered : Tag} {pivot id : TermId} {bound : Bound} {span : IdRange} (hr : ordered ≠ .reserved)
    (hp : pivot.tag = ordered) (h : orderedSpan ordered pivot bound = some span) :
    span.contains id = true ↔ id.tag = ordered ∧ bound.keeps pivot.payload id.payload := by
  have hpivot := val_eq hr hp
  have htag : span.contains id = true → id.tag = ordered := tag_of_mem_orderedSpan hr hp h
  suffices hside : id.tag = ordered → (span.contains id = true ↔ bound.keeps pivot.payload id.payload) by
    exact ⟨fun hc => ⟨htag hc, (hside (htag hc)).1 hc⟩, fun hc => (hside hc.1).2 hc.2⟩
  intro hid
  have hval := val_eq hr hid
  have hle := id.payload_le
  have hple := pivot.payload_le
  rw [IdRange.contains_iff]
  cases bound with
  | greater =>
    obtain ⟨first, hfirst, rfl⟩ := Option.map_eq_some_iff.1 h
    unfold nextUp at hfirst
    split at hfirst
    · cases hfirst
      simp only [Fin.le_def, TermId.new, hp, Bound.keeps]
      omega
    · cases hfirst
  | greaterOrEqual =>
    cases h
    simp only [Fin.le_def, TermId.new, Bound.keeps]
    omega
  | less =>
    obtain ⟨last, hlast, rfl⟩ := Option.map_eq_some_iff.1 h
    unfold nextDown at hlast
    split at hlast
    · cases hlast
    · cases hlast
      simp only [Fin.le_def, TermId.new, hp, Bound.keeps]
      omega
  | lessOrEqual =>
    cases h
    simp only [Fin.le_def, TermId.new, Bound.keeps]
    omega

/-! ## The constant -/

/-- The text of a number with its sign flipped. -/
def flipped : List Char → List Char
  | '-' :: positive => positive
  | text => '-' :: text

theorem newTyped_value (s : String) (d : NamedNode) : (Literal.newTyped s d).value = s := by
  unfold Literal.newTyped
  split <;> rfl

theorem newTyped_datatype (s : String) (d : NamedNode) : (Literal.newTyped s d).datatype = d := by
  unfold Literal.newTyped
  split
  · rename_i h
    exact h.symm
  · rfl

theorem flipped_of_ne {cs : List Char} (h : ∀ ds, cs ≠ '-' :: ds) : flipped cs = '-' :: cs := by
  unfold flipped
  split
  · exact absurd rfl (h _)
  · rfl

theorem negated_eq (l : Literal) : negated l =
    if l.datatype = Xsd.integer ∨ l.datatype = Xsd.float then some (.newTyped (String.ofList (flipped l.value.toList)) l.datatype)
    else none := by
  unfold negated
  split
  · split
    · rename_i ds heq
      rw [heq]
      rfl
    · rename_i hne
      rw [flipped_of_ne (fun ds heq => hne ds heq)]
  · rfl

theorem negated_some {l l' : Literal} (h : negated l = some l') : (l.datatype = Xsd.integer ∨ l.datatype = Xsd.float) ∧
    l' = .newTyped (String.ofList (flipped l.value.toList)) l.datatype := by
  rw [negated_eq] at h
  split_ifs at h with hd
  exact ⟨hd, (Option.some.inj h).symm⟩

theorem eq_newTyped {l : Literal} {d : NamedNode} (h : l.datatype = d) (hd : d = Xsd.integer ∨ d = Xsd.float ∨ d = Xsd.dateTime) :
    l = .newTyped l.value d := by
  have hlang : l.language = none := by
    cases l with
    | simple v | typed v d' hd' => rfl
    | languageTagged v l =>
      change rdfLangString = d at h
      rcases hd with rfl | rfl | rfl <;> exact absurd h (by decide)
    | directional v l d' =>
      change rdfDirLangString = d at h
      rcases hd with rfl | rfl | rfl <;> exact absurd h (by decide)
  rw [← h, Literal.newTyped_value_datatype hlang]

theorem parseDigits_of_not_digit {c : Char} (h : c.isDigit = false) (cs : List Char) : Inline.parseDigits (c :: cs) = none := by
  simp [Inline.parseDigits, h]

/-- A number that is read from a text with a sign in front, or with none. -/
theorem parseI64_minus {cs : List Char} {n : Int} (h : parseI64 (String.ofList ('-' :: cs)) = some n) :
    (∀ ds, cs ≠ '-' :: ds) ∧ ∀ m, parseI64 (String.ofList cs) = some m → n = -m := by
  simp only [parseI64, String.toList_ofList] at h
  obtain ⟨k, hk, hn⟩ := Option.bind_eq_some_iff.1 h
  have hnosign : ∀ c ds, cs = c :: ds → c.isDigit = true := by
    rintro c ds rfl
    by_contra hc
    rw [parseDigits_of_not_digit (by simpa using hc)] at hk
    cases hk
  refine ⟨?_, fun m hm => ?_⟩
  · rintro ds rfl
    exact absurd (hnosign '-' ds rfl) (by decide)
  · simp only [parseI64, String.toList_ofList] at hm
    split at hm
    · exact absurd (hnosign '-' _ rfl) (by decide)
    · exact absurd (hnosign '+' _ rfl) (by decide)
    · rw [hk, Option.bind_some] at hm
      split at hn <;> cases hn
      split at hm <;> cases hm
      rfl

/-- A text that reads as an integer is its own with the sign flipped twice, and once it reads as
the negative or not at all. -/
theorem parseI64_flipped {cs : List Char} {n : Int} (h : parseI64 (String.ofList cs) = some n) :
    flipped (flipped cs) = cs ∧ ∀ m, parseI64 (String.ofList (flipped cs)) = some m → m = -n := by
  by_cases hminus : ∃ ds, cs = '-' :: ds
  · obtain ⟨ds, rfl⟩ := hminus
    obtain ⟨hnosign, hneg⟩ := parseI64_minus h
    refine ⟨flipped_of_ne hnosign, fun m hm => ?_⟩
    rw [hneg m hm, neg_neg]
  · rw [flipped_of_ne (fun ds heq => hminus ⟨ds, heq⟩)]
    exact ⟨rfl, fun m hm => (parseI64_minus hm).2 n h⟩

variable {E : Evaluator} {X : Inline.Datatypes}

theorem parseFloat_flipped (hE : E.Lawful X) {cs : List Char} {b : Fin (2 ^ 32)} (h : X.parseFloat (String.ofList cs) = some b) :
    flipped (flipped cs) = cs ∧ ∀ b', X.parseFloat (String.ofList (flipped cs)) = some b' → b' = flipSign b := by
  by_cases hminus : ∃ ds, cs = '-' :: ds
  · obtain ⟨ds, rfl⟩ := hminus
    refine ⟨flipped_of_ne (fun ds' heq => ?_), fun b' hb' => ?_⟩
    · rw [show ds = '-' :: ds' from heq, hE.oneSign] at h
      cases h
    · rw [hE.sign ds b' b hb' h, Inline.flipSign_flipSign]
  · rw [flipped_of_ne (fun ds heq => hminus ⟨ds, heq⟩)]
    exact ⟨rfl, fun b' hb' => hE.sign cs b b' h hb'⟩

/-- The literal a constant is read as, under an even number of signs that count or an odd one. -/
theorem constant_spec (hE : E.Lawful X) {e : Expression} {l : Literal} {k : Value E.Number E.Other} (hc : constant e = some l)
    (hk : E.constantValue e = some k) : ∃ l₀ k₀, E.value (.literal l₀) = some k₀ ∧
      ((l = l₀ ∧ k = k₀) ∨ (negated l₀ = some l ∧ E.minus k₀ = some k)) := by
  induction e using constant.induct generalizing l k with
  | case1 l' =>
    cases hc
    exact ⟨l', k, hk, .inl ⟨rfl, rfl⟩⟩
  | case2 inner ih =>
    obtain ⟨k', hk', hplus⟩ := Option.bind_eq_some_iff.1 hk
    have : k' = k := by
      cases k' <;> simp [Evaluator.plus] at hplus <;> exact hplus
    exact ih hc (this ▸ hk')
  | case3 inner ih =>
    obtain ⟨l', hl', hneg⟩ := Option.bind_eq_some_iff.1 hc
    obtain ⟨k', hk', hminus⟩ := Option.bind_eq_some_iff.1 hk
    obtain ⟨l₀, k₀, hvalue, ⟨rfl, rfl⟩ | ⟨hneg₀, hminus₀⟩⟩ := ih hl' hk'
    · exact ⟨_, _, hvalue, .inr ⟨hneg, hminus⟩⟩
    · -- two signs are none
      refine ⟨l₀, k₀, hvalue, .inl ?_⟩
      obtain ⟨hd, rfl⟩ := negated_some hneg₀
      obtain ⟨-, rfl⟩ := negated_some hneg
      simp only [newTyped_datatype, newTyped_value, String.toList_ofList]
      rcases hd with hd | hd
      · have hl₀ := eq_newTyped hd (.inl rfl)
        rw [hl₀, hE.integer] at hvalue
        obtain ⟨n, hn, rfl⟩ := Option.map_eq_some_iff.1 hvalue
        obtain ⟨htwice, -⟩ := @parseI64_flipped l₀.value.toList n (by rw [String.ofList_toList]; exact hn)
        rw [htwice, String.ofList_toList, hd]
        refine ⟨hl₀.symm, ?_⟩
        simp only [Evaluator.minus] at hminus₀
        split at hminus₀ <;> cases hminus₀
        simp only [Evaluator.minus, neg_neg] at hminus
        split at hminus <;> cases hminus
        rfl
      · have hl₀ := eq_newTyped hd (.inr (.inl rfl))
        rw [hl₀, hE.float] at hvalue
        obtain ⟨b, hb, rfl⟩ := Option.map_eq_some_iff.1 hvalue
        obtain ⟨htwice, -⟩ := @parseFloat_flipped _ _ hE l₀.value.toList b (by rw [String.ofList_toList]; exact hb)
        rw [htwice, String.ofList_toList, hd]
        refine ⟨hl₀.symm, ?_⟩
        cases hminus₀
        cases hminus
        rw [Inline.flipSign_flipSign]
  | case4 e hliteral hplus hminus =>
    unfold constant at hc
    split at hc
    · exact absurd rfl (hliteral _)
    · exact absurd rfl (hplus _)
    · exact absurd rfl (hminus _)
    · cases hc

/-- The value of a constant is that of the literal it is read as, if that has one of its own. -/
theorem constant_value (hE : E.Lawful X) {e : Expression} {l : Literal} {k v : Value E.Number E.Other} (hc : constant e = some l)
    (hk : E.constantValue e = some k) (hv : E.value (.literal l) = some v) : v = k := by
  obtain ⟨l₀, k₀, hvalue, ⟨rfl, rfl⟩ | ⟨hneg, hminus⟩⟩ := constant_spec hE hc hk
  · exact Option.some.inj (hv.symm.trans hvalue)
  · obtain ⟨hd, rfl⟩ := negated_some hneg
    rcases hd with hd | hd
    · rw [eq_newTyped hd (.inl rfl), hE.integer] at hvalue
      obtain ⟨n, hn, rfl⟩ := Option.map_eq_some_iff.1 hvalue
      rw [hd, hE.integer] at hv
      obtain ⟨m, hm, rfl⟩ := Option.map_eq_some_iff.1 hv
      obtain ⟨-, hneg⟩ := @parseI64_flipped l₀.value.toList n (by rw [String.ofList_toList]; exact hn)
      simp only [Evaluator.minus] at hminus
      split at hminus <;> cases hminus
      rw [hneg m hm]
    · rw [eq_newTyped hd (.inr (.inl rfl)), hE.float] at hvalue
      obtain ⟨b, hb, rfl⟩ := Option.map_eq_some_iff.1 hvalue
      rw [hd, hE.float] at hv
      obtain ⟨b', hb', rfl⟩ := Option.map_eq_some_iff.1 hv
      obtain ⟨-, hflip⟩ := @parseFloat_flipped _ _ hE l₀.value.toList b (by rw [String.ofList_toList]; exact hb)
      cases hminus
      rw [hflip b' hb']

/-! ## Truth -/

theorem flipped_flipped (bound : Bound) : bound.flipped.flipped = bound := by cases bound <;> rfl

theorem admits_swap (bound : Bound) (o : Ordering) : bound.flipped.admits o.swap = bound.admits o := by
  cases bound <;> cases o <;> rfl

/-- The operand of a comparison that is not its variable. -/
def constantSide : Expression → Expression
  | .binary _ (.var _) other => other
  | .binary _ other _ => other
  | e => e

theorem comparison_cases {e : Expression} {c : Comparison} (hc : comparison e = some c) :
    ∃ op bound other, boundOf op = some bound ∧ constant other = some c.value ∧ constantSide e = other ∧
      ((e = .binary op (.var c.var) other ∧ c.bound = bound) ∨ (e = .binary op other (.var c.var) ∧ c.bound = bound.flipped)) := by
  unfold comparison at hc
  split at hc
  · rename_i op left right
    obtain ⟨bound, hbound, hc⟩ := Option.bind_eq_some_iff.1 hc
    split at hc
    · obtain ⟨value, hvalue, heq⟩ := Option.bind_eq_some_iff.1 hc
      cases heq
      exact ⟨op, bound, _, hbound, hvalue, rfl, .inl ⟨rfl, rfl⟩⟩
    · obtain ⟨value, hvalue, heq⟩ := Option.bind_eq_some_iff.1 hc
      cases heq
      refine ⟨op, bound, left, hbound, hvalue, ?_, .inr ⟨rfl, rfl⟩⟩
      unfold constantSide
      split
      · rename_i heq
        cases heq
        cases hvalue
      · rename_i heq
        cases heq
        rfl
      · rename_i hne
        exact absurd rfl (hne _ _ _)
    · cases hc
  · cases hc

theorem operand_constant {v : Variable} {t : Term} {other : Expression} {l : Literal} (h : constant other = some l) :
    E.operand v t other = E.constantValue other := by
  unfold Evaluator.operand
  split
  · cases h
  · rfl

theorem operand_var (v : Variable) (t : Term) : E.operand v t (.var v) = E.value t := if_pos rfl

/-- The values of a comparison, each compared with the other from one side or both. -/
structure Compares (E : Evaluator) (e : Expression) (c : Comparison) (t : Term) (a k : Value E.Number E.Other) : Prop where
  constant : constant (constantSide e) = some c.value
  evaluates : E.constantValue (constantSide e) = some k
  value : E.value t = some a
  order : (E.compare a k).any c.bound.admits = true ∨ (E.compare k a).any c.bound.flipped.admits = true

/-- A comparison that is true compares the variable's value with the constant's. -/
theorem isTrue_compares {e : Expression} {c : Comparison} {t : Term} (hc : comparison e = some c) (h : E.isTrue c.var t e = true) :
    ∃ a k, Compares E e c t a k := by
  obtain ⟨op, bound, other, hbound, hother, hside, ⟨rfl, heq⟩ | ⟨rfl, heq⟩⟩ := comparison_cases hc
  · simp only [Evaluator.isTrue, hbound, operand_var, operand_constant hother] at h
    split at h
    · rename_i b a k hb ha hk
      cases hb
      exact ⟨a, k, by rw [hside]; exact hother, by rw [hside]; exact hk, ha, .inl (heq ▸ h)⟩
    · cases h
  · simp only [Evaluator.isTrue, hbound, operand_var, operand_constant hother] at h
    split at h
    · rename_i b k a hb hk ha
      cases hb
      exact ⟨a, k, by rw [hside]; exact hother, by rw [hside]; exact hk, ha, .inr (by rw [heq, flipped_flipped]; exact h)⟩
    · cases h

/-- Values that compare alike from both sides make a comparison true. -/
theorem isTrue_of {e : Expression} {c : Comparison} {t : Term} {a k : Value E.Number E.Other} (hc : comparison e = some c)
    (hk : E.constantValue (constantSide e) = some k) (ha : E.value t = some a)
    (h : (E.compare a k).any c.bound.admits = true) (h' : (E.compare k a).any c.bound.flipped.admits = true) :
    E.isTrue c.var t e = true := by
  obtain ⟨op, bound, other, hbound, hother, hside, ⟨rfl, heq⟩ | ⟨rfl, heq⟩⟩ := comparison_cases hc
  · simp only [Evaluator.isTrue, hbound, operand_var, operand_constant hother, hside ▸ hk, ha]
    exact heq ▸ h
  · simp only [Evaluator.isTrue, hbound, operand_var, operand_constant hother, hside ▸ hk, ha]
    rw [heq, flipped_flipped] at h'
    exact h'

/-! ## Values and payloads -/

/-- A comparison of two integers, floats or instants is the same from both ends. -/
theorem Compares.side {e : Expression} {c : Comparison} {t : Term} {a k : Value E.Number E.Other} (h : Compares E e c t a k)
    (hswap : E.compare k a = (E.compare a k).map Ordering.swap) : (E.compare a k).any c.bound.admits = true := by
  rcases h.order with h | h
  · exact h
  · rw [hswap] at h
    cases hcmp : E.compare a k with
    | none =>
      rw [hcmp] at h
      cases h
    | some o =>
      rw [hcmp, Option.map_some, Option.any_some, admits_swap] at h
      exact h

theorem compare_integers (a k : Int) : E.compare (.integer k) (.integer a) = (E.compare (.integer a) (.integer k)).map Ordering.swap := by
  simp only [Evaluator.compare, Option.map_some]
  rw [Std.OrientedOrd.eq_swap]

theorem compare_floats (a k : Fin (2 ^ 32)) : E.compare (.float k) (.float a) = (E.compare (.float a) (.float k)).map Ordering.swap := by
  simp only [Evaluator.compare, compareFloats, Bool.or_comm (Inline.isNan k)]
  split
  · rfl
  · rw [Option.map_some, Std.OrientedOrd.eq_swap]

/-- Which integers a comparison keeps. -/
theorem keeps_integers {bound : Bound} {a k : Int} : (some (Ord.compare a k)).any bound.admits = true ↔
    match bound with
    | .greater => k < a
    | .greaterOrEqual => k ≤ a
    | .less => a < k
    | .lessOrEqual => a ≤ k := by
  rw [Option.any_some]
  rcases lt_trichotomy a k with h | rfl | h
  · rw [compare_lt_iff_lt.2 h]
    cases bound <;> simp [Bound.admits] <;> omega
  · rw [compare_eq_iff_eq.2 rfl]
    cases bound <;> simp [Bound.admits]
  · rw [compare_gt_iff_gt.2 h]
    cases bound <;> simp [Bound.admits] <;> omega

theorem kept_integer {bound : Bound} {s s' : String} {id pivot : TermId} {a k : Int} (hid : Inline.encodeInteger s = some id)
    (hp : Inline.encodeInteger s' = some pivot) (ha : parseI64 s = some a) (hk : parseI64 s' = some k)
    (h : (some (Ord.compare a k)).any bound.admits = true) : bound.keeps pivot.payload id.payload := by
  obtain ⟨a', ha', -, hida⟩ := Inline.encodeInteger_payload hid
  obtain ⟨k', hk', -, hpk⟩ := Inline.encodeInteger_payload hp
  cases ha.symm.trans ha'
  cases hk.symm.trans hk'
  rw [keeps_integers] at h
  cases bound <;> simp only [Bound.keeps] at h ⊢ <;> omega

/-- The zero a comparison with the other zero cuts off. -/
def ZeroCut (bound : Bound) (a k : Fin (2 ^ 32)) : Prop :=
  (bound = .greaterOrEqual ∧ a = negZero ∧ k = posZero) ∨ (bound = .lessOrEqual ∧ a = posZero ∧ k = negZero)

theorem kept_float {bound : Bound} {s s' : String} {id pivot : TermId} {a k : Fin (2 ^ 32)} (hid : Inline.encodeFloat X s = some id)
    (hp : Inline.encodeFloat X s' = some pivot) (ha : X.parseFloat s = some a) (hk : X.parseFloat s' = some k) :
    ((compareFloats a k).any bound.admits = true → ZeroCut bound a k ∨ bound.keeps pivot.payload id.payload) ∧
      (ZeroCut bound a k → (compareFloats a k).any bound.admits = true ∧ (compareFloats k a).any bound.flipped.admits = true ∧
        ¬bound.keeps pivot.payload id.payload) := by
  obtain ⟨a', ha', hnan, -, hida⟩ := Inline.encodeFloat_payload hid
  obtain ⟨k', hk', hnan', -, hpk⟩ := Inline.encodeFloat_payload hp
  cases ha.symm.trans ha'
  cases hk.symm.trans hk'
  have hlt := Inline.orderPreservingF32_lt_iff a k
  have hgt := Inline.orderPreservingF32_lt_iff k a
  refine ⟨fun h => ?_, ?_⟩
  · simp only [compareFloats, hnan, hnan', Bool.or_self, Bool.false_eq_true, if_false] at h
    rw [keeps_integers] at h
    unfold ZeroCut
    cases bound <;> simp only [Bound.keeps, hida, hpk] at h ⊢
    · exact .inr (hgt.2 (.inl h))
    · by_cases hz : a = negZero ∧ k = posZero
      · exact .inl (.inl ⟨by trivial, hz⟩)
      · refine .inr (Nat.le_of_not_lt (fun hlt' => ?_))
        rcases hlt.1 hlt' with h' | h'
        · omega
        · exact hz h'
    · exact .inr (hlt.2 (.inl h))
    · by_cases hz : a = posZero ∧ k = negZero
      · exact .inl (.inr ⟨by trivial, hz⟩)
      · refine .inr (Nat.le_of_not_lt (fun hlt' => ?_))
        rcases hgt.1 hlt' with h' | h'
        · omega
        · exact hz ⟨h'.2, h'.1⟩
  · rw [hida, hpk]
    rintro (⟨rfl, rfl, rfl⟩ | ⟨rfl, rfl, rfl⟩)
    · exact ⟨by decide, by decide, by unfold Bound.keeps; decide⟩
    · exact ⟨by decide, by decide, by unfold Bound.keeps; decide⟩

theorem kept_instant (hE : E.Lawful X) (hX : X.Lawful) {bound : Bound} {s s' : String} {id pivot : TermId} {a k : Inline.DateTime}
    (hid : Inline.encodeDateTime X s = some id) (hp : Inline.encodeDateTime X s' = some pivot) (ha : X.parseDateTime s = some a)
    (hk : X.parseDateTime s' = some k) :
    E.compare (.dateTime k) (.dateTime a) = (E.compare (.dateTime a) (.dateTime k)).map Ordering.swap ∧
      ((E.compare (.dateTime a) (.dateTime k)).any bound.admits = true → bound.keeps pivot.payload id.payload) := by
  obtain ⟨a', i, hwhole, -, hida⟩ := Inline.encodeDateTime_payload hid
  obtain ⟨k', j, hwhole', -, hpk⟩ := Inline.encodeDateTime_payload hp
  cases ha.symm.trans hwhole.parsed
  cases hk.symm.trans hwhole'.parsed
  have hlt := Inline.seconds_lt hX hwhole hwhole'
  have hgt := Inline.seconds_lt hX hwhole' hwhole
  simp only [Evaluator.compare, hE.instant hwhole hwhole', hE.instant hwhole' hwhole, Option.map_some, Option.any_some]
  rcases lt_trichotomy (a.parts i) (k.parts j) with h | h | h
  · have hsec := hlt h
    simp only [h, lt_asymm h, if_true, if_false]
    refine ⟨by trivial, fun hadm => ?_⟩
    cases bound <;> simp only [Bound.admits, Bound.keeps, Bool.false_eq_true] at hadm ⊢ <;> omega
  · have hsec := Inline.seconds_eq h
    simp only [h, lt_irrefl, if_false]
    refine ⟨by trivial, fun hadm => ?_⟩
    cases bound <;> simp only [Bound.admits, Bound.keeps, Bool.false_eq_true] at hadm ⊢ <;> omega
  · have hsec := hgt h
    simp only [h, lt_asymm h, if_true, if_false]
    refine ⟨by trivial, fun hadm => ?_⟩
    cases bound <;> simp only [Bound.admits, Bound.keeps, Bool.false_eq_true] at hadm ⊢ <;> omega

/-! ## The spans -/

variable {store : Store} {c : Comparison} {ss : List IdRange}

/-- What the spans of a comparison are made of. -/
structure Spans (store : Store) (c : Comparison) (ss : List IdRange) (ordered : Tag) (pivot : TermId) (span : IdRange) : Prop where
  tag : orderedTag c.value = some ordered
  lookup : store.lookupTerm (.literal c.value) = some pivot
  pivotTag : pivot.tag = ordered
  cut : orderedSpan ordered pivot c.bound = some span
  list : (span.isEmpty = true ∧ ss = companions ordered) ∨
    (span.isEmpty = false ∧ ss = (companions ordered ++ [span]).mergeSort (fun a b => a.first ≤ b.first))

theorem spans_cases (h : spans store c = some ss) : ∃ ordered pivot span, Spans store c ss ordered pivot span := by
  simp only [spans, Option.bind_eq_bind, Option.bind_eq_some_iff] at h
  obtain ⟨ordered, ho, pivot, hpivot, h⟩ := h
  split_ifs at h with hp
  simp only [Option.bind_eq_some_iff] at h
  obtain ⟨span, hspan, h⟩ := h
  refine ⟨ordered, pivot, span, ho, hpivot, not_not.1 hp, hspan, ?_⟩
  split_ifs at h with he
  · cases h
    exact .inl ⟨he, rfl⟩
  · cases h
    exact .inr ⟨by simpa using he, rfl⟩

namespace Spans

variable {ordered : Tag} {pivot : TermId} {span : IdRange}

theorem ordered_cases (h : Spans store c ss ordered pivot span) :
    (ordered = .integer ∧ c.value.datatype = Xsd.integer) ∨ (ordered = .float ∧ c.value.datatype = Xsd.float) ∨
      (ordered = .dateTime ∧ c.value.datatype = Xsd.dateTime) := by
  have ho := h.tag
  unfold orderedTag at ho
  split_ifs at ho with h₁ h₂ h₃ <;> cases ho
  · exact .inl ⟨rfl, h₁⟩
  · exact .inr (.inl ⟨rfl, h₂⟩)
  · exact .inr (.inr ⟨rfl, h₃⟩)

theorem ne_reserved (h : Spans store c ss ordered pivot span) : ordered ≠ .reserved := by
  rcases h.ordered_cases with ⟨rfl, -⟩ | ⟨rfl, -⟩ | ⟨rfl, -⟩ <;> decide

/-- An id is in the spans if its tag is a companion's, or if the ordered span has it. -/
theorem contains_iff (h : Spans store c ss ordered pivot span) (id : TermId) : (∃ s ∈ ss, s.contains id = true) ↔
    (∃ s ∈ companions ordered, s.contains id = true) ∨ (id.tag = ordered ∧ c.bound.keeps pivot.payload id.payload) := by
  rw [← orderedSpan_contains_iff h.ne_reserved h.pivotTag h.cut]
  rcases h.list with ⟨he, rfl⟩ | ⟨-, rfl⟩
  · refine ⟨.inl, ?_⟩
    rintro (hc | hc)
    · exact hc
    · -- an empty span has no id
      obtain ⟨h₁, h₂⟩ := IdRange.contains_iff.1 hc
      simp only [IdRange.isEmpty, decide_eq_true_eq] at he
      exact absurd (h₁.trans h₂) (not_le.2 he)
  · simp only [List.mem_mergeSort, List.mem_append, List.mem_singleton]
    constructor
    · rintro ⟨s, hs | rfl, hc⟩
      · exact .inl ⟨s, hs, hc⟩
      · exact .inr hc
    · rintro (⟨s, hs, hc⟩ | hc)
      · exact ⟨s, .inl hs, hc⟩
      · exact ⟨span, .inr rfl, hc⟩

/-- The spans ascend, and none reaches into the next. -/
theorem ascending (h : Spans store c ss ordered pivot span) (hapart : ss.Pairwise Apart) : ss.Pairwise (fun a b => a.last < b.first) := by
  have hcompanions : ∀ s ∈ companions ordered, s.first ≤ s.last := by
    rcases h.ordered_cases with ⟨rfl, -⟩ | ⟨rfl, -⟩ | ⟨rfl, -⟩ <;> decide
  have hnonempty : ∀ s ∈ ss, s.first ≤ s.last := by
    rcases h.list with ⟨-, rfl⟩ | ⟨he, rfl⟩
    · exact hcompanions
    · intro s hs
      rw [List.mem_mergeSort, List.mem_append, List.mem_singleton] at hs
      rcases hs with hs | rfl
      · exact hcompanions s hs
      · simpa [IdRange.isEmpty] using he
  have hsorted : ss.Pairwise (fun a b => a.first ≤ b.first) := by
    rcases h.list with ⟨-, rfl⟩ | ⟨-, rfl⟩
    · rcases h.ordered_cases with ⟨rfl, -⟩ | ⟨rfl, -⟩ | ⟨rfl, -⟩ <;> decide
    · have hsort := @List.pairwise_mergeSort IdRange (fun a b => decide (a.first ≤ b.first))
        (fun a b c hab hbc => by simp only [decide_eq_true_eq] at *; exact hab.trans hbc)
        (fun a b => by simpa using le_total a.first b.first) (companions ordered ++ [span])
      exact hsort.imp (fun hab => of_decide_eq_true hab)
  have hall := hsorted.and hapart
  refine hall.imp_of_mem (fun {a b} ha hb hab => ?_)
  by_contra hle
  exact hab.2 b.first ⟨IdRange.contains_iff.2 ⟨hab.1, not_lt.1 hle⟩, IdRange.contains_iff.2 ⟨le_rfl, hnonempty b hb⟩⟩

end Spans

/-! ## Nothing is cut off -/

theorem companions_contain_literal {ordered : Tag} {id : TermId} (h : id.tag = .literal) :
    ∃ s ∈ companions ordered, s.contains id = true := by
  refine ⟨IdRange.wholeTag .literal, ?_, wholeTag_contains (by decide) h⟩
  cases ordered <;> simp [companions]

/-- A literal with an inline id: its kind, its value and its id. -/
inductive InlineValue (X : Inline.Datatypes) (E : Evaluator) (l : Literal) (id : TermId) : Prop where
  | integer (n : Int) (hid : Inline.encodeInteger l.value = some id) (hn : parseI64 l.value = some n)
      (hd : l.datatype = Xsd.integer) (hv : E.value (.literal l) = some (.integer n)) (ht : id.tag = .integer)
  | float (bits : Fin (2 ^ 32)) (hid : Inline.encodeFloat X l.value = some id) (hb : X.parseFloat l.value = some bits)
      (hd : l.datatype = Xsd.float) (hv : E.value (.literal l) = some (.float bits)) (ht : id.tag = .float)
  | dateTime (dt : Inline.DateTime) (hid : Inline.encodeDateTime X l.value = some id) (hdt : X.parseDateTime l.value = some dt)
      (hd : l.datatype = Xsd.dateTime) (hv : E.value (.literal l) = some (.dateTime dt)) (ht : id.tag = .dateTime)
  | small (h : ∀ v, E.value (.literal l) = some v → ∃ o, v = .other o) (ht : id.tag = .small)

theorem inlineValue (hE : E.Lawful X) {l : Literal} {id : TermId} (h : Inline.encodeLiteral X l = some id) : InlineValue X E l id := by
  unfold Inline.encodeLiteral at h
  split_ifs at h with htag h₁ h₂ h₃ h₄ h₅
  · exact .small (fun v hv => hE.small l v (.inl h₁) hv) (Inline.decode_encodeSmallString h).1
  · obtain ⟨n, hn, ht, -⟩ := Inline.encodeInteger_payload h
    refine .integer n h hn h₂ ?_ ht
    rw [eq_newTyped h₂ (.inl rfl), hE.integer, hn, Option.map_some]
  · exact .small (fun v hv => hE.small l v (.inr h₃) hv) (Inline.decode_encodeBoolean h).1
  · obtain ⟨bits, hb, -, ht, -⟩ := Inline.encodeFloat_payload h
    refine .float bits h hb h₄ ?_ ht
    rw [eq_newTyped h₄ (.inr (.inl rfl)), hE.float, hb, Option.map_some]
  · obtain ⟨dt, s, hwhole, ht, -⟩ := Inline.encodeDateTime_payload h
    refine .dateTime dt h hwhole.parsed h₅ ?_ ht
    rw [eq_newTyped h₅ (.inr (.inr rfl)), hE.dateTime, hwhole.parsed, Option.map_some]

/-- The comparison includes one of the zeros, its constant has a value, and the term is the other
zero under an inline id. -/
structure CutsOff (X : Inline.Datatypes) (E : Evaluator) (e : Expression) (c : Comparison) (l : Literal) : Prop where
  isInline : (Inline.encodeLiteral X l).isSome = true
  zeros : ∃ a k, l.datatype = Xsd.float ∧ c.value.datatype = Xsd.float ∧ X.parseFloat l.value = some a ∧
    X.parseFloat c.value.value = some k ∧ ZeroCut c.bound a k
  evaluates : (E.constantValue (constantSide e)).isSome = true

variable {e : Expression} {l : Literal} {id : TermId}

theorem Spans.not_small {ordered : Tag} {pivot : TermId} {span : IdRange} (h : Spans store c ss ordered pivot span) :
    pivot.tag ≠ .small := by
  rw [h.pivotTag]
  rcases h.ordered_cases with ⟨rfl, -⟩ | ⟨rfl, -⟩ | ⟨rfl, -⟩ <;> decide

/-- The literal a comparison is with has an inline id of the tag that is cut. -/
theorem Spans.inlineConstant (hE : E.Lawful X) (hreads : Reads X store.lookupTerm) {ordered : Tag} {pivot : TermId} {span : IdRange}
    (h : Spans store c ss ordered pivot span) : InlineValue X E c.value pivot := by
  rcases hreads _ _ h.lookup with hin | ⟨-, ht⟩
  · exact inlineValue hE hin
  · rcases h.ordered_cases with ⟨rfl, -⟩ | ⟨rfl, -⟩ | ⟨rfl, -⟩ <;> exact absurd (ht.symm.trans h.pivotTag) (by decide)

/-- A term whose comparison is true is in a span, or cut off as a zero. -/
theorem isTrue_contained (hE : E.Lawful X) (hX : X.Lawful) (hreads : Reads X store.lookupTerm) (hc : comparison e = some c)
    {ordered : Tag} {pivot : TermId} {span : IdRange} (hs : Spans store c ss ordered pivot span) {t : Term}
    (hid : store.lookupTerm t = some id) (htrue : E.isTrue c.var t e = true) :
    (∃ s ∈ ss, s.contains id = true) ∨ ∃ l, t = .literal l ∧ CutsOff X E e c l := by
  obtain ⟨a, k, hcmp⟩ := isTrue_compares hc htrue
  have hother := hcmp.constant
  have hk := hcmp.evaluates
  have hconst := hs.inlineConstant hE hreads
  -- the constant is of the ordered tag's kind
  have hkind : (∀ o, k ≠ .other o) ∧ (∀ o, a ≠ .other o) := by
    have hk' : ∀ o, k ≠ .other o := by
      rintro o rfl
      cases hconst with
      | integer n _ _ _ hv => cases constant_value hE hother hk hv
      | float n _ _ _ hv => cases constant_value hE hother hk hv
      | dateTime n _ _ _ hv => cases constant_value hE hother hk hv
      | small _ ht => exact hs.not_small ht
    refine ⟨hk', ?_⟩
    rintro o rfl
    rcases hcmp.order with ho | ho
    · cases k <;> simp [Evaluator.compare] at ho
      exact hk' _ rfl
    · cases k <;> simp [Evaluator.compare] at ho
      exact hk' _ rfl
  obtain ⟨hk', ha'⟩ := hkind
  by_cases hlit : ∃ l, t = .literal l
  · obtain ⟨l, rfl⟩ := hlit
    rcases hreads l id hid with hin | ⟨-, ht⟩
    · cases inlineValue hE hin with
      | small h ht =>
        obtain ⟨o, rfl⟩ := h a hcmp.value
        exact absurd rfl (ha' o)
      | integer n hn hpn hd hv ht =>
        cases hcmp.value.symm.trans hv
        cases hconst with
        | small _ hp => exact absurd hp hs.not_small
        | integer m hm hpm _ hvm hp =>
          cases constant_value hE hother hk hvm
          have hord := hcmp.side (compare_integers n m)
          exact .inl ((hs.contains_iff id).2 (.inr ⟨ht.trans (hp.symm.trans hs.pivotTag), kept_integer hn hm hpn hpm hord⟩))
        | float b _ _ _ _ hp =>
          cases hp.symm.trans hs.pivotTag
          exact .inl ((hs.contains_iff id).2 (.inl ⟨_, List.mem_cons_of_mem _ List.mem_cons_self, wholeTag_contains (by decide) ht⟩))
        | dateTime dt _ _ _ hvm _ =>
          cases constant_value hE hother hk hvm
          rcases hcmp.order with ho | ho <;> cases ho
      | float bits hb hpb hd hv ht =>
        cases hcmp.value.symm.trans hv
        cases hconst with
        | small _ hp => exact absurd hp hs.not_small
        | integer m _ _ _ _ hp =>
          cases hp.symm.trans hs.pivotTag
          exact .inl ((hs.contains_iff id).2 (.inl ⟨_, List.mem_cons_of_mem _ List.mem_cons_self, wholeTag_contains (by decide) ht⟩))
        | float b hbid hpbid hdc hvm hp =>
          cases constant_value hE hother hk hvm
          have hord := hcmp.side (compare_floats bits b)
          rcases (kept_float hb hbid hpb hpbid).1 hord with hz | hkept
          · refine .inr ⟨l, rfl, ⟨by rw [hin]; rfl, ⟨bits, b, hd, hdc, hpb, hpbid, hz⟩, ?_⟩⟩
            rw [hk]
            rfl
          · exact .inl ((hs.contains_iff id).2 (.inr ⟨ht.trans (hp.symm.trans hs.pivotTag), hkept⟩))
        | dateTime dt _ _ _ hvm _ =>
          cases constant_value hE hother hk hvm
          rcases hcmp.order with ho | ho <;> cases ho
      | dateTime dt hdt hpd hd hv ht =>
        cases hcmp.value.symm.trans hv
        cases hconst with
        | small _ hp => exact absurd hp hs.not_small
        | integer m _ _ _ hvm _ =>
          cases constant_value hE hother hk hvm
          rcases hcmp.order with ho | ho <;> cases ho
        | float b _ _ _ hvm _ =>
          cases constant_value hE hother hk hvm
          rcases hcmp.order with ho | ho <;> cases ho
        | dateTime dt' hdt' hpd' _ hvm hp =>
          cases constant_value hE hother hk hvm
          obtain ⟨hswap, hkept⟩ := @kept_instant E X hE hX c.bound _ _ _ _ _ _ hdt hdt' hpd hpd'
          exact .inl ((hs.contains_iff id).2 (.inr ⟨ht.trans (hp.symm.trans hs.pivotTag), hkept (hcmp.side hswap)⟩))
    · exact .inl ((hs.contains_iff id).2 (.inl (companions_contain_literal ht)))
  · obtain ⟨o, rfl⟩ := hE.term t a (fun l heq => hlit ⟨l, heq⟩) hcmp.value
    exact absurd rfl (ha' o)

/-- A literal of a float that is inline has its id from the float encoder. -/
theorem InlineValue.ofFloat (h : InlineValue X E l id) (hE : E.Lawful X) (hd : l.datatype = Xsd.float) {bits : Fin (2 ^ 32)}
    (hb : X.parseFloat l.value = some bits) :
    E.value (.literal l) = some (.float bits) ∧ Inline.encodeFloat X l.value = some id ∧ id.tag = .float := by
  have hv : E.value (.literal l) = some (.float bits) := by
    rw [eq_newTyped hd (.inr (.inl rfl)), hE.float, hb, Option.map_some]
  cases h with
  | integer n _ _ hd' => exact absurd (hd.symm.trans hd') (by decide)
  | float bits hid _ _ _ ht => exact ⟨hv, hid, ht⟩
  | dateTime dt _ _ hd' => exact absurd (hd.symm.trans hd') (by decide)
  | small h _ =>
    obtain ⟨o, heq⟩ := h _ hv
    cases heq

/-- The zero that is cut off makes the comparison true and is in no span. -/
theorem cut_missed (hE : E.Lawful X) (hreads : Reads X store.lookupTerm) (hc : comparison e = some c)
    {ordered : Tag} {pivot : TermId} {span : IdRange} (hs : Spans store c ss ordered pivot span)
    (hid : store.lookupTerm (.literal l) = some id) (hcut : CutsOff X E e c l) :
    E.isTrue c.var (.literal l) e = true ∧ ¬∃ s ∈ ss, s.contains id = true := by
  obtain ⟨a, k, hd, hdc, ha, hk, hzero⟩ := hcut.zeros
  have hin : Inline.encodeLiteral X l = some id := by
    rcases hreads l id hid with hin | ⟨hnone, -⟩
    · exact hin
    · have := hcut.isInline
      rw [hnone] at this
      cases this
  obtain ⟨hvalue, hidFloat, htag⟩ := (inlineValue hE hin).ofFloat hE hd ha
  obtain ⟨hvalueConst, hpivotFloat, hpivotTag⟩ := (hs.inlineConstant hE hreads).ofFloat hE hdc hk
  obtain ⟨h₁, h₂, hkept⟩ := (@kept_float X c.bound _ _ _ _ _ _ hidFloat hpivotFloat ha hk).2 hzero
  obtain ⟨v, hv⟩ := Option.isSome_iff_exists.1 hcut.evaluates
  have hother : constant (constantSide e) = some c.value := by
    obtain ⟨-, -, other, -, hother, hside, -⟩ := comparison_cases hc
    rw [hside]
    exact hother
  cases constant_value hE hother hv hvalueConst
  refine ⟨isTrue_of hc hv hvalue h₁ h₂, ?_⟩
  rw [hs.contains_iff]
  rintro (⟨s, hmem, hcontains⟩ | ⟨-, hkeeps⟩)
  · -- the companions of floats are dictionary literals and integers
    cases hpivotTag.symm.trans hs.pivotTag
    simp only [companions, List.mem_cons, List.not_mem_nil, or_false] at hmem
    rcases hmem with rfl | rfl
    · exact absurd (htag.symm.trans (tag_of_mem_wholeTag (by decide) hcontains)) (by decide)
    · exact absurd (htag.symm.trans (tag_of_mem_wholeTag (by decide) hcontains)) (by decide)
  · exact hkept hkeeps

/-- The spans of a comparison ascend and are disjoint, and have the id of every stored term whose
comparison is true, unless it includes a zero and the other zero is stored. -/
theorem spans_sound_iff (hE : E.Lawful X) (hX : X.Lawful) (hreads : Reads X store.lookupTerm) (hc : comparison e = some c)
    (hs : spans store c = some ss) :
    ss.Pairwise (fun a b => a.last < b.first) ∧
      ((∀ t id, Stored store t id → E.isTrue c.var t e = true → ∃ s ∈ ss, s.contains id = true) ↔
        ¬∃ l id, Stored store (.literal l) id ∧ CutsOff X E e c l) := by
  obtain ⟨ordered, pivot, span, hspans⟩ := spans_cases hs
  refine ⟨hspans.ascending (spans_apart hs), ?_, ?_⟩
  · rintro hall ⟨l, id, hstored, hcut⟩
    obtain ⟨htrue, hmissed⟩ := cut_missed hE hreads hc hspans hstored.1 hcut
    exact hmissed (hall _ id hstored htrue)
  · intro hnone t id hstored htrue
    rcases isTrue_contained hE hX hreads hc hspans hstored.1 htrue with hin | ⟨l, rfl, hcut⟩
    · exact hin
    · exact absurd ⟨l, id, hstored, hcut⟩ hnone

/-! ## The zeros -/

/-- Floats of which only the zeros are read, and no date-times. -/
def zeros : Inline.Datatypes where
  parseFloat s := if s = "0" then some posZero else if s = "-0" then some negZero else none
  floatToString bits := if bits = posZero then "0" else if bits = negZero then "-0" else ""
  parseDateTime _ := none

theorem parse_zero_iff {cs : List Char} {bits : Fin (2 ^ 32)} : zeros.parseFloat (String.ofList cs) = some bits ↔
    (cs = ['0'] ∧ bits = posZero) ∨ (cs = ['-', '0'] ∧ bits = negZero) := by
  have h₀ : String.ofList cs = "0" ↔ cs = ['0'] := @String.ofList_inj cs ['0']
  have h₁ : String.ofList cs = "-0" ↔ cs = ['-', '0'] := @String.ofList_inj cs ['-', '0']
  simp only [zeros, h₀, h₁]
  by_cases hpos : cs = ['0']
  · simp [hpos, eq_comm]
  · by_cases hneg : cs = ['-', '0'] <;> simp [hpos, hneg, eq_comm]

theorem zeros_lawful : zeros.Lawful where
  written _ _ _ h := by cases h
  calendar _ _ _ h := by cases h

/-- The evaluator that knows integers and those floats. -/
def zerosEvaluator : Evaluator where
  Number := Empty
  Other := Unit
  value
    | .literal l =>
      if l.datatype = Xsd.integer then (parseI64 l.value).map .integer
      else if l.datatype = Xsd.float then (zeros.parseFloat l.value).map .float
      else if l.datatype = Xsd.dateTime then none
      else some (.other ())
    | _ => some (.other ())
  negateNumber n := some n
  compareNumbers _ _ := none
  compareDateTimes _ _ := none
  compareOthers _ _ := none

theorem zerosEvaluator_lawful : zerosEvaluator.Lawful zeros where
  integer s := by simp [zerosEvaluator, newTyped_datatype, newTyped_value]
  float s := by
    simp only [zerosEvaluator, newTyped_datatype, newTyped_value]
    rw [if_neg (by decide), if_pos trivial]
  dateTime s := by
    simp only [zerosEvaluator, newTyped_datatype, newTyped_value]
    rw [if_neg (by decide), if_neg (by decide), if_pos trivial]
    rfl
  small l v hl hv := by
    simp only [zerosEvaluator] at hv
    rcases hl with hl | hl <;> rw [hl, if_neg (by decide), if_neg (by decide), if_neg (by decide)] at hv <;> exact ⟨(), (Option.some.inj hv).symm⟩
  term t v ht hv := by
    cases t with
    | literal l => exact absurd rfl (ht l)
    | _ => exact ⟨(), (Option.some.inj hv).symm⟩
  sign cs bits bits' h h' := by
    rw [parse_zero_iff] at h h'
    rcases h with ⟨rfl, rfl⟩ | ⟨rfl, rfl⟩
    · rcases h' with ⟨heq, -⟩ | ⟨-, rfl⟩
      · cases heq
      · decide
    · rcases h' with ⟨heq, -⟩ | ⟨heq, -⟩ <;> cases heq
  oneSign cs := by
    rw [Option.eq_none_iff_forall_ne_some]
    intro bits h
    rcases parse_zero_iff.1 h with ⟨heq, -⟩ | ⟨heq, -⟩ <;> cases heq
  instant h _ := by cases h.parsed

/-- A store with a quad whose object is the negative zero. -/
def negZeroStore : Store :=
  .ofOps (Dictionary.new.lookup zeros) 0 [.insert ⟨0, 1, TermId.new .float (2 ^ 31 - 1) (by decide), none⟩]

/-- `?o >= 0.0`, of floats. -/
def atLeastZero : Expression := .binary .greaterOrEqual (.var (.named "o")) (.literal (.newTyped "0" Xsd.float))

theorem negZero_dropped : ∃ c ss id, comparison atLeastZero = some c ∧ spans negZeroStore c = some ss ∧
    Stored negZeroStore (.literal (.newTyped "-0" Xsd.float)) id ∧
    zerosEvaluator.isTrue c.var (.literal (.newTyped "-0" Xsd.float)) atLeastZero = true ∧
    ∀ s ∈ ss, s.contains id = false := by
  refine ⟨_, _, TermId.new .float (2 ^ 31 - 1) (by decide), rfl, rfl, ⟨by decide +kernel, ?_⟩, by decide +kernel, ?_⟩
  · exact ⟨_, Finset.mem_insert_self _ _, rfl⟩
  · intro s hs
    rw [List.mem_mergeSort] at hs
    revert s
    decide +kernel

/-- `?o > -(-0.0)`, of the same store. -/
theorem spans_sound_iff_zero : ∃ c ss, comparison (.binary .greater (.var (.named "o"))
      (.unary .minus (.literal (.newTyped "-0" Xsd.float)))) = some c ∧ spans negZeroStore c = some ss ∧
    ss.Pairwise (fun a b => a.last < b.first) := by
  obtain ⟨ss, hs⟩ : ∃ ss, spans negZeroStore ⟨.named "o", .greater, .newTyped "0" Xsd.float⟩ = some ss := ⟨_, rfl⟩
  refine ⟨_, ss, rfl, hs, ?_⟩
  exact (@spans_sound_iff zerosEvaluator zeros negZeroStore ⟨.named "o", .greater, .newTyped "0" Xsd.float⟩ ss
    (.binary .greater (.var (.named "o")) (.unary .minus (.literal (.newTyped "-0" Xsd.float))))
    zerosEvaluator_lawful zeros_lawful (dictionary_reads zeros .new) (by decide +kernel) hs).1

end Holos.Engine.Range
