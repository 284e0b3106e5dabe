import Holos.Engine.KeyOrder
import Holos.Engine.TopKTheorems
import Holos.Inline
/-!
# When sort keys are in order

The engine's order reads the same from both sides. Over keys of one datatype it is an order unless some
three of them are torn: `<` is defined between two, and the third, which it is not defined against, has
its text between theirs the other way round. Two date-times of which one has no timezone are such keys
as `<` may not be defined between; so are a value and a text that is no value of the datatype.
-/

namespace Holos.Engine.TopK

open Lib.Fallback
open Lib.Held (Consistent)

variable {X : XsdTypes}

/-- The types' comparisons are partial orders. -/
structure XsdTypes.Lawful (X : XsdTypes) : Prop where
  float : Known X.cmpFloat (fun _ => True)
  double : Known X.cmpDouble (fun _ => True)
  integer : Known X.cmpInteger (fun _ => True)
  decimal : Known X.cmpDecimal (fun _ => True)
  dateTime : Known X.cmpDateTime (fun _ => True)

/-! ## Strings -/

theorem string_consistent : Consistent (fun a b : String => compare a b) (fun _ => True) := compare_consistent

theorem string_swap (a b : String) : compare b a = (compare a b).swap := string_consistent.swap a b trivial trivial

theorem string_level (a b c : String) : Level (fun a b : String => compare a b) a b c :=
  (consistent_iff (fun a b _ _ => string_swap a b)).1 string_consistent a b c trivial trivial trivial

theorem string_eq {a b : String} : compare a b = .eq ↔ a = b := Std.LawfulEqCmp.compare_eq_iff_eq

theorem string_known : Known (fun a b : String => some (compare a b)) (fun _ => True) := known_of_consistent string_consistent

/-! ## Values -/

/-- Literals of one datatype and one language. -/
def Value.Alike (a b : Value X) : Prop := a.toLiteral.datatype = b.toLiteral.datatype ∧ a.toLiteral.language = b.toLiteral.language

theorem partialCmp_swap (hX : X.Lawful) (a b : Value X) : partialCmpLiterals b a = (partialCmpLiterals a b).map Ordering.swap := by
  have hfloat := fun a b => hX.float.swap a b trivial trivial
  have hdouble := fun a b => hX.double.swap a b trivial trivial
  have hinteger := fun a b => hX.integer.swap a b trivial trivial
  have hdecimal := fun a b => hX.decimal.swap a b trivial trivial
  have hdateTime := fun a b => hX.dateTime.swap a b trivial trivial
  cases a with
  | stringLiteral va =>
    cases b with
    | stringLiteral vb => exact string_known.swap va vb trivial trivial
    | _ => rfl
  | langStringLiteral va la =>
    cases b with
    | langStringLiteral vb lb =>
      simp only [partialCmpLiterals]
      by_cases h : la = lb
      · rw [if_pos h, if_pos h.symm, string_swap va vb, Option.map_some]
      · rw [if_neg h, if_neg (Ne.symm h), Option.map_none]
    | _ => rfl
  | dirLangStringLiteral va la da =>
    cases b with
    | dirLangStringLiteral vb lb db =>
      simp only [partialCmpLiterals]
      by_cases h : la = lb ∧ da = db
      · rw [if_pos h, if_pos ⟨h.1.symm, h.2.symm⟩, string_swap va vb, Option.map_some]
      · rw [if_neg h, if_neg (fun h' => h ⟨h'.1.symm, h'.2.symm⟩), Option.map_none]
    | _ => rfl
  | booleanLiteral va => cases b <;> rfl
  | otherTypedLiteral va da => cases b <;> rfl
  | dateTimeLiteral va =>
    cases b with
    | dateTimeLiteral vb => exact hdateTime va vb
    | _ => rfl
  | floatLiteral va =>
    cases b with
    | floatLiteral vb => exact hfloat va vb
    | doubleLiteral vb => exact hdouble _ vb
    | integerLiteral vb => exact hfloat va _
    | decimalLiteral vb => exact hfloat va _
    | _ => rfl
  | doubleLiteral va =>
    cases b with
    | floatLiteral vb => exact hdouble va _
    | doubleLiteral vb => exact hdouble va vb
    | integerLiteral vb => exact hdouble va _
    | decimalLiteral vb => exact hdouble va _
    | _ => rfl
  | integerLiteral va =>
    cases b with
    | floatLiteral vb => exact hfloat _ vb
    | doubleLiteral vb => exact hdouble _ vb
    | integerLiteral vb => exact hinteger va vb
    | decimalLiteral vb => exact hdecimal _ vb
    | _ => rfl
  | decimalLiteral va =>
    cases b with
    | floatLiteral vb => exact hfloat _ vb
    | doubleLiteral vb => exact hdouble _ vb
    | integerLiteral vb => exact hdecimal va _
    | decimalLiteral vb => exact hdecimal va vb
    | _ => rfl

/-- The pairs of values of one datatype that `<` is defined between: each with its own comparison. -/
inductive Comparable : Value X → Value X → Option Ordering → Prop where
  | strings (a b : String) : Comparable (.stringLiteral a) (.stringLiteral b) (some (compare a b))
  | langStrings (a b language : String) : Comparable (.langStringLiteral a language) (.langStringLiteral b language) (some (compare a b))
  | dirLangStrings (a b language : String) (direction : BaseDirection) :
      Comparable (.dirLangStringLiteral a language direction) (.dirLangStringLiteral b language direction) (some (compare a b))
  | floats (a b : X.Float) : Comparable (.floatLiteral a) (.floatLiteral b) (X.cmpFloat a b)
  | doubles (a b : X.Double) : Comparable (.doubleLiteral a) (.doubleLiteral b) (X.cmpDouble a b)
  | integers (a b : X.Integer) : Comparable (.integerLiteral a) (.integerLiteral b) (X.cmpInteger a b)
  | decimals (a b : X.Decimal) : Comparable (.decimalLiteral a) (.decimalLiteral b) (X.cmpDecimal a b)
  | dateTimes (a b : X.DateTime) : Comparable (.dateTimeLiteral a) (.dateTimeLiteral b) (X.cmpDateTime a b)

theorem newTyped_datatype (value : String) (datatype : NamedNode) : (Literal.newTyped value datatype).datatype = datatype := by
  unfold Literal.newTyped
  split
  · rename_i h
    exact h.symm
  · rfl

theorem newTyped_language (value : String) (datatype : NamedNode) : (Literal.newTyped value datatype).language = none := by
  unfold Literal.newTyped
  split <;> rfl

theorem datatype_ne {v v' : String} {d d' : NamedNode} (h : d ≠ d') : (Literal.newTyped v d).datatype ≠ (Literal.newTyped v' d').datatype := by
  rw [newTyped_datatype, newTyped_datatype]
  exact h

theorem comparable_of_alike {a b : Value X} {o : Ordering} (halike : a.Alike b) (h : partialCmpLiterals a b = some o) :
    Comparable a b (some o) := by
  obtain ⟨hdatatype, -⟩ := halike
  cases a with
  | stringLiteral va =>
    cases b with
    | stringLiteral vb => exact h ▸ .strings va vb
    | _ => cases h
  | langStringLiteral va la =>
    cases b with
    | langStringLiteral vb lb =>
      simp only [partialCmpLiterals] at h
      split at h
      · rename_i heq
        subst heq
        exact h ▸ .langStrings va vb la
      · cases h
    | _ => cases h
  | dirLangStringLiteral va la da =>
    cases b with
    | dirLangStringLiteral vb lb db =>
      simp only [partialCmpLiterals] at h
      split at h
      · rename_i heq
        obtain ⟨rfl, rfl⟩ := heq
        exact h ▸ .dirLangStrings va vb la da
      · cases h
    | _ => cases h
  | booleanLiteral va => cases b <;> cases h
  | otherTypedLiteral va da => cases b <;> cases h
  | dateTimeLiteral va =>
    cases b with
    | dateTimeLiteral vb => exact h ▸ Comparable.dateTimes va vb
    | _ => cases h
  | floatLiteral va =>
    cases b with
    | floatLiteral vb => exact h ▸ Comparable.floats va vb
    | doubleLiteral vb | integerLiteral vb | decimalLiteral vb => exact absurd hdatatype (datatype_ne (by decide))
    | _ => cases h
  | doubleLiteral va =>
    cases b with
    | doubleLiteral vb => exact h ▸ Comparable.doubles va vb
    | floatLiteral vb | integerLiteral vb | decimalLiteral vb => exact absurd hdatatype (datatype_ne (by decide))
    | _ => cases h
  | integerLiteral va =>
    cases b with
    | integerLiteral vb => exact h ▸ Comparable.integers va vb
    | floatLiteral vb | doubleLiteral vb | decimalLiteral vb => exact absurd hdatatype (datatype_ne (by decide))
    | _ => cases h
  | decimalLiteral va =>
    cases b with
    | decimalLiteral vb => exact h ▸ Comparable.decimals va vb
    | floatLiteral vb | doubleLiteral vb | integerLiteral vb => exact absurd hdatatype (datatype_ne (by decide))
    | _ => cases h

/-- Literals of one datatype and language. -/
def Value.In (datatype : NamedNode) (language : Option String) (a : Value X) : Prop :=
  a.toLiteral.datatype = datatype ∧ a.toLiteral.language = language

theorem Value.In.alike {datatype : NamedNode} {language : Option String} {a b : Value X} (ha : a.In datatype language)
    (hb : b.In datatype language) : a.Alike b := ⟨ha.1.trans hb.1.symm, ha.2.trans hb.2.symm⟩

theorem partialCmp_known (hX : X.Lawful) (datatype : NamedNode) (language : Option String) :
    Known (partialCmpLiterals (X := X)) (Value.In datatype language) where
  swap a b _ _ := partialCmp_swap hX a b
  trans a b c o p ha hb hc hab ho hbc hp := by
    have hab' := comparable_of_alike (ha.alike hb) hab
    have hbc' := comparable_of_alike (hb.alike hc) hbc
    generalize hosome : some o = os at hab'
    generalize hpsome : some p = ps at hbc'
    cases hab' with
    | strings va vb =>
      cases hbc' with
      | strings _ vc => exact string_known.trans va vb vc o p trivial trivial trivial hosome.symm ho hpsome.symm hp
    | langStrings va vb l =>
      cases hbc' with
      | langStrings _ vc => 
        obtain ⟨q, hq, hle⟩ := string_known.trans va vb vc o p trivial trivial trivial hosome.symm ho hpsome.symm hp
        exact ⟨q, by simpa [partialCmpLiterals] using hq, hle⟩
    | dirLangStrings va vb l d =>
      cases hbc' with
      | dirLangStrings _ vc =>
        obtain ⟨q, hq, hle⟩ := string_known.trans va vb vc o p trivial trivial trivial hosome.symm ho hpsome.symm hp
        exact ⟨q, by simpa [partialCmpLiterals] using hq, hle⟩
    | floats va vb =>
      cases hbc' with
      | floats _ vc => exact hX.float.trans va vb vc o p trivial trivial trivial hosome.symm ho hpsome.symm hp
    | doubles va vb =>
      cases hbc' with
      | doubles _ vc => exact hX.double.trans va vb vc o p trivial trivial trivial hosome.symm ho hpsome.symm hp
    | integers va vb =>
      cases hbc' with
      | integers _ vc => exact hX.integer.trans va vb vc o p trivial trivial trivial hosome.symm ho hpsome.symm hp
    | decimals va vb =>
      cases hbc' with
      | decimals _ vc => exact hX.decimal.trans va vb vc o p trivial trivial trivial hosome.symm ho hpsome.symm hp
    | dateTimes va vb =>
      cases hbc' with
      | dateTimes _ vc => exact hX.dateTime.trans va vb vc o p trivial trivial trivial hosome.symm ho hpsome.symm hp

/-! ## Texts -/

theorem languages_swap (a b : Option String) : cmpLanguages b a = (cmpLanguages a b).swap := by
  cases a <;> cases b
  · rfl
  · rfl
  · rfl
  · exact string_swap _ _

/-- Those that are compared in place compare as any others do. -/
theorem lexicalCmp_eq (a b : Value X) : lexicalCmp a b = cmpLiterals a.toLiteral b.toLiteral := by
  cases a with
  | otherTypedLiteral va da =>
    cases b with
    | otherTypedLiteral vb db =>
      have hvalue : ∀ v d, (Literal.newTyped v d).value = v := by
        intro v d
        unfold Literal.newTyped
        split <;> rfl
      unfold lexicalCmp cmpLiterals Value.toLiteral
      simp only [hvalue, newTyped_datatype, newTyped_language, cmpLanguages, Ordering.then_eq]
    | _ => rfl
  | _ => rfl

theorem lexicalCmp_swap (a b : Value X) : lexicalCmp b a = (lexicalCmp a b).swap := by
  rw [lexicalCmp_eq, lexicalCmp_eq]
  unfold cmpLiterals
  rw [Ordering.swap_then, Ordering.swap_then, string_swap a.toLiteral.value, string_swap a.toLiteral.datatype,
    languages_swap a.toLiteral.language]

/-- Literals of one datatype and language compare by their texts. -/
theorem lexicalCmp_in {datatype : NamedNode} {language : Option String} {a b : Value X} (ha : a.In datatype language)
    (hb : b.In datatype language) : lexicalCmp a b = compare a.toLiteral.value b.toLiteral.value := by
  have hlanguages : cmpLanguages language language = .eq := by
    cases language with
    | none => rfl
    | some l => exact string_eq.2 rfl
  rw [lexicalCmp_eq]
  unfold cmpLiterals
  rw [ha.1, ha.2, hb.1, hb.2, hlanguages, string_eq.2 (rfl : datatype = datatype), Ordering.then_eq, Ordering.then_eq]

theorem lexicalCmp_consistent (datatype : NamedNode) (language : Option String) :
    Consistent (lexicalCmp (X := X)) (Value.In datatype language) where
  swap a b _ _ := lexicalCmp_swap a b
  trans a b c ha hb hc hab hbc := by
    rw [lexicalCmp_in ha hb] at hab
    rw [lexicalCmp_in hb hc] at hbc
    rw [lexicalCmp_in ha hc]
    exact string_consistent.trans _ _ _ trivial trivial trivial hab hbc

/-! ## Terms -/

section Terms
variable {rest : Evaluator} {value : Literal → Value X}

/-- Terms whose literals, at the top and in triple terms down from there, are of one datatype and
language. -/
def Alike : ExpressionTerm (X.evaluator rest value) → ExpressionTerm (X.evaluator rest value) → Prop
  | .literal a, .literal b => @Value.Alike X a b
  | .triple _ _ o, .triple _ _ o' => Alike o o'
  | _, _ => True

/-- Terms that are torn: literals, or triple terms that differ in such objects alone. -/
def TornTerms : ExpressionTerm (X.evaluator rest value) → ExpressionTerm (X.evaluator rest value) →
    ExpressionTerm (X.evaluator rest value) → Prop
  | .literal x, .literal y, .literal z => Torn (partialCmpLiterals (X := X)) lexicalCmp x y z
  | .triple s p o, .triple s' p' o', .triple s'' p'' o'' => (s = s' ∧ s' = s'') ∧ (p = p' ∧ p' = p'') ∧ TornTerms o o' o''
  | _, _, _ => False

theorem subjects_swap (a b : NamedOrBlankNode) : cmpSubjects b a = (cmpSubjects a b).swap := by
  cases a <;> cases b
  · exact string_swap _ _
  · rfl
  · rfl
  · exact string_swap _ _

theorem subjects_eq {a b : NamedOrBlankNode} : cmpSubjects a b = .eq ↔ a = b := by
  cases a <;> cases b <;> simp [cmpSubjects]

theorem subjects_level (a b c : NamedOrBlankNode) : Level cmpSubjects a b c := by
  cases a <;> cases b <;> cases c
  case namedNode.namedNode.namedNode a b c => exact string_level a b c
  case blankNode.blankNode.blankNode a b c => exact string_level a b c
  all_goals simp [Level, cmpSubjects]

theorem cmpBound_swap (hX : X.Lawful) (a b : ExpressionTerm (X.evaluator rest value)) :
    cmpBound (X.evaluator rest value) b a = (cmpBound (X.evaluator rest value) a b).swap := by
  induction a generalizing b with
  | namedNode iri =>
    cases b with
    | namedNode iri' => exact string_swap iri iri'
    | _ => rfl
  | blankNode id =>
    cases b with
    | blankNode id' => exact string_swap id id'
    | _ => rfl
  | literal v =>
    cases b with
    | literal w =>
      unfold cmpBound
      change ((partialCmpLiterals (X := X) w v).getD (lexicalCmp w v)) = ((partialCmpLiterals (X := X) v w).getD (lexicalCmp v w)).swap
      rw [partialCmp_swap hX v w, lexicalCmp_swap v w]
      cases partialCmpLiterals (X := X) v w <;> rfl
    | _ => rfl
  | triple s p o ih =>
    cases b with
    | triple s' p' o' =>
      simp only [cmpBound]
      rw [Ordering.swap_then, Ordering.swap_then, subjects_swap s s', string_swap p p', ih o']
    | _ => rfl

theorem cmpTerms_swap (hX : X.Lawful) (a b : Option (ExpressionTerm (X.evaluator rest value))) :
    cmpTerms (X.evaluator rest value) b a = (cmpTerms (X.evaluator rest value) a b).swap := by
  cases a <;> cases b
  · rfl
  · rfl
  · rfl
  · exact cmpBound_swap hX _ _

/-- The engine's order reads the same from both sides. -/
theorem cmpKeys_swap (hX : X.Lawful) (as bs : List (Option (ExpressionTerm (X.evaluator rest value)))) (descending : List Bool) :
    cmpKeys (X.evaluator rest value) bs as descending = (cmpKeys (X.evaluator rest value) as bs descending).swap := by
  induction as generalizing bs descending with
  | nil => cases bs <;> rfl
  | cons a as ih =>
    cases bs with
    | nil => rfl
    | cons b bs =>
      cases descending with
      | nil => rfl
      | cons d ds =>
        simp only [cmpKeys]
        rw [Ordering.swap_then, cmpTerms_swap hX a b, ih bs ds]
        cases d <;> rfl

/-- Terms alike are level unless they are torn. -/
theorem cmpBound_level (hX : X.Lawful) {a b c : ExpressionTerm (X.evaluator rest value)} (hab : Alike a b) (hbc : Alike b c)
    (h₁ : ¬TornTerms a b c) (h₂ : ¬TornTerms b c a) (h₃ : ¬TornTerms c a b) : Level (cmpBound (X.evaluator rest value)) a b c := by
  induction a generalizing b c with
  | namedNode a =>
    cases b with
    | namedNode b =>
      cases c with
      | namedNode c => exact string_level a b c
      | _ => simp [Level, cmpBound]
    | _ => cases c <;> simp [Level, cmpBound]
  | blankNode a =>
    cases b with
    | blankNode b =>
      cases c with
      | blankNode c => exact string_level a b c
      | _ => simp [Level, cmpBound]
    | _ => cases c <;> simp [Level, cmpBound]
  | literal x =>
    cases b with
    | literal y =>
      cases c with
      | literal z =>
        have hx : Value.In (X := X) (Value.toLiteral (X := X) x).datatype (Value.toLiteral (X := X) x).language x := ⟨rfl, rfl⟩
        have hy : Value.In (X := X) (Value.toLiteral (X := X) x).datatype (Value.toLiteral (X := X) x).language y := ⟨hab.1.symm, hab.2.symm⟩
        have hz : Value.In (X := X) (Value.toLiteral (X := X) x).datatype (Value.toLiteral (X := X) x).language z :=
          ⟨hbc.1.symm.trans hy.1, hbc.2.symm.trans hy.2⟩
        exact level_of_not_torn (partialCmp_known hX _ _) (lexicalCmp_consistent _ _) hx hy hz h₁ h₂ h₃
      | _ => simp [Level, cmpBound]
    | _ => cases c <;> simp [Level, cmpBound]
  | triple s p o ih =>
    cases b with
    | triple s' p' o' =>
      cases c with
      | triple s'' p'' o'' =>
        -- subjects and predicates first, and objects where these are the same
        have hsubjects : Level (fun a b : NamedOrBlankNode × NamedNode × ExpressionTerm (X.evaluator rest value) => cmpSubjects a.1 b.1)
            (s, p, o) (s', p', o') (s'', p'', o'') := subjects_level s s' s''
        have hpredicates : Level (fun a b : NamedOrBlankNode × NamedNode × ExpressionTerm (X.evaluator rest value) => compare a.2.1 b.2.1)
            (s, p, o) (s', p', o') (s'', p'', o'') := string_level p p' p''
        have hsame : ∀ {s s' : NamedOrBlankNode} {p p' : NamedNode}, (cmpSubjects s s').then (compare p p') = .eq → s = s' ∧ p = p' := by
          intro s s' p p' h
          rw [Ordering.then_eq_eq] at h
          exact ⟨subjects_eq.1 h.1, string_eq.1 h.2⟩
        have hobjects : (cmpSubjects s s').then (compare p p') = .eq → (cmpSubjects s' s'').then (compare p' p'') = .eq →
            (cmpSubjects s'' s).then (compare p'' p) = .eq →
            Level (fun a b : NamedOrBlankNode × NamedNode × ExpressionTerm (X.evaluator rest value) =>
              cmpBound (X.evaluator rest value) a.2.2 b.2.2) (s, p, o) (s', p', o') (s'', p'', o'') := by
          intro h h' _
          obtain ⟨rfl, rfl⟩ := hsame h
          obtain ⟨rfl, rfl⟩ := hsame h'
          exact ih hab hbc (fun ht => h₁ ⟨⟨rfl, rfl⟩, ⟨rfl, rfl⟩, ht⟩) (fun ht => h₂ ⟨⟨rfl, rfl⟩, ⟨rfl, rfl⟩, ht⟩)
            (fun ht => h₃ ⟨⟨rfl, rfl⟩, ⟨rfl, rfl⟩, ht⟩)
        exact (hsubjects.then (fun _ _ _ => hpredicates)).then hobjects
      | _ => simp [Level, cmpBound]
    | _ => cases c <;> simp [Level, cmpBound]

theorem torn_not_level {a b c : ExpressionTerm (X.evaluator rest value)} (h : TornTerms a b c) :
    ¬Level (cmpBound (X.evaluator rest value)) a b c := by
  induction a generalizing b c with
  | namedNode a => cases h
  | blankNode a => cases h
  | literal x =>
    match b, c, h with
    | .literal y, .literal z, h => exact Torn.not_level h
  | triple s p o ih =>
    match b, c, h with
    | .triple s' p' o', .triple s'' p'' o'', h =>
      obtain ⟨⟨rfl, rfl⟩, ⟨rfl, rfl⟩, ht⟩ := h
      refine fun hlevel => ih ht ?_
      simpa [Level, cmpBound, subjects_eq.2, string_eq.2] using hlevel

/-! ## Positions -/

/-- A sort position that holds literals of one datatype and language, among unbound cells, blank nodes,
IRIs and triple terms over such. -/
def Uniform (position : Set (Option (ExpressionTerm (X.evaluator rest value)))) : Prop :=
  ∀ a b, some a ∈ position → some b ∈ position → Alike a b

/-- A sort position that holds three keys that are torn. -/
def TornPosition (position : Set (Option (ExpressionTerm (X.evaluator rest value)))) : Prop :=
  ∃ a b c, some a ∈ position ∧ some b ∈ position ∧ some c ∈ position ∧ TornTerms a b c

theorem position_iff (hX : X.Lawful) {position : Set (Option (ExpressionTerm (X.evaluator rest value)))} (h : Uniform position) :
    Consistent (cmpTerms (X.evaluator rest value)) (· ∈ position) ↔ ¬TornPosition position := by
  rw [consistent_iff (fun a b _ _ => cmpTerms_swap hX a b)]
  constructor
  · rintro hlevel ⟨a, b, c, ha, hb, hc, ht⟩
    exact torn_not_level ht (hlevel _ _ _ ha hb hc)
  · intro ht a b c ha hb hc
    cases a with
    | none => cases b <;> cases c <;> simp [Level, cmpTerms]
    | some a =>
      cases b with
      | none => cases c <;> simp [Level, cmpTerms]
      | some b =>
        cases c with
        | none => simp [Level, cmpTerms]
        | some c =>
          exact cmpBound_level hX (h a b ha hb) (h b c hb hc) (fun h' => ht ⟨a, b, c, ha, hb, hc, h'⟩)
            (fun h' => ht ⟨b, c, a, hb, hc, ha, h'⟩) (fun h' => ht ⟨c, a, b, hc, ha, hb, h'⟩)

/-! ## Keys -/

/-- The keys of a row: one of each position. -/
def KeysOf (positions : List (Set (Option (ExpressionTerm (X.evaluator rest value)))))
    (keys : List (Option (ExpressionTerm (X.evaluator rest value)))) : Prop := List.Forall₂ (· ∈ ·) keys positions

theorem cmpTerms_self (hX : X.Lawful) (a : Option (ExpressionTerm (X.evaluator rest value))) : cmpTerms (X.evaluator rest value) a a = .eq := by
  have hself := cmpTerms_swap hX a a
  revert hself
  cases cmpTerms (X.evaluator rest value) a a <;> decide

theorem cmpKeys_self (hX : X.Lawful) (as : List (Option (ExpressionTerm (X.evaluator rest value)))) (descending : List Bool) :
    cmpKeys (X.evaluator rest value) as as descending = .eq := by
  have hself := cmpKeys_swap hX as as descending
  revert hself
  cases cmpKeys (X.evaluator rest value) as as descending <;> decide

/-- Keys compare by their first position, and by the others where it does not tell them apart. -/
theorem keys_cons_iff (hX : X.Lawful) {position : Set (Option (ExpressionTerm (X.evaluator rest value)))}
    {positions : List (Set (Option (ExpressionTerm (X.evaluator rest value))))} {d : Bool} {ds : List Bool} (hfirst : position.Nonempty)
    (hothers : ∃ keys, KeysOf positions keys) :
    Consistent (fun a b => cmpKeys (X.evaluator rest value) a b (d :: ds)) (KeysOf (position :: positions)) ↔
      Consistent (cmpTerms (X.evaluator rest value)) (· ∈ position) ∧
      Consistent (fun a b => cmpKeys (X.evaluator rest value) a b ds) (KeysOf positions) := by
  rw [consistent_iff (fun a b _ _ => cmpKeys_swap hX a b _), consistent_iff (fun a b _ _ => cmpTerms_swap hX a b),
    consistent_iff (fun a b _ _ => cmpKeys_swap hX a b _)]
  constructor
  · intro h
    refine ⟨fun a b c ha hb hc => ?_, fun as bs cs has hbs hcs => ?_⟩
    · obtain ⟨others, hothers⟩ := hothers
      have hlevel := h _ _ _ (.cons ha hothers) (.cons hb hothers) (.cons hc hothers)
      have hlevel' := h _ _ _ (.cons hc hothers) (.cons hb hothers) (.cons ha hothers)
      unfold Level at hlevel hlevel' ⊢
      simp only [cmpKeys, cmpKeys_self hX, Ordering.then_eq] at hlevel hlevel'
      cases d with
      | false => simpa using hlevel
      | true =>
        simp only [if_true, ← cmpTerms_swap hX] at hlevel'
        intro hab hbc hca
        obtain ⟨h₁, h₂, h₃⟩ := hlevel' hbc hab hca
        exact ⟨h₂, h₁, h₃⟩
    · obtain ⟨a, ha⟩ := hfirst
      have hlevel := h _ _ _ (.cons ha has) (.cons ha hbs) (.cons ha hcs)
      have hfirst : (if d = true then (cmpTerms (X.evaluator rest value) a a).swap else cmpTerms (X.evaluator rest value) a a) = .eq := by
        rw [cmpTerms_self hX]
        cases d <;> rfl
      unfold Level at hlevel ⊢
      simpa only [cmpKeys, hfirst, Ordering.eq_then] using hlevel
  · rintro ⟨hposition, hpositions⟩ _ _ _ (_ | ⟨ha, has⟩) (_ | ⟨hb, hbs⟩) (_ | ⟨hc, hcs⟩)
    rename_i a as b bs c cs
    have hfirst : Level (fun x y : Option (ExpressionTerm (X.evaluator rest value)) × List (Option (ExpressionTerm (X.evaluator rest value))) =>
        if d = true then (cmpTerms (X.evaluator rest value) x.1 y.1).swap else cmpTerms (X.evaluator rest value) x.1 y.1) (a, as) (b, bs) (c, cs) := by
      cases d with
      | false => exact hposition a b c ha hb hc
      | true =>
        have hback : Level (fun x y : Option (ExpressionTerm (X.evaluator rest value)) × List (Option (ExpressionTerm (X.evaluator rest value))) =>
            cmpTerms (X.evaluator rest value) x.1 y.1) (c, cs) (b, bs) (a, as) := hposition c b a hc hb ha
        exact hback.swap (fun x y => cmpTerms_swap hX x.1 y.1)
    have hothers : Level (fun x y : Option (ExpressionTerm (X.evaluator rest value)) × List (Option (ExpressionTerm (X.evaluator rest value))) =>
        cmpKeys (X.evaluator rest value) x.2 y.2 ds) (a, as) (b, bs) (c, cs) := hpositions as bs cs has hbs hcs
    exact hfirst.then (fun _ _ _ => hothers)

theorem keysOf_nonempty {positions : List (Set (Option (ExpressionTerm (X.evaluator rest value))))} (h : ∀ position ∈ positions, position.Nonempty) :
    ∃ keys, KeysOf positions keys := by
  induction positions with
  | nil => exact ⟨[], .nil⟩
  | cons position positions ih =>
    obtain ⟨a, ha⟩ := h position List.mem_cons_self
    obtain ⟨as, has⟩ := ih (fun p hp => h p (List.mem_cons_of_mem _ hp))
    exact ⟨a :: as, .cons ha has⟩

theorem keys_iff (hX : X.Lawful) {positions : List (Set (Option (ExpressionTerm (X.evaluator rest value))))} {descending : List Bool}
    (hlen : descending.length = positions.length) (h : ∀ position ∈ positions, position.Nonempty ∧ Uniform position) :
    Consistent (fun a b => cmpKeys (X.evaluator rest value) a b descending) (KeysOf positions) ↔
      ∀ position ∈ positions, ¬TornPosition position := by
  induction positions generalizing descending with
  | nil =>
    refine ⟨fun _ position hposition => (by cases hposition), fun _ => ⟨fun a b _ _ => cmpKeys_swap hX a b _, ?_⟩⟩
    rintro _ _ _ ⟨⟩ ⟨⟩ ⟨⟩ hab _
    exact hab
  | cons position positions ih =>
    cases descending with
    | nil => cases hlen
    | cons d ds =>
      have hothers := fun p hp => h p (List.mem_cons_of_mem position hp)
      obtain ⟨hfirst, huniform⟩ := h position List.mem_cons_self
      rw [keys_cons_iff hX hfirst (keysOf_nonempty (fun p hp => (hothers p hp).1)), position_iff hX huniform,
        ih (Nat.succ_inj.1 hlen) hothers, List.forall_mem_cons]

/-- The engine's order of keys reads the same from both sides. Over keys of uniform positions it is an
order, and a sort by it one arrangement, exactly when no position holds three that are torn. -/
theorem cmpKeys_order (hX : X.Lawful) (rest : Evaluator) (value : Literal → Value X) :
    (∀ as bs descending, cmpKeys (X.evaluator rest value) bs as descending = (cmpKeys (X.evaluator rest value) as bs descending).swap) ∧
    ∀ (positions : List (Set (Option (ExpressionTerm (X.evaluator rest value))))) (descending : List Bool),
      descending.length = positions.length → (∀ position ∈ positions, position.Nonempty ∧ Uniform position) →
      (((∀ as bs cs, KeysOf positions as → KeysOf positions bs → KeysOf positions cs →
          cmpKeys (X.evaluator rest value) as bs descending ≠ .gt → cmpKeys (X.evaluator rest value) bs cs descending ≠ .gt →
          cmpKeys (X.evaluator rest value) as cs descending ≠ .gt) ∧
        ∀ rows : List (List (Option (ExpressionTerm (X.evaluator rest value)))), (∀ keys ∈ rows, KeysOf positions keys) →
          ∃! out : List (List (Option (ExpressionTerm (X.evaluator rest value))) × Nat), out.Perm rows.zipIdx ∧
            out.Pairwise (fun a b => Lib.Held.byArrival (fun a b => cmpKeys (X.evaluator rest value) a b descending) a b ≠ .gt)) ↔
        ∀ position ∈ positions, ¬TornPosition position) := by
  refine ⟨cmpKeys_swap hX, fun positions descending hlen h => ?_⟩
  rw [← keys_iff hX hlen h]
  constructor
  · rintro ⟨htrans, -⟩
    exact ⟨fun a b _ _ => cmpKeys_swap hX a b descending, htrans⟩
  · intro horder
    exact ⟨horder.trans, fun rows hrows => Lib.StableSort.existsUnique_arrangement horder hrows⟩

end Terms

/-! ## Date-times with and without a timezone -/

/-- A date and a time of the day, and the timezone in minutes where one is given. -/
structure Moment where
  year : Int
  month : Int
  day : Int
  hour : Int
  minute : Int
  second : Int
  timezone : Option Int

namespace Moment

/-- Seconds on the time line; without a timezone, as if in UTC. -/
def seconds (m : Moment) : Int :=
  Inline.daysFromCivil m.year m.month m.day * 86400 + m.hour * 3600 + m.minute * 60 + m.second - m.timezone.getD 0 * 60

def showTimezone : Option Int → String
  | none => ""
  | some offset =>
    if offset = 0 then "Z"
    else (if offset < 0 then "-" else "+") ++ Inline.padded 2 (offset.natAbs / 60 : Nat) ++ ":" ++ Inline.padded 2 (offset.natAbs % 60 : Nat)

def text (m : Moment) : String :=
  Inline.padded 4 m.year ++ "-" ++ Inline.padded 2 m.month ++ "-" ++ Inline.padded 2 m.day ++ "T" ++ Inline.padded 2 m.hour ++ ":" ++
    Inline.padded 2 m.minute ++ ":" ++ Inline.padded 2 m.second ++ showTimezone m.timezone

/-- The order of XSD: where one has no timezone it might be in any, up to fourteen hours away. -/
def cmp (a b : Moment) : Option Ordering :=
  match a.timezone, b.timezone with
  | some _, some _ | none, none => some (compare a.seconds b.seconds)
  | some _, none | none, some _ =>
    if a.seconds + 50400 < b.seconds then some .lt else if b.seconds + 50400 < a.seconds then some .gt else none

end Moment

/-- Numbers that are whole, and moments. -/
def wholeNumbers : XsdTypes where
  Float := Int
  Double := Int
  Integer := Int
  Decimal := Int
  DateTime := Moment
  cmpFloat a b := some (compare a b)
  cmpDouble a b := some (compare a b)
  cmpInteger a b := some (compare a b)
  cmpDecimal a b := some (compare a b)
  cmpDateTime := Moment.cmp
  floatOfInteger := id
  floatOfDecimal := id
  doubleOfFloat := id
  doubleOfInteger := id
  doubleOfDecimal := id
  decimalOfInteger := id
  showFloat := toString
  showDouble := toString
  showInteger := toString
  showDecimal := toString
  showDateTime := Moment.text

theorem Moment.cmp_le_iff (a b : Moment) : (∃ o, a.cmp b = some o ∧ o ≠ .gt) ↔
    if a.timezone.isSome = b.timezone.isSome then a.seconds ≤ b.seconds else a.seconds + 50400 < b.seconds := by
  have hsame : (∃ o, some (compare a.seconds b.seconds) = some o ∧ o ≠ .gt) ↔ a.seconds ≤ b.seconds := by
    simp only [Option.some.injEq, exists_eq_left']
    exact compare_le_iff_le
  have hapart : (∃ o, (if a.seconds + 50400 < b.seconds then some Ordering.lt else if b.seconds + 50400 < a.seconds then some .gt else none) =
      some o ∧ o ≠ .gt) ↔ a.seconds + 50400 < b.seconds := by
    split
    · simp_all
    · split <;> simp_all
  unfold Moment.cmp
  cases ha : a.timezone <;> cases hb : b.timezone
  · simpa using hsame
  · simpa using hapart
  · simpa using hapart
  · simpa using hsame

theorem Moment.cmp_swap (a b : Moment) : b.cmp a = (a.cmp b).map Ordering.swap := by
  have hsame : some (compare b.seconds a.seconds) = (some (compare a.seconds b.seconds)).map Ordering.swap := by
    rw [Option.map_some, ← Std.OrientedCmp.eq_swap]
  have hapart : (if b.seconds + 50400 < a.seconds then some Ordering.lt else if a.seconds + 50400 < b.seconds then some .gt else none) =
      (if a.seconds + 50400 < b.seconds then some Ordering.lt else if b.seconds + 50400 < a.seconds then some .gt else none).map Ordering.swap := by
    split_ifs
    · omega
    · rfl
    · rfl
    · rfl
  unfold Moment.cmp
  cases a.timezone <;> cases b.timezone
  · exact hsame
  · exact hapart
  · exact hapart
  · exact hsame

theorem Moment.known : Known Moment.cmp (fun _ => True) where
  swap a b _ _ := Moment.cmp_swap a b
  trans a b c o p _ _ _ hab ho hbc hp := by
    have hab' := (Moment.cmp_le_iff a b).1 ⟨o, hab, ho⟩
    have hbc' := (Moment.cmp_le_iff b c).1 ⟨p, hbc, hp⟩
    apply (Moment.cmp_le_iff a c).2
    clear hab hbc
    generalize a.timezone.isSome = x at hab' ⊢
    generalize b.timezone.isSome = y at hab' hbc'
    generalize c.timezone.isSome = z at hbc' ⊢
    cases x <;> cases y <;> cases z <;> simp only [reduceCtorEq, if_true, if_false] at hab' hbc' ⊢ <;> omega

theorem int_known : Known (fun a b : Int => some (compare a b)) (fun _ => True) := known_of_consistent compare_consistent

theorem wholeNumbers_lawful : wholeNumbers.Lawful := ⟨int_known, int_known, int_known, int_known, Moment.known⟩

/-- An evaluator that answers nothing. -/
def answersNothing : Evaluator where
  Value := Unit
  value _ := ()
  partialCmp _ _ := none
  lexicalCmp _ _ := .eq
  evaluateExpression _ _ := none
  converts _ := false
  evaluate _ := .ok (.boolean false)

/-- Literals as they are written. -/
def asWritten : Literal → Value wholeNumbers
  | .languageTagged value language => .langStringLiteral value language
  | .directional value language direction => .dirLangStringLiteral value language direction
  | .simple value => .stringLiteral value
  | .typed value datatype _ => .otherTypedLiteral value datatype

/-- The evaluator over whole numbers and moments. -/
def overMoments : Evaluator := wholeNumbers.evaluator answersNothing asWritten

/-- A sort key that is a date-time. -/
def dateTimeKey (m : Moment) : List (Option (ExpressionTerm overMoments)) := [some (.literal (.dateTimeLiteral m : Value wholeNumbers))]

theorem dateTimes_uniform : ∃ position, @Uniform wholeNumbers answersNothing asWritten position ∧ ∀ m, KeysOf [position] (dateTimeKey m) := by
  refine ⟨{key | ∃ m : Moment, key = some (.literal (.dateTimeLiteral m : Value wholeNumbers))}, ?_, fun m => .cons ⟨m, rfl⟩ .nil⟩
  rintro a b ⟨m, hm⟩ ⟨n, hn⟩
  cases hm
  cases hn
  exact ⟨(newTyped_datatype _ _).trans (newTyped_datatype _ _).symm, (newTyped_language _ _).trans (newTyped_language _ _).symm⟩

/-- Ten in the morning in UTC, three in the afternoon wherever, and eight in the evening fourteen hours
ahead, which is six in the morning in UTC: in this order by text, and the last before the first by
value. -/
theorem dateTimes_cycle : (∃ position, @Uniform wholeNumbers answersNothing asWritten position ∧ ∀ m, KeysOf [position] (dateTimeKey m)) ∧
    (Moment.text ⟨2000, 1, 1, 10, 0, 0, some 0⟩ = "2000-01-01T10:00:00Z" ∧ Moment.text ⟨2000, 1, 1, 15, 0, 0, none⟩ = "2000-01-01T15:00:00" ∧
      Moment.text ⟨2000, 1, 1, 20, 0, 0, some 840⟩ = "2000-01-01T20:00:00+14:00") ∧
    cmpKeys overMoments (dateTimeKey ⟨2000, 1, 1, 10, 0, 0, some 0⟩) (dateTimeKey ⟨2000, 1, 1, 15, 0, 0, none⟩) [false] = .lt ∧
    cmpKeys overMoments (dateTimeKey ⟨2000, 1, 1, 15, 0, 0, none⟩) (dateTimeKey ⟨2000, 1, 1, 20, 0, 0, some 840⟩) [false] = .lt ∧
    cmpKeys overMoments (dateTimeKey ⟨2000, 1, 1, 10, 0, 0, some 0⟩) (dateTimeKey ⟨2000, 1, 1, 20, 0, 0, some 840⟩) [false] = .gt :=
  ⟨dateTimes_uniform, by decide +kernel⟩

/-- A sort key that is an integer. -/
def integerKey (n : Int) : List (Option (ExpressionTerm overMoments)) := [some (.literal (.integerLiteral n : Value wholeNumbers))]

/-- Integers and a row without one, the greatest first. -/
theorem cmpKeys_order_integers : cmpKeys overMoments (integerKey 3) (integerKey 2) [true] ≠ .gt ∧
    cmpKeys overMoments (integerKey 2) [none] [true] ≠ .gt ∧ cmpKeys overMoments (integerKey 3) [none] [true] ≠ .gt := by
  have htransitive : ∀ as bs cs : List (Option (ExpressionTerm overMoments)),
      KeysOf [{key | key = none ∨ ∃ n : Int, key = some (.literal (.integerLiteral n : Value wholeNumbers))}] as →
      KeysOf [{key | key = none ∨ ∃ n : Int, key = some (.literal (.integerLiteral n : Value wholeNumbers))}] bs →
      KeysOf [{key | key = none ∨ ∃ n : Int, key = some (.literal (.integerLiteral n : Value wholeNumbers))}] cs →
      cmpKeys overMoments as bs [true] ≠ .gt → cmpKeys overMoments bs cs [true] ≠ .gt → cmpKeys overMoments as cs [true] ≠ .gt := by
    refine (((cmpKeys_order wholeNumbers_lawful answersNothing asWritten).2 [_] [true] rfl ?_).2 ?_).1
    · intro position hposition
      rw [List.mem_singleton.1 hposition]
      refine ⟨⟨none, .inl rfl⟩, ?_⟩
      rintro a b (ha | ⟨n, ha⟩) (hb | ⟨k, hb⟩)
      · cases ha
      · cases ha
      · cases hb
      · cases ha
        cases hb
        exact ⟨rfl, rfl⟩
    · intro position hposition
      rw [List.mem_singleton.1 hposition]
      rintro ⟨a, b, c, ha | ⟨n, ha⟩, hb | ⟨k, hb⟩, hc | ⟨l, hc⟩, ht⟩
      · cases ha
      · cases ha
      · cases ha
      · cases ha
      · cases hb
      · cases hb
      · cases hc
      · cases ha
        cases hb
        cases hc
        -- any two integers are known
        exact absurd ht.unknown.1 (Option.some_ne_none _)
  have hgreater : cmpKeys overMoments (integerKey 3) (integerKey 2) [true] ≠ .gt := by decide +kernel
  have hnone : cmpKeys overMoments (integerKey 2) [none] [true] ≠ .gt := by decide +kernel
  refine ⟨hgreater, hnone, htransitive _ _ _ (.cons (.inr ⟨3, rfl⟩) .nil) (.cons (.inr ⟨2, rfl⟩) .nil) (.cons (.inl rfl) .nil) hgreater hnone⟩

end Holos.Engine.TopK
