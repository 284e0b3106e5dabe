import Holos.Sparql.Algebra
import Holos.Store.Store
import Mathlib.Data.List.Sort
import Mathlib.Tactic.IntervalCases
/-!
# Comparisons as spans of ids

A comparison of one variable with one constant bounds the ids a scan has to read: the
ordered part of the constant's own tag, and the regions whose ids carry no such order.
A span says what to read; the filter still says what matches.
-/

namespace Holos.Engine.Range

open Sparql

/-- A comparison that can bound a scan. -/
inductive Bound where
  | greater | greaterOrEqual | less | lessOrEqual
deriving DecidableEq, Repr

/-- The same comparison with its operands the other way round. -/
def Bound.flipped : Bound → Bound
  | .greater => .less
  | .greaterOrEqual => .lessOrEqual
  | .less => .greater
  | .lessOrEqual => .greaterOrEqual

/-- A comparison of one variable against one constant. -/
structure Comparison where
  var : Variable
  bound : Bound
  value : Literal
deriving DecidableEq, Repr

/-- A numeric literal with its sign flipped, on the lexical form. -/
def negated (literal : Literal) : Option Literal :=
  if literal.datatype = Xsd.integer ∨ literal.datatype = Xsd.float then
    let flipped := match literal.value.toList with
      | '-' :: positive => String.ofList positive
      | text => String.ofList ('-' :: text)
    some (.newTyped flipped literal.datatype)
  else none

/-- The literal an expression denotes at parse time: the sign of a number is in the grammar. -/
def constant : Expression → Option Literal
  | .literal l => some l
  | .unary .plus inner => constant inner
  | .unary .minus inner => (constant inner).bind negated
  | _ => none

def boundOf : BinaryOp → Option Bound
  | .greater => some .greater
  | .greaterOrEqual => some .greaterOrEqual
  | .less => some .less
  | .lessOrEqual => some .lessOrEqual
  | _ => none

/-- Reads a comparison out of an expression: a variable against a constant, either way round. -/
def comparison : Expression → Option Comparison
  | .binary op left right => do
    let bound ← boundOf op
    match left, right with
    | .var v, other => return ⟨v, bound, ← constant other⟩
    | other, .var v => return ⟨v, bound.flipped, ← constant other⟩
    | _, _ => none
  | _ => none

/-- Which tag holds a datatype in value order. -/
def orderedTag (value : Literal) : Option Tag :=
  if value.datatype = Xsd.integer then some .integer
  else if value.datatype = Xsd.float then some .float
  else if value.datatype = Xsd.dateTime then some .dateTime
  else none

/-- The unordered regions a comparison must also read: the dictionary literals, and for a
number the other numeric tag. -/
def companions : Tag → List IdRange
  | .integer => [IdRange.wholeTag .literal, IdRange.wholeTag .float]
  | .float => [IdRange.wholeTag .literal, IdRange.wholeTag .integer]
  | _ => [IdRange.wholeTag .literal]

/-- The next id above one, within its tag. -/
def nextUp (id : TermId) : Option TermId :=
  if h : id.payload + 1 ≤ TermId.payloadMax then some (TermId.new id.tag (id.payload + 1) h) else none

/-- The next id below one, within its tag. -/
def nextDown (id : TermId) : Option TermId :=
  if id.payload = 0 then none
  else some (TermId.new id.tag (id.payload - 1) (le_trans (Nat.sub_le _ _) id.payload_le))

/-- The part of the ordered region a comparison with `pivot` admits. -/
def orderedSpan (ordered : Tag) (pivot : TermId) : Bound → Option IdRange
  | .greater => (nextUp pivot).map (fun first => ⟨first, TermId.new ordered TermId.payloadMax le_rfl⟩)
  | .greaterOrEqual => some ⟨pivot, TermId.new ordered TermId.payloadMax le_rfl⟩
  | .less => (nextDown pivot).map (fun last => ⟨TermId.new ordered 0 (Nat.zero_le _), last⟩)
  | .lessOrEqual => some ⟨TermId.new ordered 0 (Nat.zero_le _), pivot⟩

/-- The spans a scan must read to be sure of finding everything the comparison admits,
in ascending order. -/
def spans (store : Store) (comparison : Comparison) : Option (List IdRange) := do
  let ordered ← orderedTag comparison.value
  let pivot ← store.lookupTerm (.literal comparison.value)
  if pivot.tag ≠ ordered then none
  else
    let span ← orderedSpan ordered pivot comparison.bound
    if span.isEmpty then some (companions ordered)
    else some ((companions ordered ++ [span]).mergeSort (fun a b => a.first ≤ b.first))

/-! ## The spans are disjoint -/

theorem bits_of_tag {id : TermId} {t : Tag} (h : id.tag = t) (hr : t ≠ .reserved) : id.val / 2 ^ 60 = t.bits := by
  subst h
  have hlt : id.val / 2 ^ 60 < 16 := by have := id.isLt; omega
  simp only [TermId.tag] at hr ⊢
  generalize id.val / 2 ^ 60 = n at hlt hr ⊢
  interval_cases n <;> first | rfl | exact absurd rfl hr

theorem tag_between {first last id : TermId} {t : Tag} (hr : t ≠ .reserved) (hf : first.tag = t) (hl : last.tag = t)
    (h : (⟨first, last⟩ : IdRange).contains id = true) : id.tag = t := by
  obtain ⟨h₁, h₂⟩ := IdRange.contains_iff.1 h
  have h₁' := Fin.le_def.1 h₁
  have h₂' := Fin.le_def.1 h₂
  have hf' := bits_of_tag hf hr
  have hl' := bits_of_tag hl hr
  simp only at h₁' h₂'
  have e : id.val / 2 ^ 60 = t.bits := by omega
  simp only [TermId.tag, e, Tag.fromBits_bits]

theorem tag_of_mem_wholeTag {id : TermId} {t : Tag} (hr : t ≠ .reserved)
    (h : (IdRange.wholeTag t).contains id = true) : id.tag = t :=
  tag_between hr (by simp) (by simp) h

theorem tag_of_mem_orderedSpan {ordered : Tag} {pivot id : TermId} {bound : Bound} {span : IdRange}
    (hr : ordered ≠ .reserved) (hp : pivot.tag = ordered) (h : orderedSpan ordered pivot bound = some span)
    (hc : span.contains id = true) : id.tag = ordered := by
  cases bound with
  | greater =>
    obtain ⟨first, hfirst, rfl⟩ := Option.map_eq_some_iff.1 h
    unfold nextUp at hfirst
    split at hfirst
    · cases hfirst
      exact tag_between hr (by simp [hp]) (by simp) hc
    · cases hfirst
  | greaterOrEqual =>
    cases h
    exact tag_between hr hp (by simp) hc
  | less =>
    obtain ⟨last, hlast, rfl⟩ := Option.map_eq_some_iff.1 h
    unfold nextDown at hlast
    split at hlast
    · cases hlast
    · cases hlast
      exact tag_between hr (by simp) (by simp [hp]) hc
  | lessOrEqual =>
    cases h
    exact tag_between hr (by simp) hp hc

/-- No id lies in both spans. -/
def Apart (a b : IdRange) : Prop := ∀ id, ¬ (a.contains id = true ∧ b.contains id = true)

theorem Apart.symm {a b : IdRange} (h : Apart a b) : Apart b a := fun id hc => h id hc.symm

theorem apart_of_tags {a b : IdRange} {s t : Tag} (ha : ∀ id, a.contains id = true → id.tag = s)
    (hb : ∀ id, b.contains id = true → id.tag = t) (hst : s ≠ t) : Apart a b := by
  rintro id ⟨h₁, h₂⟩
  exact hst ((ha id h₁).symm.trans (hb id h₂))

theorem companions_apart {ordered : Tag} {span : IdRange} (ho : ordered = .integer ∨ ordered = .float ∨ ordered = .dateTime)
    (hs : ∀ id, span.contains id = true → id.tag = ordered) : (companions ordered ++ [span]).Pairwise Apart := by
  have lit : ∀ id, (IdRange.wholeTag .literal).contains id = true → id.tag = .literal := fun _ =>
    tag_of_mem_wholeTag (by decide)
  rcases ho with rfl | rfl | rfl <;>
    simp only [companions, List.cons_append, List.nil_append, List.pairwise_cons, List.mem_cons, List.not_mem_nil,
      or_false, forall_eq_or_imp, forall_eq]
  · have num : ∀ id, (IdRange.wholeTag .float).contains id = true → id.tag = .float := fun _ =>
      tag_of_mem_wholeTag (by decide)
    exact ⟨⟨apart_of_tags lit num (by decide), apart_of_tags lit hs (by decide)⟩,
      apart_of_tags num hs (by decide), by simp, List.Pairwise.nil⟩
  · have num : ∀ id, (IdRange.wholeTag .integer).contains id = true → id.tag = .integer := fun _ =>
      tag_of_mem_wholeTag (by decide)
    exact ⟨⟨apart_of_tags lit num (by decide), apart_of_tags lit hs (by decide)⟩,
      apart_of_tags num hs (by decide), by simp, List.Pairwise.nil⟩
  · exact ⟨apart_of_tags lit hs (by decide), by simp, List.Pairwise.nil⟩

/-- A caller can read the spans one after another: none of them is read twice. -/
theorem spans_apart {store : Store} {c : Comparison} {ss : List IdRange} (h : spans store c = some ss) :
    ss.Pairwise Apart := by
  simp only [spans, Option.bind_eq_bind, Option.bind_eq_some_iff] at h
  obtain ⟨ordered, ho, pivot, -, h⟩ := h
  have hcases : ordered = .integer ∨ ordered = .float ∨ ordered = .dateTime := by
    unfold orderedTag at ho
    split_ifs at ho <;> cases ho <;> simp
  split_ifs at h with hp
  simp only [Option.bind_eq_some_iff] at h
  obtain ⟨span, hspan, h⟩ := h
  have hr : ordered ≠ .reserved := by rcases hcases with rfl | rfl | rfl <;> decide
  have hs : ∀ id, span.contains id = true → id.tag = ordered := fun id hc =>
    tag_of_mem_orderedSpan hr (not_not.1 hp) hspan hc
  have hall := companions_apart hcases hs
  split_ifs at h with he
  · cases h
    exact (List.pairwise_append.1 hall).1
  · cases h
    exact (List.mergeSort_perm _ _).symm.pairwise hall (fun h => h.symm)

end Holos.Engine.Range
