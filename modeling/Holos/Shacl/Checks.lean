import Holos.Shacl.Compare
import Holos.Shacl.Incremental
/-!
# Checking a constraint

What a shape reports at a node: one result for each value a constraint finds fault with, or one for
the node as a whole. A constraint about a list reports the list, and what is wrong inside it as
details. Shapes refer to each other, so they are validated down to a depth.
-/

namespace Holos.Shacl

open Lib

/-- The id of a term of the vocabulary. All the terms used are in the table. -/
def Sh.known (iri : NamedNode) : TermId := (Vocab.encodeIri iri).getD (TermId.new .vocab 0 (Nat.zero_le _))

/-- The vocabulary. -/
def Sh.new : Sh where
  rdfType := Sh.known (Vocab.rdf "type")
  rdfFirst := Sh.known (Vocab.rdf "first")
  rdfRest := Sh.known (Vocab.rdf "rest")
  rdfNil := Sh.known (Vocab.rdf "nil")
  rdfsSubclassOf := Sh.known (Vocab.rdfs "subClassOf")
  inversePath := Sh.known (Vocab.sh "inversePath")
  alternativePath := Sh.known (Vocab.sh "alternativePath")
  zeroOrMorePath := Sh.known (Vocab.sh "zeroOrMorePath")
  oneOrMorePath := Sh.known (Vocab.sh "oneOrMorePath")
  zeroOrOnePath := Sh.known (Vocab.sh "zeroOrOnePath")
  shape := Sh.known (Vocab.sh "shape")
  uniqueValuesForComponent := Sh.known (Vocab.sh "UniqueValuesForConstraintComponent")

/-- The name of a constraint's component. -/
def Constraint.componentName : Constraint → String
  | .class _ => "ClassConstraintComponent"
  | .datatype _ => "DatatypeConstraintComponent"
  | .nodeKind _ => "NodeKindConstraintComponent"
  | .minCount _ => "MinCountConstraintComponent"
  | .maxCount _ => "MaxCountConstraintComponent"
  | .minInclusive _ => "MinInclusiveConstraintComponent"
  | .maxInclusive _ => "MaxInclusiveConstraintComponent"
  | .minExclusive _ => "MinExclusiveConstraintComponent"
  | .maxExclusive _ => "MaxExclusiveConstraintComponent"
  | .minLength _ => "MinLengthConstraintComponent"
  | .maxLength _ => "MaxLengthConstraintComponent"
  | .pattern _ => "PatternConstraintComponent"
  | .languageIn _ => "LanguageInConstraintComponent"
  | .uniqueLang => "UniqueLangConstraintComponent"
  | .minListLength _ => "MinListLengthConstraintComponent"
  | .maxListLength _ => "MaxListLengthConstraintComponent"
  | .uniqueMembers => "UniqueMembersConstraintComponent"
  | .memberShape _ => "MemberShapeConstraintComponent"
  | .singleLine => "SingleLineConstraintComponent"
  | .subsetOf _ => "SubsetOfConstraintComponent"
  | .someValue _ => "SomeValueConstraintComponent"
  | .rootClass _ => "RootClassConstraintComponent"
  | .nodeByExpression _ _ => "NodeByExpressionConstraintComponent"
  | .reifierShape _ _ => "ReifierShapeConstraintComponent"
  | .uniqueValuesFor _ => "UniqueValuesForConstraintComponent"
  | .equals _ => "EqualsConstraintComponent"
  | .disjoint _ => "DisjointConstraintComponent"
  | .lessThan _ => "LessThanConstraintComponent"
  | .lessThanOrEquals _ => "LessThanOrEqualsConstraintComponent"
  | .not _ => "NotConstraintComponent"
  | .and _ => "AndConstraintComponent"
  | .or _ => "OrConstraintComponent"
  | .xone _ => "XoneConstraintComponent"
  | .node _ => "NodeConstraintComponent"
  | .property _ => "PropertyConstraintComponent"
  | .qualified q => if q.min.isSome then "QualifiedMinCountConstraintComponent" else "QualifiedMaxCountConstraintComponent"
  | .closed _ _ => "ClosedConstraintComponent"
  | .hasValue _ => "HasValueConstraintComponent"
  | .in _ => "InConstraintComponent"

def Constraint.component (constraint : Constraint) : TermId := Sh.known (Vocab.sh constraint.componentName)

/-! ## Values -/

/-- What is known of texts: how dates compare, which lexical forms a datatype has, and what the expression of a pattern
matches. -/
structure Texts where
  datatypes : Inline.Datatypes
  temporal : Temporal
  lexicalIsValid : String → NamedNode → Bool
  isMatch : TermId → String → Bool

/-- BCP 47 basic filtering. -/
def languageMatches (tag range : String) : Bool :=
  let tag := tag.map Char.toLower
  let range := range.map Char.toLower
  !range.isEmpty && (tag = range || (range ++ "-").toList.isPrefixOf tag.toList)

/-- A Unicode line break. -/
def isBreak (c : Char) : Bool := ['\u000a', '\u000b', '\u000c', '\u000d', '\u0085', '\u2028', '\u2029'].contains c

namespace GraphView

variable {B : Backend} (self : GraphView B)

/-- A value's datatype. Inline ids carry it in the tag. -/
def datatypeOf (id : TermId) : Except StorageError (Option TermId) :=
  match id.tag with
  | .integer => return Vocab.encodeIri (Vocab.xsd "integer")
  | .float => return Vocab.encodeIri (Vocab.xsd "float")
  | .dateTime => return Vocab.encodeIri (Vocab.xsd "dateTime")
  | .small => do
    match ← self.term id with
    | some (.literal l) => return Vocab.encodeIri l.datatype
    | _ => return none
  | .literal => do
    match ← self.term id with
    | some (.literal l) => self.id (.namedNode l.datatype)
    | _ => return none
  | _ => return none

/-- Whether a literal's lexical form is one of its datatype. What was inlined was parsed already. -/
def wellFormed (T : Texts) (id : TermId) : Except StorageError Bool := do
  if id.tag ≠ .literal then return true
  match ← self.term id with
  | some (.literal l) => return T.lexicalIsValid l.value l.datatype
  | _ => return true

/-- A value's lexical form. -/
def lexical (id : TermId) : Except StorageError (Option String) := do
  match ← self.term id with
  | some (.literal l) => return some l.value
  | some (.namedNode n) => return some n
  | _ => return none

/-- A literal's language, its base direction included. -/
def languageOf (id : TermId) : Except StorageError (Option String) := do
  match ← self.term id with
  | some (.literal (.languageTagged _ language)) => return some language
  | some (.literal (.directional _ language .ltr)) => return some (language ++ "--ltr")
  | some (.literal (.directional _ language .rtl)) => return some (language ++ "--rtl")
  | _ => return none

/-- The reifiers of a triple. One that was never interned has none. -/
def reifiersOf (subject predicate object : TermId) : Except StorageError (List TermId) := do
  match ← self.term subject, ← self.term predicate, ← self.term object with
  | some (.namedNode s), some (.namedNode p), some o => reifiers (.triple (.namedNode s) p o)
  | some (.blankNode s), some (.namedNode p), some o => reifiers (.triple (.blankNode s) p o)
  | _, _, _ => return []
where
  reifiers (t : Term) : Except StorageError (List TermId) := do
    match ← self.id t with
    | some id => self.subjects (Sh.known (Vocab.rdf "reifies")) id
    | none => return []

end GraphView

namespace Validator

variable {B : Backend}

/-- The members of an RDF list, or none where a cell has not one `rdf:first` and one `rdf:rest`, or comes again. -/
def rdfListFrom (self : Validator B) : Nat → TermId → List TermId → List TermId → Walk (Option (List TermId))
  | 0, _, _, _ => ExceptT.mk none
  | n + 1, cell, visited, members =>
    if cell = self.sh.rdfNil then return some members
    else if cell ∈ visited then return none
    else do
      match ← read (self.data.objects cell self.sh.rdfFirst), ← read (self.data.objects cell self.sh.rdfRest) with
      | [f], [r] => rdfListFrom self n r (cell :: visited) (members ++ [f])
      | _, _ => return none

def rdfList (self : Validator B) (n : Nat) (head : TermId) : Walk (Option (List TermId)) := self.rdfListFrom n head [] []

/-- The members that come again, each once. -/
def repeated (members : List TermId) : List TermId := (members.filter (fun m => 1 < members.count m)).dedup

/-! ## Checking -/

/-- Reports the values that fail a test. -/
def violateUnless (shape : Shape) (focus component : TermId) (values : List TermId) (ok : TermId → Walk Bool) :
    Walk (List ValidationResult) :=
  values.foldlM (fun results v => do
    if ← ok v then return results else return results ++ [result shape focus (some v) component]) []

section
variable (T : Texts) (self : Validator B) (n : Nat)

/-- What a constraint reports at a focus node, the values of the shape's path given. -/
def check (shape : Shape) (constraint : Constraint) (focus : TermId) (values : List TermId) (depth : Nat) : Walk (List ValidationResult) :=
  let component := constraint.component
  let each := violateUnless shape focus component values
  let once := fun (ok : Bool) => if ok then [] else [result shape focus none component]
  let range := fun bound ok => read (range T.datatypes T.temporal self.data.term values bound shape focus component ok)
  match constraint with
  | .class classes => each (fun v => classes.anyM (fun c => read (self.isInstanceOf v c)))
  | .datatype datatypes => each (fun v => do
      if (← read (self.data.datatypeOf v)).any datatypes.contains then read (self.data.wellFormed T v) else return false)
  | .nodeKind spec => each (fun v => match nodeKind v with
      | .iri => return spec.iri
      | .blankNode => return spec.blank
      | .literal => return spec.literal
      | .tripleTerm => return false)
  | .minInclusive bound => range bound (· ≠ .lt)
  | .maxInclusive bound => range bound (· ≠ .gt)
  | .minExclusive bound => range bound (· = .gt)
  | .maxExclusive bound => range bound (· = .lt)
  | .minLength min => each (fun v => return (← read (self.data.lexical v)).any (fun s => min ≤ s.length))
  | .maxLength max => each (fun v => return (← read (self.data.lexical v)).any (fun s => s.length ≤ max))
  | .pattern source => each (fun v => do
      if nodeKind v = .blankNode then return false else return (← read (self.data.lexical v)).any (T.isMatch source))
  | .languageIn langs => each (fun v => return (← read (self.data.languageOf v)).any (fun tag => langs.any (languageMatches tag)))
  | .in allowed => each (fun v => return allowed.contains v)
  | .minListLength min => each (fun v => return (← self.rdfList n v).any (fun members => min ≤ members.length))
  | .maxListLength max => each (fun v => return (← self.rdfList n v).any (fun members => members.length ≤ max))
  | .uniqueMembers => values.foldlM (fun results v => do
      match ← self.rdfList n v with
      | none => return results ++ [result shape focus (some v) component]
      | some members =>
        -- the result names the list, and each member that comes again is a detail of it
        if (repeated members).isEmpty then return results
        return results ++ [{ result shape focus (some v) component with
          details := (repeated members).map (fun m => result shape focus (some m) component) }]) []
  | .memberShape inner => values.foldlM (fun results v => do
      match ← self.rdfList n v with
      | none => return results ++ [result shape focus (some v) component]
      | some members =>
        let details ← members.foldlM (fun details member => return details ++ (← self.validateShape inner member (depth + 1))) []
        if details.isEmpty then return results
        return results ++ [{ result shape focus (some v) component with details }]) []
  | .singleLine => each (fun v => do
      match ← read (self.data.term v) with
      | some (.literal l) => return !l.value.toList.any isBreak
      | _ => return false)
  | .reifierShape inner required => do
    -- a path that is not one predicate has no one triple to reify
    let some p := shape.path | return []
    let .predicate predicate ← path self.shapes.paths p | return []
    each (fun v => do
      let reifiers ← read (self.data.reifiersOf focus predicate v)
      if required && reifiers.isEmpty then return false else reifiers.allM (fun reifier => self.holds inner reifier depth))
  | .nodeByExpression inner expression => do
    if ← self.holds inner focus depth then return []
    return [{ result shape focus (some focus) component with sourceConstraint := some expression }]
  | .rootClass root => each (fun v => read (self.isSubclassOf v root))
  | .someValue inner => return once (← values.anyM (fun v => self.holds inner v depth))
  | .node inner => each (fun v => self.holds inner v depth)
  | .not inner => each (fun v => return !(← self.holds inner v depth))
  | .and members => each (fun v => members.allM (fun m => self.holds m v depth))
  | .or members => each (fun v => members.anyM (fun m => self.holds m v depth))
  | .xone members => each (fun v => do
      return (← members.foldlM (fun count m => return if ← self.holds m v depth then count + 1 else count) 0) = 1)
  | .minCount min => return once (min ≤ values.length)
  | .maxCount max => return once (values.length ≤ max)
  | .hasValue expected => return once (values.contains expected)
  | .uniqueLang => do
    let languages ← values.foldlM (fun languages v => return languages ++ (← read (self.data.languageOf v)).toList) []
    let duplicated := (languages.filter (fun language => 1 < languages.count language)).dedup
    return duplicated.map (fun _ => result shape focus none component)
  -- a statement about the target set, evaluated over all of it
  | .uniqueValuesFor _ => return []
  | .subsetOf path => do
    let others ← evalPath self.shapes.paths self.data n path focus
    each (fun v => return others.contains v)
  | .equals path => do
    let others ← evalPath self.shapes.paths self.data n path focus
    let missing ← each (fun v => return others.contains v)
    return missing ++ (others.filter (fun o => !values.contains o)).map (fun o => result shape focus (some o) component)
  | .disjoint path => do
    let others ← evalPath self.shapes.paths self.data n path focus
    each (fun v => return !others.contains v)
  | .lessThan path => pairs component path false
  | .lessThanOrEquals path => pairs component path true
  | .property inner => values.foldlM (fun results v => return results ++ (← self.validateShape inner v (depth + 1))) []
  | .qualified q => do
    let count ← values.foldlM (fun count v => do
      if !(← self.holds q.shape v depth) then return count
      if q.disjoint then
        if ← q.siblings.anyM (fun sibling => self.holds sibling v depth) then return count
      return count + 1) 0
    return once (!(q.min.any (fun min => count < min) || q.max.any (fun max => max < count)))
  | .closed ignored byTypes => do
    let allowed ← if byTypes then self.allowedByTypes focus ignored else self.allowedPredicates shape ignored
    let quads ← read (self.data.quadsForPattern (some focus) none none)
    return (quads.filter (fun quad => !allowed.contains quad.predicate)).map (fun quad =>
      { focusNode := focus, path := some quad.predicate, value := some quad.object, sourceShape := shape.id, component,
        sourceConstraint := none, severity := shape.severity, messages := shape.messages, details := [] })
where
  /-- One result for each pair that is not in order. -/
  pairs (component : TermId) (path : PathIdx) (inclusive : Bool) : Walk (List ValidationResult) := do
    let others ← evalPath self.shapes.paths self.data n path focus
    values.foldlM (fun results v => others.foldlM (fun results o => do
      let ordering ← read (compare T.datatypes T.temporal self.data.term v o)
      if ordering = some .lt || (ordering = some .eq && inclusive) then return results
      return results ++ [result shape focus (some v) component]) results) []

/-- What an annotation replaces in a result. -/
def annotate (own : Annotation) (result : ValidationResult) : ValidationResult :=
  { result with
    messages := if own.messages.isEmpty then result.messages else own.messages
    severity := own.severity.getD result.severity }

/-- Validates one shape at one focus node. -/
def checkShape (idx : ShapeIdx) (focus : TermId) (depth : Nat) : Walk (List ValidationResult) := do
  let shape ← self.shapes.shape idx
  if shape.deactivated then return []
  let values ← match shape.path with
    | some p => evalPath self.shapes.paths self.data n p focus
    | none => pure [focus]
  shape.constraints.zipIdx.foldlM (fun results constraint => do
    match shape.annotations[constraint.2]? with
    | none => return results ++ (← check T self n shape constraint.1 focus values depth)
    | some annotation =>
      if annotation.deactivated then return results
      return results ++ (← check T self n shape constraint.1 focus values depth).map (annotate annotation)) []

end

/-- How deep shape references may nest. -/
def maxDepth : Nat := 48

/-- Validates one shape at one focus node, with shape references nested `left` deep from here. -/
def checked (T : Texts) (shapes : Shapes) (data : GraphView B) (sh : Sh) (n : Nat) : Nat → ShapeIdx → TermId → Walk (List ValidationResult)
  | 0, _, _ => throw (.tooDeep maxDepth)
  | left + 1, idx, focus =>
    checkShape T ⟨shapes, data, sh, fun idx focus _ => checked T shapes data sh n left idx focus⟩ n idx focus (maxDepth - left)

end Validator

/-- What a shape reports at a node, all walks of which take `n` steps at most. -/
def CompiledShapes.evaluate {B : Backend} (T : Texts) (self : CompiledShapes) (store : B.State) (n : Nat) (idx : ShapeIdx) (focus : TermId)
    (depth : Nat) : Walk (List ValidationResult) :=
  Validator.checked T self.shapes ⟨store, self.options.dataGraph⟩ self.sh n (Validator.maxDepth + 1 - depth) idx focus

end Holos.Shacl
