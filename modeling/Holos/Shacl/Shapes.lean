import Holos.Shacl.Paths
/-!
# Compiled shapes

Shapes are kept in a list and refer to each other, and to paths, by index. The compiler builds its
indices over them at the end: which shapes read a predicate, which target a class, and which refer
to a shape.
-/

namespace Holos.Shacl

open Lib

/-- Index of a shape. -/
abbrev ShapeIdx := Nat

/-- How a shape acquires focus nodes. -/
inductive Target where
  | node (n : TermId)
  | «class» (c : TermId)
  | subjectsOf (p : TermId)
  | objectsOf (p : TermId)
  /-- Every node that conforms to a shape. -/
  | «where» (inner : ShapeIdx)
deriving DecidableEq, Repr

structure NodeKindSpec where
  iri : Bool
  blank : Bool
  literal : Bool
deriving DecidableEq, Repr

structure Qualified where
  shape : ShapeIdx
  min : Option Nat
  max : Option Nat
  disjoint : Bool
  siblings : List ShapeIdx
deriving DecidableEq, Repr

/-- One compiled constraint. The expression of a pattern is a function of its source. -/
inductive Constraint where
  | «class» (classes : List TermId)
  | datatype (datatypes : List TermId)
  | nodeKind (spec : NodeKindSpec)
  | minCount (n : Nat)
  | maxCount (n : Nat)
  | minInclusive (bound : TermId)
  | maxInclusive (bound : TermId)
  | minExclusive (bound : TermId)
  | maxExclusive (bound : TermId)
  | minLength (n : Nat)
  | maxLength (n : Nat)
  | pattern (source : TermId)
  | languageIn (languages : List String)
  | uniqueLang
  | equals (path : PathIdx)
  | disjoint (path : PathIdx)
  | lessThan (path : PathIdx)
  | lessThanOrEquals (path : PathIdx)
  | not (shape : ShapeIdx)
  | and (shapes : List ShapeIdx)
  | or (shapes : List ShapeIdx)
  | xone (shapes : List ShapeIdx)
  | node (shape : ShapeIdx)
  | property (shape : ShapeIdx)
  | qualified (q : Qualified)
  | closed (ignored : List TermId) (byTypes : Bool)
  | hasValue (value : TermId)
  | «in» (values : List TermId)
  | minListLength (n : Nat)
  | maxListLength (n : Nat)
  | uniqueMembers
  | memberShape (shape : ShapeIdx)
  | singleLine
  | subsetOf (path : PathIdx)
  | reifierShape (shape : ShapeIdx) (required : Bool)
  | nodeByExpression (shape : ShapeIdx) (expression : TermId)
  | rootClass (root : TermId)
  | someValue (shape : ShapeIdx)
  /-- The properties are a composite key. -/
  | uniqueValuesFor (properties : List TermId)

/-- The shapes a constraint refers to. -/
def Constraint.referenced : Constraint → List ShapeIdx
  | .not i | .node i | .property i | .memberShape i | .someValue i => [i]
  | .reifierShape shape _ | .nodeByExpression shape _ => [shape]
  | .and v | .or v | .xone v => v
  | .qualified q => q.shape :: q.siblings
  | _ => []

/-- The path a comparison follows. -/
def Constraint.compared : Constraint → Option PathIdx
  | .equals p | .disjoint p | .lessThan p | .lessThanOrEquals p | .subsetOf p => some p
  | _ => none

/-- What is said about the triple that declared a constraint. -/
structure Annotation where
  messages : List TermId
  severity : Option TermId
  deactivated : Bool
deriving DecidableEq, Repr

/-- One compiled shape. -/
structure Shape where
  /-- The shape's own node in the shapes graph. -/
  id : TermId
  path : Option PathIdx
  /-- The `sh:path` object as it appears in the shapes graph. -/
  pathNode : Option TermId
  targets : List Target
  constraints : List Constraint
  severity : TermId
  messages : List TermId
  /-- One for each constraint. -/
  annotations : List Annotation
  deactivated : Bool

/-- The paths a shape refers to itself. -/
def Shape.paths (shape : Shape) : List PathIdx := shape.path.toList ++ shape.constraints.filterMap Constraint.compared

/-- Every shape a shape refers to. -/
def referencedShapes (shape : Shape) : List ShapeIdx :=
  shape.targets.filterMap (fun target => match target with | .where i => some i | _ => none) ++
    shape.constraints.flatMap Constraint.referenced

/-- What was pushed under a key, sorted and without duplicates. -/
def pushed {κ : Type} [DecidableEq κ] (entries : List (κ × ShapeIdx)) (key : κ) : List ShapeIdx :=
  sortDedup id ((entries.filter (fun e => e.1 = key)).map Prod.snd)

/-- A compiled shapes graph. -/
structure Shapes where
  shapes : List Shape
  paths : List Path
  byId : List (TermId × ShapeIdx)
  paths_lt : ∀ shape ∈ shapes, ∀ p ∈ shape.paths, p < paths.length

namespace Shapes

variable (self : Shapes)

/-- Every index, a `u32`: the last one is given to whatever does not fit. -/
def indices : List ShapeIdx := (List.range self.shapes.length).map (fun i => min i (2 ^ 32 - 1))

/-- One shape by index. -/
def shape (idx : ShapeIdx) : Walk Shape := ExceptT.mk (self.shapes[idx]?.map .ok)

/-- The shape a node denotes, if it was compiled. -/
def byNode (id : TermId) : Option ShapeIdx := self.byId.lookup id

def hasTargets (idx : ShapeIdx) : Bool := self.shapes[idx]?.any (fun shape => !shape.targets.isEmpty)

/-- Shapes that have targets, in the order of their nodes. -/
def targeted : List ShapeIdx :=
  let node := fun idx : ShapeIdx => (self.shapes[idx]?.map (fun shape => shape.id.val)).getD 0
  (self.indices.filter self.hasTargets).mergeSort (fun i j => decide (node i ≤ node j))

/-! ## The indices -/

/-- The predicates on a path, down to where `left` runs out. -/
def pathPredicates : Nat → PathIdx → List TermId
  | 0, _ => []
  | left + 1, idx => match self.paths[idx]? with
    | some (.predicate p) => [p]
    | some path => path.inner.flatMap (pathPredicates left)
    | none => []

/-- Predicates a shape reads. A path refers to earlier ones only. -/
def predicatesOf (sh : Sh) (shape : Shape) : List TermId :=
  let onPath := self.pathPredicates self.paths.length
  shape.path.toList.flatMap onPath ++ shape.constraints.flatMap (fun constraint => match constraint with
    | .equals p | .disjoint p | .lessThan p | .lessThanOrEquals p | .subsetOf p => onPath p
    | .uniqueValuesFor properties => properties
    | .class _ => [sh.rdfType]
    | _ => [])

/-- What `f` gives for each shape, under its index. -/
def entries {κ : Type} (f : Shape → List κ) : List (κ × ShapeIdx) :=
  (self.indices.zip self.shapes).flatMap (fun e => (f e.2).map (fun k => (k, e.1)))

/-- Shapes whose result could change when a quad using `predicate` is added or removed. -/
def shapesTouching (sh : Sh) (predicate : TermId) : List ShapeIdx :=
  pushed (self.entries (fun shape =>
    shape.targets.filterMap (fun target => match target with | .subjectsOf p | .objectsOf p => some p | _ => none) ++
      self.predicatesOf sh shape)) predicate

/-- Shapes targeting a class. -/
def shapesTargetingClass (c : TermId) : List ShapeIdx :=
  pushed (self.entries (fun shape => shape.targets.filterMap (fun target => match target with | .class c => some c | _ => none))) c

/-- The shapes that refer to a shape. -/
def parents (idx : ShapeIdx) : List ShapeIdx := pushed (self.entries referencedShapes) idx

/-- The targeted shapes a shape is evaluated under: a walk upwards from a stack, that pops what was pushed last. Each
reference is followed once at most. -/
def targetedAncestors (idx : ShapeIdx) : List ShapeIdx :=
  sortDedup id ((walk (fun i => (self.parents i).reverse) ((self.entries referencedShapes).length + 2) [idx] []).filter self.hasTargets)

/-- Whether a change this shape reads can imply a violation at a focus node that is not an endpoint of the changed quad. -/
def focusMayBeUpstream (idx : ShapeIdx) : Walk Bool := do
  let shape ← self.shape idx
  let compound := fun p => do
    match ← Validator.path self.paths p with
    | .predicate _ => return false
    | _ => return true
  if let some path := shape.path then
    if ← compound path then return true
  (shape.constraints.filterMap Constraint.compared).foldlM (fun found p => if found then return true else compound p) false

end Shapes

end Holos.Shacl
