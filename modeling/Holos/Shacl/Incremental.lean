import Holos.Shacl.Validate
/-!
# Revalidating what a change could have affected

The indices of the compiled shapes give the work a delta implies. It is attributed upwards to the
shapes that have targets, trimmed to what these select, and widened where a focus node can be
upstream of the change.
-/

namespace Holos.Shacl

open Lib

namespace Incremental

/-- A check: a shape, and where. -/
abbrev Work := List (ShapeIdx × TermId)

/-- In a deterministic order. -/
def sorted (work : Work) : Work := sortDedup (fun w => toLex w) work

/-- Works out what a delta makes stale, given the classes a node belongs to after the change. -/
def plan (shapes : Shapes) (sh : Sh) (changes : List Change) (classesOf : TermId → List TermId) : Work :=
  sorted (changes.flatMap (fun change =>
    let quad := change.quad
    -- any shape that reads this predicate may now answer differently, at either end of the quad
    let touched := (shapes.shapesTouching sh quad.predicate).flatMap (fun idx => [(idx, quad.subject), (idx, quad.object)])
    -- a changed type moves a node in or out of a class target
    let moved := if quad.predicate = sh.rdfType then
        (quad.object :: classesOf quad.subject).flatMap (fun c => (shapes.shapesTargetingClass c).map (fun idx => (idx, quad.subject)))
      else []
    touched ++ moved))

/-- What is attributed to shapes that have targets. -/
structure Attributed where
  work : Work
  implicated : List ShapeIdx
  widen : List ShapeIdx

/-- Attributes a check at a node to one shape. -/
def Attributed.add (node : TermId) (upstream : Bool) (st : Attributed) (ancestor : ShapeIdx) : Attributed where
  work := (ancestor, node) :: st.work
  implicated := st.implicated.insert ancestor
  widen := if upstream then st.widen.insert ancestor else st.widen

def attributeUpwards (shapes : Shapes) (plan : Work) : Walk Attributed :=
  plan.foldlM (fun st w => do
    let upstream ← shapes.focusMayBeUpstream w.1
    return (shapes.targetedAncestors w.1).foldl (Attributed.add w.2 upstream) st) ⟨[], [], []⟩

/-- Trims what the targets do not select, and widens a shape that got nothing and one whose focus node can be upstream of the change. -/
def trim (attributed : Attributed) (focusCache : List (ShapeIdx × List TermId)) : Work :=
  let kept := attributed.work.filter (fun w => (focusCache.lookup w.1).any (fun nodes => decide (w.2 ∈ nodes)))
  let widened := attributed.implicated.flatMap (fun idx =>
    if !attributed.widen.contains idx && kept.any (fun w => decide (w.1 = idx)) then []
    else ((focusCache.lookup idx).getD []).map (fun focus => (idx, focus)))
  sorted (kept ++ widened)

end Incremental

open Incremental

/-- `Result::unwrap_or_default`. -/
def unwrapOrDefault {α : Type} (m : Walk (List α)) : Walk (List α) :=
  ExceptT.mk (m.run.map (fun r => match r with | .ok l => .ok l | .error _ => .ok []))

namespace Validator

variable {B : Backend} (self : Validator B)

/-- The focus nodes of shapes, none where they cannot be read. -/
def focusCache (implicated : List ShapeIdx) : Walk (List (ShapeIdx × List TermId)) :=
  implicated.foldlM (fun cache idx => return cache ++ [(idx, ← unwrapOrDefault (self.focusNodes idx))]) []

/-- Revalidates only what a delta could have affected. -/
def revalidate (changes : List Change) : Walk Report := do
  let classesOf := fun node => match self.data.objects node self.sh.rdfType with | .ok classes => classes | .error _ => []
  let attributed ← attributeUpwards self.shapes (plan self.shapes self.sh changes classesOf)
  let focusCache ← self.focusCache attributed.implicated
  self.validateSelected (trim attributed focusCache)

end Validator

/-- Compiled shapes, ready to validate a store repeatedly. -/
structure CompiledShapes where
  shapes : Shapes
  options : Options
  sh : Sh

namespace CompiledShapes

variable {B : Backend} (self : CompiledShapes) (store : B.State)

def validator (evaluate : ShapeIdx → TermId → Nat → Walk (List ValidationResult)) : Validator B :=
  ⟨self.shapes, ⟨store, self.options.dataGraph⟩, self.sh, evaluate⟩

/-- Validates a store, given what each shape reports at each node. -/
def validate (evaluate : ShapeIdx → TermId → Nat → Walk (List ValidationResult)) : Walk Report :=
  (self.validator store evaluate).validateAll

def revalidate (evaluate : ShapeIdx → TermId → Nat → Walk (List ValidationResult)) (changes : List Change) : Walk Report :=
  (self.validator store evaluate).revalidate changes

end CompiledShapes

end Holos.Shacl
