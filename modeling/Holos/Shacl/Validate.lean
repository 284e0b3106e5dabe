import Holos.Lib.Sweep
import Holos.Shacl.Shapes
/-!
# Validating a store

What shapes are evaluated at: the focus nodes their targets select, the nodes that name a shape
themselves, and the whole target set for the one constraint that compares focus nodes with each
other. The evaluation of one shape at one node is a parameter. Walks of the class hierarchy are cut
short at a size.
-/

namespace Holos.Shacl

open Lib

/-- One violation. -/
structure ValidationResult where
  focusNode : TermId
  path : Option TermId
  value : Option TermId
  sourceShape : TermId
  component : TermId
  sourceConstraint : Option TermId
  severity : TermId
  messages : List TermId
  /-- Results that explain this one. -/
  details : List ValidationResult

/-- The outcome of a validation. -/
structure Report where
  conforms : Bool
  results : List ValidationResult
  conformanceDisallows : Option (List TermId)

/-- Whether a result is a finding about the data rather than a diagnostic note. -/
def isJudgement (result : ValidationResult) : Bool :=
  let diagnostic := ([Vocab.sh "Debug", Vocab.sh "Trace"].filterMap Vocab.encodeIri).contains result.severity
  !diagnostic

def Report.new (results : List ValidationResult) : Report := ⟨!results.any isJudgement, results, none⟩

structure Validator (B : Backend) where
  shapes : Shapes
  data : GraphView B
  sh : Sh
  /-- What a shape reports at a node, with shape references nested this deep already. -/
  validateShape : ShapeIdx → TermId → Nat → Walk (List ValidationResult)

namespace Validator

variable {B : Backend} (self : Validator B)

/-! ## The class hierarchy -/

/-- The size at which a walk of the hierarchy is cut short. -/
def hierarchyLimit : Nat := 10000

/-- A class and its subclasses. -/
def subclassesOf (c : TermId) : Except StorageError (List TermId) :=
  -- no class is looked for, so the walk does not end early
  (sweep (fun current => (self.data.subjects self.sh.rdfsSubclassOf current).map some) hierarchyLimit [c]).map (·.getD [])

/-- Instances of a class, following `rdfs:subClassOf` downwards. -/
def instancesOf (c : TermId) : Except StorageError (List TermId) := do
  let classes ← self.subclassesOf c
  classes.foldlM (fun out c => return out ++ (← self.data.subjects self.sh.rdfType c)) []

/-- Whether a node is an instance of a class, following `rdfs:subClassOf` upwards. -/
def isInstanceOf (node c : TermId) : Except StorageError Bool := do
  let queue ← self.data.objects node self.sh.rdfType
  let found ← sweep (fun current =>
    if current = c then .ok none else (self.data.objects current self.sh.rdfsSubclassOf).map some) hierarchyLimit queue
  return found.isNone

/-- Whether a class is `root`, or reaches it through `rdfs:subClassOf`. -/
def isSubclassOf (c root : TermId) : Except StorageError Bool :=
  if c = root then .ok true else do
    let found ← sweep (fun current =>
      (self.data.objects current self.sh.rdfsSubclassOf).map (fun sups => if root ∈ sups then none else some sups)) hierarchyLimit [c]
    return found.isNone

/-- Every class a node is an instance of. -/
def classesOf (focus : TermId) : Except StorageError (List TermId) := do
  let classes ← self.data.objects focus self.sh.rdfType
  (sweep (fun c => (self.data.objects c self.sh.rdfsSubclassOf).map some) hierarchyLimit classes).map (·.getD [])

/-! ## Closing by types -/

/-- The predicates of a shape's property shapes. -/
def allowedPredicates (shape : Shape) (ignored : List TermId) : Walk (List TermId) :=
  shape.constraints.foldlM (fun allowed constraint => do
    if let .property idx := constraint then
      if let some p := (← self.shapes.shape idx).path then
        if let .predicate p ← path self.shapes.paths p then
          return allowed ++ [p]
    return allowed) ignored

/-- Adds the predicates of the shapes of a queue, and of those they reach through `sh:node`, each once. -/
def allowedFrom : Nat → List ShapeIdx → List ShapeIdx → List TermId → Walk (List TermId)
  | 0, _, _, _ => ExceptT.mk none
  | _ + 1, [], _, allowed => return allowed
  | n + 1, idx :: queue, visited, allowed =>
    if idx ∈ visited then allowedFrom n queue visited allowed else do
      let shape ← self.shapes.shape idx
      let predicates ← self.allowedPredicates shape []
      let inner := shape.constraints.filterMap (fun constraint => match constraint with | .node i => some i | _ => none)
      allowedFrom n (queue ++ inner) (idx :: visited) (allowed ++ predicates)

/-- The predicates `sh:closed sh:ByTypes` admits at one focus node. A shape is expanded once, so the references of all shapes
bound the steps. -/
def allowedByTypes (focus : TermId) (ignored : List TermId) : Walk (List TermId) := do
  let classes ← read (self.classesOf focus)
  let queue := classes.flatMap (fun c => (self.shapes.byNode c).toList ++ self.shapes.shapesTargetingClass c)
  let references := self.shapes.shapes.flatMap (fun shape => shape.constraints.flatMap Constraint.referenced)
  self.allowedFrom (queue.length + references.length + 1) queue [] (ignored ++ [self.sh.rdfType])

/-! ## Focus nodes -/

/-- Whether a shape holds at a node, without recording results. -/
def holds (idx : ShapeIdx) (focus : TermId) (depth : Nat) : Walk Bool := do
  return (← self.validateShape idx focus (depth + 1)).isEmpty

/-- Every node that conforms to a shape. A shape with `sh:class` only admits instances. -/
def conformingNodes (inner : ShapeIdx) : Walk (List TermId) := do
  let filter ← self.shapes.shape inner
  let narrowed := filter.constraints.findSome? (fun constraint => match constraint with | .class classes => some classes | _ => none)
  let candidates ← match narrowed with
    | some classes => read (classes.foldlM (fun candidates c => return candidates ++ (← self.instancesOf c)) [])
    | none => read ((self.data.quadsForPattern none none none).map (List.flatMap (fun quad => [quad.subject, quad.object])))
  (sortDedup id candidates).foldlM (fun out node => return if ← self.holds inner node 0 then out ++ [node] else out) []

def selects : Target → Walk (List TermId)
  | .node n => return [n]
  | .class c => read (self.instancesOf c)
  | .subjectsOf p => read (self.data.subjectsOf p)
  | .objectsOf p => read (self.data.objectsOf p)
  | .where inner => self.conformingNodes inner

/-- The focus nodes a shape's targets select. -/
def focusNodes (idx : ShapeIdx) : Walk (List TermId) := do
  let shape ← self.shapes.shape idx
  let out ← shape.targets.foldlM (fun out target => return out ++ (← self.selects target)) []
  return sortDedup id out

/-! ## Validating -/

def result (shape : Shape) (focus : TermId) (value : Option TermId) (component : TermId) : ValidationResult :=
  ⟨focus, shape.pathNode, value, shape.id, component, none, shape.severity, shape.messages, []⟩

/-- Every key a focus node claims: one value for each property, so none where a property has no value. -/
def keysOf (focus : TermId) : List TermId → List (List TermId) → Except StorageError (List (List TermId))
  | [], keys => .ok keys
  | property :: properties, keys => do
    let values ← self.data.objects focus property
    if values.isEmpty then return [] else keysOf focus properties (keys.flatMap (fun key => values.map (fun value => key ++ [value])))

/-- What a composite key reports over a target set: the nodes that claim a key that is claimed again. -/
def clashes (shape : Shape) (focusNodes : List TermId) (properties : List TermId) : Except StorageError (List ValidationResult) := do
  let claims ← focusNodes.foldlM (fun claims focus => return claims ++ (← self.keysOf focus properties [[]]).map (fun key => (key, focus))) []
  let offenders := claims.filter (fun claim => 1 < (claims.filter (fun other => other.1 = claim.1)).length)
  return (sortDedup id (offenders.map Prod.snd)).map (fun focus => result shape focus none self.sh.uniqueValuesForComponent)

/-- `sh:uniqueValuesFor`, across a shape's whole target set. -/
def uniqueValuesFor (idx : ShapeIdx) (focusNodes : List TermId) : Walk (List ValidationResult) := do
  let shape ← self.shapes.shape idx
  shape.constraints.foldlM (fun results constraint => match constraint with
    | .uniqueValuesFor properties => return results ++ (← read (self.clashes shape focusNodes properties))
    | _ => return results) []

/-- `sh:shape`: targets the data declares for itself. -/
def dataDeclaredTargets : Walk (List ValidationResult) := do
  let quads ← read (self.data.quadsForPattern none (some self.sh.shape) none)
  quads.foldlM (fun results quad => match self.shapes.byNode quad.object with
    | none => return results
    | some idx => return results ++ (← self.validateShape idx quad.subject 0)) []

/-- Validates every targeted shape. -/
def validateAll : Walk Report := do
  let results ← self.shapes.targeted.foldlM (fun results idx => do
    let focusNodes ← self.focusNodes idx
    let results ← focusNodes.foldlM (fun results focus => return results ++ (← self.validateShape idx focus 0)) results
    return results ++ (← self.uniqueValuesFor idx focusNodes)) []
  return Report.new (results ++ (← self.dataDeclaredTargets))

/-- Evaluates what compares focus nodes over all those of a shape, if it was not done before. -/
def uniqueOnce (done : List ShapeIdx) (results : List ValidationResult) (idx : ShapeIdx) : Walk (List ShapeIdx × List ValidationResult) :=
  if idx ∈ done then return (done, results) else do
    let shape ← self.shapes.shape idx
    if !shape.constraints.any (fun constraint => match constraint with | .uniqueValuesFor _ => true | _ => false) then
      return (idx :: done, results)
    let all ← self.focusNodes idx
    return (idx :: done, results ++ (← self.uniqueValuesFor idx all))

/-- Validates a chosen set of focus nodes against a chosen set of shapes. -/
def validateSelected (work : List (ShapeIdx × TermId)) : Walk Report := do
  let results ← work.foldlM (fun results w => return results ++ (← self.validateShape w.1 w.2 0)) []
  let st ← work.foldlM (fun st w => self.uniqueOnce st.1 st.2 w.1) ([], results)
  return Report.new st.2

end Validator

end Holos.Shacl
