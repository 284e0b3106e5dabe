import Holos.ShaclEngine.GraphTheorems
/-!
# Inferring triples with rules

Rules fire in the order of their shapes and then their own. What is inferred at one level is kept
pending, so that rules of the same order do not see each other's triples, and is merged into the graph
where the order moves on. The focus nodes of a shape, conformance, node expressions and queries are
the validator's, and parameters here; so is the order, any linear one.
-/

namespace Holos.ShaclEngine

open Lib

variable {O : Type}

/-- What a rule builds: every triple of what three node expressions come to, or what a query constructs. The query of a broken
rule did not compile. -/
inductive RuleKind where
  | triple (subject predicate object : TermId)
  | sparql (query : String)
  | broken (why : String)

/-- A rule, its `sh:order` and its conditions. -/
structure Rule (O : Type) where
  node : TermId
  kind : RuleKind
  order : O
  deactivated : Bool
  conditions : List TermId

structure Shape (O : Type) where
  node : TermId
  order : O
  deactivated : Bool
  rules : List (Rule O)

structure Evaluator where
  focusNodesOf : TermId → Graph → Except String (List TermId)
  nodeConforms : TermId → TermId → Graph → Except String Bool
  /-- The value of a node expression for a focus node. -/
  eval : TermId → TermId → Graph → Except String (List TermId)
  runConstruct : String → TermId → Graph → Except String (List Row)
  isIri : TermId → Bool
  toOxrdf : TermId → String

/-- A shape's order, then a rule's. -/
abbrev Level (O : Type) := O ×ₗ O

def levelOf (shape : Shape O) (rule : Rule O) : Level O := toLex (shape.order, rule.order)

namespace Evaluator

variable (ev : Evaluator)

/-- What one rule infers for one focus node. A predicate that is no IRI is dropped. -/
def fire (rule : Rule O) (focus : TermId) (data : Graph) : Except String (List Row) :=
  match rule.kind with
  | .triple subject predicate object => do
    let subjects ← ev.eval subject focus data
    let predicates ← ev.eval predicate focus data
    let objects ← ev.eval object focus data
    return subjects.flatMap (fun s => (predicates.filter ev.isIri).flatMap (fun p => objects.map (fun o => ⟨s, p, o⟩)))
  | .broken why => .error s!"rule on {ev.toOxrdf rule.node} cannot run: {why}"
  | .sparql query => ev.runConstruct query focus data

def conformsToAll (node : TermId) (data : Graph) : List TermId → Except String Bool
  | [] => return true
  | shapeNode :: conditions => do
    if !(← ev.nodeConforms node shapeNode data) then return false
    conformsToAll node data conditions

/-- What a rule infers for one focus node, if it conforms to the rule's conditions. -/
def fireFor (data : Graph) (rule : Rule O) (node : TermId) : Except String (List Row) := do
  if !(← ev.conformsToAll node data rule.conditions) then return []
  ev.fire rule node data

variable [LinearOrder O]

/-- What one rule of a shape infers at a level. -/
def fireAt (data : Graph) (level : Level O) (shape : Shape O) (focus : List TermId) (rule : Rule O) : Except String (List Row) := do
  if rule.deactivated || levelOf shape rule ≠ level then return []
  focus.foldlM (fun out node => do return out ++ (← ev.fireFor data rule node)) []

/-- What a shape's rules of a level infer. -/
def runShape (data : Graph) (work : Level O × Shape O) : Except String (List Row) := do
  let focus ← ev.focusNodesOf work.2.node data
  work.2.rules.foldlM (fun out rule => do return out ++ (← ev.fireAt data work.1 work.2 focus rule)) []

end Evaluator

/-- A graph with more triples, unless there are too many. -/
def merge (maxTriples : Nat) (base : Graph) (extra : List Row) : Except String Graph :=
  if extra.isEmpty then .ok base
  else if base.len + extra.length > maxTriples then
    .error s!"rules would infer more than {maxTriples} triples; raise the limit or narrow the rules"
  else .ok (Graph.build (base.iter ++ extra))

/-- Every active rule's level, with its shape. -/
def unordered (shapes : List (Shape O)) : List (Level O × Shape O) :=
  (shapes.filter (fun shape => !shape.deactivated)).flatMap (fun shape =>
    (shape.rules.filter (fun rule => !rule.deactivated)).map (fun rule => (levelOf shape rule, shape)))

variable [LinearOrder O]

/-- The same in execution order. -/
def work (shapes : List (Shape O)) : List (Level O × Shape O) := (unordered shapes).mergeSort (fun a b => decide (a.1 ≤ b.1))

/-- A pass under way: the graph the rules see, the level they are at, and what they inferred at it. -/
structure Pass (O : Type) where
  current : Graph
  level : Level O
  pending : List Row

/-- Crossing to another level makes everything inferred so far visible. -/
def Pass.crossing (maxTriples : Nat) (pass : Pass O) (level : Level O) : Except String (Pass O) := do
  if level ≠ pass.level then return ⟨← merge maxTriples pass.current pass.pending, level, []⟩
  return pass

def Pass.step (ev : Evaluator) (maxTriples : Nat) (pass : Pass O) (next : Level O × Shape O) : Except String (Pass O) := do
  let pass ← pass.crossing maxTriples next.1
  return { pass with pending := pass.pending ++ (← ev.runShape pass.current next) }

/-- Applies every rule once. -/
def applyBounded (ev : Evaluator) (shapes : List (Shape O)) (maxTriples : Nat) (data : Graph) : Except String Graph :=
  match work shapes with
  | [] => .ok data
  | first :: rest => do
    let pass ← (first :: rest).foldlM (Pass.step ev maxTriples) ⟨data, first.1, []⟩
    merge maxTriples pass.current pass.pending

def defaultMaxTriples : Nat := 50000000

/-- Applies the rules until nothing new is inferred, in at most `left` more rounds. -/
def iterateFrom (ev : Evaluator) (shapes : List (Shape O)) (maxRounds : Nat) : Nat → Graph → Except String Graph
  | 0, current => .ok current
  | left + 1, current => do
    let next ← applyBounded ev shapes defaultMaxTriples current
    if next.len = current.len then return next
    if left = 0 then throw s!"rules did not reach a fixpoint in {maxRounds} rounds; the rule set may infer new terms without end"
    iterateFrom ev shapes maxRounds left next

def applyIterated (ev : Evaluator) (shapes : List (Shape O)) (maxRounds : Nat) (data : Graph) : Except String Graph :=
  iterateFrom ev shapes maxRounds maxRounds data

end Holos.ShaclEngine
