import Holos.Holon.Registry
/-!
# Branching a holon

A branch copies the scene and the boundary, registers the copy as a holon of its own, gives it
its parent's version, and opens its event log with where it came from.
-/

namespace Holos

open Lib

/-- Where a branch came from. -/
structure BranchPoint where
  parent : NamedNode
  version : Nat
deriving DecidableEq, Repr

variable {B : Backend} {ρ : Type}

/-- Every quad of a named graph, with another graph's name. -/
def readGraph (source target : NamedNode) : Eff HolonError (World B ρ) (List Quad) := do
  match ← World.lookupTerm (.namedNode source) with
  | none => return []
  | some source =>
    (← World.quadsForPattern none none none (.named source)).foldlM
      (fun out encoded => do return out ++ [{ ← World.decodeQuad encoded with graphName := .namedNode target }]) []

/-- Copies every quad of one named graph into another. A branch of an empty scene has an empty
scene rather than none. -/
def copyGraph (source target : NamedNode) : Eff HolonError (World B ρ) Unit := do
  let quads ← readGraph source target
  if quads.isEmpty then let _ ← World.insertNamedGraph (.namedNode target)
  else quads.foldlM (fun _ quad => do let _ ← World.insert quad) ()

/-- The quads that open a branch's event log. -/
def branchQuads (now : Int) (child : Holon) (point : BranchPoint) : List Quad :=
  let say := fun p o => (⟨.namedNode child.id, holos p, o, .namedNode child.events⟩ : Quad)
  [say "branchedFrom" (.namedNode point.parent),
    say "branchedAtVersion" (.literal (.newTyped (toString point.version) Xsd.integer)),
    say "branchedAtTime" (.literal (.newTyped (toString now) Xsd.integer))]

/-- Opens the branch's event log with why it exists. -/
def recordBranchPoint (now : Int) (child : Holon) (point : BranchPoint) : Eff HolonError (World B ρ) Unit :=
  (branchQuads now child point).foldlM (fun _ quad => do let _ ← World.insert quad) ()

/-- The holon a branch makes. -/
def Holon.child (source : Holon) (newId : NamedNode) : Holon :=
  { Holon.new newId with admission := source.admission, projections := source.projections }

def branchBody (now : Int) (source : Holon) (newId : NamedNode) : Eff HolonError (World B ρ) Holon := do
  let version ← Registry.version source
  let child := source.child newId
  copyGraph source.scene child.scene
  copyGraph source.boundary child.boundary
  Registry.register true child
  Registry.setVersion true child version
  recordBranchPoint now child ⟨source.id, version⟩
  return child

/-- Creates a new holon starting from another's current state. -/
def branch (lands : Bool) (now : Int) (source : Holon) (newId : NamedNode) : Eff HolonError (World B ρ) Holon := do
  match ← Registry.load newId with
  | some _ => throw (.invalid s!"<{newId}> is already registered; branching onto it would merge two scenes")
  | none => inCommit lands (branchBody now source newId)

/-! ## Where a branch came from -/

/-- Takes one quad of an event log into what has been read of a branch: the last of each is kept, and
a version that is no number is read as none. -/
def BranchPoint.take (acc : Option NamedNode × Option Nat) (quad : Quad) : Option NamedNode × Option Nat :=
  if quad.predicate = holos "branchedFrom" then
    match quad.object with
    | .namedNode n => (some n, acc.2)
    | _ => acc
  else if quad.predicate = holos "branchedAtVersion" then
    match quad.object with
    | .literal l => (acc.1, Registry.parseU64 l.value)
    | _ => acc
  else acc

/-- Half a record is read as none. -/
def BranchPoint.ofRead : Option NamedNode × Option Nat → Option BranchPoint
  | (some parent, some version) => some ⟨parent, version⟩
  | _ => none

/-- Where a holon was branched from, if it was. -/
def branchPoint (holon : Holon) : Eff HolonError (World B ρ) (Option BranchPoint) := do
  match ← World.lookupTerm (.namedNode holon.events) with
  | none => return none
  | some events =>
    let read ← (← World.quadsForPattern none none none (.named events)).foldlM
      (fun acc encoded => do return BranchPoint.take acc (← World.decodeQuad encoded)) (none, none)
    return BranchPoint.ofRead read

end Holos
