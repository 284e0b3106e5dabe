import Holos.Lib.MergeSort
import Holos.Lib.PathExpr
import Holos.Lib.Worklist
import Holos.Shacl.Access
/-!
# Property paths

A path of a shapes graph is compiled into a list of paths that refer to each other by index, and
walked from a node of the data graph.
-/

namespace Holos.Shacl

open Lib

/-- The vocabulary, as term ids. -/
structure Sh where
  rdfType : TermId
  rdfFirst : TermId
  rdfRest : TermId
  rdfNil : TermId
  rdfsSubclassOf : TermId
  inversePath : TermId
  alternativePath : TermId
  zeroOrMorePath : TermId
  oneOrMorePath : TermId
  zeroOrOnePath : TermId
  shape : TermId
  uniqueValuesForComponent : TermId

/-- Index of a path. -/
abbrev PathIdx := Nat

inductive Path where
  | predicate (p : TermId)
  | inverse (inner : PathIdx)
  | sequence (steps : List PathIdx)
  | alternative (options : List PathIdx)
  | zeroOrMore (inner : PathIdx)
  | oneOrMore (inner : PathIdx)
  | zeroOrOne (inner : PathIdx)
deriving DecidableEq, Repr

/-- The paths a path refers to. -/
def Path.inner : Path → List PathIdx
  | .predicate _ => []
  | .inverse i | .zeroOrMore i | .oneOrMore i | .zeroOrOne i => [i]
  | .sequence is | .alternative is => is

/-! ## Compiling -/

namespace Compiler

variable {B : Backend}

/-- Keeps a path. Its index is a `u32`, and the last one is given to whatever does not fit. -/
def pushPath (path : Path) : Eff ShaclError (List Path) PathIdx :=
  .of (fun paths => some (.ok (min paths.length (2 ^ 32 - 1)), paths ++ [path]))

def read {α : Type} (r : Except StorageError α) : Eff ShaclError (List Path) α := .reads (fun _ => World.failed r)

/-- Compiles a path expression, down to where `left` runs out. -/
def compilePath (graph : GraphView B) (sh : Sh) : Nat → TermId → Eff ShaclError (List Path) PathIdx
  | 0, _ => throw (.illFormedShape "property path nests more than 32 deep")
  | left + 1, node => do
    -- an IRI is a predicate; anything else is a blank-node expression
    if node.tag ≠ .blankNode then return ← pushPath (.predicate node)
    let members := fun head => read (graph.list head sh.rdfFirst sh.rdfRest sh.rdfNil)
    -- a list is a sequence, whatever else it is
    if (← read (graph.object node sh.rdfFirst)).isSome then
      let compiled ← (← members node).foldlM (fun compiled m => return compiled ++ [← compilePath graph sh left m]) []
      return ← pushPath (.sequence compiled)
    if let some inner ← read (graph.object node sh.inversePath) then
      return ← pushPath (.inverse (← compilePath graph sh left inner))
    if let some inner ← read (graph.object node sh.zeroOrMorePath) then
      return ← pushPath (.zeroOrMore (← compilePath graph sh left inner))
    if let some inner ← read (graph.object node sh.oneOrMorePath) then
      return ← pushPath (.oneOrMore (← compilePath graph sh left inner))
    if let some inner ← read (graph.object node sh.zeroOrOnePath) then
      return ← pushPath (.zeroOrOne (← compilePath graph sh left inner))
    if let some list ← read (graph.object node sh.alternativePath) then
      let compiled ← (← members list).foldlM (fun compiled m => return compiled ++ [← compilePath graph sh left m]) []
      return ← pushPath (.alternative compiled)
    throw (.illFormedShape "sh:path is a blank node with no recognised path expression")

/-- Paths nest 32 deep. -/
def nesting : Nat := 33

end Compiler

/-! ## Walking -/

/-- A walk: `none` where there is no such path, or more to do. -/
abbrev Walk (α : Type) := ExceptT ShaclError Option α

namespace Validator

variable {B : Backend}

def read {α : Type} (r : Except StorageError α) : Walk α := ExceptT.mk (some (World.failed r))

/-- One path by index. -/
def path (paths : List Path) (idx : PathIdx) : Walk Path := ExceptT.mk (paths[idx]?.map .ok)

/-- Transitive closure, with a visited set so a cycle in the data terminates. -/
def closure (walk : TermId → List TermId → Walk (List TermId)) (n : Nat) (start : TermId) (out : List TermId) : Walk (List TermId) :=
  drain (fun node => walk node []) n [] [start] out

/-- Adds the nodes a path leads to, given how the paths it refers to are walked. -/
def walkPath (paths : List Path) (data : GraphView B) (walk : PathIdx → TermId → List TermId → Walk (List TermId)) (n : Nat)
    (start : TermId) (out : List TermId) : Path → Walk (List TermId)
  | .predicate p => return out ++ (← read (data.objects start p))
  | .inverse inner => do
    match ← path paths inner with
    | .predicate p => return out ++ (← read (data.subjects p start))
    | _ => throw (.unsupported "sh:inversePath over a compound path")
  | .sequence steps => do
    let current ← steps.foldlM (fun current step => do
      let next ← current.foldlM (fun next node => walk step node next) []
      return sortDedup id next) [start]
    return out ++ current
  | .alternative options => options.foldlM (fun out option => walk option start out) out
  | .zeroOrMore inner => closure (walk inner) n start (out ++ [start])
  | .oneOrMore inner => closure (walk inner) n start out
  | .zeroOrOne inner => walk inner start (out ++ [start])

def walk (paths : List Path) (data : GraphView B) : Nat → PathIdx → TermId → List TermId → Walk (List TermId)
  | 0, _, _, _ => ExceptT.mk none
  | n + 1, idx, start, out => do walkPath paths data (walk paths data n) n start out (← path paths idx)

/-- Every node reachable from `start` along a path. -/
def evalPath (paths : List Path) (data : GraphView B) (n : Nat) (idx : PathIdx) (start : TermId) : Walk (List TermId) := do
  return sortDedup id (← walk paths data n idx start [])

end Validator

end Holos.Shacl
