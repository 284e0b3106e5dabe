import Holos.Lib.Levels
import Holos.Lib.PathExpr
import Holos.ShaclEngine.Graph
import Mathlib.Data.Fintype.Prod
/-!
# Paths over the engine's graph

A path is followed from every focus node at once. What is followed are pairs of a focus node's index
and a node it reached, sorted between the steps so that the graph is probed in order. The pairs are
then cut into one row for each focus node.
-/

namespace Holos.ShaclEngine

open Lib

abbrev Path := PathExpr TermId

/-- The index of a focus node. -/
abbrev Origin := Fin (2 ^ 32)

/-- An origin, and a node it reached. -/
abbrev Pair := Origin × TermId

/-- `sort_unstable` and `dedup`. -/
def normalise (pairs : List Pair) : List Pair := sortDedup toLex pairs

/-- One probe, for the pairs that share a node. -/
def probeNode (data : Graph) (p : TermId) (reverse : Bool) : List (TermId ×ₗ Origin) → List Pair
  | [] => []
  | first :: rest =>
    let node := (ofLex first).1
    (if reverse then data.subjects p node else data.objects node p).flatMap (fun t =>
      (first :: rest).map (fun o => ((ofLex o).2, t)))

/-- Every pair, one predicate further. The pairs are probed in the order of their nodes. -/
def probe (data : Graph) (p : TermId) (reverse : Bool) (input : List Pair) : List Pair :=
  let byNode := (input.map (fun pair => toLex (pair.2, pair.1))).mergeSort (fun a b => decide (a ≤ b))
  (groups (fun o => (ofLex o).1) byNode).flatMap (probeNode data p reverse)

/-- Transitive closure over all the pairs at once. Pairs that were expanded are dropped, so a cycle ends. -/
def closure (walk : List Pair → Option (List Pair)) (rounds : Nat) (input : List Pair) : Option (List Pair) :=
  levels normalise walk rounds [] input []

/-- The steps of a sequence, with what they reach put in order in between. -/
def inOrder : List (List Pair → Option (List Pair)) → List Pair → Option (List Pair)
  | [], frontier => some frontier
  | step :: steps, frontier => do
    let next := normalise (← step frontier)
    if next.isEmpty then return []
    inOrder steps next

/-- What each of several walks adds. -/
def eachAdds : List (List Pair → Option (List Pair)) → List Pair → Option (List Pair)
  | [], _ => some []
  | walk :: walks, input => do return (← walk input) ++ (← eachAdds walks input)

/-- A closure adds a pair in each round but the last, and there are no more pairs than these. -/
def rounds : Nat := 2 ^ 64 + 1

mutual

/-- What following a path adds. -/
def walk (data : Graph) : Path → Bool → List Pair → Option (List Pair)
  | .predicate p, reverse, input => some (probe data p reverse input)
  | .inverse inner, reverse, input => walk data inner (!reverse) input
  | .sequence steps, reverse, input =>
    inOrder (if reverse then (walks data steps reverse).reverse else walks data steps reverse) input
  | .alternative alts, reverse, input => eachAdds (walks data alts reverse) input
  | .zeroOrMore inner, reverse, input => do return input ++ (← closure (walk data inner reverse) rounds input)
  | .oneOrMore inner, reverse, input => closure (walk data inner reverse) rounds input
  | .zeroOrOne inner, reverse, input => do return input ++ (← walk data inner reverse input)

def walks (data : Graph) : List Path → Bool → List (List Pair → Option (List Pair))
  | [], _ => []
  | path :: paths, reverse => walk data path reverse :: walks data paths reverse

end

/-! ## Rows -/

/-- Focus nodes and their values, in compressed rows. -/
structure ValueSets where
  focus : List TermId
  /-- Where each row starts, and the last one ends, as 32-bit numbers. -/
  offsets : List Nat
  values : List TermId
deriving DecidableEq, Repr

structure ValueRow where
  focus : TermId
  values : List TermId
deriving DecidableEq, Repr

namespace ValueSets

/-- `none` is a panic. -/
def row (v : ValueSets) (i : Nat) : Option ValueRow := do
  let start ← v.offsets[i]?
  let stop ← v.offsets[i + 1]?
  let focus ← v.focus[i]?
  if start ≤ stop ∧ stop ≤ v.values.length then return ⟨focus, (v.values.take stop).drop start⟩ else none

/-- `with_capacity`. -/
def empty : ValueSets := ⟨[], [0], []⟩

/-- `start_row`, the pushes and `end_row`: the values of a row are made a set. -/
def pushRow (v : ValueSets) (focus : TermId) (values : List TermId) : ValueSets :=
  let values := v.values ++ sortDedup id values
  ⟨v.focus ++ [focus], v.offsets ++ [values.length % 2 ^ 32], values⟩

end ValueSets

/-- Cuts pairs in the order of their origins into the rows of the focus nodes from the `i`th on. -/
def rowsFrom (reached : List Pair) (v : ValueSets) : Nat → List TermId → ValueSets
  | _, [] => v
  | i, f :: focus =>
    let mine := fun pair : Pair => decide (pair.1 = Fin.ofNat (2 ^ 32) i)
    rowsFrom (reached.dropWhile mine) (v.pushRow f ((reached.takeWhile mine).map (·.2))) (i + 1) focus

/-- The pairs a walk starts from. -/
def startPairs (focus : List TermId) : List Pair := focus.zipIdx.map (fun fi => (Fin.ofNat (2 ^ 32) fi.2, fi.1))

def evalSetsDir (data : Graph) (path : Path) (reverse : Bool) (focus : List TermId) : Option ValueSets := do
  let reached ← walk data path reverse (startPairs focus)
  return rowsFrom (normalise reached) .empty 0 focus

/-- Follows a path from every focus node. -/
def evalSets (data : Graph) (path : Path) (focus : List TermId) : Option ValueSets := evalSetsDir data path false focus

/-- The nodes one focus node reaches, and the nodes that reach it. -/
def eval (data : Graph) (path : Path) (focus : TermId) : Option (List TermId) := do
  let sets ← evalSetsDir data path false [focus]
  return (← sets.row 0).values

def evalInverse (data : Graph) (path : Path) (node : TermId) : Option (List TermId) := do
  let sets ← evalSetsDir data path true [node]
  return (← sets.row 0).values

end Holos.ShaclEngine
