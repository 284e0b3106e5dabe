import Holos.Sparql.Algebra
import Mathlib.Data.List.FinRange
import Mathlib.Order.Defs.LinearOrder
/-!
# Reordering basic graph patterns

Each basic graph pattern is put in a greedy order: the pattern of the smallest estimate that has
a variable in common with what is already chosen, and the smallest of all where none has. The
estimate is told, as a place in an order.
-/

namespace Holos.Stats

open Sparql

/-- The variables of a triple pattern that stand at one of its three places. -/
def variablesOf (pattern : TriplePattern) : List Variable :=
  let ofTerm : TermPattern → List Variable
    | .var v => [v]
    | _ => []
  ofTerm pattern.subject ++ ofTerm pattern.object ++
    match pattern.predicate with
    | .var v => [v]
    | .namedNode _ => []

section
variable {κ : Type} [LinearOrder κ]

/-- The first of the smallest. -/
def firstMin {ι : Type} (estimates : ι → κ) (x : ι) (xs : List ι) : ι :=
  xs.foldl (fun m y => if estimates y < estimates m then y else m) x

/-- Among those that share a variable with what is already chosen the smallest, or the smallest of all. -/
def pickNext {ι : Type} (estimates : ι → κ) (vars : ι → List Variable) (r : ι) (remaining chosen : List ι) (bound : List Variable) : ι :=
  let connected := (r :: remaining).filter fun i => (vars i).any (· ∈ bound)
  match chosen, connected with
  | _ :: _, c :: connected => firstMin estimates c connected
  | _, _ => firstMin estimates r remaining

/-- The loop: as many rounds as there are patterns, each of which takes one. -/
def grow {ι : Type} [DecidableEq ι] (estimates : ι → κ) (vars : ι → List Variable) :
    Nat → List ι → List ι → List Variable → List ι
  | 0, _, chosen, _ => chosen
  | _ + 1, [], chosen, _ => chosen
  | fuel + 1, r :: remaining, chosen, bound =>
    let pick := pickNext estimates vars r remaining chosen bound
    grow estimates vars fuel ((r :: remaining).filter (· ≠ pick)) (chosen ++ [pick]) (bound ++ vars pick)

variable (estimate : TriplePattern → κ)

/-- Greedy, connectivity-aware ordering. -/
def order (patterns : List TriplePattern) : List TriplePattern :=
  if patterns.length < 2 then patterns
  else
    (grow (fun i => estimate (patterns.get i)) (fun i => variablesOf (patterns.get i)) patterns.length
      (List.finRange patterns.length) [] []).map patterns.get

/-- Walks the algebra, reordering every `bgp` and leaving everything else alone. -/
def rewrite : GraphPattern → GraphPattern
  | .bgp patterns => .bgp (order estimate patterns)
  | .join left right => .join (rewrite left) (rewrite right)
  | .leftJoin left right expression => .leftJoin (rewrite left) (rewrite right) expression
  | .filter expr inner => .filter expr (rewrite inner)
  | .union left right => .union (rewrite left) (rewrite right)
  | .graph name inner => .graph name (rewrite inner)
  | .extend inner v expression => .extend (rewrite inner) v expression
  | .minus left right => .minus (rewrite left) (rewrite right)
  | .orderBy inner expression => .orderBy (rewrite inner) expression
  | .project inner vars => .project (rewrite inner) vars
  | .distinct inner => .distinct (rewrite inner)
  | .reduced inner => .reduced (rewrite inner)
  | .slice inner start length => .slice (rewrite inner) start length
  | .group inner vars aggregates => .group (rewrite inner) vars aggregates
  | .path subject path object => .path subject path object
  | .values vars bindings => .values vars bindings
  | .service name inner silent => .service name inner silent

/-- Rewrites every basic graph pattern in a query into estimated-cardinality order. -/
def reorderQuery : Query → Query
  | .select dataset pattern => .select dataset (rewrite estimate pattern)
  | .construct template dataset pattern => .construct template dataset (rewrite estimate pattern)
  | .describe dataset pattern => .describe dataset (rewrite estimate pattern)
  | .ask dataset pattern => .ask dataset (rewrite estimate pattern)

end

end Holos.Stats
