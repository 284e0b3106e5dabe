import Holos.Lib.Assoc
import Holos.Sparql.Meaning
/-!
# `SERVICE` from local data

An endpoint names a dataset held here. The handler is given a pattern and not a query, and wraps
it in a selection of what it binds; which variables these are is found by walking the pattern.
-/

namespace Holos.Engine.Service

open Sparql Lib

/-- A variable, where it is not there yet. What a blank node stands for is no variable of the query. -/
def push (out : List Variable) (v : Variable) : List Variable := if v.isNamed ∧ v ∉ out then out ++ [v] else out

def fromTerm (out : List Variable) : TermPattern → List Variable
  | .var v => push out v
  | _ => out

def fromName (out : List Variable) : NamedNodePattern → List Variable
  | .var v => push out v
  | .namedNode _ => out

def collectVariables : GraphPattern → List Variable → List Variable
  | .bgp patterns, out => patterns.foldl (fun out p => fromName (fromTerm (fromTerm out p.subject) p.object) p.predicate) out
  | .path subject _ object, out => fromTerm (fromTerm out subject) object
  | .join left right, out => collectVariables right (collectVariables left out)
  | .union left right, out => collectVariables right (collectVariables left out)
  | .minus left right, out => collectVariables right (collectVariables left out)
  | .leftJoin left right _, out => collectVariables right (collectVariables left out)
  | .filter _ inner, out => collectVariables inner out
  | .distinct inner, out => collectVariables inner out
  | .reduced inner, out => collectVariables inner out
  | .slice inner _ _, out => collectVariables inner out
  | .orderBy inner _, out => collectVariables inner out
  | .graph name inner, out => collectVariables inner (fromName out name)
  | .extend inner v _, out => push (collectVariables inner out) v
  | .project _ vars, out => vars.foldl push out
  | .group _ vars aggregates, out => aggregates.foldl (fun out a => push out a.1) (vars.foldl push out)
  | .values vars _, out => vars.foldl push out
  | .service name inner _, out => collectVariables inner (fromName out name)

/-- Every variable a pattern mentions, in a stable order. -/
def patternVariables (pattern : GraphPattern) : List Variable := collectVariables pattern []

/-- The rows a dataset answers a pattern with. `execute` is the evaluator, which takes a `SERVICE`
inside the pattern to this handler again; `none` is its failure. -/
def evaluateAgainst (execute : RdfDataset → Query → Option (List TermRow)) (D : RdfDataset) (pattern : GraphPattern) :
    Option (List TermRow) :=
  execute D (.select none (.project pattern (patternVariables pattern)))

/-- Serves a `SERVICE` clause; an endpoint that was not registered fails. -/
def handle (endpoints : List (NamedNode × RdfDataset)) (execute : RdfDataset → Query → Option (List TermRow))
    (name : NamedNode) (pattern : GraphPattern) : Option (List TermRow) :=
  match value name endpoints with
  | none => none
  | some D => evaluateAgainst execute D pattern

end Holos.Engine.Service
