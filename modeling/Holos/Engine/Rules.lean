import Holos.Engine.Access
/-!
# Forward rules

A rule is a `CONSTRUCT`. `materialise` evaluates every rule and inserts what is new into one graph,
again and again until a round adds nothing; a round cap and a budget refuse a run that does not get
there. How a query is evaluated is not said here: it is a function of the dataset the query reads.
-/

namespace Holos.Engine.Rules

open Lib

/-- A failure, or a run refused for what it would cost. -/
inductive Failure where
  | engine (e : EngineError)
  | refused (message : String)
deriving DecidableEq, Repr

instance : OfStorage Failure := ⟨fun e => .engine (.storage e)⟩

/-- What a query says of the graphs it reads; no named graphs means all of them. -/
structure QueryOptions where
  defaultGraphs : Option (List GraphName)

/-- What a rule body reads: the default graph and the derived graph, merged. -/
def reading (graph : NamedNode) : QueryOptions := ⟨some [.defaultGraph, .namedNode graph]⟩

/-- What a query is evaluated over: the merge its default graph is, and the named graphs. -/
structure Dataset where
  defaultGraph : List Triple
  namedGraphs : List Quad

inductive QueryResults where
  | graph (triples : List (Except EngineError Triple))
  | other

/-- The query pipeline, from the text of a query and the dataset it reads. -/
abbrev Evaluate := String → Dataset → Except EngineError QueryResults

structure Rule where
  name : String
  text : String
deriving DecidableEq, Repr

structure RuleSet where
  rules : List Rule

/-- What a materialisation did. -/
structure Derived where
  added : Nat
  rounds : Nat
deriving DecidableEq, Repr

variable {B : Backend} {ρ : Type}

/-- The graphs a query reads, as the session's view shows them. -/
def readDataset (options : QueryOptions) : Eff EngineError (World B ρ) Dataset := Eff.mapError .view do
  let defaultGraph ← (options.defaultGraphs.getD [.defaultGraph]).foldlM
    (fun triples graph => do return triples ++ (← visibleQuads (some graph)).map Quad.triple) []
  let named := (← visibleQuads none).filter (fun quad => quad.graphName ≠ .defaultGraph)
  return ⟨defaultGraph, named⟩

def queryWith (evaluate : Evaluate) (query : String) (options : QueryOptions) : Eff EngineError (World B ρ) QueryResults := do
  let dataset ← readDataset options
  match evaluate query dataset with
  | .ok results => return results
  | .error e => throw e

/-- A rule that fails names itself. -/
def Rule.blame (rule : Rule) : EngineError → EngineError
  | .badRequest why => .badRequest s!"{rule.name}: {why}"
  | other => other

/-- Up to the first that could not be had. -/
def collect (fresh : List Triple) : List (Except EngineError Triple) → Except EngineError (List Triple)
  | [] => .ok fresh
  | .ok triple :: triples => collect (fresh ++ [triple]) triples
  | .error e :: _ => .error e

/-- One rule, evaluated: what it derives is put behind what the round has already. -/
def Rule.evaluate (rule : Rule) (evaluate : Evaluate) (options : QueryOptions) (fresh : List Triple) :
    Eff Failure (World B ρ) (List Triple) := Eff.mapError .engine do
  match ← Eff.mapError rule.blame (queryWith evaluate rule.text options) with
  | .graph triples =>
    match collect fresh triples with
    | .ok fresh => return fresh
    | .error e => throw e
  | .other => throw (.badRequest s!"{rule.name} did not produce triples, which a CONSTRUCT always does")

/-- A round counts the triples that were new, and the run counts them all. -/
def insertFresh (graph : NamedNode) (budget : Nat) (counts : Nat × Nat) (triple : Triple) : Eff Failure (World B ρ) (Nat × Nat) := do
  if ← World.insert (triple.inGraph (.namedNode graph)) then
    let added := counts.2 + 1
    if added > budget then
      throw (.refused s!"the rules derived more than {budget} facts. Raise the budget with --max-derived, or narrow the rules.")
    return (counts.1 + 1, added)
  else return counts

section
variable (evaluate : Evaluate) (rules : RuleSet) (graph : NamedNode) (budget maxRounds : Nat)

/-- One round. The store is read for every rule before anything is inserted. -/
def round (added : Nat) : Eff Failure (World B ρ) (Nat × Nat) := do
  let fresh ← rules.rules.foldlM (fun fresh rule => rule.evaluate evaluate (reading graph) fresh) []
  fresh.foldlM (insertFresh graph budget) (0, added)

/-- The rounds still allowed, by recursion on how many those are. -/
def rounds : Nat → Nat → Eff Failure (World B ρ) Derived
  | 0, _ => throw (.refused s!"the rules were still deriving after {maxRounds} rounds. A monotone rule set over a finite store terminates, so this is either far larger than the round cap or a rule that derives for ever. Raise the cap, or look for a rule whose head repeats its body.")
  | left + 1, added => do
    let (thisRound, added) ← round evaluate rules graph budget added
    if thisRound = 0 then return ⟨added, maxRounds - left⟩
    else rounds left added

/-- Runs rules to a fixpoint, adding what they derive to a graph. No session is asked whether it may
write there. -/
def materialise : Eff Failure (World B ρ) Derived := rounds evaluate rules graph budget maxRounds maxRounds 0

end

end Holos.Engine.Rules
