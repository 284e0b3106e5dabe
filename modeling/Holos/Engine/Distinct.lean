import Holos.Engine.Bindjoin.Plan
import Holos.Engine.View
import Holos.Sparql.Sequences
/-!
# `SELECT DISTINCT ?p WHERE { ?s ?p ?o }`

The store's counts of its predicates supply candidates, each confirmed by one scan of the default
graph through the session's view, and those confirmed replace the pattern as a `VALUES` table.
-/

namespace Holos.Sparql

/-- A term as a ground term, if it has no blank node. -/
def GroundTerm.ofTerm : Term → Option GroundTerm
  | .namedNode n => some (.namedNode n)
  | .blankNode _ => none
  | .literal l => some (.literal l)
  | .triple subject predicate object =>
    match subject with
    | .namedNode s => (ofTerm object).map (.triple s predicate)
    | .blankNode _ => none

/-- Replaces the pattern of a query. -/
def Query.withPattern (query : Query) (pattern : GraphPattern) : Query :=
  match query with
  | .select dataset _ => .select dataset pattern
  | .construct template dataset _ => .construct template dataset pattern
  | .describe dataset _ => .describe dataset pattern
  | .ask dataset _ => .ask dataset pattern

end Holos.Sparql

namespace Holos.Engine.Distinct

open Security Sparql

/-! ## Reads -/

/-- A store as a query reads it: what it scans are quads of one set, and no predicate is counted
twice. -/
structure Reads where
  lookupTerm : Term → Except StorageError (Option TermId)
  decodeTerm : TermId → Except StorageError (Option Term)
  predicateHistogram : List (TermId × Nat)
  quadsForPattern : Option TermId → Option TermId → Option TermId → GraphFilter → List EncodedQuad
  quads : Finset EncodedQuad
  scans : ∀ s p o graph q, q ∈ quadsForPattern s p o graph ↔
    q ∈ quads ∧ Index.matchesTriple s p o q = true ∧ Index.GraphFilter.admits graph q = true
  keyed : (predicateHistogram.map Prod.fst).Nodup

/-- A read-only, policy-filtered view of a store. -/
structure View where
  store : Reads
  policy : CompiledPolicy

namespace View

/-- Applies read policy to one quad off the index. -/
def decide (view : View) (quad : EncodedQuad) : Option (Except ViewError EncodedQuad) :=
  match view.policy.decideQuad quad Modes.read with
  | .allow => some (.ok quad)
  | .filter => none
  | .fail => some (.error .accessDenied)

/-- What a wholly denied graph answers, before any scan runs. -/
def deniedGraph (view : View) : GraphFilter → Option (List (Except ViewError EncodedQuad))
  | .named g =>
    if view.policy.graphIsWhollyDenied (some g) then
      some (match view.policy.semantics with
        | .filter => []
        | .fail => [.error .accessDenied])
    else none
  | _ => none

def internalQuadsForPattern (view : View) (subject predicate object : Option TermId) (graphName : Option (Option TermId)) :
    List (Except ViewError EncodedQuad) :=
  let graph := match graphName with
    | some none => GraphFilter.default
    | some (some g) => GraphFilter.named g
    | none => GraphFilter.anyNamed
  match view.deniedGraph graph with
  | some answer => answer
  | none => (view.store.quadsForPattern subject predicate object graph).filterMap view.decide

def decodeTerm (view : View) (id : TermId) : Except ViewError (Option Term) :=
  match view.store.decodeTerm id with
  | .ok term => .ok term
  | .error e => .error (.storage e)

end View

/-! ## The shape -/

def mentionsOnly (order : OrderExpression) (v : Variable) : Bool :=
  match order with
  | .asc e | .desc e =>
    match Bindjoin.inspectExpression e [] with
    | some found => found.all (· = v)
    | none => false

/-- A position that any term fits, by the variable it stands for. -/
def free : TermPattern → Option Variable
  | .var v => some v
  | .blankNode label => some (.blank label)
  | _ => none

/-- What is under a slice. -/
def unsliced : GraphPattern → GraphPattern
  | .slice inner _ _ => inner
  | other => other

/-- What is under an ordering by a variable alone. -/
def unordered (projected : Variable) : GraphPattern → GraphPattern
  | .orderBy inner expression =>
    if expression.all (fun e => mentionsOnly e projected) then inner else .orderBy inner expression
  | other => other

/-- The variable of a pattern's predicate, where subject and object are free, and all three are
distinct. -/
def freePredicate (triple : TriplePattern) : Option Variable :=
  match triple.predicate with
  | .namedNode _ => none
  | .var predicate =>
    match free triple.subject, free triple.object with
    | some subject, some object =>
      if subject = object ∨ subject = predicate ∨ object = predicate then none else some predicate
    | _, _ => none

/-- The predicate variable, if the pattern is of the shape. -/
def shape (pattern : GraphPattern) : Option Variable :=
  match unsliced pattern with
  | .distinct (.project inner [projected]) | .reduced (.project inner [projected]) =>
    match unordered projected inner with
    | .bgp [triple] =>
      match freePredicate triple with
      | some predicate => if predicate = projected then some predicate else none
      | none => none
    | _ => none
  | _ => none

/-- The pattern with its one basic graph pattern replaced by the table. -/
def replacePattern (table : GraphPattern) : GraphPattern → GraphPattern
  | .bgp _ => table
  | .slice inner start length => .slice (replacePattern table inner) start length
  | .distinct inner => .distinct (replacePattern table inner)
  | .reduced inner => .reduced (replacePattern table inner)
  | .project inner vars => .project (replacePattern table inner) vars
  | .orderBy inner expression => .orderBy (replacePattern table inner) expression
  | other => other

/-! ## The table -/

/-- A candidate's row, if a quad of the default graph with it is visible. -/
def confirm (view : View) (bindings : List (List (Option GroundTerm))) (candidate : TermId × Nat) :
    Except ViewError (List (List (Option GroundTerm))) :=
  match (view.internalQuadsForPattern none (some candidate.1) none (some none)).head? with
  | none => .ok bindings
  | some (.error e) => .error e
  | some (.ok _) =>
    match view.decodeTerm candidate.1 with
    | .error e => .error e
    | .ok none => .ok bindings
    | .ok (some term) =>
      match GroundTerm.ofTerm term with
      | none => .ok bindings
      | some term => .ok (bindings ++ [[some term]])

/-- The query with its single pattern replaced by the predicates visible in the default graph. -/
def materialised (view : View) (query : Query) : Except ViewError (Option Query) :=
  match query with
  | .select dataset pattern =>
    match shape pattern with
    | none => .ok none
    | some predicate => do
      let bindings ← view.store.predicateHistogram.foldlM (confirm view) []
      return some ((Query.select dataset pattern).withPattern (replacePattern (.values [predicate] bindings) pattern))
  | _ => .ok none

end Holos.Engine.Distinct
