import Holos.Engine.Bindjoin.Evaluate
import Holos.Lib.Held
/-!
# `ORDER BY … LIMIT` from a heap

`plan` recognises a slice of a projection of a sort. `topK` evaluates the body under the sort, as
ids streamed from the bind join where it accepts the body and as the evaluator's decoded rows
otherwise, and offers each row to a heap of `OFFSET + LIMIT` rows. The row that a sort key is read
from is decoded once; the rows the heap keeps are decoded at the end.

The expression evaluator is a parameter: the values it gives literals, how it orders them, and what
it makes of an expression and of a query.
-/

namespace Holos.Engine.TopK

open Sparql
open Bindjoin (inspectExpression pushNew)

/-! ## The evaluator -/

/-- A solution: a cell for each variable. -/
abbrev Solution := List (Option Term)

inductive QueryEvaluationError where
  | cancelled
  | dataset (message : String)
deriving DecidableEq, Repr

inductive EngineError where
  | evaluation (e : QueryEvaluationError)
  | view (e : ViewError)
  | badRequest (message : String)
deriving DecidableEq, Repr

inductive QueryResults where
  | solutions (vars : List Variable) (rows : List (Except EngineError Solution))
  | boolean (b : Bool)
  | graph (triples : List (Term × Term × Term))

/-- The evaluator: the value of a literal, `<` between two of them where it is defined, the order
they fall back to, an expression under substitutions, the optimiser's form of an expression, and a
query. -/
structure Evaluator where
  Value : Type
  value : Literal → Value
  partialCmp : Value → Value → Option Ordering
  lexicalCmp : Value → Value → Ordering
  evaluateExpression : Expression → List (Variable × Term) → Option Term
  converts : Expression → Bool
  evaluate : Query → Except EngineError QueryResults

/-! ## Recognising the shape -/

/-- Where one sort key comes from. -/
inductive Source where
  | var (v : Variable)
  | expression (expression : Expression) (needs : List Variable)

/-- One `ORDER BY` condition. -/
structure Key where
  source : Source
  descending : Bool

/-- A recognised query: the body projected to what the output and the keys need, what the query
projects, its keys and its slice. -/
structure Plan where
  inner : Query
  projected : List Variable
  keys : List Key
  start : Nat
  length : Option Nat

/-- The most rows a slice may ask for and still be answered here. -/
def maxHeld : Nat := 2 ^ 20

/-- Rows the heap would hold, or `none` for a sort it cannot answer. -/
def Plan.held (plan : Plan) : Option Nat := do
  let held := plan.start + (← plan.length)
  if held > 0 ∧ held ≤ maxHeld then some held else none

/-- The query taken apart, without yet looking at the keys. -/
structure Shape where
  body : GraphPattern
  vars : List Variable
  expression : List OrderExpression
  start : Nat
  length : Option Nat
  dataset : Option QueryDataset

def shape : Query → Option Shape
  | .select dataset pattern =>
    let (projection, start, length) := match pattern with
      | .slice inner start length => (inner, start, length)
      | other => (other, 0, none)
    match projection with
    | .project (.orderBy body expression) vars =>
      -- a `LIMIT 0` answers nothing and is not worth a special path
      if length = some 0 then none else some ⟨body, vars, expression, start, length, dataset⟩
    | _ => none
  | _ => none

/-- The sort conditions as keys, and the variables they need the body to project. -/
def keysOf (converts : Expression → Bool) : List OrderExpression → List Variable → Option (List Key × List Variable)
  | [], needed => some ([], needed)
  | order :: orders, needed => do
    let (expression, descending) := match order with
      | .asc e => (e, false)
      | .desc e => (e, true)
    let mentions ← inspectExpression expression []
    let source ← match expression with
      | .var v => some (Source.var v)
      | other => if converts other then some (.expression other mentions) else none
    let (keys, needed) ← keysOf converts orders (mentions.foldl pushNew needed)
    return (⟨source, descending⟩ :: keys, needed)

/-- Recognises the shape, or declines. -/
def plan (converts : Expression → Bool) (query : Query) : Option Plan := do
  let shape ← shape query
  let (keys, needed) ← keysOf converts shape.expression shape.vars
  return ⟨.select shape.dataset (.project shape.body needed), shape.vars, keys, shape.start, shape.length⟩

/-! ## The order of keys -/

section Order
variable (ev : Evaluator)

/-- A term as the evaluator compares it. -/
inductive ExpressionTerm where
  | namedNode (iri : NamedNode)
  | blankNode (id : String)
  | literal (value : ev.Value)
  | triple (subject : NamedOrBlankNode) (predicate : NamedNode) (object : ExpressionTerm)

def ExpressionTerm.ofTerm : Term → ExpressionTerm ev
  | .namedNode iri => .namedNode iri
  | .blankNode id => .blankNode id
  | .literal l => .literal (ev.value l)
  | .triple s p o => .triple s p (ofTerm o)

def cmpSubjects : NamedOrBlankNode → NamedOrBlankNode → Ordering
  | .blankNode a, .blankNode b => compare a b
  | .blankNode _, .namedNode _ => .lt
  | .namedNode _, .blankNode _ => .gt
  | .namedNode a, .namedNode b => compare a b

/-- Two bound terms: blank nodes, then IRIs, then literals, then triple terms. Two literals compare
by value where `<` is defined between them. -/
def cmpBound : ExpressionTerm ev → ExpressionTerm ev → Ordering
  | .blankNode a, .blankNode b => compare a b
  | .blankNode _, _ => .lt
  | .namedNode _, .blankNode _ => .gt
  | .namedNode a, .namedNode b => compare a b
  | .namedNode _, _ => .lt
  | .triple s p o, .triple s' p' o' => ((cmpSubjects s s').then (compare p p')).then (cmpBound o o')
  | .triple _ _ _, _ => .gt
  | .literal _, .namedNode _ | .literal _, .blankNode _ => .gt
  | .literal _, .triple _ _ _ => .lt
  | .literal a, .literal b => (ev.partialCmp a b).getD (ev.lexicalCmp a b)

/-- SPARQL's order over two possibly unbound terms. -/
def cmpTerms : Option (ExpressionTerm ev) → Option (ExpressionTerm ev) → Ordering
  | none, none => .eq
  | none, some _ => .lt
  | some _, none => .gt
  | some a, some b => cmpBound ev a b

/-- Where one row's keys place it against another's, under the conditions. -/
def cmpKeys : List (Option (ExpressionTerm ev)) → List (Option (ExpressionTerm ev)) → List Bool → Ordering
  | a :: as, b :: bs, descending :: ds =>
    (if descending then (cmpTerms ev a b).swap else cmpTerms ev a b).then (cmpKeys as bs ds)
  | _, _, _ => .eq

/-- A row in the heap: its keys, whatever is kept of the row, and when it arrived. -/
structure Entry (R : Type) where
  keys : List (Option (ExpressionTerm ev))
  row : R
  seq : Nat

/-- Where a row sorts relative to another, in output order. -/
def Entry.outputCmp {R : Type} (descending : List Bool) (self other : Entry ev R) : Ordering :=
  (cmpKeys ev self.keys other.keys descending).then (compare self.seq other.seq)

end Order

/-! ## The heap -/

variable {ev : Evaluator}

/-- The heap of `OFFSET + LIMIT` rows, in output order, and how many rows it has been offered. The
order that a binary heap pops in is that of its elements as long as they have one. -/
structure Collector (ev : Evaluator) (R : Type) where
  heap : List (Entry ev R)
  seq : Nat

namespace Collector
variable {R : Type} (plan : Plan) (held : Nat)

def new : Collector ev R := ⟨[], 0⟩

/-- Offers a row by its keys. -/
def offer (collector : Collector ev R) (keys : List (Option (ExpressionTerm ev))) (row : R) : Collector ev R where
  heap := Lib.Held.offer (Entry.outputCmp ev (plan.keys.map (·.descending))) held collector.heap ⟨keys, row, collector.seq⟩
  seq := collector.seq + 1

/-- The slice, in order. -/
def finish (collector : Collector ev R) : List R :=
  ((collector.heap.drop plan.start).take (held - plan.start)).map (·.row)

end Collector

/-! ## Reading rows -/

/-- A sort key's reader, with the variables resolved to positions in the row. -/
inductive Reader where
  | var (position : Option Nat)
  | expression (expression : Expression) (needs : List (Variable × Nat))

/-- One cell of a row as a term. -/
def cellAt {C : Type} (decode : C → Except ViewError (Option Term)) (values : List (Option C)) (position : Nat) :
    Except ViewError (Option Term) :=
  match values[position]?.join with
  | some cell => decode cell
  | none => .ok none

/-- This row's key: `none` for unbound and for an expression that raised an error. -/
def Reader.key {C : Type} (ev : Evaluator) (decode : C → Except ViewError (Option Term)) (values : List (Option C)) :
    Reader → Except ViewError (Option (ExpressionTerm ev))
  | .var none => .ok none
  | .var (some position) => do
    return (← cellAt decode values position).map (.ofTerm ev)
  | .expression e needs => do
    let cells ← needs.mapM (fun (v, position) => do return (v, ← cellAt decode values position))
    let substitutions := cells.filterMap (fun (v, term) => term.map (v, ·))
    return (ev.evaluateExpression e substitutions).map (.ofTerm ev)

/-- The keys' readers in a row laid out as `variables`. -/
def Plan.readers (plan : Plan) (vars : List Variable) : List Reader :=
  plan.keys.map (fun key =>
    match key.source with
    | .var v => .var (vars.idxOf? v)
    | .expression expression needs => .expression expression (needs.filterMap (fun v => (vars.idxOf? v).map (v, ·))))

/-- Where each projected variable sits in a row laid out as `variables`. -/
def Plan.outputPositions (plan : Plan) (vars : List Variable) : List (Option Nat) := plan.projected.map (vars.idxOf? ·)

def readKeys {C : Type} (ev : Evaluator) (decode : C → Except ViewError (Option Term)) (readers : List Reader)
    (values : List (Option C)) : Except ViewError (List (Option (ExpressionTerm ev))) :=
  readers.mapM (Reader.key ev decode values)

/-- Offers one of the evaluator's rows: its keys, and the cells the query projects. -/
def Plan.offerSolution (plan : Plan) (ev : Evaluator) (vars : List Variable) (held : Nat) (collector : Collector ev Solution)
    (row : Except EngineError Solution) : Except EngineError (Collector ev Solution) := do
  let values ← row
  let keys ← (readKeys ev (fun t => .ok (some t)) (plan.readers vars) values).mapError .view
  return collector.offer plan held keys ((plan.outputPositions vars).map (fun position => position.bind (fun i => values[i]?.join)))

/-- Runs the evaluator's rows through the heap and returns the slice, in order. -/
def Plan.collect (plan : Plan) (ev : Evaluator) (vars : List Variable) (rows : List (Except EngineError Solution)) (held : Nat) :
    Except EngineError (List Solution) := do
  let collector ← rows.foldlM (plan.offerSolution ev vars held) .new
  return collector.finish plan held

def decodeCell (decode : TermId → Except ViewError (Option Term)) : Option TermId → Except ViewError (Option Term)
  | some id => decode id
  | none => .ok none

/-- Decodes the cells of a row that a projection asks for. -/
def decodeRow (decode : TermId → Except ViewError (Option Term)) (output : List (Option Nat)) (ids : Bindjoin.Row) :
    Except ViewError Solution :=
  output.mapM (fun position => decodeCell decode (position.bind (fun i => ids[i]?.join)))

/-- Offers one of the bind join's rows, of which only what the keys need is decoded. -/
def Plan.offerIds (plan : Plan) (ev : Evaluator) (decode : TermId → Except ViewError (Option Term)) (vars : List Variable) (held : Nat)
    (collector : Collector ev Bindjoin.Row) (row : Bindjoin.Row) : Except EngineError (Collector ev Bindjoin.Row) := do
  let keys ← (readKeys ev decode (plan.readers vars) row).mapError .view
  return collector.offer plan held keys row

/-- Runs the bind join's rows through the heap. `none` if the join abandoned the evaluation. A row
whose keys cannot be read and a read of the join that fails both end the query; which of two is met
first is not kept. -/
def Plan.collectIds (plan : Plan) (ev : Evaluator) (cx : Bindjoin.Context) (decode : TermId → Except ViewError (Option Term))
    (join : Bindjoin.Plan) (token : Option (Nat → Bool)) (held : Nat) : Except EngineError (Option (List Solution)) := do
  let (completed, rows) ← (join.evaluateEach cx ⟨none, token⟩).mapError .view
  let collector ← rows.foldlM (plan.offerIds ev decode join.vars held) .new
  if !completed then return none
  let slice ← ((collector.finish plan held).mapM (decodeRow decode (plan.outputPositions join.vars))).mapError .view
  return some slice

/-! ## Answering -/

/-- The options that may change what the body means. -/
structure QueryOptions where
  skipBindJoin : Bool
  touchesDataset : Bool
  substitutions : List (Variable × Term)

/-- A time or memory limit: the token it cancels, and what it says then. -/
structure Deadline where
  token : Nat → Bool
  cancellation : QueryEvaluationError

/-- The bind join of the body, where it may be used and accepts it. -/
def Plan.join (plan : Plan) (ev : Evaluator) (options : QueryOptions) : Option Bindjoin.Plan :=
  if !options.skipBindJoin && !options.touchesDataset && options.substitutions.isEmpty then Bindjoin.plan ev.converts plan.inner
  else none

/-- Answers a recognised query from a heap of `OFFSET + LIMIT` rows. -/
def topK (ev : Evaluator) (cx : Bindjoin.Context) (decode : TermId → Except ViewError (Option Term)) (plan : Plan)
    (options : QueryOptions) (deadline : Option Deadline) : Except EngineError QueryResults := do
  let held := plan.held.getD 0
  match plan.join ev options with
  | some join =>
    match ← plan.collectIds ev cx decode join (deadline.map (·.token)) held, deadline with
    | some rows, _ => return .solutions plan.projected (rows.map .ok)
    -- abandoned on its token, which only the guard cancels
    | none, some guard => .error (.evaluation guard.cancellation)
    | none, none => .error (.evaluation .cancelled)
  | none =>
    match ← ev.evaluate plan.inner with
    | .solutions vars rows => return .solutions plan.projected ((← plan.collect ev vars rows held).map .ok)
    | _ => .error (.badRequest "the body of an ORDER BY did not yield solutions")

/-! ## The other paths -/

/-- The bind join as every other path uses it: its rows decoded, or `none` where it does not apply or
was abandoned, for whatever reason. -/
def tryBindJoin (cx : Bindjoin.Context) (decode : TermId → Except ViewError (Option Term)) (join : Option Bindjoin.Plan)
    (limits : Bindjoin.Limits) : Except EngineError (Option QueryResults) :=
  match join with
  | none => .ok none
  | some join => do
    match ← (join.evaluate cx limits).mapError .view with
    | none => return none
    | some rows =>
      let solutions ← (rows.mapM (List.mapM (decodeCell decode))).mapError .view
      return some (.solutions join.vars (solutions.map .ok))

end Holos.Engine.TopK
