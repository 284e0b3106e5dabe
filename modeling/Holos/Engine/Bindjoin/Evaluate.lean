import Holos.Engine.Bindjoin.Plan
import Holos.Lib.Mapping
/-!
# Evaluating a bind join

One nested loop: at each step the cheapest remaining item is matched under the bindings
made so far, and the rest is evaluated under each match. Filters are applied as soon as
their variables are bound; optionals run when nothing required is left. A finished row goes
to `out`, or to a sink; `MINUS` runs its right side through the same loop and takes back
from `out` what it emitted.

The cost estimates are floating-point numbers that only order the items. They stand here as
`prefer`, an arbitrary choice among the required ones.
-/

namespace Holos.Engine.Bindjoin

open Sparql

abbrev Bindings := Lib.Mapping Variable TermId

abbrev Row := List (Option TermId)

instance instLawfulBEqRow : LawfulBEq Row := inferInstance

/-- What an evaluation reads: the view, the order the estimates settle on, and the
evaluator's effective boolean value of an expression. -/
structure Context where
  view : DatasetView
  prefer : List Item → Bindings → Nat
  holds : Expression → Bindings → Bool

/-! ## The state of a run -/

/-- The row budget, and the cancellation token as what its reads return. -/
structure Limits where
  rows : Option Nat
  token : Option (Nat → Bool)

/-- What the recursion accumulates. Rows go to `out`, or to a sink, here as the list of
those it was handed. -/
structure Tally where
  out : List Row
  sink : Bool
  sunk : List Row
  seen : List Row
  skipped : Nat
  completions : Nat
  abandoned : Bool
deriving DecidableEq

def Tally.start (sink : Bool) : Tally :=
  { out := [], sink := sink, sunk := [], seen := [], skipped := 0, completions := 0, abandoned := false }

/-- A run: its tally, and the bookkeeping of its limits. -/
structure Run extends Tally where
  limits : Limits
  sinceCheck : Nat
  tokenReads : Nat

def tokenCheckInterval : Nat := 4096

/-- Whether a limit has been hit and the recursion should unwind. -/
def Run.done (run : Run) : Bool × Run :=
  if run.abandoned then (true, run)
  else if run.limits.rows.any (fun cap => run.out.length + run.seen.length > cap) then
    (true, { run with abandoned := true })
  else if run.sinceCheck + 1 < tokenCheckInterval then
    (false, { run with sinceCheck := run.sinceCheck + 1 })
  else if run.limits.token.any (fun isCancelled => isCancelled run.tokenReads) then
    (true, { run with sinceCheck := 0, tokenReads := run.tokenReads + 1, abandoned := true })
  else (false, { run with sinceCheck := 0, tokenReads := run.tokenReads + 1 })

/-- The `LIMIT` has been filled. -/
def Plan.full (p : Plan) (run : Tally) : Bool := p.limit.any (fun limit => run.out.length ≥ limit)

def Plan.project (p : Plan) (β : Bindings) : Row := p.vars.map (fun v => β.lookup v)

/-- A row that satisfied every pattern: deduplicated, skipped past the offset, and handed on. -/
def Plan.emit (p : Plan) (β : Bindings) (run : Tally) : Tally :=
  let row := p.project β
  if p.distinct && row ∈ run.seen then run
  else
    let run := if p.distinct then { run with seen := run.seen ++ [row] } else run
    if run.skipped < p.offset then { run with skipped := run.skipped + 1 }
    else if run.sink then { run with sunk := run.sunk ++ [row] }
    else { run with out := run.out ++ [row] }

/-! ## Resolving and binding -/

/-- What a pattern position resolves to. -/
inductive Slot where
  | fixed (id : TermId)
  | any
  | missing
deriving DecidableEq, Repr

def lookup (view : DatasetView) (term : Term) : Slot :=
  match view.store.lookupTerm term with
  | some id => .fixed id
  | none => .missing

def slot (view : DatasetView) (β : Bindings) : TermPattern → Slot
  | .var v => match β.lookup v with | some id => .fixed id | none => .any
  | .namedNode n => lookup view (.namedNode n)
  | .literal l => lookup view (.literal l)
  | .blankNode _ | .triple _ _ _ => .any

def predicateSlot (view : DatasetView) (β : Bindings) : NamedNodePattern → Slot
  | .var v => match β.lookup v with | some id => .fixed id | none => .any
  | .namedNode n => lookup view (.namedNode n)

/-- The id a slot constrains a scan to; `none` when nothing can match. -/
def Slot.bound : Slot → Option (Option TermId)
  | .missing => none
  | .any => some none
  | .fixed id => some (some id)

/-- The term ids a pattern is constrained to, given what is already bound. -/
def resolve (view : DatasetView) (triple : TriplePattern) (β : Bindings) :
    Option (Option TermId × Option TermId × Option TermId) := do
  return (← (slot view β triple.subject).bound, ← (predicateSlot view β triple.predicate).bound,
    ← (slot view β triple.object).bound)

/-- The graph to scan; `none` when the named graph is one the dictionary never saw. -/
def graphSlot (view : DatasetView) (β : Bindings) : Scope → Option (Option (Option TermId))
  | .default => some (some none)
  | .named g =>
    match lookup view (.namedNode g) with
    | .missing => none
    | .fixed id => some (some (some id))
    | .any => some none
  | .var v => some ((β.lookup v).map some)

def graphFilter : Option (Option TermId) → GraphFilter
  | some none => .default
  | some (some g) => .named g
  | none => .anyNamed

/-- Binds a variable to a term id, unless it is already bound to something else. -/
def bindVariable (v : Variable) (id : TermId) (β : Bindings) : Option Bindings :=
  match β.lookup v with
  | some existing => if existing = id then some β else none
  | none => some (β.insert v id)

def bindTerm (term : TermPattern) (actual : TermId) (β : Bindings) : Option Bindings :=
  match term with
  | .var v => bindVariable v actual β
  | _ => some β

def bindPredicate (predicate : NamedNodePattern) (actual : TermId) (β : Bindings) : Option Bindings :=
  match predicate with
  | .var v => bindVariable v actual β
  | .namedNode _ => some β

def bindGraph (scope : Scope) (graphName : Option TermId) (β : Bindings) : Option Bindings :=
  match scope, graphName with
  | .var v, some g => bindVariable v g β
  | .var _, none => none
  | _, _ => some β

/-- Binds what one quad gives a pattern, the graph first. -/
def bindQuad (pattern : PatternItem) (quad : EncodedQuad) (β : Bindings) : Option Bindings := do
  let β ← bindGraph pattern.scope quad.graphName β
  let β ← bindTerm pattern.triple.subject quad.subject β
  let β ← bindPredicate pattern.triple.predicate quad.predicate β
  bindTerm pattern.triple.object quad.object β

/-! ## Scans -/

/-- The spans a pending filter puts on a pattern's object, and the predicate to read them
under. -/
def Plan.spansFor (p : Plan) (view : DatasetView) (pattern : PatternItem) (object : Option TermId)
    (pending : List Nat) (β : Bindings) : Option (Option TermId × List IdRange) :=
  match pattern.triple.object with
  | .var v =>
    if (β.lookup v).isSome || object.isSome then none
    else do
      let comparison ← pending.findSome? (fun i => do
        let filter ← p.filters[i]?
        let bounds ← filter.bounds
        if bounds.var = v then some bounds else none)
      let spans ← Range.spans view.store comparison
      match pattern.triple.predicate with
      | .namedNode n =>
        match lookup view (.namedNode n) with
        | .fixed id => some (some id, spans)
        | .missing => none
        | .any => some (none, spans)
      | .var v => some (β.lookup v, spans)
  | _ => none

/-- The quads a pattern is probed with. -/
def Plan.scan (p : Plan) (view : DatasetView) (pattern : PatternItem) (subject predicate object : Option TermId)
    (graph : Option (Option TermId)) (pending : List Nat) (β : Bindings) : List (Except ViewError EncodedQuad) :=
  match p.spansFor view pattern object pending β with
  | some (spanPredicate, spans) =>
    spans.flatMap (fun span => view.quadsWithObjectIn subject spanPredicate span (graphFilter graph))
  | none => view.internalQuadsForPattern subject predicate object graph

/-- What became of one candidate: a read that failed, a term with no id, a conflict with the
bindings, or the bindings it extends them to. -/
inductive Attempt where
  | fail (e : ViewError)
  | missing
  | conflict
  | bound (β : Bindings)

def Attempt.ofOption : Option Bindings → Attempt
  | none => .conflict
  | some β => .bound β

/-- Each candidate in turn, until a limit is hit or the `LIMIT` is filled. -/
def forEach (p : Plan) (body : Bindings → Run → Except ViewError Run) : List Attempt → Run → Except ViewError Run
  | [], run => .ok run
  | .fail e :: _, _ => .error e
  | attempt :: attempts, run =>
    match run.done with
    | (true, run) => .ok run
    | (false, run) =>
      match attempt with
      | .bound β => do
        let run ← body β run
        if run.abandoned || p.full run.toTally then .ok run else forEach p body attempts run
      | .missing => .ok { run with abandoned := true }
      | _ => forEach p body attempts run

/-- Each candidate quad of a pattern. A constant absent from the dictionary leaves none. -/
def Plan.candidates (p : Plan) (view : DatasetView) (pattern : PatternItem) (pending : List Nat) (β : Bindings) :
    List Attempt :=
  match resolve view pattern.triple β, graphSlot view β pattern.scope with
  | some (subject, predicate, object), some graph =>
    (p.scan view pattern subject predicate object graph pending β).map (fun quad =>
      match quad with
      | .error e => .fail e
      | .ok quad => .ofOption (bindQuad pattern quad β))
  | _, _ => []

/-- One row of a `VALUES`: a term the store has no id for cannot be bound. -/
def bindRow (view : DatasetView) : List (Variable × Option GroundTerm) → Bindings → Attempt
  | [], β => .bound β
  | (_, none) :: row, β => bindRow view row β
  | (v, some term) :: row, β =>
    match lookup view term.toTerm with
    | .fixed id =>
      match bindVariable v id β with
      | some β => bindRow view row β
      | none => .conflict
    | _ => .missing

/-! ## Closures -/

/-- The first quad of a scan, if there is one. -/
def firstQuad : List (Except ViewError EncodedQuad) → Except ViewError Bool
  | [] => .ok false
  | .ok _ :: _ => .ok true
  | .error e :: _ => .error e

def isFree : TermPattern → Bool
  | .var _ | .blankNode _ => true
  | _ => false

/-- Whether a zero-length step may start from `seed`: with variables at both ends, only from
a node of the graph. -/
def zeroLengthAdmissible (view : DatasetView) (closure : ClosureItem) (seed : TermId) (β : Bindings) :
    Except ViewError Bool :=
  if !closure.hops.includesSeed then .ok true
  else if !(isFree closure.subject && isFree closure.object) then .ok true
  else
    match graphSlot view β closure.scope with
    | none => .ok false
    | some graph => do
      if ← firstQuad (view.internalQuadsForPattern (some seed) none none graph) then return true
      firstQuad (view.internalQuadsForPattern none none (some seed) graph)

/-- The end a walk starts from, the pattern and slot of the other, and whether it starts at
the subject. -/
def closureSeed (closure : ClosureItem) (subject object : Slot) : Option (TermId × TermPattern × Slot × Bool) :=
  match subject, object with
  | .fixed s, _ => some (s, closure.object, object, true)
  | _, .fixed o => some (o, closure.subject, subject, false)
  | _, _ => none

/-- The nodes of a walk that are answers for the far end: all of them, or the one it is
bound to. -/
def walkNodes (view : DatasetView) (closure : ClosureItem) (predicate : TermId) (graph : Option (Option TermId))
    (seed : TermId) (farSlot : Slot) (fromSubject : Bool) : Except ViewError (List TermId) := do
  let direction := Reach.Direction.of fromSubject closure.inverse
  match farSlot with
  | .fixed target =>
    let (offered, _) ← Reach.reachable view predicate direction closure.hops graph [seed] (· ≠ target)
    return offered.filter (· = target)
  | _ =>
    let (offered, _) ← Reach.reachable view predicate direction closure.hops graph [seed] (fun _ => true)
    return offered

/-- What a closure answers under the bindings: the plan has to be abandoned, the zero-length
path alone, or the nodes of a walk to bind its far end to. -/
inductive ClosureAnswer where
  | abandon
  | zero (attempt : Attempt)
  | walk (attempts : List Attempt)

/-- The zero-length case alone, for a closure whose predicate the store has never seen. -/
def closureZeroOnly (view : DatasetView) (closure : ClosureItem) (subject object : Slot) (β : Bindings) :
    Except ViewError ClosureAnswer :=
  if !closure.hops.includesSeed then .ok (.zero .conflict)
  else
    match closureSeed closure subject object with
    | none => .ok .abandon
    | some (seed, farEnd, farSlot, _) => do
      if !(← zeroLengthAdmissible view closure seed β) then return .zero .conflict
      match farSlot with
      | .fixed target =>
        if target = seed then return .zero (.ofOption (bindTerm farEnd seed β)) else return .zero .conflict
      | _ => return .zero (.ofOption (bindTerm farEnd seed β))

/-- One closure property path, walked from whichever end is bound. -/
def closureAnswer (view : DatasetView) (closure : ClosureItem) (β : Bindings) : Except ViewError ClosureAnswer :=
  let subject := slot view β closure.subject
  let object := slot view β closure.object
  if subject = .missing ∨ object = .missing then .ok .abandon
  else
    match lookup view (.namedNode closure.predicate) with
    | .fixed predicate =>
      match graphSlot view β closure.scope with
      | none => .ok (.walk [])
      | some graph =>
        match closureSeed closure subject object with
        | none => .ok .abandon
        | some (seed, farEnd, farSlot, fromSubject) => do
          if !(← zeroLengthAdmissible view closure seed β) then return .walk []
          let nodes ← walkNodes view closure predicate graph seed farSlot fromSubject
          return .walk (nodes.map (fun node => .ofOption (bindTerm farEnd node β)))
    | _ => closureZeroOnly view closure subject object β

/-! ## The nested loop -/

def Item.isOptional : Item → Bool
  | .optional _ _ _ _ => true
  | _ => false

/-- The position of the next entry: among the required ones the one the estimates prefer,
and the first optional only when nothing required is left. -/
def cheapest (prefer : List Item → Bindings → Nat) (todo : List Item) (β : Bindings) : Option Nat :=
  let required := (todo.zipIdx.filter (fun (item, _) => !item.isOptional)).map (·.2)
  if required.isEmpty then (if todo.isEmpty then none else some 0)
  else required[prefer todo β % required.length]?

/-- The next entry, and everything else. -/
def choose (prefer : List Item → Bindings → Nat) (todo : List Item) (β : Bindings) : Option (Item × List Item) := do
  let index ← cheapest prefer todo β
  return (← todo[index]?, todo.eraseIdx index)

/-- Applies every pending filter whose variables are all bound. The ones still pending, or
`none` if one failed. -/
def Plan.settle (p : Plan) (holds : Expression → Bindings → Bool) (β : Bindings) : List Nat → Option (List Nat)
  | [] => some []
  | index :: pending =>
    match p.filters[index]? with
    | none => p.settle holds β pending
    | some filter =>
      if filter.needs.all (fun v => (β.lookup v).isSome) then
        if holds filter.expression β then p.settle holds β pending else none
      else (p.settle holds β pending).map (index :: ·)

def Plan.step (p : Plan) (cx : Context) :
    Nat → List Item → List Nat → Bindings → Run → Except ViewError Run
  | 0, _, _, _, run => .ok run
  | fuel + 1, todo, pending, β, run =>
    match run.done with
    | (true, run) => .ok run
    | (false, run) =>
      match p.settle cx.holds β pending with
      | none => .ok run
      | some pending =>
        if p.full run.toTally then .ok run
        else
          match choose cx.prefer todo β with
          | none => .ok { run with toTally := p.emit β { run.toTally with completions := run.completions + 1 } }
          | some (.pattern pattern, rest) =>
            forEach p (p.step cx fuel rest pending) (p.candidates cx.view pattern pending β) run
          | some (.union branches, rest) =>
            branches.foldlM (fun run branch =>
              -- the loop over the branches breaks on either condition; a broken loop does no more
              if run.abandoned || p.full run.toTally then .ok run
              else p.step cx fuel (branch.map .pattern ++ rest) pending β run) run
          | some (.values values, rest) =>
            forEach p (p.step cx fuel rest pending)
              (values.rows.map (fun row => bindRow cx.view (values.vars.zip row) β)) run
          | some (.closure closure, rest) => do
            match ← closureAnswer cx.view closure β with
            | .abandon => .ok { run with abandoned := true }
            | .zero (.bound β) => p.step cx fuel rest pending β run
            | .zero _ => .ok run
            | .walk attempts => forEach p (p.step cx fuel rest pending) attempts run
          | some (.optional .extend items filters _, rest) => do
            let after ← p.step cx fuel (items ++ rest) (pending ++ filters) β run
            if after.completions = run.completions && !after.abandoned then p.step cx fuel rest pending β after
            else .ok after
          | some (.optional .remove items filters _, rest) => do
            let after ← p.step cx fuel items (pending ++ filters) β run
            let undone := { after with out := after.out.take run.out.length, completions := run.completions }
            if after.completions = run.completions && !after.abandoned then p.step cx fuel rest pending β undone
            else .ok undone

/-! ## The whole plan -/

mutual

/-- How many entries the list of things to do can go through. -/
def itemsSize : List Item → Nat
  | [] => 0
  | item :: items => itemSize item + itemsSize items

def itemSize : Item → Nat
  | .union branches => 1 + (branches.map List.length).sum
  | .optional _ items _ _ => 1 + itemsSize items
  | _ => 1

end

/-- Filter positions that belong to an optional rather than to the query as a whole. -/
def ownedByOptionals (items : List Item) : List Nat := (gatherOptionals items).flatMap (·.filters)

/-- The nested loop from the top, collecting into `out` or streaming to a sink. -/
def Plan.run (p : Plan) (cx : Context) (limits : Limits) (sink : Bool) : Except ViewError Run :=
  let owned := ownedByOptionals p.items
  let pending := (List.range p.filters.length).filter (fun i => !(i ∈ owned))
  p.step cx (itemsSize p.items + 1) p.items pending ∅
    { toTally := Tally.start sink, limits := limits, sinceCheck := 0, tokenReads := 0 }

/-- Evaluates the plan: the rows, or `none` if the evaluation was abandoned. -/
def Plan.evaluate (p : Plan) (cx : Context) (limits : Limits) : Except ViewError (Option (List Row)) := do
  let run ← p.run cx limits false
  return if run.abandoned then none else some run.out

/-- Evaluates the plan, handing each solution to a sink: the rows it was handed, and whether
the evaluation ran to its end. The row budget is dropped. -/
def Plan.evaluateEach (p : Plan) (cx : Context) (limits : Limits) : Except ViewError (Bool × List Row) := do
  let run ← p.run cx ⟨none, limits.token⟩ true
  return (!run.abandoned, run.sunk)

end Holos.Engine.Bindjoin
