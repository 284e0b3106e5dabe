import Holos.Engine.Range
import Holos.Engine.Reach
/-!
# Planning a bind join

`plan` recognises a query the nested loop can answer and reduces it to a flat list of
items and a list of filters, or declines it. `collect` walks the pattern tree: joins
concatenate, `GRAPH` blocks become a tag on each item of the block, filters are hoisted,
and an `OPTIONAL` or `MINUS` is kept whole, with the positions of its own filters.
-/

namespace Holos.Engine.Bindjoin

open Sparql

/-! ## Plans -/

/-- What an optional item does with a match: `OPTIONAL` extends the row, `MINUS` removes it. -/
inductive OnMatch where
  | extend | remove
deriving DecidableEq, Repr

/-- Which graph a pattern matches against. -/
inductive Scope where
  | default
  | named (g : NamedNode)
  | var (v : Variable)
deriving DecidableEq, Repr

/-- A triple pattern together with the graph it is matched in. -/
structure PatternItem where
  triple : TriplePattern
  scope : Scope
deriving DecidableEq, Repr

/-- A closure property path over one predicate, possibly inverted. -/
structure ClosureItem where
  subject : TermPattern
  object : TermPattern
  predicate : NamedNode
  inverse : Bool
  hops : Reach.Hops
  scope : Scope
deriving DecidableEq, Repr

/-- The rows of a `VALUES` clause. `none` is `UNDEF`. -/
structure ValuesItem where
  vars : List Variable
  rows : List (List (Option GroundTerm))
deriving DecidableEq, Repr

/-- One step of a plan. An optional carries the positions of its filters in the plan's
list, and the variables its left side does not bind. -/
inductive Item where
  | pattern (p : PatternItem)
  | union (branches : List (List PatternItem))
  | values (v : ValuesItem)
  | optional (mode : OnMatch) (items : List Item) (filters : List Nat) (fresh : List Variable)
  | closure (c : ClosureItem)

/-- One `FILTER`: the expression, the variables it mentions, and the comparison it is. -/
structure Filter where
  expression : Expression
  needs : List Variable
  bounds : Option Range.Comparison

/-- The variables a subtree binds: on every path, and on at least one. -/
structure Bound where
  certain : List Variable
  possible : List Variable
deriving DecidableEq, Repr

structure Plan where
  items : List Item
  filters : List Filter
  vars : List Variable
  distinct : Bool
  offset : Nat
  limit : Option Nat

/-! ## Variables -/

def pushNew (out : List Variable) (v : Variable) : List Variable := if v ∈ out then out else out ++ [v]

/-- Both subtrees run, so everything either binds is bound. -/
def Bound.joined (self other : Bound) : Bound :=
  ⟨other.certain.foldl pushNew self.certain, other.possible.foldl pushNew self.possible⟩

/-- One branch or the other runs, so only what both bind is certain. -/
def Bound.alternated (self other : Bound) : Bound :=
  ⟨self.certain.filter (· ∈ other.certain), other.possible.foldl pushNew self.possible⟩

def pushTerm (out : List Variable) : TermPattern → List Variable
  | .var v => pushNew out v
  | _ => out

def collectVariables (triple : TriplePattern) (out : List Variable) : List Variable :=
  let out := pushTerm (pushTerm out triple.subject) triple.object
  match triple.predicate with
  | .var v => pushNew out v
  | .namedNode _ => out

def pushScope (out : List Variable) : Scope → List Variable
  | .var g => pushNew out g
  | _ => out

/-- Every variable a pattern mentions, the graph position included. -/
def variablesOfPattern (pattern : PatternItem) (out : List Variable) : List Variable :=
  pushScope (collectVariables pattern.triple out) pattern.scope

mutual

/-- Every variable the items mention. A closure's graph variable is not among them. -/
def variablesOfItems : List Item → List Variable → List Variable
  | [], out => out
  | item :: items, out => variablesOfItems items (variablesOfItem item out)

def variablesOfItem : Item → List Variable → List Variable
  | .pattern p, out => variablesOfPattern p out
  | .closure c, out => pushTerm (pushTerm out c.subject) c.object
  | .union branches, out => branches.foldl (fun out branch => branch.foldl (fun out p => variablesOfPattern p out) out) out
  | .values v, out => out ++ v.vars
  | .optional _ items _ _, out => variablesOfItems items out

end

/-! ## Patterns -/

/-- Whether a triple pattern is one this path can probe with: no triple terms. -/
def usablePattern (triple : TriplePattern) : Bool :=
  let plain : TermPattern → Bool := fun t => match t with | .triple _ _ _ => false | _ => true
  plain triple.subject && plain triple.object

def renameBlank : TermPattern → TermPattern
  | .blankNode label => .var (.blank label)
  | other => other

/-- A pattern with its blank nodes renamed to variables. -/
def withoutBlankNodes (triple : TriplePattern) : TriplePattern :=
  ⟨renameBlank triple.subject, triple.predicate, renameBlank triple.object⟩

mutual

/-- The variables an expression mentions, added to `out`, or `none` for one that cannot be
evaluated here: `EXISTS`, and the builtins that need an evaluation context. -/
def inspectExpression : Expression → List Variable → Option (List Variable)
  | .namedNode _, out => some out
  | .literal _, out => some out
  | .var v, out => some (pushNew out v)
  | .bound v, out => some (pushNew out v)
  | .binary _ a b, out => (inspectExpression a out).bind (inspectExpression b)
  | .unary _ a, out => inspectExpression a out
  | .ite a b c, out => ((inspectExpression a out).bind (inspectExpression b)).bind (inspectExpression c)
  | .isIn a list, out => (inspectExpression a out).bind (inspectAll list)
  | .coalesce list, out => inspectAll list out
  | .functionCall function args, out =>
    match function with
    | .now | .rand | .uuid | .strUuid | .bNode => none
    | .other _ => inspectAll args out
  | .existsPattern _, _ => none

def inspectAll : List Expression → List Variable → Option (List Variable)
  | [], out => some out
  | e :: list, out => (inspectExpression e out).bind (inspectAll list)

end

/-- Flattens an alternative property path into union branches. -/
def pathAlternatives : PropertyPathExpression → TermPattern → TermPattern → Scope → Option (List (List PatternItem))
  | .namedNode p, subject, object, scope => do
    let subject ← match subject with
      | .var v => some (TermPattern.var v)
      | .namedNode n => some (.namedNode n)
      | .blankNode label => some (.var (.blank label))
      | .literal _ | .triple _ _ _ => none
    let object ← match object with
      | .blankNode label => some (TermPattern.var (.blank label))
      | .triple _ _ _ => none
      | other => some other
    some [[⟨⟨subject, .namedNode p, object⟩, scope⟩]]
  | .alternative a b, subject, object, scope => do
    return (← pathAlternatives a subject object scope) ++ (← pathAlternatives b subject object scope)
  | _, _, _, _ => none

/-- The hops of a closure and the path under it. -/
def closureHops : PropertyPathExpression → Option (PropertyPathExpression × Reach.Hops)
  | .zeroOrMore inner => some (inner, .zeroOrMore)
  | .oneOrMore inner => some (inner, .oneOrMore)
  | .zeroOrOne inner => some (inner, .zeroOrOne)
  | _ => none

/-- A predicate, or an inverted one. -/
def closurePredicate : PropertyPathExpression → Option (NamedNode × Bool)
  | .namedNode p => some (p, false)
  | .reverse (.namedNode p) => some (p, true)
  | _ => none

def closureEnd : TermPattern → Option TermPattern
  | .blankNode label => some (.var (.blank label))
  | .triple _ _ _ => none
  | other => some other

/-- Recognises a closure over one predicate. -/
def closureItem (path : PropertyPathExpression) (subject object : TermPattern) (scope : Scope) : Option ClosureItem := do
  let (inner, hops) ← closureHops path
  let (predicate, inverse) ← closurePredicate inner
  return ⟨← closureEnd subject, ← closureEnd object, predicate, inverse, hops, scope⟩

/-- The scope of a `GRAPH` block. -/
def innerScope : NamedNodePattern → Scope
  | .namedNode g => .named g
  | .var v => .var v

/-- Flattens nested `UNION`s into a list of alternatives, each of which must be a plain
basic graph pattern, or one in a `GRAPH` block. -/
def unionBranches : GraphPattern → Scope → Option (Bound × List (List PatternItem))
  | .union left right, scope => do
    let (a, xs) ← unionBranches left scope
    let (b, ys) ← unionBranches right scope
    return (a.alternated b, xs ++ ys)
  | .graph name inner, scope => if scope = .default then unionBranches inner (innerScope name) else none
  | .bgp patterns, scope =>
    if patterns.isEmpty || !patterns.all usablePattern then none
    else
      let renamed := patterns.map withoutBlankNodes
      let certain := pushScope (renamed.foldl (fun out t => collectVariables t out) []) scope
      some (⟨certain, certain⟩, [renamed.map (fun t => ⟨t, scope⟩)])
  | _, _ => none

/-! ## Collecting -/

/-- The filters of an expression's conjuncts, if each can be evaluated with the variables
`admits` accepts. `converts` says whether the optimiser's form of an expression is still a
filter, which the evaluator's entry point needs. -/
def filtersOf (converts : Expression → Bool) (admits : Variable → Bool) (expr : Expression) : Option (List Filter) :=
  (flattenConjunction expr).mapM (fun conjunct => do
    let needs ← inspectExpression conjunct []
    if !needs.all admits then none
    else if !converts conjunct then none
    else some ⟨conjunct, needs, Range.comparison conjunct⟩)

/-- The triple patterns of a basic graph pattern: the bound variables so far, and the items. -/
def collectBgp (scope : Scope) : List TriplePattern → List Variable → Option (List Variable × List Item)
  | [], certain => some (certain, [])
  | triple :: patterns, certain => do
    if !usablePattern triple then none
    else
      let triple := withoutBlankNodes triple
      let (certain, items) ← collectBgp scope patterns (pushScope (collectVariables triple certain) scope)
      return (certain, .pattern ⟨triple, scope⟩ :: items)

/-- The variables the branches of an alternative path bind. The graph variable is not
counted. -/
def pathBound (branches : List (List PatternItem)) : Bound :=
  branches.foldl (fun bound branch =>
    let certain := branch.foldl (fun out p => collectVariables p.triple out) []
    if bound.possible.isEmpty then ⟨certain, certain⟩ else bound.alternated ⟨certain, certain⟩) ⟨[], []⟩

/-- Variables bound in every row of a `VALUES`. -/
def valuesCertain (vars : List Variable) (bindings : List (List (Option GroundTerm))) : List Variable :=
  (vars.zipIdx.filter (fun (_, column) => bindings.all (fun row => (row[column]?.getD none).isSome))).map (·.1)

/-- An `OPTIONAL` or `MINUS` put after the items of its left side: its filters go to the end
of the list, and their positions with the item. -/
def pushOptional (mode : OnMatch) (outer inner : Bound) (items innerItems : List Item)
    (filters innerFilters : List Filter) : List Item × List Filter :=
  let fresh := inner.possible.filter (fun v => !(v ∈ outer.possible))
  let indices := List.range' filters.length innerFilters.length
  (items ++ [.optional mode innerItems indices fresh], filters ++ innerFilters)

/-- Walks the pattern tree into a flat list of items, hoisting filters as it goes. Returns
the variables the subtree binds, or `none` for a pattern outside the fragment. -/
def collect (converts : Expression → Bool) :
    GraphPattern → Scope → List Item → List Filter → Option (Bound × List Item × List Filter)
  | .bgp patterns, scope, items, filters => do
    let (certain, new) ← collectBgp scope patterns []
    return (⟨certain, certain⟩, items ++ new, filters)
  | .project inner vars, scope, items, filters => do
    let (bound, innerItems, innerFilters) ← collect converts inner scope [] []
    if !bound.possible.all (· ∈ vars) then none
    else return (bound, items ++ innerItems, filters ++ innerFilters)
  | .minus left right, scope, items, filters => do
    let (outer, items, filters) ← collect converts left scope items filters
    let (inner, innerItems, innerFilters) ← collect converts right scope [] []
    if !inner.possible.any (· ∈ outer.certain) then none
    else
      let (items, filters) := pushOptional .remove outer inner items innerItems filters innerFilters
      return (outer, items, filters)
  | .path subject path object, scope, items, filters =>
    match closureItem path subject object scope with
    | some closure =>
      let certain := pushTerm (pushTerm [] closure.subject) closure.object
      some (⟨certain, certain⟩, items ++ [.closure closure], filters)
    | none => do
      let branches ← pathAlternatives path subject object scope
      return (pathBound branches, items ++ [.union branches], filters)
  | .graph name inner, scope, items, filters =>
    if scope ≠ .default then none else collect converts inner (innerScope name) items filters
  | .join left right, scope, items, filters => do
    let (a, items, filters) ← collect converts left scope items filters
    let (b, items, filters) ← collect converts right scope items filters
    return (a.joined b, items, filters)
  | .filter expr inner, scope, items, filters => do
    let (bound, items, filters) ← collect converts inner scope items filters
    let new ← filtersOf converts (· ∈ bound.certain) expr
    return (bound, items, filters ++ new)
  | .union left right, scope, items, filters => do
    let (bound, branches) ← unionBranches (.union left right) scope
    return (bound, items ++ [.union branches], filters)
  | .values vars bindings, _, items, filters =>
    some (⟨valuesCertain vars bindings, vars⟩, items ++ [.values ⟨vars, bindings⟩], filters)
  | .leftJoin left right expression, scope, items, filters => do
    let (outer, items, filters) ← collect converts left scope items filters
    let (inner, innerItems, innerFilters) ← collect converts right scope [] []
    let condition ← match expression with
      | none => some []
      | some expr => filtersOf converts (fun v => v ∈ inner.certain || v ∈ outer.certain) expr
    let (items, filters) := pushOptional .extend outer inner items innerItems filters (innerFilters ++ condition)
    return (⟨outer.certain, inner.possible.foldl pushNew outer.possible⟩, items, filters)
  | _, _, _, _ => none

/-! ## Accepting -/

/-- One `OPTIONAL` or `MINUS` of a plan, at whatever depth. -/
structure OptionalItem where
  mode : OnMatch
  items : List Item
  filters : List Nat
  fresh : List Variable

mutual

def gatherOptionals : List Item → List OptionalItem
  | [] => []
  | item :: items => gatherItem item ++ gatherOptionals items

def gatherItem : Item → List OptionalItem
  | .optional mode items filters fresh => ⟨mode, items, filters, fresh⟩ :: gatherOptionals items
  | _ => []

end

mutual

/-- Every variable the items mention outside one optional: the one at position `skip` in the
order `gatherOptionals` lists them, `none` once it has been passed. -/
def collectOutside : List Item → Option Nat → List Variable → List Variable
  | [], _, out => out
  | item :: items, skip, out =>
    collectOutside items (skip.bind (fun k => if k < (gatherItem item).length then none else some (k - (gatherItem item).length)))
      (collectOutsideItem item skip out)

def collectOutsideItem : Item → Option Nat → List Variable → List Variable
  | .optional _ items _ _, skip, out =>
    match skip with
    | some 0 => out
    | some (k + 1) => collectOutside items (some k) out
    | none => collectOutside items none out
  | item, _, out => variablesOfItem item out

end

/-- The variables the rest of a query mentions, seen from the optional at one position. -/
def elsewhere (items : List Item) (filters : List Filter) (position : Nat) (optional : OptionalItem) : List Variable :=
  let others := ((gatherOptionals items).zipIdx.filter (fun (_, other) => other ≠ position)).map (·.1)
  let out := others.foldl (fun out item => variablesOfItems item.items out) []
  let out := collectOutside items (some position) out
  filters.zipIdx.foldl (fun out (filter, index) => if index ∈ optional.filters then out else out ++ filter.needs) out

/-- Whether hoisting every `OPTIONAL` to the end preserves the query's meaning: nothing else
reads a variable only the optional binds. -/
def wellDesigned (items : List Item) (filters : List Filter) : Bool :=
  (gatherOptionals items).zipIdx.all (fun (optional, position) =>
    !optional.fresh.any (· ∈ elsewhere items filters position optional))

/-- Whether every closure has an end something else could bind. -/
def closuresCanBeAnchored (items : List Item) : Bool :=
  items.zipIdx.all (fun (item, position) =>
    match item with
    | .closure c =>
      let others := (items.zipIdx.filter (fun (_, other) => other ≠ position)).map (·.1)
      let mentioned := others.foldl (fun out item => variablesOfItem item out) []
      let anchorable : TermPattern → Bool := fun term =>
        match term with
        | .namedNode _ | .literal _ => true
        | .var v => v ∈ mentioned
        | .blankNode _ | .triple _ _ _ => false
      anchorable c.subject || anchorable c.object
    | _ => true)

def finish (items : List Item) (filters : List Filter) (bound : Bound) (vars : List Variable) (distinct : Bool)
    (offset : Nat) (limit : Option Nat) : Option Plan :=
  if items.isEmpty then none
  else if !vars.all (· ∈ bound.possible) then none
  else if !wellDesigned items filters then none
  else if !closuresCanBeAnchored items then none
  else some ⟨items, filters, vars, distinct, offset, limit⟩

/-- Peels the wrappers the fragment allows, outermost first. -/
def peel (converts : Expression → Bool) (distinct : Bool) (offset : Nat) (limit : Option Nat) : GraphPattern → Option Plan
  | .distinct inner => peel converts true offset limit inner
  | .slice inner start length =>
    if offset ≠ 0 ∨ limit.isSome then none
    else if distinct then none
    else peel converts distinct start length inner
  | .project inner vars => do
    let (bound, items, filters) ← collect converts inner .default [] []
    finish items filters bound vars distinct offset limit
  | _ => none

/-- Recognises a query this module can answer, or returns `none`. A query that names its own
dataset is refused. -/
def plan (converts : Expression → Bool) : Query → Option Plan
  | .select none pattern => peel converts false 0 none pattern
  | _ => none

end Holos.Engine.Bindjoin
