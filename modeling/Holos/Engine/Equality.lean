import Holos.Sparql.Algebra
import Mathlib.Data.Finset.Union
/-!
# A filter that names a constant

`FILTER(?v = "GB")` says which term a variable must be, and no planner can use it: a variable is
bound when a pattern has bound it. So the pattern under such a filter is joined with the terms the
filter can accept. The filter stays.

Only a variable the store is sure to bind is pinned. So a term the store does not know can be left
out of the list, and where none is left the list is a pattern with no answers.
-/

namespace Holos.Engine.Equality

open Sparql

/-! ## What a conjunct accepts -/

def isPlain (literal : Literal) : Bool := literal.datatype = Xsd.string

/-- The one term `?v = term` admits, where there is exactly one: an IRI, or a plain string. -/
def equalAdmits : GroundTerm → Option GroundTerm
  | .namedNode n => some (.namedNode n)
  | .literal l => if isPlain l then some (.literal l) else none
  | .triple _ _ _ => none

def constant : Expression → Option GroundTerm
  | .namedNode n => some (.namedNode n)
  | .literal l => some (.literal l)
  | _ => none

/-- `?v` and a constant, in either order. -/
def variableAndConstant : Expression → Expression → Option (Variable × GroundTerm)
  | .var v, other => (constant other).map (v, ·)
  | other, .var v => (constant other).map (v, ·)
  | _, _ => none

/-- `function(?v)`. -/
def call (function : Function) : Expression → Option Variable
  | .functionCall f [.var v] => if f = function then some v else none
  | _ => none

def string : Expression → Option String
  | .literal l => if isPlain l then some l.value else none
  | _ => none

/-- `function(?v) = "s"`, in either order, with `"s"` a plain string. -/
def functionAndString (a b : Expression) (function : Function) : Option (Variable × String) :=
  match call function a, string b with
  | some v, some s => some (v, s)
  | _, _ => (call function b).bind fun v => (string a).map (v, ·)

/-- The terms a list of constants admits, each once, if `=` pins every one of them. -/
def listAdmits (list : List Expression) : Option (List GroundTerm) :=
  list.foldlM (fun terms element => do
    let term ← equalAdmits (← constant element)
    return if term ∈ terms then terms else terms ++ [term]) []

/-- What a conjunct pins by itself. -/
def pin : Expression → Option (Variable × List GroundTerm)
  | .binary .equal a b => (variableAndConstant a b).bind fun p => (equalAdmits p.2).map fun term => (p.1, [term])
  | .binary .sameTerm a b => (variableAndConstant a b).map fun p => (p.1, [p.2])
  | .isIn (.var v) list => (listAdmits list).map (v, ·)
  | _ => none

def Str : Function := .other "STR"

def Lang : Function := .other "LANG"

/-- `str(?v) = "s"`. -/
def stringOf : Expression → Option (Variable × String)
  | .binary .equal a b => if (variableAndConstant a b).isSome then none else functionAndString a b Str
  | _ => none

/-- `lang(?v) = "s"`. -/
def languageOf : Expression → Option (Variable × String)
  | .binary .equal a b =>
    if (variableAndConstant a b).isSome ∨ (functionAndString a b Str).isSome then none else functionAndString a b Lang
  | _ => none

/-- The terms with a text and a language tag. -/
def labels (value language : String) : List GroundTerm :=
  [.literal (.languageTagged value language), .literal (.directional value language .ltr), .literal (.directional value language .rtl)]

def flatten (expr : Expression) : List Expression := flattenConjunction expr

/-- Each variable `expr` pins, with every term the pin admits. -/
def pins (expr : Expression) : List (Variable × List GroundTerm) :=
  let conjuncts := flatten expr
  let strings := conjuncts.filterMap stringOf
  let languages := conjuncts.filterMap languageOf
  conjuncts.filterMap pin ++ strings.flatMap fun s => languages.filterMap fun l =>
    if s.1 ≠ l.1 ∨ l.2 = "" then none else some (s.1, labels s.2 l.2)

/-! ## What the store binds -/

/-- A variable in a top-level position. -/
def termVariable : TermPattern → Finset Variable
  | .var v => {v}
  | _ => ∅

def nameVariable : NamedNodePattern → Finset Variable
  | .var v => {v}
  | .namedNode _ => ∅

/-- The variables bound on every path through a pattern by a triple or path pattern. -/
def storeBound : GraphPattern → Finset Variable
  | .bgp patterns =>
    patterns.foldr (fun t out => termVariable t.subject ∪ nameVariable t.predicate ∪ termVariable t.object ∪ out) ∅
  | .path subject _ object => termVariable subject ∪ termVariable object
  | .join left right => storeBound left ∪ storeBound right
  | .leftJoin left _ _ => storeBound left
  | .union left right => (storeBound left).filter (· ∈ storeBound right)
  | .filter _ inner => storeBound inner
  | .extend inner _ _ => storeBound inner
  | .graph name inner => storeBound inner ∪ nameVariable name
  | _ => ∅

/-- Each variable `expr` pins that `inner` binds from the store, with every term the pin admits. -/
def pinsWithin (expr : Expression) (inner : GraphPattern) : List (Variable × List GroundTerm) :=
  (pins expr).filter fun p => p.1 ∈ storeBound inner

/-! ## The rewrite -/

variable (known : Term → Bool)

def nothingIri : NamedNode := "urn:holos:nothing"

/-- A pattern with no solutions that an optimiser cannot see is empty: one triple of an IRI the
store does not hold. -/
def nothing : Option GraphPattern :=
  if known (.namedNode nothingIri) then none
  else some (.bgp [⟨.namedNode nothingIri, .namedNode nothingIri, .namedNode nothingIri⟩])

/-- A pattern joined with the terms the store knows of those a pin admits. -/
def pinned (out : GraphPattern) (p : Variable × List GroundTerm) : GraphPattern :=
  let rows := p.2.filter fun candidate => known candidate.toTerm
  if rows.isEmpty then
    match nothing known with
    | some pattern => .join pattern out
    | none => out
  else .join (.values [p.1] (rows.map fun candidate => [some candidate])) out

/-- `inner` joined with a `VALUES` for each variable `expr` pins in it. -/
def pinnedInput (expr : Expression) (inner : GraphPattern) : GraphPattern := (pinsWithin expr inner).foldl (pinned known) inner

/-- `pattern` with every pinning filter given its constants. What a remote endpoint holds is not what
`known` answers for. -/
def rewrite : GraphPattern → GraphPattern
  | .filter expr inner => .filter expr (pinnedInput known expr (rewrite inner))
  | .bgp patterns => .bgp patterns
  | .path subject path object => .path subject path object
  | .values vars bindings => .values vars bindings
  | .join left right => .join (rewrite left) (rewrite right)
  | .leftJoin left right expression => .leftJoin (rewrite left) (rewrite right) expression
  | .union left right => .union (rewrite left) (rewrite right)
  | .minus left right => .minus (rewrite left) (rewrite right)
  | .graph name inner => .graph name (rewrite inner)
  | .extend inner v expression => .extend (rewrite inner) v expression
  | .orderBy inner expression => .orderBy (rewrite inner) expression
  | .project inner vars => .project (rewrite inner) vars
  | .distinct inner => .distinct (rewrite inner)
  | .reduced inner => .reduced (rewrite inner)
  | .slice inner start length => .slice (rewrite inner) start length
  | .group inner vars aggregates => .group (rewrite inner) vars aggregates
  | .service name inner silent => .service name inner silent

end Holos.Engine.Equality
