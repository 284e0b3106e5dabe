import Holos.Core
/-!
# The SPARQL algebra

The syntax trees a parsed query arrives as: term and triple patterns, property paths,
expressions, and graph patterns with every operator of the algebra.
-/

namespace Holos.Sparql

/-- A variable: one the query wrote, or the one a blank node of a pattern stands for. The
two never meet, whatever the label. -/
inductive Variable where
  | named (name : String)
  | blank (label : String)
deriving DecidableEq, Repr

/-- A term without variables or blank nodes. -/
inductive GroundTerm where
  | namedNode (iri : NamedNode)
  | literal (l : Literal)
  | triple (subject predicate : NamedNode) (object : GroundTerm)
deriving DecidableEq, Repr

def GroundTerm.toTerm : GroundTerm → Term
  | .namedNode iri => .namedNode iri
  | .literal l => .literal l
  | .triple s p o => .triple (.namedNode s) p o.toTerm

/-- A predicate or graph position: a constant or a variable. -/
inductive NamedNodePattern where
  | namedNode (n : NamedNode)
  | var (v : Variable)
deriving DecidableEq, Repr

/-- A subject or object position. -/
inductive TermPattern where
  | namedNode (n : NamedNode)
  | blankNode (label : String)
  | literal (l : Literal)
  | triple (subject : TermPattern) (predicate : NamedNodePattern) (object : TermPattern)
  | var (v : Variable)
deriving DecidableEq, Repr

structure TriplePattern where
  subject : TermPattern
  predicate : NamedNodePattern
  object : TermPattern
deriving DecidableEq, Repr

inductive PropertyPathExpression where
  | namedNode (n : NamedNode)
  | reverse (path : PropertyPathExpression)
  | sequence (first second : PropertyPathExpression)
  | alternative (first second : PropertyPathExpression)
  | zeroOrMore (path : PropertyPathExpression)
  | oneOrMore (path : PropertyPathExpression)
  | zeroOrOne (path : PropertyPathExpression)
  | negatedPropertySet (ns : List NamedNode)
deriving DecidableEq, Repr

/-! ## Expressions -/

inductive BinaryOp where
  | or | and | equal | sameTerm | greater | greaterOrEqual | less | lessOrEqual
  | add | subtract | multiply | divide
deriving DecidableEq, Repr

inductive UnaryOp where
  | plus | minus | not
deriving DecidableEq, Repr

/-- A builtin or custom function. The ones that need an evaluation context are named. -/
inductive Function where
  | now | rand | uuid | strUuid | bNode
  | other (name : String)
deriving DecidableEq, Repr

/-- An expression. The pattern of an `EXISTS` is kept as its text: no function here
looks inside one. -/
inductive Expression where
  | namedNode (n : NamedNode)
  | literal (l : Literal)
  | var (v : Variable)
  | bound (v : Variable)
  | binary (op : BinaryOp) (a b : Expression)
  | unary (op : UnaryOp) (a : Expression)
  | ite (a b c : Expression)
  | isIn (a : Expression) (list : List Expression)
  | coalesce (list : List Expression)
  | functionCall (function : Function) (args : List Expression)
  | existsPattern (pattern : String)

/-! ## Graph patterns -/

inductive OrderExpression where
  | asc (e : Expression)
  | desc (e : Expression)

inductive AggregateExpression where
  | countSolutions (distinct : Bool)
  | functionCall (name : String) (expr : Expression) (distinct : Bool)

inductive GraphPattern where
  | bgp (patterns : List TriplePattern)
  | path (subject : TermPattern) (path : PropertyPathExpression) (object : TermPattern)
  | join (left right : GraphPattern)
  | leftJoin (left right : GraphPattern) (expression : Option Expression)
  | filter (expr : Expression) (inner : GraphPattern)
  | union (left right : GraphPattern)
  | graph (name : NamedNodePattern) (inner : GraphPattern)
  | extend (inner : GraphPattern) (v : Variable) (expression : Expression)
  | minus (left right : GraphPattern)
  | values (vars : List Variable) (bindings : List (List (Option GroundTerm)))
  | orderBy (inner : GraphPattern) (expression : List OrderExpression)
  | project (inner : GraphPattern) (vars : List Variable)
  | distinct (inner : GraphPattern)
  | reduced (inner : GraphPattern)
  | slice (inner : GraphPattern) (start : Nat) (length : Option Nat)
  | group (inner : GraphPattern) (vars : List Variable) (aggregates : List (Variable × AggregateExpression))
  | service (name : NamedNodePattern) (inner : GraphPattern) (silent : Bool)

/-- The graphs a `FROM` and `FROM NAMED` name. -/
structure QueryDataset where
  default : List NamedNode
  named : Option (List NamedNode)

inductive Query where
  | select (dataset : Option QueryDataset) (pattern : GraphPattern)
  | construct (template : List TriplePattern) (dataset : Option QueryDataset) (pattern : GraphPattern)
  | describe (dataset : Option QueryDataset) (pattern : GraphPattern)
  | ask (dataset : Option QueryDataset) (pattern : GraphPattern)

/-- Splits `A && B` into its conjuncts. -/
def flattenConjunction : Expression → List Expression
  | .binary .and left right => flattenConjunction left ++ flattenConjunction right
  | e => [e]

end Holos.Sparql
