import Holos.Lib.Assoc
import Holos.Lib.Mapping
import Holos.Sparql.Algebra
import Holos.Store.Backend
/-!
# The meaning of every pattern

What sequences of rows answer a pattern over a dataset, for every operator of the algebra and for
triple terms at any depth. Where the specification leaves an order or a choice open, each is an
answer. Expressions, aggregates, sort orders and property paths have their meaning from outside.
-/

namespace Holos.Sparql

open Lib

abbrev TermRow := Mapping Variable Term

/-- A dataset: its quads, and the names of its graphs. -/
structure RdfDataset where
  quads : Finset Quad
  graphs : Finset NamedOrBlankNode

/-- The graph a name names. -/
def graphNamed : NamedOrBlankNode → GraphName
  | .namedNode iri => .namedNode iri
  | .blankNode id => .blankNode id

/-- The datasets behind the endpoints there are, and the meanings that come from elsewhere. -/
structure Federation where
  endpoints : List (NamedNode × RdfDataset)
  holds : RdfDataset → GraphName → Expression → TermRow → Bool
  value : RdfDataset → GraphName → Expression → TermRow → Option Term
  aggregate : RdfDataset → GraphName → AggregateExpression → List TermRow → Option Term
  before : RdfDataset → GraphName → List OrderExpression → TermRow → TermRow → Prop
  /-- The pairs of terms a path leads between. -/
  pairs : RdfDataset → GraphName → TermPattern → PropertyPathExpression → TermPattern → Multiset (Term × Term)
  /-- What an endpoint hands on of a row that answers a pattern. -/
  hand : GraphPattern → TermRow → TermRow

/-! ## Triple patterns -/

def NamedNodePattern.rows : NamedNodePattern → NamedNode → Multiset TermRow
  | .var v, n => {Finmap.singleton v (.namedNode n)}
  | .namedNode m, n => if m = n then {∅} else 0

/-- How a term matches; a triple term by its parts. -/
def TermPattern.rows : TermPattern → Term → Multiset TermRow
  | .var v, t => {Finmap.singleton v t}
  | .blankNode label, t => {Finmap.singleton (.blank label) t}
  | .namedNode n, t => if t = .namedNode n then {∅} else 0
  | .literal l, t => if t = .literal l then {∅} else 0
  | .triple s p o, .triple s' p' o' => Mapping.join (s.rows s'.toTerm) (Mapping.join (p.rows p') (o.rows o'))
  | .triple _ _ _, _ => 0

def TriplePattern.quadRows (t : TriplePattern) (q : Quad) : Multiset TermRow :=
  Mapping.join (t.subject.rows q.subject.toTerm) (Mapping.join (t.predicate.rows q.predicate) (t.object.rows q.object))

def RdfDataset.tripleRows (D : RdfDataset) (G : GraphName) (t : TriplePattern) : Multiset TermRow :=
  (D.quads.filter (·.graphName = G)).val.bind t.quadRows

/-! ## Operators -/

/-- One row of a `VALUES`; an `UNDEF` binds nothing. -/
def groundRow : List (Variable × Option GroundTerm) → Multiset TermRow
  | [] => {∅}
  | (_, none) :: row => groundRow row
  | (v, some term) :: row => Mapping.join {Finmap.singleton v term.toTerm} (groundRow row)

def bindVariable (v : Variable) (value : Option Term) (μ : TermRow) : TermRow :=
  match value with
  | some t => μ.insert v t
  | none => μ

def orAlone (μ : TermRow) (found : Multiset TermRow) : Multiset TermRow := if found = 0 then {μ} else found

/-- The keys rows are grouped by; without variables there is one group, of no rows or more. -/
def groupKeys (vars : List Variable) (l : List TermRow) : List TermRow := if vars = [] then [∅] else (l.map (Mapping.restrict vars)).dedup

/-- A group's row: its key, and each aggregate of its rows. -/
def groupRow (aggregate : AggregateExpression → List TermRow → Option Term) (vars : List Variable)
    (aggregates : List (Variable × AggregateExpression)) (l : List TermRow) (key : TermRow) : TermRow :=
  aggregates.foldl (fun μ a => bindVariable a.1 (aggregate a.2 (l.filter (Mapping.restrict vars · = key))) μ) key

def Variable.isNamed : Variable → Bool
  | .named _ => true
  | .blank _ => false

open scoped Classical in
/-- The sequences of rows that answer a pattern in the active graph. -/
def Federation.Denotes (F : Federation) : RdfDataset → GraphName → GraphPattern → List TermRow → Prop
  | D, G, .bgp patterns, l => (l : Multiset TermRow) = Mapping.joinAll (patterns.map (D.tripleRows G))
  | D, G, .path subject path object, l =>
    (l : Multiset TermRow) = (F.pairs D G subject path object).bind fun xy => Mapping.join (subject.rows xy.1) (object.rows xy.2)
  | D, G, .join left right, l =>
    ∃ l₁ l₂, F.Denotes D G left l₁ ∧ F.Denotes D G right l₂ ∧ (l : Multiset TermRow) = Mapping.join (l₁ : Multiset TermRow) l₂
  | D, G, .leftJoin left right expression, l =>
    ∃ l₁ l₂, F.Denotes D G left l₁ ∧ F.Denotes D G right l₂ ∧ (l : Multiset TermRow) = (l₁ : Multiset TermRow).bind fun μ =>
      orAlone μ ((Mapping.extend μ (l₂ : Multiset TermRow)).filter fun ν => ∀ e ∈ expression, F.holds D G e ν = true)
  | D, G, .filter expr inner, l =>
    ∃ l₀, F.Denotes D G inner l₀ ∧ (l : Multiset TermRow) = (l₀ : Multiset TermRow).filter fun μ => F.holds D G expr μ = true
  | D, G, .union left right, l =>
    ∃ l₁ l₂, F.Denotes D G left l₁ ∧ F.Denotes D G right l₂ ∧ (l : Multiset TermRow) = (l₁ : Multiset TermRow) + l₂
  | D, _, .graph (.namedNode n) inner, l => if .namedNode n ∈ D.graphs then F.Denotes D (.namedNode n) inner l else l = []
  | D, _, .graph (.var v) inner, l =>
    ∃ found : NamedOrBlankNode → List TermRow, (∀ n ∈ D.graphs, F.Denotes D (graphNamed n) inner (found n)) ∧
      (l : Multiset TermRow) = D.graphs.val.bind fun n => Mapping.extend (Finmap.singleton v n.toTerm) (found n : Multiset TermRow)
  | D, G, .extend inner v expression, l =>
    ∃ l₀, F.Denotes D G inner l₀ ∧ (l : Multiset TermRow) = (l₀ : Multiset TermRow).map fun μ => bindVariable v (F.value D G expression μ) μ
  | D, G, .minus left right, l =>
    ∃ l₁ l₂, F.Denotes D G left l₁ ∧ F.Denotes D G right l₂ ∧ (l : Multiset TermRow) = (l₁ : Multiset TermRow).filter fun μ =>
      ¬∃ ν ∈ l₂, Mapping.Compat μ ν ∧ ∃ v ∈ μ.keys, v ∈ ν.keys
  | _, _, .values vars bindings, l => (l : Multiset TermRow) = (bindings : Multiset _).bind fun row => groundRow (vars.zip row)
  | D, G, .orderBy inner expression, l =>
    ∃ l₀, F.Denotes D G inner l₀ ∧ l.Perm l₀ ∧ l.Pairwise fun μ ν => ¬F.before D G expression ν μ
  | D, G, .project inner vars, l => ∃ l₀, F.Denotes D G inner l₀ ∧ l = l₀.map (Mapping.restrict vars)
  | D, G, .distinct inner, l => ∃ l₀, F.Denotes D G inner l₀ ∧ l.Sublist l₀ ∧ (∀ μ ∈ l₀, μ ∈ l) ∧ l.Nodup
  | D, G, .reduced inner, l => ∃ l₀, F.Denotes D G inner l₀ ∧ l.Sublist l₀ ∧ ∀ μ ∈ l₀, μ ∈ l
  | D, G, .slice inner start length, l =>
    ∃ l₀, F.Denotes D G inner l₀ ∧ l = length.elim (l₀.drop start) fun n => (l₀.drop start).take n
  | D, G, .group inner vars aggregates, l =>
    ∃ l₀, F.Denotes D G inner l₀ ∧
      (l : Multiset TermRow) = ((groupKeys vars l₀).map (groupRow (F.aggregate D G) vars aggregates l₀) : Multiset TermRow)
  | _, _, .service (.namedNode n) inner silent, l =>
    match Lib.value n F.endpoints with
    | some D => ∃ l₀, F.Denotes D .defaultGraph inner l₀ ∧ (l : Multiset TermRow) = (l₀ : Multiset TermRow).map (F.hand inner)
    | none => silent = true ∧ l = [∅]
  | _, _, .service (.var v) inner _, l =>
    ∃ found : NamedNode → List TermRow, (∀ e ∈ F.endpoints, F.Denotes e.2 .defaultGraph inner (found e.1)) ∧
      (l : Multiset TermRow) = (F.endpoints : Multiset (NamedNode × RdfDataset)).bind fun e =>
        Mapping.extend (Finmap.singleton v (.namedNode e.1)) ((found e.1 : Multiset TermRow).map (F.hand inner))

/-! ## The variables of a row -/

/-- The part of a row that is seen outside a query: the variables the query wrote. -/
noncomputable def seenPart (μ : TermRow) : TermRow := Mapping.restrict (μ.keys.toList.filter Variable.isNamed) μ

def NamedNodePattern.Holds (v : Variable) : NamedNodePattern → Prop
  | .var w => w = v
  | .namedNode _ => False

/-- A variable or a blank node stands in a term, however deep. -/
def TermPattern.Holds (v : Variable) : TermPattern → Prop
  | .var w => w = v
  | .blankNode label => .blank label = v
  | .namedNode _ => False
  | .literal _ => False
  | .triple s p o => s.Holds v ∨ p.Holds v ∨ o.Holds v

def TriplePattern.Holds (v : Variable) (t : TriplePattern) : Prop := t.subject.Holds v ∨ t.predicate.Holds v ∨ t.object.Holds v

end Holos.Sparql
