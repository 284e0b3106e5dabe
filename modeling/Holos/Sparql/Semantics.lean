import Holos.Lib.Mapping
import Holos.Sparql.Algebra
import Holos.Store.Index
import Mathlib.Data.Finset.Prod
import Mathlib.Logic.Relation
/-!
# The meaning of a pattern

The bottom-up semantics of the SPARQL algebra, over term ids: a pattern denotes the multiset
of its solutions in the active graph. Nothing here knows of plans or indexes.

The operators no plan is made for have their meaning from outside, as `beyond`, and so has
the expression evaluator, as `holds`.
-/

namespace Holos.Sparql

open Lib

abbrev Solution := Mapping Variable TermId

/-- What a query is evaluated over: the quads, the names of the graphs (a graph may be
empty), the id of every term, and the meanings that come from elsewhere. -/
structure Interpretation where
  quads : Finset EncodedQuad
  graphs : Finset TermId
  named : ∀ q ∈ quads, ∀ n, q.graphName = some n → n ∈ graphs
  intern : Term → TermId
  holds : Expression → Solution → Bool
  beyond : Option TermId → GraphPattern → Multiset Solution

namespace Interpretation

variable (I : Interpretation)

/-- The quads of one graph; `none` is the default graph. -/
def graph (G : Option TermId) : Finset EncodedQuad := I.quads.filter (·.graphName = G)

/-- The subjects and objects of one graph. -/
def nodes (G : Option TermId) : Finset TermId := (I.graph G).image (·.subject) ∪ (I.graph G).image (·.object)

/-! ## Triple patterns -/

/-- How one position matches an id. A triple term is not matched here. -/
def termSolutions : TermPattern → TermId → Multiset Solution
  | .var v, id => {Finmap.singleton v id}
  | .blankNode label, id => {Finmap.singleton (.blank label) id}
  | .namedNode n, id => if I.intern (.namedNode n) = id then {∅} else 0
  | .literal l, id => if I.intern (.literal l) = id then {∅} else 0
  | .triple _ _ _, _ => 0

def predicateSolutions : NamedNodePattern → TermId → Multiset Solution
  | .var v, id => {Finmap.singleton v id}
  | .namedNode n, id => if I.intern (.namedNode n) = id then {∅} else 0

def quadSolutions (t : TriplePattern) (q : EncodedQuad) : Multiset Solution :=
  Mapping.join (I.termSolutions t.subject q.subject)
    (Mapping.join (I.predicateSolutions t.predicate q.predicate) (I.termSolutions t.object q.object))

def tripleSolutions (G : Option TermId) (t : TriplePattern) : Multiset Solution :=
  (I.graph G).val.bind (I.quadSolutions t)

/-! ## Property paths -/

/-- The pairs of ids a path leads between. -/
def Steps (G : Option TermId) : PropertyPathExpression → TermId → TermId → Prop
  | .namedNode p, x, y => ∃ q ∈ I.graph G, q.predicate = I.intern (.namedNode p) ∧ q.subject = x ∧ q.object = y
  | .reverse path, x, y => Steps G path y x
  | .sequence first second, x, y => ∃ z, Steps G first x z ∧ Steps G second z y
  | .alternative first second, x, y => Steps G first x y ∨ Steps G second x y
  | .zeroOrMore path, x, y => Relation.ReflTransGen (Steps G path) x y
  | .oneOrMore path, x, y => Relation.TransGen (Steps G path) x y
  | .zeroOrOne path, x, y => x = y ∨ Steps G path x y
  | .negatedPropertySet ns, x, y =>
    ∃ q ∈ I.graph G, (∀ n ∈ ns, q.predicate ≠ I.intern (.namedNode n)) ∧ q.subject = x ∧ q.object = y

/-- The id of a constant end. -/
def constant : TermPattern → Finset TermId
  | .namedNode n => {I.intern (.namedNode n)}
  | .literal l => {I.intern (.literal l)}
  | _ => ∅

/-- The ids a closure's ends range over: the nodes of the graph, and the constants. -/
def ends (G : Option TermId) (subject object : TermPattern) : Finset TermId :=
  I.nodes G ∪ I.constant subject ∪ I.constant object

open scoped Classical in
/-- A closure: each pair once. A path of length nought needs a constant end, or a node of
the graph. -/
noncomputable def closureSolutions (G : Option TermId) (subject : TermPattern) (path : PropertyPathExpression)
    (object : TermPattern) : Multiset Solution :=
  ((I.ends G subject object ×ˢ I.ends G subject object).filter (fun xy => I.Steps G path xy.1 xy.2 ∧
      ((I.constant subject).Nonempty ∨ (I.constant object).Nonempty ∨ xy.1 ∈ I.nodes G))).val.bind
    (fun xy => Mapping.join (I.termSolutions subject xy.1) (I.termSolutions object xy.2))

/-- A path: a closure is a set of pairs, an alternative is a sum, and a single predicate is
a triple pattern. -/
noncomputable def pathSolutions (G : Option TermId) (subject object : TermPattern) :
    PropertyPathExpression → Multiset Solution
  | .namedNode p => I.tripleSolutions G ⟨subject, .namedNode p, object⟩
  | .alternative first second => pathSolutions G subject object first + pathSolutions G subject object second
  | .zeroOrMore path => I.closureSolutions G subject (.zeroOrMore path) object
  | .oneOrMore path => I.closureSolutions G subject (.oneOrMore path) object
  | .zeroOrOne path => I.closureSolutions G subject (.zeroOrOne path) object
  | path => I.beyond G (.path subject path object)

/-! ## Graph patterns -/

/-- One row of a `VALUES`; an `UNDEF` binds nothing. -/
def rowSolutions : List (Variable × Option GroundTerm) → Multiset Solution
  | [] => {∅}
  | (_, none) :: row => rowSolutions row
  | (v, some term) :: row => Mapping.join {Finmap.singleton v (I.intern term.toTerm)} (rowSolutions row)

/-- A left solution with its matches, or by itself if it has none. -/
def optionally (μ : Solution) (found : Multiset Solution) : Multiset Solution := if found = 0 then {μ} else found

/-- The two are compatible, and some variable is bound in both. -/
def Removes (ν μ : Solution) : Prop := Mapping.Compat μ ν ∧ ∃ v ∈ μ.keys, v ∈ ν.keys

/-- A triple pattern without triple terms. -/
def plainTerm : TermPattern → Bool
  | .triple _ _ _ => false
  | _ => true

open scoped Classical in
/-- The solutions of a pattern in the active graph. -/
noncomputable def eval : Option TermId → GraphPattern → Multiset Solution
  | G, .bgp patterns =>
    if patterns.all (fun t => plainTerm t.subject && plainTerm t.object) then
      Mapping.joinAll (patterns.map (I.tripleSolutions G))
    else I.beyond G (.bgp patterns)
  | G, .path subject path object =>
    if plainTerm subject && plainTerm object then I.pathSolutions G subject object path
    else I.beyond G (.path subject path object)
  | G, .join left right => Mapping.join (eval G left) (eval G right)
  | G, .leftJoin left right expression =>
    (eval G left).bind (fun μ => optionally μ
      ((Mapping.extend μ (eval G right)).filter (fun ν => ∀ e ∈ expression, I.holds e ν = true)))
  | G, .filter expr inner => (eval G inner).filter (fun μ => I.holds expr μ = true)
  | G, .union left right => eval G left + eval G right
  | _, .graph (.namedNode n) inner =>
    if I.intern (.namedNode n) ∈ I.graphs then eval (some (I.intern (.namedNode n))) inner else 0
  | _, .graph (.var v) inner =>
    I.graphs.val.bind (fun n => Mapping.extend (Finmap.singleton v n) (eval (some n) inner))
  | G, .minus left right => (eval G left).filter (fun μ => ¬ ∃ ν ∈ eval G right, Removes ν μ)
  | _, .values vars bindings => (bindings : Multiset _).bind (fun row => I.rowSolutions (vars.zip row))
  | G, .project inner vars => (eval G inner).map (Mapping.restrict vars)
  | G, pattern => I.beyond G pattern

/-- An answer to a query's pattern: the wrappers outside the projection. A slice takes as
many as there are, in no particular order. -/
def Answer : GraphPattern → Multiset Solution → Prop
  | .distinct inner, M => ∃ N, Answer inner N ∧ M = N.dedup
  | .slice inner start length, M =>
    ∃ N, Answer inner N ∧ M ≤ N ∧ M.card = (length.elim id min) (N.card - start)
  | pattern, M => M = I.eval none pattern

end Interpretation

/-! ## The variables of a solution -/

/-- The variable a position binds. -/
def TermPattern.Mentions : TermPattern → Variable → Prop
  | .var w, v => w = v
  | .blankNode label, v => .blank label = v
  | _, _ => False

def NamedNodePattern.Mentions : NamedNodePattern → Variable → Prop
  | .var w, v => w = v
  | .namedNode _, _ => False

def TriplePattern.Mentions (t : TriplePattern) (v : Variable) : Prop :=
  t.subject.Mentions v ∨ t.predicate.Mentions v ∨ t.object.Mentions v

theorem mem_keys_singleton {v w : Variable} {id : TermId} : v ∈ (Finmap.singleton w id : Solution).keys ↔ w = v := by
  rw [Finmap.mem_keys, Finmap.mem_singleton, eq_comm]

theorem keys_join {M N : Multiset Solution} {μ : Solution} {p q : Variable → Prop}
    (hM : ∀ ν ∈ M, ∀ v, v ∈ ν.keys ↔ p v) (hN : ∀ ν ∈ N, ∀ v, v ∈ ν.keys ↔ q v) (h : μ ∈ Mapping.join M N) (v : Variable) :
    v ∈ μ.keys ↔ p v ∨ q v := by
  obtain ⟨ν, hν, ρ, hρ, -, rfl⟩ := Mapping.mem_join.1 h
  rw [Mapping.mem_keys_union, hM ν hν v, hN ρ hρ v]

namespace Interpretation

variable {I : Interpretation} {μ : Solution}

theorem keys_termSolutions {t : TermPattern} {id : TermId} (h : μ ∈ I.termSolutions t id) (v : Variable) :
    v ∈ μ.keys ↔ t.Mentions v := by
  have hconst : ∀ c, μ ∈ (if I.intern c = id then {∅} else 0 : Multiset Solution) → v ∉ μ.keys := by
    intro c hc
    split at hc
    · rw [Multiset.mem_singleton.1 hc]; simp
    · exact absurd hc (Multiset.notMem_zero μ)
  cases t with
  | var w => rw [Multiset.mem_singleton.1 h, mem_keys_singleton]; rfl
  | blankNode label => rw [Multiset.mem_singleton.1 h, mem_keys_singleton]; rfl
  | namedNode n => exact iff_of_false (hconst _ h) (fun h => h)
  | literal l => exact iff_of_false (hconst _ h) (fun h => h)
  | triple s p o => exact absurd h (Multiset.notMem_zero μ)

theorem keys_predicateSolutions {t : NamedNodePattern} {id : TermId} (h : μ ∈ I.predicateSolutions t id)
    (v : Variable) : v ∈ μ.keys ↔ t.Mentions v := by
  cases t with
  | var w => rw [Multiset.mem_singleton.1 h, mem_keys_singleton]; rfl
  | namedNode n =>
    simp only [predicateSolutions] at h
    split at h
    · rw [Multiset.mem_singleton.1 h]; simp [NamedNodePattern.Mentions]
    · exact absurd h (Multiset.notMem_zero μ)

theorem keys_quadSolutions {t : TriplePattern} {q : EncodedQuad} (h : μ ∈ I.quadSolutions t q) (v : Variable) :
    v ∈ μ.keys ↔ t.Mentions v :=
  keys_join (fun _ hν => keys_termSolutions hν)
    (fun _ hν => keys_join (fun _ hρ => keys_predicateSolutions hρ) (fun _ hρ => keys_termSolutions hρ) hν) h v

theorem keys_tripleSolutions {G : Option TermId} {t : TriplePattern} (h : μ ∈ I.tripleSolutions G t) (v : Variable) :
    v ∈ μ.keys ↔ t.Mentions v := by
  obtain ⟨q, -, hq⟩ := Multiset.mem_bind.1 h
  exact keys_quadSolutions hq v

theorem keys_closureSolutions {G : Option TermId} {s o : TermPattern} {path : PropertyPathExpression}
    (h : μ ∈ I.closureSolutions G s path o) (v : Variable) : v ∈ μ.keys ↔ s.Mentions v ∨ o.Mentions v := by
  obtain ⟨xy, -, hxy⟩ := Multiset.mem_bind.1 h
  exact keys_join (fun _ hν => keys_termSolutions hν) (fun _ hν => keys_termSolutions hν) hxy v

theorem keys_rowSolutions {row : List (Variable × Option GroundTerm)} (h : μ ∈ I.rowSolutions row) (v : Variable) :
    v ∈ μ.keys ↔ ∃ term, (v, some term) ∈ row := by
  induction row generalizing μ v with
  | nil => rw [Multiset.mem_singleton.1 h]; simp
  | cons cell row ih =>
    obtain ⟨w, term⟩ := cell
    cases term with
    | none => rw [ih h]; simp
    | some term =>
      rw [keys_join (fun _ hν => by rw [Multiset.mem_singleton.1 hν]; exact fun v => mem_keys_singleton)
        (fun _ hν => ih hν) h v]
      simp only [List.mem_cons, Prod.mk.injEq, Option.some.injEq]
      constructor
      · rintro (rfl | ⟨t, ht⟩)
        · exact ⟨term, .inl ⟨rfl, rfl⟩⟩
        · exact ⟨t, .inr ht⟩
      · rintro ⟨t, ⟨rfl, -⟩ | ht⟩
        · exact .inl rfl
        · exact .inr ⟨t, ht⟩

end Interpretation

end Holos.Sparql
