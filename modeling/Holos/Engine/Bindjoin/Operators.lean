import Holos.Engine.Bindjoin.Answers
/-!
# The answers of one operator

`answers` for the queries with a `MINUS`, an `OPTIONAL`, a closure or a `GRAPH` block in them,
and for each operator a query that is accepted and answered wrongly: which of the conditions
fails there is what the planner or the loop does not look at.
-/

namespace Holos.Engine.Bindjoin

open Sparql Lib

/-- Some part of the pattern passes the test. -/
def anyPart (test : GraphPattern → Bool) : GraphPattern → Bool
  | .join left right => test (.join left right) || anyPart test left || anyPart test right
  | .union left right => test (.union left right) || anyPart test left || anyPart test right
  | .minus left right => test (.minus left right) || anyPart test left || anyPart test right
  | .leftJoin left right e => test (.leftJoin left right e) || anyPart test left || anyPart test right
  | .filter e inner => test (.filter e inner) || anyPart test inner
  | .graph name inner => test (.graph name inner) || anyPart test inner
  | .project inner vars => test (.project inner vars) || anyPart test inner
  | pattern => test pattern

def isMinus : GraphPattern → Bool
  | .minus _ _ => true
  | _ => false

def isOptional : GraphPattern → Bool
  | .leftJoin _ _ _ => true
  | _ => false

/-- A closure over one predicate. -/
def isClosure : GraphPattern → Bool
  | .path _ path _ => ((closureHops path).bind (closurePredicate ·.1)).isSome
  | _ => false

def isGraphBlock : GraphPattern → Bool
  | .graph _ _ => true
  | _ => false

/-- What an accepted query needs to be answered rightly: its operators can be hoisted, no
closure of it strays, and no probe is remembered. -/
structure Answerable (p : Plan) (cx : Context) (I : Interpretation) (pattern : GraphPattern) : Prop where
  straight : straight 0 (whereOf pattern) = true
  sound : Sound I .default none ∅ (whereOf pattern)
  inside : strayed (p.trace cx) = false
  unremembered : p.forgets ∨ quiet (p.trace cx) = true

section Operators
variable {converts : Expression → Bool} {pattern : GraphPattern} {p : Plan} {cx : Context} {I : Interpretation}
  {limits : Limits} {rows : List Row}

/-- Not an answer: no multiset of solutions the query has is what the rows show. -/
def Wrong (p : Plan) (I : Interpretation) (pattern : GraphPattern) (rows : List Row) : Prop :=
  ¬ ∃ M, I.Answer pattern M ∧ (rows : Multiset Row) = M.map p.project

/-- A row that is shown is shown of a solution. -/
theorem mem_of_row {M : Multiset Solution} (h : (rows : Multiset Row) = M.map p.project) {row : Row} (hrow : row ∈ rows) :
    ∃ μ ∈ M, p.project μ = row := by
  rw [← Multiset.mem_map, ← h]
  exact hrow

/-! ## Single patterns -/

theorem mem_eval_pair {G : Option TermId} {x y : Variable} (hxy : x ≠ y) {pr : NamedNode} {μ : Solution} :
    μ ∈ I.eval G (.bgp [⟨.var x, .namedNode pr, .var y⟩]) ↔
      ∃ q ∈ I.quads, (q.graphName = G ∧ q.predicate = I.intern (.namedNode pr)) ∧ pairSolution x y q = μ := by
  rw [eval_bgp (by simp [usablePattern])]
  simp only [List.map_cons, List.map_nil, Mapping.joinAll_cons, Mapping.joinAll_nil, Mapping.join_unit]
  rw [tripleSolutions_pair I G hxy, Multiset.mem_map]
  simp only [Finset.mem_val, Finset.mem_filter, Interpretation.graph, and_assoc]

theorem mem_keys_pairSolution {x y v : Variable} {q : EncodedQuad} : v ∈ (pairSolution x y q).keys ↔ x = v ∨ y = v := by
  rw [pairSolution, Mapping.mem_keys_union, mem_keys_singleton, mem_keys_singleton]

/-- Two solutions that meet in their subjects. -/
theorem compat_pairSolution {x y z : Variable} {q q' : EncodedQuad} (hyz : y ≠ z) (h : q.subject = q'.subject) :
    Mapping.Compat (pairSolution x y q) (pairSolution x z q') := by
  intro v hv hv'
  rw [mem_keys_pairSolution] at hv hv'
  have hx : x = v := by
    rcases hv with rfl | rfl
    · rfl
    · exact hv'.resolve_right hyz.symm
  subst hx
  rw [lookup_pairSolution_left, lookup_pairSolution_left, h]

/-! ## MINUS -/

/-- `SELECT ?x { ?x :p ?y MINUS { ?x :q ?y } }`. -/
def pairMinus : GraphPattern :=
  .project (.minus (.bgp [⟨.var (.named "x"), .namedNode "p", .var (.named "y")⟩])
    (.bgp [⟨.var (.named "x"), .namedNode "q", .var (.named "y")⟩])) [.named "x"]

/-- `:a :p :b`, `:a :p :c` and `:a :q :b`. -/
def halfRemoved : Store :=
  Store.ofOps (Store.internedIris ["a", "b", "c", "p", "q"]) 5
    [.insert ⟨0, 3, 1, none⟩, .insert ⟨0, 3, 2, none⟩, .insert ⟨0, 4, 1, none⟩]

theorem unused_halfRemoved : unused halfRemoved TermId.max := by
  unfold unused
  decide

/-- `SELECT ?s { { { ?s :p ?v } UNION { ?s :q ?w } } OPTIONAL { ?s :r ?v } ?s :t ?v }`. -/
def lateOptional : GraphPattern :=
  .project (.join (.leftJoin (.union (.bgp [⟨.var (.named "s"), .namedNode "p", .var (.named "v")⟩])
      (.bgp [⟨.var (.named "s"), .namedNode "q", .var (.named "w")⟩]))
      (.bgp [⟨.var (.named "s"), .namedNode "r", .var (.named "v")⟩]) none)
    (.bgp [⟨.var (.named "s"), .namedNode "t", .var (.named "v")⟩])) [.named "s"]

/-- `:s :q :w`, `:s :r :v` and `:s :t :u`. -/
def lateStore : Store :=
  Store.ofOps (Store.internedIris ["s", "w", "v", "u", "p", "q", "r", "t"]) 8
    [.insert ⟨0, 5, 1, none⟩, .insert ⟨0, 6, 2, none⟩, .insert ⟨0, 7, 3, none⟩]

theorem unused_lateStore : unused lateStore TermId.max := by
  unfold unused
  decide

/-- `SELECT ?x ?z { ?x :p ?y OPTIONAL { ?x :q ?z } }`. -/
def pairOptional : GraphPattern :=
  .project (.leftJoin (.bgp [⟨.var (.named "x"), .namedNode "p", .var (.named "y")⟩])
    (.bgp [⟨.var (.named "x"), .namedNode "q", .var (.named "z")⟩]) none) [.named "x", .named "z"]

/-- `SELECT ?o { GRAPH ?g { :a :p+ ?o } }`. -/
def anyGraphClosure : GraphPattern :=
  .project (.graph (.var (.named "g")) (.path (.namedNode "a") (.oneOrMore (.namedNode "p")) (.var (.named "o"))))
    [.named "o"]

/-- `:a :p :b` in `:g`, and `:b :p :c` in `:h`. -/
def twoGraphs : Store :=
  Store.ofOps (Store.internedIris ["a", "b", "c", "p", "g", "h"]) 6
    [.insert ⟨0, 3, 1, some 4⟩, .insert ⟨1, 3, 2, some 5⟩]

theorem unused_twoGraphs : unused twoGraphs TermId.max := by
  unfold unused
  decide

/-- No walk leads from `:a` to `:c` inside one graph. -/
theorem no_walk_twoGraphs (n : TermId) :
    ¬ (interpret twoGraphs fun _ _ => false).Steps (some n) (.oneOrMore (.namedNode "p")) 0 2 := by
  intro hwalk
  obtain ⟨x, ⟨q, hq, -, hqs, -⟩, -⟩ := Relation.TransGen.head'_iff.1 hwalk
  obtain ⟨y, -, ⟨q', hq', -, -, hqo⟩⟩ := Relation.TransGen.tail'_iff.1 hwalk
  obtain ⟨hq, hg⟩ := Finset.mem_filter.1 hq
  obtain ⟨hq', hg'⟩ := Finset.mem_filter.1 hq'
  -- the first step is in `:g`, the last in `:h`
  have hquads : ∀ q ∈ (interpret twoGraphs fun _ _ => false).quads, ∀ q' ∈ (interpret twoGraphs fun _ _ => false).quads,
      q.subject = 0 → q'.object = 2 → q.graphName ≠ q'.graphName := by decide
  exact hquads q hq q' hq' hqs hqo (hg.trans hg'.symm)

/-- `SELECT ?o { :a :p+ ?o }`. -/
def oneGraphClosure : GraphPattern :=
  .project (.path (.namedNode "a") (.oneOrMore (.namedNode "p")) (.var (.named "o"))) [.named "o"]

/-- `SELECT ?x { GRAPH ?g { VALUES ?x { :a } } }`. -/
def anyGraphValues : GraphPattern :=
  .project (.graph (.var (.named "g")) (.values [.named "x"] [[some (.namedNode "a")]])) [.named "x"]

/-- `SELECT ?g ?y { GRAPH ?g { ?x :p ?y } }`. -/
def anyGraphPair : GraphPattern :=
  .project (.graph (.var (.named "g")) (.bgp [⟨.var (.named "x"), .namedNode "p", .var (.named "y")⟩])) [.named "g", .named "y"]

end Operators

end Holos.Engine.Bindjoin
