import Holos.Engine.Access
import Holos.Lib.Worklist
import Holos.Vocab
/-!
# RDFS entailment, materialised

The closure is computed on ids: the schema is read once and its hierarchies closed, the data goes
round by round until a round derives nothing, the reflexive axioms come last, and only then is
anything written. A hash table is the list of what is in it, gone through in an order of its own.
-/

namespace Holos

/-- Whether a term of this kind can stand as a triple's subject. -/
def TermId.canBeSubject (id : TermId) : Bool :=
  match id.tag with
  | .iri | .blankNode | .vocab => true
  | _ => false

namespace Engine.Entailment

open Lib Security

/-- The vocabulary terms the rules turn on. -/
structure Rdfs where
  ty : TermId
  subClassOf : TermId
  subPropertyOf : TermId
  domain : TermId
  range : TermId
  member : TermId
  containerMembershipProperty : TermId
  reifies : TermId
  proposition : TermId
deriving DecidableEq

def Rdfs.new : Option Rdfs := do
  return {
    ty := ← Vocab.encodeIri (Vocab.rdf "type")
    subClassOf := ← Vocab.encodeIri (Vocab.rdfs "subClassOf")
    subPropertyOf := ← Vocab.encodeIri (Vocab.rdfs "subPropertyOf")
    domain := ← Vocab.encodeIri (Vocab.rdfs "domain")
    range := ← Vocab.encodeIri (Vocab.rdfs "range")
    member := ← Vocab.encodeIri (Vocab.rdfs "member")
    containerMembershipProperty := ← Vocab.encodeIri (Vocab.rdfs "ContainerMembershipProperty")
    reifies := ← Vocab.encodeIri (Vocab.rdf "reifies")
    proposition := ← Vocab.encodeIri (Vocab.rdfs "Proposition") }

/-- The vocabulary by its places in the well-known table. -/
def wellKnown : Rdfs where
  ty := .small .vocab 0
  subClassOf := .small .vocab 22
  subPropertyOf := .small .vocab 23
  domain := .small .vocab 24
  range := .small .vocab 25
  member := .small .vocab 33
  containerMembershipProperty := .small .vocab 246
  reifies := .small .vocab 10
  proposition := .small .vocab 247

theorem Rdfs.new_eq : Rdfs.new = some wellKnown := by decide +kernel

/-- A statement, whatever graphs it is in. -/
abbrev Row := TermId × TermId × TermId

/-- A hash map to hash sets, as the pairs it holds. -/
abbrev Pairs := List (TermId × TermId)

def Pairs.get (m : Pairs) (key : TermId) : List TermId := (m.filter (fun pair => pair.1 = key)).map Prod.snd

def Pairs.keys (m : Pairs) : List TermId := (m.map Prod.fst).dedup

/-- The order hash tables are gone through in. -/
structure Order where
  of : ∀ {α : Type}, List α → List α
  perm : ∀ {α : Type} (l : List α), (of l).Perm l

/-- What a materialisation did. -/
structure Entailed where
  added : Nat
  rounds : Nat
deriving DecidableEq, Repr

/-! ## The schema -/

structure Schema where
  superProperties : Pairs := []
  superClasses : Pairs := []
  domains : Pairs := []
  ranges : Pairs := []

def Schema.read (rdfs : Rdfs) (schema : Schema) (r : Row) : Schema :=
  let (s, p, o) := r
  if p = rdfs.subPropertyOf then { schema with superProperties := schema.superProperties.insert (s, o) }
  else if p = rdfs.subClassOf then { schema with superClasses := schema.superClasses.insert (s, o) }
  else if p = rdfs.domain then { schema with domains := schema.domains.insert (s, o) }
  else if p = rdfs.range then { schema with ranges := schema.ranges.insert (s, o) }
  else schema

/-- Everything reachable from a key, not the key itself. The stack is popped at its end. -/
def reached (order : Order) (m : Pairs) (key : TermId) : List TermId :=
  let nodes := (m.map Prod.fst ++ m.map Prod.snd).toFinset
  let further := fun node => (order.of (m.get node)).reverse
  let stack := (order.of (m.get key)).reverse
  (walk further (cost further nodes stack [] + 1) stack []).filter (· ≠ key)

/-- Replaces each entry with everything reachable from it. An entry already replaced is gone through
as it is then. -/
def closeTransitively (order : Order) (m : Pairs) : Pairs :=
  (order.of m.keys).foldl
    (fun m key => m.filter (fun pair => pair.1 ≠ key) ++ (reached order m key).map (fun node => (key, node))) m

/-! ## The rules -/

/-- What follows from one statement: rdfs7, rdfs2, rdfs3 and rdfs9. A literal has no type, having no
place as a subject. -/
def conclusions (order : Order) (rdfs : Rdfs) (schema : Schema) (r : Row) : List Row :=
  let (s, p, o) := r
  (order.of (schema.superProperties.get p)).map (fun q => (s, q, o)) ++
  (order.of (schema.domains.get p)).map (fun c => (s, rdfs.ty, c)) ++
  (if o.canBeSubject then (order.of (schema.ranges.get p)).map (fun c => (o, rdfs.ty, c)) else []) ++
  (if p = rdfs.ty then (order.of (schema.superClasses.get o)).map (fun d => (s, rdfs.ty, d)) else [])

def overBudget (budget : Nat) : String :=
  s!"the RDFS closure exceeded {budget} new triples and was abandoned; nothing was written. A schema entailing this much is worth reading before it is materialised."

/-- The same, as the last check has it. -/
def overBudgetLast (budget : Nat) : String :=
  s!"the RDFS closure exceeded {budget} new triples and was abandoned; nothing was              written. A schema entailing this much is worth reading before it is              materialised."

/-- Rounds over what the round before derived, counted down. `none` is a count too low. -/
def saturate (order : Order) (rdfs : Rdfs) (schema : Schema) (asserted budget : Nat) :
    Nat → List Row → List Row → List Row → Nat → Option (Except String (List Row × List Row × Nat))
  | 0, _, _, _, _ => none
  | _ + 1, [], known, fresh, rounds => some (.ok (known, fresh, rounds))
  | left + 1, frontier, known, fresh, rounds =>
    let (known, next) := (frontier.flatMap (conclusions order rdfs schema)).foldl absorb (known, [])
    if known.length - asserted > budget then some (.error (overBudget budget))
    else saturate order rdfs schema asserted budget left next known (fresh ++ next) (rounds + 1)

/-- The classes and the properties a statement is about. -/
def classesOf (rdfs : Rdfs) (classes : List TermId) (r : Row) : List TermId :=
  let (s, p, o) := r
  if p = rdfs.ty then classes.insert o
  else if p = rdfs.subClassOf then (classes.insert s).insert o
  else if p = rdfs.subPropertyOf then classes
  else if p = rdfs.domain || p = rdfs.range then classes.insert o
  else classes

def propertiesOf (rdfs : Rdfs) (properties : List TermId) (r : Row) : List TermId :=
  let (s, p, o) := r
  let properties := properties.insert p
  if p = rdfs.ty then properties
  else if p = rdfs.subClassOf then properties
  else if p = rdfs.subPropertyOf then (properties.insert s).insert o
  else if p = rdfs.domain || p = rdfs.range then properties.insert s
  else properties

/-- rdfs10 and rdfs6: every class and every property is under itself. -/
def reflexive (order : Order) (rdfs : Rdfs) (known : List Row) : List Row :=
  ((order.of ((order.of known).foldl (classesOf rdfs) [])).filter TermId.canBeSubject).map (fun c => (c, rdfs.subClassOf, c)) ++
  ((order.of ((order.of known).foldl (propertiesOf rdfs) [])).filter TermId.canBeSubject).map (fun p => (p, rdfs.subPropertyOf, p))

/-- The schema, with the container axioms and the range of `rdf:reifies`, and its hierarchies closed. -/
def Schema.of (order : Order) (rdfs : Rdfs) (asserted axioms : List Row) : Schema :=
  let schema := (order.of asserted).foldl (Schema.read rdfs) {}
  let superProperties := axioms.foldl
    (fun m r => if r.2.1 = rdfs.subPropertyOf then m.insert (r.1, r.2.2) else m) schema.superProperties
  { schema with
    superProperties := closeTransitively order superProperties
    superClasses := closeTransitively order schema.superClasses
    ranges := schema.ranges.insert (rdfs.reifies, rdfs.proposition) }

/-- The hierarchies, as statements. -/
def hierarchies (order : Order) (rdfs : Rdfs) (schema : Schema) : List Row :=
  (order.of schema.superProperties).map (fun pair => (pair.1, rdfs.subPropertyOf, pair.2)) ++
  (order.of schema.superClasses).map (fun pair => (pair.1, rdfs.subClassOf, pair.2))

/-- What is entailed and was not asserted, in the order it was found, and the rounds it took. -/
def closure (order : Order) (rdfs : Rdfs) (asserted axioms : List Row) (budget : Nat) : Option (Except String (List Row × Nat)) :=
  let schema := Schema.of order rdfs asserted axioms
  let (known, fresh) := axioms.foldl absorb (asserted, [])
  let (known, fresh) := (hierarchies order rdfs schema).foldl absorb (known, fresh)
  match saturate order rdfs schema asserted.length budget (budget + 2) (order.of known) known fresh 0 with
  | none => none
  | some (.error message) => some (.error message)
  | some (.ok (known, fresh, rounds)) =>
    let (known, fresh) := (reflexive order rdfs known).foldl absorb (known, fresh)
    if known.length - asserted.length > budget then some (.error (overBudgetLast budget)) else some (.ok (fresh, rounds))

/-! ## The store -/

/-- `rdf:_1`, `rdf:_2`, and so on. -/
def containerMembershipPrefix : String := "http://www.w3.org/1999/02/22-rdf-syntax-ns#_"

def isContainerMembership (iri : NamedNode) : Bool :=
  let index := iri.toList.drop containerMembershipPrefix.length
  containerMembershipPrefix.toList.isPrefixOf iri.toList && !index.isEmpty && index.all Char.isDigit

variable {B : Backend} {ρ : Type}

/-- A term is looked at once. -/
def examine (rdfs : Rdfs) (st : List TermId × List Row) (term : TermId) : Eff EngineError (World B ρ) (List TermId × List Row) := do
  if term ∈ st.1 then return st
  let examined := term :: st.1
  match ← World.decodeTerm term with
  | some (.namedNode iri) =>
    if isContainerMembership iri then
      return (examined, st.2 ++ [(term, rdfs.ty, rdfs.containerMembershipProperty), (term, rdfs.subPropertyOf, rdfs.member)])
    else return (examined, st.2)
  | _ => return (examined, st.2)

/-- rdfs12, for the container membership properties that occur. -/
def containerAxioms (order : Order) (rdfs : Rdfs) (known : List Row) : Eff EngineError (World B ρ) (List Row) := do
  let (_, axioms) ← ((order.of known).flatMap (fun r => [r.1, r.2.1, r.2.2])).foldlM (examine rdfs) ([], [])
  return axioms

/-- The row of an encoded quad. -/
def rowOf (quad : EncodedQuad) : Row := (quad.subject, quad.predicate, quad.object)

def Row.inGraph (r : Row) (graph : Option TermId) : EncodedQuad := ⟨r.1, r.2.1, r.2.2, graph⟩

/-- Nothing else is asked of what is written than that its subject can be one. -/
def writeRow (asserted : List Row) (graph : Option TermId) (added : Nat) (r : Row) : Eff EngineError (World B ρ) Nat := do
  if !r.1.canBeSubject then return added
  if r ∈ asserted then return added
  let policy ← World.policy
  if !policy.permitsQuad (Row.inGraph r graph) Modes.write then throw .accessDenied
  if ← World.insertEncoded (Row.inGraph r graph) then return added + 1 else return added

/-- Materialises the RDFS closure of a store into a graph. -/
def materialise (order : Order) (graph : Option TermId) (budget : Nat) : Eff EngineError (World B ρ) Entailed := do
  match Rdfs.new with
  | none => throw (.io "the RDFS vocabulary is missing from the well-known table")
  | some rdfs =>
    let quads ← World.quadsForPattern none none none .any
    let asserted := quads.foldl (fun known quad => known.insert (rowOf quad)) []
    let axioms ← containerAxioms order rdfs asserted
    match closure order rdfs asserted axioms budget with
    | none => .of (fun _ => none)
    | some (.error message) => throw (.badRequest message)
    | some (.ok (fresh, rounds)) =>
      let added ← fresh.foldlM (writeRow asserted graph) 0
      return ⟨added, rounds⟩

end Engine.Entailment

end Holos
