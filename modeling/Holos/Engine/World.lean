import Holos.Security.Policy
import Holos.Store.Backend
/-!
# Programs over a store and a session

What the engine does to a store it does through these, under the source's names. A run carries
the store, the session and whatever else the caller threads through.

The rules say what each leaves when a scope is open over `c`: what the store stands for then, or
a failure that leaves the scope open over `c`.
-/

namespace Holos

open Lib Security

/-! ## Sessions -/

namespace Security

def CompiledPolicy.permitsQuad (self : CompiledPolicy) (quad : EncodedQuad) (mode : Modes) : Bool :=
  self.decideQuad quad mode = .allow

/-- A rule that names an IRI the dictionary had never seen enforces nothing, so a policy with one
is compiled again once the store has grown. -/
def CompiledPolicy.isStale (self : CompiledPolicy) (dictionaryLen : Nat) : Bool :=
  !self.unresolved.isEmpty && dictionaryLen ≠ self.compiledAtDictionaryLen

/-- A principal bound to a policy, with the compiled form cached. -/
structure Session where
  principal : Principal
  policy : Policy
  compiled : CompiledPolicy

/-- The principal of an unauthenticated access. -/
def Principal.anonymous : Principal := ⟨"urn:holos:principal:anonymous", ∅, [], none⟩

/-- A policy that permits everything. -/
def Policy.permitAll : Policy := ⟨.allow, .filter, [], [], Label.default⟩

/-- Opens a session for a principal against a store's dictionary. -/
def Session.open (resolve : Resolve) (dictionaryLen : Nat) (principal : Principal) (policy : Policy) : Except StorageError Session := do
  return ⟨principal, policy, ← policy.compileWith resolve dictionaryLen principal⟩

/-- Opens a session that can do anything. -/
def Session.unrestricted (resolve : Resolve) (dictionaryLen : Nat) : Except StorageError Session :=
  Session.open resolve dictionaryLen .anonymous .permitAll

end Security

/-- A store, a session, and the caller's own state. -/
structure World (B : Backend) (ρ : Type) where
  store : B.State
  session : Session
  extra : ρ

/-- Errors a storage failure turns into. -/
class OfStorage (ε : Type) where
  ofStorage : StorageError → ε

instance : OfStorage StorageError := ⟨id⟩

namespace World

variable {B : Backend} {ρ ε : Type} [OfStorage ε]

def failed {α : Type} : Except StorageError α → Except ε α
  | .ok a => .ok a
  | .error e => .error (OfStorage.ofStorage e)

/-! ## The store -/

def encodeTerm (t : Term) : Eff ε (World B ρ) TermId :=
  .of (fun w => (B.encode w.store t).map (fun r => (failed r.1, { w with store := r.2 })))

def write (op : Index.Op) : Eff ε (World B ρ) Bool :=
  .of (fun w => some (failed (B.write w.store op).1, { w with store := (B.write w.store op).2 }))

def lookupTerm (t : Term) : Eff ε (World B ρ) (Option TermId) := .reads (fun w => failed (B.lookup w.store t))

def decodeTerm (id : TermId) : Eff ε (World B ρ) (Option Term) := .reads (fun w => failed (B.decode w.store id))

def quadsForPattern (s p o : Option TermId) (graph : GraphFilter) : Eff ε (World B ρ) (List EncodedQuad) :=
  .reads (fun w => failed (B.scan w.store s p o graph))

def insertEncoded (quad : EncodedQuad) : Eff ε (World B ρ) Bool := write (.insert quad)

def removeEncodedQuad (quad : EncodedQuad) : Eff ε (World B ρ) Bool := write (.remove quad)

/-- The graph of a quad, interned. -/
def encodeGraph : GraphName → Eff ε (World B ρ) (Option TermId)
  | .defaultGraph => pure none
  | .namedNode n => return some (← encodeTerm (.namedNode n))
  | .blankNode b => return some (← encodeTerm (.blankNode b))

/-- Interns a quad's terms without indexing it. -/
def encodeQuad (quad : Quad) : Eff ε (World B ρ) EncodedQuad := do
  let subject ← encodeTerm quad.subject.toTerm
  let predicate ← encodeTerm (.namedNode quad.predicate)
  let object ← encodeTerm quad.object
  let graphName ← encodeGraph quad.graphName
  return ⟨subject, predicate, object, graphName⟩

/-- `none` for an unknown graph, `some none` for the default graph. -/
def lookupGraphName : GraphName → Eff ε (World B ρ) (Option (Option TermId))
  | .defaultGraph => pure (some none)
  | .namedNode n => return (← lookupTerm (.namedNode n)).map some
  | .blankNode b => return (← lookupTerm (.blankNode b)).map some

/-- Interns nothing: a quad with an unknown term is not there. -/
def lookupQuad (quad : Quad) : Eff ε (World B ρ) (Option EncodedQuad) := do
  let subject ← lookupTerm quad.subject.toTerm
  let predicate ← lookupTerm (.namedNode quad.predicate)
  let object ← lookupTerm quad.object
  let graphName ← lookupGraphName quad.graphName
  return do return ⟨← subject, ← predicate, ← object, ← graphName⟩

def insert (quad : Quad) : Eff ε (World B ρ) Bool := do
  let encoded ← encodeQuad quad
  insertEncoded encoded

def remove (quad : Quad) : Eff ε (World B ρ) Bool := do
  match ← lookupQuad quad with
  | none => return false
  | some encoded => removeEncodedQuad encoded

/-- Records a named graph, which may hold no quads. -/
def insertNamedGraph (graph : GraphName) : Eff ε (World B ρ) Bool := do
  match ← encodeGraph graph with
  | none => return false
  | some id => write (.insertNamedGraph id)

/-- Drops a named graph and its quads. -/
def removeNamedGraph (graph : GraphName) : Eff ε (World B ρ) Bool := do
  match ← lookupGraphName graph with
  | some (some id) => write (.removeNamedGraph id)
  | _ => return false

def containsNamedGraph (graph : GraphName) : Eff ε (World B ρ) Bool := do
  match ← lookupGraphName graph with
  | some (some id) => .reads (fun w => failed (B.containsNamedGraph w.store id))
  | _ => return false

def namedGraphs : Eff ε (World B ρ) (List TermId) := .reads (fun w => failed (B.namedGraphs w.store))

def requireTerm (id : TermId) : Eff ε (World B ρ) Term := do
  match ← decodeTerm id with
  | some t => return t
  | none => throw (OfStorage.ofStorage (.corruption s!"term {id.val} is indexed but not in the dictionary"))

def damaged {α : Type} (detail : String) : Eff ε (World B ρ) α := throw (OfStorage.ofStorage (.corruption detail))

def decodeGraph : Option TermId → Eff ε (World B ρ) GraphName
  | none => return .defaultGraph
  | some g => do
    match ← requireTerm g with
    | .namedNode n => return .namedNode n
    | .blankNode b => return .blankNode b
    | _ => damaged "graph name decoded to a term which cannot name a graph"

/-- Decodes an encoded quad. A missing term is damage, and so is one that cannot stand where it
does. -/
def decodeQuad (quad : EncodedQuad) : Eff ε (World B ρ) Quad := do
  match Dictionary.asSubject (← requireTerm quad.subject) with
  | none => damaged "quad subject decoded to a term which cannot be a subject"
  | some subject =>
    match ← requireTerm quad.predicate with
    | .namedNode predicate =>
      let object ← requireTerm quad.object
      let graphName ← decodeGraph quad.graphName
      return ⟨subject, predicate, object, graphName⟩
    | _ => damaged "quad predicate decoded to a non-IRI"

/-- A quad with an unknown term is not there. -/
def contains (quad : Quad) : Eff ε (World B ρ) Bool := do
  match ← lookupQuad quad with
  | none => return false
  | some encoded => .reads (fun w => failed (B.containsEncoded w.store encoded))

/-- Every quad in the store, decoded. -/
def iter : Eff ε (World B ρ) (List Quad) := do
  (← quadsForPattern none none none .any).mapM decodeQuad

def len : Eff ε (World B ρ) Nat := .reads (fun w => .ok (B.len w.store))

/-! ## Scopes -/

def inScope : Eff ε (World B ρ) Bool := .reads (fun w => .ok (B.inScope w.store))

def begin : Eff ε (World B ρ) Unit :=
  .of (fun w => match B.begin w.store with
    | .ok s => some (.ok (), { w with store := s })
    | .error e => some (.error (OfStorage.ofStorage e), w))

/-- `lands` says whether the disk takes the batch. -/
def commit (lands : Bool) : Eff ε (World B ρ) Unit :=
  .of (fun w => some (failed (B.commit lands w.store).1, { w with store := (B.commit lands w.store).2 }))

def rollback : Eff ε (World B ρ) Unit := .of (fun w => some (.ok (), { w with store := B.rollback w.store }))

/-! ## The session -/

/-- The compiled policy, compiled again first if the store has moved on. -/
def policy : Eff ε (World B ρ) CompiledPolicy :=
  .of (fun w =>
    if w.session.compiled.isStale (B.dictionaryLen w.store) then
      match w.session.policy.compileWith (fun n => B.lookup w.store (.namedNode n)) (B.dictionaryLen w.store)
          w.session.principal with
      | .ok compiled => some (.ok compiled, { w with session := { w.session with compiled } })
      | .error e => some (.error (OfStorage.ofStorage e), w)
    else some (.ok w.session.compiled, w))

end World

end Holos
