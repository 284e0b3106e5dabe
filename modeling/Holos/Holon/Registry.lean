import Holos.Holon.Event
import Holos.Shacl.EngineRun
/-!
# Holons, stored as RDF

A holon's definition and its current version are quads of the system graph. The version is a
literal that is removed and inserted again by value.
-/

namespace Holos

open Lib Security

/-- Anything a tick can fail with. -/
inductive HolonError where
  | storage (e : StorageError)
  | shacl (e : ShaclError)
  | writeDenied (graph : NamedNode)
  | invalid (detail : String)
  | unsupportedRegime (projection : NamedNode)
deriving DecidableEq, Repr

instance : OfStorage HolonError := ⟨.storage⟩

variable {B : Backend} {ρ : Type}

/-! ## Commits -/

/-- Opens a commit scope unless the caller already has one, and says whether it did. -/
def beginCommit : Eff HolonError (World B ρ) Bool := do
  let owned := !(← World.inScope)
  if owned then World.begin
  return owned

/-- Closes a scope opened by `beginCommit`, keeping the writes or discarding them. -/
def endCommit (lands owned kept : Bool) : Eff HolonError (World B ρ) Unit := do
  if owned then
    if kept then World.commit lands else World.rollback

/-- Work with a scope around it: every way out of the work passes through the close. -/
def inCommit {α : Type} (lands : Bool) (body : Eff HolonError (World B ρ) α) : Eff HolonError (World B ρ) α := do
  let owned ← beginCommit
  let result ← Eff.attempt body
  endCommit lands owned result.isOk
  liftExcept result
where
  liftExcept (r : Except HolonError α) : Eff HolonError (World B ρ) α := match r with
    | .ok a => pure a
    | .error e => throw e

namespace Registry

/-- `str::parse::<u64>`. -/
def parseU64 (s : String) : Option Nat :=
  let within : Nat → Option Nat := fun v => if v < 2 ^ 64 then some v else none
  match s.toList with
  | '+' :: cs => (Inline.parseDigits cs).bind within
  | cs => (Inline.parseDigits cs).bind within

/-- `NamedNode` subject, predicate and object in a graph. -/
def quad (subject predicate object graph : NamedNode) : Quad :=
  ⟨.namedNode subject, predicate, .namedNode object, .namedNode graph⟩

def regimeIri : Regime → NamedNode
  | .maintained => holos "Maintained"
  | .recomputed => holos "Recomputed"

/-- The quads of a holon's definition. -/
def definition (holon : Holon) : List Quad :=
  [quad holon.id (Vocab.rdf "type") (holos "Holon") systemGraph,
    quad holon.id (holos "scene") holon.scene systemGraph,
    quad holon.id (holos "boundary") holon.boundary systemGraph,
    quad holon.id (holos "events") holon.events systemGraph,
    quad holon.id (holos "admits") holon.admission.iri systemGraph] ++
  holon.projections.flatMap (fun projection =>
    [quad holon.id (holos "projection") projection.id systemGraph,
      ⟨.namedNode projection.id, holos "query", .literal (.newTyped projection.query Xsd.string), .namedNode systemGraph⟩,
      quad projection.id (holos "regime") (regimeIri projection.regime) systemGraph])

/-- Writes one quad of a definition, if the session may administer it. -/
def administer (q : Quad) : Eff HolonError (World B ρ) Unit := do
  let encoded ← World.encodeQuad q
  if (← World.policy).permitsQuad encoded Modes.admin then
    let _ ← World.insertEncoded encoded
  else throw (.writeDenied systemGraph)

def registerBody (holon : Holon) : Eff HolonError (World B ρ) Unit :=
  (definition holon).foldlM (fun _ q => administer q) ()

/-- Writes a holon's definition into the system graph. -/
def register (lands : Bool) (holon : Holon) : Eff HolonError (World B ρ) Unit := inCommit lands (registerBody holon)

/-- The first object of a subject and predicate in a graph, in index order. -/
def object (graph : GraphFilter) (subject : TermId) (predicate : NamedNode) : Eff HolonError (World B ρ) (Option Term) := do
  match ← World.lookupTerm (.namedNode predicate) with
  | none => return none
  | some p =>
    match (← World.quadsForPattern (some subject) (some p) none graph).head? with
    | none => return none
    | some quad => World.decodeTerm quad.object

/-- A graph of the holon as the system graph has it, if it has it as a named node. -/
def namedObject (graph : GraphFilter) (subject : TermId) (predicate otherwise_ : NamedNode) :
    Eff HolonError (World B ρ) NamedNode := do
  match ← object graph subject predicate with
  | some (.namedNode n) => return n
  | _ => return otherwise_

/-- Reads a holon back out of the system graph. -/
def load (id : NamedNode) : Eff HolonError (World B ρ) (Option Holon) := do
  match ← World.lookupTerm (.namedNode systemGraph) with
  | none => return none
  | some graph =>
  match ← World.lookupTerm (.namedNode id) with
  | none => return none
  | some subject =>
  match ← World.lookupTerm (.namedNode (holos "Holon")) with
  | none => return none
  | some holonClass =>
  match ← World.lookupTerm (.namedNode (Vocab.rdf "type")) with
  | none => return none
  | some rdfType =>
  if (← World.quadsForPattern (some subject) (some rdfType) (some holonClass) (.named graph)).isEmpty then return none
  let holon := Holon.new id
  let scene ← namedObject (.named graph) subject (holos "scene") holon.scene
  let boundary ← namedObject (.named graph) subject (holos "boundary") holon.boundary
  let events ← namedObject (.named graph) subject (holos "events") holon.events
  let admission ← match ← object (.named graph) subject (holos "admits") with
    | some (.namedNode n) => pure (if n = holos "AdmitAndRecord" then Admission.admitAndRecord else .reject)
    | _ => pure holon.admission
  return some { holon with scene, boundary, events, admission }

/-- The version this holon is currently at. -/
def version (holon : Holon) : Eff HolonError (World B ρ) Nat := do
  match ← World.lookupTerm (.namedNode systemGraph) with
  | none => return 0
  | some graph =>
  match ← World.lookupTerm (.namedNode holon.id) with
  | none => return 0
  | some subject =>
  match ← object (.named graph) subject (holos "version") with
  | some (.literal l) => return (parseU64 l.value).getD 0
  | _ => return 0

/-- The version the next tick will produce. The sum is a `u64`'s, and one past the last panics. -/
def nextVersion (holon : Holon) : Eff HolonError (World B ρ) Nat := do
  let v ← version holon
  if v + 1 < 2 ^ 64 then return v + 1 else .of (fun _ => none)

def versionQuad (holon : Holon) (version : Nat) : Quad :=
  ⟨.namedNode holon.id, holos "version", .literal (.newTyped (toString version) Xsd.integer), .namedNode systemGraph⟩

def setVersionBody (holon : Holon) (next : Nat) : Eff HolonError (World B ρ) Unit := do
  let previous ← version holon
  if previous ≠ 0 then
    let _ ← World.remove (versionQuad holon previous)
  let _ ← World.insert (versionQuad holon next)

/-- Records the holon's new version, replacing the old one. -/
def setVersion (lands : Bool) (holon : Holon) (next : Nat) : Eff HolonError (World B ρ) Unit :=
  inCommit lands (setVersionBody holon next)

end Registry

end Holos
