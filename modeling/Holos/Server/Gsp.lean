import Holos.Engine.Access
/-!
# The Graph Store Protocol

Whole graphs over HTTP: reading one, replacing or merging into one, dropping one. The parser and
the serialiser are parameters.
-/

namespace Holos.Gsp

open Lib Engine

/-- Which graph a request is about. -/
inductive Target where
  | default
  | named (n : NamedNode)
deriving DecidableEq, Repr

/-- The graph name a target denotes. -/
def Target.graphName : Target → GraphName
  | .default => .defaultGraph
  | .named n => .namedNode n

/-- RDF formats: how a document is parsed, with a base IRI or without, and how triples are written. -/
structure Formats where
  Format : Type
  Bytes : Type
  parse : Format → Option NamedNode → Bytes → Except String (List Quad)
  serialize : Format → List Triple → Except String Bytes

variable {B : Backend} {ρ : Type}

/-- The quads of a graph that the session may see. -/
def visible (target : Target) : Eff EngineError (World B ρ) (List Quad) :=
  (visibleQuads (some target.graphName)).mapError .view

/-- Whether a graph holds anything the principal may see, or is there with nothing in it. -/
def «exists» (target : Target) : Eff EngineError (World B ρ) Bool := do
  let quads ← visible target
  if !quads.isEmpty then return true
  match target with
  | .default => return false
  | .named n => World.containsNamedGraph (.namedNode n)

/-- Serialises a graph, as triples: the graph name is the request, not the payload. -/
def read (F : Formats) (target : Target) (format : F.Format) : Eff EngineError (World B ρ) F.Bytes := do
  let quads ← visible target
  match F.serialize format (quads.map Quad.triple) with
  | .ok bytes => return bytes
  | .error e => throw (.io e)

/-- What a `GET` answers. -/
inductive Response (F : Formats) where
  | notFound
  | ok (body : F.Bytes)

def get (F : Formats) (target : Target) (format : F.Format) : Eff EngineError (World B ρ) (Response F) := do
  if !(← «exists» target) then return .notFound
  return .ok (← read F target format)

/-! ## Writes -/

def liftExcept {α : Type} : Except EngineError α → Eff EngineError (World B ρ) α
  | .ok a => pure a
  | .error e => throw e

/-- Runs `f` inside a commit scope, joining the caller's if one is already open. -/
def inCommit {α : Type} (lands : Bool) (f : Eff EngineError (World B ρ) α) : Eff EngineError (World B ρ) α := do
  let owned := !(← World.inScope)
  if owned then World.begin
  let result ← Eff.attempt f
  if owned then
    if result.isOk then World.commit lands else World.rollback
  liftExcept result

/-- Removes each quad, counting those that were there. -/
def removeAll (quads : List Quad) : Eff EngineError (World B ρ) Nat :=
  quads.foldlM (fun removed quad => do return if ← remove quad then removed + 1 else removed) 0

/-- Removes every quad in a graph, subject to policy. They are collected first, through the view. -/
def clear (lands : Bool) (target : Target) : Eff EngineError (World B ρ) Nat := do
  let quads ← visible target
  inCommit lands (removeAll quads)

/-- Removes a graph entirely: its quads and its entry in the catalogue. -/
def dropGraph (lands : Bool) (target : Target) : Eff EngineError (World B ρ) Nat :=
  inCommit lands do
    let removed ← clear lands target
    match target with
    | .named name => let _ ← World.removeNamedGraph (.namedNode name)
    | .default => pure ()
    return removed

/-- Inserts each quad, counting those that are new. -/
def insertAll (quads : List Quad) : Eff EngineError (World B ρ) Nat :=
  quads.foldlM (fun added quad => do return if ← insert quad then added + 1 else added) 0

/-- Parses a body and merges it into a graph, subject to policy. It is parsed in full before anything
is written. -/
def merge (F : Formats) (lands : Bool) (target : Target) (body : F.Bytes) (format : F.Format) (base : Option NamedNode) :
    Eff EngineError (World B ρ) Nat := do
  match F.parse format base body with
  | .error e => throw (.parse e)
  | .ok quads => inCommit lands (insertAll (quads.map (fun quad => { quad with graphName := target.graphName })))

/-- Ensures a named graph exists even with nothing in it. -/
def create (target : Target) : Eff EngineError (World B ρ) Unit :=
  match target with
  | .named name => do let _ ← World.insertNamedGraph (.namedNode name)
  | .default => pure ()

/-- Applies the body of a `PUT` or a `POST`, atomically. A `PUT` clears once and not once per
document. -/
def write (F : Formats) (lands : Bool) (target : Target) (documents : List (F.Bytes × F.Format)) (replace : Bool) :
    Eff EngineError (World B ρ) Nat :=
  inCommit lands do
    if replace then let _ ← clear lands target
    let added ← documents.foldlM (fun added (content, format) => do return added + (← merge F lands target content format none)) 0
    create target
    return added

end Holos.Gsp
