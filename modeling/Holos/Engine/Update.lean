import Holos.Engine.Load
import Holos.Engine.Percent
import Holos.Sparql.Algebra
/-!
# SPARQL Update

The operations of an update are applied in order, in one scope. What evaluates a `WHERE` through the
session's view, the parser and the files are parameters. The outcome is what the run carries along.
-/

namespace Holos.Engine.Update

open Lib Security Sparql

/-! ## Requests -/

/-- A graph name that is no blank node. -/
inductive AlgebraGraphName where
  | namedNode (n : NamedNode)
  | defaultGraph
deriving DecidableEq, Repr

def algebraGraphName : AlgebraGraphName → GraphName
  | .namedNode n => .namedNode n
  | .defaultGraph => .defaultGraph

structure AlgebraQuad where
  subject : NamedOrBlankNode
  predicate : NamedNode
  object : Term
  graphName : AlgebraGraphName

def algebraQuad (quad : AlgebraQuad) : Quad := ⟨quad.subject, quad.predicate, quad.object, algebraGraphName quad.graphName⟩

/-- A quad without variables or blank nodes. -/
structure GroundQuad where
  subject : NamedNode
  predicate : NamedNode
  object : GroundTerm
  graphName : AlgebraGraphName

def groundQuad (quad : GroundQuad) : Quad :=
  ⟨.namedNode quad.subject, quad.predicate, quad.object.toTerm, algebraGraphName quad.graphName⟩

inductive GraphNamePattern where
  | namedNode (n : NamedNode)
  | defaultGraph
  | var (v : Variable)

structure QuadPattern where
  subject : TermPattern
  predicate : NamedNodePattern
  object : TermPattern
  graphName : GraphNamePattern

/-- The templates of a `DELETE`/`INSERT`, the dataset and the `WHERE`. -/
structure DeleteInsert where
  delete : List QuadPattern
  insert : List QuadPattern
  «using» : Option QueryDataset
  pattern : GraphPattern

inductive GraphTarget where
  | namedNode (n : NamedNode)
  | defaultGraph
  | namedGraphs
  | allGraphs

inductive Operation where
  | insertData (data : List AlgebraQuad)
  | deleteData (data : List GroundQuad)
  | deleteInsert (request : DeleteInsert)
  | load (silent : Bool) (source : NamedNode) (destination : AlgebraGraphName)
  | clear (silent : Bool) (graph : GraphTarget)
  | create (silent : Bool) (graph : NamedNode)
  | drop (silent : Bool) (graph : GraphTarget)

/-- What an update changed. -/
structure UpdateOutcome where
  inserted : Nat
  deleted : Nat
  graphsCreated : Nat
  graphsDropped : Nat
deriving DecidableEq, Repr

def UpdateOutcome.default : UpdateOutcome := ⟨0, 0, 0, 0⟩

/-- One quad of the delta of a `DELETE`/`INSERT`. -/
inductive DeleteInsertQuad where
  | delete (quad : Quad)
  | insert (quad : Quad)

/-- What there is outside: the parser, the files, and what evaluates an operation through a session's view of a store. -/
structure Outside (B : Backend) where
  parser : Parser
  openFile : List Char → Except String (parser.Format × parser.Bytes)
  execute : DeleteInsert → CompiledPolicy → B.State → Except EngineError (List DeleteInsertQuad)

variable {B : Backend}

/-- A run of an update. -/
abbrev Run (B : Backend) (α : Type) := Eff EngineError (World B UpdateOutcome) α

def note (f : UpdateOutcome → UpdateOutcome) : Run B Unit := modify (fun w => { w with extra := f w.extra })

/-! ## The two primitives -/

def insert (quad : Quad) : Run B Unit := do
  if ← Engine.insert quad then note (fun o => { o with inserted := o.inserted + 1 })

def remove (quad : Quad) : Run B Unit := do
  if ← Engine.remove quad then note (fun o => { o with deleted := o.deleted + 1 })

def insertEach (quads : List Quad) : Run B Unit := quads.foldlM (fun _ quad => insert quad) ()

def removeEach (quads : List Quad) : Run B Unit := quads.foldlM (fun _ quad => remove quad) ()

/-! ## `DELETE`/`INSERT` -/

def DeleteInsertQuad.deleted : DeleteInsertQuad → Option Quad
  | .delete quad => some quad
  | .insert _ => none

def DeleteInsertQuad.inserted : DeleteInsertQuad → Option Quad
  | .delete _ => none
  | .insert quad => some quad

/-- The delta is collected before anything is applied, and its deletions come first. -/
def deleteInsert (O : Outside B) (request : DeleteInsert) : Run B Unit := do
  let delta ← Eff.reads (fun w => O.execute request w.session.compiled w.store)
  removeEach (delta.filterMap DeleteInsertQuad.deleted)
  insertEach (delta.filterMap DeleteInsertQuad.inserted)

/-! ## Graphs -/

def create (graph : NamedNode) : Run B Unit := do
  if ← World.containsNamedGraph (.namedNode graph) then throw (.io s!"the graph <{graph}> already exists")
  if ← World.insertNamedGraph (.namedNode graph) then note (fun o => { o with graphsCreated := o.graphsCreated + 1 })

def quadsInGraph (graph : Option GraphName) : Run B (List Quad) := (visibleQuads graph).mapError .view

/-- Every quad a target names, as far as the session's view shows it. -/
def quadsIn : GraphTarget → Run B (List Quad)
  | .defaultGraph => quadsInGraph (some .defaultGraph)
  | .namedNode name => quadsInGraph (some (.namedNode name))
  | .allGraphs => quadsInGraph none
  | .namedGraphs => do return (← quadsInGraph none).filter (fun q => q.graphName ≠ .defaultGraph)

/-- A graph that is named has to exist. -/
def requireGraph : GraphTarget → Run B Unit
  | .namedNode name => do
    if !(← World.containsNamedGraph (.namedNode name)) then throw (.io s!"no such graph: <{name}>")
  | _ => pure ()

def clear (target : GraphTarget) : Run B Unit := do
  requireGraph target
  removeEach (← quadsIn target)

def namedGraphNodes : Run B (List NamedNode) := do
  (← World.namedGraphs).foldlM (fun out id => do
    match ← World.decodeTerm id with
    | some (.namedNode node) => return out ++ [node]
    | _ => return out) []

/-- The graphs that go, the default graph not being one. -/
def doomed : GraphTarget → Run B (List NamedNode)
  | .namedNode name => return [name]
  | .namedGraphs => namedGraphNodes
  | .allGraphs => namedGraphNodes
  | .defaultGraph => return []

def dropEach (names : List NamedNode) : Run B Unit :=
  names.foldlM (fun _ name => do
    if ← World.removeNamedGraph (.namedNode name) then note (fun o => { o with graphsDropped := o.graphsDropped + 1 })) ()

/-- A `CLEAR`, and the graph itself. -/
def dropGraph (target : GraphTarget) : Run B Unit := do
  clear target
  dropEach (← doomed target)

/-! ## `LOAD` -/

/-- The file an IRI names. Nothing is fetched. `none` is a panic. -/
def loadPath (iri : NamedNode) : Except String (Option (List Char)) :=
  if "file:///".toList.isPrefixOf iri.toList then .ok (percentDecode (iri.toList.drop 8))
  else if "file://".toList.isPrefixOf iri.toList then .ok (percentDecode (iri.toList.drop 7))
  else if "http://".toList.isPrefixOf iri.toList || "https://".toList.isPrefixOf iri.toList then
    .error s!"LOAD <{iri}>: remote fetch is not enabled; only file: URLs are loadable"
  else .ok (percentDecode iri.toList)

/-- The quads of a source, read in full. -/
def document (O : Outside B) (iri : NamedNode) : Except EngineError (Option (List Quad)) :=
  match loadPath iri with
  | .error e => .error (.io e)
  | .ok none => .ok none
  | .ok (some path) =>
    match O.openFile path with
    | .error e => .error (.io s!"LOAD <{iri}>: {e}")
    | .ok (format, reader) =>
      match O.parser.parse format (some iri) reader with
      | .error e => .error (.parse e)
      | .ok quads => .ok (some quads)

/-- Whatever graph a source names is overridden. -/
def load (O : Outside B) (source : NamedNode) (destination : GraphName) : Run B Unit :=
  match document O source with
  | .error e => throw e
  | .ok none => .of (fun _ => none)
  | .ok (some quads) => insertEach (quads.map (fun quad => { quad with graphName := destination }))

/-! ## The update -/

def Operation.silent : Operation → Bool
  | .load silent _ _ => silent
  | .clear silent _ => silent
  | .create silent _ => silent
  | .drop silent _ => silent
  | _ => false

/-- What an operation does, whether or not it is silent about a failure. -/
def perform (O : Outside B) : Operation → Run B Unit
  | .insertData data => insertEach (data.map algebraQuad)
  | .deleteData data => removeEach (data.map groundQuad)
  | .deleteInsert request => deleteInsert O request
  | .load _ source destination => load O source (algebraGraphName destination)
  | .clear _ graph => clear graph
  | .create _ graph => create graph
  | .drop _ graph => dropGraph graph

/-- `SILENT` suppresses the operation's own failure, but not a refused write. -/
def silence (result : Except EngineError Unit) (silent : Bool) : Run B Unit :=
  match result with
  | .error .accessDenied => throw .accessDenied
  | .error e => if silent then pure () else throw e
  | .ok () => pure ()

def applyOne (O : Outside B) (operation : Operation) : Run B Unit := do
  let result ← Eff.attempt (perform O operation)
  silence result operation.silent

def applyEach (O : Outside B) (operations : List Operation) : Run B Unit :=
  operations.foldlM (fun _ operation => applyOne O operation) ()

/-- Applies a parsed update, in a scope of its own unless there is one. -/
def apply (O : Outside B) (lands : Bool) (operations : List Operation) : Run B UpdateOutcome := do
  let owned := !(← World.inScope)
  if owned then World.begin
  note (fun _ => .default)
  match ← Eff.attempt (applyEach O operations) with
  | .error e =>
    if owned then World.rollback
    throw (e : EngineError)
  | .ok () =>
    if owned then World.commit lands
    return (← get).extra

end Holos.Engine.Update
