import Holos.Engine.Access
/-!
# Documents brought into a store

The bulk loads, which bypass policy and rename the blank nodes of what they read, and the two
operations of an update that bring in statements, which do not rename. A parser is a parameter; a
renaming parser gives each label of a document the label a function says.
-/

namespace Holos

/-! ## Blank node labels -/

def NamedOrBlankNode.labels : NamedOrBlankNode → List String
  | .namedNode _ => []
  | .blankNode b => [b]

def Term.labels : Term → List String
  | .namedNode _ => []
  | .blankNode b => [b]
  | .literal _ => []
  | .triple s _ o => s.labels ++ o.labels

def GraphName.labels : GraphName → List String
  | .blankNode b => [b]
  | _ => []

def Quad.labels (q : Quad) : List String := q.subject.labels ++ q.object.labels ++ q.graphName.labels

def NamedOrBlankNode.rename (f : String → String) : NamedOrBlankNode → NamedOrBlankNode
  | .namedNode n => .namedNode n
  | .blankNode b => .blankNode (f b)

def Term.rename (f : String → String) : Term → Term
  | .namedNode n => .namedNode n
  | .blankNode b => .blankNode (f b)
  | .literal l => .literal l
  | .triple s p o => .triple (s.rename f) p (o.rename f)

def GraphName.rename (f : String → String) : GraphName → GraphName
  | .blankNode b => .blankNode (f b)
  | name => name

def Quad.rename (f : String → String) (q : Quad) : Quad :=
  ⟨q.subject.rename f, q.predicate, q.object.rename f, q.graphName.rename f⟩

namespace Engine

open Lib

/-- A parser: the quads it gives, and what stops it if anything does. -/
structure Parser where
  Format : Type
  Bytes : Type
  quads : Format → Option NamedNode → Bytes → List Quad × Option String

/-- All the quads, if nothing stops the parser. -/
def Parser.parse (P : Parser) (format : P.Format) (base : Option NamedNode) (body : P.Bytes) : Except String (List Quad) :=
  match P.quads format base body with
  | (quads, none) => .ok quads
  | (_, some e) => .error e

variable {B : Backend} {ρ : Type}

/-! ## Bulk loads -/

/-- Quads handed from the parse thread to the writer at a time. -/
def parseBatch : Nat := 8192

/-- What the writer is handed: full batches, and the last one unless the parser was stopped. -/
def delivered (parsed : List Quad × Option String) : List Quad :=
  match parsed.2 with
  | none => parsed.1
  | some _ => parsed.1.take (parsed.1.length - parsed.1.length % parseBatch)

/-- Calls `each` on every quad delivered, counting those that are new. -/
def loadParsed (parsed : List Quad × Option String) (each : Quad → Eff EngineError (World B ρ) Bool) : Eff EngineError (World B ρ) Nat := do
  let n ← (delivered parsed).foldlM (fun n quad => do return if ← each quad then n + 1 else n) 0
  match parsed.2 with
  | none => return n
  | some e => throw (.parse e)

/-- What a parser gives that renames blank nodes. -/
def renamed (rename : String → String) (parsed : List Quad × Option String) : List Quad × Option String :=
  (parsed.1.map (Quad.rename rename), parsed.2)

/-- Loads RDF, bypassing policy. -/
def bulkLoad (P : Parser) (rename : String → String) (body : P.Bytes) (format : P.Format) (base : Option NamedNode) :
    Eff EngineError (World B ρ) Nat :=
  loadParsed (renamed rename (P.quads format base body)) World.insert

/-- The graph a quad of the default graph goes to. -/
def intoGraph (graph : GraphName) (quad : Quad) : Quad :=
  if quad.graphName = .defaultGraph then { quad with graphName := graph } else quad

/-- Loads RDF into one graph, bypassing policy; quads that name a graph keep it. -/
def bulkLoadIntoGraph (P : Parser) (rename : String → String) (body : P.Bytes) (format : P.Format) (base : Option NamedNode)
    (graph : GraphName) : Eff EngineError (World B ρ) Nat :=
  loadParsed (renamed rename (P.quads format base body)) (fun quad => World.insert (intoGraph graph quad))

/-! ## Updates -/

/-- The operations of an update that bring in statements. -/
inductive DataOperation where
  | insertData (data : List Quad)
  | load (source : NamedNode) (destination : GraphName)

/-- Inserts each quad, subject to policy. -/
def insertEach (quads : List Quad) : Eff EngineError (World B ρ) Unit :=
  quads.foldlM (fun _ quad => do let _ ← insert quad) ()

/-- A file, read in full before anything is written. Whatever graph it names is overridden. -/
def load (P : Parser) (file : NamedNode → Except String (P.Format × P.Bytes)) (source : NamedNode) (destination : GraphName) :
    Eff EngineError (World B ρ) Unit :=
  match file source with
  | .error e => throw (.io e)
  | .ok (format, body) =>
    match P.parse format (some source) body with
    | .error e => throw (.parse e)
    | .ok quads => insertEach (quads.map (fun quad => { quad with graphName := destination }))

def applyOne (P : Parser) (file : NamedNode → Except String (P.Format × P.Bytes)) : DataOperation → Eff EngineError (World B ρ) Unit
  | .insertData data => insertEach data
  | .load source destination => load P file source destination

/-- Applies an update, in a scope of its own unless there is one. -/
def apply (P : Parser) (file : NamedNode → Except String (P.Format × P.Bytes)) (lands : Bool) (operations : List DataOperation) :
    Eff EngineError (World B ρ) Unit := do
  let owned := !(← World.inScope)
  if owned then World.begin
  match ← Eff.attempt (operations.foldlM (fun _ operation => applyOne P file operation) ()) with
  | .error e =>
    if owned then World.rollback
    throw (e : EngineError)
  | .ok _ => if owned then World.commit lands

end Engine

end Holos
