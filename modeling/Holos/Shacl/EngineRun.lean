import Holos.Vocab
import Holos.Engine.World
/-!
# A store bridged into the rule engine

The adapted engine reads a graph of its own. `EngineRun` holds one, built from the data graph of
a store and kept current by delta: `apply` takes the changes of a commit, and between
`checkpoint` and `accept` or `revert` it remembers them.

The engine's ids are one to one with terms, so its rows are rows of terms here. What its rules
derive from a graph is a parameter.
-/

namespace Holos

open Lib

inductive ShaclError where
  | storage (e : StorageError)
  | illFormedShape (detail : String)
  | unsupported (detail : String)
  | tooDeep (limit : Nat)
deriving DecidableEq, Repr

instance : OfStorage ShaclError := ⟨.storage⟩

/-- A quad that was added or removed. -/
structure Change where
  quad : EncodedQuad
  added : Bool
deriving DecidableEq, Repr

structure Options where
  dataGraph : GraphFilter
  shapesGraph : GraphFilter
deriving DecidableEq, Repr

namespace Shacl

/-- A row of an engine graph. -/
abbrev Row := Term × Term × Term

/-- The adapted engine: shapes out of a shapes graph, and the rows a run of the rules ends with. -/
structure RuleEngine where
  Shapes : Type
  compile : Finset Row → Except String Shapes
  applyIterated : Finset Row → Shapes → Nat → Except String (List Row)

/-- How a store decodes an id. -/
abbrev Decode := TermId → Except StorageError (Option Term)

/-- The terms of the ids met so far. -/
abbrev Forward := List (TermId × Term)

structure EngineRun (E : RuleEngine) where
  graph : Finset Row
  forward : Forward
  shapes : E.Shapes
  options : Options
  /-- Changes applied since the checkpoint, if one is open. -/
  pending : Option (List Change)
  /-- Set when the graph could not be returned to its checkpoint. -/
  stale : Bool

/-! ## Bridging -/

/-- Translates an id, decoding it only the first time it is seen. -/
def intern (decode : Decode) (id : TermId) : Eff ShaclError Forward Term :=
  .of (fun forward => match forward.lookup id with
    | some t => some (.ok t, forward)
    | none => match decode id with
      | .ok (some t) => some (.ok t, (id, t) :: forward)
      | .ok none => some (.error (.illFormedShape s!"{id.val} is not in the dictionary"), forward)
      | .error e => some (.error (.storage e), forward))

def internRow (decode : Decode) (quad : EncodedQuad) : Eff ShaclError Forward Row := do
  let s ← intern decode quad.subject
  let p ← intern decode quad.predicate
  let o ← intern decode quad.object
  return (s, p, o)

/-- Builds one engine graph from the quads of one store graph. -/
def bridge (decode : Decode) (quads : List EncodedQuad) : Eff ShaclError Forward (Finset Row) :=
  quads.foldlM (fun rows quad => return insert (← internRow decode quad) rows) ∅

/-- `str::starts_with`. -/
def startsWith (s lead : String) : Bool := lead.toList.isPrefixOf s.toList

def iri (decode : Decode) (id : TermId) : Except ShaclError (Option NamedNode) :=
  match decode id with
  | .ok (some (.namedNode n)) => .ok (some n)
  | .ok _ => .ok none
  | .error e => .error (.storage e)

/-- Whether a quad could change what the shapes compile to. -/
def affectsShapes (decode : Decode) (quad : EncodedQuad) : Except ShaclError Bool := do
  match ← iri decode quad.predicate with
  | none => return false
  | some predicate =>
    if startsWith predicate (Vocab.sh "") then return true
    else if predicate = Vocab.rdf "first" ∨ predicate = Vocab.rdf "rest" then return true
    else if predicate = Vocab.rdf "type" then
      match ← iri decode quad.object with
      | some object => return startsWith object (Vocab.sh "") || object = Vocab.rdfs "Class"
      | none => return false
    else return false

/-- Whether a quad's graph is the one a filter selects. -/
def inGraph (graphName : Option TermId) : GraphFilter → Bool
  | .default => graphName.isNone
  | .named g => graphName = some g
  | .anyNamed => graphName.isSome
  | .any => true

namespace EngineRun

variable {E : RuleEngine}

/-- Bridges a store and compiles its shapes. -/
def prepare (decode : Decode) (scan : GraphFilter → Except StorageError (List EncodedQuad)) (options : Options) :
    Option (Except ShaclError (EngineRun E)) :=
  let bridged : Eff ShaclError Forward (Finset Row × E.Shapes) := do
    let graph ← bridge decode (← .reads (fun _ => World.failed (scan options.dataGraph)))
    let shapesGraph ← bridge decode (← .reads (fun _ => World.failed (scan options.shapesGraph)))
    match E.compile shapesGraph with
    | .error e => throw (.illFormedShape e)
    | .ok shapes => return (graph, shapes)
  (bridged.exec []).map (fun r => r.1.map (fun p => ⟨p.1, r.2, p.2, options, none, false⟩))

/-- Marks a point this run can be returned to. -/
def checkpoint (run : EngineRun E) : EngineRun E := { run with pending := some [] }

/-- Keeps everything applied since the checkpoint. -/
def accept (run : EngineRun E) : EngineRun E := { run with pending := none }

/-- The net effect of a delta for each row, the last change winning, in the order of the first. -/
def note (net : List (Row × Bool)) (row : Row) (added : Bool) : List (Row × Bool) :=
  if net.any (fun e => e.1 = row) then net.map (fun e => if e.1 = row then (row, added) else e) else net ++ [(row, added)]

def netOf (decode : Decode) (dataGraph : GraphFilter) (changes : List Change) : Eff ShaclError Forward (List (Row × Bool)) :=
  changes.foldlM (fun net change =>
    if inGraph change.quad.graphName dataGraph then do return note net (← internRow decode change.quad) change.added
    else return net) []

/-- Whether some change of the delta defines a shape. -/
def redefines (decode : Decode) (shapesGraph : GraphFilter) (changes : List Change) : Except ShaclError Bool :=
  changes.foldlM (fun found change =>
    if found then return true
    else if inGraph change.quad.graphName shapesGraph then affectsShapes decode change.quad
    else return false) false

/-- Brings the bridged graph up to date with a store delta. -/
def apply (decode : Decode) (changes : List Change) : Eff ShaclError (EngineRun E) Unit := do
  let run ← get
  if run.stale then
    throw (.unsupported "this run's graph is out of step with the store and must be rebuilt with EngineRun::prepare")
  if ← Eff.reads (fun run => redefines decode run.options.shapesGraph changes) then
    throw (.unsupported ("a shape definition changed; the compiled shapes must be rebuilt with EngineRun::prepare rather than " ++
      "updated in place"))
  let net ← (netOf decode run.options.dataGraph changes).on EngineRun.forward (fun run forward => { run with forward })
  let added := net.filter (·.2)
  let removed := net.filter (fun e => !e.2)
  modify (fun run => { run with
    graph := (run.graph \ (removed.map (·.1)).toFinset) ∪ (added.map (·.1)).toFinset
    pending := run.pending.map (· ++ changes) })

/-- Returns the graph to what it held at the checkpoint. A graph that cannot be put back is marked
stale. -/
def revert (decode : Decode) (run : EngineRun E) : Option (EngineRun E) :=
  match run.pending with
  | none => some run
  | some pending =>
    let inverse := pending.reverse.map (fun change => { change with added := !change.added })
    match (apply decode inverse).exec { run with pending := none } with
    | some (.ok (), run) => some run
    | some (.error _, run) => some { run with stale := true }
    | none => none

def asTriple : Row → Option Triple
  | (s, .namedNode p, o) => (Dictionary.asSubject s).map (fun s => ⟨s, p, o⟩)
  | _ => none

/-- Runs the rules to a fixpoint and returns what they added. -/
def infer (run : EngineRun E) (maxRounds : Nat) : Except ShaclError (List Triple) :=
  match E.applyIterated run.graph run.shapes maxRounds with
  | .error e => .error (.unsupported e)
  | .ok after => .ok ((after.filter (fun row => row ∉ run.graph)).filterMap asTriple)

end EngineRun

end Shacl

end Holos
