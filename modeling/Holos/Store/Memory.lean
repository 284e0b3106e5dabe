import Holos.Store.Storage
import Holos.Store.DictionaryTheorems
/-!
# The in-memory tier

A dictionary, a quad index and the predicate statistics. A commit scope applies as it goes and
keeps a journal; abandoning the scope replays the journal backwards through the same writes.
The dictionary is not journalled.

`Wrote` says what a write does, for all four of them: what is held after it, what it answers,
and journal entries that take the new contents back to the old.
-/

namespace Holos

open Lib

/-- One write to undo if a commit scope is abandoned. -/
inductive Undo where
  | inserted (quad : EncodedQuad)
  | removed (quad : EncodedQuad)
  | graphCreated (graph : TermId)
  | graphDropped (graph : TermId)
deriving DecidableEq, Repr

structure MemoryStorage where
  dictionary : Dictionary
  index : QuadIndex
  predicateCounts : Counter TermId
  /-- The open commit scope's journal, if one is open. -/
  undo : Option (List Undo)
  generation : Nat
  /-- Where `generation` stood when the open scope began. -/
  generationAtBegin : Nat

namespace MemoryStorage

def new : MemoryStorage := ⟨.new, .new, .empty, none, 0, 0⟩

/-- Notes a write, if a scope is open to note it in. -/
def record (m : MemoryStorage) (entry : Undo) : MemoryStorage := { m with undo := m.undo.map (· ++ [entry]) }

def encode (X : Inline.Datatypes) (m : MemoryStorage) (term : Term) : Option (TermId × MemoryStorage) :=
  (m.dictionary.encode X term).map (fun r => (r.1, { m with dictionary := r.2 }))

def lookup (X : Inline.Datatypes) (m : MemoryStorage) (term : Term) : Option TermId := m.dictionary.lookup X term

def decode (X : Inline.Datatypes) (m : MemoryStorage) (id : TermId) : Except StorageError (Option Term) :=
  m.dictionary.decode X id

/-! ## Reads -/

def scan (m : MemoryStorage) (s p o : Option TermId) (graph : GraphFilter) : List EncodedQuad :=
  m.index.quadsForPattern s p o graph

def quadsWithObjectIn (m : MemoryStorage) (s p : Option TermId) (span : IdRange) (graph : GraphFilter) : List EncodedQuad :=
  m.index.quadsWithObjectIn s p span graph

/-- The filter that admits one quad's graph and no other. -/
def filterOf : Option TermId → GraphFilter
  | some g => .named g
  | none => .default

def containsEncoded (m : MemoryStorage) (quad : EncodedQuad) : Bool :=
  (m.index.quadsForPattern (some quad.subject) (some quad.predicate) (some quad.object)
    (filterOf quad.graphName)).head?.isSome

def len (m : MemoryStorage) : Nat := m.index.len

def containsNamedGraph (m : MemoryStorage) (graph : TermId) : Bool := graph ∈ m.index.graphs

def namedGraphs (m : MemoryStorage) : List TermId := m.index.graphs.toList

def predicateCount (m : MemoryStorage) (predicate : TermId) : Nat := m.predicateCounts.count predicate

def predicateHistogram (m : MemoryStorage) : List (TermId × Nat) := m.predicateCounts.histogram

/-! ## Writes -/

/-- A quad creates its graph, so whether the graph is new is asked before the insert. -/
def insertEncoded (m : MemoryStorage) (quad : EncodedQuad) : Bool × MemoryStorage :=
  let newGraph := match quad.graphName with
    | some g => m.undo.isSome && !m.containsNamedGraph g
    | none => false
  match m.index.insert quad with
  | (true, index) =>
    let m := { m with index, predicateCounts := m.predicateCounts.increment quad.predicate }
    let m := match quad.graphName with
      | some g =>
        let m := { m with index := (m.index.insertNamedGraph g).2 }
        if newGraph then m.record (.graphCreated g) else m
      | none => m
    let m := m.record (.inserted quad)
    (true, { m with generation := m.generation + 1 })
  | (false, _) => (false, m)

def removeEncoded (m : MemoryStorage) (quad : EncodedQuad) : Bool × MemoryStorage :=
  match m.index.remove quad with
  | (true, index) =>
    let m := { m with index, predicateCounts := m.predicateCounts.decrement quad.predicate }
    let m := m.record (.removed quad)
    (true, { m with generation := m.generation + 1 })
  | (false, _) => (false, m)

def insertNamedGraph (m : MemoryStorage) (graph : TermId) : Bool × MemoryStorage :=
  let created := !m.containsNamedGraph graph
  let m := if created then m.record (.graphCreated graph) else m
  let (fresh, index) := m.index.insertNamedGraph graph
  (fresh, { m with index })

/-- Drops a graph, journalling each quad of it. The generation stays where it is. -/
def removeNamedGraph (m : MemoryStorage) (graph : TermId) : Bool × MemoryStorage :=
  let doomed := m.index.quadsForPattern none none none (.named graph)
  let m := doomed.foldl (fun m quad => m.record (.removed quad)) m
  let m := doomed.foldl (fun m quad => { m with predicateCounts := m.predicateCounts.decrement quad.predicate }) m
  let m := if m.containsNamedGraph graph then m.record (.graphDropped graph) else m
  let (existed, index) := m.index.removeNamedGraph graph
  (existed, { m with index })

/-! ## Scopes -/

def begin (m : MemoryStorage) : Except StorageError MemoryStorage :=
  if m.undo.isSome then .error Storage.nested else .ok { m with undo := some [], generationAtBegin := m.generation }

def commit (m : MemoryStorage) : Except StorageError MemoryStorage :=
  if m.undo.isSome then .ok { m with undo := none } else .error Storage.notOpen

/-- The inverse of one journalled write, made through the writes themselves. -/
def undoEntry (m : MemoryStorage) : Undo → MemoryStorage
  | .inserted quad => (m.removeEncoded quad).2
  | .removed quad => (m.insertEncoded quad).2
  | .graphCreated g => (m.removeNamedGraph g).2
  | .graphDropped g => (m.insertNamedGraph g).2

/-- Replays the journal backwards. The journal is taken first, so nothing is recorded. -/
def rollback (m : MemoryStorage) : MemoryStorage :=
  match m.undo with
  | none => m
  | some undo =>
    let m := undo.reverse.foldl undoEntry { m with undo := none }
    { m with generation := m.generationAtBegin }

/-! ## Runs -/

def write (m : MemoryStorage) : Index.Op → Bool × MemoryStorage
  | .insert q => m.insertEncoded q
  | .remove q => m.removeEncoded q
  | .insertNamedGraph g => m.insertNamedGraph g
  | .removeNamedGraph g => m.removeNamedGraph g

/-- One operation: its reply and the storage after it. `none` is the panic of a full id
space. -/
def step (X : Inline.Datatypes) (m : MemoryStorage) : Storage.Op → Option (Storage.Reply × MemoryStorage)
  | .encode t => (m.encode X t).map (fun r => (.encoded (.ok r.1), r.2))
  | .write op => some (.wrote (.ok (m.write op).1), (m.write op).2)
  | .begin =>
    match m.begin with
    | .ok m' => some (.scoped (.ok ()), m')
    | .error e => some (.scoped (.error e), m)
  | .commit =>
    match m.commit with
    | .ok m' => some (.scoped (.ok ()), m')
    | .error e => some (.scoped (.error e), m)
  | .rollback => some (.scoped (.ok ()), m.rollback)

def run (X : Inline.Datatypes) (m : MemoryStorage) : List Storage.Op → Option (List Storage.Reply × MemoryStorage)
  | [] => some ([], m)
  | op :: ops => do
    let (reply, m) ← step X m op
    let (replies, m) ← run X m ops
    return (reply :: replies, m)

end MemoryStorage

end Holos
