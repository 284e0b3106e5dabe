import Holos.Store.Rocks
/-!
# Bulk loads of the on-disk tier

A load buffers what it is given. Quads wait for the end, when one sorted file an order is
ingested. Dictionary rows go to a window; a window that reaches its budget is handed to a
thread, and its files are ingested when the thread is found to have finished, which the write
path polls. Until then the term cache is what knows its terms, and after it a filter over
every term of the load saves the reads that would prove a term new.

Files are the rows they hold, in the order they were written. `finished` answers each poll, so
a statement for every `finished` holds however long the thread takes.
-/

namespace Holos

open Lib

/-! ## The filter -/

/-- A bloom filter over serialised terms: which bits are set. -/
structure Seen where
  bits : Nat
  words : Nat → Bool
  inserted : Nat

namespace Seen

def hashes : Nat := 7

def withBytes (bytes : Nat) : Seen := ⟨max (bytes / 8) 1 * 64, fun _ => false, 0⟩

/-- Maps a 64-bit hash onto the bits of the filter. -/
def index (s : Seen) (hash : UInt64) : Nat := hash.toNat * s.bits / 2 ^ 64

/-- The second hash is the first through a mixer, made odd. -/
def mix (h1 : UInt64) : UInt64 :=
  let z := h1 + 0x9E3779B97F4A7C15
  let z := (z ^^^ (z >>> 30)) * 0xBF58476D1CE4E5B9
  let z := (z ^^^ (z >>> 27)) * 0x94D049BB133111EB
  (z ^^^ (z >>> 31)) ||| 1

/-- The bits of a key. -/
def probes (s : Seen) (h1 : UInt64) : List Nat :=
  (List.range hashes).map (fun i => s.index (h1 + UInt64.ofNat i * mix h1))

def insert (s : Seen) (h1 : UInt64) : Seen :=
  { s with words := fun bit => s.words bit || bit ∈ s.probes h1, inserted := s.inserted + 1 }

/-- `false` means the key was never inserted. -/
def mayContain (s : Seen) (h1 : UInt64) : Bool := (s.probes h1).all s.words

end Seen

/-! ## The term cache -/

/-- A cache entry: the id, and where in the window it was first and last used. -/
structure Cached where
  id : TermId
  first : Nat
  last : Nat
deriving DecidableEq, Repr

namespace Cached

def notUsed : Nat := 2 ^ 32 - 1

def new (id : TermId) (pos : Nat) : Cached := ⟨id, pos, pos⟩

def touch (c : Cached) (pos : Nat) : Cached := { c with first := if c.first = notUsed then pos else c.first, last := pos }

/-- How far apart the first and last use were. -/
def spread (c : Cached) : Nat := if c.first = notUsed then 0 else c.last - c.first

end Cached

/-- An entry survives if its uses were at least this far apart. -/
def hotSpread : Nat := 8192

/-- The most entries a flush keeps, ties aside. -/
def hotCapacity : Nat := 200000

/-- The spread an entry needs to survive: raised until no more than the capacity qualify. -/
def hotThreshold (spreads : List Nat) : Nat :=
  let wide := spreads.filter (hotSpread ≤ ·)
  if wide.length ≤ hotCapacity then hotSpread
  else max ((wide.mergeSort (· ≤ ·)).getD (wide.length - hotCapacity) 0) hotSpread

/-! ## Dictionary windows -/

/-- The rows of one family, in the order they came, run files and buffer together. `bytes` is
what the buffer holds, and `spilled` that a run was written. -/
structure DictRuns (κ ν : Type) where
  rows : List (κ × ν)
  bytes : Nat
  spilled : Bool

namespace DictRuns

variable {κ ν : Type}

def new : DictRuns κ ν := ⟨[], 0, false⟩

/-- Adds a row of a given cost, spilling the buffer if it has reached its budget. -/
def push (runs : DictRuns κ ν) (budget cost : Nat) (key : κ) (value : ν) : DictRuns κ ν :=
  let bytes := runs.bytes + cost
  if budget ≤ bytes then ⟨runs.rows ++ [(key, value)], 0, true⟩
  else { runs with rows := runs.rows ++ [(key, value)], bytes }

def atBudget (runs : DictRuns κ ν) (budget : Nat) : Bool := runs.spilled || budget ≤ runs.bytes

/-- The file of a window: one row a key, those that share a key combined in the order they
came. -/
def merge [DecidableEq κ] (combine : κ → ν → ν → ν) (runs : DictRuns κ ν) : κ → Option ν :=
  runs.rows.foldl (fun file row => Function.update file row.1
    (some (match file row.1 with
      | some first => combine row.1 first row.2
      | none => row.2))) (fun _ => none)

end DictRuns

/-- How two values sharing a key are reconciled: candidates are joined, an exact key takes the
later row. -/
def combine : DictKey → List TermId → List TermId → List TermId
  | .hashed _, first, second => second.foldl (fun out id => if id ∈ out then out else out ++ [id]) first
  | .exact _, _, second => second

/-- How many bytes a key of `str2id` has. -/
def DictKey.size : DictKey → Nat
  | .exact st => st.size + 1
  | .hashed _ => 17

/-- The two dictionary families of one window. -/
structure DictBuffers where
  str2id : DictRuns DictKey (List TermId)
  id2str : DictRuns TermId StoredTerm
  budget : Nat

namespace DictBuffers

def new (budget : Nat) : DictBuffers := ⟨.new, .new, budget⟩

/-- Whether either family has reached its budget. -/
def full (d : DictBuffers) : Bool := d.str2id.atBudget d.budget || d.id2str.atBudget d.budget

def pushStr2id (d : DictBuffers) (key : DictKey) (ids : List TermId) : DictBuffers :=
  { d with str2id := d.str2id.push d.budget (key.size + 8 * ids.length + 8) key ids }

def pushId2str (d : DictBuffers) (id : TermId) (st : StoredTerm) : DictBuffers :=
  { d with id2str := d.id2str.push d.budget (8 + st.size + 8) id st }

def str2idFile (d : DictBuffers) : DictKey → Option (List TermId) := d.str2id.merge combine

/-- An id is pushed once, so nothing is combined. -/
def id2strFile (d : DictBuffers) : TermId → Option StoredTerm := d.id2str.merge (fun _ _ second => second)

end DictBuffers

/-- Adopts the files of a window: their rows go in front of what is there. -/
def Db.ingest (db : Db) (d : DictBuffers) : Db :=
  { db with
    str2id := fun key => (d.str2idFile key).or (db.str2id key)
    id2str := fun id => (d.id2strFile id).or (db.id2str id) }

/-! ## The state of a load -/

/-- A window being written out, with the id counters as they stood when it was handed over. -/
structure DictFlush where
  dict : DictBuffers
  next : Tag → Nat

structure BulkState where
  pending : List Pending
  /-- Terms interned, by their serialised form. -/
  terms : List (StoredTerm × Cached)
  seen : Option Seen
  /-- Quads held back, and those a worker has written to runs. -/
  quads : List EncodedQuad
  spilled : List EncodedQuad
  graphs : SortedSet TermId
  dict : DictBuffers
  dictFlush : Option DictFlush
  /-- Encodes since the last flush. -/
  position : Nat
  /-- How often a window in flight was polled. -/
  polls : Nat

/-- What an operator can set. -/
structure Config where
  ingestLimit : Nat
  dictSpillBytes : Nat
  seenBytes : Nat

/-- How many buffered operations trigger a write. -/
def bulkBatchOps : Nat := 64 * 1024

/-- A storage with a load running. No scope is open. -/
structure Load where
  storage : RocksStorage
  state : BulkState

namespace Load

variable (config : Config) (finished : Nat → Bool)

/-- The entry of a serialised term. -/
def cached (l : Load) (st : StoredTerm) : Option Cached := l.state.terms.lookup st

/-- Puts an entry in the place of any other of its term. -/
def remember (l : Load) (st : StoredTerm) (c : Cached) : Load :=
  { l with state := { l.state with terms := (st, c) :: l.state.terms.filter (·.1 ≠ st) } }

/-- Whether an entry was allocated after the window was handed over. -/
def sinceFlush (next : Tag → Nat) (c : Cached) : Bool := next c.id.tag ≤ c.id.payload

/-- Trims the cache to what is not yet on disk and what is used all over the window. -/
def trim (next : Tag → Nat) (terms : List (StoredTerm × Cached)) : List (StoredTerm × Cached) :=
  let threshold := hotThreshold ((terms.filter (fun e => !sinceFlush next e.2)).map (·.2.spread))
  (terms.filter (fun e => sinceFlush next e.2 || threshold ≤ e.2.spread)).map
    (fun e => (e.1, { e.2 with first := Cached.notUsed }))

/-- Takes in the window in flight, once its files are there; with `wait` they are waited
for. -/
def settleDictionary (l : Load) (wait : Bool) : Load :=
  match l.state.dictFlush with
  | none => l
  | some flush =>
    if !wait && !finished l.state.polls then { l with state := { l.state with polls := l.state.polls + 1 } }
    else
      { storage := { l.storage with db := l.storage.db.ingest flush.dict }
        state := { l.state with
          dictFlush := none
          terms := trim flush.next l.state.terms
          position := 0
          polls := l.state.polls + 1 } }

/-- Hands the window over. One is in flight at a time, so the one before it is settled. -/
def flushDictionary (l : Load) : Load :=
  let l := l.settleDictionary finished true
  { l with state := { l.state with
    dictFlush := some ⟨l.state.dict, l.storage.next⟩
    dict := .new config.dictSpillBytes } }

/-- Dictionary rows go to the window, the rest to the batch. -/
def divert (state : BulkState) : Pending → BulkState
  | .putStr2id key ids => { state with dict := state.dict.pushStr2id key ids }
  | .putId2str id st => { state with dict := state.dict.pushId2str id st }
  | op => { state with pending := state.pending ++ [op] }

/-- Writes the batch, if it has grown to its size. -/
def writeFull (l : Load) : Load :=
  if bulkBatchOps ≤ l.state.pending.length then
    { storage := { l.storage with db := l.storage.db.write l.state.pending }
      state := { l.state with pending := [] } }
  else l

/-- Buffers a group of writes. -/
def commitOps (l : Load) (ops : List Pending) : Load :=
  let l := { l with state := ops.foldl divert l.state }
  let full := l.state.dict.full
  let l := l.writeFull.settleDictionary finished false
  if full then l.flushDictionary config finished else l

/-! ## Encoding -/

section
variable (fx : StoredTerm → UInt64) (hash128 : StoredTerm → Hash) (X : Inline.Datatypes)

/-- What a function that may fail or panic leaves: `none` is the panic of a full id space. -/
def andThen {α β : Type} (x : Option (Except StorageError α × Load))
    (f : α → Load → Option (Except StorageError β × Load)) : Option (Except StorageError β × Load) :=
  match x with
  | none => none
  | some (.error e, l) => some (.error e, l)
  | some (.ok a, l) => f a l

/-- Gives a new term the next id of its tag, with its rows. -/
def allocate (l : Load) (tag : Tag) (serialised : StoredTerm) (ops : List Pending) :
    Option (Except StorageError (TermId × List Pending) × Load) :=
  (TermId.checked tag (l.storage.next tag)).map fun id =>
    let ops := ops ++ [.putDefault (.next tag) (l.storage.next tag + 1)]
    let l := { l with
      storage := { l.storage with next := Function.update l.storage.next tag (l.storage.next tag + 1) }
      state := { l.state with seen := l.state.seen.map (fun seen : Seen => seen.insert (fx serialised)) } }
    let l := l.remember serialised (.new id l.state.position)
    let ops := ops ++ [.putId2str id serialised]
    let (key, hashed) := dictionaryKey hash128 serialised
    if hashed then (.ok (id, ops ++ [.putStr2id key ((l.storage.db.str2id key).getD [] ++ [id])]), l)
    else (.ok (id, ops ++ [.putStr2id key [id]]), l)

/-- Finds a term by its serialised form or allocates it: in the cache, then in the database
unless the filter has never seen it. -/
def intern (l : Load) (tag : Tag) (serialised : StoredTerm) (term : Term) (ops : List Pending) :
    Option (Except StorageError (TermId × List Pending) × Load) :=
  let pos := (l.state.position + 1) % 2 ^ 32
  let l := { l with state := { l.state with position := pos } }
  match l.cached serialised with
  | some c => some (.ok (c.id, ops), l.remember serialised (c.touch pos))
  | none =>
    let provablyNew := l.state.seen.any (fun seen => !seen.mayContain (fx serialised))
    let resolved :=
      if provablyNew then .ok none
      else l.storage.resolve X (dictionaryKey hash128 serialised).1 (dictionaryKey hash128 serialised).2 term
    match resolved with
    | .error e => some (.error e, l)
    | .ok (some existing) => some (.ok (existing, ops), l.remember serialised (.new existing pos))
    | .ok none => l.allocate fx hash128 tag serialised ops

def encodeNamedNode (l : Load) (n : NamedNode) (ops : List Pending) :
    Option (Except StorageError (TermId × List Pending) × Load) :=
  match Vocab.encodeIri n with
  | some id => some (.ok (id, ops), l)
  | none => l.intern fx hash128 X .iri (.iri n) (.namedNode n) ops

def encodeBlankNode (l : Load) (b : String) (ops : List Pending) :
    Option (Except StorageError (TermId × List Pending) × Load) :=
  l.intern fx hash128 X .blankNode (.blank b) (.blankNode b) ops

def encodeSubject (l : Load) (ops : List Pending) :
    NamedOrBlankNode → Option (Except StorageError (TermId × List Pending) × Load)
  | .namedNode n => l.encodeNamedNode fx hash128 X n ops
  | .blankNode b => l.encodeBlankNode fx hash128 X b ops

/-- Interns a term, gathering any new rows. -/
def encodeInto (l : Load) (ops : List Pending) : Term → Option (Except StorageError (TermId × List Pending) × Load)
  | .namedNode n => l.encodeNamedNode fx hash128 X n ops
  | .blankNode b => l.encodeBlankNode fx hash128 X b ops
  | .literal lit =>
    match Inline.encodeLiteral X lit with
    | some id => some (.ok (id, ops), l)
    | none => l.intern fx hash128 X .literal (.literal lit) (.literal lit) ops
  | .triple subject predicate object =>
    andThen (l.encodeSubject fx hash128 X ops subject) fun (s, ops) l =>
    andThen (l.encodeNamedNode fx hash128 X predicate ops) fun (p, ops) l =>
    andThen (l.encodeInto ops object) fun (o, ops) l =>
    l.intern fx hash128 X .tripleTerm (.triple s p o) (.triple subject predicate object) ops

def encode (l : Load) (term : Term) : Option (Except StorageError TermId × Load) :=
  andThen (l.encodeInto fx hash128 X [] term) fun (id, ops) l => some (.ok id, l.commitOps config finished ops)

end

/-! ## Quads -/

/-- A quad waits for the end of the load. Nothing is counted, and no duplicate is looked for. -/
def insertEncoded (l : Load) (quad : EncodedQuad) : Bool × Load :=
  let state := { l.state with
    quads := l.state.quads ++ [quad]
    graphs := match quad.graphName with
      | some g => l.state.graphs.insert g
      | none => l.state.graphs }
  let state := if config.ingestLimit ≤ state.quads.length then { state with quads := [], spilled := state.spilled ++ state.quads }
    else state
  (true, { l with state })

/-- A removal is counted at once and reaches the database with its batch. The count is of 64
bits and wraps. -/
def removeEncoded (l : Load) (quad : EncodedQuad) : Bool × Load :=
  if l.storage.containsEncoded quad then
    let stats := RocksStorage.statsRow l.storage.predicateCounts quad.predicate
    let r := { l.storage with
      quadCount := (l.storage.quadCount + (2 ^ 64 - 1)) % 2 ^ 64
      generation := l.storage.generation + 1
      predicateCounts := l.storage.predicateCounts.decrement quad.predicate }
    let ops := RocksStorage.deleteRows quad ++ [.putDefault .quads r.quadCount, .putDefault .generation r.generation] ++ stats
    (true, commitOps config finished { l with storage := r } ops)
  else (false, l)

def insertNamedGraph (l : Load) (graph : TermId) : Bool × Load :=
  if l.storage.containsNamedGraph graph then (false, l) else (true, l.commitOps config finished [.putGraph graph])

/-- Drops what the database has of a graph. -/
def removeNamedGraph (l : Load) (graph : TermId) : Bool × Load :=
  let existed := l.storage.containsNamedGraph graph
  let doomed := l.storage.scan none none none (.named graph)
  let l := doomed.foldl (fun l quad => (l.removeEncoded config finished quad).2) l
  if existed then (existed, l.commitOps config finished [.deleteGraph graph]) else (existed, l)

def write (l : Load) : Index.Op → Bool × Load
  | .insert q => l.insertEncoded config q
  | .remove q => l.removeEncoded config finished q
  | .insertNamedGraph g => l.insertNamedGraph config finished g
  | .removeNamedGraph g => l.removeNamedGraph config finished g

end Load

/-! ## Beginning and ending -/

/-- How many ids were ever issued. -/
def RocksStorage.dictionaryLen (r : RocksStorage) : Nat :=
  r.next .iri + r.next .blankNode + r.next .literal + r.next .tripleTerm

/-- The rows of a quad in the index orders. -/
def indexRows (quad : EncodedQuad) : List Pending :=
  let ⟨s, p, o, graphName⟩ := quad
  match graphName with
  | none => [.putTriple .dspo ⟨s, p, o⟩, .putTriple .dpos ⟨p, o, s⟩, .putTriple .dosp ⟨o, s, p⟩]
  | some g =>
    [.putQuad .spog ⟨s, p, o, g⟩, .putQuad .posg ⟨p, o, s, g⟩, .putQuad .ospg ⟨o, s, p, g⟩,
      .putQuad .gspo ⟨g, s, p, o⟩, .putQuad .gpos ⟨g, p, o, s⟩, .putQuad .gosp ⟨g, o, s, p⟩]

/-- Adopts the files of the quads, then the catalogue. -/
def Db.ingestQuads (db : Db) (quads : List EncodedQuad) (graphs : SortedSet TermId) : Db :=
  let db := db.write (quads.flatMap indexRows)
  { db with index := { db.index with graphs := graphs.toList.foldl SortedSet.insert db.index.graphs } }

/-- Counts the quads again, from one order of each kind. Whatever it finds, the generation
moves. -/
def RocksStorage.recount (r : RocksStorage) : RocksStorage :=
  let predicates := r.db.index.dspo.toList.map (·.b) ++ r.db.index.gspo.toList.map (·.c)
  let counts := predicates.foldl Counter.increment Counter.empty
  let batch := r.predicateCounts.keys.toList.map .deleteStats ++
    counts.keys.toList.map (fun p => .putStats p (counts.count p)) ++
    [.putDefault .quads predicates.length, .putDefault .generation (r.generation + 1)]
  { r with
    db := r.db.write batch
    predicateCounts := counts
    quadCount := predicates.length
    generation := r.generation + 1 }

/-- A storage, with the load that is running. -/
structure Loader where
  storage : RocksStorage
  bulk : Option BulkState

namespace Storage

/-- What can be asked of a storage, loads among it. -/
inductive Call where
  | op (op : Storage.Op)
  | beginBulkLoad
  | endBulkLoad
  | flush

def bulkRunning : StorageError := .corruption "a bulk load is running; its buffer and a scope's would interleave"

def scopeOpen : StorageError := .corruption "a commit scope is open; a bulk load inside one would buffer into it"

end Storage

namespace Loader

variable (config : Config) (finished : Nat → Bool) (fx : StoredTerm → UInt64) (hash128 : StoredTerm → Hash)
  (X : Inline.Datatypes)

def new : Loader := ⟨.new, none⟩

/-- The filter is sound only if nothing was interned before the load. A load that was running
is forgotten, with what it had buffered. -/
def startBulk (l : Loader) : Loader :=
  { l with bulk := some {
    pending := []
    terms := []
    seen := if l.storage.dictionaryLen = 0 && 0 < config.seenBytes then some (.withBytes config.seenBytes) else none
    quads := []
    spilled := []
    graphs := .empty
    dict := .new config.dictSpillBytes
    dictFlush := none
    position := 0
    polls := 0 } }

/-- Writes what is buffered: the dictionary first, then the batch, then the quads. -/
def finishBulk (l : Loader) : Loader :=
  match l.bulk with
  | none => { l with storage := l.storage.recount }
  | some state =>
    let load := Load.settleDictionary finished ⟨l.storage, state⟩ true
    let db := (load.storage.db.ingest load.state.dict).write load.state.pending
    let quads := load.state.spilled ++ load.state.quads
    let db := if quads.isEmpty then db else db.ingestQuads quads load.state.graphs
    ⟨{ load.storage with db }.recount, none⟩

/-- One operation while a load is running: no scope is open, and none can be opened. -/
def loadStep (l : Load) : Storage.Op → Option (Storage.Reply × Load)
  | .encode t => (l.encode config finished fx hash128 X t).map (fun x => (.encoded x.1, x.2))
  | .write op => some (.wrote (.ok (l.write config finished op).1), (l.write config finished op).2)
  | .begin => some (.scoped (.error Storage.bulkRunning), l)
  | .commit => some (.scoped (.error Storage.notOpen), l)
  | .rollback => some (.scoped (.ok ()), l)

/-- One call: its reply and the storage after it. `none` is the panic of a full id space. -/
def step (l : Loader) : Storage.Call → Option (Storage.Reply × Loader)
  | .op op =>
    match l.bulk with
    | none => (l.storage.step hash128 X op).map (fun x => (x.1, { l with storage := x.2 }))
    | some state => (loadStep config finished fx hash128 X ⟨l.storage, state⟩ op).map (fun x => (x.1, ⟨x.2.storage, some x.2.state⟩))
  | .beginBulkLoad =>
    if l.storage.scope.isSome then some (.scoped (.error Storage.scopeOpen), l)
    else some (.scoped (.ok ()), l.startBulk config)
  | .endBulkLoad => some (.scoped (.ok ()), l.finishBulk finished)
  | .flush => some (.scoped (.ok ()), if l.bulk.isSome then l.finishBulk finished else l)

def run (l : Loader) : List Storage.Call → Option (List Storage.Reply × Loader)
  | [] => some ([], l)
  | call :: calls => do
    let (reply, l) ← l.step config finished fx hash128 X call
    let (replies, l) ← l.run calls
    return (reply :: replies, l)

end Loader

end Holos
