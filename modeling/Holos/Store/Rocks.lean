import Holos.Lib.Overlay
import Holos.Store.Storage
/-!
# The on-disk tier

Quads and terms in a database of ordered column families. A term is keyed by its serialised
form if that is short and by a hash of it otherwise, and a hashed key leads to candidates that
are decoded and compared. A commit scope buffers every write and keeps enough beside the
buffer to answer reads: for each quad and graph it touched whether the database has it and
whether it is there now, and the terms it interned in both directions.

This is the storage outside a bulk load. The families are maps and the serialised forms are
values; the byte encodings are not part of it.
-/

namespace Holos

open Lib

/-! ## Serialised terms -/

/-- A term as its row holds it: a triple term by the ids of its parts. -/
inductive StoredTerm where
  | iri (iri : NamedNode)
  | blank (id : String)
  | literal (literal : Literal)
  | triple (s p o : TermId)
deriving DecidableEq, Repr

namespace StoredTerm

/-- How many bytes `put_term` writes: a tag, and four more for the length of a string that is
not the last. -/
def size : StoredTerm → Nat
  | .iri n => 1 + n.utf8ByteSize
  | .blank b => 1 + b.utf8ByteSize
  | .literal (.simple v) => 1 + v.utf8ByteSize
  | .literal (.typed v d _) => 1 + 4 + d.utf8ByteSize + v.utf8ByteSize
  | .literal (.languageTagged v l) => 1 + 4 + l.utf8ByteSize + v.utf8ByteSize
  | .literal (.directional v l _) => 1 + 1 + 4 + l.utf8ByteSize + v.utf8ByteSize
  | .triple _ _ _ => 1 + 3 * 8

end StoredTerm

/-- A 128-bit digest. -/
abbrev Hash := Fin (2 ^ 128)

instance instNeZeroHash : @NeZero Nat Zero.ofOfNat0 (2 ^ 128) := ⟨by decide⟩

/-- A key of the `str2id` family. -/
inductive DictKey where
  | exact (term : StoredTerm)
  | hashed (digest : Hash)
deriving DecidableEq

/-- Serialised terms at or below this length are their own dictionary key. -/
def inlineKeyMax : Nat := 512

/-- The dictionary key of a serialised term, and whether candidates need verifying. -/
def dictionaryKey (hash128 : StoredTerm → Hash) (serialised : StoredTerm) : DictKey × Bool :=
  if serialised.size ≤ inlineKeyMax then (.exact serialised, false) else (.hashed (hash128 serialised), true)

/-! ## The database -/

inductive TripleOrder where
  | dspo | dpos | dosp
deriving DecidableEq, Repr

inductive QuadOrder where
  | spog | posg | ospg | gspo | gpos | gosp
deriving DecidableEq, Repr

/-- The metadata keys of the default family. -/
inductive MetaKey where
  | quads
  | generation
  | next (tag : Tag)
deriving DecidableEq, Repr

/-- The column families. The index orders and the graph catalogue are the ten sets of a
`QuadIndex`. -/
structure Db where
  index : QuadIndex
  id2str : TermId → Option StoredTerm
  str2id : DictKey → Option (List TermId)
  stats : TermId → Option Nat
  default : MetaKey → Option Nat

/-- One buffered write. -/
inductive Pending where
  | putTriple (order : TripleOrder) (key : Key3)
  | deleteTriple (order : TripleOrder) (key : Key3)
  | putQuad (order : QuadOrder) (key : Key4)
  | deleteQuad (order : QuadOrder) (key : Key4)
  | putGraph (graph : TermId)
  | deleteGraph (graph : TermId)
  | putId2str (id : TermId) (serialised : StoredTerm)
  | putStr2id (key : DictKey) (ids : List TermId)
  | putStats (predicate : TermId) (n : Nat)
  | deleteStats (predicate : TermId)
  | putDefault (key : MetaKey) (n : Nat)

def QuadIndex.onTriples (ix : QuadIndex) (f : SortedSet Key3 → SortedSet Key3) : TripleOrder → QuadIndex
  | .dspo => { ix with dspo := f ix.dspo }
  | .dpos => { ix with dpos := f ix.dpos }
  | .dosp => { ix with dosp := f ix.dosp }

def QuadIndex.onQuads (ix : QuadIndex) (f : SortedSet Key4 → SortedSet Key4) : QuadOrder → QuadIndex
  | .spog => { ix with spog := f ix.spog }
  | .posg => { ix with posg := f ix.posg }
  | .ospg => { ix with ospg := f ix.ospg }
  | .gspo => { ix with gspo := f ix.gspo }
  | .gpos => { ix with gpos := f ix.gpos }
  | .gosp => { ix with gosp := f ix.gosp }

namespace Db

def new : Db := ⟨.new, fun _ => none, fun _ => none, fun _ => none, fun _ => none⟩

def apply (db : Db) : Pending → Db
  | .putTriple order key => { db with index := db.index.onTriples (·.insert key) order }
  | .deleteTriple order key => { db with index := db.index.onTriples (·.remove key) order }
  | .putQuad order key => { db with index := db.index.onQuads (·.insert key) order }
  | .deleteQuad order key => { db with index := db.index.onQuads (·.remove key) order }
  | .putGraph g => { db with index := { db.index with graphs := db.index.graphs.insert g } }
  | .deleteGraph g => { db with index := { db.index with graphs := db.index.graphs.remove g } }
  | .putId2str id serialised => { db with id2str := Function.update db.id2str id (some serialised) }
  | .putStr2id key ids => { db with str2id := Function.update db.str2id key (some ids) }
  | .putStats p n => { db with stats := Function.update db.stats p (some n) }
  | .deleteStats p => { db with stats := Function.update db.stats p none }
  | .putDefault key n => { db with default := Function.update db.default key (some n) }

/-- One batch: every operation of it, in order. -/
def write (db : Db) (batch : List Pending) : Db := batch.foldl apply db

end Db

/-! ## The storage -/

/-- What a commit scope has to remember. -/
structure ScopeState where
  pending : List Pending
  /-- Quads the scope has touched. -/
  quads : Overlay EncodedQuad
  /-- Named graphs the scope has created or dropped. -/
  graphs : Overlay TermId
  /-- Terms interned since the scope opened, by their serialised form. -/
  terms : StoredTerm → Option TermId
  /-- The same map backwards. -/
  strings : TermId → Option StoredTerm
  /-- Candidate lists for hashed keys the scope has appended to. -/
  candidates : DictKey → Option (List TermId)
  /-- The counters as they were when the scope opened. -/
  quadCount : Nat
  predicateCounts : Counter TermId
  generation : Nat

structure RocksStorage where
  db : Db
  /-- Next dense index per dictionary-backed tag. -/
  next : Tag → Nat
  quadCount : Nat
  predicateCounts : Counter TermId
  generation : Nat
  scope : Option ScopeState

namespace RocksStorage

variable (hash128 : StoredTerm → Hash) (X : Inline.Datatypes)

def new : RocksStorage := ⟨.new, fun _ => 0, 0, .empty, 0, none⟩

/-- How many buffered operations a commit scope may hold. -/
def maxScopeOps : Nat := 4 * 2 ^ 20

def tooLarge : StorageError :=
  .corruption ("a commit scope exceeded 4194304 buffered operations, about 419430 quads. A commit that large is a load, and " ++
    "a load belongs on the bulk path, which is built for the volume and does not promise atomicity.")

/-- Applies a group of writes atomically, or buffers them in the open scope. -/
def commitOps (r : RocksStorage) (ops : List Pending) : Except StorageError Unit × RocksStorage :=
  match r.scope with
  | some scope =>
    let scope := { scope with pending := scope.pending ++ ops }
    (if scope.pending.length > maxScopeOps then .error tooLarge else .ok (), { r with scope := some scope })
  | none => (.ok (), { r with db := r.db.write ops })

/-! ## Decoding -/

/-- The row of an id: the scope answers first. -/
def row (r : RocksStorage) (id : TermId) : Option StoredTerm :=
  match r.scope.bind (fun scope => scope.strings id) with
  | some bytes => some bytes
  | none => r.db.id2str id

/-- Turns an id back into a term. A triple term's parts were issued before it, so its payload
bounds the depth. -/
def decodeAt (r : RocksStorage) : Nat → TermId → Except StorageError (Option Term)
  | fuel, id =>
    if id.tag = .vocab then .ok ((Vocab.decodeIri id).map .namedNode)
    else if Inline.inlineTag id.tag then .ok (Inline.decode X id)
    else
      match fuel, r.row id with
      | _, none => .ok none
      | _, some (.iri n) => .ok (some (.namedNode n))
      | _, some (.blank b) => .ok (some (.blankNode b))
      | _, some (.literal l) => .ok (some (.literal l))
      | 0, some (.triple _ _ _) => .ok none
      | fuel + 1, some (.triple s p o) => do
        let n := id.payload
        match ← r.decodeAt fuel s with
        | none => .ok none
        | some subject =>
          match Dictionary.asSubject subject with
          | none => .error (.corruption s!"triple term TripleTerm#{n} has a non-node subject")
          | some subject =>
            match ← r.decodeAt fuel p with
            | some (.namedNode predicate) => return (← r.decodeAt fuel o).map (.triple subject predicate)
            | _ => .error (.corruption s!"triple term TripleTerm#{n} has a non-IRI predicate")

def decode (r : RocksStorage) (id : TermId) : Except StorageError (Option Term) := r.decodeAt X (id.payload + 1) id

/-- The first candidate that decodes to the term. -/
def verify (r : RocksStorage) (term : Term) : List TermId → Except StorageError (Option TermId)
  | [] => .ok none
  | candidate :: rest => do
    if (← r.decode X candidate) = some term then return some candidate else r.verify term rest

/-- Resolves a dictionary key to an id, against the database alone. -/
def resolve (r : RocksStorage) (key : DictKey) (hashed : Bool) (term : Term) : Except StorageError (Option TermId) :=
  match r.db.str2id key with
  | none => .ok none
  | some value =>
    if hashed then r.verify X term value
    else match value with
      | id :: _ => .ok (some id)
      | [] => .error (.corruption "key is shorter than a term id")

/-! ## Encoding -/

/-- What a function that may fail or panic leaves: `none` is the panic of a full id space. -/
def andThen {α β : Type} (x : Option (Except StorageError α × RocksStorage))
    (f : α → RocksStorage → Option (Except StorageError β × RocksStorage)) : Option (Except StorageError β × RocksStorage) :=
  match x with
  | none => none
  | some (.error e, r) => some (.error e, r)
  | some (.ok a, r) => f a r

/-- The candidates a new id is appended to, rather than put in the place of. -/
def candidatesFor (r : RocksStorage) (key : DictKey) : List TermId :=
  match r.scope.bind (fun scope => scope.candidates key) with
  | some list => list
  | none => (r.db.str2id key).getD []

/-- Gives a new term the next id of its tag, with its rows. -/
def allocate (r : RocksStorage) (tag : Tag) (serialised : StoredTerm) (ops : List Pending) :
    Option (Except StorageError (TermId × List Pending) × RocksStorage) :=
  (TermId.checked tag (r.next tag)).map fun id =>
    let ops := ops ++ [.putDefault (.next tag) (r.next tag + 1)]
    let r := { r with next := Function.update r.next tag (r.next tag + 1) }
    let r := { r with scope := r.scope.map (fun scope => { scope with
      terms := Function.update scope.terms serialised (some id)
      strings := Function.update scope.strings id (some serialised) }) }
    let ops := ops ++ [.putId2str id serialised]
    let (key, hashed) := dictionaryKey hash128 serialised
    if hashed then
      let candidates := r.candidatesFor key ++ [id]
      let r := { r with scope := r.scope.map (fun scope => { scope with
        candidates := Function.update scope.candidates key (some candidates) }) }
      (.ok (id, ops ++ [.putStr2id key candidates]), r)
    else (.ok (id, ops ++ [.putStr2id key [id]]), r)

/-- Finds a term by its serialised form or allocates it. The scope is asked first, then the
database; the writes gathered so far are not. -/
def intern (r : RocksStorage) (tag : Tag) (serialised : StoredTerm) (term : Term) (ops : List Pending) :
    Option (Except StorageError (TermId × List Pending) × RocksStorage) :=
  match r.scope.bind (fun scope => scope.terms serialised) with
  | some existing => some (.ok (existing, ops), r)
  | none =>
    match r.resolve X (dictionaryKey hash128 serialised).1 (dictionaryKey hash128 serialised).2 term with
    | .error e => some (.error e, r)
    | .ok (some existing) => some (.ok (existing, ops), r)
    | .ok none => r.allocate hash128 tag serialised ops

def encodeNamedNode (r : RocksStorage) (n : NamedNode) (ops : List Pending) :
    Option (Except StorageError (TermId × List Pending) × RocksStorage) :=
  match Vocab.encodeIri n with
  | some id => some (.ok (id, ops), r)
  | none => r.intern hash128 X .iri (.iri n) (.namedNode n) ops

def encodeBlankNode (r : RocksStorage) (b : String) (ops : List Pending) :
    Option (Except StorageError (TermId × List Pending) × RocksStorage) :=
  r.intern hash128 X .blankNode (.blank b) (.blankNode b) ops

def encodeSubject (r : RocksStorage) (ops : List Pending) :
    NamedOrBlankNode → Option (Except StorageError (TermId × List Pending) × RocksStorage)
  | .namedNode n => r.encodeNamedNode hash128 X n ops
  | .blankNode b => r.encodeBlankNode hash128 X b ops

/-- Interns a term, gathering any new rows. -/
def encodeInto (r : RocksStorage) (ops : List Pending) :
    Term → Option (Except StorageError (TermId × List Pending) × RocksStorage)
  | .namedNode n => r.encodeNamedNode hash128 X n ops
  | .blankNode b => r.encodeBlankNode hash128 X b ops
  | .literal l =>
    match Inline.encodeLiteral X l with
    | some id => some (.ok (id, ops), r)
    | none => r.intern hash128 X .literal (.literal l) (.literal l) ops
  | .triple subject predicate object =>
    andThen (r.encodeSubject hash128 X ops subject) fun (s, ops) r =>
    andThen (r.encodeNamedNode hash128 X predicate ops) fun (p, ops) r =>
    andThen (r.encodeInto ops object) fun (o, ops) r =>
    r.intern hash128 X .tripleTerm (.triple s p o) (.triple subject predicate object) ops

def encode (r : RocksStorage) (term : Term) : Option (Except StorageError TermId × RocksStorage) :=
  andThen (r.encodeInto hash128 X [] term) fun (id, ops) r =>
  match r.commitOps ops with
  | (.ok (), r) => some (.ok id, r)
  | (.error e, r) => some (.error e, r)

/-! ## Looking up -/

/-- Finds a term by its serialised form: in the scope, then in the database. -/
def lookupStored (r : RocksStorage) (serialised : StoredTerm) (term : Term) : Except StorageError (Option TermId) :=
  match r.scope.bind (fun scope => scope.terms serialised) with
  | some existing => .ok (some existing)
  | none => r.resolve X (dictionaryKey hash128 serialised).1 (dictionaryKey hash128 serialised).2 term

def lookupNamedNode (r : RocksStorage) (n : NamedNode) : Except StorageError (Option TermId) :=
  match Vocab.encodeIri n with
  | some id => .ok (some id)
  | none => r.lookupStored hash128 X (.iri n) (.namedNode n)

def lookupSubject (r : RocksStorage) : NamedOrBlankNode → Except StorageError (Option TermId)
  | .namedNode n => r.lookupNamedNode hash128 X n
  | .blankNode b => r.lookupStored hash128 X (.blank b) (.blankNode b)

/-- Looks a term up without interning it. -/
def lookup (r : RocksStorage) : Term → Except StorageError (Option TermId)
  | .namedNode n => r.lookupNamedNode hash128 X n
  | .blankNode b => r.lookupStored hash128 X (.blank b) (.blankNode b)
  | .literal l =>
    match Inline.encodeLiteral X l with
    | some id => .ok (some id)
    | none => r.lookupStored hash128 X (.literal l) (.literal l)
  | .triple subject predicate object => do
    let s ← r.lookupSubject hash128 X subject
    let p ← r.lookupNamedNode hash128 X predicate
    let o ← r.lookup object
    match s, p, o with
    | some s, some p, some o => r.lookupStored hash128 X (.triple s p o) (.triple subject predicate object)
    | _, _, _ => return none

/-! ## Reads -/

/-- Whether the database holds a quad, ignoring any open scope. -/
def dbContains (r : RocksStorage) (quad : EncodedQuad) : Bool :=
  match quad.graphName with
  | none => (⟨quad.subject, quad.predicate, quad.object⟩ : Key3) ∈ r.db.index.dspo
  | some g => (⟨g, quad.subject, quad.predicate, quad.object⟩ : Key4) ∈ r.db.index.gspo

def dbContainsGraph (r : RocksStorage) (graph : TermId) : Bool := graph ∈ r.db.index.graphs

def containsEncoded (r : RocksStorage) (quad : EncodedQuad) : Bool :=
  match r.scope with
  | some scope => scope.quads.contains r.dbContains quad
  | none => r.dbContains quad

def containsNamedGraph (r : RocksStorage) (graph : TermId) : Bool :=
  match r.scope with
  | some scope => scope.graphs.contains r.dbContainsGraph graph
  | none => r.dbContainsGraph graph

/-- Whether a quad matches a pattern. -/
def isMatch (quad : EncodedQuad) (s p o : Option TermId) (graph : GraphFilter) : Bool :=
  if s.any (· ≠ quad.subject) || p.any (· ≠ quad.predicate) || o.any (· ≠ quad.object) then false
  else match graph with
    | .default => quad.graphName.isNone
    | .named g => quad.graphName = some g
    | .anyNamed => quad.graphName.isSome
    | .any => true

/-- Rows of the database, from the one order whose prefix the pattern binds: the decision the
in-memory index makes. -/
def routedScan (r : RocksStorage) (s p o : Option TermId) (graph : GraphFilter) : List EncodedQuad :=
  r.db.index.quadsForPattern s p o graph

/-- A scan of one kind of graph under the overlay: what the scope removed is dropped, and what
it wrote that the database does not have comes after. -/
def scanOne (r : RocksStorage) (s p o : Option TermId) (graph : GraphFilter) : List EncodedQuad :=
  match r.scope with
  | none => r.routedScan s p o graph
  | some scope => scope.quads.merge (r.routedScan s p o graph) (fun quad => isMatch quad s p o graph)

def scan (r : RocksStorage) (s p o : Option TermId) (graph : GraphFilter) : List EncodedQuad :=
  match graph with
  | .any => r.scanOne s p o .default ++ r.scanOne s p o .anyNamed
  | graph => r.scanOne s p o graph

/-- A span scan. With a scope open the span cannot be taken from the index, so the pattern is
scanned and filtered. -/
def quadsWithObjectIn (r : RocksStorage) (s p : Option TermId) (span : IdRange) (graph : GraphFilter) : List EncodedQuad :=
  if span.isEmpty then []
  else match r.scope with
    | some _ => (r.scan s p none graph).filter (fun quad => span.contains quad.object)
    | none => r.db.index.quadsWithObjectIn s p span graph

def len (r : RocksStorage) : Nat := r.quadCount

def namedGraphs (r : RocksStorage) : List TermId :=
  match r.scope with
  | none => r.db.index.graphs.toList
  | some scope => scope.graphs.merge r.db.index.graphs.toList (fun _ => true)

def predicateCount (r : RocksStorage) (predicate : TermId) : Nat := r.predicateCounts.count predicate

def predicateHistogram (r : RocksStorage) : List (TermId × Nat) := r.predicateCounts.histogram

/-! ## Writes -/

/-- Records what a scope did to a quad; `inDbIfNew` is what asking the database just said. -/
def noteQuad (r : RocksStorage) (quad : EncodedQuad) (present inDbIfNew : Bool) : RocksStorage :=
  { r with scope := r.scope.map (fun scope => { scope with quads := scope.quads.note quad present inDbIfNew }) }

/-- Records what a scope did to a named graph. -/
def noteGraph (r : RocksStorage) (graph : TermId) (present : Bool) : RocksStorage :=
  { r with scope := r.scope.map (fun scope => { scope with graphs := scope.graphs.note graph present (r.dbContainsGraph graph) }) }

/-- The rows of a quad, in every order it stands in, and its graph. -/
def putRows (quad : EncodedQuad) : List Pending :=
  let ⟨s, p, o, graphName⟩ := quad
  match graphName with
  | none => [.putTriple .dspo ⟨s, p, o⟩, .putTriple .dpos ⟨p, o, s⟩, .putTriple .dosp ⟨o, s, p⟩]
  | some g =>
    [.putQuad .spog ⟨s, p, o, g⟩, .putQuad .posg ⟨p, o, s, g⟩, .putQuad .ospg ⟨o, s, p, g⟩,
      .putQuad .gspo ⟨g, s, p, o⟩, .putQuad .gpos ⟨g, p, o, s⟩, .putQuad .gosp ⟨g, o, s, p⟩, .putGraph g]

/-- The graph itself survives. -/
def deleteRows (quad : EncodedQuad) : List Pending :=
  let ⟨s, p, o, graphName⟩ := quad
  match graphName with
  | none => [.deleteTriple .dspo ⟨s, p, o⟩, .deleteTriple .dpos ⟨p, o, s⟩, .deleteTriple .dosp ⟨o, s, p⟩]
  | some g =>
    [.deleteQuad .spog ⟨s, p, o, g⟩, .deleteQuad .posg ⟨p, o, s, g⟩, .deleteQuad .ospg ⟨o, s, p, g⟩,
      .deleteQuad .gspo ⟨g, s, p, o⟩, .deleteQuad .gpos ⟨g, p, o, s⟩, .deleteQuad .gosp ⟨g, o, s, p⟩]

def insertEncoded (r : RocksStorage) (quad : EncodedQuad) : Except StorageError Bool × RocksStorage :=
  if r.containsEncoded quad then (.ok false, r)
  else
    let r := { r with
      quadCount := r.quadCount + 1
      generation := r.generation + 1
      predicateCounts := r.predicateCounts.increment quad.predicate }
    let ops := putRows quad ++ [.putDefault .quads r.quadCount, .putDefault .generation r.generation,
      .putStats quad.predicate (r.predicateCounts.count quad.predicate)]
    match r.commitOps ops with
    | (.error e, r) => (.error e, r)
    | (.ok (), r) =>
      let r := r.noteQuad quad true false
      let r := match quad.graphName with
        | some g => r.noteGraph g true
        | none => r
      (.ok true, r)

/-- The statistics row of a predicate that has lost a quad. -/
def statsRow (counts : Counter TermId) (p : TermId) : List Pending :=
  if counts.count p = 0 then []
  else if counts.count p = 1 then [.deleteStats p]
  else [.putStats p (counts.count p - 1)]

def removeEncoded (r : RocksStorage) (quad : EncodedQuad) : Except StorageError Bool × RocksStorage :=
  if r.containsEncoded quad then
    let stats := statsRow r.predicateCounts quad.predicate
    let r := { r with
      quadCount := r.quadCount - 1
      generation := r.generation + 1
      predicateCounts := r.predicateCounts.decrement quad.predicate }
    let ops := deleteRows quad ++ [.putDefault .quads r.quadCount, .putDefault .generation r.generation] ++ stats
    match r.commitOps ops with
    | (.error e, r) => (.error e, r)
    | (.ok (), r) => (.ok true, r.noteQuad quad false true)
  else (.ok false, r)

def insertNamedGraph (r : RocksStorage) (graph : TermId) : Except StorageError Bool × RocksStorage :=
  if r.containsNamedGraph graph then (.ok false, r)
  else
    match r.commitOps [.putGraph graph] with
    | (.error e, r) => (.error e, r)
    | (.ok (), r) => (.ok true, r.noteGraph graph true)

/-- Removes each of a list of quads, stopping at the first failure. -/
def removeEach (r : RocksStorage) : List EncodedQuad → Except StorageError Unit × RocksStorage
  | [] => (.ok (), r)
  | quad :: rest =>
    match r.removeEncoded quad with
    | (.error e, r) => (.error e, r)
    | (.ok _, r) => r.removeEach rest

def removeNamedGraph (r : RocksStorage) (graph : TermId) : Except StorageError Bool × RocksStorage :=
  let existed := r.containsNamedGraph graph
  match r.removeEach (r.scan none none none (.named graph)) with
  | (.error e, r) => (.error e, r)
  | (.ok (), r) =>
    if existed then
      match r.commitOps [.deleteGraph graph] with
      | (.error e, r) => (.error e, r)
      | (.ok (), r) => (.ok existed, r.noteGraph graph false)
    else (.ok existed, r)

def write (r : RocksStorage) : Index.Op → Except StorageError Bool × RocksStorage
  | .insert q => r.insertEncoded q
  | .remove q => r.removeEncoded q
  | .insertNamedGraph g => r.insertNamedGraph g
  | .removeNamedGraph g => r.removeNamedGraph g

/-! ## Scopes -/

def begin (r : RocksStorage) : Except StorageError RocksStorage :=
  if r.scope.isSome then .error Storage.nested
  else .ok { r with scope := some {
    pending := []
    quads := ∅
    graphs := ∅
    terms := fun _ => none
    strings := fun _ => none
    candidates := fun _ => none
    quadCount := r.quadCount
    predicateCounts := r.predicateCounts
    generation := r.generation } }

/-- One batch, one write. -/
def commit (r : RocksStorage) : Except StorageError RocksStorage :=
  match r.scope with
  | none => .error Storage.notOpen
  | some scope => .ok { r with db := r.db.write scope.pending, scope := none }

/-- Nothing was written, so only the counters go back. `next` stays where it is. -/
def rollback (r : RocksStorage) : RocksStorage :=
  match r.scope with
  | none => r
  | some scope => { r with
    quadCount := scope.quadCount
    predicateCounts := scope.predicateCounts
    generation := scope.generation
    scope := none }

/-! ## Runs -/

/-- One operation: its reply and the storage after it. `none` is the panic of a full id
space. -/
def step (r : RocksStorage) : Storage.Op → Option (Storage.Reply × RocksStorage)
  | .encode t => (r.encode hash128 X t).map (fun x => (.encoded x.1, x.2))
  | .write op => some (.wrote (r.write op).1, (r.write op).2)
  | .begin =>
    match r.begin with
    | .ok r' => some (.scoped (.ok ()), r')
    | .error e => some (.scoped (.error e), r)
  | .commit =>
    match r.commit with
    | .ok r' => some (.scoped (.ok ()), r')
    | .error e => some (.scoped (.error e), r)
  | .rollback => some (.scoped (.ok ()), r.rollback)

def run (r : RocksStorage) : List Storage.Op → Option (List Storage.Reply × RocksStorage)
  | [] => some ([], r)
  | op :: ops => do
    let (reply, r) ← r.step hash128 X op
    let (replies, r) ← r.run ops
    return (reply :: replies, r)

end RocksStorage

end Holos
