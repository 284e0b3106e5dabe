import Holos.Engine.SpillRows
import Holos.Engine.TopK
import Holos.Lib.MergeSort
/-!
# `DISTINCT` and `ORDER BY` in bounded memory

Both collectors hold rows until these outgrow a budget, and then write them out as a sorted run. A
merge reads the runs and what is still held through one heap, the next row of each source in it.
`Distinct` compares encoded rows as bytes and drops a row that repeats the one before it. `Sorted`
compares keys as `TopK` does, prefers the earlier run on a tie, and writes the keys before the row.

What a run holds is its bytes. The ceiling on what is written is checked after each run.
-/

namespace Holos.Engine.Spill

open TopK (Evaluator ExpressionTerm cmpKeys)

/-- Bytes of rows held before a run is written out. -/
def spillBytes : Nat := 128 * 2 ^ 20

/-- Bytes one operator may write before it is stopped. -/
def spillDiskBytes : Nat := 16 * 2 ^ 30

/-- A row's cost in memory, near enough to bound a buffer by. -/
def slotFootprint : Option Term → Nat
  | none => 8
  | some (.namedNode n) => n.utf8ByteSize + 24
  | some (.blankNode b) => b.utf8ByteSize + 24
  | some (.literal l) => l.value.utf8ByteSize + 64
  | some (.triple _ _ _) => 64

def footprint (row : Live) : Nat := (row.map slotFootprint).sum + 24

/-! ## DISTINCT -/

/-- Collects rows: a set of those held, in the order they came, and the runs. -/
structure Distinct where
  runs : List (List UInt8)
  written : Nat
  diskLimit : Nat
  live : List Live
  bytes : Nat
  budget : Nat
  width : Nat

namespace Distinct

-- `hashOrder` is the order the set is drained in
variable (F : TextForm) (hashOrder : List Live → List Live)

def new (width budget : Nat) : Distinct := ⟨[], 0, spillDiskBytes, [], 0, budget, width⟩

/-- Replaces the scratch ceiling. Zero removes it. -/
def withDiskLimit (d : Distinct) (bytes : Nat) : Distinct := { d with diskLimit := bytes }

/-- What is held, encoded and sorted. -/
def encoded (d : Distinct) : List Row :=
  ((hashOrder d.live).map (encodeRow F · d.width)).mergeSort (fun a b => decide (a ≤ b))

/-- Encodes what is held, sorts it, and writes it out as a run. -/
def spill (d : Distinct) : Except SpillError Distinct :=
  if d.live.isEmpty then .ok d
  else do
    let rows := d.encoded F hashOrder
    let d := { d with
      runs := d.runs ++ [rows.flatMap writeRow]
      written := d.written + (rows.map writtenBytes).sum
      live := []
      bytes := 0 }
    overDiskLimit d.written d.diskLimit
    return d

/-- Adds a solution, deduplicating it against what is already held. -/
def push (d : Distinct) (solution : Live) : Except SpillError Distinct :=
  let row := slotsOf solution d.width
  let d := if row ∈ d.live then d else { d with live := d.live ++ [row], bytes := d.bytes + footprint row }
  if d.bytes ≥ d.budget then d.spill F hashOrder else .ok d

end Distinct

/-- Runs on disk, merged with whatever was still held. -/
structure Spilled where
  width : Nat
  /-- What was still held, sorted. One more source. -/
  buffer : List Row
  sources : List (List UInt8)
  /-- The next row from every source, with the source. -/
  heap : List (Row ×ₗ Nat)
  /-- The source standing for `buffer`, one past the last run. -/
  tail : Nat
  tailAt : Nat
  /-- The row just given out. -/
  last : Option Row

/-- The distinct rows, however they ended up being held. -/
inductive Merged where
  | inMemory (rows : List Live)
  | spilled (s : Spilled)

namespace Spilled
variable (F : TextForm)

/-- Reads a source once more. -/
def advance (s : Spilled) (source : Nat) : Except SpillError Spilled :=
  if source = s.tail then
    let s := { s with tailAt := s.tailAt + 1 }
    match s.buffer[s.tailAt]? with
    | some row => .ok { s with heap := toLex (row, s.tail) :: s.heap }
    | none => .ok s
  else do
    let (row, rest) ← nextRecord (s.sources[source]?.getD [])
    let s := { s with sources := s.sources.set source rest }
    match row with
    | some row => return { s with heap := toLex (row, source) :: s.heap }
    | none => return s

/-- One turn of the loop of `next_row`: nothing is left, a row repeats the last one, or a row comes
out. -/
def turn (s : Spilled) : Except SpillError (Option (Option Live × Spilled)) :=
  match s.heap.min? with
  | none => .ok none
  | some e => do
    let row := (ofLex e).1
    let repeated := s.last = some row
    let s ← advance { s with heap := s.heap.erase e } (ofLex e).2
    if repeated then return some (none, s) else return some (some (decode F row s.width), { s with last := some row })

/-- All the rows, in at most so many turns. -/
def drain : Nat → Spilled → Except SpillError (List Live)
  | 0, _ => .ok []
  | turns + 1, s => do
    match ← s.turn F with
    | none => return []
    | some (row, s) => return row.toList ++ (← drain turns s)

end Spilled

/-- Every distinct row. When nothing was spilled this is the set as it stands. -/
def Distinct.merge (F : TextForm) (hashOrder : List Live → List Live) (d : Distinct) : Except SpillError Merged :=
  if d.runs.isEmpty then .ok (.inMemory (hashOrder d.live))
  else do
    let buffer := d.encoded F hashOrder
    let opened ← d.runs.mapM nextRecord
    let tail := opened.length
    let heads := opened.zipIdx.filterMap (fun source => source.1.1.map (fun row => toLex (row, source.2)))
    return .spilled ⟨d.width, buffer, opened.map (·.2), heads ++ (buffer.head?.map (fun row => toLex (row, tail))).toList, tail, 0, none⟩

/-- The rows a merge gives out, in at most so many turns. -/
def Merged.drain (F : TextForm) (turns : Nat) : Merged → Except SpillError (List Live)
  | .inMemory rows => .ok rows
  | .spilled s => s.drain F turns

/-- A bounded-memory `DISTINCT` over a stream of solutions. -/
def deduplicate (F : TextForm) (hashOrder : List Live → List Live) (width budget diskLimit turns : Nat) (input : List Live) :
    Except SpillError (List Live) := do
  let d ← input.foldlM (fun d solution => d.push F hashOrder solution) ((Distinct.new width budget).withDiskLimit diskLimit)
  (← d.merge F hashOrder).drain F turns

/-! ## ORDER BY -/

/-- What a key costs and how its literals are written as terms. -/
structure KeyForm (ev : Evaluator) where
  literal : ev.Value → Literal
  footprint : ev.Value → Nat

section Sorting
variable {ev : Evaluator} (F : TextForm) (K : KeyForm ev)

/-- One row's sort keys. -/
abbrev Keys (ev : Evaluator) := List (Option (ExpressionTerm ev))

/-- `Term::from`. -/
def toTerm : ExpressionTerm ev → Term
  | .namedNode iri => .namedNode iri
  | .blankNode id => .blankNode id
  | .literal value => .literal (K.literal value)
  | .triple s p o => .triple s p (toTerm o)

/-- Sort keys as the terms they came from, for encoding. -/
def keyTerms (keys : Keys ev) : Live := keys.map (·.map (toTerm K))

def keyFootprint : Option (ExpressionTerm ev) → Nat
  | none => 8
  | some (.namedNode n) => n.utf8ByteSize + 24
  | some (.blankNode b) => b.utf8ByteSize + 24
  | some (.literal value) => K.footprint value
  | some (.triple _ _ _) => 48

/-- What a row's keys cost in memory. -/
def keysFootprint (keys : Keys ev) : Nat := (keys.map (keyFootprint K)).sum + 24

/-- Collects rows with their sort keys. -/
structure Sorted (ev : Evaluator) where
  runs : List (List UInt8)
  written : Nat
  diskLimit : Nat
  live : List (Keys ev × Live)
  bytes : Nat
  budget : Nat
  rowWidth : Nat
  descending : List Bool

namespace Sorted

def new (rowWidth : Nat) (descending : List Bool) (budget : Nat) : Sorted ev := ⟨[], 0, spillDiskBytes, [], 0, budget, rowWidth, descending⟩

def withDiskLimit (c : Sorted ev) (bytes : Nat) : Sorted ev := { c with diskLimit := bytes }

def keyWidth (c : Sorted ev) : Nat := c.descending.length

/-- Whether one row's keys do not come after another's. -/
def rowLe (descending : List Bool) (a b : Keys ev × Live) : Bool := (cmpKeys ev a.1 b.1 descending).isLE

/-- Sorts what is held. Stable, so equal keys keep arrival order. -/
def sortLive (c : Sorted ev) : List (Keys ev × Live) := c.live.mergeSort (rowLe c.descending)

/-- A row as it is written: its keys, and then itself. -/
def record (c : Sorted ev) (entry : Keys ev × Live) : Row :=
  encodeRow F (keyTerms K entry.1) c.keyWidth ++ encodeRow F entry.2 c.rowWidth

/-- Sorts what is held and writes it out as a run. -/
def spill (c : Sorted ev) : Except SpillError (Sorted ev) :=
  if c.live.isEmpty then .ok c
  else do
    let records := c.sortLive.map (c.record F K)
    let c := { c with
      runs := c.runs ++ [records.flatMap writeRow]
      written := c.written + (records.map writtenBytes).sum
      live := []
      bytes := 0 }
    overDiskLimit c.written c.diskLimit
    return c

/-- Adds a row and the keys it sorts by. -/
def push (c : Sorted ev) (keys : Keys ev) (row : Live) : Except SpillError (Sorted ev) :=
  let c := { c with bytes := c.bytes + (footprint row + keysFootprint K keys), live := c.live ++ [(keys, row)] }
  if c.bytes ≥ c.budget then c.spill F K else .ok c

end Sorted

/-- The keys and the row a record holds. -/
def splitRecord (record : Row) (keyWidth rowWidth : Nat) : Keys ev × Live :=
  let (keys, at_) := decodeAt F record keyWidth 0
  let (row, _) := decodeAt F record rowWidth at_
  (keys.map (·.map (ExpressionTerm.ofTerm ev)), row)

/-- Where a merge's next rows stand: by their keys, and then by their source. -/
def headCmp (descending : List Bool) (a b : (Keys ev × Live) × Nat) : Ordering :=
  (cmpKeys ev a.1.1 b.1.1 descending).then (compare a.2 b.2)

/-- Runs on disk, merged with whatever was still held. -/
structure SpilledSort (ev : Evaluator) where
  buffer : List (Keys ev × Live)
  sources : List (List UInt8)
  /-- The next row of every source, with the source, in the order they come out. -/
  heap : List ((Keys ev × Live) × Nat)
  tail : Nat
  tailAt : Nat
  keyWidth : Nat
  rowWidth : Nat
  descending : List Bool

/-- However the rows ended up being held. -/
inductive SortedRows (ev : Evaluator) where
  | inMemory (rows : List Live)
  | spilled (s : SpilledSort ev)

namespace SpilledSort

def pushHead (s : SpilledSort ev) (entry : Keys ev × Live) (source : Nat) : SpilledSort ev :=
  { s with heap := Lib.Held.push (headCmp s.descending) (entry, source) s.heap }

/-- Reads a run once more. -/
def draw (s : SpilledSort ev) (source : Nat) : Except SpillError (SpilledSort ev) := do
  let (record, rest) ← nextRecord (s.sources[source]?.getD [])
  let s := { s with sources := s.sources.set source rest }
  match record with
  | some record => return s.pushHead (splitRecord F record s.keyWidth s.rowWidth) source
  | none => return s

/-- Reads a source once more. -/
def advance (s : SpilledSort ev) (source : Nat) : Except SpillError (SpilledSort ev) :=
  if source = s.tail then
    let s := { s with tailAt := s.tailAt + 1 }
    match s.buffer[s.tailAt]? with
    | some entry => .ok (s.pushHead entry s.tail)
    | none => .ok s
  else s.draw F source

/-- The next row, in order. -/
def nextRow (s : SpilledSort ev) : Except SpillError (Option (Live × SpilledSort ev)) :=
  match s.heap with
  | [] => .ok none
  | (entry, source) :: heap => do
    let s ← advance F { s with heap := heap } source
    return some (entry.2, s)

/-- All the rows, at most so many. -/
def drain : Nat → SpilledSort ev → Except SpillError (List Live)
  | 0, _ => .ok []
  | rows + 1, s => do
    match ← s.nextRow F with
    | none => return []
    | some (row, s) => return row :: (← drain rows s)

/-- Reads each run once. -/
def openRuns (s : SpilledSort ev) : Except SpillError (SpilledSort ev) :=
  (List.range s.sources.length).foldlM (draw F) s

end SpilledSort

/-- Every row, in order. When nothing was spilled this is the sorted buffer. -/
def Sorted.merge (c : Sorted ev) : Except SpillError (SortedRows ev) :=
  let buffer := c.sortLive
  if c.runs.isEmpty then .ok (.inMemory (buffer.map (·.2)))
  else do
    let s : SpilledSort ev := ⟨buffer, c.runs, [], c.runs.length, 0, c.keyWidth, c.rowWidth, c.descending⟩
    let s ← s.openRuns F
    match buffer.head? with
    | some entry => return .spilled (s.pushHead entry s.tail)
    | none => return .spilled s

def SortedRows.drain (rows : Nat) : SortedRows ev → Except SpillError (List Live)
  | .inMemory found => .ok found
  | .spilled s => s.drain F rows

/-- A bounded-memory sort of a stream of rows with their keys. -/
def sortRows (rowWidth : Nat) (descending : List Bool) (budget diskLimit count : Nat) (input : List (Keys ev × Live)) :
    Except SpillError (List Live) := do
  let c ← input.foldlM (fun c entry => c.push F K entry.1 entry.2) ((Sorted.new rowWidth descending budget).withDiskLimit diskLimit)
  (← c.merge F).drain F count

end Sorting

end Holos.Engine.Spill
