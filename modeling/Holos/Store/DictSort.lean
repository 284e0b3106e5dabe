import Holos.Lib.FileMerge
import Holos.Lib.Keyed
import Holos.Store.Bulk
import Holos.Store.Codec
/-!
# Sorted runs of dictionary rows

The rows of a dictionary family wait in a buffer; when they outgrow the budget they are sorted by key
and written out as a run. The merge reads the runs and then the buffer, and combines the values of
rows that share a key: the candidates of a hashed key are appended, an exact key takes the later value.

A run is its bytes. A loop takes turns, and `none` says they were too few.
-/

namespace Holos.DictSort

open Lib
open Lib.Keyed (keyCmp)
open Lib.Bytes (ofLe)
open Codec (ID)

/-- One dictionary row, its key and its value. -/
abbrev Row := List UInt8 × List UInt8

/-! ## Run files -/

/-- A length, if four bytes hold it. -/
def length32 (length : Nat) (longer : String) : Except StorageError Nat :=
  if length < 2 ^ 32 then .ok length else .error (.corruption longer)

def writeRow (row : Row) : Except StorageError (List UInt8) := do
  let keyLen ← length32 row.1.length "a dictionary key longer than 4 GiB"
  let valueLen ← length32 row.2.length "a dictionary value longer than 4 GiB"
  return Lib.Bytes.le 4 keyLen ++ (Lib.Bytes.le 4 valueLen ++ (row.1 ++ row.2))

/-- Reads one row and leaves the rest of the file. A file that ends within the lengths ends there; one
that ends within the row is an error. -/
def RunReader.next (file : List UInt8) : Except StorageError (Option Row × List UInt8) :=
  if file.length < 8 then .ok (none, [])
  else
    let keyLen := ofLe (file.take 4)
    let valueLen := ofLe ((file.drop 4).take 4)
    let rest := file.drop 8
    if rest.length < keyLen + valueLen then .error (.io "failed to fill whole buffer")
    else .ok (some (rest.take keyLen, (rest.drop keyLen).take valueLen), rest.drop (keyLen + valueLen))

/-! ## The merge -/

def KEY_HASHED : UInt8 := 1

/-- A slice in chunks of a width; the last may be shorter. -/
def chunks {α : Type} (width : Nat) (bytes : List α) : List (List α) :=
  (List.range ((bytes.length + width - 1) / width)).map (fun i => (bytes.drop (i * width)).take width)

/-- How two values sharing a key are reconciled. -/
def combine (key first second : List UInt8) : List UInt8 :=
  if key.head? = some KEY_HASHED then
    (chunks ID second).foldl (fun out id => if id ∈ chunks ID out then out else out ++ id) first
  else second

/-- One sorted stream over every run and the buffered tail. -/
abbrev Merged := FileMerge.State Row (List UInt8)

namespace Merged

/-- Pushes the next row from whichever source just gave one up. -/
def advance (merged : Merged) (source : Nat) : Except StorageError Merged :=
  FileMerge.State.advance RunReader.next keyCmp merged source

/-- Every other row with this key, in the order the heap gives them. -/
def gather (key : List UInt8) : Nat → List UInt8 → Merged → Option (Except StorageError (List UInt8 × Merged))
  | 0, _, _ => none
  | turns + 1, combined, merged =>
    match merged.heap with
    | [] => some (.ok (combined, merged))
    | ((nextKey, nextValue), nextSource) :: heap =>
      if nextKey ≠ key then some (.ok (combined, merged))
      else
        match advance { merged with heap } nextSource with
        | .error e => some (.error e)
        | .ok merged => gather key turns (combine key combined nextValue) merged

/-- The next row, with the values of equal keys combined. -/
def next (turns : Nat) (merged : Merged) : Option (Except StorageError (Option (Row × Merged))) :=
  match merged.heap with
  | [] => some (.ok none)
  | ((key, value), source) :: heap =>
    match advance { merged with heap } source with
    | .error e => some (.error e)
    | .ok merged => (gather key turns value merged).map (·.map (fun (combined, merged) => some ((key, combined), merged)))

/-- The rows one after the other, to the end. -/
def drain : Nat → Merged → Option (Except StorageError (List Row))
  | 0, _ => none
  | turns + 1, merged =>
    match next turns merged with
    | none => none
    | some (.error e) => some (.error e)
    | some (.ok none) => some (.ok [])
    | some (.ok (some (row, merged))) => (drain turns merged).map (·.map (row :: ·))

end Merged

/-! ## The accumulator -/

/-- Sorted runs of rows for one family, and the rows that were not written yet. -/
structure DictRuns where
  files : List (List UInt8)
  buffer : List Row
  bytes : Nat
  budget : Nat

namespace DictRuns

def new (budget : Nat) : DictRuns := ⟨[], [], 0, budget⟩

/-- The buffer, sorted by key, rows of one key as they came. -/
def sorted (runs : DictRuns) : List Row := runs.buffer.mergeSort (Lib.StableSort.le keyCmp)

/-- Sorts what is buffered and writes it out as one run. -/
def spill (runs : DictRuns) : Except StorageError DictRuns :=
  if runs.buffer.isEmpty then .ok runs
  else (runs.sorted.mapM writeRow).map (fun rows => { runs with files := runs.files ++ [rows.flatten], buffer := [], bytes := 0 })

/-- Adds a row, and spills when the buffer has reached its budget. -/
def push (runs : DictRuns) (row : Row) : Except StorageError DictRuns :=
  let runs := { runs with bytes := runs.bytes + (row.1.length + row.2.length + 8), buffer := runs.buffer ++ [row] }
  if runs.bytes ≥ runs.budget then runs.spill else .ok runs

/-- Whether anything has been spilled, or the buffer has reached its budget. -/
def atBudget (runs : DictRuns) : Bool := !runs.files.isEmpty || runs.bytes ≥ runs.budget

/-- Every row, in key order, across the runs and whatever is still buffered. -/
def merge (runs : DictRuns) : Except StorageError Merged := FileMerge.start RunReader.next keyCmp runs.files runs.sorted

end DictRuns

end Holos.DictSort
