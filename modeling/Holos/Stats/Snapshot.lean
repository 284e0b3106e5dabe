import Holos.Lib.Cursor
import Holos.Stats.Statistics
/-!
# Statistics kept with the store

A snapshot is a version byte, four counts, and the two collections, each behind its length. The
index from predicates to sets is not written: reading a set puts it in the index, as building
does. A snapshot is a cache, so anything that is not exactly one is no snapshot.
-/

namespace Holos.Stats

open Lib Lib.Bytes

/-- Bumped when the layout changes. -/
def snapshotVersion : UInt8 := 1

def putU64 (v : Nat) : List UInt8 := be 8 v

/-- A length, which is saturated rather than cut. -/
def putU32 (v : Nat) : List UInt8 := be 4 (if v < 2 ^ 32 then v else 2 ^ 32 - 1)

def putPredicate (entry : TermId × PredicateStats) : List UInt8 :=
  putU64 entry.1.val ++ (putU64 entry.2.triples ++ (putU64 entry.2.subjects ++ putU64 entry.2.objects))

def putOccurrences (entry : TermId × Nat) : List UInt8 := putU64 entry.1.val ++ putU64 entry.2

def putSet (set : CharacteristicSet) : List UInt8 :=
  putU32 set.predicates.length ++ (set.predicates.flatMap (fun p => putU64 p.val) ++ (putU64 set.subjects ++
    (putU32 set.occurrences.length ++ set.occurrences.flatMap putOccurrences)))

def Statistics.toBytes (stats : Statistics) : List UInt8 :=
  [snapshotVersion] ++ (putU64 stats.generation ++ (putU64 stats.totalTriples ++ (putU64 stats.totalSubjects ++
    ((putU32 stats.predicates.length ++ stats.predicates.flatMap putPredicate) ++
      (putU32 stats.sets.length ++ stats.sets.flatMap putSet)))))

/-! ## Reading -/

def fromRaw (raw : Nat) : TermId := Fin.ofNat (2 ^ 64) raw

/-- A map gets a value at a key, in place of one it may have had. -/
def put {β : Type} (m : List (TermId × β)) (p : TermId × β) : List (TermId × β) := entry p.2 (fun _ => p.2) p.1 m

def readPredicate (stats : Statistics) : Eff Unit Cursor Statistics := do
  let predicate ← Cursor.u64
  let triples ← Cursor.u64
  let subjects ← Cursor.u64
  let objects ← Cursor.u64
  return { stats with predicates := put stats.predicates (fromRaw predicate, ⟨triples, subjects, objects⟩) }

def readPredicateOf (predicates : List TermId) : Eff Unit Cursor (List TermId) := do
  let raw ← Cursor.u64
  return predicates ++ [fromRaw raw]

def readOccurrences (occurrences : List (TermId × Nat)) : Eff Unit Cursor (List (TermId × Nat)) := do
  let predicate ← Cursor.u64
  let n ← Cursor.u64
  return put occurrences (fromRaw predicate, n)

def readSet (stats : Statistics) : Eff Unit Cursor Statistics := do
  let width ← Cursor.u32
  let predicates ← Cursor.times readPredicateOf width []
  let subjects ← Cursor.u64
  let carried ← Cursor.u32
  let occurrences ← Cursor.times readOccurrences carried []
  return stats.push ⟨predicates, subjects, occurrences⟩

def readPredicates (stats : Statistics) : Eff Unit Cursor Statistics := do
  let n ← Cursor.u32
  Cursor.times readPredicate n stats

def readSets (stats : Statistics) : Eff Unit Cursor Statistics := do
  let n ← Cursor.u32
  Cursor.times readSet n stats

def readStatistics : Eff Unit Cursor Statistics := do
  let version ← Cursor.u8
  if version ≠ snapshotVersion then throw () else
    let generation ← Cursor.u64
    let totalTriples ← Cursor.u64
    let totalSubjects ← Cursor.u64
    let stats ← readPredicates ⟨[], [], [], totalTriples, totalSubjects, generation⟩
    readSets stats

/-- `none` where reading would panic; else the snapshot, if the bytes are exactly one. -/
def Statistics.fromBytes (bytes : List UInt8) : Option (Option Statistics) := Cursor.whole readStatistics bytes

/-! ## Keeping and finding again -/

/-- What is written where the store stands where the statistics were built. -/
def Statistics.save (stats : Statistics) (generation : Nat) : Option (List UInt8) :=
  if generation ≠ stats.generation then none else some stats.toBytes

/-- The snapshot the store keeps, if it still describes the store. -/
def loadCached (kept : Except StorageError (Option (List UInt8))) (generation : Nat) (graph : GraphFilter) :
    Option (Except StorageError (Option Statistics)) :=
  match graph with
  | .default =>
    match kept with
    | .error e => some (.error e)
    | .ok none => some (.ok none)
    | .ok (some bytes) => (Statistics.fromBytes bytes).map fun stats => .ok (stats.filter (·.generation == generation))
  | _ => some (.ok none)

end Holos.Stats
