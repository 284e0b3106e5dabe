import Holos.Lib.Assoc
import Holos.Store.Backend
import Mathlib.Data.List.Sort
/-!
# Characteristic sets

What is counted of a graph in one pass over its quads: per predicate, and per shape of
subject. Quads of one subject are taken to come together; a shape is closed when the subject
changes. Hash maps are lists of pairs, in whatever order they are gone through.
-/

namespace Holos.Stats

open Lib

/-! ## The sketch of distinct objects -/

/-- Register-index bits. -/
def precision : Nat := 14

/-- The largest rank the remaining bits can express. -/
def maxRank : Nat := 64 - precision + 1

/-- A distinct-count sketch: the largest rank seen in each of the `2 ^ precision` registers. -/
structure DistinctCount where
  registers : Nat → Nat

def DistinctCount.default : DistinctCount := ⟨fun _ => 0⟩

/-- The finalizer that spreads ids over the registers. -/
def mix (z : BitVec 64) : BitVec 64 :=
  let z := z + 0x9E3779B97F4A7C15#64
  let z := (z ^^^ (z >>> 30)) * 0xBF58476D1CE4E5B9#64
  let z := (z ^^^ (z >>> 27)) * 0x94D049BB133111EB#64
  z ^^^ (z >>> 31)

/-- The register a value falls in. -/
def registerOf (id : TermId) : Nat := (mix (BitVec.ofFin id) >>> (64 - precision)).toNat

def rankOf (id : TermId) : Nat := Nat.min ((mix (BitVec.ofFin id) <<< precision).clz.toNat + 1) maxRank

/-- Records one value. -/
def DistinctCount.add (sketch : DistinctCount) (id : TermId) : DistinctCount :=
  ⟨Function.update sketch.registers (registerOf id) (Nat.max (rankOf id) (sketch.registers (registerOf id)))⟩

/-! ## Statistics -/

/-- One distinct shape of subject, with how often it occurs. -/
structure CharacteristicSet where
  predicates : List TermId
  subjects : Nat
  occurrences : List (TermId × Nat)
deriving DecidableEq, Repr

/-- Per-predicate counts. -/
structure PredicateStats where
  triples : Nat
  subjects : Nat
  objects : Nat
deriving DecidableEq, Repr

def PredicateStats.default : PredicateStats := ⟨0, 0, 0⟩

/-- Statistics over a graph. -/
structure Statistics where
  predicates : List (TermId × PredicateStats)
  sets : List CharacteristicSet
  byPredicate : List (TermId × List Nat)
  totalTriples : Nat
  totalSubjects : Nat
  generation : Nat
deriving DecidableEq, Repr

/-- Adds a set at the next index, which is noted under each of its predicates. -/
def Statistics.push (stats : Statistics) (set : CharacteristicSet) : Statistics :=
  { stats with
    byPredicate := set.predicates.foldl (fun m p => entry [] (· ++ [stats.sets.length]) p m) stats.byPredicate
    sets := stats.sets ++ [set] }

/-! ## Building -/

/-- What the pass carries along. -/
structure Building where
  totalTriples : Nat
  totalSubjects : Nat
  predicates : List (TermId × PredicateStats)
  distinctSubjects : List (TermId × Nat)
  distinctObjects : List (TermId × DistinctCount)
  shapes : List (List TermId × (Nat × List (TermId × Nat)))
  currentSubject : Option TermId
  current : List (TermId × Nat)

def Building.start : Building := ⟨0, 0, [], [], [], [], none, []⟩

/-- Closes a subject: its predicates are its shape. -/
def Building.close (st : Building) : Building :=
  if st.currentSubject.isNone || st.current.isEmpty then { st with current := [] }
  else
    let key := (st.current.map Prod.fst).insertionSort (· ≤ ·)
    { st with
      shapes := entry (0, []) (fun e => (e.1 + 1, st.current.foldl (fun m x => entry 0 (· + x.2) x.1 m) e.2)) key st.shapes
      distinctSubjects := st.current.foldl (fun m x => entry 0 (· + 1) x.1 m) st.distinctSubjects
      totalSubjects := st.totalSubjects + 1
      current := [] }

/-- One quad of the scan. -/
def Building.visit (st : Building) (quad : EncodedQuad) : Building :=
  let st := { st with
    totalTriples := st.totalTriples + 1
    predicates := entry PredicateStats.default (fun s => { s with triples := s.triples + 1 }) quad.predicate st.predicates
    distinctObjects := entry DistinctCount.default (·.add quad.object) quad.predicate st.distinctObjects }
  let st := if st.currentSubject ≠ some quad.subject then { st.close with currentSubject := some quad.subject } else st
  { st with current := entry 0 (· + 1) quad.predicate st.current }

/-- What the pass leaves, as statistics. -/
def Building.finish (estimate : DistinctCount → Nat) (generation : Nat) (st : Building) : Statistics :=
  let predicates := st.distinctSubjects.foldl (fun m x => entry PredicateStats.default (fun s => { s with subjects := x.2 }) x.1 m)
    st.predicates
  let predicates := st.distinctObjects.foldl
    (fun m x => entry PredicateStats.default (fun s => { s with objects := estimate x.2 }) x.1 m) predicates
  st.shapes.foldl (fun stats shape => stats.push ⟨shape.1, shape.2.1, shape.2.2⟩)
    ⟨predicates, [], [], st.totalTriples, st.totalSubjects, generation⟩

/-- Builds statistics by scanning a graph. The estimate a sketch is read as is arithmetic on
doubles, and is told. -/
def Statistics.build (B : Backend) (estimate : DistinctCount → Nat) (generation : Nat) (store : B.State) (graph : GraphFilter) :
    Except StorageError Statistics := do
  let quads ← B.scan store none none none graph
  return ((quads.foldl Building.visit Building.start).close).finish estimate generation

end Holos.Stats
