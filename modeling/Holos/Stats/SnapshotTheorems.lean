import Holos.Stats.Snapshot
import Holos.Stats.StatisticsTheorems
/-!
# A snapshot is read back, and nothing else is one

Written and read part by part: each reader reads what its writer put, and is steady, so a cut
snapshot is no snapshot either.
-/

namespace Holos.Stats

open Lib Lib.Bytes Lib.Cursor

/-! ## Statistics that can be written -/

/-- The counts are 64-bit numbers, the maps have each key once, and there are no more entries
than a length can say. -/
structure PredicateStats.Fits (stats : PredicateStats) : Prop where
  triples : stats.triples < 2 ^ 64
  subjects : stats.subjects < 2 ^ 64
  objects : stats.objects < 2 ^ 64

structure CharacteristicSet.Fits (set : CharacteristicSet) : Prop where
  width : set.predicates.length < 2 ^ 32
  subjects : set.subjects < 2 ^ 64
  carried : set.occurrences.length < 2 ^ 32
  keyed : Keyed set.occurrences
  occurrences : ∀ entry ∈ set.occurrences, entry.2 < 2 ^ 64

structure Statistics.Fits (stats : Statistics) : Prop where
  generation : stats.generation < 2 ^ 64
  totalTriples : stats.totalTriples < 2 ^ 64
  totalSubjects : stats.totalSubjects < 2 ^ 64
  length : stats.predicates.length < 2 ^ 32
  keyed : Keyed stats.predicates
  predicates : ∀ entry ∈ stats.predicates, entry.2.Fits
  shapes : stats.sets.length < 2 ^ 32
  sets : ∀ set ∈ stats.sets, set.Fits

/-- The sets pushed one after another, as building does. -/
def Statistics.rebuilt (stats : Statistics) : Statistics :=
  stats.sets.foldl Statistics.push ⟨stats.predicates, [], [], stats.totalTriples, stats.totalSubjects, stats.generation⟩

/-- Apart from the index. -/
structure Statistics.Agrees (stats other : Statistics) : Prop where
  predicates : stats.predicates = other.predicates
  sets : stats.sets = other.sets
  totalTriples : stats.totalTriples = other.totalTriples
  totalSubjects : stats.totalSubjects = other.totalSubjects
  generation : stats.generation = other.generation

theorem foldl_push_agrees (sets : List CharacteristicSet) (stats : Statistics) :
    (sets.foldl Statistics.push stats).Agrees { stats with sets := stats.sets ++ sets } := by
  induction sets generalizing stats with
  | nil => exact ⟨rfl, (List.append_nil _).symm, rfl, rfl, rfl⟩
  | cons set sets ih =>
    obtain ⟨hp, hs, ht, hsub, hg⟩ := ih (stats.push set)
    refine ⟨hp, ?_, ht, hsub, hg⟩
    rw [List.foldl_cons, hs]
    simp [Statistics.push]

theorem rebuilt_agrees (stats : Statistics) : stats.rebuilt.Agrees stats := by
  obtain ⟨hp, hs, ht, hsub, hg⟩ := foldl_push_agrees stats.sets
    ⟨stats.predicates, [], [], stats.totalTriples, stats.totalSubjects, stats.generation⟩
  exact ⟨hp, hs, ht, hsub, hg⟩

/-- What building made has the index that reading makes. -/
theorem finish_rebuilt (estimate : DistinctCount → Nat) (generation : Nat) (st : Building) :
    (st.finish estimate generation).rebuilt = st.finish estimate generation := by
  have hfold : st.finish estimate generation = (st.shapes.map setOf).foldl Statistics.push
      ⟨finishPredicates estimate st, [], [], st.totalTriples, st.totalSubjects, generation⟩ := by
    rw [List.foldl_map]
    rfl
  have h := foldl_push_agrees (st.shapes.map setOf) ⟨finishPredicates estimate st, [], [], st.totalTriples, st.totalSubjects, generation⟩
  rw [← hfold] at h
  rw [Statistics.rebuilt, h.sets, h.predicates, h.totalTriples, h.totalSubjects, h.generation, List.nil_append]
  exact hfold.symm

/-- Where no set has a predicate twice, the index is right of the sets. -/
theorem rebuilt_indexed {stats : Statistics} (h : ∀ set ∈ stats.sets, set.predicates.Nodup) : Indexed stats.rebuilt := by
  have hgen : ∀ sets : List CharacteristicSet, (∀ set ∈ sets, set.predicates.Nodup) → ∀ stats, Indexed stats →
      Indexed (sets.foldl Statistics.push stats) := by
    intro sets
    induction sets with
    | nil => exact fun _ _ hi => hi
    | cons set sets ih =>
      intro hall stats hi
      exact ih (fun x hx => hall x (List.mem_cons_of_mem _ hx)) _ (hi.push (hall set List.mem_cons_self))
  exact hgen stats.sets h _ ⟨List.nodup_nil, fun _ => rfl, fun p => by simp [value]⟩

/-! ## Maps read back -/

theorem entry_new {β : Type} {m : List (TermId × β)} {k : TermId} (h : k ∉ m.map Prod.fst) (d : β) (f : β → β) :
    entry d f k m = m ++ [(k, f d)] := by
  induction m with
  | nil => rfl
  | cons p m ih =>
    rw [List.map_cons, List.mem_cons, not_or] at h
    rw [entry, if_neg h.1, ih h.2, List.cons_append]

theorem foldl_put_append {β : Type} {m xs : List (TermId × β)} (h : Keyed (m ++ xs)) : xs.foldl put m = m ++ xs := by
  induction xs generalizing m with
  | nil => exact (List.append_nil m).symm
  | cons x xs ih =>
    have hx : x.1 ∉ m.map Prod.fst := by
      unfold Keyed at h
      rw [List.map_append, List.map_cons, List.nodup_append] at h
      intro hm
      exact h.2.2 x.1 hm x.1 List.mem_cons_self rfl
    rw [List.foldl_cons, put, entry_new hx, ih]
    · rw [List.append_assoc, List.singleton_append]
    · rw [List.append_assoc, List.singleton_append]
      exact h

/-- Putting the pairs of a map makes the map. -/
theorem foldl_put {β : Type} {xs : List (TermId × β)} (h : Keyed xs) : xs.foldl put [] = xs := foldl_put_append (m := []) h

theorem foldl_push_back {γ : Type} (xs ys : List γ) : xs.foldl (fun acc x => acc ++ [x]) ys = ys ++ xs := by
  induction xs generalizing ys with
  | nil => exact (List.append_nil ys).symm
  | cons x xs ih => rw [List.foldl_cons, ih, List.append_assoc, List.singleton_append]

/-! ## Part by part -/

theorem fromRaw_val (id : TermId) : fromRaw id.val = id := Fin.ofNat_val_eq_self id

theorem reads_putU64 {v : Nat} (h : v < 2 ^ 64) : Reads u64 (putU64 v) v := reads_u64 (by omega)

theorem reads_putU32 {v : Nat} (h : v < 2 ^ 32) : Reads u32 (putU32 v) v := by
  rw [putU32, if_pos h]
  exact reads_u32 (by omega)

theorem reads_putPredicate {entry : TermId × PredicateStats} (h : entry.2.Fits) (stats : Statistics) :
    Reads (readPredicate stats) (putPredicate entry) { stats with predicates := put stats.predicates entry } := by
  apply (reads_putU64 entry.1.isLt).bind
  apply (reads_putU64 h.triples).bind
  apply (reads_putU64 h.subjects).bind
  apply (reads_putU64 h.objects).last
  rw [fromRaw_val]
  exact reads_pure _

theorem reads_putPredicateOf (p : TermId) (predicates : List TermId) :
    Reads (readPredicateOf predicates) (putU64 p.val) (predicates ++ [p]) := by
  apply (reads_putU64 p.isLt).last
  rw [fromRaw_val]
  exact reads_pure _

theorem reads_putOccurrences {entry : TermId × Nat} (h : entry.2 < 2 ^ 64) (occurrences : List (TermId × Nat)) :
    Reads (readOccurrences occurrences) (putOccurrences entry) (put occurrences entry) := by
  apply (reads_putU64 entry.1.isLt).bind
  apply (reads_putU64 h).last
  rw [fromRaw_val]
  exact reads_pure _

theorem reads_putSet {set : CharacteristicSet} (h : set.Fits) (stats : Statistics) :
    Reads (readSet stats) (putSet set) (stats.push set) := by
  apply (reads_putU32 h.width).bind
  apply (reads_times (fun p _ predicates => reads_putPredicateOf p predicates) []).bind
  rw [foldl_push_back, List.nil_append]
  apply (reads_putU64 h.subjects).bind
  apply (reads_putU32 h.carried).bind
  apply (reads_times (fun entry he occurrences => reads_putOccurrences (h.occurrences entry he) occurrences) []).last
  rw [foldl_put h.keyed]
  exact reads_pure _

theorem foldl_predicates (xs : List (TermId × PredicateStats)) (stats : Statistics) :
    xs.foldl (fun s e => { s with predicates := put s.predicates e }) stats =
      { stats with predicates := xs.foldl put stats.predicates } := by
  induction xs generalizing stats with
  | nil => rfl
  | cons x xs ih => rw [List.foldl_cons, ih, List.foldl_cons]

theorem reads_putPredicates {xs : List (TermId × PredicateStats)} (hlen : xs.length < 2 ^ 32) (hkeyed : Keyed xs)
    (h : ∀ entry ∈ xs, entry.2.Fits) (stats : Statistics) (hnone : stats.predicates = []) :
    Reads (readPredicates stats) (putU32 xs.length ++ xs.flatMap putPredicate) { stats with predicates := xs } := by
  apply (reads_putU32 hlen).bind
  have hall := reads_times (fun entry he stats => reads_putPredicate (h entry he) stats) stats
  rw [foldl_predicates, hnone, foldl_put hkeyed] at hall
  exact hall

theorem reads_putSets {xs : List CharacteristicSet} (hlen : xs.length < 2 ^ 32) (h : ∀ set ∈ xs, set.Fits) (stats : Statistics) :
    Reads (readSets stats) (putU32 xs.length ++ xs.flatMap putSet) (xs.foldl Statistics.push stats) := by
  apply (reads_putU32 hlen).bind
  exact reads_times (fun set hs stats => reads_putSet (h set hs) stats) stats

theorem reads_toBytes {stats : Statistics} (h : stats.Fits) : Reads readStatistics stats.toBytes stats.rebuilt := by
  apply (reads_u8 snapshotVersion).bind
  rw [if_neg (not_not.2 rfl)]
  apply (reads_putU64 h.generation).bind
  apply (reads_putU64 h.totalTriples).bind
  apply (reads_putU64 h.totalSubjects).bind
  apply (reads_putPredicates h.length h.keyed h.predicates _ rfl).bind
  exact reads_putSets h.shapes h.sets _

/-! ## Whatever the bytes -/

theorem steady_readPredicate (stats : Statistics) : Steady (readPredicate stats) := by
  refine steady_u64.bind fun predicate => ?_
  refine steady_u64.bind fun triples => ?_
  refine steady_u64.bind fun subjects => ?_
  exact steady_u64.bind fun objects => Steady.pure _

theorem steady_readPredicateOf (predicates : List TermId) : Steady (readPredicateOf predicates) :=
  steady_u64.bind fun _ => Steady.pure _

theorem steady_readOccurrences (occurrences : List (TermId × Nat)) : Steady (readOccurrences occurrences) := by
  refine steady_u64.bind fun predicate => ?_
  exact steady_u64.bind fun n => Steady.pure _

theorem steady_readSet (stats : Statistics) : Steady (readSet stats) := by
  refine steady_u32.bind fun width => ?_
  refine (Steady.times steady_readPredicateOf width []).bind fun predicates => ?_
  refine steady_u64.bind fun subjects => ?_
  refine steady_u32.bind fun carried => ?_
  exact (Steady.times steady_readOccurrences carried []).bind fun occurrences => Steady.pure _

theorem steady_readStatistics : Steady readStatistics := by
  refine steady_u8.bind fun version => ?_
  apply Steady.ite
  · exact fun _ => Steady.throw
  · intro _
    refine steady_u64.bind fun generation => ?_
    refine steady_u64.bind fun totalTriples => ?_
    refine steady_u64.bind fun totalSubjects => ?_
    refine (steady_u32.bind fun n => Steady.times steady_readPredicate n _).bind fun stats => ?_
    exact steady_u32.bind fun n => Steady.times steady_readSet n stats

/-! ## Snapshots -/

/-- Statistics are read back from their bytes with the index building makes, from neither less
nor more than these, and no bytes at all make reading panic. -/
theorem snapshot_exact :
    (∀ stats : Statistics, stats.Fits →
      (Statistics.fromBytes stats.toBytes = some (some stats.rebuilt) ∧ stats.rebuilt.Agrees stats) ∧
      (∀ cut more, stats.toBytes = cut ++ more → more ≠ [] → Statistics.fromBytes cut = some none) ∧
      ∀ more, more ≠ [] → Statistics.fromBytes (stats.toBytes ++ more) = some none) ∧
    (∀ estimate generation (st : Building), (st.finish estimate generation).rebuilt = st.finish estimate generation) ∧
    (∀ stats : Statistics, (∀ set ∈ stats.sets, set.predicates.Nodup) → Indexed stats.rebuilt) ∧
    ∀ bytes, ∃ read, Statistics.fromBytes bytes = some read := by
  refine ⟨fun stats h => ⟨⟨whole_reads (reads_toBytes h), rebuilt_agrees stats⟩, ?_, ?_⟩, finish_rebuilt,
    fun stats => rebuilt_indexed, whole_total steady_readStatistics⟩
  · intro cut more hcut hmore
    exact whole_cut steady_readStatistics (reads_toBytes h) hcut hmore
  · intro more hmore
    exact whole_more (reads_toBytes h) hmore

/-- One predicate, and one shape of two subjects. -/
def oneShape : Statistics :=
  ⟨[(7, ⟨3, 2, 3⟩)], [⟨[7], 2, [(7, 3)]⟩], [(7, [0])], 3, 2, 9⟩

theorem oneShape_fits : oneShape.Fits where
  generation := by decide
  totalTriples := by decide
  totalSubjects := by decide
  length := by decide
  keyed := List.nodup_singleton _
  predicates := by
    intro entry he
    rw [List.mem_singleton.1 he]
    exact ⟨by decide, by decide, by decide⟩
  shapes := by decide
  sets := by
    intro set hs
    rw [List.mem_singleton.1 hs]
    refine ⟨by decide, by decide, by decide, List.nodup_singleton _, ?_⟩
    intro entry he
    rw [List.mem_singleton.1 he]
    decide

theorem snapshot_oneShape :
    Statistics.fromBytes oneShape.toBytes = some (some oneShape) ∧ Statistics.fromBytes (oneShape.toBytes ++ [0]) = some none ∧
    Indexed oneShape := by
  refine ⟨(snapshot_exact.1 oneShape oneShape_fits).1.1, ?_, ?_⟩
  · exact (snapshot_exact.1 oneShape oneShape_fits).2.2 [0] (List.cons_ne_nil 0 [])
  · apply snapshot_exact.2.2.1 oneShape
    intro set hs
    rw [List.mem_singleton.1 hs]
    exact List.nodup_singleton 7

/-! ## A kept snapshot -/

/-- What was kept is found for as long as the store stands where it was built, and not after. -/
theorem loadCached_save {stats : Statistics} (h : stats.Fits) {built now : Nat} {bytes : List UInt8}
    (hsave : stats.save built = some bytes) :
    loadCached (.ok (some bytes)) now .default = some (.ok (if now = built then some stats.rebuilt else none)) := by
  unfold Statistics.save at hsave
  by_cases hb : built = stats.generation
  · rw [if_neg (not_not.2 hb)] at hsave
    obtain rfl := Option.some.inj hsave
    have hread : Statistics.fromBytes stats.toBytes = some (some stats.rebuilt) := whole_reads (reads_toBytes h)
    unfold loadCached
    dsimp only
    rw [hread, Option.map_some, hb, Option.filter_some, (rebuilt_agrees stats).generation]
    by_cases hn : now = stats.generation
    · rw [if_pos hn, if_pos (beq_iff_eq.2 hn.symm)]
    · rw [if_neg hn, if_neg (fun e => hn (beq_iff_eq.1 e).symm)]
  · rw [if_pos hb] at hsave
    cases hsave

end Holos.Stats
