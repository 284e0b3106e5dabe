import Holos.Store.RocksScope
/-!
# When the database does not take a write

`disk` is what the database answers to a write it is given; an empty batch is not given to it.
Counters and the scope's batch move before the write is tried, so a failed write has moved them,
and a failed commit puts back all of them but the generation.
-/

namespace Holos.RocksStorage

open Lib

variable {hash128 : StoredTerm → Hash} {X : Inline.Datatypes} {r r' : RocksStorage}

/-! ## Writes that can fail -/

/-- Turns buffered operations into one batch and writes it. -/
def writePending (disk : Except StorageError Unit) (r : RocksStorage) (pending : List Pending) :
    Except StorageError Unit × RocksStorage :=
  if pending.isEmpty then (.ok (), r)
  else match disk with
    | .ok () => (.ok (), { r with db := r.db.write pending })
    | .error e => (.error e, r)

/-- Applies a group of writes atomically, or buffers them in the open scope. -/
def commitOpsOn (disk : Except StorageError Unit) (r : RocksStorage) (ops : List Pending) :
    Except StorageError Unit × RocksStorage :=
  match r.scope with
  | some _ => r.commitOps ops
  | none => r.writePending disk ops

def insertEncodedOn (disk : Except StorageError Unit) (r : RocksStorage) (quad : EncodedQuad) :
    Except StorageError Bool × RocksStorage :=
  if r.containsEncoded quad then (.ok false, r)
  else
    let r := { r with
      quadCount := r.quadCount + 1
      generation := r.generation + 1
      predicateCounts := r.predicateCounts.increment quad.predicate }
    let ops := putRows quad ++ [.putDefault .quads r.quadCount, .putDefault .generation r.generation,
      .putStats quad.predicate (r.predicateCounts.count quad.predicate)]
    match r.commitOpsOn disk ops with
    | (.error e, r) => (.error e, r)
    | (.ok (), r) =>
      let r := r.noteQuad quad true false
      let r := match quad.graphName with
        | some g => r.noteGraph g true
        | none => r
      (.ok true, r)

def removeEncodedOn (disk : Except StorageError Unit) (r : RocksStorage) (quad : EncodedQuad) :
    Except StorageError Bool × RocksStorage :=
  if r.containsEncoded quad then
    let stats := statsRow r.predicateCounts quad.predicate
    let r := { r with
      quadCount := r.quadCount - 1
      generation := r.generation + 1
      predicateCounts := r.predicateCounts.decrement quad.predicate }
    let ops := deleteRows quad ++ [.putDefault .quads r.quadCount, .putDefault .generation r.generation] ++ stats
    match r.commitOpsOn disk ops with
    | (.error e, r) => (.error e, r)
    | (.ok (), r) => (.ok true, r.noteQuad quad false true)
  else (.ok false, r)

/-- One batch, one write. If it fails the counters the scope moved go back, the generation apart. -/
def commitOn (disk : Except StorageError Unit) (r : RocksStorage) : Except StorageError Unit × RocksStorage :=
  match r.scope with
  | none => (.error Storage.notOpen, r)
  | some scope =>
    match { r with scope := none }.writePending disk scope.pending with
    | (.ok (), r) => (.ok (), r)
    | (.error e, r) => (.error e, { r with quadCount := scope.quadCount, predicateCounts := scope.predicateCounts })

/-! ## A database that takes every write -/

theorem writePending_ok (r : RocksStorage) (pending : List Pending) :
    r.writePending (.ok ()) pending = (.ok (), { r with db := r.db.write pending }) := by
  unfold writePending
  split
  · rename_i hempty
    rw [List.isEmpty_iff.1 hempty]
    rfl
  · rfl

theorem commitOpsOn_ok (r : RocksStorage) (ops : List Pending) : r.commitOpsOn (.ok ()) ops = r.commitOps ops := by
  unfold commitOpsOn
  cases hs : r.scope with
  | some s => rfl
  | none =>
    simp only
    rw [writePending_ok]
    simp only [commitOps, hs]

theorem insertEncodedOn_ok (r : RocksStorage) (q : EncodedQuad) : r.insertEncodedOn (.ok ()) q = r.insertEncoded q := by
  unfold insertEncodedOn insertEncoded
  simp only [commitOpsOn_ok] <;> rfl

theorem removeEncodedOn_ok (r : RocksStorage) (q : EncodedQuad) : r.removeEncodedOn (.ok ()) q = r.removeEncoded q := by
  unfold removeEncodedOn removeEncoded
  simp only [commitOpsOn_ok] <;> rfl

theorem commitOn_ok {s : ScopeState} (hs : r.scope = some s) : r.commit = .ok (r.commitOn (.ok ())).2 := by
  unfold commit commitOn
  rw [hs]
  simp only [writePending_ok]

/-! ## A commit that fails -/

/-- What a failed commit leaves: the database and the scope's saved counters, with the generation
as the scope had moved it. -/
theorem commitOn_error {e : StorageError} {s : ScopeState} (hs : r.scope = some s) {disk : Except StorageError Unit}
    (h : r.commitOn disk = (.error e, r')) : r' = { r.rollback with generation := r.generation } := by
  unfold commitOn writePending at h
  rw [hs] at h
  simp only at h
  split at h
  · rename_i hok
    split at hok
    · cases h
    · split at hok
      · cases h
      · cases hok
  · rename_i e' r₁ herr
    split at herr
    · cases herr
    · split at herr
      · cases herr
      · cases herr
        cases h
        unfold rollback
        rw [hs]

/-- A commit that fails leaves what the scope was opened on, but for the generation, which stays
where the writes of the scope had moved it: so it leaves what a rollback would leave if and only
if they had not moved it. -/
theorem failed_commit {r₀ r₁ : RocksStorage} {ws : List Storage.Op} {replies : List Storage.Reply} (hbegin : r₀.begin = .ok r₁)
    (hws : ∀ op ∈ ws, op.isWrite = true) (hrun : r₁.run hash128 X ws = some (replies, r)) {disk : Except StorageError Unit}
    {e : StorageError} (h : r.commitOn disk = (.error e, r')) :
    (r'.scope = none ∧ r'.len = r₀.len ∧ r'.predicateCount = r₀.predicateCount ∧ r'.scan = r₀.scan ∧
      r'.quadsWithObjectIn = r₀.quadsWithObjectIn ∧ r'.containsEncoded = r₀.containsEncoded ∧ r'.namedGraphs = r₀.namedGraphs) ∧
    (r' = r.rollback ↔ r.generation = r₀.generation) := by
  obtain ⟨hnone, hopen, -, -⟩ := begin_ok hbegin
  obtain ⟨s, hs⟩ := Option.isSome_iff_exists.1 (run_keeps hws hrun hopen).1
  have hback : r.rollback = { r₀ with next := r.next } := (abandoned_eq hbegin hws hrun).1
  have hleft : r' = { r₀ with next := r.next, generation := r.generation } := by
    rw [commitOn_error hs h, hback]
  -- no read looks at the counters of ids or at the generation
  have hreads : ∀ s p o graph, r'.scan s p o graph = r₀.scan s p o graph := by
    intro s p o graph
    rw [hleft]
    cases graph <;> rfl
  refine ⟨⟨?_, ?_, ?_, ?_, ?_, ?_, ?_⟩, ?_⟩
  · rw [hleft]
    exact hnone
  · rw [hleft]
    rfl
  · rw [hleft]
    rfl
  · funext s p o graph
    exact hreads s p o graph
  · funext s p span graph
    unfold quadsWithObjectIn
    rw [hleft]
    simp only [hnone]
  · rw [hleft]
    rfl
  · rw [hleft]
    rfl
  · rw [hleft, hback]
    constructor
    · intro heq
      have hgen := congrArg RocksStorage.generation heq
      exact hgen
    · intro hgen
      rw [hgen]

/-- A full disk. -/
def noSpace : Except StorageError Unit := .error (.io "no space left on device")

/-- The store after one quad was put in a scope of a new storage and the commit failed, and the store
a rollback leaves instead. -/
def failedCommit : Option (RocksStorage × RocksStorage) := do
  let r₁ ← new.begin.toOption
  let (_, r) ← r₁.run (fun _ => 0) Dictionary.bare [.write (.insert ⟨0, 1, 2, none⟩)]
  return ((r.commitOn noSpace).2, r.rollback)

theorem failed_commit_keeps_generation :
    failedCommit.map (fun p => (p.1.generation, p.2.generation, p.1.len, p.2.len)) = some (1, 0, 0, 0) := by decide

/-- A scope that only made a graph. -/
theorem failed_commit_graph : ∃ r₁ replies r r' e, new.begin = .ok r₁ ∧
    r₁.run (fun _ => 0) Dictionary.bare [.write (.insertNamedGraph 3)] = some (replies, r) ∧ r.commitOn noSpace = (.error e, r') ∧
    r' = r.rollback := by
  refine ⟨_, _, _, _, _, rfl, rfl, rfl, ?_⟩
  exact (@failed_commit (fun _ => 0) Dictionary.bare _ _ new _ [.write (.insertNamedGraph 3)] _ rfl (by simp [Storage.Op.isWrite]) rfl
    noSpace _ rfl).2.2 rfl

/-! ## A write that fails -/

/-- What a caller can see of a storage, and the batch a later commit would write. -/
structure Unmoved (r r' : RocksStorage) : Prop where
  len : r'.len = r.len
  predicateCount : r'.predicateCount = r.predicateCount
  generation : r'.generation = r.generation
  containsEncoded : r'.containsEncoded = r.containsEncoded
  scan : r'.scan = r.scan
  pending : r'.scope.map ScopeState.pending = r.scope.map ScopeState.pending

/-- The counters are moved before the rows are handed over. -/
theorem commitOpsOn_generation {disk : Except StorageError Unit} {ops : List Pending} {res : Except StorageError Unit}
    (h : r.commitOpsOn disk ops = (res, r')) : r'.generation = r.generation := by
  unfold commitOpsOn at h
  split at h
  · exact (commitOps_landed h).2.2.2.1
  · unfold writePending at h
    split at h
    · cases h
      rfl
    · split at h
      · cases h
        rfl
      · cases h
        rfl

/-- Whether the database failed or the scope was full, a quad that could not be written was
counted: no failed write leaves the storage as it was. -/
theorem failed_write_moves (r : RocksStorage) (disk : Except StorageError Unit) (q : EncodedQuad) (e : StorageError) :
    ((r.insertEncodedOn disk q).1 = .error e → ¬Unmoved r (r.insertEncodedOn disk q).2) ∧
      ((r.removeEncodedOn disk q).1 = .error e → ¬Unmoved r (r.removeEncodedOn disk q).2) := by
  constructor
  · intro herr hun
    have hgen := hun.generation
    unfold insertEncodedOn at herr hgen
    split at herr
    · cases herr
    · rename_i hin
      rw [if_neg hin] at hgen
      simp only at herr hgen
      split at herr
      · rename_i e' r₁ hcommit
        rw [hcommit] at hgen
        have hsame := commitOpsOn_generation hcommit
        simp only at hgen hsame
        omega
      · cases herr
  · intro herr hun
    have hgen := hun.generation
    unfold removeEncodedOn at herr hgen
    split at herr
    · rename_i hin
      rw [if_pos hin] at hgen
      simp only at herr hgen
      split at herr
      · rename_i e' r₁ hcommit
        rw [hcommit] at hgen
        have hsame := commitOpsOn_generation hcommit
        simp only at hgen hsame
        omega
      · cases herr
    · cases herr

/-- A quad put into a new storage on a full disk, twice. -/
def retried : RocksStorage := ((new.insertEncodedOn noSpace ⟨0, 1, 2, none⟩).2.insertEncodedOn noSpace ⟨0, 1, 2, none⟩).2

theorem retried_counts_twice : (new.insertEncodedOn noSpace ⟨0, 1, 2, none⟩).1.isOk = false ∧ retried.len = 2 ∧
    retried.scan none none none .any = [] := by decide

theorem failed_write_moves_new : ¬Unmoved new (new.insertEncodedOn noSpace ⟨0, 1, 2, none⟩).2 :=
  (failed_write_moves new noSpace ⟨0, 1, 2, none⟩ _).1 rfl

end Holos.RocksStorage
