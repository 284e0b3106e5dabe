import Holos.Store.DictSort
import Holos.Store.BulkDictionary
/-!
# The merged stream

However the rows of a family were cut into runs, the merge gives out each key that was pushed once, in
order, with what the window's file has for it: its values combined in the order they were pushed.
-/

namespace Holos.DictSort

open Lib
open Lib.FileMerge (Left Reads)
open Lib.Keyed (keyCmp keyCmp_consistent onePass onePassFrom)
open Lib.Bytes (ofLe ofLe_le length_le)
open Codec (ID key putId)

/-! ## What was written is read -/

theorem length32_eq {n m : Nat} {longer : String} (h : length32 n longer = .ok m) : m = n ∧ n < 2 ^ 32 := by
  unfold length32 at h
  split at h
  · cases h
    exact ⟨rfl, ‹_›⟩
  · cases h

/-- A row is written as its lengths and its bytes, or refused for a length. -/
theorem writeRow_cases (row : Row) :
    (row.1.length < 2 ^ 32 ∧ row.2.length < 2 ^ 32 ∧
      writeRow row = .ok (Bytes.le 4 row.1.length ++ (Bytes.le 4 row.2.length ++ (row.1 ++ row.2)))) ∨
    (2 ^ 32 ≤ row.1.length ∨ 2 ^ 32 ≤ row.2.length) ∧ ∃ longer, writeRow row = .error (.corruption longer) := by
  unfold writeRow length32
  by_cases hkey : row.1.length < 2 ^ 32
  · by_cases hvalue : row.2.length < 2 ^ 32
    · rw [if_pos hkey, if_pos hvalue]
      exact .inl ⟨hkey, hvalue, rfl⟩
    · rw [if_pos hkey, if_neg hvalue]
      exact .inr ⟨.inr (Nat.le_of_not_lt hvalue), _, rfl⟩
  · rw [if_neg hkey]
    exact .inr ⟨.inl (Nat.le_of_not_lt hkey), _, rfl⟩

theorem next_writeRow {row : Row} {written : List UInt8} (h : writeRow row = .ok written) (rest : List UInt8) :
    RunReader.next (written ++ rest) = .ok (some row, rest) := by
  rcases writeRow_cases row with ⟨hkey, hvalue, hok⟩ | ⟨_, longer, herr⟩
  · rw [hok] at h
    cases h
    have hlen := length_le 4 row.1.length
    have hlen' := length_le 4 row.2.length
    have hkeyLen : ofLe (Bytes.le 4 row.1.length) = row.1.length := @ofLe_le 4 _ hkey
    have hvalueLen : ofLe (Bytes.le 4 row.2.length) = row.2.length := @ofLe_le 4 _ hvalue
    have hfile : Bytes.le 4 row.1.length ++ (Bytes.le 4 row.2.length ++ (row.1 ++ row.2)) ++ rest =
        Bytes.le 4 row.1.length ++ (Bytes.le 4 row.2.length ++ (row.1 ++ (row.2 ++ rest))) := by
      simp only [List.append_assoc]
    have hdrop : (Bytes.le 4 row.1.length ++ (Bytes.le 4 row.2.length ++ (row.1 ++ (row.2 ++ rest)))).drop 4 =
        Bytes.le 4 row.2.length ++ (row.1 ++ (row.2 ++ rest)) := List.drop_left' hlen
    have hrest : (Bytes.le 4 row.1.length ++ (Bytes.le 4 row.2.length ++ (row.1 ++ (row.2 ++ rest)))).drop 8 = row.1 ++ (row.2 ++ rest) := by
      rw [show 8 = 4 + 4 from rfl, ← List.drop_drop, hdrop, List.drop_left' hlen']
    have hlong : ¬(Bytes.le 4 row.1.length ++ (Bytes.le 4 row.2.length ++ (row.1 ++ (row.2 ++ rest)))).length < 8 := by
      rw [List.length_append, List.length_append, hlen, hlen']
      omega
    have hwhole : ¬(row.1 ++ (row.2 ++ rest)).length < row.1.length + row.2.length := by
      rw [List.length_append, List.length_append]
      omega
    unfold RunReader.next
    rw [hfile, if_neg hlong, hdrop, hrest, List.take_left' hlen, List.take_left' hlen', hkeyLen, hvalueLen]
    dsimp only
    rw [if_neg hwhole, List.take_left, List.drop_left, List.take_left, ← List.drop_drop, List.drop_left, List.drop_left]
  · rw [herr] at h
    cases h

/-- A run file that was written from rows. -/
def Holds (file : List UInt8) (run : List Row) : Prop := (run.mapM writeRow).map List.flatten = .ok file

theorem next_reads : Reads RunReader.next Holds := by
  intro file run hfile
  cases run with
  | nil =>
    cases hfile
    exact ⟨[], rfl, rfl⟩
  | cons row run =>
    unfold Holds at hfile
    rw [List.mapM_cons] at hfile
    cases hrow : writeRow row with
    | error e =>
      rw [hrow] at hfile
      cases hfile
    | ok written =>
      cases hrest : run.mapM writeRow with
      | error e =>
        rw [hrow, hrest] at hfile
        cases hfile
      | ok more =>
        rw [hrow, hrest] at hfile
        cases hfile
        refine ⟨more.flatten, next_writeRow hrow _, ?_⟩
        unfold Holds
        rw [List.tail_cons, hrest]
        rfl

/-- Rows are written unless one is refused. -/
theorem mapM_writeRow (rows : List Row) :
    (∃ written, rows.mapM writeRow = .ok written) ∨
    ∃ longer, rows.mapM writeRow = .error (.corruption longer) ∧ ∃ row ∈ rows, 2 ^ 32 ≤ row.1.length ∨ 2 ^ 32 ≤ row.2.length := by
  induction rows with
  | nil => exact .inl ⟨[], rfl⟩
  | cons row rows ih =>
    rw [List.mapM_cons]
    rcases writeRow_cases row with ⟨_, _, hok⟩ | ⟨hlong, longer, herr⟩
    · rw [hok]
      rcases ih with ⟨written, hrest⟩ | ⟨longer, hrest, row', hmem, hlong⟩
      · rw [hrest]
        exact .inl ⟨_, rfl⟩
      · rw [hrest]
        exact .inr ⟨longer, rfl, row', List.mem_cons_of_mem _ hmem, hlong⟩
    · rw [herr]
      exact .inr ⟨longer, rfl, row, List.mem_cons_self, hlong⟩

/-! ## One pass -/

/-- What is left is rows in the order of their keys. -/
abbrev Rest (merged : Merged) (left : List Row) : Prop := Left Holds keyCmp (fun _ => True) merged left

/-- The rows that share the key are taken, and the first one of another key is left. -/
theorem gather_rest {merged : Merged} {left : List Row} {turns : Nat} (h : Rest merged left) (hturns : left.length < turns)
    (key value : List UInt8) :
    ∃ combined merged' left', Merged.gather key turns value merged = some (.ok (combined, merged')) ∧ Rest merged' left' ∧
      left'.length ≤ left.length ∧ onePassFrom combine key value left = (key, combined) :: onePass combine left' := by
  induction turns generalizing merged left value with
  | zero => exact absurd hturns (Nat.not_lt_zero _)
  | succ turns ih =>
    cases left with
    | nil =>
      refine ⟨value, merged, [], ?_, h, Nat.le_refl _, rfl⟩
      rw [Merged.gather, h.heap_nil (keyCmp_consistent _)]
    | cons row left =>
      obtain ⟨source, heap, hheap, merged', hadvance, hrest⟩ := h.heap_cons (keyCmp_consistent _) next_reads
      rw [Merged.gather, hheap, onePassFrom]
      by_cases hsame : row.1 = key
      · obtain ⟨combined, merged'', left', hgather, hrest', hlen, hpass⟩ := ih hrest (Nat.lt_of_succ_lt_succ hturns) (combine key value row.2)
        refine ⟨combined, merged'', left', ?_, hrest', hlen.trans (Nat.le_succ _), ?_⟩
        · dsimp only
          rw [if_neg (not_not.2 hsame), Merged.advance, hadvance]
          exact hgather
        · rw [if_pos hsame, hpass]
      · exact ⟨value, merged, row :: left, if_pos hsame, h, Nat.le_refl _, if_neg hsame⟩

/-- What comes out is one pass over what is left. -/
theorem drain_rest {merged : Merged} {left : List Row} {turns : Nat} (h : Rest merged left) (hturns : left.length < turns) :
    merged.drain turns = some (.ok (onePass combine left)) := by
  induction turns generalizing merged left with
  | zero => exact absurd hturns (Nat.not_lt_zero _)
  | succ turns ih =>
    cases left with
    | nil =>
      rw [Merged.drain, Merged.next, h.heap_nil (keyCmp_consistent _)]
      rfl
    | cons row left =>
      obtain ⟨source, heap, hheap, merged', hadvance, hrest⟩ := h.heap_cons (keyCmp_consistent _) next_reads
      have hleft : left.length < turns := Nat.lt_of_succ_lt_succ hturns
      obtain ⟨combined, merged'', left', hgather, hrest', hlen, hpass⟩ := gather_rest hrest hleft row.1 row.2
      have hnext : Merged.next turns merged = some (.ok (some ((row.1, combined), merged''))) := by
        rw [Merged.next, hheap]
        dsimp only
        rw [Merged.advance, hadvance]
        dsimp only
        rw [hgather]
        rfl
      rw [Merged.drain, hnext]
      dsimp only
      rw [ih hrest' (Nat.lt_of_le_of_lt hlen hleft), onePass, hpass]
      rfl

/-! ## The window -/

/-- The window that was pushed the same rows. -/
abbrev Window := Holos.DictRuns (List UInt8) (List UInt8)

def Window.push (window : Window) (budget : Nat) (row : Row) : Window :=
  Holos.DictRuns.push window budget (row.1.length + row.2.length + 8) row.1 row.2

def Window.pushAll (window : Window) (budget : Nat) (rows : List Row) : Window :=
  rows.foldl (fun window row => window.push budget row) window

/-- Runs that hold the rows of a window: the pieces that were cut off and written, and the buffer. -/
structure Cut (runs : DictRuns) (pieces : List (List Row)) (window : Window) : Prop where
  files : List.Forall₂ Holds runs.files (pieces.map (fun piece => piece.mergeSort (StableSort.le keyCmp)))
  rows : pieces.flatten ++ runs.buffer = window.rows
  bytes : runs.bytes = window.bytes
  spilled : (!runs.files.isEmpty) = window.spilled

theorem cut_new (budget : Nat) : Cut (.new budget) [] .new := ⟨.nil, rfl, rfl, rfl⟩

variable {runs : DictRuns} {pieces : List (List Row)} {window : Window}

/-- Runs are at their budget when the window is. -/
theorem Cut.atBudget (h : Cut runs pieces window) : runs.atBudget = Holos.DictRuns.atBudget window runs.budget := by
  rw [DictRuns.atBudget, h.spilled, h.bytes]
  rfl

/-- A row that is too long to be written. -/
def TooLong (row : Row) : Prop := 2 ^ 32 ≤ row.1.length ∨ 2 ^ 32 ≤ row.2.length

/-- Pushing a row does to the runs what it does to the window, unless a row cannot be written. -/
theorem Cut.push (h : Cut runs pieces window) (row : Row) :
    (∃ longer, runs.push row = .error (.corruption longer) ∧ ∃ row' ∈ window.rows ++ [row], TooLong row') ∨
    ∃ runs' pieces', runs.push row = .ok runs' ∧ runs'.budget = runs.budget ∧ Cut runs' pieces' (window.push runs.budget row) := by
  have hrows : pieces.flatten ++ (runs.buffer ++ [row]) = window.rows ++ [row] := by rw [← List.append_assoc, h.rows]
  unfold DictRuns.push Window.push Holos.DictRuns.push
  dsimp only
  rw [← h.bytes]
  by_cases hfull : runs.bytes + (row.1.length + row.2.length + 8) ≥ runs.budget
  · rw [if_pos hfull, if_pos hfull, DictRuns.spill, if_neg (by simp)]
    rcases mapM_writeRow ((runs.buffer ++ [row]).mergeSort (StableSort.le keyCmp)) with ⟨written, hok⟩ | ⟨longer, herr, row', hmem, hlong⟩
    · refine .inr ⟨_, pieces ++ [runs.buffer ++ [row]], congrArg (Except.map _) hok, rfl, ?_, ?_, rfl, by simp⟩
      · have hlast : Holds written.flatten ((runs.buffer ++ [row]).mergeSort (StableSort.le keyCmp)) := by
          unfold Holds
          rw [hok]
          rfl
        rw [List.map_append]
        exact List.rel_append h.files (.cons hlast .nil)
      · rw [List.flatten_append, List.flatten_singleton, List.append_nil]
        exact hrows
    · refine .inl ⟨longer, congrArg (Except.map _) herr, row', ?_, hlong⟩
      rw [← hrows]
      exact List.mem_append_right _ (List.mem_mergeSort.1 hmem)
  · rw [if_neg hfull, if_neg hfull]
    exact .inr ⟨_, pieces, rfl, rfl, h.files, hrows, rfl, h.spilled⟩

theorem window_rows (window : Window) (budget : Nat) (rows : List Row) :
    (window.pushAll budget rows).rows = window.rows ++ rows := by
  unfold Window.pushAll
  induction rows generalizing window with
  | nil => exact (List.append_nil _).symm
  | cons row rows ih =>
    have hpush : (window.push budget row).rows = window.rows ++ [row] := by
      unfold Window.push Holos.DictRuns.push
      dsimp only
      split <;> rfl
    rw [List.foldl_cons, ih, hpush, List.append_assoc]
    rfl

/-- The same for a run of pushes. -/
theorem Cut.pushAll (h : Cut runs pieces window) (rows : List Row) :
    (∃ longer, rows.foldlM DictRuns.push runs = .error (.corruption longer) ∧ ∃ row ∈ window.rows ++ rows, TooLong row) ∨
    ∃ runs' pieces', rows.foldlM DictRuns.push runs = .ok runs' ∧
      Cut runs' pieces' (window.pushAll runs.budget rows) := by
  induction rows generalizing runs pieces window with
  | nil => exact .inr ⟨runs, pieces, rfl, h⟩
  | cons row rows ih =>
    rw [List.foldlM_cons]
    rcases h.push row with ⟨longer, herr, row', hmem, hlong⟩ | ⟨runs', pieces', hok, hbudget, hcut⟩
    · refine .inl ⟨longer, by rw [herr]; rfl, row', ?_, hlong⟩
      rcases List.mem_append.1 hmem with hmem | hmem
      · exact List.mem_append_left _ hmem
      · exact List.mem_append_right _ (List.mem_singleton.1 hmem ▸ List.mem_cons_self)
    · have hrest := ih hcut
      have hpushed : (window.push runs.budget row).rows = window.rows ++ [row] := window_rows window runs.budget [row]
      rw [hbudget, hpushed, List.append_assoc, List.singleton_append] at hrest
      rw [hok]
      exact hrest

/-- However they were cut, the runs merge into the rows of the window's file: each key once, in order. -/
theorem Cut.merge (h : Cut runs pieces window) :
    ∃ merged out, runs.merge = .ok merged ∧ (∀ turns, window.rows.length < turns → merged.drain turns = some (.ok out)) ∧
      (out.map (·.1)).Pairwise (· < ·) ∧ ∀ key value, (key, value) ∈ out ↔ Holos.DictRuns.merge combine window key = some value := by
  obtain ⟨merged, hmerge, hleft⟩ := FileMerge.left_start (keyCmp_consistent (fun _ => True)) next_reads h.files
    (show ∀ run ∈ _ ++ [runs.sorted], ∀ a ∈ run, True from fun _ _ _ _ => trivial)
  have hpieces : pieces.map (fun piece => piece.mergeSort (StableSort.le keyCmp)) ++ [runs.sorted] =
      (pieces ++ [runs.buffer]).map (fun piece => piece.mergeSort (StableSort.le keyCmp)) := by
    rw [List.map_append]
    rfl
  have hrows : (pieces ++ [runs.buffer]).flatten = window.rows := by
    rw [List.flatten_append, List.flatten_singleton, h.rows]
  rw [hpieces, StableSort.mergeAll_mergeSort (keyCmp_consistent (fun _ => True)) (fun _ _ => trivial), hrows] at hleft
  obtain ⟨hkeys, hmem⟩ := @Keyed.onePass_spec _ _ _ _ combine _ (Keyed.mergeSort_keys window.rows)
  refine ⟨merged, onePass combine (window.rows.mergeSort (StableSort.le keyCmp)), hmerge, fun turns hturns => ?_, hkeys, fun key value => ?_⟩
  · apply drain_rest hleft
    rwa [List.length_mergeSort]
  · have hfile : Holos.DictRuns.merge combine window = Keyed.combined combine window.rows := Keyed.foldl_update window.rows
    rw [hmem, Keyed.combined_mergeSort, hfile]

/-! ## Candidate lists -/

theorem chunks_append {width : Nat} {x : List UInt8} (hx : x.length = width) (hpos : 0 < width) (rest : List UInt8) :
    chunks width (x ++ rest) = x :: chunks width rest := by
  have hcount : ((x ++ rest).length + width - 1) / width = (rest.length + width - 1) / width + 1 := by
    rw [List.length_append, hx, ← Nat.add_div_left _ hpos]
    congr 1
    omega
  unfold chunks
  rw [hcount, List.range_succ_eq_map, List.map_cons, List.map_map, Nat.zero_mul, List.drop_zero, List.take_left' hx]
  refine congrArg _ (List.map_congr_left fun i _ => ?_)
  have hskip : i.succ * width = x.length + i * width := by rw [Nat.succ_mul, hx, Nat.add_comm]
  rw [Function.comp_apply, hskip, ← List.drop_drop, List.drop_left]

/-- A candidate list reads as its ids. -/
theorem chunks_key (ids : List TermId) : chunks ID (key ids) = ids.map putId := by
  induction ids with
  | nil => rfl
  | cons id ids ih =>
    have hlen : (putId id).length = ID := Bytes.length_be _ _
    change chunks ID (putId id ++ key ids) = _
    rw [chunks_append hlen (by decide), ih, List.map_cons]

theorem putId_inj : Function.Injective putId := by
  intro a b h
  apply Fin.ext
  rw [← Bytes.ofBe_be (Codec.id_lt a), ← Bytes.ofBe_be (Codec.id_lt b)]
  exact congrArg Bytes.ofBe h

theorem key_append (ids more : List TermId) : key (ids ++ more) = key ids ++ key more := List.flatMap_append

/-- Candidate lists are combined as the lists of ids they are. -/
theorem combine_key {dictKey : List UInt8} (hhashed : dictKey.head? = some KEY_HASHED) (d : Hash) (first second : List TermId) :
    combine dictKey (key first) (key second) = key (Holos.combine (.hashed d) first second) := by
  rw [combine, if_pos hhashed, chunks_key, Holos.combine]
  induction second generalizing first with
  | nil => rfl
  | cons id second ih =>
    have hread : putId id ∈ chunks ID (key first) ↔ id ∈ first := by
      rw [chunks_key]
      exact List.mem_map_of_injective putId_inj
    rw [List.map_cons, List.foldl_cons, List.foldl_cons, ← ih]
    by_cases hseen : id ∈ first
    · rw [if_pos (hread.2 hseen), if_pos hseen]
    · rw [if_neg (mt hread.1 hseen), if_neg hseen, key_append]
      simp [key]

/-- The first list is kept, and each id of the later ones that is not in it comes once after it. -/
theorem combine_hashed (d : Hash) (first : List TermId) (later : List (List TermId)) :
    ∃ extra, later.foldl (Holos.combine (.hashed d)) first = first ++ extra ∧ extra.Nodup ∧
      ∀ id, id ∈ extra ↔ id ∉ first ∧ ∃ ids ∈ later, id ∈ ids := by
  have hflat : later.foldl (Holos.combine (.hashed d)) first =
      later.flatten.foldl (fun out id => if id ∈ out then out else out ++ [id]) first := by
    rw [List.foldl_flatten]
    rfl
  rw [hflat]
  simp only [← List.mem_flatten]
  induction later.flatten using List.reverseRecOn with
  | nil => exact ⟨[], (List.append_nil _).symm, List.nodup_nil, by simp⟩
  | append_singleton ids id ih =>
    obtain ⟨extra, hfold, hnodup, hmem⟩ := ih
    rw [List.foldl_append, hfold, List.foldl_cons, List.foldl_nil]
    by_cases hseen : id ∈ first ++ extra
    · rw [if_pos hseen]
      refine ⟨extra, rfl, hnodup, fun i => ?_⟩
      rw [hmem, List.mem_append, List.mem_singleton]
      refine and_congr_right fun hnot => ⟨.inl, ?_⟩
      rintro (hi | rfl)
      · exact hi
      · exact ((hmem i).1 ((List.mem_append.1 hseen).resolve_left hnot)).2
    · rw [if_neg hseen, List.append_assoc]
      rw [List.mem_append, not_or] at hseen
      refine ⟨extra ++ [id], rfl, ?_, fun i => ?_⟩
      · rw [List.nodup_append_comm, List.singleton_append, List.nodup_cons]
        exact ⟨hseen.2, hnodup⟩
      · rw [List.mem_append, List.mem_append, List.mem_singleton, hmem]
        constructor
        · rintro (⟨hnot, hi⟩ | rfl)
          · exact ⟨hnot, .inl hi⟩
          · exact ⟨hseen.1, .inr rfl⟩
        · rintro ⟨hnot, hi | rfl⟩
          · exact .inl ⟨hnot, hi⟩
          · exact .inr rfl

theorem foldl_combine_key {dictKey : List UInt8} (hhashed : dictKey.head? = some KEY_HASHED) (d : Hash) (first : List TermId)
    (later : List (List TermId)) :
    (later.map key).foldl (combine dictKey) (key first) = key (later.foldl (Holos.combine (.hashed d)) first) := by
  induction later generalizing first with
  | nil => rfl
  | cons ids later ih => rw [List.map_cons, List.foldl_cons, List.foldl_cons, combine_key hhashed d, ih]

theorem foldl_combine_exact {dictKey : List UInt8} (hexact : dictKey.head? ≠ some KEY_HASHED) (first : List UInt8) (later : List (List UInt8)) :
    some (later.foldl (combine dictKey) first) = (first :: later).getLast? := by
  induction later generalizing first with
  | nil => rfl
  | cons second later ih =>
    rw [List.foldl_cons, combine, if_neg hexact, ih, List.getLast?_cons_cons]

/-! ## The stream -/

/-- However rows are cut into runs, the stream has the keys that were pushed, each once and in order, an exact key with
the value that was pushed last and a hashed key with the first list and, once each, the ids of the later lists that the
first is without; unless a row was too long to be written. -/
theorem merged_stream (rows : List Row) (budget : Nat) :
    (∃ longer, rows.foldlM DictRuns.push (.new budget) = .error (.corruption longer) ∧ ∃ row ∈ rows, TooLong row) ∨
    ∃ runs merged out, rows.foldlM DictRuns.push (.new budget) = .ok runs ∧ runs.merge = .ok merged ∧
      (∀ turns, rows.length < turns → merged.drain turns = some (.ok out)) ∧
      (out.map (·.1)).Pairwise (· < ·) ∧
      (∀ dictKey, dictKey ∈ out.map (·.1) ↔ dictKey ∈ rows.map (·.1)) ∧
      (∀ dictKey value, dictKey.head? ≠ some KEY_HASHED →
        ((dictKey, value) ∈ out ↔ (Keyed.values rows dictKey).getLast? = some value)) ∧
      ∀ dictKey first later, dictKey.head? = some KEY_HASHED → Keyed.values rows dictKey = (first :: later).map key →
        ∃ extra, (dictKey, key (first ++ extra)) ∈ out ∧ extra.Nodup ∧ ∀ id, id ∈ extra ↔ id ∉ first ∧ ∃ ids ∈ later, id ∈ ids := by
  rcases (cut_new budget).pushAll rows with ⟨longer, herr, hlong⟩ | ⟨runs, pieces, hok, hcut⟩
  · exact .inl ⟨longer, herr, hlong⟩
  · have hrows : (Window.pushAll .new budget rows).rows = rows := window_rows .new budget rows
    obtain ⟨merged, out, hmerge, hdrain, hkeys, hmem⟩ := hcut.merge
    have hfile : Holos.DictRuns.merge combine (Window.pushAll .new budget rows) = Keyed.combined combine rows :=
      (Keyed.foldl_update _).trans (congrArg _ hrows)
    change ∀ turns, (Window.pushAll .new budget rows).rows.length < turns → _ at hdrain
    rw [hrows] at hdrain
    change ∀ dictKey value, (dictKey, value) ∈ out ↔ Holos.DictRuns.merge combine (Window.pushAll .new budget rows) dictKey = some value at hmem
    rw [hfile] at hmem
    refine .inr ⟨runs, merged, out, hok, hmerge, hdrain, hkeys, fun dictKey => ?_, fun dictKey value hexact => ?_,
      fun dictKey first later hhashed hvalues => ?_⟩
    · rw [← @Keyed.combined_isSome _ _ _ combine rows, List.mem_map]
      constructor
      · rintro ⟨⟨_, value⟩, hin, rfl⟩
        exact ⟨value, (hmem _ _).1 hin⟩
      · rintro ⟨value, hin⟩
        exact ⟨(dictKey, value), (hmem _ _).2 hin, rfl⟩
    · rw [hmem, Keyed.combined]
      cases Keyed.values rows dictKey with
      | nil => simp
      | cons first later => rw [← foldl_combine_exact hexact first later]
    · obtain ⟨extra, hfold, hnodup, hextra⟩ := combine_hashed 0 first later
      refine ⟨extra, ?_, hnodup, hextra⟩
      rw [hmem, Keyed.combined, hvalues, List.map_cons]
      dsimp only
      rw [foldl_combine_key hhashed 0, hfold]

/-- A list that has an id twice keeps it twice. -/
theorem candidate_twice :
    ¬∀ (rows : List Row) (budget : Nat) runs merged out turns, rows.foldlM DictRuns.push (.new budget) = .ok runs → runs.merge = .ok merged →
      merged.drain turns = some (.ok out) → ∀ dictKey (lists : List (List TermId)) (ids : List TermId), dictKey.head? = some KEY_HASHED →
        Keyed.values rows dictKey = lists.map key → (dictKey, key ids) ∈ out → ids.Nodup := by
  intro h
  have hpush : [([KEY_HASHED], key [7, 7])].foldlM DictRuns.push (.new 100) = .ok ⟨[], [([KEY_HASHED], key [7, 7])], 25, 100⟩ := rfl
  have hsorted : (⟨[], [([KEY_HASHED], key [7, 7])], 25, 100⟩ : DictRuns).sorted = [([KEY_HASHED], key [7, 7])] := List.mergeSort_singleton _
  have hmerge : (⟨[], [([KEY_HASHED], key [7, 7])], 25, 100⟩ : DictRuns).merge =
      .ok ⟨[([KEY_HASHED], key [7, 7])], [], [(([KEY_HASHED], key [7, 7]), 0)], 0⟩ := by
    rw [DictRuns.merge, hsorted]
    rfl
  have hnodup := h _ 100 _ _ [([KEY_HASHED], key [7, 7])] 2 hpush hmerge rfl [KEY_HASHED] [[7, 7]] [7, 7] rfl rfl List.mem_cons_self
  exact absurd hnodup (by decide)

end Holos.DictSort
