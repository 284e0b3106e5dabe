import Holos.Engine.Spill
import Holos.Engine.SpillRecords
import Holos.Engine.TopKTheorems
/-!
# `DISTINCT` gives out each row once

A merge of run files reads as the merge of the records in them, which gives out each record once. An
encoded row is told apart from every other, so these are the distinct rows, in memory or out of it:
unless what the runs take on disk exceeds the ceiling, which ends the query.
-/

namespace Holos.Engine.Spill

open Inline (utf8)

variable {F : TextForm}

/-! ## The merge -/

section Merging
variable {s : Spilled} {m m' : Lib.Merged Row} {k : Row}

/-- A merge of run files, and the merge of the records they have left. -/
structure Reads (s : Spilled) (m : Lib.Merged Row) : Prop where
  files : ∃ files : List (List Row), (∀ file ∈ files, ∀ row ∈ file, Short row) ∧ files.length = s.tail ∧
    s.sources = files.map (fun file => file.flatMap writeRow) ∧ m.sources = files ++ [s.buffer.drop (s.tailAt + 1)]
  heap : m.heap = s.heap
  last : m.last = s.last

/-- What was held is one more source. -/
theorem Reads.advance_tail (h : Reads s m) : ∃ s', s.advance s.tail = .ok s' ∧ Reads s' (m.refill s.tail) ∧ s'.width = s.width := by
  obtain ⟨files, hshort, hlen, hsources, hrecords⟩ := h.files
  have hget : m.sources[s.tail]? = some (s.buffer.drop (s.tailAt + 1)) := by
    rw [hrecords, ← hlen, List.getElem?_append_right (Nat.le_refl _), Nat.sub_self]
    rfl
  cases hnext : s.buffer[s.tailAt + 1]? with
  | none =>
    have hend := List.getElem?_eq_none_iff.1 hnext
    have hdrop : s.buffer.drop (s.tailAt + 1) = [] := List.drop_eq_nil_of_le hend
    have hsame : m.refill s.tail = m := by rw [Lib.Merged.refill, hget, hdrop]
    refine ⟨{ s with tailAt := s.tailAt + 1 }, ?_, ?_, rfl⟩
    · simp [Spilled.advance, hnext]
    · rw [hsame]
      refine ⟨⟨files, hshort, hlen, hsources, ?_⟩, h.heap, h.last⟩
      rw [hrecords, hdrop, List.drop_eq_nil_of_le (hend.trans (Nat.le_succ _))]
  | some row =>
    obtain ⟨hlt, hrow⟩ := List.getElem?_eq_some_iff.1 hnext
    have hdrop : s.buffer.drop (s.tailAt + 1) = row :: s.buffer.drop (s.tailAt + 1 + 1) := by
      rw [List.drop_eq_getElem_cons hlt, hrow]
    have hdraw : m.refill s.tail =
        { m with sources := m.sources.set s.tail (s.buffer.drop (s.tailAt + 1 + 1)), heap := toLex (row, s.tail) :: m.heap } := by
      rw [Lib.Merged.refill, hget, hdrop]
    refine ⟨{ s with tailAt := s.tailAt + 1, heap := toLex (row, s.tail) :: s.heap }, ?_, ?_, rfl⟩
    · simp [Spilled.advance, hnext]
    · rw [hdraw]
      refine ⟨⟨files, hshort, hlen, hsources, ?_⟩, congrArg _ h.heap, h.last⟩
      rw [hrecords, ← hlen, List.set_append_right _ _ (Nat.le_refl _), Nat.sub_self]
      rfl

theorem Reads.advance (h : Reads s m) (source : Nat) : ∃ s', s.advance source = .ok s' ∧ Reads s' (m.refill source) ∧ s'.width = s.width := by
  by_cases htail : source = s.tail
  · rw [htail]
    exact h.advance_tail
  · obtain ⟨files, hshort, hlen, hsources, hrecords⟩ := h.files
    rcases nextRecord_source hshort source with ⟨row, rest, hget, hread⟩ | ⟨hdry, hread, hset⟩
    · have hlt := (List.getElem?_eq_some_iff.1 hget).1
      have hdraw : m.refill source = { m with sources := m.sources.set source rest, heap := toLex (row, source) :: m.heap } := by
        rw [Lib.Merged.refill, hrecords, List.getElem?_append_left hlt, hget]
      refine ⟨{ s with sources := s.sources.set source (rest.flatMap writeRow), heap := toLex (row, source) :: s.heap }, ?_, ?_, rfl⟩
      · rw [Spilled.advance, if_neg htail, hsources, hread]
        rfl
      · rw [hdraw]
        refine ⟨⟨files.set source rest, ?_, by rw [List.length_set]; exact hlen, ?_, ?_⟩, congrArg _ h.heap, h.last⟩
        · exact short_set hshort hget
        · simp only [hsources, List.map_set]
        · simp only [hrecords, List.set_append_left _ _ hlt]
    · have hsame : m.refill source = m := by
        rw [Lib.Merged.refill]
        split
        · rename_i row rest hget
          rw [hrecords] at hget
          by_cases hlt : source < files.length
          · rw [List.getElem?_append_left hlt] at hget
            exact absurd hget (hdry row rest)
          · have := (List.getElem?_eq_some_iff.1 hget).1
            rw [List.length_append, List.length_singleton] at this
            omega
        · rfl
      refine ⟨{ s with sources := s.sources.set source [] }, ?_, ?_, rfl⟩
      · rw [Spilled.advance, if_neg htail, hsources, hread]
        rfl
      · rw [hsame]
        refine ⟨⟨files, hshort, hlen, ?_, hrecords⟩, h.heap, h.last⟩
        simp only [hsources, hset]

/-- Whichever way equality is decided. -/
theorem erase_eq {α : Type} (b₁ b₂ : BEq α) [@LawfulBEq α b₁] [@LawfulBEq α b₂] (xs : List α) (x : α) :
    @List.erase α b₁ xs x = @List.erase α b₂ xs x := by
  rw [lawful_beq_subsingleton b₁ b₂]

theorem Reads.turn_none (h : Reads s m) (hpop : m.pop = none) : s.turn F = .ok none := by
  have hheap : s.heap.min? = none := by
    rw [← h.heap]
    exact Option.map_eq_none_iff.1 hpop
  rw [Spilled.turn, hheap]

theorem Reads.turn_some (h : Reads s m) (hpop : m.pop = some (k, m')) :
    ∃ s', Reads s' m' ∧ s'.width = s.width ∧
      s.turn F = .ok (some (if m'.last = some k then (none, s') else (some (decode F k s.width), { s' with last := some k }))) := by
  have hlast := Lib.Merged.pop_last hpop
  obtain ⟨e, heap, he, hheap, rfl, rfl⟩ := Lib.Merged.pop_some hpop
  have herased : Reads { s with heap := s.heap.erase e } { m with heap := heap } := by
    refine ⟨h.files, ?_, h.last⟩
    rw [hheap, h.heap]
    exact erase_eq _ _ _ _
  obtain ⟨s', hadvance, hreads, hwidth⟩ := herased.advance (ofLex e).2
  refine ⟨s', hreads, hwidth, ?_⟩
  rw [h.heap] at he
  rw [hlast, h.last, Spilled.turn, he]
  simp only [hadvance, bind, Except.bind, pure, Except.pure]
  have hwidth' : s'.width = s.width := hwidth
  rw [hwidth']
  split <;> rfl

/-- Each turn draws one record, so that many give out what the merge of the records does. -/
theorem Reads.drain {turns : Nat} (h : Reads s m) (hturns : m.size < turns) :
    s.drain F turns = .ok (m.drain.map (fun row => decode F row s.width)) := by
  induction turns generalizing s m with
  | zero => omega
  | succ turns ih =>
    rw [Spilled.drain]
    cases hpop : m.pop with
    | none =>
      rw [h.turn_none hpop, Lib.Merged.drain_next_none (Lib.Merged.next_pop_none hpop)]
      rfl
    | some popped =>
      obtain ⟨k, m'⟩ := popped
      obtain ⟨s', hreads, hwidth, hturn⟩ := h.turn_some (F := F) hpop
      have hsize := Lib.Merged.size_pop hpop
      rw [hturn]
      by_cases hlast : m'.last = some k
      · rw [if_pos hlast, Lib.Merged.drain_repeated hpop hlast]
        simp only [bind, Except.bind, pure, Except.pure, ih hreads (by omega), hwidth]
        rfl
      · have hnext : m.next = some (k, { m' with last := some k }) := by rw [Lib.Merged.next_pop hpop, if_neg hlast]
        have hgiven : Reads { s' with last := some k } { m' with last := some k } := ⟨hreads.files, hreads.heap, rfl⟩
        have hrest := ih hgiven (show m'.size < turns by omega)
        rw [if_neg hlast, Lib.Merged.drain_next hnext]
        simp only [bind, Except.bind, pure, Except.pure, hrest]
        simp only [hwidth]
        rfl

end Merging

/-! ## What is held and what is written -/

section Deduplicating
variable {hashOrder : List Live → List Live} {width budget limit : Nat} {d : Distinct} {spilled : List (List Live)} {seen : List Live}

/-- What a run is written from: rows, encoded and sorted. -/
def sortedRows (F : TextForm) (width : Nat) (held : List Live) : List Row :=
  (held.map (fun row => encodeRow F row width)).mergeSort (fun a b => decide (a ≤ b))

/-- A row that can be written and read. -/
structure Writable (F : TextForm) (width : Nat) (row : Live) : Prop where
  parses : ParsesBack F (slotsOf row width)
  short : Short (encodeRow F row width)

/-- What a collector that was pushed some solutions has: the rows of each run, and what is held. -/
structure Distinct.Kept (F : TextForm) (width limit : Nat) (d : Distinct) (spilled : List (List Live)) (seen : List Live) : Prop where
  wide : d.width = width
  ceiling : d.diskLimit = limit
  runs : d.runs = spilled.map (fun held => (sortedRows F width held).flatMap writeRow)
  apart : ∀ held ∈ spilled, held.Nodup
  live : d.live.Nodup
  rows : ∀ row, (row ∈ spilled.flatten ∨ row ∈ d.live) ↔ ∃ solution ∈ seen, slotsOf solution width = row

theorem Distinct.kept_new (F : TextForm) (width budget limit : Nat) : ((Distinct.new width budget).withDiskLimit limit).Kept F width limit [] [] where
  wide := rfl
  ceiling := rfl
  runs := rfl
  apart held h := by cases h
  live := List.nodup_nil
  rows row := by simp [Distinct.new, Distinct.withDiskLimit]

/-- A run is written of what is held, and the ceiling may be met. -/
theorem Distinct.Kept.spill (hperm : ∀ live, (hashOrder live).Perm live) (h : d.Kept F width limit spilled seen) :
    (∃ written, limit ≠ 0 ∧ limit < written ∧ d.spill F hashOrder = .error (.diskLimitExceeded written limit)) ∨
    ∃ d' spilled', d.spill F hashOrder = .ok d' ∧ d'.Kept F width limit spilled' seen := by
  unfold Distinct.spill
  split
  · exact .inr ⟨d, spilled, rfl, h⟩
  · have hencoded : d.encoded F hashOrder = sortedRows F width (hashOrder d.live) := by
      rw [Distinct.encoded, h.wide, sortedRows]
    by_cases hover : limit ≠ 0 ∧ limit < d.written + ((d.encoded F hashOrder).map writtenBytes).sum
    · refine .inl ⟨_, hover.1, hover.2, ?_⟩
      simp only [h.ceiling, overDiskLimit_error hover, bind, Except.bind]
    · refine .inr ⟨{ d with
          runs := d.runs ++ [(d.encoded F hashOrder).flatMap writeRow]
          written := d.written + ((d.encoded F hashOrder).map writtenBytes).sum
          live := []
          bytes := 0 }, spilled ++ [hashOrder d.live], ?_, ?_, ?_, ?_, ?_, ?_, ?_⟩
      · simp only [h.ceiling, overDiskLimit_ok hover, bind, Except.bind, pure, Except.pure]
      · exact h.wide
      · exact h.ceiling
      · simp only [h.runs, hencoded, List.map_append, List.map_cons, List.map_nil]
      · intro held hheld
        rcases List.mem_append.1 hheld with hheld | hheld
        · exact h.apart held hheld
        · rw [List.mem_singleton.1 hheld]
          exact (hperm d.live).nodup_iff.2 h.live
      · exact List.nodup_nil
      · intro row
        rw [← h.rows row]
        simp [(hperm d.live).mem_iff]

theorem Distinct.Kept.push (hperm : ∀ live, (hashOrder live).Perm live) (h : d.Kept F width limit spilled seen) (solution : Live) :
    (∃ written, limit ≠ 0 ∧ limit < written ∧ d.push F hashOrder solution = .error (.diskLimitExceeded written limit)) ∨
    ∃ d' spilled', d.push F hashOrder solution = .ok d' ∧ d'.Kept F width limit spilled' (seen ++ [solution]) := by
  -- the row is held afterwards, once
  have hheld : ∀ bytes, ({ d with live := if slotsOf solution width ∈ d.live then d.live else d.live ++ [slotsOf solution width], bytes := bytes } :
      Distinct).Kept F width limit spilled (seen ++ [solution]) := by
    intro bytes
    refine ⟨h.wide, h.ceiling, h.runs, h.apart, ?_, fun row => ?_⟩
    · change (if _ then _ else _ : List Live).Nodup
      split
      · exact h.live
      · rename_i hnew
        exact List.nodup_append.2 ⟨h.live, List.nodup_singleton _, fun a ha b hb heq => hnew (by rw [← List.mem_singleton.1 hb, ← heq]; exact ha)⟩
    · have hrow : (row ∈ (if slotsOf solution width ∈ d.live then d.live else d.live ++ [slotsOf solution width])) ↔
          row ∈ d.live ∨ row = slotsOf solution width := by
        split
        · rename_i hold
          constructor
          · exact .inl
          · rintro (hrow | rfl)
            · exact hrow
            · exact hold
        · rw [List.mem_append, List.mem_singleton]
      have hseen := h.rows row
      simp only [hrow, List.mem_append, List.mem_singleton, or_and_right, exists_or, exists_eq_left, ← hseen, ← or_assoc,
        eq_comm (a := row)]
  have hstate : ∃ bytes, (if slotsOf solution d.width ∈ d.live then d
      else { d with live := d.live ++ [slotsOf solution d.width], bytes := d.bytes + footprint (slotsOf solution d.width) }) =
      { d with live := if slotsOf solution width ∈ d.live then d.live else d.live ++ [slotsOf solution width], bytes := bytes } := by
    have hslots : slotsOf solution d.width = slotsOf solution width := by rw [h.wide]
    rw [hslots]
    split
    · exact ⟨d.bytes, rfl⟩
    · exact ⟨_, rfl⟩
  obtain ⟨bytes, hstate⟩ := hstate
  unfold Distinct.push
  simp only [hstate]
  split
  · exact (hheld bytes).spill hperm
  · exact .inr ⟨_, spilled, rfl, hheld bytes⟩

theorem Distinct.Kept.pushAll (hperm : ∀ live, (hashOrder live).Perm live) (h : d.Kept F width limit spilled seen) (input : List Live) :
    (∃ written, limit ≠ 0 ∧ limit < written ∧
      input.foldlM (fun d solution => d.push F hashOrder solution) d = .error (.diskLimitExceeded written limit)) ∨
    ∃ d' spilled', input.foldlM (fun d solution => d.push F hashOrder solution) d = .ok d' ∧ d'.Kept F width limit spilled' (seen ++ input) := by
  induction input generalizing d spilled seen with
  | nil => exact .inr ⟨d, spilled, rfl, by rwa [List.append_nil]⟩
  | cons solution input ih =>
    rw [List.foldlM_cons]
    rcases h.push hperm solution with ⟨written, hlimit, hover, herr⟩ | ⟨d', spilled', hok, hkept⟩
    · exact .inl ⟨written, hlimit, hover, by rw [herr]; rfl⟩
    · rw [hok]
      have hrest := ih hkept
      rwa [List.append_assoc] at hrest

/-! ## Each row once -/

theorem encodeRow_injOn {rows : List Live} (hw : ∀ row ∈ rows, Writable F width row ∧ row.length = width) {a b : Live}
    (ha : a ∈ rows) (hb : b ∈ rows) (heq : encodeRow F a width = encodeRow F b width) : a = b := by
  have hread := fun row hrow => decode_encodeRow (hw row hrow).1.parses (hw row hrow).1.short
  rw [← slotsOf_self (hw a ha).2, ← hread a ha, heq, hread b hb, slotsOf_self (hw b hb).2]

theorem sortedRows_sorted {held : List Live} (hw : ∀ row ∈ held, Writable F width row ∧ row.length = width) (hnodup : held.Nodup) :
    (sortedRows F width held).Pairwise (· < ·) := by
  have hle : (sortedRows F width held).Pairwise (· ≤ ·) := Lib.mergeSort_sorted id _
  have hapart : (sortedRows F width held).Nodup := by
    rw [sortedRows, (List.mergeSort_perm _ _).nodup_iff]
    exact (List.nodup_map_iff_inj_on hnodup).2 (fun a ha b hb heq => encodeRow_injOn hw ha hb heq)
  exact (hle.and hapart).imp (fun hab => lt_of_le_of_ne hab.1 hab.2)

theorem mem_sortedRows {held : List Live} {k : Row} : k ∈ sortedRows F width held ↔ ∃ row ∈ held, encodeRow F row width = k := by
  rw [sortedRows, List.mem_mergeSort, List.mem_map]

/-- The runs and what is held, opened. -/
theorem Distinct.Kept.opened (h : d.Kept F width limit spilled seen)
    (hw : ∀ solution ∈ seen, Writable F width solution) (hruns : d.runs.isEmpty = false) :
    ∃ s : Spilled, d.merge F hashOrder = .ok (.spilled s) ∧ s.width = width ∧
      Reads s (.start ((spilled ++ [hashOrder d.live]).map (sortedRows F width))) := by
  have hshort : ∀ held ∈ spilled, ∀ row ∈ sortedRows F width held, Short row := by
    intro held hheld k hk
    obtain ⟨row, hrow, rfl⟩ := mem_sortedRows.1 hk
    obtain ⟨solution, hsolution, rfl⟩ := (h.rows row).1 (.inl (List.mem_flatten.2 ⟨held, hheld, hrow⟩))
    rw [encodeRow_slotsOf]
    exact (hw solution hsolution).short
  have hopen : d.runs.mapM nextRecord =
      .ok (spilled.map (fun held => ((sortedRows F width held).head?, (sortedRows F width held).tail.flatMap writeRow))) := by
    rw [h.runs, List.mapM_map]
    exact TopK.mapM_ok (fun held hheld => nextRecord_run (hshort held hheld))
  have hencoded : d.encoded F hashOrder = sortedRows F width (hashOrder d.live) := by
    rw [Distinct.encoded, h.wide, sortedRows]
  unfold Distinct.merge
  rw [hruns, hencoded]
  simp only [hopen, bind, Except.bind, pure, Except.pure, Bool.false_eq_true, if_false]
  refine ⟨_, rfl, h.wide, ⟨spilled.map (fun held => (sortedRows F width held).tail), ?_, ?_, ?_, ?_⟩, ?_, rfl⟩
  · intro file hfile row hrow
    obtain ⟨held, hheld, rfl⟩ := List.mem_map.1 hfile
    exact hshort held hheld row (List.mem_of_mem_tail hrow)
  · simp
  · simp [Function.comp_def]
  · simp [Lib.Merged.start, Function.comp_def]
  · have hheads : ∀ n, ((spilled.map (fun held => ((sortedRows F width held).head?, (sortedRows F width held).tail.flatMap writeRow))).zipIdx
        n).filterMap (fun source => source.1.1.map (fun row => toLex (row, source.2))) =
        ((spilled.map (sortedRows F width)).zipIdx n).filterMap (fun source => source.1.head?.map (fun k => toLex (k, source.2))) := by
      intro n
      rw [List.zipIdx_map, List.zipIdx_map, List.filterMap_map, List.filterMap_map]
      rfl
    rw [hheads, Lib.Merged.start, List.map_append, List.zipIdx_append, List.filterMap_append]
    simp only [List.length_map, List.map_cons, List.map_nil, Nat.zero_add, List.zipIdx_cons, List.zipIdx_nil, List.filterMap_cons,
      List.filterMap_nil]
    cases (sortedRows F width (hashOrder d.live)).head? <;> rfl

/-- Every distinct row comes out, once. -/
theorem Distinct.Kept.merge (hperm : ∀ live, (hashOrder live).Perm live) (h : d.Kept F width limit spilled seen)
    (hw : ∀ solution ∈ seen, Writable F width solution) :
    ∃ merged rows needed, d.merge F hashOrder = .ok merged ∧ (∀ turns, needed ≤ turns → merged.drain F turns = .ok rows) ∧
      rows.Nodup ∧ ∀ row, row ∈ rows ↔ ∃ solution ∈ seen, slotsOf solution width = row := by
  cases hruns : d.runs.isEmpty with
  | true =>
    have hnone : spilled = [] := by
      have := List.isEmpty_iff.1 hruns
      rw [h.runs] at this
      exact List.map_eq_nil_iff.1 this
    refine ⟨.inMemory (hashOrder d.live), hashOrder d.live, 0, ?_, fun turns _ => rfl, ?_, ?_⟩
    · rw [Distinct.merge, hruns]
      rfl
    · exact (hperm d.live).nodup_iff.2 h.live
    · intro row
      rw [(hperm d.live).mem_iff, ← h.rows row, hnone]
      simp
  | false =>
    obtain ⟨s, hmerge, hwide, hreads⟩ := h.opened hw hruns
    have hwritten : ∀ held ∈ spilled ++ [hashOrder d.live], ∀ row ∈ held, ∃ solution ∈ seen, slotsOf solution width = row := by
      intro held hheld row hrow
      rw [← h.rows row]
      rcases List.mem_append.1 hheld with hheld | hheld
      · exact .inl (List.mem_flatten.2 ⟨held, hheld, hrow⟩)
      · rw [List.mem_singleton.1 hheld] at hrow
        exact .inr ((hperm d.live).mem_iff.1 hrow)
    have hwritable : ∀ held ∈ spilled ++ [hashOrder d.live], ∀ row ∈ held, Writable F width row ∧ row.length = width := by
      intro held hheld row hrow
      obtain ⟨solution, hsolution, rfl⟩ := hwritten held hheld row hrow
      have hself := slotsOf_self (length_slotsOf solution width)
      refine ⟨⟨?_, ?_⟩, length_slotsOf solution width⟩
      · rw [hself]
        exact (hw solution hsolution).parses
      · rw [encodeRow_slotsOf]
        exact (hw solution hsolution).short
    have hnodup : ∀ held ∈ spilled ++ [hashOrder d.live], held.Nodup := by
      intro held hheld
      rcases List.mem_append.1 hheld with hheld | hheld
      · exact h.apart held hheld
      · rw [List.mem_singleton.1 hheld]
        exact (hperm d.live).nodup_iff.2 h.live
    have hsorted : ∀ file ∈ (spilled ++ [hashOrder d.live]).map (sortedRows F width), file.Pairwise (· < ·) := by
      intro file hfile
      obtain ⟨held, hheld, rfl⟩ := List.mem_map.1 hfile
      exact sortedRows_sorted (hwritable held hheld) (hnodup held hheld)
    obtain ⟨hordered, hmem⟩ := Lib.Merged.drain_start hsorted
    -- a record that comes out is that of a row, and reads as that row
    have hrecord : ∀ k ∈ (Lib.Merged.start ((spilled ++ [hashOrder d.live]).map (sortedRows F width))).drain,
        ∃ solution ∈ seen, k = encodeRow F solution width ∧ decode F k width = slotsOf solution width := by
      intro k hk
      obtain ⟨file, hfile, hk⟩ := (hmem k).1 hk
      obtain ⟨held, hheld, rfl⟩ := List.mem_map.1 hfile
      obtain ⟨row, hrow, rfl⟩ := mem_sortedRows.1 hk
      obtain ⟨solution, hsolution, rfl⟩ := hwritten held hheld row hrow
      refine ⟨solution, hsolution, encodeRow_slotsOf solution width, ?_⟩
      rw [encodeRow_slotsOf, decode_encodeRow (hw solution hsolution).parses (hw solution hsolution).short]
    refine ⟨.spilled s, (Lib.Merged.start ((spilled ++ [hashOrder d.live]).map (sortedRows F width))).drain.map (fun k => decode F k width),
      (Lib.Merged.start ((spilled ++ [hashOrder d.live]).map (sortedRows F width))).size + 1, hmerge, fun turns hturns => ?_, ?_, fun row => ?_⟩
    · have hdrain := hreads.drain (F := F) (Nat.lt_of_succ_le hturns)
      rw [hwide] at hdrain
      exact hdrain
    · refine (List.nodup_map_iff_inj_on (hordered.imp (fun hab => ne_of_lt hab))).2 ?_
      intro k hk k' hk' heq
      obtain ⟨solution, -, rfl, hdec⟩ := hrecord k hk
      obtain ⟨solution', -, rfl, hdec'⟩ := hrecord k' hk'
      rw [hdec, hdec'] at heq
      rw [← encodeRow_slotsOf, heq, encodeRow_slotsOf]
    · rw [List.mem_map]
      constructor
      · rintro ⟨k, hk, rfl⟩
        obtain ⟨solution, hsolution, -, hdec⟩ := hrecord k hk
        exact ⟨solution, hsolution, hdec.symm⟩
      · rintro ⟨solution, hsolution, rfl⟩
        have hdec := decode_encodeRow (hw solution hsolution).parses (hw solution hsolution).short
        refine ⟨encodeRow F solution width, (hmem _).2 ?_, hdec⟩
        obtain ⟨held, hheld, hrow⟩ : ∃ held ∈ spilled ++ [hashOrder d.live], slotsOf solution width ∈ held := by
          rcases (h.rows _).2 ⟨solution, hsolution, rfl⟩ with hrow | hrow
          · obtain ⟨held, hheld, hrow⟩ := List.mem_flatten.1 hrow
            exact ⟨held, List.mem_append_left _ hheld, hrow⟩
          · exact ⟨_, List.mem_append_right _ (List.mem_singleton.2 rfl), (hperm d.live).mem_iff.2 hrow⟩
        exact ⟨_, List.mem_map.2 ⟨held, hheld, rfl⟩, mem_sortedRows.2 ⟨_, hrow, encodeRow_slotsOf solution width⟩⟩

end Deduplicating

theorem writable_example : ∀ solution ∈ ([[some (.namedNode "a"), none], [none], [some (.namedNode "a")]] : List Live),
    Writable angled 2 solution := by
  have hparse : ∀ slots ∈ ([[some (.namedNode "a"), none], [none, none]] : List Live), ParsesBack angled slots := by
    intro slots hslots term hterm
    simp only [List.mem_cons, List.not_mem_nil, or_false] at hslots
    rcases hslots with rfl | rfl
    · simp only [List.mem_cons, Option.some.injEq, List.not_mem_nil, or_false, reduceCtorEq] at hterm
      rw [hterm]
      exact angled_parse "a"
    · simp at hterm
  intro solution hsolution
  simp only [List.mem_cons, List.not_mem_nil, or_false] at hsolution
  rcases hsolution with rfl | rfl | rfl
  · exact ⟨hparse _ (by decide), by unfold Short; decide +kernel⟩
  · exact ⟨hparse _ (by decide), by unfold Short; decide +kernel⟩
  · exact ⟨hparse _ (by decide), by unfold Short; decide +kernel⟩

/-- One row, written at once and read back. -/
theorem deduplicate_single {row cut : Row} {rest : List UInt8} {term : Term} (hrow : encodeRow F [some term] 1 = row)
    (hnext : nextRecord (writeRow row) = .ok (some cut, rest)) (hrest : nextRecord rest = .ok (none, [])) (turns : Nat) :
    deduplicate F id 1 0 0 (turns + 2) [[some term]] = .ok [decode F cut 1] := by
  have hpush : ((Distinct.new 1 0).withDiskLimit 0).push F id [some term] =
      .ok ⟨[writeRow row], (writtenBytes row), 0, [], 0, 0, 1⟩ := by
    have hslots : slotsOf [some term] 1 = [some term] := rfl
    simp [Distinct.push, Distinct.new, Distinct.withDiskLimit, Distinct.spill, Distinct.encoded, overDiskLimit, hslots, hrow, bind,
      Except.bind, pure, Except.pure]
  have hmerge : (⟨[writeRow row], (writtenBytes row), 0, [], 0, 0, 1⟩ : Distinct).merge F id =
      .ok (.spilled ⟨1, [], [rest], [toLex (cut, 0)], 1, 0, none⟩) := by
    simp [Distinct.merge, Distinct.encoded, hnext, bind, Except.bind, pure, Except.pure]
  have hturn : (⟨1, [], [rest], [toLex (cut, 0)], 1, 0, none⟩ : Spilled).turn F =
      .ok (some (some (decode F cut 1), ⟨1, [], [[]], [], 1, 0, some cut⟩)) := by
    simp [Spilled.turn, Spilled.advance, hrest, bind, Except.bind, pure, Except.pure]
  have hend : (⟨1, [], [[]], [], 1, 0, some cut⟩ : Spilled).turn F = .ok none := rfl
  unfold deduplicate
  simp [hpush, hmerge, Merged.drain, Spilled.drain, hturn, hend, bind, Except.bind, pure, Except.pure]

end Holos.Engine.Spill
