import Holos.Engine.Spill
import Holos.Engine.SpillRecords
import Holos.Engine.TopKTheorems
/-!
# `ORDER BY` gives out the stable sort

The pieces that a sort was cut into are sorted and written, and a merge of their run files reads as the
merge of the rows in them. It prefers the earlier piece on a tie, so what comes out is the stable sort of
the rows as they came, whatever the budget: unless what the runs take on disk exceeds the ceiling.
-/

namespace Holos.Engine.Spill

open TopK (Evaluator ExpressionTerm cmpKeys)
open Inline (utf8)

/-! ## The merge -/

section Sorting
variable {F : TextForm} {ev : Evaluator} {K : KeyForm ev} {rowWidth : Nat} {descending : List Bool}

/-- Where rows stand by their keys. -/
def entryCmp (descending : List Bool) (a b : Keys ev × Live) : Ordering := cmpKeys ev a.1 b.1 descending

/-- A row as it is written. -/
def recordOf (F : TextForm) (K : KeyForm ev) (keyWidth rowWidth : Nat) (entry : Keys ev × Live) : Row :=
  encodeRow F (keyTerms K entry.1) keyWidth ++ encodeRow F entry.2 rowWidth

/-- A row with its keys that can be written and read: one key a condition, one cell a variable, keys
whose terms give them back. -/
structure Sound (F : TextForm) (K : KeyForm ev) (descending : List Bool) (rowWidth : Nat) (entry : Keys ev × Live) : Prop where
  keys : entry.1.length = descending.length
  row : entry.2.length = rowWidth
  reread : (keyTerms K entry.1).map (·.map (ExpressionTerm.ofTerm ev)) = entry.1
  keysParse : ParsesBack F (keyTerms K entry.1)
  rowParses : ParsesBack F entry.2
  short : Short (recordOf F K descending.length rowWidth entry)

/-- The two halves of a record are read one after the other. -/
theorem Sound.split {entry : Keys ev × Live} (h : Sound F K descending rowWidth entry) :
    splitRecord F (recordOf F K descending.length rowWidth entry) descending.length rowWidth = entry := by
  have hkeys : slotsOf (keyTerms K entry.1) descending.length = keyTerms K entry.1 := by
    apply slotsOf_self
    rw [keyTerms, List.length_map, h.keys]
  have hrow : slotsOf entry.2 rowWidth = entry.2 := slotsOf_self h.row
  have hshort := h.short
  unfold Short recordOf at hshort
  rw [List.length_append] at hshort
  have hfirst := decodeAt_encode h.keysParse (text_short (show Short ((keyTerms K entry.1).flatMap (encodeSlot F)) by
    unfold encodeRow at hshort
    rw [hkeys] at hshort
    exact Nat.lt_of_le_of_lt (Nat.le_add_right _ _) hshort)) [] (encodeRow F entry.2 rowWidth)
  have hsecond := decodeAt_encode h.rowParses (text_short (show Short (entry.2.flatMap (encodeSlot F)) by
    unfold encodeRow at hshort
    rw [hrow] at hshort
    exact Nat.lt_of_le_of_lt (Nat.le_add_left _ _) hshort)) (encodeRow F (keyTerms K entry.1) descending.length) []
  rw [List.nil_append, List.length_nil, Nat.zero_add] at hfirst
  have hlen : (keyTerms K entry.1).length = descending.length := by rw [keyTerms, List.length_map, h.keys]
  have hkeybytes : encodeRow F (keyTerms K entry.1) descending.length = (keyTerms K entry.1).flatMap (encodeSlot F) := by
    rw [encodeRow, hkeys]
  have hrowbytes : encodeRow F entry.2 rowWidth = entry.2.flatMap (encodeSlot F) := by rw [encodeRow, hrow]
  rw [hlen, ← hkeybytes] at hfirst
  rw [h.row, List.append_nil, ← hrowbytes] at hsecond
  unfold splitRecord recordOf
  simp only [hfirst, hsecond]
  rw [h.reread]

open Lib.StableSort (Merging)

variable {s : SpilledSort ev} {m m' : Merging (Keys ev × Live)} {rest : List (Keys ev × Live)}

/-- A merge of run files, and the merge of the rows they have left; `rest` is left of what was held. -/
structure Follows (F : TextForm) (K : KeyForm ev) (rest : List (Keys ev × Live)) (s : SpilledSort ev) (m : Merging (Keys ev × Live)) : Prop where
  files : ∃ files : List (List (Keys ev × Live)), (∀ file ∈ files, ∀ entry ∈ file, Sound F K s.descending s.rowWidth entry) ∧
    files.length = s.tail ∧ m.sources = files ++ [rest] ∧
    s.sources = (files.map (fun file => file.map (recordOf F K s.descending.length s.rowWidth))).map (fun file => file.flatMap writeRow)
  wide : s.keyWidth = s.descending.length
  heap : m.heap = s.heap

/-- What a merge is set up with, which no reading changes. -/
structure SameSetting (s s' : SpilledSort ev) : Prop where
  buffer : s'.buffer = s.buffer
  tail : s'.tail = s.tail
  tailAt : s'.tailAt = s.tailAt
  descending : s'.descending = s.descending

theorem Follows.draw (h : Follows F K rest s m) {source : Nat} (hsource : source ≠ s.tail) :
    ∃ s', s.draw F source = .ok s' ∧ Follows F K rest s' (m.refill (entryCmp s.descending) source) ∧ SameSetting s s' := by
  obtain ⟨files, hsound, hlen, hentries, hsources⟩ := h.files
  have hshort : ∀ file ∈ files.map (fun file => file.map (recordOf F K s.descending.length s.rowWidth)), ∀ row ∈ file, Short row := by
    intro records hrecords row hrow
    obtain ⟨file, hfile, rfl⟩ := List.mem_map.1 hrecords
    obtain ⟨entry, hentry, rfl⟩ := List.mem_map.1 hrow
    exact (hsound file hfile entry hentry).short
  rcases nextRecord_source hshort source with ⟨row, records, hget, hread⟩ | ⟨hdry, hread, hset⟩
  · obtain ⟨file, hfile, hrecords⟩ := Option.map_eq_some_iff.1 (List.getElem?_map ▸ hget)
    obtain ⟨entry, entries, rfl, rfl, rfl⟩ := List.map_eq_cons_iff.1 hrecords
    have hlt := (List.getElem?_eq_some_iff.1 hfile).1
    have hentry : Sound F K s.descending s.rowWidth entry := hsound _ (List.mem_of_getElem? hfile) entry List.mem_cons_self
    have hdraw : m.refill (entryCmp s.descending) source =
        ⟨Lib.Held.push (Lib.Held.byArrival (entryCmp s.descending)) (entry, source) m.heap, m.sources.set source entries⟩ := by
      rw [Merging.refill, hentries, List.getElem?_append_left hlt, hfile]
    refine ⟨{ s with
      sources := s.sources.set source ((entries.map (recordOf F K s.descending.length s.rowWidth)).flatMap writeRow)
      heap := Lib.Held.push (headCmp s.descending) (entry, source) s.heap }, ?_, ?_, ⟨rfl, rfl, rfl, rfl⟩⟩
    · rw [SpilledSort.draw, hsources, hread]
      simp only [bind, Except.bind, pure, Except.pure, h.wide, hentry.split]
      rfl
    · rw [hdraw]
      refine ⟨⟨files.set source entries, ?_, by rw [List.length_set]; exact hlen, ?_, ?_⟩, h.wide, ?_⟩
      · intro file' hfile' e he
        rcases List.mem_or_eq_of_mem_set hfile' with hfile' | rfl
        · exact hsound file' hfile' e he
        · exact hsound _ (List.mem_of_getElem? hfile) e (List.mem_cons_of_mem _ he)
      · simp only [hentries, List.set_append_left _ _ hlt]
      · simp only [hsources, List.map_set]
      · rw [h.heap]
        rfl
  · have hsame : m.refill (entryCmp s.descending) source = m := by
      rw [Merging.refill]
      split
      · rename_i entry entries hget
        rw [hentries] at hget
        by_cases hlt : source < files.length
        · rw [List.getElem?_append_left hlt] at hget
          exact absurd (by rw [List.getElem?_map, hget]; rfl) (hdry (recordOf F K s.descending.length s.rowWidth entry) _)
        · have := (List.getElem?_eq_some_iff.1 hget).1
          rw [List.length_append, List.length_singleton] at this
          omega
      · rfl
    refine ⟨{ s with sources := s.sources.set source [] }, ?_, ?_, ⟨rfl, rfl, rfl, rfl⟩⟩
    · rw [SpilledSort.draw, hsources, hread]
      rfl
    · rw [hsame]
      refine ⟨⟨files, hsound, hlen, hentries, ?_⟩, h.wide, h.heap⟩
      simp only [hsources, hset]

/-- The next row of what was held is put in the heap, and the rest is left. -/
theorem Follows.pushHead {entry : Keys ev × Live} (h : Follows F K (entry :: rest) s m) (tailAt : Nat) :
    Follows F K rest ({ s with tailAt := tailAt }.pushHead entry s.tail) (m.refill (entryCmp s.descending) s.tail) := by
  obtain ⟨files, hsound, hlen, hentries, hsources⟩ := h.files
  have hdraw : m.refill (entryCmp s.descending) s.tail =
      ⟨Lib.Held.push (Lib.Held.byArrival (entryCmp s.descending)) (entry, s.tail) m.heap, m.sources.set s.tail rest⟩ := by
    rw [Merging.refill, hentries, ← hlen, List.getElem?_append_right (Nat.le_refl _), Nat.sub_self]
    rfl
  rw [hdraw]
  refine ⟨⟨files, hsound, hlen, ?_, hsources⟩, h.wide, ?_⟩
  · rw [hentries, ← hlen, List.set_append_right _ _ (Nat.le_refl _), Nat.sub_self]
    rfl
  · rw [h.heap]
    rfl

theorem Follows.spent (h : Follows F K [] s m) (tailAt : Nat) :
    Follows F K [] { s with tailAt := tailAt } (m.refill (entryCmp s.descending) s.tail) := by
  obtain ⟨files, hsound, hlen, hentries, hsources⟩ := h.files
  have hsame : m.refill (entryCmp s.descending) s.tail = m := by
    rw [Merging.refill, hentries, ← hlen, List.getElem?_append_right (Nat.le_refl _), Nat.sub_self]
    rfl
  rw [hsame]
  exact ⟨⟨files, hsound, hlen, hentries, hsources⟩, h.wide, h.heap⟩

/-- The merge of run files from where it stands. -/
def Running (F : TextForm) (K : KeyForm ev) (s : SpilledSort ev) (m : Merging (Keys ev × Live)) : Prop :=
  Follows F K (s.buffer.drop (s.tailAt + 1)) s m

theorem Running.advance (h : Running F K s m) (source : Nat) :
    ∃ s', s.advance F source = .ok s' ∧ Running F K s' (m.refill (entryCmp s.descending) source) ∧ s'.descending = s.descending := by
  by_cases htail : source = s.tail
  · rw [SpilledSort.advance, if_pos htail, htail]
    cases hnext : s.buffer[s.tailAt + 1]? with
    | none =>
      have hend := List.getElem?_eq_none_iff.1 hnext
      have hdrop : s.buffer.drop (s.tailAt + 1) = [] := List.drop_eq_nil_of_le hend
      have hdrop' : s.buffer.drop (s.tailAt + 1 + 1) = [] := List.drop_eq_nil_of_le (hend.trans (Nat.le_succ _))
      unfold Running at h ⊢
      rw [hdrop] at h
      refine ⟨{ s with tailAt := s.tailAt + 1 }, by simp [hnext], ?_, rfl⟩
      change Follows F K (s.buffer.drop (s.tailAt + 1 + 1)) _ _
      rw [hdrop']
      exact h.spent (s.tailAt + 1)
    | some entry =>
      obtain ⟨hlt, hentry⟩ := List.getElem?_eq_some_iff.1 hnext
      have hdrop : s.buffer.drop (s.tailAt + 1) = entry :: s.buffer.drop (s.tailAt + 1 + 1) := by
        rw [List.drop_eq_getElem_cons hlt, hentry]
      unfold Running at h ⊢
      rw [hdrop] at h
      exact ⟨{ s with tailAt := s.tailAt + 1 }.pushHead entry s.tail, by simp [hnext], h.pushHead (s.tailAt + 1), rfl⟩
  · obtain ⟨s', hdraw, hfollows, hsame⟩ := Follows.draw h htail
    refine ⟨s', ?_, ?_, hsame.descending⟩
    · rw [SpilledSort.advance, if_neg htail, hdraw]
    · unfold Running
      rw [hsame.buffer, hsame.tailAt]
      exact hfollows

theorem Running.drain (h : Running F K s m) (count : Nat) :
    s.drain F count = .ok ((m.drain (entryCmp s.descending) count).map (·.2)) := by
  induction count generalizing s m with
  | zero => rfl
  | succ count ih =>
    rw [SpilledSort.drain, SpilledSort.nextRow, Merging.drain, Merging.pop, h.heap]
    cases hheap : s.heap with
    | nil => rfl
    | cons head heap =>
      obtain ⟨entry, source⟩ := head
      have hpopped : Running F K { s with heap := heap } ⟨heap, m.sources⟩ := ⟨h.files, h.wide, rfl⟩
      obtain ⟨s', hadvance, hrunning, hsame⟩ := hpopped.advance source
      have hrest := ih hrunning
      simp only [bind, Except.bind, pure, Except.pure, hadvance, hrest, hsame, List.map_cons]

/-- Reading each run once. -/
theorem Follows.openRuns (h : Follows F K rest s m) (n : Nat) (hn : n ≤ s.tail) :
    ∃ s', (List.range n).foldlM (SpilledSort.draw F) s = .ok s' ∧
      Follows F K rest s' ((List.range n).foldl (Merging.refill (entryCmp s.descending)) m) ∧ SameSetting s s' := by
  induction n with
  | zero => exact ⟨s, rfl, h, ⟨rfl, rfl, rfl, rfl⟩⟩
  | succ n ih =>
    obtain ⟨s₁, hfold, hfollows, hsame⟩ := ih (by omega)
    obtain ⟨s₂, hdraw, hfollows', hsame'⟩ := hfollows.draw (show n ≠ s₁.tail by rw [hsame.tail]; omega)
    refine ⟨s₂, ?_, ?_, ⟨hsame'.buffer.trans hsame.buffer, hsame'.tail.trans hsame.tail, hsame'.tailAt.trans hsame.tailAt,
      hsame'.descending.trans hsame.descending⟩⟩
    · rw [List.range_succ, List.foldlM_append, hfold]
      change List.foldlM (SpilledSort.draw F) s₁ [n] = _
      rw [List.foldlM_cons, hdraw]
      rfl
    · rw [List.range_succ, List.foldl_append, ← hsame.descending]
      rw [hsame.descending] at hfollows' ⊢
      exact hfollows'

/-! ## What is held and what is written -/

variable {limit budget : Nat} {c : Sorted ev} {chunks : List (List (Keys ev × Live))} {seen : List (Keys ev × Live)}

/-- What a collector that was pushed some rows has: the pieces that were cut off and written, and
what is held. -/
structure Sorted.Cut (F : TextForm) (K : KeyForm ev) (descending : List Bool) (rowWidth limit : Nat) (c : Sorted ev)
    (chunks : List (List (Keys ev × Live))) (seen : List (Keys ev × Live)) : Prop where
  order : c.descending = descending
  wide : c.rowWidth = rowWidth
  ceiling : c.diskLimit = limit
  runs : c.runs = ((chunks.map (fun chunk => chunk.mergeSort (Sorted.rowLe descending))).map
    (fun chunk => chunk.map (recordOf F K descending.length rowWidth))).map (fun records => records.flatMap writeRow)
  rows : chunks.flatten ++ c.live = seen

theorem Sorted.cut_new (F : TextForm) (K : KeyForm ev) (rowWidth : Nat) (descending : List Bool) (budget limit : Nat) :
    ((Sorted.new rowWidth descending budget : Sorted ev).withDiskLimit limit).Cut F K descending rowWidth limit [] [] :=
  ⟨rfl, rfl, rfl, rfl, rfl⟩

theorem Sorted.Cut.spill (h : c.Cut F K descending rowWidth limit chunks seen) :
    (∃ written, limit ≠ 0 ∧ limit < written ∧ c.spill F K = .error (.diskLimitExceeded written limit)) ∨
    ∃ c' chunks', c.spill F K = .ok c' ∧ c'.Cut F K descending rowWidth limit chunks' seen := by
  unfold Sorted.spill
  split
  · exact .inr ⟨c, chunks, rfl, h⟩
  · have hrecords : c.sortLive.map (c.record F K) =
        (c.live.mergeSort (Sorted.rowLe descending)).map (recordOf F K descending.length rowWidth) := by
      rw [← h.order, ← h.wide]
      rfl
    by_cases hover : limit ≠ 0 ∧ limit < c.written + ((c.sortLive.map (c.record F K)).map writtenBytes).sum
    · refine .inl ⟨_, hover.1, hover.2, ?_⟩
      simp only [h.ceiling, overDiskLimit_error hover, bind, Except.bind]
    · refine .inr ⟨{ c with
          runs := c.runs ++ [(c.sortLive.map (c.record F K)).flatMap writeRow]
          written := c.written + ((c.sortLive.map (c.record F K)).map writtenBytes).sum
          live := []
          bytes := 0 }, chunks ++ [c.live], ?_, h.order, h.wide, h.ceiling, ?_, ?_⟩
      · simp only [h.ceiling, overDiskLimit_ok hover, bind, Except.bind, pure, Except.pure]
      · simp only [h.runs, hrecords, List.map_append, List.map_cons, List.map_nil]
      · simp only [List.flatten_append, List.flatten_cons, List.flatten_nil, List.append_nil, h.rows]

theorem Sorted.Cut.push (h : c.Cut F K descending rowWidth limit chunks seen) (entry : Keys ev × Live) :
    (∃ written, limit ≠ 0 ∧ limit < written ∧ c.push F K entry.1 entry.2 = .error (.diskLimitExceeded written limit)) ∨
    ∃ c' chunks', c.push F K entry.1 entry.2 = .ok c' ∧ c'.Cut F K descending rowWidth limit chunks' (seen ++ [entry]) := by
  have hheld : Sorted.Cut F K descending rowWidth limit
      { c with bytes := c.bytes + (footprint entry.2 + keysFootprint K entry.1), live := c.live ++ [entry] } chunks (seen ++ [entry]) :=
    ⟨h.order, h.wide, h.ceiling, h.runs, by rw [← h.rows, List.append_assoc]⟩
  unfold Sorted.push
  dsimp only
  split
  · exact hheld.spill
  · exact .inr ⟨_, chunks, rfl, hheld⟩

theorem Sorted.Cut.pushAll (h : c.Cut F K descending rowWidth limit chunks seen) (input : List (Keys ev × Live)) :
    (∃ written, limit ≠ 0 ∧ limit < written ∧
      input.foldlM (fun c entry => c.push F K entry.1 entry.2) c = .error (.diskLimitExceeded written limit)) ∨
    ∃ c' chunks', input.foldlM (fun c entry => c.push F K entry.1 entry.2) c = .ok c' ∧
      c'.Cut F K descending rowWidth limit chunks' (seen ++ input) := by
  induction input generalizing c chunks seen with
  | nil => exact .inr ⟨c, chunks, rfl, by rwa [List.append_nil]⟩
  | cons entry input ih =>
    rw [List.foldlM_cons]
    rcases h.push entry with ⟨written, hlimit, hover, herr⟩ | ⟨c', chunks', hok, hcut⟩
    · exact .inl ⟨written, hlimit, hover, by rw [herr]; rfl⟩
    · rw [hok]
      have hrest := ih hcut
      rwa [List.append_assoc] at hrest

/-- What the runs are opened to comes out behind what was held. -/
theorem Sorted.merge_opened {s' : SpilledSort ev} (hruns : c.runs.isEmpty = false)
    (hopen : (List.range c.runs.length).foldlM (SpilledSort.draw F)
      ⟨c.sortLive, c.runs, [], c.runs.length, 0, c.keyWidth, c.rowWidth, c.descending⟩ = .ok s') :
    c.merge F = (match c.sortLive.head? with
      | some entry => .ok (.spilled (s'.pushHead entry s'.tail))
      | none => .ok (.spilled s')) := by
  unfold Sorted.merge
  rw [hruns]
  cases hhead : c.sortLive.head? with
  | none => simp only [SpilledSort.openRuns, hopen, bind, Except.bind, pure, Except.pure, Bool.false_eq_true, if_false, hhead]
  | some entry => simp only [SpilledSort.openRuns, hopen, bind, Except.bind, pure, Except.pure, Bool.false_eq_true, if_false, hhead]

/-- The pieces and what is held, opened. -/
theorem Sorted.Cut.opened (h : c.Cut F K descending rowWidth limit chunks seen)
    (hs : ∀ entry ∈ seen, Sound F K descending rowWidth entry) (hruns : c.runs.isEmpty = false) :
    ∃ s, c.merge F = .ok (.spilled s) ∧ s.descending = descending ∧
      Running F K s (.start (entryCmp descending) ((chunks ++ [c.live]).map (fun chunk => chunk.mergeSort (Sorted.rowLe descending)))) := by
  have hcount : c.runs.length = chunks.length := by rw [h.runs, List.length_map, List.length_map, List.length_map]
  -- before anything is read
  have hfirst : Follows F K (c.live.mergeSort (Sorted.rowLe descending))
      (⟨c.sortLive, c.runs, [], c.runs.length, 0, c.keyWidth, c.rowWidth, c.descending⟩ : SpilledSort ev)
      ⟨[], (chunks ++ [c.live]).map (fun chunk => chunk.mergeSort (Sorted.rowLe descending))⟩ := by
    refine ⟨⟨chunks.map (fun chunk => chunk.mergeSort (Sorted.rowLe descending)), ?_, ?_, ?_, ?_⟩, rfl, rfl⟩
    · intro file hfile entry hentry
      obtain ⟨chunk, hchunk, rfl⟩ := List.mem_map.1 hfile
      have hseen : entry ∈ seen := by
        rw [← h.rows]
        exact List.mem_append_left _ (List.mem_flatten.2 ⟨chunk, hchunk, List.mem_mergeSort.1 hentry⟩)
      change Sound F K c.descending c.rowWidth entry
      rw [h.order, h.wide]
      exact hs entry hseen
    · rw [List.length_map]
      exact hcount.symm
    · simp
    · change c.runs = _
      rw [h.runs]
      simp only [h.order, h.wide]
  obtain ⟨s', hopen, hfollows, hsame⟩ := hfirst.openRuns c.runs.length (Nat.le_refl _)
  have hdescending : s'.descending = descending := hsame.descending.trans h.order
  have htail : s'.tail = chunks.length := hsame.tail.trans hcount
  have hbuffer : s'.buffer = c.live.mergeSort (Sorted.rowLe descending) := by
    rw [hsame.buffer, ← h.order]
    rfl
  have htailAt : s'.tailAt = 0 := hsame.tailAt
  -- what was held is read last
  have hstart : Merging.start (entryCmp descending) ((chunks ++ [c.live]).map (fun chunk => chunk.mergeSort (Sorted.rowLe descending))) =
      ((List.range c.runs.length).foldl (Merging.refill (entryCmp c.descending))
        ⟨[], (chunks ++ [c.live]).map (fun chunk => chunk.mergeSort (Sorted.rowLe descending))⟩).refill (entryCmp s'.descending) s'.tail := by
    rw [Merging.start, List.length_map, List.length_append, List.length_singleton, List.range_succ, List.foldl_append, hdescending, h.order,
      htail, hcount]
    rfl
  have hsort : c.sortLive = c.live.mergeSort (Sorted.rowLe descending) := by rw [Sorted.sortLive, h.order]
  rw [Sorted.merge_opened hruns hopen, hsort, hstart]
  cases hheld : c.live.mergeSort (Sorted.rowLe descending) with
  | nil =>
    rw [hheld] at hfollows hbuffer
    refine ⟨s', rfl, hdescending, ?_⟩
    unfold Running
    rw [hbuffer, List.drop_nil]
    exact hfollows.spent s'.tailAt
  | cons entry rest =>
    rw [hheld] at hfollows hbuffer
    refine ⟨s'.pushHead entry s'.tail, rfl, hdescending, ?_⟩
    unfold Running
    have hdrop : (s'.pushHead entry s'.tail).buffer.drop ((s'.pushHead entry s'.tail).tailAt + 1) = rest := by
      change s'.buffer.drop (s'.tailAt + 1) = rest
      rw [hbuffer, htailAt]
      rfl
    rw [hdrop]
    exact hfollows.pushHead s'.tailAt

end Sorting

/-- An evaluator that does not tell literals apart. -/
def oneValue : Evaluator where
  Value := Unit
  value _ := ()
  partialCmp _ _ := some .eq
  lexicalCmp _ _ := .eq
  evaluateExpression _ _ := none
  converts _ := false
  evaluate _ := .ok (.boolean false)

def oneLiteral : KeyForm oneValue where
  literal _ := .simple ""
  footprint _ := 48

theorem sound_example : ∀ entry ∈ ([([some (.namedNode "b")], [none]), ([some (.namedNode "a")], [some (.namedNode "b")])] : List (Keys oneValue × Live)),
    Sound angled oneLiteral [false] 1 entry := by
  have hparse : ∀ n, ParsesBack angled [some (.namedNode n)] := by
    intro n term hterm
    rw [List.mem_singleton, Option.some.injEq] at hterm
    rw [hterm]
    exact angled_parse n
  have hnone : ParsesBack angled [none] := by
    intro term hterm
    simp at hterm
  intro entry hentry
  simp only [List.mem_cons, List.not_mem_nil, or_false] at hentry
  rcases hentry with rfl | rfl
  · exact ⟨rfl, rfl, rfl, hparse "b", hnone, by unfold Short; decide +kernel⟩
  · exact ⟨rfl, rfl, rfl, hparse "a", hparse "b", by unfold Short; decide +kernel⟩

theorem sortRows_single {ev : Evaluator} (K : KeyForm ev) {F : TextForm} {row cut : Row} {rest : List UInt8} {term : Term}
    (hrow : encodeRow F [some term] 1 = row) (hnext : nextRecord (writeRow row) = .ok (some cut, rest))
    (hrest : nextRecord rest = .ok (none, [])) (count : Nat) :
    sortRows F K 1 [] 0 0 (count + 2) [([], [some term])] = .ok [decode F cut 1] := by
  have hpush : ((Sorted.new 1 [] 0 : Sorted ev).withDiskLimit 0).push F K [] [some term] =
      .ok ⟨[writeRow row], (writtenBytes row), 0, [], 0, 0, 1, []⟩ := by
    have hrecord : ∀ c : Sorted ev, c.descending = [] → c.rowWidth = 1 → c.record F K ([], [some term]) = row := by
      intro c horder hwide
      rw [Sorted.record, Sorted.keyWidth, horder, hwide, hrow]
      rfl
    simp [Sorted.push, Sorted.new, Sorted.withDiskLimit, Sorted.spill, Sorted.sortLive, overDiskLimit, hrecord, bind, Except.bind, pure,
      Except.pure]
  have hsplit : (splitRecord F cut 0 1 : Keys ev × Live) = ([], decode F cut 1) := rfl
  have hmerge : (⟨[writeRow row], (writtenBytes row), 0, [], 0, 0, 1, []⟩ : Sorted ev).merge F =
      .ok (.spilled ⟨[], [rest], [(([], decode F cut 1), 0)], 1, 0, 0, 1, []⟩) := by
    simp [Sorted.merge, Sorted.sortLive, Sorted.keyWidth, SpilledSort.openRuns, SpilledSort.draw, SpilledSort.pushHead, Lib.Held.push, hnext,
      hsplit, bind, Except.bind, pure, Except.pure]
  have hturn : (⟨[], [rest], [(([], decode F cut 1), 0)], 1, 0, 0, 1, []⟩ : SpilledSort ev).nextRow F =
      .ok (some (decode F cut 1, ⟨[], [[]], [], 1, 0, 0, 1, []⟩)) := by
    simp [SpilledSort.nextRow, SpilledSort.advance, SpilledSort.draw, hrest, bind, Except.bind, pure, Except.pure]
  have hend : (⟨[], [[]], [], 1, 0, 0, 1, []⟩ : SpilledSort ev).nextRow F = .ok none := rfl
  unfold sortRows
  simp [hpush, hmerge, SortedRows.drain, SpilledSort.drain, hturn, hend, bind, Except.bind, pure, Except.pure]

end Holos.Engine.Spill
