import Holos.Stats.Statistics
import Holos.Store.MemoryBackend
import Mathlib.Data.Finset.Sort
/-!
# The statistics are exact

The pass is in key order of an index that starts with the subject, so the quads of a subject
come together and a shape, once closed, is closed for good. `Closed` says what the shapes
and the subject counts are of the quads closed so far, and `Scanned` what the pass carries
while the quads of one subject are still coming.
-/

namespace Holos.Stats

open Lib

/-! ## What there is to count -/

/-- A count that is not there where it is zero. -/
def nonzero (n : Nat) : Option Nat := if n = 0 then none else some n

/-- The predicates of a subject. -/
def predicatesOf (rows : List EncodedQuad) (s : TermId) : Finset TermId :=
  ((rows.filter (·.subject = s)).map (·.predicate)).toFinset

def subjectsOf (rows : List EncodedQuad) : Finset TermId := (rows.map (·.subject)).toFinset

/-- The shape of a subject: its predicates in order. -/
def shapeOf (rows : List EncodedQuad) (s : TermId) : List TermId := (predicatesOf rows s).sort (· ≤ ·)

/-- The subjects that have a predicate. -/
def subjectsHaving (rows : List EncodedQuad) (p : TermId) : Finset TermId := (subjectsOf rows).filter (p ∈ predicatesOf rows ·)

/-- The subjects of a shape. -/
def subjectsWith (rows : List EncodedQuad) (key : List TermId) : Finset TermId := (subjectsOf rows).filter (shapeOf rows · = key)

theorem mem_predicatesOf {rows : List EncodedQuad} {s p : TermId} :
    p ∈ predicatesOf rows s ↔ ∃ q ∈ rows, q.subject = s ∧ q.predicate = p := by
  simp [predicatesOf, and_assoc]

theorem mem_subjectsOf {rows : List EncodedQuad} {s : TermId} : s ∈ subjectsOf rows ↔ ∃ q ∈ rows, q.subject = s := by
  simp [subjectsOf]

/-! ## One subject more -/

/-- The quads of one subject, which the rows before have not. -/
structure Group (rows group : List EncodedQuad) (s : TermId) : Prop where
  subject : ∀ q ∈ group, q.subject = s
  new : ∀ q ∈ rows, q.subject ≠ s
  nonempty : group ≠ []

variable {rows group : List EncodedQuad} {s : TermId} {current : List (TermId × Nat)}

theorem Group.subjectsOf_append (h : Group rows group s) : subjectsOf (rows ++ group) = insert s (subjectsOf rows) := by
  ext x
  rw [Finset.mem_insert, mem_subjectsOf, mem_subjectsOf]
  constructor
  · rintro ⟨q, hq, rfl⟩
    rcases List.mem_append.1 hq with hq | hq
    · exact .inr ⟨q, hq, rfl⟩
    · exact .inl (h.subject q hq)
  · rintro (rfl | ⟨q, hq, rfl⟩)
    · obtain ⟨q, hq⟩ := List.exists_mem_of_ne_nil _ h.nonempty
      exact ⟨q, List.mem_append_right _ hq, h.subject q hq⟩
    · exact ⟨q, List.mem_append_left _ hq, rfl⟩

theorem Group.not_mem (h : Group rows group s) : s ∉ subjectsOf rows := by
  rw [mem_subjectsOf]
  rintro ⟨q, hq, he⟩
  exact h.new q hq he

theorem Group.predicatesOf_self (h : Group rows group s) :
    predicatesOf (rows ++ group) s = (group.map (·.predicate)).toFinset := by
  ext p
  rw [mem_predicatesOf, List.mem_toFinset, List.mem_map]
  constructor
  · rintro ⟨q, hq, hs, hp⟩
    rcases List.mem_append.1 hq with hq | hq
    · exact absurd hs (h.new q hq)
    · exact ⟨q, hq, hp⟩
  · rintro ⟨q, hq, hp⟩
    exact ⟨q, List.mem_append_right _ hq, h.subject q hq, hp⟩

theorem Group.predicatesOf_other (h : Group rows group s) {x : TermId} (hx : x ≠ s) :
    predicatesOf (rows ++ group) x = predicatesOf rows x := by
  ext p
  rw [mem_predicatesOf, mem_predicatesOf]
  constructor
  · rintro ⟨q, hq, hs, hp⟩
    rcases List.mem_append.1 hq with hq | hq
    · exact ⟨q, hq, hs, hp⟩
    · exact absurd (hs.symm.trans (h.subject q hq)) hx
  · rintro ⟨q, hq, hs, hp⟩
    exact ⟨q, List.mem_append_left _ hq, hs, hp⟩

theorem Group.shapeOf_self (h : Group rows group s) :
    shapeOf (rows ++ group) s = ((group.map (·.predicate)).toFinset).sort (· ≤ ·) := by
  unfold shapeOf
  rw [h.predicatesOf_self]

theorem Group.shapeOf_other (h : Group rows group s) {x : TermId} (hx : x ∈ subjectsOf rows) :
    shapeOf (rows ++ group) x = shapeOf rows x := by
  unfold shapeOf
  rw [h.predicatesOf_other]
  rintro rfl
  exact h.not_mem hx

/-- A subject of the shape is counted once more, and no other shape gets one. -/
theorem Group.subjectsWith_append (h : Group rows group s) (key : List TermId) :
    subjectsWith (rows ++ group) key =
      if shapeOf (rows ++ group) s = key then insert s (subjectsWith rows key) else subjectsWith rows key := by
  have hold : (subjectsOf rows).filter (shapeOf (rows ++ group) · = key) = subjectsWith rows key := by
    apply Finset.filter_congr
    intro x hx
    rw [h.shapeOf_other hx]
  unfold subjectsWith at hold ⊢
  rw [h.subjectsOf_append, Finset.filter_insert, hold]

theorem Group.subjectsHaving_append (h : Group rows group s) (p : TermId) :
    subjectsHaving (rows ++ group) p =
      if ∃ q ∈ group, q.predicate = p then insert s (subjectsHaving rows p) else subjectsHaving rows p := by
  have hold : (subjectsOf rows).filter (p ∈ predicatesOf (rows ++ group) ·) = subjectsHaving rows p := by
    apply Finset.filter_congr
    intro x hx
    rw [h.predicatesOf_other]
    rintro rfl
    exact h.not_mem hx
  have hself : p ∈ predicatesOf (rows ++ group) s ↔ ∃ q ∈ group, q.predicate = p := by
    rw [h.predicatesOf_self, List.mem_toFinset, List.mem_map]
  unfold subjectsHaving at hold ⊢
  rw [h.subjectsOf_append, Finset.filter_insert, hold]
  simp only [hself]

theorem Group.not_having (h : Group rows group s) (p : TermId) : s ∉ subjectsHaving rows p :=
  fun hm => h.not_mem (Finset.mem_filter.1 hm).1

theorem Group.not_with (h : Group rows group s) (key : List TermId) : s ∉ subjectsWith rows key :=
  fun hm => h.not_mem (Finset.mem_filter.1 hm).1

/-! ## The quads closed so far -/

/-- The quads of the subjects of a shape that have a predicate. -/
def occurrencesOf (rows : List EncodedQuad) (key : List TermId) (p : TermId) : Nat :=
  rows.countP fun q => shapeOf rows q.subject = key ∧ q.predicate = p

theorem Group.occurrencesOf_append (h : Group rows group s) (key : List TermId) (p : TermId) :
    occurrencesOf (rows ++ group) key p = occurrencesOf rows key p +
      if shapeOf (rows ++ group) s = key then group.countP (·.predicate = p) else 0 := by
  unfold occurrencesOf
  rw [List.countP_append]
  congr 1
  · apply List.countP_congr
    intro q hq
    rw [h.shapeOf_other (mem_subjectsOf.2 ⟨q, hq, rfl⟩)]
  · split
    · rename_i hkey
      apply List.countP_congr
      intro q hq
      rw [h.subject q hq]
      simp [hkey]
    · rename_i hkey
      rw [List.countP_eq_zero]
      intro q hq
      rw [h.subject q hq]
      simp [hkey]

@[simp] theorem getD_nonzero (n : Nat) : (nonzero n).getD 0 = n := by
  unfold nonzero
  split
  · rename_i h
    rw [h]
    rfl
  · rfl

theorem nonzero_succ (n : Nat) : nonzero (n + 1) = some (n + 1) := if_neg (Nat.succ_ne_zero n)

theorem isSome_nonzero {n : Nat} : (nonzero n).isSome ↔ 0 < n := by
  cases n with
  | zero => simp [nonzero]
  | succ n => simp [nonzero_succ]

theorem nonzero_eq_none {n : Nat} : nonzero n = none ↔ n = 0 := by
  cases n with
  | zero => simp [nonzero]
  | succ n => simp [nonzero_succ]

/-- The predicates of quads, counted. -/
structure Counts (group : List EncodedQuad) (current : List (TermId × Nat)) : Prop where
  keyed : Keyed current
  count : ∀ p, value p current = nonzero (group.countP (·.predicate = p))

theorem Counts.mem_keys (h : Counts group current) {p : TermId} : p ∈ current.map Prod.fst ↔ ∃ q ∈ group, q.predicate = p := by
  rw [← value_isSome, h.count, isSome_nonzero, List.countP_pos_iff]
  simp only [decide_eq_true_eq]

theorem Counts.nil : Counts [] [] := ⟨List.nodup_nil, fun _ => rfl⟩

theorem Counts.concat (h : Counts group current) (q : EncodedQuad) :
    Counts (group ++ [q]) (entry 0 (· + 1) q.predicate current) := by
  refine ⟨h.keyed.entry _ _ _, fun p => ?_⟩
  rw [value_entry, h.count, h.count, getD_nonzero, List.countP_append, List.countP_singleton]
  by_cases hp : p = q.predicate
  · rw [if_pos hp, ← hp, if_pos (by simp), nonzero_succ]
  · rw [if_neg hp, if_neg (by simpa using Ne.symm hp), Nat.add_zero]

/-- The sorted keys of the counts are the shape of the subject. -/
theorem Counts.key_eq (h : Counts group current) (hg : Group rows group s) :
    (current.map Prod.fst).insertionSort (· ≤ ·) = shapeOf (rows ++ group) s := by
  have hperm := List.perm_insertionSort (· ≤ ·) (current.map Prod.fst)
  have hnodup : ((current.map Prod.fst).insertionSort (· ≤ ·)).Nodup := hperm.nodup_iff.2 h.keyed
  have hset : (group.map (·.predicate)).toFinset = ((current.map Prod.fst).insertionSort (· ≤ ·)).toFinset := by
    ext p
    rw [List.mem_toFinset, List.mem_toFinset, hperm.mem_iff, h.mem_keys, List.mem_map]
  rw [hg.shapeOf_self, hset]
  exact ((List.toFinset_sort (· ≤ ·) hnodup).2 (List.pairwise_insertionSort _ _)).symm

/-- What the pass has of the quads closed so far. -/
structure Closed (rows : List EncodedQuad) (st : Building) : Prop where
  totalSubjects : st.totalSubjects = (subjectsOf rows).card
  subjectsKeyed : Keyed st.distinctSubjects
  subjects : ∀ p, value p st.distinctSubjects = nonzero (subjectsHaving rows p).card
  shapesKeyed : Keyed st.shapes
  shape : ∀ key, (value key st.shapes).map (·.1) = nonzero (subjectsWith rows key).card
  occurrencesKeyed : ∀ key e, value key st.shapes = some e → Keyed e.2
  occurrences : ∀ key e, value key st.shapes = some e → ∀ p, value p e.2 = nonzero (occurrencesOf rows key p)

/-- The occurrences of a shape, which are none where no subject has it. -/
theorem Closed.occurrences_getD {st : Building} (h : Closed rows st) (key : List TermId) (p : TermId) :
    value p ((value key st.shapes).getD (0, [])).2 = nonzero (occurrencesOf rows key p) := by
  cases hv : value key st.shapes with
  | some e => exact h.occurrences key e hv p
  | none =>
    have hnone := h.shape key
    rw [hv] at hnone
    have hempty := Finset.card_eq_zero.1 (nonzero_eq_none.1 hnone.symm)
    have hzero : occurrencesOf rows key p = 0 := by
      unfold occurrencesOf
      rw [List.countP_eq_zero]
      intro q hq hmatch
      have hkey := (of_decide_eq_true hmatch).1
      have hmem : q.subject ∈ subjectsWith rows key := Finset.mem_filter.2 ⟨mem_subjectsOf.2 ⟨q, hq, rfl⟩, hkey⟩
      rw [hempty] at hmem
      exact Finset.notMem_empty _ hmem
    rw [hzero]
    rfl

/-- Closing a subject closes its quads. -/
theorem Closed.close {st : Building} (h : Closed rows st) (hg : Group rows group s) (hs : st.currentSubject = some s)
    (hc : Counts group st.current) : Closed (rows ++ group) st.close := by
  have hne : st.current.isEmpty = false := by
    obtain ⟨q, hq⟩ := List.exists_mem_of_ne_nil _ hg.nonempty
    have hk := hc.mem_keys.2 ⟨q, hq, rfl⟩
    rw [List.isEmpty_eq_false_iff]
    intro he
    rw [he] at hk
    cases hk
  have hkey := hc.key_eq hg
  have hclose : st.close = { st with
      shapes := entry (0, []) (fun e => (e.1 + 1, st.current.foldl (fun m x => entry 0 (· + x.2) x.1 m) e.2))
        (shapeOf (rows ++ group) s) st.shapes
      distinctSubjects := st.current.foldl (fun m x => entry 0 (· + 1) x.1 m) st.distinctSubjects
      totalSubjects := st.totalSubjects + 1
      current := [] } := by
    unfold Building.close
    rw [hs, hne, ← hkey]
    rfl
  rw [hclose]
  constructor
  · dsimp only
    rw [h.totalSubjects, hg.subjectsOf_append, Finset.card_insert_of_notMem hg.not_mem]
  · exact h.subjectsKeyed.foldl_entry st.current 0 (fun _ => (· + 1)) Prod.fst
  · intro p
    dsimp only
    rw [value_foldl_entry hc.keyed 0 (fun _ => (· + 1)), h.subjects, getD_nonzero, hc.count, hg.subjectsHaving_append]
    by_cases hp : ∃ q ∈ group, q.predicate = p
    · have hpos : 0 < group.countP (·.predicate = p) := by
        rw [List.countP_pos_iff]
        simpa using hp
      rw [if_pos hp, Finset.card_insert_of_notMem (hg.not_having p), nonzero_succ, nonzero, if_neg (by omega)]
    · have hzero : group.countP (·.predicate = p) = 0 := by
        rw [List.countP_eq_zero]
        simpa using hp
      rw [if_neg hp, hzero]
      rfl
  · exact h.shapesKeyed.entry _ _ _
  · intro key
    dsimp only
    rw [value_entry, hg.subjectsWith_append]
    by_cases hk : key = shapeOf (rows ++ group) s
    · rw [if_pos hk, if_pos hk.symm, Finset.card_insert_of_notMem (hg.not_with key), nonzero_succ]
      have hold := h.shape (shapeOf (rows ++ group) s)
      rw [← hk] at hold ⊢
      cases hv : value key st.shapes with
      | none =>
        rw [hv] at hold
        rw [nonzero_eq_none.1 hold.symm]
        rfl
      | some e =>
        rw [hv] at hold
        have hn := congrArg (·.getD 0) hold
        rw [getD_nonzero] at hn
        rw [← hn]
        rfl
    · rw [if_neg hk, if_neg (Ne.symm hk)]
      exact h.shape key
  · intro key e he
    dsimp only at he
    rw [value_entry] at he
    split at he
    · cases he
      apply Keyed.foldl_entry
      cases hv : value (shapeOf (rows ++ group) s) st.shapes with
      | none => exact List.nodup_nil
      | some e => exact h.occurrencesKeyed _ e hv
    · exact h.occurrencesKeyed key e he
  · intro key e he p
    dsimp only at he
    rw [value_entry] at he
    rw [hg.occurrencesOf_append]
    split at he
    · rename_i hk
      cases he
      rw [if_pos hk.symm, value_foldl_entry hc.keyed 0 (fun c => (· + c)), hc.count, h.occurrences_getD, getD_nonzero, ← hk]
      cases hn : group.countP (·.predicate = p) with
      | zero => rfl
      | succ n =>
        rw [nonzero_succ, ← Nat.add_assoc, nonzero_succ]
        rfl
    · rename_i hk
      rw [if_neg (Ne.symm hk), Nat.add_zero]
      exact h.occurrences key e he p

@[simp] theorem close_totalTriples (st : Building) : st.close.totalTriples = st.totalTriples := by
  unfold Building.close
  split <;> rfl

@[simp] theorem close_predicates (st : Building) : st.close.predicates = st.predicates := by
  unfold Building.close
  split <;> rfl

@[simp] theorem close_distinctObjects (st : Building) : st.close.distinctObjects = st.distinctObjects := by
  unfold Building.close
  split <;> rfl

@[simp] theorem close_current (st : Building) : st.close.current = [] := by
  unfold Building.close
  split <;> rfl

/-! ## What is counted as the quads come -/

/-- The sketch of a list of values. -/
def sketchOf (os : List TermId) : DistinctCount := os.foldl DistinctCount.add DistinctCount.default

/-- The objects of a predicate, as they come. -/
def objectsOf (rows : List EncodedQuad) (p : TermId) : List TermId := (rows.filter (·.predicate = p)).map (·.object)

structure Running (rows : List EncodedQuad) (st : Building) : Prop where
  totalTriples : st.totalTriples = rows.length
  predicatesKeyed : Keyed st.predicates
  triples : ∀ p, value p st.predicates = (nonzero (rows.countP (·.predicate = p))).map (⟨·, 0, 0⟩)
  objectsKeyed : Keyed st.distinctObjects
  objects : ∀ p, value p st.distinctObjects = (nonzero (rows.countP (·.predicate = p))).map fun _ => sketchOf (objectsOf rows p)

theorem objectsOf_concat (rows : List EncodedQuad) (q : EncodedQuad) (p : TermId) :
    objectsOf (rows ++ [q]) p = if q.predicate = p then objectsOf rows p ++ [q.object] else objectsOf rows p := by
  unfold objectsOf
  rw [List.filter_append, List.map_append]
  by_cases h : q.predicate = p
  · simp [h]
  · simp [h]

theorem objectsOf_eq_nil {rows : List EncodedQuad} {p : TermId} (h : rows.countP (·.predicate = p) = 0) : objectsOf rows p = [] := by
  unfold objectsOf
  rw [List.countP_eq_length_filter, List.length_eq_zero_iff] at h
  rw [h]
  rfl

theorem Running.concat {st : Building} (h : Running rows st) (q : EncodedQuad) : Running (rows ++ [q]) (st.visit q) := by
  have htotal : (st.visit q).totalTriples = st.totalTriples + 1 := by
    unfold Building.visit
    dsimp only
    split <;> simp
  have hpred : (st.visit q).predicates =
      entry PredicateStats.default (fun s => { s with triples := s.triples + 1 }) q.predicate st.predicates := by
    unfold Building.visit
    dsimp only
    split <;> simp
  have hobj : (st.visit q).distinctObjects = entry DistinctCount.default (·.add q.object) q.predicate st.distinctObjects := by
    unfold Building.visit
    dsimp only
    split <;> simp
  have hcount : ∀ p, (rows ++ [q]).countP (·.predicate = p) = rows.countP (·.predicate = p) + if q.predicate = p then 1 else 0 := by
    intro p
    rw [List.countP_append, List.countP_singleton]
    simp
  constructor
  · rw [htotal, h.totalTriples, List.length_append, List.length_singleton]
  · rw [hpred]
    exact h.predicatesKeyed.entry _ _ _
  · intro p
    rw [hpred, value_entry, h.triples, h.triples, hcount]
    by_cases hp : p = q.predicate
    · rw [if_pos hp, if_pos hp.symm, ← hp, nonzero_succ]
      cases hn : rows.countP (·.predicate = p) with
      | zero => rfl
      | succ n =>
        rw [nonzero_succ]
        rfl
    · rw [if_neg hp, if_neg (Ne.symm hp), Nat.add_zero]
  · rw [hobj]
    exact h.objectsKeyed.entry _ _ _
  · intro p
    rw [hobj, value_entry, h.objects, h.objects, hcount, objectsOf_concat]
    by_cases hp : p = q.predicate
    · rw [if_pos hp, if_pos hp.symm, if_pos hp.symm, ← hp, nonzero_succ]
      cases hn : rows.countP (·.predicate = p) with
      | zero =>
        rw [objectsOf_eq_nil hn]
        rfl
      | succ n =>
        rw [nonzero_succ]
        simp [sketchOf]
    · rw [if_neg hp, if_neg (Ne.symm hp), if_neg (Ne.symm hp), Nat.add_zero]

/-! ## The pass -/

/-- The state of the pass: the quads closed so far, and those of the subject at hand. -/
structure Scanned (rows group : List EncodedQuad) (st : Building) : Prop where
  running : Running (rows ++ group) st
  closed : Closed rows st
  counts : Counts group st.current
  place : rows = [] ∧ group = [] ∧ st.currentSubject = none ∨ ∃ s, st.currentSubject = some s ∧ Group rows group s

theorem Scanned.start : Scanned [] [] Building.start := by
  refine ⟨⟨rfl, List.nodup_nil, fun _ => rfl, List.nodup_nil, fun _ => rfl⟩, ?_, Counts.nil, .inl ⟨rfl, rfl, rfl⟩⟩
  refine ⟨rfl, List.nodup_nil, fun _ => rfl, List.nodup_nil, fun _ => rfl, ?_, ?_⟩
  · intro key e h
    cases h
  · intro key e h
    cases h

theorem Closed.congr {st st' : Building} (h : Closed rows st) (ht : st'.totalSubjects = st.totalSubjects)
    (hd : st'.distinctSubjects = st.distinctSubjects) (hs : st'.shapes = st.shapes) : Closed rows st' := by
  obtain ⟨h₁, h₂, h₃, h₄, h₅, h₆, h₇⟩ := h
  constructor
  · rwa [ht]
  · rwa [hd]
  · rwa [hd]
  · rwa [hs]
  · rwa [hs]
  · rwa [hs]
  · rwa [hs]

/-- Closing the subject at hand, if there is one. -/
theorem Scanned.close {st : Building} (h : Scanned rows group st) : Closed (rows ++ group) st.close := by
  rcases h.place with ⟨rfl, rfl, hs⟩ | ⟨s, hs, hg⟩
  · have hclose : st.close = { st with current := [] } := by
      unfold Building.close
      rw [hs]
      rfl
    rw [hclose]
    exact h.closed.congr rfl rfl rfl
  · exact h.closed.close hg hs h.counts

/-- One quad more: of the subject at hand, or of one that is new. -/
theorem Scanned.visit {st : Building} (h : Scanned rows group st) (q : EncodedQuad)
    (hnew : st.currentSubject ≠ some q.subject → ∀ q' ∈ rows ++ group, q'.subject ≠ q.subject) :
    ∃ rows' group', rows' ++ group' = rows ++ group ++ [q] ∧ Scanned rows' group' (st.visit q) ∧
      (st.visit q).currentSubject = some q.subject := by
  have hrun := h.running.concat q
  by_cases hs : st.currentSubject = some q.subject
  · refine ⟨rows, group ++ [q], by rw [List.append_assoc], ?_, ?_⟩
    · have hvisit : (st.visit q).shapes = st.shapes ∧ (st.visit q).distinctSubjects = st.distinctSubjects ∧
          (st.visit q).totalSubjects = st.totalSubjects ∧ (st.visit q).current = entry 0 (· + 1) q.predicate st.current ∧
          (st.visit q).currentSubject = some q.subject := by
        unfold Building.visit
        simp [hs]
      obtain ⟨hshapes, hdistinct, htotal, hcurrent, hsubject⟩ := hvisit
      refine ⟨by rwa [← List.append_assoc], h.closed.congr htotal hdistinct hshapes, ?_, .inr ⟨q.subject, hsubject, ?_⟩⟩
      · rw [hcurrent]
        exact h.counts.concat q
      · rcases h.place with ⟨-, -, hnone⟩ | ⟨s, hsome, hg⟩
        · rw [hnone] at hs
          cases hs
        · rw [hs] at hsome
          cases hsome
          refine ⟨fun q' hq' => ?_, hg.new, by simp⟩
          rcases List.mem_append.1 hq' with hq' | hq'
          · exact hg.subject q' hq'
          · rw [List.mem_singleton.1 hq']
    · unfold Building.visit
      simp [hs]
  · have hsubject : (st.visit q).currentSubject = some q.subject := by
      unfold Building.visit
      simp [hs]
    have hcurrent : (st.visit q).current = entry 0 (· + 1) q.predicate [] := by
      unfold Building.visit
      simp [hs]
    have hclosed : Closed (rows ++ group) (st.visit q) := by
      let st₁ : Building := { st with
        totalTriples := st.totalTriples + 1
        predicates := entry PredicateStats.default (fun s => { s with triples := s.triples + 1 }) q.predicate st.predicates
        distinctObjects := entry DistinctCount.default (·.add q.object) q.predicate st.distinctObjects }
      have hscan : Closed (rows ++ group) st₁.close := by
        rcases h.place with ⟨rfl, rfl, hnone⟩ | ⟨s, hsome, hg⟩
        · have hclose : st₁.close = { st₁ with current := [] } := by
            unfold Building.close
            rw [show st₁.currentSubject = none from hnone]
            rfl
          rw [hclose]
          exact h.closed.congr rfl rfl rfl
        · exact Closed.close (h.closed.congr rfl rfl rfl) hg hsome h.counts
      have hvisit : st.visit q = { st₁.close with
          currentSubject := some q.subject
          current := entry 0 (· + 1) q.predicate st₁.close.current } := by
        unfold Building.visit
        simp [hs, st₁]
      rw [hvisit]
      exact hscan.congr rfl rfl rfl
    refine ⟨rows ++ group, [q], rfl, ⟨hrun, hclosed, ?_, .inr ⟨q.subject, hsubject, ?_⟩⟩, hsubject⟩
    · rw [hcurrent]
      exact Counts.nil.concat q
    · exact ⟨fun q' hq' => by rw [List.mem_singleton.1 hq'], hnew hs, by simp⟩

/-- The whole pass over quads in order of their subjects. A subject that has been passed does
not come again: it is at most the one at hand, which is before the next. -/
theorem scanned_foldl {rows : List EncodedQuad} (h : rows.Pairwise (·.subject ≤ ·.subject)) :
    ∃ done group, done ++ group = rows ∧ Scanned done group (rows.foldl Building.visit Building.start) := by
  induction rows using List.reverseRecOn with
  | nil => exact ⟨[], [], rfl, Scanned.start⟩
  | append_singleton rows q ih =>
    obtain ⟨hrows, -, hlast⟩ := List.pairwise_append.1 h
    obtain ⟨done, group, rfl, hscan⟩ := ih hrows
    rw [List.foldl_append]
    have hnew : ((done ++ group).foldl Building.visit Building.start).currentSubject ≠ some q.subject →
        ∀ q' ∈ done ++ group, q'.subject ≠ q.subject := by
      intro hne q' hq' he
      rcases hscan.place with ⟨rfl, rfl, -⟩ | ⟨s, hs, hg⟩
      · cases hq'
      · obtain ⟨g, hgm⟩ := List.exists_mem_of_ne_nil _ hg.nonempty
        have hle : q'.subject ≤ s := by
          rcases List.mem_append.1 hq' with hm | hm
          · rw [← hg.subject g hgm]
            exact (List.pairwise_append.1 hrows).2.2 q' hm g hgm
          · exact (hg.subject q' hm).le
        have hge : s ≤ q.subject := by
          rw [← hg.subject g hgm]
          exact hlast g (List.mem_append_right _ hgm) q (List.mem_singleton.2 rfl)
        apply hne
        rw [hs, le_antisymm hge (he ▸ hle)]
    obtain ⟨done', group', happ, hvisit, -⟩ := hscan.visit q hnew
    exact ⟨done', group', happ, hvisit⟩

/-! ## What the statistics are -/

/-- The predicates of a subject, in a set of quads. -/
def shapeIn (quads : Finset EncodedQuad) (s : TermId) : Finset TermId := (quads.filter (·.subject = s)).image (·.predicate)

/-- The indices of the sets that carry a predicate. -/
def carrying (sets : List CharacteristicSet) (p : TermId) : List Nat :=
  (sets.zipIdx.filter (p ∈ ·.1.predicates)).map (·.2)

theorem mem_carrying {sets : List CharacteristicSet} {p : TermId} {i : Nat} :
    i ∈ carrying sets p ↔ ∃ set, sets[i]? = some set ∧ p ∈ set.predicates := by
  unfold carrying
  simp only [List.mem_map, List.mem_filter, decide_eq_true_eq, Prod.exists, List.mem_zipIdx_iff_getElem?]
  constructor
  · rintro ⟨set, j, ⟨hj, hp⟩, rfl⟩
    exact ⟨set, hj, hp⟩
  · rintro ⟨set, hi, hp⟩
    exact ⟨set, i, ⟨hi, hp⟩, rfl⟩

/-- The statistics are those of a set of quads. -/
structure Exact (estimate : DistinctCount → Nat) (quads : Finset EncodedQuad) (stats : Statistics) : Prop where
  totalTriples : stats.totalTriples = quads.card
  totalSubjects : stats.totalSubjects = (quads.image (·.subject)).card
  /-- A predicate is counted exactly where it occurs. -/
  listed : Keyed stats.predicates ∧ ∀ p, (value p stats.predicates).isSome ↔ p ∈ quads.image (·.predicate)
  triples : ∀ p e, value p stats.predicates = some e → e.triples = (quads.filter (·.predicate = p)).card
  subjects : ∀ p e, value p stats.predicates = some e → e.subjects = ((quads.filter (·.predicate = p)).image (·.subject)).card
  /-- In whatever order its objects come, and however often. -/
  objects : ∀ p e, value p stats.predicates = some e → ∀ os : List TermId,
    os.toFinset = (quads.filter (·.predicate = p)).image (·.object) → e.objects = estimate (sketchOf os)
  /-- There is one set for each shape some subject has. -/
  sorted : ∀ set ∈ stats.sets, set.predicates.Pairwise (· < ·)
  distinct : (stats.sets.map (·.predicates)).Nodup
  shapes : ∀ P, (∃ set ∈ stats.sets, set.predicates.toFinset = P) ↔ ∃ q ∈ quads, shapeIn quads q.subject = P
  members : ∀ set ∈ stats.sets, set.subjects =
    ((quads.image (·.subject)).filter (shapeIn quads · = set.predicates.toFinset)).card
  occurrences : ∀ set ∈ stats.sets, Keyed set.occurrences ∧ ∀ p, value p set.occurrences =
    if p ∈ set.predicates then
      some (quads.filter fun q => shapeIn quads q.subject = set.predicates.toFinset ∧ q.predicate = p).card
    else none
  /-- The index has each predicate of a set, with the sets that carry it. -/
  indexed : Keyed stats.byPredicate ∧ ∀ p, (value p stats.byPredicate).getD [] = carrying stats.sets p ∧
    ((value p stats.byPredicate).isSome ↔ ∃ set ∈ stats.sets, p ∈ set.predicates)

theorem carrying_concat (sets : List CharacteristicSet) (set : CharacteristicSet) (p : TermId) :
    carrying (sets ++ [set]) p = carrying sets p ++ if p ∈ set.predicates then [sets.length] else [] := by
  unfold carrying
  rw [List.zipIdx_append, List.filter_append, List.map_append]
  congr 1
  by_cases hp : p ∈ set.predicates
  · simp [hp]
  · simp [hp]

/-- The index is right of the sets there are. -/
structure Indexed (stats : Statistics) : Prop where
  keyed : Keyed stats.byPredicate
  value : ∀ p, (Lib.value p stats.byPredicate).getD [] = carrying stats.sets p
  isSome : ∀ p, (Lib.value p stats.byPredicate).isSome ↔ ∃ set ∈ stats.sets, p ∈ set.predicates

theorem Indexed.push {stats : Statistics} (h : Indexed stats) {set : CharacteristicSet} (hset : set.predicates.Nodup) :
    Indexed (stats.push set) := by
  constructor
  · exact h.keyed.foldl_entry set.predicates [] (fun _ => (· ++ [stats.sets.length])) id
  · intro p
    unfold Statistics.push
    dsimp only
    rw [value_foldl_keys hset, carrying_concat]
    split
    · rw [Option.getD_some, h.value]
    · rw [h.value, List.append_nil]
  · intro p
    unfold Statistics.push
    dsimp only
    rw [value_foldl_keys hset]
    by_cases hp : p ∈ set.predicates
    · simp [hp]
    · simp [hp, h.isSome]

/-! ## Sketches of sets -/

theorem le_registers_foldl (os : List TermId) (sketch : DistinctCount) (i n : Nat) :
    n ≤ (os.foldl DistinctCount.add sketch).registers i ↔
      n ≤ sketch.registers i ∨ ∃ o ∈ os, registerOf o = i ∧ n ≤ rankOf o := by
  induction os generalizing sketch with
  | nil => simp
  | cons o os ih =>
    have hadd : n ≤ (sketch.add o).registers i ↔ n ≤ sketch.registers i ∨ registerOf o = i ∧ n ≤ rankOf o := by
      unfold DistinctCount.add
      by_cases hi : i = registerOf o
      · subst hi
        simp only [Function.update_self, true_and]
        exact le_max_iff.trans or_comm
      · simp only [Function.update_of_ne hi]
        simp [Ne.symm hi]
    rw [List.foldl_cons, ih, hadd, or_assoc]
    simp only [List.mem_cons, exists_eq_or_imp]

/-- A sketch depends on the set of its values only. -/
theorem sketchOf_congr {os os' : List TermId} (h : os.toFinset = os'.toFinset) : sketchOf os = sketchOf os' := by
  have hmem : ∀ o, o ∈ os ↔ o ∈ os' := by
    intro o
    rw [← List.mem_toFinset, h, List.mem_toFinset]
  unfold sketchOf
  suffices hreg : (os.foldl DistinctCount.add DistinctCount.default).registers =
      (os'.foldl DistinctCount.add DistinctCount.default).registers by
    cases hs : os.foldl DistinctCount.add DistinctCount.default
    cases hs' : os'.foldl DistinctCount.add DistinctCount.default
    rw [hs, hs'] at hreg
    exact congrArg DistinctCount.mk hreg
  funext i
  apply eq_of_forall_le_iff
  intro n
  rw [le_registers_foldl, le_registers_foldl]
  simp only [hmem]

/-! ## The end of the pass -/

section Finish
variable {estimate : DistinctCount → Nat} {generation : Nat} {st : Building}

/-- The predicates as they end up, before the sets. -/
def finishPredicates (estimate : DistinctCount → Nat) (st : Building) : List (TermId × PredicateStats) :=
  st.distinctObjects.foldl (fun m x => entry PredicateStats.default (fun s => { s with objects := estimate x.2 }) x.1 m)
    (st.distinctSubjects.foldl (fun m x => entry PredicateStats.default (fun s => { s with subjects := x.2 }) x.1 m) st.predicates)

def setOf (shape : List TermId × (Nat × List (TermId × Nat))) : CharacteristicSet := ⟨shape.1, shape.2.1, shape.2.2⟩

theorem foldl_push (shapes : List (List TermId × (Nat × List (TermId × Nat)))) (stats : Statistics)
    (hi : Indexed stats) (hkeys : ∀ shape ∈ shapes, shape.1.Nodup) :
    let after := shapes.foldl (fun stats shape => stats.push ⟨shape.1, shape.2.1, shape.2.2⟩) stats
    after.sets = stats.sets ++ shapes.map setOf ∧ Indexed after ∧ after.predicates = stats.predicates ∧
      after.totalTriples = stats.totalTriples ∧ after.totalSubjects = stats.totalSubjects ∧ after.generation = stats.generation := by
  induction shapes generalizing stats with
  | nil => exact ⟨(List.append_nil _).symm, hi, rfl, rfl, rfl, rfl⟩
  | cons shape shapes ih =>
    obtain ⟨hs, h⟩ := ih (stats.push (setOf shape)) (hi.push (hkeys shape List.mem_cons_self))
      (fun x hx => hkeys x (List.mem_cons_of_mem _ hx))
    refine ⟨?_, h⟩
    rw [List.map_cons]
    exact hs.trans (by simp [Statistics.push])

theorem value_finishPredicates (hr : Running rows st) (hc : Closed rows st) (p : TermId) :
    value p (finishPredicates estimate st) = (nonzero (rows.countP (·.predicate = p))).map
      (⟨·, (subjectsHaving rows p).card, estimate (sketchOf (objectsOf rows p))⟩) := by
  unfold finishPredicates
  rw [value_foldl_entry hr.objectsKeyed PredicateStats.default (fun c s => { s with objects := estimate c }),
    value_foldl_entry hc.subjectsKeyed PredicateStats.default (fun c s => { s with subjects := c }), hr.objects, hr.triples, hc.subjects]
  cases hn : rows.countP (·.predicate = p) with
  | zero =>
    have hnone : subjectsHaving rows p = ∅ := by
      apply Finset.filter_eq_empty_iff.2
      intro s _ hm
      obtain ⟨q, hq, -, hp⟩ := mem_predicatesOf.1 hm
      exact absurd (List.countP_eq_zero.1 hn q hq) (by simpa using hp)
    rw [hnone]
    rfl
  | succ n =>
    have hpos : 0 < (subjectsHaving rows p).card := by
      obtain ⟨q, hq, hp⟩ := List.countP_pos_iff.1 (by omega : 0 < rows.countP (·.predicate = p))
      apply Finset.card_pos.2
      exact ⟨q.subject, Finset.mem_filter.2 ⟨mem_subjectsOf.2 ⟨q, hq, rfl⟩, mem_predicatesOf.2 ⟨q, hq, rfl, of_decide_eq_true hp⟩⟩⟩
    obtain ⟨m, hm⟩ := Nat.exists_eq_succ_of_ne_zero hpos.ne'
    rw [nonzero_succ, hm, nonzero_succ]
    rfl

theorem shapeIn_toFinset (rows : List EncodedQuad) (s : TermId) : shapeIn rows.toFinset s = predicatesOf rows s := by
  ext p
  rw [mem_predicatesOf]
  simp [shapeIn, and_assoc]

theorem toFinset_shapeOf (rows : List EncodedQuad) (s : TermId) : (shapeOf rows s).toFinset = predicatesOf rows s :=
  Finset.sort_toFinset _ _

theorem shapeOf_eq_iff {s s' : TermId} : shapeOf rows s = shapeOf rows s' ↔ shapeIn rows.toFinset s = (shapeOf rows s').toFinset := by
  rw [shapeIn_toFinset, toFinset_shapeOf]
  constructor
  · intro h
    rw [← toFinset_shapeOf, h, toFinset_shapeOf]
  · intro h
    unfold shapeOf
    rw [h]

/-- A shape that was closed is that of some subject, and is counted for all of them. -/
theorem Closed.of_mem (hc : Closed rows st) {shape : List TermId × (Nat × List (TermId × Nat))} (h : shape ∈ st.shapes) :
    (∃ s ∈ subjectsOf rows, shape.1 = shapeOf rows s) ∧ shape.2.1 = (subjectsWith rows shape.1).card ∧ Keyed shape.2.2 ∧
      ∀ p, value p shape.2.2 = nonzero (occurrencesOf rows shape.1 p) := by
  have hv := hc.shapesKeyed.value_iff.2 h
  have hn := hc.shape shape.1
  rw [hv] at hn
  have hpos : 0 < (subjectsWith rows shape.1).card := isSome_nonzero.1 (by rw [← hn]; rfl)
  obtain ⟨s, hs⟩ := Finset.card_pos.1 hpos
  have hcard := congrArg (·.getD 0) hn
  rw [getD_nonzero] at hcard
  exact ⟨⟨s, (Finset.mem_filter.1 hs).1, (Finset.mem_filter.1 hs).2.symm⟩, hcard, hc.occurrencesKeyed _ _ hv,
    hc.occurrences _ _ hv⟩

theorem card_filter_eq (hn : rows.Nodup) (P : EncodedQuad → Prop) [DecidablePred P] :
    (rows.toFinset.filter P).card = rows.countP (fun q => decide (P q)) := by
  have hfilter : rows.toFinset.filter P = (rows.filter (fun q => decide (P q))).toFinset := by
    ext q
    simp
  rw [hfilter, List.toFinset_card_of_nodup (hn.filter _), List.countP_eq_length_filter]

theorem subjectsHaving_eq (rows : List EncodedQuad) (p : TermId) :
    subjectsHaving rows p = (rows.toFinset.filter (·.predicate = p)).image (·.subject) := by
  ext s
  simp only [subjectsHaving, Finset.mem_filter, mem_subjectsOf, mem_predicatesOf, Finset.mem_image, List.mem_toFinset]
  constructor
  · rintro ⟨-, q, hq, hs, hp⟩
    exact ⟨q, ⟨hq, hp⟩, hs⟩
  · rintro ⟨q, ⟨hq, hp⟩, hs⟩
    exact ⟨⟨q, hq, hs⟩, q, hq, hs, hp⟩

theorem toFinset_objectsOf (rows : List EncodedQuad) (p : TermId) :
    (objectsOf rows p).toFinset = (rows.toFinset.filter (·.predicate = p)).image (·.object) := by
  ext o
  simp [objectsOf]

theorem subjectsOf_eq (rows : List EncodedQuad) : subjectsOf rows = rows.toFinset.image (·.subject) := by
  ext s
  simp [mem_subjectsOf]

theorem occurrencesOf_eq {s p : TermId} : occurrencesOf rows (shapeOf rows s) p =
    rows.countP fun q => decide (shapeIn rows.toFinset q.subject = (shapeOf rows s).toFinset ∧ q.predicate = p) := by
  unfold occurrencesOf
  simp only [shapeOf_eq_iff]

theorem mem_shapeOf {s p : TermId} : p ∈ shapeOf rows s ↔ ∃ q ∈ rows, q.subject = s ∧ q.predicate = p := by
  rw [← List.mem_toFinset, toFinset_shapeOf, mem_predicatesOf]

theorem occurrencesOf_pos {s p : TermId} (h : p ∈ shapeOf rows s) : 0 < occurrencesOf rows (shapeOf rows s) p := by
  obtain ⟨q, hq, rfl, hp⟩ := mem_shapeOf.1 h
  exact List.countP_pos_iff.2 ⟨q, hq, decide_eq_true ⟨rfl, hp⟩⟩

theorem occurrencesOf_eq_zero {s p : TermId} (h : p ∉ shapeOf rows s) : occurrencesOf rows (shapeOf rows s) p = 0 := by
  apply List.countP_eq_zero.2
  intro q hq hm
  obtain ⟨hs, hp⟩ := of_decide_eq_true hm
  exact h (hs ▸ mem_shapeOf.2 ⟨q, hq, rfl, hp⟩)

/-- What the pass leaves are the statistics of the quads it saw. -/
theorem finish_exact (hn : rows.Nodup) (hr : Running rows st) (hc : Closed rows st) :
    Exact estimate rows.toFinset (st.finish estimate generation) := by
  obtain ⟨hsets, hindexed, hpredicates, htriples, hsubjects, -⟩ := foldl_push st.shapes
    ⟨finishPredicates estimate st, [], [], st.totalTriples, st.totalSubjects, generation⟩
    ⟨List.nodup_nil, fun _ => rfl, fun p => by simp [value]⟩ (by
      intro shape h
      obtain ⟨s, -, hs⟩ := (hc.of_mem h).1
      rw [hs]
      exact Finset.sort_nodup _ _)
  have hfinish : st.finish estimate generation = st.shapes.foldl (fun stats shape => stats.push ⟨shape.1, shape.2.1, shape.2.2⟩)
    ⟨finishPredicates estimate st, [], [], st.totalTriples, st.totalSubjects, generation⟩ := rfl
  rw [← hfinish] at hsets hindexed hpredicates htriples hsubjects
  rw [List.nil_append] at hsets
  have hset : ∀ set ∈ (st.finish estimate generation).sets, ∃ shape ∈ st.shapes, set = setOf shape := by
    intro set h
    rw [hsets] at h
    obtain ⟨shape, hs, rfl⟩ := List.mem_map.1 h
    exact ⟨shape, hs, rfl⟩
  have hvalue : ∀ p e, value p (st.finish estimate generation).predicates = some e →
      e = ⟨rows.countP (·.predicate = p), (subjectsHaving rows p).card, estimate (sketchOf (objectsOf rows p))⟩ := by
    intro p e he
    rw [hpredicates, value_finishPredicates hr hc] at he
    cases hcount : rows.countP (·.predicate = p) with
    | zero =>
      rw [hcount] at he
      cases he
    | succ n =>
      rw [hcount, nonzero_succ] at he
      cases he
      rfl
  constructor
  case totalTriples => rw [htriples, hr.totalTriples, List.toFinset_card_of_nodup hn]
  case totalSubjects => rw [hsubjects, hc.totalSubjects, subjectsOf_eq]
  case listed =>
    rw [hpredicates]
    refine ⟨?_, fun p => ?_⟩
    · exact (hr.predicatesKeyed.foldl_entry st.distinctSubjects _ (fun x s => { s with subjects := x.2 }) Prod.fst).foldl_entry
        st.distinctObjects _ (fun x s => { s with objects := estimate x.2 }) Prod.fst
    · rw [value_finishPredicates hr hc, Option.isSome_map, isSome_nonzero, List.countP_pos_iff]
      simp
  case triples =>
    intro p e he
    rw [hvalue p e he, card_filter_eq hn]
  case subjects =>
    intro p e he
    rw [hvalue p e he, subjectsHaving_eq]
  case objects =>
    intro p e he os hos
    rw [hvalue p e he]
    exact congrArg estimate (sketchOf_congr ((toFinset_objectsOf rows p).trans hos.symm))
  case sorted =>
    intro set h
    obtain ⟨shape, hs, rfl⟩ := hset set h
    obtain ⟨s, -, hkey⟩ := (hc.of_mem hs).1
    rw [show (setOf shape).predicates = shapeOf rows s from hkey]
    exact (Finset.sortedLT_sort (predicatesOf rows s)).pairwise
  case distinct =>
    rw [hsets, List.map_map]
    exact hc.shapesKeyed
  case shapes =>
    intro P
    constructor
    · rintro ⟨set, h, rfl⟩
      obtain ⟨shape, hs, rfl⟩ := hset set h
      obtain ⟨s, hmem, hkey⟩ := (hc.of_mem hs).1
      obtain ⟨q, hq, rfl⟩ := mem_subjectsOf.1 hmem
      refine ⟨q, List.mem_toFinset.2 hq, ?_⟩
      rw [shapeIn_toFinset, ← toFinset_shapeOf, ← hkey]
      rfl
    · rintro ⟨q, hq, rfl⟩
      have hmem : q.subject ∈ subjectsWith rows (shapeOf rows q.subject) :=
        Finset.mem_filter.2 ⟨mem_subjectsOf.2 ⟨q, List.mem_toFinset.1 hq, rfl⟩, rfl⟩
      have hsome : (value (shapeOf rows q.subject) st.shapes).isSome := by
        have hshape := hc.shape (shapeOf rows q.subject)
        rw [← Option.isSome_map (f := (·.1)), hshape, isSome_nonzero]
        exact Finset.card_pos.2 ⟨_, hmem⟩
      obtain ⟨e, he⟩ := Option.isSome_iff_exists.1 hsome
      refine ⟨setOf (shapeOf rows q.subject, e), ?_, ?_⟩
      · rw [hsets]
        exact List.mem_map_of_mem (hc.shapesKeyed.value_iff.1 he)
      · rw [shapeIn_toFinset, ← toFinset_shapeOf]
        rfl
  case members =>
    intro set h
    obtain ⟨shape, hs, rfl⟩ := hset set h
    obtain ⟨⟨s, -, hkey⟩, hcard, -⟩ := hc.of_mem hs
    rw [show (setOf shape).subjects = _ from hcard, show (setOf shape).predicates = shapeOf rows s from hkey, hkey]
    unfold subjectsWith
    rw [subjectsOf_eq]
    simp only [shapeOf_eq_iff]
  case occurrences =>
    intro set h
    obtain ⟨shape, hs, rfl⟩ := hset set h
    obtain ⟨⟨s, hmem, hkey⟩, -, hkeyed, hocc⟩ := hc.of_mem hs
    refine ⟨hkeyed, fun p => ?_⟩
    rw [show (setOf shape).occurrences = shape.2.2 from rfl, hocc p, show (setOf shape).predicates = shapeOf rows s from hkey, hkey,
      card_filter_eq hn, ← occurrencesOf_eq]
    by_cases hp : p ∈ shapeOf rows s
    · obtain ⟨n, hn⟩ := Nat.exists_eq_succ_of_ne_zero (occurrencesOf_pos hp).ne'
      rw [if_pos hp, hn, nonzero_succ]
    · rw [if_neg hp, occurrencesOf_eq_zero hp]
      rfl
  case indexed => exact ⟨hindexed.keyed, fun p => ⟨hindexed.value p, hindexed.isSome p⟩⟩

end Finish

/-! ## Building -/

/-- A scan of one graph comes in order of subjects. -/
theorem subjects_in_order {graph : GraphFilter} (hgraph : graph = .default ∨ ∃ g, graph = .named g)
    (hrows : ∀ q ∈ rows, Index.GraphFilter.admits graph q = true) (h : Index.ScanOrder none none none graph rows) :
    rows.Pairwise (·.subject ≤ ·.subject) := by
  rcases hgraph with rfl | ⟨g, rfl⟩
  · apply List.Pairwise.imp _ h
    intro a b hab
    rcases List.cons_lt_cons_iff.1 hab with hlt | ⟨he, -⟩
    · exact hlt.le
    · exact he.le
  · apply List.Pairwise.imp_of_mem _ h
    intro a b ha hb hab
    have hga : a.graphName = some g := of_decide_eq_true (hrows a ha)
    have hgb : b.graphName = some g := of_decide_eq_true (hrows b hb)
    unfold Index.Order.key at hab
    rw [hga, hgb] at hab
    rcases List.cons_lt_cons_iff.1 hab with hlt | ⟨-, hab⟩
    · exact absurd hlt (lt_irrefl _)
    rcases List.cons_lt_cons_iff.1 hab with hlt | ⟨he, -⟩
    · exact hlt.le
    · exact he.le

variable {B : Backend} {Sim : B.State → Held → Prop} {Open : B.State → Contents × Ids → Prop}

open MemoryStorage in
/-- A store of one quad. -/
def oneQuad : MemoryStorage := ((backend Dictionary.bare).write MemoryStorage.new (.insert ⟨1, 2, 3, none⟩)).2

end Holos.Stats
