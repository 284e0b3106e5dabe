import Holos.Lib.Held
/-!
# Stable sorting, at once or in runs

Sorting the halves of a list and merging them, the left one first on a tie, is sorting the list. So
a heap that has the next element of each of several sorted runs, and prefers the earlier run on a
tie, gives out the stable sort of what the runs were cut from.
-/

namespace Lib.StableSort

open Held (Consistent push)

/-! ## Two halves -/

section Halves

variable {α : Type} {le : α → α → Bool}

/-- Two places of a list are told apart by their numbers. -/
theorem eq_of_zipIdxLE {xs : List α} {a b : α × Nat} (ha : a ∈ xs.zipIdx) (hb : b ∈ xs.zipIdx)
    (hab : List.zipIdxLE le a b = true) (hba : List.zipIdxLE le b a = true) : a = b := by
  have hplace : a.2 = b.2 := by
    unfold List.zipIdxLE at hab hba
    cases h₁ : le a.1 b.1 with
    | false => simp [h₁] at hab
    | true =>
      cases h₂ : le b.1 a.1 with
      | false => simp [h₂] at hba
      | true =>
        simp only [h₁, h₂, if_true, decide_eq_true_eq] at hab hba
        omega
  have ha' := List.mem_zipIdx_iff_getElem?.1 ha
  have hb' := List.mem_zipIdx_iff_getElem?.1 hb
  rw [hplace, hb'] at ha'
  exact Prod.ext (Option.some_inj.1 ha').symm hplace

theorem mergeSort_zipIdx_from (xs : List α) (n : Nat) :
    ((xs.zipIdx n).mergeSort (List.zipIdxLE le)).map (·.1) = xs.mergeSort le := by
  rw [List.zipIdx_eq_map_add, ← List.map_mergeSort (r := List.zipIdxLE le), List.map_map]
  · exact List.mergeSort_zipIdx
  · intro a _ b _
    simp [List.zipIdxLE]

theorem mergeSort_append_of (trans : ∀ a b c, le a b = true → le b c = true → le a c = true)
    (total : ∀ a b, (le a b || le b a) = true) (xs ys : List α) :
    (xs ++ ys).mergeSort le = (xs.mergeSort le).merge (ys.mergeSort le) le := by
  -- numbered, both sides are the one sorted list of the same elements
  have hpaired : (xs ++ ys).zipIdx.mergeSort (List.zipIdxLE le) =
      (xs.zipIdx.mergeSort (List.zipIdxLE le)).merge ((ys.zipIdx xs.length).mergeSort (List.zipIdxLE le)) (List.zipIdxLE le) := by
    have hperm : ((xs.zipIdx.mergeSort (List.zipIdxLE le)).merge ((ys.zipIdx xs.length).mergeSort (List.zipIdxLE le))
        (List.zipIdxLE le)).Perm (xs ++ ys).zipIdx := by
      rw [List.zipIdx_append, Nat.zero_add]
      exact (List.merge_perm_append _).trans ((List.mergeSort_perm _ _).append (List.mergeSort_perm _ _))
    refine @List.Perm.eq_of_pairwise _ (fun a b => List.zipIdxLE le a b = true) _ _ ?_
      (List.pairwise_mergeSort (List.zipIdxLE_trans trans) (List.zipIdxLE_total total) _)
      (List.pairwise_merge (List.zipIdxLE_trans trans) (List.zipIdxLE_total total) _ _
        (List.pairwise_mergeSort (List.zipIdxLE_trans trans) (List.zipIdxLE_total total) _)
        (List.pairwise_mergeSort (List.zipIdxLE_trans trans) (List.zipIdxLE_total total) _))
      ((List.mergeSort_perm _ _).trans hperm.symm)
    intro a b ha hb
    exact eq_of_zipIdxLE (List.mem_mergeSort.1 ha) (hperm.mem_iff.1 hb)
  rw [← List.mergeSort_zipIdx, hpaired, List.merge_stable, List.mergeSort_zipIdx, mergeSort_zipIdx_from]
  intro x y hx hy
  have hx' := (List.mem_zipIdx (List.mem_mergeSort.1 hx)).2.1
  have hy' := (List.mem_zipIdx (List.mem_mergeSort.1 hy)).1
  omega

end Halves

variable {α : Type} {cmp : α → α → Ordering} {s : α → Prop}

/-- Not after. -/
def le (cmp : α → α → Ordering) (a b : α) : Bool := (cmp a b).isLE

/-- The same where only the elements at hand can be compared. -/
theorem mergeSort_append (h : Consistent cmp s) {xs ys : List α} (hs : ∀ a ∈ xs ++ ys, s a) :
    (xs ++ ys).mergeSort (le cmp) = (xs.mergeSort (le cmp)).merge (ys.mergeSort (le cmp)) (le cmp) := by
  obtain ⟨xs', rfl⟩ : ∃ xs' : List {a // s a}, xs'.map Subtype.val = xs :=
    ⟨xs.attachWith s (fun a ha => hs a (List.mem_append_left _ ha)), List.attachWith_map_subtype_val _⟩
  obtain ⟨ys', rfl⟩ : ∃ ys' : List {a // s a}, ys'.map Subtype.val = ys :=
    ⟨ys.attachWith s (fun a ha => hs a (List.mem_append_right _ ha)), List.attachWith_map_subtype_val _⟩
  have hsort : ∀ zs : List {a // s a}, (zs.mergeSort (fun a b => le cmp a b)).map Subtype.val = (zs.map Subtype.val).mergeSort (le cmp) :=
    fun zs => List.map_mergeSort (fun _ _ _ _ => rfl)
  rw [← List.map_append, ← hsort, mergeSort_append_of, List.map_merge (s := le cmp) (fun _ _ _ _ => rfl), hsort, hsort]
  · intro a b c hab hbc
    exact Ordering.ne_gt_iff_isLE.1 (h.trans a b c a.2 b.2 c.2 (Ordering.ne_gt_iff_isLE.2 hab) (Ordering.ne_gt_iff_isLE.2 hbc))
  · intro a b
    unfold le
    rw [h.swap a b a.2 b.2]
    cases cmp a.1 b.1 <;> rfl

/-- One element, merged into a list that comes before it. -/
theorem merge_singleton (h : Consistent cmp s) {x : α} {xs : List α} (hx : s x) (hs : ∀ a ∈ xs, s a) :
    xs.merge [x] (le cmp) = push cmp x xs := by
  induction xs with
  | nil => simp [push]
  | cons y xs ih =>
    have hy : le cmp y x = true ↔ ¬cmp x y = .lt := by
      unfold le
      rw [h.swap x y hx (hs y List.mem_cons_self)]
      cases cmp x y <;> decide
    unfold push at ih ⊢
    rw [List.cons_merge_cons, List.orderedInsert_cons]
    by_cases hlt : cmp x y = .lt
    · rw [if_pos hlt, if_neg (by rw [hy]; exact fun hnot => hnot hlt), List.merge_right]
    · rw [if_neg hlt, if_pos (hy.2 hlt), ih (fun a ha => hs a (List.mem_cons_of_mem _ ha))]

/-- Putting one element after the other in its place is the stable sort. -/
theorem sorted_eq (h : Consistent cmp s) {xs : List α} (hs : ∀ a ∈ xs, s a) : Held.sorted cmp xs = xs.mergeSort (le cmp) := by
  induction xs using List.reverseRecOn with
  | nil => simp [Held.sorted]
  | append_singleton xs x ih =>
    have hxs : ∀ a ∈ xs, s a := fun a ha => hs a (List.mem_append_left _ ha)
    rw [Held.sorted_append, ih hxs, mergeSort_append h hs, List.mergeSort_singleton]
    exact (merge_singleton h (hs x (by simp)) (fun a ha => hxs a (List.mem_mergeSort.1 ha))).symm

/-! ## The first few of a stream -/

theorem zipIdxLE_eq (h : Consistent cmp s) {a b : α × Nat} (ha : s a.1) (hb : s b.1) :
    List.zipIdxLE (le cmp) a b = le (Held.byArrival cmp) a b := by
  unfold List.zipIdxLE le Held.byArrival
  rw [h.swap a.1 b.1 ha hb]
  cases cmp a.1 b.1 with
  | lt => rfl
  | gt => rfl
  | eq =>
    change decide (a.2 ≤ b.2) = (compare a.2 b.2).isLE
    rw [Bool.eq_iff_iff, decide_eq_true_eq]
    exact Nat.compare_ne_gt.symm.trans Ordering.ne_gt_iff_isLE

/-- A heap of `held` elements that is offered a stream, with arrival breaking the ties, holds the
first ones of its stable sort. -/
theorem foldl_offer_arrivals (h : Consistent cmp s) (held : Nat) {xs : List α} (hs : ∀ a ∈ xs, s a) :
    (xs.zipIdx.foldl (Held.offer (Held.byArrival cmp) held) []).map (·.1) = (xs.mergeSort (le cmp)).take held := by
  have hplaces : ∀ a ∈ xs.zipIdx, s a.1 := fun a ha => hs a.1 (List.fst_mem_of_mem_zipIdx ha)
  have hsame := @List.map_mergeSort _ _ (List.zipIdxLE (le cmp)) (le (Held.byArrival cmp)) id xs.zipIdx
    (fun a ha b hb => zipIdxLE_eq h (hplaces a ha) (hplaces b hb))
  rw [List.map_id, List.map_id] at hsame
  rw [Held.foldl_offer h.byArrival held hplaces, sorted_eq h.byArrival hplaces, List.map_take, ← hsame, List.mergeSort_zipIdx]

/-! ## One arrangement -/

/-- By an order, with arrival breaking the ties, a list has one arrangement. -/
theorem existsUnique_arrangement (h : Consistent cmp s) {xs : List α} (hs : ∀ a ∈ xs, s a) :
    ∃! out : List (α × Nat), out.Perm xs.zipIdx ∧ out.Pairwise (fun a b => Held.byArrival cmp a b ≠ .gt) := by
  have hplaces : ∀ a ∈ xs.zipIdx, s a.1 := fun a ha => hs a.1 (List.fst_mem_of_mem_zipIdx ha)
  refine ⟨Held.sorted (Held.byArrival cmp) xs.zipIdx, ⟨Held.sorted_perm _, Held.sorted_ordered h.byArrival hplaces⟩, ?_⟩
  rintro out ⟨hperm, hordered⟩
  refine @List.Perm.eq_of_pairwise _ (fun a b => Held.byArrival cmp a b ≠ .gt) _ _ ?_ hordered (Held.sorted_ordered h.byArrival hplaces)
    (hperm.trans (Held.sorted_perm _).symm)
  intro a b ha hb hab hba
  have ha' := hperm.mem_iff.1 ha
  have hb' := (Held.sorted_perm _).mem_iff.1 hb
  apply @eq_of_zipIdxLE _ (le cmp) _ _ _ ha' hb'
  · rw [zipIdxLE_eq h (hplaces a ha') (hplaces b hb')]
    exact Ordering.ne_gt_iff_isLE.1 hab
  · rw [zipIdxLE_eq h (hplaces b hb') (hplaces a ha')]
    exact Ordering.ne_gt_iff_isLE.1 hba

/-! ## Runs -/

/-- Several sorted lists merged into one, the earlier first on a tie. -/
def mergeAll (cmp : α → α → Ordering) (runs : List (List α)) : List α := runs.foldr (fun run rest => run.merge rest (le cmp)) []

/-- Sorting a list in pieces and merging them is sorting it. -/
theorem mergeAll_mergeSort (h : Consistent cmp s) {chunks : List (List α)} (hs : ∀ a ∈ chunks.flatten, s a) :
    mergeAll cmp (chunks.map (fun chunk => chunk.mergeSort (le cmp))) = chunks.flatten.mergeSort (le cmp) := by
  induction chunks with
  | nil => simp [mergeAll]
  | cons chunk chunks ih =>
    have hrest : ∀ a ∈ chunks.flatten, s a := fun a ha => hs a (by simp_all)
    rw [List.flatten_cons, mergeSort_append h (by simpa using hs), ← ih hrest]
    rfl

theorem mem_mergeAll {runs : List (List α)} {a : α} : a ∈ mergeAll cmp runs ↔ ∃ run ∈ runs, a ∈ run := by
  induction runs with
  | nil => simp [mergeAll]
  | cons run runs ih =>
    change a ∈ run.merge (mergeAll cmp runs) (le cmp) ↔ _
    rw [List.mem_merge, ih]
    simp

/-- What is merged starts with the start of one of the lists. -/
theorem head_mergeAll {runs : List (List α)} {z : α} {zs : List α} (h : mergeAll cmp runs = z :: zs) :
    ∃ (j : Nat) (u : List α), runs[j]? = some (z :: u) := by
  induction runs generalizing zs with
  | nil => cases h
  | cons run runs ih =>
    change run.merge (mergeAll cmp runs) (le cmp) = _ at h
    cases run with
    | nil =>
      rw [List.nil_merge] at h
      obtain ⟨j, u, hj⟩ := ih h
      exact ⟨j + 1, u, hj⟩
    | cons y u =>
      cases hrest : mergeAll cmp runs with
      | nil =>
        rw [hrest, List.merge_right] at h
        cases h
        exact ⟨0, zs, rfl⟩
      | cons w ws =>
        rw [hrest, List.cons_merge_cons] at h
        split at h
        · cases h
          exact ⟨0, u, rfl⟩
        · cases h
          obtain ⟨j, v, hj⟩ := ih hrest
          exact ⟨j + 1, v, hj⟩

/-- An element that starts one list, comes before the starts of the lists before it and not after those
of the lists after it, is merged first. -/
theorem mergeAll_first {runs : List (List α)} {i : Nat} {x : α} {t : List α} (hi : runs[i]? = some (x :: t))
    (hbefore : ∀ (j : Nat) y u, j < i → runs[j]? = some (y :: u) → le cmp y x = false)
    (hafter : ∀ (j : Nat) y u, i < j → runs[j]? = some (y :: u) → le cmp x y = true) :
    mergeAll cmp runs = x :: mergeAll cmp (runs.set i t) := by
  induction runs generalizing i with
  | nil => cases hi
  | cons run runs ih =>
    change run.merge (mergeAll cmp runs) (le cmp) = _
    cases i with
    | zero =>
      cases hi
      change _ = x :: t.merge (mergeAll cmp runs) (le cmp)
      cases hrest : mergeAll cmp runs with
      | nil => rw [List.merge_right, List.merge_right]
      | cons z zs =>
        obtain ⟨j, u, hj⟩ := head_mergeAll hrest
        rw [List.cons_merge_cons, if_pos (hafter (j + 1) z u (Nat.succ_pos j) hj)]
    | succ i =>
      have hrest := ih hi (fun j y u hj hr => hbefore (j + 1) y u (Nat.succ_lt_succ hj) hr)
        (fun j y u hj hr => hafter (j + 1) y u (Nat.succ_lt_succ hj) hr)
      change _ = x :: run.merge (mergeAll cmp (runs.set i t)) (le cmp)
      rw [hrest]
      cases run with
      | nil => rw [List.nil_merge, List.nil_merge]
      | cons y u => rw [List.cons_merge_cons, if_neg (by rw [hbefore 0 y u (Nat.succ_pos i) rfl]; decide)]

/-! ## The merge of the runs -/

/-- A merge under way: the next element of each run with the run's number, in the order they are
given out, and what each run has left. -/
structure Merging (α : Type) where
  heap : List (α × Nat)
  sources : List (List α)

namespace Merging
variable (cmp)

/-- Reads a run once more, if it has more. -/
def refill (m : Merging α) (i : Nat) : Merging α :=
  match m.sources[i]? with
  | some (y :: rest) => ⟨push (Held.byArrival cmp) (y, i) m.heap, m.sources.set i rest⟩
  | _ => m

/-- The first element, with its run read once more. -/
def pop (m : Merging α) : Option (α × Merging α) :=
  match m.heap with
  | [] => none
  | (x, i) :: heap => some (x, refill cmp ⟨heap, m.sources⟩ i)

/-- Reads each run once. -/
def start (runs : List (List α)) : Merging α := (List.range runs.length).foldl (refill cmp) ⟨[], runs⟩

/-- The elements in the order they are given out, at most so many. -/
def drain : Nat → Merging α → List α
  | 0, _ => []
  | n + 1, m =>
    match m.pop cmp with
    | none => []
    | some (x, m') => x :: drain n m'

/-- What is in the heap of a run. -/
def waiting (heap : List (α × Nat)) (i : Nat) : List α := (heap.filter (fun e => e.2 == i)).map (·.1)

/-- What is left of each run, its element in the heap included. -/
def lanes (m : Merging α) : List (List α) := m.sources.mapIdx (fun i rest => waiting m.heap i ++ rest)

variable {cmp}

theorem waiting_cons (x : α) (i j : Nat) (heap : List (α × Nat)) :
    waiting ((x, i) :: heap) j = if i = j then x :: waiting heap j else waiting heap j := by
  unfold waiting
  rw [List.filter_cons]
  by_cases h : i = j <;> simp [h]

theorem waiting_eq_nil {heap : List (α × Nat)} {i : Nat} (h : i ∉ heap.map (·.2)) : waiting heap i = [] := by
  unfold waiting
  rw [List.map_eq_nil_iff, List.filter_eq_nil_iff]
  intro e he heq
  exact h (List.mem_map.2 ⟨e, he, by simpa using heq⟩)

/-- The heap's order does not matter for a run that has at most one element in it. -/
theorem waiting_perm {heap heap' : List (α × Nat)} (hperm : heap.Perm heap') (honce : (heap.map (·.2)).Nodup) (i : Nat) :
    waiting heap i = waiting heap' i := by
  have hshort : (waiting heap i).length ≤ 1 := by
    unfold waiting
    rw [List.length_map, ← List.countP_eq_length_filter]
    have hcount := List.nodup_iff_count_le_one.1 honce i
    rwa [List.count_eq_countP, List.countP_map] at hcount
  have hsame : (waiting heap i).Perm (waiting heap' i) := (hperm.filter _).map _
  match hw : waiting heap i, hshort with
  | [], _ =>
    rw [hw] at hsame
    exact hsame.nil_eq
  | [x], _ =>
    rw [hw] at hsame
    exact List.singleton_perm.1 hsame

/-- A merge in order, in which every run of `P` that has more has its next element in the heap. -/
structure Going (cmp : α → α → Ordering) (s : α → Prop) (P : Nat → Prop) (m : Merging α) : Prop where
  ordered : m.heap.Pairwise (fun a b => Held.byArrival cmp a b ≠ .gt)
  once : (m.heap.map (·.2)).Nodup
  known : ∀ e ∈ m.heap, e.2 < m.sources.length
  drawn : ∀ i y rest, P i → m.sources[i]? = some (y :: rest) → i ∈ m.heap.map (·.2)
  heap : ∀ e ∈ m.heap, s e.1
  sources : ∀ run ∈ m.sources, ∀ a ∈ run, s a

variable {P : Nat → Prop} {m : Merging α} {i : Nat}

theorem mem_refill {e : α × Nat} (he : e ∈ (m.refill cmp i).heap) : e ∈ m.heap ∨ e.2 = i := by
  unfold Merging.refill at he
  split at he
  · rcases Held.mem_push.1 he with rfl | he
    · exact .inr rfl
    · exact .inl he
  · exact .inl he

theorem Going.refill (h : Consistent cmp s) (hm : Going cmp s P m) (hi : i ∉ m.heap.map (·.2)) :
    Going cmp s (fun j => P j ∨ j = i) (m.refill cmp i) ∧ (m.refill cmp i).lanes = m.lanes := by
  cases hrun : m.sources[i]? with
  | none =>
    have hsame : m.refill cmp i = m := by
      unfold Merging.refill
      rw [hrun]
    rw [hsame]
    refine ⟨⟨hm.ordered, hm.once, hm.known, ?_, hm.heap, hm.sources⟩, rfl⟩
    rintro j y rest (hj | rfl) hr
    · exact hm.drawn j y rest hj hr
    · rw [hrun] at hr
      cases hr
  | some run =>
    cases run with
    | nil =>
      have hsame : m.refill cmp i = m := by
        unfold Merging.refill
        rw [hrun]
      rw [hsame]
      refine ⟨⟨hm.ordered, hm.once, hm.known, ?_, hm.heap, hm.sources⟩, rfl⟩
      rintro j y rest (hj | rfl) hr
      · exact hm.drawn j y rest hj hr
      · rw [hrun] at hr
        cases hr
    | cons y rest =>
      have hsame : m.refill cmp i = ⟨push (Held.byArrival cmp) (y, i) m.heap, m.sources.set i rest⟩ := by
        unfold Merging.refill
        rw [hrun]
      have hmem := List.mem_of_getElem? hrun
      have hy : s y := hm.sources _ hmem y List.mem_cons_self
      have hperm := @Held.push_perm _ (Held.byArrival cmp) (y, i) m.heap
      have honce : ((push (Held.byArrival cmp) (y, i) m.heap).map (·.2)).Nodup := by
        rw [(hperm.map (·.2)).nodup_iff]
        exact List.nodup_cons.2 ⟨hi, hm.once⟩
      rw [hsame]
      refine ⟨⟨Held.push_ordered h.byArrival hy hm.heap hm.ordered, honce, ?_, ?_, ?_, ?_⟩, ?_⟩
      · intro e he
        rw [List.length_set]
        rcases Held.mem_push.1 he with rfl | he
        · exact (List.getElem?_eq_some_iff.1 hrun).1
        · exact hm.known e he
      · intro j y' rest' hj hr
        rw [(hperm.map (·.2)).mem_iff]
        by_cases hji : j = i
        · exact hji ▸ List.mem_cons_self
        · rw [List.getElem?_set_ne (Ne.symm hji)] at hr
          exact List.mem_cons_of_mem _ (hm.drawn j y' rest' (hj.resolve_right hji) hr)
      · intro e he
        rcases Held.mem_push.1 he with rfl | he
        · exact hy
        · exact hm.heap e he
      · intro run' hrun' a ha
        rcases List.mem_or_eq_of_mem_set hrun' with hrun' | rfl
        · exact hm.sources run' hrun' a ha
        · exact hm.sources _ hmem a (List.mem_cons_of_mem _ ha)
      · refine List.ext_getElem? (fun j => ?_)
        unfold lanes
        rw [List.getElem?_mapIdx, List.getElem?_mapIdx, waiting_perm hperm honce, waiting_cons]
        by_cases hji : j = i
        · subst hji
          have hlt : j < m.sources.length := (List.getElem?_eq_some_iff.1 hrun).1
          rw [List.getElem?_set_self hlt, hrun, if_pos rfl, waiting_eq_nil hi]
          rfl
        · rw [List.getElem?_set_ne (Ne.symm hji), if_neg (Ne.symm hji)]

/-- A merge that was started has the next element of every run, and all of the runs left. -/
theorem start_going (h : Consistent cmp s) {runs : List (List α)} (hs : ∀ run ∈ runs, ∀ a ∈ run, s a) :
    Going cmp s (fun i => i < runs.length) (start cmp runs) ∧ (start cmp runs).lanes = runs := by
  have hsteps : ∀ n, Going cmp s (fun i => i < n) ((List.range n).foldl (Merging.refill cmp) ⟨[], runs⟩) ∧
      ((List.range n).foldl (Merging.refill cmp) ⟨[], runs⟩).lanes = runs ∧
      ∀ i ∈ ((List.range n).foldl (Merging.refill cmp) ⟨[], runs⟩).heap.map (·.2), i < n := by
    intro n
    induction n with
    | zero =>
      refine ⟨⟨List.Pairwise.nil, List.nodup_nil, by simp, fun i y rest hi => absurd hi (Nat.not_lt_zero i), by simp, hs⟩, ?_, by simp⟩
      refine List.ext_getElem? (fun j => ?_)
      simp [lanes, waiting]
    | succ n ih =>
      obtain ⟨hgoing, hlanes, hbelow⟩ := ih
      have hnot := fun hn => Nat.lt_irrefl n (hbelow n hn)
      obtain ⟨hgoing', hlanes'⟩ := hgoing.refill h hnot
      rw [List.range_succ, List.foldl_append, List.foldl_cons, List.foldl_nil]
      refine ⟨⟨hgoing'.ordered, hgoing'.once, hgoing'.known, fun i y rest hi => hgoing'.drawn i y rest (by omega), hgoing'.heap, hgoing'.sources⟩,
        hlanes'.trans hlanes, fun i hi => ?_⟩
      obtain ⟨e, he, rfl⟩ := List.mem_map.1 hi
      rcases mem_refill he with he | heq
      · exact (hbelow e.2 (List.mem_map_of_mem he)).trans (Nat.lt_succ_self n)
      · exact heq ▸ Nat.lt_succ_self n
  exact ⟨(hsteps runs.length).1, (hsteps runs.length).2.1⟩

/-- The start of what is left of a run is in the heap. -/
theorem Going.head_mem (hm : Going cmp s (fun i => i < m.sources.length) m) {j : Nat} {y : α} {u : List α}
    (hj : m.lanes[j]? = some (y :: u)) : (y, j) ∈ m.heap := by
  unfold lanes at hj
  rw [List.getElem?_mapIdx, Option.map_eq_some_iff] at hj
  obtain ⟨rest, hrest, hlane⟩ := hj
  cases hw : waiting m.heap j with
  | cons w ws =>
    rw [hw, List.cons_append] at hlane
    injection hlane with hwy
    subst hwy
    have hmem : w ∈ waiting m.heap j := hw ▸ List.mem_cons_self
    obtain ⟨⟨w', j'⟩, he, rfl⟩ := List.mem_map.1 hmem
    obtain ⟨he, hjj⟩ := List.mem_filter.1 he
    have hjj' : j' = j := by simpa using hjj
    exact hjj' ▸ he
  | nil =>
    rw [hw, List.nil_append] at hlane
    subst hlane
    obtain ⟨e, he, rfl⟩ := List.mem_map.1 (hm.drawn j y u (List.getElem?_eq_some_iff.1 hrest).1 hrest)
    have hmem : e.1 ∈ waiting m.heap e.2 := List.mem_map.2 ⟨e, List.mem_filter.2 ⟨he, by simp⟩, rfl⟩
    rw [hw] at hmem
    cases hmem

theorem length_sources_refill (m : Merging α) (i : Nat) : (m.refill cmp i).sources.length = m.sources.length := by
  unfold Merging.refill
  split
  · exact List.length_set
  · rfl

/-- The element popped is the first of those left merged. -/
theorem Going.pop (h : Consistent cmp s) (hm : Going cmp s (fun i => i < m.sources.length) m) {x : α} {m' : Merging α}
    (hpop : m.pop cmp = some (x, m')) : Going cmp s (fun i => i < m'.sources.length) m' ∧
      mergeAll cmp m.lanes = x :: mergeAll cmp m'.lanes ∧ m.lanes.flatten.length = m'.lanes.flatten.length + 1 := by
  unfold Merging.pop at hpop
  split at hpop
  · cases hpop
  · rename_i _ i heap hheap
    cases hpop
    obtain ⟨hfirst, hordered⟩ := List.pairwise_cons.1 (hheap ▸ hm.ordered)
    have honce := hm.once
    rw [hheap, List.map_cons, List.nodup_cons] at honce
    have hin : ∀ e ∈ m.heap, s e.1 := hm.heap
    have hrest : Going cmp s (fun j => j < m.sources.length ∧ j ≠ i) ⟨heap, m.sources⟩ := by
      refine ⟨hordered, honce.2, fun e he => hm.known e (hheap ▸ List.mem_cons_of_mem _ he), fun j y rest hj hr => ?_,
        fun e he => hm.heap e (hheap ▸ List.mem_cons_of_mem _ he), hm.sources⟩
      have hmem := hm.drawn j y rest hj.1 hr
      rw [hheap, List.map_cons] at hmem
      exact (List.mem_cons.1 hmem).resolve_left hj.2
    obtain ⟨hgoing, hlanes⟩ := hrest.refill h honce.1
    have hlen := @length_sources_refill _ cmp ⟨heap, m.sources⟩ i
    refine ⟨⟨hgoing.ordered, hgoing.once, hgoing.known, fun j y rest hj => hgoing.drawn j y rest ?_, hgoing.heap, hgoing.sources⟩, ?_⟩
    · rw [hlen] at hj
      by_cases hji : j = i
      · exact .inr hji
      · exact .inl ⟨hj, hji⟩
    -- taking the first out of the heap takes it out of its lane
    have hi : i < m.sources.length := hm.known (x, i) (hheap ▸ List.mem_cons_self)
    have hlane : m.lanes[i]? = some (x :: m.sources[i]) := by
      unfold lanes
      rw [List.getElem?_mapIdx, List.getElem?_eq_getElem hi, hheap, waiting_cons, if_pos rfl, waiting_eq_nil honce.1]
      rfl
    have hset : (⟨heap, m.sources⟩ : Merging α).lanes = m.lanes.set i m.sources[i] := by
      refine List.ext_getElem? (fun j => ?_)
      by_cases hji : j = i
      · subst hji
        rw [List.getElem?_set_self (List.getElem?_eq_some_iff.1 hlane).1]
        unfold lanes
        rw [List.getElem?_mapIdx, List.getElem?_eq_getElem hi, waiting_eq_nil honce.1]
        rfl
      · rw [List.getElem?_set_ne (Ne.symm hji)]
        unfold lanes
        rw [List.getElem?_mapIdx, List.getElem?_mapIdx, hheap, waiting_cons, if_neg (Ne.symm hji)]
    have hcmp : ∀ (j : Nat) y u, j ≠ i → m.lanes[j]? = some (y :: u) → Held.byArrival cmp (x, i) (y, j) ≠ .gt ∧ s y := by
      intro j y u hji hj
      have hmem := hm.head_mem hj
      refine ⟨hfirst (y, j) ?_, hin _ hmem⟩
      rw [hheap] at hmem
      rcases List.mem_cons.1 hmem with heq | hmem
      · cases heq
        exact absurd rfl hji
      · exact hmem
    have hx : s x := hin (x, i) (hheap ▸ List.mem_cons_self)
    rw [hlanes, hset]
    refine ⟨mergeAll_first hlane (fun j y u hji hj => ?_) (fun j y u hij hj => ?_), ?_⟩
    · obtain ⟨hne, hy⟩ := hcmp j y u (Nat.ne_of_lt hji) hj
      unfold le
      rw [h.swap x y hx hy]
      have hgt : compare i j = .gt := Nat.compare_eq_gt.2 hji
      unfold Held.byArrival at hne
      simp only [hgt] at hne
      cases hc : cmp x y with
      | lt => rfl
      | eq => simp [hc] at hne
      | gt => simp [hc] at hne
    · obtain ⟨hne, hy⟩ := hcmp j y u (Nat.ne_of_gt hij) hj
      unfold le
      unfold Held.byArrival at hne
      cases hc : cmp x y with
      | lt => rfl
      | eq => rfl
      | gt => simp [hc] at hne
    · obtain ⟨hlt, hget⟩ := List.getElem?_eq_some_iff.1 hlane
      have hsplit : m.lanes = m.lanes.take i ++ (x :: m.sources[i]) :: m.lanes.drop (i + 1) := by
        rw [← hget, List.getElem_cons_drop, List.take_append_drop]
      rw [List.set_eq_take_append_cons_drop, if_pos hlt]
      conv_lhs => rw [hsplit]
      simp only [List.flatten_append, List.flatten_cons, List.length_append, List.length_cons]
      omega

/-- An empty heap has nothing left to be merged. -/
theorem Going.nothing (hm : Going cmp s (fun i => i < m.sources.length) m) (hheap : m.heap = []) : mergeAll cmp m.lanes = [] := by
  cases hmerge : mergeAll cmp m.lanes with
  | nil => rfl
  | cons z zs =>
    obtain ⟨j, u, hj⟩ := head_mergeAll hmerge
    have hmem := hm.head_mem hj
    rw [hheap] at hmem
    cases hmem

theorem pop_eq_none (hpop : m.pop cmp = none) : m.heap = [] := by
  unfold Merging.pop at hpop
  split at hpop
  · assumption
  · cases hpop

/-- Everything left comes out, merged. -/
theorem Going.drain (h : Consistent cmp s) {n : Nat} (hm : Going cmp s (fun i => i < m.sources.length) m)
    (hn : m.lanes.flatten.length ≤ n) : m.drain cmp n = mergeAll cmp m.lanes := by
  induction n generalizing m with
  | zero =>
    have hnil : ∀ a, a ∉ mergeAll cmp m.lanes := by
      intro a ha
      obtain ⟨run, hrun, ha⟩ := mem_mergeAll.1 ha
      have hmem : a ∈ m.lanes.flatten := List.mem_flatten.2 ⟨run, hrun, ha⟩
      rw [List.eq_nil_of_length_eq_zero (Nat.le_zero.1 hn)] at hmem
      cases hmem
    rw [List.eq_nil_iff_forall_not_mem.2 hnil]
    rfl
  | succ n ih =>
    cases hpop : m.pop cmp with
    | none =>
      rw [hm.nothing (pop_eq_none hpop), Merging.drain, hpop]
    | some step =>
      obtain ⟨x, m'⟩ := step
      obtain ⟨hm', hmerge, hlen⟩ := hm.pop h hpop
      rw [Merging.drain, hpop, hmerge]
      simp only
      rw [ih hm' (by omega)]

/-- Sorting a list in pieces, and drawing the pieces from a heap that prefers the earlier one on a tie,
is sorting the list. -/
theorem drain_start (h : Consistent cmp s) {chunks : List (List α)} (hs : ∀ a ∈ chunks.flatten, s a) {n : Nat}
    (hn : chunks.flatten.length ≤ n) :
    (start cmp (chunks.map (fun chunk => chunk.mergeSort (le cmp)))).drain cmp n = chunks.flatten.mergeSort (le cmp) := by
  have hruns : ∀ run ∈ chunks.map (fun chunk => chunk.mergeSort (le cmp)), ∀ a ∈ run, s a := by
    intro run hrun a ha
    obtain ⟨chunk, hchunk, rfl⟩ := List.mem_map.1 hrun
    exact hs a (List.mem_flatten.2 ⟨chunk, hchunk, List.mem_mergeSort.1 ha⟩)
  obtain ⟨hgoing, hlanes⟩ := start_going h hruns
  have hcount : (start cmp (chunks.map (fun chunk => chunk.mergeSort (le cmp)))).sources.length = chunks.length := by
    have := congrArg List.length hlanes
    simpa [lanes] using this
  have hall : Going cmp s (fun i => i < (start cmp (chunks.map (fun chunk => chunk.mergeSort (le cmp)))).sources.length)
      (start cmp (chunks.map (fun chunk => chunk.mergeSort (le cmp)))) := by
    rw [hcount]
    simpa using hgoing
  rw [hall.drain h, hlanes, mergeAll_mergeSort h hs]
  rw [hlanes]
  have hsize : (chunks.map (fun chunk => chunk.mergeSort (le cmp))).flatten.length = chunks.flatten.length := by
    simp only [List.length_flatten, List.map_map, Function.comp_def, List.length_mergeSort]
  omega

end Merging

end Lib.StableSort
