import Mathlib.Data.List.Pairwise
import Mathlib.Data.List.Sort
import Mathlib.Data.Prod.Lex
/-!
# External merge sort

Rows are sorted by a key one buffer at a time, and each sorted buffer is a run. The runs are
merged by a heap that has the next key of each, and the merged keys are cut into files.
-/

namespace Lib

variable {ρ κ : Type} [LinearOrder κ]

/-! ## Runs -/

/-- Drops each row with the key of the row before it. -/
def dedupFrom (key : ρ → κ) (last : κ) : List ρ → List ρ
  | [] => []
  | a :: rows => if key a = last then dedupFrom key last rows else a :: dedupFrom key (key a) rows

def dedup (key : ρ → κ) : List ρ → List ρ
  | [] => []
  | a :: rows => a :: dedupFrom key (key a) rows

/-- Sorts by the key and drops duplicates. -/
def sortDedup (key : ρ → κ) (rows : List ρ) : List ρ :=
  dedup key (rows.mergeSort (fun a b => decide (key a ≤ key b)))

section
variable {key : ρ → κ} {rows : List ρ} {last : κ}

theorem mem_dedupFrom {k : κ} (h : rows.Pairwise (key · ≤ key ·)) (hlast : ∀ a ∈ rows, last ≤ key a) :
    k ∈ (dedupFrom key last rows).map key ↔ k ∈ rows.map key ∧ k ≠ last := by
  induction rows generalizing last with
  | nil => simp [dedupFrom]
  | cons a rows ih =>
    obtain ⟨ha, hrows⟩ := List.pairwise_cons.1 h
    have hle : last ≤ key a := hlast a List.mem_cons_self
    unfold dedupFrom
    split
    · rename_i heq
      rw [ih hrows (fun b hb => hlast b (List.mem_cons_of_mem _ hb)), List.map_cons, List.mem_cons, heq]
      tauto
    · rename_i hne
      rw [List.map_cons, List.mem_cons, ih hrows ha, List.map_cons, List.mem_cons]
      constructor
      · rintro (rfl | ⟨hk, -⟩)
        · exact ⟨.inl rfl, hne⟩
        · obtain ⟨b, hb, rfl⟩ := List.mem_map.1 hk
          exact ⟨.inr hk, fun hb' => hne (le_antisymm (hb' ▸ ha b hb) hle)⟩
      · rintro ⟨rfl | hk, -⟩
        · exact .inl rfl
        · exact or_iff_not_imp_left.2 (fun hka => ⟨hk, hka⟩)

theorem dedupFrom_sorted (h : rows.Pairwise (key · ≤ key ·)) (hlast : ∀ a ∈ rows, last ≤ key a) :
    ((dedupFrom key last rows).map key).Pairwise (· < ·) := by
  induction rows generalizing last with
  | nil => exact .nil
  | cons a rows ih =>
    obtain ⟨ha, hrows⟩ := List.pairwise_cons.1 h
    unfold dedupFrom
    split
    · exact ih hrows (fun b hb => hlast b (List.mem_cons_of_mem _ hb))
    · refine List.pairwise_cons.2 ⟨fun k hk => ?_, ih hrows ha⟩
      obtain ⟨hk, hne⟩ := (mem_dedupFrom hrows ha).1 hk
      obtain ⟨b, hb, rfl⟩ := List.mem_map.1 hk
      exact lt_of_le_of_ne (ha b hb) (Ne.symm hne)

theorem mergeSort_sorted (key : ρ → κ) (rows : List ρ) :
    (rows.mergeSort (fun a b => decide (key a ≤ key b))).Pairwise (key · ≤ key ·) := by
  have h := @List.pairwise_mergeSort ρ (fun a b => decide (key a ≤ key b))
    (fun a b c hab hbc => by simp only [decide_eq_true_eq] at *; exact hab.trans hbc)
    (fun a b => by simpa using le_total (key a) (key b)) rows
  exact h.imp (fun hab => of_decide_eq_true hab)

/-- A run is strictly increasing. -/
theorem sortDedup_sorted (key : ρ → κ) (rows : List ρ) : ((sortDedup key rows).map key).Pairwise (· < ·) := by
  have h := mergeSort_sorted key rows
  unfold sortDedup
  cases hs : rows.mergeSort (fun a b => decide (key a ≤ key b)) with
  | nil => exact .nil
  | cons a sorted =>
    rw [hs] at h
    obtain ⟨ha, hsorted⟩ := List.pairwise_cons.1 h
    refine List.pairwise_cons.2 ⟨fun k hk => ?_, dedupFrom_sorted hsorted ha⟩
    obtain ⟨hk, hne⟩ := (mem_dedupFrom hsorted ha).1 hk
    obtain ⟨b, hb, rfl⟩ := List.mem_map.1 hk
    exact lt_of_le_of_ne (ha b hb) (Ne.symm hne)

/-- A run has the keys of its rows. -/
theorem mem_map_sortDedup {k : κ} : k ∈ (sortDedup key rows).map key ↔ k ∈ rows.map key := by
  have h := mergeSort_sorted key rows
  have hperm : k ∈ (rows.mergeSort (fun a b => decide (key a ≤ key b))).map key ↔ k ∈ rows.map key :=
    ((List.mergeSort_perm rows _).map key).mem_iff
  rw [← hperm]
  unfold sortDedup
  cases hs : rows.mergeSort (fun a b => decide (key a ≤ key b)) with
  | nil => rfl
  | cons a sorted =>
    rw [hs] at h
    obtain ⟨ha, hsorted⟩ := List.pairwise_cons.1 h
    rw [dedup, List.map_cons, List.mem_cons, mem_dedupFrom hsorted ha, List.map_cons, List.mem_cons]
    tauto

/-- When no two rows share a key, the rows that are left are the rows. -/
theorem mem_sortDedup (hkey : Function.Injective key) {a : ρ} : a ∈ sortDedup key rows ↔ a ∈ rows := by
  rw [← List.mem_map_of_injective hkey, mem_map_sortDedup, List.mem_map_of_injective hkey]

end

/-! ## The merge -/

/-- A merge under way: what each source has left beyond its next key, a heap of those next keys
with their sources, and the key last given out. -/
structure Merged (κ : Type) where
  sources : List (List κ)
  heap : List (κ ×ₗ Nat)
  last : Option κ

namespace Merged

/-- How many keys are left. -/
def size (m : Merged κ) : Nat := m.heap.length + m.sources.flatten.length

/-- Takes the first key of each source that has one. -/
def start (sources : List (List κ)) : Merged κ where
  sources := sources.map List.tail
  heap := sources.zipIdx.filterMap (fun source => source.1.head?.map (fun k => toLex (k, source.2)))
  last := none

/-- Reads a source once more, if it has more. -/
def refill (m : Merged κ) (i : Nat) : Merged κ :=
  match m.sources[i]? with
  | some (k :: rest) => { m with sources := m.sources.set i rest, heap := toLex (k, i) :: m.heap }
  | _ => m

/-- The least key of the heap, with its source read once more. -/
def pop (m : Merged κ) : Option (κ × Merged κ) :=
  m.heap.min?.map (fun e => ((ofLex e).1, { m with heap := m.heap.erase e }.refill (ofLex e).2))

theorem length_flatten_set {sources : List (List κ)} {i : Nat} {k : κ} {rest : List κ} (h : sources[i]? = some (k :: rest)) :
    (sources.set i rest).flatten.length + 1 = sources.flatten.length := by
  induction sources generalizing i with
  | nil => cases h
  | cons source sources ih =>
    cases i with
    | zero =>
      cases h
      simp only [List.set_cons_zero, List.flatten_cons, List.length_append, List.length_cons]
      omega
    | succ i =>
      have := ih h
      simp only [List.set_cons_succ, List.flatten_cons, List.length_append]
      omega

theorem size_refill (m : Merged κ) (i : Nat) : (m.refill i).size = m.size := by
  unfold refill
  split
  · rename_i k rest hs
    have := length_flatten_set hs
    simp only [size, List.length_cons]
    omega
  · rfl

theorem size_pop {m m' : Merged κ} {k : κ} (h : m.pop = some (k, m')) : m'.size + 1 = m.size := by
  obtain ⟨e, he, heq⟩ := Option.map_eq_some_iff.1 h
  cases heq
  have hmem : e ∈ m.heap := List.min?_mem he
  have hpos := List.length_pos_of_mem hmem
  rw [size_refill]
  simp only [size, List.length_erase_of_mem hmem]
  omega

/-- The next key that is not the one last given out. -/
def next (m : Merged κ) : Option (κ × Merged κ) :=
  match h : m.pop with
  | none => none
  | some (k, m') => if m'.last = some k then m'.next else some (k, { m' with last := some k })
termination_by m.size
decreasing_by
  have := size_pop h
  omega

theorem size_next {m m' : Merged κ} {k : κ} (h : m.next = some (k, m')) : m'.size < m.size := by
  fun_induction next m with
  | case1 => cases h
  | case2 m k₁ m₁ hpop hlast ih =>
    have := size_pop hpop
    have := ih h
    omega
  | case3 m k₁ m₁ hpop hlast =>
    cases h
    have := size_pop hpop
    exact Nat.lt_of_succ_le this.le

/-- Every key, in the order they are given out. -/
def drain (m : Merged κ) : List κ :=
  match h : m.next with
  | none => []
  | some (k, m') => k :: m'.drain
termination_by m.size
decreasing_by exact size_next h

theorem refill_last (m : Merged κ) (i : Nat) : (m.refill i).last = m.last := by
  unfold refill
  split <;> rfl

theorem pop_last {m m' : Merged κ} {k : κ} (h : m.pop = some (k, m')) : m'.last = m.last := by
  obtain ⟨e, -, heq⟩ := Option.map_eq_some_iff.1 h
  cases heq
  exact refill_last _ _

theorem pop_some {m m' : Merged κ} {k : κ} (h : m.pop = some (k, m')) :
    ∃ e heap, m.heap.min? = some e ∧ heap = m.heap.erase e ∧ (ofLex e).1 = k ∧ { m with heap := heap }.refill (ofLex e).2 = m' := by
  obtain ⟨e, he, heq⟩ := Option.map_eq_some_iff.1 h
  cases heq
  exact ⟨e, _, he, rfl, rfl, rfl⟩

theorem next_pop_none {m : Merged κ} (h : m.pop = none) : m.next = none := by
  rw [next]
  split
  · rfl
  · rename_i heq
    rw [h] at heq
    cases heq

theorem next_pop {m m' : Merged κ} {k : κ} (h : m.pop = some (k, m')) :
    m.next = if m'.last = some k then m'.next else some (k, { m' with last := some k }) := by
  rw [next]
  split
  · rename_i heq
    rw [h] at heq
    cases heq
  · rename_i heq
    rw [h] at heq
    cases heq
    rfl

theorem drain_next_none {m : Merged κ} (h : m.next = none) : m.drain = [] := by
  rw [drain]
  split
  · rfl
  · rename_i heq
    rw [h] at heq
    cases heq

theorem drain_next {m m' : Merged κ} {k : κ} (h : m.next = some (k, m')) : m.drain = k :: m'.drain := by
  rw [drain]
  split
  · rename_i heq
    rw [h] at heq
    cases heq
  · rename_i heq
    rw [h] at heq
    cases heq
    rfl

/-- A key that was given out before goes unnoticed. -/
theorem drain_repeated {m m' : Merged κ} {k : κ} (h : m.pop = some (k, m')) (hlast : m'.last = some k) : m.drain = m'.drain := by
  have hnext : m.next = m'.next := by rw [next_pop h, if_pos hlast]
  cases hm' : m'.next with
  | none => rw [drain_next_none (hnext.trans hm'), drain_next_none hm']
  | some given => rw [drain_next (hnext.trans hm'), drain_next hm']

/-! ## What a merge gives out -/

/-- The keys left. -/
def Left (m : Merged κ) (k : κ) : Prop :=
  (∃ i, toLex (k, i) ∈ m.heap) ∨ ∃ (i : Nat) (rest : List κ), m.sources[i]? = some rest ∧ k ∈ rest

/-- Each source has one key in the heap until it is dry, and that key is its least. -/
structure Ordered (m : Merged κ) : Prop where
  apart : m.heap.Pairwise (fun e e' => (ofLex e).2 ≠ (ofLex e').2)
  sorted : ∀ k i, toLex (k, i) ∈ m.heap → ∃ rest, m.sources[i]? = some rest ∧ (k :: rest).Pairwise (· < ·)
  waiting : ∀ i k rest, m.sources[i]? = some (k :: rest) → ∃ k', toLex (k', i) ∈ m.heap

variable {m m' : Merged κ} {k : κ}

theorem start_left (sources : List (List κ)) (k : κ) : (start sources).Left k ↔ ∃ source ∈ sources, k ∈ source := by
  have hheap : ∀ i, toLex (k, i) ∈ (start sources).heap ↔ ∃ source, sources[i]? = some source ∧ source.head? = some k := by
    intro i
    simp only [start, List.mem_filterMap, Prod.exists, List.mem_zipIdx_iff_getElem?, Option.map_eq_some_iff]
    constructor
    · rintro ⟨source, j, hs, k', hk, heq⟩
      cases heq
      exact ⟨source, hs, hk⟩
    · rintro ⟨source, hs, hk⟩
      exact ⟨source, i, hs, k, hk, rfl⟩
  unfold Left
  simp only [hheap]
  constructor
  · rintro (⟨i, source, hs, hk⟩ | ⟨i, rest, hs, hk⟩)
    · exact ⟨source, List.mem_of_getElem? hs, List.mem_of_head? hk⟩
    · simp only [start, List.getElem?_map, Option.map_eq_some_iff] at hs
      obtain ⟨source, hs, rfl⟩ := hs
      exact ⟨source, List.mem_of_getElem? hs, List.mem_of_mem_tail hk⟩
  · rintro ⟨source, hs, hk⟩
    obtain ⟨i, hi⟩ := List.mem_iff_getElem?.1 hs
    cases source with
    | nil => cases hk
    | cons a rest =>
      rcases List.mem_cons.1 hk with rfl | hk
      · exact .inl ⟨i, _, hi, rfl⟩
      · exact .inr ⟨i, rest, by simp [start, hi], hk⟩

theorem start_ordered {sources : List (List κ)} (h : ∀ source ∈ sources, source.Pairwise (· < ·)) : (start sources).Ordered where
  apart := by
    have hidx : sources.zipIdx.Pairwise (fun a b => a.2 ≠ b.2) := by
      have := @List.nodup_range' 0 sources.length 1
      rw [← List.zipIdx_map_snd 0 sources] at this
      exact List.pairwise_map.1 this
    refine List.pairwise_filterMap.2 (hidx.imp ?_)
    intro a b hab e he e' he'
    obtain ⟨k, -, rfl⟩ := Option.map_eq_some_iff.1 he
    obtain ⟨k', -, rfl⟩ := Option.map_eq_some_iff.1 he'
    exact hab
  sorted k i hmem := by
    simp only [start, List.mem_filterMap, Prod.exists, List.mem_zipIdx_iff_getElem?, Option.map_eq_some_iff] at hmem
    obtain ⟨source, j, hs, k', hk, heq⟩ := hmem
    cases heq
    refine ⟨source.tail, by simp [start, hs], ?_⟩
    rw [List.cons_head?_tail hk]
    exact h source (List.mem_of_getElem? hs)
  waiting i k rest hs := by
    simp only [start, List.getElem?_map, Option.map_eq_some_iff] at hs
    obtain ⟨source, hs, htail⟩ := hs
    cases source with
    | nil => cases htail
    | cons a source =>
      refine ⟨a, ?_⟩
      simp only [start, List.mem_filterMap, Prod.exists, List.mem_zipIdx_iff_getElem?, Option.map_eq_some_iff]
      exact ⟨_, i, hs, a, rfl, rfl⟩

/-- A source has one key in the heap. -/
theorem Ordered.once (h : m.Ordered) {i : Nat} {k' : κ} (hk : toLex (k, i) ∈ m.heap) (hk' : toLex (k', i) ∈ m.heap) : k = k' := by
  have : Std.Symm (fun e e' : κ ×ₗ Nat => (ofLex e).2 ≠ (ofLex e').2) := ⟨fun _ _ => Ne.symm⟩
  by_contra hne
  exact h.apart.forall hk hk' (fun heq => hne (congrArg (fun e => (ofLex e).1) heq)) rfl

theorem Ordered.mem_erase (h : m.Ordered) {i j : Nat} {k' : κ} (hk : toLex (k, i) ∈ m.heap) :
    toLex (k', j) ∈ m.heap.erase (toLex (k, i)) ↔ toLex (k', j) ∈ m.heap ∧ j ≠ i := by
  have hnodup : m.heap.Nodup := h.apart.imp (fun hne heq => hne (by rw [heq]))
  rw [hnodup.mem_erase_iff]
  constructor
  · rintro ⟨hne, hk'⟩
    refine ⟨hk', ?_⟩
    rintro rfl
    exact hne (by rw [h.once hk hk'])
  · rintro ⟨hk', hj⟩
    exact ⟨fun heq => hj (congrArg (fun e => (ofLex e).2) heq), hk'⟩

/-- A source with keys left has its least one in the heap, so the least key of the heap is the
least of all. -/
theorem Ordered.least (h : m.Ordered) {e : κ ×ₗ Nat} (he : m.heap.min? = some e) {x : κ} (hx : m.Left x) : (ofLex e).1 ≤ x := by
  have hfirst : ∀ k j, toLex (k, j) ∈ m.heap → (ofLex e).1 ≤ k := by
    intro k j hk
    rcases Prod.Lex.le_iff.1 ((List.min?_eq_some_iff.1 he).2 _ hk) with hlt | ⟨heq, -⟩
    · exact le_of_lt hlt
    · exact le_of_eq heq
  obtain ⟨j, hx⟩ | ⟨j, source, hs, hx⟩ := hx
  · exact hfirst x j hx
  · cases source with
    | nil => cases hx
    | cons a source =>
      obtain ⟨k, hk⟩ := h.waiting j a source hs
      obtain ⟨rest, hrest, hsorted⟩ := h.sorted k j hk
      cases hs.symm.trans hrest
      exact (hfirst k j hk).trans (le_of_lt ((List.pairwise_cons.1 hsorted).1 x hx))

/-- A source that lost its key from the heap gets its next one there. -/
structure Drawn (m : Merged κ) (i : Nat) (rest : List κ) : Prop where
  apart : m.heap.Pairwise (fun e e' => (ofLex e).2 ≠ (ofLex e').2)
  sorted : ∀ k j, toLex (k, j) ∈ m.heap → ∃ rest, m.sources[j]? = some rest ∧ (k :: rest).Pairwise (· < ·)
  waiting : ∀ j k rest, j ≠ i → m.sources[j]? = some (k :: rest) → ∃ k', toLex (k', j) ∈ m.heap
  out : ∀ k, toLex (k, i) ∉ m.heap
  source : m.sources[i]? = some rest
  rest : rest.Pairwise (· < ·)

theorem Ordered.drawn (h : m.Ordered) {i : Nat} (hk : toLex (k, i) ∈ m.heap) :
    ∃ rest, Drawn { m with heap := m.heap.erase (toLex (k, i)) } i rest := by
  obtain ⟨rest, hrest, hsorted⟩ := h.sorted k i hk
  refine ⟨rest, h.apart.sublist List.erase_sublist, fun k' j hk' => h.sorted k' j ((h.mem_erase hk).1 hk').1, ?_,
    fun k' hk' => ((h.mem_erase hk).1 hk').2 rfl, hrest, (List.pairwise_cons.1 hsorted).2⟩
  intro j a source hj hs
  obtain ⟨k', hk'⟩ := h.waiting j a source hs
  exact ⟨k', (h.mem_erase hk).2 ⟨hk', hj⟩⟩

theorem Drawn.refill {i : Nat} {rest : List κ} (h : m.Drawn i rest) :
    (m.refill i).Ordered ∧ (m.refill i).last = m.last ∧ ∀ x, (m.refill i).Left x ↔ m.Left x := by
  cases rest with
  | nil =>
    have hsame : m.refill i = m := by
      unfold Merged.refill
      rw [h.source]
    rw [hsame]
    refine ⟨⟨h.apart, h.sorted, fun j k rest hs => h.waiting j k rest ?_ hs⟩, rfl, fun x => Iff.rfl⟩
    rintro rfl
    cases h.source.symm.trans hs
  | cons a rest =>
    have hdraw : m.refill i = { m with sources := m.sources.set i rest, heap := toLex (a, i) :: m.heap } := by
      unfold Merged.refill
      rw [h.source]
    have hlt : i < m.sources.length := (List.getElem?_eq_some_iff.1 h.source).1
    have hset : ∀ j source, (m.sources.set i rest)[j]? = some source ↔ (j = i ∧ source = rest) ∨ (j ≠ i ∧ m.sources[j]? = some source) := by
      intro j source
      rw [List.getElem?_set]
      split
      · rename_i hj
        subst hj
        simp [hlt, eq_comm]
      · rename_i hj
        simp [Ne.symm hj]
    obtain ⟨hbelow, hsorted⟩ := List.pairwise_cons.1 h.rest
    rw [hdraw]
    refine ⟨⟨List.pairwise_cons.2 ⟨fun e he heq => ?_, h.apart⟩, fun k j hk => ?_, fun j k source hs => ?_⟩, rfl, fun x => ?_⟩
    · obtain ⟨k, j⟩ := e
      cases heq
      exact h.out k he
    · rcases List.mem_cons.1 hk with heq | hkept
      · cases heq
        exact ⟨rest, (hset _ _).2 (.inl ⟨rfl, rfl⟩), h.rest⟩
      · obtain ⟨source, hs, hsource⟩ := h.sorted k j hkept
        refine ⟨source, (hset _ _).2 (.inr ⟨?_, hs⟩), hsource⟩
        rintro rfl
        exact h.out k hkept
    · rcases (hset j _).1 hs with ⟨rfl, -⟩ | ⟨hj, hs⟩
      · exact ⟨a, List.mem_cons_self⟩
      · obtain ⟨k', hk'⟩ := h.waiting j k source hj hs
        exact ⟨k', List.mem_cons_of_mem _ hk'⟩
    · unfold Left
      simp only [hset, List.mem_cons]
      constructor
      · rintro (⟨j, heq | hx⟩ | ⟨j, source, ⟨rfl, rfl⟩ | ⟨hj, hs⟩, hx⟩)
        · cases heq
          exact .inr ⟨i, _, h.source, List.mem_cons_self⟩
        · exact .inl ⟨j, hx⟩
        · exact .inr ⟨_, _, h.source, List.mem_cons_of_mem _ hx⟩
        · exact .inr ⟨j, source, hs, hx⟩
      · rintro (⟨j, hx⟩ | ⟨j, source, hs, hx⟩)
        · exact .inl ⟨j, .inr hx⟩
        · by_cases hj : j = i
          · subst hj
            cases h.source.symm.trans hs
            rcases List.mem_cons.1 hx with rfl | hx
            · exact .inl ⟨j, .inl rfl⟩
            · exact .inr ⟨j, rest, .inl ⟨rfl, rfl⟩, hx⟩
          · exact .inr ⟨j, source, .inr ⟨hj, hs⟩, hx⟩

/-- The key popped was left, and none below it is. -/
theorem pop_spec (h : m.Ordered) (hpop : m.pop = some (k, m')) :
    m'.Ordered ∧ m'.last = m.last ∧ (∀ x, m.Left x ↔ x = k ∨ m'.Left x) ∧ ∀ x, m.Left x → k ≤ x := by
  obtain ⟨e, he, heq⟩ := Option.map_eq_some_iff.1 hpop
  cases heq
  have hmem : toLex ((ofLex e).1, (ofLex e).2) ∈ m.heap := List.min?_mem he
  obtain ⟨rest, hdrawn⟩ := h.drawn hmem
  obtain ⟨hordered, hlast, hleft⟩ := hdrawn.refill
  refine ⟨hordered, hlast, fun x => Iff.trans ?_ (or_congr_right (hleft x).symm), fun x hx => h.least he hx⟩
  constructor
  · rintro (⟨j, hx⟩ | hx)
    · by_cases hj : j = (ofLex e).2
      · subst hj
        exact .inl (h.once hx hmem)
      · exact .inr (.inl ⟨j, (h.mem_erase hmem).2 ⟨hx, hj⟩⟩)
    · exact .inr (.inr hx)
  · rintro (rfl | ⟨j, hx⟩ | hx)
    · exact .inl ⟨_, hmem⟩
    · exact .inl ⟨j, ((h.mem_erase hmem).1 hx).1⟩
    · exact .inr hx

theorem pop_none (h : m.Ordered) (hpop : m.pop = none) (x : κ) : ¬m.Left x := by
  have hheap : m.heap = [] := List.min?_eq_none_iff.1 (Option.map_eq_none_iff.1 hpop)
  rintro (⟨j, hx⟩ | ⟨j, source, hs, hx⟩)
  · rw [hheap] at hx
    cases hx
  · cases source with
    | nil => cases hx
    | cons a source =>
      obtain ⟨k, hk⟩ := h.waiting j a source hs
      rw [hheap] at hk
      cases hk

/-- A merge that has given out no key above one it has left. -/
structure Merging (m : Merged κ) : Prop where
  ordered : m.Ordered
  floor : ∀ k, m.last = some k → ∀ x, m.Left x → k ≤ x

/-- A key that was given out before is dropped, and nothing else is. -/
theorem Merging.dropped (h : m.Merging) (hpop : m.pop = some (k, m')) (hlast : m'.last = some k) :
    m'.Merging ∧ m'.last = m.last ∧ ∀ x, m.Left x ∧ m.last ≠ some x ↔ m'.Left x ∧ m'.last ≠ some x := by
  obtain ⟨hordered, hsame, hleft, hle⟩ := pop_spec h.ordered hpop
  refine ⟨⟨hordered, fun l hl x hx => h.floor l (hsame ▸ hl) x ((hleft x).2 (.inr hx))⟩, hsame, fun x => ?_⟩
  rw [hleft, ← hsame, hlast, ne_eq, Option.some.injEq]
  constructor
  · rintro ⟨rfl | hx, hne⟩
    · exact absurd rfl hne
    · exact ⟨hx, hne⟩
  · rintro ⟨hx, hne⟩
    exact ⟨.inr hx, hne⟩

theorem next_none (h : m.Merging) (hnext : m.next = none) (x : κ) : ¬(m.Left x ∧ m.last ≠ some x) := by
  fun_induction next m with
  | case1 m hpop => exact fun hx => pop_none h.ordered hpop x hx.1
  | case2 m k m' hpop hlast ih =>
    obtain ⟨hm', -, hleft⟩ := h.dropped hpop hlast
    rw [hleft]
    exact ih hm' hnext
  | case3 => cases hnext

/-- What is given out is above all that was, and what is left is above it. -/
theorem next_some (h : m.Merging) (hnext : m.next = some (k, m')) :
    m'.Merging ∧ m'.last = some k ∧ (∀ l, m.last = some l → l < k) ∧
      ∀ x, m.Left x ∧ m.last ≠ some x ↔ x = k ∨ (m'.Left x ∧ m'.last ≠ some x) := by
  fun_induction next m with
  | case1 => cases hnext
  | case2 m k₁ m₁ hpop hlast ih =>
    obtain ⟨hm', hsame, hleft⟩ := h.dropped hpop hlast
    obtain ⟨hnext', hlast', hlt, hall⟩ := ih hm' hnext
    exact ⟨hnext', hlast', fun l hl => hlt l (hsame ▸ hl), fun x => (hleft x).trans (hall x)⟩
  | case3 m k₁ m₁ hpop hlast =>
    cases hnext
    obtain ⟨hordered, hsame, hleft, hle⟩ := pop_spec h.ordered hpop
    have hmem : m.Left k := (hleft k).2 (.inl rfl)
    rw [hsame] at hlast
    refine ⟨⟨⟨hordered.apart, hordered.sorted, hordered.waiting⟩, fun l hl x hx => ?_⟩, rfl, fun l hl => ?_, fun x => ?_⟩
    · cases hl
      exact hle x ((hleft x).2 (.inr hx))
    · refine lt_of_le_of_ne (h.floor l hl k hmem) ?_
      rintro rfl
      exact hlast hl
    · rw [hleft]
      constructor
      · rintro ⟨rfl | hx, hne⟩
        · exact .inl rfl
        · exact or_iff_not_imp_left.2 (fun hxk => ⟨hx, fun heq => hxk (Option.some.inj heq).symm⟩)
      · rintro (rfl | ⟨hx, hne⟩)
        · exact ⟨.inl rfl, hlast⟩
        · refine ⟨.inr hx, fun heq => hne ?_⟩
          -- nothing left is below the key given out, and nothing is below what was
          have := h.floor x heq k hmem
          rw [le_antisymm (hle x ((hleft x).2 (.inr hx))) this]

theorem drain_spec (h : m.Merging) :
    m.drain.Pairwise (· < ·) ∧ ∀ x, x ∈ m.drain ↔ m.Left x ∧ m.last ≠ some x := by
  fun_induction drain m with
  | case1 m hnext => exact ⟨.nil, fun x => ⟨fun hx => (by cases hx), fun hx => absurd hx (next_none h hnext x)⟩⟩
  | case2 m k m' hnext ih =>
    obtain ⟨hm', hlast, -, hleft⟩ := next_some h hnext
    obtain ⟨hsorted, hmem⟩ := ih hm'
    refine ⟨List.pairwise_cons.2 ⟨fun x hx => ?_, hsorted⟩, fun x => ?_⟩
    · obtain ⟨hx, hne⟩ := (hmem x).1 hx
      exact lt_of_le_of_ne (hm'.floor k hlast x hx) (fun heq => hne (heq ▸ hlast))
    · rw [List.mem_cons, hmem, hleft]

/-- Merging sorted runs gives each of their keys once, in order. -/
theorem drain_start {sources : List (List κ)} (h : ∀ source ∈ sources, source.Pairwise (· < ·)) :
    (start sources).drain.Pairwise (· < ·) ∧ ∀ k, k ∈ (start sources).drain ↔ ∃ source ∈ sources, k ∈ source := by
  obtain ⟨hsorted, hmem⟩ := drain_spec ⟨start_ordered h, fun k hk => (by cases hk)⟩
  refine ⟨hsorted, fun k => ?_⟩
  rw [hmem, start_left]
  exact and_iff_left (fun heq => by cases heq)

end Merged

/-! ## Files -/

/-- A file takes keys in strictly increasing order. -/
def putKey (file : List κ) (k : κ) : Option (List κ) :=
  if file.getLast?.all (· < k) then some (file ++ [k]) else none

/-- Cuts keys into files of a number of rows, with one file open. -/
def cut (rows : Nat) (file : List κ) : List κ → Option (List (List κ))
  | [] => some (if file.isEmpty then [] else [file])
  | k :: keys => (putKey file k).bind fun file =>
    if rows ≤ file.length then (cut rows [] keys).map (file :: ·) else cut rows file keys

/-- Increasing keys are all taken, and the files one after another are the keys. -/
theorem cut_flatten (rows : Nat) {file keys : List κ} (h : (file ++ keys).Pairwise (· < ·)) :
    ∃ files, cut rows file keys = some files ∧ files.flatten = file ++ keys := by
  induction keys generalizing file with
  | nil =>
    refine ⟨_, rfl, ?_⟩
    cases file <;> simp
  | cons k keys ih =>
    have hput : putKey file k = some (file ++ [k]) := by
      refine if_pos ?_
      rw [Option.all_eq_true]
      intro l hl
      exact decide_eq_true ((List.pairwise_append.1 h).2.2 l (List.mem_of_getLast? hl) k List.mem_cons_self)
    have happend : file ++ k :: keys = (file ++ [k]) ++ keys := by simp
    rw [happend] at h ⊢
    rw [cut, hput, Option.bind_some]
    split
    · obtain ⟨files, hfiles, hflat⟩ := @ih [] (List.pairwise_append.1 h).2.1
      exact ⟨_, by rw [hfiles, Option.map_some], by rw [List.flatten_cons, hflat, List.nil_append]⟩
    · exact ih h

/-! ## One buffer, many orders -/

/-- Sorts a buffer in place and writes it out as a run of one order. -/
def spill (key : ρ → κ) (runs : List (List κ)) (rows : List ρ) : List (List κ) × List ρ :=
  if rows.isEmpty then (runs, rows) else (runs ++ [(sortDedup key rows).map key], sortDedup key rows)

/-- The same buffer is spilled for one order after another. -/
def spillAll {ω : Type} [DecidableEq ω] (key : ω → ρ → κ) (orders : List ω) (runs : ω → List (List κ)) (rows : List ρ) :
    ω → List (List κ) :=
  (orders.foldl (fun x o =>
    let spilled := spill (key o) (x.1 o) x.2
    (Function.update x.1 o spilled.1, spilled.2)) (runs, rows)).1

/-- The files of one order: its runs and what is left in memory, merged and cut. -/
def mergeFiles (key : ρ → κ) (fileRows : Nat) (runs : List (List κ)) (tail : List ρ) : Option (List (List κ)) :=
  cut fileRows [] (Merged.start (runs ++ [(sortDedup key tail).map key])).drain

section
variable {ω : Type} [DecidableEq ω] {key : ω → ρ → κ} {runs : List (List κ)} {rows : List ρ}

/-- Runs that are sorted and have the keys of some rows. -/
def Holding (key : ρ → κ) (runs : List (List κ)) (rows : List ρ) : Prop :=
  (∀ run ∈ runs, run.Pairwise (· < ·)) ∧ ∀ k, (∃ run ∈ runs, k ∈ run) ↔ k ∈ rows.map key

theorem Holding.nil {key : ρ → κ} : Holding key [] [] := ⟨fun _ h => (by cases h), fun k => by simp⟩

theorem Holding.spill {key : ρ → κ} {held : List ρ} (h : Holding key runs held) :
    Holding key (spill key runs rows).1 (held ++ rows) := by
  unfold Lib.spill
  split
  · rename_i hempty
    rw [List.isEmpty_iff.1 hempty, List.append_nil]
    exact h
  · refine ⟨fun run hrun => ?_, fun k => ?_⟩
    · rcases List.mem_append.1 hrun with hrun | hrun
      · exact h.1 run hrun
      · rw [List.mem_singleton.1 hrun]
        exact sortDedup_sorted key rows
    · rw [List.map_append, List.mem_append, ← h.2 k, ← mem_map_sortDedup]
      constructor
      · rintro ⟨run, hrun, hk⟩
        rcases List.mem_append.1 hrun with hrun | hrun
        · exact .inl ⟨run, hrun, hk⟩
        · rw [List.mem_singleton.1 hrun] at hk
          exact .inr hk
      · rintro (⟨run, hrun, hk⟩ | hk)
        · exact ⟨run, List.mem_append_left _ hrun, hk⟩
        · exact ⟨_, List.mem_append_right _ (List.mem_singleton.2 rfl), hk⟩

theorem Holding.congr {key : ρ → κ} {rows rows' : List ρ} (h : Holding key runs rows) (hrows : ∀ a, a ∈ rows ↔ a ∈ rows') :
    Holding key runs rows' :=
  ⟨h.1, fun k => (h.2 k).trans (by simp only [List.mem_map, hrows])⟩

theorem mem_spill {key : ρ → κ} (hkey : Function.Injective key) {a : ρ} : a ∈ (spill key runs rows).2 ↔ a ∈ rows := by
  unfold Lib.spill
  split
  · rfl
  · exact mem_sortDedup hkey

theorem spillAll_of_notMem {orders : List ω} {runs : ω → List (List κ)} {o : ω} (ho : o ∉ orders) :
    spillAll key orders runs rows o = runs o := by
  unfold spillAll
  induction orders generalizing runs rows with
  | nil => rfl
  | cons o' orders ih =>
    rw [List.mem_cons, not_or] at ho
    obtain ⟨hne, ho⟩ := ho
    rw [List.foldl_cons, ih ho]
    exact Function.update_of_ne hne _ _

/-- The orders are permutations of the same components: rows that are equal under one are equal
under all, so a buffer that was sorted for one of them has the same rows for the next. -/
theorem spillAll_holding (hkey : ∀ o, Function.Injective (key o)) {orders : List ω} {runs : ω → List (List κ)}
    {held : List ρ} (h : ∀ o ∈ orders, Holding (key o) (runs o) held) (hnodup : orders.Nodup) {o : ω} (ho : o ∈ orders) :
    Holding (key o) (spillAll key orders runs rows o) (held ++ rows) := by
  induction orders generalizing runs rows with
  | nil => cases ho
  | cons o' orders ih =>
    obtain ⟨hout, hnodup⟩ := List.nodup_cons.1 hnodup
    have hstep : spillAll key (o' :: orders) runs rows =
        spillAll key orders (Function.update runs o' (spill (key o') (runs o') rows).1) (spill (key o') (runs o') rows).2 := rfl
    rw [hstep]
    rcases List.mem_cons.1 ho with rfl | ho
    · rw [spillAll_of_notMem hout, Function.update_self]
      exact (h o List.mem_cons_self).spill
    · refine Holding.congr (ih (fun o₁ ho₁ => ?_) hnodup ho) (fun a => ?_)
      · have hne : o₁ ≠ o' := by
          rintro rfl
          exact hout ho₁
        rw [Function.update_of_ne hne]
        exact h o₁ (List.mem_cons_of_mem _ ho₁)
      · rw [List.mem_append, List.mem_append, mem_spill (hkey o')]

/-- The files of one order have the keys of all its rows, each once and in order. -/
theorem mergeFiles_spec {key : ρ → κ} {held tail : List ρ} (fileRows : Nat) (h : Holding key runs held) :
    ∃ files, mergeFiles key fileRows runs tail = some files ∧ files.flatten.Pairwise (· < ·) ∧
      ∀ k, k ∈ files.flatten ↔ k ∈ (held ++ tail).map key := by
  obtain ⟨hsorted, hmem⟩ := @Merged.drain_start κ _ (runs ++ [(sortDedup key tail).map key]) (fun source hs => by
    rcases List.mem_append.1 hs with hs | hs
    · exact h.1 source hs
    · rw [List.mem_singleton.1 hs]
      exact sortDedup_sorted key tail)
  obtain ⟨files, hfiles, hflat⟩ := cut_flatten fileRows (by rw [List.nil_append]; exact hsorted)
  rw [List.nil_append] at hflat
  refine ⟨files, hfiles, hflat ▸ hsorted, fun k => ?_⟩
  rw [hflat, hmem, List.map_append, List.mem_append, ← h.2 k, ← mem_map_sortDedup]
  simp only [List.mem_append, List.mem_singleton, or_and_right, exists_or, exists_eq_left]

end

end Lib
