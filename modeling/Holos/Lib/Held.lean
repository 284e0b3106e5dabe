import Mathlib.Data.List.Induction
import Mathlib.Data.List.Sort
/-!
# Keeping the first few of a stream

A heap of `held` elements that is offered a stream one element at a time: a newcomer that does not
sort before the last one held is dropped, any other displaces it. `foldl_offer` says what is held at
the end: the first `held` of the whole stream, sorted. Only the elements of the stream have to be
comparable; the comparison may make no sense elsewhere.
-/

namespace Lib.Held

variable {α β : Type} (cmp : α → α → Ordering)

/-- Puts an element before the first it sorts before. -/
def push (x : α) : List α → List α := List.orderedInsert (fun a b => cmp a b = .lt) x

/-- Offers an element to a heap, which is kept in order. -/
def offer (held : Nat) (heap : List α) (x : α) : List α :=
  if heap.length = held then
    match heap.getLast? with
    | none => heap
    | some worst => if cmp x worst = .lt then push cmp x heap.dropLast else heap
  else push cmp x heap

/-- The elements of a stream, each put in its place. -/
def sorted (xs : List α) : List α := xs.foldl (fun heap x => push cmp x heap) []

/-- The comparison is an order of the elements of `s`. -/
structure Consistent (s : α → Prop) : Prop where
  swap : ∀ a b, s a → s b → cmp b a = (cmp a b).swap
  trans : ∀ a b c, s a → s b → s c → cmp a b ≠ .gt → cmp b c ≠ .gt → cmp a c ≠ .gt

variable {cmp}

theorem mem_push {x y : α} {heap : List α} : y ∈ push cmp x heap ↔ y = x ∨ y ∈ heap := List.mem_orderedInsert _

theorem push_perm (x : α) (heap : List α) : (push cmp x heap).Perm (x :: heap) := List.perm_orderedInsert _ _ _

theorem sorted_append (xs : List α) (x : α) : sorted cmp (xs ++ [x]) = push cmp x (sorted cmp xs) := by
  simp [sorted]

theorem sorted_perm (xs : List α) : (sorted cmp xs).Perm xs := by
  induction xs using List.reverseRecOn with
  | nil => exact List.Perm.refl _
  | append_singleton xs x ih =>
    rw [sorted_append]
    exact (push_perm x _).trans ((ih.cons x).trans (List.perm_append_singleton x xs).symm)

/-! ## What is sorted stays sorted -/

variable {s : α → Prop}

theorem push_ordered (h : Consistent cmp s) {x : α} {heap : List α} (hx : s x) (hs : ∀ a ∈ heap, s a)
    (ho : heap.Pairwise (fun a b => cmp a b ≠ .gt)) : (push cmp x heap).Pairwise (fun a b => cmp a b ≠ .gt) := by
  induction heap with
  | nil => exact List.pairwise_singleton _ _
  | cons y heap ih =>
    obtain ⟨hy, htail⟩ := List.pairwise_cons.1 ho
    have hsy : s y := hs y List.mem_cons_self
    unfold push at ih ⊢
    rw [List.orderedInsert_cons]
    split
    · rename_i hlt
      -- everything held sorts after what sorts after the newcomer
      refine List.pairwise_cons.2 ⟨fun z hz => ?_, ho⟩
      rcases List.mem_cons.1 hz with rfl | hz
      · simp [hlt]
      · exact h.trans x y z hx hsy (hs z (List.mem_cons_of_mem _ hz)) (by simp [hlt]) (hy z hz)
    · rename_i hnot
      have hyx : cmp y x ≠ .gt := by
        rw [h.swap x y hx hsy]
        intro hgt
        exact hnot (by simpa using hgt)
      refine List.pairwise_cons.2 ⟨fun z hz => ?_, ih (fun a ha => hs a (List.mem_cons_of_mem _ ha)) htail⟩
      rcases mem_push.1 hz with rfl | hz
      · exact hyx
      · exact hy z hz

theorem sorted_ordered (h : Consistent cmp s) {xs : List α} (hs : ∀ a ∈ xs, s a) :
    (sorted cmp xs).Pairwise (fun a b => cmp a b ≠ .gt) := by
  induction xs using List.reverseRecOn with
  | nil => exact List.Pairwise.nil
  | append_singleton xs x ih =>
    rw [sorted_append]
    have hxs : ∀ a ∈ xs, s a := fun a ha => hs a (List.mem_append_left _ ha)
    refine push_ordered h (hs x (by simp)) (fun a ha => hxs a ?_) (ih hxs)
    exact (sorted_perm xs).mem_iff.1 ha

/-! ## The heap holds the first ones -/

/-- The first elements after a push depend on the first ones before it. -/
theorem take_push (x : α) (heap : List α) (n : Nat) : (push cmp x heap).take n = (push cmp x (heap.take n)).take n := by
  induction heap generalizing n with
  | nil => simp
  | cons y heap ih =>
    cases n with
    | zero => simp
    | succ n =>
      unfold push at ih ⊢
      rw [List.take_succ_cons, List.orderedInsert_cons, List.orderedInsert_cons]
      split
      · have hfirst : (y :: heap).take n = (y :: heap.take n).take n := by
          rw [← List.take_succ_cons, List.take_take, Nat.min_eq_left (Nat.le_succ n)]
        rw [List.take_succ_cons, List.take_succ_cons, hfirst]
      · rw [List.take_succ_cons, List.take_succ_cons, ih n]

/-- A newcomer that sorts before none of what is held goes to its end. -/
theorem push_last {x : α} {heap : List α} (h : ∀ y ∈ heap, cmp x y ≠ .lt) : push cmp x heap = heap ++ [x] := by
  induction heap with
  | nil => rfl
  | cons y heap ih =>
    unfold push at ih ⊢
    rw [List.orderedInsert_cons, if_neg (h y List.mem_cons_self), ih (fun z hz => h z (List.mem_cons_of_mem _ hz)), List.cons_append]

/-- One that sorts before the last one held goes before it. -/
theorem push_before {x worst : α} (h : cmp x worst = .lt) (heap : List α) :
    push cmp x (heap ++ [worst]) = push cmp x heap ++ [worst] := by
  induction heap with
  | nil => simp [push, h]
  | cons y heap ih =>
    unfold push at ih ⊢
    rw [List.cons_append, List.orderedInsert_cons, List.orderedInsert_cons]
    split
    · rfl
    · rw [ih, List.cons_append]

theorem offer_eq_take (h : Consistent cmp s) {held : Nat} {heap : List α} {x : α} (hlen : heap.length ≤ held) (hx : s x)
    (hs : ∀ a ∈ heap, s a) (ho : heap.Pairwise (fun a b => cmp a b ≠ .gt)) :
    offer cmp held heap x = (push cmp x heap).take held := by
  unfold offer
  by_cases hfull : heap.length = held
  · rw [if_pos hfull]
    rcases List.eq_nil_or_concat heap with rfl | ⟨init, worst, rfl⟩
    · rw [← hfull]
      rfl
    · rw [List.concat_eq_append] at *
      simp only [List.getLast?_append, List.getLast?_singleton, Option.some_or, List.dropLast_concat]
      split
      · rename_i hlt
        have hshort : (push cmp x init).length = held := by
          rw [(push_perm x init).length_eq, ← hfull, List.length_append, List.length_singleton, List.length_cons]
        rw [push_before hlt, ← hshort, List.take_left]
      · rename_i hnot
        -- whatever is held sorts before the last, and the last before the newcomer
        have hafter : ∀ y ∈ init ++ [worst], cmp x y ≠ .lt := by
          intro y hy hlt
          have hyw : cmp y worst ≠ .gt := by
            rcases List.mem_append.1 hy with hy' | hy'
            · exact (List.pairwise_append.1 ho).2.2 y hy' worst (by simp)
            · rw [List.mem_singleton.1 hy'] at hlt
              exact absurd hlt hnot
          have hsw : s worst := hs worst (by simp)
          have hsy : s y := hs y hy
          have hxw : cmp x worst = .eq := by
            have hle := h.trans x y worst hx hsy hsw (by simp [hlt]) hyw
            cases hc : cmp x worst with
            | lt => exact absurd hc hnot
            | eq => rfl
            | gt => exact absurd hc hle
          -- then `y` is not after `x` either
          have hyx : cmp y x ≠ .gt := h.trans y worst x hsy hsw hx hyw (by rw [h.swap x worst hx hsw, hxw]; decide)
          rw [h.swap x y hx hsy, hlt] at hyx
          exact hyx rfl
        rw [push_last hafter, ← hfull, List.take_left]
  · rw [if_neg hfull, List.take_of_length_le]
    rw [(push_perm x heap).length_eq, List.length_cons]
    omega

/-- A heap that was offered a stream holds the first `held` of it, sorted. -/
theorem foldl_offer (h : Consistent cmp s) (held : Nat) {xs : List α} (hs : ∀ a ∈ xs, s a) :
    xs.foldl (offer cmp held) [] = (sorted cmp xs).take held := by
  induction xs using List.reverseRecOn with
  | nil => simp [sorted]
  | append_singleton xs x ih =>
    have hxs : ∀ a ∈ xs, s a := fun a ha => hs a (List.mem_append_left _ ha)
    have hkept : ∀ a ∈ (sorted cmp xs).take held, s a := fun a ha => hxs a ((sorted_perm xs).mem_iff.1 (List.mem_of_mem_take ha))
    rw [List.foldl_append, ih hxs, List.foldl_cons, List.foldl_nil, sorted_append, take_push]
    exact offer_eq_take h (List.length_take_le _ _) (hs x (by simp)) hkept
      ((sorted_ordered h hxs).sublist (List.take_sublist _ _))

/-! ## Arrival breaks the ties -/

/-- Elements with their places, by the comparison and then by place. -/
def byArrival (cmp : α → α → Ordering) (a b : α × Nat) : Ordering := (cmp a.1 b.1).then (compare a.2 b.2)

theorem Consistent.byArrival (h : Consistent cmp s) : Consistent (byArrival cmp) (fun a => s a.1) where
  swap a b ha hb := by
    simp only [Held.byArrival, h.swap a.1 b.1 ha hb, Ordering.swap_then, Nat.compare_swap]
  trans a b c ha hb hc hab hbc := by
    unfold Held.byArrival at hab hbc ⊢
    have hab' : cmp a.1 b.1 ≠ .gt := fun hgt => hab (by rw [hgt]; rfl)
    have hbc' : cmp b.1 c.1 ≠ .gt := fun hgt => hbc (by rw [hgt]; rfl)
    have hac' := h.trans a.1 b.1 c.1 ha hb hc hab' hbc'
    cases hac : cmp a.1 c.1 with
    | lt => simp [Ordering.then]
    | gt => exact absurd hac hac'
    | eq =>
      -- elements that do not tell the ends apart tell neither from the middle
      have hca : cmp c.1 a.1 ≠ .gt := by rw [h.swap a.1 c.1 ha hc, hac]; decide
      have hba := h.trans b.1 c.1 a.1 hb hc ha hbc' hca
      have hcb := h.trans c.1 a.1 b.1 hc ha hb hca hab'
      rw [h.swap a.1 b.1 ha hb] at hba
      rw [h.swap b.1 c.1 hb hc] at hcb
      have heq : ∀ o : Ordering, o ≠ .gt → o.swap ≠ .gt → o = .eq := by decide
      rw [heq _ hab' hba, Ordering.then, Nat.compare_ne_gt] at hab
      rw [heq _ hbc' hcb, Ordering.then, Nat.compare_ne_gt] at hbc
      rw [Ordering.then, Nat.compare_ne_gt]
      exact le_trans hab hbc

/-! ## Carrying something along -/

variable {cmp' : β → β → Ordering} {f : α → β}

theorem push_map (hf : ∀ a b, cmp' (f a) (f b) = cmp a b) (x : α) (heap : List α) :
    push cmp' (f x) (heap.map f) = (push cmp x heap).map f := by
  induction heap with
  | nil => rfl
  | cons y heap ih =>
    unfold push at ih ⊢
    rw [List.map_cons, List.orderedInsert_cons, List.orderedInsert_cons, hf]
    split
    · rfl
    · rw [ih, List.map_cons]

theorem offer_map (hf : ∀ a b, cmp' (f a) (f b) = cmp a b) (held : Nat) (heap : List α) (x : α) :
    offer cmp' held (heap.map f) (f x) = (offer cmp held heap x).map f := by
  unfold offer
  rw [List.length_map, List.getLast?_map]
  split
  · cases heap.getLast? with
    | none => rfl
    | some worst =>
      simp only [Option.map_some, hf, ← List.map_dropLast, push_map hf]
      split <;> rfl
  · exact push_map hf x heap

end Lib.Held
