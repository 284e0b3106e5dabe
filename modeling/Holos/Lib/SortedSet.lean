import Mathlib.Data.List.Lex
import Mathlib.Data.List.Sort
/-!
# Sorted sets

A set of keys kept as a strictly increasing list: membership, insertion, removal,
and the scan of an inclusive interval. Iteration order is key order.

`prefix_range_iff` and `span_range_iff` say which keys of a fixed length an interval
of lists holds: the ones with a prefix, and the ones whose next component also
lies in a span.
-/

namespace Lib

/-- A set of keys, in increasing order. -/
structure SortedSet (α : Type) [LinearOrder α] where
  toList : List α
  sorted : toList.Pairwise (· < ·)

namespace SortedSet

variable {α : Type} [LinearOrder α]

instance : Membership α (SortedSet α) := ⟨fun s a => a ∈ s.toList⟩

theorem mem_def {s : SortedSet α} {a : α} : a ∈ s ↔ a ∈ s.toList := Iff.rfl

instance (s : SortedSet α) (a : α) : Decidable (a ∈ s) := inferInstanceAs (Decidable (a ∈ s.toList))

theorem nodup (s : SortedSet α) : s.toList.Nodup := s.sorted.imp ne_of_lt

/-- Two sets with the same members are the same list. -/
theorem ext {s t : SortedSet α} (h : ∀ a, a ∈ s ↔ a ∈ t) : s = t := by
  have hp : s.toList.Perm t.toList := (List.perm_ext_iff_of_nodup s.nodup t.nodup).2 h
  have he : s.toList = t.toList := hp.eq_of_pairwise
    (fun a b _ _ hab hba => absurd hba (lt_asymm hab)) s.sorted t.sorted
  cases s; cases t; cases he; rfl

/-! ## Operations -/

def empty : SortedSet α := ⟨[], .nil⟩

theorem not_mem_empty (a : α) : a ∉ (empty : SortedSet α) := by simp [mem_def, empty]

def insertList (a : α) : List α → List α
  | [] => [a]
  | b :: l => if a < b then a :: b :: l else if a = b then b :: l else b :: insertList a l

theorem mem_insertList {a x : α} {l : List α} : x ∈ insertList a l ↔ x = a ∨ x ∈ l := by
  induction l with
  | nil => simp [insertList]
  | cons b l ih =>
    simp only [insertList]
    split
    · simp
    · split
      · rename_i h; subst h; simp
      · simp only [List.mem_cons, ih]; tauto

theorem insertList_sorted {a : α} {l : List α} (h : l.Pairwise (· < ·)) :
    (insertList a l).Pairwise (· < ·) := by
  induction l with
  | nil => simp [insertList]
  | cons b l ih =>
    obtain ⟨hb, hl⟩ := List.pairwise_cons.1 h
    simp only [insertList]
    split
    · rename_i hab
      refine List.pairwise_cons.2 ⟨fun x hx => ?_, h⟩
      rcases List.mem_cons.1 hx with rfl | hx
      · exact hab
      · exact hab.trans (hb x hx)
    · rename_i hab
      split
      · exact h
      · rename_i hne
        refine List.pairwise_cons.2 ⟨fun x hx => ?_, ih hl⟩
        rcases mem_insertList.1 hx with rfl | hx
        · exact lt_of_le_of_ne (not_lt.1 hab) (Ne.symm hne)
        · exact hb x hx

def insert (s : SortedSet α) (a : α) : SortedSet α :=
  ⟨insertList a s.toList, insertList_sorted s.sorted⟩

@[simp] theorem mem_insert {s : SortedSet α} {a x : α} : x ∈ s.insert a ↔ x = a ∨ x ∈ s := mem_insertList

def remove (s : SortedSet α) (a : α) : SortedSet α :=
  ⟨s.toList.filter (· ≠ a), s.sorted.filter _⟩

@[simp] theorem mem_remove {s : SortedSet α} {a x : α} : x ∈ s.remove a ↔ x ∈ s ∧ x ≠ a := by
  simp [mem_def, remove]

/-- The keys from `lo` to `hi`, both included, in order. -/
def range (s : SortedSet α) (lo hi : α) : List α := s.toList.filter (fun a => lo ≤ a ∧ a ≤ hi)

@[simp] theorem mem_range {s : SortedSet α} {lo hi x : α} : x ∈ s.range lo hi ↔ x ∈ s ∧ lo ≤ x ∧ x ≤ hi := by
  simp [mem_def, range]

theorem range_sorted (s : SortedSet α) (lo hi : α) : (s.range lo hi).Pairwise (· < ·) := s.sorted.filter _

end SortedSet

/-! ## Intervals of fixed-length keys -/

section Keys
variable {α : Type} [LinearOrder α]

theorem cons_le_cons_iff {a b : α} {l m : List α} : a :: l ≤ b :: m ↔ a < b ∨ (a = b ∧ l ≤ m) := by
  rw [le_iff_lt_or_eq, List.cons_lt_cons_iff, le_iff_lt_or_eq, List.cons.injEq]
  tauto

/-- An interval whose ends share their first component fixes that component. -/
theorem cons_interval_iff {a b : α} {lo hi l : List α} :
    (a :: lo ≤ b :: l ∧ b :: l ≤ a :: hi) ↔ b = a ∧ lo ≤ l ∧ l ≤ hi := by
  simp only [cons_le_cons_iff]
  constructor
  · rintro ⟨h1 | ⟨rfl, h1⟩, h2 | ⟨h2, h3⟩⟩
    · exact absurd h1 (lt_asymm h2)
    · exact absurd h2 h1.ne'
    · exact absurd h2 (lt_irrefl _)
    · exact ⟨rfl, h1, h3⟩
  · rintro ⟨rfl, h1, h2⟩
    exact ⟨.inr ⟨rfl, h1⟩, .inr ⟨rfl, h2⟩⟩

variable {m M : α} (hm : ∀ a, m ≤ a) (hM : ∀ a, a ≤ M)

include hm in
theorem replicate_min_le (l : List α) : List.replicate l.length m ≤ l := by
  induction l with
  | nil => exact le_refl _
  | cons a l ih =>
    rcases (hm a).lt_or_eq with h | rfl
    · exact cons_le_cons_iff.2 (.inl h)
    · exact cons_le_cons_iff.2 (.inr ⟨rfl, ih⟩)

include hM in
theorem le_replicate_max (l : List α) : l ≤ List.replicate l.length M := by
  induction l with
  | nil => exact le_refl _
  | cons a l ih =>
    rcases (hM a).lt_or_eq with h | rfl
    · exact cons_le_cons_iff.2 (.inl h)
    · exact cons_le_cons_iff.2 (.inr ⟨rfl, ih⟩)

include hm hM in
/-- The keys of length `pre.length + n` between `pre` padded with minima and `pre`
padded with maxima are the ones that start with `pre`. -/
theorem prefix_range_iff (pre l : List α) (n : Nat) (hl : l.length = pre.length + n) :
    (pre ++ List.replicate n m ≤ l ∧ l ≤ pre ++ List.replicate n M) ↔ pre <+: l := by
  induction pre generalizing l with
  | nil =>
    simp only [List.length_nil, Nat.zero_add] at hl
    subst hl
    simp only [List.nil_append, List.nil_prefix, iff_true]
    exact ⟨replicate_min_le hm l, le_replicate_max hM l⟩
  | cons a pre ih =>
    cases l with
    | nil => simp at hl; omega
    | cons b l =>
      simp only [List.length_cons] at hl
      rw [List.cons_append, List.cons_append, cons_interval_iff, ih l (by omega), List.cons_prefix_cons]
      exact and_congr_left fun _ => eq_comm

include hm hM in
/-- With one more component bounded by a span, the interval holds the keys that
start with `pre` and continue inside the span. -/
theorem span_range_iff (pre l : List α) (x y b : α) (n : Nat) (hl : l.length = n) :
    (pre ++ x :: List.replicate n m ≤ pre ++ b :: l ∧ pre ++ b :: l ≤ pre ++ y :: List.replicate n M) ↔
      x ≤ b ∧ b ≤ y := by
  induction pre with
  | nil =>
    subst hl
    simp only [List.nil_append, cons_le_cons_iff, replicate_min_le hm, le_replicate_max hM, and_true,
      ← le_iff_lt_or_eq]
  | cons a pre ih => simpa only [List.cons_append, cons_interval_iff, true_and] using ih

end Keys

end Lib
