import Holos.Lib.SortedSet
import Mathlib.Data.Finset.Card
import Mathlib.Data.Finset.Filter
/-!
# Counters

How often each key occurs, with the keys that occur. A key whose count falls to zero is
gone, so two counters that count alike are one counter.
-/

namespace Lib

structure Counter (α : Type) [LinearOrder α] where
  count : α → Nat
  keys : SortedSet α
  mem_keys : ∀ a, a ∈ keys ↔ 0 < count a

namespace Counter

variable {α : Type} [LinearOrder α]

theorem ext {c c' : Counter α} (h : ∀ a, c.count a = c'.count a) : c = c' := by
  have hcount : c.count = c'.count := funext h
  have hkeys : c.keys = c'.keys := SortedSet.ext (fun a => by rw [c.mem_keys, c'.mem_keys, h])
  cases c
  cases c'
  simp only at hcount hkeys
  subst hcount hkeys
  rfl

def empty : Counter α := ⟨fun _ => 0, .empty, fun a => by simp [SortedSet.not_mem_empty]⟩

def increment (c : Counter α) (a : α) : Counter α where
  count b := if b = a then c.count b + 1 else c.count b
  keys := c.keys.insert a
  mem_keys b := by
    by_cases h : b = a
    · simp [h]
    · simp [h, c.mem_keys]

theorem mem_keys_decrement (c : Counter α) (a b : α) :
    (b ∈ if c.count a ≤ 1 then c.keys.remove a else c.keys) ↔ 0 < if b = a then c.count b - 1 else c.count b := by
  by_cases h : b = a
  · subst h
    split
    · rename_i hle
      simp
      omega
    · rename_i hlt
      rw [c.mem_keys, if_pos rfl]
      omega
  · split <;> simp [h, c.mem_keys]

/-- One less, if the key is there at all. -/
def decrement (c : Counter α) (a : α) : Counter α where
  count b := if b = a then c.count b - 1 else c.count b
  keys := if c.count a ≤ 1 then c.keys.remove a else c.keys
  mem_keys := c.mem_keys_decrement a

/-- A count put in the place of what there was. -/
def put (c : Counter α) (a : α) (n : Nat) : Counter α where
  count b := if b = a then n else c.count b
  keys := if n = 0 then c.keys.remove a else c.keys.insert a
  mem_keys b := by
    by_cases h : b = a
    · subst h
      split <;> simp <;> omega
    · split <;> simp [h, c.mem_keys]

@[simp] theorem count_empty (a : α) : (empty : Counter α).count a = 0 := rfl

@[simp] theorem count_increment (c : Counter α) (a b : α) :
    (c.increment a).count b = c.count b + if b = a then 1 else 0 := by
  simp only [increment]
  split <;> rfl

@[simp] theorem count_decrement (c : Counter α) (a b : α) :
    (c.decrement a).count b = c.count b - if b = a then 1 else 0 := by
  simp only [decrement]
  split <;> rfl

@[simp] theorem count_put (c : Counter α) (a : α) (n : Nat) (b : α) : (c.put a n).count b = if b = a then n else c.count b := rfl

/-- Putting the rows of a table, where no key has two counts, gives each key the table's. -/
theorem count_foldl_put {rows : List (α × Nat)} {a : α} {n : Nat} (hrows : ∀ m, (a, m) ∈ rows → m = n) (c : Counter α)
    (hc : (∀ m, (a, m) ∉ rows) → c.count a = n) : (rows.foldl (fun c row => c.put row.1 row.2) c).count a = n := by
  induction rows generalizing c with
  | nil => exact hc (fun m => List.not_mem_nil)
  | cons row rows ih =>
    rw [List.foldl_cons]
    refine ih (fun m hm => hrows m (List.mem_cons_of_mem _ hm)) _ (fun hnone => ?_)
    obtain ⟨b, m⟩ := row
    rw [count_put]
    split
    · rename_i hab
      subst hab
      exact hrows m List.mem_cons_self
    · rename_i hab
      refine hc (fun m' hm' => ?_)
      rcases List.mem_cons.1 hm' with heq | hm'
      · exact hab (Prod.mk.inj heq).1
      · exact hnone m' hm'

/-- The keys and their counts, the most frequent first and equal counts by key. -/
def histogram (c : Counter α) : List (α × Nat) :=
  (c.keys.toList.map (fun a => (a, c.count a))).mergeSort (fun x y => y.2 < x.2 || (x.2 = y.2 && x.1 ≤ y.1))

/-- Counting up over a list adds what the list has. -/
theorem count_foldl_increment (l : List α) (c : Counter α) (a : α) :
    (l.foldl increment c).count a = c.count a + l.count a := by
  induction l generalizing c with
  | nil => simp
  | cons b l ih =>
    rw [List.foldl_cons, ih, count_increment, List.count_cons]
    by_cases h : a = b
    · subst h
      simp
      omega
    · rw [if_neg h]
      simp [Ne.symm h]

/-- Counting down over a list takes away what the list has. -/
theorem count_foldl_decrement (l : List α) (c : Counter α) (a : α) :
    (l.foldl decrement c).count a = c.count a - l.count a := by
  induction l generalizing c with
  | nil => simp
  | cons b l ih =>
    rw [List.foldl_cons, ih, count_decrement, List.count_cons]
    by_cases h : b = a
    · subst h
      simp
      omega
    · rw [if_neg (Ne.symm h)]
      simp [h]

end Counter

end Lib
