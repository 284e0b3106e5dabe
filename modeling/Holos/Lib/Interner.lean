import Mathlib.Data.List.Basic
import Mathlib.Data.List.Nodup
/-!
# Interning tables

Values numbered densely in the order they were first seen, with an index from value to
number. The index is right by construction: a table whose index disagrees with its entries
cannot be built. Tables only grow, so a number keeps its value.
-/

namespace Lib

structure Interner (α : Type) where
  entries : List α
  index : α → Option Nat
  index_iff : ∀ a i, index a = some i ↔ entries[i]? = some a

namespace Interner

variable {α : Type} {t t' t'' : Interner α} {a b : α} {i : Nat}

/-- The second table is the first, grown. -/
def Grown (t t' : Interner α) : Prop := t.entries <+: t'.entries

theorem Grown.refl (t : Interner α) : Grown t t := List.prefix_rfl

theorem Grown.trans (h : Grown t t') (h' : Grown t' t'') : Grown t t'' := List.IsPrefix.trans h h'

theorem Grown.get (h : Grown t t') (hi : t.entries[i]? = some a) : t'.entries[i]? = some a := by
  obtain ⟨more, hmore⟩ := h
  rw [← hmore, List.getElem?_append_left (List.getElem?_eq_some_iff.1 hi).1]
  exact hi

theorem Grown.index (h : Grown t t') (hi : t.index a = some i) : t'.index a = some i :=
  (t'.index_iff a i).2 (h.get ((t.index_iff a i).1 hi))

theorem Grown.length_le (h : Grown t t') : t.entries.length ≤ t'.entries.length := List.IsPrefix.length_le h

/-- Values with one number are one value, and one value has one number. -/
theorem index_injective (ha : t.index a = some i) (hb : t.index b = some i) : a = b :=
  Option.some.inj (((t.index_iff a i).1 ha).symm.trans ((t.index_iff b i).1 hb))

theorem index_lt (h : t.index a = some i) : i < t.entries.length :=
  (List.getElem?_eq_some_iff.1 ((t.index_iff a i).1 h)).1

/-! ## Adding values -/

variable [DecidableEq α]

def empty : Interner α := ⟨[], fun _ => none, by simp⟩

/-- Adds a value the table does not have. -/
def push (t : Interner α) (a : α) (h : t.index a = none) : Interner α where
  entries := t.entries ++ [a]
  index b := if b = a then some t.entries.length else t.index b
  index_iff b i := by
    rw [List.getElem?_append]
    by_cases hb : b = a
    · subst hb
      rw [if_pos rfl]
      split
      · rename_i hi
        refine ⟨fun he => absurd (Option.some.inj he) (by omega), fun he => ?_⟩
        rw [(t.index_iff b i).2 he] at h
        cases h
      · rename_i hi
        rw [List.getElem?_singleton]
        split <;> simp <;> omega
    · rw [if_neg hb, t.index_iff]
      split
      · rfl
      · rename_i hi
        rw [List.getElem?_eq_none (by omega), List.getElem?_singleton]
        split <;> simp [Ne.symm hb]

/-- The number of a value, which is added if it is new. -/
def intern (t : Interner α) (a : α) : Nat × Interner α :=
  match h : t.index a with
  | some i => (i, t)
  | none => (t.entries.length, t.push a h)

theorem intern_cases (t : Interner α) (a : α) :
    (∃ i, t.index a = some i ∧ t.intern a = (i, t)) ∨
    ∃ h : t.index a = none, t.intern a = (t.entries.length, t.push a h) := by
  unfold intern
  split
  · rename_i i h
    exact .inl ⟨i, h, rfl⟩
  · rename_i h
    exact .inr ⟨h, rfl⟩

theorem intern_grown (t : Interner α) (a : α) : Grown t (t.intern a).2 := by
  rcases t.intern_cases a with ⟨i, -, h⟩ | ⟨hnone, h⟩
  · rw [h]
    exact Grown.refl t
  · rw [h]
    exact List.prefix_append _ _

theorem index_intern (t : Interner α) (a : α) : (t.intern a).2.index a = some (t.intern a).1 := by
  rcases t.intern_cases a with ⟨i, hi, h⟩ | ⟨hnone, h⟩
  · rw [h]
    exact hi
  · rw [h]
    exact if_pos rfl

theorem intern_of_index (h : t.index a = some i) : t.intern a = (i, t) := by
  rcases t.intern_cases a with ⟨j, hj, he⟩ | ⟨hnone, -⟩
  · rw [he, Option.some.inj (hj.symm.trans h)]
  · rw [hnone] at h
    cases h

end Interner

end Lib
