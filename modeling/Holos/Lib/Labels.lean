import Mathlib.Data.List.Basic
/-!
# Numbered labels

A label is made of another by putting something that is no digit behind it, and a number. Labels made
so are told apart by their last number and by what stands before it.
-/

namespace Lib

/-- Where two texts end in a character of one kind and nothing of that kind behind it, that is the same place. -/
theorem split_last {α : Type} {p : α → Prop} {a b x y : List α} {c d : α} (hc : p c) (hd : p d) (hx : ∀ k ∈ x, ¬p k) (hy : ∀ k ∈ y, ¬p k)
    (h : a ++ c :: x = b ++ d :: y) : a = b ∧ c = d ∧ x = y := by
  rcases List.append_eq_append_iff.1 h with ⟨l, hb, htail⟩ | ⟨l, ha, htail⟩
  · cases l with
    | nil =>
      obtain ⟨hcd, hxy⟩ := List.cons.inj htail
      exact ⟨by rw [hb, List.append_nil], hcd, hxy⟩
    | cons k l =>
      obtain ⟨-, hxy⟩ := List.cons.inj htail
      exact absurd hd (hx d (hxy ▸ List.mem_append_right l List.mem_cons_self))
  · cases l with
    | nil =>
      obtain ⟨hcd, hxy⟩ := List.cons.inj htail
      exact ⟨by rw [ha, List.append_nil], hcd.symm, hxy.symm⟩
    | cons k l =>
      obtain ⟨-, hxy⟩ := List.cons.inj htail
      exact absurd hc (hy c (hxy ▸ List.mem_append_right l List.mem_cons_self))

theorem isDigit_of_mem_toString {n : Nat} {k : Char} (h : k ∈ (toString n).toList) : k.isDigit = true := by
  rw [Nat.toString_eq_repr, Nat.toList_repr] at h
  exact Nat.isDigit_of_mem_toDigits (by decide) (by decide) h

theorem toString_inj {m n : Nat} (h : (toString m).toList = (toString n).toList) : m = n := by
  rw [Nat.toString_eq_repr, Nat.toString_eq_repr, Nat.toList_repr, Nat.toList_repr] at h
  have hread := congrArg (fun ds => Nat.ofDigitChars 10 ds 0) h
  simpa using hread

/-- The text up to its number, the mark before the number, and the number. -/
theorem numbered_inj {a b : List Char} {c d : Char} (hc : c.isDigit = false) (hd : d.isDigit = false) {m n : Nat}
    (h : a ++ c :: (toString m).toList = b ++ d :: (toString n).toList) : a = b ∧ c = d ∧ m = n := by
  have hdigits : ∀ n : Nat, ∀ k ∈ (toString n).toList, ¬k.isDigit = false := by
    intro n k hk
    rw [isDigit_of_mem_toString hk]
    decide
  obtain ⟨hab, hcd, hmn⟩ := @split_last Char (·.isDigit = false) _ _ _ _ _ _ hc hd (hdigits m) (hdigits n) h
  exact ⟨hab, hcd, toString_inj hmn⟩

end Lib
