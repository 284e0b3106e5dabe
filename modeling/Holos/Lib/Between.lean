import Mathlib.Data.List.Lex
import Mathlib.Order.Lattice
/-!
# Lists between two lists

Lists in the order of their elements from the left: what is below a list of two parts, and what
is between two continuations of one list.
-/

namespace Lib

variable {α : Type} [LinearOrder α]

/-- Below a list of two parts: below the first, or behind it and below the second. -/
theorem lt_append_iff {q r k : List α} : k < q ++ r ↔ k < q ∨ ∃ t, k = q ++ t ∧ t < r := by
  induction q generalizing k with
  | nil => simp
  | cons a q ih =>
    cases k with
    | nil => simp
    | cons b k =>
      rw [List.cons_append, List.cons_lt_cons_iff, List.cons_lt_cons_iff, ih]
      constructor
      · rintro (hlt | ⟨rfl, hlt | ⟨t, rfl, ht⟩⟩)
        · exact .inl (.inl hlt)
        · exact .inl (.inr ⟨rfl, hlt⟩)
        · exact .inr ⟨t, rfl, ht⟩
      · rintro ((hlt | ⟨rfl, hlt⟩) | ⟨t, ht, hlt⟩)
        · exact .inl hlt
        · exact .inr ⟨rfl, .inl hlt⟩
        · obtain ⟨rfl, rfl⟩ := List.cons.inj ht
          exact .inr ⟨rfl, .inr ⟨t, rfl, hlt⟩⟩

theorem not_append_lt (q t : List α) : ¬q ++ t < q := by
  induction q with
  | nil => exact List.not_lt_nil _
  | cons a q ih =>
    rw [List.cons_append, List.cons_lt_cons_iff]
    rintro (hlt | ⟨-, hlt⟩)
    · exact lt_irrefl a hlt
    · exact ih hlt

omit [LinearOrder α] in
theorem append_prefix_iff {q r k : List α} : q ++ r <+: k ↔ ∃ t, k = q ++ t ∧ r <+: t := by
  constructor
  · rintro ⟨t, rfl⟩
    exact ⟨r ++ t, List.append_assoc q r t, List.prefix_append r t⟩
  · rintro ⟨t, rfl, s, rfl⟩
    exact ⟨s, List.append_assoc q r s⟩

theorem singleton_lt_iff {a : α} {t : List α} : t < [a] ↔ t = [] ∨ ∃ b s, t = b :: s ∧ b < a := by
  cases t with
  | nil => simp
  | cons b s => simp [List.cons_lt_cons_iff]

omit [LinearOrder α] in
theorem singleton_prefix_iff {a : α} {t : List α} : [a] <+: t ↔ ∃ s, t = a :: s :=
  ⟨fun ⟨s, h⟩ => ⟨s, h.symm⟩, fun ⟨s, h⟩ => ⟨s, h.symm⟩⟩

/-- Below one element or beginning with it: empty, or with a first element that is no greater. -/
theorem first_le_iff {a : α} {t : List α} : (t < [a] ∨ [a] <+: t) ↔ ∀ b s, t = b :: s → b ≤ a := by
  rw [singleton_lt_iff, singleton_prefix_iff]
  cases t with
  | nil => simp
  | cons b s => simp [le_iff_lt_or_eq]

theorem first_lt_iff {a : α} {t : List α} : t < [a] ↔ ∀ b s, t = b :: s → b < a := by
  rw [singleton_lt_iff]
  cases t with
  | nil => simp
  | cons b s => simp

/-- The lists from one continuation of a prefix to another: those that begin with the prefix and
have an element between the two behind it. -/
theorem between_iff {pre k : List α} {first last : α} :
    (¬k < pre ++ [first] ∧ (k < pre ++ [last] ∨ pre ++ [last] <+: k)) ↔
      pre <+: k ∧ ∃ next, k[pre.length]? = some next ∧ first ≤ next ∧ next ≤ last := by
  rw [lt_append_iff, lt_append_iff, append_prefix_iff]
  constructor
  · rintro ⟨hlow, hhigh⟩
    obtain ⟨hpre, hbehind⟩ := not_or.1 hlow
    have hsplit : ∃ t, k = pre ++ t ∧ (t < [last] ∨ [last] <+: t) := by
      rcases hhigh with (hlt | ⟨t, ht, hlt⟩) | ⟨t, ht, hlt⟩
      · exact absurd hlt hpre
      · exact ⟨t, ht, .inl hlt⟩
      · exact ⟨t, ht, .inr hlt⟩
    obtain ⟨t, rfl, ht⟩ := hsplit
    have hfirst : ¬t < [first] := fun hlt => hbehind ⟨t, rfl, hlt⟩
    cases t with
    | nil => exact absurd (singleton_lt_iff.2 (.inl rfl)) hfirst
    | cons next rest =>
      refine ⟨List.prefix_append pre _, next, by simp, ?_, ?_⟩
      · exact not_lt.1 (fun hlt => hfirst (singleton_lt_iff.2 (.inr ⟨next, rest, rfl, hlt⟩)))
      · rcases ht with hlt | hp
        · obtain h | ⟨b, s, h, hb⟩ := singleton_lt_iff.1 hlt
          · cases h
          · cases h
            exact le_of_lt hb
        · obtain ⟨s, h⟩ := singleton_prefix_iff.1 hp
          cases h
          exact le_rfl
  · rintro ⟨⟨t, rfl⟩, next, hnext, hfirst, hlast⟩
    obtain ⟨rest, rfl⟩ : ∃ rest, t = next :: rest := by
      cases t with
      | nil => simp at hnext
      | cons b rest =>
        rw [List.getElem?_append_right le_rfl, Nat.sub_self] at hnext
        cases hnext
        exact ⟨rest, rfl⟩
    constructor
    · rintro (hlt | ⟨t, ht, hlt⟩)
      · exact not_append_lt _ _ hlt
      · cases List.append_cancel_left ht
        obtain h | ⟨b, s, h, hb⟩ := singleton_lt_iff.1 hlt
        · cases h
        · cases h
          exact absurd hb (not_lt.2 hfirst)
    · rcases lt_or_eq_of_le hlast with hlt | rfl
      · exact .inl (.inr ⟨_, rfl, singleton_lt_iff.2 (.inr ⟨next, rest, rfl, hlt⟩)⟩)
      · exact .inr ⟨_, rfl, singleton_prefix_iff.2 ⟨rest, rfl⟩⟩

end Lib
