import Mathlib.Data.List.Basic
import Mathlib.Data.List.Infix
/-!
# The first occurrence of a word

A word is looked for window by window. It is found where nothing before it, with the word
behind, holds the word earlier.
-/

namespace Lib

variable {α : Type} [DecidableEq α]

/-- The stretches of a length, in order. -/
def windows (n : Nat) : List α → List (List α)
  | [] => if n = 0 then [[]] else []
  | a :: l => if n ≤ (a :: l).length then (a :: l).take n :: windows n l else []

/-- Where the first occurrence of a word begins. -/
def find (haystack needle : List α) : Option Nat := (windows needle.length haystack).findIdx? (· == needle)

omit [DecidableEq α] in
/-- A word put behind `u` occurs there first. -/
def Free (needle u : List α) : Prop := ∀ x y, u ++ needle = x ++ needle ++ y → y = []

omit [DecidableEq α] in
theorem windows_of_lt {n : Nat} {l : List α} (h : l.length < n) : windows n l = [] := by
  cases l with
  | nil =>
    rw [windows, if_neg]
    rintro rfl
    exact absurd h (Nat.not_lt_zero _)
  | cons a l => rw [windows, if_neg (Nat.not_le.2 h)]

theorem find_nil {needle : List α} (hne : needle ≠ []) : find [] needle = none := by
  rw [find, windows_of_lt (List.length_pos_iff.2 hne)]
  rfl

/-- A word is found here, or looked for one on. -/
theorem find_cons {needle : List α} (a : α) (l : List α) :
    find (a :: l) needle = if needle <+: a :: l then some 0 else (find l needle).map (· + 1) := by
  by_cases hlen : needle.length ≤ (a :: l).length
  · have htake : (a :: l).take needle.length = needle ↔ needle <+: a :: l := by
      rw [List.prefix_iff_eq_take]
      exact eq_comm
    rw [find, windows, if_pos hlen, List.findIdx?_cons]
    by_cases hp : needle <+: a :: l
    · rw [if_pos hp, htake.2 hp, beq_self_eq_true, if_pos rfl]
    · rw [if_neg hp, if_neg (by rw [beq_iff_eq, htake]; exact hp)]
      rfl
  · have hshort : l.length < needle.length := by
      rw [List.length_cons] at hlen
      omega
    rw [if_neg (fun hp => hlen hp.length_le), find, find, windows_of_lt (Nat.not_le.1 hlen), windows_of_lt hshort]
    rfl

omit [DecidableEq α] in
theorem Free.nil (needle : List α) : Free needle [] := by
  intro x y h
  have := congrArg List.length h
  simp only [List.length_append, List.length_nil] at this
  exact List.length_eq_zero_iff.1 (by omega)

omit [DecidableEq α] in
theorem Free.tail {needle u : List α} {a : α} (h : Free needle (a :: u)) : Free needle u := by
  intro x y hxy
  apply h (a :: x)
  rw [List.cons_append, hxy]
  rfl

omit [DecidableEq α] in
theorem Free.not_prefix {needle u : List α} {a : α} (h : Free needle (a :: u)) (v : List α) :
    ¬needle <+: a :: u ++ needle ++ v := by
  intro hp
  have hshort : needle <+: a :: u ++ needle := by
    apply List.prefix_of_prefix_length_le hp (List.prefix_append _ v)
    rw [List.length_append]
    omega
  obtain ⟨t, ht⟩ := hshort
  have hnil := h [] t (by rw [List.nil_append, ht])
  have := congrArg List.length ht
  rw [hnil] at this
  simp only [List.length_append, List.length_cons, List.length_nil] at this
  omega

theorem find_append {needle u : List α} (hne : needle ≠ []) (h : Free needle u) (v : List α) :
    find (u ++ needle ++ v) needle = some u.length := by
  induction u with
  | nil =>
    obtain ⟨b, l, rfl⟩ := List.exists_cons_of_ne_nil hne
    have hhere : b :: l <+: b :: (l ++ v) := List.prefix_append (b :: l) v
    rw [List.nil_append, List.cons_append, find_cons, if_pos hhere]
    rfl
  | cons a u ih =>
    have hnot : ¬needle <+: a :: (u ++ needle ++ v) := h.not_prefix v
    rw [List.cons_append, List.cons_append, find_cons, if_neg hnot, ih h.tail]
    rfl

/-- Where a word is found, it stands, and not before. -/
theorem exists_of_find {needle hay : List α} (hne : needle ≠ []) {i : Nat} (h : find hay needle = some i) :
    ∃ u v, hay = u ++ needle ++ v ∧ u.length = i ∧ Free needle u := by
  induction hay generalizing i with
  | nil =>
    rw [find_nil hne] at h
    cases h
  | cons a l ih =>
    rw [find_cons] at h
    by_cases hp : needle <+: a :: l
    · rw [if_pos hp] at h
      obtain ⟨v, hv⟩ := hp
      exact ⟨[], v, hv.symm, Option.some.inj h, .nil needle⟩
    · rw [if_neg hp] at h
      obtain ⟨j, hj, rfl⟩ := Option.map_eq_some_iff.1 h
      obtain ⟨u, v, rfl, rfl, hu⟩ := ih hj
      refine ⟨a :: u, v, rfl, rfl, ?_⟩
      intro x y hxy
      cases x with
      | nil =>
        refine absurd ?_ hp
        rw [List.nil_append] at hxy
        refine ⟨y ++ v, ?_⟩
        rw [← List.append_assoc, ← hxy]
        rfl
      | cons b x => exact hu x y (List.cons.inj hxy).2

theorem find_eq_none {needle hay : List α} (hne : needle ≠ []) : find hay needle = none ↔ ¬needle <:+: hay := by
  induction hay with
  | nil => simp [find_nil hne, hne]
  | cons a l ih =>
    rw [find_cons, List.infix_cons_iff]
    by_cases hp : needle <+: a :: l
    · simp [hp]
    · simp [hp, ih]

/-- A word is met first where it is found. -/
theorem free_iff {needle : List α} (hne : needle ≠ []) (u : List α) : Free needle u ↔ find (u ++ needle) needle = some u.length := by
  constructor
  · intro h
    have hfound := find_append hne h []
    rwa [List.append_nil] at hfound
  · intro h
    obtain ⟨w, v, heq, hlen, hfree⟩ := exists_of_find hne h
    rw [List.append_assoc] at heq
    rwa [(List.append_inj heq hlen.symm).1]

variable {needle u w : List α}

omit [DecidableEq α] in
/-- A word is not in what comes before its first occurrence. -/
theorem Free.not_infix (hne : needle ≠ []) (h : Free needle u) : ¬needle <:+: u := by
  rintro ⟨x, y, rfl⟩
  have hnil := h x (y ++ needle) (by simp only [List.append_assoc])
  exact hne (List.append_eq_nil_iff.1 hnil).2

omit [DecidableEq α] in
theorem Free.cons {a : α} (hnot : ¬needle <+: a :: (u ++ needle)) (h : Free needle u) : Free needle (a :: u) := by
  intro x y hxy
  cases x with
  | nil => exact absurd ⟨y, hxy.symm⟩ hnot
  | cons b x => exact h x y (List.cons.inj hxy).2

omit [DecidableEq α] in
/-- What lacks the word's first element changes nothing. -/
theorem Free.skip {a : α} (hhead : needle.head? = some a) (hnot : a ∉ u) (h : Free needle w) : Free needle (u ++ w) := by
  induction u with
  | nil => exact h
  | cons b u ih =>
    rw [List.mem_cons, not_or] at hnot
    apply Free.cons
    · rintro ⟨t, ht⟩
      cases needle with
      | nil => cases hhead
      | cons c needle => exact hnot.1 ((Option.some.inj hhead).symm.trans (List.cons.inj ht).1)
    · exact ih hnot.2

end Lib
