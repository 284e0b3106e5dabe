import Mathlib.Data.Fintype.Card
import Mathlib.Logic.Relation
/-!
# Levels

What a set leads to, one level at a time. Each level is what the one before leads to, put in order,
less what was met already. Levels end where nothing new is met, so a cycle ends as well.
-/

namespace Lib

variable {α : Type} [DecidableEq α]

/-- The levels below a frontier, added to `out`. -/
def levels (tidy : List α → List α) (expand : List α → Option (List α)) : Nat → List α → List α → List α → Option (List α)
  | 0, _, _, _ => none
  | n + 1, seen, frontier, out => do
    if frontier.isEmpty then return out
    let reached ← expand frontier
    let next := (tidy reached).filter (· ∉ seen)
    if next.isEmpty then return out
    levels tidy expand n (tidy (seen ++ next)) next (out ++ next)

variable {tidy : List α → List α} {expand : List α → Option (List α)} {P : α → α → Prop} {start seen frontier out : List α} {n : Nat}

/-- What `expand` adds is what `P` leads to. -/
def Expands (P : α → α → Prop) (expand : List α → Option (List α)) : Prop :=
  ∀ l, ∃ out, expand l = some out ∧ ∀ y, y ∈ out ↔ ∃ x ∈ l, P x y

/-- Below `start`, everything that was met and is not on the frontier was expanded. -/
structure Levelled (P : α → α → Prop) (start seen frontier out : List α) : Prop where
  mem_out : ∀ y, y ∈ out ↔ y ∈ seen
  below : ∀ y ∈ seen, ∃ x ∈ start, Relation.TransGen P x y
  known : ∀ y ∈ frontier, y ∈ start ∨ y ∈ seen
  expanded : ∀ x, x ∈ start ∨ x ∈ seen → x ∉ frontier → ∀ y, P x y → y ∈ seen

omit [DecidableEq α] in
theorem Levelled.begin : Levelled P start [] start [] where
  mem_out _ := Iff.rfl
  below _ hy := by cases hy
  known _ hy := .inl hy
  expanded _ hx hno := (hx.elim hno (fun h => by cases h)).elim

omit [DecidableEq α] in
/-- When nothing is left to expand, everything below was met. -/
theorem Levelled.ends (h : Levelled P start seen frontier out) (hdone : ∀ x ∈ frontier, ∀ y, P x y → y ∈ seen) (y : α) :
    y ∈ out ↔ ∃ x ∈ start, Relation.TransGen P x y := by
  have hclosed : ∀ x, x ∈ start ∨ x ∈ seen → ∀ y, P x y → y ∈ seen := by
    intro x hx y hxy
    by_cases hf : x ∈ frontier
    · exact hdone x hf y hxy
    · exact h.expanded x hx hf y hxy
  rw [h.mem_out]
  constructor
  · exact h.below y
  · rintro ⟨x, hx, hxy⟩
    induction hxy with
    | single hxy => exact hclosed x (.inl hx) _ hxy
    | tail _ hyz ih => exact hclosed _ (.inr ih) _ hyz

theorem Levelled.next (h : Levelled P start seen frontier out) (htidy : ∀ l x, x ∈ tidy l ↔ x ∈ l) {reached : List α}
    (hreached : ∀ y, y ∈ reached ↔ ∃ x ∈ frontier, P x y) :
    Levelled P start (tidy (seen ++ (tidy reached).filter (· ∉ seen))) ((tidy reached).filter (· ∉ seen))
      (out ++ (tidy reached).filter (· ∉ seen)) := by
  have hnew : ∀ y, y ∈ (tidy reached).filter (· ∉ seen) ↔ (∃ x ∈ frontier, P x y) ∧ y ∉ seen := by
    intro y
    rw [List.mem_filter, htidy, hreached, decide_eq_true_eq]
  have hseen : ∀ y, y ∈ tidy (seen ++ (tidy reached).filter (· ∉ seen)) ↔ y ∈ seen ∨ ∃ x ∈ frontier, P x y := by
    intro y
    rw [htidy, List.mem_append, hnew]
    tauto
  refine ⟨fun y => ?_, fun y hy => ?_, fun y hy => .inr ((hseen y).2 (.inr ((hnew y).1 hy).1)), fun x hx hno y hxy => ?_⟩
  · rw [htidy, List.mem_append, List.mem_append, h.mem_out]
  · rcases (hseen y).1 hy with hy | ⟨x, hx, hxy⟩
    · exact h.below y hy
    · rcases h.known x hx with hs | hs
      · exact ⟨x, hs, .single hxy⟩
      · obtain ⟨s, hs, hsx⟩ := h.below x hs
        exact ⟨s, hs, hsx.tail hxy⟩
  · rw [hseen]
    by_cases hf : x ∈ frontier
    · exact .inr ⟨x, hf, hxy⟩
    · refine .inl (h.expanded x ?_ hf y hxy)
      rcases hx with hx | hx
      · exact .inl hx
      · refine .inr ?_
        by_contra hns
        rcases (hseen x).1 hx with hs | hs
        · exact hns hs
        · exact hno ((hnew x).2 ⟨hs, hns⟩)

/-- Every level but the last meets something new, so there are no more levels than there is to meet. -/
theorem levels_of_levelled [Fintype α] (htidy : ∀ l x, x ∈ tidy l ↔ x ∈ l) (hexp : Expands P expand)
    (h : Levelled P start seen frontier out) (hn : Fintype.card α < n + seen.toFinset.card) :
    ∃ found, levels tidy expand n seen frontier out = some found ∧ ∀ y, y ∈ found ↔ ∃ x ∈ start, Relation.TransGen P x y := by
  induction n generalizing seen frontier out with
  | zero =>
    have hcard := Finset.card_le_univ seen.toFinset
    omega
  | succ n ih =>
    unfold levels
    by_cases hf : frontier = []
    · subst hf
      exact ⟨out, rfl, h.ends (fun x hx => by cases hx)⟩
    obtain ⟨reached, hr, hmem⟩ := hexp frontier
    have hlevel := h.next htidy hmem
    rw [if_neg (by simpa using hf), hr]
    by_cases hnone : (tidy reached).filter (· ∉ seen) = []
    · refine ⟨out, ?_, h.ends (fun x hx y hxy => ?_)⟩
      · rw [Option.bind_eq_bind, Option.bind_some, hnone]
        rfl
      · by_contra hy
        have hnew : y ∈ (tidy reached).filter (· ∉ seen) := by
          rw [List.mem_filter, htidy, hmem, decide_eq_true_eq]
          exact ⟨⟨x, hx, hxy⟩, hy⟩
        rw [hnone] at hnew
        cases hnew
    · obtain ⟨y, hy⟩ := List.exists_mem_of_ne_nil _ hnone
      have hgrown : seen.toFinset ⊂ (tidy (seen ++ (tidy reached).filter (· ∉ seen))).toFinset := by
        refine Finset.ssubset_iff_of_subset (fun z hz => ?_) |>.2 ⟨y, ?_, ?_⟩
        · rw [List.mem_toFinset, htidy]
          exact List.mem_append_left _ (List.mem_toFinset.1 hz)
        · rw [List.mem_toFinset, htidy]
          exact List.mem_append_right _ hy
        · rw [List.mem_toFinset]
          exact of_decide_eq_true (List.mem_filter.1 hy).2
      obtain ⟨found, hfound, hall⟩ := ih hlevel (by have := Finset.card_lt_card hgrown; omega)
      refine ⟨found, ?_, hall⟩
      rw [Option.bind_eq_bind, Option.bind_some, if_neg (by simpa using hnone)]
      exact hfound

/-- The levels below a list are all that it leads to. -/
theorem levels_below [Fintype α] (htidy : ∀ l x, x ∈ tidy l ↔ x ∈ l) (hexp : Expands P expand) (hn : Fintype.card α < n) :
    Expands (Relation.TransGen P) (fun start => levels tidy expand n [] start []) :=
  fun _ => levels_of_levelled htidy hexp .begin (by simpa using hn)

end Lib
