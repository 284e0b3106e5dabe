import Mathlib.Data.Set.Lattice
import Mathlib.Order.CompletePartialOrder
import Mathlib.Order.Disjoint
/-!
# Documents whose names are their own

Statements carry labels, and a label means one thing within the document it comes from. `Merged`
says that a set of statements is what is left of another and of pieces brought in one after another,
each with labels of its own that were nowhere before it.
-/

namespace Lib.Apart

variable {Q L : Type} {labels : Q → List L}

/-- The labels of a set of statements. -/
def labelsOf (labels : Q → List L) (S : Set Q) : Set L := {l | ∃ q ∈ S, l ∈ labels q}

/-- What a document came to: its statements, and those of their labels that are its own. -/
structure Piece (Q L : Type) where
  statements : Set Q
  own : Set L

/-- Labels that nothing has which was there before. -/
def New (labels : Q → List L) (S₀ : Set Q) (ps : List (Piece Q L)) (own : Set L) : Prop :=
  Disjoint own (labelsOf labels S₀) ∧ ∀ p ∈ ps, Disjoint own (labelsOf labels p.statements)

inductive Merged (labels : Q → List L) (S₀ : Set Q) : List (Piece Q L) → Set Q → Prop
  | held : Merged labels S₀ [] S₀
  | cleared {ps S K} (h : Merged labels S₀ ps S) (hK : K ⊆ S) : Merged labels S₀ ps K
  | brought {ps S} (p : Piece Q L) (h : Merged labels S₀ ps S) (hp : New labels S₀ ps p.own) :
      Merged labels S₀ (ps ++ [p]) (S ∪ p.statements)

/-- The merge of what was held and the pieces. -/
structure IsMerge (labels : Q → List L) (S₀ : Set Q) (ps : List (Piece Q L)) (S : Set Q) : Prop where
  statements : S = S₀ ∪ {q | ∃ p ∈ ps, q ∈ p.statements}
  held : ∀ p ∈ ps, Disjoint p.own (labelsOf labels S₀)
  apart : ps.Pairwise (fun p p' => Disjoint p'.own (labelsOf labels p.statements))

variable {S₀ S S' K : Set Q} {ps qs : List (Piece Q L)} {p : Piece Q L}

theorem labelsOf_mono (h : S ⊆ S') : labelsOf labels S ⊆ labelsOf labels S' := fun _ ⟨q, hq, hl⟩ => ⟨q, h hq, hl⟩

theorem IsMerge.held_only : IsMerge labels S₀ [] S₀ := ⟨by simp, by simp, .nil⟩

theorem IsMerge.snoc (h : IsMerge labels S₀ ps S) (hp : New labels S₀ ps p.own) : IsMerge labels S₀ (ps ++ [p]) (S ∪ p.statements) where
  statements := by
    rw [h.statements, Set.union_assoc]
    congr 1
    ext q
    simp [or_and_right, exists_or]
  held p' hp' := by
    rcases List.mem_append.1 hp' with hp' | hp'
    · exact h.held p' hp'
    · rw [List.mem_singleton.1 hp']
      exact hp.1
  apart := by
    refine List.pairwise_append.2 ⟨h.apart, List.pairwise_singleton _ _, fun p' hp' p'' hp'' => ?_⟩
    rw [List.mem_singleton.1 hp'']
    exact hp.2 p' hp'

/-- Whatever is cleared in between, no piece shares a label of its own with an earlier one or with
what was held. -/
theorem Merged.apart (h : Merged labels S₀ ps S) :
    (∀ p ∈ ps, Disjoint p.own (labelsOf labels S₀)) ∧ ps.Pairwise (fun p p' => Disjoint p'.own (labelsOf labels p.statements)) := by
  induction h with
  | held => exact ⟨by simp, .nil⟩
  | cleared _ _ ih => exact ih
  | brought p _ hp ih =>
    refine ⟨fun p' hp' => ?_, List.pairwise_append.2 ⟨ih.2, List.pairwise_singleton _ _, fun p' hp' p'' hp'' => ?_⟩⟩
    · rcases List.mem_append.1 hp' with hp' | hp'
      · exact ih.1 p' hp'
      · rw [List.mem_singleton.1 hp']
        exact hp.1
    · rw [List.mem_singleton.1 hp'']
      exact hp.2 p' hp'

theorem Merged.subset (h : Merged labels S₀ ps S) : S ⊆ S₀ ∪ {q | ∃ p ∈ ps, q ∈ p.statements} := by
  induction h with
  | held => exact Set.subset_union_left
  | cleared _ hK ih => exact hK.trans ih
  | brought p _ _ ih =>
    rintro q (hq | hq)
    · rcases ih hq with hq | ⟨p', hp', hq⟩
      · exact .inl hq
      · exact .inr ⟨p', List.mem_append_left _ hp', hq⟩
    · exact .inr ⟨p, List.mem_append_right _ (List.mem_singleton_self p), hq⟩

/-! ## Pieces brought in together -/

/-- Pieces each of which is new when its turn comes. -/
def AllNew (labels : Q → List L) (S₀ : Set Q) : List (Piece Q L) → List (Piece Q L) → Prop
  | _, [] => True
  | ps, p :: qs => New labels S₀ ps p.own ∧ AllNew labels S₀ (ps ++ [p]) qs

theorem Merged.append (h : Merged labels S₀ ps S) (hqs : AllNew labels S₀ ps qs) :
    Merged labels S₀ (ps ++ qs) (S ∪ {q | ∃ p ∈ qs, q ∈ p.statements}) := by
  induction qs generalizing ps S with
  | nil => simpa using h
  | cons p qs ih =>
    have hrest := ih (h.brought p hqs.1) hqs.2
    rw [List.append_assoc, List.singleton_append, Set.union_assoc] at hrest
    convert hrest using 2
    ext q
    simp

theorem IsMerge.append (h : IsMerge labels S₀ ps S) (hqs : AllNew labels S₀ ps qs) :
    IsMerge labels S₀ (ps ++ qs) (S ∪ {q | ∃ p ∈ qs, q ∈ p.statements}) := by
  induction qs generalizing ps S with
  | nil => simpa using h
  | cons p qs ih =>
    have hrest := ih (h.snoc hqs.1) hqs.2
    rw [List.append_assoc, List.singleton_append, Set.union_assoc] at hrest
    convert hrest using 2
    ext q
    simp

end Lib.Apart
