import Holos.Sparql.Semantics
/-!
# Answers in order

A query's answer is a sequence: an `ORDER BY` sorts it, a `DISTINCT` and a `REDUCED` drop repeats of
it, a slice cuts it. Where the specification leaves the order open, any order is an answer.
-/

namespace Holos.Sparql

open Lib

/-- Whether a solution comes before another under the conditions of an `ORDER BY`. -/
abbrev Before := List OrderExpression → Solution → Solution → Prop

namespace Interpretation

/-- A sequence of solutions that answers a pattern over the default graph. -/
def Sequence (I : Interpretation) (before : Before) : GraphPattern → List Solution → Prop
  | .slice inner start length, l =>
    ∃ l₀, Sequence I before inner l₀ ∧ l = length.elim (l₀.drop start) (fun n => (l₀.drop start).take n)
  | .distinct inner, l => ∃ l₀, Sequence I before inner l₀ ∧ l.Sublist l₀ ∧ (∀ μ ∈ l₀, μ ∈ l) ∧ l.Nodup
  | .reduced inner, l => ∃ l₀, Sequence I before inner l₀ ∧ l.Sublist l₀ ∧ ∀ μ ∈ l₀, μ ∈ l
  | .project inner vars, l => ∃ l₀, Sequence I before inner l₀ ∧ l = l₀.map (Mapping.restrict vars)
  | .orderBy inner expression, l =>
    ∃ l₀, Sequence I before inner l₀ ∧ l.Perm l₀ ∧ l.Pairwise (fun μ ν => ¬ before expression ν μ)
  | pattern, l => (l : Multiset Solution) = I.eval none pattern

end Interpretation

/-! ## Grouping -/

section
variable {α β : Type} [DecidableEq β] (f : α → β)

/-- What has a key, key by key. -/
def grouped (l : List β) (xs : List α) : List α := l.flatMap (fun b => xs.filter (fun a => f a = b))

variable {f} {l : List β} {xs : List α}

theorem mem_grouped {a : α} : a ∈ grouped f l xs ↔ a ∈ xs ∧ f a ∈ l := by
  simp [grouped, and_comm]

theorem grouped_perm (hl : l.Nodup) (h : ∀ a ∈ xs, f a ∈ l) : (grouped f l xs).Perm xs := by
  induction l generalizing xs with
  | nil =>
    have hxs : xs = [] := List.eq_nil_iff_forall_not_mem.2 (fun a ha => List.not_mem_nil (h a ha))
    rw [hxs]
    exact .refl _
  | cons b l ih =>
    obtain ⟨hb, hl⟩ := List.nodup_cons.1 hl
    -- the rest of the keys find the same once those of `b` are gone
    have hrest : grouped f l xs = grouped f l (xs.filter (fun a => !(f a = b : Bool))) := by
      unfold grouped
      refine List.flatMap_congr (fun c hc => ?_)
      rw [List.filter_filter]
      refine List.filter_congr (fun a _ => ?_)
      by_cases hac : f a = c
      · have hne : c ≠ b := fun heq => hb (heq ▸ hc)
        simp [hac, hne]
      · simp [hac]
    have hperm : (grouped f l (xs.filter (fun a => !(f a = b : Bool)))).Perm (xs.filter (fun a => !(f a = b : Bool))) := by
      refine ih hl (fun a ha => ?_)
      obtain ⟨ha, hne⟩ := List.mem_filter.1 ha
      exact (List.mem_cons.1 (h a ha)).resolve_left (by simpa using hne)
    change (xs.filter (fun a => f a = b) ++ grouped f l xs).Perm xs
    rw [hrest]
    exact (hperm.append_left _).trans (List.filter_append_perm (fun a => (f a = b : Bool)) xs)

theorem sublist_grouped (h : ∀ b ∈ l, ∃ a ∈ xs, f a = b) : l.Sublist ((grouped f l xs).map f) := by
  induction l with
  | nil => exact List.nil_sublist _
  | cons b l ih =>
    obtain ⟨a, ha, rfl⟩ := h b List.mem_cons_self
    have hmem : f a ∈ (xs.filter (fun c => f c = f a)).map f := List.mem_map.2 ⟨a, List.mem_filter.2 ⟨ha, by simp⟩, rfl⟩
    change ([f a] ++ l).Sublist (((xs.filter (fun c => f c = f a)) ++ grouped f l xs).map f)
    rw [List.map_append]
    exact (List.singleton_sublist.2 hmem).append (ih (fun b hb => h b (List.mem_cons_of_mem _ hb)))

/-- Grouping by the keys in order puts everything in the order of its key. -/
theorem grouped_pairwise {R : β → β → Prop} (hR : ∀ b, R b b) (hl : l.Pairwise R) :
    (grouped f l xs).Pairwise (fun a a' => R (f a) (f a')) := by
  refine List.pairwise_flatMap.2 ⟨fun b _ => ?_, hl.imp (fun hbc a ha a' ha' => ?_)⟩
  · refine List.pairwise_of_forall_mem_list (fun a ha a' ha' => ?_)
    rw [show f a = b by simpa using (List.mem_filter.1 ha).2, show f a' = b by simpa using (List.mem_filter.1 ha').2]
    exact hR b
  · rw [show f a = _ by simpa using (List.mem_filter.1 ha).2, show f a' = _ by simpa using (List.mem_filter.1 ha').2]
    exact hbc

end

end Holos.Sparql
