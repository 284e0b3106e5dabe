import Mathlib.Algebra.Group.Nat.Defs
import Mathlib.Order.Lattice.Nat
import Mathlib.Order.FixedPoints
import Mathlib.Order.Iterate
import Mathlib.Order.CompletePartialOrder
/-!
# Saturation

`saturation T x` is the least point above `x` that `T` does not lead out of. Naive iteration goes
to it in stages, each one joined with what `T` makes of it: a stage that `T` does not lead out of
is the saturation, and the first such stage is the same for everyone.
-/

namespace Lib

open OrderHom

variable {α : Type*} [CompleteLattice α] (T : α →o α) (x : α)

/-- `x` put back at every step. -/
def above : α →o α where
  toFun y := x ⊔ T y
  monotone' _ _ h := sup_le_sup_left (T.mono h) x

def saturation : α := lfp (above T x)

variable {T x} {y : α}

theorem isLeast_saturation : IsLeast {y | x ≤ y ∧ T y ≤ y} (saturation T x) := by
  have h := isLeast_lfp_le (above T x)
  refine ⟨sup_le_iff.1 h.1, fun y hy => ?_⟩
  exact h.2 (sup_le hy.1 hy.2)

theorem le_saturation : x ≤ saturation T x := isLeast_saturation.1.1

theorem apply_saturation_le : T (saturation T x) ≤ saturation T x := isLeast_saturation.1.2

theorem saturation_le (hx : x ≤ y) (hT : T y ≤ y) : saturation T x ≤ y := isLeast_saturation.2 ⟨hx, hT⟩

theorem eq_saturation (hx : x ≤ y) (hT : T y ≤ y) (hy : y ≤ saturation T x) : y = saturation T x :=
  le_antisymm hy (saturation_le hx hT)

theorem saturation_of_closed (hT : T x ≤ x) : saturation T x = x :=
  (eq_saturation le_rfl hT le_saturation).symm

/-- There is nothing left to add to a saturation. -/
@[simp] theorem saturation_saturation : saturation T (saturation T x) = saturation T x :=
  saturation_of_closed apply_saturation_le

/-! ## Stages -/

variable (T x)

def stage (n : Nat) : α := (fun y => y ⊔ T y)^[n] x

/-- The first stage that `T` does not lead out of. -/
noncomputable def depth : Nat := sInf {n | T (stage T x n) ≤ stage T x n}

variable {T x} {n : Nat}

@[simp] theorem stage_zero : stage T x 0 = x := rfl

theorem stage_succ : stage T x (n + 1) = stage T x n ⊔ T (stage T x n) := Function.iterate_succ_apply' ..

theorem le_stage : x ≤ stage T x n := by
  induction n with
  | zero => exact le_rfl
  | succ n ih =>
    rw [stage_succ]
    exact ih.trans le_sup_left

theorem stage_le_saturation : stage T x n ≤ saturation T x := by
  induction n with
  | zero => exact le_saturation
  | succ n ih =>
    rw [stage_succ]
    exact sup_le ih ((T.mono ih).trans apply_saturation_le)

theorem stage_eq_saturation (hT : T (stage T x n) ≤ stage T x n) : stage T x n = saturation T x :=
  eq_saturation le_stage hT stage_le_saturation

theorem depth_eq (hT : T (stage T x n) ≤ stage T x n) (hopen : ∀ m < n, ¬ T (stage T x m) ≤ stage T x m) : depth T x = n := by
  apply le_antisymm
  · exact Nat.sInf_le hT
  · by_contra hlt
    have hmem : depth T x ∈ {n | T (stage T x n) ≤ stage T x n} := Nat.sInf_mem ⟨n, hT⟩
    exact hopen _ (not_le.1 hlt) hmem

theorem depth_of_closed (hT : T x ≤ x) : depth T x = 0 := depth_eq (n := 0) hT (fun _ hm => absurd hm (Nat.not_lt_zero _))

end Lib
