import Mathlib.Data.List.Sort
import Mathlib.Data.List.SplitBy
/-!
# Slices of ordered lists

Two searches for a partition point cut a slice out of an ordered list: the entries behind the first
point and before the second. Where what is looked for is one block of the order, the slice is all of
it. `groups` cuts a list where the key of its entries changes.
-/

namespace Lib

variable {α : Type} {R : α → α → Prop} {p q : α → Bool} {l : List α}

/-- Where the entries that satisfy `p` end, for a list that has them first. -/
def partitionPoint (p : α → Bool) (l : List α) : Nat := (l.takeWhile p).length

/-- The entries behind the point of `p`, as far as those with `q` go. -/
def slice (p q : α → Bool) (l : List α) : List α :=
  let lo := partitionPoint p l
  let hi := partitionPoint q (l.drop lo) + lo
  (l.take hi).drop lo

theorem drop_partitionPoint (p : α → Bool) (l : List α) : l.drop (partitionPoint p l) = l.dropWhile p := by
  unfold partitionPoint
  induction l with
  | nil => rfl
  | cons a l ih => cases h : p a <;> simp [h, ih]

theorem take_partitionPoint (p : α → Bool) (l : List α) : l.take (partitionPoint p l) = l.takeWhile p := by
  unfold partitionPoint
  induction l with
  | nil => rfl
  | cons a l ih => cases h : p a <;> simp [h, ih]

theorem slice_eq (p q : α → Bool) (l : List α) : slice p q l = (l.dropWhile p).takeWhile q := by
  unfold slice
  dsimp only
  rw [List.drop_take, Nat.add_sub_cancel, take_partitionPoint, drop_partitionPoint]

/-- What an ordered list has first it has nowhere else. -/
theorem takeWhile_eq_filter (h : l.Pairwise R) (hq : ∀ a b, R a b → q b = true → q a = true) : l.takeWhile q = l.filter q := by
  induction l with
  | nil => rfl
  | cons a l ih =>
    obtain ⟨ha, hl⟩ := List.pairwise_cons.1 h
    cases hqa : q a with
    | true => rw [List.takeWhile_cons_of_pos hqa, List.filter_cons_of_pos hqa, ih hl]
    | false =>
      rw [List.takeWhile_cons_of_neg (by simp [hqa]), List.filter_cons_of_neg (by simp [hqa])]
      refine (List.filter_eq_nil_iff.2 fun b hb hqb => ?_).symm
      rw [hq a b (ha b hb) hqb] at hqa
      cases hqa

theorem dropWhile_eq_filter (h : l.Pairwise R) (hp : ∀ a b, R a b → p b = true → p a = true) :
    l.dropWhile p = l.filter (fun a => !p a) := by
  induction l with
  | nil => rfl
  | cons a l ih =>
    obtain ⟨ha, hl⟩ := List.pairwise_cons.1 h
    cases hpa : p a with
    | true => rw [List.dropWhile_cons_of_pos hpa, List.filter_cons_of_neg (by simp [hpa]), ih hl]
    | false =>
      rw [List.dropWhile_cons_of_neg (by simp [hpa]), List.filter_eq_self.2]
      intro b hb
      rcases List.mem_cons.1 hb with rfl | hb
      · simp [hpa]
      · cases hpb : p b with
        | false => rfl
        | true =>
          rw [hp a b (ha b hb) hpb] at hpa
          cases hpa

/-- A slice has every entry of its block. -/
theorem slice_eq_filter (h : l.Pairwise R) (hp : ∀ a b, R a b → p b = true → p a = true)
    (hq : ∀ a b, R a b → p a = false → q b = true → q a = true) (hpq : ∀ a, q a = true → p a = false) :
    slice p q l = l.filter q := by
  rw [slice_eq, dropWhile_eq_filter h hp]
  have hboth : (l.filter (fun a => !p a)).Pairwise (fun a b => R a b ∧ p a = false) := by
    refine (h.filter _).imp_of_mem (fun {a b} ha _ hab => ⟨hab, ?_⟩)
    simpa using (List.mem_filter.1 ha).2
  rw [takeWhile_eq_filter hboth (fun a b hab => hq a b hab.1 hab.2), List.filter_filter]
  refine List.filter_congr fun a _ => ?_
  cases hqa : q a with
  | false => rfl
  | true => simp [hpq a hqa]

/-! ## Groups -/

section
variable {κ : Type} [DecidableEq κ] {key : α → κ} {g : List α} {a b : α}

/-- Neighbours that share a key, in one group. -/
def groups (key : α → κ) (l : List α) : List (List α) := l.splitBy (fun a b => key a = key b)

theorem mem_groups : (∃ g ∈ groups key l, a ∈ g) ↔ a ∈ l := by
  rw [← List.mem_flatten, groups, List.flatten_splitBy]

theorem ne_nil_of_mem_groups (hg : g ∈ groups key l) : g ≠ [] := List.ne_nil_of_mem_splitBy hg

/-- A group has one key. -/
theorem key_of_mem_groups (hg : g ∈ groups key l) (ha : a ∈ g) (hb : b ∈ g) : key a = key b := by
  have hchain : g.IsChain (fun a b => key a = key b) := by simpa using List.isChain_of_mem_splitBy hg
  have htrans : IsTrans α (fun a b => key a = key b) := ⟨fun _ _ _ => Eq.trans⟩
  have hsymm : Std.Symm (fun a b => key a = key b) := ⟨fun _ _ => Eq.symm⟩
  exact List.Pairwise.forall_of_forall (R := fun a b => key a = key b) (fun _ _ => rfl) (List.isChain_iff_pairwise.1 hchain) ha hb

end

end Lib
