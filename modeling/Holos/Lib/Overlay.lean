import Mathlib.Data.Finset.Basic
import Mathlib.Data.List.AList
/-!
# Overlays

A set kept in a database, seen through changes that have not reached it. For each element it
has touched, the overlay knows whether the database has it and whether it is there now, both
learned at the first touch; the database answers for the rest.
-/

namespace Lib

/-- Whether something is there now, and whether the database has it. -/
structure Presence where
  inDb : Bool
  present : Bool
deriving DecidableEq, Repr

abbrev Overlay (α : Type) := AList (fun _ : α => Presence)

namespace Overlay

variable {α : Type} [DecidableEq α] {m : Overlay α} {B C : Finset α} {x : α} {p : α → Bool} {rows : List α}

/-- Records a touch. What the database has is settled by the first one. -/
def note (m : Overlay α) (x : α) (present inDbIfNew : Bool) : Overlay α :=
  m.insert x ⟨((m.lookup x).map (·.inDb)).getD inDbIfNew, present⟩

/-- Reads one element, asking the database only for what was never touched. -/
def contains (m : Overlay α) (inDb : α → Bool) (x : α) : Bool :=
  match m.lookup x with
  | some known => known.present
  | none => inDb x

/-- Reads all elements with a property off the database's rows: without what was removed, and
with what was added that no row could show. -/
def merge (m : Overlay α) (rows : List α) (p : α → Bool) : List α :=
  rows.filter (fun x => (m.lookup x).all (·.present)) ++
    (m.entries.filter (fun e => e.2.present && !e.2.inDb && p e.1)).map (·.1)

/-- The overlay shows `C` where the database has `B`. -/
structure Shows (m : Overlay α) (B C : Finset α) : Prop where
  known : ∀ x k, m.lookup x = some k → (k.inDb = true ↔ x ∈ B) ∧ (k.present = true ↔ x ∈ C)
  unknown : ∀ x, m.lookup x = none → (x ∈ C ↔ x ∈ B)

theorem Shows.empty (B : Finset α) : Shows (∅ : Overlay α) B B := ⟨fun x k h => by simp at h, fun _ _ => Iff.rfl⟩

theorem Shows.note {b present : Bool} {C' : Finset α} (h : Shows m B C) (hb : m.lookup x = none → (b = true ↔ x ∈ B))
    (hx : present = true ↔ x ∈ C') (hother : ∀ y, y ≠ x → (y ∈ C' ↔ y ∈ C)) : Shows (m.note x present b) B C' := by
  refine ⟨fun y k hk => ?_, fun y hy => ?_⟩
  · by_cases hyx : y = x
    · subst hyx
      rw [Overlay.note, AList.lookup_insert] at hk
      cases hk
      refine ⟨?_, hx⟩
      cases hl : m.lookup y with
      | none => simpa [hl] using hb hl
      | some k => simpa [hl] using (h.known y k hl).1
    · rw [Overlay.note, AList.lookup_insert_ne hyx] at hk
      obtain ⟨h₁, h₂⟩ := h.known y k hk
      exact ⟨h₁, h₂.trans (hother y hyx).symm⟩
  · by_cases hyx : y = x
    · subst hyx
      rw [Overlay.note, AList.lookup_insert] at hy
      cases hy
    · rw [Overlay.note, AList.lookup_insert_ne hyx] at hy
      exact (hother y hyx).trans (h.unknown y hy)

theorem Shows.contains {inDb : α → Bool} (h : Shows m B C) (hdb : inDb x = true ↔ x ∈ B) :
    m.contains inDb x = true ↔ x ∈ C := by
  unfold Overlay.contains
  cases hl : m.lookup x with
  | none => exact hdb.trans (h.unknown x hl).symm
  | some k => exact (h.known x k hl).2

theorem mem_entries_map {f : (Σ _ : α, Presence) → Bool} :
    x ∈ (m.entries.filter f).map (·.1) ↔ ∃ k, m.lookup x = some k ∧ f ⟨x, k⟩ = true := by
  simp only [List.mem_map, List.mem_filter]
  constructor
  · rintro ⟨⟨y, k⟩, ⟨hmem, hf⟩, rfl⟩
    exact ⟨k, AList.mem_lookup_iff.2 hmem, hf⟩
  · rintro ⟨k, hk, hf⟩
    exact ⟨⟨x, k⟩, ⟨AList.mem_lookup_iff.1 hk, hf⟩, rfl⟩

theorem Shows.mem_merge (h : Shows m B C) (hrows : x ∈ rows ↔ x ∈ B ∧ p x = true) :
    x ∈ m.merge rows p ↔ x ∈ C ∧ p x = true := by
  unfold merge
  rw [List.mem_append, List.mem_filter, hrows, mem_entries_map]
  cases hl : m.lookup x with
  | none =>
    have := h.unknown x hl
    simp
    tauto
  | some k =>
    obtain ⟨h₁, h₂⟩ := h.known x k hl
    rw [← h₁, ← h₂]
    cases hk : k.inDb <;> cases hk' : k.present <;> simp [hk, hk']

/-- Each element once: the rows and the additions are apart. -/
theorem Shows.merge_nodup (h : Shows m B C) (hrows : ∀ x ∈ rows, x ∈ B) (hnodup : rows.Nodup) : (m.merge rows p).Nodup := by
  unfold merge
  refine List.nodup_append.2 ⟨hnodup.filter _, ?_, ?_⟩
  · have hkeys : (m.entries.map Sigma.fst).Nodup := m.nodupKeys
    exact hkeys.sublist (List.filter_sublist.map _)
  · rintro x hx y hy rfl
    obtain ⟨k, hk, hf⟩ := mem_entries_map.1 hy
    have hin := (h.known x k hk).1.2 (hrows x (List.mem_filter.1 hx).1)
    simp [hin] at hf

end Overlay

end Lib
