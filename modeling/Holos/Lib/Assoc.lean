import Mathlib.Data.List.Basic
import Mathlib.Data.List.Nodup
/-!
# Maps as lists of pairs

A map is a list of keys and values in which no key comes twice. `entry` updates the value of
a key, putting a default there first where the key is new.
-/

namespace Lib

variable {κ β γ : Type} [DecidableEq κ]

/-- The value of a key is updated; a new key starts from `d`. -/
def entry (d : β) (f : β → β) (k : κ) : List (κ × β) → List (κ × β)
  | [] => [(k, f d)]
  | (k', b) :: m => if k = k' then (k', f b) :: m else (k', b) :: entry d f k m

/-- The value of a key. -/
def value (k : κ) : List (κ × β) → Option β
  | [] => none
  | (k', b) :: m => if k = k' then some b else value k m

/-- No key comes twice. -/
def Keyed (m : List (κ × β)) : Prop := (m.map Prod.fst).Nodup

theorem value_cons (k : κ) (p : κ × β) (m : List (κ × β)) : value k (p :: m) = if k = p.1 then some p.2 else value k m := rfl

theorem value_entry (d : β) (f : β → β) (k k' : κ) (m : List (κ × β)) :
    value k' (entry d f k m) = if k' = k then some (f ((value k m).getD d)) else value k' m := by
  induction m with
  | nil => rfl
  | cons p m ih =>
    obtain ⟨k₁, b⟩ := p
    rw [entry]
    by_cases h : k = k₁
    · subst h
      rw [if_pos rfl, value_cons, value_cons, value_cons, if_pos rfl]
      split <;> rfl
    · rw [if_neg h, value_cons, ih, value_cons, value_cons, if_neg h]
      by_cases h₁ : k' = k₁
      · rw [if_pos h₁, if_neg (fun e : k' = k => h (e.symm.trans h₁)), if_pos h₁]
      · rw [if_neg h₁, if_neg h₁]

theorem keys_entry (d : β) (f : β → β) (k : κ) (m : List (κ × β)) :
    (entry d f k m).map Prod.fst = if k ∈ m.map Prod.fst then m.map Prod.fst else m.map Prod.fst ++ [k] := by
  induction m with
  | nil => rfl
  | cons p m ih =>
    obtain ⟨k₁, b⟩ := p
    rw [entry]
    by_cases h : k = k₁
    · rw [if_pos h, List.map_cons, List.map_cons, if_pos (h ▸ List.mem_cons_self)]
    · rw [if_neg h, List.map_cons, ih, List.map_cons]
      by_cases hm : k ∈ m.map Prod.fst
      · rw [if_pos hm, if_pos (List.mem_cons_of_mem _ hm)]
      · rw [if_neg hm, if_neg (by simpa [h] using hm), List.cons_append]

theorem Keyed.entry {m : List (κ × β)} (h : Keyed m) (d : β) (f : β → β) (k : κ) : Keyed (entry d f k m) := by
  unfold Keyed
  rw [keys_entry]
  split
  · exact h
  · rename_i hk
    refine List.nodup_append.2 ⟨h, List.nodup_singleton k, fun a ha b hb e => hk ?_⟩
    rw [List.mem_singleton.1 hb] at e
    exact e ▸ ha

theorem value_eq_none {m : List (κ × β)} {k : κ} : value k m = none ↔ k ∉ m.map Prod.fst := by
  induction m with
  | nil => simp [value]
  | cons p m ih =>
    rw [value_cons, List.map_cons, List.mem_cons, not_or]
    by_cases h : k = p.1
    · simp [h]
    · simp [h, ih]

theorem value_isSome {m : List (κ × β)} {k : κ} : (value k m).isSome ↔ k ∈ m.map Prod.fst := by
  rw [Option.isSome_iff_ne_none, ne_eq, value_eq_none, not_not]

theorem Keyed.value_iff {m : List (κ × β)} (h : Keyed m) {k : κ} {b : β} : value k m = some b ↔ (k, b) ∈ m := by
  induction m with
  | nil => simp [value]
  | cons p m ih =>
    obtain ⟨hp, hm⟩ := List.nodup_cons.1 h
    rw [value_cons, List.mem_cons]
    by_cases hk : k = p.1
    · rw [if_pos hk]
      constructor
      · intro e
        exact .inl (Prod.ext hk (Option.some.inj e).symm)
      · rintro (e | hin)
        · rw [← e]
        · exact absurd (List.mem_map_of_mem (f := Prod.fst) hin) (hk ▸ hp)
    · rw [if_neg hk, ih hm]
      constructor
      · exact .inr
      · rintro (e | hin)
        · exact absurd (congrArg Prod.fst e) hk
        · exact hin

/-- What updating one entry for each pair of a map comes to. -/
theorem value_foldl_entry {xs : List (κ × γ)} (h : Keyed xs) (d : β) (g : γ → β → β) (m : List (κ × β)) (k : κ) :
    value k (xs.foldl (fun m x => entry d (g x.2) x.1 m) m) =
      match value k xs with
      | some c => some (g c ((value k m).getD d))
      | none => value k m := by
  induction xs generalizing m with
  | nil => rfl
  | cons x xs ih =>
    obtain ⟨hx, hxs⟩ := List.nodup_cons.1 h
    rw [List.foldl_cons, ih hxs, value_cons, value_entry]
    by_cases hk : k = x.1
    · subst hk
      rw [value_eq_none.2 hx, if_pos rfl, if_pos rfl]
    · rw [if_neg hk, if_neg hk]

theorem Keyed.foldl_entry {m : List (κ × β)} (h : Keyed m) (xs : List γ) (d : β) (g : γ → β → β) (key : γ → κ) :
    Keyed (xs.foldl (fun m x => Lib.entry d (g x) (key x) m) m) := by
  induction xs generalizing m with
  | nil => exact h
  | cons x xs ih => exact ih (h.entry d (g x) (key x))

/-- What updating one entry for each of some keys comes to. -/
theorem value_foldl_keys {xs : List κ} (h : xs.Nodup) (d : β) (f : β → β) (m : List (κ × β)) (k : κ) :
    value k (xs.foldl (fun m x => entry d f x m) m) = if k ∈ xs then some (f ((value k m).getD d)) else value k m := by
  induction xs generalizing m with
  | nil => simp
  | cons x xs ih =>
    obtain ⟨hx, hxs⟩ := List.nodup_cons.1 h
    rw [List.foldl_cons, ih hxs, value_entry]
    by_cases hk : k = x
    · subst hk
      rw [if_neg hx, if_pos rfl, if_pos List.mem_cons_self]
    · have hmem : k ∈ x :: xs ↔ k ∈ xs := by simp [hk]
      rw [if_neg hk]
      simp only [hmem]

end Lib
