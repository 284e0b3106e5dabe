import Mathlib.Data.List.Forall2
import Mathlib.Data.List.Perm.Subperm
/-!
# Loops that collect

Runs that either come to a value or do not: where a sequence of two comes to one, so did the first.
A loop that puts what it reads behind what it has ends in all it read, in order.
-/

namespace Lib

theorem exists_part {γ β : Type} {R : γ → β → Prop} {xs : List γ} {parts : List β} (h : List.Forall₂ R xs parts) {x : γ} (hx : x ∈ xs) :
    ∃ part, R x part := by
  induction h with
  | nil => cases hx
  | @cons y part xs parts hy _ ih =>
    rcases List.mem_cons.1 hx with rfl | hx
    · exact ⟨part, hy⟩
    · exact ih hx

theorem exists_parts {γ β : Type} {R : γ → β → Prop} {xs : List γ} (h : ∀ x ∈ xs, ∃ part, R x part) :
    ∃ parts, List.Forall₂ R xs parts := by
  induction xs with
  | nil => exact ⟨[], .nil⟩
  | cons x xs ih =>
    obtain ⟨part, hx⟩ := h x List.mem_cons_self
    obtain ⟨parts, hparts⟩ := ih (fun y hy => h y (List.mem_cons_of_mem x hy))
    exact ⟨part :: parts, .cons hx hparts⟩

theorem forall₂_exists_left {γ β : Type} {R : γ → β → Prop} {xs : List γ} {ys : List β} (h : List.Forall₂ R xs ys) {y : β} (hy : y ∈ ys) :
    ∃ x ∈ xs, R x y := by
  obtain ⟨n, hn, rfl⟩ := List.getElem_of_mem hy
  exact ⟨xs.get ⟨n, h.length_eq ▸ hn⟩, List.get_mem _ _, h.get (h.length_eq ▸ hn) hn⟩

theorem forall₂_exists_right {γ β : Type} {R : γ → β → Prop} {xs : List γ} {ys : List β} (h : List.Forall₂ R xs ys) {x : γ} (hx : x ∈ xs) :
    ∃ y ∈ ys, R x y := by
  obtain ⟨n, hn, rfl⟩ := List.getElem_of_mem hx
  exact ⟨ys.get ⟨n, h.length_eq ▸ hn⟩, List.get_mem _ _, h.get hn (h.length_eq ▸ hn)⟩

theorem flatten_parts {γ α : Type} {g : γ → List α} {xs : List γ} {parts : List (List α)}
    (h : List.Forall₂ (fun x part => part = g x) xs parts) : parts.flatten = xs.flatMap g := by
  induction h with
  | nil => rfl
  | cons hx _ ih => rw [List.flatten_cons, List.flatMap_cons, hx, ih]

/-- A run that came to a value came to one at every step. -/
class Inverting (m : Type → Type) [Monad m] : Prop where
  pure_inj {α : Type} {a b : α} (h : (pure a : m α) = pure b) : a = b
  bind_inv {α β : Type} {x : m α} {k : α → m β} {b : β} (h : x >>= k = pure b) : ∃ a, x = pure a ∧ k a = pure b

instance : Inverting Option where
  pure_inj h := Option.some.inj h
  bind_inv {α β x k b} h := by
    cases x with
    | none => cases h
    | some a => exact ⟨a, rfl, h⟩

instance {ε : Type} : Inverting (Except ε) where
  pure_inj h := Except.ok.inj h
  bind_inv {α β x k b} h := by
    cases x with
    | error e => cases h
    | ok a => exact ⟨a, rfl, h⟩

instance {ε : Type} {m : Type → Type} [Monad m] [Inverting m] : Inverting (ExceptT ε m) where
  pure_inj h := Except.ok.inj (Inverting.pure_inj (m := m) h)
  bind_inv {α β x k b} h := by
    obtain ⟨r, hx, hk⟩ := Inverting.bind_inv (m := m) h
    cases r with
    | error e => cases Inverting.pure_inj (m := m) hk
    | ok a => exact ⟨a, hx, hk⟩

section
variable {m : Type → Type} [Monad m] [LawfulMonad m] [Inverting m] {α β γ : Type} {f : γ → m (List α)} {xs : List γ} {out out' : List α}

theorem bind_pure_iff {x : m α} {k : α → m β} {b : β} : x >>= k = pure b ↔ ∃ a, x = pure a ∧ k a = pure b := by
  refine ⟨Inverting.bind_inv, ?_⟩
  rintro ⟨a, rfl, hk⟩
  rw [pure_bind, hk]

/-- What is read for each came to a value for each. -/
theorem forall₂_of_mapM {g : γ → m β} {ys : List β} (h : xs.mapM g = pure ys) : List.Forall₂ (fun x y => g x = pure y) xs ys := by
  induction xs generalizing ys with
  | nil =>
    rw [List.mapM_nil] at h
    rw [← Inverting.pure_inj h]
    exact .nil
  | cons x xs ih =>
    rw [List.mapM_cons, bind_pure_iff] at h
    obtain ⟨y, hx, h⟩ := h
    obtain ⟨rest, hxs, h⟩ := bind_pure_iff.1 h
    rw [← Inverting.pure_inj h]
    exact .cons hx (ih hxs)

theorem mem_of_mapM {g : γ → m β} {x : γ} {y : β} {ys : List β} (h : xs.mapM g = pure ys) (hx : x ∈ xs) (hg : g x = pure y) : y ∈ ys := by
  obtain ⟨y', hy, hg'⟩ := forall₂_exists_right (forall₂_of_mapM h) hx
  rw [Inverting.pure_inj (hg.symm.trans hg')]
  exact hy

omit [Inverting m] in
/-- A loop all of whose steps come to an end does. -/
theorem foldlM_ends {step : β → γ → m β} {b : β} (hstep : ∀ x ∈ xs, ∀ b, ∃ b', step b x = pure b') : ∃ b', xs.foldlM step b = pure b' := by
  induction xs generalizing b with
  | nil => exact ⟨b, List.foldlM_nil⟩
  | cons x xs ih =>
    obtain ⟨b', hb'⟩ := hstep x List.mem_cons_self b
    rw [List.foldlM_cons, hb', pure_bind]
    exact ih (fun y hy => hstep y (List.mem_cons_of_mem x hy))

/-- A loop that came to an end put behind what there was what each of its steps did. -/
theorem parts_of_foldlM {R : γ → List α → Prop} {step : List α → γ → m (List α)}
    (hstep : ∀ x ∈ xs, ∀ out out', step out x = pure out' → ∃ part, R x part ∧ out' = out ++ part) (h : xs.foldlM step out = pure out') :
    ∃ parts, List.Forall₂ R xs parts ∧ out' = out ++ parts.flatten := by
  induction xs generalizing out with
  | nil =>
    rw [List.foldlM_nil] at h
    exact ⟨[], .nil, by simp [Inverting.pure_inj h]⟩
  | cons x xs ih =>
    rw [List.foldlM_cons, bind_pure_iff] at h
    obtain ⟨out₁, h₁, h₂⟩ := h
    obtain ⟨part, hx, rfl⟩ := hstep x List.mem_cons_self out out₁ h₁
    obtain ⟨parts, hparts, rfl⟩ := ih (fun y hy => hstep y (List.mem_cons_of_mem x hy)) h₂
    exact ⟨part :: parts, .cons hx hparts, by simp⟩

omit [Inverting m] in
/-- A loop ends with what its steps put there. -/
theorem foldlM_of_parts {R : γ → List α → Prop} {step : List α → γ → m (List α)} {parts : List (List α)}
    (hstep : ∀ x ∈ xs, ∀ out part, R x part → step out x = pure (out ++ part)) (h : List.Forall₂ R xs parts) :
    xs.foldlM step out = pure (out ++ parts.flatten) := by
  induction h generalizing out with
  | nil => simp
  | @cons x part xs parts hx _ ih =>
    rw [List.foldlM_cons, hstep x List.mem_cons_self out part hx, pure_bind,
      ih (fun y hy => hstep y (List.mem_cons_of_mem x hy)), List.flatten_cons, List.append_assoc]

theorem append_step {x : m (List α)} : (do return out ++ (← x)) = pure out' ↔ ∃ part, x = pure part ∧ out' = out ++ part := by
  rw [bind_pure_iff]
  constructor
  · rintro ⟨part, hx, h⟩
    exact ⟨part, hx, (Inverting.pure_inj h).symm⟩
  · rintro ⟨part, hx, rfl⟩
    exact ⟨part, hx, rfl⟩

/-- The loop comes to an end where every read does, in what was there and what was read. -/
theorem foldlM_append_iff : xs.foldlM (fun out x => do return out ++ (← f x)) out = pure out' ↔
    ∃ parts, List.Forall₂ (fun x part => f x = pure part) xs parts ∧ out' = out ++ parts.flatten := by
  refine ⟨parts_of_foldlM (fun _ _ _ _ h => append_step.1 h), ?_⟩
  rintro ⟨parts, hparts, rfl⟩
  exact foldlM_of_parts (fun _ _ out part hx => append_step.2 ⟨part, hx, rfl⟩) hparts

omit [LawfulMonad m] in
theorem mem_collected {parts : List (List α)} (h : List.Forall₂ (fun x part => f x = pure part) xs parts) {b : α} :
    b ∈ parts.flatten ↔ ∃ x ∈ xs, ∃ part, f x = pure part ∧ b ∈ part := by
  induction h with
  | nil => simp
  | @cons x part xs parts hx _ ih =>
    rw [List.flatten_cons, List.mem_append, ih]
    constructor
    · rintro (hb | ⟨y, hy, hpart⟩)
      · exact ⟨x, List.mem_cons_self, part, hx, hb⟩
      · exact ⟨y, List.mem_cons_of_mem x hy, hpart⟩
    · rintro ⟨y, hy, part', hy', hb⟩
      rcases List.mem_cons.1 hy with rfl | hy
      · rw [hx] at hy'
        exact .inl (Inverting.pure_inj hy' ▸ hb)
      · exact .inr ⟨y, hy, part', hy', hb⟩

end

/-- The loop fails where a read does. -/
theorem foldlM_append_error {ε α γ : Type} {f : γ → Except ε (List α)} {xs : List γ} {out : List α} {e : ε}
    (h : xs.foldlM (fun out x => do return out ++ (← f x)) out = .error e) : ∃ x ∈ xs, f x = .error e := by
  induction xs generalizing out with
  | nil => cases h
  | cons x xs ih =>
    rw [List.foldlM_cons] at h
    cases hx : f x with
    | error e' =>
      rw [hx] at h
      cases h
      exact ⟨x, List.mem_cons_self, hx⟩
    | ok part =>
      rw [hx] at h
      obtain ⟨y, hy, he⟩ := ih h
      exact ⟨y, List.mem_cons_of_mem x hy, he⟩

end Lib
