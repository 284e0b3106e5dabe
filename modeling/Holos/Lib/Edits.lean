import Mathlib.Data.List.Induction
import Mathlib.Data.Set.Image
/-!
# Edits of a set

Elements added and removed one after another. An edit is effective when it changes the set it is
made on. A run of effective edits is undone by the opposite edits in reverse order. Where a value is
set again and again, the last setting counts.
-/

namespace Lib

inductive Edit (α : Type) where
  | add (a : α)
  | remove (a : α)
deriving DecidableEq, Repr

namespace Edit

variable {α β : Type}

def elem : Edit α → α
  | add a => a
  | remove a => a

def inverse : Edit α → Edit α
  | add a => remove a
  | remove a => add a

def map (f : α → β) : Edit α → Edit β
  | add a => add (f a)
  | remove a => remove (f a)

def apply (s : Set α) : Edit α → Set α
  | add a => insert a s
  | remove a => s \ {a}

def Changes (s : Set α) : Edit α → Prop
  | add a => a ∉ s
  | remove a => a ∈ s

/-- The set after a run of edits. -/
def replay (s : Set α) (es : List (Edit α)) : Set α := es.foldl apply s

/-- Every edit of a run changes what the ones before it left. -/
def Effective : Set α → List (Edit α) → Prop
  | _, [] => True
  | s, e :: es => Changes s e ∧ Effective (apply s e) es

/-- The run that takes the edits back. -/
def undo (es : List (Edit α)) : List (Edit α) := es.reverse.map inverse

variable {s : Set α} {a : α} {e : Edit α} {es es' : List (Edit α)}

@[simp] theorem replay_nil : replay s [] = s := rfl

@[simp] theorem replay_cons : replay s (e :: es) = replay (apply s e) es := rfl

theorem replay_append : replay s (es ++ es') = replay (replay s es) es' := List.foldl_append

theorem effective_append : Effective s (es ++ es') ↔ Effective s es ∧ Effective (replay s es) es' := by
  induction es generalizing s with
  | nil => simp [Effective]
  | cons e es ih =>
    simp only [List.cons_append, Effective, replay_cons, ih]
    rw [and_assoc]

theorem undo_cons : undo (e :: es) = undo es ++ [e.inverse] := by
  unfold undo
  rw [List.reverse_cons, List.map_append]
  rfl

theorem undo_concat : undo (es ++ [e]) = e.inverse :: undo es := by
  unfold undo
  rw [List.reverse_append]
  rfl

theorem apply_inverse (h : Changes s e) : apply (apply s e) e.inverse = s := by
  cases e with
  | add a => exact Set.insert_sdiff_self_of_notMem h
  | remove a => exact Set.insert_sdiff_self_of_mem h

theorem replay_undo (h : Effective s es) : replay (replay s es) (undo es) = s := by
  induction es generalizing s with
  | nil => rfl
  | cons e es ih =>
    obtain ⟨he, hes⟩ := h
    rw [undo_cons, replay_cons, replay_append, ih hes]
    exact apply_inverse he

/-- Edits of other elements leave an element where it is. -/
theorem mem_replay_of_forall_ne (h : ∀ e ∈ es, e.elem ≠ a) : a ∈ replay s es ↔ a ∈ s := by
  induction es generalizing s with
  | nil => rfl
  | cons e es ih =>
    rw [replay_cons, ih (fun e' he' => h e' (List.mem_cons_of_mem _ he'))]
    have hne := h e List.mem_cons_self
    cases e with
    | add b => exact Set.mem_insert_iff.trans (or_iff_right (fun heq => hne heq.symm))
    | remove b => exact (Set.mem_sdiff _).trans (and_iff_left (fun heq => hne heq.symm))

/-- The elements of a part, when the edits are made to that part. -/
theorem preimage_replay {f : α → β} (hf : Function.Injective f) {s : Set β} :
    Set.preimage f (replay s (es.map (map f))) = replay (Set.preimage f s) es := by
  induction es generalizing s with
  | nil => rfl
  | cons e es ih =>
    rw [List.map_cons, replay_cons, replay_cons, ih]
    congr 1
    ext b
    cases e with
    | add a => simp [apply, map, hf.eq_iff]
    | remove a => simp [apply, map, hf.eq_iff]

theorem replay_image {f : α → β} (hf : Function.Injective f) : replay (f '' s) (es.map (map f)) = f '' replay s es := by
  induction es generalizing s with
  | nil => rfl
  | cons e es ih =>
    rw [List.map_cons, replay_cons, replay_cons, ← ih]
    congr 1
    cases e with
    | add a => exact Set.image_insert_eq.symm
    | remove a => rw [map, apply, apply, Set.image_sdiff hf, Set.image_singleton]

theorem Effective.image {f : α → β} (hf : Function.Injective f) (h : Effective s es) : Effective (f '' s) (es.map (map f)) := by
  induction es generalizing s with
  | nil => trivial
  | cons e es ih =>
    obtain ⟨he, hes⟩ := h
    have hstep : apply (f '' s) (e.map f) = f '' apply s e := @replay_image _ _ s [e] _ hf
    refine ⟨?_, by rw [hstep]; exact ih hes⟩
    cases e with
    | add a => exact fun hmem => he (hf.mem_set_image.1 hmem)
    | remove a => exact Set.mem_image_of_mem f he

theorem Changes.preimage {f : α → β} {s : Set β} (h : Changes s (e.map f)) : Changes (Set.preimage f s) e := by
  cases e <;> exact h

theorem Effective.preimage {f : α → β} (hf : Function.Injective f) {s : Set β} (h : Effective s (es.map (map f))) :
    Effective (Set.preimage f s) es := by
  induction es generalizing s with
  | nil => trivial
  | cons e es ih =>
    obtain ⟨he, hes⟩ := h
    refine ⟨he.preimage, ?_⟩
    have hstep : Set.preimage f (apply s (e.map f)) = apply (Set.preimage f s) e := @preimage_replay _ _ [e] _ hf s
    rw [← hstep]
    exact ih hes

end Edit

/-! ## The last of a list -/

section
variable {α β : Type*} {r : α → α → Prop} {f : α → Option β} {l : List α} {y : β}

/-- Where each that has something replaces what was kept, what is kept comes from the last of those. -/
theorem foldl_last (h : l.Pairwise r) :
    (l.foldl (fun kept x => (f x).or kept) none = none ∧ ∀ x ∈ l, f x = none) ∨
    ∃ x ∈ l, ∃ z, f x = some z ∧ l.foldl (fun kept x => (f x).or kept) none = some z ∧
      ∀ x' ∈ l, (f x').isSome → x' = x ∨ r x' x := by
  induction l using List.reverseRecOn with
  | nil => exact .inl ⟨rfl, fun x hx => absurd hx List.not_mem_nil⟩
  | append_singleton l a ih =>
    obtain ⟨hl, -, hla⟩ := List.pairwise_append.1 h
    rw [List.foldl_append, List.foldl_cons, List.foldl_nil]
    cases ha : f a with
    | some z =>
      refine .inr ⟨a, by simp, z, ha, rfl, fun x' hx' _ => ?_⟩
      rcases List.mem_append.1 hx' with hx' | hx'
      · exact .inr (hla x' hx' a List.mem_cons_self)
      · exact .inl (List.mem_singleton.1 hx')
    | none =>
      rw [Option.none_or]
      rcases ih hl with ⟨hnone, hall⟩ | ⟨x, hx, z, hz, hkept, hlast⟩
      · refine .inl ⟨hnone, fun x hx => ?_⟩
        rcases List.mem_append.1 hx with hx | hx
        · exact hall x hx
        · rw [List.mem_singleton.1 hx, ha]
      · refine .inr ⟨x, List.mem_append_left _ hx, z, hz, hkept, fun x' hx' hsome => ?_⟩
        rcases List.mem_append.1 hx' with hx' | hx'
        · exact hlast x' hx' hsome
        · rw [List.mem_singleton.1 hx', ha] at hsome
          cases hsome

/-- Something that is there is what is kept exactly if all that differs from it is followed by it. -/
theorem foldl_last_iff (h : l.Pairwise r) (hasymm : ∀ a b, r a b → ¬ r b a) (hy : ∃ x ∈ l, f x = some y) :
    l.foldl (fun kept x => (f x).or kept) none = some y ↔
      ∀ x ∈ l, ∀ z, f x = some z → z ≠ y → ∃ x' ∈ l, f x' = some y ∧ r x x' := by
  rcases foldl_last (f := f) h with ⟨-, hnone⟩ | ⟨x, hx, z, hz, hkept, hlast⟩
  · obtain ⟨x, hx, hxy⟩ := hy
    rw [hnone x hx] at hxy
    cases hxy
  · rw [hkept, Option.some.injEq]
    constructor
    · rintro rfl x' hx' z' hz' hne
      refine ⟨x, hx, hz, (hlast x' hx' (by rw [hz']; rfl)).resolve_left ?_⟩
      rintro rfl
      exact hne (Option.some.inj (hz'.symm.trans hz))
    · intro hfollowed
      by_contra hne
      obtain ⟨x', hx', hxy, hr⟩ := hfollowed x hx z hz hne
      rcases hlast x' hx' (by rw [hxy]; rfl) with rfl | hr'
      · exact hne (Option.some.inj (hz.symm.trans hxy))
      · exact hasymm x x' hr hr'

end

end Lib
