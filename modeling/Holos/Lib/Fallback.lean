import Holos.Lib.Held
/-!
# An order that falls back on another

Two elements compare as a partial order has them where it knows them both, and as a total one has them
where it does not. That is an order as long as no three elements are torn: the partial order knows two
of them, and the total one puts the third, which the partial order does not know against either,
between them the other way round.
-/

namespace Lib.Fallback

open Held (Consistent)

variable {α : Type} {known : α → α → Option Ordering} {total : α → α → Ordering} {s : α → Prop}

/-- As the partial order has it, or else as the total one. -/
def fallback (known : α → α → Option Ordering) (total : α → α → Ordering) (a b : α) : Ordering := (known a b).getD (total a b)

/-- What is known is an order of the elements of `s`. -/
structure Known (known : α → α → Option Ordering) (s : α → Prop) : Prop where
  swap : ∀ a b, s a → s b → known b a = (known a b).map Ordering.swap
  trans : ∀ a b c o p, s a → s b → s c → known a b = some o → o ≠ .gt → known b c = some p → p ≠ .gt →
    ∃ q, known a c = some q ∧ q ≠ .gt

/-- `x` is known not to come after `y`, and `z`, not known against either, comes between `y` and `x`. -/
structure Torn (known : α → α → Option Ordering) (total : α → α → Ordering) (x y z : α) : Prop where
  bound : ∃ o, known x y = some o ∧ o ≠ .gt
  unknown : known y z = none ∧ known z x = none
  between : total y z ≠ .gt ∧ total z x ≠ .gt
  apart : ¬(known x y = some .eq ∧ total y z = .eq ∧ total z x = .eq)

theorem compare_consistent [Ord α] [Std.TransOrd α] : Consistent (fun a b : α => compare a b) s where
  swap a b _ _ := Std.OrientedCmp.eq_swap
  trans a b c _ _ _ hab hbc :=
    Ordering.ne_gt_iff_isLE.2 (Std.TransCmp.isLE_trans (Ordering.ne_gt_iff_isLE.1 hab) (Ordering.ne_gt_iff_isLE.1 hbc))

/-- An order knows any two. -/
theorem known_of_consistent {cmp : α → α → Ordering} (h : Consistent cmp s) : Known (fun a b => some (cmp a b)) s where
  swap a b ha hb := by rw [h.swap a b ha hb, Option.map_some]
  trans a b c o p ha hb hc hab ho hbc hp := by
    cases hab
    cases hbc
    exact ⟨_, rfl, h.trans a b c ha hb hc ho hp⟩

/-! ## Cycles -/

/-- Three elements in a cycle are not told apart. -/
def Level (cmp : α → α → Ordering) (x y z : α) : Prop :=
  cmp x y ≠ .gt → cmp y z ≠ .gt → cmp z x ≠ .gt → cmp x y = .eq ∧ cmp y z = .eq ∧ cmp z x = .eq

theorem swap_cases {o : Ordering} (h : o ≠ .gt) (hswap : o.swap ≠ .gt) : o = .eq := by
  cases o with
  | eq => rfl
  | lt => exact absurd rfl hswap
  | gt => exact absurd rfl h

theorem cycle_eq {cmp : α → α → Ordering} (h : Consistent cmp s) {x y z : α} (hx : s x) (hy : s y) (hz : s z) (hxy : cmp x y ≠ .gt)
    (hyz : cmp y z ≠ .gt) (hzx : cmp z x ≠ .gt) : cmp x y = .eq := by
  apply swap_cases hxy
  rw [← h.swap x y hx hy]
  exact h.trans y z x hy hz hx hyz hzx

/-- A comparison that reads the same from both sides is an order when its cycles tell nothing apart. -/
theorem consistent_iff {cmp : α → α → Ordering} (hswap : ∀ a b, s a → s b → cmp b a = (cmp a b).swap) :
    Consistent cmp s ↔ ∀ x y z, s x → s y → s z → Level cmp x y z := by
  constructor
  · intro h x y z hx hy hz hxy hyz hzx
    exact ⟨cycle_eq h hx hy hz hxy hyz hzx, cycle_eq h hy hz hx hyz hzx hxy, cycle_eq h hz hx hy hzx hxy hyz⟩
  · refine fun h => ⟨hswap, fun a b c ha hb hc hab hbc hac => ?_⟩
    have hca : cmp c a = .lt := by rw [hswap a c ha hc, hac]; rfl
    have heq := (h a b c ha hb hc hab hbc (by rw [hca]; decide)).2.2
    rw [hca] at heq
    cases heq

theorem known_cycle_eq (h : Known known s) {x y z : α} {o p q : Ordering} (hx : s x) (hy : s y) (hz : s z) (hxy : known x y = some o)
    (ho : o ≠ .gt) (hyz : known y z = some p) (hp : p ≠ .gt) (hzx : known z x = some q) (hq : q ≠ .gt) : o = .eq := by
  obtain ⟨r, hyx, hr⟩ := h.trans y z x p q hy hz hx hyz hp hzx hq
  rw [h.swap x y hx hy, hxy, Option.map_some, Option.some.injEq] at hyx
  exact swap_cases ho (hyx ▸ hr)

/-- Two bounds that are known leave no third one unknown. -/
theorem known_of_two (h : Known known s) {x y z : α} {o p : Ordering} (hx : s x) (hy : s y) (hz : s z) (hxy : known x y = some o)
    (ho : o ≠ .gt) (hyz : known y z = some p) (hp : p ≠ .gt) : known z x ≠ none := by
  obtain ⟨r, hxz, -⟩ := h.trans x y z o p hx hy hz hxy ho hyz hp
  rw [h.swap x z hx hz, hxz]
  exact Option.some_ne_none _

/-- Elements that are not torn, whichever two of them are the known ones, are level. -/
theorem level_of_not_torn (hk : Known known s) (ht : Consistent total s) {x y z : α} (hx : s x) (hy : s y) (hz : s z)
    (h₁ : ¬Torn known total x y z) (h₂ : ¬Torn known total y z x) (h₃ : ¬Torn known total z x y) : Level (fallback known total) x y z := by
  intro hxy hyz hzx
  by_contra hapart
  unfold fallback at hxy hyz hzx hapart
  cases hkxy : known x y with
  | none =>
    cases hkyz : known y z with
    | none =>
      cases hkzx : known z x with
      | none =>
        simp only [hkxy, hkyz, hkzx, Option.getD_none] at hxy hyz hzx hapart
        exact hapart ⟨cycle_eq ht hx hy hz hxy hyz hzx, cycle_eq ht hy hz hx hyz hzx hxy, cycle_eq ht hz hx hy hzx hxy hyz⟩
      | some q =>
        simp only [hkxy, hkyz, hkzx, Option.getD_none, Option.getD_some] at hxy hyz hzx hapart
        refine h₃ ⟨⟨q, hkzx, hzx⟩, ⟨hkxy, hkyz⟩, ⟨hxy, hyz⟩, ?_⟩
        rintro ⟨hq, h, h'⟩
        rw [hkzx, Option.some.injEq] at hq
        exact hapart ⟨h, h', hq⟩
    | some p =>
      cases hkzx : known z x with
      | none =>
        simp only [hkxy, hkyz, hkzx, Option.getD_none, Option.getD_some] at hxy hyz hzx hapart
        refine h₂ ⟨⟨p, hkyz, hyz⟩, ⟨hkzx, hkxy⟩, ⟨hzx, hxy⟩, ?_⟩
        rintro ⟨hp, h, h'⟩
        rw [hkyz, Option.some.injEq] at hp
        exact hapart ⟨h', hp, h⟩
      | some q =>
        simp only [hkyz, hkzx, Option.getD_some] at hyz hzx
        exact known_of_two hk hy hz hx hkyz hyz hkzx hzx hkxy
  | some o =>
    cases hkyz : known y z with
    | none =>
      cases hkzx : known z x with
      | none =>
        simp only [hkxy, hkyz, hkzx, Option.getD_none, Option.getD_some] at hxy hyz hzx hapart
        refine h₁ ⟨⟨o, hkxy, hxy⟩, ⟨hkyz, hkzx⟩, ⟨hyz, hzx⟩, ?_⟩
        rintro ⟨ho, h, h'⟩
        rw [hkxy, Option.some.injEq] at ho
        exact hapart ⟨ho, h, h'⟩
      | some q =>
        simp only [hkxy, hkzx, Option.getD_some] at hxy hzx
        exact known_of_two hk hz hx hy hkzx hzx hkxy hxy hkyz
    | some p =>
      cases hkzx : known z x with
      | none =>
        simp only [hkxy, hkyz, Option.getD_some] at hxy hyz
        exact known_of_two hk hx hy hz hkxy hxy hkyz hyz hkzx
      | some q =>
        simp only [hkxy, hkyz, hkzx, Option.getD_some] at hxy hyz hzx hapart
        exact hapart ⟨known_cycle_eq hk hx hy hz hkxy hxy hkyz hyz hkzx hzx, known_cycle_eq hk hy hz hx hkyz hyz hkzx hzx hkxy hxy,
          known_cycle_eq hk hz hx hy hkzx hzx hkxy hxy hkyz hyz⟩

/-- Elements that are torn are not level. -/
theorem Torn.not_level {x y z : α} (h : Torn known total x y z) : ¬Level (fallback known total) x y z := by
  obtain ⟨o, ho, hle⟩ := h.bound
  obtain ⟨hyz, hzx⟩ := h.unknown
  have hapart := h.apart
  unfold Level fallback
  simp only [ho, hyz, hzx, Option.getD_some, Option.getD_none, Option.some.injEq] at hapart ⊢
  exact fun hlevel => hapart (hlevel hle h.between.1 h.between.2)

theorem fallback_swap (hk : Known known s) (ht : Consistent total s) {a b : α} (ha : s a) (hb : s b) :
    fallback known total b a = (fallback known total a b).swap := by
  unfold fallback
  rw [hk.swap a b ha hb, ht.swap a b ha hb]
  cases known a b <;> rfl

/-! ## One comparison after another -/

/-- One comparison, and then another where it does not tell apart. -/
theorem Level.then {cmp cmp' : α → α → Ordering} {x y z : α} (h : Level cmp x y z)
    (h' : cmp x y = .eq → cmp y z = .eq → cmp z x = .eq → Level cmp' x y z) : Level (fun a b => (cmp a b).then (cmp' a b)) x y z := by
  have hfirst : ∀ {o p : Ordering}, o.then p ≠ .gt → o ≠ .gt := by
    rintro o p hop rfl
    exact hop rfl
  intro hxy hyz hzx
  obtain ⟨h₁, h₂, h₃⟩ := h (hfirst hxy) (hfirst hyz) (hfirst hzx)
  have hrest := h' h₁ h₂ h₃
  simp only [h₁, h₂, h₃] at hxy hyz hzx ⊢
  exact hrest hxy hyz hzx

/-- The other way round, a cycle runs the other way. -/
theorem Level.swap {cmp : α → α → Ordering} {x y z : α} (hswap : ∀ a b, cmp b a = (cmp a b).swap) (h : Level cmp z y x) :
    Level (fun a b => (cmp a b).swap) x y z := by
  intro hxy hyz hzx
  simp only [← hswap] at hxy hyz hzx ⊢
  obtain ⟨h₁, h₂, h₃⟩ := h hyz hxy hzx
  exact ⟨h₂, h₁, h₃⟩

end Lib.Fallback
