import Mathlib.Data.List.Basic
/-!
# Version counters

A counter stamps what a machine holds. The stamps of a run can be trusted if each moment
either repeats an earlier one, stamp and all, or carries a stamp above every earlier one; then
two moments with one stamp hold the same. `Watched` is a run in which every step is allowed by
what has been seen of the run so far.
-/

namespace Lib.Version

variable {σ ι ρ ω α : Type}

/-- Among these moments, a stamp stands for one value. -/
def Stamped (H : List (Nat × α)) : Prop := ∀ g x y, (g, x) ∈ H → (g, y) ∈ H → x = y

theorem Stamped.single (g : Nat) (x : α) : Stamped [(g, x)] := by
  intro g' y z hy hz
  simp only [List.mem_singleton, Prod.mk.injEq] at hy hz
  rw [hy.2, hz.2]

/-- A moment that was there before. -/
theorem Stamped.again {H : List (Nat × α)} {m : Nat × α} (h : Stamped H) (hm : m ∈ H) : Stamped (m :: H) := by
  intro g x y hx hy
  have hback : ∀ z, z ∈ m :: H → z ∈ H := by
    intro z hz
    rcases List.mem_cons.1 hz with rfl | hz
    · exact hm
    · exact hz
  exact h g x y (hback _ hx) (hback _ hy)

/-- A moment with a stamp above all. -/
theorem Stamped.fresh {H : List (Nat × α)} {g : Nat} {x : α} (h : Stamped H) (hg : ∀ m ∈ H, m.1 < g) :
    Stamped ((g, x) :: H) := by
  intro g' y z hy hz
  rcases List.mem_cons.1 hy with hy' | hy' <;> rcases List.mem_cons.1 hz with hz' | hz'
  · cases hy'
    cases hz'
    rfl
  · cases hy'
    exact absurd (hg _ hz') (Nat.lt_irrefl _)
  · cases hz'
    exact absurd (hg _ hy') (Nat.lt_irrefl _)
  · exact h g' y z hy' hz'

/-- The moments so far, under the highest stamp there was. -/
structure Track (H : List (Nat × α)) (peak : Nat) (now : Nat × α) : Prop where
  stamped : Stamped H
  now : now ∈ H
  below : ∀ m ∈ H, m.1 ≤ peak

theorem Track.single (m : Nat × α) : Track [m] m.1 m where
  stamped := .single _ _
  now := List.mem_singleton.2 rfl
  below x hx := Nat.le_of_eq (congrArg Prod.fst (List.mem_singleton.1 hx))

theorem Track.below_cons {H : List (Nat × α)} {peak : Nat} {now m : Nat × α} (h : Track H peak now) :
    ∀ x ∈ m :: H, x.1 ≤ Nat.max peak m.1 := by
  intro x hx
  rcases List.mem_cons.1 hx with rfl | hx
  · exact Nat.le_max_right _ _
  · exact Nat.le_trans (h.below x hx) (Nat.le_max_left _ _)

theorem Track.again {H : List (Nat × α)} {peak : Nat} {now m : Nat × α} (h : Track H peak now) (hm : m ∈ H) :
    Track (m :: H) (Nat.max peak m.1) m :=
  ⟨h.stamped.again hm, List.mem_cons_self, h.below_cons⟩

theorem Track.fresh {H : List (Nat × α)} {peak : Nat} {now m : Nat × α} (h : Track H peak now) (hm : peak < m.1) :
    Track (m :: H) (Nat.max peak m.1) m :=
  ⟨h.stamped.fresh (fun x hx => Nat.lt_of_le_of_lt (h.below x hx) hm), List.mem_cons_self, h.below_cons⟩

/-! ## Runs of a machine -/

variable (step : σ → ι → Option (ρ × σ))

/-- The states of a run, the first one included. -/
def visited (s : σ) : List ι → List σ
  | [] => [s]
  | i :: is => s :: (step s i).elim [] (fun x => visited x.2 is)

variable (allowed : ω → σ → ι → Prop) (next : ω → σ → ι → σ → ω)

/-- Every step of the run is allowed by what was seen before it. -/
def Watched (w : ω) (s : σ) : List ι → Prop
  | [] => True
  | i :: is => allowed w s i ∧ ∀ x s', step s i = some (x, s') → Watched (next w s i s') s' is

variable {step allowed next}

/-- An invariant of the moments seen, of what was noted of them and of the state, kept by every
allowed step, holds of a whole run: its states' moments are all among some that have it. -/
theorem Watched.run {moment : σ → Nat × α} {Inv : List (Nat × α) → ω → σ → Prop}
    (hstep : ∀ H w s i x s', Inv H w s → allowed w s i → step s i = some (x, s') →
      Inv (moment s' :: H) (next w s i s') s')
    (hmem : ∀ H w s, Inv H w s → moment s ∈ H) {H : List (Nat × α)} {w : ω} {s : σ} {is : List ι}
    (h : Inv H w s) (hw : Watched step allowed next w s is) :
    ∃ H' w' s', Inv H' w' s' ∧ H ⊆ H' ∧ ∀ t ∈ visited step s is, moment t ∈ H' := by
  induction is generalizing H w s with
  | nil =>
    refine ⟨H, w, s, h, List.Subset.refl _, fun t ht => ?_⟩
    rw [visited, List.mem_singleton] at ht
    exact ht ▸ hmem H w s h
  | cons i is ih =>
    obtain ⟨hallowed, hrest⟩ := hw
    cases hi : step s i with
    | none =>
      refine ⟨H, w, s, h, List.Subset.refl _, fun t ht => ?_⟩
      simp only [visited, hi, Option.elim_none, List.mem_singleton] at ht
      exact ht ▸ hmem H w s h
    | some x =>
      obtain ⟨H', w', s', hinv, hsub, hvisited⟩ := ih (hstep H w s i x.1 x.2 h hallowed hi) (hrest x.1 x.2 hi)
      refine ⟨H', w', s', hinv, fun m hm => hsub (List.mem_cons_of_mem _ hm), fun t ht => ?_⟩
      simp only [visited, hi, Option.elim_some, List.mem_cons] at ht
      rcases ht with rfl | ht
      · exact hsub (List.mem_cons_of_mem _ (hmem H w t h))
      · exact hvisited t ht

end Lib.Version
