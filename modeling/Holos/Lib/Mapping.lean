import Mathlib.Data.Finmap
import Mathlib.Data.Multiset.Bind
import Mathlib.Data.Multiset.Filter
/-!
# Solution mappings

Partial assignments of values to variables, and multisets of them. Two mappings are
compatible when they agree where both are defined; the join of two multisets merges every
compatible pair. `extend μ M` is the join with the single mapping `μ`, which is the form a
nested loop computes: everything else is stated through it.
-/

namespace Lib

/-- A partial assignment with a finite domain. -/
abbrev Mapping (V X : Type) := Finmap (fun _ : V => X)

namespace Mapping

variable {V X : Type} [DecidableEq V]

/-! ## Lookup -/

theorem mem_keys_iff {μ : Mapping V X} {v : V} : v ∈ μ.keys ↔ ∃ x, μ.lookup v = some x := by
  rw [Finmap.mem_keys, Finmap.mem_iff]

theorem lookup_of_not_mem {μ : Mapping V X} {v : V} (h : v ∉ μ.keys) : μ.lookup v = none :=
  Finmap.lookup_eq_none.2 fun hm => h (Finmap.mem_keys.2 hm)

theorem lookup_union {μ ν : Mapping V X} {v : V} : (μ ∪ ν).lookup v = (μ.lookup v).or (ν.lookup v) := by
  by_cases h : v ∈ μ
  · rw [Finmap.lookup_union_left h]
    obtain ⟨x, hx⟩ := Finmap.mem_iff.1 h
    simp [hx]
  · rw [Finmap.lookup_union_right h, Finmap.lookup_eq_none.2 h, Option.none_or]

theorem lookup_union_of_left {μ ν : Mapping V X} {v : V} {x : X} (h : μ.lookup v = some x) :
    (μ ∪ ν).lookup v = some x := by
  simp [lookup_union, h]

/-! ## Compatible mappings -/

variable [DecidableEq X]

/-- The two agree on every variable both assign. -/
def Compat (μ ν : Mapping V X) : Prop := ∀ v ∈ μ.keys, v ∈ ν.keys → μ.lookup v = ν.lookup v

instance (μ ν : Mapping V X) : Decidable (Compat μ ν) :=
  inferInstanceAs (Decidable (∀ v ∈ μ.keys, v ∈ ν.keys → μ.lookup v = ν.lookup v))

omit [DecidableEq X] in
theorem compat_iff {μ ν : Mapping V X} :
    Compat μ ν ↔ ∀ v x y, μ.lookup v = some x → ν.lookup v = some y → x = y := by
  constructor
  · intro h v x y hx hy
    have := h v (mem_keys_iff.2 ⟨x, hx⟩) (mem_keys_iff.2 ⟨y, hy⟩)
    rw [hx, hy] at this
    exact Option.some.inj this
  · intro h v hμ hν
    obtain ⟨x, hx⟩ := mem_keys_iff.1 hμ
    obtain ⟨y, hy⟩ := mem_keys_iff.1 hν
    rw [hx, hy, h v x y hx hy]

omit [DecidableEq X] in
theorem compat_comm {μ ν : Mapping V X} : Compat μ ν ↔ Compat ν μ := by
  simp only [compat_iff]
  exact ⟨fun h v x y hx hy => (h v y x hy hx).symm, fun h v x y hx hy => (h v y x hy hx).symm⟩

omit [DecidableEq X] in
theorem compat_empty (μ : Mapping V X) : Compat ∅ μ := by
  intro v hv
  simp at hv

omit [DecidableEq X] in
theorem union_comm {μ ν : Mapping V X} (h : Compat μ ν) : μ ∪ ν = ν ∪ μ := by
  refine Finmap.ext_lookup fun v => ?_
  rw [lookup_union, lookup_union]
  cases hμ : μ.lookup v with
  | none => simp
  | some x =>
    cases hν : ν.lookup v with
    | none => simp
    | some y => simp [compat_iff.1 h v x y hμ hν]

omit [DecidableEq X] in
/-- What is compatible with a merge is compatible with both parts. -/
theorem compat_union {μ ν ρ : Mapping V X} (h : Compat μ ν) :
    Compat (μ ∪ ν) ρ ↔ Compat μ ρ ∧ Compat ν ρ := by
  simp only [compat_iff, lookup_union] at h ⊢
  constructor
  · intro hu
    refine ⟨fun v x y hx hy => hu v x y (by simp [hx]) hy, fun v x y hx hy => ?_⟩
    cases hμ : μ.lookup v with
    | none => exact hu v x y (by simp [hμ, hx]) hy
    | some z =>
      have hzx : z = x := h v z x hμ hx
      exact hu v x y (by simp [hμ, hzx]) hy
  · rintro ⟨h₁, h₂⟩ v x y hx hy
    cases hμ : μ.lookup v with
    | none => rw [hμ, Option.none_or] at hx; exact h₂ v x y hx hy
    | some z =>
      rw [hμ, Option.some_or] at hx
      cases hx
      exact h₁ v x y hμ hy

omit [DecidableEq X] in
theorem lookup_union_of_right {μ ν : Mapping V X} (hc : Compat μ ν) {v : V} {x : X} (h : ν.lookup v = some x) :
    (μ ∪ ν).lookup v = some x := by
  rw [union_comm hc]
  exact lookup_union_of_left h

/-! ## Joins -/

/-- Every mapping of `M` that is compatible with `μ`, merged with it. -/
def extend (μ : Mapping V X) (M : Multiset (Mapping V X)) : Multiset (Mapping V X) :=
  (M.filter (Compat μ)).map (μ ∪ ·)

/-- The join of two multisets of mappings. -/
def join (M N : Multiset (Mapping V X)) : Multiset (Mapping V X) := M.bind (fun μ => extend μ N)

theorem mem_extend {μ ν : Mapping V X} {M : Multiset (Mapping V X)} :
    ν ∈ extend μ M ↔ ∃ ρ ∈ M, Compat μ ρ ∧ μ ∪ ρ = ν := by
  simp only [extend, Multiset.mem_map, Multiset.mem_filter, and_assoc]

theorem mem_join {ν : Mapping V X} {M N : Multiset (Mapping V X)} :
    ν ∈ join M N ↔ ∃ μ ∈ M, ∃ ρ ∈ N, Compat μ ρ ∧ μ ∪ ρ = ν := by
  simp only [join, Multiset.mem_bind, mem_extend]

@[simp] theorem extend_zero (μ : Mapping V X) : extend μ 0 = 0 := by simp [extend]

theorem extend_add (μ : Mapping V X) (M N : Multiset (Mapping V X)) :
    extend μ (M + N) = extend μ M + extend μ N := by
  simp [extend, Multiset.filter_add]

theorem extend_cons (μ ν : Mapping V X) (M : Multiset (Mapping V X)) :
    extend μ (ν ::ₘ M) = extend μ {ν} + extend μ M := by
  rw [← Multiset.singleton_add, extend_add]

theorem extend_singleton (μ ν : Mapping V X) :
    extend μ {ν} = if Compat μ ν then {μ ∪ ν} else 0 := by
  by_cases h : Compat μ ν <;> simp [extend, Multiset.filter_singleton, h]

@[simp] theorem extend_empty (M : Multiset (Mapping V X)) : extend ∅ M = M := by
  have h : M.filter (Compat ∅) = M := Multiset.filter_eq_self.2 fun μ _ => compat_empty μ
  simp [extend, h, Finmap.empty_union]

theorem extend_bind {α : Type} (μ : Mapping V X) (M : Multiset α) (f : α → Multiset (Mapping V X)) :
    extend μ (M.bind f) = M.bind (fun a => extend μ (f a)) := by
  induction M using Multiset.induction_on with
  | empty => simp
  | cons a M ih => rw [Multiset.cons_bind, Multiset.cons_bind, extend_add, ih]

@[simp] theorem zero_join (N : Multiset (Mapping V X)) : join 0 N = 0 := by simp [join]

@[simp] theorem join_zero (M : Multiset (Mapping V X)) : join M 0 = 0 := by simp [join]

theorem singleton_join (μ : Mapping V X) (N : Multiset (Mapping V X)) : join {μ} N = extend μ N := by
  simp [join]

theorem add_join (M₁ M₂ N : Multiset (Mapping V X)) : join (M₁ + M₂) N = join M₁ N + join M₂ N := by
  simp [join, Multiset.add_bind]

theorem join_add (M N₁ N₂ : Multiset (Mapping V X)) : join M (N₁ + N₂) = join M N₁ + join M N₂ := by
  simp [join, extend_add, Multiset.bind_add]

theorem bind_join {α : Type} (M : Multiset α) (f : α → Multiset (Mapping V X)) (N : Multiset (Mapping V X)) :
    join (M.bind f) N = M.bind (fun a => join (f a) N) := by
  rw [join, Multiset.bind_assoc]
  rfl

theorem join_bind {α : Type} (M : Multiset (Mapping V X)) (N : Multiset α) (f : α → Multiset (Mapping V X)) :
    join M (N.bind f) = N.bind (fun a => join M (f a)) := by
  simp only [join, extend_bind]
  rw [Multiset.bind_bind]

/-- Extending by a merge is extending twice. -/
theorem extend_extend (μ ν : Mapping V X) (M : Multiset (Mapping V X)) :
    (extend μ {ν}).bind (fun ρ => extend ρ M) = extend μ (extend ν M) := by
  induction M using Multiset.induction_on with
  | empty => simp
  | cons ρ M ih =>
    have hsplit : (extend μ {ν}).bind (fun σ => extend σ (ρ ::ₘ M)) =
        (extend μ {ν}).bind (fun σ => extend σ {ρ}) + (extend μ {ν}).bind (fun σ => extend σ M) := by
      simp only [extend_cons, Multiset.bind_add]
    rw [hsplit, ih, extend_cons ν ρ, extend_add]
    congr 1
    simp only [extend_singleton]
    by_cases hμν : Compat μ ν
    · by_cases hνρ : Compat ν ρ
      · simp only [hμν, hνρ, if_true, Multiset.singleton_bind, extend_singleton, compat_union hμν]
        have hc : Compat μ (ν ∪ ρ) ↔ Compat μ ρ := by
          rw [compat_comm, compat_union hνρ, compat_comm (ν := μ), compat_comm (μ := ρ)]
          exact and_iff_right hμν
        by_cases hμρ : Compat μ ρ
        · simp [hμρ, hc.2 hμρ, Finmap.union_assoc]
        · simp [hμρ, mt hc.1 hμρ]
      · simp [hμν, hνρ, compat_union hμν]
    · have hno : ∀ σ, Compat ν σ → ¬ Compat μ (ν ∪ σ) := fun σ hσ h =>
        hμν (compat_comm.1 ((compat_union hσ).1 (compat_comm.1 h)).1)
      by_cases hνρ : Compat ν ρ
      · simp [hμν, hνρ, extend_singleton, hno ρ hνρ]
      · simp [hμν, hνρ]

theorem extend_join (μ : Mapping V X) (M N : Multiset (Mapping V X)) :
    extend μ (join M N) = join (extend μ M) N := by
  induction M using Multiset.induction_on with
  | empty => simp
  | cons ν M ih =>
    rw [← Multiset.singleton_add, add_join, extend_add, ih, extend_add, add_join, singleton_join,
      ← extend_extend]
    rfl

theorem join_assoc (M N P : Multiset (Mapping V X)) : join (join M N) P = join M (join N P) := by
  induction M using Multiset.induction_on with
  | empty => simp
  | cons μ M ih =>
    rw [← Multiset.singleton_add, add_join, add_join, add_join, ih, singleton_join, singleton_join, extend_join]

theorem extend_singleton_comm (μ ν : Mapping V X) : extend μ {ν} = extend ν {μ} := by
  simp only [extend_singleton, compat_comm (μ := ν)]
  by_cases h : Compat μ ν
  · simp [h, union_comm h]
  · simp [h]

theorem join_singleton (N : Multiset (Mapping V X)) (μ : Mapping V X) : join N {μ} = extend μ N := by
  induction N using Multiset.induction_on with
  | empty => simp
  | cons ν N ih => rw [← Multiset.singleton_add, extend_add, add_join, ih, singleton_join, extend_singleton_comm]

theorem join_comm (M N : Multiset (Mapping V X)) : join M N = join N M := by
  induction M using Multiset.induction_on with
  | empty => simp
  | cons μ M ih => rw [← Multiset.singleton_add, add_join, join_add, ih, singleton_join, join_singleton]

/-! ## Joins of lists -/

/-- The join of all of a list of multisets. -/
def joinAll (Ms : List (Multiset (Mapping V X))) : Multiset (Mapping V X) := Ms.foldr join {∅}

@[simp] theorem join_unit (M : Multiset (Mapping V X)) : join M {∅} = M := by
  rw [join_singleton, extend_empty]

@[simp] theorem unit_join (M : Multiset (Mapping V X)) : join {∅} M = M := by
  rw [singleton_join, extend_empty]

@[simp] theorem joinAll_nil : joinAll ([] : List (Multiset (Mapping V X))) = {∅} := rfl

@[simp] theorem joinAll_cons (M : Multiset (Mapping V X)) (Ms : List (Multiset (Mapping V X))) :
    joinAll (M :: Ms) = join M (joinAll Ms) := rfl

theorem joinAll_append (Ms Ns : List (Multiset (Mapping V X))) :
    joinAll (Ms ++ Ns) = join (joinAll Ms) (joinAll Ns) := by
  induction Ms with
  | nil => simp
  | cons M Ms ih => rw [List.cons_append, joinAll_cons, joinAll_cons, ih, join_assoc]

/-- Joins do not depend on the order. -/
theorem joinAll_perm {Ms Ns : List (Multiset (Mapping V X))} (h : Ms.Perm Ns) : joinAll Ms = joinAll Ns := by
  induction h with
  | nil => rfl
  | cons M _ ih => rw [joinAll_cons, joinAll_cons, ih]
  | swap M N Ms => rw [joinAll_cons, joinAll_cons, joinAll_cons, joinAll_cons, ← join_assoc, ← join_assoc, join_comm N M]
  | trans _ _ ih ih' => exact ih.trans ih'

/-! ## Restriction -/

omit [DecidableEq X] in
/-- The part of a mapping on some variables. -/
def restrict (vs : List V) (μ : Mapping V X) : Mapping V X :=
  vs.foldr (fun v ν => match μ.lookup v with | some x => ν.insert v x | none => ν) ∅

omit [DecidableEq X] in
theorem lookup_restrict (vs : List V) (μ : Mapping V X) (v : V) :
    (restrict vs μ).lookup v = if v ∈ vs then μ.lookup v else none := by
  induction vs with
  | nil => simp [restrict]
  | cons w vs ih =>
    simp only [restrict, List.foldr_cons] at ih ⊢
    cases hw : μ.lookup w with
    | none =>
      simp only [ih, List.mem_cons]
      by_cases hv : v = w
      · subst hv; simp [hw]
      · simp [hv]
    | some x =>
      by_cases hv : v = w
      · subst hv; simp [Finmap.lookup_insert, hw]
      · rw [Finmap.lookup_insert_of_ne _ hv, ih]; simp [hv]

omit [DecidableEq X] in
theorem mem_keys_restrict {vs : List V} {μ : Mapping V X} {v : V} : v ∈ (restrict vs μ).keys ↔ v ∈ vs ∧ v ∈ μ.keys := by
  simp only [mem_keys_iff, lookup_restrict]
  by_cases h : v ∈ vs <;> simp [h]

omit [DecidableEq X] in
/-- A mapping on no other variables is its own restriction. -/
theorem restrict_eq_self {vs : List V} {μ : Mapping V X} (h : ∀ v ∈ μ.keys, v ∈ vs) : restrict vs μ = μ := by
  refine Finmap.ext_lookup fun v => ?_
  rw [lookup_restrict]
  split
  · rfl
  · rename_i hv
    exact (lookup_of_not_mem fun hm => hv (h v hm)).symm

/-! ## Extensions and agreement -/

/-- `ν` assigns whatever `μ` assigns. -/
def Extends (ν μ : Mapping V X) : Prop := ∀ v x, μ.lookup v = some x → ν.lookup v = some x

/-- The two assign the same on `Y`, or both nothing. -/
def Agree (Y : Set V) (μ ν : Mapping V X) : Prop := ∀ v ∈ Y, μ.lookup v = ν.lookup v

omit [DecidableEq X] in
theorem Extends.refl (μ : Mapping V X) : Extends μ μ := fun _ _ h => h

omit [DecidableEq X] in
theorem Extends.trans {μ ν ρ : Mapping V X} (h : Extends ρ ν) (h' : Extends ν μ) : Extends ρ μ :=
  fun v x hx => h v x (h' v x hx)

omit [DecidableEq X] in
theorem Extends.keys {μ ν : Mapping V X} (h : Extends ν μ) {v : V} (hv : v ∈ μ.keys) : v ∈ ν.keys := by
  obtain ⟨x, hx⟩ := mem_keys_iff.1 hv
  exact mem_keys_iff.2 ⟨x, h v x hx⟩

omit [DecidableEq X] in
theorem mem_keys_union {μ ν : Mapping V X} {v : V} : v ∈ (μ ∪ ν).keys ↔ v ∈ μ.keys ∨ v ∈ ν.keys := by
  simp only [mem_keys_iff, lookup_union]
  cases μ.lookup v <;> simp

omit [DecidableEq X] in
theorem extends_union_left (μ ν : Mapping V X) : Extends (μ ∪ ν) μ := fun _ _ h => lookup_union_of_left h

omit [DecidableEq X] in
theorem extends_union_right {μ ν : Mapping V X} (h : Compat μ ν) : Extends (μ ∪ ν) ν :=
  fun _ _ hx => lookup_union_of_right h hx

theorem extends_of_mem_extend {μ ν : Mapping V X} {M : Multiset (Mapping V X)} (h : ν ∈ extend μ M) : Extends ν μ := by
  obtain ⟨ρ, -, -, rfl⟩ := mem_extend.1 h
  exact extends_union_left μ ρ

omit [DecidableEq X] in
/-- A merge with what is already there changes nothing. -/
theorem union_of_extends {μ ν : Mapping V X} (h : Extends ν μ) : μ ∪ ν = ν := by
  refine Finmap.ext_lookup fun v => ?_
  rw [lookup_union]
  cases hμ : μ.lookup v with
  | none => simp
  | some x => simp [h v x hμ]

omit [DecidableEq X] in
theorem compat_of_extends {μ ν : Mapping V X} (h : Extends ν μ) : Compat μ ν :=
  compat_iff.2 fun v x y hx hy => by
    rw [h v x hx] at hy
    exact Option.some.inj hy

/-- Extending by `μ` again changes nothing. -/
theorem extend_extend_of_extends {μ ν : Mapping V X} (h : Extends ν μ) (M : Multiset (Mapping V X)) :
    extend ν (extend μ M) = extend ν M := by
  have hs : extend ν {μ} = {ν} := by
    rw [extend_singleton, if_pos (compat_comm.1 (compat_of_extends h)), ← union_comm (compat_of_extends h),
      union_of_extends h]
  rw [← extend_extend, hs, Multiset.singleton_bind]

omit [DecidableEq X] in
/-- Where two mappings agree on the variables of a third, they are both compatible with it
or both not. -/
theorem Agree.compat_iff {Y : Set V} {μ ν ρ : Mapping V X} (h : Agree Y μ ν) (hρ : ∀ v ∈ ρ.keys, v ∈ Y) :
    Compat μ ρ ↔ Compat ν ρ := by
  simp only [Mapping.compat_iff]
  constructor
  · intro hc v x y hx hy
    exact hc v x y ((h v (hρ v (mem_keys_iff.2 ⟨y, hy⟩))).trans hx) hy
  · intro hc v x y hx hy
    exact hc v x y ((h v (hρ v (mem_keys_iff.2 ⟨y, hy⟩))).symm.trans hx) hy

omit [DecidableEq X] in
theorem Agree.union {Y : Set V} {μ ν : Mapping V X} (h : Agree Y μ ν) (ρ : Mapping V X) : Agree Y (μ ∪ ρ) (ν ∪ ρ) := by
  intro v hv
  rw [lookup_union, lookup_union, h v hv]

omit [DecidableEq X] in
theorem Agree.symm {Y : Set V} {μ ν : Mapping V X} (h : Agree Y μ ν) : Agree Y ν μ := fun v hv => (h v hv).symm

omit [DecidableEq X] in
theorem Agree.mono {Y Z : Set V} {μ ν : Mapping V X} (h : Agree Y μ ν) (hs : Z ⊆ Y) : Agree Z μ ν :=
  fun v hv => h v (hs hv)

/-! ## A table of one column -/

omit [DecidableEq X] in
theorem lookup_singleton_iff {v w : V} {x y : X} : (Finmap.singleton v x : Mapping V X).lookup w = some y ↔ w = v ∧ x = y := by
  by_cases hw : w = v
  · subst hw
    rw [Finmap.lookup_singleton_eq, Option.some.injEq]
    simp
  · have hnone : (Finmap.singleton v x : Mapping V X).lookup w = none :=
      Finmap.lookup_eq_none.2 (fun hm => hw ((Finmap.mem_singleton w v x).1 hm))
    rw [hnone]
    simp [hw]

/-- Where `v` is assigned, one value for it only picks. -/
theorem extend_singleton_filter {v : V} (x : X) {M : Multiset (Mapping V X)} (h : ∀ μ ∈ M, v ∈ μ.keys) :
    extend (Finmap.singleton v x) M = M.filter (fun μ => μ.lookup v = some x) := by
  have hiff : ∀ μ ∈ M, Compat (Finmap.singleton v x) μ ↔ μ.lookup v = some x := by
    intro μ hμ
    obtain ⟨y, hy⟩ := mem_keys_iff.1 (h μ hμ)
    rw [compat_iff, hy]
    constructor
    · intro hc
      rw [hc v x y (lookup_singleton_iff.2 ⟨rfl, rfl⟩) hy]
    · intro hxy w a b ha hb
      obtain ⟨rfl, rfl⟩ := lookup_singleton_iff.1 ha
      rw [hy] at hb
      exact Option.some.inj (hxy.symm.trans hb)
  unfold extend
  rw [Multiset.filter_congr hiff]
  have hsame : ∀ μ ∈ M.filter (fun μ => μ.lookup v = some x), Finmap.singleton v x ∪ μ = μ := by
    intro μ hμ
    refine union_of_extends (fun w a ha => ?_)
    obtain ⟨rfl, rfl⟩ := lookup_singleton_iff.1 ha
    exact (Multiset.mem_filter.1 hμ).2
  rw [Multiset.map_congr rfl hsame, Multiset.map_id']

/-- Where `v` is assigned, a list of values for it only picks, and picks none twice. -/
theorem column_join {v : V} {xs : List X} (hxs : xs.Nodup) {M : Multiset (Mapping V X)} (h : ∀ μ ∈ M, v ∈ μ.keys) :
    join (xs.map (Finmap.singleton v) : List (Mapping V X)) M = M.filter (fun μ => ∃ x ∈ xs, μ.lookup v = some x) := by
  induction xs with
  | nil => simp
  | cons x xs ih =>
    obtain ⟨hnot, hxs⟩ := List.nodup_cons.1 hxs
    rw [List.map_cons, ← Multiset.cons_coe, ← Multiset.singleton_add, add_join, singleton_join, extend_singleton_filter x h, ih hxs,
      Multiset.filter_add_filter]
    have hnone : M.filter (fun μ => μ.lookup v = some x ∧ ∃ y ∈ xs, μ.lookup v = some y) = 0 := by
      refine Multiset.filter_eq_nil.2 (fun μ _ hμ => ?_)
      obtain ⟨hx, y, hy, hxy⟩ := hμ
      rw [hx] at hxy
      cases hxy
      exact hnot hy
    rw [hnone, add_zero]
    refine Multiset.filter_congr (fun μ _ => ?_)
    simp

end Mapping

end Lib
