import Holos.Engine.Bindjoin.Leaves
/-!
# Hoisting keeps the meaning

A pattern tree is flattened into one list: what is required is joined first, in any order,
every filter is applied where its variables are bound, and every optional comes last. `Sound`
are the conditions this needs of the pattern and the data, and `hoist` shows that under them
the list means what the tree does, by induction on what `collect` builds.

The statement is about a continuation `k`, what is made of each solution: an optional's test
is whether anything comes of its right side and all that follows it.
-/

namespace Holos.Engine.Bindjoin

open Sparql Lib

/-! ## Soundness -/

/-- Every solution binds the variable. -/
def Binds (M : Multiset Solution) (v : Variable) : Prop := ∀ μ ∈ M, v ∈ μ.keys

/-- The pattern can be hoisted. `X` are the variables in use around it, and `scope` is the
block it is in.

A variable of the right side of an `OPTIONAL` or `MINUS` that is in use outside has to be
bound by every solution of the left side. A left solution of a `MINUS` that is compatible
with a right one has to share a variable with one such. A filter sees the variable of its
`GRAPH` block only where the block's own solutions bind it, a block has to require something
of its graph, and a subquery has to project what it binds. -/
def Sound (I : Interpretation) : Scope → Option TermId → Set Variable → GraphPattern → Prop
  | scope, G, X, .join left right =>
    Sound I scope G (X ∪ {v | Mentions right v}) left ∧ Sound I scope G (X ∪ {v | Mentions left v}) right
  | scope, G, X, .leftJoin left right expression =>
    Sound I scope G (X ∪ {v | Mentions right v ∨ ∃ e ∈ expression, Reads e v}) left ∧
    Sound I scope G (X ∪ {v | Mentions left v ∨ ∃ e ∈ expression, Reads e v}) right ∧
    (∀ v ∈ X, Mentions right v → Binds (I.eval G left) v) ∧
    ∀ v, scope = .var v → (∃ e ∈ expression, Reads e v) → Binds (Mapping.join (I.eval G left) (I.eval G right)) v
  | scope, G, X, .minus left right =>
    Sound I scope G (X ∪ {v | Mentions right v}) left ∧ Sound I scope G (X ∪ {v | Mentions left v}) right ∧
    (∀ v ∈ X, Mentions right v → Binds (I.eval G left) v) ∧
    ∀ μ ∈ I.eval G left, (∃ ν ∈ I.eval G right, Mapping.Compat μ ν) → ∃ ν ∈ I.eval G right, Interpretation.Removes ν μ
  | scope, G, X, .filter expr inner =>
    Sound I scope G (X ∪ {v | Reads expr v}) inner ∧ ∀ v, scope = .var v → Reads expr v → Binds (I.eval G inner) v
  | _, _, X, .graph (.namedNode g) inner =>
    if I.intern (.namedNode g) ∈ I.graphs then Sound I (.named g) (some (I.intern (.namedNode g))) X inner
    else anchored inner = true
  | _, _, X, .graph (.var v) inner =>
    anchored inner = true ∧ ∀ n ∈ I.graphs, Sound I (.var v) (some n) (X ∪ {v}) inner
  | scope, G, X, .project inner vars => Sound I scope G X inner ∧ ∀ μ ∈ I.eval G inner, ∀ v ∈ μ.keys, v ∈ vars
  | _, _, _, _ => True

section Hoist
variable {I : Interpretation} {fs : List Filter}

/-! ## Filters -/

theorem holds_all (he : Evaluates I.holds) (e : Expression) (μ : Solution) :
    I.holds e μ = (flattenConjunction e).all (fun c => I.holds c μ) := by
  induction e using flattenConjunction.induct with
  | case1 a b iha ihb => rw [flattenConjunction, he.conjunction, iha, ihb, List.all_append]
  | case2 e hne =>
    rw [flattenConjunction]
    · simp
    · exact hne

/-- An expression holds where the filters made of it pass. -/
theorem holds_passes (he : Evaluates I.holds) {converts : Expression → Bool} {admits : Variable → Bool} {e : Expression}
    {new : List Filter} (h : filtersOf converts admits e = some new) (μ : Solution) : I.holds e μ = passes I new μ := by
  rw [holds_all he, passes]
  have hspec := filtersOf_spec h
  clear h
  generalize flattenConjunction e = conjuncts at hspec ⊢
  induction hspec with
  | nil => rfl
  | cons hc _ ih => rw [List.all_cons, List.all_cons, ih, hc.1]

theorem passes_append (F F' : List Filter) (μ : Solution) : passes I (F ++ F') μ = (passes I F μ && passes I F' μ) :=
  List.all_append

/-- A filter whose variables are bound keeps its value under extensions. -/
theorem passes_extends (he : Evaluates I.holds) {F : List Filter} (hi : ∀ f ∈ F, f.Inspected) {μ ν : Solution}
    (hF : ∀ f ∈ F, ∀ v ∈ f.needs, v ∈ μ.keys) (hx : Mapping.Extends ν μ) : passes I F ν = passes I F μ := by
  refine passes_agree he hi (Y := {v | v ∈ μ.keys}) hF fun v hv => ?_
  obtain ⟨x, hμ⟩ := Mapping.mem_keys_iff.1 hv
  rw [hμ, hx v x hμ]

theorem bind_found_append (F F' : List Filter) (items : List Item) (γ : Solution) (K : Solution → Multiset Solution) :
    (found I (F ++ F') items γ).bind K = (found I F items γ).bind (fun μ => if passes I F' μ = true then K μ else 0) := by
  rw [← Multiset.bind_filter, found, found, Multiset.filter_filter]
  congr 1
  exact Multiset.filter_congr fun μ _ => by rw [passes_append, Bool.and_eq_true, and_comm]

/-- A settled filter can be put before the optionals or after them. -/
theorem cont_filter (he : Evaluates I.holds) {F : List Filter} (hi : ∀ f ∈ F, f.Inspected) (items : List Item)
    {k : Solution → Multiset Solution} {μ : Solution} (hF : ∀ f ∈ F, ∀ v ∈ f.needs, v ∈ μ.keys) :
    cont I fs items (fun ν => if passes I F ν = true then k ν else 0) μ =
      if passes I F μ = true then cont I fs items k μ else 0 := by
  split
  · rename_i hp
    exact cont_congr items fun ν hν => by rw [passes_extends he hi hF hν, if_pos hp]
  · rename_i hp
    have hzero : cont I fs items (fun ν => if passes I F ν = true then k ν else 0) μ = cont I fs items (fun _ => 0) μ :=
      cont_congr items fun ν hν => by rw [passes_extends he hi hF hν, if_neg hp]
    rw [hzero, cont_zero]

theorem zeroOn_filter (he : Evaluates I.holds) {F : List Filter} (hi : ∀ f ∈ F, f.Inspected) {X Y : Set Variable}
    (hF : ∀ f ∈ F, ∀ v ∈ f.needs, v ∈ Y) {k : Solution → Multiset Solution} (hk : ZeroOn X k) (hs : X ⊆ Y) :
    ZeroOn Y (fun ν => if passes I F ν = true then k ν else 0) := by
  intro μ ν ha
  simp only [passes_agree he hi hF ha]
  split
  · exact hk μ ν (ha.mono hs)
  · exact Iff.rfl

/-! ## Joins -/

section Join
variable {F : List Filter} {items : List Item} (he : Evaluates I.holds) (hi : ∀ f ∈ F, f.Inspected)
  (hF : ∀ f ∈ F, ∀ v ∈ f.needs, CertainIn items v)

include he hi hF in
/-- The required items of a list can be taken before or after any other solutions. -/
theorem found_swap (M : Multiset Solution) (γ : Solution) :
    (found I F items γ).bind (fun ρ => Mapping.extend ρ M) = (Mapping.extend γ M).bind (found I F items) := by
  have hleft : (found I F items γ).bind (fun ρ => Mapping.extend ρ M) =
      (Mapping.extend γ (Mapping.join (required I items) M)).filter (fun μ => passes I F μ = true) := by
    rw [extend_join_bind, Multiset.filter_bind, found, Multiset.bind_filter]
    refine Multiset.bind_congr fun ρ hρ => ?_
    obtain ⟨σ, hσ, -, rfl⟩ := Mapping.mem_extend.1 hρ
    have hkeys : ∀ f ∈ F, ∀ v ∈ f.needs, v ∈ (γ ∪ σ).keys := fun f hf v hv =>
      Mapping.mem_keys_union.2 (.inr (certainIn_required hσ (hF f hf v hv)))
    have hsame : ∀ μ ∈ Mapping.extend (γ ∪ σ) M, passes I F μ = passes I F (γ ∪ σ) := fun μ hμ =>
      passes_extends he hi hkeys (Mapping.extends_of_mem_extend hμ)
    split
    · rename_i hp
      exact (Multiset.filter_eq_self.2 fun μ hμ => by rw [hsame μ hμ, hp]).symm
    · rename_i hp
      exact (Multiset.filter_eq_nil.2 fun μ hμ => by rw [hsame μ hμ]; exact hp).symm
  have hright : (Mapping.extend γ M).bind (found I F items) =
      (Mapping.extend γ (Mapping.join M (required I items))).filter (fun μ => passes I F μ = true) := by
    rw [extend_join_bind, Multiset.filter_bind]
    rfl
  rw [hleft, hright, Mapping.join_comm]

include he hi hF in
/-- The required items of two lists, those of the second first. -/
theorem found_append (F' : List Filter) (items' : List Item) (γ : Solution) :
    found I (F' ++ F) (items' ++ items) γ = (found I F items γ).bind (found I F' items') := by
  have hswap := congrArg (fun N => N.filter (fun μ => passes I F' μ = true)) (found_swap he hi hF (required I items') γ)
  simp only [Multiset.filter_bind] at hswap
  have hleft : (found I F items γ).bind (found I F' items') = (found I F items γ).bind (fun ρ =>
      (Mapping.extend ρ (required I items')).filter (fun μ => passes I F' μ = true)) := rfl
  rw [hleft, hswap, found, required_append, extend_join_bind, Multiset.filter_bind]
  refine Multiset.bind_congr fun ρ _ => ?_
  rw [found, Multiset.filter_filter]
  exact Multiset.filter_congr fun μ _ => by rw [passes_append, Bool.and_eq_true]

end Join

/-- The filters an optional of the pattern owns are filters of the pattern. -/
theorem filtersAt_owned {n : Nat} {filters : List Filter} (hat : At fs n filters) {indices : List Nat}
    (h : ∀ i ∈ indices, n ≤ i ∧ i < n + filters.length) {f : Filter} (hf : f ∈ filtersAt fs indices) : f ∈ filters := by
  obtain ⟨i, hi, hfi⟩ := List.mem_filterMap.1 hf
  obtain ⟨hn, hlt⟩ := h i hi
  obtain ⟨pre, post, rfl, rfl⟩ := hat
  rw [List.append_assoc, List.getElem?_append_right hn, List.getElem?_append_left (by omega)] at hfi
  exact List.mem_of_getElem? hfi

theorem extend_eq_bind (γ : Solution) (M : Multiset Solution) :
    Mapping.extend γ M = M.bind (fun μ => Mapping.extend γ {μ}) := by
  rw [← Mapping.extend_bind, Multiset.bind_singleton, Multiset.map_id']

/-- Nothing that extends `μ` is compatible with what `μ` is not. -/
theorem extend_incompatible {γ μ : Solution} (hc : ¬ Mapping.Compat γ μ) {N : Multiset Solution}
    (h : ∀ ν ∈ N, Mapping.Extends ν μ) : Mapping.extend γ N = 0 := by
  rw [Multiset.eq_zero_iff_forall_notMem]
  intro σ hσ
  obtain ⟨ν, hν, hcν, -⟩ := Mapping.mem_extend.1 hσ
  refine hc (Mapping.compat_iff.2 fun v x y hx hy => ?_)
  exact Mapping.compat_iff.1 hcν v x y hx (h ν hν v y hy)

/-! ## Right sides -/

section Right
variable {G : Option TermId} {left right : GraphPattern} {X : Set Variable} {γ μ : Solution}
  (hbinds : ∀ v ∈ X, Mentions right v → Binds (I.eval G left) v)
  (hkeys : ∀ ν ∈ I.eval G right, ∀ v ∈ ν.keys, Mentions right v)
  (hγ : ∀ v ∈ γ.keys, Mentions right v → v ∈ X) (hμ : μ ∈ I.eval G left) (hc : Mapping.Compat γ μ)

include hbinds hkeys hγ hμ hc in
/-- What is bound around a left solution does not change which right solutions it meets. -/
theorem compat_right {ν : Solution} (hν : ν ∈ I.eval G right) : Mapping.Compat (γ ∪ μ) ν ↔ Mapping.Compat μ ν := by
  rw [Mapping.compat_union hc]
  refine ⟨fun h => h.2, fun h => ⟨Mapping.compat_iff.2 fun v x y hx hy => ?_, h⟩⟩
  have hv : Mentions right v := hkeys ν hν v (Mapping.mem_keys_iff.2 ⟨y, hy⟩)
  obtain ⟨z, hz⟩ := Mapping.mem_keys_iff.1 (hbinds v (hγ v (Mapping.mem_keys_iff.2 ⟨x, hx⟩) hv) hv μ hμ)
  rw [Mapping.compat_iff.1 hc v x z hx hz]
  exact Mapping.compat_iff.1 h v z y hz hy

include hbinds hkeys hγ hμ hc in
/-- The matches of a left solution, with what is bound around it. -/
theorem extend_right : Mapping.extend (γ ∪ μ) (I.eval G right) = (Mapping.extend μ (I.eval G right)).map (γ ∪ ·) := by
  rw [Mapping.extend, Mapping.extend, Multiset.map_map]
  rw [Multiset.filter_congr fun ν hν => compat_right hbinds hkeys hγ hμ hc hν]
  exact Multiset.map_congr rfl fun ν _ => Finmap.union_assoc

include hbinds hkeys hγ hμ hc in
/-- All of them are compatible with what is bound around it. -/
theorem extend_matches {N : Multiset Solution} (hN : ∀ σ ∈ N, σ ∈ Mapping.extend μ (I.eval G right)) :
    Mapping.extend γ N = N.map (γ ∪ ·) := by
  rw [Mapping.extend, Multiset.filter_eq_self.2]
  intro σ hσ
  obtain ⟨ν, hν, hμν, rfl⟩ := Mapping.mem_extend.1 (hN σ hσ)
  have hγν := ((Mapping.compat_union hc).1 ((compat_right hbinds hkeys hγ hμ hc hν).2 hμν)).1
  exact Mapping.compat_comm.1 ((Mapping.compat_union hμν).2 ⟨Mapping.compat_comm.1 hc, Mapping.compat_comm.1 hγν⟩)

include hbinds hkeys hμ in
/-- A match binds nothing new that is in use outside. -/
theorem agree_match {ν : Solution} (hν : ν ∈ I.eval G right) : Mapping.Agree X (γ ∪ μ) (γ ∪ μ ∪ ν) := by
  intro v hv
  rw [Mapping.lookup_union (ν := ν)]
  cases hx : (γ ∪ μ).lookup v with
  | some x => rfl
  | none =>
    rw [Option.none_or]
    cases hy : ν.lookup v with
    | none => rfl
    | some y =>
      have hm := hbinds v hv (hkeys ν hν v (Mapping.mem_keys_iff.2 ⟨y, hy⟩)) μ hμ
      obtain ⟨z, hz⟩ := Mapping.mem_keys_iff.1 (Mapping.mem_keys_union.2 (.inr hm) : v ∈ (γ ∪ μ).keys)
      rw [hx] at hz
      cases hz

end Right

/-! ## The operators -/

/-- The bindings `γ` around a pattern: they are in its block's graph, and what they share with
it is in use. -/
structure Around (I : Interpretation) (scope : Scope) (G : Option TermId) (X : Set Variable) (P : GraphPattern)
    (γ : Solution) : Prop where
  inScope : InScope I scope G γ
  block : ∀ v, scope = .var v → v ∈ X
  used : ∀ v ∈ γ.keys, Mentions P v → v ∈ X

/-- The list means what the tree does, around any bindings and before any continuation. -/
def Hoists (I : Interpretation) (P : GraphPattern) (scope : Scope) (n : Nat) (items : List Item)
    (filters free : List Filter) : Prop :=
  ∀ {G X γ k fs}, straight n P = true → At fs n filters → Sound I scope G X P → Around I scope G X P γ → ZeroOn X k →
    (Mapping.extend γ (I.eval G P)).bind k = (found I free items γ).bind (cont I fs items k)

section Operators
variable {converts : Expression → Bool} {scope : Scope} {n : Nat}

/-- A pattern inside `P`, around more bindings. -/
theorem Around.within {G : Option TermId} {X Y : Set Variable} {P Q : GraphPattern} {γ γ' : Solution}
    (h : Around I scope G X P γ) (hx : Mapping.Extends γ' γ) (hY : X ⊆ Y) (hQ : ∀ v, Mentions Q v → Mentions P v)
    (hnew : ∀ v ∈ γ'.keys, v ∉ γ.keys → Mentions Q v → v ∈ Y) : Around I scope G Y Q γ' := by
  refine ⟨h.inScope.extends hx, fun v hv => hY (h.block v hv), fun v hv hm => ?_⟩
  by_cases hγ : v ∈ γ.keys
  · exact hY (h.used v hγ (hQ v hm))
  · exact hnew v hv hγ hm

/-- A leaf: its items are all required. -/
theorem hoist_leaf {P : GraphPattern} {items : List Item} {G : Option TermId} {γ : Solution} {k : Solution → Multiset Solution}
    (h : Mapping.extend γ (I.eval G P) = Mapping.extend γ (required I items)) (hreq : ∀ item ∈ items, item.isOptional = false) :
    (Mapping.extend γ (I.eval G P)).bind k = (found I [] items γ).bind (cont I fs items k) := by
  have hcont : cont I fs items k = k := by
    clear h
    induction items with
    | nil => rw [cont]
    | cons item items ih =>
      rw [cont, ih fun x hx => hreq x (List.mem_cons_of_mem _ hx), contItem_required (hreq item List.mem_cons_self)]
  have hfound : found I [] items γ = Mapping.extend γ (required I items) :=
    Multiset.filter_eq_self.2 fun _ _ => rfl
  rw [h, hcont, hfound]

theorem hoist_filter (he : Evaluates I.holds) {expr : Expression} {inner : GraphPattern} {bound : Bound} {items : List Item}
    {filters free new : List Filter} (h : Collected converts inner scope n bound items filters free)
    (hn : filtersOf converts (· ∈ bound.certain) expr = some new) (ih : Hoists I inner scope n items filters free) :
    Hoists I (.filter expr inner) scope n items (filters ++ new) (free ++ new) := by
  intro G X γ k fs hs hat hsound hin hk
  obtain ⟨hsi, hblock⟩ := hsound
  have hnew : ∀ f ∈ new, f.Inspected := fun f hf => (filtersOf_mem hn hf).2.1
  have hreads : ∀ f ∈ new, ∀ v ∈ f.needs, Reads expr v := fun f hf v hv =>
    reads_of_mem (filtersOf_mem hn hf).1 (hnew f hf) hv
  have hcertain : ∀ f ∈ new, ∀ v ∈ f.needs, v ∈ bound.certain := fun f hf v hv => by
    simpa using (filtersOf_mem hn hf).2.2 v hv
  -- the filter has the same value with the bindings around it as without
  have hsame : ∀ μ ∈ I.eval G inner, ∀ ν, Mapping.Extends ν μ → I.holds expr ν = I.holds expr μ := by
    intro μ hμ ν hν
    rw [holds_passes he hn, holds_passes he hn]
    refine passes_extends he hnew (fun f hf v hv => ?_) hν
    by_cases hv' : scope = .var v
    · exact hblock v hv' (hreads f hf v hv) μ hμ
    · exact (h.keys hμ).2 v (hcertain f hf v hv) hv'
  have hleft : (Mapping.extend γ (I.eval G (.filter expr inner))).bind k =
      (Mapping.extend γ (I.eval G inner)).bind (fun ν => if passes I new ν = true then k ν else 0) := by
    rw [Interpretation.eval, ← Multiset.bind_filter]
    congr 1
    rw [Mapping.extend, Mapping.extend, Multiset.filter_map, Multiset.filter_filter, Multiset.filter_filter]
    refine congrArg _ (Multiset.filter_congr fun μ hμ => ?_)
    rw [and_comm, Function.comp_apply]
    refine and_congr_left fun hc => ?_
    rw [← holds_passes he hn, hsame μ hμ _ (Mapping.extends_union_right hc)]
  rw [hleft, ih hs hat.left hsi (hin.within (Mapping.Extends.refl γ) Set.subset_union_left (fun v => .inl)
      fun v hv hno => absurd hv hno)
    (zeroOn_filter he hnew (fun f hf v hv => .inr (hreads f hf v hv)) hk Set.subset_union_left), bind_found_append]
  refine Multiset.bind_congr fun μ hμ => cont_filter he hnew items fun f hf v hv => ?_
  exact certainIn_found hμ (h.certain (hcertain f hf v hv))

theorem hoist_join (he : Evaluates I.holds) {left right : GraphPattern} {a b : Bound} {items items' : List Item}
    {filters filters' free free' : List Filter} (hl : Collected converts left scope n a items filters free)
    (hr : Collected converts right scope (n + filters.length) b items' filters' free')
    (ihl : Hoists I left scope n items filters free) (ihr : Hoists I right scope (n + filters.length) items' filters' free') :
    Hoists I (.join left right) scope n (items ++ items') (filters ++ filters') (free ++ free') := by
  intro G X γ k fs hs hat hsound hin hk
  simp only [straight, Bool.and_eq_true, ← hl.length] at hs
  obtain ⟨hsl, hsr⟩ := hsound
  have hfree : ∀ f ∈ free', f.Inspected := fun f hf => (hr.inspected (hr.free_certain hf).1).1
  have hcertain : ∀ f ∈ free', ∀ v ∈ f.needs, CertainIn items' v := fun f hf => (hr.free_certain hf).2
  have hk' : ZeroOn (X ∪ {v | Mentions right v}) (cont I fs items' k) := by
    refine cont_zeroOn he items' (fun v hv => ?_) (fun f hf => ?_) (hk.mono Set.subset_union_left)
    · exact (hr.mentions hv).elim .inr fun h => .inl (hin.block v h)
    · obtain ⟨hi, hm⟩ := hr.inspected (filtersAt_owned hat.right (owned_range hr hs.2) hf)
      exact ⟨hi, fun v hv => .inr (hm v hv)⟩
  have hleft : ∀ ρ ∈ found I free' items' γ, (Mapping.extend ρ (I.eval G left)).bind (cont I fs items' k) =
      (found I free items ρ).bind (cont I fs (items ++ items') k) := by
    intro ρ hρ
    rw [cont_append]
    refine ihl hs.1 hat.left hsl (hin.within (extends_of_mem_found hρ) Set.subset_union_left (fun v => .inl) ?_) hk'
    intro v hv hno _
    obtain ⟨σ, hσ, -, rfl⟩ := Mapping.mem_extend.1 (Multiset.mem_of_mem_filter hρ)
    have hm := keys_required hσ ((Mapping.mem_keys_union.1 hv).resolve_left hno)
    exact (hr.mentions hm).elim .inr fun h => .inl (hin.block v h)
  have hright : ∀ μ ∈ Mapping.extend γ (I.eval G left),
      (Mapping.extend μ (I.eval G right)).bind k = (found I free' items' μ).bind (cont I fs items' k) := by
    intro μ hμ
    refine ihr hs.2 hat.right hsr (hin.within (Mapping.extends_of_mem_extend hμ) Set.subset_union_left (fun v => .inr) ?_)
      (hk.mono Set.subset_union_left)
    intro v hv hno _
    obtain ⟨σ, hσ, -, rfl⟩ := Mapping.mem_extend.1 hμ
    exact .inr ((hl.keys hσ).1 v ((Mapping.mem_keys_union.1 hv).resolve_left hno))
  calc (Mapping.extend γ (I.eval G (.join left right))).bind k
      = (Mapping.extend γ (I.eval G left)).bind (fun μ => (Mapping.extend μ (I.eval G right)).bind k) := by
        rw [Interpretation.eval, extend_join_bind, Multiset.bind_assoc]
    _ = ((Mapping.extend γ (I.eval G left)).bind (found I free' items')).bind (cont I fs items' k) := by
        rw [Multiset.bind_assoc]
        exact Multiset.bind_congr hright
    _ = (found I free' items' γ).bind (fun ρ => (Mapping.extend ρ (I.eval G left)).bind (cont I fs items' k)) := by
        rw [← found_swap he hfree hcertain, Multiset.bind_assoc]
    _ = (found I (free ++ free') (items ++ items') γ).bind (cont I fs (items ++ items') k) := by
        rw [found_append he hfree hcertain, Multiset.bind_assoc]
        exact Multiset.bind_congr hleft

variable (fs) in
/-- The right side of an optional with its filters, and the condition `C` last. -/
theorem hoist_right (he : Evaluates I.holds) {right : GraphPattern} {inner : Bound} {items : List Item}
    {filters free C : List Filter} (hr : Collected converts right scope 0 inner items filters free)
    (hown : ownsFilters right = false) (ihr : Hoists I right scope 0 items filters free) {G : Option TermId}
    {Y : Set Variable} {γ : Solution} {k : Solution → Multiset Solution} (hC : ∀ f ∈ C, f.Inspected)
    (hbound : ∀ μ ∈ found I free items γ, ∀ f ∈ C, ∀ v ∈ f.needs, v ∈ μ.keys) (hsound : Sound I scope G Y right)
    (hin : Around I scope G Y right γ) (hk : ZeroOn Y (fun ν => if passes I C ν = true then k ν else 0)) :
    (found I (filters ++ C) items γ).bind (cont I fs items k) =
      (Mapping.extend γ (I.eval G right)).bind (fun ν => if passes I C ν = true then k ν else 0) := by
  obtain ⟨ho, rfl⟩ := owned_nil hr hown
  rw [ihr (straight_of_not_owns hown 0) (At.self free) hsound hin hk, bind_found_append, cont_unowned items k ho]
  exact Multiset.bind_congr fun μ hμ => (cont_filter he hC items (hbound μ hμ)).symm

theorem hoist_minus (he : Evaluates I.holds) {left right : GraphPattern} {outer inner : Bound} {items items' : List Item}
    {filters filters' free free' : List Filter} {fresh : List Variable}
    (hl : Collected converts left scope n outer items filters free)
    (hr : Collected converts right scope 0 inner items' filters' free')
    (ihl : Hoists I left scope n items filters free) (ihr : Hoists I right scope 0 items' filters' free') :
    Hoists I (.minus left right) scope n
      (items ++ [.optional .remove items' (List.range' (n + filters.length) filters'.length) fresh])
      (filters ++ filters') free := by
  classical
  intro G X γ k fs hs hat hsound hin hk
  simp only [straight, Bool.and_eq_true, Bool.not_eq_true'] at hs
  obtain ⟨hsl, hsr, hbinds, hremoves⟩ := hsound
  have hat' := filtersAt_range hat.right
  generalize hidx : List.range' (n + filters.length) filters'.length = indices at hat' ⊢
  have hkeys : ∀ ν ∈ I.eval G right, ∀ v ∈ ν.keys, Mentions right v := fun ν hν => (hr.keys hν).1
  have hused : ∀ v ∈ γ.keys, Mentions right v → v ∈ X := fun v hv hm => hin.used v hv (.inr hm)
  have hk' : ZeroOn (X ∪ {v | Mentions right v}) (contItem I fs (.optional .remove items' indices fresh) k) := by
    refine contItem_zeroOn he _ (fun v hv => ?_) (fun f hf => ?_) (hk.mono Set.subset_union_left)
    · exact (hr.mentions hv).elim .inr fun h => .inl (hin.block v h)
    · rw [owned_optional, (owned_nil hr hs.2).1, List.append_nil, hat'] at hf
      exact ⟨(hr.inspected hf).1, fun v hv => .inr ((hr.inspected hf).2 v hv)⟩
  -- one left solution: it is removed exactly when a right solution removes it
  have hone : ∀ μ ∈ I.eval G left, Mapping.Compat γ μ →
      contItem I fs (.optional .remove items' indices fresh) k (γ ∪ μ) =
        if ∃ ν ∈ I.eval G right, Interpretation.Removes ν μ then 0 else k (γ ∪ μ) := by
    intro μ hμ hc
    have hin' : Around I scope G (X ∪ {v | Mentions left v}) right (γ ∪ μ) :=
      hin.within (Mapping.extends_union_left γ μ) Set.subset_union_left (fun v => .inr) fun v hv hno _ =>
        .inr ((hl.keys hμ).1 v ((Mapping.mem_keys_union.1 hv).resolve_left hno))
    have hright := hoist_right fs (C := []) he hr hs.2 ihr (by simp) (by simp) hsr hin'
      (k := fun ν => {ν}) (zeroOn_singleton _)
    rw [contItem, hat', ← List.append_nil filters', hright]
    have hmatch : (Mapping.extend (γ ∪ μ) (I.eval G right)).bind (fun ν => if passes I [] ν = true then {ν} else 0) = 0 ↔
        ¬ ∃ ν ∈ I.eval G right, Interpretation.Removes ν μ := by
      rw [bind_eq_zero]
      constructor
      · rintro h ⟨ν, hν, hcν, -⟩
        have := h _ (Mapping.mem_extend.2 ⟨ν, hν, (compat_right hbinds hkeys hused hμ hc hν).2 hcν, rfl⟩)
        simp [passes] at this
      · intro h σ hσ
        obtain ⟨ν, hν, hcν, -⟩ := Mapping.mem_extend.1 hσ
        exact absurd (hremoves μ hμ ⟨ν, hν, (compat_right hbinds hkeys hused hμ hc hν).1 hcν⟩) h
    by_cases hrem : ∃ ν ∈ I.eval G right, Interpretation.Removes ν μ
    · rw [if_pos hrem, if_neg (fun h => hmatch.1 h hrem)]
    · rw [if_neg hrem, if_pos (hmatch.2 hrem)]
  have hleft := ihl hs.1 hat.left hsl (hin.within (Mapping.Extends.refl γ) Set.subset_union_left (fun v => .inl)
    fun v hv hno => absurd hv hno) hk'
  have hfound : found I free (items ++ [.optional .remove items' indices fresh]) γ = found I free items γ := by
    rw [found, required_optional]
    rfl
  rw [cont_append, hfound, cont, cont, ← hleft, Interpretation.eval, extend_eq_bind γ, extend_eq_bind γ (I.eval G left),
    Multiset.bind_assoc, Multiset.bind_assoc, Multiset.bind_filter]
  refine Multiset.bind_congr fun μ hμ => ?_
  rw [Mapping.extend_singleton]
  by_cases hc : Mapping.Compat γ μ
  · simp only [hc, if_true, Multiset.singleton_bind, hone μ hμ hc]
    split
    · rfl
    · rename_i h
      rw [if_pos (not_not.1 h)]
  · simp only [hc, if_false, Multiset.zero_bind, ite_self]

/-- The condition of an `OPTIONAL` as its filters. -/
theorem condition_passes (he : Evaluates I.holds) {outer inner : Bound} {expression : Option Expression} {C : List Filter}
    (h : conditionOf converts outer inner expression = some C) (μ : Solution) :
    (∀ e ∈ expression, I.holds e μ = true) ↔ passes I C μ = true := by
  cases expression with
  | none =>
    cases h
    simp [passes]
  | some e => rw [← holds_passes he h]; simp

/-- An `OPTIONAL`'s test: whether anything comes of the matches and all that follows. Where
the matches come to nothing, so does the left solution by itself. -/
theorem optional_test {k : Solution → Multiset Solution} {γ : Solution} {N : Multiset Solution}
    (h : ∀ σ ∈ N, k σ = 0 → k γ = 0) : (if N.bind k = 0 then k γ else N.bind k) = (Interpretation.optionally γ N).bind k := by
  unfold Interpretation.optionally
  by_cases hN : N = 0
  · rw [if_pos (by rw [hN, Multiset.zero_bind]), if_pos hN, Multiset.singleton_bind]
  · rw [if_neg hN]
    split
    · rename_i h0
      obtain ⟨σ, hσ⟩ := Multiset.exists_mem_of_ne_zero hN
      rw [h σ hσ (bind_eq_zero.1 h0 σ hσ), h0]
    · rfl

theorem hoist_leftJoin (he : Evaluates I.holds) {left right : GraphPattern} {expression : Option Expression}
    {outer inner : Bound} {items items' : List Item} {filters filters' free free' C : List Filter} {fresh : List Variable}
    (hl : Collected converts left scope n outer items filters free)
    (hr : Collected converts right scope 0 inner items' filters' free')
    (hcond : conditionOf converts outer inner expression = some C)
    (ihl : Hoists I left scope n items filters free) (ihr : Hoists I right scope 0 items' filters' free') :
    Hoists I (.leftJoin left right expression) scope n
      (items ++ [.optional .extend items' (List.range' (n + filters.length) (filters' ++ C).length) fresh])
      (filters ++ (filters' ++ C)) free := by
  intro G X γ k fs hs hat hsound hin hk
  simp only [straight, Bool.and_eq_true, Bool.not_eq_true'] at hs
  obtain ⟨hsl, hsr, hbinds, hblock⟩ := hsound
  have hat' := filtersAt_range hat.right
  generalize hidx : List.range' (n + filters.length) (filters' ++ C).length = indices at hat' ⊢
  have hkeys : ∀ ν ∈ I.eval G right, ∀ v ∈ ν.keys, Mentions right v := fun ν hν => (hr.keys hν).1
  have hused : ∀ v ∈ γ.keys, Mentions right v → v ∈ X := fun v hv hm => hin.used v hv (.inr (.inl hm))
  have hC : ∀ f ∈ C, f.Inspected := fun f hf => by
    obtain ⟨e, -, -, hi, -⟩ := conditionOf_mem hcond hf
    exact hi
  have hreads : ∀ f ∈ C, ∀ v ∈ f.needs, ∃ e ∈ expression, Reads e v := fun f hf v hv => by
    obtain ⟨e, he', hm, hi, -⟩ := conditionOf_mem hcond hf
    exact ⟨e, he', reads_of_mem hm hi hv⟩
  have hk' : ZeroOn (X ∪ {v | Mentions right v ∨ ∃ e ∈ expression, Reads e v})
      (contItem I fs (.optional .extend items' indices fresh) k) := by
    refine contItem_zeroOn he _ (fun v hv => ?_) (fun f hf => ?_) (hk.mono Set.subset_union_left)
    · exact (hr.mentions hv).elim (fun h => .inr (.inl h)) fun h => .inl (hin.block v h)
    · rw [owned_optional, (owned_nil hr hs.2).1, List.append_nil, hat'] at hf
      rcases List.mem_append.1 hf with hf | hf
      · exact ⟨(hr.inspected hf).1, fun v hv => .inr (.inl ((hr.inspected hf).2 v hv))⟩
      · exact ⟨hC f hf, fun v hv => .inr (.inr (hreads f hf v hv))⟩
  -- one left solution, with its matches
  have hone : ∀ μ ∈ I.eval G left, Mapping.Compat γ μ → ∀ N,
      N = (Mapping.extend μ (I.eval G right)).filter (fun ν => ∀ e ∈ expression, I.holds e ν = true) →
      contItem I fs (.optional .extend items' indices fresh) k (γ ∪ μ) =
        (Interpretation.optionally (γ ∪ μ) (N.map (γ ∪ ·))).bind k := by
    intro μ hμ hc N hN
    have hin' : Around I scope G (X ∪ {v | Mentions left v ∨ ∃ e ∈ expression, Reads e v}) right (γ ∪ μ) :=
      hin.within (Mapping.extends_union_left γ μ) Set.subset_union_left (fun v h => .inr (.inl h)) fun v hv hno _ =>
        .inr (.inl ((hl.keys hμ).1 v ((Mapping.mem_keys_union.1 hv).resolve_left hno)))
    have hbound : ∀ σ ∈ found I free' items' (γ ∪ μ), ∀ f ∈ C, ∀ v ∈ f.needs, v ∈ σ.keys := by
      intro σ hσ f hf v hv
      obtain ⟨e, -, -, -, hneeds⟩ := conditionOf_mem hcond hf
      rcases hneeds v hv with h | h
      · exact certainIn_found hσ (hr.certain h)
      · refine (extends_of_mem_found hσ).keys (Mapping.mem_keys_union.2 ?_)
        by_cases hv' : scope = .var v
        · subst hv'
          exact .inl hin.inScope.keys
        · exact .inr ((hl.keys hμ).2 v h hv')
    have hright := hoist_right fs he hr hs.2 ihr hC hbound hsr hin'
      (zeroOn_filter he hC (fun f hf v hv => .inr (.inr (hreads f hf v hv))) hk Set.subset_union_left)
    -- the condition has the same value with the bindings around as without
    have hsame : ∀ σ ∈ Mapping.extend μ (I.eval G right), Mapping.Extends (γ ∪ σ) σ → passes I C (γ ∪ σ) = passes I C σ := by
      intro σ hσ hx
      obtain ⟨ν, hν, hμν, rfl⟩ := Mapping.mem_extend.1 hσ
      refine passes_extends he hC (fun f hf v hv => ?_) hx
      by_cases hv' : scope = .var v
      · exact hblock v hv' (hreads f hf v hv) _ (Mapping.mem_join.2 ⟨μ, hμ, ν, hν, hμν, rfl⟩)
      · obtain ⟨e, -, -, -, hneeds⟩ := conditionOf_mem hcond hf
        rcases hneeds v hv with h | h
        · exact Mapping.mem_keys_union.2 (.inr ((hr.keys hν).2 v h hv'))
        · exact Mapping.mem_keys_union.2 (.inl ((hl.keys hμ).2 v h hv'))
    have hmatches : (Mapping.extend (γ ∪ μ) (I.eval G right)).filter (fun ν => passes I C ν = true) = N.map (γ ∪ ·) := by
      rw [extend_right hbinds hkeys hused hμ hc, Multiset.filter_map, hN]
      refine congrArg _ (Multiset.filter_congr fun σ hσ => ?_)
      obtain ⟨ν, hν, hμν, rfl⟩ := Mapping.mem_extend.1 hσ
      have hγσ : Mapping.Compat γ (μ ∪ ν) := Mapping.compat_comm.1 ((Mapping.compat_union hμν).2 ⟨Mapping.compat_comm.1 hc,
        Mapping.compat_comm.1 ((Mapping.compat_union hc).1 ((compat_right hbinds hkeys hused hμ hc hν).2 hμν)).1⟩)
      rw [Function.comp_apply, hsame _ hσ (Mapping.extends_union_right hγσ), condition_passes he hcond]
    rw [contItem, hat', hright, ← Multiset.bind_filter, hmatches]
    refine optional_test fun σ hσ h0 => ?_
    rw [← hmatches] at hσ
    obtain ⟨ν, hν, -, rfl⟩ := Mapping.mem_extend.1 (Multiset.mem_of_mem_filter hσ)
    exact (hk _ _ (agree_match hbinds hkeys hμ hν)).2 h0
  have hleft := ihl hs.1 hat.left hsl (hin.within (Mapping.Extends.refl γ) Set.subset_union_left (fun v => .inl)
    fun v hv hno => absurd hv hno) hk'
  have hfound : found I free (items ++ [.optional .extend items' indices fresh]) γ = found I free items γ := by
    rw [found, required_optional]
    rfl
  rw [cont_append, hfound, cont, cont, ← hleft, Interpretation.eval, Mapping.extend_bind, extend_eq_bind γ (I.eval G left),
    Multiset.bind_assoc, Multiset.bind_assoc]
  refine Multiset.bind_congr fun μ hμ => ?_
  generalize hN : (Mapping.extend μ (I.eval G right)).filter (fun ν => ∀ e ∈ expression, I.holds e ν = true) = N
  have hsub : ∀ σ ∈ N, σ ∈ Mapping.extend μ (I.eval G right) := fun σ hσ => Multiset.mem_of_mem_filter (hN ▸ hσ)
  rw [Mapping.extend_singleton]
  by_cases hc : Mapping.Compat γ μ
  · rw [if_pos hc, Multiset.singleton_bind, hone μ hμ hc N hN.symm]
    congr 1
    unfold Interpretation.optionally
    by_cases h0 : N = 0
    · rw [h0, if_pos rfl, Multiset.map_zero, if_pos rfl, Mapping.extend_singleton, if_pos hc]
    · rw [if_neg h0, if_neg (by simpa using h0), extend_matches hbinds hkeys hused hμ hc hsub]
  · rw [if_neg hc, Multiset.zero_bind]
    have hnone : Mapping.extend γ (Interpretation.optionally μ N) = 0 := by
      refine extend_incompatible hc fun ν hν => ?_
      unfold Interpretation.optionally at hν
      split at hν
      · rw [Multiset.mem_singleton.1 hν]
        exact Mapping.Extends.refl μ
      · exact Mapping.extends_of_mem_extend (hsub ν hν)
    rw [hnone, Multiset.zero_bind]

theorem hoist_graph {name : NamedNodePattern} {inner : GraphPattern} {bound : Bound} {items : List Item}
    {filters free : List Filter} (h : Collected converts inner (innerScope name) n bound items filters free)
    (ih : Hoists I inner (innerScope name) n items filters free) : Hoists I (.graph name inner) .default n items filters free := by
  intro G X γ k fs hs hat hsound hin hk
  cases name with
  | namedNode g =>
    rw [Sound] at hsound
    rw [Interpretation.eval]
    by_cases hg : I.intern (.namedNode g) ∈ I.graphs
    · rw [if_pos hg] at hsound ⊢
      exact ih hs hat hsound ⟨⟨rfl, hg⟩, by simp [innerScope], fun v hv hm => hin.used v hv (.inr hm)⟩ hk
    · rw [if_neg hg] at hsound ⊢
      rw [found, h.anchored_named hsound rfl hg]
      simp
  | var v =>
    obtain ⟨ha, hsound⟩ := hsound
    -- the items name their graph, so they can be taken graph by graph
    have hparts : found I free items γ =
        I.graphs.val.bind (fun n => (Mapping.extend γ {Finmap.singleton v n}).bind (found I free items)) := by
      rw [found, ← bind_singletons fun ρ hρ => h.anchored_var (I := I) ha rfl hρ, Mapping.extend_bind, Multiset.filter_bind]
      refine Multiset.bind_congr fun n _ => ?_
      rw [← Mapping.extend_extend, Multiset.filter_bind]
      rfl
    rw [hparts, Interpretation.eval, Mapping.extend_bind, Multiset.bind_assoc, Multiset.bind_assoc]
    refine Multiset.bind_congr fun n hn => ?_
    rw [← Mapping.extend_extend, Multiset.bind_assoc, Multiset.bind_assoc]
    refine Multiset.bind_congr fun γ' hγ' => ?_
    obtain ⟨ρ, hρ, hc, rfl⟩ := Mapping.mem_extend.1 hγ'
    rw [Multiset.mem_singleton.1 hρ] at hc ⊢
    have hlookup : (γ ∪ Finmap.singleton v n).lookup v = some n :=
      Mapping.lookup_union_of_right hc (by simp [Finmap.lookup_singleton_eq])
    refine ih hs hat (hsound n hn) ⟨⟨n, hn, rfl, hlookup⟩, fun w hw => ?_, fun w hw hm => ?_⟩ (hk.mono Set.subset_union_left)
    · cases hw
      exact .inr rfl
    · rcases Mapping.mem_keys_union.1 hw with hw | hw
      · exact .inl (hin.used w hw (.inr hm))
      · exact .inr (mem_keys_singleton.1 hw).symm

theorem hoist_project {inner : GraphPattern} {vars : List Variable} {bound : Bound} {items : List Item}
    {filters free : List Filter} (h : Collected converts inner scope 0 bound items filters free)
    (ih : Hoists I inner scope 0 items filters free) : Hoists I (.project inner vars) scope n items filters free := by
  intro G X γ k fs hs hat hsound hin hk
  obtain ⟨hsi, hvars⟩ := hsound
  have heval : I.eval G (.project inner vars) = I.eval G inner := by
    rw [Interpretation.eval, Multiset.map_congr rfl fun μ hμ => Mapping.restrict_eq_self (hvars μ hμ)]
    exact Multiset.map_id _
  have hin' : Around I scope G X inner γ := ⟨hin.inScope, hin.block, hin.used⟩
  rw [heval]
  simp only [straight] at hs
  split at hs
  · rename_i hn
    subst hn
    exact ih hs hat hsi hin' hk
  · have ho : ownsFilters inner = false := by simpa using hs
    rw [ih (straight_of_not_owns ho 0) (At.self filters) hsi hin' hk, cont_unowned items k (owned_nil h ho).1]

/-- What `collect` builds for a sound pattern means what the pattern does. -/
theorem hoist (he : Evaluates I.holds) {P : GraphPattern} {bound : Bound} {items : List Item} {filters free : List Filter}
    (h : Collected converts P scope n bound items filters free) : Hoists I P scope n items filters free := by
  induction h with
  | project h hv ih => exact hoist_project h ih
  | filter h hn ih => exact hoist_filter he h hn ih
  | join hl hr ihl ihr => exact hoist_join he hl hr ihl ihr
  | minus hl hr ihl ihr => exact hoist_minus he hl hr ihl ihr
  | leftJoin hl hr hc ihl ihr => exact hoist_leftJoin he hl hr hc ihl ihr
  | graph h ih => exact hoist_graph h ih
  | bgp h =>
    intro G X γ k fs _ _ _ hin _
    obtain ⟨rfl, hu, -⟩ := collectBgp_spec h
    refine hoist_leaf ?_ (by simp [Item.isOptional])
    rw [eval_bgp hu, required_bgp, extend_patterns hin.inScope]
  | closure h =>
    intro G X γ k fs _ _ _ hin _
    obtain ⟨hs, ho, hs', ho', -, -⟩ := closureItem_spec h
    refine hoist_leaf ?_ (by simp [Item.isOptional])
    rw [eval_path (hs ▸ hs') (ho ▸ ho'), pathSolutions_closure h, required_single, extend_closureItem h hin.inScope]
    rfl
  | alternatives h =>
    intro G X γ k fs _ _ _ hin _
    obtain ⟨hs, ho, -, -⟩ := pathAlternatives_spec h
    refine hoist_leaf ?_ (by simp [Item.isOptional])
    rw [eval_path hs ho, required_single, extend_alternatives h hin.inScope]
    rfl
  | union h =>
    intro G X γ k fs _ _ _ hin _
    refine hoist_leaf ?_ (by simp [Item.isOptional])
    rw [required_single, extend_union h hin.inScope]
    rfl
  | values =>
    intro G X γ k fs _ _ _ _ _
    refine hoist_leaf ?_ (by simp [Item.isOptional])
    rw [required_single, Interpretation.eval]
    rfl

end Operators

end Hoist

end Holos.Engine.Bindjoin
