import Holos.Engine.Bindjoin.Collect
/-!
# The variables of patterns and items

Which variables a pattern mentions, which its items do, and which its solutions bind. What a
list of optionals comes to is settled by the variables they mention: `ZeroOn` says so of
whether anything comes of it at all, which is what an `OPTIONAL` tests.
-/

namespace Holos.Engine.Bindjoin

open Sparql Lib

/-! ## Mentions -/

/-- Some conjunct of the expression reads the variable. -/
def Reads (e : Expression) (v : Variable) : Prop :=
  ∃ c ∈ flattenConjunction e, ∃ needs, inspectExpression c [] = some needs ∧ v ∈ needs

/-- The pattern mentions the variable, in its filters too. -/
def Mentions : GraphPattern → Variable → Prop
  | .bgp patterns, v => ∃ t ∈ patterns, t.Mentions v
  | .path subject _ object, v => subject.Mentions v ∨ object.Mentions v
  | .join left right, v => Mentions left v ∨ Mentions right v
  | .union left right, v => Mentions left v ∨ Mentions right v
  | .minus left right, v => Mentions left v ∨ Mentions right v
  | .leftJoin left right expression, v => Mentions left v ∨ Mentions right v ∨ ∃ e ∈ expression, Reads e v
  | .filter expr inner, v => Mentions inner v ∨ Reads expr v
  | .graph name inner, v => name.Mentions v ∨ Mentions inner v
  | .values vars _, v => v ∈ vars
  | .project inner _, v => Mentions inner v
  | _, _ => False

mutual

/-- The item mentions the variable. Its filters are apart. -/
def ItemMentions : Item → Variable → Prop
  | .pattern p, v => p.Mentions v
  | .union branches, v => ∃ branch ∈ branches, ∃ p ∈ branch, p.Mentions v
  | .values vs, v => v ∈ vs.vars
  | .closure c, v => c.subject.Mentions v ∨ c.object.Mentions v ∨ c.scope = .var v
  | .optional _ items _ _, v => ItemsMention items v

def ItemsMention : List Item → Variable → Prop
  | [], _ => False
  | item :: items, v => ItemMentions item v ∨ ItemsMention items v

end

theorem itemsMention_iff {items : List Item} {v : Variable} : ItemsMention items v ↔ ∃ item ∈ items, ItemMentions item v := by
  induction items with
  | nil => simp [ItemsMention]
  | cons item items ih => rw [ItemsMention, ih, List.exists_mem_cons_iff]

theorem itemsMention_append {items items' : List Item} {v : Variable} :
    ItemsMention (items ++ items') v ↔ ItemsMention items v ∨ ItemsMention items' v := by
  simp only [itemsMention_iff, List.mem_append, or_and_right, exists_or]

/-! ## The variables an item binds -/

section Bound
variable {I : Interpretation}

theorem keys_closureItemSolutions {c : ClosureItem} {μ : Solution} (h : μ ∈ closureItemSolutions I c) {v : Variable}
    (hv : v ∈ μ.keys) : c.subject.Mentions v ∨ c.object.Mentions v ∨ c.scope = .var v := by
  unfold closureItemSolutions at h
  have hends : ∀ {G : Option TermId} {ρ : Solution}, ρ ∈ I.closureSolutions G c.subject c.path c.object → v ∈ ρ.keys →
      c.subject.Mentions v ∨ c.object.Mentions v ∨ c.scope = .var v := by
    intro G ρ hρ hk
    rcases (Interpretation.keys_closureSolutions hρ v).1 hk with h | h
    · exact .inl h
    · exact .inr (.inl h)
  split at h
  · exact hends h hv
  · split at h
    · exact hends h hv
    · exact absurd h (Multiset.notMem_zero μ)
  · rename_i w hs
    obtain ⟨n, -, hn⟩ := Multiset.mem_bind.1 h
    obtain ⟨ρ, hρ, -, rfl⟩ := Mapping.mem_extend.1 hn
    rcases Mapping.mem_keys_union.1 hv with hk | hk
    · rw [mem_keys_singleton] at hk
      exact .inr (.inr (by rw [hs, hk]))
    · exact hends hρ hk

theorem keys_itemSolutions {item : Item} {μ : Solution} (h : μ ∈ itemSolutions I item) {v : Variable} (hv : v ∈ μ.keys) :
    ItemMentions item v := by
  cases item with
  | pattern p => exact (keys_patternSolutions h v).1 hv
  | union branches =>
    obtain ⟨branch, hb, hμ⟩ := Multiset.mem_bind.1 h
    exact ⟨branch, hb, (keys_joinAll_patterns hμ v).1 hv⟩
  | values vs =>
    obtain ⟨row, -, hμ⟩ := Multiset.mem_bind.1 h
    obtain ⟨term, ht⟩ := (Interpretation.keys_rowSolutions hμ v).1 hv
    exact (List.of_mem_zip ht).1
  | closure c => exact keys_closureItemSolutions h hv
  | optional mode items filters fresh =>
    rw [Multiset.mem_singleton.1 h] at hv
    simp at hv

theorem keys_required {items : List Item} {ρ : Solution} (h : ρ ∈ required I items) {v : Variable} (hv : v ∈ ρ.keys) :
    ItemsMention items v := by
  induction items generalizing ρ with
  | nil =>
    rw [required_nil] at h
    rw [Multiset.mem_singleton.1 h] at hv
    simp at hv
  | cons item items ih =>
    obtain ⟨μ, hμ, ν, hν, -, rfl⟩ := Mapping.mem_join.1 h
    rcases Mapping.mem_keys_union.1 hv with hk | hk
    · exact .inl (keys_itemSolutions hμ hk)
    · exact .inr (ih hν hk)

theorem certainIn_required {items : List Item} {ρ : Solution} (h : ρ ∈ required I items) {v : Variable}
    (hc : CertainIn items v) : v ∈ ρ.keys := by
  obtain ⟨item, hm, hc⟩ := hc
  induction items generalizing ρ with
  | nil => cases hm
  | cons x items ih =>
    obtain ⟨μ, hμ, ν, hν, -, rfl⟩ := Mapping.mem_join.1 h
    rcases List.mem_cons.1 hm with rfl | hm
    · exact Mapping.mem_keys_union.2 (.inl (certain_keys hc hμ))
    · exact Mapping.mem_keys_union.2 (.inr (ih hν hm))

theorem certainIn_found {F : List Filter} {items : List Item} {γ μ : Solution} (h : μ ∈ found I F items γ) {v : Variable}
    (hc : CertainIn items v) : v ∈ μ.keys := by
  obtain ⟨ρ, hρ, -, rfl⟩ := Mapping.mem_extend.1 (Multiset.mem_of_mem_filter h)
  exact Mapping.mem_keys_union.2 (.inr (certainIn_required hρ hc))

end Bound

/-! ## Continuations -/

section Continuations
variable {I : Interpretation} {fs : List Filter}

mutual

/-- Where nothing follows, nothing comes of an item. -/
theorem contItem_zero : ∀ (item : Item) (μ : Solution), contItem I fs item (fun _ => 0) μ = 0
  | .optional .extend items _ _, μ => by
    rw [contItem]
    simp only [cont_zero items, Multiset.bind_zero, if_true]
  | .optional .remove items _ _, μ => by
    rw [contItem]
    exact ite_self 0
  | .pattern _, μ => by rw [contItem]
  | .union _, μ => by rw [contItem]
  | .values _, μ => by rw [contItem]
  | .closure _, μ => by rw [contItem]

theorem cont_zero : ∀ (items : List Item) (μ : Solution), cont I fs items (fun _ => 0) μ = 0
  | [], μ => by rw [cont]
  | item :: items, μ => by
    have h : cont I fs items (fun _ => 0) = fun _ => 0 := funext (cont_zero items)
    rw [cont, h]
    exact contItem_zero item μ

end

mutual

/-- An item only looks at what follows under extensions of its own bindings. -/
theorem contItem_congr : ∀ (item : Item) {k k' : Solution → Multiset Solution} {μ : Solution},
    (∀ ν, Mapping.Extends ν μ → k ν = k' ν) → contItem I fs item k μ = contItem I fs item k' μ
  | .optional .extend items _ _, k, k', μ, h => by
    rw [contItem, contItem, h μ (Mapping.Extends.refl μ)]
    have hinner : ∀ F, (found I F items μ).bind (cont I fs items k) = (found I F items μ).bind (cont I fs items k') :=
      fun F => Multiset.bind_congr fun ρ hρ =>
        cont_congr items fun ν hν => h ν (hν.trans (extends_of_mem_found hρ))
    simp only [hinner]
  | .optional .remove items _ _, k, k', μ, h => by
    rw [contItem, contItem, h μ (Mapping.Extends.refl μ)]
  | .pattern _, _, _, μ, h => by rw [contItem, contItem, h μ (Mapping.Extends.refl μ)]
  | .union _, _, _, μ, h => by rw [contItem, contItem, h μ (Mapping.Extends.refl μ)]
  | .values _, _, _, μ, h => by rw [contItem, contItem, h μ (Mapping.Extends.refl μ)]
  | .closure _, _, _, μ, h => by rw [contItem, contItem, h μ (Mapping.Extends.refl μ)]

theorem cont_congr : ∀ (items : List Item) {k k' : Solution → Multiset Solution} {μ : Solution},
    (∀ ν, Mapping.Extends ν μ → k ν = k' ν) → cont I fs items k μ = cont I fs items k' μ
  | [], _, _, μ, h => by rw [cont, cont, h μ (Mapping.Extends.refl μ)]
  | item :: items, k, k', μ, h => by
    rw [cont, cont]
    exact contItem_congr item fun ν hν => cont_congr items fun ρ hρ => h ρ (hρ.trans hν)

end

mutual

/-- Optionals without filters do not look at the plan's list of them. -/
theorem contItem_unowned {fs' : List Filter} : ∀ (item : Item) (k : Solution → Multiset Solution),
    ownedByOptionals [item] = [] → contItem I fs item k = contItem I fs' item k
  | .optional mode items indices fresh, k, h => by
    rw [owned_optional, List.append_eq_nil_iff] at h
    obtain ⟨rfl, h⟩ := h
    funext μ
    cases mode with
    | extend => rw [contItem, contItem, cont_unowned items _ h]; rfl
    | remove => rw [contItem, contItem, cont_unowned items _ h]; rfl
  | .pattern _, _, _ => by funext μ; rw [contItem, contItem]
  | .union _, _, _ => by funext μ; rw [contItem, contItem]
  | .values _, _, _ => by funext μ; rw [contItem, contItem]
  | .closure _, _, _ => by funext μ; rw [contItem, contItem]

theorem cont_unowned {fs' : List Filter} : ∀ (items : List Item) (k : Solution → Multiset Solution),
    ownedByOptionals items = [] → cont I fs items k = cont I fs' items k
  | [], _, _ => by rw [cont, cont]
  | item :: items, k, h => by
    have happ : ownedByOptionals (item :: items) = ownedByOptionals [item] ++ ownedByOptionals items :=
      owned_append [item] items
    rw [happ, List.append_eq_nil_iff] at h
    rw [cont, cont, cont_unowned items k h.2, contItem_unowned item _ h.1]

end

/-! ## What settles whether anything comes of a list -/

/-- The expression evaluator: an expression's value is a function of the variables it reads,
and a conjunction holds when both parts do. -/
structure Evaluates (holds : Expression → Solution → Bool) : Prop where
  reads : ∀ e needs, inspectExpression e [] = some needs → ∀ μ ν : Solution,
    (∀ v ∈ needs, μ.lookup v = ν.lookup v) → holds e μ = holds e ν
  conjunction : ∀ a b μ, holds (.binary .and a b) μ = (holds a μ && holds b μ)

/-- Whether anything comes of `k` depends on the variables in `Y` only. -/
def ZeroOn (Y : Set Variable) (k : Solution → Multiset Solution) : Prop :=
  ∀ μ ν, Mapping.Agree Y μ ν → (k μ = 0 ↔ k ν = 0)

theorem ZeroOn.mono {Y Z : Set Variable} {k : Solution → Multiset Solution} (h : ZeroOn Y k) (hs : Y ⊆ Z) : ZeroOn Z k :=
  fun μ ν ha => h μ ν (ha.mono hs)

theorem zeroOn_singleton (Y : Set Variable) : ZeroOn Y (fun ν => {ν}) := by
  intro μ ν _
  simp

theorem bind_eq_zero {M : Multiset Solution} {k : Solution → Multiset Solution} :
    M.bind k = 0 ↔ ∀ μ ∈ M, k μ = 0 := by
  simp only [Multiset.eq_zero_iff_forall_notMem, Multiset.mem_bind, not_exists, not_and]
  exact ⟨fun h μ hμ ν hν => h ν μ hμ hν, fun h ν μ hμ => h μ hμ ν⟩

theorem passes_agree (he : Evaluates I.holds) {Y : Set Variable} {F : List Filter} (hi : ∀ f ∈ F, f.Inspected)
    (hF : ∀ f ∈ F, ∀ v ∈ f.needs, v ∈ Y) {μ ν : Solution} (ha : Mapping.Agree Y μ ν) : passes I F μ = passes I F ν := by
  have hsame : ∀ f ∈ F, I.holds f.expression μ = I.holds f.expression ν := fun f hf =>
    he.reads _ _ (hi f hf).needs μ ν fun v hv => ha v (hF f hf v hv)
  induction F with
  | nil => rfl
  | cons f F ih =>
    have htail := ih (fun g hg => hi g (List.mem_cons_of_mem _ hg)) (fun g hg => hF g (List.mem_cons_of_mem _ hg))
      (fun g hg => hsame g (List.mem_cons_of_mem _ hg))
    simp only [passes] at htail
    simp only [passes, List.all_cons, htail, hsame f List.mem_cons_self]

/-- The solutions of a right side, likewise. -/
theorem zeroOn_found (he : Evaluates I.holds) {Y : Set Variable} {F : List Filter} (hi : ∀ f ∈ F, f.Inspected)
    (hF : ∀ f ∈ F, ∀ v ∈ f.needs, v ∈ Y) {items : List Item} (hm : ∀ v, ItemsMention items v → v ∈ Y)
    {k : Solution → Multiset Solution} (hk : ZeroOn Y k) : ZeroOn Y (fun μ => (found I F items μ).bind k) := by
  have hone : ∀ μ ν, Mapping.Agree Y μ ν → (found I F items μ).bind k = 0 → (found I F items ν).bind k = 0 := by
    intro μ ν ha h
    rw [bind_eq_zero] at h ⊢
    intro σ hσ
    obtain ⟨hσ, hp⟩ := Multiset.mem_filter.1 hσ
    obtain ⟨ρ, hρ, hc, rfl⟩ := Mapping.mem_extend.1 hσ
    have hkeys : ∀ v ∈ ρ.keys, v ∈ Y := fun v hv => hm v (keys_required hρ hv)
    have hu := ha.union ρ
    refine (hk _ _ hu).1 (h _ (Multiset.mem_filter.2 ⟨Mapping.mem_extend.2 ⟨ρ, hρ, (ha.compat_iff hkeys).2 hc, rfl⟩, ?_⟩))
    rw [passes_agree he hi hF hu]
    exact hp
  exact fun μ ν ha => ⟨hone μ ν ha, hone ν μ ha.symm⟩

mutual

theorem contItem_zeroOn (he : Evaluates I.holds) {Y : Set Variable} : ∀ (item : Item) {k : Solution → Multiset Solution},
    (∀ v, ItemMentions item v → v ∈ Y) →
    (∀ f ∈ filtersAt fs (ownedByOptionals [item]), f.Inspected ∧ ∀ v ∈ f.needs, v ∈ Y) → ZeroOn Y k →
    ZeroOn Y (contItem I fs item k)
  | .optional mode items indices fresh, k, hm, hF, hk => by
    rw [owned_optional, filtersAt_append] at hF
    have hown : ∀ f ∈ filtersAt fs indices, f.Inspected ∧ ∀ v ∈ f.needs, v ∈ Y := fun f hf =>
      hF f (List.mem_append_left _ hf)
    have hin : ∀ {k : Solution → Multiset Solution}, ZeroOn Y k →
        ZeroOn Y (fun μ => (found I (filtersAt fs indices) items μ).bind (cont I fs items k)) := fun hk =>
      zeroOn_found he (fun f hf => (hown f hf).1) (fun f hf => (hown f hf).2) hm
        (cont_zeroOn he items hm (fun f hf => hF f (List.mem_append_right _ hf)) hk)
    intro μ ν ha
    cases mode with
    | extend =>
      have hzero : ∀ σ, contItem I fs (.optional .extend items indices fresh) k σ = 0 ↔
          (found I (filtersAt fs indices) items σ).bind (cont I fs items k) = 0 ∧ k σ = 0 := by
        intro σ
        rw [contItem]
        split
        · rename_i h; simp [h]
        · rename_i h; simp [h]
      rw [hzero, hzero]
      exact and_congr (hin hk μ ν ha) (hk μ ν ha)
    | remove =>
      have hzero : ∀ σ, contItem I fs (.optional .remove items indices fresh) k σ = 0 ↔
          ((found I (filtersAt fs indices) items σ).bind (cont I fs items (fun ν => {ν})) = 0 → k σ = 0) := by
        intro σ
        rw [contItem]
        split
        · rename_i h; simp [h]
        · rename_i h; simp [h]
      rw [hzero, hzero]
      exact imp_congr (hin (zeroOn_singleton Y) μ ν ha) (hk μ ν ha)
  | .pattern _, k, _, _, hk => by rw [contItem_required rfl]; exact hk
  | .union _, k, _, _, hk => by rw [contItem_required rfl]; exact hk
  | .values _, k, _, _, hk => by rw [contItem_required rfl]; exact hk
  | .closure _, k, _, _, hk => by rw [contItem_required rfl]; exact hk

theorem cont_zeroOn (he : Evaluates I.holds) {Y : Set Variable} : ∀ (items : List Item) {k : Solution → Multiset Solution},
    (∀ v, ItemsMention items v → v ∈ Y) →
    (∀ f ∈ filtersAt fs (ownedByOptionals items), f.Inspected ∧ ∀ v ∈ f.needs, v ∈ Y) → ZeroOn Y k →
    ZeroOn Y (cont I fs items k)
  | [], k, _, _, hk => by rw [cont]; exact hk
  | item :: items, k, hm, hF, hk => by
    have happ : ownedByOptionals (item :: items) = ownedByOptionals [item] ++ ownedByOptionals items :=
      owned_append [item] items
    rw [happ, filtersAt_append] at hF
    rw [cont]
    exact contItem_zeroOn he item (fun v hv => hm v (.inl hv)) (fun f hf => hF f (List.mem_append_left _ hf))
      (cont_zeroOn he items (fun v hv => hm v (.inr hv)) (fun f hf => hF f (List.mem_append_right _ hf)) hk)

end

end Continuations

/-! ## What a collected pattern mentions -/

section Collected
variable {converts : Expression → Bool} {P : GraphPattern} {scope : Scope} {n : Nat} {bound : Bound} {items : List Item}
  {filters free : List Filter} {v : Variable}

theorem unionBranches_mentions {branches : List (List PatternItem)} (h : unionBranches P scope = some (bound, branches))
    {branch : List PatternItem} (hb : branch ∈ branches) {p : PatternItem} (hp : p ∈ branch) (hv : p.Mentions v) :
    Mentions P v ∨ scope = .var v := by
  induction P generalizing scope bound branches with
  | union left right ihl ihr =>
    simp only [unionBranches, Option.bind_eq_bind, Option.bind_eq_some_iff, Option.pure_def, Option.some.injEq,
      Prod.mk.injEq] at h
    obtain ⟨⟨a, xs⟩, hl, ⟨b, ys⟩, hr, -, rfl⟩ := h
    rcases List.mem_append.1 hb with hb | hb
    · exact (ihl hl hb).imp_left .inl
    · exact (ihr hr hb).imp_left .inr
  | graph name inner ih =>
    rw [unionBranches] at h
    split at h
    · left
      rcases ih h hb with hm | hm
      · exact .inr hm
      · left
        cases name with
        | namedNode g => cases hm
        | var w => cases hm; rfl
    · cases h
  | bgp patterns =>
    simp only [unionBranches] at h
    split at h
    · cases h
    · cases h
      obtain rfl := List.mem_singleton.1 hb
      obtain ⟨t', ht', rfl⟩ := List.mem_map.1 hp
      obtain ⟨t, ht, rfl⟩ := List.mem_map.1 ht'
      rcases hv with hv | hv
      · exact .inl ⟨t, ht, (mentions_withoutBlankNodes t v).1 hv⟩
      · exact .inr hv
  | _ => simp [unionBranches] at h

/-- The items mention what the pattern does, and the graph variable of their block. -/
theorem Collected.mentions (h : Collected converts P scope n bound items filters free) (hv : ItemsMention items v) :
    Mentions P v ∨ scope = .var v := by
  induction h with
  | bgp h =>
    obtain ⟨rfl, -, -⟩ := collectBgp_spec h
    obtain ⟨item, hi, hv⟩ := itemsMention_iff.1 hv
    obtain ⟨t, ht, rfl⟩ := List.mem_map.1 hi
    rcases hv with hv | hv
    · exact .inl ⟨t, ht, (mentions_withoutBlankNodes t v).1 hv⟩
    · exact .inr hv
  | project h _ ih => exact ih hv
  | filter h hn ih => exact (ih hv).imp_left .inl
  | @graph name _ _ _ _ _ _ h ih =>
    left
    rcases ih hv with hv | hv
    · exact .inr hv
    · left
      cases name with
      | namedNode g => cases hv
      | var w => cases hv; rfl
  | join hl hr ihl ihr =>
    rcases itemsMention_append.1 hv with hv | hv
    · exact (ihl hv).imp_left .inl
    · exact (ihr hv).imp_left .inr
  | minus hl hr ihl ihr =>
    rcases itemsMention_append.1 hv with hv | hv
    · exact (ihl hv).imp_left .inl
    · exact (ihr (hv.resolve_right id)).imp_left .inr
  | leftJoin hl hr hc ihl ihr =>
    rcases itemsMention_append.1 hv with hv | hv
    · exact (ihl hv).imp_left .inl
    · exact (ihr (hv.resolve_right id)).imp_left fun h => .inr (.inl h)
  | closure h =>
    obtain ⟨hs, ho, -, -, hsc, -⟩ := closureItem_spec h
    rcases hv.resolve_right id with hv | hv | hv
    · rw [hs, mentions_renameBlank] at hv
      exact .inl (.inl hv)
    · rw [ho, mentions_renameBlank] at hv
      exact .inl (.inr hv)
    · exact .inr (hsc ▸ hv)
  | alternatives h =>
    obtain ⟨-, -, -, hb⟩ := pathAlternatives_spec h
    obtain ⟨branch, hbr, p, hp, hv⟩ := hv.resolve_right id
    obtain ⟨q, rfl⟩ := hb branch hbr
    obtain rfl := List.mem_singleton.1 hp
    rcases hv with (hv | hv | hv) | hv
    · exact .inl (.inl ((mentions_renameBlank _ v).1 hv))
    · exact hv.elim
    · exact .inl (.inr ((mentions_renameBlank _ v).1 hv))
    · exact .inr hv
  | union h =>
    obtain ⟨branch, hb, p, hp, hv⟩ := hv.resolve_right id
    exact unionBranches_mentions h hb hp hv
  | values => exact .inl (hv.resolve_right id)

theorem conditionOf_mem {outer inner : Bound} {expression : Option Expression} {condition : List Filter}
    (h : conditionOf converts outer inner expression = some condition) {f : Filter} (hf : f ∈ condition) :
    ∃ e ∈ expression, f.expression ∈ flattenConjunction e ∧ f.Inspected ∧
      ∀ v ∈ f.needs, v ∈ inner.certain ∨ v ∈ outer.certain := by
  cases expression with
  | none =>
    cases h
    cases hf
  | some e =>
    obtain ⟨hm, hi, hn⟩ := filtersOf_mem h hf
    exact ⟨e, rfl, hm, hi, fun v hv => by simpa using hn v hv⟩

theorem reads_of_mem {e : Expression} {f : Filter} (hm : f.expression ∈ flattenConjunction e) (hi : f.Inspected)
    (hv : v ∈ f.needs) : Reads e v :=
  ⟨f.expression, hm, f.needs, hi.needs, hv⟩

/-- Every filter is read off an expression of the pattern. -/
theorem Collected.inspected (h : Collected converts P scope n bound items filters free) {f : Filter} (hf : f ∈ filters) :
    f.Inspected ∧ ∀ v ∈ f.needs, Mentions P v := by
  induction h with
  | project h hv ih => exact ih hf
  | graph h ih => exact ⟨(ih hf).1, fun v hv => .inr ((ih hf).2 v hv)⟩
  | join hl hr ihl ihr =>
    rcases List.mem_append.1 hf with hf | hf
    · exact ⟨(ihl hf).1, fun v hv => .inl ((ihl hf).2 v hv)⟩
    · exact ⟨(ihr hf).1, fun v hv => .inr ((ihr hf).2 v hv)⟩
  | minus hl hr ihl ihr =>
    rcases List.mem_append.1 hf with hf | hf
    · exact ⟨(ihl hf).1, fun v hv => .inl ((ihl hf).2 v hv)⟩
    · exact ⟨(ihr hf).1, fun v hv => .inr ((ihr hf).2 v hv)⟩
  | filter h hn ih =>
    rcases List.mem_append.1 hf with hf | hf
    · exact ⟨(ih hf).1, fun v hv => .inl ((ih hf).2 v hv)⟩
    · obtain ⟨hm, hi, -⟩ := filtersOf_mem hn hf
      exact ⟨hi, fun v hv => .inr (reads_of_mem hm hi hv)⟩
  | leftJoin hl hr hc ihl ihr =>
    rcases List.mem_append.1 hf with hf | hf
    · exact ⟨(ihl hf).1, fun v hv => .inl ((ihl hf).2 v hv)⟩
    · rcases List.mem_append.1 hf with hf | hf
      · exact ⟨(ihr hf).1, fun v hv => .inr (.inl ((ihr hf).2 v hv))⟩
      · obtain ⟨e, he, hm, hi, -⟩ := conditionOf_mem hc hf
        exact ⟨hi, fun v hv => .inr (.inr ⟨e, he, reads_of_mem hm hi hv⟩)⟩
  | _ => cases hf

/-- A free filter reads what the items make certain. -/
theorem Collected.free_certain (h : Collected converts P scope n bound items filters free) {f : Filter} (hf : f ∈ free) :
    f ∈ filters ∧ ∀ v ∈ f.needs, CertainIn items v := by
  induction h with
  | project h hv ih => exact ih hf
  | graph h ih => exact ih hf
  | join hl hr ihl ihr =>
    rcases List.mem_append.1 hf with hf | hf
    · exact ⟨List.mem_append_left _ (ihl hf).1, fun v hv => certainIn_append.2 (.inl ((ihl hf).2 v hv))⟩
    · exact ⟨List.mem_append_right _ (ihr hf).1, fun v hv => certainIn_append.2 (.inr ((ihr hf).2 v hv))⟩
  | minus hl hr ihl ihr =>
    exact ⟨List.mem_append_left _ (ihl hf).1, fun v hv => certainIn_append.2 (.inl ((ihl hf).2 v hv))⟩
  | leftJoin hl hr hc ihl ihr =>
    exact ⟨List.mem_append_left _ (ihl hf).1, fun v hv => certainIn_append.2 (.inl ((ihl hf).2 v hv))⟩
  | filter h hn ih =>
    rcases List.mem_append.1 hf with hf | hf
    · exact ⟨List.mem_append_left _ (ih hf).1, (ih hf).2⟩
    · obtain ⟨-, -, hadm⟩ := filtersOf_mem hn hf
      exact ⟨List.mem_append_right _ hf, fun v hv => h.certain (by simpa using hadm v hv)⟩
  | _ => cases hf

/-! ## What its solutions bind -/

variable {I : Interpretation} {G : Option TermId} {μ : Solution}

theorem usablePattern_eq (t : TriplePattern) :
    usablePattern t = (Interpretation.plainTerm t.subject && Interpretation.plainTerm t.object) := by
  obtain ⟨s, p, o⟩ := t
  cases s <;> cases o <;> rfl

theorem eval_bgp {patterns : List TriplePattern} (h : ∀ t ∈ patterns, usablePattern t = true) :
    I.eval G (.bgp patterns) = Mapping.joinAll (patterns.map (I.tripleSolutions G)) := by
  rw [Interpretation.eval, if_pos]
  simpa only [List.all_eq_true, ← usablePattern_eq] using h

theorem plain_of_simple {t : TermPattern} (h : simpleTerm (renameBlank t) = true) : Interpretation.plainTerm t = true := by
  cases t <;> first | rfl | cases h

theorem eval_path {subject object : TermPattern} (hs : simpleTerm (renameBlank subject) = true)
    (ho : simpleTerm (renameBlank object) = true) (path : PropertyPathExpression) :
    I.eval G (.path subject path object) = I.pathSolutions G subject object path := by
  rw [Interpretation.eval, plain_of_simple hs, plain_of_simple ho]
  rfl

theorem pathSolutions_closure {subject object : TermPattern} {path : PropertyPathExpression} {c : ClosureItem}
    (h : closureItem path subject object scope = some c) :
    I.pathSolutions G subject object path = I.closureSolutions G subject path object := by
  simp only [closureItem, Option.bind_eq_bind, Option.bind_eq_some_iff] at h
  obtain ⟨x, hx, -⟩ := h
  cases path <;> first | cases hx; done | rw [Interpretation.pathSolutions]

theorem keys_joinAll_triples {patterns : List TriplePattern}
    (h : μ ∈ Mapping.joinAll (patterns.map (I.tripleSolutions G))) (v : Variable) :
    v ∈ μ.keys ↔ ∃ t ∈ patterns, t.Mentions v := by
  induction patterns generalizing μ v with
  | nil => rw [Multiset.mem_singleton.1 h]; simp
  | cons t patterns ih =>
    rw [keys_join (fun _ hν => Interpretation.keys_tripleSolutions hν) (fun _ hν => ih hν) h v, List.exists_mem_cons_iff]

theorem keys_alternatives {subject object : TermPattern} {path : PropertyPathExpression} {branches : List (List PatternItem)}
    (h : pathAlternatives path subject object scope = some branches) (hμ : μ ∈ I.pathSolutions G subject object path)
    (v : Variable) : v ∈ μ.keys ↔ subject.Mentions v ∨ object.Mentions v := by
  induction path generalizing branches with
  | namedNode p =>
    rw [Interpretation.keys_tripleSolutions hμ v]
    simp [TriplePattern.Mentions, NamedNodePattern.Mentions]
  | alternative a b iha ihb =>
    simp only [pathAlternatives, Option.bind_eq_bind, Option.bind_eq_some_iff] at h
    obtain ⟨xs, hx, ys, hy, -⟩ := h
    rcases Multiset.mem_add.1 hμ with hμ | hμ
    · exact iha hx hμ
    · exact ihb hy hμ
  | _ => simp [pathAlternatives] at h

theorem unionBranches_keys {branches : List (List PatternItem)} (h : unionBranches P scope = some (bound, branches))
    (hμ : μ ∈ I.eval G P) :
    (∀ v ∈ μ.keys, Mentions P v) ∧ ∀ v ∈ bound.certain, scope ≠ .var v → v ∈ μ.keys := by
  induction P generalizing scope bound branches G μ with
  | union left right ihl ihr =>
    simp only [unionBranches, Option.bind_eq_bind, Option.bind_eq_some_iff, Option.pure_def, Option.some.injEq,
      Prod.mk.injEq] at h
    obtain ⟨⟨a, xs⟩, hl, ⟨b, ys⟩, hr, rfl, rfl⟩ := h
    rw [Interpretation.eval] at hμ
    rcases Multiset.mem_add.1 hμ with hμ | hμ
    · obtain ⟨h1, h2⟩ := ihl hl hμ
      exact ⟨fun v hv => .inl (h1 v hv), fun v hv hs => h2 v (mem_alternated hv).1 hs⟩
    · obtain ⟨h1, h2⟩ := ihr hr hμ
      exact ⟨fun v hv => .inr (h1 v hv), fun v hv hs => h2 v (mem_alternated hv).2 hs⟩
  | graph name inner ih =>
    rw [unionBranches] at h
    split at h
    · cases name with
      | namedNode g =>
        rw [Interpretation.eval] at hμ
        split at hμ
        · obtain ⟨h1, h2⟩ := ih h hμ
          exact ⟨fun v hv => .inr (h1 v hv), fun v hv _ => h2 v hv (by simp [innerScope])⟩
        · exact absurd hμ (Multiset.notMem_zero μ)
      | var w =>
        rw [Interpretation.eval] at hμ
        obtain ⟨n, -, hn⟩ := Multiset.mem_bind.1 hμ
        obtain ⟨ρ, hρ, -, rfl⟩ := Mapping.mem_extend.1 hn
        obtain ⟨h1, h2⟩ := ih h hρ
        refine ⟨fun v hv => ?_, fun v hv _ => ?_⟩
        · rcases Mapping.mem_keys_union.1 hv with hv | hv
          · exact .inl (mem_keys_singleton.1 hv)
          · exact .inr (h1 v hv)
        · by_cases hw : w = v
          · exact Mapping.mem_keys_union.2 (.inl (mem_keys_singleton.2 hw))
          · exact Mapping.mem_keys_union.2 (.inr (h2 v hv (by simpa [innerScope] using hw)))
    · cases h
  | bgp patterns =>
    have hspec := unionBranches_spec h
    simp only [unionBranches] at h
    split at h
    · cases h
    · rename_i hu
      simp only [Bool.or_eq_true, Bool.not_eq_true', not_or, Bool.not_eq_true, Bool.not_eq_false, List.all_eq_true] at hu
      cases h
      rw [eval_bgp hu.2] at hμ
      refine ⟨fun v hv => (keys_joinAll_triples hμ v).1 hv, fun v hv hs => ?_⟩
      obtain ⟨p, hp, hm⟩ := (hspec _ (List.mem_singleton.2 rfl)).2.2 v hv
      obtain ⟨t', ht', rfl⟩ := List.mem_map.1 hp
      obtain ⟨t, ht, rfl⟩ := List.mem_map.1 ht'
      rcases hm with hm | hm
      · exact (keys_joinAll_triples hμ v).2 ⟨t, ht, (mentions_withoutBlankNodes t v).1 hm⟩
      · exact absurd hm hs
  | _ => simp [unionBranches] at h

/-- What a solution binds is mentioned, and what the planner calls certain is bound, but for
the graph variable of the block it is in. -/
theorem Collected.keys (h : Collected converts P scope n bound items filters free) (hμ : μ ∈ I.eval G P) :
    (∀ v ∈ μ.keys, Mentions P v) ∧ ∀ v ∈ bound.certain, scope ≠ .var v → v ∈ μ.keys := by
  induction h generalizing G μ with
  | bgp h =>
    obtain ⟨-, hu, hmem⟩ := collectBgp_spec h
    rw [eval_bgp hu] at hμ
    refine ⟨fun v hv => (keys_joinAll_triples hμ v).1 hv, fun v hv hs => ?_⟩
    obtain ⟨t, ht, hm⟩ := ((hmem v).1 hv).resolve_left (by simp)
    exact (keys_joinAll_triples hμ v).2 ⟨t, ht, hm.resolve_right hs⟩
  | project h hvars ih =>
    rw [Interpretation.eval] at hμ
    obtain ⟨ρ, hρ, rfl⟩ := Multiset.mem_map.1 hμ
    obtain ⟨h1, h2⟩ := ih hρ
    exact ⟨fun v hv => h1 v (Mapping.mem_keys_restrict.1 hv).2,
      fun v hv hs => Mapping.mem_keys_restrict.2 ⟨hvars v (h.possible v hv), h2 v hv hs⟩⟩
  | @graph name _ _ _ _ _ _ h ih =>
    cases name with
    | namedNode g =>
      rw [Interpretation.eval] at hμ
      split at hμ
      · obtain ⟨h1, h2⟩ := ih hμ
        exact ⟨fun v hv => .inr (h1 v hv), fun v hv _ => h2 v hv (by simp [innerScope])⟩
      · exact absurd hμ (Multiset.notMem_zero μ)
    | var w =>
      rw [Interpretation.eval] at hμ
      obtain ⟨n, -, hn⟩ := Multiset.mem_bind.1 hμ
      obtain ⟨ρ, hρ, -, rfl⟩ := Mapping.mem_extend.1 hn
      obtain ⟨h1, h2⟩ := ih hρ
      refine ⟨fun v hv => ?_, fun v hv _ => ?_⟩
      · rcases Mapping.mem_keys_union.1 hv with hv | hv
        · exact .inl (mem_keys_singleton.1 hv)
        · exact .inr (h1 v hv)
      · by_cases hw : w = v
        · exact Mapping.mem_keys_union.2 (.inl (mem_keys_singleton.2 hw))
        · exact Mapping.mem_keys_union.2 (.inr (h2 v hv (by simpa [innerScope] using hw)))
  | join hl hr ihl ihr =>
    rw [Interpretation.eval] at hμ
    obtain ⟨ν, hν, ρ, hρ, -, rfl⟩ := Mapping.mem_join.1 hμ
    obtain ⟨l1, l2⟩ := ihl hν
    obtain ⟨r1, r2⟩ := ihr hρ
    refine ⟨fun v hv => (Mapping.mem_keys_union.1 hv).imp (l1 v) (r1 v), fun v hv hs => ?_⟩
    rw [Mapping.mem_keys_union]
    exact (mem_foldl_pushNew.1 hv).imp (l2 v · hs) (r2 v · hs)
  | minus hl hr ihl ihr =>
    classical
    rw [Interpretation.eval] at hμ
    obtain ⟨l1, l2⟩ := ihl (Multiset.mem_of_mem_filter hμ)
    exact ⟨fun v hv => .inl (l1 v hv), l2⟩
  | leftJoin hl hr hc ihl ihr =>
    rw [Interpretation.eval] at hμ
    obtain ⟨ν, hν, hμ⟩ := Multiset.mem_bind.1 hμ
    obtain ⟨l1, l2⟩ := ihl hν
    unfold Interpretation.optionally at hμ
    split at hμ
    · rw [Multiset.mem_singleton.1 hμ]
      exact ⟨fun v hv => .inl (l1 v hv), l2⟩
    · obtain ⟨ρ, hρ, -, rfl⟩ := Mapping.mem_extend.1 (Multiset.mem_of_mem_filter hμ)
      refine ⟨fun v hv => ?_, fun v hv hs => Mapping.mem_keys_union.2 (.inl (l2 v hv hs))⟩
      rcases Mapping.mem_keys_union.1 hv with hv | hv
      · exact .inl (l1 v hv)
      · exact .inr (.inl ((ihr hρ).1 v hv))
  | filter h hn ih =>
    rw [Interpretation.eval] at hμ
    obtain ⟨h1, h2⟩ := ih (Multiset.mem_of_mem_filter hμ)
    exact ⟨fun v hv => .inl (h1 v hv), h2⟩
  | closure h =>
    obtain ⟨hs, ho, hs', ho', -, -⟩ := closureItem_spec h
    rw [eval_path (hs ▸ hs') (ho ▸ ho'), pathSolutions_closure h] at hμ
    refine ⟨fun v hv => (Interpretation.keys_closureSolutions hμ v).1 hv, fun v hv _ => ?_⟩
    rw [Interpretation.keys_closureSolutions hμ v]
    rw [mem_pushTerm ho', mem_pushTerm hs', hs, ho, mentions_renameBlank, mentions_renameBlank] at hv
    simpa using hv
  | alternatives h =>
    obtain ⟨hs, ho, -, hb⟩ := pathAlternatives_spec h
    rw [eval_path hs ho] at hμ
    refine ⟨fun v hv => (keys_alternatives h hμ v).1 hv, fun v hv _ => (keys_alternatives h hμ v).2 ?_⟩
    simpa only [mentions_renameBlank] using pathBound_certain hs ho hb hv
  | union h => exact unionBranches_keys h hμ
  | values =>
    rw [Interpretation.eval] at hμ
    obtain ⟨row, hrow, hμ⟩ := Multiset.mem_bind.1 hμ
    refine ⟨fun v hv => ?_, fun v hv _ => (Interpretation.keys_rowSolutions hμ v).2 (valuesCertain_spec hv row hrow)⟩
    obtain ⟨term, ht⟩ := (Interpretation.keys_rowSolutions hμ v).1 hv
    exact (List.of_mem_zip ht).1

/-! ## Readiness -/

mutual

/-- Optionals without filters of their own do not look at the plan's list of them. -/
theorem readyItem_unowned {fs fs' : List Filter} : ∀ (item : Item) (D : Set Variable), ownedByOptionals [item] = [] →
    ReadyItem fs item D → ReadyItem fs' item D
  | .optional mode items indices fresh, D, h, hr => by
    rw [owned_optional, List.append_eq_nil_iff] at h
    obtain ⟨rfl, h⟩ := h
    exact ⟨fun f hf => absurd hf (by simp [filtersAt]), readyList_unowned items _ h hr.2⟩
  | .pattern _, _, _, _ => trivial
  | .union _, _, _, _ => trivial
  | .values _, _, _, _ => trivial
  | .closure _, _, _, _ => trivial

theorem readyList_unowned {fs fs' : List Filter} : ∀ (items : List Item) (D : Set Variable), ownedByOptionals items = [] →
    ReadyList fs items D → ReadyList fs' items D
  | [], _, _, _ => trivial
  | item :: items, D, h, hr => by
    have happ : ownedByOptionals (item :: items) = ownedByOptionals [item] ++ ownedByOptionals items :=
      owned_append [item] items
    rw [happ, List.append_eq_nil_iff] at h
    exact ⟨readyItem_unowned item D h.1 hr.1, readyList_unowned items D h.2 hr.2⟩

end

theorem certain_left (D : Set Variable) (items items' : List Item) :
    D ∪ {v | CertainIn items v} ⊆ D ∪ {v | CertainIn (items ++ items') v} :=
  Set.union_subset_union_right D fun _ hv => certainIn_append.2 (.inl hv)

theorem certain_right (D : Set Variable) (items items' : List Item) :
    D ∪ {v | CertainIn items' v} ⊆ D ∪ {v | CertainIn (items ++ items') v} :=
  Set.union_subset_union_right D fun _ hv => certainIn_append.2 (.inr hv)

theorem readyList_bgp (fs : List Filter) (patterns : List TriplePattern) (D : Set Variable) :
    ReadyList fs (patterns.map (fun t => .pattern ⟨withoutBlankNodes t, scope⟩)) D := by
  induction patterns with
  | nil => trivial
  | cons t patterns ih => exact ⟨trivial, ih⟩

/-- The filters of a collected pattern find their variables bound, whatever is bound before. -/
theorem Collected.ready (h : Collected converts P scope n bound items filters free) (hs : straight n P = true)
    {fs : List Filter} (hat : At fs n filters) (D : Set Variable) : ReadyList fs items (D ∪ {v | CertainIn items v}) := by
  induction h generalizing fs D with
  | bgp h =>
    obtain ⟨rfl, -, -⟩ := collectBgp_spec h
    exact readyList_bgp fs _ _
  | @project inner vars scope n bound items filters free h hv ih =>
    simp only [straight] at hs
    split at hs
    · rename_i hn
      subst hn
      exact ih hs hat D
    · have ho : ownsFilters inner = false := by simpa using hs
      exact readyList_unowned items _ (owned_nil h ho).1 (ih (straight_of_not_owns ho 0) (At.self filters) D)
  | graph h ih => exact ih hs hat D
  | filter h hn ih => exact ih hs hat.left D
  | join hl hr ihl ihr =>
    simp only [straight, Bool.and_eq_true, ← hl.length] at hs
    exact readyList_append.2 ⟨(ihl hs.1 hat.left D).mono fs (certain_left D _ _),
      (ihr hs.2 hat.right D).mono fs (certain_right D _ _)⟩
  | @minus left right scope n outer inner items items' filters filters' free free' fresh hl hr ihl ihr =>
    simp only [straight, Bool.and_eq_true, Bool.not_eq_true'] at hs
    obtain ⟨ho, rfl⟩ := owned_nil hr hs.2
    refine readyList_append.2 ⟨(ihl hs.1 hat.left D).mono fs (certain_left D _ _), ⟨fun f hf v hv => ?_, ?_⟩, trivial⟩
    · rw [filtersAt_range hat.right] at hf
      exact .inr ((hr.free_certain hf).2 v hv)
    · exact readyList_unowned items' _ ho (ihr (straight_of_not_owns hs.2 0) (At.self free') _)
  | @leftJoin left right expression scope n outer inner items items' filters filters' free free' condition fresh hl hr hc ihl ihr =>
    simp only [straight, Bool.and_eq_true, Bool.not_eq_true'] at hs
    obtain ⟨ho, rfl⟩ := owned_nil hr hs.2
    refine readyList_append.2 ⟨(ihl hs.1 hat.left D).mono fs (certain_left D _ _), ⟨fun f hf v hv => ?_, ?_⟩, trivial⟩
    · rw [filtersAt_range hat.right] at hf
      rcases List.mem_append.1 hf with hf | hf
      · exact .inr ((hr.free_certain hf).2 v hv)
      · obtain ⟨e, -, -, -, hneeds⟩ := conditionOf_mem hc hf
        rcases hneeds v hv with h | h
        · exact .inr (hr.certain h)
        · exact .inl (.inr (certainIn_append.2 (.inl (hl.certain h))))
    · exact readyList_unowned items' _ ho (ihr (straight_of_not_owns hs.2 0) (At.self free') _)
  | _ => exact ⟨trivial, trivial⟩

end Collected

end Holos.Engine.Bindjoin
