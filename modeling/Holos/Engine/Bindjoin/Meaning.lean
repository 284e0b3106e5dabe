import Holos.Engine.Bindjoin.Trace
import Holos.Sparql.Semantics
/-!
# The meaning of a plan

What a list of items denotes, given the bindings made so far. The required items are a join;
an optional is a step from one solution to several, and `cont` runs the optionals of a list
one after another, each with what comes after it as its continuation, as the nested loop
does. `meaning` is both together: the rows a correct evaluation completes.
-/

namespace Holos.Engine.Bindjoin

open Sparql Lib

/-! ## Items -/

section Items
variable (I : Interpretation)

/-- How the graph position of a pattern matches a graph name. -/
def scopeSolutions : Scope → Option TermId → Multiset Solution
  | .default, none => {∅}
  | .named g, some n => if I.intern (.namedNode g) = n then {∅} else 0
  | .var v, some n => {Finmap.singleton v n}
  | _, _ => 0

def patternSolutions (p : PatternItem) : Multiset Solution :=
  I.quads.val.bind (fun q => Mapping.join (scopeSolutions I p.scope q.graphName) (I.quadSolutions p.triple q))

/-- The path under a closure item. -/
def ClosureItem.edge (c : ClosureItem) : PropertyPathExpression :=
  if c.inverse then .reverse (.namedNode c.predicate) else .namedNode c.predicate

/-- The path a closure item came from. -/
def ClosureItem.path (c : ClosureItem) : PropertyPathExpression :=
  match c.hops with
  | .zeroOrMore => .zeroOrMore c.edge
  | .oneOrMore => .oneOrMore c.edge
  | .zeroOrOne => .zeroOrOne c.edge

/-- A closure in each graph its scope admits. -/
noncomputable def closureItemSolutions (c : ClosureItem) : Multiset Solution :=
  match c.scope with
  | .default => I.closureSolutions none c.subject c.path c.object
  | .named g =>
    if I.intern (.namedNode g) ∈ I.graphs then
      I.closureSolutions (some (I.intern (.namedNode g))) c.subject c.path c.object
    else 0
  | .var v =>
    I.graphs.val.bind (fun n =>
      Mapping.extend (Finmap.singleton v n) (I.closureSolutions (some n) c.subject c.path c.object))

/-- The solutions of one item by itself. An optional asks for nothing. -/
noncomputable def itemSolutions : Item → Multiset Solution
  | .pattern p => patternSolutions I p
  | .union branches => (branches : Multiset (List PatternItem)).bind (fun branch => Mapping.joinAll (branch.map (patternSolutions I)))
  | .values v => (v.rows : Multiset _).bind (fun row => I.rowSolutions (v.vars.zip row))
  | .closure c => closureItemSolutions I c
  | .optional _ _ _ _ => {∅}

/-- The join of the required items. -/
noncomputable def required (items : List Item) : Multiset Solution := Mapping.joinAll (items.map (itemSolutions I))

/-- The filters at some positions of a plan's list. -/
def filtersAt (fs : List Filter) (indices : List Nat) : List Filter := indices.filterMap (fs[·]?)

def passes (F : List Filter) (μ : Solution) : Bool := F.all (fun f => I.holds f.expression μ)

/-- The solutions of the required items that extend `β` and pass the filters. -/
noncomputable def found (F : List Filter) (items : List Item) (β : Solution) : Multiset Solution :=
  (Mapping.extend β (required I items)).filter (fun μ => passes I F μ = true)

end Items

/-! ## Optionals -/

section Cont
variable (I : Interpretation) (fs : List Filter)

mutual

/-- One item, then `k`. A required item has had its turn. -/
noncomputable def contItem : Item → (Solution → Multiset Solution) → Solution → Multiset Solution
  | .optional .extend items filters _, k, μ =>
    let inner := (found I (filtersAt fs filters) items μ).bind (cont items k)
    if inner = 0 then k μ else inner
  | .optional .remove items filters _, k, μ =>
    if (found I (filtersAt fs filters) items μ).bind (cont items (fun ν => {ν})) = 0 then k μ else 0
  | .pattern _, k, μ => k μ
  | .union _, k, μ => k μ
  | .values _, k, μ => k μ
  | .closure _, k, μ => k μ

/-- The optionals of a list in order, then `k`. -/
noncomputable def cont : List Item → (Solution → Multiset Solution) → Solution → Multiset Solution
  | [], k => k
  | item :: items, k => contItem item (cont items k)

end

/-- The rows a list of items comes to under the bindings `β`. -/
noncomputable def meaning (F : List Filter) (items : List Item) (β : Solution) : Multiset Solution :=
  (found I F items β).bind (cont I fs items (fun ν => {ν}))

end Cont

/-! ## Lists of items -/

section Lists
variable {I : Interpretation} {fs : List Filter}

theorem required_nil : required I [] = {∅} := rfl

theorem required_append (items items' : List Item) :
    required I (items ++ items') = Mapping.join (required I items) (required I items') := by
  rw [required, List.map_append, Mapping.joinAll_append]
  rfl

/-- An item can be taken out of its place. -/
theorem required_middle (before : List Item) (item : Item) (after : List Item) :
    required I (before ++ item :: after) = Mapping.join (itemSolutions I item) (required I (before ++ after)) := by
  have hcons : required I (item :: after) = Mapping.join (itemSolutions I item) (required I after) := rfl
  rw [required_append, required_append, hcons, ← Mapping.join_assoc, ← Mapping.join_assoc,
    Mapping.join_comm (required I before)]

theorem required_optionals {items : List Item} (h : ∀ item ∈ items, item.isOptional = true) :
    required I items = {∅} := by
  induction items with
  | nil => rfl
  | cons item items ih =>
    have hcons : required I (item :: items) = Mapping.join (itemSolutions I item) (required I items) := rfl
    rw [hcons, ih fun x hx => h x (List.mem_cons_of_mem _ hx), Mapping.join_unit]
    cases item with
    | optional mode items filters fresh => rfl
    | _ => cases h _ List.mem_cons_self

theorem cont_append (items items' : List Item) (k : Solution → Multiset Solution) :
    cont I fs (items ++ items') k = cont I fs items (cont I fs items' k) := by
  induction items with
  | nil => rfl
  | cons item items ih => rw [List.cons_append, cont, ih, cont]

theorem contItem_required {item : Item} (h : item.isOptional = false) (k : Solution → Multiset Solution) :
    contItem I fs item k = k := by
  cases item with
  | optional mode items filters fresh => cases h
  | _ => funext μ; rw [contItem]

theorem cont_middle (before : List Item) {item : Item} (h : item.isOptional = false) (after : List Item)
    (k : Solution → Multiset Solution) :
    cont I fs (before ++ item :: after) k = cont I fs (before ++ after) k := by
  rw [cont_append, cont_append, cont, contItem_required h]

/-! ## The solutions found -/

theorem extends_of_mem_found {F : List Filter} {items : List Item} {β μ : Solution} (h : μ ∈ found I F items β) :
    Mapping.Extends μ β :=
  Mapping.extends_of_mem_extend (Multiset.mem_of_mem_filter h)

theorem found_eq_zero {F : List Filter} {β : Solution} (h : ∀ μ, Mapping.Extends μ β → passes I F μ = false)
    (items : List Item) : found I F items β = 0 :=
  Multiset.filter_eq_nil.2 fun μ hμ => by rw [h μ (Mapping.extends_of_mem_extend hμ)]; simp

/-- Only what the filters say of extensions of `β` matters. -/
theorem found_congr {F F' : List Filter} {β : Solution} (h : ∀ μ, Mapping.Extends μ β → passes I F μ = passes I F' μ)
    (items : List Item) : found I F items β = found I F' items β :=
  Multiset.filter_congr fun μ hμ => by rw [h μ (Mapping.extends_of_mem_extend hμ)]

theorem found_nil {F : List Filter} {items : List Item} (h : ∀ item ∈ items, item.isOptional = true) (β : Solution)
    (hF : F = []) : found I F items β = {β} := by
  subst hF
  rw [found, required_optionals h, Mapping.extend_singleton, if_pos (Mapping.compat_comm.1 (Mapping.compat_empty β)),
    Finmap.union_empty]
  exact Multiset.filter_eq_self.2 fun _ _ => rfl

/-- One item first, then the others under each of its solutions. -/
theorem found_middle (F : List Filter) (before : List Item) (item : Item) (after : List Item) (β : Solution) :
    found I F (before ++ item :: after) β =
      (Mapping.extend β (itemSolutions I item)).bind (fun β => found I F (before ++ after) β) := by
  rw [found, required_middle, Mapping.extend_join, Mapping.join, Multiset.filter_bind]
  rfl

theorem meaning_middle (F : List Filter) (before : List Item) {item : Item} (h : item.isOptional = false)
    (after : List Item) (β : Solution) :
    meaning I fs F (before ++ item :: after) β =
      (Mapping.extend β (itemSolutions I item)).bind (fun β => meaning I fs F (before ++ after) β) := by
  rw [meaning, found_middle, cont_middle before h, Multiset.bind_assoc]
  rfl

theorem meaning_eq_zero {F : List Filter} {β : Solution} (h : ∀ μ, Mapping.Extends μ β → passes I F μ = false)
    (items : List Item) : meaning I fs F items β = 0 := by
  rw [meaning, found_eq_zero h, Multiset.zero_bind]

theorem meaning_congr {F F' : List Filter} {β : Solution}
    (h : ∀ μ, Mapping.Extends μ β → passes I F μ = passes I F' μ) (items : List Item) :
    meaning I fs F items β = meaning I fs F' items β := by
  rw [meaning, meaning, found_congr h]

end Lists

/-! ## The variables of an item -/

def PatternItem.Mentions (p : PatternItem) (v : Variable) : Prop := p.triple.Mentions v ∨ p.scope = .var v

/-- Every solution of the item binds the variable. -/
def Certain : Item → Variable → Prop
  | .pattern p, v => p.Mentions v
  | .union branches, v => ∀ branch ∈ branches, ∃ p ∈ branch, p.Mentions v
  | .values vs, v => ∀ row ∈ vs.rows, ∃ term, (v, some term) ∈ vs.vars.zip row
  | .closure c, v => c.subject.Mentions v ∨ c.object.Mentions v
  | .optional _ _ _ _, _ => False

def CertainIn (items : List Item) (v : Variable) : Prop := ∃ item ∈ items, Certain item v

section Variables
variable {I : Interpretation}

theorem keys_scopeSolutions {scope : Scope} {g : Option TermId} {μ : Solution} (h : μ ∈ scopeSolutions I scope g)
    (v : Variable) : v ∈ μ.keys ↔ scope = .var v := by
  cases scope with
  | default =>
    cases g with
    | none => rw [Multiset.mem_singleton.1 h]; simp
    | some n => exact absurd h (Multiset.notMem_zero μ)
  | named w =>
    cases g with
    | none => exact absurd h (Multiset.notMem_zero μ)
    | some n =>
      simp only [scopeSolutions] at h
      split at h
      · rw [Multiset.mem_singleton.1 h]; simp
      · exact absurd h (Multiset.notMem_zero μ)
  | var w =>
    cases g with
    | none => exact absurd h (Multiset.notMem_zero μ)
    | some n => rw [Multiset.mem_singleton.1 h, mem_keys_singleton, Scope.var.injEq]

theorem keys_patternSolutions {p : PatternItem} {μ : Solution} (h : μ ∈ patternSolutions I p) (v : Variable) :
    v ∈ μ.keys ↔ p.Mentions v := by
  obtain ⟨q, -, hq⟩ := Multiset.mem_bind.1 h
  rw [keys_join (fun _ hν => keys_scopeSolutions hν) (fun _ hν => Interpretation.keys_quadSolutions hν) hq v, or_comm]
  rfl

theorem keys_joinAll_patterns {ps : List PatternItem} {μ : Solution}
    (h : μ ∈ Mapping.joinAll (ps.map (patternSolutions I))) (v : Variable) : v ∈ μ.keys ↔ ∃ p ∈ ps, p.Mentions v := by
  induction ps generalizing μ v with
  | nil => rw [Multiset.mem_singleton.1 h]; simp
  | cons p ps ih =>
    rw [keys_join (fun _ hν => keys_patternSolutions hν) (fun _ hν => ih hν) h v, List.exists_mem_cons_iff]

theorem certain_keys {item : Item} {v : Variable} (hc : Certain item v) {μ : Solution} (h : μ ∈ itemSolutions I item) :
    v ∈ μ.keys := by
  cases item with
  | pattern p => exact (keys_patternSolutions h v).2 hc
  | union branches =>
    obtain ⟨branch, hb, hμ⟩ := Multiset.mem_bind.1 h
    exact (keys_joinAll_patterns hμ v).2 (hc branch hb)
  | values vs =>
    obtain ⟨row, hr, hμ⟩ := Multiset.mem_bind.1 h
    exact (Interpretation.keys_rowSolutions hμ v).2 (hc row hr)
  | closure c =>
    simp only [itemSolutions, closureItemSolutions] at h
    split at h
    · exact (Interpretation.keys_closureSolutions h v).2 hc
    · split at h
      · exact (Interpretation.keys_closureSolutions h v).2 hc
      · exact absurd h (Multiset.notMem_zero μ)
    · obtain ⟨n, -, hn⟩ := Multiset.mem_bind.1 h
      obtain ⟨ρ, hρ, -, rfl⟩ := Mapping.mem_extend.1 hn
      exact Mapping.mem_keys_union.2 (.inr ((Interpretation.keys_closureSolutions hρ v).2 hc))
  | optional mode items filters fresh => exact hc.elim

/-- A solution of an item, taken on top of some bindings, has what the item makes certain. -/
theorem certain_extend {item : Item} {v : Variable} (hc : Certain item v) {β β' : Solution}
    (h : β' ∈ Mapping.extend β (itemSolutions I item)) : v ∈ β'.keys := by
  obtain ⟨ρ, hρ, -, rfl⟩ := Mapping.mem_extend.1 h
  exact Mapping.mem_keys_union.2 (.inr (certain_keys hc hρ))

end Variables

end Holos.Engine.Bindjoin
