import Holos.Engine.Bindjoin.Loop
/-!
# What collecting a pattern yields

`Collected` is the shape of a successful `collect`: the items and filters a pattern adds to
the lists, by the operator they come from. `free` are the filters that are not an optional's.
Everything the planner's result is known to satisfy is proved from it by induction.
-/

namespace Holos.Engine.Bindjoin

open Sparql Lib

/-- The filters of an `OPTIONAL`'s condition, which may read both sides. -/
def conditionOf (converts : Expression → Bool) (outer inner : Bound) : Option Expression → Option (List Filter)
  | none => some []
  | some expr => filtersOf converts (fun v => v ∈ inner.certain || v ∈ outer.certain) expr

/-- What `collect` adds for a pattern in a scope, after `n` filters. -/
inductive Collected (converts : Expression → Bool) :
    GraphPattern → Scope → Nat → Bound → List Item → List Filter → List Filter → Prop
  | bgp {patterns scope n certain items} (h : collectBgp scope patterns [] = some (certain, items)) :
    Collected converts (.bgp patterns) scope n ⟨certain, certain⟩ items [] []
  | project {inner vars scope n bound items filters free} (h : Collected converts inner scope 0 bound items filters free)
    (hv : ∀ v ∈ bound.possible, v ∈ vars) :
    Collected converts (.project inner vars) scope n bound items filters free
  | minus {left right scope n outer inner items items' filters filters' free free' fresh}
    (hl : Collected converts left scope n outer items filters free)
    (hr : Collected converts right scope 0 inner items' filters' free') :
    Collected converts (.minus left right) scope n outer
      (items ++ [.optional .remove items' (List.range' (n + filters.length) filters'.length) fresh])
      (filters ++ filters') free
  | closure {subject path object scope n c} (h : closureItem path subject object scope = some c) :
    Collected converts (.path subject path object) scope n
      ⟨pushTerm (pushTerm [] c.subject) c.object, pushTerm (pushTerm [] c.subject) c.object⟩ [.closure c] [] []
  | alternatives {subject path object scope n branches}
    (h : pathAlternatives path subject object scope = some branches) :
    Collected converts (.path subject path object) scope n (pathBound branches) [.union branches] [] []
  | graph {name inner n bound items filters free}
    (h : Collected converts inner (innerScope name) n bound items filters free) :
    Collected converts (.graph name inner) .default n bound items filters free
  | join {left right scope n a b items items' filters filters' free free'}
    (hl : Collected converts left scope n a items filters free)
    (hr : Collected converts right scope (n + filters.length) b items' filters' free') :
    Collected converts (.join left right) scope n (a.joined b) (items ++ items') (filters ++ filters') (free ++ free')
  | filter {expr inner scope n bound items filters free new}
    (h : Collected converts inner scope n bound items filters free)
    (hn : filtersOf converts (· ∈ bound.certain) expr = some new) :
    Collected converts (.filter expr inner) scope n bound items (filters ++ new) (free ++ new)
  | union {left right scope n bound branches} (h : unionBranches (.union left right) scope = some (bound, branches)) :
    Collected converts (.union left right) scope n bound [.union branches] [] []
  | values {vars bindings scope n} :
    Collected converts (.values vars bindings) scope n ⟨valuesCertain vars bindings, vars⟩ [.values ⟨vars, bindings⟩] [] []
  | leftJoin {left right expression scope n outer inner items items' filters filters' free free' condition fresh}
    (hl : Collected converts left scope n outer items filters free)
    (hr : Collected converts right scope 0 inner items' filters' free')
    (hc : conditionOf converts outer inner expression = some condition) :
    Collected converts (.leftJoin left right expression) scope n
      ⟨outer.certain, inner.possible.foldl pushNew outer.possible⟩
      (items ++ [.optional .extend items' (List.range' (n + filters.length) (filters' ++ condition).length) fresh])
      (filters ++ (filters' ++ condition)) free

/-- A successful `collect` appends what `Collected` describes. -/
theorem collect_collected {converts : Expression → Bool} (P : GraphPattern) :
    ∀ {scope : Scope} {items items₁ : List Item} {filters filters₁ : List Filter} {bound : Bound},
      collect converts P scope items filters = some (bound, items₁, filters₁) →
      ∃ new newF free, items₁ = items ++ new ∧ filters₁ = filters ++ newF ∧
        Collected converts P scope filters.length bound new newF free := by
  induction P with
  | bgp patterns =>
    intro scope items items₁ filters filters₁ bound h
    simp only [collect, Option.bind_eq_bind, Option.bind_eq_some_iff, Option.pure_def, Option.some.injEq, Prod.mk.injEq] at h
    obtain ⟨⟨certain, new⟩, hb, rfl, rfl, rfl⟩ := h
    exact ⟨new, [], [], rfl, by simp, .bgp hb⟩
  | path subject path object =>
    intro scope items items₁ filters filters₁ bound h
    simp only [collect] at h
    cases hc : closureItem path subject object scope with
    | some c =>
      rw [hc] at h
      cases h
      exact ⟨[.closure c], [], [], rfl, by simp, .closure hc⟩
    | none =>
      rw [hc] at h
      simp only [Option.bind_eq_bind, Option.bind_eq_some_iff, Option.pure_def, Option.some.injEq, Prod.mk.injEq] at h
      obtain ⟨branches, hb, rfl, rfl, rfl⟩ := h
      exact ⟨[.union branches], [], [], rfl, by simp, .alternatives hb⟩
  | join left right ihl ihr =>
    intro scope items items₁ filters filters₁ bound h
    simp only [collect, Option.bind_eq_bind, Option.bind_eq_some_iff, Option.pure_def, Option.some.injEq, Prod.mk.injEq] at h
    obtain ⟨⟨a, i, f⟩, ha, ⟨b, i', f'⟩, hb, rfl, rfl, rfl⟩ := h
    obtain ⟨new, newF, free, rfl, rfl, hl⟩ := ihl ha
    obtain ⟨new', newF', free', rfl, rfl, hr⟩ := ihr hb
    rw [List.length_append] at hr
    exact ⟨new ++ new', newF ++ newF', free ++ free', by simp, by simp, .join hl hr⟩
  | leftJoin left right expression ihl ihr =>
    intro scope items items₁ filters filters₁ bound h
    simp only [collect, pushOptional, Option.bind_eq_bind, Option.bind_eq_some_iff] at h
    obtain ⟨⟨outer, i, f⟩, ha, ⟨inner, i', f'⟩, hb, h⟩ := h
    obtain ⟨new, newF, free, rfl, rfl, hl⟩ := ihl ha
    obtain ⟨_, _, free', rfl, rfl, hr⟩ := ihr hb
    obtain ⟨condition, hc, h⟩ : ∃ condition, conditionOf converts outer inner expression = some condition ∧
        some (⟨outer.certain, inner.possible.foldl pushNew outer.possible⟩, items ++ new ++ [.optional .extend i'
          (List.range' (filters ++ newF).length (f' ++ condition).length)
          (inner.possible.filter (fun v => !(v ∈ outer.possible)))], filters ++ newF ++ (f' ++ condition)) =
          some (bound, items₁, filters₁) := by
      cases expression with
      | none => exact ⟨[], rfl, h⟩
      | some expr =>
        obtain ⟨condition, hc, h⟩ := Option.bind_eq_some_iff.1 h
        exact ⟨condition, hc, h⟩
    cases h
    refine ⟨_, newF ++ (f' ++ condition), free, List.append_assoc _ _ _, List.append_assoc _ _ _, ?_⟩
    rw [List.length_append]
    exact .leftJoin hl hr hc
  | filter expr inner ih =>
    intro scope items items₁ filters filters₁ bound h
    simp only [collect, Option.bind_eq_bind, Option.bind_eq_some_iff, Option.pure_def, Option.some.injEq, Prod.mk.injEq] at h
    obtain ⟨⟨b, i, f⟩, hb, new, hn, rfl, rfl, rfl⟩ := h
    obtain ⟨items', newF, free, rfl, rfl, hc⟩ := ih hb
    exact ⟨items', newF ++ new, free ++ new, rfl, by simp, .filter hc hn⟩
  | union left right ihl ihr =>
    intro scope items items₁ filters filters₁ bound h
    simp only [collect, Option.bind_eq_bind, Option.bind_eq_some_iff, Option.pure_def, Option.some.injEq, Prod.mk.injEq] at h
    obtain ⟨⟨b, branches⟩, hb, rfl, rfl, rfl⟩ := h
    exact ⟨[.union branches], [], [], rfl, by simp, .union hb⟩
  | graph name inner ih =>
    intro scope items items₁ filters filters₁ bound h
    rw [collect] at h
    split at h
    · cases h
    · rename_i hs
      obtain rfl := not_not.1 hs
      obtain ⟨new, newF, free, hi, hf, hc⟩ := ih h
      exact ⟨new, newF, free, hi, hf, .graph hc⟩
  | minus left right ihl ihr =>
    intro scope items items₁ filters filters₁ bound h
    simp only [collect, pushOptional, Option.bind_eq_bind, Option.bind_eq_some_iff] at h
    obtain ⟨⟨outer, i, f⟩, ha, ⟨inner, i', f'⟩, hb, h⟩ := h
    split at h
    · cases h
    · simp only [Option.pure_def, Option.some.injEq, Prod.mk.injEq] at h
      obtain ⟨rfl, rfl, rfl⟩ := h
      obtain ⟨new, newF, free, rfl, rfl, hl⟩ := ihl ha
      obtain ⟨_, _, free', rfl, rfl, hr⟩ := ihr hb
      refine ⟨_, newF ++ f', free, List.append_assoc _ _ _, List.append_assoc _ _ _, ?_⟩
      rw [List.length_append]
      exact .minus hl hr
  | values vars bindings =>
    intro scope items items₁ filters filters₁ bound h
    rw [collect] at h
    cases h
    exact ⟨[.values ⟨vars, bindings⟩], [], [], rfl, by simp, .values⟩
  | project inner vars ih =>
    intro scope items items₁ filters filters₁ bound h
    simp only [collect, Option.bind_eq_bind, Option.bind_eq_some_iff] at h
    obtain ⟨⟨b, i, f⟩, hb, h⟩ := h
    split at h
    · cases h
    · rename_i hv
      simp only [Option.pure_def, Option.some.injEq, Prod.mk.injEq] at h
      obtain ⟨rfl, rfl, rfl⟩ := h
      obtain ⟨_, _, free, rfl, rfl, hc⟩ := ih hb
      exact ⟨i, f, free, rfl, rfl, .project hc (by simpa using hv)⟩
  | _ =>
    intro scope items items₁ filters filters₁ bound h
    simp [collect] at h

/-! ## The filters of an expression -/

/-- A filter as the planner builds one: its needs and its bounds are read off the expression. -/
structure Filter.Inspected (f : Filter) : Prop where
  needs : inspectExpression f.expression [] = some f.needs
  bounds : f.bounds = Range.comparison f.expression

theorem mapM_forall₂ {α β : Type} {g : α → Option β} {l : List α} {l' : List β} (h : l.mapM g = some l') :
    List.Forall₂ (fun a b => g a = some b) l l' := by
  induction l generalizing l' with
  | nil =>
    simp only [List.mapM_nil, Option.pure_def, Option.some.injEq] at h
    subst h
    exact .nil
  | cons a l ih =>
    simp only [List.mapM_cons, Option.bind_eq_bind, Option.bind_eq_some_iff, Option.pure_def, Option.some.injEq] at h
    obtain ⟨b, hb, bs, hbs, rfl⟩ := h
    exact .cons hb (ih hbs)

theorem filtersOf_spec {converts : Expression → Bool} {admits : Variable → Bool} {expr : Expression} {new : List Filter}
    (h : filtersOf converts admits expr = some new) :
    List.Forall₂ (fun c f => f.expression = c ∧ f.Inspected ∧ ∀ v ∈ f.needs, admits v = true) (flattenConjunction expr) new := by
  refine (mapM_forall₂ h).imp fun c f hf => ?_
  simp only [Option.bind_eq_bind, Option.bind_eq_some_iff] at hf
  obtain ⟨needs, hn, hf⟩ := hf
  split at hf
  · cases hf
  · rename_i hall
    split at hf
    · cases hf
    · cases hf
      exact ⟨rfl, ⟨hn, rfl⟩, by simpa using hall⟩

theorem filtersOf_mem {converts : Expression → Bool} {admits : Variable → Bool} {expr : Expression} {new : List Filter}
    (h : filtersOf converts admits expr = some new) {f : Filter} (hf : f ∈ new) :
    f.expression ∈ flattenConjunction expr ∧ f.Inspected ∧ ∀ v ∈ f.needs, admits v = true := by
  have hall : ∀ {l : List Expression} {l' : List Filter},
      List.Forall₂ (fun c f => f.expression = c ∧ f.Inspected ∧ ∀ v ∈ f.needs, admits v = true) l l' → f ∈ l' →
        f.expression ∈ l ∧ f.Inspected ∧ ∀ v ∈ f.needs, admits v = true := by
    intro l l' hl hm
    induction hl with
    | nil => cases hm
    | cons hcf _ ih =>
      rcases List.mem_cons.1 hm with rfl | hm
      · exact ⟨hcf.1 ▸ List.mem_cons_self, hcf.2⟩
      · exact ⟨List.mem_cons_of_mem _ (ih hm).1, (ih hm).2⟩
  exact hall (filtersOf_spec h) hf

/-! ## Positions -/

/-- How many filters a pattern adds. -/
def filterCount : GraphPattern → Nat
  | .filter expr inner => filterCount inner + (flattenConjunction expr).length
  | .join left right => filterCount left + filterCount right
  | .minus left right => filterCount left + filterCount right
  | .leftJoin left right expression =>
    filterCount left + (filterCount right + expression.elim 0 (fun e => (flattenConjunction e).length))
  | .graph _ inner => filterCount inner
  | .project inner _ => filterCount inner
  | _ => 0

/-- Some `OPTIONAL` or `MINUS` of the pattern has filters. -/
def ownsFilters : GraphPattern → Bool
  | .filter _ inner => ownsFilters inner
  | .join left right => ownsFilters left || ownsFilters right
  | .minus left right => ownsFilters left || ownsFilters right || decide (0 < filterCount right)
  | .leftJoin left right expression =>
    ownsFilters left || ownsFilters right ||
      decide (0 < filterCount right + expression.elim 0 (fun e => (flattenConjunction e).length))
  | .graph _ inner => ownsFilters inner
  | .project inner _ => ownsFilters inner
  | _ => false

/-- The positions an optional is given are those of its own filters: none with filters is
inside another, or in a subquery that other filters precede. -/
def straight : Nat → GraphPattern → Bool
  | n, .filter _ inner => straight n inner
  | n, .join left right => straight n left && straight (n + filterCount left) right
  | n, .minus left right => straight n left && !ownsFilters right
  | n, .leftJoin left right _ => straight n left && !ownsFilters right
  | n, .graph _ inner => straight n inner
  | n, .project inner _ => if n = 0 then straight 0 inner else !ownsFilters inner
  | _, _ => true

section Positions
variable {converts : Expression → Bool} {P : GraphPattern} {scope : Scope} {n : Nat} {bound : Bound} {items : List Item}
  {filters free : List Filter}

theorem filtersOf_length {admits : Variable → Bool} {expr : Expression} {new : List Filter}
    (h : filtersOf converts admits expr = some new) : new.length = (flattenConjunction expr).length :=
  (filtersOf_spec h).length_eq.symm

theorem conditionOf_length {outer inner : Bound} {expression : Option Expression} {condition : List Filter}
    (h : conditionOf converts outer inner expression = some condition) :
    condition.length = expression.elim 0 (fun e => (flattenConjunction e).length) := by
  cases expression with
  | none => cases h; rfl
  | some e => exact filtersOf_length h

theorem Collected.length (h : Collected converts P scope n bound items filters free) : filters.length = filterCount P := by
  induction h with
  | minus hl hr ihl ihr => rw [List.length_append, ihl, ihr, filterCount]
  | join hl hr ihl ihr => rw [List.length_append, ihl, ihr, filterCount]
  | leftJoin hl hr hc ihl ihr => rw [List.length_append, List.length_append, ihl, ihr, conditionOf_length hc, filterCount]
  | filter h hn ih => rw [List.length_append, ih, filtersOf_length hn, filterCount]
  | project h hv ih => rw [ih, filterCount]
  | graph h ih => rw [ih, filterCount]
  | _ => rfl

theorem gatherOptionals_append (items items' : List Item) :
    gatherOptionals (items ++ items') = gatherOptionals items ++ gatherOptionals items' := by
  induction items with
  | nil => rfl
  | cons item items ih => rw [List.cons_append, gatherOptionals, gatherOptionals, ih, List.append_assoc]

theorem owned_append (items items' : List Item) :
    ownedByOptionals (items ++ items') = ownedByOptionals items ++ ownedByOptionals items' := by
  rw [ownedByOptionals, gatherOptionals_append, List.flatMap_append]
  rfl

theorem owned_optional (mode : OnMatch) (items : List Item) (indices : List Nat) (fresh : List Variable) :
    ownedByOptionals [.optional mode items indices fresh] = indices ++ ownedByOptionals items := by
  simp [ownedByOptionals, gatherOptionals, gatherItem]

theorem owned_patterns (item : Item) (h : item.isOptional = false) : ownedByOptionals [item] = [] := by
  cases item with
  | optional mode items indices fresh => cases h
  | _ => rfl

theorem owned_bgp {patterns : List TriplePattern} {certain certain' : List Variable}
    (h : collectBgp scope patterns certain = some (certain', items)) : ownedByOptionals items = [] := by
  induction patterns generalizing certain items with
  | nil => cases h; rfl
  | cons t patterns ih =>
    simp only [collectBgp, Option.bind_eq_bind] at h
    split at h
    · cases h
    · obtain ⟨⟨c, rest⟩, hr, h⟩ := Option.bind_eq_some_iff.1 h
      cases h
      simpa [ownedByOptionals, gatherOptionals, gatherItem] using ih hr

theorem owned_nil (h : Collected converts P scope n bound items filters free) (ho : ownsFilters P = false) :
    ownedByOptionals items = [] ∧ free = filters := by
  induction h with
  | bgp h => exact ⟨owned_bgp h, rfl⟩
  | project h hv ih => exact ih ho
  | graph h ih => exact ih ho
  | filter h hn ih => exact ⟨(ih ho).1, by rw [(ih ho).2]⟩
  | join hl hr ihl ihr =>
    simp only [ownsFilters, Bool.or_eq_false_iff] at ho
    rw [owned_append, (ihl ho.1).1, (ihr ho.2).1, (ihl ho.1).2, (ihr ho.2).2]
    exact ⟨rfl, rfl⟩
  | minus hl hr ihl ihr =>
    simp only [ownsFilters, Bool.or_eq_false_iff, decide_eq_false_iff_not, not_lt, Nat.le_zero] at ho
    have hlen := hr.length.trans ho.2
    rw [List.length_eq_zero_iff] at hlen
    rw [owned_append, owned_optional, (ihl ho.1.1).1, (ihr ho.1.2).1, (ihl ho.1.1).2, hlen]
    simp
  | @leftJoin _ _ _ _ _ _ _ _ _ _ filters' _ _ condition _ hl hr hc ihl ihr =>
    simp only [ownsFilters, Bool.or_eq_false_iff, decide_eq_false_iff_not, not_lt, Nat.le_zero] at ho
    have hlen : (filters' ++ condition).length = 0 := by
      rw [List.length_append, hr.length, conditionOf_length hc]
      exact ho.2
    rw [owned_append, owned_optional, (ihl ho.1.1).1, (ihr ho.1.2).1, (ihl ho.1.1).2, List.length_eq_zero_iff.1 hlen]
    simp
  | _ => exact ⟨rfl, rfl⟩

theorem straight_of_not_owns (ho : ownsFilters P = false) (n : Nat) : straight n P = true := by
  induction P generalizing n with
  | filter e inner ih => exact ih ho n
  | graph name inner ih => exact ih ho n
  | project inner vars ih =>
    simp only [straight]
    split
    · exact ih ho 0
    · simpa [ownsFilters] using ho
  | join left right ihl ihr =>
    simp only [ownsFilters, Bool.or_eq_false_iff] at ho
    simp [straight, ihl ho.1, ihr ho.2]
  | minus left right ihl ihr =>
    simp only [ownsFilters, Bool.or_eq_false_iff] at ho
    simp [straight, ihl ho.1.1, ho.1.2]
  | leftJoin left right e ihl ihr =>
    simp only [ownsFilters, Bool.or_eq_false_iff] at ho
    simp [straight, ihl ho.1.1, ho.1.2]
  | _ => rfl

/-- The optionals' positions lie where the pattern's filters are. -/
theorem owned_range (h : Collected converts P scope n bound items filters free) (hs : straight n P = true) :
    ∀ i ∈ ownedByOptionals items, n ≤ i ∧ i < n + filters.length := by
  induction h with
  | bgp h => rw [owned_bgp h]; simp
  | @project inner vars scope n bound items filters free h hv ih =>
    simp only [straight] at hs
    split at hs
    · rename_i hn
      subst hn
      exact ih hs
    · rw [(owned_nil h (by simpa using hs)).1]
      simp
  | graph h ih => exact ih hs
  | filter h hn ih =>
    intro i hi
    have := ih hs i hi
    rw [List.length_append]
    omega
  | join hl hr ihl ihr =>
    simp only [straight, Bool.and_eq_true, ← hl.length] at hs
    intro i hi
    rw [owned_append] at hi
    rw [List.length_append]
    rcases List.mem_append.1 hi with hi | hi
    · have := ihl hs.1 i hi; omega
    · have := ihr hs.2 i hi; omega
  | minus hl hr ihl ihr =>
    simp only [straight, Bool.and_eq_true, Bool.not_eq_true'] at hs
    intro i hi
    rw [owned_append, owned_optional, (owned_nil hr hs.2).1, List.append_nil] at hi
    rw [List.length_append]
    rcases List.mem_append.1 hi with hi | hi
    · have := ihl hs.1 i hi; omega
    · rw [List.mem_range'_1] at hi; omega
  | leftJoin hl hr hc ihl ihr =>
    simp only [straight, Bool.and_eq_true, Bool.not_eq_true'] at hs
    intro i hi
    rw [owned_append, owned_optional, (owned_nil hr hs.2).1, List.append_nil] at hi
    rw [List.length_append]
    rcases List.mem_append.1 hi with hi | hi
    · have := ihl hs.1 i hi; omega
    · rw [List.mem_range'_1] at hi; omega
  | _ => simp [ownedByOptionals, gatherOptionals, gatherItem]

/-- The list holds `part` from position `n` on. -/
def At (fs : List Filter) (n : Nat) (part : List Filter) : Prop := ∃ pre post, fs = pre ++ part ++ post ∧ pre.length = n

theorem At.left {fs part part' : List Filter} (h : At fs n (part ++ part')) : At fs n part := by
  obtain ⟨pre, post, rfl, hn⟩ := h
  exact ⟨pre, part' ++ post, by simp, hn⟩

theorem At.right {fs part part' : List Filter} (h : At fs n (part ++ part')) : At fs (n + part.length) part' := by
  obtain ⟨pre, post, rfl, rfl⟩ := h
  exact ⟨pre ++ part, post, by simp, by simp⟩

theorem At.self (fs : List Filter) : At fs 0 fs := ⟨[], [], by simp, rfl⟩

theorem filtersAt_append (fs : List Filter) (is js : List Nat) :
    filtersAt fs (is ++ js) = filtersAt fs is ++ filtersAt fs js := List.filterMap_append

theorem filtersAt_range {fs part : List Filter} (h : At fs n part) : filtersAt fs (List.range' n part.length) = part := by
  obtain ⟨pre, post, rfl, rfl⟩ := h
  induction part generalizing pre with
  | nil => rfl
  | cons f part ih =>
    have hf : (pre ++ f :: part ++ post)[pre.length]? = some f := by simp
    have := ih (pre ++ [f])
    simp only [List.length_append, List.length_singleton, List.append_assoc, List.cons_append, List.nil_append] at this
    rw [List.length_cons, List.range'_succ, filtersAt, List.filterMap_cons_some hf, ← filtersAt]
    simp only [List.append_assoc, List.cons_append, this]

/-- Of a range whose last part is owned, what is not owned is in the first. -/
theorem filter_owned {own : List Nat} {n a m : Nat} :
    (List.range' n (a + m)).filter (fun i => !(i ∈ own ++ List.range' (n + a) m)) =
      (List.range' n a).filter (fun i => !(i ∈ own)) := by
  rw [← List.range'_append_1, List.filter_append]
  have hlast : (List.range' (n + a) m).filter (fun i => !(i ∈ own ++ List.range' (n + a) m)) = [] :=
    List.filter_eq_nil_iff.2 fun i hi => by simp only [List.mem_append, hi, or_true, decide_true, Bool.not_true,
      Bool.false_eq_true, not_false_iff]
  rw [hlast, List.append_nil]
  refine List.filter_congr fun i hi => ?_
  rw [List.mem_range'_1] at hi
  have hno : i ∉ List.range' (n + a) m := by rw [List.mem_range'_1]; omega
  simp only [List.mem_append, hno, or_false]

/-- The filters at the positions no optional owns are the free ones. -/
theorem filtersAt_free (h : Collected converts P scope n bound items filters free) (hs : straight n P = true)
    {fs : List Filter} (hat : At fs n filters) :
    filtersAt fs ((List.range' n filters.length).filter (fun i => !(i ∈ ownedByOptionals items))) = free := by
  induction h with
  | bgp h => rfl
  | @project inner vars scope n bound items filters free h hv ih =>
    simp only [straight] at hs
    split at hs
    · rename_i hn
      subst hn
      exact ih hs hat
    · obtain ⟨ho, rfl⟩ := owned_nil h (by simpa using hs)
      simp only [ho, List.not_mem_nil, decide_false, Bool.not_false, List.filter_true]
      exact filtersAt_range hat
  | graph h ih => exact ih hs hat
  | filter h hn ih =>
    rw [List.length_append, ← List.range'_append_1, List.filter_append, filtersAt_append, ih hs hat.left]
    congr 1
    rw [List.filter_eq_self.2, filtersAt_range hat.right]
    intro i hi
    rw [List.mem_range'_1] at hi
    by_contra hno
    have := owned_range h hs i (by simpa using hno)
    omega
  | join hl hr ihl ihr =>
    simp only [straight, Bool.and_eq_true, ← hl.length] at hs
    rw [List.length_append, ← List.range'_append_1, List.filter_append, filtersAt_append, owned_append]
    congr 1
    · rw [← ihl hs.1 hat.left]
      congr 1
      refine List.filter_congr fun i hi => ?_
      rw [List.mem_range'_1] at hi
      have hno : i ∉ ownedByOptionals _ := fun hm => by have := owned_range hr hs.2 i hm; omega
      simp [hno]
    · rw [← ihr hs.2 hat.right]
      congr 1
      refine List.filter_congr fun i hi => ?_
      rw [List.mem_range'_1] at hi
      have hno : i ∉ ownedByOptionals _ := fun hm => by have := owned_range hl hs.1 i hm; omega
      simp [hno]
  | minus hl hr ihl ihr =>
    simp only [straight, Bool.and_eq_true, Bool.not_eq_true'] at hs
    rw [List.length_append, owned_append, owned_optional, (owned_nil hr hs.2).1, List.append_nil, filter_owned,
      ihl hs.1 hat.left]
  | leftJoin hl hr hc ihl ihr =>
    simp only [straight, Bool.and_eq_true, Bool.not_eq_true'] at hs
    rw [owned_append, owned_optional, (owned_nil hr hs.2).1, List.append_nil, @List.length_append _ _ (_ ++ _),
      filter_owned, ihl hs.1 hat.left]
  | _ => rfl

end Positions

/-! ## Triple patterns -/

theorem mem_pushNew {out : List Variable} {v w : Variable} : v ∈ pushNew out w ↔ v ∈ out ∨ w = v := by
  unfold pushNew
  split
  · rename_i h
    exact ⟨.inl, fun hv => hv.elim id fun e => e ▸ h⟩
  · simp [eq_comm]

theorem mem_foldl_pushNew {vs out : List Variable} {v : Variable} : v ∈ vs.foldl pushNew out ↔ v ∈ out ∨ v ∈ vs := by
  induction vs generalizing out with
  | nil => simp
  | cons w vs ih => rw [List.foldl_cons, ih, mem_pushNew, List.mem_cons, or_assoc, eq_comm]

theorem mem_pushTerm {out : List Variable} {t : TermPattern} (ht : simpleTerm t = true) {v : Variable} :
    v ∈ pushTerm out t ↔ v ∈ out ∨ t.Mentions v := by
  cases t with
  | var w => exact mem_pushNew
  | blankNode l => cases ht
  | triple s p o => cases ht
  | _ => simp [pushTerm, TermPattern.Mentions]

theorem mem_pushScope {out : List Variable} {scope : Scope} {v : Variable} :
    v ∈ pushScope out scope ↔ v ∈ out ∨ scope = .var v := by
  cases scope with
  | var w => rw [Scope.var.injEq]; exact mem_pushNew
  | _ => simp [pushScope]

theorem mem_collectVariables {t : TriplePattern} (hs : simpleTerm t.subject = true) (ho : simpleTerm t.object = true)
    {out : List Variable} {v : Variable} : v ∈ collectVariables t out ↔ v ∈ out ∨ t.Mentions v := by
  have hso : v ∈ pushTerm (pushTerm out t.subject) t.object ↔ v ∈ out ∨ t.subject.Mentions v ∨ t.object.Mentions v := by
    rw [mem_pushTerm ho, mem_pushTerm hs, or_assoc]
  unfold collectVariables
  simp only [TriplePattern.Mentions]
  cases t.predicate with
  | var w =>
    rw [mem_pushNew, hso]
    simp only [NamedNodePattern.Mentions]
    tauto
  | namedNode n =>
    rw [hso]
    simp [NamedNodePattern.Mentions]

theorem simple_renameBlank {x : TermPattern} (h : (match x with | .triple _ _ _ => false | _ => true) = true) :
    simpleTerm (renameBlank x) = true := by
  cases x <;> first | rfl | cases h

/-- A usable pattern without its blank nodes has only variables and constants. -/
theorem simple_withoutBlankNodes {t : TriplePattern} (h : usablePattern t = true) :
    simpleTerm (withoutBlankNodes t).subject = true ∧ simpleTerm (withoutBlankNodes t).object = true := by
  obtain ⟨s, p, o⟩ := t
  simp only [usablePattern, Bool.and_eq_true] at h
  exact ⟨simple_renameBlank h.1, simple_renameBlank h.2⟩

theorem mentions_renameBlank (t : TermPattern) (v : Variable) : (renameBlank t).Mentions v ↔ t.Mentions v := by
  cases t <;> rfl

theorem mentions_withoutBlankNodes (t : TriplePattern) (v : Variable) : (withoutBlankNodes t).Mentions v ↔ t.Mentions v := by
  simp only [TriplePattern.Mentions, withoutBlankNodes, mentions_renameBlank]

theorem collectBgp_spec {scope : Scope} {patterns : List TriplePattern} {certain certain' : List Variable}
    {items : List Item} (h : collectBgp scope patterns certain = some (certain', items)) :
    items = patterns.map (fun t => .pattern ⟨withoutBlankNodes t, scope⟩) ∧ (∀ t ∈ patterns, usablePattern t = true) ∧
      ∀ v, v ∈ certain' ↔ v ∈ certain ∨ ∃ t ∈ patterns, t.Mentions v ∨ scope = .var v := by
  induction patterns generalizing certain items with
  | nil => cases h; simp
  | cons t patterns ih =>
    simp only [collectBgp, Option.bind_eq_bind] at h
    split at h
    · cases h
    · rename_i hu
      obtain ⟨⟨c, rest⟩, hr, h⟩ := Option.bind_eq_some_iff.1 h
      cases h
      have hu' : usablePattern t = true := by simpa using hu
      obtain ⟨rfl, hus, hmem⟩ := ih hr
      obtain ⟨hs, ho⟩ := simple_withoutBlankNodes hu'
      refine ⟨rfl, by simpa [hu'] using hus, fun v => ?_⟩
      rw [hmem, mem_pushScope, mem_collectVariables hs ho, mentions_withoutBlankNodes, List.exists_mem_cons_iff]
      tauto

/-! ## Branches -/

theorem mem_alternated {a b : Bound} {v : Variable} (h : v ∈ (a.alternated b).certain) : v ∈ a.certain ∧ v ∈ b.certain := by
  simpa [Bound.alternated] using h

/-- The scope of a block nested in a branch; a block inside another is not taken. -/
theorem unionBranches_spec {P : GraphPattern} {scope : Scope} {bound : Bound} {branches : List (List PatternItem)}
    (h : unionBranches P scope = some (bound, branches)) :
    (∀ branch ∈ branches, branch ≠ [] ∧ (∀ p ∈ branch, simplePattern p = true ∧ (scope ≠ .default → p.scope = scope)) ∧
      ∀ v ∈ bound.certain, ∃ p ∈ branch, p.Mentions v) := by
  induction P generalizing scope bound branches with
  | union left right ihl ihr =>
    simp only [unionBranches, Option.bind_eq_bind, Option.bind_eq_some_iff, Option.pure_def, Option.some.injEq,
      Prod.mk.injEq] at h
    obtain ⟨⟨a, xs⟩, hl, ⟨b, ys⟩, hr, rfl, rfl⟩ := h
    intro branch hb
    rcases List.mem_append.1 hb with hb | hb
    · obtain ⟨h1, h2, h3⟩ := ihl hl branch hb
      exact ⟨h1, h2, fun v hv => h3 v (mem_alternated hv).1⟩
    · obtain ⟨h1, h2, h3⟩ := ihr hr branch hb
      exact ⟨h1, h2, fun v hv => h3 v (mem_alternated hv).2⟩
  | graph name inner ih =>
    rw [unionBranches] at h
    split at h
    · rename_i hs
      subst hs
      intro branch hb
      obtain ⟨h1, h2, h3⟩ := ih h branch hb
      exact ⟨h1, fun p hp => ⟨(h2 p hp).1, fun hne => absurd rfl hne⟩, h3⟩
    · cases h
  | bgp patterns =>
    simp only [unionBranches] at h
    split at h
    · cases h
    · rename_i hu
      simp only [Bool.or_eq_true, Bool.not_eq_true', not_or, Bool.not_eq_true, Bool.not_eq_false,
        List.isEmpty_eq_false_iff, List.all_eq_true] at hu
      cases h
      intro branch hb
      obtain rfl := List.mem_singleton.1 hb
      refine ⟨by simpa using hu.1, ?_, fun v hv => ?_⟩
      · intro p hp
        obtain ⟨t', ht', rfl⟩ := List.mem_map.1 hp
        obtain ⟨t, ht, rfl⟩ := List.mem_map.1 ht'
        obtain ⟨hs, ho⟩ := simple_withoutBlankNodes (hu.2 t ht)
        exact ⟨by simp [simplePattern, hs, ho], fun _ => rfl⟩
      · have key : ∀ (ts : List TriplePattern) (out : List Variable), (∀ t ∈ ts, usablePattern t = true) →
            v ∈ (ts.map withoutBlankNodes).foldl (fun out t => collectVariables t out) out →
              v ∈ out ∨ ∃ t ∈ ts, (withoutBlankNodes t).Mentions v := by
          intro ts
          induction ts with
          | nil => intro out _ hv; exact .inl hv
          | cons t ts ihts =>
            intro out hts hv
            obtain ⟨hs, ho⟩ := simple_withoutBlankNodes (hts t List.mem_cons_self)
            rcases ihts _ (fun t ht => hts t (List.mem_cons_of_mem _ ht)) hv with hv | ⟨t', ht', hv⟩
            · rcases (mem_collectVariables hs ho).1 hv with hv | hv
              · exact .inl hv
              · exact .inr ⟨t, List.mem_cons_self, hv⟩
            · exact .inr ⟨t', List.mem_cons_of_mem _ ht', hv⟩
        rcases mem_pushScope.1 hv with hv | hv
        · obtain ⟨t, ht, hv⟩ := (key patterns [] hu.2 hv).resolve_left (by simp)
          exact ⟨⟨withoutBlankNodes t, scope⟩, List.mem_map.2 ⟨_, List.mem_map.2 ⟨t, ht, rfl⟩, rfl⟩, .inl hv⟩
        · obtain ⟨t, ht⟩ := List.exists_mem_of_ne_nil _ hu.1
          exact ⟨⟨withoutBlankNodes t, scope⟩, List.mem_map.2 ⟨_, List.mem_map.2 ⟨t, ht, rfl⟩, rfl⟩, .inr hv⟩
  | _ => simp [unionBranches] at h

/-! ## Paths -/

/-- Every alternative is one pattern, between the same ends. -/
theorem pathAlternatives_spec {path : PropertyPathExpression} {subject object : TermPattern} {scope : Scope}
    {branches : List (List PatternItem)} (h : pathAlternatives path subject object scope = some branches) :
    simpleTerm (renameBlank subject) = true ∧ simpleTerm (renameBlank object) = true ∧ branches ≠ [] ∧
      ∀ branch ∈ branches, ∃ p, branch = [⟨⟨renameBlank subject, .namedNode p, renameBlank object⟩, scope⟩] := by
  induction path generalizing branches with
  | namedNode p =>
    cases subject <;> cases object <;> cases h <;>
      exact ⟨rfl, rfl, by simp, fun branch hb => ⟨p, List.mem_singleton.1 hb⟩⟩
  | alternative a b iha ihb =>
    simp only [pathAlternatives, Option.bind_eq_bind, Option.bind_eq_some_iff, Option.pure_def, Option.some.injEq] at h
    obtain ⟨xs, hx, ys, hy, rfl⟩ := h
    obtain ⟨hs, ho, hne, hxs⟩ := iha hx
    obtain ⟨-, -, -, hys⟩ := ihb hy
    refine ⟨hs, ho, by simp [hne], fun branch hb => ?_⟩
    rcases List.mem_append.1 hb with hb | hb
    · exact hxs branch hb
    · exact hys branch hb
  | _ => simp [pathAlternatives] at h

theorem pathBound_certain {s o : TermPattern} (hs : simpleTerm s = true) (ho : simpleTerm o = true) {scope : Scope}
    {branches : List (List PatternItem)} (h : ∀ branch ∈ branches, ∃ p, branch = [⟨⟨s, .namedNode p, o⟩, scope⟩]) {v : Variable}
    (hv : v ∈ (pathBound branches).certain) : s.Mentions v ∨ o.Mentions v := by
  -- every branch has the ends' variables, so whichever of them the fold keeps, it keeps no other
  have key : ∀ (bs : List (List PatternItem)) (b : Bound), (∀ branch ∈ bs, ∃ p, branch = [⟨⟨s, .namedNode p, o⟩, scope⟩]) →
      (v ∈ b.certain → s.Mentions v ∨ o.Mentions v) →
      v ∈ (bs.foldl (fun bound branch =>
        let certain := branch.foldl (fun out p => collectVariables p.triple out) []
        if bound.possible.isEmpty then ⟨certain, certain⟩ else bound.alternated ⟨certain, certain⟩) b).certain →
      s.Mentions v ∨ o.Mentions v := by
    intro bs
    induction bs with
    | nil => intro b _ hb hv; exact hb hv
    | cons branch bs ih =>
      intro b hbs hb hv
      obtain ⟨p, rfl⟩ := hbs branch List.mem_cons_self
      refine ih _ (fun x hx => hbs x (List.mem_cons_of_mem _ hx)) ?_ hv
      simp only [List.foldl_cons, List.foldl_nil]
      split
      · intro hm
        have := (mem_collectVariables (t := ⟨s, .namedNode p, o⟩) hs ho).1 hm
        simpa [TriplePattern.Mentions, NamedNodePattern.Mentions] using this
      · intro hm
        exact hb (mem_alternated hm).1
  exact key branches ⟨[], []⟩ h (by simp) hv

theorem closureItem_spec {path : PropertyPathExpression} {subject object : TermPattern} {scope : Scope} {c : ClosureItem}
    (h : closureItem path subject object scope = some c) :
    c.subject = renameBlank subject ∧ c.object = renameBlank object ∧ simpleTerm c.subject = true ∧
      simpleTerm c.object = true ∧ c.scope = scope ∧ c.path = path := by
  simp only [closureItem, Option.bind_eq_bind, Option.bind_eq_some_iff, Option.pure_def, Option.some.injEq] at h
  obtain ⟨⟨inner, hops⟩, hh, ⟨predicate, inverse⟩, hp, s, hs, o, ho, rfl⟩ := h
  have hend : ∀ {t t' : TermPattern}, closureEnd t = some t' → t' = renameBlank t ∧ simpleTerm t' = true := by
    intro t t' ht
    cases t <;> cases ht <;> exact ⟨rfl, rfl⟩
  obtain ⟨rfl, hs'⟩ := hend hs
  obtain ⟨rfl, ho'⟩ := hend ho
  have hedge : (if inverse = true then PropertyPathExpression.reverse (.namedNode predicate) else .namedNode predicate) = inner := by
    unfold closurePredicate at hp
    split at hp
    · rename_i hi
      cases hp
      exact hi.symm
    · rename_i hi
      cases hp
      exact hi.symm
    · cases hp
  refine ⟨rfl, rfl, hs', ho', rfl, ?_⟩
  simp only [ClosureItem.path, ClosureItem.edge, hedge]
  unfold closureHops at hh
  split at hh <;> cases hh <;> rfl

theorem valuesCertain_spec {vars : List Variable} {bindings : List (List (Option GroundTerm))} {v : Variable}
    (h : v ∈ valuesCertain vars bindings) : ∀ row ∈ bindings, ∃ term, (v, some term) ∈ vars.zip row := by
  intro row hrow
  obtain ⟨⟨w, i⟩, hm, rfl⟩ := List.mem_map.1 h
  obtain ⟨hz, hall⟩ := List.mem_filter.1 hm
  have hsome := List.all_eq_true.1 hall row hrow
  have hw : vars[i]? = some w := List.mem_zipIdx_iff_getElem?.1 hz
  cases hr : row[i]? with
  | none => simp [hr] at hsome
  | some cell =>
    cases cell with
    | none => simp [hr] at hsome
    | some term =>
      refine ⟨term, List.mem_of_getElem? (i := i) ?_⟩
      simp [List.getElem?_zip_eq_some, hw, hr]

/-! ## What the items make certain -/

section Certain
variable {converts : Expression → Bool} {P : GraphPattern} {scope : Scope} {n : Nat} {bound : Bound} {items : List Item}
  {filters free : List Filter}

theorem simpleItems_bgp {patterns : List TriplePattern} (h : ∀ t ∈ patterns, usablePattern t = true) (scope : Scope) :
    simpleItems (patterns.map (fun t => .pattern ⟨withoutBlankNodes t, scope⟩)) = true := by
  induction patterns with
  | nil => rfl
  | cons t patterns ih =>
    obtain ⟨hs, ho⟩ := simple_withoutBlankNodes (h t List.mem_cons_self)
    rw [List.map_cons, simpleItems, ih fun t ht => h t (List.mem_cons_of_mem _ ht)]
    simp [simpleItem, simplePattern, hs, ho]

theorem Collected.simple (h : Collected converts P scope n bound items filters free) : simpleItems items = true := by
  induction h with
  | bgp h =>
    obtain ⟨rfl, hu, -⟩ := collectBgp_spec h
    exact simpleItems_bgp hu _
  | project h hv ih => exact ih
  | graph h ih => exact ih
  | filter h hn ih => exact ih
  | values => rfl
  | join hl hr ihl ihr => rw [simpleItems_append, ihl, ihr]; rfl
  | minus hl hr ihl ihr => rw [simpleItems_append, ihl]; simp [simpleItems, simpleItem, ihr]
  | leftJoin hl hr hc ihl ihr => rw [simpleItems_append, ihl]; simp [simpleItems, simpleItem, ihr]
  | closure h =>
    obtain ⟨-, -, hs, ho, -, -⟩ := closureItem_spec h
    simp [simpleItems, simpleItem, hs, ho]
  | alternatives h =>
    obtain ⟨hs, ho, -, hb⟩ := pathAlternatives_spec h
    simp only [simpleItems, simpleItem, Bool.and_true, List.all_eq_true]
    intro branch hbr p hp
    obtain ⟨q, rfl⟩ := hb branch hbr
    obtain rfl := List.mem_singleton.1 hp
    simp [simplePattern, hs, ho]
  | union h =>
    simp only [simpleItems, simpleItem, Bool.and_true, List.all_eq_true]
    intro branch hbr p hp
    exact ((unionBranches_spec h branch hbr).2.1 p hp).1

theorem pathBound_possible (branches : List (List PatternItem)) :
    ∀ v ∈ (pathBound branches).certain, v ∈ (pathBound branches).possible := by
  unfold pathBound
  have key : ∀ (bs : List (List PatternItem)) (b : Bound), (∀ v ∈ b.certain, v ∈ b.possible) →
      ∀ v ∈ (bs.foldl (fun bound branch =>
        let certain := branch.foldl (fun out p => collectVariables p.triple out) []
        if bound.possible.isEmpty then ⟨certain, certain⟩ else bound.alternated ⟨certain, certain⟩) b).certain,
      v ∈ (bs.foldl (fun bound branch =>
        let certain := branch.foldl (fun out p => collectVariables p.triple out) []
        if bound.possible.isEmpty then ⟨certain, certain⟩ else bound.alternated ⟨certain, certain⟩) b).possible := by
    intro bs
    induction bs with
    | nil => intro b hb v hv; exact hb v hv
    | cons branch bs ih =>
      intro b hb
      refine ih _ ?_
      dsimp only
      split
      · exact fun v hv => hv
      · exact fun v hv => mem_foldl_pushNew.2 (.inl (hb v (mem_alternated hv).1))
  exact key branches ⟨[], []⟩ (by simp)

theorem unionBranches_possible {P : GraphPattern} {scope : Scope} {bound : Bound} {branches : List (List PatternItem)}
    (h : unionBranches P scope = some (bound, branches)) : ∀ v ∈ bound.certain, v ∈ bound.possible := by
  induction P generalizing scope bound branches with
  | union left right ihl ihr =>
    simp only [unionBranches, Option.bind_eq_bind, Option.bind_eq_some_iff, Option.pure_def, Option.some.injEq,
      Prod.mk.injEq] at h
    obtain ⟨⟨a, xs⟩, hl, ⟨b, ys⟩, -, rfl, -⟩ := h
    exact fun v hv => mem_foldl_pushNew.2 (.inl (ihl hl v (mem_alternated hv).1))
  | graph name inner ih =>
    rw [unionBranches] at h
    split at h
    · exact ih h
    · cases h
  | bgp patterns =>
    simp only [unionBranches] at h
    split at h
    · cases h
    · cases h
      exact fun v hv => hv
  | _ => simp [unionBranches] at h

/-- What is certain is possible. -/
theorem Collected.possible (h : Collected converts P scope n bound items filters free) :
    ∀ v ∈ bound.certain, v ∈ bound.possible := by
  induction h with
  | project h hv ih => exact ih
  | graph h ih => exact ih
  | filter h hn ih => exact ih
  | minus hl hr ihl ihr => exact ihl
  | leftJoin hl hr hc ihl ihr => exact fun v hv => mem_foldl_pushNew.2 (.inl (ihl v hv))
  | join hl hr ihl ihr =>
    intro v hv
    rcases mem_foldl_pushNew.1 hv with hv | hv
    · exact mem_foldl_pushNew.2 (.inl (ihl v hv))
    · exact mem_foldl_pushNew.2 (.inr (ihr v hv))
  | alternatives h => exact pathBound_possible _
  | union h => exact unionBranches_possible h
  | values =>
    intro v hv
    obtain ⟨⟨w, i⟩, hm, rfl⟩ := List.mem_map.1 hv
    exact (List.mem_zipIdx_iff_getElem?.1 (List.mem_filter.1 hm).1) |> List.mem_of_getElem?
  | _ => exact fun v hv => hv

/-- What the planner calls certain, the items do make certain. -/
theorem Collected.certain (h : Collected converts P scope n bound items filters free) {v : Variable}
    (hv : v ∈ bound.certain) : CertainIn items v := by
  induction h with
  | bgp h =>
    obtain ⟨rfl, -, hmem⟩ := collectBgp_spec h
    obtain ⟨t, ht, hv⟩ := ((hmem v).1 hv).resolve_left (by simp)
    refine ⟨_, List.mem_map.2 ⟨t, ht, rfl⟩, ?_⟩
    rcases hv with hv | hv
    · exact .inl ((mentions_withoutBlankNodes t v).2 hv)
    · exact .inr hv
  | project h hv ih => exact ih hv
  | graph h ih => exact ih hv
  | filter h hn ih => exact ih hv
  | minus hl hr ihl ihr => exact certainIn_append.2 (.inl (ihl hv))
  | leftJoin hl hr hc ihl ihr => exact certainIn_append.2 (.inl (ihl hv))
  | join hl hr ihl ihr =>
    rcases mem_foldl_pushNew.1 hv with hv | hv
    · exact certainIn_append.2 (.inl (ihl hv))
    · exact certainIn_append.2 (.inr (ihr hv))
  | closure h =>
    obtain ⟨-, -, hs, ho, -, -⟩ := closureItem_spec h
    refine ⟨_, List.mem_cons_self, ?_⟩
    simpa [mem_pushTerm hs, mem_pushTerm ho, Certain] using hv
  | alternatives h =>
    obtain ⟨hs, ho, -, hb⟩ := pathAlternatives_spec h
    refine ⟨_, List.mem_cons_self, fun branch hbr => ?_⟩
    obtain ⟨p, rfl⟩ := hb branch hbr
    refine ⟨_, List.mem_cons_self, .inl ?_⟩
    rcases pathBound_certain hs ho hb hv with hv | hv
    · exact .inl hv
    · exact .inr (.inr hv)
  | union h => exact ⟨_, List.mem_cons_self, fun branch hbr => (unionBranches_spec h branch hbr).2.2 v hv⟩
  | values => exact ⟨_, List.mem_cons_self, valuesCertain_spec hv⟩

end Certain

end Holos.Engine.Bindjoin
