import Holos.Engine.Bindjoin.Closure
import Mathlib.Algebra.Order.BigOperators.Group.List
import Mathlib.Algebra.Order.Ring.Nat
/-!
# The nested loop computes the meaning

`events_approx`: whatever order the items are taken in, the rows a search completes are the
meaning of its items, as long as nothing stops it; up to where something does, they are part
of it. The induction is over the fuel; the invariant is `Ready`, that every pending filter's
variables are bound or will be by what is still required.
-/

namespace Holos.Engine.Bindjoin

open Sparql Lib

/-! ## Traces and multisets -/

/-- The rows an event completes. Those inside a probe do not count. -/
def Event.rows : Event → List Bindings
  | .row β => [β]
  | _ => []

mutual

/-- The search is stopped here, or goes where the meaning does not follow. A probe that has
completed a row has answered, whatever stops it afterwards. -/
def Event.stops : Event → Bool
  | .row _ => false
  | .probe evs => stopsIn evs && (rowsBefore evs).isEmpty
  | .stray => true
  | .halt => true
  | .fail _ => true

def stopsIn : List Event → Bool
  | [] => false
  | ev :: evs => ev.stops || stopsIn evs

/-- The rows completed before the search is stopped. -/
def rowsBefore : List Event → List Bindings
  | [] => []
  | ev :: evs => ev.rows ++ if ev.stops then [] else rowsBefore evs

end

/-- A trace whose rows are among `M`, and are all of `M` if nothing stops it. -/
structure Approx (evs : List Event) (M : Multiset Solution) : Prop where
  le : (rowsBefore evs : Multiset Solution) ≤ M
  eq : stopsIn evs = false → (rowsBefore evs : Multiset Solution) = M

theorem stopsIn_append (evs evs' : List Event) : stopsIn (evs ++ evs') = (stopsIn evs || stopsIn evs') := by
  induction evs with
  | nil => rfl
  | cons ev evs ih => rw [List.cons_append, stopsIn, stopsIn, ih, Bool.or_assoc]

theorem rowsBefore_append (evs evs' : List Event) :
    rowsBefore (evs ++ evs') = rowsBefore evs ++ if stopsIn evs then [] else rowsBefore evs' := by
  induction evs with
  | nil => rfl
  | cons ev evs ih =>
    rw [List.cons_append, rowsBefore, rowsBefore, stopsIn, ih]
    cases ev.stops <;> simp

theorem hasRow_of_rowsBefore {evs : List Event} (h : rowsBefore evs ≠ []) : hasRow evs = true := by
  induction evs with
  | nil => exact absurd rfl h
  | cons ev evs ih =>
    cases ev with
    | row β => rfl
    | probe inner =>
      have hne : rowsBefore evs ≠ [] := by
        intro he
        rw [rowsBefore, he] at h
        simp [Event.rows] at h
      simpa [hasRow, Event.isRow] using ih hne
    | _ => simp [rowsBefore, Event.rows, Event.stops] at h

theorem hasRow_iff {evs : List Event} (hs : stopsIn evs = false) : hasRow evs = true ↔ rowsBefore evs ≠ [] := by
  refine ⟨fun h => ?_, hasRow_of_rowsBefore⟩
  induction evs with
  | nil => cases h
  | cons ev evs ih =>
    rw [stopsIn, Bool.or_eq_false_iff] at hs
    cases ev with
    | row β => simp [rowsBefore, Event.rows]
    | probe inner =>
      have htail := ih hs.2 (by simpa [hasRow, Event.isRow] using h)
      rw [rowsBefore, hs.1]
      simpa [Event.rows] using htail
    | _ => cases hs.1

namespace Approx

theorem nil : Approx [] 0 := ⟨le_rfl, fun _ => rfl⟩

theorem row (β : Bindings) : Approx [.row β] {β} := ⟨le_rfl, fun _ => rfl⟩

/-- A trace stopped before its first row stands for anything. -/
theorem of_stopped {evs : List Event} (hs : stopsIn evs = true) (hr : rowsBefore evs = []) (M : Multiset Solution) :
    Approx evs M :=
  ⟨by rw [hr]; exact Multiset.zero_le M, fun h => by rw [hs] at h; cases h⟩

theorem append {evs evs' : List Event} {M N : Multiset Solution} (h : Approx evs M) (h' : Approx evs' N) :
    Approx (evs ++ evs') (M + N) := by
  constructor
  · rw [rowsBefore_append]
    split
    · rw [List.append_nil]
      exact le_trans h.le (Multiset.le_add_right M N)
    · rw [← Multiset.coe_add]
      exact add_le_add h.le h'.le
  · intro hs
    rw [stopsIn_append, Bool.or_eq_false_iff] at hs
    rw [rowsBefore_append, hs.1, ← h.eq hs.1, ← h'.eq hs.2]
    rfl

theorem flatMap {α : Type} {l : List α} {f : α → List Event} {g : α → Multiset Solution}
    (h : ∀ a ∈ l, Approx (f a) (g a)) : Approx (l.flatMap f) ((l : Multiset α).bind g) := by
  induction l with
  | nil => exact nil
  | cons a l ih =>
    rw [List.flatMap_cons, ← Multiset.cons_coe, Multiset.cons_bind]
    exact append (h a List.mem_cons_self) (ih fun b hb => h b (List.mem_cons_of_mem _ hb))

/-- After a stray nothing is claimed. -/
theorem stray_or {evs : List Event} {M : Multiset Solution} {b : Bool} (h : b = false → Approx evs M) :
    Approx ((if b then [Event.stray] else []) ++ evs) M := by
  cases b with
  | true => exact of_stopped rfl rfl M
  | false => exact h rfl

end Approx

/-- The traces of a list of candidates, from the traces of what each of them binds. -/
theorem approx_attempts {attempts : List Attempt} {body : Bindings → List Event} {g : Bindings → Multiset Solution}
    (h : ∀ β, .bound β ∈ attempts → Approx (body β) (g β)) :
    Approx (attemptEvents body attempts) ((attempts : Multiset Attempt).bind (fun a => a.solutions.bind g)) := by
  refine Approx.flatMap fun a ha => ?_
  cases a with
  | fail e => exact Approx.of_stopped rfl rfl _
  | missing => exact Approx.of_stopped rfl rfl _
  | conflict => exact (Multiset.zero_bind g).symm ▸ Approx.nil
  | bound β => exact (Multiset.singleton_bind β g).symm ▸ h β ha

/-! ## Filters -/

/-- The plan, the context and the interpretation fit: the store is read whole, the filters
are evaluated alike, each reads only its own variables, and a comparison holds only of ids
inside its spans. -/
structure Faithful (p : Plan) (cx : Context) (I : Interpretation) : Prop where
  names : Names cx.view.store I
  allowed : cx.view.policy = .permitAll
  holds : cx.holds = I.holds
  reads : ∀ f ∈ p.filters, ∀ μ ν, (∀ v ∈ f.needs, μ.lookup v = ν.lookup v) →
    I.holds f.expression μ = I.holds f.expression ν
  bounded : ∀ f ∈ p.filters, ∀ c ss, f.bounds = some c → Range.spans cx.view.store c = some ss →
    ∀ μ id, I.holds f.expression μ = true → μ.lookup c.var = some id → ∃ span ∈ ss, span.contains id = true

section Settle
variable {p : Plan} {cx : Context} {I : Interpretation} (hf : Faithful p cx I)

theorem mem_filtersAt {fs : List Filter} {indices : List Nat} {f : Filter} (h : f ∈ filtersAt fs indices) : f ∈ fs := by
  obtain ⟨i, -, hi⟩ := List.mem_filterMap.1 h
  exact List.mem_of_getElem? hi

include hf in
/-- A filter whose variables are bound has its value already. -/
theorem holds_of_extends {f : Filter} (hm : f ∈ p.filters) {β μ : Solution} (he : Mapping.Extends μ β)
    (hb : ∀ v ∈ f.needs, v ∈ β.keys) : I.holds f.expression μ = I.holds f.expression β := by
  refine hf.reads f hm μ β fun v hv => ?_
  obtain ⟨x, hx⟩ := Mapping.mem_keys_iff.1 (hb v hv)
  rw [hx, he v x hx]

theorem needs_bound {f : Filter} {β : Bindings} :
    f.needs.all (fun v => (β.lookup v).isSome) = true ↔ ∀ v ∈ f.needs, v ∈ β.keys := by
  simp only [List.all_eq_true, Mapping.mem_keys_iff, Option.isSome_iff_exists]

include hf in
theorem settle_none {β : Bindings} {pending : List Nat} (h : p.settle cx.holds β pending = none) (μ : Solution)
    (he : Mapping.Extends μ β) : passes I (filtersAt p.filters pending) μ = false := by
  induction pending with
  | nil => cases h
  | cons i pending ih =>
    rw [Plan.settle] at h
    cases hi : p.filters[i]? with
    | none =>
      rw [hi] at h
      have hcons : filtersAt p.filters (i :: pending) = filtersAt p.filters pending := List.filterMap_cons_none hi
      rw [hcons]
      exact ih h
    | some f =>
      rw [hi] at h
      have hcons : filtersAt p.filters (i :: pending) = f :: filtersAt p.filters pending := List.filterMap_cons_some hi
      rw [hcons, passes, List.all_cons, Bool.and_eq_false_iff]
      simp only at h
      split at h
      · rename_i hb
        split at h
        · exact .inr (ih h)
        · rename_i hh
          left
          rw [holds_of_extends hf (List.mem_of_getElem? hi) he (needs_bound.1 hb), ← hf.holds]
          simpa using hh
      · exact .inr (ih (Option.map_eq_none_iff.1 h))

include hf in
theorem settle_some {β : Bindings} {pending pending' : List Nat} (h : p.settle cx.holds β pending = some pending') :
    (∀ μ, Mapping.Extends μ β → passes I (filtersAt p.filters pending) μ = passes I (filtersAt p.filters pending') μ) ∧
      ∀ f ∈ filtersAt p.filters pending', f ∈ filtersAt p.filters pending ∧ ∃ v ∈ f.needs, v ∉ β.keys := by
  induction pending generalizing pending' with
  | nil =>
    cases h
    exact ⟨fun _ _ => rfl, by simp [filtersAt]⟩
  | cons i pending ih =>
    rw [Plan.settle] at h
    cases hi : p.filters[i]? with
    | none =>
      rw [hi] at h
      have hcons : filtersAt p.filters (i :: pending) = filtersAt p.filters pending := List.filterMap_cons_none hi
      rw [hcons]
      exact ih h
    | some f =>
      rw [hi] at h
      have hcons : ∀ l, filtersAt p.filters (i :: l) = f :: filtersAt p.filters l := fun l => List.filterMap_cons_some hi
      simp only at h
      rw [hcons]
      split at h
      · rename_i hb
        split at h
        · rename_i hh
          obtain ⟨h1, h2⟩ := ih h
          refine ⟨fun μ he => ?_, fun g hg => ⟨List.mem_cons_of_mem _ (h2 g hg).1, (h2 g hg).2⟩⟩
          have hholds : I.holds f.expression μ = true := by
            rw [holds_of_extends hf (List.mem_of_getElem? hi) he (needs_bound.1 hb), ← hf.holds]
            exact hh
          rw [← h1 μ he, passes, List.all_cons, hholds, Bool.true_and]
          rfl
        · cases h
      · rename_i hb
        obtain ⟨rest, hrest, rfl⟩ := Option.map_eq_some_iff.1 h
        obtain ⟨h1, h2⟩ := ih hrest
        rw [hcons]
        refine ⟨fun μ he => ?_, fun g hg => ?_⟩
        · have := h1 μ he
          simp only [passes] at this
          simp only [passes, List.all_cons, this]
        · rcases List.mem_cons.1 hg with rfl | hg
          · refine ⟨List.mem_cons_self, ?_⟩
            by_contra hno
            refine hb (needs_bound.2 fun v hv => ?_)
            by_contra hv'
            exact hno ⟨v, hv, hv'⟩
          · exact ⟨List.mem_cons_of_mem _ (h2 g hg).1, (h2 g hg).2⟩

end Settle

/-! ## The choice of an item -/

/-- The positions `cheapest` chooses among, or the first when nothing is required. -/
theorem cheapest_some {prefer : List Item → Bindings → Nat} {todo : List Item} {β : Bindings} {i : Nat}
    (h : cheapest prefer todo β = some i) :
    ∃ item, todo[i]? = some item ∧
      (item.isOptional = false ∨ (∀ x ∈ todo, x.isOptional = true) ∧ i = 0) := by
  unfold cheapest at h
  simp only at h
  split at h
  · rename_i hreq
    split at h
    · cases h
    · rename_i hne
      cases h
      have hall : ∀ x ∈ todo, x.isOptional = true := by
        intro x hx
        obtain ⟨k, hk⟩ := List.getElem?_of_mem hx
        rw [List.isEmpty_iff, List.map_eq_nil_iff, List.filter_eq_nil_iff] at hreq
        simpa using hreq (x, k) (List.mem_zipIdx_iff_getElem?.2 hk)
      cases todo with
      | nil => exact absurd rfl hne
      | cons item todo => exact ⟨item, rfl, .inr ⟨hall, rfl⟩⟩
  · obtain ⟨⟨item, k⟩, hk, rfl⟩ := List.mem_map.1 (List.mem_of_getElem? h)
    obtain ⟨hmem, hopt⟩ := List.mem_filter.1 hk
    exact ⟨item, List.mem_zipIdx_iff_getElem?.1 hmem, .inl (by simpa using hopt)⟩

theorem cheapest_none {prefer : List Item → Bindings → Nat} {todo : List Item} {β : Bindings}
    (h : cheapest prefer todo β = none) : todo = [] := by
  unfold cheapest at h
  simp only at h
  split at h
  · split at h
    · rename_i hempty
      exact List.isEmpty_iff.1 hempty
    · cases h
  · rename_i hne
    rw [List.getElem?_eq_none_iff] at h
    exact absurd (Nat.mod_lt (prefer todo β) (List.length_pos_iff.2 (by simpa using hne))) (not_lt.2 h)

theorem choose_none {prefer : List Item → Bindings → Nat} {todo : List Item} {β : Bindings}
    (h : choose prefer todo β = none) : todo = [] := by
  unfold choose at h
  cases hc : cheapest prefer todo β with
  | none => exact cheapest_none hc
  | some i =>
    obtain ⟨item, hi, -⟩ := cheapest_some hc
    simp [hc, hi] at h

theorem choose_some {prefer : List Item → Bindings → Nat} {todo : List Item} {β : Bindings} {item : Item} {rest : List Item}
    (h : choose prefer todo β = some (item, rest)) :
    ∃ before after, todo = before ++ item :: after ∧ rest = before ++ after ∧
      (item.isOptional = false ∨ (∀ x ∈ todo, x.isOptional = true) ∧ before = []) := by
  unfold choose at h
  cases hc : cheapest prefer todo β with
  | none => rw [hc] at h; cases h
  | some i =>
    obtain ⟨item', hi, hopt⟩ := cheapest_some hc
    simp only [hc, hi, Option.bind_eq_bind, Option.bind_some, Option.pure_def, Option.some.injEq, Prod.mk.injEq] at h
    obtain ⟨rfl, rfl⟩ := h
    obtain ⟨hlt, hget⟩ := List.getElem?_eq_some_iff.1 hi
    refine ⟨todo.take i, todo.drop (i + 1), ?_, List.eraseIdx_eq_take_drop_succ todo i, ?_⟩
    · rw [← hget, List.getElem_cons_drop, List.take_append_drop]
    · rcases hopt with h | ⟨hall, rfl⟩
      · exact .inl h
      · exact .inr ⟨hall, rfl⟩

/-! ## Readiness -/

section Ready
variable (fs : List Filter)

mutual

/-- The variables of an optional's filters are in `D`, or bound by what the optional
requires; and so on inside it. -/
def ReadyItem : Item → Set Variable → Prop
  | .optional _ items filters _, D =>
    (∀ f ∈ filtersAt fs filters, ∀ v ∈ f.needs, v ∈ D ∪ {v | CertainIn items v}) ∧ ReadyList items (D ∪ {v | CertainIn items v})
  | .pattern _, _ => True
  | .union _, _ => True
  | .values _, _ => True
  | .closure _, _ => True

def ReadyList : List Item → Set Variable → Prop
  | [], _ => True
  | item :: items, D => ReadyItem item D ∧ ReadyList items D

end

/-- The pending filters and every optional of a list are ready, given `D`. -/
structure Ready (F : List Filter) (items : List Item) (D : Set Variable) : Prop where
  pending : ∀ f ∈ F, ∀ v ∈ f.needs, v ∈ D ∪ {v | CertainIn items v}
  items : ReadyList fs items (D ∪ {v | CertainIn items v})

mutual

theorem ReadyItem.mono : ∀ {item : Item} {D D' : Set Variable}, ReadyItem fs item D → D ⊆ D' → ReadyItem fs item D'
  | .optional _ items filters _, D, D', h, hs => by
    have hsub : D ∪ {v | CertainIn items v} ⊆ D' ∪ {v | CertainIn items v} := Set.union_subset_union_left _ hs
    exact ⟨fun f hf v hv => hsub (h.1 f hf v hv), ReadyList.mono h.2 hsub⟩
  | .pattern _, _, _, _, _ => trivial
  | .union _, _, _, _, _ => trivial
  | .values _, _, _, _, _ => trivial
  | .closure _, _, _, _, _ => trivial

theorem ReadyList.mono : ∀ {items : List Item} {D D' : Set Variable}, ReadyList fs items D → D ⊆ D' → ReadyList fs items D'
  | [], _, _, _, _ => trivial
  | _ :: _, _, _, h, hs => ⟨ReadyItem.mono h.1 hs, ReadyList.mono h.2 hs⟩

end

variable {fs}

theorem readyList_append {items items' : List Item} {D : Set Variable} :
    ReadyList fs (items ++ items') D ↔ ReadyList fs items D ∧ ReadyList fs items' D := by
  induction items with
  | nil => simp [ReadyList]
  | cons item items ih => simp only [List.cons_append, ReadyList, ih, and_assoc]

theorem certainIn_append {items items' : List Item} {v : Variable} :
    CertainIn (items ++ items') v ↔ CertainIn items v ∨ CertainIn items' v := by
  simp only [CertainIn, List.mem_append]
  constructor
  · rintro ⟨item, h | h, hc⟩
    · exact .inl ⟨item, h, hc⟩
    · exact .inr ⟨item, h, hc⟩
  · rintro (⟨item, h, hc⟩ | ⟨item, h, hc⟩)
    · exact ⟨item, .inl h, hc⟩
    · exact ⟨item, .inr h, hc⟩

theorem certainIn_optionals {items : List Item} (h : ∀ item ∈ items, item.isOptional = true) (v : Variable) :
    ¬ CertainIn items v := by
  rintro ⟨item, hm, hc⟩
  cases item with
  | optional mode items filters fresh => exact hc
  | _ => cases h _ hm

/-- An item has had its turn: what it makes certain is bound now, or is certain still. -/
theorem Ready.middle {F F' : List Filter} {before after : List Item} (new : List Item) {item : Item}
    {D D' : Set Variable} (h : Ready fs F (before ++ item :: after) D) (hF : ∀ f ∈ F', f ∈ F) (hD : D ⊆ D')
    (hc : ∀ v, Certain item v → v ∈ D' ∨ CertainIn new v) (hnew : ReadyList fs new (D ∪ {v | CertainIn (before ++ item :: after) v})) :
    Ready fs F' (new ++ (before ++ after)) D' := by
  have hsub : D ∪ {v | CertainIn (before ++ item :: after) v} ⊆ D' ∪ {v | CertainIn (new ++ (before ++ after)) v} := by
    rintro v (hv | ⟨x, hx, hxc⟩)
    · exact .inl (hD hv)
    · rcases List.mem_append.1 hx with hx | hx
      · exact .inr ⟨x, by simp [hx], hxc⟩
      · rcases List.mem_cons.1 hx with rfl | hx
        · rcases hc v hxc with hv | ⟨y, hy, hyc⟩
          · exact .inl hv
          · exact .inr ⟨y, by simp [hy], hyc⟩
        · exact .inr ⟨x, by simp [hx], hxc⟩
  refine ⟨fun f hf v hv => hsub (h.pending f (hF f hf) v hv), ?_⟩
  obtain ⟨hb, ha⟩ := readyList_append.1 h.items
  rw [readyList_append, readyList_append]
  exact ⟨hnew.mono fs hsub, hb.mono fs hsub, ha.2.mono fs hsub⟩

end Ready

/-! ## One step of the loop -/

mutual

/-- Every position is a variable or a constant. -/
def simpleItem : Item → Bool
  | .pattern p => simplePattern p
  | .union branches => branches.all (fun branch => branch.all simplePattern)
  | .values _ => true
  | .closure c => simpleTerm c.subject && simpleTerm c.object
  | .optional _ items _ _ => simpleItems items

def simpleItems : List Item → Bool
  | [] => true
  | item :: items => simpleItem item && simpleItems items

end

theorem simpleItems_append (items items' : List Item) :
    simpleItems (items ++ items') = (simpleItems items && simpleItems items') := by
  induction items with
  | nil => rfl
  | cons item items ih => rw [List.cons_append, simpleItems, simpleItems, ih, Bool.and_assoc]

theorem itemsSize_append (items items' : List Item) : itemsSize (items ++ items') = itemsSize items + itemsSize items' := by
  induction items with
  | nil => simp [itemsSize]
  | cons item items ih => rw [List.cons_append, itemsSize, itemsSize, ih, Nat.add_assoc]

/-- What the loop is to do with some fuel. -/
def Computes (p : Plan) (cx : Context) (I : Interpretation) (fuel : Nat) : Prop :=
  ∀ todo pending β, itemsSize todo < fuel → simpleItems todo = true →
    Ready p.filters (filtersAt p.filters pending) todo {v | v ∈ β.keys} →
    Approx (p.events cx fuel todo pending β) (meaning I p.filters (filtersAt p.filters pending) todo β)

section Step
variable {p : Plan} {cx : Context} {I : Interpretation} {fuel : Nat} {before after : List Item} {pending : List Nat}
  {β : Bindings}

/-- After one required item: what the loop does under each solution of it. -/
theorem computes_rest (item : Item) (ih : Computes p cx I fuel) (hopt : item.isOptional = false)
    (hsize : itemsSize (before ++ item :: after) < fuel + 1) (hsimple : simpleItems (before ++ item :: after) = true)
    (hr : Ready p.filters (filtersAt p.filters pending) (before ++ item :: after) {v | v ∈ β.keys}) {β' : Bindings}
    (hβ : β' ∈ Mapping.extend β (itemSolutions I item)) :
    Approx (p.events cx fuel (before ++ after) pending β')
      (meaning I p.filters (filtersAt p.filters pending) (before ++ after) β') := by
  have hone : 0 < itemSize item := by cases item <;> simp [itemSize]
  refine ih _ _ _ ?_ ?_ ?_
  · rw [itemsSize_append, itemsSize] at hsize
    rw [itemsSize_append]
    omega
  · rw [simpleItems_append, simpleItems] at hsimple
    rw [simpleItems_append]
    simp only [Bool.and_eq_true] at hsimple ⊢
    exact ⟨hsimple.1, hsimple.2.2⟩
  · have hext := Mapping.extends_of_mem_extend hβ
    exact Ready.middle [] hr (fun f hf => hf) (fun v hv => hext.keys hv)
      (fun v hc => .inl (certain_extend hc hβ)) trivial

theorem pattern_bound (hn : Names cx.view.store I) (ho : cx.view.policy = .permitAll) {pattern : PatternItem}
    (hp : simplePattern pattern = true) {β' : Bindings} (h : .bound β' ∈ p.candidates cx.view pattern pending β) :
    β' ∈ Mapping.extend β (patternSolutions I pattern) := by
  obtain ⟨quads, hc, hscan⟩ := candidates_spec ho pattern pending β (p := p)
  rw [hc] at h
  obtain ⟨q, hq, hb⟩ := List.mem_map.1 h
  obtain ⟨hm, ha⟩ := hscan.sound q hq
  have hquad := extend_quad hn hp hm ha
  rw [patternSolutions, Mapping.extend_bind, Multiset.mem_bind]
  refine ⟨q, by rw [hn.quads]; exact hm, ?_⟩
  rw [hquad]
  cases hbq : bindQuad pattern q β with
  | none => rw [hbq] at hb; cases hb
  | some β'' =>
    rw [hbq] at hb
    cases hb
    exact Multiset.mem_singleton_self _

/-- A pending comparison that rules an id out leaves nothing of the rest. -/
theorem meaning_outside (hf : Faithful p cx I) (items : List Item) {f : Filter} (hm : f ∈ filtersAt p.filters pending)
    {c : Range.Comparison} {ss : List IdRange} {id : TermId} {β' : Bindings} (hb : f.bounds = some c)
    (hss : Range.spans cx.view.store c = some ss) (hv : β'.lookup c.var = some id)
    (hout : ∀ span ∈ ss, span.contains id = false) :
    meaning I p.filters (filtersAt p.filters pending) items β' = 0 := by
  refine meaning_eq_zero (fun μ he => ?_) items
  by_contra hp
  have hh : I.holds f.expression μ = true :=
    List.all_eq_true.1 (by simpa [passes] using hp : (filtersAt p.filters pending).all _ = true) f hm
  obtain ⟨span, hs, hc⟩ := hf.bounded f (mem_filtersAt hm) c ss hb hss μ id hh (he _ _ hv)
  rw [hout span hs] at hc
  cases hc

theorem step_pattern (hf : Faithful p cx I) (ih : Computes p cx I fuel) {pattern : PatternItem}
    (hsize : itemsSize (before ++ .pattern pattern :: after) < fuel + 1)
    (hsimple : simpleItems (before ++ .pattern pattern :: after) = true)
    (hr : Ready p.filters (filtersAt p.filters pending) (before ++ .pattern pattern :: after) {v | v ∈ β.keys}) :
    Approx (attemptEvents (p.events cx fuel (before ++ after) pending) (p.candidates cx.view pattern pending β))
      (meaning I p.filters (filtersAt p.filters pending) (before ++ .pattern pattern :: after) β) := by
  have hp : simplePattern pattern = true := by
    rw [simpleItems_append, simpleItems] at hsimple
    simp only [Bool.and_eq_true] at hsimple
    exact hsimple.2.1
  rw [meaning_middle _ _ rfl]
  simp only [itemSolutions]
  rw [pattern_step hf.names hf.allowed hp pending β (p := p)]
  · refine approx_attempts fun β' hb => ?_
    exact computes_rest (.pattern pattern) ih rfl hsize hsimple hr (pattern_bound hf.names hf.allowed hp hb)
  · intro β' _ f hm c ss id hb hss hv hout
    exact meaning_outside hf _ hm hb hss hv hout

theorem step_values (hf : Faithful p cx I) (ih : Computes p cx I fuel) {values : ValuesItem}
    (hsize : itemsSize (before ++ .values values :: after) < fuel + 1)
    (hsimple : simpleItems (before ++ .values values :: after) = true)
    (hr : Ready p.filters (filtersAt p.filters pending) (before ++ .values values :: after) {v | v ∈ β.keys}) :
    Approx (attemptEvents (p.events cx fuel (before ++ after) pending)
        (values.rows.map (fun row => bindRow cx.view (values.vars.zip row) β)))
      (meaning I p.filters (filtersAt p.filters pending) (before ++ .values values :: after) β) := by
  rw [meaning_middle _ _ rfl]
  simp only [itemSolutions]
  rw [Mapping.extend_bind, Multiset.bind_assoc, attemptEvents, List.flatMap_map]
  refine Approx.flatMap fun row hrow => ?_
  have hin : ∀ β' ∈ Mapping.extend β (I.rowSolutions (values.vars.zip row)),
      β' ∈ Mapping.extend β (itemSolutions I (.values values)) := by
    intro β' hβ
    simp only [itemSolutions]
    rw [Mapping.extend_bind, Multiset.mem_bind]
    exact ⟨row, hrow, hβ⟩
  rcases row_step hf.names (values.vars.zip row) β with hmiss | ⟨hsol, hnf⟩
  · rw [hmiss]
    exact Approx.of_stopped rfl rfl _
  · rw [← hsol] at hin ⊢
    cases hb : bindRow cx.view (values.vars.zip row) β with
    | fail e => exact absurd hb (hnf e)
    | missing => exact Approx.of_stopped rfl rfl _
    | conflict => exact (Multiset.zero_bind _).symm ▸ Approx.nil
    | bound β' =>
      rw [hb] at hin
      rw [show (Attempt.bound β').solutions = {β'} from rfl, Multiset.singleton_bind]
      exact computes_rest (.values values) ih rfl hsize hsimple hr (hin β' (Multiset.mem_singleton_self _))

theorem step_closure (hf : Faithful p cx I) (ih : Computes p cx I fuel) {closure : ClosureItem}
    (hsize : itemsSize (before ++ .closure closure :: after) < fuel + 1)
    (hsimple : simpleItems (before ++ .closure closure :: after) = true)
    (hr : Ready p.filters (filtersAt p.filters pending) (before ++ .closure closure :: after) {v | v ∈ β.keys}) :
    Approx ((if strays cx.view closure β then [Event.stray] else []) ++
        match closureAnswer cx.view closure β with
        | .error e => [.fail e]
        | .ok .abandon => [.halt]
        | .ok (.zero (.bound β)) => p.events cx fuel (before ++ after) pending β
        | .ok (.zero _) => []
        | .ok (.walk attempts) => attemptEvents (p.events cx fuel (before ++ after) pending) attempts)
      (meaning I p.filters (filtersAt p.filters pending) (before ++ .closure closure :: after) β) := by
  obtain ⟨hs, ho⟩ : simpleTerm closure.subject = true ∧ simpleTerm closure.object = true := by
    rw [simpleItems_append, simpleItems, simpleItem] at hsimple
    simp only [Bool.and_eq_true] at hsimple
    exact hsimple.2.1
  have hrest : ∀ β', β' ∈ Mapping.extend β (closureItemSolutions I closure) →
      Approx (p.events cx fuel (before ++ after) pending β')
        (meaning I p.filters (filtersAt p.filters pending) (before ++ after) β') :=
    fun β' hβ => computes_rest (.closure closure) ih rfl hsize hsimple hr hβ
  rw [meaning_middle _ _ rfl]
  simp only [itemSolutions]
  refine Approx.stray_or fun hstray => ?_
  have hstands := closure_step hf.names hf.allowed hs ho hstray
  generalize Mapping.extend β (closureItemSolutions I closure) = M at hrest hstands
  cases hans : closureAnswer cx.view closure β with
  | error e => rw [hans] at hstands; exact hstands.elim
  | ok answer =>
    rw [hans] at hstands
    cases answer with
    | abandon => exact Approx.of_stopped rfl rfl _
    | zero attempt =>
      obtain rfl : attempt.solutions = M := hstands
      cases attempt with
      | bound β' =>
        rw [show (Attempt.bound β').solutions = {β'} from rfl, Multiset.singleton_bind]
        exact hrest β' (Multiset.mem_singleton_self _)
      | _ => exact (Multiset.zero_bind _).symm ▸ Approx.nil
    | walk attempts =>
      obtain ⟨rfl, -⟩ := hstands
      rw [Multiset.bind_assoc]
      refine approx_attempts fun β' hb => hrest β' ?_
      exact Multiset.mem_bind.2 ⟨.bound β', hb, Multiset.mem_singleton_self _⟩

/-! ### A union -/

theorem cont_patterns (branch : List PatternItem) (k : Solution → Multiset Solution) :
    cont I p.filters (branch.map .pattern) k = k := by
  induction branch with
  | nil => rfl
  | cons pattern branch ih => rw [List.map_cons, cont, ih, contItem_required rfl]

/-- A branch spliced in front: each of its solutions, then the rest. -/
theorem meaning_branch (F : List Filter) (branch : List PatternItem) (rest : List Item) (β : Solution) :
    meaning I p.filters F (branch.map .pattern ++ rest) β =
      (Mapping.extend β (Mapping.joinAll (branch.map (patternSolutions I)))).bind (fun β => meaning I p.filters F rest β) := by
  have hreq : required I (branch.map .pattern) = Mapping.joinAll (branch.map (patternSolutions I)) := by
    rw [required, List.map_map]
    rfl
  rw [meaning, found, required_append, hreq, extend_join_bind, Multiset.filter_bind, cont_append, cont_patterns,
    Multiset.bind_assoc]
  rfl

theorem itemsSize_patterns (branch : List PatternItem) : itemsSize (branch.map .pattern) = branch.length := by
  induction branch with
  | nil => rfl
  | cons pattern branch ih => simp only [List.map_cons, itemsSize, ih, itemSize, List.length_cons, Nat.add_comm]

theorem simpleItems_patterns (branch : List PatternItem) :
    simpleItems (branch.map .pattern) = branch.all simplePattern := by
  induction branch with
  | nil => rfl
  | cons pattern branch ih => rw [List.map_cons, simpleItems, ih, simpleItem, List.all_cons]

theorem readyList_patterns (fs : List Filter) (branch : List PatternItem) (D : Set Variable) :
    ReadyList fs (branch.map .pattern) D := by
  induction branch with
  | nil => trivial
  | cons pattern branch ih => exact ⟨trivial, ih⟩

theorem step_union (ih : Computes p cx I fuel) {branches : List (List PatternItem)}
    (hsize : itemsSize (before ++ .union branches :: after) < fuel + 1)
    (hsimple : simpleItems (before ++ .union branches :: after) = true)
    (hr : Ready p.filters (filtersAt p.filters pending) (before ++ .union branches :: after) {v | v ∈ β.keys}) :
    Approx (branches.flatMap (fun branch => p.events cx fuel (branch.map .pattern ++ (before ++ after)) pending β))
      (meaning I p.filters (filtersAt p.filters pending) (before ++ .union branches :: after) β) := by
  rw [meaning_middle _ _ rfl]
  simp only [itemSolutions]
  rw [Mapping.extend_bind, Multiset.bind_assoc]
  refine Approx.flatMap fun branch hb => ?_
  rw [← meaning_branch]
  refine ih _ _ _ ?_ ?_ ?_
  · have hle : branch.length ≤ (branches.map List.length).sum :=
      List.single_le_sum (by simp) _ (List.mem_map.2 ⟨branch, hb, rfl⟩)
    rw [itemsSize_append, itemsSize, itemSize] at hsize
    rw [itemsSize_append, itemsSize_append, itemsSize_patterns]
    omega
  · rw [simpleItems_append, simpleItems, simpleItem] at hsimple
    rw [simpleItems_append, simpleItems_append, simpleItems_patterns]
    simp only [Bool.and_eq_true] at hsimple ⊢
    exact ⟨List.all_eq_true.1 hsimple.2.1 branch hb, hsimple.1, hsimple.2.2⟩
  · refine Ready.middle _ hr (fun f hf => hf) (fun v hv => hv) (fun v hc => .inr ?_) (readyList_patterns _ _ _)
    obtain ⟨pattern, hp, hm⟩ := hc branch hb
    exact ⟨.pattern pattern, List.mem_map.2 ⟨pattern, hp, rfl⟩, hm⟩

/-! ### Optionals -/

/-- With only optionals left, nothing is pending. -/
theorem nothing_pending {todo : List Item} (hall : ∀ x ∈ todo, x.isOptional = true)
    (hr : Ready p.filters (filtersAt p.filters pending) todo {v | v ∈ β.keys})
    (hun : ∀ f ∈ filtersAt p.filters pending, ∃ v ∈ f.needs, v ∉ β.keys) : filtersAt p.filters pending = [] := by
  rw [List.eq_nil_iff_forall_not_mem]
  intro f hf
  obtain ⟨v, hv, hno⟩ := hun f hf
  rcases hr.pending f hf v hv with h | h
  · exact hno h
  · exact certainIn_optionals hall v h

/-- What an optional's right side comes to, in front of the optionals that follow it. -/
theorem meaning_right {items rest : List Item} (hall : ∀ x ∈ rest, x.isOptional = true) (F : List Filter) (β : Solution) :
    meaning I p.filters F (items ++ rest) β =
      (found I F items β).bind (cont I p.filters items (cont I p.filters rest (fun ν => {ν}))) := by
  rw [meaning, found, required_append, required_optionals hall, Mapping.join_unit, cont_append]
  rfl

theorem ready_right {mode : OnMatch} {items rest : List Item} {filters : List Nat} {fresh : List Variable} {F : List Filter}
    (hall : ∀ x ∈ Item.optional mode items filters fresh :: rest, x.isOptional = true)
    (hr : Ready p.filters F (.optional mode items filters fresh :: rest) {v | v ∈ β.keys}) :
    Ready p.filters (filtersAt p.filters filters) items {v | v ∈ β.keys} ∧
      Ready p.filters (filtersAt p.filters filters) (items ++ rest) {v | v ∈ β.keys} := by
  have hnone : {v | v ∈ β.keys} ∪ {v | CertainIn (.optional mode items filters fresh :: rest) v} = {v | v ∈ β.keys} := by
    ext v
    simp only [Set.mem_union, Set.mem_ofPred_eq, certainIn_optionals hall v, or_false]
  have hitems := hr.items
  rw [hnone] at hitems
  obtain ⟨⟨hneeds, hinner⟩, hrest⟩ := hitems
  refine ⟨⟨hneeds, hinner⟩, fun f hf v hv => ?_, ?_⟩
  · rcases hneeds f hf v hv with h | h
    · exact .inl h
    · exact .inr (certainIn_append.2 (.inl h))
  · have hsub : {v | v ∈ β.keys} ∪ {v | CertainIn items v} ⊆ {v | v ∈ β.keys} ∪ {v | CertainIn (items ++ rest) v} :=
      Set.union_subset_union_right _ fun v hv => certainIn_append.2 (.inl hv)
    exact readyList_append.2 ⟨hinner.mono _ hsub, hrest.mono _ Set.subset_union_left⟩

theorem step_extend (ih : Computes p cx I fuel) {items rest : List Item} {filters : List Nat} {fresh : List Variable}
    (hall : ∀ x ∈ Item.optional .extend items filters fresh :: rest, x.isOptional = true)
    (hsize : itemsSize (.optional .extend items filters fresh :: rest) < fuel + 1)
    (hsimple : simpleItems (.optional .extend items filters fresh :: rest) = true)
    (hpend : filtersAt p.filters pending = [])
    (hr : Ready p.filters (filtersAt p.filters pending) (.optional .extend items filters fresh :: rest) {v | v ∈ β.keys}) :
    Approx (if hasRow (p.events cx fuel (items ++ rest) (pending ++ filters) β)
        then p.events cx fuel (items ++ rest) (pending ++ filters) β
        else p.events cx fuel (items ++ rest) (pending ++ filters) β ++ p.events cx fuel rest pending β)
      (meaning I p.filters (filtersAt p.filters pending) (.optional .extend items filters fresh :: rest) β) := by
  have hrest : ∀ x ∈ rest, x.isOptional = true := fun x hx => hall x (List.mem_cons_of_mem _ hx)
  have hadd : filtersAt p.filters (pending ++ filters) = filtersAt p.filters filters := by
    rw [filtersAt, List.filterMap_append, ← filtersAt, hpend]
    rfl
  rw [itemsSize, itemSize] at hsize
  simp only [simpleItems, simpleItem, Bool.and_eq_true] at hsimple
  have hin := ih (items ++ rest) (pending ++ filters) β (by rw [itemsSize_append]; omega)
    (by rw [simpleItems_append, hsimple.1, hsimple.2]; rfl) (by rw [hadd]; exact (ready_right hall hr).2)
  have hskip := ih rest pending β (by omega) hsimple.2
    ⟨by rw [hpend]; simp, hr.items.2.mono _ fun v hv => hv.elim .inl fun hc => absurd hc (certainIn_optionals hall v)⟩
  rw [hadd, meaning_right hrest] at hin
  have hskip' : meaning I p.filters (filtersAt p.filters pending) rest β = cont I p.filters rest (fun ν => {ν}) β := by
    rw [meaning, found_nil hrest β hpend, Multiset.singleton_bind]
  have hmeaning : meaning I p.filters (filtersAt p.filters pending) (.optional .extend items filters fresh :: rest) β =
      if (found I (filtersAt p.filters filters) items β).bind
          (cont I p.filters items (cont I p.filters rest (fun ν => {ν}))) = 0
      then cont I p.filters rest (fun ν => {ν}) β
      else (found I (filtersAt p.filters filters) items β).bind
          (cont I p.filters items (cont I p.filters rest (fun ν => {ν}))) := by
    rw [meaning, found_nil hall β hpend, Multiset.singleton_bind, cont, contItem]
  rw [hskip'] at hskip
  rw [hmeaning]
  generalize (found I (filtersAt p.filters filters) items β).bind
    (cont I p.filters items (cont I p.filters rest (fun ν => {ν}))) = M at hin ⊢
  generalize p.events cx fuel (items ++ rest) (pending ++ filters) β = inner at hin ⊢
  cases hs : stopsIn inner with
  | true =>
    -- nothing is known past the stop; the rows before it are among the matches
    have hle : Approx inner (if M = 0 then cont I p.filters rest (fun ν => {ν}) β else M) := by
      split
      · rename_i h0
        have hnil : rowsBefore inner = [] := by
          have hle := hin.le
          rw [h0, Multiset.le_zero] at hle
          simpa using hle
        exact Approx.of_stopped hs hnil _
      · exact hin
    split
    · exact hle
    · rename_i hno
      refine Approx.of_stopped (by rw [stopsIn_append, hs, Bool.true_or]) ?_ _
      rw [rowsBefore_append, hs, if_pos rfl, List.append_nil]
      by_contra hne
      exact hno (hasRow_of_rowsBefore hne)
  | false =>
    have hM := hin.eq hs
    cases hrow : hasRow inner with
    | true =>
      have hne : M ≠ 0 := by
        rw [← hM]
        simpa using (hasRow_iff hs).1 hrow
      rw [if_neg hne]
      exact hin
    | false =>
      have h0 : M = 0 := by
        rw [← hM]
        by_contra hne
        have : hasRow inner = true := (hasRow_iff hs).2 (by simpa using hne)
        rw [hrow] at this
        cases this
      simp only [Bool.false_eq_true, if_false]
      rw [if_pos h0]
      rw [h0] at hin
      simpa using hin.append hskip

theorem step_remove (ih : Computes p cx I fuel) {items rest : List Item} {filters : List Nat} {fresh : List Variable}
    (hall : ∀ x ∈ Item.optional .remove items filters fresh :: rest, x.isOptional = true)
    (hsize : itemsSize (.optional .remove items filters fresh :: rest) < fuel + 1)
    (hsimple : simpleItems (.optional .remove items filters fresh :: rest) = true)
    (hpend : filtersAt p.filters pending = [])
    (hr : Ready p.filters (filtersAt p.filters pending) (.optional .remove items filters fresh :: rest) {v | v ∈ β.keys}) :
    Approx (.probe (p.events cx fuel items (pending ++ filters) β) ::
        if hasRow (p.events cx fuel items (pending ++ filters) β) then [] else p.events cx fuel rest pending β)
      (meaning I p.filters (filtersAt p.filters pending) (.optional .remove items filters fresh :: rest) β) := by
  have hrest : ∀ x ∈ rest, x.isOptional = true := fun x hx => hall x (List.mem_cons_of_mem _ hx)
  have hadd : filtersAt p.filters (pending ++ filters) = filtersAt p.filters filters := by
    rw [filtersAt, List.filterMap_append, ← filtersAt, hpend]
    rfl
  rw [itemsSize, itemSize] at hsize
  simp only [simpleItems, simpleItem, Bool.and_eq_true] at hsimple
  have hin := ih items (pending ++ filters) β (by omega) hsimple.1 (by rw [hadd]; exact (ready_right hall hr).1)
  have hskip := ih rest pending β (by omega) hsimple.2
    ⟨by rw [hpend]; simp, hr.items.2.mono _ fun v hv => hv.elim .inl fun hc => absurd hc (certainIn_optionals hall v)⟩
  rw [hadd, meaning] at hin
  have hskip' : meaning I p.filters (filtersAt p.filters pending) rest β = cont I p.filters rest (fun ν => {ν}) β := by
    rw [meaning, found_nil hrest β hpend, Multiset.singleton_bind]
  have hmeaning : meaning I p.filters (filtersAt p.filters pending) (.optional .remove items filters fresh :: rest) β =
      if (found I (filtersAt p.filters filters) items β).bind (cont I p.filters items (fun ν => {ν})) = 0
      then cont I p.filters rest (fun ν => {ν}) β else 0 := by
    rw [meaning, found_nil hall β hpend, Multiset.singleton_bind, cont, contItem]
  rw [hskip'] at hskip
  rw [hmeaning]
  generalize (found I (filtersAt p.filters filters) items β).bind (cont I p.filters items (fun ν => {ν})) = M at hin ⊢
  generalize p.events cx fuel items (pending ++ filters) β = inner at hin ⊢
  have hprobe : ∀ {evs : List Event} {N : Multiset Solution}, (Event.probe inner).stops = false → Approx evs N →
      Approx (.probe inner :: evs) N := by
    intro evs N hs h
    refine ⟨by simpa [rowsBefore, Event.rows, hs] using h.le, fun hst => ?_⟩
    rw [stopsIn, hs, Bool.false_or] at hst
    simpa [rowsBefore, Event.rows, hs] using h.eq hst
  cases hrows : (rowsBefore inner).isEmpty with
  | false =>
    -- a row was completed, so there is a match, and nothing follows the probe
    have hne : rowsBefore inner ≠ [] := by simpa using hrows
    have hM : M ≠ 0 := by
      intro h0
      have hle := hin.le
      rw [h0, Multiset.le_zero] at hle
      exact hne (by simpa using hle)
    rw [if_neg hM, if_pos (hasRow_of_rowsBefore hne)]
    exact hprobe (by simp [Event.stops, hrows]) Approx.nil
  | true =>
    have hnil : rowsBefore inner = [] := by simpa using hrows
    cases hs : stopsIn inner with
    | true =>
      exact Approx.of_stopped (by simp [stopsIn, Event.stops, hs, hrows])
        (by simp [rowsBefore, Event.rows, Event.stops, hs, hrows]) _
    | false =>
      have h0 : M = 0 := by
        rw [← hin.eq hs, hnil]
        rfl
      have hno : hasRow inner = false := by
        by_contra hrow
        exact (hasRow_iff hs).1 (by simpa using hrow) hnil
      rw [if_pos h0, hno]
      exact hprobe (by simp [Event.stops, hs]) hskip

end Step

/-! ## Every order computes the meaning -/

theorem events_approx {p : Plan} {cx : Context} {I : Interpretation} (hf : Faithful p cx I) (fuel : Nat) :
    Computes p cx I fuel := by
  induction fuel with
  | zero => intro todo pending β hsize; omega
  | succ fuel ih =>
    intro todo pending β hsize hsimple hr
    rw [Plan.events]
    cases hset : p.settle cx.holds β pending with
    | none => exact (meaning_eq_zero (settle_none hf hset) todo).symm ▸ Approx.nil
    | some pending' =>
      obtain ⟨hsame, hun⟩ := settle_some hf hset
      rw [meaning_congr hsame]
      have hr' : Ready p.filters (filtersAt p.filters pending') todo {v | v ∈ β.keys} :=
        ⟨fun f hf' => hr.pending f (hun f hf').1, hr.items⟩
      simp only
      cases hch : choose cx.prefer todo β with
      | none =>
        obtain rfl := choose_none hch
        have hp := nothing_pending (by simp) hr' fun f hf' => (hun f hf').2
        rw [hp, meaning, found_nil (by simp) β rfl, Multiset.singleton_bind]
        exact Approx.row β
      | some next =>
        obtain ⟨item, rest⟩ := next
        obtain ⟨before, after, rfl, rfl, hopt⟩ := choose_some hch
        cases item with
        | pattern pattern => exact step_pattern hf ih hsize hsimple hr'
        | union branches => exact step_union ih hsize hsimple hr'
        | values values => exact step_values hf ih hsize hsimple hr'
        | closure closure => exact step_closure hf ih hsize hsimple hr'
        | optional mode items filters fresh =>
          obtain ⟨hall, rfl⟩ := hopt.resolve_left (by simp [Item.isOptional])
          have hp := nothing_pending hall hr' fun f hf' => (hun f hf').2
          cases mode with
          | extend => exact step_extend ih hall hsize hsimple hp hr'
          | remove => exact step_remove ih hall hsize hsimple hp hr'

end Holos.Engine.Bindjoin
