import Holos.Engine.Bindjoin.Meaning
import Mathlib.Algebra.BigOperators.Group.Finset.Basic
/-!
# One item, matched

What the nested loop binds for one item under the bindings it has is what those bindings
join with in the item's solutions: for a triple pattern through the scan its bound positions
select, for a `VALUES` row by row, for a closure by the walk from its bound end.
-/

namespace Holos.Engine.Bindjoin

open Sparql Lib

/-- The interpretation reads the quads of the store, and names terms as its dictionary does;
a term the dictionary has not seen is in no quad. -/
structure Names (store : Store) (I : Interpretation) : Prop where
  quads : I.quads = store.quads
  graphs : I.graphs = store.graphs
  known : ∀ t id, store.lookupTerm t = some id → I.intern t = id
  unknown : ∀ t, store.lookupTerm t = none → ∀ q ∈ store.quads,
    I.intern t ≠ q.subject ∧ I.intern t ≠ q.predicate ∧ I.intern t ≠ q.object ∧ some (I.intern t) ≠ q.graphName
  unnamed : ∀ t, store.lookupTerm t = none → I.intern t ∉ store.graphs

/-! ## Binding -/

def solutionOf (o : Option Bindings) : Multiset Bindings := o.elim 0 (fun β => {β})

theorem solutionOf_bind (o : Option Bindings) (f : Bindings → Option Bindings) :
    (solutionOf o).bind (fun β => solutionOf (f β)) = solutionOf (o.bind f) := by
  cases o with
  | none => exact Multiset.zero_bind _
  | some β => exact Multiset.singleton_bind _ _

theorem extend_variable (v : Variable) (id : TermId) (β : Bindings) :
    Mapping.extend β {Finmap.singleton v id} = solutionOf (bindVariable v id β) := by
  rw [Mapping.extend_singleton]
  unfold bindVariable
  cases hv : β.lookup v with
  | none =>
    have hc : Mapping.Compat β (Finmap.singleton v id) := by
      intro w hw hs
      rw [mem_keys_singleton] at hs
      subst hs
      rw [Mapping.mem_keys_iff, hv] at hw
      obtain ⟨x, hx⟩ := hw
      cases hx
    rw [if_pos hc, Mapping.union_comm hc]
    rfl
  | some x =>
    have hiff : Mapping.Compat β (Finmap.singleton v id) ↔ x = id := by
      constructor
      · intro hc
        exact Mapping.compat_iff.1 hc v x id hv Finmap.lookup_singleton_eq
      · rintro rfl
        intro w hw hs
        rw [mem_keys_singleton] at hs
        subst hs
        rw [hv, Finmap.lookup_singleton_eq]
    by_cases hx : x = id
    · rw [if_pos (hiff.2 hx)]
      have he : Mapping.Extends β (Finmap.singleton v id) := by
        intro w y hy
        have hw : w ∈ (Finmap.singleton v id : Bindings).keys := Mapping.mem_keys_iff.2 ⟨y, hy⟩
        rw [mem_keys_singleton] at hw
        subst hw
        rw [Finmap.lookup_singleton_eq] at hy
        rw [hv, hx, hy]
      rw [Mapping.union_comm (hiff.2 hx), Mapping.union_of_extends he]
      simp [solutionOf, hx]
    · rw [if_neg (mt hiff.1 hx)]
      simp [solutionOf, hx]

/-- A position that is a variable or a constant. -/
def simpleTerm : TermPattern → Bool
  | .var _ | .namedNode _ | .literal _ => true
  | .blankNode _ | .triple _ _ _ => false

/-- What a slot lets through. -/
def Slot.Admits : Slot → TermId → Prop
  | .fixed x, id => x = id
  | .any, _ => True
  | .missing, _ => False

section Positions
variable {view : DatasetView} {I : Interpretation} (hn : Names view.store I)
include hn

theorem lookup_admits {t : Term} {id : TermId} (hid : view.store.lookupTerm t = none → I.intern t ≠ id) :
    (lookup view t).Admits id ↔ I.intern t = id := by
  unfold lookup
  cases ht : view.store.lookupTerm t with
  | none => exact iff_of_false (fun h => h) (hid ht)
  | some x => rw [hn.known t x ht]; rfl

/-- A position the slot admits binds as `bindTerm` does, whatever has been bound since. -/
theorem extend_term {t : TermPattern} (ht : simpleTerm t = true) {id : TermId} {β : Bindings}
    (hid : slot view β t = .missing → ∀ c, view.store.lookupTerm c = none → I.intern c ≠ id)
    (ha : (slot view β t).Admits id) (β' : Bindings) : Mapping.extend β' (I.termSolutions t id) = solutionOf (bindTerm t id β') := by
  have hconst : ∀ c, I.intern c = id →
      Mapping.extend β' (if I.intern c = id then {∅} else 0 : Multiset Solution) = {β'} := by
    intro c hc
    rw [if_pos hc, Mapping.extend_singleton, if_pos (Mapping.compat_comm.1 (Mapping.compat_empty β')),
      Finmap.union_empty]
  cases t with
  | var v => exact extend_variable v id β'
  | namedNode n => exact hconst _ ((lookup_admits hn fun h => hid (by simp [slot, lookup, h]) _ h).1 ha)
  | literal l => exact hconst _ ((lookup_admits hn fun h => hid (by simp [slot, lookup, h]) _ h).1 ha)
  | blankNode label => cases ht
  | triple s p o => cases ht

theorem extend_term_zero {t : TermPattern} (ht : simpleTerm t = true) {id : TermId} {β : Bindings}
    (hid : slot view β t = .missing → ∀ c, view.store.lookupTerm c = none → I.intern c ≠ id)
    (ha : ¬ (slot view β t).Admits id) :
    Mapping.extend β (I.termSolutions t id) = 0 := by
  have hconst : ∀ c, I.intern c ≠ id → Mapping.extend β (if I.intern c = id then {∅} else 0 : Multiset Solution) = 0 := by
    intro c hc
    rw [if_neg hc, Mapping.extend_zero]
  cases t with
  | var v =>
    have hv : Mapping.extend β (I.termSolutions (.var v) id) = solutionOf (bindVariable v id β) := extend_variable v id β
    rw [hv]
    simp only [slot] at ha
    unfold bindVariable
    cases hl : β.lookup v with
    | none => rw [hl] at ha; exact absurd trivial ha
    | some x =>
      rw [hl] at ha
      have hne : ¬ x = id := ha
      simp [solutionOf, hne]
  | namedNode n => exact hconst _ (mt (lookup_admits hn fun h => hid (by simp [slot, lookup, h]) _ h).2 ha)
  | literal l => exact hconst _ (mt (lookup_admits hn fun h => hid (by simp [slot, lookup, h]) _ h).2 ha)
  | blankNode label => cases ht
  | triple s p o => cases ht

theorem extend_predicate {t : NamedNodePattern} {id : TermId}
    (hid : ∀ c, view.store.lookupTerm c = none → I.intern c ≠ id) {β : Bindings}
    (ha : (predicateSlot view β t).Admits id) (β' : Bindings) :
    Mapping.extend β' (I.predicateSolutions t id) = solutionOf (bindPredicate t id β') := by
  cases t with
  | var v => exact extend_variable v id β'
  | namedNode n =>
    exact extend_term hn (t := .namedNode n) (β := β) rfl (fun _ => hid) ha β'

theorem extend_predicate_zero {t : NamedNodePattern} {id : TermId}
    (hid : ∀ c, view.store.lookupTerm c = none → I.intern c ≠ id) {β : Bindings}
    (ha : ¬ (predicateSlot view β t).Admits id) : Mapping.extend β (I.predicateSolutions t id) = 0 := by
  cases t with
  | var v => exact extend_term_zero hn (t := .var v) rfl (fun _ => hid) ha
  | namedNode n => exact extend_term_zero hn (t := .namedNode n) rfl (fun _ => hid) ha

/-- The graph of a quad is one the graph slot admits. -/
def GraphAdmits (view : DatasetView) (β : Bindings) (scope : Scope) (q : EncodedQuad) : Prop :=
  ∃ graph, graphSlot view β scope = some graph ∧ Index.GraphFilter.admits (graphFilter graph) q = true

theorem extend_scope {scope : Scope} {q : EncodedQuad} {β : Bindings} (ha : GraphAdmits view β scope q) (β' : Bindings) :
    Mapping.extend β' (scopeSolutions I scope q.graphName) = solutionOf (bindGraph scope q.graphName β') := by
  have hunit : Mapping.extend β' ({∅} : Multiset Solution) = {β'} := by
    rw [Mapping.extend_singleton, if_pos (Mapping.compat_comm.1 (Mapping.compat_empty β')), Finmap.union_empty]
  obtain ⟨graph, hg, ha⟩ := ha
  cases scope with
  | default =>
    cases hg
    have hq : q.graphName = none := by simpa [graphFilter, Index.GraphFilter.admits] using ha
    rw [hq]
    exact hunit
  | named g =>
    simp only [graphSlot] at hg
    unfold lookup at hg
    cases hl : view.store.lookupTerm (.namedNode g) with
    | none => rw [hl] at hg; cases hg
    | some n =>
      rw [hl] at hg
      cases hg
      have hq : q.graphName = some n := by simpa [graphFilter, Index.GraphFilter.admits] using ha
      simp only [hq, scopeSolutions, hn.known _ n hl, if_true]
      exact hunit
  | var v =>
    cases hq : q.graphName with
    | none => simp [scopeSolutions, bindGraph, solutionOf]
    | some n => exact extend_variable v n β'

theorem extend_scope_zero {scope : Scope} {q : EncodedQuad} (hq : q ∈ view.store.quads) {β : Bindings}
    (ha : ¬ GraphAdmits view β scope q) : Mapping.extend β (scopeSolutions I scope q.graphName) = 0 := by
  have hno : ∀ graph, graphSlot view β scope = some graph → Index.GraphFilter.admits (graphFilter graph) q = false := by
    intro graph hg
    by_contra h
    exact ha ⟨graph, hg, by simpa using h⟩
  cases hgn : q.graphName with
  | none =>
    cases scope with
    | default => simpa [graphFilter, Index.GraphFilter.admits, hgn] using hno (some none) rfl
    | named g => simp [scopeSolutions]
    | var v => simp [scopeSolutions]
  | some n =>
    cases scope with
    | default => simp [scopeSolutions]
    | named g =>
      have hne : I.intern (.namedNode g) ≠ n := by
        cases hl : view.store.lookupTerm (.namedNode g) with
        | none =>
          intro e
          exact (hn.unknown _ hl q hq).2.2.2 (by rw [e, hgn])
        | some m =>
          have := hno (some (some m)) (by simp [graphSlot, lookup, hl])
          rw [hn.known _ m hl]
          intro e
          simp [graphFilter, Index.GraphFilter.admits, hgn, e] at this
      simp [scopeSolutions, hne]
    | var v =>
      rw [show scopeSolutions I (.var v) (some n) = {Finmap.singleton v n} from rfl, extend_variable]
      unfold bindVariable
      cases hv : β.lookup v with
      | none =>
        have := hno none (by simp [graphSlot, hv])
        simp [graphFilter, Index.GraphFilter.admits, hgn] at this
      | some m =>
        have := hno (some (some m)) (by simp [graphSlot, hv])
        have hne : ¬ m = n := by
          intro e
          simp [graphFilter, Index.GraphFilter.admits, hgn, e] at this
        simp [solutionOf, hne]

/-! ## Quads -/

/-- Every position of the pattern admits the quad, under what is bound in `β`. -/
structure QuadAdmits (view : DatasetView) (β : Bindings) (pattern : PatternItem) (q : EncodedQuad) : Prop where
  graph : GraphAdmits view β pattern.scope q
  subject : (slot view β pattern.triple.subject).Admits q.subject
  predicate : (predicateSlot view β pattern.triple.predicate).Admits q.predicate
  object : (slot view β pattern.triple.object).Admits q.object

def simplePattern (p : PatternItem) : Bool := simpleTerm p.triple.subject && simpleTerm p.triple.object

omit hn in
theorem extend_join_bind (β : Bindings) (M N : Multiset Solution) :
    Mapping.extend β (Mapping.join M N) = (Mapping.extend β M).bind (fun β => Mapping.extend β N) :=
  Mapping.extend_join β M N

theorem extend_quad {pattern : PatternItem} (hp : simplePattern pattern = true) {q : EncodedQuad}
    (hq : q ∈ view.store.quads) {β : Bindings} (ha : QuadAdmits view β pattern q) :
    Mapping.extend β (Mapping.join (scopeSolutions I pattern.scope q.graphName) (I.quadSolutions pattern.triple q)) =
      solutionOf (bindQuad pattern q β) := by
  obtain ⟨hs, ho⟩ : simpleTerm pattern.triple.subject = true ∧ simpleTerm pattern.triple.object = true := by
    simpa [simplePattern] using hp
  simp only [Interpretation.quadSolutions, extend_join_bind,
    extend_scope hn ha.graph, extend_term hn hs (fun _ c hc => (hn.unknown c hc q hq).1) ha.subject,
    extend_predicate hn (fun c hc => (hn.unknown c hc q hq).2.1) ha.predicate,
    extend_term hn ho (fun _ c hc => (hn.unknown c hc q hq).2.2.1) ha.object, solutionOf_bind]
  rfl

theorem extend_quad_zero {pattern : PatternItem} (hp : simplePattern pattern = true) {q : EncodedQuad}
    (hq : q ∈ view.store.quads) {β : Bindings} (ha : ¬ QuadAdmits view β pattern q) :
    Mapping.extend β (Mapping.join (scopeSolutions I pattern.scope q.graphName) (I.quadSolutions pattern.triple q)) = 0 := by
  obtain ⟨hs, ho⟩ : simpleTerm pattern.triple.subject = true ∧ simpleTerm pattern.triple.object = true := by
    simpa [simplePattern] using hp
  have hleft : ∀ M N : Multiset Solution, Mapping.extend β M = 0 → Mapping.extend β (Mapping.join M N) = 0 := by
    intro M N h
    rw [extend_join_bind, h, Multiset.zero_bind]
  have hright : ∀ M N : Multiset Solution, Mapping.extend β N = 0 → Mapping.extend β (Mapping.join M N) = 0 := by
    intro M N h
    rw [Mapping.join_comm]
    exact hleft N M h
  by_cases hg : GraphAdmits view β pattern.scope q
  · by_cases h1 : (slot view β pattern.triple.subject).Admits q.subject
    · by_cases h2 : (predicateSlot view β pattern.triple.predicate).Admits q.predicate
      · have h3 : ¬ (slot view β pattern.triple.object).Admits q.object := fun h3 => ha ⟨hg, h1, h2, h3⟩
        exact hright _ _ (hright _ _ (hright _ _ (extend_term_zero hn ho (fun _ c hc => (hn.unknown c hc q hq).2.2.1) h3)))
      · exact hright _ _ (hright _ _ (hleft _ _ (extend_predicate_zero hn (fun c hc => (hn.unknown c hc q hq).2.1) h2)))
    · exact hright _ _ (hleft _ _ (extend_term_zero hn hs (fun _ c hc => (hn.unknown c hc q hq).1) h1))
  · exact hleft _ _ (extend_scope_zero hn hq hg)

end Positions

/-! ## Scans -/

section Scans
variable {view : DatasetView} (ho : view.policy = .permitAll)
include ho

theorem decide_permitAll (q : EncodedQuad) : view.decide q = some (.ok q) := by
  unfold DatasetView.decide
  rw [ho]
  cases hg : q.graphName <;> simp [Security.CompiledPolicy.decideQuad, Security.CompiledPolicy.permitAll,
    Security.CompiledPolicy.cleared, Security.CompiledPolicy.slots, Security.CompiledPolicy.consider, hg]

theorem deniedGraph_permitAll (graph : GraphFilter) : view.deniedGraph graph = none := by
  cases graph <;> simp [DatasetView.deniedGraph, Security.CompiledPolicy.graphIsWhollyDenied, ho,
    Security.CompiledPolicy.permitAll, Security.CompiledPolicy.cleared]

theorem filterMap_decide (quads : List EncodedQuad) : quads.filterMap view.decide = quads.map .ok := by
  rw [show view.decide = fun q => some (.ok q) from funext (decide_permitAll ho), List.filterMap_eq_map']

theorem scan_permitAll (s p o : Option TermId) (graph : Option (Option TermId)) :
    view.internalQuadsForPattern s p o graph = (view.store.quadsForPattern s p o (graphFilter graph)).map .ok := by
  unfold DatasetView.internalQuadsForPattern
  simp only [deniedGraph_permitAll ho, filterMap_decide ho]
  rcases graph with _ | _ | g <;> rfl

theorem scanIn_permitAll (s p : Option TermId) (span : IdRange) (graph : GraphFilter) :
    view.quadsWithObjectIn s p span graph = (view.store.quadsWithObjectIn s p span graph).map .ok := by
  unfold DatasetView.quadsWithObjectIn
  simp only [deniedGraph_permitAll ho, filterMap_decide ho]

end Scans

theorem Slot.admits_iff {slot : Slot} {b : Option TermId} (h : slot.bound = some b) (id : TermId) :
    slot.Admits id ↔ b.all (· = id) = true := by
  cases slot with
  | fixed x => cases h; simp [Slot.Admits]
  | any => cases h; simp [Slot.Admits]
  | missing => cases h

/-- A quad the spans of a pending comparison leave out. -/
def Outside (p : Plan) (store : Store) (pattern : PatternItem) (pending : List Nat) (β : Bindings) (q : EncodedQuad) :
    Prop :=
  ∃ v, pattern.triple.object = .var v ∧ β.lookup v = none ∧ ∃ f ∈ filtersAt p.filters pending, ∃ c ss,
    f.bounds = some c ∧ c.var = v ∧ Range.spans store c = some ss ∧ ∀ span ∈ ss, span.contains q.object = false

/-- The quads a pattern is probed with: each that its positions admit, once, but for those
outside the spans. -/
structure Scanned (p : Plan) (view : DatasetView) (pattern : PatternItem) (pending : List Nat) (β : Bindings)
    (quads : List EncodedQuad) : Prop where
  nodup : quads.Nodup
  sound : ∀ q ∈ quads, q ∈ view.store.quads ∧ QuadAdmits view β pattern q
  complete : ∀ q ∈ view.store.quads, QuadAdmits view β pattern q → q ∉ quads →
    Outside p view.store pattern pending β q

theorem spansFor_some {p : Plan} {view : DatasetView} {pattern : PatternItem} {object : Option TermId} {pending : List Nat}
    {β : Bindings} {spanPredicate : Option TermId} {ss : List IdRange}
    (h : p.spansFor view pattern object pending β = some (spanPredicate, ss)) :
    object = none ∧ (predicateSlot view β pattern.triple.predicate).bound = some spanPredicate ∧
      ∃ v, pattern.triple.object = .var v ∧ β.lookup v = none ∧ ∃ f ∈ filtersAt p.filters pending, ∃ c,
        f.bounds = some c ∧ c.var = v ∧ Range.spans view.store c = some ss := by
  unfold Plan.spansFor at h
  split at h
  · rename_i v hv
    split at h
    · cases h
    · rename_i hnone
      simp only [Bool.or_eq_true, not_or, Bool.not_eq_true, Option.isSome_eq_false_iff, Option.isNone_iff_eq_none] at hnone
      simp only [Option.bind_eq_bind, Option.bind_eq_some_iff] at h
      obtain ⟨c, hc, ss', hss, h⟩ := h
      obtain ⟨i, hi, hf⟩ := List.exists_of_findSome?_eq_some hc
      simp only [Option.bind_eq_some_iff] at hf
      obtain ⟨f, hfi, b, hb, hbv⟩ := hf
      split at hbv
      · rename_i hvar
        cases hbv
        have hpred : ss' = ss ∧ (predicateSlot view β pattern.triple.predicate).bound = some spanPredicate := by
          cases hp : pattern.triple.predicate with
          | namedNode n =>
            simp only [hp] at h
            simp only [predicateSlot]
            cases hl : lookup view (.namedNode n) <;> rw [hl] at h <;> cases h <;> exact ⟨rfl, rfl⟩
          | var w =>
            simp only [hp] at h
            cases h
            refine ⟨rfl, ?_⟩
            simp only [predicateSlot]
            cases β.lookup w <;> rfl
        obtain ⟨rfl, hpred⟩ := hpred
        exact ⟨hnone.2, hpred, v, hv, hnone.1, f, List.mem_filterMap.2 ⟨i, hi, hfi⟩, c, hb, hvar, hss⟩
      · cases hbv
  · cases h

theorem resolve_eq_some {view : DatasetView} {triple : TriplePattern} {β : Bindings} {s p o : Option TermId}
    (h : resolve view triple β = some (s, p, o)) :
    (slot view β triple.subject).bound = some s ∧ (predicateSlot view β triple.predicate).bound = some p ∧
      (slot view β triple.object).bound = some o := by
  simp only [resolve, Option.bind_eq_bind, Option.bind_eq_some_iff, Option.pure_def, Option.some.injEq,
    Prod.mk.injEq] at h
  obtain ⟨a, ha, b, hb, c, hc, rfl, rfl, rfl⟩ := h
  exact ⟨ha, hb, hc⟩

theorem quadAdmits_iff {view : DatasetView} {pattern : PatternItem} {β : Bindings} {s p o : Option TermId}
    {graph : Option (Option TermId)} (h : resolve view pattern.triple β = some (s, p, o))
    (hg : graphSlot view β pattern.scope = some graph) (q : EncodedQuad) :
    QuadAdmits view β pattern q ↔
      Index.matchesTriple s p o q = true ∧ Index.GraphFilter.admits (graphFilter graph) q = true := by
  obtain ⟨hs, hp, hobj⟩ := resolve_eq_some h
  simp only [Index.matchesTriple, Bool.and_eq_true, ← Slot.admits_iff hs, ← Slot.admits_iff hp, ← Slot.admits_iff hobj]
  constructor
  · rintro ⟨⟨graph', hg', ha⟩, h1, h2, h3⟩
    rw [hg] at hg'
    cases hg'
    exact ⟨⟨⟨h1, h2⟩, h3⟩, ha⟩
  · rintro ⟨⟨⟨h1, h2⟩, h3⟩, ha⟩
    exact ⟨⟨graph, hg, ha⟩, h1, h2, h3⟩

theorem scan_spec {p : Plan} {view : DatasetView} (ho : view.policy = .permitAll) {pattern : PatternItem} {β : Bindings}
    {s pr o : Option TermId} {graph : Option (Option TermId)} (h : resolve view pattern.triple β = some (s, pr, o))
    (hg : graphSlot view β pattern.scope = some graph) (pending : List Nat) :
    ∃ quads, p.scan view pattern s pr o graph pending β = quads.map .ok ∧ Scanned p view pattern pending β quads := by
  unfold Plan.scan
  cases hsp : p.spansFor view pattern o pending β with
  | none =>
    refine ⟨_, scan_permitAll ho s pr o graph, view.store.quadsForPattern_nodup _ _ _ _, fun q hq => ?_, fun q hq ha hno => ?_⟩
    · obtain ⟨hm, hmatch⟩ := (view.store.mem_quadsForPattern _ _ _ _ q).1 hq
      exact ⟨hm, (quadAdmits_iff h hg q).2 hmatch⟩
    · exact absurd ((view.store.mem_quadsForPattern _ _ _ _ q).2 ⟨hq, (quadAdmits_iff h hg q).1 ha⟩) hno
  | some answer =>
    obtain ⟨spanPredicate, ss⟩ := answer
    obtain ⟨rfl, hpred, v, hv, hb, f, hf, c, hc, hcv, hss⟩ := spansFor_some hsp
    obtain rfl : pr = spanPredicate := Option.some.inj ((resolve_eq_some h).2.1.symm.trans hpred)
    have hmem : ∀ q, q ∈ ss.flatMap (fun span => view.store.quadsWithObjectIn s pr span (graphFilter graph)) ↔
        q ∈ view.store.quads ∧ QuadAdmits view β pattern q ∧ ∃ span ∈ ss, span.contains q.object = true := by
      intro q
      simp only [List.mem_flatMap, view.store.mem_quadsWithObjectIn, quadAdmits_iff h hg q]
      constructor
      · rintro ⟨span, hs, hq, h1, h2, h3⟩
        exact ⟨hq, ⟨h1, h3⟩, span, hs, h2⟩
      · rintro ⟨hq, ⟨h1, h3⟩, span, hs, h2⟩
        exact ⟨span, hs, hq, h1, h2, h3⟩
    refine ⟨ss.flatMap (fun span => view.store.quadsWithObjectIn s pr span (graphFilter graph)), ?_, ?_, fun q hq => ?_,
      fun q hq ha hno => ?_⟩
    · simp only [scanIn_permitAll ho, List.map_flatMap]
    · -- the spans are disjoint, so no quad is read twice
      refine List.nodup_flatMap.2 ⟨fun span _ => view.store.quadsWithObjectIn_nodup _ _ _ _, ?_⟩
      refine (Range.spans_apart hss).imp fun {a b} hab q hqa hqb => ?_
      exact hab q.object ⟨((view.store.mem_quadsWithObjectIn _ _ _ _ q).1 hqa).2.2.1,
        ((view.store.mem_quadsWithObjectIn _ _ _ _ q).1 hqb).2.2.1⟩
    · exact ⟨((hmem q).1 hq).1, ((hmem q).1 hq).2.1⟩
    · refine ⟨v, hv, hb, f, hf, c, ss, hc, hcv, hss, fun span hs => ?_⟩
      by_contra hin
      exact hno ((hmem q).2 ⟨hq, ha, span, hs, by simpa using hin⟩)

theorem candidates_spec {p : Plan} {view : DatasetView} (ho : view.policy = .permitAll) (pattern : PatternItem)
    (pending : List Nat) (β : Bindings) :
    ∃ quads, p.candidates view pattern pending β = quads.map (fun q => .ofOption (bindQuad pattern q β)) ∧
      Scanned p view pattern pending β quads := by
  unfold Plan.candidates
  have hempty : (∀ q, ¬ QuadAdmits view β pattern q) → Scanned p view pattern pending β [] := fun hno =>
    ⟨List.nodup_nil, by simp, fun q _ ha => absurd ha (hno q)⟩
  cases hr : resolve view pattern.triple β with
  | none =>
    refine ⟨[], rfl, hempty fun q ha => ?_⟩
    have hbound : ∀ {slot : Slot} {id}, slot.Admits id → ∃ b, slot.bound = some b := by
      intro slot id hadm
      cases slot with
      | missing => exact hadm.elim
      | _ => exact ⟨_, rfl⟩
    obtain ⟨s, hs⟩ := hbound ha.subject
    obtain ⟨pr, hp⟩ := hbound ha.predicate
    obtain ⟨o, hobj⟩ := hbound ha.object
    simp [resolve, hs, hp, hobj] at hr
  | some spo =>
    obtain ⟨s, pr, o⟩ := spo
    cases hg : graphSlot view β pattern.scope with
    | none =>
      refine ⟨[], rfl, hempty fun q ha => ?_⟩
      obtain ⟨graph, hg', -⟩ := ha.graph
      rw [hg] at hg'
      cases hg'
    | some graph =>
      obtain ⟨quads, hscan, hspec⟩ := scan_spec ho hr hg pending (p := p)
      refine ⟨quads, ?_, hspec⟩
      simp only [hscan, List.map_map]
      rfl

/-! ## A pattern -/

def Attempt.solutions : Attempt → Multiset Bindings
  | .bound β => {β}
  | _ => 0

theorem solutions_ofOption (o : Option Bindings) : (Attempt.ofOption o).solutions = solutionOf o := by cases o <;> rfl

theorem lookup_bindVariable {v : Variable} {id : TermId} {β β' : Bindings} (h : bindVariable v id β = some β') :
    β'.lookup v = some id := by
  unfold bindVariable at h
  split at h
  · rename_i x hx
    split at h
    · rename_i e
      cases h
      rw [hx, e]
    · cases h
  · cases h
    exact Finmap.lookup_insert β

theorem lookup_bindQuad {pattern : PatternItem} {q : EncodedQuad} {β β' : Bindings} {v : Variable}
    (hv : pattern.triple.object = .var v) (h : bindQuad pattern q β = some β') : β'.lookup v = some q.object := by
  simp only [bindQuad, Option.bind_eq_bind, Option.bind_eq_some_iff] at h
  obtain ⟨_, -, _, -, β₃, -, h⟩ := h
  rw [hv] at h
  exact lookup_bindVariable h

/-- Elements of a finite set that contribute nothing can be left out of a bind over it. -/
theorem bind_eq_of_list {α β : Type} [DecidableEq α] {Q : Finset α} {l : List α} {h : α → Multiset β} (hl : l.Nodup)
    (hsub : ∀ a ∈ l, a ∈ Q) (hzero : ∀ a ∈ Q, a ∉ l → h a = 0) : Q.val.bind h = (l : Multiset α).bind h := by
  have hs : ∑ a ∈ l.toFinset, h a = ∑ a ∈ Q, h a :=
    Finset.sum_subset (fun a ha => hsub a (List.mem_toFinset.1 ha)) fun a ha hn =>
      hzero a ha fun hm => hn (List.mem_toFinset.2 hm)
  have hval : l.toFinset.val = (l : Multiset α) := by rw [List.toFinset_val, hl.dedup]
  calc Q.val.bind h = ∑ a ∈ Q, h a := rfl
    _ = ∑ a ∈ l.toFinset, h a := hs.symm
    _ = l.toFinset.val.bind h := rfl
    _ = (l : Multiset α).bind h := by rw [hval]

/-- The candidates of a pattern are its solutions under the bindings, but for what a pending
comparison rules out anyway. -/
theorem pattern_step {p : Plan} {view : DatasetView} {I : Interpretation} (hn : Names view.store I)
    (ho : view.policy = .permitAll) {pattern : PatternItem} (hp : simplePattern pattern = true) (pending : List Nat)
    (β : Bindings) (g : Bindings → Multiset Solution)
    (hg : ∀ β', Mapping.Extends β' β → ∀ f ∈ filtersAt p.filters pending, ∀ c ss id, f.bounds = some c →
      Range.spans view.store c = some ss → β'.lookup c.var = some id →
      (∀ span ∈ ss, span.contains id = false) → g β' = 0) :
    (Mapping.extend β (patternSolutions I pattern)).bind g =
      (p.candidates view pattern pending β : Multiset Attempt).bind (fun a => a.solutions.bind g) := by
  obtain ⟨quads, hc, hscan⟩ := candidates_spec ho pattern pending β (p := p)
  rw [hc, patternSolutions, Mapping.extend_bind, Multiset.bind_assoc, hn.quads,
    bind_eq_of_list hscan.nodup (fun q hq => (hscan.sound q hq).1), ← Multiset.map_coe, Multiset.bind_map]
  · refine Multiset.bind_congr fun q hq => ?_
    obtain ⟨hm, ha⟩ := hscan.sound q hq
    rw [extend_quad hn hp hm ha, solutions_ofOption]
  · intro q hq hno
    by_cases ha : QuadAdmits view β pattern q
    · obtain ⟨v, hv, -, f, hf, c, ss, hfc, rfl, hss, hout⟩ := hscan.complete q hq ha hno
      have hquad := extend_quad hn hp hq ha
      rw [hquad]
      cases hb : bindQuad pattern q β with
      | none => exact Multiset.zero_bind g
      | some β' =>
        have hext : Mapping.Extends β' β := by
          refine Mapping.extends_of_mem_extend (M := Mapping.join (scopeSolutions I pattern.scope q.graphName)
            (I.quadSolutions pattern.triple q)) ?_
          rw [hquad, hb]
          exact Multiset.mem_singleton_self β'
        have hzero := hg β' hext f hf c ss q.object hfc hss (lookup_bindQuad hv hb) hout
        exact (Multiset.singleton_bind β' g).trans hzero
    · rw [extend_quad_zero hn hp hq ha, Multiset.zero_bind]

/-! ## A row of a `VALUES` -/

/-- A row binds what it joins to, or has a term the dictionary does not know. -/
theorem row_step {view : DatasetView} {I : Interpretation} (hn : Names view.store I)
    (row : List (Variable × Option GroundTerm)) (β : Bindings) :
    bindRow view row β = .missing ∨
      (bindRow view row β).solutions = Mapping.extend β (I.rowSolutions row) ∧ ∀ e, bindRow view row β ≠ .fail e := by
  induction row generalizing β with
  | nil =>
    refine .inr ⟨?_, by simp [bindRow]⟩
    simp only [bindRow, Interpretation.rowSolutions, Attempt.solutions]
    rw [Mapping.extend_singleton, if_pos (Mapping.compat_comm.1 (Mapping.compat_empty β)), Finmap.union_empty]
  | cons cell row ih =>
    obtain ⟨v, term⟩ := cell
    cases term with
    | none => exact ih β
    | some term =>
      simp only [bindRow, lookup]
      cases hl : view.store.lookupTerm term.toTerm with
      | none => exact .inl rfl
      | some id =>
        simp only [Interpretation.rowSolutions, hn.known _ id hl, extend_join_bind, extend_variable]
        cases hb : bindVariable v id β with
        | none => exact .inr ⟨by simp [solutionOf, Attempt.solutions], by simp⟩
        | some β' => simpa [solutionOf] using ih β'

end Holos.Engine.Bindjoin
