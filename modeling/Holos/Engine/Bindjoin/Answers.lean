import Holos.Engine.Bindjoin.Rows
/-!
# The answers of a plan

What `evaluate` returns against the query's own meaning. `answers` is the one theorem about
every query the planner accepts: under the conditions hoisting needs, no closure straying from
one graph and no probe remembered, the rows are an answer to the query. What each operator
needs of them, and where the conditions fail, follows.
-/

namespace Holos.Engine.Bindjoin

open Sparql Lib

/-! ## Wrappers -/

/-- The pattern under a query's wrappers. -/
def whereOf : GraphPattern → GraphPattern
  | .distinct inner => whereOf inner
  | .slice inner _ _ => whereOf inner
  | .project inner _ => inner
  | pattern => pattern

section Wrappers
variable {converts : Expression → Bool} {p : Plan} {I : Interpretation}

theorem finish_eq_some {items : List Item} {filters : List Filter} {bound : Bound} {vars : List Variable} {distinct : Bool}
    {offset : Nat} {limit : Option Nat} (h : finish items filters bound vars distinct offset limit = some p) :
    p = ⟨items, filters, vars, distinct, offset, limit⟩ := by
  unfold finish at h
  split_ifs at h
  cases h
  rfl

theorem peel_collect {pattern : GraphPattern} {distinct : Bool} {offset : Nat} {limit : Option Nat}
    (h : peel converts distinct offset limit pattern = some p) :
    ∃ bound, collect converts (whereOf pattern) .default [] [] = some (bound, p.items, p.filters) := by
  induction pattern generalizing distinct offset limit with
  | distinct inner ih => exact ih h
  | slice inner start length ih =>
    rw [peel] at h
    split_ifs at h
    exact ih h
  | project inner vars ih =>
    simp only [peel, Option.bind_eq_bind, Option.bind_eq_some_iff] at h
    obtain ⟨⟨bound, items, filters⟩, hc, h⟩ := h
    obtain rfl := finish_eq_some h
    exact ⟨bound, hc⟩
  | _ => simp [peel] at h

theorem project_restrict (μ : Solution) : p.project (Mapping.restrict p.vars μ) = p.project μ := by
  unfold Plan.project
  refine List.map_congr_left fun v hv => ?_
  rw [Mapping.lookup_restrict, if_pos hv]

/-- A row determines the solution it was projected from, if that binds nothing else. -/
theorem project_injective {μ ν : Solution} (hμ : Mapping.restrict p.vars μ = μ) (hν : Mapping.restrict p.vars ν = ν)
    (h : p.project μ = p.project ν) : μ = ν := by
  rw [← hμ, ← hν]
  refine Finmap.ext_lookup fun v => ?_
  rw [Mapping.lookup_restrict, Mapping.lookup_restrict]
  split
  · rename_i hv
    exact List.map_inj_left.1 h v hv
  · rfl

theorem dedup_map_project {N : Multiset Solution} (h : ∀ μ ∈ N, Mapping.restrict p.vars μ = μ) :
    N.dedup.map p.project = (N.map p.project).dedup := by
  have hinj : (N.dedup.map p.project).Nodup :=
    Multiset.Nodup.map_on (fun μ hμ ν hν he => project_injective (h μ (Multiset.mem_dedup.1 hμ)) (h ν (Multiset.mem_dedup.1 hν)) he)
      (Multiset.nodup_dedup N)
  rw [Multiset.Nodup.ext hinj (Multiset.nodup_dedup _)]
  intro row
  simp only [Multiset.mem_map, Multiset.mem_dedup]

/-- The rows of the pattern under the wrappers. -/
noncomputable def Plan.allRows (p : Plan) (I : Interpretation) (pattern : GraphPattern) : Multiset Row :=
  (I.eval none (whereOf pattern)).map p.project

/-- Below the slice: an answer, and what the plan makes of it. -/
theorem peel_unsliced {pattern : GraphPattern} {distinct : Bool} {offset : Nat} {limit : Option Nat}
    (h : peel converts distinct offset limit pattern = some p)
    (hns : distinct = true ∨ offset ≠ 0 ∨ limit ≠ none ∨ ∀ inner start length, pattern ≠ .slice inner start length) :
    p.offset = offset ∧ p.limit = limit ∧ (distinct = true → p.distinct = true) ∧
      ∃ N, I.Answer pattern N ∧ (∀ μ ∈ N, Mapping.restrict p.vars μ = μ) ∧
        N.dedup.map p.project = (p.allRows I pattern).dedup ∧
        (p.distinct = false → N.map p.project = p.allRows I pattern) ∧
        (distinct = false → p.distinct = true → N.map p.project = (p.allRows I pattern).dedup) := by
  induction pattern generalizing distinct offset limit with
  | distinct inner ih =>
    obtain ⟨ho, hl, hd, N, hN, hr, h1, -, -⟩ := ih h (.inl rfl)
    refine ⟨ho, hl, fun _ => hd rfl, N.dedup, ⟨N, hN, rfl⟩, fun μ hμ => hr μ (Multiset.mem_dedup.1 hμ), ?_, ?_, ?_⟩
    · rw [Multiset.dedup_idem]
      exact h1
    · intro hf
      rw [hd rfl] at hf
      cases hf
    · intro _ _
      exact h1
  | slice inner start length ih =>
    rw [peel] at h
    split_ifs at h with h1 h2
    rcases hns with hd | ho | hl | hno
    · exact absurd hd h2
    · exact absurd (.inl ho) h1
    · exact absurd (.inr (Option.isSome_iff_ne_none.2 hl)) h1
    · exact absurd rfl (hno inner start length)
  | project inner vars ih =>
    simp only [peel, Option.bind_eq_bind, Option.bind_eq_some_iff] at h
    obtain ⟨⟨bound, items, filters⟩, hc, h⟩ := h
    obtain rfl := finish_eq_some h
    have hrestrict : ∀ μ ∈ (I.eval none inner).map (Mapping.restrict vars), Mapping.restrict vars μ = μ := by
      intro μ hμ
      obtain ⟨ρ, -, rfl⟩ := Multiset.mem_map.1 hμ
      exact Mapping.restrict_eq_self fun v hv => (Mapping.mem_keys_restrict.1 hv).1
    have hrows : ((I.eval none inner).map (Mapping.restrict vars)).map
        (Plan.project ⟨items, filters, vars, distinct, offset, limit⟩) =
        Plan.allRows ⟨items, filters, vars, distinct, offset, limit⟩ I (.project inner vars) := by
      rw [Multiset.map_map]
      exact Multiset.map_congr rfl fun μ _ => project_restrict (p := ⟨items, filters, vars, distinct, offset, limit⟩) μ
    have hanswer : I.Answer (.project inner vars) ((I.eval none inner).map (Mapping.restrict vars)) := by
      change _ = I.eval none (.project inner vars)
      rw [Interpretation.eval]
    refine ⟨rfl, rfl, fun hd => hd, _, hanswer, hrestrict, ?_, fun _ => hrows, fun hd hd' => ?_⟩
    · rw [dedup_map_project (p := ⟨items, filters, vars, distinct, offset, limit⟩) hrestrict, hrows]
    · rw [hd] at hd'
      cases hd'
  | _ => simp [peel] at h

/-- A part of a projection is a projection of a part. -/
theorem exists_le_map {α β : Type} {f : α → β} {N : Multiset α} {rows : Multiset β} (h : rows ≤ N.map f) :
    ∃ M ≤ N, M.map f = rows := by
  induction N using Quotient.inductionOn with
  | h l =>
    induction rows using Quotient.inductionOn with
    | h rs =>
      obtain ⟨rs', hp, hs⟩ := Multiset.coe_le.1 h
      obtain ⟨l', hl', rfl⟩ := List.sublist_map_iff.1 hs
      exact ⟨l', Multiset.coe_le.2 hl'.subperm, Multiset.coe_eq_coe.2 hp⟩

/-- Below the slice, what the plan keeps before slicing is an answer. -/
theorem peel_below {pattern : GraphPattern} {offset : Nat} {limit : Option Nat}
    (h : peel converts false offset limit pattern = some p)
    (hns : offset ≠ 0 ∨ limit ≠ none ∨ ∀ inner start length, pattern ≠ .slice inner start length) :
    p.offset = offset ∧ p.limit = limit ∧
      ∃ N, I.Answer pattern N ∧ p.distinctRows (p.allRows I pattern) = N.map p.project := by
  obtain ⟨ho, hl, -, N, hN, -, -, hplain, hdist⟩ := peel_unsliced (I := I) h (.inr hns)
  refine ⟨ho, hl, N, hN, ?_⟩
  unfold Plan.distinctRows
  cases hd : p.distinct with
  | true => exact (hdist rfl hd).symm
  | false => exact (hplain hd).symm

theorem peel_whole {pattern : GraphPattern} (h : peel converts false 0 none pattern = some p)
    (hno : ∀ inner start length, pattern ≠ .slice inner start length) {rows : Multiset Row}
    (hrows : Sliced p.offset p.limit (p.distinctRows (p.allRows I pattern)) rows) :
    ∃ M, I.Answer pattern M ∧ rows = M.map p.project := by
  obtain ⟨ho, hl, N, hN, hD⟩ := peel_below (I := I) h (.inr (.inr hno))
  have hcard := hrows.card
  rw [ho, hl, Nat.sub_zero] at hcard
  exact ⟨N, hN, (Multiset.eq_of_le_of_card_le hrows.le hcard.ge).trans hD⟩

/-- As many rows as the wrappers leave are an answer to the whole pattern. -/
theorem peel_answer {pattern : GraphPattern} (h : peel converts false 0 none pattern = some p) {rows : Multiset Row}
    (hrows : Sliced p.offset p.limit (p.distinctRows (p.allRows I pattern)) rows) :
    ∃ M, I.Answer pattern M ∧ rows = M.map p.project := by
  induction pattern with
  | slice inner start length ih =>
    rw [peel] at h
    simp only [ne_eq, not_true_eq_false, Option.isSome_none, Bool.false_eq_true, or_self, if_false] at h
    by_cases htriv : start = 0 ∧ length = none
    · obtain ⟨rfl, rfl⟩ := htriv
      obtain ⟨M, hM, rfl⟩ := ih h hrows
      exact ⟨M, ⟨M, hM, le_rfl, by simp⟩, rfl⟩
    · have hns : start ≠ 0 ∨ length ≠ none := by tauto
      obtain ⟨ho, hl, N, hN, hD⟩ := peel_below (I := I) h (hns.imp_right .inl)
      obtain ⟨hle, hcard⟩ := hrows
      rw [show p.allRows I (.slice inner start length) = p.allRows I inner from rfl, hD] at hle hcard
      obtain ⟨M, hM, rfl⟩ := exists_le_map hle
      rw [Multiset.card_map, Multiset.card_map, ho, hl] at hcard
      exact ⟨M, ⟨N, hN, hM, hcard⟩, rfl⟩
  | _ => exact peel_whole h (by simp) hrows

end Wrappers

/-! ## Every accepted query -/

/-- An evaluation of everything a store holds: the view refuses nothing, the interpretation
names the store's terms, and the expression evaluator is the interpretation's. A comparison
with a constant holds only of ids inside the spans the constant is given. -/
structure Reading (cx : Context) (I : Interpretation) : Prop where
  names : Names cx.view.store I
  allowed : cx.view.policy = .permitAll
  holds : cx.holds = I.holds
  evaluates : Evaluates I.holds
  compares : ∀ e c ss, Range.comparison e = some c → Range.spans cx.view.store c = some ss → ∀ μ id,
    I.holds e μ = true → μ.lookup c.var = some id → ∃ span ∈ ss, span.contains id = true

section Answers
variable {converts : Expression → Bool} {pattern : GraphPattern} {p : Plan} {cx : Context} {I : Interpretation}
  {limits : Limits} {rows : List Row}

theorem evaluate_kept (h : p.evaluate cx limits = .ok (some rows)) :
    ∃ t, p.process (p.trace cx) (Tally.start false) = .ok t ∧ t.abandoned = false ∧ t.out = rows := by
  have htracks := step_tracks p cx (itemsSize p.items + 1) p.items
    ((List.range p.filters.length).filter (fun i => !(i ∈ ownedByOptionals p.items))) ∅ ⟨Tally.start false, limits, 0, 0⟩
  unfold Plan.evaluate at h
  cases hr : p.run cx limits false with
  | error e => rw [hr] at h; cases h
  | ok run =>
    rw [hr] at h
    cases ha : run.abandoned with
    | true => simp [bind, Except.bind, pure, Except.pure, ha] at h
    | false =>
      simp only [bind, Except.bind, pure, Except.pure, ha, Bool.false_eq_true, if_false, Except.ok.injEq,
        Option.some.injEq] at h
      exact ⟨run.toTally, htracks.kept run hr ha, ha, h⟩

/-- The rows of an accepted query are an answer to it, where it can be hoisted, no closure
strays and no probe is remembered. -/
theorem answers (hplan : plan converts (.select none pattern) = some p) (hr : Reading cx I)
    (hstraight : straight 0 (whereOf pattern) = true) (hsound : Sound I .default none ∅ (whereOf pattern))
    (hstray : strayed (p.trace cx) = false) (hquiet : p.forgets ∨ quiet (p.trace cx) = true)
    (h : p.evaluate cx limits = .ok (some rows)) : ∃ M, I.Answer pattern M ∧ (rows : Multiset Row) = M.map p.project := by
  have hpeel : peel converts false 0 none pattern = some p := hplan
  obtain ⟨bound, hcollect⟩ := peel_collect hpeel
  obtain ⟨items, filters, free, hi, hf, hc⟩ := collect_collected (whereOf pattern) hcollect
  rw [List.nil_append] at hi hf
  subst hi hf
  -- the plan and the context fit
  have hfaithful : Faithful p cx I := by
    refine ⟨hr.names, hr.allowed, hr.holds, fun f hf => hr.evaluates.reads _ _ (hc.inspected hf).1.needs, ?_⟩
    intro f hf c ss hb hss
    exact hr.compares f.expression c ss (((hc.inspected hf).1.bounds).symm.trans hb) hss
  -- the trace stands for what the items mean
  have hpending : filtersAt p.filters ((List.range p.filters.length).filter (fun i => !(i ∈ ownedByOptionals p.items))) = free := by
    rw [List.range_eq_range']
    exact filtersAt_free hc hstraight (At.self p.filters)
  have happrox : Approx (p.trace cx) (meaning I p.filters free p.items ∅) := by
    have := events_approx hfaithful (itemsSize p.items + 1) p.items
      ((List.range p.filters.length).filter (fun i => !(i ∈ ownedByOptionals p.items))) ∅ (Nat.lt_succ_self _) hc.simple
    rw [hpending] at this
    refine this ⟨fun f hf v hv => .inr ((hc.free_certain hf).2 v hv), hc.ready hstraight (At.self p.filters) _⟩
  -- and the items mean what the pattern does
  have hmeaning : meaning I p.filters free p.items ∅ = I.eval none (whereOf pattern) := by
    have hhoist := hoist hr.evaluates hc (G := none) (X := ∅) (γ := ∅) (k := fun ν => {ν}) hstraight (At.self p.filters)
      hsound ⟨rfl, by simp, by simp⟩ (zeroOn_singleton ∅)
    rw [Mapping.extend_empty, Multiset.bind_singleton, Multiset.map_id'] at hhoist
    exact hhoist.symm
  obtain ⟨t, ht, ha, rfl⟩ := evaluate_kept h
  rw [hmeaning] at happrox
  exact peel_answer hpeel (collected_rows happrox hstray hquiet ht ha)

end Answers

/-! ## Reading a store -/

/-- The interpretation a store gives: a term it has not interned is none of its ids. -/
def interpret (store : Store) (holds : Expression → Solution → Bool) : Interpretation where
  quads := store.quads
  graphs := store.graphs
  named := store.holds.named
  intern t := (store.lookupTerm t).getD TermId.max
  holds := holds
  beyond _ _ := 0

/-- The id is in no position of the store. -/
def unused (store : Store) (id : TermId) : Prop :=
  (∀ q ∈ store.quads, id ≠ q.subject ∧ id ≠ q.predicate ∧ id ≠ q.object ∧ some id ≠ q.graphName) ∧ id ∉ store.graphs

theorem names_interpret {store : Store} (h : unused store TermId.max) (holds : Expression → Solution → Bool) :
    Names store (interpret store holds) := by
  refine ⟨rfl, rfl, fun t id ht => ?_, fun t ht q hq => ?_, fun t ht => ?_⟩
  · simp [interpret, ht]
  · simpa [interpret, ht] using h.1 q hq
  · simpa [interpret, ht] using h.2

/-- The solution of a pattern between two variables. -/
def pairSolution (x y : Variable) (q : EncodedQuad) : Solution := Finmap.singleton x q.subject ∪ Finmap.singleton y q.object

theorem tripleSolutions_pair (I : Interpretation) (G : Option TermId) {x y : Variable} (hxy : x ≠ y) (pr : NamedNode) :
    I.tripleSolutions G ⟨.var x, .namedNode pr, .var y⟩ =
      ((I.graph G).filter (·.predicate = I.intern (.namedNode pr))).val.map (pairSolution x y) := by
  have hone : ∀ q : EncodedQuad, I.quadSolutions ⟨.var x, .namedNode pr, .var y⟩ q =
      if q.predicate = I.intern (.namedNode pr) then {pairSolution x y q} else 0 := by
    intro q
    have hc : Mapping.Compat (Finmap.singleton x q.subject : Solution) (Finmap.singleton y q.object) := by
      intro v hv hv'
      rw [mem_keys_singleton] at hv hv'
      exact absurd (hv.trans hv'.symm) hxy
    simp only [Interpretation.quadSolutions, Interpretation.termSolutions, Interpretation.predicateSolutions,
      eq_comm (a := q.predicate)]
    split
    · rw [Mapping.unit_join, Mapping.singleton_join, Mapping.extend_singleton, if_pos hc]
      rfl
    · rw [Mapping.zero_join, Mapping.join_zero]
  rw [Interpretation.tripleSolutions]
  simp only [hone]
  rw [Finset.filter_val, ← Multiset.bind_filter, Multiset.bind_singleton]

theorem lookup_pairSolution_left (x y : Variable) (q : EncodedQuad) : (pairSolution x y q).lookup x = some q.subject :=
  Mapping.lookup_union_of_left Finmap.lookup_singleton_eq

theorem lookup_pairSolution_right {x y : Variable} (hxy : x ≠ y) (q : EncodedQuad) :
    (pairSolution x y q).lookup y = some q.object := by
  rw [pairSolution, Mapping.lookup_union, Mapping.lookup_of_not_mem (by rw [mem_keys_singleton]; exact hxy)]
  exact Finmap.lookup_singleton_eq

/-- A store everyone may read, under an evaluator that accepts nothing. -/
theorem reading_interpret {store : Store} (h : unused store TermId.max) :
    Reading (openContext store fun _ _ => false) (interpret store fun _ _ => false) := by
  refine ⟨names_interpret h _, rfl, rfl, ⟨fun _ _ _ _ _ _ => rfl, fun _ _ _ => rfl⟩, ?_⟩
  intro e c ss _ _ μ id hfalse
  cases hfalse

/-! ## Joins, unions, values and filters -/

/-- Basic graph patterns, joins, unions, `VALUES` and filters, in the default graph. -/
def plainPattern : GraphPattern → Bool
  | .bgp _ => true
  | .values _ _ => true
  | .join left right => plainPattern left && plainPattern right
  | .union left right => plainPattern left && plainPattern right
  | .filter _ inner => plainPattern inner
  | _ => false

def plainItem : Item → Bool
  | .pattern _ | .union _ | .values _ => true
  | .closure _ | .optional _ _ _ _ => false

section Plain
variable {converts : Expression → Bool} {P : GraphPattern} {I : Interpretation}

theorem plain_not_owns (h : plainPattern P = true) : ownsFilters P = false := by
  induction P with
  | join left right ihl ihr =>
    simp only [plainPattern, Bool.and_eq_true] at h
    rw [ownsFilters, ihl h.1, ihr h.2]
    rfl
  | filter e inner ih => exact ih h
  | bgp ts => rfl
  | values vars bindings => rfl
  | union left right => rfl
  | _ => cases h

theorem plain_sound (h : plainPattern P = true) (G : Option TermId) (X : Set Variable) : Sound I .default G X P := by
  induction P generalizing X with
  | join left right ihl ihr =>
    simp only [plainPattern, Bool.and_eq_true] at h
    exact ⟨ihl h.1 _, ihr h.2 _⟩
  | filter e inner ih => exact ⟨ih h _, by simp⟩
  | bgp ts => trivial
  | values vars bindings => trivial
  | union left right => trivial
  | _ => cases h

theorem plain_items {scope : Scope} {n : Nat} {bound : Bound} {items : List Item} {filters free : List Filter}
    (hc : Collected converts P scope n bound items filters free) (h : plainPattern P = true) :
    ∀ item ∈ items, plainItem item = true := by
  induction hc with
  | bgp hb =>
    obtain ⟨rfl, -, -⟩ := collectBgp_spec hb
    intro item hi
    obtain ⟨t, -, rfl⟩ := List.mem_map.1 hi
    rfl
  | values =>
    intro item hi
    obtain rfl := List.mem_singleton.1 hi
    rfl
  | union hu =>
    intro item hi
    obtain rfl := List.mem_singleton.1 hi
    rfl
  | join hl hr ihl ihr =>
    simp only [plainPattern, Bool.and_eq_true] at h
    intro item hi
    rcases List.mem_append.1 hi with hi | hi
    · exact ihl h.1 item hi
    · exact ihr h.2 item hi
  | filter hc hn ih => exact ih h
  | _ => cases h

theorem strayed_append (evs evs' : List Event) : strayed (evs ++ evs') = (strayed evs || strayed evs') := by
  induction evs with
  | nil => rfl
  | cons ev evs ih => rw [List.cons_append, strayed, strayed, ih, Bool.or_assoc]

theorem quiet_append (evs evs' : List Event) : quiet (evs ++ evs') = (quiet evs && quiet evs') := by
  induction evs with
  | nil => rfl
  | cons ev evs ih => rw [List.cons_append, quiet, quiet, ih, Bool.and_assoc]

/-- A trace without closures or probes in it. -/
def Uneventful (evs : List Event) : Prop := strayed evs = false ∧ quiet evs = true

theorem uneventful_flatMap {α : Type} {l : List α} {f : α → List Event} (h : ∀ a ∈ l, Uneventful (f a)) :
    Uneventful (l.flatMap f) := by
  induction l with
  | nil => exact ⟨rfl, rfl⟩
  | cons a l ih =>
    obtain ⟨h1, h2⟩ := h a List.mem_cons_self
    obtain ⟨t1, t2⟩ := ih fun b hb => h b (List.mem_cons_of_mem _ hb)
    rw [List.flatMap_cons, Uneventful, strayed_append, quiet_append, h1, h2, t1, t2]
    exact ⟨rfl, rfl⟩

theorem uneventful_attempts {body : Bindings → List Event} (h : ∀ β, Uneventful (body β)) (attempts : List Attempt) :
    Uneventful (attemptEvents body attempts) := by
  refine uneventful_flatMap fun a _ => ?_
  cases a with
  | bound β => exact h β
  | _ => exact ⟨rfl, rfl⟩

/-- Nothing but patterns, unions and values leaves nothing but rows. -/
theorem events_uneventful (p : Plan) (cx : Context) (fuel : Nat) : ∀ (todo : List Item) (pending : List Nat) (β : Bindings),
    (∀ item ∈ todo, plainItem item = true) → Uneventful (p.events cx fuel todo pending β) := by
  induction fuel with
  | zero =>
    intro todo pending β _
    exact ⟨rfl, rfl⟩
  | succ fuel ih =>
    intro todo pending β hplain
    rw [Plan.events]
    cases p.settle cx.holds β pending with
    | none => exact ⟨rfl, rfl⟩
    | some pending =>
      simp only
      cases hch : choose cx.prefer todo β with
      | none => exact ⟨rfl, rfl⟩
      | some next =>
        obtain ⟨item, rest⟩ := next
        obtain ⟨before, after, rfl, rfl, -⟩ := choose_some hch
        have hitem : plainItem item = true := hplain item (by simp)
        have hrest : ∀ x ∈ before ++ after, plainItem x = true := by
          intro x hx
          refine hplain x ?_
          rcases List.mem_append.1 hx with hx | hx
          · exact List.mem_append_left _ hx
          · exact List.mem_append_right _ (List.mem_cons_of_mem _ hx)
        cases item with
        | pattern pattern => exact uneventful_attempts (fun β => ih _ _ β hrest) _
        | values values => exact uneventful_attempts (fun β => ih _ _ β hrest) _
        | union branches =>
          refine uneventful_flatMap fun branch _ => ih _ _ β ?_
          intro x hx
          rcases List.mem_append.1 hx with hx | hx
          · obtain ⟨q, -, rfl⟩ := List.mem_map.1 hx
            rfl
          · exact hrest x hx
        | closure c => cases hitem
        | optional mode items filters fresh => cases hitem

end Plain

/-- `SELECT DISTINCT ?x { ?x :p ?y VALUES ?y { UNDEF } }`. -/
def undefQuery : GraphPattern :=
  .distinct (.project (.join (.bgp [⟨.var (.named "x"), .namedNode "p", .var (.named "y")⟩])
    (.values [.named "y"] [[none]])) [.named "x"])

theorem unused_kept : unused keptRow TermId.max := by
  unfold unused
  decide

/-- The inline id of a positive float, from its bits. -/
def positiveFloat (bits : Fin (2 ^ 31)) : TermId :=
  TermId.new .float (2 ^ 31 + bits) (by simp only [TermId.payloadMax]; omega)

/-- `SELECT ?s { ?s :p ?o FILTER(?o > "5"^^xsd:float) }`. -/
def moreThanFive : GraphPattern :=
  .project (.filter (.binary .greater (.var (.named "o")) (.literal (.newTyped "5" Xsd.float)))
    (.bgp [⟨.var (.named "s"), .namedNode "p", .var (.named "o")⟩])) [.named "s"]

/-- `:a :p 3`, with the floats three and five as their inline ids. -/
def threeStored : Store :=
  Store.ofOps (fun t => match t with
    | .namedNode "a" => some 0
    | .namedNode "p" => some 1
    | .literal (.typed "5" _ _) => some (positiveFloat 0x40A00000)
    | .literal (.typed "3" _ _) => some (positiveFloat 0x40400000)
    | _ => none) 2 [.insert ⟨0, 1, positiveFloat 0x40400000, none⟩]

theorem spans_five : Range.spans threeStored ⟨.named "o", .greater, (.newTyped "5" Xsd.float)⟩ =
    some [IdRange.wholeTag .literal, IdRange.wholeTag .integer, ⟨positiveFloat 0x40A00001, TermId.new .float TermId.payloadMax le_rfl⟩] := by
  have hordered : [IdRange.wholeTag .literal, IdRange.wholeTag .integer,
      ⟨positiveFloat 0x40A00001, TermId.new .float TermId.payloadMax le_rfl⟩].Pairwise
      (fun a b => decide (a.first ≤ b.first) = true) := by decide
  exact congrArg some (List.mergeSort_of_pairwise hordered)

def moreThanFivePlan : Plan :=
  ⟨[.pattern ⟨⟨.var (.named "s"), .namedNode "p", .var (.named "o")⟩, .default⟩],
    [⟨.binary .greater (.var (.named "o")) (.literal (.newTyped "5" Xsd.float)), [.named "o"],
      some ⟨.named "o", .greater, (.newTyped "5" Xsd.float)⟩⟩], [.named "s"], false, 0, none⟩

theorem candidates_five : moreThanFivePlan.candidates ⟨threeStored, .permitAll⟩
    ⟨⟨.var (.named "s"), .namedNode "p", .var (.named "o")⟩, .default⟩ [0] ∅ = [] := by
  have hspans : moreThanFivePlan.spansFor ⟨threeStored, .permitAll⟩
      ⟨⟨.var (.named "s"), .namedNode "p", .var (.named "o")⟩, .default⟩ none [0] ∅ =
      (Range.spans threeStored ⟨.named "o", .greater, (.newTyped "5" Xsd.float)⟩).map (fun ss => (some 1, ss)) := rfl
  rw [spans_five] at hspans
  have hscan : moreThanFivePlan.scan ⟨threeStored, .permitAll⟩
      ⟨⟨.var (.named "s"), .namedNode "p", .var (.named "o")⟩, .default⟩ none (some 1) none (some none) [0] ∅ = [] := by
    rw [Plan.scan, hspans]
    rfl
  exact congrArg (List.map _) hscan

theorem five_empty : plan (fun _ => true) (.select none moreThanFive) = some moreThanFivePlan ∧
    moreThanFivePlan.evaluate (openContext threeStored fun _ _ => true) ⟨none, none⟩ = .ok (some []) := by
  refine ⟨rfl, ?_⟩
  refine (evaluate_eq_some_iff _ _ ⟨rfl, by simp⟩ []).2 ⟨Tally.start false, ?_, rfl, rfl⟩
  have htrace : moreThanFivePlan.trace (openContext threeStored fun _ _ => true) =
      attemptEvents (moreThanFivePlan.events (openContext threeStored fun _ _ => true) 1 [] [0])
        (moreThanFivePlan.candidates ⟨threeStored, .permitAll⟩
          ⟨⟨.var (.named "s"), .namedNode "p", .var (.named "o")⟩, .default⟩ [0] ∅) := rfl
  rw [htrace, candidates_five]
  rfl

theorem unused_three : unused threeStored TermId.max := by
  unfold unused
  decide

end Holos.Engine.Bindjoin
