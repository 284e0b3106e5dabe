import Holos.Engine.Bindjoin.Stream
/-!
# Giving a plan up

With no token and no row budget a run is given up in two places: at a row of a `VALUES` with a term
the store has no id for, and at a closure with such an end, or with neither end bound. `givesUp`
finds the places a search comes to, `process_abandoned` says that a run is abandoned exactly when
there is one, and `trace_readable` that nothing else stops it on a view that answers every read.
-/

namespace Holos.Engine

/-- Every scan of the view gives quads. -/
structure DatasetView.Answers (view : DatasetView) : Prop where
  pattern : ∀ s p o g, ∀ r ∈ view.internalQuadsForPattern s p o g, ∃ quad, r = .ok quad
  span : ∀ s p span g, ∀ r ∈ view.quadsWithObjectIn s p span g, ∃ quad, r = .ok quad

/-- A policy that leaves out what it refuses answers every read. -/
theorem DatasetView.answers_of_filter {view : DatasetView} (h : view.policy.semantics = .filter) : view.Answers := by
  have hquad : ∀ quad, view.policy.decideQuad quad .read ≠ .fail := by
    intro quad
    unfold Security.CompiledPolicy.decideQuad Security.CompiledPolicy.refusal
    simp only [h]
    split
    · decide
    · split <;> decide
  have hdecide : ∀ (quads : List EncodedQuad), ∀ r ∈ quads.filterMap view.decide, ∃ quad, r = .ok quad := by
    intro quads r hr
    obtain ⟨quad, -, hd⟩ := List.mem_filterMap.1 hr
    unfold DatasetView.decide at hd
    cases hq : view.policy.decideQuad quad .read with
    | allow =>
      rw [hq] at hd
      exact ⟨quad, (Option.some.inj hd).symm⟩
    | filter =>
      rw [hq] at hd
      cases hd
    | fail => exact absurd hq (hquad quad)
  have hdenied : ∀ graph answer, view.deniedGraph graph = some answer → answer = [] := by
    intro graph answer hd
    unfold DatasetView.deniedGraph at hd
    split at hd
    · split at hd
      · rw [h] at hd
        exact (Option.some.inj hd).symm
      · cases hd
    · cases hd
  constructor
  · intro s p o g r hr
    unfold DatasetView.internalQuadsForPattern at hr
    simp only at hr
    split at hr
    · rename_i answer hd
      rw [hdenied _ _ hd] at hr
      cases hr
    · exact hdecide _ r hr
  · intro s p span g r hr
    unfold DatasetView.quadsWithObjectIn at hr
    split at hr
    · rename_i answer hd
      rw [hdenied _ _ hd] at hr
      cases hr
    · exact hdecide _ r hr

/-! ## Walks that are answered -/

namespace Reach

variable {hops : Hops} {emit : TermId → Bool} {scan : TermId → List (Except ViewError EncodedQuad)} {far : EncodedQuad → TermId}

theorem crossAll_ok {quads : List (Except ViewError EncodedQuad)} (h : ∀ r ∈ quads, ∃ quad, r = .ok quad) (st : Sets) :
    ∃ walked, crossAll hops emit far quads st = .ok walked := by
  induction quads generalizing st with
  | nil => exact ⟨_, rfl⟩
  | cons r quads ih =>
    obtain ⟨quad, rfl⟩ := h r List.mem_cons_self
    rw [crossAll]
    split
    · exact ⟨_, rfl⟩
    · exact ih (fun r hr => h r (List.mem_cons_of_mem _ hr)) _

theorem expandAll_ok (h : ∀ node, ∀ r ∈ scan node, ∃ quad, r = .ok quad) (frontier : List TermId) (st : Sets) :
    ∃ walked, expandAll hops emit scan far frontier st = .ok walked := by
  induction frontier generalizing st with
  | nil => exact ⟨_, rfl⟩
  | cons node frontier ih =>
    obtain ⟨⟨st', walk⟩, hcross⟩ := @crossAll_ok hops emit far _ (h node) st
    rw [expandAll, hcross]
    cases walk with
    | stopped => exact ⟨_, rfl⟩
    | complete => exact ih st'

theorem rounds_ok (h : ∀ node, ∀ r ∈ scan node, ∃ quad, r = .ok quad) (fuel : Nat) (frontier : List TermId) (st : Sets) :
    ∃ walked, rounds hops emit scan far fuel frontier st = .ok walked := by
  induction fuel generalizing frontier st with
  | zero => exact ⟨_, rfl⟩
  | succ fuel ih =>
    cases frontier with
    | nil => exact ⟨_, rfl⟩
    | cons node frontier =>
      obtain ⟨⟨st', walk⟩, hexpand⟩ := @expandAll_ok hops emit scan far h (node :: frontier) { st with next := [] }
      rw [rounds, hexpand]
      · cases walk with
        | stopped => exact ⟨_, rfl⟩
        | complete => exact ih _ _
      · simp

theorem reachable_ok {view : DatasetView} (h : view.Answers) (predicate : TermId) (direction : Direction) (hops : Hops)
    (graph : Option (Option TermId)) (seeds : List TermId) (emit : TermId → Bool) :
    ∃ walked, reachable view predicate direction hops graph seeds emit = .ok walked := by
  have hedges : ∀ node, ∀ r ∈ edges view predicate direction graph node, ∃ quad, r = .ok quad := by
    intro node
    cases direction <;> exact h.pattern _ _ _ _
  unfold reachable
  split
  · exact ⟨_, rfl⟩
  · rename_i st _
    obtain ⟨⟨st', walk⟩, hrounds⟩ := @rounds_ok hops emit _ direction.far hedges (view.store.quads.card + 2) st.next st
    rw [hrounds]
    exact ⟨_, rfl⟩

end Reach

namespace Bindjoin

open Sparql

/-! ## Where a search is given up -/

mutual

/-- The search comes to a place where the plan is given up. -/
def givesUp : List Event → Bool
  | [] => false
  | ev :: evs => ev.givesUp || givesUp evs

def Event.givesUp : Event → Bool
  | .halt => true
  | .probe evs => Bindjoin.givesUp evs
  | _ => false

end

mutual

/-- Every read of the search is answered. -/
def readable : List Event → Bool
  | [] => true
  | ev :: evs => ev.readable && readable evs

def Event.readable : Event → Bool
  | .fail _ => false
  | .probe evs => Bindjoin.readable evs
  | _ => true

end

theorem readable_append (evs evs' : List Event) : readable (evs ++ evs') = (readable evs && readable evs') := by
  induction evs with
  | nil => rfl
  | cons ev evs ih => rw [List.cons_append, readable, readable, ih, Bool.and_assoc]

theorem readable_flatMap {α : Type} {l : List α} {f : α → List Event} (h : ∀ a ∈ l, readable (f a) = true) :
    readable (l.flatMap f) = true := by
  induction l with
  | nil => rfl
  | cons a l ih =>
    rw [List.flatMap_cons, readable_append, h a List.mem_cons_self, ih (fun b hb => h b (List.mem_cons_of_mem _ hb))]
    rfl

mutual

/-- The rows of a search are all there unless it is given up or a read fails. -/
theorem completed_isSome : ∀ (evs : List Event) (inside : Bool),
    (completed inside evs).isSome = (!givesUp evs && readable evs)
  | [], _ => rfl
  | ev :: evs, inside => by
    have h₁ := completedOne_isSome ev inside
    have h₂ := completed_isSome evs inside
    rw [completed, givesUp, readable]
    cases ho : completedOne inside ev with
    | none =>
      rw [ho] at h₁
      cases hg : ev.givesUp <;> cases hr : ev.readable <;> simp [hg, hr] at h₁ ⊢
    | some found =>
      rw [ho] at h₁
      cases hc : completed inside evs with
      | none =>
        rw [hc] at h₂
        cases hg : givesUp evs <;> cases hr : readable evs <;> simp [hg, hr] at h₂ ⊢
      | some rest =>
        rw [hc] at h₂
        cases hg : ev.givesUp <;> cases hr : ev.readable <;> simp [hg, hr] at h₁
        cases hg' : givesUp evs <;> cases hr' : readable evs <;> simp [hg', hr'] at h₂ ⊢

theorem completedOne_isSome : ∀ (ev : Event) (inside : Bool),
    (completedOne inside ev).isSome = (!ev.givesUp && ev.readable)
  | .row _, _ => rfl
  | .probe evs, _ => by
    rw [completedOne, Event.givesUp, Event.readable]
    exact completed_isSome evs true
  | .stray, _ => rfl
  | .halt, _ => rfl
  | .fail _, _ => rfl

end

/-! ## Playing it -/

theorem not_full {p : Plan} (hl : p.limit = none) (t : Tally) : p.full t = false := by simp [Plan.full, hl]

mutual

/-- A run with no limits and no failing read is abandoned exactly where the search is given up. -/
theorem process_abandoned (p : Plan) (hl : p.limit = none) : ∀ (evs : List Event) (t : Tally), readable evs = true →
    t.abandoned = false → ∃ t', p.process evs t = .ok t' ∧ t'.abandoned = givesUp evs
  | [], t, _, ha => ⟨t, by rw [Plan.process], ha⟩
  | ev :: evs, t, hr, ha => by
    rw [readable, Bool.and_eq_true] at hr
    obtain ⟨t₁, hone, habandoned⟩ := playOne_abandoned p hl ev t hr.1 ha
    rw [process_cons ha (not_full hl t), hone, givesUp]
    cases hg : ev.givesUp with
    | true =>
      rw [hg] at habandoned
      exact ⟨t₁, process_stopped (by simp [habandoned]) evs, habandoned⟩
    | false =>
      rw [hg] at habandoned
      exact process_abandoned p hl evs t₁ hr.2 habandoned

theorem playOne_abandoned (p : Plan) (hl : p.limit = none) : ∀ (ev : Event) (t : Tally), ev.readable = true →
    t.abandoned = false → ∃ t', p.playOne ev t = .ok t' ∧ t'.abandoned = ev.givesUp
  | .row β, t, _, ha => ⟨_, by rw [Plan.playOne], by rw [emit_abandoned]; exact ha⟩
  | .probe evs, t, hr, ha => by
    obtain ⟨t', hplay, habandoned⟩ := process_abandoned p hl evs t hr ha
    rw [Plan.playOne, hplay]
    exact ⟨_, rfl, habandoned⟩
  | .stray, t, _, ha => ⟨t, by rw [Plan.playOne], ha⟩
  | .halt, t, _, _ => ⟨_, by rw [Plan.playOne], rfl⟩
  | .fail _, _, hr, _ => by cases hr

end

/-! ## A view that answers -/

variable {view : DatasetView}

theorem firstQuad_answers {quads : List (Except ViewError EncodedQuad)} (h : ∀ r ∈ quads, ∃ quad, r = .ok quad) :
    ∃ b, firstQuad quads = .ok b := by
  cases quads with
  | nil => exact ⟨_, rfl⟩
  | cons r quads =>
    obtain ⟨quad, rfl⟩ := h r List.mem_cons_self
    exact ⟨_, rfl⟩

theorem zeroLengthAdmissible_ok (h : view.Answers) (closure : ClosureItem) (seed : TermId) (β : Bindings) :
    ∃ b, zeroLengthAdmissible view closure seed β = .ok b := by
  unfold zeroLengthAdmissible
  split
  · exact ⟨_, rfl⟩
  · split
    · exact ⟨_, rfl⟩
    · cases hg : graphSlot view β closure.scope with
      | none => exact ⟨_, rfl⟩
      | some graph =>
        obtain ⟨b, hb⟩ := firstQuad_answers (h.pattern (some seed) none none graph)
        obtain ⟨b', hb'⟩ := firstQuad_answers (h.pattern none none (some seed) graph)
        simp only [hb]
        cases b with
        | true => exact ⟨_, rfl⟩
        | false => exact ⟨b', hb'⟩

theorem walkNodes_ok (h : view.Answers) (closure : ClosureItem) (predicate : TermId) (graph : Option (Option TermId))
    (seed : TermId) (farSlot : Slot) (fromSubject : Bool) :
    ∃ nodes, walkNodes view closure predicate graph seed farSlot fromSubject = .ok nodes := by
  unfold walkNodes
  cases farSlot with
  | fixed target =>
    obtain ⟨walked, hw⟩ := Reach.reachable_ok h predicate (Reach.Direction.of fromSubject closure.inverse) closure.hops graph
      [seed] (fun node => decide (node ≠ target))
    simp only [hw]
    exact ⟨_, rfl⟩
  | any | missing =>
    obtain ⟨walked, hw⟩ := Reach.reachable_ok h predicate (Reach.Direction.of fromSubject closure.inverse) closure.hops graph
      [seed] (fun _ => true)
    simp only [hw]
    exact ⟨_, rfl⟩

/-- An end of a closure has no id, or neither is bound where the walk needs one. -/
def unanchored (view : DatasetView) (closure : ClosureItem) (β : Bindings) : Prop :=
  slot view β closure.subject = .missing ∨ slot view β closure.object = .missing ∨
    (closureSeed closure (slot view β closure.subject) (slot view β closure.object) = none ∧
      if (view.store.lookupTerm (.namedNode closure.predicate)).isSome then (graphSlot view β closure.scope).isSome = true
      else closure.hops.includesSeed = true)

theorem closureAnswer_ok (h : view.Answers) (closure : ClosureItem) (β : Bindings) :
    ∃ answer, closureAnswer view closure β = .ok answer ∧ (answer = .abandon ↔ unanchored view closure β) ∧
      ∀ attempts, answer = .walk attempts → ∀ e, Attempt.fail e ∉ attempts := by
  unfold closureAnswer unanchored
  simp only
  by_cases hmissing : slot view β closure.subject = .missing ∨ slot view β closure.object = .missing
  · rw [if_pos hmissing]
    refine ⟨_, rfl, ⟨fun _ => ?_, fun _ => rfl⟩, by simp⟩
    rcases hmissing with hs | ho
    · exact .inl hs
    · exact .inr (.inl ho)
  rw [if_neg hmissing]
  rw [not_or] at hmissing
  simp only [hmissing.1, hmissing.2, false_or]
  cases hp : view.store.lookupTerm (.namedNode closure.predicate) with
  | some predicate =>
    simp only [lookup, hp, Option.isSome_some, if_true]
    cases hg : graphSlot view β closure.scope with
    | none => exact ⟨_, rfl, by simp, by simp⟩
    | some graph =>
      cases hseed : closureSeed closure (slot view β closure.subject) (slot view β closure.object) with
      | none => exact ⟨_, rfl, by simp, by simp⟩
      | some walk =>
        obtain ⟨seed, farEnd, farSlot, fromSubject⟩ := walk
        obtain ⟨admissible, hadmissible⟩ := zeroLengthAdmissible_ok h closure seed β
        obtain ⟨nodes, hnodes⟩ := walkNodes_ok h closure predicate graph seed farSlot fromSubject
        simp only [hadmissible, hnodes]
        cases admissible with
        | false => exact ⟨_, rfl, by simp, by simp⟩
        | true =>
          refine ⟨_, rfl, by simp, ?_⟩
          rintro attempts ⟨⟩ e he
          obtain ⟨node, -, hnode⟩ := List.mem_map.1 he
          cases hb : bindTerm farEnd node β <;> rw [hb] at hnode <;> cases hnode
  | none =>
    simp only [lookup, hp, Option.isSome_none, Bool.false_eq_true, if_false, closureZeroOnly]
    cases hz : closure.hops.includesSeed with
    | false => exact ⟨_, rfl, by simp, by simp⟩
    | true =>
      cases hseed : closureSeed closure (slot view β closure.subject) (slot view β closure.object) with
      | none => exact ⟨_, rfl, by simp, by simp⟩
      | some walk =>
        obtain ⟨seed, farEnd, farSlot, fromSubject⟩ := walk
        obtain ⟨admissible, hadmissible⟩ := zeroLengthAdmissible_ok h closure seed β
        simp only [hadmissible]
        cases admissible with
        | false => exact ⟨_, rfl, by simp, by simp⟩
        | true =>
          cases farSlot with
          | fixed target =>
            by_cases ht : target = seed
            · exact ⟨.zero (.ofOption (bindTerm farEnd seed β)), by simp [ht, bind, Except.bind, pure, Except.pure], by simp, by simp⟩
            · exact ⟨.zero .conflict, by simp [ht, bind, Except.bind, pure, Except.pure], by simp, by simp⟩
          | any | missing => exact ⟨_, rfl, by simp, by simp⟩

theorem missingAt_cons {cell : Variable × Option GroundTerm} {row : List (Variable × Option GroundTerm)} {β : Bindings} :
    (∃ before v term after β', cell :: row = before ++ (v, some term) :: after ∧ bindRow view before β = .bound β' ∧
        view.store.lookupTerm term.toTerm = none) ↔
      (∃ v term, cell = (v, some term) ∧ view.store.lookupTerm term.toTerm = none) ∨
        ∃ before v term after β', row = before ++ (v, some term) :: after ∧ bindRow view (cell :: before) β = .bound β' ∧
          view.store.lookupTerm term.toTerm = none := by
  constructor
  · rintro ⟨before, v, term, after, β', heq, hbound, hnone⟩
    cases before with
    | nil =>
      rw [List.nil_append, List.cons.injEq] at heq
      exact .inl ⟨v, term, heq.1, hnone⟩
    | cons first before =>
      rw [List.cons_append, List.cons.injEq] at heq
      exact .inr ⟨before, v, term, after, β', heq.2, by rw [heq.1]; exact hbound, hnone⟩
  · rintro (⟨v, term, rfl, hnone⟩ | ⟨before, v, term, after, β', rfl, hbound, hnone⟩)
    · exact ⟨[], v, term, row, β, rfl, rfl, hnone⟩
    · exact ⟨cell :: before, v, term, after, β', rfl, hbound, hnone⟩

/-- A row of a `VALUES` is given up at the first term without an id, if the cells before it agree with
the bindings. -/
theorem bindRow_missing_iff {row : List (Variable × Option GroundTerm)} {β : Bindings} : bindRow view row β = .missing ↔
    ∃ before v term after β', row = before ++ (v, some term) :: after ∧ bindRow view before β = .bound β' ∧
      view.store.lookupTerm term.toTerm = none := by
  induction row generalizing β with
  | nil => simp [bindRow]
  | cons cell row ih =>
    obtain ⟨v, term⟩ := cell
    rw [missingAt_cons]
    cases term with
    | none => simp [bindRow, ih]
    | some term =>
      simp only [bindRow, lookup]
      cases hl : view.store.lookupTerm term.toTerm with
      | none => simp [hl]
      | some id =>
        simp only [Prod.mk.injEq, Option.some.injEq]
        cases bindVariable v id β with
        | none => simp [hl]
        | some γ => simp [ih, hl]

theorem bindRow_ne_fail {row : List (Variable × Option GroundTerm)} {β : Bindings} {e : ViewError} :
    bindRow view row β ≠ .fail e := by
  induction row generalizing β with
  | nil => simp [bindRow]
  | cons cell row ih =>
    obtain ⟨v, term⟩ := cell
    cases term with
    | none => exact ih
    | some term =>
      rw [bindRow]
      cases lookup view term.toTerm with
      | fixed id =>
        simp only
        cases bindVariable v id β with
        | none => simp
        | some β => exact ih
      | any | missing => simp

theorem readable_attempts {body : Bindings → List Event} {attempts : List Attempt} (hbody : ∀ β, readable (body β) = true)
    (h : ∀ e, Attempt.fail e ∉ attempts) : readable (attemptEvents body attempts) = true := by
  apply readable_flatMap
  intro attempt hattempt
  cases attempt with
  | fail e => exact absurd hattempt (h e)
  | missing | conflict => rfl
  | bound β => exact hbody β

theorem candidates_ne_fail (h : view.Answers) (p : Plan) (pattern : PatternItem) (pending : List Nat) (β : Bindings) (e : ViewError) :
    Attempt.fail e ∉ p.candidates view pattern pending β := by
  have hscan : ∀ subject predicate object graph, ∀ r ∈ p.scan view pattern subject predicate object graph pending β,
      ∃ quad, r = .ok quad := by
    intro subject predicate object graph r hr
    unfold Plan.scan at hr
    split at hr
    · obtain ⟨span, -, hspan⟩ := List.mem_flatMap.1 hr
      exact h.span _ _ _ _ r hspan
    · exact h.pattern _ _ _ _ r hr
  intro he
  unfold Plan.candidates at he
  split at he
  · obtain ⟨r, hr, hattempt⟩ := List.mem_map.1 he
    obtain ⟨quad, rfl⟩ := hscan _ _ _ _ r hr
    cases hb : bindQuad pattern quad β <;> simp [hb, Attempt.ofOption] at hattempt
  · cases he

/-- On a view that answers every read, no read of the search fails. -/
theorem events_readable (p : Plan) (cx : Context) (h : cx.view.Answers) (fuel : Nat) (todo : List Item) (pending : List Nat)
    (β : Bindings) : readable (p.events cx fuel todo pending β) = true := by
  induction fuel generalizing todo pending β with
  | zero => rfl
  | succ fuel ih =>
    rw [Plan.events]
    cases p.settle cx.holds β pending with
    | none => rfl
    | some pending =>
    simp only
    cases choose cx.prefer todo β with
    | none => rfl
    | some next =>
    obtain ⟨item, rest⟩ := next
    cases item with
    | pattern pattern => exact readable_attempts (ih rest pending) (candidates_ne_fail h p pattern pending β)
    | union branches => exact readable_flatMap (fun branch _ => ih _ pending β)
    | values values =>
      refine readable_attempts (ih rest pending) (fun e he => ?_)
      obtain ⟨row, -, hrow⟩ := List.mem_map.1 he
      exact bindRow_ne_fail hrow
    | closure closure =>
      obtain ⟨answer, hanswer, -, hwalk⟩ := closureAnswer_ok h closure β
      have hstray : readable (if strays cx.view closure β then [Event.stray] else []) = true := by
        split <;> rfl
      simp only [readable_append, hstray, hanswer, Bool.true_and]
      cases answer with
      | abandon => rfl
      | zero attempt =>
        cases attempt with
        | bound β => exact ih rest pending β
        | fail | missing | conflict => rfl
      | walk attempts => exact readable_attempts (ih rest pending) (hwalk attempts rfl)
    | optional mode items filters fresh =>
      cases mode with
      | extend =>
        simp only
        split
        · exact ih _ _ _
        · rw [readable_append, ih, ih]
          rfl
      | remove =>
        rw [readable, Event.readable, ih]
        split
        · rfl
        · exact ih _ _ _

/-! ## Running it -/

variable {p : Plan} {cx : Context} {limits : Limits}

/-- What streaming and collecting hand over when nothing stops the search. -/
theorem evaluate_completed (hl : p.limit = none) (ho : limits.Open) {found : List (Bool × Bindings)}
    (h : completed false (p.trace cx) = some found) :
    p.evaluateEach cx limits = .ok (true, (p.survivors found).map (·.2)) ∧
      p.evaluate cx limits = .ok (some (outside (p.survivors found))) := by
  have hflow := flow_start p (p.trace cx)
  rw [h, Option.map_some] at hflow
  obtain ⟨σ, hσ, hrows⟩ := Option.map_eq_some_iff.1 hflow
  constructor
  · have hsink := process_sink p (by simp [hl]) (p.trace cx) false ⟨[], [], 0⟩ (Tally.start true) ⟨rfl, rfl, rfl, rfl, rfl, rfl⟩
    rw [hσ] at hsink
    obtain ⟨t, hplay, hpair⟩ := hsink
    rw [evaluateEach_eq_ok_iff p cx ho]
    exact ⟨t, hplay, hpair.on, by rw [hpair.sunk, hrows]⟩
  · obtain ⟨t, hplay, hcollects⟩ := process_collects p (p.trace cx) false ⟨[], [], 0⟩ σ (Tally.start false)
      ⟨rfl, rfl, rfl, rfl, le_rfl, by simp⟩ hσ (fun l hl' => by simp [hl] at hl')
    obtain ⟨new, hout, hnew⟩ := hcollects.out
    rw [evaluate_eq_some_iff p cx ho]
    refine ⟨t, hplay, hcollects.pair.on, ?_⟩
    rw [hout, ← hrows, hnew rfl]
    rfl

/-- What they come to when it is given up. -/
theorem evaluate_abandoned (hl : p.limit = none) (ho : limits.Open) (hread : readable (p.trace cx) = true)
    (h : givesUp (p.trace cx) = true) :
    (∃ rows, p.evaluateEach cx limits = .ok (false, rows)) ∧ p.evaluate cx limits = .ok none := by
  have habandoned : ∀ (limits : Limits) sink, limits.Open →
      ∃ run, p.run cx limits sink = .ok run ∧ run.abandoned = true := by
    intro limits sink ho
    obtain ⟨t, hplay, hab⟩ := process_abandoned p hl (p.trace cx) (Tally.start sink) hread rfl
    have hrun := run_eq_process p cx ho sink
    rw [hplay] at hrun
    cases hr : p.run cx limits sink with
    | error e =>
      rw [hr] at hrun
      cases hrun
    | ok run =>
      rw [hr] at hrun
      cases hrun
      exact ⟨run, rfl, hab.trans h⟩
  constructor
  · obtain ⟨run, hrun, hab⟩ := habandoned ⟨none, limits.token⟩ true ⟨rfl, ho.2⟩
    refine ⟨run.sunk, ?_⟩
    simp [Plan.evaluateEach, hrun, hab, bind, Except.bind, pure, Except.pure]
  · obtain ⟨run, hrun, hab⟩ := habandoned limits false ho
    simp [Plan.evaluate, hrun, hab, bind, Except.bind, pure, Except.pure]

/-- The trace of a plan, on a view that answers every read. -/
theorem trace_readable (h : cx.view.Answers) (p : Plan) : readable (p.trace cx) = true := events_readable p cx h _ _ _ _

end Bindjoin

end Holos.Engine
