import Holos.Engine.Bindjoin.Evaluate
/-!
# The trace of an evaluation

Which items are matched, and under which bindings, does not depend on what a run has
accumulated. `events` is that part alone: the completed rows in order, the probes of
`MINUS` with the rows completed inside them, the places where a read fails or the plan has
to be given up, and those where a closure strays from one graph. `process` plays a trace against a tally, and `step_tracks` shows that
an evaluation is its trace, played.
-/

namespace Holos.Engine.Bindjoin

open Sparql

inductive Event where
  | row (β : Bindings)
  | probe (events : List Event)
  | stray
  | halt
  | fail (e : ViewError)

def Event.isRow : Event → Bool
  | .row _ => true
  | _ => false

/-- A row is completed, other than inside a probe. -/
def hasRow (evs : List Event) : Bool := evs.any Event.isRow

/-- The trace of each candidate. -/
def attemptEvents (body : Bindings → List Event) : List Attempt → List Event :=
  List.flatMap (fun attempt =>
    match attempt with
    | .fail e => [.fail e]
    | .missing => [.halt]
    | .conflict => []
    | .bound β => body β)

/-- There is a graph of this name. -/
def isGraph (view : DatasetView) (n : TermId) : Bool := decide (n ∈ view.store.graphs)

/-- A closure that is not evaluated inside one graph: its graph variable has no value yet,
or there is no such graph and a constant end lets a path of length nought through. -/
def strays (view : DatasetView) (closure : ClosureItem) (β : Bindings) : Bool :=
  let zero := closure.hops.includesSeed && !(isFree closure.subject && isFree closure.object)
  match closure.scope with
  | .default => false
  | .named g =>
    match lookup view (.namedNode g) with
    | .fixed n => zero && !isGraph view n
    | _ => zero
  | .var v =>
    match β.lookup v with
    | none => true
    | some n => zero && !isGraph view n

def Plan.events (p : Plan) (cx : Context) : Nat → List Item → List Nat → Bindings → List Event
  | 0, _, _, _ => []
  | fuel + 1, todo, pending, β =>
    match p.settle cx.holds β pending with
    | none => []
    | some pending =>
      match choose cx.prefer todo β with
      | none => [.row β]
      | some (.pattern pattern, rest) =>
        attemptEvents (p.events cx fuel rest pending) (p.candidates cx.view pattern pending β)
      | some (.union branches, rest) =>
        branches.flatMap (fun branch => p.events cx fuel (branch.map .pattern ++ rest) pending β)
      | some (.values values, rest) =>
        attemptEvents (p.events cx fuel rest pending)
          (values.rows.map (fun row => bindRow cx.view (values.vars.zip row) β))
      | some (.closure closure, rest) =>
        (if strays cx.view closure β then [Event.stray] else []) ++
          match closureAnswer cx.view closure β with
          | .error e => [.fail e]
          | .ok .abandon => [.halt]
          | .ok (.zero (.bound β)) => p.events cx fuel rest pending β
          | .ok (.zero _) => []
          | .ok (.walk attempts) => attemptEvents (p.events cx fuel rest pending) attempts
      | some (.optional .extend items filters _, rest) =>
        let inner := p.events cx fuel (items ++ rest) (pending ++ filters) β
        if hasRow inner then inner else inner ++ p.events cx fuel rest pending β
      | some (.optional .remove items filters _, rest) =>
        let inner := p.events cx fuel items (pending ++ filters) β
        .probe inner :: if hasRow inner then [] else p.events cx fuel rest pending β

/-! ## Playing a trace -/

mutual

/-- Plays a trace until the plan is given up or the `LIMIT` is filled. -/
def Plan.process (p : Plan) : List Event → Tally → Except ViewError Tally
  | [], t => .ok t
  | ev :: evs, t =>
    if t.abandoned || p.full t then .ok t
    else
      match p.playOne ev t with
      | .error e => .error e
      | .ok t => p.process evs t

def Plan.playOne (p : Plan) : Event → Tally → Except ViewError Tally
  | .row β, t => .ok (p.emit β { t with completions := t.completions + 1 })
  | .probe evs, t =>
    match p.process evs t with
    | .error e => .error e
    | .ok after => .ok { after with out := after.out.take t.out.length, completions := t.completions }
  | .stray, t => .ok t
  | .halt, t => .ok { t with abandoned := true }
  | .fail e, _ => .error e

end

theorem process_stopped {p : Plan} {t : Tally} (h : (t.abandoned || p.full t) = true) (evs : List Event) :
    p.process evs t = .ok t := by
  cases evs with
  | nil => rw [Plan.process]
  | cons ev evs => rw [Plan.process, if_pos h]

theorem process_append (p : Plan) (evs evs' : List Event) (t : Tally) :
    p.process (evs ++ evs') t = (p.process evs t).bind (p.process evs') := by
  induction evs generalizing t with
  | nil => rw [List.nil_append, Plan.process]; rfl
  | cons ev evs ih =>
    rw [List.cons_append, Plan.process, Plan.process]
    split
    · rename_i h
      exact (process_stopped h evs').symm
    · cases p.playOne ev t with
      | error e => rfl
      | ok t => exact ih t

/-! ## What playing does to the counters -/

theorem full_false_of_le {p : Plan} {t t' : Tally} (h : p.full t = false) (hle : t'.out.length ≤ t.out.length) :
    p.full t' = false := by
  cases hl : p.limit with
  | none => simp [Plan.full, hl]
  | some l =>
    simp only [Plan.full, hl, Option.any_some, decide_eq_false_iff_not, ge_iff_le, not_le] at h ⊢
    omega

theorem emit_completions (p : Plan) (β : Bindings) (t : Tally) : (p.emit β t).completions = t.completions := by
  unfold Plan.emit
  simp only
  split_ifs <;> rfl

theorem emit_abandoned (p : Plan) (β : Bindings) (t : Tally) : (p.emit β t).abandoned = t.abandoned := by
  unfold Plan.emit
  simp only
  split_ifs <;> rfl

/-- A trace whose tally is not given up has counted a completion exactly when a row was
completed, provided the `LIMIT` was open to begin with. -/
theorem process_completions {p : Plan} {evs : List Event} {t t' : Tally} (h : p.process evs t = .ok t')
    (ha : t'.abandoned = false) (hf : p.full t = false) (ha₀ : t.abandoned = false) :
    (t'.completions = t.completions ↔ hasRow evs = false) ∧ t.completions ≤ t'.completions := by
  induction evs generalizing t with
  | nil =>
    rw [Plan.process] at h
    cases h
    simp [hasRow]
  | cons ev evs ih =>
    rw [Plan.process, if_neg (by simp [hf, ha₀])] at h
    cases ev with
    | row β =>
      rw [Plan.playOne] at h
      simp only at h
      have hc := emit_completions p β { t with completions := t.completions + 1 }
      have hle : t.completions + 1 ≤ t'.completions := by
        by_cases hf' : p.full (p.emit β { t with completions := t.completions + 1 }) = true
        · rw [process_stopped (by simp [hf'])] at h
          cases h
          exact le_of_eq hc.symm
        · have hab := emit_abandoned p β { t with completions := t.completions + 1 }
          have := (ih h (by simpa using hf') (hab.trans ha₀)).2
          rw [hc] at this
          exact this
      exact ⟨⟨fun e => by omega, fun e => by simp [hasRow, Event.isRow] at e⟩, by omega⟩
    | probe inner =>
      rw [Plan.playOne] at h
      cases hin : p.process inner t with
      | error e => rw [hin] at h; cases h
      | ok after =>
        rw [hin] at h
        simp only at h
        have hfull : p.full { after with out := after.out.take t.out.length, completions := t.completions } = false :=
          full_false_of_le hf (by simp)
        by_cases hab : after.abandoned = true
        · rw [process_stopped (by simp [hab])] at h
          cases h
          simp [hab] at ha
        · have := ih h hfull (by simpa using hab)
          simpa [hasRow, Event.isRow] using this
    | stray =>
      rw [Plan.playOne] at h
      simpa [hasRow, Event.isRow] using ih h hf ha₀
    | halt =>
      rw [Plan.playOne] at h
      simp only at h
      rw [process_stopped (by simp)] at h
      cases h
      simp at ha
    | fail e => rw [Plan.playOne] at h; cases h

/-! ## An evaluation is its trace, played -/

/-- The token never cancels, and there is no row budget. -/
def Limits.Open (limits : Limits) : Prop := limits.rows = none ∧ ∀ isCancelled ∈ limits.token, ∀ k, isCancelled k = false

/-- A run `x` from `run` against the trace played from the same tally: the same tally,
unless the run was given up on a limit. With open limits, the same result altogether. -/
structure Tracks (run : Run) (x : Except ViewError Run) (y : Except ViewError Tally) : Prop where
  kept : ∀ run', x = .ok run' → run'.abandoned = false → y = .ok run'.toTally
  same : run.limits.Open → x.map (·.toTally) = y
  limits : ∀ run', x = .ok run' → run'.limits = run.limits

theorem Tracks.ok {run run' : Run} {y : Except ViewError Tally} (hl : run'.limits = run.limits)
    (hy : y = .ok run'.toTally) : Tracks run (.ok run') y := by
  subst hy
  refine ⟨?_, fun _ => rfl, ?_⟩
  · rintro run'' ⟨⟩ -; rfl
  · rintro run'' ⟨⟩; exact hl

theorem Tracks.error (run : Run) (e : ViewError) : Tracks run (.error e) (.error e) :=
  ⟨by simp, fun _ => rfl, by simp⟩

theorem Tracks.of_limits {run run₁ : Run} {x : Except ViewError Run} {y : Except ViewError Tally}
    (h : Tracks run₁ x y) (hl : run₁.limits = run.limits) : Tracks run x y :=
  ⟨h.kept, fun ho => h.same (hl ▸ ho), fun run' hx => (h.limits run' hx).trans hl⟩

/-- Two parts of a run, one after the other: the second is not started when the first gave
up. -/
theorem Tracks.bind {run : Run} {x : Except ViewError Run} {y : Except ViewError Tally}
    {f : Run → Except ViewError Run} {g : Tally → Except ViewError Tally} (h : Tracks run x y)
    (hf : ∀ run₁, x = .ok run₁ → run₁.abandoned = false → Tracks run₁ (f run₁) (g run₁.toTally))
    (hab : ∀ run₁, run₁.abandoned = true → ∃ run₂, f run₁ = .ok run₂ ∧ run₂.abandoned = true ∧
      run₂.limits = run₁.limits ∧ g run₁.toTally = .ok run₂.toTally) :
    Tracks run (x.bind f) (y.bind g) := by
  cases x with
  | error e =>
    refine ⟨by simp [Except.bind], fun ho => ?_, by simp [Except.bind]⟩
    rw [← h.same ho]
    rfl
  | ok run₁ =>
    have hl := h.limits run₁ rfl
    by_cases ha : run₁.abandoned = true
    · obtain ⟨run₂, e₁, ha₂, hl₂, e₂⟩ := hab run₁ ha
      have hx : (Except.ok run₁ : Except ViewError Run).bind f = .ok run₂ := e₁
      rw [hx]
      refine ⟨?_, fun ho => ?_, ?_⟩
      · rintro run' ⟨⟩ hn; rw [ha₂] at hn; cases hn
      · rw [← h.same ho]; exact e₂.symm
      · rintro run' ⟨⟩; exact hl₂.trans hl
    · have ha' : run₁.abandoned = false := by simpa using ha
      have hy := h.kept run₁ rfl ha'
      rw [hy]
      exact (hf run₁ rfl ha').of_limits hl

theorem done_false {run run₁ : Run} (h : run.done = (false, run₁)) :
    run.abandoned = false ∧ run₁.toTally = run.toTally ∧ run₁.limits = run.limits := by
  unfold Run.done at h
  split_ifs at h with h1 h2 h3 h4 <;> cases h
  · exact ⟨by simpa using h1, rfl, rfl⟩
  · exact ⟨by simpa using h1, rfl, rfl⟩

theorem done_true {run run₁ : Run} (h : run.done = (true, run₁)) :
    run₁.abandoned = true ∧ run₁.limits = run.limits ∧ (run.limits.Open → run₁ = run ∧ run.abandoned = true) := by
  unfold Run.done at h
  split_ifs at h with h1 h2 h3 h4 <;> cases h
  · exact ⟨h1, rfl, fun _ => ⟨rfl, h1⟩⟩
  · exact ⟨rfl, rfl, fun ho => by simp [ho.1] at h2⟩
  · refine ⟨rfl, rfl, fun ho => ?_⟩
    cases ht : run.limits.token with
    | none => simp [ht] at h4
    | some isCancelled => simp [ht, ho.2 isCancelled (by simp [ht])] at h4

/-- A run stopped by its limits before a trace is played. -/
theorem Tracks.stopped {p : Plan} {run run₁ : Run} (h : run.done = (true, run₁)) (evs : List Event) :
    Tracks run (.ok run₁) (p.process evs run.toTally) := by
  obtain ⟨ha, hl, ho⟩ := done_true h
  refine ⟨?_, fun hopen => ?_, ?_⟩
  · rintro run' ⟨⟩ hn; rw [ha] at hn; cases hn
  · obtain ⟨rfl, hab⟩ := ho hopen
    rw [process_stopped (by simp [hab])]
    rfl
  · rintro run' ⟨⟩; exact hl

theorem process_cons {p : Plan} {t : Tally} (ha : t.abandoned = false) (hf : p.full t = false) (ev : Event)
    (evs : List Event) : p.process (ev :: evs) t = (p.playOne ev t).bind (p.process evs) := by
  rw [Plan.process, if_neg (by simp [ha, hf])]
  cases p.playOne ev t <;> rfl

/-- The loop over candidates tracks their traces, if its body tracks each. -/
theorem forEach_tracks {p : Plan} {body : Bindings → Run → Except ViewError Run} {ev : Bindings → List Event}
    (hbody : ∀ β run, Tracks run (body β run) (p.process (ev β) run.toTally)) (attempts : List Attempt) (run : Run)
    (ha : run.abandoned = false) (hf : p.full run.toTally = false) :
    Tracks run (forEach p body attempts run) (p.process (attemptEvents ev attempts) run.toTally) := by
  induction attempts generalizing run with
  | nil => exact Tracks.ok rfl (by rw [attemptEvents, List.flatMap_nil, Plan.process])
  | cons attempt attempts ih =>
    have hcons : ∀ x, attemptEvents ev (x :: attempts) = attemptEvents ev [x] ++ attemptEvents ev attempts := by
      simp [attemptEvents]
    cases attempt with
    | fail e =>
      have hy : p.process (attemptEvents ev (.fail e :: attempts)) run.toTally = .error e := by
        rw [hcons, show attemptEvents ev [.fail e] = [.fail e] from rfl, List.singleton_append,
          process_cons ha hf, Plan.playOne]
        rfl
      rw [forEach, hy]
      exact Tracks.error run e
    | missing =>
      rw [forEach]
      cases hd : run.done with
      | mk stop run₁ =>
        cases stop with
        | true => exact Tracks.stopped hd _
        | false =>
          obtain ⟨-, ht, hl⟩ := done_false hd
          refine Tracks.ok hl ?_
          rw [hcons, show attemptEvents ev [.missing] = [.halt] from rfl, List.singleton_append, process_cons ha hf,
            Plan.playOne]
          show p.process _ _ = _
          rw [process_stopped (by simp)]
          simp [ht]
      · simp
    | conflict =>
      rw [forEach]
      cases hd : run.done with
      | mk stop run₁ =>
        cases stop with
        | true => exact Tracks.stopped hd _
        | false =>
          obtain ⟨-, ht, hl⟩ := done_false hd
          rw [hcons, show attemptEvents ev [.conflict] = [] from rfl, List.nil_append, ← ht]
          exact (ih run₁ (by rw [ht]; exact ha) (by rw [ht]; exact hf)).of_limits hl
      · simp
    | bound β =>
      rw [forEach]
      cases hd : run.done with
      | mk stop run₁ =>
        cases stop with
        | true => exact Tracks.stopped hd _
        | false =>
          obtain ⟨-, ht, hl⟩ := done_false hd
          rw [hcons, show attemptEvents ev [.bound β] = ev β by simp [attemptEvents], process_append, ← ht]
          refine Tracks.of_limits (Tracks.bind (hbody β run₁) (fun run₂ _ ha₂ => ?_) fun run₂ ha₂ => ?_) hl
          · simp only [ha₂, Bool.false_or]
            by_cases hf₂ : p.full run₂.toTally = true
            · rw [if_pos hf₂]
              exact Tracks.ok rfl (process_stopped (by simp [hf₂]) _)
            · rw [if_neg hf₂]
              exact ih run₂ ha₂ (by simpa using hf₂)
          · exact ⟨run₂, by simp [ha₂], ha₂, rfl, process_stopped (by simp [ha₂]) _⟩
      · simp

/-- The loop over the branches of a union. -/
theorem branches_track {p : Plan} {body : List PatternItem → Run → Except ViewError Run}
    {ev : List PatternItem → List Event}
    (hbody : ∀ branch run, Tracks run (body branch run) (p.process (ev branch) run.toTally))
    (branches : List (List PatternItem)) (run : Run) :
    Tracks run (branches.foldlM (fun run branch => if run.abandoned || p.full run.toTally then .ok run
      else body branch run) run) (p.process (branches.flatMap ev) run.toTally) := by
  induction branches generalizing run with
  | nil => exact Tracks.ok rfl (by rw [List.flatMap_nil, Plan.process])
  | cons branch branches ih =>
    rw [List.foldlM_cons, List.flatMap_cons, process_append]
    have hstop : ∀ run₁ : Run, (run₁.abandoned || p.full run₁.toTally) = true →
        branches.foldlM (fun run branch => if run.abandoned || p.full run.toTally then .ok run
          else body branch run) run₁ = (.ok run₁ : Except ViewError Run) := by
      intro run₁ h
      clear ih
      induction branches with
      | nil => rfl
      | cons b bs ihb => rw [List.foldlM_cons, if_pos h]; exact ihb
    refine Tracks.bind ?_ (fun run₁ _ _ => ih run₁) fun run₁ ha => ?_
    · by_cases h : (run.abandoned || p.full run.toTally) = true
      · rw [if_pos h]
        exact Tracks.ok rfl (process_stopped h _)
      · rw [if_neg h]
        exact hbody branch run
    · exact ⟨run₁, hstop run₁ (by simp [ha]), ha, rfl, process_stopped (by simp [ha]) _⟩

/-- An evaluation step is its trace, played. -/
theorem step_tracks (p : Plan) (cx : Context) (fuel : Nat) (todo : List Item) (pending : List Nat) (β : Bindings)
    (run : Run) : Tracks run (p.step cx fuel todo pending β run) (p.process (p.events cx fuel todo pending β) run.toTally) := by
  induction fuel generalizing todo pending β run with
  | zero => exact Tracks.ok rfl (by rw [Plan.events, Plan.process])
  | succ fuel ih =>
    rw [Plan.step]
    cases hd : run.done with
    | mk stop run₁ =>
    cases stop with
    | true => exact Tracks.stopped hd _
    | false =>
    obtain ⟨ha, ht, hl⟩ := done_false hd
    rw [← ht]
    have ha₁ : run₁.abandoned = false := by rw [ht]; exact ha
    refine Tracks.of_limits ?_ hl
    rw [Plan.events]
    simp only
    cases p.settle cx.holds β pending with
    | none => exact Tracks.ok rfl (by rw [Plan.process])
    | some pending =>
    simp only
    by_cases hf : p.full run₁.toTally = true
    · rw [if_pos hf]
      exact Tracks.ok rfl (process_stopped (by simp [hf]) _)
    rw [if_neg hf]
    have hf₁ : p.full run₁.toTally = false := by simpa using hf
    cases choose cx.prefer todo β with
    | none =>
      refine Tracks.ok rfl ?_
      rw [process_cons ha₁ hf₁, Plan.playOne]
      show p.process [] _ = _
      rw [Plan.process]
    | some next =>
    obtain ⟨item, rest⟩ := next
    cases item with
    | pattern pattern => exact forEach_tracks (fun β run => ih rest pending β run) _ run₁ ha₁ hf₁
    | union branches => exact branches_track (fun branch run => ih (branch.map .pattern ++ rest) pending β run) branches run₁
    | values values => exact forEach_tracks (fun β run => ih rest pending β run) _ run₁ ha₁ hf₁
    | closure closure =>
      simp only
      have hstray : p.process (if strays cx.view closure β then [Event.stray] else []) run₁.toTally = .ok run₁.toTally := by
        split
        · rw [process_cons ha₁ hf₁, Plan.playOne]
          show p.process [] _ = _
          rw [Plan.process]
        · rw [Plan.process]
      rw [process_append, hstray]
      show Tracks run₁ _ (p.process _ run₁.toTally)
      cases closureAnswer cx.view closure β with
      | error e =>
        have hy : p.process [.fail e] run₁.toTally = .error e := by rw [process_cons ha₁ hf₁, Plan.playOne]; rfl
        simp only [hy]
        exact Tracks.error run₁ e
      | ok answer =>
        cases answer with
        | abandon =>
          refine Tracks.ok rfl ?_
          rw [process_cons ha₁ hf₁, Plan.playOne]
          exact process_stopped (by simp) _
        | zero attempt =>
          cases attempt with
          | bound β => exact ih rest pending β run₁
          | fail e => exact Tracks.ok rfl (by rw [Plan.process])
          | missing => exact Tracks.ok rfl (by rw [Plan.process])
          | conflict => exact Tracks.ok rfl (by rw [Plan.process])
        | walk attempts => exact forEach_tracks (fun β run => ih rest pending β run) _ run₁ ha₁ hf₁
    | optional mode items filters fresh =>
      cases mode with
      | extend =>
        -- whether the optional matched is read off the completions, which count its rows
        have hinner := ih (items ++ rest) (pending ++ filters) β run₁
        simp only
        generalize p.events cx fuel (items ++ rest) (pending ++ filters) β = inner at hinner ⊢
        have hy : p.process (if hasRow inner then inner else inner ++ p.events cx fuel rest pending β) run₁.toTally =
            (p.process inner run₁.toTally).bind (fun t =>
              if hasRow inner then .ok t else p.process (p.events cx fuel rest pending β) t) := by
          cases hasRow inner with
          | true => simp only [if_true]; cases p.process inner run₁.toTally <;> rfl
          | false => simp only [Bool.false_eq_true, if_false]; exact process_append p inner _ _
        rw [hy]
        refine Tracks.bind hinner (fun run₂ hx ha₂ => ?_) fun run₂ ha₂ => ?_
        · have hc := (process_completions (hinner.kept run₂ hx ha₂) ha₂ hf₁ ha₁).1
          cases hr : hasRow inner with
          | true =>
            have hne : run₂.completions ≠ run₁.completions := fun e => by simpa [hr] using hc.1 e
            simp only [hne, decide_false, Bool.false_and, Bool.false_eq_true, if_false, if_true]
            exact Tracks.ok rfl rfl
          | false =>
            have he : run₂.completions = run₁.completions := hc.2 hr
            simp only [he, ha₂, decide_true, Bool.not_false, Bool.and_self, if_true, Bool.false_eq_true, if_false]
            exact ih rest pending β run₂
        · refine ⟨run₂, by simp [ha₂], ha₂, rfl, ?_⟩
          cases hasRow inner with
          | true => rfl
          | false => exact process_stopped (by simp [ha₂]) _
      | remove =>
        have hinner := ih items (pending ++ filters) β run₁
        simp only
        generalize p.events cx fuel items (pending ++ filters) β = inner at hinner ⊢
        have hy : p.process (.probe inner :: if hasRow inner then [] else p.events cx fuel rest pending β) run₁.toTally =
            (p.process inner run₁.toTally).bind (fun after =>
              p.process (if hasRow inner then [] else p.events cx fuel rest pending β)
                { after with out := after.out.take run₁.out.length, completions := run₁.completions }) := by
          rw [process_cons ha₁ hf₁, Plan.playOne]
          cases p.process inner run₁.toTally <;> rfl
        rw [hy]
        refine Tracks.bind hinner (fun run₂ hx ha₂ => ?_) fun run₂ ha₂ => ?_
        · have hc := (process_completions (hinner.kept run₂ hx ha₂) ha₂ hf₁ ha₁).1
          cases hr : hasRow inner with
          | true =>
            have hne : run₂.completions ≠ run₁.completions := fun e => by simpa [hr] using hc.1 e
            simp only [hne, decide_false, Bool.false_and, Bool.false_eq_true, if_false, if_true]
            exact Tracks.ok rfl (by rw [Plan.process])
          | false =>
            have he : run₂.completions = run₁.completions := hc.2 hr
            simp only [he, ha₂, decide_true, Bool.not_false, Bool.and_self, if_true, Bool.false_eq_true, if_false]
            exact (ih rest pending β _).of_limits rfl
        · refine ⟨{ run₂ with out := run₂.out.take run₁.out.length, completions := run₁.completions }, ?_, ha₂, rfl, ?_⟩
          · simp [ha₂]
          · exact process_stopped (by simp [ha₂]) _

end Holos.Engine.Bindjoin
