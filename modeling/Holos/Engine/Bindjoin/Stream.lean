import Holos.Engine.Bindjoin.Trace
/-!
# Streaming against collecting

`evaluateEach` plays the same trace as `evaluate` and takes nothing back: a row completed
inside a `MINUS` probe has reached the sink when the probe ends. And with `out` always empty
it never sees the `LIMIT` filled. `flow` is the sequence a sink is handed, each row with
whether a probe was open; `evaluateEach_eq_evaluate_iff` says when that is the answer.
-/

namespace Holos.Engine.Bindjoin

open Sparql

/-- The rows that survive `DISTINCT` and `OFFSET`, each marked if it was completed inside a
probe. -/
structure Flow where
  rows : List (Bool × Row)
  seen : List Row
  skipped : Nat

def Plan.flowRow (p : Plan) (inside : Bool) (β : Bindings) (σ : Flow) : Flow :=
  let row := p.project β
  if p.distinct && row ∈ σ.seen then σ
  else
    let σ := if p.distinct then { σ with seen := σ.seen ++ [row] } else σ
    if σ.skipped < p.offset then { σ with skipped := σ.skipped + 1 }
    else { σ with rows := σ.rows ++ [(inside, row)] }

mutual

/-- A whole trace, with no `LIMIT`; `none` if the plan is given up or a read fails. -/
def Plan.flow (p : Plan) (inside : Bool) : List Event → Flow → Option Flow
  | [], σ => some σ
  | ev :: evs, σ =>
    match p.flowOne inside ev σ with
    | none => none
    | some σ => p.flow inside evs σ

def Plan.flowOne (p : Plan) (inside : Bool) : Event → Flow → Option Flow
  | .row β, σ => some (p.flowRow inside β σ)
  | .probe evs, σ => p.flow true evs σ
  | .stray, σ => some σ
  | .halt, _ => none
  | .fail _, _ => none

end

/-! ## What a flow adds -/

/-- Rows are added at the end; once one has survived, the offset is used up. -/
structure Flow.Adds (p : Plan) (σ σ' : Flow) : Prop where
  rows : ∃ added, σ'.rows = σ.rows ++ added
  past : (σ.rows ≠ [] → p.offset ≤ σ.skipped) → σ'.rows ≠ [] → p.offset ≤ σ'.skipped

theorem Flow.Adds.refl (p : Plan) (σ : Flow) : Flow.Adds p σ σ := ⟨⟨[], by simp⟩, fun h => h⟩

theorem Flow.Adds.trans {p : Plan} {σ σ' σ'' : Flow} (h : Flow.Adds p σ σ') (h' : Flow.Adds p σ' σ'') :
    Flow.Adds p σ σ'' := by
  obtain ⟨a, ha⟩ := h.rows
  obtain ⟨b, hb⟩ := h'.rows
  exact ⟨⟨a ++ b, by rw [hb, ha, List.append_assoc]⟩, fun hp => h'.past (h.past hp)⟩

theorem Flow.Adds.length {p : Plan} {σ σ' : Flow} (h : Flow.Adds p σ σ') : σ.rows.length ≤ σ'.rows.length := by
  obtain ⟨a, ha⟩ := h.rows
  simp [ha]

/-- The four things a completed row can come to. -/
theorem flowRow_cases (p : Plan) (inside : Bool) (β : Bindings) (σ : Flow) :
    (p.flowRow inside β σ = σ ∧ p.distinct = true ∧ p.project β ∈ σ.seen) ∨
    ((p.distinct = true → p.project β ∉ σ.seen) ∧ ∃ seen, seen = (if p.distinct then σ.seen ++ [p.project β] else σ.seen) ∧
      ((σ.skipped < p.offset ∧ p.flowRow inside β σ = ⟨σ.rows, seen, σ.skipped + 1⟩) ∨
       (p.offset ≤ σ.skipped ∧ p.flowRow inside β σ = ⟨σ.rows ++ [(inside, p.project β)], seen, σ.skipped⟩))) := by
  unfold Plan.flowRow
  by_cases hd : p.distinct = true
  · by_cases hs : p.project β ∈ σ.seen
    · exact .inl ⟨by simp [hd, hs], hd, hs⟩
    · refine .inr ⟨fun _ => hs, _, rfl, ?_⟩
      by_cases hk : σ.skipped < p.offset
      · exact .inl ⟨hk, by simp [hd, hs, hk]⟩
      · exact .inr ⟨not_lt.1 hk, by simp [hd, hs, hk]⟩
  · refine .inr ⟨fun h => absurd h hd, _, rfl, ?_⟩
    by_cases hk : σ.skipped < p.offset
    · exact .inl ⟨hk, by simp [hd, hk]⟩
    · exact .inr ⟨not_lt.1 hk, by simp [hd, hk]⟩

theorem flowRow_adds (p : Plan) (inside : Bool) (β : Bindings) (σ : Flow) : Flow.Adds p σ (p.flowRow inside β σ) := by
  rcases flowRow_cases p inside β σ with ⟨e, -, -⟩ | ⟨-, seen, -, ⟨hk, e⟩ | ⟨hk, e⟩⟩
  · rw [e]; exact Flow.Adds.refl p σ
  · rw [e]; exact ⟨⟨[], by simp⟩, fun h hne => le_trans (h hne) (Nat.le_succ _)⟩
  · rw [e]; exact ⟨⟨_, rfl⟩, fun _ _ => hk⟩

mutual

theorem flow_adds (p : Plan) : ∀ (evs : List Event) (inside : Bool) (σ σ' : Flow),
    p.flow inside evs σ = some σ' → Flow.Adds p σ σ'
  | [], _, σ, σ', h => by
    rw [Plan.flow] at h
    cases h
    exact Flow.Adds.refl p σ
  | ev :: evs, inside, σ, σ', h => by
    rw [Plan.flow] at h
    cases h₁ : p.flowOne inside ev σ with
    | none => rw [h₁] at h; cases h
    | some σ₁ =>
      rw [h₁] at h
      exact (flowOne_adds p ev inside σ σ₁ h₁).trans (flow_adds p evs inside σ₁ σ' h)

theorem flowOne_adds (p : Plan) : ∀ (ev : Event) (inside : Bool) (σ σ' : Flow),
    p.flowOne inside ev σ = some σ' → Flow.Adds p σ σ'
  | .row β, inside, σ, σ', h => by
    rw [Plan.flowOne] at h
    cases h
    exact flowRow_adds p inside β σ
  | .probe evs, _, σ, σ', h => by
    rw [Plan.flowOne] at h
    exact flow_adds p evs true σ σ' h
  | .stray, _, σ, σ', h => by
    rw [Plan.flowOne] at h
    cases h
    exact Flow.Adds.refl p σ
  | .halt, _, _, _, h => by rw [Plan.flowOne] at h; cases h
  | .fail _, _, _, _, h => by rw [Plan.flowOne] at h; cases h

end

mutual

/-- After the last surviving row a trace changes nothing: what follows it was seen before. -/
theorem flow_idle (p : Plan) : ∀ (evs : List Event) (inside : Bool) (σ σ' : Flow), p.flow inside evs σ = some σ' →
    p.offset ≤ σ.skipped → σ'.rows.length ≤ σ.rows.length → σ' = σ
  | [], _, σ, σ', h, _, _ => by
    rw [Plan.flow] at h
    cases h
    rfl
  | ev :: evs, inside, σ, σ', h, hk, hlen => by
    rw [Plan.flow] at h
    cases h₁ : p.flowOne inside ev σ with
    | none => rw [h₁] at h; cases h
    | some σ₁ =>
      rw [h₁] at h
      have hle := (flow_adds p evs inside σ₁ σ' h).length
      obtain rfl := flowOne_idle p ev inside σ σ₁ h₁ hk (le_trans hle hlen)
      exact flow_idle p evs inside _ σ' h hk hlen

theorem flowOne_idle (p : Plan) : ∀ (ev : Event) (inside : Bool) (σ σ' : Flow), p.flowOne inside ev σ = some σ' →
    p.offset ≤ σ.skipped → σ'.rows.length ≤ σ.rows.length → σ' = σ
  | .row β, inside, σ, σ', h, hk, hlen => by
    rw [Plan.flowOne] at h
    cases h
    rcases flowRow_cases p inside β σ with ⟨e, -, -⟩ | ⟨-, seen, -, ⟨hlt, -⟩ | ⟨-, e⟩⟩
    · exact e
    · omega
    · rw [e] at hlen
      simp at hlen
  | .probe evs, _, σ, σ', h, hk, hlen => by
    rw [Plan.flowOne] at h
    exact flow_idle p evs true σ σ' h hk hlen
  | .stray, _, σ, σ', h, _, _ => by
    rw [Plan.flowOne] at h
    cases h
    rfl
  | .halt, _, _, _, h, _, _ => by rw [Plan.flowOne] at h; cases h
  | .fail _, _, _, _, h, _, _ => by rw [Plan.flowOne] at h; cases h

end

mutual

/-- Everything completed inside a probe is marked. -/
theorem flow_inside (p : Plan) : ∀ (evs : List Event) (σ σ' : Flow), p.flow true evs σ = some σ' →
    ∃ added, σ'.rows = σ.rows ++ added ∧ ∀ r ∈ added, r.1 = true
  | [], σ, σ', h => by
    rw [Plan.flow] at h
    cases h
    exact ⟨[], by simp, by simp⟩
  | ev :: evs, σ, σ', h => by
    rw [Plan.flow] at h
    cases h₁ : p.flowOne true ev σ with
    | none => rw [h₁] at h; cases h
    | some σ₁ =>
      rw [h₁] at h
      obtain ⟨a, ha, hma⟩ := flowOne_inside p ev σ σ₁ h₁
      obtain ⟨b, hb, hmb⟩ := flow_inside p evs σ₁ σ' h
      refine ⟨a ++ b, by rw [hb, ha, List.append_assoc], fun r hr => ?_⟩
      rcases List.mem_append.1 hr with hr | hr
      · exact hma r hr
      · exact hmb r hr

theorem flowOne_inside (p : Plan) : ∀ (ev : Event) (σ σ' : Flow), p.flowOne true ev σ = some σ' →
    ∃ added, σ'.rows = σ.rows ++ added ∧ ∀ r ∈ added, r.1 = true
  | .row β, σ, σ', h => by
    rw [Plan.flowOne] at h
    cases h
    rcases flowRow_cases p true β σ with ⟨e, -, -⟩ | ⟨-, seen, -, ⟨-, e⟩ | ⟨-, e⟩⟩
    · exact ⟨[], by simp [e], by simp⟩
    · exact ⟨[], by simp [e], by simp⟩
    · exact ⟨[(true, p.project β)], by simp [e], by simp⟩
  | .probe evs, σ, σ', h => by
    rw [Plan.flowOne] at h
    exact flow_inside p evs σ σ' h
  | .stray, σ, σ', h => by
    rw [Plan.flowOne] at h
    cases h
    exact ⟨[], by simp, by simp⟩
  | .halt, _, _, h => by rw [Plan.flowOne] at h; cases h
  | .fail _, _, _, h => by rw [Plan.flowOne] at h; cases h

end

/-! ## A sink sees the flow -/

structure SinkPair (σ : Flow) (t : Tally) : Prop where
  sink : t.sink = true
  on : t.abandoned = false
  out : t.out = []
  seen : t.seen = σ.seen
  skipped : t.skipped = σ.skipped
  sunk : t.sunk = σ.rows.map (·.2)

/-- The result of playing a trace, against its flow: a tally that pairs with it, or none. -/
def SinkResult : Option Flow → Except ViewError Tally → Prop
  | some σ, y => ∃ t, y = .ok t ∧ SinkPair σ t
  | none, y => ∀ t, y = .ok t → t.abandoned = true

theorem emit_sink {p : Plan} {σ : Flow} {t : Tally} (h : SinkPair σ t) (inside : Bool) (β : Bindings) :
    SinkPair (p.flowRow inside β σ) (p.emit β { t with completions := t.completions + 1 }) := by
  obtain ⟨hs, ha, ho, hseen, hsk, hsunk⟩ := h
  rcases flowRow_cases p inside β σ with ⟨e, hd, hin⟩ | ⟨hnew, seen, hse, ⟨hk, e⟩ | ⟨hk, e⟩⟩
  · rw [e]
    have : p.emit β { t with completions := t.completions + 1 } = { t with completions := t.completions + 1 } := by
      simp [Plan.emit, hd, hseen, hin]
    rw [this]
    exact ⟨hs, ha, ho, hseen, hsk, hsunk⟩
  · rw [e]
    by_cases hd : p.distinct = true
    · constructor <;> simp [Plan.emit, hd, hseen, hsk, hk, hs, ha, ho, hsunk, hnew hd, hse]
    · constructor <;> simp [Plan.emit, hd, hseen, hsk, hk, hs, ha, ho, hsunk, hse]
  · rw [e]
    by_cases hd : p.distinct = true
    · constructor <;> simp [Plan.emit, hd, hseen, hsk, not_lt.2 hk, hs, ha, ho, hsunk, hnew hd, hse]
    · constructor <;> simp [Plan.emit, hd, hseen, hsk, not_lt.2 hk, hs, ha, ho, hsunk, hse]

mutual

theorem process_sink (p : Plan) (hl : p.limit ≠ some 0) : ∀ (evs : List Event) (inside : Bool) (σ : Flow) (t : Tally),
    SinkPair σ t → SinkResult (p.flow inside evs σ) (p.process evs t)
  | [], _, σ, t, h => by
    rw [Plan.flow, Plan.process]
    exact ⟨t, rfl, h⟩
  | ev :: evs, inside, σ, t, h => by
    have hfull : p.full t = false := by
      cases hlim : p.limit with
      | none => simp [Plan.full, hlim]
      | some l =>
        have : l ≠ 0 := fun e => hl (by rw [hlim, e])
        simp only [Plan.full, hlim, Option.any_some, h.out, List.length_nil, decide_eq_false_iff_not]
        omega
    rw [Plan.flow, process_cons h.on hfull]
    have h₁ := playOne_sink p hl ev inside σ t h
    cases hσ : p.flowOne inside ev σ with
    | none =>
      rw [hσ] at h₁
      intro t' ht'
      cases hy : p.playOne ev t with
      | error e => rw [hy] at ht'; cases ht'
      | ok t₁ =>
        have ha₁ := h₁ t₁ hy
        rw [hy] at ht'
        have : p.process evs t₁ = .ok t' := ht'
        rw [process_stopped (by simp [ha₁])] at this
        cases this
        exact ha₁
    | some σ₁ =>
      rw [hσ] at h₁
      obtain ⟨t₁, hy, hp⟩ := h₁
      rw [hy]
      exact process_sink p hl evs inside σ₁ t₁ hp

theorem playOne_sink (p : Plan) (hl : p.limit ≠ some 0) : ∀ (ev : Event) (inside : Bool) (σ : Flow) (t : Tally),
    SinkPair σ t → SinkResult (p.flowOne inside ev σ) (p.playOne ev t)
  | .row β, inside, σ, t, h => by
    rw [Plan.flowOne, Plan.playOne]
    exact ⟨_, rfl, emit_sink h inside β⟩
  | .probe evs, _, σ, t, h => by
    rw [Plan.flowOne, Plan.playOne]
    have h₁ := process_sink p hl evs true σ t h
    cases hσ : p.flow true evs σ with
    | none =>
      rw [hσ] at h₁
      intro t' ht'
      cases hy : p.process evs t with
      | error e => rw [hy] at ht'; cases ht'
      | ok t₁ =>
        rw [hy] at ht'
        cases ht'
        exact h₁ t₁ hy
    | some σ₁ =>
      rw [hσ] at h₁
      obtain ⟨t₁, hy, hp⟩ := h₁
      rw [hy]
      exact ⟨_, rfl, hp.sink, hp.on, by simp [hp.out], hp.seen, hp.skipped, hp.sunk⟩
  | .stray, _, σ, t, h => by
    rw [Plan.flowOne, Plan.playOne]
    exact ⟨t, rfl, h⟩
  | .halt, _, _, t, _ => by
    rw [Plan.flowOne, Plan.playOne]
    intro t' ht'
    cases ht'
    rfl
  | .fail e, _, _, t, _ => by
    rw [Plan.flowOne, Plan.playOne]
    intro t' ht'
    cases ht'

end

/-! ## Collecting, while the flow fits the limit -/

structure OutPair (p : Plan) (σ : Flow) (t : Tally) : Prop where
  sink : t.sink = false
  on : t.abandoned = false
  seen : t.seen = σ.seen
  skipped : t.skipped = σ.skipped
  length : t.out.length ≤ σ.rows.length
  past : σ.rows ≠ [] → p.offset ≤ σ.skipped

/-- The rows a level itself adds to `out`: those not marked, where the level is not inside a
probe. -/
def outside (rows : List (Bool × Row)) : List Row := (rows.filter (fun r => !r.1)).map (·.2)

structure Collects (p : Plan) (inside : Bool) (σ σ' : Flow) (t t' : Tally) : Prop where
  pair : OutPair p σ' t'
  out : ∃ new, t'.out = t.out ++ new ∧ (inside = false → outside σ'.rows = outside σ.rows ++ new)

/-- The limit admits every row of the flow. -/
def Fits (p : Plan) (σ : Flow) : Prop := ∀ l ∈ p.limit, 0 < l ∧ σ.rows.length ≤ l

theorem Collects.refl {p : Plan} {inside : Bool} {σ : Flow} {t : Tally} (h : OutPair p σ t) :
    Collects p inside σ σ t t :=
  ⟨h, [], by simp, by simp⟩

theorem Collects.trans {p : Plan} {inside : Bool} {σ σ' σ'' : Flow} {t t' t'' : Tally}
    (h : Collects p inside σ σ' t t') (h' : Collects p inside σ' σ'' t' t'') : Collects p inside σ σ'' t t'' := by
  obtain ⟨a, ha, hb⟩ := h.out
  obtain ⟨a', ha', hb'⟩ := h'.out
  exact ⟨h'.pair, a ++ a', by rw [ha', ha, List.append_assoc], fun hi => by rw [hb' hi, hb hi, List.append_assoc]⟩

theorem emit_collects {p : Plan} {σ : Flow} {t : Tally} (h : OutPair p σ t) (inside : Bool) (β : Bindings) :
    Collects p inside σ (p.flowRow inside β σ) t (p.emit β { t with completions := t.completions + 1 }) := by
  have hpast := (flowRow_adds p inside β σ).past h.past
  obtain ⟨hs, ha, hseen, hsk, hlen, -⟩ := h
  rcases flowRow_cases p inside β σ with ⟨e, hd, hin⟩ | ⟨hnew, seen, hse, ⟨hk, e⟩ | ⟨hk, e⟩⟩
  · have he : p.emit β { t with completions := t.completions + 1 } = { t with completions := t.completions + 1 } := by
      simp [Plan.emit, hd, hseen, hin]
    rw [he]
    rw [e] at hpast ⊢
    exact ⟨⟨hs, ha, hseen, hsk, hlen, hpast⟩, [], by simp, by simp⟩
  · have he : p.emit β { t with completions := t.completions + 1 } =
        { t with completions := t.completions + 1, seen := seen, skipped := σ.skipped + 1 } := by
      by_cases hd : p.distinct = true
      · simp [Plan.emit, hd, hseen, hsk, hk, hnew hd, hse]
      · simp [Plan.emit, hd, hseen, hsk, hk, hse]
    rw [he]
    rw [e] at hpast ⊢
    exact ⟨⟨hs, ha, rfl, rfl, hlen, hpast⟩, [], by simp, by simp⟩
  · have he : p.emit β { t with completions := t.completions + 1 } =
        { t with completions := t.completions + 1, seen := seen, out := t.out ++ [p.project β] } := by
      by_cases hd : p.distinct = true
      · simp [Plan.emit, hd, hseen, hsk, not_lt.2 hk, hs, hnew hd, hse]
      · simp [Plan.emit, hd, hseen, hsk, not_lt.2 hk, hs, hse]
    rw [he]
    rw [e] at hpast ⊢
    refine ⟨⟨hs, ha, rfl, hsk, by simpa using hlen, hpast⟩, [p.project β], rfl, fun hi => ?_⟩
    simp [outside, hi]

mutual

/-- As long as the flow fits the limit, collecting keeps pace with it: the same rows seen
and skipped, and in `out` those that no probe took back. -/
theorem process_collects (p : Plan) : ∀ (evs : List Event) (inside : Bool) (σ σ' : Flow) (t : Tally), OutPair p σ t →
    p.flow inside evs σ = some σ' → Fits p σ' → ∃ t', p.process evs t = .ok t' ∧ Collects p inside σ σ' t t'
  | [], inside, σ, σ', t, h, hσ, _ => by
    rw [Plan.flow] at hσ
    cases hσ
    rw [Plan.process]
    exact ⟨t, rfl, Collects.refl h⟩
  | ev :: evs, inside, σ, σ', t, h, hσ, hfit => by
    have hadds := flow_adds p (ev :: evs) inside σ σ' hσ
    cases hf : p.full t with
    | true =>
      -- the limit is filled: every row of the flow is already there
      obtain ⟨l, hl, hle⟩ : ∃ l, p.limit = some l ∧ l ≤ t.out.length := by
        cases hl : p.limit with
        | none => simp [Plan.full, hl] at hf
        | some l => exact ⟨l, rfl, by simpa [Plan.full, hl] using hf⟩
      obtain ⟨hpos, hfl⟩ := hfit l hl
      have hlen := h.length
      have hne : σ.rows ≠ [] := by
        intro e
        rw [e] at hlen
        simp at hlen
        rw [hlen] at hle
        simp at hle
        omega
      obtain rfl := flow_idle p (ev :: evs) inside σ σ' hσ (h.past hne) (by omega)
      exact ⟨t, process_stopped (by simp [hf]) _, Collects.refl h⟩
    | false =>
      rw [Plan.flow] at hσ
      rw [process_cons h.on hf]
      cases h₁ : p.flowOne inside ev σ with
      | none => rw [h₁] at hσ; cases hσ
      | some σ₁ =>
        rw [h₁] at hσ
        have hrest := (flow_adds p evs inside σ₁ σ' hσ).length
        have hfit₁ : Fits p σ₁ := fun l hl => ⟨(hfit l hl).1, le_trans hrest (hfit l hl).2⟩
        obtain ⟨t₁, hy, hc⟩ := playOne_collects p ev inside σ σ₁ t h h₁ hfit₁
        obtain ⟨t', hy', hc'⟩ := process_collects p evs inside σ₁ σ' t₁ hc.pair hσ hfit
        exact ⟨t', by rw [hy]; exact hy', hc.trans hc'⟩

theorem playOne_collects (p : Plan) : ∀ (ev : Event) (inside : Bool) (σ σ' : Flow) (t : Tally), OutPair p σ t →
    p.flowOne inside ev σ = some σ' → Fits p σ' → ∃ t', p.playOne ev t = .ok t' ∧ Collects p inside σ σ' t t'
  | .row β, inside, σ, σ', t, h, hσ, _ => by
    rw [Plan.flowOne] at hσ
    cases hσ
    rw [Plan.playOne]
    exact ⟨_, rfl, emit_collects h inside β⟩
  | .probe evs, inside, σ, σ', t, h, hσ, hfit => by
    rw [Plan.flowOne] at hσ
    obtain ⟨t₁, hy, hc⟩ := process_collects p evs true σ σ' t h hσ hfit
    obtain ⟨new, hnew, -⟩ := hc.out
    obtain ⟨hs, ha, hseen, hsk, -, hpast⟩ := hc.pair
    have hout : t₁.out.take t.out.length = t.out := by simp [hnew]
    rw [Plan.playOne, hy]
    refine ⟨_, rfl, ⟨hs, ha, hseen, hsk, ?_, hpast⟩, [], by simp [hout], fun _ => ?_⟩
    · simp only [hout]
      exact le_trans h.length (flow_adds p evs true σ σ' hσ).length
    · obtain ⟨added, hadded, hall⟩ := flow_inside p evs σ σ' hσ
      have hnone : added.filter (fun r => !r.1) = [] := List.filter_eq_nil_iff.2 (fun r hr => by simp [hall r hr])
      simp [hadded, outside, List.filter_append, hnone]
  | .stray, inside, σ, σ', t, h, hσ, _ => by
    rw [Plan.flowOne] at hσ
    cases hσ
    rw [Plan.playOne]
    exact ⟨t, rfl, Collects.refl h⟩
  | .halt, _, _, _, _, _, hσ, _ => by rw [Plan.flowOne] at hσ; cases hσ
  | .fail _, _, _, _, _, _, hσ, _ => by rw [Plan.flowOne] at hσ; cases hσ

end

/-! ## The flow, as a list -/

mutual

/-- Every completed row of a trace, in order; `none` if the plan is given up or a read
fails. -/
def completed (inside : Bool) : List Event → Option (List (Bool × Bindings))
  | [] => some []
  | ev :: evs =>
    match completedOne inside ev, completed inside evs with
    | some found, some rest => some (found ++ rest)
    | _, _ => none

def completedOne (inside : Bool) : Event → Option (List (Bool × Bindings))
  | .row β => some [(inside, β)]
  | .probe evs => completed true evs
  | .stray => some []
  | .halt => none
  | .fail _ => none

end

/-- The first of each row, of those not seen before. -/
def firsts : List Row → List (Bool × Row) → List (Bool × Row)
  | _, [] => []
  | seen, r :: rows => if r.2 ∈ seen then firsts seen rows else r :: firsts (seen ++ [r.2]) rows

/-- What `DISTINCT` and `OFFSET` leave of the completed rows. -/
def Plan.survivors (p : Plan) (found : List (Bool × Bindings)) : List (Bool × Row) :=
  let rows := found.map (fun r => (r.1, p.project r.2))
  (if p.distinct then firsts [] rows else rows).drop p.offset

mutual

theorem flow_eq_foldl (p : Plan) : ∀ (evs : List Event) (inside : Bool) (σ : Flow),
    p.flow inside evs σ = (completed inside evs).map (List.foldl (fun σ r => p.flowRow r.1 r.2 σ) σ)
  | [], _, σ => by rw [Plan.flow, completed]; rfl
  | ev :: evs, inside, σ => by
    rw [Plan.flow, completed, flowOne_eq_foldl p ev inside σ]
    cases completedOne inside ev with
    | none => rfl
    | some found =>
      simp only [Option.map_some, flow_eq_foldl p evs inside]
      cases completed inside evs with
      | none => rfl
      | some rest => simp only [Option.map_some, List.foldl_append]

theorem flowOne_eq_foldl (p : Plan) : ∀ (ev : Event) (inside : Bool) (σ : Flow),
    p.flowOne inside ev σ = (completedOne inside ev).map (List.foldl (fun σ r => p.flowRow r.1 r.2 σ) σ)
  | .row β, inside, σ => by rw [Plan.flowOne, completedOne]; rfl
  | .probe evs, _, σ => by rw [Plan.flowOne, completedOne]; exact flow_eq_foldl p evs true σ
  | .stray, _, _ => by rw [Plan.flowOne, completedOne]; rfl
  | .halt, _, _ => by rw [Plan.flowOne, completedOne]; rfl
  | .fail _, _, _ => by rw [Plan.flowOne, completedOne]; rfl

end

theorem drop_sub_succ {α : Type} {n k : Nat} (h : k < n) (x : α) (xs : List α) :
    (x :: xs).drop (n - k) = xs.drop (n - (k + 1)) := by
  rw [show n - k = (n - (k + 1)) + 1 by omega, List.drop_succ_cons]

theorem foldl_flowRow (p : Plan) (found : List (Bool × Bindings)) (σ : Flow) :
    (found.foldl (fun σ r => p.flowRow r.1 r.2 σ) σ).rows =
      σ.rows ++ ((if p.distinct then firsts σ.seen (found.map (fun r => (r.1, p.project r.2)))
        else found.map (fun r => (r.1, p.project r.2))).drop (p.offset - σ.skipped)) := by
  induction found generalizing σ with
  | nil => simp [firsts]
  | cons r found ih =>
    rw [List.foldl_cons, ih, List.map_cons]
    rcases flowRow_cases p r.1 r.2 σ with ⟨e, hd, hin⟩ | ⟨hnew, seen, hse, ⟨hk, e⟩ | ⟨hk, e⟩⟩
    · simp [e, hd, hin, firsts]
    · by_cases hd : p.distinct = true
      · simp [e, hd, hse, firsts, hnew hd, drop_sub_succ hk]
      · simp [e, hd, drop_sub_succ hk]
    · have h0 : p.offset - σ.skipped = 0 := by omega
      by_cases hd : p.distinct = true
      · simp [e, hd, hse, firsts, hnew hd, h0]
      · simp [e, hd, h0]

theorem flow_start (p : Plan) (evs : List Event) :
    (p.flow false evs ⟨[], [], 0⟩).map (·.rows) = (completed false evs).map p.survivors := by
  rw [flow_eq_foldl, Option.map_map]
  congr 1
  funext found
  simp [foldl_flowRow, Plan.survivors]

/-! ## The limit is never passed -/

theorem playOne_out_le {p : Plan} {l : Nat} {ev : Event} {t t' : Tally} (h : p.playOne ev t = .ok t')
    (hlt : t.out.length < l) : t'.out.length ≤ l := by
  cases ev with
  | row β =>
    rw [Plan.playOne] at h
    cases h
    unfold Plan.emit
    simp only
    split_ifs <;> simp only [List.length_append, List.length_singleton] <;> omega
  | probe evs =>
    rw [Plan.playOne] at h
    cases h₁ : p.process evs t with
    | error e => rw [h₁] at h; cases h
    | ok after =>
      rw [h₁] at h
      cases h
      simp only [List.length_take]
      omega
  | stray =>
    rw [Plan.playOne] at h
    cases h
    exact le_of_lt hlt
  | halt =>
    rw [Plan.playOne] at h
    cases h
    exact le_of_lt hlt
  | fail e => rw [Plan.playOne] at h; cases h

theorem process_out_le {p : Plan} {l : Nat} (hl : p.limit = some l) {evs : List Event} {t t' : Tally}
    (h : p.process evs t = .ok t') (hle : t.out.length ≤ l) : t'.out.length ≤ l := by
  induction evs generalizing t with
  | nil =>
    rw [Plan.process] at h
    cases h
    exact hle
  | cons ev evs ih =>
    rw [Plan.process] at h
    split at h
    · cases h
      exact hle
    · rename_i hgo
      have hlt : t.out.length < l := by
        simp only [Plan.full, hl, Option.any_some, Bool.or_eq_true, decide_eq_true_eq, not_or] at hgo
        omega
      cases h₁ : p.playOne ev t with
      | error e => rw [h₁] at h; cases h
      | ok t₁ =>
        rw [h₁] at h
        exact ih h (playOne_out_le h₁ hlt)

/-! ## When the two agree -/

/-- The trace of the whole plan. -/
def Plan.trace (p : Plan) (cx : Context) : List Event :=
  p.events cx (itemsSize p.items + 1) p.items
    ((List.range p.filters.length).filter (fun i => !(i ∈ ownedByOptionals p.items))) ∅

theorem run_eq_process (p : Plan) (cx : Context) {limits : Limits} (ho : limits.Open) (sink : Bool) :
    (p.run cx limits sink).map (·.toTally) = p.process (p.trace cx) (Tally.start sink) :=
  (step_tracks p cx _ _ _ ∅ ⟨Tally.start sink, limits, 0, 0⟩).same ho

theorem evaluate_eq_some_iff (p : Plan) (cx : Context) {limits : Limits} (ho : limits.Open) (rows : List Row) :
    p.evaluate cx limits = .ok (some rows) ↔
      ∃ t, p.process (p.trace cx) (Tally.start false) = .ok t ∧ t.abandoned = false ∧ t.out = rows := by
  rw [← run_eq_process p cx ho, Plan.evaluate]
  cases p.run cx limits false with
  | error e => simp [bind, Except.bind, Except.map]
  | ok run => cases ha : run.abandoned <;> simp [bind, Except.bind, Except.map, pure, Except.pure, ha]

theorem evaluateEach_eq_ok_iff (p : Plan) (cx : Context) {limits : Limits} (ho : limits.Open) (rows : List Row) :
    p.evaluateEach cx limits = .ok (true, rows) ↔
      ∃ t, p.process (p.trace cx) (Tally.start true) = .ok t ∧ t.abandoned = false ∧ t.sunk = rows := by
  have ho' : Limits.Open ⟨none, limits.token⟩ := ⟨rfl, ho.2⟩
  rw [← run_eq_process p cx ho', Plan.evaluateEach]
  cases p.run cx ⟨none, limits.token⟩ true with
  | error e => simp [bind, Except.bind, Except.map]
  | ok run => cases ha : run.abandoned <;> simp [bind, Except.bind, Except.map, pure, Except.pure, ha]

theorem outside_eq_map {rows : List (Bool × Row)} : outside rows = rows.map (·.2) ↔ ∀ r ∈ rows, r.1 = false := by
  constructor
  · intro h r hr
    have hlen := congrArg List.length h
    simp only [outside, List.length_map] at hlen
    simpa using List.length_filter_eq_length_iff.1 hlen r hr
  · intro h
    rw [outside, List.filter_eq_self.2 fun r hr => by simp [h r hr]]

/-- A plan that collects an answer also streams it exactly when its `LIMIT` is nought, or
nothing stops the search, no row completed inside a `MINUS` probe survives `DISTINCT` and
`OFFSET`, and the `LIMIT` admits what does. -/
theorem evaluateEach_eq_evaluate_iff (p : Plan) (cx : Context) (limits : Limits) (ho : limits.Open) (rows : List Row)
    (h : p.evaluate cx limits = .ok (some rows)) :
    p.evaluateEach cx limits = .ok (true, rows) ↔
      p.limit = some 0 ∨ ∃ found, completed false (p.trace cx) = some found ∧
        (∀ r ∈ p.survivors found, r.1 = false) ∧ ∀ l ∈ p.limit, (p.survivors found).length ≤ l := by
  obtain ⟨t, hy, ha, rfl⟩ := (evaluate_eq_some_iff p cx ho rows).1 h
  rw [evaluateEach_eq_ok_iff p cx ho]
  by_cases h0 : p.limit = some 0
  · -- nothing is ever emitted
    have hfull : ∀ sink, p.process (p.trace cx) (Tally.start sink) = .ok (Tally.start sink) := fun sink =>
      process_stopped (by simp [Plan.full, h0]) _
    rw [hfull] at hy
    cases hy
    exact ⟨fun _ => .inl h0, fun _ => ⟨_, hfull true, rfl, rfl⟩⟩
  have hflow := flow_start p (p.trace cx)
  have hsink := process_sink p h0 (p.trace cx) false ⟨[], [], 0⟩ (Tally.start true) ⟨rfl, rfl, rfl, rfl, rfl, rfl⟩
  have hpair : OutPair p ⟨[], [], 0⟩ (Tally.start false) := ⟨rfl, rfl, rfl, rfl, le_rfl, by simp⟩
  -- once the flow fits the limit, what is collected is what no probe took back
  have hout : ∀ S, p.flow false (p.trace cx) ⟨[], [], 0⟩ = some S → (∀ l ∈ p.limit, S.rows.length ≤ l) →
      t.out = outside S.rows := by
    intro S hS hle
    have hfit : Fits p S := fun l hl => ⟨Nat.pos_of_ne_zero (fun e => h0 (e ▸ hl)), hle l hl⟩
    obtain ⟨t', hy', hc⟩ := process_collects p _ false _ S _ hpair hS hfit
    obtain ⟨new, hnew, hrows⟩ := hc.out
    rw [hy] at hy'
    cases hy'
    rw [hrows rfl]
    exact hnew
  simp only [h0, false_or]
  constructor
  · rintro ⟨t₁, hy₁, ha₁, hsunk⟩
    cases hS : p.flow false (p.trace cx) ⟨[], [], 0⟩ with
    | none =>
      rw [hS] at hsink
      have := hsink t₁ hy₁
      rw [ha₁] at this
      cases this
    | some S =>
      rw [hS] at hsink hflow
      obtain ⟨t₂, hy₂, hp⟩ := hsink
      rw [hy₁] at hy₂
      cases hy₂
      obtain ⟨found, hfound, hsurv⟩ := Option.map_eq_some_iff.1 hflow.symm
      have hrows : S.rows.map (·.2) = t.out := hp.sunk.symm.trans hsunk
      have hle : ∀ l ∈ p.limit, S.rows.length ≤ l := by
        intro l hl
        have := process_out_le hl hy (Nat.zero_le l)
        rwa [← hrows, List.length_map] at this
      refine ⟨found, hfound, ?_, by rwa [hsurv]⟩
      rw [hsurv]
      exact outside_eq_map.1 ((hout S hS hle).symm.trans hrows.symm)
  · rintro ⟨found, hfound, hmark, hle⟩
    rw [hfound] at hflow
    obtain ⟨S, hS, hsurv⟩ := Option.map_eq_some_iff.1 hflow
    rw [← hsurv] at hmark hle
    rw [hS] at hsink
    obtain ⟨t₁, hy₁, hp⟩ := hsink
    exact ⟨t₁, hy₁, hp.on, by rw [hp.sunk, hout S hS hle, outside_eq_map.2 hmark]⟩

/-- `SELECT ?x { ?x :p ?y MINUS { ?x :q ?y } }`. -/
def minusQuery : Query :=
  .select none (.project (.minus (.bgp [⟨.var (.named "x"), .namedNode "p", .var (.named "y")⟩])
    (.bgp [⟨.var (.named "x"), .namedNode "q", .var (.named "y")⟩])) [.named "x"])

/-- A context over a store everyone may read, which takes the items in the order written. -/
def openContext (store : Store) (holds : Expression → Bindings → Bool) : Context :=
  ⟨⟨store, .permitAll⟩, fun _ _ => 0, holds⟩

/-- `:a :p :b` and `:a :q :b`. -/
def removedRow : Store :=
  Store.ofOps (Store.internedIris ["a", "b", "p", "q"]) 4 [.insert ⟨0, 2, 1, none⟩, .insert ⟨0, 3, 1, none⟩]

/-- The one left solution is removed, and the sink has been handed it. -/
theorem minus_streams_removed : ∃ p, plan (fun _ => true) minusQuery = some p ∧
    p.evaluate (openContext removedRow fun _ _ => true) ⟨none, none⟩ = .ok (some []) ∧
    p.evaluateEach (openContext removedRow fun _ _ => true) ⟨none, none⟩ = .ok (true, [[some 0]]) :=
  ⟨_, rfl, rfl, rfl⟩

/-- `:a :p :b`, and nothing for the `MINUS` to match. -/
def keptRow : Store := Store.ofOps (Store.internedIris ["a", "b", "p", "q"]) 4 [.insert ⟨0, 2, 1, none⟩]

theorem minus_streams_kept : ∃ p, plan (fun _ => true) minusQuery = some p ∧
    p.evaluate (openContext keptRow fun _ _ => true) ⟨none, none⟩ = .ok (some [[some 0]]) ∧
    p.evaluateEach (openContext keptRow fun _ _ => true) ⟨none, none⟩ = .ok (true, [[some 0]]) := by
  refine ⟨_, rfl, rfl, ?_⟩
  refine (evaluateEach_eq_evaluate_iff _ _ ⟨none, none⟩ ⟨rfl, by simp⟩ [[some 0]] rfl).2 (.inr ⟨_, rfl, ?_, ?_⟩)
  · decide
  · rintro l ⟨⟩

end Holos.Engine.Bindjoin
