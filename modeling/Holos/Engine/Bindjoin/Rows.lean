import Holos.Engine.Bindjoin.Stream
import Holos.Engine.Bindjoin.Hoist
/-!
# The rows a run collects

From a trace to the rows of the answer. A run that is not given up has emitted the rows of
its trace in order, up to where the `LIMIT` was filled (`process_rows`); what it has then
collected is a selection of them: without duplicates for a `DISTINCT`, and as many as the
slice leaves.

This needs the probes of a `MINUS` to leave no trace. What a probe emits is taken back from
the rows, but neither from the set a `DISTINCT` keeps nor from the count of an `OFFSET`, so
with either of them the probes have to emit nothing.
-/

namespace Holos.Engine.Bindjoin

open Sparql Lib

/-! ## Strays and probes -/

mutual

/-- A closure has strayed from one graph. -/
def Event.strayed : Event → Bool
  | .stray => true
  | .probe evs => strayed evs
  | _ => false

def strayed : List Event → Bool
  | [] => false
  | ev :: evs => ev.strayed || strayed evs

end

mutual

/-- No probe completes a row. -/
def Event.quiet : Event → Bool
  | .probe evs => !hasRow evs && quiet evs
  | _ => true

def quiet : List Event → Bool
  | [] => true
  | ev :: evs => ev.quiet && quiet evs

end

/-! ## What a probe leaves behind -/

section Process
variable {p : Plan}

theorem emit_starts (β : Bindings) (t : Tally) : t.out <+: (p.emit β t).out := by
  unfold Plan.emit
  simp only
  split_ifs <;> simp

theorem emit_sink_eq (β : Bindings) (t : Tally) : (p.emit β t).sink = t.sink := by
  unfold Plan.emit
  simp only
  split_ifs <;> rfl

mutual

/-- Rows are only ever added to `out`. -/
theorem process_starts : ∀ (evs : List Event) (t t' : Tally), p.process evs t = .ok t' → t.out <+: t'.out
  | [], t, t', h => by
    rw [Plan.process] at h
    cases h
    exact List.prefix_rfl
  | ev :: evs, t, t', h => by
    rw [Plan.process] at h
    split at h
    · cases h
      exact List.prefix_rfl
    · cases h₁ : p.playOne ev t with
      | error e => rw [h₁] at h; cases h
      | ok t₁ =>
        rw [h₁] at h
        exact (playOne_starts ev t t₁ h₁).trans (process_starts evs t₁ t' h)

theorem playOne_starts : ∀ (ev : Event) (t t' : Tally), p.playOne ev t = .ok t' → t.out <+: t'.out
  | .row β, t, t', h => by
    rw [Plan.playOne] at h
    cases h
    exact emit_starts β { t with completions := t.completions + 1 }
  | .probe evs, t, t', h => by
    rw [Plan.playOne] at h
    cases h₁ : p.process evs t with
    | error e => rw [h₁] at h; cases h
    | ok after =>
      rw [h₁] at h
      cases h
      rw [← List.prefix_iff_eq_take.1 (process_starts evs t after h₁)]
  | .stray, t, t', h => by
    rw [Plan.playOne] at h
    cases h
    exact List.prefix_rfl
  | .halt, t, t', h => by
    rw [Plan.playOne] at h
    cases h
    exact List.prefix_rfl
  | .fail e, t, t', h => by rw [Plan.playOne] at h; cases h

end

/-- The parts of a tally that are not taken back. -/
structure SameMarks (t t' : Tally) : Prop where
  sink : t'.sink = t.sink
  sunk : t'.sunk = t.sunk
  seen : t'.seen = t.seen
  skipped : t'.skipped = t.skipped

theorem SameMarks.refl (t : Tally) : SameMarks t t := ⟨rfl, rfl, rfl, rfl⟩

theorem SameMarks.trans {t t' t'' : Tally} (h : SameMarks t t') (h' : SameMarks t' t'') : SameMarks t t'' :=
  ⟨h'.sink.trans h.sink, h'.sunk.trans h.sunk, h'.seen.trans h.seen, h'.skipped.trans h.skipped⟩

/-- Nothing that is emitted is remembered: there is no `DISTINCT` and no `OFFSET`. -/
def Plan.forgets (p : Plan) : Prop := p.distinct = false ∧ p.offset = 0

theorem emit_marks (hp : p.forgets) (β : Bindings) {t : Tally} (hs : t.sink = false) : SameMarks t (p.emit β t) := by
  have he : p.emit β t = { t with out := t.out ++ [p.project β] } := by simp [Plan.emit, hp.1, hp.2, hs]
  rw [he]
  exact ⟨rfl, rfl, rfl, rfl⟩

mutual

theorem process_marks : ∀ (evs : List Event) (t t' : Tally), t.sink = false →
    (p.forgets ∨ hasRow evs = false ∧ quiet evs = true) → p.process evs t = .ok t' → SameMarks t t'
  | [], t, t', _, _, h => by
    rw [Plan.process] at h
    cases h
    exact SameMarks.refl t
  | ev :: evs, t, t', hs, hq, h => by
    rw [Plan.process] at h
    split at h
    · cases h
      exact SameMarks.refl t
    · cases h₁ : p.playOne ev t with
      | error e => rw [h₁] at h; cases h
      | ok t₁ =>
        rw [h₁] at h
        have hev : p.forgets ∨ ev.isRow = false ∧ ev.quiet = true := hq.imp_right fun hq => by
          simp only [hasRow, List.any_cons, Bool.or_eq_false_iff, quiet, Bool.and_eq_true] at hq
          exact ⟨hq.1.1, hq.2.1⟩
        have hevs : p.forgets ∨ hasRow evs = false ∧ quiet evs = true := hq.imp_right fun hq => by
          simp only [hasRow, List.any_cons, Bool.or_eq_false_iff, quiet, Bool.and_eq_true] at hq
          exact ⟨hq.1.2, hq.2.2⟩
        have h₂ := playOne_marks ev t t₁ hs hev h₁
        exact h₂.trans (process_marks evs t₁ t' (h₂.sink.trans hs) hevs h)

theorem playOne_marks : ∀ (ev : Event) (t t' : Tally), t.sink = false →
    (p.forgets ∨ ev.isRow = false ∧ ev.quiet = true) → p.playOne ev t = .ok t' → SameMarks t t'
  | .row β, t, t', hs, hq, h => by
    rw [Plan.playOne] at h
    cases h
    have hp : p.forgets := hq.resolve_right fun h => by cases h.1
    have := emit_marks hp β (t := { t with completions := t.completions + 1 }) hs
    exact ⟨this.sink, this.sunk, this.seen, this.skipped⟩
  | .probe evs, t, t', hs, hq, h => by
    rw [Plan.playOne] at h
    cases h₁ : p.process evs t with
    | error e => rw [h₁] at h; cases h
    | ok after =>
      rw [h₁] at h
      cases h
      have := process_marks evs t after hs (hq.imp_right fun hq => by simpa [Event.quiet] using hq.2) h₁
      exact ⟨this.sink, this.sunk, this.seen, this.skipped⟩
  | .stray, t, t', _, _, h => by
    rw [Plan.playOne] at h
    cases h
    exact SameMarks.refl t
  | .halt, t, t', _, _, h => by
    rw [Plan.playOne] at h
    cases h
    exact ⟨rfl, rfl, rfl, rfl⟩
  | .fail e, t, t', _, _, h => by rw [Plan.playOne] at h; cases h

end

/-- A probe that is not given up leaves the tally as it was. -/
theorem playOne_probe {evs : List Event} {t t' : Tally} (hs : t.sink = false) (ha : t.abandoned = false)
    (hq : p.forgets ∨ (Event.probe evs).quiet = true) (h : p.playOne (.probe evs) t = .ok t') (ha' : t'.abandoned = false) :
    t' = t := by
  have hm := playOne_marks (.probe evs) t t' hs (hq.imp_right fun hq => ⟨rfl, hq⟩) h
  rw [Plan.playOne] at h
  cases h₁ : p.process evs t with
  | error e => rw [h₁] at h; cases h
  | ok after =>
    rw [h₁] at h
    cases h
    have hout := List.prefix_iff_eq_take.1 (process_starts evs t after h₁)
    obtain ⟨out, sink, sunk, seen, skipped, completions, abandoned⟩ := t
    obtain ⟨h1, h2, h3, h4⟩ := hm
    simp only at h1 h2 h3 h4 hout ha ha'
    simp [h1, h2, h3, h4, ← hout, ha, ha']

mutual

/-- A stop that comes before any row is reached, and the run is given up there. -/
theorem process_stop : ∀ (evs : List Event) (t t' : Tally), t.abandoned = false → p.full t = false →
    strayed evs = false → stopsIn evs = true → rowsBefore evs = [] → p.process evs t = .ok t' → t'.abandoned = true
  | [], _, _, _, _, _, hst, _, _ => by rw [stopsIn] at hst; cases hst
  | ev :: evs, t, t', ha, hf, hno, hst, hr, h => by
    rw [strayed, Bool.or_eq_false_iff] at hno
    rw [rowsBefore, List.append_eq_nil_iff] at hr
    rw [process_cons ha hf] at h
    cases h₁ : p.playOne ev t with
    | error e => rw [h₁] at h; cases h
    | ok t₁ =>
      rw [h₁] at h
      cases hab : t₁.abandoned with
      | true =>
        have h₂ : p.process evs t₁ = .ok t₁ := process_stopped (by simp [hab]) evs
        cases h₂.symm.trans h
        exact hab
      | false =>
        cases hes : ev.stops with
        | true =>
          have := playOne_stop ev t t₁ ha hf hno.1 hes h₁
          rw [hab] at this
          cases this
        | false =>
          rw [hes] at hr
          rw [stopsIn, hes, Bool.false_or] at hst
          have hout : t₁.out = t.out := by
            cases ev with
            | row β => cases hr.1
            | probe inner =>
              rw [Plan.playOne] at h₁
              cases h₂ : p.process inner t with
              | error e => rw [h₂] at h₁; cases h₁
              | ok after =>
                rw [h₂] at h₁
                cases h₁
                exact (List.prefix_iff_eq_take.1 (process_starts inner t after h₂)).symm
            | _ => cases hes
          have hf₁ : p.full t₁ = false := full_false_of_le hf (by rw [hout])
          exact process_stop evs t₁ t' hab hf₁ hno.2 hst hr.2 h

theorem playOne_stop : ∀ (ev : Event) (t t' : Tally), t.abandoned = false → p.full t = false →
    ev.strayed = false → ev.stops = true → p.playOne ev t = .ok t' → t'.abandoned = true
  | .row β, _, _, _, _, _, hst, _ => by rw [Event.stops] at hst; cases hst
  | .probe evs, t, t', ha, hf, hno, hst, h => by
    rw [Event.stops, Bool.and_eq_true] at hst
    rw [Plan.playOne] at h
    cases h₁ : p.process evs t with
    | error e => rw [h₁] at h; cases h
    | ok after =>
      rw [h₁] at h
      cases h
      exact process_stop evs t after ha hf hno hst.1 (by simpa using hst.2) h₁
  | .stray, _, _, _, _, hno, _, _ => by rw [Event.strayed] at hno; cases hno
  | .halt, t, t', _, _, _, _, h => by
    rw [Plan.playOne] at h
    cases h
    rfl
  | .fail e, _, _, _, _, _, _, h => by rw [Plan.playOne] at h; cases h

end

/-! ## The rows of a run -/

/-- One row counted and emitted. -/
def Plan.complete (p : Plan) (t : Tally) (β : Bindings) : Tally := p.emit β { t with completions := t.completions + 1 }

/-- A run that is not given up has completed the rows of its trace in order: all of them, or
those up to where the limit was filled. -/
theorem process_rows {evs : List Event} {t t' : Tally} (hs : t.sink = false) (ha : t.abandoned = false)
    (hno : strayed evs = false) (hq : p.forgets ∨ quiet evs = true) (h : p.process evs t = .ok t')
    (ha' : t'.abandoned = false) :
    ∃ R, R <+: rowsBefore evs ∧ t' = R.foldl p.complete t ∧
      (p.full t' = true ∨ stopsIn evs = false ∧ R = rowsBefore evs) := by
  induction evs generalizing t with
  | nil =>
    rw [Plan.process] at h
    cases h
    exact ⟨[], List.nil_prefix, rfl, .inr ⟨rfl, rfl⟩⟩
  | cons ev evs ih =>
    rw [strayed, Bool.or_eq_false_iff] at hno
    cases hf : p.full t with
    | true =>
      rw [process_stopped (by simp [hf])] at h
      cases h
      exact ⟨[], List.nil_prefix, rfl, .inl hf⟩
    | false =>
      rw [process_cons ha hf] at h
      cases h₁ : p.playOne ev t with
      | error e => rw [h₁] at h; cases h
      | ok t₁ =>
        rw [h₁] at h
        have hab : t₁.abandoned = false := by
          by_contra hab
          have h₂ : p.process evs t₁ = .ok t₁ := process_stopped (by simp [hab]) evs
          cases h₂.symm.trans h
          exact hab ha'
        have hst : ev.stops = false := by
          by_contra hst
          have := playOne_stop ev t t₁ ha hf hno.1 (by simpa using hst) h₁
          rw [hab] at this
          cases this
        have hq' : p.forgets ∨ quiet evs = true := hq.imp_right fun hq => by
          simp only [quiet, Bool.and_eq_true] at hq
          exact hq.2
        rw [rowsBefore, stopsIn, hst]
        cases ev with
        | row β =>
          rw [Plan.playOne] at h₁
          cases h₁
          have hsink : (p.emit β { t with completions := t.completions + 1 }).sink = false := (emit_sink_eq β _).trans hs
          obtain ⟨R, hR, ht', hend⟩ := ih hsink hab hno.2 hq' h
          exact ⟨β :: R, by simpa [Event.rows] using hR, ht', by simpa [Event.rows] using hend⟩
        | probe inner =>
          have hqp : p.forgets ∨ (Event.probe inner).quiet = true := hq.imp_right fun hq => by
            simp only [quiet, Bool.and_eq_true] at hq
            exact hq.1
          obtain rfl := playOne_probe hs ha hqp h₁ hab
          obtain ⟨R, hR, ht', hend⟩ := ih hs ha hno.2 hq' h
          exact ⟨R, by simpa [Event.rows] using hR, ht', by simpa [Event.rows] using hend⟩
        | _ => cases hst

/-! ## What is collected of them -/

/-- The rows that `DISTINCT` and `OFFSET` leave of the completed ones. -/
def Plan.kept (p : Plan) (R : List Bindings) : List Row := (p.survivors (R.map (fun β => (false, β)))).map (·.2)

theorem foldl_complete (R : List Bindings) {σ : Flow} {t : Tally} (h : OutPair p σ t) :
    Collects p false σ (R.foldl (fun σ β => p.flowRow false β σ) σ) t (R.foldl p.complete t) := by
  induction R generalizing σ t with
  | nil => exact Collects.refl h
  | cons β R ih =>
    have hone := emit_collects h false β
    exact hone.trans (ih hone.pair)

/-- `firsts` keeps some of the rows, each once, and one of each kind not seen before. -/
theorem firsts_spec (rows : List (Bool × Row)) (seen : List Row) :
    (∀ r ∈ firsts seen rows, r ∈ rows) ∧ ((firsts seen rows).map (·.2)).Nodup ∧
      ∀ row, row ∈ (firsts seen rows).map (·.2) ↔ row ∈ rows.map (·.2) ∧ row ∉ seen := by
  induction rows generalizing seen with
  | nil => simp [firsts]
  | cons r rows ih =>
    rw [firsts]
    split
    · rename_i hs
      obtain ⟨h1, h2, h3⟩ := ih seen
      refine ⟨fun x hx => List.mem_cons_of_mem _ (h1 x hx), h2, fun row => ?_⟩
      rw [h3, List.map_cons, List.mem_cons]
      constructor
      · exact fun h => ⟨.inr h.1, h.2⟩
      · rintro ⟨rfl | h, hn⟩
        · exact absurd hs hn
        · exact ⟨h, hn⟩
    · rename_i hs
      obtain ⟨h1, h2, h3⟩ := ih (seen ++ [r.2])
      refine ⟨fun x hx => ?_, ?_, fun row => ?_⟩
      · rcases List.mem_cons.1 hx with rfl | hx
        · exact List.mem_cons_self
        · exact List.mem_cons_of_mem _ (h1 x hx)
      · rw [List.map_cons, List.nodup_cons, h3]
        exact ⟨fun h => h.2 (by simp), h2⟩
      · rw [List.map_cons, List.mem_cons, h3, List.map_cons, List.mem_cons]
        by_cases he : row = r.2
        · subst he; simp [hs]
        · simp [he]

theorem survivors_unmarked (R : List Bindings) : ∀ r ∈ p.survivors (R.map (fun β => (false, β))), r.1 = false := by
  have hall : ∀ r ∈ (R.map (fun β => (false, β))).map (fun r => (r.1, p.project r.2)), r.1 = false := by simp
  intro r hr
  have hr' := List.mem_of_mem_drop hr
  split at hr'
  · exact hall r ((firsts_spec _ []).1 r hr')
  · exact hall r hr'

theorem out_complete (R : List Bindings) : (R.foldl p.complete (Tally.start false)).out = p.kept R := by
  have hpair : OutPair p ⟨[], [], 0⟩ (Tally.start false) := ⟨rfl, rfl, rfl, rfl, le_rfl, by simp⟩
  obtain ⟨new, hnew, hrows⟩ := (foldl_complete R hpair).out
  have hflow : (R.foldl (fun σ β => p.flowRow false β σ) ⟨[], [], 0⟩).rows = p.survivors (R.map (fun β => (false, β))) := by
    have hfold := foldl_flowRow p (R.map (fun β => (false, β))) ⟨[], [], 0⟩
    rw [List.foldl_map] at hfold
    simpa [Plan.survivors] using hfold
  have hsame := hrows rfl
  rw [hflow, outside_eq_map.2 (survivors_unmarked R)] at hsame
  rw [hnew, Plan.kept, hsame]
  rfl

/-- What is kept of all rows `T`: a `DISTINCT` keeps one of each. -/
def Plan.distinctRows (p : Plan) (T : Multiset Row) : Multiset Row := if p.distinct then T.dedup else T

/-- As many rows of `D` as the slice leaves. -/
structure Sliced (offset : Nat) (limit : Option Nat) (D rows : Multiset Row) : Prop where
  le : rows ≤ D
  card : rows.card = (limit.elim id min) (D.card - offset)

theorem kept_le {R : List Bindings} {T : Multiset Row} (h : (R.map p.project : Multiset Row) ≤ T) :
    (p.kept R : Multiset Row) ≤ p.distinctRows T ∧ (p.kept R).length ≤ (p.distinctRows T).card - p.offset ∧
      ((R.map p.project : Multiset Row) = T → (p.kept R).length = (p.distinctRows T).card - p.offset) := by
  have hrows : ((R.map (fun β => (false, β))).map (fun r => (r.1, p.project r.2))).map (·.2) = R.map p.project := by
    simp
  -- before the offset
  obtain ⟨whole, hkept, hle, hall⟩ : ∃ whole : List Row, p.kept R = whole.drop p.offset ∧
      (whole : Multiset Row) ≤ p.distinctRows T ∧
      ((R.map p.project : Multiset Row) = T → (whole : Multiset Row) = p.distinctRows T) := by
    unfold Plan.kept Plan.survivors Plan.distinctRows
    simp only
    by_cases hd : p.distinct = true
    · obtain ⟨-, hnd, hmem⟩ := firsts_spec ((R.map (fun β => (false, β))).map (fun r => (r.1, p.project r.2))) []
      rw [hrows] at hmem
      refine ⟨(firsts [] _).map (·.2), by rw [if_pos hd, List.map_drop], ?_, fun hT => ?_⟩
      · rw [if_pos hd, Multiset.le_iff_subset (Multiset.coe_nodup.2 hnd)]
        intro row hrow
        rw [Multiset.mem_dedup]
        exact Multiset.mem_of_le h ((hmem row).1 hrow).1
      · rw [if_pos hd, (Multiset.Nodup.ext (Multiset.coe_nodup.2 hnd) (Multiset.nodup_dedup T))]
        intro row
        rw [Multiset.mem_coe, hmem, Multiset.mem_dedup, ← hT]
        simp
    · refine ⟨R.map p.project, by rw [if_neg hd, List.map_drop, hrows], ?_, fun hT => ?_⟩
      · rw [if_neg hd]; exact h
      · rw [if_neg hd]; exact hT
  have hcard := Multiset.card_le_card hle
  rw [Multiset.coe_card] at hcard
  rw [hkept, List.length_drop]
  refine ⟨le_trans (Multiset.coe_le.2 (List.drop_sublist _ _).subperm) hle, by omega, fun hT => ?_⟩
  rw [← hall hT, Multiset.coe_card]

/-- What a run collects, of the rows its trace stands for. -/
theorem collected_rows {evs : List Event} {M : Multiset Solution} {t : Tally} (hev : Approx evs M)
    (hno : strayed evs = false) (hq : p.forgets ∨ quiet evs = true)
    (h : p.process evs (Tally.start false) = .ok t) (ha : t.abandoned = false) :
    Sliced p.offset p.limit (p.distinctRows (M.map p.project)) t.out := by
  obtain ⟨R, hR, rfl, hend⟩ := process_rows rfl rfl hno hq h ha
  have hle : (R : Multiset Solution) ≤ M := le_trans (Multiset.coe_le.2 hR.sublist.subperm) hev.le
  obtain ⟨h1, h2, h3⟩ := kept_le (p := p) (T := M.map p.project) (Multiset.map_le_map (f := p.project) hle)
  have hlimit : ∀ l ∈ p.limit, (p.kept R).length ≤ l := by
    intro l hl
    have := process_out_le hl h (Nat.zero_le l)
    rwa [out_complete] at this
  have hall : stopsIn evs = false ∧ R = rowsBefore evs → (p.kept R).length = (p.distinctRows (M.map p.project)).card - p.offset := by
    rintro ⟨hst, rfl⟩
    exact h3 (by rw [← hev.eq hst]; rfl)
  rw [out_complete]
  refine ⟨h1, ?_⟩
  rw [Multiset.coe_card]
  cases hl : p.limit with
  | none =>
    have hf : p.full (R.foldl p.complete (Tally.start false)) = false := by simp [Plan.full, hl]
    exact hall (hend.resolve_left (by simp [hf]))
  | some l =>
    have hlen := hlimit l hl
    rcases hend with hf | hend
    · simp only [Plan.full, hl, Option.any_some, decide_eq_true_eq, out_complete] at hf
      simp only [Option.elim_some]
      omega
    · have := hall hend
      simp only [Option.elim_some]
      omega

end Process

end Holos.Engine.Bindjoin
