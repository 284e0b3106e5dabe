import Holos.Holon.TickRuns
import Holos.Shacl.EngineRunTheorems
/-!
# Rules kept across ticks

`InStep` says that a bridge holds the scene. Firing brings it to the scene as the delta leaves
it. Accepting keeps it there and reverting brings it back, so a tick leaves it in step unless it
wrote to the scene what the bridge was not told of, or ended before the rules were settled.
-/

namespace Holos

open Lib Lib.Eff Security Shacl

def Triple.row (t : Triple) : Row := (t.subject.toTerm, .namedNode t.predicate, t.object)

theorem Triple.row_injective : Function.Injective Triple.row := by
  rintro ⟨s, p, o⟩ ⟨s', p', o'⟩ h
  obtain ⟨hs, hp, ho⟩ : s.toTerm = s'.toTerm ∧ p = p' ∧ o = o' := by simpa [Triple.row] using h
  cases Ids.subject_inj hs
  rw [hp, ho]

variable {B : Backend} {Sim : B.State → Held → Prop} {Open : B.State → Contents × Ids → Prop} {E : RuleEngine}
variable {holon : Holon}

/-- The bridge holds the triples of `S`, with shapes compiled from those of `Bd`. -/
structure InStep (ids : Ids) (S Bd : Set Triple) (holon : Holon) (rules : Rules E) : Prop where
  graph : (rules.run.graph : Set Row) = Triple.row '' S
  shapes : ∃ g : Finset Row, (g : Set Row) = Triple.row '' Bd ∧ E.compile g = .ok rules.run.shapes
  scene : rules.scene = holon.scene
  dataGraph : ∃ i, ids (.namedNode holon.scene) = some i ∧ rules.run.options.dataGraph = .named i
  shapesGraph : ∃ i, ids (.namedNode holon.boundary) = some i ∧ rules.run.options.shapesGraph = .named i
  stale : rules.run.stale = false
  pending : rules.run.pending = none

theorem InStep.mono {ids ids' : Ids} {S Bd : Set Triple} {rules : Rules E} (h : InStep ids S Bd holon rules) (hle : ids ≤ ids') :
    InStep ids' S Bd holon rules := by
  obtain ⟨i, hi, hd⟩ := h.dataGraph
  obtain ⟨j, hj, hs⟩ := h.shapesGraph
  exact ⟨h.graph, h.shapes, h.scene, ⟨i, hle _ _ hi, hd⟩, ⟨j, hle _ _ hj, hs⟩, h.stale, h.pending⟩

/-- Two bridges in step with one scene and boundary differ in nothing a tick looks at. -/
theorem InStep.unique {ids : Ids} {S Bd : Set Triple} {rules rules' : Rules E} (h : InStep ids S Bd holon rules)
    (h' : InStep ids S Bd holon rules') : rules.run.graph = rules'.run.graph ∧ rules.run.shapes = rules'.run.shapes := by
  refine ⟨Finset.coe_injective (h.graph.trans h'.graph.symm), ?_⟩
  obtain ⟨g, hg, hc⟩ := h.shapes
  obtain ⟨g', hg', hc'⟩ := h'.shapes
  cases Finset.coe_injective (hg.trans hg'.symm)
  exact Except.ok.inj (hc.symm.trans hc')

/-- The rules once what was fired is kept. -/
def Rules.accepted (rules : Rules E) : Rules E := { rules with run := rules.run.accept }

/-- However the store decodes then, what was fired can be taken back. -/
def Rules.Returns (ids : Ids) (S Bd : Set Triple) (holon : Holon) (rules : Rules E) : Prop :=
  ∀ decode, ∃ rules', rules.settle decode false = some rules' ∧ InStep ids S Bd holon rules' ∧
    Learns decode rules.run.forward rules'.run.forward

theorem InStep.returns {ids : Ids} {S Bd : Set Triple} {rules : Rules E} (h : InStep ids S Bd holon rules) :
    rules.Returns ids S Bd holon := by
  intro decode
  refine ⟨rules, ?_, h, .refl⟩
  unfold Rules.settle
  rw [if_neg (by decide), EngineRun.revert_none h.pending]
  rfl

/-- A change as an edit of the scene's triples. -/
def Applied.tripleEdit (a : Applied) : Edit Triple := a.operation.edit a.triple

/-- Firing brings the bridge to the scene as the delta leaves it, and answers what the rules infer
from that. -/
theorem Rules.fire_spec {decode : Decode} {ids₀ ids : Ids} {S Bd : Set Triple} {rules : Rules E} {asked : List Applied}
    (hstep : InStep ids₀ S Bd holon rules) (hids : ids₀ ≤ ids) (hne : holon.scene ≠ holon.boundary)
    (hdecode : ∀ t i, ids t = some i → decode i = .ok (some t))
    (hforward : ∀ i t t', rules.run.forward.lookup i = some t → ids t' = some i → t = t')
    (hrows : ∀ a ∈ asked, ids.quad (a.quad holon) = some a.encoded) (heff : Edit.Effective S (asked.map Applied.tripleEdit)) :
    ∃ rules', (Rules.fire decode holon (asked.map Applied.change)).exec rules =
        some ((rules'.run.infer maxRounds).mapError .shacl, rules') ∧
      InStep ids₀ (Edit.replay S (asked.map Applied.tripleEdit)) Bd holon rules'.accepted ∧
      rules'.Returns ids₀ S Bd holon ∧ Learns decode rules.run.forward rules'.run.forward := by
  obtain ⟨i, hi, hdata⟩ := hstep.dataGraph
  obtain ⟨j, hj, hshapes⟩ := hstep.shapesGraph
  have hij : j ≠ i := by
    rintro rfl
    exact hne (Term.namedNode.inj (Ids.term_inj hi hj))
  have hresolves : ∀ t k, ids t = some k → Resolves decode rules.run.forward k t := by
    intro t k hk
    cases hl : rules.run.forward.lookup k with
    | some t' => exact .inl (by rw [hl, hforward k t' t hl hk])
    | none => exact .inr ⟨hl, hdecode t k hk⟩
  have hgraph : ∀ a ∈ asked, a.encoded.graphName = some i := by
    intro a ha
    obtain ⟨-, -, -, hg⟩ := Ids.quad_eq_some.1 (hrows a ha)
    obtain ⟨k, hk, hk'⟩ := Option.map_eq_some_iff.1 hg
    cases (hids _ _ hi).symm.trans hk
    exact hk'.symm
  have hlegible : EngineRun.Legible decode rules.run.checkpoint Applied.change (fun a => a.triple.row) asked := by
    refine ⟨fun a ha => ?_, fun a ha => ?_, fun a ha => ?_⟩
    · change inGraph a.encoded.graphName rules.run.options.dataGraph = true
      rw [hgraph a ha, hdata]
      exact decide_eq_true rfl
    · change inGraph a.encoded.graphName rules.run.options.shapesGraph = false
      rw [hgraph a ha, hshapes]
      exact decide_eq_false (fun heq => hij (Option.some.inj heq).symm)
    · obtain ⟨hs, hp, ho, -⟩ := Ids.quad_eq_some.1 (hrows a ha)
      exact ⟨hresolves _ _ hs, hresolves _ _ hp, hresolves _ _ ho⟩
  obtain ⟨run', he, hg', hlearn, hknown, hsh', hop', hst', hpend'⟩ := EngineRun.apply_spec (show rules.run.checkpoint.stale = false from hstep.stale) hlegible
  -- the changes as edits of rows are the changes as edits of triples
  have hedits : asked.map (fun a => EngineRun.edit a.triple.row a.change.added) =
      (asked.map Applied.tripleEdit).map (Edit.map Triple.row) := by
    rw [List.map_map]
    refine List.map_congr_left (fun a _ => ?_)
    obtain ⟨op, t, e⟩ := a
    cases op <;> rfl
  rw [hedits] at hg'
  have hstart : (rules.run.checkpoint.graph : Set Row) = Triple.row '' S := hstep.graph
  rw [hstart, Edit.replay_image Triple.row_injective] at hg'
  refine ⟨{ rules with run := run' }, ?_, ⟨hg', ?_, hstep.scene, ?_, ?_, hst', rfl⟩, fun decode' => ?_, hlearn⟩
  · unfold Rules.fire
    simp only [exec_bind, exec_get, Option.bind_some]
    rw [if_neg (not_not.2 hstep.scene)]
    simp only [exec_bind, exec_modify, Option.bind_some, exec_on, exec_mapError, he, Option.map_some, exec_reads]
    rfl
  · obtain ⟨g, hgB, hc⟩ := hstep.shapes
    exact ⟨g, hgB, by rw [hc]; exact congrArg _ hsh'.symm⟩
  · exact ⟨i, hi, (congrArg Options.dataGraph hop').trans hdata⟩
  · exact ⟨j, hj, (congrArg Options.shapesGraph hop').trans hshapes⟩
  · have hpending : run'.pending = some (asked.map Applied.change) := hpend'
    have heff' : Edit.Effective (Triple.row '' S) (asked.map (fun a => EngineRun.edit a.triple.row a.change.added)) := by
      rw [hedits]
      exact heff.image Triple.row_injective
    have hreplayed : (run'.graph : Set Row) = Edit.replay (Triple.row '' S)
        (asked.map (fun a => EngineRun.edit a.triple.row a.change.added)) := by
      rw [hedits, Edit.replay_image Triple.row_injective]
      exact hg'
    obtain ⟨run'', hrev, hg'', hsh'', hop'', hst'', hpend'', hlearn''⟩ := @EngineRun.revert_spec decode' _ _ _ _ _ _ _ hst' hpending
      (fun a ha => by rw [hop']; exact hlegible.data a ha) (fun a ha => by rw [hop']; exact hlegible.shapes a ha) hknown heff' hreplayed
    refine ⟨{ rules with run := run'' }, ?_, ⟨hg'', ?_, hstep.scene, ?_, ?_, hst'', hpend''⟩, hlearn''⟩
    · unfold Rules.settle
      rw [if_neg (by decide), hrev]
      rfl
    · obtain ⟨g, hgB, hc⟩ := hstep.shapes
      exact ⟨g, hgB, by rw [hc]; exact congrArg _ (hsh''.trans hsh').symm⟩
    · exact ⟨i, hi, (congrArg Options.dataGraph (hop''.trans hop')).trans hdata⟩
    · exact ⟨j, hj, (congrArg Options.shapesGraph (hop''.trans hop')).trans hshapes⟩

end Holos
