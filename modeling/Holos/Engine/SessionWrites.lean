import Holos.Engine.AccessTheorems
/-!
# A session's writes in a scope

`Acting w₀ h₀ w h`: in a scope opened on `h₀`, by the session that `w₀` began with. Each write says
which quads and which named graphs there are afterwards, and a quad that is removed was granted by
the policy the session had when asked.
-/

namespace Holos

open Lib Lib.Eff Security

/-! ## Named graphs -/

namespace Held

/-- The named graphs of the catalogue. -/
def names (h : Held) : Set GraphName := {name | ∃ g ∈ h.contents.graphs, h.ids.graph name = some (some g)}

/-- Every graph of the catalogue has a name. -/
def Catalogued (h : Held) : Prop := ∀ g ∈ h.contents.graphs, ∃ name, h.ids.graph name = some (some g)

/-- A graph name as a set: the default graph is not in the catalogue. -/
def named : GraphName → Set GraphName
  | .defaultGraph => ∅
  | name => {name}

variable {h : Held} {ids : Ids} {q : Quad} {e : EncodedQuad} {name : GraphName} {g : TermId}

theorem Catalogued.grow (hc : h.Catalogued) (hle : h.ids ≤ ids) : ({ h with ids } : Held).Catalogued := by
  intro g hg
  obtain ⟨name, hname⟩ := hc g hg
  exact ⟨name, Ids.graph_mono hle hname⟩

/-- New ids name no graph that was there. -/
theorem names_grow (hc : h.Catalogued) (hle : h.ids ≤ ids) : ({ h with ids } : Held).names = h.names := by
  ext name
  constructor
  · rintro ⟨g, hg, hname⟩
    obtain ⟨name', hname'⟩ := hc g hg
    cases Ids.graph_inj hname (Ids.graph_mono hle hname')
    exact ⟨g, hg, hname'⟩
  · rintro ⟨g, hg, hname⟩
    exact ⟨g, hg, Ids.graph_mono hle hname⟩

theorem ne_default (hname : h.ids.graph name = some (some g)) : named name = {name} := by
  cases name with
  | defaultGraph => cases hname
  | namedNode n => rfl
  | blankNode b => rfl

theorem names_insertNamedGraph (hname : h.ids.graph name = some (some g)) :
    (h.write (.insertNamedGraph g)).names = h.names ∪ named name := by
  rw [ne_default hname]
  ext name'
  simp only [names, Set.mem_ofPred_eq, write_contents, write_ids, Contents.apply, Contents.insertNamedGraph, Finset.mem_insert,
    Set.mem_union, Set.mem_singleton_iff]
  constructor
  · rintro ⟨g', rfl | hg', hname'⟩
    · exact .inr (Ids.graph_inj hname' hname)
    · exact .inl ⟨g', hg', hname'⟩
  · rintro (⟨g', hg', hname'⟩ | rfl)
    · exact ⟨g', .inr hg', hname'⟩
    · exact ⟨g, .inl rfl, hname⟩

theorem names_insert (hq : h.ids.quad q = some e) : (h.write (.insert e)).names = h.names ∪ named q.graphName := by
  have hgraph := (Ids.quad_eq_some.1 hq).2.2.2
  cases heg : e.graphName with
  | none =>
    rw [heg] at hgraph
    have hdef : q.graphName = .defaultGraph := Ids.graph_inj hgraph rfl
    rw [hdef]
    change {name | ∃ g ∈ Index.record h.contents.graphs e.graphName, h.ids.graph name = some (some g)} = h.names ∪ ∅
    rw [heg, Set.union_empty]
    rfl
  | some g =>
    rw [heg] at hgraph
    rw [← names_insertNamedGraph hgraph]
    change {name | ∃ g ∈ Index.record h.contents.graphs e.graphName, h.ids.graph name = some (some g)} = _
    rw [heg]
    rfl

theorem names_removeNamedGraph (hname : h.ids.graph name = some (some g)) :
    (h.write (.removeNamedGraph g)).names = h.names \ {name} := by
  ext name'
  simp only [names, Set.mem_ofPred_eq, write_contents, write_ids, Contents.apply, Contents.removeNamedGraph, Finset.mem_erase,
    Set.mem_sdiff, Set.mem_singleton_iff]
  constructor
  · rintro ⟨g', ⟨hne, hg'⟩, hname'⟩
    refine ⟨⟨g', hg', hname'⟩, fun heq => hne ?_⟩
    rw [heq, hname] at hname'
    exact (Option.some.inj (Option.some.inj hname')).symm
  · rintro ⟨⟨g', hg', hname'⟩, hne⟩
    refine ⟨g', ⟨fun heq => hne ?_, hg'⟩, hname'⟩
    rw [heq] at hname'
    exact Ids.graph_inj hname' hname

theorem all_removeNamedGraph (hname : h.ids.graph name = some (some g)) :
    (h.write (.removeNamedGraph g)).all = h.all \ {q | q.graphName = name} := by
  ext q
  have hgraph : ∀ e, h.ids.quad q = some e → (e.graphName = some g ↔ q.graphName = name) := by
    intro e he
    have hg := (Ids.quad_eq_some.1 he).2.2.2
    constructor
    · intro heq
      rw [heq] at hg
      exact Ids.graph_inj hg hname
    · intro heq
      rw [heq, hname] at hg
      exact (Option.some.inj hg).symm
  constructor
  · rintro ⟨e, he, hmem⟩
    obtain ⟨hmem, hne⟩ := Finset.mem_filter.1 hmem
    exact ⟨⟨e, he, hmem⟩, fun heq => hne ((hgraph e he).2 heq)⟩
  · rintro ⟨⟨e, he, hmem⟩, hne⟩
    exact ⟨e, he, Finset.mem_filter.2 ⟨hmem, fun heq => hne ((hgraph e he).1 heq)⟩⟩

theorem Catalogued.insertNamedGraph (hc : h.Catalogued) (hname : h.ids.graph name = some (some g)) :
    (h.write (.insertNamedGraph g)).Catalogued := by
  intro g' hg'
  rcases Finset.mem_insert.1 hg' with rfl | hg'
  · exact ⟨name, hname⟩
  · exact hc g' hg'

theorem Catalogued.insert (hc : h.Catalogued) (hq : h.ids.quad q = some e) : (h.write (.insert e)).Catalogued := by
  intro g hg
  change g ∈ Index.record h.contents.graphs e.graphName at hg
  have hgraph := (Ids.quad_eq_some.1 hq).2.2.2
  cases heg : e.graphName with
  | none =>
    rw [heg] at hg
    exact hc g hg
  | some g' =>
    rw [heg] at hg hgraph
    rcases Finset.mem_insert.1 hg with rfl | hg
    · exact ⟨_, hgraph⟩
    · exact hc g hg

theorem Catalogued.remove (hc : h.Catalogued) : (h.write (.remove e)).Catalogued := hc

theorem Catalogued.removeNamedGraph (hc : h.Catalogued) : (h.write (.removeNamedGraph g)).Catalogued :=
  fun g' hg' => hc g' (Finset.mem_of_mem_erase hg')

end Held

namespace Engine

variable {B : Backend} {Sim : B.State → Held → Prop} {Open : B.State → Contents × Ids → Prop} {ρ : Type}

/-! ## The policy a session has -/

/-- A policy the session had when it was asked, from `h₀` on: the one it came with, or its policy
compiled against a store with no fewer ids. -/
def Consulted (Sim : B.State → Held → Prop) (session : Session) (h₀ : Held) (p : CompiledPolicy) : Prop :=
  p = session.compiled ∨ ∃ s h, Sim s h ∧ h₀.ids ≤ h.ids ∧
    session.policy.compileWith (fun n => B.lookup s (.namedNode n)) (B.dictionaryLen s) session.principal = .ok p

/-- A quad that a policy the session had allows to be written and read. -/
def Granted (Sim : B.State → Held → Prop) (session : Session) (h₀ : Held) (q : Quad) : Prop :=
  ∃ p e, Consulted Sim session h₀ p ∧ h₀.ids.quad q = some e ∧ p.permitsQuad e Modes.write = true ∧ p.permitsQuad e Modes.read = true

/-- In a scope opened on `h₀`, by the session that `w₀` began with. -/
structure Acting (Sim : B.State → Held → Prop) (w₀ : World B ρ) (h₀ : Held) (w : World B ρ) (h : Held) : Prop where
  sim : Sim w.store h
  saved : h.saved = some (h₀.contents, h₀.ids)
  decodes : h.Decodes
  catalogued : h.Catalogued
  grows : h₀.ids ≤ h.ids
  policy : w.session.policy = w₀.session.policy
  principal : w.session.principal = w₀.session.principal
  consulted : Consulted Sim w₀.session h₀ w.session.compiled

/-- No scope is open, and every row and every graph has its names. -/
structure Resting (Sim : B.State → Held → Prop) (w : World B ρ) (h : Held) : Prop where
  sim : Sim w.store h
  saved : h.saved = none
  decodes : h.Decodes
  catalogued : h.Catalogued

/-- A failure with the scope open still. -/
abbrev Fails (Open : B.State → Contents × Ids → Prop) (h₀ : Held) : EngineError → World B ρ → Prop :=
  World.Stuck Open (h₀.contents, h₀.ids) (fun _ => True)

section
variable {w₀ w : World B ρ} {h₀ h : Held} (L : B.Lawful Sim Open) (hw : Acting Sim w₀ h₀ w h)
include L hw

theorem Acting.fails (e : EngineError) : Fails Open h₀ e w := ⟨L.opened hw.sim hw.saved, trivial⟩

theorem encodeQuad_acting {q : Quad} {Q : EncodedQuad → World B ρ → Prop}
    (hQ : ∀ e w' h', Acting Sim w₀ h₀ w' h' → h'.all = h.all → h'.names = h.names → h'.ids.quad q = some e → Q e w') :
    wp (World.encodeQuad q : Eff EngineError (World B ρ) EncodedQuad) Q (Fails Open h₀) w := by
  refine World.encodeQuad_wp L hw.sim hw.saved trivial (fun s ids e hle he hs => ?_)
  refine hQ e _ { h with ids } ?_ (Held.all_grow hle hw.decodes) (Held.names_grow hw.catalogued hle) he
  exact ⟨hs, hw.saved, hw.decodes.grow hle, hw.catalogued.grow hle, hw.grows.trans hle, hw.policy, hw.principal, hw.consulted⟩

theorem policy_acting {Q : CompiledPolicy → World B ρ → Prop}
    (hQ : ∀ p w', Acting Sim w₀ h₀ w' h → Consulted Sim w₀.session h₀ p → Q p w') :
    wp (World.policy : Eff EngineError (World B ρ) CompiledPolicy) Q (Fails Open h₀) w := by
  refine World.policy_wp L hw.sim hw.saved trivial (fun p hp => ?_)
  have hcons : Consulted Sim w₀.session h₀ p := by
    rcases hp with rfl | hcomp
    · exact hw.consulted
    · rw [hw.policy, hw.principal] at hcomp
      exact .inr ⟨w.store, h, hw.sim, hw.grows, hcomp⟩
  exact hQ p _ ⟨hw.sim, hw.saved, hw.decodes, hw.catalogued, hw.grows, hw.policy, hw.principal, hcons⟩ hcons

theorem insert_acting {q : Quad} {Q : Bool → World B ρ → Prop}
    (hQ : ∀ b w' h', Acting Sim w₀ h₀ w' h' → h'.all = Insert.insert q h.all → h'.names = h.names ∪ Held.named q.graphName → Q b w') :
    wp (insert q : Eff EngineError (World B ρ) Bool) Q (Fails Open h₀) w := by
  unfold insert
  apply wp_bind
  refine encodeQuad_acting L hw (fun e w₁ h₁ hw₁ hall hnames he => ?_)
  apply wp_bind
  refine policy_acting L hw₁ (fun p w₂ hw₂ _ => ?_)
  dsimp only
  apply wp_ite
  · exact fun _ => wp_bind (wp_throw (hw₂.fails L _))
  · intro _
    refine World.insertEncoded_wp L hw₂.sim hw₂.saved trivial (fun s hs => ?_)
    refine hQ _ _ (h₁.write (.insert e)) ?_ ?_ ?_
    · exact ⟨hs, hw₂.saved, hw₂.decodes.insert he, hw₂.catalogued.insert he, hw₂.grows, hw₂.policy, hw₂.principal, hw₂.consulted⟩
    · rw [Held.all_insert he, hall]
    · rw [Held.names_insert he, hnames]

/-- What is removed is granted. -/
theorem remove_acting {q : Quad} {Q : Bool → World B ρ → Prop}
    (hQ : ∀ b w' h', Acting Sim w₀ h₀ w' h' → h'.all = h.all \ {q} → h'.names = h.names →
      (∀ e, h₀.ids.quad q = some e → Granted Sim w₀.session h₀ q) → Q b w') :
    wp (remove q : Eff EngineError (World B ρ) Bool) Q (Fails Open h₀) w := by
  unfold remove
  apply wp_bind
  refine encodeQuad_acting L hw (fun e w₁ h₁ hw₁ hall hnames he => ?_)
  apply wp_bind
  refine policy_acting L hw₁ (fun p w₂ hw₂ hp => ?_)
  dsimp only
  apply wp_ite
  · exact fun _ => wp_bind (wp_throw (hw₂.fails L _))
  · intro hpermit
    have hgrant : ∀ e₀, h₀.ids.quad q = some e₀ → Granted Sim w₀.session h₀ q := by
      intro e₀ he₀
      cases (Ids.quad_mono hw₁.grows he₀).symm.trans he
      simp only [Bool.or_eq_true, Bool.not_eq_true', not_or, Bool.not_eq_false] at hpermit
      exact ⟨p, e, hp, he₀, hpermit.1, hpermit.2⟩
    refine World.remove_wp L hw₂.sim hw₂.saved trivial (fun hnone => ?_) (fun s e' he' hs => ?_)
    · rw [he] at hnone
      cases hnone
    · cases he.symm.trans he'
      refine hQ _ _ (h₁.write (.remove e)) ?_ ?_ hnames hgrant
      · exact ⟨hs, hw₂.saved, hw₂.decodes.remove, hw₂.catalogued.remove, hw₂.grows, hw₂.policy, hw₂.principal, hw₂.consulted⟩
      · rw [Held.all_remove he, hall]

theorem insertNamedGraph_acting {n : NamedNode} {Q : Bool → World B ρ → Prop}
    (hQ : ∀ b w' h', Acting Sim w₀ h₀ w' h' → h'.all = h.all → h'.names = h.names ∪ {.namedNode n} → Q b w') :
    wp (World.insertNamedGraph (.namedNode n) : Eff EngineError (World B ρ) Bool) Q (Fails Open h₀) w := by
  unfold World.insertNamedGraph
  apply wp_bind
  refine World.encodeGraph_wp L hw.sim hw.saved trivial (fun s ids i hle hi hs => ?_)
  obtain ⟨g, hg, rfl⟩ := Option.map_eq_some_iff.1 hi
  refine World.write_wp (w := { w with store := s }) L hs hw.saved trivial (fun s' hs' => ?_)
  have hcat := hw.catalogued.grow hle
  refine hQ _ _ (({ h with ids } : Held).write (.insertNamedGraph g)) ?_ ?_ ?_
  · exact ⟨hs', hw.saved, (hw.decodes.grow hle).insertNamedGraph, hcat.insertNamedGraph hi, hw.grows.trans hle, hw.policy, hw.principal,
      hw.consulted⟩
  · exact Held.all_grow hle hw.decodes
  · rw [Held.names_insertNamedGraph hi, Held.names_grow hw.catalogued hle]
    rfl

/-- Dropping a graph asks no policy. -/
theorem removeNamedGraph_acting {n : NamedNode} {Q : Bool → World B ρ → Prop}
    (hQ : ∀ b w' h', Acting Sim w₀ h₀ w' h' → h'.all = h.all \ {q | q.graphName = .namedNode n} → h'.names = h.names \ {.namedNode n} →
      Q b w') :
    wp (World.removeNamedGraph (.namedNode n) : Eff EngineError (World B ρ) Bool) Q (Fails Open h₀) w := by
  unfold World.removeNamedGraph
  apply wp_bind
  apply World.lookupGraphName_wp L hw.sim hw.saved trivial
  cases hg : h.ids.graph (.namedNode n) with
  | none =>
    refine wp_pure (hQ false w h hw ?_ ?_)
    · refine (sdiff_eq_left.2 (Set.disjoint_left.2 ?_)).symm
      rintro q ⟨e, he, -⟩ (hq : q.graphName = .namedNode n)
      have hgraph := (Ids.quad_eq_some.1 he).2.2.2
      rw [hq, hg] at hgraph
      cases hgraph
    · refine (Set.sdiff_singleton_eq_self ?_).symm
      rintro ⟨g, -, hname⟩
      rw [hg] at hname
      cases hname
  | some i =>
    obtain ⟨g, -, rfl⟩ := Option.map_eq_some_iff.1 hg
    refine World.write_wp L hw.sim hw.saved trivial (fun s hs => ?_)
    refine hQ _ _ (h.write (.removeNamedGraph g)) ?_ (Held.all_removeNamedGraph hg) (Held.names_removeNamedGraph hg)
    exact ⟨hs, hw.saved, hw.decodes.removeNamedGraph, hw.catalogued.removeNamedGraph, hw.grows, hw.policy, hw.principal, hw.consulted⟩

end

end Engine

end Holos
