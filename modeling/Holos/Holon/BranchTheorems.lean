import Holos.Holon.Branch
import Holos.Holon.RegistryTheorems
/-!
# What a branch does to a set of quads

`Branched` says it in one equation: the parent's scene and boundary under the child's names, the
child's definition, the parent's version said of the child, and a log that begins.
-/

namespace Holos

open Lib Lib.Eff Security

/-- The quads of a graph, under another graph's name. -/
def copied (S : Set Quad) (source target : NamedNode) : Set Quad :=
  {q | ∃ t : Triple, t.inGraph (.namedNode source) ∈ S ∧ q = t.inGraph (.namedNode target)}

namespace World

variable {B : Backend} {Sim : B.State → Held → Prop} {Open : B.State → Contents × Ids → Prop} {ρ ε : Type} [OfStorage ε]
variable {c : Contents × Ids} {x : ρ} {R : ρ → Prop} {w : World B ρ} {h : Held}

section
variable (L : B.Lawful Sim Open) (hR : R x) (hw : At Sim c x w h)
include L hR hw

/-- A row decodes to the quad it is the row of. -/
theorem decodeQuad_at {q : Quad} {e : EncodedQuad} (hq : h.ids.quad q = some e) {Q : Quad → World B ρ → Prop} (hQ : Q q w) :
    wp (decodeQuad e : Eff ε (World B ρ) Quad) Q (Stuck Open c R) w :=
  decodeQuad_reads L hw.sim (fun _ => ⟨L.opened hw.sim hw.saved, hw.stuck hR⟩) hq hQ

end

end World

variable {B : Backend} {Sim : B.State → Held → Prop} {Open : B.State → Contents × Ids → Prop} {ρ : Type}
variable {c : Contents × Ids} {x : ρ} {R : ρ → Prop} {w : World B ρ} {h : Held}

section
variable (L : B.Lawful Sim Open) (hR : R x) (hw : World.At Sim c x w h)
include L hR hw

theorem readGraph_at {source target : NamedNode} {Q : List Quad → World B ρ → Prop}
    (hQ : ∀ qs : List Quad, {q | q ∈ qs} = copied h.all source target → Q qs w) :
    wp (readGraph source target : Eff HolonError (World B ρ) (List Quad)) Q (World.Stuck Open c R) w := by
  unfold readGraph
  apply wp_bind
  apply World.lookupTerm_at L hR hw
  cases hg : h.ids (.namedNode source) with
  | none =>
    refine wp_pure (hQ [] (Set.ext (fun q => iff_of_false List.not_mem_nil (fun hq => ?_))))
    obtain ⟨t, ⟨e, he, -⟩, -⟩ := hq
    obtain ⟨-, -, -, hgraph⟩ := Ids.quad_eq_some.1 he
    obtain ⟨g, hg', -⟩ := Option.map_eq_some_iff.1 hgraph
    rw [hg] at hg'
    cases hg'
  | some g =>
    apply wp_bind
    refine World.quadsForPattern_wp L hw.sim hw.saved (hw.stuck hR) (fun rows _ hrows => ?_)
    -- each row of the graph is a triple of it
    have hrow : ∀ e ∈ rows, ∃ t ∈ h.graph source, h.ids.quad (t.inGraph (.namedNode source)) = some e := by
      intro e he
      obtain ⟨hmem, -, hadmits⟩ := (hrows e).1 he
      obtain ⟨q, hq, hall⟩ := Held.exists_quad hw.decodes hmem
      have hname : q.graphName = .namedNode source := by
        refine Ids.graph_inj (Ids.quad_eq_some.1 hq).2.2.2 ?_
        have hgr : e.graphName = some g := by simpa [Index.GraphFilter.admits] using hadmits
        rw [hgr]
        exact Option.map_eq_some_iff.2 ⟨g, hg, rfl⟩
      have heq : q.triple.inGraph (.namedNode source) = q := by rw [← hname, Quad.inGraph_triple]
      exact ⟨q.triple, by rw [← heq] at hall; exact hall, by rw [heq]; exact hq⟩
    refine (wp_foldlM (I := fun done out w' => w' = w ∧ ∀ q, q ∈ out ↔ ∃ (t : Triple) (e : EncodedQuad), e ∈ done ∧
      h.ids.quad (t.inGraph (.namedNode source)) = some e ∧ q = t.inGraph (.namedNode target)) ⟨rfl, by simp⟩ ?_).mono ?_ (fun _ _ h => h)
    · rintro done e rest out w' hl ⟨rfl, hout⟩
      obtain ⟨t, ht, hte⟩ := hrow e (by rw [hl]; simp)
      apply wp_bind
      refine World.decodeQuad_at L hR hw hte (wp_pure ⟨rfl, fun q => ?_⟩)
      rw [List.mem_append, List.mem_singleton, hout q]
      constructor
      · rintro (⟨t', e', he', hq', rfl⟩ | rfl)
        · exact ⟨t', e', List.mem_append_left _ he', hq', rfl⟩
        · exact ⟨t, e, by simp, hte, rfl⟩
      · rintro ⟨t', e', he', hq', rfl⟩
        rcases List.mem_append.1 he' with he' | he'
        · exact .inl ⟨t', e', he', hq', rfl⟩
        · rw [List.mem_singleton.1 he'] at hq'
          have := congrArg Quad.triple (Ids.quad_inj hq' hte)
          exact .inr (congrArg (fun t : Triple => t.inGraph (.namedNode target)) this)
    · rintro out w' ⟨rfl, hout⟩
      refine hQ out (Set.ext (fun q => (hout q).trans ⟨?_, ?_⟩))
      · rintro ⟨t, e, he, hte, rfl⟩
        exact ⟨t, ⟨e, hte, ((hrows e).1 he).1⟩, rfl⟩
      · rintro ⟨t, ⟨e, hte, hmem⟩, rfl⟩
        refine ⟨t, e, (hrows e).2 ⟨hmem, by simp [Index.matchesTriple], ?_⟩, hte, rfl⟩
        obtain ⟨g', hg', hgr⟩ := Option.map_eq_some_iff.1 (Ids.quad_eq_some.1 hte).2.2.2
        rw [hg] at hg'
        cases hg'
        simp [Index.GraphFilter.admits, ← hgr]

/-- The target has what it had and what the source has. -/
theorem copyGraph_at {source target : NamedNode} {Q : Unit → World B ρ → Prop}
    (hQ : ∀ w' h', World.At Sim c x w' h' → h.ids ≤ h'.ids → h'.all = h.all ∪ copied h.all source target → Q () w') :
    wp (copyGraph source target : Eff HolonError (World B ρ) Unit) Q (World.Stuck Open c R) w := by
  unfold copyGraph
  apply wp_bind
  refine readGraph_at L hR hw (fun qs hqs => ?_)
  apply wp_ite
  · intro hempty
    apply wp_bind
    refine World.insertNamedGraph_at L hR hw (fun b w' h' hw' hle hall => wp_pure (hQ w' h' hw' hle ?_))
    rw [List.isEmpty_iff.1 hempty] at hqs
    rw [hall, ← hqs]
    simp
  · intro _
    refine World.insertAll_at L hR hw (fun w' h' hw' hle hall => hQ w' h' hw' hle ?_)
    rw [hall, hqs]

end

/-- A branch, as a change of the quads stored. `v` is the parent's version and `u` what was said
of the child's before. -/
structure Branched (now : Int) (source child : Holon) (v u : Nat) (S S' : Set Quad) : Prop where
  all : S' = insert (Registry.versionQuad child v)
      ((S ∪ copied S source.scene child.scene ∪ copied (S ∪ copied S source.scene child.scene) source.boundary child.boundary ∪
        {q | q ∈ Registry.definition child}) \ {Registry.versionQuad child u}) ∪
    {q | q ∈ branchQuads now child ⟨source.id, v⟩}

/-- The statement that makes an IRI a holon. -/
def Registry.declaration (id : NamedNode) : Quad := Registry.quad id (Vocab.rdf "type") (holos "Holon") systemGraph

theorem Registry.declaration_mem (holon : Holon) : Registry.declaration holon.id ∈ Registry.definition holon :=
  List.mem_append_left _ List.mem_cons_self

/-- A definition is in the system graph and says nothing of a version. -/
theorem Registry.definition_spec {holon : Holon} {q : Quad} (hq : q ∈ Registry.definition holon) :
    q.graphName = .namedNode systemGraph ∧ q.predicate ≠ holos "version" := by
  have hne : ∀ p ∈ [Vocab.rdf "type", holos "scene", holos "boundary", holos "events", holos "admits", holos "projection",
      holos "query", holos "regime"], p ≠ holos "version" := by decide
  rcases List.mem_append.1 hq with hq | hq
  · simp only [List.mem_cons, List.not_mem_nil, or_false] at hq
    rcases hq with rfl | rfl | rfl | rfl | rfl <;> exact ⟨rfl, hne _ (by simp [Registry.quad])⟩
  · obtain ⟨projection, -, hq⟩ := List.mem_flatMap.1 hq
    simp only [List.mem_cons, List.not_mem_nil, or_false] at hq
    rcases hq with rfl | rfl | rfl <;> exact ⟨rfl, hne _ (by simp [Registry.quad])⟩

theorem Registry.versions_definition {S : Set Quad} {holon : Holon} {id : NamedNode} (o : Term) :
    o ∈ Registry.versions (S ∪ {q | q ∈ Registry.definition holon}) id ↔ o ∈ Registry.versions S id :=
  or_iff_left (fun hmem => (Registry.definition_spec hmem).2 rfl)

theorem copied_graph {S : Set Quad} {source target : NamedNode} {q : Quad} (hq : q ∈ copied S source target) :
    q.graphName = .namedNode target := by
  obtain ⟨t, -, rfl⟩ := hq
  rfl

theorem versions_copied {S : Set Quad} {source target id : NamedNode} (ht : target ≠ systemGraph) (o : Term) :
    o ∈ Registry.versions (S ∪ copied S source target) id ↔ o ∈ Registry.versions S id :=
  or_iff_left (fun hmem => ht (GraphName.namedNode.inj (copied_graph hmem)).symm)

theorem branchQuads_graph {now : Int} {child : Holon} {point : BranchPoint} {q : Quad} (hq : q ∈ branchQuads now child point) :
    q.graphName = .namedNode child.events := by
  simp only [branchQuads, List.mem_cons, List.not_mem_nil, or_false] at hq
  rcases hq with rfl | rfl | rfl <;> rfl

/-- A branch's graphs are its own, whatever its IRI. -/
theorem Holon.child_boundary_system (source : Holon) (id : NamedNode) : (source.child id).boundary ≠ systemGraph :=
  Holon.append_ne (a := Holon.base id) (b := "urn:holos:s") (x := "/boundary") (y := "ystem") (by decide) (by decide) (by decide)

theorem Holon.child_apart (source : Holon) (id : NamedNode) : (source.child id).Apart :=
  ⟨(Holon.new_apart id).scene_events, (Holon.new_apart id).scene_system, (Holon.new_apart id).events_system⟩

namespace Branched

variable {now : Int} {source : Holon} {newId : NamedNode} {v u : Nat} {S S' : Set Quad}

/-- What is said of versions before the child's is set. -/
theorem versions_before {id : NamedNode} (o : Term) :
    o ∈ Registry.versions (S ∪ copied S source.scene (source.child newId).scene ∪
      copied (S ∪ copied S source.scene (source.child newId).scene) source.boundary (source.child newId).boundary ∪
      {q | q ∈ Registry.definition (source.child newId)}) id ↔ o ∈ Registry.versions S id :=
  (Registry.versions_definition o).trans ((versions_copied (Holon.child_boundary_system source newId) o).trans
    (versions_copied (Holon.child_apart source newId).scene_system o))

theorem versions_log {T : Set Quad} {point : BranchPoint} {id : NamedNode} (o : Term) :
    o ∈ Registry.versions (T ∪ {q | q ∈ branchQuads now (source.child newId) point}) id ↔ o ∈ Registry.versions T id :=
  or_iff_left (fun hmem => (Holon.child_apart source newId).events_system (GraphName.namedNode.inj (branchQuads_graph hmem)).symm)

/-- The child has its parent's version, if that is not zero. -/
theorem versioned (hb : Branched now source (source.child newId) v u S S') (hu : Registry.Versioned S newId u) (hv : v < 2 ^ 64)
    (h0 : v ≠ 0) : Registry.Versioned S' newId v := by
  rw [hb.all]
  have hset := @Registry.Versioned.set _ (source.child newId) _ _ (hu.congr (fun o => @versions_before source newId S _ o)) hv h0
  exact hset.congr versions_log

theorem versioned_other (hb : Branched now source (source.child newId) v u S S') {id : NamedNode} (hne : id ≠ newId) {n : Nat}
    (hn : Registry.Versioned S id n) : Registry.Versioned S' id n := by
  rw [hb.all]
  have hset := @Registry.Versioned.set_other _ (source.child newId) _ _ u v (hn.congr (fun o => @versions_before source newId S _ o)) hne
  exact hset.congr versions_log

/-- Nothing is lost but what was said of the child's version. -/
theorem mem_of_mem (hb : Branched now source (source.child newId) v u S S') {q : Quad} (hq : q ∈ S)
    (hne : q ≠ Registry.versionQuad (source.child newId) u) : q ∈ S' := by
  rw [hb.all]
  exact .inl (.inr ⟨.inl (.inl (.inl hq)), hne⟩)

theorem declared (hb : Branched now source (source.child newId) v u S S') : Registry.declaration newId ∈ S' := by
  rw [hb.all]
  refine .inl (.inr ⟨.inr (Registry.declaration_mem (source.child newId)), fun heq => ?_⟩)
  exact absurd (congrArg Quad.predicate heq) (show Vocab.rdf "type" ≠ holos "version" by decide)

end Branched

section
variable (L : B.Lawful Sim Open) (hR : R x) (hw : World.At Sim c x w h)
include L hR hw

theorem branchBody_at {now : Int} {source : Holon} {newId : NamedNode} {v u : Nat} (hv : Registry.Versioned h.all source.id v)
    (hu : Registry.Versioned h.all newId u) {Q : Holon → World B ρ → Prop}
    (hQ : ∀ w' h', World.At Sim c x w' h' → h.ids ≤ h'.ids → Branched now source (source.child newId) v u h.all h'.all →
      Q (source.child newId) w') :
    wp (branchBody now source newId : Eff HolonError (World B ρ) Holon) Q (World.Stuck Open c R) w := by
  unfold branchBody
  apply wp_bind
  apply Registry.version_versioned L hw.sim hw.decodes (fun _ => ⟨L.opened hw.sim hw.saved, hw.stuck hR⟩) hv
  apply wp_bind
  refine copyGraph_at L hR hw (fun w₁ h₁ hw₁ hle₁ hall₁ => ?_)
  apply wp_bind
  refine copyGraph_at L hR hw₁ (fun w₂ h₂ hw₂ hle₂ hall₂ => ?_)
  rw [hall₁] at hall₂
  apply wp_bind
  refine Registry.inCommit_at L hw₂ (Registry.registerBody_at L hR hw₂ (fun w₃ h₃ hw₃ hle₃ hall₃ => ?_))
  rw [hall₂] at hall₃
  apply wp_bind
  have hu₃ : Registry.Versioned h₃.all (source.child newId).id u := hu.congr (fun o => by
    rw [hall₃]
    exact Branched.versions_before o)
  refine Registry.setVersion_at L hR hw₃ hu₃ (fun w₄ h₄ hw₄ hle₄ hall₄ => ?_)
  rw [hall₃] at hall₄
  apply wp_bind
  refine World.insertAll_at L hR hw₄ (fun w₅ h₅ hw₅ hle₅ hall₅ => wp_pure (hQ w₅ h₅ hw₅ ?_ ⟨?_⟩))
  · exact hle₁.trans (hle₂.trans (hle₃.trans (hle₄.trans hle₅)))
  · rw [hall₅, hall₄]

end

/-! ## Is the IRI a holon already -/

theorem Registry.quiet_object {graph : GraphFilter} {subject : TermId} {predicate : NamedNode} :
    Quiet (Registry.object graph subject predicate : Eff HolonError (World B ρ) (Option Term)) := by
  refine (quiet_reads _).bind (fun p => ?_)
  cases p with
  | none => exact quiet_pure _
  | some p =>
    refine (quiet_reads _).bind (fun rows => ?_)
    split
    · exact quiet_pure _
    · exact quiet_reads _

theorem Registry.quiet_namedObject {graph : GraphFilter} {subject : TermId} {predicate otherwise_ : NamedNode} :
    Quiet (Registry.namedObject graph subject predicate otherwise_ : Eff HolonError (World B ρ) NamedNode) := by
  refine Registry.quiet_object.bind (fun o => ?_)
  split <;> exact quiet_pure _

/-- What is no holon is not declared to be one. -/
theorem load_reads (L : B.Lawful Sim Open) (hs : Sim w.store h) {id : NamedNode} {Q : Option Holon → World B ρ → Prop}
    {E : HolonError → World B ρ → Prop} (hE : ∀ e, E e w) (hnone : Registry.declaration id ∉ h.all → Q none w)
    (hsome : ∀ holon, Q (some holon) w) :
    wp (Registry.load id : Eff HolonError (World B ρ) (Option Holon)) Q E w := by
  have hterms : ∀ q : Quad, q ∈ h.all → (h.ids q.subject.toTerm).isSome ∧ (h.ids (.namedNode q.predicate)).isSome ∧
      (h.ids q.object).isSome ∧ (h.ids.graph q.graphName).isSome := by
    rintro q ⟨e, he, -⟩
    obtain ⟨h₁, h₂, h₃, h₄⟩ := Ids.quad_eq_some.1 he
    rw [h₁, h₂, h₃, h₄]
    exact ⟨rfl, rfl, rfl, rfl⟩
  unfold Registry.load
  apply wp_bind
  apply World.lookupTerm_reads L hs (fun _ => hE _)
  cases hg : h.ids (.namedNode systemGraph) with
  | none =>
    refine wp_pure (hnone (fun hmem => ?_))
    have hgraph : ((h.ids (.namedNode systemGraph)).map some).isSome := (hterms _ hmem).2.2.2
    rw [hg] at hgraph
    cases hgraph
  | some g =>
  apply wp_bind
  apply World.lookupTerm_reads L hs (fun _ => hE _)
  cases hid : h.ids (.namedNode id) with
  | none =>
    refine wp_pure (hnone (fun hmem => ?_))
    have hsubject : (h.ids (.namedNode id)).isSome := (hterms _ hmem).1
    rw [hid] at hsubject
    cases hsubject
  | some s =>
  apply wp_bind
  apply World.lookupTerm_reads L hs (fun _ => hE _)
  cases hc : h.ids (.namedNode (holos "Holon")) with
  | none =>
    refine wp_pure (hnone (fun hmem => ?_))
    have hobject : (h.ids (.namedNode (holos "Holon"))).isSome := (hterms _ hmem).2.2.1
    rw [hc] at hobject
    cases hobject
  | some o =>
  apply wp_bind
  apply World.lookupTerm_reads L hs (fun _ => hE _)
  cases hp : h.ids (.namedNode (Vocab.rdf "type")) with
  | none =>
    refine wp_pure (hnone (fun hmem => ?_))
    have hpredicate : (h.ids (.namedNode (Vocab.rdf "type"))).isSome := (hterms _ hmem).2.1
    rw [hp] at hpredicate
    cases hpredicate
  | some p =>
  apply wp_bind
  refine World.quadsForPattern_reads L hs (fun _ => hE _) (fun rows _ hrows => ?_)
  apply wp_ite
  · intro hempty
    refine wp_pure (hnone ?_)
    rintro ⟨e, he, hmem⟩
    obtain ⟨hes, hep, heo, heg⟩ := Ids.quad_eq_some.1 he
    obtain ⟨es, ep, eo, eg⟩ := e
    cases hid.symm.trans hes
    cases hp.symm.trans hep
    cases hc.symm.trans heo
    obtain ⟨g', hg', rfl⟩ := Option.map_eq_some_iff.1 heg
    cases hg.symm.trans hg'
    have hin := (hrows _).2 ⟨hmem, by simp [Index.matchesTriple], by simp [Index.GraphFilter.admits]⟩
    rw [List.isEmpty_iff.1 hempty] at hin
    cases hin
  · intro _
    apply wp_bind
    refine Registry.quiet_namedObject.wp (fun scene => ?_) hE
    apply wp_bind
    refine Registry.quiet_namedObject.wp (fun boundary => ?_) hE
    apply wp_bind
    refine Registry.quiet_namedObject.wp (fun events => ?_) hE
    apply wp_bind
    refine Registry.quiet_object.wp (fun admits => ?_) hE
    dsimp only
    split <;> exact wp_pure (hsome _)

end Holos
