import Holos.Holon.History
/-!
# What a registration is read back as

A definition is only ever added to, and each statement of it is read back as the first there is in
the order of ids. So a registration is read back as it was made unless something said before comes
first. No projection is read back.
-/

namespace Holos

open Lib Lib.Eff Security

variable {B : Backend} {Sim : B.State → Held → Prop} {Open : B.State → Contents × Ids → Prop} {ρ : Type}
variable {w : World B ρ} {h : Held}

namespace Registry

/-! ## First in the order of ids -/

section
variable {ids ids' : Ids} {S : Set Term}

/-- The object with the least id. -/
def IsFirst (ids : Ids) (S : Set Term) (o : Term) : Prop :=
  o ∈ S ∧ ∃ i, ids o = some i ∧ ∀ o' ∈ S, ∀ i', ids o' = some i' → i ≤ i'

/-- What is read of some objects: the first, if there is one. -/
def ReadAs (ids : Ids) (S : Set Term) : Option Term → Prop
  | none => S = ∅
  | some o => IsFirst ids S o

theorem IsFirst.unique {o o' : Term} (h : IsFirst ids S o) (h' : IsFirst ids S o') : o = o' := by
  obtain ⟨ho, i, hi, hleast⟩ := h
  obtain ⟨ho', i', hi', hleast'⟩ := h'
  cases le_antisymm (hleast o' ho' i' hi') (hleast' o ho i hi)
  exact Ids.term_inj hi hi'

theorem ReadAs.unique {r r' : Option Term} (h : ReadAs ids S r) (h' : ReadAs ids S r') : r = r' := by
  cases r with
  | none =>
    cases r' with
    | none => rfl
    | some o' => exact absurd h'.1 (Set.eq_empty_iff_forall_notMem.1 h o')
  | some o =>
    cases r' with
    | none => exact absurd h.1 (Set.eq_empty_iff_forall_notMem.1 h' o)
    | some o' => exact congrArg some (IsFirst.unique h h')

/-- New ids change nothing for objects that have theirs. -/
theorem IsFirst.mono {o : Term} (h : IsFirst ids S o) (hids : ∀ o ∈ S, ∃ i, ids o = some i) (hle : ids ≤ ids') : IsFirst ids' S o := by
  obtain ⟨ho, i, hi, hleast⟩ := h
  refine ⟨ho, i, hle _ _ hi, fun o' ho' i' hi' => ?_⟩
  obtain ⟨j, hj⟩ := hids o' ho'
  rw [hle _ _ hj] at hi'
  cases hi'
  exact hleast o' ho' i' hj

theorem ReadAs.mono {r : Option Term} (h : ReadAs ids S r) (hids : ∀ o ∈ S, ∃ i, ids o = some i) (hle : ids ≤ ids') : ReadAs ids' S r := by
  cases r with
  | none => exact h
  | some o => exact IsFirst.mono h hids hle

/-- Something said before comes before `v`, and the first such is not taken for `v`. -/
def Hides {β : Type} (ids : Ids) (S : Set Term) (read : Term → β) (v : Term) : Prop :=
  ∃ o, IsFirst ids S o ∧ (∃ i j, ids o = some i ∧ ids v = some j ∧ i < j) ∧ read o ≠ read v

/-- Once `v` is said too, it is what is read exactly if nothing hides it. -/
theorem read_insert_iff {β : Type} {read : Term → β} {v o : Term} {j : TermId} (hj : ids v = some j)
    (h : IsFirst ids (insert v S) o) : read o = read v ↔ ¬ Hides ids S read v := by
  obtain ⟨ho, i, hi, hleast⟩ := h
  have hS : ∀ o' ∈ S, ∀ i', ids o' = some i' → i ≤ i' := fun o' ho' => hleast o' (Set.mem_insert_of_mem v ho')
  rcases ho with rfl | ho
  · refine iff_of_true rfl ?_
    rintro ⟨o', ⟨ho', -⟩, ⟨i', j', hi', hj', hlt⟩, -⟩
    cases hi.symm.trans hj'
    exact absurd (hS o' ho' i' hi') (not_le.2 hlt)
  · have hfirst : IsFirst ids S o := ⟨ho, i, hi, hS⟩
    constructor
    · rintro heq ⟨o', ho', -, hne⟩
      cases hfirst.unique ho'
      exact hne heq
    · intro hno
      by_contra hne
      refine hno ⟨o, hfirst, ⟨i, j, hi, hj, lt_of_le_of_ne (hleast v (Set.mem_insert v S) j hj) ?_⟩, hne⟩
      rintro rfl
      exact hne (congrArg read (Ids.term_inj hi hj))

end

/-! ## Loading -/

theorem mem_objects_iff {graph subject predicate : NamedNode} {g s p : TermId} (hg : h.ids (.namedNode graph) = some g)
    (hs : h.ids (.namedNode subject) = some s) (hp : h.ids (.namedNode predicate) = some p) {o : Term} :
    o ∈ objects h.all subject predicate graph ↔ ∃ i, h.ids o = some i ∧ (⟨s, p, i, some g⟩ : EncodedQuad) ∈ h.contents.quads := by
  constructor
  · rintro ⟨⟨s', p', i, g'⟩, he, hmem⟩
    obtain ⟨hes, hep, heo, heg⟩ := Ids.quad_eq_some.1 he
    cases hs.symm.trans hes
    cases hp.symm.trans hep
    obtain ⟨g'', hg'', rfl⟩ := Option.map_eq_some_iff.1 heg
    cases hg.symm.trans hg''
    exact ⟨i, heo, hmem⟩
  · rintro ⟨i, ho, hmem⟩
    exact ⟨_, (@Ids.quad_eq_some _ ⟨.namedNode subject, predicate, o, .namedNode graph⟩ ⟨s, p, i, some g⟩).2
      ⟨hs, hp, ho, Option.map_eq_some_iff.2 ⟨g, hg, rfl⟩⟩, hmem⟩

/-- Objects have ids. -/
theorem objects_ids {graph subject predicate : NamedNode} : ∀ o ∈ objects h.all subject predicate graph, ∃ i, h.ids o = some i := by
  rintro o ⟨e, he, -⟩
  exact ⟨e.object, (Ids.quad_eq_some.1 he).2.2.1⟩

section
variable (L : B.Lawful Sim Open) (hO : B.Ordered Sim) (hs : Sim w.store h) (hd : h.Decodes) {E : HolonError → World B ρ → Prop}
variable (hE : ∀ e, E e w)
include L hO hs hd hE

/-- The object found is the first. -/
theorem object_first {graph subject predicate : NamedNode} {g s : TermId} (hg : h.ids (.namedNode graph) = some g)
    (hi : h.ids (.namedNode subject) = some s) {Q : Option Term → World B ρ → Prop}
    (hQ : ∀ r, ReadAs h.ids (objects h.all subject predicate graph) r → Q r w) :
    wp (object (.named g) s predicate : Eff HolonError (World B ρ) (Option Term)) Q E w := by
  unfold object
  apply wp_bind
  apply World.lookupTerm_reads L hs (fun _ => hE _)
  cases hp : h.ids (.namedNode predicate) with
  | none =>
    refine wp_pure (hQ none (Set.eq_empty_iff_forall_notMem.2 ?_))
    rintro o ⟨e, he, -⟩
    rw [(Ids.quad_eq_some.1 he).2.1] at hp
    cases hp
  | some p =>
    have hmem := fun o => @mem_objects_iff h graph subject predicate g s p hg hi hp o
    apply wp_bind
    refine World.store_reads (f := fun st => B.scan st (some s) (some p) none (.named g)) (fun _ => hE _) (fun qs hscan => ?_)
    have hqs := fun e => @L.mem_scan _ _ _ _ _ _ _ e hs hscan
    -- the rows differ in their objects only
    have hrow : ∀ e ∈ qs, e ∈ h.contents.quads ∧ e = ⟨s, p, e.object, some g⟩ := by
      intro e he
      obtain ⟨hc, hmatch, hgraph⟩ := (hqs e).1 he
      obtain ⟨rfl, rfl⟩ : s = e.subject ∧ p = e.predicate := by simpa [Index.matchesTriple] using hmatch
      have hgr : e.graphName = some g := by simpa [Index.GraphFilter.admits] using hgraph
      exact ⟨hc, by rw [← hgr]⟩
    have hin : ∀ i, (⟨s, p, i, some g⟩ : EncodedQuad) ∈ h.contents.quads → (⟨s, p, i, some g⟩ : EncodedQuad) ∈ qs :=
      fun i hc => (hqs _).2 ⟨hc, by simp [Index.matchesTriple], by simp [Index.GraphFilter.admits]⟩
    have horder : Index.KeySorted .gspo qs := hO hs hscan
    cases qs with
    | nil =>
      refine wp_pure (hQ none (Set.eq_empty_iff_forall_notMem.2 (fun o ho => ?_)))
      obtain ⟨i, -, hc⟩ := (hmem o).1 ho
      exact absurd (hin i hc) List.not_mem_nil
    | cons e qs =>
      obtain ⟨hc, heq⟩ := hrow e List.mem_cons_self
      obtain ⟨q, hq⟩ := hd e hc
      have ho : h.ids q.object = some e.object := (Ids.quad_eq_some.1 hq).2.2.1
      refine World.decodeTerm_reads L hs (fun _ => hE _) ho (hQ (some q.object) ⟨?_, e.object, ho, fun o' ho' i' hi' => ?_⟩)
      · exact (hmem _).2 ⟨e.object, ho, heq ▸ hc⟩
      · obtain ⟨i, hi'', hc'⟩ := (hmem o').1 ho'
        cases hi'.symm.trans hi''
        rcases List.mem_cons.1 (hin i' hc') with hhead | htail
        · rw [← hhead]
        · have hlt := (List.pairwise_cons.1 horder).1 _ htail
          rw [heq] at hlt
          simp only [Index.Order.key, Option.getD_some, List.cons_lt_cons_self] at hlt
          exact le_of_lt (by simpa [List.cons_lt_cons_iff] using hlt)

end

/-- An object as the graph it names, or the default one. -/
def asGraph (otherwise_ : NamedNode) : Term → NamedNode
  | .namedNode n => n
  | _ => otherwise_

def asAdmission : Term → Admission
  | .namedNode n => if n = holos "AdmitAndRecord" then .admitAndRecord else .reject
  | _ => .reject

/-- What the system graph says of a holon. -/
abbrev said (S : Set Quad) (id : NamedNode) (name : String) : Set Term := objects S id (holos name) systemGraph

/-- A graph of the holon as it is read. -/
def GraphRead (h : Held) (id : NamedNode) (name : String) (otherwise_ graph : NamedNode) : Prop :=
  ∃ r, ReadAs h.ids (said h.all id name) r ∧ graph = r.elim otherwise_ (asGraph otherwise_)

/-- What is loaded: nothing where no holon is declared. -/
def Loaded (h : Held) (id : NamedNode) : Option Holon → Prop
  | none => declaration id ∉ h.all
  | some holon => declaration id ∈ h.all ∧ holon.id = id ∧ holon.projections = [] ∧
    GraphRead h id "scene" (Holon.new id).scene holon.scene ∧ GraphRead h id "boundary" (Holon.new id).boundary holon.boundary ∧
    GraphRead h id "events" (Holon.new id).events holon.events ∧
    ∃ r, ReadAs h.ids (said h.all id "admits") r ∧ holon.admission = r.elim .reject asAdmission

section
variable (L : B.Lawful Sim Open) (hO : B.Ordered Sim) (hs : Sim w.store h) (hd : h.Decodes) {E : HolonError → World B ρ → Prop}
variable (hE : ∀ e, E e w)
include L hO hs hd hE

theorem namedObject_first {id : NamedNode} {name : String} {otherwise_ : NamedNode} {g s : TermId}
    (hg : h.ids (.namedNode systemGraph) = some g) (hi : h.ids (.namedNode id) = some s) {Q : NamedNode → World B ρ → Prop}
    (hQ : ∀ n, GraphRead h id name otherwise_ n → Q n w) :
    wp (namedObject (.named g) s (holos name) otherwise_ : Eff HolonError (World B ρ) NamedNode) Q E w := by
  unfold namedObject
  apply wp_bind
  refine object_first L hO hs hd hE hg hi (fun r hr => ?_)
  have hQ' := hQ _ ⟨r, hr, rfl⟩
  cases r with
  | none => exact wp_pure hQ'
  | some o => cases o <;> exact wp_pure hQ'

theorem load_loaded {id : NamedNode} {Q : Option Holon → World B ρ → Prop} (hQ : ∀ r, Loaded h id r → Q r w) :
    wp (load id : Eff HolonError (World B ρ) (Option Holon)) Q E w := by
  -- a declaration has all four terms
  have hterms : declaration id ∈ h.all → (∃ g, h.ids (.namedNode systemGraph) = some g) ∧ (∃ s, h.ids (.namedNode id) = some s) ∧
      (∃ c, h.ids (.namedNode (holos "Holon")) = some c) ∧ ∃ p, h.ids (.namedNode (Vocab.rdf "type")) = some p := by
    rintro ⟨e, he, -⟩
    obtain ⟨hes, hep, heo, heg⟩ := Ids.quad_eq_some.1 he
    obtain ⟨g, hg, -⟩ := Option.map_eq_some_iff.1 heg
    exact ⟨⟨g, hg⟩, ⟨_, hes⟩, ⟨_, heo⟩, ⟨_, hep⟩⟩
  unfold load
  apply wp_bind
  apply World.lookupTerm_reads L hs (fun _ => hE _)
  cases hg : h.ids (.namedNode systemGraph) with
  | none => exact wp_pure (hQ none (fun hmem => by obtain ⟨g, hg'⟩ := (hterms hmem).1; rw [hg] at hg'; cases hg'))
  | some g =>
  apply wp_bind
  apply World.lookupTerm_reads L hs (fun _ => hE _)
  cases hi : h.ids (.namedNode id) with
  | none => exact wp_pure (hQ none (fun hmem => by obtain ⟨s, hi'⟩ := (hterms hmem).2.1; rw [hi] at hi'; cases hi'))
  | some s =>
  apply wp_bind
  apply World.lookupTerm_reads L hs (fun _ => hE _)
  cases hc : h.ids (.namedNode (holos "Holon")) with
  | none => exact wp_pure (hQ none (fun hmem => by obtain ⟨c, hc'⟩ := (hterms hmem).2.2.1; rw [hc] at hc'; cases hc'))
  | some c =>
  apply wp_bind
  apply World.lookupTerm_reads L hs (fun _ => hE _)
  cases hp : h.ids (.namedNode (Vocab.rdf "type")) with
  | none => exact wp_pure (hQ none (fun hmem => by obtain ⟨p, hp'⟩ := (hterms hmem).2.2.2; rw [hp] at hp'; cases hp'))
  | some p =>
  have hdeclared : declaration id ∈ h.all ↔ (⟨s, p, c, some g⟩ : EncodedQuad) ∈ h.contents.quads := by
    refine (@mem_objects_iff h systemGraph id (Vocab.rdf "type") g s p hg hi hp (.namedNode (holos "Holon"))).trans ?_
    rw [hc]
    simp
  apply wp_bind
  refine World.quadsForPattern_reads L hs (fun _ => hE _) (fun rows _ hrows => ?_)
  have hrow : (⟨s, p, c, some g⟩ : EncodedQuad) ∈ rows ↔ (⟨s, p, c, some g⟩ : EncodedQuad) ∈ h.contents.quads := by
    rw [hrows]
    simp [Index.matchesTriple, Index.GraphFilter.admits]
  apply wp_ite
  · intro hempty
    refine wp_pure (hQ none (fun hmem => ?_))
    rw [hdeclared, ← hrow, List.isEmpty_iff.1 hempty] at hmem
    cases hmem
  · intro hsome
    have hmem : declaration id ∈ h.all := by
      obtain ⟨e, he⟩ := List.exists_mem_of_ne_nil rows (fun hnil => hsome (List.isEmpty_iff.2 hnil))
      obtain ⟨hcontents, hmatch, hgraph⟩ := (hrows e).1 he
      obtain ⟨es, ep, eo, eg⟩ := e
      obtain ⟨⟨rfl, rfl⟩, rfl⟩ : (s = es ∧ p = ep) ∧ c = eo := by simpa [Index.matchesTriple] using hmatch
      have hgr : eg = some g := by simpa [Index.GraphFilter.admits] using hgraph
      rw [hdeclared, ← hgr]
      exact hcontents
    apply wp_bind
    refine namedObject_first L hO hs hd hE hg hi (fun scene hscene => ?_)
    apply wp_bind
    refine namedObject_first L hO hs hd hE hg hi (fun boundary hboundary => ?_)
    apply wp_bind
    refine namedObject_first L hO hs hd hE hg hi (fun events hevents => ?_)
    apply wp_bind
    refine object_first L hO hs hd hE hg hi (fun r hr => ?_)
    have hQ' := hQ (some ⟨id, scene, boundary, events, r.elim .reject asAdmission, []⟩)
      ⟨hmem, rfl, rfl, hscene, hboundary, hevents, r, hr, rfl⟩
    cases r with
    | none => exact wp_pure hQ'
    | some o => cases o <;> exact wp_pure hQ'

end

/-- Two loads of what says the same are one answer. -/
theorem Loaded.unique {h' : Held} {id : NamedNode} {r r' : Option Holon} (hl : Loaded h id r) (hl' : Loaded h' id r')
    (hle : h.ids ≤ h'.ids) (hall : h'.all = h.all) : r = r' := by
  have hgraph : ∀ {name otherwise_ n n'}, GraphRead h id name otherwise_ n → GraphRead h' id name otherwise_ n' → n = n' := by
    rintro name otherwise_ n n' ⟨o, ho, rfl⟩ ⟨o', ho', rfl⟩
    rw [hall] at ho'
    rw [(ho.mono objects_ids hle).unique ho']
  cases r with
  | none =>
    cases r' with
    | none => rfl
    | some holon' => exact absurd (hall ▸ hl'.1) hl
  | some holon =>
    cases r' with
    | none => exact absurd hl.1 (hall ▸ hl')
    | some holon' =>
      obtain ⟨id₁, scene, boundary, events, admission, projections⟩ := holon
      obtain ⟨id₂, scene', boundary', events', admission', projections'⟩ := holon'
      obtain ⟨-, rfl, rfl, hscene, hboundary, hevents, o, ho, hadmission⟩ := hl
      obtain ⟨-, rfl, rfl, hscene', hboundary', hevents', o', ho', hadmission'⟩ := hl'
      cases hgraph hscene hscene'
      cases hgraph hboundary hboundary'
      cases hgraph hevents hevents'
      rw [hall] at ho'
      cases (ho.mono objects_ids hle).unique ho'
      cases hadmission.trans hadmission'.symm
      rfl

/-! ## Registering and loading -/

/-- The one object each of four statements has. -/
def statements (holon : Holon) : List (String × NamedNode) :=
  [("scene", holon.scene), ("boundary", holon.boundary), ("events", holon.events), ("admits", holon.admission.iri)]

/-- To what was said, a definition adds its own object of each statement, and nothing else. -/
theorem said_definition {S : Set Quad} {holon : Holon} {name : String} {v : NamedNode} (hmem : (name, v) ∈ statements holon) :
    said (S ∪ {q | q ∈ definition holon}) holon.id name = insert (.namedNode v) (said S holon.id name) := by
  have hone : ∀ o, (⟨.namedNode holon.id, holos name, o, .namedNode systemGraph⟩ : Quad) ∈ definition holon ↔ o = .namedNode v := by
    intro o
    have hprojections : (⟨.namedNode holon.id, holos name, o, .namedNode systemGraph⟩ : Quad) ∉
        holon.projections.flatMap (fun projection =>
          [quad holon.id (holos "projection") projection.id systemGraph,
            ⟨.namedNode projection.id, holos "query", .literal (.newTyped projection.query Xsd.string), .namedNode systemGraph⟩,
            quad projection.id (holos "regime") (regimeIri projection.regime) systemGraph]) := by
      intro hq
      obtain ⟨projection, -, hq⟩ := List.mem_flatMap.1 hq
      have hpredicate : holos name ∈ [holos "projection", holos "query", holos "regime"] := by
        simp only [List.mem_cons, List.not_mem_nil, or_false] at hq ⊢
        rcases hq with hq | hq | hq
        · exact .inl (congrArg Quad.predicate hq)
        · exact .inr (.inl (congrArg Quad.predicate hq))
        · exact .inr (.inr (congrArg Quad.predicate hq))
      revert hpredicate
      simp only [statements, List.mem_cons, List.not_mem_nil, or_false, Prod.mk.injEq] at hmem
      rcases hmem with ⟨rfl, -⟩ | ⟨rfl, -⟩ | ⟨rfl, -⟩ | ⟨rfl, -⟩ <;> decide
    unfold definition
    rw [List.mem_append, or_iff_left hprojections]
    have hne : ∀ name ∈ ["scene", "boundary", "events", "admits"], ∀ name' ∈ ["scene", "boundary", "events", "admits"],
        name ≠ name' → holos name ≠ holos name' := by decide
    have htype : ∀ name ∈ ["scene", "boundary", "events", "admits"], holos name ≠ Vocab.rdf "type" := by decide
    simp only [statements, List.mem_cons, List.not_mem_nil, or_false, Prod.mk.injEq] at hmem
    rcases hmem with ⟨rfl, rfl⟩ | ⟨rfl, rfl⟩ | ⟨rfl, rfl⟩ | ⟨rfl, rfl⟩ <;>
      simp [quad, htype, hne]
  ext o
  change ((⟨.namedNode holon.id, holos name, o, .namedNode systemGraph⟩ : Quad) ∈ S ∨
    (⟨.namedNode holon.id, holos name, o, .namedNode systemGraph⟩ : Quad) ∈ definition holon) ↔ _
  rw [hone, or_comm]
  rfl

/-- A definition that is read back as it was made. `S` is what was said before, and `ids` those there are
once it is said. -/
structure ReadsBack (ids : Ids) (S : Set Quad) (holon : Holon) : Prop where
  projections : holon.projections = []
  scene : ¬ Hides ids (said S holon.id "scene") (asGraph (Holon.new holon.id).scene) (.namedNode holon.scene)
  boundary : ¬ Hides ids (said S holon.id "boundary") (asGraph (Holon.new holon.id).boundary) (.namedNode holon.boundary)
  events : ¬ Hides ids (said S holon.id "events") (asGraph (Holon.new holon.id).events) (.namedNode holon.events)
  admits : ¬ Hides ids (said S holon.id "admits") asAdmission (.namedNode holon.admission.iri)

theorem asAdmission_iri (a : Admission) : asAdmission (.namedNode a.iri) = a := by cases a <;> decide

/-- Of a store that says what it said before and a definition, the definition is loaded exactly if it
reads back. -/
theorem Loaded.registered {h' : Held} {holon : Holon} {r : Option Holon} (hd : h'.all = h.all ∪ {q | q ∈ definition holon})
    (hl : Loaded h' holon.id r) : r = some holon ↔ ReadsBack h'.ids h.all holon := by
  have hdeclared : declaration holon.id ∈ h'.all := by
    rw [hd]
    exact .inr (declaration_mem holon)
  have hids : ∀ {name v}, (name, v) ∈ statements holon → ∃ j, h'.ids (.namedNode v) = some j := by
    intro name v hmem
    have hmem' : .namedNode v ∈ said h'.all holon.id name := by
      rw [hd, said_definition hmem]
      exact Set.mem_insert _ _
    exact objects_ids _ hmem'
  -- what is read of a statement, once it is made again
  have hread : ∀ {β : Type} {name v} (read : Term → β) {o : Option Term} (otherwise_ : β), (name, v) ∈ statements holon →
      ReadAs h'.ids (said h'.all holon.id name) o →
      (o.elim otherwise_ read = read (.namedNode v) ↔ ¬ Hides h'.ids (said h.all holon.id name) read (.namedNode v)) := by
    intro β name v read o otherwise_ hmem ho
    rw [hd, said_definition hmem] at ho
    obtain ⟨j, hj⟩ := hids hmem
    cases o with
    | none => exact absurd (Set.mem_insert _ _) (Set.eq_empty_iff_forall_notMem.1 ho (.namedNode v))
    | some o => exact read_insert_iff hj ho
  cases r with
  | none => exact absurd hdeclared hl
  | some loaded =>
    obtain ⟨id, scene, boundary, events, admission, projections⟩ := loaded
    obtain ⟨-, rfl, rfl, ⟨o₁, ho₁, rfl⟩, ⟨o₂, ho₂, rfl⟩, ⟨o₃, ho₃, rfl⟩, o₄, ho₄, rfl⟩ := hl
    have hscene := hread (asGraph (Holon.new holon.id).scene) (Holon.new holon.id).scene (v := holon.scene) (by simp [statements]) ho₁
    have hboundary := hread (asGraph (Holon.new holon.id).boundary) (Holon.new holon.id).boundary (v := holon.boundary) (by simp [statements]) ho₂
    have hevents := hread (asGraph (Holon.new holon.id).events) (Holon.new holon.id).events (v := holon.events) (by simp [statements]) ho₃
    have hadmits := hread asAdmission .reject (v := holon.admission.iri) (by simp [statements]) ho₄
    rw [asAdmission_iri] at hadmits
    constructor
    · intro heq
      have hsame := Option.some.inj heq
      exact ⟨(congrArg Holon.projections hsame).symm, hscene.1 (congrArg Holon.scene hsame), hboundary.1 (congrArg Holon.boundary hsame),
        hevents.1 (congrArg Holon.events hsame), hadmits.1 (congrArg Holon.admission hsame)⟩
    · intro hb
      have hsame : (⟨holon.id, holon.scene, holon.boundary, holon.events, holon.admission, []⟩ : Holon) = holon := by
        rw [← hb.projections]
      rw [hscene.2 hb.scene, hboundary.2 hb.boundary, hevents.2 hb.events, hadmits.2 hb.admits]
      exact congrArg some hsame

end Registry

namespace InMemory

/-- A holon registered, and loaded again. -/
def reloaded (holons : List Holon) (id : NamedNode) : Option (Except HolonError (Option Holon)) :=
  let program : Eff HolonError (World Memory Unit) (Option Holon) := do
    holons.forM (Registry.register true)
    Registry.load id
  (program.exec ⟨.new, session, ()⟩).map (·.1)

/-- The parent with a view of its scene. -/
def viewed : Holon := parent.withProjection "urn:view" "SELECT * WHERE { ?s ?p ?o }"

/-- The parent with another boundary, and admitting what that rejects. -/
def moved : Holon := { parent.withAdmission .admitAndRecord with boundary := "urn:zone" }

end InMemory

end Holos
