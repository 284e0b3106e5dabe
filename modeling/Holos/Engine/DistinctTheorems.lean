import Holos.Engine.Distinct
import Holos.Store.MemoryTheorems
import Holos.Store.RocksDictionary
/-!
# What the table answers

The table lists what is counted, visible in the default graph and ground. It answers for the pattern
where these are the predicates of the dataset the query is evaluated over.
-/

namespace Holos.Engine.Distinct

open Lib Security Sparql

/-! ## Stores -/

/-- Every predicate in use is counted, and no other. -/
def Reads.Counted (r : Reads) : Prop := ∀ p, p ∈ r.predicateHistogram.map Prod.fst ↔ ∃ q ∈ r.quads, q.predicate = p

theorem histogram_keys (c : Counter TermId) : ((c.histogram.map Prod.fst).Perm c.keys.toList) := by
  refine ((List.mergeSort_perm _ _).map Prod.fst).trans ?_
  rw [List.map_map, show (Prod.fst ∘ fun a => (a, c.count a)) = id from rfl, List.map_id]

theorem histogram_nodup (c : Counter TermId) : (c.histogram.map Prod.fst).Nodup :=
  (histogram_keys c).nodup_iff.2 c.keys.nodup

theorem histogram_counted {c : Counter TermId} {contents : Contents} (h : ∀ p, c.count p = contents.count p) (p : TermId) :
    p ∈ c.histogram.map Prod.fst ↔ ∃ q ∈ contents.quads, q.predicate = p := by
  rw [(histogram_keys c).mem_iff, ← SortedSet.mem_def, c.mem_keys, h]
  unfold Contents.count
  rw [Finset.card_pos]
  simp [Finset.Nonempty, Finset.mem_filter]

def ofMemory (X : Inline.Datatypes) {m : MemoryStorage} {c : Contents} (h : MemoryStorage.Holds m c) : Reads where
  lookupTerm t := .ok (m.lookup X t)
  decodeTerm := m.decode X
  predicateHistogram := m.predicateHistogram
  quadsForPattern := m.scan
  quads := c.quads
  scans s p o graph q := Index.mem_quadsForPattern h.index s p o graph q
  keyed := histogram_nodup m.predicateCounts

def ofRocks (hash128 : StoredTerm → Hash) (X : Inline.Datatypes) {r : RocksStorage} {a : Storage.Scoped} (h : RocksStorage.Sim r a) :
    Reads where
  lookupTerm := r.lookup hash128 X
  decodeTerm := r.decode X
  predicateHistogram := r.predicateHistogram
  quadsForPattern := r.scan
  quads := a.current.quads
  scans := h.mem_scan
  keyed := histogram_nodup r.predicateCounts

/-- The counts are exact after every history of the in-memory tier, and after every history of the
other in which no write failed. -/
theorem ofMemory_counted (X : Inline.Datatypes) {m : MemoryStorage} {c : Contents} (h : MemoryStorage.Holds m c) : (ofMemory X h).Counted :=
  histogram_counted h.counts

theorem ofRocks_counted (hash128 : StoredTerm → Hash) (X : Inline.Datatypes) {r : RocksStorage} {a : Storage.Scoped}
    (h : RocksStorage.Sim r a) : (ofRocks hash128 X h).Counted :=
  histogram_counted h.counts

/-- A store some run of its tier leads to. On disk no write of the run has failed. -/
inductive Reads.Reached : Reads → Prop
  | memory {X : Inline.Datatypes} {ops : List Storage.Op} {replies : List Storage.Reply} {m : MemoryStorage}
    (hrun : MemoryStorage.run X .new ops = some (replies, m)) : Reached (ofMemory X (MemoryStorage.new_sim.run hrun).holds)
  | rocks {hash128 : StoredTerm → Hash} {X : Inline.Datatypes} {ops : List Storage.Op} {replies : List Storage.Reply} {r : RocksStorage}
    (hrun : RocksStorage.run hash128 X .new ops = some (replies, r)) (hok : ∀ reply ∈ replies, reply.isOk = true) :
    Reached (ofRocks hash128 X (RocksStorage.new_good.run hrun hok).sim)

theorem Reads.Reached.counted {r : Reads} (h : r.Reached) : r.Counted := by
  cases h with
  | memory hrun => exact ofMemory_counted _ _
  | rocks hrun hok => exact ofRocks_counted _ _ _

/-! ## What is visible -/

section
variable {view : View}

theorem View.decide_eq (hf : view.policy.semantics = .filter) (q : EncodedQuad) :
    view.decide q = if view.policy.decideQuad q Modes.read = .allow then some (.ok q) else none := by
  have hne : view.policy.decideQuad q Modes.read ≠ .fail := by
    intro hfail
    rw [view.policy.decideQuad_fail hfail] at hf
    cases hf
  unfold View.decide
  cases h : view.policy.decideQuad q Modes.read with
  | allow => simp
  | filter => simp
  | fail => exact absurd h hne

/-- Over a store read by its index this is the view every other query reads through. -/
theorem View.internalQuadsForPattern_eq {dataset : DatasetView} (hpolicy : view.policy = dataset.policy)
    (hscan : view.store.quadsForPattern = dataset.store.quadsForPattern) :
    view.internalQuadsForPattern = dataset.internalQuadsForPattern := by
  have hdecide : view.decide = dataset.decide := by
    funext q
    unfold View.decide DatasetView.decide
    rewrite [hpolicy]
    rfl
  have hdenied : view.deniedGraph = dataset.deniedGraph := by
    funext graph
    unfold View.deniedGraph DatasetView.deniedGraph
    rewrite [hpolicy]
    rfl
  funext s p o graph
  unfold View.internalQuadsForPattern DatasetView.internalQuadsForPattern
  rewrite [hdecide, hdenied, hscan]
  rfl

/-- The quads of a graph that the view shows. -/
def View.shown (view : View) (graph : Option TermId) : List EncodedQuad :=
  (view.internalQuadsForPattern none none none (some graph)).filterMap Except.toOption

/-- The default graph of the dataset a query is evaluated over: the store's, or the graphs of its
`FROM` merged. -/
def View.active (view : View) : Option QueryDataset → Finset EncodedQuad
  | none => (view.shown none).toFinset
  | some dataset =>
    (dataset.default.flatMap (fun iri => match view.store.lookupTerm (.namedNode iri) with
      | .ok (some g) => (view.shown (some g)).map (fun q => { q with graphName := none })
      | _ => [])).toFinset

/-- The predicates of that graph. -/
def View.predicates (view : View) (dataset : Option QueryDataset) : Set TermId := {p | ∃ q ∈ view.active dataset, q.predicate = p}

theorem View.mem_default (hf : view.policy.semantics = .filter) (p : Option TermId) (r : Except ViewError EncodedQuad) :
    r ∈ view.internalQuadsForPattern none p none (some none) ↔ ∃ q, r = .ok q ∧ q ∈ view.store.quads ∧
      Index.matchesTriple none p none q = true ∧ q.graphName = none ∧ view.policy.decideQuad q Modes.read = .allow := by
  change r ∈ (view.store.quadsForPattern none p none .default).filterMap view.decide ↔ _
  simp only [List.mem_filterMap, view.decide_eq hf, view.store.scans, Index.GraphFilter.admits]
  constructor
  · rintro ⟨q, ⟨hq, hmatch, hgraph⟩, hr⟩
    split at hr
    · rename_i hallow
      cases hr
      exact ⟨q, rfl, hq, hmatch, by simpa using hgraph, hallow⟩
    · cases hr
  · rintro ⟨q, rfl, hq, hmatch, hgraph, hallow⟩
    exact ⟨q, ⟨hq, hmatch, by simpa using hgraph⟩, by rw [if_pos hallow]⟩

theorem View.mem_active_none (hf : view.policy.semantics = .filter) (q : EncodedQuad) :
    q ∈ view.active none ↔ q ∈ view.store.quads ∧ q.graphName = none ∧ view.policy.decideQuad q Modes.read = .allow := by
  unfold View.active View.shown
  rw [List.mem_toFinset, List.mem_filterMap]
  simp only [view.mem_default hf]
  constructor
  · rintro ⟨r, ⟨q', rfl, hq, -, hgraph, hallow⟩, hr⟩
    cases hr
    exact ⟨hq, hgraph, hallow⟩
  · rintro ⟨hq, hgraph, hallow⟩
    exact ⟨.ok q, ⟨q, rfl, hq, by simp [Index.matchesTriple], hgraph, hallow⟩, rfl⟩

/-- The probe of a candidate finds a quad if the candidate is a predicate of the default graph. -/
theorem View.probe (hf : view.policy.semantics = .filter) (p : TermId) :
    (∃ q, (view.internalQuadsForPattern none (some p) none (some none)).head? = some (.ok q)) ∧ p ∈ view.predicates none ∨
      (view.internalQuadsForPattern none (some p) none (some none)).head? = none ∧ p ∉ view.predicates none := by
  have hmem := view.mem_default hf (some p)
  cases hscan : view.internalQuadsForPattern none (some p) none (some none) with
  | nil =>
    refine .inr ⟨rfl, ?_⟩
    rintro ⟨q, hq, rfl⟩
    obtain ⟨hq, hgraph, hallow⟩ := (view.mem_active_none hf q).1 hq
    have := (hmem (.ok q)).2 ⟨q, rfl, hq, by simp [Index.matchesTriple], hgraph, hallow⟩
    rw [hscan] at this
    cases this
  | cons r rest =>
    obtain ⟨q, rfl, hq, hmatch, hgraph, hallow⟩ := (hmem r).1 (by rw [hscan]; exact List.mem_cons_self)
    refine .inl ⟨⟨q, rfl⟩, q, (view.mem_active_none hf q).2 ⟨hq, hgraph, hallow⟩, ?_⟩
    simpa [Index.matchesTriple, eq_comm] using hmatch

end

/-! ## The table -/

theorem ofTerm_eq_some {t : Term} {g : GroundTerm} : GroundTerm.ofTerm t = some g ↔ t = g.toTerm := by
  induction t generalizing g with
  | namedNode n => cases g <;> simp [GroundTerm.ofTerm, GroundTerm.toTerm]
  | blankNode b => cases g <;> simp [GroundTerm.ofTerm, GroundTerm.toTerm]
  | literal l => cases g <;> simp [GroundTerm.ofTerm, GroundTerm.toTerm]
  | triple s p o ih =>
    cases s with
    | namedNode n =>
      simp only [GroundTerm.ofTerm, Option.map_eq_some_iff, ih]
      cases g with
      | triple s' p' o' =>
        simp only [GroundTerm.toTerm, GroundTerm.triple.injEq, Term.triple.injEq, NamedOrBlankNode.namedNode.injEq]
        constructor
        · rintro ⟨o', rfl, rfl, rfl, rfl⟩
          exact ⟨rfl, rfl, rfl⟩
        · rintro ⟨rfl, rfl, rfl⟩
          exact ⟨o', rfl, rfl, rfl, rfl⟩
      | namedNode n => simp [GroundTerm.toTerm]
      | literal l => simp [GroundTerm.toTerm]
    | blankNode b => cases g <;> simp [GroundTerm.ofTerm, GroundTerm.toTerm]

section
variable {view : View}

/-- A predicate of the default graph that is a ground term. -/
def View.Lists (view : View) (p : TermId) (g : GroundTerm) : Prop :=
  p ∈ view.predicates none ∧ view.store.decodeTerm p = .ok (some g.toTerm)

theorem confirm_ok (hf : view.policy.semantics = .filter) {bindings bindings' : List (List (Option GroundTerm))} {candidate : TermId × Nat}
    (h : confirm view bindings candidate = .ok bindings') :
    (∃ g, view.Lists candidate.1 g ∧ bindings' = bindings ++ [[some g]]) ∨ (∀ g, ¬ view.Lists candidate.1 g) ∧ bindings' = bindings := by
  unfold confirm at h
  rcases view.probe hf candidate.1 with ⟨⟨q, hq⟩, hp⟩ | ⟨hnone, hp⟩
  · rw [hq] at h
    unfold View.decodeTerm at h
    dsimp only at h
    cases hdecode : view.store.decodeTerm candidate.1 with
    | error e =>
      rw [hdecode] at h
      cases h
    | ok found =>
      rw [hdecode] at h
      cases found with
      | none =>
        cases h
        refine .inr ⟨fun g hg => ?_, rfl⟩
        rw [hg.2] at hdecode
        cases hdecode
      | some t =>
        dsimp only at h
        cases hground : GroundTerm.ofTerm t with
        | none =>
          rw [hground] at h
          cases h
          refine .inr ⟨fun g hg => ?_, rfl⟩
          rw [hg.2] at hdecode
          cases hdecode
          rw [ofTerm_eq_some.2 rfl] at hground
          cases hground
        | some g =>
          rw [hground] at h
          cases h
          rw [ofTerm_eq_some.1 hground] at hdecode
          exact .inl ⟨g, ⟨hp, hdecode⟩, rfl⟩
  · rw [hnone] at h
    cases h
    exact .inr ⟨fun g hg => hp hg.1, rfl⟩

theorem toTerm_injective {g g' : GroundTerm} (h : g.toTerm = g'.toTerm) : g = g' := by
  have hg := ofTerm_eq_some.2 h
  rw [ofTerm_eq_some.2 rfl] at hg
  exact Option.some_inj.1 hg

/-- The table has a row for each candidate that is listed. -/
theorem confirmed (hf : view.policy.semantics = .filter) {candidates : List (TermId × Nat)} {bindings bindings' : List (List (Option GroundTerm))}
    (h : candidates.foldlM (confirm view) bindings = .ok bindings') :
    ∃ listed : List (TermId × GroundTerm), bindings' = bindings ++ listed.map (fun x => [some x.2]) ∧
      (listed.map Prod.fst).Sublist (candidates.map Prod.fst) ∧
      ∀ p g, (p, g) ∈ listed ↔ p ∈ candidates.map Prod.fst ∧ view.Lists p g := by
  induction candidates generalizing bindings with
  | nil =>
    cases h
    exact ⟨[], by simp, .slnil, by simp⟩
  | cons candidate candidates ih =>
    rw [List.foldlM_cons] at h
    cases hc : confirm view bindings candidate with
    | error e =>
      rw [hc] at h
      cases h
    | ok next =>
      rw [hc] at h
      obtain ⟨listed, rfl, hsub, hmem⟩ := ih h
      rcases confirm_ok hf hc with ⟨g, hg, rfl⟩ | ⟨hno, rfl⟩
      · refine ⟨(candidate.1, g) :: listed, by simp, by simpa using hsub, fun p g' => ?_⟩
        rw [List.mem_cons, hmem, List.map_cons, List.mem_cons, or_and_right, Prod.mk.injEq]
        refine or_congr_left (and_congr_right (fun hp => ?_))
        subst hp
        refine ⟨fun heq => heq ▸ hg, fun hg' => ?_⟩
        have hterm := hg'.2
        rw [hg.2] at hterm
        exact (toTerm_injective (by simpa using hterm)).symm
      · refine ⟨listed, rfl, hsub.cons _, fun p g => ?_⟩
        rw [hmem, List.map_cons, List.mem_cons, or_and_right]
        refine ⟨.inr, fun h => h.resolve_left (fun ⟨hp, hg⟩ => ?_)⟩
        subst hp
        exact hno g hg

end

/-! ## Evaluation -/

/-- What evaluates a query once its patterns are read. -/
structure Evaluator where
  intern : Term → TermId
  holds : Expression → Solution → Bool
  beyond : Option TermId → GraphPattern → Multiset Solution
  before : Before

/-- No solution comes before itself, and an order by one variable looks at nothing else. -/
structure Evaluator.Orders (E : Evaluator) : Prop where
  irrefl : ∀ es μ, ¬ E.before es μ μ
  reads : ∀ es v, es.all (fun e => mentionsOnly e v) = true → ∀ μ μ' ν ν' : Solution, μ.lookup v = μ'.lookup v →
    ν.lookup v = ν'.lookup v → (E.before es μ ν ↔ E.before es μ' ν')

/-- Evaluation over a default graph. No query here looks at the named graphs. -/
def Evaluator.over (E : Evaluator) (quads : Finset EncodedQuad) : Interpretation where
  quads := quads.filter (fun q => q.graphName = none)
  graphs := ∅
  named q hq n hn := by
    rw [(Finset.mem_filter.1 hq).2] at hn
    cases hn
  intern := E.intern
  holds := E.holds
  beyond := E.beyond

section
variable {E : Evaluator} {Q : Finset EncodedQuad} {v : Variable} {t : TriplePattern}

theorem Evaluator.graph_over (hQ : ∀ q ∈ Q, q.graphName = none) : (E.over Q).graph none = Q := by
  ext q
  simp only [Interpretation.graph, Evaluator.over, Finset.mem_filter]
  exact ⟨fun h => h.1.1, fun h => ⟨⟨h, hQ q h⟩, hQ q h⟩⟩

theorem termSolutions_free {I : Interpretation} {p : TermPattern} {w : Variable} (h : free p = some w) (id : TermId) :
    I.termSolutions p id = {Finmap.singleton w id} := by
  cases p with
  | var u =>
    cases h
    rfl
  | blankNode label =>
    cases h
    rfl
  | namedNode n => cases h
  | literal l => cases h
  | triple s p o => cases h

theorem compat_singleton {w u : Variable} (h : w ≠ u) (x y : TermId) :
    Mapping.Compat (Finmap.singleton w x : Solution) (Finmap.singleton u y) := by
  intro k hw hu
  rw [mem_keys_singleton] at hw hu
  exact absurd (hw.trans hu.symm) h

/-- The solutions of the pattern are the quads, and each binds the predicate. -/
theorem eval_triple (I : Interpretation) (h : freePredicate t = some v) :
    ∃ sol : EncodedQuad → Solution, I.eval none (.bgp [t]) = (I.graph none).val.map sol ∧ ∀ q, (sol q).lookup v = some q.predicate := by
  obtain ⟨subject, predicate, object⟩ := t
  unfold freePredicate at h
  cases predicate with
  | namedNode n => cases h
  | var p =>
    dsimp only at h
    cases hs : free subject with
    | none =>
      rw [hs] at h
      cases h
    | some s =>
      cases ho : free object with
      | none =>
        rw [hs, ho] at h
        cases h
      | some o =>
        rw [hs, ho] at h
        dsimp only at h
        split_ifs at h with hdistinct
        cases h
        simp only [not_or] at hdistinct
        obtain ⟨hso, hsp, hop⟩ := hdistinct
        have hpo := compat_singleton (Ne.symm hop)
        have hspo : ∀ x y z, Mapping.Compat (Finmap.singleton s x : Solution) (Finmap.singleton v y ∪ Finmap.singleton o z) := by
          intro x y z
          rw [Mapping.compat_comm, Mapping.compat_union (hpo y z)]
          exact ⟨compat_singleton (Ne.symm hsp) y x, compat_singleton (Ne.symm hso) z x⟩
        refine ⟨fun q => Finmap.singleton s q.subject ∪ (Finmap.singleton v q.predicate ∪ Finmap.singleton o q.object), ?_, fun q => ?_⟩
        · have hplain : ∀ {p : TermPattern} {w}, free p = some w → Interpretation.plainTerm p = true := by
            intro p w hp
            cases p <;> first | rfl | cases hp
          have hquad : ∀ q, I.quadSolutions ⟨subject, .var v, object⟩ q =
              {Finmap.singleton s q.subject ∪ (Finmap.singleton v q.predicate ∪ Finmap.singleton o q.object)} := by
            intro q
            unfold Interpretation.quadSolutions
            rw [termSolutions_free hs, termSolutions_free ho]
            change Mapping.join {_} (Mapping.join {Finmap.singleton v q.predicate} {_}) = _
            rw [Mapping.singleton_join (Finmap.singleton v q.predicate), Mapping.extend_singleton, if_pos (hpo _ _),
              Mapping.singleton_join, Mapping.extend_singleton, if_pos (hspo _ _ _)]
          have hall : ([⟨subject, .var v, object⟩] : List TriplePattern).all
              (fun t => Interpretation.plainTerm t.subject && Interpretation.plainTerm t.object) = true := by
            simp [hplain hs, hplain ho]
          rw [Interpretation.eval, if_pos hall, List.map_singleton, Mapping.joinAll_cons, Mapping.joinAll_nil, Mapping.join_unit]
          unfold Interpretation.tripleSolutions
          simp only [hquad]
          rw [Multiset.bind_singleton]
        · rw [Mapping.lookup_union_of_right (hspo _ _ _)]
          exact Mapping.lookup_union_of_left (Finmap.lookup_singleton_eq)

/-- The solutions of the table are its rows. -/
theorem eval_table (I : Interpretation) (listed : List GroundTerm) :
    I.eval none (.values [v] (listed.map (fun g => [some g]))) =
      (listed.map (fun g => Finmap.singleton v (I.intern g.toTerm)) : List Solution) := by
  have hrow : ∀ g, I.rowSolutions ([v].zip [some g]) = {Finmap.singleton v (I.intern g.toTerm)} := by
    intro g
    change Mapping.join {_} {∅} = _
    rw [Mapping.join_unit]
  rw [Interpretation.eval]
  induction listed with
  | nil => rfl
  | cons g listed ih =>
    rw [List.map_cons, ← Multiset.cons_coe, Multiset.cons_bind, ih, hrow, List.map_cons, ← Multiset.cons_coe, Multiset.singleton_add]

theorem restrict_singleton {μ : Solution} {p : TermId} (h : μ.lookup v = some p) : Mapping.restrict [v] μ = Finmap.singleton v p := by
  refine Finmap.ext_lookup (fun w => ?_)
  rw [Mapping.lookup_restrict]
  by_cases hw : w = v
  · subst hw
    rw [if_pos (List.mem_singleton_self _), h, Finmap.lookup_singleton_eq]
  · rw [if_neg (by simpa using hw), eq_comm, Finmap.lookup_eq_none, Finmap.mem_singleton]
    exact hw

end

/-! ## Patterns of the shape -/

section
variable {v : Variable} {t : TriplePattern} {inner pattern : GraphPattern}

/-- The pattern, ordered by its predicate or not. -/
inductive Core (v : Variable) (t : TriplePattern) : GraphPattern → Prop
  | plain : Core v t (.bgp [t])
  | ordered {es : List OrderExpression} (h : es.all (fun e => mentionsOnly e v) = true) : Core v t (.orderBy (.bgp [t]) es)

inductive Shaped (v : Variable) (t : TriplePattern) : GraphPattern → Prop
  | distinct {inner : GraphPattern} (h : Core v t inner) : Shaped v t (.distinct (.project inner [v]))
  | reduced {inner : GraphPattern} (h : Core v t inner) : Shaped v t (.reduced (.project inner [v]))
  | slice {inner : GraphPattern} {start : Nat} {length : Option Nat} (h : Shaped v t inner) : Shaped v t (.slice inner start length)

theorem unordered_core {triple : TriplePattern} (h : unordered v inner = .bgp [triple]) : Core v triple inner := by
  cases inner with
  | orderBy inner es =>
    unfold unordered at h
    dsimp only at h
    split_ifs at h with hall
    rw [h]
    exact .ordered hall
  | bgp patterns =>
    cases h
    exact .plain
  | _ => cases h

theorem shape_core {projected : Variable} (h : (match unordered projected inner with
    | .bgp [triple] =>
      match freePredicate triple with
      | some predicate => if predicate = projected then some predicate else none
      | none => none
    | _ => none) = some v) : v = projected ∧ ∃ t, freePredicate t = some v ∧ Core v t inner := by
  split at h
  · rename_i triple hcore
    split at h
    · rename_i predicate hfree
      split_ifs at h with hsame
      cases h
      subst hsame
      exact ⟨rfl, triple, hfree, unordered_core hcore⟩
    · cases h
  · cases h

/-- A query is rewritten only if it is of the shape. -/
theorem shape_shaped (h : shape pattern = some v) : ∃ t, freePredicate t = some v ∧ Shaped v t pattern := by
  have honce : ∃ t, freePredicate t = some v ∧ Shaped v t (unsliced pattern) := by
    unfold shape at h
    split at h
    · rename_i inner projected heq
      obtain ⟨rfl, t, hfree, hcore⟩ := shape_core h
      exact ⟨t, hfree, heq ▸ .distinct hcore⟩
    · rename_i inner projected heq
      obtain ⟨rfl, t, hfree, hcore⟩ := shape_core h
      exact ⟨t, hfree, heq ▸ .reduced hcore⟩
    · cases h
  obtain ⟨t, hfree, hshaped⟩ := honce
  refine ⟨t, hfree, ?_⟩
  cases pattern with
  | slice inner start length => exact .slice hshaped
  | _ => exact hshaped

/-- The order a pattern asks for. -/
def Arranged (before : Before) : GraphPattern → List Solution → Prop
  | .orderBy _ es, l => l.Pairwise (fun μ ν => ¬ before es ν μ)
  | _, _ => True

/-- A pattern whose answers are its solutions in any order. -/
def Unordered (I : Interpretation) (before : Before) (T : GraphPattern) : Prop :=
  ∀ l, I.Sequence before T l ↔ (l : Multiset Solution) = I.eval none T

theorem Core.sequence {I : Interpretation} {before : Before} {T : GraphPattern} {l : List Solution} (h : Core v t inner)
    (hT : Unordered I before T) :
    I.Sequence before (replacePattern T inner) l ↔ (l : Multiset Solution) = I.eval none T ∧ Arranged before inner l := by
  cases h with
  | plain => exact (hT l).trans (and_iff_left trivial).symm
  | ordered h =>
    constructor
    · rintro ⟨l₀, hl₀, hperm, hsorted⟩
      exact ⟨(Multiset.coe_eq_coe.2 hperm).trans ((hT l₀).1 hl₀), hsorted⟩
    · rintro ⟨hl, hsorted⟩
      exact ⟨l, (hT l).2 hl, .refl l, hsorted⟩

theorem Core.replace_self (h : Core v t inner) : replacePattern (.bgp [t]) inner = inner := by
  cases h <;> rfl

/-- The table answers for the pattern: its rows are the predicates, each once. -/
structure Stands (I : Interpretation) (before : Before) (v : Variable) (T : GraphPattern) (P : List TermId) : Prop where
  nodup : P.Nodup
  unordered : Unordered I before T
  rows : I.eval none T = (P.map (fun p => Finmap.singleton v p) : List Solution)
  mem : ∀ p, p ∈ P ↔ ∃ q ∈ I.graph none, q.predicate = p

end

section
variable {E : Evaluator} {I : Interpretation} {v : Variable} {t : TriplePattern} {inner pattern T : GraphPattern} {P : List TermId}

theorem singleton_injective {p p' : TermId} (h : (Finmap.singleton v p : Solution) = Finmap.singleton v p') : p = p' := by
  have hlookup := congrArg (fun μ : Solution => μ.lookup v) h
  simpa [Finmap.lookup_singleton_eq] using hlookup

theorem restrict_row (p : TermId) : Mapping.restrict [v] (Finmap.singleton v p : Solution) = Finmap.singleton v p :=
  restrict_singleton Finmap.lookup_singleton_eq

theorem lookup_restrict_self (μ : Solution) : (Mapping.restrict [v] μ).lookup v = μ.lookup v := by
  rw [Mapping.lookup_restrict, if_pos (List.mem_singleton_self v)]

/-- The rows of the table, projected, are the rows of the table. -/
theorem Stands.projected (h : Stands I E.before v T P) {l : List Solution} (hl : (l : Multiset Solution) = I.eval none T) :
    l.map (Mapping.restrict [v]) = l ∧ l.Nodup ∧ ∀ μ, μ ∈ l ↔ ∃ p ∈ P, μ = Finmap.singleton v p := by
  rw [h.rows, Multiset.coe_eq_coe] at hl
  have hmem : ∀ μ, μ ∈ l ↔ ∃ p ∈ P, μ = Finmap.singleton v p := by
    intro μ
    rw [hl.mem_iff, List.mem_map]
    simp only [eq_comm]
  refine ⟨?_, hl.nodup_iff.2 (h.nodup.map (fun _ _ => singleton_injective)), hmem⟩
  refine (List.map_congr_left (fun μ hμ => ?_)).trans (List.map_id l)
  obtain ⟨p, -, rfl⟩ := (hmem μ).1 hμ
  exact restrict_row p

/-- What a solution of the pattern is projected to. -/
theorem Stands.solution (h : Stands I E.before v T P) (hfree : freePredicate t = some v) {l : List Solution}
    (hl : (l : Multiset Solution) = I.eval none (.bgp [t])) (μ : Solution) :
    (∃ a ∈ l, Mapping.restrict [v] a = μ) ↔ ∃ p ∈ P, μ = Finmap.singleton v p := by
  obtain ⟨sol, heval, hsol⟩ := eval_triple I hfree
  have hmem : ∀ a, a ∈ l ↔ ∃ q ∈ I.graph none, sol q = a := by
    intro a
    rw [← Multiset.mem_coe, hl, heval, Multiset.mem_map]
    rfl
  simp only [hmem]
  constructor
  · rintro ⟨a, ⟨q, hq, rfl⟩, rfl⟩
    exact ⟨q.predicate, (h.mem _).2 ⟨q, hq, rfl⟩, restrict_singleton (hsol q)⟩
  · rintro ⟨p, hp, rfl⟩
    obtain ⟨q, hq, rfl⟩ := (h.mem p).1 hp
    exact ⟨sol q, ⟨q, hq, rfl⟩, restrict_singleton (hsol q)⟩

/-- The order asked for is an order of what is projected. -/
theorem Core.arranged_restrict (hcore : Core v t inner) (hE : E.Orders) {l : List Solution} :
    Arranged E.before inner (l.map (Mapping.restrict [v])) ↔ Arranged E.before inner l := by
  cases hcore with
  | plain => exact Iff.rfl
  | @ordered es hes =>
    change (l.map (Mapping.restrict [v])).Pairwise (fun μ ν => ¬ E.before es ν μ) ↔ l.Pairwise (fun μ ν => ¬ E.before es ν μ)
    rw [List.pairwise_map]
    refine List.Pairwise.iff (fun μ ν => ?_)
    rw [hE.reads _ v hes _ ν _ μ (lookup_restrict_self ν) (lookup_restrict_self μ)]

theorem Arranged.sublist {before : Before} {l l' : List Solution} (h : Arranged before inner l) (hsub : l'.Sublist l) :
    Arranged before inner l' := by
  cases inner with
  | orderBy inner es => exact h.sublist hsub
  | _ => trivial

theorem Unordered.bgp (I : Interpretation) (before : Before) (ts : List TriplePattern) : Unordered I before (.bgp ts) := fun _ => Iff.rfl

theorem Unordered.values (I : Interpretation) (before : Before) (vars : List Variable) (bindings : List (List (Option GroundTerm))) :
    Unordered I before (.values vars bindings) := fun _ => Iff.rfl

/-- What the table is projected to without repeats, the pattern is, repeats dropped. -/
theorem Stands.refines (h : Stands I E.before v T P) (hE : E.Orders) (hfree : freePredicate t = some v) (hcore : Core v t inner)
    {l l₁ : List Solution} (hl₁ : I.Sequence E.before (.project (replacePattern T inner) [v]) l₁) (hsub : l.Sublist l₁)
    (hall : ∀ μ ∈ l₁, μ ∈ l) :
    l.Nodup ∧ ∃ l₂, I.Sequence E.before (.project inner [v]) l₂ ∧ l.Sublist l₂ ∧ ∀ μ ∈ l₂, μ ∈ l := by
  obtain ⟨l₀, hl₀, rfl⟩ := hl₁
  obtain ⟨hrows, harranged⟩ := (hcore.sequence h.unordered).1 hl₀
  obtain ⟨hself, hnodup, hmem⟩ := h.projected hrows
  rw [hself] at hsub hall
  have hmem : ∀ μ, μ ∈ l ↔ ∃ p ∈ P, μ = Finmap.singleton v p := fun μ => ⟨fun hμ => (hmem μ).1 (hsub.subset hμ), fun hμ => hall μ ((hmem μ).2 hμ)⟩
  obtain ⟨xs, hxs⟩ := Quotient.exists_rep (I.eval none (.bgp [t]))
  have hxs : (xs : Multiset Solution) = I.eval none (.bgp [t]) := hxs
  have hkeys : ∀ μ, (∃ a ∈ xs, Mapping.restrict [v] a = μ) ↔ μ ∈ l := fun μ => (h.solution hfree hxs μ).trans (hmem μ).symm
  -- the solutions, predicate by predicate in the order of the rows
  have hperm : (grouped (Mapping.restrict [v]) l xs).Perm xs :=
    grouped_perm (hsub.nodup hnodup) (fun a ha => (hkeys _).1 ⟨a, ha, rfl⟩)
  have hgrouped : I.Sequence E.before inner (grouped (Mapping.restrict [v]) l xs) := by
    rw [← hcore.replace_self]
    refine (hcore.sequence (.bgp I E.before [t])).2 ⟨(Multiset.coe_eq_coe.2 hperm).trans hxs, ?_⟩
    cases hcore with
    | plain => trivial
    | ordered hes =>
      refine (grouped_pairwise (R := fun μ ν => ¬ E.before _ ν μ) (hE.irrefl _) (harranged.sublist hsub)).imp (fun {μ ν} hno => ?_)
      rwa [hE.reads _ v hes _ ν _ μ (lookup_restrict_self ν) (lookup_restrict_self μ)] at hno
  refine ⟨hsub.nodup hnodup, _, ⟨_, hgrouped, rfl⟩, sublist_grouped (fun μ hμ => (hkeys μ).2 hμ), ?_⟩
  intro μ hμ
  obtain ⟨a, ha, rfl⟩ := List.mem_map.1 hμ
  exact (mem_grouped.1 ha).2

/-- And what the pattern is projected to, repeats dropped, the table is. -/
theorem Stands.refined (h : Stands I E.before v T P) (hE : E.Orders) (hfree : freePredicate t = some v) (hcore : Core v t inner)
    {l l₁ : List Solution} (hl₁ : I.Sequence E.before (.project inner [v]) l₁) (hsub : l.Sublist l₁) (hall : ∀ μ ∈ l₁, μ ∈ l)
    (hnodup : l.Nodup) : I.Sequence E.before (.project (replacePattern T inner) [v]) l := by
  obtain ⟨l₀, hl₀, rfl⟩ := hl₁
  rw [← hcore.replace_self] at hl₀
  obtain ⟨hrows, harranged⟩ := (hcore.sequence (.bgp I E.before [t])).1 hl₀
  have hmem : ∀ μ, μ ∈ l ↔ ∃ p ∈ P, μ = Finmap.singleton v p := by
    intro μ
    rw [← h.solution hfree hrows μ]
    exact ⟨fun hμ => by simpa using hsub.subset hμ, fun ⟨a, ha, heq⟩ => hall μ (List.mem_map.2 ⟨a, ha, heq⟩)⟩
  have hl : (l : Multiset Solution) = I.eval none T := by
    rw [h.rows, Multiset.coe_eq_coe, List.perm_ext_iff_of_nodup hnodup (h.nodup.map (fun _ _ => singleton_injective))]
    intro μ
    rw [hmem, List.mem_map]
    simp only [eq_comm]
  exact ⟨l, (hcore.sequence h.unordered).2 ⟨hl, ((hcore.arranged_restrict hE).2 harranged).sublist hsub⟩, (h.projected hl).1.symm⟩

/-- Whether repeats are dropped for certain. -/
def isDistinct : GraphPattern → Bool
  | .distinct _ => true
  | .slice inner _ _ => isDistinct inner
  | _ => false

/-- The table has the answers of the pattern: all of them, where the specification leaves it open
whether repeats are dropped only those without. -/
theorem Stands.answers (h : Stands I E.before v T P) (hE : E.Orders) (hfree : freePredicate t = some v) (hshaped : Shaped v t pattern)
    (l : List Solution) : (I.Sequence E.before (replacePattern T pattern) l → I.Sequence E.before pattern l) ∧
      (isDistinct pattern = true → I.Sequence E.before pattern l → I.Sequence E.before (replacePattern T pattern) l) := by
  induction hshaped generalizing l with
  | distinct hcore =>
    constructor
    · rintro ⟨l₁, hl₁, hsub, hall, -⟩
      obtain ⟨hnodup, l₂, hl₂, hsub₂, hall₂⟩ := h.refines hE hfree hcore hl₁ hsub hall
      exact ⟨l₂, hl₂, hsub₂, hall₂, hnodup⟩
    · rintro - ⟨l₁, hl₁, hsub, hall, hnodup⟩
      exact ⟨l, h.refined hE hfree hcore hl₁ hsub hall hnodup, .refl l, fun _ hμ => hμ, hnodup⟩
  | reduced hcore =>
    constructor
    · rintro ⟨l₁, hl₁, hsub, hall⟩
      obtain ⟨-, l₂, hl₂, hsub₂, hall₂⟩ := h.refines hE hfree hcore hl₁ hsub hall
      exact ⟨l₂, hl₂, hsub₂, hall₂⟩
    · intro hd
      cases hd
  | slice _ ih =>
    constructor
    · rintro ⟨l₀, hl₀, rfl⟩
      exact ⟨l₀, (ih l₀).1 hl₀, rfl⟩
    · rintro hd ⟨l₀, hl₀, rfl⟩
      exact ⟨l₀, (ih l₀).2 hd hl₀, rfl⟩

end

/-! ## The rewritten query -/

section
variable {E : Evaluator} {view : View} {dataset : Option QueryDataset} {pattern : GraphPattern}

/-- What is shown of a dataset's default graph stands in no named graph. -/
theorem View.active_graphName (view : View) (dataset : Option QueryDataset) : ∀ q ∈ view.active dataset, q.graphName = none := by
  intro q hq
  cases dataset with
  | none =>
    unfold View.active View.shown at hq
    obtain ⟨r, hr, hok⟩ := List.mem_filterMap.1 (List.mem_toFinset.1 hq)
    change r ∈ (view.store.quadsForPattern none none none .default).filterMap view.decide at hr
    obtain ⟨q', hq', hdecide⟩ := List.mem_filterMap.1 hr
    have hgraph := ((view.store.scans _ _ _ _ _).1 hq').2.2
    unfold View.decide at hdecide
    split at hdecide
    · cases hdecide
      cases hok
      simpa [Index.GraphFilter.admits] using hgraph
    · cases hdecide
    · cases hdecide
      cases hok
  | some dataset =>
    unfold View.active at hq
    obtain ⟨iri, -, hq⟩ := List.mem_flatMap.1 (List.mem_toFinset.1 hq)
    split at hq
    · obtain ⟨q', -, rfl⟩ := List.mem_map.1 hq
      rfl
    · cases hq

/-- Every predicate of the default graph decodes, and is the id of what it decodes to. -/
def Readable (E : Evaluator) (view : View) : Prop :=
  ∀ p ∈ view.predicates none, ∃ t, view.store.decodeTerm p = .ok (some t) ∧ E.intern t = p

/-- The query rewritten with these rows has the answers of the query, and the rows are the predicates
of its dataset. -/
structure Same (E : Evaluator) (view : View) (dataset : Option QueryDataset) (pattern : GraphPattern) (predicate : Variable)
    (bindings : List (List (Option GroundTerm))) : Prop where
  answers : ∀ l, (E.over (view.active dataset)).Sequence E.before (replacePattern (.values [predicate] bindings) pattern) l →
    (E.over (view.active dataset)).Sequence E.before pattern l
  all : isDistinct pattern = true → ∀ l, (E.over (view.active dataset)).Sequence E.before pattern l →
    (E.over (view.active dataset)).Sequence E.before (replacePattern (.values [predicate] bindings) pattern) l
  listed : ∀ p, (∃ g, [some g] ∈ bindings ∧ E.intern g.toTerm = p) ↔ p ∈ view.predicates dataset

/-- The predicates of the dataset are those of the default graph that are counted and ground. -/
def View.Exact (view : View) (dataset : Option QueryDataset) : Prop :=
  ∀ p, p ∈ view.predicates dataset ↔ p ∈ view.store.predicateHistogram.map Prod.fst ∧ ∃ g, view.Lists p g

/-- Over a store that counts its predicates and names them by IRIs, only the dataset matters. -/
theorem View.exact_iff (hf : view.policy.semantics = .filter) (hcounted : view.store.Counted)
    (hnamed : ∀ p ∈ view.predicates none, ∃ iri, view.store.decodeTerm p = .ok (some (.namedNode iri))) :
    view.Exact dataset ↔ view.predicates dataset = view.predicates none := by
  have hlisted : ∀ p, (p ∈ view.store.predicateHistogram.map Prod.fst ∧ ∃ g, view.Lists p g) ↔ p ∈ view.predicates none := by
    intro p
    constructor
    · rintro ⟨-, g, hg, -⟩
      exact hg
    · intro hp
      obtain ⟨iri, hiri⟩ := hnamed p hp
      refine ⟨?_, .namedNode iri, hp, hiri⟩
      obtain ⟨q, hq, rfl⟩ := hp
      exact (hcounted _).2 ⟨q, ((view.mem_active_none hf q).1 hq).1, rfl⟩
  unfold View.Exact
  simp only [hlisted]
  exact Set.ext_iff.symm

theorem materialised_of {v : Variable} {bindings : List (List (Option GroundTerm))} (hshape : shape pattern = some v)
    (hfold : view.store.predicateHistogram.foldlM (confirm view) [] = .ok bindings) :
    materialised view (.select dataset pattern) = .ok (some (.select dataset (replacePattern (.values [v] bindings) pattern))) := by
  unfold materialised
  dsimp only
  rw [hshape]
  dsimp only
  rw [hfold]
  rfl

/-- A query is rewritten to one with the same answer when the predicates of its dataset are those of
the default graph that the store counts and that are ground terms. After a run of either tier in which
no write failed, over quads, that is when they are the predicates of the default graph. -/
theorem materialised_same_iff (hE : E.Orders) (hf : view.policy.semantics = .filter) (hread : Readable E view) {query : Query}
    (h : materialised view (.select dataset pattern) = .ok (some query)) :
    ∃ predicate bindings, query = .select dataset (replacePattern (.values [predicate] bindings) pattern) ∧
      (Same E view dataset pattern predicate bindings ↔ view.Exact dataset) ∧
      (view.store.Reached → (∀ p ∈ view.predicates none, ∃ iri, view.store.decodeTerm p = .ok (some (.namedNode iri))) →
        (Same E view dataset pattern predicate bindings ↔ view.predicates dataset = view.predicates none)) := by
  unfold materialised at h
  dsimp only at h
  cases hshape : shape pattern with
  | none =>
    rw [hshape] at h
    cases h
  | some predicate =>
    rw [hshape] at h
    dsimp only at h
    cases hfold : view.store.predicateHistogram.foldlM (confirm view) [] with
    | error e =>
      rw [hfold] at h
      cases h
    | ok bindings =>
      rw [hfold] at h
      cases h
      obtain ⟨t, hfree, hshaped⟩ := shape_shaped hshape
      obtain ⟨listed, rfl, hsub, hmem⟩ := confirmed hf hfold
      rw [List.nil_append]
      have hintern : ∀ x ∈ listed, E.intern x.2.toTerm = x.1 := by
        rintro ⟨p, g⟩ hx
        obtain ⟨-, hp, hdecode⟩ := (hmem p g).1 hx
        obtain ⟨term, hterm, hid⟩ := hread p hp
        rw [hdecode] at hterm
        cases hterm
        exact hid
      have hkeys : ∀ p, p ∈ listed.map Prod.fst ↔ p ∈ view.store.predicateHistogram.map Prod.fst ∧ ∃ g, view.Lists p g := by
        intro p
        constructor
        · intro hp
          obtain ⟨⟨p, g⟩, hx, rfl⟩ := List.mem_map.1 hp
          exact ((hmem p g).1 hx).imp_right (fun hg => ⟨g, hg⟩)
        · rintro ⟨hp, g, hg⟩
          exact List.mem_map.2 ⟨(p, g), (hmem p g).2 ⟨hp, hg⟩, rfl⟩
      have hrows : ∀ p, (∃ g, [some g] ∈ listed.map (fun x => [some x.2]) ∧ E.intern g.toTerm = p) ↔ p ∈ listed.map Prod.fst := by
        intro p
        constructor
        · rintro ⟨g, hg, rfl⟩
          obtain ⟨x, hx, heq⟩ := List.mem_map.1 hg
          cases heq
          rw [hintern x hx]
          exact List.mem_map_of_mem hx
        · intro hp
          obtain ⟨x, hx, rfl⟩ := List.mem_map.1 hp
          exact ⟨x.2, List.mem_map.2 ⟨x, hx, rfl⟩, hintern x hx⟩
      have hiff : Same E view dataset pattern predicate (listed.map (fun x => [some x.2])) ↔ view.Exact dataset := by
        constructor
        · intro hsame p
          rw [← hsame.listed p, hrows, hkeys]
        · intro hexact
          have hstands : Stands (E.over (view.active dataset)) E.before predicate (.values [predicate] (listed.map (fun x => [some x.2])))
              (listed.map Prod.fst) := by
            refine ⟨hsub.nodup view.store.keyed, .values _ _ _ _, ?_, fun p => ?_⟩
            · have htable := eval_table (v := predicate) (E.over (view.active dataset)) (listed.map Prod.snd)
              rw [List.map_map, List.map_map] at htable
              refine htable.trans (congrArg _ ?_)
              rw [List.map_map]
              refine List.map_congr_left (fun x hx => ?_)
              exact congrArg (Finmap.singleton predicate) (hintern x hx)
            · rw [hkeys, ← hexact p, Evaluator.graph_over (view.active_graphName dataset)]
              rfl
          exact ⟨fun l => (hstands.answers hE hfree hshaped l).1, fun hd l => (hstands.answers hE hfree hshaped l).2 hd,
            fun p => (hrows p).trans ((hkeys p).trans (hexact p).symm)⟩
      exact ⟨predicate, _, rfl, hiff, fun hreached hnamed => hiff.trans (View.exact_iff hf hreached.counted hnamed)⟩

end

/-! ## Two graphs -/

namespace TwoGraphs

def a : TermId := .small .iri 0
def p : TermId := .small .iri 1
def b : TermId := .small .iri 2
def q : TermId := .small .iri 3
def g : TermId := .small .iri 4

/-- `<urn:a> <urn:p> <urn:b>` in the default graph, and `<urn:a> <urn:q> <urn:b>` in `<urn:g>`. -/
def ops : List Storage.Op :=
  ["urn:a", "urn:p", "urn:b", "urn:q", "urn:g"].map (fun iri => .encode (.namedNode iri)) ++
    [.write (.insert ⟨a, p, b, none⟩), .write (.insert ⟨a, q, b, some g⟩)]

theorem ops_run : (MemoryStorage.run Dictionary.bare .new ops).isSome = true := by decide +kernel

def ran : List Storage.Reply × MemoryStorage := (MemoryStorage.run Dictionary.bare .new ops).get ops_run

theorem run_eq : MemoryStorage.run Dictionary.bare .new ops = some (ran.1, ran.2) := (Option.some_get ops_run).symm

def view : View := ⟨ofMemory Dictionary.bare (MemoryStorage.new_sim.run run_eq).holds, .permitAll⟩

theorem view_reached : view.store.Reached := .memory run_eq

def x : Variable := .named "x"

/-- `SELECT DISTINCT ?x WHERE { ?s ?x ?o }`. -/
def pattern : GraphPattern := .distinct (.project (.bgp [⟨.var (.named "s"), .var x, .var (.named "o")⟩]) [x])

/-- `SELECT DISTINCT ?x WHERE { ?s ?x ?o } ORDER BY DESC(?x) LIMIT 2`. -/
def ordered : GraphPattern :=
  .slice (.distinct (.project (.orderBy (.bgp [⟨.var (.named "s"), .var x, .var (.named "o")⟩]) [.desc (.var x)]) [x])) 0 (some 2)

def evaluator : Evaluator := ⟨fun t => (ran.2.lookup Dictionary.bare t).getD 0, fun _ _ => false, fun _ _ => 0, fun _ _ _ => False⟩

theorem histogram : view.store.predicateHistogram = [(p, 1), (q, 1)] := by
  change (ran.2.predicateCounts.keys.toList.map (fun i => (i, ran.2.predicateCounts.count i))).mergeSort _ = _
  rw [show ran.2.predicateCounts.keys.toList.map (fun i => (i, ran.2.predicateCounts.count i)) = [(p, 1), (q, 1)] by decide +kernel]
  exact List.mergeSort_of_pairwise (by decide)

theorem table : view.store.predicateHistogram.foldlM (confirm view) [] = .ok [[some (.namedNode "urn:p")]] := by
  rw [histogram]
  decide +kernel

theorem active_default : view.active none = {⟨a, p, b, none⟩} := by decide +kernel

theorem active_named : view.active (some ⟨["urn:g"], none⟩) = {⟨a, q, b, none⟩} := by decide +kernel

theorem intern_p : evaluator.intern (.namedNode "urn:p") = p := by decide +kernel

end TwoGraphs

open TwoGraphs in
/-- With one predicate in the default graph, the ordered query is rewritten to one with its answers. -/
theorem materialised_same_ordered : ∃ query, materialised view (.select none ordered) = .ok (some query) ∧
    ∃ predicate bindings, query = .select none (replacePattern (.values [predicate] bindings) ordered) ∧
      Same evaluator view none ordered predicate bindings := by
  have hrun : materialised view (.select none ordered) =
      .ok (some (.select none (replacePattern (.values [x] [[some (.namedNode "urn:p")]]) ordered))) :=
    materialised_of rfl table
  have hpredicates : ∀ i ∈ view.predicates none, i = p := by
    rintro i ⟨quad, hquad, rfl⟩
    rw [active_default, Finset.mem_singleton] at hquad
    rw [hquad]
  have hdecode : view.store.decodeTerm p = .ok (some (.namedNode "urn:p")) := by decide +kernel
  obtain ⟨predicate, bindings, heq, -, hreached⟩ := @materialised_same_iff evaluator view none ordered
    ⟨fun _ _ h => h, fun _ _ _ _ _ _ _ _ _ => Iff.rfl⟩ rfl
    (fun i hi => ⟨.namedNode "urn:p", by rw [hpredicates i hi]; exact ⟨hdecode, intern_p⟩⟩) _ hrun
  exact ⟨_, hrun, predicate, bindings, heq,
    (hreached view_reached (fun i hi => ⟨"urn:p", by rw [hpredicates i hi]; exact hdecode⟩)).2 rfl⟩

open TwoGraphs in
/-- `FROM <urn:g>` is not looked at: the rewritten query answers with a predicate that the graph does
not have. -/
theorem materialised_differs : view.store.Reached ∧ view.policy.semantics = .filter ∧
    materialised view (.select (some ⟨["urn:g"], none⟩) pattern) =
      .ok (some (.select (some ⟨["urn:g"], none⟩) (replacePattern (.values [x] [[some (.namedNode "urn:p")]]) pattern))) ∧
    ∃ l, (evaluator.over (view.active (some ⟨["urn:g"], none⟩))).Sequence evaluator.before
        (replacePattern (.values [x] [[some (.namedNode "urn:p")]]) pattern) l ∧
      ¬ (evaluator.over (view.active (some ⟨["urn:g"], none⟩))).Sequence evaluator.before pattern l := by
  refine ⟨view_reached, rfl, materialised_of rfl table, [Finmap.singleton x p], ?_, ?_⟩
  · refine ⟨[Finmap.singleton x p], ⟨[Finmap.singleton x p], ?_, ?_⟩, .refl _, fun _ h => h, List.nodup_singleton _⟩
    · have htable := @eval_table x (evaluator.over (view.active (some ⟨["urn:g"], none⟩))) [.namedNode "urn:p"]
      rw [List.map_singleton, List.map_singleton] at htable
      refine Eq.trans ?_ htable.symm
      rw [← intern_p]
      rfl
    · rw [List.map_singleton, restrict_row]
  · rintro ⟨l₁, ⟨l₀, hl₀, rfl⟩, hsub, -, -⟩
    obtain ⟨sol, heval, hsol⟩ := @eval_triple x ⟨.var (.named "s"), .var x, .var (.named "o")⟩
      (evaluator.over (view.active (some ⟨["urn:g"], none⟩))) rfl
    obtain ⟨ρ, hρ, heq⟩ := List.mem_map.1 (hsub.subset (List.mem_singleton_self _))
    have hmem : ρ ∈ ((evaluator.over (view.active (some ⟨["urn:g"], none⟩))).graph none).val.map sol := by
      rw [← heval]
      exact (show (l₀ : Multiset Solution) = _ from hl₀) ▸ hρ
    obtain ⟨quad, hquad, rfl⟩ := Multiset.mem_map.1 hmem
    rw [Evaluator.graph_over (view.active_graphName _), active_named, Finset.mem_val, Finset.mem_singleton] at hquad
    rw [restrict_singleton (hsol quad), hquad] at heq
    exact absurd (singleton_injective heq) (by decide)

end Holos.Engine.Distinct
