import Holos.Engine.View
/-!
# What a view shows

Under `Semantics.filter` a view should show exactly the stored quads its policy allows
reading, whichever way a scan reaches them. `readsExactly_iff` says when it does: the
whole-graph shortcut goes wrong on a graph whose deny names other modes than reading,
and only where nothing finer denies reading its quads.
-/

namespace Holos.Engine

open Security

namespace DatasetView

/-- A stored quad the principal may read. -/
def Readable (view : DatasetView) (q : EncodedQuad) : Prop :=
  q ∈ view.store.quads ∧ view.policy.decideQuad q Modes.read = .allow

/-- Every route to the data shows the readable quads, each once, and no others. -/
structure ReadsExactly (view : DatasetView) : Prop where
  scan : ∀ s p o graph, (view.internalQuadsForPattern s p o graph).Nodup ∧
    ∀ r, r ∈ view.internalQuadsForPattern s p o graph ↔ ∃ q, r = .ok q ∧ view.Readable q ∧
      Index.matchesTriple s p o q = true ∧
      (match graph with | some g => q.graphName = g | none => q.graphName.isSome = true)
  span : ∀ s p span graph, (view.quadsWithObjectIn s p span graph).Nodup ∧
    ∀ r, r ∈ view.quadsWithObjectIn s p span graph ↔ ∃ q, r = .ok q ∧ view.Readable q ∧
      Index.matchesTriple s p none q = true ∧ span.contains q.object = true ∧
      Index.GraphFilter.admits graph q = true
  shortcut : ∀ g q, view.Readable q → q.graphName = some g → view.policy.graphIsWhollyDenied (some g) = false
  sameQuads : ∀ s p o g q, .ok q ∈ view.internalQuadsForPattern s p o (some (some g)) ↔
    .ok q ∈ view.internalQuadsForPattern s p o none ∧ q.graphName = some g
  graphs : view.internalNamedGraphs.Nodup ∧
    ∀ r, r ∈ view.internalNamedGraphs ↔ ∃ g, r = .ok g ∧ ∃ q, view.Readable q ∧ q.graphName = some g

/-! ## Scans -/

variable {view : DatasetView}

theorem decide_eq (hf : view.policy.semantics = .filter) (q : EncodedQuad) :
    view.decide q = if view.policy.decideQuad q Modes.read = .allow then some (.ok q) else none := by
  have hne : view.policy.decideQuad q Modes.read ≠ .fail := by
    intro hfail
    rw [view.policy.decideQuad_fail hfail] at hf
    cases hf
  unfold decide
  cases h : view.policy.decideQuad q Modes.read with
  | allow => simp
  | filter => simp
  | fail => exact absurd h hne

theorem mem_filterMap_decide (hf : view.policy.semantics = .filter) (qs : List EncodedQuad)
    (r : Except ViewError EncodedQuad) :
    r ∈ qs.filterMap view.decide ↔ ∃ q ∈ qs, view.policy.decideQuad q Modes.read = .allow ∧ r = .ok q := by
  simp only [List.mem_filterMap, decide_eq hf]
  refine exists_congr fun q => and_congr_right fun _ => ?_
  by_cases h : view.policy.decideQuad q Modes.read = .allow <;> simp [h, eq_comm]

theorem nodup_filterMap_decide (hf : view.policy.semantics = .filter) {qs : List EncodedQuad} (hn : qs.Nodup) :
    (qs.filterMap view.decide).Nodup := by
  refine hn.filterMap fun q q' r hr hr' => ?_
  simp only [decide_eq hf, Option.mem_def] at hr hr'
  split at hr <;> split at hr' <;> simp only [Option.some.injEq, reduceCtorEq] at hr hr'
  exact Except.ok.inj (hr.trans hr'.symm)

/-- The shortcut hides nothing readable in any graph. -/
def ShortcutSound (view : DatasetView) : Prop :=
  ∀ g q, view.Readable q → q.graphName = some g → view.policy.graphIsWhollyDenied (some g) = false

/-- With a sound shortcut, what a denied graph answers is what its scan would have shown. -/
theorem scan_of_sound (hf : view.policy.semantics = .filter) (hs : view.ShortcutSound) (graph : GraphFilter)
    {qs : List EncodedQuad} (hn : qs.Nodup) (hin : ∀ q ∈ qs, q ∈ view.store.quads)
    (hadm : ∀ q ∈ qs, Index.GraphFilter.admits graph q = true) :
    let answer := match view.deniedGraph graph with
      | some answer => answer
      | none => qs.filterMap view.decide
    answer.Nodup ∧ ∀ r, r ∈ answer ↔ ∃ q ∈ qs, view.policy.decideQuad q Modes.read = .allow ∧ r = .ok q := by
  cases hd : view.deniedGraph graph with
  | none => exact ⟨nodup_filterMap_decide hf hn, mem_filterMap_decide hf qs⟩
  | some answer =>
    obtain ⟨g, rfl⟩ : ∃ g, graph = .named g := by
      cases graph <;> first | exact ⟨_, rfl⟩ | cases hd
    simp only [deniedGraph] at hd
    split at hd
    · rename_i hw
      simp only [hf, Option.some.injEq] at hd
      subst hd
      refine ⟨List.nodup_nil, fun r => ⟨fun h => absurd h List.not_mem_nil, ?_⟩⟩
      rintro ⟨q, hq, hallow, rfl⟩
      have hg : q.graphName = some g := by simpa [Index.GraphFilter.admits] using hadm q hq
      rw [hs g q ⟨hin q hq, hallow⟩ hg] at hw
      cases hw
    · cases hd

theorem internalQuadsForPattern_of_sound (hf : view.policy.semantics = .filter) (hs : view.ShortcutSound)
    (s p o : Option TermId) (graph : Option (Option TermId)) :
    (view.internalQuadsForPattern s p o graph).Nodup ∧
    ∀ r, r ∈ view.internalQuadsForPattern s p o graph ↔ ∃ q, r = .ok q ∧ view.Readable q ∧
      Index.matchesTriple s p o q = true ∧
      (match graph with | some g => q.graphName = g | none => q.graphName.isSome = true) := by
  have h := fun filter => scan_of_sound hf hs filter (view.store.quadsForPattern_nodup s p o filter)
    (fun q hq => ((view.store.mem_quadsForPattern s p o filter q).1 hq).1)
    (fun q hq => ((view.store.mem_quadsForPattern s p o filter q).1 hq).2.2)
  rcases graph with _ | _ | g
  · refine ⟨(h .anyNamed).1, fun r => ((h .anyNamed).2 r).trans (exists_congr fun q => ?_)⟩
    rw [Store.mem_quadsForPattern]
    simp only [Index.GraphFilter.admits, Readable]
    tauto
  · refine ⟨(h .default).1, fun r => ((h .default).2 r).trans (exists_congr fun q => ?_)⟩
    rw [Store.mem_quadsForPattern]
    simp only [Index.GraphFilter.admits, Readable, Option.isNone_iff_eq_none]
    tauto
  · refine ⟨(h (.named g)).1, fun r => ((h (.named g)).2 r).trans (exists_congr fun q => ?_)⟩
    rw [Store.mem_quadsForPattern]
    simp only [Index.GraphFilter.admits, Readable, decide_eq_true_eq]
    tauto

theorem quadsWithObjectIn_of_sound (hf : view.policy.semantics = .filter) (hs : view.ShortcutSound)
    (s p : Option TermId) (span : IdRange) (graph : GraphFilter) :
    (view.quadsWithObjectIn s p span graph).Nodup ∧
    ∀ r, r ∈ view.quadsWithObjectIn s p span graph ↔ ∃ q, r = .ok q ∧ view.Readable q ∧
      Index.matchesTriple s p none q = true ∧ span.contains q.object = true ∧
      Index.GraphFilter.admits graph q = true := by
  have h := scan_of_sound hf hs graph (view.store.quadsWithObjectIn_nodup s p span graph)
    (fun q hq => ((view.store.mem_quadsWithObjectIn s p span graph q).1 hq).1)
    (fun q hq => ((view.store.mem_quadsWithObjectIn s p span graph q).1 hq).2.2.2)
  refine ⟨h.1, fun r => (h.2 r).trans (exists_congr fun q => ?_)⟩
  rw [Store.mem_quadsWithObjectIn]
  simp only [Readable]
  tauto

theorem internalNamedGraphs_of_sound (hs : view.ShortcutSound) :
    view.internalNamedGraphs.Nodup ∧
    ∀ r, r ∈ view.internalNamedGraphs ↔ ∃ g, r = .ok g ∧ ∃ q, view.Readable q ∧ q.graphName = some g := by
  constructor
  · refine List.Nodup.map (fun a b h => by cases h; rfl) (List.Nodup.filter _ ?_)
    exact view.store.index.graphs.nodup
  · intro r
    simp only [internalNamedGraphs, visibleNamedGraphs, List.mem_map, List.mem_filter, Bool.and_eq_true,
      Bool.not_eq_true', List.any_eq_true, decide_eq_true_eq, Store.mem_quadsForPattern,
      Index.GraphFilter.admits]
    constructor
    · rintro ⟨g, ⟨-, -, q, ⟨hq, -, hg⟩, ha⟩, rfl⟩
      exact ⟨g, rfl, q, ⟨hq, ha⟩, hg⟩
    · rintro ⟨g, rfl, q, hr, hg⟩
      refine ⟨g, ⟨?_, hs g q hr hg, q, ⟨hr.1, by simp [Index.matchesTriple], hg⟩, hr.2⟩, rfl⟩
      exact (view.store.mem_namedGraphs g).2 (view.store.holds.named q hr.1 g hg)

/-- A view reads exactly when its shortcut is sound. -/
theorem readsExactly_iff_sound (hf : view.policy.semantics = .filter) :
    view.ReadsExactly ↔ view.ShortcutSound := by
  refine ⟨fun h => h.shortcut, fun hs => ?_⟩
  have hscan := internalQuadsForPattern_of_sound hf hs
  refine ⟨hscan, quadsWithObjectIn_of_sound hf hs, hs, fun s p o g q => ?_, internalNamedGraphs_of_sound hs⟩
  rw [(hscan s p o (some (some g))).2, (hscan s p o none).2]
  simp only [Except.ok.injEq, exists_eq_left']
  constructor
  · rintro ⟨hr, hm, hg⟩; exact ⟨⟨hr, hm, by simp [hg]⟩, hg⟩
  · rintro ⟨⟨hr, hm, -⟩, hg⟩; exact ⟨hr, hm, hg⟩

end DatasetView

/-! ## The shortcut -/

/-- What decides reading where no graph or predicate slot does. -/
def baseEffect (policy : CompiledPolicy) : Effect :=
  (slotEffect Modes.read policy.everything).getD policy.defaultEffect

/-- No predicate slot allows anything. -/
def NoFinerAllows (policy : CompiledPolicy) : Prop :=
  ∀ e ∈ policy.predicate.map (·.2) ++ policy.graphPredicate.map (·.2), e.effect = .deny

/-- A graph that is denied other modes than reading, in a policy that lets the graph be
read for the rest: the principal is cleared for it, the base allows reading, and no finer
slot allows anything. -/
structure Masked (policy : CompiledPolicy) (g : TermId) : Prop where
  cleared : policy.cleared (some g) = true
  slot : ∃ e, policy.graph.lookup g = some e ∧ e.effect = .deny ∧ e.modes.contains Modes.read = false
  finer : NoFinerAllows policy
  base : baseEffect policy = .allow

/-- A predicate slot of the quad names reading. -/
def FinerRead (policy : CompiledPolicy) (g : TermId) (q : EncodedQuad) : Prop :=
  (∃ e, policy.predicate.lookup q.predicate = some e ∧ e.modes.contains Modes.read = true) ∨
  ∃ e, policy.graphPredicate.lookup (g, q.predicate) = some e ∧ e.modes.contains Modes.read = true

theorem graphIsWhollyDenied_iff {policy : CompiledPolicy} {g : TermId} (hc : policy.cleared (some g) = true) :
    policy.graphIsWhollyDenied (some g) = true ↔
      (∃ e, policy.graph.lookup g = some e ∧ e.effect = .deny) ∧ NoFinerAllows policy := by
  simp only [CompiledPolicy.graphIsWhollyDenied, hc, Bool.not_true, Bool.false_eq_true, if_false, Option.bind_some,
    Bool.and_eq_true, decide_eq_true_eq, List.all_eq_true, Option.map_eq_some_iff]
  rfl

theorem slotEffect_eq_none {m : Modes} {slot : Option Entry} :
    slotEffect m slot = none ↔ ∀ e, slot = some e → e.modes.contains m = false := by
  cases slot with
  | none => simp [slotEffect]
  | some e => by_cases h : e.modes.contains m <;> simp [slotEffect, h]

theorem slotEffect_deny {m : Modes} {slot : Option Entry} (hd : ∀ e, slot = some e → e.effect = .deny)
    (h : slotEffect m slot ≠ none) : slotEffect m slot = some .deny := by
  cases slot with
  | none => exact absurd rfl h
  | some e =>
    by_cases hm : e.modes.contains m
    · simp [slotEffect, hm, hd e rfl]
    · exact absurd (by simp [slotEffect, hm]) h

theorem lookup_mem_map {K : Type} [BEq K] [LawfulBEq K] {l : Slots K} {k : K} {e : Entry}
    (h : l.lookup k = some e) : e ∈ l.map (·.2) := by
  obtain ⟨l₁, l₂, hl, -⟩ := List.lookup_eq_some_iff.1 h
  exact List.mem_map.2 ⟨(k, e), by simp [hl], rfl⟩

theorem allows_iff (policy : CompiledPolicy) (e : Effect) :
    (match e with | .allow => Decision.allow | .deny => policy.refusal) = .allow ↔ e = .allow := by
  cases e <;> cases hs : policy.semantics <;> simp [CompiledPolicy.refusal, hs]

/-- Reading a quad of a cleared graph: the most specific slot for reading, or the default. -/
theorem decideQuad_read {policy : CompiledPolicy} {q : EncodedQuad} {g : TermId} (hg : q.graphName = some g)
    (hr : Rising (policy.slots q)) (hc : policy.cleared (some g) = true) :
    policy.decideQuad q Modes.read = .allow ↔
      (((slotEffect Modes.read (policy.graphPredicate.lookup (g, q.predicate))).or
        ((slotEffect Modes.read (policy.predicate.lookup q.predicate)).or
        (slotEffect Modes.read (policy.graph.lookup g)))).getD (baseEffect policy)) = .allow := by
  have hbest := foldl_consider Modes.read (policy.slots q) hr
  simp only [CompiledPolicy.decideQuad, hg, hc, Bool.not_true, Bool.false_eq_true, if_false, hbest]
  simp only [CompiledPolicy.slots, hg, Option.bind_some, List.reverse_cons, List.reverse_nil, List.nil_append,
    List.cons_append, List.findSome?_cons, List.findSome?_nil, baseEffect]
  generalize slotEffect Modes.read (policy.graphPredicate.lookup (g, q.predicate)) = s3
  generalize slotEffect Modes.read (policy.predicate.lookup q.predicate) = s2
  generalize slotEffect Modes.read (policy.graph.lookup g) = s1
  generalize slotEffect Modes.read policy.everything = s0
  have hd := allows_iff policy
  rcases s3 with _ | e3
  · rcases s2 with _ | e2
    · rcases s1 with _ | e1
      · rcases s0 with _ | e0
        · exact hd _
        · exact hd _
      · exact hd _
    · exact hd _
  · exact hd _

/-- A quad of a wholly denied graph is readable exactly when the graph is masked and no
finer slot of the quad names reading. -/
theorem readable_denied_iff {policy : CompiledPolicy} {q : EncodedQuad} {g : TermId} (hg : q.graphName = some g)
    (hr : Rising (policy.slots q)) :
    policy.graphIsWhollyDenied (some g) = true ∧ policy.decideQuad q Modes.read = .allow ↔
      Masked policy g ∧ ¬ FinerRead policy g q := by
  cases hc : policy.cleared (some g) with
  | false =>
    have href : policy.refusal ≠ .allow := by
      cases hs : policy.semantics <;> simp [CompiledPolicy.refusal, hs]
    have hno : policy.decideQuad q Modes.read ≠ .allow := by
      simp [CompiledPolicy.decideQuad, hg, hc, href]
    exact ⟨fun h => absurd h.2 hno, fun h => by simp [h.1.cleared] at hc⟩
  | true =>
    rw [graphIsWhollyDenied_iff hc, decideQuad_read hg hr hc]
    constructor
    · rintro ⟨⟨⟨e, he, hdeny⟩, hfiner⟩, hallow⟩
      -- a slot that speaks for reading denies it, so none of the three does
      have h3 : slotEffect Modes.read (policy.graphPredicate.lookup (g, q.predicate)) = none := by
        by_contra h
        rw [slotEffect_deny (fun e he => hfiner e (List.mem_append_right _ (lookup_mem_map he))) h] at hallow
        cases hallow
      rw [h3, Option.none_or] at hallow
      have h2 : slotEffect Modes.read (policy.predicate.lookup q.predicate) = none := by
        by_contra h
        rw [slotEffect_deny (fun e he => hfiner e (List.mem_append_left _ (lookup_mem_map he))) h] at hallow
        cases hallow
      rw [h2, Option.none_or] at hallow
      have h1 : slotEffect Modes.read (policy.graph.lookup g) = none := by
        by_contra h
        rw [slotEffect_deny (fun e' he' => by rw [he] at he'; cases he'; exact hdeny) h] at hallow
        cases hallow
      rw [h1] at hallow
      refine ⟨⟨hc, ⟨e, he, hdeny, slotEffect_eq_none.1 h1 e he⟩, hfiner, hallow⟩, ?_⟩
      rintro (⟨e', he', hm⟩ | ⟨e', he', hm⟩)
      · rw [slotEffect_eq_none.1 h2 e' he'] at hm; cases hm
      · rw [slotEffect_eq_none.1 h3 e' he'] at hm; cases hm
    · rintro ⟨hmask, hno⟩
      obtain ⟨e, he, hdeny, hm⟩ := hmask.slot
      have h3 : slotEffect Modes.read (policy.graphPredicate.lookup (g, q.predicate)) = none :=
        slotEffect_eq_none.2 fun e' he' => by
          by_contra h; exact hno (.inr ⟨e', he', by simpa using h⟩)
      have h2 : slotEffect Modes.read (policy.predicate.lookup q.predicate) = none :=
        slotEffect_eq_none.2 fun e' he' => by
          by_contra h; exact hno (.inl ⟨e', he', by simpa using h⟩)
      have h1 : slotEffect Modes.read (policy.graph.lookup g) = none :=
        slotEffect_eq_none.2 fun e' he' => by rw [he] at he'; cases he'; exact hm
      refine ⟨⟨⟨e, he, hdeny⟩, hmask.finer⟩, ?_⟩
      rw [h3, h2, h1]
      exact hmask.base

/-- Under filter semantics the views over a policy's compilation read exactly when every
stored quad of a masked graph has a finer slot that names reading. -/
theorem readsExactly_iff (policy : Policy) (store : Store) (principal : Principal)
    (hf : policy.semantics = .filter) :
    ∃ cp, policy.compile store principal = .ok cp ∧
      (DatasetView.ReadsExactly ⟨store, cp⟩ ↔
        ∀ q ∈ store.quads, ∀ g, q.graphName = some g → Masked cp g → FinerRead cp g q) := by
  obtain ⟨cp, hcp, -, hsem, hslots, -⟩ :=
    compileWith_slots (lookupIn store) policy principal store.dictionaryLen
  have hr : ∀ q, Rising (cp.slots q) := fun q => hslots q ▸ levels_rising (lookupIn store) policy principal q
  have hfilter : (⟨store, cp⟩ : DatasetView).policy.semantics = .filter := hsem.trans hf
  refine ⟨cp, hcp, ?_⟩
  rw [DatasetView.readsExactly_iff_sound hfilter]
  constructor
  · intro hs q hq g hg hmask
    by_contra hno
    obtain ⟨hw, hallow⟩ := (readable_denied_iff hg (hr q)).2 ⟨hmask, hno⟩
    have := hs g q ⟨hq, hallow⟩ hg
    exact absurd (hw.symm.trans this) (by decide)
  · rintro hcond g q ⟨hq, hallow⟩ hg
    by_contra hw
    obtain ⟨hmask, hno⟩ := (readable_denied_iff hg (hr q)).1 ⟨by simpa using hw, hallow⟩
    exact hno (hcond q hq g hg hmask)

/-- One quad in one named graph. -/
def oneQuad : Store :=
  Store.ofOps (fun t => if t = .namedNode "urn:g" then some 4 else none) 1 [.insert ⟨1, 2, 3, some 4⟩]

/-- Everything may be read, and one graph may not be written. -/
def writeProtected : Policy where
  defaultEffect := .allow
  semantics := .filter
  rules := [⟨.deny, Modes.write, .graph "urn:g", .everyone⟩]
  graphLabels := []
  defaultGraphLabel := Label.default

/-- The quad of the write-protected graph may be read, and its graph is taken for denied. -/
theorem writeProtected_not_readsExactly :
    ∃ cp, writeProtected.compile oneQuad reader = .ok cp ∧ ¬ DatasetView.ReadsExactly ⟨oneQuad, cp⟩ := by
  refine ⟨_, rfl, fun h => ?_⟩
  have hq : (⟨1, 2, 3, some 4⟩ : EncodedQuad) ∈ oneQuad.quads := by decide
  have hw := h.shortcut 4 ⟨1, 2, 3, some 4⟩ ⟨hq, by decide⟩ rfl
  revert hw
  decide

/-- Reading denied with writing: the shortcut and the decision agree. -/
def readProtected : Policy :=
  { writeProtected with rules := [⟨.deny, Modes.read.union Modes.write, .graph "urn:g", .everyone⟩] }

theorem readProtected_readsExactly :
    readProtected.semantics = .filter ∧
      ∃ cp, readProtected.compile oneQuad reader = .ok cp ∧ DatasetView.ReadsExactly ⟨oneQuad, cp⟩ := by
  refine ⟨rfl, ?_⟩
  obtain ⟨cp, hcp, h⟩ := readsExactly_iff readProtected oneQuad reader rfl
  cases hcp
  refine ⟨_, rfl, h.2 fun q hq g hg hm => ?_⟩
  obtain rfl : q = ⟨1, 2, 3, some 4⟩ := by simpa [oneQuad, Store.ofOps, Index.replayQuads] using hq
  obtain rfl : 4 = g := by simpa using hg
  obtain ⟨e, he, -, hm⟩ := hm.slot
  cases he
  exact absurd hm (by decide)

end Holos.Engine
