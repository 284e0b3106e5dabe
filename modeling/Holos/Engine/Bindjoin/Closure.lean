import Holos.Engine.Bindjoin.Probe
/-!
# A closure, walked

The walk from a closure's bound end, in one graph, finds what the path leads to: the pairs
of the closure's solutions that the bindings admit, each once.
-/

namespace Holos.Engine.Bindjoin

open Sparql Lib Reach

/-! ## Paths -/

section Paths
variable {I : Interpretation} {G : Option TermId} {c : ClosureItem}

theorem steps_path (x y : TermId) : I.Steps G c.path x y ↔ Reaches (I.Steps G c.edge) c.hops x y := by
  unfold ClosureItem.path
  cases c.hops <;> simp only [Interpretation.Steps, Reaches]

theorem mem_nodes {x : TermId} : x ∈ I.nodes G ↔ ∃ q ∈ I.quads, q.graphName = G ∧ (q.subject = x ∨ q.object = x) := by
  simp only [Interpretation.nodes, Interpretation.graph, Finset.mem_union, Finset.mem_image, Finset.mem_filter]
  constructor
  · rintro (⟨q, ⟨hq, hg⟩, rfl⟩ | ⟨q, ⟨hq, hg⟩, rfl⟩)
    · exact ⟨q, hq, hg, .inl rfl⟩
    · exact ⟨q, hq, hg, .inr rfl⟩
  · rintro ⟨q, hq, hg, rfl | rfl⟩
    · exact .inl ⟨q, ⟨hq, hg⟩, rfl⟩
    · exact .inr ⟨q, ⟨hq, hg⟩, rfl⟩

/-- The two ends of an edge, in one spelling for both directions. -/
theorem steps_edge {x y : TermId} : I.Steps G c.edge x y ↔
    ∃ q ∈ I.quads, q.graphName = G ∧ q.predicate = I.intern (.namedNode c.predicate) ∧
      (if c.inverse then q.object else q.subject) = x ∧ (if c.inverse then q.subject else q.object) = y := by
  unfold ClosureItem.edge
  cases c.inverse <;>
    simp only [Interpretation.Steps, Interpretation.graph, Finset.mem_filter, if_true, if_false, Bool.false_eq_true]
  · constructor
    · rintro ⟨q, ⟨hq, hg⟩, hp, hx, hy⟩
      exact ⟨q, hq, hg, hp, hx, hy⟩
    · rintro ⟨q, hq, hg, hp, hx, hy⟩
      exact ⟨q, ⟨hq, hg⟩, hp, hx, hy⟩
  · constructor
    · rintro ⟨q, ⟨hq, hg⟩, hp, hy, hx⟩
      exact ⟨q, hq, hg, hp, hx, hy⟩
    · rintro ⟨q, hq, hg, hp, hx, hy⟩
      exact ⟨q, ⟨hq, hg⟩, hp, hy, hx⟩

theorem edge_nodes {x y : TermId} (h : I.Steps G c.edge x y) : x ∈ I.nodes G ∧ y ∈ I.nodes G := by
  obtain ⟨q, hq, hg, -, hx, hy⟩ := steps_edge.1 h
  cases hi : c.inverse <;> simp only [hi, if_true, if_false, Bool.false_eq_true] at hx hy
  · exact ⟨mem_nodes.2 ⟨q, hq, hg, .inl hx⟩, mem_nodes.2 ⟨q, hq, hg, .inr hy⟩⟩
  · exact ⟨mem_nodes.2 ⟨q, hq, hg, .inr hx⟩, mem_nodes.2 ⟨q, hq, hg, .inl hy⟩⟩

/-- A path has no length, or its ends are nodes of the graph. -/
theorem reaches_nodes {x y : TermId} {hops : Hops} (h : Reaches (I.Steps G c.edge) hops x y) :
    hops.includesSeed = true ∧ x = y ∨ x ∈ I.nodes G ∧ y ∈ I.nodes G := by
  have htrans : ∀ {a b}, Relation.TransGen (I.Steps G c.edge) a b → a ∈ I.nodes G ∧ b ∈ I.nodes G := by
    intro a b h
    induction h with
    | single h => exact edge_nodes h
    | tail _ h ih => exact ⟨ih.1, (edge_nodes h).2⟩
  cases hops with
  | zeroOrMore =>
    rcases Relation.reflTransGen_iff_eq_or_transGen.1 h with e | h
    · exact .inl ⟨rfl, e.symm⟩
    · exact .inr (htrans h)
  | oneOrMore => exact .inr (htrans h)
  | zeroOrOne =>
    rcases h with e | h
    · exact .inl ⟨rfl, e⟩
    · exact .inr (edge_nodes h)

theorem reaches_swap {E : TermId → TermId → Prop} {hops : Hops} {x y : TermId} :
    Reaches (fun a b => E b a) hops x y ↔ Reaches E hops y x := by
  cases hops with
  | zeroOrMore => exact Relation.reflTransGen_swap
  | oneOrMore => exact Relation.transGen_swap
  | zeroOrOne => exact or_congr_left eq_comm

end Paths

/-! ## The walk -/

section Walk
variable {view : DatasetView} {I : Interpretation} (hn : Names view.store I) (ho : view.policy = .permitAll)
  {c : ClosureItem} {G : Option TermId} {β : Bindings}

theorem admits_graph (G : Option TermId) (q : EncodedQuad) :
    Index.GraphFilter.admits (graphFilter (some G)) q = true ↔ q.graphName = G := by
  cases G <;> simp [graphFilter, Index.GraphFilter.admits]

/-- The edges a walk follows: those of the path from the subject, or the same the other way. -/
theorem mem_edges {pid : TermId} (hpid : I.intern (.namedNode c.predicate) = pid) (hq : I.quads = view.store.quads)
    (fromSubject : Bool) (x y : TermId) :
    (∃ q ∈ (match Direction.of fromSubject c.inverse with
        | .forward => view.store.quadsForPattern (some x) (some pid) none (graphFilter (some G))
        | .backward => view.store.quadsForPattern none (some pid) (some x) (graphFilter (some G))),
      (Direction.of fromSubject c.inverse).far q = y) ↔
      if fromSubject then I.Steps G c.edge x y else I.Steps G c.edge y x := by
  have key : ∀ {a b}, I.Steps G c.edge a b ↔ ∃ q ∈ view.store.quads, q.graphName = G ∧ q.predicate = pid ∧
      (if c.inverse then q.object else q.subject) = a ∧ (if c.inverse then q.subject else q.object) = b := by
    intro a b
    rw [steps_edge, hpid, hq]
  cases fromSubject <;> cases hi : c.inverse <;>
    simp only [Direction.of, Direction.far, key, hi, if_true, if_false, Bool.false_eq_true,
      Bool.true_eq_false, view.store.mem_quadsForPattern, Index.matchesTriple, admits_graph, Option.all_some,
      Option.all_none, Bool.and_true, Bool.true_and, Bool.and_eq_true, decide_eq_true_eq]
  all_goals
    constructor
    · rintro ⟨q, ⟨hq, hm, hg⟩, hy⟩
      exact ⟨q, hq, hg, by tauto⟩
    · rintro ⟨q, hq, hg, hm⟩
      exact ⟨q, ⟨hq, by tauto, hg⟩, by tauto⟩

/-- What the walk leads to from `seed`. -/
def LeadsTo (I : Interpretation) (G : Option TermId) (c : ClosureItem) (fromSubject : Bool) (seed node : TermId) : Prop :=
  if fromSubject then Reaches (I.Steps G c.edge) c.hops seed node else Reaches (I.Steps G c.edge) c.hops node seed

include hn ho in
theorem walkNodes_spec {pid : TermId} (hpid : I.intern (.namedNode c.predicate) = pid) (fromSubject : Bool) (seed : TermId)
    {farSlot : Slot} (hfar : farSlot ≠ .missing) :
    ∃ nodes, walkNodes view c pid (some G) seed farSlot fromSubject = .ok nodes ∧ nodes.Nodup ∧
      ∀ y, y ∈ nodes ↔ LeadsTo I G c fromSubject seed y ∧ farSlot.Admits y := by
  let quads : TermId → List EncodedQuad := fun x => match Direction.of fromSubject c.inverse with
    | .forward => view.store.quadsForPattern (some x) (some pid) none (graphFilter (some G))
    | .backward => view.store.quadsForPattern none (some pid) (some x) (graphFilter (some G))
  have hscan : ∀ x, edges view pid (Direction.of fromSubject c.inverse) (some G) x = (quads x).map .ok := by
    intro x
    simp only [edges, quads]
    cases Direction.of fromSubject c.inverse <;> exact scan_permitAll ho _ _ _ _
  have hin : ∀ x, ∀ q ∈ quads x, q ∈ view.store.quads := by
    intro x q hq
    simp only [quads] at hq
    cases hd : Direction.of fromSubject c.inverse <;> rw [hd] at hq <;>
      exact ((view.store.mem_quadsForPattern _ _ _ _ q).1 hq).1
  have hleads : ∀ y, Reaches (fun x y => y ∈ (quads x).map (Direction.of fromSubject c.inverse).far) c.hops seed y ↔
      LeadsTo I G c fromSubject seed y := by
    intro y
    have hE : (fun x y => y ∈ (quads x).map (Direction.of fromSubject c.inverse).far) =
        fun x y => if fromSubject then I.Steps G c.edge x y else I.Steps G c.edge y x := by
      funext x y
      rw [← eq_iff_iff.2 (mem_edges hpid hn.quads fromSubject x y)]
      exact eq_iff_iff.2 List.mem_map
    rw [hE]
    cases fromSubject with
    | true => rfl
    | false => exact reaches_swap
  unfold walkNodes
  cases farSlot with
  | missing => exact absurd rfl hfar
  | any =>
    -- nothing stops the walk, so it is complete
    obtain ⟨emitted, w, hr, hres⟩ : ∃ emitted w,
        reachable view pid (Direction.of fromSubject c.inverse) c.hops (some G) [seed] (fun _ => true) = .ok (emitted, w) ∧
        Result _ c.hops (fun _ => true) [seed] emitted w := reachable_spec hscan hin
    have hw : w = .complete := by
      cases w with
      | complete => rfl
      | stopped =>
        obtain ⟨x, -, hx⟩ := hres.stopped rfl
        cases hx
    refine ⟨emitted, by simp only [hr]; rfl, hres.nodup, fun y => ⟨fun hy => ?_, fun hy => ?_⟩⟩
    · obtain ⟨s, hs, h⟩ := hres.sound y hy
      rw [List.mem_singleton.1 hs] at h
      exact ⟨(hleads y).1 h, trivial⟩
    · exact hres.complete hw seed List.mem_cons_self y ((hleads y).2 hy.1)
  | fixed target =>
    -- the walk stops at the target, if it gets there
    obtain ⟨emitted, w, hr, hres⟩ : ∃ emitted w,
        reachable view pid (Direction.of fromSubject c.inverse) c.hops (some G) [seed] (· ≠ target) = .ok (emitted, w) ∧
        Result _ c.hops (· ≠ target) [seed] emitted w := reachable_spec hscan hin
    refine ⟨emitted.filter (· = target), by simp only [hr]; rfl, hres.nodup.filter _, fun y => ⟨fun hy => ?_, fun hy => ?_⟩⟩
    · obtain ⟨hm, ht⟩ := List.mem_filter.1 hy
      obtain ⟨s, hs, h⟩ := hres.sound y hm
      rw [List.mem_singleton.1 hs] at h
      exact ⟨(hleads y).1 h, (by simpa using ht : y = target).symm⟩
    · obtain ⟨hl, ht⟩ := hy
      obtain rfl : target = y := ht
      refine List.mem_filter.2 ⟨?_, by simp⟩
      cases w with
      | complete => exact hres.complete rfl seed List.mem_cons_self _ ((hleads _).2 hl)
      | stopped =>
        obtain ⟨x, hx, he⟩ := hres.stopped rfl
        have : x = target := by simpa using he
        exact this ▸ hx

/-! ## Paths of length nought -/

/-- An end of the closure is a constant. -/
def ConstantEnd (I : Interpretation) (c : ClosureItem) : Prop :=
  (I.constant c.subject).Nonempty ∨ (I.constant c.object).Nonempty

theorem constantEnd_iff (hs : simpleTerm c.subject = true) (hobj : simpleTerm c.object = true) :
    ConstantEnd I c ↔ (isFree c.subject && isFree c.object) = false := by
  have key : ∀ t, simpleTerm t = true → ((I.constant t).Nonempty ↔ isFree t = false) := by
    intro t ht
    cases t with
    | triple s p o => cases ht
    | blankNode l => cases ht
    | _ => simp [Interpretation.constant, isFree]
  rw [ConstantEnd, key _ hs, key _ hobj, Bool.and_eq_false_iff]

theorem firstQuad_ok (quads : List EncodedQuad) : firstQuad (quads.map .ok) = .ok (!quads.isEmpty) := by
  cases quads <;> rfl

include hn ho in
theorem zeroLengthAdmissible_spec (hs : simpleTerm c.subject = true) (hobj : simpleTerm c.object = true)
    (hg : graphSlot view β c.scope = some (some G)) (seed : TermId) :
    ∃ b, zeroLengthAdmissible view c seed β = .ok b ∧
      (b = true ↔ c.hops.includesSeed = false ∨ ConstantEnd I c ∨ seed ∈ I.nodes G) := by
  unfold zeroLengthAdmissible
  cases hi : c.hops.includesSeed with
  | false => exact ⟨true, by simp, by simp⟩
  | true =>
    cases hf : (isFree c.subject && isFree c.object) with
    | false =>
      exact ⟨true, by simp, by simp [(constantEnd_iff hs hobj).2 hf]⟩
    | true =>
      have hconst : ¬ ConstantEnd I c := by rw [constantEnd_iff hs hobj, hf]; simp
      simp only [Bool.not_true, Bool.false_eq_true, if_false, hg, scan_permitAll ho, firstQuad_ok]
      have hmem : ∀ s o, (view.store.quadsForPattern s none o (graphFilter (some G))).isEmpty = false ↔
          ∃ q ∈ I.quads, q.graphName = G ∧ s.all (· = q.subject) = true ∧ o.all (· = q.object) = true := by
        intro s o
        rw [hn.quads, List.isEmpty_eq_false_iff_exists_mem]
        simp only [view.store.mem_quadsForPattern, Index.matchesTriple, admits_graph, Option.all_none, Bool.and_true,
          Bool.and_eq_true]
        exact exists_congr fun q => by tauto
      have hnode : seed ∈ I.nodes G ↔
          (view.store.quadsForPattern (some seed) none none (graphFilter (some G))).isEmpty = false ∨
          (view.store.quadsForPattern none none (some seed) (graphFilter (some G))).isEmpty = false := by
        rw [hmem, hmem, mem_nodes]
        constructor
        · rintro ⟨q, hq, hgn, e | e⟩
          · exact .inl ⟨q, hq, hgn, by simp [e], by simp⟩
          · exact .inr ⟨q, hq, hgn, by simp, by simp [e]⟩
        · rintro (⟨q, hq, hgn, h1, -⟩ | ⟨q, hq, hgn, -, h2⟩)
          · exact ⟨q, hq, hgn, .inl (by simpa using (Eq.symm (by simpa using h1 : seed = q.subject)))⟩
          · exact ⟨q, hq, hgn, .inr (by simpa using (Eq.symm (by simpa using h2 : seed = q.object)))⟩
      cases h1 : (view.store.quadsForPattern (some seed) none none (graphFilter (some G))).isEmpty with
      | false => exact ⟨true, rfl, by simp [hnode, h1]⟩
      | true =>
        refine ⟨_, rfl, ?_⟩
        simp [hnode, h1, hconst]

/-! ## The pairs -/

/-- A pair of the closure's solutions. -/
def Pair (I : Interpretation) (G : Option TermId) (c : ClosureItem) (x y : TermId) : Prop :=
  Reaches (I.Steps G c.edge) c.hops x y ∧ (ConstantEnd I c ∨ x ∈ I.nodes G)

theorem Pair.eq_or_nodes {x y : TermId} (h : Pair I G c x y) : x = y ∨ x ∈ I.nodes G ∧ y ∈ I.nodes G :=
  (reaches_nodes h.1).imp_left And.right

/-- The solutions of a closure under the bindings, from any list of pairs that leaves out
only what the bindings do. -/
theorem extend_closure {l : List (TermId × TermId)} (hl : l.Nodup)
    (hsub : ∀ xy ∈ l, Pair I G c xy.1 xy.2 ∧ xy.1 ∈ I.ends G c.subject c.object ∧ xy.2 ∈ I.ends G c.subject c.object)
    (hzero : ∀ xy, Pair I G c xy.1 xy.2 → xy ∉ l →
      Mapping.extend β (Mapping.join (I.termSolutions c.subject xy.1) (I.termSolutions c.object xy.2)) = 0) :
    Mapping.extend β (I.closureSolutions G c.subject c.path c.object) =
      (l : Multiset (TermId × TermId)).bind (fun xy =>
        Mapping.extend β (Mapping.join (I.termSolutions c.subject xy.1) (I.termSolutions c.object xy.2))) := by
  have hpair : ∀ x y, (I.Steps G c.path x y ∧
      ((I.constant c.subject).Nonempty ∨ (I.constant c.object).Nonempty ∨ x ∈ I.nodes G)) ↔ Pair I G c x y := by
    intro x y
    rw [steps_path, Pair, ConstantEnd, or_assoc]
  classical
  rw [Interpretation.closureSolutions, Mapping.extend_bind]
  refine bind_eq_of_list hl (fun xy hxy => ?_) fun xy hxy hno => ?_
  · obtain ⟨hp, h1, h2⟩ := hsub xy hxy
    exact Finset.mem_filter.2 ⟨Finset.mem_product.2 ⟨h1, h2⟩, (hpair _ _).2 hp⟩
  · exact hzero xy ((hpair _ _).1 (Finset.mem_filter.1 hxy).2) hno

include hn in
/-- A constant whose slot is fixed is one of the ids a closure ranges over. -/
theorem mem_constant {t : TermPattern} (ht : simpleTerm t = true) (hc : (I.constant t).Nonempty)
    (hm : slot view β t ≠ .missing) {x : TermId} (ha : (slot view β t).Admits x) : x ∈ I.constant t := by
  have key : ∀ term, slot view β t = lookup view term → I.constant t = {I.intern term} → x ∈ I.constant t := by
    intro term hslot hconst
    rw [hslot] at ha hm
    rw [hconst, Finset.mem_singleton]
    refine ((lookup_admits hn fun hl => ?_).1 ha).symm
    exact absurd (by simp [lookup, hl]) hm
  cases t with
  | var v => simp [Interpretation.constant] at hc
  | namedNode n => exact key _ rfl rfl
  | literal l => exact key _ rfl rfl
  | blankNode l => cases ht
  | triple s p o => cases ht

include hn in
theorem pair_ends (hs : simpleTerm c.subject = true) (hobj : simpleTerm c.object = true) {x y : TermId}
    (hp : Pair I G c x y) (hms : slot view β c.subject ≠ .missing) (hmo : slot view β c.object ≠ .missing)
    (hax : (slot view β c.subject).Admits x) (hay : (slot view β c.object).Admits y) :
    x ∈ I.ends G c.subject c.object ∧ y ∈ I.ends G c.subject c.object := by
  simp only [Interpretation.ends, Finset.mem_union]
  rcases hp.eq_or_nodes with rfl | ⟨hx, hy⟩
  · have : (x ∈ I.nodes G ∨ x ∈ I.constant c.subject) ∨ x ∈ I.constant c.object := by
      rcases hp.2 with (hc | hc) | hx
      · exact .inl (.inr (mem_constant hn hs hc hms hax))
      · exact .inr (mem_constant hn hobj hc hmo hay)
      · exact .inl (.inl hx)
    exact ⟨this, this⟩
  · exact ⟨.inl (.inl hx), .inl (.inl hy)⟩

theorem bindTerm_fixed {t : TermPattern} (ht : simpleTerm t = true) {x : TermId} (h : slot view β t = .fixed x) :
    bindTerm t x β = some β := by
  cases t with
  | var v =>
    simp only [slot] at h
    cases hv : β.lookup v with
    | none => rw [hv] at h; cases h
    | some y =>
      rw [hv] at h
      cases h
      simp [bindTerm, bindVariable, hv]
  | blankNode l => cases ht
  | triple s p o => cases ht
  | _ => rfl

/-- Both ends of a pair, when one of them is fixed: the other is bound, or does not fit. -/
theorem extend_ends (hn : Names view.store I) {near far : TermPattern} (hs : simpleTerm near = true)
    (hf : simpleTerm far = true) {seed : TermId} (hnear : slot view β near = .fixed seed)
    (hfar : slot view β far ≠ .missing) (x y : TermId) :
    ((slot view β far).Admits y → Mapping.extend β (Mapping.join (I.termSolutions near seed) (I.termSolutions far y)) =
      solutionOf (bindTerm far y β)) ∧
    (x ≠ seed ∨ ¬ (slot view β far).Admits y →
      Mapping.extend β (Mapping.join (I.termSolutions near x) (I.termSolutions far y)) = 0) := by
  have hmiss : slot view β near = .missing → ∀ c, view.store.lookupTerm c = none → I.intern c ≠ seed := by
    intro h
    rw [hnear] at h
    cases h
  have hat : (slot view β near).Admits seed := by rw [hnear]; rfl
  constructor
  · intro ha
    rw [extend_join_bind, extend_term hn hs hmiss hat, bindTerm_fixed hs hnear]
    exact (Multiset.singleton_bind _ _).trans (extend_term hn hf (fun h => absurd h hfar) ha β)
  · rintro (hne | ha)
    · have hno : ¬ (slot view β near).Admits x := by rw [hnear]; exact fun h => hne h.symm
      rw [extend_join_bind, extend_term_zero hn hs (fun h => by rw [hnear] at h; cases h) hno, Multiset.zero_bind]
    · rw [Mapping.join_comm, extend_join_bind, extend_term_zero hn hf (fun h => absurd h hfar) ha, Multiset.zero_bind]

/-- A path of length nought may start from `seed`. -/
def Admissible (I : Interpretation) (G : Option TermId) (c : ClosureItem) (seed : TermId) : Prop :=
  c.hops.includesSeed = false ∨ ConstantEnd I c ∨ seed ∈ I.nodes G

theorem pair_of_admissible {seed x y : TermId} (ha : Admissible I G c seed) (hr : Reaches (I.Steps G c.edge) c.hops x y)
    (hseed : x = seed ∨ y = seed) : Pair I G c x y := by
  refine ⟨hr, ?_⟩
  rcases reaches_nodes hr with ⟨hi, rfl⟩ | ⟨hx, -⟩
  · obtain rfl : x = seed := hseed.elim id id
    rcases ha with h | h | h
    · rw [hi] at h; cases h
    · exact .inl h
    · exact .inr h
  · exact .inr hx

theorem admissible_of_pair {x y seed : TermId} (hp : Pair I G c x y) (hseed : x = seed ∨ y = seed) :
    Admissible I G c seed := by
  rcases hp.2 with hc | hx
  · exact .inr (.inl hc)
  · rcases hseed with rfl | rfl
    · exact .inr (.inr hx)
    · rcases hp.eq_or_nodes with rfl | ⟨-, hy⟩
      · exact .inr (.inr hx)
      · exact .inr (.inr hy)

/-- A walk from the subject. -/
theorem extend_from_subject (hn : Names view.store I) (hs : simpleTerm c.subject = true) (hobj : simpleTerm c.object = true)
    {seed : TermId} (hseed : slot view β c.subject = .fixed seed) (hmo : slot view β c.object ≠ .missing)
    {nodes : List TermId} (hnd : nodes.Nodup)
    (hnodes : ∀ y, y ∈ nodes ↔ Pair I G c seed y ∧ (slot view β c.object).Admits y) :
    Mapping.extend β (I.closureSolutions G c.subject c.path c.object) =
      (nodes : Multiset TermId).bind (fun y => solutionOf (bindTerm c.object y β)) := by
  have hms : slot view β c.subject ≠ .missing := by rw [hseed]; simp
  have hat : (slot view β c.subject).Admits seed := by rw [hseed]; rfl
  rw [extend_closure (l := nodes.map (fun y => (seed, y))), ← Multiset.map_coe, Multiset.bind_map]
  · refine Multiset.bind_congr fun y hy => ?_
    exact (extend_ends hn hs hobj hseed hmo seed y).1 ((hnodes y).1 hy).2
  · exact hnd.map fun a b h => (Prod.mk.inj h).2
  · intro xy hxy
    obtain ⟨y, hy, rfl⟩ := List.mem_map.1 hxy
    obtain ⟨hp, ha⟩ := (hnodes y).1 hy
    exact ⟨hp, pair_ends hn hs hobj hp hms hmo hat ha⟩
  · rintro ⟨x, y⟩ hp hno
    refine (extend_ends hn hs hobj hseed hmo x y).2 ?_
    by_contra hcon
    simp only [not_or, not_not] at hcon
    obtain ⟨rfl, ha⟩ := hcon
    exact hno (List.mem_map.2 ⟨y, (hnodes y).2 ⟨hp, ha⟩, rfl⟩)

/-- A walk from the object. -/
theorem extend_from_object (hn : Names view.store I) (hs : simpleTerm c.subject = true) (hobj : simpleTerm c.object = true)
    {seed : TermId} (hseed : slot view β c.object = .fixed seed) (hms : slot view β c.subject ≠ .missing)
    {nodes : List TermId} (hnd : nodes.Nodup)
    (hnodes : ∀ x, x ∈ nodes ↔ Pair I G c x seed ∧ (slot view β c.subject).Admits x) :
    Mapping.extend β (I.closureSolutions G c.subject c.path c.object) =
      (nodes : Multiset TermId).bind (fun x => solutionOf (bindTerm c.subject x β)) := by
  have hmo : slot view β c.object ≠ .missing := by rw [hseed]; simp
  have hat : (slot view β c.object).Admits seed := by rw [hseed]; rfl
  rw [extend_closure (l := nodes.map (fun x => (x, seed))), ← Multiset.map_coe, Multiset.bind_map]
  · refine Multiset.bind_congr fun x hx => ?_
    rw [Mapping.join_comm]
    exact (extend_ends hn hobj hs hseed hms seed x).1 ((hnodes x).1 hx).2
  · exact hnd.map fun a b h => (Prod.mk.inj h).1
  · intro xy hxy
    obtain ⟨x, hx, rfl⟩ := List.mem_map.1 hxy
    obtain ⟨hp, ha⟩ := (hnodes x).1 hx
    exact ⟨hp, pair_ends hn hs hobj hp hms hmo ha hat⟩
  · rintro ⟨x, y⟩ hp hno
    rw [Mapping.join_comm]
    refine (extend_ends hn hobj hs hseed hms y x).2 ?_
    by_contra hcon
    simp only [not_or, not_not] at hcon
    obtain ⟨rfl, ha⟩ := hcon
    exact hno (List.mem_map.2 ⟨x, (hnodes x).2 ⟨hp, ha⟩, rfl⟩)

/-- The solutions of a closure in one graph, from the end `closureSeed` picked. -/
theorem extend_from_seed (hn : Names view.store I) (hs : simpleTerm c.subject = true) (hobj : simpleTerm c.object = true)
    (hms : slot view β c.subject ≠ .missing) (hmo : slot view β c.object ≠ .missing) {seed : TermId} {far : TermPattern}
    {farSlot : Slot} {fromSubject : Bool}
    (h : closureSeed c (slot view β c.subject) (slot view β c.object) = some (seed, far, farSlot, fromSubject)) :
    farSlot ≠ .missing ∧
    (Admissible I G c seed → ∀ nodes : List TermId, nodes.Nodup →
      (∀ y, y ∈ nodes ↔ LeadsTo I G c fromSubject seed y ∧ farSlot.Admits y) →
      Mapping.extend β (I.closureSolutions G c.subject c.path c.object) =
        (nodes : Multiset TermId).bind (fun y => solutionOf (bindTerm far y β))) ∧
    (¬ Admissible I G c seed → Mapping.extend β (I.closureSolutions G c.subject c.path c.object) = 0) := by
  have hsubject : slot view β c.subject = .fixed seed ∧ far = c.object ∧ farSlot = slot view β c.object ∧ fromSubject = true ∨
      slot view β c.object = .fixed seed ∧ far = c.subject ∧ farSlot = slot view β c.subject ∧ fromSubject = false := by
    unfold closureSeed at h
    split at h
    · rename_i s hslot
      cases h
      exact .inl ⟨hslot, rfl, rfl, rfl⟩
    · rename_i o hslot _
      cases h
      exact .inr ⟨hslot, rfl, rfl, rfl⟩
    · cases h
  rcases hsubject with ⟨hseed, rfl, rfl, rfl⟩ | ⟨hseed, rfl, rfl, rfl⟩
  · refine ⟨hmo, fun ha nodes hnd hnodes => extend_from_subject hn hs hobj hseed hmo hnd fun y => ?_, fun ha => ?_⟩
    · rw [hnodes y]
      exact and_congr_left fun _ => ⟨fun hr => pair_of_admissible ha hr (.inl rfl), fun hp => hp.1⟩
    · refine (extend_from_subject (G := G) hn hs hobj hseed hmo List.nodup_nil fun y => ?_).trans (Multiset.zero_bind _)
      exact ⟨fun hy => by simp at hy, fun hy => absurd (admissible_of_pair hy.1 (.inl rfl)) ha⟩
  · refine ⟨hms, fun ha nodes hnd hnodes => extend_from_object hn hs hobj hseed hms hnd fun x => ?_, fun ha => ?_⟩
    · rw [hnodes x]
      exact and_congr_left fun _ => ⟨fun hr => pair_of_admissible ha hr (.inr rfl), fun hp => hp.1⟩
    · refine (extend_from_object (G := G) hn hs hobj hseed hms List.nodup_nil fun x => ?_).trans (Multiset.zero_bind _)
      exact ⟨fun hx => by simp at hx, fun hx => absurd (admissible_of_pair hx.1 (.inr rfl)) ha⟩

/-! ## The graph of a closure -/

include hn in
theorem isGraph_iff (n : TermId) : isGraph view n = true ↔ n ∈ I.graphs := by
  rw [isGraph, decide_eq_true_eq, hn.graphs]

/-- A graph no quad is in has no closure, but for paths of length nought. -/
theorem closureSolutions_no_graph {n : TermId} (h : n ∉ I.graphs)
    (hz : ¬ (c.hops.includesSeed = true ∧ ConstantEnd I c)) :
    I.closureSolutions (some n) c.subject c.path c.object = 0 := by
  have hnodes : ∀ x, x ∉ I.nodes (some n) := by
    intro x hx
    obtain ⟨q, hq, hg, -⟩ := mem_nodes.1 hx
    exact h (I.named q hq n hg)
  have hpair : ∀ x y, ¬ Pair I (some n) c x y := by
    intro x y hp
    rcases reaches_nodes hp.1 with ⟨hi, -⟩ | ⟨hx, -⟩
    · rcases hp.2 with hc | hx
      · exact hz ⟨hi, hc⟩
      · exact hnodes x hx
    · exact hnodes x hx
  have := extend_closure (β := ∅) (l := []) (I := I) (G := some n) (c := c) List.nodup_nil (by simp)
    fun xy hp => absurd hp (hpair _ _)
  rwa [Mapping.extend_empty] at this

/-- A bound graph variable picks one graph. -/
theorem extend_graphs {v : Variable} {n : TermId} (hv : β.lookup v = some n) (X : TermId → Multiset Solution) :
    Mapping.extend β (I.graphs.val.bind (fun m => Mapping.extend (Finmap.singleton v m) (X m))) =
      if n ∈ I.graphs then Mapping.extend β (X n) else 0 := by
  have hone : ∀ m, Mapping.extend β (Mapping.extend (Finmap.singleton v m) (X m)) =
      if m = n then Mapping.extend β (X n) else 0 := by
    intro m
    rw [← Mapping.extend_extend, extend_variable, bindVariable, hv]
    by_cases hm : n = m
    · subst hm
      simp [solutionOf]
    · simp [solutionOf, hm, Ne.symm hm]
  rw [Mapping.extend_bind]
  simp only [hone]
  by_cases hg : n ∈ I.graphs
  · rw [if_pos hg, bind_eq_of_list (l := [n]) (List.nodup_singleton n) (by simpa using hg)
      (fun m _ hm => if_neg (by simpa using hm))]
    exact (Multiset.singleton_bind n _).trans (if_pos rfl)
  · rw [if_neg hg, bind_eq_of_list (l := []) List.nodup_nil (by simp)
      (fun m hm _ => if_neg (by rintro rfl; exact hg hm))]
    exact Multiset.zero_bind _

include hn in
/-- A closure that does not stray is evaluated in one graph, or its graph is unknown. -/
theorem closure_graph (hs : simpleTerm c.subject = true) (hobj : simpleTerm c.object = true)
    (hstray : strays view c β = false) :
    (∃ G, graphSlot view β c.scope = some (some G) ∧
      Mapping.extend β (closureItemSolutions I c) =
        Mapping.extend β (I.closureSolutions G c.subject c.path c.object)) ∨
    (graphSlot view β c.scope = none ∧ closureItemSolutions I c = 0 ∧
      ¬ (c.hops.includesSeed = true ∧ ConstantEnd I c)) := by
  have hzero : (c.hops.includesSeed && !(isFree c.subject && isFree c.object)) = false →
      ¬ (c.hops.includesSeed = true ∧ ConstantEnd I c) := by
    rintro h ⟨hi, hc⟩
    rw [constantEnd_iff hs hobj] at hc
    simp [hi, hc] at h
  unfold strays at hstray
  unfold closureItemSolutions
  cases hsc : c.scope with
  | default => exact .inl ⟨none, rfl, rfl⟩
  | named g =>
    simp only [hsc, lookup] at hstray
    simp only [graphSlot, lookup]
    cases hl : view.store.lookupTerm (.namedNode g) with
    | none =>
      simp only [hl] at hstray
      refine .inr ⟨rfl, if_neg fun hm => ?_, hzero hstray⟩
      rw [hn.graphs] at hm
      exact hn.unnamed _ hl hm
    | some n =>
      simp only [hl] at hstray
      refine .inl ⟨some n, rfl, ?_⟩
      simp only [hn.known _ n hl]
      by_cases hm : n ∈ I.graphs
      · rw [if_pos hm]
      · have hng : isGraph view n = false := by
          by_contra h
          exact hm ((isGraph_iff hn n).1 (by simpa using h))
        rw [if_neg hm, closureSolutions_no_graph hm (hzero (by simpa [hng] using hstray))]
  | var v =>
    simp only [hsc] at hstray
    cases hv : β.lookup v with
    | none => rw [hv] at hstray; cases hstray
    | some n =>
      simp only [hv] at hstray
      refine .inl ⟨some n, by simp [graphSlot, hv], ?_⟩
      simp only
      rw [extend_graphs hv]
      by_cases hm : n ∈ I.graphs
      · rw [if_pos hm]
      · have hng : isGraph view n = false := by
          by_contra h
          exact hm ((isGraph_iff hn n).1 (by simpa using h))
        rw [if_neg hm, closureSolutions_no_graph hm (hzero (by simpa [hng] using hstray)), Mapping.extend_zero]

/-! ## The answer -/

/-- An answer that stands for the solutions `M`, or gives the plan up. -/
def Stands (M : Multiset Solution) : Except ViewError ClosureAnswer → Prop
  | .error _ => False
  | .ok .abandon => True
  | .ok (.zero attempt) => attempt.solutions = M
  | .ok (.walk attempts) =>
    (attempts : Multiset Attempt).bind Attempt.solutions = M ∧ ∀ a ∈ attempts, ∃ o, a = .ofOption o

theorem stands_walk_nil : Stands 0 (.ok (.walk [])) := ⟨Multiset.zero_bind _, by simp⟩

theorem stands_walk (nodes : List TermId) (far : TermPattern) :
    Stands ((nodes : Multiset TermId).bind (fun y => solutionOf (bindTerm far y β)))
      (.ok (.walk (nodes.map (fun node => .ofOption (bindTerm far node β))))) := by
  refine ⟨?_, fun a ha => ?_⟩
  · rw [← Multiset.map_coe, Multiset.bind_map]
    simp only [solutions_ofOption]
  · obtain ⟨y, -, rfl⟩ := List.mem_map.1 ha
    exact ⟨_, rfl⟩

include hn ho in
theorem closureZeroOnly_stands (hs : simpleTerm c.subject = true) (hobj : simpleTerm c.object = true)
    (hms : slot view β c.subject ≠ .missing) (hmo : slot view β c.object ≠ .missing)
    (hl : view.store.lookupTerm (.namedNode c.predicate) = none) (hg : graphSlot view β c.scope = some (some G)) :
    Stands (Mapping.extend β (I.closureSolutions G c.subject c.path c.object))
      (closureZeroOnly view c (slot view β c.subject) (slot view β c.object) β) := by
  -- no quad has the predicate, so only the paths of length nought are left
  have hedge : ∀ x y, ¬ I.Steps G c.edge x y := by
    intro x y h
    obtain ⟨q, hq, -, hp, -⟩ := steps_edge.1 h
    rw [hn.quads] at hq
    exact (hn.unknown _ hl q hq).2.1 hp.symm
  have hreach : ∀ x y, Reaches (I.Steps G c.edge) c.hops x y ↔ c.hops.includesSeed = true ∧ x = y := by
    intro x y
    have htrans : ¬ Relation.TransGen (I.Steps G c.edge) x y := fun h => by
      induction h with
      | single h => exact hedge _ _ h
      | tail _ h _ => exact hedge _ _ h
    cases c.hops with
    | zeroOrMore =>
      simp only [Reaches, Hops.includesSeed, true_and, Relation.reflTransGen_iff_eq_or_transGen, htrans, or_false]
      exact eq_comm
    | oneOrMore => simp [Reaches, Hops.includesSeed, htrans]
    | zeroOrOne => simp [Reaches, Hops.includesSeed, hedge]
  unfold closureZeroOnly
  cases hi : c.hops.includesSeed with
  | false =>
    simp only [Bool.not_false, if_true]
    have := extend_closure (β := β) (l := []) (I := I) (G := G) (c := c) List.nodup_nil (by simp)
      fun xy hp => by simpa [hreach, hi] using hp.1
    rw [this]
    exact (Multiset.zero_bind _).symm
  | true =>
    simp only [Bool.not_true, Bool.false_eq_true, if_false]
    cases hseed : closureSeed c (slot view β c.subject) (slot view β c.object) with
    | none => trivial
    | some next =>
      obtain ⟨seed, far, farSlot, fromSubject⟩ := next
      obtain ⟨hfar, hyes, hno⟩ := extend_from_seed (G := G) hn hs hobj hms hmo hseed
      obtain ⟨b, hb, hbspec⟩ := zeroLengthAdmissible_spec hn ho hs hobj hg seed
      have hleads : ∀ y, LeadsTo I G c fromSubject seed y ↔ y = seed := by
        intro y
        cases fromSubject with
        | true => simp [LeadsTo, hreach, hi, eq_comm]
        | false => simp [LeadsTo, hreach, hi]
      simp only [hb]
      cases b with
      | false =>
        rw [hno fun h => by simpa using hbspec.2 h]
        rfl
      | true =>
        have ha := hbspec.1 rfl
        cases farSlot with
        | missing => exact absurd rfl hfar
        | fixed target =>
          by_cases ht : target = seed
          · rw [hyes ha [seed] (List.nodup_singleton _) fun y => by simp [hleads, Slot.Admits, ht, eq_comm]]
            simp only [bind, Except.bind, pure, Except.pure, Bool.not_true, Bool.false_eq_true, if_false, if_pos ht]
            show Attempt.solutions _ = _
            rw [solutions_ofOption, Multiset.coe_singleton, Multiset.singleton_bind]
          · rw [hyes ha [] List.nodup_nil fun y => by
              simp only [hleads, Slot.Admits, List.not_mem_nil, false_iff, not_and]
              rintro rfl
              exact ht]
            simp only [bind, Except.bind, pure, Except.pure, Bool.not_true, Bool.false_eq_true, if_false, if_neg ht]
            exact (Multiset.zero_bind _).symm
        | any =>
          rw [hyes ha [seed] (List.nodup_singleton _) fun y => by simp [hleads, Slot.Admits]]
          show Attempt.solutions _ = _
          rw [solutions_ofOption, Multiset.coe_singleton, Multiset.singleton_bind]

include hn ho in
/-- A closure that does not stray answers with its solutions under the bindings. -/
theorem closure_step (hs : simpleTerm c.subject = true) (hobj : simpleTerm c.object = true)
    (hstray : strays view c β = false) :
    Stands (Mapping.extend β (closureItemSolutions I c)) (closureAnswer view c β) := by
  unfold closureAnswer
  simp only
  by_cases hmiss : slot view β c.subject = .missing ∨ slot view β c.object = .missing
  · rw [if_pos hmiss]
    trivial
  rw [if_neg hmiss]
  obtain ⟨hms, hmo⟩ := not_or.1 hmiss
  rcases closure_graph hn hs hobj hstray with ⟨G, hg, hM⟩ | ⟨hg, hM, hz⟩
  · rw [hM]
    cases hl : view.store.lookupTerm (.namedNode c.predicate) with
    | none =>
      simp only [lookup, hl]
      exact closureZeroOnly_stands hn ho hs hobj hms hmo hl hg
    | some pid =>
      simp only [lookup, hl, hg]
      cases hseed : closureSeed c (slot view β c.subject) (slot view β c.object) with
      | none => trivial
      | some next =>
        obtain ⟨seed, far, farSlot, fromSubject⟩ := next
        obtain ⟨hfar, hyes, hno⟩ := extend_from_seed (G := G) hn hs hobj hms hmo hseed
        obtain ⟨b, hb, hbspec⟩ := zeroLengthAdmissible_spec hn ho hs hobj hg seed
        simp only [hb]
        cases b with
        | false =>
          rw [hno fun h => by simpa using hbspec.2 h]
          exact stands_walk_nil
        | true =>
          obtain ⟨nodes, hw, hnd, hnodes⟩ := walkNodes_spec (G := G) hn ho (hn.known _ pid hl) fromSubject seed hfar
          rw [hyes (hbspec.1 rfl) nodes hnd hnodes]
          simp only [bind, Except.bind, hw]
          exact stands_walk nodes far
  · -- the graph is one the dictionary never saw
    rw [hM, Mapping.extend_zero]
    cases hl : view.store.lookupTerm (.namedNode c.predicate) with
    | some pid =>
      simp only [lookup, hl, hg]
      exact stands_walk_nil
    | none =>
      simp only [lookup, hl]
      unfold closureZeroOnly
      cases hi : c.hops.includesSeed with
      | false => simp only [Bool.not_false, if_true]; rfl
      | true =>
        have hf : (isFree c.subject && isFree c.object) = true := by
          by_contra h
          exact hz ⟨hi, (constantEnd_iff hs hobj).2 (by simpa using h)⟩
        simp only [Bool.not_true, Bool.false_eq_true, if_false]
        cases closureSeed c (slot view β c.subject) (slot view β c.object) with
        | none => trivial
        | some next =>
          simp only [zeroLengthAdmissible, hi, hf, hg]
          rfl

end Walk

end Holos.Engine.Bindjoin
