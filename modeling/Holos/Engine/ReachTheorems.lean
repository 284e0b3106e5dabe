import Holos.Engine.Bindjoin.Abandon
/-!
# The reachability walk ends, and is exact

`reachable` counts its rounds. `Loops` is the loop of the source as it stands, with nothing
counted, and `rounds_loops` says the count is never what ends it, whatever the scans answer
and whatever the consumer says. Where no scan fails, a walk nobody stops offers each node the
seeds reach, once.
-/

namespace Holos.Engine.Reach

section Loop
variable {hops : Hops} {emit : TermId → Bool} {scan : TermId → List (Except ViewError EncodedQuad)}
  {far : EncodedQuad → TermId}

/-- The rounds as the source runs them: until the frontier is empty, a scan fails or the
consumer stops. -/
inductive Loops (hops : Hops) (emit : TermId → Bool) (scan : TermId → List (Except ViewError EncodedQuad))
    (far : EncodedQuad → TermId) : List TermId → Sets → Except ViewError (Sets × Walk) → Prop where
  | done (st : Sets) : Loops hops emit scan far [] st (.ok (st, .complete))
  | failed {node : TermId} {frontier : List TermId} {st : Sets} {e : ViewError}
      (h : expandAll hops emit scan far (node :: frontier) { st with next := [] } = .error e) :
      Loops hops emit scan far (node :: frontier) st (.error e)
  | stopped {node : TermId} {frontier : List TermId} {st st' : Sets}
      (h : expandAll hops emit scan far (node :: frontier) { st with next := [] } = .ok (st', .stopped)) :
      Loops hops emit scan far (node :: frontier) st (.ok (st', .stopped))
  | round {node : TermId} {frontier : List TermId} {st st' : Sets} {r : Except ViewError (Sets × Walk)}
      (h : expandAll hops emit scan far (node :: frontier) { st with next := [] } = .ok (st', .complete))
      (rest : Loops hops emit scan far st'.next st' r) : Loops hops emit scan far (node :: frontier) st r

/-! ## What an answered round crossed -/

theorem crossAll_grows {quads : List (Except ViewError EncodedQuad)} {st st' : Sets} {w : Walk}
    (h : crossAll hops emit far quads st = .ok (st', w)) :
    Grows hops ((quads.filterMap Except.toOption).map far) st st' := by
  induction quads generalizing st with
  | nil =>
    simp only [crossAll, Except.ok.injEq, Prod.mk.injEq] at h
    rw [← h.1]
    exact Grows.refl st
  | cons r quads ih =>
    cases r with
    | error e => simp [crossAll] at h
    | ok q =>
      have hg := (cross_spec hops emit st (far q)).1
      rw [crossAll] at h
      split at h
      · rename_i st₁ hcross
        rw [hcross] at hg
        cases h
        exact hg.weaken (by simp [Except.toOption])
      · rename_i st₁ hcross
        rw [hcross] at hg
        exact hg.trans (ih h)

theorem expandAll_grows {frontier : List TermId} {st st' : Sets} {w : Walk}
    (h : expandAll hops emit scan far frontier st = .ok (st', w)) :
    Grows hops (frontier.flatMap fun x => ((scan x).filterMap Except.toOption).map far) st st' := by
  induction frontier generalizing st with
  | nil =>
    simp only [expandAll, Except.ok.injEq, Prod.mk.injEq] at h
    rw [← h.1]
    exact Grows.refl st
  | cons node frontier ih =>
    rw [expandAll] at h
    cases hcross : crossAll hops emit far (scan node) st with
    | error e =>
      rw [hcross] at h
      cases h
    | ok walked =>
      obtain ⟨st₁, w₁⟩ := walked
      rw [hcross] at h
      have hg := crossAll_grows hcross
      cases w₁ with
      | stopped =>
        cases h
        exact hg.weaken fun y hy => List.mem_append_left _ hy
      | complete => exact hg.trans (ih h)

/-! ## The count of rounds -/

/-- The count never ends the loop: `U` holds every node that can be queued, no node is
queued twice, and each round but the last queues one. -/
theorem rounds_loops (hops : Hops) (emit : TermId → Bool) {U : Finset TermId} (hU : ∀ x q, .ok q ∈ scan x → far q ∈ U) (fuel : Nat) (frontier : List TermId)
    (st : Sets) (hn : st.expanded.Nodup) (hin : ∀ x ∈ st.expanded, x ∈ U)
    (hfuel : frontier ≠ [] → U.card + 2 ≤ fuel + st.expanded.length) :
    Loops hops emit scan far frontier st (rounds hops emit scan far fuel frontier st) := by
  have hcard : st.expanded.length ≤ U.card := by
    rw [← List.toFinset_card_of_nodup hn]
    exact Finset.card_le_card fun x hx => hin x (List.mem_toFinset.1 hx)
  induction fuel generalizing frontier st with
  | zero =>
    obtain rfl : frontier = [] := by
      by_contra hne
      have := hfuel hne
      omega
    exact .done st
  | succ fuel ih =>
    cases frontier with
    | nil => exact .done st
    | cons node frontier =>
      rw [rounds]
      · cases hexpand : expandAll hops emit scan far (node :: frontier) { st with next := [] } with
        | error e => exact .failed hexpand
        | ok walked =>
          obtain ⟨st₁, w⟩ := walked
          cases w with
          | stopped => exact .stopped hexpand
          | complete =>
            have hg := expandAll_grows hexpand
            have hn₁ : st₁.expanded.Nodup := hg.expandedNodup hn
            have hin₁ : ∀ y ∈ st₁.expanded, y ∈ U := by
              intro y hy
              rcases hg.expanded y hy with hy | ⟨hy, -, -⟩
              · exact hin y hy
              · obtain ⟨x, -, hy⟩ := List.mem_flatMap.1 hy
                obtain ⟨q, hq, rfl⟩ := List.mem_map.1 hy
                obtain ⟨r, hr, hrq⟩ := List.mem_filterMap.1 hq
                cases r with
                | error e => cases hrq
                | ok q' =>
                  cases hrq
                  exact hU x q hr
            refine .round hexpand (ih st₁.next st₁ hn₁ hin₁ (fun hne => ?_) ?_)
            · have := hfuel (by simp)
              have := hg.count
              have := List.length_pos_iff.2 hne
              simp only [List.length_nil] at *
              omega
            · rw [← List.toFinset_card_of_nodup hn₁]
              exact Finset.card_le_card fun x hx => hin₁ x (List.mem_toFinset.1 hx)
      · simp

end Loop

/-! ## Every walk -/

variable {view : DatasetView} {predicate : TermId} {direction : Direction} {hops : Hops} {graph : Option (Option TermId)}
  {seeds : List TermId} {emit : TermId → Bool}

/-- A walk as the source runs it: the seeds, and then the loop. -/
inductive Walks (view : DatasetView) (predicate : TermId) (direction : Direction) (hops : Hops)
    (graph : Option (Option TermId)) (seeds : List TermId) (emit : TermId → Bool) :
    Except ViewError (List TermId × Walk) → Prop where
  | seed {st : Sets} (h : seedAll hops emit seeds ⟨[], [], []⟩ = (st, .stopped)) :
      Walks view predicate direction hops graph seeds emit (.ok (st.emitted, .stopped))
  | loop {st : Sets} {r : Except ViewError (Sets × Walk)} (h : seedAll hops emit seeds ⟨[], [], []⟩ = (st, .complete))
      (rest : Loops hops emit (edges view predicate direction graph) direction.far st.next st r) :
      Walks view predicate direction hops graph seeds emit (r.map fun (st, walk) => (st.emitted, walk))

/-- A quad the view shows is one of the store. -/
theorem mem_quads_of_edges {x : TermId} {q : EncodedQuad} (h : .ok q ∈ edges view predicate direction graph x) :
    q ∈ view.store.quads := by
  have hscan : ∀ s p o, .ok q ∈ view.internalQuadsForPattern s p o graph → q ∈ view.store.quads := by
    intro s p o h
    unfold DatasetView.internalQuadsForPattern at h
    simp only at h
    split at h
    · rename_i answer hd
      unfold DatasetView.deniedGraph at hd
      split at hd
      · split at hd
        · cases hd
          split at h <;> simp at h
        · cases hd
      · cases hd
    · obtain ⟨q', hq', hd⟩ := List.mem_filterMap.1 h
      unfold DatasetView.decide at hd
      split at hd
      · cases hd
        exact ((view.store.mem_quadsForPattern _ _ _ _ _).1 hq').1
      · cases hd
      · cases hd
  cases direction with
  | forward => exact hscan _ _ _ h
  | backward => exact hscan _ _ _ h

/-- Every walk ends, whatever is refused and whenever it is told to stop. -/
theorem reachable_walks (view : DatasetView) (predicate : TermId) (direction : Direction) (hops : Hops)
    (graph : Option (Option TermId)) (seeds : List TermId) (emit : TermId → Bool) :
    Walks view predicate direction hops graph seeds emit (reachable view predicate direction hops graph seeds emit) := by
  have h₀ : Seeded hops seeds ⟨[], [], []⟩ := by constructor <;> simp
  unfold reachable
  rcases seedAll_spec hops emit seeds ⟨[], [], []⟩ h₀ (fun _ h => h) with ⟨st, heq, h, -, -⟩ | ⟨st, heq, -, -, -⟩
  · rw [heq]
    have hU : ∀ x q, .ok q ∈ edges view predicate direction graph x →
        direction.far q ∈ st.expanded.toFinset ∪ view.store.quads.image direction.far :=
      fun x q hq => Finset.mem_union_right _ (Finset.mem_image_of_mem _ (mem_quads_of_edges hq))
    have hloop := rounds_loops hops emit hU (view.store.quads.card + 2) st.next st h.expandedNodup
      (fun x hx => Finset.mem_union_left _ (List.mem_toFinset.2 hx)) (fun _ => by
        have h₁ := Finset.card_union_le st.expanded.toFinset (view.store.quads.image direction.far)
        have h₂ := Finset.card_image_le (s := view.store.quads) (f := direction.far)
        rw [List.toFinset_card_of_nodup h.expandedNodup] at h₁
        omega)
    exact .loop heq hloop
  · rw [heq]
    exact .seed heq

/-- What an answered scan shows. -/
def shown (quads : List (Except ViewError EncodedQuad)) : List EncodedQuad := quads.filterMap Except.toOption

theorem mem_shown {quads : List (Except ViewError EncodedQuad)} {q : EncodedQuad} : q ∈ shown quads ↔ .ok q ∈ quads := by
  unfold shown
  rw [List.mem_filterMap]
  constructor
  · rintro ⟨r, hr, hq⟩
    cases r with
    | error e => cases hq
    | ok q' =>
      cases hq
      exact hr
  · intro h
    exact ⟨.ok q, h, rfl⟩

theorem map_shown {quads : List (Except ViewError EncodedQuad)} (h : ∀ r ∈ quads, ∃ q, r = .ok q) :
    quads = (shown quads).map .ok := by
  induction quads with
  | nil => rfl
  | cons r quads ih =>
    obtain ⟨q, rfl⟩ := h r List.mem_cons_self
    exact congrArg (Except.ok q :: ·) (ih fun r hr => h r (List.mem_cons_of_mem _ hr))

/-- Where no edge is refused, a walk nobody stops offers the nodes the seeds reach, each
once, and ends. -/
theorem reachable_exact (view : DatasetView) (predicate : TermId) (direction : Direction) (hops : Hops)
    (graph : Option (Option TermId)) (seeds : List TermId)
    (hread : ∀ x, ∀ r ∈ edges view predicate direction graph x, ∃ q, r = .ok q) :
    ∃ emitted, reachable view predicate direction hops graph seeds (fun _ => true) = .ok (emitted, .complete) ∧
      Walks view predicate direction hops graph seeds (fun _ => true) (.ok (emitted, .complete)) ∧ emitted.Nodup ∧
      ∀ x, x ∈ emitted ↔ ∃ s ∈ seeds,
        Reaches (fun a b => ∃ q, .ok q ∈ edges view predicate direction graph a ∧ direction.far q = b) hops s x := by
  have hin : ∀ x, ∀ q ∈ shown (edges view predicate direction graph x), q ∈ view.store.quads :=
    fun x q hq => mem_quads_of_edges (mem_shown.1 hq)
  obtain ⟨emitted, w, hr, hres⟩ : ∃ emitted w,
      reachable view predicate direction hops graph seeds (fun _ => true) = .ok (emitted, w) ∧
        Result _ hops (fun _ => true) seeds emitted w := reachable_spec (fun x => map_shown (hread x)) hin
  have hE : (fun x y => y ∈ (shown (edges view predicate direction graph x)).map direction.far) =
      fun a b => ∃ q, .ok q ∈ edges view predicate direction graph a ∧ direction.far q = b := by
    funext a b
    simp only [List.mem_map, mem_shown]
  rw [hE] at hres
  cases w with
  | stopped =>
    obtain ⟨x, -, hx⟩ := hres.stopped rfl
    cases hx
  | complete =>
    refine ⟨emitted, hr, ?_, hres.nodup, fun x => ⟨hres.sound x, fun ⟨s, hs, hx⟩ => hres.complete rfl s hs x hx⟩⟩
    have hwalk := reachable_walks view predicate direction hops graph seeds (fun _ => true)
    rw [hr] at hwalk
    exact hwalk

/-- Two nodes on a cycle, in the default graph. -/
def twoCycle : DatasetView where
  store := Store.ofOps (fun _ => none) 0 [.insert ⟨1, 9, 2, none⟩, .insert ⟨2, 9, 1, none⟩]
  policy := Security.CompiledPolicy.permitAll

theorem reachable_twoCycle :
    ∃ emitted, reachable twoCycle 9 .forward .oneOrMore (some none) [1] (fun _ => true) = .ok (emitted, .complete) ∧
      emitted.Nodup ∧ 1 ∈ emitted := by
  have hanswers : twoCycle.Answers := DatasetView.answers_of_filter rfl
  have hread : ∀ x, ∀ r ∈ edges twoCycle 9 .forward (some none) x, ∃ q, r = .ok q :=
    fun x => hanswers.pattern (some x) (some 9) none (some none)
  obtain ⟨emitted, hr, -, hn, hmem⟩ := reachable_exact twoCycle 9 .forward .oneOrMore (some none) [1] hread
  refine ⟨emitted, hr, hn, (hmem 1).2 ⟨1, List.mem_singleton.2 rfl, ?_⟩⟩
  have hthere : (.ok ⟨1, 9, 2, none⟩ : Except ViewError EncodedQuad) ∈ edges twoCycle 9 .forward (some none) 1 := by decide
  have hback : (.ok ⟨2, 9, 1, none⟩ : Except ViewError EncodedQuad) ∈ edges twoCycle 9 .forward (some none) 2 := by decide
  exact .tail (.single ⟨_, hthere, rfl⟩) ⟨_, hback, rfl⟩

end Holos.Engine.Reach
