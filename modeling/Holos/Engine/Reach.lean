import Holos.Engine.View
import Mathlib.Data.Finset.Card
import Mathlib.Logic.Relation
/-!
# Reachability over one predicate

The walk behind a closure property path: from a set of seeds, round by round, along the
edges of one predicate. `emitted` and `expanded` are two sets because a seed of `:p+` is
an answer only if an edge leads back to it.

The source loops until the frontier is empty. Here the rounds are counted, and
`reachable_spec` shows the count given is never reached before the frontier empties.
-/

namespace Holos.Engine.Reach

/-- Which way the edges are followed. -/
inductive Direction where
  | forward | backward
deriving DecidableEq, Repr

/-- The direction a walk takes, given which side is bound and whether the inner path is
itself inverted. Two inversions cancel. -/
def Direction.of (fromSubject inversePath : Bool) : Direction :=
  if fromSubject = inversePath then .backward else .forward

/-- How many edges a path may cross. -/
inductive Hops where
  | zeroOrMore | oneOrMore | zeroOrOne
deriving DecidableEq, Repr

/-- Whether a seed is an answer for itself, with no edge crossed. -/
def Hops.includesSeed : Hops → Bool
  | .zeroOrMore | .zeroOrOne => true
  | .oneOrMore => false

/-- Whether the walk continues past the first edge. -/
def Hops.unbounded : Hops → Bool
  | .zeroOrMore | .oneOrMore => true
  | .zeroOrOne => false

/-- Whether a traversal ran to the end or was stopped by its consumer. -/
inductive Walk where
  | complete | stopped
deriving DecidableEq, Repr

/-- What a walk has offered, what it has expanded or queued, and the queue of the next
round. -/
structure Sets where
  emitted : List TermId
  expanded : List TermId
  next : List TermId
deriving DecidableEq, Repr

section Walk
variable (hops : Hops) (emit : TermId → Bool)

def seed (st : Sets) (s : TermId) : Sets × Walk :=
  if s ∈ st.expanded then (st, .complete)
  else
    let st := { st with expanded := st.expanded ++ [s], next := st.next ++ [s] }
    if hops.includesSeed && decide (s ∉ st.emitted) then
      ({ st with emitted := st.emitted ++ [s] }, if emit s then .complete else .stopped)
    else (st, .complete)

def seedAll : List TermId → Sets → Sets × Walk
  | [], st => (st, .complete)
  | s :: seeds, st =>
    match seed hops emit st s with
    | (st, .stopped) => (st, .stopped)
    | (st, .complete) => seedAll seeds st

/-- One edge crossed: its end is offered once, and queued once unless the path ends there. -/
def cross (st : Sets) (reached : TermId) : Sets × Walk :=
  let fresh := decide (reached ∉ st.emitted)
  let st := if fresh then { st with emitted := st.emitted ++ [reached] } else st
  if fresh && !emit reached then (st, .stopped)
  else if hops.unbounded && decide (reached ∉ st.expanded) then
    ({ st with expanded := st.expanded ++ [reached], next := st.next ++ [reached] }, .complete)
  else (st, .complete)

def crossAll (far : EncodedQuad → TermId) :
    List (Except ViewError EncodedQuad) → Sets → Except ViewError (Sets × Walk)
  | [], st => .ok (st, .complete)
  | .error e :: _, _ => .error e
  | .ok quad :: quads, st =>
    match cross hops emit st (far quad) with
    | (st, .stopped) => .ok (st, .stopped)
    | (st, .complete) => crossAll far quads st

/-- One round: every node of the frontier is expanded. -/
def expandAll (scan : TermId → List (Except ViewError EncodedQuad)) (far : EncodedQuad → TermId) :
    List TermId → Sets → Except ViewError (Sets × Walk)
  | [], st => .ok (st, .complete)
  | node :: frontier, st => do
    match ← crossAll hops emit far (scan node) st with
    | (st, .stopped) => .ok (st, .stopped)
    | (st, .complete) => expandAll scan far frontier st

def rounds (scan : TermId → List (Except ViewError EncodedQuad)) (far : EncodedQuad → TermId) :
    Nat → List TermId → Sets → Except ViewError (Sets × Walk)
  | 0, _, st => .ok (st, .complete)
  | _ + 1, [], st => .ok (st, .complete)
  | fuel + 1, frontier, st => do
    match ← expandAll hops emit scan far frontier { st with next := [] } with
    | (st, .stopped) => .ok (st, .stopped)
    | (st, .complete) => rounds scan far fuel st.next st

end Walk

/-- The edges out of a node, as the view shows them. -/
def edges (view : DatasetView) (predicate : TermId) (direction : Direction) (graph : Option (Option TermId))
    (node : TermId) : List (Except ViewError EncodedQuad) :=
  match direction with
  | .forward => view.internalQuadsForPattern (some node) (some predicate) none graph
  | .backward => view.internalQuadsForPattern none (some predicate) (some node) graph

/-- The end an edge leads to. -/
def Direction.far : Direction → EncodedQuad → TermId
  | .forward, quad => quad.object
  | .backward, quad => quad.subject

/-- Every node reachable from the seeds, in the order offered; `emit` says whether to keep
going after a node. -/
def reachable (view : DatasetView) (predicate : TermId) (direction : Direction) (hops : Hops)
    (graph : Option (Option TermId)) (seeds : List TermId) (emit : TermId → Bool) :
    Except ViewError (List TermId × Walk) :=
  match seedAll hops emit seeds ⟨[], [], []⟩ with
  | (st, .stopped) => .ok (st.emitted, .stopped)
  | (st, .complete) => do
    let (st, walk) ← rounds hops emit (edges view predicate direction graph) direction.far
      (view.store.quads.card + 2) st.next st
    .ok (st.emitted, walk)

/-! ## What a path may cross -/

/-- `b` is reached from `a` by a path of the allowed number of edges. -/
def Reaches (E : TermId → TermId → Prop) : Hops → TermId → TermId → Prop
  | .zeroOrMore => Relation.ReflTransGen E
  | .oneOrMore => Relation.TransGen E
  | .zeroOrOne => fun a b => a = b ∨ E a b

variable {E : TermId → TermId → Prop} {hops : Hops} {emit : TermId → Bool}

/-! ## One edge -/

/-- What crossing the edges to `ys` does to the sets. -/
structure Grows (hops : Hops) (ys : List TermId) (st st' : Sets) : Prop where
  emitted : ∀ x, x ∈ st'.emitted → x ∈ st.emitted ∨ x ∈ ys
  emittedMono : ∀ x ∈ st.emitted, x ∈ st'.emitted
  nodup : st.emitted.Nodup → st'.emitted.Nodup
  expanded : ∀ x, x ∈ st'.expanded → x ∈ st.expanded ∨ x ∈ ys ∧ hops.unbounded = true ∧ x ∈ st'.next
  expandedMono : ∀ x ∈ st.expanded, x ∈ st'.expanded
  expandedNodup : st.expanded.Nodup → st'.expanded.Nodup
  next : ∀ x, x ∈ st'.next → x ∈ st.next ∨ x ∈ st'.expanded
  nextMono : ∀ x ∈ st.next, x ∈ st'.next
  count : st'.expanded.length + st.next.length = st.expanded.length + st'.next.length

theorem Grows.refl (st : Sets) : Grows hops [] st st :=
  ⟨fun _ h => .inl h, fun _ h => h, id, fun _ h => .inl h, fun _ h => h, id, fun _ h => .inl h, fun _ h => h, rfl⟩

theorem Grows.weaken {ys zs : List TermId} {st st' : Sets} (h : Grows hops ys st st') (hs : ∀ y ∈ ys, y ∈ zs) :
    Grows hops zs st st' :=
  { h with
    emitted := fun x hx => (h.emitted x hx).imp_right (hs x)
    expanded := fun x hx => (h.expanded x hx).imp_right fun ⟨hy, h'⟩ => ⟨hs x hy, h'⟩ }

theorem Grows.trans {ys zs : List TermId} {st st' st'' : Sets} (h : Grows hops ys st st') (h' : Grows hops zs st' st'') :
    Grows hops (ys ++ zs) st st'' where
  emitted x hx := by
    rcases h'.emitted x hx with hx | hx
    · exact (h.emitted x hx).imp_right (List.mem_append_left _)
    · exact .inr (List.mem_append_right _ hx)
  emittedMono x hx := h'.emittedMono x (h.emittedMono x hx)
  nodup hn := h'.nodup (h.nodup hn)
  expanded x hx := by
    rcases h'.expanded x hx with hx | ⟨hx, hu, hn⟩
    · rcases h.expanded x hx with hx | ⟨hx, hu, hn⟩
      · exact .inl hx
      · exact .inr ⟨List.mem_append_left _ hx, hu, h'.nextMono x hn⟩
    · exact .inr ⟨List.mem_append_right _ hx, hu, hn⟩
  expandedMono x hx := h'.expandedMono x (h.expandedMono x hx)
  expandedNodup hn := h'.expandedNodup (h.expandedNodup hn)
  next x hx := by
    rcases h'.next x hx with hx | hx
    · exact (h.next x hx).imp_right (h'.expandedMono x)
    · exact .inr hx
  nextMono x hx := h'.nextMono x (h.nextMono x hx)
  count := by have := h.count; have := h'.count; omega

/-- Every node of `ys` has been offered, and queued where the path goes on. -/
def Crossed (hops : Hops) (ys : List TermId) (st : Sets) : Prop :=
  ∀ y ∈ ys, y ∈ st.emitted ∧ (hops.unbounded = true → y ∈ st.expanded)

theorem Crossed.mono {ys zs : List TermId} {st st' : Sets} (h : Crossed hops ys st) (hg : Grows hops zs st st') :
    Crossed hops ys st' :=
  fun y hy => ⟨hg.emittedMono y (h y hy).1, fun hu => hg.expandedMono y ((h y hy).2 hu)⟩

/-- A stopped walk has offered a node its consumer stopped at. -/
def StoppedAt (emit : TermId → Bool) (st : Sets) : Prop := ∃ x ∈ st.emitted, emit x = false

theorem nodup_concat {l : List TermId} {x : TermId} (hn : l.Nodup) (hx : x ∉ l) : (l ++ [x]).Nodup := by
  rw [List.nodup_append]
  exact ⟨hn, List.nodup_singleton x, fun a ha b hb => by rw [List.mem_singleton.1 hb]; exact fun e => hx (e ▸ ha)⟩

theorem cross_spec (hops : Hops) (emit : TermId → Bool) (st : Sets) (y : TermId) :
    Grows hops [y] st (cross hops emit st y).1 ∧
    ((cross hops emit st y).2 = .complete → Crossed hops [y] (cross hops emit st y).1) ∧
    ((cross hops emit st y).2 = .stopped → StoppedAt emit (cross hops emit st y).1) := by
  -- the node is offered or was before, and then queued, was queued before, or is not to be
  by_cases hf : y ∈ st.emitted
  · by_cases hq : hops.unbounded = true ∧ y ∉ st.expanded
    · have e : cross hops emit st y =
          ({ st with expanded := st.expanded ++ [y], next := st.next ++ [y] }, .complete) := by
        simp [cross, hf, hq]
      rw [e]
      refine ⟨⟨fun x h => .inl h, fun x h => h, id, fun x h => ?_, fun x h => List.mem_append_left _ h,
        fun hn => nodup_concat hn hq.2, fun x h => ?_, fun x h => List.mem_append_left _ h, by simp; omega⟩, fun _ => ?_,
        by simp⟩
      · rcases List.mem_append.1 h with h | h
        · exact .inl h
        · exact .inr ⟨h, hq.1, List.mem_append_right _ h⟩
      · exact (List.mem_append.1 h).imp_right (List.mem_append_right _)
      · simp [Crossed, hf]
    · have e : cross hops emit st y = (st, .complete) := by
        rw [not_and_not_right] at hq
        by_cases hu : hops.unbounded = true
        · simp [cross, hf, hu, hq hu]
        · simp [cross, hf, hu]
      rw [e]
      refine ⟨(Grows.refl st).weaken (by simp), fun _ => ?_, by simp⟩
      intro z hz
      rw [List.mem_singleton.1 hz]
      exact ⟨hf, not_and_not_right.1 hq⟩
  · have hm : ∀ x, x ∈ st.emitted ++ [y] → x ∈ st.emitted ∨ x ∈ [y] := fun x h => List.mem_append.1 h
    by_cases hk : emit y = true
    · by_cases hq : hops.unbounded = true ∧ y ∉ st.expanded
      · have e : cross hops emit st y =
            ({ emitted := st.emitted ++ [y], expanded := st.expanded ++ [y], next := st.next ++ [y] }, .complete) := by
          simp [cross, hf, hk, hq]
        rw [e]
        refine ⟨⟨hm, fun x h => List.mem_append_left _ h, fun hn => nodup_concat hn hf, fun x h => ?_,
          fun x h => List.mem_append_left _ h, fun hn => nodup_concat hn hq.2, fun x h => ?_,
          fun x h => List.mem_append_left _ h, by simp; omega⟩, fun _ => ?_, by simp⟩
        · rcases List.mem_append.1 h with h | h
          · exact .inl h
          · exact .inr ⟨h, hq.1, List.mem_append_right _ h⟩
        · exact (List.mem_append.1 h).imp_right (List.mem_append_right _)
        · simp [Crossed]
      · have e : cross hops emit st y = ({ st with emitted := st.emitted ++ [y] }, .complete) := by
          rw [not_and_not_right] at hq
          by_cases hu : hops.unbounded = true
          · simp [cross, hf, hk, hu, hq hu]
          · simp [cross, hf, hk, hu]
        rw [e]
        refine ⟨⟨hm, fun x h => List.mem_append_left _ h, fun hn => nodup_concat hn hf, fun x h => .inl h, fun x h => h,
          id, fun x h => .inl h, fun x h => h, rfl⟩, fun _ => ?_, by simp⟩
        intro z hz
        rw [List.mem_singleton.1 hz]
        exact ⟨by simp, not_and_not_right.1 hq⟩
    · have e : cross hops emit st y = ({ st with emitted := st.emitted ++ [y] }, .stopped) := by
        simp [cross, hf, hk]
      rw [e]
      refine ⟨⟨hm, fun x h => List.mem_append_left _ h, fun hn => nodup_concat hn hf, fun x h => .inl h, fun x h => h,
        id, fun x h => .inl h, fun x h => h, rfl⟩, by simp, fun _ => ⟨y, by simp, by simpa using hk⟩⟩

/-! ## One round -/

theorem crossAll_spec (hops : Hops) (emit : TermId → Bool) (far : EncodedQuad → TermId) (quads : List EncodedQuad) (st : Sets) :
    ∃ st' w, crossAll hops emit far (quads.map .ok) st = .ok (st', w) ∧ Grows hops (quads.map far) st st' ∧
      (w = .complete → Crossed hops (quads.map far) st') ∧ (w = .stopped → StoppedAt emit st') := by
  induction quads generalizing st with
  | nil => exact ⟨st, .complete, rfl, Grows.refl st, fun _ y hy => absurd hy List.not_mem_nil, by simp⟩
  | cons q quads ih =>
    obtain ⟨hg, hc, hs⟩ := cross_spec hops emit st (far q)
    simp only [List.map_cons, crossAll]
    cases hcr : cross hops emit st (far q) with
    | mk st₁ w₁ =>
      rw [hcr] at hg hc hs
      cases w₁ with
      | stopped =>
        exact ⟨st₁, .stopped, rfl, hg.weaken (by simp), by simp, fun _ => hs rfl⟩
      | complete =>
        obtain ⟨st₂, w, heq, hg', hc', hs'⟩ := ih st₁
        refine ⟨st₂, w, heq, hg.trans hg', fun hw => ?_, hs'⟩
        intro y hy
        rcases List.mem_cons.1 hy with rfl | hy
        · exact (hc rfl).mono hg' _ (by simp)
        · exact hc' hw y hy

section Rounds
variable {scan : TermId → List (Except ViewError EncodedQuad)} {far : EncodedQuad → TermId}
  {quads : TermId → List EncodedQuad}

theorem expandAll_spec (hops : Hops) (emit : TermId → Bool) (far : EncodedQuad → TermId) (hscan : ∀ x, scan x = (quads x).map .ok) (frontier : List TermId) (st : Sets) :
    ∃ st' w, expandAll hops emit scan far frontier st = .ok (st', w) ∧
      Grows hops (frontier.flatMap (fun x => (quads x).map far)) st st' ∧
      (w = .complete → Crossed hops (frontier.flatMap (fun x => (quads x).map far)) st') ∧
      (w = .stopped → StoppedAt emit st') := by
  induction frontier generalizing st with
  | nil => exact ⟨st, .complete, rfl, Grows.refl st, fun _ y hy => absurd hy List.not_mem_nil, by simp⟩
  | cons x frontier ih =>
    obtain ⟨st₁, w₁, heq, hg, hc, hs⟩ := crossAll_spec hops emit far (quads x) st
    simp only [expandAll, hscan, heq, List.flatMap_cons]
    cases w₁ with
    | stopped =>
      exact ⟨st₁, .stopped, rfl, hg.weaken fun y hy => List.mem_append_left _ hy, by simp, fun _ => hs rfl⟩
    | complete =>
      obtain ⟨st₂, w, heq', hg', hc', hs'⟩ := ih st₁
      refine ⟨st₂, w, heq', hg.trans hg', fun hw => ?_, hs'⟩
      intro y hy
      rcases List.mem_append.1 hy with hy | hy
      · exact (hc rfl).mono hg' y hy
      · exact hc' hw y hy

/-! ## The whole walk -/

/-- What holds between rounds: everything offered is an answer, and every node that is
not on the frontier has had its edges crossed. -/
structure Inv (E : TermId → TermId → Prop) (hops : Hops) (seeds : List TermId) (frontier : List TermId) (st : Sets) :
    Prop where
  nodup : st.emitted.Nodup
  expandedNodup : st.expanded.Nodup
  seeded : ∀ s ∈ seeds, s ∈ st.expanded ∧ (hops.includesSeed = true → s ∈ st.emitted)
  sound : ∀ x ∈ st.emitted, ∃ s ∈ seeds, Reaches E hops s x
  reach : ∀ x ∈ st.expanded, x ∈ seeds ∨ hops.unbounded = true ∧ ∃ s ∈ seeds, Relation.TransGen E s x
  queued : ∀ x ∈ frontier, x ∈ st.expanded
  closed : ∀ x ∈ st.expanded, x ∈ frontier ∨ ∀ y, E x y → y ∈ st.emitted ∧ (hops.unbounded = true → y ∈ st.expanded)

theorem reaches_edge {seeds : List TermId} {x y : TermId}
    (hx : x ∈ seeds ∨ hops.unbounded = true ∧ ∃ s ∈ seeds, Relation.TransGen E s x) (hy : E x y) :
    ∃ s ∈ seeds, Reaches E hops s y := by
  rcases hx with hx | ⟨hu, s, hs, hx⟩
  · refine ⟨x, hx, ?_⟩
    cases hops with
    | zeroOrMore => exact .single hy
    | oneOrMore => exact .single hy
    | zeroOrOne => exact .inr hy
  · refine ⟨s, hs, ?_⟩
    cases hops with
    | zeroOrMore => exact hx.to_reflTransGen.tail hy
    | oneOrMore => exact hx.tail hy
    | zeroOrOne => cases hu

theorem Inv.round {seeds frontier : List TermId} {st st' : Sets} (hE : ∀ x y, E x y ↔ y ∈ (quads x).map far)
    (h : Inv E hops seeds frontier st)
    (hg : Grows hops (frontier.flatMap (fun x => (quads x).map far)) { st with next := [] } st')
    (hc : Crossed hops (frontier.flatMap (fun x => (quads x).map far)) st') : Inv E hops seeds st'.next st' := by
  have hnew : ∀ y ∈ frontier.flatMap (fun x => (quads x).map far), ∃ x ∈ frontier, E x y := by
    intro y hy
    obtain ⟨x, hx, hy⟩ := List.mem_flatMap.1 hy
    exact ⟨x, hx, (hE x y).2 hy⟩
  refine ⟨hg.nodup h.nodup, hg.expandedNodup h.expandedNodup, fun s hs => ?_, fun y hy => ?_, fun y hy => ?_, fun y hy => ?_,
    fun x hx => ?_⟩
  · exact ⟨hg.expandedMono s (h.seeded s hs).1, fun hi => hg.emittedMono s ((h.seeded s hs).2 hi)⟩
  · rcases hg.emitted y hy with hy | hy
    · exact h.sound y hy
    · obtain ⟨x, hx, hxy⟩ := hnew y hy
      exact reaches_edge (h.reach x (h.queued x hx)) hxy
  · rcases hg.expanded y hy with hy | ⟨hy, hu, -⟩
    · exact h.reach y hy
    · obtain ⟨x, hx, hxy⟩ := hnew y hy
      refine .inr ⟨hu, ?_⟩
      rcases h.reach x (h.queued x hx) with hs | ⟨-, s, hs, ht⟩
      · exact ⟨x, hs, .single hxy⟩
      · exact ⟨s, hs, ht.tail hxy⟩
  · exact (hg.next y hy).resolve_left (by simp)
  · rcases hg.expanded x hx with hx | ⟨-, -, hn⟩
    · rcases h.closed x hx with hf | hcl
      · refine .inr fun y hy => hc y ?_
        exact List.mem_flatMap.2 ⟨x, hf, (hE x y).1 hy⟩
      · exact .inr fun y hy => ⟨hg.emittedMono y (hcl y hy).1, fun hu => hg.expandedMono y ((hcl y hy).2 hu)⟩
    · exact .inl hn

/-- What a walk leaves: answers only, each once; all of them unless it was stopped. -/
structure Result (E : TermId → TermId → Prop) (hops : Hops) (emit : TermId → Bool) (seeds emitted : List TermId)
    (w : Walk) : Prop where
  nodup : emitted.Nodup
  sound : ∀ x ∈ emitted, ∃ s ∈ seeds, Reaches E hops s x
  complete : w = .complete → ∀ s ∈ seeds, ∀ x, Reaches E hops s x → x ∈ emitted
  stopped : w = .stopped → ∃ x ∈ emitted, emit x = false

/-- With an empty frontier nothing is left to find. -/
theorem Inv.complete {seeds : List TermId} {st : Sets} (h : Inv E hops seeds [] st) {s x : TermId} (hs : s ∈ seeds)
    (hx : Reaches E hops s x) : x ∈ st.emitted := by
  have hclosed : ∀ x ∈ st.expanded, ∀ y, E x y → y ∈ st.emitted ∧ (hops.unbounded = true → y ∈ st.expanded) :=
    fun x hx => (h.closed x hx).resolve_left List.not_mem_nil
  have htrans : hops.unbounded = true → ∀ {x}, Relation.TransGen E s x → x ∈ st.emitted ∧ x ∈ st.expanded := by
    intro hu x hx
    induction hx with
    | single hy =>
      have := hclosed s (h.seeded s hs).1 _ hy
      exact ⟨this.1, this.2 hu⟩
    | tail _ hy ih =>
      have := hclosed _ ih.2 _ hy
      exact ⟨this.1, this.2 hu⟩
  cases hops with
  | zeroOrMore =>
    rcases Relation.reflTransGen_iff_eq_or_transGen.1 hx with rfl | hx
    · exact (h.seeded _ hs).2 rfl
    · exact (htrans rfl hx).1
  | oneOrMore => exact (htrans rfl hx).1
  | zeroOrOne =>
    rcases hx with rfl | hx
    · exact (h.seeded _ hs).2 rfl
    · exact (hclosed s (h.seeded s hs).1 x hx).1

theorem Inv.result {seeds : List TermId} {st : Sets} (h : Inv E hops seeds [] st) :
    Result E hops emit seeds st.emitted .complete :=
  ⟨h.nodup, h.sound, fun _ _ hs _ hx => h.complete hs hx, by simp⟩

/-- The rounds end with the frontier empty or the walk stopped, within the count: `U`
holds every node that can be queued, and each round but the last queues one. -/
theorem rounds_spec (emit : TermId → Bool) {seeds : List TermId} {U : Finset TermId} (hscan : ∀ x, scan x = (quads x).map .ok)
    (hE : ∀ x y, E x y ↔ y ∈ (quads x).map far) (hU : ∀ x y, E x y → y ∈ U) (fuel : Nat) (frontier : List TermId)
    (st : Sets) (h : Inv E hops seeds frontier st) (hin : ∀ x ∈ st.expanded, x ∈ U)
    (hfuel : frontier ≠ [] → U.card + 2 ≤ fuel + st.expanded.length) :
    ∃ st' w, rounds hops emit scan far fuel frontier st = .ok (st', w) ∧ Result E hops emit seeds st'.emitted w := by
  have hcard : ∀ st : Sets, st.expanded.Nodup → (∀ x ∈ st.expanded, x ∈ U) → st.expanded.length ≤ U.card := by
    intro st hn hin
    rw [← List.toFinset_card_of_nodup hn]
    exact Finset.card_le_card fun x hx => hin x (List.mem_toFinset.1 hx)
  induction fuel generalizing frontier st with
  | zero =>
    obtain rfl : frontier = [] := by
      by_contra hne
      have := hfuel hne
      have := hcard st h.expandedNodup hin
      omega
    exact ⟨st, .complete, rfl, h.result⟩
  | succ fuel ih =>
    cases frontier with
    | nil => exact ⟨st, .complete, rfl, h.result⟩
    | cons x frontier =>
      obtain ⟨st₁, w₁, heq, hg, hc, hs⟩ :=
        expandAll_spec hops emit far hscan (x :: frontier) { st with next := [] }
      simp only [rounds, heq]
      cases w₁ with
      | stopped =>
        refine ⟨st₁, .stopped, rfl, hg.nodup h.nodup, fun y hy => ?_, by simp, fun _ => hs rfl⟩
        rcases hg.emitted y hy with hy | hy
        · exact h.sound y hy
        · obtain ⟨z, hz, hy⟩ := List.mem_flatMap.1 hy
          exact reaches_edge (h.reach z (h.queued z hz)) ((hE z y).2 hy)
      | complete =>
        have h₁ := h.round hE hg (hc rfl)
        have hin₁ : ∀ y ∈ st₁.expanded, y ∈ U := by
          intro y hy
          rcases hg.expanded y hy with hy | ⟨hy, -, -⟩
          · exact hin y hy
          · obtain ⟨z, -, hy⟩ := List.mem_flatMap.1 hy
            exact hU z y ((hE z y).2 hy)
        refine ih st₁.next st₁ h₁ hin₁ fun hne => ?_
        have := hfuel (by simp)
        have := hg.count
        have := List.length_pos_iff.2 hne
        simp only [List.length_nil] at *
        omega

end Rounds

/-! ## Seeds -/

/-- While seeds are taken in: what is queued is what is expanded, and offered exactly when
a seed is an answer. -/
structure Seeded (hops : Hops) (seeds : List TermId) (st : Sets) : Prop where
  nodup : st.emitted.Nodup
  expandedNodup : st.expanded.Nodup
  next : ∀ x, x ∈ st.next ↔ x ∈ st.expanded
  expanded : ∀ x ∈ st.expanded, x ∈ seeds
  emitted : ∀ x ∈ st.emitted, hops.includesSeed = true ∧ x ∈ st.expanded
  offered : hops.includesSeed = true → ∀ x ∈ st.expanded, x ∈ st.emitted

theorem seedAll_spec (hops : Hops) (emit : TermId → Bool) {all : List TermId} (seeds : List TermId) (st : Sets) (h : Seeded hops all st)
    (hall : ∀ s ∈ seeds, s ∈ all) :
    (∃ st', seedAll hops emit seeds st = (st', .complete) ∧ Seeded hops all st' ∧ (∀ s ∈ seeds, s ∈ st'.expanded) ∧
      ∀ x ∈ st.expanded, x ∈ st'.expanded) ∨
    ∃ st', seedAll hops emit seeds st = (st', .stopped) ∧ st'.emitted.Nodup ∧
      (∀ x ∈ st'.emitted, hops.includesSeed = true ∧ x ∈ all) ∧ StoppedAt emit st' := by
  induction seeds generalizing st with
  | nil => exact .inl ⟨st, rfl, h, by simp, fun _ hx => hx⟩
  | cons s seeds ih =>
    have hs : s ∈ all := hall s (by simp)
    have hall' : ∀ t ∈ seeds, t ∈ all := fun t ht => hall t (by simp [ht])
    by_cases hx : s ∈ st.expanded
    · have e : seed hops emit st s = (st, .complete) := by simp [seed, hx]
      simp only [seedAll, e]
      rcases ih st h hall' with ⟨st', heq, h', hin, hsub⟩ | hstop
      · refine .inl ⟨st', heq, h', fun t ht => ?_, hsub⟩
        rcases List.mem_cons.1 ht with rfl | ht
        · exact hsub _ hx
        · exact hin t ht
      · exact .inr hstop
    · have hem : s ∉ st.emitted := fun hm => hx (h.emitted s hm).2
      by_cases hi : hops.includesSeed = true
      · have e : seed hops emit st s = ({ emitted := st.emitted ++ [s], expanded := st.expanded ++ [s], next := st.next ++ [s] },
            if emit s then .complete else .stopped) := by
          simp [seed, hx, hi, hem]
        have h₁ : Seeded hops all { emitted := st.emitted ++ [s], expanded := st.expanded ++ [s], next := st.next ++ [s] } := by
          refine ⟨nodup_concat h.nodup hem, nodup_concat h.expandedNodup hx, fun x => ?_, fun x hm => ?_, fun x hm => ?_,
            fun _ x hm => ?_⟩
          · simp [h.next]
          · rcases List.mem_append.1 hm with hm | hm
            · exact h.expanded x hm
            · rw [List.mem_singleton.1 hm]; exact hs
          · refine ⟨hi, ?_⟩
            rcases List.mem_append.1 hm with hm | hm
            · exact List.mem_append_left _ (h.emitted x hm).2
            · exact List.mem_append_right _ hm
          · rcases List.mem_append.1 hm with hm | hm
            · exact List.mem_append_left _ (h.offered hi x hm)
            · exact List.mem_append_right _ hm
        by_cases hk : emit s = true
        · simp only [seedAll, e, hk, if_true]
          rcases ih _ h₁ hall' with ⟨st', heq, h', hin, hsub⟩ | hstop
          · refine .inl ⟨st', heq, h', fun t ht => ?_, fun x hm => hsub x (List.mem_append_left _ hm)⟩
            rcases List.mem_cons.1 ht with rfl | ht
            · exact hsub _ (by simp)
            · exact hin t ht
          · exact .inr hstop
        · simp only [seedAll, e, hk]
          exact .inr ⟨_, rfl, h₁.nodup, fun x hm => ⟨hi, h₁.expanded x (h₁.emitted x hm).2⟩,
            ⟨s, by simp, by simpa using hk⟩⟩
      · have e : seed hops emit st s = ({ st with expanded := st.expanded ++ [s], next := st.next ++ [s] }, .complete) := by
          simp [seed, hx, hi]
        have h₁ : Seeded hops all { st with expanded := st.expanded ++ [s], next := st.next ++ [s] } := by
          refine ⟨h.nodup, nodup_concat h.expandedNodup hx, fun x => ?_, fun x hm => ?_, fun x hm => ?_,
            fun hi' => absurd hi' hi⟩
          · simp [h.next]
          · rcases List.mem_append.1 hm with hm | hm
            · exact h.expanded x hm
            · rw [List.mem_singleton.1 hm]; exact hs
          · exact absurd (h.emitted x hm).1 hi
        simp only [seedAll, e]
        rcases ih _ h₁ hall' with ⟨st', heq, h', hin, hsub⟩ | hstop
        · refine .inl ⟨st', heq, h', fun t ht => ?_, fun x hm => hsub x (List.mem_append_left _ hm)⟩
          rcases List.mem_cons.1 ht with rfl | ht
          · exact hsub _ (by simp)
          · exact hin t ht
        · exact .inr hstop

theorem reaches_self {s : TermId} (h : hops.includesSeed = true) : Reaches E hops s s := by
  cases hops with
  | zeroOrMore => exact .refl
  | oneOrMore => cases h
  | zeroOrOne => exact .inl rfl

/-! ## The walk through a view -/

/-- Over a view whose scans of the edges do not fail, the walk offers each node the seeds
reach exactly once, unless its consumer stops it. -/
theorem reachable_spec {view : DatasetView} {predicate : TermId} {direction : Direction}
    {graph : Option (Option TermId)} {seeds : List TermId} {quads : TermId → List EncodedQuad}
    (hscan : ∀ x, edges view predicate direction graph x = (quads x).map .ok)
    (hin : ∀ x, ∀ q ∈ quads x, q ∈ view.store.quads) :
    ∃ emitted w, reachable view predicate direction hops graph seeds emit = .ok (emitted, w) ∧
      Result (fun x y => y ∈ (quads x).map direction.far) hops emit seeds emitted w := by
  have h₀ : Seeded hops seeds ⟨[], [], []⟩ := by constructor <;> simp
  unfold reachable
  rcases seedAll_spec hops emit seeds ⟨[], [], []⟩ h₀ (fun _ h => h) with
    ⟨st, heq, h, hsub, -⟩ | ⟨st, heq, hn, hs, hst⟩
  · rw [heq]
    have hU : ∀ x y, y ∈ (quads x).map direction.far → y ∈ st.expanded.toFinset ∪ view.store.quads.image direction.far := by
      intro x y hy
      obtain ⟨q, hq, rfl⟩ := List.mem_map.1 hy
      exact Finset.mem_union_right _ (Finset.mem_image_of_mem _ (hin x q hq))
    have hinv : Inv (fun x y => y ∈ (quads x).map direction.far) hops seeds st.next st :=
      ⟨h.nodup, h.expandedNodup, fun s hs => ⟨hsub s hs, fun hi => h.offered hi s (hsub s hs)⟩,
        fun x hx => ⟨x, h.expanded x (h.emitted x hx).2, reaches_self (h.emitted x hx).1⟩,
        fun x hx => .inl (h.expanded x hx), fun x hx => (h.next x).1 hx, fun x hx => .inl ((h.next x).2 hx)⟩
    obtain ⟨st', w, hr, hres⟩ := rounds_spec emit hscan (fun _ _ => Iff.rfl) hU (view.store.quads.card + 2) st.next st hinv
      (fun x hx => Finset.mem_union_left _ (List.mem_toFinset.2 hx)) (fun _ => by
        have h₁ := Finset.card_union_le st.expanded.toFinset (view.store.quads.image direction.far)
        have h₂ := Finset.card_image_le (s := view.store.quads) (f := direction.far)
        rw [List.toFinset_card_of_nodup h.expandedNodup] at h₁
        omega)
    exact ⟨st'.emitted, w, by simp only [hr]; rfl, hres⟩
  · rw [heq]
    exact ⟨st.emitted, .stopped, rfl, hn, fun x hx => ⟨x, (hs x hx).2, reaches_self (hs x hx).1⟩, by simp, fun _ => hst⟩

end Holos.Engine.Reach
