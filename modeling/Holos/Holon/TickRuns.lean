import Holos.Holon.Branch
import Holos.Holon.TickTheorems
import Holos.Store.MemoryBackend
/-!
# Runs of ticks

Each tick of a run has a scope of its own. One that fails leaves what was there; one that comes
through is a `Ticked`, so the scene is what the log of admitted ticks says when it is replayed.
-/

namespace Holos

open Lib Lib.Eff Security Shacl

variable {B : Backend} {Sim : B.State → Held → Prop} {Open : B.State → Contents × Ids → Prop} {E : RuleEngine}
variable {c : Contents × Ids} {x : Option (Rules E)} {w : Ticking B E} {h : Held} {holon : Holon}

/-! ## One tick -/

theorem fireRules_at {x' : Option (Rules E)} {changes : List Change} (hw : World.At Sim c x' w h) (L : B.Lawful Sim Open) :
    wp (fireRules holon changes : Eff HolonError (Ticking B E) (List Triple)) (fun _ w' => ∃ x'', World.At Sim c x'' w' h)
      (World.Stuck Open c (fun _ => True)) w := by
  refine wp_of (fun a w' hrun => ?_) (fun e w' hrun => ?_)
  · split at hrun
    · cases hrun
      exact ⟨x', hw⟩
    · obtain ⟨r, -, heq⟩ := Option.map_eq_some_iff.1 hrun
      obtain ⟨-, rfl⟩ := Prod.mk.inj heq
      exact ⟨_, hw.sim, hw.saved, hw.decodes, rfl⟩
  · split at hrun
    · cases hrun
    · obtain ⟨r, -, heq⟩ := Option.map_eq_some_iff.1 hrun
      obtain ⟨-, rfl⟩ := Prod.mk.inj heq
      exact ⟨L.opened hw.sim hw.saved, trivial⟩

/-- Whatever the rules infer. -/
theorem fires_any (L : B.Lawful Sim Open) {delta : Delta} :
    Fires (B := B) Sim Open c x (fun _ => True) holon delta h (fun _ _ _ => True) := by
  intro w h₁ asked hw _ _
  exact (fireRules_at hw L).mono (fun _ _ ⟨x', hw'⟩ => ⟨x', hw', trivial, trivial⟩) (fun _ _ h => h)

/-- Settling the rules is not the store's business. -/
theorem settleRules_wp {committed : Bool} {Q : Unit → Ticking B E → Prop} {F : HolonError → Ticking B E → Prop}
    (hQ : ∀ w', w'.store = w.store → Q () w') : wp (settleRules committed : Eff HolonError (Ticking B E) Unit) Q F w := by
  refine wp_of (fun a w' hrun => ?_) (fun e w' hrun => ?_)
  · split at hrun
    · cases hrun
      exact hQ w rfl
    · obtain ⟨r, -, heq⟩ := Option.map_eq_some_iff.1 hrun
      obtain ⟨-, rfl⟩ := Prod.mk.inj heq
      exact hQ _ rfl
  · split at hrun
    · cases hrun
    · obtain ⟨r, -, heq⟩ := Option.map_eq_some_iff.1 hrun
      cases heq

/-- A store between commits. -/
structure Settled (Sim : B.State → Held → Prop) (s : B.State) (h : Held) : Prop where
  sim : Sim s h
  saved : h.saved = none
  decodes : h.Decodes

/-- A store between commits with the contents of `h`. -/
def Unchanged (Sim : B.State → Held → Prop) (h : Held) (s' : B.State) : Prop :=
  ∃ h', Settled Sim s' h' ∧ h.ids ≤ h'.ids ∧ h'.contents = h.contents

theorem tickWithRules_wp (L : B.Lawful Sim Open) (hs : Settled Sim w.store h) {V : Validation B} {lands : Bool} {now : Int}
    {delta : Delta} (ha : holon.Apart) {v : Nat} (hv : Registry.Versioned h.all holon.id v) :
    wp (tickWithRules holon lands V now delta : Eff HolonError (Ticking B E) (TickOutcome V.Report))
      (fun o w' => ∃ h' r, Settled Sim w'.store h' ∧ h.ids ≤ h'.ids ∧ Ticked holon v h.all h'.all r ∧ o.version = r.version ∧
        o.admitted = r.admitted)
      (fun _ w' => Unchanged Sim h w'.store) w := by
  have hback : ∀ w' : Ticking B E, Registry.Restored Sim h (fun _ => True) w' →
      Unchanged Sim h w'.store := by
    intro w' hr
    obtain ⟨h', hi, hle, hcontents, -, -⟩ := hr.idle hs.decodes
    exact ⟨h', ⟨hi.sim, hi.saved, hi.decodes⟩, hle, hcontents⟩
  unfold tickWithRules
  refine Registry.scoped_wp L (x := w.extra) (R := fun _ => True) ⟨hs.sim, hs.saved, hs.decodes, rfl⟩ trivial
    (P := fun o h' _ => ∃ r, h.ids ≤ h'.ids ∧ Ticked holon v h.all h'.all r ∧ o.version = r.version ∧ o.admitted = r.admitted)
    (fun w₁ hw₁ => ?_) (fun o w' h' x' hw' hpost => ?_) (fun e w' hr => ?_) (fun e => ⟨h, hs, le_rfl, rfl⟩) (fun e w' _ hr => hback w' hr)
  · refine tickBody_at L trivial hw₁ ha hv (fires_any L) (fun o w' h' r asked inferred added x' hw' hle ht _ _ _ _ ho hadm => ?_)
    exact ⟨h', x', hw', ⟨r, hle, ht, ho, hadm⟩, trivial⟩
  · obtain ⟨r, hle, ht, ho, hadm⟩ := hpost
    apply wp_bind
    refine settleRules_wp (fun w'' hstore => wp_pure ⟨_, r, ⟨?_, hw'.saved, hw'.decodes⟩, hle, ht, ho, hadm⟩)
    rw [hstore]
    exact hw'.sim
  · apply wp_bind
    refine settleRules_wp (fun w'' hstore => wp_throw ?_)
    rw [hstore]
    exact hback w' hr

/-! ## Runs -/

/-- What a caller gives a tick. -/
structure TickCall (E : RuleEngine) where
  lands : Bool
  now : Int
  session : Session
  rules : Option (Rules E)
  delta : Delta

/-- The call on a store: its result and the store afterwards. -/
def TickCall.run (call : TickCall E) (V : Validation B) (holon : Holon) (s : B.State) :
    Option (Except HolonError (TickOutcome V.Report) × B.State) :=
  ((tickWithRules holon call.lands V call.now call.delta).exec ⟨s, call.session, call.rules⟩).map (fun r => (r.1, r.2.store))

/-- Ticks of one holon, one after another. -/
inductive Ticks (E : RuleEngine) (V : Validation B) (holon : Holon) (s₀ : B.State) :
    List (Except HolonError (TickOutcome V.Report)) → B.State → Prop where
  | nil : Ticks E V holon s₀ [] s₀
  | tick {rs s} (call : TickCall E) {r s'} (hrun : Ticks E V holon s₀ rs s) (htick : call.run V holon s = some (r, s')) :
      Ticks E V holon s₀ (rs ++ [r]) s'

/-- What a tick did to what the store holds. -/
structure TickDid (holon : Holon) (v : Nat) (h h' : Held) (r : TickRecord) : Prop where
  effective : Edit.Effective (h.graph holon.scene) r.triples
  refused : r.admitted = false → h'.graph holon.scene = h.graph holon.scene
  admitted : r.admitted = true → h'.graph holon.scene = Edit.replay (h.graph holon.scene) r.triples
  event : ∀ q, q.graphName = .namedNode holon.events → (q ∈ h'.all ↔ q ∈ h.all ∨ q ∈ Event.toQuads r)
  number : r.version = v + 1
  version : Registry.Versioned h'.all holon.id (v + 1)

theorem Ticked.did {v : Nat} {h h' : Held} {r : TickRecord} (ht : Ticked holon v h.all h'.all r) (ha : holon.Apart)
    (hv : Registry.Versioned h.all holon.id v) : TickDid holon v h h' r where
  effective := ht.effective_scene
  refused hr := by
    rw [ht.graph_scene ha, TickRecord.keptTriples, if_neg (by rw [hr]; decide)]
    rfl
  admitted hr := by rw [ht.graph_scene ha, TickRecord.keptTriples, if_pos hr]
  event _ hq := ht.mem_events ha hq
  number := ht.version
  version := ht.versioned ha hv

/-- What the log of a run says, and what the store holds after it. -/
structure Logged (holon : Holon) (v₀ : Nat) (h₀ h : Held) (log : List TickRecord) : Prop where
  numbers : log.map TickRecord.version = List.range' (v₀ + 1) log.length
  version : Registry.Versioned h.all holon.id (v₀ + log.length)
  scene : h.graph holon.scene = Edit.replay (h₀.graph holon.scene) (log.flatMap TickRecord.keptTriples)
  events : ∀ q, q.graphName = .namedNode holon.events → (q ∈ h.all ↔ q ∈ h₀.all ∨ ∃ r ∈ log, q ∈ Event.toQuads r)

/-- A tick that failed is not in the log. -/
theorem Logged.congr {v₀ : Nat} {h₀ h h' : Held} {log : List TickRecord} (hl : Logged holon v₀ h₀ h log) (hall : h'.all = h.all) :
    Logged holon v₀ h₀ h' log where
  numbers := hl.numbers
  version := by rw [hall]; exact hl.version
  scene := by
    rw [← hl.scene]
    exact congrArg (Set.preimage _) hall
  events q hq := by rw [hall]; exact hl.events q hq

theorem Logged.tick {v₀ : Nat} {h₀ h h' : Held} {log : List TickRecord} {r : TickRecord} (hl : Logged holon v₀ h₀ h log)
    (ha : holon.Apart) (ht : Ticked holon (v₀ + log.length) h.all h'.all r) : Logged holon v₀ h₀ h' (log ++ [r]) where
  numbers := by
    rw [List.map_append, hl.numbers, List.length_append, List.length_singleton, List.range'_concat, List.map_singleton, ht.version]
    congr 2
    omega
  version := by
    rw [List.length_append, List.length_singleton, ← Nat.add_assoc]
    exact ht.versioned ha hl.version
  scene := by
    rw [ht.graph_scene ha, hl.scene, List.flatMap_append, Edit.replay_append, List.flatMap_singleton]
  events q hq := by
    rw [ht.mem_events ha hq, hl.events q hq]
    simp only [List.mem_append, List.mem_singleton]
    constructor
    · rintro ((hq | ⟨r', hr', hq⟩) | hq)
      · exact .inl hq
      · exact .inr ⟨r', .inl hr', hq⟩
      · exact .inr ⟨r, .inr rfl, hq⟩
    · rintro (hq | ⟨r', hr' | rfl, hq⟩)
      · exact .inl (.inl hq)
      · exact .inl (.inr ⟨r', hr', hq⟩)
      · exact .inr hq

/-- The results of a run are those of its log. -/
def Answers {Report : Type} (rs : List (Except HolonError (TickOutcome Report))) (log : List TickRecord) : Prop :=
  (rs.filterMap Except.toOption).map (fun o => (o.version, o.admitted)) = log.map (fun r => (r.version, r.admitted))

theorem TickCall.run_spec (L : B.Lawful Sim Open) {V : Validation B} {s s' : B.State} (hs : Settled Sim s h) (ha : holon.Apart)
    {v : Nat} (hv : Registry.Versioned h.all holon.id v) {call : TickCall E} {r : Except HolonError (TickOutcome V.Report)}
    (hrun : call.run V holon s = some (r, s')) :
    (∃ e, r = .error e ∧ Unchanged Sim h s') ∨ (∃ o h' record, r = .ok o ∧ Settled Sim s' h' ∧ h.ids ≤ h'.ids ∧
      Ticked holon v h.all h'.all record ∧ o.version = record.version ∧ o.admitted = record.admitted) := by
  obtain ⟨⟨r', w'⟩, hexec, heq⟩ := Option.map_eq_some_iff.1 hrun
  obtain ⟨rfl, rfl⟩ := Prod.mk.inj heq
  have hwp : wp (tickWithRules holon call.lands V call.now call.delta) _ _ (⟨s, call.session, call.rules⟩ : Ticking B E) :=
    tickWithRules_wp L hs ha hv
  cases r' with
  | error e => exact .inl ⟨e, rfl, hwp.error hexec⟩
  | ok o =>
    obtain ⟨h', record, hs', hle, ht, ho, hadm⟩ := hwp.ok hexec
    exact .inr ⟨o, h', record, rfl, hs', hle, ht, ho, hadm⟩

theorem ticks_logged (L : B.Lawful Sim Open) {V : Validation B} {s₀ s : B.State} {h₀ : Held} (hs₀ : Settled Sim s₀ h₀)
    (ha : holon.Apart) {v₀ : Nat} (hv : Registry.Versioned h₀.all holon.id v₀)
    {rs : List (Except HolonError (TickOutcome V.Report))} (hrun : Ticks E V holon s₀ rs s) :
    ∃ h log, Settled Sim s h ∧ Logged holon v₀ h₀ h log ∧ Answers rs log := by
  induction hrun with
  | nil => exact ⟨h₀, [], hs₀, ⟨rfl, hv, rfl, by simp⟩, rfl⟩
  | tick call hrun htick ih =>
    obtain ⟨h, log, hs, hl, hans⟩ := ih
    rcases call.run_spec L hs ha hl.version htick with ⟨e, rfl, h', hs', hle, hcontents⟩ | ⟨o, h', record, rfl, hs', -, ht, ho, hadm⟩
    · refine ⟨h', log, hs', hl.congr (Held.all_of_contents hcontents hle hs.decodes), ?_⟩
      unfold Answers at hans ⊢
      rw [List.filterMap_append, List.filterMap_cons_none rfl, List.filterMap_nil, List.append_nil]
      exact hans
    · refine ⟨h', log ++ [record], hs', hl.tick ha ht, ?_⟩
      unfold Answers at hans ⊢
      rw [List.filterMap_append, List.map_append, hans, List.map_append]
      simp [Except.toOption, ho, hadm]

namespace InMemory

abbrev Memory := MemoryStorage.backend Dictionary.bare

/-- A session that may do anything. -/
def session : Session :=
  ⟨⟨"urn:user", ∅, [], none⟩, ⟨.allow, .filter, [], [], Label.default⟩, ⟨.allow, .filter, none, [], [], [], [], false, 0, []⟩⟩

/-- Rules that infer nothing. -/
def rules : RuleEngine := ⟨Unit, fun _ => .ok (), fun _ _ _ => .ok []⟩

/-- A boundary that refuses everything. -/
def refusing : Validation Memory := ⟨Unit, Nat, fun _ _ => .ok (), fun _ => false, fun _ _ _ => .ok 1, id⟩

def parent : Holon := Holon.new "urn:parent"

def child : Holon := parent.child "urn:child"

/-- Nothing asked of a tick. -/
def call : TickCall rules := ⟨true, 0, session, none, ⟨[], []⟩⟩

/-- The store after the parent is registered and branched, and the child's version in it. -/
def branched : Option (Nat × MemoryStorage) :=
  let program : Eff HolonError (World Memory Unit) Nat := do
    Registry.register true parent
    let _ ← branch true 0 parent "urn:child"
    Registry.version child
  (program.exec ⟨.new, session, ()⟩).bind (fun r => r.1.toOption.map (fun v => (v, r.2.store)))

/-- A tick of the child with nothing to change, and the child's version after it. -/
def ticked : Option (Nat × Bool × Nat) :=
  let program : Eff HolonError (Ticking Memory rules) (Nat × Bool × Nat) := do
    let outcome ← tickWithRules child call.lands refusing call.now call.delta
    return (outcome.version, outcome.admitted, ← Registry.version child)
  branched.bind (fun b => (program.exec ⟨b.2, session, none⟩).bind (fun r => r.1.toOption))

theorem new_settled : Settled (B := Memory) (MemoryStorage.Stands Dictionary.bare) .new
    ⟨.empty, MemoryStorage.idsOf Dictionary.bare_lawful Dictionary.new_valid, none⟩ :=
  ⟨MemoryStorage.new_stands Dictionary.bare_lawful, rfl, fun e he => by cases he⟩

theorem new_all : (⟨.empty, MemoryStorage.idsOf Dictionary.bare_lawful Dictionary.new_valid, none⟩ : Held).all = ∅ :=
  Set.eq_empty_of_forall_notMem (fun _ ⟨e, _, he⟩ => Finset.notMem_empty e he)

end InMemory

end Holos
