import Holos.Engine.UpdateTheorems
import Holos.Store.MemoryBackend
/-!
# Runs of an update

An update that fails leaves the store as it was, whatever it had written. One that returns did its
operations in order, each on what the one before left. `Runs.changed` follows a quad through them:
what is lost was allowed to be, unless its graph was dropped, and so was what is gained.
-/

namespace Holos.Engine.Update

open Lib Lib.Eff Security

variable {B : Backend} {Sim : B.State → Held → Prop} {Open : B.State → Contents × Ids → Prop}

/-! ## In a scope -/

/-- No silent operation meets a failure of the store, which it would pass over. -/
def Heard (O : Outside B) : List Operation → World B UpdateOutcome → Prop
  | [], _ => True
  | op :: ops, w => (op.silent = true → ∀ e w', (perform O op).exec w = some (.error e, w') → e.ofStore = false) ∧
      ∀ w', (applyOne O op).exec w = some (.ok (), w') → Heard O ops w'

/-- No graph is dropped. -/
def DropsNone (ops : List Operation) : Prop := ∀ silent target, .drop silent target ∉ ops

section
variable {w₀ w : World B UpdateOutcome} {h₀ h : Held} (L : B.Lawful Sim Open)
include L

/-- An operation is performed, or is passed over and has changed nothing. -/
theorem applyOne_acting (hw : Acting Sim w₀ h₀ w h) (O : Outside B) {op : Operation}
    (hheard : op.silent = true → ∀ e w', (perform O op).exec w = some (.error e, w') → e.ofStore = false) :
    wp (applyOne O op) (fun _ w' => ∃ h', Acting Sim w₀ h₀ w' h' ∧
      (Performs Sim O w₀.session h₀ op h h' ∨ op.silent = true ∧ h' = h ∧ Skips Sim O w₀.session h₀ op h) ∧
      ((∀ silent target, op ≠ .drop silent target) → surplus w' h' = surplus w h)) (fun _ _ => True) w := by
  have hperform := perform_acting L hw O op
  apply wp_bind
  apply wp_attempt
  intro r w' hrun
  cases r with
  | ok u =>
    obtain ⟨h', hw', hdone, hsum⟩ := hperform.ok hrun
    exact wp_pure ⟨h', hw', .inl hdone, hsum⟩
  | error e =>
    change wp (silence (.error e) op.silent) _ _ w'
    unfold silence
    split
    · exact wp_throw trivial
    · rename_i e' hdenied heq
      cases heq
      apply wp_ite
      · intro hsilent
        rcases hperform.error hrun hsilent with (rfl | hstore) | ⟨rfl, hskips⟩
        · exact absurd rfl hdenied
        · rw [hheard hsilent e w' hrun] at hstore
          cases hstore
        · exact wp_pure ⟨h, hw, .inr ⟨hsilent, rfl, hskips⟩, fun _ => rfl⟩
      · exact fun _ => wp_throw trivial
    · rename_i heq
      cases heq

theorem applyEach_acting (O : Outside B) {ops : List Operation} (hw : Acting Sim w₀ h₀ w h) (hheard : Heard O ops w) :
    wp (applyEach O ops) (fun _ w' => ∃ h', Acting Sim w₀ h₀ w' h' ∧ Runs Sim O w₀.session h₀ ops h h' ∧
      (DropsNone ops → surplus w' h' = surplus w h)) (fun _ _ => True) w := by
  induction ops generalizing w h with
  | nil => exact wp_pure ⟨h, hw, .nil, fun _ => rfl⟩
  | cons op ops ih =>
    change wp (applyOne O op >>= fun _ => applyEach O ops) _ _ w
    apply wp_bind
    intro r w₁ hrun
    cases r with
    | error e => trivial
    | ok u =>
      obtain ⟨h₁, hw₁, hdone, hsum₁⟩ := (applyOne_acting L hw O hheard.1).ok hrun
      refine (ih hw₁ (hheard.2 w₁ hrun)).mono ?_ (fun _ _ h => h)
      rintro - w' ⟨h', hw', hruns, hsum⟩
      refine ⟨h', hw', ?_, fun hno => ?_⟩
      · rcases hdone with hdone | ⟨hsilent, rfl, hskips⟩
        · exact .cons hdone hruns
        · exact .skip hsilent hskips hruns
      · rw [hsum (fun silent target hmem => hno silent target (.tail _ hmem))]
        exact hsum₁ (fun silent target heq => hno silent target (heq ▸ .head _))

end

/-! ## In its own scope -/

section
variable {O : Outside B} {session : Session} {h₀ h h' : Held} {qs : List Quad} {target : GraphTarget} {op : Operation} {ops : List Operation}

/-! What the scope would go back to plays no part in what an operation does. -/

theorem Inserted.closed (hins : Inserted Sim session h₀ qs h h') : Inserted Sim session h₀ qs { h with saved := none } { h' with saved := none } :=
  ⟨hins.ids, hins.all, hins.names, hins.written⟩

theorem Removed.closed (hrem : Removed Sim session h₀ qs h h') : Removed Sim session h₀ qs { h with saved := none } { h' with saved := none } :=
  ⟨hrem.ids, hrem.all, hrem.names, hrem.written, hrem.read⟩

theorem exists_closed : Exists { h with saved := none } target ↔ Exists h target := by
  cases target <;> exact Iff.rfl

theorem dropped_closed : dropped { h with saved := none } target = dropped h target := by
  cases target <;> rfl

theorem shown_closed {p : CompiledPolicy} : shown p { h with saved := none } target = shown p h target := by
  have hshows : ∀ name e, Shows p { h with saved := none } name e ↔ Shows p h name e := fun name e =>
    ⟨fun hs => ⟨hs.stored, hs.graph, hs.admitted, hs.allowed⟩, fun hs => ⟨hs.stored, hs.graph, hs.admitted, hs.allowed⟩⟩
  cases target <;> simp only [shown, hshows]

theorem Cleared.closed (hcleared : Cleared Sim session h₀ target h h') :
    Cleared Sim session h₀ target { h with saved := none } { h' with saved := none } := by
  obtain ⟨hexists, p, qs, hp, hqs, hrem⟩ := hcleared
  exact ⟨exists_closed.2 hexists, p, qs, hp, hqs.trans shown_closed.symm, hrem.closed⟩

theorem Performs.closed (hdone : Performs Sim O session h₀ op h h') :
    Performs Sim O session h₀ op { h with saved := none } { h' with saved := none } := by
  cases op with
  | insertData data => exact Inserted.closed hdone
  | deleteData data => exact Removed.closed hdone
  | deleteInsert request =>
    obtain ⟨p, s, saved, delta, mid, hp, hs, hdelta, hrem, hins⟩ := hdone
    exact ⟨p, s, saved, delta, { mid with saved := none }, hp, hs, hdelta, hrem.closed, hins.closed⟩
  | load silent source destination =>
    obtain ⟨quads, hdoc, hins⟩ := hdone
    exact ⟨quads, hdoc, hins.closed⟩
  | clear silent target => exact Cleared.closed hdone
  | create silent n => exact hdone
  | drop silent target =>
    obtain ⟨mid, hcleared, hle, hall, hnames⟩ := hdone
    refine ⟨{ mid with saved := none }, hcleared.closed, hle, ?_, ?_⟩
    · rw [dropped_closed]
      exact hall
    · rw [dropped_closed]
      exact hnames

theorem Skips.closed (hskips : Skips Sim O session h₀ op h) : Skips Sim O session h₀ op { h with saved := none } := by
  cases op with
  | clear silent target => exact hskips.imp_left (mt exists_closed.1)
  | drop silent target => exact hskips.imp_left (mt exists_closed.1)
  | insertData data => exact hskips
  | deleteData data => exact hskips
  | deleteInsert request => exact hskips
  | load silent source destination => exact hskips
  | create silent n => exact hskips

theorem Runs.closed (hruns : Runs Sim O session h₀ ops h h') : Runs Sim O session h₀ ops { h with saved := none } { h' with saved := none } := by
  induction hruns with
  | nil => exact .nil
  | cons hdone _ ih => exact .cons hdone.closed ih
  | skip hsilent hskips _ ih => exact .skip hsilent hskips.closed ih

end

section
variable {w : World B UpdateOutcome} {h : Held} (L : B.Lawful Sim Open) (hw : Resting Sim w h)
include L hw

omit L in
/-- Back to what there was, with the ids that were given out. -/
theorem Resting.back {w' : World B UpdateOutcome} {ids : Ids} (hle : h.ids ≤ ids) (hs : Sim w'.store ⟨h.contents, ids, none⟩) :
    ∃ h', Resting Sim w' h' ∧ h.ids ≤ h'.ids ∧ h'.contents = h.contents :=
  ⟨_, ⟨hs, rfl, hw.decodes.grow hle, hw.catalogued.grow hle⟩, hle, rfl⟩

/-- Whatever was written, a failure takes it back. -/
theorem apply_back (O : Outside B) (lands : Bool) (ops : List Operation) : wp (apply O lands ops) (fun _ _ => True)
    (fun _ w' => ∃ h', Resting Sim w' h' ∧ h.ids ≤ h'.ids ∧ h'.contents = h.contents) w := by
  unfold apply
  apply wp_bind
  apply World.inScope_reads L hw.sim
  rw [hw.saved]
  apply wp_bind
  refine World.begin_wp L hw.sim (fun s _ hs => ?_) (fun _ => ⟨h, hw, le_rfl, rfl⟩)
  have hopen : Open s (h.contents, h.ids) := L.opened hs rfl
  apply wp_bind
  intro r w₁ hrun
  cases hrun
  apply wp_bind
  apply wp_attempt
  refine (Keeps.wp (applyEach_open L O ops) (s := { store := s, session := w.session, extra := .default }) hopen).mono ?_ ?_
  · intro _ w₂ hopen₂
    apply wp_bind
    refine wp_of (fun _ _ _ => ?_) (fun e w' hcommit => ?_)
    · exact wp_of (fun _ _ _ => trivial) (fun e s' hget => by cases hget)
    · obtain ⟨hr, rfl⟩ := Prod.mk.inj (Option.some.inj hcommit)
      cases hres : B.commit lands w₂.store with
      | mk r s =>
        rw [hres] at hr
        cases r with
        | ok u => cases hr
        | error e =>
          obtain ⟨ids, hle, hs⟩ := L.commit_error hopen₂ hres
          exact Resting.back hw hle hs
  · intro e w₂ hopen₂
    apply wp_bind
    refine World.rollback_wp L hopen₂ (fun s ids hle hs => wp_throw (Resting.back hw hle hs))

/-- What an update that returns has done, and counted. -/
theorem apply_done (O : Outside B) (lands : Bool) (ops : List Operation)
    (hheard : ∀ s, B.begin w.store = .ok s → Heard O ops { store := s, session := w.session, extra := .default }) :
    wp (apply O lands ops) (fun outcome w' => ∃ h', Resting Sim w' h' ∧ Runs Sim O w.session h ops h h' ∧
      (DropsNone ops → h'.contents.quads.card + outcome.deleted = h.contents.quads.card + outcome.inserted)) (fun _ _ => True) w := by
  obtain ⟨hs, hsaved, hdecodes, hcatalogued⟩ := hw
  obtain ⟨contents, ids, saved⟩ := h
  cases hsaved
  unfold apply
  apply wp_bind
  apply World.inScope_reads L hs
  apply wp_bind
  refine wp_of (fun _ w₁ hbegin => ?_) (fun _ _ _ => trivial)
  cases hb : B.begin w.store with
  | error e =>
    rw [hb] at hbegin
    cases hbegin
  | ok s =>
    rw [hb] at hbegin
    cases hbegin
    apply wp_bind
    intro r w₁ hrun
    cases hrun
    have hacting : Acting Sim w ⟨contents, ids, none⟩ { store := s, session := w.session, extra := .default } ⟨contents, ids, some (contents, ids)⟩ :=
      ⟨(L.begin hs hb).2, rfl, hdecodes, hcatalogued, le_rfl, rfl, rfl, .inl rfl⟩
    apply wp_bind
    apply wp_attempt
    refine (applyEach_acting L O hacting (hheard s hb)).mono ?_ ?_
    · rintro - w₂ ⟨h₂, hw₂, hruns, hsum⟩
      apply wp_bind
      refine World.commit_wp L hw₂.sim hw₂.saved (fun s₃ hs₃ => ?_) (fun _ _ _ _ _ => trivial)
      intro r w₃ hrun
      cases hrun
      refine ⟨_, ⟨hs₃, rfl, hw₂.decodes, hw₂.catalogued⟩, hruns.closed, fun hno => ?_⟩
      have hcount := hsum hno
      simp only [surplus, UpdateOutcome.default] at hcount
      dsimp only
      omega
    · intro e w₂ _
      exact wp_bind (wp_of (fun _ _ _ => wp_throw trivial) (fun _ _ _ => trivial))

end

/-! ## On an empty store -/

namespace OnEmpty

abbrev Memory := MemoryStorage.backend Dictionary.bare

def outside : Outside Memory := ⟨⟨Unit, List Quad, fun _ _ quads => (quads, none)⟩, fun _ => .error "", fun _ _ _ => .ok []⟩

/-- Everything may be read and written. -/
def session : Session :=
  ⟨⟨"urn:user", ∅, [], none⟩, ⟨.allow, .filter, [], [], Label.default⟩, ⟨.allow, .filter, none, [], [], [], [], false, 0, []⟩⟩

def start : World Memory UpdateOutcome := ⟨.new, session, .default⟩

noncomputable def held : Held := ⟨.empty, MemoryStorage.idsOf Dictionary.bare_lawful Dictionary.new_valid, none⟩

theorem start_resting : Resting (B := Memory) (MemoryStorage.Stands Dictionary.bare) start held := by
  refine ⟨MemoryStorage.new_stands Dictionary.bare_lawful, rfl, ?_, ?_⟩
  · intro e he
    cases he
  · intro g hg
    cases hg

/-- One quad twice, and a graph. -/
def operations : List Operation :=
  [.insertData [⟨.namedNode "urn:s", "urn:p", .namedNode "urn:o", .defaultGraph⟩, ⟨.namedNode "urn:s", "urn:p", .namedNode "urn:o", .defaultGraph⟩],
    .create false "urn:g"]

theorem ran : ∃ w', (apply outside true operations).exec start = some (.ok ⟨1, 0, 1, 0⟩, w') := by
  have hsome : ((apply outside true operations).exec start).map (fun r => r.1.toOption) = some (some ⟨1, 0, 1, 0⟩) := by decide +kernel
  obtain ⟨⟨r, w'⟩, hrun, hr⟩ := Option.map_eq_some_iff.1 hsome
  cases r with
  | error e => cases hr
  | ok outcome =>
    cases hr
    exact ⟨w', hrun⟩

end OnEmpty

/-- No operation that is not silent passes anything over. -/
theorem heard_of_loud {O : Outside B} {ops : List Operation} (h : ∀ op ∈ ops, op.silent = false) (w : World B UpdateOutcome) : Heard O ops w := by
  induction ops generalizing w with
  | nil => trivial
  | cons op ops ih =>
    obtain ⟨hop, hops⟩ := List.forall_mem_cons.1 h
    refine ⟨fun hsilent => ?_, fun w' _ => ih hops w'⟩
    rw [hop] at hsilent
    cases hsilent

/-- A `DROP` of a target may take quads of this graph with it. -/
def GraphTarget.covers : GraphTarget → GraphName → Prop
  | .namedNode n, name => name = .namedNode n
  | .defaultGraph, _ => False
  | _, name => ∃ n, name = .namedNode n

/-- What became of the quads: nothing came or went but what a policy of the session allowed, or a `DROP` took. -/
structure Changed (Sim : B.State → Held → Prop) (session : Session) (h₀ : Held) (drops : GraphName → Prop) (h h' : Held) : Prop where
  ids : h.ids ≤ h'.ids
  gained : ∀ q ∈ h'.all, q ∉ h.all → Allowed Sim session h₀ h'.ids q Modes.write
  lost : ∀ q ∈ h.all, q ∉ h'.all → Allowed Sim session h₀ h'.ids q Modes.write ∧ Allowed Sim session h₀ h'.ids q Modes.read ∨ drops q.graphName

section
variable {session : Session} {h₀ h mid h' : Held} {drops : GraphName → Prop} {qs : List Quad}

theorem Changed.refl : Changed Sim session h₀ drops h h := ⟨le_rfl, fun _ hq hno => absurd hq hno, fun _ hq hno => absurd hq hno⟩

theorem Changed.trans (h₁ : Changed Sim session h₀ drops h mid) (h₂ : Changed Sim session h₀ drops mid h') :
    Changed Sim session h₀ drops h h' := by
  refine ⟨h₁.ids.trans h₂.ids, fun q hq hno => ?_, fun q hq hno => ?_⟩
  · by_cases hmid : q ∈ mid.all
    · exact (h₁.gained q hmid hno).mono h₂.ids
    · exact h₂.gained q hq hmid
  · by_cases hmid : q ∈ mid.all
    · exact h₂.lost q hmid hno
    · exact (h₁.lost q hq hmid).imp_left (fun ha => ⟨ha.1.mono h₂.ids, ha.2.mono h₂.ids⟩)

theorem Inserted.changed (hins : Inserted Sim session h₀ qs h h') : Changed Sim session h₀ drops h h' := by
  refine ⟨hins.ids, fun q hq hno => ?_, fun q hq hno => ?_⟩
  · rw [hins.all] at hq
    exact hins.written q (hq.resolve_left hno)
  · rw [hins.all] at hno
    exact absurd (.inl hq) hno

theorem Removed.changed (hrem : Removed Sim session h₀ qs h h') : Changed Sim session h₀ drops h h' := by
  refine ⟨hrem.ids, fun q hq hno => ?_, fun q hq hno => ?_⟩
  · rw [hrem.all] at hq
    exact absurd hq.1 hno
  · rw [hrem.all] at hno
    have hmem : q ∈ qs := by
      by_contra hnot
      exact hno ⟨hq, hnot⟩
    exact .inl ⟨hrem.written q hmem, hrem.read q hmem⟩

theorem Performs.changed {O : Outside B} {op : Operation} (hdone : Performs Sim O session h₀ op h h') :
    Changed Sim session h₀ (fun name => ∃ silent target, op = .drop silent target ∧ target.covers name) h h' := by
  cases op with
  | insertData data => exact Inserted.changed hdone
  | deleteData data => exact Removed.changed hdone
  | deleteInsert request =>
    obtain ⟨p, s, saved, delta, mid, -, -, -, hrem, hins⟩ := hdone
    exact hrem.changed.trans hins.changed
  | load silent source destination =>
    obtain ⟨quads, -, hins⟩ := hdone
    exact hins.changed
  | clear silent target =>
    obtain ⟨-, p, qs, -, -, hrem⟩ := hdone
    exact hrem.changed
  | create silent n =>
    obtain ⟨-, hle, hall, -⟩ := hdone
    exact ⟨hle, fun q hq hno => absurd (hall ▸ hq) hno, fun q hq hno => absurd (hall ▸ hq) hno⟩
  | drop silent target =>
    obtain ⟨mid, ⟨-, p, qs, -, -, hrem⟩, hle, hall, -⟩ := hdone
    refine hrem.changed.trans ⟨hle, fun q hq hno => ?_, fun q hq hno => .inr ⟨silent, target, rfl, ?_⟩⟩
    · rw [hall] at hq
      exact absurd hq.1 hno
    · have hgone : q.graphName ∈ dropped mid target := by
        by_contra hnot
        rw [hall] at hno
        exact hno ⟨hq, hnot⟩
      cases target with
      | namedNode n => exact hgone
      | defaultGraph => exact hgone
      | namedGraphs => exact hgone.2
      | allGraphs => exact hgone.2

theorem Changed.weaken {drops' : GraphName → Prop} (hc : Changed Sim session h₀ drops h h') (hle : ∀ name, drops name → drops' name) :
    Changed Sim session h₀ drops' h h' :=
  ⟨hc.ids, hc.gained, fun q hq hno => (hc.lost q hq hno).imp_right (hle _)⟩

theorem Runs.changed {O : Outside B} {ops : List Operation} (hruns : Runs Sim O session h₀ ops h h') :
    Changed Sim session h₀ (fun name => ∃ silent target, .drop silent target ∈ ops ∧ target.covers name) h h' := by
  induction hruns with
  | nil => exact .refl
  | cons hdone _ ih =>
    refine (hdone.changed.weaken ?_).trans (ih.weaken ?_)
    · rintro name ⟨silent, target, rfl, hcovers⟩
      exact ⟨silent, target, .head _, hcovers⟩
    · rintro name ⟨silent, target, hmem, hcovers⟩
      exact ⟨silent, target, .tail _ hmem, hcovers⟩
  | skip _ _ _ ih =>
    refine ih.weaken ?_
    rintro name ⟨silent, target, hmem, hcovers⟩
    exact ⟨silent, target, .tail _ hmem, hcovers⟩

end

end Holos.Engine.Update
