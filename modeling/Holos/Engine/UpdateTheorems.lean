import Holos.Engine.SessionWrites
import Holos.Engine.Update
import Holos.Engine.WorldRules
/-!
# What an update does

`Performs` says what an operation is for, on the quads and the named graphs of the store, and what
the session's policy allowed for it; `Skips` says when a silent one does nothing. An update that
returns did so operation by operation, unless a silent one met a failure of the store. One that fails
leaves the store as it was, whatever happened.
-/

namespace Holos.Engine.Update

open Lib Lib.Eff Security

variable {B : Backend} {Sim : B.State → Held → Prop} {Open : B.State → Contents × Ids → Prop}

/-! ## What operations are for -/

/-- A policy the session had when asked permits a quad. -/
def Allowed (Sim : B.State → Held → Prop) (session : Session) (h₀ : Held) (ids : Ids) (q : Quad) (mode : Modes) : Prop :=
  ∃ p e, Consulted Sim session h₀ p ∧ ids.quad q = some e ∧ p.permitsQuad e mode = true

/-- Quads were inserted. -/
structure Inserted (Sim : B.State → Held → Prop) (session : Session) (h₀ : Held) (qs : List Quad) (h h' : Held) : Prop where
  ids : h.ids ≤ h'.ids
  all : h'.all = h.all ∪ {q | q ∈ qs}
  names : h'.names = h.names ∪ {g | ∃ q ∈ qs, g ∈ Held.named q.graphName}
  written : ∀ q ∈ qs, Allowed Sim session h₀ h'.ids q Modes.write

/-- Quads were removed. -/
structure Removed (Sim : B.State → Held → Prop) (session : Session) (h₀ : Held) (qs : List Quad) (h h' : Held) : Prop where
  ids : h.ids ≤ h'.ids
  all : h'.all = h.all \ {q | q ∈ qs}
  names : h'.names = h.names
  written : ∀ q ∈ qs, Allowed Sim session h₀ h'.ids q Modes.write
  read : ∀ q ∈ qs, Allowed Sim session h₀ h'.ids q Modes.read

/-- The quads of a target that a view shows. -/
def shown (p : CompiledPolicy) (h : Held) : GraphTarget → Set Quad
  | .namedNode n => {q | ∃ e, h.ids.quad q = some e ∧ Shows p h (.namedNode n) e}
  | .defaultGraph => {q | ∃ e, h.ids.quad q = some e ∧ Shows p h .defaultGraph e}
  | .allGraphs => {q | ∃ e, h.ids.quad q = some e ∧ e ∈ h.contents.quads ∧ p.decideQuad e Modes.read = .allow}
  | .namedGraphs => {q | (∃ e, h.ids.quad q = some e ∧ e ∈ h.contents.quads ∧ p.decideQuad e Modes.read = .allow) ∧
      q.graphName ≠ .defaultGraph}

/-- The graphs a `DROP` takes out of the catalogue. -/
def dropped (h : Held) : GraphTarget → Set GraphName
  | .namedNode n => {.namedNode n}
  | .defaultGraph => ∅
  | _ => {g | g ∈ h.names ∧ ∃ n, g = .namedNode n}

/-- A target that is a graph of its own exists. -/
def Exists (h : Held) : GraphTarget → Prop
  | .namedNode n => .namedNode n ∈ h.names
  | _ => True

/-- A target was cleared of what the session's view showed of it. -/
def Cleared (Sim : B.State → Held → Prop) (session : Session) (h₀ : Held) (target : GraphTarget) (h h' : Held) : Prop :=
  Exists h target ∧ ∃ p qs, Consulted Sim session h₀ p ∧ {q | q ∈ qs} = shown p h target ∧ Removed Sim session h₀ qs h h'

/-- What an operation does. -/
def Performs (Sim : B.State → Held → Prop) (O : Outside B) (session : Session) (h₀ : Held) : Operation → Held → Held → Prop
  | .insertData data, h, h' => Inserted Sim session h₀ (data.map algebraQuad) h h'
  | .deleteData data, h, h' => Removed Sim session h₀ (data.map groundQuad) h h'
  | .deleteInsert request, h, h' => ∃ p s saved delta mid, Consulted Sim session h₀ p ∧ Sim s { h with saved } ∧
      O.execute request p s = .ok delta ∧ Removed Sim session h₀ (delta.filterMap DeleteInsertQuad.deleted) h mid ∧
      Inserted Sim session h₀ (delta.filterMap DeleteInsertQuad.inserted) mid h'
  | .load _ source destination, h, h' => ∃ quads, document O source = .ok (some quads) ∧
      Inserted Sim session h₀ (quads.map (fun quad => { quad with graphName := algebraGraphName destination })) h h'
  | .clear _ target, h, h' => Cleared Sim session h₀ target h h'
  | .create _ n, h, h' => .namedNode n ∉ h.names ∧ h.ids ≤ h'.ids ∧ h'.all = h.all ∧ h'.names = h.names ∪ {.namedNode n}
  | .drop _ target, h, h' => ∃ mid, Cleared Sim session h₀ target h mid ∧ mid.ids ≤ h'.ids ∧
      h'.all = mid.all \ {q | q.graphName ∈ dropped mid target} ∧ h'.names = mid.names \ dropped mid target

/-- An operation cannot be performed. -/
def Skips (Sim : B.State → Held → Prop) (O : Outside B) (session : Session) (h₀ : Held) : Operation → Held → Prop
  | .load _ source _, _ => ∃ e, document O source = .error e
  | .clear _ target, h => ¬ Exists h target ∨ ∃ p, Consulted Sim session h₀ p ∧ p.semantics = .fail
  | .create _ n, h => .namedNode n ∈ h.names
  | .drop _ target, h => ¬ Exists h target ∨ ∃ p, Consulted Sim session h₀ p ∧ p.semantics = .fail
  | _, _ => False

/-- Operation by operation: each is performed, or is silent and cannot be. -/
inductive Runs (Sim : B.State → Held → Prop) (O : Outside B) (session : Session) (h₀ : Held) : List Operation → Held → Held → Prop
  | nil {h : Held} : Runs Sim O session h₀ [] h h
  | cons {op : Operation} {ops : List Operation} {h mid h' : Held} : Performs Sim O session h₀ op h mid → Runs Sim O session h₀ ops mid h' →
    Runs Sim O session h₀ (op :: ops) h h'
  | skip {op : Operation} {ops : List Operation} {h h' : Held} : op.silent = true → Skips Sim O session h₀ op h →
    Runs Sim O session h₀ ops h h' → Runs Sim O session h₀ (op :: ops) h h'

/-! ## A failure leaves the scope open -/

section
variable (L : B.Lawful Sim Open) {c : Contents × Ids}
include L

omit L in
theorem note_keeps (f : UpdateOutcome → UpdateOutcome) : Keeps (fun w => Open w.store c) (note f : Run B Unit) := by
  intro w r w' hrun hw
  cases hrun
  exact hw

theorem insert_open (q : Quad) : Keeps (fun w => Open w.store c) (insert q : Run B Unit) :=
  (Engine.insert_keeps (World.steady_open L c) q).bind (fun _ => keeps_ite (note_keeps _) (quiet_pure _).keeps)

theorem remove_open (q : Quad) : Keeps (fun w => Open w.store c) (remove q : Run B Unit) :=
  (Engine.remove_keeps (World.steady_open L c) q).bind (fun _ => keeps_ite (note_keeps _) (quiet_pure _).keeps)

theorem insertEach_open (qs : List Quad) : Keeps (fun w => Open w.store c) (insertEach qs : Run B Unit) :=
  keeps_foldlM (fun _ q => insert_open L q)

theorem removeEach_open (qs : List Quad) : Keeps (fun w => Open w.store c) (removeEach qs : Run B Unit) :=
  keeps_foldlM (fun _ q => remove_open L q)

omit L in
theorem quiet_quadsIn (target : GraphTarget) : Quiet (quadsIn target : Run B (List Quad)) := by
  cases target with
  | namedNode n => exact (quiet_visibleQuads _).mapError _
  | defaultGraph => exact (quiet_visibleQuads _).mapError _
  | allGraphs => exact (quiet_visibleQuads _).mapError _
  | namedGraphs => exact ((quiet_visibleQuads _).mapError _).bind (fun _ => quiet_pure _)

omit L in
theorem quiet_requireGraph (target : GraphTarget) : Quiet (requireGraph target : Run B Unit) := by
  cases target with
  | namedNode n => exact (World.quiet_containsNamedGraph _).bind (fun _ => quiet_ite (quiet_throw _) (quiet_pure _))
  | defaultGraph => exact quiet_pure _
  | allGraphs => exact quiet_pure _
  | namedGraphs => exact quiet_pure _

theorem clear_open (target : GraphTarget) : Keeps (fun w => Open w.store c) (clear target : Run B Unit) :=
  (quiet_requireGraph target).keeps.bind fun _ => (quiet_quadsIn target).keeps.bind fun qs => removeEach_open L qs

omit L in
theorem quiet_namedGraphNodes : Quiet (namedGraphNodes : Run B (List NamedNode)) := by
  refine (quiet_reads _).bind (fun ids => quiet_foldlM (fun out id => (quiet_reads _).bind (fun t => ?_)))
  cases t with
  | none => exact quiet_pure _
  | some t => cases t <;> exact quiet_pure _

omit L in
theorem quiet_doomed (target : GraphTarget) : Quiet (doomed target : Run B (List NamedNode)) := by
  cases target with
  | namedNode n => exact quiet_pure _
  | defaultGraph => exact quiet_pure _
  | allGraphs => exact quiet_namedGraphNodes
  | namedGraphs => exact quiet_namedGraphNodes

theorem perform_open (O : Outside B) (op : Operation) : Keeps (fun w => Open w.store c) (perform O op) := by
  cases op with
  | insertData data => exact insertEach_open L _
  | deleteData data => exact removeEach_open L _
  | deleteInsert request => exact (quiet_reads _).keeps.bind fun delta => (removeEach_open L _).bind fun _ => insertEach_open L _
  | load silent source destination =>
    change Keeps _ (load O source _)
    unfold load
    cases document O source with
    | error e => exact (quiet_throw e).keeps
    | ok quads =>
      cases quads with
      | none => exact keeps_of (fun w r w' hrun _ => by cases hrun)
      | some quads => exact insertEach_open L _
  | clear silent target => exact clear_open L target
  | create silent n =>
    have hwrite : Keeps (fun w => Open w.store c) (do
        if ← World.insertNamedGraph (.namedNode n) then note (fun o => { o with graphsCreated := o.graphsCreated + 1 }) : Run B Unit) :=
      (World.insertNamedGraph_keeps (World.steady_open L c) _).bind (fun _ => keeps_ite (note_keeps _) (quiet_pure _).keeps)
    exact (World.quiet_containsNamedGraph _).keeps.bind (fun _ => keeps_ite ((quiet_throw _).keeps.bind (fun _ => hwrite)) hwrite)
  | drop silent target =>
    refine (clear_open L target).bind fun _ => (quiet_doomed target).keeps.bind fun names => keeps_foldlM (fun _ n => ?_)
    exact (World.removeNamedGraph_keeps (World.steady_open L c) _).bind (fun _ => keeps_ite (note_keeps _) (quiet_pure _).keeps)

omit L in
theorem quiet_silence (result : Except EngineError Unit) (silent : Bool) : Quiet (silence result silent : Run B Unit) := by
  unfold silence
  split
  · exact quiet_throw _
  · exact quiet_ite (quiet_pure _) (quiet_throw _)
  · exact quiet_pure _

theorem applyEach_open (O : Outside B) (ops : List Operation) : Keeps (fun w => Open w.store c) (applyEach O ops) :=
  keeps_foldlM (fun _ op => ((perform_open L O op).attempt).bind (fun result => (quiet_silence result _).keeps))

end

/-! ## The two primitives -/

theorem Allowed.mono {session : Session} {h₀ : Held} {ids ids' : Ids} {q : Quad} {mode : Modes} (h : Allowed Sim session h₀ ids q mode)
    (hle : ids ≤ ids') : Allowed Sim session h₀ ids' q mode := by
  obtain ⟨p, e, hp, he, hmode⟩ := h
  exact ⟨p, e, hp, Ids.quad_mono hle he, hmode⟩

/-- How many quads the store has beyond those the outcome counts. -/
def surplus (w : World B UpdateOutcome) (h : Held) : Int := h.contents.quads.card + w.extra.deleted - w.extra.inserted

section
variable {ρ : Type} {w₀ w : World B ρ} {h₀ h : Held} (L : B.Lawful Sim Open) (hw : Acting Sim w₀ h₀ w h)
include L hw

/-- An insert that returns was allowed, and says whether it added a quad. -/
theorem insert_counts {q : Quad} {Q : Bool → World B ρ → Prop}
    (hQ : ∀ b w' h', Acting Sim w₀ h₀ w' h' → Inserted Sim w₀.session h₀ [q] h h' →
      h'.contents.quads.card = h.contents.quads.card + b.toNat → Q b w') :
    wp (Engine.insert q : Eff EngineError (World B ρ) Bool) Q (Fails Open h₀) w := by
  unfold Engine.insert
  apply wp_bind
  refine World.encodeQuad_wp L hw.sim hw.saved trivial (fun s ids e hle he hs => ?_)
  have hw₁ : Acting Sim w₀ h₀ { w with store := s } { h with ids } :=
    ⟨hs, hw.saved, hw.decodes.grow hle, hw.catalogued.grow hle, hw.grows.trans hle, hw.policy, hw.principal, hw.consulted⟩
  apply wp_bind
  refine policy_acting L hw₁ (fun p w₂ hw₂ hp => ?_)
  dsimp only
  apply wp_ite
  · exact fun _ => wp_bind (wp_throw (hw₂.fails L _))
  · intro hpermit
    rw [Bool.not_eq_true', Bool.not_eq_false] at hpermit
    refine World.insertEncoded_wp L hw₂.sim hw₂.saved trivial (fun s hs => ?_)
    refine hQ _ _ (({ h with ids } : Held).write (.insert e)) ?_ ⟨hle, ?_, ?_, ?_⟩ ?_
    · exact ⟨hs, hw₂.saved, hw₂.decodes.insert he, hw₂.catalogued.insert he, hw₂.grows, hw₂.policy, hw₂.principal, hw₂.consulted⟩
    · rw [Held.all_insert he, Held.all_grow hle hw.decodes]
      ext q'
      simp [or_comm]
    · rw [Held.names_insert he, Held.names_grow hw.catalogued hle]
      simp
    · intro q' hq'
      rw [List.mem_singleton.1 hq']
      exact ⟨p, e, hp, he, hpermit⟩
    · by_cases hmem : e ∈ h.contents.quads
      · simp [Contents.apply, Contents.insert, hmem]
      · simp [Contents.apply, Contents.insert, hmem]

theorem remove_counts {q : Quad} {Q : Bool → World B ρ → Prop}
    (hQ : ∀ b w' h', Acting Sim w₀ h₀ w' h' → Removed Sim w₀.session h₀ [q] h h' →
      h'.contents.quads.card + b.toNat = h.contents.quads.card → Q b w') :
    wp (Engine.remove q : Eff EngineError (World B ρ) Bool) Q (Fails Open h₀) w := by
  unfold Engine.remove
  apply wp_bind
  refine World.encodeQuad_wp L hw.sim hw.saved trivial (fun s ids e hle he hs => ?_)
  have hw₁ : Acting Sim w₀ h₀ { w with store := s } { h with ids } :=
    ⟨hs, hw.saved, hw.decodes.grow hle, hw.catalogued.grow hle, hw.grows.trans hle, hw.policy, hw.principal, hw.consulted⟩
  apply wp_bind
  refine policy_acting L hw₁ (fun p w₂ hw₂ hp => ?_)
  dsimp only
  apply wp_ite
  · exact fun _ => wp_bind (wp_throw (hw₂.fails L _))
  · intro hpermit
    simp only [Bool.or_eq_true, Bool.not_eq_true', not_or, Bool.not_eq_false] at hpermit
    refine World.remove_wp L hw₂.sim hw₂.saved trivial (fun hnone => ?_) (fun s e' he' hs => ?_)
    · rw [he] at hnone
      cases hnone
    · cases he.symm.trans he'
      refine hQ _ _ (({ h with ids } : Held).write (.remove e)) ?_ ⟨hle, ?_, Held.names_grow hw.catalogued hle, ?_, ?_⟩ ?_
      · exact ⟨hs, hw₂.saved, hw₂.decodes.remove, hw₂.catalogued.remove, hw₂.grows, hw₂.policy, hw₂.principal, hw₂.consulted⟩
      · rw [Held.all_remove he, Held.all_grow hle hw.decodes]
        ext q'
        simp
      · intro q' hq'
        rw [List.mem_singleton.1 hq']
        exact ⟨p, e, hp, he, hpermit.1⟩
      · intro q' hq'
        rw [List.mem_singleton.1 hq']
        exact ⟨p, e, hp, he, hpermit.2⟩
      · by_cases hmem : e ∈ h.contents.quads
        · have hpos : 0 < h.contents.quads.card := Finset.card_pos.2 ⟨e, hmem⟩
          simp [Contents.apply, Contents.remove, hmem]
          omega
        · simp [Contents.apply, Contents.remove, hmem]

end

section
variable {w₀ w : World B UpdateOutcome} {h₀ h : Held} (L : B.Lawful Sim Open) (hw : Acting Sim w₀ h₀ w h)

theorem note_errs {P : EngineError → Prop} (f : UpdateOutcome → UpdateOutcome) : Errs P (note f : Run B Unit) := by
  intro w e w' hrun
  cases hrun

theorem insert_fails (q : Quad) : Errs Refusal (insert q : Run B Unit) :=
  (insert_errs q).bind (fun _ => errs_ite (note_errs _) (errs_pure _))

theorem remove_fails (q : Quad) : Errs Refusal (remove q : Run B Unit) :=
  (remove_errs q).bind (fun _ => errs_ite (note_errs _) (errs_pure _))

/-- The outcome says nothing of the store. -/
theorem Acting.noted (hw : Acting Sim w₀ h₀ w h) (x : UpdateOutcome) : Acting Sim w₀ h₀ { w with extra := x } h :=
  ⟨hw.sim, hw.saved, hw.decodes, hw.catalogued, hw.grows, hw.policy, hw.principal, hw.consulted⟩

include L hw

theorem insert_acting {q : Quad} : wp (insert q : Run B Unit)
    (fun _ w' => ∃ h', Acting Sim w₀ h₀ w' h' ∧ Inserted Sim w₀.session h₀ [q] h h' ∧ surplus w' h' = surplus w h) (fun e _ => Refusal e) w := by
  refine (wp.errs (E := Fails Open h₀) ?_ (insert_fails q)).mono (fun _ _ h => h) (fun _ _ h => h.2)
  apply wp_bind
  have hcounts := insert_counts (q := q) L hw (Q := fun b w' => ∃ h', Acting Sim w₀ h₀ w' h' ∧ Inserted Sim w₀.session h₀ [q] h h' ∧
    h'.contents.quads.card = h.contents.quads.card + b.toNat) (fun b w' h' hw' hins hcard => ⟨h', hw', hins, hcard⟩)
  refine (hcounts.keeps (Engine.insert_keeps (World.steady_extra w.extra) q) rfl).mono ?_ (fun _ _ h => h)
  rintro b w' ⟨⟨h', hw', hins, hcard⟩, hextra⟩
  cases b with
  | false =>
    refine wp_pure ⟨h', hw', hins, ?_⟩
    simp [surplus, hextra, hcard]
  | true =>
    intro r w'' hrun
    cases hrun
    refine ⟨h', Acting.noted hw' _, hins, ?_⟩
    simp only [surplus, hextra, hcard, Bool.toNat_true]
    omega

theorem remove_acting {q : Quad} : wp (remove q : Run B Unit)
    (fun _ w' => ∃ h', Acting Sim w₀ h₀ w' h' ∧ Removed Sim w₀.session h₀ [q] h h' ∧ surplus w' h' = surplus w h) (fun e _ => Refusal e) w := by
  refine (wp.errs (E := Fails Open h₀) ?_ (remove_fails q)).mono (fun _ _ h => h) (fun _ _ h => h.2)
  apply wp_bind
  have hcounts := remove_counts (q := q) L hw (Q := fun b w' => ∃ h', Acting Sim w₀ h₀ w' h' ∧ Removed Sim w₀.session h₀ [q] h h' ∧
    h'.contents.quads.card + b.toNat = h.contents.quads.card) (fun b w' h' hw' hrem hcard => ⟨h', hw', hrem, hcard⟩)
  refine (hcounts.keeps (Engine.remove_keeps (World.steady_extra w.extra) q) rfl).mono ?_ (fun _ _ h => h)
  rintro b w' ⟨⟨h', hw', hrem, hcard⟩, hextra⟩
  cases b with
  | false =>
    refine wp_pure ⟨h', hw', hrem, ?_⟩
    simp only [Bool.toNat_false, Nat.add_zero] at hcard
    simp [surplus, hextra, hcard]
  | true =>
    intro r w'' hrun
    cases hrun
    refine ⟨h', Acting.noted hw' _, hrem, ?_⟩
    simp only [Bool.toNat_true] at hcard
    simp only [surplus, hextra]
    omega

/-! ## Loops -/

theorem insertEach_acting (qs : List Quad) : wp (insertEach qs : Run B Unit)
    (fun _ w' => ∃ h', Acting Sim w₀ h₀ w' h' ∧ Inserted Sim w₀.session h₀ qs h h' ∧ surplus w' h' = surplus w h) (fun e _ => Refusal e) w := by
  refine wp_foldlM (I := fun done _ w' => ∃ h', Acting Sim w₀ h₀ w' h' ∧ Inserted Sim w₀.session h₀ done h h' ∧ surplus w' h' = surplus w h) ?_ ?_
  · exact ⟨h, hw, ⟨le_rfl, by simp, by simp, by simp⟩, rfl⟩
  · rintro done q rest - w₁ - ⟨h₁, hw₁, hins₁, hsum₁⟩
    refine (insert_acting L hw₁ (q := q)).mono ?_ (fun _ _ h => h)
    rintro - w₂ ⟨h₂, hw₂, hins₂, hsum₂⟩
    refine ⟨h₂, hw₂, ⟨hins₁.ids.trans hins₂.ids, ?_, ?_, fun q' hq' => ?_⟩, hsum₂.trans hsum₁⟩
    · rw [hins₂.all, hins₁.all]
      ext q'
      simp only [Set.mem_union, Set.mem_ofPred_eq, List.mem_append, or_assoc]
    · rw [hins₂.names, hins₁.names]
      ext g
      simp only [Set.mem_union, Set.mem_ofPred_eq, List.mem_append, or_and_right, exists_or, or_assoc]
    · rcases List.mem_append.1 hq' with hq' | hq'
      · exact (hins₁.written q' hq').mono hins₂.ids
      · exact hins₂.written q' hq'

theorem removeEach_acting (qs : List Quad) : wp (removeEach qs : Run B Unit)
    (fun _ w' => ∃ h', Acting Sim w₀ h₀ w' h' ∧ Removed Sim w₀.session h₀ qs h h' ∧ surplus w' h' = surplus w h) (fun e _ => Refusal e) w := by
  refine wp_foldlM (I := fun done _ w' => ∃ h', Acting Sim w₀ h₀ w' h' ∧ Removed Sim w₀.session h₀ done h h' ∧ surplus w' h' = surplus w h) ?_ ?_
  · exact ⟨h, hw, ⟨le_rfl, by simp, rfl, by simp, by simp⟩, rfl⟩
  · rintro done q rest - w₁ - ⟨h₁, hw₁, hrem₁, hsum₁⟩
    refine (remove_acting L hw₁ (q := q)).mono ?_ (fun _ _ h => h)
    rintro - w₂ ⟨h₂, hw₂, hrem₂, hsum₂⟩
    refine ⟨h₂, hw₂, ⟨hrem₁.ids.trans hrem₂.ids, ?_, hrem₂.names.trans hrem₁.names, fun q' hq' => ?_, fun q' hq' => ?_⟩, hsum₂.trans hsum₁⟩
    · rw [hrem₂.all, hrem₁.all]
      ext q'
      simp only [Set.mem_sdiff, Set.mem_ofPred_eq, List.mem_append, not_or, and_assoc]
    · rcases List.mem_append.1 hq' with hq' | hq'
      · exact (hrem₁.written q' hq').mono hrem₂.ids
      · exact hrem₂.written q' hq'
    · rcases List.mem_append.1 hq' with hq' | hq'
      · exact (hrem₁.read q' hq').mono hrem₂.ids
      · exact hrem₂.read q' hq'

end

/-! ## Reading a target -/

section
variable {w₀ w : World B UpdateOutcome} {h₀ h : Held} (L : B.Lawful Sim Open) (hw : Acting Sim w₀ h₀ w h)
include L hw

/-- A view of every graph decides row by row. -/
theorem visibleAll_reads {Q : List Quad → World B UpdateOutcome → Prop} {E : ViewError → World B UpdateOutcome → Prop}
    (hE : ∀ e, E (.storage e) w) (hfail : w.session.compiled.semantics = .fail → E .accessDenied w)
    (hQ : ∀ qs, {q | q ∈ qs} = shown w.session.compiled h .allGraphs → Q qs w) :
    wp (visibleQuads none : Eff ViewError (World B UpdateOutcome) (List Quad)) Q E w := by
  unfold visibleQuads
  apply wp_bind
  refine wp_reads (fun p hp => ?_) (fun e he => by cases he)
  cases hp
  refine wp_bind (wp_pure ?_)
  apply wp_bind
  refine World.store_reads (f := fun s => B.scan s none none none .any) hE (fun scan hscan => ?_)
  refine shown_reads L hw.sim (fun e he => hw.decodes e ((L.mem_scan hw.sim hscan).1 he).1) hE hfail (fun qs hqs => hQ qs ?_)
  ext q
  simp only [Set.mem_ofPred_eq, mem_decoded hqs, List.mem_filter, L.mem_scan hw.sim hscan, decide_eq_true_eq, shown]
  constructor
  · rintro ⟨e, ⟨⟨hmem, -⟩, hallow⟩, hq⟩
    exact ⟨e, hq, hmem, hallow⟩
  · rintro ⟨e, hq, hmem, hallow⟩
    exact ⟨e, ⟨⟨hmem, rfl, rfl⟩, hallow⟩, hq⟩

/-- What is shown of a target; a view that cannot show it is refused, or the store fails. -/
theorem quadsIn_reads (target : GraphTarget) : wp (quadsIn target : Run B (List Quad))
    (fun qs w' => w' = w ∧ {q | q ∈ qs} = shown w.session.compiled h target)
    (fun e w' => w' = w ∧ (Refusal e ∨ w.session.compiled.semantics = .fail)) w := by
  have hgraph : ∀ name, wp (quadsInGraph (some name) : Run B (List Quad))
      (fun qs w' => w' = w ∧ {q | q ∈ qs} = {q | ∃ e, h.ids.quad q = some e ∧ Shows w.session.compiled h name e})
      (fun e w' => w' = w ∧ (Refusal e ∨ w.session.compiled.semantics = .fail)) w := by
    intro name
    apply wp_mapError
    refine visibleQuads_reads L hw.sim hw.decodes (fun e => ⟨rfl, .inl (.inr rfl)⟩) (fun hfail => ⟨rfl, .inr hfail⟩) ?_
    intro rows qs hl
    refine ⟨rfl, ?_⟩
    ext q
    exact hl.mem_iff
  have hall : wp (quadsInGraph none : Run B (List Quad))
      (fun qs w' => w' = w ∧ {q | q ∈ qs} = shown w.session.compiled h .allGraphs)
      (fun e w' => w' = w ∧ (Refusal e ∨ w.session.compiled.semantics = .fail)) w := by
    apply wp_mapError
    exact visibleAll_reads L hw (fun e => ⟨rfl, .inl (.inr rfl)⟩) (fun hfail => ⟨rfl, .inr hfail⟩) (fun qs hqs => ⟨rfl, hqs⟩)
  cases target with
  | namedNode n => exact hgraph _
  | defaultGraph => exact hgraph _
  | allGraphs => exact hall
  | namedGraphs =>
    refine wp_bind (hall.mono ?_ (fun _ _ h => h))
    rintro qs w' ⟨rfl, hqs⟩
    refine wp_pure ⟨rfl, ?_⟩
    ext q
    have hq : q ∈ qs ↔ q ∈ shown w'.session.compiled h .allGraphs := by rw [← hqs, Set.mem_ofPred_eq]
    simp only [Set.mem_ofPred_eq, List.mem_filter, hq, shown, decide_eq_true_eq]

theorem requireGraph_reads (target : GraphTarget) : wp (requireGraph target : Run B Unit) (fun _ w' => w' = w ∧ Exists h target)
    (fun e w' => w' = w ∧ (Refusal e ∨ ¬ Exists h target)) w := by
  cases target with
  | namedNode n =>
    apply wp_bind
    refine World.containsNamedGraph_reads L hw.sim (fun e => ⟨rfl, .inl (.inr rfl)⟩) ?_
    have hiff : (∃ g ∈ h.contents.graphs, h.ids (.namedNode n) = some g) ↔ Exists h (.namedNode n) := by
      simp [Exists, Held.names, Ids.graph]
    apply wp_ite
    · intro hno
      rw [Bool.not_eq_true', decide_eq_false_iff_not, hiff] at hno
      exact wp_throw ⟨rfl, .inr hno⟩
    · intro hyes
      rw [Bool.not_eq_true', Bool.not_eq_false, decide_eq_true_iff, hiff] at hyes
      exact wp_pure ⟨rfl, hyes⟩
  | defaultGraph => exact wp_pure ⟨rfl, trivial⟩
  | allGraphs => exact wp_pure ⟨rfl, trivial⟩
  | namedGraphs => exact wp_pure ⟨rfl, trivial⟩

/-- The named nodes among the named graphs. -/
theorem namedGraphNodes_reads : wp (namedGraphNodes : Run B (List NamedNode))
    (fun names w' => w' = w ∧ ∀ n, n ∈ names ↔ .namedNode n ∈ h.names) (fun e _ => Refusal e) w := by
  unfold namedGraphNodes
  apply wp_bind
  refine World.store_reads (f := B.namedGraphs) (fun e => .inr rfl) (fun ids hids => ?_)
  have hmem := fun {g} => L.mem_namedGraphs (g := g) hw.sim hids
  refine (wp_foldlM (I := fun done names w' => w' = w ∧ ∀ n, n ∈ names ↔ ∃ g ∈ done, h.ids (.namedNode n) = some g) ⟨rfl, by simp⟩ ?_).mono
    ?_ (fun _ _ h => h)
  · rintro done g rest names w' hl ⟨rfl, hnames⟩
    obtain ⟨name, hname⟩ := hw.catalogued g (hmem.1 (by rw [hl]; simp))
    apply wp_bind
    cases name with
    | defaultGraph => cases hname
    | namedNode n =>
      obtain ⟨g', hg, heq⟩ := Option.map_eq_some_iff.1 hname
      cases heq
      refine World.decodeTerm_reads L hw.sim (fun e => .inr rfl) hg (wp_pure ⟨rfl, fun n' => ?_⟩)
      have hiff : h.ids (.namedNode n') = some g ↔ n' = n :=
        ⟨fun h' => Term.namedNode.inj (Ids.term_inj h' hg), fun heq => heq ▸ hg⟩
      simp [hnames, or_and_right, exists_or, hiff]
    | blankNode b =>
      obtain ⟨g', hg, heq⟩ := Option.map_eq_some_iff.1 hname
      cases heq
      refine World.decodeTerm_reads L hw.sim (fun e => .inr rfl) hg (wp_pure ⟨rfl, fun n' => ?_⟩)
      have hno : h.ids (.namedNode n') ≠ some g := fun h' => by cases Ids.term_inj h' hg
      simp [hnames, or_and_right, exists_or, hno]
  · rintro names w' ⟨rfl, hnames⟩
    refine ⟨rfl, fun n => (hnames n).trans ?_⟩
    simp [Held.names, Ids.graph, hmem]

end

/-! ## Operations -/

section
variable {w₀ w : World B UpdateOutcome} {h₀ h : Held} (L : B.Lawful Sim Open) (hw : Acting Sim w₀ h₀ w h)
include L hw

theorem clear_acting (target : GraphTarget) : wp (clear target : Run B Unit)
    (fun _ w' => ∃ h', Acting Sim w₀ h₀ w' h' ∧ Cleared Sim w₀.session h₀ target h h' ∧ surplus w' h' = surplus w h)
    (fun e w' => Refusal e ∨ w' = w ∧ (¬ Exists h target ∨ ∃ p, Consulted Sim w₀.session h₀ p ∧ p.semantics = .fail)) w := by
  refine wp_bind ((requireGraph_reads L hw target).mono ?_ ?_)
  · rintro - w' ⟨rfl, hexists⟩
    refine wp_bind ((quadsIn_reads L hw target).mono ?_ ?_)
    · rintro qs w'' ⟨rfl, hqs⟩
      refine (removeEach_acting L hw qs).mono ?_ (fun e w' he => .inl he)
      rintro - w' ⟨h', hw', hrem, hsum⟩
      exact ⟨h', hw', ⟨hexists, _, qs, hw.consulted, hqs, hrem⟩, hsum⟩
    · rintro e w'' ⟨rfl, he⟩
      exact he.imp_right (fun hfail => ⟨rfl, .inr ⟨_, hw.consulted, hfail⟩⟩)
  · rintro e w' ⟨rfl, he⟩
    exact he.imp_right (fun hno => ⟨rfl, .inl hno⟩)

theorem create_acting (n : NamedNode) : wp (create n : Run B Unit)
    (fun _ w' => ∃ h', Acting Sim w₀ h₀ w' h' ∧ (.namedNode n ∉ h.names ∧ h.ids ≤ h'.ids ∧ h'.all = h.all ∧ h'.names = h.names ∪ {.namedNode n}) ∧
      surplus w' h' = surplus w h)
    (fun e w' => Refusal e ∨ w' = w ∧ .namedNode n ∈ h.names) w := by
  have hiff : (∃ g ∈ h.contents.graphs, h.ids (.namedNode n) = some g) ↔ .namedNode n ∈ h.names := by
    simp [Held.names, Ids.graph]
  apply wp_bind
  refine World.containsNamedGraph_reads L hw.sim (fun e => .inl (.inr rfl)) ?_
  apply wp_ite
  · intro hyes
    rw [decide_eq_true_iff, hiff] at hyes
    exact wp_bind (wp_throw (.inr ⟨rfl, hyes⟩))
  · intro hno
    rw [decide_eq_true_iff, hiff] at hno
    have hrun : wp (World.insertNamedGraph (.namedNode n) : Run B Bool) (fun _ w' => w'.extra = w.extra ∧ ∃ h', Acting Sim w₀ h₀ w' h' ∧
        h.ids ≤ h'.ids ∧ h'.all = h.all ∧ h'.names = h.names ∪ {.namedNode n} ∧ h'.contents.quads = h.contents.quads) (Fails Open h₀) w := by
      refine World.insertNamedGraph_wp L hw.sim hw.saved trivial (fun b s ids g hle hg hs => ?_)
      refine ⟨rfl, ({ h with ids } : Held).write (.insertNamedGraph g), ?_, hle, ?_⟩
      · exact ⟨hs, hw.saved, (hw.decodes.grow hle).insertNamedGraph, (hw.catalogued.grow hle).insertNamedGraph hg, hw.grows.trans hle,
          hw.policy, hw.principal, hw.consulted⟩
      · refine ⟨Held.all_grow hle hw.decodes, ?_, rfl⟩
        rw [Held.names_insertNamedGraph hg, Held.names_grow hw.catalogued hle]
        rfl
    apply wp_bind
    refine (hrun.errs ((World.insertNamedGraph_errs _).mono Refusal.of_store)).mono ?_ (fun e w' he => .inl he.2)
    rintro b w' ⟨hextra, h', hw', hle, hall, hnames, hquads⟩
    have hsum : surplus w' h' = surplus w h := by simp [surplus, hextra, hquads]
    apply wp_ite
    · intro _ r w'' hrun
      cases hrun
      exact ⟨h', Acting.noted hw' _, ⟨hno, hle, hall, hnames⟩, hsum⟩
    · exact fun _ => wp_pure ⟨h', hw', ⟨hno, hle, hall, hnames⟩, hsum⟩

omit L hw in
/-- A graph without an id holds nothing. -/
theorem unnamed {name : GraphName} (hg : h.ids.graph name = none) : h.all \ {q | q.graphName = name} = h.all ∧ h.names \ {name} = h.names := by
  constructor
  · refine sdiff_eq_left.2 (Set.disjoint_left.2 ?_)
    rintro q ⟨e, he, -⟩ (hq : q.graphName = name)
    have hgraph := (Ids.quad_eq_some.1 he).2.2.2
    rw [hq, hg] at hgraph
    cases hgraph
  · refine Set.sdiff_singleton_eq_self ?_
    rintro ⟨g, -, hname⟩
    rw [hg] at hname
    cases hname

theorem dropEach_acting (names : List NamedNode) : wp (dropEach names : Run B Unit)
    (fun _ w' => ∃ h', Acting Sim w₀ h₀ w' h' ∧ h.ids ≤ h'.ids ∧ h'.all = h.all \ {q | ∃ n ∈ names, q.graphName = .namedNode n} ∧
      h'.names = h.names \ {g | ∃ n ∈ names, g = .namedNode n}) (fun e _ => Refusal e) w := by
  refine wp_foldlM (I := fun done _ w' => ∃ h', Acting Sim w₀ h₀ w' h' ∧ h.ids ≤ h'.ids ∧
    h'.all = h.all \ {q | ∃ n ∈ done, q.graphName = .namedNode n} ∧ h'.names = h.names \ {g | ∃ n ∈ done, g = .namedNode n}) ?_ ?_
  · exact ⟨h, hw, le_rfl, by simp, by simp⟩
  · rintro done n rest - w₁ - ⟨h₁, hw₁, hle₁, hall₁, hnames₁⟩
    have hrun : wp (World.removeNamedGraph (.namedNode n) : Run B Bool) (fun _ w' => ∃ h', Acting Sim w₀ h₀ w' h' ∧ h₁.ids = h'.ids ∧
        h'.all = h₁.all \ {q | q.graphName = .namedNode n} ∧ h'.names = h₁.names \ {.namedNode n}) (Fails Open h₀) w₁ := by
      refine World.removeNamedGraph_wp L hw₁.sim hw₁.saved trivial (fun hnone => ?_) (fun b s g hg hs => ?_)
      · exact ⟨h₁, hw₁, rfl, (unnamed hnone).1.symm, (unnamed hnone).2.symm⟩
      · refine ⟨h₁.write (.removeNamedGraph g), ?_, rfl, Held.all_removeNamedGraph hg, Held.names_removeNamedGraph hg⟩
        exact ⟨hs, hw₁.saved, hw₁.decodes.removeNamedGraph, hw₁.catalogued.removeNamedGraph, hw₁.grows, hw₁.policy, hw₁.principal,
          hw₁.consulted⟩
    apply wp_bind
    refine (hrun.errs ((World.removeNamedGraph_errs _).mono Refusal.of_store)).mono ?_ (fun e w' he => he.2)
    rintro b w' ⟨h', hw', hids, hall, hnames⟩
    have hdone : h.ids ≤ h'.ids ∧ h'.all = h.all \ {q | ∃ m ∈ done ++ [n], q.graphName = .namedNode m} ∧
        h'.names = h.names \ {g | ∃ m ∈ done ++ [n], g = .namedNode m} := by
      refine ⟨hids ▸ hle₁, ?_, ?_⟩
      · rw [hall, hall₁, Set.sdiff_sdiff]
        congr 1
        ext q
        simp [or_and_right, exists_or]
      · rw [hnames, hnames₁, Set.sdiff_sdiff]
        congr 1
        ext g
        simp [or_and_right, exists_or, or_comm]
    apply wp_ite
    · intro _ r w'' hrun
      cases hrun
      exact ⟨h', Acting.noted hw' _, hdone⟩
    · exact fun _ => wp_pure ⟨h', hw', hdone⟩

/-- The graphs that go are those a `DROP` drops. -/
theorem doomed_reads (target : GraphTarget) : wp (doomed target : Run B (List NamedNode))
    (fun names w' => w' = w ∧ {g | ∃ n ∈ names, g = .namedNode n} = dropped h target) (fun e _ => Refusal e) w := by
  have hnodes : wp (namedGraphNodes : Run B (List NamedNode))
      (fun names w' => w' = w ∧ {g | ∃ n ∈ names, g = .namedNode n} = {g | g ∈ h.names ∧ ∃ n, g = .namedNode n}) (fun e _ => Refusal e) w := by
    refine (namedGraphNodes_reads L hw).mono ?_ (fun _ _ h => h)
    rintro names w' ⟨rfl, hnames⟩
    refine ⟨rfl, ?_⟩
    ext g
    simp only [Set.mem_ofPred_eq, hnames]
    constructor
    · rintro ⟨n, hn, rfl⟩
      exact ⟨hn, n, rfl⟩
    · rintro ⟨hg, n, rfl⟩
      exact ⟨n, hg, rfl⟩
  cases target with
  | namedNode n => exact wp_pure ⟨rfl, by simp [dropped]⟩
  | defaultGraph => exact wp_pure ⟨rfl, by simp [dropped]⟩
  | allGraphs => exact hnodes
  | namedGraphs => exact hnodes

theorem dropGraph_acting (target : GraphTarget) : wp (dropGraph target : Run B Unit)
    (fun _ w' => ∃ mid h', Acting Sim w₀ h₀ w' h' ∧ Cleared Sim w₀.session h₀ target h mid ∧ mid.ids ≤ h'.ids ∧
      h'.all = mid.all \ {q | q.graphName ∈ dropped mid target} ∧ h'.names = mid.names \ dropped mid target)
    (fun e w' => Refusal e ∨ w' = w ∧ (¬ Exists h target ∨ ∃ p, Consulted Sim w₀.session h₀ p ∧ p.semantics = .fail)) w := by
  refine wp_bind ((clear_acting L hw target).mono ?_ (fun _ _ h => h))
  rintro - w₁ ⟨mid, hw₁, hclear, -⟩
  refine wp_bind ((doomed_reads L hw₁ target).mono ?_ (fun e w' he => .inl he))
  rintro names w' ⟨rfl, hnames⟩
  refine (dropEach_acting L hw₁ names).mono ?_ (fun e w' he => .inl he)
  rintro - w' ⟨h', hw', hle, hall, hnames'⟩
  refine ⟨mid, h', hw', hclear, hle, ?_, ?_⟩
  · rw [hall, ← hnames]
    rfl
  · rw [hnames', hnames]

theorem deleteInsert_acting (O : Outside B) (request : DeleteInsert) : wp (deleteInsert O request)
    (fun _ w' => ∃ h', Acting Sim w₀ h₀ w' h' ∧ (∃ delta mid, O.execute request w.session.compiled w.store = .ok delta ∧
      Removed Sim w₀.session h₀ (delta.filterMap DeleteInsertQuad.deleted) h mid ∧
      Inserted Sim w₀.session h₀ (delta.filterMap DeleteInsertQuad.inserted) mid h') ∧ surplus w' h' = surplus w h) (fun _ _ => True) w := by
  apply wp_bind
  refine wp_reads (fun delta hdelta => ?_) (fun _ _ => trivial)
  refine wp_bind ((removeEach_acting L hw _).mono ?_ (fun _ _ _ => trivial))
  rintro - w₁ ⟨mid, hw₁, hrem, hsum₁⟩
  refine (insertEach_acting L hw₁ _).mono ?_ (fun _ _ _ => trivial)
  rintro - w' ⟨h', hw', hins, hsum⟩
  exact ⟨h', hw', ⟨delta, mid, hdelta, hrem, hins⟩, hsum.trans hsum₁⟩

/-- An operation does what it is for, or fails; one that could be silent about it fails because the policy
refuses a write, the store fails, or it cannot be performed and has changed nothing. -/
theorem perform_acting (O : Outside B) (op : Operation) : wp (perform O op)
    (fun _ w' => ∃ h', Acting Sim w₀ h₀ w' h' ∧ Performs Sim O w₀.session h₀ op h h' ∧
      ((∀ silent target, op ≠ .drop silent target) → surplus w' h' = surplus w h))
    (fun e w' => op.silent = true → Refusal e ∨ w' = w ∧ Skips Sim O w₀.session h₀ op h) w := by
  cases op with
  | insertData data =>
    refine (insertEach_acting L hw _).mono ?_ (fun _ _ _ hsilent => by cases hsilent)
    rintro - w' ⟨h', hw', hins, hsum⟩
    exact ⟨h', hw', hins, fun _ => hsum⟩
  | deleteData data =>
    refine (removeEach_acting L hw _).mono ?_ (fun _ _ _ hsilent => by cases hsilent)
    rintro - w' ⟨h', hw', hrem, hsum⟩
    exact ⟨h', hw', hrem, fun _ => hsum⟩
  | deleteInsert request =>
    refine (deleteInsert_acting L hw O request).mono ?_ (fun _ _ _ hsilent => by cases hsilent)
    rintro - w' ⟨h', hw', ⟨delta, mid, hdelta, hrem, hins⟩, hsum⟩
    exact ⟨h', hw', ⟨_, _, h.saved, delta, mid, hw.consulted, hw.sim, hdelta, hrem, hins⟩, fun _ => hsum⟩
  | load silent source destination =>
    change wp (load O source _) _ _ w
    unfold load
    cases hdoc : document O source with
    | error e => exact wp_throw (fun _ => .inr ⟨rfl, e, hdoc⟩)
    | ok quads =>
      cases quads with
      | none => exact wp_of (fun a s' hrun => by cases hrun) (fun e s' hrun => by cases hrun)
      | some quads =>
        refine (insertEach_acting L hw _).mono ?_ (fun e w' he _ => .inl he)
        rintro - w' ⟨h', hw', hins, hsum⟩
        exact ⟨h', hw', ⟨quads, hdoc, hins⟩, fun _ => hsum⟩
  | clear silent target =>
    refine (clear_acting L hw target).mono ?_ (fun e w' he _ => he)
    rintro - w' ⟨h', hw', hclear, hsum⟩
    exact ⟨h', hw', hclear, fun _ => hsum⟩
  | create silent n =>
    refine (create_acting L hw n).mono ?_ (fun e w' he _ => he)
    rintro - w' ⟨h', hw', hcreate, hsum⟩
    exact ⟨h', hw', hcreate, fun _ => hsum⟩
  | drop silent target =>
    refine (dropGraph_acting L hw target).mono ?_ (fun e w' he _ => he)
    rintro - w' ⟨mid, h', hw', hclear, hle, hall, hnames⟩
    exact ⟨h', hw', ⟨mid, hclear, hle, hall, hnames⟩, fun hno => absurd rfl (hno silent target)⟩

end

end Holos.Engine.Update
