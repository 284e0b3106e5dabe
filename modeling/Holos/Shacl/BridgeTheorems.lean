import Holos.Engine.Idle
import Holos.Shacl.BridgeRuns
/-!
# A bridge and the store bridged afresh

Batch after batch a bridge holds what a fresh one holds, as long as no triple lingers in another
graph. What was told since a checkpoint is taken back, as long as it doubled no triple.
-/

namespace Holos

open Lib Lib.Eff Security

namespace Shacl

variable {ids ids' : Ids} {decode : Decode} {f f' : Forward} {g : GraphFilter} {changes : List Change}

/-! ## Decoding -/

/-- A store decodes the ids it gave out. -/
def Agrees (decode : Decode) (ids : Ids) : Prop := ∀ t i, ids t = some i → decode i = .ok (some t)

/-- What was met is what the ids were given for. -/
def Within (ids : Ids) (f : Forward) : Prop := ∀ i t, f.lookup i = some t → ids t = some i

/-- The ids decoded, and nothing else. -/
def asDecode (ids : Ids) : Decode := fun i => .ok (ids.symm i)

theorem asDecode_eq {i : TermId} {t : Term} (h : ids t = some i) : asDecode ids i = .ok (some t) := by
  unfold asDecode
  rw [(PEquiv.eq_some_iff ids).2 h]

theorem Agrees.eq {i : TermId} {t : Term} (h : Agrees decode ids) (hi : ids t = some i) : decode i = asDecode ids i := by
  rw [h t i hi, asDecode_eq hi]

theorem Within.nil : Within ids [] := fun _ _ h => nomatch h

theorem Within.mono (h : Within ids f) (hle : ids ≤ ids') : Within ids' f := fun i t hi => hle _ _ (h i t hi)

theorem Within.learns (h : Within ids f) (hl : Learns (asDecode ids) f f') : Within ids f' := by
  intro i t hi
  rcases hl.source i t hi with hi | hi
  · exact h i t hi
  · exact (PEquiv.eq_some_iff ids).1 (Option.some.inj (show some (ids.symm i) = some (some t) from congrArg some (Except.ok.inj hi)))

theorem Within.rowResolves (h : Within ids f) {e : EncodedQuad} {row : Row} (hrow : HasRow ids e row) :
    RowResolves (asDecode ids) f e row := by
  have hone : ∀ i t, ids t = some i → Resolves (asDecode ids) f i t := by
    intro i t hi
    cases hl : f.lookup i with
    | none => exact .inr ⟨hl, asDecode_eq hi⟩
    | some t' => exact .inl (by rw [hl, Ids.term_inj (h i t' hl) hi])
  exact ⟨hone _ _ hrow.1, hone _ _ hrow.2.1, hone _ _ hrow.2.2⟩

theorem intern_congr {decode' : Decode} {i : TermId} (h : decode i = decode' i) : intern decode i = intern decode' i := by
  unfold intern
  rw [h]

theorem internRow_congr (h : Agrees decode ids) {e : EncodedQuad} (hrow : ∃ row, HasRow ids e row) :
    internRow decode e = internRow (asDecode ids) e := by
  obtain ⟨row, hs, hp, ho⟩ := hrow
  unfold internRow
  rw [intern_congr (h.eq hs), intern_congr (h.eq hp), intern_congr (h.eq ho)]

theorem foldlM_congr {α β ε σ : Type} {step step' : β → α → Eff ε σ β} {l : List α} (h : ∀ a ∈ l, ∀ b, step b a = step' b a) (b : β) :
    l.foldlM step b = l.foldlM step' b := by
  induction l generalizing b with
  | nil => rfl
  | cons a l ih =>
    rw [List.foldlM_cons, List.foldlM_cons, h a List.mem_cons_self b]
    congr 1
    funext b'
    exact ih (fun a' ha' => h a' (List.mem_cons_of_mem a ha')) b'

theorem bridge_congr (h : Agrees decode ids) {quads : List EncodedQuad} (hrow : ∀ e ∈ quads, ∃ row, HasRow ids e row) :
    bridge decode quads = bridge (asDecode ids) quads :=
  foldlM_congr (fun e he rows => by rw [internRow_congr h (hrow e he)]) ∅

theorem bridge_rows (h : Agrees decode ids) (hf : Within ids f) {quads : List EncodedQuad} (hrow : ∀ e ∈ quads, ∃ row, HasRow ids e row) :
    ∃ rows f', (bridge decode quads).exec f = some (.ok rows, f') ∧ (rows : Set Row) = {row | ∃ e ∈ quads, HasRow ids e row} ∧
      Within ids f' := by
  obtain ⟨rows, f', hrun, hrows, hl⟩ := @bridge_spec (asDecode ids) f (rowOf ids) quads
    (fun e he => hf.rowResolves (hasRow_rowOf (hrow e he)))
  refine ⟨rows, f', by rw [bridge_congr h hrow, hrun], ?_, hf.learns hl⟩
  rw [hrows]
  ext row
  constructor
  · rintro ⟨e, he, rfl⟩
    exact ⟨e, he, hasRow_rowOf (hrow e he)⟩
  · rintro ⟨e, he, hr⟩
    exact ⟨e, he, rowOf_eq hr⟩

namespace EngineRun

variable {E : RuleEngine} {run run' : EngineRun E}

theorem prepare_congr (h : Agrees decode ids) {scan : GraphFilter → Except StorageError (List EncodedQuad)}
    (hrow : ∀ g qs, scan g = .ok qs → ∀ e ∈ qs, ∃ row, HasRow ids e row) {options : Options} :
    (EngineRun.prepare decode scan options : Option (Except ShaclError (EngineRun E))) =
      EngineRun.prepare (asDecode ids) scan options := by
  unfold EngineRun.prepare
  simp only [exec_bind, exec_reads]
  cases hdata : scan options.dataGraph with
  | error e => rfl
  | ok data =>
    simp only [World.failed, Option.bind_some]
    rw [bridge_congr h (hrow _ _ hdata)]
    cases hshapes : scan options.shapesGraph with
    | error e => rfl
    | ok shapes =>
      dsimp only
      rw [bridge_congr h (hrow _ _ hshapes)]

/-! ## One batch -/

theorem netOf_congr (h : Agrees decode ids) (hrow : ∀ c ∈ changes, ∃ row, HasRow ids c.quad row) :
    netOf decode g changes = netOf (asDecode ids) g changes :=
  foldlM_congr (fun c hc net => by rw [internRow_congr h (hrow c hc)]) []

theorem netOf_selected (decode : Decode) (changes : List Change) : netOf decode g changes = netOf decode g (selected g changes) := by
  have hall : ∀ net : List (Row × Bool), changes.foldlM (fun net change =>
        if inGraph change.quad.graphName g then do return note net (← internRow decode change.quad) change.added else return net) net =
      (selected g changes).foldlM (fun net change =>
        if inGraph change.quad.graphName g then do return note net (← internRow decode change.quad) change.added else return net) net := by
    induction changes with
    | nil => exact fun _ => rfl
    | cons c changes ih =>
      intro net
      unfold selected
      by_cases hg : inGraph c.quad.graphName g = true
      · rw [List.filter_cons, if_pos hg, List.foldlM_cons, List.foldlM_cons]
        congr 1
        funext net'
        exact ih net'
      · rw [List.filter_cons, if_neg hg, List.foldlM_cons, if_neg hg, pure_bind]
        exact ih net
  exact hall []

/-- The terms of a batch's rows were all met. -/
def Met (f : Forward) (ids : Ids) (g : GraphFilter) (changes : List Change) : Prop :=
  ∀ c ∈ selected g changes, RowKnown f c.quad (rowOf ids c.quad)

theorem netOf_resolved (hres : ∀ c ∈ selected g changes, RowResolves decode f c.quad (rowOf ids c.quad)) :
    ∃ f', (netOf decode g changes).exec f = some (.ok (net (fun c => rowOf ids c.quad) (·.added) (selected g changes)), f') ∧
      Learns decode f f' ∧ Met f' ids g changes := by
  obtain ⟨f', hrun, hl, hknown⟩ := @netOf_spec decode f Change (fun c => rowOf ids c.quad) g id (selected g changes)
    (fun c hc => (mem_selected.1 hc).2) hres
  rw [List.map_id] at hrun
  exact ⟨f', by rw [netOf_selected, hrun]; rfl, hl, hknown⟩

theorem netOf_rows (h : Agrees decode ids) (hf : Within ids f) (hrow : ∀ c ∈ changes, ∃ row, HasRow ids c.quad row) :
    ∃ f', (netOf decode g changes).exec f = some (.ok (net (fun c => rowOf ids c.quad) (·.added) (selected g changes)), f') ∧
      Learns (asDecode ids) f f' ∧ Met f' ids g changes := by
  rw [netOf_congr h hrow]
  exact netOf_resolved (fun c hc => hf.rowResolves (hasRow_rowOf (hrow c (mem_selected.1 hc).1)))

/-- A run once it was told of a batch with this net effect. -/
def told (run : EngineRun E) (net : List (Row × Bool)) (forward : Forward) (changes : List Change) : EngineRun E :=
  { run with
    graph := (run.graph \ ((net.filter (fun e => !e.2)).map (·.1)).toFinset) ∪ ((net.filter (·.2)).map (·.1)).toFinset
    forward
    pending := run.pending.map (· ++ changes) }

theorem apply_told {net : List (Row × Bool)} (hstale : run.stale = false)
    (hshapes : redefines decode run.options.shapesGraph changes = .ok false)
    (hnet : (netOf decode run.options.dataGraph changes).exec run.forward = some (.ok net, f)) :
    (apply decode changes).exec run = some (.ok (), run.told net f changes) := by
  obtain ⟨graph, forward, shapes, options, pending, stale⟩ := run
  cases hstale
  unfold apply
  simp only [exec_bind, exec_get, Option.bind_some, Bool.false_eq_true, if_false, exec_reads, hshapes, exec_on, hnet,
    Option.map_some, exec_modify]
  rfl

/-- A batch that is taken passes the shapes check, and its net effect is found. -/
theorem told_of_apply (h : (apply decode changes).exec run = some (.ok (), run')) :
    run.stale = false ∧ redefines decode run.options.shapesGraph changes = .ok false ∧
      ∃ net f, (netOf decode run.options.dataGraph changes).exec run.forward = some (.ok net, f) ∧ run' = run.told net f changes := by
  have hwp : wp (apply decode changes : Eff ShaclError (EngineRun E) Unit) (fun _ run' => run.stale = false ∧
      redefines decode run.options.shapesGraph changes = .ok false ∧
      ∃ net f, (netOf decode run.options.dataGraph changes).exec run.forward = some (.ok net, f) ∧ run' = run.told net f changes)
      (fun _ _ => True) run := by
    unfold apply
    apply wp_bind
    intro r run₁ hget
    cases hget
    apply wp_ite
    · exact fun _ => wp_bind (wp_throw trivial)
    · intro hstale
      apply wp_bind
      refine wp_reads (fun found hfound => ?_) (fun _ _ => trivial)
      apply wp_ite
      · exact fun _ => wp_bind (wp_throw trivial)
      · intro hnone
        rw [Bool.not_eq_true] at hstale hnone
        subst hnone
        apply wp_bind
        intro r run₁ hnet
        rw [exec_on] at hnet
        obtain ⟨⟨r', f⟩, hrun, heq⟩ := Option.map_eq_some_iff.1 hnet
        cases heq
        cases r' with
        | error e => trivial
        | ok net =>
          intro r run₁ hmodify
          cases hmodify
          exact ⟨hstale, hfound, net, f, hrun, rfl⟩
  exact hwp.ok h

theorem told_graph {net' : List (Row × Bool)} (hnet : net' = net (fun c => rowOf ids c.quad) (·.added) (selected g changes)) :
    ((run.told net' f changes).graph : Set Row) = Edit.replay ↑run.graph (rowEdits ids g changes) := by
  rw [hnet]
  exact coe_graph run.graph (selected g changes)

/-! ## A store and the bridge that is told of it -/

/-- The store is changed by writes that had something to do. Terms may get ids on the way, and scopes
begin and end. -/
inductive Made (B : Backend) (Sim : B.State → Held → Prop) (s : B.State) (h : Held) : List Change → B.State → Held → Prop
  | start : Made B Sim s h [] s h
  | beside {changes s₁ h₁ s₂ h₂} : Made B Sim s h changes s₁ h₁ → Sim s₂ h₂ → h₂.contents = h₁.contents → h₁.ids ≤ h₂.ids →
    Made B Sim s h changes s₂ h₂
  | write {changes s₁ h₁ s₂} {c : Change} : Made B Sim s h changes s₁ h₁ → (∃ q, h₁.ids.quad q = some c.quad) →
    B.write s₁ c.op = (.ok true, s₂) → Made B Sim s h (changes ++ [c]) s₂ (h₁.write c.op)

variable {B : Backend} {Sim : B.State → Held → Prop} {Open : B.State → Contents × Ids → Prop}
variable {s s' : B.State} {h h' : Held}

/-- What writes make of a store. -/
structure Moved (ids : Ids) (S : Set EncodedQuad) (changes : List Change) (h' : Held) : Prop where
  decodes : h'.Decodes
  ids : ids ≤ h'.ids
  quads : (h'.contents.quads : Set EncodedQuad) = Edit.replay S (changes.map Change.edit)
  effective : Edit.Effective S (changes.map Change.edit)
  known : ∀ c ∈ changes, ∃ q, h'.ids.quad q = some c.quad

theorem Moved.rows {S : Set EncodedQuad} (hm : Moved ids S changes h') : ∀ c ∈ changes, ∃ row, HasRow h'.ids c.quad row :=
  fun c hc => HasRow.of_quad (hm.known c hc)

theorem Moved.start (hd : h.Decodes) : Moved h.ids ↑h.contents.quads [] h where
  decodes := hd
  ids := le_rfl
  quads := rfl
  effective := trivial
  known := fun _ hc => nomatch hc

theorem Moved.append {S : Set EncodedQuad} {changes' : List Change} {h'' : Held} (hm : Moved ids S changes h')
    (hm' : Moved h'.ids ↑h'.contents.quads changes' h'') : Moved ids S (changes ++ changes') h'' where
  decodes := hm'.decodes
  ids := hm.ids.trans hm'.ids
  quads := by rw [hm'.quads, hm.quads, List.map_append, Edit.replay_append]
  effective := by
    rw [List.map_append, Edit.effective_append, ← hm.quads]
    exact ⟨hm.effective, hm'.effective⟩
  known := by
    intro c hc
    rcases List.mem_append.1 hc with hc | hc
    · obtain ⟨q, hq⟩ := hm.known c hc
      exact ⟨q, Ids.quad_mono hm'.ids hq⟩
    · exact hm'.known c hc

/-- One write is one edit. -/
theorem Moved.write {c : Change} (hd : h.Decodes) (hq : ∃ q, h.ids.quad q = some c.quad) (hreply : h.contents.changes c.op = true) :
    Moved h.ids ↑h.contents.quads [c] (h.write c.op) := by
  obtain ⟨q, hq⟩ := hq
  obtain ⟨quad, added⟩ := c
  cases added with
  | true =>
    have hnew : quad ∉ h.contents.quads := by simpa [Change.op, Contents.changes] using hreply
    refine ⟨hd.insert hq, le_rfl, Finset.coe_insert quad h.contents.quads, ⟨hnew, trivial⟩, fun c hc => ?_⟩
    rw [List.mem_singleton.1 hc]
    exact ⟨q, hq⟩
  | false =>
    have hthere : quad ∈ h.contents.quads := by simpa [Change.op, Contents.changes] using hreply
    refine ⟨hd.remove, le_rfl, Finset.coe_erase quad h.contents.quads, ⟨hthere, trivial⟩, fun c hc => ?_⟩
    rw [List.mem_singleton.1 hc]
    exact ⟨q, hq⟩

theorem Made.moved (L : B.Lawful Sim Open) (hs : Sim s h) (hd : h.Decodes) (hm : Made B Sim s h changes s' h') :
    Sim s' h' ∧ Moved h.ids ↑h.contents.quads changes h' := by
  induction hm with
  | start => exact ⟨hs, .start hd⟩
  | @beside changes s₁ h₁ s₂ h₂ _ hs₂ hcontents hle ih =>
    obtain ⟨-, hm⟩ := ih
    refine ⟨hs₂, fun e he => ?_, hm.ids.trans hle, by rw [hcontents]; exact hm.quads, hm.effective, fun c hc => ?_⟩
    · obtain ⟨q, hq⟩ := hm.decodes e (by rwa [hcontents] at he)
      exact ⟨q, Ids.quad_mono hle hq⟩
    · obtain ⟨q, hq⟩ := hm.known c hc
      exact ⟨q, Ids.quad_mono hle hq⟩
  | write _ hq hwrite ih =>
    obtain ⟨hs₁, hm⟩ := ih
    obtain ⟨hreply, hs₂⟩ := L.write hs₁ hwrite
    exact ⟨hs₂, hm.append (.write hm.decodes hq hreply.symm)⟩

/-- A batch the bridge was told of. -/
structure Batch where
  changes : List Change
  /-- What the store holds then. -/
  quads : Finset EncodedQuad
  /-- What the bridge holds then. -/
  held : Finset Row
  /-- What a bridge built then holds. -/
  fresh : Finset Row

/-- Batch after batch is written and told, and the store bridged afresh. -/
inductive Telling (B : Backend) (Sim : B.State → Held → Prop) (s : B.State) (h : Held) (run : EngineRun E) :
    List Batch → B.State → Held → EngineRun E → Prop
  | start : Telling B Sim s h run [] s h run
  | batch {batches changes s₁ h₁ run₁ s₂ h₂ run₂ rows fresh f} : Telling B Sim s h run batches s₁ h₁ run₁ →
    Made B Sim s₁ h₁ changes s₂ h₂ → (apply (B.decode s₂) changes).exec run₁ = some (.ok (), run₂) →
    B.scan s₂ none none none run₂.options.dataGraph = .ok rows → (bridge (B.decode s₂) rows).exec [] = some (.ok fresh, f) →
    Telling B Sim s h run (batches ++ [⟨changes, h₂.contents.quads, run₂.graph, fresh⟩]) s₂ h₂ run₂

/-- All that was told, one batch after another. -/
def Batch.all (batches : List Batch) : List Change := batches.flatMap (·.changes)

theorem Batch.all_concat (batches : List Batch) (b : Batch) : Batch.all (batches ++ [b]) = Batch.all batches ++ b.changes := by
  unfold Batch.all
  rw [List.flatMap_append, List.flatMap_singleton]

/-! ## What a bridge holds after many batches -/

theorem rowEdits_append {changes' : List Change} : rowEdits ids g (changes ++ changes') = rowEdits ids g changes ++ rowEdits ids g changes' := by
  unfold rowEdits selected
  rw [List.filter_append, List.map_append]

theorem rowEdits_mono (hrow : ∀ c ∈ changes, ∃ row, HasRow ids c.quad row) (hle : ids ≤ ids') :
    rowEdits ids' g changes = rowEdits ids g changes := by
  unfold rowEdits
  refine List.map_congr_left (fun c hc => ?_)
  rw [rowOf_eq ((hasRow_rowOf (hrow c (mem_selected.1 hc).1)).mono hle)]

/-- A bridge that was told of changes. -/
structure Tells (run : EngineRun E) (ids : Ids) (changes : List Change) (run' : EngineRun E) : Prop where
  within : Within ids run'.forward
  options : run'.options = run.options
  stale : run'.stale = run.stale
  graph : (run'.graph : Set Row) = Edit.replay ↑run.graph (rowEdits ids run.options.dataGraph changes)
  pending : run'.pending = run.pending.map (· ++ changes)
  met : Met run'.forward ids run.options.dataGraph changes

theorem Tells.start (hf : Within ids run.forward) : Tells run ids [] run where
  within := hf
  options := rfl
  stale := rfl
  graph := rfl
  pending := by cases run.pending <;> simp
  met := fun _ hc => nomatch hc

theorem Tells.concat {run'' : EngineRun E} {changes' : List Change} (ht : Tells run ids changes run')
    (hrow : ∀ c ∈ changes, ∃ row, HasRow ids c.quad row) (hrow' : ∀ c ∈ changes', ∃ row, HasRow ids' c.quad row) (hle : ids ≤ ids')
    (hd : Agrees decode ids') (happly : (apply decode changes').exec run' = some (.ok (), run'')) :
    Tells run ids' (changes ++ changes') run'' := by
  obtain ⟨-, -, net', f', hnet, rfl⟩ := told_of_apply happly
  obtain ⟨f'', hrun, hl, hmet⟩ := @netOf_rows ids' decode run'.forward run'.options.dataGraph changes' hd (ht.within.mono hle) hrow'
  rw [hnet] at hrun
  cases hrun
  refine ⟨(ht.within.mono hle).learns hl, ht.options, ht.stale, ?_, ?_, ?_⟩
  · rw [told_graph rfl, ht.graph, ht.options, rowEdits_append, Edit.replay_append, rowEdits_mono hrow hle]
  · change run'.pending.map (· ++ changes') = _
    rw [ht.pending, Option.map_map]
    congr 1
    funext pending
    exact List.append_assoc _ _ _
  · intro c hc
    unfold selected at hc
    rw [List.filter_append] at hc
    rcases List.mem_append.1 hc with hc | hc
    · rw [rowOf_eq ((hasRow_rowOf (hrow c (mem_selected.1 hc).1)).mono hle)]
      exact ⟨hl.kept _ _ (ht.met c hc).1, hl.kept _ _ (ht.met c hc).2.1, hl.kept _ _ (ht.met c hc).2.2⟩
    · rw [ht.options] at hmet
      exact hmet c hc

theorem agrees (L : B.Lawful Sim Open) (hs : Sim s h) : Agrees (B.decode s) h.ids := fun _ _ hi => L.decode hs hi

theorem mem_scan_iff (L : B.Lawful Sim Open) (hs : Sim s h) {rows : List EncodedQuad} (hscan : B.scan s none none none g = .ok rows)
    (e : EncodedQuad) : e ∈ rows ↔ e ∈ h.contents.quads ∧ inGraph e.graphName g = true := by
  have hsel : Index.GraphFilter.admits g e = inGraph e.graphName g := by
    cases g <;> simp [Index.GraphFilter.admits, inGraph]
  rw [L.mem_scan hs hscan, hsel]
  simp [Index.matchesTriple]

/-- The rows of a whole graph selection, by a scan. -/
theorem fresh_rows (L : B.Lawful Sim Open) (hs : Sim s h) (hd : h.Decodes) {rows : List EncodedQuad} {fresh : Finset Row}
    (hscan : B.scan s none none none g = .ok rows) (hbridge : (bridge (B.decode s) rows).exec [] = some (.ok fresh, f)) :
    (fresh : Set Row) = rowsOf h.ids g ↑h.contents.quads := by
  have hmem := mem_scan_iff L hs hscan
  obtain ⟨fresh', f', hrun, hrows, -⟩ := bridge_rows (agrees L hs) Within.nil (fun e he => HasRow.of_quad (hd e ((hmem e).1 he).1))
  rw [hbridge] at hrun
  cases hrun
  rw [hrows]
  ext row
  constructor
  · rintro ⟨e, he, hr⟩
    exact ⟨e, ((hmem e).1 he).1, ((hmem e).1 he).2, hr⟩
  · rintro ⟨e, he, hg, hr⟩
    exact ⟨e, (hmem e).2 ⟨he, hg⟩, hr⟩

variable {batches : List Batch}

theorem Telling.tells (L : B.Lawful Sim Open) (hs : Sim s h) (hd : h.Decodes) (hf : Within h.ids run.forward)
    (ht : Telling B Sim s h run batches s' h' run') :
    Sim s' h' ∧ Moved h.ids ↑h.contents.quads (Batch.all batches) h' ∧ Tells run h'.ids (Batch.all batches) run' := by
  induction ht with
  | start => exact ⟨hs, .start hd, .start hf⟩
  | batch _ hmade happly _ _ ih =>
    obtain ⟨hs₁, hm₁, ht₁⟩ := ih
    obtain ⟨hs₂, hm₂⟩ := hmade.moved L hs₁ hm₁.decodes
    rw [Batch.all_concat]
    exact ⟨hs₂, hm₁.append hm₂, ht₁.concat hm₁.rows hm₂.rows hm₂.ids (agrees L hs₂) happly⟩

/-- The bridge is in step with its store. -/
structure InStep (h : Held) (run : EngineRun E) : Prop where
  within : Within h.ids run.forward
  rows : (run.graph : Set Row) = rowsOf h.ids run.options.dataGraph ↑h.contents.quads

theorem InStep.told (hin : InStep h run) (hd : h.Decodes) (hm : Moved h.ids ↑h.contents.quads changes h')
    (ht : Tells run h'.ids changes run') :
    (run'.graph : Set Row) = rowsOf h'.ids run.options.dataGraph ↑h'.contents.quads ↔
      ¬ Lingers run.options.dataGraph ↑h'.contents.quads changes := by
  have hmono := @rowsOf_mono h.ids h'.ids run.options.dataGraph _ (fun e he => HasRow.of_quad (hd e he)) hm.ids
  rw [ht.graph, hin.rows, ← hmono, hm.quads]
  exact replay_eq_rowsOf_iff hm.rows

/-- In step from the start, it is so after every batch exactly if no batch leaves a triple lingering. -/
theorem Telling.inStep (L : B.Lawful Sim Open) (hs : Sim s h) (hd : h.Decodes) (hin : InStep h run)
    (ht : Telling B Sim s h run batches s' h' run') :
    ((∀ b ∈ batches, b.held = b.fresh) ↔ ∀ b ∈ batches, ¬ Lingers run.options.dataGraph ↑b.quads b.changes) ∧
      ((∀ b ∈ batches, b.held = b.fresh) → InStep h' run') := by
  induction ht with
  | start => exact ⟨by simp, fun _ => hin⟩
  | @batch batches changes s₁ h₁ run₁ s₂ h₂ run₂ rows fresh f ht hmade happly hscan hbridge ih =>
    obtain ⟨hiff, hstep⟩ := ih
    obtain ⟨hs₁, hm₁, ht₁⟩ := ht.tells L hs hd hin.within
    obtain ⟨hs₂, hm₂⟩ := hmade.moved L hs₁ hm₁.decodes
    have ht₂ : Tells run₁ h₂.ids changes run₂ := (Tells.start ht₁.within).concat (fun c hc => nomatch hc) hm₂.rows hm₂.ids (agrees L hs₂) happly
    have hoptions : run₂.options.dataGraph = run.options.dataGraph := by rw [ht₂.options, ht₁.options]
    have hfresh := fresh_rows L hs₂ hm₂.decodes hscan hbridge
    have hlast : (∀ b ∈ batches, b.held = b.fresh) →
        (run₂.graph = fresh ↔ ¬ Lingers run.options.dataGraph ↑h₂.contents.quads changes) := by
      intro hall
      have htold := (hstep hall).told hm₁.decodes hm₂ ht₂
      rw [ht₁.options] at htold
      rw [← htold, ← hoptions, ← hfresh]
      exact Finset.coe_inj.symm
    simp only [List.forall_mem_append, List.forall_mem_singleton]
    refine ⟨⟨fun hall => ⟨hiff.1 hall.1, (hlast hall.1).1 hall.2⟩, fun hall => ?_⟩, fun hall => ⟨ht₂.within, ?_⟩⟩
    · have hbefore := hiff.2 hall.1
      exact ⟨hbefore, (hlast hbefore).2 hall.2⟩
    · rw [hall.2, hfresh]

/-! ## Back to a checkpoint -/

/-- What was told since a checkpoint is taken back exactly if it doubled no triple. -/
theorem Telling.reverted (L : B.Lawful Sim Open) (hs : Sim s h) (hd : h.Decodes) (hin : InStep h run) (hstale : run.stale = false)
    (ht : Telling B Sim s h run.checkpoint batches s' h' run') (decode : Decode)
    (hshapes : redefines decode run.options.shapesGraph (inverseOf (Batch.all batches)) = .ok false) :
    ∃ run'', run'.revert decode = some run'' ∧ run''.stale = false ∧ run''.pending = none ∧
      (run''.graph = run.graph ↔ ¬ Doubles run.options.dataGraph ↑h.contents.quads (Batch.all batches)) := by
  obtain ⟨-, hm, ht⟩ := @Telling.tells _ run.checkpoint run' B Sim Open s s' h h' batches L hs hd hin.within ht
  have hpending : run'.pending = some (Batch.all batches) := ht.pending
  -- every term is one met on the way in, so the store is not asked
  have hres : ∀ c ∈ selected run'.options.dataGraph (inverseOf (Batch.all batches)),
      RowResolves decode run'.forward c.quad (rowOf h'.ids c.quad) := by
    rw [ht.options]
    change ∀ c ∈ selected run.options.dataGraph (inverseOf (Batch.all batches)), _
    rw [selected_inverseOf]
    intro c hc
    unfold inverseOf at hc
    obtain ⟨c', hc', rfl⟩ := List.mem_map.1 hc
    exact (ht.met c' (List.mem_reverse.1 hc')).resolves
  obtain ⟨f', hnet, -, -⟩ := netOf_resolved hres
  have hstale' : run'.stale = false := ht.stale.trans hstale
  have happly := @apply_told decode f' _ E { run' with pending := none } _ hstale'
    (show redefines decode run'.options.shapesGraph _ = .ok false by rw [ht.options]; exact hshapes) hnet
  refine ⟨EngineRun.told { run' with pending := none } (net (fun c => rowOf h'.ids c.quad) (·.added)
    (selected run'.options.dataGraph (inverseOf (Batch.all batches)))) f' (inverseOf (Batch.all batches)), ?_, hstale', rfl, ?_⟩
  · simp only [revert, hpending]
    rw [show (Batch.all batches).reverse.map (fun change => { change with added := !change.added }) = inverseOf (Batch.all batches)
      from rfl, happly]
  · rw [← Finset.coe_inj, told_graph rfl]
    change Edit.replay ↑run'.graph (rowEdits h'.ids run'.options.dataGraph _) = ↑run.graph ↔ _
    rw [ht.options, ht.graph]
    change Edit.replay (Edit.replay ↑run.graph (rowEdits h'.ids run.options.dataGraph _)) (rowEdits h'.ids run.options.dataGraph _) =
      ↑run.graph ↔ _
    have hmono := @rowsOf_mono h.ids h'.ids run.options.dataGraph _ (fun e he => HasRow.of_quad (hd e he)) hm.ids
    rw [hin.rows, ← hmono]
    exact replay_inverseOf_iff hm.rows hm.effective

/-! ## From a prepared run on -/

theorem prepare_inStep (L : B.Lawful Sim Open) (hs : Sim s h) (hd : h.Decodes) {options : Options}
    (hprep : EngineRun.prepare (B.decode s) (B.scan s none none none) options = some (.ok run)) :
    InStep h run ∧ run.options = options ∧ run.stale = false := by
  have hrow : ∀ g qs, B.scan s none none none g = .ok qs → ∀ e ∈ qs, ∃ row, HasRow h.ids e row :=
    fun g qs hscan e he => HasRow.of_quad (hd e ((mem_scan_iff L hs hscan e).1 he).1)
  rw [prepare_congr (agrees L hs) hrow] at hprep
  obtain ⟨data, -, hdata, -, hgraph, -, hoptions, -, hstale, hl⟩ := @EngineRun.prepare_spec (asDecode h.ids) E _ options (rowOf h.ids)
    run hprep (fun g qs e hscan he => by
      obtain ⟨hs', hp, ho⟩ := hasRow_rowOf (hrow g qs hscan e he)
      exact ⟨asDecode_eq hs', asDecode_eq hp, asDecode_eq ho⟩)
  refine ⟨⟨Within.nil.learns hl, ?_⟩, hoptions, hstale⟩
  rw [hgraph, hoptions]
  ext row
  constructor
  · rintro ⟨e, he, rfl⟩
    obtain ⟨hmem, hg⟩ := (mem_scan_iff L hs hdata e).1 he
    exact ⟨e, hmem, hg, hasRow_rowOf (hrow _ _ hdata e he)⟩
  · rintro ⟨e, he, hg, hr⟩
    exact ⟨e, (mem_scan_iff L hs hdata e).2 ⟨he, hg⟩, rowOf_eq hr⟩

/-- After every batch a bridge holds what a fresh one does, exactly if no batch leaves a triple lingering
in another selected graph. From any point it then goes back to a checkpoint, exactly if what was told
since doubled no triple. -/
theorem tracks_iff (L : B.Lawful Sim Open) (hs : Sim s h) (hd : h.Decodes) {options : Options}
    (hprep : EngineRun.prepare (B.decode s) (B.scan s none none none) options = some (.ok run))
    (ht : Telling B Sim s h run batches s' h' run') :
    ((∀ b ∈ batches, b.held = b.fresh) ↔ ∀ b ∈ batches, ¬ Lingers options.dataGraph ↑b.quads b.changes) ∧
      ((∀ b ∈ batches, ¬ Lingers options.dataGraph ↑b.quads b.changes) → ∀ {since s'' h'' run''},
        Telling B Sim s' h' run'.checkpoint since s'' h'' run'' → ∀ decode : Decode,
        redefines decode options.shapesGraph (inverseOf (Batch.all since)) = .ok false →
        ∃ run₀, run''.revert decode = some run₀ ∧ run₀.stale = false ∧
          (run₀.graph = run'.graph ↔ ¬ Doubles options.dataGraph ↑h'.contents.quads (Batch.all since))) := by
  obtain ⟨hin, hoptions, hstale⟩ := prepare_inStep L hs hd hprep
  obtain ⟨hiff, hstep⟩ := ht.inStep L hs hd hin
  obtain ⟨hs', hm, htells⟩ := ht.tells L hs hd hin.within
  rw [hoptions] at hiff
  refine ⟨hiff, fun hall since s'' h'' run'' hsince decode hshapes => ?_⟩
  have hoptions' : run'.options = options := htells.options.trans hoptions
  rw [← hoptions'] at hshapes ⊢
  obtain ⟨run₀, hrevert, hstale₀, -, hback⟩ := hsince.reverted L hs' hm.decodes (hstep (hiff.2 hall)) (htells.stale.trans hstale) decode hshapes
  exact ⟨run₀, hrevert, hstale₀, hback⟩

/-! ## One graph -/

/-- No two graphs are selected. -/
def OneGraph (g : GraphFilter) : Prop := ∀ G G', inGraph G g = true → inGraph G' g = true → G = G'

theorem oneGraph_default : OneGraph .default := by
  intro G G' h h'
  rw [Option.isNone_iff_eq_none.1 h, Option.isNone_iff_eq_none.1 h']

theorem oneGraph_named (i : TermId) : OneGraph (.named i) := by
  intro G G' h h'
  rw [of_decide_eq_true h, of_decide_eq_true h']

/-- Between two changes of a triple in the one graph selected, its quad is not touched. -/
theorem mem_replay_of_selected {S : Set EncodedQuad} {c : Change} (hg : inGraph c.quad.graphName g = true)
    (hother : ∀ c' ∈ selected g changes, ¬ c'.quad.SameTriple c.quad) :
    c.quad ∈ Edit.replay S (changes.map Change.edit) ↔ c.quad ∈ S := by
  refine Edit.mem_replay_of_forall_ne (fun e he => ?_)
  obtain ⟨c', hc', rfl⟩ := List.mem_map.1 he
  have helem : c'.edit.elem = c'.quad := by
    unfold Change.edit
    split <;> rfl
  rw [helem]
  intro heq
  exact hother c' (mem_selected.2 ⟨hc', by rwa [heq]⟩) (by rw [heq]; exact ⟨rfl, rfl, rfl⟩)

theorem EncodedQuad.ext_of_oneGraph (hone : OneGraph g) {e e' : EncodedQuad} (hsame : e.SameTriple e')
    (h : inGraph e.graphName g = true) (h' : inGraph e'.graphName g = true) : e = e' := by
  obtain ⟨s, p, o, G⟩ := e
  obtain ⟨s', p', o', G'⟩ := e'
  obtain ⟨rfl, rfl, rfl⟩ := hsame
  cases hone _ _ h h'
  rfl

/-- Over one graph no triple lingers. -/
theorem not_lingers (hone : OneGraph g) {S : Set EncodedQuad} : ¬ Lingers g (Edit.replay S (changes.map Change.edit)) changes := by
  rintro ⟨before, c, after, hsplit, hremoved, hlast, e, he, hge, hsame⟩
  have hg : inGraph c.quad.graphName g = true := (mem_selected.1 (show c ∈ selected g changes by simp [hsplit])).2
  cases EncodedQuad.ext_of_oneGraph hone hsame hge hg
  obtain ⟨before', rest, rfl, -, hrest⟩ := List.filter_eq_append_iff.1 hsplit
  obtain ⟨between, after', rfl, -, -, hafter⟩ := List.filter_eq_cons_iff.1 hrest
  rw [List.map_append, List.map_append, List.map_cons, Edit.replay_append, Edit.replay_append, Edit.replay_cons] at he
  have hgone := (mem_replay_of_selected hg (fun c' hc' => hlast c' (hafter ▸ hc'))).1 he
  unfold Change.edit at hgone
  rw [hremoved] at hgone
  exact hgone.2 rfl

/-- Over one graph no triple is doubled. -/
theorem not_doubles (hone : OneGraph g) {S : Set EncodedQuad} (heff : Edit.Effective S (changes.map Change.edit)) : ¬ Doubles g S changes := by
  rintro ⟨before, c, after, hsplit, hadded, hfirst, e, he, hge, hsame⟩
  have hg : inGraph c.quad.graphName g = true := (mem_selected.1 (show c ∈ selected g changes by simp [hsplit])).2
  cases EncodedQuad.ext_of_oneGraph hone hsame hge hg
  obtain ⟨before', rest, rfl, hbefore, hrest⟩ := List.filter_eq_append_iff.1 hsplit
  obtain ⟨between, after', rfl, hbetween, -, -⟩ := List.filter_eq_cons_iff.1 hrest
  rw [← List.append_assoc, List.map_append, Edit.effective_append] at heff
  have hnew : c.quad ∉ Edit.replay S ((before' ++ between).map Change.edit) := by
    have hchanges := heff.2.1
    unfold Change.edit at hchanges
    rw [hadded] at hchanges
    exact hchanges
  refine hnew ((mem_replay_of_selected hg (fun c' hc' => ?_)).2 he)
  obtain ⟨hmem, hgc⟩ := mem_selected.1 hc'
  rcases List.mem_append.1 hmem with hmem | hmem
  · exact hfirst c' (hbefore ▸ List.mem_filter.2 ⟨hmem, hgc⟩)
  · exact absurd hgc (hbetween c' hmem)

/-! ## One triple in two graphs -/

namespace TwoGraphs

abbrev Memory := World (MemoryStorage.backend Dictionary.bare) Unit

def ex (name : String) : NamedNode := "http://example.org/" ++ name

def aPb (g : GraphName) : Quad := ⟨.namedNode (ex "a"), ex "p", .namedNode (ex "b"), g⟩

def row : Row := (.namedNode (ex "a"), .namedNode (ex "p"), .namedNode (ex "b"))

/-- An engine that compiles nothing. -/
def noShapes : RuleEngine := ⟨Unit, fun _ => .ok (), fun _ _ _ => .ok []⟩

def empty : Memory := ⟨.new, ⟨.anonymous, .permitAll, CompiledPolicy.permitAll⟩, ()⟩

def write (q : Quad) (added : Bool) : Eff StorageError Memory Change := do
  let encoded ← World.encodeQuad q
  let _ ← if added then World.insertEncoded encoded else World.removeEncodedQuad encoded
  return ⟨encoded, added⟩

def decodes (w : Memory) : Decode := (MemoryStorage.backend Dictionary.bare).decode w.store

def prepared (w : Memory) (dataGraph : GraphFilter) : Option (EngineRun noShapes) :=
  (EngineRun.prepare (decodes w) ((MemoryStorage.backend Dictionary.bare).scan w.store none none none) ⟨dataGraph, .default⟩).bind Except.toOption

/-- A triple of two graphs is taken out of one: what the bridge over every graph holds then, and what a
fresh one does. -/
def takenOut : Option (Finset Row × Finset Row) := do
  let (_, w) ← (write (aPb .defaultGraph) true).exec empty
  let (_, w) ← (write (aPb (.namedNode (ex "g"))) true).exec w
  let run ← prepared w .any
  let (r, w) ← (write (aPb .defaultGraph) false).exec w
  let change ← r.toOption
  let (_, run) ← (apply (decodes w) [change]).exec run
  return (run.graph, (← prepared w .any).graph)

/-- A triple of one graph is put into another, and that taken back: what the bridge over every graph held
at the checkpoint, and what it holds after. -/
def putBack : Option (Finset Row × Finset Row) := do
  let (_, w) ← (write (aPb .defaultGraph) true).exec empty
  let run ← prepared w .any
  let (r, w) ← (write (aPb (.namedNode (ex "g"))) true).exec w
  let change ← r.toOption
  let (_, run') ← (apply (decodes w) [change]).exec run.checkpoint
  return (run.graph, (← run'.revert (decodes w)).graph)

end TwoGraphs

open TwoGraphs in
/-- The triple is gone from the bridge, and the other graph still has it; it is gone from the checkpoint
too, once a second graph had it for a while. -/
theorem tracks_loses : takenOut = some (∅, {row}) ∧ putBack = some ({row}, ∅) := by decide +kernel

namespace TwoGraphs

/-- A triple written to an empty store, the bridge told, and the store bridged again. -/
def added : Option (EngineRun noShapes × EncodedQuad × MemoryStorage × EngineRun noShapes × Finset Row) := do
  let run ← prepared empty .any
  let (r, w) ← (World.encodeQuad (aPb .defaultGraph) : Eff StorageError Memory EncodedQuad).exec empty
  let encoded ← r.toOption
  let store := (w.store.write (.insert encoded)).2
  let (told, run') ← (apply (decodes { w with store }) [⟨encoded, true⟩]).exec run
  told.toOption
  let (fresh, _) ← (bridge (decodes { w with store }) (store.scan none none none .any)).exec []
  return (run, encoded, store, run', ← fresh.toOption)

end TwoGraphs

open TwoGraphs in
/-- A triple written to an empty store. -/
theorem tracks_iff_added : ∃ s h run batches s' h' run', batches ≠ [] ∧
    Telling (MemoryStorage.backend Dictionary.bare) (MemoryStorage.Stands Dictionary.bare) s h (run : EngineRun noShapes) batches s' h' run' ∧
      ((∀ b ∈ batches, b.held = b.fresh) ↔ ∀ b ∈ batches, ¬ Lingers .any ↑b.quads b.changes) := by
  have L := MemoryStorage.lawful Dictionary.bare_lawful
  have hs := MemoryStorage.new_stands Dictionary.bare_lawful
  have hd : (⟨.empty, MemoryStorage.idsOf Dictionary.bare_lawful Dictionary.new_valid, none⟩ : Held).Decodes :=
    fun e he => absurd he (Finset.notMem_empty e)
  obtain ⟨⟨run, encoded, store, run', fresh⟩, hadded⟩ := Option.isSome_iff_exists.1 (show added.isSome = true by decide +kernel)
  unfold added at hadded
  simp only [Option.bind_eq_bind, Option.bind_eq_some_iff] at hadded
  obtain ⟨run, hrun, ⟨r, w⟩, hencode, encoded, hr, ⟨u, run'⟩, happly, ⟨⟩, hu, ⟨r', f⟩, hbridge, fresh, hr', -⟩ := hadded
  cases r with
  | error e => cases hr
  | ok e =>
  cases hr
  cases u with
  | error e => cases hu
  | ok u =>
  cases r' with
  | error e => cases hr'
  | ok rows =>
  cases hr'
  obtain ⟨r, hprep, hrun⟩ := Option.bind_eq_some_iff.1 hrun
  cases r with
  | error e => cases hrun
  | ok prepared =>
  cases hrun
  have henc : wp (World.encodeQuad (aPb .defaultGraph) : Eff StorageError Memory EncodedQuad) (fun e w => ∃ ids : Ids,
      MemoryStorage.idsOf Dictionary.bare_lawful Dictionary.new_valid ≤ ids ∧ ids.quad (aPb .defaultGraph) = some e ∧
      MemoryStorage.Stands Dictionary.bare w.store ⟨.empty, ids, none⟩) (fun _ _ => True) empty :=
    World.encodeQuad_idle L hs rfl (.inl rfl) (fun s ids e hle he hs => ⟨ids, hle, he, hs⟩)
  obtain ⟨ids, hle, hquad, hs₁⟩ := henc.ok hencode
  have hwrite : (MemoryStorage.backend Dictionary.bare).write w.store (.insert encoded) =
      (.ok true, (MemoryStorage.write w.store (.insert encoded)).2) := by
    have hreply := (L.write hs₁ (show (MemoryStorage.backend Dictionary.bare).write w.store (.insert encoded) = (.ok _, _) from rfl)).1
    change (Except.ok (MemoryStorage.write w.store (.insert encoded)).1, _) = _
    rw [hreply]
    rfl
  have hstart : Made (MemoryStorage.backend Dictionary.bare) (MemoryStorage.Stands Dictionary.bare) MemoryStorage.new
      ⟨.empty, MemoryStorage.idsOf Dictionary.bare_lawful Dictionary.new_valid, none⟩ [] _ _ := .start
  have hmade := (hstart.beside hs₁ rfl hle).write (c := ⟨encoded, true⟩) ⟨_, hquad⟩ hwrite
  have hoptions : run'.options.dataGraph = .any := by
    obtain ⟨-, -, net, f', -, rfl⟩ := told_of_apply happly
    exact congrArg Options.dataGraph (prepare_inStep L hs hd hprep).2.1
  have ht := Telling.batch Telling.start hmade happly (by rw [hoptions]; rfl) hbridge
  exact ⟨_, _, _, _, _, _, _, by simp, ht, (tracks_iff L hs hd hprep ht).1⟩

end EngineRun

end Shacl

end Holos
