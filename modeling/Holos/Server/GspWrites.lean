import Holos.Server.GspReads
/-!
# What the Graph Store Protocol writes

Each call leaves the store as it found it or does all of what it is for. `Outcome` says which, in
terms of quads and graph names; what a call removes through the view is granted by the policy, and
what it removes by dropping the graph is not asked about.
-/

namespace Holos.Gsp

open Lib Lib.Eff Security Engine

variable {B : Backend} {Sim : B.State → Held → Prop} {Open : B.State → Contents × Ids → Prop} {ρ : Type}
variable {w₀ w : World B ρ} {h₀ h : Held}

/-! ## Scopes -/

/-- The store is what it was; some ids may be new. -/
def Restored (Sim : B.State → Held → Prop) (h : Held) (w : World B ρ) : Prop :=
  ∃ ids, h.ids ≤ ids ∧ Sim w.store ⟨h.contents, ids, none⟩

theorem Restored.resting (hr : Restored Sim h w) (hd : h.Decodes) (hc : h.Catalogued) : ∃ h', Resting Sim w h' ∧ h'.all = h.all := by
  obtain ⟨ids, hle, hs⟩ := hr
  exact ⟨_, ⟨hs, rfl, hd.grow hle, hc.grow hle⟩, Held.all_grow hle hd⟩

/-- A scope inside a scope is the outer one. -/
theorem inCommit_acting (L : B.Lawful Sim Open) (hw : Acting Sim w₀ h₀ w h) {α : Type} {lands : Bool} {f : Eff EngineError (World B ρ) α}
    {Q : α → World B ρ → Prop} {E : EngineError → World B ρ → Prop} (hf : wp f Q E w) : wp (inCommit lands f) Q E w := by
  unfold inCommit
  apply wp_bind
  apply World.inScope_reads L hw.sim
  rw [hw.saved]
  apply wp_bind
  refine wp_attempt (hf.mono (fun a w' hQ => ?_) (fun e w' hE => ?_))
  · exact wp_pure hQ
  · exact wp_throw hE

/-- A scope of its own: what is done is kept, and a failure goes back to what there was. -/
theorem inCommit_idle (L : B.Lawful Sim Open) (hs : Sim w.store h) (hsaved : h.saved = none) (hd : h.Decodes) (hc : h.Catalogued)
    {α : Type} {lands : Bool} {f : Eff EngineError (World B ρ) α} {P : α → Held → Prop}
    (hf : ∀ w₁, w₁.session = w.session → Acting Sim w h w₁ { h with saved := some (h.contents, h.ids) } →
      wp f (fun a w' => ∃ h', Acting Sim w h w' h' ∧ P a { h' with saved := none }) (Fails Open h) w₁) :
    wp (inCommit lands f) (fun a w' => ∃ h', Resting Sim w' h' ∧ h.ids ≤ h'.ids ∧ P a h') (fun _ => Restored Sim h) w := by
  obtain ⟨contents, ids, saved⟩ := h
  cases hsaved
  unfold inCommit
  apply wp_bind
  apply World.inScope_reads L hs
  apply wp_bind
  refine World.begin_wp L hs (fun s _ hs₁ => ?_) (fun _ => ⟨ids, le_rfl, hs⟩)
  have hw₁ : Acting Sim w ⟨contents, ids, none⟩ { w with store := s } ⟨contents, ids, some (contents, ids)⟩ :=
    ⟨hs₁, rfl, hd, hc, le_rfl, rfl, rfl, .inl rfl⟩
  apply wp_bind
  refine wp_attempt ((hf { w with store := s } rfl hw₁).mono ?_ ?_)
  · rintro a w₂ ⟨h₂, hw₂, hP⟩
    refine wp_bind (World.commit_wp L hw₂.sim hw₂.saved (fun s₃ hs₃ => ?_) (fun e s₃ ids₃ hle hs₃ => ⟨ids₃, hle, hs₃⟩))
    exact wp_pure ⟨_, ⟨hs₃, rfl, hw₂.decodes, hw₂.catalogued⟩, hw₂.grows, hP⟩
  · rintro e w₂ ⟨hopen, -⟩
    refine wp_bind (World.rollback_wp L hopen (fun s₃ ids₃ hle hs₃ => ?_))
    exact wp_throw ⟨ids₃, hle, hs₃⟩

/-! ## Loops of writes -/

section
variable (L : B.Lawful Sim Open) (hw : Acting Sim w₀ h₀ w h)
include L hw

theorem insertAll_acting {quads : List Quad} {name : GraphName} (hname : ∀ q ∈ quads, q.graphName = name) {Q : Nat → World B ρ → Prop}
    (hQ : ∀ n w' h', Acting Sim w₀ h₀ w' h' → h'.all = h.all ∪ {q | q ∈ quads} →
      h'.names ∪ Held.named name = h.names ∪ Held.named name → Q n w') :
    wp (insertAll quads : Eff EngineError (World B ρ) Nat) Q (Fails Open h₀) w := by
  unfold insertAll
  refine (wp_foldlM (I := fun done _ w' => ∃ h', Acting Sim w₀ h₀ w' h' ∧ h'.all = h.all ∪ {q | q ∈ done} ∧
    h'.names ∪ Held.named name = h.names ∪ Held.named name) ⟨h, hw, by simp, rfl⟩ ?_).mono
    (fun n w' ⟨h', hw', hall, hnames⟩ => hQ n w' h' hw' hall hnames) (fun _ _ h => h)
  rintro done q rest n w₁ hl ⟨h₁, hw₁, hall₁, hnames₁⟩
  apply wp_bind
  refine insert_acting L hw₁ (fun b w₂ h₂ hw₂ hall₂ hnames₂ => wp_pure ⟨h₂, hw₂, ?_, ?_⟩)
  · rw [hall₂, hall₁]
    ext q'
    simp only [Set.mem_insert_iff, Set.mem_union, Set.mem_ofPred_eq, List.mem_append, List.mem_singleton]
    tauto
  · rw [hnames₂, hname q (by rw [hl]; simp), Set.union_assoc, Set.union_self, hnames₁]

/-- Removed one by one, each is granted. -/
theorem removeAll_acting {quads : List Quad} (hquads : ∀ q ∈ quads, ∃ e, h₀.ids.quad q = some e) {Q : Nat → World B ρ → Prop}
    (hQ : ∀ n w' h', Acting Sim w₀ h₀ w' h' → h'.all = h.all \ {q | q ∈ quads} → h'.names = h.names →
      (∀ q ∈ quads, Granted Sim w₀.session h₀ q) → Q n w') :
    wp (removeAll quads : Eff EngineError (World B ρ) Nat) Q (Fails Open h₀) w := by
  unfold removeAll
  refine (wp_foldlM (I := fun done _ w' => ∃ h', Acting Sim w₀ h₀ w' h' ∧ h'.all = h.all \ {q | q ∈ done} ∧ h'.names = h.names ∧
    ∀ q ∈ done, Granted Sim w₀.session h₀ q) ⟨h, hw, by simp, rfl, by simp⟩ ?_).mono
    (fun n w' ⟨h', hw', hall, hnames, hgrant⟩ => hQ n w' h' hw' hall hnames hgrant) (fun _ _ h => h)
  rintro done q rest n w₁ hl ⟨h₁, hw₁, hall₁, hnames₁, hgrant⟩
  apply wp_bind
  refine remove_acting L hw₁ (fun b w₂ h₂ hw₂ hall₂ hnames₂ hq => wp_pure ⟨h₂, hw₂, ?_, hnames₂.trans hnames₁, fun q' hq' => ?_⟩)
  · rw [hall₂, hall₁]
    ext q'
    simp only [Set.mem_sdiff, Set.mem_singleton_iff, Set.mem_ofPred_eq, List.mem_append, List.mem_singleton]
    tauto
  · rcases List.mem_append.1 hq' with hq' | hq'
    · exact hgrant q' hq'
    · rw [List.mem_singleton.1 hq']
      obtain ⟨e, he⟩ := hquads q (by rw [hl]; simp)
      exact hq e he

end

/-! ## What a view shows of the target -/

/-- The quads of the target that the session's view shows. -/
def shown (p : CompiledPolicy) (h : Held) (target : Target) : Set Quad :=
  {q | ∃ e, h.ids.quad q = some e ∧ Shows p h target.graphName e}

theorem shown_subset {p : CompiledPolicy} {target : Target} {q : Quad} (hq : q ∈ shown p h target) :
    q ∈ h.all ∧ q.graphName = target.graphName := by
  obtain ⟨e, he, hs⟩ := hq
  exact ⟨⟨e, he, hs.stored⟩, Ids.graph_inj (Ids.quad_eq_some.1 he).2.2.2 hs.graph⟩

theorem visible_acting (L : B.Lawful Sim Open) (hw : Acting Sim w₀ h₀ w h) {target : Target} {Q : List Quad → World B ρ → Prop}
    (hQ : ∀ qs, {q | q ∈ qs} = shown w.session.compiled h target → Q qs w) :
    wp (visible target : Eff EngineError (World B ρ) (List Quad)) Q (Fails Open h₀) w := by
  refine visible_reads L hw.sim hw.decodes (fun e _ => hw.fails L e) (fun rows qs hl => hQ qs ?_)
  exact Set.ext (fun q => hl.mem_iff)

/-! ## The calls, inside a scope -/

section
variable (L : B.Lawful Sim Open) (hw : Acting Sim w₀ h₀ w h)
include L hw

/-- At the start of the scope a graph is cleared of what the session sees of it. -/
theorem clear_acting (hh : h = { h₀ with saved := some (h₀.contents, h₀.ids) }) {lands : Bool} {target : Target}
    {Q : Nat → World B ρ → Prop}
    (hQ : ∀ n w' h', Acting Sim w₀ h₀ w' h' → h'.all = h₀.all \ shown w.session.compiled h₀ target → h'.names = h₀.names →
      (∀ q ∈ shown w.session.compiled h₀ target, Granted Sim w₀.session h₀ q) → Q n w') :
    wp (clear lands target : Eff EngineError (World B ρ) Nat) Q (Fails Open h₀) w := by
  subst hh
  unfold clear
  apply wp_bind
  refine visible_acting L hw (fun qs hqs => ?_)
  have hshown : shown w.session.compiled { h₀ with saved := some (h₀.contents, h₀.ids) } target = shown w.session.compiled h₀ target :=
    Set.ext (fun q => exists_congr (fun e => and_congr_right (fun _ =>
      ⟨fun hs => ⟨hs.stored, hs.graph, hs.admitted, hs.allowed⟩, fun hs => ⟨hs.stored, hs.graph, hs.admitted, hs.allowed⟩⟩)))
  rw [hshown] at hqs
  have hmem : ∀ q, q ∈ qs ↔ q ∈ shown w.session.compiled h₀ target := fun q => Set.ext_iff.1 hqs q
  refine inCommit_acting L hw (removeAll_acting L hw (fun q hq => ?_) (fun n w' h' hw' hall hnames hgrant => ?_))
  · obtain ⟨e, he, -⟩ := (hmem q).1 hq
    exact ⟨e, he⟩
  · refine hQ n w' h' hw' ?_ hnames (fun q hq => hgrant q ((hmem q).2 hq))
    rw [hall, hqs]
    rfl

/-- The triples of a document, in the target. -/
def Target.documentQuads (F : Formats) (target : Target) (body : F.Bytes) (format : F.Format) (base : Option NamedNode) : Set Quad :=
  {q | ∃ qs, F.parse format base body = .ok qs ∧ ∃ q' ∈ qs, q = { q' with graphName := target.graphName }}

omit L hw in
/-- A document that parses is its quads, put in the target. -/
theorem Target.documentQuads_eq {F : Formats} {target : Target} {body : F.Bytes} {format : F.Format} {base : Option NamedNode}
    {qs : List Quad} (hparse : F.parse format base body = .ok qs) :
    {q | q ∈ qs.map (fun quad => { quad with graphName := target.graphName })} = target.documentQuads F body format base := by
  ext q
  constructor
  · intro hq
    obtain ⟨q', hq', rfl⟩ := List.mem_map.1 hq
    exact ⟨qs, hparse, q', hq', rfl⟩
  · rintro ⟨qs', hparse', q', hq', rfl⟩
    cases hparse.symm.trans hparse'
    exact List.mem_map.2 ⟨q', hq', rfl⟩

omit L hw in
theorem graphName_of_mem_map {qs : List Quad} {name : GraphName} {q : Quad}
    (hq : q ∈ qs.map (fun quad => { quad with graphName := name })) : q.graphName = name := by
  obtain ⟨q', -, rfl⟩ := List.mem_map.1 hq
  rfl

theorem merge_acting {F : Formats} {lands : Bool} {target : Target} {body : F.Bytes} {format : F.Format} {base : Option NamedNode}
    {Q : Nat → World B ρ → Prop}
    (hQ : ∀ n w' h', Acting Sim w₀ h₀ w' h' → h'.all = h.all ∪ target.documentQuads F body format base →
      h'.names ∪ Held.named target.graphName = h.names ∪ Held.named target.graphName → Q n w') :
    wp (merge F lands target body format base : Eff EngineError (World B ρ) Nat) Q (Fails Open h₀) w := by
  unfold merge
  cases hparse : F.parse format base body with
  | error e => exact wp_throw (hw.fails L _)
  | ok qs =>
    refine inCommit_acting L hw (insertAll_acting L hw (fun q hq => graphName_of_mem_map hq) (fun n w' h' hw' hall hnames => ?_))
    rw [Target.documentQuads_eq hparse] at hall
    exact hQ n w' h' hw' hall hnames

theorem create_acting {target : Target} {Q : Unit → World B ρ → Prop}
    (hQ : ∀ w' h', Acting Sim w₀ h₀ w' h' → h'.all = h.all → h'.names = h.names ∪ Held.named target.graphName → Q () w') :
    wp (create target : Eff EngineError (World B ρ) Unit) Q (Fails Open h₀) w := by
  cases target with
  | default => exact wp_pure (hQ w h hw rfl (Set.union_empty _).symm)
  | named n =>
    unfold create
    apply wp_bind
    exact insertNamedGraph_acting L hw (fun b w' h' hw' hall hnames => wp_pure (hQ w' h' hw' hall hnames))

end

/-! ## The calls -/

/-- A call of the writing side. -/
inductive Call (F : Formats) where
  | write (documents : List (F.Bytes × F.Format)) (replace : Bool)
  | merge (body : F.Bytes) (format : F.Format) (base : Option NamedNode)
  | clear
  | dropGraph

namespace Call

variable {F : Formats}

def run (lands : Bool) (target : Target) : Call F → Eff EngineError (World B ρ) Nat
  | .write documents replace => Gsp.write F lands target documents replace
  | .merge body format base => Gsp.merge F lands target body format base
  | .clear => Gsp.clear lands target
  | .dropGraph => Gsp.dropGraph lands target

/-- The quads of the documents of a call, in the target. -/
def adds (target : Target) : Call F → Set Quad
  | .write documents _ => {q | ∃ d ∈ documents, q ∈ target.documentQuads F d.1 d.2 none}
  | .merge body format base => target.documentQuads F body format base
  | .clear => ∅
  | .dropGraph => ∅

/-- Whether a call starts by clearing what the session sees. -/
def clears : Call F → Bool
  | .write _ replace => replace
  | .merge _ _ _ => false
  | .clear => true
  | .dropGraph => true

/-- Whether a call drops the graph as a whole. -/
def drops (target : Target) : Call F → Prop
  | .dropGraph => target ≠ .default
  | _ => False

/-- What a call that returns has done. -/
structure Done (Sim : B.State → Held → Prop) (session : Session) (h h' : Held) (target : Target) (call : Call F) : Prop where
  all : h'.all = (h.all \ {q | (call.clears = true ∧ q ∈ shown session.compiled h target) ∨
    (call.drops target ∧ q.graphName = target.graphName)}) ∪ call.adds target
  names : h'.names ∪ Held.named target.graphName = h.names ∪ Held.named target.graphName
  created : ∀ documents replace, call = .write documents replace → h'.names = h.names ∪ Held.named target.graphName
  granted : call.clears = true → ∀ q ∈ shown session.compiled h target, Granted Sim session h q

theorem adds_graphName {target : Target} {call : Call F} {q : Quad} (hq : q ∈ call.adds target) : q.graphName = target.graphName := by
  cases call with
  | write documents replace =>
    obtain ⟨d, -, qs, -, q', -, rfl⟩ := hq
    rfl
  | merge body format base =>
    obtain ⟨qs, -, q', -, rfl⟩ := hq
    rfl
  | clear => exact hq.elim
  | dropGraph => exact hq.elim

end Call

section
variable (L : B.Lawful Sim Open) (hs : Sim w.store h) (hsaved : h.saved = none) (hd : h.Decodes) (hc : h.Catalogued)
variable {F : Formats} {lands : Bool} {target : Target}
include L hs hsaved hd hc

theorem clear_spec : wp (Call.run (F := F) lands target .clear : Eff EngineError (World B ρ) Nat)
    (fun _ w' => ∃ h', Resting Sim w' h' ∧ h.ids ≤ h'.ids ∧ Call.Done Sim w.session h h' target (.clear : Call F))
    (fun _ => Restored Sim h) w := by
  have hsame : Restored Sim h w := ⟨h.ids, le_rfl, by rw [← hsaved]; exact hs⟩
  change wp (clear lands target) _ _ w
  unfold clear
  apply wp_bind
  refine visible_reads L hs hd (fun _ _ => hsame) (fun rows qs hl => ?_)
  have hqs : {q | q ∈ qs} = shown w.session.compiled h target := Set.ext (fun q => hl.mem_iff)
  refine (inCommit_idle L hs hsaved hd hc (P := fun _ h' => Call.Done Sim w.session h h' target (.clear : Call F))
    (fun w₁ _ hw₁ => ?_)).mono (fun _ _ h => h) (fun _ _ h => h)
  refine removeAll_acting L hw₁ (fun q hq => ?_) (fun n w₂ h₂ hw₂ hall hnames hgrant => ⟨h₂, hw₂, ?_, ?_, ?_, ?_⟩)
  · obtain ⟨e, he, -⟩ := hl.mem_iff.1 hq
    exact ⟨e, he⟩
  · change h₂.all = _
    rw [hall, hqs]
    ext q
    simp [Call.adds, Call.clears, Call.drops, Held.all, Held.Has]
  · exact congrArg (· ∪ Held.named target.graphName) hnames
  · intro documents replace heq
    cases heq
  · exact fun _ q hq => hgrant q ((Set.ext_iff.1 hqs q).2 hq)

theorem merge_spec {body : F.Bytes} {format : F.Format} {base : Option NamedNode} :
    wp (Call.run lands target (.merge body format base : Call F) : Eff EngineError (World B ρ) Nat)
      (fun _ w' => ∃ h', Resting Sim w' h' ∧ h.ids ≤ h'.ids ∧
        Call.Done Sim w.session h h' target (.merge body format base : Call F))
      (fun _ => Restored Sim h) w := by
  have hsame : Restored Sim h w := ⟨h.ids, le_rfl, by rw [← hsaved]; exact hs⟩
  change wp (merge F lands target body format base) _ _ w
  unfold merge
  cases hparse : F.parse format base body with
  | error e => exact wp_throw hsame
  | ok qs =>
    refine inCommit_idle L hs hsaved hd hc (P := fun _ h' => Call.Done Sim w.session h h' target (.merge body format base : Call F))
      (fun w₁ _ hw₁ => ?_)
    refine insertAll_acting L hw₁ (fun q hq => graphName_of_mem_map hq) (fun n w₂ h₂ hw₂ hall hnames => ⟨h₂, hw₂, ?_, hnames, ?_, ?_⟩)
    · rw [Target.documentQuads_eq hparse] at hall
      change h₂.all = _
      rw [hall]
      ext q
      simp [Call.adds, Call.clears, Call.drops, Held.all, Held.Has]
    · intro documents replace heq
      cases heq
    · intro hclears
      cases hclears

theorem dropGraph_spec : wp (Call.run (F := F) lands target .dropGraph : Eff EngineError (World B ρ) Nat)
    (fun _ w' => ∃ h', Resting Sim w' h' ∧ h.ids ≤ h'.ids ∧ Call.Done Sim w.session h h' target (.dropGraph : Call F))
    (fun _ => Restored Sim h) w := by
  refine inCommit_idle L hs hsaved hd hc (P := fun _ h' => Call.Done Sim w.session h h' target (.dropGraph : Call F))
    (fun w₁ hsession hw₁ => ?_)
  apply wp_bind
  refine clear_acting L hw₁ rfl (fun n w₂ h₂ hw₂ hall hnames hgrant => ?_)
  rw [hsession] at hall hgrant
  cases target with
  | default =>
    refine wp_pure ⟨h₂, hw₂, ?_, congrArg (· ∪ _) hnames, ?_, fun _ => hgrant⟩
    · change h₂.all = _
      rw [hall]
      ext q
      simp [Call.adds, Call.clears, Call.drops]
    · intro documents replace heq
      cases heq
  | named name =>
    apply wp_bind
    refine removeNamedGraph_acting L hw₂ (fun b w₃ h₃ hw₃ hall₃ hnames₃ => wp_pure ⟨h₃, hw₃, ?_, ?_, ?_, fun _ => hgrant⟩)
    · change h₃.all = _
      rw [hall₃, hall]
      ext q
      simp only [Set.mem_sdiff, Set.mem_ofPred_eq, Call.adds, Call.clears, Call.drops, Set.union_empty, true_and]
      simp [Target.graphName]
      tauto
    · change h₃.names ∪ _ = _
      rw [hnames₃, hnames]
      exact Set.sdiff_union_self
    · intro documents replace heq
      cases heq

/-- The documents of a write are merged and its graph recorded, after the clear, if there is one. -/
theorem writeAll_acting {documents : List (F.Bytes × F.Format)} {replace : Bool} {w₂ : World B ρ} {h₂ : Held}
    (hw₂ : Acting Sim w h w₂ h₂) (hall₂ : h₂.all = h.all \ {q | replace = true ∧ q ∈ shown w.session.compiled h target})
    (hnames₂ : h₂.names = h.names)
    (hgrant : replace = true → ∀ q ∈ shown w.session.compiled h target, Granted Sim w.session h q) :
    wp (do
      let added ← documents.foldlM (fun added (content, format) => do
        return added + (← merge F lands target content format none)) 0
      create target
      return added) (fun _ w' => ∃ h', Acting Sim w h w' h' ∧
        Call.Done Sim w.session h { h' with saved := none } target (.write documents replace : Call F))
      (Fails Open h : EngineError → World B ρ → Prop) w₂ := by
  apply wp_bind
  refine (wp_foldlM (I := fun done _ w' => ∃ h', Acting Sim w h w' h' ∧
    h'.all = h₂.all ∪ {q | ∃ d ∈ done, q ∈ target.documentQuads F d.1 d.2 none} ∧
    h'.names ∪ Held.named target.graphName = h₂.names ∪ Held.named target.graphName) ⟨h₂, hw₂, by simp, rfl⟩ ?_).mono ?_ (fun _ _ h => h)
  · rintro done ⟨content, format⟩ rest n w₃ - ⟨h₃, hw₃, hall₃, hnames₃⟩
    apply wp_bind
    refine merge_acting L hw₃ (fun n w₄ h₄ hw₄ hall₄ hnames₄ => wp_pure ⟨h₄, hw₄, ?_, hnames₄.trans hnames₃⟩)
    rw [hall₄, hall₃]
    ext q
    simp only [Set.mem_union, Set.mem_ofPred_eq, List.mem_append, List.mem_singleton, or_and_right, exists_or, exists_eq_left, or_assoc]
  · rintro n w₃ ⟨h₃, hw₃, hall₃, hnames₃⟩
    apply wp_bind
    refine create_acting L hw₃ (fun w₄ h₄ hw₄ hall₄ hnames₄ => wp_pure ⟨h₄, hw₄, ?_, ?_, ?_, hgrant⟩)
    · change h₄.all = _
      rw [hall₄, hall₃, hall₂]
      ext q
      simp [Call.adds, Call.clears, Call.drops]
    · change h₄.names ∪ _ = _
      rw [hnames₄, Set.union_assoc, Set.union_self, hnames₃, hnames₂]
    · intro _ _ _
      change h₄.names = _
      rw [hnames₄, hnames₃, hnames₂]

theorem write_spec {documents : List (F.Bytes × F.Format)} {replace : Bool} :
    wp (Call.run lands target (.write documents replace : Call F) : Eff EngineError (World B ρ) Nat)
      (fun _ w' => ∃ h', Resting Sim w' h' ∧ h.ids ≤ h'.ids ∧
        Call.Done Sim w.session h h' target (.write documents replace : Call F))
      (fun _ => Restored Sim h) w := by
  refine inCommit_idle L hs hsaved hd hc (P := fun _ h' => Call.Done Sim w.session h h' target (.write documents replace : Call F))
    (fun w₁ hsession hw₁ => ?_)
  cases replace with
  | false =>
    refine writeAll_acting L hs hsaved hd hc hw₁ ?_ rfl (fun h => by cases h)
    simp [Held.all, Held.Has]
  | true =>
    apply wp_bind
    refine clear_acting L hw₁ rfl (fun n w₂ h₂ hw₂ hall hnames hgrant => ?_)
    rw [hsession] at hall hgrant
    refine writeAll_acting L hs hsaved hd hc hw₂ ?_ hnames (fun _ => hgrant)
    rw [hall]
    simp

end

namespace Call

variable {F : Formats}

theorem run_spec (L : B.Lawful Sim Open) (hs : Sim w.store h) (hsaved : h.saved = none) (hd : h.Decodes) (hc : h.Catalogued)
    (lands : Bool) (target : Target) (call : Call F) : wp (call.run lands target : Eff EngineError (World B ρ) Nat)
      (fun _ w' => ∃ h', Resting Sim w' h' ∧ h.ids ≤ h'.ids ∧ call.Done Sim w.session h h' target)
      (fun _ => Restored Sim h) w := by
  cases call with
  | write documents replace => exact write_spec L hs hsaved hd hc
  | merge body format base => exact merge_spec L hs hsaved hd hc
  | clear => exact clear_spec L hs hsaved hd hc
  | dropGraph => exact dropGraph_spec L hs hsaved hd hc

/-- The policy the session came with lets it read a stored quad. -/
def MayRead (p : CompiledPolicy) (h : Held) (q : Quad) : Prop := ∃ e, h.ids.quad q = some e ∧ p.permitsQuad e Modes.read = true

/-- What is asked of a call that returns: a write leaves the target with its documents and what it
kept, and the rest alone; what is taken away was granted. -/
structure Meets (Sim : B.State → Held → Prop) (session : Session) (h h' : Held) (target : Target) (call : Call F) : Prop where
  written : ∀ documents replace, call = .write documents replace → ∀ q, q.graphName = target.graphName →
    (q ∈ h'.all ↔ q ∈ call.adds target ∨ (q ∈ h.all ∧ (replace = true → ¬ MayRead session.compiled h q)))
  others : ∀ documents replace, call = .write documents replace → ∀ q, q.graphName ≠ target.graphName → (q ∈ h'.all ↔ q ∈ h.all)
  names : ∀ documents replace, call = .write documents replace → h'.names = h.names ∪ Held.named target.graphName
  removed : ∀ q ∈ h.all, q ∉ h'.all → Granted Sim session h q

/-- When a call that returns meets it. A replacing write must not leave behind what the session may
read, and does where the graph is refused as a whole. A dropped graph must not hold what neither the
view shows nor the policy grants. -/
def Fits (Sim : B.State → Held → Prop) (session : Session) (h : Held) (target : Target) (call : Call F) : Prop :=
  match call with
  | .write _ true => ∀ q ∈ h.all, q.graphName = target.graphName → MayRead session.compiled h q →
      (∃ g, h.ids.graph target.graphName = some (some g) ∧ session.compiled.graphIsWhollyDenied (some g) = true) → q ∈ call.adds target
  | .dropGraph => target ≠ .default → ∀ q ∈ h.all, q.graphName = target.graphName → q ∉ shown session.compiled h target →
      Granted Sim session h q
  | _ => True

variable {h' : Held} {session : Session} {target : Target} {call : Call F}

theorem mayRead_of_shown {p : CompiledPolicy} {q : Quad} (hq : q ∈ shown p h target) : MayRead p h q := by
  obtain ⟨e, he, hs⟩ := hq
  exact ⟨e, he, decide_eq_true hs.allowed⟩

/-- What the session may read of the target is shown, unless the graph is refused as a whole. -/
theorem shown_of_mayRead {p : CompiledPolicy} {q : Quad} (hq : q ∈ h.all) (hname : q.graphName = target.graphName) (hread : MayRead p h q)
    (hopen : ¬ ∃ g, h.ids.graph target.graphName = some (some g) ∧ p.graphIsWhollyDenied (some g) = true) : q ∈ shown p h target := by
  obtain ⟨e, he, hallow⟩ := hread
  have hgraph : h.ids.graph target.graphName = some e.graphName := hname ▸ (Ids.quad_eq_some.1 he).2.2.2
  refine ⟨e, he, (Held.Has.of_mem he).1 hq, hgraph, fun g hg => ?_, of_decide_eq_true hallow⟩
  by_contra hdenied
  exact hopen ⟨g, hg ▸ hgraph, by simpa using hdenied⟩

theorem Done.mem_iff (hdone : Done Sim session h h' target call) {q : Quad} : q ∈ h'.all ↔ q ∈ call.adds target ∨
    (q ∈ h.all ∧ ¬ ((call.clears = true ∧ q ∈ shown session.compiled h target) ∨ (call.drops target ∧ q.graphName = target.graphName))) := by
  rw [hdone.all, Set.mem_union, or_comm]
  rfl

/-- What is neither shown nor in a graph that is dropped stays. -/
theorem Done.removed (hdone : Done Sim session h h' target call) {q : Quad} (hq : q ∈ h.all) (hgone : q ∉ h'.all) :
    (call.clears = true ∧ q ∈ shown session.compiled h target) ∨ (call.drops target ∧ q.graphName = target.graphName) := by
  by_contra hno
  exact hgone (hdone.mem_iff.2 (.inr ⟨hq, hno⟩))

theorem Done.meets_iff (hdone : Done Sim session h h' target call) :
    Meets Sim session h h' target call ↔ Fits Sim session h target call := by
  have hothers : ∀ documents replace, call = .write documents replace → ∀ q, q.graphName ≠ target.graphName → (q ∈ h'.all ↔ q ∈ h.all) := by
    intro documents replace hcall q hne
    rw [hdone.mem_iff]
    constructor
    · rintro (hadd | ⟨hq, -⟩)
      · exact absurd (adds_graphName hadd) hne
      · exact hq
    · refine fun hq => .inr ⟨hq, ?_⟩
      rintro (⟨-, hshow⟩ | ⟨-, hname⟩)
      · exact hne (shown_subset hshow).2
      · exact hne hname
  cases call with
  | merge body format base =>
    refine iff_of_true ⟨?_, ?_, ?_, ?_⟩ trivial
    · intro documents replace hcall
      cases hcall
    · exact hothers
    · exact hdone.created
    · intro q hq hgone
      rcases hdone.removed hq hgone with ⟨hclears, -⟩ | ⟨hdrops, -⟩
      · cases hclears
      · exact hdrops.elim
  | clear =>
    refine iff_of_true ⟨?_, ?_, ?_, ?_⟩ trivial
    · intro documents replace hcall
      cases hcall
    · exact hothers
    · exact hdone.created
    · intro q hq hgone
      rcases hdone.removed hq hgone with ⟨-, hshow⟩ | ⟨hdrops, -⟩
      · exact hdone.granted rfl q hshow
      · exact hdrops.elim
  | dropGraph =>
    constructor
    · intro hmeets hnamed q hq hname _
      refine hmeets.removed q hq (fun hin => ?_)
      rcases hdone.mem_iff.1 hin with hadd | ⟨-, hno⟩
      · exact hadd.elim
      · exact hno (.inr ⟨hnamed, hname⟩)
    · intro hfits
      refine ⟨?_, hothers, hdone.created, ?_⟩
      · intro documents replace hcall
        cases hcall
      · intro q hq hgone
        by_cases hshow : q ∈ shown session.compiled h target
        · exact hdone.granted rfl q hshow
        · rcases hdone.removed hq hgone with ⟨-, hshow'⟩ | ⟨hnamed, hname⟩
          · exact absurd hshow' hshow
          · exact hfits hnamed q hq hname hshow
  | write documents replace =>
    have hremoved : ∀ q ∈ h.all, q ∉ h'.all → Granted Sim session h q := by
      intro q hq hgone
      rcases hdone.removed hq hgone with ⟨hclears, hshow⟩ | ⟨hdrops, -⟩
      · exact hdone.granted hclears q hshow
      · exact hdrops.elim
    cases replace with
    | false =>
      refine iff_of_true ⟨?_, hothers, hdone.created, hremoved⟩ trivial
      intro documents' replace' hcall q hname
      cases hcall
      rw [hdone.mem_iff]
      simp [clears, drops]
    | true =>
      constructor
      · intro hmeets q hq hname hread hwhole
        have hnot : q ∉ shown session.compiled h target := by
          rintro ⟨e, he, hs⟩
          obtain ⟨g, hg, hdenied⟩ := hwhole
          rw [hs.admitted g (Option.some.inj (hs.graph.symm.trans hg))] at hdenied
          cases hdenied
        have hin : q ∈ h'.all := hdone.mem_iff.2 (.inr ⟨hq, fun hno => hno.elim (fun h => hnot h.2) (fun h => h.1)⟩)
        exact ((hmeets.written documents true rfl q hname).1 hin).resolve_right (fun hkept => hkept.2 rfl hread)
      · intro hfits
        refine ⟨?_, hothers, hdone.created, hremoved⟩
        intro documents' replace' hcall q hname
        cases hcall
        rw [hdone.mem_iff]
        constructor
        · rintro (hadd | ⟨hq, hno⟩)
          · exact .inl hadd
          · by_cases hread : MayRead session.compiled h q
            · by_cases hwhole : ∃ g, h.ids.graph target.graphName = some (some g) ∧ session.compiled.graphIsWhollyDenied (some g) = true
              · exact .inl (hfits q hq hname hread hwhole)
              · exact absurd (.inl ⟨rfl, shown_of_mayRead hq hname hread hwhole⟩) hno
            · exact .inr ⟨hq, fun _ => hread⟩
        · rintro (hadd | ⟨hq, hkept⟩)
          · exact .inl hadd
          · refine .inr ⟨hq, ?_⟩
            rintro (⟨-, hshow⟩ | ⟨hdrops, -⟩)
            · exact hkept rfl (mayRead_of_shown hshow)
            · exact hdrops

/-- A call with no scope open either fails and leaves the store as it was, or returns, and then
meets what is asked of it exactly when it fits. -/
theorem call_meets_iff (L : B.Lawful Sim Open) (hs : Sim w.store h) (hsaved : h.saved = none) (hd : h.Decodes) (hc : h.Catalogued)
    {lands : Bool} {w' : World B ρ} {r : Except EngineError Nat} (hrun : (call.run lands target).exec w = some (r, w')) :
    (∀ e, r = .error e → ∃ h', Sim w'.store h' ∧ h'.contents = h.contents ∧ h'.all = h.all ∧ h'.names = h.names ∧
      B.inScope w'.store = false) ∧
    ∀ n, r = .ok n → ∃ h', Sim w'.store h' ∧ h.ids ≤ h'.ids ∧ B.inScope w'.store = false ∧
      (Meets Sim w.session h h' target call ↔ Fits Sim w.session h target call) := by
  have hspec := run_spec L hs hsaved hd hc lands target call
  have hclosed : ∀ h', Sim w'.store h' → h'.saved = none → B.inScope w'.store = false := by
    intro h' hs' hsaved'
    rw [L.inScope hs', hsaved', Option.isSome_none]
  constructor
  · rintro e rfl
    obtain ⟨ids, hle, hs'⟩ := hspec.error hrun
    refine ⟨_, hs', rfl, ?_, ?_, hclosed _ hs' rfl⟩
    · exact Held.all_of_contents rfl hle hd
    · exact Held.names_grow hc hle
  · rintro n rfl
    obtain ⟨h', hrest, hle, hdone⟩ := hspec.ok hrun
    exact ⟨h', hrest.sim, hle, hclosed h' hrest.sim hrest.saved, hdone.meets_iff⟩

end Call

/-! ## A graph dropped by a session that may see nothing -/

namespace Hidden

/-- Everything such a session's policy is compiled to refuses every quad. -/
theorem blind_consulted {Sim : B.State → Held → Prop} {h : Held} {p : CompiledPolicy} (hp : Consulted Sim blind h p) (e : EncodedQuad)
    (mode : Modes) : p.permitsQuad e mode = false := by
  obtain ⟨s, r, o, g⟩ := e
  rcases hp with rfl | ⟨_, _, -, -, hcomp⟩
  · cases g <;> rfl
  · simp only [blind, Policy.compileWith, List.filter_nil, List.foldlM_nil, bind, Except.bind, pure, Except.pure, Except.ok.injEq] at hcomp
    rw [← hcomp]
    cases g <;> rfl

theorem dropped : (((.dropGraph : Call counted).run true (.named "urn:g")).exec after).map Prod.fst = some (.ok 0) := by decide +kernel

end Hidden

namespace Hidden

/-- The store with the secret in it, as a store whose rows and graphs all have names. -/
theorem after_stands : ∃ h e, MemoryStorage.Stands Dictionary.bare after.store h ∧ h.saved = none ∧ h.Decodes ∧ h.Catalogued ∧
    h.ids.quad secret = some e ∧ e ∈ h.contents.quads := by
  obtain ⟨h, e, hs, hsaved, he, hb⟩ := after_beside
  have hcontents : h.contents = Contents.empty.insert e := hb.contents
  refine ⟨h, e, hs, hsaved, hb.decodes (fun e he => by cases he), ?_, he, ?_⟩
  · have hcat := Held.Catalogued.insert (h := ⟨.empty, h.ids, none⟩) (fun g hg => by cases hg) he
    intro g hg
    rw [hcontents] at hg
    exact hcat g hg
  · rw [hcontents]
    exact Finset.mem_insert_self e _

end Hidden

open Hidden in
theorem call_meets_iff_dropped : ∃ (h : Held) (w' : World Memory Unit), MemoryStorage.Stands Dictionary.bare after.store h ∧
    ∃ h', MemoryStorage.Stands Dictionary.bare w'.store h' ∧ h.ids ≤ h'.ids ∧ Memory.inScope w'.store = false ∧
      (Call.Meets (B := Memory) (MemoryStorage.Stands Dictionary.bare) blind h h' (.named "urn:g") (.dropGraph : Call counted) ↔
        Call.Fits (B := Memory) (MemoryStorage.Stands Dictionary.bare) blind h (.named "urn:g") (.dropGraph : Call counted)) := by
  obtain ⟨h, e, hs, hsaved, hd, hc, -, -⟩ := after_stands
  obtain ⟨⟨r, w'⟩, hrun, hr⟩ := Option.map_eq_some_iff.1 dropped
  cases hr
  have hspec := Call.call_meets_iff (MemoryStorage.lawful Dictionary.bare_lawful) hs hsaved hd hc hrun
  exact ⟨h, w', hs, hspec.2 0 rfl⟩

open Hidden in
/-- A session that may read and write nothing drops a graph, and the quad in it is gone. -/
theorem blind_drop_removes : ∃ (h h' : Held) (w' : World Memory Unit), MemoryStorage.Stands Dictionary.bare after.store h ∧
    ((.dropGraph : Call counted).run true (.named "urn:g")).exec after = some (.ok 0, w') ∧
    MemoryStorage.Stands Dictionary.bare w'.store h' ∧ secret ∈ h.all ∧ secret ∉ h'.all ∧
    ¬ Granted (B := Memory) (MemoryStorage.Stands Dictionary.bare) blind h secret := by
  obtain ⟨h, e, hs, hsaved, hd, hc, he, hmem⟩ := after_stands
  obtain ⟨⟨r, w'⟩, hrun, hr⟩ := Option.map_eq_some_iff.1 dropped
  cases hr
  obtain ⟨h', hrest, -, hdone⟩ :=
    (Call.run_spec (MemoryStorage.lawful Dictionary.bare_lawful) hs hsaved hd hc true (.named "urn:g") (.dropGraph : Call counted)).ok hrun
  refine ⟨h, h', w', hs, hrun, hrest.sim, ⟨e, he, hmem⟩, fun hin => ?_, ?_⟩
  · rcases hdone.mem_iff.1 hin with hadd | ⟨-, hno⟩
    · exact hadd
    · exact hno (.inr ⟨(fun heq => by cases heq), rfl⟩)
  · rintro ⟨p, e', hp, -, hwrite, -⟩
    rw [blind_consulted hp] at hwrite
    cases hwrite

end Holos.Gsp
