import Holos.Holon.RegistryTheorems
import Holos.Holon.Tick
import Holos.Lib.Edits
/-!
# What a tick does to a set of quads

`Ticked` says it in one equation: the recorded changes of an admitted tick are made to the scene
and those of a refused one are not, the event is there, and the version has moved on. A tick
that fails leaves the scope open, and closing it brings back what was there before.
-/

namespace Holos

open Lib Lib.Eff Security Shacl

/-! ## Changes as edits -/

def Operation.edit {α : Type} : Operation → α → Edit α
  | .added => .add
  | .removed => .remove

def Applied.quad (holon : Holon) (a : Applied) : Quad := a.triple.inGraph (.namedNode holon.scene)

def Applied.edit (holon : Holon) (a : Applied) : Edit Quad := a.operation.edit (a.quad holon)

namespace TickRecord

/-- The changes a record says were made, as edits of the quads stored. -/
def edits (r : TickRecord) : List (Edit Quad) :=
  r.changes.map (fun change => change.1.edit (change.2.inGraph (.namedNode r.holon.scene)))

/-- The edits an event stands for: none, where the commit was refused. -/
def kept (r : TickRecord) : List (Edit Quad) := if r.admitted then r.edits else []

/-- The same changes, as edits of the scene. -/
def triples (r : TickRecord) : List (Edit Triple) := r.changes.map (fun change => change.1.edit change.2)

def keptTriples (r : TickRecord) : List (Edit Triple) := if r.admitted then r.triples else []

theorem edits_eq (r : TickRecord) : r.edits = r.triples.map (Edit.map (fun t => t.inGraph (.namedNode r.holon.scene))) := by
  unfold edits triples
  rw [List.map_map]
  refine List.map_congr_left (fun change _ => ?_)
  obtain ⟨op, t⟩ := change
  cases op <;> rfl

theorem kept_eq (r : TickRecord) :
    r.kept = r.keptTriples.map (Edit.map (fun t => t.inGraph (.namedNode r.holon.scene))) := by
  unfold kept keptTriples
  split
  · exact edits_eq r
  · rfl

end TickRecord

/-- One tick from version `v`, as a change of the quads stored. -/
structure Ticked (holon : Holon) (v : Nat) (S S' : Set Quad) (r : TickRecord) : Prop where
  on : r.holon = holon
  version : r.version = v + 1
  bound : v + 1 < 2 ^ 64
  effective : Edit.Effective S r.edits
  all : S' = insert (Registry.versionQuad holon (v + 1))
    ((Edit.replay S r.kept ∪ {q | q ∈ Event.toQuads r}) \ {Registry.versionQuad holon v})

variable {B : Backend} {Sim : B.State → Held → Prop} {Open : B.State → Contents × Ids → Prop} {E : RuleEngine}
variable {c : Contents × Ids} {x : Option (Rules E)} {R : Option (Rules E) → Prop} {w : Ticking B E} {h : Held}
variable {holon : Holon}

/-- What `applied` did since `h`: its edits, all effective, and the rows they were made on. -/
structure Changed (holon : Holon) (h h' : Held) (applied : List Applied) : Prop where
  ids : h.ids ≤ h'.ids
  all : h'.all = Edit.replay h.all (applied.map (Applied.edit holon))
  effective : Edit.Effective h.all (applied.map (Applied.edit holon))
  rows : ∀ a ∈ applied, h'.ids.quad (a.quad holon) = some a.encoded

theorem Changed.nil : Changed holon h h [] := ⟨le_rfl, rfl, trivial, by simp⟩

/-- One more effective change. -/
theorem Changed.concat {h₁ h₂ : Held} {applied : List Applied} {a : Applied} (hc : Changed holon h h₁ applied) (hids : h₁.ids ≤ h₂.ids)
    (hall : h₂.all = Edit.apply h₁.all (a.edit holon)) (heff : Edit.Changes h₁.all (a.edit holon))
    (hrow : h₂.ids.quad (a.quad holon) = some a.encoded) : Changed holon h h₂ (applied ++ [a]) where
  ids := hc.ids.trans hids
  all := by rw [hall, hc.all, List.map_append, Edit.replay_append]; rfl
  effective := by
    rw [List.map_append, Edit.effective_append, ← hc.all]
    exact ⟨hc.effective, heff, trivial⟩
  rows b hb := by
    rcases List.mem_append.1 hb with hb | hb
    · exact Ids.quad_mono hids (hc.rows b hb)
    · rw [List.mem_singleton.1 hb]
      exact hrow

/-- A change that was none. -/
theorem Changed.same {h₁ h₂ : Held} {applied : List Applied} (hc : Changed holon h h₁ applied) (hids : h₁.ids ≤ h₂.ids)
    (hall : h₂.all = h₁.all) : Changed holon h h₂ applied :=
  ⟨hc.ids.trans hids, hall.trans hc.all, hc.effective, fun a ha => Ids.quad_mono hids (hc.rows a ha)⟩

section
variable (L : B.Lawful Sim Open) (hR : R x)
include L hR

theorem addToScene_at {h₁ : Held} {applied : List Applied} {t : Triple} (hw : World.At Sim c x w h₁)
    (hc : Changed holon h h₁ applied) :
    wp (addToScene holon applied t : Eff HolonError (Ticking B E) (List Applied))
      (fun applied' w' => ∃ h₂, World.At Sim c x w' h₂ ∧ Changed holon h h₂ applied' ∧ applied <+: applied' ∧
        h₂.all = insert (t.inGraph (.namedNode holon.scene)) h₁.all) (World.Stuck Open c R) w := by
  unfold addToScene
  apply wp_bind
  refine World.encodeQuad_at L hR hw (fun e w₁ h₂ hw₁ hle hall he => ?_)
  apply wp_bind
  refine World.policy_at L hR hw₁ (fun p w₂ hw₂ => ?_)
  apply wp_ite
  · intro _
    apply wp_bind
    refine World.insertEncoded_at L hR hw₂ he (fun b w₃ h₃ hw₃ hids hall₃ hb => ?_)
    rw [hall] at hall₃ hb
    have hle₃ : h₁.ids ≤ h₃.ids := hle.trans (le_of_eq hids.symm)
    apply wp_ite
    · intro hnew
      refine wp_pure ⟨h₃, hw₃, hc.concat hle₃ hall₃ (hb.1 hnew) ?_, List.prefix_append _ _, hall₃⟩
      rw [hids]
      exact he
    · intro hold
      have hmem := not_not.1 (fun hn => hold (hb.2 hn))
      exact wp_pure ⟨h₃, hw₃, hc.same hle₃ (hall₃.trans (Set.insert_eq_of_mem hmem)), List.prefix_rfl, hall₃⟩
  · exact fun _ => World.throw_at L hR hw₂

theorem removeFromScene_at {h₁ : Held} {applied : List Applied} {t : Triple} (hw : World.At Sim c x w h₁)
    (hc : Changed holon h h₁ applied) :
    wp (removeFromScene holon applied t : Eff HolonError (Ticking B E) (List Applied))
      (fun applied' w' => ∃ h₂, World.At Sim c x w' h₂ ∧ Changed holon h h₂ applied' ∧ applied <+: applied' ∧
        h₂.all = h₁.all \ {t.inGraph (.namedNode holon.scene)}) (World.Stuck Open c R) w := by
  unfold removeFromScene
  apply wp_bind
  refine World.encodeQuad_at L hR hw (fun e w₁ h₂ hw₁ hle hall he => ?_)
  apply wp_bind
  refine World.policy_at L hR hw₁ (fun p w₂ hw₂ => ?_)
  apply wp_ite
  · intro _
    apply wp_bind
    refine World.remove_at L hR hw₂ (fun b w₃ h₃ hw₃ hids hall₃ hb => ?_)
    rw [hall] at hall₃ hb
    have hle₃ : h₁.ids ≤ h₃.ids := hle.trans (le_of_eq hids.symm)
    apply wp_ite
    · intro hthere
      refine wp_pure ⟨h₃, hw₃, hc.concat hle₃ hall₃ (hb.1 hthere) ?_, List.prefix_append _ _, hall₃⟩
      rw [hids]
      exact he
    · intro habs
      have hsame := hall₃.trans (Set.sdiff_singleton_eq_self (fun hmem => habs (hb.2 hmem)))
      exact wp_pure ⟨h₃, hw₃, hc.same hle₃ hsame, List.prefix_rfl, hall₃⟩
  · exact fun _ => World.throw_at L hR hw₂

omit L hR in
/-- A loop of changes goes on from the changes before it. -/
theorem changeAll_at {f : List Applied → Triple → Eff HolonError (Ticking B E) (List Applied)} {g : Set Quad → Triple → Set Quad}
    {h₁ : Held} {applied : List Applied} {ts : List Triple}
    (hf : ∀ w h₁ applied t, World.At Sim c x w h₁ → Changed holon h h₁ applied →
      wp (f applied t) (fun applied' w' => ∃ h₂, World.At Sim c x w' h₂ ∧ Changed holon h h₂ applied' ∧ applied <+: applied' ∧
        h₂.all = g h₁.all t) (World.Stuck Open c R) w)
    (hw : World.At Sim c x w h₁) (hc : Changed holon h h₁ applied) :
    wp (ts.foldlM f applied) (fun applied' w' => ∃ h₂, World.At Sim c x w' h₂ ∧ Changed holon h h₂ applied' ∧
      (∃ more, applied' = applied ++ more ∧ (ts = [] → more = [])) ∧ h₂.all = ts.foldl g h₁.all) (World.Stuck Open c R) w := by
  refine wp_foldlM (I := fun done applied' w' => ∃ h₂, World.At Sim c x w' h₂ ∧ Changed holon h h₂ applied' ∧
    (∃ more, applied' = applied ++ more ∧ (done = [] → more = [])) ∧ h₂.all = done.foldl g h₁.all)
    ⟨h₁, hw, hc, ⟨[], (List.append_nil _).symm, fun _ => rfl⟩, rfl⟩ ?_
  rintro done t rest applied' w' - ⟨h₂, hw', hc', ⟨more, rfl, -⟩, hall₂⟩
  refine (hf w' h₂ _ t hw' hc').mono ?_ (fun _ _ h => h)
  rintro applied'' w'' ⟨h₃, hw'', hc'', ⟨more', rfl⟩, hall₃⟩
  refine ⟨h₃, hw'', hc'', ⟨more ++ more', List.append_assoc _ _ _, fun hnil => by simp at hnil⟩, ?_⟩
  rw [hall₃, hall₂, List.foldl_append]
  rfl

theorem undoChange_at {a : Applied} {h₁ : Held} (hw : World.At Sim c x w h₁) (ha : h₁.ids.quad (a.quad holon) = some a.encoded) :
    wp (undoChange a : Eff HolonError (Ticking B E) Unit)
      (fun _ w' => ∃ h₂, World.At Sim c x w' h₂ ∧ h₂.ids = h₁.ids ∧ h₂.all = Edit.apply h₁.all (a.edit holon).inverse)
      (World.Stuck Open c R) w := by
  unfold undoChange
  obtain ⟨op, t, e⟩ := a
  cases op with
  | added =>
    apply wp_bind
    exact World.removeEncodedQuad_at L hR hw ha (fun b w₁ h₂ hw₁ hids hall _ => wp_pure ⟨h₂, hw₁, hids, hall⟩)
  | removed =>
    apply wp_bind
    exact World.insertEncoded_at L hR hw ha (fun b w₁ h₂ hw₁ hids hall _ => wp_pure ⟨h₂, hw₁, hids, hall⟩)

/-- Effective changes taken back in reverse leave what there was. -/
theorem undo_at {applied : List Applied} {h₁ : Held} (hw : World.At Sim c x w h₁) (hc : Changed holon h h₁ applied) :
    wp (undo applied : Eff HolonError (Ticking B E) Unit)
      (fun _ w' => ∃ h₂, World.At Sim c x w' h₂ ∧ h.ids ≤ h₂.ids ∧ h₂.all = h.all) (World.Stuck Open c R) w := by
  have hundo : (applied.reverse.map (fun a => (a.edit holon).inverse)) = Edit.undo (applied.map (Applied.edit holon)) := by
    unfold Edit.undo
    rw [← List.map_reverse, List.map_map]
    rfl
  refine (wp_foldlM (I := fun done _ w' => ∃ h₂, World.At Sim c x w' h₂ ∧ h₂.ids = h₁.ids ∧
    h₂.all = Edit.replay h₁.all (done.map (fun a => (a.edit holon).inverse))) ⟨h₁, hw, rfl, rfl⟩ ?_).mono ?_ (fun _ _ h => h)
  · rintro done a rest - w' hl ⟨h₂, hw', hids, hall⟩
    have hmem : a ∈ applied := by
      rw [← List.mem_reverse, hl]
      simp
    refine (undoChange_at L hR hw' (by rw [hids]; exact hc.rows a hmem)).mono ?_ (fun _ _ h => h)
    rintro - w'' ⟨h₃, hw'', hids₃, hall₃⟩
    refine ⟨h₃, hw'', hids₃.trans hids, ?_⟩
    rw [hall₃, hall, List.map_append, Edit.replay_append]
    rfl
  · rintro - w' ⟨h₂, hw', hids, hall⟩
    refine ⟨h₂, hw', hc.ids.trans (le_of_eq hids.symm), ?_⟩
    rw [hall, hundo, hc.all, Edit.replay_undo hc.effective]

/-- Validation reads only. -/
theorem validate_at {V : Validation B} {changes : List Change} {h₁ : Held} (hw : World.At Sim c x w h₁)
    {Q : Nat × Option V.Report → Ticking B E → Prop} (hQ : ∀ found, Q found w) :
    wp (validate holon V changes : Eff HolonError (Ticking B E) (Nat × Option V.Report)) Q (World.Stuck Open c R) w := by
  unfold validate
  apply wp_bind
  apply World.lookupTerm_at L hR hw
  apply wp_bind
  apply World.lookupTerm_at L hR hw
  split
  · apply wp_bind
    refine World.reads_at L hR hw (fun shapes _ => ?_)
    apply wp_ite
    · exact fun _ => wp_pure (hQ _)
    · intro _
      apply wp_bind
      exact World.reads_at L hR hw (fun report _ => wp_pure (hQ _))
  · exact wp_pure (hQ _)

/-- What a delta leaves of the quads stored. -/
def Delta.apply (delta : Delta) (holon : Holon) (S : Set Quad) : Set Quad :=
  (S ∪ {q | ∃ t ∈ delta.added, q = t.inGraph (.namedNode holon.scene)}) \
    {q | ∃ t ∈ delta.removed, q = t.inGraph (.namedNode holon.scene)}

/-- What the rules infer is up to them, but the store is not theirs to change. -/
def Fires (Sim : B.State → Held → Prop) (Open : B.State → Contents × Ids → Prop) (c : Contents × Ids) (x : Option (Rules E))
    (R : Option (Rules E) → Prop) (holon : Holon) (delta : Delta) (h : Held)
    (P : List Applied → List Triple → Option (Rules E) → Prop) : Prop :=
  ∀ (w : Ticking B E) h₁ asked, World.At Sim c x w h₁ → Changed holon h h₁ asked → h₁.all = delta.apply holon h.all →
    wp (fireRules holon (asked.map Applied.change) : Eff HolonError (Ticking B E) (List Triple))
      (fun inferred w' => ∃ x', World.At Sim c x' w' h₁ ∧ P asked inferred x' ∧ R x') (World.Stuck Open c R) w

end

/-! ## Frames -/

theorem Operation.elem_edit {α : Type} (op : Operation) (a : α) : (op.edit a).elem = a := by cases op <;> rfl

theorem TickRecord.elem_edits {r : TickRecord} {e : Edit Quad} (he : e ∈ r.edits) :
    e.elem.graphName = .namedNode r.holon.scene := by
  obtain ⟨change, -, rfl⟩ := List.mem_map.1 he
  rw [Operation.elem_edit]
  rfl

theorem TickRecord.elem_kept {r : TickRecord} {e : Edit Quad} (he : e ∈ r.kept) :
    e.elem.graphName = .namedNode r.holon.scene := by
  unfold TickRecord.kept at he
  split at he
  · exact TickRecord.elem_edits he
  · cases he

/-- The scene's edits are made to no other graph. -/
theorem TickRecord.mem_replay_kept {r : TickRecord} {S : Set Quad} {q : Quad} (hq : q.graphName ≠ .namedNode r.holon.scene) :
    q ∈ Edit.replay S r.kept ↔ q ∈ S :=
  Edit.mem_replay_of_forall_ne (fun _ he heq => hq (heq ▸ TickRecord.elem_kept he))

namespace Ticked

variable {v : Nat} {S S' : Set Quad} {r : TickRecord}

/-- The scene, the event and the version are all that moved. -/
theorem mem_of_other (ht : Ticked holon v S S' r) {q : Quad} (hscene : q.graphName ≠ .namedNode holon.scene)
    (hevents : q.graphName ≠ .namedNode holon.events) (hsystem : q.graphName ≠ .namedNode systemGraph) : q ∈ S' ↔ q ∈ S := by
  have hon := ht.on
  subst hon
  rw [ht.all, Set.mem_insert_iff, Set.mem_sdiff, Set.mem_union, TickRecord.mem_replay_kept hscene]
  have hnv : ∀ u, q ≠ Registry.versionQuad r.holon u := fun u heq => hsystem (by rw [heq]; rfl)
  have hne : q ∉ {q | q ∈ Event.toQuads r} := fun hmem => hevents (Event.toQuads_graph hmem)
  simp only [hnv, hne, or_false, false_or, Set.mem_singleton_iff, not_false_eq_true, and_true]

/-- The scene afterwards. -/
theorem mem_scene (ht : Ticked holon v S S' r) (ha : holon.Apart) {t : Triple} :
    t.inGraph (.namedNode holon.scene) ∈ S' ↔ t.inGraph (.namedNode holon.scene) ∈ Edit.replay S r.kept := by
  have hon := ht.on
  subst hon
  rw [ht.all, Set.mem_insert_iff, Set.mem_sdiff, Set.mem_union]
  have hnv : ∀ u, t.inGraph (.namedNode r.holon.scene) ≠ Registry.versionQuad r.holon u :=
    fun u heq => ha.scene_system (GraphName.namedNode.inj (congrArg Quad.graphName heq))
  have hne : t.inGraph (.namedNode r.holon.scene) ∉ {q | q ∈ Event.toQuads r} :=
    fun hmem => ha.scene_events (GraphName.namedNode.inj (Event.toQuads_graph hmem))
  simp only [hnv, hne, or_false, false_or, Set.mem_singleton_iff, not_false_eq_true, and_true]

theorem inGraph_injective (g : GraphName) : Function.Injective (fun t : Triple => t.inGraph g) := by
  rintro ⟨s, p, o⟩ ⟨s', p', o'⟩ h
  cases h
  rfl

/-- The scene afterwards, by its triples. -/
theorem graph_scene {h h' : Held} (ht : Ticked holon v h.all h'.all r) (ha : holon.Apart) :
    h'.graph holon.scene = Edit.replay (h.graph holon.scene) r.keptTriples := by
  refine Eq.trans (Set.ext (fun t => ?_)) (Edit.preimage_replay (inGraph_injective (.namedNode holon.scene)) (s := h.all))
  refine (ht.mem_scene ha).trans ?_
  rw [r.kept_eq, ht.on]
  rfl

/-- The changes an event records are changes of the scene. -/
theorem effective_scene {h h' : Held} (ht : Ticked holon v h.all h'.all r) : Edit.Effective (h.graph holon.scene) r.triples := by
  have heff := ht.effective
  rw [r.edits_eq, ht.on] at heff
  exact heff.preimage (inGraph_injective (.namedNode holon.scene))

/-- The event log afterwards. -/
theorem mem_events (ht : Ticked holon v S S' r) (ha : holon.Apart) {q : Quad} (hq : q.graphName = .namedNode holon.events) :
    q ∈ S' ↔ q ∈ S ∨ q ∈ Event.toQuads r := by
  have hon := ht.on
  subst hon
  have hscene : q.graphName ≠ .namedNode r.holon.scene :=
    fun heq => ha.scene_events (GraphName.namedNode.inj (heq.symm.trans hq))
  have hnv : ∀ u, q ≠ Registry.versionQuad r.holon u :=
    fun u heq => ha.events_system (GraphName.namedNode.inj (hq.symm.trans (congrArg Quad.graphName heq)))
  rw [ht.all, Set.mem_insert_iff, Set.mem_sdiff, Set.mem_union, TickRecord.mem_replay_kept hscene]
  simp only [hnv, false_or, Set.mem_singleton_iff, not_false_eq_true, and_true]
  exact Iff.rfl

/-- What the system graph says of versions, before the version is moved on. -/
theorem versions_before {holon : Holon} {r : TickRecord} {S : Set Quad} (ha : holon.Apart) (hon : r.holon = holon) {id : NamedNode} (o : Term) :
    o ∈ Registry.versions (Edit.replay S r.kept ∪ {q | q ∈ Event.toQuads r}) id ↔ o ∈ Registry.versions S id := by
  subst hon
  refine Iff.trans (or_iff_left (fun hmem => ?_)) (TickRecord.mem_replay_kept (fun heq => ?_))
  · exact ha.events_system (GraphName.namedNode.inj (Event.toQuads_graph hmem)).symm
  · exact ha.scene_system (GraphName.namedNode.inj heq).symm

/-- The version has moved on. -/
theorem versioned (ht : Ticked holon v S S' r) (ha : holon.Apart) (hv : Registry.Versioned S holon.id v) :
    Registry.Versioned S' holon.id (v + 1) := by
  rw [ht.all]
  exact (hv.congr (versions_before ha ht.on)).set ht.bound (Nat.succ_ne_zero v)

/-- No other holon's version has. -/
theorem versioned_other (ht : Ticked holon v S S' r) (ha : holon.Apart) {id : NamedNode} (hne : id ≠ holon.id) {u : Nat}
    (hv : Registry.Versioned S id u) : Registry.Versioned S' id u := by
  rw [ht.all]
  exact (hv.congr (versions_before ha ht.on)).set_other hne

end Ticked

/-! ## The body of a tick -/

theorem applyDelta_at (L : B.Lawful Sim Open) (hR : R x) (hw : World.At Sim c x w h) {delta : Delta} :
    wp (applyDelta holon delta : Eff HolonError (Ticking B E) (List Applied))
      (fun asked w' => ∃ h', World.At Sim c x w' h' ∧ Changed holon h h' asked ∧ h'.all = delta.apply holon h.all)
      (World.Stuck Open c R) w := by
  have hadd : ∀ (ts : List Triple) (S : Set Quad), ts.foldl (fun S t => insert (t.inGraph (.namedNode holon.scene)) S) S =
      S ∪ {q | ∃ t ∈ ts, q = t.inGraph (.namedNode holon.scene)} := by
    intro ts
    induction ts with
    | nil => intro S; simp
    | cons t ts ih =>
      intro S
      rw [List.foldl_cons, ih]
      ext q
      simp only [Set.mem_union, Set.mem_insert_iff, Set.mem_ofPred_eq, List.mem_cons, exists_eq_or_imp]
      tauto
  have hremove : ∀ (ts : List Triple) (S : Set Quad), ts.foldl (fun S t => S \ {t.inGraph (.namedNode holon.scene)}) S =
      S \ {q | ∃ t ∈ ts, q = t.inGraph (.namedNode holon.scene)} := by
    intro ts
    induction ts with
    | nil => intro S; simp
    | cons t ts ih =>
      intro S
      rw [List.foldl_cons, ih]
      ext q
      simp only [Set.mem_sdiff, Set.mem_singleton_iff, Set.mem_ofPred_eq, List.mem_cons, exists_eq_or_imp, not_or, and_assoc]
  unfold applyDelta
  apply wp_bind
  refine (changeAll_at (h := h) (g := fun S t => insert (t.inGraph (.namedNode holon.scene)) S)
    (fun w₁ h₁ applied t hw₁ hc => addToScene_at L hR hw₁ hc) hw Changed.nil).mono ?_ (fun _ _ h => h)
  rintro added w₁ ⟨h₁, hw₁, hc₁, -, hall₁⟩
  refine (changeAll_at (g := fun S t => S \ {t.inGraph (.namedNode holon.scene)})
    (fun w₁ h₁ applied t hw₁ hc => removeFromScene_at L hR hw₁ hc) hw₁ hc₁).mono ?_ (fun _ _ h => h)
  rintro asked w₂ ⟨h₂, hw₂, hc₂, -, hall₂⟩
  refine ⟨h₂, hw₂, hc₂, ?_⟩
  rw [hall₂, hall₁, hadd, hremove]
  rfl

/-- What is left is the same whether or not the changes stand. -/
theorem judge_at (L : B.Lawful Sim Open) (hR : R x) {w₁ : Ticking B E} {h₁ : Held} (hw₁ : World.At Sim c x w₁ h₁)
    {V : Validation B} {now : Int} {applied : List Applied} (hc : Changed holon h h₁ applied) (ha : holon.Apart) {v : Nat}
    (hv : Registry.Versioned h.all holon.id v) (hbound : v + 1 < 2 ^ 64) {Q : TickOutcome V.Report → Ticking B E → Prop}
    (hQ : ∀ o w' h' r, World.At Sim c x w' h' → h.ids ≤ h'.ids → Ticked holon v h.all h'.all r →
      r.changes = applied.map Applied.recorded → o.version = r.version → o.admitted = r.admitted → Q o w') :
    wp (judge holon V now (v + 1) applied : Eff HolonError (Ticking B E) (TickOutcome V.Report)) Q (World.Stuck Open c R) w₁ := by
  unfold judge
  apply wp_bind
  refine validate_at L hR hw₁ (fun found => ?_)
  obtain ⟨violations, report⟩ := found
  have hrest : ∀ w₂ h₂ admitted, World.At Sim c x w₂ h₂ → h.ids ≤ h₂.ids →
      h₂.all = Edit.replay h.all (if admitted = true then applied.map (Applied.edit holon) else []) →
      wp (do
        let principal ← .reads (fun w => .ok w.session.principal.id)
        appendEvent ⟨holon, v + 1, now, principal, applied.map Applied.recorded, admitted, violations⟩
        Registry.setVersion true holon (v + 1)
        return (⟨v + 1, admitted, violations, if admitted then applied.length else 0, report⟩ : TickOutcome V.Report)
        : Eff HolonError (Ticking B E) (TickOutcome V.Report)) Q (World.Stuck Open c R) w₂ := by
    intro w₂ h₂ admitted hw₂ hle₂ hall₂
    apply wp_bind
    refine World.reads_at L hR hw₂ (fun principal _ => ?_)
    let r : TickRecord := ⟨holon, v + 1, now, principal, applied.map Applied.recorded, admitted, violations⟩
    have hedits : r.edits = applied.map (Applied.edit holon) := List.map_map
    have hkept : h₂.all = Edit.replay h.all r.kept := by
      rw [hall₂]
      unfold TickRecord.kept
      rw [hedits]
    apply wp_bind
    refine World.insertAll_at L hR hw₂ (fun w₃ h₃ hw₃ hle₃ hall₃ => ?_)
    rw [hkept] at hall₃
    have hv₃ : Registry.Versioned h₃.all holon.id v := hv.congr (fun o => by
      rw [hall₃]
      exact Ticked.versions_before ha rfl o)
    apply wp_bind
    refine Registry.setVersion_at L hR hw₃ hv₃ (fun w₄ h₄ hw₄ hle₄ hall₄ => ?_)
    rw [hall₃] at hall₄
    have ht : Ticked holon v h.all h₄.all r := ⟨rfl, rfl, hbound, by rw [hedits]; exact hc.effective, hall₄⟩
    exact wp_pure (hQ _ w₄ h₄ r hw₄ (hle₂.trans (hle₃.trans hle₄)) ht rfl rfl rfl)
  dsimp only
  generalize (decide (violations = 0) || decide (holon.admission = .admitAndRecord)) = admitted
  cases admitted with
  | true => exact hrest w₁ h₁ true hw₁ hc.ids hc.all
  | false =>
    apply wp_bind
    refine (undo_at L hR hw₁ hc).mono ?_ (fun _ _ h => h)
    rintro - w₂ ⟨h₂, hw₂, hle₂, hall₂⟩
    exact hrest w₂ h₂ false hw₂ hle₂ hall₂

/-- With the scope open: a tick that comes through is a `Ticked`, and one that does not leaves
the scope open over what it was opened on. -/
theorem tickBody_at (L : B.Lawful Sim Open) (hR : R x) (hw : World.At Sim c x w h) {V : Validation B} {now : Int} {delta : Delta}
    (ha : holon.Apart) {v : Nat} (hv : Registry.Versioned h.all holon.id v)
    {P : List Applied → List Triple → Option (Rules E) → Prop} (hfire : Fires (B := B) Sim Open c x R holon delta h P)
    {Q : TickOutcome V.Report → Ticking B E → Prop}
    (hQ : ∀ o w' h' r asked inferred added x', World.At Sim c x' w' h' → h.ids ≤ h'.ids → Ticked holon v h.all h'.all r →
      r.changes = (asked ++ added).map Applied.recorded → (inferred = [] → added = []) → P asked inferred x' → R x' →
      o.version = r.version → o.admitted = r.admitted → Q o w') :
    wp (tickBody holon V now delta : Eff HolonError (Ticking B E) (TickOutcome V.Report)) Q (World.Stuck Open c R) w := by
  unfold tickBody
  split
  · exact World.throw_at L hR hw
  apply wp_bind
  refine Registry.nextVersion_versioned L hR hw hv (fun hbound => ?_)
  apply wp_bind
  refine (applyDelta_at L hR hw).mono ?_ (fun _ _ h => h)
  rintro asked w₁ ⟨h₁, hw₁, hc₁, hall₁⟩
  apply wp_bind
  refine (hfire w₁ h₁ asked hw₁ hc₁ hall₁).mono ?_ (fun _ _ h => h)
  rintro inferred w₂ ⟨x', hw₂, hP, hR'⟩
  apply wp_bind
  refine (changeAll_at (g := fun S t => insert (t.inGraph (.namedNode holon.scene)) S)
    (fun w₁ h₁ applied t hw₁ hc => addToScene_at L hR' hw₁ hc) hw₂ hc₁).mono ?_ (fun _ _ h => h)
  rintro applied w₃ ⟨h₃, hw₃, hc₃, ⟨added, rfl, hadded⟩, -⟩
  refine judge_at L hR' hw₃ hc₃ ha hv hbound (fun o w' h' r hw' hle ht hchanges ho hadm => ?_)
  exact hQ o w' h' r asked inferred added x' hw' hle ht hchanges hadded hP hR' ho hadm

end Holos
