import Holos.Engine.WorldTheorems
/-!
# The programs over a store, as changes of a set of quads

`At w h`: inside a scope over `c` the world's store stands for `h`, all of whose rows are rows of
quads. Each rule gives the quads held afterwards.
-/

namespace Holos

open Lib Lib.Eff Security

namespace Held

/-- The quads a store holds. -/
def all (h : Held) : Set Quad := {q | h.Has q}

/-- The triples of a graph. -/
def graph (h : Held) (g : NamedNode) : Set Triple := {t | h.Has (t.inGraph (.namedNode g))}

theorem all_grow {h : Held} {ids : Ids} (hle : h.ids ≤ ids) (hd : h.Decodes) : ({ h with ids } : Held).all = h.all :=
  Set.ext (fun _ => has_grow hle hd)

theorem all_of_contents {h h' : Held} (hc : h'.contents = h.contents) (hle : h.ids ≤ h'.ids) (hd : h.Decodes) : h'.all = h.all := by
  obtain ⟨contents, ids, saved⟩ := h'
  cases hc
  exact all_grow hle hd

theorem all_insert {h : Held} {q : Quad} {e : EncodedQuad} (hq : h.ids.quad q = some e) : (h.write (.insert e)).all = Insert.insert q h.all :=
  Set.ext (fun _ => has_insert hq)

theorem all_remove {h : Held} {q : Quad} {e : EncodedQuad} (hq : h.ids.quad q = some e) : (h.write (.remove e)).all = h.all \ {q} :=
  Set.ext (fun _ => (has_remove hq).trans and_comm)

/-- Every row a store holds of a triple pattern in a named graph is one of its quads. -/
theorem exists_quad {h : Held} (hd : h.Decodes) {e : EncodedQuad} (he : e ∈ h.contents.quads) :
    ∃ q, h.ids.quad q = some e ∧ q ∈ h.all := by
  obtain ⟨q, hq⟩ := hd e he
  exact ⟨q, hq, e, hq, he⟩

end Held

namespace World

variable {B : Backend} {Sim : B.State → Held → Prop} {Open : B.State → Contents × Ids → Prop} {ρ ε : Type} [OfStorage ε]

/-- Inside a scope over `c`, with the caller's state `x`. -/
structure At (Sim : B.State → Held → Prop) (c : Contents × Ids) (x : ρ) (w : World B ρ) (h : Held) : Prop where
  sim : Sim w.store h
  saved : h.saved = some c
  decodes : h.Decodes
  extra : w.extra = x

variable {c : Contents × Ids} {x : ρ} {R : ρ → Prop} {w : World B ρ} {h : Held}

theorem At.stuck (hw : At Sim c x w h) (hR : R x) : R w.extra := by
  rw [hw.extra]
  exact hR

/-- More ids leave the world where it is. -/
theorem At.grow (hw : At Sim c x w h) {s : B.State} {ids : Ids} (hle : h.ids ≤ ids) (hs : Sim s { h with ids }) :
    At Sim c x { w with store := s } { h with ids } :=
  ⟨hs, hw.saved, hw.decodes.grow hle, hw.extra⟩

section
variable (L : B.Lawful Sim Open) (hR : R x) (hw : At Sim c x w h)
include L hR hw

theorem encodeQuad_at {q : Quad} {Q : EncodedQuad → World B ρ → Prop}
    (hQ : ∀ e w' h', At Sim c x w' h' → h.ids ≤ h'.ids → h'.all = h.all → h'.ids.quad q = some e → Q e w') :
    wp (encodeQuad q : Eff ε (World B ρ) EncodedQuad) Q (Stuck Open c R) w := by
  refine encodeQuad_wp L hw.sim hw.saved (hw.stuck hR) (fun s ids e hle he hs => ?_)
  exact hQ e _ _ (hw.grow hle hs) hle (Held.all_grow hle hw.decodes) he

theorem insertEncoded_at {q : Quad} {e : EncodedQuad} (he : h.ids.quad q = some e) {Q : Bool → World B ρ → Prop}
    (hQ : ∀ b w' h', At Sim c x w' h' → h'.ids = h.ids → h'.all = Insert.insert q h.all → (b = true ↔ q ∉ h.all) → Q b w') :
    wp (insertEncoded e : Eff ε (World B ρ) Bool) Q (Stuck Open c R) w := by
  refine insertEncoded_wp L hw.sim hw.saved (hw.stuck hR) (fun s hs => ?_)
  refine hQ _ _ (h.write (.insert e)) ⟨hs, hw.saved, hw.decodes.insert he, hw.extra⟩ rfl (Held.all_insert he) ?_
  rw [decide_eq_true_iff]
  exact not_congr (Held.Has.of_mem he).symm

theorem removeEncodedQuad_at {q : Quad} {e : EncodedQuad} (he : h.ids.quad q = some e) {Q : Bool → World B ρ → Prop}
    (hQ : ∀ b w' h', At Sim c x w' h' → h'.ids = h.ids → h'.all = h.all \ {q} → (b = true ↔ q ∈ h.all) → Q b w') :
    wp (removeEncodedQuad e : Eff ε (World B ρ) Bool) Q (Stuck Open c R) w := by
  refine removeEncodedQuad_wp L hw.sim hw.saved (hw.stuck hR) (fun s hs => ?_)
  refine hQ _ _ (h.write (.remove e)) ⟨hs, hw.saved, hw.decodes.remove, hw.extra⟩ rfl (Held.all_remove he) ?_
  rw [decide_eq_true_iff]
  exact (Held.Has.of_mem he).symm

theorem insert_at {q : Quad} {Q : Bool → World B ρ → Prop}
    (hQ : ∀ b w' h', At Sim c x w' h' → h.ids ≤ h'.ids → h'.all = Insert.insert q h.all → (b = true ↔ q ∉ h.all) → Q b w') :
    wp (insert q : Eff ε (World B ρ) Bool) Q (Stuck Open c R) w := by
  unfold insert
  apply wp_bind
  refine encodeQuad_at L hR hw (fun e w₁ h₁ hw₁ hle hall he => ?_)
  refine insertEncoded_at L hR hw₁ he (fun b w₂ h₂ hw₂ hids hall₂ hb => ?_)
  rw [hall] at hall₂ hb
  exact hQ b w₂ h₂ hw₂ (hle.trans (le_of_eq hids.symm)) hall₂ hb

theorem remove_at {q : Quad} {Q : Bool → World B ρ → Prop}
    (hQ : ∀ b w' h', At Sim c x w' h' → h'.ids = h.ids → h'.all = h.all \ {q} → (b = true ↔ q ∈ h.all) → Q b w') :
    wp (remove q : Eff ε (World B ρ) Bool) Q (Stuck Open c R) w := by
  refine remove_wp L hw.sim hw.saved (hw.stuck hR) (fun hnone => ?_) (fun s e he hs => ?_)
  · have habs : q ∉ h.all := fun ⟨e, he, _⟩ => by rw [hnone] at he; cases he
    exact hQ false w h hw rfl (Set.sdiff_singleton_eq_self habs).symm ⟨fun h => (Bool.false_ne_true h).elim, fun h => (habs h).elim⟩
  · refine hQ _ _ (h.write (.remove e)) ⟨hs, hw.saved, hw.decodes.remove, hw.extra⟩ rfl (Held.all_remove he) ?_
    rw [decide_eq_true_iff]
    exact (Held.Has.of_mem he).symm

/-- Recording a graph adds no quad to it. -/
theorem insertNamedGraph_at {g : GraphName} {Q : Bool → World B ρ → Prop}
    (hQ : ∀ b w' h', At Sim c x w' h' → h.ids ≤ h'.ids → h'.all = h.all → Q b w') :
    wp (insertNamedGraph g : Eff ε (World B ρ) Bool) Q (Stuck Open c R) w := by
  unfold insertNamedGraph
  apply wp_bind
  refine encodeGraph_wp L hw.sim hw.saved (hw.stuck hR) (fun s ids i hle _ hs => ?_)
  have hw' := hw.grow hle hs
  cases i with
  | none => exact wp_pure (hQ false _ _ hw' hle (Held.all_grow hle hw.decodes))
  | some g =>
    refine write_wp L hw'.sim hw'.saved (hw'.stuck hR) (fun s' hs' => ?_)
    refine hQ _ _ (({ h with ids } : Held).write (.insertNamedGraph g)) ⟨hs', hw.saved, hw'.decodes.insertNamedGraph, hw.extra⟩ hle ?_
    exact (show (({ h with ids } : Held).write (.insertNamedGraph g)).all = ({ h with ids } : Held).all from rfl).trans
      (Held.all_grow hle hw.decodes)

theorem policy_at {Q : CompiledPolicy → World B ρ → Prop} (hQ : ∀ p w', At Sim c x w' h → Q p w') :
    wp (policy : Eff ε (World B ρ) CompiledPolicy) Q (Stuck Open c R) w :=
  policy_wp L hw.sim hw.saved (hw.stuck hR) (fun p _ => hQ p _ ⟨hw.sim, hw.saved, hw.decodes, hw.extra⟩)

theorem lookupTerm_at {t : Term} {Q : Option TermId → World B ρ → Prop} (hQ : Q (h.ids t) w) :
    wp (lookupTerm t : Eff ε (World B ρ) (Option TermId)) Q (Stuck Open c R) w :=
  lookupTerm_wp L hw.sim hw.saved (hw.stuck hR) hQ

theorem reads_at {α : Type} {f : World B ρ → Except ε α} {Q : α → World B ρ → Prop} (hQ : ∀ a, f w = .ok a → Q a w) :
    wp (Eff.reads f) Q (Stuck Open c R) w :=
  reads_wp L hw.sim hw.saved (hw.stuck hR) hQ

theorem throw_at {α : Type} {e : ε} {Q : α → World B ρ → Prop} : wp (throw e : Eff ε (World B ρ) α) Q (Stuck Open c R) w :=
  throw_wp L hw.sim hw.saved (hw.stuck hR)

end

/-! ## Loops -/

/-- A list of quads inserted one after another. -/
theorem insertAll_at (L : B.Lawful Sim Open) (hR : R x) (hw : At Sim c x w h) {qs : List Quad} {Q : Unit → World B ρ → Prop}
    (hQ : ∀ w' h', At Sim c x w' h' → h.ids ≤ h'.ids → h'.all = h.all ∪ {q | q ∈ qs} → Q () w') :
    wp (qs.foldlM (fun _ q => do let _ ← insert q) () : Eff ε (World B ρ) Unit) Q (Stuck Open c R) w := by
  refine (wp_foldlM (I := fun done _ w' => ∃ h', At Sim c x w' h' ∧ h.ids ≤ h'.ids ∧ h'.all = h.all ∪ {q | q ∈ done}) ?_ ?_).mono
    (fun _ w' ⟨h', hw', hle, hall⟩ => hQ w' h' hw' hle hall) (fun _ _ h => h)
  · exact ⟨h, hw, le_rfl, by simp⟩
  · rintro done q rest - w₁ - ⟨h₁, hw₁, hle₁, hall₁⟩
    apply wp_bind
    refine insert_at L hR hw₁ (fun b w₂ h₂ hw₂ hle₂ hall₂ _ => wp_pure ⟨h₂, hw₂, hle₁.trans hle₂, ?_⟩)
    rw [hall₂, hall₁]
    ext q'
    simp only [Set.mem_insert_iff, Set.mem_union, Set.mem_ofPred_eq, List.mem_append, List.mem_singleton]
    tauto

end World

end Holos
