import Holos.Engine.AccessTheorems
/-!
# Outside a scope

`Idle session x w h`: no scope is open, and the store stands for `h`. An unrestricted session is
shown every quad.
-/

namespace Holos

open Lib Lib.Eff Security

/-! ## Sessions that can do anything -/

namespace Security

/-- Nothing is refused. -/
structure CompiledPolicy.Open (p : CompiledPolicy) : Prop where
  decideQuad : ∀ e mode, p.decideQuad e mode = .allow
  graph : ∀ g, p.graphIsWhollyDenied g = false

theorem Session.unrestricted_open {resolve : Resolve} {len : Nat} {session : Session}
    (h : Session.unrestricted resolve len = .ok session) : session.compiled.Open := by
  cases h
  constructor
  · intro e mode
    cases hg : e.graphName <;>
      simp [CompiledPolicy.decideQuad, CompiledPolicy.cleared, CompiledPolicy.slots, CompiledPolicy.consider, Policy.permitAll,
        Principal.isClearedFor, Principal.anonymous, hg]
  · intro g
    cases g <;>
      simp [CompiledPolicy.graphIsWhollyDenied, CompiledPolicy.cleared, Policy.permitAll, Principal.isClearedFor, Principal.anonymous]

end Security

variable {B : Backend} {Sim : B.State → Held → Prop} {Open : B.State → Contents × Ids → Prop} {ρ ε : Type} [OfStorage ε]

/-- No scope is open, and every row is the row of a quad. -/
structure Idle (Sim : B.State → Held → Prop) (session : Session) (x : ρ) (w : World B ρ) (h : Held) : Prop where
  sim : Sim w.store h
  saved : h.saved = none
  decodes : h.Decodes
  session : w.session = session
  extra : w.extra = x

variable {session : Session} {x : ρ} {w : World B ρ} {h : Held}

/-- An insert outside a scope does not fail, and says whether the quad was new. -/
theorem World.insert_rests (L : B.Lawful Sim Open) (hw : Idle Sim session x w h) {q : Quad}
    (hq : q.object.isTriple = false ∨ B.EncodesTriples Sim) {Q : Bool → World B ρ → Prop} {E : ε → World B ρ → Prop}
    (hQ : ∀ b w' h', Idle Sim session x w' h' → h'.all = Insert.insert q h.all → (b = true ↔ q ∉ h.all) → Q b w') :
    wp (World.insert q : Eff ε (World B ρ) Bool) Q E w := by
  unfold World.insert
  apply wp_bind
  refine encodeQuad_idle L hw.sim hw.saved hq (fun s ids e hle he hs => ?_)
  have hall := Held.all_grow hle hw.decodes
  refine write_idle L (w := { w with store := s }) hs hw.saved (fun s' _ hs' => ?_)
  refine hQ _ _ (({ h with ids } : Held).write (.insert e)) ⟨hs', hw.saved, (hw.decodes.grow hle).insert he, hw.session, hw.extra⟩ ?_ ?_
  · rw [Held.all_insert (h := { h with ids }) he, hall]
  · rw [← hall]
    change decide (e ∉ h.contents.quads) = true ↔ _
    rw [decide_eq_true_iff]
    exact not_congr (Held.Has.of_mem (h := { h with ids }) he).symm

namespace Engine

/-- A session with an open policy is shown every quad of a graph. -/
theorem visibleQuads_open (L : B.Lawful Sim Open) (hw : Idle Sim session x w h) (hopen : session.compiled.Open) {name : GraphName}
    {Q : List Quad → World B ρ → Prop} {E : ViewError → World B ρ → Prop} (hE : ∀ e, E e w)
    (hQ : ∀ qs, (∀ q, q ∈ qs ↔ q ∈ h.all ∧ q.graphName = name) → Q qs w) :
    wp (visibleQuads (some name) : Eff ViewError (World B ρ) (List Quad)) Q E w := by
  refine visibleQuads_reads L hw.sim hw.decodes (fun e => hE _) (fun _ => hE _) (fun rows qs hl => hQ qs (fun q => ?_))
  rw [hl.mem_iff]
  constructor
  · rintro ⟨e, he, hs⟩
    exact ⟨⟨e, he, hs.stored⟩, Ids.graph_inj (Ids.quad_eq_some.1 he).2.2.2 hs.graph⟩
  · rintro ⟨⟨e, he, hmem⟩, rfl⟩
    rw [hw.session]
    exact ⟨e, he, hmem, (Ids.quad_eq_some.1 he).2.2.2, fun g _ => hopen.graph (some g), hopen.decideQuad e _⟩

/-- And every quad there is. -/
theorem visibleQuads_all_open (L : B.Lawful Sim Open) (hw : Idle Sim session x w h) (hopen : session.compiled.Open)
    {Q : List Quad → World B ρ → Prop} {E : ViewError → World B ρ → Prop} (hE : ∀ e, E e w)
    (hQ : ∀ qs, (∀ q, q ∈ qs ↔ q ∈ h.all) → Q qs w) :
    wp (visibleQuads none : Eff ViewError (World B ρ) (List Quad)) Q E w := by
  unfold visibleQuads
  apply wp_bind
  refine wp_reads (fun p hp => ?_) (fun e _ => hE e)
  cases hp
  apply wp_bind
  apply wp_pure
  apply wp_bind
  refine World.quadsForPattern_reads L hw.sim (fun e => hE _) (fun scan _ hscan => ?_)
  have hmem : ∀ e, e ∈ scan ↔ e ∈ h.contents.quads := by
    intro e
    simp [hscan, Index.matchesTriple, Index.GraphFilter.admits]
  refine shown_reads L hw.sim (fun e he => hw.decodes e ((hmem e).1 he)) (fun e => hE _) (fun _ => hE _) (fun qs hqs => hQ qs ?_)
  have hfilter : scan.filter (fun e => w.session.compiled.decideQuad e Modes.read = .allow) = scan := by
    refine List.filter_eq_self.2 (fun e _ => ?_)
    rw [hw.session, hopen.decideQuad]
    rfl
  rw [hfilter] at hqs
  intro q
  rw [mem_decoded hqs]
  simp only [hmem]
  exact exists_congr (fun e => and_comm)

end Engine

end Holos
