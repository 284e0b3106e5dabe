import Holos.Engine.AccessTheorems
import Holos.Lib.Effect
/-!
# What every program over a store keeps, and how it fails

A property of the world that interning, writing and compiling a policy keep is kept by every
program, failed or not. And a program that only reads and writes fails as the store does, or because
the policy refuses.
-/

namespace Holos

open Lib Lib.Eff Security

namespace World

variable {B : Backend} {ρ ε : Type} [OfStorage ε] {I : World B ρ → Prop}

/-- Kept by all that is done to the store and the session. -/
structure Steady (I : World B ρ → Prop) : Prop where
  encode : ∀ {w t r s}, I w → B.encode w.store t = some (r, s) → I { w with store := s }
  write : ∀ {w op r s}, I w → B.write w.store op = (r, s) → I { w with store := s }
  compile : ∀ {w session}, I w → I { w with session }

/-- An open scope is. -/
theorem steady_open {Sim : B.State → Held → Prop} {Open : B.State → Contents × Ids → Prop} (L : B.Lawful Sim Open) (c : Contents × Ids) :
    Steady (fun w : World B ρ => Open w.store c) :=
  ⟨fun hw h => L.open_encode hw h, fun hw h => L.open_write hw h, fun hw => hw⟩

theorem steady_extra (x : ρ) : Steady (fun w : World B ρ => w.extra = x) := ⟨fun hw _ => hw, fun hw _ => hw, fun hw => hw⟩

/-- A failure of the store. -/
def FromStore (e : ε) : Prop := ∃ e' : StorageError, e = OfStorage.ofStorage e'

theorem errs_store {α : Type} {f : World B ρ → Except StorageError α} : Errs FromStore (Eff.reads (fun w => failed (f w)) : Eff ε (World B ρ) α) := by
  refine errs_reads (fun w e he => ?_)
  cases hf : f w with
  | ok a =>
    rw [hf] at he
    cases he
  | error e' =>
    rw [hf] at he
    cases he
    exact ⟨e', rfl⟩

/-! ## The dictionary -/

theorem encodeTerm_keeps (hI : Steady I) (t : Term) : Keeps I (encodeTerm t : Eff ε (World B ρ) TermId) := by
  refine keeps_of (fun w r w' hrun hw => ?_)
  obtain ⟨⟨r', s⟩, henc, heq⟩ := Option.map_eq_some_iff.1 hrun
  obtain ⟨-, rfl⟩ := Prod.mk.inj heq
  exact hI.encode hw henc

theorem encodeTerm_errs (t : Term) : Errs FromStore (encodeTerm t : Eff ε (World B ρ) TermId) := by
  refine errs_of (fun w e w' hrun => ?_)
  obtain ⟨⟨r, s⟩, -, heq⟩ := Option.map_eq_some_iff.1 hrun
  cases r with
  | ok i => cases heq
  | error e' =>
    cases heq
    exact ⟨e', rfl⟩

theorem encodeGraph_keeps (hI : Steady I) (g : GraphName) : Keeps I (encodeGraph g : Eff ε (World B ρ) (Option TermId)) := by
  cases g with
  | defaultGraph => exact (quiet_pure _).keeps
  | namedNode n => exact (encodeTerm_keeps hI _).bind (fun _ => (quiet_pure _).keeps)
  | blankNode b => exact (encodeTerm_keeps hI _).bind (fun _ => (quiet_pure _).keeps)

theorem encodeGraph_errs (g : GraphName) : Errs FromStore (encodeGraph g : Eff ε (World B ρ) (Option TermId)) := by
  cases g with
  | defaultGraph => exact errs_pure _
  | namedNode n => exact (encodeTerm_errs _).bind (fun _ => errs_pure _)
  | blankNode b => exact (encodeTerm_errs _).bind (fun _ => errs_pure _)

theorem encodeQuad_keeps (hI : Steady I) (q : Quad) : Keeps I (encodeQuad q : Eff ε (World B ρ) EncodedQuad) :=
  (encodeTerm_keeps hI _).bind fun _ => (encodeTerm_keeps hI _).bind fun _ => (encodeTerm_keeps hI _).bind fun _ =>
    (encodeGraph_keeps hI _).bind fun _ => (quiet_pure _).keeps

theorem encodeQuad_errs (q : Quad) : Errs FromStore (encodeQuad q : Eff ε (World B ρ) EncodedQuad) :=
  (encodeTerm_errs _).bind fun _ => (encodeTerm_errs _).bind fun _ => (encodeTerm_errs _).bind fun _ =>
    (encodeGraph_errs _).bind fun _ => errs_pure _

theorem quiet_lookupGraphName (g : GraphName) : Quiet (lookupGraphName g : Eff ε (World B ρ) (Option (Option TermId))) := by
  cases g with
  | defaultGraph => exact quiet_pure _
  | namedNode n => exact (quiet_reads _).bind (fun _ => quiet_pure _)
  | blankNode b => exact (quiet_reads _).bind (fun _ => quiet_pure _)

theorem lookupGraphName_errs (g : GraphName) : Errs FromStore (lookupGraphName g : Eff ε (World B ρ) (Option (Option TermId))) := by
  cases g with
  | defaultGraph => exact errs_pure _
  | namedNode n => exact errs_store.bind (fun _ => errs_pure _)
  | blankNode b => exact errs_store.bind (fun _ => errs_pure _)

theorem quiet_lookupQuad (q : Quad) : Quiet (lookupQuad q : Eff ε (World B ρ) (Option EncodedQuad)) :=
  (quiet_reads _).bind fun _ => (quiet_reads _).bind fun _ => (quiet_reads _).bind fun _ =>
    (quiet_lookupGraphName _).bind fun _ => quiet_pure _

theorem lookupQuad_errs (q : Quad) : Errs FromStore (lookupQuad q : Eff ε (World B ρ) (Option EncodedQuad)) :=
  errs_store.bind fun _ => errs_store.bind fun _ => errs_store.bind fun _ => (lookupGraphName_errs _).bind fun _ => errs_pure _

theorem quiet_requireTerm (id : TermId) : Quiet (requireTerm id : Eff ε (World B ρ) Term) := by
  refine (quiet_reads _).bind (fun t => ?_)
  cases t with
  | none => exact quiet_throw _
  | some t => exact quiet_pure t

theorem quiet_decodeGraph (g : Option TermId) : Quiet (decodeGraph g : Eff ε (World B ρ) GraphName) := by
  cases g with
  | none => exact quiet_pure _
  | some g =>
    refine (quiet_requireTerm g).bind (fun t => ?_)
    cases t with
    | namedNode n => exact quiet_pure _
    | blankNode b => exact quiet_pure _
    | literal l => exact quiet_throw _
    | triple s p o => exact quiet_throw _

theorem quiet_decodeQuad (e : EncodedQuad) : Quiet (decodeQuad e : Eff ε (World B ρ) Quad) := by
  refine (quiet_requireTerm _).bind (fun s => ?_)
  cases Dictionary.asSubject s with
  | none => exact quiet_throw _
  | some subject =>
    refine (quiet_requireTerm _).bind (fun p => ?_)
    cases p with
    | namedNode predicate =>
      exact (quiet_requireTerm _).bind (fun _ => (quiet_decodeGraph _).bind (fun _ => quiet_pure _))
    | blankNode b => exact quiet_throw _
    | literal l => exact quiet_throw _
    | triple s p o => exact quiet_throw _

/-! ## Writes -/

theorem write_keeps (hI : Steady I) (op : Index.Op) : Keeps I (write op : Eff ε (World B ρ) Bool) := by
  refine keeps_of (fun w r w' hrun hw => ?_)
  obtain ⟨-, rfl⟩ := Prod.mk.inj (Option.some.inj hrun)
  exact hI.write hw rfl

theorem write_errs (op : Index.Op) : Errs FromStore (write op : Eff ε (World B ρ) Bool) := by
  refine errs_of (fun w e w' hrun => ?_)
  obtain ⟨hr, -⟩ := Prod.mk.inj (Option.some.inj hrun)
  exact failed_error hr

theorem remove_keeps (hI : Steady I) (q : Quad) : Keeps I (remove q : Eff ε (World B ρ) Bool) := by
  refine (quiet_lookupQuad q).keeps.bind (fun e => ?_)
  cases e with
  | none => exact (quiet_pure _).keeps
  | some e => exact write_keeps hI _

theorem remove_errs (q : Quad) : Errs FromStore (remove q : Eff ε (World B ρ) Bool) := by
  refine (lookupQuad_errs q).bind (fun e => ?_)
  cases e with
  | none => exact errs_pure _
  | some e => exact write_errs _

theorem insertNamedGraph_keeps (hI : Steady I) (g : GraphName) : Keeps I (insertNamedGraph g : Eff ε (World B ρ) Bool) := by
  refine (encodeGraph_keeps hI g).bind (fun i => ?_)
  cases i with
  | none => exact (quiet_pure _).keeps
  | some i => exact write_keeps hI _

theorem insertNamedGraph_errs (g : GraphName) : Errs FromStore (insertNamedGraph g : Eff ε (World B ρ) Bool) := by
  refine (encodeGraph_errs g).bind (fun i => ?_)
  cases i with
  | none => exact errs_pure _
  | some i => exact write_errs _

theorem removeNamedGraph_keeps (hI : Steady I) (g : GraphName) : Keeps I (removeNamedGraph g : Eff ε (World B ρ) Bool) := by
  refine (quiet_lookupGraphName g).keeps.bind (fun i => ?_)
  cases i with
  | none => exact (quiet_pure _).keeps
  | some i =>
    cases i with
    | none => exact (quiet_pure _).keeps
    | some i => exact write_keeps hI _

theorem removeNamedGraph_errs (g : GraphName) : Errs FromStore (removeNamedGraph g : Eff ε (World B ρ) Bool) := by
  refine (lookupGraphName_errs g).bind (fun i => ?_)
  cases i with
  | none => exact errs_pure _
  | some i =>
    cases i with
    | none => exact errs_pure _
    | some i => exact write_errs _

/-! ### In a scope -/

section
variable {Sim : B.State → Held → Prop} {Open : B.State → Contents × Ids → Prop} {w : World B ρ} {h : Held} {c : Contents × Ids}
variable {R : ρ → Prop} (L : B.Lawful Sim Open) (hw : Sim w.store h) (hc : h.saved = some c) (hR : R w.extra)
include L hw hc hR

theorem insertNamedGraph_wp {n : NamedNode} {Q : Bool → World B ρ → Prop}
    (hQ : ∀ b s ids g, h.ids ≤ ids → ids.graph (.namedNode n) = some (some g) →
      Sim s (({ h with ids } : Held).write (.insertNamedGraph g)) → Q b { w with store := s }) :
    wp (insertNamedGraph (.namedNode n) : Eff ε (World B ρ) Bool) Q (Stuck Open c R) w := by
  unfold insertNamedGraph
  apply wp_bind
  refine encodeGraph_wp L hw hc hR (fun s ids i hle hi hs => ?_)
  obtain ⟨g, -, rfl⟩ := Option.map_eq_some_iff.1 hi
  exact write_wp (w := { w with store := s }) L hs hc hR (fun s' hs' => hQ _ s' ids g hle hi hs')

/-- A graph with no id has no quads to drop. -/
theorem removeNamedGraph_wp {n : NamedNode} {Q : Bool → World B ρ → Prop}
    (hnone : h.ids.graph (.namedNode n) = none → Q false w)
    (hsome : ∀ b s g, h.ids.graph (.namedNode n) = some (some g) → Sim s (h.write (.removeNamedGraph g)) → Q b { w with store := s }) :
    wp (removeNamedGraph (.namedNode n) : Eff ε (World B ρ) Bool) Q (Stuck Open c R) w := by
  unfold removeNamedGraph
  apply wp_bind
  apply lookupGraphName_wp L hw hc hR
  cases hg : h.ids.graph (.namedNode n) with
  | none => exact wp_pure (hnone hg)
  | some i =>
    obtain ⟨g, -, rfl⟩ := Option.map_eq_some_iff.1 hg
    exact write_wp L hw hc hR (fun s hs => hsome _ s g hg hs)

end

theorem quiet_containsNamedGraph (g : GraphName) : Quiet (containsNamedGraph g : Eff ε (World B ρ) Bool) := by
  refine (quiet_lookupGraphName g).bind (fun i => ?_)
  cases i with
  | none => exact quiet_pure _
  | some i =>
    cases i with
    | none => exact quiet_pure _
    | some i => exact quiet_reads _

theorem containsNamedGraph_errs (g : GraphName) : Errs FromStore (containsNamedGraph g : Eff ε (World B ρ) Bool) := by
  refine (lookupGraphName_errs g).bind (fun i => ?_)
  cases i with
  | none => exact errs_pure _
  | some i =>
    cases i with
    | none => exact errs_pure _
    | some i => exact errs_store

/-! ## The session -/

theorem policy_keeps (hI : Steady I) : Keeps I (policy : Eff ε (World B ρ) CompiledPolicy) := by
  refine keeps_of (fun w r w' hrun hw => ?_)
  split at hrun
  · split at hrun
    · cases hrun
      exact hI.compile hw
    · cases hrun
      exact hw
  · cases hrun
    exact hw

theorem policy_errs : Errs FromStore (policy : Eff ε (World B ρ) CompiledPolicy) := by
  refine errs_of (fun w e w' hrun => ?_)
  split at hrun
  · split at hrun
    · cases hrun
    · rename_i e' _
      cases hrun
      exact ⟨e', rfl⟩
  · cases hrun

end World

namespace Engine

variable {B : Backend} {ρ : Type} {I : World B ρ → Prop}

/-- A refused write, or a failure of the store. -/
def Refusal (e : EngineError) : Prop := e = .accessDenied ∨ e.ofStore = true

theorem Refusal.of_store {e : EngineError} (h : World.FromStore e) : Refusal e := by
  obtain ⟨e', rfl⟩ := h
  exact .inr rfl

theorem insert_keeps (hI : World.Steady I) (q : Quad) : Keeps I (insert q : Eff EngineError (World B ρ) Bool) := by
  refine (World.encodeQuad_keeps hI q).bind (fun e => (World.policy_keeps hI).bind (fun p => ?_))
  have hwrite : Keeps I (World.write (.insert e) : Eff EngineError (World B ρ) Bool) := World.write_keeps hI _
  exact keeps_ite ((quiet_throw _).keeps.bind (fun _ => hwrite)) hwrite

theorem insert_errs (q : Quad) : Errs Refusal (insert q : Eff EngineError (World B ρ) Bool) := by
  refine ((World.encodeQuad_errs q).mono .of_store).bind (fun e => (World.policy_errs.mono .of_store).bind (fun p => ?_))
  have hwrite : Errs Refusal (World.write (.insert e) : Eff EngineError (World B ρ) Bool) := (World.write_errs _).mono .of_store
  exact errs_ite ((errs_throw (.inl rfl)).bind (fun _ => hwrite)) hwrite

theorem remove_keeps (hI : World.Steady I) (q : Quad) : Keeps I (remove q : Eff EngineError (World B ρ) Bool) := by
  refine (World.encodeQuad_keeps hI q).bind (fun e => (World.policy_keeps hI).bind (fun p => ?_))
  have hwrite : Keeps I (World.remove q : Eff EngineError (World B ρ) Bool) := World.remove_keeps hI q
  exact keeps_ite ((quiet_throw _).keeps.bind (fun _ => hwrite)) hwrite

theorem remove_errs (q : Quad) : Errs Refusal (remove q : Eff EngineError (World B ρ) Bool) := by
  refine ((World.encodeQuad_errs q).mono .of_store).bind (fun e => (World.policy_errs.mono .of_store).bind (fun p => ?_))
  have hwrite : Errs Refusal (World.remove q : Eff EngineError (World B ρ) Bool) := (World.remove_errs q).mono .of_store
  exact errs_ite ((errs_throw (.inl rfl)).bind (fun _ => hwrite)) hwrite

theorem quiet_visibleFilter (p : CompiledPolicy) (graph : Option GraphName) :
    Quiet (visibleFilter p graph : Eff ViewError (World B ρ) (Option GraphFilter)) := by
  cases graph with
  | none => exact quiet_pure _
  | some g =>
    cases g with
    | defaultGraph => exact quiet_pure _
    | _ =>
      refine (quiet_reads _).bind (fun i => ?_)
      cases i with
      | none => exact quiet_pure _
      | some i =>
        refine quiet_ite ?_ (quiet_pure _)
        cases p.semantics with
        | filter => exact quiet_pure _
        | fail => exact quiet_throw _

/-- A view only reads. -/
theorem quiet_visibleQuads (graph : Option GraphName) : Quiet (visibleQuads graph : Eff ViewError (World B ρ) (List Quad)) := by
  refine (quiet_reads _).bind (fun p => (quiet_visibleFilter p graph).bind (fun filter => ?_))
  cases filter with
  | none => exact quiet_pure _
  | some filter =>
    refine (quiet_reads _).bind (fun rows => quiet_foldlM (fun out quad => ?_))
    cases p.decideQuad quad Modes.read with
    | allow => exact (World.quiet_decodeQuad quad).bind (fun _ => quiet_pure _)
    | filter => exact quiet_pure _
    | fail => exact quiet_throw _

end Engine

end Holos
