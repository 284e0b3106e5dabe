import Holos.Engine.SessionPolicy
import Mathlib.Logic.Relation
/-!
# Runs of a store and a session

`Current` is what the session promises its callers in a state: the policy it returns, compiled
again or not, decides every stored quad as one compiled there and then. `Fits` is why it does so:
the store is later than the one the policy was compiled against, and once nothing was unresolved no
IRI of the policy has been given another id.
-/

namespace Holos

open Lib Security

namespace World

/-! ## Calls -/

/-- What is done to the store, and asked of the session, between one look at the data and the next. -/
inductive Call where
  | opens (principal : Principal) (policy : Policy)
  | encode (t : Term)
  | write (op : Index.Op)
  | begin
  | commit (lands : Bool)
  | rollback
  | policy

variable {B : Backend}

/-- An IRI's id as the store resolves it. -/
def resolve (w : World B Unit) : Resolve := fun n => B.lookup w.store (.namedNode n)

def next {α : Type} (m : Eff StorageError (World B Unit) α) (w : World B Unit) : Option (World B Unit) := (m.exec w).map (·.2)

/-- The world after a call, whatever it answered. `none` is a panic. -/
def step (w : World B Unit) : Call → Option (World B Unit)
  | .opens principal policy =>
    match Session.open w.resolve (B.dictionaryLen w.store) principal policy with
    | .ok session => some { w with session }
    | .error _ => some w
  | .encode t => next (encodeTerm t) w
  | .write op => next (write op) w
  | .begin => next begin w
  | .commit lands => next (commit lands) w
  | .rollback => next rollback w
  | .policy => next policy w

/-- A quad is written by ids the dictionary has: its predicate is an IRI's, and so is its graph, or
a blank node's. -/
def Known (w : World B Unit) : Call → Prop
  | .write (.insert e) =>
    (∃ n, B.lookup w.store (.namedNode n) = .ok (some e.predicate)) ∧
      ∀ g, e.graphName = some g → (∃ n, B.lookup w.store (.namedNode n) = .ok (some g)) ∨ g.tag = .blankNode
  | _ => True

/-- No IRI is interned that the policy names, that was resolved when it was compiled with nothing
left unresolved, and that the store has no id for any more. -/
def Careful (w : World B Unit) : Call → Prop
  | .encode t => w.session.compiled.unresolved = [] → ∀ n ∈ w.session.policy.iris w.session.principal,
      B.lookup w.store (.namedNode n) = .ok none → n ∉ t.nodes
  | _ => True

/-- Calls one after another, each of them allowed where it is made. -/
def Runs (P : World B Unit → Call → Prop) : World B Unit → World B Unit → Prop :=
  Relation.ReflTransGen (fun w w' => ∃ c, P w c ∧ w.step c = some w')

/-- A session opened on a store. -/
def Opened (s : B.State) (w : World B Unit) : Prop :=
  w.store = s ∧ Session.open w.resolve (B.dictionaryLen w.store) w.session.principal w.session.policy = .ok w.session

/-- The policy the session returns decides every stored quad as one compiled now. -/
def Current (w : World B Unit) : Prop :=
  ∃ cp w' fresh, (policy : Eff StorageError (World B Unit) CompiledPolicy).exec w = some (.ok cp, w') ∧
    w.session.policy.compileWith w.resolve (B.dictionaryLen w.store) w.session.principal = .ok fresh ∧
    ∀ e, B.containsEncoded w.store e = .ok true → ∀ mode, cp.decideQuad e mode = fresh.decideQuad e mode

/-! ## What a call does -/

/-- A call did one thing to the store, or compiled the session's policy, or nothing. -/
inductive Took (w : World B Unit) : Call → World B Unit → Prop
  | nothing {c : Call} : Took w c w
  | compiled {c : Call} {session : Session}
      (h : Session.open w.resolve (B.dictionaryLen w.store) session.principal session.policy = .ok session) :
      Took w c { w with session }
  | encode {t : Term} {r : Except StorageError TermId} {s : B.State} (h : B.encode w.store t = some (r, s)) :
      Took w (.encode t) { w with store := s }
  | write {op : Index.Op} {r : Except StorageError Bool} {s : B.State} (h : B.write w.store op = (r, s)) :
      Took w (.write op) { w with store := s }
  | begin {s : B.State} (h : B.begin w.store = .ok s) : Took w .begin { w with store := s }
  | commit {lands : Bool} {r : Except StorageError Unit} {s : B.State} (h : B.commit lands w.store = (r, s)) :
      Took w (.commit lands) { w with store := s }
  | rollback : Took w .rollback { w with store := B.rollback w.store }

theorem open_eq {resolve : Resolve} {len : Nat} {principal : Principal} {policy : Policy} {session : Session}
    (h : Session.open resolve len principal policy = .ok session) :
    ∃ compiled, policy.compileWith resolve len principal = .ok compiled ∧ session = ⟨principal, policy, compiled⟩ := by
  unfold Session.open at h
  cases hc : policy.compileWith resolve len principal with
  | error err =>
    rw [hc] at h
    cases h
  | ok compiled =>
    rw [hc] at h
    cases h
    exact ⟨compiled, rfl, rfl⟩

theorem step_took {w w' : World B Unit} {c : Call} (h : w.step c = some w') : w.Took c w' := by
  cases c with
  | opens principal policy =>
    simp only [step] at h
    split at h
    · rename_i session hopen
      cases h
      obtain ⟨compiled, -, rfl⟩ := open_eq hopen
      exact .compiled hopen
    · cases h
      exact .nothing
  | encode t =>
    obtain ⟨x, hx, rfl⟩ := Option.map_eq_some_iff.1 h
    obtain ⟨⟨r, s⟩, he, rfl⟩ := Option.map_eq_some_iff.1 hx
    exact .encode he
  | write op =>
    cases h
    exact .write rfl
  | begin =>
    cases hb : B.begin w.store with
    | ok s =>
      simp only [step, next, begin, Eff.exec_of, hb, Option.map_some, Option.some.injEq] at h
      subst h
      exact .begin hb
    | error err =>
      simp only [step, next, begin, Eff.exec_of, hb, Option.map_some, Option.some.injEq] at h
      subst h
      exact .nothing
  | commit lands =>
    cases h
    exact .commit rfl
  | rollback =>
    cases h
    exact .rollback
  | policy =>
    simp only [step, next, policy, Eff.exec_of] at h
    split_ifs at h with hstale
    · cases hc : w.session.policy.compileWith w.resolve (B.dictionaryLen w.store) w.session.principal with
      | ok compiled =>
        have hc' := hc
        unfold resolve at hc'
        rw [hc'] at h
        cases h
        refine .compiled ?_
        unfold Session.open
        rw [hc]
        rfl
      | error err =>
        unfold resolve at hc
        rw [hc] at h
        cases h
        exact .nothing
    · cases h
      exact .nothing

/-! ## The invariant -/

/-- The compiled policy of a session against the store as it is now. -/
def Fits (Inv : B.State → Prop) (look : B.State → Look) (session : Session) (s : B.State) : Prop :=
  ∃ s₀, Inv s₀ ∧ B.Later look s₀ s ∧
    session.policy.compileWith (resolving (look s₀)) (B.dictionaryLen s₀) session.principal = .ok session.compiled ∧
    (session.compiled.unresolved = [] → ∀ n ∈ session.policy.iris session.principal, ∀ i, look s n = some i → look s₀ n = some i)

/-- With nothing unresolved, every IRI of the policy has an id. -/
def Resolved (look : B.State → Look) (session : Session) (s : B.State) : Prop :=
  session.compiled.unresolved = [] → ∀ n ∈ session.policy.iris session.principal, look s n ≠ none

section
variable {Inv : B.State → Prop} {look : B.State → Look} {session : Session} {s s' : B.State} {w w' : World B Unit} {c : Call}

/-- A step keeps the fit if it gives none of the policy's IRIs an id. -/
theorem Fits.later (h : Fits Inv look session s) (hlater : B.Later look s s')
    (hnames : session.compiled.unresolved = [] → ∀ n ∈ session.policy.iris session.principal, ∀ i,
      look s' n = some i → look s n = some i) : Fits Inv look session s' := by
  obtain ⟨s₀, h₀, hl, hc, hn⟩ := h
  exact ⟨s₀, h₀, hl.trans hlater, hc, fun hu n hmem i hi => hn hu n hmem i (hnames hu n hmem i hi)⟩

theorem Resolved.grow (h : Resolved look session s) (hgrow : ∀ n i, look s n = some i → look s' n = some i) :
    Resolved look session s' := by
  intro hu n hn hnone
  obtain ⟨i, hi⟩ := Option.ne_none_iff_exists'.1 (h hu n hn)
  rw [hgrow n i hi] at hnone
  cases hnone

variable (hN : B.Naming Inv look)
include hN

theorem resolve_eq (hs : Inv w.store) : w.resolve = resolving (look w.store) := by
  funext n
  exact hN.lookup hs

/-- A policy compiled on the store there is fits, and what it resolved has an id. -/
theorem compiled_fits (hs : Inv w.store)
    (h : Session.open w.resolve (B.dictionaryLen w.store) session.principal session.policy = .ok session) :
    Fits Inv look session w.store ∧ Resolved look session w.store := by
  rw [resolve_eq hN hs] at h
  obtain ⟨compiled, hc, hsession⟩ := open_eq h
  have hcompiled : compiled = session.compiled := by rw [hsession]
  rw [hcompiled] at hc
  exact ⟨⟨w.store, hs, .refl w.store, hc, fun _ _ _ _ hi => hi⟩, fun hu => resolved_of_unresolved hc hu⟩

/-- The policy of a session that fits is current. -/
theorem Fits.current (hs : Inv w.store) (h : Fits Inv look w.session w.store) : w.Current := by
  obtain ⟨fresh, hfresh, -⟩ := compileWith_slots (look w.store) w.session.policy w.session.principal (B.dictionaryLen w.store)
  have hcompile : w.session.policy.compileWith w.resolve (B.dictionaryLen w.store) w.session.principal = .ok fresh := by
    rw [resolve_eq hN hs]
    exact hfresh
  by_cases hstale : w.session.compiled.isStale (B.dictionaryLen w.store) = true
  · refine ⟨fresh, { w with session := { w.session with compiled := fresh } }, fresh, ?_, hcompile, fun _ _ _ => rfl⟩
    unfold resolve at hcompile
    simp only [policy, Eff.exec_of, hstale, if_true, hcompile]
  · refine ⟨w.session.compiled, w, fresh, by simp [policy, hstale], hcompile, fun e he mode => ?_⟩
    obtain ⟨s₀, h₀, hlater, hc, hnames⟩ := h
    -- whether or not something was unresolved, no IRI of the policy has an id it did not have
    have hback : ∀ n ∈ w.session.policy.iris w.session.principal, ∀ i, look w.store n = some i → look s₀ n = some i := by
      intro n hn i hi
      by_cases hu : w.session.compiled.unresolved = []
      · exact hnames hu n hn i hi
      · have hlen : B.dictionaryLen w.store = B.dictionaryLen s₀ := by
          simp only [CompiledPolicy.isStale, Bool.and_eq_true, Bool.not_eq_true', List.isEmpty_eq_false_iff, decide_eq_true_eq,
            not_and, not_not] at hstale
          exact (hstale hu).trans (compileWith_len hc)
        exact hN.same_len hs hlater hlen hi
    obtain ⟨b, hb, hlive⟩ := hN.contains (e := e) hs
    rw [he] at hb
    cases hb
    have hlive := hlive rfl
    refine decideQuad_alike (fun n hn i hi => ⟨fun h => ?_, hback n hn i⟩) hc hfresh mode
    -- an id the policy was compiled with stands in a stored quad, so it is some IRI's still
    have hsome : ∃ m, look w.store m = some i := by
      rcases hi with rfl | hg
      · exact hlive.predicate
      · exact (hlive.graph i hg).resolve_right (hN.tag h₀ h)
    obtain ⟨m, hm⟩ := hsome
    rw [hN.keeps h₀ hlater h hm]
    exact hm

/-! ## Steps -/

theorem Known.live (hs : Inv w.store) {op : Index.Op} (h : w.Known (.write op)) (e : EncodedQuad) (he : op = .insert e) :
    Live (look w.store) e := by
  subst he
  obtain ⟨⟨n, hn⟩, hgraph⟩ := h
  rw [hN.lookup hs] at hn
  refine ⟨⟨n, Except.ok.inj hn⟩, fun g hg => (hgraph g hg).imp_left ?_⟩
  rintro ⟨m, hm⟩
  rw [hN.lookup hs] at hm
  exact ⟨m, Except.ok.inj hm⟩

/-- The session's policy still fits after a call, if interning gave none of its IRIs an id that
they had lost. -/
theorem step_fits (hs : Inv w.store) (hf : Fits Inv look w.session w.store) (hknown : w.Known c)
    (hnew : ∀ t, c = .encode t → w.session.compiled.unresolved = [] →
      ∀ n ∈ w.session.policy.iris w.session.principal, look w.store n = none → look w'.store n = none)
    (h : w.Took c w') : Inv w'.store ∧ Fits Inv look w'.session w'.store := by
  cases h with
  | nothing => exact ⟨hs, hf⟩
  | compiled h => exact ⟨hs, (compiled_fits hN hs h).1⟩
  | @encode t r s h =>
    obtain ⟨hs', hlater, hgrow⟩ := hN.encode hs h
    refine ⟨hs', hf.later hlater (fun hu n hn i hi => ?_)⟩
    cases hl : look w.store n with
    | none =>
      have hnone : look s n = none := hnew t rfl hu n hn hl
      rw [hnone] at hi
      cases hi
    | some j =>
      rw [hgrow n j hl] at hi
      exact hi
  | write h =>
    obtain ⟨hs', hlater, heq⟩ := hN.write hs (hknown.live hN hs) h
    exact ⟨hs', hf.later hlater (fun _ n _ i hi => by rw [← heq]; exact hi)⟩
  | begin h =>
    obtain ⟨hs', hlater, heq⟩ := hN.begin hs h
    exact ⟨hs', hf.later hlater (fun _ n _ i hi => by rw [← heq]; exact hi)⟩
  | commit h =>
    obtain ⟨hs', hlater, hless⟩ := hN.commit hs h
    exact ⟨hs', hf.later hlater (fun _ n _ i hi => hless n i hi)⟩
  | rollback =>
    obtain ⟨hs', hlater, hless⟩ := hN.rollback hs
    exact ⟨hs', hf.later hlater (fun _ n _ i hi => hless n i hi)⟩

/-- Where no IRI loses its id, those of the policy keep theirs. -/
theorem step_resolved (hR : B.Remembers Inv look) (hs : Inv w.store) (hr : Resolved look w.session w.store) (hknown : w.Known c)
    (h : w.Took c w') : Resolved look w'.session w'.store := by
  cases h with
  | nothing => exact hr
  | compiled h => exact (compiled_fits hN hs h).2
  | encode h => exact hr.grow (hN.encode hs h).2.2
  | write h => exact hr.grow (fun n i hi => by rw [(hN.write hs (hknown.live hN hs) h).2.2]; exact hi)
  | begin h => exact hr.grow (fun n i hi => by rw [(hN.begin hs h).2.2]; exact hi)
  | commit h => exact hr.grow (fun n i hi => by rw [hR.commit hs h]; exact hi)
  | rollback => exact hr.grow (fun n i hi => by rw [hR.rollback hs]; exact hi)

/-! ## Runs -/

/-- Where interning gives ids to the IRIs of its term alone, a run of careful calls keeps the
session's policy current. -/
theorem current_of_careful (hI : B.Introduces Inv look) (hs : Inv s) (ho : Opened s w)
    (hrun : Runs (fun w c => w.Known c ∧ w.Careful c) w w') : w'.Current := by
  obtain ⟨rfl, ho⟩ := ho
  suffices h : Inv w'.store ∧ Fits Inv look w'.session w'.store from h.2.current hN h.1
  induction hrun with
  | refl => exact ⟨hs, (compiled_fits hN hs ho).1⟩
  | @tail w₁ w₂ _ hstep ih =>
    obtain ⟨hs₁, hf₁⟩ := ih
    obtain ⟨c, ⟨hknown, hcareful⟩, hstep⟩ := hstep
    have htook := step_took hstep
    refine step_fits hN hs₁ hf₁ hknown (fun t hc hu n hn hl => ?_) htook
    subst hc
    have hnot : n ∉ t.nodes := hcareful hu n hn (by rw [hN.lookup hs₁, hl])
    cases htook with
    | nothing => exact hl
    | compiled h => exact hl
    | @encode t r s h =>
      by_contra hne
      exact hnot (hI hs₁ h n (fun heq => hne (heq.trans hl)))

/-- Where no IRI loses its id, every run keeps the session's policy current. -/
theorem current_of_remembers (hR : B.Remembers Inv look) (hs : Inv s) (ho : Opened s w) (hrun : Runs Known w w') :
    w'.Current := by
  obtain ⟨rfl, ho⟩ := ho
  suffices h : Inv w'.store ∧ Fits Inv look w'.session w'.store ∧ Resolved look w'.session w'.store from h.2.1.current hN h.1
  induction hrun with
  | refl => exact ⟨hs, compiled_fits hN hs ho⟩
  | @tail w₁ w₂ _ hstep ih =>
    obtain ⟨hs₁, hf₁, hr₁⟩ := ih
    obtain ⟨c, hknown, hstep⟩ := hstep
    have htook := step_took hstep
    obtain ⟨hs₂, hf₂⟩ := step_fits hN hs₁ hf₁ hknown (fun t _ hu n hn hl => absurd hl (hr₁ hu n hn)) htook
    exact ⟨hs₂, hf₂, step_resolved hN hR hs₁ hr₁ hknown htook⟩

end

end World

end Holos
