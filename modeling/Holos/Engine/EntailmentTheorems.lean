import Holos.Engine.EntailmentClosure
import Holos.Engine.Idle
import Holos.Store.MemoryBackend
import Mathlib.Data.Set.Card
/-!
# What a materialisation writes

The terms of what is entailed are terms of the store, and their subjects can be subjects; their
predicates are as good as the objects of `rdfs:subPropertyOf`. Nothing is written before the closure
is known, but then row by row, and a row that is refused leaves those before it where they are.
-/

namespace Holos

open Lib Lib.Eff Security Relation

/-! ## Ids that tell their kind -/

/-- Ids tell what can be a subject, the vocabulary has its own, and a write gives no ids. -/
structure Backend.Tagged (B : Backend) (Sim : B.State → Held → Prop) : Prop where
  canBeSubject : ∀ {s h t i}, Sim s h → h.ids t = some i → (i.canBeSubject = true ↔ ∃ n : NamedOrBlankNode, n.toTerm = t)
  vocab : ∀ {s h iri i}, Sim s h → Vocab.encodeIri iri = some i → h.ids (.namedNode iri) = some i
  dictionaryLen : ∀ {s op r s'}, B.write s op = (r, s') → B.dictionaryLen s' = B.dictionaryLen s

theorem MemoryStorage.tagged {X : Inline.Datatypes} (hX : X.Lawful) : (backend X).Tagged (Stands X) where
  canBeSubject := by
    intro m h t i hs hi
    rw [hs.ids] at hi
    unfold TermId.canBeSubject
    cases t with
    | namedNode n =>
      refine iff_of_true ?_ ⟨.namedNode n, rfl⟩
      rcases Dictionary.lookupNamedNode_cases hi with hv | ⟨htag, -⟩
      · rw [(Vocab.decodeIri_encodeIri hv).1]
      · rw [htag]
    | blankNode b =>
      refine iff_of_true ?_ ⟨.blankNode b, rfl⟩
      rw [(Dictionary.lookupBlankNode_cases hi).1]
    | literal l =>
      refine iff_of_false ?_ (fun ⟨n, hn⟩ => by cases n <;> cases hn)
      rcases Dictionary.lookup_literal_cases hi with hinline | ⟨htag, -⟩
      · have htag := (Inline.decode_encodeLiteral X hX hinline).1
        cases htag' : i.tag <;> rw [htag'] at htag <;> first | exact Bool.false_ne_true | cases htag
      · rw [htag]
        exact Bool.false_ne_true
    | triple s p o =>
      refine iff_of_false ?_ (fun ⟨n, hn⟩ => by cases n <;> cases hn)
      obtain ⟨_, _, _, _, _, _, htag, _⟩ := Dictionary.lookup_triple_cases hi
      rw [htag]
      exact Bool.false_ne_true
  vocab := by
    intro m h iri i hs hv
    rw [hs.ids]
    change Dictionary.lookupNamedNode _ iri = some i
    unfold Dictionary.lookupNamedNode
    rw [hv]
  dictionaryLen := by
    intro m op r m' hok
    cases hok
    exact congrArg Dictionary.len (write_dictionary m op)

/-! ## A policy that stays -/

theorem Security.Policy.compileWith_len {policy : Policy} {resolve : Resolve} {len : Nat} {principal : Principal} {p : CompiledPolicy}
    (h : policy.compileWith resolve len principal = .ok p) : p.compiledAtDictionaryLen = len := by
  unfold Policy.compileWith at h
  cases hrules : (policy.rules.filter (fun r => r.appliesTo.matches principal)).foldlM (addRule resolve) {} with
  | error e =>
    rw [hrules] at h
    cases h
  | ok b =>
    cases hlabels : policy.graphLabels.foldlM (addLabel resolve principal) ([], b.unresolved) with
    | error e =>
      rw [hrules] at h
      change (policy.graphLabels.foldlM (addLabel resolve principal) ([], b.unresolved) >>= _) = _ at h
      rw [hlabels] at h
      cases h
    | ok labels =>
      rw [hrules] at h
      change (policy.graphLabels.foldlM (addLabel resolve principal) ([], b.unresolved) >>= _) = _ at h
      rw [hlabels] at h
      cases h
      rfl

namespace World

variable {B : Backend} {ρ ε : Type} [OfStorage ε]

/-- A policy once asked for is the one given from then on, while no term is added. -/
theorem policy_again {w w₁ w₂ : World B ρ} {p : CompiledPolicy}
    (h : (policy : Eff ε (World B ρ) CompiledPolicy).exec w = some (.ok p, w₁)) (hsession : w₂.session = w₁.session)
    (hlen : B.dictionaryLen w₂.store = B.dictionaryLen w.store) :
    (policy : Eff ε (World B ρ) CompiledPolicy).exec w₂ = some (.ok p, w₂) := by
  have hfresh : w₁.session.compiled = p ∧ p.isStale (B.dictionaryLen w.store) = false := by
    unfold policy at h
    rw [exec_of] at h
    split_ifs at h with hstale
    · split at h
      · rename_i compiled hcompiled
        cases h
        refine ⟨rfl, ?_⟩
        unfold CompiledPolicy.isStale
        rw [Policy.compileWith_len hcompiled]
        simp
      · cases h
    · cases h
      exact ⟨rfl, Bool.eq_false_iff.2 hstale⟩
  unfold policy
  rw [exec_of, hsession, hfresh.1, hlen, hfresh.2, if_neg Bool.false_ne_true]

theorem policy_store {w w₁ : World B ρ} {r : Except ε CompiledPolicy}
    (h : (policy : Eff ε (World B ρ) CompiledPolicy).exec w = some (r, w₁)) : w₁.store = w.store ∧ w₁.extra = w.extra := by
  unfold policy at h
  rw [exec_of] at h
  split_ifs at h
  · split at h <;> cases h <;> exact ⟨rfl, rfl⟩
  · cases h
    exact ⟨rfl, rfl⟩

end World

namespace Engine.Entailment

/-! ## Terms -/

/-- Every term of the vocabulary is in the well-known table. -/
theorem Rdfs.new_iris {rdfs : Rdfs} (h : Rdfs.new = some rdfs) :
    ∀ i ∈ [rdfs.ty, rdfs.subClassOf, rdfs.subPropertyOf, rdfs.member, rdfs.containerMembershipProperty, rdfs.proposition],
      ∃ iri, Vocab.encodeIri iri = some i := by
  simp only [Rdfs.new, Option.bind_eq_bind, Option.bind_eq_some_iff, Option.pure_def, Option.some.injEq] at h
  obtain ⟨ty, hty, subClassOf, hsc, subPropertyOf, hsp, domain, -, range, -, member, hm, cmp, hcmp, reifies, -, proposition, hprop, rfl⟩ := h
  intro i hi
  simp only [List.mem_cons, List.not_mem_nil, or_false] at hi
  rcases hi with rfl | rfl | rfl | rfl | rfl | rfl
  exacts [⟨_, hty⟩, ⟨_, hsc⟩, ⟨_, hsp⟩, ⟨_, hm⟩, ⟨_, hcmp⟩, ⟨_, hprop⟩]

section
variable {rdfs : Rdfs} {R : Set Row} {M : Set TermId} {ids : Ids}

/-- A term that can be a subject, and an IRI. -/
def IsNode (ids : Ids) (i : TermId) : Prop := ∃ n : NamedOrBlankNode, ids n.toTerm = some i

def IsIri (ids : Ids) (i : TermId) : Prop := ∃ iri, ids (.namedNode iri) = some i

def IsTerm (ids : Ids) (i : TermId) : Prop := ∃ t, ids t = some i

theorem IsIri.isNode {i : TermId} (h : IsIri ids i) : IsNode ids i := by
  obtain ⟨iri, h⟩ := h
  exact ⟨.namedNode iri, h⟩

theorem IsNode.isTerm {i : TermId} (h : IsNode ids i) : IsTerm ids i := by
  obtain ⟨n, h⟩ := h
  exact ⟨n.toTerm, h⟩

/-- The terms of a statement: its subject can be one. -/
def HasTerms (ids : Ids) (r : Row) : Prop := IsNode ids r.1 ∧ IsTerm ids r.2.1 ∧ IsTerm ids r.2.2

theorem Above.terms {E : TermId → TermId → Prop} (hE : ∀ a b, E a b → IsNode ids a ∧ IsTerm ids b) {a b : TermId} (hab : Above E a b) :
    IsNode ids a ∧ IsTerm ids b := by
  obtain ⟨hne, hr⟩ := hab
  constructor
  · rcases hr.cases_head with rfl | ⟨c, hc, -⟩
    · exact absurd rfl hne
    · exact (hE a c hc).1
  · rcases hr.cases_tail with rfl | ⟨c, -, hc⟩
    · exact absurd rfl hne
    · exact (hE c b hc).2

theorem IsClass.isTerm {X : Set Row} (hX : ∀ r ∈ X, HasTerms ids r) {c : TermId}
    (hc : IsClass rdfs X c) : IsTerm ids c := by
  cases hc with
  | ofType hr => exact (hX _ hr).2.2
  | sub hr => exact (hX _ hr).1.isTerm
  | super hr => exact (hX _ hr).2.2
  | domain hr => exact (hX _ hr).2.2
  | range hr => exact (hX _ hr).2.2

theorem IsProperty.isTerm {X : Set Row} (hX : ∀ r ∈ X, HasTerms ids r) {p : TermId}
    (hp : IsProperty rdfs X p) : IsTerm ids p := by
  cases hp with
  | used hr => exact (hX _ hr).2.1
  | sub hr => exact (hX _ hr).1.isTerm
  | super hr => exact (hX _ hr).2.2
  | domain hr => exact (hX _ hr).1.isTerm
  | range hr => exact (hX _ hr).1.isTerm

/-- What a store has: statements of quads, container membership properties that are IRIs, and the
vocabulary. -/
structure Sourced (rdfs : Rdfs) (R : Set Row) (M : Set TermId) (ids : Ids) : Prop where
  statement : ∀ r ∈ R, IsNode ids r.1 ∧ IsIri ids r.2.1 ∧ IsTerm ids r.2.2
  membership : ∀ i ∈ M, IsIri ids i
  vocabulary : ∀ i ∈ [rdfs.ty, rdfs.subClassOf, rdfs.subPropertyOf, rdfs.member, rdfs.containerMembershipProperty, rdfs.proposition],
    IsIri ids i
  canBeSubject : ∀ i, IsTerm ids i → i.canBeSubject = true → IsNode ids i

namespace Sourced

variable (h : Sourced rdfs R M ids)
include h

theorem ty : IsIri ids rdfs.ty := h.vocabulary _ (by simp)

theorem subClassOf : IsIri ids rdfs.subClassOf := h.vocabulary _ (by simp)

theorem subPropertyOf : IsIri ids rdfs.subPropertyOf := h.vocabulary _ (by simp)

theorem subProperty {p q : TermId} (hpq : SubProperty rdfs R M p q) : IsNode ids p ∧ IsTerm ids q := by
  rcases hpq with hr | ⟨hp, rfl⟩
  · exact ⟨(h.statement _ hr).1, (h.statement _ hr).2.2⟩
  · exact ⟨(h.membership p hp).isNode, (h.vocabulary rdfs.member (by simp)).isNode.isTerm⟩

/-- Whatever is derived has terms, and its subject can be one. -/
theorem derived {r : Row} (hr : r ∈ Derived rdfs R M) : HasTerms ids r := by
  have hclass : ∀ a b, SubClass rdfs R a b → IsNode ids a ∧ IsTerm ids b := fun a b hab =>
    ⟨(h.statement _ hab).1, (h.statement _ hab).2.2⟩
  have hproperty : ∀ a b, SubProperty rdfs R M a b → IsNode ids a ∧ IsTerm ids b := fun a b => h.subProperty
  have hty := h.ty.isNode.isTerm
  obtain ⟨r₀, hg, hreach⟩ := hr
  induction hreach with
  | refl =>
    cases hg with
    | asserted hr => exact ⟨(h.statement _ hr).1, (h.statement _ hr).2.1.isNode.isTerm, (h.statement _ hr).2.2⟩
    | membership hi => exact ⟨(h.membership _ hi).isNode, hty, (h.vocabulary rdfs.containerMembershipProperty (by simp)).isNode.isTerm⟩
    | member hi => exact ⟨(h.membership _ hi).isNode, h.subPropertyOf.isNode.isTerm, (h.vocabulary rdfs.member (by simp)).isNode.isTerm⟩
    | superProperty hq => exact ⟨(hq.terms hproperty).1, h.subPropertyOf.isNode.isTerm, (hq.terms hproperty).2⟩
    | superClass hc => exact ⟨(hc.terms hclass).1, h.subClassOf.isNode.isTerm, (hc.terms hclass).2⟩
  | tail _ hf ih =>
    cases hf with
    | rdfs7 hq => exact ⟨ih.1, (hq.terms hproperty).2, ih.2.2⟩
    | rdfs2 hc => exact ⟨ih.1, hty, (h.statement _ hc).2.2⟩
    | rdfs3 ho hc =>
      refine ⟨h.canBeSubject _ ih.2.2 ho, hty, ?_⟩
      rcases hc with hr | ⟨-, rfl⟩
      · exact (h.statement _ hr).2.2
      · exact (h.vocabulary rdfs.proposition (by simp)).isNode.isTerm
    | rdfs9 hd => exact ⟨ih.1, hty, (hd.terms hclass).2⟩

theorem closure {r : Row} (hr : r ∈ Closure rdfs R M) : HasTerms ids r := by
  rcases hr with hr | ⟨c, hc, hnode, rfl⟩ | ⟨p, hp, hnode, rfl⟩
  · exact h.derived hr
  · have hc := h.canBeSubject c (hc.isTerm (fun _ => h.derived)) hnode
    exact ⟨hc, h.subClassOf.isNode.isTerm, hc.isTerm⟩
  · have hp := h.canBeSubject p (hp.isTerm (fun _ => h.derived)) hnode
    exact ⟨hp, h.subPropertyOf.isNode.isTerm, hp.isTerm⟩

end Sourced

/-- No property of a derived statement has a super-property that is no IRI. -/
def SuperIris (rdfs : Rdfs) (R : Set Row) (M : Set TermId) (ids : Ids) : Prop :=
  ∀ r ∈ Derived rdfs R M, ∀ q, Above (SubProperty rdfs R M) r.2.1 q → IsIri ids q

/-- Only rdfs7 puts a term where a predicate stands. -/
theorem SuperIris.predicate (hs : SuperIris rdfs R M ids) (h : Sourced rdfs R M ids) {r : Row} (hr : r ∈ Closure rdfs R M) :
    IsIri ids r.2.1 := by
  rcases hr with ⟨r₀, hg, hreach⟩ | ⟨c, -, -, rfl⟩ | ⟨p, -, -, rfl⟩
  · rcases hreach.cases_tail with rfl | ⟨r₁, hreach, hf⟩
    · cases hg with
      | asserted hr => exact (h.statement _ hr).2.1
      | membership => exact h.ty
      | member => exact h.subPropertyOf
      | superProperty => exact h.subPropertyOf
      | superClass => exact h.subClassOf
    · have hr₁ : r₁ ∈ Derived rdfs R M := ⟨r₀, hg, hreach⟩
      cases hf with
      | rdfs7 hq => exact hs _ hr₁ _ hq
      | rdfs2 => exact h.ty
      | rdfs3 => exact h.ty
      | rdfs9 => exact h.ty
  · exact h.subClassOf
  · exact h.subPropertyOf

end

/-! ## Reading -/

variable {B : Backend} {Sim : B.State → Held → Prop} {Open : B.State → Contents × Ids → Prop} {ρ : Type}
variable {w : World B ρ} {h : Held} {order : Order} {rdfs : Rdfs}

/-- The statements of a store, and the container membership properties in them. -/
def statements (h : Held) : Set Row := {r | ∃ e ∈ h.contents.quads, rowOf e = r}

def memberships (h : Held) : Set TermId :=
  {i | (∃ r ∈ statements h, i = r.1 ∨ i = r.2.1 ∨ i = r.2.2) ∧ ∃ iri, h.ids (.namedNode iri) = some i ∧ isContainerMembership iri = true}

/-- What has been examined has its axioms. -/
def Examined (rdfs : Rdfs) (ids : Ids) (done : List TermId) (st : List TermId × List Row) : Prop :=
  (∀ i, i ∈ st.1 ↔ i ∈ done) ∧
    IsAxioms rdfs {i | i ∈ done ∧ ∃ iri, ids (.namedNode iri) = some i ∧ isContainerMembership iri = true} st.2

theorem examine_reads (L : B.Lawful Sim Open) (hs : Sim w.store h) {done : List TermId} {st : List TermId × List Row} {i : TermId}
    (hst : Examined rdfs h.ids done st) (hi : IsTerm h.ids i) {Q : List TermId × List Row → World B ρ → Prop}
    {E : EngineError → World B ρ → Prop} (hE : ∀ e, E (.storage e) w) (hQ : ∀ st', Examined rdfs h.ids (done ++ [i]) st' → Q st' w) :
    wp (examine rdfs st i : Eff EngineError (World B ρ) (List TermId × List Row)) Q E w := by
  obtain ⟨t, ht⟩ := hi
  obtain ⟨hexamined, haxioms⟩ := hst
  have hmem : ∀ j, j ∈ i :: st.1 ↔ j ∈ done ++ [i] := by
    intro j
    rw [List.mem_cons, hexamined, List.mem_append, List.mem_singleton, or_comm]
  -- a term that is no container membership property adds nothing
  have hplain : (∀ iri, t = .namedNode iri → isContainerMembership iri = false) → Examined rdfs h.ids (done ++ [i]) (i :: st.1, st.2) := by
    intro hno
    refine ⟨hmem, fun r => (haxioms r).trans (exists_congr (fun j => and_congr_left (fun _ => ?_)))⟩
    simp only [Set.mem_ofPred_eq, List.mem_append, List.mem_singleton]
    refine and_congr_left (fun ⟨iri, hiri, hcontainer⟩ => ?_)
    refine ⟨.inl, fun hj => hj.elim id (fun heq => ?_)⟩
    subst heq
    rw [hno iri (Ids.term_inj ht hiri)] at hcontainer
    cases hcontainer
  unfold examine
  apply wp_ite
  · intro hold
    refine wp_pure (hQ st ⟨fun j => ?_, fun r => (haxioms r).trans (exists_congr (fun j => and_congr_left (fun _ => ?_)))⟩)
    · rw [hexamined, List.mem_append, List.mem_singleton]
      exact ⟨.inl, fun hj => hj.elim id (fun heq => heq ▸ (hexamined i).1 hold)⟩
    · simp only [Set.mem_ofPred_eq, List.mem_append, List.mem_singleton]
      refine and_congr_left (fun _ => ⟨.inl, fun hj => hj.elim id (fun heq => heq ▸ (hexamined i).1 hold)⟩)
  · intro _
    apply wp_bind
    refine World.decodeTerm_reads L hs (fun e => hE _) ht ?_
    cases t with
    | namedNode iri =>
      apply wp_ite
      · intro hcontainer
        refine wp_pure (hQ _ ⟨hmem, fun r => ?_⟩)
        rw [List.mem_append, haxioms]
        constructor
        · rintro (⟨j, ⟨hj, hiri⟩, hr⟩ | hr)
          · exact ⟨j, ⟨List.mem_append_left _ hj, hiri⟩, hr⟩
          · simp only [List.mem_cons, List.not_mem_nil, or_false] at hr
            exact ⟨i, ⟨by simp, iri, ht, hcontainer⟩, hr⟩
        · rintro ⟨j, ⟨hj, hiri⟩, hr⟩
          rcases List.mem_append.1 hj with hj | hj
          · exact .inl ⟨j, ⟨hj, hiri⟩, hr⟩
          · rw [List.mem_singleton.1 hj] at hr
            exact .inr (by simpa using hr)
      · intro hcontainer
        refine wp_pure (hQ _ (hplain (fun iri' heq => ?_)))
        cases heq
        exact Bool.eq_false_iff.2 hcontainer
    | blankNode b => exact wp_pure (hQ _ (hplain (fun iri heq => by cases heq)))
    | literal l => exact wp_pure (hQ _ (hplain (fun iri heq => by cases heq)))
    | triple s p o => exact wp_pure (hQ _ (hplain (fun iri heq => by cases heq)))

theorem containerAxioms_reads (L : B.Lawful Sim Open) (hs : Sim w.store h) {known : List Row} (hterms : ∀ r ∈ known, HasTerms h.ids r)
    {Q : List Row → World B ρ → Prop} {E : EngineError → World B ρ → Prop} (hE : ∀ e, E (.storage e) w)
    (hQ : ∀ axioms, IsAxioms rdfs {i | (∃ r ∈ known, i = r.1 ∨ i = r.2.1 ∨ i = r.2.2) ∧
      ∃ iri, h.ids (.namedNode iri) = some i ∧ isContainerMembership iri = true} axioms → Q axioms w) :
    wp (containerAxioms order rdfs known : Eff EngineError (World B ρ) (List Row)) Q E w := by
  have hterm : ∀ i, i ∈ (order.of known).flatMap (fun r => [r.1, r.2.1, r.2.2]) ↔ ∃ r ∈ known, i = r.1 ∨ i = r.2.1 ∨ i = r.2.2 := by
    intro i
    simp [List.mem_flatMap, order.mem]
  apply wp_bind
  refine (wp_foldlM (I := fun done st w' => w' = w ∧ Examined rdfs h.ids done st) ⟨rfl, fun i => by simp, fun r => by simp⟩ ?_).mono ?_
    (fun _ _ h => h)
  · rintro done i rest st w' hl ⟨rfl, hst⟩
    have hi : IsTerm h.ids i := by
      obtain ⟨r, hr, heq⟩ := (hterm i).1 (by rw [hl]; simp)
      obtain ⟨hsub, hpred, hobj⟩ := hterms r hr
      rcases heq with rfl | rfl | rfl
      exacts [hsub.isTerm, hpred, hobj]
    exact examine_reads L hs hst hi hE (fun st' hst' => ⟨rfl, hst'⟩)
  · rintro ⟨examined, axioms⟩ w' ⟨rfl, -, haxioms⟩
    refine wp_pure (hQ axioms ?_)
    simpa only [hterm] using haxioms

/-! ## Writing -/

/-- The policy the session has when asked now allows a row to be written. -/
def Permits (w : World B ρ) (graph : Option TermId) (r : Row) : Prop :=
  ∃ p w₁, (World.policy : Eff EngineError (World B ρ) CompiledPolicy).exec w = some (.ok p, w₁) ∧
    p.permitsQuad (Row.inGraph r graph) Modes.write = true

/-- A store that has the rows of `done` besides those of `h`. -/
structure Wrote (Sim : B.State → Held → Prop) (h : Held) (graph : Option TermId) (done : List Row) (w' : World B ρ) (h' : Held) : Prop where
  sim : Sim w'.store h'
  saved : h'.saved = none
  ids : h'.ids = h.ids
  quads : ∀ e, e ∈ h'.contents.quads ↔ e ∈ h.contents.quads ∨ ∃ r ∈ done, e = Row.inGraph r graph

/-- The policy has not changed since it was first asked for. -/
def Steady (w w' : World B ρ) : Prop :=
  B.dictionaryLen w'.store = B.dictionaryLen w.store ∧ (w' = w ∨ ∃ p w₁,
    (World.policy : Eff EngineError (World B ρ) CompiledPolicy).exec w = some (.ok p, w₁) ∧ w'.session = w₁.session)

section
variable {asserted : List Row} {graph : Option TermId}

/-- A row is written if the policy allows it, and is refused with the store as it was. -/
theorem writeRow_writes (L : B.Lawful Sim Open) (T : B.Tagged Sim) {done : List Row} {w₂ : World B ρ} {h₂ : Held} {r : Row} {added : Nat}
    (hwrote : Wrote Sim h graph done w₂ h₂) (hsteady : Steady w w₂) (hnode : r.1.canBeSubject = true) (hnew : r ∉ asserted)
    {Q : Nat → World B ρ → Prop} {E : EngineError → World B ρ → Prop}
    (hQ : ∀ a w₃ h₃, Permits w graph r → Wrote Sim h graph (done ++ [r]) w₃ h₃ → Steady w w₃ → Q a w₃)
    (hE : ∀ e w₃, ¬ Permits w graph r → Wrote Sim h graph done w₃ h₂ → E e w₃) :
    wp (writeRow asserted graph added r : Eff EngineError (World B ρ) Nat) Q E w₂ := by
  -- the policy asked for now is the one asked for first
  have hpolicy : (∃ p w₁ w₃, (World.policy : Eff EngineError (World B ρ) CompiledPolicy).exec w = some (.ok p, w₁) ∧
      (World.policy : Eff EngineError (World B ρ) CompiledPolicy).exec w₂ = some (.ok p, w₃) ∧ w₃.session = w₁.session) ∨
      ∃ e w₃, (World.policy : Eff EngineError (World B ρ) CompiledPolicy).exec w₂ = some (.error e, w₃) ∧ ¬ Permits w graph r := by
    rcases hsteady.2 with rfl | ⟨p, w₁, hp, hsession⟩
    · cases hp : (World.policy : Eff EngineError (World B ρ) CompiledPolicy).exec w₂ with
      | none =>
        unfold World.policy at hp
        rw [exec_of] at hp
        split_ifs at hp
        split at hp <;> cases hp
      | some out =>
        obtain ⟨res, w₁⟩ := out
        cases res with
        | ok p => exact .inl ⟨p, w₁, w₁, rfl, rfl, rfl⟩
        | error e =>
          refine .inr ⟨e, w₁, rfl, ?_⟩
          rintro ⟨p, w₃, hp', -⟩
          rw [hp] at hp'
          cases hp'
    · exact .inl ⟨p, w₁, w₂, hp, World.policy_again hp hsession hsteady.1, hsession⟩
  unfold writeRow
  rw [hnode]
  refine wp_ite (fun h => by cases h) (fun _ => wp_ite (fun h => absurd h hnew) (fun _ => ?_))
  apply wp_bind
  intro res w₃ hrun
  obtain ⟨hstore, -⟩ := World.policy_store hrun
  have hwrote₃ : Wrote Sim h graph done w₃ h₂ := ⟨hstore ▸ hwrote.sim, hwrote.saved, hwrote.ids, hwrote.quads⟩
  rcases hpolicy with ⟨p, w₁, w₃', hp, hp₂, hsession⟩ | ⟨e, w₃', hp₂, hno⟩
  · rw [hp₂] at hrun
    cases hrun
    dsimp only
    apply wp_ite
    · intro hdeny
      refine wp_bind (wp_throw (hE _ _ ?_ hwrote₃))
      rintro ⟨p', w', hp', hallow⟩
      rw [hp] at hp'
      cases hp'
      rw [hallow] at hdeny
      cases hdeny
    · intro hallow
      have hpermits : Permits w graph r := ⟨p, w₁, hp, by simpa using hallow⟩
      apply wp_bind
      refine World.write_idle L hwrote₃.sim hwrote₃.saved (fun s hres hs => ?_)
      have hlen : B.dictionaryLen s = B.dictionaryLen w.store := by
        rw [T.dictionaryLen hres, hstore, hsteady.1]
      have hdone : Wrote Sim h graph (done ++ [r]) { w₃ with store := s } (h₂.write (.insert (Row.inGraph r graph))) := by
        refine ⟨hs, hwrote.saved, hwrote.ids, fun e => ?_⟩
        change e ∈ Insert.insert (Row.inGraph r graph) h₂.contents.quads ↔ _
        rw [Finset.mem_insert, hwrote.quads, or_comm, or_assoc]
        simp only [List.mem_append, List.mem_singleton, or_and_right, exists_or, exists_eq_left]
      have hsteady' : Steady w { w₃ with store := s } := ⟨hlen, .inr ⟨p, w₁, hp, hsession⟩⟩
      apply wp_ite
      · exact fun _ => wp_pure (hQ _ _ _ hpermits hdone hsteady')
      · exact fun _ => wp_pure (hQ _ _ _ hpermits hdone hsteady')
  · rw [hp₂] at hrun
    cases hrun
    exact hE e _ hno hwrote₃

/-- The loop ends with every row written, or at the first that is refused. -/
theorem writes_writes (L : B.Lawful Sim Open) (T : B.Tagged Sim) (hs : Sim w.store h) (hsaved : h.saved = none) {fresh : List Row}
    (hnode : ∀ r ∈ fresh, r.1.canBeSubject = true) (hnew : ∀ r ∈ fresh, r ∉ asserted) :
    wp (fresh.foldlM (writeRow asserted graph) 0 : Eff EngineError (World B ρ) Nat)
      (fun _ w' => (∀ r ∈ fresh, Permits w graph r) ∧ ∃ h', Wrote Sim h graph fresh w' h')
      (fun _ w' => ∃ done r rest h', fresh = done ++ r :: rest ∧ (∀ r' ∈ done, Permits w graph r') ∧ ¬ Permits w graph r ∧
        Wrote Sim h graph done w' h') w := by
  refine (wp_foldlM (I := fun done _ w' => (∀ r ∈ done, Permits w graph r) ∧ Steady w w' ∧ ∃ h', Wrote Sim h graph done w' h')
    ⟨fun r hr => (by cases hr), ⟨rfl, .inl rfl⟩, h, hs, hsaved, rfl, fun e => by simp⟩ ?_).mono ?_ (fun _ _ h => h)
  · rintro done r rest added w₂ hl ⟨hallowed, hsteady, h₂, hwrote⟩
    have hr : r ∈ fresh := by
      rw [hl]
      simp
    refine writeRow_writes L T hwrote hsteady (hnode r hr) (hnew r hr) (fun a w₃ h₃ hp hwrote₃ hsteady₃ => ?_) (fun e w₃ hno hwrote₃ => ?_)
    · refine ⟨fun r' hr' => ?_, hsteady₃, h₃, hwrote₃⟩
      rcases List.mem_append.1 hr' with hr' | hr'
      · exact hallowed r' hr'
      · rw [List.mem_singleton.1 hr']
        exact hp
    · exact ⟨done, r, rest, h₂, hl, hallowed, hno, hwrote₃⟩
  · rintro _ w' ⟨hallowed, -, h', hwrote⟩
    exact ⟨hallowed, h', hwrote⟩

end

/-! ## The whole of it -/

/-- The statements of a store and the container membership properties in them are made of its terms. -/
theorem sourced (T : B.Tagged Sim) (hs : Sim w.store h) (hd : h.Decodes) :
    Sourced wellKnown (statements h) (memberships h) h.ids where
  statement := by
    rintro r ⟨e, he, rfl⟩
    obtain ⟨q, hq⟩ := hd e he
    obtain ⟨hsub, hpred, hobj, -⟩ := Ids.quad_eq_some.1 hq
    exact ⟨⟨_, hsub⟩, ⟨_, hpred⟩, _, hobj⟩
  membership := fun i ⟨_, iri, hiri, _⟩ => ⟨iri, hiri⟩
  vocabulary := fun i hi => (Rdfs.new_iris Rdfs.new_eq i hi).imp (fun iri hiri => T.vocab hs hiri)
  canBeSubject := by
    rintro i ⟨t, ht⟩ hnode
    obtain ⟨n, rfl⟩ := (T.canBeSubject hs ht).1 hnode
    exact ⟨n, ht⟩

/-- What is entailed and nowhere said. -/
def Unsaid (h : Held) : Set Row := Closure wellKnown (statements h) (memberships h) \ statements h

theorem tooMany_encard {asserted : List Row} {X R : Set Row} {budget : Nat} (hR : ∀ r, r ∈ asserted ↔ r ∈ R) (h : TooMany asserted X budget) :
    (budget : ℕ∞) < (X \ R).encard := by
  obtain ⟨l, hl, hlen, hmem⟩ := h
  have hsub : (l.toFinset : Set Row) ⊆ X \ R := by
    intro r hr
    obtain ⟨hno, hX⟩ := hmem r (List.mem_toFinset.1 hr)
    exact ⟨hX, fun hr => hno ((hR r).2 hr)⟩
  refine lt_of_lt_of_le ?_ (Set.encard_le_encard hsub)
  rw [Set.encard_coe_eq_coe_finsetCard, List.toFinset_card_of_nodup hl]
  exact_mod_cast hlen

/-- How a run ends: with everything unsaid written, or refused with some of it written and nothing
that the policy refuses. -/
theorem materialise_ends (L : B.Lawful Sim Open) (T : B.Tagged Sim) (hs : Sim w.store h) (hsaved : h.saved = none) (hd : h.Decodes)
    (graph : Option TermId) (budget : Nat) :
    wp (materialise order graph budget : Eff EngineError (World B ρ) Entailed)
      (fun _ w' => (Unsaid h).encard ≤ budget ∧ (∀ r ∈ Unsaid h, Permits w graph r) ∧
        ∃ fresh h', (∀ r, r ∈ fresh ↔ r ∈ Unsaid h) ∧ Wrote Sim h graph fresh w' h')
      (fun e w' => ∃ done h', Wrote Sim h graph done w' h' ∧ (∀ r ∈ done, r ∈ Unsaid h ∧ Permits w graph r) ∧
        ((done = [] ∧ ((∃ e', e = .storage e') ∨ (budget : ℕ∞) < (Unsaid h).encard)) ∨
          (Unsaid h).encard ≤ budget ∧ ∃ r ∈ Unsaid h, ¬ Permits w graph r)) w := by
  have hnothing : Wrote Sim h graph [] w h := ⟨hs, hsaved, rfl, fun e => by simp⟩
  have hsrc := sourced T hs hd
  unfold materialise
  rw [Rdfs.new_eq]
  apply wp_bind
  refine World.quadsForPattern_reads L hs (fun e => ⟨[], h, hnothing, fun r hr => (by cases hr), .inl ⟨rfl, .inl ⟨_, rfl⟩⟩⟩)
    (fun quads _ hquads => ?_)
  -- the statements, each once
  have hasserted : ∀ (quads : List EncodedQuad) (known : List Row), known.Nodup →
      (quads.foldl (fun known quad => known.insert (rowOf quad)) known).Nodup ∧
      ∀ r, r ∈ quads.foldl (fun known quad => known.insert (rowOf quad)) known ↔ r ∈ known ∨ ∃ e ∈ quads, rowOf e = r := by
    intro quads
    induction quads with
    | nil => exact fun known hn => ⟨hn, by simp⟩
    | cons quad quads ih =>
      intro known hn
      obtain ⟨hn', hmem⟩ := ih (known.insert (rowOf quad)) hn.insert
      refine ⟨hn', fun r => (hmem r).trans ?_⟩
      rw [List.mem_insert_iff]
      simp only [List.mem_cons, or_and_right, exists_or, exists_eq_left, eq_comm (a := r)]
      tauto
  obtain ⟨hnodup, hmem⟩ := hasserted quads [] .nil
  generalize quads.foldl (fun known quad => known.insert (rowOf quad)) [] = asserted at hnodup hmem
  have hR : ∀ r, r ∈ asserted ↔ r ∈ statements h := by
    intro r
    rw [hmem]
    simp [statements, hquads, Index.matchesTriple, Index.GraphFilter.admits]
  have hset : {r | r ∈ asserted} = statements h := Set.ext hR
  apply wp_bind
  refine containerAxioms_reads L hs (fun r hr => ?_)
    (fun e => ⟨[], h, hnothing, fun r hr => (by cases hr), .inl ⟨rfl, .inl ⟨e, rfl⟩⟩⟩) (fun axioms haxioms => ?_)
  · obtain ⟨hsub, hpred, hobj⟩ := hsrc.statement r ((hR r).1 hr)
    exact ⟨hsub, hpred.isNode.isTerm, hobj⟩
  simp only [hR] at haxioms
  have hclosure := @closure_spec order wellKnown (memberships h) asserted axioms budget (Rdfs.new_distinct Rdfs.new_eq) hnodup haxioms
  rw [hset] at hclosure
  rcases hclosure with ⟨fresh, rounds, heq, hfreshNodup, hlen, hfresh⟩ | ⟨message, heq, hmany⟩
  · rw [heq]
    have hunsaid : ∀ r, r ∈ fresh ↔ r ∈ Unsaid h := by
      intro r
      rw [hfresh, hR]
      rfl
    have hcard : (Unsaid h).encard ≤ budget := by
      have hcoe : Unsaid h = (fresh.toFinset : Set Row) := by
        ext r
        rw [← hunsaid, Finset.mem_coe, List.mem_toFinset]
      rw [hcoe, Set.encard_coe_eq_coe_finsetCard, List.toFinset_card_of_nodup hfreshNodup]
      exact_mod_cast hlen
    apply wp_bind
    refine (writes_writes L T hs hsaved (fun r hr => ?_) (fun r hr => ((hfresh r).1 hr).2)).mono ?_ ?_
    · obtain ⟨⟨n, hn⟩, -, -⟩ := hsrc.closure ((hfresh r).1 hr).1
      exact (T.canBeSubject hs hn).2 ⟨n, rfl⟩
    · rintro added w' ⟨hallowed, h', hwrote⟩
      exact wp_pure ⟨hcard, fun r hr => hallowed r ((hunsaid r).2 hr), fresh, h', hunsaid, hwrote⟩
    · rintro e w' ⟨done, r, rest, h', hl, hallowed, hno, hwrote⟩
      have hr : r ∈ fresh := by
        rw [hl]
        simp
      refine ⟨done, h', hwrote, fun r' hr' => ⟨(hunsaid r').1 ?_, hallowed r' hr'⟩, .inr ⟨hcard, r, (hunsaid r).1 hr, hno⟩⟩
      rw [hl]
      exact List.mem_append_left _ hr'
  · rw [heq]
    exact wp_throw ⟨[], h, hnothing, fun r hr => (by cases hr), .inl ⟨rfl, .inr (tooMany_encard hR hmany)⟩⟩

/-- The closure is over the budget, or the policy refuses all of it, or it refuses nothing and every
super-property is an IRI. -/
def Harmless (w : World B ρ) (h : Held) (graph : Option TermId) (budget : Nat) : Prop :=
  (budget : ℕ∞) < (Unsaid h).encard ∨ (∀ r ∈ Unsaid h, ¬ Permits w graph r) ∨
    ((∀ r ∈ Unsaid h, Permits w graph r) ∧ SuperIris wellKnown (statements h) (memberships h) h.ids)

/-- The policy does not tell one entailed quad from another. -/
def EvenHanded (w : World B ρ) (h : Held) (graph : Option TermId) : Prop :=
  (∀ r ∈ Unsaid h, Permits w graph r) ∨ ∀ r ∈ Unsaid h, ¬ Permits w graph r

section
variable {graph : Option TermId} {budget : Nat} {w' : World B ρ} {h' : Held} {done : List Row}

theorem Wrote.unchanged (hw : Wrote Sim h graph [] w' h') : h'.contents.quads = h.contents.quads := by
  ext e
  simp [hw.quads]

/-- What is written decodes if its predicates do. -/
theorem Wrote.decodes (hw : Wrote Sim h graph done w' h') (hd : h.Decodes) (hsrc : Sourced wellKnown (statements h) (memberships h) h.ids)
    (hgraph : ∃ name, h.ids.graph name = some graph) (hdone : ∀ r ∈ done, r ∈ Unsaid h ∧ IsIri h.ids r.2.1) : h'.Decodes := by
  intro e he
  rw [hw.ids]
  rcases (hw.quads e).1 he with hold | ⟨r, hr, rfl⟩
  · exact hd e hold
  · obtain ⟨hr, p, hp⟩ := hdone r hr
    obtain ⟨⟨s, hsub⟩, -, ⟨o, ho⟩⟩ := hsrc.closure hr.1
    obtain ⟨g, hg⟩ := hgraph
    exact ⟨⟨s, p, o, g⟩, Ids.quad_eq_some.2 ⟨hsub, hp, ho, hg⟩⟩

/-- A super-property that is no IRI has been written where a predicate stands. -/
theorem Wrote.superIris (hw : Wrote Sim h graph done w' h') (hsrc : Sourced wellKnown (statements h) (memberships h) h.ids)
    (hdone : ∀ r ∈ Unsaid h, r ∈ done) (hd : h'.Decodes) : SuperIris wellKnown (statements h) (memberships h) h.ids := by
  rintro ⟨s, p, o⟩ ⟨r₀, hg, hreach⟩ q hq
  have hr : (s, q, o) ∈ Closure wellKnown (statements h) (memberships h) := .inl ⟨r₀, hg, hreach.tail (.rdfs7 hq)⟩
  by_cases hsaid : (s, q, o) ∈ statements h
  · exact (hsrc.statement _ hsaid).2.1
  · obtain ⟨quad, hquad⟩ := hd _ ((hw.quads _).2 (.inr ⟨_, hdone _ ⟨hr, hsaid⟩, rfl⟩))
    rw [hw.ids] at hquad
    exact ⟨_, (Ids.quad_eq_some.1 hquad).2.1⟩

end

/-- A materialisation leaves only quads that decode, and leaves everything as it was when it is
refused, if it is harmless. It does so only then, where the policy does not tell one entailed quad
from another. -/
theorem materialise_keeps (L : B.Lawful Sim Open) (T : B.Tagged Sim) (hs : Sim w.store h) (hsaved : h.saved = none) (hd : h.Decodes)
    {graph : Option TermId} (hgraph : ∃ name, h.ids.graph name = some graph) {budget : Nat} {r : Except EngineError Entailed} {w' : World B ρ}
    (hrun : (materialise order graph budget).exec w = some (r, w')) :
    ∃ h', Sim w'.store h' ∧ h'.ids = h.ids ∧
      (Harmless w h graph budget → h'.Decodes ∧ ∀ e, r = .error e → h'.contents.quads = h.contents.quads) ∧
      (EvenHanded w h graph → (∀ e, r ≠ .error (.storage e)) →
        (h'.Decodes ∧ ∀ e, r = .error e → h'.contents.quads = h.contents.quads) → Harmless w h graph budget) := by
  have hsrc := sourced T hs hd
  have hends := @materialise_ends _ _ _ _ _ _ order L T hs hsaved hd graph budget
  cases r with
  | ok entailed =>
    obtain ⟨hcard, hallowed, fresh, h', hfresh, hwrote⟩ := hends.ok hrun
    refine ⟨h', hwrote.sim, hwrote.ids, fun hharmless => ⟨?_, fun e he => nomatch he⟩, fun _ _ hkept => ?_⟩
    · refine hwrote.decodes hd hsrc hgraph (fun row hrow => ?_)
      have hunsaid := (hfresh row).1 hrow
      refine ⟨hunsaid, ?_⟩
      rcases hharmless with hover | hnone | ⟨-, hiris⟩
      · exact absurd hcard (not_le.2 hover)
      · exact absurd (hallowed row hunsaid) (hnone row hunsaid)
      · exact hiris.predicate hsrc hunsaid.1
    · exact .inr (.inr ⟨hallowed, hwrote.superIris hsrc (fun row hrow => (hfresh row).2 hrow) hkept.1⟩)
  | error e =>
    obtain ⟨done, h', hwrote, hdone, hwhy⟩ := hends.error hrun
    refine ⟨h', hwrote.sim, hwrote.ids, fun hharmless => ?_, fun heven hstorage _ => ?_⟩
    · -- nothing was written
      have hempty : done = [] := by
        rcases hwhy with ⟨hempty, -⟩ | ⟨hcard, row, hrow, hno⟩
        · exact hempty
        · rcases hharmless with hover | hnone | ⟨hall, -⟩
          · exact absurd hcard (not_le.2 hover)
          · exact List.eq_nil_iff_forall_not_mem.2 (fun row hrow => hnone row (hdone row hrow).1 (hdone row hrow).2)
          · exact absurd (hall row hrow) hno
      subst hempty
      exact ⟨hwrote.decodes hd hsrc hgraph (fun row hrow => nomatch hrow), fun _ _ => hwrote.unchanged⟩
    · rcases hwhy with ⟨-, ⟨e', rfl⟩ | hover⟩ | ⟨-, row, hrow, hno⟩
      · exact absurd rfl (hstorage e')
      · exact .inl hover
      · exact heven.elim (fun hall => absurd (hall row hrow) hno) (fun hnone => .inr (.inl hnone))

namespace Runs

def asIs : Order := ⟨fun l => l, fun l => .refl l⟩

abbrev Memory := World (MemoryStorage.backend Dictionary.bare) Unit

def ex (name : String) : NamedNode := "http://example.org/" ++ name

def anyone : Session := ⟨.anonymous, .permitAll, { CompiledPolicy.permitAll with compiledAtDictionaryLen := 0 }⟩

/-- Anything but types may be written. -/
def untyped : Policy := { Policy.permitAll with rules := [⟨.deny, Modes.write, .predicate (Vocab.rdf "type"), .everyone⟩] }

def empty : Memory := ⟨.new, anyone, ()⟩

def saying (said : List Quad) : Eff EngineError Memory Unit := said.forM (fun q => do let _ ← World.insert q)

def readAll : Eff EngineError Memory (List Quad) := do (← World.quadsForPattern none none none .any).mapM World.decodeQuad

/-- What is read before a session's materialisation, what it returns, and what is read after it. -/
def outcome (policy : Policy) (said : List Quad) :
    Option (Except EngineError (List Quad) × Except EngineError Entailed × Except EngineError (List Quad)) := do
  let (_, w) ← (saying said).exec empty
  let (before, _) ← readAll.exec w
  let session ← (Session.open (fun n => .ok (w.store.lookup Dictionary.bare (.namedNode n))) w.store.dictionary.len .anonymous policy).toOption
  let (result, w') ← (materialise asIs none 100).exec { w with session }
  let (after, _) ← readAll.exec w'
  return (before, result, after)

def triple (s p : NamedNode) (o : Term) : Quad := ⟨.namedNode s, p, o, .defaultGraph⟩

def aPb : Quad := triple (ex "a") (ex "p") (.namedNode (ex "b"))

def underLiteral : List Quad := [triple (ex "p") (Vocab.rdfs "subPropertyOf") (.literal (.simple "lit")), aPb]

def underProperty : List Quad :=
  [triple (ex "p") (Vocab.rdfs "subPropertyOf") (.namedNode (ex "q")),
   triple (ex "p") (Vocab.rdfs "domain") (.namedNode (ex "c")), aPb]

end Runs

open Runs in
/-- A literal as a super-property is written where a predicate stands, and the store can no longer be
read. A type that is refused leaves the statement written before it. -/
theorem materialise_spoils :
    outcome Policy.permitAll underLiteral =
      some (.ok underLiteral, .ok ⟨3, 2⟩, .error (.storage (.corruption "quad predicate decoded to a non-IRI"))) ∧
    outcome untyped underProperty =
      some (.ok underProperty, .error .accessDenied, .ok (underProperty ++ [triple (ex "a") (ex "q") (.namedNode (ex "b"))])) := by
  unfold outcome materialise
  rw [Rdfs.new_eq]
  decide +kernel

section
open Runs

theorem Runs.anyone_permits {w : Memory} {h : Held} (hw : Idle (MemoryStorage.Stands Dictionary.bare) anyone () w h) (graph : Option TermId)
    (r : Row) : Permits w graph r := by
  refine ⟨anyone.compiled, w, ?_, ?_⟩
  · unfold World.policy
    rw [exec_of, hw.session]
    rfl
  · have hopen : anyone.compiled.Open :=
      Session.unrestricted_open (show Session.unrestricted (fun _ => .ok none) 0 = .ok anyone from rfl)
    unfold CompiledPolicy.permitsQuad
    rw [hopen.decideQuad]
    rfl

/-- A store of one statement has no super-properties. -/
theorem Runs.aPb_plain {w : Memory} {h : Held} (hw : Idle (MemoryStorage.Stands Dictionary.bare) anyone () w h) (hall : h.all = {aPb})
    (p q : TermId) : ¬ SubProperty wellKnown (statements h) (memberships h) p q := by
  have hrow : ∀ r ∈ statements h, h.ids (.namedNode (ex "a")) = some r.1 ∧ h.ids (.namedNode (ex "p")) = some r.2.1 ∧
      h.ids (.namedNode (ex "b")) = some r.2.2 := by
    rintro r ⟨e, he, rfl⟩
    obtain ⟨quad, hquad, hmem⟩ := Held.exists_quad hw.decodes he
    rw [hall] at hmem
    cases hmem
    obtain ⟨hsub, hpred, hobj, -⟩ := Ids.quad_eq_some.1 hquad
    exact ⟨hsub, hpred, hobj⟩
  have hvocab : h.ids (.namedNode (Vocab.rdfs "subPropertyOf")) = some wellKnown.subPropertyOf :=
    (MemoryStorage.tagged Dictionary.bare_lawful).vocab hw.sim (by decide +kernel)
  rintro (hr | ⟨⟨⟨r, hr, hplace⟩, iri, hiri, hcontainer⟩, -⟩)
  · have heq := Ids.term_inj (hrow _ hr).2.1 hvocab
    revert heq
    decide +kernel
  · obtain ⟨ha, hp, hb⟩ := hrow r hr
    rcases hplace with rfl | rfl | rfl
    · cases Ids.term_inj hiri ha
      revert hcontainer
      decide +kernel
    · cases Ids.term_inj hiri hp
      revert hcontainer
      decide +kernel
    · cases Ids.term_inj hiri hb
      revert hcontainer
      decide +kernel

/-- Over one statement, the one thing entailed is written and decodes. -/
theorem materialise_keeps_aPb : ∃ w w' h', (saying [aPb]).exec empty = some (.ok (), w) ∧
    (materialise asIs none 100).exec w = some (.ok ⟨1, 1⟩, w') ∧ MemoryStorage.Stands Dictionary.bare w'.store h' ∧ h'.Decodes := by
  have hrun : ((saying [aPb]).exec empty).bind (fun out => ((materialise asIs none 100).exec out.2).map (fun out' => (out.1, out'.1))) =
      some (.ok (), .ok ⟨1, 1⟩) := by
    unfold materialise
    rw [Rdfs.new_eq]
    decide +kernel
  obtain ⟨⟨r, w⟩, hsaid, hrun⟩ := Option.bind_eq_some_iff.1 hrun
  obtain ⟨⟨r', w'⟩, hrun, heq⟩ := Option.map_eq_some_iff.1 hrun
  cases heq
  have L := MemoryStorage.lawful Dictionary.bare_lawful
  have hempty : Idle (MemoryStorage.Stands Dictionary.bare) anyone () empty
      ⟨.empty, MemoryStorage.idsOf Dictionary.bare_lawful Dictionary.new_valid, none⟩ :=
    ⟨MemoryStorage.new_stands Dictionary.bare_lawful, rfl, fun e he => absurd he (Finset.notMem_empty e), rfl, rfl⟩
  have hsays : wp (saying [aPb]) (fun _ w => ∃ h, Idle (MemoryStorage.Stands Dictionary.bare) anyone () w h ∧ h.all = {aPb})
      (fun _ _ => True) empty := by
    refine wp_bind (wp_bind (World.insert_rests L hempty (.inl rfl) (fun b w h hw hall _ => wp_pure (wp_pure ⟨h, hw, ?_⟩))))
    have hnone : (⟨.empty, MemoryStorage.idsOf Dictionary.bare_lawful Dictionary.new_valid, none⟩ : Held).all = ∅ :=
      Set.eq_empty_of_forall_notMem (fun q ⟨e, _, he⟩ => Finset.notMem_empty e he)
    rw [hall, hnone, insert_empty_eq]
  obtain ⟨h, hw, hall⟩ := hsays.ok hsaid
  have hplain := aPb_plain hw hall
  obtain ⟨h', hs', -, hkept, -⟩ := materialise_keeps L (MemoryStorage.tagged Dictionary.bare_lawful) hw.sim hw.saved hw.decodes
    ⟨.defaultGraph, rfl⟩ hrun
  refine ⟨w, w', h', hsaid, hrun, hs', (hkept (.inr (.inr ⟨fun r _ => anyone_permits hw none r, ?_⟩))).1⟩
  rintro r - q ⟨hne, hreach⟩
  rcases hreach.cases_tail with rfl | ⟨p, -, hp⟩
  · exact absurd rfl hne
  · exact absurd hp (hplain p q)

end

end Engine.Entailment

end Holos
