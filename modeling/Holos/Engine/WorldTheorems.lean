import Holos.Engine.World
/-!
# What the programs over a store do

With a scope open over `c`: what the store stands for where a program returns, and where it
fails, that the scope is still open over `c`. A caller's own state is untouched by all of them.
-/

namespace Holos

open Lib Lib.Eff Security

/-! ## Ids of quads -/

namespace Ids

variable {ids ids' : Ids}

theorem graph_mono (h : ids ≤ ids') {g : GraphName} {i : Option TermId} (hg : ids.graph g = some i) : ids'.graph g = some i := by
  cases g with
  | defaultGraph => exact hg
  | namedNode n =>
    obtain ⟨i', hi, rfl⟩ := Option.map_eq_some_iff.1 hg
    exact Option.map_eq_some_iff.2 ⟨i', h _ _ hi, rfl⟩
  | blankNode b =>
    obtain ⟨i', hi, rfl⟩ := Option.map_eq_some_iff.1 hg
    exact Option.map_eq_some_iff.2 ⟨i', h _ _ hi, rfl⟩

theorem quad_eq_some {q : Quad} {e : EncodedQuad} : ids.quad q = some e ↔
    ids q.subject.toTerm = some e.subject ∧ ids (.namedNode q.predicate) = some e.predicate ∧
      ids q.object = some e.object ∧ ids.graph q.graphName = some e.graphName := by
  obtain ⟨s, p, o, g⟩ := e
  simp only [quad, Option.bind_eq_bind, Option.bind_eq_some_iff, pure, Option.some.injEq, EncodedQuad.mk.injEq]
  constructor
  · rintro ⟨s', hs, p', hp, o', ho, g', hg, rfl, rfl, rfl, rfl⟩
    exact ⟨hs, hp, ho, hg⟩
  · rintro ⟨hs, hp, ho, hg⟩
    exact ⟨s, hs, p, hp, o, ho, g, hg, rfl, rfl, rfl, rfl⟩

theorem quad_mono (h : ids ≤ ids') {q : Quad} {e : EncodedQuad} (hq : ids.quad q = some e) : ids'.quad q = some e := by
  obtain ⟨hs, hp, ho, hg⟩ := quad_eq_some.1 hq
  exact quad_eq_some.2 ⟨h _ _ hs, h _ _ hp, h _ _ ho, graph_mono h hg⟩

theorem term_inj {t t' : Term} {i : TermId} (h : ids t = some i) (h' : ids t' = some i) : t = t' := ids.inj h h'

theorem subject_inj {s s' : NamedOrBlankNode} (h : s.toTerm = s'.toTerm) : s = s' := by
  cases s <;> cases s' <;> simp_all [NamedOrBlankNode.toTerm]

theorem graph_inj {g g' : GraphName} {i : Option TermId} (h : ids.graph g = some i) (h' : ids.graph g' = some i) : g = g' := by
  cases g with
  | defaultGraph =>
    cases h
    cases g' with
    | defaultGraph => rfl
    | namedNode n => simp [graph] at h'
    | blankNode b => simp [graph] at h'
  | namedNode n =>
    obtain ⟨j, hj, rfl⟩ := Option.map_eq_some_iff.1 h
    cases g' with
    | defaultGraph => cases h'
    | namedNode n' =>
      obtain ⟨j', hj', he⟩ := Option.map_eq_some_iff.1 h'
      cases he
      exact congrArg GraphName.namedNode (Term.namedNode.inj (term_inj hj hj'))
    | blankNode b =>
      obtain ⟨j', hj', he⟩ := Option.map_eq_some_iff.1 h'
      cases he
      cases term_inj hj hj'
  | blankNode b =>
    obtain ⟨j, hj, rfl⟩ := Option.map_eq_some_iff.1 h
    cases g' with
    | defaultGraph => cases h'
    | namedNode n =>
      obtain ⟨j', hj', he⟩ := Option.map_eq_some_iff.1 h'
      cases he
      cases term_inj hj hj'
    | blankNode b' =>
      obtain ⟨j', hj', he⟩ := Option.map_eq_some_iff.1 h'
      cases he
      exact congrArg GraphName.blankNode (Term.blankNode.inj (term_inj hj hj'))

/-- No two quads are one row. -/
theorem quad_inj {q q' : Quad} {e : EncodedQuad} (h : ids.quad q = some e) (h' : ids.quad q' = some e) : q = q' := by
  obtain ⟨hs, hp, ho, hg⟩ := quad_eq_some.1 h
  obtain ⟨hs', hp', ho', hg'⟩ := quad_eq_some.1 h'
  obtain ⟨s, p, o, g⟩ := q
  obtain ⟨s', p', o', g'⟩ := q'
  cases subject_inj (term_inj hs hs')
  cases term_inj hp hp'
  cases term_inj ho ho'
  cases graph_inj hg hg'
  rfl

end Ids

/-! ## What a store has -/

namespace Held

variable {h : Held} {ids : Ids} {q q' : Quad} {e : EncodedQuad}

theorem Has.of_mem (hq : h.ids.quad q = some e) : h.Has q ↔ e ∈ h.contents.quads := by
  constructor
  · rintro ⟨e', he', hmem⟩
    rw [hq] at he'
    cases he'
    exact hmem
  · exact fun hmem => ⟨e, hq, hmem⟩

theorem has_insert (hq : h.ids.quad q = some e) : (h.write (.insert e)).Has q' ↔ q' = q ∨ h.Has q' := by
  constructor
  · rintro ⟨e', he', hmem⟩
    rcases Finset.mem_insert.1 hmem with rfl | hmem
    · exact .inl (Ids.quad_inj he' hq)
    · exact .inr ⟨e', he', hmem⟩
  · rintro (rfl | ⟨e', he', hmem⟩)
    · exact ⟨e, hq, Finset.mem_insert_self _ _⟩
    · exact ⟨e', he', Finset.mem_insert_of_mem hmem⟩

theorem has_remove (hq : h.ids.quad q = some e) : (h.write (.remove e)).Has q' ↔ q' ≠ q ∧ h.Has q' := by
  constructor
  · rintro ⟨e', he', hmem⟩
    obtain ⟨hne, hmem⟩ := Finset.mem_erase.1 hmem
    exact ⟨fun heq => hne (Option.some.inj (he'.symm.trans (heq ▸ hq))), e', he', hmem⟩
  · rintro ⟨hne, e', he', hmem⟩
    exact ⟨e', he', Finset.mem_erase.2 ⟨fun heq => hne (Ids.quad_inj he' (heq ▸ hq)), hmem⟩⟩

/-- New ids give what is stored no new quads. -/
theorem has_grow (hle : h.ids ≤ ids) (hd : h.Decodes) : ({ h with ids } : Held).Has q ↔ h.Has q := by
  constructor
  · rintro ⟨e, he, hmem⟩
    obtain ⟨q', hq'⟩ := hd e hmem
    cases Ids.quad_inj he (Ids.quad_mono hle hq')
    exact ⟨e, hq', hmem⟩
  · exact fun ⟨e, he, hmem⟩ => ⟨e, Ids.quad_mono hle he, hmem⟩

theorem Decodes.grow (hd : h.Decodes) (hle : h.ids ≤ ids) : ({ h with ids } : Held).Decodes := by
  intro e he
  obtain ⟨q, hq⟩ := hd e he
  exact ⟨q, Ids.quad_mono hle hq⟩

theorem Decodes.insert (hd : h.Decodes) (hq : h.ids.quad q = some e) : (h.write (.insert e)).Decodes := by
  intro e' he'
  rcases Finset.mem_insert.1 he' with rfl | he'
  · exact ⟨q, hq⟩
  · exact hd e' he'

theorem Decodes.remove (hd : h.Decodes) : (h.write (.remove e)).Decodes := fun e' he' => hd e' (Finset.mem_of_mem_erase he')

theorem Decodes.insertNamedGraph (hd : h.Decodes) {g : TermId} : (h.write (.insertNamedGraph g)).Decodes := hd

theorem Decodes.removeNamedGraph (hd : h.Decodes) {g : TermId} : (h.write (.removeNamedGraph g)).Decodes :=
  fun e' he' => hd e' (Finset.mem_filter.1 he').1

end Held

/-! ## The programs -/

namespace World

variable {B : Backend} {Sim : B.State → Held → Prop} {Open : B.State → Contents × Ids → Prop} {ρ ε : Type} [OfStorage ε]

/-- A failure with the scope still open over `c`. -/
def Stuck (Open : B.State → Contents × Ids → Prop) (c : Contents × Ids) (R : ρ → Prop) (_ : ε) (w : World B ρ) : Prop :=
  Open w.store c ∧ R w.extra

variable {w : World B ρ} {h : Held} {c : Contents × Ids} {R : ρ → Prop}

/-! ### Reads, in a scope or out of one -/

theorem failed_error {α : Type} {r : Except StorageError α} {e : ε} (h : failed r = .error e) : ∃ e', e = OfStorage.ofStorage e' := by
  cases r with
  | ok a => cases h
  | error e' =>
    cases h
    exact ⟨e', rfl⟩

section
variable (L : B.Lawful Sim Open) (hw : Sim w.store h) {E : ε → World B ρ → Prop} (hE : ∀ e : StorageError, E (OfStorage.ofStorage e) w)
include hE

/-- A read of the store fails as the store does. -/
theorem store_reads {α : Type} {f : B.State → Except StorageError α} {Q : α → World B ρ → Prop} (hQ : ∀ a, f w.store = .ok a → Q a w) :
    wp (.reads (fun w => failed (f w.store)) : Eff ε (World B ρ) α) Q E w := by
  refine wp_reads (fun a ha => ?_) (fun e he => ?_)
  · cases hres : f w.store with
    | error e =>
      rw [hres] at ha
      cases ha
    | ok a' =>
      rw [hres] at ha
      cases ha
      exact hQ a hres
  · obtain ⟨e', rfl⟩ := failed_error he
    exact hE e'

include L hw

theorem lookupTerm_reads {t : Term} {Q : Option TermId → World B ρ → Prop} (hQ : Q (h.ids t) w) :
    wp (lookupTerm t : Eff ε (World B ρ) (Option TermId)) Q E w := by
  refine store_reads (f := fun s => B.lookup s t) hE (fun r hr => ?_)
  rw [L.lookup hw hr]
  exact hQ

theorem decodeTerm_reads {t : Term} {i : TermId} (hi : h.ids t = some i) {Q : Option Term → World B ρ → Prop} (hQ : Q (some t) w) :
    wp (decodeTerm i : Eff ε (World B ρ) (Option Term)) Q E w := by
  refine store_reads (f := fun s => B.decode s i) hE (fun r hr => ?_)
  rw [L.decode hw hi] at hr
  cases hr
  exact hQ

theorem quadsForPattern_reads {s p o : Option TermId} {g : GraphFilter} {Q : List EncodedQuad → World B ρ → Prop}
    (hQ : ∀ qs : List EncodedQuad, qs.Nodup → (∀ e, e ∈ qs ↔ e ∈ h.contents.quads ∧ Index.matchesTriple s p o e = true ∧
      Index.GraphFilter.admits g e = true) → Q qs w) :
    wp (quadsForPattern s p o g : Eff ε (World B ρ) (List EncodedQuad)) Q E w :=
  store_reads (f := fun t => B.scan t s p o g) hE (fun qs hqs => hQ qs (L.scan_nodup hw hqs) (fun _ => L.mem_scan hw hqs))

theorem lookupGraphName_reads {g : GraphName} {Q : Option (Option TermId) → World B ρ → Prop} (hQ : Q (h.ids.graph g) w) :
    wp (lookupGraphName g : Eff ε (World B ρ) (Option (Option TermId))) Q E w := by
  cases g with
  | defaultGraph => exact wp_pure hQ
  | namedNode n => exact wp_bind (lookupTerm_reads L hw hE (wp_pure hQ))
  | blankNode b => exact wp_bind (lookupTerm_reads L hw hE (wp_pure hQ))

theorem containsNamedGraph_reads {n : NamedNode} {Q : Bool → World B ρ → Prop}
    (hQ : Q (decide (∃ g ∈ h.contents.graphs, h.ids (.namedNode n) = some g)) w) :
    wp (containsNamedGraph (.namedNode n) : Eff ε (World B ρ) Bool) Q E w := by
  unfold containsNamedGraph
  apply wp_bind
  apply lookupGraphName_reads L hw hE
  cases hg : h.ids (.namedNode n) with
  | none =>
    have hno : ¬ ∃ g ∈ h.contents.graphs, h.ids (.namedNode n) = some g := by simp [hg]
    rw [decide_eq_false hno] at hQ
    simp only [Ids.graph, hg, Option.map_none]
    exact wp_pure hQ
  | some g =>
    simp only [Ids.graph, hg, Option.map_some]
    refine store_reads (f := fun s => B.containsNamedGraph s g) hE (fun b hb => ?_)
    rw [L.containsNamedGraph hw hb]
    simpa [hg] using hQ

theorem requireTerm_reads {t : Term} {i : TermId} (hi : h.ids t = some i) {Q : Term → World B ρ → Prop} (hQ : Q t w) :
    wp (requireTerm i : Eff ε (World B ρ) Term) Q E w := by
  unfold requireTerm
  apply wp_bind
  exact decodeTerm_reads L hw hE hi (wp_pure hQ)

theorem decodeGraph_reads {g : GraphName} {i : Option TermId} (hi : h.ids.graph g = some i) {Q : GraphName → World B ρ → Prop}
    (hQ : Q g w) : wp (decodeGraph i : Eff ε (World B ρ) GraphName) Q E w := by
  cases g with
  | defaultGraph =>
    cases hi
    exact wp_pure hQ
  | namedNode n =>
    obtain ⟨i', hi', rfl⟩ := Option.map_eq_some_iff.1 hi
    exact wp_bind (requireTerm_reads L hw hE hi' (wp_pure hQ))
  | blankNode b =>
    obtain ⟨i', hi', rfl⟩ := Option.map_eq_some_iff.1 hi
    exact wp_bind (requireTerm_reads L hw hE hi' (wp_pure hQ))

/-- A row decodes to the quad it is the row of. -/
theorem decodeQuad_reads {q : Quad} {e : EncodedQuad} (hq : h.ids.quad q = some e) {Q : Quad → World B ρ → Prop} (hQ : Q q w) :
    wp (decodeQuad e : Eff ε (World B ρ) Quad) Q E w := by
  obtain ⟨hs, hp, ho, hg⟩ := Ids.quad_eq_some.1 hq
  unfold decodeQuad
  apply wp_bind
  apply requireTerm_reads L hw hE hs
  rw [Dictionary.asSubject_toTerm]
  apply wp_bind
  apply requireTerm_reads L hw hE hp
  apply wp_bind
  apply requireTerm_reads L hw hE ho
  apply wp_bind
  exact decodeGraph_reads L hw hE hg (wp_pure hQ)

end

/-! ### In a scope -/

section
variable (L : B.Lawful Sim Open) (hw : Sim w.store h) (hc : h.saved = some c) (hR : R w.extra)
include L hw hc hR

theorem encodeTerm_wp {t : Term} {Q : TermId → World B ρ → Prop}
    (hQ : ∀ s ids i, h.ids ≤ ids → ids t = some i → Sim s { h with ids } → Q i { w with store := s }) :
    wp (encodeTerm t : Eff ε (World B ρ) TermId) Q (Stuck Open c R) w := by
  refine wp_of (fun i w' hrun => ?_) (fun e w' hrun => ?_)
  · obtain ⟨⟨r, s⟩, henc, heq⟩ := Option.map_eq_some_iff.1 hrun
    cases r with
    | error e => cases heq
    | ok i' =>
      cases heq
      obtain ⟨ids, hle, hi, hs⟩ := L.encode hw (.inl (by rw [hc]; rfl)) henc
      exact hQ s ids i hle hi hs
  · obtain ⟨⟨r, s⟩, henc, heq⟩ := Option.map_eq_some_iff.1 hrun
    obtain ⟨-, rfl⟩ := Prod.mk.inj heq
    exact ⟨L.open_encode (L.opened hw hc) henc, hR⟩

theorem write_wp {op : Index.Op} {Q : Bool → World B ρ → Prop}
    (hQ : ∀ s, Sim s (h.write op) → Q (h.contents.changes op) { w with store := s }) :
    wp (write op : Eff ε (World B ρ) Bool) Q (Stuck Open c R) w := by
  refine wp_of (fun b w' hrun => ?_) (fun e w' hrun => ?_)
  · obtain ⟨hr, rfl⟩ := Prod.mk.inj (Option.some.inj hrun)
    cases hres : B.write w.store op with
    | mk r s =>
      rw [hres] at hr
      cases r with
      | error e => cases hr
      | ok b' =>
        cases hr
        obtain ⟨rfl, hs⟩ := L.write hw hres
        exact hQ s hs
  · obtain ⟨-, rfl⟩ := Prod.mk.inj (Option.some.inj hrun)
    exact ⟨L.open_write (L.opened hw hc) rfl, hR⟩

/-- A read that failed has changed nothing. -/
theorem reads_wp {α : Type} {f : World B ρ → Except ε α} {Q : α → World B ρ → Prop} (hQ : ∀ a, f w = .ok a → Q a w) :
    wp (Eff.reads f) Q (Stuck Open c R) w :=
  wp_reads hQ (fun _ _ => ⟨L.opened hw hc, hR⟩)

theorem throw_wp {α : Type} {e : ε} {Q : α → World B ρ → Prop} : wp (throw e : Eff ε (World B ρ) α) Q (Stuck Open c R) w :=
  wp_throw ⟨L.opened hw hc, hR⟩

theorem lookupTerm_wp {t : Term} {Q : Option TermId → World B ρ → Prop} (hQ : Q (h.ids t) w) :
    wp (lookupTerm t : Eff ε (World B ρ) (Option TermId)) Q (Stuck Open c R) w :=
  lookupTerm_reads L hw (fun _ => ⟨L.opened hw hc, hR⟩) hQ

theorem decodeTerm_wp {t : Term} {i : TermId} (hi : h.ids t = some i) {Q : Option Term → World B ρ → Prop} (hQ : Q (some t) w) :
    wp (decodeTerm i : Eff ε (World B ρ) (Option Term)) Q (Stuck Open c R) w :=
  decodeTerm_reads L hw (fun _ => ⟨L.opened hw hc, hR⟩) hi hQ

theorem quadsForPattern_wp {s p o : Option TermId} {g : GraphFilter} {Q : List EncodedQuad → World B ρ → Prop}
    (hQ : ∀ qs : List EncodedQuad, qs.Nodup → (∀ e, e ∈ qs ↔ e ∈ h.contents.quads ∧ Index.matchesTriple s p o e = true ∧
      Index.GraphFilter.admits g e = true) → Q qs w) :
    wp (quadsForPattern s p o g : Eff ε (World B ρ) (List EncodedQuad)) Q (Stuck Open c R) w :=
  quadsForPattern_reads L hw (fun _ => ⟨L.opened hw hc, hR⟩) hQ

theorem encodeGraph_wp {g : GraphName} {Q : Option TermId → World B ρ → Prop}
    (hQ : ∀ s ids i, h.ids ≤ ids → ids.graph g = some i → Sim s { h with ids } → Q i { w with store := s }) :
    wp (encodeGraph g : Eff ε (World B ρ) (Option TermId)) Q (Stuck Open c R) w := by
  cases g with
  | defaultGraph => exact wp_pure (hQ w.store h.ids none le_rfl rfl hw)
  | namedNode n =>
    apply wp_bind
    refine encodeTerm_wp L hw hc hR (fun s ids i hle hi hs => wp_pure (hQ s ids (some i) hle ?_ hs))
    exact Option.map_eq_some_iff.2 ⟨i, hi, rfl⟩
  | blankNode b =>
    apply wp_bind
    refine encodeTerm_wp L hw hc hR (fun s ids i hle hi hs => wp_pure (hQ s ids (some i) hle ?_ hs))
    exact Option.map_eq_some_iff.2 ⟨i, hi, rfl⟩

theorem encodeQuad_wp {q : Quad} {Q : EncodedQuad → World B ρ → Prop}
    (hQ : ∀ s ids e, h.ids ≤ ids → ids.quad q = some e → Sim s { h with ids } → Q e { w with store := s }) :
    wp (encodeQuad q : Eff ε (World B ρ) EncodedQuad) Q (Stuck Open c R) w := by
  unfold encodeQuad
  apply wp_bind
  refine encodeTerm_wp L hw hc hR (fun s₁ ids₁ i₁ h₁ hi₁ hs₁ => ?_)
  apply wp_bind
  refine encodeTerm_wp L (w := { w with store := s₁ }) hs₁ hc hR (fun s₂ ids₂ i₂ h₂ hi₂ hs₂ => ?_)
  apply wp_bind
  refine encodeTerm_wp L (w := { w with store := s₂ }) hs₂ hc hR (fun s₃ ids₃ i₃ h₃ hi₃ hs₃ => ?_)
  apply wp_bind
  refine encodeGraph_wp L (w := { w with store := s₃ }) hs₃ hc hR (fun s₄ ids₄ i₄ h₄ hi₄ hs₄ => ?_)
  refine wp_pure (hQ s₄ ids₄ _ (h₁.trans (h₂.trans (h₃.trans h₄))) ?_ hs₄)
  exact Ids.quad_eq_some.2 ⟨h₄ _ _ (h₃ _ _ (h₂ _ _ hi₁)), h₄ _ _ (h₃ _ _ hi₂), h₄ _ _ hi₃, hi₄⟩

theorem lookupGraphName_wp {g : GraphName} {Q : Option (Option TermId) → World B ρ → Prop} (hQ : Q (h.ids.graph g) w) :
    wp (lookupGraphName g : Eff ε (World B ρ) (Option (Option TermId))) Q (Stuck Open c R) w :=
  lookupGraphName_reads L hw (fun _ => ⟨L.opened hw hc, hR⟩) hQ

theorem lookupQuad_wp {q : Quad} {Q : Option EncodedQuad → World B ρ → Prop} (hQ : Q (h.ids.quad q) w) :
    wp (lookupQuad q : Eff ε (World B ρ) (Option EncodedQuad)) Q (Stuck Open c R) w := by
  unfold lookupQuad
  apply wp_bind
  apply lookupTerm_wp L hw hc hR
  apply wp_bind
  apply lookupTerm_wp L hw hc hR
  apply wp_bind
  apply lookupTerm_wp L hw hc hR
  apply wp_bind
  apply lookupGraphName_wp L hw hc hR
  exact wp_pure hQ

theorem insertEncoded_wp {e : EncodedQuad} {Q : Bool → World B ρ → Prop}
    (hQ : ∀ s, Sim s (h.write (.insert e)) → Q (decide (e ∉ h.contents.quads)) { w with store := s }) :
    wp (insertEncoded e : Eff ε (World B ρ) Bool) Q (Stuck Open c R) w :=
  write_wp L hw hc hR hQ

theorem removeEncodedQuad_wp {e : EncodedQuad} {Q : Bool → World B ρ → Prop}
    (hQ : ∀ s, Sim s (h.write (.remove e)) → Q (decide (e ∈ h.contents.quads)) { w with store := s }) :
    wp (removeEncodedQuad e : Eff ε (World B ρ) Bool) Q (Stuck Open c R) w :=
  write_wp L hw hc hR hQ

theorem insert_wp {q : Quad} {Q : Bool → World B ρ → Prop}
    (hQ : ∀ s ids e, h.ids ≤ ids → ids.quad q = some e → Sim s (({ h with ids } : Held).write (.insert e)) →
      Q (decide (e ∉ h.contents.quads)) { w with store := s }) :
    wp (insert q : Eff ε (World B ρ) Bool) Q (Stuck Open c R) w := by
  unfold insert
  apply wp_bind
  refine encodeQuad_wp L hw hc hR (fun s ids e hle he hs => ?_)
  exact insertEncoded_wp L (w := { w with store := s }) hs hc hR (fun s' hs' => hQ s' ids e hle he hs')

/-- A quad with a term that has no id is not there to remove. -/
theorem remove_wp {q : Quad} {Q : Bool → World B ρ → Prop} (hnone : h.ids.quad q = none → Q false w)
    (hsome : ∀ s e, h.ids.quad q = some e → Sim s (h.write (.remove e)) → Q (decide (e ∈ h.contents.quads)) { w with store := s }) :
    wp (remove q : Eff ε (World B ρ) Bool) Q (Stuck Open c R) w := by
  unfold remove
  apply wp_bind
  apply lookupQuad_wp L hw hc hR
  cases hq : h.ids.quad q with
  | none => exact wp_pure (hnone hq)
  | some e => exact removeEncodedQuad_wp L hw hc hR (fun s hs => hsome s e hq hs)

theorem policy_wp {Q : CompiledPolicy → World B ρ → Prop}
    (hQ : ∀ p, (p = w.session.compiled ∨ w.session.policy.compileWith (fun n => B.lookup w.store (.namedNode n))
      (B.dictionaryLen w.store) w.session.principal = .ok p) →
      Q p { w with session := { w.session with compiled := p } }) :
    wp (policy : Eff ε (World B ρ) CompiledPolicy) Q (Stuck Open c R) w := by
  refine wp_of (fun p w' hrun => ?_) (fun e w' hrun => ?_)
  · split at hrun
    · split at hrun
      · rename_i compiled hcomp
        cases hrun
        exact hQ p (.inr hcomp)
      · cases hrun
    · cases hrun
      exact hQ _ (.inl rfl)
  · split at hrun
    · split at hrun
      · cases hrun
      · cases hrun
        exact ⟨L.opened hw hc, hR⟩
    · cases hrun

end

/-! ### Outside a scope -/

section
variable (L : B.Lawful Sim Open) (hw : Sim w.store h) (hsaved : h.saved = none) {E : ε → World B ρ → Prop}
include L hw hsaved

theorem encodeTerm_idle {t : Term} (ht : t.isTriple = false ∨ B.EncodesTriples Sim) {Q : TermId → World B ρ → Prop}
    (hQ : ∀ s ids i, h.ids ≤ ids → ids t = some i → Sim s { h with ids } → Q i { w with store := s }) :
    wp (encodeTerm t : Eff ε (World B ρ) TermId) Q E w := by
  refine wp_of (fun i w' hrun => ?_) (fun e w' hrun => ?_)
  · obtain ⟨⟨r, s⟩, henc, heq⟩ := Option.map_eq_some_iff.1 hrun
    obtain ⟨hr, rfl⟩ := Prod.mk.inj heq
    cases r with
    | error e => cases hr
    | ok i' =>
      cases hr
      obtain ⟨ids, hle, hi, hs⟩ : ∃ ids, h.ids ≤ ids ∧ ids t = some i ∧ Sim s { h with ids } :=
        ht.elim (fun ht => L.encode hw (.inr ht) henc) (fun hall => hall hw henc)
      exact hQ s ids i hle hi hs
  · obtain ⟨⟨r, s⟩, henc, heq⟩ := Option.map_eq_some_iff.1 hrun
    obtain ⟨i, rfl⟩ := L.encode_ok hw hsaved henc
    obtain ⟨hr, -⟩ := Prod.mk.inj heq
    cases hr

theorem encodeGraph_idle {g : GraphName} {Q : Option TermId → World B ρ → Prop}
    (hQ : ∀ s ids i, h.ids ≤ ids → ids.graph g = some i → Sim s { h with ids } → Q i { w with store := s }) :
    wp (encodeGraph g : Eff ε (World B ρ) (Option TermId)) Q E w := by
  cases g with
  | defaultGraph => exact wp_pure (hQ w.store h.ids none le_rfl rfl hw)
  | namedNode n =>
    apply wp_bind
    refine encodeTerm_idle L hw hsaved (.inl rfl) (fun s ids i hle hi hs => wp_pure (hQ s ids (some i) hle ?_ hs))
    exact Option.map_eq_some_iff.2 ⟨i, hi, rfl⟩
  | blankNode b =>
    apply wp_bind
    refine encodeTerm_idle L hw hsaved (.inl rfl) (fun s ids i hle hi hs => wp_pure (hQ s ids (some i) hle ?_ hs))
    exact Option.map_eq_some_iff.2 ⟨i, hi, rfl⟩

theorem encodeQuad_idle {q : Quad} (hq : q.object.isTriple = false ∨ B.EncodesTriples Sim) {Q : EncodedQuad → World B ρ → Prop}
    (hQ : ∀ s ids e, h.ids ≤ ids → ids.quad q = some e → Sim s { h with ids } → Q e { w with store := s }) :
    wp (encodeQuad q : Eff ε (World B ρ) EncodedQuad) Q E w := by
  have hsubject : q.subject.toTerm.isTriple = false := by cases q.subject <;> rfl
  unfold encodeQuad
  apply wp_bind
  refine encodeTerm_idle L hw hsaved (.inl hsubject) (fun s₁ ids₁ i₁ h₁ hi₁ hs₁ => ?_)
  apply wp_bind
  refine encodeTerm_idle L (w := { w with store := s₁ }) hs₁ hsaved (.inl rfl) (fun s₂ ids₂ i₂ h₂ hi₂ hs₂ => ?_)
  apply wp_bind
  refine encodeTerm_idle L (w := { w with store := s₂ }) hs₂ hsaved hq (fun s₃ ids₃ i₃ h₃ hi₃ hs₃ => ?_)
  apply wp_bind
  refine encodeGraph_idle L (w := { w with store := s₃ }) hs₃ hsaved (fun s₄ ids₄ i₄ h₄ hi₄ hs₄ => ?_)
  refine wp_pure (hQ s₄ ids₄ _ (h₁.trans (h₂.trans (h₃.trans h₄))) ?_ hs₄)
  exact Ids.quad_eq_some.2 ⟨h₄ _ _ (h₃ _ _ (h₂ _ _ hi₁)), h₄ _ _ (h₃ _ _ hi₂), h₄ _ _ hi₃, hi₄⟩

/-- Outside a scope a write does not fail. -/
theorem write_idle {op : Index.Op} {Q : Bool → World B ρ → Prop}
    (hQ : ∀ s, B.write w.store op = (.ok (h.contents.changes op), s) → Sim s (h.write op) →
      Q (h.contents.changes op) { w with store := s }) :
    wp (write op : Eff ε (World B ρ) Bool) Q E w := by
  cases hres : B.write w.store op with
  | mk r s =>
    obtain ⟨b, rfl⟩ := L.write_ok hw hsaved hres
    obtain ⟨rfl, hs⟩ := L.write hw hres
    intro r' w' hrun
    change some (failed (B.write w.store op).1, { w with store := (B.write w.store op).2 }) = _ at hrun
    rw [hres] at hrun
    cases hrun
    exact hQ s hres hs

theorem insert_idle {q : Quad} (hq : q.object.isTriple = false ∨ B.EncodesTriples Sim) {Q : Bool → World B ρ → Prop}
    (hQ : ∀ b s ids e, h.ids ≤ ids → ids.quad q = some e → Sim s (({ h with ids } : Held).write (.insert e)) → Q b { w with store := s }) :
    wp (insert q : Eff ε (World B ρ) Bool) Q E w := by
  unfold insert
  apply wp_bind
  refine encodeQuad_idle L hw hsaved hq (fun s ids e hle he hs => ?_)
  exact write_idle L (w := { w with store := s }) hs hsaved (fun s' _ hs' => hQ _ s' ids e hle he hs')

end

/-! ### Scopes -/

section
variable (L : B.Lawful Sim Open)
include L

theorem inScope_reads (hw : Sim w.store h) {Q : Bool → World B ρ → Prop} {E : ε → World B ρ → Prop} (hQ : Q h.saved.isSome w) :
    wp (inScope : Eff ε (World B ρ) Bool) Q E w := by
  refine wp_reads (fun b hb => ?_) (fun e he => by cases he)
  cases hb
  rw [L.inScope hw]
  exact hQ

theorem begin_wp (hw : Sim w.store h) {Q : Unit → World B ρ → Prop} {E : ε → World B ρ → Prop}
    (hQ : ∀ s, h.saved = none → Sim s { h with saved := some (h.contents, h.ids) } → Q () { w with store := s })
    (hE : ∀ e : StorageError, E (OfStorage.ofStorage e) w) : wp (begin : Eff ε (World B ρ) Unit) Q E w := by
  refine wp_of (fun u w' hrun => ?_) (fun e w' hrun => ?_)
  · split at hrun
    · rename_i s hbegin
      cases hrun
      exact hQ s (L.begin hw hbegin).1 (L.begin hw hbegin).2
    · cases hrun
  · split at hrun
    · cases hrun
    · cases hrun
      exact hE _

/-- A commit that fails goes back to what the scope was opened on. -/
theorem commit_wp (hw : Sim w.store h) (hc : h.saved = some c) {lands : Bool} {Q : Unit → World B ρ → Prop} {E : ε → World B ρ → Prop}
    (hQ : ∀ s, Sim s { h with saved := none } → Q () { w with store := s })
    (hE : ∀ (e : StorageError) s ids, c.2 ≤ ids → Sim s ⟨c.1, ids, none⟩ → E (OfStorage.ofStorage e) { w with store := s }) :
    wp (commit lands : Eff ε (World B ρ) Unit) Q E w := by
  have hsome : h.saved.isSome = true := by rw [hc, Option.isSome_some]
  refine wp_of (fun u w' hrun => ?_) (fun e w' hrun => ?_)
  · obtain ⟨hr, rfl⟩ := Prod.mk.inj (Option.some.inj hrun)
    cases hres : B.commit lands w.store with
    | mk r s =>
      rw [hres] at hr
      cases r with
      | error e => cases hr
      | ok u => exact hQ s (L.commit hw hsome hres)
  · obtain ⟨hr, rfl⟩ := Prod.mk.inj (Option.some.inj hrun)
    cases hres : B.commit lands w.store with
    | mk r s =>
      rw [hres] at hr
      cases r with
      | ok u => cases hr
      | error e =>
        cases hr
        obtain ⟨ids, hle, hs⟩ := L.commit_error (L.opened hw hc) hres
        exact hE _ s ids hle hs

theorem rollback_wp (ho : Open w.store c) {Q : Unit → World B ρ → Prop} {E : ε → World B ρ → Prop}
    (hQ : ∀ s ids, c.2 ≤ ids → Sim s ⟨c.1, ids, none⟩ → Q () { w with store := s }) :
    wp (rollback : Eff ε (World B ρ) Unit) Q E w := by
  refine wp_of (fun u w' hrun => ?_) (fun e w' hrun => by cases hrun)
  cases hrun
  obtain ⟨ids, hle, hs⟩ := L.rollback ho
  exact hQ _ ids hle hs

end

end World

end Holos
