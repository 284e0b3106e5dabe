import Holos.Engine.WorldQuads
import Holos.Holon.Registry
/-!
# The registry, as changes of a set of quads

`Versioned S id v`: the system graph says `v` of a holon, and nothing else. Zero is said by
saying nothing.
-/

namespace Holos

open Lib Lib.Eff Security

namespace Registry

/-! ## Versions as literals -/

theorem parseDigits_toDigits (n : Nat) : Inline.parseDigits (Nat.toDigits 10 n) = some n := by
  have hfold : ∀ (cs : List Char) (acc : Nat), (∀ c ∈ cs, c.isDigit = true) →
      cs.foldlM (fun n c => if c.isDigit then some (10 * n + (c.toNat - '0'.toNat)) else none) acc =
        some (Nat.ofDigitChars 10 cs acc) := by
    intro cs
    induction cs with
    | nil => exact fun acc _ => rfl
    | cons c cs ih =>
      intro acc hcs
      rw [List.foldlM_cons, if_pos (hcs c List.mem_cons_self)]
      exact ih _ (fun c' hc' => hcs c' (List.mem_cons_of_mem _ hc'))
  unfold Inline.parseDigits
  rw [if_neg (by simp [Nat.toDigits_ne_nil]), hfold _ 0 (fun c hc => Nat.isDigit_of_mem_toDigits (by decide) (by decide) hc),
    Nat.ofDigitChars_ten_toDigits]

theorem parseU64_toString {n : Nat} (h : n < 2 ^ 64) : parseU64 (toString n) = some n := by
  have hl : (toString n).toList = Nat.toDigits 10 n := Nat.toList_repr
  have hd := parseDigits_toDigits n
  have hdigit : ∀ c ∈ Nat.toDigits 10 n, c.isDigit = true :=
    fun c hc => Nat.isDigit_of_mem_toDigits (by decide) (by decide) hc
  unfold parseU64
  rw [hl]
  cases hcs : Nat.toDigits 10 n with
  | nil => exact absurd hcs Nat.toDigits_ne_nil
  | cons c cs =>
    rw [hcs] at hd hdigit
    split
    · rename_i heq
      obtain ⟨rfl, -⟩ := List.cons.inj heq
      exact absurd (hdigit '+' List.mem_cons_self) (by decide)
    · rw [hd]
      exact if_pos h

def versionLiteral (v : Nat) : Term := .literal (.newTyped (toString v) Xsd.integer)

/-- The number a version statement is read as. -/
def readVersion : Term → Nat
  | .literal l => (parseU64 l.value).getD 0
  | _ => 0

theorem readVersion_versionLiteral {v : Nat} (h : v < 2 ^ 64) : readVersion (versionLiteral v) = v := by
  have hvalue : (Literal.newTyped (toString v) Xsd.integer).value = toString v := by
    unfold Literal.newTyped
    rw [dif_neg (by decide)]
    rfl
  change (parseU64 (Literal.newTyped (toString v) Xsd.integer).value).getD 0 = v
  rw [hvalue, parseU64_toString h]
  rfl

/-! ## What the system graph says -/

/-- The objects of a subject and predicate in a graph. -/
def objects (S : Set Quad) (subject predicate graph : NamedNode) : Set Term :=
  {o | (⟨.namedNode subject, predicate, o, .namedNode graph⟩ : Quad) ∈ S}

/-- Everything the system graph says of a holon's version. -/
def versions (S : Set Quad) (id : NamedNode) : Set Term := objects S id (holos "version") systemGraph

structure Versioned (S : Set Quad) (id : NamedNode) (v : Nat) : Prop where
  bound : v < 2 ^ 64
  said : ∀ o, o ∈ versions S id ↔ v ≠ 0 ∧ o = versionLiteral v

variable {B : Backend} {Sim : B.State → Held → Prop} {Open : B.State → Contents × Ids → Prop} {ρ : Type}
variable {c : Contents × Ids} {x : ρ} {R : ρ → Prop} {w : World B ρ} {h : Held}

section
variable (L : B.Lawful Sim Open) (hs : Sim w.store h) (hd : h.Decodes) {E : HolonError → World B ρ → Prop} (hE : ∀ e, E e w)
include L hs hd hE

/-- The first object found is an object, and if none is found there is none. -/
theorem object_reads {graph subject predicate : NamedNode} {g s : TermId} (hg : h.ids (.namedNode graph) = some g)
    (hi : h.ids (.namedNode subject) = some s) {Q : Option Term → World B ρ → Prop}
    (hnone : objects h.all subject predicate graph = ∅ → Q none w)
    (hsome : ∀ o ∈ objects h.all subject predicate graph, Q (some o) w) :
    wp (object (.named g) s predicate : Eff HolonError (World B ρ) (Option Term)) Q E w := by
  unfold object
  apply wp_bind
  apply World.lookupTerm_reads L hs (fun _ => hE _)
  -- an object of the predicate is a row of the pattern
  have hrow : ∀ o, o ∈ objects h.all subject predicate graph → ∃ p i, h.ids (.namedNode predicate) = some p ∧
      h.ids o = some i ∧ (⟨s, p, i, some g⟩ : EncodedQuad) ∈ h.contents.quads := by
    rintro o ⟨e, he, hmem⟩
    obtain ⟨hes, hep, heo, heg⟩ := Ids.quad_eq_some.1 he
    obtain ⟨es, ep, eo, eg⟩ := e
    cases hi.symm.trans hes
    obtain ⟨g', hg', rfl⟩ := Option.map_eq_some_iff.1 heg
    cases hg.symm.trans hg'
    exact ⟨ep, eo, hep, heo, hmem⟩
  cases hp : h.ids (.namedNode predicate) with
  | none =>
    refine wp_pure (hnone (Set.eq_empty_iff_forall_notMem.2 (fun o ho => ?_)))
    obtain ⟨p, -, hp', -⟩ := hrow o ho
    rw [hp] at hp'
    cases hp'
  | some p =>
    apply wp_bind
    refine World.quadsForPattern_reads L hs (fun _ => hE _) (fun qs _ hqs => ?_)
    cases hhead : qs.head? with
    | none =>
      refine wp_pure (hnone (Set.eq_empty_iff_forall_notMem.2 (fun o ho => ?_)))
      obtain ⟨p', i, hp', -, hmem⟩ := hrow o ho
      cases hp.symm.trans hp'
      have hin : (⟨s, p, i, some g⟩ : EncodedQuad) ∈ qs :=
        (hqs _).2 ⟨hmem, by simp [Index.matchesTriple], by simp [Index.GraphFilter.admits]⟩
      rw [List.head?_eq_none_iff.1 hhead] at hin
      cases hin
    | some e =>
      obtain ⟨hmem, hmatch, hgraph⟩ := (hqs e).1 (List.mem_of_mem_head? hhead)
      obtain ⟨q, hq, hall⟩ := Held.exists_quad hd hmem
      obtain ⟨hes, hep, heo, heg⟩ := Ids.quad_eq_some.1 hq
      obtain ⟨rfl, rfl⟩ : s = e.subject ∧ p = e.predicate := by simpa [Index.matchesTriple] using hmatch
      have hgr : e.graphName = some g := by simpa [Index.GraphFilter.admits] using hgraph
      refine World.decodeTerm_reads L hs (fun _ => hE _) heo (hsome q.object ?_)
      have hsub : q.subject = .namedNode subject := Ids.subject_inj (Ids.term_inj hes hi)
      have hpred : q.predicate = predicate := Term.namedNode.inj (Ids.term_inj hep hp)
      have hname : q.graphName = .namedNode graph := by
        refine Ids.graph_inj heg ?_
        rw [hgr]
        exact Option.map_eq_some_iff.2 ⟨g, hg, rfl⟩
      have heq : q = ⟨.namedNode subject, predicate, q.object, .namedNode graph⟩ := by rw [← hsub, ← hpred, ← hname]
      exact heq ▸ hall

/-- The version is what some statement of it says, or zero where there is none. -/
theorem version_reads {holon : Holon} {Q : Nat → World B ρ → Prop} (hnone : versions h.all holon.id = ∅ → Q 0 w)
    (hsome : ∀ o ∈ versions h.all holon.id, Q (readVersion o) w) :
    wp (version holon : Eff HolonError (World B ρ) Nat) Q E w := by
  have habs : (h.ids (.namedNode systemGraph) = none ∨ h.ids (.namedNode holon.id) = none) → versions h.all holon.id = ∅ := by
    intro hor
    refine Set.eq_empty_iff_forall_notMem.2 (fun o ho => ?_)
    obtain ⟨e, he, -⟩ := ho
    obtain ⟨hes, -, -, heg⟩ := Ids.quad_eq_some.1 he
    obtain ⟨g', hg', -⟩ := Option.map_eq_some_iff.1 heg
    rcases hor with h' | h'
    · rw [h'] at hg'
      cases hg'
    · change h.ids (.namedNode holon.id) = _ at hes
      rw [h'] at hes
      cases hes
  unfold version
  apply wp_bind
  apply World.lookupTerm_reads L hs (fun _ => hE _)
  cases hg : h.ids (.namedNode systemGraph) with
  | none => exact wp_pure (hnone (habs (.inl hg)))
  | some g =>
    apply wp_bind
    apply World.lookupTerm_reads L hs (fun _ => hE _)
    cases hi : h.ids (.namedNode holon.id) with
    | none => exact wp_pure (hnone (habs (.inr hi)))
    | some s =>
      apply wp_bind
      refine object_reads L hs hd hE hg hi (fun he => wp_pure (hnone he)) (fun o ho => ?_)
      have hQ := hsome o ho
      cases o <;> exact wp_pure hQ

theorem version_versioned {holon : Holon} {v : Nat} (hv : Versioned h.all holon.id v) {Q : Nat → World B ρ → Prop} (hQ : Q v w) :
    wp (version holon : Eff HolonError (World B ρ) Nat) Q E w := by
  refine version_reads L hs hd hE (fun hnone => ?_) (fun o ho => ?_)
  · by_cases h0 : v = 0
    · exact h0 ▸ hQ
    · have hmem := (hv.said _).2 ⟨h0, rfl⟩
      rw [hnone] at hmem
      cases hmem
  · obtain ⟨-, rfl⟩ := (hv.said o).1 ho
    rw [readVersion_versionLiteral hv.bound]
    exact hQ

end

section
variable (L : B.Lawful Sim Open) (hR : R x) (hw : World.At Sim c x w h)
include L hR hw

theorem nextVersion_versioned {holon : Holon} {v : Nat} (hv : Versioned h.all holon.id v) {Q : Nat → World B ρ → Prop}
    (hQ : v + 1 < 2 ^ 64 → Q (v + 1) w) :
    wp (nextVersion holon : Eff HolonError (World B ρ) Nat) Q (World.Stuck Open c R) w := by
  unfold nextVersion
  apply wp_bind
  apply version_versioned L hw.sim hw.decodes (fun _ => ⟨L.opened hw.sim hw.saved, hw.stuck hR⟩) hv
  apply wp_ite
  · exact fun hlt => wp_pure (hQ hlt)
  · exact fun _ r s hrun => by cases hrun

/-- The old statement goes and the new one comes. -/
theorem setVersionBody_at {holon : Holon} {v next : Nat} (hv : Versioned h.all holon.id v) {Q : Unit → World B ρ → Prop}
    (hQ : ∀ w' h', World.At Sim c x w' h' → h.ids ≤ h'.ids →
      h'.all = insert (versionQuad holon next) (h.all \ {versionQuad holon v}) → Q () w') :
    wp (setVersionBody holon next : Eff HolonError (World B ρ) Unit) Q (World.Stuck Open c R) w := by
  have hinsert : ∀ w₁ h₁, World.At Sim c x w₁ h₁ → h.ids ≤ h₁.ids → h₁.all = h.all \ {versionQuad holon v} →
      wp (do let _ ← World.insert (versionQuad holon next) : Eff HolonError (World B ρ) Unit) Q (World.Stuck Open c R) w₁ := by
    intro w₁ h₁ hw₁ hle hall
    apply wp_bind
    refine World.insert_at L hR hw₁ (fun b w₂ h₂ hw₂ hle₂ hall₂ _ => wp_pure (hQ w₂ h₂ hw₂ (hle.trans hle₂) ?_))
    rw [hall₂, hall]
  unfold setVersionBody
  apply wp_bind
  apply version_versioned L hw.sim hw.decodes (fun _ => ⟨L.opened hw.sim hw.saved, hw.stuck hR⟩) hv
  by_cases h0 : v = 0
  · rw [if_neg (not_not.2 h0)]
    refine hinsert w h hw le_rfl (Set.sdiff_singleton_eq_self (fun hmem => ?_)).symm
    exact ((hv.said _).1 hmem).1 h0
  · rw [if_pos h0]
    apply wp_bind
    refine World.remove_at L hR hw (fun b w₁ h₁ hw₁ hids hall _ => ?_)
    exact hinsert w₁ h₁ hw₁ (le_of_eq hids.symm) hall

omit hR in
/-- Inside a scope there is none of its own to open or close. -/
theorem inCommit_at {α : Type} {lands : Bool} {body : Eff HolonError (World B ρ) α} {Q : α → World B ρ → Prop}
    {E : HolonError → World B ρ → Prop} (hbody : wp body Q E w) : wp (inCommit lands body) Q E w := by
  have hin : B.inScope w.store = true := by
    rw [L.inScope hw.sim, hw.saved]
    rfl
  unfold inCommit beginCommit
  apply wp_bind
  apply wp_bind
  refine wp_reads (fun b hb => ?_) (fun e he => by cases he)
  cases hb
  rw [hin]
  apply wp_pure
  apply wp_bind
  refine wp_attempt (hbody.mono (fun a w' hQ => ?_) (fun e w' hE => ?_))
  · exact wp_bind (wp_pure (wp_pure hQ))
  · exact wp_bind (wp_pure (wp_throw hE))

theorem setVersion_at {lands : Bool} {holon : Holon} {v next : Nat} (hv : Versioned h.all holon.id v)
    {Q : Unit → World B ρ → Prop}
    (hQ : ∀ w' h', World.At Sim c x w' h' → h.ids ≤ h'.ids →
      h'.all = insert (versionQuad holon next) (h.all \ {versionQuad holon v}) → Q () w') :
    wp (setVersion lands holon next : Eff HolonError (World B ρ) Unit) Q (World.Stuck Open c R) w :=
  inCommit_at L hw (setVersionBody_at L hR hw hv hQ)

theorem administer_at {q : Quad} {Q : Unit → World B ρ → Prop}
    (hQ : ∀ w' h', World.At Sim c x w' h' → h.ids ≤ h'.ids → h'.all = insert q h.all → Q () w') :
    wp (administer q : Eff HolonError (World B ρ) Unit) Q (World.Stuck Open c R) w := by
  unfold administer
  apply wp_bind
  refine World.encodeQuad_at L hR hw (fun e w₁ h₁ hw₁ hle hall he => ?_)
  apply wp_bind
  refine World.policy_at L hR hw₁ (fun p w₂ hw₂ => ?_)
  apply wp_ite
  · intro _
    apply wp_bind
    refine World.insertEncoded_at L hR hw₂ he (fun b w₃ h₃ hw₃ hids hall₃ _ => wp_pure (hQ w₃ h₃ hw₃ ?_ ?_))
    · exact hle.trans (le_of_eq hids.symm)
    · rw [hall₃, hall]
  · exact fun _ => World.throw_at L hR hw₂

theorem registerBody_at {holon : Holon} {Q : Unit → World B ρ → Prop}
    (hQ : ∀ w' h', World.At Sim c x w' h' → h.ids ≤ h'.ids → h'.all = h.all ∪ {q | q ∈ definition holon} → Q () w') :
    wp (registerBody holon : Eff HolonError (World B ρ) Unit) Q (World.Stuck Open c R) w := by
  unfold registerBody
  refine (wp_foldlM (I := fun done _ w' => ∃ h', World.At Sim c x w' h' ∧ h.ids ≤ h'.ids ∧ h'.all = h.all ∪ {q | q ∈ done})
    ⟨h, hw, le_rfl, by simp⟩ ?_).mono (fun _ w' ⟨h', hw', hle, hall⟩ => hQ w' h' hw' hle hall) (fun _ _ h => h)
  rintro done q rest - w₁ - ⟨h₁, hw₁, hle₁, hall₁⟩
  refine administer_at L hR hw₁ (fun w₂ h₂ hw₂ hle₂ hall₂ => ⟨h₂, hw₂, hle₁.trans hle₂, ?_⟩)
  rw [hall₂, hall₁]
  ext q'
  simp only [Set.mem_insert_iff, Set.mem_union, Set.mem_ofPred_eq, List.mem_append, List.mem_singleton]
  tauto

end

/-! ## Commits -/

/-- Between commits. -/
structure Idle (Sim : B.State → Held → Prop) (x : ρ) (w : World B ρ) (h : Held) : Prop where
  sim : Sim w.store h
  saved : h.saved = none
  decodes : h.Decodes
  extra : w.extra = x

/-- Between commits, with the contents of `h`. Some ids may be new. -/
def Restored (Sim : B.State → Held → Prop) (h : Held) (R : ρ → Prop) (w : World B ρ) : Prop :=
  ∃ ids, h.ids ≤ ids ∧ Sim w.store ⟨h.contents, ids, none⟩ ∧ R w.extra

theorem Restored.idle {w : World B ρ} (hr : Restored Sim h R w) (hd : h.Decodes) :
    ∃ h', Idle Sim w.extra w h' ∧ h.ids ≤ h'.ids ∧ h'.contents = h.contents ∧ h'.all = h.all ∧ R w.extra := by
  obtain ⟨ids, hle, hs, hR⟩ := hr
  exact ⟨_, ⟨hs, rfl, hd.grow hle, rfl⟩, hle, rfl, Held.all_grow hle hd, hR⟩

/-- Work in a scope of its own, and what comes after it. Work that is done is kept if the disk
takes it; everything else leaves the contents as they were. -/
theorem scoped_wp (L : B.Lawful Sim Open) (hw : Idle Sim x w h) (hR : R x) {α β : Type} {lands : Bool}
    {body : Eff HolonError (World B ρ) α} {K : Except HolonError α → Eff HolonError (World B ρ) β}
    {P : α → Held → ρ → Prop} {Q : β → World B ρ → Prop} {E : HolonError → World B ρ → Prop}
    (hbody : ∀ w₁, World.At Sim (h.contents, h.ids) x w₁ { h with saved := some (h.contents, h.ids) } →
      wp body (fun a w' => ∃ h' x', World.At Sim (h.contents, h.ids) x' w' h' ∧ P a h' x' ∧ R x')
        (World.Stuck Open (h.contents, h.ids) R) w₁)
    (hok : ∀ a w' h' x', Idle Sim x' w' { h' with saved := none } → P a h' x' → wp (K (.ok a)) Q E w')
    (herr : ∀ e w', Restored Sim h R w' → wp (K (.error e)) Q E w') (hbegin : ∀ e, E e w)
    (hcommit : ∀ e w', (∃ s s' e', B.inScope s = true ∧ B.commit lands s = (.error e', s')) → Restored Sim h R w' → E e w') :
    wp (do
      let owned ← beginCommit
      let result ← Eff.attempt body
      endCommit lands owned result.isOk
      K result) Q E w := by
  have hin : B.inScope w.store = false := by
    rw [L.inScope hw.sim, hw.saved]
    rfl
  apply wp_bind
  unfold beginCommit
  apply wp_bind
  refine wp_reads (fun b hb => ?_) (fun e he => by cases he)
  cases hb
  rw [hin]
  apply wp_bind
  refine wp_of (fun u w₁ hrun => ?_) (fun e w₁ hrun => ?_)
  · -- the scope is open
    split at hrun
    · rename_i s hbegin
      cases hrun
      obtain ⟨-, hs⟩ := L.begin hw.sim hbegin
      apply wp_pure
      apply wp_bind
      apply wp_attempt
      have hw₁ : World.At Sim (h.contents, h.ids) x { w with store := s } { h with saved := some (h.contents, h.ids) } :=
        ⟨hs, rfl, hw.decodes, hw.extra⟩
      refine (hbody _ hw₁).mono ?_ ?_
      · rintro a w₂ ⟨h₂, x₂, hw₂, hpost, hR₂⟩
        apply wp_bind
        refine wp_of (fun u w₃ hrun => ?_) (fun e w₃ hrun => ?_)
        · obtain ⟨hres, rfl⟩ := Prod.mk.inj (Option.some.inj hrun)
          cases hcommits : B.commit lands w₂.store with
          | mk r s' =>
            rw [hcommits] at hres
            cases r with
            | error e => cases hres
            | ok u' =>
              have hs' := L.commit hw₂.sim (by rw [hw₂.saved]; rfl) hcommits
              exact hok a _ h₂ x₂ ⟨hs', rfl, hw₂.decodes, hw₂.extra⟩ hpost
        · obtain ⟨hres, rfl⟩ := Prod.mk.inj (Option.some.inj hrun)
          cases hcommits : B.commit lands w₂.store with
          | mk r s' =>
            rw [hcommits] at hres
            cases r with
            | ok u' => cases hres
            | error e' =>
              obtain ⟨ids, hle, hs'⟩ := L.commit_error (L.opened hw₂.sim hw₂.saved) hcommits
              have hin₂ : B.inScope w₂.store = true := L.open_inScope (L.opened hw₂.sim hw₂.saved)
              exact hcommit _ _ ⟨_, _, _, hin₂, hcommits⟩ ⟨ids, hle, hs', by rw [hw₂.extra]; exact hR₂⟩
      · rintro e w₂ ⟨hopen, hR₂⟩
        apply wp_bind
        refine wp_of (fun u w₃ hrun => ?_) (fun e w₃ hrun => by cases hrun)
        cases hrun
        obtain ⟨ids, hle, hs'⟩ := L.rollback hopen
        exact herr e _ ⟨ids, hle, hs', hR₂⟩
    · cases hrun
  · split at hrun
    · cases hrun
    · cases hrun
      exact hbegin _

/-! ## What moves a version -/

/-- Quads that say nothing of a version leave it. -/
theorem Versioned.congr {S S' : Set Quad} {id : NamedNode} {v : Nat} (hv : Versioned S id v)
    (h : ∀ o, o ∈ versions S' id ↔ o ∈ versions S id) : Versioned S' id v :=
  ⟨hv.bound, fun o => (h o).trans (hv.said o)⟩

/-- A version set is the version said. -/
theorem Versioned.set {S : Set Quad} {holon : Holon} {v next : Nat} (hv : Versioned S holon.id v) (hnext : next < 2 ^ 64)
    (h0 : next ≠ 0) : Versioned (insert (versionQuad holon next) (S \ {versionQuad holon v})) holon.id next := by
  refine ⟨hnext, fun o => ?_⟩
  have hmem : (⟨.namedNode holon.id, holos "version", o, .namedNode systemGraph⟩ : Quad) ∈
      insert (versionQuad holon next) (S \ {versionQuad holon v}) ↔ o = versionLiteral next ∨
        (o ∈ versions S holon.id ∧ o ≠ versionLiteral v) := by
    simp [versionQuad, versionLiteral, versions, objects]
  refine hmem.trans ⟨?_, fun ⟨_, ho⟩ => .inl ho⟩
  rintro (rfl | ⟨ho, hne⟩)
  · exact ⟨h0, rfl⟩
  · exact absurd ((hv.said o).1 ho).2 hne

/-- Another holon's version is not touched. -/
theorem Versioned.set_other {S : Set Quad} {holon : Holon} {id : NamedNode} {v u next : Nat} (hv : Versioned S id v)
    (hne : id ≠ holon.id) : Versioned (insert (versionQuad holon next) (S \ {versionQuad holon u})) id v := by
  refine hv.congr (fun o => ?_)
  simp [versions, objects, versionQuad, hne]

end Registry

end Holos
