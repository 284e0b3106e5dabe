import Holos.Engine.Ledger
import Holos.Lib.Collect
/-!
# What every call does to the ledger
-/

namespace Holos

open Lib Lib.Eff

/-! ## Quads and names -/

namespace Held

variable {h : Held} {ids : Ids} {q : Quad} {e : EncodedQuad} {name : GraphName} {g : TermId} {quads : Set Quad} {graphs : Set GraphName}

theorem Shows.grow (hs : h.Shows quads graphs) (hle : h.ids ≤ ids) : ({ h with ids } : Held).Shows quads graphs where
  decodes := hs.decodes.grow hle
  catalogued := hs.catalogued.grow hle
  all := by rw [all_grow hle hs.decodes, hs.all]
  names := by rw [names_grow hs.catalogued hle, hs.names]

theorem Shows.mem_iff (hs : h.Shows quads graphs) (hq : h.ids.quad q = some e) : e ∈ h.contents.quads ↔ q ∈ quads := by
  rw [← hs.all]
  exact (Has.of_mem hq).symm

theorem Shows.graph_iff (hs : h.Shows quads graphs) (hname : h.ids.graph name = some (some g)) : g ∈ h.contents.graphs ↔ name ∈ graphs := by
  rw [← hs.names]
  constructor
  · exact fun hg => ⟨g, hg, hname⟩
  · rintro ⟨g', hg', hname'⟩
    rw [hname] at hname'
    cases hname'
    exact hg'

/-- A quad with a term that has no id is not held. -/
theorem Shows.not_mem (hs : h.Shows quads graphs) (hq : h.ids.quad q = none) : q ∉ quads := by
  rw [← hs.all]
  rintro ⟨e, he, -⟩
  rw [hq] at he
  cases he

theorem Shows.not_graph (hs : h.Shows quads graphs) (hname : h.ids.graph name = none ∨ h.ids.graph name = some none) : name ∉ graphs := by
  rw [← hs.names]
  rintro ⟨g, -, hg⟩
  rcases hname with hname | hname <;> rw [hname] at hg <;> cases hg

theorem Shows.insert (hs : h.Shows quads graphs) (hq : h.ids.quad q = some e) :
    (h.write (.insert e)).Shows (Insert.insert q quads) (graphs ∪ named q.graphName) where
  decodes := hs.decodes.insert hq
  catalogued := hs.catalogued.insert hq
  all := by rw [all_insert hq, hs.all]
  names := by rw [names_insert hq, hs.names]

theorem Shows.remove (hs : h.Shows quads graphs) (hq : h.ids.quad q = some e) : (h.write (.remove e)).Shows (quads \ {q}) graphs where
  decodes := hs.decodes.remove
  catalogued := hs.catalogued.remove
  all := by rw [all_remove hq, hs.all]
  names := hs.names

theorem Shows.insertNamedGraph (hs : h.Shows quads graphs) (hname : h.ids.graph name = some (some g)) :
    (h.write (.insertNamedGraph g)).Shows quads (graphs ∪ named name) where
  decodes := hs.decodes.insertNamedGraph
  catalogued := hs.catalogued.insertNamedGraph hname
  all := hs.all
  names := by rw [names_insertNamedGraph hname, hs.names]

theorem Shows.removeNamedGraph (hs : h.Shows quads graphs) (hname : h.ids.graph name = some (some g)) :
    (h.write (.removeNamedGraph g)).Shows (quads \ {q | q.graphName ∈ named name}) (graphs \ named name) where
  decodes := hs.decodes.removeNamedGraph
  catalogued := hs.catalogued.removeNamedGraph
  all := by
    rw [all_removeNamedGraph hname, hs.all, ne_default hname]
    rfl
  names := by rw [names_removeNamedGraph hname, hs.names, ne_default hname]

/-- Nothing is in a graph that has no id. -/
theorem Shows.no_graph (hs : h.Shows quads graphs) (hname : h.ids.graph name = none ∨ h.ids.graph name = some none) :
    quads \ {q | q.graphName ∈ named name} = quads ∧ graphs \ named name = graphs := by
  have hnot := hs.not_graph hname
  refine ⟨sdiff_eq_left.2 (Set.disjoint_left.2 (fun q hq hg => ?_)), sdiff_eq_left.2 (Set.disjoint_left.2 (fun g hg hmem => ?_))⟩
  · rw [← hs.all] at hq
    obtain ⟨e, he, -⟩ := hq
    have hgraph := (Ids.quad_eq_some.1 he).2.2.2
    cases name with
    | defaultGraph => exact hg
    | namedNode n =>
      rw [Set.mem_singleton_iff.1 hg] at hgraph
      rcases hname with hname | hname
      · rw [hname] at hgraph
        cases hgraph
      · cases hn : h.ids (.namedNode n) <;> simp [Ids.graph, hn] at hname
    | blankNode b =>
      rw [Set.mem_singleton_iff.1 hg] at hgraph
      rcases hname with hname | hname
      · rw [hname] at hgraph
        cases hgraph
      · cases hb : h.ids (.blankNode b) <;> simp [Ids.graph, hb] at hname
  · cases name with
    | defaultGraph => exact hmem
    | namedNode n =>
      rw [Set.mem_singleton_iff.1 hmem] at hg
      exact hnot hg
    | blankNode b =>
      rw [Set.mem_singleton_iff.1 hmem] at hg
      exact hnot hg

/-- Each quad has its row, and each row its quad. -/
theorem Shows.ncard (hs : h.Shows quads graphs) : h.contents.quads.card = quads.ncard := by
  rw [← hs.all, ← Set.ncard_coe_finset]
  refine Set.ncard_congr (fun e he => (hs.decodes e he).choose) (fun e he => ?_) (fun e e' he he' heq => ?_) (fun q hq => ?_)
  · exact ⟨e, (hs.decodes e he).choose_spec, he⟩
  · have hq := (hs.decodes e he).choose_spec
    rw [heq, (hs.decodes e' he').choose_spec] at hq
    exact (Option.some.inj hq).symm
  · obtain ⟨e, he, hmem⟩ := hq
    exact ⟨e, hmem, Ids.quad_inj (hs.decodes e hmem).choose_spec he⟩

end Held

theorem KeptBy.isSome {s : Option (Contents × Ids)} {s' : Option (Set Quad × Set GraphName)} (h : KeptBy s s') : s'.isSome = s.isSome := by
  cases h <;> rfl

theorem KeptBy.back {s : Option (Contents × Ids)} {c : Contents × Ids} {s' : Option (Set Quad × Set GraphName)} (h : KeptBy s s')
    (hc : s = some c) : ∃ p, s' = some p ∧ Held.Shows ⟨c.1, c.2, none⟩ p.1 p.2 := by
  cases h with
  | none => cases hc
  | some h =>
    cases hc
    exact ⟨_, rfl, h⟩

namespace World

variable {B : Backend} {Sim : B.State → Held → Prop} {Open : B.State → Contents × Ids → Prop}

/-! ## Writes, in a scope or out of one -/

section
variable {w : World B Unit} {h : Held} (L : B.Lawful Sim Open) (hw : Sim w.store h) {E : StorageError → World B Unit → Prop}
variable (hE : ∀ c e w', h.saved = some c → Open w'.store c → E e w')
include L hw hE

theorem encodeQuad_store {q : Quad} (hq : h.saved.isSome = true ∨ q.object.isTriple = false) {Q : EncodedQuad → World B Unit → Prop}
    (hQ : ∀ s ids e, h.ids ≤ ids → ids.quad q = some e → Sim s { h with ids } → Q e { w with store := s }) :
    (encodeQuad q : Eff StorageError (World B Unit) EncodedQuad).wp Q E w := by
  cases hs : h.saved with
  | none =>
    rw [hs] at hq
    exact encodeQuad_idle L hw hs (.inl (hq.resolve_left (by simp))) hQ
  | some c => exact (encodeQuad_wp (R := fun _ => True) L hw hs trivial hQ).mono (fun _ _ h => h) (fun e w' he => hE c e w' hs he.1)

theorem encodeGraph_store {g : GraphName} {Q : Option TermId → World B Unit → Prop}
    (hQ : ∀ s ids i, h.ids ≤ ids → ids.graph g = some i → Sim s { h with ids } → Q i { w with store := s }) :
    (encodeGraph g : Eff StorageError (World B Unit) (Option TermId)).wp Q E w := by
  cases hs : h.saved with
  | none => exact encodeGraph_idle L hw hs hQ
  | some c => exact (encodeGraph_wp (R := fun _ => True) L hw hs trivial hQ).mono (fun _ _ h => h) (fun e w' he => hE c e w' hs he.1)

theorem write_store {op : Index.Op} {Q : Bool → World B Unit → Prop}
    (hQ : ∀ s, Sim s (h.write op) → Q (h.contents.changes op) { w with store := s }) :
    (write op : Eff StorageError (World B Unit) Bool).wp Q E w := by
  cases hs : h.saved with
  | none => exact write_idle L hw hs (fun s _ hs' => hQ s hs')
  | some c => exact (write_wp (R := fun _ => True) L hw hs trivial hQ).mono (fun _ _ h => h) (fun e w' he => hE c e w' hs he.1)

end

/-! ## Reads -/

section
variable {w : World B Unit} {h : Held} (L : B.Lawful Sim Open) (hw : Sim w.store h) {E : StorageError → World B Unit → Prop}
variable (hE : ∀ e, E e w)
include L hw hE

theorem lookupQuad_reads {q : Quad} {Q : Option EncodedQuad → World B Unit → Prop} (hQ : Q (h.ids.quad q) w) :
    (lookupQuad q : Eff StorageError (World B Unit) (Option EncodedQuad)).wp Q E w := by
  unfold lookupQuad
  apply wp_bind
  apply lookupTerm_reads L hw hE
  apply wp_bind
  apply lookupTerm_reads L hw hE
  apply wp_bind
  apply lookupTerm_reads L hw hE
  apply wp_bind
  apply lookupGraphName_reads L hw hE
  exact wp_pure hQ

variable {quads : Set Quad} {graphs : Set GraphName} (hs : h.Shows quads graphs)
include hs

theorem contains_reads {q : Quad} {Q : Bool → World B Unit → Prop} (hQ : ∀ b, (b = true ↔ q ∈ quads) → Q b w) :
    (contains q : Eff StorageError (World B Unit) Bool).wp Q E w := by
  unfold contains
  apply wp_bind
  apply lookupQuad_reads L hw hE
  cases hq : h.ids.quad q with
  | none => exact wp_pure (hQ false (by simpa using hs.not_mem hq))
  | some e =>
    refine store_reads (f := fun s => B.containsEncoded s e) hE (fun b hb => hQ b ?_)
    rw [L.contains hw hb, decide_eq_true_iff]
    exact hs.mem_iff hq

theorem containsNamedGraph_store {g : GraphName} {Q : Bool → World B Unit → Prop} (hQ : ∀ b, (b = true ↔ g ∈ graphs) → Q b w) :
    (containsNamedGraph g : Eff StorageError (World B Unit) Bool).wp Q E w := by
  unfold containsNamedGraph
  apply wp_bind
  apply lookupGraphName_reads L hw hE
  cases hg : h.ids.graph g with
  | none => exact wp_pure (hQ false (by simpa using hs.not_graph (.inl hg)))
  | some i =>
    cases i with
    | none => exact wp_pure (hQ false (by simpa using hs.not_graph (.inr hg)))
    | some i =>
      refine store_reads (f := fun s => B.containsNamedGraph s i) hE (fun b hb => hQ b ?_)
      rw [L.containsNamedGraph hw hb, decide_eq_true_iff]
      exact hs.graph_iff hg

/-- Each row is read once, as its quad. -/
theorem iter_reads {Q : List Quad → World B Unit → Prop} (hQ : ∀ qs : List Quad, qs.Nodup → (∀ q, q ∈ qs ↔ q ∈ quads) → Q qs w) :
    (iter : Eff StorageError (World B Unit) (List Quad)).wp Q E w := by
  unfold iter
  apply wp_bind
  refine quadsForPattern_reads L hw hE (fun es hnodup hscan => ?_)
  have hmem : ∀ e, e ∈ es ↔ e ∈ h.contents.quads := by
    intro e
    rw [hscan]
    simp [Index.matchesTriple, Index.GraphFilter.admits]
  have hall : (es.mapM decodeQuad : Eff StorageError (World B Unit) (List Quad)).wp
      (fun qs w' => w' = w ∧ List.Forall₂ (fun e q => h.ids.quad q = some e) es qs) E w := by
    refine wp_mapM (fun e he => ?_)
    obtain ⟨q, hq⟩ := hs.decodes e ((hmem e).1 he)
    exact decodeQuad_reads L hw hE hq ⟨rfl, hq⟩
  refine hall.mono (fun qs w' hqs => ?_) (fun _ _ he => he)
  obtain ⟨rfl, hqs⟩ := hqs
  refine hQ qs ?_ (fun q => ?_)
  · -- no quad has two rows
    clear hmem hall hscan
    induction hqs with
    | nil => exact List.nodup_nil
    | @cons e q es qs hq hqs ih =>
      obtain ⟨hnot, hnodup⟩ := List.nodup_cons.1 hnodup
      refine List.nodup_cons.2 ⟨fun hin => hnot ?_, ih hnodup⟩
      obtain ⟨e', he', hq'⟩ := forall₂_exists_left hqs hin
      rw [hq] at hq'
      cases hq'
      exact he'
  · rw [← hs.all]
    constructor
    · intro hin
      obtain ⟨e, he, hq⟩ := forall₂_exists_left hqs hin
      exact ⟨e, hq, (hmem e).1 he⟩
    · rintro ⟨e, he, hin⟩
      obtain ⟨q', hin', hq'⟩ := forall₂_exists_right hqs ((hmem e).2 hin)
      rw [Ids.quad_inj he hq']
      exact hin'

/-- Each graph is read as its name. -/
theorem graphNames_reads {Q : List GraphName → World B Unit → Prop} (hQ : ∀ gs : List GraphName, (∀ g, g ∈ gs ↔ g ∈ graphs) → Q gs w) :
    (graphNames : Eff StorageError (World B Unit) (List GraphName)).wp Q E w := by
  unfold graphNames
  apply wp_bind
  refine store_reads (f := fun s => B.namedGraphs s) hE (fun is his => ?_)
  have hmem : ∀ i, i ∈ is ↔ i ∈ h.contents.graphs := fun i => L.mem_namedGraphs hw his
  have hall : (is.mapM (fun g => decodeGraph (some g)) : Eff StorageError (World B Unit) (List GraphName)).wp
      (fun gs w' => w' = w ∧ List.Forall₂ (fun i g => h.ids.graph g = some (some i)) is gs) E w := by
    refine wp_mapM (fun i hi => ?_)
    obtain ⟨name, hname⟩ := hs.catalogued i ((hmem i).1 hi)
    exact decodeGraph_reads L hw hE hname ⟨rfl, hname⟩
  refine hall.mono (fun gs w' hgs => ?_) (fun _ _ he => he)
  obtain ⟨rfl, hgs⟩ := hgs
  refine hQ gs (fun g => ?_)
  rw [← hs.names]
  constructor
  · intro hin
    obtain ⟨i, hi, hg⟩ := forall₂_exists_left hgs hin
    exact ⟨i, (hmem i).1 hi, hg⟩
  · rintro ⟨i, hi, hg⟩
    obtain ⟨g', hin', hg'⟩ := forall₂_exists_right hgs ((hmem i).2 hi)
    rw [Ids.graph_inj hg hg']
    exact hin'

end

/-! ## One call -/

/-- A call has answered `r` and left a store that has a ledger. -/
def Leads (Sim : B.State → Held → Prop) (Open : B.State → Contents × Ids → Prop) (a : Ledger) (c : StoreCall) (r : StoreReply)
    (w' : World B Unit) : Prop :=
  ∃ a', a.Steps c r a' ∧ Ledger.Of Sim Open w'.store a'

section
variable {w : World B Unit} {h : Held} {a : Ledger} {c : StoreCall} (L : B.Lawful Sim Open) (hw : Sim w.store h)
variable (hs : h.Shows a.quads a.graphs) (hsaved : KeptBy h.saved a.saved) (hb : a.broken = false)

omit L in
include hw hs hsaved hb in
/-- A read that is answered. -/
theorem leads_read {r : StoreReply} (hr : a.Answers c r) (hc : a.after c = a) : Leads Sim Open a c r w :=
  ⟨a.after c, .answered (fun h => by rw [hb] at h; cases h) hr, by rw [hc]; exact .standing hw hs hsaved hb⟩

omit L in
include hw hs hsaved hb in
theorem leads_unchanged {e : StorageError} (hc : a.saved = none ∨ c.isWrite = false) (hlands : ∀ lands, c ≠ .commit lands) :
    Leads Sim Open a c (.failed e) w :=
  ⟨a, .unchanged hc hlands, .standing hw hs hsaved hb⟩

omit L in
include hsaved in
/-- A write that failed in a scope. -/
theorem leads_breaks (hc : c.isWrite = true) (c₀ : Contents × Ids) (e : StorageError) (w' : World B Unit) (hc₀ : h.saved = some c₀)
    (ho : Open w'.store c₀) : Leads Sim Open a c (.failed e) w' := by
  obtain ⟨p, hp, hshows⟩ := hsaved.back hc₀
  exact ⟨{ a with broken := true }, .breaks (by rw [hp]; rfl) hc, .stuck ho hp hshows rfl⟩

include L hw hs hsaved hb

/-- A read before a write, failed. -/
theorem leads_unread (hc : c.isWrite = true) (e : StorageError) : Leads Sim Open a c (.failed e) w := by
  cases hsome : h.saved with
  | none =>
    refine leads_unchanged hw hs hsaved hb (.inl ?_) (fun lands heq => by rw [heq] at hc; cases hc)
    have hisSome := hsaved.isSome
    rw [hsome] at hisSome
    exact Option.not_isSome_iff_eq_none.1 (by rw [hisSome]; simp)
  | some c₀ => exact leads_breaks hsaved hc c₀ e w hsome (L.opened hw hsome)

omit L hw hs in
/-- A write that was answered. -/
theorem leads_wrote {s : B.State} {h' : Held} {r : StoreReply} (hr : a.Answers c r) (hs' : Sim s h') (hsaved' : h'.saved = h.saved)
    (hkeeps : (a.after c).saved = a.saved ∧ (a.after c).broken = a.broken) (hshows : h'.Shows (a.after c).quads (a.after c).graphs) :
    Leads Sim Open a c r { w with store := s } := by
  refine ⟨a.after c, .answered (fun h => by rw [hb] at h; cases h) hr, .standing hs' hshows ?_ ?_⟩
  · rw [hsaved', hkeeps.1]
    exact hsaved
  · rw [hkeeps.2]
    exact hb

/-- What a call that is allowed comes to, where nothing has failed. -/
theorem call_standing (hallow : a.Allows c) :
    (call c : Eff StorageError (World B Unit) StoreReply).wp (Leads Sim Open a c) (fun e => Leads Sim Open a c (.failed e)) w := by
  cases c with
  | insert q =>
    change (insert q >>= fun b => pure (.bool b) : Eff StorageError (World B Unit) StoreReply).wp _ _ w
    apply wp_bind
    unfold insert
    apply wp_bind
    refine encodeQuad_store L hw (leads_breaks hsaved rfl) (by rw [← hsaved.isSome]; exact hallow) (fun s ids e hle he hs' => ?_)
    have hshows := hs.grow hle
    refine write_store (w := { w with store := s }) L hs' (leads_breaks hsaved rfl) (fun s' hs'' => wp_pure ?_)
    refine leads_wrote hsaved hb ?_ hs'' rfl ⟨rfl, rfl⟩ (hshows.insert he)
    exact decide_eq_true_iff.trans (not_congr (hshows.mem_iff he))
  | remove q =>
    change (remove q >>= fun b => pure (.bool b) : Eff StorageError (World B Unit) StoreReply).wp _ _ w
    apply wp_bind
    unfold remove
    apply wp_bind
    apply lookupQuad_reads L hw (leads_unread L hw hs hsaved hb rfl)
    cases hq : h.ids.quad q with
    | none =>
      have hnot := hs.not_mem hq
      refine wp_pure (wp_pure (leads_wrote hsaved hb ?_ hw rfl ⟨rfl, rfl⟩ ?_))
      · exact iff_of_false Bool.false_ne_true hnot
      · rw [show (a.after (.remove q)).quads = a.quads from sdiff_eq_left.2 (Set.disjoint_singleton_right.2 hnot)]
        exact hs
    | some e =>
      refine write_store L hw (leads_breaks hsaved rfl) (fun s hs' => wp_pure ?_)
      refine leads_wrote hsaved hb ?_ hs' rfl ⟨rfl, rfl⟩ (hs.remove hq)
      exact decide_eq_true_iff.trans (hs.mem_iff hq)
  | insertNamedGraph g =>
    change (insertNamedGraph g >>= fun b => pure (.bool b) : Eff StorageError (World B Unit) StoreReply).wp _ _ w
    apply wp_bind
    unfold insertNamedGraph
    apply wp_bind
    refine encodeGraph_store L hw (leads_breaks hsaved rfl) (fun s ids i hle hi hs' => ?_)
    have hshows := hs.grow hle
    cases i with
    | none =>
      have hdef : g = .defaultGraph := Ids.graph_inj hi rfl
      refine wp_pure (wp_pure (leads_wrote hsaved hb ?_ hs' rfl ⟨rfl, rfl⟩ ?_))
      · exact iff_of_false Bool.false_ne_true (fun hg => hg.1 hdef)
      · rw [show (a.after (.insertNamedGraph g)).graphs = a.graphs by rw [hdef]; exact Set.union_empty _]
        exact hshows
    | some i =>
      refine write_store (w := { w with store := s }) L hs' (leads_breaks hsaved rfl) (fun s' hs'' => wp_pure ?_)
      refine leads_wrote hsaved hb ?_ hs'' rfl ⟨rfl, rfl⟩ (hshows.insertNamedGraph hi)
      have hdef : g ≠ .defaultGraph := fun heq => by rw [heq] at hi; cases hi
      exact decide_eq_true_iff.trans ((not_congr (hshows.graph_iff hi)).trans (and_iff_right hdef).symm)
  | removeNamedGraph g =>
    change (removeNamedGraph g >>= fun b => pure (.bool b) : Eff StorageError (World B Unit) StoreReply).wp _ _ w
    apply wp_bind
    unfold removeNamedGraph
    apply wp_bind
    apply lookupGraphName_reads L hw (leads_unread L hw hs hsaved hb rfl)
    have hnone : h.ids.graph g = none ∨ h.ids.graph g = some none →
        Leads Sim Open a (.removeNamedGraph g) (.bool false) w := by
      intro hg
      refine leads_wrote hsaved hb (iff_of_false Bool.false_ne_true (hs.not_graph hg)) hw rfl ⟨rfl, rfl⟩ ?_
      obtain ⟨hquads, hgraphs⟩ := hs.no_graph hg
      rw [show (a.after (.removeNamedGraph g)).quads = a.quads from hquads, show (a.after (.removeNamedGraph g)).graphs = a.graphs from hgraphs]
      exact hs
    cases hg : h.ids.graph g with
    | none => exact wp_pure (wp_pure (hnone (.inl hg)))
    | some i =>
      cases i with
      | none => exact wp_pure (wp_pure (hnone (.inr hg)))
      | some i =>
        refine write_store L hw (leads_breaks hsaved rfl) (fun s hs' => wp_pure ?_)
        refine leads_wrote hsaved hb ?_ hs' rfl ⟨rfl, rfl⟩ (hs.removeNamedGraph hg)
        exact decide_eq_true_iff.trans (hs.graph_iff hg)
  | contains q =>
    change (contains q >>= fun b => pure (.bool b) : Eff StorageError (World B Unit) StoreReply).wp _ _ w
    apply wp_bind
    exact contains_reads L hw (fun e => leads_unchanged hw hs hsaved hb (.inr rfl) (fun _ h => by cases h)) hs
      (fun b hans => wp_pure (leads_read hw hs hsaved hb hans rfl))
  | containsNamedGraph g =>
    change (containsNamedGraph g >>= fun b => pure (.bool b) : Eff StorageError (World B Unit) StoreReply).wp _ _ w
    apply wp_bind
    exact containsNamedGraph_store L hw (fun e => leads_unchanged hw hs hsaved hb (.inr rfl) (fun _ h => by cases h)) hs
      (fun b hans => wp_pure (leads_read hw hs hsaved hb hans rfl))
  | iter =>
    change (iter >>= fun qs => pure (.quads qs) : Eff StorageError (World B Unit) StoreReply).wp _ _ w
    apply wp_bind
    exact iter_reads L hw (fun e => leads_unchanged hw hs hsaved hb (.inr rfl) (fun _ h => by cases h)) hs
      (fun qs hnodup hmem => wp_pure (leads_read hw hs hsaved hb ⟨hnodup, hmem⟩ rfl))
  | namedGraphs =>
    change (graphNames >>= fun gs => pure (.graphs gs) : Eff StorageError (World B Unit) StoreReply).wp _ _ w
    apply wp_bind
    exact graphNames_reads L hw (fun e => leads_unchanged hw hs hsaved hb (.inr rfl) (fun _ h => by cases h)) hs
      (fun gs hmem => wp_pure (leads_read hw hs hsaved hb hmem rfl))
  | len =>
    change (len >>= fun n => pure (.len n) : Eff StorageError (World B Unit) StoreReply).wp _ _ w
    apply wp_bind
    refine wp_reads (fun n hn => ?_) (fun e he => by cases he)
    cases hn
    exact wp_pure (leads_read hw hs hsaved hb ((L.len hw).trans hs.ncard) rfl)
  | begin =>
    change (begin >>= fun _ => pure .done : Eff StorageError (World B Unit) StoreReply).wp _ _ w
    apply wp_bind
    refine begin_wp L hw (fun s hnone hs' => wp_pure ?_)
      (fun e => leads_unchanged hw hs hsaved hb (.inr rfl) (fun _ h => by cases h))
    have hisSome := hsaved.isSome
    rw [hnone] at hisSome
    refine ⟨a.after .begin, .answered (fun h => by rw [hb] at h; cases h) (Option.not_isSome_iff_eq_none.1 (by rw [hisSome]; simp)),
      .standing hs' ⟨hs.decodes, hs.catalogued, hs.all, hs.names⟩ (.some ⟨hs.decodes, hs.catalogued, hs.all, hs.names⟩) hb⟩
  | commit lands =>
    change (commit lands >>= fun _ => pure .done : Eff StorageError (World B Unit) StoreReply).wp _ _ w
    apply wp_bind
    obtain ⟨c, hc⟩ := Option.isSome_iff_exists.1 (hsaved.isSome.symm.trans hallow.2)
    obtain ⟨p, hp, hback⟩ := hsaved.back hc
    refine commit_wp L hw hc (fun s hs' => wp_pure ?_) (fun e s ids hle hs' => ?_)
    · exact ⟨a.after (.commit lands), .answered (fun h => by rw [hb] at h; cases h) trivial,
        .standing hs' ⟨hs.decodes, hs.catalogued, hs.all, hs.names⟩ .none hb⟩
    · refine ⟨a.back, .lost, ?_⟩
      unfold Ledger.back
      rw [hp]
      exact .standing hs' (hback.grow hle) .none rfl
  | rollback =>
    change (rollback >>= fun _ => pure .done : Eff StorageError (World B Unit) StoreReply).wp _ _ w
    apply wp_bind
    obtain ⟨c, hc⟩ := Option.isSome_iff_exists.1 (hsaved.isSome.symm.trans hallow)
    obtain ⟨p, hp, hback⟩ := hsaved.back hc
    refine rollback_wp L (L.opened hw hc) (fun s ids hle hs' => wp_pure ?_)
    refine ⟨a.back, .answered (fun _ => rfl) trivial, ?_⟩
    unfold Ledger.back
    rw [hp]
    exact .standing hs' (hback.grow hle) .none rfl

end

/-! ### Once something has failed -/

theorem quiet_contains (q : Quad) : Quiet (contains q : Eff StorageError (World B Unit) Bool) := by
  refine (quiet_lookupQuad q).bind (fun e => ?_)
  cases e with
  | none => exact quiet_pure _
  | some e => exact quiet_reads _

/-- What interning and writing keep, every call does but those that open a scope or end one. -/
theorem call_keeps {I : World B Unit → Prop} (hI : Steady I) {c : StoreCall} (hc : c.isScope = false) :
    Keeps I (call c : Eff StorageError (World B Unit) StoreReply) := by
  cases c with
  | insert q => exact ((encodeQuad_keeps hI q).bind (fun e => write_keeps hI _)).bind (fun _ => (quiet_pure _).keeps)
  | remove q => exact (remove_keeps hI q).bind (fun _ => (quiet_pure _).keeps)
  | insertNamedGraph g => exact (insertNamedGraph_keeps hI g).bind (fun _ => (quiet_pure _).keeps)
  | removeNamedGraph g => exact (removeNamedGraph_keeps hI g).bind (fun _ => (quiet_pure _).keeps)
  | contains q => exact ((quiet_contains q).bind (fun _ => quiet_pure _)).keeps
  | containsNamedGraph g => exact ((quiet_containsNamedGraph g).bind (fun _ => quiet_pure _)).keeps
  | iter => exact (((quiet_reads _).bind (fun _ => quiet_mapM quiet_decodeQuad)).bind (fun _ => quiet_pure _)).keeps
  | namedGraphs => exact (((quiet_reads _).bind (fun _ => quiet_mapM (fun g => quiet_decodeGraph (some g)))).bind (fun _ => quiet_pure _)).keeps
  | len => exact ((quiet_reads _).bind (fun _ => quiet_pure _)).keeps
  | begin | commit | rollback => cases hc

theorem call_stuck (L : B.Lawful Sim Open) {w : World B Unit} {a : Ledger} {c : StoreCall} {c₀ : Contents × Ids}
    {p : Set Quad × Set GraphName} (ho : Open w.store c₀) (hp : a.saved = some p) (hshows : Held.Shows ⟨c₀.1, c₀.2, none⟩ p.1 p.2)
    (hb : a.broken = true) (hallow : a.Allows c) :
    (call c : Eff StorageError (World B Unit) StoreReply).wp (Leads Sim Open a c) (fun e => Leads Sim Open a c (.failed e)) w := by
  cases hc : c.isScope with
  | false =>
    have hleads : ∀ r (w' : World B Unit), Open w'.store c₀ → Leads Sim Open a c r w' :=
      fun r w' ho' => ⟨a, .broken hb hc, .stuck ho' hp hshows hb⟩
    exact ((call_keeps (steady_open L c₀) hc).wp ho).mono (fun r w' ho' => hleads r w' ho') (fun e w' ho' => hleads _ w' ho')
  | true =>
    cases c with
    | rollback =>
      change (rollback >>= fun _ => pure .done : Eff StorageError (World B Unit) StoreReply).wp _ _ w
      apply wp_bind
      refine rollback_wp L ho (fun s ids hle hs' => wp_pure ?_)
      refine ⟨a.back, .answered (fun _ => rfl) trivial, ?_⟩
      unfold Ledger.back
      rw [hp]
      exact .standing hs' (hshows.grow hle) .none rfl
    | begin =>
      rw [show a.broken = false from hallow] at hb
      cases hb
    | commit lands =>
      rw [hallow.1] at hb
      cases hb
    | insert | remove | insertNamedGraph | removeNamedGraph | contains | containsNamedGraph | iter | namedGraphs | len => cases hc

/-- A call that is allowed is a step of the ledger. -/
theorem serve_steps (L : B.Lawful Sim Open) {w w' : World B Unit} {a : Ledger} {c : StoreCall} {r : StoreReply}
    (ha : Ledger.Of Sim Open w.store a) (hallow : a.Allows c) (h : w.serve c = some (r, w')) :
    ∃ a', a.Steps c r a' ∧ Ledger.Of Sim Open w'.store a' := by
  have hcall : (call c : Eff StorageError (World B Unit) StoreReply).wp (Leads Sim Open a c) (fun e => Leads Sim Open a c (.failed e)) w := by
    cases ha with
    | standing hs hshows hsaved hb => exact call_standing L hs hshows hsaved hb hallow
    | stuck ho hp hshows hb => exact call_stuck L ho hp hshows hb hallow
  obtain ⟨⟨res, w₁⟩, hrun, heq⟩ := Option.map_eq_some_iff.1 h
  cases heq
  cases res with
  | ok r => exact hcall.ok hrun
  | error e => exact hcall.error hrun

theorem serveAll_cons {w w' : World B Unit} {c : StoreCall} {cs : List StoreCall} {rs : List StoreReply}
    (h : w.serveAll (c :: cs) = some (rs, w')) :
    ∃ r rs' w₁, w.serve c = some (r, w₁) ∧ w₁.serveAll cs = some (rs', w') ∧ rs = r :: rs' := by
  simp only [serveAll, Option.bind_eq_bind, Option.bind_eq_some_iff, Prod.exists] at h
  obtain ⟨r, w₁, hserve, rs', w₂, hrest, heq⟩ := h
  cases heq
  exact ⟨r, rs', w₁, hserve, hrest, rfl⟩

/-- A run of calls is a run of the ledger. -/
theorem serveAll_runs (L : B.Lawful Sim Open) {w w' : World B Unit} {a : Ledger} {cs : List StoreCall} {rs : List StoreReply}
    (ha : Ledger.Of Sim Open w.store a) (h : w.serveAll cs = some (rs, w')) (hallow : a.Permits (cs.zip rs)) :
    ∃ a', a.Runs (cs.zip rs) a' ∧ Ledger.Of Sim Open w'.store a' := by
  induction cs generalizing w a rs with
  | nil =>
    cases h
    exact ⟨a, .nil, ha⟩
  | cons c cs ih =>
    obtain ⟨r, rs', w₁, hserve, hrest, rfl⟩ := serveAll_cons h
    obtain ⟨a₁, hstep, ha₁⟩ := serve_steps L ha hallow.1 hserve
    obtain ⟨a', hruns, ha'⟩ := ih ha₁ hrest (hallow.2 a₁ hstep)
    exact ⟨a', .cons hstep hruns, ha'⟩

/-- An empty store has the empty ledger. -/
theorem of_empty {s : B.State} {ids : Ids} (hs : Sim s ⟨.empty, ids, none⟩) : Ledger.Of Sim Open s .empty := by
  have hall : (⟨.empty, ids, none⟩ : Held).all = ∅ := by
    refine Set.eq_empty_of_forall_notMem ?_
    rintro q ⟨e, -, he⟩
    cases he
  have hnames : (⟨.empty, ids, none⟩ : Held).names = ∅ := by
    refine Set.eq_empty_of_forall_notMem ?_
    rintro g ⟨i, hi, -⟩
    cases hi
  refine .standing hs ⟨fun e he => ?_, fun g hg => ?_, hall, hnames⟩ .none rfl
  · cases he
  · cases hg

end World

end Holos
