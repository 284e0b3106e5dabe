import Holos.Engine.SessionWrites
import Holos.Server.Gsp
import Holos.Store.MemoryBackend
/-!
# What the Graph Store Protocol lets a principal see

Two stores that differ by writes of quads the policy refuses to read. The document is the same.
Whether the graph exists is the same too, but where a refused quad brings its graph into the
catalogue: the catalogue is asked without the policy.
-/

namespace Holos

open Lib Lib.Eff Security Engine

/-- A named graph is in the catalogue. -/
def Held.Catalogues (h : Held) (n : NamedNode) : Prop := ∃ g ∈ h.contents.graphs, h.ids (.namedNode n) = some g

variable {B : Backend} {Sim : B.State → Held → Prop} {Open : B.State → Contents × Ids → Prop} {ρ : Type}
variable {h h₁ h₂ : Held} {p : CompiledPolicy} {ops : List Index.Op}

/-! ## Writes of refused quads -/

/-- A write of one quad that the policy refuses to read. -/
def Refused (p : CompiledPolicy) (ids : Ids) (op : Index.Op) : Prop :=
  ∃ q e, ids.quad q = some e ∧ (op = .insert e ∨ op = .remove e) ∧ p.permitsQuad e Modes.read = false

/-- A refused write touches no quad that is allowed. -/
theorem Refused.quads_iff {ids : Ids} {op : Index.Op} (hr : Refused p ids op) (c : Contents) {e : EncodedQuad}
    (he : p.permitsQuad e Modes.read = true) : e ∈ (c.apply op).quads ↔ e ∈ c.quads := by
  obtain ⟨-, e', -, hop, hno⟩ := hr
  have hne : e ≠ e' := by
    rintro rfl
    rw [he] at hno
    cases hno
  rcases hop with rfl | rfl
  · exact Finset.mem_insert.trans (or_iff_right hne)
  · exact Finset.mem_erase.trans (and_iff_right hne)

/-- It adds a graph to the catalogue by being put there, and takes none away. -/
theorem Refused.graphs_iff {ids : Ids} {op : Index.Op} (hr : Refused p ids op) (c : Contents) {g : TermId} :
    g ∈ (c.apply op).graphs ↔ g ∈ c.graphs ∨ ∃ e, op = .insert e ∧ e.graphName = some g := by
  obtain ⟨-, e, -, hop, -⟩ := hr
  rcases hop with rfl | rfl
  · change g ∈ Index.record c.graphs e.graphName ↔ _
    cases he : e.graphName with
    | none => simp [Index.record, he]
    | some g' =>
      simp only [Index.record, Finset.mem_insert, Index.Op.insert.injEq, exists_eq_left', he, Option.some.injEq]
      rw [or_comm, @eq_comm _ g g']
  · simp [Contents.apply, Contents.remove]

theorem refused_quads_iff {ids : Ids} (hops : ∀ op ∈ ops, Refused p ids op) (c : Contents) {e : EncodedQuad}
    (he : p.permitsQuad e Modes.read = true) : e ∈ (ops.foldl Contents.apply c).quads ↔ e ∈ c.quads := by
  induction ops generalizing c with
  | nil => rfl
  | cons op ops ih =>
    rw [List.foldl_cons, ih (fun op' hop' => hops op' (List.mem_cons_of_mem _ hop'))]
    exact (hops op List.mem_cons_self).quads_iff c he

theorem refused_graphs_iff {ids : Ids} (hops : ∀ op ∈ ops, Refused p ids op) (c : Contents) {g : TermId} :
    g ∈ (ops.foldl Contents.apply c).graphs ↔ g ∈ c.graphs ∨ ∃ e, .insert e ∈ ops ∧ e.graphName = some g := by
  induction ops generalizing c with
  | nil => simp
  | cons op ops ih =>
    rw [List.foldl_cons, ih (fun op' hop' => hops op' (List.mem_cons_of_mem _ hop')),
      (hops op List.mem_cons_self).graphs_iff c, or_assoc]
    simp only [List.mem_cons, or_and_right, exists_or, @eq_comm _ op]

/-- One store as another is after writes of quads the policy refuses to read. -/
structure Beside (p : CompiledPolicy) (ops : List Index.Op) (h₁ h₂ : Held) : Prop where
  ids : h₁.ids ≤ h₂.ids
  contents : h₂.contents = ops.foldl Contents.apply h₁.contents
  refused : ∀ op ∈ ops, Refused p h₂.ids op

namespace Beside

theorem shows_iff (hb : Beside p ops h₁ h₂) (hd : h₁.Decodes) {name : GraphName} {e : EncodedQuad} :
    Shows p h₁ name e ↔ Shows p h₂ name e := by
  have hquads : p.decideQuad e Modes.read = .allow → (e ∈ h₂.contents.quads ↔ e ∈ h₁.contents.quads) := by
    intro hallow
    rw [hb.contents]
    exact refused_quads_iff hb.refused h₁.contents (decide_eq_true hallow)
  constructor
  · exact fun hs => ⟨(hquads hs.allowed).2 hs.stored, Ids.graph_mono hb.ids hs.graph, hs.admitted, hs.allowed⟩
  · intro hs
    have hmem := (hquads hs.allowed).1 hs.stored
    refine ⟨hmem, ?_, hs.admitted, hs.allowed⟩
    -- the row had its graph's id already
    obtain ⟨q, hq⟩ := hd e hmem
    have hgraph := (Ids.quad_eq_some.1 hq).2.2.2
    rw [Ids.graph_inj hs.graph (Ids.graph_mono hb.ids hgraph)]
    exact hgraph

/-- A view lists the same quads in the same order. -/
theorem listed_eq (hb : Beside p ops h₁ h₂) (hd : h₁.Decodes) (hO : B.Ordered Sim) {name : GraphName} {rows₁ rows₂ : List EncodedQuad}
    {qs₁ qs₂ : List Quad} (hl₁ : Listed B Sim p h₁ name rows₁ qs₁) (hl₂ : Listed B Sim p h₂ name rows₂ qs₂) : qs₁ = qs₂ := by
  have hperm : rows₁.Perm rows₂ := (List.perm_ext_iff_of_nodup hl₁.nodup hl₂.nodup).2 (fun e =>
    ((hl₁.shown e).trans (hb.shows_iff hd)).trans (hl₂.shown e).symm)
  have hrows : rows₁ = rows₂ := by
    cases rows₁ with
    | nil => exact (List.nil_perm.1 hperm).symm
    | cons e rows =>
      have hs := (hl₁.shown e).1 List.mem_cons_self
      have hsort₁ := hl₁.ordered hO _ hs.graph
      have hsort₂ := hl₂.ordered hO _ (Ids.graph_mono hb.ids hs.graph)
      exact hperm.eq_of_pairwise (fun a b _ _ hab hba => absurd hba (lt_asymm hab)) hsort₁ hsort₂
  have hunique : Relator.RightUnique (fun (e : EncodedQuad) (q : Quad) => h₂.ids.quad q = some e) :=
    fun _ _ _ hq hq' => Ids.quad_inj hq hq'
  subst hrows
  exact hunique.forall₂ (hl₁.decoded.imp (fun _ _ hq => Ids.quad_mono hb.ids hq)) hl₂.decoded

theorem decodes (hb : Beside p ops h₁ h₂) (hd : h₁.Decodes) : h₂.Decodes := by
  have hfold : ∀ (ops : List Index.Op) (c : Contents), (∀ op ∈ ops, Refused p h₂.ids op) →
      (∀ e ∈ c.quads, ∃ q, h₂.ids.quad q = some e) → ∀ e ∈ (ops.foldl Contents.apply c).quads, ∃ q, h₂.ids.quad q = some e := by
    intro ops
    induction ops with
    | nil => exact fun _ _ hc => hc
    | cons op ops ih =>
      intro c hops hc
      refine ih (c.apply op) (fun op' hop' => hops op' (List.mem_cons_of_mem _ hop')) (fun e he => ?_)
      obtain ⟨q, e', hq, rfl | rfl, -⟩ := hops op List.mem_cons_self
      · rcases Finset.mem_insert.1 he with rfl | he
        · exact ⟨q, hq⟩
        · exact hc e he
      · exact hc e (Finset.mem_of_mem_erase he)
  intro e he
  rw [hb.contents] at he
  refine hfold ops h₁.contents hb.refused (fun e he => ?_) e he
  obtain ⟨q, hq⟩ := hd e he
  exact ⟨q, Ids.quad_mono hb.ids hq⟩

/-- A graph that comes into the catalogue is the graph of a quad that was put there. -/
theorem catalogues_iff (hb : Beside p ops h₁ h₂) (hc : h₁.Catalogued) {n : NamedNode} :
    h₂.Catalogues n ↔ h₁.Catalogues n ∨ ∃ e, .insert e ∈ ops ∧ h₂.ids.graph (.namedNode n) = some e.graphName := by
  unfold Held.Catalogues
  rw [hb.contents]
  simp only [refused_graphs_iff hb.refused]
  constructor
  · rintro ⟨g, hg | ⟨e, he, heg⟩, hn⟩
    · obtain ⟨name, hname⟩ := hc g hg
      have heq : name = .namedNode n :=
        Ids.graph_inj (Ids.graph_mono hb.ids hname) (Option.map_eq_some_iff.2 ⟨g, hn, rfl⟩)
      subst heq
      obtain ⟨g', hg', heq⟩ := Option.map_eq_some_iff.1 hname
      cases heq
      exact .inl ⟨g, hg, hg'⟩
    · exact .inr ⟨e, he, Option.map_eq_some_iff.2 ⟨g, hn, heg.symm⟩⟩
  · rintro (⟨g, hg, hn⟩ | ⟨e, he, hn⟩)
    · exact ⟨g, .inl hg, hb.ids _ _ hn⟩
    · obtain ⟨g, hg, heg⟩ := Option.map_eq_some_iff.1 hn
      exact ⟨g, .inr ⟨e, he, heg.symm⟩, hg⟩

end Beside

namespace Gsp

variable {w w' : World B ρ}

/-! ## What each request answers -/

/-- What can go wrong with a read under a policy: the store, or the policy refuses aloud. -/
def Failed (p : CompiledPolicy) (e : EngineError) : Prop := e.ofStore = true ∨ p.semantics = .fail

theorem visible_reads (L : B.Lawful Sim Open) (hs : Sim w.store h) (hd : h.Decodes) {target : Target}
    {Q : List Quad → World B ρ → Prop} {E : EngineError → World B ρ → Prop} (hE : ∀ e, Failed w.session.compiled e → E e w)
    (hQ : ∀ rows qs, Listed B Sim w.session.compiled h target.graphName rows qs → Q qs w) :
    wp (visible target : Eff EngineError (World B ρ) (List Quad)) Q E w :=
  wp_mapError (visibleQuads_reads L hs hd (fun _ => hE _ (.inl rfl)) (fun hfail => hE _ (.inr hfail)) hQ)

/-- A graph exists for a session that sees something in it, and for every session if it is in the
catalogue. -/
def Target.Exists (p : CompiledPolicy) (h : Held) (target : Target) : Prop :=
  (∃ e, Shows p h target.graphName e) ∨ ∃ n, target = .named n ∧ h.Catalogues n

theorem exists_reads (L : B.Lawful Sim Open) (hs : Sim w.store h) (hd : h.Decodes) {target : Target} :
    wp («exists» target : Eff EngineError (World B ρ) Bool)
      (fun b w' => w' = w ∧ (b = true ↔ target.Exists w.session.compiled h)) (fun e _ => Failed w.session.compiled e) w := by
  unfold «exists»
  apply wp_bind
  refine visible_reads L hs hd (fun _ he => he) (fun rows qs hl => ?_)
  apply wp_ite
  · intro hne
    refine wp_pure ⟨rfl, iff_of_true rfl (.inl ?_)⟩
    by_contra hno
    rw [hl.isEmpty_iff.2 (not_exists.1 hno)] at hne
    cases hne
  · intro hempty
    have hno : ¬ ∃ e, Shows w.session.compiled h target.graphName e :=
      not_exists.2 (hl.isEmpty_iff.1 (by simpa using hempty))
    cases target with
    | default =>
      refine wp_pure ⟨rfl, iff_of_false Bool.false_ne_true ?_⟩
      rintro (hshow | ⟨n, hn, -⟩)
      · exact hno hshow
      · cases hn
    | named n =>
      refine World.containsNamedGraph_reads L hs (fun _ => .inl rfl) ⟨rfl, ?_⟩
      rw [decide_eq_true_iff]
      constructor
      · exact fun hcat => .inr ⟨n, rfl, hcat⟩
      · rintro (hshow | ⟨n', hn, hcat⟩)
        · exact absurd hshow hno
        · cases hn
          exact hcat

/-- The document of a list of quads, or what the serialiser has against them. -/
def Formats.document (F : Formats) (format : F.Format) (qs : List Quad) : Except EngineError F.Bytes :=
  match F.serialize format (qs.map Quad.triple) with
  | .ok d => .ok d
  | .error m => .error (.io m)

theorem read_reads (L : B.Lawful Sim Open) (hs : Sim w.store h) (hd : h.Decodes) (F : Formats) {target : Target} {format : F.Format} :
    wp (read F target format : Eff EngineError (World B ρ) F.Bytes)
      (fun d w' => w' = w ∧ ∃ rows qs, Listed B Sim w.session.compiled h target.graphName rows qs ∧ F.document format qs = .ok d)
      (fun e _ => Failed w.session.compiled e ∨
        ∃ rows qs, Listed B Sim w.session.compiled h target.graphName rows qs ∧ F.document format qs = .error e) w := by
  unfold read
  apply wp_bind
  refine visible_reads L hs hd (fun _ he => .inl he) (fun rows qs hl => ?_)
  have hdoc : F.document format qs = match F.serialize format (qs.map Quad.triple) with
    | .ok d => .ok d
    | .error m => .error (.io m) := rfl
  cases hser : F.serialize format (qs.map Quad.triple) with
  | ok d =>
    rw [hser] at hdoc
    exact wp_pure ⟨rfl, rows, qs, hl, hdoc⟩
  | error m =>
    rw [hser] at hdoc
    exact wp_throw (.inr ⟨rows, qs, hl, hdoc⟩)

/-- Not a failure of the store. -/
def Answered {α : Type} (r : Except EngineError α) : Prop := ∀ e, r = .error e → e.ofStore = false

theorem Answered.not_failed {α : Type} {r : Except EngineError α} (ha : Answered r) (hp : p.semantics = .filter) {e : EngineError}
    (he : r = .error e) : ¬ Failed p e := by
  rintro (hstore | hfail)
  · rw [ha e he] at hstore
    cases hstore
  · rw [hp] at hfail
    cases hfail

section
variable (L : B.Lawful Sim Open) (hs : Sim w.store h) (hd : h.Decodes) (hp : w.session.compiled.semantics = .filter) {target : Target}
include L hs hd hp

theorem exists_answers {r : Except EngineError Bool} (hrun : («exists» target).exec w = some (r, w')) (ha : Answered r) :
    ∃ b, r = .ok b ∧ (b = true ↔ target.Exists w.session.compiled h) := by
  cases r with
  | ok b => exact ⟨b, rfl, ((exists_reads L hs hd).ok hrun).2⟩
  | error e => exact absurd ((exists_reads L hs hd).error hrun) (ha.not_failed hp rfl)

theorem read_answers {F : Formats} {format : F.Format} {r : Except EngineError F.Bytes} (hrun : (read F target format).exec w = some (r, w'))
    (ha : Answered r) :
    ∃ rows qs, Listed B Sim w.session.compiled h target.graphName rows qs ∧ r = F.document format qs := by
  cases r with
  | ok d =>
    obtain ⟨-, rows, qs, hl, hdoc⟩ := (read_reads L hs hd F).ok hrun
    exact ⟨rows, qs, hl, hdoc.symm⟩
  | error e =>
    obtain ⟨rows, qs, hl, hdoc⟩ := ((read_reads L hs hd F).error hrun).resolve_left (ha.not_failed hp rfl)
    exact ⟨rows, qs, hl, hdoc.symm⟩

/-- A `GET` is the document of a graph that exists. -/
theorem get_answers {F : Formats} {format : F.Format} {r : Except EngineError (Response F)}
    (hrun : (get F target format).exec w = some (r, w')) (ha : Answered r) :
    (¬ target.Exists w.session.compiled h ∧ r = .ok .notFound) ∨
      (target.Exists w.session.compiled h ∧ ∃ rows qs, Listed B Sim w.session.compiled h target.graphName rows qs ∧
        r = (F.document format qs).map .ok) := by
  have hspec : wp (get F target format : Eff EngineError (World B ρ) (Response F))
      (fun a _ => (¬ target.Exists w.session.compiled h ∧ a = .notFound) ∨ (target.Exists w.session.compiled h ∧
        ∃ rows qs, Listed B Sim w.session.compiled h target.graphName rows qs ∧ (F.document format qs).map .ok = .ok a))
      (fun e _ => Failed w.session.compiled e ∨ (target.Exists w.session.compiled h ∧
        ∃ rows qs, Listed B Sim w.session.compiled h target.graphName rows qs ∧
          (F.document format qs).map (Response.ok (F := F)) = .error e)) w := by
    unfold get
    apply wp_bind
    refine (exists_reads L hs hd).mono (fun b w₁ ⟨hw₁, hb⟩ => ?_) (fun e w₁ he => .inl he)
    subst hw₁
    apply wp_ite
    · intro hno
      refine wp_pure (.inl ⟨fun hex => ?_, rfl⟩)
      rw [hb.2 hex] at hno
      cases hno
    · intro hyes
      have hex := hb.1 (by simpa using hyes)
      apply wp_bind
      refine (read_reads L hs hd F).mono (fun d w₂ hd₂ => ?_) (fun e w₂ he => he.imp_right (fun ⟨rows, qs, hl, hdoc⟩ => ?_))
      · obtain ⟨-, rows, qs, hl, hdoc⟩ := hd₂
        exact wp_pure (.inr ⟨hex, rows, qs, hl, by rw [hdoc]; rfl⟩)
      · exact ⟨hex, rows, qs, hl, by rw [hdoc]; rfl⟩
  cases r with
  | ok a =>
    rcases hspec.ok hrun with ⟨hno, rfl⟩ | ⟨hex, rows, qs, hl, hdoc⟩
    · exact .inl ⟨hno, rfl⟩
    · exact .inr ⟨hex, rows, qs, hl, hdoc.symm⟩
  | error e =>
    obtain ⟨hex, rows, qs, hl, hdoc⟩ := (hspec.error hrun).resolve_left (ha.not_failed hp rfl)
    exact .inr ⟨hex, rows, qs, hl, hdoc.symm⟩

end

/-! ## Two stores apart by refused quads -/

/-- The graph shows nothing and was not there, and a refused quad is put in it. -/
def Leaks (p : CompiledPolicy) (ops : List Index.Op) (h₁ h₂ : Held) (target : Target) : Prop :=
  ∃ n e, target = .named n ∧ .insert e ∈ ops ∧ h₂.ids.graph (.namedNode n) = some e.graphName ∧ ¬ h₁.Catalogues n ∧
    ∀ r, ¬ Shows p h₁ (.namedNode n) r

theorem exists_iff_of_beside (hb : Beside p ops h₁ h₂) (hd : h₁.Decodes) (hc : h₁.Catalogued) {target : Target} :
    target.Exists p h₂ ↔ target.Exists p h₁ ∨ Leaks p ops h₁ h₂ target := by
  have hshow : (∃ e, Shows p h₂ target.graphName e) ↔ ∃ e, Shows p h₁ target.graphName e :=
    exists_congr (fun _ => (hb.shows_iff hd).symm)
  unfold Target.Exists Leaks
  rw [hshow]
  constructor
  · rintro (hs | ⟨n, rfl, hn⟩)
    · exact .inl (.inl hs)
    · rcases (hb.catalogues_iff hc).1 hn with hn | ⟨e, he, hg⟩
      · exact .inl (.inr ⟨n, rfl, hn⟩)
      · by_cases hex : (∃ r, Shows p h₁ (.namedNode n) r) ∨ h₁.Catalogues n
        · exact .inl (hex.imp_right (fun hn => ⟨n, rfl, hn⟩))
        · rw [not_or, not_exists] at hex
          exact .inr ⟨n, e, rfl, he, hg, hex.2, hex.1⟩
  · rintro ((hs | ⟨n, rfl, hn⟩) | ⟨n, e, rfl, he, hg, -, -⟩)
    · exact .inl hs
    · exact .inr ⟨n, rfl, (hb.catalogues_iff hc).2 (.inl hn)⟩
    · exact .inr ⟨n, rfl, (hb.catalogues_iff hc).2 (.inr ⟨e, he, hg⟩)⟩

theorem Leaks.not_exists {target : Target} (hl : Leaks p ops h₁ h₂ target) : ¬ target.Exists p h₁ := by
  obtain ⟨n, e, rfl, -, -, hcat, hno⟩ := hl
  rintro (⟨r, hr⟩ | ⟨n', hn, hcat'⟩)
  · exact hno r hr
  · cases hn
    exact hcat hcat'

/-- A quad put in by somebody else, in a commit of its own. -/
def putIn (quad : Quad) : Eff StorageError (World B ρ) Unit := do
  World.begin
  let _ ← World.insert quad
  World.commit true

theorem putIn_beside (L : B.Lawful Sim Open) (hs : Sim w.store h) {q : Quad}
    (hp : ∀ e, p.permitsQuad e Modes.read = false) :
    wp (putIn q : Eff StorageError (World B ρ) Unit)
      (fun _ w' => ∃ h' e, Sim w'.store h' ∧ h'.saved = none ∧ h'.ids.quad q = some e ∧ Beside p [.insert e] h h')
      (fun _ _ => True) w := by
  unfold putIn
  apply wp_bind
  refine World.begin_wp L hs (fun s _ hs₁ => ?_) (fun _ => trivial)
  apply wp_bind
  have hins := @World.insert_wp B Sim Open ρ StorageError _ { w with store := s } _ _ (fun _ => True) L hs₁ rfl trivial q
  refine (hins (fun s₂ ids e hle he hs₂ => ?_)).mono (fun _ _ h => h) (fun _ _ _ => trivial)
  refine World.commit_wp (w := { w with store := s₂ }) L hs₂ rfl (fun s₃ hs₃ => ?_) (fun _ _ _ _ _ => trivial)
  refine ⟨_, e, hs₃, rfl, he, hle, rfl, fun op hop => ?_⟩
  exact ⟨q, e, he, .inl (List.mem_singleton.1 hop), hp e⟩

namespace Hidden

abbrev Memory := MemoryStorage.backend Dictionary.bare

/-- A session that may see nothing. -/
def blind : Session :=
  ⟨⟨"urn:reader", ∅, [], none⟩, ⟨.deny, .filter, [], [], Label.default⟩, ⟨.deny, .filter, none, [], [], [], [], false, 0, []⟩⟩

def secret : Quad := ⟨.namedNode "urn:a", "urn:p", .namedNode "urn:b", .namedNode "urn:g"⟩

def before : World Memory Unit := ⟨.new, blind, ()⟩

/-- The store with the secret in it. -/
def after : World Memory Unit := match (putIn secret).exec before with
  | some (_, w) => w
  | none => before

/-- Documents with a byte for each triple. -/
def counted : Formats := ⟨Unit, Nat, fun _ _ _ => .error "", fun _ ts => .ok ts.length⟩

theorem putIn_ran : ((putIn secret).exec before).map Prod.fst = some (.ok ()) := by decide +kernel

theorem before_stands : MemoryStorage.Stands Dictionary.bare before.store
    ⟨.empty, MemoryStorage.idsOf Dictionary.bare_lawful Dictionary.new_valid, none⟩ :=
  MemoryStorage.new_stands Dictionary.bare_lawful

theorem blind_refuses (e : EncodedQuad) : blind.compiled.permitsQuad e Modes.read = false := by
  obtain ⟨s, p, o, g⟩ := e
  cases g <;> rfl

theorem after_beside : ∃ h' e, MemoryStorage.Stands Dictionary.bare after.store h' ∧ h'.saved = none ∧ h'.ids.quad secret = some e ∧
    Beside blind.compiled [.insert e] ⟨.empty, MemoryStorage.idsOf Dictionary.bare_lawful Dictionary.new_valid, none⟩ h' := by
  have hblind : ∀ e, blind.compiled.permitsQuad e Modes.read = false := blind_refuses
  have hspec := putIn_beside (ρ := Unit) (w := before) (q := secret) (MemoryStorage.lawful Dictionary.bare_lawful) before_stands hblind
  obtain ⟨⟨r, w'⟩, hrun, hr⟩ := Option.map_eq_some_iff.1 putIn_ran
  cases hr
  have hafter : after = w' := by
    unfold after
    rw [hrun]
  rw [hafter]
  exact hspec.ok hrun

/-- A program that answers. -/
def answers {α : Type} (m : Eff EngineError (World Memory Unit) α) (w : World Memory Unit) : Bool :=
  match m.exec w with
  | some (.ok _, _) => true
  | _ => false

theorem of_answers {α : Type} {m : Eff EngineError (World Memory Unit) α} {w : World Memory Unit} (h : answers m w = true) :
    ∃ r w', m.exec w = some (r, w') ∧ Answered r := by
  unfold answers at h
  split at h
  · rename_i a w' hrun
    exact ⟨_, w', hrun, fun e he => by cases he⟩
  · cases h

end Hidden

end Gsp

end Holos
