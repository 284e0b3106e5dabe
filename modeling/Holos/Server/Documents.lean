import Holos.Engine.Load
import Holos.Lib.Apart
import Holos.Server.GspWrites
/-!
# Documents, and the nodes that are theirs

Every route by which a document comes in, as one call. The bulk loads rename; an update and the
Graph Store Protocol keep the labels they read, so that what keeps their nodes apart is that no
label was there before.
-/

namespace Holos

open Lib Lib.Apart Lib.Eff Security Engine

/-! ## Documents -/

/-- Where the quads of a document go. -/
inductive Placement where
  | asNamed
  | defaultTo (graph : GraphName)
  | allTo (graph : GraphName)

def Placement.put : Placement → Quad → Quad
  | .asNamed, quad => quad
  | .defaultTo graph, quad => intoGraph graph quad
  | .allTo graph, quad => { quad with graphName := graph }

/-- The labels a placement brings along, which are the caller's. -/
def Placement.labels : Placement → List String
  | .asNamed => []
  | .defaultTo graph => graph.labels
  | .allTo graph => graph.labels

/-- A document: what was read, where it goes, and what its labels become. -/
structure Document where
  quads : List Quad
  placement : Placement
  rename : String → String

namespace Document

def written (d : Document) : Set Quad := {q | ∃ q' ∈ d.quads, q = d.placement.put (q'.rename d.rename)}

def piece (d : Document) : Piece Quad String := ⟨d.written, {l | l ∈ labelsOf Quad.labels d.written ∧ l ∉ d.placement.labels}⟩

end Document

/-! ## Renaming -/

theorem NamedOrBlankNode.labels_rename (f : String → String) (s : NamedOrBlankNode) : (s.rename f).labels = s.labels.map f := by
  cases s <;> rfl

theorem Term.labels_rename (f : String → String) (t : Term) : (t.rename f).labels = t.labels.map f := by
  induction t with
  | namedNode n => rfl
  | blankNode b => rfl
  | literal l => rfl
  | triple s p o ih => simp only [Term.rename, Term.labels, NamedOrBlankNode.labels_rename, ih, List.map_append]

theorem GraphName.labels_rename (f : String → String) (g : GraphName) : (g.rename f).labels = g.labels.map f := by
  cases g <;> rfl

theorem Quad.labels_rename (f : String → String) (q : Quad) : (q.rename f).labels = q.labels.map f := by
  simp only [Quad.labels, Quad.rename, NamedOrBlankNode.labels_rename, Term.labels_rename, GraphName.labels_rename, List.map_append]

theorem NamedOrBlankNode.rename_id (s : NamedOrBlankNode) : s.rename id = s := by cases s <;> rfl

theorem Term.rename_id (t : Term) : t.rename id = t := by
  induction t with
  | namedNode n => rfl
  | blankNode b => rfl
  | literal l => rfl
  | triple s p o ih => rw [Term.rename, ih, NamedOrBlankNode.rename_id]

theorem Quad.rename_id (q : Quad) : q.rename id = q := by
  obtain ⟨s, p, o, g⟩ := q
  have hg : g.rename id = g := by cases g <;> rfl
  simp only [Quad.rename, NamedOrBlankNode.rename_id, Term.rename_id, hg]

/-- A placement adds no labels but its own. -/
theorem Placement.mem_labels_put {p : Placement} {q : Quad} {l : String} (h : l ∈ (p.put q).labels) : l ∈ q.labels ∨ l ∈ p.labels := by
  cases p with
  | asNamed => exact .inl h
  | defaultTo graph =>
    change l ∈ (intoGraph graph q).labels at h
    unfold intoGraph at h
    split at h
    · simp only [Quad.labels, List.mem_append] at h ⊢
      exact h.imp_left .inl
    · exact .inl h
  | allTo graph =>
    simp only [Placement.put, Quad.labels, List.mem_append] at h ⊢
    exact h.imp_left .inl

theorem isTriple_put (p : Placement) (q : Quad) : (p.put q).object = q.object := by
  cases p with
  | asNamed => rfl
  | defaultTo graph =>
    change (intoGraph graph q).object = _
    unfold intoGraph
    split <;> rfl
  | allTo graph => rfl

theorem Term.isTriple_rename (f : String → String) (t : Term) : (t.rename f).isTriple = t.isTriple := by
  cases t <;> rfl

/-! ## The routes -/

/-- What there is outside the program: the parser, the serialiser, the files. -/
structure Outside where
  parser : Parser
  serialize : parser.Format → List Triple → Except String parser.Bytes
  file : NamedNode → Except String (parser.Format × parser.Bytes)

abbrev Outside.formats (O : Outside) : Gsp.Formats := ⟨O.parser.Format, O.parser.Bytes, O.parser.parse, O.serialize⟩

/-- The quads of a body that parses. -/
def Outside.read (O : Outside) (format : O.parser.Format) (base : Option NamedNode) (body : O.parser.Bytes) : List Quad :=
  match O.parser.parse format base body with
  | .ok quads => quads
  | .error _ => []

inductive Route (O : Outside) where
  | bulkLoad (rename : String → String) (body : O.parser.Bytes) (format : O.parser.Format) (base : Option NamedNode)
  | bulkLoadIntoGraph (rename : String → String) (body : O.parser.Bytes) (format : O.parser.Format) (base : Option NamedNode)
      (graph : GraphName)
  | update (operations : List DataOperation)
  | merge (target : Gsp.Target) (body : O.parser.Bytes) (format : O.parser.Format) (base : Option NamedNode)
  | write (target : Gsp.Target) (documents : List (O.parser.Bytes × O.parser.Format)) (replace : Bool)

namespace Route

variable {O : Outside} {B : Backend} {ρ : Type}

def run (lands : Bool) : Route O → Eff EngineError (World B ρ) Unit
  | .bulkLoad rename body format base => do let _ ← Engine.bulkLoad O.parser rename body format base
  | .bulkLoadIntoGraph rename body format base graph => do let _ ← Engine.bulkLoadIntoGraph O.parser rename body format base graph
  | .update operations => Engine.apply O.parser O.file lands operations
  | .merge target body format base => do let _ ← Gsp.merge O.formats lands target body format base
  | .write target documents replace => do let _ ← Gsp.write O.formats lands target documents replace

/-- Whether what is read is renamed. -/
def renames : Route O → Bool
  | .bulkLoad .. => true
  | .bulkLoadIntoGraph .. => true
  | _ => false

/-- Whether a graph is cleared first. -/
def replaces : Route O → Bool
  | .write _ _ replace => replace
  | _ => false

/-- The document of one operation. -/
def operationDocument (O : Outside) : DataOperation → Document
  | .insertData data => ⟨data, .asNamed, id⟩
  | .load source destination =>
    match O.file source with
    | .ok (format, body) => ⟨O.read format (some source) body, .allTo destination, id⟩
    | .error _ => ⟨[], .allTo destination, id⟩

/-- The documents of a call that returns. A bulk load that is stopped has brought in what was
delivered till then. -/
def documents : Route O → List Document
  | .bulkLoad rename body format base => [⟨delivered (O.parser.quads format base body), .asNamed, rename⟩]
  | .bulkLoadIntoGraph rename body format base graph => [⟨delivered (O.parser.quads format base body), .defaultTo graph, rename⟩]
  | .update operations => operations.map (operationDocument O)
  | .merge target body format base => [⟨O.read format base body, .allTo target.graphName, id⟩]
  | .write target docs _ => docs.map (fun d => ⟨O.read d.2 none d.1, .allTo target.graphName, id⟩)

/-- The documents a call has brought in. -/
def brought (route : Route O) (ok : Bool) : List Document := if ok || route.renames then route.documents else []

/-- The new labels of a renaming parser are fresh: no two labels of the document become one, and none
becomes a label that was there. -/
def Fresh (S₀ : Set Quad) (ps : List (Piece Quad String)) (route : Route O) : Prop :=
  route.renames = true → ∀ d ∈ route.documents, Function.Injective d.rename ∧
    ∀ l, d.rename l ∉ labelsOf Quad.labels S₀ ∧ (∀ p ∈ ps, d.rename l ∉ labelsOf Quad.labels p.statements) ∧
      d.rename l ∉ d.placement.labels

/-- No label of a document that keeps its labels was there before. -/
def Unshared (S₀ : Set Quad) (ps : List (Piece Quad String)) (route : Route O) : Prop :=
  route.renames = false → AllNew Quad.labels S₀ ps (route.documents.map Document.piece)

/-- Outside a scope a backend may not give the parts of a triple term the ids they have. -/
def Encodes (B : Backend) (Sim : B.State → Held → Prop) (route : Route O) : Prop :=
  route.renames = true → (∀ d ∈ route.documents, ∀ q ∈ d.quads, q.object.isTriple = false) ∨ B.EncodesTriples Sim

end Route

/-! ## What a route does -/

variable {B : Backend} {Sim : B.State → Held → Prop} {Open : B.State → Contents × Ids → Prop} {ρ : Type}
variable {w w₀ : World B ρ} {h h₀ : Held} {O : Outside}

theorem delivered_renamed (f : String → String) (parsed : List Quad × Option String) :
    delivered (renamed f parsed) = (delivered parsed).map (Quad.rename f) := by
  obtain ⟨quads, stopped⟩ := parsed
  cases stopped with
  | none => rfl
  | some e => simp only [delivered, renamed, List.length_map, List.map_take]

/-- What a bulk load leaves, however it ends: all that was delivered. -/
theorem loadParsed_spec (L : B.Lawful Sim Open) (hw : Resting Sim w h) {parsed : List Quad × Option String} {put : Quad → Quad}
    (hterm : ∀ q ∈ delivered parsed, (put q).object.isTriple = false ∨ B.EncodesTriples Sim) :
    wp (loadParsed parsed (fun quad => World.insert (put quad)) : Eff EngineError (World B ρ) Nat)
      (fun _ w' => ∃ h', Resting Sim w' h' ∧ h'.all = h.all ∪ {q | ∃ q' ∈ delivered parsed, q = put q'})
      (fun _ w' => ∃ h', Resting Sim w' h' ∧ h'.all = h.all ∪ {q | ∃ q' ∈ delivered parsed, q = put q'}) w := by
  unfold loadParsed
  apply wp_bind
  refine (wp_foldlM (I := fun done _ w' => ∃ h', Resting Sim w' h' ∧ h'.all = h.all ∪ {q | ∃ q' ∈ done, q = put q'})
    ⟨h, hw, by simp⟩ ?_).mono ?_ (fun _ _ h => h)
  · rintro done q rest n w₁ hl ⟨h₁, hw₁, hall₁⟩
    apply wp_bind
    refine World.insert_idle L hw₁.sim hw₁.saved (hterm q (by rw [hl]; simp)) (fun b s ids e hle he hs => wp_pure ?_)
    refine ⟨_, ⟨hs, hw₁.saved, (hw₁.decodes.grow hle).insert he, (hw₁.catalogued.grow hle).insert he⟩, ?_⟩
    rw [Held.all_insert he, Held.all_grow hle hw₁.decodes, hall₁]
    ext q'
    simp only [Set.mem_insert_iff, Set.mem_union, Set.mem_ofPred_eq, List.mem_append, List.mem_singleton, or_and_right, exists_or,
      exists_eq_left]
    exact or_comm.trans or_assoc
  · intro n w₁ hall
    cases parsed.2 with
    | none => exact wp_pure hall
    | some e => exact wp_throw hall

theorem insertEach_acting (L : B.Lawful Sim Open) (hw : Acting Sim w₀ h₀ w h) {quads : List Quad} {Q : Unit → World B ρ → Prop}
    (hQ : ∀ w' h', Acting Sim w₀ h₀ w' h' → h'.all = h.all ∪ {q | q ∈ quads} → Q () w') :
    wp (insertEach quads : Eff EngineError (World B ρ) Unit) Q (Fails Open h₀) w := by
  unfold insertEach
  refine (wp_foldlM (I := fun done _ w' => ∃ h', Acting Sim w₀ h₀ w' h' ∧ h'.all = h.all ∪ {q | q ∈ done}) ⟨h, hw, by simp⟩ ?_).mono
    (fun _ w' ⟨h', hw', hall⟩ => hQ w' h' hw' hall) (fun _ _ h => h)
  rintro done q rest n w₁ - ⟨h₁, hw₁, hall₁⟩
  apply wp_bind
  refine insert_acting L hw₁ (fun b w₂ h₂ hw₂ hall₂ _ => wp_pure ⟨h₂, hw₂, ?_⟩)
  rw [hall₂, hall₁]
  ext q'
  simp only [Set.mem_insert_iff, Set.mem_union, Set.mem_ofPred_eq, List.mem_append, List.mem_singleton]
  tauto

/-- What is written of a document that keeps its labels. -/
theorem Document.written_kept {quads : List Quad} {placement : Placement} :
    (⟨quads, placement, id⟩ : Document).written = {q | q ∈ quads.map placement.put} := by
  ext q
  simp only [Document.written, Set.mem_ofPred_eq, List.mem_map, Quad.rename_id, @eq_comm _ q]

theorem applyOne_acting (L : B.Lawful Sim Open) (hw : Acting Sim w₀ h₀ w h) {operation : DataOperation} {Q : Unit → World B ρ → Prop}
    (hQ : ∀ w' h', Acting Sim w₀ h₀ w' h' → h'.all = h.all ∪ (Route.operationDocument O operation).written → Q () w') :
    wp (applyOne O.parser O.file operation : Eff EngineError (World B ρ) Unit) Q (Fails Open h₀) w := by
  cases operation with
  | insertData data =>
    refine insertEach_acting L hw (fun w' h' hw' hall => hQ w' h' hw' ?_)
    rw [hall]
    change _ = h.all ∪ (⟨data, .asNamed, id⟩ : Document).written
    rw [Document.written_kept]
    simp [Placement.put]
  | load source destination =>
    change wp (load O.parser O.file source destination) _ _ w
    unfold load
    cases hfile : O.file source with
    | error e => exact wp_throw (hw.fails L _)
    | ok file =>
      obtain ⟨format, body⟩ := file
      cases hparse : O.parser.parse format (some source) body with
      | error e =>
        simp only [hparse]
        exact wp_throw (hw.fails L _)
      | ok quads =>
        simp only [hparse]
        refine insertEach_acting L hw (fun w' h' hw' hall => hQ w' h' hw' ?_)
        have hdoc : Route.operationDocument O (.load source destination) = ⟨quads, .allTo destination, id⟩ := by
          simp only [Route.operationDocument, hfile, Outside.read, hparse]
        rw [hall, hdoc, Document.written_kept]
        rfl

/-- An update brings in all its documents or none. -/
theorem apply_spec (L : B.Lawful Sim Open) (hw : Resting Sim w h) {lands : Bool} {operations : List DataOperation} :
    wp (apply O.parser O.file lands operations : Eff EngineError (World B ρ) Unit)
      (fun _ w' => ∃ h', Resting Sim w' h' ∧ h'.all = h.all ∪ {q | ∃ d ∈ operations.map (Route.operationDocument O), q ∈ d.written})
      (fun _ => Gsp.Restored Sim h) w := by
  obtain ⟨hs, hsaved, hd, hc⟩ := hw
  obtain ⟨contents, ids, saved⟩ := h
  cases hsaved
  unfold apply
  apply wp_bind
  apply World.inScope_reads L hs
  apply wp_bind
  refine World.begin_wp L hs (fun s _ hs₁ => ?_) (fun _ => ⟨ids, le_rfl, hs⟩)
  have hw₁ : Acting Sim w ⟨contents, ids, none⟩ { w with store := s } ⟨contents, ids, some (contents, ids)⟩ :=
    ⟨hs₁, rfl, hd, hc, le_rfl, rfl, rfl, .inl rfl⟩
  apply wp_bind
  apply wp_attempt
  refine (wp_foldlM (E := Fails Open ⟨contents, ids, none⟩) (I := fun done _ w' => ∃ h', Acting Sim w ⟨contents, ids, none⟩ w' h' ∧
    h'.all = (⟨contents, ids, none⟩ : Held).all ∪ {q | ∃ d ∈ done.map (Route.operationDocument O), q ∈ d.written})
    ⟨_, hw₁, by simp [Held.all, Held.Has]⟩ ?_).mono ?_ ?_
  · rintro done operation rest u w₂ - ⟨h₂, hw₂, hall₂⟩
    refine applyOne_acting L hw₂ (fun w₃ h₃ hw₃ hall₃ => ⟨h₃, hw₃, ?_⟩)
    rw [hall₃, hall₂]
    ext q
    simp only [Set.mem_union, Set.mem_ofPred_eq, List.map_append, List.map_cons, List.map_nil, List.mem_append, List.mem_singleton,
      or_and_right, exists_or, exists_eq_left, or_assoc]
  · rintro u w₂ ⟨h₂, hw₂, hall₂⟩
    refine World.commit_wp L hw₂.sim hw₂.saved (fun s₃ hs₃ => ?_) (fun e s₃ ids₃ hle hs₃ => ⟨ids₃, hle, hs₃⟩)
    exact ⟨_, ⟨hs₃, rfl, hw₂.decodes, hw₂.catalogued⟩, hall₂⟩
  · rintro e w₂ ⟨hopen, -⟩
    refine wp_bind (World.rollback_wp L hopen (fun s₃ ids₃ hle hs₃ => ?_))
    exact wp_throw ⟨ids₃, hle, hs₃⟩

namespace Route

/-- What is left of what was held, and the documents. -/
def Brings (Sim : B.State → Held → Prop) (h : Held) (route : Route O) (ok : Bool) (w' : World B ρ) : Prop :=
  ∃ h' K, Resting Sim w' h' ∧ K ⊆ h.all ∧ (route.replaces = false → K = h.all) ∧
    h'.all = K ∪ {q | ∃ d ∈ route.brought ok, q ∈ d.written}

theorem brings_of_restored {route : Route O} (hkeep : route.renames = false) (hd : h.Decodes) (hc : h.Catalogued) {w' : World B ρ}
    (hr : Gsp.Restored Sim h w') : route.Brings Sim h false w' := by
  obtain ⟨h', hw', hall⟩ := hr.resting hd hc
  refine ⟨h', h.all, hw', subset_rfl, fun _ => rfl, ?_⟩
  simp [hall, brought, hkeep]

theorem documentQuads_eq {target : Gsp.Target} {body : O.parser.Bytes} {format : O.parser.Format} {base : Option NamedNode} :
    target.documentQuads O.formats body format base = (⟨O.read format base body, .allTo target.graphName, id⟩ : Document).written := by
  rw [Document.written_kept]
  cases hparse : O.parser.parse format base body with
  | ok quads =>
    rw [← Gsp.Target.documentQuads_eq hparse]
    simp only [Outside.read, hparse]
    rfl
  | error e =>
    simp only [Outside.read, hparse, List.map_nil, List.not_mem_nil]
    refine Set.eq_empty_of_forall_notMem (fun q hq => ?_)
    obtain ⟨qs, hqs, -⟩ := hq
    change O.parser.parse format base body = _ at hqs
    rw [hparse] at hqs
    cases hqs

/-- A bulk load brings in what was delivered of its document. -/
theorem bulk_spec (L : B.Lawful Sim Open) (hw : Resting Sim w h) {d : Document} {parsed : List Quad × Option String}
    (hd : d.quads = delivered parsed) (hterm : (∀ q ∈ d.quads, q.object.isTriple = false) ∨ B.EncodesTriples Sim) :
    wp (loadParsed (renamed d.rename parsed) (fun quad => World.insert (d.placement.put quad)) : Eff EngineError (World B ρ) Nat)
      (fun _ w' => ∃ h', Resting Sim w' h' ∧ h'.all = h.all ∪ d.written) (fun _ w' => ∃ h', Resting Sim w' h' ∧ h'.all = h.all ∪ d.written)
      w := by
  have hwritten : {q | ∃ q' ∈ delivered (renamed d.rename parsed), q = d.placement.put q'} = d.written := by
    ext q
    simp only [delivered_renamed, List.mem_map, Document.written, hd, Set.mem_ofPred_eq, exists_exists_and_eq_and]
  have hspec := @loadParsed_spec B Sim Open ρ w h L hw (renamed d.rename parsed) d.placement.put (fun q hq => by
    rw [delivered_renamed] at hq
    obtain ⟨q', hq', rfl⟩ := List.mem_map.1 hq
    refine hterm.imp_left (fun hno => ?_)
    rw [isTriple_put]
    exact (Term.isTriple_rename _ _).trans (hno q' (hd ▸ hq')))
  rw [hwritten] at hspec
  exact hspec

theorem bulk_brings {route : Route O} {d : Document} (hdocs : ∀ ok, route.brought ok = [d])
    {m : Eff EngineError (World B ρ) Nat}
    (hm : wp m (fun _ w' => ∃ h', Resting Sim w' h' ∧ h'.all = h.all ∪ d.written)
      (fun _ w' => ∃ h', Resting Sim w' h' ∧ h'.all = h.all ∪ d.written) w) :
    wp (do let _ ← m) (fun _ => route.Brings Sim h true) (fun _ => route.Brings Sim h false) w := by
  have hbrings : ∀ ok (w' : World B ρ), (∃ h', Resting Sim w' h' ∧ h'.all = h.all ∪ d.written) → route.Brings Sim h ok w' := by
    rintro ok w' ⟨h', hw', hall⟩
    refine ⟨h', h.all, hw', subset_rfl, fun _ => rfl, ?_⟩
    rw [hdocs, hall]
    simp
  apply wp_bind
  exact hm.mono (fun n w' hw' => wp_pure (hbrings true w' hw')) (fun e w' hw' => hbrings false w' hw')

theorem run_brings (L : B.Lawful Sim Open) (hw : Resting Sim w h) {lands : Bool} {route : Route O} (hterm : route.Encodes B Sim) :
    wp (route.run lands : Eff EngineError (World B ρ) Unit) (fun _ => route.Brings Sim h true) (fun _ => route.Brings Sim h false) w := by
  cases route with
  | bulkLoad rename body format base =>
    refine bulk_brings ?_ (bulk_spec L hw (d := ⟨delivered (O.parser.quads format base body), .asNamed, rename⟩) rfl
      ((hterm rfl).imp_left (fun hno => hno _ (List.mem_singleton_self _))))
    intro ok
    cases ok <;> rfl
  | bulkLoadIntoGraph rename body format base graph =>
    refine bulk_brings ?_ (bulk_spec L hw (d := ⟨delivered (O.parser.quads format base body), .defaultTo graph, rename⟩) rfl
      ((hterm rfl).imp_left (fun hno => hno _ (List.mem_singleton_self _))))
    intro ok
    cases ok <;> rfl
  | update operations =>
    refine (apply_spec L hw).mono ?_ (fun _ w' hr => brings_of_restored rfl hw.decodes hw.catalogued hr)
    rintro u w' ⟨h', hw', hall⟩
    exact ⟨h', h.all, hw', subset_rfl, fun _ => rfl, hall⟩
  | merge target body format base =>
    apply wp_bind
    refine (Gsp.Call.run_spec L hw.sim hw.saved hw.decodes hw.catalogued lands target (.merge body format base : Gsp.Call O.formats)).mono ?_
      (fun _ w' hr => brings_of_restored rfl hw.decodes hw.catalogued hr)
    rintro n w' ⟨h', hw', -, hdone⟩
    refine wp_pure ⟨h', h.all, hw', subset_rfl, fun _ => rfl, ?_⟩
    rw [hdone.all]
    simp [Gsp.Call.clears, Gsp.Call.drops, Gsp.Call.adds, brought, documents, documentQuads_eq]
  | write target docs replace =>
    apply wp_bind
    refine (Gsp.Call.run_spec L hw.sim hw.saved hw.decodes hw.catalogued lands target (.write docs replace : Gsp.Call O.formats)).mono ?_
      (fun _ w' hr => brings_of_restored rfl hw.decodes hw.catalogued hr)
    rintro n w' ⟨h', hw', -, hdone⟩
    have hall := hdone.all
    refine wp_pure ⟨h', h.all \ {q | replace = true ∧ q ∈ Gsp.shown w.session.compiled h target}, hw', Set.sdiff_subset, fun hkeep => ?_, ?_⟩
    · change replace = false at hkeep
      simp [hkeep]
    · rw [hall]
      simp [Gsp.Call.clears, Gsp.Call.drops, Gsp.Call.adds, brought, documents, documentQuads_eq]

/-! ## What a route brings in is new -/

/-- A label of a document is one of its quads', renamed, or the caller's. -/
theorem own_of_fresh {d : Document} {l : String} (hl : l ∈ d.piece.own) : ∃ l', l = d.rename l' := by
  obtain ⟨⟨q, ⟨q', -, rfl⟩, hl⟩, hnot⟩ := hl
  rcases Placement.mem_labels_put hl with hl | hl
  · rw [Quad.labels_rename] at hl
    obtain ⟨l', -, rfl⟩ := List.mem_map.1 hl
    exact ⟨l', rfl⟩
  · exact absurd hl hnot

/-- Either way, each document is new when its turn comes. -/
theorem allNew_brought {S₀ : Set Quad} {ps : List (Piece Quad String)} {route : Route O} {ok : Bool} (hfresh : route.Fresh S₀ ps)
    (hkept : route.Unshared S₀ ps) : AllNew Quad.labels S₀ ps ((route.brought ok).map Document.piece) := by
  cases hren : route.renames with
  | false =>
    cases ok with
    | false => simp [brought, hren, AllNew]
    | true =>
      have hall := hkept hren
      simpa [brought] using hall
  | true =>
    have hone : ∃ d, route.documents = [d] := by
      cases route with
      | bulkLoad rename body format base => exact ⟨_, rfl⟩
      | bulkLoadIntoGraph rename body format base graph => exact ⟨_, rfl⟩
      | update operations => cases hren
      | merge target body format base => cases hren
      | write target docs replace => cases hren
    obtain ⟨d, hd⟩ := hone
    obtain ⟨-, hnew⟩ := hfresh hren d (hd ▸ List.mem_singleton_self d)
    have hbrought : route.brought ok = [d] := by simp [brought, hren, hd]
    rw [hbrought]
    refine ⟨⟨Set.disjoint_left.2 (fun l hl => ?_), fun p hp => Set.disjoint_left.2 (fun l hl => ?_)⟩, trivial⟩
    · obtain ⟨l', rfl⟩ := own_of_fresh hl
      exact (hnew l').1
    · obtain ⟨l', rfl⟩ := own_of_fresh hl
      exact (hnew l').2.1 p hp

theorem rename_injective {S₀ : Set Quad} {ps : List (Piece Quad String)} {route : Route O} {ok : Bool} (hfresh : route.Fresh S₀ ps)
    {d : Document} (hd : d ∈ route.brought ok) : Function.Injective d.rename := by
  have hmem : d ∈ route.documents := by
    unfold brought at hd
    split at hd
    · exact hd
    · cases hd
  cases route with
  | bulkLoad rename body format base => exact (hfresh rfl d hmem).1
  | bulkLoadIntoGraph rename body format base graph => exact (hfresh rfl d hmem).1
  | update operations =>
    obtain ⟨operation, -, rfl⟩ := List.mem_map.1 hmem
    cases operation with
    | insertData data => exact Function.injective_id
    | load source destination =>
      cases hfile : O.file source <;> simp only [operationDocument, hfile] <;> exact Function.injective_id
  | merge target body format base =>
    rw [List.mem_singleton.1 hmem]
    exact Function.injective_id
  | write target docs replace =>
    obtain ⟨doc, -, rfl⟩ := List.mem_map.1 hmem
    exact Function.injective_id

end Route

/-! ## Runs -/

/-- Calls one after another from `w₀`, each of which meets the condition: `ds` is brought in, and
`cleared` says whether some call has replaced a graph. -/
inductive Brings (O : Outside) (Sim : B.State → Held → Prop) (S₀ : Set Quad) (w₀ : World B ρ) : List Document → Bool → World B ρ → Prop
  | start : Brings O Sim S₀ w₀ [] false w₀
  | call {ds cleared w lands r w'} (route : Route O) (hrun : Brings O Sim S₀ w₀ ds cleared w)
      (hcall : (route.run lands).exec w = some (r, w')) (hterm : route.Encodes B Sim)
      (hfresh : route.Fresh S₀ (ds.map Document.piece)) (hkept : route.Unshared S₀ (ds.map Document.piece)) :
      Brings O Sim S₀ w₀ (ds ++ route.brought r.isOk) (cleared || route.replaces) w'

namespace TwoDocuments

abbrev Memory := MemoryStorage.backend Dictionary.bare

/-- Bodies that are lists of quads. -/
def plain : Outside := ⟨⟨Unit, List Quad, fun _ _ body => (body, none)⟩, fun _ _ => .error "", fun _ => .error ""⟩

def session : Session :=
  ⟨⟨"urn:user", ∅, [], none⟩, ⟨.allow, .filter, [], [], Label.default⟩, ⟨.allow, .filter, none, [], [], [], [], false, 0, []⟩⟩

def empty : World Memory Unit := ⟨.new, session, ()⟩

def first : Quad := ⟨.blankNode "a", "urn:name", .namedNode "urn:x", .defaultGraph⟩

def second : Quad := ⟨.blankNode "a", "urn:age", .namedNode "urn:y", .defaultGraph⟩

def mergeOf (quad : Quad) : Route plain := .merge .default [quad] () none

/-- The store after one document, and after both. -/
def afterOne : Option (World Memory Unit) := ((mergeOf first).run true |>.exec empty).bind (fun r => r.1.toOption.map (fun _ => r.2))

def afterBoth : Option (World Memory Unit) := afterOne.bind (fun w => ((mergeOf second).run true |>.exec w).bind
  (fun r => r.1.toOption.map (fun _ => r.2)))

/-- What an empty store holds. -/
noncomputable def held : Held := ⟨.empty, MemoryStorage.idsOf Dictionary.bare_lawful Dictionary.new_valid, none⟩

theorem empty_resting : Resting (B := Memory) (MemoryStorage.Stands Dictionary.bare) empty held := by
  refine ⟨MemoryStorage.new_stands Dictionary.bare_lawful, rfl, ?_, ?_⟩
  · intro e he
    cases he
  · intro g hg
    cases hg

theorem held_all : held.all = ∅ := Set.eq_empty_of_forall_notMem (fun q ⟨_, _, hmem⟩ => by cases hmem)

/-- A run, unpacked. -/
theorem ran {m : Eff EngineError (World Memory Unit) Unit} {w w' : World Memory Unit}
    (h : (m.exec w).bind (fun r => r.1.toOption.map (fun _ => r.2)) = some w') : m.exec w = some (.ok (), w') := by
  obtain ⟨⟨r, w''⟩, hexec, hr⟩ := Option.bind_eq_some_iff.1 h
  cases r with
  | error e => cases hr
  | ok u =>
    cases hr
    exact hexec

/-- A document of one quad, in the default graph. -/
def one (quad : Quad) (f : String → String) : Document := ⟨[quad], .allTo .defaultGraph, f⟩

theorem one_written {quad : Quad} {f : String → String} : (one quad f).written = {(Placement.allTo .defaultGraph).put (quad.rename f)} := by
  ext q
  simp [Document.written, one]

theorem mergeOf_all {w w' : World Memory Unit} {h : Held} {quad : Quad}
    (hw : Resting (B := Memory) (MemoryStorage.Stands Dictionary.bare) w h) (hrun : ((mergeOf quad).run true).exec w = some (.ok (), w')) :
    ∃ h', Resting (B := Memory) (MemoryStorage.Stands Dictionary.bare) w' h' ∧ h'.all = h.all ∪ (one quad id).written := by
  have hterm : (mergeOf quad).Encodes Memory (MemoryStorage.Stands Dictionary.bare) := by
    intro hren
    cases hren
  obtain ⟨h', K, hw', -, hK, hall⟩ := (Route.run_brings (MemoryStorage.lawful Dictionary.bare_lawful) hw hterm).ok hrun
  refine ⟨h', hw', ?_⟩
  rw [hall, hK rfl]
  ext q
  apply or_congr Iff.rfl
  constructor
  · rintro ⟨d, hd, hq⟩
    rw [List.mem_singleton.1 hd] at hq
    exact hq
  · intro hq
    exact ⟨_, List.mem_singleton_self _, hq⟩

/-- The two quads of the store are no merge of the two documents, whatever their labels become. -/
theorem not_isMerge (f₁ f₂ : String → String) :
    ¬ IsMerge Quad.labels ∅ [(one first f₁).piece, (one second f₂).piece] ((one first id).written ∪ (one second id).written) := by
  intro hmerge
  have hof : ∀ (p : NamedNode) (o : Term), (⟨.blankNode "a", p, o, .defaultGraph⟩ : Quad) ∈ (one first id).written ∪ (one second id).written →
      (⟨.blankNode "a", p, o, .defaultGraph⟩ : Quad) = ⟨.blankNode (f₁ "a"), "urn:name", .namedNode "urn:x", .defaultGraph⟩ ∨
      (⟨.blankNode "a", p, o, .defaultGraph⟩ : Quad) = ⟨.blankNode (f₂ "a"), "urn:age", .namedNode "urn:y", .defaultGraph⟩ := by
    intro p o hq
    rw [hmerge.statements] at hq
    simpa [Document.piece, one_written, Placement.put, Quad.rename, first, second, NamedOrBlankNode.rename, Term.rename] using hq
  have h₁ : f₁ "a" = "a" := by
    rcases hof _ _ (.inl (by simp [one_written, Placement.put, Quad.rename, first, NamedOrBlankNode.rename, Term.rename]; exact ⟨rfl, rfl⟩)) with h | h
    · injection h with hs
      injection hs with hl
      exact hl.symm
    · injection h with hs hp
      exact absurd hp (by decide)
  have h₂ : f₂ "a" = "a" := by
    rcases hof _ _ (.inr (by simp [one_written, Placement.put, Quad.rename, second, NamedOrBlankNode.rename, Term.rename]; exact ⟨rfl, rfl⟩)) with h | h
    · injection h with hs hp
      exact absurd hp (by decide)
    · injection h with hs
      injection hs with hl
      exact hl.symm
  have hin : ∀ (quad : Quad) (f : String → String), quad.subject = .blankNode "a" → f "a" = "a" →
      "a" ∈ labelsOf Quad.labels (one quad f).written := by
    intro quad f hs hf
    refine ⟨_, one_written ▸ Set.mem_singleton _, ?_⟩
    simp [Placement.put, Quad.rename, Quad.labels, hs, hf, NamedOrBlankNode.rename, NamedOrBlankNode.labels]
  have happart := List.rel_of_pairwise_cons hmerge.apart (List.mem_singleton_self _)
  have hown : "a" ∈ (one second f₂).piece.own := ⟨hin second f₂ rfl h₂, by simp [one, Placement.labels, GraphName.labels]⟩
  exact Set.disjoint_left.1 happart hown (hin first f₁ rfl h₁)

end TwoDocuments

end Holos
