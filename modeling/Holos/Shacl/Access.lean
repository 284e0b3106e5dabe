import Holos.Shacl.EngineRun
import Holos.Store.Backend
/-!
# Reading a graph of a store, in term ids

A data graph is selected, not flattened: of several graphs read as one, a triple is read once for each
that has it.
-/

namespace Holos.Shacl

open Lib

/-- A graph inside a store, addressed by term id. -/
structure GraphView (B : Backend) where
  store : B.State
  graph : GraphFilter

namespace GraphView

variable {B : Backend} (self : GraphView B)

/-- Turns an id back into a term. -/
def term (id : TermId) : Except StorageError (Option Term) := B.decode self.store id

/-- Resolves a term to its id, if the store has seen it. -/
def id (t : Term) : Except StorageError (Option TermId) := B.lookup self.store t

def quadsForPattern (s p o : Option TermId) : Except StorageError (List EncodedQuad) := B.scan self.store s p o self.graph

/-- Objects of `subject predicate ?o`. -/
def objects (subject predicate : TermId) : Except StorageError (List TermId) :=
  (self.quadsForPattern (some subject) (some predicate) none).map (List.map EncodedQuad.object)

/-- The single object of `subject predicate ?o`: of several the first in index order. -/
def object (subject predicate : TermId) : Except StorageError (Option TermId) :=
  (self.quadsForPattern (some subject) (some predicate) none).map (fun qs => qs.head?.map EncodedQuad.object)

/-- Subjects of `?s predicate object`. -/
def subjects (predicate object : TermId) : Except StorageError (List TermId) :=
  (self.quadsForPattern none (some predicate) (some object)).map (List.map EncodedQuad.subject)

/-- Every subject of `?s predicate ?o`. -/
def subjectsOf (predicate : TermId) : Except StorageError (List TermId) :=
  (self.quadsForPattern none (some predicate) none).map (List.map EncodedQuad.subject)

/-- Every object of `?s predicate ?o`. -/
def objectsOf (predicate : TermId) : Except StorageError (List TermId) :=
  (self.quadsForPattern none (some predicate) none).map (List.map EncodedQuad.object)

def listFrom (rdfFirst rdfRest rdfNil : TermId) : Nat → TermId → List TermId → Except StorageError (List TermId)
  | 0, _, out => .ok out
  | n + 1, node, out =>
    if node = rdfNil then .ok out else do
      match ← self.object node rdfFirst with
      | none => return out
      | some first =>
        match ← self.object node rdfRest with
        | none => return out ++ [first]
        | some rest => listFrom rdfFirst rdfRest rdfNil n rest (out ++ [first])

/-- Walks an RDF collection, and gives up on one that goes on. -/
def list (head rdfFirst rdfRest rdfNil : TermId) : Except StorageError (List TermId) :=
  self.listFrom rdfFirst rdfRest rdfNil 100000 head []

/-- Some read of the graph fails with `e`. -/
def Fails (e : StorageError) : Prop := ∃ s p o, self.quadsForPattern s p o = .error e

end GraphView

/-- The triple is in a graph that is selected. -/
def Edge (h : Held) (graph : GraphFilter) (p s o : TermId) : Prop :=
  ∃ g, (⟨s, p, o, g⟩ : EncodedQuad) ∈ h.contents.quads ∧ Index.GraphFilter.admits graph ⟨s, p, o, g⟩ = true

section
variable {B : Backend} {Sim : B.State → Held → Prop} {Open : B.State → Contents × Ids → Prop} {data : GraphView B} {h : Held}
variable (L : B.Lawful Sim Open) (hs : Sim data.store h)
include L hs

theorem GraphView.mem_quads {s p o : Option TermId} {qs : List EncodedQuad} (hqs : data.quadsForPattern s p o = .ok qs) {e : EncodedQuad} :
    e ∈ qs ↔ e ∈ h.contents.quads ∧ Index.matchesTriple s p o e = true ∧ Index.GraphFilter.admits data.graph e = true :=
  L.mem_scan hs hqs

theorem GraphView.mem_objects {s p : TermId} {os : List TermId} (hos : data.objects s p = .ok os) {o : TermId} :
    o ∈ os ↔ Edge h data.graph p s o := by
  unfold objects at hos
  cases hqs : data.quadsForPattern (some s) (some p) none with
  | error e =>
    rw [hqs] at hos
    cases hos
  | ok qs =>
    rw [hqs] at hos
    cases hos
    rw [List.mem_map]
    constructor
    · rintro ⟨⟨s', p', o', g⟩, he, rfl⟩
      obtain ⟨hmem, hmatch, hgraph⟩ := (mem_quads L hs hqs).1 he
      obtain ⟨rfl, rfl⟩ : s = s' ∧ p = p' := by simpa [Index.matchesTriple] using hmatch
      exact ⟨g, hmem, hgraph⟩
    · rintro ⟨g, hmem, hgraph⟩
      exact ⟨_, (mem_quads L hs hqs).2 ⟨hmem, by simp [Index.matchesTriple], hgraph⟩, rfl⟩

theorem GraphView.mem_subjects {p o : TermId} {ss : List TermId} (hss : data.subjects p o = .ok ss) {s : TermId} :
    s ∈ ss ↔ Edge h data.graph p s o := by
  unfold subjects at hss
  cases hqs : data.quadsForPattern none (some p) (some o) with
  | error e =>
    rw [hqs] at hss
    cases hss
  | ok qs =>
    rw [hqs] at hss
    cases hss
    rw [List.mem_map]
    constructor
    · rintro ⟨⟨s', p', o', g⟩, he, rfl⟩
      obtain ⟨hmem, hmatch, hgraph⟩ := (mem_quads L hs hqs).1 he
      obtain ⟨rfl, rfl⟩ : p = p' ∧ o = o' := by simpa [Index.matchesTriple] using hmatch
      exact ⟨g, hmem, hgraph⟩
    · rintro ⟨g, hmem, hgraph⟩
      exact ⟨_, (mem_quads L hs hqs).2 ⟨hmem, by simp [Index.matchesTriple], hgraph⟩, rfl⟩

end

theorem of_map_ok {ε α β : Type} {x : Except ε α} {f : α → β} {b : β} (h : x.map f = .ok b) : ∃ a, x = .ok a ∧ f a = b := by
  cases x with
  | error e => cases h
  | ok a => exact ⟨a, rfl, Except.ok.inj h⟩

theorem of_map_error {ε α β : Type} {x : Except ε α} {f : α → β} {e : ε} (h : x.map f = .error e) : x = .error e := by
  cases x with
  | error e' =>
    cases h
    rfl
  | ok a => cases h

/-- A read fails as the store does. -/
theorem GraphView.read_error {B : Backend} {data : GraphView B} {α : Type} {s p o : Option TermId} {f : List EncodedQuad → α}
    {e : StorageError} (h : (data.quadsForPattern s p o).map f = .error e) : data.Fails e :=
  ⟨s, p, o, of_map_error h⟩

end Holos.Shacl
