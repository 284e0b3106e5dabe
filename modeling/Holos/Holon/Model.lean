import Holos.Store.Backend
/-!
# What a holon is, as data

A scene, a boundary and an event log, each a named graph, and a definition in the system graph.
-/

namespace Holos

/-- A term in the HOLOS system vocabulary. -/
def holos (name : String) : NamedNode := "https://holos.rdf/ns#" ++ name

/-- The graph every holon's definition lives in. -/
def systemGraph : NamedNode := "urn:holos:system"

/-- What a holon does with a commit its boundary rejects. -/
inductive Admission where
  | reject
  | admitAndRecord
deriving DecidableEq, Repr

def Admission.iri : Admission → NamedNode
  | .reject => holos "Reject"
  | .admitAndRecord => holos "AdmitAndRecord"

/-- How a projection is kept up to date. Only recomputing is implemented. -/
inductive Regime where
  | maintained
  | recomputed
deriving DecidableEq, Repr

structure Projection where
  id : NamedNode
  query : String
  regime : Regime
deriving DecidableEq, Repr

structure Holon where
  id : NamedNode
  scene : NamedNode
  boundary : NamedNode
  events : NamedNode
  admission : Admission
  projections : List Projection
deriving DecidableEq, Repr

namespace Holon

/-- `str::trim_end_matches(['#', '/'])`. -/
def base (id : NamedNode) : String :=
  String.ofList ((id.toList.reverse.dropWhile (fun c => c = '#' || c = '/')).reverse)

/-- A holon with graphs derived from its own IRI. -/
def new (id : NamedNode) : Holon where
  id := id
  scene := base id ++ "/scene"
  boundary := base id ++ "/boundary"
  events := base id ++ "/events"
  admission := .reject
  projections := []

def withAdmission (self : Holon) (admission : Admission) : Holon := { self with admission }

def withProjection (self : Holon) (id : NamedNode) (query : String) : Holon :=
  { self with projections := self.projections ++ [⟨id, query, .recomputed⟩] }

/-- The scene and the event log are graphs of their own. -/
structure Apart (h : Holon) : Prop where
  scene_events : h.scene ≠ h.events
  scene_system : h.scene ≠ systemGraph
  events_system : h.events ≠ systemGraph

/-- An IRI that ends in one name does not end in another of the same length or with another last
letter. -/
theorem append_ne {a b : String} {x y : String} (h : x.toList.getLast? ≠ y.toList.getLast?) (hx : x.toList ≠ [])
    (hy : y.toList ≠ []) : a ++ x ≠ b ++ y := by
  intro he
  have hl := congrArg String.toList he
  rw [String.toList_append, String.toList_append] at hl
  have hlast := congrArg List.getLast? hl
  rw [List.getLast?_append_of_ne_nil _ hx, List.getLast?_append_of_ne_nil _ hy] at hlast
  exact h hlast

theorem new_apart (id : NamedNode) : (new id).Apart where
  scene_events := append_ne (by decide) (by decide) (by decide)
  scene_system := append_ne (a := base id) (b := "urn:holos:") (x := "/scene") (y := "system") (by decide) (by decide) (by decide)
  events_system := append_ne (a := base id) (b := "urn:holos:") (x := "/events") (y := "system") (by decide) (by decide)
    (by decide)

end Holon

end Holos
