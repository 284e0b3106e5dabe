import Holos.Security.PolicyTheorems
/-!
# The dataset view

Every read of the query engine goes through a `DatasetView`: a store and the policy
compiled for one principal. Each quad that comes off the index is decided by
`decideQuad`; a scan of one named graph first asks `graphIsWhollyDenied`, which reads the
effects of the slots and not their modes. The process's memory ceiling, which fails a
query and not a quad, is left out.
-/

namespace Holos.Engine

open Security

/-- Something that went wrong while reading. -/
inductive ViewError where
  | accessDenied
  | storage (e : StorageError)
  | unknownTerm (id : TermId)
  | ephemeralExhausted
deriving DecidableEq, Repr

/-- A read-only, policy-filtered view of a store. -/
structure DatasetView where
  store : Store
  policy : CompiledPolicy

namespace DatasetView

/-- Applies read policy to one quad off the index. -/
def decide (view : DatasetView) (quad : EncodedQuad) : Option (Except ViewError EncodedQuad) :=
  match view.policy.decideQuad quad Modes.read with
  | .allow => some (.ok quad)
  | .filter => none
  | .fail => some (.error .accessDenied)

/-- What a wholly denied graph answers, before any scan runs. -/
def deniedGraph (view : DatasetView) : GraphFilter → Option (List (Except ViewError EncodedQuad))
  | .named g =>
    if view.policy.graphIsWhollyDenied (some g) then
      some (match view.policy.semantics with
        | .filter => []
        | .fail => [.error .accessDenied])
    else none
  | _ => none

/-- The scan of a pattern. A graph slot left open ranges over named graphs only. -/
def internalQuadsForPattern (view : DatasetView) (subject predicate object : Option TermId)
    (graphName : Option (Option TermId)) : List (Except ViewError EncodedQuad) :=
  let graph := match graphName with
    | some none => GraphFilter.default
    | some (some g) => GraphFilter.named g
    | none => GraphFilter.anyNamed
  match view.deniedGraph graph with
  | some answer => answer
  | none => (view.store.quadsForPattern subject predicate object graph).filterMap view.decide

/-- The scan of a pattern whose object lies inside a span. -/
def quadsWithObjectIn (view : DatasetView) (subject predicate : Option TermId) (span : IdRange)
    (graph : GraphFilter) : List (Except ViewError EncodedQuad) :=
  match view.deniedGraph graph with
  | some answer => answer
  | none => (view.store.quadsWithObjectIn subject predicate span graph).filterMap view.decide

/-- Named graphs holding at least one quad this principal may read. -/
def visibleNamedGraphs (view : DatasetView) : List TermId :=
  view.store.namedGraphs.filter (fun g =>
    !view.policy.graphIsWhollyDenied (some g) &&
      (view.store.quadsForPattern none none none (.named g)).any
        (fun quad => view.policy.decideQuad quad Modes.read = .allow))

def internalNamedGraphs (view : DatasetView) : List (Except ViewError TermId) :=
  view.visibleNamedGraphs.map .ok

end DatasetView

end Holos.Engine
