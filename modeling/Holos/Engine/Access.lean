import Holos.Engine.View
import Holos.Engine.World
/-!
# Reads and writes for a session

The engine's own writes ask the session's policy, compiled again if the store has moved on; its
reads of whole graphs go through a view, which takes the compiled policy as it is.
-/

namespace Holos.Engine

open Lib Security

/-- Anything a request to the engine can fail with. -/
inductive EngineError where
  | accessDenied
  | storage (e : StorageError)
  | view (e : ViewError)
  | parse (message : String)
  | io (message : String)
  | badRequest (message : String)
deriving DecidableEq, Repr

instance : OfStorage EngineError := ⟨.storage⟩

instance : OfStorage ViewError := ⟨.storage⟩

variable {B : Backend} {ρ : Type}

/-! ## Writes -/

/-- Inserts one quad, subject to the session's write policy. Its terms are interned before the
decision, so that a rule naming an IRI not seen before still applies. -/
def insert (quad : Quad) : Eff EngineError (World B ρ) Bool := do
  let encoded ← World.encodeQuad quad
  let policy ← World.policy
  if !policy.permitsQuad encoded Modes.write then throw .accessDenied
  World.insertEncoded encoded

/-- Removes one quad, subject to the session's write policy. A principal who may not read a quad may
not delete it either. -/
def remove (quad : Quad) : Eff EngineError (World B ρ) Bool := do
  let encoded ← World.encodeQuad quad
  let policy ← World.policy
  if !policy.permitsQuad encoded Modes.write || !policy.permitsQuad encoded Modes.read then throw .accessDenied
  World.remove quad

/-! ## Reads -/

/-- A graph name as a term, for dictionary lookup. -/
def graphNameTerm : GraphName → Term
  | .namedNode n => .namedNode n
  | .blankNode b => .blankNode b
  | .defaultGraph => .namedNode "urn:holos:default-graph"

/-- The scan a graph is read with, if it can hold anything. -/
def visibleFilter (policy : CompiledPolicy) : Option GraphName → Eff ViewError (World B ρ) (Option GraphFilter)
  | none => return some .any
  | some .defaultGraph => return some .default
  | some name => do
    match ← World.lookupTerm (graphNameTerm name) with
    | none => return none
    | some id =>
      if policy.graphIsWhollyDenied (some id) then
        match policy.semantics with
        | .filter => return none
        | .fail => throw .accessDenied
      else return some (.named id)

/-- Every quad of a graph, or of all of them, that the session's view shows. -/
def visibleQuads (graph : Option GraphName) : Eff ViewError (World B ρ) (List Quad) := do
  let policy ← Eff.reads (fun w => .ok w.session.compiled)
  match ← visibleFilter policy graph with
  | none => return []
  | some filter =>
    (← World.quadsForPattern none none none filter).foldlM (fun out quad => do
      match policy.decideQuad quad Modes.read with
      | .allow => return out ++ [← World.decodeQuad quad]
      | .filter => return out
      | .fail => throw .accessDenied) []

end Holos.Engine
