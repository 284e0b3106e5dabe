import Holos.Engine.SessionWrites
import Holos.Engine.WorldRules
import Mathlib.Data.Set.Card
/-!
# A store as quads and names

A ledger is a store without its ids: the quads and the named graphs there are, both as they were
when the open scope began, and whether something has failed in that scope. `Steps` is what a call
may answer and do to it, failures included. A backend that is lawful does nothing else.
-/

namespace Holos

open Lib Lib.Eff

/-! ## Calls -/

/-- A call on a store, by terms. -/
inductive StoreCall where
  | insert (quad : Quad)
  | remove (quad : Quad)
  | insertNamedGraph (graph : GraphName)
  | removeNamedGraph (graph : GraphName)
  | contains (quad : Quad)
  | containsNamedGraph (graph : GraphName)
  | iter
  | namedGraphs
  | len
  | begin
  | commit (lands : Bool)
  | rollback

def StoreCall.isWrite : StoreCall → Bool
  | .insert _ | .remove _ | .insertNamedGraph _ | .removeNamedGraph _ => true
  | _ => false

/-- Calls that open a scope or end one. -/
def StoreCall.isScope : StoreCall → Bool
  | .begin | .commit _ | .rollback => true
  | _ => false

inductive StoreReply where
  | bool (b : Bool)
  | quads (quads : List Quad)
  | graphs (graphs : List GraphName)
  | len (n : Nat)
  | done
  | failed (error : StorageError)

namespace World

variable {B : Backend}

/-- The named graphs by their names. -/
def graphNames : Eff StorageError (World B Unit) (List GraphName) := do
  (← namedGraphs).mapM (fun g => decodeGraph (some g))

def call : StoreCall → Eff StorageError (World B Unit) StoreReply
  | .insert quad => return .bool (← insert quad)
  | .remove quad => return .bool (← remove quad)
  | .insertNamedGraph graph => return .bool (← insertNamedGraph graph)
  | .removeNamedGraph graph => return .bool (← removeNamedGraph graph)
  | .contains quad => return .bool (← contains quad)
  | .containsNamedGraph graph => return .bool (← containsNamedGraph graph)
  | .iter => return .quads (← iter)
  | .namedGraphs => return .graphs (← graphNames)
  | .len => return .len (← len)
  | .begin => do
    begin
    return .done
  | .commit lands => do
    commit lands
    return .done
  | .rollback => do
    rollback
    return .done

def reply : Except StorageError StoreReply → StoreReply
  | .ok r => r
  | .error e => .failed e

/-- One call and its reply. `none` is a panic. -/
def serve (w : World B Unit) (c : StoreCall) : Option (StoreReply × World B Unit) :=
  ((call c).exec w).map (fun r => (reply r.1, r.2))

def serveAll (w : World B Unit) : List StoreCall → Option (List StoreReply × World B Unit)
  | [] => some ([], w)
  | c :: cs => do
    let (r, w) ← w.serve c
    let (rs, w) ← w.serveAll cs
    return (r :: rs, w)

end World

/-! ## The ledger -/

structure Ledger where
  quads : Set Quad
  graphs : Set GraphName
  saved : Option (Set Quad × Set GraphName)
  broken : Bool

namespace Ledger

def empty : Ledger := ⟨∅, ∅, none, false⟩

/-- As it was when the open scope began. -/
def back (a : Ledger) : Ledger :=
  match a.saved with
  | some (quads, graphs) => ⟨quads, graphs, none, false⟩
  | none => a

/-- What a call that is answered leaves. -/
def after (a : Ledger) : StoreCall → Ledger
  | .insert q => { a with quads := insert q a.quads, graphs := a.graphs ∪ Held.named q.graphName }
  | .remove q => { a with quads := a.quads \ {q} }
  | .insertNamedGraph g => { a with graphs := a.graphs ∪ Held.named g }
  | .removeNamedGraph g => { a with quads := a.quads \ {q | q.graphName ∈ Held.named g}, graphs := a.graphs \ Held.named g }
  | .begin => { a with saved := some (a.quads, a.graphs) }
  | .commit _ => { a with saved := none }
  | .rollback => a.back
  | _ => a

/-- What a call answers. The order of a list is not said. -/
def Answers (a : Ledger) : StoreCall → StoreReply → Prop
  | .insert q, .bool b => b = true ↔ q ∉ a.quads
  | .remove q, .bool b => b = true ↔ q ∈ a.quads
  | .insertNamedGraph g, .bool b => b = true ↔ g ≠ .defaultGraph ∧ g ∉ a.graphs
  | .removeNamedGraph g, .bool b => b = true ↔ g ∈ a.graphs
  | .contains q, .bool b => b = true ↔ q ∈ a.quads
  | .containsNamedGraph g, .bool b => b = true ↔ g ∈ a.graphs
  | .iter, .quads qs => qs.Nodup ∧ ∀ q, q ∈ qs ↔ q ∈ a.quads
  | .namedGraphs, .graphs gs => ∀ g, g ∈ gs ↔ g ∈ a.graphs
  | .len, .len n => n = a.quads.ncard
  | .begin, .done => a.saved = none
  | .commit _, .done => True
  | .rollback, .done => True
  | _, _ => False

/-- A triple term is interned in a scope, and a scope is ended when there is one. What failed in a
scope is not committed. -/
def Allows (a : Ledger) : StoreCall → Prop
  | .insert q => a.saved.isSome = true ∨ q.object.isTriple = false
  | .begin => a.broken = false
  | .commit _ => a.broken = false ∧ a.saved.isSome = true
  | .rollback => a.saved.isSome = true
  | _ => True

/-- A call, its reply and what it leaves. A write that fails in a scope leaves nothing but the way
back, and a commit that fails goes it. -/
inductive Steps (a : Ledger) : StoreCall → StoreReply → Ledger → Prop
  | answered {c : StoreCall} {r : StoreReply} (hb : a.broken = true → c = .rollback) (h : a.Answers c r) : Steps a c r (a.after c)
  | unchanged {c : StoreCall} {e : StorageError} (hc : a.saved = none ∨ c.isWrite = false) (hlands : ∀ lands, c ≠ .commit lands) :
      Steps a c (.failed e) a
  | breaks {c : StoreCall} {e : StorageError} (hs : a.saved.isSome = true) (hc : c.isWrite = true) :
      Steps a c (.failed e) { a with broken := true }
  | lost {lands : Bool} {e : StorageError} : Steps a (.commit lands) (.failed e) a.back
  | broken {c : StoreCall} {r : StoreReply} (hb : a.broken = true) (hc : c.isScope = false) : Steps a c r a

inductive Runs : Ledger → List (StoreCall × StoreReply) → Ledger → Prop
  | nil {a : Ledger} : Runs a [] a
  | cons {a a₁ a₂ : Ledger} {c : StoreCall} {r : StoreReply} {l : List (StoreCall × StoreReply)} (h : a.Steps c r a₁)
      (hl : Runs a₁ l a₂) : Runs a ((c, r) :: l) a₂

/-- Every call is allowed where it is made. -/
def Permits (a : Ledger) : List (StoreCall × StoreReply) → Prop
  | [] => True
  | (c, r) :: l => a.Allows c ∧ ∀ a', a.Steps c r a' → a'.Permits l

end Ledger

/-! ## What stands for what -/

/-- The store's quads and names. -/
structure Held.Shows (h : Held) (quads : Set Quad) (graphs : Set GraphName) : Prop where
  decodes : h.Decodes
  catalogued : h.Catalogued
  all : h.all = quads
  names : h.names = graphs

/-- What a rollback would go back to shows what the ledger would. -/
def KeptBy (saved : Option (Contents × Ids)) (saved' : Option (Set Quad × Set GraphName)) : Prop :=
  Option.Rel (fun c p => Held.Shows ⟨c.1, c.2, none⟩ p.1 p.2) saved saved'

/-- A store and its ledger. Once something in the scope has failed only the way back is known. -/
inductive Ledger.Of {B : Backend} (Sim : B.State → Held → Prop) (Open : B.State → Contents × Ids → Prop) (s : B.State) : Ledger → Prop
  | standing {a : Ledger} {h : Held} (hs : Sim s h) (hshows : h.Shows a.quads a.graphs) (hsaved : KeptBy h.saved a.saved)
      (hb : a.broken = false) : Ledger.Of Sim Open s a
  | stuck {a : Ledger} {c : Contents × Ids} {p : Set Quad × Set GraphName} (ho : Open s c) (hsaved : a.saved = some p)
      (hshows : Held.Shows ⟨c.1, c.2, none⟩ p.1 p.2) (hb : a.broken = true) : Ledger.Of Sim Open s a

end Holos
