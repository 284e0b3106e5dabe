import Holos.Store.Store
import Mathlib.Data.Finset.Basic
/-!
# Access policy

A policy is a list of rules and a table of graph labels. `compile` resolves it against a
store's dictionary for one principal: one slot per scope, in which the rules of that
scope have already been folded together. `decideQuad` then reads at most four slots.
-/

namespace Holos.Security

/-! ## Principals -/

/-- A classification label: a level, and the compartments it requires. -/
structure Label where
  level : Nat
  compartments : Finset String
deriving DecidableEq

def Label.default : Label := ⟨0, ∅⟩

/-- Whether a clearance carrying `self` may see data labelled `other`. -/
def Label.dominates (self other : Label) : Bool :=
  self.level ≥ other.level && other.compartments ⊆ self.compartments

/-- An authenticated identity, with whatever the identity provider asserted about it. -/
structure Principal where
  id : NamedNode
  roles : Finset String
  attributes : List (String × Finset String)
  clearance : Option Label
deriving DecidableEq

def Principal.hasRole (self : Principal) (role : String) : Bool := role ∈ self.roles

def Principal.hasAttribute (self : Principal) (key value : String) : Bool :=
  match self.attributes.lookup key with
  | some values => value ∈ values
  | none => false

/-- Whether this principal may see data carrying a label. No clearance still sees
unclassified data. -/
def Principal.isClearedFor (self : Principal) (label : Label) : Bool :=
  match self.clearance with
  | some c => c.dominates label
  | none => label = Label.default

/-! ## Rules -/

/-- What a rule does when it matches. -/
inductive Effect where
  | allow
  | deny
deriving DecidableEq, Repr

/-- What happens to data a principal may not see. -/
inductive Semantics where
  | filter
  | fail
deriving DecidableEq, Repr

/-- A set of operations, one bit each. -/
abbrev Modes := BitVec 8

namespace Modes

def read : Modes := 1
def write : Modes := 2
def validate : Modes := 4
def admin : Modes := 8
def all : Modes := 15

def union (self other : Modes) : Modes := self ||| other

/-- Whether this set includes another. -/
def contains (self other : Modes) : Bool := self &&& other == other

end Modes

/-- What a rule applies to. -/
inductive Scope where
  | everything
  | graph (g : NamedNode)
  | predicate (p : NamedNode)
  | graphPredicate (g p : NamedNode)
deriving DecidableEq, Repr

/-- How specific a scope is. Higher wins. -/
def Scope.specificity : Scope → Nat
  | .everything => 0
  | .graph _ => 1
  | .predicate _ => 2
  | .graphPredicate _ _ => 3

/-- Which principals a rule applies to. -/
inductive PrincipalMatch where
  | everyone
  | role (r : String)
  | attribute (key value : String)
  | identity (id : NamedNode)
  | all (subs : List PrincipalMatch)
  | any (subs : List PrincipalMatch)
  | not (sub : PrincipalMatch)

mutual

def PrincipalMatch.matches (principal : Principal) : PrincipalMatch → Bool
  | .everyone => true
  | .role r => principal.hasRole r
  | .attribute key value => principal.hasAttribute key value
  | .identity id => principal.id = id
  | .all subs => PrincipalMatch.allMatch principal subs
  | .any subs => PrincipalMatch.anyMatch principal subs
  | .not sub => !PrincipalMatch.matches principal sub

def PrincipalMatch.allMatch (principal : Principal) : List PrincipalMatch → Bool
  | [] => true
  | s :: subs => PrincipalMatch.matches principal s && PrincipalMatch.allMatch principal subs

def PrincipalMatch.anyMatch (principal : Principal) : List PrincipalMatch → Bool
  | [] => false
  | s :: subs => PrincipalMatch.matches principal s || PrincipalMatch.anyMatch principal subs

end

structure Rule where
  effect : Effect
  modes : Modes
  scope : Scope
  appliesTo : PrincipalMatch

/-- A complete policy for a store. The rules come in no significant order. -/
structure Policy where
  defaultEffect : Effect
  semantics : Semantics
  rules : List Rule
  graphLabels : List (NamedNode × Label)
  defaultGraphLabel : Label

/-! ## Compilation -/

/-- What a slot holds for the rules of one scope: specificity, effect, modes. -/
structure Entry where
  specificity : Nat
  effect : Effect
  modes : Modes
deriving DecidableEq, Repr

def Rule.entry (r : Rule) : Entry := ⟨r.scope.specificity, r.effect, r.modes⟩

/-- Two rules at the same scope: deny wins. -/
def resolveConflict (a b : Entry) : Entry :=
  match a.effect, b.effect with
  | .deny, .deny => ⟨a.specificity, .deny, a.modes.union b.modes⟩
  | .deny, .allow => a
  | .allow, .deny => b
  | .allow, .allow => ⟨a.specificity, .allow, a.modes.union b.modes⟩

def merge (slot : Option Entry) (entry : Entry) : Option Entry :=
  match slot with
  | none => some entry
  | some existing => some (resolveConflict existing entry)

/-- A hash map, as the list of its bindings: no key twice. -/
abbrev Slots (K : Type) := List (K × Entry)

def mergeMap {K : Type} [DecidableEq K] (map : Slots K) (key : K) (entry : Entry) : Slots K :=
  match map with
  | [] => [(key, entry)]
  | (k, e) :: map => if k = key then (k, resolveConflict e entry) :: map else (k, e) :: mergeMap map key entry

/-- A policy resolved against a store's dictionary, for one principal. -/
structure CompiledPolicy where
  defaultEffect : Effect
  semantics : Semantics
  everything : Option Entry
  graph : Slots TermId
  predicate : Slots TermId
  graphPredicate : Slots (TermId × TermId)
  forbiddenGraphs : List TermId
  defaultGraphForbidden : Bool
  compiledAtDictionaryLen : Nat
  unresolved : List NamedNode

/-- The slots under construction, and the IRIs no slot could be made for. -/
structure Building where
  everything : Option Entry := none
  graph : Slots TermId := []
  predicate : Slots TermId := []
  graphPredicate : Slots (TermId × TermId) := []
  unresolved : List NamedNode := []

/-- A dictionary read that may fail. -/
abbrev Resolve := NamedNode → Except StorageError (Option TermId)

def addRule (resolve : Resolve) (b : Building) (rule : Rule) : Except StorageError Building :=
  match rule.scope with
  | .everything => .ok { b with everything := merge b.everything rule.entry }
  | .graph g => do
    match ← resolve g with
    | some id => .ok { b with graph := mergeMap b.graph id rule.entry }
    | none => .ok { b with unresolved := b.unresolved ++ [g] }
  | .predicate p => do
    match ← resolve p with
    | some id => .ok { b with predicate := mergeMap b.predicate id rule.entry }
    | none => .ok { b with unresolved := b.unresolved ++ [p] }
  | .graphPredicate g p => do
    match ← resolve g, ← resolve p with
    | some g, some p => .ok { b with graphPredicate := mergeMap b.graphPredicate (g, p) rule.entry }
    | _, _ => .ok { b with unresolved := b.unresolved ++ [g, p] }

/-- One label: its graph is forbidden if the principal is not cleared for it. -/
def addLabel (resolve : Resolve) (principal : Principal) (acc : List TermId × List NamedNode)
    (entry : NamedNode × Label) : Except StorageError (List TermId × List NamedNode) := do
  match ← resolve entry.1 with
  | some id => .ok (if principal.isClearedFor entry.2 then acc else (acc.1 ++ [id], acc.2))
  | none => .ok (acc.1, acc.2 ++ [entry.1])

/-- Compiles a policy for one principal. A failed dictionary read is passed on: read as
"no rule", it would permit what the rule denies. -/
def Policy.compileWith (self : Policy) (resolve : Resolve) (dictionaryLen : Nat) (principal : Principal) :
    Except StorageError CompiledPolicy := do
  let b ← (self.rules.filter (fun r => r.appliesTo.matches principal)).foldlM (addRule resolve) {}
  let (forbidden, unresolved) ← self.graphLabels.foldlM (addLabel resolve principal) ([], b.unresolved)
  .ok {
    defaultEffect := self.defaultEffect
    semantics := self.semantics
    everything := b.everything
    graph := b.graph
    predicate := b.predicate
    graphPredicate := b.graphPredicate
    forbiddenGraphs := forbidden
    defaultGraphForbidden := !principal.isClearedFor self.defaultGraphLabel
    compiledAtDictionaryLen := dictionaryLen
    unresolved := unresolved }

/-- Compiles a policy for one principal against one store. -/
def Policy.compile (self : Policy) (store : Store) (principal : Principal) : Except StorageError CompiledPolicy :=
  self.compileWith (fun n => .ok (store.lookupTerm (.namedNode n))) store.dictionaryLen principal

/-! ## Decisions -/

/-- What the policy decided: permitted, to be omitted, or to abort the query. -/
inductive Decision where
  | allow
  | filter
  | fail
deriving DecidableEq, Repr

namespace CompiledPolicy

/-- A compiled policy that permits everything. -/
def permitAll : CompiledPolicy where
  defaultEffect := .allow
  semantics := .filter
  everything := none
  graph := []
  predicate := []
  graphPredicate := []
  forbiddenGraphs := []
  defaultGraphForbidden := false
  compiledAtDictionaryLen := 2 ^ 64 - 1
  unresolved := []

def refusal (self : CompiledPolicy) : Decision :=
  match self.semantics with
  | .filter => .filter
  | .fail => .fail

/-- Whether the principal is cleared for a graph's labels. -/
def cleared (self : CompiledPolicy) : Option TermId → Bool
  | none => !self.defaultGraphForbidden
  | some g => !decide (g ∈ self.forbiddenGraphs)

/-- One slot, looked at for one mode: a slot at least as specific as the best so far
replaces it. -/
def consider (mode : Modes) (best : Option (Nat × Effect)) (slot : Option Entry) : Option (Nat × Effect) :=
  match slot with
  | some e =>
    if e.modes.contains mode && (match best with | none => true | some (s, _) => e.specificity ≥ s)
    then some (e.specificity, e.effect) else best
  | none => best

/-- The four slots of a quad, least specific first. -/
def slots (self : CompiledPolicy) (quad : EncodedQuad) : List (Option Entry) :=
  [self.everything,
   quad.graphName.bind (self.graph.lookup ·),
   self.predicate.lookup quad.predicate,
   quad.graphName.bind (fun g => self.graphPredicate.lookup (g, quad.predicate))]

/-- Decides one quad. Clearance first; then the most specific slot for the mode. -/
def decideQuad (self : CompiledPolicy) (quad : EncodedQuad) (mode : Modes) : Decision :=
  if !self.cleared quad.graphName then self.refusal
  else
    let best := (self.slots quad).foldl (consider mode) none
    match (best.map (·.2)).getD self.defaultEffect with
    | .allow => .allow
    | .deny => self.refusal

/-- Whether an entire graph can be skipped without examining its quads. -/
def graphIsWhollyDenied (self : CompiledPolicy) (graph : Option TermId) : Bool :=
  if !self.cleared graph then true
  else
    let graphEffect := (graph.bind (self.graph.lookup ·)).map (·.effect)
    let noFinerAllows :=
      (self.predicate.map (·.2) ++ self.graphPredicate.map (·.2)).all (fun e => e.effect = .deny)
    graphEffect = some .deny && noFinerAllows

end CompiledPolicy

end Holos.Security
