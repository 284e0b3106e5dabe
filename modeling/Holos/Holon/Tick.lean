import Holos.Holon.Registry
/-!
# A tick

Apply the delta to the scene, run the boundary's rules, validate, append the event and move the
version on, in one commit scope. A commit the boundary refuses is taken back by compensating
writes, because the event must still say that it was attempted.

What validation finds is a parameter, as is what the rules derive.
-/

namespace Holos

open Lib Security Shacl

/-- What a tick proposes to change. -/
structure Delta where
  added : List Triple
  removed : List Triple
deriving DecidableEq, Repr

/-- Compiled boundary shapes over a store, and the results of validating a delta. -/
structure Validation (B : Backend) where
  Shapes : Type
  Report : Type
  compile : B.State → Options → Except ShaclError Shapes
  isEmpty : Shapes → Bool
  revalidate : Shapes → B.State → List Change → Except ShaclError Report
  results : Report → Nat

structure TickOutcome (Report : Type) where
  version : Nat
  admitted : Bool
  violations : Nat
  applied : Nat
  report : Option Report

def TickOutcome.committed {Report : Type} (self : TickOutcome Report) : Bool := self.admitted

/-- One change the tick made to the scene. -/
structure Applied where
  operation : Operation
  triple : Triple
  encoded : EncodedQuad
deriving DecidableEq, Repr

def Applied.change (a : Applied) : Change := ⟨a.encoded, a.operation = .added⟩

def Applied.recorded (a : Applied) : Operation × Triple := (a.operation, a.triple)

/-! ## Rules kept across ticks -/

/-- A boundary's rules, bridged once. -/
structure Rules (E : RuleEngine) where
  run : EngineRun E
  /-- The scene these rules were bridged against. -/
  scene : NamedNode

variable {B : Backend} {E : RuleEngine}

namespace Rules

def maxRounds : Nat := 16

/-- Bridges a holon's scene and boundary. The scene's IRI is interned by encoding a quad that
names it. -/
def prepare {ρ : Type} (holon : Holon) : Eff HolonError (World B ρ) (Option (Rules E)) := do
  match ← World.lookupTerm (.namedNode holon.boundary) with
  | none => return none
  | some boundary =>
    let named ← World.encodeQuad ⟨.namedNode holon.scene, holon.scene, .namedNode holon.scene, .defaultGraph⟩
    let run ← .of (fun w => (EngineRun.prepare (B.decode w.store) (B.scan w.store none none none)
      ⟨.named named.subject, .named boundary⟩).map (fun r => (r.mapError .shacl, w)))
    return some ⟨run, holon.scene⟩

/-- Brings the bridged scene up to date and returns what the rules infer from it. -/
def fire (decode : Decode) (holon : Holon) (changes : List Change) : Eff HolonError (Rules E) (List Triple) := do
  let rules ← get
  if rules.scene ≠ holon.scene then
    throw (.shacl (.unsupported
      s!"these rules were bridged against <<{rules.scene}>> and cannot be used on <<{holon.scene}>>"))
  else
    -- the bridge hears of the delta before anyone knows whether it will be kept
    modify (fun rules => { rules with run := rules.run.checkpoint })
    ((EngineRun.apply decode changes).mapError .shacl).on Rules.run (fun rules run => { rules with run })
    .reads (fun rules => (rules.run.infer maxRounds).mapError .shacl)

/-- Brings the bridge back into step with the scene once the tick has finished. -/
def settle (rules : Rules E) (decode : Decode) (committed : Bool) : Option (Rules E) :=
  if committed then some { rules with run := rules.run.accept }
  else (rules.run.revert decode).map (fun run => { rules with run })

end Rules

/-! ## The tick -/

/-- What a tick runs in: the store, the session, and the rules if it was given some. -/
abbrev Ticking (B : Backend) (E : RuleEngine) := World B (Option (Rules E))

variable (holon : Holon)

/-- Adds a triple to the scene, if the session may write it. -/
def addToScene (applied : List Applied) (triple : Triple) : Eff HolonError (Ticking B E) (List Applied) := do
  let encoded ← World.encodeQuad (triple.inGraph (.namedNode holon.scene))
  if (← World.policy).permitsQuad encoded Modes.write then
    if ← World.insertEncoded encoded then return applied ++ [⟨.added, triple, encoded⟩]
    else return applied
  else throw (.writeDenied holon.scene)

/-- Removes a triple from the scene, if the session may read it and write it. -/
def removeFromScene (applied : List Applied) (triple : Triple) : Eff HolonError (Ticking B E) (List Applied) := do
  let encoded ← World.encodeQuad (triple.inGraph (.namedNode holon.scene))
  let policy ← World.policy
  if policy.permitsQuad encoded Modes.write && policy.permitsQuad encoded Modes.read then
    if ← World.remove (triple.inGraph (.namedNode holon.scene)) then return applied ++ [⟨.removed, triple, encoded⟩]
    else return applied
  else throw (.writeDenied holon.scene)

/-- What the rules infer, if there are any. -/
def fireRules (changes : List Change) : Eff HolonError (Ticking B E) (List Triple) :=
  .of (fun w => match w.extra with
    | none => some (.ok [], w)
    | some rules => ((Rules.fire (B.decode w.store) holon changes).exec rules).map
        (fun r => (r.1, { w with extra := some r.2 })))

/-- Validates the scene against the boundary. A holon with no boundary graph constrains nothing. -/
def validate (V : Validation B) (changes : List Change) : Eff HolonError (Ticking B E) (Nat × Option V.Report) := do
  let scene ← World.lookupTerm (.namedNode holon.scene)
  let boundary ← World.lookupTerm (.namedNode holon.boundary)
  match scene, boundary with
  | some scene, some boundary =>
    let shapes ← .reads (fun w => (V.compile w.store ⟨.named scene, .named boundary⟩).mapError .shacl)
    if V.isEmpty shapes then return (0, none)
    else
      let report ← .reads (fun w => (V.revalidate shapes w.store changes).mapError .shacl)
      return (V.results report, some report)
  | _, _ => return (0, none)

/-- Takes one change back. -/
def undoChange (a : Applied) : Eff HolonError (Ticking B E) Unit := do
  match a.operation with
  | .added => let _ ← World.removeEncodedQuad a.encoded
  | .removed => let _ ← World.insertEncoded a.encoded

/-- Unapplies the delta of a commit the boundary refused. -/
def undo (applied : List Applied) : Eff HolonError (Ticking B E) Unit :=
  applied.reverse.foldlM (fun _ a => undoChange a) ()

/-- Writes the event, whether or not the commit was admitted. -/
def appendEvent (record : TickRecord) : Eff HolonError (Ticking B E) Unit :=
  (Event.toQuads record).foldlM (fun _ quad => do let _ ← World.insert quad) ()

/-- Step 1: the delta, additions before removals. -/
def applyDelta (delta : Delta) : Eff HolonError (Ticking B E) (List Applied) := do
  let added ← delta.added.foldlM (addToScene holon) []
  delta.removed.foldlM (removeFromScene holon) added

/-- Steps 3 and 4: judge what was applied, and append the event. -/
def judge (V : Validation B) (now : Int) (version : Nat) (applied : List Applied) :
    Eff HolonError (Ticking B E) (TickOutcome V.Report) := do
  let (violations, report) ← validate holon V (applied.map Applied.change)
  let admitted := violations = 0 || holon.admission = .admitAndRecord
  if !admitted then undo applied
  let principal ← .reads (fun w => .ok w.session.principal.id)
  appendEvent ⟨holon, version, now, principal, applied.map Applied.recorded, admitted, violations⟩
  Registry.setVersion true holon version
  return ⟨version, admitted, violations, if admitted then applied.length else 0, report⟩

/-- The tick itself, with the commit scope already open around it. What the rules infer joins what
was applied, and is judged and recorded with it. -/
def tickBody (V : Validation B) (now : Int) (delta : Delta) : Eff HolonError (Ticking B E) (TickOutcome V.Report) := do
  match holon.projections.find? (fun projection => projection.regime = .maintained) with
  | some projection => throw (.unsupportedRegime projection.id)
  | none =>
    let version ← Registry.nextVersion holon
    let changed ← applyDelta holon delta
    let inferred ← fireRules holon (changed.map Applied.change)
    let applied ← inferred.foldlM (addToScene holon) changed
    judge holon V now version applied

/-- Squares the rules with the store as it finally stands. -/
def settleRules (committed : Bool) : Eff HolonError (Ticking B E) Unit :=
  .of (fun w => match w.extra with
    | none => some (.ok (), w)
    | some rules => (rules.settle (B.decode w.store) committed).map (fun rules => (.ok (), { w with extra := some rules })))

/-- Applies one tick to a holon. A commit that fails ends it before the rules are settled. -/
def tickWithRules (lands : Bool) (V : Validation B) (now : Int) (delta : Delta) :
    Eff HolonError (Ticking B E) (TickOutcome V.Report) := do
  let owned ← beginCommit
  let outcome ← Eff.attempt (tickBody holon V now delta)
  endCommit lands owned outcome.isOk
  settleRules (outcome.toOption.any TickOutcome.committed)
  inCommit.liftExcept outcome

end Holos
