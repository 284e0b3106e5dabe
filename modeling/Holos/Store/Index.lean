import Holos.Core
import Holos.Lib.SortedSet
/-!
# The nine-order quad index

Default-graph triples live in three orders, quads of named graphs in six. Every
pattern shape is a prefix range of exactly one order; a bounded object is a range
with one component more. The graph names are kept beside the quads, because a named
graph may hold none.
-/

namespace Holos

open Lib

/-- A quad whose terms have been interned; `none` for the default graph. -/
structure EncodedQuad where
  subject : TermId
  predicate : TermId
  object : TermId
  graphName : Option TermId
deriving DecidableEq, Repr

/-- An inclusive span of term ids. -/
structure IdRange where
  first : TermId
  last : TermId
deriving DecidableEq, Repr

namespace IdRange

/-- Every id with a given tag. -/
def wholeTag (tag : Tag) : IdRange :=
  ⟨TermId.new tag 0 (Nat.zero_le _), TermId.new tag TermId.payloadMax le_rfl⟩

def contains (r : IdRange) (id : TermId) : Bool := r.first ≤ id && id ≤ r.last

def isEmpty (r : IdRange) : Bool := r.first > r.last

theorem contains_iff {r : IdRange} {id : TermId} : r.contains id = true ↔ r.first ≤ id ∧ id ≤ r.last := by
  simp [contains]

end IdRange

/-- Which graphs a pattern is allowed to match. `anyNamed` leaves the default graph out. -/
inductive GraphFilter where
  | default
  | named (g : TermId)
  | anyNamed
  | any
deriving DecidableEq, Repr

/-! ## Keys -/

/-- A key of three ids, ordered by its components from the left. -/
structure Key3 where
  a : TermId
  b : TermId
  c : TermId
deriving DecidableEq, Repr

/-- A key of four ids, ordered by its components from the left. -/
structure Key4 where
  a : TermId
  b : TermId
  c : TermId
  d : TermId
deriving DecidableEq, Repr

def Key3.toList (k : Key3) : List TermId := [k.a, k.b, k.c]
def Key4.toList (k : Key4) : List TermId := [k.a, k.b, k.c, k.d]

theorem Key3.toList_injective : Function.Injective Key3.toList := by
  rintro ⟨a, b, c⟩ ⟨a', b', c'⟩ h
  simpa [Key3.toList] using h

theorem Key4.toList_injective : Function.Injective Key4.toList := by
  rintro ⟨a, b, c, d⟩ ⟨a', b', c', d'⟩ h
  simpa [Key4.toList] using h

instance : LinearOrder Key3 := LinearOrder.lift' Key3.toList Key3.toList_injective
instance : LinearOrder Key4 := LinearOrder.lift' Key4.toList Key4.toList_injective

theorem Key3.le_iff {k l : Key3} : k ≤ l ↔ k.toList ≤ l.toList := Iff.rfl
theorem Key4.le_iff {k l : Key4} : k ≤ l ↔ k.toList ≤ l.toList := Iff.rfl

/-! ## The index -/

/-- Nine sorted orders over a set of quads, and the named graphs that exist. -/
structure QuadIndex where
  dspo : SortedSet Key3
  dpos : SortedSet Key3
  dosp : SortedSet Key3
  spog : SortedSet Key4
  posg : SortedSet Key4
  ospg : SortedSet Key4
  gspo : SortedSet Key4
  gpos : SortedSet Key4
  gosp : SortedSet Key4
  graphs : SortedSet TermId

namespace QuadIndex

def new : QuadIndex :=
  ⟨.empty, .empty, .empty, .empty, .empty, .empty, .empty, .empty, .empty, .empty⟩

def len (ix : QuadIndex) : Nat := ix.dspo.toList.length + ix.gspo.toList.length

/-- Inserts a quad. The flag says whether it was absent before. -/
def insert (ix : QuadIndex) (quad : EncodedQuad) : Bool × QuadIndex :=
  let ⟨s, p, o, graphName⟩ := quad
  match graphName with
  | none =>
    if (⟨s, p, o⟩ : Key3) ∈ ix.dspo then (false, ix)
    else
      (true, { ix with
        dspo := ix.dspo.insert ⟨s, p, o⟩
        dpos := ix.dpos.insert ⟨p, o, s⟩
        dosp := ix.dosp.insert ⟨o, s, p⟩ })
  | some g =>
    if (⟨g, s, p, o⟩ : Key4) ∈ ix.gspo then (false, ix)
    else
      (true, { ix with
        gspo := ix.gspo.insert ⟨g, s, p, o⟩
        gpos := ix.gpos.insert ⟨g, p, o, s⟩
        gosp := ix.gosp.insert ⟨g, o, s, p⟩
        spog := ix.spog.insert ⟨s, p, o, g⟩
        posg := ix.posg.insert ⟨p, o, s, g⟩
        ospg := ix.ospg.insert ⟨o, s, p, g⟩
        graphs := ix.graphs.insert g })

/-- Removes a quad. The flag says whether it was present. The named graph itself
survives an emptying removal. -/
def remove (ix : QuadIndex) (quad : EncodedQuad) : Bool × QuadIndex :=
  let ⟨s, p, o, graphName⟩ := quad
  match graphName with
  | none =>
    if (⟨s, p, o⟩ : Key3) ∈ ix.dspo then
      (true, { ix with
        dspo := ix.dspo.remove ⟨s, p, o⟩
        dpos := ix.dpos.remove ⟨p, o, s⟩
        dosp := ix.dosp.remove ⟨o, s, p⟩ })
    else (false, ix)
  | some g =>
    if (⟨g, s, p, o⟩ : Key4) ∈ ix.gspo then
      (true, { ix with
        gspo := ix.gspo.remove ⟨g, s, p, o⟩
        gpos := ix.gpos.remove ⟨g, p, o, s⟩
        gosp := ix.gosp.remove ⟨g, o, s, p⟩
        spog := ix.spog.remove ⟨s, p, o, g⟩
        posg := ix.posg.remove ⟨p, o, s, g⟩
        ospg := ix.ospg.remove ⟨o, s, p, g⟩ })
    else (false, ix)

/-- Records a named graph that may hold no quads. -/
def insertNamedGraph (ix : QuadIndex) (graph : TermId) : Bool × QuadIndex :=
  (decide (graph ∉ ix.graphs), { ix with graphs := ix.graphs.insert graph })

/-! ## Prefix ranges -/

/-- The bound of a range: the prefix, then one sentinel per unbound component. -/
def lower (n : Nat) (pre : List TermId) : List TermId := pre ++ List.replicate (n - pre.length) TermId.min
def upper (n : Nat) (pre : List TermId) : List TermId := pre ++ List.replicate (n - pre.length) TermId.max

/-- Reads a bound back as an array; a list of another length is no array of three. -/
def key3 : List TermId → Key3
  | [a, b, c] => ⟨a, b, c⟩
  | _ => ⟨TermId.min, TermId.min, TermId.min⟩

def key4 : List TermId → Key4
  | [a, b, c, d] => ⟨a, b, c, d⟩
  | _ => ⟨TermId.min, TermId.min, TermId.min, TermId.min⟩

/-- Prefix range over a three-component order. -/
def scan3 (set : SortedSet Key3) (pre : List TermId) (unpermute : Key3 → EncodedQuad) : List EncodedQuad :=
  (set.range (key3 (lower 3 pre)) (key3 (upper 3 pre))).map unpermute

/-- Prefix range over a four-component order. -/
def scan4 (set : SortedSet Key4) (pre : List TermId) (unpermute : Key4 → EncodedQuad) : List EncodedQuad :=
  (set.range (key4 (lower 4 pre)) (key4 (upper 4 pre))).map unpermute

/-! ## Default graph: the d* orders -/

def ofSpo : Key3 → EncodedQuad := fun ⟨s, p, o⟩ => ⟨s, p, o, none⟩
def ofPos : Key3 → EncodedQuad := fun ⟨p, o, s⟩ => ⟨s, p, o, none⟩
def ofOsp : Key3 → EncodedQuad := fun ⟨o, s, p⟩ => ⟨s, p, o, none⟩

def scanDefault (ix : QuadIndex) (s p o : Option TermId) : List EncodedQuad :=
  match s, p, o with
  | some s, some p, some o => scan3 ix.dspo [s, p, o] ofSpo
  | some s, some p, none => scan3 ix.dspo [s, p] ofSpo
  | some s, none, some o => scan3 ix.dosp [o, s] ofOsp
  | some s, none, none => scan3 ix.dspo [s] ofSpo
  | none, some p, some o => scan3 ix.dpos [p, o] ofPos
  | none, some p, none => scan3 ix.dpos [p] ofPos
  | none, none, some o => scan3 ix.dosp [o] ofOsp
  | none, none, none => scan3 ix.dspo [] ofSpo

/-! ## One named graph: the g* orders, graph first -/

def ofGspo (g : TermId) : Key4 → EncodedQuad := fun ⟨_, s, p, o⟩ => ⟨s, p, o, some g⟩
def ofGpos (g : TermId) : Key4 → EncodedQuad := fun ⟨_, p, o, s⟩ => ⟨s, p, o, some g⟩
def ofGosp (g : TermId) : Key4 → EncodedQuad := fun ⟨_, o, s, p⟩ => ⟨s, p, o, some g⟩

def scanNamed (ix : QuadIndex) (g : TermId) (s p o : Option TermId) : List EncodedQuad :=
  match s, p, o with
  | some s, some p, some o => scan4 ix.gspo [g, s, p, o] (ofGspo g)
  | some s, some p, none => scan4 ix.gspo [g, s, p] (ofGspo g)
  | some s, none, some o => scan4 ix.gosp [g, o, s] (ofGosp g)
  | some s, none, none => scan4 ix.gspo [g, s] (ofGspo g)
  | none, some p, some o => scan4 ix.gpos [g, p, o] (ofGpos g)
  | none, some p, none => scan4 ix.gpos [g, p] (ofGpos g)
  | none, none, some o => scan4 ix.gosp [g, o] (ofGosp g)
  | none, none, none => scan4 ix.gspo [g] (ofGspo g)

/-! ## Any named graph: the *g orders, graph last -/

def ofSpog : Key4 → EncodedQuad := fun ⟨s, p, o, g⟩ => ⟨s, p, o, some g⟩
def ofPosg : Key4 → EncodedQuad := fun ⟨p, o, s, g⟩ => ⟨s, p, o, some g⟩
def ofOspg : Key4 → EncodedQuad := fun ⟨o, s, p, g⟩ => ⟨s, p, o, some g⟩

def scanAnyNamed (ix : QuadIndex) (s p o : Option TermId) : List EncodedQuad :=
  match s, p, o with
  | some s, some p, some o => scan4 ix.spog [s, p, o] ofSpog
  | some s, some p, none => scan4 ix.spog [s, p] ofSpog
  | some s, none, some o => scan4 ix.ospg [o, s] ofOspg
  | some s, none, none => scan4 ix.spog [s] ofSpog
  | none, some p, some o => scan4 ix.posg [p, o] ofPosg
  | none, some p, none => scan4 ix.posg [p] ofPosg
  | none, none, some o => scan4 ix.ospg [o] ofOspg
  | none, none, none => scan4 ix.spog [] ofSpog

/-- Every quad matching a pattern. `none` in a position means unbound. -/
def quadsForPattern (ix : QuadIndex) (s p o : Option TermId) (graph : GraphFilter) : List EncodedQuad :=
  match graph with
  | .default => ix.scanDefault s p o
  | .named g => ix.scanNamed g s p o
  | .anyNamed => ix.scanAnyNamed s p o
  | .any => ix.scanDefault s p o ++ ix.scanAnyNamed s p o

/-! ## Ranges bounded by a span on the object -/

def rangeDefault (ix : QuadIndex) (p : Option TermId) (span : IdRange) : List EncodedQuad :=
  match p with
  | some p => (ix.dpos.range ⟨p, span.first, TermId.min⟩ ⟨p, span.last, TermId.max⟩).map ofPos
  | none => (ix.dosp.range ⟨span.first, TermId.min, TermId.min⟩ ⟨span.last, TermId.max, TermId.max⟩).map ofOsp

def rangeNamed (ix : QuadIndex) (g : TermId) (p : Option TermId) (span : IdRange) : List EncodedQuad :=
  match p with
  | some p => (ix.gpos.range ⟨g, p, span.first, TermId.min⟩ ⟨g, p, span.last, TermId.max⟩).map (ofGpos g)
  | none =>
    (ix.gosp.range ⟨g, span.first, TermId.min, TermId.min⟩ ⟨g, span.last, TermId.max, TermId.max⟩).map (ofGosp g)

def rangeAnyNamed (ix : QuadIndex) (p : Option TermId) (span : IdRange) : List EncodedQuad :=
  match p with
  | some p =>
    (ix.posg.range ⟨p, span.first, TermId.min, TermId.min⟩ ⟨p, span.last, TermId.max, TermId.max⟩).map ofPosg
  | none =>
    (ix.ospg.range ⟨span.first, TermId.min, TermId.min, TermId.min⟩
      ⟨span.last, TermId.max, TermId.max, TermId.max⟩).map ofOspg

/-- The rows of a span scan before the subject is looked at. -/
def rangeRows (ix : QuadIndex) (predicate : Option TermId) (span : IdRange) (graph : GraphFilter) : List EncodedQuad :=
  match graph with
  | .default => ix.rangeDefault predicate span
  | .named g => ix.rangeNamed g predicate span
  | .anyNamed => ix.rangeAnyNamed predicate span
  | .any => ix.rangeDefault predicate span ++ ix.rangeAnyNamed predicate span

/-- Quads matching the pattern whose object lies inside `span`. A bound subject is
checked afterwards: in both orders used it sits behind the object. -/
def quadsWithObjectIn (ix : QuadIndex) (subject predicate : Option TermId) (span : IdRange)
    (graph : GraphFilter) : List EncodedQuad :=
  if span.isEmpty then []
  else
    let rows := ix.rangeRows predicate span graph
    match subject with
    | none => rows
    | some s => rows.filter (fun q => q.subject = s)

/-- Drops a named graph and everything in it. The flag says whether it existed. -/
def removeNamedGraph (ix : QuadIndex) (graph : TermId) : Bool × QuadIndex :=
  let victims := ix.quadsForPattern none none none (.named graph)
  let ix := victims.foldl (fun ix quad => (ix.remove quad).2) ix
  (decide (graph ∈ ix.graphs), { ix with graphs := ix.graphs.remove graph })

/-! ## Routing -/

/-- The nine orders, by name. -/
inductive Order where
  | dspo | dpos | dosp | spog | posg | ospg | gspo | gpos | gosp
deriving DecidableEq, Repr

/-- Which of the nine orders a pattern is answered from. -/
def plan (s p o : Option TermId) (graph : GraphFilter) : Order :=
  let bound := (s.isSome, p.isSome, o.isSome)
  match graph with
  | .default => match bound with
    | (true, _, false) | (true, true, true) => .dspo
    | (false, true, _) => .dpos
    | (_, false, true) => .dosp
    | (false, false, false) => .dspo
  | .named _ => match bound with
    | (true, _, false) | (true, true, true) => .gspo
    | (false, true, _) => .gpos
    | (_, false, true) => .gosp
    | (false, false, false) => .gspo
  | .anyNamed | .any => match bound with
    | (true, _, false) | (true, true, true) => .spog
    | (false, true, _) => .posg
    | (_, false, true) => .ospg
    | (false, false, false) => .spog

end QuadIndex

end Holos
