import Holos.InlineOrder
import Holos.Lib.Binary
import Holos.Shacl.Validate
/-!
# Comparing values

How the range constraints order two values: two inline ids of one tag by the ids, two numbers as
doubles, dates and times by `oxsdatatypes`' order, and other literals of one datatype by their text.
-/

namespace Holos.Shacl

open Lib

/-! ## Doubles -/

/-- A double as a comparison sees it: NaN, or its place between the infinities. -/
inductive F64 where
  | nan
  | at (place : Int)
deriving DecidableEq, Repr

namespace F64

/-- What is too large for the format. -/
def infinity : Int := 2047 * 2 ^ 52

/-- The double a number is rounded to. -/
def round (q : ℚ) : Int := Binary.round 52 (-1074) infinity q

def partialCmp : F64 → F64 → Option Ordering
  | .at x, .at y => some (compare x y)
  | _, _ => none

/-- A sign in front, and what it is in front of. -/
def splitSign : List Char → Bool × List Char
  | '-' :: cs => (true, cs)
  | '+' :: cs => (false, cs)
  | cs => (false, cs)

def digitsValue (ds : List Char) : Nat := ds.foldl (fun n c => 10 * n + (c.toNat - '0'.toNat)) 0

/-- Digits with at most one point among them, and what comes behind. -/
def numeral (cs : List Char) : Option (ℚ × List Char) :=
  let whole := cs.takeWhile Char.isDigit
  match cs.dropWhile Char.isDigit with
  | '.' :: rest =>
    let fraction := rest.takeWhile Char.isDigit
    if whole.isEmpty && fraction.isEmpty then none
    else some (digitsValue (whole ++ fraction) / 10 ^ fraction.length, rest.dropWhile Char.isDigit)
  | rest => if whole.isEmpty then none else some (digitsValue whole, rest)

/-- The exponent behind a numeral, zero if there is none. -/
def exponent : List Char → Option Int
  | [] => some 0
  | c :: cs =>
    if c = 'e' ∨ c = 'E' then
      let (negative, ds) := splitSign cs
      if ds.isEmpty || !ds.all Char.isDigit then none else some (if negative then -digitsValue ds else digitsValue ds)
    else none

/-- `str::parse::<f64>`, which rounds what is written to the nearest double. -/
def parse (s : String) : Option F64 :=
  let (negative, cs) := splitSign s.toList
  match numeral cs with
  | some (q, rest) => (exponent rest).map (fun e => .at (round ((if negative then -q else q) * 10 ^ e)))
  | none =>
    let name := String.ofList (cs.map Char.toLower)
    if name = "nan" then some .nan
    else if name = "inf" ∨ name = "infinity" then some (.at (if negative then -infinity else infinity))
    else none

end F64

/-! ## Terms -/

inductive NodeKind where
  | iri | blankNode | literal | tripleTerm
deriving DecidableEq, Repr

/-- What kind of RDF node an id denotes, without decoding it. -/
def nodeKind (id : TermId) : NodeKind :=
  match id.tag with
  | .iri | .vocab => .iri
  | .blankNode => .blankNode
  | .tripleTerm => .tripleTerm
  | _ => .literal

def isLiteral (id : TermId) : Bool := nodeKind id = .literal

/-- The datatypes derived from `xsd:integer`, and itself. -/
def integers : List NamedNode :=
  ["integer", "long", "int", "short", "byte", "nonNegativeInteger", "positiveInteger", "nonPositiveInteger", "negativeInteger",
    "unsignedLong", "unsignedInt", "unsignedShort", "unsignedByte"].map Vocab.xsd

def isNumeric (datatype : NamedNode) : Bool :=
  (integers ++ [Vocab.xsd "decimal", Vocab.xsd "float", Vocab.xsd "double"]).contains datatype

/-- How `oxsdatatypes` compares dates and times: none where a text is not one, or the two have no order. -/
structure Temporal where
  compareDateTimes : Inline.DateTime → Inline.DateTime → Option Ordering
  compareDates : String → String → Option (Option Ordering)
  compareTimes : String → String → Option (Option Ordering)

section
variable (X : Inline.Datatypes) (T : Temporal) (decode : Decode)

/-- Compares two lexical forms of a date or time type, if it is one. -/
def temporalCmp (datatype : NamedNode) (a b : String) : Option (Option Ordering) :=
  if datatype = Vocab.xsd "dateTime" then
    match X.parseDateTime a, X.parseDateTime b with
    | some a, some b => some (T.compareDateTimes a b)
    | _, _ => none
  else if datatype = Vocab.xsd "date" then T.compareDates a b
  else if datatype = Vocab.xsd "time" then T.compareTimes a b
  else none

/-- Orders two literals by what is written. -/
def compareLiterals (la lb : Literal) : Option Ordering :=
  let numeric := if isNumeric la.datatype && isNumeric lb.datatype then
      (F64.parse la.value).bind (fun na => (F64.parse lb.value).map (fun nb => na.partialCmp nb))
    else none
  match numeric with
  | some ordering => ordering
  | none =>
    if la.datatype = lb.datatype then
      match temporalCmp X T la.datatype la.value lb.value with
      | some ordering => ordering
      | none => some (Ord.compare la.value lb.value)
    else none

namespace Validator

/-- Tags whose ids are in the order of their values. -/
def ordered : Tag → Bool
  | .integer | .float | .dateTime => true
  | _ => false

/-- Orders two values. -/
def compare (a b : TermId) : Except StorageError (Option Ordering) :=
  if a.tag = b.tag ∧ ordered a.tag then return some (Ord.compare a b)
  else if !isLiteral a || !isLiteral b then return none
  else do
    match ← decode a, ← decode b with
    | some (.literal la), some (.literal lb) => return compareLiterals X T la lb
    | _, _ => return none

/-- Reports the values that are not in order with the bound. -/
def range (values : List TermId) (bound : TermId) (shape : Shape) (focus component : TermId) (ok : Ordering → Bool) :
    Except StorageError (List ValidationResult) :=
  values.foldlM (fun results v => do
    let satisfied := (← compare X T decode v bound).any ok
    return results ++ if satisfied then [] else [result shape focus (some v) component]) []

end Validator

end

end Holos.Shacl
