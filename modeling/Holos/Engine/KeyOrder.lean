import Holos.Engine.TopK
import Holos.Lib.Fallback
/-!
# Literals as sort keys

The values that the evaluator gives literals, `<` between two of them where SPARQL defines it, and the
lexical order that they fall back to. `cmpKeys` over these values is the engine's whole order.

The types of XSD are a parameter: how two values of one compare, how a value of one is taken for a
value of another, and how it is printed.
-/

namespace Holos.Engine.TopK

def xsdDouble : NamedNode := "http://www.w3.org/2001/XMLSchema#double"
def xsdDecimal : NamedNode := "http://www.w3.org/2001/XMLSchema#decimal"

/-- `oxsdatatypes`. -/
structure XsdTypes where
  Float : Type
  Double : Type
  Integer : Type
  Decimal : Type
  DateTime : Type
  cmpFloat : Float → Float → Option Ordering
  cmpDouble : Double → Double → Option Ordering
  cmpInteger : Integer → Integer → Option Ordering
  cmpDecimal : Decimal → Decimal → Option Ordering
  cmpDateTime : DateTime → DateTime → Option Ordering
  floatOfInteger : Integer → Float
  floatOfDecimal : Decimal → Float
  doubleOfFloat : Float → Double
  doubleOfInteger : Integer → Double
  doubleOfDecimal : Decimal → Double
  decimalOfInteger : Integer → Decimal
  showFloat : Float → String
  showDouble : Double → String
  showInteger : Integer → String
  showDecimal : Decimal → String
  showDateTime : DateTime → String

/-- The literals among the evaluator's terms. A literal of a datatype that has no values here, or whose
text is no value of its datatype, is kept as it is written. -/
inductive Value (X : XsdTypes) where
  | stringLiteral (value : String)
  | langStringLiteral (value language : String)
  | dirLangStringLiteral (value language : String) (direction : BaseDirection)
  | booleanLiteral (value : Bool)
  | floatLiteral (value : X.Float)
  | doubleLiteral (value : X.Double)
  | integerLiteral (value : X.Integer)
  | decimalLiteral (value : X.Decimal)
  | dateTimeLiteral (value : X.DateTime)
  | otherTypedLiteral (value : String) (datatype : NamedNode)

variable {X : XsdTypes}

/-- `Term::from`. -/
def Value.toLiteral : Value X → Literal
  | .stringLiteral value => .simple value
  | .langStringLiteral value language => .languageTagged value language
  | .dirLangStringLiteral value language direction => .directional value language direction
  | .booleanLiteral value => .newTyped (toString value) Xsd.boolean
  | .floatLiteral value => .newTyped (X.showFloat value) Xsd.float
  | .doubleLiteral value => .newTyped (X.showDouble value) xsdDouble
  | .integerLiteral value => .newTyped (X.showInteger value) Xsd.integer
  | .decimalLiteral value => .newTyped (X.showDecimal value) xsdDecimal
  | .dateTimeLiteral value => .newTyped (X.showDateTime value) Xsd.dateTime
  | .otherTypedLiteral value datatype => .newTyped value datatype

/-- SPARQL's `<` between two literals, where it is defined. -/
def partialCmpLiterals : Value X → Value X → Option Ordering
  | .stringLiteral a, .stringLiteral b => some (compare a b)
  | .langStringLiteral va la, .langStringLiteral vb lb => if la = lb then some (compare va vb) else none
  | .dirLangStringLiteral va la da, .dirLangStringLiteral vb lb db => if la = lb ∧ da = db then some (compare va vb) else none
  | .floatLiteral a, .floatLiteral b => X.cmpFloat a b
  | .floatLiteral a, .doubleLiteral b => X.cmpDouble (X.doubleOfFloat a) b
  | .floatLiteral a, .integerLiteral b => X.cmpFloat a (X.floatOfInteger b)
  | .floatLiteral a, .decimalLiteral b => X.cmpFloat a (X.floatOfDecimal b)
  | .doubleLiteral a, .floatLiteral b => X.cmpDouble a (X.doubleOfFloat b)
  | .doubleLiteral a, .doubleLiteral b => X.cmpDouble a b
  | .doubleLiteral a, .integerLiteral b => X.cmpDouble a (X.doubleOfInteger b)
  | .doubleLiteral a, .decimalLiteral b => X.cmpDouble a (X.doubleOfDecimal b)
  | .integerLiteral a, .floatLiteral b => X.cmpFloat (X.floatOfInteger a) b
  | .integerLiteral a, .doubleLiteral b => X.cmpDouble (X.doubleOfInteger a) b
  | .integerLiteral a, .integerLiteral b => X.cmpInteger a b
  | .integerLiteral a, .decimalLiteral b => X.cmpDecimal (X.decimalOfInteger a) b
  | .decimalLiteral a, .floatLiteral b => X.cmpFloat (X.floatOfDecimal a) b
  | .decimalLiteral a, .doubleLiteral b => X.cmpDouble (X.doubleOfDecimal a) b
  | .decimalLiteral a, .integerLiteral b => X.cmpDecimal a (X.decimalOfInteger b)
  | .decimalLiteral a, .decimalLiteral b => X.cmpDecimal a b
  | .dateTimeLiteral a, .dateTimeLiteral b => X.cmpDateTime a b
  | _, _ => none

/-- No language before any. -/
def cmpLanguages : Option String → Option String → Ordering
  | none, none => .eq
  | none, some _ => .lt
  | some _, none => .gt
  | some a, some b => compare a b

/-- Lexical form, then datatype, then language tag. -/
def cmpLiterals (a b : Literal) : Ordering :=
  ((compare a.value b.value).then (compare a.datatype b.datatype)).then (cmpLanguages a.language b.language)

/-- The order two literals fall back to when `<` is not defined between them. Those that have no value are
compared in place. -/
def lexicalCmp : Value X → Value X → Ordering
  | .otherTypedLiteral va da, .otherTypedLiteral vb db => (compare va vb).then (compare da db)
  | a, b => cmpLiterals a.toLiteral b.toLiteral

/-- The evaluator over these values, with the rest of another one. -/
def XsdTypes.evaluator (X : XsdTypes) (rest : Evaluator) (value : Literal → Value X) : Evaluator where
  Value := Value X
  value := value
  partialCmp := partialCmpLiterals
  lexicalCmp := lexicalCmp
  evaluateExpression := rest.evaluateExpression
  converts := rest.converts
  evaluate := rest.evaluate

end Holos.Engine.TopK
