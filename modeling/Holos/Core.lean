import Mathlib.Algebra.Group.Nat.Defs
import Mathlib.Data.Fin.Basic
import Mathlib.Order.Fin.Basic
/-!
# Terms and term ids

An RDF term, and the tagged 64-bit id a store interns it under: four bits of tag above
sixty bits of payload. Ids are ordered as integers, so the ids of one tag form one block.
-/

namespace Holos

/-- A named node, as `oxrdf` carries it: its IRI. -/
abbrev NamedNode := String

inductive BaseDirection where
  | ltr | rtl
deriving DecidableEq, Repr

namespace Xsd

def string : NamedNode := "http://www.w3.org/2001/XMLSchema#string"
def integer : NamedNode := "http://www.w3.org/2001/XMLSchema#integer"
def boolean : NamedNode := "http://www.w3.org/2001/XMLSchema#boolean"
def float : NamedNode := "http://www.w3.org/2001/XMLSchema#float"
def dateTime : NamedNode := "http://www.w3.org/2001/XMLSchema#dateTime"

end Xsd

def rdfLangString : NamedNode := "http://www.w3.org/1999/02/22-rdf-syntax-ns#langString"
def rdfDirLangString : NamedNode := "http://www.w3.org/1999/02/22-rdf-syntax-ns#dirLangString"

/-- An RDF literal, in the four shapes `oxrdf` keeps apart. A typed one is never an
`xsd:string`, so each literal has one representation. -/
inductive Literal where
  | simple (value : String)
  | typed (value : String) (datatype : NamedNode) (h : datatype ≠ Xsd.string)
  | languageTagged (value language : String)
  | directional (value language : String) (direction : BaseDirection)
deriving DecidableEq, Repr

namespace Literal

/-- `Literal::new_typed_literal`. -/
def newTyped (value : String) (datatype : NamedNode) : Literal :=
  if h : datatype = Xsd.string then .simple value else .typed value datatype h

def value : Literal → String
  | .simple v | .typed v _ _ | .languageTagged v _ | .directional v _ _ => v

def datatype : Literal → NamedNode
  | .simple _ => Xsd.string
  | .typed _ d _ => d
  | .languageTagged _ _ => rdfLangString
  | .directional _ _ _ => rdfDirLangString

def language : Literal → Option String
  | .languageTagged _ l | .directional _ l _ => some l
  | _ => none

def direction : Literal → Option BaseDirection
  | .directional _ _ d => some d
  | _ => none

/-- A literal without a language tag is its value and its datatype. -/
theorem newTyped_value_datatype {l : Literal} (h : l.language = none) : newTyped l.value l.datatype = l := by
  cases l with
  | simple v => rfl
  | typed v d hd => simp [newTyped, value, datatype, hd]
  | languageTagged v l => cases h
  | directional v l d => cases h

end Literal

/-- What can stand as a subject. -/
inductive NamedOrBlankNode where
  | namedNode (iri : NamedNode)
  | blankNode (id : String)
deriving DecidableEq, Repr

/-- An RDF term. -/
inductive Term where
  | namedNode (iri : NamedNode)
  | blankNode (id : String)
  | literal (l : Literal)
  | triple (subject : NamedOrBlankNode) (predicate : NamedNode) (object : Term)
deriving DecidableEq, Repr

def NamedOrBlankNode.toTerm : NamedOrBlankNode → Term
  | .namedNode iri => .namedNode iri
  | .blankNode id => .blankNode id

/-- What the payload of a `TermId` means. -/
inductive Tag where
  | iri | literal | blankNode | vocab | integer | float | dateTime | small | tripleTerm | ephemeral | reserved
deriving DecidableEq, Repr

/-- The four bits of a tag. They are part of the on-disk format. -/
def Tag.bits : Tag → Nat
  | .iri => 0x0
  | .literal => 0x1
  | .blankNode => 0x2
  | .vocab => 0x3
  | .integer => 0x4
  | .float => 0x5
  | .dateTime => 0x6
  | .small => 0x7
  | .tripleTerm => 0x8
  | .ephemeral => 0xE
  | .reserved => 0xF

/-- Decodes a 4-bit tag. Unknown bit patterns become `reserved`. -/
def Tag.fromBits : Nat → Tag
  | 0x0 => .iri
  | 0x1 => .literal
  | 0x2 => .blankNode
  | 0x3 => .vocab
  | 0x4 => .integer
  | 0x5 => .float
  | 0x6 => .dateTime
  | 0x7 => .small
  | 0x8 => .tripleTerm
  | 0xE => .ephemeral
  | _ => .reserved

theorem Tag.bits_lt (t : Tag) : t.bits < 16 := by cases t <;> decide

theorem Tag.fromBits_bits (t : Tag) : Tag.fromBits t.bits = t := by cases t <;> rfl

theorem Tag.bits_fromBits {n : Nat} (h : Tag.fromBits n ≠ .reserved) : (Tag.fromBits n).bits = n := by
  unfold Tag.fromBits at h ⊢
  split at h <;> first | rfl | exact absurd rfl h

/-- An interned RDF term: its raw 64 bits. -/
abbrev TermId := Fin (2 ^ 64)

instance instNeZeroTermId : @NeZero Nat Zero.ofOfNat0 (2 ^ 64) := ⟨by decide⟩

instance instNeZeroBits : @NeZero Nat Zero.ofOfNat0 (2 ^ 32) := ⟨by decide⟩

instance instLawfulBEqTermId : LawfulBEq TermId := inferInstance

namespace TermId

/-- Largest value a payload can hold. -/
def payloadMax : Nat := 2 ^ 60 - 1

/-- Builds an id from a tag and payload. The source panics on a payload over sixty
bits; the payload is a proof-carrying argument here, so there is nothing to panic on. -/
def new (tag : Tag) (payload : Nat) (h : payload ≤ payloadMax) : TermId :=
  ⟨tag.bits * 2 ^ 60 + payload, by have := tag.bits_lt; simp only [payloadMax] at h; omega⟩

/-- An id of one of the first payloads. -/
def small (tag : Tag) (n : UInt8) : TermId :=
  new tag n.toNat (n.toNat_lt.le.trans (by decide))

def tag (id : TermId) : Tag := Tag.fromBits (id.val / 2 ^ 60)

def payload (id : TermId) : Nat := id.val % 2 ^ 60

theorem payload_le (id : TermId) : id.payload ≤ payloadMax := by
  simp only [payload, payloadMax]; omega

@[simp] theorem tag_new (t : Tag) (n : Nat) (h : n ≤ payloadMax) : (new t n h).tag = t := by
  have e : (t.bits * 2 ^ 60 + n) / 2 ^ 60 = t.bits := by simp only [payloadMax] at h; omega
  simp only [tag, new, e, Tag.fromBits_bits]

@[simp] theorem payload_new (t : Tag) (n : Nat) (h : n ≤ payloadMax) : (new t n h).payload = n := by
  simp only [payload, new, payloadMax] at h ⊢; omega

/-- Of the tags in use, an id is its tag and its payload. -/
theorem ext_tag_payload {id id' : TermId} (ht : id.tag = id'.tag) (hr : id.tag ≠ .reserved) (hp : id.payload = id'.payload) :
    id = id' := by
  have h := Tag.bits_fromBits hr
  have h' := Tag.bits_fromBits (ht ▸ hr)
  have hbits : id.val / 2 ^ 60 = id'.val / 2 ^ 60 := by rw [← h, ← h']; exact congrArg Tag.bits ht
  simp only [payload] at hp
  exact Fin.ext (by omega)

/-- Ids of one tag in use stand in the order of their payloads. -/
theorem lt_iff_payload {id id' : TermId} (ht : id.tag = id'.tag) (hr : id.tag ≠ .reserved) : id < id' ↔ id.payload < id'.payload := by
  have h := Tag.bits_fromBits hr
  have h' := Tag.bits_fromBits (ht ▸ hr)
  have hbits : id.val / 2 ^ 60 = id'.val / 2 ^ 60 := by rw [← h, ← h']; exact congrArg Tag.bits ht
  rw [Fin.lt_def]
  simp only [payload]
  omega

/-- Sentinels below and above every id an encoder can produce. -/
def min : TermId := ⟨0, by decide⟩
def max : TermId := ⟨2 ^ 64 - 1, by decide⟩

theorem min_le (id : TermId) : min ≤ id := Fin.le_def.2 (Nat.zero_le _)

theorem le_max (id : TermId) : id ≤ max := Fin.le_def.2 (by have := id.isLt; simp only [max]; omega)

end TermId

end Holos
