import Holos.Core
/-!
# The well-known vocabulary

A static table of IRIs. A term's payload is its place in the table, and the place is part
of the on-disk format.
-/

namespace Holos.Vocab

def rdf (name : String) : NamedNode := "http://www.w3.org/1999/02/22-rdf-syntax-ns#" ++ name
def rdfs (name : String) : NamedNode := "http://www.w3.org/2000/01/rdf-schema#" ++ name
def owl (name : String) : NamedNode := "http://www.w3.org/2002/07/owl#" ++ name
def xsd (name : String) : NamedNode := "http://www.w3.org/2001/XMLSchema#" ++ name
def sh (name : String) : NamedNode := "http://www.w3.org/ns/shacl#" ++ name
def prov (name : String) : NamedNode := "http://www.w3.org/ns/prov#" ++ name

/-- Every well-known IRI, indexed by payload. -/
def table : List NamedNode :=
  [
    "type", "first", "rest", "nil", "value", "langString", "dirLangString", "HTML", "XMLLiteral", "JSON", "reifies",
    "subject", "predicate", "object", "Statement", "Property", "List", "Bag", "Seq", "Alt"].map rdf ++
  [
    "label", "comment", "subClassOf", "subPropertyOf", "domain", "range", "Class", "Resource", "Literal", "Datatype",
    "Container", "seeAlso", "isDefinedBy", "member"].map rdfs ++
  [
    "Class", "ObjectProperty", "DatatypeProperty", "AnnotationProperty", "Ontology", "Thing", "Nothing", "sameAs",
    "differentFrom", "imports", "inverseOf", "equivalentClass", "equivalentProperty", "disjointWith",
    "TransitiveProperty", "SymmetricProperty", "FunctionalProperty", "InverseFunctionalProperty"].map owl ++
  [
    "string", "boolean", "decimal", "integer", "double", "float", "date", "dateTime", "dateTimeStamp", "time",
    "duration", "dayTimeDuration", "yearMonthDuration", "anyURI", "long", "int", "short", "byte",
    "nonNegativeInteger", "positiveInteger", "nonPositiveInteger", "negativeInteger", "unsignedLong", "unsignedInt",
    "unsignedShort", "unsignedByte", "gYear", "gMonth", "gDay", "gYearMonth", "gMonthDay", "base64Binary",
    "hexBinary", "normalizedString", "token", "language", "Name", "NCName", "NMTOKEN"].map xsd ++
  [
    "NodeShape", "PropertyShape", "property", "path", "targetClass", "targetNode", "targetSubjectsOf",
    "targetObjectsOf", "datatype", "nodeKind", "minCount", "maxCount", "class", "node", "or", "and", "not", "xone",
    "in", "hasValue", "pattern", "flags", "minLength", "maxLength", "minInclusive", "maxInclusive", "minExclusive",
    "maxExclusive", "closed", "ignoredProperties", "severity", "message", "name", "description", "deactivated",
    "Violation", "Warning", "Info", "ValidationReport", "ValidationResult", "conforms", "result", "focusNode",
    "resultPath", "value", "sourceShape", "sourceConstraintComponent", "resultSeverity", "resultMessage", "IRI",
    "Literal", "BlankNode", "rule", "condition", "TripleRule", "SPARQLRule", "subject", "predicate", "object",
    "construct", "order", "inversePath", "alternativePath", "zeroOrMorePath", "oneOrMorePath", "zeroOrOnePath",
    "languageIn", "uniqueLang", "equals", "disjoint", "lessThan", "lessThanOrEquals", "qualifiedValueShape",
    "qualifiedMinCount", "qualifiedMaxCount", "qualifiedValueShapesDisjoint", "shapesGraph", "detail", "Shape",
    "target", "IRIOrLiteral", "BlankNodeOrIRI", "BlankNodeOrLiteral", "ClassConstraintComponent",
    "DatatypeConstraintComponent", "NodeKindConstraintComponent", "MinCountConstraintComponent",
    "MaxCountConstraintComponent", "MinExclusiveConstraintComponent", "MinInclusiveConstraintComponent",
    "MaxExclusiveConstraintComponent", "MaxInclusiveConstraintComponent", "MinLengthConstraintComponent",
    "MaxLengthConstraintComponent", "PatternConstraintComponent", "LanguageInConstraintComponent",
    "UniqueLangConstraintComponent", "EqualsConstraintComponent", "DisjointConstraintComponent",
    "LessThanConstraintComponent", "LessThanOrEqualsConstraintComponent", "NotConstraintComponent",
    "AndConstraintComponent", "OrConstraintComponent", "XoneConstraintComponent", "NodeConstraintComponent",
    "PropertyConstraintComponent", "QualifiedMinCountConstraintComponent", "QualifiedMaxCountConstraintComponent",
    "ClosedConstraintComponent", "HasValueConstraintComponent", "InConstraintComponent", "minListLength",
    "maxListLength", "uniqueMembers", "memberShape", "singleLine", "MinListLengthConstraintComponent",
    "MaxListLengthConstraintComponent", "UniqueMembersConstraintComponent", "MemberShapeConstraintComponent",
    "SingleLineConstraintComponent", "Debug", "Trace", "subsetOf", "SubsetOfConstraintComponent", "uniqueValuesFor",
    "UniqueValuesForConstraintComponent", "someValue", "SomeValueConstraintComponent", "ByTypes", "shape",
    "ShapeClass", "reifierShape", "reificationRequired", "rootClass", "targetWhere", "nodeByExpression",
    "NodeByExpressionConstraintComponent", "sourceConstraint", "conformanceDisallows",
    "RootClassConstraintComponent", "ReifierShapeConstraintComponent"].map sh ++
  [
    "Entity", "Activity", "Agent", "wasGeneratedBy", "wasDerivedFrom", "wasAttributedTo", "wasAssociatedWith",
    "wasInvalidatedBy", "used", "startedAtTime", "endedAtTime", "generatedAtTime"].map prov ++
  [
    "ContainerMembershipProperty", "Proposition"].map rdfs

/-- The place of an IRI in the table. -/
def lookup (iri : NamedNode) : Option Nat := (table.zipIdx.reverse.find? (fun entry => entry.1 = iri)).map (·.2)

theorem lookup_some {iri : NamedNode} {i : Nat} (h : lookup iri = some i) : table[i]? = some iri := by
  obtain ⟨⟨iri', i'⟩, hfind, rfl⟩ := Option.map_eq_some_iff.1 h
  have hmem := List.mem_of_find?_eq_some hfind
  have heq := List.find?_some hfind
  simp only [decide_eq_true_eq] at heq
  subst heq
  exact List.mk_mem_zipIdx_iff_getElem?.1 (List.mem_reverse.1 hmem)

theorem table_length : table.length = 248 := by
  simp only [table, List.length_append, List.length_map, List.length_cons, List.length_nil]

theorem lookup_lt {iri : NamedNode} {i : Nat} (h : lookup iri = some i) : i ≤ TermId.payloadMax := by
  have hlt := (List.getElem?_eq_some_iff.1 (lookup_some h)).1
  rw [table_length] at hlt
  simp only [TermId.payloadMax]
  omega

/-- The well-known id of an IRI, if it has one. -/
def encodeIri (iri : NamedNode) : Option TermId :=
  (lookup iri).pmap (fun i h => TermId.new .vocab i h) (fun _ h => lookup_lt h)

/-- The IRI of a well-known id. -/
def decodeIri (id : TermId) : Option NamedNode := if id.tag = .vocab then table[id.payload]? else none

theorem decodeIri_encodeIri {iri : NamedNode} {id : TermId} (h : encodeIri iri = some id) :
    id.tag = .vocab ∧ decodeIri id = some iri := by
  obtain ⟨i, hi, hlookup, rfl⟩ := Option.pmap_eq_some_iff.1 h
  refine ⟨TermId.tag_new _ _ _, ?_⟩
  rw [decodeIri, TermId.tag_new, TermId.payload_new, if_pos rfl]
  exact lookup_some hlookup

end Holos.Vocab
