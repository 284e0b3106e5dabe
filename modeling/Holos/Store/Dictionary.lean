import Holos.Inline
import Holos.Lib.Interner
/-!
# The term dictionary

Everything the inline codec and the vocabulary table decline is interned here, each kind of
term under its own tag and its own dense sequence of payloads. A triple term is interned by
the ids of its parts, bottom-up.

`encode_spec` says that encoding makes a term found under its id and moves nothing, and the
laws of a run follow from that and from `Valid`, which every encode keeps: the ids under each
tag are those of the parts of the terms encoded so far.
-/

namespace Holos

open Lib

/-- A storage-layer failure. -/
inductive StorageError where
  | io (detail : String)
  | corruption (detail : String)
  | unsupported (detail : String)
deriving DecidableEq, Repr

structure Dictionary where
  iris : Interner String
  blankNodes : Interner String
  literals : Interner Literal
  /-- Triple terms, as the ids of their parts. -/
  tripleTerms : Interner (TermId × TermId × TermId)

/-- `TermId::new`, which panics on a payload over sixty bits: `none` is the panic. -/
def TermId.checked (tag : Tag) (payload : Nat) : Option TermId :=
  if h : payload ≤ TermId.payloadMax then some (TermId.new tag payload h) else none

theorem TermId.checked_eq_some {tag : Tag} {n : Nat} {id : TermId} (h : TermId.checked tag n = some id) :
    id.tag = tag ∧ id.payload = n := by
  unfold TermId.checked at h
  split at h
  · cases h
    exact ⟨TermId.tag_new _ _ _, TermId.payload_new _ _ _⟩
  · cases h

namespace Dictionary

variable (X : Inline.Datatypes)

def new : Dictionary := ⟨.empty, .empty, .empty, .empty⟩

def len (d : Dictionary) : Nat :=
  d.iris.entries.length + d.blankNodes.entries.length + d.literals.entries.length + d.tripleTerms.entries.length

/-- How many ids have been issued under a tag. -/
def countFor (d : Dictionary) : Tag → Nat
  | .iri => d.iris.entries.length
  | .blankNode => d.blankNodes.entries.length
  | .literal => d.literals.entries.length
  | .tripleTerm => d.tripleTerms.entries.length
  | _ => 0

/-! ## Encoding -/

def encodeNamedNode (d : Dictionary) (node : NamedNode) : Option (TermId × Dictionary) :=
  match Vocab.encodeIri node with
  | some id => some (id, d)
  | none =>
    let (i, iris) := d.iris.intern node
    (TermId.checked .iri i).map (fun id => (id, { d with iris }))

def encodeBlankNode (d : Dictionary) (node : String) : Option (TermId × Dictionary) :=
  let (i, blankNodes) := d.blankNodes.intern node
  (TermId.checked .blankNode i).map (fun id => (id, { d with blankNodes }))

def encodeLiteral (d : Dictionary) (literal : Literal) : Option (TermId × Dictionary) :=
  match Inline.encodeLiteral X literal with
  | some id => some (id, d)
  | none =>
    let (i, literals) := d.literals.intern literal
    (TermId.checked .literal i).map (fun id => (id, { d with literals }))

def encodeSubject (d : Dictionary) : NamedOrBlankNode → Option (TermId × Dictionary)
  | .namedNode n => d.encodeNamedNode n
  | .blankNode b => d.encodeBlankNode b

/-- Interns a term. `none` is the panic of an id space that is full. -/
def encode (d : Dictionary) : Term → Option (TermId × Dictionary)
  | .namedNode n => d.encodeNamedNode n
  | .blankNode b => d.encodeBlankNode b
  | .literal l => d.encodeLiteral X l
  | .triple subject predicate object => do
    let (s, d) ← d.encodeSubject subject
    let (p, d) ← d.encodeNamedNode predicate
    let (o, d) ← d.encode object
    let (i, tripleTerms) := d.tripleTerms.intern (s, p, o)
    (TermId.checked .tripleTerm i).map (fun id => (id, { d with tripleTerms }))

/-! ## Looking up -/

def lookupNamedNode (d : Dictionary) (node : NamedNode) : Option TermId :=
  match Vocab.encodeIri node with
  | some id => some id
  | none => (d.iris.index node).bind (TermId.checked .iri)

def lookupBlankNode (d : Dictionary) (node : String) : Option TermId :=
  (d.blankNodes.index node).bind (TermId.checked .blankNode)

def lookupSubject (d : Dictionary) : NamedOrBlankNode → Option TermId
  | .namedNode n => d.lookupNamedNode n
  | .blankNode b => d.lookupBlankNode b

/-- Looks a term up without interning it. -/
def lookup (d : Dictionary) : Term → Option TermId
  | .namedNode n => d.lookupNamedNode n
  | .blankNode b => d.lookupBlankNode b
  | .literal l =>
    match Inline.encodeLiteral X l with
    | some id => some id
    | none => (d.literals.index l).bind (TermId.checked .literal)
  | .triple subject predicate object => do
    let s ← d.lookupSubject subject
    let p ← d.lookupNamedNode predicate
    let o ← d.lookup object
    (d.tripleTerms.index (s, p, o)).bind (TermId.checked .tripleTerm)

/-! ## Decoding -/

/-- A decoded subject, if it is a node. -/
def asSubject : Term → Option NamedOrBlankNode
  | .namedNode n => some (.namedNode n)
  | .blankNode b => some (.blankNode b)
  | _ => none

/-- Turns an id back into a term. A part of the wrong kind is damage, a part that was never
issued is a miss. A triple term's parts were issued before it, so the number of triple terms
bounds the depth. -/
def decodeAt (d : Dictionary) : Nat → TermId → Except StorageError (Option Term)
  | fuel, id =>
    match id.tag with
    | .iri => .ok (d.iris.entries[id.payload]?.map .namedNode)
    | .blankNode => .ok (d.blankNodes.entries[id.payload]?.map .blankNode)
    | .literal => .ok (d.literals.entries[id.payload]?.map .literal)
    | .vocab => .ok ((Vocab.decodeIri id).map .namedNode)
    | .tripleTerm =>
      match fuel, d.tripleTerms.entries[id.payload]? with
      | _, none => .ok none
      | 0, some _ => .ok none
      | fuel + 1, some (s, p, o) => do
        let n := id.payload
        match ← d.decodeAt fuel s with
        | none => .ok none
        | some subject =>
          match asSubject subject with
          | none => .error (.corruption s!"triple term TripleTerm#{n} has a non-node subject")
          | some subject =>
            match ← d.decodeAt fuel p with
            | some (.namedNode predicate) => return (← d.decodeAt fuel o).map (.triple subject predicate)
            | _ => .error (.corruption s!"triple term TripleTerm#{n} has a non-IRI predicate")
    | _ => .ok (Inline.decode X id)

def decode (d : Dictionary) (id : TermId) : Except StorageError (Option Term) :=
  d.decodeAt X d.tripleTerms.entries.length id

/-! ## Growing -/

/-- The second dictionary has everything the first has, under the same ids. -/
structure Grown (d d' : Dictionary) : Prop where
  iris : d.iris.Grown d'.iris
  blankNodes : d.blankNodes.Grown d'.blankNodes
  literals : d.literals.Grown d'.literals
  tripleTerms : d.tripleTerms.Grown d'.tripleTerms

variable {X} {d d' d'' : Dictionary}

theorem Grown.refl (d : Dictionary) : Grown d d := ⟨.refl _, .refl _, .refl _, .refl _⟩

theorem Grown.trans (h : Grown d d') (h' : Grown d' d'') : Grown d d'' :=
  ⟨h.iris.trans h'.iris, h.blankNodes.trans h'.blankNodes, h.literals.trans h'.literals, h.tripleTerms.trans h'.tripleTerms⟩

theorem Grown.countFor (h : Grown d d') (t : Tag) : d.countFor t ≤ d'.countFor t := by
  cases t with
  | iri => exact h.iris.length_le
  | blankNode => exact h.blankNodes.length_le
  | literal => exact h.literals.length_le
  | tripleTerm => exact h.tripleTerms.length_le
  | _ => exact le_rfl

/-- An index found before growing is found after. -/
theorem bind_checked_mono {α : Type} [DecidableEq α] {t t' : Interner α} (h : t.Grown t') {a : α} {tag : Tag} {id : TermId}
    (hid : (t.index a).bind (TermId.checked tag) = some id) : (t'.index a).bind (TermId.checked tag) = some id := by
  obtain ⟨i, hi, hc⟩ := Option.bind_eq_some_iff.1 hid
  rw [h.index hi]
  exact hc

theorem lookupNamedNode_mono (h : Grown d d') {n : NamedNode} {id : TermId} (hid : d.lookupNamedNode n = some id) :
    d'.lookupNamedNode n = some id := by
  unfold lookupNamedNode at hid ⊢
  cases hv : Vocab.encodeIri n with
  | some v => rw [hv] at hid; exact hid
  | none =>
    rw [hv] at hid
    exact bind_checked_mono h.iris hid

theorem lookupSubject_mono (h : Grown d d') {s : NamedOrBlankNode} {id : TermId} (hid : d.lookupSubject s = some id) :
    d'.lookupSubject s = some id := by
  cases s with
  | namedNode n => exact lookupNamedNode_mono h hid
  | blankNode b => exact bind_checked_mono h.blankNodes hid

theorem lookup_mono (h : Grown d d') {t : Term} {id : TermId} (hid : d.lookup X t = some id) : d'.lookup X t = some id := by
  induction t generalizing id with
  | namedNode n => exact lookupNamedNode_mono h hid
  | blankNode b => exact bind_checked_mono h.blankNodes hid
  | literal l =>
    simp only [lookup] at hid ⊢
    cases hl : Inline.encodeLiteral X l with
    | some v => rw [hl] at hid; exact hid
    | none =>
      rw [hl] at hid
      exact bind_checked_mono h.literals hid
  | triple subject predicate object ih =>
    simp only [lookup, Option.bind_eq_bind, Option.bind_eq_some_iff] at hid ⊢
    obtain ⟨s, hs, p, hp, o, ho, i, hi, hc⟩ := hid
    exact ⟨s, lookupSubject_mono h hs, p, lookupNamedNode_mono h hp, o, ih ho, i, h.tripleTerms.index hi, hc⟩

/-! ## Encoding interns -/

/-- What interning into one of the tables does. -/
theorem intern_checked {α : Type} [DecidableEq α] {t : Interner α} {a : α} {tag : Tag} {id : TermId}
    (h : TermId.checked tag (t.intern a).1 = some id) : ((t.intern a).2.index a).bind (TermId.checked tag) = some id := by
  rw [Interner.index_intern]
  exact h

theorem encodeNamedNode_spec {n : NamedNode} {id : TermId} (h : d.encodeNamedNode n = some (id, d')) :
    d'.lookupNamedNode n = some id ∧ Grown d d' := by
  unfold encodeNamedNode at h
  unfold lookupNamedNode
  cases hv : Vocab.encodeIri n with
  | some v =>
    rw [hv] at h
    cases h
    exact ⟨rfl, Grown.refl d⟩
  | none =>
    rw [hv] at h
    obtain ⟨id', hc, he⟩ := Option.map_eq_some_iff.1 h
    cases he
    exact ⟨intern_checked hc, ⟨Interner.intern_grown _ _, .refl _, .refl _, .refl _⟩⟩

theorem encodeBlankNode_spec {b : String} {id : TermId} (h : d.encodeBlankNode b = some (id, d')) :
    d'.lookupBlankNode b = some id ∧ Grown d d' := by
  obtain ⟨id', hc, he⟩ := Option.map_eq_some_iff.1 h
  cases he
  exact ⟨intern_checked hc, ⟨.refl _, Interner.intern_grown _ _, .refl _, .refl _⟩⟩

theorem encodeSubject_spec {s : NamedOrBlankNode} {id : TermId} (h : d.encodeSubject s = some (id, d')) :
    d'.lookupSubject s = some id ∧ Grown d d' := by
  cases s with
  | namedNode n => exact encodeNamedNode_spec h
  | blankNode b => exact encodeBlankNode_spec h

/-- An encoded term is found under its id, and nothing that was there has moved. -/
theorem encode_spec {t : Term} {id : TermId} (h : d.encode X t = some (id, d')) : d'.lookup X t = some id ∧ Grown d d' := by
  induction t generalizing d d' id with
  | namedNode n => exact encodeNamedNode_spec h
  | blankNode b => exact encodeBlankNode_spec h
  | literal l =>
    simp only [encode, encodeLiteral] at h
    simp only [lookup]
    cases hl : Inline.encodeLiteral X l with
    | some v =>
      rw [hl] at h
      cases h
      exact ⟨rfl, Grown.refl d⟩
    | none =>
      rw [hl] at h
      obtain ⟨id', hc, he⟩ := Option.map_eq_some_iff.1 h
      cases he
      exact ⟨intern_checked hc, ⟨.refl _, .refl _, Interner.intern_grown _ _, .refl _⟩⟩
  | triple subject predicate object ih =>
    simp only [encode, Option.bind_eq_bind, Option.bind_eq_some_iff, Prod.exists] at h
    obtain ⟨s, d₁, h₁, p, d₂, h₂, o, d₃, h₃, h⟩ := h
    obtain ⟨id', hc, he⟩ := Option.map_eq_some_iff.1 h
    cases he
    obtain ⟨hs, g₁⟩ := encodeSubject_spec h₁
    obtain ⟨hp, g₂⟩ := encodeNamedNode_spec h₂
    obtain ⟨ho, g₃⟩ := ih h₃
    -- the parts keep their ids while the triple term is added
    have g₄ : Grown d₃ { d₃ with tripleTerms := (d₃.tripleTerms.intern (s, p, o)).2 } :=
      ⟨.refl _, .refl _, .refl _, Interner.intern_grown _ _⟩
    refine ⟨?_, g₁.trans (g₂.trans (g₃.trans g₄))⟩
    simp only [lookup, Option.bind_eq_bind, Option.bind_eq_some_iff]
    exact ⟨s, lookupSubject_mono (g₂.trans (g₃.trans g₄)) hs, p, lookupNamedNode_mono (g₃.trans g₄) hp, o, lookup_mono g₄ ho,
      _, Interner.index_intern _ _, hc⟩

/-! ## What an id says -/

theorem checked_bind_get {α : Type} {t : Interner α} {a : α} {tag : Tag} {id : TermId}
    (h : (t.index a).bind (TermId.checked tag) = some id) : id.tag = tag ∧ t.entries[id.payload]? = some a := by
  obtain ⟨i, hi, hc⟩ := Option.bind_eq_some_iff.1 h
  obtain ⟨htag, hpay⟩ := TermId.checked_eq_some hc
  rw [hpay]
  exact ⟨htag, (t.index_iff a i).1 hi⟩

theorem lookupNamedNode_cases {n : NamedNode} {id : TermId} (h : d.lookupNamedNode n = some id) :
    (Vocab.encodeIri n = some id) ∨ (id.tag = .iri ∧ d.iris.entries[id.payload]? = some n) := by
  unfold lookupNamedNode at h
  split at h
  · rename_i v hv
    exact .inl (hv.trans h)
  · exact .inr (checked_bind_get h)

theorem lookupBlankNode_cases {b : String} {id : TermId} (h : d.lookupBlankNode b = some id) :
    id.tag = .blankNode ∧ d.blankNodes.entries[id.payload]? = some b :=
  checked_bind_get h

theorem lookup_literal_cases {l : Literal} {id : TermId} (h : d.lookup X (.literal l) = some id) :
    (Inline.encodeLiteral X l = some id) ∨ (id.tag = .literal ∧ d.literals.entries[id.payload]? = some l) := by
  unfold lookup at h
  split at h
  · rename_i v hv
    exact .inl (hv.trans h)
  · exact .inr (checked_bind_get h)

theorem lookup_triple_cases {subject : NamedOrBlankNode} {predicate : NamedNode} {object : Term} {id : TermId}
    (h : d.lookup X (.triple subject predicate object) = some id) :
    ∃ s p o, d.lookupSubject subject = some s ∧ d.lookupNamedNode predicate = some p ∧ d.lookup X object = some o ∧
      id.tag = .tripleTerm ∧ d.tripleTerms.entries[id.payload]? = some (s, p, o) := by
  simp only [lookup, Option.bind_eq_bind, Option.bind_eq_some_iff] at h
  obtain ⟨s, hs, p, hp, o, ho, hi⟩ := h
  exact ⟨s, p, o, hs, hp, ho, checked_bind_get (Option.bind_eq_some_iff.2 hi)⟩

theorem lookup_toTerm (s : NamedOrBlankNode) : d.lookup X s.toTerm = d.lookupSubject s := by
  cases s <;> rfl

/-! ## Decoding reads back -/

/-- A named node's id decodes to it, whatever the depth. -/
theorem decodeAt_namedNode {n : NamedNode} {id : TermId} (h : d.lookupNamedNode n = some id) (fuel : Nat) :
    d.decodeAt X fuel id = .ok (some (.namedNode n)) := by
  rcases lookupNamedNode_cases h with hv | ⟨htag, hget⟩
  · obtain ⟨htag, hdec⟩ := Vocab.decodeIri_encodeIri hv
    unfold decodeAt
    rw [htag]
    simp only [hdec, Option.map_some]
  · unfold decodeAt
    rw [htag]
    simp only [hget, Option.map_some]

theorem decodeAt_blankNode {b : String} {id : TermId} (h : d.lookupBlankNode b = some id) (fuel : Nat) :
    d.decodeAt X fuel id = .ok (some (.blankNode b)) := by
  obtain ⟨htag, hget⟩ := lookupBlankNode_cases h
  unfold decodeAt
  rw [htag]
  simp only [hget, Option.map_some]

theorem decodeAt_subject {s : NamedOrBlankNode} {id : TermId} (h : d.lookupSubject s = some id) (fuel : Nat) :
    d.decodeAt X fuel id = .ok (some s.toTerm) := by
  cases s with
  | namedNode n => exact decodeAt_namedNode h fuel
  | blankNode b => exact decodeAt_blankNode h fuel

theorem asSubject_toTerm (s : NamedOrBlankNode) : asSubject s.toTerm = some s := by
  cases s <;> rfl

/-- Tags the dictionary issues ids under. -/
def issues : Tag → Bool
  | .iri | .blankNode | .literal | .tripleTerm => true
  | _ => false

theorem issues_ne_reserved {tag : Tag} (h : issues tag = true) : tag ≠ .reserved := by
  rintro rfl
  cases h

theorem issues_inline {tag : Tag} (h : Inline.inlineTag tag = true) : issues tag = false := by
  cases tag with
  | integer | float | dateTime | small => rfl
  | _ => cases h

/-- What holds of a dictionary in use: a triple term comes after its object, and the ids under
each tag, up to the count, are ids of terms. -/
structure Valid (X : Inline.Datatypes) (d : Dictionary) : Prop where
  object : ∀ (i : Nat) (s p o : TermId), d.tripleTerms.entries[i]? = some (s, p, o) → o.tag = .tripleTerm → o.payload < i
  issued : ∀ id : TermId, id.payload < d.countFor id.tag → ∃ t, d.lookup X t = some id

/-- With depth enough for its triple terms, the id of a term decodes to the term. -/
theorem decodeAt_lookup (hX : X.Lawful) (hd : Valid X d) {t : Term} {id : TermId} (h : d.lookup X t = some id) (fuel : Nat)
    (hfuel : id.tag = .tripleTerm → id.payload < fuel) : d.decodeAt X fuel id = .ok (some t) := by
  induction t generalizing id fuel with
  | namedNode n => exact decodeAt_namedNode h fuel
  | blankNode b => exact decodeAt_blankNode h fuel
  | literal l =>
    rcases lookup_literal_cases h with hi | ⟨htag, hget⟩
    · obtain ⟨htag, hdec⟩ := Inline.decode_encodeLiteral X hX hi
      unfold decodeAt
      cases hid : id.tag with
      | integer | float | dateTime | small => simp only [hdec]
      | _ => rw [hid] at htag; cases htag
    · unfold decodeAt
      rw [htag]
      simp only [hget, Option.map_some]
  | triple subject predicate object ih =>
    obtain ⟨s, p, o, hs, hp, ho, htag, hget⟩ := lookup_triple_cases h
    cases fuel with
    | zero => exact absurd (hfuel htag) (Nat.not_lt_zero _)
    | succ fuel =>
      -- the object was issued before the triple term, so less depth is enough for it
      have hobj := ih ho fuel (fun ht => by have := hd.object _ _ _ _ hget ht; have := hfuel htag; omega)
      unfold decodeAt
      rw [htag]
      simp only [hget, decodeAt_subject hs fuel, decodeAt_namedNode hp fuel, hobj, bind, Except.bind, asSubject_toTerm, pure,
        Except.pure, Option.map_some]

theorem decode_lookup (hX : X.Lawful) (hd : Valid X d) {t : Term} {id : TermId} (h : d.lookup X t = some id) :
    d.decode X id = .ok (some t) := by
  refine decodeAt_lookup hX hd h _ (fun htag => ?_)
  cases t with
  | triple subject predicate object =>
    obtain ⟨s, p, o, -, -, -, -, hget⟩ := lookup_triple_cases h
    exact (List.getElem?_eq_some_iff.1 hget).1
  | namedNode n =>
    rcases lookupNamedNode_cases h with hv | ⟨ht, -⟩
    · rw [(Vocab.decodeIri_encodeIri hv).1] at htag
      cases htag
    · rw [ht] at htag
      cases htag
  | blankNode b =>
    rw [(lookupBlankNode_cases h).1] at htag
    cases htag
  | literal l =>
    rcases lookup_literal_cases h with hi | ⟨ht, -⟩
    · have := (Inline.decode_encodeLiteral X hX hi).1
      rw [htag] at this
      cases this
    · rw [ht] at htag
      cases htag

/-- Terms with one id are one term. -/
theorem lookup_injective (hX : X.Lawful) (hd : Valid X d) {t u : Term} {id : TermId} (ht : d.lookup X t = some id)
    (hu : d.lookup X u = some id) : t = u := by
  have := (decode_lookup hX hd ht).symm.trans (decode_lookup hX hd hu)
  cases this
  rfl

/-- An id found under one of the dictionary's tags is among those issued. -/
theorem lookup_issued (hX : X.Lawful) {t : Term} {id : TermId} (h : d.lookup X t = some id) (hid : issues id.tag = true) :
    id.payload < d.countFor id.tag := by
  cases t with
  | namedNode n =>
    rcases lookupNamedNode_cases h with hv | ⟨ht, hget⟩
    · rw [(Vocab.decodeIri_encodeIri hv).1] at hid
      cases hid
    · rw [ht]
      exact (List.getElem?_eq_some_iff.1 hget).1
  | blankNode b =>
    obtain ⟨ht, hget⟩ := lookupBlankNode_cases h
    rw [ht]
    exact (List.getElem?_eq_some_iff.1 hget).1
  | literal l =>
    rcases lookup_literal_cases h with hi | ⟨ht, hget⟩
    · rw [issues_inline (Inline.decode_encodeLiteral X hX hi).1] at hid
      cases hid
    · rw [ht]
      exact (List.getElem?_eq_some_iff.1 hget).1
  | triple subject predicate object =>
    obtain ⟨s, p, o, -, -, -, ht, hget⟩ := lookup_triple_cases h
    rw [ht]
    exact (List.getElem?_eq_some_iff.1 hget).1

/-- An id under any other tag is that of an inline or well-known term, and no table is asked. -/
theorem lookup_unissued {t : Term} {id : TermId} (h : d.lookup X t = some id) (hid : ¬issues id.tag = true) :
    d'.lookup X t = some id := by
  cases t with
  | namedNode n =>
    rcases lookupNamedNode_cases h with hv | ⟨ht, -⟩
    · simp only [lookup, lookupNamedNode, hv]
    · exact absurd (by rw [ht]; rfl) hid
  | blankNode b => exact absurd (by rw [(lookupBlankNode_cases h).1]; rfl) hid
  | literal l =>
    rcases lookup_literal_cases h with hi | ⟨ht, -⟩
    · simp only [lookup, hi]
    · exact absurd (by rw [ht]; rfl) hid
  | triple subject predicate object =>
    obtain ⟨s, p, o, -, -, -, ht, -⟩ := lookup_triple_cases h
    exact absurd (by rw [ht]; rfl) hid

/-! ## What encoding adds -/

/-- One entry added to one table, under the next payload of its tag. -/
inductive Adds (X : Inline.Datatypes) : Dictionary → Term → TermId → Dictionary → Prop where
  | iri {d n id} (h : d.iris.index n = none) (hv : Vocab.encodeIri n = none)
      (hid : TermId.checked .iri d.iris.entries.length = some id) : Adds X d (.namedNode n) id { d with iris := d.iris.push n h }
  | blankNode {d b id} (h : d.blankNodes.index b = none) (hid : TermId.checked .blankNode d.blankNodes.entries.length = some id) :
      Adds X d (.blankNode b) id { d with blankNodes := d.blankNodes.push b h }
  | literal {d l id} (h : d.literals.index l = none) (hi : Inline.encodeLiteral X l = none)
      (hid : TermId.checked .literal d.literals.entries.length = some id) :
      Adds X d (.literal l) id { d with literals := d.literals.push l h }
  | tripleTerm {d subject predicate object s p o id} (hs : d.lookupSubject subject = some s)
      (hp : d.lookupNamedNode predicate = some p) (ho : d.lookup X object = some o) (h : d.tripleTerms.index (s, p, o) = none)
      (hid : TermId.checked .tripleTerm d.tripleTerms.entries.length = some id) :
      Adds X d (.triple subject predicate object) id { d with tripleTerms := d.tripleTerms.push (s, p, o) h }

theorem Adds.grown {t : Term} {id : TermId} (h : Adds X d t id d') : Grown d d' := by
  cases h with
  | iri => exact ⟨List.prefix_append _ _, .refl _, .refl _, .refl _⟩
  | blankNode => exact ⟨.refl _, List.prefix_append _ _, .refl _, .refl _⟩
  | literal => exact ⟨.refl _, .refl _, List.prefix_append _ _, .refl _⟩
  | tripleTerm => exact ⟨.refl _, .refl _, .refl _, List.prefix_append _ _⟩

theorem push_index_bind {α : Type} [DecidableEq α] {t : Interner α} {a : α} (h : t.index a = none) (tag : Tag) :
    ((t.push a h).index a).bind (TermId.checked tag) = TermId.checked tag t.entries.length := by
  simp only [Interner.push, if_true, Option.bind_some]

theorem Adds.lookup {t : Term} {id : TermId} (h : Adds X d t id d') : d'.lookup X t = some id := by
  have hgrown := h.grown
  cases h with
  | iri h hv hid =>
    simp only [Dictionary.lookup, lookupNamedNode, hv]
    rw [push_index_bind]
    exact hid
  | blankNode h hid =>
    simp only [Dictionary.lookup, lookupBlankNode]
    rw [push_index_bind]
    exact hid
  | literal h hi hid =>
    simp only [Dictionary.lookup, hi]
    rw [push_index_bind]
    exact hid
  | tripleTerm hs hp ho h hid =>
    simp only [Dictionary.lookup, lookupSubject_mono hgrown hs, lookupNamedNode_mono hgrown hp, lookup_mono hgrown ho,
      Option.bind_eq_bind, Option.bind_some]
    rw [push_index_bind]
    exact hid

/-- The id is the next of its tag, and only that tag's count moves. -/
theorem Adds.countFor {t : Term} {id : TermId} (h : Adds X d t id d') :
    issues id.tag = true ∧ id.payload = d.countFor id.tag ∧
      ∀ tag, d'.countFor tag = d.countFor tag + if tag = id.tag then 1 else 0 := by
  cases h with
  | iri h hv hid | blankNode h hid | literal h hi hid | tripleTerm hs hp ho h hid =>
    obtain ⟨htag, hpay⟩ := TermId.checked_eq_some hid
    rw [htag, hpay]
    refine ⟨rfl, rfl, fun tag => ?_⟩
    cases tag <;> simp [Dictionary.countFor, Interner.push]

theorem Adds.valid (hX : X.Lawful) {t : Term} {id : TermId} (h : Adds X d t id d') (hd : Valid X d) : Valid X d' := by
  obtain ⟨hissues, hpay, hcount⟩ := h.countFor
  refine ⟨?_, fun id' hlt => ?_⟩
  · cases h with
    | iri | blankNode | literal => exact hd.object
    | tripleTerm hs hp ho hnone hid =>
      intro i s' p' o' hget htag
      -- either an old entry, or the new one, whose object is known already
      simp only [Interner.push, List.getElem?_append] at hget
      split at hget
      · exact hd.object i s' p' o' hget htag
      · obtain ⟨hi, he⟩ := List.getElem?_eq_some_iff.1 hget
        simp only [List.getElem_singleton, Prod.mk.injEq] at he
        obtain ⟨-, -, rfl⟩ := he
        have hlt := lookup_issued hX ho (by rw [htag]; rfl)
        rw [htag] at hlt
        exact lt_of_lt_of_le hlt (by simp only [Dictionary.countFor]; omega)
  · by_cases hold : id'.payload < d.countFor id'.tag
    · obtain ⟨u, hu⟩ := hd.issued id' hold
      exact ⟨u, lookup_mono h.grown hu⟩
    · rw [hcount] at hlt
      split at hlt
      · rename_i htag
        rw [htag] at hold hlt
        have hsame : id' = id := TermId.ext_tag_payload htag (issues_ne_reserved (htag ▸ hissues)) (by omega)
        rw [hsame]
        exact ⟨t, h.lookup⟩
      · omega

/-- The terms inside a triple term. -/
def components : Term → List Term
  | .triple subject predicate object => subject.toTerm :: .namedNode predicate :: object :: components object
  | _ => []

/-- A term and the terms inside it: what encoding it interns. -/
def parts (t : Term) : List Term := t :: components t

theorem sizeOf_component {t u : Term} (h : u ∈ components t) : sizeOf u < sizeOf t := by
  induction t with
  | triple subject predicate object ih =>
    simp only [components, List.mem_cons] at h
    rcases h with rfl | rfl | rfl | h
    · cases subject <;> simp [NamedOrBlankNode.toTerm] <;> omega
    · have : 0 < sizeOf subject := by cases subject <;> simp
      simp
      omega
    · simp
    · have := ih h
      simp
      omega
  | _ => simp [components] at h

/-- With a term, all that is inside it is there. -/
theorem lookup_parts {t : Term} {id : TermId} (h : d.lookup X t = some id) : ∀ u ∈ parts t, ∃ id, d.lookup X u = some id := by
  induction t generalizing id with
  | triple subject predicate object ih =>
    obtain ⟨s, p, o, hs, hp, ho, -, -⟩ := lookup_triple_cases h
    intro u hu
    simp only [parts, components, List.mem_cons] at hu ih
    rcases hu with rfl | rfl | rfl | hu
    · exact ⟨id, h⟩
    · exact ⟨s, (lookup_toTerm subject).trans hs⟩
    · exact ⟨p, hp⟩
    · exact ih ho u hu
  | _ =>
    intro u hu
    rw [List.mem_singleton.1 hu]
    exact ⟨id, h⟩

/-- Entries added one after another, each for one of the terms. -/
def Chain (X : Inline.Datatypes) (ts : List Term) : Dictionary → Dictionary → Prop :=
  Relation.ReflTransGen (fun d d' => ∃ t ∈ ts, ∃ id, Adds X d t id d')

theorem Chain.mono {ts us : List Term} (h : Chain X ts d d') (hsub : ∀ t ∈ ts, t ∈ us) : Chain X us d d' :=
  Relation.ReflTransGen.mono (fun _ _ ⟨t, ht, hadds⟩ => ⟨t, hsub t ht, hadds⟩) _ _ h

theorem Chain.grown {ts : List Term} (h : Chain X ts d d') : Grown d d' := by
  induction h with
  | refl => exact Grown.refl d
  | tail _ hstep ih =>
    obtain ⟨t, -, id, hadds⟩ := hstep
    exact ih.trans hadds.grown

theorem Chain.valid {ts : List Term} (hX : X.Lawful) (h : Chain X ts d d') (hd : Valid X d) : Valid X d' := by
  induction h with
  | refl => exact hd
  | tail _ hstep ih =>
    obtain ⟨t, -, id, hadds⟩ := hstep
    exact hadds.valid hX ih

/-- Every id that came in on the way is the id of one of the terms. -/
theorem Chain.news {ts : List Term} (h : Chain X ts d d') {id : TermId} (hold : d.countFor id.tag ≤ id.payload)
    (hnew : id.payload < d'.countFor id.tag) : ∃ t ∈ ts, d'.lookup X t = some id := by
  induction h with
  | refl => omega
  | @tail d₁ d₂ _ hstep ih =>
    obtain ⟨t, ht, id', hadds⟩ := hstep
    obtain ⟨hissues, hpay, hcount⟩ := hadds.countFor
    by_cases hlt : id.payload < d₁.countFor id.tag
    · obtain ⟨u, hu, hlookup⟩ := ih hlt
      exact ⟨u, hu, lookup_mono hadds.grown hlookup⟩
    · rw [hcount] at hnew
      split at hnew
      · rename_i htag
        rw [htag] at hlt hnew
        have hsame : id = id' := TermId.ext_tag_payload htag (issues_ne_reserved (htag ▸ hissues)) (by omega)
        rw [hsame]
        exact ⟨t, ht, hadds.lookup⟩
      · omega

/-- What an encode can do: entries for the components first, then either the term is there
already or one entry is added for it. -/
def Encodes (X : Inline.Datatypes) (d : Dictionary) (t : Term) (id : TermId) (d' : Dictionary) : Prop :=
  ∃ d₁, Chain X (components t) d d₁ ∧ ((d₁.lookup X t = some id ∧ d' = d₁) ∨ Adds X d₁ t id d')

theorem Encodes.chain {t : Term} {id : TermId} (h : Encodes X d t id d') : Chain X (parts t) d d' := by
  obtain ⟨d₁, hchain, h⟩ := h
  have hparts : Chain X (parts t) d d₁ := hchain.mono (fun u hu => List.mem_cons_of_mem _ hu)
  rcases h with ⟨-, rfl⟩ | hadds
  · exact hparts
  · exact hparts.tail ⟨t, List.mem_cons_self, id, hadds⟩

theorem map_checked {tag : Tag} {i : Nat} {e : Dictionary} {id : TermId}
    (h : (TermId.checked tag i).map (fun id => (id, e)) = some (id, d')) : TermId.checked tag i = some id ∧ d' = e := by
  obtain ⟨id', hc, he⟩ := Option.map_eq_some_iff.1 h
  cases he
  exact ⟨hc, rfl⟩

theorem encodeNamedNode_encodes {n : NamedNode} {id : TermId} (h : d.encodeNamedNode n = some (id, d')) :
    Encodes X d (.namedNode n) id d' := by
  refine ⟨d, .refl, ?_⟩
  unfold encodeNamedNode at h
  cases hv : Vocab.encodeIri n with
  | some v =>
    rw [hv] at h
    cases h
    exact .inl ⟨by simp only [lookup, lookupNamedNode, hv], rfl⟩
  | none =>
    rw [hv] at h
    rcases d.iris.intern_cases n with ⟨i, hi, hintern⟩ | ⟨hnone, hintern⟩
    · obtain ⟨hc, rfl⟩ := map_checked (hintern ▸ h)
      exact .inl ⟨by simpa only [lookup, lookupNamedNode, hv, hi, Option.bind_some] using hc, rfl⟩
    · obtain ⟨hc, rfl⟩ := map_checked (hintern ▸ h)
      exact .inr (.iri hnone hv hc)

theorem encodeBlankNode_encodes {b : String} {id : TermId} (h : d.encodeBlankNode b = some (id, d')) :
    Encodes X d (.blankNode b) id d' := by
  refine ⟨d, .refl, ?_⟩
  unfold encodeBlankNode at h
  rcases d.blankNodes.intern_cases b with ⟨i, hi, hintern⟩ | ⟨hnone, hintern⟩
  · obtain ⟨hc, rfl⟩ := map_checked (hintern ▸ h)
    exact .inl ⟨by simpa only [lookup, lookupBlankNode, hi, Option.bind_some] using hc, rfl⟩
  · obtain ⟨hc, rfl⟩ := map_checked (hintern ▸ h)
    exact .inr (.blankNode hnone hc)

theorem encodeLiteral_encodes {l : Literal} {id : TermId} (h : d.encodeLiteral X l = some (id, d')) :
    Encodes X d (.literal l) id d' := by
  refine ⟨d, .refl, ?_⟩
  unfold encodeLiteral at h
  cases hi : Inline.encodeLiteral X l with
  | some v =>
    rw [hi] at h
    cases h
    exact .inl ⟨by simp only [lookup, hi], rfl⟩
  | none =>
    rw [hi] at h
    rcases d.literals.intern_cases l with ⟨i, hindex, hintern⟩ | ⟨hnone, hintern⟩
    · obtain ⟨hc, rfl⟩ := map_checked (hintern ▸ h)
      exact .inl ⟨by simpa only [lookup, hi, hindex, Option.bind_some] using hc, rfl⟩
    · obtain ⟨hc, rfl⟩ := map_checked (hintern ▸ h)
      exact .inr (.literal hnone hi hc)

theorem encodeSubject_encodes {s : NamedOrBlankNode} {id : TermId} (h : d.encodeSubject s = some (id, d')) :
    Encodes X d s.toTerm id d' := by
  cases s with
  | namedNode n => exact encodeNamedNode_encodes h
  | blankNode b => exact encodeBlankNode_encodes h

theorem encode_encodes {t : Term} {id : TermId} (h : d.encode X t = some (id, d')) : Encodes X d t id d' := by
  induction t generalizing d d' id with
  | namedNode n => exact encodeNamedNode_encodes h
  | blankNode b => exact encodeBlankNode_encodes h
  | literal l => exact encodeLiteral_encodes h
  | triple subject predicate object ih =>
    simp only [encode, Option.bind_eq_bind, Option.bind_eq_some_iff, Prod.exists] at h
    obtain ⟨s, d₁, h₁, p, d₂, h₂, o, d₃, h₃, h⟩ := h
    obtain ⟨hs, -⟩ := encodeSubject_spec h₁
    obtain ⟨hp, g₂⟩ := encodeNamedNode_spec h₂
    obtain ⟨ho, g₃⟩ := encode_spec h₃
    have c₁ : Chain X (components (.triple subject predicate object)) d d₁ := by
      refine (encodeSubject_encodes h₁).chain.mono (fun u hu => ?_)
      cases subject <;> simp_all [components, parts, NamedOrBlankNode.toTerm]
    have c₂ : Chain X (components (.triple subject predicate object)) d₁ d₂ :=
      (encodeNamedNode_encodes h₂).chain.mono (fun u hu => by simp_all [components, parts])
    have c₃ : Chain X (components (.triple subject predicate object)) d₂ d₃ :=
      (ih h₃).chain.mono (fun u hu => by simp_all [components, parts])
    refine ⟨d₃, (c₁.trans c₂).trans c₃, ?_⟩
    have hs₃ := lookupSubject_mono (g₂.trans g₃) hs
    have hp₃ := lookupNamedNode_mono g₃ hp
    rcases d₃.tripleTerms.intern_cases (s, p, o) with ⟨i, hi, hintern⟩ | ⟨hnone, hintern⟩
    · obtain ⟨hc, rfl⟩ := map_checked (hintern ▸ h)
      exact .inl ⟨by simpa only [lookup, hs₃, hp₃, ho, hi, Option.bind_eq_bind, Option.bind_some] using hc, rfl⟩
    · obtain ⟨hc, rfl⟩ := map_checked (hintern ▸ h)
      exact .inr (.tripleTerm hs₃ hp₃ ho hnone hc)

/-! ## Encoding again -/

theorem encodeNamedNode_of_lookup {n : NamedNode} {id : TermId} (h : d.lookupNamedNode n = some id) :
    d.encodeNamedNode n = some (id, d) := by
  unfold lookupNamedNode at h
  unfold encodeNamedNode
  cases hv : Vocab.encodeIri n with
  | some v =>
    rw [hv] at h
    cases h
    rfl
  | none =>
    rw [hv] at h
    obtain ⟨i, hi, hc⟩ := Option.bind_eq_some_iff.1 h
    simp only [Interner.intern_of_index hi, hc, Option.map_some]

theorem encodeBlankNode_of_lookup {b : String} {id : TermId} (h : d.lookupBlankNode b = some id) :
    d.encodeBlankNode b = some (id, d) := by
  obtain ⟨i, hi, hc⟩ := Option.bind_eq_some_iff.1 h
  simp only [encodeBlankNode, Interner.intern_of_index hi, hc, Option.map_some]

theorem encodeSubject_of_lookup {s : NamedOrBlankNode} {id : TermId} (h : d.lookupSubject s = some id) :
    d.encodeSubject s = some (id, d) := by
  cases s with
  | namedNode n => exact encodeNamedNode_of_lookup h
  | blankNode b => exact encodeBlankNode_of_lookup h

/-- A term that is there is encoded to its id, and nothing changes. -/
theorem encode_of_lookup {t : Term} {id : TermId} (h : d.lookup X t = some id) : d.encode X t = some (id, d) := by
  induction t generalizing id with
  | namedNode n => exact encodeNamedNode_of_lookup h
  | blankNode b => exact encodeBlankNode_of_lookup h
  | literal l =>
    simp only [lookup] at h
    simp only [encode, encodeLiteral]
    cases hi : Inline.encodeLiteral X l with
    | some v =>
      rw [hi] at h
      cases h
      rfl
    | none =>
      rw [hi] at h
      obtain ⟨i, hindex, hc⟩ := Option.bind_eq_some_iff.1 h
      simp only [Interner.intern_of_index hindex, hc, Option.map_some]
  | triple subject predicate object ih =>
    simp only [lookup, Option.bind_eq_bind, Option.bind_eq_some_iff] at h
    obtain ⟨s, hs, p, hp, o, ho, i, hi, hc⟩ := h
    simp only [encode, encodeSubject_of_lookup hs, encodeNamedNode_of_lookup hp, ih ho, Option.bind_eq_bind, Option.bind_some,
      Interner.intern_of_index hi, hc, Option.map_some]

/-- A term that was not there gets the last id of its tag. -/
theorem encode_new (hX : X.Lawful) (hd : Valid X d) {t : Term} {id : TermId} (h : d.encode X t = some (id, d'))
    (hnone : d.lookup X t = none) : issues id.tag = true ∧ d.countFor id.tag ≤ id.payload ∧ id.payload + 1 = d'.countFor id.tag := by
  obtain ⟨d₁, hchain, ⟨hlookup, rfl⟩ | hadds⟩ := encode_encodes h
  · exfalso
    by_cases hissues : issues id.tag = true
    · have hlt := lookup_issued hX hlookup hissues
      by_cases hold : id.payload < d.countFor id.tag
      · -- the id was out already, for some term, which is this one
        obtain ⟨u, hu⟩ := hd.issued id hold
        have := lookup_injective hX (hchain.valid hX hd) (lookup_mono hchain.grown hu) hlookup
        rw [this, hnone] at hu
        cases hu
      · -- or it came in with the components, and a term is not inside itself
        obtain ⟨u, hu, hu'⟩ := hchain.news (Nat.le_of_not_lt hold) hlt
        have := lookup_injective hX (hchain.valid hX hd) hu' hlookup
        subst this
        exact absurd (sizeOf_component hu) (lt_irrefl _)
    · rw [lookup_unissued hlookup hissues] at hnone
      cases hnone
  · obtain ⟨hissues, hpay, hcount⟩ := hadds.countFor
    refine ⟨hissues, hpay ▸ hchain.grown.countFor _, ?_⟩
    rw [hcount, if_pos rfl, hpay]

end Dictionary

end Holos
