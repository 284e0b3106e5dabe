import Holos.Store.Dictionary
/-!
# Runs of the dictionary

A run is a list of operations from the empty dictionary. Every encode of it is a `Chain` of
added entries for the terms encoded, so the laws of the dictionary are what a chain keeps.
-/

namespace Holos.Dictionary

open Lib

variable {X : Inline.Datatypes} {d d' : Dictionary}

/-! ## Inline and well-known terms -/

/-- The id a term has without any dictionary. -/
def wellKnown (X : Inline.Datatypes) : Term → Option TermId
  | .namedNode n => Vocab.encodeIri n
  | .literal l => Inline.encodeLiteral X l
  | _ => none

theorem wellKnown_lookup {t : Term} {id : TermId} (h : wellKnown X t = some id) : d.lookup X t = some id := by
  cases t with
  | namedNode n => simp only [lookup, lookupNamedNode, show Vocab.encodeIri n = some id from h]
  | literal l => simp only [lookup, show Inline.encodeLiteral X l = some id from h]
  | _ => cases h

theorem wellKnown_unissued (hX : X.Lawful) {t : Term} {id : TermId} (h : wellKnown X t = some id) : issues id.tag = false := by
  cases t with
  | namedNode n => rw [(Vocab.decodeIri_encodeIri h).1]; rfl
  | literal l => exact issues_inline (Inline.decode_encodeLiteral X hX h).1
  | _ => cases h

theorem lookup_issues {t : Term} {id : TermId} (hnone : wellKnown X t = none) (h : d.lookup X t = some id) :
    issues id.tag = true := by
  cases t with
  | namedNode n =>
    rcases lookupNamedNode_cases h with hv | ⟨ht, -⟩
    · cases hnone.symm.trans hv
    · rw [ht]; rfl
  | blankNode b => rw [(lookupBlankNode_cases h).1]; rfl
  | literal l =>
    rcases lookup_literal_cases h with hi | ⟨ht, -⟩
    · cases hnone.symm.trans hi
    · rw [ht]; rfl
  | triple subject predicate object =>
    obtain ⟨s, p, o, -, -, -, ht, -⟩ := lookup_triple_cases h
    rw [ht]; rfl

/-! ## Ids that are not out -/

/-- What an id stands for by itself, dictionary or not. -/
def standing (X : Inline.Datatypes) (id : TermId) : Option Term :=
  if id.tag = .vocab then (Vocab.decodeIri id).map .namedNode else Inline.decode X id

theorem decode_issues {id : TermId} (hid : issues id.tag = true) (h : d.countFor id.tag ≤ id.payload) :
    d.decode X id = .ok none := by
  unfold decode decodeAt
  cases htag : id.tag <;> rw [htag] at hid h <;> simp only [countFor] at h
  case iri => simp only [List.getElem?_eq_none h, Option.map_none]
  case literal => simp only [List.getElem?_eq_none h, Option.map_none]
  case blankNode => simp only [List.getElem?_eq_none h, Option.map_none]
  case tripleTerm => simp only [List.getElem?_eq_none h]
  all_goals cases hid

theorem decode_standing {id : TermId} (hid : issues id.tag = false) : d.decode X id = .ok (standing X id) := by
  unfold decode decodeAt standing
  cases htag : id.tag <;> rw [htag] at hid <;> first | rfl | cases hid

/-- What an id decodes to, it decodes to in every dictionary grown from this one. -/
theorem decode_mono (hX : X.Lawful) (hd : Valid X d) (hd' : Valid X d') (hgrown : Grown d d') {id : TermId} {t : Term}
    (h : d.decode X id = .ok (some t)) : d'.decode X id = .ok (some t) := by
  by_cases hid : issues id.tag = true
  · have hlt : id.payload < d.countFor id.tag := by
      by_contra hge
      rw [decode_issues hid (Nat.le_of_not_lt hge)] at h
      cases h
    obtain ⟨u, hu⟩ := hd.issued id hlt
    rw [decode_lookup hX hd hu] at h
    cases h
    exact decode_lookup hX hd' (lookup_mono hgrown hu)
  · rw [Bool.not_eq_true] at hid
    rw [decode_standing hid] at h ⊢
    exact h

/-! ## No panic below the limit -/

theorem checked_some (tag : Tag) {i : Nat} (h : i ≤ TermId.payloadMax) : ∃ id, TermId.checked tag i = some id :=
  ⟨_, dif_pos h⟩

theorem intern_le {α : Type} [DecidableEq α] (t : Interner α) (a : α) : (t.intern a).1 ≤ t.entries.length := by
  rcases t.intern_cases a with ⟨i, hi, h⟩ | ⟨hnone, h⟩
  · rw [h]
    exact (Interner.index_lt hi).le
  · rw [h]

theorem encodeNamedNode_total (n : NamedNode) (h : d.countFor .iri ≤ TermId.payloadMax) :
    ∃ id e, d.encodeNamedNode n = some (id, e) := by
  unfold encodeNamedNode
  cases Vocab.encodeIri n with
  | some v => exact ⟨v, d, rfl⟩
  | none =>
    obtain ⟨id, hid⟩ := checked_some .iri (le_trans (intern_le d.iris n) h)
    exact ⟨id, _, Option.map_eq_some_iff.2 ⟨id, hid, rfl⟩⟩

theorem encodeBlankNode_total (b : String) (h : d.countFor .blankNode ≤ TermId.payloadMax) :
    ∃ id e, d.encodeBlankNode b = some (id, e) := by
  obtain ⟨id, hid⟩ := checked_some .blankNode (le_trans (intern_le d.blankNodes b) h)
  exact ⟨id, _, Option.map_eq_some_iff.2 ⟨id, hid, rfl⟩⟩

theorem encodeSubject_total (s : NamedOrBlankNode) (h : ∀ tag, d.countFor tag ≤ TermId.payloadMax) :
    ∃ id e, d.encodeSubject s = some (id, e) := by
  cases s with
  | namedNode n => exact encodeNamedNode_total n (h _)
  | blankNode b => exact encodeBlankNode_total b (h _)

/-- A chain for a list of terms can add no more than one entry for each. -/
theorem Encodes.countFor_le {t : Term} {id : TermId} (h : Encodes X d t id d') (hcomp : components t = []) (tag : Tag) :
    d'.countFor tag ≤ d.countFor tag + 1 := by
  obtain ⟨d₁, hchain, hlast⟩ := h
  rw [hcomp] at hchain
  have hsame : d₁ = d := by
    cases hchain with
    | refl => rfl
    | tail _ hstep =>
      obtain ⟨t, ht, -⟩ := hstep
      cases ht
  rw [hsame] at hlast
  rcases hlast with ⟨-, rfl⟩ | hadds
  · omega
  · rw [hadds.countFor.2.2]
    split <;> omega

/-- Encoding panics only on a full id space: with room for a term and all inside it, it
returns. -/
theorem encode_total (t : Term) (h : ∀ tag, d.countFor tag + (parts t).length ≤ TermId.payloadMax + 1) :
    ∃ id e, d.encode X t = some (id, e) ∧ ∀ tag, e.countFor tag ≤ d.countFor tag + (parts t).length := by
  induction t generalizing d with
  | namedNode n =>
    obtain ⟨id, e, he⟩ := encodeNamedNode_total (d := d) n (by have := h .iri; simp only [parts, List.length_cons] at this; omega)
    exact ⟨id, e, he, fun tag => (encodeNamedNode_encodes (X := X) he).countFor_le rfl tag⟩
  | blankNode b =>
    obtain ⟨id, e, he⟩ := encodeBlankNode_total (d := d) b (by have := h .blankNode; simp only [parts, List.length_cons] at this; omega)
    exact ⟨id, e, he, fun tag => (encodeBlankNode_encodes (X := X) he).countFor_le rfl tag⟩
  | literal l =>
    have hsome : ∃ id e, d.encodeLiteral X l = some (id, e) := by
      unfold encodeLiteral
      cases Inline.encodeLiteral X l with
      | some v => exact ⟨v, d, rfl⟩
      | none =>
        have := h .literal
        simp only [parts, List.length_cons] at this
        have hroom : d.literals.entries.length ≤ TermId.payloadMax := by
          simp only [countFor] at this
          omega
        obtain ⟨id, hid⟩ := checked_some .literal (le_trans (intern_le d.literals l) hroom)
        exact ⟨id, _, Option.map_eq_some_iff.2 ⟨id, hid, rfl⟩⟩
    obtain ⟨id, e, he⟩ := hsome
    exact ⟨id, e, he, fun tag => (encodeLiteral_encodes he).countFor_le rfl tag⟩
  | triple subject predicate object ih =>
    simp only [parts, components, List.length_cons] at h ih ⊢
    obtain ⟨s, d₁, h₁⟩ := encodeSubject_total (d := d) subject (fun tag => by have := h tag; omega)
    have c₁ := (encodeSubject_encodes (X := X) h₁).countFor_le (by cases subject <;> rfl)
    obtain ⟨p, d₂, h₂⟩ := encodeNamedNode_total (d := d₁) predicate (by have := h .iri; have := c₁ .iri; omega)
    have c₂ := (encodeNamedNode_encodes (X := X) h₂).countFor_le rfl
    obtain ⟨o, d₃, h₃, c₃⟩ := ih (d := d₂) (fun tag => by have := h tag; have := c₁ tag; have := c₂ tag; omega)
    have hroom : d₃.tripleTerms.entries.length ≤ TermId.payloadMax := by
      have := h .tripleTerm
      have := c₁ .tripleTerm
      have := c₂ .tripleTerm
      have hc₃ := c₃ .tripleTerm
      change d₃.tripleTerms.entries.length ≤ _ at hc₃
      omega
    obtain ⟨id, hid⟩ := checked_some .tripleTerm (le_trans (intern_le d₃.tripleTerms (s, p, o)) hroom)
    refine ⟨id, { d₃ with tripleTerms := (d₃.tripleTerms.intern (s, p, o)).2 }, ?_, fun tag => ?_⟩
    · simp only [encode, h₁, h₂, h₃, Option.bind_eq_bind, Option.bind_some, hid, Option.map_some]
    · have hlast : Dictionary.countFor { d₃ with tripleTerms := (d₃.tripleTerms.intern (s, p, o)).2 } tag ≤ d₃.countFor tag + 1 := by
        rcases d₃.tripleTerms.intern_cases (s, p, o) with ⟨i, -, hintern⟩ | ⟨hnone, hintern⟩
        · rw [hintern]
          exact Nat.le_succ _
        · rw [hintern]
          cases tag <;> simp [countFor, Interner.push]
      have := c₁ tag
      have := c₂ tag
      have := c₃ tag
      omega

/-! ## Runs -/

inductive Op where
  | encode (t : Term)
  | lookup (t : Term)
  | decode (id : TermId)

inductive Reply where
  | encoded (id : TermId)
  | found (id : Option TermId)
  | decoded (t : Except StorageError (Option Term))

/-- One operation: its reply and the dictionary after it. `none` is the panic. -/
def step (X : Inline.Datatypes) (d : Dictionary) : Op → Option (Reply × Dictionary)
  | .encode t => (d.encode X t).map (fun r => (.encoded r.1, r.2))
  | .lookup t => some (.found (d.lookup X t), d)
  | .decode id => some (.decoded (d.decode X id), d)

def run (X : Inline.Datatypes) (d : Dictionary) : List Op → Option (List Reply × Dictionary)
  | [] => some ([], d)
  | op :: ops => do
    let (reply, d) ← step X d op
    let (replies, d) ← run X d ops
    return (reply :: replies, d)

/-- The terms of the encodes, and everything inside them. -/
def encoded : List Op → List Term
  | [] => []
  | .encode t :: ops => parts t ++ encoded ops
  | _ :: ops => encoded ops

def Op.isEncode : Op → Bool
  | .encode _ => true
  | _ => false

theorem step_chain {op : Op} {reply : Reply} (h : step X d op = some (reply, d')) : Chain X (encoded [op]) d d' := by
  cases op with
  | encode t =>
    obtain ⟨⟨id, e⟩, he, heq⟩ := Option.map_eq_some_iff.1 h
    cases heq
    exact (encode_encodes he).chain.mono (fun u hu => by simpa [encoded] using hu)
  | lookup t => cases h; exact .refl
  | decode id => cases h; exact .refl

theorem encoded_cons (op : Op) (ops : List Op) : encoded (op :: ops) = encoded [op] ++ encoded ops := by
  cases op <;> simp [encoded]

theorem run_cons {op : Op} {ops : List Op} {replies : List Reply} (h : run X d (op :: ops) = some (replies, d')) :
    ∃ reply rest d₁, step X d op = some (reply, d₁) ∧ run X d₁ ops = some (rest, d') ∧ replies = reply :: rest := by
  simp only [run, Option.bind_eq_bind, Option.bind_eq_some_iff, Prod.exists] at h
  obtain ⟨reply, d₁, hstep, rest, d₂, hrun, heq⟩ := h
  cases heq
  exact ⟨reply, rest, d₁, hstep, hrun, rfl⟩

/-- A run adds entries for the terms it encodes, and does nothing else. -/
theorem run_chain {ops : List Op} {replies : List Reply} (h : run X d ops = some (replies, d')) :
    Chain X (encoded ops) d d' := by
  induction ops generalizing d replies with
  | nil =>
    cases h
    exact .refl
  | cons op ops ih =>
    obtain ⟨reply, rest, d₁, hstep, hrun, -⟩ := run_cons h
    rw [encoded_cons]
    exact ((step_chain hstep).mono (fun u hu => List.mem_append_left _ hu)).trans
      ((ih hrun).mono (fun u hu => List.mem_append_right _ hu))

/-- Lookups and decodes leave no trace. -/
theorem run_filter {ops : List Op} {replies : List Reply} (h : run X d ops = some (replies, d')) :
    ∃ rest, run X d (ops.filter Op.isEncode) = some (rest, d') := by
  induction ops generalizing d replies with
  | nil => exact ⟨replies, h⟩
  | cons op ops ih =>
    obtain ⟨reply, rest, d₁, hstep, hrun, -⟩ := run_cons h
    obtain ⟨rest', hrest⟩ := ih hrun
    cases op with
    | encode t =>
      rw [List.filter_cons_of_pos rfl]
      exact ⟨reply :: rest', by simp only [run, hstep, hrest, Option.bind_eq_bind, Option.bind_some]; rfl⟩
    | lookup t | decode id =>
      cases hstep
      rw [List.filter_cons_of_neg (by simp [Op.isEncode])]
      exact ⟨rest', hrest⟩

theorem new_valid : Valid X new where
  object i s p o h := by simp [new, Interner.empty] at h
  issued id h := by
    cases htag : id.tag <;> rw [htag] at h <;> simp [countFor, new, Interner.empty] at h

/-- A term encoded by a run is found at its end. -/
theorem run_encoded {ops : List Op} {replies : List Reply} (h : run X d ops = some (replies, d')) :
    ∀ t ∈ encoded ops, ∃ id, d'.lookup X t = some id := by
  induction ops generalizing d replies with
  | nil => simp [encoded]
  | cons op ops ih =>
    obtain ⟨reply, rest, d₁, hstep, hrun, -⟩ := run_cons h
    rw [encoded_cons]
    intro t ht
    rcases List.mem_append.1 ht with ht | ht
    · cases op with
      | encode u =>
        obtain ⟨⟨id, e⟩, he, heq⟩ := Option.map_eq_some_iff.1 hstep
        cases heq
        obtain ⟨id', hid'⟩ := lookup_parts (encode_spec he).1 t (by simpa [encoded] using ht)
        exact ⟨id', lookup_mono (run_chain hrun).grown hid'⟩
      | lookup u => simp [encoded] at ht
      | decode id => simp [encoded] at ht
    · exact ih hrun t ht

theorem run_valid (hX : X.Lawful) {ops : List Op} {replies : List Reply} (h : run X new ops = some (replies, d)) : Valid X d :=
  (run_chain h).valid hX new_valid

/-- The ids out under each tag are those below its count: the ids of the terms encoded. -/
theorem run_dense (hX : X.Lawful) {ops : List Op} {replies : List Reply} (h : run X new ops = some (replies, d)) {id : TermId}
    (hid : issues id.tag = true) : id.payload < d.countFor id.tag ↔ ∃ t ∈ encoded ops, d.lookup X t = some id := by
  constructor
  · intro hlt
    refine (run_chain h).news ?_ hlt
    cases id.tag <;> simp [countFor, new, Interner.empty]
  · rintro ⟨t, -, hlookup⟩
    exact lookup_issued hX hlookup hid

/-- An id, once out, stands for its term in every later state, and for no other. -/
theorem run_stable (hX : X.Lawful) (hd : Valid X d) {t : Term} {id : TermId} {d₁ e : Dictionary}
    (hencode : d.encode X t = some (id, d₁)) {ops : List Op} {replies : List Reply} (h : run X d₁ ops = some (replies, e)) :
    e.lookup X t = some id ∧ e.decode X id = .ok (some t) ∧
      ∀ u id' e', e.encode X u = some (id', e') → (id' = id ↔ u = t) := by
  have hchain := (encode_encodes hencode).chain
  have he : Valid X e := (run_chain h).valid hX (hchain.valid hX hd)
  have hlookup : e.lookup X t = some id := lookup_mono (run_chain h).grown (encode_spec hencode).1
  refine ⟨hlookup, decode_lookup hX he hlookup, fun u id' e' hu => ?_⟩
  obtain ⟨hu', hgrown⟩ := encode_spec hu
  have he' : Valid X e' := (encode_encodes hu).chain.valid hX he
  constructor
  · rintro rfl
    exact lookup_injective hX he' hu' (lookup_mono hgrown hlookup)
  · rintro rfl
    rw [encode_of_lookup hlookup] at hu
    cases hu
    rfl

/-- The laws of the dictionary, at the end of any run. An encoded term has one id from then
on, found and decoded at every later time, and no other term has it. Only encodes change
anything. The ids under each of the dictionary's tags are a dense sequence, in the order they
are given out; one that is not out decodes to nothing, and the ids under the other tags stand
for themselves. A term that is inline or well known is never in the dictionary, every other
one is. Encoding returns as long as there is room. -/
theorem run_laws (hX : X.Lawful) {ops : List Op} {replies : List Reply} (h : run X new ops = some (replies, d)) :
    (∀ t id d₁, d.encode X t = some (id, d₁) → ∀ ops' replies' e, run X d₁ ops' = some (replies', e) →
      e.lookup X t = some id ∧ e.decode X id = .ok (some t) ∧
        ∀ u id' e', e.encode X u = some (id', e') → (id' = id ↔ u = t)) ∧
    (∃ replies', run X new (ops.filter Op.isEncode) = some (replies', d)) ∧
    (∀ id : TermId, issues id.tag = true → (id.payload < d.countFor id.tag ↔ ∃ t ∈ encoded ops, d.lookup X t = some id)) ∧
    (∀ t id d₁, d.encode X t = some (id, d₁) → d.lookup X t = none →
      d.countFor id.tag ≤ id.payload ∧ id.payload + 1 = d₁.countFor id.tag) ∧
    (∀ id : TermId, issues id.tag = true → (∀ t ∈ encoded ops, d.lookup X t ≠ some id) → d.decode X id = .ok none) ∧
    (∀ id : TermId, issues id.tag = false → d.decode X id = .ok (standing X id)) ∧
    (∀ t id, wellKnown X t = some id → issues id.tag = false ∧ d.encode X t = some (id, d)) ∧
    (∀ t id d₁, wellKnown X t = none → d.encode X t = some (id, d₁) → issues id.tag = true) ∧
    (∀ t, (∀ tag, d.countFor tag + (parts t).length ≤ TermId.payloadMax + 1) → (d.encode X t).isSome) := by
  have hd := run_valid hX h
  refine ⟨fun t id d₁ henc ops' replies' e hrun => run_stable hX hd henc hrun, run_filter h, fun id hid => run_dense hX h hid,
    fun t id d₁ henc hnone => (encode_new hX hd henc hnone).2, fun id hid hout => ?_, fun id hid => decode_standing hid,
    fun t id hid => ⟨wellKnown_unissued hX hid, encode_of_lookup (wellKnown_lookup hid)⟩,
    fun t id d₁ hnone henc => lookup_issues hnone (encode_spec henc).1, fun t hroom => ?_⟩
  · refine decode_issues hid (Nat.le_of_not_lt (fun hlt => ?_))
    obtain ⟨t, ht, hlookup⟩ := (run_dense hX h hid).1 hlt
    exact hout t ht hlookup
  · obtain ⟨id, e, he, -⟩ := encode_total (X := X) t hroom
    rw [he]
    rfl

/-- Datatypes with no date-times and no floats. -/
def bare : Inline.Datatypes := ⟨fun _ => none, fun _ => "", fun _ => none⟩

theorem bare_lawful : bare.Lawful where
  written _ _ _ h := by cases h
  calendar _ _ _ h := by cases h

/-- A triple term over a blank node that is there already, encoded and read back. -/
theorem run_laws_blank : ∃ replies d, run bare new [.encode (.blankNode "b")] = some (replies, d) ∧
    ∀ id d₁, d.encode bare (.triple (.blankNode "b") Xsd.string (.blankNode "b")) = some (id, d₁) →
      d₁.decode bare id = .ok (some (.triple (.blankNode "b") Xsd.string (.blankNode "b"))) := by
  refine ⟨[.encoded (TermId.new .blankNode 0 (by decide))], _, rfl, fun id d₁ henc => ?_⟩
  exact ((@run_laws bare _ bare_lawful [.encode (.blankNode "b")] _ rfl).1 _ id d₁ henc [] [] d₁ rfl).2.1

/-- The id of `false` decodes in a dictionary that has given out nothing: an inline id is its
own value. -/
theorem inline_unissued : run bare new [] = some ([], new) ∧
    (new.decode bare (TermId.new .small 0 (by decide))).toOption = some (some (.literal (.newTyped "false" Xsd.boolean))) ∧
    ∀ t ∈ encoded [], new.lookup bare t ≠ some (TermId.new .small 0 (by decide)) := by
  refine ⟨rfl, by decide, by simp [encoded]⟩

end Holos.Dictionary
