import Mathlib.Data.List.Find
import Holos.Store.RocksScope
/-!
# Terms in the dictionary families

`Rows` says which rows the two families can hold: an exact key leads to the row of its term, the
candidates of a hashed key are rows of long terms, and the object of a triple term comes before
it. Under it a term is found without failing, and an id that reads as a term decodes to it.

Every operation keeps it, also one that is refused: the rows of a refused encode are in the
batch like any others.
-/

namespace Holos

open Lib
open Dictionary (issues)

/-- The tag a serialised term is issued an id under. -/
def StoredTerm.tag : StoredTerm → Tag
  | .iri _ => .iri
  | .blank _ => .blankNode
  | .literal _ => .literal
  | .triple _ _ _ => .tripleTerm

theorem StoredTerm.issues_tag (st : StoredTerm) : issues st.tag = true := by
  cases st <;> rfl

namespace RocksStorage

variable {hash128 : StoredTerm → Hash} {X : Inline.Datatypes} {r r' : RocksStorage} {next : Tag → Nat} {db db' : Db}

/-! ## Well-formed families -/

structure Rows (next : Tag → Nat) (db : Db) : Prop where
  tag : ∀ id st, db.id2str id = some st → id.tag = st.tag ∧ id.payload < next id.tag
  exact : ∀ st ids, db.str2id (.exact st) = some ids → ∃ id, ids = [id] ∧ db.id2str id = some st
  hashed : ∀ h ids, db.str2id (.hashed h) = some ids → ∀ id ∈ ids, ∃ st, db.id2str id = some st ∧ ¬st.size ≤ inlineKeyMax
  below : ∀ id s p o, db.id2str id = some (.triple s p o) → o.tag = .tripleTerm → o.payload < id.payload

theorem Rows.new : Rows (fun _ => 0) Db.new :=
  ⟨fun _ _ h => (by cases h), fun _ _ h => (by cases h), fun _ _ h => (by cases h), fun _ _ _ _ h => (by cases h)⟩

theorem Rows.mono {next' : Tag → Nat} (h : Rows next db) (hle : ∀ tag, next tag ≤ next' tag) : Rows next' db :=
  ⟨fun id st hid => ⟨(h.tag id st hid).1, lt_of_lt_of_le (h.tag id st hid).2 (hle _)⟩, h.exact, h.hashed, h.below⟩

theorem Rows.congr (h : Rows next db) (h₁ : db'.id2str = db.id2str) (h₂ : db'.str2id = db.str2id) : Rows next db' := by
  refine ⟨?_, ?_, ?_, ?_⟩
  · rw [h₁]; exact h.tag
  · rw [h₁, h₂]; exact h.exact
  · rw [h₁, h₂]; exact h.hashed
  · rw [h₁]; exact h.below

/-- The families with a new term in them. Under a hashed key it may be with any candidates that
are rows of long terms. -/
structure Mints (db db' : Db) (st : StoredTerm) (id : TermId) : Prop where
  rows : db'.id2str = Function.update db.id2str id (some st)
  exact : ∀ st', db'.str2id (.exact st') = if st' = st ∧ st.size ≤ inlineKeyMax then some [id] else db.str2id (.exact st')
  hashed : ∀ h ids, db'.str2id (.hashed h) = some ids → ∀ i ∈ ids,
    (i = id ∧ ¬st.size ≤ inlineKeyMax) ∨ ∃ st', db.id2str i = some st' ∧ ¬st'.size ≤ inlineKeyMax

/-- A new id is the next of its tag. -/
structure Next (next : Tag → Nat) (st : StoredTerm) (id : TermId) : Prop where
  tag : id.tag = st.tag
  payload : id.payload = next st.tag

theorem Next.fresh {st : StoredTerm} {id : TermId} (hn : Next next st id) (h : Rows next db) : db.id2str id = none := by
  cases hrow : db.id2str id with
  | none => rfl
  | some st' =>
    have hlt := (h.tag id st' hrow).2
    rw [hn.tag, hn.payload] at hlt
    exact absurd hlt (lt_irrefl _)

/-- The counters after a new id. -/
def bump (next : Tag → Nat) (tag : Tag) : Tag → Nat := Function.update next tag (next tag + 1)

theorem le_bump (next : Tag → Nat) (tag t : Tag) : next t ≤ bump next tag t := by
  unfold bump
  by_cases ht : t = tag
  · subst ht
    simp
  · simp [ht]

theorem Mints.mono {st : StoredTerm} {id : TermId} (h : Mints db db' st id) (hfresh : db.id2str id = none) {i : TermId}
    {st' : StoredTerm} (hi : db.id2str i = some st') : db'.id2str i = some st' := by
  rw [h.rows, Function.update_of_ne (fun he => by rw [he, hfresh] at hi; cases hi)]
  exact hi

theorem Mints.row {st : StoredTerm} {id : TermId} (h : Mints db db' st id) : db'.id2str id = some st := by
  rw [h.rows, Function.update_self]

theorem Rows.mints {st : StoredTerm} {id : TermId} (h : Rows next db) (hm : Mints db db' st id) (hn : Next next st id)
    (hbelow : ∀ s p o, st = .triple s p o → o.tag = .tripleTerm → o.payload < next .tripleTerm) :
    Rows (bump next st.tag) db' := by
  have hfresh := hn.fresh h
  refine ⟨fun i st' hi => ?_, fun st' ids hkey => ?_, fun d ids hkey i hi => ?_, fun i s p o hi ho => ?_⟩
  · by_cases he : i = id
    · subst he
      rw [hm.row] at hi
      cases hi
      exact ⟨hn.tag, by rw [hn.tag, hn.payload]; simp [bump]⟩
    · rw [hm.rows, Function.update_of_ne he] at hi
      obtain ⟨h₁, h₂⟩ := h.tag i st' hi
      exact ⟨h₁, lt_of_lt_of_le h₂ (le_bump _ _ _)⟩
  · rw [hm.exact] at hkey
    split_ifs at hkey with hst
    · cases hkey
      exact ⟨id, rfl, hst.1 ▸ hm.row⟩
    · obtain ⟨i, hids, hrow⟩ := h.exact st' ids hkey
      exact ⟨i, hids, hm.mono hfresh hrow⟩
  · rcases hm.hashed d ids hkey i hi with ⟨rfl, hlong⟩ | ⟨st', hrow, hlong⟩
    · exact ⟨st, hm.row, hlong⟩
    · exact ⟨st', hm.mono hfresh hrow, hlong⟩
  · by_cases he : i = id
    · subst he
      rw [hm.row] at hi
      cases hi
      rw [hn.payload]
      exact hbelow s p o rfl ho
    · rw [hm.rows, Function.update_of_ne he] at hi
      exact h.below i s p o hi ho

/-! ## Finding a term -/

/-- The id of a serialised term. -/
def find (hash128 : StoredTerm → Hash) (db : Db) (st : StoredTerm) : Option TermId :=
  if st.size ≤ inlineKeyMax then (db.str2id (.exact st)).bind List.head?
  else (listOf db (hash128 st)).find? (fun id => db.id2str id = some st)

theorem Rows.find_row (h : Rows next db) {st : StoredTerm} {id : TermId} (hf : find hash128 db st = some id) :
    db.id2str id = some st := by
  unfold find at hf
  split_ifs at hf with hsize
  · obtain ⟨ids, hkey, hhead⟩ := Option.bind_eq_some_iff.1 hf
    obtain ⟨i, rfl, hrow⟩ := h.exact st ids hkey
    cases hhead
    exact hrow
  · simpa using List.find?_some hf

/-- What a storage can read of families: their rows, through the open scope. -/
def Readable (r : RocksStorage) (db : Db) : Prop := ∀ id st, db.id2str id = some st → r.row id = some st

theorem resolve_eq (h : Rows next r.db) (hr : Readable r r.db) {st : StoredTerm} {t : Term}
    (ht : ¬st.size ≤ inlineKeyMax → StoredTerm.whole st = some t) :
    r.resolve X (dictionaryKey hash128 st).1 (dictionaryKey hash128 st).2 t = .ok (find hash128 r.db st) := by
  unfold find
  by_cases hsize : st.size ≤ inlineKeyMax
  · rw [dictionaryKey_exact hsize, if_pos hsize]
    unfold resolve
    cases hkey : r.db.str2id (.exact st) with
    | none => rfl
    | some ids =>
      obtain ⟨i, rfl, -⟩ := h.exact st ids hkey
      rfl
  · rw [dictionaryKey_hashed hsize, if_neg hsize]
    unfold resolve listOf
    cases hkey : r.db.str2id (.hashed (hash128 st)) with
    | none => rfl
    | some ids =>
      have hids : ∀ id ∈ ids, ∃ st', r.db.id2str id = some st' ∧ ¬st'.size ≤ inlineKeyMax := h.hashed _ _ hkey
      simp only [if_true, Option.getD_some]
      rw [verify_eq (ht hsize) (fun id hid => ?_)]
      · congr 1
        refine List.find?_congr (fun id hid => ?_)
        obtain ⟨st', hrow, -⟩ := hids id hid
        rw [hr id st' hrow, hrow]
      · obtain ⟨st', hrow, hlong⟩ := hids id hid
        obtain ⟨t', ht'⟩ := whole_of_large hlong
        refine ⟨?_, st', t', hr id st' hrow, ht'⟩
        rw [(h.tag id st' hrow).1]
        exact st'.issues_tag

/-- The id of a named node. -/
def findNode (hash128 : StoredTerm → Hash) (db : Db) (n : NamedNode) : Option TermId :=
  match Vocab.encodeIri n with
  | some id => some id
  | none => find hash128 db (.iri n)

def findSubject (hash128 : StoredTerm → Hash) (db : Db) : NamedOrBlankNode → Option TermId
  | .namedNode n => findNode hash128 db n
  | .blankNode b => find hash128 db (.blank b)

/-- The id of a term. -/
def findTerm (hash128 : StoredTerm → Hash) (X : Inline.Datatypes) (db : Db) : Term → Option TermId
  | .namedNode n => findNode hash128 db n
  | .blankNode b => find hash128 db (.blank b)
  | .literal l =>
    match Inline.encodeLiteral X l with
    | some id => some id
    | none => find hash128 db (.literal l)
  | .triple subject predicate object => do
    let s ← findSubject hash128 db subject
    let p ← findNode hash128 db predicate
    let o ← findTerm hash128 X db object
    find hash128 db (.triple s p o)

section
variable (h : Rows r.next r.db) (hs : r.scope = none)
include h hs

theorem lookupStored_eq {st : StoredTerm} {t : Term} (ht : ¬st.size ≤ inlineKeyMax → StoredTerm.whole st = some t) :
    r.lookupStored hash128 X st t = .ok (find hash128 r.db st) := by
  have hr : Readable r r.db := by
    intro id st hid
    unfold row
    rw [hs]
    exact hid
  unfold lookupStored
  rw [hs, Option.bind_none]
  exact resolve_eq h hr ht

theorem lookupNamedNode_eq (n : NamedNode) : r.lookupNamedNode hash128 X n = .ok (findNode hash128 r.db n) := by
  unfold lookupNamedNode findNode
  cases Vocab.encodeIri n with
  | some id => rfl
  | none => exact lookupStored_eq h hs (fun _ => rfl)

theorem lookupSubject_eq (s : NamedOrBlankNode) : r.lookupSubject hash128 X s = .ok (findSubject hash128 r.db s) := by
  cases s with
  | namedNode n => exact lookupNamedNode_eq h hs n
  | blankNode b => exact lookupStored_eq h hs (fun _ => rfl)

/-- Outside a scope a lookup reads the families, and cannot fail. -/
theorem lookup_eq (t : Term) : r.lookup hash128 X t = .ok (findTerm hash128 X r.db t) := by
  induction t with
  | namedNode n => exact lookupNamedNode_eq h hs n
  | blankNode b => exact lookupStored_eq h hs (fun _ => rfl)
  | literal l =>
    unfold lookup findTerm
    cases Inline.encodeLiteral X l with
    | some id => rfl
    | none => exact lookupStored_eq h hs (fun _ => rfl)
  | triple subject predicate object ih =>
    unfold lookup findTerm
    rw [lookupSubject_eq h hs, lookupNamedNode_eq h hs, ih]
    simp only [bind, Except.bind, Option.bind]
    cases findSubject hash128 r.db subject with
    | none => rfl
    | some s =>
      cases findNode hash128 r.db predicate with
      | none => rfl
      | some p =>
        cases findTerm hash128 X r.db object with
        | none => rfl
        | some o => exact lookupStored_eq h hs (fun hsize => absurd (triple_exact s p o) hsize)

end

/-! ## Reading an id -/

/-- An id stands for a named node. -/
def ReadsNode (db : Db) (id : TermId) (n : NamedNode) : Prop :=
  match Vocab.encodeIri n with
  | some v => id = v
  | none => db.id2str id = some (.iri n)

def ReadsSubject (db : Db) (id : TermId) : NamedOrBlankNode → Prop
  | .namedNode n => ReadsNode db id n
  | .blankNode b => db.id2str id = some (.blank b)

/-- An id stands for a term. -/
def Reads (X : Inline.Datatypes) (db : Db) (id : TermId) : Term → Prop
  | .namedNode n => ReadsNode db id n
  | .blankNode b => db.id2str id = some (.blank b)
  | .literal l =>
    match Inline.encodeLiteral X l with
    | some v => id = v
    | none => db.id2str id = some (.literal l)
  | .triple subject predicate object => ∃ s p o, ReadsSubject db s subject ∧ ReadsNode db p predicate ∧
      Reads X db o object ∧ db.id2str id = some (.triple s p o)

theorem ReadsNode.mono {id : TermId} {n : NamedNode} (hle : ∀ i st, db.id2str i = some st → db'.id2str i = some st)
    (h : ReadsNode db id n) : ReadsNode db' id n := by
  unfold ReadsNode at h ⊢
  split at h
  · exact h
  · exact hle _ _ h

theorem ReadsSubject.mono {id : TermId} {s : NamedOrBlankNode} (hle : ∀ i st, db.id2str i = some st → db'.id2str i = some st)
    (h : ReadsSubject db id s) : ReadsSubject db' id s := by
  cases s with
  | namedNode n => exact ReadsNode.mono hle h
  | blankNode b => exact hle _ _ h

theorem Reads.mono {id : TermId} {t : Term} (hle : ∀ i st, db.id2str i = some st → db'.id2str i = some st)
    (h : Reads X db id t) : Reads X db' id t := by
  induction t generalizing id with
  | namedNode n => exact ReadsNode.mono hle h
  | blankNode b => exact hle _ _ h
  | literal l =>
    unfold Reads at h ⊢
    split at h
    · exact h
    · exact hle _ _ h
  | triple subject predicate object ih =>
    obtain ⟨s, p, o, hs, hp, ho, hrow⟩ := h
    exact ⟨s, p, o, hs.mono hle, hp.mono hle, ih ho, hle _ _ hrow⟩

/-- The id found for a term stands for it. -/
theorem findNode_reads (h : Rows next db) {n : NamedNode} {id : TermId} (hf : findNode hash128 db n = some id) : ReadsNode db id n := by
  unfold findNode at hf
  unfold ReadsNode
  cases hv : Vocab.encodeIri n with
  | some v =>
    rw [hv] at hf
    cases hf
    rfl
  | none =>
    rw [hv] at hf
    exact h.find_row hf

theorem findSubject_reads (h : Rows next db) {s : NamedOrBlankNode} {id : TermId} (hf : findSubject hash128 db s = some id) :
    ReadsSubject db id s := by
  cases s with
  | namedNode n => exact findNode_reads h hf
  | blankNode b => exact h.find_row hf

theorem findTerm_reads (h : Rows next db) {t : Term} {id : TermId} (hf : findTerm hash128 X db t = some id) : Reads X db id t := by
  induction t generalizing id with
  | namedNode n => exact findNode_reads h hf
  | blankNode b => exact h.find_row hf
  | literal l =>
    unfold findTerm at hf
    unfold Reads
    cases hv : Inline.encodeLiteral X l with
    | some v =>
      rw [hv] at hf
      cases hf
      rfl
    | none =>
      rw [hv] at hf
      exact h.find_row hf
  | triple subject predicate object ih =>
    unfold findTerm at hf
    obtain ⟨s, hs, hf⟩ := Option.bind_eq_some_iff.1 hf
    obtain ⟨p, hp, hf⟩ := Option.bind_eq_some_iff.1 hf
    obtain ⟨o, ho, hf⟩ := Option.bind_eq_some_iff.1 hf
    exact ⟨s, p, o, findSubject_reads h hs, findNode_reads h hp, ih ho, h.find_row hf⟩

/-- An id with a row is of the dictionary's tags, so its row is what it decodes by. -/
theorem row_of_rows (h : Rows next db) (hr : Readable r db) {id : TermId} {st : StoredTerm} (hrow : db.id2str id = some st) :
    id.tag ≠ .vocab ∧ Inline.inlineTag id.tag = false ∧ r.row id = some st := by
  have htag := (h.tag id st hrow).1
  have hissues : issues id.tag = true := by rw [htag]; exact st.issues_tag
  refine ⟨fun hv => (by rw [hv] at hissues; cases hissues), ?_, hr id st hrow⟩
  cases hi : Inline.inlineTag id.tag with
  | false => rfl
  | true => rw [Dictionary.issues_inline hi] at hissues; cases hissues

theorem decodeAt_readsNode (h : Rows next db) (hr : Readable r db) {id : TermId} {n : NamedNode} (hn : ReadsNode db id n)
    (fuel : Nat) : r.decodeAt X fuel id = .ok (some (.namedNode n)) := by
  unfold ReadsNode at hn
  split at hn
  · rename_i v hv
    subst hn
    obtain ⟨htag, hdec⟩ := Vocab.decodeIri_encodeIri hv
    unfold decodeAt
    rw [if_pos htag, hdec]
    rfl
  · obtain ⟨hvocab, hinline, hrow⟩ := row_of_rows h hr hn
    unfold decodeAt
    simp only [hvocab, hinline, hrow, Bool.false_eq_true, if_false]

theorem decodeAt_readsSubject (h : Rows next db) (hr : Readable r db) {id : TermId} {s : NamedOrBlankNode}
    (hs : ReadsSubject db id s) (fuel : Nat) : r.decodeAt X fuel id = .ok (some s.toTerm) := by
  cases s with
  | namedNode n => exact decodeAt_readsNode h hr hs fuel
  | blankNode b =>
    obtain ⟨hvocab, hinline, hrow⟩ := row_of_rows h hr hs
    unfold decodeAt
    simp only [hvocab, hinline, hrow, Bool.false_eq_true, if_false, NamedOrBlankNode.toTerm]

theorem decodeAt_reads (hX : X.Lawful) (h : Rows next db) (hr : Readable r db) {id : TermId} {t : Term} (ht : Reads X db id t)
    (fuel : Nat) (hfuel : id.tag = .tripleTerm → id.payload < fuel) : r.decodeAt X fuel id = .ok (some t) := by
  induction t generalizing id fuel with
  | namedNode n => exact decodeAt_readsNode h hr ht fuel
  | blankNode b => exact decodeAt_readsSubject (s := .blankNode b) h hr ht fuel
  | literal l =>
    unfold Reads at ht
    split at ht
    · rename_i v hv
      subst ht
      obtain ⟨htag, hdec⟩ := Inline.decode_encodeLiteral X hX hv
      have hvocab : id.tag ≠ .vocab := fun hv => by rw [hv] at htag; cases htag
      unfold decodeAt
      rw [if_neg hvocab, if_pos htag, hdec]
    · obtain ⟨hvocab, hinline, hrow⟩ := row_of_rows h hr ht
      unfold decodeAt
      simp only [hvocab, hinline, hrow, Bool.false_eq_true, if_false]
  | triple subject predicate object ih =>
    obtain ⟨s, p, o, hs, hp, ho, hrow⟩ := ht
    have htag : id.tag = .tripleTerm := (h.tag id _ hrow).1
    cases fuel with
    | zero => exact absurd (hfuel htag) (Nat.not_lt_zero _)
    | succ fuel =>
      -- the object was issued before the triple term, so less depth is enough for it
      have hobject := ih ho fuel (fun hto => by have := h.below id s p o hrow hto; have := hfuel htag; omega)
      obtain ⟨hvocab, hinline, hr'⟩ := row_of_rows h hr hrow
      unfold decodeAt
      simp only [hvocab, hinline, hr', Bool.false_eq_true, if_false, decodeAt_readsSubject h hr hs fuel,
        decodeAt_readsNode h hr hp fuel, hobject, bind, Except.bind, Dictionary.asSubject_toTerm, pure, Except.pure,
        Option.map_some]

/-- An id that stands for a term decodes to it. -/
theorem decode_reads (hX : X.Lawful) (h : Rows next db) (hr : Readable r db) {id : TermId} {t : Term} (ht : Reads X db id t) :
    r.decode X id = .ok (some t) :=
  decodeAt_reads hX h hr ht _ (fun _ => Nat.lt_succ_self _)

/-! ## The storage -/

/-- The invariant, with rows gathered and not yet handed over: the rows of the scope's maps and
of its candidates are among those a commit would leave. -/
structure Sound (r : RocksStorage) (ops : List Pending) : Prop where
  db : Rows r.next r.db
  applied : Rows r.next (r.applied.write ops)
  grown : ∀ id st, r.db.id2str id = some st → (r.applied.write ops).id2str id = some st
  terms : ∀ s, r.scope = some s → ∀ st id, s.terms st = some id → (r.applied.write ops).id2str id = some st
  strings : ∀ s, r.scope = some s → ∀ id st, s.strings id = some st → (r.applied.write ops).id2str id = some st
  candidates : ∀ s, r.scope = some s → ∀ d ids, s.candidates (.hashed d) = some ids → ∀ i ∈ ids,
    ∃ st, (r.applied.write ops).id2str i = some st ∧ ¬st.size ≤ inlineKeyMax

theorem new_sound : Sound new [] :=
  ⟨.new, .new, fun _ _ h => (by cases h), fun _ h => (by cases h), fun _ h => (by cases h), fun _ h => (by cases h)⟩

variable {ops ops' : List Pending}

theorem Sound.readable (h : Sound r ops) : Readable r r.db := by
  intro id st hrow
  unfold row
  cases hs : r.scope with
  | none => exact hrow
  | some s =>
    rw [Option.bind_some]
    cases hstr : s.strings id with
    | none => exact hrow
    | some st' =>
      have h₁ := h.strings s hs id st' hstr
      rw [h.grown id st hrow] at h₁
      rw [← h₁]

theorem Sound.candidatesFor (h : Sound r ops) (d : Hash) :
    ∀ i ∈ r.candidatesFor (.hashed d), ∃ st, (r.applied.write ops).id2str i = some st ∧ ¬st.size ≤ inlineKeyMax := by
  intro i hi
  have hdb : i ∈ (r.db.str2id (.hashed d)).getD [] → ∃ st, (r.applied.write ops).id2str i = some st ∧ ¬st.size ≤ inlineKeyMax := by
    intro hi
    cases hkey : r.db.str2id (.hashed d) with
    | none =>
      rw [hkey] at hi
      cases hi
    | some ids =>
      rw [hkey] at hi
      obtain ⟨st, hrow, hlong⟩ := h.db.hashed d ids hkey i hi
      exact ⟨st, h.grown i st hrow, hlong⟩
  unfold RocksStorage.candidatesFor at hi
  cases hs : r.scope with
  | none =>
    rw [hs, Option.bind_none] at hi
    exact hdb hi
  | some s =>
    rw [hs, Option.bind_some] at hi
    cases hc : s.candidates (.hashed d) with
    | none =>
      rw [hc] at hi
      exact hdb hi
    | some ids =>
      rw [hc] at hi
      exact h.candidates s hs d ids hc i hi

/-- The rows of a new term mint it. -/
theorem Sound.minted (h : Sound r ops) (st : StoredTerm) (id : TermId) (tag : Tag) (n : Nat) :
    Mints (r.applied.write ops) ((r.applied.write ops).write [.putDefault (.next tag) n, .putId2str id st,
      .putStr2id (dictionaryKey hash128 st).1 (listFor hash128 r st id)]) st id := by
  obtain ⟨hid2str, hstr2id⟩ := write_minted (r.applied.write ops) tag n id st (dictionaryKey hash128 st).1
    (listFor hash128 r st id)
  refine ⟨hid2str, fun st' => ?_, fun d ids hkey i hi => ?_⟩
  · rw [hstr2id]
    by_cases hsize : st.size ≤ inlineKeyMax
    · rw [dictionaryKey_exact hsize]
      by_cases hst : st' = st
      · subst hst
        simp [listFor, hsize]
      · rw [Function.update_of_ne (by simpa using hst), if_neg (fun hc => hst hc.1)]
    · rw [dictionaryKey_hashed hsize, Function.update_of_ne (by simp), if_neg (fun hc => hsize hc.2)]
  · rw [hstr2id] at hkey
    by_cases hk : DictKey.hashed d = (dictionaryKey hash128 st).1
    · rw [hk, Function.update_self] at hkey
      cases hkey
      unfold dictionaryKey at hk
      split_ifs at hk with hsize
      simp only [listFor, if_neg hsize, List.mem_append, List.mem_singleton] at hi
      rcases hi with hi | rfl
      · exact .inr (h.candidatesFor _ i hi)
      · exact .inl ⟨rfl, hsize⟩
    · rw [Function.update_of_ne hk] at hkey
      exact .inr (h.applied.hashed d ids hkey i hi)

theorem Sound.allocate {st : StoredTerm} {out : Except StorageError (TermId × List Pending) × RocksStorage} (h : Sound r ops)
    (hbelow : ∀ s p o, st = .triple s p o → o.tag = .tripleTerm → o.payload < r.next .tripleTerm)
    (halloc : r.allocate hash128 st.tag st ops = some out) :
    ∃ id ops', out = (.ok (id, ops'), out.2) ∧ Sound out.2 ops' ∧ Next r.next st id ∧
      Mints (r.applied.write ops) (out.2.applied.write ops') st id := by
  obtain ⟨id, hid, rfl⟩ := allocate_eq halloc
  obtain ⟨hidtag, hpay⟩ := TermId.checked_eq_some hid
  have hn : Next r.next st id := ⟨hidtag, hpay⟩
  have hm := @Sound.minted hash128 r ops h st id st.tag (r.next st.tag + 1)
  have hfresh := hn.fresh h.applied
  have hint : Interned r { r with
      next := Function.update r.next st.tag (r.next st.tag + 1), scope := r.scope.map (minting hash128 r st id) } :=
    ⟨rfl, rfl, rfl, rfl, le_bump r.next st.tag, fun hs => by simp [hs], fun s hs => ⟨_, _, _, by rw [hs]; rfl⟩⟩
  refine ⟨id, _, rfl, ?_, hn, by rw [hint.applied, write_append]; exact hm⟩
  refine ⟨h.db.mono (le_bump _ _), ?_, fun i st' hi => ?_, ?_, ?_, ?_⟩
  all_goals rw [hint.applied, write_append]
  · exact h.applied.mints hm hn hbelow
  · exact hm.mono hfresh (h.grown i st' hi)
  all_goals
    intro s' hs'
    obtain ⟨s, hs, rfl⟩ := Option.map_eq_some_iff.1 hs'
  · intro st' i hi
    by_cases hst : st' = st
    · subst hst
      simp only [minting, Function.update_self, Option.some.injEq] at hi
      exact hi ▸ hm.row
    · simp only [minting, Function.update_of_ne hst] at hi
      exact hm.mono hfresh (h.terms s hs st' i hi)
  · intro i st' hi
    by_cases he : i = id
    · subst he
      simp only [minting, Function.update_self, Option.some.injEq] at hi
      exact hi ▸ hm.row
    · simp only [minting, Function.update_of_ne he] at hi
      exact hm.mono hfresh (h.strings s hs i st' hi)
  · intro d ids hc i hi
    have hold : (∃ st', (r.applied.write ops).id2str i = some st' ∧ ¬st'.size ≤ inlineKeyMax) →
        ∃ st', ((r.applied.write ops).write _).id2str i = some st' ∧ ¬st'.size ≤ inlineKeyMax :=
      Exists.imp (fun st' hst => ⟨hm.mono hfresh hst.1, hst.2⟩)
    by_cases hsize : st.size ≤ inlineKeyMax
    · simp only [minting, if_pos hsize] at hc
      exact hold (h.candidates s hs d ids hc i hi)
    · simp only [minting, if_neg hsize] at hc
      by_cases hd : d = hash128 st
      · subst hd
        rw [Function.update_self] at hc
        cases hc
        simp only [listFor, if_neg hsize, List.mem_append, List.mem_singleton] at hi
        rcases hi with hi | rfl
        · exact hold (h.candidatesFor _ i hi)
        · exact ⟨st, hm.row, hsize⟩
      · rw [Function.update_of_ne (by simpa using hd)] at hc
        exact hold (h.candidates s hs d ids hc i hi)

/-! ### Encodes -/

/-- Interning returned an id of which something holds in the families with the rows gathered, and
no row is lost. -/
def Encodes (r : RocksStorage) (ops : List Pending) (P : Db → TermId → Prop)
    (out : Except StorageError (TermId × List Pending) × RocksStorage) : Prop :=
  ∃ id ops', out.1 = .ok (id, ops') ∧ Sound out.2 ops' ∧ P (out.2.applied.write ops') id ∧
    ∀ i st, (r.applied.write ops).id2str i = some st → (out.2.applied.write ops').id2str i = some st

variable {out : Except StorageError (TermId × List Pending) × RocksStorage}

theorem Sound.intern {t : Term} (h : Sound r ops) (st : StoredTerm) (ht : ¬st.size ≤ inlineKeyMax → StoredTerm.whole st = some t)
    (hbelow : ∀ s p o, st = .triple s p o → o.tag = .tripleTerm → o.payload < r.next .tripleTerm)
    (hok : r.intern hash128 X st.tag st t ops = some out) : Encodes r ops (fun db id => db.id2str id = some st) out := by
  unfold RocksStorage.intern at hok
  split at hok
  · rename_i existing hterm
    cases hok
    obtain ⟨s, hs, hterm⟩ := Option.bind_eq_some_iff.1 hterm
    exact ⟨existing, ops, rfl, h, h.terms s hs st existing hterm, fun _ _ hi => hi⟩
  · rw [resolve_eq h.db h.readable ht] at hok
    split at hok
    · rename_i e he
      cases he
    · rename_i existing hfind
      cases hok
      exact ⟨existing, ops, rfl, h, h.grown _ _ (h.db.find_row (Except.ok.inj hfind)), fun _ _ hi => hi⟩
    · obtain ⟨id, ops', hout, hsound, hn, hm⟩ := h.allocate hbelow hok
      exact ⟨id, ops', congrArg Prod.fst hout, hsound, hm.row, fun _ _ hi => hm.mono (hn.fresh h.applied) hi⟩

theorem Sound.encodeNamedNode {n : NamedNode} (h : Sound r ops) (hok : r.encodeNamedNode hash128 X n ops = some out) :
    Encodes r ops (fun db id => ReadsNode db id n) out := by
  unfold RocksStorage.encodeNamedNode at hok
  unfold ReadsNode
  cases hv : Vocab.encodeIri n with
  | some v =>
    rw [hv] at hok
    cases hok
    exact ⟨v, ops, rfl, h, rfl, fun _ _ hi => hi⟩
  | none =>
    rw [hv] at hok
    exact h.intern (.iri n) (fun _ => rfl) (fun _ _ _ hst => by cases hst) hok

theorem Sound.encodeBlankNode {b : String} (h : Sound r ops) (hok : r.encodeBlankNode hash128 X b ops = some out) :
    Encodes r ops (fun db id => db.id2str id = some (.blank b)) out :=
  h.intern (.blank b) (fun _ => rfl) (fun _ _ _ hst => by cases hst) hok

theorem Sound.encodeSubject {s : NamedOrBlankNode} (h : Sound r ops) (hok : r.encodeSubject hash128 X ops s = some out) :
    Encodes r ops (fun db id => ReadsSubject db id s) out := by
  cases s with
  | namedNode n => exact h.encodeNamedNode hok
  | blankNode b => exact h.encodeBlankNode hok

/-- An id that stands for a term was issued, if it is of a triple term. -/
theorem Reads.below (hX : X.Lawful) {id : TermId} {t : Term} (h : Rows next db) (ht : Reads X db id t) (htag : id.tag = .tripleTerm) :
    id.payload < next .tripleTerm := by
  have hrow : ∀ st, db.id2str id = some st → id.payload < next .tripleTerm := by
    intro st hst
    rw [← htag]
    exact (h.tag id st hst).2
  cases t with
  | namedNode n =>
    unfold Reads ReadsNode at ht
    split at ht
    · rename_i v hv
      rw [ht, (Vocab.decodeIri_encodeIri hv).1] at htag
      cases htag
    · exact hrow _ ht
  | blankNode b => exact hrow _ ht
  | literal l =>
    unfold Reads at ht
    split at ht
    · rename_i v hv
      have hinline := (Inline.decode_encodeLiteral X hX hv).1
      rw [← ht, htag] at hinline
      cases hinline
    · exact hrow _ ht
  | triple subject predicate object =>
    obtain ⟨s, p, o, -, -, -, hst⟩ := ht
    exact hrow _ hst

/-- One interning after another. -/
theorem Encodes.andThen {P Q : Db → TermId → Prop} {x : Option (Except StorageError (TermId × List Pending) × RocksStorage)}
    {f : TermId × List Pending → RocksStorage → Option (Except StorageError (TermId × List Pending) × RocksStorage)}
    (hx : ∀ out, x = some out → Encodes r ops P out)
    (hf : ∀ id ops₁ r₁ out, Sound r₁ ops₁ → P (r₁.applied.write ops₁) id → f (id, ops₁) r₁ = some out → Encodes r₁ ops₁ Q out)
    (hok : RocksStorage.andThen x f = some out) : Encodes r ops Q out := by
  unfold RocksStorage.andThen at hok
  split at hok
  · cases hok
  · obtain ⟨id, ops₁, he, -⟩ := hx _ rfl
    cases he
  · rename_i a r₁
    obtain ⟨id, ops₁, he, hsound, hP, hgrown⟩ := hx _ rfl
    cases he
    obtain ⟨id', ops', he', hsound', hQ, hgrown'⟩ := hf _ _ _ _ hsound hP hok
    exact ⟨id', ops', he', hsound', hQ, fun i st hi => hgrown' i st (hgrown i st hi)⟩

/-- A term is interned under an id that stands for it. -/
theorem Sound.encodeInto (hX : X.Lawful) {t : Term} (h : Sound r ops) (hok : r.encodeInto hash128 X ops t = some out) :
    Encodes r ops (fun db id => Reads X db id t) out := by
  induction t generalizing r ops out with
  | namedNode n => exact h.encodeNamedNode hok
  | blankNode b => exact h.encodeBlankNode hok
  | literal l =>
    unfold RocksStorage.encodeInto at hok
    unfold Reads
    cases hv : Inline.encodeLiteral X l with
    | some v =>
      rw [hv] at hok
      cases hok
      exact ⟨v, ops, rfl, h, rfl, fun _ _ hi => hi⟩
    | none =>
      rw [hv] at hok
      exact h.intern (.literal l) (fun _ => rfl) (fun _ _ _ hst => by cases hst) hok
  | triple subject predicate object ih =>
    unfold RocksStorage.encodeInto at hok
    refine Encodes.andThen (fun _ hs => h.encodeSubject hs) (fun s ops₁ r₁ _ h₁ hs hok => ?_) hok
    have hp : ∀ out, r₁.encodeNamedNode hash128 X predicate ops₁ = some out →
        Encodes r₁ ops₁ (fun db p => ReadsSubject db s subject ∧ ReadsNode db p predicate) out := by
      intro out hp
      obtain ⟨p, ops₂, he, h₂, hread, hgrown⟩ := h₁.encodeNamedNode hp
      exact ⟨p, ops₂, he, h₂, ⟨hs.mono hgrown, hread⟩, hgrown⟩
    refine Encodes.andThen hp (fun p ops₂ r₂ _ h₂ hsp hok => ?_) hok
    have ho : ∀ out, r₂.encodeInto hash128 X ops₂ object = some out →
        Encodes r₂ ops₂ (fun db o => ReadsSubject db s subject ∧ ReadsNode db p predicate ∧ Reads X db o object) out := by
      intro out ho
      obtain ⟨o, ops₃, he, h₃, hread, hgrown⟩ := ih h₂ ho
      exact ⟨o, ops₃, he, h₃, ⟨hsp.1.mono hgrown, hsp.2.mono hgrown, hread⟩, hgrown⟩
    refine Encodes.andThen ho (fun o ops₃ r₃ _ h₃ hspo hok => ?_) hok
    -- the object is interned by now, so it comes before the triple term
    obtain ⟨id, ops₄, he, h₄, hrow, hgrown⟩ := h₃.intern (.triple s p o)
      (fun hsize => absurd (triple_exact s p o) hsize)
      (fun _ _ _ hst htag => by cases hst; exact hspo.2.2.below hX h₃.applied htag) hok
    exact ⟨id, ops₄, he, h₄, ⟨s, p, o, hspo.1.mono hgrown, hspo.2.1.mono hgrown, hspo.2.2.mono hgrown, hrow⟩, hgrown⟩

/-- The rows gathered are handed over. -/
theorem Sound.commitOps {res : Except StorageError Unit} (h : Sound r ops) (hok : r.commitOps ops = (res, r')) :
    Sound r' [] ∧ r'.applied = r.applied.write ops := by
  obtain ⟨hland, -, -, -, hnext⟩ := commitOps_landed hok
  have happlied := hland.applied
  refine ⟨?_, happlied⟩
  cases hs : r.scope with
  | none =>
    obtain ⟨h₁, h₂⟩ := hland.none hs
    have hdb : r'.db = r.applied.write ops := by
      rw [h₂]
      simp only [RocksStorage.applied, hs]
    refine ⟨by rw [hdb, hnext]; exact h.applied, by rw [happlied, hnext]; exact h.applied, ?_, ?_, ?_, ?_⟩
    · intro id st hid
      rw [happlied, ← hdb]
      exact hid
    all_goals
      intro s hs'
      rw [h₁] at hs'
      cases hs'
  | some s =>
    obtain ⟨h₁, h₂⟩ := hland.some s hs
    refine ⟨by rw [h₁, hnext]; exact h.db, by rw [happlied, hnext]; exact h.applied, ?_, ?_, ?_, ?_⟩
    · intro id st hid
      rw [happlied]
      exact h.grown id st (h₁ ▸ hid)
    all_goals
      intro s' hs'
      rw [h₂] at hs'
      cases hs'
      rw [happlied]
    · exact h.terms s hs
    · exact h.strings s hs
    · exact h.candidates s hs

/-- Every encode keeps the invariant, also one that is refused, and its id stands for the
term. -/
theorem Sound.encode (hX : X.Lawful) {t : Term} {out : Except StorageError TermId × RocksStorage} (h : Sound r [])
    (hok : r.encode hash128 X t = some out) :
    Sound out.2 [] ∧ (∀ id, out.1 = .ok id → Reads X out.2.applied id t) ∧
      ∀ i st, r.applied.id2str i = some st → out.2.applied.id2str i = some st := by
  unfold RocksStorage.encode RocksStorage.andThen at hok
  split at hok
  · cases hok
  · rename_i e r₁ he
    obtain ⟨id, ops', hout, -⟩ := h.encodeInto hX he
    cases hout
  · rename_i x r₁ he
    obtain ⟨id, ops', hout, hsound, hread, hgrown⟩ := h.encodeInto hX he
    cases hout
    simp only at hok hsound hread
    split at hok
    · rename_i r₂ hcommit
      cases hok
      obtain ⟨hsound', happlied⟩ := hsound.commitOps hcommit
      simp only [happlied]
      exact ⟨hsound', fun _ hid => by cases hid; exact hread, hgrown⟩
    · rename_i e r₂ hcommit
      cases hok
      obtain ⟨hsound', happlied⟩ := hsound.commitOps hcommit
      simp only [happlied]
      exact ⟨hsound', fun _ hid => (by cases hid), hgrown⟩

/-! ### Writes -/

/-- What a write does to the dictionary, whatever it answered: none of its rows are there. -/
def Off (r r' : RocksStorage) : Prop := LandedOff r r' ∧ r'.next = r.next

theorem Off.refl (r : RocksStorage) : Off r r := ⟨.refl r, rfl⟩

theorem Off.trans {r'' : RocksStorage} (h : Off r r') (h' : Off r' r'') : Off r r'' := ⟨h.1.trans h'.1, h'.2.trans h.2⟩

theorem Off.noteQuad (h : Off r r') (q : EncodedQuad) (present b : Bool) : Off r (r'.noteQuad q present b) := by
  obtain ⟨⟨ops, f, g, hland, hops⟩, hnext⟩ := h
  exact ⟨⟨ops, _, g, hland.noteQuad q present b, hops⟩, hnext⟩

theorem Off.noteGraph (h : Off r r') (g : TermId) (present : Bool) : Off r (r'.noteGraph g present) := by
  obtain ⟨⟨ops, f, f', hland, hops⟩, hnext⟩ := h
  exact ⟨⟨ops, f, _, hland.noteGraph g present, hops⟩, hnext⟩

theorem Off.commitOps {r₁ : RocksStorage} {res : Except StorageError Unit} (hcommit : r₁.commitOps ops = (res, r'))
    (hops : ∀ op ∈ ops, offDictionary op = true) (hdb : r₁.db = r.db) (hscope : r₁.scope = r.scope) (hnext : r₁.next = r.next) :
    Off r r' := by
  obtain ⟨hland, -, -, -, hnext'⟩ := commitOps_landed hcommit
  refine ⟨⟨ops, id, id, ⟨fun hs => ?_, fun s hs => ?_⟩, hops⟩, hnext'.trans hnext⟩
  · rw [← hdb]
    exact hland.none (hscope.trans hs)
  · rw [← hdb]
    exact hland.some s (hscope.trans hs)

theorem insertEncoded_off (r : RocksStorage) (q : EncodedQuad) : Off r (r.insertEncoded q).2 := by
  unfold insertEncoded
  split
  · exact .refl r
  · have hops : ∀ n m k, ∀ op ∈ putRows q ++ [Pending.putDefault .quads n, .putDefault .generation m, .putStats q.predicate k],
        offDictionary op = true := by
      intro n m k op hop
      rcases List.mem_append.1 hop with hop | hop
      · exact putRows_off q op hop
      · simp only [List.mem_cons, List.not_mem_nil, or_false] at hop
        rcases hop with rfl | rfl | rfl <;> rfl
    simp only
    split
    · rename_i e r₂ hcommit
      exact .commitOps hcommit (hops _ _ _) rfl rfl rfl
    · rename_i r₂ hcommit
      have hoff : Off r r₂ := .commitOps hcommit (hops _ _ _) rfl rfl rfl
      cases q.graphName with
      | none => exact hoff.noteQuad q true false
      | some g => exact (hoff.noteQuad q true false).noteGraph g true

theorem removeEncoded_off (r : RocksStorage) (q : EncodedQuad) : Off r (r.removeEncoded q).2 := by
  unfold removeEncoded
  split
  · have hops : ∀ n m, ∀ op ∈ deleteRows q ++ [Pending.putDefault .quads n, .putDefault .generation m] ++
        statsRow r.predicateCounts q.predicate, offDictionary op = true := by
      intro n m op hop
      rcases List.mem_append.1 hop with hop | hop
      · rcases List.mem_append.1 hop with hop | hop
        · exact deleteRows_off q op hop
        · simp only [List.mem_cons, List.not_mem_nil, or_false] at hop
          rcases hop with rfl | rfl <;> rfl
      · exact (statsRow_off _ _ op hop).2
    simp only
    split
    · rename_i e r₂ hcommit
      exact .commitOps hcommit (hops _ _) rfl rfl rfl
    · rename_i r₂ hcommit
      have hoff : Off r r₂ := .commitOps hcommit (hops _ _) rfl rfl rfl
      exact hoff.noteQuad q false true
  · exact .refl r

theorem removeEach_off (r : RocksStorage) (l : List EncodedQuad) : Off r (r.removeEach l).2 := by
  induction l generalizing r with
  | nil => exact .refl r
  | cons q l ih =>
    have hq := removeEncoded_off r q
    unfold removeEach
    split
    · rename_i e r₂ hremove
      rw [hremove] at hq
      exact hq
    · rename_i b r₂ hremove
      rw [hremove] at hq
      exact hq.trans (ih r₂)

theorem insertNamedGraph_off (r : RocksStorage) (g : TermId) : Off r (r.insertNamedGraph g).2 := by
  unfold insertNamedGraph
  split
  · exact .refl r
  · split
    · rename_i e r₂ hcommit
      exact .commitOps hcommit (by simp [offDictionary]) rfl rfl rfl
    · rename_i r₂ hcommit
      exact (Off.commitOps hcommit (by simp [offDictionary]) rfl rfl rfl).noteGraph g true

theorem removeNamedGraph_off (r : RocksStorage) (g : TermId) : Off r (r.removeNamedGraph g).2 := by
  have heach := removeEach_off r (r.scan none none none (.named g))
  unfold removeNamedGraph
  simp only
  split
  · rename_i e r₂ hr
    rw [hr] at heach
    exact heach
  · rename_i r₂ hr
    rw [hr] at heach
    split
    · split
      · rename_i e r₃ hcommit
        exact heach.trans (.commitOps hcommit (by simp [offDictionary]) rfl rfl rfl)
      · rename_i r₃ hcommit
        exact heach.trans ((Off.commitOps hcommit (by simp [offDictionary]) rfl rfl rfl).noteGraph g false)
    · exact heach

theorem write_off (r : RocksStorage) (op : Index.Op) : Off r (r.write op).2 := by
  cases op with
  | insert q => exact insertEncoded_off r q
  | remove q => exact removeEncoded_off r q
  | insertNamedGraph g => exact insertNamedGraph_off r g
  | removeNamedGraph g => exact removeNamedGraph_off r g

/-- The dictionary families a write leaves, in the database and in what a commit would leave. -/
theorem Off.families (h : Off r r') : r'.db.id2str = r.db.id2str ∧ r'.db.str2id = r.db.str2id ∧
    r'.applied.id2str = r.applied.id2str ∧ r'.applied.str2id = r.applied.str2id := by
  obtain ⟨⟨ops, f, g, hland, hops⟩, -⟩ := h
  have happlied := write_offDictionary r.applied hops
  rw [← hland.applied] at happlied
  refine ⟨?_, ?_, happlied⟩
  all_goals
    cases hs : r.scope with
    | none => rw [(hland.none hs).2]; simp only [(write_offDictionary r.db hops).1, (write_offDictionary r.db hops).2]
    | some s => rw [(hland.some s hs).1]

/-- The invariant looks at the dictionary families and the maps of the scope. -/
theorem Sound.congr (h : Sound r []) (hnext : r'.next = r.next)
    (hfamilies : r'.db.id2str = r.db.id2str ∧ r'.db.str2id = r.db.str2id ∧
      r'.applied.id2str = r.applied.id2str ∧ r'.applied.str2id = r.applied.str2id)
    (hmaps : ∀ s', r'.scope = some s' → ∃ s, r.scope = some s ∧ s'.terms = s.terms ∧ s'.strings = s.strings ∧
      s'.candidates = s.candidates) : Sound r' [] := by
  obtain ⟨h₁, h₂, h₃, h₄⟩ := hfamilies
  have hrow : ∀ id st, r.applied.id2str id = some st → r'.applied.id2str id = some st := fun id st hid => by rw [h₃]; exact hid
  refine ⟨by rw [hnext]; exact h.db.congr h₁ h₂, by rw [hnext]; exact h.applied.congr h₃ h₄, fun id st hid => ?_, ?_, ?_, ?_⟩
  · rw [h₁] at hid
    exact hrow _ _ (h.grown id st hid)
  all_goals
    intro s' hs'
    obtain ⟨s, hs, hterms, hstrings, hcandidates⟩ := hmaps s' hs'
  · intro st id hid
    exact hrow _ _ (h.terms s hs st id (hterms ▸ hid))
  · intro id st hid
    exact hrow _ _ (h.strings s hs id st (hstrings ▸ hid))
  · intro d ids hc i hi
    obtain ⟨st, hst, hlong⟩ := h.candidates s hs d ids (hcandidates ▸ hc) i hi
    exact ⟨st, hrow _ _ hst, hlong⟩

theorem Sound.off (h : Sound r []) (hoff : Off r r') : Sound r' [] := by
  refine h.congr hoff.2 hoff.families (fun s' hs' => ?_)
  obtain ⟨⟨ops, f, g, hland, -⟩, -⟩ := hoff
  cases hs : r.scope with
  | none =>
    rw [(hland.none hs).1] at hs'
    cases hs'
  | some s =>
    rw [(hland.some s hs).2] at hs'
    cases hs'
    exact ⟨s, rfl, rfl, rfl, rfl⟩

/-! ### Steps -/

/-- Without a scope the invariant is of the database alone. -/
theorem Rows.sound (h : Rows r.next r.db) (hs : r.scope = none) : Sound r [] := by
  have happlied : r.applied = r.db := by simp only [applied, hs]
  refine ⟨h, by rw [happlied]; exact h, fun id st hid => by rw [happlied]; exact hid, ?_, ?_, ?_⟩
  all_goals
    intro s hs'
    rw [hs] at hs'
    cases hs'

theorem Sound.begin (h : Sound r []) (hok : r.begin = .ok r') : Sound r' [] := by
  unfold RocksStorage.begin at hok
  split_ifs at hok with hs
  cases hok
  have happlied : r.applied = r.db := by simp only [RocksStorage.applied, Option.not_isSome_iff_eq_none.1 hs]
  refine ⟨h.db, h.db, fun _ _ hid => hid, ?_, ?_, ?_⟩
  all_goals
    intro s hs'
    cases hs'
  · intro st id hid
    cases hid
  · intro id st hid
    cases hid
  · intro d ids hc
    cases hc

theorem Sound.commit (h : Sound r []) (hok : r.commit = .ok r') : Sound r' [] := by
  unfold RocksStorage.commit at hok
  split at hok
  · cases hok
  · rename_i s hs
    cases hok
    refine Rows.sound ?_ rfl
    have happlied := h.applied
    simp only [RocksStorage.applied, hs] at happlied
    exact happlied

theorem Sound.rollback (h : Sound r []) : Sound r.rollback [] := by
  unfold RocksStorage.rollback
  split
  · exact h
  · exact Rows.sound h.db rfl

theorem Sound.step (hX : X.Lawful) {op : Storage.Op} {reply : Storage.Reply} (h : Sound r [])
    (hstep : r.step hash128 X op = some (reply, r')) : Sound r' [] := by
  cases op with
  | encode t =>
    obtain ⟨out, he, heq⟩ := Option.map_eq_some_iff.1 hstep
    cases heq
    exact (h.encode hX he).1
  | write op =>
    cases hstep
    exact h.off (write_off r op)
  | begin =>
    simp only [RocksStorage.step] at hstep
    split at hstep
    · rename_i r₁ hb
      cases hstep
      exact h.begin hb
    · cases hstep
      exact h
  | commit =>
    simp only [RocksStorage.step] at hstep
    split at hstep
    · rename_i r₁ hc
      cases hstep
      exact h.commit hc
    · cases hstep
      exact h
  | rollback =>
    cases hstep
    exact h.rollback

end RocksStorage

end Holos
