import Holos.Store.BulkTheorems
import Holos.Store.RocksRows
/-!
# Ids of a bulk load

A term of a load is known to the cache, to the window being filled, to the window in flight or
to the database. `Kept` ties the four together: a term of either window is in the cache, because
a settled window trims only what was there when it was handed over, and the counters tell. So a
term that is not in the cache is in the database or new, and the filter only spares the read.

It holds at every step, whenever a window in flight is found to have finished, and what the
windows and the database hold together only grows.
-/

namespace Holos

open Lib
open RocksStorage (offDictionary Rows Mints Next bump le_bump find findNode findSubject findTerm ReadsNode ReadsSubject Reads)

/-! ## Files -/

theorem DictRuns.merge_push {κ ν : Type} [DecidableEq κ] (combine : κ → ν → ν → ν) (runs : DictRuns κ ν) (budget cost : Nat)
    (key : κ) (value : ν) :
    ∃ v, (runs.push budget cost key value).merge combine = Function.update (runs.merge combine) key (some v) ∧
      (v = value ∨ ∃ first, runs.merge combine key = some first ∧ v = combine key first value) := by
  have hrows : (runs.push budget cost key value).rows = runs.rows ++ [(key, value)] := by
    unfold push
    simp only
    split <;> rfl
  unfold merge
  rw [hrows, List.foldl_append]
  refine ⟨_, rfl, ?_⟩
  split
  · rename_i first hfirst
    exact .inr ⟨first, hfirst, rfl⟩
  · exact .inl rfl

theorem mem_combine_hashed {d : Hash} {first second : List TermId} {i : TermId} (h : i ∈ combine (.hashed d) first second) :
    i ∈ first ∨ i ∈ second := by
  simp only [combine] at h
  induction second generalizing first with
  | nil => exact .inl h
  | cons id second ih =>
    rw [List.foldl_cons] at h
    rcases ih h with hi | hi
    · split_ifs at hi
      · exact .inl hi
      · rcases List.mem_append.1 hi with hi | hi
        · exact .inl hi
        · exact .inr (List.mem_cons.2 (.inl (List.mem_singleton.1 hi)))
    · exact .inr (List.mem_cons_of_mem _ hi)

namespace DictBuffers

theorem id2strFile_push (d : DictBuffers) (id : TermId) (st : StoredTerm) :
    (d.pushId2str id st).id2strFile = Function.update d.id2strFile id (some st) := by
  obtain ⟨v, hmerge, hv⟩ := DictRuns.merge_push (fun _ _ second => second) d.id2str d.budget (8 + st.size + 8) id st
  rcases hv with rfl | ⟨first, -, rfl⟩ <;> exact hmerge

theorem str2idFile_push_exact (d : DictBuffers) (st : StoredTerm) (ids : List TermId) :
    (d.pushStr2id (.exact st) ids).str2idFile = Function.update d.str2idFile (.exact st) (some ids) := by
  obtain ⟨v, hmerge, hv⟩ := DictRuns.merge_push combine d.str2id d.budget ((DictKey.exact st).size + 8 * ids.length + 8)
    (.exact st) ids
  rcases hv with rfl | ⟨first, -, rfl⟩ <;> exact hmerge

theorem str2idFile_push_hashed (d : DictBuffers) (digest : Hash) (ids : List TermId) :
    ∃ list, (d.pushStr2id (.hashed digest) ids).str2idFile = Function.update d.str2idFile (.hashed digest) (some list) ∧
      ∀ i ∈ list, i ∈ ids ∨ ∃ old, d.str2idFile (.hashed digest) = some old ∧ i ∈ old := by
  obtain ⟨v, hmerge, hv⟩ := DictRuns.merge_push combine d.str2id d.budget
    ((DictKey.hashed digest).size + 8 * ids.length + 8) (.hashed digest) ids
  refine ⟨v, hmerge, fun i hi => ?_⟩
  rcases hv with rfl | ⟨old, hold, rfl⟩
  · exact .inl hi
  · rcases mem_combine_hashed hi with hi | hi
    · exact .inr ⟨old, hold, hi⟩
    · exact .inl hi

end DictBuffers

/-! ## Families that grow -/

/-- Databases with the same dictionary families. -/
def SameFamilies (db db' : Db) : Prop := db'.id2str = db.id2str ∧ db'.str2id = db.str2id

/-- No row is lost, and no exact key is led to another id. -/
structure Grows (db db' : Db) : Prop where
  rows : ∀ id st, db.id2str id = some st → db'.id2str id = some st
  exact : ∀ st ids, db.str2id (.exact st) = some ids → db'.str2id (.exact st) = some ids

theorem Grows.refl (db : Db) : Grows db db := ⟨fun _ _ h => h, fun _ _ h => h⟩

theorem Grows.trans {db db' db'' : Db} (h : Grows db db') (h' : Grows db' db'') : Grows db db'' :=
  ⟨fun id st hid => h'.rows id st (h.rows id st hid), fun st ids hkey => h'.exact st ids (h.exact st ids hkey)⟩

theorem SameFamilies.grows {db db' : Db} (h : SameFamilies db db') : Grows db db' :=
  ⟨fun id st hid => by rw [h.1]; exact hid, fun st ids hkey => by rw [h.2]; exact hkey⟩

theorem SameFamilies.trans {db db' db'' : Db} (h : SameFamilies db db') (h' : SameFamilies db' db'') : SameFamilies db db'' :=
  ⟨h'.1.trans h.1, h'.2.trans h.2⟩

theorem SameFamilies.ingest {db db' : Db} (h : SameFamilies db db') (d : DictBuffers) : SameFamilies (db.ingest d) (db'.ingest d) := by
  unfold SameFamilies Db.ingest
  rw [h.1, h.2]
  exact ⟨rfl, rfl⟩

theorem sameFamilies_new (db : Db) (budget : Nat) : SameFamilies db (db.ingest (.new budget)) := ⟨rfl, rfl⟩

/-- The serialised forms of a term and of its parts are their own keys. -/
def Term.Fits : Term → Prop
  | .namedNode n => (StoredTerm.iri n).size ≤ inlineKeyMax
  | .blankNode b => (StoredTerm.blank b).size ≤ inlineKeyMax
  | .literal l => (StoredTerm.literal l).size ≤ inlineKeyMax
  | .triple subject predicate object =>
    (match subject with
      | .namedNode n => (StoredTerm.iri n).size ≤ inlineKeyMax
      | .blankNode b => (StoredTerm.blank b).size ≤ inlineKeyMax) ∧
    (StoredTerm.iri predicate).size ≤ inlineKeyMax ∧ object.Fits

section
variable {hash128 : StoredTerm → Hash} {X : Inline.Datatypes} {db db' : Db}

theorem Grows.find {st : StoredTerm} {id : TermId} (h : Grows db db') (hst : st.size ≤ inlineKeyMax)
    (hf : find hash128 db st = some id) : find hash128 db' st = some id := by
  unfold RocksStorage.find at hf ⊢
  rw [if_pos hst] at hf ⊢
  obtain ⟨ids, hkey, hhead⟩ := Option.bind_eq_some_iff.1 hf
  rw [h.exact st ids hkey, Option.bind_some, hhead]

theorem Grows.findNode {n : NamedNode} {id : TermId} (h : Grows db db') (hn : (StoredTerm.iri n).size ≤ inlineKeyMax)
    (hf : findNode hash128 db n = some id) : findNode hash128 db' n = some id := by
  unfold RocksStorage.findNode at hf ⊢
  cases hv : Vocab.encodeIri n with
  | some v =>
    rw [hv] at hf
    exact hf
  | none =>
    rw [hv] at hf
    exact h.find hn hf

theorem Grows.findTerm {t : Term} {id : TermId} (h : Grows db db') (ht : t.Fits) (hf : findTerm hash128 X db t = some id) :
    findTerm hash128 X db' t = some id := by
  induction t generalizing id with
  | namedNode n => exact h.findNode ht hf
  | blankNode b => exact h.find ht hf
  | literal l =>
    unfold RocksStorage.findTerm at hf ⊢
    cases hv : Inline.encodeLiteral X l with
    | some v =>
      rw [hv] at hf
      exact hf
    | none =>
      rw [hv] at hf
      exact h.find ht hf
  | triple subject predicate object ih =>
    unfold RocksStorage.findTerm at hf ⊢
    obtain ⟨hsub, hpred, hobj⟩ := ht
    obtain ⟨s, hs, hf⟩ := Option.bind_eq_some_iff.1 hf
    obtain ⟨p, hp, hf⟩ := Option.bind_eq_some_iff.1 hf
    obtain ⟨o, ho, hf⟩ := Option.bind_eq_some_iff.1 hf
    have hs' : findSubject hash128 db' subject = some s := by
      cases subject with
      | namedNode n => exact h.findNode hsub hs
      | blankNode b => exact h.find hsub hs
    rw [hs', h.findNode hpred hp, ih hobj ho]
    exact h.find (RocksStorage.triple_exact s p o) hf

end

namespace Load

variable {config : Config} {finished : Nat → Bool} {fx : StoredTerm → UInt64} {hash128 : StoredTerm → Hash}
  {X : Inline.Datatypes} {l l' : Load}

/-! ## Where a term may be -/

/-- The database once the window in flight is settled. -/
def mid (l : Load) : Db :=
  match l.state.dictFlush with
  | none => l.storage.db
  | some flush => l.storage.db.ingest flush.dict

/-- What a gathered row does to the window. -/
def gather (dict : DictBuffers) : Pending → DictBuffers
  | .putStr2id key ids => dict.pushStr2id key ids
  | .putId2str id st => dict.pushId2str id st
  | _ => dict

/-- The window being filled, with the rows gathered in it. -/
def window (l : Load) (ops : List Pending) : DictBuffers := ops.foldl gather l.state.dict

/-- The terms of a window are cached. -/
structure Backed (terms : List (StoredTerm × Cached)) (dict : DictBuffers) : Prop where
  rows : ∀ id st, dict.id2strFile id = some st → ∃ c, (st, c) ∈ terms ∧ c.id = id
  keys : ∀ st ids, dict.str2idFile (.exact st) = some ids → ∃ id, dict.id2strFile id = some st

/-- The invariant of a load, with the window being filled apart. -/
structure Kept (fx : StoredTerm → UInt64) (l : Load) (dict : DictBuffers) : Prop where
  scope : l.storage.scope = none
  pending : ∀ op ∈ l.state.pending, offDictionary op = true
  db : Rows l.storage.next l.storage.db
  mid : Rows l.storage.next l.mid
  whole : Rows l.storage.next (l.mid.ingest dict)
  settles : Grows l.storage.db l.mid
  fills : Grows l.mid (l.mid.ingest dict)
  terms : ∀ st c, (st, c) ∈ l.state.terms → (l.mid.ingest dict).id2str c.id = some st ∧
    (st.size ≤ inlineKeyMax → (l.mid.ingest dict).str2id (.exact st) = some [c.id])
  unique : ∀ st c c', (st, c) ∈ l.state.terms → (st, c') ∈ l.state.terms → c = c'
  flight : ∀ flush, l.state.dictFlush = some flush → Backed l.state.terms flush.dict
  window : Backed l.state.terms dict
  since : ∀ flush, l.state.dictFlush = some flush → ∀ id st, dict.id2strFile id = some st → flush.next id.tag ≤ id.payload
  handed : ∀ flush, l.state.dictFlush = some flush → ∀ tag, flush.next tag ≤ l.storage.next tag
  seen : ∀ seen, l.state.seen = some seen → ∀ id st, (l.mid.ingest dict).id2str id = some st → seen.mayContain (fx st) = true

theorem cached_mem {st : StoredTerm} {c : Cached} (h : l.cached st = some c) : (st, c) ∈ l.state.terms := by
  unfold cached at h
  generalize l.state.terms = terms at h
  induction terms with
  | nil => cases h
  | cons e terms ih =>
    rw [List.lookup_cons] at h
    split at h
    · rename_i he
      cases h
      have : st = e.1 := by simpa using he
      subst this
      exact List.mem_cons_self
    · exact List.mem_cons_of_mem _ (ih h)

theorem not_cached {st : StoredTerm} (h : l.cached st = none) : ∀ c, (st, c) ∉ l.state.terms := by
  unfold cached at h
  intro c hc
  have := List.lookup_eq_none_iff.1 h (st, c) hc
  simp at this

/-- A term that is not cached is in no window, so its key is the database's. -/
theorem Kept.key_of_not_cached {dict : DictBuffers} {st : StoredTerm} (h : Kept fx l dict) (hc : l.cached st = none) :
    (l.mid.ingest dict).str2id (.exact st) = l.storage.db.str2id (.exact st) := by
  have hout : ∀ d : DictBuffers, Backed l.state.terms d → d.str2idFile (.exact st) = none := by
    intro d hd
    cases hkey : d.str2idFile (.exact st) with
    | none => rfl
    | some ids =>
      obtain ⟨id, hid⟩ := hd.keys st ids hkey
      obtain ⟨c, hmem, -⟩ := hd.rows id st hid
      exact absurd hmem (not_cached hc c)
  have hmid : l.mid.str2id (.exact st) = l.storage.db.str2id (.exact st) := by
    unfold Load.mid
    cases hf : l.state.dictFlush with
    | none => rfl
    | some flush => simp only [Db.ingest, hout _ (h.flight flush hf), Option.none_or]
  rw [← hmid]
  simp only [Db.ingest, hout _ h.window, Option.none_or]

/-! ## The filter -/

theorem probes_insert (s : Seen) (a b : UInt64) : (s.insert a).probes b = s.probes b := rfl

theorem mayContain_insert (s : Seen) (a : UInt64) : (s.insert a).mayContain a = true := by
  unfold Seen.mayContain
  rw [probes_insert, List.all_eq_true]
  intro bit hbit
  simp [Seen.insert, hbit]

theorem mayContain_mono {s : Seen} {a b : UInt64} (h : s.mayContain b = true) : (s.insert a).mayContain b = true := by
  unfold Seen.mayContain at h ⊢
  rw [probes_insert, List.all_eq_true]
  rw [List.all_eq_true] at h
  intro bit hbit
  simp [Seen.insert, h bit hbit]

/-! ## Settling and handing over -/

theorem mem_trim {next : Tag → Nat} {terms : List (StoredTerm × Cached)} {st : StoredTerm} {c : Cached}
    (h : (st, c) ∈ trim next terms) : ∃ c', (st, c') ∈ terms ∧ c = { c' with first := Cached.notUsed } := by
  unfold trim at h
  simp only at h
  obtain ⟨e, he, heq⟩ := List.mem_map.1 h
  cases heq
  exact ⟨e.2, (List.mem_filter.1 he).1, rfl⟩

/-- Trimming keeps what was allocated since the window was handed over. -/
theorem trim_since {next : Tag → Nat} {terms : List (StoredTerm × Cached)} {st : StoredTerm} {c : Cached}
    (h : (st, c) ∈ terms) (hsince : next c.id.tag ≤ c.id.payload) : (st, { c with first := Cached.notUsed }) ∈ trim next terms := by
  unfold trim
  simp only
  refine List.mem_map.2 ⟨(st, c), List.mem_filter.2 ⟨h, ?_⟩, rfl⟩
  simp [sinceFlush, hsince]

/-- What the load knows: the database and both windows. -/
def known (l : Load) : Db := l.mid.ingest l.state.dict

theorem Kept.settle (h : Kept fx l l.state.dict) (wait : Bool) :
    Kept fx (l.settleDictionary finished wait) (l.settleDictionary finished wait).state.dict ∧
      SameFamilies l.known (l.settleDictionary finished wait).known ∧
      (wait = true → (l.settleDictionary finished wait).state.dictFlush = none) := by
  unfold settleDictionary
  cases hf : l.state.dictFlush with
  | none => exact ⟨h, ⟨rfl, rfl⟩, fun _ => hf⟩
  | some flush =>
    simp only
    split
    · rename_i hpoll
      refine ⟨⟨h.scope, h.pending, h.db, h.mid, h.whole, h.settles, h.fills, h.terms, h.unique, h.flight, h.window, h.since, h.handed,
        h.seen⟩, ⟨rfl, rfl⟩, fun hw => ?_⟩
      rw [hw] at hpoll
      cases hpoll
    · -- the window in flight becomes part of the database
      have hmid : l.mid = l.storage.db.ingest flush.dict := by
        unfold Load.mid
        rw [hf]
      have hterms : ∀ st c, (st, c) ∈ trim flush.next l.state.terms → ∃ c', (st, c') ∈ l.state.terms ∧ c.id = c'.id := by
        intro st c hc
        obtain ⟨c', hc', rfl⟩ := mem_trim hc
        exact ⟨c', hc', rfl⟩
      have hwindow : Backed (trim flush.next l.state.terms) l.state.dict := by
        refine ⟨fun id st hid => ?_, h.window.keys⟩
        obtain ⟨c, hc, hcid⟩ := h.window.rows id st hid
        exact ⟨_, trim_since hc (by rw [hcid]; exact h.since flush hf id st hid), hcid⟩
      refine ⟨⟨h.scope, h.pending, ?_, ?_, ?_, .refl _, ?_, ?_, ?_, fun _ hn => (by cases hn), hwindow, fun _ hn => (by cases hn),
        fun _ hn => (by cases hn), ?_⟩, ?_, fun _ => rfl⟩
      · exact hmid ▸ h.mid
      · exact hmid ▸ h.mid
      · exact hmid ▸ h.whole
      · exact hmid ▸ h.fills
      · intro st c hc
        obtain ⟨c', hc', hid⟩ := hterms st c hc
        rw [hid]
        exact hmid ▸ h.terms st c' hc'
      · intro st c c' hc hc'
        obtain ⟨d, hd, rfl⟩ := mem_trim hc
        obtain ⟨d', hd', rfl⟩ := mem_trim hc'
        rw [h.unique st d d' hd hd']
      · exact hmid ▸ h.seen
      · unfold known
        rw [hmid]
        exact ⟨rfl, rfl⟩

theorem Kept.flush (h : Kept fx l l.state.dict) :
    Kept fx (l.flushDictionary config finished) (l.flushDictionary config finished).state.dict ∧
      SameFamilies l.known (l.flushDictionary config finished).known := by
  obtain ⟨hk, hsame, hnone⟩ := @Kept.settle finished fx l h true
  unfold flushDictionary
  generalize l.settleDictionary finished true = l₁ at hk hsame hnone
  have hmid : l₁.mid = l₁.storage.db := by
    unfold Load.mid
    rw [hnone rfl]
  have hw := hk.whole
  have ht := hk.terms
  have hs := hk.seen
  have hg := hk.fills
  unfold known at hsame
  rw [hmid] at hw ht hs hg hsame
  have hnew := sameFamilies_new (l₁.storage.db.ingest l₁.state.dict) config.dictSpillBytes
  refine ⟨⟨hk.scope, hk.pending, hk.db, hw, hw.congr hnew.1 hnew.2, hg, hnew.grows, ?_, hk.unique, ?_,
    ⟨fun _ _ hid => (by cases hid), fun _ _ hkey => (by cases hkey)⟩, fun _ _ _ _ hid => (by cases hid), ?_, ?_⟩, ?_⟩
  · intro st c hc
    exact ht st c hc
  · intro flush hflush
    cases hflush
    exact hk.window
  · intro flush hflush tag
    cases hflush
    exact le_rfl
  · exact hs
  · exact hsame.trans hnew

theorem Kept.writeFull (h : Kept fx l l.state.dict) :
    Kept fx l.writeFull l.writeFull.state.dict ∧ SameFamilies l.known l.writeFull.known := by
  unfold Load.writeFull
  split
  · obtain ⟨h₁, h₂⟩ := RocksStorage.write_offDictionary l.storage.db h.pending
    have hdb : SameFamilies l.storage.db (l.storage.db.write l.state.pending) := ⟨h₁, h₂⟩
    have hmid : SameFamilies l.mid (Load.mid { l with
        storage := { l.storage with db := l.storage.db.write l.state.pending }, state := { l.state with pending := [] } }) := by
      unfold Load.mid
      cases l.state.dictFlush with
      | none => exact hdb
      | some flush => exact hdb.ingest flush.dict
    have hwhole := hmid.ingest l.state.dict
    refine ⟨⟨h.scope, fun _ hop => (by cases hop), h.db.congr h₁ h₂, h.mid.congr hmid.1 hmid.2, h.whole.congr hwhole.1 hwhole.2,
      ⟨fun id st hid => ?_, fun st ids hkey => ?_⟩, ⟨fun id st hid => ?_, fun st ids hkey => ?_⟩, fun st c hc => ?_, h.unique,
      h.flight, h.window, h.since, h.handed, fun seen hs id st hid => ?_⟩, hwhole⟩
    · rw [hmid.1]
      exact h.settles.rows id st (h₁ ▸ hid)
    · rw [hmid.2]
      exact h.settles.exact st ids (h₂ ▸ hkey)
    · rw [hwhole.1]
      exact h.fills.rows id st (hmid.1 ▸ hid)
    · rw [hwhole.2]
      exact h.fills.exact st ids (hmid.2 ▸ hkey)
    · rw [hwhole.1, hwhole.2]
      exact h.terms st c hc
    · exact h.seen seen hs id st (hwhole.1 ▸ hid)
  · exact ⟨h, ⟨rfl, rfl⟩⟩

theorem divert_window (state : BulkState) (ops : List Pending) :
    ops.foldl divert state =
      { state with pending := state.pending ++ ops.filter offDictionary, dict := ops.foldl gather state.dict } := by
  induction ops generalizing state with
  | nil => simp
  | cons op ops ih =>
    rw [List.foldl_cons, ih]
    cases op with
    | putId2str | putStr2id => rfl
    | _ =>
      simp only [divert, List.append_assoc]
      rfl

/-- Handing a group of rows over keeps the invariant and what is known. -/
theorem Kept.commitOps {ops : List Pending} (h : Kept fx l (l.window ops)) :
    Kept fx (l.commitOps config finished ops) (l.commitOps config finished ops).state.dict ∧
      SameFamilies (l.mid.ingest (l.window ops)) (l.commitOps config finished ops).known := by
  unfold Load.commitOps
  rw [divert_window]
  have h₁ : Kept fx { l with state := { l.state with
      pending := l.state.pending ++ ops.filter offDictionary, dict := l.window ops } } (l.window ops) := by
    refine ⟨h.scope, fun op hop => ?_, h.db, h.mid, h.whole, h.settles, h.fills, h.terms, h.unique, h.flight, h.window, h.since,
      h.handed, h.seen⟩
    rcases List.mem_append.1 hop with hop | hop
    · exact h.pending op hop
    · exact (List.mem_filter.1 hop).2
  obtain ⟨h₂, hs₂⟩ := h₁.writeFull
  obtain ⟨h₃, hs₃, -⟩ := @Kept.settle finished fx _ h₂ false
  simp only
  split
  · obtain ⟨h₄, hs₄⟩ := @Kept.flush config finished fx _ h₃
    exact ⟨h₄, hs₂.trans (hs₃.trans hs₄)⟩
  · exact ⟨h₃, hs₂.trans hs₃⟩

/-! ## Encoding -/

variable {ops : List Pending}

theorem mem_remember (l : Load) (st st' : StoredTerm) (c c' : Cached) : (st', c') ∈ (l.remember st c).state.terms ↔
    (st' = st ∧ c' = c) ∨ (st' ≠ st ∧ (st', c') ∈ l.state.terms) := by
  simp only [remember, List.mem_cons, Prod.mk.injEq, List.mem_filter, ne_eq, decide_not, Bool.not_eq_true', decide_eq_false_iff_not]
  tauto

theorem Backed.remember {d : DictBuffers} {st : StoredTerm} {c : Cached} (h : Backed l.state.terms d)
    (hsame : ∀ c', (st, c') ∈ l.state.terms → c'.id = c.id) : Backed (l.remember st c).state.terms d := by
  refine ⟨fun id st' hid => ?_, h.keys⟩
  obtain ⟨c', hc', hcid⟩ := h.rows id st' hid
  by_cases hst : st' = st
  · subst hst
    exact ⟨c, (mem_remember l st' st' c c).2 (.inl ⟨rfl, rfl⟩), by rw [← hsame c' hc', hcid]⟩
  · exact ⟨c', (mem_remember l st st' c c').2 (.inr ⟨hst, hc'⟩), hcid⟩

theorem unique_remember {st : StoredTerm} {c : Cached}
    (h : ∀ st c c', (st, c) ∈ l.state.terms → (st, c') ∈ l.state.terms → c = c') :
    ∀ st' c₁ c₂, (st', c₁) ∈ (l.remember st c).state.terms → (st', c₂) ∈ (l.remember st c).state.terms → c₁ = c₂ := by
  intro st' c₁ c₂ h₁ h₂
  rcases (mem_remember l st st' c c₁).1 h₁ with ⟨hst, hc₁⟩ | ⟨hst, h₁⟩ <;>
    rcases (mem_remember l st st' c c₂).1 h₂ with ⟨hst', hc₂⟩ | ⟨hst', h₂⟩
  · rw [hc₁, hc₂]
  · exact absurd hst hst'
  · exact absurd hst' hst
  · exact h st' c₁ c₂ h₁ h₂

/-- An entry for a term that is known, with the id it is known by. -/
theorem Kept.remember {dict : DictBuffers} {st : StoredTerm} {c : Cached} (h : Kept fx l dict)
    (hrow : (l.mid.ingest dict).id2str c.id = some st)
    (hkey : st.size ≤ inlineKeyMax → (l.mid.ingest dict).str2id (.exact st) = some [c.id])
    (hsame : ∀ c', (st, c') ∈ l.state.terms → c'.id = c.id) : Kept fx (l.remember st c) dict := by
  refine ⟨h.scope, h.pending, h.db, h.mid, h.whole, h.settles, h.fills, fun st' c' hc' => ?_, unique_remember h.unique,
    fun flush hf => (h.flight flush hf).remember hsame, h.window.remember hsame, h.since, h.handed, h.seen⟩
  rcases (mem_remember l st st' c c').1 hc' with ⟨rfl, rfl⟩ | ⟨-, hc'⟩
  · exact ⟨hrow, hkey⟩
  · exact h.terms st' c' hc'

/-- The rows of a new term mint it. -/
theorem Kept.minted (h : Kept fx l (l.window ops)) (st : StoredTerm) (id : TermId) (tag : Tag) (n : Nat) :
    Mints (l.mid.ingest (l.window ops)) (l.mid.ingest (l.window (ops ++ [.putDefault (.next tag) n, .putId2str id st,
      .putStr2id (dictionaryKey hash128 st).1 (listFor hash128 l st id)]))) st id := by
  have hwin : l.window (ops ++ [.putDefault (.next tag) n, .putId2str id st,
      .putStr2id (dictionaryKey hash128 st).1 (listFor hash128 l st id)]) =
      ((l.window ops).pushId2str id st).pushStr2id (dictionaryKey hash128 st).1 (listFor hash128 l st id) := by
    unfold Load.window
    rw [List.foldl_append]
    rfl
  rw [hwin]
  refine ⟨?_, fun st' => ?_, fun d ids hkey i hi => ?_⟩
  · funext i
    change ((((l.window ops).pushId2str id st).id2strFile i).or (l.mid.id2str i)) = _
    rw [DictBuffers.id2strFile_push]
    by_cases hi : i = id
    · subst hi
      rw [Function.update_self, Function.update_self]
      rfl
    · rw [Function.update_of_ne hi, Function.update_of_ne hi]
      rfl
  · by_cases hsize : st.size ≤ inlineKeyMax
    · rw [RocksStorage.dictionaryKey_exact hsize]
      simp only [listFor, if_pos hsize, Db.ingest, DictBuffers.str2idFile_push_exact]
      by_cases hst : st' = st
      · subst hst
        simp [hsize]
      · rw [Function.update_of_ne (by simpa using hst), if_neg (fun hc => hst hc.1)]
        rfl
    · rw [RocksStorage.dictionaryKey_hashed hsize, if_neg (fun hc => hsize hc.2)]
      obtain ⟨list, hlist, -⟩ := ((l.window ops).pushId2str id st).str2idFile_push_hashed (hash128 st) (listFor hash128 l st id)
      simp only [Db.ingest, hlist]
      rw [Function.update_of_ne (by simp)]
      rfl
  · -- a candidate is the new id, or was a row of a long term already
    have hold : ∀ i, (∃ st', l.storage.db.id2str i = some st' ∧ ¬st'.size ≤ inlineKeyMax) →
        ∃ st', (l.mid.ingest (l.window ops)).id2str i = some st' ∧ ¬st'.size ≤ inlineKeyMax :=
      fun i => Exists.imp (fun st' hst => ⟨h.fills.rows i st' (h.settles.rows i st' hst.1), hst.2⟩)
    by_cases hsize : st.size ≤ inlineKeyMax
    · rw [RocksStorage.dictionaryKey_exact hsize] at hkey
      simp only [Db.ingest, DictBuffers.str2idFile_push_exact] at hkey
      rw [Function.update_of_ne (by simp)] at hkey
      exact .inr (h.whole.hashed d ids hkey i hi)
    · rw [RocksStorage.dictionaryKey_hashed hsize] at hkey
      obtain ⟨list, hlist, hmem⟩ := ((l.window ops).pushId2str id st).str2idFile_push_hashed (hash128 st) (listFor hash128 l st id)
      simp only [Db.ingest, hlist] at hkey
      by_cases hd : d = hash128 st
      · subst hd
        rw [Function.update_self, Option.some_or] at hkey
        cases hkey
        rcases hmem i hi with hi | ⟨old, hfile, hi⟩
        · simp only [listFor, if_neg hsize, List.mem_append, List.mem_singleton] at hi
          rcases hi with hi | rfl
          · cases hlist : l.storage.db.str2id (.hashed (hash128 st)) with
            | none =>
              rw [hlist] at hi
              cases hi
            | some ids =>
              rw [hlist] at hi
              exact .inr (hold i (h.db.hashed _ ids hlist i hi))
          · exact .inl ⟨rfl, hsize⟩
        · have hkey : (l.mid.ingest (l.window ops)).str2id (.hashed (hash128 st)) = some old := by
            change ((l.window ops).str2idFile (.hashed (hash128 st))).or _ = _
            rw [show (l.window ops).str2idFile (.hashed (hash128 st)) = some old from hfile]
            rfl
          exact .inr (h.whole.hashed _ old hkey i hi)
      · rw [Function.update_of_ne (by simpa using hd)] at hkey
        exact .inr (h.whole.hashed d ids hkey i hi)

/-- What the rows of a new term put in the window. -/
theorem window_minted (l : Load) (ops : List Pending) (tag : Tag) (n : Nat) (id : TermId) (st : StoredTerm) (list : List TermId) :
    (l.window (ops ++ [.putDefault (.next tag) n, .putId2str id st, .putStr2id (dictionaryKey hash128 st).1 list])).id2strFile =
      Function.update (l.window ops).id2strFile id (some st) ∧
    ∀ st' ids, (l.window (ops ++ [.putDefault (.next tag) n, .putId2str id st,
        .putStr2id (dictionaryKey hash128 st).1 list])).str2idFile (.exact st') = some ids →
      st' = st ∨ (l.window ops).str2idFile (.exact st') = some ids := by
  unfold Load.window
  rw [List.foldl_append]
  refine ⟨DictBuffers.id2strFile_push _ id st, fun st' ids hkey => ?_⟩
  change (((l.window ops).pushId2str id st).pushStr2id (dictionaryKey hash128 st).1 list).str2idFile (.exact st') = some ids at hkey
  by_cases hsize : st.size ≤ inlineKeyMax
  · rw [RocksStorage.dictionaryKey_exact hsize, DictBuffers.str2idFile_push_exact] at hkey
    by_cases hst : st' = st
    · exact .inl hst
    · rw [Function.update_of_ne (by simpa using hst)] at hkey
      exact .inr hkey
  · rw [RocksStorage.dictionaryKey_hashed hsize] at hkey
    obtain ⟨list', hlist, -⟩ := ((l.window ops).pushId2str id st).str2idFile_push_hashed (hash128 st) list
    rw [hlist, Function.update_of_ne (by simp)] at hkey
    exact .inr hkey

theorem mints_grows {db db' : Db} {st : StoredTerm} {id : TermId} (hm : Mints db db' st id) (hfresh : db.id2str id = none)
    (hkey : st.size ≤ inlineKeyMax → db.str2id (.exact st) = none) : Grows db db' := by
  refine ⟨fun i st' hi => hm.mono hfresh hi, fun st' ids hst' => ?_⟩
  rw [hm.exact, if_neg]
  · exact hst'
  · rintro ⟨rfl, hsize⟩
    rw [hkey hsize] at hst'
    cases hst'

theorem Kept.allocate {st : StoredTerm} {out : Except StorageError (TermId × List Pending) × Load} (h : Kept fx l (l.window ops))
    (hcache : l.cached st = none) (hkey : st.size ≤ inlineKeyMax → l.storage.db.str2id (.exact st) = none)
    (hbelow : ∀ s p o, st = .triple s p o → o.tag = .tripleTerm → o.payload < l.storage.next .tripleTerm)
    (halloc : l.allocate fx hash128 st.tag st ops = some out) :
    ∃ id ops', out.1 = .ok (id, ops') ∧ Kept fx out.2 (out.2.window ops') ∧
      Mints (l.mid.ingest (l.window ops)) (out.2.mid.ingest (out.2.window ops')) st id ∧
      Grows (l.mid.ingest (l.window ops)) (out.2.mid.ingest (out.2.window ops')) := by
  obtain ⟨id, hid, rfl⟩ := allocate_eq halloc
  obtain ⟨htag, hpay⟩ := TermId.checked_eq_some hid
  have hn : Next l.storage.next st id := ⟨htag, hpay⟩
  have hm := @Kept.minted fx hash128 l ops h st id st.tag (l.storage.next st.tag + 1)
  have hgrows := mints_grows hm (hn.fresh h.whole) (fun hsize => (h.key_of_not_cached hcache).trans (hkey hsize))
  obtain ⟨hrows, hkeys⟩ := @window_minted hash128 l ops st.tag (l.storage.next st.tag + 1) id st (listFor hash128 l st id)
  have hsame : ∀ c', (st, c') ∈ l.state.terms → c'.id = id := fun c' hc' => absurd hc' (not_cached hcache c')
  have hcold : ∀ d, Backed l.state.terms d → Backed (minting fx l st.tag st id).state.terms d :=
    fun d hd => Backed.remember (l := l) (c := .new id l.state.position) hd hsame
  refine ⟨id, _, rfl, ⟨h.scope, h.pending, h.db.mono (le_bump _ _), h.mid.mono (le_bump _ _), h.whole.mints hm hn hbelow, h.settles,
    h.fills.trans hgrows, fun st' c' hc' => ?_, unique_remember (l := l) h.unique, fun flush hf => hcold _ (h.flight flush hf),
    ⟨fun i st' hi => ?_, fun st' ids hst' => ?_⟩, fun flush hf i st' hi => ?_,
    fun flush hf t => (h.handed flush hf t).trans (le_bump _ _ _), fun seen hs i st' hi => ?_⟩, hm, hgrows⟩
  · rcases (mem_remember l st st' (.new id l.state.position) c').1 hc' with ⟨rfl, rfl⟩ | ⟨-, hc'⟩
    · exact ⟨hm.row, fun hsize => (hm.exact _).trans (if_pos ⟨rfl, hsize⟩)⟩
    · obtain ⟨hrow, hexact⟩ := h.terms st' c' hc'
      exact ⟨hgrows.rows _ _ hrow, fun hsize => hgrows.exact _ _ (hexact hsize)⟩
  · -- the new term is cached, and the others of the window were
    change (l.window _).id2strFile i = some st' at hi
    rw [hrows] at hi
    by_cases he : i = id
    · subst he
      rw [Function.update_self] at hi
      cases hi
      exact ⟨.new i l.state.position, (mem_remember l st st _ _).2 (.inl ⟨rfl, rfl⟩), rfl⟩
    · rw [Function.update_of_ne he] at hi
      exact (hcold _ h.window).rows i st' hi
  · change ∃ i, (l.window _).id2strFile i = some st'
    rw [hrows]
    rcases hkeys st' ids hst' with rfl | hold
    · exact ⟨id, by rw [Function.update_self]⟩
    · obtain ⟨i, hi⟩ := h.window.keys st' ids hold
      by_cases he : i = id
      · -- an id of the window was issued before
        have hrow : (l.mid.ingest (l.window ops)).id2str i = some st' := by
          change ((l.window ops).id2strFile i).or _ = _
          rw [hi]
          rfl
        rw [he, hn.fresh h.whole] at hrow
        cases hrow
      · exact ⟨i, by rw [Function.update_of_ne he]; exact hi⟩
  · change (l.window _).id2strFile i = some st' at hi
    rw [hrows] at hi
    by_cases he : i = id
    · subst he
      rw [htag, hpay]
      exact h.handed flush hf _
    · rw [Function.update_of_ne he] at hi
      exact h.since flush hf i st' hi
  · obtain ⟨seen₀, hs₀, rfl⟩ := Option.map_eq_some_iff.1 hs
    change (l.mid.ingest (l.window _)).id2str i = some st' at hi
    rw [hm.rows] at hi
    by_cases he : i = id
    · subst he
      rw [Function.update_self] at hi
      cases hi
      exact mayContain_insert seen₀ _
    · rw [Function.update_of_ne he] at hi
      exact mayContain_mono (h.seen seen₀ hs₀ i st' hi)

/-- What the load knows with the rows gathered. -/
def gathered (l : Load) (ops : List Pending) : Db := l.mid.ingest (l.window ops)

/-- Interning returned an id of which something holds in what is known, and nothing known is
lost. -/
def Encodes (fx : StoredTerm → UInt64) (l : Load) (ops : List Pending) (P : Db → TermId → Prop)
    (out : Except StorageError (TermId × List Pending) × Load) : Prop :=
  ∃ id ops', out.1 = .ok (id, ops') ∧ Kept fx out.2 (out.2.window ops') ∧ P (out.2.gathered ops') id ∧
    Grows (l.gathered ops) (out.2.gathered ops')

/-- A serialised term is known under an id: it is its row, and its key leads to it. -/
structure Keyed (db : Db) (id : TermId) (st : StoredTerm) : Prop where
  row : db.id2str id = some st
  key : st.size ≤ inlineKeyMax → db.str2id (.exact st) = some [id]

theorem Keyed.find {db : Db} {id : TermId} {st : StoredTerm} (h : Keyed db id st) (hsize : st.size ≤ inlineKeyMax) :
    find hash128 db st = some id := by
  unfold RocksStorage.find
  rw [if_pos hsize, h.key hsize]
  rfl

theorem Keyed.mono {db db' : Db} {id : TermId} {st : StoredTerm} (h : Keyed db id st) (hg : Grows db db') : Keyed db' id st :=
  ⟨hg.rows _ _ h.row, fun hsize => hg.exact _ _ (h.key hsize)⟩

variable {out : Except StorageError (TermId × List Pending) × Load}

theorem Kept.readable {dict : DictBuffers} (h : Kept fx l dict) : RocksStorage.Readable l.storage l.storage.db := by
  intro id st hid
  unfold RocksStorage.row
  rw [h.scope]
  exact hid

theorem Kept.intern {t : Term} (h : Kept fx l (l.window ops)) (st : StoredTerm)
    (ht : ¬st.size ≤ inlineKeyMax → RocksStorage.StoredTerm.whole st = some t)
    (hbelow : ∀ s p o, st = .triple s p o → o.tag = .tripleTerm → o.payload < l.storage.next .tripleTerm)
    (hok : l.intern fx hash128 X st.tag st t ops = some out) : Encodes fx l ops (fun db id => Keyed db id st) out := by
  unfold Load.intern at hok
  simp only at hok
  -- the position is not what the invariant is about
  have h₀ : Kept fx { l with state := { l.state with position := (l.state.position + 1) % 2 ^ 32 } } (l.window ops) :=
    ⟨h.scope, h.pending, h.db, h.mid, h.whole, h.settles, h.fills, h.terms, h.unique, h.flight, h.window, h.since, h.handed, h.seen⟩
  split at hok
  · rename_i c hc
    cases hok
    have hmem := cached_mem hc
    obtain ⟨hrow, hkey⟩ := h.terms st c hmem
    refine ⟨c.id, ops, rfl, h₀.remember hrow hkey (fun c' hc' => ?_), ⟨hrow, hkey⟩, .refl _⟩
    rw [h.unique st c' c hc' hmem]
    rfl
  · rename_i hcache
    have hnew : ∀ out, Load.allocate fx hash128 { l with state := { l.state with position := (l.state.position + 1) % 2 ^ 32 } }
        st.tag st ops = some out → (st.size ≤ inlineKeyMax → l.storage.db.str2id (.exact st) = none) →
        Encodes fx l ops (fun db id => Keyed db id st) out := by
      intro out halloc hkey
      obtain ⟨id, ops', hout, hkept, hm, hgrows⟩ := (show Kept fx _ (Load.window _ ops) from h₀).allocate hcache hkey hbelow halloc
      exact ⟨id, ops', hout, hkept, ⟨hm.row, fun hsize => (hm.exact st).trans (if_pos ⟨rfl, hsize⟩)⟩, hgrows⟩
    split at hok
    · rename_i e he
      split_ifs at he
      rw [RocksStorage.resolve_eq h.db h.readable ht] at he
      cases he
    · rename_i existing he
      cases hok
      split_ifs at he
      · cases he
      rw [RocksStorage.resolve_eq h.db h.readable ht] at he
      have hfind := Except.ok.inj he
      have hrow := h.db.find_row hfind
      have hkey : st.size ≤ inlineKeyMax → l.storage.db.str2id (.exact st) = some [existing] := by
        intro hsize
        unfold RocksStorage.find at hfind
        rw [if_pos hsize] at hfind
        obtain ⟨ids, hids, hhead⟩ := Option.bind_eq_some_iff.1 hfind
        obtain ⟨id, rfl, -⟩ := h.db.exact st ids hids
        cases hhead
        exact hids
      have hknown : Keyed (l.gathered ops) existing st :=
        Keyed.mono ⟨hrow, hkey⟩ (h.settles.trans h.fills)
      exact ⟨existing, ops, rfl, h₀.remember hknown.row hknown.key (fun c' hc' => absurd hc' (not_cached hcache c')), hknown, .refl _⟩
    · rename_i he
      refine hnew out hok (fun hsize => ?_)
      cases hdb : l.storage.db.str2id (.exact st) with
      | none => rfl
      | some ids =>
        obtain ⟨id, rfl, hrow⟩ := h.db.exact st ids hdb
        split_ifs at he with hprov
        · -- the filter has seen every row
          obtain ⟨seen, hs, hmiss⟩ := (Option.any_eq_true _ _).1 hprov
          have := h.seen seen hs id st (h.fills.rows _ _ (h.settles.rows _ _ hrow))
          simp [this] at hmiss
        · rw [RocksStorage.resolve_eq h.db h.readable ht] at he
          have hfind := Except.ok.inj he
          unfold RocksStorage.find at hfind
          rw [if_pos hsize, hdb] at hfind
          cases hfind

/-- An id stands for a term and is found for it, if the term's parts are their own keys. -/
def Knows (hash128 : StoredTerm → Hash) (X : Inline.Datatypes) (t : Term) (db : Db) (id : TermId) : Prop :=
  Reads X db id t ∧ (t.Fits → findTerm hash128 X db t = some id)

theorem Knows.mono {t : Term} {db db' : Db} {id : TermId} (h : Knows hash128 X t db id) (hg : Grows db db') :
    Knows hash128 X t db' id :=
  ⟨h.1.mono hg.rows, fun ht => hg.findTerm ht (h.2 ht)⟩

theorem Kept.encodeNamedNode {n : NamedNode} (h : Kept fx l (l.window ops)) (hok : l.encodeNamedNode fx hash128 X n ops = some out) :
    Encodes fx l ops (Knows hash128 X (.namedNode n)) out := by
  unfold Load.encodeNamedNode at hok
  cases hv : Vocab.encodeIri n with
  | some v =>
    rw [hv] at hok
    cases hok
    refine ⟨v, ops, rfl, h, ⟨?_, fun _ => ?_⟩, .refl _⟩
    · unfold Reads RocksStorage.ReadsNode
      rw [hv]
    · unfold RocksStorage.findTerm RocksStorage.findNode
      rw [hv]
  | none =>
    rw [hv] at hok
    obtain ⟨id, ops', hout, hkept, hkeyed, hgrows⟩ := h.intern (.iri n) (fun _ => rfl) (fun _ _ _ hst => by cases hst) hok
    refine ⟨id, ops', hout, hkept, ⟨?_, fun ht => ?_⟩, hgrows⟩
    · unfold Reads RocksStorage.ReadsNode
      rw [hv]
      exact hkeyed.row
    · unfold RocksStorage.findTerm RocksStorage.findNode
      rw [hv]
      exact hkeyed.find ht

theorem Kept.encodeBlankNode {b : String} (h : Kept fx l (l.window ops)) (hok : l.encodeBlankNode fx hash128 X b ops = some out) :
    Encodes fx l ops (Knows hash128 X (.blankNode b)) out := by
  obtain ⟨id, ops', hout, hkept, hkeyed, hgrows⟩ := h.intern (.blank b) (fun _ => rfl) (fun _ _ _ hst => by cases hst) hok
  exact ⟨id, ops', hout, hkept, ⟨hkeyed.row, fun ht => hkeyed.find ht⟩, hgrows⟩

theorem Kept.encodeSubject {s : NamedOrBlankNode} (h : Kept fx l (l.window ops))
    (hok : l.encodeSubject fx hash128 X ops s = some out) : Encodes fx l ops (Knows hash128 X s.toTerm) out := by
  cases s with
  | namedNode n => exact h.encodeNamedNode hok
  | blankNode b => exact h.encodeBlankNode hok

/-- One interning after another. -/
theorem Encodes.andThen {P Q : Db → TermId → Prop} {x : Option (Except StorageError (TermId × List Pending) × Load)}
    {f : TermId × List Pending → Load → Option (Except StorageError (TermId × List Pending) × Load)}
    (hx : ∀ out, x = some out → Encodes fx l ops P out)
    (hf : ∀ id ops₁ l₁ out, Kept fx l₁ (l₁.window ops₁) → P (l₁.gathered ops₁) id → f (id, ops₁) l₁ = some out →
      Encodes fx l₁ ops₁ Q out)
    (hok : Load.andThen x f = some out) : Encodes fx l ops Q out := by
  unfold Load.andThen at hok
  split at hok
  · cases hok
  · obtain ⟨id, ops₁, he, -⟩ := hx _ rfl
    cases he
  · obtain ⟨id, ops₁, he, hkept, hP, hgrows⟩ := hx _ rfl
    cases he
    obtain ⟨id', ops', he', hkept', hQ, hgrows'⟩ := hf _ _ _ _ hkept hP hok
    exact ⟨id', ops', he', hkept', hQ, hgrows.trans hgrows'⟩

/-- What held of an interning still holds after another. -/
theorem Encodes.and {P Q : Db → TermId → Prop} (h : Encodes fx l ops Q out) (R : Db → Prop) (hR : R (l.gathered ops))
    (hmono : ∀ db db', Grows db db' → R db → R db') (hP : ∀ db id, R db → Q db id → P db id) : Encodes fx l ops P out := by
  obtain ⟨id, ops', he, hkept, hQ, hgrows⟩ := h
  exact ⟨id, ops', he, hkept, hP _ _ (hmono _ _ hgrows hR) hQ, hgrows⟩

/-- A term is interned under an id that stands for it. -/
theorem Kept.encodeInto (hX : X.Lawful) {t : Term} (h : Kept fx l (l.window ops)) (hok : l.encodeInto fx hash128 X ops t = some out) :
    Encodes fx l ops (Knows hash128 X t) out := by
  induction t generalizing l ops out with
  | namedNode n => exact h.encodeNamedNode hok
  | blankNode b => exact h.encodeBlankNode hok
  | literal lit =>
    unfold Load.encodeInto at hok
    cases hv : Inline.encodeLiteral X lit with
    | some v =>
      rw [hv] at hok
      cases hok
      refine ⟨v, ops, rfl, h, ⟨?_, fun _ => ?_⟩, .refl _⟩
      · unfold Reads
        rw [hv]
      · unfold RocksStorage.findTerm
        rw [hv]
    | none =>
      rw [hv] at hok
      obtain ⟨id, ops', hout, hkept, hkeyed, hgrows⟩ := h.intern (.literal lit) (fun _ => rfl) (fun _ _ _ hst => by cases hst) hok
      refine ⟨id, ops', hout, hkept, ⟨?_, fun ht => ?_⟩, hgrows⟩
      · unfold Reads
        rw [hv]
        exact hkeyed.row
      · unfold RocksStorage.findTerm
        rw [hv]
        exact hkeyed.find ht
  | triple subject predicate object ih =>
    unfold Load.encodeInto at hok
    refine Encodes.andThen (fun _ hs => h.encodeSubject hs) (fun s ops₁ l₁ _ h₁ hs hok => ?_) hok
    refine Encodes.andThen (P := fun db p => Knows hash128 X subject.toTerm db s ∧ Knows hash128 X (.namedNode predicate) db p)
      (fun _ hp => (h₁.encodeNamedNode hp).and (Knows hash128 X subject.toTerm · s) hs (fun _ _ hg hr => hr.mono hg) (fun _ _ hr hq => ⟨hr, hq⟩))
      (fun p ops₂ l₂ _ h₂ hsp hok => ?_) hok
    refine Encodes.andThen (P := fun db o => (Knows hash128 X subject.toTerm db s ∧ Knows hash128 X (.namedNode predicate) db p) ∧
        Knows hash128 X object db o)
      (fun _ ho => (ih h₂ ho).and (fun db => Knows hash128 X subject.toTerm db s ∧ Knows hash128 X (.namedNode predicate) db p) hsp
        (fun _ _ hg hr => ⟨hr.1.mono hg, hr.2.mono hg⟩) (fun _ _ hr hq => ⟨hr, hq⟩))
      (fun o ops₃ l₃ _ h₃ hspo hok => ?_) hok
    -- the object is interned by now, so it comes before the triple term
    have hlast := h₃.intern (.triple s p o) (fun hsize => absurd (RocksStorage.triple_exact s p o) hsize)
      (fun _ _ _ hst htag => by cases hst; exact hspo.2.1.below hX h₃.whole htag) hok
    refine hlast.and (fun db => (Knows hash128 X subject.toTerm db s ∧ Knows hash128 X (.namedNode predicate) db p) ∧
      Knows hash128 X object db o) hspo (fun _ _ hg hr => ⟨⟨hr.1.1.mono hg, hr.1.2.mono hg⟩, hr.2.mono hg⟩) (fun db id hr hq => ⟨?_, fun ht => ?_⟩)
    · refine ⟨s, p, o, ?_, hr.1.2.1, hr.2.1, hq.row⟩
      cases subject with
      | namedNode n => exact hr.1.1.1
      | blankNode b => exact hr.1.1.1
    · obtain ⟨hsub, hpred, hobj⟩ := ht
      have hs' : findSubject hash128 db subject = some s := by
        cases subject with
        | namedNode n => exact hr.1.1.2 hsub
        | blankNode b => exact hr.1.1.2 hsub
      have hp' : findNode hash128 db predicate = some p := hr.1.2.2 hpred
      unfold RocksStorage.findTerm
      rw [hs', hp', hr.2.2 hobj]
      exact @Keyed.find hash128 db id _ hq (RocksStorage.triple_exact s p o)

/-! ## Steps -/

/-- The invariant between steps. -/
def Sound (fx : StoredTerm → UInt64) (l : Load) : Prop := Kept fx l l.state.dict

/-- A step keeps the invariant, and nothing known is lost. -/
def Steps (fx : StoredTerm → UInt64) (l l' : Load) : Prop := Sound fx l' ∧ Grows l.known l'.known

theorem Steps.trans {l'' : Load} (h : Steps fx l l') (h' : Steps fx l' l'') : Steps fx l l'' := ⟨h'.1, h.2.trans h'.2⟩

theorem Sound.encode (hX : X.Lawful) {t : Term} {out : Except StorageError TermId × Load} (h : Sound fx l)
    (hok : l.encode config finished fx hash128 X t = some out) :
    ∃ id, out.1 = .ok id ∧ Steps fx l out.2 ∧ Knows hash128 X t out.2.known id := by
  unfold Load.encode Load.andThen at hok
  split at hok
  · cases hok
  · rename_i e l₁ he
    obtain ⟨id, ops', hout, -⟩ := Kept.encodeInto hX (show Kept fx _ (Load.window _ []) from h) he
    cases hout
  · rename_i x l₁ he
    obtain ⟨id, ops', hout, hkept, hknows, hgrows⟩ := Kept.encodeInto hX (show Kept fx _ (Load.window _ []) from h) he
    cases hout
    cases hok
    obtain ⟨hsound, hsame⟩ := @Kept.commitOps config finished fx l₁ _ hkept
    exact ⟨id, rfl, ⟨hsound, hgrows.trans hsame.grows⟩, hknows.mono hsame.grows⟩

theorem gather_off {ops : List Pending} (hops : ∀ op ∈ ops, offDictionary op = true) (dict : DictBuffers) :
    ops.foldl gather dict = dict := by
  induction ops generalizing dict with
  | nil => rfl
  | cons op ops ih =>
    have hop := hops op List.mem_cons_self
    rw [List.foldl_cons, ih (fun o ho => hops o (List.mem_cons_of_mem _ ho))]
    cases op with
    | putId2str | putStr2id => cases hop
    | _ => rfl

theorem Sound.commitOff {ops : List Pending} (h : Sound fx l) (hops : ∀ op ∈ ops, offDictionary op = true) :
    Steps fx l (l.commitOps config finished ops) := by
  have hwin : l.window ops = l.state.dict := gather_off hops _
  obtain ⟨hsound, hsame⟩ := @Kept.commitOps config finished fx l ops (by rw [hwin]; exact h)
  rw [hwin] at hsame
  exact ⟨hsound, hsame.grows⟩

theorem Sound.insertEncoded (h : Sound fx l) (q : EncodedQuad) : Steps fx l (l.insertEncoded config q).2 := by
  unfold Load.insertEncoded
  simp only
  split
  · exact ⟨⟨h.scope, h.pending, h.db, h.mid, h.whole, h.settles, h.fills, h.terms, h.unique, h.flight, h.window, h.since, h.handed,
      h.seen⟩, .refl _⟩
  · exact ⟨⟨h.scope, h.pending, h.db, h.mid, h.whole, h.settles, h.fills, h.terms, h.unique, h.flight, h.window, h.since, h.handed,
      h.seen⟩, .refl _⟩

/-- The counters are not the dictionary's. -/
theorem Sound.counted (h : Sound fx l) (quadCount generation : Nat) (predicateCounts : Counter TermId) :
    Steps fx l { l with storage := { l.storage with quadCount, generation, predicateCounts } } :=
  ⟨⟨h.scope, h.pending, h.db, h.mid, h.whole, h.settles, h.fills, h.terms, h.unique, h.flight, h.window, h.since, h.handed, h.seen⟩,
    .refl l.known⟩

theorem Sound.removeEncoded (h : Sound fx l) (q : EncodedQuad) : Steps fx l (l.removeEncoded config finished q).2 := by
  unfold Load.removeEncoded
  split
  · refine (h.counted _ _ _).trans (Sound.commitOff (h.counted _ _ _).1 (fun op hop => ?_))
    rw [List.append_assoc] at hop
    simp only [List.cons_append, List.nil_append, List.mem_append, List.mem_cons] at hop
    rcases hop with hop | rfl | rfl | hop
    · exact RocksStorage.deleteRows_off q op hop
    · rfl
    · rfl
    · exact (RocksStorage.statsRow_off _ _ op hop).2
  · exact ⟨h, .refl _⟩

theorem Sound.removeAll (h : Sound fx l) (doomed : List EncodedQuad) :
    Steps fx l (doomed.foldl (fun l quad => (l.removeEncoded config finished quad).2) l) := by
  induction doomed generalizing l with
  | nil => exact ⟨h, .refl _⟩
  | cons q doomed ih =>
    have hq := @Sound.removeEncoded config finished fx l h q
    exact hq.trans (ih hq.1)

theorem Sound.write (h : Sound fx l) (op : Index.Op) : Steps fx l (l.write config finished op).2 := by
  cases op with
  | insert q => exact h.insertEncoded q
  | remove q => exact h.removeEncoded q
  | insertNamedGraph g =>
    change Steps fx l (l.insertNamedGraph config finished g).2
    unfold Load.insertNamedGraph
    split
    · exact ⟨h, .refl _⟩
    · exact h.commitOff (by simp [offDictionary])
  | removeNamedGraph g =>
    have hall := @Sound.removeAll config finished fx l h (l.storage.scan none none none (.named g))
    change Steps fx l (l.removeNamedGraph config finished g).2
    unfold Load.removeNamedGraph
    simp only
    split
    · exact hall.trans (hall.1.commitOff (by simp [offDictionary]))
    · exact hall

end Load

namespace Loader

variable {config : Config} {finished : Nat → Bool} {fx : StoredTerm → UInt64} {hash128 : StoredTerm → Hash} {X : Inline.Datatypes}

/-- Every step of a load keeps what is known and its ids; an encode returns. -/
theorem loadStep_steps (hX : X.Lawful) {l l' : Load} {op : Storage.Op} {reply : Storage.Reply} (h : l.Sound fx)
    (hstep : loadStep config finished fx hash128 X l op = some (reply, l')) : Load.Steps fx l l' ∧
      ∀ t, op = .encode t → ∃ id, reply = .encoded (.ok id) ∧ Load.Knows hash128 X t l'.known id := by
  cases op with
  | encode t =>
    obtain ⟨out, he, heq⟩ := Option.map_eq_some_iff.1 hstep
    cases heq
    obtain ⟨id, hout, hsteps, hknows⟩ := h.encode hX he
    refine ⟨hsteps, fun t' ht' => ?_⟩
    cases ht'
    exact ⟨id, by rw [hout], hknows⟩
  | write op =>
    cases hstep
    exact ⟨h.write op, fun _ ht => by cases ht⟩
  | begin | commit | rollback =>
    cases hstep
    exact ⟨⟨h, .refl _⟩, fun _ ht => by cases ht⟩

/-! ## Beginning and ending -/

/-- A load begins with what the database has. The filter is made only if that is nothing. -/
theorem startBulk_sound {l : Loader} (h : Rows l.storage.next l.storage.db) (hs : l.storage.scope = none) :
    ∃ state, (l.startBulk config).bulk = some state ∧ Load.Sound fx ⟨l.storage, state⟩ ∧
      Load.known ⟨l.storage, state⟩ = l.storage.db.ingest (.new config.dictSpillBytes) := by
  refine ⟨_, rfl, ⟨hs, fun _ hop => (by cases hop), h, h, h.congr rfl rfl, .refl _, (sameFamilies_new _ _).grows,
    fun _ _ hc => (by cases hc), fun _ _ _ hc => (by cases hc), fun _ hf => (by cases hf),
    ⟨fun _ _ hid => (by cases hid), fun _ _ hkey => (by cases hkey)⟩, fun _ hf => (by cases hf), fun _ hf => (by cases hf),
    fun seen hseen id st hid => ?_⟩, rfl⟩
  simp only [Bool.and_eq_true, decide_eq_true_eq] at hseen
  split_ifs at hseen with hempty
  -- no id was issued, so there is no row
  have hrow : l.storage.db.id2str id = some st := hid
  obtain ⟨htag, hlt⟩ := h.tag id st hrow
  have hlen := hempty.1
  unfold RocksStorage.dictionaryLen at hlen
  rw [htag] at hlt
  cases st <;> simp only [StoredTerm.tag] at hlt <;> omega

/-- Counting again writes no row of the dictionary. -/
theorem recount_families (r : RocksStorage) : SameFamilies r.db r.recount.db := by
  refine RocksStorage.write_offDictionary r.db (fun op hop => ?_)
  simp only [List.mem_append, List.mem_map, List.mem_cons, List.not_mem_nil, or_false] at hop
  rcases hop with (⟨p, -, rfl⟩ | ⟨p, -, rfl⟩) | rfl | rfl <;> rfl

theorem ingestQuads_families (db : Db) (quads : List EncodedQuad) (graphs : SortedSet TermId) :
    SameFamilies db (db.ingestQuads quads graphs) := by
  refine RocksStorage.write_offDictionary db (fun op hop => ?_)
  obtain ⟨q, -, hq⟩ := List.mem_flatMap.1 hop
  obtain ⟨s, p, o, g⟩ := q
  cases g <;> simp only [indexRows, List.mem_cons, List.not_mem_nil, or_false] at hq
  · rcases hq with rfl | rfl | rfl <;> rfl
  · rcases hq with rfl | rfl | rfl | rfl | rfl | rfl <;> rfl

/-- A load that ends leaves in the database what it knew. -/
theorem finishBulk_families {storage : RocksStorage} {state : BulkState} (h : Load.Sound fx ⟨storage, state⟩) :
    ∃ r, finishBulk finished ⟨storage, some state⟩ = ⟨r, none⟩ ∧ r.scope = none ∧ Rows r.next r.db ∧
      SameFamilies (Load.known ⟨storage, state⟩) r.db := by
  obtain ⟨hk, hsame, hnone⟩ := @Load.Kept.settle finished fx _ h true
  unfold finishBulk
  simp only
  generalize Load.settleDictionary finished ⟨storage, state⟩ true = l at hk hsame hnone
  have hmid : l.mid = l.storage.db := by
    unfold Load.mid
    rw [hnone rfl]
  have hwrite := RocksStorage.write_offDictionary (l.storage.db.ingest l.state.dict) hk.pending
  have hdb : SameFamilies l.known
      (if (l.state.spilled ++ l.state.quads).isEmpty then (l.storage.db.ingest l.state.dict).write l.state.pending
        else ((l.storage.db.ingest l.state.dict).write l.state.pending).ingestQuads (l.state.spilled ++ l.state.quads) l.state.graphs) := by
    unfold Load.known
    rw [hmid]
    split
    · exact hwrite
    · exact SameFamilies.trans hwrite (ingestQuads_families _ _ _)
  have hall := hdb.trans (recount_families { l.storage with db := _ })
  refine ⟨_, rfl, hk.scope, ?_, hsame.trans hall⟩
  exact Rows.congr hk.whole hall.1 hall.2

/-! ## Any storage -/

/-- The storages that calls can lead to, whatever is configured and however long each window
takes. -/
inductive Reached (fx : StoredTerm → UInt64) (hash128 : StoredTerm → Hash) (X : Inline.Datatypes) : Loader → Prop where
  | new : Reached fx hash128 X .new
  | step {l l' : Loader} {config : Config} {finished : Nat → Bool} {call : Storage.Call} {reply : Storage.Reply}
      (h : Reached fx hash128 X l) (hstep : l.step config finished fx hash128 X call = some (reply, l')) : Reached fx hash128 X l'

/-- The invariant of the dictionary, in a load and outside one. -/
def Sound (fx : StoredTerm → UInt64) (l : Loader) : Prop :=
  match l.bulk with
  | none => l.storage.Sound []
  | some state => Load.Sound fx ⟨l.storage, state⟩

theorem write_families {db db' : Db} (h : SameFamilies db db') (ops : List Pending) : SameFamilies (db.write ops) (db'.write ops) := by
  unfold Db.write
  induction ops generalizing db db' with
  | nil => exact h
  | cons op ops ih =>
    refine ih ?_
    cases op with
    | putId2str id st => exact ⟨by rw [Db.apply, Db.apply, h.1], h.2⟩
    | putStr2id key ids => exact ⟨h.1, by rw [Db.apply, Db.apply, h.2]⟩
    | _ => exact h

theorem recount_sound {r : RocksStorage} (h : r.Sound []) : r.recount.Sound [] := by
  have hdb := recount_families r
  have happlied : SameFamilies r.applied r.recount.applied := by
    have hscope : r.recount.scope = r.scope := rfl
    unfold RocksStorage.applied
    cases hs : r.scope with
    | none =>
      simp only [hscope, hs]
      exact hdb
    | some s =>
      simp only [hscope, hs]
      exact write_families hdb s.pending
  exact h.congr rfl ⟨hdb.1, hdb.2, happlied.1, happlied.2⟩ (fun s hs => ⟨s, hs, rfl, rfl, rfl⟩)

theorem Sound.rows {l : Loader} (h : Sound fx l) : Rows l.storage.next l.storage.db := by
  unfold Sound at h
  split at h
  · exact h.db
  · exact h.db

theorem Sound.finishBulk {l : Loader} (h : Sound fx l) : Sound fx (l.finishBulk finished) := by
  obtain ⟨storage, bulk⟩ := l
  cases bulk with
  | none => exact recount_sound h
  | some state =>
    obtain ⟨r, heq, hscope, hrows, -⟩ := @finishBulk_families finished fx storage state h
    rw [heq]
    exact hrows.sound hscope

theorem Sound.startBulk {l : Loader} (h : Sound fx l) (hs : l.storage.scope = none) : Sound fx (l.startBulk config) := by
  obtain ⟨state, hstate, hsound, -⟩ := @startBulk_sound config fx l h.rows hs
  unfold Sound
  rw [hstate]
  exact hsound

theorem Sound.step (hX : X.Lawful) {l l' : Loader} {call : Storage.Call} {reply : Storage.Reply} (h : Sound fx l)
    (hstep : l.step config finished fx hash128 X call = some (reply, l')) : Sound fx l' := by
  obtain ⟨storage, bulk⟩ := l
  cases call with
  | op op =>
    cases bulk with
    | none =>
      obtain ⟨out, hout, heq⟩ := Option.map_eq_some_iff.1 hstep
      cases heq
      exact RocksStorage.Sound.step hX h hout
    | some state =>
      obtain ⟨out, hout, heq⟩ := Option.map_eq_some_iff.1 hstep
      cases heq
      exact (loadStep_steps hX h hout).1.1
  | beginBulkLoad =>
    simp only [Loader.step] at hstep
    split at hstep
    · cases hstep
      exact h
    · rename_i hs
      cases hstep
      exact h.startBulk (Option.not_isSome_iff_eq_none.1 hs)
  | endBulkLoad =>
    cases hstep
    exact h.finishBulk
  | flush =>
    cases hstep
    cases bulk with
    | none => exact h
    | some state => exact h.finishBulk

theorem Reached.sound (hX : X.Lawful) {l : Loader} (h : Reached fx hash128 X l) : Sound fx l := by
  induction h with
  | new => exact RocksStorage.new_sound
  | step _ hstep ih => exact ih.step hX hstep

/-! ## A whole load -/

theorem run_load (hX : X.Lawful) {storage : RocksStorage} {state : BulkState} {l : Loader} {ops : List Storage.Op}
    {replies : List Storage.Reply} (h : Load.Sound fx ⟨storage, state⟩)
    (hrun : run config finished fx hash128 X ⟨storage, some state⟩ (ops.map .op) = some (replies, l)) :
    ∃ storage' state', l = ⟨storage', some state'⟩ ∧ Load.Steps fx ⟨storage, state⟩ ⟨storage', state'⟩ ∧
      ∀ (i : Nat) (t : Term), ops[i]? = some (Storage.Op.encode t) → ∃ id, replies[i]? = some (Storage.Reply.encoded (.ok id)) ∧
        Load.Knows hash128 X t (Load.known ⟨storage', state'⟩) id := by
  induction ops generalizing storage state replies with
  | nil =>
    cases hrun
    exact ⟨storage, state, rfl, ⟨h, .refl _⟩, fun i t hi => by cases hi⟩
  | cons op ops ih =>
    obtain ⟨⟨reply, l₁⟩, hstep, hrun⟩ := Option.bind_eq_some_iff.1 hrun
    obtain ⟨⟨rest, l₂⟩, hrest, heq⟩ := Option.bind_eq_some_iff.1 hrun
    cases heq
    obtain ⟨out, hout, heq⟩ := Option.map_eq_some_iff.1 hstep
    cases heq
    obtain ⟨hsteps, hencode⟩ := loadStep_steps hX h hout
    obtain ⟨storage', state', hl, hsteps', hall⟩ := ih hsteps.1 hrest
    refine ⟨storage', state', hl, hsteps.trans hsteps', fun i t hi => ?_⟩
    cases i with
    | zero =>
      cases hi
      obtain ⟨id, hreply, hknows⟩ := hencode t rfl
      exact ⟨id, by rw [← hreply]; rfl, hknows.mono hsteps'.2⟩
    | succ i => exact hall i t hi

/-- What is known once a load has ended. -/
theorem ended_knows (hX : X.Lawful) {storage : RocksStorage} {state : BulkState} {t : Term} {id : TermId}
    (h : Load.Sound fx ⟨storage, state⟩) (hknows : Load.Knows hash128 X t (Load.known ⟨storage, state⟩) id) :
    (finishBulk finished ⟨storage, some state⟩).storage.decode X id = .ok (some t) ∧
      (t.Fits → (finishBulk finished ⟨storage, some state⟩).storage.lookup hash128 X t = .ok (some id)) := by
  obtain ⟨r, heq, hscope, hrows, hsame⟩ := @finishBulk_families finished fx storage state h
  have hafter := hknows.mono hsame.grows
  have hreadable : RocksStorage.Readable r r.db := by
    intro i st hi
    unfold RocksStorage.row
    rw [hscope]
    exact hi
  rw [heq]
  refine ⟨RocksStorage.decode_reads hX hrows hreadable hafter.1, fun ht => ?_⟩
  rw [RocksStorage.lookup_eq hrows hscope, hafter.2 ht]

/-- In a load, however its windows are cut and whenever each is found to have finished, a term has
one id and an id one term, also those of before; and once the load has ended a lookup finds the
id that was issued and the id decodes to the term. -/
theorem bulk_ids (hX : X.Lawful) {l₀ l : Loader} {ops : List Storage.Op} {replies : List Storage.Reply}
    (hreached : Reached fx hash128 X l₀)
    (hrun : run config finished fx hash128 X l₀ (.beginBulkLoad :: ops.map .op) = some (.scoped (.ok ()) :: replies, l))
    (hfits : ∀ t, Storage.Op.encode t ∈ ops → t.Fits) :
    let issued (t : Term) (id : TermId) := ∃ i : Nat, ops[i]? = some (Storage.Op.encode t) ∧
      replies[i]? = some (Storage.Reply.encoded (.ok id))
    let known (t : Term) (id : TermId) := l₀.storage.lookup hash128 X t = .ok (some id)
    let after := (l.finishBulk finished).storage
    (∀ (i : Nat) (t : Term), ops[i]? = some (Storage.Op.encode t) → ∃ id, replies[i]? = some (Storage.Reply.encoded (.ok id))) ∧
      (∀ t id t' id', issued t id → issued t' id' ∨ known t' id' → (t = t' ↔ id = id')) ∧
      (∀ t id, issued t id → after.lookup hash128 X t = .ok (some id) ∧ after.decode X id = .ok (some t)) ∧
      (∀ t id, t.Fits → known t id → after.lookup hash128 X t = .ok (some id) ∧ after.decode X id = .ok (some t)) := by
  intro issued known after
  have hrows₀ := (hreached.sound hX).rows
  obtain ⟨⟨reply, l₁⟩, hstep, hrest⟩ := Option.bind_eq_some_iff.1 hrun
  obtain ⟨⟨replies', l₂⟩, hload, heq⟩ := Option.bind_eq_some_iff.1 hrest
  simp only [pure, Option.some.injEq, Prod.mk.injEq, List.cons.injEq] at heq
  obtain ⟨⟨rfl, rfl⟩, rfl⟩ := heq
  simp only [Loader.step] at hstep
  split at hstep
  · cases hstep
  rename_i hs
  have hscope : l₀.storage.scope = none := Option.not_isSome_iff_eq_none.1 hs
  obtain ⟨state, hstate, hsound, hknown₀⟩ := @startBulk_sound config fx l₀ hrows₀ hscope
  cases hstep
  have hl₁ : l₀.startBulk config = ⟨l₀.storage, some state⟩ := by
    rw [← hstate]
    rfl
  rw [hl₁] at hload
  obtain ⟨storage', state', rfl, hsteps, hall⟩ := run_load hX hsound hload
  have hend := fun {t id} => @ended_knows finished fx hash128 X hX storage' state' t id hsteps.1
  -- an issued id is known at the end, and so is one that was found before
  have hissued : ∀ t id, issued t id → t.Fits ∧ Load.Knows hash128 X t (Load.known ⟨storage', state'⟩) id := by
    rintro t id ⟨i, hop, hreply⟩
    obtain ⟨id', hreply', hknows⟩ := hall i t hop
    rw [hreply] at hreply'
    cases hreply'
    exact ⟨hfits t (List.mem_of_getElem? hop), hknows⟩
  have hbefore : ∀ t id, known t id → Load.Knows hash128 X t (Load.known ⟨storage', state'⟩) id := by
    intro t id hlookup
    have hf : findTerm hash128 X l₀.storage.db t = some id := by
      have : l₀.storage.lookup hash128 X t = .ok (findTerm hash128 X l₀.storage.db t) := RocksStorage.lookup_eq hrows₀ hscope t
      exact Except.ok.inj (this.symm.trans hlookup)
    have hgrows : Grows l₀.storage.db (Load.known ⟨storage', state'⟩) := by
      have hfirst := (sameFamilies_new l₀.storage.db config.dictSpillBytes).grows
      rw [← hknown₀] at hfirst
      exact hfirst.trans hsteps.2
    exact Load.Knows.mono ⟨RocksStorage.findTerm_reads hrows₀ hf, fun _ => hf⟩ hgrows
  refine ⟨fun i t hop => ?_, fun t id t' id' h h' => ?_, fun t id h => ?_, fun t id ht h => ?_⟩
  · obtain ⟨id, hreply, -⟩ := hall i t hop
    exact ⟨id, hreply⟩
  · obtain ⟨hfit, hknows⟩ := hissued t id h
    have hknows' : Load.Knows hash128 X t' (Load.known ⟨storage', state'⟩) id' := by
      rcases h' with h' | h'
      · exact (hissued t' id' h').2
      · exact hbefore t' id' h'
    constructor
    · rintro rfl
      exact Option.some.inj ((hknows.2 hfit).symm.trans (hknows'.2 hfit))
    · rintro rfl
      have := (hend hknows).1.symm.trans (hend hknows').1
      simpa using this
  · obtain ⟨hfit, hknows⟩ := hissued t id h
    exact ⟨(hend hknows).2 hfit, (hend hknows).1⟩
  · exact ⟨(hend (hbefore t id h)).2 ht, (hend (hbefore t id h)).1⟩

/-- Two terms and the first again, each window handed over as soon as it has a row. -/
theorem bulk_ids_blank : ∃ replies l, run ⟨1, 0, 0⟩ (fun _ => false) (fun _ => 0) (fun _ => 0) Dictionary.bare .new
      (.beginBulkLoad :: [Storage.Op.encode (.blankNode "a"), .encode (.blankNode "b"), .encode (.blankNode "a")].map .op) =
        some (.scoped (.ok ()) :: replies, l) ∧
    ∃ id, replies[2]? = some (Storage.Reply.encoded (.ok id)) ∧
      (l.finishBulk (fun _ => false)).storage.decode Dictionary.bare id = .ok (some (.blankNode "a")) := by
  refine ⟨_, _, rfl, _, rfl, ?_⟩
  have h := @bulk_ids ⟨1, 0, 0⟩ (fun _ => false) (fun _ => 0) (fun _ => 0) Dictionary.bare Dictionary.bare_lawful .new _
    [.encode (.blankNode "a"), .encode (.blankNode "b"), .encode (.blankNode "a")] _ .new rfl (fun t ht => by
      simp only [List.mem_cons, Storage.Op.encode.injEq, List.not_mem_nil, or_false] at ht
      rcases ht with rfl | rfl | rfl <;> (unfold Term.Fits; decide))
  exact (h.2.2.1 (.blankNode "a") _ ⟨2, rfl, rfl⟩).2

end Loader

end Holos
