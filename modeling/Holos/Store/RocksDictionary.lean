import Holos.Store.RocksTheorems
/-!
# The dictionary of the on-disk tier

An encode gathers rows and hands them over at its end, so the invariant is stated with rows
still to be handed over. `DbDict` is what holds of the two dictionary families, `ScopeDict`
what ties the maps of an open scope to the rows it has buffered. Under it a lookup or a decode
in a scope answers as it would with the buffered rows in the database.
-/

namespace Holos.RocksStorage

open Lib
open Dictionary (issues)

variable {hash128 : StoredTerm → Hash} {X : Inline.Datatypes} {r r' : RocksStorage} {a : Storage.Scoped}

/-- The term a row holds by itself. -/
def StoredTerm.whole : StoredTerm → Option Term
  | .iri n => some (.namedNode n)
  | .blank b => some (.blankNode b)
  | .literal l => some (.literal l)
  | .triple _ _ _ => none

theorem StoredTerm.whole_inj {st st' : StoredTerm} {t : Term} (h : StoredTerm.whole st = some t)
    (h' : StoredTerm.whole st' = some t) : st = st' := by
  cases st <;> cases st' <;> simp [StoredTerm.whole] at h h' <;> subst h <;> simp_all

theorem dictionaryKey_exact {st : StoredTerm} (h : st.size ≤ inlineKeyMax) : dictionaryKey hash128 st = (.exact st, false) :=
  if_pos h

theorem dictionaryKey_hashed {st : StoredTerm} (h : ¬st.size ≤ inlineKeyMax) :
    dictionaryKey hash128 st = (.hashed (hash128 st), true) :=
  if_neg h

theorem triple_exact (s p o : TermId) : (StoredTerm.triple s p o).size ≤ inlineKeyMax := by
  simp only [StoredTerm.size, inlineKeyMax]
  omega

/-! ## The dictionary families -/

/-- What holds of the dictionary families: rows only below the counters, an exact key leads to
one id, and a hashed key to rows that are whole terms. -/
structure DbDict (next : Tag → Nat) (db : Db) : Prop where
  fresh : ∀ id st, db.id2str id = some st → issues id.tag = true ∧ id.payload < next id.tag
  exact : ∀ st ids, db.str2id (.exact st) = some ids → ∃ id, ids = [id]
  hashed : ∀ h ids, db.str2id (.hashed h) = some ids → ∀ id ∈ ids, ∃ st t, db.id2str id = some st ∧ StoredTerm.whole st = some t

theorem DbDict.new : DbDict (fun _ => 0) Db.new :=
  ⟨fun _ _ h => (by cases h), fun _ _ h => (by cases h), fun _ _ h => (by cases h)⟩

theorem DbDict.mono {next next' : Tag → Nat} {db : Db} (h : DbDict next db) (hle : ∀ tag, next tag ≤ next' tag) :
    DbDict next' db :=
  ⟨fun id st hid => ⟨(h.fresh id st hid).1, lt_of_lt_of_le (h.fresh id st hid).2 (hle _)⟩, h.exact, h.hashed⟩

/-- The candidates of a hashed key. -/
def listOf (db : Db) (h : Hash) : List TermId := (db.str2id (.hashed h)).getD []

/-- How the maps of an open scope stand to the database and to the rows buffered. -/
structure ScopeDict (hash128 : StoredTerm → Hash) (db after : Db) (s : ScopeState) : Prop where
  rows : ∀ id, after.id2str id = (s.strings id).or (db.id2str id)
  inverse : ∀ st id, s.terms st = some id ↔ s.strings id = some st
  minted : ∀ id st, s.strings id = some st → db.id2str id = none
  exact : ∀ st, st.size ≤ inlineKeyMax → after.str2id (.exact st) = ((s.terms st).map (fun id => [id])).or (db.str2id (.exact st))
  hashed : ∀ h, ∃ new : List TermId,
    (∀ id, id ∈ new ↔ ∃ st, s.strings id = some st ∧ ¬st.size ≤ inlineKeyMax ∧ hash128 st = h) ∧
    s.candidates (.hashed h) = (if new = [] then none else some (listOf db h ++ new)) ∧
    after.str2id (.hashed h) = (s.candidates (.hashed h)).or (db.str2id (.hashed h)) ∧
    ∀ id ∈ new, ∀ st, s.strings id = some st → ∀ id' ∈ listOf db h, db.id2str id' ≠ some st

/-- The invariant, with rows gathered and not yet handed over. -/
structure Dict (hash128 : StoredTerm → Hash) (r : RocksStorage) (ops : List Pending) : Prop where
  db : DbDict r.next r.db
  applied : DbDict r.next (r.applied.write ops)
  grown : ∀ id st, r.db.id2str id = some st → (r.applied.write ops).id2str id = some st
  scope : ∀ s, r.scope = some s → ScopeDict hash128 r.db (r.applied.write ops) s

/-! ## Rows and candidates -/

theorem decodeAt_congr (h : ∀ id, r.row id = r'.row id) (fuel : Nat) (id : TermId) :
    r.decodeAt X fuel id = r'.decodeAt X fuel id := by
  induction fuel generalizing id with
  | zero =>
    unfold decodeAt
    rw [h id]
    cases r'.row id with
    | none => rfl
    | some st => cases st <;> rfl
  | succ fuel ih =>
    unfold decodeAt
    rw [h id]
    cases r'.row id with
    | none => rfl
    | some st =>
      cases st with
      | triple s p o => simp only [ih]
      | _ => rfl

theorem decode_whole {id : TermId} {st : StoredTerm} {t : Term} (hid : issues id.tag = true) (hrow : r.row id = some st)
    (ht : StoredTerm.whole st = some t) : r.decode X id = .ok (some t) := by
  have hvocab : id.tag ≠ .vocab := by intro hv; rw [hv] at hid; cases hid
  have hinline : ¬Inline.inlineTag id.tag = true := fun hi => by
    rw [Dictionary.issues_inline hi] at hid
    cases hid
  unfold decode decodeAt
  rw [if_neg hvocab, if_neg hinline, hrow]
  cases st with
  | triple => cases ht
  | _ => cases ht; rfl

/-- Verifying candidates finds the first whose row is the term's. -/
theorem verify_eq {st : StoredTerm} {t : Term} (ht : StoredTerm.whole st = some t) {ids : List TermId}
    (hids : ∀ id ∈ ids, issues id.tag = true ∧ ∃ st' t', r.row id = some st' ∧ StoredTerm.whole st' = some t') :
    r.verify X t ids = .ok (ids.find? (fun id => r.row id = some st)) := by
  induction ids with
  | nil => rfl
  | cons id ids ih =>
    obtain ⟨hid, st', t', hrow, hwhole⟩ := hids id List.mem_cons_self
    have hdec : r.decode X id = .ok (some t') := decode_whole hid hrow hwhole
    unfold verify
    simp only [hdec, bind, Except.bind, Option.some.injEq]
    by_cases heq : t' = t
    · subst heq
      have hst := StoredTerm.whole_inj ht hwhole
      subst hst
      rw [if_pos rfl, List.find?_cons_of_pos (by simpa using hrow)]
      rfl
    · have hne : st' ≠ st := fun he => heq (Option.some.inj ((he ▸ hwhole).symm.trans ht))
      rw [if_neg heq, List.find?_cons_of_neg (by simpa [hrow] using hne)]
      exact ih (fun id' hid' => hids id' (List.mem_cons_of_mem _ hid'))

theorem find?_of_unique {α : Type} {l : List α} {a : α} {f : α → Bool} (ha : a ∈ l) (h : ∀ b ∈ l, f b = true ↔ b = a) :
    l.find? f = some a := by
  cases hf : l.find? f with
  | none => exact absurd ((h a ha).2 rfl) (List.find?_eq_none.1 hf a ha)
  | some b => rw [(h b (List.mem_of_find?_eq_some hf)).1 (List.find?_some hf)]

/-! ## Reads in a scope are reads of the applied database -/

/-- The storage as a commit would leave it. -/
def landed (r : RocksStorage) : RocksStorage := { r with db := r.applied, scope := none }

theorem Dict.row_landed (h : Dict hash128 r []) (id : TermId) : r.row id = r.landed.row id := by
  unfold row landed
  cases hs : r.scope with
  | none => simp only [Option.bind_none, RocksStorage.applied, hs]
  | some s =>
    have hrow : r.applied.id2str id = (s.strings id).or (r.db.id2str id) := (h.scope s hs).rows id
    simp only [Option.bind_some, Option.bind_none, hrow]
    cases s.strings id <;> rfl

theorem Dict.decode_landed (h : Dict hash128 r []) (id : TermId) : r.decode X id = r.landed.decode X id :=
  decodeAt_congr h.row_landed _ _

/-- A row of the database is the row the scope shows. -/
theorem Dict.row_of_db {ops : List Pending} (h : Dict hash128 r ops) {id : TermId} {st : StoredTerm}
    (hid : r.db.id2str id = some st) : r.row id = some st := by
  unfold row
  cases hs : r.scope with
  | none => simpa using hid
  | some s =>
    cases hstr : s.strings id with
    | none => simpa [hstr] using hid
    | some st' =>
      rw [(h.scope s hs).minted id st' hstr] at hid
      cases hid

/-- What the candidates of a hashed key in the database come to. -/
theorem Dict.resolve_hashed {ops : List Pending} (h : Dict hash128 r ops) {st : StoredTerm} {t : Term}
    (ht : StoredTerm.whole st = some t) (d : Hash) :
    r.resolve X (.hashed d) true t = .ok ((listOf r.db d).find? (fun id => r.row id = some st)) := by
  unfold resolve listOf
  cases hids : r.db.str2id (.hashed d) with
  | none => rfl
  | some ids =>
    simp only [if_true, Option.getD_some]
    refine verify_eq ht (fun id hid => ?_)
    obtain ⟨st', t', hrow, hwhole⟩ := h.db.hashed d ids hids id hid
    exact ⟨(h.db.fresh id st' hrow).1, st', t', h.row_of_db hrow, hwhole⟩

/-- After the writes have landed the invariant holds with nothing buffered. -/
theorem Dict.landed (h : Dict hash128 r []) : Dict hash128 r.landed [] where
  db := h.applied
  applied := h.applied
  grown _ _ hid := hid
  scope _ hs := by cases hs

theorem lookupStored_scope {s : ScopeState} (hs : r.scope = some s) (st : StoredTerm) (t : Term) :
    r.lookupStored hash128 X st t = match s.terms st with
      | some existing => .ok (some existing)
      | none => r.resolve X (dictionaryKey hash128 st).1 (dictionaryKey hash128 st).2 t := by
  unfold RocksStorage.lookupStored
  rw [hs, Option.bind_some] <;> cases s.terms st <;> rfl

/-- A serialised form is looked up in the scope as it is once the scope has landed. -/
theorem Dict.lookupStored_landed (h : Dict hash128 r []) {st : StoredTerm} {t : Term}
    (ht : ¬st.size ≤ inlineKeyMax → StoredTerm.whole st = some t) :
    r.lookupStored hash128 X st t = r.landed.lookupStored hash128 X st t := by
  cases hs : r.scope with
  | none =>
    have hsame : r.landed = r := by
      simp only [RocksStorage.landed, RocksStorage.applied, hs]
      rw [← hs]
    rw [hsame]
  | some s =>
    have hscope : ScopeDict hash128 r.db r.applied s := h.scope s hs
    have hright : r.landed.lookupStored hash128 X st t =
        r.landed.resolve X (dictionaryKey hash128 st).1 (dictionaryKey hash128 st).2 t := rfl
    rw [lookupStored_scope hs, hright]
    by_cases hsize : st.size ≤ inlineKeyMax
    · rw [dictionaryKey_exact hsize]
      have hkey := hscope.exact st hsize
      cases hterm : s.terms st with
      | some id =>
        rw [hterm] at hkey
        simp only [RocksStorage.resolve, RocksStorage.landed, hkey, Option.map_some, Option.some_or]
        rfl
      | none =>
        rw [hterm] at hkey
        simp only [RocksStorage.resolve, RocksStorage.landed, hkey, Option.map_none, Option.none_or, Bool.false_eq_true, if_false]
    · rw [dictionaryKey_hashed hsize]
      have ht' := ht hsize
      obtain ⟨new, hnew, hcand, hafter, hold⟩ := hscope.hashed (hash128 st)
      have hlist : listOf r.applied (hash128 st) = listOf r.db (hash128 st) ++ new := by
        unfold listOf
        rw [hafter, hcand]
        split
        · rename_i hnil
          rw [hnil, Option.none_or, List.append_nil]
        · rfl
      have hrows : (fun id => decide (r.landed.row id = some st)) = fun id => decide (r.row id = some st) :=
        funext (fun id => by rw [h.row_landed id])
      rw [h.landed.resolve_hashed ht', show r.landed.db = r.applied from rfl, hlist, List.find?_append, hrows]
      -- the new candidates are the scope's own rows
      have hrow : ∀ id ∈ new, (r.row id = some st ↔ s.terms st = some id) := by
        intro id hid
        obtain ⟨st', hst', -, -⟩ := (hnew id).1 hid
        have hr : r.row id = some st' := by simp only [row, hs, Option.bind_some, hst']
        rw [hr, hscope.inverse, hst']
      cases hterm : s.terms st with
      | none =>
        simp only
        rw [h.resolve_hashed ht']
        have hnone : new.find? (fun id => decide (r.row id = some st)) = none :=
          List.find?_eq_none.2 (fun id hid => by simp [hrow id hid, hterm])
        rw [hnone, Option.or_none]
      | some id =>
        simp only
        have hstr := (hscope.inverse st id).1 hterm
        have hmem : id ∈ new := (hnew id).2 ⟨st, hstr, hsize, rfl⟩
        have hdb : (listOf r.db (hash128 st)).find? (fun id => decide (r.row id = some st)) = none := by
          refine List.find?_eq_none.2 (fun id' hid' => ?_)
          have hne := hold id hmem st hstr id' hid'
          cases hids : r.db.str2id (.hashed (hash128 st)) with
          | none => simp [listOf, hids] at hid'
          | some ids =>
            simp only [listOf, hids, Option.getD_some] at hid'
            obtain ⟨st', t', hrow', -⟩ := h.db.hashed _ ids hids id' hid'
            rw [hrow'] at hne
            simpa [h.row_of_db hrow'] using hne
        rw [hdb, Option.none_or]
        refine congrArg _ (find?_of_unique hmem (fun id' hid' => ?_)).symm
        rw [decide_eq_true_iff, hrow id' hid', hterm, Option.some.injEq]
        exact eq_comm

theorem Dict.lookupNamedNode_landed (h : Dict hash128 r []) (n : NamedNode) :
    r.lookupNamedNode hash128 X n = r.landed.lookupNamedNode hash128 X n := by
  unfold RocksStorage.lookupNamedNode
  cases Vocab.encodeIri n with
  | some id => rfl
  | none => exact h.lookupStored_landed (fun _ => rfl)

theorem Dict.lookupSubject_landed (h : Dict hash128 r []) (s : NamedOrBlankNode) :
    r.lookupSubject hash128 X s = r.landed.lookupSubject hash128 X s := by
  cases s with
  | namedNode n => exact h.lookupNamedNode_landed n
  | blankNode b => exact h.lookupStored_landed (fun _ => rfl)

theorem Dict.lookup_landed (h : Dict hash128 r []) (t : Term) : r.lookup hash128 X t = r.landed.lookup hash128 X t := by
  induction t with
  | namedNode n => exact h.lookupNamedNode_landed n
  | blankNode b => exact h.lookupStored_landed (fun _ => rfl)
  | literal l =>
    unfold RocksStorage.lookup
    cases Inline.encodeLiteral X l with
    | some id => rfl
    | none => exact h.lookupStored_landed (fun _ => rfl)
  | triple subject predicate object ih =>
    have hstored : ∀ s p o, r.lookupStored hash128 X (.triple s p o) (.triple subject predicate object) =
        r.landed.lookupStored hash128 X (.triple s p o) (.triple subject predicate object) := fun s p o =>
      h.lookupStored_landed (fun hsize => absurd (triple_exact s p o) hsize)
    unfold RocksStorage.lookup
    rw [h.lookupSubject_landed, h.lookupNamedNode_landed, ih]
    simp only [hstored]

/-! ## Interning -/

/-- What interning leaves alone. -/
structure Interned (r r' : RocksStorage) : Prop where
  db : r'.db = r.db
  quadCount : r'.quadCount = r.quadCount
  predicateCounts : r'.predicateCounts = r.predicateCounts
  generation : r'.generation = r.generation
  next : ∀ tag, r.next tag ≤ r'.next tag
  none : r.scope = none → r'.scope = none
  some : ∀ s, r.scope = some s → ∃ terms strings candidates, r'.scope = some { s with terms, strings, candidates }

theorem Interned.refl (r : RocksStorage) : Interned r r :=
  ⟨rfl, rfl, rfl, rfl, fun _ => le_rfl, id, fun s hs => ⟨s.terms, s.strings, s.candidates, hs⟩⟩

theorem Interned.trans {r'' : RocksStorage} (h : Interned r r') (h' : Interned r' r'') : Interned r r'' where
  db := h'.db.trans h.db
  quadCount := h'.quadCount.trans h.quadCount
  predicateCounts := h'.predicateCounts.trans h.predicateCounts
  generation := h'.generation.trans h.generation
  next tag := (h.next tag).trans (h'.next tag)
  none hs := h'.none (h.none hs)
  some s hs := by
    obtain ⟨t, st, c, h₁⟩ := h.some s hs
    obtain ⟨t', st', c', h₂⟩ := h'.some _ h₁
    exact ⟨t', st', c', h₂⟩

theorem Interned.applied (h : Interned r r') : r'.applied = r.applied := by
  unfold RocksStorage.applied
  cases hs : r.scope with
  | none => simp only [h.none hs, h.db]
  | some s =>
    obtain ⟨t, st, c, h₁⟩ := h.some s hs
    simp only [h₁, h.db]

theorem whole_of_large {st : StoredTerm} (h : ¬st.size ≤ inlineKeyMax) : ∃ t, StoredTerm.whole st = some t := by
  cases st with
  | triple s p o => exact absurd (triple_exact s p o) h
  | _ => exact ⟨_, rfl⟩

/-- Candidates, in the scope or in the database, have rows that are whole terms. -/
theorem Dict.candidates_whole {ops : List Pending} (h : Dict hash128 r ops) (d : Hash) :
    ∀ id ∈ r.candidatesFor (.hashed d), ∃ st t, (r.applied.write ops).id2str id = some st ∧ StoredTerm.whole st = some t := by
  have hdb : ∀ id ∈ listOf r.db d, ∃ st t, (r.applied.write ops).id2str id = some st ∧ StoredTerm.whole st = some t := by
    intro id hid
    unfold listOf at hid
    cases hids : r.db.str2id (.hashed d) with
    | none => rw [hids] at hid; cases hid
    | some ids =>
      rw [hids] at hid
      obtain ⟨st, t, hrow, hwhole⟩ := h.db.hashed d ids hids id hid
      exact ⟨st, t, h.grown id st hrow, hwhole⟩
  intro id hid
  unfold candidatesFor at hid
  cases hs : r.scope with
  | none =>
    rw [hs] at hid
    exact hdb id hid
  | some s =>
    have hscope := h.scope s hs
    obtain ⟨new, hnew, hcand, -, -⟩ := hscope.hashed d
    rw [hs, Option.bind_some, hcand] at hid
    split at hid
    · rename_i list hlist
      split_ifs at hlist
      cases hlist
      rcases List.mem_append.1 hid with hid | hid
      · exact hdb id hid
      · obtain ⟨st, hstr, hsize, -⟩ := (hnew id).1 hid
        obtain ⟨t, ht⟩ := whole_of_large hsize
        exact ⟨st, t, by rw [hscope.rows, hstr]; rfl, ht⟩
    · exact hdb id hid

/-- The ids written under the key of a new term. -/
def listFor (hash128 : StoredTerm → Hash) (r : RocksStorage) (st : StoredTerm) (id : TermId) : List TermId :=
  if st.size ≤ inlineKeyMax then [id] else r.candidatesFor (.hashed (hash128 st)) ++ [id]

/-- The scope after a new term. -/
def minting (hash128 : StoredTerm → Hash) (r : RocksStorage) (st : StoredTerm) (id : TermId) (s : ScopeState) : ScopeState :=
  { s with
    terms := Function.update s.terms st (some id)
    strings := Function.update s.strings id (some st)
    candidates := if st.size ≤ inlineKeyMax then s.candidates
      else Function.update s.candidates (.hashed (hash128 st)) (some (listFor hash128 r st id)) }

theorem allocate_eq {tag : Tag} {st : StoredTerm} {ops : List Pending}
    {out : Except StorageError (TermId × List Pending) × RocksStorage} (h : r.allocate hash128 tag st ops = some out) :
    ∃ id, TermId.checked tag (r.next tag) = some id ∧
      out = (.ok (id, ops ++ [.putDefault (.next tag) (r.next tag + 1), .putId2str id st,
        .putStr2id (dictionaryKey hash128 st).1 (listFor hash128 r st id)]),
        { r with next := Function.update r.next tag (r.next tag + 1), scope := r.scope.map (minting hash128 r st id) }) := by
  unfold allocate at h
  obtain ⟨id, hid, rfl⟩ := Option.map_eq_some_iff.1 h
  refine ⟨id, hid, ?_⟩
  by_cases hsize : st.size ≤ inlineKeyMax
  · simp only [dictionaryKey_exact hsize, Bool.false_eq_true, if_false, listFor, if_pos hsize, List.append_assoc, List.cons_append,
      List.nil_append, Prod.mk.injEq, true_and]
    congr 1
    cases r.scope with
    | none => rfl
    | some s => simp only [Option.map_some, minting, if_pos hsize]
  · simp only [dictionaryKey_hashed hsize, if_true, listFor, if_neg hsize, List.append_assoc, List.cons_append, List.nil_append,
      Prod.mk.injEq]
    cases hs : r.scope with
    | none => simp [candidatesFor, hs]
    | some s => simp [candidatesFor, hs, minting, listFor, hsize]

/-- The families after the rows of a new term. -/
theorem write_minted (db : Db) (tag : Tag) (n : Nat) (id : TermId) (st : StoredTerm) (key : DictKey) (ids : List TermId) :
    (db.write [.putDefault (.next tag) n, .putId2str id st, .putStr2id key ids]).id2str = Function.update db.id2str id (some st) ∧
      (db.write [.putDefault (.next tag) n, .putId2str id st, .putStr2id key ids]).str2id =
        Function.update db.str2id key (some ids) :=
  ⟨rfl, rfl⟩

theorem ScopeDict.mint {db after after' : Db} {s : ScopeState} {st : StoredTerm} {id : TermId}
    (h : ScopeDict hash128 db after s) (hdb : db = r.db) (hs : r.scope = some s) (hterm : s.terms st = none)
    (hfresh : after.id2str id = none)
    (hlist : ¬st.size ≤ inlineKeyMax → ∀ id' ∈ listOf db (hash128 st), db.id2str id' ≠ some st)
    (hid2str : after'.id2str = Function.update after.id2str id (some st))
    (hstr2id : after'.str2id = Function.update after.str2id (dictionaryKey hash128 st).1 (some (listFor hash128 r st id))) :
    ScopeDict hash128 db after' (minting hash128 r st id s) := by
  have hnostring : s.strings id = none := by
    cases hstr : s.strings id with
    | none => rfl
    | some st' =>
      rw [h.rows, hstr] at hfresh
      cases hfresh
  have hnorow : db.id2str id = none := by
    rw [h.rows, hnostring] at hfresh
    exact hfresh
  refine ⟨fun id' => ?_, fun st' id' => ?_, fun id' st' hstr => ?_, fun st' hsize' => ?_, fun d => ?_⟩
  · by_cases hid : id' = id
    · subst hid
      simp [hid2str, minting]
    · simp [hid2str, minting, hid, h.rows]
  · by_cases hst : st' = st
    · subst hst
      by_cases hid : id' = id
      · subst hid
        simp [minting]
      · have hne : s.strings id' ≠ some st' := fun hstr => by
          rw [← h.inverse, hterm] at hstr
          cases hstr
        simp [minting, hid, hne, Ne.symm hid]
    · by_cases hid : id' = id
      · subst hid
        have hne : s.terms st' ≠ some id' := fun ht => by
          rw [h.inverse, hnostring] at ht
          cases ht
        simp [minting, hst, hne, Ne.symm hst]
      · simp [minting, hst, hid, h.inverse]
  · by_cases hid : id' = id
    · subst hid
      exact hnorow
    · simp only [minting, Function.update_of_ne hid] at hstr
      exact h.minted id' st' hstr
  · rw [hstr2id]
    by_cases hst : st' = st
    · subst hst
      simp [dictionaryKey_exact hsize', minting, listFor, hsize']
    · have hkey : DictKey.exact st' ≠ (dictionaryKey hash128 st).1 := by
        unfold dictionaryKey
        split
        · simpa using hst
        · simp
      rw [Function.update_of_ne hkey, h.exact st' hsize']
      simp [minting, hst]
  · obtain ⟨new, hnew, hcand, hafter, hold⟩ := h.hashed d
    by_cases hkey : ¬st.size ≤ inlineKeyMax ∧ hash128 st = d
    · -- the new id joins the candidates of this key
      obtain ⟨hsize, rfl⟩ := hkey
      have hcands : r.candidatesFor (.hashed (hash128 st)) = listOf db (hash128 st) ++ new := by
        unfold candidatesFor
        rw [hs, Option.bind_some, hcand]
        by_cases hnil : new = []
        · rw [if_pos hnil, hnil, List.append_nil, hdb]
          rfl
        · rw [if_neg hnil]
      refine ⟨new ++ [id], fun id' => ?_, ?_, ?_, fun id' hid' st' hstr => ?_⟩
      · rw [List.mem_append, List.mem_singleton, hnew]
        by_cases hid : id' = id
        · subst hid
          simp [minting, Nat.lt_of_not_le hsize]
        · simp [minting, hid]
      · simp [minting, hsize, listFor, hcands]
      · rw [hstr2id, dictionaryKey_hashed hsize]
        simp [minting, hsize]
      · by_cases hid : id' = id
        · subst hid
          simp only [minting, Function.update_self, Option.some.injEq] at hstr
          subst hstr
          exact hlist hsize
        · simp only [minting, Function.update_of_ne hid] at hstr
          rcases List.mem_append.1 hid' with hid' | hid'
          · exact hold id' hid' st' hstr
          · exact absurd (List.mem_singleton.1 hid') hid
    · have hkey' : DictKey.hashed d ≠ (dictionaryKey hash128 st).1 := by
        unfold dictionaryKey
        split
        · simp
        · rename_i hsize
          intro he
          injection he with he
          exact hkey ⟨hsize, he.symm⟩
      have hsame : (minting hash128 r st id s).candidates (.hashed d) = s.candidates (.hashed d) := by
        simp only [minting]
        split
        · rfl
        · rename_i hsize
          rw [Function.update_of_ne]
          intro he
          injection he with he
          exact hkey ⟨hsize, he.symm⟩
      refine ⟨new, fun id' => ?_, by rw [hsame]; exact hcand, by rw [hsame, hstr2id, Function.update_of_ne hkey']; exact hafter,
        fun id' hid' st' hstr => ?_⟩
      · rw [hnew]
        by_cases hid : id' = id
        · subst hid
          simp only [minting, Function.update_self, hnostring, Option.some.injEq, reduceCtorEq, false_and, exists_false, false_iff]
          rintro ⟨st', rfl, hsize, hhash⟩
          exact hkey ⟨hsize, hhash⟩
        · simp [minting, hid]
      · by_cases hid : id' = id
        · subst hid
          obtain ⟨st'', hstr'', -, -⟩ := (hnew id').1 hid'
          rw [hnostring] at hstr''
          cases hstr''
        · simp only [minting, Function.update_of_ne hid] at hstr
          exact hold id' hid' st' hstr

/-- A new term keeps the invariant. -/
theorem Dict.allocate {ops ops' : List Pending} {tag : Tag} {st : StoredTerm} {id : TermId} (h : Dict hash128 r ops)
    (htag : issues tag = true) (hterm : ∀ s, r.scope = some s → s.terms st = none)
    (hlist : ¬st.size ≤ inlineKeyMax → ∀ id' ∈ listOf r.db (hash128 st), r.db.id2str id' ≠ some st)
    (halloc : r.allocate hash128 tag st ops = some (.ok (id, ops'), r')) : Dict hash128 r' ops' ∧ Interned r r' := by
  obtain ⟨id', hid, hout⟩ := allocate_eq halloc
  cases hout
  obtain ⟨hidtag, hpay⟩ := TermId.checked_eq_some hid
  have hint : Interned r { r with
      next := Function.update r.next tag (r.next tag + 1), scope := r.scope.map (minting hash128 r st id) } := by
    refine ⟨rfl, rfl, rfl, rfl, fun t => ?_, fun hs => by simp [hs], fun s hs => ⟨_, _, _, by rw [hs]; rfl⟩⟩
    by_cases ht : t = tag
    · subst ht
      simp
    · simp [ht]
  have hfresh : (r.applied.write ops).id2str id = none := by
    cases hrow : (r.applied.write ops).id2str id with
    | none => rfl
    | some st' =>
      have := (h.applied.fresh id st' hrow).2
      rw [hidtag, hpay] at this
      exact absurd this (lt_irrefl _)
  obtain ⟨hid2str, hstr2id⟩ := write_minted (r.applied.write ops) tag (r.next tag + 1) id st (dictionaryKey hash128 st).1
    (listFor hash128 r st id)
  have hmono : ∀ id' st', (r.applied.write ops).id2str id' = some st' →
      Function.update (r.applied.write ops).id2str id (some st) id' = some st' := by
    intro id' st' hrow
    rw [Function.update_of_ne (fun he => by rw [he, hfresh] at hrow; cases hrow)]
    exact hrow
  refine ⟨⟨h.db.mono hint.next, ?_, ?_, ?_⟩, hint⟩
  all_goals rw [hint.applied, write_append]
  · refine ⟨fun id' st' hrow => ?_, fun st' ids hkey => ?_, fun d ids hkey id' hid' => ?_⟩
    · rw [hid2str] at hrow
      by_cases he : id' = id
      · subst he
        exact ⟨hidtag ▸ htag, by simp [hidtag, hpay]⟩
      · rw [Function.update_of_ne he] at hrow
        exact ⟨(h.applied.fresh id' st' hrow).1, lt_of_lt_of_le (h.applied.fresh id' st' hrow).2 (hint.next _)⟩
    · rw [hstr2id] at hkey
      by_cases hk : DictKey.exact st' = (dictionaryKey hash128 st).1
      · rw [hk, Function.update_self] at hkey
        cases hkey
        unfold dictionaryKey at hk
        split_ifs at hk with hsize
        exact ⟨id, by simp [listFor, hsize]⟩
      · rw [Function.update_of_ne hk] at hkey
        exact h.applied.exact st' ids hkey
    · rw [hstr2id] at hkey
      rw [hid2str]
      by_cases hk : DictKey.hashed d = (dictionaryKey hash128 st).1
      · rw [hk, Function.update_self] at hkey
        cases hkey
        unfold dictionaryKey at hk
        split_ifs at hk with hsize
        injection hk with hk
        subst hk
        simp only [listFor, if_neg hsize, List.mem_append, List.mem_singleton] at hid'
        rcases hid' with hid' | rfl
        · obtain ⟨st', t, hrow, hwhole⟩ := h.candidates_whole _ id' hid'
          exact ⟨st', t, hmono id' st' hrow, hwhole⟩
        · obtain ⟨t, ht⟩ := whole_of_large hsize
          exact ⟨st, t, Function.update_self _ _ _, ht⟩
      · rw [Function.update_of_ne hk] at hkey
        obtain ⟨st', t, hrow, hwhole⟩ := h.applied.hashed d ids hkey id' hid'
        exact ⟨st', t, hmono id' st' hrow, hwhole⟩
  · intro id' st' hrow
    rw [hid2str]
    exact hmono id' st' (h.grown id' st' hrow)
  · intro s' hs'
    obtain ⟨s, hs, rfl⟩ := Option.map_eq_some_iff.1 hs'
    exact (h.scope s hs).mint rfl hs (hterm s hs) hfresh hlist hid2str hstr2id

/-- Rows gathered, none of them of the index. -/
def Gathers (ops ops' : List Pending) : Prop := ∃ more, ops' = ops ++ more ∧ ∀ op ∈ more, beside op = true

theorem Gathers.refl (ops : List Pending) : Gathers ops ops := ⟨[], by simp, by simp⟩

theorem Gathers.trans {ops ops' ops'' : List Pending} (h : Gathers ops ops') (h' : Gathers ops' ops'') : Gathers ops ops'' := by
  obtain ⟨more, rfl, hmore⟩ := h
  obtain ⟨more', rfl, hmore'⟩ := h'
  refine ⟨more ++ more', by simp, fun op hop => ?_⟩
  rcases List.mem_append.1 hop with hop | hop
  · exact hmore op hop
  · exact hmore' op hop

/-- What interning a term does, when it returns. -/
structure Interns (hash128 : StoredTerm → Hash) (r : RocksStorage) (ops : List Pending) (r' : RocksStorage)
    (ops' : List Pending) : Prop where
  dict : Dict hash128 r' ops'
  interned : Interned r r'
  gathers : Gathers ops ops'

theorem Interns.same {ops : List Pending} (h : Dict hash128 r ops) : Interns hash128 r ops r ops :=
  ⟨h, .refl r, .refl ops⟩

theorem Interns.trans {r'' : RocksStorage} {ops ops' ops'' : List Pending} (h : Interns hash128 r ops r' ops')
    (h' : Interns hash128 r' ops' r'' ops'') : Interns hash128 r ops r'' ops'' :=
  ⟨h'.dict, h.interned.trans h'.interned, h.gathers.trans h'.gathers⟩

theorem intern_interns {ops ops' : List Pending} {tag : Tag} {st : StoredTerm} {t : Term} {id : TermId} (h : Dict hash128 r ops)
    (htag : issues tag = true) (ht : ¬st.size ≤ inlineKeyMax → StoredTerm.whole st = some t)
    (hok : r.intern hash128 X tag st t ops = some (.ok (id, ops'), r')) : Interns hash128 r ops r' ops' := by
  unfold intern at hok
  split at hok
  · cases hok
    exact .same h
  · rename_i hnone
    split at hok
    · cases hok
    · cases hok
      exact .same h
    · rename_i hresolve
      have hterm : ∀ s, r.scope = some s → s.terms st = none := by
        intro s hs
        rw [hs] at hnone
        exact hnone
      have hlist : ¬st.size ≤ inlineKeyMax → ∀ id' ∈ listOf r.db (hash128 st), r.db.id2str id' ≠ some st := by
        intro hsize id' hid' hrow
        rw [dictionaryKey_hashed hsize, h.resolve_hashed (ht hsize)] at hresolve
        have hfind := List.find?_eq_none.1 (Except.ok.inj hresolve) id' hid'
        simp [h.row_of_db hrow] at hfind
      obtain ⟨hdict, hint⟩ := h.allocate htag hterm hlist hok
      refine ⟨hdict, hint, ?_⟩
      obtain ⟨id', -, hout⟩ := allocate_eq hok
      cases hout
      exact ⟨_, rfl, by simp [beside]⟩

theorem encodeNamedNode_interns {ops ops' : List Pending} {n : NamedNode} {id : TermId} (h : Dict hash128 r ops)
    (hok : r.encodeNamedNode hash128 X n ops = some (.ok (id, ops'), r')) : Interns hash128 r ops r' ops' := by
  unfold encodeNamedNode at hok
  split at hok
  · cases hok
    exact .same h
  · exact intern_interns h rfl (fun _ => rfl) hok

theorem encodeSubject_interns {ops ops' : List Pending} {s : NamedOrBlankNode} {id : TermId} (h : Dict hash128 r ops)
    (hok : r.encodeSubject hash128 X ops s = some (.ok (id, ops'), r')) : Interns hash128 r ops r' ops' := by
  cases s with
  | namedNode n => exact encodeNamedNode_interns h hok
  | blankNode b => exact intern_interns h rfl (fun _ => rfl) hok

theorem andThen_ok {α β : Type} {x : Option (Except StorageError α × RocksStorage)}
    {f : α → RocksStorage → Option (Except StorageError β × RocksStorage)} {b : β} (h : andThen x f = some (.ok b, r')) :
    ∃ a r₁, x = some (.ok a, r₁) ∧ f a r₁ = some (.ok b, r') := by
  unfold andThen at h
  split at h
  · cases h
  · cases h
  · exact ⟨_, _, rfl, h⟩

theorem encodeInto_interns {ops ops' : List Pending} {t : Term} {id : TermId} (h : Dict hash128 r ops)
    (hok : r.encodeInto hash128 X ops t = some (.ok (id, ops'), r')) : Interns hash128 r ops r' ops' := by
  induction t generalizing r r' ops ops' id with
  | namedNode n => exact encodeNamedNode_interns h hok
  | blankNode b => exact intern_interns h rfl (fun _ => rfl) hok
  | literal l =>
    unfold encodeInto at hok
    split at hok
    · cases hok
      exact .same h
    · exact intern_interns h rfl (fun _ => rfl) hok
  | triple subject predicate object ih =>
    unfold encodeInto at hok
    obtain ⟨⟨s, ops₁⟩, r₁, h₁, hok⟩ := andThen_ok hok
    obtain ⟨⟨p, ops₂⟩, r₂, h₂, hok⟩ := andThen_ok hok
    obtain ⟨⟨o, ops₃⟩, r₃, h₃, hok⟩ := andThen_ok hok
    have i₁ := encodeSubject_interns h h₁
    have i₂ := encodeNamedNode_interns i₁.dict h₂
    have i₃ := ih i₂.dict h₃
    have i₄ := intern_interns i₃.dict rfl (fun hsize => absurd (triple_exact s p o) hsize) hok
    exact i₁.trans (i₂.trans (i₃.trans i₄))

/-! ## Writes and scopes keep the dictionary -/

theorem write_offDictionary (db : Db) {ops : List Pending} (h : ∀ op ∈ ops, offDictionary op = true) :
    (db.write ops).id2str = db.id2str ∧ (db.write ops).str2id = db.str2id := by
  unfold Db.write
  induction ops generalizing db with
  | nil => exact ⟨rfl, rfl⟩
  | cons op ops ih =>
    rw [List.foldl_cons]
    obtain ⟨h₁, h₂⟩ := ih (db.apply op) (fun o ho => h o (List.mem_cons_of_mem _ ho))
    have hop := h op List.mem_cons_self
    rw [h₁, h₂]
    cases op with
    | putId2str | putStr2id => cases hop
    | _ => exact ⟨rfl, rfl⟩

/-- The invariant looks at the dictionary families alone. -/
theorem DbDict.congr {next : Tag → Nat} {db db' : Db} (h : DbDict next db) (h₁ : db'.id2str = db.id2str)
    (h₂ : db'.str2id = db.str2id) : DbDict next db' :=
  ⟨by rw [h₁]; exact h.fresh, by rw [h₂]; exact h.exact, by rw [h₁, h₂]; exact h.hashed⟩

theorem ScopeDict.congr {db after db' after' : Db} {s s' : ScopeState} (h : ScopeDict hash128 db after s)
    (h₁ : db'.id2str = db.id2str) (h₂ : db'.str2id = db.str2id) (h₃ : after'.id2str = after.id2str)
    (h₄ : after'.str2id = after.str2id) (ht : s'.terms = s.terms) (hs : s'.strings = s.strings)
    (hc : s'.candidates = s.candidates) : ScopeDict hash128 db' after' s' := by
  have hl : ∀ d, listOf db' d = listOf db d := fun d => by rw [listOf, listOf, h₂]
  refine ⟨?_, ?_, ?_, ?_, ?_⟩
  · rw [h₁, h₃, hs]; exact h.rows
  · rw [ht, hs]; exact h.inverse
  · rw [h₁, hs]; exact h.minted
  · rw [h₂, h₄, ht]; exact h.exact
  · rw [h₁, h₂, h₄, hs, hc]
    simp only [hl]
    exact h.hashed

theorem Dict.landedOff {ops : List Pending} {onQuads : Overlay EncodedQuad → Overlay EncodedQuad}
    {onGraphs : Overlay TermId → Overlay TermId} (h : Dict hash128 r []) (hland : Landed r r' ops onQuads onGraphs)
    (hnext : r'.next = r.next) (hops : ∀ op ∈ ops, offDictionary op = true) : Dict hash128 r' [] := by
  have happlied : r'.applied.id2str = r.applied.id2str ∧ r'.applied.str2id = r.applied.str2id := by
    rw [hland.applied]
    exact write_offDictionary _ hops
  cases hs : r.scope with
  | none =>
    obtain ⟨h₁, h₂⟩ := hland.none hs
    have hdb : r'.db = r'.applied := by simp only [RocksStorage.applied, h₁]
    have hall : DbDict r'.next r'.applied := by
      rw [hnext]
      exact h.applied.congr happlied.1 happlied.2
    exact ⟨by rw [hdb]; exact hall, hall, fun _ _ hid => by rw [hdb] at hid; exact hid,
      fun s hs' => by rw [h₁] at hs'; cases hs'⟩
  | some s =>
    obtain ⟨h₁, h₂⟩ := hland.some s hs
    refine ⟨by rw [h₁, hnext]; exact h.db, by rw [hnext]; exact h.applied.congr happlied.1 happlied.2, ?_, ?_⟩
    · intro id st hid
      rw [h₁] at hid
      exact (congrFun happlied.1 id).trans (h.grown id st hid)
    · intro s' hs'
      rw [h₂] at hs'
      cases hs'
      rw [h₁]
      exact (h.scope s hs).congr rfl rfl happlied.1 happlied.2 rfl rfl rfl

/-! ## Steps -/

/-- Both invariants. -/
structure Good (hash128 : StoredTerm → Hash) (r : RocksStorage) (a : Storage.Scoped) : Prop where
  sim : Sim r a
  dict : Dict hash128 r []

theorem new_good : Good hash128 new .new :=
  ⟨new_sim, ⟨.new, .new, fun _ _ h => h, fun _ h => by cases h⟩⟩

theorem Good.write (h : Good hash128 r a) {op : Index.Op} {b : Bool} (hok : r.write op = (.ok b, r')) :
    Good hash128 r' (a.step (.write op)) ∧ b = a.current.changes op := by
  have hwrote := write_wrote h.sim hok
  obtain ⟨ops, f, g, hland, hops⟩ := hwrote.landed
  exact ⟨⟨hwrote.sim, h.dict.landedOff hland hwrote.next hops⟩, hwrote.reply⟩

/-- Rows gathered by an encode, handed over. -/
theorem Good.handOver {r₁ : RocksStorage} {ops : List Pending} (h : Good hash128 r a) (hint : Interns hash128 r [] r₁ ops)
    (hok : r₁.commitOps ops = (.ok (), r')) : Good hash128 r' a := by
  obtain ⟨hland, hcount, hcounts, -, hnext⟩ := commitOps_landed hok
  obtain ⟨more, hmore, hbeside⟩ := hint.gathers
  rw [List.nil_append] at hmore
  subst hmore
  have hi := hint.interned
  have happlied : r'.applied = r.applied.write ops := by rw [hland.applied, hi.applied]
  have hindex : r'.applied.index = r.applied.index := by rw [happlied, write_beside _ hbeside]
  have hall : DbDict r'.next r'.applied := by
    rw [happlied, hnext, ← hi.applied]
    exact hint.dict.applied
  cases hs : r.scope with
  | none =>
    have hs₁ := hi.none hs
    obtain ⟨h₁, h₂⟩ := hland.none hs₁
    have hdb : r'.db = r'.applied := by simp only [RocksStorage.applied, h₁]
    have hold : r.applied = r.db := by simp only [RocksStorage.applied, hs]
    refine ⟨⟨by rw [hindex]; exact h.sim.applied, ?_, by rw [h₁, ← h.sim.scope, hs], ?_, ?_, hcount.trans
      (hi.quadCount.trans h.sim.quadCount), fun p => by rw [hcounts, hi.predicateCounts]; exact h.sim.counts p, ?_, ?_⟩,
      ⟨by rw [hdb]; exact hall, hall, fun _ _ hid => by rw [hdb] at hid; exact hid, ?_⟩⟩
    · rw [hdb, hindex, hold]
      exact h.sim.db
    all_goals intro s hs'; rw [h₁] at hs'; cases hs'
  | some s =>
    obtain ⟨terms, strings, candidates, hs₁⟩ := hi.some s hs
    obtain ⟨h₁, h₂⟩ := hland.some _ hs₁
    refine ⟨⟨by rw [hindex]; exact h.sim.applied, by rw [h₁, hi.db]; exact h.sim.db, by rw [h₂, ← h.sim.scope, hs]; rfl, ?_, ?_,
      hcount.trans (hi.quadCount.trans h.sim.quadCount),
      fun p => by rw [hcounts, hi.predicateCounts]; exact h.sim.counts p, ?_, ?_⟩, ⟨?_, hall, ?_, ?_⟩⟩
    · intro s' hs'
      rw [h₂] at hs'
      cases hs'
      exact h.sim.quads s hs
    · intro s' hs'
      rw [h₂] at hs'
      cases hs'
      exact h.sim.graphs s hs
    · intro s' hs'
      rw [h₂] at hs'
      cases hs'
      exact h.sim.savedCount s hs
    · intro s' hs'
      rw [h₂] at hs'
      cases hs'
      exact h.sim.savedCounts s hs
    · rw [h₁, hnext]
      exact hint.dict.db
    · intro id st hid
      rw [h₁] at hid
      change r'.applied.id2str id = some st
      rw [happlied, ← hi.applied]
      exact hint.dict.grown id st hid
    · intro s' hs'
      rw [h₂] at hs'
      cases hs'
      have hscope := hint.dict.scope _ hs₁
      rw [h₁]
      refine hscope.congr rfl rfl ?_ ?_ rfl rfl rfl
      · change r'.applied.id2str = _
        rw [happlied, hi.applied]
      · change r'.applied.str2id = _
        rw [happlied, hi.applied]

theorem Good.encode (h : Good hash128 r a) {t : Term} {id : TermId} (hok : r.encode hash128 X t = some (.ok id, r')) :
    Good hash128 r' a := by
  unfold RocksStorage.encode at hok
  obtain ⟨⟨id', ops⟩, r₁, hinto, hok⟩ := andThen_ok hok
  simp only at hok
  split at hok
  · rename_i r₂ hcommit
    cases hok
    exact h.handOver (encodeInto_interns h.dict hinto) hcommit
  · cases hok

theorem Good.begin (h : Good hash128 r a) (hok : r.begin = .ok r') : Good hash128 r' (a.step .begin) := by
  unfold RocksStorage.begin at hok
  split_ifs at hok with hscope
  cases hok
  have hs : r.scope = none := Option.not_isSome_iff_eq_none.1 hscope
  have hsaved := h.sim.saved_none hs
  have hbase := h.sim.base_none hs
  have hstep : a.step .begin = ⟨a.current, some a.current⟩ := by simp [Storage.Scoped.step, hsaved]
  have hdb : Index.Holds r.db.index a.current.quads a.current.graphs := hbase ▸ h.sim.db
  rw [hstep]
  refine ⟨⟨hdb, hdb, rfl, ?_, ?_, h.sim.quadCount, h.sim.counts, ?_, ?_⟩,
    ⟨h.dict.db, h.dict.db, fun _ _ hid => hid, ?_⟩⟩
  all_goals intro s hs'; cases hs'
  · exact .empty _
  · exact .empty _
  · exact h.sim.quadCount
  · exact h.sim.counts
  · refine ⟨fun id => ?_, fun st id => by simp, fun id st hstr => (by cases hstr), fun st _ => ?_,
      fun d => ⟨[], by simp, rfl, ?_, by simp⟩⟩
    · rfl
    · rfl
    · rfl

theorem Good.commit (h : Good hash128 r a) (hok : r.commit = .ok r') : Good hash128 r' (a.step .commit) ∧ r' = r.landed := by
  unfold RocksStorage.commit at hok
  cases hs : r.scope with
  | none => rw [hs] at hok; cases hok
  | some s =>
    rw [hs] at hok
    cases hok
    have happlied : r.applied = r.db.write s.pending := by simp only [RocksStorage.applied, hs]
    have heq : ({ r with db := r.db.write s.pending, scope := none } : RocksStorage) = r.landed := by
      rw [RocksStorage.landed, happlied]
    refine ⟨?_, heq⟩
    rw [heq]
    refine ⟨⟨h.sim.applied, h.sim.applied, rfl, ?_, ?_, h.sim.quadCount, h.sim.counts, ?_, ?_⟩, h.dict.landed⟩
    all_goals intro s hs'; cases hs'

theorem Good.rollback (h : Good hash128 r a) : Good hash128 r.rollback (a.step .rollback) := by
  cases hs : r.scope with
  | none =>
    have hsaved := h.sim.saved_none hs
    have hstep : a.step .rollback = a := by
      obtain ⟨c, s⟩ := a
      simp only at hsaved
      subst hsaved
      rfl
    rw [hstep, RocksStorage.rollback, hs]
    exact h
  | some s =>
    have hdb := h.sim.db
    have heq : r.rollback = { r with quadCount := s.quadCount, predicateCounts := s.predicateCounts, generation := s.generation, scope := none } := by
      rw [RocksStorage.rollback, hs]
    rw [heq]
    refine ⟨⟨hdb, hdb, rfl, ?_, ?_, h.sim.savedCount s hs, h.sim.savedCounts s hs, ?_, ?_⟩,
      ⟨h.dict.db, h.dict.db, fun _ _ hid => hid, ?_⟩⟩
    all_goals intro s hs'; cases hs'

theorem Good.step (h : Good hash128 r a) {op : Storage.Op} {reply : Storage.Reply}
    (hstep : r.step hash128 X op = some (reply, r')) (hok : reply.isOk = true) :
    Good hash128 r' (a.step op) ∧ (∀ x, a.reply op = some x → reply = x) := by
  cases op with
  | encode t =>
    obtain ⟨⟨res, r₁⟩, he, heq⟩ := Option.map_eq_some_iff.1 hstep
    cases heq
    cases res with
    | error e => cases hok
    | ok id => exact ⟨h.encode he, fun x hx => by cases hx⟩
  | write op =>
    simp only [RocksStorage.step] at hstep
    cases hw : r.write op with
    | mk res r₁ =>
      rw [hw] at hstep
      cases hstep
      cases res with
      | error e => cases hok
      | ok b =>
        obtain ⟨hgood, hb⟩ := h.write hw
        exact ⟨hgood, fun x hx => by cases hx; rw [hb]⟩
  | begin =>
    simp only [RocksStorage.step] at hstep
    cases hb : r.begin with
    | ok r₁ =>
      rw [hb] at hstep
      cases hstep
      refine ⟨h.begin hb, fun x hx => ?_⟩
      have hscope : r.scope.isSome = false := by
        unfold RocksStorage.begin at hb
        split_ifs at hb with hs
        exact Bool.not_eq_true _ ▸ hs
      cases hx
      rw [← h.sim.scope, hscope]
      rfl
    | error e =>
      rw [hb] at hstep
      cases hstep
      unfold RocksStorage.begin at hb
      split_ifs at hb with hs
      cases hb
      have hsaved : a.saved.isSome = true := by rw [← h.sim.scope, hs]
      refine ⟨by simpa only [Storage.Scoped.step, hsaved, if_true] using h, fun x hx => ?_⟩
      cases hx
      rw [if_pos hsaved]
  | commit =>
    simp only [RocksStorage.step] at hstep
    cases hc : r.commit with
    | ok r₁ =>
      rw [hc] at hstep
      cases hstep
      refine ⟨(h.commit hc).1, fun x hx => ?_⟩
      have hsaved : a.saved.isSome = true := by
        rw [← h.sim.scope]
        unfold RocksStorage.commit at hc
        cases hs : r.scope with
        | none => rw [hs] at hc; cases hc
        | some s => rfl
      cases hx
      rw [if_pos hsaved]
    | error e =>
      rw [hc] at hstep
      cases hstep
      have hs : r.scope = none := by
        unfold RocksStorage.commit at hc
        cases hs : r.scope with
        | none => rfl
        | some s => rw [hs] at hc; cases hc
      have he : e = Storage.notOpen := by
        unfold RocksStorage.commit at hc
        rw [hs] at hc
        cases hc
        rfl
      have hsaved := h.sim.saved_none hs
      have hstep : a.step .commit = a := by
        obtain ⟨c, s⟩ := a
        simp only at hsaved
        subst hsaved
        rfl
      rw [hstep]
      refine ⟨h, fun x hx => ?_⟩
      cases hx
      rw [hsaved, he]
      rfl
  | rollback =>
    cases hstep
    exact ⟨h.rollback, fun x hx => by cases hx; rfl⟩

theorem run_cons {op : Storage.Op} {ops : List Storage.Op} {replies : List Storage.Reply}
    (h : run hash128 X r (op :: ops) = some (replies, r')) :
    ∃ reply rest r₁, step hash128 X r op = some (reply, r₁) ∧ run hash128 X r₁ ops = some (rest, r') ∧
      replies = reply :: rest := by
  simp only [run, Option.bind_eq_bind, Option.bind_eq_some_iff, Prod.exists] at h
  obtain ⟨reply, r₁, hstep, rest, r₂, hrun, heq⟩ := h
  cases heq
  exact ⟨reply, rest, r₁, hstep, hrun, rfl⟩

theorem Good.run (h : Good hash128 r a) {ops : List Storage.Op} {replies : List Storage.Reply}
    (hrun : r.run hash128 X ops = some (replies, r')) (hok : ∀ reply ∈ replies, reply.isOk = true) :
    Good hash128 r' (a.run ops) := by
  induction ops generalizing r a replies with
  | nil =>
    cases hrun
    exact h
  | cons op ops ih =>
    obtain ⟨reply, rest, r₁, hstep, hrest, rfl⟩ := run_cons hrun
    exact ih (h.step hstep (hok reply List.mem_cons_self)).1 hrest (fun x hx => hok x (List.mem_cons_of_mem _ hx))

end Holos.RocksStorage
