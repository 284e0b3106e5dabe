import Holos.Store.BulkDictionary
/-!
# Candidates under hashed keys

Long terms that hash alike share a row, whose value is the list of their ids. A term is lost if
that list leaves its id out. Every list is built from one that is read and put back whole: in a
scope from the scope's, in the database from the database's, and in a load from the database's
too, though the window in flight may have a newer one.

`KeysListed` says that no id is left out and no term has two. It holds of every state of a run in
which a long term is encoded in a load only while the window in flight has no row of its key.
-/

namespace Holos

open Lib
open RocksStorage (Rows Mints Next Interned Off find findTerm findNode listOf offDictionary write_minted resolve_eq)

/-- The serialised form of a term that is not built of others. -/
def Term.serialised : Term → Option StoredTerm
  | .namedNode n => some (.iri n)
  | .blankNode b => some (.blank b)
  | .literal l => some (.literal l)
  | .triple _ _ _ => none

def StoredTerm.long (st : StoredTerm) : Prop := ¬st.size ≤ inlineKeyMax

/-! ## Complete lists -/

/-- Every long term is among the candidates of its hash, and has one id. -/
structure KeysListed (hash128 : StoredTerm → Hash) (db : Db) : Prop where
  candidate : ∀ id st, db.id2str id = some st → st.long → id ∈ listOf db (hash128 st)
  unique : ∀ id id' st, db.id2str id = some st → db.id2str id' = some st → st.long → id = id'

namespace KeysListed

variable {hash128 : StoredTerm → Hash} {next : Tag → Nat} {db db' : Db} {st : StoredTerm} {id : TermId}

theorem new : KeysListed hash128 Db.new := ⟨fun _ _ h => (by cases h), fun _ _ _ h => (by cases h)⟩

theorem congr (h : KeysListed hash128 db) (h₁ : db'.id2str = db.id2str) (h₂ : db'.str2id = db.str2id) : KeysListed hash128 db' := by
  refine ⟨?_, ?_⟩
  · unfold listOf
    rw [h₁, h₂]
    exact h.candidate
  · rw [h₁]
    exact h.unique

/-- A long term is found under its id. -/
theorem find (h : KeysListed hash128 db) (hrow : db.id2str id = some st) (hlong : st.long) :
    find hash128 db st = some id := by
  unfold RocksStorage.find
  rw [if_neg hlong]
  refine RocksStorage.find?_of_unique (h.candidate id st hrow hlong) (fun i _ => ?_)
  rw [decide_eq_true_iff]
  constructor
  · exact fun hi => h.unique i id st hi hrow hlong
  · rintro rfl
    exact hrow

/-- A long term that is not found has no id. -/
theorem not_row (h : KeysListed hash128 db) (hlong : st.long) (hf : RocksStorage.find hash128 db st = none) :
    db.id2str id ≠ some st := by
  intro hrow
  rw [h.find hrow hlong] at hf
  cases hf

/-- A new term, and under its key a list that has its id: no other list may shrink. -/
theorem mints (h : KeysListed hash128 db) (hm : Mints db db' st id) (hfresh : db.id2str id = none)
    (hgrows : ∀ d i, i ∈ listOf db d → i ∈ listOf db' d) (hin : st.long → id ∈ listOf db' (hash128 st))
    (hnew : st.long → ∀ i, db.id2str i ≠ some st) : KeysListed hash128 db' := by
  refine ⟨fun i st' hi hlong => ?_, fun i i' st' hi hi' hlong => ?_⟩
  · by_cases he : i = id
    · subst he
      cases hm.row.symm.trans hi
      exact hin hlong
    · rw [hm.rows, Function.update_of_ne he] at hi
      exact hgrows _ _ (h.candidate i st' hi hlong)
  · have hold : ∀ j, j ≠ id → db'.id2str j = some st' → db.id2str j = some st' := by
      intro j hj hrow
      rw [hm.rows, Function.update_of_ne hj] at hrow
      exact hrow
    by_cases he : i = id <;> by_cases he' : i' = id
    · rw [he, he']
    · subst he
      cases hm.row.symm.trans hi
      exact absurd (hold i' he' hi') (hnew hlong i')
    · subst he'
      cases hm.row.symm.trans hi'
      exact absurd (hold i he hi) (hnew hlong i)
    · exact h.unique i i' st' (hold i he hi) (hold i' he' hi') hlong

end KeysListed

/-! ## In the database and in scopes -/

namespace RocksStorage

variable {hash128 : StoredTerm → Hash} {X : Inline.Datatypes} {r r' : RocksStorage}

/-- The lists of the database and of what a commit would leave, and what the scope's maps say of
them. -/
structure Lists (hash128 : StoredTerm → Hash) (r : RocksStorage) : Prop where
  db : KeysListed hash128 r.db
  applied : KeysListed hash128 r.applied
  candidates : ∀ s, r.scope = some s → ∀ d, r.applied.str2id (.hashed d) = (s.candidates (.hashed d)).or (r.db.str2id (.hashed d))
  terms : ∀ s, r.scope = some s → ∀ id st, r.applied.id2str id = some st → r.db.id2str id = some st ∨ s.terms st = some id

theorem KeysListed.lists (h : KeysListed hash128 r.db) (hs : r.scope = none) : Lists hash128 r := by
  refine ⟨h, ?_, fun s hs' => ?_, fun s hs' => ?_⟩
  · simp only [RocksStorage.applied, hs]
    exact h
  all_goals
    rw [hs] at hs'
    cases hs'

/-- What the list under a hashed key is, where a new id is appended to it. -/
theorem Lists.candidatesFor (h : Lists hash128 r) (d : Hash) : r.candidatesFor (.hashed d) = listOf r.applied d := by
  unfold RocksStorage.candidatesFor listOf
  cases hs : r.scope with
  | none => simp only [Option.bind_none, RocksStorage.applied, hs]
  | some s =>
    rw [Option.bind_some, h.candidates s hs d]
    cases s.candidates (.hashed d) with
    | none => rfl
    | some list => rfl

/-- What an operation does to the rows a commit would leave: it keeps them, forgets those that
were only buffered, or adds a row under an id not given out before. -/
def Traces (next : Tag → Nat) (db db' : Db) : Prop :=
  ∀ id st, db'.id2str id = some st → db.id2str id = some st ∨ next id.tag ≤ id.payload

theorem Traces.of_eq {next : Tag → Nat} {db db' : Db} (h : db'.id2str = db.id2str) : Traces next db db' :=
  fun _ _ hrow => .inl (h ▸ hrow)

theorem Traces.mints {next : Tag → Nat} {db db' : Db} {st : StoredTerm} {id : TermId} (hm : Mints db db' st id)
    (hn : Next next st id) : Traces next db db' := by
  intro i st' hi
  by_cases he : i = id
  · right
    rw [he, hn.tag, hn.payload]
  · rw [hm.rows, Function.update_of_ne he] at hi
    exact .inl hi

/-- The lists once the rows of a new term are handed over. -/
theorem Lists.mints {st : StoredTerm} {id : TermId} {r₁ : RocksStorage} {ops : List Pending} {res : Except StorageError Unit}
    (h : Lists hash128 r) (hsound : r.Sound []) (hn : Next r.next st id)
    (hterms : ∀ s, r.scope = some s → s.terms st = none) (hfind : find hash128 r.db st = none)
    (hops : ops = [.putDefault (.next st.tag) (r.next st.tag + 1), .putId2str id st,
      .putStr2id (dictionaryKey hash128 st).1 (listFor hash128 r st id)])
    (hr₁ : r₁ = { r with next := Function.update r.next st.tag (r.next st.tag + 1), scope := r.scope.map (minting hash128 r st id) })
    (hcommit : r₁.commitOps ops = (res, r')) : Lists hash128 r' ∧ Mints r.applied r'.applied st id := by
  have hm : Mints r.applied (r.applied.write ops) st id := by
    rw [hops]
    exact @Sound.minted hash128 r [] hsound st id st.tag (r.next st.tag + 1)
  have hfresh : r.applied.id2str id = none := hn.fresh hsound.applied
  obtain ⟨hid2str, hstr2id⟩ := write_minted r.applied st.tag (r.next st.tag + 1) id st (dictionaryKey hash128 st).1
    (listFor hash128 r st id)
  rw [← hops] at hid2str hstr2id
  have hlist : st.long → listOf (r.applied.write ops) (hash128 st) = listOf r.applied (hash128 st) ++ [id] := by
    intro hlong
    change ((r.applied.write ops).str2id _).getD [] = _
    rw [hstr2id, dictionaryKey_hashed hlong, Function.update_self]
    change listFor hash128 r st id = _
    unfold listFor
    rw [if_neg hlong, h.candidatesFor]
  have happlied : KeysListed hash128 (r.applied.write ops) := by
    refine h.applied.mints hm hfresh (fun d i hi => ?_) (fun hlong => ?_) (fun hlong i hi => ?_)
    · by_cases hlong : st.long
      · by_cases hd : d = hash128 st
        · subst hd
          rw [hlist hlong]
          exact List.mem_append_left _ hi
        · have hkey : (r.applied.write ops).str2id (.hashed d) = r.applied.str2id (.hashed d) := by
            rw [hstr2id, dictionaryKey_hashed hlong, Function.update_of_ne (by simpa using hd)]
          unfold listOf
          rw [hkey]
          exact hi
      · have hkey : (r.applied.write ops).str2id (.hashed d) = r.applied.str2id (.hashed d) := by
          rw [hstr2id, dictionaryKey_exact (not_not.1 hlong), Function.update_of_ne (by simp)]
        unfold listOf
        rw [hkey]
        exact hi
    · rw [hlist hlong]
      simp
    · -- a term that is buffered is in the scope's map
      cases hs : r.scope with
      | none =>
        have hdb : r.applied = r.db := by simp only [RocksStorage.applied, hs]
        exact h.db.not_row hlong hfind (hdb ▸ hi)
      | some s =>
        rcases h.terms s hs i st hi with hrow | hterm
        · exact h.db.not_row hlong hfind hrow
        · rw [hterms s hs] at hterm
          cases hterm
  obtain ⟨hland, -, -, -, -⟩ := commitOps_landed hcommit
  have hint : r₁.applied = r.applied := by
    have : Interned r r₁ := by
      rw [hr₁]
      exact ⟨rfl, rfl, rfl, rfl, le_bump r.next st.tag, fun hs => by simp [hs], fun s hs => ⟨_, _, _, by rw [hs]; rfl⟩⟩
    exact this.applied
  have hr' : r'.applied = r.applied.write ops := by rw [hland.applied, hint]
  refine ⟨?_, hr' ▸ hm⟩
  cases hs : r.scope with
  | none =>
    have hs₁ : r₁.scope = none := by rw [hr₁, hs]; rfl
    obtain ⟨h₁, h₂⟩ := hland.none hs₁
    have hdb : r'.db = r.applied.write ops := by
      rw [← hr']
      simp only [RocksStorage.applied, h₁]
    exact KeysListed.lists (hdb ▸ happlied) h₁
  | some s =>
    have hs₁ : r₁.scope = some (minting hash128 r st id s) := by rw [hr₁, hs]; rfl
    have hdb₁ : r₁.db = r.db := by rw [hr₁]
    obtain ⟨h₁, h₂⟩ := hland.some _ hs₁
    refine ⟨by rw [h₁, hdb₁]; exact h.db, hr' ▸ happlied, ?_, ?_⟩
    · intro s' hs' d
      rw [h₂] at hs'
      cases hs'
      rw [hr', h₁, hdb₁, hstr2id]
      by_cases hlong : st.long
      · rw [dictionaryKey_hashed hlong]
        simp only [minting, if_neg hlong]
        by_cases hd : d = hash128 st
        · subst hd
          rw [Function.update_self, Function.update_self]
          rfl
        · rw [Function.update_of_ne (by simpa using hd), Function.update_of_ne (by simpa using hd)]
          exact h.candidates s hs d
      · rw [dictionaryKey_exact (not_not.1 hlong), Function.update_of_ne (by simp)]
        simp only [minting, if_pos (not_not.1 hlong)]
        exact h.candidates s hs d
    · intro s' hs' i st' hi
      rw [h₂] at hs'
      cases hs'
      rw [hr', hid2str] at hi
      rw [h₁, hdb₁]
      simp only [minting]
      by_cases he : i = id
      · subst he
        rw [Function.update_self] at hi
        cases hi
        exact .inr (Function.update_self _ _ _)
      · rw [Function.update_of_ne he] at hi
        rcases h.terms s hs i st' hi with hrow | hterm
        · exact .inl hrow
        · right
          have hne : st' ≠ st := by
            rintro rfl
            rw [hterms s hs] at hterm
            cases hterm
          rw [Function.update_of_ne hne]
          exact hterm

/-- Writes of quads and graphs write no row of the dictionary. -/
theorem Lists.off (h : Lists hash128 r) (hoff : Off r r') : Lists hash128 r' := by
  obtain ⟨h₁, h₂, h₃, h₄⟩ := hoff.families
  obtain ⟨⟨ops, f, g, hland, -⟩, -⟩ := hoff
  have hmaps : ∀ s', r'.scope = some s' → ∃ s, r.scope = some s ∧ s'.candidates = s.candidates ∧ s'.terms = s.terms := by
    intro s' hs'
    cases hs : r.scope with
    | none =>
      rw [(hland.none hs).1] at hs'
      cases hs'
    | some s =>
      rw [(hland.some s hs).2] at hs'
      cases hs'
      exact ⟨s, rfl, rfl, rfl⟩
  refine ⟨h.db.congr h₁ h₂, h.applied.congr h₃ h₄, fun s' hs' => ?_, fun s' hs' => ?_⟩
  · obtain ⟨s, hs, hcandidates, -⟩ := hmaps s' hs'
    rw [h₂, h₄, hcandidates]
    exact h.candidates s hs
  · obtain ⟨s, hs, -, hterms⟩ := hmaps s' hs'
    rw [h₁, h₃, hterms]
    exact h.terms s hs

theorem commitOps_nil_off {res : Except StorageError Unit} (h : r.commitOps [] = (res, r')) : Off r r' :=
  ⟨⟨[], id, id, (commitOps_landed h).1, by simp⟩, (commitOps_landed h).2.2.2.2⟩

/-- Interning a term that is built of no others, and handing its rows over. -/
theorem Lists.intern {st : StoredTerm} {t : Term} {r₁ : RocksStorage} {id : TermId} {ops : List Pending}
    {res : Except StorageError Unit} (h : Lists hash128 r) (hsound : r.Sound []) (ht : StoredTerm.whole st = some t)
    (hintern : r.intern hash128 X st.tag st t [] = some (.ok (id, ops), r₁)) (hcommit : r₁.commitOps ops = (res, r')) :
    Lists hash128 r' ∧ Traces r.next r.applied r'.applied ∧ ∀ tag, r.next tag ≤ r'.next tag := by
  have hsame : r₁ = r → ops = [] → Lists hash128 r' ∧ Traces r.next r.applied r'.applied ∧ ∀ tag, r.next tag ≤ r'.next tag := by
    rintro rfl rfl
    have hoff := commitOps_nil_off hcommit
    exact ⟨h.off hoff, .of_eq hoff.families.2.2.1, fun tag => le_of_eq (congrFun hoff.2 tag).symm⟩
  unfold RocksStorage.intern at hintern
  split at hintern
  · cases hintern
    exact hsame rfl rfl
  · rename_i hterm
    rw [resolve_eq hsound.db hsound.readable (fun _ => ht)] at hintern
    split at hintern
    · cases hintern
    · cases hintern
      exact hsame rfl rfl
    · rename_i hfind
      obtain ⟨i, hi, heq⟩ := allocate_eq hintern
      obtain ⟨hid, rfl⟩ := Prod.mk.inj heq
      obtain ⟨rfl, hops⟩ := Prod.mk.inj (Except.ok.inj hid)
      obtain ⟨htag, hpay⟩ := TermId.checked_eq_some hi
      have hn : Next r.next st id := ⟨htag, hpay⟩
      have hterms : ∀ s, r.scope = some s → s.terms st = none := by
        intro s hs
        rw [hs] at hterm
        exact hterm
      obtain ⟨hlists, hm⟩ := h.mints hsound hn hterms (Except.ok.inj hfind) hops rfl hcommit
      refine ⟨hlists, .mints hm hn, fun tag => ?_⟩
      rw [(commitOps_landed hcommit).2.2.2.2]
      exact le_bump r.next st.tag tag

/-- A term is interned, or its id carries its value. -/
theorem encodeInto_serialised {t : Term} {st : StoredTerm} {out : Except StorageError (TermId × List Pending) × RocksStorage}
    (hst : t.serialised = some st) (h : r.encodeInto hash128 X [] t = some out) :
    (∃ id, out = (.ok (id, []), r)) ∨ r.intern hash128 X st.tag st t [] = some out := by
  cases t with
  | namedNode n =>
    cases hst
    unfold RocksStorage.encodeInto RocksStorage.encodeNamedNode at h
    split at h
    · cases h
      exact .inl ⟨_, rfl⟩
    · exact .inr h
  | blankNode b =>
    cases hst
    exact .inr h
  | literal l =>
    cases hst
    unfold RocksStorage.encodeInto at h
    split at h
    · cases h
      exact .inl ⟨_, rfl⟩
    · exact .inr h
  | triple => cases hst

theorem whole_of_serialised {t : Term} {st : StoredTerm} (h : t.serialised = some st) : StoredTerm.whole st = some t := by
  cases t <;> cases h <;> rfl

theorem Lists.encode {t : Term} {st : StoredTerm} {out : Except StorageError TermId × RocksStorage} (h : Lists hash128 r)
    (hsound : r.Sound []) (hst : t.serialised = some st) (hok : r.encode hash128 X t = some out) :
    Lists hash128 out.2 ∧ Traces r.next r.applied out.2.applied ∧ ∀ tag, r.next tag ≤ out.2.next tag := by
  unfold RocksStorage.encode RocksStorage.andThen at hok
  split at hok
  · cases hok
  · rename_i e r₁ he
    rcases encodeInto_serialised hst he with ⟨id, heq⟩ | hintern
    · cases heq
    · obtain ⟨id, ops', hout, -⟩ := hsound.intern st (fun _ => whole_of_serialised hst)
        (fun _ _ _ heq => by subst heq; cases whole_of_serialised hst) hintern
      cases hout
  · rename_i x r₁ he
    have hdone : ∀ res r₂, r₁.commitOps x.2 = (res, r₂) →
        Lists hash128 r₂ ∧ Traces r.next r.applied r₂.applied ∧ ∀ tag, r.next tag ≤ r₂.next tag := by
      intro res r₂ hcommit
      rcases encodeInto_serialised hst he with ⟨id, heq⟩ | hintern
      · cases heq
        have hoff := commitOps_nil_off hcommit
        exact ⟨h.off hoff, .of_eq hoff.families.2.2.1, fun tag => le_of_eq (congrFun hoff.2 tag).symm⟩
      · exact h.intern hsound (whole_of_serialised hst) hintern hcommit
    simp only at hok
    split at hok
    · rename_i r₂ hcommit
      cases hok
      exact hdone _ _ hcommit
    · rename_i e r₂ hcommit
      cases hok
      exact hdone _ _ hcommit

/-- A step of a storage with no load running. The terms it encodes are built of no others. -/
theorem Lists.step {op : Storage.Op} {reply : Storage.Reply} (h : Lists hash128 r) (hsound : r.Sound [])
    (hop : ∀ t, op = .encode t → ∃ st, t.serialised = some st) (hstep : r.step hash128 X op = some (reply, r')) :
    Lists hash128 r' ∧ Traces r.next r.applied r'.applied ∧ ∀ tag, r.next tag ≤ r'.next tag := by
  have hsame : Lists hash128 r ∧ Traces r.next r.applied r.applied ∧ ∀ tag, r.next tag ≤ r.next tag :=
    ⟨h, .of_eq rfl, fun _ => le_rfl⟩
  cases op with
  | encode t =>
    obtain ⟨st, hst⟩ := hop t rfl
    obtain ⟨out, he, heq⟩ := Option.map_eq_some_iff.1 hstep
    cases heq
    exact h.encode hsound hst he
  | write op =>
    cases hstep
    have hoff := write_off r op
    exact ⟨h.off hoff, .of_eq hoff.families.2.2.1, fun tag => le_of_eq (congrFun hoff.2 tag).symm⟩
  | begin =>
    simp only [RocksStorage.step] at hstep
    split at hstep
    · rename_i r₁ hb
      cases hstep
      unfold RocksStorage.begin at hb
      split_ifs at hb with hs
      cases hb
      have happlied : r.applied = r.db := by simp only [RocksStorage.applied, Option.not_isSome_iff_eq_none.1 hs]
      refine ⟨⟨h.db, h.db, fun s hs' d => ?_, fun s _ id st hrow => .inl hrow⟩, ?_, fun _ => le_rfl⟩
      · cases hs'
        rfl
      · rw [happlied]
        exact .of_eq rfl
    · cases hstep
      exact hsame
  | commit =>
    simp only [RocksStorage.step] at hstep
    split at hstep
    · rename_i r₁ hc
      cases hstep
      unfold RocksStorage.commit at hc
      split at hc
      · cases hc
      · rename_i s hs
        cases hc
        have happlied : r.applied = r.db.write s.pending := by simp only [RocksStorage.applied, hs]
        refine ⟨KeysListed.lists ?_ rfl, ?_, fun _ => le_rfl⟩
        · rw [← happlied]
          exact h.applied
        · rw [happlied]
          exact .of_eq rfl
    · cases hstep
      exact hsame
  | rollback =>
    cases hstep
    unfold RocksStorage.rollback
    split
    · exact hsame
    · exact ⟨KeysListed.lists h.db rfl, fun id st hrow => .inl (hsound.grown id st hrow), fun _ => le_rfl⟩

end RocksStorage

/-! ## In a load -/

theorem DictRuns.merge_push_eq {κ ν : Type} [DecidableEq κ] (combine : κ → ν → ν → ν) (runs : DictRuns κ ν) (budget cost : Nat)
    (key : κ) (value : ν) :
    (runs.push budget cost key value).merge combine = Function.update (runs.merge combine) key
      (some (match runs.merge combine key with
        | some first => combine key first value
        | none => value)) := by
  have hrows : (runs.push budget cost key value).rows = runs.rows ++ [(key, value)] := by
    unfold push
    simp only
    split <;> rfl
  unfold merge
  rw [hrows, List.foldl_append]
  rfl

/-- Candidates that are joined are all kept. -/
theorem mem_combine {d : Hash} {first second : List TermId} {i : TermId} (h : i ∈ first ∨ i ∈ second) :
    i ∈ combine (.hashed d) first second := by
  simp only [combine]
  induction second generalizing first with
  | nil => exact h.resolve_right (by simp)
  | cons id second ih =>
    rw [List.foldl_cons]
    refine ih ?_
    rcases h with h | h
    · left
      split_ifs
      · exact h
      · exact List.mem_append_left _ h
    · rcases List.mem_cons.1 h with rfl | h
      · left
        split_ifs with hin
        · exact hin
        · simp
      · exact .inr h

namespace DictBuffers

/-- A row pushed under a hashed key: its list joins the one of the window. -/
theorem str2idFile_push_joined (dict : DictBuffers) (d : Hash) (ids : List TermId) :
    ∃ list, (dict.pushStr2id (.hashed d) ids).str2idFile = Function.update dict.str2idFile (.hashed d) (some list) ∧
      (∀ i ∈ ids, i ∈ list) ∧ ∀ old, dict.str2idFile (.hashed d) = some old → ∀ i ∈ old, i ∈ list := by
  have hmerge := DictRuns.merge_push_eq combine dict.str2id dict.budget ((DictKey.hashed d).size + 8 * ids.length + 8) (.hashed d) ids
  refine ⟨_, hmerge, fun i hi => ?_, fun old hold i hi => ?_⟩
  · split
    · exact mem_combine (.inr hi)
    · exact hi
  · rw [show dict.str2id.merge combine (.hashed d) = some old from hold]
    exact mem_combine (.inl hi)

end DictBuffers

theorem listOf_ingest (db : Db) (dict : DictBuffers) (d : Hash) :
    listOf (db.ingest dict) d = (dict.str2idFile (.hashed d)).getD (listOf db d) := by
  change ((dict.str2idFile (.hashed d)).or (db.str2id (.hashed d))).getD [] = _
  cases dict.str2idFile (.hashed d) with
  | none => rfl
  | some ids => rfl

namespace Load

variable {config : Config} {finished : Nat → Bool} {fx : StoredTerm → UInt64} {hash128 : StoredTerm → Hash}
  {X : Inline.Datatypes} {l l' : Load}

/-- The window in flight has no row of a hash. -/
def Clear (l : Load) (d : Hash) : Prop := ∀ flush, l.state.dictFlush = some flush → flush.dict.str2idFile (.hashed d) = none

/-- The lists of a load: of the database, with the window in flight, and with the window being
filled, whose lists have all that are before them. -/
structure Lists (hash128 : StoredTerm → Hash) (l : Load) (dict : DictBuffers) : Prop where
  db : KeysListed hash128 l.storage.db
  mid : KeysListed hash128 l.mid
  whole : KeysListed hash128 (l.mid.ingest dict)
  covers : ∀ d ids, dict.str2idFile (.hashed d) = some ids → ∀ i ∈ listOf l.mid d, i ∈ ids

theorem Clear.listOf_mid {d : Hash} (h : l.Clear d) : listOf l.mid d = listOf l.storage.db d := by
  unfold Load.mid
  cases hf : l.state.dictFlush with
  | none => rfl
  | some flush =>
    simp only
    rw [listOf_ingest, h flush hf]
    rfl

theorem Lists.settle {dict : DictBuffers} (h : Lists hash128 l dict) (wait : Bool) :
    Lists hash128 (l.settleDictionary finished wait) dict := by
  unfold settleDictionary
  cases hf : l.state.dictFlush with
  | none => exact h
  | some flush =>
    simp only
    split
    · exact ⟨h.db, h.mid, h.whole, h.covers⟩
    · have hmid : l.mid = l.storage.db.ingest flush.dict := by
        unfold Load.mid
        rw [hf]
      have hm := h.mid
      have hw := h.whole
      have hc := h.covers
      rw [hmid] at hm hw hc
      exact ⟨hm, hm, hw, hc⟩

theorem Lists.flush (hk : Kept fx l l.state.dict) (h : Lists hash128 l l.state.dict) :
    Lists hash128 (l.flushDictionary config finished) (l.flushDictionary config finished).state.dict := by
  obtain ⟨-, -, hnone⟩ := @Kept.settle finished fx l hk true
  have hdict : (l.settleDictionary finished true).state.dict = l.state.dict := by
    unfold settleDictionary
    cases l.state.dictFlush with
    | none => rfl
    | some flush =>
      simp only
      split <;> rfl
  have h₁ := @Lists.settle finished hash128 l l.state.dict h true
  unfold flushDictionary
  generalize l.settleDictionary finished true = l₁ at h₁ hnone hdict
  have hmid : l₁.mid = l₁.storage.db := by
    unfold Load.mid
    rw [hnone rfl]
  have hw := h₁.whole
  rw [hmid, ← hdict] at hw
  have hnew := sameFamilies_new (l₁.storage.db.ingest l₁.state.dict) config.dictSpillBytes
  exact ⟨h₁.db, hw, hw.congr hnew.1 hnew.2, fun _ _ hkey => by cases hkey⟩

theorem Lists.writeFull {dict : DictBuffers} (hpending : ∀ op ∈ l.state.pending, offDictionary op = true) (h : Lists hash128 l dict) :
    Lists hash128 l.writeFull dict := by
  unfold Load.writeFull
  split
  · have hdb : SameFamilies l.storage.db (l.storage.db.write l.state.pending) :=
      RocksStorage.write_offDictionary l.storage.db hpending
    have hmid : SameFamilies l.mid (Load.mid { l with
        storage := { l.storage with db := l.storage.db.write l.state.pending }, state := { l.state with pending := [] } }) := by
      unfold Load.mid
      cases l.state.dictFlush with
      | none => exact hdb
      | some flush => exact hdb.ingest flush.dict
    have hwhole := hmid.ingest dict
    refine ⟨h.db.congr hdb.1 hdb.2, h.mid.congr hmid.1 hmid.2, h.whole.congr hwhole.1 hwhole.2, fun d ids hkey i hi => ?_⟩
    refine h.covers d ids hkey i ?_
    unfold listOf at hi ⊢
    rw [← hmid.2]
    exact hi
  · exact h

theorem settleDictionary_next (l : Load) (wait : Bool) : (l.settleDictionary finished wait).storage.next = l.storage.next := by
  unfold settleDictionary
  cases l.state.dictFlush with
  | none => rfl
  | some flush =>
    simp only
    split <;> rfl

theorem commitOps_next (l : Load) (ops : List Pending) : (l.commitOps config finished ops).storage.next = l.storage.next := by
  have hfull : ∀ l : Load, l.writeFull.storage.next = l.storage.next := by
    intro l
    unfold Load.writeFull
    split <;> rfl
  unfold Load.commitOps
  simp only
  split
  · unfold flushDictionary
    simp only [settleDictionary_next, hfull]
  · rw [settleDictionary_next, hfull]

/-- Handing rows over moves them from one place to the next. -/
theorem Lists.commitOps {ops : List Pending} (hk : Kept fx l (l.window ops)) (h : Lists hash128 l (l.window ops)) :
    Lists hash128 (l.commitOps config finished ops) (l.commitOps config finished ops).state.dict := by
  unfold Load.commitOps
  rw [divert_window]
  have hpending : ∀ op ∈ l.state.pending ++ ops.filter offDictionary, offDictionary op = true := by
    intro op hop
    rcases List.mem_append.1 hop with hop | hop
    · exact hk.pending op hop
    · exact (List.mem_filter.1 hop).2
  have hk₁ : Kept fx { l with state := { l.state with
      pending := l.state.pending ++ ops.filter offDictionary, dict := l.window ops } } (l.window ops) :=
    ⟨hk.scope, hpending, hk.db, hk.mid, hk.whole, hk.settles, hk.fills, hk.terms, hk.unique, hk.flight, hk.window, hk.since,
      hk.handed, hk.seen⟩
  have h₁ : Lists hash128 { l with state := { l.state with
      pending := l.state.pending ++ ops.filter offDictionary, dict := l.window ops } } (l.window ops) :=
    ⟨h.db, h.mid, h.whole, h.covers⟩
  obtain ⟨hk₂, -⟩ := hk₁.writeFull
  have h₂ := h₁.writeFull hpending
  have hdict₂ : ∀ l : Load, l.writeFull.state.dict = l.state.dict := by
    intro l
    unfold Load.writeFull
    split <;> rfl
  obtain ⟨hk₃, -, -⟩ := @Kept.settle finished fx _ hk₂ false
  have h₃ := @Lists.settle finished hash128 _ _ h₂ false
  have hdict₃ : ∀ l : Load, (l.settleDictionary finished false).state.dict = l.state.dict := by
    intro l
    unfold settleDictionary
    cases l.state.dictFlush with
    | none => rfl
    | some flush =>
      simp only
      split <;> rfl
  simp only
  split
  · refine Lists.flush hk₃ ?_
    rw [hdict₃, hdict₂]
    exact h₃
  · rw [hdict₃, hdict₂]
    exact h₃

/-- A term that is not cached and is not found in the database, or is provably new, has no id. -/
theorem Kept.not_row {dict : DictBuffers} {st : StoredTerm} (hk : Kept fx l dict) (h : Lists hash128 l dict) (hlong : st.long)
    (hcache : l.cached st = none) (hnew : l.state.seen.any (fun seen => !seen.mayContain (fx st)) = true ∨
      find hash128 l.storage.db st = none) (id : TermId) : (l.mid.ingest dict).id2str id ≠ some st := by
  intro hrow
  rcases hnew with hnew | hfind
  · obtain ⟨seen, hs, hmiss⟩ := (Option.any_eq_true _ _).1 hnew
    rw [hk.seen seen hs id st hrow] at hmiss
    cases hmiss
  · -- it is in a window, and then cached, or in the database, and then found
    have hout : ∀ d : DictBuffers, Backed l.state.terms d → d.id2strFile id ≠ some st := by
      intro d hd hid
      obtain ⟨c, hmem, -⟩ := hd.rows id st hid
      exact not_cached hcache c hmem
    rcases Option.or_eq_some_iff.1 hrow with hwin | ⟨-, hmid⟩
    · exact hout dict hk.window hwin
    · have hdb : l.storage.db.id2str id = some st := by
        unfold Load.mid at hmid
        cases hf : l.state.dictFlush with
        | none =>
          rw [hf] at hmid
          exact hmid
        | some flush =>
          rw [hf] at hmid
          rcases Option.or_eq_some_iff.1 hmid with hflight | ⟨-, hdb⟩
          · exact absurd hflight (hout flush.dict (hk.flight flush hf))
          · exact hdb
      exact h.db.not_row hlong hfind hdb

/-- A new term joins the list under its hash, if the window in flight has none. -/
theorem Lists.minted {st : StoredTerm} {id : TermId} (hk : Kept fx l (l.window [])) (h : Lists hash128 l (l.window []))
    (hn : Next l.storage.next st id) (hclear : st.long → l.Clear (hash128 st))
    (hnew : st.long → ∀ i, (l.mid.ingest (l.window [])).id2str i ≠ some st) :
    let ops := [.putDefault (.next st.tag) (l.storage.next st.tag + 1), .putId2str id st,
      .putStr2id (dictionaryKey hash128 st).1 (listFor hash128 l st id)]
    Lists hash128 l (l.window ops) ∧ Mints (l.mid.ingest (l.window [])) (l.mid.ingest (l.window ops)) st id := by
  intro ops
  have hm : Mints (l.mid.ingest (l.window [])) (l.mid.ingest (l.window ops)) st id :=
    @Kept.minted fx hash128 l [] hk st id st.tag (l.storage.next st.tag + 1)
  refine ⟨?_, hm⟩
  have hfresh := hn.fresh hk.whole
  by_cases hlong : st.long
  · obtain ⟨list, hlist, hnewin, holdin⟩ := (l.state.dict.pushId2str id st).str2idFile_push_joined (hash128 st) (listFor hash128 l st id)
    have hkey : (l.window ops).str2idFile = Function.update l.state.dict.str2idFile (.hashed (hash128 st)) (some list) := by
      change ((l.state.dict.pushId2str id st).pushStr2id (dictionaryKey hash128 st).1 (listFor hash128 l st id)).str2idFile = _
      rw [RocksStorage.dictionaryKey_hashed hlong]
      exact hlist
    have hfor : listFor hash128 l st id = listOf l.storage.db (hash128 st) ++ [id] := if_neg hlong
    have hmid : ∀ i ∈ listOf l.mid (hash128 st), i ∈ list := by
      intro i hi
      rw [(hclear hlong).listOf_mid] at hi
      exact hnewin i (by rw [hfor]; exact List.mem_append_left _ hi)
    refine ⟨h.db, h.mid, h.whole.mints hm hfresh (fun d i hi => ?_) (fun _ => ?_) hnew, fun d ids hd i hi => ?_⟩
    · rw [listOf_ingest] at hi ⊢
      rw [hkey]
      by_cases hd : d = hash128 st
      · subst hd
        rw [Function.update_self]
        cases hold : l.state.dict.str2idFile (.hashed (hash128 st)) with
        | none =>
          rw [show (l.window []).str2idFile (.hashed (hash128 st)) = none from hold] at hi
          exact hmid i hi
        | some old =>
          rw [show (l.window []).str2idFile (.hashed (hash128 st)) = some old from hold] at hi
          exact holdin old hold i hi
      · rw [Function.update_of_ne (by simpa using hd)]
        exact hi
    · rw [listOf_ingest, hkey, Function.update_self]
      exact hnewin id (by rw [hfor]; simp)
    · rw [hkey] at hd
      by_cases heq : d = hash128 st
      · subst heq
        rw [Function.update_self] at hd
        cases hd
        exact hmid i hi
      · rw [Function.update_of_ne (by simpa using heq)] at hd
        exact h.covers d ids hd i hi
  · -- an exact key is no hashed one
    have hkey : ∀ d, (l.window ops).str2idFile (.hashed d) = l.state.dict.str2idFile (.hashed d) := by
      intro d
      change ((l.state.dict.pushId2str id st).pushStr2id (dictionaryKey hash128 st).1 (listFor hash128 l st id)).str2idFile _ = _
      rw [RocksStorage.dictionaryKey_exact (not_not.1 hlong), DictBuffers.str2idFile_push_exact, Function.update_of_ne (by simp)]
      rfl
    refine ⟨h.db, h.mid, h.whole.mints hm hfresh (fun d i hi => ?_) (fun hl => absurd hl hlong) hnew, fun d ids hd i hi => ?_⟩
    · rw [listOf_ingest] at hi ⊢
      rw [hkey]
      exact hi
    · rw [hkey] at hd
      exact h.covers d ids hd i hi

theorem Lists.remember {dict : DictBuffers} {st : StoredTerm} {c : Cached} (h : Lists hash128 l dict) :
    Lists hash128 (l.remember st c) dict := ⟨h.db, h.mid, h.whole, h.covers⟩

theorem Lists.intern {st : StoredTerm} {t : Term} {out : Except StorageError (TermId × List Pending) × Load}
    (hk : Kept fx l (l.window [])) (h : Lists hash128 l (l.window [])) (ht : RocksStorage.StoredTerm.whole st = some t)
    (hclear : st.long → l.Clear (hash128 st)) (hok : l.intern fx hash128 X st.tag st t [] = some out) :
    ∀ id ops, out.1 = .ok (id, ops) → Lists hash128 out.2 (out.2.window ops) ∧
      RocksStorage.Traces l.storage.next (l.gathered []) (out.2.gathered ops) ∧ ∀ tag, l.storage.next tag ≤ out.2.storage.next tag := by
  unfold Load.intern at hok
  simp only at hok
  split at hok
  · cases hok
    intro id ops heq
    cases heq
    exact ⟨⟨h.db, h.mid, h.whole, h.covers⟩, .of_eq rfl, fun _ => le_rfl⟩
  · rename_i hcache
    split at hok
    · cases hok
      intro id ops heq
      cases heq
    · cases hok
      intro id ops heq
      cases heq
      exact ⟨⟨h.db, h.mid, h.whole, h.covers⟩, .of_eq rfl, fun _ => le_rfl⟩
    · rename_i hres
      obtain ⟨i, hi, rfl⟩ := allocate_eq hok
      intro id ops heq
      obtain ⟨rfl, rfl⟩ := Prod.mk.inj (Except.ok.inj heq)
      obtain ⟨htag, hpay⟩ := TermId.checked_eq_some hi
      have hn : Next l.storage.next st i := ⟨htag, hpay⟩
      have hnew : st.long → ∀ j, (l.mid.ingest (l.window [])).id2str j ≠ some st := by
        intro hlong j
        refine hk.not_row h hlong hcache ?_ j
        split_ifs at hres with hprov
        · exact .inl hprov
        · right
          rw [resolve_eq hk.db hk.readable (fun _ => ht)] at hres
          exact Except.ok.inj hres
      obtain ⟨hlists, hm⟩ := Lists.minted hk h hn hclear hnew
      exact ⟨⟨hlists.db, hlists.mid, hlists.whole, hlists.covers⟩, .mints hm hn, RocksStorage.le_bump l.storage.next st.tag⟩

theorem encodeInto_serialised {t : Term} {st : StoredTerm} {out : Except StorageError (TermId × List Pending) × Load}
    (hst : t.serialised = some st) (h : l.encodeInto fx hash128 X [] t = some out) :
    (∃ id, out = (.ok (id, []), l)) ∨ l.intern fx hash128 X st.tag st t [] = some out := by
  cases t with
  | namedNode n =>
    cases hst
    unfold Load.encodeInto Load.encodeNamedNode at h
    split at h
    · cases h
      exact .inl ⟨_, rfl⟩
    · exact .inr h
  | blankNode b =>
    cases hst
    exact .inr h
  | literal lit =>
    cases hst
    unfold Load.encodeInto at h
    split at h
    · cases h
      exact .inl ⟨_, rfl⟩
    · exact .inr h
  | triple => cases hst

theorem Lists.encode (hX : X.Lawful) {t : Term} {st : StoredTerm} {out : Except StorageError TermId × Load} (hk : Sound fx l)
    (h : Lists hash128 l l.state.dict) (hst : t.serialised = some st) (hclear : st.long → l.Clear (hash128 st))
    (hok : l.encode config finished fx hash128 X t = some out) :
    Lists hash128 out.2 out.2.state.dict ∧ RocksStorage.Traces l.storage.next l.known out.2.known ∧
      ∀ tag, l.storage.next tag ≤ out.2.storage.next tag := by
  have hk₀ : Kept fx l (l.window []) := hk
  unfold Load.encode Load.andThen at hok
  split at hok
  · cases hok
  · rename_i e l₁ he
    obtain ⟨id, ops', hout, -⟩ := Kept.encodeInto hX hk₀ he
    cases hout
  · rename_i x l₁ he
    obtain ⟨id, ops⟩ := x
    obtain ⟨id', ops', hout, hkept, -, -⟩ := Kept.encodeInto hX hk₀ he
    cases hout
    cases hok
    have hgathered : Lists hash128 l₁ (l₁.window ops) ∧ RocksStorage.Traces l.storage.next (l.gathered []) (l₁.gathered ops) ∧
        ∀ tag, l.storage.next tag ≤ l₁.storage.next tag := by
      rcases encodeInto_serialised hst he with ⟨i, heq⟩ | hintern
      · cases heq
        exact ⟨h, .of_eq rfl, fun _ => le_rfl⟩
      · exact Lists.intern hk₀ h (RocksStorage.whole_of_serialised hst) hclear hintern id ops rfl
    obtain ⟨hlists, htraces, hnext⟩ := hgathered
    obtain ⟨-, hsame⟩ := @Kept.commitOps config finished fx l₁ ops hkept
    refine ⟨hlists.commitOps hkept, fun i st' hrow => htraces i st' ?_, fun tag => ?_⟩
    · rw [hsame.1] at hrow
      exact hrow
    · rw [commitOps_next]
      exact hnext tag

/-- What writes of quads and graphs leave: the lists, and the rows known. -/
structure Stays (hash128 : StoredTerm → Hash) (l l' : Load) : Prop where
  lists : Lists hash128 l' l'.state.dict
  rows : l'.known.id2str = l.known.id2str
  next : l'.storage.next = l.storage.next

theorem Stays.trans {l'' : Load} (h : Stays hash128 l l') (h' : Stays hash128 l' l'') : Stays hash128 l l'' :=
  ⟨h'.lists, h'.rows.trans h.rows, h'.next.trans h.next⟩

theorem Lists.commitOff {ops : List Pending} (hk : Sound fx l) (h : Lists hash128 l l.state.dict)
    (hops : ∀ op ∈ ops, offDictionary op = true) : Stays hash128 l (l.commitOps config finished ops) := by
  have hwin : l.window ops = l.state.dict := gather_off hops _
  have hk' : Kept fx l (l.window ops) := by
    rw [hwin]
    exact hk
  obtain ⟨-, hsame⟩ := @Kept.commitOps config finished fx l ops hk'
  refine ⟨Lists.commitOps hk' (by rw [hwin]; exact h), ?_, commitOps_next l ops⟩
  rw [hsame.1, hwin]
  rfl

theorem Lists.insertEncoded (h : Lists hash128 l l.state.dict) (q : EncodedQuad) : Stays hash128 l (l.insertEncoded config q).2 := by
  unfold Load.insertEncoded
  simp only
  split
  · exact ⟨⟨h.db, h.mid, h.whole, h.covers⟩, rfl, rfl⟩
  · exact ⟨⟨h.db, h.mid, h.whole, h.covers⟩, rfl, rfl⟩

theorem Lists.removeEncoded (hk : Sound fx l) (h : Lists hash128 l l.state.dict) (q : EncodedQuad) :
    Stays hash128 l (l.removeEncoded config finished q).2 := by
  unfold Load.removeEncoded
  split
  · have hcounted : ∀ quadCount generation predicateCounts,
        Stays hash128 l { l with storage := { l.storage with quadCount, generation, predicateCounts } } :=
      fun _ _ _ => ⟨⟨h.db, h.mid, h.whole, h.covers⟩, rfl, rfl⟩
    refine (hcounted _ _ _).trans (Lists.commitOff (hk.counted _ _ _).1 (hcounted _ _ _).lists (fun op hop => ?_))
    rw [List.append_assoc] at hop
    simp only [List.cons_append, List.nil_append, List.mem_append, List.mem_cons] at hop
    rcases hop with hop | rfl | rfl | hop
    · exact RocksStorage.deleteRows_off q op hop
    · rfl
    · rfl
    · exact (RocksStorage.statsRow_off _ _ op hop).2
  · exact ⟨h, rfl, rfl⟩

theorem Lists.removeAll (hk : Sound fx l) (h : Lists hash128 l l.state.dict) (doomed : List EncodedQuad) :
    Stays hash128 l (doomed.foldl (fun l quad => (l.removeEncoded config finished quad).2) l) := by
  induction doomed generalizing l with
  | nil => exact ⟨h, rfl, rfl⟩
  | cons q doomed ih =>
    have hq := @Lists.removeEncoded config finished fx hash128 l hk h q
    exact hq.trans (ih (hk.removeEncoded q).1 hq.lists)

theorem Lists.write (hk : Sound fx l) (h : Lists hash128 l l.state.dict) (op : Index.Op) :
    Stays hash128 l (l.write config finished op).2 := by
  cases op with
  | insert q => exact h.insertEncoded q
  | remove q => exact h.removeEncoded hk q
  | insertNamedGraph g =>
    change Stays hash128 l (l.insertNamedGraph config finished g).2
    unfold Load.insertNamedGraph
    split
    · exact ⟨h, rfl, rfl⟩
    · exact h.commitOff hk (by simp [offDictionary])
  | removeNamedGraph g =>
    have hall := @Lists.removeAll config finished fx hash128 l hk h (l.storage.scan none none none (.named g))
    change Stays hash128 l (l.removeNamedGraph config finished g).2
    unfold Load.removeNamedGraph
    simp only
    split
    · exact hall.trans (hall.lists.commitOff (hk.removeAll _).1 (by simp [offDictionary]))
    · exact hall

end Load

/-! ## Any run -/

namespace Loader

variable {config : Config} {finished : Nat → Bool} {fx : StoredTerm → UInt64} {hash128 : StoredTerm → Hash} {X : Inline.Datatypes}

/-- What a call may be: the terms it encodes are built of no others, and where a load is running,
the window in flight has no row under the hash of a long one. -/
def Clear (hash128 : StoredTerm → Hash) (l : Loader) : Storage.Call → Prop
  | .op (.encode t) => ∃ st, t.serialised = some st ∧
      (st.long → ∀ state, l.bulk = some state → Load.Clear ⟨l.storage, state⟩ (hash128 st))
  | _ => True

/-- The families with everything that is buffered. -/
def known (l : Loader) : Db :=
  match l.bulk with
  | none => l.storage.applied
  | some state => Load.known ⟨l.storage, state⟩

def Lists (hash128 : StoredTerm → Hash) (l : Loader) : Prop :=
  match l.bulk with
  | none => RocksStorage.Lists hash128 l.storage
  | some state => Load.Lists hash128 ⟨l.storage, state⟩ state.dict

theorem Lists.known {l : Loader} (h : Lists hash128 l) : KeysListed hash128 l.known := by
  obtain ⟨storage, bulk⟩ := l
  cases bulk with
  | none => exact RocksStorage.Lists.applied h
  | some state => exact Load.Lists.whole h

/-- The lists of the database, which a load may have running on it. -/
theorem Lists.db {l : Loader} (h : Lists hash128 l) : KeysListed hash128 l.storage.db := by
  obtain ⟨storage, bulk⟩ := l
  cases bulk with
  | none => exact RocksStorage.Lists.db h
  | some state => exact Load.Lists.db h

/-- The rows of the database are known. -/
theorem Sound.db_known {l : Loader} (h : Sound fx l) {id : TermId} {st : StoredTerm} (hrow : l.storage.db.id2str id = some st) :
    l.known.id2str id = some st := by
  obtain ⟨storage, bulk⟩ := l
  cases bulk with
  | none => exact RocksStorage.Sound.grown h id st hrow
  | some state =>
    have hk : Load.Kept fx ⟨storage, state⟩ state.dict := h
    exact hk.fills.rows id st (hk.settles.rows id st hrow)

theorem Lists.finishBulk {storage : RocksStorage} {state : BulkState} (hsound : Load.Sound fx ⟨storage, state⟩)
    (h : Load.Lists hash128 ⟨storage, state⟩ state.dict) :
    Lists hash128 (finishBulk finished ⟨storage, some state⟩) ∧
      (finishBulk finished ⟨storage, some state⟩).known.id2str = (Load.known ⟨storage, state⟩).id2str ∧
      (finishBulk finished ⟨storage, some state⟩).storage.next = storage.next := by
  obtain ⟨r, heq, hscope, -, hsame⟩ := @finishBulk_families finished fx storage state hsound
  have hnext : (Loader.finishBulk finished ⟨storage, some state⟩).storage.next = storage.next := by
    change (Load.settleDictionary finished ⟨storage, state⟩ true).storage.next = _
    exact Load.settleDictionary_next _ true
  rw [heq] at hnext ⊢
  refine ⟨RocksStorage.KeysListed.lists (h.whole.congr hsame.1 hsame.2) hscope, ?_, hnext⟩
  have happlied : r.applied = r.db := by simp only [RocksStorage.applied, hscope]
  change r.applied.id2str = _
  rw [happlied]
  exact hsame.1

/-- A step keeps the lists. It gives out ids not given out before, and drops rows only that were
buffered. -/
theorem Lists.step (hX : X.Lawful) {l l' : Loader} {call : Storage.Call} {reply : Storage.Reply} (hsound : Sound fx l)
    (h : Lists hash128 l) (hclear : l.Clear hash128 call) (hstep : l.step config finished fx hash128 X call = some (reply, l')) :
    Lists hash128 l' ∧ RocksStorage.Traces l.storage.next l.known l'.known ∧ ∀ tag, l.storage.next tag ≤ l'.storage.next tag := by
  have hsame : Lists hash128 l ∧ RocksStorage.Traces l.storage.next l.known l.known ∧ ∀ tag, l.storage.next tag ≤ l.storage.next tag :=
    ⟨h, .of_eq rfl, fun _ => le_rfl⟩
  have hdb : ∀ id st, l.storage.db.id2str id = some st → l.known.id2str id = some st := fun _ _ hrow => hsound.db_known hrow
  obtain ⟨storage, bulk⟩ := l
  cases call with
  | op op =>
    cases bulk with
    | none =>
      obtain ⟨out, hout, heq⟩ := Option.map_eq_some_iff.1 hstep
      cases heq
      refine RocksStorage.Lists.step h hsound (fun t ht => ?_) hout
      subst ht
      obtain ⟨st, hst, -⟩ := hclear
      exact ⟨st, hst⟩
    | some state =>
      obtain ⟨out, hout, heq⟩ := Option.map_eq_some_iff.1 hstep
      cases heq
      cases op with
      | encode t =>
        obtain ⟨st, hst, hflight⟩ := hclear
        obtain ⟨out', he, heq⟩ := Option.map_eq_some_iff.1 hout
        cases heq
        exact Load.Lists.encode hX hsound h hst (fun hlong => hflight hlong state rfl) he
      | write op =>
        cases hout
        have hstays := @Load.Lists.write config finished fx hash128 ⟨storage, state⟩ hsound h op
        exact ⟨hstays.lists, .of_eq hstays.rows, fun tag => le_of_eq (congrFun hstays.next tag).symm⟩
      | begin | commit | rollback =>
        cases hout
        exact hsame
  | beginBulkLoad =>
    simp only [Loader.step] at hstep
    split at hstep
    · cases hstep
      exact hsame
    · cases hstep
      have hlisted : KeysListed hash128 storage.db := h.db
      have hnew := sameFamilies_new storage.db config.dictSpillBytes
      exact ⟨⟨hlisted, hlisted, hlisted.congr hnew.1 hnew.2, fun _ _ hkey => (by cases hkey)⟩,
        fun id st hrow => .inl (hdb id st hrow), fun _ => le_rfl⟩
  | endBulkLoad =>
    cases hstep
    cases bulk with
    | none =>
      have hfam := recount_families storage
      have hsound' := recount_sound hsound
      have happlied : SameFamilies storage.applied storage.recount.applied := by
        have hscope : storage.recount.scope = storage.scope := rfl
        unfold RocksStorage.applied
        cases hs : storage.scope with
        | none =>
          simp only [hscope, hs]
          exact hfam
        | some s =>
          simp only [hscope, hs]
          exact write_families hfam s.pending
      refine ⟨⟨h.db.congr hfam.1 hfam.2, h.known.congr happlied.1 happlied.2, fun s hs d => ?_, fun s hs id st hrow => ?_⟩,
        .of_eq happlied.1, fun _ => le_rfl⟩
      · change storage.recount.applied.str2id _ = (s.candidates _).or (storage.recount.db.str2id _)
        rw [happlied.2, hfam.2]
        exact RocksStorage.Lists.candidates h s hs d
      · change storage.recount.applied.id2str id = some st at hrow
        change storage.recount.db.id2str id = some st ∨ _
        rw [happlied.1] at hrow
        rw [hfam.1]
        exact RocksStorage.Lists.terms h s hs id st hrow
    | some state =>
      obtain ⟨hlists, hrows, hnext⟩ := @Lists.finishBulk finished fx hash128 storage state hsound h
      exact ⟨hlists, .of_eq hrows, fun tag => le_of_eq (congrFun hnext tag).symm⟩
  | flush =>
    cases hstep
    cases bulk with
    | none => exact hsame
    | some state =>
      obtain ⟨hlists, hrows, hnext⟩ := @Lists.finishBulk finished fx hash128 storage state hsound h
      exact ⟨hlists, .of_eq hrows, fun tag => le_of_eq (congrFun hnext tag).symm⟩

/-- A run from a new storage, whatever is configured and however long each window takes, with what
was called and answered. -/
inductive Run (fx : StoredTerm → UInt64) (hash128 : StoredTerm → Hash) (X : Inline.Datatypes) :
    List (Storage.Call × Storage.Reply) → Loader → Prop where
  | new : Run fx hash128 X [] .new
  | step {log : List (Storage.Call × Storage.Reply)} {l l' : Loader} {config : Config} {finished : Nat → Bool} {call : Storage.Call}
      {reply : Storage.Reply} (h : Run fx hash128 X log l) (hclear : l.Clear hash128 call)
      (hstep : l.step config finished fx hash128 X call = some (reply, l')) : Run fx hash128 X (log ++ [(call, reply)]) l'

theorem Sound.known {l : Loader} (h : Sound fx l) : Rows l.storage.next l.known := by
  obtain ⟨storage, bulk⟩ := l
  cases bulk with
  | none => exact RocksStorage.Sound.applied h
  | some state => exact Load.Kept.whole h

/-- The id of a term that carries its value. -/
def byValue (X : Inline.Datatypes) : Term → Option TermId
  | .namedNode n => Vocab.encodeIri n
  | .literal l => Inline.encodeLiteral X l
  | _ => none

/-- What an id stands for is its value, or the row under it. -/
theorem reads_iff {t : Term} {st : StoredTerm} {db : Db} {id : TermId} (hst : t.serialised = some st) :
    RocksStorage.Reads X db id t ↔ match byValue X t with
      | some v => id = v
      | none => db.id2str id = some st := by
  cases t with
  | namedNode n =>
    cases hst
    unfold RocksStorage.Reads RocksStorage.ReadsNode byValue
    dsimp only
    cases Vocab.encodeIri n with
    | some v => exact Iff.rfl
    | none => exact Iff.rfl
  | blankNode b =>
    cases hst
    exact Iff.rfl
  | literal l =>
    cases hst
    unfold RocksStorage.Reads byValue
    dsimp only
    cases Inline.encodeLiteral X l with
    | some v => exact Iff.rfl
    | none => exact Iff.rfl
  | triple => cases hst

theorem findTerm_eq {t : Term} {st : StoredTerm} {db : Db} (hst : t.serialised = some st) :
    findTerm hash128 X db t = (byValue X t).or (find hash128 db st) := by
  cases t with
  | namedNode n =>
    cases hst
    unfold RocksStorage.findTerm RocksStorage.findNode byValue
    dsimp only
    cases Vocab.encodeIri n with
    | some v => rfl
    | none => rfl
  | blankNode b =>
    cases hst
    rfl
  | literal l =>
    cases hst
    unfold RocksStorage.findTerm byValue
    dsimp only
    cases Inline.encodeLiteral X l with
    | some v => rfl
    | none => rfl
  | triple => cases hst

/-- An id given out for a term: it stands for it still, or its row was dropped before it reached
the database, and it stands for nothing. -/
def Given (X : Inline.Datatypes) (l : Loader) (t : Term) (id : TermId) : Prop :=
  RocksStorage.Reads X l.known id t ∨
    (Dictionary.issues id.tag = true ∧ id.payload < l.storage.next id.tag ∧ l.known.id2str id = none)

theorem Given.step {l l' : Loader} {t : Term} {st : StoredTerm} {id : TermId} (hst : t.serialised = some st)
    (hrows : Rows l.storage.next l.known) (h : Given X l t id) (ht : RocksStorage.Traces l.storage.next l.known l'.known)
    (hnext : ∀ tag, l.storage.next tag ≤ l'.storage.next tag) : Given X l' t id := by
  -- the row under an id given out before is the one it had, or gone
  have hstays : id.payload < l.storage.next id.tag → ∀ st', l'.known.id2str id = some st' → l.known.id2str id = some st' := by
    intro hlt st' hrow
    rcases ht id st' hrow with hrow | hle
    · exact hrow
    · omega
  rcases h with hreads | ⟨htag, hlt, hnone⟩
  · rw [reads_iff hst] at hreads
    unfold Given
    rw [reads_iff hst]
    cases hv : byValue X t with
    | some v =>
      rw [hv] at hreads
      exact .inl hreads
    | none =>
      rw [hv] at hreads
      have hrow : l.known.id2str id = some st := hreads
      obtain ⟨htag, hlt⟩ := hrows.tag id st hrow
      cases hrow' : l'.known.id2str id with
      | some st' =>
        left
        rw [← hrow, hstays hlt st' hrow']
      | none =>
        right
        exact ⟨by rw [htag]; exact st.issues_tag, lt_of_lt_of_le hlt (hnext _), rfl⟩
  · right
    refine ⟨htag, lt_of_lt_of_le hlt (hnext _), ?_⟩
    cases hrow' : l'.known.id2str id with
    | none => rfl
    | some st' =>
      rw [hstays hlt st' hrow'] at hnone
      cases hnone

/-- An encode that returned gave an id that stands for the term. -/
theorem step_encode (hX : X.Lawful) {l l' : Loader} {t : Term} {id : TermId} (hsound : Sound fx l)
    (hstep : l.step config finished fx hash128 X (.op (.encode t)) = some (.encoded (.ok id), l')) : RocksStorage.Reads X l'.known id t := by
  obtain ⟨storage, bulk⟩ := l
  cases bulk with
  | none =>
    obtain ⟨out, hout, heq⟩ := Option.map_eq_some_iff.1 hstep
    obtain ⟨out', he, heq'⟩ := Option.map_eq_some_iff.1 hout
    cases heq'
    obtain ⟨hreply, rfl⟩ := Prod.mk.inj heq
    exact (RocksStorage.Sound.encode hX hsound he).2.1 id (Storage.Reply.encoded.inj hreply)
  | some state =>
    obtain ⟨out, hout, heq⟩ := Option.map_eq_some_iff.1 hstep
    obtain ⟨out', he, heq'⟩ := Option.map_eq_some_iff.1 hout
    cases heq'
    obtain ⟨hreply, rfl⟩ := Prod.mk.inj heq
    obtain ⟨id', hid', -, hknows⟩ := Load.Sound.encode hX hsound he
    cases (Storage.Reply.encoded.inj hreply).symm.trans hid'
    exact hknows.1

theorem Run.lists (hX : X.Lawful) {log : List (Storage.Call × Storage.Reply)} {l : Loader} (h : Run fx hash128 X log l) :
    Sound fx l ∧ Lists hash128 l ∧ ∀ t st id, (.op (.encode t), .encoded (.ok id)) ∈ log → t.serialised = some st → Given X l t id := by
  induction h with
  | new => exact ⟨RocksStorage.new_sound, RocksStorage.KeysListed.lists KeysListed.new rfl, fun _ _ _ hmem => by cases hmem⟩
  | step h hclear hstep ih =>
    obtain ⟨hsound, hlists, hgiven⟩ := ih
    obtain ⟨hlists', htraces, hnext⟩ := hlists.step hX hsound hclear hstep
    refine ⟨hsound.step hX hstep, hlists', fun t st id hmem hst => ?_⟩
    rcases List.mem_append.1 hmem with hmem | hmem
    · exact (hgiven t st id hmem hst).step hst hsound.known htraces hnext
    · obtain ⟨rfl, rfl⟩ := Prod.mk.inj (List.mem_singleton.1 hmem)
      exact .inl (step_encode hX hsound hstep)

/-- In a run in which a long term is encoded in a load only while the window in flight has no row
under its hash: once no load and no scope is open, the list under each hash has the id of every
long term stored, and an id given out for a long term is found for it, unless its row was dropped. -/
theorem hashed_ids (hX : X.Lawful) {log : List (Storage.Call × Storage.Reply)} {l : Loader} (h : Run fx hash128 X log l)
    (hbulk : l.bulk = none) (hscope : l.storage.scope = none) :
    (∀ id st, l.storage.db.id2str id = some st → st.long → id ∈ listOf l.storage.db (hash128 st)) ∧
      ∀ t st id, (.op (.encode t), .encoded (.ok id)) ∈ log → t.serialised = some st → st.long →
        (l.storage.lookup hash128 X t = .ok (some id) ∧ l.storage.decode X id = .ok (some t)) ∨ l.storage.decode X id = .ok none := by
  obtain ⟨hsound, hlists, hgiven⟩ := h.lists hX
  have hrows := hsound.rows
  have hknown : l.known = l.storage.db := by
    unfold Loader.known
    rw [hbulk]
    simp only [RocksStorage.applied, hscope]
  have hreadable : RocksStorage.Readable l.storage l.storage.db := by
    intro i st hi
    unfold RocksStorage.row
    rw [hscope]
    exact hi
  refine ⟨hlists.db.candidate, fun t st id hmem hst hlong => ?_⟩
  rcases hgiven t st id hmem hst with hreads | ⟨htag, -, hnone⟩
  · rw [hknown] at hreads
    refine .inl ⟨?_, RocksStorage.decode_reads hX hrows hreadable hreads⟩
    rw [RocksStorage.lookup_eq hrows hscope, findTerm_eq hst]
    rw [reads_iff hst] at hreads
    cases hv : byValue X t with
    | some v =>
      rw [hv] at hreads
      rw [hreads]
      rfl
    | none =>
      rw [hv] at hreads
      rw [hlists.db.find hreads hlong]
      rfl
  · right
    rw [hknown] at hnone
    have hvocab : id.tag ≠ .vocab := by
      intro hv
      rw [hv] at htag
      cases htag
    have hinline : ¬Inline.inlineTag id.tag = true := by
      intro hi
      rw [Dictionary.issues_inline hi] at htag
      cases htag
    have hrow : l.storage.row id = none := by
      unfold RocksStorage.row
      rw [hscope]
      exact hnone
    unfold RocksStorage.decode RocksStorage.decodeAt
    rw [if_neg hvocab, if_neg hinline, hrow]

/-! ## Two long terms of one hash -/

/-- A blank node whose label is as long as a key may be. -/
def longNode (c : Char) : Term := .blankNode (String.ofList (List.replicate inlineKeyMax c))

/-- Which of two long nodes a storage finds. -/
def finds (l : Loader) : List Bool :=
  [longNode 'a', longNode 'b'].map (fun t => (l.storage.lookup (fun _ => 0) Dictionary.bare t).toOption.any Option.isSome)

/-- A load of both, in which each window is handed over at its first row: the second list is made
while the first is in flight. -/
def loaded : Option (List Storage.Reply × Loader) :=
  run ⟨1, 0, 0⟩ (fun _ => false) (fun _ => 0) (fun _ => 0) Dictionary.bare .new
    [.beginBulkLoad, .op (.encode (longNode 'a')), .op (.encode (longNode 'b')), .endBulkLoad]

theorem load_loses_candidate : loaded.map (fun p => (p.1.map Storage.Reply.isOk, finds p.2)) =
    some ([true, true, true, true], [false, true]) := by decide +kernel

/-- One call, of any storage. -/
def answer (l : Loader) (call : Storage.Call) : Option (Storage.Reply × Loader) :=
  l.step ⟨1, 0, 0⟩ (fun _ => false) (fun _ => 0) (fun _ => 0) Dictionary.bare call

/-- An operation begins no load. -/
theorem step_outside {l l' : Loader} {op : Storage.Op} {reply : Storage.Reply} (hbulk : l.bulk = none)
    (hstep : l.step config finished fx hash128 X (.op op) = some (reply, l')) : l'.bulk = none := by
  obtain ⟨storage, bulk⟩ := l
  cases hbulk
  obtain ⟨out, -, heq⟩ := Option.map_eq_some_iff.1 hstep
  cases heq
  rfl

/-- Both without a load. -/
def written : Option Loader :=
  (answer .new (.op (.encode (longNode 'a')))).bind (fun p => (answer p.2 (.op (.encode (longNode 'b')))).map Prod.snd)

theorem hashed_ids_written : ∃ log l, Run (fun _ => 0) (fun _ => 0) Dictionary.bare log l ∧ finds l = [true, true] ∧
    ∀ id st, l.storage.db.id2str id = some st → st.long → id ∈ listOf l.storage.db 0 := by
  have hfound : written.map (fun l => (finds l, l.bulk.isNone, l.storage.scope.isNone)) = some ([true, true], true, true) := by
    decide +kernel
  obtain ⟨l, hl, hfound⟩ := Option.map_eq_some_iff.1 hfound
  obtain ⟨hfinds, hstate⟩ := Prod.mk.inj hfound
  obtain ⟨hbulk, hscope⟩ := Prod.mk.inj hstate
  unfold written at hl
  obtain ⟨⟨reply₁, l₁⟩, h₁, hl⟩ := Option.bind_eq_some_iff.1 hl
  dsimp only at hl
  obtain ⟨⟨reply₂, l₂⟩, h₂, rfl⟩ := Option.map_eq_some_iff.1 hl
  have hnone : l₁.bulk = none := step_outside rfl h₁
  have hclear : ∀ (l : Loader) (c : Char), l.bulk = none → l.Clear (fun _ => 0) (.op (.encode (longNode c))) := by
    intro l c hb
    refine ⟨.blank (String.ofList (List.replicate inlineKeyMax c)), rfl, fun _ state hs => ?_⟩
    rw [hb] at hs
    cases hs
  have hrun₁ : Run (fun _ => 0) (fun _ => 0) Dictionary.bare _ l₁ := .step .new (hclear .new 'a' rfl) h₁
  have hrun : Run (fun _ => 0) (fun _ => 0) Dictionary.bare _ l₂ := .step hrun₁ (hclear l₁ 'b' hnone) h₂
  exact ⟨_, l₂, hrun, hfinds, (hashed_ids Dictionary.bare_lawful hrun (Option.isNone_iff_eq_none.1 hbulk)
    (Option.isNone_iff_eq_none.1 hscope)).1⟩

end Loader

end Holos
