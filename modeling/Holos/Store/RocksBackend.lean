import Mathlib.Data.List.ReduceOption
import Holos.Lib.Collect
import Holos.Store.Backend
import Holos.Store.Bulk
import Holos.Store.RocksFailure
import Holos.Store.RocksRows
/-!
# The on-disk tier as a backend

The trait's operations under their own names. A commit that does not reach the disk is the one
way a write of it is refused that the storage cannot tell by itself.

The contents are those of the database with the buffered writes in it, and so are the ids. A
rollback goes back to the ids of the database alone: those given out in the scope are forgotten.
`Unique` is why a term has one: every row of the dictionary is found under its own id. It is kept by
whatever is interned in a scope, and outside one by terms that are not triple terms: the parts of a
triple term are not found while they are gathered.
-/

namespace Holos.RocksStorage

open Lib

section
variable (hash128 : StoredTerm → Hash) (X : Inline.Datatypes)

def dictionaryCountFor (r : RocksStorage) : Tag → Nat
  | .iri => r.next .iri
  | .blankNode => r.next .blankNode
  | .literal => r.next .literal
  | .tripleTerm => r.next .tripleTerm
  | _ => 0

/-- A row of the database read without a lookup. A triple term is decoded through its parts. -/
def walkRow (r : RocksStorage) (id : TermId) : Except StorageError (Option (TermId × Term)) :=
  match r.db.id2str id with
  | none => .ok none
  | some (.triple _ _ _) => return (← r.decode X id).map (fun t => (id, t))
  | some (.iri n) => .ok (some (id, .namedNode n))
  | some (.blank b) => .ok (some (id, .blankNode b))
  | some (.literal l) => .ok (some (id, .literal l))

/-- A term minted in the open scope, whose row is not in the database yet. -/
def walkScope (r : RocksStorage) (id : TermId) : Except StorageError (Option (TermId × Term)) :=
  match r.scope.bind (fun scope => scope.strings id) with
  | none => .ok none
  | some _ => return (← r.decode X id).map (fun t => (id, t))

/-- The database first, then what the scope has minted. -/
def forEachInRange (r : RocksStorage) (tag : Tag) (start stop : Nat) : Except StorageError (List (TermId × Term)) := do
  if Inline.inlineTag tag then
    let found ← (TermId.range tag start stop).mapM (fun id => return (← r.decode X id).map (fun t => (id, t)))
    return found.reduceOption
  else
    let stored ← (TermId.range tag start stop).mapM (r.walkRow X)
    let minted ← (TermId.range tag start stop).mapM (r.walkScope X)
    return stored.reduceOption ++ minted.reduceOption

def backend : Backend where
  State := RocksStorage
  encode r t := r.encode hash128 X t
  lookup r t := r.lookup hash128 X t
  decode r id := r.decode X id
  write r op := r.write op
  containsEncoded r quad := .ok (r.containsEncoded quad)
  scan r s p o g := .ok (r.scan s p o g)
  containsNamedGraph r g := .ok (r.containsNamedGraph g)
  namedGraphs r := .ok r.namedGraphs
  len r := r.len
  dictionaryLen r := r.dictionaryLen
  dictionaryCountFor r tag := r.dictionaryCountFor tag
  forEachInRange r tag start stop := r.forEachInRange X tag start stop
  inScope r := r.scope.isSome
  begin r := r.begin
  commit lands r := r.commitOn (if lands then .ok () else .error (.io "no space left on device"))
  rollback r := r.rollback

end

/-! ## No term has two ids -/

section
variable {hash128 : StoredTerm → Hash} {X : Inline.Datatypes} {r r' : RocksStorage} {next : Tag → Nat} {db db' : Db}

def Unique (hash128 : StoredTerm → Hash) (db : Db) : Prop := ∀ id st, db.id2str id = some st → find hash128 db st = some id

/-- An id that stands for a term is found for it. -/
theorem findNode_of_reads (h : Unique hash128 db) {n : NamedNode} {id : TermId} (hr : ReadsNode db id n) : findNode hash128 db n = some id := by
  unfold ReadsNode at hr
  unfold findNode
  cases hv : Vocab.encodeIri n with
  | some v =>
    rw [hv] at hr
    rw [hr]
  | none =>
    rw [hv] at hr
    exact h _ _ hr

theorem findSubject_of_reads (h : Unique hash128 db) {s : NamedOrBlankNode} {id : TermId} (hr : ReadsSubject db id s) :
    findSubject hash128 db s = some id := by
  cases s with
  | namedNode n => exact findNode_of_reads h hr
  | blankNode b => exact h _ _ hr

theorem findTerm_of_reads (h : Unique hash128 db) {t : Term} {id : TermId} (hr : Reads X db id t) : findTerm hash128 X db t = some id := by
  induction t generalizing id with
  | namedNode n => exact findNode_of_reads h hr
  | blankNode b => exact h _ _ hr
  | literal l =>
    unfold Reads at hr
    unfold findTerm
    cases hv : Inline.encodeLiteral X l with
    | some v =>
      rw [hv] at hr
      rw [hr]
    | none =>
      rw [hv] at hr
      exact h _ _ hr
  | triple subject predicate object ih =>
    obtain ⟨s, p, o, hs, hp, ho, hrow⟩ := hr
    unfold findTerm
    rw [findSubject_of_reads h hs, findNode_of_reads h hp, ih ho]
    exact h _ _ hrow

/-- Finding looks at the dictionary families alone. -/
theorem find_congr (h₁ : db'.id2str = db.id2str) (h₂ : db'.str2id = db.str2id) (st : StoredTerm) :
    find hash128 db' st = find hash128 db st := by
  unfold find listOf
  rw [h₁, h₂]

theorem findNode_congr (h₁ : db'.id2str = db.id2str) (h₂ : db'.str2id = db.str2id) (n : NamedNode) :
    findNode hash128 db' n = findNode hash128 db n := by
  unfold findNode
  rw [find_congr h₁ h₂]

theorem findTerm_congr (h₁ : db'.id2str = db.id2str) (h₂ : db'.str2id = db.str2id) (t : Term) :
    findTerm hash128 X db' t = findTerm hash128 X db t := by
  induction t with
  | namedNode n => exact findNode_congr h₁ h₂ n
  | blankNode b => exact find_congr h₁ h₂ _
  | literal l =>
    unfold findTerm
    rw [find_congr h₁ h₂]
  | triple subject predicate object ih =>
    have hsubject : findSubject hash128 db' subject = findSubject hash128 db subject := by
      cases subject with
      | namedNode n => exact findNode_congr h₁ h₂ n
      | blankNode b => exact find_congr h₁ h₂ _
    unfold findTerm
    rw [hsubject, findNode_congr h₁ h₂, ih]
    simp only [find_congr h₁ h₂]

theorem Unique.congr (h : Unique hash128 db) (h₁ : db'.id2str = db.id2str) (h₂ : db'.str2id = db.str2id) : Unique hash128 db' := by
  intro id st hid
  rw [h₁] at hid
  rw [find_congr h₁ h₂]
  exact h id st hid

/-! ## A new term -/

/-- A term that was not found takes the next id, at the end of its candidates. -/
theorem Unique.mint (h : Unique hash128 db) (hrows : Rows next db) {st : StoredTerm} {id : TermId} (hfresh : db.id2str id = none)
    (hnone : find hash128 db st = none) (hid2str : db'.id2str = Function.update db.id2str id (some st))
    (hstr2id : db'.str2id = Function.update db.str2id (dictionaryKey hash128 st).1
      (some (if st.size ≤ inlineKeyMax then [id] else listOf db (hash128 st) ++ [id]))) : Unique hash128 db' := by
  -- candidates that were there are rows still
  have hold : ∀ d, ∀ i ∈ listOf db d, db'.id2str i = db.id2str i := by
    intro d i hi
    rw [hid2str]
    refine Function.update_of_ne (fun he => ?_) _ _
    unfold listOf at hi
    cases hkey : db.str2id (.hashed d) with
    | none =>
      rw [hkey] at hi
      cases hi
    | some ids =>
      rw [hkey] at hi
      obtain ⟨st', hrow, -⟩ := hrows.hashed d ids hkey i hi
      rw [he, hfresh] at hrow
      cases hrow
  have hfind : ∀ d st', (listOf db d).find? (fun i => db'.id2str i = some st') = (listOf db d).find? (fun i => db.id2str i = some st') :=
    fun d st' => List.find?_congr (fun i hi => by rw [hold d i hi])
  have hlist : ∀ d, listOf db' d = if ¬st.size ≤ inlineKeyMax ∧ d = hash128 st then listOf db d ++ [id] else listOf db d := by
    intro d
    unfold listOf
    rw [hstr2id]
    by_cases hsize : st.size ≤ inlineKeyMax
    · rw [dictionaryKey_exact hsize, Function.update_of_ne (by simp), if_neg (fun hc => hc.1 hsize)]
    · rw [dictionaryKey_hashed hsize]
      by_cases hd : d = hash128 st
      · subst hd
        rw [Function.update_self, if_neg hsize, if_pos ⟨hsize, rfl⟩]
        rfl
      · rw [Function.update_of_ne (by simpa using hd), if_neg (fun hc => hd hc.2)]
  intro i st' hi
  rw [hid2str] at hi
  by_cases he : i = id
  · subst he
    rw [Function.update_self] at hi
    cases hi
    unfold find at hnone ⊢
    by_cases hsize : st.size ≤ inlineKeyMax
    · rw [if_pos hsize, hstr2id, dictionaryKey_exact hsize, Function.update_self, if_pos hsize]
      rfl
    · rw [if_neg hsize] at hnone ⊢
      rw [hlist, if_pos ⟨hsize, rfl⟩, List.find?_append, hfind, hnone, Option.none_or, List.find?_singleton, hid2str, Function.update_self]
      simp
  · rw [Function.update_of_ne he] at hi
    have hfound := h i st' hi
    have hne : st' ≠ st := fun heq => by
      rw [heq, hnone] at hfound
      cases hfound
    unfold find at hfound ⊢
    by_cases hsize' : st'.size ≤ inlineKeyMax
    · rw [if_pos hsize'] at hfound ⊢
      have hkey : DictKey.exact st' ≠ (dictionaryKey hash128 st).1 := by
        unfold dictionaryKey
        split
        · simpa using hne
        · simp
      rw [hstr2id, Function.update_of_ne hkey]
      exact hfound
    · rw [if_neg hsize'] at hfound ⊢
      rw [hlist]
      split
      · rw [List.find?_append, hfind, hfound]
        rfl
      · rw [hfind, hfound]

/-! ## In a scope -/

/-- The database gives no term two ids, and what the scope interned it did not have. -/
structure Apart (hash128 : StoredTerm → Hash) (r : RocksStorage) : Prop where
  unique : Unique hash128 r.db
  minted : ∀ s, r.scope = some s → ∀ st id, s.terms st = some id → find hash128 r.db st = none

theorem new_apart : Apart hash128 new := ⟨fun _ _ h => (by cases h), fun _ h => (by cases h)⟩

theorem Apart.congr (h : Apart hash128 r) (h₁ : r'.db.id2str = r.db.id2str) (h₂ : r'.db.str2id = r.db.str2id)
    (hterms : ∀ s', r'.scope = some s' → ∃ s, r.scope = some s ∧ s'.terms = s.terms) : Apart hash128 r' := by
  refine ⟨h.unique.congr h₁ h₂, fun s' hs' st id hid => ?_⟩
  obtain ⟨s, hs, ht⟩ := hterms s' hs'
  rw [find_congr h₁ h₂]
  exact h.minted s hs st id (ht ▸ hid)

/-- What a commit would leave gives no term two ids either. -/
theorem Apart.applied (h : Apart hash128 r) (hdict : Dict hash128 r []) (hsound : Sound r []) : Unique hash128 r.applied := by
  intro id st hid
  cases hs : r.scope with
  | none =>
    have happlied : r.applied = r.db := by simp only [RocksStorage.applied, hs]
    rw [happlied] at hid ⊢
    exact h.unique id st hid
  | some s =>
    have hscope : ScopeDict hash128 r.db r.applied s := hdict.scope s hs
    -- a lookup in the scope is a lookup in what the commit would leave
    have hfind : ∀ t, (¬st.size ≤ inlineKeyMax → StoredTerm.whole st = some t) →
        r.lookupStored hash128 Dictionary.bare st t = .ok (find hash128 r.applied st) := by
      intro t ht
      rw [hdict.lookupStored_landed ht]
      exact lookupStored_eq (r := r.landed) hsound.applied rfl ht
    obtain ⟨t, ht⟩ : ∃ t, ¬st.size ≤ inlineKeyMax → StoredTerm.whole st = some t := by
      by_cases hsize : st.size ≤ inlineKeyMax
      · exact ⟨.blankNode "", fun hn => absurd hsize hn⟩
      · obtain ⟨t, ht⟩ := whole_of_large hsize
        exact ⟨t, fun _ => ht⟩
    have hlook := hfind t ht
    rw [lookupStored_scope hs] at hlook
    rw [hscope.rows] at hid
    cases hstr : s.strings id with
    | some st' =>
      rw [hstr] at hid
      cases hid
      rw [(hscope.inverse st id).2 hstr] at hlook
      exact (Except.ok.inj hlook).symm
    | none =>
      rw [hstr] at hid
      have hfound := h.unique id st hid
      cases hterm : s.terms st with
      | some id' =>
        rw [h.minted s hs st id' hterm] at hfound
        cases hfound
      | none =>
        rw [hterm] at hlook
        simp only at hlook
        rw [resolve_eq hsound.db hsound.readable ht, hfound] at hlook
        exact (Except.ok.inj hlook).symm

/-- Interning in a scope. -/
theorem Apart.intern {tag : Tag} {st : StoredTerm} {t : Term} {ops : List Pending}
    {out : Except StorageError (TermId × List Pending) × RocksStorage} (h : Apart hash128 r) (hsound : Sound r ops)
    (hscope : r.scope.isSome = true) (ht : ¬st.size ≤ inlineKeyMax → StoredTerm.whole st = some t)
    (hok : r.intern hash128 X tag st t ops = some out) : Apart hash128 out.2 ∧ out.2.scope.isSome = true := by
  unfold RocksStorage.intern at hok
  split at hok
  · cases hok
    exact ⟨h, hscope⟩
  · rw [resolve_eq hsound.db hsound.readable ht] at hok
    split at hok
    · cases hok
      exact ⟨h, hscope⟩
    · cases hok
      exact ⟨h, hscope⟩
    · rename_i hnone
      obtain ⟨id, -, rfl⟩ := allocate_eq hok
      refine ⟨⟨h.unique, fun s' hs' st' id' hid' => ?_⟩, by simpa using hscope⟩
      obtain ⟨s, hs, rfl⟩ := Option.map_eq_some_iff.1 hs'
      by_cases hst : st' = st
      · rw [hst]
        exact Except.ok.inj hnone
      · simp only [minting, Function.update_of_ne hst] at hid'
        exact h.minted s hs st' id' hid'

end

variable {hash128 : StoredTerm → Hash} {X : Inline.Datatypes} {r r' : RocksStorage} {h : Held} {c : Contents × Ids} {ops : List Pending}

/-! ## Ids through an encode -/

/-- One interning after another, in a scope. -/
theorem Apart.andThen {P : Db → TermId → Prop} {x : Option (Except StorageError (TermId × List Pending) × RocksStorage)}
    {f : TermId × List Pending → RocksStorage → Option (Except StorageError (TermId × List Pending) × RocksStorage)}
    {out : Except StorageError (TermId × List Pending) × RocksStorage} (hx : ∀ out, x = some out → Encodes r ops P out)
    (hapart : ∀ out, x = some out → Apart hash128 out.2 ∧ out.2.scope.isSome = true)
    (hf : ∀ id ops₁ r₁ out, Sound r₁ ops₁ → P (r₁.applied.write ops₁) id → Apart hash128 r₁ → r₁.scope.isSome = true →
      f (id, ops₁) r₁ = some out → Apart hash128 out.2 ∧ out.2.scope.isSome = true)
    (hok : RocksStorage.andThen x f = some out) : Apart hash128 out.2 ∧ out.2.scope.isSome = true := by
  unfold RocksStorage.andThen at hok
  split at hok
  · cases hok
  · cases hok
    exact hapart _ rfl
  · obtain ⟨id, ops₁, he, hsound, hP, -⟩ := hx _ rfl
    obtain ⟨h₁, hs₁⟩ := hapart _ rfl
    cases he
    exact hf _ _ _ _ hsound hP h₁ hs₁ hok

section
variable {out : Except StorageError (TermId × List Pending) × RocksStorage}

theorem Apart.encodeNamedNode {n : NamedNode} (h : Apart hash128 r) (hsound : Sound r ops) (hscope : r.scope.isSome = true)
    (hok : r.encodeNamedNode hash128 X n ops = some out) : Apart hash128 out.2 ∧ out.2.scope.isSome = true := by
  unfold RocksStorage.encodeNamedNode at hok
  split at hok
  · cases hok
    exact ⟨h, hscope⟩
  · exact h.intern hsound hscope (fun _ => rfl) hok

theorem Apart.encodeSubject {s : NamedOrBlankNode} (h : Apart hash128 r) (hsound : Sound r ops) (hscope : r.scope.isSome = true)
    (hok : r.encodeSubject hash128 X ops s = some out) : Apart hash128 out.2 ∧ out.2.scope.isSome = true := by
  cases s with
  | namedNode n => exact h.encodeNamedNode hsound hscope hok
  | blankNode b => exact h.intern hsound hscope (fun _ => rfl) hok

theorem Apart.encodeInto (hX : X.Lawful) {t : Term} (h : Apart hash128 r) (hsound : Sound r ops) (hscope : r.scope.isSome = true)
    (hok : r.encodeInto hash128 X ops t = some out) : Apart hash128 out.2 ∧ out.2.scope.isSome = true := by
  induction t generalizing r ops out with
  | namedNode n => exact h.encodeNamedNode hsound hscope hok
  | blankNode b => exact h.intern hsound hscope (fun _ => rfl) hok
  | literal l =>
    unfold RocksStorage.encodeInto at hok
    split at hok
    · cases hok
      exact ⟨h, hscope⟩
    · exact h.intern hsound hscope (fun _ => rfl) hok
  | triple subject predicate object ih =>
    unfold RocksStorage.encodeInto at hok
    refine Apart.andThen (fun _ hs => hsound.encodeSubject hs) (fun _ hs => h.encodeSubject hsound hscope hs)
      (fun s ops₁ r₁ _ hsound₁ _ h₁ hs₁ hok => ?_) hok
    refine Apart.andThen (fun _ hp => hsound₁.encodeNamedNode hp) (fun _ hp => h₁.encodeNamedNode hsound₁ hs₁ hp)
      (fun p ops₂ r₂ _ hsound₂ _ h₂ hs₂ hok => ?_) hok
    refine Apart.andThen (fun _ ho => hsound₂.encodeInto hX ho) (fun _ ho => ih h₂ hsound₂ hs₂ ho)
      (fun o ops₃ r₃ _ hsound₃ _ h₃ hs₃ hok => ?_) hok
    exact h₃.intern hsound₃ hs₃ (fun hsize => absurd (triple_exact s p o) hsize) hok

end

theorem commitOps_ok (hs : r.scope = none) (ops : List Pending) : r.commitOps ops = (.ok (), { r with db := r.db.write ops }) := by
  unfold commitOps
  rw [hs]

/-- Outside a scope the rows of one new term go straight to the database. -/
theorem Apart.intern_alone {tag : Tag} {st : StoredTerm} {t : Term} {res : Except StorageError Unit} {id : TermId}
    {r₁ : RocksStorage} (h : Apart hash128 r) (hsound : Sound r []) (hscope : r.scope = none) (htag : tag = st.tag)
    (ht : ¬st.size ≤ inlineKeyMax → StoredTerm.whole st = some t) (hok : r.intern hash128 X tag st t [] = some (.ok (id, ops), r₁))
    (hcommit : r₁.commitOps ops = (res, r')) : Apart hash128 r' := by
  have hnone : ∀ {r₁ : RocksStorage}, r₁.scope = none → r₁.commitOps ops = (res, r') → r' = { r₁ with db := r₁.db.write ops } := by
    intro r₁ hs hcommit
    rw [commitOps_ok hs] at hcommit
    exact (Prod.mk.inj hcommit).2.symm
  unfold RocksStorage.intern at hok
  rw [hscope, Option.bind_none] at hok
  simp only at hok
  rw [resolve_eq hsound.db hsound.readable ht] at hok
  split at hok
  · cases hok
  · cases hok
    rw [hnone hscope hcommit]
    exact h.congr rfl rfl (fun s hs => by rw [hscope] at hs; cases hs)
  · rename_i hfind
    obtain ⟨id', hid, heq⟩ := allocate_eq hok
    cases heq
    rw [hnone (by rw [hscope]; rfl) hcommit]
    refine ⟨?_, fun s hs => by simp [hscope] at hs⟩
    obtain ⟨hidtag, hpay⟩ := TermId.checked_eq_some hid
    have hn : Next r.next st id := ⟨hidtag.trans htag, by rw [hpay, htag]⟩
    have hlist : listFor hash128 r st id = if st.size ≤ inlineKeyMax then [id] else listOf r.db (hash128 st) ++ [id] := by
      unfold listFor candidatesFor
      rw [hscope, Option.bind_none]
      rfl
    refine h.unique.mint hsound.db (hn.fresh hsound.db) (Except.ok.inj hfind) rfl ?_
    rw [← hlist]
    rfl

/-- Every encode gives its term an id of its own, unless it is a triple term outside a scope. -/
theorem Apart.encode (hX : X.Lawful) {t : Term} {out : Except StorageError TermId × RocksStorage} (h : Apart hash128 r)
    (hsound : Sound r []) (hor : r.scope.isSome = true ∨ t.isTriple = false) (hok : r.encode hash128 X t = some out) :
    Apart hash128 out.2 := by
  unfold RocksStorage.encode RocksStorage.andThen at hok
  split at hok
  · cases hok
  · rename_i e r₁ he
    obtain ⟨id, ops', hout, -⟩ := hsound.encodeInto hX he
    cases hout
  · rename_i x r₁ he
    have hlast : ∃ res, r₁.commitOps x.2 = (res, out.2) := by
      simp only at hok
      split at hok
      all_goals
        rename_i r₂ hcommit
        cases hok
        exact ⟨_, hcommit⟩
    obtain ⟨res, hcommit⟩ := hlast
    clear hok
    cases hs : r.scope with
    | some s =>
      obtain ⟨h₁, hs₁⟩ := h.encodeInto hX hsound (by rw [hs]; rfl) he
      obtain ⟨s₁, hs₁⟩ := Option.isSome_iff_exists.1 hs₁
      obtain ⟨hdb, hscope⟩ := (commitOps_landed hcommit).1.some s₁ hs₁
      refine h₁.congr (by rw [hdb]) (by rw [hdb]) (fun s' hs' => ⟨s₁, hs₁, ?_⟩)
      rw [hscope] at hs'
      cases hs'
      rfl
    | none =>
      rw [hs] at hor
      have htriple : t.isTriple = false := hor.resolve_left (by simp)
      obtain ⟨id, ops'⟩ := x
      have hsame : r₁ = r → ops' = [] → Apart hash128 out.2 := by
        rintro rfl rfl
        rw [commitOps_ok hs] at hcommit
        obtain ⟨-, hout⟩ := Prod.mk.inj hcommit
        rw [← hout]
        exact h.congr rfl rfl (fun s' hs' => ⟨s', hs', rfl⟩)
      cases t with
      | triple subject predicate object => cases htriple
      | blankNode b => exact h.intern_alone hsound hs rfl (fun _ => rfl) he hcommit
      | namedNode n =>
        change r.encodeNamedNode hash128 X n [] = _ at he
        unfold RocksStorage.encodeNamedNode at he
        split at he
        · cases he
          exact hsame rfl rfl
        · exact h.intern_alone hsound hs rfl (fun _ => rfl) he hcommit
      | literal l =>
        unfold RocksStorage.encodeInto at he
        split at he
        · cases he
          exact hsame rfl rfl
        · exact h.intern_alone hsound hs rfl (fun _ => rfl) he hcommit

/-! ## What it stands for -/

/-- The storage stands for these contents, with the ids of the dictionary families. -/
structure Stands (hash128 : StoredTerm → Hash) (X : Inline.Datatypes) (r : RocksStorage) (h : Held) : Prop where
  good : Good hash128 r ⟨h.contents, h.saved.map (·.1)⟩
  sound : Sound r []
  apart : Apart hash128 r
  ids : ∀ t, h.ids t = findTerm hash128 X r.applied t
  saved : ∀ c, h.saved = some c → ∀ t, c.2 t = findTerm hash128 X r.db t

/-- A scope is open, and abandoning it leaves what it was opened on. -/
def Open (hash128 : StoredTerm → Hash) (X : Inline.Datatypes) (r : RocksStorage) (c : Contents × Ids) : Prop :=
  r.scope.isSome = true ∧ Stands hash128 X r.rollback ⟨c.1, c.2, none⟩

/-- The rows a commit would leave can be read before it. -/
theorem Dict.readable (h : Dict hash128 r []) : Readable r r.applied := fun id st hid => by
  rw [h.row_landed id]
  exact hid

theorem applied_eq (hs : r.scope = none) : r.applied = r.db := by simp only [RocksStorage.applied, hs]

theorem Stands.readable (h' : Stands hash128 X r h) : Readable r r.applied := h'.good.dict.readable

theorem Stands.rows (h' : Stands hash128 X r h) : Rows r.next r.applied := h'.sound.applied

theorem Stands.reads (h' : Stands hash128 X r h) {t : Term} {i : TermId} (hi : h.ids t = some i) : Reads X r.applied i t := by
  rw [h'.ids] at hi
  exact findTerm_reads h'.rows hi

theorem Stands.decode (hX : X.Lawful) (h' : Stands hash128 X r h) {t : Term} {i : TermId} (hi : h.ids t = some i) :
    r.decode X i = .ok (some t) :=
  decode_reads hX h'.rows h'.readable (h'.reads hi)

theorem Stands.scope_none (h' : Stands hash128 X r h) (hs : h.saved = none) : r.scope = none := by
  have hscope := h'.good.sim.scope
  simp only [hs, Option.map_none, Option.isSome_none] at hscope
  exact Option.not_isSome_iff_eq_none.1 (by rw [hscope]; exact Bool.false_ne_true)

theorem Stands.inScope (h' : Stands hash128 X r h) : r.scope.isSome = h.saved.isSome := by
  rw [h'.good.sim.scope, Option.isSome_map]

theorem Stands.lookup (h' : Stands hash128 X r h) (t : Term) : r.lookup hash128 X t = .ok (h.ids t) := by
  rw [h'.good.dict.lookup_landed, lookup_eq (r := r.landed) h'.rows rfl, h'.ids]
  rfl

/-- The ids of the families, where no two terms have one. -/
noncomputable def idsOf (hash128 : StoredTerm → Hash) (hX : X.Lawful) (hrows : Rows r.next r.applied) (hr : Readable r r.applied) : Ids :=
  .ofLookup (findTerm hash128 X r.applied) (fun _ _ _ ht hu =>
    Option.some.inj (Except.ok.inj ((decode_reads hX hrows hr (findTerm_reads hrows ht)).symm.trans
      (decode_reads hX hrows hr (findTerm_reads hrows hu)))))

/-- Where rows have only been added, a term keeps its id. -/
theorem findTerm_mono {next : Tag → Nat} {db db' : Db} (hrows : Rows next db) (hunique : Unique hash128 db')
    (hle : ∀ i st, db.id2str i = some st → db'.id2str i = some st) {t : Term} {i : TermId} (hi : findTerm hash128 X db t = some i) :
    findTerm hash128 X db' t = some i :=
  findTerm_of_reads hunique ((findTerm_reads hrows hi).mono hle)

/-- An id the dictionary issued has a row. -/
theorem Reads.row (hX : X.Lawful) {db : Db} {i : TermId} {t : Term} (ht : Reads X db i t) (hissues : Dictionary.issues i.tag = true) :
    ∃ st, db.id2str i = some st := by
  cases t with
  | namedNode n =>
    unfold Reads ReadsNode at ht
    split at ht
    · rename_i v hv
      rw [ht, (Vocab.decodeIri_encodeIri hv).1] at hissues
      cases hissues
    · exact ⟨_, ht⟩
  | blankNode b => exact ⟨_, ht⟩
  | literal l =>
    unfold Reads at ht
    split at ht
    · rename_i v hv
      rw [ht, Dictionary.issues_inline (Inline.decode_encodeLiteral X hX hv).1] at hissues
      cases hissues
    · exact ⟨_, ht⟩
  | triple subject predicate object =>
    obtain ⟨s, p, o, -, -, -, hst⟩ := ht
    exact ⟨_, hst⟩

theorem Stands.encode (hX : X.Lawful) (h' : Stands hash128 X r h) {t : Term} {i : TermId} (hor : h.saved.isSome ∨ t.isTriple = false)
    (henc : r.encode hash128 X t = some (.ok i, r')) : ∃ ids, h.ids ≤ ids ∧ ids t = some i ∧ Stands hash128 X r' { h with ids } := by
  have hgood := h'.good.encode henc
  obtain ⟨hsound, hread, hgrown⟩ := h'.sound.encode hX henc
  have hapart := h'.apart.encode hX h'.sound (by rw [h'.inScope]; exact hor) henc
  have hunique := hapart.applied hgood.dict hsound
  have hmono : ∀ {u j}, findTerm hash128 X r.applied u = some j → findTerm hash128 X r'.applied u = some j :=
    findTerm_mono h'.rows hunique hgrown
  refine ⟨idsOf hash128 hX hsound.applied hgood.dict.readable, fun u j hj => ?_, findTerm_of_reads hunique (hread i rfl), hgood, hsound,
    hapart, fun _ => rfl, fun c hc u => ?_⟩
  · have hj' := h'.ids u ▸ hj
    exact hmono hj'
  · -- with a scope open the database has not moved
    have hs : r.scope.isSome = true := by rw [h'.inScope, hc]; rfl
    have hdb : r'.db = r.db := by
      have hback := congrArg RocksStorage.db ((encode_keeps henc) hs).2.2
      obtain ⟨s, hs⟩ := Option.isSome_iff_exists.1 hs
      obtain ⟨s', hs'⟩ := Option.isSome_iff_exists.1 ((encode_keeps henc) (by rw [hs]; rfl)).1
      unfold RocksStorage.rollback at hback
      rw [hs, hs'] at hback
      exact hback
    rw [hdb]
    exact h'.saved c hc u

/-- A write leaves the dictionary as it was. -/
theorem Off.apart (hoff : Off r r') (h : Apart hash128 r) : Apart hash128 r' := by
  refine h.congr hoff.families.1 hoff.families.2.1 (fun s' hs' => ?_)
  obtain ⟨⟨ops, f, g, hland, -⟩, -⟩ := hoff
  cases hs : r.scope with
  | none =>
    rw [(hland.none hs).1] at hs'
    cases hs'
  | some s =>
    rw [(hland.some s hs).2] at hs'
    cases hs'
    exact ⟨s, rfl, rfl⟩

theorem Stands.write (h' : Stands hash128 X r h) {op : Index.Op} {b : Bool} (hw : r.write op = (.ok b, r')) :
    b = h.contents.changes op ∧ Stands hash128 X r' (h.write op) := by
  obtain ⟨hgood, hb⟩ := h'.good.write hw
  have hoff := write_off r op
  rw [hw] at hoff
  obtain ⟨h₁, h₂, h₃, h₄⟩ := hoff.families
  exact ⟨hb, hgood, h'.sound.off hoff, hoff.apart h'.apart, fun t => (h'.ids t).trans (findTerm_congr h₃ h₄ t).symm,
    fun c hc t => (h'.saved c hc t).trans (findTerm_congr h₁ h₂ t).symm⟩

theorem Stands.begin (h' : Stands hash128 X r h) (hok : r.begin = .ok r') :
    h.saved = none ∧ Stands hash128 X r' { h with saved := some (h.contents, h.ids) } := by
  have hnone := (begin_ok hok).1
  have hsaved : h.saved = none := Option.not_isSome_iff_eq_none.1 (by rw [← h'.inScope, hnone]; simp)
  have hgood := h'.good.begin hok
  have hsound := h'.sound.begin hok
  have hids : ∀ t, h.ids t = findTerm hash128 X r.db t := fun t => by rw [h'.ids, applied_eq hnone]
  unfold RocksStorage.begin at hok
  rw [hnone] at hok
  cases hok
  refine ⟨hsaved, ?_, hsound, ⟨h'.apart.unique, fun s hs st id hid => ?_⟩, hids, fun c hc => ?_⟩
  · simpa only [Storage.Scoped.step, hsaved, Option.map_none, Option.isSome_none, Bool.false_eq_true, if_false, Option.map_some] using hgood
  · cases hs
    cases hid
  · cases hc
    exact hids

theorem Stands.commit (h' : Stands hash128 X r h) (hok : r.commit = .ok r') : Stands hash128 X r' { h with saved := none } := by
  obtain ⟨hgood, hland⟩ := h'.good.commit hok
  have hsound := h'.sound.commit hok
  subst hland
  exact ⟨hgood, hsound, ⟨h'.apart.applied h'.good.dict h'.sound, fun s hs => by cases hs⟩, h'.ids, fun c hc => by cases hc⟩

theorem rollback_db (r : RocksStorage) : r.rollback.db = r.db := by
  unfold RocksStorage.rollback
  cases r.scope <;> rfl

theorem rollback_scope (r : RocksStorage) : r.rollback.scope = none := by
  unfold RocksStorage.rollback
  cases hs : r.scope with
  | none => exact hs
  | some s => rfl

theorem Stands.rollback (h' : Stands hash128 X r h) {c : Contents × Ids} (hc : h.saved = some c) :
    Stands hash128 X r.rollback ⟨c.1, c.2, none⟩ := by
  have hgood := h'.good.rollback
  have hstep : (⟨h.contents, h.saved.map (·.1)⟩ : Storage.Scoped).step .rollback = ⟨c.1, none⟩ := by
    simp only [Storage.Scoped.step, Storage.Scoped.base, hc, Option.map_some, Option.getD_some]
  rw [hstep] at hgood
  refine ⟨hgood, h'.sound.rollback, ⟨?_, fun s hs => ?_⟩, fun t => ?_, fun c hc => by cases hc⟩
  · rw [rollback_db]
    exact h'.apart.unique
  · rw [rollback_scope] at hs
    cases hs
  · rw [applied_eq (rollback_scope r), rollback_db]
    exact h'.saved c hc t

/-- Ids may be passed over. -/
theorem Stands.later {next : Tag → Nat} {n : Nat} (h' : Stands hash128 X r h) (hs : r.scope = none) (hle : ∀ tag, r.next tag ≤ next tag) :
    Stands hash128 X { r with next, generation := n } h := by
  have hsim := h'.good.sim
  have happlied := applied_eq hs
  have hdict : DbDict next r.db := h'.good.dict.db.mono hle
  have hrows : Rows next r.db := h'.sound.db.mono hle
  have heq : RocksStorage.applied { r with next, generation := n } = r.applied := rfl
  refine ⟨⟨⟨?_, hsim.db, hsim.scope, hsim.quads, hsim.graphs, hsim.quadCount, hsim.counts, hsim.savedCount, hsim.savedCounts⟩,
    ⟨hdict, ?_, fun id st hid => ?_, fun s hs' => ?_⟩⟩, hrows.sound hs, ⟨h'.apart.unique, fun s hs' => ?_⟩, h'.ids, h'.saved⟩
  · exact hsim.applied
  · change DbDict next (RocksStorage.applied { r with next, generation := n })
    rw [heq, happlied]
    exact hdict
  · exact h'.good.dict.grown id st hid
  all_goals
    rw [show RocksStorage.scope { r with next, generation := n } = none from hs] at hs'
    cases hs'

/-! ## Outside a scope nothing is refused -/

theorem encode_ok (hX : X.Lawful) {t : Term} {res : Except StorageError TermId} (hsound : Sound r []) (hs : r.scope = none)
    (henc : r.encode hash128 X t = some (res, r')) : ∃ i, res = .ok i := by
  unfold RocksStorage.encode RocksStorage.andThen at henc
  split at henc
  · cases henc
  · rename_i e r₁ he
    obtain ⟨id, ops', hout, -⟩ := hsound.encodeInto hX he
    cases hout
  · rename_i x r₁ he
    have hs₁ : r₁.scope = none := (encodeInto_internsTo he).1.none hs
    simp only [commitOps_ok hs₁] at henc
    cases henc
    exact ⟨_, rfl⟩

/-- A write that was taken, with no scope opened by it. -/
def Taken (out : Except StorageError Bool × RocksStorage) : Prop := (∃ b, out.1 = .ok b) ∧ out.2.scope = none

theorem insertEncoded_taken (hs : r.scope = none) (q : EncodedQuad) : Taken (r.insertEncoded q) := by
  have hscope := hs
  unfold insertEncoded
  split
  · exact ⟨⟨_, rfl⟩, hs⟩
  · simp only [commitOps, hs]
    cases q.graphName with
    | none => exact ⟨⟨_, rfl⟩, rfl⟩
    | some g => exact ⟨⟨_, rfl⟩, rfl⟩

theorem removeEncoded_taken (hs : r.scope = none) (q : EncodedQuad) : Taken (r.removeEncoded q) := by
  unfold removeEncoded
  split
  · simp only [commitOps, hs]
    exact ⟨⟨_, rfl⟩, rfl⟩
  · exact ⟨⟨_, rfl⟩, hs⟩

theorem insertNamedGraph_taken (hs : r.scope = none) (g : TermId) : Taken (r.insertNamedGraph g) := by
  unfold insertNamedGraph
  split
  · exact ⟨⟨_, rfl⟩, hs⟩
  · simp only [commitOps_ok hs]
    exact ⟨⟨_, rfl⟩, by simp [noteGraph, hs]⟩

theorem removeEach_taken (hs : r.scope = none) (l : List EncodedQuad) : (r.removeEach l).1 = .ok () ∧ (r.removeEach l).2.scope = none := by
  induction l generalizing r with
  | nil => exact ⟨rfl, hs⟩
  | cons q l ih =>
    obtain ⟨⟨b, hb⟩, hs₁⟩ := removeEncoded_taken hs q
    cases hq : r.removeEncoded q with
    | mk res r₁ =>
      rw [hq] at hb hs₁
      simp only at hb hs₁
      subst hb
      simp only [removeEach, hq]
      exact ih hs₁

theorem removeNamedGraph_taken (hs : r.scope = none) (g : TermId) : Taken (r.removeNamedGraph g) := by
  obtain ⟨hok, hs₁⟩ := removeEach_taken hs (r.scan none none none (.named g))
  unfold removeNamedGraph
  cases heach : r.removeEach (r.scan none none none (.named g)) with
  | mk res r₁ =>
    rw [heach] at hok hs₁
    simp only at hok hs₁
    subst hok
    simp only
    split
    · simp only [commitOps_ok hs₁]
      exact ⟨⟨_, rfl⟩, by simp [noteGraph, hs₁]⟩
    · exact ⟨⟨_, rfl⟩, hs₁⟩

theorem write_taken (hs : r.scope = none) (op : Index.Op) : Taken (r.write op) := by
  cases op with
  | insert q => exact insertEncoded_taken hs q
  | remove q => exact removeEncoded_taken hs q
  | insertNamedGraph g => exact insertNamedGraph_taken hs g
  | removeNamedGraph g => exact removeNamedGraph_taken hs g

/-! ## The end of a scope -/

/-- A commit that reached the disk, or had nothing to write, is a commit. -/
theorem commitOn_commit {disk : Except StorageError Unit} (h : r.commitOn disk = (.ok (), r')) : r.commit = .ok r' := by
  unfold commitOn writePending at h
  unfold RocksStorage.commit
  cases hs : r.scope with
  | none =>
    rw [hs] at h
    cases h
  | some s =>
    rw [hs] at h
    simp only at h ⊢
    by_cases hempty : s.pending.isEmpty = true
    · rw [if_pos hempty] at h
      rw [List.isEmpty_iff.1 hempty]
      cases h
      rfl
    · rw [if_neg hempty] at h
      cases disk with
      | error e => cases h
      | ok u =>
        cases h
        rfl

theorem Open.next (ho : Open hash128 X r c) (hkeeps : Keeps r r') : Open hash128 X r' c := by
  obtain ⟨hscope, hle, hback⟩ := hkeeps ho.1
  refine ⟨hscope, ?_⟩
  rw [hback]
  exact ho.2.later (rollback_scope r) (fun tag => by rw [rollback_next]; exact hle tag)

theorem Open.refused {disk : Except StorageError Unit} {e : StorageError} (ho : Open hash128 X r c)
    (h : r.commitOn disk = (.error e, r')) : Stands hash128 X r' ⟨c.1, c.2, none⟩ := by
  obtain ⟨s, hs⟩ := Option.isSome_iff_exists.1 ho.1
  rw [commitOn_error hs h]
  exact ho.2.later (rollback_scope r) (fun _ => le_rfl)

/-! ## Walks -/

/-- The rows of the database come by themselves, the rest as they decode. -/
theorem walkRow_eq {id : TermId} {st : StoredTerm} {t : Term} (hissues : Dictionary.issues id.tag = true) (hrow : r.row id = some st)
    (hdb : r.db.id2str id = some st) (hdec : r.decode X id = .ok (some t)) : r.walkRow X id = .ok (some (id, t)) := by
  unfold walkRow
  rw [hdb]
  cases st with
  | triple s p o =>
    simp only [hdec]
    rfl
  | iri n | blank b | literal l =>
    have hwhole := decode_whole (X := X) hissues hrow rfl
    rw [hdec] at hwhole
    cases hwhole
    rfl

theorem Stands.mem_forEachInRange (hX : X.Lawful) (h' : Stands hash128 X r h) {tag : Tag} {start stop : Nat} {l : List (TermId × Term)}
    {t : Term} {i : TermId} (hissues : Dictionary.issues tag = true) (hok : r.forEachInRange X tag start stop = .ok l)
    (hi : h.ids t = some i) (htag : i.tag = tag) (hstart : start ≤ i.payload) (hstop : i.payload < stop) : (i, t) ∈ l := by
  have hrange := TermId.mem_range htag hissues hstart hstop
  have hdec := h'.decode hX hi
  have hinline : Inline.inlineTag tag = false := by
    cases hin : Inline.inlineTag tag with
    | false => rfl
    | true => rw [Dictionary.issues_inline hin] at hissues; cases hissues
  unfold forEachInRange at hok
  rw [hinline] at hok
  simp only [Bool.false_eq_true, if_false] at hok
  obtain ⟨stored, hstored, hok⟩ := Inverting.bind_inv (m := Except StorageError) hok
  obtain ⟨minted, hminted, hok⟩ := Inverting.bind_inv (m := Except StorageError) hok
  cases hok
  obtain ⟨st, hst⟩ := (h'.reads hi).row hX (htag ▸ hissues)
  rw [List.mem_append, List.reduceOption_mem_iff, List.reduceOption_mem_iff]
  have hrow : r.row i = some st := h'.readable i st hst
  -- the row is in the database, or the scope has minted it
  cases hs : r.scope.bind (fun scope => scope.strings i) with
  | none =>
    left
    have hdb : r.db.id2str i = some st := by
      unfold row at hrow
      rw [hs] at hrow
      exact hrow
    exact mem_of_mapM hstored hrange (walkRow_eq (htag ▸ hissues) hrow hdb hdec)
  | some st' =>
    right
    refine mem_of_mapM hminted hrange ?_
    unfold walkScope
    rw [hs]
    simp only [hdec]
    rfl

/-! ## The backend -/

theorem lawful (hX : X.Lawful) : (backend hash128 X).Lawful (Stands hash128 X) (Open hash128 X) where
  lookup := by
    intro r h t i hs hok
    exact Except.ok.inj (hok.symm.trans (hs.lookup t))
  decode hs hi := Stands.decode hX hs hi
  contains := by
    intro r h e b hs hok
    cases hok
    exact eq_of_iff ((hs.good.sim.containsEncoded e).trans decide_eq_true_iff.symm)
  scan_nodup := by
    intro r h x p o g qs hs hok
    cases hok
    exact hs.good.sim.scan_nodup x p o g
  mem_scan := by
    intro r h x p o g qs e hs hok
    cases hok
    exact hs.good.sim.mem_scan x p o g e
  containsNamedGraph := by
    intro r h g b hs hok
    cases hok
    exact eq_of_iff ((hs.good.sim.containsNamedGraph g).trans decide_eq_true_iff.symm)
  mem_namedGraphs := by
    intro r h gs g hs hok
    cases hok
    exact hs.good.sim.mem_namedGraphs g
  len hs := hs.good.sim.quadCount
  issued := by
    intro r h t i hs hi hissues
    obtain ⟨st, hst⟩ := (hs.reads hi).row hX hissues
    have hlt := (hs.rows.tag i st hst).2
    change i.payload < dictionaryCountFor r i.tag
    cases htag : i.tag <;> rw [htag] at hissues hlt <;> first | exact hlt | cases hissues
  mem_forEachInRange hs hissues hok hi htag hm hn := Stands.mem_forEachInRange hX hs hissues hok hi htag hm hn
  inScope hs := Stands.inScope hs
  encode hs hor henc := Stands.encode hX hs hor henc
  encode_ok hs hsaved henc := encode_ok hX (Stands.sound hs) (Stands.scope_none hs hsaved) henc
  write hs hw := Stands.write hs hw
  write_ok := by
    intro r h op res r' hs hsaved hw
    obtain ⟨⟨b, hb⟩, -⟩ := write_taken (hs.scope_none hsaved) op
    exact ⟨b, (congrArg Prod.fst hw).symm.trans hb⟩
  begin hs hok := Stands.begin hs hok
  commit hs _ hc := Stands.commit hs (commitOn_commit hc)
  opened hs hc := ⟨by rw [Stands.inScope hs, hc]; rfl, Stands.rollback hs hc⟩
  open_encode ho henc := Open.next ho (encode_keeps henc)
  open_write := by
    intro r c op res r' ho hw
    have hkeeps := write_keeps r op
    change r.write op = (res, r') at hw
    rw [hw] at hkeeps
    exact ho.next hkeeps
  open_inScope ho := ho.1
  rollback := by
    intro r c ho
    exact ⟨c.2, le_rfl, ho.2⟩
  commit_error := by
    intro r c b e r' ho hc
    exact ⟨c.2, le_rfl, Open.refused ho hc⟩

/-- An empty storage stands for nothing. -/
theorem new_stands (hX : X.Lawful) : ∃ ids, Stands hash128 X new ⟨.empty, ids, none⟩ := by
  have hgood : Good hash128 new .new := new_good
  exact ⟨idsOf hash128 hX new_sound.applied hgood.dict.readable, hgood, new_sound, new_apart, fun _ => rfl, fun _ hc => by cases hc⟩

end Holos.RocksStorage
