import Holos.Store.Bulk
import Holos.Store.RocksScope
/-!
# Steps of a bulk load

What each step of a load leaves alone, for whatever is shown about the rest.
-/

namespace Holos.Load

open RocksStorage (beside offDictionary)

variable {config : Config} {finished : Nat → Bool} {fx : StoredTerm → UInt64} {hash128 : StoredTerm → Hash}
  {X : Inline.Datatypes} {l l' : Load}

/-! ## Buffering -/

theorem divert_eq (state : BulkState) (ops : List Pending) :
    ∃ dict, ops.foldl divert state = { state with pending := state.pending ++ ops.filter offDictionary, dict } := by
  induction ops generalizing state with
  | nil => exact ⟨state.dict, by simp⟩
  | cons op ops ih =>
    obtain ⟨dict, hd⟩ := ih (divert state op)
    refine ⟨dict, ?_⟩
    rw [List.foldl_cons, hd]
    cases op with
    | putId2str | putStr2id => rfl
    | _ =>
      simp only [divert, List.append_assoc]
      rfl

/-- What settling and handing over a window leave alone. -/
structure Settled (l l' : Load) : Prop where
  index : l'.storage.db.index = l.storage.db.index
  generation : l'.storage.generation = l.storage.generation
  scope : l'.storage.scope = l.storage.scope
  pending : l'.state.pending = l.state.pending
  quads : l'.state.quads = l.state.quads
  spilled : l'.state.spilled = l.state.spilled
  graphs : l'.state.graphs = l.state.graphs

theorem Settled.refl (l : Load) : Settled l l := ⟨rfl, rfl, rfl, rfl, rfl, rfl, rfl⟩

theorem Settled.trans {l'' : Load} (h : Settled l l') (h' : Settled l' l'') : Settled l l'' where
  index := h'.index.trans h.index
  generation := h'.generation.trans h.generation
  scope := h'.scope.trans h.scope
  pending := h'.pending.trans h.pending
  quads := h'.quads.trans h.quads
  spilled := h'.spilled.trans h.spilled
  graphs := h'.graphs.trans h.graphs

theorem settleDictionary_settled (l : Load) (wait : Bool) : Settled l (l.settleDictionary finished wait) := by
  unfold settleDictionary
  split
  · exact .refl l
  · split
    · exact ⟨rfl, rfl, rfl, rfl, rfl, rfl, rfl⟩
    · exact ⟨rfl, rfl, rfl, rfl, rfl, rfl, rfl⟩

theorem flushDictionary_settled (l : Load) : Settled l (l.flushDictionary config finished) := by
  have h := @settleDictionary_settled finished l true
  unfold flushDictionary
  exact ⟨h.index, h.generation, h.scope, h.pending, h.quads, h.spilled, h.graphs⟩

/-! ## Encodes -/

variable {ops : List Pending} {out : Except StorageError (TermId × List Pending) × Load}

/-- The candidates a new id is put with. -/
def listFor (hash128 : StoredTerm → Hash) (l : Load) (st : StoredTerm) (id : TermId) : List TermId :=
  if st.size ≤ inlineKeyMax then [id] else (l.storage.db.str2id (.hashed (hash128 st))).getD [] ++ [id]

/-- The load once an id is given out. -/
def minting (fx : StoredTerm → UInt64) (l : Load) (tag : Tag) (st : StoredTerm) (id : TermId) : Load :=
  let l := { l with
    storage := { l.storage with next := Function.update l.storage.next tag (l.storage.next tag + 1) }
    state := { l.state with seen := l.state.seen.map (fun seen : Seen => seen.insert (fx st)) } }
  l.remember st (.new id l.state.position)

theorem allocate_eq {tag : Tag} {st : StoredTerm} (h : l.allocate fx hash128 tag st ops = some out) :
    ∃ id, TermId.checked tag (l.storage.next tag) = some id ∧
      out = (.ok (id, ops ++ [.putDefault (.next tag) (l.storage.next tag + 1), .putId2str id st,
        .putStr2id (dictionaryKey hash128 st).1 (listFor hash128 l st id)]), minting fx l tag st id) := by
  obtain ⟨id, hid, rfl⟩ := Option.map_eq_some_iff.1 h
  refine ⟨id, hid, ?_⟩
  by_cases hsize : st.size ≤ inlineKeyMax
  · simp [dictionaryKey, hsize, listFor, minting]
  · simp [dictionaryKey, hsize, listFor, minting, remember]

/-- What interning in a load leaves alone: it moves the cache, the filter and the id counters. -/
structure Interned (l l' : Load) : Prop where
  db : l'.storage.db = l.storage.db
  generation : l'.storage.generation = l.storage.generation
  scope : l'.storage.scope = l.storage.scope
  pending : l'.state.pending = l.state.pending
  quads : l'.state.quads = l.state.quads
  spilled : l'.state.spilled = l.state.spilled
  graphs : l'.state.graphs = l.state.graphs

theorem Interned.refl (l : Load) : Interned l l := ⟨rfl, rfl, rfl, rfl, rfl, rfl, rfl⟩

theorem Interned.trans {l'' : Load} (h : Interned l l') (h' : Interned l' l'') : Interned l l'' where
  db := h'.db.trans h.db
  generation := h'.generation.trans h.generation
  scope := h'.scope.trans h.scope
  pending := h'.pending.trans h.pending
  quads := h'.quads.trans h.quads
  spilled := h'.spilled.trans h.spilled
  graphs := h'.graphs.trans h.graphs

/-- And the rows gathered are not of the index. -/
def InternsTo (l : Load) (ops : List Pending) (out : Except StorageError (TermId × List Pending) × Load) : Prop :=
  Interned l out.2 ∧ ∀ x, out.1 = .ok x → RocksStorage.Gathers ops x.2

theorem InternsTo.same {id : TermId} (h : Interned l l') : InternsTo l ops (.ok (id, ops), l') :=
  ⟨h, fun x hx => by cases hx; exact .refl ops⟩

theorem intern_internsTo {tag : Tag} {st : StoredTerm} {t : Term} (h : l.intern fx hash128 X tag st t ops = some out) :
    InternsTo l ops out := by
  unfold intern at h
  simp only at h
  split at h
  · cases h
    exact .same ⟨rfl, rfl, rfl, rfl, rfl, rfl, rfl⟩
  · split at h
    · cases h
      exact ⟨⟨rfl, rfl, rfl, rfl, rfl, rfl, rfl⟩, fun x hx => by cases hx⟩
    · cases h
      exact .same ⟨rfl, rfl, rfl, rfl, rfl, rfl, rfl⟩
    · obtain ⟨id, -, rfl⟩ := allocate_eq h
      refine ⟨⟨rfl, rfl, rfl, rfl, rfl, rfl, rfl⟩, fun x hx => ?_⟩
      cases hx
      exact ⟨_, rfl, by simp [beside]⟩

theorem andThen_internsTo {x : Option (Except StorageError (TermId × List Pending) × Load)}
    {f : TermId × List Pending → Load → Option (Except StorageError (TermId × List Pending) × Load)}
    (hx : ∀ out, x = some out → InternsTo l ops out)
    (hf : ∀ id ops₁ l₁ out, f (id, ops₁) l₁ = some out → InternsTo l₁ ops₁ out) (h : andThen x f = some out) :
    InternsTo l ops out := by
  unfold andThen at h
  split at h
  · cases h
  · cases h
    exact ⟨(hx _ rfl).1, fun x hx => by cases hx⟩
  · obtain ⟨h₁, h₂⟩ := hx _ rfl
    obtain ⟨h₃, h₄⟩ := hf _ _ _ _ h
    exact ⟨h₁.trans h₃, fun x hx => (h₂ _ rfl).trans (h₄ x hx)⟩

theorem encodeNamedNode_internsTo {n : NamedNode} (h : l.encodeNamedNode fx hash128 X n ops = some out) : InternsTo l ops out := by
  unfold encodeNamedNode at h
  split at h
  · cases h
    exact .same (.refl l)
  · exact intern_internsTo h

theorem encodeSubject_internsTo {s : NamedOrBlankNode} (h : l.encodeSubject fx hash128 X ops s = some out) :
    InternsTo l ops out := by
  cases s with
  | namedNode n => exact encodeNamedNode_internsTo h
  | blankNode b => exact intern_internsTo h

theorem encodeInto_internsTo {t : Term} (h : l.encodeInto fx hash128 X ops t = some out) : InternsTo l ops out := by
  induction t generalizing l ops out with
  | namedNode n => exact encodeNamedNode_internsTo h
  | blankNode b => exact intern_internsTo h
  | literal lit =>
    unfold encodeInto at h
    split at h
    · cases h
      exact .same (.refl l)
    · exact intern_internsTo h
  | triple subject predicate object ih =>
    unfold encodeInto at h
    exact andThen_internsTo (fun _ hs => encodeSubject_internsTo hs)
      (fun _ _ _ _ hp => andThen_internsTo (fun _ hp => encodeNamedNode_internsTo hp)
        (fun _ _ _ _ ho => andThen_internsTo (fun _ ho => ih ho) (fun _ _ _ _ hi => intern_internsTo hi) ho) hp) h

end Holos.Load
