import Holos.Store.DictionaryTheorems
import Holos.Store.RocksDictionary
/-!
# Commit scopes of the on-disk tier

Whatever is done in a scope, refused writes among it, the database and the counters the scope
opened on stay, so a rollback goes back to them. And as long as nothing was refused, every read
in the scope is the read the commit would leave.
-/

namespace Holos.RocksStorage

open Lib

variable {hash128 : StoredTerm → Hash} {X : Inline.Datatypes} {r r' : RocksStorage} {a : Storage.Scoped}

/-! ## What a scope cannot change -/

/-- With a scope open: it stays open, what a rollback leaves is the same but for the id
counters, and those only move on. -/
def Keeps (r r' : RocksStorage) : Prop :=
  r.scope.isSome = true → r'.scope.isSome = true ∧ (∀ tag, r.next tag ≤ r'.next tag) ∧
    r'.rollback = { r.rollback with next := r'.next }

theorem rollback_next (r : RocksStorage) : r.rollback.next = r.next := by
  unfold rollback
  cases r.scope <;> rfl

theorem Keeps.refl (r : RocksStorage) : Keeps r r := fun hs => ⟨hs, fun _ => le_rfl, by rw [← rollback_next r]⟩

theorem Keeps.trans {r'' : RocksStorage} (h : Keeps r r') (h' : Keeps r' r'') : Keeps r r'' := by
  intro hs
  obtain ⟨h₁, h₂, h₃⟩ := h hs
  obtain ⟨h₄, h₅, h₆⟩ := h' h₁
  exact ⟨h₄, fun tag => (h₂ tag).trans (h₅ tag), by rw [h₆, h₃]⟩

/-- Changing only the counters and what the scope has seen keeps what it opened on. -/
theorem keeps_of_scope (hdb : r'.db = r.db) (hnext : ∀ tag, r.next tag ≤ r'.next tag)
    (hscope : ∀ s, r.scope = some s → ∃ s', r'.scope = some s' ∧ s'.quadCount = s.quadCount ∧
      s'.predicateCounts = s.predicateCounts ∧ s'.generation = s.generation) : Keeps r r' := by
  intro hs
  obtain ⟨s, hs⟩ := Option.isSome_iff_exists.1 hs
  obtain ⟨s', hs', h₁, h₂, h₃⟩ := hscope s hs
  refine ⟨by rw [hs']; rfl, hnext, ?_⟩
  simp only [rollback, hs, hs', hdb, h₁, h₂, h₃]

theorem commitOps_keeps (r : RocksStorage) (ops : List Pending) : Keeps r (r.commitOps ops).2 := by
  unfold commitOps
  cases hs : r.scope with
  | none => exact fun h => by rw [hs] at h; cases h
  | some s =>
    refine keeps_of_scope rfl (fun _ => le_rfl) (fun s' hs' => ?_)
    rw [hs] at hs'
    cases hs'
    exact ⟨_, rfl, rfl, rfl, rfl⟩

theorem keeps_of_commit {ops : List Pending} {res : Except StorageError Unit} (h : r.commitOps ops = (res, r')) : Keeps r r' := by
  have hk := commitOps_keeps r ops
  rw [h] at hk
  exact hk

theorem noteQuad_keeps (r : RocksStorage) (q : EncodedQuad) (present b : Bool) : Keeps r (r.noteQuad q present b) := by
  refine keeps_of_scope rfl (fun _ => le_rfl) (fun s hs => ?_)
  simp only [noteQuad, hs, Option.map_some]
  exact ⟨_, rfl, rfl, rfl, rfl⟩

theorem noteGraph_keeps (r : RocksStorage) (g : TermId) (present : Bool) : Keeps r (r.noteGraph g present) := by
  refine keeps_of_scope rfl (fun _ => le_rfl) (fun s hs => ?_)
  simp only [noteGraph, hs, Option.map_some]
  exact ⟨_, rfl, rfl, rfl, rfl⟩

theorem insertEncoded_keeps (r : RocksStorage) (q : EncodedQuad) : Keeps r (r.insertEncoded q).2 := by
  unfold insertEncoded
  split
  · exact .refl r
  · -- the counters are not what a rollback looks at
    have hcount : Keeps r { r with
        quadCount := r.quadCount + 1, generation := r.generation + 1,
        predicateCounts := r.predicateCounts.increment q.predicate } :=
      keeps_of_scope rfl (fun _ => le_rfl) (fun s hs => ⟨s, hs, rfl, rfl, rfl⟩)
    simp only
    split
    · rename_i e r₂ hcommit
      exact hcount.trans (keeps_of_commit hcommit)
    · rename_i r₂ hcommit
      have hk := hcount.trans (keeps_of_commit hcommit)
      cases q.graphName with
      | none => exact hk.trans (noteQuad_keeps r₂ q true false)
      | some g => exact hk.trans ((noteQuad_keeps r₂ q true false).trans (noteGraph_keeps _ g true))

theorem removeEncoded_keeps (r : RocksStorage) (q : EncodedQuad) : Keeps r (r.removeEncoded q).2 := by
  unfold removeEncoded
  split
  · have hcount : Keeps r { r with
        quadCount := r.quadCount - 1, generation := r.generation + 1,
        predicateCounts := r.predicateCounts.decrement q.predicate } :=
      keeps_of_scope rfl (fun _ => le_rfl) (fun s hs => ⟨s, hs, rfl, rfl, rfl⟩)
    simp only
    split
    · rename_i e r₂ hcommit
      exact hcount.trans (keeps_of_commit hcommit)
    · rename_i r₂ hcommit
      exact (hcount.trans (keeps_of_commit hcommit)).trans (noteQuad_keeps r₂ q false true)
  · exact .refl r

theorem insertNamedGraph_keeps (r : RocksStorage) (g : TermId) : Keeps r (r.insertNamedGraph g).2 := by
  unfold insertNamedGraph
  split
  · exact .refl r
  · split
    · rename_i e r₂ hcommit
      exact keeps_of_commit hcommit
    · rename_i r₂ hcommit
      exact (keeps_of_commit hcommit).trans (noteGraph_keeps r₂ g true)

theorem removeEach_keeps (r : RocksStorage) (l : List EncodedQuad) : Keeps r (r.removeEach l).2 := by
  induction l generalizing r with
  | nil => exact .refl r
  | cons q l ih =>
    have hq := removeEncoded_keeps r q
    simp only [removeEach]
    split
    · rename_i e r₂ hremove
      rw [hremove] at hq
      exact hq
    · rename_i b r₂ hremove
      rw [hremove] at hq
      exact hq.trans (ih r₂)

theorem removeNamedGraph_keeps (r : RocksStorage) (g : TermId) : Keeps r (r.removeNamedGraph g).2 := by
  have heach := removeEach_keeps r (r.scan none none none (.named g))
  unfold removeNamedGraph
  simp only
  split
  · rename_i e r₂ hr
    rw [hr] at heach
    exact heach
  · rename_i r₂ hr
    rw [hr] at heach
    split
    · split
      · rename_i e r₃ hcommit
        exact heach.trans (keeps_of_commit hcommit)
      · rename_i r₃ hcommit
        exact (heach.trans (keeps_of_commit hcommit)).trans (noteGraph_keeps r₃ g false)
    · exact heach

theorem write_keeps (r : RocksStorage) (op : Index.Op) : Keeps r (r.write op).2 := by
  cases op with
  | insert q => exact insertEncoded_keeps r q
  | remove q => exact removeEncoded_keeps r q
  | insertNamedGraph g => exact insertNamedGraph_keeps r g
  | removeNamedGraph g => exact removeNamedGraph_keeps r g

/-! ### Encodes -/

/-- What interning does, whether it returned or failed: nothing but the maps of the scope and the
id counters moved, and the rows gathered are not of the index. -/
def InternsTo (r : RocksStorage) (ops : List Pending) (out : Except StorageError (TermId × List Pending) × RocksStorage) : Prop :=
  Interned r out.2 ∧ ∀ x, out.1 = .ok x → Gathers ops x.2

variable {ops : List Pending} {out : Except StorageError (TermId × List Pending) × RocksStorage}

theorem InternsTo.same (id : TermId) : InternsTo r ops (.ok (id, ops), r) :=
  ⟨.refl r, fun x hx => by cases hx; exact .refl ops⟩

theorem InternsTo.error (e : StorageError) : InternsTo r ops (.error e, r) := ⟨.refl r, fun x hx => by cases hx⟩

theorem intern_internsTo {tag : Tag} {st : StoredTerm} {t : Term} (h : r.intern hash128 X tag st t ops = some out) :
    InternsTo r ops out := by
  unfold intern at h
  split at h
  · cases h
    exact .same _
  · split at h
    · cases h
      exact .error _
    · cases h
      exact .same _
    · obtain ⟨id, -, rfl⟩ := allocate_eq h
      refine ⟨⟨rfl, rfl, rfl, rfl, fun t => ?_, fun hs => ?_, fun s hs => ?_⟩, fun x hx => ?_⟩
      · by_cases ht : t = tag
        · subst ht
          simp
        · simp [ht]
      · simp [hs]
      · simp only [hs, Option.map_some]
        exact ⟨_, _, _, rfl⟩
      · cases hx
        exact ⟨_, rfl, by simp [beside]⟩

theorem andThen_internsTo {x : Option (Except StorageError (TermId × List Pending) × RocksStorage)}
    {f : TermId × List Pending → RocksStorage → Option (Except StorageError (TermId × List Pending) × RocksStorage)}
    (hx : ∀ out, x = some out → InternsTo r ops out)
    (hf : ∀ id ops₁ r₁ out, f (id, ops₁) r₁ = some out → InternsTo r₁ ops₁ out) (h : andThen x f = some out) :
    InternsTo r ops out := by
  unfold andThen at h
  split at h
  · cases h
  · cases h
    exact ⟨(hx _ rfl).1, fun x hx => by cases hx⟩
  · obtain ⟨h₁, h₂⟩ := hx _ rfl
    obtain ⟨h₃, h₄⟩ := hf _ _ _ _ h
    exact ⟨h₁.trans h₃, fun x hx => (h₂ _ rfl).trans (h₄ x hx)⟩

theorem encodeNamedNode_internsTo {n : NamedNode} (h : r.encodeNamedNode hash128 X n ops = some out) : InternsTo r ops out := by
  unfold encodeNamedNode at h
  split at h
  · cases h
    exact .same _
  · exact intern_internsTo h

theorem encodeSubject_internsTo {s : NamedOrBlankNode} (h : r.encodeSubject hash128 X ops s = some out) :
    InternsTo r ops out := by
  cases s with
  | namedNode n => exact encodeNamedNode_internsTo h
  | blankNode b => exact intern_internsTo h

theorem encodeInto_internsTo {t : Term} (h : r.encodeInto hash128 X ops t = some out) : InternsTo r ops out := by
  induction t generalizing r ops out with
  | namedNode n => exact encodeNamedNode_internsTo h
  | blankNode b => exact intern_internsTo h
  | literal l =>
    unfold encodeInto at h
    split at h
    · cases h
      exact .same _
    · exact intern_internsTo h
  | triple subject predicate object ih =>
    unfold encodeInto at h
    exact andThen_internsTo (fun _ hs => encodeSubject_internsTo hs)
      (fun _ _ _ _ hp => andThen_internsTo (fun _ hp => encodeNamedNode_internsTo hp)
        (fun _ _ _ _ ho => andThen_internsTo (fun _ ho => ih ho) (fun _ _ _ _ hi => intern_internsTo hi) ho) hp) h

/-- An encode interns, and hands over what it gathered unless it failed before. -/
theorem encode_inv {t : Term} {out : Except StorageError TermId × RocksStorage} (h : r.encode hash128 X t = some out) :
    ∃ r₁ ops, Interned r r₁ ∧ (∀ op ∈ ops, beside op = true) ∧ (out.2 = r₁ ∨ out.2 = (r₁.commitOps ops).2) := by
  unfold encode andThen at h
  split at h
  · cases h
  · rename_i e r₁ he
    cases h
    exact ⟨r₁, [], (encodeInto_internsTo he).1, by simp, .inl rfl⟩
  · rename_i x r₁ he
    obtain ⟨hint, hgathers⟩ := encodeInto_internsTo he
    obtain ⟨more, hmore, hbeside⟩ := hgathers _ rfl
    refine ⟨r₁, x.2, hint, by rw [hmore]; simpa using hbeside, .inr ?_⟩
    simp only at h
    split at h
    · rename_i r₂ hcommit
      cases h
      rw [hcommit]
    · rename_i e r₂ hcommit
      cases h
      rw [hcommit]

theorem Interned.keeps (h : Interned r r') : Keeps r r' := by
  refine keeps_of_scope h.db h.next (fun s hs => ?_)
  obtain ⟨terms, strings, candidates, hs'⟩ := h.some s hs
  exact ⟨_, hs', rfl, rfl, rfl⟩

theorem encode_keeps {t : Term} {out : Except StorageError TermId × RocksStorage} (h : r.encode hash128 X t = some out) :
    Keeps r out.2 := by
  obtain ⟨r₁, ops, hint, -, heq | heq⟩ := encode_inv h
  · rw [heq]
    exact hint.keeps
  · rw [heq]
    exact hint.keeps.trans (commitOps_keeps r₁ ops)

/-- Any writes and encodes, whatever they answered. -/
theorem run_keeps {ws : List Storage.Op} (hws : ∀ op ∈ ws, op.isWrite = true) {replies : List Storage.Reply}
    (h : run hash128 X r ws = some (replies, r')) : Keeps r r' := by
  induction ws generalizing r replies with
  | nil =>
    cases h
    exact .refl _
  | cons op ops ih =>
    obtain ⟨reply, rest, r₁, hstep, hrun, -⟩ := run_cons h
    have hop := hws op List.mem_cons_self
    have hk : Keeps r r₁ := by
      cases op with
      | encode t =>
        obtain ⟨out, he, heq⟩ := Option.map_eq_some_iff.1 hstep
        cases heq
        exact encode_keeps he
      | write op =>
        cases hstep
        exact write_keeps r op
      | begin | commit | rollback => cases hop
    exact hk.trans (ih (fun o ho => hws o (List.mem_cons_of_mem _ ho)) hrun)

/-! ## States the storage can be in -/

/-- The states of a storage between bulk loads. A database that was opened, or that a bulk
load left, is any whose orders agree, whose counters count them and whose rows lie below the
id counters. A step that was refused is only followed by abandoning its scope. -/
inductive Reachable (hash128 : StoredTerm → Hash) (X : Inline.Datatypes) : RocksStorage → Prop where
  | stored {r : RocksStorage} (c : Contents) (hindex : Index.Holds r.db.index c.quads c.graphs)
      (hcount : r.quadCount = c.quads.card) (hcounts : ∀ p, r.predicateCounts.count p = c.count p)
      (hdict : DbDict r.next r.db) (hscope : r.scope = none) : Reachable hash128 X r
  | step {r r' : RocksStorage} {op : Storage.Op} {reply : Storage.Reply} (h : Reachable hash128 X r)
      (hstep : r.step hash128 X op = some (reply, r')) (hok : reply.isOk = true) : Reachable hash128 X r'
  | abandoned {r r₁ r₂ : RocksStorage} {ws : List Storage.Op} {replies : List Storage.Reply} (h : Reachable hash128 X r)
      (hbegin : r.begin = .ok r₁) (hws : ∀ op ∈ ws, op.isWrite = true)
      (hrun : r₁.run hash128 X ws = some (replies, r₂)) : Reachable hash128 X r₂.rollback

theorem begin_ok (h : r.begin = .ok r') : r.scope = none ∧ r'.scope.isSome = true ∧ r'.rollback = r ∧ r'.next = r.next := by
  unfold begin at h
  split_ifs at h with hs
  cases h
  have hnone : r.scope = none := Option.not_isSome_iff_eq_none.1 hs
  refine ⟨hnone, rfl, ?_, rfl⟩
  simp only [rollback]
  rw [← hnone]

/-- An abandoned scope leaves the storage it opened on, with the ids it gave out burned. -/
theorem abandoned_eq {r₁ r₂ : RocksStorage} {ws : List Storage.Op} {replies : List Storage.Reply} (hbegin : r.begin = .ok r₁)
    (hws : ∀ op ∈ ws, op.isWrite = true) (hrun : r₁.run hash128 X ws = some (replies, r₂)) :
    r₂.rollback = { r with next := r₂.next } ∧ ∀ tag, r.next tag ≤ r₂.next tag := by
  obtain ⟨-, hscope, hback, hnext⟩ := begin_ok hbegin
  obtain ⟨-, hle, heq⟩ := run_keeps hws hrun hscope
  exact ⟨by rw [heq, hback], fun tag => hnext ▸ hle tag⟩

theorem Reachable.good (h : Reachable hash128 X r) : ∃ a, Good hash128 r a := by
  induction h with
  | @stored r c hindex hcount hcounts hdict hscope =>
    have happlied : r.applied = r.db := by simp only [applied, hscope]
    refine ⟨⟨c, none⟩, ⟨by rw [happlied]; exact hindex, hindex, by rw [hscope]; rfl, ?_, ?_, hcount, hcounts, ?_, ?_⟩,
      ⟨hdict, by rw [happlied]; exact hdict, fun _ _ hid => by rw [happlied]; exact hid, ?_⟩⟩
    all_goals intro s hs; rw [hscope] at hs; cases hs
  | step _ hstep hok ih =>
    obtain ⟨a, ha⟩ := ih
    exact ⟨_, (ha.step hstep hok).1⟩
  | @abandoned r r₁ r₂ ws replies _ hbegin hws hrun ih =>
    obtain ⟨a, ha⟩ := ih
    obtain ⟨heq, hle⟩ := abandoned_eq hbegin hws hrun
    have hscope := (begin_ok hbegin).1
    have happlied : RocksStorage.applied { r with next := r₂.next } = r.db := by simp only [applied, hscope]
    rw [heq]
    refine ⟨a, ⟨?_, ha.sim.db, ha.sim.scope, ha.sim.quads, ha.sim.graphs, ha.sim.quadCount, ha.sim.counts, ha.sim.savedCount,
      ha.sim.savedCounts⟩, ⟨ha.dict.db.mono hle, ?_, fun _ _ hid => by rw [happlied]; exact hid, ?_⟩⟩
    · rw [happlied, ← ha.sim.base_none hscope]
      exact ha.sim.db
    · rw [happlied]
      exact ha.dict.db.mono hle
    · intro s hs
      rw [show RocksStorage.scope { r with next := r₂.next } = none from hscope] at hs
      cases hs

/-! ## Reads in a scope -/

theorem eq_of_iff {b b' : Bool} (h : b = true ↔ b' = true) : b = b' := by
  cases b <;> cases b' <;> simp_all

/-- Every read in a scope is the read of the database with the buffered operations applied to
it in order, which is what the commit leaves: each scan and each span scan yields each matching
quad once. And a rollback goes back to the storage the scope opened on, but for the ids given
out. -/
theorem scope_reads {r₀ r₁ r : RocksStorage} {ws : List Storage.Op} {replies : List Storage.Reply}
    (h : Reachable hash128 X r₀) (hbegin : r₀.begin = .ok r₁) (hws : ∀ op ∈ ws, op.isWrite = true)
    (hrun : r₁.run hash128 X ws = some (replies, r)) (hok : ∀ reply ∈ replies, reply.isOk = true) :
    (∀ s p o graph, (r.scan s p o graph).Nodup ∧ (∀ q, q ∈ r.scan s p o graph ↔ q ∈ r.landed.scan s p o graph) ∧
      ∀ q, q ∈ r.scan s p o graph ↔ r.landed.containsEncoded q = true ∧ isMatch q s p o graph = true) ∧
    (∀ s p span graph, (r.quadsWithObjectIn s p span graph).Nodup ∧
      (∀ q, q ∈ r.quadsWithObjectIn s p span graph ↔ q ∈ r.landed.quadsWithObjectIn s p span graph) ∧
      ∀ q, q ∈ r.quadsWithObjectIn s p span graph ↔
        r.landed.containsEncoded q = true ∧ isMatch q s p none graph = true ∧ span.contains q.object = true) ∧
    (∀ q, r.containsEncoded q = r.landed.containsEncoded q) ∧
    (r.namedGraphs.Nodup ∧ ∀ g, g ∈ r.namedGraphs ↔ g ∈ r.landed.namedGraphs) ∧
    (∀ g, r.containsNamedGraph g = r.landed.containsNamedGraph g) ∧
    (∀ t, r.lookup hash128 X t = r.landed.lookup hash128 X t) ∧
    (∀ id, r.decode X id = r.landed.decode X id) ∧
    (r.len = r.landed.len ∧ r.len = (r.landed.scan none none none .any).length) ∧
    r.commit = .ok r.landed ∧
    r.rollback = { r₀ with next := r.next } := by
  obtain ⟨a₀, h₀⟩ := h.good
  have hgood : Good hash128 r ((a₀.step .begin).run ws) := (h₀.begin hbegin).run hrun hok
  generalize (a₀.step .begin).run ws = a at hgood
  have hscope : r.scope.isSome = true := (run_keeps hws hrun (begin_ok hbegin).2.1).1
  obtain ⟨sc, hsc⟩ := Option.isSome_iff_exists.1 hscope
  have hcommit : r.commit = .ok r.landed := by
    simp only [commit, landed, applied, hsc]
  have hland : Good hash128 r.landed (a.step .commit) := (hgood.commit hcommit).1
  have hsame : (a.step .commit).current = a.current := rfl
  have hcontains : ∀ q, r.landed.containsEncoded q = true ↔ q ∈ a.current.quads := fun q => hland.sim.containsEncoded q
  refine ⟨fun s p o graph => ⟨hgood.sim.scan_nodup s p o graph, fun q => ?_, fun q => ?_⟩,
    fun s p span graph => ⟨hgood.sim.quadsWithObjectIn_nodup s p span graph, fun q => ?_, fun q => ?_⟩, fun q => ?_,
    ⟨hgood.sim.namedGraphs_nodup, fun g => ?_⟩, fun g => ?_, hgood.dict.lookup_landed, hgood.dict.decode_landed, ⟨rfl, ?_⟩,
    hcommit, (abandoned_eq hbegin hws hrun).1⟩
  · rw [hgood.sim.mem_scan, hland.sim.mem_scan, hsame]
  · rw [hgood.sim.mem_scan, hcontains, isMatch_iff]
  · rw [hgood.sim.mem_quadsWithObjectIn, hland.sim.mem_quadsWithObjectIn, hsame]
  · rw [hgood.sim.mem_quadsWithObjectIn, hcontains, isMatch_iff]
    tauto
  · exact eq_of_iff ((hgood.sim.containsEncoded q).trans (hcontains q).symm)
  · rw [hgood.sim.mem_namedGraphs, hland.sim.mem_namedGraphs, hsame]
  · exact eq_of_iff ((hgood.sim.containsNamedGraph g).trans (hland.sim.containsNamedGraph g).symm)
  · -- the counter is the number of quads, and the scan lists each of them once
    have hset : (r.landed.scan none none none .any).toFinset = a.current.quads := by
      ext q
      rw [List.mem_toFinset, hland.sim.mem_scan, hsame]
      simp [Index.matchesTriple, Index.GraphFilter.admits]
    rw [len, hgood.sim.quadCount, ← hset, List.toFinset_card_of_nodup (hland.sim.scan_nodup none none none .any)]

theorem new_reachable : Reachable hash128 X new :=
  .stored .empty Index.holds_new rfl (fun _ => rfl) .new rfl

/-- A quad put in, taken out and put in again, and a term interned, all in one scope. -/
theorem scope_reads_again : ∃ r₁ replies r, new.begin = .ok r₁ ∧
    r₁.run (fun _ => 0) Dictionary.bare [.encode (.blankNode "b"), .write (.insert ⟨0, 1, 2, some 3⟩),
      .write (.remove ⟨0, 1, 2, some 3⟩), .write (.insert ⟨0, 1, 2, some 3⟩)] = some (replies, r) ∧
    (r.scan none none none .any).Nodup ∧ r.containsEncoded ⟨0, 1, 2, some 3⟩ = r.landed.containsEncoded ⟨0, 1, 2, some 3⟩ := by
  refine ⟨_, _, _, rfl, rfl, ?_⟩
  obtain ⟨hscan, -, hcontains, -⟩ := @scope_reads (fun _ => 0) Dictionary.bare new _ _
    [.encode (.blankNode "b"), .write (.insert ⟨0, 1, 2, some 3⟩), .write (.remove ⟨0, 1, 2, some 3⟩),
      .write (.insert ⟨0, 1, 2, some 3⟩)] _ new_reachable rfl (by simp [Storage.Op.isWrite]) rfl
    (fun x hx => by simp only [List.mem_cons, List.not_mem_nil, or_false] at hx; rcases hx with rfl | rfl | rfl | rfl <;> rfl)
  exact ⟨(hscan none none none .any).1, hcontains _⟩

end Holos.RocksStorage
