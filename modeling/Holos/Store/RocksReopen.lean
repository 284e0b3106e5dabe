import Holos.Store.RocksBackend
/-!
# Opening a database again

The counters are read from the rows the last batch left. `Durable` is why they are the right ones:
the rows a commit would leave count what the storage counts, and those there are count what a
rollback would. So whatever the process died of, what is opened again is what a rollback leaves.
-/

namespace Holos

open Lib

/-- Reads the counters of a database. `rows` are the statistics, one for each predicate. -/
def RocksStorage.open (db : Db) (rows : List (TermId × Nat)) : RocksStorage where
  db
  next tag := (db.default (.next tag)).getD 0
  quadCount := (db.default .quads).getD 0
  predicateCounts := rows.foldl (fun counts row => counts.put row.1 row.2) .empty
  generation := (db.default .generation).getD 0
  scope := none

namespace RocksStorage

variable {hash128 : StoredTerm → Hash} {X : Inline.Datatypes} {r r' : RocksStorage} {db : Db} {next next' : Tag → Nat} {h : Held}
variable {counts : Counter TermId} {n : Nat} {ops : List Pending}

/-- The rows of the statistics family. -/
def Listed (db : Db) (rows : List (TermId × Nat)) : Prop := ∀ p n, (p, n) ∈ rows ↔ db.stats p = some n

/-! ## What the rows count -/

/-- The counters in the database are these, and its rows are below the ids it counts. -/
structure Counts (db : Db) (next : Tag → Nat) (n : Nat) (counts : Counter TermId) : Prop where
  next_le : ∀ tag, (db.default (.next tag)).getD 0 ≤ next tag
  issued : ∀ id st, db.id2str id = some st → id.payload < (db.default (.next id.tag)).getD 0
  quads : (db.default .quads).getD 0 = n
  stats : ∀ p, db.stats p = if counts.count p = 0 then none else some (counts.count p)

theorem Counts.mono (h : Counts db next n counts) (hle : ∀ tag, next tag ≤ next' tag) : Counts db next' n counts :=
  ⟨fun tag => (h.next_le tag).trans (hle tag), h.issued, h.quads, h.stats⟩

/-- Every predicate that occurs has its row. -/
theorem Counts.lists (h : Counts db next n counts) : Listed db (counts.keys.toList.map (fun p => (p, counts.count p))) := by
  intro p m
  rw [h.stats, List.mem_map]
  constructor
  · rintro ⟨p', hp', heq⟩
    cases heq
    have hpos := (counts.mem_keys p).1 hp'
    rw [if_neg (by omega)]
  · intro heq
    split_ifs at heq with hzero
    cases heq
    exact ⟨p, (counts.mem_keys p).2 (by omega), rfl⟩

theorem Counts.count_open (h : Counts db next n counts) {rows : List (TermId × Nat)} (hrows : Listed db rows) (p : TermId) :
    (RocksStorage.open db rows).predicateCounts.count p = counts.count p := by
  refine Counter.count_foldl_put (fun m hm => ?_) _ (fun hnone => ?_)
  · have hstat := (hrows p m).1 hm
    rw [h.stats] at hstat
    split_ifs at hstat
    cases hstat
    rfl
  · have hzero : counts.count p = 0 := by
      by_contra hne
      exact hnone (counts.count p) ((hrows p _).2 (by rw [h.stats, if_neg hne]))
    rw [hzero]
    rfl

/-- The rows there are count what a rollback would leave, and the rows there would be what there is. -/
structure Durable (r : RocksStorage) : Prop where
  db : Counts r.db r.next r.rollback.quadCount r.rollback.predicateCounts
  applied : Counts r.applied r.next r.quadCount r.predicateCounts

theorem rollback_of_none (hs : r.scope = none) : r.rollback = r := by
  unfold RocksStorage.rollback
  rw [hs]

theorem Counts.durable (h : Counts r.db r.next r.quadCount r.predicateCounts) (hs : r.scope = none) : Durable r := by
  refine ⟨?_, ?_⟩
  · rw [rollback_of_none hs]
    exact h
  · rw [applied_eq hs]
    exact h

theorem new_durable : Durable new := by
  refine Counts.durable ⟨fun tag => le_rfl, fun id st hid => ?_, rfl, fun p => rfl⟩ rfl
  cases hid

/-- Rows that were handed over, if they bring the counters with them. -/
theorem Durable.landed {f : Overlay EncodedQuad → Overlay EncodedQuad} {g : Overlay TermId → Overlay TermId} (h : Durable r)
    (hland : Landed r r' ops f g) (hnext : ∀ tag, r.next tag ≤ r'.next tag)
    (hcounts : Counts (r.applied.write ops) r'.next r'.quadCount r'.predicateCounts) : Durable r' := by
  rw [← hland.applied] at hcounts
  cases hs : r.scope with
  | none =>
    obtain ⟨hs', -⟩ := hland.none hs
    rw [applied_eq hs'] at hcounts
    exact hcounts.durable hs'
  | some s =>
    obtain ⟨hdb, hs'⟩ := hland.some s hs
    refine ⟨?_, hcounts⟩
    have hback := h.db.mono hnext
    unfold RocksStorage.rollback at hback ⊢
    rw [hs] at hback
    rw [hs', hdb]
    exact hback

/-! ## Writes -/

/-- Rows of the index and of the catalogue of graphs. -/
def ofIndex : Pending → Bool
  | .putTriple _ _ | .deleteTriple _ _ | .putQuad _ _ | .deleteQuad _ _ | .putGraph _ | .deleteGraph _ => true
  | _ => false

theorem write_ofIndex (db : Db) (hops : ∀ op ∈ ops, ofIndex op = true) :
    (db.write ops).id2str = db.id2str ∧ (db.write ops).stats = db.stats ∧ (db.write ops).default = db.default := by
  unfold Db.write
  induction ops generalizing db with
  | nil => exact ⟨rfl, rfl, rfl⟩
  | cons op ops ih =>
    rw [List.foldl_cons]
    obtain ⟨h₁, h₂, h₃⟩ := ih (db.apply op) (fun o ho => hops o (List.mem_cons_of_mem _ ho))
    have hop := hops op List.mem_cons_self
    rw [h₁, h₂, h₃]
    cases op with
    | putTriple | deleteTriple | putQuad | deleteQuad | putGraph | deleteGraph => exact ⟨rfl, rfl, rfl⟩
    | _ => cases hop

theorem Counts.ofIndex (h : Counts db next n counts) (hops : ∀ op ∈ ops, ofIndex op = true) : Counts (db.write ops) next n counts := by
  obtain ⟨h₁, h₂, h₃⟩ := write_ofIndex db hops
  refine ⟨?_, ?_, ?_, ?_⟩
  · rw [h₃]
    exact h.next_le
  · rw [h₁, h₃]
    exact h.issued
  · rw [h₃]
    exact h.quads
  · rw [h₂]
    exact h.stats

theorem putRows_ofIndex (q : EncodedQuad) : ∀ op ∈ putRows q, RocksStorage.ofIndex op = true := by
  obtain ⟨s, p, o, g⟩ := q
  cases g <;> simp [putRows, RocksStorage.ofIndex]

theorem deleteRows_ofIndex (q : EncodedQuad) : ∀ op ∈ deleteRows q, RocksStorage.ofIndex op = true := by
  obtain ⟨s, p, o, g⟩ := q
  cases g <;> simp [deleteRows, RocksStorage.ofIndex]

/-- The counters' own rows. -/
theorem Counts.insert (h : Counts db next n counts) (q : EncodedQuad) (generation : Nat) :
    Counts (db.write (putRows q ++ [.putDefault .quads (n + 1), .putDefault .generation generation,
      .putStats q.predicate ((counts.increment q.predicate).count q.predicate)])) next (n + 1) (counts.increment q.predicate) := by
  have h := h.ofIndex (putRows_ofIndex q)
  rw [write_append]
  generalize db.write (putRows q) = db' at h
  refine ⟨h.next_le, h.issued, rfl, fun p => ?_⟩
  change Function.update db'.stats q.predicate _ p = _
  by_cases hp : p = q.predicate
  · subst hp
    rw [Function.update_self, if_neg (by simp)]
  · rw [Function.update_of_ne hp, h.stats, Counter.count_increment, if_neg hp, Nat.add_zero]

theorem Counts.remove (h : Counts db next n counts) (q : EncodedQuad) (generation : Nat) :
    Counts (db.write (deleteRows q ++ [.putDefault .quads (n - 1), .putDefault .generation generation] ++ statsRow counts q.predicate))
      next (n - 1) (counts.decrement q.predicate) := by
  have h := h.ofIndex (deleteRows_ofIndex q)
  rw [List.append_assoc, write_append]
  generalize db.write (deleteRows q) = db' at h
  have hother : ∀ p, p ≠ q.predicate → (counts.decrement q.predicate).count p = counts.count p := fun p hp => by
    rw [Counter.count_decrement, if_neg hp, Nat.sub_zero]
  have hown : (counts.decrement q.predicate).count q.predicate = counts.count q.predicate - 1 := by
    rw [Counter.count_decrement, if_pos rfl]
  unfold statsRow
  split_ifs with hzero hone
  · refine ⟨h.next_le, h.issued, rfl, fun p => ?_⟩
    by_cases hp : p = q.predicate
    · subst hp
      rw [hown, hzero]
      exact (h.stats _).trans (by rw [hzero])
    · rw [hother p hp]
      exact h.stats p
  · refine ⟨h.next_le, h.issued, rfl, fun p => ?_⟩
    change Function.update db'.stats q.predicate none p = _
    by_cases hp : p = q.predicate
    · subst hp
      rw [Function.update_self, hown, hone]
      rfl
    · rw [Function.update_of_ne hp, hother p hp]
      exact h.stats p
  · refine ⟨h.next_le, h.issued, rfl, fun p => ?_⟩
    change Function.update db'.stats q.predicate (some (counts.count q.predicate - 1)) p = _
    by_cases hp : p = q.predicate
    · subst hp
      rw [Function.update_self, hown, if_neg (by omega)]
    · rw [Function.update_of_ne hp, hother p hp]
      exact h.stats p

theorem Durable.insertEncoded (h : Durable r) (q : EncodedQuad) : Durable (r.insertEncoded q).2 := by
  unfold RocksStorage.insertEncoded
  split
  · exact h
  · simp only
    split
    · rename_i e r₂ hcommit
      obtain ⟨hland, hcount, hcounts, -, hnext⟩ := commitOps_landed hcommit
      have hland : Landed r r₂ _ id id := ⟨hland.none, hland.some⟩
      refine h.landed hland (fun tag => by rw [hnext]) ?_
      rw [hcount, hcounts, hnext]
      exact h.applied.insert q _
    · rename_i r₂ hcommit
      obtain ⟨hland, hcount, hcounts, -, hnext⟩ := commitOps_landed hcommit
      have hland : Landed r r₂ _ id id := ⟨hland.none, hland.some⟩
      have hafter := h.applied.insert q (r.generation + 1)
      cases q.graphName with
      | none =>
        refine h.landed (hland.noteQuad q true false) (fun tag => hnext ▸ le_rfl) ?_
        change Counts _ r₂.next r₂.quadCount r₂.predicateCounts
        rw [hcount, hcounts, hnext]
        exact hafter
      | some g =>
        refine h.landed ((hland.noteQuad q true false).noteGraph g true) (fun tag => hnext ▸ le_rfl) ?_
        change Counts _ r₂.next r₂.quadCount r₂.predicateCounts
        rw [hcount, hcounts, hnext]
        exact hafter

theorem Durable.removeEncoded (h : Durable r) (q : EncodedQuad) : Durable (r.removeEncoded q).2 := by
  unfold RocksStorage.removeEncoded
  split
  · simp only
    split
    · rename_i e r₂ hcommit
      obtain ⟨hland, hcount, hcounts, -, hnext⟩ := commitOps_landed hcommit
      have hland : Landed r r₂ _ id id := ⟨hland.none, hland.some⟩
      refine h.landed hland (fun tag => by rw [hnext]) ?_
      rw [hcount, hcounts, hnext]
      exact h.applied.remove q _
    · rename_i r₂ hcommit
      obtain ⟨hland, hcount, hcounts, -, hnext⟩ := commitOps_landed hcommit
      have hland : Landed r r₂ _ id id := ⟨hland.none, hland.some⟩
      refine h.landed (hland.noteQuad q false true) (fun tag => hnext ▸ le_rfl) ?_
      change Counts _ r₂.next r₂.quadCount r₂.predicateCounts
      rw [hcount, hcounts, hnext]
      exact h.applied.remove q _
  · exact h

theorem Durable.removeEach (h : Durable r) (l : List EncodedQuad) : Durable (r.removeEach l).2 := by
  induction l generalizing r with
  | nil => exact h
  | cons q l ih =>
    have hq := h.removeEncoded q
    unfold RocksStorage.removeEach
    split
    · rename_i e r₂ hremove
      rw [hremove] at hq
      exact hq
    · rename_i b r₂ hremove
      rw [hremove] at hq
      exact ih hq

/-- A row of the catalogue counts nothing. -/
theorem Durable.graph {res : Except StorageError Unit} (h : Durable r) (hops : ∀ op ∈ ops, RocksStorage.ofIndex op = true)
    (hcommit : r.commitOps ops = (res, r')) : Durable r' ∧ ∀ g present, Durable (r'.noteGraph g present) := by
  obtain ⟨hland, hcount, hcounts, -, hnext⟩ := commitOps_landed hcommit
  have hafter : Counts (r.applied.write ops) r'.next r'.quadCount r'.predicateCounts := by
    rw [hcount, hcounts, hnext]
    exact h.applied.ofIndex hops
  exact ⟨h.landed hland (fun tag => by rw [hnext]) hafter, fun g present => h.landed (hland.noteGraph g present) (fun tag => hnext ▸ le_rfl) hafter⟩

theorem Durable.write (h : Durable r) (op : Index.Op) : Durable (r.write op).2 := by
  cases op with
  | insert q => exact h.insertEncoded q
  | remove q => exact h.removeEncoded q
  | insertNamedGraph g =>
    change Durable (r.insertNamedGraph g).2
    unfold RocksStorage.insertNamedGraph
    split
    · exact h
    · split
      · rename_i e r₂ hcommit
        exact (h.graph (by simp [RocksStorage.ofIndex]) hcommit).1
      · rename_i r₂ hcommit
        exact (h.graph (by simp [RocksStorage.ofIndex]) hcommit).2 g true
  | removeNamedGraph g =>
    have heach := h.removeEach (r.scan none none none (.named g))
    change Durable (r.removeNamedGraph g).2
    unfold RocksStorage.removeNamedGraph
    simp only
    split
    · rename_i e r₂ hr
      rw [hr] at heach
      exact heach
    · rename_i r₂ hr
      rw [hr] at heach
      split
      · split
        · rename_i e r₃ hcommit
          exact (heach.graph (by simp [RocksStorage.ofIndex]) hcommit).1
        · rename_i r₃ hcommit
          exact (heach.graph (by simp [RocksStorage.ofIndex]) hcommit).2 g false
      · exact heach

/-! ## Encodes -/

section
variable {P : RocksStorage → List Pending → Prop} {ops' : List Pending} {id : TermId}
variable (hP : ∀ {r r' : RocksStorage} {ops ops' : List Pending} {tag : Tag} {st : StoredTerm} {t : Term} {id : TermId}, P r ops →
  r.intern hash128 X tag st t ops = some (.ok (id, ops'), r') → P r' ops')
include hP

theorem encodeNamedNode_gathers {n : NamedNode} (h : P r ops) (hok : r.encodeNamedNode hash128 X n ops = some (.ok (id, ops'), r')) :
    P r' ops' := by
  unfold encodeNamedNode at hok
  split at hok
  · cases hok
    exact h
  · exact hP h hok

/-- What one interning keeps an encode keeps. -/
theorem encodeInto_gathers {t : Term} (h : P r ops) (hok : r.encodeInto hash128 X ops t = some (.ok (id, ops'), r')) : P r' ops' := by
  induction t generalizing r r' ops ops' id with
  | namedNode n => exact encodeNamedNode_gathers hP h hok
  | blankNode b => exact hP h hok
  | literal l =>
    unfold encodeInto at hok
    split at hok
    · cases hok
      exact h
    · exact hP h hok
  | triple subject predicate object ih =>
    unfold encodeInto at hok
    obtain ⟨⟨s, ops₁⟩, r₁, hs, hok⟩ := andThen_ok hok
    obtain ⟨⟨p, ops₂⟩, r₂, hp, hok⟩ := andThen_ok hok
    obtain ⟨⟨o, ops₃⟩, r₃, ho, hok⟩ := andThen_ok hok
    have h₁ : P r₁ ops₁ := by
      cases subject with
      | namedNode n => exact encodeNamedNode_gathers hP h hs
      | blankNode b => exact hP h hs
    exact hP (ih (encodeNamedNode_gathers hP h₁ hp) ho) hok

end

/-- The rows gathered bring the counters with them. -/
def Gathered (r : RocksStorage) (ops : List Pending) : Prop := Counts (r.applied.write ops) r.next r.quadCount r.predicateCounts

/-- A row for the next id of its tag. -/
theorem Counts.mint {tag : Tag} {st : StoredTerm} {id : TermId} {key : DictKey} {ids : List TermId} (h : Counts db next n counts)
    (hid : TermId.checked tag (next tag) = some id) :
    Counts (db.write [.putDefault (.next tag) (next tag + 1), .putId2str id st, .putStr2id key ids])
      (Function.update next tag (next tag + 1)) n counts := by
  obtain ⟨htag, hpay⟩ := TermId.checked_eq_some hid
  have hdefault : ∀ t, ((db.write [.putDefault (.next tag) (next tag + 1), .putId2str id st, .putStr2id key ids]).default (.next t)).getD 0 =
      if t = tag then next tag + 1 else (db.default (.next t)).getD 0 := by
    intro t
    change (Function.update db.default (.next tag) (some (next tag + 1)) (.next t)).getD 0 = _
    by_cases ht : t = tag
    · rw [ht, Function.update_self, if_pos rfl]
      rfl
    · rw [Function.update_of_ne (fun heq => ht (MetaKey.next.inj heq)), if_neg ht]
  refine ⟨fun t => ?_, fun i st' hi => ?_, h.quads, h.stats⟩
  · rw [hdefault]
    by_cases ht : t = tag
    · rw [if_pos ht, ht, Function.update_self]
    · rw [if_neg ht, Function.update_of_ne ht]
      exact h.next_le t
  · rw [hdefault]
    change Function.update db.id2str id (some st) i = some st' at hi
    by_cases heq : i = id
    · rw [heq, if_pos htag, hpay]
      exact Nat.lt_succ_self _
    · rw [Function.update_of_ne heq] at hi
      have hlt := h.issued i st' hi
      split
      · rename_i ht
        rw [ht] at hlt
        have hle := h.next_le tag
        omega
      · exact hlt

theorem Gathered.intern {tag : Tag} {st : StoredTerm} {t : Term} {ops' : List Pending} {id : TermId} (h : Gathered r ops)
    (hok : r.intern hash128 X tag st t ops = some (.ok (id, ops'), r')) : Gathered r' ops' := by
  have happlied := (intern_internsTo hok).1.applied
  unfold RocksStorage.intern at hok
  split at hok
  · cases hok
    exact h
  · split at hok
    · cases hok
    · cases hok
      exact h
    · obtain ⟨id', hid, heq⟩ := allocate_eq hok
      cases heq
      unfold Gathered
      rw [happlied, write_append]
      exact Counts.mint h hid

theorem Durable.interned (h : Durable r) (hint : Interned r r') : Durable r' := by
  refine ⟨?_, ?_⟩
  · have hback := h.db.mono hint.next
    rw [hint.db]
    unfold RocksStorage.rollback at hback ⊢
    cases hs : r.scope with
    | none =>
      rw [hs] at hback
      rw [hint.none hs, hint.quadCount, hint.predicateCounts]
      exact hback
    | some s =>
      obtain ⟨terms, strings, candidates, hs'⟩ := hint.some s hs
      rw [hs] at hback
      rw [hs']
      exact hback
  · rw [hint.applied, hint.quadCount, hint.predicateCounts]
    exact h.applied.mono hint.next

theorem Durable.encode {t : Term} {out : Except StorageError TermId × RocksStorage} (h : Durable r)
    (hok : r.encode hash128 X t = some out) : Durable out.2 := by
  unfold RocksStorage.encode RocksStorage.andThen at hok
  split at hok
  · cases hok
  · rename_i e r₁ he
    cases hok
    exact h.interned (encodeInto_internsTo he).1
  · rename_i x r₁ he
    have hint := h.interned (encodeInto_internsTo he).1
    have hnone : Gathered r [] := h.applied
    have hgathered : Gathered r₁ x.2 := encodeInto_gathers Gathered.intern hnone he
    have hlast : ∃ res, r₁.commitOps x.2 = (res, out.2) := by
      simp only at hok
      split at hok
      all_goals
        rename_i r₂ hcommit
        cases hok
        exact ⟨_, hcommit⟩
    obtain ⟨res, hcommit⟩ := hlast
    obtain ⟨hland, hcount, hcounts, -, hnext⟩ := commitOps_landed hcommit
    refine hint.landed hland (fun tag => by rw [hnext]) ?_
    rw [hcount, hcounts, hnext]
    exact hgathered

/-! ## Scopes -/

theorem Durable.begin (h : Durable r) (hok : r.begin = .ok r') : Durable r' := by
  obtain ⟨hnone, -, hback, -⟩ := begin_ok hok
  have happlied := h.applied
  rw [applied_eq hnone] at happlied
  unfold RocksStorage.begin at hok
  rw [hnone] at hok
  cases hok
  refine ⟨?_, ?_⟩
  · rw [hback]
    exact happlied
  · exact happlied

theorem Durable.rollback (h : Durable r) : Durable r.rollback := by
  refine Counts.durable ?_ (rollback_scope r)
  rw [rollback_db, rollback_next]
  exact h.db

theorem Durable.commitOn {disk : Except StorageError Unit} {res : Except StorageError Unit} (h : Durable r)
    (hok : r.commitOn disk = (res, r')) : Durable r' := by
  cases res with
  | ok u =>
    have hcommit := commitOn_commit hok
    have happlied := h.applied
    unfold RocksStorage.commit at hcommit
    unfold RocksStorage.applied at happlied
    split at hcommit
    · cases hcommit
    · rename_i s hs
      cases hcommit
      rw [hs] at happlied
      exact Counts.durable happlied rfl
  | error e =>
    cases hs : r.scope with
    | none =>
      unfold RocksStorage.commitOn at hok
      rw [hs] at hok
      cases hok
      exact h
    | some s =>
      have hback := h.db
      rw [← rollback_db, ← rollback_next] at hback
      rw [commitOn_error hs hok]
      exact Counts.durable hback (rollback_scope r)

/-! ## Opening -/

/-- What was opened stands for what a rollback would have left. -/
theorem Durable.reopen {ids : Ids} {c : Contents} {rows : List (TermId × Nat)} (h : Durable r)
    (hback : Stands hash128 X r.rollback ⟨c, ids, none⟩) (hrows : Listed r.db rows) :
    Stands hash128 X (RocksStorage.open r.db rows) ⟨c, ids, none⟩ := by
  have hs : (RocksStorage.open r.db rows).scope = none := rfl
  have happlied : (RocksStorage.open r.db rows).applied = r.db := rfl
  have hsim := hback.good.sim
  have hindex := hsim.db
  rw [rollback_db] at hindex
  have hdict := hback.good.dict.db
  have htag := hback.sound.db
  have hunique := hback.apart.unique
  have hids := hback.ids
  rw [applied_eq (rollback_scope r)] at hids
  rw [rollback_db] at hdict htag hunique hids
  have hdict' : DbDict (RocksStorage.open r.db rows).next r.db := ⟨fun id st hid => ⟨(hdict.fresh id st hid).1, h.db.issued id st hid⟩,
    hdict.exact, hdict.hashed⟩
  have hrows' : Rows (RocksStorage.open r.db rows).next r.db := ⟨fun id st hid => ⟨(htag.tag id st hid).1, h.db.issued id st hid⟩,
    htag.exact, htag.hashed, htag.below⟩
  refine ⟨⟨⟨hindex, hindex, rfl, ?_, ?_, ?_, ?_, ?_, ?_⟩, ⟨hdict', hdict', fun _ _ hid => hid, ?_⟩⟩, hrows'.sound hs,
    ⟨hunique, ?_⟩, hids, fun c hc => by cases hc⟩
  case refine_3 => exact h.db.quads.trans hsim.quadCount
  case refine_4 => exact fun p => (h.db.count_open hrows p).trans (hsim.counts p)
  all_goals
    intro s hs'
    cases hs'

/-- What was opened counts what is there. -/
theorem Durable.opened {rows : List (TermId × Nat)} (h : Durable r) (hrows : Listed r.db rows) : Durable (RocksStorage.open r.db rows) := by
  refine Counts.durable ⟨fun _ => le_rfl, h.db.issued, rfl, fun p => ?_⟩ rfl
  rw [h.db.count_open hrows]
  exact h.db.stats p

end RocksStorage

end Holos
