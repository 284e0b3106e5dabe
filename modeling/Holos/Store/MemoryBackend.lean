import Holos.Store.Backend
import Holos.Store.MemoryTheorems
/-!
# The in-memory tier as a backend

It stands for the contents its journal is about and the ids its dictionary looks up. No write
of it fails, and an abandoned scope keeps the dictionary.
-/

namespace Holos.MemoryStorage

variable {X : Inline.Datatypes}

/-- The trait's walk: one decode for each id. -/
def forEachInRange (X : Inline.Datatypes) (m : MemoryStorage) (tag : Tag) (start stop : Nat) :
    Except StorageError (List (TermId × Term)) := do
  let found ← (TermId.range tag start stop).mapM (fun id => return (← m.decode X id).map (fun t => (id, t)))
  return found.reduceOption

def backend (X : Inline.Datatypes) : Backend where
  State := MemoryStorage
  encode m t := (m.encode X t).map (fun r => (.ok r.1, r.2))
  lookup m t := .ok (m.lookup X t)
  decode m id := m.decode X id
  write m op := (.ok (m.write op).1, (m.write op).2)
  containsEncoded m quad := .ok (m.containsEncoded quad)
  scan m s p o g := .ok (m.scan s p o g)
  containsNamedGraph m g := .ok (m.containsNamedGraph g)
  namedGraphs m := .ok m.namedGraphs
  len m := m.len
  dictionaryLen m := m.dictionary.len
  dictionaryCountFor m tag := m.dictionary.countFor tag
  forEachInRange m tag start stop := m.forEachInRange X tag start stop
  inScope m := m.undo.isSome
  begin m := m.begin
  commit _ m := match m.commit with
    | .ok m' => (.ok (), m')
    | .error e => (.error e, m)
  rollback m := m.rollback

/-- The storage stands for these contents, with the ids of its dictionary. -/
structure Stands (X : Inline.Datatypes) (m : MemoryStorage) (h : Held) : Prop where
  sim : Sim m ⟨h.contents, h.saved.map (·.1)⟩
  valid : Dictionary.Valid X m.dictionary
  ids : ∀ t, h.ids t = m.dictionary.lookup X t
  saved : ∀ c, h.saved = some c → c.2 ≤ h.ids

def Open (X : Inline.Datatypes) (m : MemoryStorage) (c : Contents × Ids) : Prop := ∃ h, Stands X m h ∧ h.saved = some c

noncomputable def idsOf (hX : X.Lawful) {d : Dictionary} (hd : Dictionary.Valid X d) : Ids :=
  .ofLookup (d.lookup X) (fun _ _ _ ht hu => Dictionary.lookup_injective hX hd ht hu)

/-- The first order of each kind counts the quads. -/
theorem len_eq {m : MemoryStorage} {c : Contents} (h : Holds m c) : m.len = c.quads.card := by
  have hnodup : (m.index.dspo.toList.map (fun k => (⟨k.a, k.b, k.c, none⟩ : EncodedQuad)) ++
      m.index.gspo.toList.map (fun k => (⟨k.b, k.c, k.d, some k.a⟩ : EncodedQuad))).Nodup := by
    refine List.Nodup.append ?_ ?_ ?_
    · refine m.index.dspo.nodup.map (fun k k' hk => ?_)
      obtain ⟨a, b, c⟩ := k
      obtain ⟨a', b', c'⟩ := k'
      simpa using hk
    · refine m.index.gspo.nodup.map (fun k k' hk => ?_)
      obtain ⟨a, b, c, d⟩ := k
      obtain ⟨a', b', c', d'⟩ := k'
      simp only [EncodedQuad.mk.injEq, Option.some.injEq] at hk
      simp [hk]
    · intro q hq hq'
      obtain ⟨k, -, rfl⟩ := List.mem_map.1 hq
      obtain ⟨k', -, hk'⟩ := List.mem_map.1 hq'
      simp at hk'
  have hset : (m.index.dspo.toList.map (fun k => (⟨k.a, k.b, k.c, none⟩ : EncodedQuad)) ++
      m.index.gspo.toList.map (fun k => (⟨k.b, k.c, k.d, some k.a⟩ : EncodedQuad))).toFinset = c.quads := by
    ext ⟨s, p, o, g⟩
    rw [List.mem_toFinset, List.mem_append, List.mem_map, List.mem_map]
    cases g with
    | none =>
      rw [← h.index.dspo]
      constructor
      · rintro (⟨⟨a, b, c⟩, hk, heq⟩ | ⟨k, -, heq⟩)
        · cases heq
          exact hk
        · cases heq
      · exact fun hk => .inl ⟨_, hk, rfl⟩
    | some g =>
      rw [← h.index.gspo]
      constructor
      · rintro (⟨k, -, heq⟩ | ⟨⟨a, b, c, d⟩, hk, heq⟩)
        · cases heq
        · cases heq
          exact hk
      · exact fun hk => .inr ⟨_, hk, rfl⟩
  rw [← hset, List.toFinset_card_of_nodup hnodup, List.length_append, List.length_map, List.length_map]
  rfl

theorem containsEncoded_eq {m : MemoryStorage} {c : Contents} (h : Holds m c) (e : EncodedQuad) :
    m.containsEncoded e = decide (e ∈ c.quads) := by
  have hmem := Index.mem_quadsForPattern h.index (some e.subject) (some e.predicate) (some e.object) (filterOf e.graphName)
  have hiff : (∃ q, q ∈ m.index.quadsForPattern (some e.subject) (some e.predicate) (some e.object) (filterOf e.graphName)) ↔
      e ∈ c.quads := by
    simp only [hmem]
    constructor
    · rintro ⟨⟨s, p, o, g⟩, hq, hm, hg⟩
      obtain ⟨s', p', o', g'⟩ := e
      cases g' <;> cases g <;> simp_all [Index.matchesTriple, Index.GraphFilter.admits, filterOf]
    · intro he
      refine ⟨e, he, by simp [Index.matchesTriple], ?_⟩
      cases hg : e.graphName <;> simp [Index.GraphFilter.admits, filterOf, hg]
  unfold containsEncoded
  rw [Bool.eq_iff_iff, decide_eq_true_iff, ← hiff, List.isSome_head?]
  constructor
  · intro hne
    exact List.exists_mem_of_ne_nil _ (by simpa using hne)
  · rintro ⟨q, hq⟩
    simpa using List.ne_nil_of_mem hq

/-- The ids an open scope began with are among those now. -/
theorem Stands.encode (hX : X.Lawful) {m m' : MemoryStorage} {h : Held} (hs : Stands X m h) {t : Term} {i : TermId}
    (henc : m.encode X t = some (i, m')) : ∃ ids, h.ids ≤ ids ∧ ids t = some i ∧ Stands X m' { h with ids } := by
  obtain ⟨⟨i', d⟩, hd, heq⟩ := Option.map_eq_some_iff.1 henc
  cases heq
  obtain ⟨hlookup, hgrown⟩ := Dictionary.encode_spec hd
  have hvalid : Dictionary.Valid X d := (Dictionary.encode_encodes hd).chain.valid hX hs.valid
  have hle : h.ids ≤ idsOf hX hvalid := by
    intro u j hj
    refine Dictionary.lookup_mono hgrown ?_
    rw [← hs.ids u]
    exact hj
  refine ⟨idsOf hX hvalid, hle, hlookup, ⟨⟨hs.sim.holds.index, hs.sim.holds.counts⟩, hs.sim.scope, hs.sim.journal⟩, hvalid,
    fun u => rfl, fun c hc => (hs.saved c hc).trans hle⟩

theorem Stands.write {m : MemoryStorage} {h : Held} (hs : Stands X m h) (op : Index.Op) :
    (m.write op).1 = h.contents.changes op ∧ Stands X (m.write op).2 (h.write op) := by
  have hwrote := write_wrote hs.sim.holds op
  refine ⟨hwrote.reply, hs.sim.write op, ?_, fun t => ?_, hs.saved⟩
  · rw [hwrote.dictionary]
    exact hs.valid
  · rw [hwrote.dictionary]
    exact hs.ids t

theorem Stands.begin {m m' : MemoryStorage} {h : Held} (hs : Stands X m h) (hok : m.begin = .ok m') :
    h.saved = none ∧ Stands X m' { h with saved := some (h.contents, h.ids) } := by
  unfold MemoryStorage.begin at hok
  split_ifs at hok with hscope
  cases hok
  have hsaved : h.saved = none := by
    have hnone : (h.saved.map (·.1)).isSome = m.undo.isSome := hs.sim.scope.symm
    rw [Option.isSome_map] at hnone
    exact Option.not_isSome_iff_eq_none.1 (by rw [hnone]; exact hscope)
  refine ⟨hsaved, ⟨⟨hs.sim.holds.index, hs.sim.holds.counts⟩, rfl, fun es hes => ?_⟩, hs.valid, hs.ids, fun c hc => ?_⟩
  · cases hes
    rfl
  · cases hc
    exact le_rfl

theorem Stands.commit {m m' : MemoryStorage} {h : Held} (hs : Stands X m h) (hok : m.commit = .ok m') :
    Stands X m' { h with saved := none } := by
  unfold MemoryStorage.commit at hok
  split_ifs at hok with hscope
  cases hok
  exact ⟨⟨⟨hs.sim.holds.index, hs.sim.holds.counts⟩, rfl, fun es hes => by cases hes⟩, hs.valid, hs.ids, fun c hc => by cases hc⟩

theorem Stands.rollback {m : MemoryStorage} {h : Held} (hs : Stands X m h) {c : Contents × Ids} (hc : h.saved = some c) :
    Stands X m.rollback ⟨c.1, h.ids, none⟩ := by
  have hback := hs.sim.rollback
  have hstep : (⟨h.contents, h.saved.map (·.1)⟩ : Storage.Scoped).step .rollback = ⟨c.1, none⟩ := by
    simp only [Storage.Scoped.step, Storage.Scoped.base, hc, Option.map_some, Option.getD_some]
  rw [hstep] at hback
  refine ⟨hback, ?_, fun t => ?_, fun c hc => by cases hc⟩
  · rw [rollback_dictionary]
    exact hs.valid
  · rw [rollback_dictionary]
    exact hs.ids t

/-- A walk has every id in its range that decodes. -/
theorem mem_forEachInRange {m : MemoryStorage} {tag : Tag} {start stop : Nat} {l : List (TermId × Term)} {t : Term} {i : TermId}
    (hissues : Dictionary.issues tag = true) (hok : m.forEachInRange X tag start stop = .ok l) (hdec : m.decode X i = .ok (some t))
    (htag : i.tag = tag) (hstart : start ≤ i.payload) (hstop : i.payload < stop) : (i, t) ∈ l := by
  have hrange := TermId.mem_range htag hissues hstart hstop
  -- what the walk gathers is what each decode answers
  have hgather : ∀ (is : List TermId) (found : List (Option (TermId × Term))),
      is.mapM (fun id => do return (← m.decode X id).map (fun t => (id, t)) : TermId → Except StorageError _) = .ok found →
      i ∈ is → some (i, t) ∈ found := by
    intro is
    induction is with
    | nil => intro found _ hmem; cases hmem
    | cons j is ih =>
      intro found hfound hmem
      rw [List.mapM_cons] at hfound
      cases hj : m.decode X j with
      | error e => rw [hj] at hfound; cases hfound
      | ok r =>
        rw [hj] at hfound
        cases hrest : is.mapM (fun id => do return (← m.decode X id).map (fun t => (id, t)) : TermId → Except StorageError _) with
        | error e =>
          rw [hrest] at hfound
          cases hfound
        | ok rest =>
          rw [hrest] at hfound
          cases hfound
          rcases List.mem_cons.1 hmem with rfl | hmem
          · rw [hdec] at hj
            cases hj
            exact List.mem_cons_self
          · exact List.mem_cons_of_mem _ (ih rest hrest hmem)
  unfold forEachInRange at hok
  cases hfound : (TermId.range tag start stop).mapM (fun id => do return (← m.decode X id).map (fun t => (id, t)) :
      TermId → Except StorageError _) with
  | error e => rw [hfound] at hok; cases hok
  | ok found =>
    rw [hfound] at hok
    cases hok
    exact List.mem_filterMap.2 ⟨_, hgather _ found hfound hrange, rfl⟩

theorem lawful (hX : X.Lawful) : (backend X).Lawful (Stands X) (Open X) where
  lookup hs hok := by
    cases hok
    exact (hs.ids _).symm
  decode hs hi := by
    rw [hs.ids] at hi
    exact Dictionary.decode_lookup hX hs.valid hi
  contains hs hok := by
    cases hok
    exact containsEncoded_eq hs.sim.holds _
  scan_nodup hs hok := by
    cases hok
    exact Index.quadsForPattern_nodup hs.sim.holds.index _ _ _ _
  mem_scan hs hok := by
    cases hok
    exact Index.mem_quadsForPattern hs.sim.holds.index _ _ _ _ _
  containsNamedGraph hs hok := by
    cases hok
    exact decide_eq_decide.2 (hs.sim.holds.index.graphs _)
  mem_namedGraphs hs hok := by
    cases hok
    exact hs.sim.holds.index.graphs _
  len hs := len_eq hs.sim.holds
  issued hs hi hissues := by
    rw [hs.ids] at hi
    exact Dictionary.lookup_issued hX hi hissues
  mem_forEachInRange hs hissues hok hi htag hm hn := by
    rw [hs.ids] at hi
    exact mem_forEachInRange hissues hok (Dictionary.decode_lookup hX hs.valid hi) htag hm hn
  inScope hs := by
    rw [← Option.isSome_map (f := Prod.fst)]
    exact hs.sim.scope
  encode hs _ henc := by
    obtain ⟨⟨i', m'⟩, he, heq⟩ := Option.map_eq_some_iff.1 henc
    cases heq
    exact hs.encode hX he
  encode_ok _ _ henc := by
    obtain ⟨⟨i', m'⟩, -, heq⟩ := Option.map_eq_some_iff.1 henc
    cases heq
    exact ⟨i', rfl⟩
  write hs hok := by
    cases hok
    exact hs.write _
  write_ok _ _ hok := by
    cases hok
    exact ⟨_, rfl⟩
  begin hs hok := hs.begin hok
  commit := by
    intro m h b m' hs _ hok
    cases hcommit : MemoryStorage.commit m with
    | error e =>
      simp only [backend, hcommit] at hok
      cases hok
    | ok m₁ =>
      simp only [backend, hcommit] at hok
      cases hok
      exact hs.commit hcommit
  opened hs hc := ⟨_, hs, hc⟩
  open_encode := by
    rintro m c t r m' ⟨h, hs, hc⟩ henc
    obtain ⟨⟨i, m₁⟩, he, heq⟩ := Option.map_eq_some_iff.1 henc
    cases heq
    obtain ⟨ids, -, -, hs'⟩ := hs.encode hX he
    exact ⟨_, hs', hc⟩
  open_write := by
    rintro m c op r m' ⟨h, hs, hc⟩ hok
    cases hok
    exact ⟨_, (hs.write op).2, hc⟩
  open_inScope := by
    rintro m c ⟨h, hs, hc⟩
    have hscope := hs.sim.scope
    simp only [hc, Option.map_some, Option.isSome_some] at hscope
    exact hscope
  rollback := by
    rintro m c ⟨h, hs, hc⟩
    exact ⟨h.ids, hs.saved c hc, hs.rollback hc⟩
  commit_error := by
    rintro m c b e m' ⟨h, hs, hc⟩ hok
    have hscope := hs.sim.scope
    simp only [hc, Option.map_some, Option.isSome_some] at hscope
    simp only [backend, MemoryStorage.commit, hscope, if_true] at hok
    cases hok

theorem ordered : (backend X).Ordered (Stands X) := by
  intro m h s p o g qs _ hok
  cases hok
  exact Index.quadsForPattern_order m.index s p o g

theorem encodesTriples (hX : X.Lawful) : (backend X).EncodesTriples (Stands X) := by
  intro m h t i m' hs henc
  obtain ⟨⟨i', m₁⟩, he, heq⟩ := Option.map_eq_some_iff.1 henc
  cases heq
  exact hs.encode hX he

/-- An empty storage stands for nothing. -/
theorem new_stands (hX : X.Lawful) : Stands X new ⟨.empty, idsOf hX Dictionary.new_valid, none⟩ :=
  ⟨new_sim, Dictionary.new_valid, fun _ => rfl, fun _ h => by cases h⟩

/-! ## Ids for good -/

/-- What an id decodes to is its term. -/
def Named (X : Inline.Datatypes) (m : MemoryStorage) (N : Set (TermId × Term)) : Prop :=
  Dictionary.Valid X m.dictionary ∧ N = {p | m.decode X p.1 = .ok (some p.2)}

theorem Named.same {m m' : MemoryStorage} {N : Set (TermId × Term)} (h : Named X m N) (hd : m'.dictionary = m.dictionary) :
    ∃ N', N ⊆ N' ∧ Named X m' N' := by
  refine ⟨N, subset_rfl, by rw [hd]; exact h.1, ?_⟩
  unfold MemoryStorage.decode
  rw [hd]
  exact h.2

theorem names (hX : X.Lawful) : (backend X).Names (Named X) where
  functional := by
    rintro m N i t t' ⟨-, rfl⟩ ht ht'
    exact Option.some.inj (Except.ok.inj (Eq.trans (Eq.symm ht) ht'))
  decoded := by
    rintro m N i t ⟨-, rfl⟩ ht
    exact ht
  encode := by
    rintro m N t r m' ⟨hd, rfl⟩ henc
    obtain ⟨⟨i, m₁⟩, he, heq⟩ := Option.map_eq_some_iff.1 henc
    cases heq
    obtain ⟨⟨i', d⟩, hdict, heq⟩ := Option.map_eq_some_iff.1 he
    cases heq
    have hvalid : Dictionary.Valid X d := (Dictionary.encode_encodes hdict).chain.valid hX hd
    exact ⟨_, fun p hp => Dictionary.decode_mono hX hd hvalid (Dictionary.encode_spec hdict).2 hp, hvalid, rfl⟩
  write := by
    rintro m N op r m' hm hw
    cases hw
    exact hm.same (write_dictionary m op)
  begin := by
    rintro m N m' hm hb
    refine hm.same ?_
    change MemoryStorage.begin m = .ok m' at hb
    unfold MemoryStorage.begin at hb
    split_ifs at hb
    cases hb
    rfl
  commit := by
    rintro m N b r m' hm hc
    refine hm.same ?_
    change (match MemoryStorage.commit m with | .ok m' => (.ok (), m') | .error e => (.error e, m)) = (r, m') at hc
    unfold MemoryStorage.commit at hc
    split_ifs at hc <;> cases hc <;> rfl
  rollback hm := hm.same (rollback_dictionary _)

theorem new_named : Named X new {p | new.decode X p.1 = .ok (some p.2)} := ⟨Dictionary.new_valid, rfl⟩

end Holos.MemoryStorage
