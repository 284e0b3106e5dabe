import Holos.Store.Rocks
/-!
# Reads through a commit scope

`applied` is the database with the buffered writes applied in order. `Sim` relates a storage to
the contents of a scoped store: the database holds what the scope opened on, `applied` holds
what is there now, and the two overlays show the one through the other. Every write keeps this,
so every read in a scope is a read of `applied`.
-/

namespace Holos.RocksStorage

open Lib

variable {hash128 : StoredTerm → Hash} {X : Inline.Datatypes} {r r' : RocksStorage} {a : Storage.Scoped}

/-- The database as it would be with the buffered operations applied. -/
def applied (r : RocksStorage) : Db :=
  match r.scope with
  | none => r.db
  | some scope => r.db.write scope.pending

/-! ## Batches -/

/-- Whether a write is to a family outside the index. -/
def beside : Pending → Bool
  | .putId2str _ _ | .putStr2id _ _ | .putStats _ _ | .deleteStats _ | .putDefault _ _ => true
  | _ => false

theorem write_append (db : Db) (ops ops' : List Pending) : db.write (ops ++ ops') = (db.write ops).write ops' :=
  List.foldl_append

theorem write_beside (db : Db) {ops : List Pending} (h : ∀ op ∈ ops, beside op = true) : (db.write ops).index = db.index := by
  unfold Db.write
  induction ops generalizing db with
  | nil => rfl
  | cons op ops ih =>
    rw [List.foldl_cons, ih _ (fun o ho => h o (List.mem_cons_of_mem _ ho))]
    have hop := h op List.mem_cons_self
    cases op with
    | putId2str | putStr2id | putStats | deleteStats | putDefault => rfl
    | _ => cases hop

section
variable {Q : Finset EncodedQuad} {G : Finset TermId} {db : Db}

/-- The rows of a quad, whether or not it is there. -/
theorem holds_putRows (h : Index.Holds db.index Q G) (q : EncodedQuad) :
    Index.Holds (db.write (putRows q)).index (insert q Q) (Index.record G q.graphName) := by
  obtain ⟨s, p, o, g⟩ := q
  cases g with
  | none =>
    constructor
    all_goals simp [putRows, Db.write, Db.apply, QuadIndex.onTriples, Index.record, h.dspo, h.dpos, h.dosp, h.spog, h.posg,
      h.ospg, h.gspo, h.gpos, h.gosp, h.graphs]
    all_goals first | tauto | exact h.named
  | some g =>
    constructor
    all_goals simp [putRows, Db.write, Db.apply, QuadIndex.onQuads, Index.record, h.dspo, h.dpos, h.dosp, h.spog, h.posg,
      h.ospg, h.gspo, h.gpos, h.gosp, h.graphs]
    all_goals first | tauto | exact fun q hq g' hg => .inr (h.named q hq g' hg)

theorem holds_deleteRows (h : Index.Holds db.index Q G) (q : EncodedQuad) :
    Index.Holds (db.write (deleteRows q)).index (Q.erase q) G := by
  obtain ⟨s, p, o, g⟩ := q
  cases g with
  | none =>
    constructor
    all_goals simp [deleteRows, Db.write, Db.apply, QuadIndex.onTriples, h.dspo, h.dpos, h.dosp, h.spog, h.posg,
      h.ospg, h.gspo, h.gpos, h.gosp, h.graphs]
    all_goals first | tauto | exact fun q _ => h.named q
  | some g =>
    constructor
    all_goals simp [deleteRows, Db.write, Db.apply, QuadIndex.onQuads, h.dspo, h.dpos, h.dosp, h.spog, h.posg,
      h.ospg, h.gspo, h.gpos, h.gosp, h.graphs]
    all_goals first | tauto | exact fun q _ => h.named q

theorem holds_putGraph (h : Index.Holds db.index Q G) (g : TermId) :
    Index.Holds (db.write [.putGraph g]).index Q (insert g G) :=
  Index.insertNamedGraph_holds h g

/-- A graph's name goes after its quads. -/
theorem holds_deleteGraph (h : Index.Holds db.index Q G) {g : TermId} (hg : ∀ q ∈ Q, q.graphName ≠ some g) :
    Index.Holds (db.write [.deleteGraph g]).index Q (G.erase g) where
  dspo := h.dspo
  dpos := h.dpos
  dosp := h.dosp
  spog := h.spog
  posg := h.posg
  ospg := h.ospg
  gspo := h.gspo
  gpos := h.gpos
  gosp := h.gosp
  graphs g' := by simp [Db.write, Db.apply, h.graphs, and_comm]
  named q hq g' hg' := Finset.mem_erase.2 ⟨fun he => hg q hq (he ▸ hg'), h.named q hq g' hg'⟩

end

/-! ## The relation to contents -/

structure Sim (r : RocksStorage) (a : Storage.Scoped) : Prop where
  applied : Index.Holds r.applied.index a.current.quads a.current.graphs
  db : Index.Holds r.db.index a.base.quads a.base.graphs
  scope : r.scope.isSome = a.saved.isSome
  quads : ∀ s, r.scope = some s → s.quads.Shows a.base.quads a.current.quads
  graphs : ∀ s, r.scope = some s → s.graphs.Shows a.base.graphs a.current.graphs
  quadCount : r.quadCount = a.current.quads.card
  counts : ∀ p, r.predicateCounts.count p = a.current.count p
  savedCount : ∀ s, r.scope = some s → s.quadCount = a.base.quads.card
  savedCounts : ∀ s, r.scope = some s → ∀ p, s.predicateCounts.count p = a.base.count p

theorem new_sim : Sim new .new where
  applied := Index.holds_new
  db := Index.holds_new
  scope := rfl
  quads _ h := by cases h
  graphs _ h := by cases h
  quadCount := rfl
  counts _ := rfl
  savedCount _ h := by cases h
  savedCounts _ h := by cases h

theorem Sim.saved_none (h : Sim r a) (hscope : r.scope = none) : a.saved = none :=
  Option.not_isSome_iff_eq_none.1 (by rw [← h.scope, hscope]; simp)

theorem Sim.base_none (h : Sim r a) (hscope : r.scope = none) : a.base = a.current := by
  simp only [Storage.Scoped.base, h.saved_none hscope, Option.getD_none]

/-! ## Reads -/

theorem dbContains_iff {Q : Finset EncodedQuad} {G : Finset TermId} (h : Index.Holds r.db.index Q G) (q : EncodedQuad) :
    r.dbContains q = true ↔ q ∈ Q := by
  obtain ⟨s, p, o, g⟩ := q
  cases g with
  | none => simp [dbContains, h.dspo]
  | some g => simp [dbContains, h.gspo]

theorem dbContainsGraph_iff {Q : Finset EncodedQuad} {G : Finset TermId} (h : Index.Holds r.db.index Q G) (g : TermId) :
    r.dbContainsGraph g = true ↔ g ∈ G := by
  simp [dbContainsGraph, h.graphs]

/-- What quads the storage shows, whatever it makes of its graphs and counters: the database
holds `Q` and the open scope shows `Q'` in its place. -/
structure Overlaid (r : RocksStorage) (Q Q' : Finset EncodedQuad) : Prop where
  db : ∃ G, Index.Holds r.db.index Q G
  flat : r.scope = none → Q = Q'
  quads : ∀ s, r.scope = some s → s.quads.Shows Q Q'

theorem Sim.overlaid (h : Sim r a) : Overlaid r a.base.quads a.current.quads where
  db := ⟨_, h.db⟩
  flat hs := by rw [h.base_none hs]
  quads := h.quads

variable {Q Q' : Finset EncodedQuad}

theorem Overlaid.containsEncoded (h : Overlaid r Q Q') (q : EncodedQuad) : r.containsEncoded q = true ↔ q ∈ Q' := by
  obtain ⟨G, hdb⟩ := h.db
  unfold RocksStorage.containsEncoded
  cases hs : r.scope with
  | none =>
    simp only
    rw [dbContains_iff hdb, h.flat hs]
  | some s => exact (h.quads s hs).contains (dbContains_iff hdb q)

theorem Sim.containsEncoded (h : Sim r a) (q : EncodedQuad) : r.containsEncoded q = true ↔ q ∈ a.current.quads :=
  h.overlaid.containsEncoded q

theorem Sim.containsNamedGraph (h : Sim r a) (g : TermId) : r.containsNamedGraph g = true ↔ g ∈ a.current.graphs := by
  unfold RocksStorage.containsNamedGraph
  cases hs : r.scope with
  | none =>
    simp only
    rw [dbContainsGraph_iff h.db, h.base_none hs]
  | some s => exact (h.graphs s hs).contains (dbContainsGraph_iff h.db g)

theorem isMatch_iff (q : EncodedQuad) (s p o : Option TermId) (graph : GraphFilter) :
    isMatch q s p o graph = true ↔ Index.matchesTriple s p o q = true ∧ Index.GraphFilter.admits graph q = true := by
  unfold isMatch Index.matchesTriple
  cases s <;> cases p <;> cases o <;> cases graph <;> simp [Index.GraphFilter.admits]

theorem Overlaid.mem_scanOne (h : Overlaid r Q Q') (s p o : Option TermId) (graph : GraphFilter) (q : EncodedQuad) :
    q ∈ r.scanOne s p o graph ↔
      q ∈ Q' ∧ Index.matchesTriple s p o q = true ∧ Index.GraphFilter.admits graph q = true := by
  obtain ⟨G, hdb⟩ := h.db
  have hrows : q ∈ r.routedScan s p o graph ↔ q ∈ Q ∧ isMatch q s p o graph = true := by
    rw [routedScan, Index.mem_quadsForPattern hdb, isMatch_iff]
  unfold scanOne
  cases hs : r.scope with
  | none =>
    simp only
    rw [hrows, isMatch_iff, h.flat hs]
  | some sc =>
    simp only
    rw [(h.quads sc hs).mem_merge hrows, isMatch_iff]

theorem Sim.scanOne_nodup (h : Sim r a) (s p o : Option TermId) (graph : GraphFilter) : (r.scanOne s p o graph).Nodup := by
  have hnodup := Index.quadsForPattern_nodup h.db s p o graph
  unfold scanOne
  cases hs : r.scope with
  | none => exact hnodup
  | some sc =>
    exact (h.quads sc hs).merge_nodup (fun q hq => ((Index.mem_quadsForPattern h.db s p o graph q).1 hq).1) hnodup

theorem Sim.mem_scanOne (h : Sim r a) (s p o : Option TermId) (graph : GraphFilter) (q : EncodedQuad) :
    q ∈ r.scanOne s p o graph ↔
      q ∈ a.current.quads ∧ Index.matchesTriple s p o q = true ∧ Index.GraphFilter.admits graph q = true :=
  h.overlaid.mem_scanOne s p o graph q

/-- A scan yields each matching quad. -/
theorem Overlaid.mem_scan (h : Overlaid r Q Q') (s p o : Option TermId) (graph : GraphFilter) (q : EncodedQuad) :
    q ∈ r.scan s p o graph ↔
      q ∈ Q' ∧ Index.matchesTriple s p o q = true ∧ Index.GraphFilter.admits graph q = true := by
  cases graph with
  | default | named | anyNamed => exact h.mem_scanOne s p o _ q
  | any =>
    simp only [scan, List.mem_append, h.mem_scanOne]
    cases hg : q.graphName <;> simp [Index.GraphFilter.admits, hg]

theorem Sim.mem_scan (h : Sim r a) (s p o : Option TermId) (graph : GraphFilter) (q : EncodedQuad) :
    q ∈ r.scan s p o graph ↔
      q ∈ a.current.quads ∧ Index.matchesTriple s p o q = true ∧ Index.GraphFilter.admits graph q = true :=
  h.overlaid.mem_scan s p o graph q

/-- And once. -/
theorem Sim.scan_nodup (h : Sim r a) (s p o : Option TermId) (graph : GraphFilter) : (r.scan s p o graph).Nodup := by
  cases graph with
  | default | named | anyNamed => exact h.scanOne_nodup s p o _
  | any =>
    refine Index.nodup_append_of_graph (h.scanOne_nodup s p o _) (h.scanOne_nodup s p o _) ?_ ?_
    · intro q hq
      simpa [Index.GraphFilter.admits] using ((h.mem_scanOne s p o .default q).1 hq).2.2
    · intro q hq
      simpa [Index.GraphFilter.admits] using ((h.mem_scanOne s p o .anyNamed q).1 hq).2.2

theorem Sim.mem_quadsWithObjectIn (h : Sim r a) (s p : Option TermId) (span : IdRange) (graph : GraphFilter) (q : EncodedQuad) :
    q ∈ r.quadsWithObjectIn s p span graph ↔
      q ∈ a.current.quads ∧ Index.matchesTriple s p none q = true ∧ span.contains q.object = true ∧
        Index.GraphFilter.admits graph q = true := by
  unfold RocksStorage.quadsWithObjectIn
  split
  · rename_i hempty
    simp [Index.not_contains_of_isEmpty hempty]
  · cases hs : r.scope with
    | none =>
      simp only
      rw [Index.mem_quadsWithObjectIn h.db, h.base_none hs]
    | some sc =>
      simp only [List.mem_filter]
      rw [h.mem_scan]
      tauto

theorem Sim.quadsWithObjectIn_nodup (h : Sim r a) (s p : Option TermId) (span : IdRange) (graph : GraphFilter) :
    (r.quadsWithObjectIn s p span graph).Nodup := by
  unfold RocksStorage.quadsWithObjectIn
  split
  · exact List.nodup_nil
  · cases r.scope with
    | none => exact Index.quadsWithObjectIn_nodup h.db s p span graph
    | some sc => exact (h.scan_nodup s p none graph).filter _

theorem Sim.mem_namedGraphs (h : Sim r a) (g : TermId) : g ∈ r.namedGraphs ↔ g ∈ a.current.graphs := by
  unfold RocksStorage.namedGraphs
  cases hs : r.scope with
  | none =>
    simp only
    rw [← h.base_none hs]
    exact h.db.graphs g
  | some sc =>
    simp only
    have hrows : g ∈ r.db.index.graphs.toList ↔ g ∈ a.base.graphs ∧ (fun _ => true) g = true := by
      rw [and_iff_left rfl]
      exact h.db.graphs g
    rw [(h.graphs sc hs).mem_merge hrows, and_iff_left rfl]

theorem Sim.namedGraphs_nodup (h : Sim r a) : r.namedGraphs.Nodup := by
  unfold RocksStorage.namedGraphs
  cases hs : r.scope with
  | none => exact SortedSet.nodup _
  | some sc => exact (h.graphs sc hs).merge_nodup (fun g hg => (h.db.graphs g).1 hg) (SortedSet.nodup _)

/-! ## Writes -/

/-- A group of writes has landed, in the database or in the scope, with what the scope notes. -/
structure Landed (r r' : RocksStorage) (ops : List Pending) (onQuads : Overlay EncodedQuad → Overlay EncodedQuad)
    (onGraphs : Overlay TermId → Overlay TermId) : Prop where
  none : r.scope = none → r'.scope = none ∧ r'.db = r.db.write ops
  some : ∀ s, r.scope = some s → r'.db = r.db ∧
    r'.scope = some { s with pending := s.pending ++ ops, quads := onQuads s.quads, graphs := onGraphs s.graphs }

theorem Landed.applied {ops : List Pending} {onQuads : Overlay EncodedQuad → Overlay EncodedQuad}
    {onGraphs : Overlay TermId → Overlay TermId} (h : Landed r r' ops onQuads onGraphs) :
    r'.applied = r.applied.write ops := by
  unfold RocksStorage.applied
  cases hs : r.scope with
  | none =>
    obtain ⟨h₁, h₂⟩ := h.none hs
    simp only [h₁, h₂]
  | some s =>
    obtain ⟨h₁, h₂⟩ := h.some s hs
    simp only [h₁, h₂, write_append]

/-- Writes that have landed, if they make the index and the overlays of the new contents. -/
theorem Sim.landed {ops : List Pending} {onQuads : Overlay EncodedQuad → Overlay EncodedQuad}
    {onGraphs : Overlay TermId → Overlay TermId} {c : Contents} (h : Sim r a) (hland : Landed r r' ops onQuads onGraphs)
    (hindex : Index.Holds (r.applied.write ops).index c.quads c.graphs)
    (hquads : ∀ m : Overlay EncodedQuad, m.Shows a.base.quads a.current.quads → (onQuads m).Shows a.base.quads c.quads)
    (hgraphs : ∀ m : Overlay TermId, m.Shows a.base.graphs a.current.graphs → (onGraphs m).Shows a.base.graphs c.graphs)
    (hcount : r'.quadCount = c.quads.card) (hcounts : ∀ p, r'.predicateCounts.count p = c.count p) :
    Sim r' { a with current := c } := by
  have happlied := hland.applied
  cases hs : r.scope with
  | none =>
    obtain ⟨h₁, h₂⟩ := hland.none hs
    have hsaved := h.saved_none hs
    refine ⟨by rw [happlied]; exact hindex, ?_, by rw [h₁, hsaved]; rfl, ?_, ?_, hcount, hcounts, ?_, ?_⟩
    · simp only [Storage.Scoped.base, hsaved, Option.getD_none, h₂]
      simpa only [RocksStorage.applied, hs] using hindex
    all_goals intro s hs'; rw [h₁] at hs'; cases hs'
  | some s =>
    obtain ⟨h₁, h₂⟩ := hland.some s hs
    have hsome : a.saved.isSome = true := by rw [← h.scope, hs]; rfl
    obtain ⟨c₀, hc₀⟩ := Option.isSome_iff_exists.1 hsome
    have hbase : Storage.Scoped.base { a with current := c } = a.base := by
      simp only [Storage.Scoped.base, hc₀, Option.getD_some]
    refine ⟨by rw [happlied]; exact hindex, by rw [h₁, hbase]; exact h.db, by rw [h₂, hc₀]; rfl, ?_, ?_, hcount, hcounts, ?_, ?_⟩
    all_goals intro s' hs'; rw [h₂] at hs'; cases hs'; rw [hbase]
    · exact hquads _ (h.quads s hs)
    · exact hgraphs _ (h.graphs s hs)
    · exact h.savedCount s hs
    · exact h.savedCounts s hs

/-- A group of writes is handed over, also when it is one too many for the scope. -/
theorem commitOps_landed {ops : List Pending} {res : Except StorageError Unit} (h : r.commitOps ops = (res, r')) :
    Landed r r' ops id id ∧ r'.quadCount = r.quadCount ∧ r'.predicateCounts = r.predicateCounts ∧
      r'.generation = r.generation ∧ r'.next = r.next := by
  unfold commitOps at h
  cases hs : r.scope with
  | none =>
    rw [hs] at h
    cases h
    exact ⟨⟨fun _ => ⟨rfl, rfl⟩, fun s hs' => by rw [hs] at hs'; cases hs'⟩, rfl, rfl, rfl, rfl⟩
  | some s =>
    rw [hs] at h
    simp only [Prod.mk.injEq] at h
    obtain ⟨-, rfl⟩ := h
    refine ⟨⟨fun hn => (by rw [hs] at hn; cases hn), fun s' hs' => ?_⟩, rfl, rfl, rfl, rfl⟩
    rw [hs] at hs'
    cases hs'
    exact ⟨rfl, rfl⟩

theorem Landed.noteQuad {ops : List Pending} {onQuads : Overlay EncodedQuad → Overlay EncodedQuad}
    {onGraphs : Overlay TermId → Overlay TermId} (h : Landed r r' ops onQuads onGraphs) (q : EncodedQuad) (present b : Bool) :
    Landed r (r'.noteQuad q present b) ops (fun m => (onQuads m).note q present b) onGraphs where
  none hs := by
    obtain ⟨h₁, h₂⟩ := h.none hs
    exact ⟨by simp [RocksStorage.noteQuad, h₁], h₂⟩
  some s hs := by
    obtain ⟨h₁, h₂⟩ := h.some s hs
    exact ⟨h₁, by simp [RocksStorage.noteQuad, h₂]⟩

theorem Landed.noteGraph {ops : List Pending} {onQuads : Overlay EncodedQuad → Overlay EncodedQuad}
    {onGraphs : Overlay TermId → Overlay TermId} (h : Landed r r' ops onQuads onGraphs) (g : TermId) (present : Bool) :
    Landed r (r'.noteGraph g present) ops onQuads (fun m => (onGraphs m).note g present (r.dbContainsGraph g)) where
  none hs := by
    obtain ⟨h₁, h₂⟩ := h.none hs
    exact ⟨by simp [RocksStorage.noteGraph, h₁], h₂⟩
  some s hs := by
    obtain ⟨h₁, h₂⟩ := h.some s hs
    exact ⟨h₁, by simp [RocksStorage.noteGraph, h₂, dbContainsGraph, h₁]⟩

/-- The rows of quads, graphs and counters are not the dictionary's. -/
def offDictionary : Pending → Bool
  | .putId2str _ _ | .putStr2id _ _ => false
  | _ => true

/-- Rows have landed, none of them the dictionary's. -/
def LandedOff (r r' : RocksStorage) : Prop :=
  ∃ ops onQuads onGraphs, Landed r r' ops onQuads onGraphs ∧ ∀ op ∈ ops, offDictionary op = true

theorem LandedOff.refl (r : RocksStorage) : LandedOff r r :=
  ⟨[], id, id, ⟨fun hs => ⟨hs, rfl⟩, fun s hs => ⟨rfl, by simp [hs]⟩⟩, by simp⟩

theorem LandedOff.trans {r'' : RocksStorage} (h : LandedOff r r') (h' : LandedOff r' r'') : LandedOff r r'' := by
  obtain ⟨ops, f, g, hland, hops⟩ := h
  obtain ⟨ops', f', g', hland', hops'⟩ := h'
  refine ⟨ops ++ ops', f' ∘ f, g' ∘ g, ⟨fun hs => ?_, fun s hs => ?_⟩, fun op hop => ?_⟩
  · obtain ⟨h₁, h₂⟩ := hland.none hs
    obtain ⟨h₃, h₄⟩ := hland'.none h₁
    exact ⟨h₃, by rw [h₄, h₂, write_append]⟩
  · obtain ⟨h₁, h₂⟩ := hland.some s hs
    obtain ⟨h₃, h₄⟩ := hland'.some _ h₂
    exact ⟨h₃.trans h₁, by simp [h₄]⟩
  · rcases List.mem_append.1 hop with hop | hop
    · exact hops op hop
    · exact hops' op hop

/-- What a write that returned does: its answer, and the contents after it. -/
structure Wrote (r : RocksStorage) (a : Storage.Scoped) (op : Index.Op) (b : Bool) (r' : RocksStorage) : Prop where
  reply : b = a.current.changes op
  sim : Sim r' (a.step (.write op))
  next : r'.next = r.next
  landed : LandedOff r r'

theorem Wrote.same (h : Sim r a) {op : Index.Op} (hop : a.current.changes op = false) : Wrote r a op false r where
  reply := hop.symm
  sim := by simpa only [Storage.Scoped.step, Contents.apply_of_not_changes hop] using h
  next := rfl
  landed := .refl r

theorem putRows_off (q : EncodedQuad) : ∀ op ∈ putRows q, offDictionary op = true := by
  obtain ⟨s, p, o, g⟩ := q
  cases g <;> simp [putRows, offDictionary]

theorem deleteRows_off (q : EncodedQuad) : ∀ op ∈ deleteRows q, offDictionary op = true := by
  obtain ⟨s, p, o, g⟩ := q
  cases g <;> simp [deleteRows, offDictionary]

theorem statsRow_off (counts : Counter TermId) (p : TermId) :
    ∀ op ∈ statsRow counts p, beside op = true ∧ offDictionary op = true := by
  unfold statsRow
  split_ifs <;> simp [beside, offDictionary]

theorem insertEncoded_wrote (h : Sim r a) {q : EncodedQuad} {b : Bool} (hok : r.insertEncoded q = (.ok b, r')) :
    Wrote r a (.insert q) b r' := by
  unfold insertEncoded at hok
  by_cases hin : r.containsEncoded q = true
  · rw [if_pos hin] at hok
    cases hok
    exact Wrote.same h (by simpa [Contents.changes] using (h.containsEncoded q).1 hin)
  · rw [if_neg hin] at hok
    have hq : q ∉ a.current.quads := fun hq => hin ((h.containsEncoded q).2 hq)
    simp only at hok
    split at hok
    · cases hok
    · rename_i r₂ hcommit
      cases hok
      obtain ⟨hland, hcount, hcounts, -, hnext⟩ := commitOps_landed hcommit
      -- the counters moved before the rows were handed over
      have hland : Landed r r₂ _ id id := ⟨hland.none, hland.some⟩
      have hindex : ∀ ops, (∀ op ∈ ops, beside op = true) →
          Index.Holds (r.applied.write (putRows q ++ ops)).index (a.current.insert q).quads (a.current.insert q).graphs := by
        intro ops hops
        rw [write_append, write_beside _ hops]
        exact holds_putRows h.applied q
      have hquads : ∀ m : Overlay EncodedQuad, m.Shows a.base.quads a.current.quads →
          (m.note q true false).Shows a.base.quads (a.current.insert q).quads := by
        intro m hm
        refine hm.note (fun hl => ?_) (by simp [Contents.insert]) (fun y hy => by simp [Contents.insert, hy])
        have := hm.unknown q hl
        simp only [Bool.false_eq_true, false_iff]
        exact fun hb => hq (this.2 hb)
      have hcard : r.quadCount + 1 = (a.current.insert q).quads.card := by
        simp only [Contents.insert, Finset.card_insert_of_notMem hq, h.quadCount]
      have hinc : ∀ p, (r.predicateCounts.increment q.predicate).count p = (a.current.insert q).count p := fun p => by
        rw [Counter.count_increment, h.counts, Contents.count_insert hq]
      have hoff : LandedOff r r₂ := ⟨_, _, _, hland, fun op hop => by
        rcases List.mem_append.1 hop with hop | hop
        · exact putRows_off q op hop
        · simp only [List.mem_cons, List.not_mem_nil, or_false] at hop
          rcases hop with rfl | rfl | rfl <;> rfl⟩
      refine ⟨by simpa [Contents.changes] using hq, ?_, ?_, ?_⟩
      · cases hg : q.graphName with
        | none =>
          refine h.landed (hland.noteQuad q true false) (hindex _ (by simp [beside])) hquads (fun m hm => ?_) ?_ ?_
          · simpa [Contents.apply, Contents.insert, hg, Index.record] using hm
          · exact hcount.trans hcard
          · exact fun p => (congrArg (fun k => k.count p) hcounts).trans (hinc p)
        | some g =>
          refine h.landed ((hland.noteQuad q true false).noteGraph g true) (hindex _ (by simp [beside])) hquads
            (fun m hm => ?_) ?_ ?_
          · refine hm.note (fun _ => dbContainsGraph_iff h.db g) (by simp [Contents.apply, Contents.insert, hg, Index.record])
              (fun y hy => by simp [Contents.apply, Contents.insert, hg, Index.record, hy])
          · exact hcount.trans hcard
          · exact fun p => (congrArg (fun k => k.count p) hcounts).trans (hinc p)
      · cases q.graphName with
        | none => exact hnext
        | some g => exact hnext
      · obtain ⟨ops, f, g, hland, hops⟩ := hoff
        cases q.graphName with
        | none => exact ⟨ops, _, _, hland.noteQuad q true false, hops⟩
        | some g => exact ⟨ops, _, _, (hland.noteQuad q true false).noteGraph g true, hops⟩

theorem removeEncoded_wrote (h : Sim r a) {q : EncodedQuad} {b : Bool} (hok : r.removeEncoded q = (.ok b, r')) :
    Wrote r a (.remove q) b r' := by
  unfold removeEncoded at hok
  by_cases hin : r.containsEncoded q = true
  · have hq : q ∈ a.current.quads := (h.containsEncoded q).1 hin
    rw [if_pos hin] at hok
    simp only at hok
    split at hok
    · cases hok
    · rename_i r₂ hcommit
      cases hok
      obtain ⟨hland, hcount, hcounts, -, hnext⟩ := commitOps_landed hcommit
      have hland : Landed r r₂ _ id id := ⟨hland.none, hland.some⟩
      have hoff : LandedOff r (r₂.noteQuad q false true) := ⟨_, _, _, hland.noteQuad q false true, fun op hop => by
        simp only [List.append_assoc, List.mem_append, List.mem_cons, List.not_mem_nil, or_false] at hop
        rcases hop with hop | (rfl | rfl) | hop
        · exact deleteRows_off q op hop
        · rfl
        · rfl
        · exact (statsRow_off _ _ op hop).2⟩
      refine ⟨by simpa [Contents.changes] using hq, ?_, hnext, hoff⟩
      refine h.landed (hland.noteQuad q false true) ?_ (fun m hm => ?_) (fun m hm => hm) ?_ ?_
      · rw [List.append_assoc, write_append, write_beside]
        · exact holds_deleteRows h.applied q
        · intro op hop
          simp only [List.cons_append, List.nil_append, List.mem_cons] at hop
          rcases hop with rfl | rfl | hop
          · rfl
          · rfl
          · exact (statsRow_off _ _ op hop).1
      · refine hm.note (fun hl => ?_) (by simp [Contents.apply, Contents.remove])
          (fun y hy => by simp [Contents.apply, Contents.remove, hy])
        have := hm.unknown q hl
        simp only [true_iff]
        exact this.1 hq
      · refine hcount.trans ?_
        simp only [Contents.apply, Contents.remove, Finset.card_erase_of_mem hq, h.quadCount]
      · intro p
        refine (congrArg (fun k => k.count p) hcounts).trans ?_
        simp only [Contents.apply, Counter.count_decrement, h.counts, Contents.count_remove hq]
  · rw [if_neg hin] at hok
    cases hok
    exact Wrote.same h (by simpa [Contents.changes] using fun hq => hin ((h.containsEncoded q).2 hq))

theorem insertNamedGraph_wrote (h : Sim r a) {g : TermId} {b : Bool} (hok : r.insertNamedGraph g = (.ok b, r')) :
    Wrote r a (.insertNamedGraph g) b r' := by
  unfold insertNamedGraph at hok
  by_cases hin : r.containsNamedGraph g = true
  · rw [if_pos hin] at hok
    cases hok
    exact Wrote.same h (by simpa [Contents.changes] using (h.containsNamedGraph g).1 hin)
  · rw [if_neg hin] at hok
    have hg : g ∉ a.current.graphs := fun hg => hin ((h.containsNamedGraph g).2 hg)
    split at hok
    · cases hok
    · rename_i r₂ hcommit
      cases hok
      obtain ⟨hland, hcount, hcounts, -, hnext⟩ := commitOps_landed hcommit
      refine ⟨by simpa [Contents.changes] using hg, ?_, hnext, _, _, _, hland.noteGraph g true, by simp [offDictionary]⟩
      refine h.landed (hland.noteGraph g true) ?_ (fun m hm => hm) (fun m hm => ?_) (hcount.trans h.quadCount) ?_
      · exact holds_putGraph h.applied g
      · exact hm.note (fun _ => dbContainsGraph_iff h.db g) (by simp [Contents.apply, Contents.insertNamedGraph])
          (fun y hy => by simp [Contents.apply, Contents.insertNamedGraph, hy])
      · exact fun p => (congrArg (fun k => k.count p) hcounts).trans (h.counts p)

/-- Removing quads one by one. -/
theorem removeEach_sim (h : Sim r a) {l : List EncodedQuad} (hok : r.removeEach l = (.ok (), r')) :
    Sim r' { a with current := a.current.removeAll l } ∧ r'.next = r.next ∧ LandedOff r r' := by
  induction l generalizing r a with
  | nil =>
    cases hok
    exact ⟨h, rfl, .refl _⟩
  | cons q l ih =>
    simp only [removeEach] at hok
    split at hok
    · cases hok
    · rename_i b r₂ hremove
      have hwrote := removeEncoded_wrote h hremove
      obtain ⟨hsim, hnext, hoff⟩ := ih hwrote.sim hok
      exact ⟨hsim, hnext.trans hwrote.next, hwrote.landed.trans hoff⟩

theorem removeNamedGraph_wrote (h : Sim r a) {g : TermId} {b : Bool} (hok : r.removeNamedGraph g = (.ok b, r')) :
    Wrote r a (.removeNamedGraph g) b r' := by
  have hdoomed : ∀ q, q ∈ r.scan none none none (.named g) ↔ q ∈ a.current.quads ∧ q.graphName = some g := by
    intro q
    rw [h.mem_scan]
    simp [Index.matchesTriple, Index.GraphFilter.admits]
  unfold removeNamedGraph at hok
  generalize r.scan none none none (.named g) = doomed at hok hdoomed
  simp only at hok
  split at hok
  · cases hok
  · rename_i r₂ heach
    obtain ⟨hsim, hnext, hoff⟩ := removeEach_sim h heach
    by_cases hin : r.containsNamedGraph g = true
    · have hg : g ∈ a.current.graphs := (h.containsNamedGraph g).1 hin
      rw [if_pos hin] at hok
      split at hok
      · cases hok
      · rename_i r₃ hcommit
        cases hok
        obtain ⟨hland, hcount, hcounts, -, hnext'⟩ := commitOps_landed hcommit
        have hoff' : LandedOff r₂ (r₃.noteGraph g false) := ⟨_, _, _, hland.noteGraph g false, by simp [offDictionary]⟩
        refine ⟨by simpa [Contents.changes, hg] using hin, ?_, hnext'.trans hnext, hoff.trans hoff'⟩
        -- nothing of the graph is left, so only its name goes
        have heq := Contents.removeNamedGraph_eq hdoomed
        have hquads : ((a.current.removeAll doomed).removeNamedGraph g).quads = (a.current.removeAll doomed).quads := by
          rw [← heq]
          ext q
          simp only [Contents.removeNamedGraph, Index.dropGraph, Finset.mem_filter, Contents.mem_removeAll, hdoomed]
          tauto
        have hstep : a.step (.write (.removeNamedGraph g)) =
            { a with current := (a.current.removeAll doomed).removeNamedGraph g } := by
          simp only [Storage.Scoped.step, Contents.apply, heq]
        rw [hstep]
        refine hsim.landed (hland.noteGraph g false) ?_ (fun m hm => ?_) (fun m hm => ?_) ?_ ?_
        · rw [hquads]
          refine holds_deleteGraph hsim.applied (fun q hq hg => ?_)
          exact (Contents.mem_removeAll.1 hq).2 ((hdoomed q).2 ⟨(Contents.mem_removeAll.1 hq).1, hg⟩)
        · rw [hquads]
          exact hm
        · exact hm.note (fun _ => dbContainsGraph_iff hsim.db g) (by simp [Contents.removeNamedGraph])
            (fun y hy => by simp [Contents.removeNamedGraph, hy])
        · rw [hquads]
          exact hcount.trans hsim.quadCount
        · intro p
          simp only [Contents.count, hquads]
          exact (congrArg (fun k => k.count p) hcounts).trans (hsim.counts p)
    · have hg : g ∉ a.current.graphs := fun hg => hin ((h.containsNamedGraph g).2 hg)
      rw [if_neg hin] at hok
      cases hok
      -- a graph that does not exist holds nothing
      have hnil : doomed = [] := List.eq_nil_iff_forall_not_mem.2 (fun q hq =>
        hg (a.current.named q ((hdoomed q).1 hq).1 g ((hdoomed q).1 hq).2))
      subst hnil
      cases heach
      rw [Bool.not_eq_true] at hin
      rw [hin]
      exact Wrote.same h (by simpa [Contents.changes] using hg)

theorem write_wrote (h : Sim r a) {op : Index.Op} {b : Bool} (hok : r.write op = (.ok b, r')) : Wrote r a op b r' := by
  cases op with
  | insert q => exact insertEncoded_wrote h hok
  | remove q => exact removeEncoded_wrote h hok
  | insertNamedGraph g => exact insertNamedGraph_wrote h hok
  | removeNamedGraph g => exact removeNamedGraph_wrote h hok

end Holos.RocksStorage
