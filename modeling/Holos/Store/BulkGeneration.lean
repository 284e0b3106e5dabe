import Holos.Store.BulkTheorems
import Holos.Store.RocksGeneration
/-!
# What the generation stamps across bulk loads

Nothing a load is given is shown before its end, but for removals: they are counted at once
and shown when their batch is written. The end of a load moves the generation whatever it
brought.
-/

namespace Holos

open Lib Lib.Version
open RocksStorage (Overlaid Lands beside offDictionary graphOrBeside)

namespace Load

variable {config : Config} {finished : Nat → Bool} {fx : StoredTerm → UInt64} {hash128 : StoredTerm → Hash}
  {X : Inline.Datatypes} {l l' : Load}

/-! ## Batches -/

/-- The batch with more rows behind it. -/
def batch (l : Load) (ops : List Pending) : List Pending := l.state.pending ++ ops.filter offDictionary

/-- What buffering a group of writes does to quads and graphs: the batch grows and is written if
it has reached its size. -/
structure Buffered (l : Load) (ops : List Pending) (l' : Load) : Prop where
  written : bulkBatchOps ≤ (l.batch ops).length →
    l'.storage.db.index = (l.storage.db.write (l.batch ops)).index ∧ l'.state.pending = []
  kept : ¬bulkBatchOps ≤ (l.batch ops).length → l'.storage.db.index = l.storage.db.index ∧ l'.state.pending = l.batch ops
  generation : l'.storage.generation = l.storage.generation
  scope : l'.storage.scope = l.storage.scope
  quads : l'.state.quads = l.state.quads
  spilled : l'.state.spilled = l.state.spilled
  graphs : l'.state.graphs = l.state.graphs

theorem Buffered.settled {l'' : Load} {ops : List Pending} (h : Buffered l ops l') (h' : Settled l' l'') : Buffered l ops l'' where
  written hf := ⟨h'.index.trans (h.written hf).1, h'.pending.trans (h.written hf).2⟩
  kept hf := ⟨h'.index.trans (h.kept hf).1, h'.pending.trans (h.kept hf).2⟩
  generation := h'.generation.trans h.generation
  scope := h'.scope.trans h.scope
  quads := h'.quads.trans h.quads
  spilled := h'.spilled.trans h.spilled
  graphs := h'.graphs.trans h.graphs

theorem commitOps_buffered (l : Load) (ops : List Pending) : Buffered l ops (l.commitOps config finished ops) := by
  obtain ⟨dict, hd⟩ := divert_eq l.state ops
  unfold commitOps
  simp only [hd]
  have hfull : ∀ l₁ : Load, l₁ = { l with state := { l.state with pending := l.state.pending ++ ops.filter offDictionary, dict } } →
      Buffered l ops l₁.writeFull := by
    rintro l₁ rfl
    unfold writeFull
    split
    · rename_i hle
      exact ⟨fun _ => ⟨rfl, rfl⟩, fun hn => absurd hle hn, rfl, rfl, rfl, rfl, rfl⟩
    · rename_i hle
      exact ⟨fun hf => absurd hf hle, fun _ => ⟨rfl, rfl⟩, rfl, rfl, rfl, rfl, rfl⟩
  have h := (hfull _ rfl).settled (@settleDictionary_settled finished _ false)
  split
  · exact h.settled (flushDictionary_settled _)
  · exact h

/-! ## What a load shows -/

/-- The database holds quads, the batch takes some of them away, and the graphs of the quads
held back are known. -/
structure Shown (l : Load) (Q Q' : Finset EncodedQuad) : Prop where
  scope : l.storage.scope = none
  db : ∃ G, Index.Holds l.storage.db.index Q G
  pending : ∃ G, Index.Holds (l.storage.db.write l.state.pending).index Q' G
  sub : Q' ⊆ Q
  graphs : ∀ q ∈ l.state.spilled ++ l.state.quads, ∀ g, q.graphName = some g → g ∈ l.state.graphs

variable {Q Q' Q₁ : Finset EncodedQuad} {ops : List Pending}

theorem Shown.overlaid (h : Shown l Q Q') : Overlaid l.storage Q Q :=
  ⟨h.db, fun _ => rfl, fun s hs => by rw [h.scope] at hs; cases hs⟩

theorem write_index_congr {db db' : Db} (h : db'.index = db.index) (ops : List Pending) :
    (db'.write ops).index = (db.write ops).index := by
  unfold Db.write
  induction ops generalizing db db' with
  | nil => exact h
  | cons op ops ih =>
    refine ih ?_
    cases op <;> simp only [Db.apply, h]

/-- The dictionary's rows are not of the index, so the batch without them makes the same one. -/
theorem write_filter (db : Db) (ops : List Pending) : (db.write (ops.filter offDictionary)).index = (db.write ops).index := by
  unfold Db.write
  induction ops generalizing db with
  | nil => rfl
  | cons op ops ih =>
    cases op with
    | putId2str id st => exact (ih db).trans (@write_index_congr (db.apply (.putId2str id st)) db rfl ops)
    | putStr2id key ids => exact (ih db).trans (@write_index_congr (db.apply (.putStr2id key ids)) db rfl ops)
    | _ => exact ih _

/-- Writes that take quads away at most. -/
theorem Shown.buffered {ops : List Pending} (h : Shown l Q Q') (hb : Buffered l ops l')
    (hindex : ∀ db : Db, (∃ G, Index.Holds db.index Q' G) → ∃ G, Index.Holds (db.write ops).index Q₁ G) (hsub : Q₁ ⊆ Q') :
    ∃ Q₀, Shown l' Q₀ Q₁ := by
  have hbatch : ∃ G, Index.Holds (l.storage.db.write (l.batch ops)).index Q₁ G := by
    unfold batch
    rw [RocksStorage.write_append, write_filter]
    exact hindex _ h.pending
  have hgraphs : ∀ q ∈ l'.state.spilled ++ l'.state.quads, ∀ g, q.graphName = some g → g ∈ l'.state.graphs := by
    rw [hb.spilled, hb.quads, hb.graphs]
    exact h.graphs
  by_cases hf : bulkBatchOps ≤ (l.batch ops).length
  · obtain ⟨h₁, h₂⟩ := hb.written hf
    refine ⟨Q₁, hb.scope.trans h.scope, by rw [h₁]; exact hbatch, ?_, Finset.Subset.refl _, hgraphs⟩
    rw [h₂]
    exact h₁ ▸ hbatch
  · obtain ⟨h₁, h₂⟩ := hb.kept hf
    refine ⟨Q, hb.scope.trans h.scope, by rw [h₁]; exact h.db, ?_, hsub.trans h.sub, hgraphs⟩
    rw [h₂, write_index_congr h₁]
    exact hbatch

/-! ## What is handed over -/

variable (fx hash128 X) in
/-- The rows a call hands over in a load, if it is one that does not move the generation. -/
def handed (l : Load) : Storage.Op → List Pending
  | .encode t =>
    match l.encodeInto fx hash128 X [] t with
    | some (.ok x, _) => x.2
    | _ => []
  | .write (.insertNamedGraph g) => if l.storage.containsNamedGraph g then [] else [.putGraph g]
  | .write (.removeNamedGraph g) => if l.storage.containsNamedGraph g then [.deleteGraph g] else []
  | _ => []

/-- Whether an operation in a load moves the generation. -/
def advances (l : Load) : Storage.Op → Bool
  | .write (.remove q) => l.storage.containsEncoded q
  | .write (.removeNamedGraph g) => !(l.storage.scan none none none (.named g)).isEmpty
  | _ => false

variable (fx hash128 X) in
/-- Whether an operation that does not move the generation fills a batch with removals of quads
in it. -/
def writesRemovals (l : Load) (op : Storage.Op) : Bool :=
  bulkBatchOps ≤ (l.batch (l.handed fx hash128 X op)).length && l.state.pending.any (fun row => !graphOrBeside row)

theorem Interned.moment (h : Interned l l') : l'.storage.moment = l.storage.moment := by
  unfold RocksStorage.moment
  rw [h.generation, @RocksStorage.contains_congr l.storage l'.storage (by rw [h.scope]) (by rw [h.db]) (by rw [h.db])]

theorem Interned.shown (h : Interned l l') (hs : Shown l Q Q') : Shown l' Q Q' where
  scope := h.scope.trans hs.scope
  db := by rw [h.db]; exact hs.db
  pending := by rw [h.db, h.pending]; exact hs.pending
  sub := hs.sub
  graphs := by rw [h.spilled, h.quads, h.graphs]; exact hs.graphs

/-- Rows of graphs and counters, unless they fill a batch with removals. -/
theorem Buffered.moment (h : Buffered l ops l') (hops : ∀ op ∈ ops, graphOrBeside op = true)
    (hfull : bulkBatchOps ≤ (l.batch ops).length → ∀ op ∈ l.state.pending, graphOrBeside op = true) :
    l'.storage.moment = l.storage.moment := by
  unfold RocksStorage.moment
  rw [h.generation]
  have hsame : ∀ hdspo hgspo, l'.storage.containsEncoded = l.storage.containsEncoded := fun hdspo hgspo =>
    @RocksStorage.contains_congr l.storage l'.storage (by rw [h.scope]) hdspo hgspo
  by_cases hf : bulkBatchOps ≤ (l.batch ops).length
  · have hrows : ∀ op ∈ l.batch ops, graphOrBeside op = true := by
      intro op hop
      rcases List.mem_append.1 hop with hop | hop
      · exact hfull hf op hop
      · exact hops op (List.mem_of_mem_filter hop)
    obtain ⟨hdspo, hgspo⟩ := RocksStorage.write_graphOrBeside l.storage.db hrows
    obtain ⟨hindex, -⟩ := h.written hf
    rw [hsame (by rw [hindex, hdspo]) (by rw [hindex, hgspo])]
  · obtain ⟨hindex, -⟩ := h.kept hf
    rw [hsame (by rw [hindex]) (by rw [hindex])]

theorem encode_inv {t : Term} {res : Except StorageError TermId × Load} (h : l.encode config finished fx hash128 X t = some res) :
    ∃ l₁, Interned l l₁ ∧ (∀ op ∈ l.handed fx hash128 X (.encode t), beside op = true) ∧
      (res.2 = l₁ ∨ res.2 = l₁.commitOps config finished (l.handed fx hash128 X (.encode t))) := by
  unfold encode andThen at h
  split at h
  · cases h
  · rename_i e l₁ he
    cases h
    refine ⟨l₁, (encodeInto_internsTo he).1, ?_, .inl rfl⟩
    simp [handed, he]
  · rename_i x l₁ he
    cases h
    obtain ⟨hint, hgathers⟩ := encodeInto_internsTo he
    obtain ⟨more, hmore, hbeside⟩ := hgathers _ rfl
    have hhanded : l.handed fx hash128 X (.encode t) = x.2 := by simp only [handed, he]
    refine ⟨l₁, hint, ?_, .inr ?_⟩
    · rw [hhanded, hmore]
      simpa using hbeside
    · rw [hhanded]

/-! ## Steps -/

theorem removeEncoded_generation (l : Load) (q : EncodedQuad) :
    (l.removeEncoded config finished q).2.storage.generation = l.storage.generation + if l.storage.containsEncoded q then 1 else 0 := by
  unfold removeEncoded
  split
  · exact (commitOps_buffered _ _).generation
  · rfl

theorem removeAll_generation (l : Load) (qs : List EncodedQuad) :
    l.storage.generation ≤ (qs.foldl (fun l quad => (l.removeEncoded config finished quad).2) l).storage.generation := by
  induction qs generalizing l with
  | nil => exact le_rfl
  | cons q qs ih =>
    have hq := @removeEncoded_generation config finished l q
    have := ih (l.removeEncoded config finished q).2
    rw [List.foldl_cons]
    omega

theorem removeEncoded_shown (h : Shown l Q Q') (q : EncodedQuad) :
    ∃ Q₀, Shown (l.removeEncoded config finished q).2 Q₀ (Q'.erase q) := by
  unfold removeEncoded
  split
  · have hcounted : ∀ n g k,
        Shown { l with storage := { l.storage with quadCount := n, generation := g, predicateCounts := k } } Q Q' :=
      fun _ _ _ => ⟨h.scope, h.db, h.pending, h.sub, h.graphs⟩
    refine (hcounted _ _ _).buffered (commitOps_buffered _ _) ?_ (Finset.erase_subset _ _)
    rintro db ⟨G, hG⟩
    refine ⟨G, ?_⟩
    rw [List.append_assoc, RocksStorage.write_append, RocksStorage.write_beside]
    · exact RocksStorage.holds_deleteRows hG q
    · intro op hop
      simp only [List.cons_append, List.nil_append, List.mem_cons] at hop
      rcases hop with rfl | rfl | hop
      · rfl
      · rfl
      · exact (RocksStorage.statsRow_off _ _ op hop).1
  · rename_i hout
    have hq : q ∉ Q' := fun hq => hout ((h.overlaid.containsEncoded q).2 (h.sub hq))
    rw [Finset.erase_eq_of_notMem hq]
    exact ⟨Q, h⟩

theorem removeAll_shown (h : Shown l Q Q') (qs : List EncodedQuad) :
    ∃ Q₀ Q₁, Shown (qs.foldl (fun l quad => (l.removeEncoded config finished quad).2) l) Q₀ Q₁ ∧ ∀ q, q ∈ Q₁ ↔ q ∈ Q' ∧ q ∉ qs := by
  induction qs generalizing l Q Q' with
  | nil => exact ⟨Q, Q', h, fun q => by simp⟩
  | cons q qs ih =>
    obtain ⟨Q₀, hq⟩ := @removeEncoded_shown config finished l Q Q' h q
    obtain ⟨Q₁, Q₂, hqs, hmem⟩ := ih hq
    refine ⟨Q₁, Q₂, hqs, fun x => ?_⟩
    rw [hmem, Finset.mem_erase, List.mem_cons]
    tauto

/-- What is held back and the quad to come have their graphs noted. -/
theorem Shown.graphs_insert (h : Shown l Q Q') (q : EncodedQuad) :
    ∀ x ∈ l.state.spilled ++ (l.state.quads ++ [q]), ∀ g, x.graphName = some g →
      g ∈ (match q.graphName with
        | some g => l.state.graphs.insert g
        | none => l.state.graphs) := by
  intro x hx g hg
  rw [← List.append_assoc, List.mem_append, List.mem_singleton] at hx
  rcases hx with hx | rfl
  · have hmem := h.graphs x hx g hg
    cases q.graphName with
    | none => exact hmem
    | some g' => exact SortedSet.mem_insert.2 (.inr hmem)
  · rw [hg]
    exact SortedSet.mem_insert.2 (.inl rfl)

theorem write_shown (h : Shown l Q Q') (op : Index.Op) : ∃ Q₀ Q₁, Shown (l.write config finished op).2 Q₀ Q₁ := by
  cases op with
  | insert q =>
    refine ⟨Q, Q', ?_⟩
    have hheld := h.graphs_insert q
    simp only [write, insertEncoded]
    split
    · exact ⟨h.scope, h.db, h.pending, h.sub, fun x hx => hheld x (by simpa using hx)⟩
    · exact ⟨h.scope, h.db, h.pending, h.sub, hheld⟩
  | remove q =>
    obtain ⟨Q₀, hq⟩ := @removeEncoded_shown config finished l Q Q' h q
    exact ⟨Q₀, _, hq⟩
  | insertNamedGraph g =>
    simp only [write, insertNamedGraph]
    split
    · exact ⟨Q, Q', h⟩
    · obtain ⟨Q₀, hb⟩ := h.buffered (@commitOps_buffered config finished l [.putGraph g])
        (fun db ⟨G, hG⟩ => ⟨_, RocksStorage.holds_putGraph hG g⟩) (Finset.Subset.refl _)
      exact ⟨Q₀, Q', hb⟩
  | removeNamedGraph g =>
    obtain ⟨Q₀, Q₁, hall, hmem⟩ := @removeAll_shown config finished l Q Q' h (l.storage.scan none none none (.named g))
    simp only [write, removeNamedGraph]
    split
    · have hgone : ∀ q ∈ Q₁, q.graphName ≠ some g := by
        -- what the batch leaves of the graph is in the database, so it was scanned
        intro q hq hg
        obtain ⟨hq, hout⟩ := (hmem q).1 hq
        refine hout ((h.overlaid.mem_scan none none none (.named g) q).2 ⟨h.sub hq, ?_, ?_⟩)
        · simp [Index.matchesTriple]
        · simp [Index.GraphFilter.admits, hg]
      obtain ⟨Q₂, hb⟩ := hall.buffered (@commitOps_buffered config finished _ [.deleteGraph g])
        (fun db ⟨G, hG⟩ => ⟨_, RocksStorage.holds_deleteGraph hG hgone⟩) (Finset.Subset.refl _)
      exact ⟨Q₂, Q₁, hb⟩
    · exact ⟨Q₀, Q₁, hall⟩

theorem loadStep_shown (h : Shown l Q Q') {op : Storage.Op} {reply : Storage.Reply}
    (hstep : Loader.loadStep config finished fx hash128 X l op = some (reply, l')) : ∃ Q₀ Q₁, Shown l' Q₀ Q₁ := by
  cases op with
  | encode t =>
    obtain ⟨res, he, heq⟩ := Option.map_eq_some_iff.1 hstep
    cases heq
    obtain ⟨l₁, hint, hbeside, heq | heq⟩ := encode_inv he
    · rw [heq]
      exact ⟨Q, Q', hint.shown h⟩
    · rw [heq]
      obtain ⟨Q₀, hb⟩ := (hint.shown h).buffered (commitOps_buffered l₁ _)
        (fun db ⟨G, hG⟩ => ⟨G, by rw [RocksStorage.write_beside _ hbeside]; exact hG⟩) (Finset.Subset.refl _)
      exact ⟨Q₀, Q', hb⟩
  | write op =>
    cases hstep
    exact write_shown h op
  | begin | commit | rollback =>
    cases hstep
    exact ⟨Q, Q', h⟩

/-- An operation in a load moves the generation if it was announced to, and leaves the moment if
not, unless it writes a batch with removals. -/
theorem loadStep_moment (h : Shown l Q Q') {op : Storage.Op} {reply : Storage.Reply}
    (hstep : Loader.loadStep config finished fx hash128 X l op = some (reply, l')) :
    (l.advances op = true → l.storage.generation < l'.storage.generation) ∧
      (l.advances op = false → l.writesRemovals fx hash128 X op = false → l'.storage.moment = l.storage.moment) := by
  have hfull : ∀ {rows}, l.handed fx hash128 X op = rows → l.writesRemovals fx hash128 X op = false →
      bulkBatchOps ≤ (l.batch rows).length → ∀ row ∈ l.state.pending, graphOrBeside row = true := by
    rintro rows rfl hw hlen
    simp only [writesRemovals, hlen, decide_true, Bool.true_and, List.any_eq_false] at hw
    intro row hrow
    simpa using hw row hrow
  cases op with
  | encode t =>
    refine ⟨fun hadv => (by cases hadv), fun _ hw => ?_⟩
    obtain ⟨res, he, heq⟩ := Option.map_eq_some_iff.1 hstep
    cases heq
    obtain ⟨l₁, hint, hbeside, heq | heq⟩ := encode_inv he
    · rw [heq]
      exact hint.moment
    · rw [heq, ← hint.moment]
      refine (commitOps_buffered l₁ _).moment (fun op hop => RocksStorage.beside_graphOrBeside (hbeside op hop)) (fun hlen => ?_)
      have hbatch : l₁.batch (l.handed fx hash128 X (.encode t)) = l.batch (l.handed fx hash128 X (.encode t)) := by
        simp only [batch, hint.pending]
      rw [hbatch] at hlen
      rw [hint.pending]
      exact hfull rfl hw hlen
  | write op =>
    cases hstep
    cases op with
    | insert q =>
      refine ⟨fun hadv => (by cases hadv), fun _ _ => ?_⟩
      simp only [write, insertEncoded]
    | remove q =>
      refine ⟨fun hadv => ?_, fun hadv _ => ?_⟩
      · have hgen := @removeEncoded_generation config finished l q
        simp only [advances] at hadv
        simp only [write]
        rw [hgen, hadv]
        exact Nat.lt_succ_self _
      · simp only [advances] at hadv
        simp only [write, removeEncoded, hadv, Bool.false_eq_true, if_false]
    | insertNamedGraph g =>
      refine ⟨fun hadv => (by cases hadv), fun _ hw => ?_⟩
      simp only [write, insertNamedGraph]
      split
      · rfl
      · rename_i hg
        have hhanded : l.handed fx hash128 X (.write (.insertNamedGraph g)) = [.putGraph g] := by simp [handed, hg]
        exact (commitOps_buffered l _).moment (by simp [graphOrBeside]) (hfull hhanded hw)
    | removeNamedGraph g =>
      simp only [advances, write, removeNamedGraph]
      cases hscan : l.storage.scan none none none (.named g) with
      | nil =>
        refine ⟨fun hadv => (by cases hadv), fun _ hw => ?_⟩
        simp only [List.foldl_nil]
        split
        · rename_i hg
          have hhanded : l.handed fx hash128 X (.write (.removeNamedGraph g)) = [.deleteGraph g] := by simp [handed, hg]
          exact (commitOps_buffered l _).moment (by simp [graphOrBeside]) (hfull hhanded hw)
        · rfl
      | cons q qs =>
        refine ⟨fun _ => ?_, fun hadv => (by cases hadv)⟩
        have hq : l.storage.containsEncoded q = true := by
          rw [h.overlaid.containsEncoded]
          exact ((h.overlaid.mem_scan none none none (.named g) q).1 (by rw [hscan]; exact List.mem_cons_self)).1
        have hfirst := @removeEncoded_generation config finished l q
        have hrest := @removeAll_generation config finished (l.removeEncoded config finished q).2 qs
        rw [hq, if_pos rfl] at hfirst
        rw [List.foldl_cons]
        split
        · have hlast := (@commitOps_buffered config finished
            (qs.foldl (fun l quad => (l.removeEncoded config finished quad).2) (l.removeEncoded config finished q).2)
            [.deleteGraph g]).generation
          simp only
          omega
        · simp only
          omega
  | begin | commit | rollback =>
    cases hstep
    exact ⟨fun hadv => (by cases hadv), fun _ _ => rfl⟩

end Load

/-! ## The end of a load -/

section
variable {Q : Finset EncodedQuad} {G : Finset TermId} {db : Db}

theorem holds_indexRows (h : Index.Holds db.index Q G) {q : EncodedQuad} (hg : ∀ g, q.graphName = some g → g ∈ G) :
    Index.Holds (db.write (indexRows q)).index (insert q Q) G := by
  obtain ⟨s, p, o, g⟩ := q
  cases g with
  | none => exact RocksStorage.holds_putRows h ⟨s, p, o, none⟩
  | some g =>
    have hmem : g ∈ G := hg g rfl
    constructor
    all_goals simp [indexRows, Db.write, Db.apply, QuadIndex.onQuads, h.dspo, h.dpos, h.dosp, h.spog, h.posg,
      h.ospg, h.gspo, h.gpos, h.gosp, h.graphs, hmem]
    all_goals first | tauto | exact h.named

theorem holds_flatMap_indexRows (h : Index.Holds db.index Q G) {quads : List EncodedQuad}
    (hg : ∀ q ∈ quads, ∀ g, q.graphName = some g → g ∈ G) :
    Index.Holds (db.write (quads.flatMap indexRows)).index (Q ∪ quads.toFinset) G := by
  induction quads generalizing db Q with
  | nil => simpa [Db.write] using h
  | cons q quads ih =>
    rw [List.flatMap_cons, RocksStorage.write_append, List.toFinset_cons, Finset.union_insert, ← Finset.insert_union]
    exact ih (holds_indexRows h (hg q List.mem_cons_self)) (fun x hx => hg x (List.mem_cons_of_mem _ hx))

theorem holds_graphs (h : Index.Holds db.index Q G) (graphs : List TermId) :
    Index.Holds { db.index with graphs := graphs.foldl SortedSet.insert db.index.graphs } Q (G ∪ graphs.toFinset) where
  dspo := h.dspo
  dpos := h.dpos
  dosp := h.dosp
  spog := h.spog
  posg := h.posg
  ospg := h.ospg
  gspo := h.gspo
  gpos := h.gpos
  gosp := h.gosp
  graphs g := by
    have hfold : ∀ (l : List TermId) (s : SortedSet TermId), g ∈ l.foldl SortedSet.insert s ↔ g ∈ s ∨ g ∈ l := by
      intro l
      induction l with
      | nil => simp
      | cons g' l ih =>
        intro s
        rw [List.foldl_cons, ih, SortedSet.mem_insert, List.mem_cons]
        tauto
    rw [hfold, h.graphs, Finset.mem_union, List.mem_toFinset]
  named q hq g hg := Finset.mem_union_left _ (h.named q hq g hg)

/-- The files of the orders do not look at the catalogue. -/
theorem write_indexRows_graphs (db : Db) (graphs : SortedSet TermId) (quads : List EncodedQuad) :
    (Db.write { db with index := { db.index with graphs } } (quads.flatMap indexRows)).index =
      { (db.write (quads.flatMap indexRows)).index with graphs } := by
  induction quads generalizing db with
  | nil => rfl
  | cons q quads ih =>
    simp only [List.flatMap_cons, RocksStorage.write_append]
    obtain ⟨s, p, o, g⟩ := q
    cases g with
    | none => exact ih (db.write (indexRows ⟨s, p, o, none⟩))
    | some g => exact ih (db.write (indexRows ⟨s, p, o, some g⟩))

theorem write_indexRows_catalogue (db : Db) (quads : List EncodedQuad) :
    (db.write (quads.flatMap indexRows)).index.graphs = db.index.graphs := by
  induction quads generalizing db with
  | nil => rfl
  | cons q quads ih =>
    rw [List.flatMap_cons, RocksStorage.write_append, ih]
    obtain ⟨s, p, o, g⟩ := q
    cases g <;> rfl

theorem holds_ingestQuads (h : Index.Holds db.index Q G) {quads : List EncodedQuad} {graphs : SortedSet TermId}
    (hg : ∀ q ∈ quads, ∀ g, q.graphName = some g → g ∈ graphs) :
    Index.Holds (db.ingestQuads quads graphs).index (Q ∪ quads.toFinset) (G ∪ graphs.toList.toFinset) := by
  have hgraphs := holds_graphs h graphs.toList
  have hnamed : ∀ q ∈ quads, ∀ g, q.graphName = some g → g ∈ G ∪ graphs.toList.toFinset := fun q hq g hg' =>
    Finset.mem_union_right _ (List.mem_toFinset.2 (hg q hq g hg'))
  have hfiles := @holds_flatMap_indexRows Q (G ∪ graphs.toList.toFinset)
    { db with index := { db.index with graphs := graphs.toList.foldl SortedSet.insert db.index.graphs } } hgraphs quads hnamed
  rw [write_indexRows_graphs] at hfiles
  unfold Db.ingestQuads
  simp only [write_indexRows_catalogue]
  exact hfiles

end

namespace RocksStorage

variable {r : RocksStorage} {Q Q' : Finset EncodedQuad}

theorem recount_index (r : RocksStorage) : r.recount.db.index = r.db.index := by
  unfold recount
  refine write_beside _ (fun op hop => ?_)
  simp only [List.mem_append, List.mem_map, List.mem_cons, List.not_mem_nil, or_false] at hop
  rcases hop with (⟨p, -, rfl⟩ | ⟨p, -, rfl⟩) | rfl | rfl <;> rfl

theorem recount_contains (r : RocksStorage) : r.recount.containsEncoded = r.containsEncoded :=
  @contains_congr r r.recount rfl (by rw [recount_index]) (by rw [recount_index])

/-- Counting again changes nothing that is shown or landed. -/
theorem recount_overlaid (h : Overlaid r Q Q') : Overlaid r.recount Q Q' ∧ (Lands r Q' → Lands r.recount Q') := by
  refine ⟨⟨by rw [recount_index]; exact h.db, h.flat, h.quads⟩, fun ⟨G, hG⟩ => ⟨G, ?_⟩⟩
  have happlied : r.recount.applied.index = r.applied.index := by
    unfold applied
    rw [show r.recount.scope = r.scope from rfl]
    cases r.scope with
    | none => exact recount_index r
    | some s => exact Load.write_index_congr (recount_index r) s.pending
  rw [happlied]
  exact hG

theorem recount_rollback_moment (r : RocksStorage) (h : r.scope.isSome = true) : r.recount.rollback.moment = r.rollback.moment := by
  obtain ⟨s, hs⟩ := Option.isSome_iff_exists.1 h
  unfold moment
  have hgen : r.recount.rollback.generation = r.rollback.generation := by
    simp only [rollback, hs, show r.recount.scope = r.scope from rfl]
  have hdb : r.recount.rollback.db.index = r.rollback.db.index := by
    simp only [rollback, hs, show r.recount.scope = r.scope from rfl]
    exact recount_index r
  have hscope : r.recount.rollback.scope = r.rollback.scope := by
    simp only [rollback, hs, show r.recount.scope = r.scope from rfl]
  rw [hgen, @contains_congr r.rollback r.recount.rollback (by rw [hscope]) (by rw [hdb]) (by rw [hdb])]

end RocksStorage

/-! ## Runs -/

namespace Loader

variable {config : Config} {finished : Nat → Bool} {fx : StoredTerm → UInt64} {hash128 : StoredTerm → Hash}
  {X : Inline.Datatypes} {l l' : Loader}

def moment (l : Loader) : Nat × (EncodedQuad → Bool) := l.storage.moment

/-- Whether a call moves the generation. The end of a load always does. -/
def advances (l : Loader) : Storage.Call → Bool
  | .op op =>
    match l.bulk with
    | none => l.storage.advances op
    | some state => Load.advances ⟨l.storage, state⟩ op
  | .beginBulkLoad => false
  | .endBulkLoad => true
  | .flush => l.bulk.isSome

/-- What is noted of a run: the highest generation, and whether the open scope refused the write
of a quad. -/
structure Watch where
  peak : Nat
  refused : Bool

def Watch.after (w : Watch) (l : Loader) (c : Storage.Call) (l' : Loader) : Watch where
  peak := max w.peak l'.storage.generation
  refused :=
    match c with
    | .op .commit | .op .rollback => false
    | .op op => w.refused || (l.bulk.isNone && l.storage.refuses op)
    | _ => w.refused

variable (fx hash128 X) in
/-- The generation is moved from its highest value so far only, no scope is committed that
refused the write of a quad, and in a load no call that does not move the generation fills a
batch with removals in it. -/
def Trusted (w : Watch) (l : Loader) (c : Storage.Call) : Prop :=
  (l.advances c = true → l.storage.generation = w.peak) ∧
  (c = .op .commit → w.refused = false) ∧
  ∀ state op, l.bulk = some state → c = .op op → l.advances c = false →
    Load.writesRemovals fx hash128 X ⟨l.storage, state⟩ op = false

/-- What the storage shows, in a load and outside one. -/
def Shown (w : Watch) (l : Loader) : Prop :=
  match l.bulk with
  | none => ∃ Q Q', Overlaid l.storage Q Q' ∧ (w.refused = false → Lands l.storage Q')
  | some state => ∃ Q Q', Load.Shown ⟨l.storage, state⟩ Q Q'

structure Tracked (H : List (Nat × (EncodedQuad → Bool))) (w : Watch) (l : Loader) : Prop where
  track : Track H w.peak l.moment
  shown : Shown w l
  begun : l.storage.scope.isSome = true → l.storage.rollback.moment ∈ H

variable {H : List (Nat × (EncodedQuad → Bool))} {w : Watch} {c : Storage.Call}

theorem Tracked.again (h : Tracked H w l) (hm : l'.moment ∈ H) (hshown : Shown (w.after l c l') l')
    (hbegun : l'.storage.scope.isSome = true → l'.storage.rollback.moment ∈ H) :
    Tracked (l'.moment :: H) (w.after l c l') l' :=
  ⟨h.track.again hm, hshown, fun hs => List.mem_cons_of_mem _ (hbegun hs)⟩

theorem Tracked.fresh (h : Tracked H w l) (hm : w.peak < l'.storage.generation) (hshown : Shown (w.after l c l') l')
    (hbegun : l'.storage.scope.isSome = true → l'.storage.rollback.moment ∈ H) :
    Tracked (l'.moment :: H) (w.after l c l') l' :=
  ⟨h.track.fresh hm, hshown, fun hs => List.mem_cons_of_mem _ (hbegun hs)⟩

/-- What a load leaves at its end. -/
theorem finishBulk_shown {state : BulkState} (hbulk : l.bulk = some state) {Q Q' : Finset EncodedQuad}
    (h : Load.Shown ⟨l.storage, state⟩ Q Q') :
    (l.finishBulk finished).bulk = none ∧ (l.finishBulk finished).storage.scope = none ∧
      (l.finishBulk finished).storage.generation = l.storage.generation + 1 ∧
      ∃ Q₁, Overlaid (l.finishBulk finished).storage Q₁ Q₁ ∧ Lands (l.finishBulk finished).storage Q₁ := by
  have hset := @Load.settleDictionary_settled finished ⟨l.storage, state⟩ true
  unfold finishBulk
  simp only [hbulk]
  generalize Load.settleDictionary finished ⟨l.storage, state⟩ true = load at hset
  have hscope : load.storage.scope = none := hset.scope.trans h.scope
  -- the batch first, then what was held back
  have hdb : ∃ Q₁ G₁, Index.Holds ((load.storage.db.ingest load.state.dict).write load.state.pending).index Q₁ G₁ := by
    obtain ⟨G, hG⟩ := h.pending
    refine ⟨Q', G, ?_⟩
    rw [hset.pending, @Load.write_index_congr l.storage.db (load.storage.db.ingest load.state.dict) hset.index]
    exact hG
  obtain ⟨Q₁, G₁, hfinal⟩ : ∃ Q₁ G₁, Index.Holds
      (if (load.state.spilled ++ load.state.quads).isEmpty then (load.storage.db.ingest load.state.dict).write load.state.pending
        else ((load.storage.db.ingest load.state.dict).write load.state.pending).ingestQuads
          (load.state.spilled ++ load.state.quads) load.state.graphs).index Q₁ G₁ := by
    split
    · exact hdb
    · obtain ⟨Q₁, G₁, hG⟩ := hdb
      refine ⟨_, _, holds_ingestQuads hG ?_⟩
      rw [hset.spilled, hset.quads, hset.graphs]
      exact h.graphs
  generalize (if (load.state.spilled ++ load.state.quads).isEmpty then (load.storage.db.ingest load.state.dict).write load.state.pending
    else ((load.storage.db.ingest load.state.dict).write load.state.pending).ingestQuads
      (load.state.spilled ++ load.state.quads) load.state.graphs) = db at hfinal
  have hover : Overlaid { load.storage with db } Q₁ Q₁ :=
    ⟨⟨G₁, hfinal⟩, fun _ => rfl, fun s hs => by simp only [hscope] at hs; cases hs⟩
  obtain ⟨hover', hlands⟩ := RocksStorage.recount_overlaid hover
  refine ⟨trivial, hscope, ?_, Q₁, hover', hlands (hover.lands hscope)⟩
  simp only [RocksStorage.recount, hset.generation]

/-- An operation outside a load. -/
theorem Tracked.outside (h : Tracked H w l) (hbulk : l.bulk = none) {op : Storage.Op} {reply : Storage.Reply} {r' : RocksStorage}
    (hc : Trusted fx hash128 X w l (.op op)) (hstep : l.storage.step hash128 X op = some (reply, r')) :
    Tracked (moment ⟨r', none⟩ :: H) (w.after l (.op op) ⟨r', none⟩) ⟨r', none⟩ := by
  obtain ⟨htrack, hshown, hbegun⟩ := h
  have h : Tracked H w l := ⟨htrack, hshown, hbegun⟩
  simp only [Shown, hbulk] at hshown
  obtain ⟨Q, Q', hover, hlands⟩ := hshown
  cases op with
  | encode t =>
    obtain ⟨out, he, heq⟩ := Option.map_eq_some_iff.1 hstep
    cases heq
    obtain ⟨⟨Q₀, Q₁, hover', hlands'⟩, hclosed⟩ := RocksStorage.encode_shifts hover he
    refine h.again (by rw [moment, RocksStorage.encode_moment he]; exact htrack.now) ⟨Q₀, Q₁, hover', fun hr => ?_⟩ (fun hs => ?_)
    · have hr : w.refused = false := by simpa [Watch.after, RocksStorage.refuses] using hr
      exact hlands' (hlands hr) rfl
    · cases hscope : l.storage.scope with
      | none => simp only [hclosed hscope] at hs; cases hs
      | some s =>
        have hopen : l.storage.scope.isSome = true := by rw [hscope]; rfl
        rw [(RocksStorage.encode_keeps he).moment hopen]
        exact hbegun hopen
  | write op =>
    cases hstep
    obtain ⟨Q₀, Q₁, hover', hlands'⟩ := RocksStorage.write_shifts hover op
    obtain ⟨hup, hquiet⟩ := RocksStorage.write_moment hover op
    have hshown' : Shown (w.after l (.op (.write op)) ⟨(l.storage.write op).2, none⟩) ⟨(l.storage.write op).2, none⟩ := by
      refine ⟨Q₀, Q₁, hover', fun hr => ?_⟩
      obtain ⟨hr₁, hr₂⟩ : w.refused = false ∧ l.storage.refuses (.write op) = false := by
        simpa [Watch.after, hbulk] using hr
      exact hlands' (hlands hr₁) (by rw [hr₂]; rfl)
    have hbegun' : (l.storage.write op).2.scope.isSome = true → (l.storage.write op).2.rollback.moment ∈ H := by
      intro hs
      cases hscope : l.storage.scope with
      | none => rw [RocksStorage.write_closed hscope op] at hs; cases hs
      | some s =>
        have hopen : l.storage.scope.isSome = true := by rw [hscope]; rfl
        rw [(RocksStorage.write_keeps l.storage op).moment hopen]
        exact hbegun hopen
    have hadvances : l.advances (.op (.write op)) = l.storage.advances (.write op) := by simp only [advances, hbulk]
    cases hadv : l.storage.advances (.write op) with
    | true =>
      refine h.fresh ?_ hshown' hbegun'
      rw [← hc.1 (hadvances.trans hadv)]
      exact hup hadv
    | false => exact h.again (by rw [moment, hquiet hadv]; exact htrack.now) hshown' hbegun'
  | begin =>
    simp only [RocksStorage.step] at hstep
    split at hstep
    · rename_i r₁ hbegin
      cases hstep
      obtain ⟨hover', hlands'⟩ := RocksStorage.begin_overlaid hover hbegin
      refine h.again (by rw [moment, RocksStorage.begin_moment hbegin]; exact htrack.now) ⟨Q, Q, hover', fun _ => hlands'⟩ (fun _ => ?_)
      rw [(RocksStorage.begin_ok hbegin).2.2.1]
      exact htrack.now
    · cases hstep
      refine h.again htrack.now ⟨Q, Q', hover, fun hr => hlands ?_⟩ hbegun
      simpa [Watch.after, RocksStorage.refuses] using hr
  | commit =>
    simp only [RocksStorage.step] at hstep
    split at hstep
    · rename_i r₁ hcommit
      cases hstep
      obtain ⟨hover', hclosed, hmoment⟩ := RocksStorage.commit_overlaid hover (hlands (hc.2.1 rfl)) hcommit
      exact h.again (by rw [moment, hmoment]; exact htrack.now) ⟨Q', Q', hover', fun _ => hover'.lands hclosed⟩
        (fun hs => by simp only [hclosed] at hs; cases hs)
    · cases hstep
      exact h.again htrack.now ⟨Q, Q', hover, fun _ => hlands (hc.2.1 rfl)⟩ hbegun
  | rollback =>
    cases hstep
    cases hscope : l.storage.scope with
    | none =>
      have hback : l.storage.rollback = l.storage := by simp only [RocksStorage.rollback, hscope]
      rw [hback]
      exact h.again htrack.now ⟨Q, Q', hover, fun _ => hover.lands hscope⟩ hbegun
    | some s =>
      have hopen : l.storage.scope.isSome = true := by rw [hscope]; rfl
      obtain ⟨hover', hclosed⟩ := RocksStorage.rollback_overlaid hover hopen
      exact h.again (hbegun hopen) ⟨Q, Q, hover', fun _ => hover'.lands hclosed⟩
        (fun hs => by simp only [hclosed] at hs; cases hs)

/-- Nothing of a load is in the storage when it begins. -/
theorem startBulk_shown (h : Shown w l) (hs : l.storage.scope = none) : Shown w (l.startBulk config) := by
  have hdb : ∃ Q G, Index.Holds l.storage.db.index Q G := by
    unfold Shown at h
    split at h
    · obtain ⟨Q, Q', hover, -⟩ := h
      exact ⟨Q, hover.db⟩
    · obtain ⟨Q, Q', hshown⟩ := h
      exact ⟨Q, hshown.db⟩
  obtain ⟨Q, G, hG⟩ := hdb
  exact ⟨Q, Q, hs, ⟨G, hG⟩, ⟨G, hG⟩, Finset.Subset.refl _, by simp [startBulk]⟩

/-- The end of a load. -/
theorem Tracked.finish (h : Tracked H w l) (hc : l.storage.generation = w.peak)
    (hrefused : (w.after l c (l.finishBulk finished)).refused = w.refused) :
    Tracked (moment (l.finishBulk finished) :: H) (w.after l c (l.finishBulk finished)) (l.finishBulk finished) := by
  have hshown := h.shown
  unfold Shown at hshown
  split at hshown
  · rename_i hbulk
    obtain ⟨Q, Q', hover, hlands⟩ := hshown
    obtain ⟨hover', hlands'⟩ := RocksStorage.recount_overlaid hover
    have heq : l.finishBulk finished = { l with storage := l.storage.recount } := by simp only [finishBulk, hbulk]
    rw [heq] at hrefused ⊢
    refine h.fresh ?_ ?_ (fun hs => ?_)
    · rw [← hc]
      exact Nat.lt_succ_self _
    · unfold Shown
      simp only [hbulk]
      exact ⟨Q, Q', hover', fun hr => hlands' (hlands (hrefused ▸ hr))⟩
    · have hopen : l.storage.scope.isSome = true := hs
      simp only
      rw [RocksStorage.recount_rollback_moment _ hopen]
      exact h.begun hopen
  · rename_i state hbulk
    obtain ⟨Q, Q', hload⟩ := hshown
    obtain ⟨hnone, hscope, hgen, Q₁, hover, hlands⟩ := @finishBulk_shown finished l state hbulk Q Q' hload
    refine h.fresh ?_ ?_ (fun hs => by rw [hscope] at hs; cases hs)
    · rw [hgen, hc]
      exact Nat.lt_succ_self _
    · unfold Shown
      rw [hnone]
      exact ⟨Q₁, Q₁, hover, fun _ => hlands⟩

theorem Tracked.step (h : Tracked H w l) {reply : Storage.Reply} (hc : Trusted fx hash128 X w l c)
    (hstep : l.step config finished fx hash128 X c = some (reply, l')) : Tracked (l'.moment :: H) (w.after l c l') l' := by
  cases c with
  | op op =>
    unfold Loader.step at hstep
    simp only at hstep
    split at hstep
    · rename_i hbulk
      obtain ⟨⟨rep, r'⟩, hr, heq⟩ := Option.map_eq_some_iff.1 hstep
      cases heq
      rw [hbulk]
      exact h.outside hbulk hc hr
    · rename_i state hbulk
      obtain ⟨⟨rep, load⟩, hr, heq⟩ := Option.map_eq_some_iff.1 hstep
      cases heq
      have hshown := h.shown
      unfold Shown at hshown
      simp only [hbulk] at hshown
      obtain ⟨Q, Q', hload⟩ := hshown
      obtain ⟨Q₀, Q₁, hload'⟩ := Load.loadStep_shown hload hr
      obtain ⟨hup, hquiet⟩ := Load.loadStep_moment hload hr
      have hclosed : load.storage.scope.isSome = true → load.storage.rollback.moment ∈ H := by
        intro hs
        rw [hload'.scope] at hs
        cases hs
      have hadvances : l.advances (.op op) = Load.advances ⟨l.storage, state⟩ op := by simp only [advances, hbulk]
      cases hadv : Load.advances ⟨l.storage, state⟩ op with
      | true =>
        refine h.fresh ?_ ⟨Q₀, Q₁, hload'⟩ hclosed
        rw [← hc.1 (hadvances.trans hadv)]
        exact hup hadv
      | false =>
        refine h.again ?_ ⟨Q₀, Q₁, hload'⟩ hclosed
        have hsame : load.storage.moment = l.storage.moment := hquiet hadv (hc.2.2 state op hbulk rfl (hadvances.trans hadv))
        rw [moment, hsame]
        exact h.track.now
  | beginBulkLoad =>
    simp only [Loader.step] at hstep
    split_ifs at hstep with hs
    · cases hstep
      exact h.again h.track.now h.shown h.begun
    · cases hstep
      have hnone : l.storage.scope = none := Option.not_isSome_iff_eq_none.1 hs
      exact h.again h.track.now (startBulk_shown h.shown hnone) (fun hopen => absurd hopen hs)
  | endBulkLoad =>
    cases hstep
    exact h.finish (hc.1 rfl) rfl
  | flush =>
    cases hbulk : l.bulk with
    | none =>
      simp only [Loader.step, hbulk] at hstep
      cases hstep
      exact h.again h.track.now h.shown h.begun
    | some state =>
      simp only [Loader.step, hbulk] at hstep
      cases hstep
      exact h.finish (hc.1 (by simp [advances, hbulk])) rfl

theorem new_tracked : Tracked [new.moment] ⟨0, false⟩ new where
  track := .single _
  shown := ⟨∅, ∅, ⟨⟨∅, Index.holds_new⟩, fun _ => rfl, fun _ h => by cases h⟩, fun _ => ⟨∅, Index.holds_new⟩⟩
  begun h := by cases h

end Loader

/-- On either backend, in a run of any calls, loads and scopes among them, that moves the
generation only from its highest value so far, drops no graph with quads in memory, and on disk
commits no scope that refused the write of a quad and writes no batch of removals by a call
that does not move the generation: two moments with one generation hold the same quads. -/
theorem generation_stamps (X : Inline.Datatypes) (hash128 : StoredTerm → Hash) (fx : StoredTerm → UInt64) (config : Config)
    (finished : Nat → Bool) (calls : List Storage.Call) :
    (Watched (MemoryStorage.call X) MemoryStorage.Trusted MemoryStorage.peakAfter 0 .new calls →
      ∀ m₁ ∈ visited (MemoryStorage.call X) .new calls, ∀ m₂ ∈ visited (MemoryStorage.call X) .new calls,
        m₁.generation = m₂.generation → m₁.containsEncoded = m₂.containsEncoded) ∧
    (Watched (Loader.step config finished fx hash128 X) (Loader.Trusted fx hash128 X) Loader.Watch.after ⟨0, false⟩ .new calls →
      ∀ l₁ ∈ visited (Loader.step config finished fx hash128 X) .new calls,
        ∀ l₂ ∈ visited (Loader.step config finished fx hash128 X) .new calls,
          l₁.storage.generation = l₂.storage.generation → l₁.storage.containsEncoded = l₂.storage.containsEncoded) := by
  refine ⟨fun hw m₁ h₁ m₂ h₂ hgen => ?_, fun hw l₁ h₁ l₂ h₂ hgen => ?_⟩
  · obtain ⟨H, peak, m, htracked, -, hvisited⟩ := hw.run (fun _ _ _ _ _ _ h hc hstep => h.call hc hstep)
      (fun _ _ _ h => h.track.now) MemoryStorage.new_tracked
    refine htracked.track.stamped _ _ _ (hvisited m₁ h₁) ?_
    rw [hgen]
    exact hvisited m₂ h₂
  · obtain ⟨H, w, l, htracked, -, hvisited⟩ := hw.run (fun _ _ _ _ _ _ h hc hstep => h.step hc hstep)
      (fun _ _ _ h => h.track.now) Loader.new_tracked
    refine htracked.track.stamped _ _ _ (hvisited l₁ h₁) ?_
    rw [hgen]
    exact hvisited l₂ h₂

/-- A load that takes a quad away, and a scope after it. -/
theorem generation_stamps_load :
    (∀ m₁ ∈ visited (MemoryStorage.call Dictionary.bare) .new
        [.op (.write (.insert ⟨0, 1, 2, none⟩)), .beginBulkLoad, .op (.write (.remove ⟨0, 1, 2, none⟩)), .endBulkLoad, .op .begin],
      ∀ m₂ ∈ visited (MemoryStorage.call Dictionary.bare) .new
        [.op (.write (.insert ⟨0, 1, 2, none⟩)), .beginBulkLoad, .op (.write (.remove ⟨0, 1, 2, none⟩)), .endBulkLoad, .op .begin],
      m₁.generation = m₂.generation → m₁.containsEncoded = m₂.containsEncoded) ∧
    ∀ l₁ ∈ visited (Loader.step ⟨1, 1, 0⟩ (fun _ => true) (fun _ => 0) (fun _ => 0) Dictionary.bare) .new
        [.op (.write (.insert ⟨0, 1, 2, none⟩)), .beginBulkLoad, .op (.write (.remove ⟨0, 1, 2, none⟩)), .endBulkLoad, .op .begin],
      ∀ l₂ ∈ visited (Loader.step ⟨1, 1, 0⟩ (fun _ => true) (fun _ => 0) (fun _ => 0) Dictionary.bare) .new
        [.op (.write (.insert ⟨0, 1, 2, none⟩)), .beginBulkLoad, .op (.write (.remove ⟨0, 1, 2, none⟩)), .endBulkLoad, .op .begin],
      l₁.storage.generation = l₂.storage.generation → l₁.storage.containsEncoded = l₂.storage.containsEncoded := by
  obtain ⟨hmemory, hdisk⟩ := generation_stamps Dictionary.bare (fun _ => 0) (fun _ => 0) ⟨1, 1, 0⟩ (fun _ => true)
    [.op (.write (.insert ⟨0, 1, 2, none⟩)), .beginBulkLoad, .op (.write (.remove ⟨0, 1, 2, none⟩)), .endBulkLoad, .op .begin]
  refine ⟨hmemory ?_, hdisk ?_⟩
  · refine ⟨⟨fun _ => rfl, fun g hg => by cases hg⟩, fun _ _ hs => ?_⟩
    cases hs
    refine ⟨⟨fun _ => rfl, fun g hg => by cases hg⟩, fun _ _ hs => ?_⟩
    cases hs
    refine ⟨⟨fun _ => rfl, fun g hg => by cases hg⟩, fun _ _ hs => ?_⟩
    cases hs
    refine ⟨⟨fun _ => rfl, fun g hg => by cases hg⟩, fun _ _ hs => ?_⟩
    cases hs
    refine ⟨⟨fun _ => rfl, fun g hg => by cases hg⟩, fun _ _ hs => ?_⟩
    cases hs
    trivial
  · refine ⟨⟨fun _ => rfl, fun hc => (by cases hc), fun st op hb => (by cases hb)⟩, fun _ _ hs => ?_⟩
    cases hs
    refine ⟨⟨fun _ => rfl, fun hc => (by cases hc), fun st op hb => (by cases hb)⟩, fun _ _ hs => ?_⟩
    cases hs
    refine ⟨⟨fun _ => rfl, fun hc => (by cases hc), fun st op hb hop hadv => ?_⟩, fun _ _ hs => ?_⟩
    · cases hop
      cases hadv
    cases hs
    refine ⟨⟨fun _ => rfl, fun hc => (by cases hc), fun st op _ hop => (by cases hop)⟩, fun _ _ hs => ?_⟩
    cases hs
    refine ⟨⟨fun hadv => (by cases hadv), fun hc => (by cases hc), fun st op hb => (by cases hb)⟩, fun _ _ hs => ?_⟩
    cases hs
    trivial

/-- After a rollback a value is used again, in memory and on disk; and in memory a graph goes with
its quads at one value. -/
theorem generation_reused :
    (∃ m₁ ∈ visited (MemoryStorage.call Dictionary.bare) .new
        [.op .begin, .op (.write (.insert ⟨0, 1, 2, none⟩)), .op .rollback, .op (.write (.insert ⟨0, 1, 3, none⟩))],
      ∃ m₂ ∈ visited (MemoryStorage.call Dictionary.bare) .new
        [.op .begin, .op (.write (.insert ⟨0, 1, 2, none⟩)), .op .rollback, .op (.write (.insert ⟨0, 1, 3, none⟩))],
      m₁.generation = m₂.generation ∧ m₁.containsEncoded ⟨0, 1, 2, none⟩ ≠ m₂.containsEncoded ⟨0, 1, 2, none⟩) ∧
    (∃ m₁ ∈ visited (MemoryStorage.call Dictionary.bare) .new
        [.op (.write (.insert ⟨0, 1, 2, some 3⟩)), .op (.write (.removeNamedGraph 3))],
      ∃ m₂ ∈ visited (MemoryStorage.call Dictionary.bare) .new
        [.op (.write (.insert ⟨0, 1, 2, some 3⟩)), .op (.write (.removeNamedGraph 3))],
      m₁.generation = m₂.generation ∧ m₁.containsEncoded ⟨0, 1, 2, some 3⟩ ≠ m₂.containsEncoded ⟨0, 1, 2, some 3⟩) ∧
    (∃ l₁ ∈ visited (Loader.step ⟨1, 1, 0⟩ (fun _ => true) (fun _ => 0) (fun _ => 0) Dictionary.bare) .new
        [.op .begin, .op (.write (.insert ⟨0, 1, 2, none⟩)), .op .rollback, .op (.write (.insert ⟨0, 1, 3, none⟩))],
      ∃ l₂ ∈ visited (Loader.step ⟨1, 1, 0⟩ (fun _ => true) (fun _ => 0) (fun _ => 0) Dictionary.bare) .new
        [.op .begin, .op (.write (.insert ⟨0, 1, 2, none⟩)), .op .rollback, .op (.write (.insert ⟨0, 1, 3, none⟩))],
      l₁.storage.generation = l₂.storage.generation ∧
        l₁.storage.containsEncoded ⟨0, 1, 2, none⟩ ≠ l₂.storage.containsEncoded ⟨0, 1, 2, none⟩) := by
  refine ⟨⟨_, .tail _ (.tail _ (.head _)), _, .tail _ (.tail _ (.tail _ (.tail _ (.head _)))), rfl, ?_⟩,
    ⟨_, .tail _ (.head _), _, .tail _ (.tail _ (.head _)), rfl, ?_⟩,
    ⟨_, .tail _ (.tail _ (.head _)), _, .tail _ (.tail _ (.tail _ (.tail _ (.head _)))), rfl, ?_⟩⟩
  · decide
  · decide
  · decide

end Holos
