import Holos.Store.Generation
/-!
# What the generation stamps on disk

Outside a load: a write moves the generation or leaves what the storage shows. What a scope
shows is what its commit lands, unless a write of a quad was refused in it: a refused write is
counted and its rows are in the batch, and the scope does not show it.
-/

namespace Holos.RocksStorage

open Lib Lib.Version

variable {hash128 : StoredTerm → Hash} {X : Inline.Datatypes} {r r' : RocksStorage} {Q Q' : Finset EncodedQuad}

def moment (r : RocksStorage) : Nat × (EncodedQuad → Bool) := (r.generation, r.containsEncoded)

/-- Whether an operation outside a load moves the generation. -/
def advances (r : RocksStorage) : Storage.Op → Bool
  | .write (.insert q) => !r.containsEncoded q
  | .write (.remove q) => r.containsEncoded q
  | .write (.removeNamedGraph g) => !(r.scan none none none (.named g)).isEmpty
  | _ => false

/-- Whether an operation outside a load is refused the write of a quad, for want of room in the
scope. -/
def refuses (r : RocksStorage) : Storage.Op → Bool
  | .write (.insert q) => !(r.insertEncoded q).1.isOk
  | .write (.remove q) => !(r.removeEncoded q).1.isOk
  | .write (.removeNamedGraph g) => !(r.removeEach (r.scan none none none (.named g))).1.isOk
  | _ => false

/-! ## What a commit lands -/

/-- With the buffered rows in it, the database holds these quads. -/
def Lands (r : RocksStorage) (Q : Finset EncodedQuad) : Prop := ∃ G, Index.Holds r.applied.index Q G

theorem Overlaid.lands (h : Overlaid r Q Q') (hs : r.scope = none) : Lands r Q' := by
  obtain ⟨G, hdb⟩ := h.db
  refine ⟨G, ?_⟩
  rw [← h.flat hs]
  simpa only [applied, hs] using hdb

theorem Lands.db (h : Lands r Q) (hs : r.scope = none) : ∃ G, Index.Holds r.db.index Q G := by
  obtain ⟨G, hG⟩ := h
  exact ⟨G, by simpa only [RocksStorage.applied, hs] using hG⟩

section
variable {ops : List Pending} {onQuads : Overlay EncodedQuad → Overlay EncodedQuad}
  {onGraphs : Overlay TermId → Overlay TermId} {Q₁ : Finset EncodedQuad}

/-- Rows that have landed show other quads. -/
theorem Overlaid.landed (h : Overlaid r Q Q') (hland : Landed r r' ops onQuads onGraphs)
    (hdb : r.scope = none → Lands r Q' → ∃ G, Index.Holds (r.db.write ops).index Q₁ G)
    (hquads : ∀ m : Overlay EncodedQuad, m.Shows Q Q' → (onQuads m).Shows Q Q₁) : ∃ Q₀, Overlaid r' Q₀ Q₁ := by
  cases hs : r.scope with
  | none =>
    obtain ⟨h₁, h₂⟩ := hland.none hs
    exact ⟨Q₁, by rw [h₂]; exact hdb hs (h.lands hs), fun _ => rfl, fun s hs' => by rw [h₁] at hs'; cases hs'⟩
  | some s =>
    obtain ⟨h₁, h₂⟩ := hland.some s hs
    refine ⟨Q, by rw [h₁]; exact h.db, fun hn => (by rw [h₂] at hn; cases hn), fun s' hs' => ?_⟩
    rw [h₂] at hs'
    cases hs'
    exact hquads _ (h.quads s hs)

/-- And they land what they show. -/
theorem Overlaid.landed_lands (h : Overlaid r Q Q') (hland : Landed r r' ops onQuads onGraphs)
    (hindex : ∀ db : Db, (∃ G, Index.Holds db.index Q' G) → ∃ G, Index.Holds (db.write ops).index Q₁ G)
    (hquads : ∀ m : Overlay EncodedQuad, m.Shows Q Q' → (onQuads m).Shows Q Q₁) :
    ∃ Q₀, Overlaid r' Q₀ Q₁ ∧ (Lands r Q' → Lands r' Q₁) := by
  obtain ⟨Q₀, hover⟩ := h.landed hland (fun hs hl => hindex _ (hl.db hs)) hquads
  refine ⟨Q₀, hover, fun hl => ?_⟩
  unfold Lands
  rw [hland.applied]
  exact hindex _ hl

/-- Rows that were refused change nothing that is shown. -/
theorem Overlaid.refused {e : StorageError} (h : Overlaid r Q Q') {r₁ : RocksStorage}
    (hcommit : r₁.commitOps ops = (.error e, r')) (hdb : r₁.db = r.db) (hscope : r₁.scope = r.scope) : ∃ Q₀, Overlaid r' Q₀ Q' := by
  obtain ⟨hland, -⟩ := commitOps_landed hcommit
  cases hs : r.scope with
  | none => simp [commitOps, hscope, hs] at hcommit
  | some s =>
    have hland : Landed r r' ops id id := ⟨fun hn => (by rw [hs] at hn; cases hn), fun s' hs' => by
      rw [← hdb]
      exact hland.some s' (hscope.trans hs')⟩
    exact h.landed hland (fun hn => by rw [hs] at hn; cases hn) (fun m hm => hm)

end

/-- What a write leaves shown, and that a commit would land it, if it would land what was shown
before and nothing was refused. -/
def Shifts (r : RocksStorage) (Q' : Finset EncodedQuad) (ok : Bool) (r' : RocksStorage) : Prop :=
  ∃ Q₀ Q₁, Overlaid r' Q₀ Q₁ ∧ (Lands r Q' → ok = true → Lands r' Q₁)

theorem Shifts.refl (h : Overlaid r Q Q') (ok : Bool) : Shifts r Q' ok r := ⟨Q, Q', h, fun hl _ => hl⟩

theorem insertEncoded_shifts (h : Overlaid r Q Q') (q : EncodedQuad) :
    Shifts r Q' (r.insertEncoded q).1.isOk (r.insertEncoded q).2 := by
  unfold insertEncoded
  by_cases hin : r.containsEncoded q = true
  · rw [if_pos hin]
    exact .refl h _
  · have hq : q ∉ Q' := fun hq => hin ((h.containsEncoded q).2 hq)
    rw [if_neg hin]
    have hindex : ∀ ops, (∀ op ∈ ops, beside op = true) → ∀ db : Db, (∃ G, Index.Holds db.index Q' G) →
        ∃ G, Index.Holds (db.write (putRows q ++ ops)).index (insert q Q') G := by
      rintro ops hops db ⟨G, hG⟩
      refine ⟨Index.record G q.graphName, ?_⟩
      rw [write_append, write_beside _ hops]
      exact holds_putRows hG q
    simp only
    split
    · -- refused: the rows are handed over and nothing is noted
      rename_i e r₂ hcommit
      obtain ⟨Q₀, hover⟩ := h.refused hcommit rfl rfl
      exact ⟨Q₀, Q', hover, fun _ hok => by cases hok⟩
    · rename_i r₂ hcommit
      obtain ⟨hland, -⟩ := commitOps_landed hcommit
      have hland : Landed r r₂ _ id id := ⟨hland.none, hland.some⟩
      have hshows : ∀ m : Overlay EncodedQuad, m.Shows Q Q' → (m.note q true false).Shows Q (insert q Q') := by
        intro m hm
        refine hm.note (fun hl => ?_) (by simp) (fun y hy => by simp [hy])
        have := hm.unknown q hl
        simp only [Bool.false_eq_true, false_iff]
        exact fun hb => hq (this.2 hb)
      cases q.graphName with
      | none =>
        obtain ⟨Q₀, hover, hlands⟩ := h.landed_lands (hland.noteQuad q true false) (hindex _ (by simp [beside])) hshows
        exact ⟨Q₀, _, hover, fun hl _ => hlands hl⟩
      | some g =>
        obtain ⟨Q₀, hover, hlands⟩ := h.landed_lands ((hland.noteQuad q true false).noteGraph g true)
          (hindex _ (by simp [beside])) hshows
        exact ⟨Q₀, _, hover, fun hl _ => hlands hl⟩

/-- Also what is left: all but the quad, if it was not refused. -/
theorem removeEncoded_shifts (h : Overlaid r Q Q') (q : EncodedQuad) :
    ∃ Q₀ Q₁, Overlaid (r.removeEncoded q).2 Q₀ Q₁ ∧ ((r.removeEncoded q).1.isOk = true → Q₁ = Q'.erase q) ∧
      (Lands r Q' → (r.removeEncoded q).1.isOk = true → Lands (r.removeEncoded q).2 Q₁) := by
  unfold removeEncoded
  by_cases hin : r.containsEncoded q = true
  · have hq : q ∈ Q' := (h.containsEncoded q).1 hin
    rw [if_pos hin]
    have hindex : ∀ ops, (∀ op ∈ ops, beside op = true) → ∀ db : Db, (∃ G, Index.Holds db.index Q' G) →
        ∃ G, Index.Holds (db.write (deleteRows q ++ ops)).index (Q'.erase q) G := by
      rintro ops hops db ⟨G, hG⟩
      refine ⟨G, ?_⟩
      rw [write_append, write_beside _ hops]
      exact holds_deleteRows hG q
    have hbeside : ∀ n m, ∀ op ∈ [Pending.putDefault .quads n, .putDefault .generation m] ++ statsRow r.predicateCounts q.predicate,
        beside op = true := by
      intro n m op hop
      rcases List.mem_append.1 hop with hop | hop
      · simp only [List.mem_cons, List.not_mem_nil, or_false] at hop
        rcases hop with rfl | rfl <;> rfl
      · exact (statsRow_off _ _ op hop).1
    simp only [List.append_assoc]
    split
    · rename_i e r₂ hcommit
      obtain ⟨Q₀, hover⟩ := h.refused hcommit rfl rfl
      exact ⟨Q₀, Q', hover, fun hok => (by cases hok), fun _ hok => by cases hok⟩
    · rename_i r₂ hcommit
      obtain ⟨hland, -⟩ := commitOps_landed hcommit
      have hland : Landed r r₂ _ id id := ⟨hland.none, hland.some⟩
      have hshows : ∀ m : Overlay EncodedQuad, m.Shows Q Q' → (m.note q false true).Shows Q (Q'.erase q) := by
        intro m hm
        refine hm.note (fun hl => ?_) (by simp) (fun y hy => by simp [hy])
        simp only [true_iff]
        exact (hm.unknown q hl).1 hq
      obtain ⟨Q₀, hover, hlands⟩ := h.landed_lands (hland.noteQuad q false true) (hindex _ (hbeside _ _)) hshows
      exact ⟨Q₀, _, hover, fun _ => rfl, fun hl _ => hlands hl⟩
  · have hq : q ∉ Q' := fun hq => hin ((h.containsEncoded q).2 hq)
    rw [if_neg hin]
    exact ⟨Q, Q', h, fun _ => (Finset.erase_eq_of_notMem hq).symm, fun hl _ => hl⟩

theorem insertNamedGraph_shifts (h : Overlaid r Q Q') (g : TermId) : Shifts r Q' true (r.insertNamedGraph g).2 := by
  unfold insertNamedGraph
  split
  · exact .refl h _
  · have hindex : ∀ db : Db, (∃ G, Index.Holds db.index Q' G) → ∃ G, Index.Holds (db.write [.putGraph g]).index Q' G := by
      rintro db ⟨G, hG⟩
      exact ⟨_, holds_putGraph hG g⟩
    have hshift : ∀ {onGraphs r₃}, Landed r r₃ [.putGraph g] id onGraphs → Shifts r Q' true r₃ := by
      intro onGraphs r₃ hland
      obtain ⟨Q₀, hover, hlands⟩ := h.landed_lands hland hindex (fun m hm => hm)
      exact ⟨Q₀, Q', hover, fun hl _ => hlands hl⟩
    split
    · rename_i e r₂ hcommit
      exact hshift (commitOps_landed hcommit).1
    · rename_i r₂ hcommit
      exact hshift ((commitOps_landed hcommit).1.noteGraph g true)

theorem removeEach_shifts (h : Overlaid r Q Q') (l : List EncodedQuad) :
    ∃ Q₀ Q₁, Overlaid (r.removeEach l).2 Q₀ Q₁ ∧ ((r.removeEach l).1.isOk = true → ∀ q, q ∈ Q₁ ↔ q ∈ Q' ∧ q ∉ l) ∧
      (Lands r Q' → (r.removeEach l).1.isOk = true → Lands (r.removeEach l).2 Q₁) := by
  induction l generalizing r Q Q' with
  | nil => exact ⟨Q, Q', h, fun _ q => by simp, fun hl _ => hl⟩
  | cons q l ih =>
    obtain ⟨Q₀, Q₁, hover, herase, hlands⟩ := removeEncoded_shifts h q
    simp only [removeEach]
    cases hr : r.removeEncoded q with
    | mk res r₂ =>
      rw [hr] at hover herase hlands
      cases res with
      | error e => exact ⟨Q₀, Q₁, hover, fun hok => (by cases hok), fun _ hok => by cases hok⟩
      | ok b =>
        obtain ⟨Q₂, Q₃, hover', hmem, hlands'⟩ := ih hover
        refine ⟨Q₂, Q₃, hover', fun hok x => ?_, fun hl hok => hlands' (hlands hl rfl) hok⟩
        rw [hmem hok, herase rfl, Finset.mem_erase, List.mem_cons]
        tauto

theorem removeNamedGraph_shifts (h : Overlaid r Q Q') (g : TermId) :
    Shifts r Q' (r.removeEach (r.scan none none none (.named g))).1.isOk (r.removeNamedGraph g).2 := by
  have hdoomed : ∀ q, q ∈ r.scan none none none (.named g) ↔ q ∈ Q' ∧ q.graphName = some g := by
    intro q
    rw [h.mem_scan]
    simp [Index.matchesTriple, Index.GraphFilter.admits]
  obtain ⟨Q₀, Q₁, hover, hmem, hlands⟩ := removeEach_shifts h (r.scan none none none (.named g))
  unfold removeNamedGraph
  simp only
  cases hr : r.removeEach (r.scan none none none (.named g)) with
  | mk res r₂ =>
    rw [hr] at hover hmem hlands
    cases res with
    | error e => exact ⟨Q₀, Q₁, hover, fun _ hok => by cases hok⟩
    | ok u =>
      -- nothing of the graph is left, so only its name goes
      have hindex : ∀ db : Db, (∃ G, Index.Holds db.index Q₁ G) → ∃ G, Index.Holds (db.write [.deleteGraph g]).index Q₁ G := by
        rintro db ⟨G, hG⟩
        refine ⟨_, holds_deleteGraph hG (fun q hq hg => ?_)⟩
        obtain ⟨hq, hout⟩ := (hmem rfl q).1 hq
        exact hout ((hdoomed q).2 ⟨hq, hg⟩)
      have hshift : ∀ {onGraphs r₃}, Landed r₂ r₃ [.deleteGraph g] id onGraphs → Shifts r Q' true r₃ := by
        intro onGraphs r₃ hland
        obtain ⟨Q₂, hover', hlands'⟩ := hover.landed_lands hland hindex (fun m hm => hm)
        exact ⟨Q₂, Q₁, hover', fun hl _ => hlands' (hlands hl rfl)⟩
      simp only
      split
      · split
        · rename_i e r₃ hcommit
          exact hshift (commitOps_landed hcommit).1
        · rename_i r₃ hcommit
          exact hshift ((commitOps_landed hcommit).1.noteGraph g false)
      · exact ⟨Q₀, Q₁, hover, hlands⟩

theorem write_shifts (h : Overlaid r Q Q') (op : Index.Op) : Shifts r Q' (!r.refuses (.write op)) (r.write op).2 := by
  cases op with
  | insert q => simpa [refuses, write] using insertEncoded_shifts h q
  | remove q =>
    obtain ⟨Q₀, Q₁, hover, -, hlands⟩ := removeEncoded_shifts h q
    exact ⟨Q₀, Q₁, hover, by simpa [refuses, write] using hlands⟩
  | insertNamedGraph g => exact insertNamedGraph_shifts h g
  | removeNamedGraph g => simpa [refuses, write] using removeNamedGraph_shifts h g

/-! ## Moments -/

/-- What is shown is looked up in the scope's quads and two of the orders. -/
theorem contains_congr (hscope : r'.scope.map (·.quads) = r.scope.map (·.quads)) (hdspo : r'.db.index.dspo = r.db.index.dspo)
    (hgspo : r'.db.index.gspo = r.db.index.gspo) : r'.containsEncoded = r.containsEncoded := by
  have hdb : r'.dbContains = r.dbContains := by
    funext q
    unfold dbContains
    rw [hdspo, hgspo]
  funext q
  unfold containsEncoded
  cases hs : r.scope with
  | none =>
    rw [hs, Option.map_none, Option.map_eq_none_iff] at hscope
    simp only [hscope, hdb]
  | some s =>
    rw [hs, Option.map_some, Option.map_eq_some_iff] at hscope
    obtain ⟨s', hs', hquads⟩ := hscope
    simp only [hs', hquads, hdb]

/-- Rows outside the orders of the quads. -/
def graphOrBeside : Pending → Bool
  | .putGraph _ | .deleteGraph _ => true
  | op => beside op

theorem write_graphOrBeside (db : Db) {ops : List Pending} (h : ∀ op ∈ ops, graphOrBeside op = true) :
    (db.write ops).index.dspo = db.index.dspo ∧ (db.write ops).index.gspo = db.index.gspo := by
  unfold Db.write
  induction ops generalizing db with
  | nil => exact ⟨rfl, rfl⟩
  | cons op ops ih =>
    obtain ⟨h₁, h₂⟩ := ih (db.apply op) (fun o ho => h o (List.mem_cons_of_mem _ ho))
    have hop := h op List.mem_cons_self
    rw [List.foldl_cons, h₁, h₂]
    cases op with
    | putTriple | deleteTriple | putQuad | deleteQuad => cases hop
    | _ => exact ⟨rfl, rfl⟩

theorem commitOps_moment (r : RocksStorage) {ops : List Pending} (h : ∀ op ∈ ops, graphOrBeside op = true) :
    (r.commitOps ops).2.moment = r.moment := by
  obtain ⟨hdspo, hgspo⟩ := write_graphOrBeside r.db h
  unfold moment commitOps
  cases hs : r.scope with
  | none =>
    simp only [Prod.mk.injEq, true_and]
    exact contains_congr (by simp [hs]) hdspo hgspo
  | some s =>
    simp only [Prod.mk.injEq, true_and]
    exact contains_congr (by simp [hs]) rfl rfl

theorem noteGraph_moment (r : RocksStorage) (g : TermId) (present : Bool) : (r.noteGraph g present).moment = r.moment := by
  unfold moment
  rw [@contains_congr r (r.noteGraph g present) ?_ rfl rfl]
  · rfl
  · simp [noteGraph]
    rfl

theorem Interned.moment (h : Interned r r') : r'.moment = r.moment := by
  unfold RocksStorage.moment
  rw [h.generation, @contains_congr r r' ?_ (by rw [h.db]) (by rw [h.db])]
  cases hs : r.scope with
  | none => rw [h.none hs]
  | some s =>
    obtain ⟨terms, strings, candidates, hs'⟩ := h.some s hs
    rw [hs']
    rfl

theorem beside_graphOrBeside {op : Pending} (h : beside op = true) : graphOrBeside op = true := by
  cases op <;> first | exact h | rfl

theorem encode_moment {t : Term} {out : Except StorageError TermId × RocksStorage} (h : r.encode hash128 X t = some out) :
    out.2.moment = r.moment := by
  obtain ⟨r₁, ops, hint, hbeside, heq | heq⟩ := encode_inv h
  · rw [heq]
    exact hint.moment
  · rw [heq, commitOps_moment r₁ (fun op hop => beside_graphOrBeside (hbeside op hop))]
    exact hint.moment

theorem commitOps_generation {ops : List Pending} {res : Except StorageError Unit} (h : r.commitOps ops = (res, r')) :
    r'.generation = r.generation :=
  (commitOps_landed h).2.2.2.1

theorem insertEncoded_generation {q : EncodedQuad} (h : r.containsEncoded q = false) :
    (r.insertEncoded q).2.generation = r.generation + 1 := by
  unfold insertEncoded
  rw [if_neg (by rw [h]; exact Bool.false_ne_true)]
  simp only
  split
  · rename_i e r₂ hcommit
    exact commitOps_generation hcommit
  · rename_i r₂ hcommit
    cases q.graphName with
    | none => exact commitOps_generation hcommit
    | some g => exact commitOps_generation hcommit

theorem removeEncoded_generation (r : RocksStorage) (q : EncodedQuad) :
    (r.removeEncoded q).2.generation = r.generation + if r.containsEncoded q then 1 else 0 := by
  unfold removeEncoded
  split
  · simp only
    split
    · rename_i e r₂ hcommit
      exact commitOps_generation hcommit
    · rename_i r₂ hcommit
      exact commitOps_generation hcommit
  · rfl

theorem removeEach_generation (r : RocksStorage) (l : List EncodedQuad) : r.generation ≤ (r.removeEach l).2.generation := by
  induction l generalizing r with
  | nil => exact le_rfl
  | cons q l ih =>
    have hq := removeEncoded_generation r q
    simp only [removeEach]
    split
    · rename_i e r₂ hremove
      rw [hremove] at hq
      simp only at hq ⊢
      omega
    · rename_i b r₂ hremove
      rw [hremove] at hq
      have := ih r₂
      simp only at hq
      omega

theorem removeNamedGraph_generation (r : RocksStorage) (g : TermId) :
    (r.removeNamedGraph g).2.generation = (r.removeEach (r.scan none none none (.named g))).2.generation := by
  unfold removeNamedGraph
  simp only
  split
  · rename_i e r₂ hr
    rw [hr]
  · rename_i r₂ hr
    rw [hr]
    split
    · split
      · rename_i e r₃ hcommit
        exact commitOps_generation hcommit
      · rename_i r₃ hcommit
        have hsame := commitOps_generation hcommit
        exact hsame
    · rfl

/-- A write moves the generation if it was announced to, and leaves the moment if not. -/
theorem write_moment (h : Overlaid r Q Q') (op : Index.Op) :
    (r.advances (.write op) = true → r.generation < (r.write op).2.generation) ∧
      (r.advances (.write op) = false → (r.write op).2.moment = r.moment) := by
  cases op with
  | insert q =>
    simp only [advances, write]
    refine ⟨fun hadv => ?_, fun hadv => ?_⟩
    · rw [insertEncoded_generation (by simpa using hadv)]
      exact Nat.lt_succ_self _
    · have hin : r.containsEncoded q = true := by simpa using hadv
      simp only [insertEncoded, hin, if_true]
  | remove q =>
    simp only [advances, write]
    refine ⟨fun hadv => ?_, fun hadv => ?_⟩
    · rw [removeEncoded_generation, hadv]
      exact Nat.lt_succ_self _
    · simp only [removeEncoded, hadv, Bool.false_eq_true, if_false]
  | insertNamedGraph g =>
    refine ⟨fun hadv => (by cases hadv), fun _ => ?_⟩
    simp only [write, insertNamedGraph]
    split
    · rfl
    · have hsame : (r.commitOps [.putGraph g]).2.moment = r.moment := commitOps_moment r (by simp [graphOrBeside])
      split
      · rename_i e r₂ hcommit
        rw [hcommit] at hsame
        exact hsame
      · rename_i r₂ hcommit
        rw [hcommit] at hsame
        rw [noteGraph_moment]
        exact hsame
  | removeNamedGraph g =>
    simp only [advances, write]
    cases hscan : r.scan none none none (.named g) with
    | nil =>
      refine ⟨fun hadv => (by cases hadv), fun _ => ?_⟩
      simp only [removeNamedGraph, hscan, removeEach]
      have hsame : (r.commitOps [.deleteGraph g]).2.moment = r.moment := commitOps_moment r (by simp [graphOrBeside])
      split
      · split
        · rename_i e r₂ hcommit
          rw [hcommit] at hsame
          exact hsame
        · rename_i r₂ hcommit
          rw [hcommit] at hsame
          rw [noteGraph_moment]
          exact hsame
      · rfl
    | cons q l =>
      refine ⟨fun _ => ?_, fun hadv => (by cases hadv)⟩
      -- the first quad of the scan is there, and its removal counts
      have hq : r.containsEncoded q = true := by
        rw [h.containsEncoded]
        exact ((h.mem_scan none none none (.named g) q).1 (by rw [hscan]; exact List.mem_cons_self)).1
      have hfirst := removeEncoded_generation r q
      rw [removeNamedGraph_generation, hscan]
      simp only [removeEach]
      rw [hq, if_pos rfl] at hfirst
      split
      · rename_i e r₂ hremove
        rw [hremove] at hfirst
        simp only at hfirst ⊢
        omega
      · rename_i b r₂ hremove
        rw [hremove] at hfirst
        have := removeEach_generation r₂ l
        simp only at hfirst
        omega

/-! ## Scopes -/

theorem commitOps_closed {ops : List Pending} {res : Except StorageError Unit} (h : r.commitOps ops = (res, r'))
    (hs : r.scope = none) : r'.scope = none :=
  ((commitOps_landed h).1.none hs).1

theorem removeEncoded_closed (hs : r.scope = none) (q : EncodedQuad) : (r.removeEncoded q).2.scope = none := by
  unfold removeEncoded
  split
  · simp only
    split
    · rename_i e r₂ hcommit
      exact commitOps_closed hcommit hs
    · rename_i r₂ hcommit
      simp only [noteQuad, commitOps_closed hcommit hs, Option.map_none]
  · exact hs

theorem removeEach_closed (hs : r.scope = none) (l : List EncodedQuad) : (r.removeEach l).2.scope = none := by
  induction l generalizing r with
  | nil => exact hs
  | cons q l ih =>
    have hq := removeEncoded_closed hs q
    simp only [removeEach]
    split
    · rename_i e r₂ hremove
      rw [hremove] at hq
      exact hq
    · rename_i b r₂ hremove
      rw [hremove] at hq
      exact ih hq

/-- A write opens no scope. -/
theorem write_closed (hs : r.scope = none) (op : Index.Op) : (r.write op).2.scope = none := by
  cases op with
  | insert q =>
    simp only [write, insertEncoded]
    split
    · exact hs
    · split
      · rename_i e r₂ hcommit
        exact commitOps_closed hcommit hs
      · rename_i r₂ hcommit
        have hclosed : r₂.scope = none := commitOps_closed hcommit hs
        cases q.graphName with
        | none => simp only [noteQuad, hclosed, Option.map_none]
        | some g => simp only [noteGraph, noteQuad, hclosed, Option.map_none]
  | remove q => exact removeEncoded_closed hs q
  | insertNamedGraph g =>
    simp only [write, insertNamedGraph]
    split
    · exact hs
    · split
      · rename_i e r₂ hcommit
        exact commitOps_closed hcommit hs
      · rename_i r₂ hcommit
        simp only [noteGraph, commitOps_closed hcommit hs, Option.map_none]
  | removeNamedGraph g =>
    have heach := removeEach_closed hs (r.scan none none none (.named g))
    simp only [write, removeNamedGraph]
    split
    · rename_i e r₂ hr
      rw [hr] at heach
      exact heach
    · rename_i r₂ hr
      rw [hr] at heach
      split
      · split
        · rename_i e r₃ hcommit
          exact commitOps_closed hcommit heach
        · rename_i r₃ hcommit
          simp only [noteGraph, commitOps_closed hcommit heach, Option.map_none]
      · exact heach

theorem encode_shifts (h : Overlaid r Q Q') {t : Term} {out : Except StorageError TermId × RocksStorage}
    (he : r.encode hash128 X t = some out) : Shifts r Q' true out.2 ∧ (r.scope = none → out.2.scope = none) := by
  obtain ⟨r₁, ops, hint, hbeside, hout⟩ := encode_inv he
  have hover : Overlaid r₁ Q Q' := by
    refine ⟨by rw [hint.db]; exact h.db, fun hn => ?_, fun s hs => ?_⟩
    · cases hs : r.scope with
      | none => exact h.flat hs
      | some s =>
        obtain ⟨terms, strings, candidates, hs'⟩ := hint.some s hs
        rw [hs'] at hn
        cases hn
    · cases hs' : r.scope with
      | none => rw [hint.none hs'] at hs; cases hs
      | some s₀ =>
        obtain ⟨terms, strings, candidates, hs₁⟩ := hint.some s₀ hs'
        rw [hs₁] at hs
        cases hs
        exact h.quads s₀ hs'
  have hlands : Lands r Q' → Lands r₁ Q' := fun ⟨G, hG⟩ => ⟨G, by rw [hint.applied]; exact hG⟩
  rcases hout with hout | hout
  · rw [hout]
    exact ⟨⟨Q, Q', hover, fun hl _ => hlands hl⟩, hint.none⟩
  · rw [hout]
    obtain ⟨Q₀, hover', hlands'⟩ := hover.landed_lands (commitOps_landed rfl).1
      (fun db ⟨G, hG⟩ => ⟨G, by rw [write_beside _ hbeside]; exact hG⟩) (fun m hm => hm)
    exact ⟨⟨Q₀, Q', hover', fun hl _ => hlands' (hlands hl)⟩, fun hs => commitOps_closed rfl (hint.none hs)⟩

theorem begin_moment (h : r.begin = .ok r') : r'.moment = r.moment := by
  unfold begin at h
  split_ifs at h with hs
  have hnone : r.scope = none := Option.not_isSome_iff_eq_none.1 hs
  cases h
  unfold moment
  simp only [Prod.mk.injEq, true_and]
  funext q
  simp only [containsEncoded, hnone, Overlay.contains, AList.lookup_empty]
  rfl

theorem begin_overlaid (h : Overlaid r Q Q') (hok : r.begin = .ok r') : Overlaid r' Q Q ∧ Lands r' Q := by
  unfold begin at hok
  split_ifs at hok with hs
  cases hok
  obtain ⟨G, hG⟩ := h.db
  exact ⟨⟨h.db, fun hn => (by cases hn), fun s hs' => by cases hs'; exact .empty Q⟩, G, hG⟩

/-- A commit lands what was shown. -/
theorem commit_overlaid (h : Overlaid r Q Q') (hl : Lands r Q') (hok : r.commit = .ok r') :
    Overlaid r' Q' Q' ∧ r'.scope = none ∧ r'.moment = r.moment := by
  unfold commit at hok
  split at hok
  · cases hok
  · rename_i s hs
    cases hok
    obtain ⟨G, hG⟩ := hl
    have hover : Overlaid { r with db := r.db.write s.pending, scope := none } Q' Q' :=
      ⟨⟨G, by simpa only [applied, hs] using hG⟩, fun _ => rfl, fun s' hs' => by cases hs'⟩
    refine ⟨hover, rfl, ?_⟩
    unfold moment
    simp only [Prod.mk.injEq, true_and]
    funext q
    exact eq_of_iff ((hover.containsEncoded q).trans (h.containsEncoded q).symm)

theorem rollback_overlaid (h : Overlaid r Q Q') (hs : r.scope.isSome = true) :
    Overlaid r.rollback Q Q ∧ r.rollback.scope = none := by
  obtain ⟨s, hs⟩ := Option.isSome_iff_exists.1 hs
  simp only [rollback, hs]
  exact ⟨⟨h.db, fun _ => rfl, fun s' hs' => by cases hs'⟩, trivial⟩

/-- What a scope would go back to is kept. -/
theorem Keeps.moment (h : Keeps r r') (hs : r.scope.isSome = true) : r'.rollback.moment = r.rollback.moment := by
  obtain ⟨-, -, heq⟩ := h hs
  rw [heq]
  rfl

end Holos.RocksStorage
