import Holos.Engine.Access
import Holos.Engine.WorldQuads
import Holos.Store.Memory
/-!
# What a session reads and writes

`Listed`: the quads of a graph that a view shows are those of its rows the policy allows, unless
the graph is refused as a whole.
-/

namespace Holos.Engine

open Lib Lib.Eff Security

/-- A failure of the store, however it was passed on. -/
def EngineError.ofStore : EngineError → Bool
  | .storage _ => true
  | .view (.storage _) => true
  | _ => false

variable {B : Backend} {Sim : B.State → Held → Prop} {Open : B.State → Contents × Ids → Prop} {ρ : Type}
variable {w : World B ρ} {h : Held}

/-! ## Reading a graph -/

/-- A stored row of a graph that a view shows. -/
structure Shows (p : CompiledPolicy) (h : Held) (name : GraphName) (e : EncodedQuad) : Prop where
  stored : e ∈ h.contents.quads
  graph : h.ids.graph name = some e.graphName
  admitted : ∀ g, e.graphName = some g → p.graphIsWhollyDenied (some g) = false
  allowed : p.decideQuad e Modes.read = .allow

/-- The quads of a graph that a view shows, in the order the store scans its rows. -/
structure Listed (B : Backend) (Sim : B.State → Held → Prop) (p : CompiledPolicy) (h : Held) (name : GraphName)
    (rows : List EncodedQuad) (qs : List Quad) : Prop where
  decoded : List.Forall₂ (fun e q => h.ids.quad q = some e) rows qs
  shown : ∀ e, e ∈ rows ↔ Shows p h name e
  nodup : rows.Nodup
  ordered : B.Ordered Sim → ∀ i, h.ids.graph name = some i →
    Index.KeySorted (QuadIndex.plan none none none (MemoryStorage.filterOf i)) rows

/-- Rows decode to the quads that have them. -/
theorem mem_decoded {rows : List EncodedQuad} {qs : List Quad} (hd : List.Forall₂ (fun e q => h.ids.quad q = some e) rows qs) {q : Quad} :
    q ∈ qs ↔ ∃ e ∈ rows, h.ids.quad q = some e := by
  induction hd with
  | nil => simp
  | @cons e q' rows qs he _ ih =>
    have hhead : q = q' ↔ h.ids.quad q = some e := ⟨fun heq => heq ▸ he, fun hq => Ids.quad_inj hq he⟩
    simp only [List.mem_cons, ih, hhead, or_and_right, exists_or, exists_eq_left]

namespace Listed

variable {p : CompiledPolicy} {name : GraphName} {rows : List EncodedQuad} {qs : List Quad}

theorem mem_iff (hl : Listed B Sim p h name rows qs) {q : Quad} : q ∈ qs ↔ ∃ e, h.ids.quad q = some e ∧ Shows p h name e := by
  rw [mem_decoded hl.decoded]
  constructor
  · rintro ⟨e, he, hq⟩
    exact ⟨e, hq, (hl.shown e).1 he⟩
  · rintro ⟨e, hq, hs⟩
    exact ⟨e, (hl.shown e).2 hs, hq⟩

theorem isEmpty_iff (hl : Listed B Sim p h name rows qs) : qs.isEmpty = true ↔ ∀ e, ¬ Shows p h name e := by
  rw [List.isEmpty_iff]
  constructor
  · rintro rfl e he
    have hmem := (hl.shown e).2 he
    rw [List.forall₂_nil_right_iff.1 hl.decoded] at hmem
    cases hmem
  · intro hno
    have hrows : rows = [] := List.eq_nil_iff_forall_not_mem.2 (fun e he => hno e ((hl.shown e).1 he))
    have hd := hl.decoded
    rw [hrows] at hd
    exact List.forall₂_nil_left_iff.1 hd

/-- The quads listed are in the graph. -/
theorem graphName_eq (hl : Listed B Sim p h name rows qs) {q : Quad} (hq : q ∈ qs) : q.graphName = name := by
  obtain ⟨e, he, hs⟩ := hl.mem_iff.1 hq
  exact Ids.graph_inj (Ids.quad_eq_some.1 he).2.2.2 hs.graph

end Listed

/-- What a scan gives is decided row by row. -/
theorem shown_reads (L : B.Lawful Sim Open) (hs : Sim w.store h) {p : CompiledPolicy} {scan : List EncodedQuad}
    (hscan : ∀ e ∈ scan, ∃ q, h.ids.quad q = some e) {Q : List Quad → World B ρ → Prop} {E : ViewError → World B ρ → Prop}
    (hE : ∀ e, E (.storage e) w) (hfail : p.semantics = .fail → E .accessDenied w)
    (hQ : ∀ qs, List.Forall₂ (fun e q => h.ids.quad q = some e) (scan.filter (fun e => p.decideQuad e Modes.read = .allow)) qs → Q qs w) :
    wp (scan.foldlM (fun out quad => do
      match p.decideQuad quad Modes.read with
      | .allow => return out ++ [← World.decodeQuad quad]
      | .filter => return out
      | .fail => throw ViewError.accessDenied) []) Q E w := by
  refine (wp_foldlM (I := fun done out w' => w' = w ∧ List.Forall₂ (fun e q => h.ids.quad q = some e)
    (done.filter (fun e => p.decideQuad e Modes.read = .allow)) out) ⟨rfl, .nil⟩ ?_).mono ?_ (fun _ _ h => h)
  · rintro done e rest out w' hl ⟨rfl, hout⟩
    obtain ⟨q, hq⟩ := hscan e (by rw [hl]; simp)
    rw [List.filter_append]
    cases hdec : p.decideQuad e Modes.read with
    | allow =>
      apply wp_bind
      refine World.decodeQuad_reads L hs hE hq (wp_pure ⟨rfl, ?_⟩)
      rw [List.filter_singleton, decide_eq_true hdec]
      exact List.rel_append hout (.cons hq .nil)
    | filter =>
      refine wp_pure ⟨rfl, ?_⟩
      simpa [hdec] using hout
    | fail =>
      exact wp_throw (hfail (p.decideQuad_fail hdec))
  · rintro out w' ⟨rfl, hout⟩
    exact hQ out hout

/-- The rows of a scan of one graph, decided, are what is listed of it. -/
theorem listed_of_scan (L : B.Lawful Sim Open) (hs : Sim w.store h) {p : CompiledPolicy} {name : GraphName} {i : Option TermId}
    (hi : h.ids.graph name = some i) (hopen : ∀ g, i = some g → p.graphIsWhollyDenied (some g) = false) {scan : List EncodedQuad}
    (hscan : B.scan w.store none none none (MemoryStorage.filterOf i) = .ok scan) {qs : List Quad}
    (hqs : List.Forall₂ (fun e q => h.ids.quad q = some e) (scan.filter (fun e => p.decideQuad e Modes.read = .allow)) qs) :
    Listed B Sim p h name (scan.filter (fun e => p.decideQuad e Modes.read = .allow)) qs := by
  have hgraph : ∀ e : EncodedQuad, Index.GraphFilter.admits (MemoryStorage.filterOf i) e = true ↔ e.graphName = i := by
    intro e
    cases i <;> simp [MemoryStorage.filterOf, Index.GraphFilter.admits]
  refine ⟨hqs, fun e => ?_, (L.scan_nodup hs hscan).filter _, fun hO j hj => ?_⟩
  · rw [List.mem_filter, L.mem_scan hs hscan, hgraph, decide_eq_true_iff]
    constructor
    · rintro ⟨⟨hmem, -, rfl⟩, hallow⟩
      exact ⟨hmem, hi, hopen, hallow⟩
    · intro hshow
      exact ⟨⟨hshow.stored, rfl, Option.some.inj (hshow.graph.symm.trans hi)⟩, hshow.allowed⟩
  · cases hi.symm.trans hj
    have hord := hO hs hscan
    cases i <;> exact List.Pairwise.filter _ hord

section
variable {name : GraphName} {Q : List Quad → World B ρ → Prop} {E : ViewError → World B ρ → Prop}
variable (L : B.Lawful Sim Open) (hs : Sim w.store h) (hd : h.Decodes) (hE : ∀ e, E (.storage e) w)
variable (hfail : w.session.compiled.semantics = .fail → E .accessDenied w)
variable (hQ : ∀ rows qs, Listed B Sim w.session.compiled h name rows qs → Q qs w)
include L hs hd hE hfail hQ

/-- A graph that is not refused as a whole is scanned. -/
theorem scanned_reads {i : Option TermId} (hi : h.ids.graph name = some i)
    (hopen : ∀ g, i = some g → w.session.compiled.graphIsWhollyDenied (some g) = false) :
    wp (World.quadsForPattern none none none (MemoryStorage.filterOf i) : Eff ViewError (World B ρ) (List EncodedQuad))
      (fun scan => wp (scan.foldlM (fun out quad => do
        match w.session.compiled.decideQuad quad Modes.read with
        | .allow => return out ++ [← World.decodeQuad quad]
        | .filter => return out
        | .fail => throw ViewError.accessDenied) []) Q E) E w := by
  refine World.store_reads (f := fun s => B.scan s none none none (MemoryStorage.filterOf i)) hE (fun scan hscan => ?_)
  refine shown_reads L hs (fun e he => hd e ((L.mem_scan hs hscan).1 he).1) hE hfail (fun qs hqs => ?_)
  exact hQ _ qs (listed_of_scan L hs hi hopen hscan hqs)

/-- The id of a named graph decides whether it is scanned: with none, or refused as a whole, it has
nothing to show. -/
theorem visibleNamed_reads {t : Term} (ht : h.ids.graph name = (h.ids t).map some)
    (hfilter : ∀ p : CompiledPolicy, (visibleFilter p (some name) : Eff ViewError (World B ρ) (Option GraphFilter)) = do
      match ← World.lookupTerm t with
      | none => return none
      | some id =>
        if p.graphIsWhollyDenied (some id) then
          match p.semantics with
          | .filter => return none
          | .fail => throw .accessDenied
        else return some (.named id)) :
    wp (visibleQuads (some name) : Eff ViewError (World B ρ) (List Quad)) Q E w := by
  have hnothing : (∀ e, ¬ Shows w.session.compiled h name e) → Q [] w := fun hno =>
    hQ [] [] ⟨.nil, fun e => iff_of_false List.not_mem_nil (hno e), .nil, fun _ _ _ => .nil⟩
  unfold visibleQuads
  apply wp_bind
  refine wp_reads (fun p hp => ?_) (fun e he => by cases he)
  cases hp
  rw [hfilter]
  apply wp_bind
  apply wp_bind
  apply World.lookupTerm_reads L hs hE
  cases hi : h.ids t with
  | none =>
    refine wp_pure (wp_pure (hnothing (fun e he => ?_)))
    have hg := he.graph
    rw [ht, hi] at hg
    cases hg
  | some g =>
    have hg : h.ids.graph name = some (some g) := by rw [ht, hi, Option.map_some]
    apply wp_ite
    · intro hdenied
      cases hsem : w.session.compiled.semantics with
      | filter =>
        refine wp_pure (wp_pure (hnothing (fun e he => ?_)))
        have := he.admitted g (Option.some.inj (he.graph.symm.trans hg))
        rw [hdenied] at this
        cases this
      | fail => exact wp_throw (hfail hsem)
    · intro hopen
      refine wp_pure ?_
      apply wp_bind
      refine scanned_reads L hs hd hE hfail hQ hg (fun g' hg' => ?_)
      cases hg'
      exact Bool.eq_false_iff.2 hopen

/-- What a view shows of a graph; under a policy that filters, only the store can fail it. -/
theorem visibleQuads_reads : wp (visibleQuads (some name) : Eff ViewError (World B ρ) (List Quad)) Q E w := by
  cases name with
  | defaultGraph =>
    unfold visibleQuads
    apply wp_bind
    refine wp_reads (fun p hp => ?_) (fun e he => by cases he)
    cases hp
    exact wp_bind (wp_pure (wp_bind (scanned_reads L hs hd hE hfail hQ rfl (fun g hg => by cases hg))))
  | namedNode n => exact visibleNamed_reads L hs hd hE hfail hQ (t := .namedNode n) rfl (fun _ => rfl)
  | blankNode b => exact visibleNamed_reads L hs hd hE hfail hQ (t := .blankNode b) rfl (fun _ => rfl)

end

end Holos.Engine
