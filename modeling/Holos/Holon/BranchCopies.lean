import Holos.Engine.AccessTheorems
import Holos.Holon.RegistryLoads
/-!
# What a branch copies, and for whom

A branch asks its session about the quads of the registry and of nothing else. What it copies is
therefore what the session may read and write only where the policy lets it be. The rest of what is
expected of a branch depends on the names: what the child's graphs held before, whether one of them
is the parent's, and what the child's event log said before of where it came from.
-/

namespace Holos

open Lib Lib.Eff Security

variable {B : Backend} {Sim : B.State → Held → Prop} {Open : B.State → Contents × Ids → Prop} {ρ : Type}
variable {c : Contents × Ids} {x : ρ} {R : ρ → Prop} {w : World B ρ} {h : Held}

namespace Registry

/-! ## The version read -/

/-- The version a holon is at, whatever is said of it. -/
def AtVersion (h : Held) (id : NamedNode) (v : Nat) : Prop :=
  ∃ r, ReadAs h.ids (versions h.all id) r ∧ v = r.elim 0 readVersion

theorem AtVersion.unique {h' : Held} {id : NamedNode} {v v' : Nat} (hv : AtVersion h id v) (hv' : AtVersion h' id v')
    (hle : h.ids ≤ h'.ids) (hall : h'.all = h.all) : v = v' := by
  obtain ⟨r, hr, rfl⟩ := hv
  obtain ⟨r', hr', rfl⟩ := hv'
  rw [hall] at hr'
  rw [(hr.mono objects_ids hle).unique hr']

/-- A version fits where it is kept. -/
theorem AtVersion.lt {id : NamedNode} {v : Nat} (hv : AtVersion h id v) : v < 2 ^ 64 := by
  have hwithin : ∀ o : Option Nat, ((o.bind (fun v => if v < 2 ^ 64 then some v else none)).getD 0) < 2 ^ 64 := by
    intro o
    cases o with
    | none => decide
    | some n =>
      rw [Option.bind_some]
      split
      · assumption
      · decide
  obtain ⟨r, -, rfl⟩ := hv
  cases r with
  | none => decide
  | some o =>
    cases o with
    | literal l =>
      change (parseU64 l.value).getD 0 < 2 ^ 64
      unfold parseU64
      split <;> exact hwithin _
    | _ => exact Nat.two_pow_pos 64

section
variable (L : B.Lawful Sim Open) (hO : B.Ordered Sim) (hs : Sim w.store h) (hd : h.Decodes) {E : HolonError → World B ρ → Prop}
variable (hE : ∀ e, E e w)
include L hO hs hd hE

theorem version_first {holon : Holon} {Q : Nat → World B ρ → Prop} (hQ : ∀ v, AtVersion h holon.id v → Q v w) :
    wp (version holon : Eff HolonError (World B ρ) Nat) Q E w := by
  -- a statement of a version has the graph and the holon in it
  have hterms : ∀ o ∈ versions h.all holon.id, (∃ g, h.ids (.namedNode systemGraph) = some g) ∧ ∃ s, h.ids (.namedNode holon.id) = some s := by
    rintro o ⟨e, he, -⟩
    obtain ⟨hes, -, -, heg⟩ := Ids.quad_eq_some.1 he
    obtain ⟨g, hg, -⟩ := Option.map_eq_some_iff.1 heg
    exact ⟨⟨g, hg⟩, e.subject, hes⟩
  have hzero : versions h.all holon.id = ∅ → Q 0 w := fun hnone => hQ 0 ⟨none, hnone, rfl⟩
  unfold version
  apply wp_bind
  apply World.lookupTerm_reads L hs (fun _ => hE _)
  cases hg : h.ids (.namedNode systemGraph) with
  | none =>
    refine wp_pure (hzero (Set.eq_empty_iff_forall_notMem.2 (fun o ho => ?_)))
    obtain ⟨g, hg'⟩ := (hterms o ho).1
    rw [hg] at hg'
    cases hg'
  | some g =>
    apply wp_bind
    apply World.lookupTerm_reads L hs (fun _ => hE _)
    cases hi : h.ids (.namedNode holon.id) with
    | none =>
      refine wp_pure (hzero (Set.eq_empty_iff_forall_notMem.2 (fun o ho => ?_)))
      obtain ⟨s, hi'⟩ := (hterms o ho).2
      rw [hi] at hi'
      cases hi'
    | some s =>
      apply wp_bind
      refine object_first L hO hs hd hE hg hi (fun r hr => ?_)
      have hQ' := hQ _ ⟨r, hr, rfl⟩
      cases r with
      | none => exact wp_pure hQ'
      | some o => cases o <;> exact wp_pure hQ'

end

theorem quiet_version {holon : Holon} : Quiet (version holon : Eff HolonError (World B ρ) Nat) := by
  unfold version
  refine (quiet_reads _).bind (fun g => ?_)
  cases g with
  | none => exact quiet_pure _
  | some g =>
    refine (quiet_reads _).bind (fun s => ?_)
    cases s with
    | none => exact quiet_pure _
    | some s =>
      refine quiet_object.bind (fun o => ?_)
      split <;> exact quiet_pure _

/-- A version set changes what is said of the holon's version, and nothing else. -/
theorem setVersionBody_off (L : B.Lawful Sim Open) (hR : R x) (hw : World.At Sim c x w h) {holon : Holon} {next : Nat}
    {Q : Unit → World B ρ → Prop}
    (hQ : ∀ w' h', World.At Sim c x w' h' → h.ids ≤ h'.ids →
      (∀ q, (∀ n, q ≠ versionQuad holon n) → (q ∈ h'.all ↔ q ∈ h.all)) → Q () w') :
    wp (setVersionBody holon next : Eff HolonError (World B ρ) Unit) Q (World.Stuck Open c R) w := by
  unfold setVersionBody
  apply wp_bind
  refine quiet_version.wp (fun v => ?_) (fun _ => ⟨L.opened hw.sim hw.saved, hw.stuck hR⟩)
  -- the removal, if there is one, and the insertion
  have hinsert : ∀ w₁ h₁, World.At Sim c x w₁ h₁ → h.ids ≤ h₁.ids →
      (∀ q, (∀ n, q ≠ versionQuad holon n) → (q ∈ h₁.all ↔ q ∈ h.all)) →
      wp (do let _ ← World.insert (versionQuad holon next) : Eff HolonError (World B ρ) Unit) Q (World.Stuck Open c R) w₁ := by
    intro w₁ h₁ hw₁ hle hoff
    apply wp_bind
    refine World.insert_at L hR hw₁ (fun b w₂ h₂ hw₂ hle₂ hall₂ _ => wp_pure (hQ w₂ h₂ hw₂ (hle.trans hle₂) (fun q hq => ?_)))
    rw [hall₂, Set.mem_insert_iff, or_iff_right (hq next)]
    exact hoff q hq
  by_cases h0 : v = 0
  · rw [if_neg (not_not.2 h0)]
    exact hinsert w h hw le_rfl (fun _ _ => Iff.rfl)
  · rw [if_pos h0]
    apply wp_bind
    refine World.remove_at L hR hw (fun b w₁ h₁ hw₁ hids hall _ => hinsert w₁ h₁ hw₁ (le_of_eq hids.symm) (fun q hq => ?_))
    rw [hall, Set.mem_sdiff, Set.mem_singleton_iff]
    exact and_iff_left (hq v)

end Registry

/-! ## What is written -/

/-- A branch, as a change of the quads stored, whatever is said of the child's version. -/
structure Spread (now : Int) (source child : Holon) (v : Nat) (S S' : Set Quad) : Prop where
  mem : ∀ q, (∀ n, q ≠ Registry.versionQuad child n) → (q ∈ S' ↔ q ∈ S ∨ q ∈ copied S source.scene child.scene ∨
    q ∈ copied (S ∪ copied S source.scene child.scene) source.boundary child.boundary ∨ q ∈ Registry.definition child ∨
    q ∈ branchQuads now child ⟨source.id, v⟩)

theorem branchBody_spread (L : B.Lawful Sim Open) (hO : B.Ordered Sim) (hR : R x) (hw : World.At Sim c x w h) {now : Int}
    {source : Holon} {newId : NamedNode} {Q : Holon → World B ρ → Prop}
    (hQ : ∀ v w' h', World.At Sim c x w' h' → h.ids ≤ h'.ids → Registry.AtVersion h source.id v →
      Spread now source (source.child newId) v h.all h'.all → Q (source.child newId) w') :
    wp (branchBody now source newId : Eff HolonError (World B ρ) Holon) Q (World.Stuck Open c R) w := by
  unfold branchBody
  apply wp_bind
  refine Registry.version_first L hO hw.sim hw.decodes (fun _ => ⟨L.opened hw.sim hw.saved, hw.stuck hR⟩) (fun v hv => ?_)
  apply wp_bind
  refine copyGraph_at L hR hw (fun w₁ h₁ hw₁ hle₁ hall₁ => ?_)
  apply wp_bind
  refine copyGraph_at L hR hw₁ (fun w₂ h₂ hw₂ hle₂ hall₂ => ?_)
  rw [hall₁] at hall₂
  apply wp_bind
  refine Registry.inCommit_at L hw₂ (Registry.registerBody_at L hR hw₂ (fun w₃ h₃ hw₃ hle₃ hall₃ => ?_))
  rw [hall₂] at hall₃
  apply wp_bind
  refine Registry.inCommit_at L hw₃ (Registry.setVersionBody_off L hR hw₃ (fun w₄ h₄ hw₄ hle₄ hoff => ?_))
  apply wp_bind
  refine World.insertAll_at L hR hw₄ (fun w₅ h₅ hw₅ hle₅ hall₅ => wp_pure (hQ v w₅ h₅ hw₅ ?_ hv ⟨fun q hq => ?_⟩))
  · exact hle₁.trans (hle₂.trans (hle₃.trans (hle₄.trans hle₅)))
  · rw [hall₅, Set.mem_union, hoff q hq, hall₃]
    simp only [Set.mem_union, Set.mem_ofPred_eq, or_assoc]

theorem branch_spread (L : B.Lawful Sim Open) (hO : B.Ordered Sim) (hs : Settled Sim w.store h) {lands : Bool} {now : Int}
    {source : Holon} {newId : NamedNode} :
    wp (branch lands now source newId : Eff HolonError (World B ρ) Holon)
      (fun child w' => child = source.child newId ∧ Registry.declaration newId ∉ h.all ∧ ∃ v h', Settled Sim w'.store h' ∧
        h.ids ≤ h'.ids ∧ Registry.AtVersion h source.id v ∧ Spread now source (source.child newId) v h.all h'.all)
      (fun _ w' => Unchanged Sim h w'.store) w := by
  have hback := fun w' => @Unchanged.of_restored B Sim ρ w' h (fun _ => True)
  have hsame : Unchanged Sim h w.store := ⟨h, hs, le_rfl, rfl⟩
  unfold branch
  apply wp_bind
  refine load_reads L hs.sim (fun _ => hsame) (fun habs => ?_) (fun holon => wp_throw hsame)
  unfold inCommit
  refine Registry.scoped_wp L (x := w.extra) (R := fun _ => True) ⟨hs.sim, hs.saved, hs.decodes, rfl⟩ trivial
    (P := fun child h' _ => child = source.child newId ∧ ∃ v, h.ids ≤ h'.ids ∧ Registry.AtVersion h source.id v ∧
      Spread now source (source.child newId) v h.all h'.all)
    (fun w₁ hw₁ => ?_) (fun _ w' h' x' hw' hpost => ?_) (fun e w' hr => ?_) (fun e => hsame) (fun e w' _ hr => hback w' hr hs.decodes)
  · refine branchBody_spread L hO trivial hw₁ (fun v w' h' hw' hle hv hspread => ?_)
    exact ⟨h', _, hw', ⟨rfl, v, hle, hv, hspread⟩, trivial⟩
  · obtain ⟨rfl, v, hle, hv, hspread⟩ := hpost
    exact wp_pure ⟨rfl, habs, v, _, ⟨hw'.sim, hw'.saved, hw'.decodes⟩, hle, hv, hspread⟩
  · exact wp_throw (hback w' hr hs.decodes)

/-! ## Reading a branch's origin -/

/-- IdBefore it in the order of ids. -/
def IdBefore (ids : Ids) (q q' : Quad) : Prop :=
  ∃ e e', ids.quad q = some e ∧ ids.quad q' = some e' ∧ Index.Order.key .gspo e < Index.Order.key .gspo e'

theorem IdBefore.asymm {ids : Ids} {q q' : Quad} (hb : IdBefore ids q q') : ¬ IdBefore ids q' q := by
  rintro ⟨e₁', e₁, h₁', h₁, hlt₁⟩
  obtain ⟨e, e', h, h', hlt⟩ := hb
  cases h.symm.trans h₁
  cases h'.symm.trans h₁'
  exact lt_asymm hlt hlt₁

theorem pairwise_decoded {ids : Ids} {rows : List EncodedQuad} {qs : List Quad}
    (hd : List.Forall₂ (fun e q => ids.quad q = some e) rows qs) (hrows : Index.KeySorted .gspo rows) : qs.Pairwise (IdBefore ids) := by
  induction hd with
  | nil => exact .nil
  | @cons e q rows qs he hd ih =>
    obtain ⟨hfirst, hrest⟩ := List.pairwise_cons.1 hrows
    refine List.pairwise_cons.2 ⟨fun q' hq' => ?_, ih hrest⟩
    obtain ⟨e', hmem, he'⟩ := (@Engine.mem_decoded ⟨.empty, ids, none⟩ rows qs hd q').1 hq'
    exact ⟨e, e', he, he', hfirst e' hmem⟩

/-- A log is read quad by quad, in the order of ids. -/
theorem branchPoint_reads (L : B.Lawful Sim Open) (hO : B.Ordered Sim) (hs : Sim w.store h) (hd : h.Decodes)
    {E : HolonError → World B ρ → Prop} (hE : ∀ e, E e w) {holon : Holon} {Q : Option BranchPoint → World B ρ → Prop}
    (hQ : ∀ qs : List Quad, (∀ q, q ∈ qs ↔ q ∈ h.all ∧ q.graphName = .namedNode holon.events) → qs.Pairwise (IdBefore h.ids) →
      Q (BranchPoint.ofRead (qs.foldl BranchPoint.take (none, none))) w) :
    wp (branchPoint holon : Eff HolonError (World B ρ) (Option BranchPoint)) Q E w := by
  unfold branchPoint
  apply wp_bind
  apply World.lookupTerm_reads L hs (fun _ => hE _)
  cases hg : h.ids (.namedNode holon.events) with
  | none =>
    refine wp_pure (hQ [] (fun q => iff_of_false List.not_mem_nil ?_) .nil)
    rintro ⟨⟨e, he, -⟩, hname⟩
    have hgraph := (Ids.quad_eq_some.1 he).2.2.2
    rw [hname] at hgraph
    obtain ⟨g, hg', -⟩ := Option.map_eq_some_iff.1 hgraph
    rw [hg] at hg'
    cases hg'
  | some g =>
    apply wp_bind
    refine World.store_reads (f := fun st => B.scan st none none none (.named g)) (fun _ => hE _) (fun rows hscan => ?_)
    have horder : Index.KeySorted .gspo rows := hO hs hscan
    have hmem : ∀ e, e ∈ rows ↔ e ∈ h.contents.quads ∧ e.graphName = some g := by
      intro e
      rw [@L.mem_scan _ _ _ _ _ _ _ e hs hscan]
      simp [Index.matchesTriple, Index.GraphFilter.admits]
    refine wp_bind ((wp_foldlM (I := fun done acc w' => w' = w ∧ ∃ qs, List.Forall₂ (fun e q => h.ids.quad q = some e) done qs ∧
      acc = qs.foldl BranchPoint.take (none, none)) ⟨rfl, [], .nil, rfl⟩ ?_).mono ?_ (fun _ _ h => h))
    · rintro done e rest acc w' hl ⟨rfl, qs, hqs, rfl⟩
      obtain ⟨q, hq⟩ := hd e ((hmem e).1 (by rw [hl]; simp)).1
      apply wp_bind
      refine World.decodeQuad_reads L hs (fun _ => hE _) hq (wp_pure ⟨rfl, qs ++ [q], List.rel_append hqs (.cons hq .nil), ?_⟩)
      rw [List.foldl_append]
      rfl
    · rintro acc w' ⟨rfl, qs, hqs, rfl⟩
      refine wp_pure (hQ qs (fun q => ?_) (pairwise_decoded hqs horder))
      rw [Engine.mem_decoded hqs]
      constructor
      · rintro ⟨e, he, hq⟩
        obtain ⟨hcontents, hgraph⟩ := (hmem e).1 he
        refine ⟨⟨e, hq, hcontents⟩, Ids.graph_inj (Ids.quad_eq_some.1 hq).2.2.2 ?_⟩
        rw [hgraph]
        exact Option.map_eq_some_iff.2 ⟨g, hg, rfl⟩
      · rintro ⟨⟨e, hq, hcontents⟩, hname⟩
        have hgraph := (Ids.quad_eq_some.1 hq).2.2.2
        rw [hname] at hgraph
        obtain ⟨g', hg', heq⟩ := Option.map_eq_some_iff.1 hgraph
        cases hg.symm.trans hg'
        exact ⟨e, (hmem e).2 ⟨hcontents, heq.symm⟩, hq⟩

/-! ## The origin read, as the last one recorded -/

/-- The holon a quad says a branch came from. -/
def origin (q : Quad) : Option NamedNode :=
  if q.predicate = holos "branchedFrom" then
    match q.object with
    | .namedNode n => some n
    | _ => none
  else none

/-- The version a quad says it was made at, as it is read. -/
def originVersion (q : Quad) : Option (Option Nat) :=
  if q.predicate = holos "branchedAtVersion" then
    match q.object with
    | .literal l => some (Registry.parseU64 l.value)
    | _ => none
  else none

theorem BranchPoint.take_eq (acc : Option NamedNode × Option Nat) (q : Quad) :
    BranchPoint.take acc q = ((origin q).or acc.1, (originVersion q).getD acc.2) := by
  have hne : holos "branchedFrom" ≠ holos "branchedAtVersion" := by decide
  unfold BranchPoint.take origin originVersion
  by_cases hfrom : q.predicate = holos "branchedFrom"
  · rw [if_pos hfrom, if_pos hfrom, if_neg (fun hat => hne (hfrom.symm.trans hat))]
    cases q.object <;> rfl
  · rw [if_neg hfrom, if_neg hfrom]
    by_cases hat : q.predicate = holos "branchedAtVersion"
    · rw [if_pos hat, if_pos hat]
      cases q.object <;> rfl
    · rw [if_neg hat, if_neg hat]
      rfl

theorem BranchPoint.foldl_take (qs : List Quad) :
    qs.foldl BranchPoint.take (none, none) = (qs.foldl (fun kept q => (origin q).or kept) none,
      (qs.foldl (fun kept q => (originVersion q).or kept) none).getD none) := by
  induction qs using List.reverseRecOn with
  | nil => rfl
  | append_singleton qs q ih =>
    simp only [List.foldl_append, List.foldl_cons, List.foldl_nil, ih, BranchPoint.take_eq]
    cases originVersion q <;> rfl

/-- What comes last of a log. -/
def Closes {β : Type} (ids : Ids) (log : Set Quad) (f : Quad → Option β) (y : β) : Prop :=
  ∀ q ∈ log, ∀ z, f q = some z → z ≠ y → ∃ q' ∈ log, f q' = some y ∧ IdBefore ids q q'

/-- A branch's own record is what is read of its origin exactly if nothing recorded otherwise comes after it. -/
theorem ofRead_foldl_take {ids : Ids} {qs : List Quad} {log : Set Quad} (hmem : ∀ q, q ∈ qs ↔ q ∈ log) (horder : qs.Pairwise (IdBefore ids))
    {now : Int} {child : Holon} {point : BranchPoint} (hv : point.version < 2 ^ 64) (hrecord : ∀ q ∈ branchQuads now child point, q ∈ log) :
    BranchPoint.ofRead (qs.foldl BranchPoint.take (none, none)) = some point ↔
      Closes ids log origin point.parent ∧ Closes ids log originVersion (some point.version) := by
  have hlast : ∀ {β : Type} {f : Quad → Option β} {y : β}, (∃ q ∈ branchQuads now child point, f q = some y) →
      (qs.foldl (fun kept q => (f q).or kept) none = some y ↔ Closes ids log f y) := by
    intro β f y hy
    obtain ⟨q, hq, hqy⟩ := hy
    rw [foldl_last_iff horder (fun _ _ => IdBefore.asymm) ⟨q, (hmem q).2 (hrecord q hq), hqy⟩]
    simp only [hmem, Closes]
  have hparent : ∃ q ∈ branchQuads now child point, origin q = some point.parent :=
    ⟨_, List.mem_cons_self, if_pos rfl⟩
  have hversion : ∃ q ∈ branchQuads now child point, originVersion q = some (some point.version) := by
    refine ⟨_, List.mem_cons_of_mem _ List.mem_cons_self, (if_pos rfl).trans (congrArg some ?_)⟩
    have hvalue : (Literal.newTyped (toString point.version) Xsd.integer).value = toString point.version := by
      unfold Literal.newTyped
      rw [dif_neg (by decide)]
      rfl
    rw [hvalue, Registry.parseU64_toString hv]
  rw [BranchPoint.foldl_take, ← hlast hparent, ← hlast hversion]
  obtain ⟨parent, version⟩ := point
  cases qs.foldl (fun kept q => (origin q).or kept) none with
  | none => simp [BranchPoint.ofRead]
  | some parent' =>
    cases qs.foldl (fun kept q => (originVersion q).or kept) none with
    | none => simp [BranchPoint.ofRead]
    | some version' => cases version' <;> simp [BranchPoint.ofRead]

/-! ## What is expected of a branch, and when it is so -/

/-- The triples of a graph. -/
def triplesOf (S : Set Quad) (graph : NamedNode) : Set Triple := {t | t.inGraph (.namedNode graph) ∈ S}

/-- The policy lets the quad be read or written. -/
def Grants (p : CompiledPolicy) (ids : Ids) (mode : Modes) (q : Quad) : Prop :=
  ∃ e, ids.quad q = some e ∧ p.permitsQuad e mode = true

/-- The graphs copied, each with the one it is copied to. -/
def copyPairs (source child : Holon) : List (NamedNode × NamedNode) :=
  [(source.scene, child.scene), (source.boundary, child.boundary)]

def Holon.graphs (holon : Holon) : List NamedNode := [holon.scene, holon.boundary, holon.events]

/-- What is expected of a branch: a copy of the source for one who may read it and write it there, the
source as it was, and a record of where the copy came from. -/
structure BranchFaithful (p : CompiledPolicy) (ids : Ids) (source child : Holon) (v : Nat) (S S' : Set Quad) (point : Option BranchPoint) : Prop where
  granted : ∀ g ∈ copyPairs source child, ∀ t, t ∈ triplesOf S g.1 → t ∈ triplesOf S' g.2 →
    Grants p ids Modes.read (t.inGraph (.namedNode g.1)) ∧ Grants p ids Modes.write (t.inGraph (.namedNode g.2))
  exact : ∀ g ∈ copyPairs source child, triplesOf S' g.2 = triplesOf S g.1
  unchanged : ∀ g ∈ source.graphs, triplesOf S' g = triplesOf S g
  defined : ∀ q, q.graphName = .namedNode systemGraph → q.subject = .namedNode source.id → (q ∈ S' ↔ q ∈ S)
  point : point = some ⟨source.id, v⟩

/-- When that is so: the policy lets everything in the source's graphs be copied, the child's graphs hold
nothing of their own, no graph of the source is written to but with what it has, the child's definition
does not redefine the source, and the child's log ends with the origin recorded. -/
structure BranchClean (now : Int) (p : CompiledPolicy) (ids : Ids) (source child : Holon) (v : Nat) (S : Set Quad) : Prop where
  granted : ∀ g ∈ copyPairs source child, ∀ t ∈ triplesOf S g.1,
    Grants p ids Modes.read (t.inGraph (.namedNode g.1)) ∧ Grants p ids Modes.write (t.inGraph (.namedNode g.2))
  fresh : ∀ g ∈ copyPairs source child, triplesOf S g.2 ⊆ triplesOf S g.1
  crossed : source.boundary = child.scene → triplesOf S source.scene ⊆ triplesOf S source.boundary
  system : ∀ g ∈ source.graphs, g ≠ systemGraph
  apart : ∀ g ∈ source.graphs, ∀ c ∈ copyPairs source child, g = c.2 → triplesOf S c.1 ⊆ triplesOf S g
  log_apart : ∀ g ∈ source.graphs, g = child.events → ∀ q ∈ branchQuads now child ⟨source.id, v⟩, q ∈ S
  defined : ∀ q ∈ Registry.definition child, q.subject = .namedNode source.id → q ∈ S
  origin : Closes ids ({q ∈ S | q.graphName = .namedNode child.events} ∪ {q | q ∈ branchQuads now child ⟨source.id, v⟩}) origin source.id
  version : Closes ids ({q ∈ S | q.graphName = .namedNode child.events} ∪ {q | q ∈ branchQuads now child ⟨source.id, v⟩}) originVersion (some v)

theorem mem_copied {S : Set Quad} {source target g : NamedNode} {t : Triple} :
    t.inGraph (.namedNode g) ∈ copied S source target ↔ g = target ∧ t ∈ triplesOf S source := by
  constructor
  · rintro ⟨t', ht', heq⟩
    obtain rfl : t = t' := congrArg Quad.triple heq
    exact ⟨GraphName.namedNode.inj (congrArg Quad.graphName heq), ht'⟩
  · rintro ⟨rfl, ht⟩
    exact ⟨t, ht, rfl⟩

namespace Spread

variable {now : Int} {source : Holon} {newId : NamedNode} {v : Nat} {S S' : Set Quad}

/-- The child's graphs are three. -/
theorem child_distinct : (source.child newId).scene ≠ (source.child newId).boundary ∧
    (source.child newId).boundary ≠ (source.child newId).events ∧ (source.child newId).scene ≠ (source.child newId).events :=
  ⟨Holon.append_ne (by decide) (by decide) (by decide), Holon.append_ne (by decide) (by decide) (by decide),
    (Holon.child_apart source newId).scene_events⟩

/-- What is in a graph that is not the system graph. -/
theorem mem_graph (hs : Spread now source (source.child newId) v S S') {g : NamedNode} (hg : g ≠ systemGraph) (t : Triple) :
    t ∈ triplesOf S' g ↔ t ∈ triplesOf S g ∨ (g = (source.child newId).scene ∧ t ∈ triplesOf S source.scene) ∨
      (g = (source.child newId).boundary ∧ (t ∈ triplesOf S source.boundary ∨
        source.boundary = (source.child newId).scene ∧ t ∈ triplesOf S source.scene)) ∨
      t.inGraph (.namedNode g) ∈ branchQuads now (source.child newId) ⟨source.id, v⟩ := by
  have hname : ∀ n, t.inGraph (.namedNode g) ≠ Registry.versionQuad (source.child newId) n :=
    fun n heq => hg (GraphName.namedNode.inj (congrArg Quad.graphName heq))
  have hdefined : t.inGraph (.namedNode g) ∉ Registry.definition (source.child newId) :=
    fun hmem => hg (GraphName.namedNode.inj (Registry.definition_spec hmem).1)
  have hunion : t ∈ triplesOf (S ∪ copied S source.scene (source.child newId).scene) source.boundary ↔
      t ∈ triplesOf S source.boundary ∨ source.boundary = (source.child newId).scene ∧ t ∈ triplesOf S source.scene :=
    or_congr_right mem_copied
  exact (hs.mem _ hname).trans (or_congr_right (or_congr mem_copied (or_congr (mem_copied.trans (and_congr_right (fun _ => hunion)))
    (or_iff_right hdefined))))

/-- What is in the child's scene and boundary. -/
theorem mem_copy (hs : Spread now source (source.child newId) v S S') {g : NamedNode × NamedNode} (hg : g ∈ copyPairs source (source.child newId))
    (t : Triple) : t ∈ triplesOf S' g.2 ↔ t ∈ triplesOf S g.2 ∨ t ∈ triplesOf S g.1 ∨
      (g.1 = source.boundary ∧ g.2 = (source.child newId).boundary ∧ source.boundary = (source.child newId).scene ∧ t ∈ triplesOf S source.scene) := by
  obtain ⟨hsb, hbe, hse⟩ := @child_distinct source newId
  have hlog : ∀ g, g ≠ (source.child newId).events → t.inGraph (.namedNode g) ∉ branchQuads now (source.child newId) ⟨source.id, v⟩ :=
    fun g hne hmem => hne (GraphName.namedNode.inj (branchQuads_graph hmem))
  simp only [copyPairs, List.mem_cons, List.not_mem_nil, or_false] at hg
  rcases hg with rfl | rfl
  · rw [hs.mem_graph (Holon.child_apart source newId).scene_system]
    have := hlog _ hse
    simp only [true_and, hsb, false_and, this, or_false]
    tauto
  · rw [hs.mem_graph (Holon.child_boundary_system source newId)]
    have := hlog _ hbe
    simp only [true_and, Ne.symm hsb, false_and, false_or, this, or_false]

theorem mem_log (hs : Spread now source (source.child newId) v S S') {q : Quad} (hq : q.graphName = .namedNode (source.child newId).events) :
    q ∈ S' ↔ q ∈ {q ∈ S | q.graphName = .namedNode (source.child newId).events} ∪ {q | q ∈ branchQuads now (source.child newId) ⟨source.id, v⟩} := by
  obtain ⟨hsb, hbe, hse⟩ := @child_distinct source newId
  have heq : q = q.triple.inGraph (.namedNode (source.child newId).events) := by rw [← hq, Quad.inGraph_triple]
  have hmem := hs.mem_graph (Holon.child_apart source newId).events_system q.triple
  unfold triplesOf at hmem
  simp only [Set.mem_ofPred_eq, ← heq, Ne.symm hse, Ne.symm hbe, false_and, false_or] at hmem
  rw [hmem]
  simp only [Set.mem_union, Set.mem_ofPred_eq, hq, and_true]

/-- What is said of the source in the system graph stays as it is exactly if the child's definition says nothing new
of it. -/
theorem defined_iff (hs : Spread now source (source.child newId) v S S') (habs : Registry.declaration newId ∉ S) :
    (∀ q, q.graphName = .namedNode systemGraph → q.subject = .namedNode source.id → (q ∈ S' ↔ q ∈ S)) ↔
      ∀ q ∈ Registry.definition (source.child newId), q.subject = .namedNode source.id → q ∈ S := by
  have htype : ∀ n, Registry.declaration newId ≠ Registry.versionQuad (source.child newId) n :=
    fun n heq => absurd (congrArg Quad.predicate heq) (show Vocab.rdf "type" ≠ holos "version" by decide)
  constructor
  · intro hsame q hq hsubject
    obtain ⟨hgraph, hpredicate⟩ := Registry.definition_spec hq
    have hname : ∀ n, q ≠ Registry.versionQuad (source.child newId) n := fun n heq => hpredicate (congrArg Quad.predicate heq)
    exact (hsame q hgraph hsubject).1 ((hs.mem q hname).2 (.inr (.inr (.inr (.inl hq)))))
  · intro hsaid q hgraph hsubject
    -- the child is another holon, or its declaration is new
    have hne : source.id ≠ newId := by
      intro heq
      exact habs (hsaid _ (Registry.declaration_mem (source.child newId)) (congrArg NamedOrBlankNode.namedNode heq.symm))
    have hname : ∀ n, q ≠ Registry.versionQuad (source.child newId) n := by
      intro n heq
      exact hne (NamedOrBlankNode.namedNode.inj (hsubject.symm.trans (congrArg Quad.subject heq)))
    rw [hs.mem q hname]
    constructor
    · rintro (hq | hq | hq | hq | hq)
      · exact hq
      · exact absurd (GraphName.namedNode.inj ((copied_graph hq).symm.trans hgraph)) (Holon.child_apart source newId).scene_system
      · exact absurd (GraphName.namedNode.inj ((copied_graph hq).symm.trans hgraph)) (Holon.child_boundary_system source newId)
      · exact hsaid q hq hsubject
      · exact absurd (GraphName.namedNode.inj ((branchQuads_graph hq).symm.trans hgraph)) (Holon.child_apart source newId).events_system
    · exact .inl

/-- A graph of the source that is not the system graph stays as it is exactly if what is written to it was in it. -/
theorem unchanged_iff (hs : Spread now source (source.child newId) v S S') {g : NamedNode} (hg : g ≠ systemGraph)
    (hcrossed : source.boundary = (source.child newId).scene → triplesOf S source.scene ⊆ triplesOf S source.boundary) :
    triplesOf S' g = triplesOf S g ↔ (∀ c ∈ copyPairs source (source.child newId), g = c.2 → triplesOf S c.1 ⊆ triplesOf S g) ∧
      (g = (source.child newId).events → ∀ q ∈ branchQuads now (source.child newId) ⟨source.id, v⟩, q ∈ S) := by
  constructor
  · intro hsame
    refine ⟨fun c hc heq t ht => ?_, fun heq q hq => ?_⟩
    · rw [← hsame, heq]
      exact (hs.mem_copy hc t).2 (.inr (.inl ht))
    · have hname := branchQuads_graph hq
      have hmem : q.triple ∈ triplesOf S' g := by
        refine (hs.mem_graph hg _).2 (.inr (.inr (.inr ?_)))
        rw [heq, ← hname, Quad.inGraph_triple]
        exact hq
      rw [hsame] at hmem
      change q.triple.inGraph (.namedNode g) ∈ S at hmem
      rwa [heq, ← hname, Quad.inGraph_triple] at hmem
  · rintro ⟨hcopies, hlog⟩
    ext t
    rw [hs.mem_graph hg]
    constructor
    · rintro (ht | ⟨heq, ht⟩ | ⟨heq, ht | ⟨hcross, ht⟩⟩ | ht)
      · exact ht
      · exact hcopies _ List.mem_cons_self heq ht
      · exact hcopies (source.boundary, (source.child newId).boundary) (by simp [copyPairs]) heq ht
      · exact hcopies (source.boundary, (source.child newId).boundary) (by simp [copyPairs]) heq (hcrossed hcross ht)
      · exact hlog (GraphName.namedNode.inj (branchQuads_graph ht)) _ ht
    · exact .inl

/-- A branch does what is expected of one exactly on these terms. -/
theorem faithful_iff (hs : Spread now source (source.child newId) v S S') (habs : Registry.declaration newId ∉ S) {p : CompiledPolicy}
    {ids : Ids} {point : Option BranchPoint} (hpoint : point = some ⟨source.id, v⟩ ↔
      Closes ids ({q ∈ S | q.graphName = .namedNode (source.child newId).events} ∪ {q | q ∈ branchQuads now (source.child newId) ⟨source.id, v⟩}) origin source.id ∧
      Closes ids ({q ∈ S | q.graphName = .namedNode (source.child newId).events} ∪ {q | q ∈ branchQuads now (source.child newId) ⟨source.id, v⟩})
        originVersion (some v)) :
    BranchFaithful p ids source (source.child newId) v S S' point ↔ BranchClean now p ids source (source.child newId) v S := by
  have hdeclared : Registry.declaration newId ∈ S' := by
    refine (hs.mem _ (fun n heq => ?_)).2 (.inr (.inr (.inr (.inl (Registry.declaration_mem (source.child newId))))))
    exact absurd (congrArg Quad.predicate heq) (show Vocab.rdf "type" ≠ holos "version" by decide)
  constructor
  · intro hf
    have hcopied : ∀ g ∈ copyPairs source (source.child newId), triplesOf S g.1 ⊆ triplesOf S' g.2 :=
      fun g hg t ht => (hs.mem_copy hg t).2 (.inr (.inl ht))
    have hsystem : ∀ g ∈ source.graphs, g ≠ systemGraph := by
      rintro g hg rfl
      have hmem : (Registry.declaration newId).triple ∈ triplesOf S' systemGraph := hdeclared
      rw [hf.unchanged _ hg] at hmem
      exact habs hmem
    have hcrossed : source.boundary = (source.child newId).scene → triplesOf S source.scene ⊆ triplesOf S source.boundary := by
      intro hcross t ht
      have hboundary : (source.boundary, (source.child newId).boundary) ∈ copyPairs source (source.child newId) := by simp [copyPairs]
      rw [← hf.exact _ hboundary]
      exact (hs.mem_copy hboundary t).2 (.inr (.inr ⟨rfl, rfl, hcross, ht⟩))
    have happart := fun g hg => (hs.unchanged_iff (hsystem g hg) hcrossed).1 (hf.unchanged g hg)
    exact {
      granted := fun g hg t ht => hf.granted g hg t ht (hcopied g hg ht)
      fresh := fun g hg t ht => by
        rw [← hf.exact g hg]
        exact (hs.mem_copy hg t).2 (.inl ht)
      crossed := hcrossed
      system := hsystem
      apart := fun g hg => (happart g hg).1
      log_apart := fun g hg => (happart g hg).2
      defined := (hs.defined_iff habs).1 hf.defined
      origin := (hpoint.1 hf.point).1
      version := (hpoint.1 hf.point).2 }
  · intro hc
    exact {
      granted := fun g hg t ht _ => hc.granted g hg t ht
      exact := by
        intro g hg
        ext t
        rw [hs.mem_copy hg]
        constructor
        · rintro (ht | ht | ⟨hfrom, hto, hcross, ht⟩)
          · exact hc.fresh g hg ht
          · exact ht
          · rw [hfrom]
            exact hc.crossed hcross ht
        · exact fun ht => .inr (.inl ht)
      unchanged := fun g hg => (hs.unchanged_iff (hc.system g hg) hc.crossed).2 ⟨hc.apart g hg, hc.log_apart g hg⟩
      defined := (hs.defined_iff habs).2 hc.defined
      point := hpoint.2 ⟨hc.origin, hc.version⟩ }

end Spread

namespace InMemory

/-- A statement of the parent's scene. -/
def fact : Quad := ⟨.namedNode "urn:a", "urn:secret", .namedNode "urn:b", .namedNode parent.scene⟩

/-- What the fact says, in the branch's scene. -/
def copy : Quad := fact.triple.inGraph (.namedNode child.scene)

/-- Nobody reads or writes the predicate. -/
def secret : Policy := { Policy.permitAll with rules := [⟨.deny, Modes.read.union Modes.write, .predicate "urn:secret", .everyone⟩] }

/-- What the session may do to a quad: read it, write it. -/
def allowed (q : Quad) : Eff HolonError (World Memory Unit) (Bool × Bool) := do
  let encoded ← World.encodeQuad q
  let p ← World.policy
  return (p.permitsQuad encoded Modes.read, p.permitsQuad encoded Modes.write)

/-- A branch under a policy that denies the predicate: where the branch says it came from, what the session may do
to the fact and to its copy, and whether the copy is there. -/
def leaked : Option (Except HolonError (Option BranchPoint × (Bool × Bool) × (Bool × Bool) × Bool)) := do
  let prepare : Eff HolonError (World Memory Unit) Unit := do
    Registry.register true parent
    let _ ← World.insert fact
  let (_, w) ← prepare.exec ⟨.new, InMemory.session, ()⟩
  let session ← (Session.open (fun n => .ok (w.store.lookup Dictionary.bare (.namedNode n))) w.store.dictionary.len .anonymous secret).toOption
  let program : Eff HolonError (World Memory Unit) (Option BranchPoint × (Bool × Bool) × (Bool × Bool) × Bool) := do
    let made ← branch true 0 parent "urn:child"
    let added ← World.insert copy
    return (← branchPoint made, ← allowed fact, ← allowed copy, !added)
  (program.exec { w with session }).map (·.1)

end InMemory

end Holos
