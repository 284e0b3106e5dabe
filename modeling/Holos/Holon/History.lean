import Holos.Holon.BranchTheorems
import Holos.Holon.TickRuns
/-!
# Runs of register, branch and tick

What came through is kept in a log, newest first. `Kept` is what the store says of every holon:
its version is the one it was made with and a step for every tick, and each tick's event is in
the log of its holon under a number of its own.
-/

namespace Holos

open Lib Lib.Eff Security Shacl

variable {B : Backend} {Sim : B.State → Held → Prop} {Open : B.State → Contents × Ids → Prop} {ρ : Type} {E : RuleEngine}

/-! ## One operation -/

theorem Unchanged.of_restored {w' : World B ρ} {h : Held} {R : ρ → Prop} (hr : Registry.Restored Sim h R w') (hd : h.Decodes) :
    Unchanged Sim h w'.store := by
  obtain ⟨h', hi, hle, hcontents, -, -⟩ := hr.idle hd
  exact ⟨h', ⟨hi.sim, hi.saved, hi.decodes⟩, hle, hcontents⟩

theorem register_wp (L : B.Lawful Sim Open) {w : World B ρ} {h : Held} (hs : Settled Sim w.store h) {lands : Bool} {holon : Holon} :
    wp (Registry.register lands holon : Eff HolonError (World B ρ) Unit)
      (fun _ w' => ∃ h', Settled Sim w'.store h' ∧ h.ids ≤ h'.ids ∧ h'.all = h.all ∪ {q | q ∈ Registry.definition holon})
      (fun _ w' => Unchanged Sim h w'.store) w := by
  have hback := fun w' => @Unchanged.of_restored B Sim ρ w' h (fun _ => True)
  unfold Registry.register inCommit
  refine Registry.scoped_wp L (x := w.extra) (R := fun _ => True) ⟨hs.sim, hs.saved, hs.decodes, rfl⟩ trivial
    (P := fun _ h' _ => h.ids ≤ h'.ids ∧ h'.all = h.all ∪ {q | q ∈ Registry.definition holon})
    (fun w₁ hw₁ => ?_) (fun _ w' h' x' hw' hpost => ?_) (fun e w' hr => ?_) (fun e => ⟨h, hs, le_rfl, rfl⟩) (fun e w' _ hr => hback w' hr hs.decodes)
  · refine Registry.registerBody_at L trivial hw₁ (fun w' h' hw' hle hall => ?_)
    exact ⟨h', _, hw', ⟨hle, hall⟩, trivial⟩
  · exact wp_pure ⟨_, ⟨hw'.sim, hw'.saved, hw'.decodes⟩, hpost.1, hpost.2⟩
  · exact wp_throw (hback w' hr hs.decodes)

theorem branch_wp (L : B.Lawful Sim Open) {w : World B ρ} {h : Held} (hs : Settled Sim w.store h) {lands : Bool} {now : Int}
    {source : Holon} {newId : NamedNode} {v u : Nat} (hv : Registry.Versioned h.all source.id v)
    (hu : Registry.Versioned h.all newId u) :
    wp (branch lands now source newId : Eff HolonError (World B ρ) Holon)
      (fun child w' => child = source.child newId ∧ Registry.declaration newId ∉ h.all ∧
        ∃ h', Settled Sim w'.store h' ∧ h.ids ≤ h'.ids ∧ Branched now source (source.child newId) v u h.all h'.all)
      (fun _ w' => Unchanged Sim h w'.store) w := by
  have hback := fun w' => @Unchanged.of_restored B Sim ρ w' h (fun _ => True)
  have hsame : Unchanged Sim h w.store := ⟨h, hs, le_rfl, rfl⟩
  unfold branch
  apply wp_bind
  refine load_reads L hs.sim (fun _ => hsame) (fun habs => ?_) (fun holon => wp_throw hsame)
  unfold inCommit
  refine Registry.scoped_wp L (x := w.extra) (R := fun _ => True) ⟨hs.sim, hs.saved, hs.decodes, rfl⟩ trivial
    (P := fun child h' _ => child = source.child newId ∧ h.ids ≤ h'.ids ∧
      Branched now source (source.child newId) v u h.all h'.all)
    (fun w₁ hw₁ => ?_) (fun child w' h' x' hw' hpost => ?_) (fun e w' hr => ?_) (fun e => ⟨h, hs, le_rfl, rfl⟩) (fun e w' _ hr => hback w' hr hs.decodes)
  · refine branchBody_at L trivial hw₁ hv hu (fun w' h' hw' hle hb => ?_)
    exact ⟨h', _, hw', ⟨rfl, hle, hb⟩, trivial⟩
  · exact wp_pure ⟨hpost.1, habs, _, ⟨hw'.sim, hw'.saved, hw'.decodes⟩, hpost.2.1, hpost.2.2⟩
  · exact wp_throw (hback w' hr hs.decodes)

/-! ## Logs -/

/-- What came through. -/
inductive Entry where
  | registered (holon : Holon)
  | branched (source child : Holon)
  | ticked (holon : Holon) (version : Nat)
deriving DecidableEq, Repr

namespace Log

def version : List Entry → NamedNode → Nat
  | [], _ => 0
  | .registered _ :: log, id => version log id
  | .branched source child :: log, id => if id = child.id then version log source.id else version log id
  | .ticked holon _ :: log, id => if id = holon.id then version log id + 1 else version log id

/-- The version a holon was made with. -/
def creation : List Entry → NamedNode → Nat
  | [], _ => 0
  | .branched source child :: log, id => if id = child.id then version log source.id else creation log id
  | _ :: log, id => creation log id

/-- How often a holon ticked. -/
def ticks : List Entry → NamedNode → Nat
  | [], _ => 0
  | .ticked holon _ :: log, id => if id = holon.id then ticks log id + 1 else ticks log id
  | _ :: log, id => ticks log id

/-- The holons made so far, by their IRIs. -/
def made : List Entry → List NamedNode
  | [] => []
  | .registered holon :: log => holon.id :: made log
  | .branched _ child :: log => child.id :: made log
  | .ticked _ _ :: log => made log

/-- The ticks, newest first. -/
def tickets : List Entry → List (Holon × Nat)
  | [] => []
  | .ticked holon v :: log => (holon, v) :: tickets log
  | _ :: log => tickets log

/-- Every branch is of a holon with a version. -/
def Versioned : List Entry → Prop
  | [] => True
  | .branched source _ :: log => version log source.id ≠ 0 ∧ Versioned log
  | _ :: log => Versioned log

end Log

/-- The log after an operation: what failed is not in it. -/
def Log.add {α : Type} (entry : α → Entry) (log : List Entry) : Except HolonError α → List Entry
  | .ok a => entry a :: log
  | .error _ => log

/-- Operations on the holons of `H`, one after another. A tick or a branch is of a holon made before. -/
inductive Run (E : RuleEngine) (V : Validation B) (H : Set Holon) (s₀ : B.State) : List Entry → B.State → Prop where
  | nil : Run E V H s₀ [] s₀
  | register {log s} (lands : Bool) (session : Session) (holon : Holon) {r} {w : World B Unit} (hrun : Run E V H s₀ log s)
      (hH : holon ∈ H) (hexec : (Registry.register lands holon).exec ⟨s, session, ()⟩ = some (r, w)) :
      Run E V H s₀ (Log.add (fun _ => .registered holon) log r) w.store
  | branch {log s} (lands : Bool) (now : Int) (session : Session) (source : Holon) (newId : NamedNode) {r} {w : World B Unit}
      (hrun : Run E V H s₀ log s) (hmade : source.id ∈ Log.made log) (hH : source.child newId ∈ H)
      (hexec : (Holos.branch lands now source newId).exec ⟨s, session, ()⟩ = some (r, w)) :
      Run E V H s₀ (Log.add (.branched source) log r) w.store
  | tick {log s} (call : TickCall E) (holon : Holon) {r s'} (hrun : Run E V H s₀ log s) (hmade : holon.id ∈ Log.made log)
      (hH : holon ∈ H) (hexec : call.run V holon s = some (r, s')) :
      Run E V H s₀ (Log.add (fun o => .ticked holon o.version) log r) s'

/-- Graphs that no two holons share. -/
structure Separate (H : Set Holon) : Prop where
  apart : ∀ holon ∈ H, holon.Apart
  boundary : ∀ holon ∈ H, holon.boundary ≠ systemGraph
  scene_events : ∀ holon ∈ H, ∀ other ∈ H, holon.scene ≠ other.events
  boundary_events : ∀ holon ∈ H, ∀ other ∈ H, holon.boundary ≠ other.events
  events : ∀ holon ∈ H, ∀ other ∈ H, holon.events = other.events → holon.id = other.id

/-! ## What the store says of them -/

structure Kept (H : Set Holon) (log : List Entry) (h : Held) (records : List TickRecord) : Prop where
  version : ∀ id, Registry.Versioned h.all id (Log.version log id)
  declared : ∀ id ∈ Log.made log, Registry.declaration id ∈ h.all
  unmade : ∀ id, id ∉ Log.made log → Log.version log id = 0 ∧ Log.ticks log id = 0
  creation : ∀ id, Log.version log id = Log.creation log id + Log.ticks log id
  matched : records.map (fun r => (r.holon, r.version)) = Log.tickets log
  recorded : ∀ r ∈ records, ∀ q ∈ Event.toQuads r, q ∈ h.all
  known : ∀ r ∈ records, r.holon ∈ H ∧ r.holon.id ∈ Log.made log ∧ r.version ≤ Log.version log r.holon.id
  distinct : records.Pairwise (fun later earlier => later.holon.id = earlier.holon.id → earlier.version < later.version)

theorem Ticked.mem_of_mem {holon : Holon} {v : Nat} {S S' : Set Quad} {r : TickRecord} (ht : Ticked holon v S S' r) {q : Quad} (hq : q ∈ S)
    (hscene : q.graphName ≠ .namedNode holon.scene) (hne : q ≠ Registry.versionQuad holon v) : q ∈ S' := by
  have hon := ht.on
  subst hon
  rw [ht.all]
  exact .inr ⟨.inl ((TickRecord.mem_replay_kept hscene).2 hq), hne⟩

theorem Registry.declaration_ne {id : NamedNode} {holon : Holon} {v : Nat} : Registry.declaration id ≠ Registry.versionQuad holon v :=
  fun heq => absurd (congrArg Quad.predicate heq) (show Vocab.rdf "type" ≠ holos "version" by decide)

/-- An event is no statement of a version. -/
theorem Event.ne_versionQuad {r : TickRecord} (ha : r.holon.Apart) {q : Quad} (hq : q ∈ Event.toQuads r) {holon : Holon} {v : Nat} :
    q ≠ Registry.versionQuad holon v := by
  intro heq
  have hgraph := Event.toQuads_graph hq
  rw [heq] at hgraph
  exact ha.events_system (GraphName.namedNode.inj hgraph).symm

namespace Kept

variable {H : Set Holon} {log : List Entry} {h h' : Held} {records : List TickRecord}

theorem congr (hk : Kept H log h records) (hall : h'.all = h.all) : Kept H log h' records :=
  ⟨fun id => by rw [hall]; exact hk.version id, fun id hid => by rw [hall]; exact hk.declared id hid, hk.unmade, hk.creation,
    hk.matched, fun r hr q hq => by rw [hall]; exact hk.recorded r hr q hq, hk.known, hk.distinct⟩

theorem register (hk : Kept H log h records) {holon : Holon} (hall : h'.all = h.all ∪ {q | q ∈ Registry.definition holon}) :
    Kept H (.registered holon :: log) h' records where
  version id := (hk.version id).congr (fun o => by rw [hall]; exact Registry.versions_definition o)
  declared id hid := by
    rw [hall]
    rcases List.mem_cons.1 hid with rfl | hid
    · exact .inr (Registry.declaration_mem holon)
    · exact .inl (hk.declared id hid)
  unmade id hid := hk.unmade id (fun hmem => hid (List.mem_cons_of_mem _ hmem))
  creation := hk.creation
  matched := hk.matched
  recorded r hr q hq := by
    rw [hall]
    exact .inl (hk.recorded r hr q hq)
  known r hr := ⟨(hk.known r hr).1, List.mem_cons_of_mem _ (hk.known r hr).2.1, (hk.known r hr).2.2⟩
  distinct := hk.distinct

theorem branch (hk : Kept H log h records) (hH : Separate H) {now : Int} {source : Holon} {newId : NamedNode}
    (hfresh : Registry.declaration newId ∉ h.all) (h0 : Log.version log source.id ≠ 0)
    (hb : Branched now source (source.child newId) (Log.version log source.id) (Log.version log newId) h.all h'.all) :
    Kept H (.branched source (source.child newId) :: log) h' records := by
  have hnew : newId ∉ Log.made log := fun hmem => hfresh (hk.declared newId hmem)
  have hother : ∀ id, id ≠ newId → Log.version (.branched source (source.child newId) :: log) id = Log.version log id :=
    fun id hne => if_neg hne
  refine ⟨fun id => ?_, fun id hid => ?_, fun id hid => ?_, fun id => ?_, hk.matched, fun r hr q hq => ?_, fun r hr => ?_, hk.distinct⟩
  · by_cases hid : id = newId
    · subst hid
      have hv := hb.versioned (hk.version id) (hk.version source.id).bound h0
      exact (show Log.version (.branched source (source.child id) :: log) id = Log.version log source.id from if_pos rfl) ▸ hv
    · rw [hother id hid]
      exact hb.versioned_other hid (hk.version id)
  · rcases List.mem_cons.1 hid with rfl | hid
    · exact hb.declared
    · exact hb.mem_of_mem (hk.declared id hid) Registry.declaration_ne
  · have hne : id ≠ newId := fun heq => hid (heq ▸ List.mem_cons_self)
    rw [hother id hne]
    exact hk.unmade id (fun hmem => hid (List.mem_cons_of_mem _ hmem))
  · by_cases hid : id = newId
    · subst hid
      have hticks : Log.ticks (.branched source (source.child id) :: log) id = 0 := (hk.unmade id hnew).2
      rw [hticks, Nat.add_zero]
      exact (if_pos rfl).trans (if_pos rfl).symm
    · rw [hother id hid, hk.creation id]
      exact congrArg (· + _) (if_neg hid).symm
  · exact hb.mem_of_mem (hk.recorded r hr q hq) (Event.ne_versionQuad (hH.apart _ (hk.known r hr).1) hq)
  · obtain ⟨hmemH, hmade, hle⟩ := hk.known r hr
    refine ⟨hmemH, List.mem_cons_of_mem _ hmade, ?_⟩
    rw [hother _ (fun heq => hnew (heq ▸ hmade))]
    exact hle

theorem tick (hk : Kept H log h records) (hH : Separate H) {holon : Holon} (hmem : holon ∈ H) (hmade : holon.id ∈ Log.made log)
    {r : TickRecord} (ht : Ticked holon (Log.version log holon.id) h.all h'.all r) :
    Kept H (.ticked holon r.version :: log) h' (r :: records) := by
  have ha := hH.apart holon hmem
  have hother : ∀ id, id ≠ holon.id → Log.version (.ticked holon r.version :: log) id = Log.version log id := fun id hne => if_neg hne
  have hself : Log.version (.ticked holon r.version :: log) holon.id = Log.version log holon.id + 1 := if_pos rfl
  refine ⟨fun id => ?_, fun id hid => ?_, fun id hid => ?_, fun id => ?_, ?_, fun r' hr' q hq => ?_, fun r' hr' => ?_, ?_⟩
  · by_cases hid : id = holon.id
    · subst hid
      rw [hself]
      exact ht.versioned ha (hk.version holon.id)
    · rw [hother id hid]
      exact ht.versioned_other ha hid (hk.version id)
  · refine ht.mem_of_mem (hk.declared id hid) (fun heq => ?_) Registry.declaration_ne
    exact ha.scene_system (GraphName.namedNode.inj heq).symm
  · have hne : id ≠ holon.id := fun heq => hid (heq ▸ hmade)
    rw [hother id hne, show Log.ticks (.ticked holon r.version :: log) id = Log.ticks log id from if_neg hne]
    exact hk.unmade id hid
  · by_cases hid : id = holon.id
    · subst hid
      rw [hself, hk.creation holon.id, show Log.ticks (.ticked holon r.version :: log) holon.id = Log.ticks log holon.id + 1 from if_pos rfl]
      rfl
    · rw [hother id hid, hk.creation id, show Log.ticks (.ticked holon r.version :: log) id = Log.ticks log id from if_neg hid]
      rfl
  · rw [List.map_cons, hk.matched, ht.on]
    rfl
  · rcases List.mem_cons.1 hr' with rfl | hr'
    · have hgraph := Event.toQuads_graph hq
      rw [ht.on] at hgraph
      exact (ht.mem_events ha hgraph).2 (.inr hq)
    · have hin := (hk.known r' hr').1
      refine ht.mem_of_mem (hk.recorded r' hr' q hq) (fun heq => ?_) (Event.ne_versionQuad (hH.apart _ hin) hq)
      exact hH.scene_events holon hmem r'.holon hin (GraphName.namedNode.inj (heq.symm.trans (Event.toQuads_graph hq)))
  · rcases List.mem_cons.1 hr' with rfl | hr'
    · rw [ht.on, ht.version]
      exact ⟨hmem, hmade, le_of_eq (if_pos rfl).symm⟩
    · obtain ⟨hin, hmade', hle⟩ := hk.known r' hr'
      refine ⟨hin, hmade', ?_⟩
      by_cases hid : r'.holon.id = holon.id
      · rw [hid, hself]
        rw [hid] at hle
        omega
      · rw [hother _ hid]
        exact hle
  · refine List.pairwise_cons.2 ⟨fun r' hr' hid => ?_, hk.distinct⟩
    obtain ⟨-, -, hle⟩ := hk.known r' hr'
    rw [← hid, ht.on] at hle
    rw [ht.version]
    omega

end Kept

theorem Run.kept (L : B.Lawful Sim Open) {V : Validation B} {H : Set Holon} (hH : Separate H) {s₀ s : B.State} {h₀ : Held}
    (hs₀ : Settled Sim s₀ h₀) (hnew : ∀ id, Registry.versions h₀.all id = ∅) {log : List Entry} (hrun : Run E V H s₀ log s)
    (hv : Log.Versioned log) : ∃ h records, Settled Sim s h ∧ Kept H log h records := by
  induction hrun with
  | nil =>
    have hzero : ∀ id, Registry.Versioned h₀.all id 0 :=
      fun id => ⟨by decide, fun o => ⟨fun ho => absurd ho (by rw [hnew id]; exact Set.notMem_empty o), fun ho => absurd rfl ho.1⟩⟩
    exact ⟨h₀, [], hs₀, hzero, by simp [Log.made], fun _ _ => ⟨rfl, rfl⟩, fun _ => rfl, rfl, by simp, by simp, .nil⟩
  | @register log s lands session holon r w hrun hmem hexec ih =>
    cases r with
    | ok _ =>
      obtain ⟨h, records, hs, hk⟩ := ih hv
      obtain ⟨h', hs', -, hall⟩ := (register_wp L (w := ⟨s, session, ()⟩) hs).ok hexec
      exact ⟨h', records, hs', hk.register hall⟩
    | error e =>
      obtain ⟨h, records, hs, hk⟩ := ih hv
      obtain ⟨h', hs', hle, hcontents⟩ := (register_wp L (w := ⟨s, session, ()⟩) hs).error hexec
      exact ⟨h', records, hs', hk.congr (Held.all_of_contents hcontents hle hs.decodes)⟩
  | @branch log s lands now session source newId r w hrun hmade hmem hexec ih =>
    cases r with
    | ok child =>
      obtain ⟨h, records, hs, hk⟩ := ih hv.2
      obtain ⟨rfl, hfresh, h', hs', -, hb⟩ :=
        (branch_wp L (w := ⟨s, session, ()⟩) hs (hk.version source.id) (hk.version newId)).ok hexec
      exact ⟨h', records, hs', hk.branch hH hfresh hv.1 hb⟩
    | error e =>
      obtain ⟨h, records, hs, hk⟩ := ih hv
      obtain ⟨h', hs', hle, hcontents⟩ :=
        (branch_wp L (w := ⟨s, session, ()⟩) hs (hk.version source.id) (hk.version newId)).error hexec
      exact ⟨h', records, hs', hk.congr (Held.all_of_contents hcontents hle hs.decodes)⟩
  | @tick log s call holon r s' hrun hmade hmem hexec ih =>
    cases r with
    | ok o =>
      obtain ⟨h, records, hs, hk⟩ := ih hv
      rcases call.run_spec L hs (hH.apart holon hmem) (hk.version holon.id) hexec with ⟨e, he, -⟩ | ⟨o', h', r, he, hs', -, ht, ho, -⟩
      · cases he
      · cases he
        have hentry : Log.add (fun o : TickOutcome V.Report => .ticked holon o.version) log (.ok o) = .ticked holon r.version :: log :=
          congrArg (fun n => Entry.ticked holon n :: log) ho
        exact ⟨h', r :: records, hs', hentry ▸ hk.tick hH hmem hmade ht⟩
    | error e =>
      obtain ⟨h, records, hs, hk⟩ := ih hv
      rcases call.run_spec L hs (hH.apart holon hmem) (hk.version holon.id) hexec with ⟨e, he, h', hs', hle, hcontents⟩ | ⟨o', -, -, he, -⟩
      · exact ⟨h', records, hs', hk.congr (Held.all_of_contents hcontents hle hs.decodes)⟩
      · cases he

/-- In a run from a system graph that says nothing of versions, in which no holon of version zero
is branched: every holon's version is the one it was made with and its ticks, nothing else is
said of it, and every tick has its event, under a node and a number no other tick of the log has. -/
theorem versions_kept (L : B.Lawful Sim Open) {V : Validation B} {H : Set Holon} (hH : Separate H) {s₀ s : B.State} {h₀ : Held}
    (hs₀ : Settled Sim s₀ h₀) (hnew : ∀ id, Registry.versions h₀.all id = ∅) {log : List Entry} (hrun : Run E V H s₀ log s)
    (hv : Log.Versioned log) :
    ∃ (h : Held) (records : List TickRecord), Settled Sim s h ∧
      (∀ holon : Holon, (Registry.versions h.all holon.id).Subsingleton ∧ ∀ session n (w : World B Unit),
        (Registry.version holon).exec ⟨s, session, ()⟩ = some (.ok n, w) → n = Log.creation log holon.id + Log.ticks log holon.id) ∧
      records.map (fun r => (r.holon, r.version)) = Log.tickets log ∧ (∀ r ∈ records, ∀ q ∈ Event.toQuads r, q ∈ h.all) ∧
      records.Pairwise (fun r r' => r.holon.events = r'.holon.events →
        r.version ≠ r'.version ∧ Event.tick r.version ≠ Event.tick r'.version) := by
  obtain ⟨h, records, hs, hk⟩ := hrun.kept L hH hs₀ hnew hv
  refine ⟨h, records, hs, fun holon => ⟨?_, fun session n w hexec => ?_⟩, hk.matched, hk.recorded, ?_⟩
  · intro o ho o' ho'
    rw [((hk.version _).said o).1 ho |>.2, ((hk.version _).said o').1 ho' |>.2]
  · have hwp : wp (Registry.version holon : Eff HolonError (World B Unit) Nat) (fun n _ => n = Log.version log holon.id)
        (fun _ _ => True) ⟨s, session, ()⟩ :=
      Registry.version_versioned L hs.sim hs.decodes (fun _ => trivial) (hk.version holon.id) rfl
    rw [hwp.ok hexec]
    exact hk.creation holon.id
  · refine hk.distinct.imp_of_mem (fun {r r'} hr hr' hlt hevents => ?_)
    have hid := hH.events _ (hk.known r hr).1 _ (hk.known r' hr').1 hevents
    have hne : r.version ≠ r'.version := (hlt hid).ne'
    exact ⟨hne, fun heq => hne (Event.tick_injective heq)⟩

/-! ## A holon in memory, its tick and its branches -/

namespace InMemory

/-- Two holons that share no graph. -/
theorem separate : Separate ({parent, child} : Set Holon) where
  apart holon hH := by
    rcases hH with rfl | rfl
    · exact Holon.new_apart _
    · exact Holon.child_apart _ _
  boundary holon hH := by rcases hH with rfl | rfl <;> decide
  scene_events holon hH other hO := by rcases hH with rfl | rfl <;> rcases hO with rfl | rfl <;> decide
  boundary_events holon hH other hO := by rcases hH with rfl | rfl <;> rcases hO with rfl | rfl <;> decide
  events holon hH other hO := by
    rcases hH with rfl | rfl <;> rcases hO with rfl | rfl
    · exact fun _ => rfl
    · exact fun heq => absurd heq (by decide)
    · exact fun heq => absurd heq (by decide)
    · exact fun _ => rfl

def registering : Option (Except HolonError Unit × World Memory Unit) :=
  (Registry.register true parent).exec ⟨.new, session, ()⟩

def branching (s : MemoryStorage) : Option (Except HolonError Holon × World Memory Unit) :=
  (Holos.branch true 0 parent "urn:child").exec ⟨s, session, ()⟩

/-- Register the parent, tick it and branch it. -/
def story : Option Bool :=
  registering.bind (fun a => (call.run refusing parent a.2.store).bind (fun b =>
    (branching b.2).map (fun _ => a.1.isOk && b.1.isOk)))

/-- The numbers of the child's first two ticks, its version after them, and how many versions the
system graph says. -/
def frozen : Option (Nat × Nat × Nat × Nat) :=
  let program : Eff HolonError (Ticking Memory rules) (Nat × Nat × Nat × Nat) := do
    let first ← tickWithRules child call.lands refusing call.now call.delta
    let second ← tickWithRules child call.lands refusing call.now call.delta
    let id ← World.lookupTerm (.namedNode child.id)
    let predicate ← World.lookupTerm (.namedNode (holos "version"))
    let said ← World.quadsForPattern id predicate none .anyNamed
    return (first.version, second.version, ← Registry.version child, said.length)
  branched.bind (fun b => (program.exec ⟨b.2, session, none⟩).bind (fun r => r.1.toOption))

end InMemory

open InMemory in
theorem versions_kept_branched : ∃ log s, Run rules refusing {parent, child} MemoryStorage.new log s ∧
    Log.ticks log parent.id = 1 ∧ ∃ (h : Held) (records : List TickRecord), Settled (MemoryStorage.Stands Dictionary.bare) s h ∧
      (Registry.versions h.all child.id).Subsingleton ∧ records.map (fun r => (r.holon, r.version)) = Log.tickets log := by
  have hstory : story = some true := by decide +kernel
  unfold story at hstory
  obtain ⟨⟨r₁, w₁⟩, hreg, hstory⟩ := Option.bind_eq_some_iff.1 hstory
  obtain ⟨⟨r₂, s₂⟩, htick, hstory⟩ := Option.bind_eq_some_iff.1 hstory
  obtain ⟨⟨r₃, w₃⟩, hbranch, hguard⟩ := Option.map_eq_some_iff.1 hstory
  have hok : r₁.isOk = true ∧ r₂.isOk = true := (Bool.and_eq_true _ _).mp hguard
  cases r₁ with
  | error e => exact absurd hok.1 (by simp [Except.isOk, Except.toBool])
  | ok u₁ =>
    cases r₂ with
    | error e => exact absurd hok.2 (by simp [Except.isOk, Except.toBool])
    | ok o₂ =>
      have hfirst : Run rules refusing {parent, child} MemoryStorage.new [.registered parent] w₁.store :=
        .register true session parent .nil (Set.mem_insert _ _) hreg
      have hsecond := Run.tick call parent hfirst List.mem_cons_self (Set.mem_insert _ _) htick
      have hthird := Run.branch true 0 session parent "urn:child" hsecond List.mem_cons_self
        (Set.mem_insert_of_mem _ (Set.mem_singleton _)) hbranch
      have hv : Log.Versioned (Log.add (.branched parent) [.ticked parent o₂.version, .registered parent] r₃) := by
        cases r₃ with
        | error e => exact trivial
        | ok c => exact ⟨by simp [Log.version], trivial⟩
      have hnew : ∀ id, Registry.versions (⟨.empty, MemoryStorage.idsOf Dictionary.bare_lawful Dictionary.new_valid, none⟩ : Held).all id = ∅ :=
        fun id => Set.eq_empty_of_forall_notMem (fun o ⟨_, _, hmem⟩ => by cases hmem)
      obtain ⟨h, records, hs, hversion, hmatched, -, -⟩ :=
        versions_kept (MemoryStorage.lawful Dictionary.bare_lawful) separate new_settled hnew hthird hv
      refine ⟨_, _, hthird, ?_, h, records, hs, (hversion child).1, hmatched⟩
      cases r₃ <;> simp [Log.add, Log.ticks]

/-- Both ticks are number 1, the version is 0 after them, and 0 and 1 are both said. -/
theorem branch_of_unticked_freezes : InMemory.frozen = some (1, 1, 0, 2) := by decide +kernel

end Holos
