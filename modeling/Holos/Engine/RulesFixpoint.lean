import Holos.Engine.Idle
import Holos.Engine.Rules
import Holos.Lib.Saturation
import Holos.Store.MemoryBackend
import Mathlib.Data.Set.Card
/-!
# Rules reach their fixpoint

A rule that means something monotone turns the derived graph into consequences. `materialise` goes
through the stages of the derived graph's saturation, and returns at the first that has all its
consequences.
-/

namespace Holos.Engine.Rules

open Lib Lib.Eff Security

/-! ## What rules mean -/

/-- A dataset up to the order of what it holds: the default graph, and the quads of the named graphs. -/
abbrev Facts := Set Triple × Set Quad

def Dataset.facts (d : Dataset) : Facts := ({t | t ∈ d.defaultGraph}, {q | q ∈ d.namedGraphs})

/-- An answer is what its query means of the dataset it was asked of. -/
def Means (evaluate : Evaluate) (meaning : String → Facts →o Set Triple) : Prop :=
  ∀ text d triples fresh, evaluate text d = .ok (.graph triples) → collect [] triples = .ok fresh → {t | t ∈ fresh} = meaning text d.facts

/-- What the rules read of a store: its default graph with the derived graph, and every named graph. -/
def facts (graph : NamedNode) (all : Set Quad) : Facts :=
  ({t | t.inGraph .defaultGraph ∈ all ∨ t.inGraph (.namedNode graph) ∈ all}, {q ∈ all | q.graphName ≠ .defaultGraph})

/-- The quads of a store whose graph holds `X` in place of what it held. -/
def holding (graph : NamedNode) (all : Set Quad) (X : Set Triple) : Set Quad :=
  {q | if q.graphName = .namedNode graph then q.triple ∈ X else q ∈ all}

section
variable {graph : NamedNode} {all : Set Quad} {X Y : Set Triple} {t : Triple}

theorem facts_mono : Monotone (facts graph) := fun _ _ h =>
  ⟨fun _ ht => ht.imp (fun ht => h ht) (fun ht => h ht), fun _ hq => ⟨h hq.1, hq.2⟩⟩

theorem holding_mono (h : X ⊆ Y) : holding graph all X ⊆ holding graph all Y := by
  intro q hq
  unfold holding at hq ⊢
  rw [Set.mem_ofPred_eq] at hq ⊢
  split_ifs at hq ⊢ with hg
  · exact h hq
  · exact hq

@[simp] theorem mem_holding : t.inGraph (.namedNode graph) ∈ holding graph all X ↔ t ∈ X := by
  simp [holding]

/-- What it held is its own. -/
theorem holding_self : holding graph all {t | t.inGraph (.namedNode graph) ∈ all} = all := by
  ext q
  unfold holding
  rw [Set.mem_ofPred_eq]
  split_ifs with hg
  · rw [Set.mem_ofPred_eq, ← hg, Quad.inGraph_triple]
  · rfl

@[simp] theorem holding_holding : holding graph (holding graph all X) Y = holding graph all Y := by
  ext q
  unfold holding
  simp only [Set.mem_ofPred_eq]
  split_ifs <;> rfl

theorem holding_insert : Insert.insert (t.inGraph (.namedNode graph)) (holding graph all X) = holding graph all (Insert.insert t X) := by
  ext q
  unfold holding
  simp only [Set.mem_insert_iff, Set.mem_ofPred_eq]
  split_ifs with hg
  · have heq : q = t.inGraph (.namedNode graph) ↔ q.triple = t := by
      constructor
      · rintro rfl
        rfl
      · rintro rfl
        rw [← hg, Quad.inGraph_triple]
    rw [heq]
  · have hne : q ≠ t.inGraph (.namedNode graph) := by
      rintro rfl
      exact hg rfl
    simp [hne]

end

/-- What follows in one step from a derived graph, the rest of the store being as it is. -/
def consequences (meaning : String → Facts →o Set Triple) (rules : RuleSet) (graph : NamedNode) (all : Set Quad) :
    Set Triple →o Set Triple where
  toFun X := {t | ∃ rule ∈ rules.rules, t ∈ meaning rule.text (facts graph (holding graph all X))}
  monotone' _ _ h _ := fun ⟨rule, hrule, ht⟩ => ⟨rule, hrule, (meaning rule.text).mono (facts_mono (holding_mono h)) ht⟩

section
variable {meaning : String → Facts →o Set Triple} {rules rules' : RuleSet} {graph : NamedNode} {all : Set Quad} {X : Set Triple}

theorem mem_consequences {t : Triple} :
    t ∈ consequences meaning rules graph all X ↔ ∃ rule ∈ rules.rules, t ∈ meaning rule.text (facts graph (holding graph all X)) := Iff.rfl

@[simp] theorem consequences_holding : consequences meaning rules graph (holding graph all X) = consequences meaning rules graph all := by
  ext Y t
  simp [mem_consequences]

/-- The order of the rules does not matter. -/
theorem consequences_perm (h : rules'.rules.Perm rules.rules) :
    consequences meaning rules' graph all = consequences meaning rules graph all := by
  ext X t
  simp [mem_consequences, h.mem_iff]

end

/-! ## Reading -/

section
variable {B : Backend} {Sim : B.State → Held → Prop} {Open : B.State → Contents × Ids → Prop} {ρ : Type}
variable {session : Session} {x : ρ} {w : World B ρ} {h : Held} {graph : NamedNode}

theorem readDataset_reads (L : B.Lawful Sim Open) (hw : Idle Sim session x w h) (hopen : session.compiled.Open)
    {Q : Dataset → World B ρ → Prop} {E : EngineError → World B ρ → Prop} (hE : ∀ e, E e w)
    (hQ : ∀ d, d.facts = facts graph h.all → Q d w) :
    wp (readDataset (reading graph) : Eff EngineError (World B ρ) Dataset) Q E w := by
  apply wp_mapError
  apply wp_bind
  simp only [reading, Option.getD_some, List.foldlM_cons, List.foldlM_nil, bind_pure]
  apply wp_bind
  apply wp_bind
  refine visibleQuads_open L hw hopen (fun e => hE _) (fun qs₁ h₁ => wp_pure ?_)
  apply wp_bind
  refine visibleQuads_open L hw hopen (fun e => hE _) (fun qs₂ h₂ => wp_pure ?_)
  apply wp_bind
  refine visibleQuads_all_open L hw hopen (fun e => hE _) (fun qs₃ h₃ => wp_pure (hQ _ ?_))
  have hmem : ∀ {qs : List Quad} {name : GraphName}, (∀ q, q ∈ qs ↔ q ∈ h.all ∧ q.graphName = name) → ∀ t : Triple,
      (∃ q ∈ qs, q.triple = t) ↔ t.inGraph name ∈ h.all := by
    intro qs name hqs t
    constructor
    · rintro ⟨q, hq, rfl⟩
      obtain ⟨hq, rfl⟩ := (hqs q).1 hq
      exact hq
    · intro ht
      exact ⟨_, (hqs _).2 ⟨ht, rfl⟩, rfl⟩
  refine Prod.ext ?_ ?_
  · ext t
    simp [Dataset.facts, facts, hmem h₁, hmem h₂]
  · ext q
    simp [Dataset.facts, facts, h₃]

theorem collect_append {fresh out : List Triple} {triples : List (Except EngineError Triple)} (h : collect fresh triples = .ok out) :
    ∃ ts, collect [] triples = .ok ts ∧ out = fresh ++ ts := by
  suffices hgen : ∀ triples fresh pre out, collect (pre ++ fresh) triples = .ok out →
      ∃ ts, collect fresh triples = .ok ts ∧ out = pre ++ ts from
    hgen triples [] fresh out (by rwa [List.append_nil])
  intro triples
  induction triples with
  | nil =>
    intro fresh pre out h
    cases h
    exact ⟨fresh, rfl, rfl⟩
  | cons r triples ih =>
    intro fresh pre out h
    cases r with
    | ok t =>
      rw [collect, List.append_assoc] at h
      exact ih (fresh ++ [t]) pre out h
    | error e => cases h

section
variable {evaluate : Evaluate} {meaning : String → Facts →o Set Triple} (hm : Means evaluate meaning)
include hm

/-- A rule adds what it means of the store. -/
theorem evaluate_reads (L : B.Lawful Sim Open) (hw : Idle Sim session x w h) (hopen : session.compiled.Open) {rule : Rule}
    {fresh : List Triple} {Q : List Triple → World B ρ → Prop} {E : Failure → World B ρ → Prop} (hE : ∀ e, E (.engine e) w)
    (hQ : ∀ ts, {t | t ∈ ts} = meaning rule.text (facts graph h.all) → Q (fresh ++ ts) w) :
    wp (rule.evaluate evaluate (reading graph) fresh : Eff Failure (World B ρ) (List Triple)) Q E w := by
  apply wp_mapError
  apply wp_bind
  apply wp_mapError
  apply wp_bind
  refine readDataset_reads L hw hopen (fun e => hE _) (fun d hd => ?_)
  cases hres : evaluate rule.text d with
  | error e => exact wp_throw (hE _)
  | ok results =>
    refine wp_pure ?_
    cases results with
    | other => exact wp_throw (hE _)
    | graph triples =>
      dsimp only
      cases hc : collect fresh triples with
      | error e => exact wp_throw (hE _)
      | ok out =>
        obtain ⟨ts, hts, rfl⟩ := collect_append hc
        refine wp_pure (hQ ts ?_)
        rw [hm _ _ _ _ hres hts, hd]

/-- A round evaluates to the consequences of what the graph holds. -/
theorem derive_reads (L : B.Lawful Sim Open) (hw : Idle Sim session x w h) (hopen : session.compiled.Open) {rules : RuleSet}
    {all : Set Quad} {X : Set Triple} (hall : h.all = holding graph all X) {Q : List Triple → World B ρ → Prop}
    {E : Failure → World B ρ → Prop} (hE : ∀ e, E (.engine e) w)
    (hQ : ∀ fresh, {t | t ∈ fresh} = consequences meaning rules graph all X → Q fresh w) :
    wp (rules.rules.foldlM (fun fresh rule => rule.evaluate evaluate (reading graph) fresh) [] : Eff Failure (World B ρ) (List Triple)) Q E w := by
  refine (wp_foldlM (I := fun done fresh w' => w' = w ∧ ∀ t, t ∈ fresh ↔ ∃ rule ∈ done, t ∈ meaning rule.text (facts graph h.all))
    ⟨rfl, by simp⟩ ?_).mono ?_ (fun _ _ h => h)
  · rintro done rule rest fresh w' - ⟨rfl, hfresh⟩
    refine evaluate_reads hm L hw hopen hE (fun ts hts => ⟨rfl, fun t => ?_⟩)
    have hmem : t ∈ ts ↔ t ∈ meaning rule.text (facts graph h.all) := by
      rw [← hts]
      rfl
    rw [List.mem_append, hfresh, hmem]
    simp only [List.mem_append, List.mem_singleton, or_and_right, exists_or, exists_eq_left]
  · rintro fresh w' ⟨rfl, hfresh⟩
    refine hQ fresh (Set.ext (fun t => ?_))
    rw [mem_consequences, ← hall]
    exact hfresh t

end

/-! ## Writing -/

/-- A run over `all`, whose graph began with `X₀` and holds `X` now. -/
structure Run (Sim : B.State → Held → Prop) (session : Session) (x : ρ) (graph : NamedNode) (all : Set Quad) (X : Set Triple)
    (w : World B ρ) (h : Held) : Prop extends Idle Sim session x w h where
  holds : h.all = holding graph all X

/-- Where a run that failed has got to: not past what follows. -/
def Short (Sim : B.State → Held → Prop) (session : Session) (x : ρ) (graph : NamedNode) (all : Set Quad) (X₀ Y : Set Triple)
    (_ : Failure) (w : World B ρ) : Prop :=
  ∃ h X, Run Sim session x graph all X w h ∧ X₀ ⊆ X ∧ X ⊆ Y

/-- The triples new to the graph, counted. -/
structure Counts (X₀ X : Set Triple) (added : Nat) : Prop where
  finite : (X \ X₀).Finite
  card : (X \ X₀).ncard = added

theorem Counts.insert {X₀ X : Set Triple} {added : Nat} (hc : Counts X₀ X added) (hle : X₀ ⊆ X) {t : Triple} (ht : t ∉ X) :
    Counts X₀ (Insert.insert t X) (added + 1) := by
  have hsdiff : Insert.insert t X \ X₀ = Insert.insert t (X \ X₀) := Set.insert_sdiff_of_notMem X (fun h => ht (hle h))
  constructor
  · rw [hsdiff]
    exact hc.finite.insert t
  · rw [hsdiff, Set.ncard_insert_of_notMem (fun h => ht h.1) hc.finite, hc.card]

section
variable {all : Set Quad} {X₀ X Y : Set Triple} {budget : Nat}

/-- What a round inserts is all there afterwards, and the round counted nothing if it was there before. -/
theorem insertFresh_writes (L : B.Lawful Sim Open) (hrun : Run Sim session x graph all X w h) {added : Nat} (hc : Counts X₀ X added)
    (hX₀ : X₀ ⊆ X) {fresh : List Triple} (hterm : ∀ t ∈ fresh, t.object.isTriple = false ∨ B.EncodesTriples Sim)
    (hY : X ∪ {t | t ∈ fresh} ⊆ Y) {Q : Nat × Nat → World B ρ → Prop}
    (hQ : ∀ counts w' h', Run Sim session x graph all (X ∪ {t | t ∈ fresh}) w' h' → (counts.1 = 0 ↔ {t | t ∈ fresh} ⊆ X) →
      Counts X₀ (X ∪ {t | t ∈ fresh}) counts.2 → Q counts w') :
    wp (fresh.foldlM (insertFresh graph budget) (0, added) : Eff Failure (World B ρ) (Nat × Nat)) Q
      (Short Sim session x graph all X₀ Y) w := by
  refine (wp_foldlM (I := fun done counts w' => ∃ h', Run Sim session x graph all (X ∪ {t | t ∈ done}) w' h' ∧
    (counts.1 = 0 ↔ {t | t ∈ done} ⊆ X) ∧ Counts X₀ (X ∪ {t | t ∈ done}) counts.2) ⟨h, ?_, ?_, ?_⟩ ?_).mono ?_ (fun _ _ h => h)
  · simpa using hrun
  · simp
  · simpa using hc
  · rintro done t rest counts w₁ hl ⟨h₁, hrun₁, hzero, hcount⟩
    have hmem : t ∈ fresh := by
      rw [hl]
      simp
    have hdone : X ∪ {t' | t' ∈ done ++ [t]} = Insert.insert t (X ∪ {t | t ∈ done}) := by
      ext t'
      simp only [Set.mem_union, Set.mem_ofPred_eq, List.mem_append, List.mem_singleton, Set.mem_insert_iff]
      tauto
    have hpast : X₀ ⊆ X ∪ {t | t ∈ done} := fun t' ht' => .inl (hX₀ ht')
    apply wp_bind
    refine World.insert_rests L hrun₁.toIdle (hterm t hmem) (fun b w₂ h₂ hw₂ hall hb => ?_)
    rw [hrun₁.holds, holding_insert, ← hdone] at hall
    rw [hrun₁.holds, mem_holding] at hb
    have hrun₂ : Run Sim session x graph all (X ∪ {t' | t' ∈ done ++ [t]}) w₂ h₂ := ⟨hw₂, hall⟩
    cases b with
    | true =>
      have hnew : t ∉ X ∪ {t | t ∈ done} := hb.1 rfl
      have hcount' : Counts X₀ (X ∪ {t' | t' ∈ done ++ [t]}) (counts.2 + 1) := by
        rw [hdone]
        exact hcount.insert hpast hnew
      dsimp only
      rw [if_pos rfl]
      apply wp_ite
      · -- over the budget: what was inserted so far follows from the rules
        refine fun _ => wp_bind (wp_throw ⟨h₂, _, hrun₂, fun t' ht' => .inl (hX₀ ht'), fun t' ht' => hY ?_⟩)
        refine ht'.imp id (fun ht' => ?_)
        rw [Set.mem_ofPred_eq, hl, List.append_cons, List.mem_append]
        exact .inl ht'
      · refine fun _ => wp_pure ⟨h₂, hrun₂, ?_, hcount'⟩
        have hno : ¬ {t' | t' ∈ done ++ [t]} ⊆ X := fun h => hnew (.inl (h (by simp)))
        exact iff_of_false (Nat.succ_ne_zero _) hno
    | false =>
      have hold : t ∈ X ∪ {t | t ∈ done} := by
        by_contra hnew
        exact Bool.false_ne_true (hb.2 hnew)
      have hsame : X ∪ {t' | t' ∈ done ++ [t]} = X ∪ {t | t ∈ done} := by
        rw [hdone, Set.insert_eq_of_mem hold]
      dsimp only
      rw [if_neg Bool.false_ne_true]
      refine wp_pure ⟨h₂, hrun₂, hzero.trans ?_, by rwa [hsame]⟩
      rw [← Set.union_eq_left, ← Set.union_eq_left, hsame]
  · rintro counts w' ⟨h', hrun', hzero, hcount⟩
    exact hQ counts w' h' hrun' hzero hcount

end

/-! ## Rounds -/

/-- The rules derive no triple terms, or the store gives those their ids like any other term. -/
def Writable (B : Backend) (Sim : B.State → Held → Prop) (meaning : String → Facts →o Set Triple) (rules : RuleSet) : Prop :=
  (∀ rule ∈ rules.rules, ∀ f, ∀ t ∈ meaning rule.text f, t.object.isTriple = false) ∨ B.EncodesTriples Sim

section
variable {evaluate : Evaluate} {meaning : String → Facts →o Set Triple} {rules : RuleSet} {all : Set Quad} {X₀ : Set Triple}
  {budget maxRounds : Nat}

/-- Every stage follows from the rules, and so does everything on the way to the next one. -/
theorem round_writes (L : B.Lawful Sim Open) (hm : Means evaluate meaning) (hopen : session.compiled.Open)
    (hterm : Writable B Sim meaning rules) {n added : Nat}
    (hrun : Run Sim session x graph all (stage (consequences meaning rules graph all) X₀ n) w h)
    (hc : Counts X₀ (stage (consequences meaning rules graph all) X₀ n) added) {Q : Nat × Nat → World B ρ → Prop}
    (hQ : ∀ counts w' h', Run Sim session x graph all (stage (consequences meaning rules graph all) X₀ (n + 1)) w' h' →
      (counts.1 = 0 ↔ consequences meaning rules graph all (stage (consequences meaning rules graph all) X₀ n) ≤
        stage (consequences meaning rules graph all) X₀ n) →
      Counts X₀ (stage (consequences meaning rules graph all) X₀ (n + 1)) counts.2 → Q counts w') :
    wp (round evaluate rules graph budget added : Eff Failure (World B ρ) (Nat × Nat)) Q
      (Short Sim session x graph all X₀ (saturation (consequences meaning rules graph all) X₀)) w := by
  have hX₀ : X₀ ⊆ stage (consequences meaning rules graph all) X₀ n := le_stage
  have hshort : ∀ e, Short Sim session x graph all X₀ (saturation (consequences meaning rules graph all) X₀) e w :=
    fun e => ⟨h, _, hrun, hX₀, stage_le_saturation⟩
  apply wp_bind
  refine derive_reads hm L hrun.toIdle hopen hrun.holds (fun e => hshort _) (fun fresh hfresh => ?_)
  have hnext : stage (consequences meaning rules graph all) X₀ n ∪ {t | t ∈ fresh} =
      stage (consequences meaning rules graph all) X₀ (n + 1) := by
    rw [hfresh, stage_succ]
    rfl
  refine insertFresh_writes L hrun hc hX₀ (fun t ht => ?_) (hnext.le.trans stage_le_saturation) (fun counts w' h' hrun' hzero hcount => ?_)
  · refine hterm.imp (fun hno => ?_) id
    have ht' : t ∈ {t | t ∈ fresh} := ht
    rw [hfresh] at ht'
    obtain ⟨rule, hrule, ht'⟩ := mem_consequences.1 ht'
    exact hno rule hrule _ t ht'
  · rw [hnext] at hrun' hcount
    rw [hfresh] at hzero
    exact hQ counts w' h' hrun' hzero hcount

/-- The rounds go through the stages, and end at the first that is closed. -/
theorem rounds_writes (L : B.Lawful Sim Open) (hm : Means evaluate meaning) (hopen : session.compiled.Open)
    (hterm : Writable B Sim meaning rules) {left : Nat} : ∀ {n added : Nat} {w : World B ρ} {h : Held}, n + left = maxRounds →
    Run Sim session x graph all (stage (consequences meaning rules graph all) X₀ n) w h →
    Counts X₀ (stage (consequences meaning rules graph all) X₀ n) added →
    (∀ m < n, ¬ consequences meaning rules graph all (stage (consequences meaning rules graph all) X₀ m) ≤
      stage (consequences meaning rules graph all) X₀ m) →
    wp (rounds evaluate rules graph budget maxRounds left added : Eff Failure (World B ρ) Derived)
      (fun d w' => ∃ h', Run Sim session x graph all (saturation (consequences meaning rules graph all) X₀) w' h' ∧
        d = ⟨(saturation (consequences meaning rules graph all) X₀ \ X₀).ncard, depth (consequences meaning rules graph all) X₀ + 1⟩)
      (Short Sim session x graph all X₀ (saturation (consequences meaning rules graph all) X₀)) w := by
  induction left with
  | zero =>
    intro n added w h _ hrun _ _
    exact wp_throw ⟨h, _, hrun, le_stage, stage_le_saturation⟩
  | succ left ih =>
    intro n added w h hn hrun hc hbefore
    apply wp_bind
    refine round_writes L hm hopen hterm hrun hc (fun counts w₁ h₁ hrun₁ hzero hcount => ?_)
    apply wp_ite
    · intro hnone
      have hclosed := hzero.1 hnone
      have hstage := stage_eq_saturation hclosed
      have hlast : stage (consequences meaning rules graph all) X₀ (n + 1) = saturation (consequences meaning rules graph all) X₀ := by
        rw [stage_succ, sup_eq_left.2 hclosed, hstage]
      rw [hlast] at hrun₁ hcount
      refine wp_pure ⟨h₁, hrun₁, ?_⟩
      rw [hcount.card, depth_eq hclosed hbefore, show maxRounds - left = n + 1 by omega]
    · intro hsome
      refine ih (by omega) hrun₁ hcount (fun m hlt => ?_)
      rcases Nat.lt_succ_iff_lt_or_eq.1 hlt with hlt | rfl
      · exact hbefore m hlt
      · exact fun hclosed => hsome (hzero.2 hclosed)

/-- A run ends with the saturation of what the graph held. -/
theorem materialise_saturates (L : B.Lawful Sim Open) (hm : Means evaluate meaning) (hopen : session.compiled.Open)
    (hterm : Writable B Sim meaning rules) (hw : Idle Sim session x w h) :
    wp (materialise evaluate rules graph budget maxRounds : Eff Failure (World B ρ) Derived)
      (fun d w' => ∃ h', Run Sim session x graph h.all (saturation (consequences meaning rules graph h.all) (h.graph graph)) w' h' ∧
        d = ⟨(saturation (consequences meaning rules graph h.all) (h.graph graph) \ h.graph graph).ncard,
          depth (consequences meaning rules graph h.all) (h.graph graph) + 1⟩)
      (Short Sim session x graph h.all (h.graph graph) (saturation (consequences meaning rules graph h.all) (h.graph graph))) w := by
  have hempty : h.graph graph \ h.graph graph = ∅ := Set.sdiff_self
  refine rounds_writes L hm hopen hterm (Nat.zero_add _) ⟨hw, holding_self.symm⟩ ⟨?_, ?_⟩ (fun m hm => absurd hm (Nat.not_lt_zero m))
  · rw [stage_zero, hempty]
    exact Set.finite_empty
  · rw [stage_zero, hempty, Set.ncard_empty]

/-! ## A graph that has all its consequences -/

/-- A store whose graph has everything the rules derive. -/
structure Full (Sim : B.State → Held → Prop) (session : Session) (x : ρ) (meaning : String → Facts →o Set Triple) (rules : RuleSet)
    (graph : NamedNode) (w : World B ρ) (h : Held) : Prop extends Idle Sim session x w h where
  closed : consequences meaning rules graph h.all (h.graph graph) ⊆ h.graph graph

/-- Nothing is inserted twice. -/
theorem insertFresh_full (L : B.Lawful Sim Open) (hw : Idle Sim session x w h) {fresh : List Triple}
    (hterm : ∀ t ∈ fresh, t.object.isTriple = false ∨ B.EncodesTriples Sim) (hin : ∀ t ∈ fresh, t ∈ h.graph graph) {counts : Nat × Nat}
    {Q : Nat × Nat → World B ρ → Prop} {E : Failure → World B ρ → Prop}
    (hQ : ∀ w' h', Idle Sim session x w' h' → h'.all = h.all → Q counts w') :
    wp (fresh.foldlM (insertFresh graph budget) counts : Eff Failure (World B ρ) (Nat × Nat)) Q E w := by
  refine (wp_foldlM (I := fun _ counts' w' => counts' = counts ∧ ∃ h', Idle Sim session x w' h' ∧ h'.all = h.all)
    ⟨rfl, h, hw, rfl⟩ ?_).mono ?_ (fun _ _ h => h)
  · rintro done t rest counts' w₁ hl ⟨rfl, h₁, hw₁, hall₁⟩
    have hmem : t ∈ fresh := by
      rw [hl]
      simp
    have hold : t.inGraph (.namedNode graph) ∈ h₁.all := by
      rw [hall₁]
      exact hin t hmem
    apply wp_bind
    refine World.insert_rests L hw₁ (hterm t hmem) (fun b w₂ h₂ hw₂ hall hb => ?_)
    rw [Set.insert_eq_of_mem hold, hall₁] at hall
    cases b with
    | true => exact absurd hold (hb.1 rfl)
    | false =>
      dsimp only
      rw [if_neg Bool.false_ne_true]
      exact wp_pure ⟨rfl, h₂, hw₂, hall⟩
  · rintro counts' w' ⟨rfl, h', hw', hall⟩
    exact hQ w' h' hw' hall

/-- Only an evaluation can keep a run over such a store from returning after one round. -/
theorem materialise_full (L : B.Lawful Sim Open) (hm : Means evaluate meaning) (hopen : session.compiled.Open)
    (hterm : Writable B Sim meaning rules) (hw : Full Sim session x meaning rules graph w h) :
    wp (materialise evaluate rules graph budget maxRounds : Eff Failure (World B ρ) Derived)
      (fun d w' => d = ⟨0, 1⟩ ∧ ∃ h', Idle Sim session x w' h' ∧ h'.all = h.all)
      (fun e w' => (maxRounds = 0 ∨ ∃ e', e = .engine e') ∧ ∃ h', Idle Sim session x w' h' ∧ h'.all = h.all) w := by
  unfold materialise
  cases hmax : maxRounds with
  | zero => exact wp_throw ⟨.inl rfl, h, hw.toIdle, rfl⟩
  | succ left =>
    apply wp_bind
    apply wp_bind
    refine derive_reads hm L hw.toIdle hopen holding_self.symm (fun e => ⟨.inr ⟨e, rfl⟩, h, hw.toIdle, rfl⟩) (fun fresh hfresh => ?_)
    have hin : ∀ t ∈ fresh, t ∈ consequences meaning rules graph h.all (h.graph graph) := by
      intro t ht
      rw [← show {t | t ∈ fresh} = consequences meaning rules graph h.all (h.graph graph) from hfresh]
      exact ht
    refine insertFresh_full L hw.toIdle (fun t ht => ?_) (fun t ht => hw.closed (hin t ht)) (fun w' h' hw' hall => ?_)
    · refine hterm.imp (fun hno => ?_) id
      obtain ⟨rule, hrule, ht'⟩ := mem_consequences.1 (hin t ht)
      exact hno rule hrule _ t ht'
    · refine wp_ite (fun _ => wp_pure ⟨?_, h', hw', hall⟩) (fun hne => absurd rfl hne)
      rw [show left + 1 - left = 1 by omega]

/-! ## The least set -/

theorem Run.graph_eq {all : Set Quad} {X : Set Triple} (hrun : Run Sim session x graph all X w h) : h.graph graph = X := by
  ext t
  change t.inGraph (.namedNode graph) ∈ h.all ↔ _
  rw [hrun.holds, mem_holding]

end

end

namespace OneFact

/-- `CONSTRUCT { <urn:a> <urn:p> <urn:b> } WHERE {}`. -/
def triple : Triple := ⟨.namedNode "urn:a", "urn:p", .namedNode "urn:b"⟩

def rule : Rule := ⟨"a fact", "CONSTRUCT { <urn:a> <urn:p> <urn:b> } WHERE {}"⟩

def evaluate : Evaluate := fun text _ => if text = rule.text then .ok (.graph [.ok triple]) else .error (.parse text)

def meaning (text : String) : Facts →o Set Triple := OrderHom.const _ (if text = rule.text then {triple} else ∅)

theorem evaluate_means : Means evaluate meaning := by
  intro text d triples fresh heval hcollect
  unfold evaluate at heval
  split_ifs at heval with htext
  cases heval
  cases hcollect
  ext t
  simp [meaning, htext]

def anyone : Session := ⟨.anonymous, .permitAll, { CompiledPolicy.permitAll with compiledAtDictionaryLen := 0 }⟩

def empty : World (MemoryStorage.backend Dictionary.bare) Unit := ⟨.new, anyone, ()⟩

end OneFact

end Holos.Engine.Rules
