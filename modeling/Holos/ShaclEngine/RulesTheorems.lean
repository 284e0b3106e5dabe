import Holos.Lib.Collect
import Holos.ShaclEngine.Rules
import Mathlib.Data.Finset.Sort
import Mathlib.Data.List.Perm.Basic
/-!
# What a pass of rules infers

A pass works through the levels of its rules from the lowest up. Each level adds exactly what its
rules infer from the graph the level before left, in whatever order the rules of the level run.
-/

namespace Holos.ShaclEngine

open Lib

variable {O : Type} {ev : Evaluator} {maxTriples : Nat} {data g g' : Graph}

/-! ## What a shape infers -/

theorem conformsToAll_iff {node : TermId} {conditions : List TermId} :
    ev.conformsToAll node data conditions = .ok true ↔ ∀ shapeNode ∈ conditions, ev.nodeConforms node shapeNode data = .ok true := by
  induction conditions with
  | nil => simp [Evaluator.conformsToAll, pure, Except.pure]
  | cons shapeNode conditions ih =>
    unfold Evaluator.conformsToAll
    cases h : ev.nodeConforms node shapeNode data with
    | error e => simp [h, bind, Except.bind]
    | ok b => cases b <;> simp [h, ih, bind, Except.bind, pure, Except.pure]

variable [LinearOrder O] {shapes shapes' : List (Shape O)} {k : Level O} {r : Row}

/-- The triples that the rules of a level infer. -/
def Inferred (ev : Evaluator) (shapes : List (Shape O)) (k : Level O) (g : Graph) : Set Row :=
  {r | ∃ shape ∈ shapes, ∃ rule ∈ shape.rules, shape.deactivated = false ∧ rule.deactivated = false ∧ levelOf shape rule = k ∧
    ∃ focus, ev.focusNodesOf shape.node g = .ok focus ∧ ∃ node ∈ focus,
      (∀ shapeNode ∈ rule.conditions, ev.nodeConforms node shapeNode g = .ok true) ∧ ∃ out, ev.fire rule node g = .ok out ∧ r ∈ out}

omit [LinearOrder O] in
theorem mem_fireFor {rule : Rule O} {node : TermId} {out : List Row} (h : ev.fireFor g rule node = .ok out) :
    r ∈ out ↔ (∀ shapeNode ∈ rule.conditions, ev.nodeConforms node shapeNode g = .ok true) ∧ ∃ out, ev.fire rule node g = .ok out ∧ r ∈ out := by
  rw [← conformsToAll_iff]
  unfold Evaluator.fireFor at h
  obtain ⟨b, hb, h⟩ := bind_pure_iff.1 h
  rw [show ev.conformsToAll node g rule.conditions = .ok b from hb]
  cases b with
  | false =>
    obtain rfl : [] = out := Except.ok.inj h
    simp
  | true =>
    have hfire : ev.fire rule node g = .ok out := h
    simp [hfire]

theorem mem_fireAt {shape : Shape O} {focus : List TermId} {rule : Rule O} {out : List Row} (h : ev.fireAt g k shape focus rule = .ok out) :
    r ∈ out ↔ rule.deactivated = false ∧ levelOf shape rule = k ∧ ∃ node ∈ focus,
      (∀ shapeNode ∈ rule.conditions, ev.nodeConforms node shapeNode g = .ok true) ∧ ∃ out, ev.fire rule node g = .ok out ∧ r ∈ out := by
  unfold Evaluator.fireAt at h
  split at h
  · rename_i hskip
    obtain rfl : [] = out := Except.ok.inj h
    simp only [Bool.or_eq_true, decide_eq_true_eq] at hskip
    refine iff_of_false List.not_mem_nil ?_
    rintro ⟨hactive, hlevel, -⟩
    rcases hskip with hd | hne
    · rw [hactive] at hd
      cases hd
    · exact hne hlevel
  · rename_i hrun
    simp only [Bool.or_eq_true, decide_eq_true_eq, not_or, Bool.not_eq_true, not_not] at hrun
    obtain ⟨parts, hparts, rfl⟩ := foldlM_append_iff.1 h
    rw [List.nil_append, mem_collected hparts]
    simp only [hrun, true_and]
    constructor
    · rintro ⟨node, hnode, part, hpart, hr⟩
      exact ⟨node, hnode, (mem_fireFor hpart).1 hr⟩
    · rintro ⟨node, hnode, hfires⟩
      obtain ⟨part, -, hpart⟩ := forall₂_exists_right hparts hnode
      exact ⟨node, hnode, part, hpart, (mem_fireFor hpart).2 hfires⟩

theorem mem_runShape {shape : Shape O} {out : List Row} (h : ev.runShape g (k, shape) = .ok out) :
    r ∈ out ↔ ∃ focus, ev.focusNodesOf shape.node g = .ok focus ∧ ∃ rule ∈ shape.rules,
      rule.deactivated = false ∧ levelOf shape rule = k ∧ ∃ node ∈ focus,
      (∀ shapeNode ∈ rule.conditions, ev.nodeConforms node shapeNode g = .ok true) ∧ ∃ out, ev.fire rule node g = .ok out ∧ r ∈ out := by
  unfold Evaluator.runShape at h
  obtain ⟨focus, hfocus, h⟩ := bind_pure_iff.1 h
  obtain ⟨parts, hparts, rfl⟩ := foldlM_append_iff.1 h
  rw [List.nil_append, mem_collected hparts]
  constructor
  · rintro ⟨rule, hrule, part, hpart, hr⟩
    exact ⟨focus, hfocus, rule, hrule, (mem_fireAt hpart).1 hr⟩
  · rintro ⟨focus', hfocus', rule, hrule, hfires⟩
    obtain rfl : focus' = focus := Except.ok.inj (hfocus'.symm.trans hfocus)
    obtain ⟨part, -, hpart⟩ := forall₂_exists_right hparts hrule
    exact ⟨rule, hrule, part, hpart, (mem_fireAt hpart).2 hfires⟩

/-! ## Levels -/

omit [LinearOrder O] in
theorem mem_unordered {shape : Shape O} :
    (k, shape) ∈ unordered shapes ↔ shape ∈ shapes ∧ shape.deactivated = false ∧ ∃ rule ∈ shape.rules, rule.deactivated = false ∧ levelOf shape rule = k := by
  unfold unordered
  simp only [List.mem_flatMap, List.mem_filter, List.mem_map, Bool.not_eq_true', Prod.mk.injEq]
  constructor
  · rintro ⟨shape', ⟨hmem, hactive⟩, rule, ⟨hrule, hon⟩, hlevel, rfl⟩
    exact ⟨hmem, hactive, rule, hrule, hon, hlevel⟩
  · rintro ⟨hmem, hactive, rule, hrule, hon, hlevel⟩
    exact ⟨shape, ⟨hmem, hactive⟩, rule, ⟨hrule, hon⟩, hlevel, rfl⟩

/-- What the work of one level infers. -/
def collectAt (ev : Evaluator) (items : List (Level O × Shape O)) (k : Level O) (g : Graph) : Except String (List Row) :=
  (items.filter (·.1 = k)).foldlM (fun out next => do return out ++ (← ev.runShape g next)) []

def levelStep (ev : Evaluator) (maxTriples : Nat) (items : List (Level O × Shape O)) (g : Graph) (k : Level O) : Except String Graph := do
  merge maxTriples g (← collectAt ev items k g)

/-- The levels of the active rules, lowest first. -/
def levelsOf (shapes : List (Shape O)) : List (Level O) := ((unordered shapes).map (·.1)).toFinset.sort (· ≤ ·)

theorem merge_triples {extra : List Row} (h : merge maxTriples g extra = .ok g') (r : Row) : r ∈ g'.triples ↔ r ∈ g.triples ∨ r ∈ extra := by
  unfold merge at h
  split at h
  · rename_i hnone
    cases h
    simp [List.isEmpty_iff.1 hnone]
  · split at h
    · cases h
    · cases h
      simp [g.answers.iter]

/-- A level adds what its rules infer from the graph before it. -/
theorem levelStep_triples {items : List (Level O × Shape O)} (hitems : items.Perm (unordered shapes))
    (h : levelStep ev maxTriples items g k = .ok g') (r : Row) : r ∈ g'.triples ↔ r ∈ g.triples ∨ r ∈ Inferred ev shapes k g := by
  unfold levelStep at h
  obtain ⟨out, hout, h⟩ := bind_pure_iff.1 h
  obtain ⟨parts, hparts, rfl⟩ := foldlM_append_iff.1 hout
  rw [merge_triples h, List.nil_append, mem_collected hparts]
  refine or_congr_right ?_
  constructor
  · rintro ⟨⟨k', shape⟩, hnext, part, hpart, hr⟩
    obtain ⟨hmem, hlevel⟩ := List.mem_filter.1 hnext
    obtain rfl : k' = k := of_decide_eq_true hlevel
    obtain ⟨hshape, hactive, -⟩ := mem_unordered.1 (hitems.mem_iff.1 hmem)
    obtain ⟨focus, hfocus, rule, hrule, hon, hat, hfires⟩ := (mem_runShape hpart).1 hr
    exact ⟨shape, hshape, rule, hrule, hactive, hon, hat, focus, hfocus, hfires⟩
  · rintro ⟨shape, hshape, rule, hrule, hactive, hon, hat, focus, hfocus, hfires⟩
    have hnext : (k, shape) ∈ items.filter (·.1 = k) :=
      List.mem_filter.2 ⟨hitems.mem_iff.2 (mem_unordered.2 ⟨hshape, hactive, rule, hrule, hon, hat⟩), by simp⟩
    obtain ⟨part, -, hpart⟩ := forall₂_exists_right hparts hnext
    exact ⟨_, hnext, part, hpart, (mem_runShape hpart).2 ⟨focus, hfocus, rule, hrule, hon, hat, hfires⟩⟩

/-! ## A pass, level by level -/

/-- The rest of a pass, and the merge at its end. -/
def Pass.finish (ev : Evaluator) (maxTriples : Nat) (pass : Pass O) (items : List (Level O × Shape O)) : Except String Graph := do
  let pass ← items.foldlM (Pass.step ev maxTriples) pass
  merge maxTriples pass.current pass.pending

/-- A pass from its first item on. -/
def runItems (ev : Evaluator) (maxTriples : Nat) (items : List (Level O × Shape O)) (g : Graph) : Except String Graph :=
  match items with
  | [] => .ok g
  | first :: rest => Pass.finish ev maxTriples ⟨g, first.1, []⟩ (first :: rest)

theorem applyBounded_eq_runItems : applyBounded ev shapes maxTriples data = runItems ev maxTriples (work shapes) data := by
  unfold applyBounded runItems
  cases work shapes <;> rfl

/-- Items of the level that a pass is at only add to what is pending. -/
theorem foldlM_step_same {items : List (Level O × Shape O)} {pending : List Row} (h : ∀ next ∈ items, next.1 = k) :
    items.foldlM (Pass.step ev maxTriples) ⟨g, k, pending⟩ = (do
      let out ← items.foldlM (fun out next => do return out ++ (← ev.runShape g next)) pending
      return ⟨g, k, out⟩) := by
  induction items generalizing pending with
  | nil => rfl
  | cons next items ih =>
    have hstep : Pass.step ev maxTriples ⟨g, k, pending⟩ next = (do return ⟨g, k, pending ++ (← ev.runShape g next)⟩) := by
      unfold Pass.step Pass.crossing
      rw [if_neg (by simp [h next List.mem_cons_self])]
      rfl
    rw [List.foldlM_cons, List.foldlM_cons, hstep]
    cases hrun : ev.runShape g next with
    | error e => rfl
    | ok part => exact ih (fun next' h' => h next' (List.mem_cons_of_mem next h'))

/-- Items of other levels see what was pending. -/
theorem finish_other {items : List (Level O × Shape O)} {pending : List Row} (h : ∀ next ∈ items, next.1 ≠ k) :
    Pass.finish ev maxTriples ⟨g, k, pending⟩ items = (do runItems ev maxTriples items (← merge maxTriples g pending)) := by
  cases items with
  | nil =>
    unfold Pass.finish runItems
    exact (bind_pure _).symm
  | cons next items =>
    have hcross : ∀ g', Pass.step ev maxTriples ⟨g', next.1, []⟩ next = (do return ⟨g', next.1, [] ++ (← ev.runShape g' next)⟩) := by
      intro g'
      unfold Pass.step Pass.crossing
      rw [if_neg (by simp)]
      rfl
    unfold runItems Pass.finish
    rw [List.foldlM_cons]
    have hstep : Pass.step ev maxTriples ⟨g, k, pending⟩ next = (do Pass.step ev maxTriples ⟨← merge maxTriples g pending, next.1, []⟩ next) := by
      simp only [hcross]
      unfold Pass.step Pass.crossing
      rw [if_pos (h next List.mem_cons_self)]
      cases merge maxTriples g pending <;> rfl
    rw [hstep]
    cases merge maxTriples g pending <;> rfl

/-- Sorted items split at their lowest level. -/
theorem split_level {items : List (Level O × Shape O)} (hsorted : items.Pairwise (fun a b => a.1 ≤ b.1)) (hlow : ∀ next ∈ items, k ≤ next.1) :
    items = items.filter (·.1 = k) ++ items.filter (·.1 ≠ k) := by
  have hboth : items.Pairwise (fun a b => a.1 ≤ b.1 ∧ k ≤ a.1) := hsorted.imp_of_mem (fun ha _ hab => ⟨hab, hlow _ ha⟩)
  have hfirst : ∀ a b : Level O × Shape O, a.1 ≤ b.1 ∧ k ≤ a.1 → decide (b.1 = k) = true → decide (a.1 = k) = true := by
    intro a b hab hb
    rw [decide_eq_true_eq] at *
    exact le_antisymm (hab.1.trans_eq hb) hab.2
  conv_lhs => rw [← List.takeWhile_append_dropWhile (p := fun next => decide (next.1 = k)) (l := items)]
  rw [takeWhile_eq_filter hboth hfirst, dropWhile_eq_filter hboth hfirst]
  simp

/-- A pass over sorted items is one step a level. -/
theorem runItems_eq {items : List (Level O × Shape O)} (hsorted : items.Pairwise (fun a b => a.1 ≤ b.1)) {ks : List (Level O)}
    (hks : ks.Pairwise (· < ·)) : runItems ev maxTriples (items.filter (·.1 ∈ ks)) g = ks.foldlM (levelStep ev maxTriples items) g := by
  induction ks generalizing g with
  | nil => simp [runItems, pure, Except.pure]
  | cons k ks ih =>
    obtain ⟨hk, hks⟩ := List.pairwise_cons.1 hks
    have hsplit : items.filter (·.1 ∈ k :: ks) = items.filter (·.1 = k) ++ items.filter (·.1 ∈ ks) := by
      rw [split_level (hsorted.filter _) (k := k)]
      · rw [List.filter_filter, List.filter_filter]
        congr 1 <;> refine List.filter_congr (fun next _ => ?_)
        · by_cases h : next.1 = k <;> simp [h]
        · by_cases h : next.1 = k
          · have hno : k ∉ ks := fun hmem => lt_irrefl k (hk k hmem)
            simp [h, hno]
          · simp [h]
      · intro next hnext
        have hmem : next.1 ∈ k :: ks := of_decide_eq_true (List.mem_filter.1 hnext).2
        rcases List.mem_cons.1 hmem with h | h
        · exact h.ge
        · exact (hk _ h).le
    have hsame : ∀ next ∈ items.filter (·.1 = k), next.1 = k := fun next hnext => of_decide_eq_true (List.mem_filter.1 hnext).2
    have hother : ∀ next ∈ items.filter (·.1 ∈ ks), next.1 ≠ k := by
      intro next hnext
      exact (hk _ (of_decide_eq_true (List.mem_filter.1 hnext).2)).ne'
    rw [hsplit, List.foldlM_cons]
    have hrest : (do runItems ev maxTriples (items.filter (·.1 ∈ ks)) (← levelStep ev maxTriples items g k)) =
        (do (ks.foldlM (levelStep ev maxTriples items) (← levelStep ev maxTriples items g k) : Except String Graph)) :=
      bind_congr (fun g' => ih hks)
    rw [← hrest]
    unfold levelStep collectAt
    cases hlevel : items.filter (·.1 = k) with
    | nil => rfl
    | cons first level =>
      rw [hlevel] at hsame
      have hstart : runItems ev maxTriples (first :: level ++ items.filter (·.1 ∈ ks)) g =
          Pass.finish ev maxTriples ⟨g, k, []⟩ (first :: level ++ items.filter (·.1 ∈ ks)) := by
        rw [← hsame first List.mem_cons_self]
        rfl
      rw [hstart]
      unfold Pass.finish
      rw [List.foldlM_append, foldlM_step_same hsame]
      cases (first :: level).foldlM (fun out next => do return out ++ (← ev.runShape g next)) [] with
      | error e => rfl
      | ok out => exact finish_other hother

theorem work_sorted : (work shapes).Pairwise (fun a b => a.1 ≤ b.1) := by
  have h : (work shapes).Pairwise (fun a b => decide (a.1 ≤ b.1) = true) := by
    refine List.pairwise_mergeSort (fun a b c => ?_) (fun a b => ?_) (unordered shapes)
    · simp only [decide_eq_true_eq]
      exact le_trans
    · simp only [Bool.or_eq_true, decide_eq_true_eq]
      exact le_total a.1 b.1
  exact h.imp of_decide_eq_true

theorem work_perm : (work shapes).Perm (unordered shapes) := List.mergeSort_perm _ _

theorem mem_levelsOf : k ∈ levelsOf shapes ↔ ∃ next ∈ unordered shapes, next.1 = k := by
  unfold levelsOf
  rw [Finset.mem_sort, List.mem_toFinset, List.mem_map]

/-- A pass is one step for each level, from the lowest up. -/
theorem applyBounded_eq : applyBounded ev shapes maxTriples data = (levelsOf shapes).foldlM (levelStep ev maxTriples (work shapes)) data := by
  rw [applyBounded_eq_runItems, ← runItems_eq work_sorted (Finset.sortedLT_sort _).pairwise, List.filter_eq_self.2]
  intro next hnext
  simpa using mem_levelsOf.2 ⟨next, work_perm.mem_iff.1 hnext, rfl⟩

/-- What passes through levels in order: each adds what its rules infer from the graph before it. -/
inductive Infers (ev : Evaluator) (shapes : List (Shape O)) : List (Level O) → Graph → Graph → Prop
  | done {g : Graph} : Infers ev shapes [] g g
  | level {k : Level O} {ks : List (Level O)} {g g' g'' : Graph} : (∀ r, r ∈ g'.triples ↔ r ∈ g.triples ∨ r ∈ Inferred ev shapes k g) → Infers ev shapes ks g' g'' →
    Infers ev shapes (k :: ks) g g''

theorem infers_of_foldlM {items : List (Level O × Shape O)} (hitems : items.Perm (unordered shapes)) {ks : List (Level O)}
    (h : ks.foldlM (levelStep ev maxTriples items) g = .ok g') : Infers ev shapes ks g g' := by
  induction ks generalizing g with
  | nil =>
    obtain rfl : g = g' := Except.ok.inj h
    exact .done
  | cons k ks ih =>
    rw [List.foldlM_cons] at h
    obtain ⟨mid, hstep, h⟩ := bind_pure_iff.1 h
    exact .level (levelStep_triples hitems hstep) (ih h)

theorem infers (h : applyBounded ev shapes maxTriples data = .ok g) : Infers ev shapes (levelsOf shapes) data g :=
  infers_of_foldlM work_perm (applyBounded_eq.symm.trans h)

/-! ## The order within a level -/

/-- Shapes with the same rules, in any order. -/
structure SameRules (shape shape' : Shape O) : Prop where
  node : shape.node = shape'.node
  order : shape.order = shape'.order
  deactivated : shape.deactivated = shape'.deactivated
  rules : shape.rules.Perm shape'.rules

/-- The same shapes and rules, in any order. -/
def Reordered (shapes shapes' : List (Shape O)) : Prop := ∃ mid, shapes.Perm mid ∧ List.Forall₂ SameRules mid shapes'

/-- Work on the same rules at one level. -/
def SameWork (next next' : Level O × Shape O) : Prop := next.1 = next'.1 ∧ SameRules next.2 next'.2

omit [LinearOrder O] in
theorem levelOf_same {shape shape' : Shape O} (h : SameRules shape shape') (rule : Rule O) : levelOf shape rule = levelOf shape' rule := by
  unfold levelOf
  rw [h.order]

/-- A loop over the same steps in another order collects the same. -/
theorem collected_perm {γ : Type} {f : γ → Except String (List Row)} {xs ys : List γ} {parts : List (List Row)} (hperm : xs.Perm ys)
    (h : List.Forall₂ (fun x part => f x = .ok part) xs parts) :
    ∃ parts', List.Forall₂ (fun x part => f x = .ok part) ys parts' ∧ parts.flatten.Perm parts'.flatten := by
  obtain ⟨parts', hparts', hp⟩ := List.perm_comp_forall₂ hperm.symm h
  exact ⟨parts', hparts', hp.symm.flatten⟩

theorem runShape_same {next next' : Level O × Shape O} (h : SameWork next next') {part : List Row} (hrun : ev.runShape g next = .ok part) :
    ∃ part', ev.runShape g next' = .ok part' ∧ part.Perm part' := by
  obtain ⟨k, shape⟩ := next
  obtain ⟨k', shape'⟩ := next'
  obtain ⟨rfl, hsame⟩ : k = k' ∧ SameRules shape shape' := h
  unfold Evaluator.runShape at hrun
  obtain ⟨focus, hfocus, hrun⟩ := bind_pure_iff.1 hrun
  obtain ⟨parts, hparts, rfl⟩ := foldlM_append_iff.1 hrun
  obtain ⟨parts', hparts', hp⟩ := collected_perm hsame.rules hparts
  have hfire : ∀ rule, ev.fireAt g k shape focus rule = ev.fireAt g k shape' focus rule := by
    intro rule
    unfold Evaluator.fireAt
    rw [levelOf_same hsame]
  refine ⟨parts'.flatten, ?_, hp⟩
  unfold Evaluator.runShape
  rw [← hsame.node]
  refine bind_pure_iff.2 ⟨focus, hfocus, foldlM_append_iff.2 ⟨parts', ?_, rfl⟩⟩
  exact hparts'.imp (fun rule part hpart => (hfire rule).symm.trans hpart)

theorem collected_same {items items' : List (Level O × Shape O)} {parts : List (List Row)} (h : List.Forall₂ SameWork items items')
    (hparts : List.Forall₂ (fun next part => ev.runShape g next = .ok part) items parts) :
    ∃ parts', List.Forall₂ (fun next part => ev.runShape g next = .ok part) items' parts' ∧ parts.flatten.Perm parts'.flatten := by
  induction h generalizing parts with
  | nil =>
    cases hparts
    exact ⟨[], .nil, .nil⟩
  | cons hsame _ ih =>
    cases hparts with
    | cons hrun hrest =>
      obtain ⟨part', hrun', hp⟩ := runShape_same hsame hrun
      obtain ⟨parts', hrest', hps⟩ := ih hrest
      exact ⟨part' :: parts', .cons hrun' hrest', hp.append hps⟩

/-- What is merged is a set of triples, and how many were inferred. -/
theorem merge_perm {extra extra' : List Row} (h : extra.Perm extra') : merge maxTriples g extra = merge maxTriples g extra' := by
  have hnil : extra.isEmpty = extra'.isEmpty := by
    rw [Bool.eq_iff_iff, List.isEmpty_iff, List.isEmpty_iff]
    exact ⟨fun h' => List.nil_perm.1 (h' ▸ h), fun h' => List.perm_nil.1 (h' ▸ h)⟩
  have hbuild : Graph.build (g.iter ++ extra) = Graph.build (g.iter ++ extra') :=
    Graph.eq_of_triples (by rw [Graph.triples_build, Graph.triples_build]; ext r; simp [h.mem_iff])
  unfold merge
  rw [hnil, h.length_eq, hbuild]

/-- The same work in another order. -/
def WorkLike (items items' : List (Level O × Shape O)) : Prop := ∃ mid, items.Perm mid ∧ ∃ mid', List.Forall₂ SameWork mid mid' ∧ mid'.Perm items'

omit [LinearOrder O] in
theorem SameRules.symm {shape shape' : Shape O} (h : SameRules shape shape') : SameRules shape' shape :=
  ⟨h.node.symm, h.order.symm, h.deactivated.symm, h.rules.symm⟩

omit [LinearOrder O] in
theorem WorkLike.symm {items items' : List (Level O × Shape O)} (h : WorkLike items items') : WorkLike items' items := by
  obtain ⟨mid, hmid, mid', hsame, hmid'⟩ := h
  exact ⟨mid', hmid'.symm, mid, (List.Forall₂.imp (fun _ _ h => ⟨h.1.symm, h.2.symm⟩) hsame.flip), hmid.symm⟩

omit [LinearOrder O] in
theorem unordered_reordered (h : Reordered shapes shapes') : WorkLike (unordered shapes) (unordered shapes') := by
  obtain ⟨mid, hperm, hsame⟩ := h
  refine ⟨unordered mid, (hperm.filter _).flatMap_right _, ?_⟩
  clear hperm
  induction hsame with
  | nil => exact ⟨[], .nil, .nil⟩
  | @cons shape shape' rest rest' hone _ ih =>
    obtain ⟨mid', hmid', hp⟩ := ih
    cases hd : shape.deactivated with
    | true =>
      have hd' : shape'.deactivated = true := hone.deactivated ▸ hd
      refine ⟨mid', ?_, ?_⟩
      · simpa [unordered, hd] using hmid'
      · simpa [unordered, hd'] using hp
    | false =>
      have hd' : shape'.deactivated = false := hone.deactivated ▸ hd
      refine ⟨(shape.rules.filter (fun rule => !rule.deactivated)).map (fun rule => (levelOf shape' rule, shape')) ++ mid', ?_, ?_⟩
      · have hfirst : List.Forall₂ SameWork ((shape.rules.filter (fun rule => !rule.deactivated)).map (fun rule => (levelOf shape rule, shape)))
            ((shape.rules.filter (fun rule => !rule.deactivated)).map (fun rule => (levelOf shape' rule, shape'))) := by
          rw [List.forall₂_map_left_iff, List.forall₂_map_right_iff]
          exact List.forall₂_same.2 (fun rule _ => ⟨levelOf_same hone rule, hone⟩)
        simpa [unordered, hd] using List.rel_append hfirst hmid'
      · simpa [unordered, hd'] using ((hone.rules.filter _).map _).append hp

theorem work_reordered (h : Reordered shapes shapes') : WorkLike (work shapes) (work shapes') := by
  obtain ⟨mid, hmid, mid', hsame, hmid'⟩ := unordered_reordered h
  exact ⟨mid, work_perm.trans hmid, mid', hsame, hmid'.trans work_perm.symm⟩

theorem levelStep_like {items items' : List (Level O × Shape O)} (h : WorkLike items items') (hstep : levelStep ev maxTriples items g k = .ok g') :
    levelStep ev maxTriples items' g k = .ok g' := by
  obtain ⟨mid, hmid, mid', hsame, hmid'⟩ := h
  unfold levelStep collectAt at *
  obtain ⟨out, hout, hmerge⟩ := bind_pure_iff.1 hstep
  obtain ⟨parts, hparts, rfl⟩ := foldlM_append_iff.1 hout
  have hsame' : List.Forall₂ SameWork (mid.filter (·.1 = k)) (mid'.filter (·.1 = k)) :=
    List.rel_filter (fun next next' h => by simp [h.1]) hsame
  obtain ⟨parts₁, hparts₁, hp₁⟩ := collected_perm (hmid.filter _) hparts
  obtain ⟨parts₂, hparts₂, hp₂⟩ := collected_same hsame' hparts₁
  obtain ⟨parts₃, hparts₃, hp₃⟩ := collected_perm (hmid'.filter _) hparts₂
  refine bind_pure_iff.2 ⟨parts₃.flatten, foldlM_append_iff.2 ⟨parts₃, hparts₃, rfl⟩, ?_⟩
  rw [← hmerge]
  exact merge_perm ((hp₁.trans hp₂).trans hp₃).symm

theorem foldlM_like {items items' : List (Level O × Shape O)} (h : WorkLike items items') {ks : List (Level O)}
    (hrun : ks.foldlM (levelStep ev maxTriples items) g = .ok g') : ks.foldlM (levelStep ev maxTriples items') g = .ok g' := by
  induction ks generalizing g with
  | nil => exact hrun
  | cons k ks ih =>
    rw [List.foldlM_cons] at *
    obtain ⟨mid, hstep, hrun⟩ := bind_pure_iff.1 hrun
    exact bind_pure_iff.2 ⟨mid, levelStep_like h hstep, ih hrun⟩

theorem levelsOf_like (h : WorkLike (unordered shapes) (unordered shapes')) : levelsOf shapes = levelsOf shapes' := by
  obtain ⟨mid, hmid, mid', hsame, hmid'⟩ := h
  have hmap : mid.map (·.1) = mid'.map (·.1) := by
    rw [← List.forall₂_eq_eq_eq, List.forall₂_map_left_iff, List.forall₂_map_right_iff]
    exact hsame.imp (fun _ _ h => h.1)
  unfold levelsOf
  congr 1
  rw [List.toFinset_eq_of_perm _ _ (hmid.map _), hmap, List.toFinset_eq_of_perm _ _ (hmid'.map _)]

theorem applyBounded_like (h : WorkLike (unordered shapes) (unordered shapes')) (hwork : WorkLike (work shapes) (work shapes'))
    (hrun : applyBounded ev shapes maxTriples data = .ok g) : applyBounded ev shapes' maxTriples data = .ok g := by
  rw [applyBounded_eq] at *
  rw [← levelsOf_like h]
  exact foldlM_like hwork hrun

omit [LinearOrder O] in
theorem Infers.grows {ks : List (Level O)} (h : Infers ev shapes ks g g') : g.triples ⊆ g'.triples := by
  induction h with
  | done => exact Finset.Subset.refl _
  | level hlevel _ ih => exact fun r hr => ih ((hlevel r).2 (.inl hr))

omit [LinearOrder O] in
/-- Where nothing new came of the levels, none of them infers anything new. -/
theorem Infers.closed {ks : List (Level O)} (h : Infers ev shapes ks g g') (hback : g'.triples ⊆ g.triples) :
    ∀ k ∈ ks, Inferred ev shapes k g ⊆ g.triples := by
  induction h with
  | done => simp
  | @level k ks g mid g' hlevel hrest ih =>
    have hmid : mid.triples ⊆ g.triples := hrest.grows.trans hback
    obtain rfl : mid = g := Graph.eq_of_triples (hmid.antisymm (fun r hr => (hlevel r).2 (.inl hr)))
    intro k' hk' r hr
    rcases List.mem_cons.1 hk' with rfl | hk'
    · exact (hlevel r).2 (.inr hr)
    · exact ih hback k' hk' hr

omit [LinearOrder O] in
/-- No graph that is closed under the rules has less. -/
theorem Infers.least {ks : List (Level O)} (h : Infers ev shapes ks g g') {closed : Graph} (hsub : g.triples ⊆ closed.triples)
    (hclosed : ∀ k, ∀ small : Graph, small.triples ⊆ closed.triples → Inferred ev shapes k small ⊆ closed.triples) :
    g'.triples ⊆ closed.triples := by
  induction h with
  | done => exact hsub
  | @level k ks g mid g' hlevel _ ih => exact ih (fun r hr => ((hlevel r).1 hr).elim (fun h => hsub h) (fun h => hclosed k g hsub h))

theorem mem_levelsOf_of_inferred (h : r ∈ Inferred ev shapes k g) : k ∈ levelsOf shapes := by
  obtain ⟨shape, hshape, rule, hrule, hactive, hon, hat, -⟩ := h
  exact mem_levelsOf.2 ⟨(k, shape), mem_unordered.2 ⟨hshape, hactive, rule, hrule, hon, hat⟩, rfl⟩

/-- The rules infer nothing that the graph does not have. -/
def Saturated (ev : Evaluator) (shapes : List (Shape O)) (g : Graph) : Prop := ∀ k, Inferred ev shapes k g ⊆ g.triples

/-- The rules infer no less from more. -/
def MonotoneRules (ev : Evaluator) (shapes : List (Shape O)) : Prop :=
  ∀ k g g', Graph.triples g ⊆ Graph.triples g' → Inferred ev shapes k g ⊆ Inferred ev shapes k g'

/-- A pass that leaves as many triples as there were leaves the graph, and it is saturated. -/
theorem saturated_of_len (h : applyBounded ev shapes maxTriples g = .ok g') (hlen : g'.len = g.len) : g' = g ∧ Saturated ev shapes g := by
  have hlevels := infers h
  have heq : g.triples = g'.triples := Finset.eq_of_subset_of_card_le hlevels.grows (by rw [← g.answers.len, ← g'.answers.len, hlen])
  refine ⟨(Graph.eq_of_triples heq).symm, fun k r hr => ?_⟩
  exact hlevels.closed heq.ge k (mem_levelsOf_of_inferred hr) hr

variable {maxRounds maxRounds' left left' : Nat}

/-- What the rounds end with. -/
structure Fixpoint (ev : Evaluator) (shapes : List (Shape O)) (data g : Graph) : Prop where
  grows : data.triples ⊆ g.triples
  again : applyBounded ev shapes defaultMaxTriples g = .ok g
  saturated : Saturated ev shapes g
  least : MonotoneRules ev shapes → ∀ closed, data.triples ⊆ Graph.triples closed → Saturated ev shapes closed → g.triples ⊆ closed.triples

theorem fixpoint_of_iterateFrom (h : iterateFrom ev shapes maxRounds (left + 1) data = .ok g) : Fixpoint ev shapes data g := by
  induction left generalizing data with
  | zero =>
    unfold iterateFrom at h
    obtain ⟨next, hnext, h⟩ := bind_pure_iff.1 h
    split at h
    · rename_i hlen
      obtain rfl : next = g := Except.ok.inj h
      obtain ⟨rfl, hsaturated⟩ := saturated_of_len hnext hlen
      exact ⟨Finset.Subset.refl _, hnext, hsaturated, fun _ _ hsub _ => hsub⟩
    · cases h
  | succ left ih =>
    unfold iterateFrom at h
    obtain ⟨next, hnext, h⟩ := bind_pure_iff.1 h
    split at h
    · rename_i hlen
      obtain rfl : next = g := Except.ok.inj h
      obtain ⟨rfl, hsaturated⟩ := saturated_of_len hnext hlen
      exact ⟨Finset.Subset.refl _, hnext, hsaturated, fun _ _ hsub _ => hsub⟩
    · have hfix := ih h
      refine ⟨(infers hnext).grows.trans hfix.grows, hfix.again, hfix.saturated, fun hmono closed hsub hclosed => ?_⟩
      exact hfix.least hmono closed ((infers hnext).least hsub (fun k small hsmall => (hmono k _ _ hsmall).trans (hclosed k))) hclosed

/-- Rounds that are left over make no difference. -/
theorem iterateFrom_more (h : iterateFrom ev shapes maxRounds (left + 1) data = .ok g) (hmore : left ≤ left') :
    iterateFrom ev shapes maxRounds' (left' + 1) data = .ok g := by
  induction left generalizing data left' with
  | zero =>
    unfold iterateFrom at *
    obtain ⟨next, hnext, h⟩ := bind_pure_iff.1 h
    refine bind_pure_iff.2 ⟨next, hnext, ?_⟩
    split at h
    · rename_i hlen
      rw [if_pos hlen]
      exact h
    · cases h
  | succ left ih =>
    obtain ⟨left', rfl⟩ : ∃ n, left' = n + 1 := ⟨left' - 1, by omega⟩
    unfold iterateFrom at *
    obtain ⟨next, hnext, h⟩ := bind_pure_iff.1 h
    refine bind_pure_iff.2 ⟨next, hnext, ?_⟩
    split at h
    · rename_i hlen
      rw [if_pos hlen]
      exact h
    · rename_i hlen
      rw [if_neg hlen]
      exact ih h (by omega)

end Holos.ShaclEngine
