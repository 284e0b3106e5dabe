import Holos.Engine.Bindjoin.Variables
/-!
# A pattern in its graph

A `GRAPH` block is dissolved into a tag on each of its patterns. Under bindings that already
name the graph of the block (`InScope`), the leaves of a pattern tree mean the same in that
graph as their tagged items do over all of them. `Anchored` patterns name the graph of their
block themselves.
-/

namespace Holos.Engine.Bindjoin

open Sparql Lib

/-! ## Scopes -/

/-- The bindings are in the active graph `G` of a block with this scope. -/
def InScope (I : Interpretation) : Scope → Option TermId → Solution → Prop
  | .default, G, _ => G = none
  | .named g, G, _ => G = some (I.intern (.namedNode g)) ∧ I.intern (.namedNode g) ∈ I.graphs
  | .var v, G, γ => ∃ n ∈ I.graphs, G = some n ∧ γ.lookup v = some n

section Scope
variable {I : Interpretation} {scope : Scope} {G : Option TermId} {γ γ' : Solution}

theorem InScope.extends (h : InScope I scope G γ) (he : Mapping.Extends γ' γ) : InScope I scope G γ' := by
  cases scope with
  | default => exact h
  | named g => exact h
  | var v =>
    obtain ⟨n, hn, hG, hv⟩ := h
    exact ⟨n, hn, hG, he v n hv⟩

theorem InScope.keys {v : Variable} (h : InScope I (.var v) G γ) : v ∈ γ.keys := by
  obtain ⟨n, -, -, hv⟩ := h
  exact Mapping.mem_keys_iff.2 ⟨n, hv⟩

theorem extend_unit (γ : Solution) : Mapping.extend γ ({∅} : Multiset Solution) = {γ} := by
  rw [Mapping.extend_singleton, if_pos (Mapping.compat_comm.1 (Mapping.compat_empty γ)), Finmap.union_empty]

/-- In scope, the graph position admits the active graph and no other. -/
theorem extend_inScope (h : InScope I scope G γ) (g : Option TermId) :
    Mapping.extend γ (scopeSolutions I scope g) = if g = G then {γ} else 0 := by
  cases scope with
  | default =>
    cases h
    cases g with
    | none => exact extend_unit γ
    | some n => rfl
  | named w =>
    obtain ⟨rfl, -⟩ := h
    cases g with
    | none => rfl
    | some n =>
      simp only [scopeSolutions, Option.some.injEq, eq_comm (a := n)]
      split
      · exact extend_unit γ
      · rfl
  | var v =>
    obtain ⟨m, -, rfl, hv⟩ := h
    cases g with
    | none => rfl
    | some n =>
      simp only [scopeSolutions, extend_variable, bindVariable, hv, Option.some.injEq, eq_comm (a := n)]
      split <;> rfl

theorem quadSolutions_withoutBlankNodes (t : TriplePattern) (q : EncodedQuad) :
    I.quadSolutions (withoutBlankNodes t) q = I.quadSolutions t q := by
  obtain ⟨s, p, o⟩ := t
  cases s <;> cases o <;> rfl

/-- One pattern, matched in its graph or by its tag. -/
theorem extend_pattern (h : InScope I scope G γ) (t : TriplePattern) :
    Mapping.extend γ (I.tripleSolutions G t) = Mapping.extend γ (patternSolutions I ⟨withoutBlankNodes t, scope⟩) := by
  have hquad : ∀ q : EncodedQuad, Mapping.extend γ (Mapping.join (scopeSolutions I scope q.graphName)
      (I.quadSolutions (withoutBlankNodes t) q)) =
      if q.graphName = G then Mapping.extend γ (I.quadSolutions t q) else 0 := by
    intro q
    rw [extend_join_bind, extend_inScope h, quadSolutions_withoutBlankNodes]
    split
    · exact Multiset.singleton_bind γ _
    · exact Multiset.zero_bind _
  rw [Interpretation.tripleSolutions, patternSolutions, Mapping.extend_bind, Mapping.extend_bind]
  simp only [hquad, Interpretation.graph, Finset.filter_val]
  rw [Multiset.bind_filter]

theorem extend_patterns (h : InScope I scope G γ) (ts : List TriplePattern) :
    Mapping.extend γ (Mapping.joinAll (ts.map (I.tripleSolutions G))) =
      Mapping.extend γ (Mapping.joinAll ((ts.map (fun t => ⟨withoutBlankNodes t, scope⟩)).map (patternSolutions I))) := by
  induction ts generalizing γ with
  | nil => rfl
  | cons t ts ih =>
    rw [List.map_cons, List.map_cons, List.map_cons, Mapping.joinAll_cons, Mapping.joinAll_cons, extend_join_bind,
      extend_join_bind, extend_pattern h]
    exact Multiset.bind_congr fun γ' hγ' => ih (h.extends (Mapping.extends_of_mem_extend hγ'))

end Scope

/-! ## All graphs at once -/

section Graphs
variable {I : Interpretation} {v : Variable}

/-- Solutions that each give the variable a value in `S` are those with each of the values. -/
theorem bind_singletons {S : Finset TermId} {M : Multiset Solution} (h : ∀ ρ ∈ M, ∃ n ∈ S, ρ.lookup v = some n) :
    S.val.bind (fun n => Mapping.extend (Finmap.singleton v n) M) = M := by
  induction M using Multiset.induction_on with
  | empty => simp
  | cons ρ M ih =>
    obtain ⟨n, hn, hv⟩ := h ρ (Multiset.mem_cons_self ρ M)
    have hone : ∀ m, Mapping.extend (Finmap.singleton v m) {ρ} = if m = n then {ρ} else 0 := by
      intro m
      rw [Mapping.extend_singleton_comm, extend_variable, bindVariable, hv]
      by_cases hm : n = m
      · simp [hm, solutionOf]
      · simp [hm, Ne.symm hm, solutionOf]
    have hρ : S.val.bind (fun m => if m = n then ({ρ} : Multiset Solution) else 0) = {ρ} := by
      rw [bind_eq_of_list (l := [n]) (List.nodup_singleton n) (by simpa using hn) (fun m _ hm => if_neg (by simpa using hm))]
      exact (Multiset.singleton_bind n _).trans (if_pos rfl)
    simp only [Mapping.extend_cons (Finmap.singleton v _) ρ M, Multiset.bind_add, hone, hρ]
    rw [ih fun σ hσ => h σ (Multiset.mem_cons_of_mem hσ), Multiset.singleton_add]

theorem lookup_patternSolutions {p : PatternItem} (hp : p.scope = .var v) {ρ : Solution} (h : ρ ∈ patternSolutions I p) :
    ∃ n ∈ I.graphs, ρ.lookup v = some n := by
  obtain ⟨q, hq, h⟩ := Multiset.mem_bind.1 h
  obtain ⟨σ, hσ, τ, -, -, rfl⟩ := Mapping.mem_join.1 h
  rw [hp] at hσ
  cases hg : q.graphName with
  | none => rw [hg] at hσ; exact absurd hσ (Multiset.notMem_zero σ)
  | some n =>
    rw [hg] at hσ
    rw [Multiset.mem_singleton.1 hσ]
    exact ⟨n, I.named q hq n hg, Mapping.lookup_union_of_left (by simp [Finmap.lookup_singleton_eq])⟩

theorem patternSolutions_no_graph {p : PatternItem} {g : NamedNode} (hp : p.scope = .named g)
    (hg : I.intern (.namedNode g) ∉ I.graphs) : patternSolutions I p = 0 := by
  rw [Multiset.eq_zero_iff_forall_notMem]
  intro ρ h
  obtain ⟨q, hq, h⟩ := Multiset.mem_bind.1 h
  obtain ⟨σ, hσ, τ, -, -, rfl⟩ := Mapping.mem_join.1 h
  rw [hp] at hσ
  cases hn : q.graphName with
  | none => rw [hn] at hσ; exact absurd hσ (Multiset.notMem_zero σ)
  | some n =>
    rw [hn] at hσ
    simp only [scopeSolutions] at hσ
    split at hσ
    · rename_i he
      exact hg (I.named q hq _ (by rw [hn, he]))
    · exact absurd hσ (Multiset.notMem_zero σ)

/-- A branch that has a pattern names the graph of its block. -/
theorem lookup_branch {branch : List PatternItem} (hne : branch ≠ []) (hp : ∀ p ∈ branch, p.scope = .var v) {ρ : Solution}
    (h : ρ ∈ Mapping.joinAll (branch.map (patternSolutions I))) : ∃ n ∈ I.graphs, ρ.lookup v = some n := by
  cases branch with
  | nil => exact absurd rfl hne
  | cons p branch =>
    obtain ⟨σ, hσ, τ, -, -, rfl⟩ := Mapping.mem_join.1 h
    obtain ⟨n, hn, hv⟩ := lookup_patternSolutions (hp p List.mem_cons_self) hσ
    exact ⟨n, hn, Mapping.lookup_union_of_left hv⟩

theorem branch_no_graph {branch : List PatternItem} {g : NamedNode} (hne : branch ≠ [])
    (hp : ∀ p ∈ branch, p.scope = .named g) (hg : I.intern (.namedNode g) ∉ I.graphs) :
    Mapping.joinAll (branch.map (patternSolutions I)) = 0 := by
  cases branch with
  | nil => exact absurd rfl hne
  | cons p branch =>
    rw [List.map_cons, Mapping.joinAll_cons, patternSolutions_no_graph (hp p List.mem_cons_self) hg, Mapping.zero_join]

/-- A block over every graph, from what it comes to in each of them. -/
theorem extend_all_graphs {γ : Solution} {X : TermId → Multiset Solution} {M : Multiset Solution}
    (hM : ∀ ρ ∈ M, ∃ n ∈ I.graphs, ρ.lookup v = some n)
    (h : ∀ n ∈ I.graphs, ∀ γ', Mapping.Extends γ' γ → γ'.lookup v = some n → Mapping.extend γ' (X n) = Mapping.extend γ' M) :
    Mapping.extend γ (I.graphs.val.bind (fun n => Mapping.extend (Finmap.singleton v n) (X n))) = Mapping.extend γ M := by
  rw [← bind_singletons hM, Mapping.extend_bind, Mapping.extend_bind]
  refine Multiset.bind_congr fun n hn => ?_
  rw [← Mapping.extend_extend, ← Mapping.extend_extend]
  refine Multiset.bind_congr fun γ' hγ' => ?_
  refine h n hn γ' (Mapping.extends_of_mem_extend hγ') ?_
  obtain ⟨ρ, hρ, hc, rfl⟩ := Mapping.mem_extend.1 hγ'
  refine Mapping.lookup_union_of_right hc ?_
  rw [Multiset.mem_singleton.1 hρ]
  simp [Finmap.lookup_singleton_eq]

end Graphs

/-! ## Leaves -/

section Leaf
variable {I : Interpretation} {scope : Scope} {G : Option TermId} {γ : Solution}

/-- The solutions of alternative branches. -/
def branchSolutions (I : Interpretation) (branches : List (List PatternItem)) : Multiset Solution :=
  (branches : Multiset (List PatternItem)).bind (fun branch => Mapping.joinAll (branch.map (patternSolutions I)))

theorem branchSolutions_append (xs ys : List (List PatternItem)) :
    branchSolutions I (xs ++ ys) = branchSolutions I xs + branchSolutions I ys := by
  rw [branchSolutions, ← Multiset.coe_add, Multiset.add_bind]
  rfl

theorem branchSolutions_single (branch : List PatternItem) :
    branchSolutions I [branch] = Mapping.joinAll (branch.map (patternSolutions I)) :=
  Multiset.singleton_bind branch _

theorem extend_union {P : GraphPattern} {bound : Bound} {branches : List (List PatternItem)}
    (h : unionBranches P scope = some (bound, branches)) (hin : InScope I scope G γ) :
    Mapping.extend γ (I.eval G P) = Mapping.extend γ (branchSolutions I branches) := by
  induction P generalizing scope G γ bound branches with
  | union left right ihl ihr =>
    simp only [unionBranches, Option.bind_eq_bind, Option.bind_eq_some_iff, Option.pure_def, Option.some.injEq,
      Prod.mk.injEq] at h
    obtain ⟨⟨a, xs⟩, hl, ⟨b, ys⟩, hr, -, rfl⟩ := h
    rw [Interpretation.eval, Mapping.extend_add, ihl hl hin, ihr hr hin, branchSolutions_append, Mapping.extend_add]
  | graph name inner ih =>
    rw [unionBranches] at h
    split at h
    · have hspec := unionBranches_spec h
      cases name with
      | namedNode g =>
        rw [Interpretation.eval]
        split
        · rename_i hg
          exact ih h ⟨rfl, hg⟩
        · rename_i hg
          have hzero : branchSolutions I branches = 0 := by
            rw [branchSolutions, Multiset.bind_congr fun branch hb => branch_no_graph (hspec branch hb).1
              (fun p hp => ((hspec branch hb).2.1 p hp).2 (by simp [innerScope])) hg]
            exact Multiset.bind_zero _
          rw [hzero]
      | var v =>
        rw [Interpretation.eval]
        refine extend_all_graphs (fun ρ hρ => ?_) fun n hn γ' _ hv => ih h ⟨n, hn, rfl, hv⟩
        obtain ⟨branch, hb, hρ⟩ := Multiset.mem_bind.1 hρ
        exact lookup_branch (hspec branch hb).1 (fun p hp => ((hspec branch hb).2.1 p hp).2 (by simp [innerScope])) hρ
    · cases h
  | bgp patterns =>
    simp only [unionBranches] at h
    split at h
    · cases h
    · rename_i hu
      simp only [Bool.or_eq_true, Bool.not_eq_true', not_or, Bool.not_eq_true, Bool.not_eq_false, List.all_eq_true] at hu
      cases h
      rw [eval_bgp hu.2, branchSolutions_single, extend_patterns hin]
      simp only [List.map_map]
      rfl
  | _ => simp [unionBranches] at h

theorem extend_alternatives {subject object : TermPattern} {path : PropertyPathExpression} {branches : List (List PatternItem)}
    (h : pathAlternatives path subject object scope = some branches) (hin : InScope I scope G γ) :
    Mapping.extend γ (I.pathSolutions G subject object path) = Mapping.extend γ (branchSolutions I branches) := by
  induction path generalizing branches with
  | namedNode p =>
    have hone : branches = [[⟨withoutBlankNodes ⟨subject, .namedNode p, object⟩, scope⟩]] := by
      cases subject <;> cases object <;> cases h <;> rfl
    rw [hone, branchSolutions_single, Interpretation.pathSolutions, extend_pattern hin, List.map_singleton,
      Mapping.joinAll_cons, Mapping.joinAll_nil, Mapping.join_unit]
  | alternative a b iha ihb =>
    simp only [pathAlternatives, Option.bind_eq_bind, Option.bind_eq_some_iff, Option.pure_def, Option.some.injEq] at h
    obtain ⟨xs, hx, ys, hy, rfl⟩ := h
    rw [Interpretation.pathSolutions, Mapping.extend_add, iha hx, ihb hy, branchSolutions_append, Mapping.extend_add]
  | _ => simp [pathAlternatives] at h

theorem closureSolutions_renameBlank (subject object : TermPattern) (path : PropertyPathExpression) :
    I.closureSolutions G (renameBlank subject) path (renameBlank object) = I.closureSolutions G subject path object := by
  cases subject <;> cases object <;> rfl

theorem extend_closureItem {subject object : TermPattern} {path : PropertyPathExpression} {c : ClosureItem}
    (h : closureItem path subject object scope = some c) (hin : InScope I scope G γ) :
    Mapping.extend γ (I.closureSolutions G subject path object) = Mapping.extend γ (closureItemSolutions I c) := by
  obtain ⟨hs, ho, -, -, hsc, hp⟩ := closureItem_spec h
  rw [closureItemSolutions, hsc, hs, ho, hp]
  cases scope with
  | default =>
    cases hin
    rw [closureSolutions_renameBlank]
  | named g =>
    obtain ⟨rfl, hg⟩ := hin
    simp only [hg, if_true, closureSolutions_renameBlank]
  | var v =>
    obtain ⟨n, hn, rfl, hv⟩ := hin
    simp only
    rw [extend_graphs hv, if_pos hn, closureSolutions_renameBlank]

end Leaf

/-! ## Anchored patterns -/

/-- Something the pattern requires is matched in its block's graph, so the graph has to be
there. A `VALUES` is not, and neither is a basic graph pattern without patterns. -/
def anchored : GraphPattern → Bool
  | .bgp patterns => !patterns.isEmpty
  | .path _ _ _ => true
  | .union _ _ => true
  | .join left right => anchored left || anchored right
  | .leftJoin left _ _ => anchored left
  | .minus left _ => anchored left
  | .filter _ inner => anchored inner
  | .project inner _ => anchored inner
  | _ => false

section Anchored
variable {I : Interpretation} {converts : Expression → Bool} {P : GraphPattern} {scope : Scope} {n : Nat} {bound : Bound}
  {items : List Item} {filters free : List Filter}

theorem required_single (item : Item) : required I [item] = itemSolutions I item := by
  rw [required, List.map_singleton, Mapping.joinAll_cons, Mapping.joinAll_nil, Mapping.join_unit]

theorem required_optional (items : List Item) (mode : OnMatch) (items' : List Item) (indices : List Nat)
    (fresh : List Variable) : required I (items ++ [.optional mode items' indices fresh]) = required I items := by
  rw [required_append, required_single, itemSolutions, Mapping.join_unit]

theorem required_bgp (patterns : List TriplePattern) :
    required I (patterns.map (fun t => .pattern ⟨withoutBlankNodes t, scope⟩)) =
      Mapping.joinAll ((patterns.map (fun t => ⟨withoutBlankNodes t, scope⟩)).map (patternSolutions I)) := by
  rw [required, List.map_map, List.map_map]
  rfl

/-- What an anchored pattern requires names the graph. -/
theorem Collected.anchored_var (h : Collected converts P scope n bound items filters free) (ha : anchored P = true)
    {v : Variable} (hs : scope = .var v) {ρ : Solution} (hρ : ρ ∈ required I items) : ∃ n ∈ I.graphs, ρ.lookup v = some n := by
  induction h generalizing ρ with
  | @bgp patterns _ _ _ _ h =>
    obtain ⟨rfl, -, -⟩ := collectBgp_spec h
    rw [required_bgp] at hρ
    refine lookup_branch (by simpa [anchored] using ha) (fun p hp => ?_) hρ
    obtain ⟨t, -, rfl⟩ := List.mem_map.1 hp
    exact hs
  | project h hv ih => exact ih ha hs hρ
  | filter h hn ih => exact ih ha hs hρ
  | graph h ih => cases ha
  | minus hl hr ihl ihr =>
    rw [required_optional] at hρ
    exact ihl ha hs hρ
  | leftJoin hl hr hc ihl ihr =>
    rw [required_optional] at hρ
    exact ihl ha hs hρ
  | join hl hr ihl ihr =>
    rw [required_append] at hρ
    obtain ⟨σ, hσ, τ, hτ, hc, rfl⟩ := Mapping.mem_join.1 hρ
    simp only [anchored, Bool.or_eq_true] at ha
    rcases ha with ha | ha
    · obtain ⟨n, hn, hv⟩ := ihl ha hs hσ
      exact ⟨n, hn, Mapping.lookup_union_of_left hv⟩
    · obtain ⟨n, hn, hv⟩ := ihr ha hs hτ
      exact ⟨n, hn, Mapping.lookup_union_of_right hc hv⟩
  | closure h =>
    obtain ⟨-, -, -, -, hsc, -⟩ := closureItem_spec h
    rw [required_single, itemSolutions, closureItemSolutions, hsc, hs] at hρ
    obtain ⟨n, hn, hρ⟩ := Multiset.mem_bind.1 hρ
    refine ⟨n, hn, Mapping.extends_of_mem_extend hρ v n ?_⟩
    simp [Finmap.lookup_singleton_eq]
  | alternatives h =>
    obtain ⟨-, -, -, hb⟩ := pathAlternatives_spec h
    rw [required_single, itemSolutions] at hρ
    obtain ⟨branch, hbr, hρ⟩ := Multiset.mem_bind.1 hρ
    obtain ⟨p, rfl⟩ := hb branch hbr
    exact lookup_branch (by simp) (by simpa using hs) hρ
  | union h =>
    rw [required_single, itemSolutions] at hρ
    obtain ⟨branch, hbr, hρ⟩ := Multiset.mem_bind.1 hρ
    obtain ⟨hne, hp, -⟩ := unionBranches_spec h branch hbr
    exact lookup_branch hne (fun p hm => ((hp p hm).2 (by rw [hs]; simp)).trans hs) hρ
  | values => cases ha

/-- What an anchored pattern requires is not in a graph that is not there. -/
theorem Collected.anchored_named (h : Collected converts P scope n bound items filters free) (ha : anchored P = true)
    {g : NamedNode} (hs : scope = .named g) (hg : I.intern (.namedNode g) ∉ I.graphs) : required I items = 0 := by
  induction h with
  | @bgp patterns _ _ _ _ h =>
    obtain ⟨rfl, -, -⟩ := collectBgp_spec h
    rw [required_bgp]
    refine branch_no_graph (by simpa [anchored] using ha) (fun p hp => ?_) hg
    obtain ⟨t, -, rfl⟩ := List.mem_map.1 hp
    exact hs
  | project h hv ih => exact ih ha hs
  | filter h hn ih => exact ih ha hs
  | graph h ih => cases ha
  | minus hl hr ihl ihr => rw [required_optional, ihl ha hs]
  | leftJoin hl hr hc ihl ihr => rw [required_optional, ihl ha hs]
  | join hl hr ihl ihr =>
    simp only [anchored, Bool.or_eq_true] at ha
    rw [required_append]
    rcases ha with ha | ha
    · rw [ihl ha hs, Mapping.zero_join]
    · rw [ihr ha hs, Mapping.join_zero]
  | closure h =>
    obtain ⟨-, -, -, -, hsc, -⟩ := closureItem_spec h
    rw [required_single, itemSolutions, closureItemSolutions, hsc, hs]
    exact if_neg hg
  | alternatives h =>
    obtain ⟨-, -, -, hb⟩ := pathAlternatives_spec h
    rw [required_single, itemSolutions, Multiset.bind_congr fun branch hbr => ?_]
    · exact Multiset.bind_zero _
    · obtain ⟨p, rfl⟩ := hb branch hbr
      exact branch_no_graph (by simp) (by simpa using hs) hg
  | union h =>
    rw [required_single, itemSolutions, Multiset.bind_congr fun branch hbr => ?_]
    · exact Multiset.bind_zero _
    · obtain ⟨hne, hp, -⟩ := unionBranches_spec h branch hbr
      exact branch_no_graph hne (fun p hm => ((hp p hm).2 (by rw [hs]; simp)).trans hs) hg
  | values => cases ha

end Anchored

end Holos.Engine.Bindjoin
