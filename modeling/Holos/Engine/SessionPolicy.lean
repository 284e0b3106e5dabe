import Holos.Engine.World
import Holos.Security.PolicyTheorems
import Holos.Store.Naming
/-!
# A session's policy over a run

The store is worked on in any order, and every now and then the session is asked for its policy.
What it returns is compiled from ids the store had at some time. `Compiled` says when that still
decides every stored quad as the rules would on the ids the store has now.
-/

namespace Holos

open Lib Security

/-! ## The IRIs of a policy -/

namespace Security

def Scope.iris : Scope → List NamedNode
  | .everything => []
  | .graph g => [g]
  | .predicate p => [p]
  | .graphPredicate g p => [g, p]

/-- The IRIs a policy names for a principal: in the rules that apply, and the labelled graphs. -/
def Policy.iris (self : Policy) (principal : Principal) : List NamedNode :=
  (self.rules.filter (fun r => r.appliesTo.matches principal)).flatMap (fun r => r.scope.iris) ++ self.graphLabels.map (·.1)

variable {look look' : Look} {e : EncodedQuad} {policy : Policy} {principal : Principal}

/-- The two have the same of some IRIs, as far as the predicate and the graph of a quad go. -/
def Alike (look look' : Look) (e : EncodedQuad) (iris : List NamedNode) : Prop :=
  ∀ n ∈ iris, ∀ i, i = e.predicate ∨ e.graphName = some i → (look n = some i ↔ look' n = some i)

theorem Scope.covers_alike {s : Scope} (h : Alike look look' e s.iris) : s.covers look e = s.covers look' e := by
  have hgraph : ∀ g ∈ s.iris, e.graphName.any (fun id => look g = some id) = e.graphName.any (fun id => look' g = some id) := by
    intro g hg
    cases he : e.graphName with
    | none => rfl
    | some id => simp [h g hg id (.inr he)]
  have hpredicate : ∀ p ∈ s.iris, decide (look p = some e.predicate) = decide (look' p = some e.predicate) := by
    intro p hp
    simp [h p hp e.predicate (.inl rfl)]
  cases s with
  | everything => rfl
  | graph g => exact hgraph g (by simp [Scope.iris])
  | predicate p => exact hpredicate p (by simp [Scope.iris])
  | graphPredicate g p =>
    simp only [Scope.covers]
    rw [hgraph g (by simp [Scope.iris]), hpredicate p (by simp [Scope.iris])]

theorem level_alike (h : Alike look look' e (policy.iris principal)) (n : Nat) :
    level policy look principal e n = level policy look' principal e n := by
  refine List.filter_congr (fun r hr => ?_)
  cases hm : r.appliesTo.matches principal with
  | false => simp
  | true =>
    rw [Scope.covers_alike (fun m hmem => h m ?_)]
    exact List.mem_append_left _ (List.mem_flatMap.2 ⟨r, List.mem_filter.2 ⟨hr, hm⟩, hmem⟩)

theorem refused_alike (h : Alike look look' e (policy.iris principal)) :
    refused policy look principal e = refused policy look' principal e := by
  unfold refused
  cases he : e.graphName with
  | none => rfl
  | some g =>
    rw [Bool.eq_iff_iff]
    simp only [List.any_eq_true, Bool.and_eq_true, decide_eq_true_eq]
    refine exists_congr (fun l => and_congr_right (fun hl => and_congr_left (fun _ => ?_)))
    exact h l.1 (List.mem_append_right _ (List.mem_map.2 ⟨l, hl, rfl⟩)) g (.inr he)

/-- Compiled from ids that are alike, a policy decides the quad alike. -/
theorem decideQuad_alike (h : Alike look look' e (policy.iris principal)) {len len' : Nat} {cp cp' : CompiledPolicy}
    (hcp : policy.compileWith (resolving look) len principal = .ok cp)
    (hcp' : policy.compileWith (resolving look') len' principal = .ok cp') (mode : Modes) :
    cp.decideQuad e mode = cp'.decideQuad e mode := by
  obtain ⟨c, hc, hdef, hsem, hslots, hclr⟩ := compileWith_slots look policy principal len
  obtain ⟨c', hc', hdef', hsem', hslots', hclr'⟩ := compileWith_slots look' policy principal len'
  cases hcp.symm.trans hc
  cases hcp'.symm.trans hc'
  have hlevels : levels policy look principal e = levels policy look' principal e :=
    List.map_congr_left (fun n _ => level_alike h n)
  unfold CompiledPolicy.decideQuad CompiledPolicy.refusal
  rw [hclr e, hclr' e, refused_alike h, hslots e, hslots' e, hlevels, hdef, hdef', hsem, hsem']

theorem compileWith_len {resolve : Resolve} {len : Nat} {cp : CompiledPolicy}
    (h : policy.compileWith resolve len principal = .ok cp) : cp.compiledAtDictionaryLen = len := by
  unfold Policy.compileWith at h
  cases hb : (policy.rules.filter (fun r => r.appliesTo.matches principal)).foldlM (addRule resolve) {} with
  | error err =>
    rw [hb] at h
    cases h
  | ok b =>
    rw [hb] at h
    cases hacc : policy.graphLabels.foldlM (addLabel resolve principal) ([], b.unresolved) with
    | error err =>
      simp only [bind, Except.bind, hacc] at h
      cases h
    | ok acc =>
      simp only [bind, Except.bind, hacc] at h
      cases h
      rfl

/-! ### What was not resolved -/

theorem addRule_unresolved {b b' : Building} {r : Rule} (h : addRule (resolving look) b r = .ok b') (hb : b'.unresolved = []) :
    b.unresolved = [] ∧ ∀ n ∈ r.scope.iris, look n ≠ none := by
  unfold addRule at h
  cases hs : r.scope with
  | everything =>
    simp only [hs] at h
    cases h
    exact ⟨hb, by simp [Scope.iris]⟩
  | graph g =>
    cases hg : look g <;> simp only [hs, resolving, hg, bind, Except.bind] at h <;> cases h
    · simp at hb
    · exact ⟨hb, by simp [Scope.iris, hg]⟩
  | predicate p =>
    cases hp : look p <;> simp only [hs, resolving, hp, bind, Except.bind] at h <;> cases h
    · simp at hb
    · exact ⟨hb, by simp [Scope.iris, hp]⟩
  | graphPredicate g p =>
    cases hg : look g <;> cases hp : look p <;> simp only [hs, resolving, hg, hp, bind, Except.bind] at h <;> cases h
    · simp at hb
    · simp at hb
    · simp at hb
    · exact ⟨hb, by simp [Scope.iris, hg, hp]⟩

theorem addRules_unresolved {rs : List Rule} {b b' : Building} (h : rs.foldlM (addRule (resolving look)) b = .ok b')
    (hb : b'.unresolved = []) : b.unresolved = [] ∧ ∀ r ∈ rs, ∀ n ∈ r.scope.iris, look n ≠ none := by
  induction rs generalizing b with
  | nil =>
    cases h
    exact ⟨hb, by simp⟩
  | cons r rs ih =>
    rw [List.foldlM_cons] at h
    cases h₁ : addRule (resolving look) b r with
    | error err =>
      rw [h₁] at h
      cases h
    | ok b₁ =>
      rw [h₁] at h
      obtain ⟨h₂, hrs⟩ := ih h
      obtain ⟨h₃, hr⟩ := addRule_unresolved h₁ h₂
      exact ⟨h₃, List.forall_mem_cons.2 ⟨hr, hrs⟩⟩

theorem addLabels_unresolved {ls : List (NamedNode × Label)} {acc acc' : List TermId × List NamedNode}
    (h : ls.foldlM (addLabel (resolving look) principal) acc = .ok acc') (hacc : acc'.2 = []) :
    acc.2 = [] ∧ ∀ l ∈ ls, look l.1 ≠ none := by
  induction ls generalizing acc with
  | nil =>
    cases h
    exact ⟨hacc, by simp⟩
  | cons l ls ih =>
    rw [List.foldlM_cons] at h
    cases hl : look l.1 with
    | none =>
      have h₁ : addLabel (resolving look) principal acc l = .ok (acc.1, acc.2 ++ [l.1]) := by
        simp only [addLabel, resolving, hl]
        rfl
      rw [h₁] at h
      have := (ih h).1
      simp at this
    | some id =>
      have h₁ : addLabel (resolving look) principal acc l =
          .ok (if principal.isClearedFor l.2 then acc else (acc.1 ++ [id], acc.2)) := by
        simp only [addLabel, resolving, hl]
        rfl
      rw [h₁] at h
      obtain ⟨h₂, hls⟩ := ih h
      refine ⟨?_, List.forall_mem_cons.2 ⟨by simp [hl], hls⟩⟩
      split at h₂
      · exact h₂
      · exact h₂

/-- With nothing unresolved, every IRI of the policy had an id. -/
theorem resolved_of_unresolved {len : Nat} {cp : CompiledPolicy} (h : policy.compileWith (resolving look) len principal = .ok cp)
    (hcp : cp.unresolved = []) : ∀ n ∈ policy.iris principal, look n ≠ none := by
  unfold Policy.compileWith at h
  cases hb : (policy.rules.filter (fun r => r.appliesTo.matches principal)).foldlM (addRule (resolving look)) {} with
  | error err =>
    rw [hb] at h
    cases h
  | ok b =>
    rw [hb] at h
    cases hacc : policy.graphLabels.foldlM (addLabel (resolving look) principal) ([], b.unresolved) with
    | error err =>
      simp only [bind, Except.bind, hacc] at h
      cases h
    | ok acc =>
      simp only [bind, Except.bind, hacc] at h
      cases h
      obtain ⟨h₁, hlabels⟩ := addLabels_unresolved hacc hcp
      obtain ⟨-, hrules⟩ := addRules_unresolved hb h₁
      intro n hn
      rcases List.mem_append.1 hn with hn | hn
      · obtain ⟨r, hr, hn⟩ := List.mem_flatMap.1 hn
        exact hrules r hr n hn
      · obtain ⟨l, hl, rfl⟩ := List.mem_map.1 hn
        exact hlabels l hl

end Security

end Holos
