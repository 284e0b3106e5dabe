import Holos.Sparql.Meaning
/-!
# The variables that are in scope

Which variables a row that answers a pattern may bind, by recursion over the pattern: a triple
pattern binds all it holds, a projection and a grouping hide what they do not name, and what is
taken away binds nothing.
-/

namespace Holos.Sparql

open Lib

def InScope (v : Variable) : GraphPattern → Prop
  | .bgp patterns => ∃ t ∈ patterns, t.Holds v
  | .path subject _ object => subject.Holds v ∨ object.Holds v
  | .join left right => InScope v left ∨ InScope v right
  | .leftJoin left right _ => InScope v left ∨ InScope v right
  | .filter _ inner => InScope v inner
  | .union left right => InScope v left ∨ InScope v right
  | .graph name inner => name.Holds v ∨ InScope v inner
  | .extend inner w _ => InScope v inner ∨ w = v
  | .minus left _ => InScope v left
  | .values vars _ => v ∈ vars
  | .orderBy inner _ => InScope v inner
  | .project inner vars => v ∈ vars ∧ InScope v inner
  | .distinct inner => InScope v inner
  | .reduced inner => InScope v inner
  | .slice inner _ _ => InScope v inner
  | .group _ vars aggregates => v ∈ vars ∨ ∃ a ∈ aggregates, a.1 = v
  | .service name inner _ => name.Holds v ∨ InScope v inner

/-! ## What rows bind -/

/-- Every row of `M` binds only what `p` says. -/
def Binds (p : Variable → Prop) (M : Multiset TermRow) : Prop := ∀ μ ∈ M, ∀ v ∈ μ.keys, p v

variable {p q : Variable → Prop} {M N : Multiset TermRow}

theorem Binds.mono (h : Binds p M) (hpq : ∀ v, p v → q v) : Binds q M := fun μ hμ v hv => hpq v (h μ hμ v hv)

theorem binds_empty : Binds p {∅} := by
  intro μ hμ v hv
  rw [Multiset.mem_singleton.1 hμ] at hv
  exact absurd hv (by simp)

theorem binds_singleton (v : Variable) (x : Term) : Binds (v = ·) {Finmap.singleton v x} := by
  intro μ hμ w hw
  rw [Multiset.mem_singleton.1 hμ, Finmap.mem_keys, Finmap.mem_singleton] at hw
  exact hw.symm

theorem binds_ite {c : Prop} [Decidable c] : Binds p (if c then {∅} else 0) := by
  split
  · exact binds_empty
  · exact fun μ hμ => absurd hμ (Multiset.notMem_zero μ)

theorem binds_extend {μ : TermRow} (hμ : ∀ v ∈ μ.keys, p v) (hM : Binds p M) : Binds p (Mapping.extend μ M) := by
  intro ν hν v hv
  obtain ⟨ρ, hρ, -, rfl⟩ := Mapping.mem_extend.1 hν
  rcases Mapping.mem_keys_union.1 hv with hv | hv
  · exact hμ v hv
  · exact hM ρ hρ v hv

theorem Binds.join (hM : Binds p M) (hN : Binds p N) : Binds p (Mapping.join M N) := by
  intro ν hν
  obtain ⟨μ, hμ, hν⟩ := Multiset.mem_bind.1 hν
  exact binds_extend (hM μ hμ) hN ν hν

theorem binds_bind {α : Type} {A : Multiset α} {f : α → Multiset TermRow} (h : ∀ a ∈ A, Binds p (f a)) : Binds p (A.bind f) := by
  intro μ hμ
  obtain ⟨a, ha, hμ⟩ := Multiset.mem_bind.1 hμ
  exact h a ha μ hμ

theorem NamedNodePattern.binds (t : NamedNodePattern) (n : NamedNode) : Binds (t.Holds ·) (t.rows n) := by
  cases t with
  | var v => exact binds_singleton v _
  | namedNode m => exact binds_ite

theorem TermPattern.binds (t : TermPattern) (x : Term) : Binds (t.Holds ·) (t.rows x) := by
  induction t generalizing x with
  | var v => exact binds_singleton v x
  | blankNode label => exact binds_singleton _ x
  | namedNode n => exact binds_ite
  | literal l => exact binds_ite
  | triple s pred o ihs iho =>
    cases x with
    | triple s' p' o' =>
      apply ((ihs s'.toTerm).mono fun v => Or.inl).join
      exact ((pred.binds p').mono fun v h => Or.inr (Or.inl h)).join ((iho o').mono fun v h => Or.inr (Or.inr h))
    | _ => exact fun μ hμ => absurd hμ (Multiset.notMem_zero μ)

theorem binds_tripleRows (D : RdfDataset) (G : GraphName) (t : TriplePattern) : Binds (t.Holds ·) (D.tripleRows G t) := by
  apply binds_bind
  intro quad _
  apply ((t.subject.binds quad.subject.toTerm).mono fun v => Or.inl).join
  exact ((t.predicate.binds quad.predicate).mono fun v h => Or.inr (Or.inl h)).join
    ((t.object.binds quad.object).mono fun v h => Or.inr (Or.inr h))

theorem binds_joinAll {Ms : List (Multiset TermRow)} (h : ∀ M ∈ Ms, Binds p M) : Binds p (Mapping.joinAll Ms) := by
  induction Ms with
  | nil => exact binds_empty
  | cons M Ms ih =>
    exact (h M List.mem_cons_self).join (ih fun N hN => h N (List.mem_cons_of_mem M hN))

theorem binds_groundRow (cells : List (Variable × Option GroundTerm)) : Binds (· ∈ cells.map Prod.fst) (groundRow cells) := by
  induction cells with
  | nil => exact binds_empty
  | cons cell cells ih =>
    obtain ⟨v, value⟩ := cell
    have hrest : Binds (· ∈ ((v, value) :: cells).map Prod.fst) (groundRow cells) := ih.mono fun w => List.mem_cons_of_mem v
    cases value with
    | none => exact hrest
    | some term =>
      refine ((binds_singleton v term.toTerm).mono fun w hw => ?_).join hrest
      rw [← hw]
      exact List.mem_cons_self

theorem mem_keys_bindVariable {v w : Variable} {value : Option Term} {μ : TermRow} (h : w ∈ (bindVariable v value μ).keys) :
    w ∈ μ.keys ∨ v = w := by
  cases value with
  | none => exact .inl h
  | some t =>
    have hw : w ∈ μ.insert v t := Finmap.mem_keys.1 h
    rcases Finmap.mem_insert.1 hw with rfl | hw
    · exact .inr rfl
    · exact .inl (Finmap.mem_keys.2 hw)

theorem mem_keys_foldl {γ : Type} {g : Variable × γ → Option Term} {as : List (Variable × γ)} {μ : TermRow} {v : Variable}
    (h : v ∈ (as.foldl (fun μ a => bindVariable a.1 (g a) μ) μ).keys) : v ∈ μ.keys ∨ ∃ a ∈ as, a.1 = v := by
  induction as generalizing μ with
  | nil => exact .inl h
  | cons a as ih =>
    rcases ih h with hv | ⟨b, hb, hbv⟩
    · rcases mem_keys_bindVariable hv with hv | hv
      · exact .inl hv
      · exact .inr ⟨a, List.mem_cons_self, hv⟩
    · exact .inr ⟨b, List.mem_cons_of_mem a hb, hbv⟩

theorem mem_keys_groupKeys {vars : List Variable} {l : List TermRow} {key : TermRow} (h : key ∈ groupKeys vars l) {v : Variable}
    (hv : v ∈ key.keys) : v ∈ vars := by
  unfold groupKeys at h
  split at h
  · rw [List.mem_singleton.1 h] at hv
    exact absurd hv (by simp)
  · obtain ⟨μ, -, rfl⟩ := List.mem_map.1 (List.mem_dedup.1 h)
    exact (Mapping.mem_keys_restrict.1 hv).1

/-! ## What answers bind -/

/-- Endpoints hand on parts of rows. -/
def Federation.Narrows (F : Federation) : Prop := ∀ p μ v, v ∈ (F.hand p μ).keys → v ∈ μ.keys

theorem Binds.handed {F : Federation} (hF : F.Narrows) {inner : GraphPattern} (h : Binds p M) : Binds p (M.map (F.hand inner)) := by
  intro ν hν v hv
  obtain ⟨μ, hμ, rfl⟩ := Multiset.mem_map.1 hν
  exact h μ hμ v (hF inner μ v hv)

theorem binds_some (v : Variable) (x : Term) : ∀ w ∈ (Finmap.singleton v x : TermRow).keys, v = w := by
  intro w hw
  exact binds_singleton v x _ (Multiset.mem_singleton_self _) w hw

open scoped Classical in
/-- A row that answers a pattern binds only variables that are in scope. -/
theorem Federation.Denotes.inScope {F : Federation} (hF : F.Narrows) {D : RdfDataset} {G : GraphName} {pattern : GraphPattern}
    {l : List TermRow} (h : F.Denotes D G pattern l) : Binds (InScope · pattern) l := by
  induction pattern generalizing D G l with
  | bgp patterns =>
    rw [Federation.Denotes] at h
    rw [h]
    apply binds_joinAll
    intro M hM
    obtain ⟨t, ht, rfl⟩ := List.mem_map.1 hM
    exact (binds_tripleRows D G t).mono fun v hv => ⟨t, ht, hv⟩
  | path subject path object =>
    rw [Federation.Denotes] at h
    rw [h]
    apply binds_bind
    intro xy _
    exact ((subject.binds xy.1).mono fun v => Or.inl).join ((object.binds xy.2).mono fun v => Or.inr)
  | join left right ihl ihr =>
    obtain ⟨l₁, l₂, h₁, h₂, heq⟩ := h
    rw [heq]
    exact ((ihl h₁).mono fun v => Or.inl).join ((ihr h₂).mono fun v => Or.inr)
  | leftJoin left right expression ihl ihr =>
    obtain ⟨l₁, l₂, h₁, h₂, heq⟩ := h
    rw [heq]
    apply binds_bind
    intro μ hμ
    have hleft : ∀ v ∈ μ.keys, InScope v (.leftJoin left right expression) := fun v hv => .inl (ihl h₁ μ hμ v hv)
    unfold orAlone
    split
    · intro ν hν v hv
      rw [Multiset.mem_singleton.1 hν] at hv
      exact hleft v hv
    · intro ν hν
      exact binds_extend hleft ((ihr h₂).mono fun v => Or.inr) ν (Multiset.mem_filter.1 hν).1
  | filter expr inner ih =>
    obtain ⟨l₀, h₀, heq⟩ := h
    rw [heq]
    exact fun μ hμ => ih h₀ μ (Multiset.mem_filter.1 hμ).1
  | union left right ihl ihr =>
    obtain ⟨l₁, l₂, h₁, h₂, heq⟩ := h
    rw [heq]
    intro μ hμ v hv
    rcases Multiset.mem_add.1 hμ with hμ | hμ
    · exact .inl (ihl h₁ μ hμ v hv)
    · exact .inr (ihr h₂ μ hμ v hv)
  | graph name inner ih =>
    cases name with
    | namedNode n =>
      rw [Federation.Denotes] at h
      split at h
      · exact (ih h).mono fun v => Or.inr
      · rw [h]
        exact fun μ hμ => absurd hμ (Multiset.notMem_zero μ)
    | var w =>
      obtain ⟨found, hfound, heq⟩ := h
      rw [heq]
      apply binds_bind
      intro n hn
      apply binds_extend
      · exact fun v hv => .inl (binds_some w n.toTerm v hv)
      · exact (ih (hfound n hn)).mono fun v => Or.inr
  | extend inner w expression ih =>
    obtain ⟨l₀, h₀, heq⟩ := h
    rw [heq]
    intro ν hν v hv
    obtain ⟨μ, hμ, rfl⟩ := Multiset.mem_map.1 hν
    rcases mem_keys_bindVariable hv with hv | hv
    · exact .inl (ih h₀ μ hμ v hv)
    · exact .inr hv
  | minus left right ihl ihr =>
    obtain ⟨l₁, l₂, h₁, -, heq⟩ := h
    rw [heq]
    exact fun μ hμ => ihl h₁ μ (Multiset.mem_filter.1 hμ).1
  | values vars bindings =>
    rw [Federation.Denotes] at h
    rw [h]
    apply binds_bind
    intro row _
    refine (binds_groundRow (vars.zip row)).mono fun v hv => ?_
    obtain ⟨cell, hcell, rfl⟩ := List.mem_map.1 hv
    exact (List.of_mem_zip hcell).1
  | orderBy inner expression ih =>
    obtain ⟨l₀, h₀, hperm, -⟩ := h
    exact fun μ hμ => ih h₀ μ (hperm.mem_iff.1 hμ)
  | project inner vars ih =>
    obtain ⟨l₀, h₀, rfl⟩ := h
    intro ν hν v hv
    obtain ⟨μ, hμ, rfl⟩ := List.mem_map.1 hν
    obtain ⟨hin, hkey⟩ := Mapping.mem_keys_restrict.1 hv
    exact ⟨hin, ih h₀ μ hμ v hkey⟩
  | distinct inner ih =>
    obtain ⟨l₀, h₀, hsub, -⟩ := h
    exact fun μ hμ => ih h₀ μ (hsub.subset hμ)
  | reduced inner ih =>
    obtain ⟨l₀, h₀, hsub, -⟩ := h
    exact fun μ hμ => ih h₀ μ (hsub.subset hμ)
  | slice inner start length ih =>
    obtain ⟨l₀, h₀, rfl⟩ := h
    intro μ hμ
    apply ih h₀ μ
    cases length with
    | none => exact List.mem_of_mem_drop hμ
    | some n => exact List.mem_of_mem_drop (List.mem_of_mem_take hμ)
  | group inner vars aggregates ih =>
    obtain ⟨l₀, -, heq⟩ := h
    rw [heq]
    intro ν hν v hv
    obtain ⟨key, hkey, rfl⟩ := List.mem_map.1 (Multiset.mem_coe.1 hν)
    rcases mem_keys_foldl hv with hv | hv
    · exact .inl (mem_keys_groupKeys hkey hv)
    · exact .inr hv
  | service name inner silent ih =>
    cases name with
    | namedNode n =>
      rw [Federation.Denotes] at h
      split at h
      · obtain ⟨l₀, h₀, heq⟩ := h
        rw [heq]
        exact ((ih h₀).mono fun v => Or.inr).handed hF
      · rw [h.2]
        exact binds_empty
    | var w =>
      obtain ⟨found, hfound, heq⟩ := h
      rw [heq]
      apply binds_bind
      intro e he
      apply binds_extend
      · exact fun v hv => .inl (binds_some w (.namedNode e.1) v hv)
      · exact ((ih (hfound e he)).mono fun v => Or.inr).handed hF

end Holos.Sparql
