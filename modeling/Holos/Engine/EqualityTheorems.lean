import Holos.Engine.Equality
import Holos.Engine.SessionWrites
import Holos.Sparql.Meaning
/-!
# The answers stay

A row a filter accepts binds each pinned variable to a term of its list, whatever else the filter
asks. A row of the pattern under it binds the variable to a term the store knows. So the list takes
away only rows the filter would, and gives back none twice.
-/

namespace Holos.Engine.Equality

open Sparql Lib

/-! ## What a filter accepts -/

/-- What is relied on of the evaluator's comparisons. -/
structure Compares (holds : Expression → TermRow → Bool) : Prop where
  conj : ∀ {a b μ}, holds (.binary .and a b) μ = true → holds a μ = true ∧ holds b μ = true
  equal_comm : ∀ a b μ, holds (.binary .equal a b) μ = holds (.binary .equal b a) μ
  same_comm : ∀ a b μ, holds (.binary .sameTerm a b) μ = holds (.binary .sameTerm b a) μ
  equal_iri : ∀ {v n μ}, holds (.binary .equal (.var v) (.namedNode n)) μ = true → μ.lookup v = some (.namedNode n)
  equal_plain : ∀ {v s μ}, holds (.binary .equal (.var v) (.literal (.simple s))) μ = true → μ.lookup v = some (.literal (.simple s))
  same_iri : ∀ {v n μ}, holds (.binary .sameTerm (.var v) (.namedNode n)) μ = true → μ.lookup v = some (.namedNode n)
  same_literal : ∀ {v l μ}, holds (.binary .sameTerm (.var v) (.literal l)) μ = true → μ.lookup v = some (.literal l)
  isIn : ∀ {a list μ}, holds (.isIn a list) μ = true → ∃ b ∈ list, holds (.binary .equal a b) μ = true
  str : ∀ {v s l μ}, holds (.binary .equal (.functionCall Str [.var v]) (.literal (.simple s))) μ = true → μ.lookup v = some (.literal l) →
    l.value = s
  lang : ∀ {v s μ}, holds (.binary .equal (.functionCall Lang [.var v]) (.literal (.simple s))) μ = true → s ≠ "" →
    ∃ l, μ.lookup v = some (.literal l) ∧ l.language = some s

/-- A row binds a variable to a term of a list. -/
def Meets (p : Variable × List GroundTerm) (μ : TermRow) : Prop := ∃ t ∈ p.2, μ.lookup p.1 = some t.toTerm

theorem isPlain_iff {l : Literal} : isPlain l = true ↔ l = .simple l.value := by
  cases l with
  | simple s => simp [isPlain, Literal.datatype, Literal.value]
  | typed s d h => simp [isPlain, Literal.datatype, h]
  | languageTagged s tag => simp [isPlain, Literal.datatype, rdfLangString, Xsd.string]
  | directional s tag dir => simp [isPlain, Literal.datatype, rdfDirLangString, Xsd.string]

theorem constant_eq {e : Expression} {t : GroundTerm} (h : constant e = some t) :
    (∃ n, e = .namedNode n ∧ t = .namedNode n) ∨ ∃ l, e = .literal l ∧ t = .literal l := by
  cases e with
  | namedNode n =>
    cases h
    exact .inl ⟨n, rfl, rfl⟩
  | literal l =>
    cases h
    exact .inr ⟨l, rfl, rfl⟩
  | _ => cases h

theorem equalAdmits_eq {t t' : GroundTerm} (h : equalAdmits t = some t') : t' = t ∧ ∀ l, t = .literal l → l = .simple l.value := by
  cases t with
  | namedNode n =>
    cases h
    exact ⟨rfl, fun l hl => by cases hl⟩
  | literal l =>
    simp only [equalAdmits] at h
    split_ifs at h with hplain
    cases h
    refine ⟨rfl, fun l' hl => ?_⟩
    cases hl
    exact isPlain_iff.1 hplain
  | triple => cases h

theorem variableAndConstant_eq {a b : Expression} {v : Variable} {t : GroundTerm} (h : variableAndConstant a b = some (v, t)) :
    (a = .var v ∧ constant b = some t) ∨ (b = .var v ∧ constant a = some t) := by
  unfold variableAndConstant at h
  split at h
  · obtain ⟨t', ht, heq⟩ := Option.map_eq_some_iff.1 h
    cases heq
    exact .inl ⟨rfl, ht⟩
  · obtain ⟨t', ht, heq⟩ := Option.map_eq_some_iff.1 h
    cases heq
    exact .inr ⟨rfl, ht⟩
  · cases h

theorem call_eq {f : Function} {e : Expression} {v : Variable} (h : call f e = some v) : e = .functionCall f [.var v] := by
  unfold call at h
  split at h
  · split_ifs at h with hf
    cases h
    rw [hf]
  · cases h

theorem string_eq {e : Expression} {s : String} (h : string e = some s) : e = .literal (.simple s) := by
  unfold string at h
  split at h
  · split_ifs at h with hplain
    cases h
    rw [← isPlain_iff.1 hplain]
  · cases h

theorem functionAndString_eq {f : Function} {a b : Expression} {v : Variable} {s : String} (h : functionAndString a b f = some (v, s)) :
    (a = .functionCall f [.var v] ∧ b = .literal (.simple s)) ∨ (b = .functionCall f [.var v] ∧ a = .literal (.simple s)) := by
  unfold functionAndString at h
  split at h
  · rename_i hcall hstring
    cases h
    exact .inl ⟨call_eq hcall, string_eq hstring⟩
  · obtain ⟨w, hcall, h⟩ := Option.bind_eq_some_iff.1 h
    obtain ⟨s', hstring, heq⟩ := Option.map_eq_some_iff.1 h
    cases heq
    exact .inr ⟨call_eq hcall, string_eq hstring⟩

/-- A list that admits some terms is of these constants, each with its own. -/
theorem listAdmits_eq {list : List Expression} {terms : List GroundTerm} (h : listAdmits list = some terms) :
    terms.Nodup ∧ ∀ e ∈ list, ∃ t ∈ terms, constant e = some t ∧ equalAdmits t = some t := by
  suffices hgen : ∀ (list : List Expression) (acc : List GroundTerm), acc.Nodup →
      list.foldlM (fun terms element => do
        let term ← equalAdmits (← constant element)
        return if term ∈ terms then terms else terms ++ [term]) acc = some terms →
      terms.Nodup ∧ (∀ t ∈ acc, t ∈ terms) ∧ ∀ e ∈ list, ∃ t ∈ terms, constant e = some t ∧ equalAdmits t = some t by
    obtain ⟨h₁, -, h₂⟩ := hgen list [] List.nodup_nil h
    exact ⟨h₁, h₂⟩
  intro list
  induction list with
  | nil =>
    intro acc hacc h
    cases h
    exact ⟨hacc, fun _ ht => ht, fun e he => by cases he⟩
  | cons e list ih =>
    intro acc hacc h
    rw [List.foldlM_cons] at h
    obtain ⟨acc', hstep, h⟩ := Option.bind_eq_some_iff.1 h
    obtain ⟨t, hconstant, hfirst⟩ := Option.bind_eq_some_iff.1 hstep
    obtain ⟨t', hadmits, hadd⟩ := Option.bind_eq_some_iff.1 hfirst
    obtain ⟨rfl, -⟩ := equalAdmits_eq hadmits
    cases hadd
    have hnodup : (if t' ∈ acc then acc else acc ++ [t']).Nodup := by
      split_ifs with hmem
      · exact hacc
      · exact List.nodup_append.2 ⟨hacc, List.nodup_singleton t', fun a ha b hb heq => hmem (by
          rw [List.mem_singleton.1 hb] at heq
          exact heq ▸ ha)⟩
    obtain ⟨h₁, h₂, h₃⟩ := ih _ hnodup h
    have hin : t' ∈ terms := h₂ t' (by split_ifs with hmem <;> simp [hmem])
    refine ⟨h₁, fun u hu => h₂ u (by split_ifs <;> simp [hu]), fun e' he' => ?_⟩
    rcases List.mem_cons.1 he' with rfl | he'
    · exact ⟨t', hin, hconstant, hadmits⟩
    · exact h₃ e' he'

section
variable {holds : Expression → TermRow → Bool} (hc : Compares holds) {μ : TermRow} {p : Variable × List GroundTerm}
include hc

theorem equal_constant {v : Variable} {e : Expression} {t : GroundTerm} (hconstant : constant e = some t) (hadmits : equalAdmits t = some t)
    (h : holds (.binary .equal (.var v) e) μ = true) : μ.lookup v = some t.toTerm := by
  rcases constant_eq hconstant with ⟨n, rfl, rfl⟩ | ⟨l, rfl, rfl⟩
  · exact hc.equal_iri h
  · rw [(equalAdmits_eq hadmits).2 l rfl] at h ⊢
    exact hc.equal_plain h

theorem same_constant {v : Variable} {e : Expression} {t : GroundTerm} (hconstant : constant e = some t)
    (h : holds (.binary .sameTerm (.var v) e) μ = true) : μ.lookup v = some t.toTerm := by
  rcases constant_eq hconstant with ⟨n, rfl, rfl⟩ | ⟨l, rfl, rfl⟩
  · exact hc.same_iri h
  · exact hc.same_literal h

theorem pin_meets {e : Expression} (hpin : pin e = some p) (h : holds e μ = true) : Meets p μ := by
  unfold pin at hpin
  split at hpin
  · rename_i a b
    obtain ⟨⟨v, t⟩, hboth, hpin⟩ := Option.bind_eq_some_iff.1 hpin
    obtain ⟨t', hadmits, rfl⟩ := Option.map_eq_some_iff.1 hpin
    obtain ⟨rfl, -⟩ := equalAdmits_eq hadmits
    refine ⟨t', List.mem_singleton_self t', ?_⟩
    rcases variableAndConstant_eq hboth with ⟨rfl, hconstant⟩ | ⟨rfl, hconstant⟩
    · exact equal_constant hc hconstant hadmits h
    · rw [hc.equal_comm] at h
      exact equal_constant hc hconstant hadmits h
  · rename_i a b
    obtain ⟨⟨v, t⟩, hboth, rfl⟩ := Option.map_eq_some_iff.1 hpin
    refine ⟨t, List.mem_singleton_self t, ?_⟩
    rcases variableAndConstant_eq hboth with ⟨rfl, hconstant⟩ | ⟨rfl, hconstant⟩
    · exact same_constant hc hconstant h
    · rw [hc.same_comm] at h
      exact same_constant hc hconstant h
  · rename_i v list
    obtain ⟨terms, hlist, rfl⟩ := Option.map_eq_some_iff.1 hpin
    obtain ⟨b, hb, h⟩ := hc.isIn h
    obtain ⟨t, ht, hconstant, hadmits⟩ := (listAdmits_eq hlist).2 b hb
    exact ⟨t, ht, equal_constant hc hconstant hadmits h⟩
  · cases hpin

/-- A text and a tag leave three terms. -/
theorem labels_meets {a b : Expression} {v : Variable} {value language : String} (hstring : stringOf a = some (v, value))
    (hlanguage : languageOf b = some (v, language)) (hne : language ≠ "") (ha : holds a μ = true) (hb : holds b μ = true) :
    Meets (v, labels value language) μ := by
  have hstr : holds (.binary .equal (.functionCall Str [.var v]) (.literal (.simple value))) μ = true := by
    unfold stringOf at hstring
    split at hstring
    · split_ifs at hstring
      rcases functionAndString_eq hstring with ⟨rfl, rfl⟩ | ⟨rfl, rfl⟩
      · exact ha
      · rw [hc.equal_comm]
        exact ha
    · cases hstring
  have hlang : holds (.binary .equal (.functionCall Lang [.var v]) (.literal (.simple language))) μ = true := by
    unfold languageOf at hlanguage
    split at hlanguage
    · split_ifs at hlanguage
      rcases functionAndString_eq hlanguage with ⟨rfl, rfl⟩ | ⟨rfl, rfl⟩
      · exact hb
      · rw [hc.equal_comm]
        exact hb
    · cases hlanguage
  obtain ⟨l, hl, htag⟩ := hc.lang hlang hne
  have hvalue := hc.str hstr hl
  subst hvalue
  cases l with
  | simple s => cases htag
  | typed s d h => cases htag
  | languageTagged s tag =>
    cases htag
    exact ⟨_, List.mem_cons_self, hl⟩
  | directional s tag dir =>
    cases htag
    cases dir with
    | ltr => exact ⟨_, List.mem_cons_of_mem _ List.mem_cons_self, hl⟩
    | rtl => exact ⟨_, List.mem_cons_of_mem _ (List.mem_cons_of_mem _ List.mem_cons_self), hl⟩

/-- A row the filter accepts meets each pin. -/
theorem pins_meets {expr : Expression} (hp : p ∈ pins expr) (h : holds expr μ = true) : Meets p μ := by
  have hall : ∀ e ∈ flatten expr, holds e μ = true := by
    intro e he
    unfold flatten at he
    clear hp
    induction expr using flattenConjunction.induct with
    | case1 a b iha ihb =>
      unfold flattenConjunction at he
      obtain ⟨ha, hb⟩ := hc.conj h
      rcases List.mem_append.1 he with he | he
      · exact iha ha he
      · exact ihb hb he
    | case2 expr hne =>
      unfold flattenConjunction at he
      split at he
      · exact absurd rfl (hne _ _)
      · rw [List.mem_singleton.1 he]
        exact h
  rcases List.mem_append.1 hp with hp | hp
  · obtain ⟨e, he, hpin⟩ := List.mem_filterMap.1 hp
    exact pin_meets hc hpin (hall e he)
  · obtain ⟨⟨v, value⟩, hs, hp⟩ := List.mem_flatMap.1 hp
    obtain ⟨⟨w, language⟩, hl, hp⟩ := List.mem_filterMap.1 hp
    obtain ⟨a, ha, hstring⟩ := List.mem_filterMap.1 hs
    obtain ⟨b, hb, hlanguage⟩ := List.mem_filterMap.1 hl
    split_ifs at hp with hbad
    cases hp
    obtain ⟨hv, hne⟩ := not_or.1 hbad
    obtain rfl := not_not.1 hv
    exact labels_meets hc hstring hlanguage hne (hall a ha) (hall b hb)

end

/-- No term is in a list twice. -/
theorem nodup_pins {expr : Expression} {p : Variable × List GroundTerm} (hp : p ∈ pins expr) : p.2.Nodup := by
  rcases List.mem_append.1 hp with hp | hp
  · obtain ⟨e, -, hpin⟩ := List.mem_filterMap.1 hp
    unfold pin at hpin
    split at hpin
    · obtain ⟨_, -, hpin⟩ := Option.bind_eq_some_iff.1 hpin
      obtain ⟨t, -, rfl⟩ := Option.map_eq_some_iff.1 hpin
      exact List.nodup_singleton t
    · obtain ⟨⟨v, t⟩, -, rfl⟩ := Option.map_eq_some_iff.1 hpin
      exact List.nodup_singleton t
    · obtain ⟨terms, hlist, rfl⟩ := Option.map_eq_some_iff.1 hpin
      exact (listAdmits_eq hlist).1
    · cases hpin
  · obtain ⟨s, -, hp⟩ := List.mem_flatMap.1 hp
    obtain ⟨l, -, hp⟩ := List.mem_filterMap.1 hp
    split_ifs at hp
    cases hp
    simp [labels]

/-! ## What a row binds from the store -/

section
variable (known : Term → Bool)

/-- A row binds each of these variables to a term the store knows. -/
def Fixed (vs : Finset Variable) (μ : TermRow) : Prop := ∀ v ∈ vs, ∃ t, μ.lookup v = some t ∧ known t = true

def Anchored (vs : Finset Variable) (M : Multiset TermRow) : Prop := ∀ μ ∈ M, Fixed known vs μ

/-- The store knows every term of a dataset. -/
structure Knows (D : RdfDataset) : Prop where
  quads : ∀ q ∈ D.quads, known q.subject.toTerm = true ∧ known (.namedNode q.predicate) = true ∧ known q.object = true
  graphs : ∀ n ∈ D.graphs, known n.toTerm = true

/-- No path leads a variable to a term the store does not know, and no variable is given a second value. -/
def Settled (F : Federation) (D : RdfDataset) : GraphPattern → Prop
  | .bgp _ => True
  | .path subject path object => ∀ G, ∀ xy ∈ F.pairs D G subject path object,
    (∀ v, subject = .var v → known xy.1 = true) ∧ ∀ v, object = .var v → known xy.2 = true
  | .join left right => Settled F D left ∧ Settled F D right
  | .leftJoin left right _ => Settled F D left ∧ Settled F D right
  | .filter _ inner => Settled F D inner
  | .union left right => Settled F D left ∧ Settled F D right
  | .graph _ inner => Settled F D inner
  | .extend inner v _ => v ∉ storeBound inner ∧ Settled F D inner
  | .minus left right => Settled F D left ∧ Settled F D right
  | .values _ _ => True
  | .orderBy inner _ => Settled F D inner
  | .project inner _ => Settled F D inner
  | .distinct inner => Settled F D inner
  | .reduced inner => Settled F D inner
  | .slice inner _ _ => Settled F D inner
  | .group inner _ _ => Settled F D inner
  | .service _ _ _ => True

end

variable {known : Term → Bool} {vs ws : Finset Variable} {μ ν : TermRow} {M N : Multiset TermRow}

theorem Fixed.extends (h : Fixed known vs μ) (hext : Mapping.Extends ν μ) : Fixed known vs ν := fun v hv => by
  obtain ⟨t, ht, hknown⟩ := h v hv
  exact ⟨t, hext v t ht, hknown⟩

theorem Fixed.union (h : Fixed known vs μ) (h' : Fixed known ws μ) : Fixed known (vs ∪ ws) μ := fun v hv => by
  rcases Finset.mem_union.1 hv with hv | hv
  · exact h v hv
  · exact h' v hv

theorem anchored_none (M : Multiset TermRow) : Anchored known ∅ M := fun _ _ v hv => absurd hv (Finset.notMem_empty v)

theorem anchored_extend (hμ : Fixed known vs μ) (hM : Anchored known ws M) : Anchored known (vs ∪ ws) (Mapping.extend μ M) := by
  intro ν hν
  obtain ⟨ρ, hρ, hcompat, rfl⟩ := Mapping.mem_extend.1 hν
  exact (hμ.extends (Mapping.extends_union_left μ ρ)).union ((hM ρ hρ).extends (Mapping.extends_union_right hcompat))

theorem Anchored.join (hM : Anchored known vs M) (hN : Anchored known ws N) : Anchored known (vs ∪ ws) (Mapping.join M N) := by
  intro ν hν
  obtain ⟨μ, hμ, hν⟩ := Multiset.mem_bind.1 hν
  exact anchored_extend (hM μ hμ) hN ν hν

theorem Anchored.filter (h : Anchored known vs M) (p : TermRow → Prop) [DecidablePred p] : Anchored known vs (M.filter p) :=
  fun μ hμ => h μ (Multiset.mem_filter.1 hμ).1

theorem anchored_term {s : TermPattern} {x : Term} (h : ∀ v, s = .var v → known x = true) : Anchored known (termVariable s) (s.rows x) := by
  cases s with
  | var v =>
    intro μ hμ w hw
    obtain rfl := Finset.mem_singleton.1 hw
    rw [Multiset.mem_singleton.1 hμ]
    exact ⟨x, Mapping.lookup_singleton_iff.2 ⟨rfl, rfl⟩, h w rfl⟩
  | _ => exact anchored_none _

theorem anchored_name {s : NamedNodePattern} {n : NamedNode} (h : known (.namedNode n) = true) : Anchored known (nameVariable s) (s.rows n) := by
  cases s with
  | var v =>
    intro μ hμ w hw
    obtain rfl := Finset.mem_singleton.1 hw
    rw [Multiset.mem_singleton.1 hμ]
    exact ⟨.namedNode n, Mapping.lookup_singleton_iff.2 ⟨rfl, rfl⟩, h⟩
  | namedNode m => exact anchored_none _

theorem anchored_triple {D : RdfDataset} (hD : Knows known D) (G : GraphName) (t : TriplePattern) :
    Anchored known (termVariable t.subject ∪ nameVariable t.predicate ∪ termVariable t.object) (D.tripleRows G t) := by
  intro μ hμ
  obtain ⟨q, hq, hμ⟩ := Multiset.mem_bind.1 hμ
  obtain ⟨hs, hp, ho⟩ := hD.quads q (Finset.mem_filter.1 hq).1
  rw [Finset.union_assoc]
  exact (anchored_term (fun _ _ => hs)).join ((anchored_name hp).join (anchored_term (fun _ _ => ho))) μ hμ

theorem anchored_bgp {D : RdfDataset} (hD : Knows known D) (G : GraphName) (patterns : List TriplePattern) :
    Anchored known (storeBound (.bgp patterns)) (Mapping.joinAll (patterns.map (D.tripleRows G))) := by
  unfold storeBound
  induction patterns with
  | nil => exact anchored_none _
  | cons t patterns ih => exact (anchored_triple hD G t).join ih

open scoped Classical in
/-- What `storeBound` says of a pattern is so of every row that answers it. -/
theorem anchored_storeBound {F : Federation} {D : RdfDataset} (hD : Knows known D) {pattern : GraphPattern} (hp : Settled known F D pattern)
    {G : GraphName} {l : List TermRow} (h : F.Denotes D G pattern l) : Anchored known (storeBound pattern) l := by
  induction pattern generalizing G l with
  | bgp patterns =>
    rw [Federation.Denotes] at h
    rw [h]
    exact anchored_bgp hD G patterns
  | path subject path object =>
    rw [Federation.Denotes] at h
    rw [h]
    intro μ hμ
    obtain ⟨xy, hxy, hμ⟩ := Multiset.mem_bind.1 hμ
    obtain ⟨h₁, h₂⟩ := hp G xy hxy
    exact (anchored_term h₁).join (anchored_term h₂) μ hμ
  | join left right ihl ihr =>
    obtain ⟨l₁, l₂, h₁, h₂, heq⟩ := h
    rw [heq]
    exact (ihl hp.1 h₁).join (ihr hp.2 h₂)
  | leftJoin left right expression ihl ihr =>
    obtain ⟨l₁, l₂, h₁, h₂, heq⟩ := h
    rw [heq]
    intro ν hν
    obtain ⟨μ, hμ, hν⟩ := Multiset.mem_bind.1 hν
    have hleft := ihl hp.1 h₁ μ hμ
    unfold orAlone at hν
    split at hν
    · rw [Multiset.mem_singleton.1 hν]
      exact hleft
    · exact hleft.extends (Mapping.extends_of_mem_extend (Multiset.mem_filter.1 hν).1)
  | filter expr inner ih =>
    obtain ⟨l₀, h₀, heq⟩ := h
    rw [heq]
    exact (ih hp h₀).filter _
  | union left right ihl ihr =>
    obtain ⟨l₁, l₂, h₁, h₂, heq⟩ := h
    rw [heq]
    intro μ hμ v hv
    obtain ⟨hl, hr⟩ := Finset.mem_filter.1 hv
    rcases Multiset.mem_add.1 hμ with hμ | hμ
    · exact ihl hp.1 h₁ μ hμ v hl
    · exact ihr hp.2 h₂ μ hμ v hr
  | graph name inner ih =>
    cases name with
    | namedNode n =>
      rw [Federation.Denotes] at h
      change Anchored known (storeBound inner ∪ ∅) l
      rw [Finset.union_empty]
      split at h
      · exact ih hp h
      · rw [h]
        exact fun μ hμ => absurd hμ (Multiset.notMem_zero μ)
    | var v =>
      obtain ⟨found, hfound, heq⟩ := h
      rw [heq]
      intro μ hμ
      obtain ⟨n, hn, hμ⟩ := Multiset.mem_bind.1 hμ
      have hname : Fixed known {v} (Finmap.singleton v n.toTerm) := fun w hw => by
        obtain rfl := Finset.mem_singleton.1 hw
        exact ⟨n.toTerm, Mapping.lookup_singleton_iff.2 ⟨rfl, rfl⟩, hD.graphs n hn⟩
      change Fixed known (storeBound inner ∪ {v}) μ
      rw [Finset.union_comm]
      exact anchored_extend hname (ih hp (hfound n hn)) μ hμ
  | extend inner v expression ih =>
    obtain ⟨l₀, h₀, heq⟩ := h
    rw [heq]
    intro ν hν w hw
    obtain ⟨μ, hμ, rfl⟩ := Multiset.mem_map.1 hν
    obtain ⟨t, ht, hknown⟩ := ih hp.2 h₀ μ hμ w hw
    refine ⟨t, ?_, hknown⟩
    have hne : w ≠ v := fun heq => hp.1 (heq ▸ hw)
    cases F.value D G expression μ with
    | none => exact ht
    | some x => exact (Finmap.lookup_insert_of_ne μ hne).trans ht
  | _ => exact anchored_none _

/-! ## The list of terms -/

theorem toTerm_inj {t t' : GroundTerm} (h : t.toTerm = t'.toTerm) : t = t' := by
  induction t generalizing t' with
  | namedNode n =>
    cases t' <;> cases h
    rfl
  | literal l =>
    cases t' <;> cases h
    rfl
  | triple s p o ih =>
    cases t' with
    | triple s' p' o' =>
      injection h with hs hp ho
      cases hs
      cases hp
      rw [ih ho]
    | _ => cases h

/-- The rows a pin keeps. -/
def Kept (known : Term → Bool) (p : Variable × List GroundTerm) (μ : TermRow) : Prop :=
  (p.2.filter (fun t => known t.toTerm) = [] ∧ known (.namedNode nothingIri) = true) ∨
    ∃ x ∈ (p.2.filter (fun t => known t.toTerm)).map GroundTerm.toTerm, μ.lookup p.1 = some x

instance (known : Term → Bool) (p : Variable × List GroundTerm) : DecidablePred (Kept known p) := fun _ => by
  unfold Kept
  infer_instance

theorem rows_values (v : Variable) (cs : List GroundTerm) :
    (((cs.map fun c => [some c]) : List (List (Option GroundTerm))) : Multiset _).bind (fun row => groundRow ([v].zip row)) =
      ((cs.map GroundTerm.toTerm).map (Finmap.singleton v) : List TermRow) := by
  induction cs with
  | nil => rfl
  | cons c cs ih =>
    rw [List.map_cons, ← Multiset.cons_coe, Multiset.cons_bind, ih]
    change Mapping.join {Finmap.singleton v c.toTerm} {∅} + _ = _
    rw [Mapping.join_unit]
    rfl

/-- The store holds no quad of an IRI it does not know. -/
theorem denotes_nothing {F : Federation} {D : RdfDataset} (hD : Knows known D) (hunknown : ¬known (.namedNode nothingIri) = true) {G : GraphName}
    {l : List TermRow} : F.Denotes D G (.bgp [⟨.namedNode nothingIri, .namedNode nothingIri, .namedNode nothingIri⟩]) l ↔ l = [] := by
  have hzero : D.tripleRows G ⟨.namedNode nothingIri, .namedNode nothingIri, .namedNode nothingIri⟩ = 0 := by
    refine Multiset.eq_zero_of_forall_notMem (fun μ hμ => ?_)
    obtain ⟨q, hq, hμ⟩ := Multiset.mem_bind.1 hμ
    obtain ⟨ν, hν, -⟩ := Mapping.mem_join.1 hμ
    change ν ∈ (if q.subject.toTerm = .namedNode nothingIri then {∅} else 0 : Multiset TermRow) at hν
    split_ifs at hν with hs
    · exact hunknown (hs ▸ (hD.quads q (Finset.mem_filter.1 hq).1).1)
    · exact Multiset.notMem_zero ν hν
  rw [Federation.Denotes, List.map_cons, List.map_nil, Mapping.joinAll_cons, hzero, Mapping.zero_join, Multiset.coe_eq_zero]

/-- The answers of a pattern, in no order. -/
def Answers (F : Federation) (D : RdfDataset) (G : GraphName) (pattern : GraphPattern) (M : Multiset TermRow) : Prop :=
  ∃ l, F.Denotes D G pattern l ∧ (l : Multiset TermRow) = M

section
variable {F : Federation} {D : RdfDataset} {G : GraphName} {p : Variable × List GroundTerm} {out : GraphPattern}

theorem answers_join {left right : GraphPattern} :
    Answers F D G (.join left right) M ↔ ∃ M₁ M₂, Answers F D G left M₁ ∧ Answers F D G right M₂ ∧ M = Mapping.join M₁ M₂ := by
  constructor
  · rintro ⟨l, ⟨l₁, l₂, h₁, h₂, heq⟩, rfl⟩
    exact ⟨l₁, l₂, ⟨l₁, h₁, rfl⟩, ⟨l₂, h₂, rfl⟩, heq⟩
  · rintro ⟨_, _, ⟨l₁, h₁, rfl⟩, ⟨l₂, h₂, rfl⟩, rfl⟩
    exact ⟨(Mapping.join (l₁ : Multiset TermRow) l₂).toList, ⟨l₁, l₂, h₁, h₂, Multiset.coe_toList _⟩, Multiset.coe_toList _⟩

theorem denotes_filter {e : Expression} {l : List TermRow} :
    F.Denotes D G (.filter e out) l ↔ ∃ M, Answers F D G out M ∧ (l : Multiset TermRow) = M.filter fun μ => F.holds D G e μ = true := by
  constructor
  · rintro ⟨l₀, h₀, heq⟩
    exact ⟨l₀, ⟨l₀, h₀, rfl⟩, heq⟩
  · rintro ⟨_, ⟨l₀, h₀, rfl⟩, heq⟩
    exact ⟨l₀, h₀, heq⟩

/-- Joined with a pin, a pattern that binds its variable keeps these rows. -/
theorem answers_pinned (hD : Knows known D) (hp : p.2.Nodup) (hout : ∀ M, Answers F D G out M → ∀ μ ∈ M, p.1 ∈ μ.keys) :
    Answers F D G (pinned known out p) M ↔ ∃ M₀, Answers F D G out M₀ ∧ M = M₀.filter (Kept known p) := by
  unfold pinned
  simp only
  split
  · rename_i hempty
    have hrows := List.isEmpty_iff.1 hempty
    unfold nothing
    by_cases hunknown : known (.namedNode nothingIri) = true
    · -- the pin is left out
      rw [if_pos hunknown]
      have hall : ∀ M₀ : Multiset TermRow, M₀.filter (Kept known p) = M₀ := fun M₀ =>
        Multiset.filter_eq_self.2 fun μ _ => .inl ⟨hrows, hunknown⟩
      simp only [hall]
      constructor
      · exact fun h => ⟨M, h, rfl⟩
      · rintro ⟨_, h, rfl⟩
        exact h
    · rw [if_neg hunknown]
      have hnone : ∀ M₀ : Multiset TermRow, M₀.filter (Kept known p) = 0 := by
        refine fun M₀ => Multiset.filter_eq_nil.2 fun μ _ hkept => ?_
        rcases hkept with ⟨-, h⟩ | ⟨x, hx, -⟩
        · exact hunknown h
        · rw [hrows] at hx
          cases hx
      simp only [answers_join, hnone]
      constructor
      · rintro ⟨_, M₂, ⟨l₁, h₁, rfl⟩, h₂, rfl⟩
        rw [(denotes_nothing hD hunknown).1 h₁]
        exact ⟨M₂, h₂, Mapping.zero_join M₂⟩
      · rintro ⟨M₀, h₀, rfl⟩
        exact ⟨0, M₀, ⟨[], (denotes_nothing hD hunknown).2 rfl, rfl⟩, h₀, (Mapping.zero_join M₀).symm⟩
  · rename_i hrows
    have hnodup : ((p.2.filter fun t => known t.toTerm).map GroundTerm.toTerm).Nodup :=
      (hp.filter _).map fun _ _ => toTerm_inj
    have hkept : ∀ μ, Kept known p μ ↔ ∃ x ∈ (p.2.filter fun t => known t.toTerm).map GroundTerm.toTerm, μ.lookup p.1 = some x :=
      fun μ => or_iff_right fun h => hrows (List.isEmpty_iff.2 h.1)
    have hjoin : ∀ M₀, Answers F D G out M₀ →
        Mapping.join (((p.2.filter fun t => known t.toTerm).map GroundTerm.toTerm).map (Finmap.singleton p.1) : List TermRow) M₀ =
          M₀.filter (Kept known p) := fun M₀ h₀ => by
      rw [Mapping.column_join hnodup (hout M₀ h₀)]
      exact Multiset.filter_congr fun μ _ => (hkept μ).symm
    rw [answers_join]
    constructor
    · rintro ⟨_, M₀, ⟨l₁, h₁, rfl⟩, h₀, rfl⟩
      rw [Federation.Denotes, rows_values] at h₁
      rw [h₁, hjoin M₀ h₀]
      exact ⟨M₀, h₀, rfl⟩
    · rintro ⟨M₀, h₀, rfl⟩
      refine ⟨_, M₀, ⟨_, ?_, rfl⟩, h₀, (hjoin M₀ h₀).symm⟩
      rw [Federation.Denotes, rows_values]

/-- A pattern joined with one pin after another keeps the rows each of them keeps. -/
theorem answers_pins (hD : Knows known D) {ps : List (Variable × List GroundTerm)} (hps : ∀ p ∈ ps, p.2.Nodup)
    (hout : ∀ M, Answers F D G out M → ∀ μ ∈ M, ∀ p ∈ ps, p.1 ∈ μ.keys) :
    Answers F D G (ps.foldl (pinned known) out) M ↔ ∃ M₀, Answers F D G out M₀ ∧ M = M₀.filter fun μ => ∀ p ∈ ps, Kept known p μ := by
  induction ps generalizing out with
  | nil => simp
  | cons p ps ih =>
    have hfirst := fun M => answers_pinned (M := M) hD (hps p List.mem_cons_self) (fun M h μ hμ => hout M h μ hμ p List.mem_cons_self)
    have hrest : ∀ M, Answers F D G (pinned known out p) M → ∀ μ ∈ M, ∀ q ∈ ps, q.1 ∈ μ.keys := by
      intro M h μ hμ q hq
      obtain ⟨M₀, h₀, rfl⟩ := (hfirst M).1 h
      exact hout M₀ h₀ μ (Multiset.mem_filter.1 hμ).1 q (List.mem_cons_of_mem p hq)
    rw [List.foldl_cons, ih (fun q hq => hps q (List.mem_cons_of_mem p hq)) hrest]
    have hboth : ∀ M₀ : Multiset TermRow, (M₀.filter (Kept known p)).filter (fun μ => ∀ q ∈ ps, Kept known q μ) =
        M₀.filter fun μ => ∀ q ∈ p :: ps, Kept known q μ := fun M₀ => by
      rw [Multiset.filter_filter]
      exact Multiset.filter_congr fun μ _ => by rw [List.forall_mem_cons, and_comm]
    constructor
    · rintro ⟨M₁, h₁, rfl⟩
      obtain ⟨M₀, h₀, rfl⟩ := (hfirst M₁).1 h₁
      exact ⟨M₀, h₀, hboth M₀⟩
    · rintro ⟨M₀, h₀, rfl⟩
      exact ⟨_, (hfirst _).2 ⟨M₀, h₀, rfl⟩, (hboth M₀).symm⟩

/-! ## The rewrite -/

theorem storeBound_pinned (known : Term → Bool) (out : GraphPattern) (p : Variable × List GroundTerm) :
    storeBound (pinned known out p) = storeBound out := by
  unfold pinned nothing
  simp only
  split
  · by_cases hknown : known (.namedNode nothingIri) = true
    · rw [if_pos hknown]
    · rw [if_neg hknown]
      exact Finset.empty_union _
  · exact Finset.empty_union _

theorem storeBound_pinnedInput (known : Term → Bool) (e : Expression) (inner : GraphPattern) :
    storeBound (pinnedInput known e inner) = storeBound inner := by
  unfold pinnedInput
  generalize pinsWithin e inner = ps
  induction ps generalizing inner with
  | nil => rfl
  | cons p ps ih => exact (ih _).trans (storeBound_pinned known inner p)

theorem storeBound_rewrite (known : Term → Bool) (pattern : GraphPattern) : storeBound (rewrite known pattern) = storeBound pattern := by
  induction pattern with
  | filter expr inner ih => exact (storeBound_pinnedInput known expr _).trans ih
  | join left right ihl ihr => simp only [rewrite, storeBound, ihl, ihr]
  | union left right ihl ihr => simp only [rewrite, storeBound, ihl, ihr]
  | leftJoin left right expression ihl => exact ihl
  | extend inner v expression ih => exact ih
  | graph name inner ih => simp only [rewrite, storeBound, ih]
  | _ => rfl

/-- What is accepted of the rows a filter's pins keep is what is accepted of all. -/
theorem filter_pinnedInput (hD : Knows known D) {e : Expression} (hc : Compares (F.holds D G)) {inner : GraphPattern}
    (hin : ∀ M, Answers F D G inner M → Anchored known (storeBound inner) M) {l : List TermRow} :
    F.Denotes D G (.filter e (pinnedInput known e inner)) l ↔ F.Denotes D G (.filter e inner) l := by
  have hpins : ∀ M, Answers F D G (pinnedInput known e inner) M ↔
      ∃ M₀, Answers F D G inner M₀ ∧ M = M₀.filter fun μ => ∀ p ∈ pinsWithin e inner, Kept known p μ := by
    refine fun M => answers_pins hD (fun p hp => nodup_pins (List.mem_filter.1 hp).1) (fun M h μ hμ p hp => ?_)
    obtain ⟨t, ht, -⟩ := hin M h μ hμ p.1 (decide_eq_true_iff.1 (List.mem_filter.1 hp).2)
    exact Mapping.mem_keys_iff.2 ⟨t, ht⟩
  have hkept : ∀ M₀, Answers F D G inner M₀ →
      (M₀.filter fun μ => ∀ p ∈ pinsWithin e inner, Kept known p μ).filter (fun μ => F.holds D G e μ = true) =
        M₀.filter fun μ => F.holds D G e μ = true := by
    intro M₀ h₀
    rw [Multiset.filter_filter]
    refine Multiset.filter_congr fun μ hμ => and_iff_left_of_imp fun he p hp => .inr ?_
    obtain ⟨hmem, hbound⟩ := List.mem_filter.1 hp
    obtain ⟨c, hcandidate, hlookup⟩ := pins_meets hc hmem he
    obtain ⟨t, ht, hknown⟩ := hin M₀ h₀ μ hμ p.1 (decide_eq_true_iff.1 hbound)
    rw [hlookup] at ht
    cases ht
    exact ⟨c.toTerm, List.mem_map_of_mem (List.mem_filter.2 ⟨hcandidate, hknown⟩), hlookup⟩
  rw [denotes_filter, denotes_filter]
  constructor
  · rintro ⟨M, hM, heq⟩
    obtain ⟨M₀, h₀, rfl⟩ := (hpins M).1 hM
    exact ⟨M₀, h₀, heq.trans (hkept M₀ h₀)⟩
  · rintro ⟨M₀, h₀, heq⟩
    exact ⟨_, (hpins _).2 ⟨M₀, h₀, rfl⟩, heq.trans (hkept M₀ h₀).symm⟩

theorem denotes_rewrite (hD : Knows known D) (hc : ∀ G, Compares (F.holds D G)) {pattern : GraphPattern} (hp : Settled known F D pattern)
    (G : GraphName) (l : List TermRow) : F.Denotes D G (rewrite known pattern) l ↔ F.Denotes D G pattern l := by
  induction pattern generalizing G l with
  | filter expr inner ih =>
    have hinner : ∀ M, Answers F D G (rewrite known inner) M ↔ Answers F D G inner M := fun M =>
      exists_congr fun l => and_congr_left fun _ => ih hp G l
    refine (filter_pinnedInput hD (hc G) (fun M hM => ?_)).trans ?_
    · have hsettled : Settled known F D inner := hp
      obtain ⟨l₀, h₀, rfl⟩ := (hinner M).1 hM
      rw [storeBound_rewrite]
      exact anchored_storeBound hD hsettled h₀
    · simp only [denotes_filter, hinner]
  | join left right ihl ihr => simp only [rewrite, Federation.Denotes, ihl hp.1, ihr hp.2]
  | leftJoin left right expression ihl ihr => simp only [rewrite, Federation.Denotes, ihl hp.1, ihr hp.2]
  | union left right ihl ihr => simp only [rewrite, Federation.Denotes, ihl hp.1, ihr hp.2]
  | minus left right ihl ihr => simp only [rewrite, Federation.Denotes, ihl hp.1, ihr hp.2]
  | graph name inner ih =>
    cases name with
    | namedNode n => simp only [rewrite, Federation.Denotes, ih hp]
    | var v => simp only [rewrite, Federation.Denotes, ih hp]
  | extend inner v expression ih => simp only [rewrite, Federation.Denotes, ih hp.2]
  | orderBy inner expression ih => simp only [rewrite, Federation.Denotes, ih hp]
  | project inner vars ih => simp only [rewrite, Federation.Denotes, ih hp]
  | distinct inner ih => simp only [rewrite, Federation.Denotes, ih hp]
  | reduced inner ih => simp only [rewrite, Federation.Denotes, ih hp]
  | slice inner start length ih => simp only [rewrite, Federation.Denotes, ih hp]
  | group inner vars aggregates ih => simp only [rewrite, Federation.Denotes, ih hp]
  | bgp | path | values | service => exact Iff.rfl

end

/-! ## Over a store -/

/-- What a store answers when it is asked for a term. -/
def lookups (h : Held) (t : Term) : Bool := (h.ids t).isSome

/-- A store has an id for every term of what it holds. -/
theorem lookups_knows {h : Held} {D : RdfDataset} (hquads : ∀ q ∈ D.quads, h.Has q) (hgraphs : ∀ n ∈ D.graphs, graphNamed n ∈ h.names) :
    Knows (lookups h) D where
  quads q hq := by
    obtain ⟨e, he, -⟩ := hquads q hq
    obtain ⟨hs, hp, ho, -⟩ := Ids.quad_eq_some.1 he
    unfold lookups
    rw [hs, hp, ho]
    exact ⟨rfl, rfl, rfl⟩
  graphs n hn := by
    obtain ⟨g, -, hg⟩ := hgraphs n hn
    unfold lookups
    cases n with
    | namedNode iri =>
      obtain ⟨i, hi, -⟩ := Option.map_eq_some_iff.1 hg
      exact Option.isSome_iff_exists.2 ⟨i, hi⟩
    | blankNode b =>
      obtain ⟨i, hi, -⟩ := Option.map_eq_some_iff.1 hg
      exact Option.isSome_iff_exists.2 ⟨i, hi⟩

/-- Over any part of what a store holds, a pattern has the answers it has with its filters' constants
given to the planner, in the same orders, if no path leads where the store has nothing. -/
theorem rewrite_answers {h : Held} {F : Federation} {D : RdfDataset} (hquads : ∀ q ∈ D.quads, h.Has q)
    (hgraphs : ∀ n ∈ D.graphs, graphNamed n ∈ h.names) (hc : ∀ G, Compares (F.holds D G)) {pattern : GraphPattern}
    (hp : Settled (lookups h) F D pattern) (G : GraphName) (l : List TermRow) :
    F.Denotes D G (rewrite (lookups h) pattern) l ↔ F.Denotes D G pattern l :=
  denotes_rewrite (lookups_knows hquads hgraphs) hc hp G l

/-! ### One store -/

/-- Comparisons of terms, of their texts and of their language tags. -/
def termOf (μ : TermRow) : Expression → Option Term
  | .var v => μ.lookup v
  | .namedNode n => some (.namedNode n)
  | .literal l => some (.literal l)
  | .functionCall f [.var v] =>
    match μ.lookup v with
    | some (.literal l) =>
      if f = Str then some (.literal (.simple l.value)) else if f = Lang then some (.literal (.simple (l.language.getD ""))) else none
    | some (.namedNode n) => if f = Str then some (.literal (.simple n)) else none
    | _ => none
  | _ => none

def sameTerms (μ : TermRow) (a b : Expression) : Bool := (termOf μ a).isSome && termOf μ a = termOf μ b

def accepts : Expression → TermRow → Bool
  | .binary .and a b, μ => accepts a μ && accepts b μ
  | .binary .equal a b, μ => sameTerms μ a b
  | .binary .sameTerm a b, μ => sameTerms μ a b
  | .isIn a list, μ => list.any fun b => sameTerms μ a b
  | _, _ => false

theorem sameTerms_iff {a b : Expression} : sameTerms μ a b = true ↔ ∃ t, termOf μ a = some t ∧ termOf μ b = some t := by
  unfold sameTerms
  rw [Bool.and_eq_true, decide_eq_true_iff, Option.isSome_iff_exists]
  constructor
  · rintro ⟨⟨t, ht⟩, heq⟩
    exact ⟨t, ht, heq ▸ ht⟩
  · rintro ⟨t, ha, hb⟩
    exact ⟨⟨t, ha⟩, ha.trans hb.symm⟩

theorem sameTerms_comm (a b : Expression) : sameTerms μ a b = sameTerms μ b a := by
  rw [Bool.eq_iff_iff, sameTerms_iff, sameTerms_iff]
  exact exists_congr fun t => and_comm

theorem accepts_compares : Compares accepts where
  conj h := Bool.and_eq_true_iff.1 h
  equal_comm a b _ := sameTerms_comm a b
  same_comm a b _ := sameTerms_comm a b
  equal_iri h := by
    obtain ⟨t, hv, ht⟩ := sameTerms_iff.1 h
    exact hv.trans ht.symm
  equal_plain h := by
    obtain ⟨t, hv, ht⟩ := sameTerms_iff.1 h
    exact hv.trans ht.symm
  same_iri h := by
    obtain ⟨t, hv, ht⟩ := sameTerms_iff.1 h
    exact hv.trans ht.symm
  same_literal h := by
    obtain ⟨t, hv, ht⟩ := sameTerms_iff.1 h
    exact hv.trans ht.symm
  isIn h := List.any_eq_true.1 h
  str h hv := by
    obtain ⟨t, ht, heq⟩ := sameTerms_iff.1 h
    cases heq
    simpa [termOf, hv] using ht
  lang h hne := by
    obtain ⟨t, ht, heq⟩ := sameTerms_iff.1 h
    cases heq
    simp only [termOf] at ht
    split at ht
    · rename_i l hv
      refine ⟨l, hv, ?_⟩
      simp only [Str, Lang, Function.other.injEq, String.reduceEq, if_false, if_true, Option.some.injEq, Term.literal.injEq,
        Literal.simple.injEq] at ht
      cases hl : l.language with
      | none =>
        rw [hl] at ht
        exact absurd ht.symm hne
      | some tag =>
        rw [hl] at ht
        rw [← ht]
        rfl
    · simp [Str, Lang] at ht
    · cases ht

/-- Three terms. -/
def codeId (t : Term) : Option TermId :=
  if t = .namedNode "s" then some 1 else if t = .namedNode "p" then some 2 else if t = .literal (.simple "GB") then some 3 else none

theorem codeId_inj (t u : Term) (i : TermId) (ht : codeId t = some i) (hu : codeId u = some i) : t = u := by
  unfold codeId at ht hu
  split_ifs at ht hu <;> simp_all
  all_goals
    subst ht
    simp at hu

noncomputable def codeIds : Ids := .ofLookup codeId codeId_inj

noncomputable def codeStore : Held := ⟨Contents.empty.apply (.insert ⟨1, 2, 3, none⟩), codeIds, none⟩

def codeQuad : Quad := ⟨.namedNode "s", "p", .literal (.simple "GB"), .defaultGraph⟩

def comparing : Federation :=
  ⟨[], fun _ _ => accepts, fun _ _ _ _ => none, fun _ _ _ _ => none, fun _ _ _ _ _ => False, fun _ _ _ _ _ => 0, fun _ μ => μ⟩

/-- `?s p ?code FILTER(?code = "GB")` -/
def codeQuery : GraphPattern :=
  .filter (.binary .equal (.var (.named "code")) (.literal (.simple "GB"))) (.bgp [⟨.var (.named "s"), .namedNode "p", .var (.named "code")⟩])

theorem rewrite_answers_code :
    comparing.Denotes ⟨{codeQuad}, ∅⟩ .defaultGraph (rewrite (lookups codeStore) codeQuery)
        [(Finmap.singleton (.named "s") (.namedNode "s")).insert (.named "code") (.literal (.simple "GB"))] ↔
      comparing.Denotes ⟨{codeQuad}, ∅⟩ .defaultGraph codeQuery
        [(Finmap.singleton (.named "s") (.namedNode "s")).insert (.named "code") (.literal (.simple "GB"))] := by
  have hsettled : Settled (lookups codeStore) comparing ⟨{codeQuad}, ∅⟩ codeQuery := trivial
  refine rewrite_answers (fun q hq => ?_) (fun n hn => absurd hn (Finset.notMem_empty n)) (fun _ => accepts_compares) hsettled _ _
  rw [Finset.mem_singleton.1 hq]
  exact ⟨⟨1, 2, 3, none⟩, Ids.quad_eq_some.2 ⟨rfl, rfl, rfl, rfl⟩, Finset.mem_insert_self _ _⟩

end Holos.Engine.Equality
