import Holos.Engine.Service
import Holos.Sparql.Scope
/-!
# What a `SERVICE` hands on

The walk lists what stands at places of its own, so a row loses what it binds inside triple terms
only, and nothing else.
-/

namespace Holos.Engine.Service

open Sparql Lib

/-! ## The walk -/

/-- A variable is a term, and not just inside one. -/
def Is (v : Variable) : TermPattern → Prop
  | .var w => w = v
  | _ => False

/-- A variable stands at a place of its own that no subquery hides. -/
def Stands (v : Variable) : GraphPattern → Prop
  | .bgp patterns => ∃ t ∈ patterns, Is v t.subject ∨ Is v t.object ∨ t.predicate.Holds v
  | .path subject _ object => Is v subject ∨ Is v object
  | .join left right => Stands v left ∨ Stands v right
  | .union left right => Stands v left ∨ Stands v right
  | .minus left right => Stands v left ∨ Stands v right
  | .leftJoin left right _ => Stands v left ∨ Stands v right
  | .filter _ inner => Stands v inner
  | .distinct inner => Stands v inner
  | .reduced inner => Stands v inner
  | .slice inner _ _ => Stands v inner
  | .orderBy inner _ => Stands v inner
  | .graph name inner => name.Holds v ∨ Stands v inner
  | .extend inner w _ => Stands v inner ∨ w = v
  | .project _ vars => v ∈ vars
  | .group _ vars aggregates => v ∈ vars ∨ ∃ a ∈ aggregates, a.1 = v
  | .values vars _ => v ∈ vars
  | .service name inner _ => name.Holds v ∨ Stands v inner

/-- `out'` is `out` and the named variables of which `p` is so, each once. -/
structure Adds (p : Variable → Prop) (out out' : List Variable) : Prop where
  mem : ∀ v, v ∈ out' ↔ v ∈ out ∨ (v.isNamed = true ∧ p v)
  nodup : out.Nodup → out'.Nodup

variable {p q : Variable → Prop} {out out' out'' : List Variable}

theorem Adds.none (h : ∀ v, ¬p v) : Adds p out out := ⟨fun v => by simp [h], id⟩

theorem Adds.trans (h : Adds p out out') (h' : Adds q out' out'') : Adds (fun v => p v ∨ q v) out out'' where
  mem v := by
    rw [h'.mem, h.mem, and_or_left, or_assoc]
  nodup hn := h'.nodup (h.nodup hn)

theorem Adds.congr (h : Adds p out out') (hpq : ∀ v, q v ↔ p v) : Adds q out out' := ⟨fun v => by rw [h.mem, hpq], h.nodup⟩

theorem adds_push (out : List Variable) (w : Variable) : Adds (w = ·) out (push out w) where
  mem v := by
    unfold push
    by_cases hw : w.isNamed = true ∧ w ∉ out
    · rw [if_pos hw, List.mem_append, List.mem_singleton]
      constructor
      · rintro (h | rfl)
        · exact .inl h
        · exact .inr ⟨hw.1, rfl⟩
      · rintro (h | ⟨-, rfl⟩)
        · exact .inl h
        · exact .inr rfl
    · rw [if_neg hw]
      refine ⟨.inl, ?_⟩
      rintro (h | ⟨hn, rfl⟩)
      · exact h
      · exact not_not.1 (not_and.1 hw hn)
  nodup hn := by
    unfold push
    split
    · rename_i hw
      refine List.nodup_append.2 ⟨hn, List.nodup_singleton w, fun a ha b hb e => hw.2 ?_⟩
      rw [List.mem_singleton.1 hb] at e
      exact e ▸ ha
    · exact hn

theorem adds_fromTerm (out : List Variable) (t : TermPattern) : Adds (Is · t) out (fromTerm out t) := by
  cases t with
  | var w => exact adds_push out w
  | _ => exact Adds.none fun _ h => h

theorem adds_fromName (out : List Variable) (n : NamedNodePattern) : Adds (n.Holds ·) out (fromName out n) := by
  cases n with
  | var w => exact adds_push out w
  | namedNode n => exact Adds.none fun _ h => h

theorem adds_foldl {α : Type} {add : List Variable → α → List Variable} {r : α → Variable → Prop}
    (h : ∀ out a, Adds (r a) out (add out a)) (as : List α) (out : List Variable) :
    Adds (fun v => ∃ a ∈ as, r a v) out (as.foldl add out) := by
  induction as generalizing out with
  | nil => exact Adds.none fun v hv => by simp at hv
  | cons a as ih =>
    refine ((h out a).trans (ih (add out a))).congr fun v => ?_
    simp

theorem adds_vars (vars : List Variable) (out : List Variable) : Adds (· ∈ vars) out (vars.foldl push out) :=
  (adds_foldl adds_push vars out).congr fun v => by simp

/-- The walk adds what stands in the pattern. -/
theorem adds_collectVariables (pattern : GraphPattern) (out : List Variable) :
    Adds (Stands · pattern) out (collectVariables pattern out) := by
  induction pattern generalizing out with
  | bgp patterns =>
    refine (adds_foldl (r := fun t v => Is v t.subject ∨ Is v t.object ∨ t.predicate.Holds v) ?_ patterns out).congr fun v => Iff.rfl
    intro out t
    exact (((adds_fromTerm out t.subject).trans (adds_fromTerm _ t.object)).trans (adds_fromName _ t.predicate)).congr
      fun v => or_assoc.symm
  | path subject path object => exact (adds_fromTerm out subject).trans (adds_fromTerm _ object)
  | join left right ihl ihr => exact (ihl out).trans (ihr _)
  | leftJoin left right expression ihl ihr => exact (ihl out).trans (ihr _)
  | union left right ihl ihr => exact (ihl out).trans (ihr _)
  | minus left right ihl ihr => exact (ihl out).trans (ihr _)
  | filter expr inner ih => exact ih out
  | orderBy inner expression ih => exact ih out
  | distinct inner ih => exact ih out
  | reduced inner ih => exact ih out
  | slice inner start length ih => exact ih out
  | graph name inner ih => exact (adds_fromName out name).trans (ih _)
  | service name inner silent ih => exact (adds_fromName out name).trans (ih _)
  | extend inner w expression ih => exact (ih out).trans (adds_push _ w)
  | project inner vars ih => exact adds_vars vars out
  | values vars bindings => exact adds_vars vars out
  | group inner vars aggregates ih => exact (adds_vars vars out).trans (adds_foldl (fun out a => adds_push out a.1) aggregates _)

theorem mem_patternVariables (pattern : GraphPattern) (v : Variable) :
    v ∈ patternVariables pattern ↔ v.isNamed = true ∧ Stands v pattern := by
  rw [patternVariables, (adds_collectVariables pattern []).mem]
  simp

theorem nodup_patternVariables (pattern : GraphPattern) : (patternVariables pattern).Nodup :=
  (adds_collectVariables pattern []).nodup List.nodup_nil

/-! ## Rows -/

/-- What the handler hands on of a row. -/
def handOn (pattern : GraphPattern) (μ : TermRow) : TermRow := Mapping.restrict (patternVariables pattern) μ

theorem mem_keys_seenPart {μ : TermRow} {v : Variable} : v ∈ (seenPart μ).keys ↔ v ∈ μ.keys ∧ v.isNamed = true := by
  unfold seenPart
  rw [Mapping.mem_keys_restrict, List.mem_filter, Finset.mem_toList]
  tauto

theorem lookup_seenPart (μ : TermRow) (v : Variable) : (seenPart μ).lookup v = if v.isNamed = true then μ.lookup v else none := by
  unfold seenPart
  rw [Mapping.lookup_restrict]
  by_cases hv : v ∈ μ.keys
  · simp [hv]
  · simp [hv, Mapping.lookup_of_not_mem hv]

/-- A row is handed on whole where all of it stands in the pattern. -/
theorem handOn_eq_seenPart {pattern : GraphPattern} {μ : TermRow} :
    handOn pattern μ = seenPart μ ↔ ∀ v ∈ μ.keys, v.isNamed = true → Stands v pattern := by
  constructor
  · intro h v hv hn
    have hkey : v ∈ (handOn pattern μ).keys := h ▸ mem_keys_seenPart.2 ⟨hv, hn⟩
    exact ((mem_patternVariables pattern v).1 (Mapping.mem_keys_restrict.1 hkey).1).2
  · intro h
    refine Finmap.ext_lookup fun v => ?_
    rw [lookup_seenPart, handOn, Mapping.lookup_restrict]
    by_cases hn : v.isNamed = true
    · rw [if_pos hn]
      by_cases hv : v ∈ μ.keys
      · rw [if_pos ((mem_patternVariables pattern v).2 ⟨hn, h v hv hn⟩)]
      · rw [Mapping.lookup_of_not_mem hv, ite_self]
    · rw [if_neg hn, if_neg fun hm => hn ((mem_patternVariables pattern v).1 hm).1]

/-- The rows are those of the pattern where no row binds what stands inside triple terms only. -/
theorem map_handOn {pattern : GraphPattern} {l : List TermRow} :
    ((l.map (handOn pattern) : List TermRow) : Multiset TermRow) = l.map seenPart ↔
      ∀ μ ∈ l, ∀ v ∈ μ.keys, v.isNamed = true → Stands v pattern := by
  constructor
  · intro h μ hμ v hv hn
    have hmem : seenPart μ ∈ ((l.map seenPart : List TermRow) : Multiset TermRow) := Multiset.mem_coe.2 (List.mem_map_of_mem hμ)
    rw [← h] at hmem
    obtain ⟨ν, -, heq⟩ := List.mem_map.1 (Multiset.mem_coe.1 hmem)
    have hkey : v ∈ (handOn pattern ν).keys := heq ▸ mem_keys_seenPart.2 ⟨hv, hn⟩
    exact ((mem_patternVariables pattern v).1 (Mapping.mem_keys_restrict.1 hkey).1).2
  · intro h
    have hall : l.map (handOn pattern) = l.map seenPart := by
      apply List.map_congr_left
      intro μ hμ
      exact handOn_eq_seenPart.2 (h μ hμ)
    rw [hall]

/-! ## Clauses inside clauses -/

/-- The patterns of the `SERVICE` clauses in a pattern, however deep. -/
def nested : GraphPattern → List GraphPattern
  | .bgp _ => []
  | .path _ _ _ => []
  | .join left right => nested left ++ nested right
  | .leftJoin left right _ => nested left ++ nested right
  | .filter _ inner => nested inner
  | .union left right => nested left ++ nested right
  | .graph _ inner => nested inner
  | .extend inner _ _ => nested inner
  | .minus left right => nested left ++ nested right
  | .values _ _ => []
  | .orderBy inner _ => nested inner
  | .project inner _ => nested inner
  | .distinct inner => nested inner
  | .reduced inner => nested inner
  | .slice inner _ _ => nested inner
  | .group inner _ _ => nested inner
  | .service _ inner _ => inner :: nested inner

/-- Every variable in scope stands at a place of its own. -/
def Plain (pattern : GraphPattern) : Prop := ∀ v : Variable, v.isNamed = true → InScope v pattern → Stands v pattern

/-- Endpoints that hand on all a query sees. -/
noncomputable def ideal (F : Federation) : Federation := { F with hand := fun _ => seenPart }

theorem ideal_narrows (F : Federation) : (ideal F).Narrows := fun _ _ _ hv => (mem_keys_seenPart.1 hv).1

theorem narrows_of_handOn {F : Federation} (h : F.hand = handOn) : F.Narrows := by
  intro p μ v hv
  rw [h] at hv
  exact (Mapping.mem_keys_restrict.1 hv).2

theorem Plain.map_handOn {F : Federation} {D : RdfDataset} {G : GraphName} {pattern : GraphPattern} {l : List TermRow} (h : Plain pattern)
    (hF : F.hand = handOn) (hl : F.Denotes D G pattern l) : l.map (handOn pattern) = l.map seenPart := by
  apply List.map_congr_left
  intro μ hμ
  exact handOn_eq_seenPart.2 fun v hv hn => h v hn (hl.inScope (narrows_of_handOn hF) μ hμ v hv)

/-- Where the patterns of the clauses inside are plain, the handler answers them as it should. -/
theorem denotes_ideal {F : Federation} (hF : F.hand = handOn) {D : RdfDataset} {G : GraphName} {pattern : GraphPattern} {l : List TermRow}
    (h : ∀ p ∈ nested pattern, Plain p) : (ideal F).Denotes D G pattern l ↔ F.Denotes D G pattern l := by
  have hboth : ∀ {left right : GraphPattern}, (∀ p ∈ nested left ++ nested right, Plain p) →
      (∀ p ∈ nested left, Plain p) ∧ ∀ p ∈ nested right, Plain p := fun hall =>
    ⟨fun p hp => hall p (List.mem_append_left _ hp), fun p hp => hall p (List.mem_append_right _ hp)⟩
  induction pattern generalizing D G l with
  | bgp patterns => exact Iff.rfl
  | path subject path object => exact Iff.rfl
  | values vars bindings => exact Iff.rfl
  | join left right ihl ihr => simp only [Federation.Denotes, ihl (hboth h).1, ihr (hboth h).2]
  | leftJoin left right expression ihl ihr =>
    simp only [Federation.Denotes, ihl (hboth h).1, ihr (hboth h).2]
    exact Iff.rfl
  | filter expr inner ih =>
    simp only [Federation.Denotes, ih h]
    exact Iff.rfl
  | union left right ihl ihr => simp only [Federation.Denotes, ihl (hboth h).1, ihr (hboth h).2]
  | graph name inner ih =>
    cases name with
    | namedNode n => simp only [Federation.Denotes, ih h]
    | var v => simp only [Federation.Denotes, ih h]
  | extend inner v expression ih =>
    simp only [Federation.Denotes, ih h]
    exact Iff.rfl
  | minus left right ihl ihr => simp only [Federation.Denotes, ihl (hboth h).1, ihr (hboth h).2]
  | orderBy inner expression ih =>
    simp only [Federation.Denotes, ih h]
    exact Iff.rfl
  | project inner vars ih => simp only [Federation.Denotes, ih h]
  | distinct inner ih => simp only [Federation.Denotes, ih h]
  | reduced inner ih => simp only [Federation.Denotes, ih h]
  | slice inner start length ih => simp only [Federation.Denotes, ih h]
  | group inner vars aggregates ih =>
    simp only [Federation.Denotes, ih h]
    exact Iff.rfl
  | service name inner silent ih =>
    have hinner : Plain inner := h inner List.mem_cons_self
    have hsame : ∀ {D : RdfDataset} {l₀ : List TermRow}, F.Denotes D .defaultGraph inner l₀ →
        (l₀ : Multiset TermRow).map seenPart = (l₀ : Multiset TermRow).map (F.hand inner) := by
      intro D l₀ h₀
      rw [Multiset.map_coe, Multiset.map_coe, hF, hinner.map_handOn hF h₀]
    have ih' : ∀ {D : RdfDataset} {l₀ : List TermRow}, (ideal F).Denotes D .defaultGraph inner l₀ ↔ F.Denotes D .defaultGraph inner l₀ :=
      ih fun p hp => h p (List.mem_cons_of_mem inner hp)
    cases name with
    | namedNode n =>
      rw [Federation.Denotes, Federation.Denotes]
      have hends : (ideal F).endpoints = F.endpoints := rfl
      rw [hends]
      cases Lib.value n F.endpoints with
      | none => exact Iff.rfl
      | some D' =>
        constructor
        · rintro ⟨l₀, h₀, heq⟩
          exact ⟨l₀, ih'.1 h₀, heq.trans (hsame (ih'.1 h₀))⟩
        · rintro ⟨l₀, h₀, heq⟩
          exact ⟨l₀, ih'.2 h₀, heq.trans (hsame h₀).symm⟩
    | var v =>
      rw [Federation.Denotes, Federation.Denotes]
      have hbind : ∀ found : NamedNode → List TermRow, (∀ e ∈ F.endpoints, F.Denotes e.2 .defaultGraph inner (found e.1)) →
          ((F.endpoints : Multiset (NamedNode × RdfDataset)).bind fun e =>
            Mapping.extend (Finmap.singleton v (.namedNode e.1)) ((found e.1 : Multiset TermRow).map seenPart)) =
          (F.endpoints : Multiset (NamedNode × RdfDataset)).bind fun e =>
            Mapping.extend (Finmap.singleton v (.namedNode e.1)) ((found e.1 : Multiset TermRow).map (F.hand inner)) := by
        intro found hfound
        apply Multiset.bind_congr
        intro e he
        rw [hsame (hfound e he)]
      constructor
      · rintro ⟨found, hfound, heq⟩
        have hfound' : ∀ e ∈ F.endpoints, F.Denotes e.2 .defaultGraph inner (found e.1) := fun e he => ih'.1 (hfound e he)
        exact ⟨found, hfound', heq.trans (hbind found hfound')⟩
      · rintro ⟨found, hfound, heq⟩
        exact ⟨found, fun e he => ih'.2 (hfound e he), heq.trans (hbind found hfound).symm⟩

/-! ## The handler -/

/-- The evaluator answers a selection with rows of its pattern. -/
def Runs (F : Federation) (execute : RdfDataset → Query → Option (List TermRow)) : Prop :=
  ∀ D pattern rows, execute D (.select none pattern) = some rows → F.Denotes D .defaultGraph pattern rows

theorem handle_rows {F : Federation} {execute : RdfDataset → Query → Option (List TermRow)} (hruns : Runs F execute) {name : NamedNode}
    {pattern : GraphPattern} {D : RdfDataset} {rows : List TermRow} (hD : value name F.endpoints = some D)
    (h : handle F.endpoints execute name pattern = some rows) :
    ∃ l, F.Denotes D .defaultGraph pattern l ∧ rows = l.map (handOn pattern) := by
  unfold handle at h
  rw [hD] at h
  exact hruns D _ rows h

/-- Each variable that stands in the pattern is listed once and no other is. The rows are those of the
pattern exactly where none of them binds a variable that stands inside triple terms only; where
no pattern has such a variable they are those that endpoints with nothing amiss would give. -/
theorem handle_exact {F : Federation} (hF : F.hand = handOn) {execute : RdfDataset → Query → Option (List TermRow)} (hruns : Runs F execute) :
    (∀ pattern, (patternVariables pattern).Nodup ∧ ∀ v, v ∈ patternVariables pattern ↔ v.isNamed = true ∧ Stands v pattern) ∧
    (∀ name pattern D rows, value name F.endpoints = some D → handle F.endpoints execute name pattern = some rows →
      ∃ l, F.Denotes D .defaultGraph pattern l ∧
        ((rows : Multiset TermRow) = l.map seenPart ↔ ∀ μ ∈ l, ∀ v ∈ μ.keys, v.isNamed = true → Stands v pattern)) ∧
    ∀ name pattern D rows, value name F.endpoints = some D → handle F.endpoints execute name pattern = some rows →
      (∀ p ∈ pattern :: nested pattern, Plain p) →
      ∃ l, (ideal F).Denotes D .defaultGraph pattern l ∧ (rows : Multiset TermRow) = l.map seenPart := by
  refine ⟨fun pattern => ⟨nodup_patternVariables pattern, mem_patternVariables pattern⟩, ?_, ?_⟩
  · intro name pattern D rows hD h
    obtain ⟨l, hl, rfl⟩ := handle_rows hruns hD h
    exact ⟨l, hl, map_handOn⟩
  · intro name pattern D rows hD h hplain
    obtain ⟨l, hl, rfl⟩ := handle_rows hruns hD h
    refine ⟨l, (denotes_ideal hF fun p hp => hplain p (List.mem_cons_of_mem pattern hp)).2 hl, ?_⟩
    rw [(hplain pattern List.mem_cons_self).map_handOn hF hl]

/-- An evaluator of basic graph patterns, selected or not. -/
noncomputable def runBgp (D : RdfDataset) : Query → Option (List TermRow)
  | .select none (.project (.bgp patterns) vars) =>
    some ((Mapping.joinAll (patterns.map (D.tripleRows .defaultGraph))).toList.map (Mapping.restrict vars))
  | _ => none

/-- One endpoint. -/
def oneEndpoint (D : RdfDataset) : Federation :=
  ⟨[("e", D)], fun _ _ _ _ => true, fun _ _ _ _ => none, fun _ _ _ _ => none, fun _ _ _ _ _ => False, fun _ _ _ _ _ => 0, handOn⟩

theorem runs_runBgp (D : RdfDataset) : Runs (oneEndpoint D) runBgp := by
  intro D' pattern rows h
  cases pattern with
  | project inner vars =>
    cases inner with
    | bgp patterns =>
      obtain rfl := Option.some.inj h
      exact ⟨_, Multiset.coe_toList _, rfl⟩
    | _ => cases h
  | _ => cases h

/-- `?x :q ?y` and `?x :q << :a :p ?o >>` over one quad. -/
def plainBgp : GraphPattern := .bgp [⟨.var (.named "x"), .namedNode "q", .var (.named "y")⟩]

def quotedBgp : GraphPattern := .bgp [⟨.var (.named "x"), .namedNode "q", .triple (.namedNode "a") (.namedNode "p") (.var (.named "o"))⟩]

def quotedData : RdfDataset := ⟨{⟨.namedNode "s", "q", .triple (.namedNode "a") "p" (.namedNode "b"), .defaultGraph⟩}, ∅⟩

theorem handle_plainBgp :
    ∃ rows l, handle [("e", quotedData)] runBgp "e" plainBgp = some rows ∧
      (ideal (oneEndpoint quotedData)).Denotes quotedData .defaultGraph plainBgp l ∧ (rows : Multiset TermRow) = l.map seenPart := by
  have hplain : ∀ p ∈ plainBgp :: nested plainBgp, Plain p := by
    intro p hp v _ hv
    rw [List.mem_singleton.1 hp] at hv ⊢
    obtain ⟨t, ht, hv⟩ := hv
    refine ⟨t, ht, ?_⟩
    rw [List.mem_singleton.1 ht] at hv ⊢
    rcases hv with hv | hv | hv
    · exact .inl hv
    · exact .inr (.inr hv)
    · exact .inr (.inl hv)
  obtain ⟨l, hl, heq⟩ := (handle_exact (F := oneEndpoint quotedData) rfl (runs_runBgp quotedData)).2.2 "e" plainBgp quotedData _ rfl rfl hplain
  exact ⟨_, l, rfl, hl, heq⟩

/-- The variable inside the triple term is not listed, and what a row binds it to is lost. -/
theorem quotedBgp_loses :
    patternVariables quotedBgp = [.named "x"] ∧
    ∃ μ : TermRow, (oneEndpoint quotedData).Denotes quotedData .defaultGraph quotedBgp [μ] ∧ handOn quotedBgp μ ≠ seenPart μ := by
  refine ⟨by decide, (Finmap.singleton (.named "x") (.namedNode "s") : TermRow).insert (.named "o") (.namedNode "b"), ?_, ?_⟩
  · rw [quotedBgp, Federation.Denotes]
    decide
  · intro h
    have hkey : Variable.named "o" ∈ ((Finmap.singleton (.named "x") (.namedNode "s") : TermRow).insert (.named "o") (.namedNode "b")).keys :=
      Finmap.mem_keys.2 (Finmap.mem_insert.2 (.inl rfl))
    have hstands := ((mem_patternVariables quotedBgp (.named "o")).2 ⟨rfl, handOn_eq_seenPart.1 h _ hkey rfl⟩)
    exact absurd hstands (by decide)

end Holos.Engine.Service
