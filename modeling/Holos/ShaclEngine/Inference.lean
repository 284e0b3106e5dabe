import Holos.ShaclEngine.GraphTheorems
import Mathlib.Data.Set.Card
import Mathlib.Data.Fintype.Prod
/-!
# RDFS entailment, materialised

The rules that add triples a validator can act on, run to a fixpoint before validating. The closure
is given up where it grows past a bound.
-/

namespace Holos.ShaclEngine

open Lib

/-- The ids of the vocabulary the rules speak of. -/
structure Vocab where
  rdfType : TermId
  rdfsDomain : TermId
  rdfsRange : TermId
  rdfsSubPropertyOf : TermId
  rdfsSubClassOf : TermId

variable (vocab : Vocab)

/-- Every subject and object of a predicate. -/
def pairs (triples : List Row) (predicate : TermId) : List (TermId × TermId) :=
  (triples.filter (·.snd = predicate)).map (fun t => (t.fst, t.thd))

/-- What one triple entails with the schema statements. -/
def entailedBy (domains ranges subProps subClasses : List (TermId × TermId)) (t : Row) : List Row :=
  (domains.filter (t.snd = ·.1)).map (⟨t.fst, vocab.rdfType, ·.2⟩) ++
  (ranges.filter (t.snd = ·.1)).map (⟨t.thd, vocab.rdfType, ·.2⟩) ++
  (subProps.filter (t.snd = ·.1)).map (⟨t.fst, ·.2, t.thd⟩) ++
  if t.snd = vocab.rdfType then (subClasses.filter (t.thd = ·.1)).map (⟨t.fst, vocab.rdfType, ·.2⟩) else []

/-- A hierarchy is transitive. What it says of a term and itself is left out. -/
def transitive (pairs : List (TermId × TermId)) (predicate : TermId) : List Row :=
  pairs.flatMap (fun ab => (pairs.filter (fun cd => ab.2 = cd.1 ∧ ab.1 ≠ cd.2)).map (⟨ab.1, predicate, ·.2⟩))

def derived (triples : List Row) : List Row :=
  let subProps := pairs triples vocab.rdfsSubPropertyOf
  let subClasses := pairs triples vocab.rdfsSubClassOf
  triples.flatMap (entailedBy vocab (pairs triples vocab.rdfsDomain) (pairs triples vocab.rdfsRange) subProps subClasses) ++
    transitive subProps vocab.rdfsSubPropertyOf ++ transitive subClasses vocab.rdfsSubClassOf

/-- One round: what was known, and what follows from it. -/
def round (triples : SortedSet Row) : SortedSet Row := Graph.normal (triples.toList ++ derived vocab triples.toList)

theorem subset_round (triples : SortedSet Row) : triples.toList ⊆ (round vocab triples).toList :=
  fun _ h => Graph.mem_normal.2 (List.mem_append_left _ h)

theorem length_le_round (triples : SortedSet Row) : triples.toList.length ≤ (round vocab triples).toList.length :=
  (List.subperm_of_subset triples.nodup (subset_round vocab triples)).length_le

/-- Rounds until nothing is new, or there is too much. -/
def closeRounds (maxTriples : Nat) (triples : SortedSet Row) : Except String (SortedSet Row) :=
  if (round vocab triples).toList.length > maxTriples then
    .error s!"RDFS closure exceeded {maxTriples} triples; the schema entails more than this will materialise"
  else if (round vocab triples).toList.length = triples.toList.length then .ok (round vocab triples)
  else closeRounds maxTriples (round vocab triples)
termination_by maxTriples + 1 - triples.toList.length
decreasing_by
  have hle := length_le_round vocab triples
  omega

/-- A graph with its consequences added. -/
def rdfsClosureBounded (graph : Graph) (maxTriples : Nat) : Except String Graph := do
  let triples ← closeRounds vocab maxTriples (Graph.normal graph.iter)
  return Graph.build triples.toList

/-! ## What the rules entail -/

/-- The triples that follow from those of `S`. -/
inductive Entails (S : Set Row) : Row → Prop
  | asserted {r} : r ∈ S → Entails S r
  | rdfs2 {p c x y} : Entails S ⟨p, vocab.rdfsDomain, c⟩ → Entails S ⟨x, p, y⟩ → Entails S ⟨x, vocab.rdfType, c⟩
  | rdfs3 {p c x y} : Entails S ⟨p, vocab.rdfsRange, c⟩ → Entails S ⟨x, p, y⟩ → Entails S ⟨y, vocab.rdfType, c⟩
  | rdfs5 {p q r} : Entails S ⟨p, vocab.rdfsSubPropertyOf, q⟩ → Entails S ⟨q, vocab.rdfsSubPropertyOf, r⟩ → p ≠ r →
    Entails S ⟨p, vocab.rdfsSubPropertyOf, r⟩
  | rdfs7 {p q x y} : Entails S ⟨p, vocab.rdfsSubPropertyOf, q⟩ → Entails S ⟨x, p, y⟩ → Entails S ⟨x, q, y⟩
  | rdfs9 {c d x} : Entails S ⟨c, vocab.rdfsSubClassOf, d⟩ → Entails S ⟨x, vocab.rdfType, c⟩ → Entails S ⟨x, vocab.rdfType, d⟩
  | rdfs11 {c d e} : Entails S ⟨c, vocab.rdfsSubClassOf, d⟩ → Entails S ⟨d, vocab.rdfsSubClassOf, e⟩ → c ≠ e →
    Entails S ⟨c, vocab.rdfsSubClassOf, e⟩

variable {vocab} {S : Set Row} {triples : List Row} {r : Row}

theorem mem_pairs {predicate a b : TermId} : (a, b) ∈ pairs triples predicate ↔ ⟨a, predicate, b⟩ ∈ triples := by
  unfold pairs
  rw [List.mem_map]
  constructor
  · rintro ⟨⟨s, p, o⟩, hfilter, heq⟩
    obtain ⟨hmem, hp⟩ := List.mem_filter.1 hfilter
    cases heq
    obtain rfl : p = predicate := by simpa using hp
    exact hmem
  · exact fun h => ⟨_, List.mem_filter.2 ⟨h, by simp⟩, rfl⟩

theorem mem_transitive {l : List (TermId × TermId)} {predicate : TermId} :
    r ∈ transitive l predicate ↔ ∃ a b c, (a, b) ∈ l ∧ (b, c) ∈ l ∧ a ≠ c ∧ r = ⟨a, predicate, c⟩ := by
  unfold transitive
  simp only [List.mem_flatMap, List.mem_map, List.mem_filter, Prod.exists, decide_eq_true_eq]
  constructor
  · rintro ⟨a, b, hab, b', c, ⟨hbc, rfl, hne⟩, rfl⟩
    exact ⟨a, b, c, hab, hbc, hne, rfl⟩
  · rintro ⟨a, b, c, hab, hbc, hne, rfl⟩
    exact ⟨a, b, hab, b, c, ⟨hbc, rfl, hne⟩, rfl⟩

/-- What one triple entails, rule by rule. -/
theorem mem_entailedBy {domains ranges subProps subClasses : List (TermId × TermId)} {s p o : TermId} :
    r ∈ entailedBy vocab domains ranges subProps subClasses ⟨s, p, o⟩ ↔
      (∃ c, (p, c) ∈ domains ∧ r = ⟨s, vocab.rdfType, c⟩) ∨ (∃ c, (p, c) ∈ ranges ∧ r = ⟨o, vocab.rdfType, c⟩) ∨
      (∃ q, (p, q) ∈ subProps ∧ r = ⟨s, q, o⟩) ∨ (p = vocab.rdfType ∧ ∃ d, (o, d) ∈ subClasses ∧ r = ⟨s, vocab.rdfType, d⟩) := by
  have hdrawn : ∀ (l : List (TermId × TermId)) (a : TermId) (f : TermId → Row),
      r ∈ (l.filter (fun ab => a = ab.1)).map (fun ab => f ab.2) ↔ ∃ b, (a, b) ∈ l ∧ r = f b := by
    intro l a f
    simp only [List.mem_map, List.mem_filter, Prod.exists, decide_eq_true_eq]
    constructor
    · rintro ⟨a', b, ⟨hmem, rfl⟩, rfl⟩
      exact ⟨b, hmem, rfl⟩
    · rintro ⟨b, hmem, rfl⟩
      exact ⟨a, b, ⟨hmem, rfl⟩, rfl⟩
  unfold entailedBy
  split
  · rename_i hp
    obtain rfl : p = vocab.rdfType := hp
    simp only [List.mem_append, or_assoc, hdrawn domains _ (⟨s, vocab.rdfType, ·⟩), hdrawn ranges _ (⟨o, vocab.rdfType, ·⟩),
      hdrawn subProps _ (⟨s, ·, o⟩), hdrawn subClasses _ (⟨s, vocab.rdfType, ·⟩), true_and]
  · rename_i hp
    have hne : ¬ p = vocab.rdfType := hp
    simp only [List.mem_append, or_assoc, hdrawn domains _ (⟨s, vocab.rdfType, ·⟩), hdrawn ranges _ (⟨o, vocab.rdfType, ·⟩),
      hdrawn subProps _ (⟨s, ·, o⟩), hne, false_and, List.not_mem_nil]

theorem mem_derived : r ∈ derived vocab triples ↔
    (∃ p c x y, ⟨p, vocab.rdfsDomain, c⟩ ∈ triples ∧ ⟨x, p, y⟩ ∈ triples ∧ r = ⟨x, vocab.rdfType, c⟩) ∨
    (∃ p c x y, ⟨p, vocab.rdfsRange, c⟩ ∈ triples ∧ ⟨x, p, y⟩ ∈ triples ∧ r = ⟨y, vocab.rdfType, c⟩) ∨
    (∃ p q x y, ⟨p, vocab.rdfsSubPropertyOf, q⟩ ∈ triples ∧ ⟨x, p, y⟩ ∈ triples ∧ r = ⟨x, q, y⟩) ∨
    (∃ c d x, ⟨c, vocab.rdfsSubClassOf, d⟩ ∈ triples ∧ ⟨x, vocab.rdfType, c⟩ ∈ triples ∧ r = ⟨x, vocab.rdfType, d⟩) ∨
    (∃ p q q', ⟨p, vocab.rdfsSubPropertyOf, q⟩ ∈ triples ∧ ⟨q, vocab.rdfsSubPropertyOf, q'⟩ ∈ triples ∧ p ≠ q' ∧
      r = ⟨p, vocab.rdfsSubPropertyOf, q'⟩) ∨
    (∃ c d e, ⟨c, vocab.rdfsSubClassOf, d⟩ ∈ triples ∧ ⟨d, vocab.rdfsSubClassOf, e⟩ ∈ triples ∧ c ≠ e ∧
      r = ⟨c, vocab.rdfsSubClassOf, e⟩) := by
  have hrules : r ∈ triples.flatMap (entailedBy vocab (pairs triples vocab.rdfsDomain) (pairs triples vocab.rdfsRange)
      (pairs triples vocab.rdfsSubPropertyOf) (pairs triples vocab.rdfsSubClassOf)) ↔ ∃ s p o, ⟨s, p, o⟩ ∈ triples ∧
        r ∈ entailedBy vocab (pairs triples vocab.rdfsDomain) (pairs triples vocab.rdfsRange)
          (pairs triples vocab.rdfsSubPropertyOf) (pairs triples vocab.rdfsSubClassOf) ⟨s, p, o⟩ := by
    rw [List.mem_flatMap]
    exact ⟨fun ⟨⟨s, p, o⟩, h⟩ => ⟨s, p, o, h⟩, fun ⟨s, p, o, h⟩ => ⟨⟨s, p, o⟩, h⟩⟩
  unfold derived
  simp only [List.mem_append, hrules, mem_entailedBy, mem_transitive, mem_pairs]
  constructor
  · rintro ((⟨s, p, o, ht, ⟨c, hc, rfl⟩ | ⟨c, hc, rfl⟩ | ⟨q, hq, rfl⟩ | ⟨rfl, d, hd, rfl⟩⟩ | h) | h)
    · exact .inl ⟨p, c, s, o, hc, ht, rfl⟩
    · exact .inr (.inl ⟨p, c, s, o, hc, ht, rfl⟩)
    · exact .inr (.inr (.inl ⟨p, q, s, o, hq, ht, rfl⟩))
    · exact .inr (.inr (.inr (.inl ⟨o, d, s, hd, ht, rfl⟩)))
    · exact .inr (.inr (.inr (.inr (.inl h))))
    · exact .inr (.inr (.inr (.inr (.inr h))))
  · rintro (⟨p, c, x, y, hc, ht, rfl⟩ | ⟨p, c, x, y, hc, ht, rfl⟩ | ⟨p, q, x, y, hq, ht, rfl⟩ | ⟨c, d, x, hd, ht, rfl⟩ | h | h)
    · exact .inl (.inl ⟨x, p, y, ht, .inl ⟨c, hc, rfl⟩⟩)
    · exact .inl (.inl ⟨x, p, y, ht, .inr (.inl ⟨c, hc, rfl⟩)⟩)
    · exact .inl (.inl ⟨x, p, y, ht, .inr (.inr (.inl ⟨q, hq, rfl⟩))⟩)
    · exact .inl (.inl ⟨x, vocab.rdfType, c, ht, .inr (.inr (.inr ⟨rfl, d, hd, rfl⟩))⟩)
    · exact .inl (.inr h)
    · exact .inr h

/-- A round draws what the rules say. -/
theorem derived_sound (h : ∀ r ∈ triples, Entails vocab S r) (hr : r ∈ derived vocab triples) : Entails vocab S r := by
  rcases mem_derived.1 hr with ⟨p, c, x, y, h₁, h₂, rfl⟩ | ⟨p, c, x, y, h₁, h₂, rfl⟩ | ⟨p, q, x, y, h₁, h₂, rfl⟩ |
    ⟨c, d, x, h₁, h₂, rfl⟩ | ⟨p, q, q', h₁, h₂, hne, rfl⟩ | ⟨c, d, e, h₁, h₂, hne, rfl⟩
  · exact .rdfs2 (h _ h₁) (h _ h₂)
  · exact .rdfs3 (h _ h₁) (h _ h₂)
  · exact .rdfs7 (h _ h₁) (h _ h₂)
  · exact .rdfs9 (h _ h₁) (h _ h₂)
  · exact .rdfs5 (h _ h₁) (h _ h₂) hne
  · exact .rdfs11 (h _ h₁) (h _ h₂) hne

/-- Where a round draws nothing new, the rules lead nowhere else. -/
theorem mem_of_entails (hS : ∀ r ∈ S, r ∈ triples) (hclosed : ∀ r ∈ derived vocab triples, r ∈ triples) (hr : Entails vocab S r) :
    r ∈ triples := by
  induction hr with
  | asserted h => exact hS _ h
  | rdfs2 _ _ h₁ h₂ => exact hclosed _ (mem_derived.2 (.inl ⟨_, _, _, _, h₁, h₂, rfl⟩))
  | rdfs3 _ _ h₁ h₂ => exact hclosed _ (mem_derived.2 (.inr (.inl ⟨_, _, _, _, h₁, h₂, rfl⟩)))
  | rdfs7 _ _ h₁ h₂ => exact hclosed _ (mem_derived.2 (.inr (.inr (.inl ⟨_, _, _, _, h₁, h₂, rfl⟩))))
  | rdfs9 _ _ h₁ h₂ => exact hclosed _ (mem_derived.2 (.inr (.inr (.inr (.inl ⟨_, _, _, h₁, h₂, rfl⟩)))))
  | rdfs5 _ _ hne h₁ h₂ => exact hclosed _ (mem_derived.2 (.inr (.inr (.inr (.inr (.inl ⟨_, _, _, h₁, h₂, hne, rfl⟩))))))
  | rdfs11 _ _ hne h₁ h₂ => exact hclosed _ (mem_derived.2 (.inr (.inr (.inr (.inr (.inr ⟨_, _, _, h₁, h₂, hne, rfl⟩))))))

/-! ## The closure -/

theorem mem_round {triples : SortedSet Row} : r ∈ round vocab triples ↔ r ∈ triples.toList ∨ r ∈ derived vocab triples.toList :=
  Graph.mem_normal.trans List.mem_append

/-- Known triples that the rules lead to from `S`. -/
structure Known (vocab : Vocab) (S : Set Row) (triples : SortedSet Row) : Prop where
  asserted : ∀ r ∈ S, r ∈ triples
  entailed : ∀ r ∈ triples, Entails vocab S r

theorem Known.round {triples : SortedSet Row} (h : Known vocab S triples) : Known vocab S (round vocab triples) where
  asserted r hr := mem_round.2 (.inl (h.asserted r hr))
  entailed r hr := (mem_round.1 hr).elim (h.entailed r) (derived_sound h.entailed)

/-- A round that adds nothing has closed what is known. -/
theorem Known.closed {triples : SortedSet Row} (h : Known vocab S triples)
    (hlen : (ShaclEngine.round vocab triples).toList.length = triples.toList.length) :
    r ∈ ShaclEngine.round vocab triples ↔ Entails vocab S r := by
  have hperm : triples.toList.Perm (ShaclEngine.round vocab triples).toList :=
    (List.subperm_of_subset triples.nodup (subset_round vocab triples)).perm_of_length_le hlen.le
  have hback : ∀ r, r ∈ ShaclEngine.round vocab triples → r ∈ triples.toList := fun r hr => hperm.mem_iff.2 hr
  refine ⟨h.round.entailed r, fun hr => hperm.subset (mem_of_entails h.asserted (fun r hr => ?_) hr)⟩
  exact hback r (mem_round.2 (.inr hr))

/-- What the rounds end with, from triples that are known. -/
theorem closeRounds_closes {maxTriples : Nat} {triples : SortedSet Row} (h : Known vocab S triples) :
    match closeRounds vocab maxTriples triples with
    | .ok closed => closed.toList.length ≤ maxTriples ∧ ∀ r, r ∈ closed ↔ Entails vocab S r
    | .error _ => ∃ known : SortedSet Row, maxTriples < known.toList.length ∧ ∀ r ∈ known, Entails vocab S r := by
  fun_induction closeRounds vocab maxTriples triples with
  | case1 triples hmany => exact ⟨_, hmany, h.round.entailed⟩
  | case2 triples hfew hlen => exact ⟨not_lt.1 hfew, fun r => h.closed hlen⟩
  | case3 triples hfew hlen ih => exact ih h.round

instance instFiniteRow : Finite Row := Finite.of_injective Row.key Row.key_injective

/-- A set of triples kept as a list has as many of them. -/
theorem length_eq_ncard {triples : SortedSet Row} {T : Set Row} (h : ∀ r, r ∈ triples ↔ r ∈ T) : triples.toList.length = T.ncard := by
  obtain rfl : T = {r | r ∈ triples.toList} := Set.ext fun r => (h r).symm
  rw [← List.toFinset_card_of_nodup triples.nodup, ← Set.ncard_coe_finset]
  congr 1
  ext r
  simp

/-- What the rules lead to they lead to at once. -/
theorem entails_entails : Entails vocab {r | Entails vocab S r} r ↔ Entails vocab S r := by
  refine ⟨fun h => ?_, .asserted⟩
  induction h with
  | asserted h => exact h
  | rdfs2 _ _ h₁ h₂ => exact .rdfs2 h₁ h₂
  | rdfs3 _ _ h₁ h₂ => exact .rdfs3 h₁ h₂
  | rdfs5 _ _ hne h₁ h₂ => exact .rdfs5 h₁ h₂ hne
  | rdfs7 _ _ h₁ h₂ => exact .rdfs7 h₁ h₂
  | rdfs9 _ _ h₁ h₂ => exact .rdfs9 h₁ h₂
  | rdfs11 _ _ hne h₁ h₂ => exact .rdfs11 h₁ h₂ hne

variable (vocab) in
theorem rdfsClosureBounded_iff (graph : Graph) (maxTriples : Nat) (g : Graph) :
    rdfsClosureBounded vocab graph maxTriples = .ok g ↔
      {r | Entails vocab graph.triples r}.ncard ≤ maxTriples ∧ ∀ r, r ∈ g.triples ↔ Entails vocab graph.triples r := by
  have hknown : Known vocab (graph.triples : Set Row) (Graph.normal graph.iter) :=
    ⟨fun r hr => Graph.mem_normal.2 ((graph.answers.iter r).2 hr), fun r hr => .asserted ((graph.answers.iter r).1 (Graph.mem_normal.1 hr))⟩
  have hcloses := @closeRounds_closes vocab _ maxTriples _ hknown
  unfold rdfsClosureBounded
  cases hrun : closeRounds vocab maxTriples (Graph.normal graph.iter) with
  | error e =>
    rw [hrun] at hcloses
    obtain ⟨known, hmany, hentailed⟩ := hcloses
    refine iff_of_false (fun h => by cases h) (fun h => ?_)
    have hfew := h.1
    have hsub : {r | r ∈ known} ⊆ {r | Entails vocab graph.triples r} := hentailed
    have hle := Set.ncard_le_ncard hsub (Set.toFinite _)
    have hcard : known.toList.length = {r | r ∈ known}.ncard := length_eq_ncard (fun _ => Iff.rfl)
    omega
  | ok closed =>
    rw [hrun] at hcloses
    obtain ⟨hfew, hclosed⟩ := hcloses
    have htriples : ∀ r, r ∈ (Graph.build closed.toList).triples ↔ Entails vocab graph.triples r := by
      intro r
      rw [Graph.triples_build, List.mem_toFinset]
      exact hclosed r
    have hcard := length_eq_ncard (T := {r | Entails vocab graph.triples r}) hclosed
    constructor
    · intro h
      cases h
      exact ⟨hcard ▸ hfew, htriples⟩
    · rintro ⟨-, hg⟩
      refine congrArg Except.ok (Graph.eq_of_triples (Finset.ext fun r => ?_))
      rw [htriples, hg]

/-- On any graph the closure is computed exactly where it fits the bound: what is returned are the triples the rules lead to,
and closing that again returns it. -/
theorem rdfsClosureBounded_exact (vocab : Vocab) (graph : Graph) (maxTriples : Nat) :
    (∀ g, rdfsClosureBounded vocab graph maxTriples = .ok g ↔
      {r | Entails vocab graph.triples r}.ncard ≤ maxTriples ∧ ∀ r, r ∈ g.triples ↔ Entails vocab graph.triples r) ∧
    (∀ g, rdfsClosureBounded vocab graph maxTriples = .ok g → rdfsClosureBounded vocab g maxTriples = .ok g) ∧
    ((∃ e, rdfsClosureBounded vocab graph maxTriples = .error e) ↔ maxTriples < {r | Entails vocab graph.triples r}.ncard) := by
  refine ⟨rdfsClosureBounded_iff vocab graph maxTriples, fun g hg => ?_, ?_⟩
  · obtain ⟨hfew, hg⟩ := (rdfsClosureBounded_iff vocab graph maxTriples g).1 hg
    have hset : (g.triples : Set Row) = {r | Entails vocab graph.triples r} := Set.ext hg
    refine (rdfsClosureBounded_iff vocab g maxTriples g).2 ⟨?_, fun r => ?_⟩
    · simpa only [hset, entails_entails] using hfew
    · rw [hset, entails_entails, hg]
  · cases hrun : rdfsClosureBounded vocab graph maxTriples with
    | error e =>
      refine iff_of_true ⟨e, rfl⟩ (not_le.1 fun hfew => ?_)
      have hclosed := (rdfsClosureBounded_iff vocab graph maxTriples (Graph.build (Set.toFinite {r | Entails vocab graph.triples r}).toFinset.toList)).2
        ⟨hfew, fun r => by simp⟩
      rw [hrun] at hclosed
      cases hclosed
    | ok g =>
      refine iff_of_false (fun ⟨e, he⟩ => by cases he) (not_lt.2 ?_)
      exact ((rdfsClosureBounded_iff vocab graph maxTriples g).1 hrun).1

end Holos.ShaclEngine
