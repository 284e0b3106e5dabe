import Holos.Store.Index
import Mathlib.Data.Finset.Basic
import Mathlib.Data.Finset.Filter
/-!
# The index holds one set of quads

`Holds` relates an index to a set of quads and a set of graph names: each of the nine
orders is that set, permuted. Every operation takes an index that holds a set to one
that holds the set the operation computes, so a run from the empty index holds
what replaying the operations on plain sets gives. The scans are then read off `Holds`,
arm by arm.
-/

namespace Holos.Index

open Lib
open QuadIndex hiding insert remove

/-- The index stores the quads `Q` and the graph names `G`. -/
structure Holds (ix : QuadIndex) (Q : Finset EncodedQuad) (G : Finset TermId) : Prop where
  dspo : ∀ s p o, (⟨s, p, o⟩ : Key3) ∈ ix.dspo ↔ ⟨s, p, o, none⟩ ∈ Q
  dpos : ∀ s p o, (⟨p, o, s⟩ : Key3) ∈ ix.dpos ↔ ⟨s, p, o, none⟩ ∈ Q
  dosp : ∀ s p o, (⟨o, s, p⟩ : Key3) ∈ ix.dosp ↔ ⟨s, p, o, none⟩ ∈ Q
  spog : ∀ s p o g, (⟨s, p, o, g⟩ : Key4) ∈ ix.spog ↔ ⟨s, p, o, some g⟩ ∈ Q
  posg : ∀ s p o g, (⟨p, o, s, g⟩ : Key4) ∈ ix.posg ↔ ⟨s, p, o, some g⟩ ∈ Q
  ospg : ∀ s p o g, (⟨o, s, p, g⟩ : Key4) ∈ ix.ospg ↔ ⟨s, p, o, some g⟩ ∈ Q
  gspo : ∀ s p o g, (⟨g, s, p, o⟩ : Key4) ∈ ix.gspo ↔ ⟨s, p, o, some g⟩ ∈ Q
  gpos : ∀ s p o g, (⟨g, p, o, s⟩ : Key4) ∈ ix.gpos ↔ ⟨s, p, o, some g⟩ ∈ Q
  gosp : ∀ s p o g, (⟨g, o, s, p⟩ : Key4) ∈ ix.gosp ↔ ⟨s, p, o, some g⟩ ∈ Q
  graphs : ∀ g, g ∈ ix.graphs ↔ g ∈ G
  named : ∀ q ∈ Q, ∀ g, q.graphName = some g → g ∈ G

theorem holds_new : Holds new ∅ ∅ := by
  constructor <;> simp [new, SortedSet.not_mem_empty]

/-! ## Writes -/

variable {ix : QuadIndex} {Q : Finset EncodedQuad} {G : Finset TermId}

/-- The graph a quad's insertion records. -/
def record (G : Finset TermId) : Option TermId → Finset TermId
  | none => G
  | some g => insert g G

theorem insert_holds (h : Holds ix Q G) (q : EncodedQuad) :
    Holds (ix.insert q).2 (insert q Q) (record G q.graphName) := by
  obtain ⟨s, p, o, g⟩ := q
  cases g with
  | none =>
    by_cases hin : (⟨s, p, o⟩ : Key3) ∈ ix.dspo
    · have hq : (⟨s, p, o, none⟩ : EncodedQuad) ∈ Q := (h.dspo s p o).1 hin
      simpa [QuadIndex.insert, hin, record, Finset.insert_eq_of_mem hq] using h
    · simp only [QuadIndex.insert, hin, if_false, record]
      refine ⟨?_, ?_, ?_, ?_, ?_, ?_, ?_, ?_, ?_, h.graphs, fun q hq g hg => ?_⟩
      case refine_10 =>
        rcases Finset.mem_insert.1 hq with rfl | hq
        · cases hg
        · exact h.named q hq g hg
      all_goals intros; simp [h.dspo, h.dpos, h.dosp, h.spog, h.posg, h.ospg, h.gspo, h.gpos, h.gosp]
      all_goals tauto
  | some g =>
    by_cases hin : (⟨g, s, p, o⟩ : Key4) ∈ ix.gspo
    · have hq : (⟨s, p, o, some g⟩ : EncodedQuad) ∈ Q := (h.gspo s p o g).1 hin
      simpa [QuadIndex.insert, hin, record, Finset.insert_eq_of_mem hq,
        Finset.insert_eq_of_mem (h.named _ hq g rfl)] using h
    · simp only [QuadIndex.insert, hin, if_false, record]
      refine ⟨?_, ?_, ?_, ?_, ?_, ?_, ?_, ?_, ?_, fun g' => by simp [h.graphs], fun q hq g' hg => ?_⟩
      case refine_10 =>
        rcases Finset.mem_insert.1 hq with rfl | hq
        · simp only [Option.some.injEq] at hg; simp [hg]
        · exact Finset.mem_insert_of_mem (h.named q hq g' hg)
      all_goals intros; simp [h.dspo, h.dpos, h.dosp, h.spog, h.posg, h.ospg, h.gspo, h.gpos, h.gosp]
      all_goals tauto

theorem remove_holds (h : Holds ix Q G) (q : EncodedQuad) : Holds (ix.remove q).2 (Q.erase q) G := by
  obtain ⟨s, p, o, g⟩ := q
  have hnamed : ∀ q' ∈ Q.erase ⟨s, p, o, g⟩, ∀ g', q'.graphName = some g' → g' ∈ G :=
    fun q' hq' g' hg' => h.named q' (Finset.mem_of_mem_erase hq') g' hg'
  cases g with
  | none =>
    by_cases hin : (⟨s, p, o⟩ : Key3) ∈ ix.dspo
    · simp only [QuadIndex.remove, hin, if_true]
      refine ⟨?_, ?_, ?_, ?_, ?_, ?_, ?_, ?_, ?_, h.graphs, hnamed⟩ <;> intros <;>
        simp [h.dspo, h.dpos, h.dosp, h.spog, h.posg, h.ospg, h.gspo, h.gpos, h.gosp] <;> tauto
    · have hq : (⟨s, p, o, none⟩ : EncodedQuad) ∉ Q := fun hq => hin ((h.dspo s p o).2 hq)
      simpa [QuadIndex.remove, hin, Finset.erase_eq_of_notMem hq] using h
  | some g =>
    by_cases hin : (⟨g, s, p, o⟩ : Key4) ∈ ix.gspo
    · simp only [QuadIndex.remove, hin, if_true]
      refine ⟨?_, ?_, ?_, ?_, ?_, ?_, ?_, ?_, ?_, h.graphs, hnamed⟩ <;> intros <;>
        simp [h.dspo, h.dpos, h.dosp, h.spog, h.posg, h.ospg, h.gspo, h.gpos, h.gosp] <;> tauto
    · have hq : (⟨s, p, o, some g⟩ : EncodedQuad) ∉ Q := fun hq => hin ((h.gspo s p o g).2 hq)
      simpa [QuadIndex.remove, hin, Finset.erase_eq_of_notMem hq] using h

theorem insertNamedGraph_holds (h : Holds ix Q G) (g : TermId) :
    Holds (ix.insertNamedGraph g).2 Q (insert g G) where
  dspo := h.dspo
  dpos := h.dpos
  dosp := h.dosp
  spog := h.spog
  posg := h.posg
  ospg := h.ospg
  gspo := h.gspo
  gpos := h.gpos
  gosp := h.gosp
  graphs g' := by simp [insertNamedGraph, h.graphs]
  named q hq g' hg := Finset.mem_insert_of_mem (h.named q hq g' hg)

theorem remove_all_holds (l : List EncodedQuad) (h : Holds ix Q G) :
    Holds (l.foldl (fun ix quad => (ix.remove quad).2) ix) (Q.filter (· ∉ l)) G := by
  induction l generalizing ix Q with
  | nil => simpa using h
  | cons q l ih =>
    have he : Q.filter (· ∉ q :: l) = (Q.erase q).filter (· ∉ l) := by
      ext x; simp only [Finset.mem_filter, Finset.mem_erase, List.mem_cons, not_or]; tauto
    rw [List.foldl_cons, he]
    exact ih (remove_holds h q)

/-! ## Prefix scans -/

theorem key3_toList {l : List TermId} (h : l.length = 3) : (key3 l).toList = l := by
  match l, h with
  | [a, b, c], _ => rfl

theorem key4_toList {l : List TermId} (h : l.length = 4) : (key4 l).toList = l := by
  match l, h with
  | [a, b, c, d], _ => rfl

theorem mem_range3 {set : SortedSet Key3} {pre : List TermId} (hp : pre.length ≤ 3) {k : Key3} :
    k ∈ set.range (key3 (lower 3 pre)) (key3 (upper 3 pre)) ↔ k ∈ set ∧ pre <+: k.toList := by
  rw [SortedSet.mem_range, Key3.le_iff, Key3.le_iff, key3_toList (by simp [lower]; omega),
    key3_toList (by simp [upper]; omega)]
  exact and_congr_right fun _ =>
    prefix_range_iff TermId.min_le TermId.le_max pre k.toList (3 - pre.length) (by simp [Key3.toList]; omega)

theorem mem_range4 {set : SortedSet Key4} {pre : List TermId} (hp : pre.length ≤ 4) {k : Key4} :
    k ∈ set.range (key4 (lower 4 pre)) (key4 (upper 4 pre)) ↔ k ∈ set ∧ pre <+: k.toList := by
  rw [SortedSet.mem_range, Key4.le_iff, Key4.le_iff, key4_toList (by simp [lower]; omega),
    key4_toList (by simp [upper]; omega)]
  exact and_congr_right fun _ =>
    prefix_range_iff TermId.min_le TermId.le_max pre k.toList (4 - pre.length) (by simp [Key4.toList]; omega)

/-- What a prefix scan yields: one quad per stored key with the prefix. -/
theorem mem_scan3 {set : SortedSet Key3} {pre : List TermId} (hp : pre.length ≤ 3) {f : Key3 → EncodedQuad}
    {q : EncodedQuad} : q ∈ scan3 set pre f ↔ ∃ k ∈ set, pre <+: k.toList ∧ f k = q := by
  simp only [scan3, List.mem_map, mem_range3 hp, and_assoc]

theorem mem_scan4 {set : SortedSet Key4} {pre : List TermId} (hp : pre.length ≤ 4) {f : Key4 → EncodedQuad}
    {q : EncodedQuad} : q ∈ scan4 set pre f ↔ ∃ k ∈ set, pre <+: k.toList ∧ f k = q := by
  simp only [scan4, List.mem_map, mem_range4 hp, and_assoc]

theorem exists_key3 {P : Key3 → Prop} : (∃ k, P k) ↔ ∃ a b c, P ⟨a, b, c⟩ :=
  ⟨fun ⟨⟨a, b, c⟩, h⟩ => ⟨a, b, c, h⟩, fun ⟨_, _, _, h⟩ => ⟨_, h⟩⟩

theorem exists_key4 {P : Key4 → Prop} : (∃ k, P k) ↔ ∃ a b c d, P ⟨a, b, c, d⟩ :=
  ⟨fun ⟨⟨a, b, c, d⟩, h⟩ => ⟨a, b, c, d, h⟩, fun ⟨_, _, _, _, h⟩ => ⟨_, h⟩⟩

/-- A quad matches a pattern's bound positions. -/
def matchesTriple (s p o : Option TermId) (q : EncodedQuad) : Bool :=
  s.all (· = q.subject) && p.all (· = q.predicate) && o.all (· = q.object)

/-- A quad is in one of the graphs a filter admits. -/
def GraphFilter.admits : GraphFilter → EncodedQuad → Bool
  | .default, q => q.graphName.isNone
  | .named g, q => q.graphName = some g
  | .anyNamed, q => q.graphName.isSome
  | .any, _ => true

theorem mem_scanDefault (h : Holds ix Q G) (s p o : Option TermId) (q : EncodedQuad) :
    q ∈ ix.scanDefault s p o ↔ q ∈ Q ∧ matchesTriple s p o q = true ∧ q.graphName = none := by
  obtain ⟨qs, qp, qo, qg⟩ := q
  rcases s with _ | s <;> rcases p with _ | p <;> rcases o with _ | o <;> cases qg <;>
    simp [scanDefault, mem_scan3, exists_key3, Key3.toList, ofSpo, ofPos, ofOsp, h.dspo, h.dpos, h.dosp,
      matchesTriple] <;>
    grind

theorem mem_scanNamed (h : Holds ix Q G) (g : TermId) (s p o : Option TermId) (q : EncodedQuad) :
    q ∈ ix.scanNamed g s p o ↔ q ∈ Q ∧ matchesTriple s p o q = true ∧ q.graphName = some g := by
  obtain ⟨qs, qp, qo, qg⟩ := q
  rcases s with _ | s <;> rcases p with _ | p <;> rcases o with _ | o <;> cases qg <;>
    simp [scanNamed, mem_scan4, exists_key4, Key4.toList, ofGspo, ofGpos, ofGosp, h.gspo, h.gpos, h.gosp,
      matchesTriple] <;>
    grind

theorem mem_scanAnyNamed (h : Holds ix Q G) (s p o : Option TermId) (q : EncodedQuad) :
    q ∈ ix.scanAnyNamed s p o ↔ q ∈ Q ∧ matchesTriple s p o q = true ∧ q.graphName.isSome = true := by
  obtain ⟨qs, qp, qo, qg⟩ := q
  rcases s with _ | s <;> rcases p with _ | p <;> rcases o with _ | o <;> cases qg <;>
    simp [scanAnyNamed, mem_scan4, exists_key4, Key4.toList, ofSpog, ofPosg, ofOspg, h.spog, h.posg, h.ospg,
      matchesTriple] <;>
    grind

/-- A scan yields the stored quads that match, and nothing else. -/
theorem mem_quadsForPattern (h : Holds ix Q G) (s p o : Option TermId) (graph : GraphFilter) (q : EncodedQuad) :
    q ∈ ix.quadsForPattern s p o graph ↔ q ∈ Q ∧ matchesTriple s p o q = true ∧ GraphFilter.admits graph q = true := by
  cases graph with
  | default => simp [quadsForPattern, mem_scanDefault h, GraphFilter.admits]
  | named g => simp [quadsForPattern, mem_scanNamed h, GraphFilter.admits]
  | anyNamed => simp [quadsForPattern, mem_scanAnyNamed h, GraphFilter.admits]
  | any =>
    simp only [quadsForPattern, List.mem_append, mem_scanDefault h, mem_scanAnyNamed h, GraphFilter.admits, and_true]
    cases hg : q.graphName <;> simp

/-! ## Key order -/

/-- The key a quad has in an order. A quad of the default graph has no key in the orders of
the named graphs; the sentinel stands in for its graph there. -/
def Order.key (o : Order) (q : EncodedQuad) : List TermId :=
  let g := q.graphName.getD TermId.min
  match o with
  | .dspo => [q.subject, q.predicate, q.object]
  | .dpos => [q.predicate, q.object, q.subject]
  | .dosp => [q.object, q.subject, q.predicate]
  | .spog => [q.subject, q.predicate, q.object, g]
  | .posg => [q.predicate, q.object, q.subject, g]
  | .ospg => [q.object, q.subject, q.predicate, g]
  | .gspo => [g, q.subject, q.predicate, q.object]
  | .gpos => [g, q.predicate, q.object, q.subject]
  | .gosp => [g, q.object, q.subject, q.predicate]

/-- Strictly increasing keys in one order: in order, and nothing twice. -/
def KeySorted (o : Order) (l : List EncodedQuad) : Prop := l.Pairwise (fun a b => Order.key o a < Order.key o b)

theorem KeySorted.nodup {o : Order} {l : List EncodedQuad} (h : KeySorted o l) : l.Nodup :=
  h.imp fun hab he => by subst he; exact lt_irrefl _ hab

theorem range3_keySorted {set : SortedSet Key3} {lo hi : Key3} {f : Key3 → EncodedQuad} {o : Order}
    (hf : ∀ k, Order.key o (f k) = k.toList) : KeySorted o ((set.range lo hi).map f) := by
  refine List.pairwise_map.2 ((set.range_sorted lo hi).imp fun hab => ?_)
  rw [hf, hf]
  exact hab

/-- In the orders that lead with the graph, the un-permutation restores a fixed graph,
so the key comes back only for keys that carry it. -/
theorem range4_keySorted {set : SortedSet Key4} {lo hi : Key4} {f : Key4 → EncodedQuad} {o : Order}
    (hf : ∀ k ∈ set.range lo hi, Order.key o (f k) = k.toList) : KeySorted o ((set.range lo hi).map f) := by
  refine List.pairwise_map.2 (List.Pairwise.imp_of_mem (fun ha hb hab => ?_) (set.range_sorted lo hi))
  rw [hf _ ha, hf _ hb]
  exact hab

theorem scanDefault_sorted (ix : QuadIndex) (s p o : Option TermId) :
    KeySorted (plan s p o .default) (ix.scanDefault s p o) := by
  rcases s with _ | s <;> rcases p with _ | p <;> rcases o with _ | o <;> exact range3_keySorted fun _ => rfl

theorem scanAnyNamed_sorted (ix : QuadIndex) (s p o : Option TermId) :
    KeySorted (plan s p o .anyNamed) (ix.scanAnyNamed s p o) := by
  rcases s with _ | s <;> rcases p with _ | p <;> rcases o with _ | o <;> exact range4_keySorted fun _ _ => rfl

theorem scan_graph {set : SortedSet Key4} {g : TermId} {pre : List TermId} (hp : (g :: pre).length ≤ 4) {k : Key4}
    (h : k ∈ set.range (key4 (lower 4 (g :: pre))) (key4 (upper 4 (g :: pre)))) : k.a = g := by
  have := (mem_range4 hp).1 h
  exact (List.cons_prefix_cons.1 this.2).1.symm

theorem scanNamed_sorted (ix : QuadIndex) (g : TermId) (s p o : Option TermId) :
    KeySorted (plan s p o (.named g)) (ix.scanNamed g s p o) := by
  rcases s with _ | s <;> rcases p with _ | p <;> rcases o with _ | o <;>
    refine range4_keySorted fun k hk => ?_ <;>
    · rw [← scan_graph (by simp) hk]
      rfl

/-- A scan comes in the key order of the order it is routed to; with every graph
admitted, the default graph's scan comes first. -/
def ScanOrder (s p o : Option TermId) : GraphFilter → List EncodedQuad → Prop
  | .any, l => ∃ l₁ l₂, l = l₁ ++ l₂ ∧ KeySorted (plan s p o .default) l₁ ∧ KeySorted (plan s p o .anyNamed) l₂
  | graph, l => KeySorted (plan s p o graph) l

theorem quadsForPattern_order (ix : QuadIndex) (s p o : Option TermId) (graph : GraphFilter) :
    ScanOrder s p o graph (ix.quadsForPattern s p o graph) := by
  cases graph with
  | default => exact scanDefault_sorted ix s p o
  | named g => exact scanNamed_sorted ix g s p o
  | anyNamed => exact scanAnyNamed_sorted ix s p o
  | any => exact ⟨_, _, rfl, scanDefault_sorted ix s p o, scanAnyNamed_sorted ix s p o⟩

/-- The two halves of a scan over every graph share no quad. -/
theorem nodup_append_of_graph {l₁ l₂ : List EncodedQuad} (h₁ : l₁.Nodup) (h₂ : l₂.Nodup)
    (hd : ∀ q ∈ l₁, q.graphName = none) (hn : ∀ q ∈ l₂, q.graphName.isSome = true) : (l₁ ++ l₂).Nodup := by
  refine List.nodup_append.2 ⟨h₁, h₂, fun a ha b hb hab => ?_⟩
  have := hn b hb
  rw [← hab, hd a ha] at this
  cases this

theorem quadsForPattern_nodup (h : Holds ix Q G) (s p o : Option TermId) (graph : GraphFilter) :
    (ix.quadsForPattern s p o graph).Nodup := by
  cases graph with
  | default => exact (scanDefault_sorted ix s p o).nodup
  | named g => exact (scanNamed_sorted ix g s p o).nodup
  | anyNamed => exact (scanAnyNamed_sorted ix s p o).nodup
  | any =>
    exact nodup_append_of_graph (scanDefault_sorted ix s p o).nodup (scanAnyNamed_sorted ix s p o).nodup
      (fun q hq => ((mem_scanDefault h s p o q).1 hq).2.2) (fun q hq => ((mem_scanAnyNamed h s p o q).1 hq).2.2)

/-! ## Span scans -/

theorem span3_second {p x y : TermId} {k : Key3} :
    ((⟨p, x, TermId.min⟩ : Key3) ≤ k ∧ k ≤ ⟨p, y, TermId.max⟩) ↔ k.a = p ∧ x ≤ k.b ∧ k.b ≤ y := by
  obtain ⟨a, b, c⟩ := k
  have := span_range_iff TermId.min_le TermId.le_max [] [c] x y b 1 rfl
  simp only [List.nil_append, List.replicate_one] at this
  rw [Key3.le_iff, Key3.le_iff]
  simp only [Key3.toList]
  rw [cons_interval_iff, this]

theorem span3_first {x y : TermId} {k : Key3} :
    ((⟨x, TermId.min, TermId.min⟩ : Key3) ≤ k ∧ k ≤ ⟨y, TermId.max, TermId.max⟩) ↔ x ≤ k.a ∧ k.a ≤ y := by
  obtain ⟨a, b, c⟩ := k
  exact span_range_iff TermId.min_le TermId.le_max [] [b, c] x y a 2 rfl

theorem span4_third {g p x y : TermId} {k : Key4} :
    ((⟨g, p, x, TermId.min⟩ : Key4) ≤ k ∧ k ≤ ⟨g, p, y, TermId.max⟩) ↔
      k.a = g ∧ k.b = p ∧ x ≤ k.c ∧ k.c ≤ y := by
  obtain ⟨a, b, c, d⟩ := k
  have := span_range_iff TermId.min_le TermId.le_max [] [d] x y c 1 rfl
  simp only [List.nil_append, List.replicate_one] at this
  rw [Key4.le_iff, Key4.le_iff]
  simp only [Key4.toList]
  rw [cons_interval_iff, cons_interval_iff, this]

theorem span4_second {g x y : TermId} {k : Key4} :
    ((⟨g, x, TermId.min, TermId.min⟩ : Key4) ≤ k ∧ k ≤ ⟨g, y, TermId.max, TermId.max⟩) ↔
      k.a = g ∧ x ≤ k.b ∧ k.b ≤ y := by
  obtain ⟨a, b, c, d⟩ := k
  have := span_range_iff TermId.min_le TermId.le_max [] [c, d] x y b 2 rfl
  rw [Key4.le_iff, Key4.le_iff]
  simp only [Key4.toList]
  rw [cons_interval_iff]
  exact and_congr_right fun _ => this

theorem span4_first {x y : TermId} {k : Key4} :
    ((⟨x, TermId.min, TermId.min, TermId.min⟩ : Key4) ≤ k ∧ k ≤ ⟨y, TermId.max, TermId.max, TermId.max⟩) ↔
      x ≤ k.a ∧ k.a ≤ y := by
  obtain ⟨a, b, c, d⟩ := k
  exact span_range_iff TermId.min_le TermId.le_max [] [b, c, d] x y a 3 rfl

theorem mem_rangeDefault (h : Holds ix Q G) (p : Option TermId) (span : IdRange) (q : EncodedQuad) :
    q ∈ ix.rangeDefault p span ↔
      q ∈ Q ∧ matchesTriple none p none q = true ∧ span.contains q.object = true ∧ q.graphName = none := by
  obtain ⟨qs, qp, qo, qg⟩ := q
  rcases p with _ | p <;> cases qg <;>
    simp [rangeDefault, span3_first, span3_second, exists_key3, ofPos, ofOsp, h.dpos, h.dosp, matchesTriple,
      IdRange.contains_iff] <;>
    grind

theorem mem_rangeNamed (h : Holds ix Q G) (g : TermId) (p : Option TermId) (span : IdRange) (q : EncodedQuad) :
    q ∈ ix.rangeNamed g p span ↔
      q ∈ Q ∧ matchesTriple none p none q = true ∧ span.contains q.object = true ∧ q.graphName = some g := by
  obtain ⟨qs, qp, qo, qg⟩ := q
  rcases p with _ | p <;> cases qg <;>
    simp [rangeNamed, span4_second, span4_third, exists_key4, ofGpos, ofGosp, h.gpos, h.gosp, matchesTriple,
      IdRange.contains_iff] <;>
    grind

theorem mem_rangeAnyNamed (h : Holds ix Q G) (p : Option TermId) (span : IdRange) (q : EncodedQuad) :
    q ∈ ix.rangeAnyNamed p span ↔
      q ∈ Q ∧ matchesTriple none p none q = true ∧ span.contains q.object = true ∧ q.graphName.isSome = true := by
  obtain ⟨qs, qp, qo, qg⟩ := q
  rcases p with _ | p <;> cases qg <;>
    simp [rangeAnyNamed, span4_first, span4_second, exists_key4, ofPosg, ofOspg, h.posg, h.ospg, matchesTriple,
      IdRange.contains_iff] <;>
    grind

theorem rangeDefault_nodup (ix : QuadIndex) (p : Option TermId) (span : IdRange) : (ix.rangeDefault p span).Nodup := by
  rcases p with _ | p
  · exact (range3_keySorted (o := .dosp) fun _ => rfl).nodup
  · exact (range3_keySorted (o := .dpos) fun _ => rfl).nodup

theorem rangeNamed_nodup (ix : QuadIndex) (g : TermId) (p : Option TermId) (span : IdRange) :
    (ix.rangeNamed g p span).Nodup := by
  rcases p with _ | p
  · refine (range4_keySorted (o := .gosp) fun k hk => ?_).nodup
    rw [← (span4_second.1 (SortedSet.mem_range.1 hk).2).1]
    rfl
  · refine (range4_keySorted (o := .gpos) fun k hk => ?_).nodup
    rw [← (span4_third.1 (SortedSet.mem_range.1 hk).2).1]
    rfl

theorem rangeAnyNamed_nodup (ix : QuadIndex) (p : Option TermId) (span : IdRange) :
    (ix.rangeAnyNamed p span).Nodup := by
  rcases p with _ | p
  · exact (range4_keySorted (o := .ospg) fun _ _ => rfl).nodup
  · exact (range4_keySorted (o := .posg) fun _ _ => rfl).nodup

theorem mem_rangeRows (h : Holds ix Q G) (p : Option TermId) (span : IdRange) (graph : GraphFilter) (q : EncodedQuad) :
    q ∈ ix.rangeRows p span graph ↔
      q ∈ Q ∧ matchesTriple none p none q = true ∧ span.contains q.object = true ∧
        GraphFilter.admits graph q = true := by
  cases graph with
  | default => simp [rangeRows, mem_rangeDefault h, GraphFilter.admits]
  | named g => simp [rangeRows, mem_rangeNamed h, GraphFilter.admits]
  | anyNamed => simp [rangeRows, mem_rangeAnyNamed h, GraphFilter.admits]
  | any =>
    rw [rangeRows, List.mem_append, mem_rangeDefault h, mem_rangeAnyNamed h]
    cases hg : q.graphName <;> simp [GraphFilter.admits]

theorem rangeRows_nodup (h : Holds ix Q G) (p : Option TermId) (span : IdRange) (graph : GraphFilter) :
    (ix.rangeRows p span graph).Nodup := by
  cases graph with
  | default => exact rangeDefault_nodup ix p span
  | named g => exact rangeNamed_nodup ix g p span
  | anyNamed => exact rangeAnyNamed_nodup ix p span
  | any =>
    exact nodup_append_of_graph (rangeDefault_nodup ix p span) (rangeAnyNamed_nodup ix p span)
      (fun q hq => ((mem_rangeDefault h p span q).1 hq).2.2.2)
      (fun q hq => ((mem_rangeAnyNamed h p span q).1 hq).2.2.2)

theorem not_contains_of_isEmpty {span : IdRange} (h : span.isEmpty = true) (id : TermId) :
    span.contains id = false := by
  simp only [IdRange.isEmpty, decide_eq_true_eq, gt_iff_lt] at h
  simp only [IdRange.contains, Bool.and_eq_false_iff, decide_eq_false_iff_not, not_le]
  exact (lt_or_ge id span.first).imp_right fun hge => h.trans_le hge

/-- A span scan yields the stored quads that match and whose object the span admits. -/
theorem mem_quadsWithObjectIn (h : Holds ix Q G) (s p : Option TermId) (span : IdRange) (graph : GraphFilter)
    (q : EncodedQuad) :
    q ∈ ix.quadsWithObjectIn s p span graph ↔
      q ∈ Q ∧ matchesTriple s p none q = true ∧ span.contains q.object = true ∧
        GraphFilter.admits graph q = true := by
  by_cases he : span.isEmpty = true
  · simp [quadsWithObjectIn, he, not_contains_of_isEmpty he]
  · cases s with
    | none => simpa [quadsWithObjectIn, he] using mem_rangeRows h p span graph q
    | some s =>
      have hs : matchesTriple (some s) p none q = true ↔ q.subject = s ∧ matchesTriple none p none q = true := by
        simp [matchesTriple, @eq_comm _ s]
      simp only [quadsWithObjectIn, he, Bool.false_eq_true, if_false, List.mem_filter, mem_rangeRows h, hs,
        decide_eq_true_eq]
      tauto

theorem quadsWithObjectIn_nodup (h : Holds ix Q G) (s p : Option TermId) (span : IdRange) (graph : GraphFilter) :
    (ix.quadsWithObjectIn s p span graph).Nodup := by
  unfold quadsWithObjectIn
  split
  · exact .nil
  · cases s with
    | none => exact rangeRows_nodup h p span graph
    | some s => exact (rangeRows_nodup h p span graph).filter _

/-! ## Dropping a graph -/

/-- The quads a drop of `g` leaves. -/
def dropGraph (Q : Finset EncodedQuad) (g : TermId) : Finset EncodedQuad := Q.filter (fun q => q.graphName ≠ some g)

theorem removeNamedGraph_holds (h : Holds ix Q G) (g : TermId) :
    Holds (ix.removeNamedGraph g).2 (dropGraph Q g) (G.erase g) := by
  have hv : Q.filter (· ∉ ix.quadsForPattern none none none (.named g)) = dropGraph Q g := by
    ext q
    simp only [Finset.mem_filter, mem_quadsForPattern h, dropGraph, matchesTriple, GraphFilter.admits]
    simp
    tauto
  have hr := remove_all_holds (ix.quadsForPattern none none none (.named g)) h
  rw [hv] at hr
  refine ⟨hr.dspo, hr.dpos, hr.dosp, hr.spog, hr.posg, hr.ospg, hr.gspo, hr.gpos, hr.gosp, fun g' => ?_, ?_⟩
  · simp [removeNamedGraph, hr.graphs, and_comm]
  · intro q hq g' hg'
    have hne : g' ≠ g := by
      rintro rfl
      exact (Finset.mem_filter.1 hq).2 hg'
    exact Finset.mem_erase.2 ⟨hne, hr.named q hq g' hg'⟩

/-! ## Runs -/

inductive Op where
  | insert (quad : EncodedQuad)
  | remove (quad : EncodedQuad)
  | insertNamedGraph (graph : TermId)
  | removeNamedGraph (graph : TermId)

def apply (ix : QuadIndex) : Op → QuadIndex
  | .insert q => (ix.insert q).2
  | .remove q => (ix.remove q).2
  | .insertNamedGraph g => (ix.insertNamedGraph g).2
  | .removeNamedGraph g => (ix.removeNamedGraph g).2

/-- The index after a run from the empty one. -/
def run (ops : List Op) : QuadIndex := ops.foldl apply QuadIndex.new

/-- One operation on a plain set of quads. -/
def replayQuads (Q : Finset EncodedQuad) : Op → Finset EncodedQuad
  | .insert q => insert q Q
  | .remove q => Q.erase q
  | .insertNamedGraph _ => Q
  | .removeNamedGraph g => dropGraph Q g

/-- One operation on the graphs recorded and not dropped since. -/
def replayGraphs (G : Finset TermId) : Op → Finset TermId
  | .insert q => record G q.graphName
  | .remove _ => G
  | .insertNamedGraph g => insert g G
  | .removeNamedGraph g => G.erase g

theorem apply_holds (h : Holds ix Q G) (op : Op) : Holds (apply ix op) (replayQuads Q op) (replayGraphs G op) := by
  cases op with
  | insert q => exact insert_holds h q
  | remove q => exact remove_holds h q
  | insertNamedGraph g => exact insertNamedGraph_holds h g
  | removeNamedGraph g => exact removeNamedGraph_holds h g

theorem foldl_holds (ops : List Op) (h : Holds ix Q G) :
    Holds (ops.foldl apply ix) (ops.foldl replayQuads Q) (ops.foldl replayGraphs G) := by
  induction ops generalizing ix Q G with
  | nil => exact h
  | cons op ops ih => exact ih (apply_holds h op)

/-- After any run from the empty index: the nine orders are the permutations of the
replayed set, the graph names are the replayed ones and cover every stored quad, each
pattern shape yields each matching quad once and in key order, and a span scan each
matching quad inside the span once. -/
theorem run_holds (ops : List Op) :
    let ix := run ops
    let Q := ops.foldl replayQuads ∅
    Holds ix Q (ops.foldl replayGraphs ∅) ∧
    (∀ s p o graph, (ix.quadsForPattern s p o graph).Nodup ∧
      (∀ q, q ∈ ix.quadsForPattern s p o graph ↔
        q ∈ Q ∧ matchesTriple s p o q = true ∧ GraphFilter.admits graph q = true) ∧
      ScanOrder s p o graph (ix.quadsForPattern s p o graph)) ∧
    (∀ s p span graph, (ix.quadsWithObjectIn s p span graph).Nodup ∧
      ∀ q, q ∈ ix.quadsWithObjectIn s p span graph ↔
        q ∈ Q ∧ matchesTriple s p none q = true ∧ span.contains q.object = true ∧
          GraphFilter.admits graph q = true) := by
  intro ix Q
  have h : Holds ix Q (ops.foldl replayGraphs ∅) := foldl_holds ops holds_new
  refine ⟨h, fun s p o graph => ⟨?_, ?_, ?_⟩, fun s p span graph => ⟨?_, ?_⟩⟩
  · exact quadsForPattern_nodup h s p o graph
  · exact mem_quadsForPattern h s p o graph
  · exact quadsForPattern_order ix s p o graph
  · exact quadsWithObjectIn_nodup h s p span graph
  · exact mem_quadsWithObjectIn h s p span graph

end Holos.Index
