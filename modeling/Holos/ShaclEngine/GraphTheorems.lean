import Holos.ShaclEngine.Graph
import Mathlib.Data.Finset.Card
import Mathlib.Order.Bounds.Basic
/-!
# What the engine's graph answers

A graph answers every lookup from one set of triples, whichever of the three orders the lookup
reads. Inserts, removals and deltas of any size act on that set.
-/

namespace Holos.ShaclEngine

open Lib

/-- The graph answers as the set `S` does. -/
structure Answers (g : Graph) (S : Finset Row) : Prop where
  len : g.len = S.card
  sorted : g.iter.Pairwise (· < ·)
  iter : ∀ r, r ∈ g.iter ↔ r ∈ S
  contains : ∀ s p o, g.contains s p o = decide (⟨s, p, o⟩ ∈ S)
  hasSubject : ∀ s, g.hasSubject s = true ↔ ∃ p o, ⟨s, p, o⟩ ∈ S
  object : ∀ s p o, g.object s p = some o ↔ IsLeast {o | ⟨s, p, o⟩ ∈ S} o
  objects_sorted : ∀ s p, (g.objects s p).Pairwise (· < ·)
  objects : ∀ s p o, o ∈ g.objects s p ↔ ⟨s, p, o⟩ ∈ S
  subjects_sorted : ∀ p o, (g.subjects p o).Pairwise (· < ·)
  subjects : ∀ p o s, s ∈ g.subjects p o ↔ ⟨s, p, o⟩ ∈ S
  subjectsOf : ∀ p, (g.subjectsOf p : Multiset TermId) = (S.filter (·.snd = p)).val.map Row.fst
  objectsOf : ∀ p, (g.objectsOf p : Multiset TermId) = (S.filter (·.snd = p)).val.map Row.thd
  predicateObjects : ∀ s, (g.predicateObjects s : Multiset (TermId × TermId)) =
    (S.filter (·.fst = s)).val.map (fun r => (r.snd, r.thd))
  subjectPredicates : ∀ o, (g.subjectPredicates o : Multiset (TermId × TermId)) =
    (S.filter (·.thd = o)).val.map (fun r => (r.fst, r.snd))

/-! ## Blocks -/

/-- The block of two components, by its third. -/
theorem block2_sorted {s : SortedSet Row} (a b : TermId) : ((prefix2 s.toList a b).map Row.thd).Pairwise (· < ·) := by
  rw [prefix2_eq s.sorted, List.pairwise_map]
  refine (s.sorted.filter _).imp_of_mem (fun {x y} hx hy hxy => ?_)
  have hx := (List.mem_filter.1 hx).2
  have hy := (List.mem_filter.1 hy).2
  simp only [decide_eq_true_eq] at hx hy
  rcases Row.lt_iff.1 hxy with h | ⟨-, h | ⟨-, h⟩⟩
  · exact absurd h (by rw [hx.1, hy.1]; exact lt_irrefl a)
  · exact absurd h (by rw [hx.2, hy.2]; exact lt_irrefl b)
  · exact h

theorem mem_block2 {s : SortedSet Row} {a b c : TermId} : c ∈ (prefix2 s.toList a b).map Row.thd ↔ ⟨a, b, c⟩ ∈ s := by
  rw [prefix2_eq s.sorted, List.mem_map, SortedSet.mem_def]
  constructor
  · rintro ⟨⟨x, y, z⟩, hr, rfl⟩
    obtain ⟨hmem, hxy⟩ := List.mem_filter.1 hr
    simp only [decide_eq_true_eq] at hxy
    obtain ⟨rfl, rfl⟩ := hxy
    exact hmem
  · exact fun h => ⟨_, List.mem_filter.2 ⟨h, by simp⟩, rfl⟩

/-- Where an ordered list starts. -/
theorem head_isLeast {l : List TermId} (h : l.Pairwise (· < ·)) (a : TermId) : l.head? = some a ↔ IsLeast {x | x ∈ l} a := by
  cases l with
  | nil => simp [IsLeast]
  | cons b l =>
    have hleast : IsLeast {x | x ∈ b :: l} b := by
      refine ⟨List.mem_cons_self, fun x hx => ?_⟩
      rcases List.mem_cons.1 hx with rfl | hx
      · exact le_rfl
      · exact ((List.pairwise_cons.1 h).1 x hx).le
    rw [List.head?_cons, Option.some.injEq]
    constructor
    · rintro rfl
      exact hleast
    · exact hleast.unique

namespace Graph

variable (g : Graph)

theorem mem_triples {r : Row} : r ∈ g.triples ↔ r ∈ g.spo := List.mem_toFinset

theorem triples_val : g.triples.val = (g.spo.toList : Multiset Row) := by
  rw [triples, List.toFinset_val, g.spo.nodup.dedup]

/-- The permutation `pos` has the triples of `spo`. -/
theorem pos_perm : g.pos.toList.Perm (g.spo.toList.map Row.toPos) := by
  refine (List.perm_ext_iff_of_nodup g.pos.nodup (g.spo.nodup.map Row.toPos_injective)).2 fun r => ?_
  obtain ⟨p, o, s⟩ := r
  exact (g.mem_pos ⟨s, p, o⟩).trans (List.mem_map_of_injective Row.toPos_injective (a := ⟨s, p, o⟩)).symm

theorem osp_perm : g.osp.toList.Perm (g.spo.toList.map Row.toOsp) := by
  refine (List.perm_ext_iff_of_nodup g.osp.nodup (g.spo.nodup.map Row.toOsp_injective)).2 fun r => ?_
  obtain ⟨o, s, p⟩ := r
  exact (g.mem_osp ⟨s, p, o⟩).trans (List.mem_map_of_injective Row.toOsp_injective (a := ⟨s, p, o⟩)).symm

/-- A block of one component, of an index that has the triples in some order. -/
theorem block1 {α : Type} {s : SortedSet Row} {turn : Row → Row} (hs : s.toList.Perm (g.spo.toList.map turn)) (a : TermId)
    (f : Row → α) : ((prefix1 s.toList a).map f : Multiset α) =
      (g.triples.filter (fun r => (turn r).fst = a)).val.map (fun r => f (turn r)) := by
  rw [prefix1_eq s.sorted, Finset.filter_val, triples_val, Multiset.filter_coe, Multiset.map_coe, Multiset.coe_eq_coe]
  refine ((hs.filter _).map f).trans (List.Perm.of_eq ?_)
  rw [List.filter_map, List.map_map]
  rfl

/-- A graph answers from its triples. -/
theorem answers : Answers g g.triples where
  len := (List.toFinset_card_of_nodup g.spo.nodup).symm
  sorted := g.spo.sorted
  iter _ := g.mem_triples.symm
  contains s p o := decide_eq_decide.2 g.mem_triples.symm
  hasSubject s := by
    rw [hasSubject, prefix1_eq g.spo.sorted, Bool.not_eq_true', List.isEmpty_eq_false_iff_exists_mem]
    constructor
    · rintro ⟨⟨s', p, o⟩, hr⟩
      obtain ⟨hmem, hs⟩ := List.mem_filter.1 hr
      obtain rfl : s' = s := by simpa using hs
      exact ⟨p, o, g.mem_triples.2 hmem⟩
    · rintro ⟨p, o, h⟩
      exact ⟨_, List.mem_filter.2 ⟨g.mem_triples.1 h, by simp⟩⟩
  object s p o := by
    rw [object, ← List.head?_map, head_isLeast (block2_sorted s p)]
    simp only [mem_block2, mem_triples]
  objects_sorted s p := block2_sorted s p
  objects s p o := mem_block2.trans g.mem_triples.symm
  subjects_sorted p o := block2_sorted p o
  subjects p o s := mem_block2.trans ((g.mem_pos ⟨s, p, o⟩).trans g.mem_triples.symm)
  subjectsOf p := g.block1 g.pos_perm p Row.thd
  objectsOf p := g.block1 g.pos_perm p Row.snd
  predicateObjects s := @block1 g _ g.spo id (by rw [List.map_id]) s _
  subjectPredicates o := g.block1 g.osp_perm o _

variable {g} in
/-- Graphs of the same triples are the same. -/
theorem eq_of_triples {g' : Graph} (h : g.triples = g'.triples) : g = g' := by
  have hspo : ∀ r, r ∈ g.spo ↔ r ∈ g'.spo := fun r => by rw [← mem_triples, h, mem_triples]
  have hpos : g.pos = g'.pos := SortedSet.ext fun r => by
    obtain ⟨p, o, s⟩ := r
    exact (g.mem_pos ⟨s, p, o⟩).trans ((hspo _).trans (g'.mem_pos ⟨s, p, o⟩).symm)
  have hosp : g.osp = g'.osp := SortedSet.ext fun r => by
    obtain ⟨o, s, p⟩ := r
    exact (g.mem_osp ⟨s, p, o⟩).trans ((hspo _).trans (g'.mem_osp ⟨s, p, o⟩).symm)
  have hspo := SortedSet.ext hspo
  cases g
  cases g'
  cases hspo
  cases hpos
  cases hosp
  rfl

/-! ## What is done to a graph -/

@[simp] theorem triples_build (rows : List Row) : (build rows).triples = rows.toFinset := by
  ext r
  rw [mem_triples, List.mem_toFinset]
  exact mem_normal

@[simp] theorem triples_insert (r : Row) : (g.insert r).2.triples = Insert.insert r g.triples := by
  ext r'
  rw [mem_triples, Finset.mem_insert, mem_triples]
  exact SortedSet.mem_insert

@[simp] theorem triples_remove (r : Row) : (g.remove r).2.triples = g.triples.erase r := by
  ext r'
  rw [mem_triples, Finset.mem_erase, mem_triples, and_comm]
  exact SortedSet.mem_remove

/-- No index has what another has not. -/
theorem insert_added (r : Row) : (g.insert r).1 = decide (r ∉ g.triples) := by
  simp only [insert, g.mem_pos, g.mem_osp, Bool.or_self, g.mem_triples]

theorem remove_removed (r : Row) : (g.remove r).1 = decide (r ∈ g.triples) := by
  simp only [remove, g.mem_pos, g.mem_osp, Bool.or_self, g.mem_triples]

theorem triples_insertAll (rows : List Row) : (rows.foldl (fun g r => (g.insert r).2) g).triples = g.triples ∪ rows.toFinset := by
  induction rows generalizing g with
  | nil => simp
  | cons r rows ih =>
    rw [List.foldl_cons, ih, triples_insert, List.toFinset_cons, Finset.insert_union, Finset.union_insert]

theorem triples_removeAll (rows : List Row) : (rows.foldl (fun g r => (g.remove r).2) g).triples = g.triples \ rows.toFinset := by
  induction rows generalizing g with
  | nil => simp
  | cons r rows ih =>
    rw [List.foldl_cons, ih, triples_remove, List.toFinset_cons, Finset.erase_sdiff_comm, Finset.sdiff_insert]

/-- Either way of applying a delta takes its removals away first. -/
@[simp] theorem triples_apply (added removed : List Row) :
    (g.apply added removed).triples = (g.triples \ removed.toFinset) ∪ added.toFinset := by
  unfold apply
  split
  · ext r
    simp [mem_triples, SortedSet.mem_def]
  · rw [triples_insertAll, triples_removeAll]

end Graph

/-! ## Runs -/

inductive Op where
  | insert (r : Row)
  | remove (r : Row)
  | apply (added removed : List Row)

/-- What an operation answers, and the graph it leaves. -/
def Graph.step (g : Graph) : Op → Option Bool × Graph
  | .insert r => (some (g.insert r).1, (g.insert r).2)
  | .remove r => (some (g.remove r).1, (g.remove r).2)
  | .apply added removed => (none, g.apply added removed)

/-- The same on a set of triples. -/
def Op.on (S : Finset Row) : Op → Option Bool × Finset Row
  | .insert r => (some (decide (r ∉ S)), Insert.insert r S)
  | .remove r => (some (decide (r ∈ S)), S.erase r)
  | .apply added removed => (none, (S \ removed.toFinset) ∪ added.toFinset)

/-- The answers of a run, and what it ends with. -/
def runOps {σ : Type} (step : σ → Op → Option Bool × σ) : σ → List Op → List (Option Bool) × σ
  | s, [] => ([], s)
  | s, op :: ops => ((step s op).1 :: (runOps step (step s op).2 ops).1, (runOps step (step s op).2 ops).2)

theorem Graph.step_on (g : Graph) (op : Op) : (g.step op).1 = (op.on g.triples).1 ∧ (g.step op).2.triples = (op.on g.triples).2 := by
  cases op with
  | insert r => exact ⟨congrArg some (g.insert_added r), g.triples_insert r⟩
  | remove r => exact ⟨congrArg some (g.remove_removed r), g.triples_remove r⟩
  | apply added removed => exact ⟨rfl, g.triples_apply added removed⟩

theorem Graph.runOps_on (g : Graph) (ops : List Op) : (runOps Graph.step g ops).1 = (runOps Op.on g.triples ops).1 ∧
    (runOps Graph.step g ops).2.triples = (runOps Op.on g.triples ops).2 := by
  induction ops generalizing g with
  | nil => exact ⟨rfl, rfl⟩
  | cons op ops ih =>
    obtain ⟨hreply, hstep⟩ := g.step_on op
    obtain ⟨hreplies, hrun⟩ := ih (g.step op).2
    rw [hstep] at hreplies hrun
    exact ⟨congrArg₂ List.cons hreply hreplies, hrun⟩

/-- Built from any rows and after any operations, a graph answers every lookup as the set of triples does that the same
operations leave, and each operation answered what it does there. -/
theorem graph_runs (rows : List Row) (ops : List Op) :
    (runOps Graph.step (Graph.build rows) ops).1 = (runOps Op.on rows.toFinset ops).1 ∧
      Answers (runOps Graph.step (Graph.build rows) ops).2 (runOps Op.on rows.toFinset ops).2 := by
  obtain ⟨hreplies, hrun⟩ := (Graph.build rows).runOps_on ops
  rw [Graph.triples_build] at hreplies hrun
  refine ⟨hreplies, ?_⟩
  rw [← hrun]
  exact Graph.answers _

end Holos.ShaclEngine
