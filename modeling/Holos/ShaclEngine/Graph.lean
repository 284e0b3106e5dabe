import Holos.Core
import Holos.Lib.MergeSort
import Holos.Lib.Slice
import Holos.Lib.SortedSet
import Mathlib.Data.Finset.Basic
/-!
# The adapted engine's graph

Triples in three sorted permutations, so that every lookup is a block of one of them, found by two
searches. A delta is applied row by row, or by building the graph again where it is large.
-/

namespace Holos.ShaclEngine

open Lib

/-- An interned term. -/
abbrev TermId := Fin (2 ^ 32)

instance instLawfulBEqTermId : LawfulBEq TermId := inferInstance

/-- Three terms, in the order an index implies. -/
@[ext] structure Row where
  fst : TermId
  snd : TermId
  thd : TermId
deriving DecidableEq, Repr

namespace Row

/-- Rows are ordered by their first component, then the second, then the third. -/
def key (r : Row) : TermId ×ₗ TermId ×ₗ TermId := toLex (r.fst, toLex (r.snd, r.thd))

theorem key_injective : Function.Injective key := by
  rintro ⟨a, b, c⟩ ⟨a', b', c'⟩ h
  simpa [key] using h

instance instLinearOrder : LinearOrder Row := LinearOrder.lift' key key_injective

theorem lt_iff {r r' : Row} : r < r' ↔ r.fst < r'.fst ∨ r.fst = r'.fst ∧ (r.snd < r'.snd ∨ r.snd = r'.snd ∧ r.thd < r'.thd) := by
  change key r < key r' ↔ _
  simp only [key, Prod.Lex.toLex_lt_toLex]

/-- `[s, p, o]` as `[p, o, s]`, and as `[o, s, p]`. -/
def toPos (r : Row) : Row := ⟨r.snd, r.thd, r.fst⟩
def toOsp (r : Row) : Row := ⟨r.thd, r.fst, r.snd⟩

theorem toPos_injective : Function.Injective toPos := by
  rintro ⟨a, b, c⟩ ⟨a', b', c'⟩ h
  cases h
  rfl

theorem toOsp_injective : Function.Injective toOsp := by
  rintro ⟨a, b, c⟩ ⟨a', b', c'⟩ h
  cases h
  rfl

end Row

/-- The rows whose first component is `a`. -/
def prefix1 (rows : List Row) (a : TermId) : List Row := slice (fun r => r.fst < a) (fun r => r.fst = a) rows

/-- The rows whose first two components are `a` and `b`. -/
def prefix2 (rows : List Row) (a b : TermId) : List Row :=
  slice (fun r => toLex (r.fst, r.snd) < toLex (a, b)) (fun r => toLex (r.fst, r.snd) = toLex (a, b)) rows

theorem prefix1_eq {rows : List Row} (h : rows.Pairwise (· < ·)) (a : TermId) : prefix1 rows a = rows.filter (fun r => r.fst = a) := by
  refine slice_eq_filter (h.imp (S := fun x y => x.fst ≤ y.fst) ?_) ?_ ?_ ?_
  · intro x y hxy
    rcases Row.lt_iff.1 hxy with h | ⟨h, -⟩
    · exact h.le
    · exact h.le
  · intro x y hxy hy
    simp only [decide_eq_true_eq] at *
    exact hxy.trans_lt hy
  · intro x y hxy hx hy
    simp only [decide_eq_true_eq, decide_eq_false_iff_not, not_lt] at *
    exact le_antisymm (hxy.trans_eq hy) hx
  · intro x hx
    simp only [decide_eq_true_eq, decide_eq_false_iff_not, not_lt] at *
    exact hx.ge

theorem prefix2_eq {rows : List Row} (h : rows.Pairwise (· < ·)) (a b : TermId) :
    prefix2 rows a b = rows.filter (fun r => r.fst = a ∧ r.snd = b) := by
  have hfilter : rows.filter (fun r => r.fst = a ∧ r.snd = b) = rows.filter (fun r => toLex (r.fst, r.snd) = toLex (a, b)) := by
    refine List.filter_congr fun r _ => ?_
    simp
  rw [hfilter]
  refine slice_eq_filter (h.imp (S := fun x y => toLex (x.fst, x.snd) ≤ toLex (y.fst, y.snd)) ?_) ?_ ?_ ?_
  · intro x y hxy
    rw [Prod.Lex.toLex_le_toLex]
    rcases Row.lt_iff.1 hxy with h | ⟨h, h' | ⟨h', -⟩⟩
    · exact .inl h
    · exact .inr ⟨h, h'.le⟩
    · exact .inr ⟨h, h'.le⟩
  · intro x y hxy hy
    simp only [decide_eq_true_eq] at *
    exact hxy.trans_lt hy
  · intro x y hxy hx hy
    simp only [decide_eq_true_eq, decide_eq_false_iff_not, not_lt] at *
    exact le_antisymm (hxy.trans_eq hy) hx
  · intro x hx
    simp only [decide_eq_true_eq, decide_eq_false_iff_not, not_lt] at *
    exact hx.ge

/-! ## The graph -/

/-- Three orders of one set of triples. -/
structure Graph where
  /-- Sorted by subject, predicate, object. -/
  spo : SortedSet Row
  /-- Sorted by predicate, object, subject. -/
  pos : SortedSet Row
  /-- Sorted by object, subject, predicate. -/
  osp : SortedSet Row
  mem_pos : ∀ r, r.toPos ∈ pos ↔ r ∈ spo
  mem_osp : ∀ r, r.toOsp ∈ osp ↔ r ∈ spo

/-- `sort_unstable`, of rows no two of which are equal. -/
def sorted (rows : List Row) (h : rows.Nodup) : SortedSet Row where
  toList := rows.mergeSort (fun a b => decide (a ≤ b))
  sorted := by
    have hle := mergeSort_sorted id rows
    have hne : (rows.mergeSort (fun a b => decide (a ≤ b))).Nodup := (List.mergeSort_perm rows _).nodup_iff.2 h
    exact (hle.and hne).imp (fun {a b} hab => lt_of_le_of_ne hab.1 hab.2)

@[simp] theorem mem_sorted {rows : List Row} {h : rows.Nodup} {r : Row} : r ∈ sorted rows h ↔ r ∈ rows :=
  (List.mergeSort_perm rows _).mem_iff

namespace Graph

/-- `sort_unstable` and `dedup`. -/
def normal (rows : List Row) : SortedSet Row := ⟨sortDedup id rows, by simpa using sortDedup_sorted id rows⟩

@[simp] theorem mem_normal {rows : List Row} {r : Row} : r ∈ normal rows ↔ r ∈ rows := mem_sortDedup Function.injective_id

/-- `GraphBuilder::build`. -/
def build (rows : List Row) : Graph where
  spo := normal rows
  pos := sorted ((normal rows).toList.map Row.toPos) ((normal rows).nodup.map Row.toPos_injective)
  osp := sorted ((normal rows).toList.map Row.toOsp) ((normal rows).nodup.map Row.toOsp_injective)
  mem_pos _ := mem_sorted.trans (List.mem_map_of_injective Row.toPos_injective)
  mem_osp _ := mem_sorted.trans (List.mem_map_of_injective Row.toOsp_injective)

/-- `Graph::default`. -/
def empty : Graph :=
  ⟨.empty, .empty, .empty, fun _ => iff_of_false (SortedSet.not_mem_empty _) (SortedSet.not_mem_empty _),
    fun _ => iff_of_false (SortedSet.not_mem_empty _) (SortedSet.not_mem_empty _)⟩

variable (g : Graph)

def len : Nat := g.spo.toList.length

/-- Objects of `(s, p, ?)`. -/
def objects (s p : TermId) : List TermId := (prefix2 g.spo.toList s p).map Row.thd

/-- The first object of `(s, p, ?)`. -/
def object (s p : TermId) : Option TermId := (prefix2 g.spo.toList s p).head?.map Row.thd

/-- Subjects of `(?, p, o)`. -/
def subjects (p o : TermId) : List TermId := (prefix2 g.pos.toList p o).map Row.thd

/-- Every subject appearing with predicate `p`, with duplicates. -/
def subjectsOf (p : TermId) : List TermId := (prefix1 g.pos.toList p).map Row.thd

/-- Every object appearing with predicate `p`. -/
def objectsOf (p : TermId) : List TermId := (prefix1 g.pos.toList p).map Row.snd

def predicateObjects (s : TermId) : List (TermId × TermId) := (prefix1 g.spo.toList s).map (fun r => (r.snd, r.thd))

def subjectPredicates (o : TermId) : List (TermId × TermId) := (prefix1 g.osp.toList o).map (fun r => (r.snd, r.thd))

def contains (s p o : TermId) : Bool := ⟨s, p, o⟩ ∈ g.spo

def hasSubject (s : TermId) : Bool := !(prefix1 g.spo.toList s).isEmpty

/-- Every triple, in order. -/
def iter : List Row := g.spo.toList

/-- Adds one triple, and says whether some index did not have it. -/
def insert (r : Row) : Bool × Graph :=
  (decide (r ∉ g.spo) || decide (r.toPos ∉ g.pos) || decide (r.toOsp ∉ g.osp),
    { spo := g.spo.insert r
      pos := g.pos.insert r.toPos
      osp := g.osp.insert r.toOsp
      mem_pos := fun r' => by simp [g.mem_pos, Row.toPos_injective.eq_iff]
      mem_osp := fun r' => by simp [g.mem_osp, Row.toOsp_injective.eq_iff] })

/-- Removes one triple, and says whether some index had it. -/
def remove (r : Row) : Bool × Graph :=
  (decide (r ∈ g.spo) || decide (r.toPos ∈ g.pos) || decide (r.toOsp ∈ g.osp),
    { spo := g.spo.remove r
      pos := g.pos.remove r.toPos
      osp := g.osp.remove r.toOsp
      mem_pos := fun r' => by simp [g.mem_pos, Row.toPos_injective.eq_iff]
      mem_osp := fun r' => by simp [g.mem_osp, Row.toOsp_injective.eq_iff] })

/-- Above this many rows of a delta, the graph is built again. -/
def rebuildAbove : Nat := 64

/-- Applies a batch, its removals first. -/
def apply (added removed : List Row) : Graph :=
  if added.length + removed.length > max rebuildAbove (g.len / 16) then
    build (g.spo.toList.filter (· ∉ removed) ++ added)
  else
    added.foldl (fun g r => (g.insert r).2) (removed.foldl (fun g r => (g.remove r).2) g)

/-- The triples of a graph. -/
def triples : Finset Row := g.spo.toList.toFinset

end Graph

end Holos.ShaclEngine
