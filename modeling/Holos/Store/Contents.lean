import Holos.Lib.Counter
import Holos.Store.IndexTheorems
/-!
# What a store holds

The quads a store holds and the named graphs that exist, whatever backend keeps them. A
stored quad's graph exists, so contents that break this cannot be built. Both backends are
related to contents by the same two facts: their nine orders hold the quads and the graphs,
and their statistics count the quads by predicate.
-/

namespace Holos

open Lib

@[ext]
structure Contents where
  quads : Finset EncodedQuad
  graphs : Finset TermId
  named : ∀ q ∈ quads, ∀ g, q.graphName = some g → g ∈ graphs
deriving DecidableEq

namespace Contents

def empty : Contents := ⟨∅, ∅, by simp⟩

/-- A quad comes with its graph. -/
def insert (c : Contents) (q : EncodedQuad) : Contents where
  quads := Insert.insert q c.quads
  graphs := Index.record c.graphs q.graphName
  named := by
    intro r hr g hg
    rcases Finset.mem_insert.1 hr with rfl | hr
    · simp [hg, Index.record]
    · have := c.named r hr g hg
      cases q.graphName with
      | none => exact this
      | some g' => exact Finset.mem_insert_of_mem this

def remove (c : Contents) (q : EncodedQuad) : Contents where
  quads := c.quads.erase q
  graphs := c.graphs
  named r hr g hg := c.named r (Finset.mem_of_mem_erase hr) g hg

def insertNamedGraph (c : Contents) (g : TermId) : Contents where
  quads := c.quads
  graphs := Insert.insert g c.graphs
  named r hr g' hg := Finset.mem_insert_of_mem (c.named r hr g' hg)

def removeNamedGraph (c : Contents) (g : TermId) : Contents where
  quads := Index.dropGraph c.quads g
  graphs := c.graphs.erase g
  named := by
    intro r hr g' hg
    obtain ⟨hr, hne⟩ := Finset.mem_filter.1 hr
    exact Finset.mem_erase.2 ⟨fun h => hne (h ▸ hg), c.named r hr g' hg⟩

/-- How many quads have a predicate. -/
def count (c : Contents) (p : TermId) : Nat := (c.quads.filter (fun q => q.predicate = p)).card

variable {c : Contents} {q : EncodedQuad} {g : TermId}

/-! ## Writes with nothing to do, and writes undone -/

theorem record_eq (hq : q ∈ c.quads) : Index.record c.graphs q.graphName = c.graphs := by
  cases hg : q.graphName with
  | none => rfl
  | some g => exact Finset.insert_eq_of_mem (c.named q hq g hg)

theorem insert_of_mem (hq : q ∈ c.quads) : c.insert q = c :=
  Contents.ext (Finset.insert_eq_of_mem hq) (record_eq hq)

theorem remove_of_not_mem (hq : q ∉ c.quads) : c.remove q = c :=
  Contents.ext (Finset.erase_eq_of_notMem hq) rfl

theorem insertNamedGraph_of_mem (hg : g ∈ c.graphs) : c.insertNamedGraph g = c :=
  Contents.ext rfl (Finset.insert_eq_of_mem hg)

/-- Without the graph there is nothing in it. -/
theorem dropGraph_of_not_mem (hg : g ∉ c.graphs) : Index.dropGraph c.quads g = c.quads :=
  Finset.filter_true_of_mem (fun q hq h => hg (c.named q hq g h))

theorem removeNamedGraph_of_not_mem (hg : g ∉ c.graphs) : c.removeNamedGraph g = c :=
  Contents.ext (dropGraph_of_not_mem hg) (Finset.erase_eq_of_notMem hg)

theorem insert_remove (hq : q ∈ c.quads) : (c.remove q).insert q = c :=
  Contents.ext (Finset.insert_erase hq) (record_eq (c := c) hq)

theorem removeNamedGraph_insertNamedGraph (hg : g ∉ c.graphs) : (c.insertNamedGraph g).removeNamedGraph g = c :=
  Contents.ext (dropGraph_of_not_mem (c := c) hg) (Finset.erase_insert hg)

/-- A quad whose graph was there comes out with nothing else. -/
theorem remove_insert (hq : q ∉ c.quads) (hg : ∀ g, q.graphName = some g → g ∈ c.graphs) : (c.insert q).remove q = c := by
  refine Contents.ext (Finset.erase_insert hq) ?_
  cases h : q.graphName with
  | none => simp [Contents.remove, Contents.insert, h, Index.record]
  | some g =>
    simp only [Contents.remove, Contents.insert, h, Index.record]
    exact Finset.insert_eq_of_mem (hg g h)

/-- A quad that brought its graph leaves it, and the graph is dropped after it. -/
theorem removeNamedGraph_remove_insert (hg : q.graphName = some g) (hnew : g ∉ c.graphs) :
    ((c.insert q).remove q).removeNamedGraph g = c := by
  have hq : q ∉ c.quads := fun h => hnew (c.named q h g hg)
  have heq : (c.insert q).remove q = c.insertNamedGraph g := by
    refine Contents.ext (Finset.erase_insert hq) ?_
    simp [Contents.remove, Contents.insert, Contents.insertNamedGraph, hg, Index.record]
  rw [heq]
  exact removeNamedGraph_insertNamedGraph hnew

/-! ## Counts -/

theorem count_insert (hq : q ∉ c.quads) (p : TermId) :
    (c.insert q).count p = c.count p + if p = q.predicate then 1 else 0 := by
  unfold count
  simp only [Contents.insert, Finset.filter_insert]
  by_cases h : q.predicate = p
  · rw [if_pos h, if_pos h.symm, Finset.card_insert_of_notMem (fun hm => hq (Finset.mem_filter.1 hm).1)]
  · rw [if_neg h, if_neg (Ne.symm h), Nat.add_zero]

theorem count_remove (hq : q ∈ c.quads) (p : TermId) :
    (c.remove q).count p = c.count p - if p = q.predicate then 1 else 0 := by
  unfold count
  simp only [Contents.remove, Finset.filter_erase]
  by_cases h : q.predicate = p
  · rw [if_pos h.symm, Finset.card_erase_of_mem (Finset.mem_filter.2 ⟨hq, h⟩)]
  · have hout : q ∉ c.quads.filter (fun q => q.predicate = p) := fun hm => h (Finset.mem_filter.1 hm).2
    rw [if_neg (Ne.symm h), Finset.erase_eq_of_notMem hout, Nat.sub_zero]

/-- Quads removed one after another, from contents that have them all. -/
def removeAll (c : Contents) (l : List EncodedQuad) : Contents := l.foldl remove c

theorem removeAll_graphs (l : List EncodedQuad) : (c.removeAll l).graphs = c.graphs := by
  unfold removeAll
  induction l generalizing c with
  | nil => rfl
  | cons q l ih => exact ih

theorem mem_removeAll {l : List EncodedQuad} {r : EncodedQuad} : r ∈ (c.removeAll l).quads ↔ r ∈ c.quads ∧ r ∉ l := by
  unfold removeAll
  induction l generalizing c with
  | nil => simp
  | cons q l ih =>
    rw [List.foldl_cons, ih]
    simp only [remove, Finset.mem_erase, List.mem_cons]
    tauto

/-- Dropping a graph is removing its quads and then the graph. -/
theorem removeNamedGraph_eq {l : List EncodedQuad} (hl : ∀ r, r ∈ l ↔ r ∈ c.quads ∧ r.graphName = some g) :
    c.removeNamedGraph g = (c.removeAll l).removeNamedGraph g := by
  refine Contents.ext ?_ ?_
  · ext r
    simp only [removeNamedGraph, Index.dropGraph, Finset.mem_filter, mem_removeAll, hl]
    tauto
  · simp only [removeNamedGraph, removeAll_graphs]

/-! ## Operations -/

/-- One write. -/
def apply (c : Contents) : Index.Op → Contents
  | .insert q => c.insert q
  | .remove q => c.remove q
  | .insertNamedGraph g => c.insertNamedGraph g
  | .removeNamedGraph g => c.removeNamedGraph g

/-- Whether a write has anything to do, which is what it answers. -/
def changes (c : Contents) : Index.Op → Bool
  | .insert q => q ∉ c.quads
  | .remove q => q ∈ c.quads
  | .insertNamedGraph g => g ∉ c.graphs
  | .removeNamedGraph g => g ∈ c.graphs

theorem apply_of_not_changes {op : Index.Op} (h : c.changes op = false) : c.apply op = c := by
  cases op with
  | insert q => exact insert_of_mem (by simpa [changes] using h)
  | remove q => exact remove_of_not_mem (by simpa [changes] using h)
  | insertNamedGraph g => exact insertNamedGraph_of_mem (by simpa [changes] using h)
  | removeNamedGraph g => exact removeNamedGraph_of_not_mem (by simpa [changes] using h)

end Contents

/-! ## Indexes and counters of given contents -/

theorem Index.Holds.unique {ix ix' : QuadIndex} {Q : Finset EncodedQuad} {G : Finset TermId} (h : Index.Holds ix Q G)
    (h' : Index.Holds ix' Q G) : ix = ix' := by
  have h₁ : ix.dspo = ix'.dspo := SortedSet.ext (fun ⟨s, p, o⟩ => (h.dspo s p o).trans (h'.dspo s p o).symm)
  have h₂ : ix.dpos = ix'.dpos := SortedSet.ext (fun ⟨p, o, s⟩ => (h.dpos s p o).trans (h'.dpos s p o).symm)
  have h₃ : ix.dosp = ix'.dosp := SortedSet.ext (fun ⟨o, s, p⟩ => (h.dosp s p o).trans (h'.dosp s p o).symm)
  have h₄ : ix.spog = ix'.spog := SortedSet.ext (fun ⟨s, p, o, g⟩ => (h.spog s p o g).trans (h'.spog s p o g).symm)
  have h₅ : ix.posg = ix'.posg := SortedSet.ext (fun ⟨p, o, s, g⟩ => (h.posg s p o g).trans (h'.posg s p o g).symm)
  have h₆ : ix.ospg = ix'.ospg := SortedSet.ext (fun ⟨o, s, p, g⟩ => (h.ospg s p o g).trans (h'.ospg s p o g).symm)
  have h₇ : ix.gspo = ix'.gspo := SortedSet.ext (fun ⟨g, s, p, o⟩ => (h.gspo s p o g).trans (h'.gspo s p o g).symm)
  have h₈ : ix.gpos = ix'.gpos := SortedSet.ext (fun ⟨g, p, o, s⟩ => (h.gpos s p o g).trans (h'.gpos s p o g).symm)
  have h₉ : ix.gosp = ix'.gosp := SortedSet.ext (fun ⟨g, o, s, p⟩ => (h.gosp s p o g).trans (h'.gosp s p o g).symm)
  have hg : ix.graphs = ix'.graphs := SortedSet.ext (fun g => (h.graphs g).trans (h'.graphs g).symm)
  cases ix
  cases ix'
  simp only at h₁ h₂ h₃ h₄ h₅ h₆ h₇ h₈ h₉ hg
  subst h₁ h₂ h₃ h₄ h₅ h₆ h₇ h₈ h₉ hg
  rfl

/-- The first order of each kind answers whether a quad is there. -/
theorem Index.Holds.insert_flag {ix : QuadIndex} {c : Contents} (h : Index.Holds ix c.quads c.graphs) (q : EncodedQuad) :
    (ix.insert q).1 = c.changes (.insert q) := by
  obtain ⟨s, p, o, g⟩ := q
  cases g with
  | none =>
    simp only [QuadIndex.insert, h.dspo, Contents.changes]
    split <;> simp_all
  | some g =>
    simp only [QuadIndex.insert, h.gspo, Contents.changes]
    split <;> simp_all

theorem Index.Holds.remove_flag {ix : QuadIndex} {c : Contents} (h : Index.Holds ix c.quads c.graphs) (q : EncodedQuad) :
    (ix.remove q).1 = c.changes (.remove q) := by
  obtain ⟨s, p, o, g⟩ := q
  cases g with
  | none =>
    simp only [QuadIndex.remove, h.dspo, Contents.changes]
    split <;> simp_all
  | some g =>
    simp only [QuadIndex.remove, h.gspo, Contents.changes]
    split <;> simp_all

theorem Index.Holds.removeNamedGraph_flag {ix : QuadIndex} {c : Contents} (h : Index.Holds ix c.quads c.graphs)
    (g : TermId) : (ix.removeNamedGraph g).1 = c.changes (.removeNamedGraph g) := by
  have hgraphs := Index.remove_all_holds (ix.quadsForPattern none none none (.named g)) h
  simp only [QuadIndex.removeNamedGraph, hgraphs.graphs, Contents.changes]

end Holos
