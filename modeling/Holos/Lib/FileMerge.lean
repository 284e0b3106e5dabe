import Holos.Lib.StableSort
/-!
# Merging runs that are read

Runs that can only be read from the front, and one more that is held, merged by a heap that has
the next element of each and prefers the earlier run on a tie. What comes out one after the other
is the merge of what the runs hold.
-/

namespace Lib.FileMerge

open Held (Consistent)
open StableSort (Merging mergeAll)

variable {α σ ε : Type}

/-- A merge under way: the held run and the place in it, the others, and the next element of each
with its number. -/
structure State (α σ : Type) where
  buffer : List α
  sources : List σ
  heap : List (α × Nat)
  tailAt : Nat

section

variable (read : σ → Except ε (Option α × σ)) (cmp : α → α → Ordering)

/-- Puts what a source gave in the heap, if it gave anything. -/
def State.put (s : State α σ) (source : Nat) (a : Option α) : State α σ :=
  { s with heap := a.elim s.heap (fun a => Held.push (Held.byArrival cmp) (a, source) s.heap) }

/-- Reads a run once more. -/
def State.draw (s : State α σ) (source : Nat) : Except ε (State α σ) :=
  match s.sources[source]? with
  | none => .ok s
  | some file => (read file).map (fun (a, rest) => { s with sources := s.sources.set source rest }.put cmp source a)

/-- Pushes the next element of a source; the held run comes after the others. -/
def State.advance (s : State α σ) (source : Nat) : Except ε (State α σ) :=
  if source = s.sources.length then .ok ({ s with tailAt := s.tailAt + 1 }.put cmp source s.buffer[s.tailAt + 1]?)
  else s.draw read cmp source

/-- Reads each run once, the held one last. -/
def start (files : List σ) (buffer : List α) : Except ε (State α σ) :=
  ((List.range files.length).foldlM (State.draw read cmp) ⟨buffer, files, [], 0⟩).map (fun s => s.put cmp files.length buffer.head?)

end

/-- What a run holds is what reading it gives. -/
def Reads (read : σ → Except ε (Option α × σ)) (Holds : σ → List α → Prop) : Prop :=
  ∀ {file run}, Holds file run → ∃ file', read file = .ok (run.head?, file') ∧ Holds file' run.tail

variable {read : σ → Except ε (Option α × σ)} {cmp : α → α → Ordering} {Holds : σ → List α → Prop} {S : α → Prop}
  {s : State α σ} {m : Merging α} {rest left : List α}

theorem refill_eq {source : Nat} {run : List α} (h : m.sources[source]? = some run) :
    m.refill cmp source = ⟨run.head?.elim m.heap (fun a => Held.push (Held.byArrival cmp) (a, source) m.heap), m.sources.set source run.tail⟩ := by
  unfold Merging.refill
  rw [h]
  cases run with
  | cons a run => rfl
  | nil =>
    obtain ⟨hlt, hrun⟩ := List.getElem?_eq_some_iff.1 h
    have hsame : m.sources.set source [] = m.sources := by rw [← hrun, List.set_getElem_self]
    change m = ⟨m.heap, m.sources.set source []⟩
    rw [hsame]

/-- A merge of runs, and the merge of what they hold; `rest` is left of the held one. -/
structure Follows (Holds : σ → List α → Prop) (rest : List α) (s : State α σ) (m : Merging α) : Prop where
  files : ∃ files, List.Forall₂ Holds s.sources files ∧ m.sources = files ++ [rest]
  heap : m.heap = s.heap

theorem forall₂_set {R : σ → List α → Prop} {fs : List σ} {ls : List (List α)} (h : List.Forall₂ R fs ls) (i : Nat) {f : σ}
    {l : List α} (hfl : R f l) : List.Forall₂ R (fs.set i f) (ls.set i l) := by
  induction h generalizing i with
  | nil => exact .nil
  | cons hd tl ih =>
    cases i with
    | zero => exact .cons hfl tl
    | succ i => exact .cons hd (ih i)

theorem Follows.length (h : Follows Holds rest s m) : m.sources.length = s.sources.length + 1 := by
  obtain ⟨files, hfiles, hsources⟩ := h.files
  rw [hsources, List.length_append, List.length_singleton, hfiles.length_eq]

/-- Reading a run is drawing from what it holds. -/
theorem Follows.draw (cmp : α → α → Ordering) (hread : Reads read Holds) (h : Follows Holds rest s m) {source : Nat} (hlt : source < s.sources.length) :
    ∃ s', s.draw read cmp source = .ok s' ∧ Follows Holds rest s' (m.refill cmp source) ∧ s'.buffer = s.buffer ∧
      s'.tailAt = s.tailAt ∧ s'.sources.length = s.sources.length := by
  obtain ⟨files, hfiles, hsources⟩ := h.files
  have hlt' : source < files.length := hfiles.length_eq ▸ hlt
  have hrun : m.sources[source]? = some files[source] := by
    rw [hsources, List.getElem?_append_left hlt', List.getElem?_eq_getElem hlt']
  obtain ⟨file, hgive, hholds⟩ := hread (hfiles.get hlt hlt')
  refine ⟨{ s with sources := s.sources.set source file }.put cmp source files[source].head?, ?_, ⟨⟨files.set source files[source].tail, ?_, ?_⟩, ?_⟩,
    rfl, rfl, List.length_set⟩
  · rw [State.draw, List.getElem?_eq_getElem hlt]
    change Except.map _ (read (s.sources.get ⟨source, hlt⟩)) = _
    rw [hgive]
    rfl
  · exact forall₂_set hfiles source hholds
  · rw [refill_eq hrun, hsources]
    exact List.set_append_left _ _ hlt'
  · rw [refill_eq hrun, h.heap]
    rfl

/-- The next element of the held run is drawn from what is left of it. -/
theorem Follows.tail (cmp : α → α → Ordering) (h : Follows Holds rest s m) (tailAt : Nat) :
    Follows Holds rest.tail ({ s with tailAt := tailAt }.put cmp s.sources.length rest.head?) (m.refill cmp s.sources.length) := by
  obtain ⟨files, hfiles, hsources⟩ := h.files
  have hlen := hfiles.length_eq
  have hrun : m.sources[s.sources.length]? = some rest := by
    rw [hsources, hlen, List.getElem?_append_right (Nat.le_refl _), Nat.sub_self]
    rfl
  refine ⟨⟨files, hfiles, ?_⟩, ?_⟩
  · rw [refill_eq hrun, hsources, hlen]
    change (files ++ [rest]).set files.length rest.tail = _
    rw [List.set_append_right _ _ (Nat.le_refl _), Nat.sub_self]
    rfl
  · rw [refill_eq hrun, h.heap]
    rfl

/-- What is left of the held run is what stands after the place in it. -/
def Running (Holds : σ → List α → Prop) (s : State α σ) (m : Merging α) : Prop := Follows Holds (s.buffer.drop (s.tailAt + 1)) s m

theorem Running.advance (cmp : α → α → Ordering) (hread : Reads read Holds) (h : Running Holds s m) {source : Nat} (hle : source ≤ s.sources.length) :
    ∃ s', s.advance read cmp source = .ok s' ∧ Running Holds s' (m.refill cmp source) := by
  unfold State.advance
  by_cases htail : source = s.sources.length
  · rw [if_pos htail, htail]
    have hnext := Follows.tail cmp h (s.tailAt + 1)
    rw [List.tail_drop, List.head?_drop] at hnext
    exact ⟨_, rfl, hnext⟩
  · rw [if_neg htail]
    obtain ⟨s', hdraw, hfollows, hbuffer, htailAt, _⟩ := Follows.draw cmp hread h (Nat.lt_of_le_of_ne hle htail)
    refine ⟨s', hdraw, ?_⟩
    unfold Running
    rwa [hbuffer, htailAt]

/-- Reading the first runs. -/
theorem Follows.draws (cmp : α → α → Ordering) (hread : Reads read Holds) (h : Follows Holds rest s m) (n : Nat) (hn : n ≤ s.sources.length) :
    ∃ s', (List.range n).foldlM (State.draw read cmp) s = .ok s' ∧ Follows Holds rest s' ((List.range n).foldl (Merging.refill cmp) m) ∧
      s'.buffer = s.buffer ∧ s'.tailAt = s.tailAt ∧ s'.sources.length = s.sources.length := by
  induction n with
  | zero => exact ⟨s, rfl, h, rfl, rfl, rfl⟩
  | succ n ih =>
    obtain ⟨s₁, hfold, hfollows, hbuffer, htailAt, hlen⟩ := ih (by omega)
    obtain ⟨s₂, hdraw, hfollows', hbuffer', htailAt', hlen'⟩ := Follows.draw cmp hread hfollows (show n < s₁.sources.length by omega)
    refine ⟨s₂, ?_, ?_, hbuffer'.trans hbuffer, htailAt'.trans htailAt, hlen'.trans hlen⟩
    · rw [List.range_succ, List.foldlM_append, hfold]
      change List.foldlM (State.draw read cmp) s₁ [n] = _
      rw [List.foldlM_cons, hdraw]
      rfl
    · rw [List.range_succ, List.foldl_append]
      exact hfollows'

/-! ## What comes out -/

/-- What a merge has left to give out. -/
def Left (Holds : σ → List α → Prop) (cmp : α → α → Ordering) (S : α → Prop) (s : State α σ) (left : List α) : Prop :=
  ∃ m, Running Holds s m ∧ m.Going cmp S (fun i => i < m.sources.length) ∧ mergeAll cmp m.lanes = left

/-- A merge that was started has the merge of the runs left, the held one last. -/
theorem left_start (h : Consistent cmp S) (hread : Reads read Holds) {files : List σ} {runs : List (List α)} {buffer : List α}
    (hfiles : List.Forall₂ Holds files runs) (hs : ∀ run ∈ runs ++ [buffer], ∀ a ∈ run, S a) :
    ∃ s, start read cmp files buffer = .ok s ∧ Left Holds cmp S s (mergeAll cmp (runs ++ [buffer])) := by
  have hfirst : Follows Holds buffer (⟨buffer, files, [], 0⟩ : State α σ) ⟨[], runs ++ [buffer]⟩ := ⟨⟨runs, hfiles, rfl⟩, rfl⟩
  obtain ⟨s, hfold, hfollows, hbuffer, htailAt, hlen⟩ := Follows.draws cmp hread hfirst files.length (Nat.le_refl _)
  obtain ⟨hgoing, hlanes⟩ := Merging.start_going h hs
  have htail := Follows.tail cmp hfollows s.tailAt
  have hstart : Merging.start cmp (runs ++ [buffer]) =
      ((List.range files.length).foldl (Merging.refill cmp) ⟨[], runs ++ [buffer]⟩).refill cmp s.sources.length := by
    rw [hlen, Merging.start, List.length_append, List.length_singleton, List.range_succ, List.foldl_append, hfiles.length_eq]
    rfl
  rw [← hstart] at htail
  refine ⟨s.put cmp files.length buffer.head?, by rw [start, hfold]; rfl, Merging.start cmp (runs ++ [buffer]), ?_, ?_, by rw [hlanes]⟩
  · unfold Running
    change Follows Holds (s.buffer.drop (s.tailAt + 1)) _ _
    rw [hbuffer, htailAt, List.drop_one]
    rw [hlen] at htail
    exact htail
  · have hcount : (Merging.start cmp (runs ++ [buffer])).sources.length = (runs ++ [buffer]).length := by
      have hsame := congrArg List.length hlanes
      rwa [Merging.lanes, List.length_mapIdx] at hsame
    rw [hcount]
    exact hgoing

/-- When nothing is left the heap is empty. -/
theorem Left.heap_nil (h : Consistent cmp S) (hleft : Left Holds cmp S s []) : s.heap = [] := by
  obtain ⟨m, hrunning, hgoing, hmerge⟩ := hleft
  rw [← hrunning.heap]
  match hheap : m.heap with
  | [] => rfl
  | (x, source) :: heap =>
    have hpop : m.pop cmp = some (x, Merging.refill cmp ⟨heap, m.sources⟩ source) := by rw [Merging.pop, hheap]
    rw [(hgoing.pop h hpop).2.1] at hmerge
    cases hmerge

/-- The first of what is left is the first in the heap, and without it the rest is left. -/
theorem Left.heap_cons (h : Consistent cmp S) (hread : Reads read Holds) {x : α} (hleft : Left Holds cmp S s (x :: left)) :
    ∃ source heap, s.heap = (x, source) :: heap ∧ ∃ s', { s with heap := heap }.advance read cmp source = .ok s' ∧ Left Holds cmp S s' left := by
  obtain ⟨m, hrunning, hgoing, hmerge⟩ := hleft
  match hheap : m.heap with
  | [] =>
    rw [hgoing.nothing hheap] at hmerge
    cases hmerge
  | (y, source) :: heap =>
    have hpop : m.pop cmp = some (y, Merging.refill cmp ⟨heap, m.sources⟩ source) := by rw [Merging.pop, hheap]
    obtain ⟨hgoing', hmerge', -⟩ := hgoing.pop h hpop
    rw [hmerge'] at hmerge
    injection hmerge with hy hrest
    have hknown : source < m.sources.length := hgoing.known (y, source) (hheap ▸ List.mem_cons_self)
    rw [Follows.length hrunning] at hknown
    have hpopped : Running Holds { s with heap := heap } ⟨heap, m.sources⟩ := ⟨hrunning.files, rfl⟩
    obtain ⟨s', hadvance, hrunning'⟩ := Running.advance cmp hread hpopped (Nat.le_of_lt_succ hknown)
    exact ⟨source, heap, by rw [← hrunning.heap, hheap, hy], s', hadvance, _, hrunning', hgoing', hrest⟩

end Lib.FileMerge
