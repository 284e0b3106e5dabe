import Holos.Store.Memory
/-!
# Runs of the in-memory tier

Every write keeps the storage holding the contents the write makes of what was held, and
journals entries that lead back. So the journal of an open scope leads back to the contents
the scope opened on, and a rollback restores them.
-/

namespace Holos.MemoryStorage

open Lib

/-- The storage holds these contents: nine orders, graph names and statistics. -/
structure Holds (m : MemoryStorage) (c : Contents) : Prop where
  index : Index.Holds m.index c.quads c.graphs
  counts : ∀ p, m.predicateCounts.count p = c.count p

variable {X : Inline.Datatypes} {m m' : MemoryStorage} {c c' : Contents}

theorem new_holds : Holds new .empty := ⟨Index.holds_new, fun _ => rfl⟩

theorem Holds.index_unique (h : Holds m c) (h' : Holds m' c) : m.index = m'.index := h.index.unique h'.index

theorem Holds.counts_unique (h : Holds m c) (h' : Holds m' c) : m.predicateCounts = m'.predicateCounts :=
  Counter.ext (fun p => (h.counts p).trans (h'.counts p).symm)

/-! ## Writes -/

/-- One entry of the journal, undone on the contents. -/
def undone (c : Contents) : Undo → Contents
  | .inserted q => c.remove q
  | .removed q => c.insert q
  | .graphCreated g => c.removeNamedGraph g
  | .graphDropped g => c.insertNamedGraph g

/-- How far a write moves the generation. Graphs do not move it, nor do the quads that go
with one. -/
def moves (c : Contents) : Index.Op → Nat
  | .insert q => if q ∈ c.quads then 0 else 1
  | .remove q => if q ∈ c.quads then 1 else 0
  | _ => 0

/-- What a write does. -/
structure Wrote (m : MemoryStorage) (c : Contents) (op : Index.Op) (r : Bool × MemoryStorage) : Prop where
  reply : r.1 = c.changes op
  holds : Holds r.2 (c.apply op)
  dictionary : r.2.dictionary = m.dictionary
  generation : r.2.generation = m.generation + moves c op
  began : r.2.generationAtBegin = m.generationAtBegin
  /-- With a scope open, the entries journalled lead back. -/
  journal : ∃ es, r.2.undo = m.undo.map (· ++ es) ∧ (m.undo.isSome = true → es.reverse.foldl undone (c.apply op) = c)

/-- A write with nothing to do. -/
theorem Wrote.same (h : Holds m c) {op : Index.Op} (hop : c.changes op = false) (hmoves : moves c op = 0) :
    Wrote m c op (false, m) where
  reply := hop.symm
  holds := by rw [Contents.apply_of_not_changes hop]; exact h
  dictionary := rfl
  generation := by rw [hmoves]; rfl
  began := rfl
  journal := ⟨[], by simp, fun _ => Contents.apply_of_not_changes hop⟩

theorem removeEncoded_wrote (h : Holds m c) (q : EncodedQuad) : Wrote m c (.remove q) (m.removeEncoded q) := by
  have hflag := h.index.remove_flag q
  have hafter := Index.remove_holds h.index q
  unfold removeEncoded
  cases hr : m.index.remove q with
  | mk flag index =>
    rw [hr] at hflag hafter
    simp only at hflag hafter
    cases flag with
    | false =>
      refine Wrote.same h hflag.symm ?_
      simp only [Contents.changes] at hflag
      simp [moves, of_decide_eq_false hflag.symm]
    | true =>
      have hq : q ∈ c.quads := of_decide_eq_true hflag.symm
      refine ⟨hflag, ⟨hafter, fun p => ?_⟩, rfl, by simp [moves, hq, record], rfl, [.removed q], rfl, fun _ => ?_⟩
      · simp only [record, Counter.count_decrement, h.counts, Contents.apply, Contents.count_remove hq]
      · exact Contents.insert_remove hq

/-- The entries of an insert: the graph first, if the quad brings it. -/
def graphEntry (c : Contents) (q : EncodedQuad) : List Undo :=
  match q.graphName with
  | some g => if g ∈ c.graphs then [] else [.graphCreated g]
  | none => []

theorem undone_insert {q : EncodedQuad} (hq : q ∉ c.quads) :
    (graphEntry c q ++ [Undo.inserted q]).reverse.foldl undone (c.insert q) = c := by
  rw [List.reverse_append, List.foldl_append]
  simp only [List.reverse_singleton, List.foldl_cons, List.foldl_nil, undone]
  unfold graphEntry
  split
  · rename_i g hg
    split
    · rename_i hmem
      exact Contents.remove_insert hq (fun g' hg' => by rw [hg] at hg'; cases hg'; exact hmem)
    · rename_i hnew
      exact Contents.removeNamedGraph_remove_insert hg hnew
  · rename_i hg
    exact Contents.remove_insert hq (fun g' hg' => by rw [hg] at hg'; cases hg')

theorem insertEncoded_wrote (h : Holds m c) (q : EncodedQuad) : Wrote m c (.insert q) (m.insertEncoded q) := by
  have hflag := h.index.insert_flag q
  have hafter := Index.insert_holds h.index q
  unfold insertEncoded
  cases hr : m.index.insert q with
  | mk flag index =>
    rw [hr] at hflag hafter
    simp only at hflag hafter
    cases flag with
    | false =>
      refine Wrote.same h hflag.symm ?_
      simp only [Contents.changes] at hflag
      simp [moves, not_not.1 (of_decide_eq_false hflag.symm)]
    | true =>
      have hq : q ∉ c.quads := of_decide_eq_true hflag.symm
      have hcounts : ∀ p, (m.predicateCounts.increment q.predicate).count p = (c.insert q).count p := fun p => by
        rw [Counter.count_increment, h.counts, Contents.count_insert hq]
      have hundo := undone_insert hq
      cases hg : q.graphName with
      | none =>
        refine ⟨hflag, ⟨hafter, hcounts⟩, rfl, by simp [moves, hq, record], rfl, [.inserted q], rfl, fun _ => ?_⟩
        simpa [graphEntry, hg, Contents.apply] using hundo
      | some g =>
        -- the graph is there already, so inserting it again changes nothing
        have hgraph : Index.Holds (index.insertNamedGraph g).2 (c.insert q).quads (c.insert q).graphs := by
          have hmem : g ∈ Index.record c.graphs q.graphName := by simp [hg, Index.record]
          have hsame := Index.insertNamedGraph_holds hafter g
          rw [Finset.insert_eq_of_mem hmem] at hsame
          exact hsame
        by_cases hscope : m.undo.isSome = true
        · by_cases hmem : g ∈ c.graphs
          · have hin : m.containsNamedGraph g = true := by simpa [containsNamedGraph, h.index.graphs] using hmem
            simp only [hin, Bool.not_true, Bool.and_false, Bool.false_eq_true, if_false]
            refine ⟨hflag, ⟨hgraph, hcounts⟩, rfl, by simp [moves, hq, record], rfl, [.inserted q], rfl, fun _ => ?_⟩
            simpa [graphEntry, hg, hmem, Contents.apply] using hundo
          · have hout : m.containsNamedGraph g = false := by simpa [containsNamedGraph, h.index.graphs] using hmem
            simp only [hscope, hout, Bool.not_false, Bool.and_true, if_true]
            refine ⟨hflag, ⟨hgraph, hcounts⟩, rfl, by simp [moves, hq, record], rfl, [.graphCreated g, .inserted q], ?_,
              fun _ => ?_⟩
            · simp only [record, Option.map_map]
              exact congrArg (fun f => m.undo.map f) (funext (fun es => by simp))
            · simpa [graphEntry, hg, hmem, Contents.apply] using hundo
        · rw [Bool.not_eq_true] at hscope
          simp only [hscope, Bool.false_and, Bool.false_eq_true, if_false]
          exact ⟨hflag, ⟨hgraph, hcounts⟩, rfl, by simp [moves, hq, record], rfl, [.inserted q], rfl,
            fun ht => by rw [hscope] at ht; cases ht⟩

theorem insertNamedGraph_wrote (h : Holds m c) (g : TermId) : Wrote m c (.insertNamedGraph g) (m.insertNamedGraph g) := by
  have hafter := Index.insertNamedGraph_holds h.index g
  by_cases hmem : g ∈ c.graphs
  · have hin : m.containsNamedGraph g = true := by simpa [containsNamedGraph, h.index.graphs] using hmem
    have hflag : (m.index.insertNamedGraph g).1 = false := by simp [QuadIndex.insertNamedGraph, h.index.graphs, hmem]
    simp only [insertNamedGraph, hin, Bool.not_true, Bool.false_eq_true, if_false]
    refine ⟨?_, ⟨hafter, h.counts⟩, rfl, rfl, rfl, [], by simp, fun _ => Contents.insertNamedGraph_of_mem hmem⟩
    rw [hflag]
    simp [Contents.changes, hmem]
  · have hout : m.containsNamedGraph g = false := by simpa [containsNamedGraph, h.index.graphs] using hmem
    have hflag : (m.index.insertNamedGraph g).1 = true := by simp [QuadIndex.insertNamedGraph, h.index.graphs, hmem]
    simp only [insertNamedGraph, hout, Bool.not_false, if_true, record]
    refine ⟨?_, ⟨hafter, h.counts⟩, rfl, rfl, rfl, [.graphCreated g], rfl,
      fun _ => Contents.removeNamedGraph_insertNamedGraph hmem⟩
    rw [hflag]
    simp [Contents.changes, hmem]

/-! ### Dropping a graph -/

theorem foldl_record (l : List EncodedQuad) (m : MemoryStorage) :
    l.foldl (fun m quad => m.record (.removed quad)) m = { m with undo := m.undo.map (· ++ l.map .removed) } := by
  induction l generalizing m with
  | nil => simp
  | cons q l ih =>
    rw [List.foldl_cons, ih]
    simp only [record, Option.map_map, List.map_cons]
    congr 2
    funext es
    simp

theorem foldl_counts (l : List EncodedQuad) (m : MemoryStorage) :
    l.foldl (fun m quad => { m with predicateCounts := m.predicateCounts.decrement quad.predicate }) m =
      { m with predicateCounts := (l.map (·.predicate)).foldl Counter.decrement m.predicateCounts } := by
  induction l generalizing m with
  | nil => rfl
  | cons q l ih =>
    rw [List.foldl_cons, ih]
    rfl

/-- Quads taken away and put back in the opposite order. -/
theorem undone_removeAll {l : List EncodedQuad} (hl : l.Nodup) (hsub : ∀ q ∈ l, q ∈ c.quads) :
    (l.map Undo.removed).reverse.foldl undone (c.removeAll l) = c := by
  induction l generalizing c with
  | nil => rfl
  | cons q l ih =>
    obtain ⟨hq, hl⟩ := List.nodup_cons.1 hl
    have hsub' : ∀ r ∈ l, r ∈ (c.remove q).quads := fun r hr =>
      Finset.mem_erase.2 ⟨fun he => hq (he ▸ hr), hsub r (List.mem_cons_of_mem _ hr)⟩
    rw [List.map_cons, List.reverse_cons, List.foldl_append, show c.removeAll (q :: l) = (c.remove q).removeAll l from rfl,
      ih hl hsub']
    exact Contents.insert_remove (hsub q List.mem_cons_self)

theorem count_removeAll {l : List EncodedQuad} (hl : l.Nodup) (hsub : ∀ q ∈ l, q ∈ c.quads) (k : Counter TermId)
    (hk : ∀ p, k.count p = c.count p) (p : TermId) :
    ((l.map (·.predicate)).foldl Counter.decrement k).count p = (c.removeAll l).count p := by
  induction l generalizing c k with
  | nil => exact hk p
  | cons q l ih =>
    obtain ⟨hq, hl⟩ := List.nodup_cons.1 hl
    have hsub' : ∀ r ∈ l, r ∈ (c.remove q).quads := fun r hr =>
      Finset.mem_erase.2 ⟨fun he => hq (he ▸ hr), hsub r (List.mem_cons_of_mem _ hr)⟩
    refine ih hl hsub' (k.decrement q.predicate) (fun p => ?_)
    rw [Counter.count_decrement, hk, Contents.count_remove (hsub q List.mem_cons_self)]

theorem removeNamedGraph_wrote (h : Holds m c) (g : TermId) : Wrote m c (.removeNamedGraph g) (m.removeNamedGraph g) := by
  have hafter := Index.removeNamedGraph_holds h.index g
  have hflag := h.index.removeNamedGraph_flag g
  have hnodup := Index.quadsForPattern_nodup h.index none none none (.named g)
  have hdoomed : ∀ q, q ∈ m.index.quadsForPattern none none none (.named g) ↔ q ∈ c.quads ∧ q.graphName = some g := by
    intro q
    rw [Index.mem_quadsForPattern h.index]
    simp [Index.matchesTriple, Index.GraphFilter.admits]
  generalize hl : m.index.quadsForPattern none none none (.named g) = doomed at hnodup hdoomed
  have hsub : ∀ q ∈ doomed, q ∈ c.quads := fun q hq => ((hdoomed q).1 hq).1
  have hquads : (c.removeNamedGraph g).quads = (c.removeAll doomed).quads := by
    ext q
    simp only [Contents.removeNamedGraph, Index.dropGraph, Finset.mem_filter, Contents.mem_removeAll, hdoomed]
    tauto
  have hcounts : ∀ p, ((doomed.map (·.predicate)).foldl Counter.decrement m.predicateCounts).count p =
      (c.removeNamedGraph g).count p := by
    intro p
    rw [count_removeAll hnodup hsub m.predicateCounts h.counts]
    simp only [Contents.count, hquads]
  unfold removeNamedGraph
  simp only [hl, foldl_record, foldl_counts, containsNamedGraph]
  by_cases hmem : g ∈ c.graphs
  · have hin : g ∈ m.index.graphs := (h.index.graphs g).2 hmem
    simp only [hin, decide_true, if_true, record]
    refine ⟨hflag, ⟨hafter, hcounts⟩, rfl, rfl, rfl, doomed.map .removed ++ [.graphDropped g], ?_, fun _ => ?_⟩
    · simp only [Option.map_map]
      exact congrArg (fun f => m.undo.map f) (funext (fun es => by simp))
    · -- the graph comes back first, then its quads
      have hback : (c.removeNamedGraph g).insertNamedGraph g = c.removeAll doomed := by
        refine Contents.ext hquads ?_
        rw [Contents.removeAll_graphs]
        exact Finset.insert_erase hmem
      rw [List.reverse_append, List.foldl_append]
      simp only [List.reverse_singleton, List.foldl_cons, List.foldl_nil, undone, Contents.apply, hback]
      exact undone_removeAll hnodup hsub
  · have hout : g ∉ m.index.graphs := fun hin => hmem ((h.index.graphs g).1 hin)
    have hnil : doomed = [] := List.eq_nil_iff_forall_not_mem.2 (fun q hq =>
      hmem (c.named q ((hdoomed q).1 hq).1 g ((hdoomed q).1 hq).2))
    simp only [hout, decide_false, Bool.false_eq_true, if_false]
    refine ⟨hflag, ⟨hafter, hcounts⟩, rfl, rfl, rfl, [], by simp [hnil], fun _ => Contents.removeNamedGraph_of_not_mem hmem⟩

theorem write_wrote (h : Holds m c) (op : Index.Op) : Wrote m c op (m.write op) := by
  cases op with
  | insert q => exact insertEncoded_wrote h q
  | remove q => exact removeEncoded_wrote h q
  | insertNamedGraph g => exact insertNamedGraph_wrote h g
  | removeNamedGraph g => exact removeNamedGraph_wrote h g

/-! ## Scopes -/

/-- Replaying entries with no scope open does on the storage what it does on the contents. -/
theorem replay_holds (es : List Undo) (h : Holds m c) (hundo : m.undo = none) :
    Holds (es.foldl undoEntry m) (es.foldl undone c) ∧ (es.foldl undoEntry m).undo = none ∧
      (es.foldl undoEntry m).dictionary = m.dictionary ∧ (es.foldl undoEntry m).generationAtBegin = m.generationAtBegin := by
  induction es generalizing m c with
  | nil => exact ⟨h, hundo, rfl, rfl⟩
  | cons e es ih =>
    have hstep : ∃ op r, Wrote m c op r ∧ c.apply op = undone c e ∧ r.2 = m.undoEntry e := by
      cases e with
      | inserted q => exact ⟨.remove q, _, removeEncoded_wrote h q, rfl, rfl⟩
      | removed q => exact ⟨.insert q, _, insertEncoded_wrote h q, rfl, rfl⟩
      | graphCreated g => exact ⟨.removeNamedGraph g, _, removeNamedGraph_wrote h g, rfl, rfl⟩
      | graphDropped g => exact ⟨.insertNamedGraph g, _, insertNamedGraph_wrote h g, rfl, rfl⟩
    obtain ⟨op, r, hwrote, hsame, hr⟩ := hstep
    obtain ⟨es', hes', -⟩ := hwrote.journal
    have hh : Holds (m.undoEntry e) (undone c e) := by rw [← hr, ← hsame]; exact hwrote.holds
    have hu : (m.undoEntry e).undo = none := by rw [← hr, hes', hundo]; rfl
    obtain ⟨h₁, h₂, h₃, h₄⟩ := ih hh hu
    refine ⟨h₁, h₂, h₃.trans ?_, h₄.trans ?_⟩
    · rw [← hr]; exact hwrote.dictionary
    · rw [← hr]; exact hwrote.began

/-- The storage simulates the contents of a scoped store: an open scope's journal leads back
to the contents it opened on. -/
structure Sim (m : MemoryStorage) (a : Storage.Scoped) : Prop where
  holds : Holds m a.current
  scope : m.undo.isSome = a.saved.isSome
  journal : ∀ es, m.undo = some es → es.reverse.foldl undone a.current = a.base

variable {a : Storage.Scoped}

theorem new_sim : Sim new .new := ⟨new_holds, rfl, fun _ h => by cases h⟩

theorem Sim.write (h : Sim m a) (op : Index.Op) : Sim (m.write op).2 (a.step (.write op)) := by
  have hwrote := write_wrote h.holds op
  obtain ⟨es, hes, hback⟩ := hwrote.journal
  refine ⟨hwrote.holds, by rw [hes, Option.isSome_map]; exact h.scope, fun es' hes' => ?_⟩
  rw [hes] at hes'
  obtain ⟨es₀, hes₀, rfl⟩ := Option.map_eq_some_iff.1 hes'
  have hsaved : a.saved.isSome = true := by rw [← h.scope, hes₀]; rfl
  rw [List.reverse_append, List.foldl_append]
  simp only [Storage.Scoped.step]
  rw [hback (by rw [hes₀]; rfl), h.journal es₀ hes₀]
  obtain ⟨c₀, hc₀⟩ := Option.isSome_iff_exists.1 hsaved
  simp only [Storage.Scoped.base, hc₀, Option.getD_some]

theorem Sim.rollback (h : Sim m a) : Sim m.rollback (a.step .rollback) := by
  unfold MemoryStorage.rollback
  cases hundo : m.undo with
  | none =>
    have hsaved : a.saved = none := Option.not_isSome_iff_eq_none.1 (by rw [← h.scope, hundo]; simp)
    refine ⟨?_, by rw [hundo]; rfl, fun es hes => by rw [hundo] at hes; cases hes⟩
    simp only [Storage.Scoped.step, Storage.Scoped.base, hsaved, Option.getD_none]
    exact h.holds
  | some es =>
    have hstart : Holds { m with undo := none } a.current := ⟨h.holds.index, h.holds.counts⟩
    obtain ⟨hh, hu, -, -⟩ := replay_holds es.reverse hstart rfl
    rw [h.journal es hundo] at hh
    exact ⟨⟨hh.index, hh.counts⟩, by simp only [hu]; rfl, fun es' hes' => by simp only [hu] at hes'; cases hes'⟩

/-- Every step simulates the step on contents. -/
theorem Sim.step (h : Sim m a) {op : Storage.Op} {reply : Storage.Reply} (hstep : m.step X op = some (reply, m')) :
    Sim m' (a.step op) ∧ (∀ r, a.reply op = some r → reply = r) := by
  cases op with
  | encode t =>
    obtain ⟨⟨id, m₁⟩, he, heq⟩ := Option.map_eq_some_iff.1 hstep
    obtain ⟨⟨id', d⟩, -, hd⟩ := Option.map_eq_some_iff.1 he
    cases hd
    cases heq
    exact ⟨⟨⟨h.holds.index, h.holds.counts⟩, h.scope, h.journal⟩, fun r hr => by cases hr⟩
  | write op =>
    cases hstep
    refine ⟨h.write op, fun r hr => ?_⟩
    cases hr
    rw [(write_wrote h.holds op).reply]
  | begin =>
    simp only [MemoryStorage.step, MemoryStorage.begin] at hstep
    cases hscope : a.saved with
    | none =>
      have hundo : m.undo.isSome = false := by rw [h.scope, hscope]; rfl
      simp only [hundo, Bool.false_eq_true, if_false] at hstep
      cases hstep
      simp only [Storage.Scoped.step, Storage.Scoped.reply, hscope, Option.isSome_none, Bool.false_eq_true, if_false]
      refine ⟨⟨⟨h.holds.index, h.holds.counts⟩, rfl, fun es hes => ?_⟩, fun r hr => by cases hr; rfl⟩
      cases hes
      rfl
    | some c₀ =>
      have hundo : m.undo.isSome = true := by rw [h.scope, hscope]; rfl
      simp only [hundo, if_true] at hstep
      cases hstep
      simp only [Storage.Scoped.step, Storage.Scoped.reply, hscope, Option.isSome_some, if_true]
      exact ⟨h, fun r hr => by cases hr; rfl⟩
  | commit =>
    simp only [MemoryStorage.step, MemoryStorage.commit] at hstep
    cases hscope : a.saved with
    | none =>
      have hundo : m.undo.isSome = false := by rw [h.scope, hscope]; rfl
      simp only [hundo, Bool.false_eq_true, if_false] at hstep
      cases hstep
      have hsame : a.step .commit = a := by simp only [Storage.Scoped.step, ← hscope]
      simp only [hsame, Storage.Scoped.reply, hscope, Option.isSome_none, Bool.false_eq_true, if_false]
      exact ⟨h, fun r hr => by cases hr; rfl⟩
    | some c₀ =>
      have hundo : m.undo.isSome = true := by rw [h.scope, hscope]; rfl
      simp only [hundo, if_true] at hstep
      cases hstep
      simp only [Storage.Scoped.step, Storage.Scoped.reply, hscope, Option.isSome_some, if_true]
      exact ⟨⟨⟨h.holds.index, h.holds.counts⟩, rfl, fun es hes => by cases hes⟩, fun r hr => by cases hr; rfl⟩
  | rollback =>
    cases hstep
    exact ⟨h.rollback, fun r hr => by cases hr; rfl⟩

/-! ## Runs -/

theorem run_cons {op : Storage.Op} {ops : List Storage.Op} {replies : List Storage.Reply}
    (h : run X m (op :: ops) = some (replies, m')) :
    ∃ reply rest m₁, step X m op = some (reply, m₁) ∧ run X m₁ ops = some (rest, m') ∧ replies = reply :: rest := by
  simp only [run, Option.bind_eq_bind, Option.bind_eq_some_iff, Prod.exists] at h
  obtain ⟨reply, m₁, hstep, rest, m₂, hrun, heq⟩ := h
  cases heq
  exact ⟨reply, rest, m₁, hstep, hrun, rfl⟩

theorem run_append {ops ops' : List Storage.Op} {replies : List Storage.Reply} (h : run X m (ops ++ ops') = some (replies, m')) :
    ∃ r r' m₁, run X m ops = some (r, m₁) ∧ run X m₁ ops' = some (r', m') := by
  induction ops generalizing m replies with
  | nil => exact ⟨[], replies, m, rfl, h⟩
  | cons op ops ih =>
    obtain ⟨reply, rest, m₁, hstep, hrun, -⟩ := run_cons h
    obtain ⟨r, r', m₂, h₁, h₂⟩ := ih hrun
    exact ⟨reply :: r, r', m₂, by simp only [run, hstep, h₁, Option.bind_eq_bind, Option.bind_some]; rfl, h₂⟩

theorem Sim.run (h : Sim m a) {ops : List Storage.Op} {replies : List Storage.Reply} (hrun : m.run X ops = some (replies, m')) :
    Sim m' (a.run ops) := by
  induction ops generalizing m a replies with
  | nil =>
    cases hrun
    exact h
  | cons op ops ih =>
    obtain ⟨reply, rest, m₁, hstep, hrest, -⟩ := run_cons hrun
    exact ih (h.step hstep).1 hrest

/-- No write looks at the dictionary. -/
theorem write_dictionary (m : MemoryStorage) (op : Index.Op) : (m.write op).2.dictionary = m.dictionary := by
  cases op with
  | insert q =>
    simp only [write, insertEncoded]
    split
    · cases q.graphName with
      | none => rfl
      | some g => simp only [record]; split <;> rfl
    · rfl
  | remove q =>
    simp only [write, removeEncoded]
    split <;> rfl
  | insertNamedGraph g =>
    simp only [write, insertNamedGraph]
    split <;> rfl
  | removeNamedGraph g =>
    simp only [write, removeNamedGraph, foldl_record, foldl_counts]
    split <;> rfl

theorem undoEntry_dictionary (m : MemoryStorage) (e : Undo) : (m.undoEntry e).dictionary = m.dictionary := by
  cases e with
  | inserted q => exact write_dictionary m (.remove q)
  | removed q => exact write_dictionary m (.insert q)
  | graphCreated g => exact write_dictionary m (.removeNamedGraph g)
  | graphDropped g => exact write_dictionary m (.insertNamedGraph g)

theorem rollback_dictionary (m : MemoryStorage) : m.rollback.dictionary = m.dictionary := by
  unfold rollback
  cases m.undo with
  | none => rfl
  | some es =>
    simp only
    suffices hfold : ∀ (es : List Undo) (m : MemoryStorage), (es.foldl undoEntry m).dictionary = m.dictionary from hfold _ _
    intro es
    induction es with
    | nil => intro m; rfl
    | cons e es ih =>
      intro m
      rw [List.foldl_cons, ih, undoEntry_dictionary]

theorem step_dictionary {op : Storage.Op} {reply : Storage.Reply} (h : step X m op = some (reply, m')) :
    ∃ ts, Dictionary.Chain X ts m.dictionary m'.dictionary := by
  cases op with
  | encode t =>
    obtain ⟨⟨id, m₁⟩, he, heq⟩ := Option.map_eq_some_iff.1 h
    obtain ⟨⟨id', d⟩, hd, heq'⟩ := Option.map_eq_some_iff.1 he
    cases heq'
    cases heq
    exact ⟨_, (Dictionary.encode_encodes hd).chain⟩
  | write op =>
    cases h
    rw [write_dictionary]
    exact ⟨[], .refl⟩
  | begin =>
    simp only [step, begin] at h
    split_ifs at h <;> cases h <;> exact ⟨[], .refl⟩
  | commit =>
    simp only [step, commit] at h
    split_ifs at h <;> cases h <;> exact ⟨[], .refl⟩
  | rollback =>
    cases h
    rw [rollback_dictionary]
    exact ⟨[], .refl⟩

/-- Whatever is run, the dictionary only grows and stays in use. -/
theorem run_dictionary (hX : X.Lawful) {ops : List Storage.Op} {replies : List Storage.Reply}
    (h : run X m ops = some (replies, m')) (hd : Dictionary.Valid X m.dictionary) :
    Dictionary.Valid X m'.dictionary ∧ m.dictionary.Grown m'.dictionary := by
  induction ops generalizing m replies with
  | nil =>
    cases h
    exact ⟨hd, .refl _⟩
  | cons op ops ih =>
    obtain ⟨reply, rest, m₁, hstep, hrun, -⟩ := run_cons h
    obtain ⟨ts, hchain⟩ := step_dictionary hstep
    obtain ⟨hvalid, hgrown⟩ := ih hrun (hchain.valid hX hd)
    exact ⟨hvalid, hchain.grown.trans hgrown⟩

/-- Writes leave the generation a scope opened on where it is. -/
theorem run_writes_began (h : Sim m a) {ops : List Storage.Op} (hops : ∀ op ∈ ops, op.isWrite = true)
    {replies : List Storage.Reply} (hrun : run X m ops = some (replies, m')) : m'.generationAtBegin = m.generationAtBegin := by
  induction ops generalizing m a replies with
  | nil =>
    cases hrun
    rfl
  | cons op ops ih =>
    obtain ⟨reply, rest, m₁, hstep, hrest, -⟩ := run_cons hrun
    rw [ih (h.step hstep).1 (fun o ho => hops o (List.mem_cons_of_mem _ ho)) hrest]
    have hop := hops op List.mem_cons_self
    cases op with
    | encode t =>
      obtain ⟨⟨id, m₁⟩, he, heq⟩ := Option.map_eq_some_iff.1 hstep
      obtain ⟨⟨id', d⟩, -, heq'⟩ := Option.map_eq_some_iff.1 he
      cases heq'
      cases heq
      rfl
    | write op =>
      cases hstep
      exact (write_wrote h.holds op).began
    | begin | commit | rollback => cases hop

theorem rollback_generation (h : Sim m a) (hundo : m.undo.isSome = true) : m.rollback.generation = m.generationAtBegin := by
  obtain ⟨es, hes⟩ := Option.isSome_iff_exists.1 hundo
  have hstart : Holds { m with undo := none } a.current := ⟨h.holds.index, h.holds.counts⟩
  obtain ⟨-, -, -, hbegan⟩ := replay_holds es.reverse hstart rfl
  simp only [rollback, hes]
  exact hbegan

/-- Whatever was written since the scope began, in whatever order, a rollback puts back the
nine orders, the graph names, the statistics and the generation; and an id that was out at
any moment up to it decodes as it did. -/
theorem rollback_restores (hX : X.Lawful) {ops ws : List Storage.Op} {replies replies' : List Storage.Reply}
    {m m₁ m₂ : MemoryStorage} (h : run X new ops = some (replies, m)) (hbegin : m.begin = .ok m₁)
    (hws : ∀ op ∈ ws, op.isWrite = true) (hrun : run X m₁ ws = some (replies', m₂)) :
    m₂.rollback.index = m.index ∧ m₂.rollback.namedGraphs = m.namedGraphs ∧
      m₂.rollback.predicateCounts = m.predicateCounts ∧ m₂.rollback.generation = m.generation ∧
      ∀ ws₁ ws₂ r m', ws = ws₁ ++ ws₂ → run X m₁ ws₁ = some (r, m') → ∀ id t, m'.decode X id = .ok (some t) →
        m₂.rollback.decode X id = .ok (some t) := by
  have hsim := new_sim.run h
  have hm₁ : m.undo.isSome = false ∧ m₁ = { m with undo := some [], generationAtBegin := m.generation } := by
    unfold begin at hbegin
    split_ifs at hbegin with hscope
    cases hbegin
    exact ⟨Bool.not_eq_true _ ▸ hscope, rfl⟩
  obtain ⟨hscope, hm₁⟩ := hm₁
  -- the scope's base is what the store held when it opened
  have hopen : (Storage.Scoped.new.run ops).saved = none :=
    Option.not_isSome_iff_eq_none.1 (by rw [← hsim.scope, hscope]; simp)
  have hsim₁ : Sim m₁ ((Storage.Scoped.new.run ops).step .begin) :=
    (@Sim.step X m m₁ _ hsim .begin (.scoped (.ok ())) (by simp only [step, hbegin])).1
  have hsim₂ := hsim₁.run hrun
  have hsaved : (((Storage.Scoped.new.run ops).step .begin).run ws).saved = some (Storage.Scoped.new.run ops).current := by
    rw [Storage.Scoped.run_writes_saved _ hws]
    simp [Storage.Scoped.step, hopen]
  have hback := hsim₂.rollback.holds
  rw [Storage.Scoped.rollback_current hsaved] at hback
  have hindex := hback.index_unique hsim.holds
  refine ⟨hindex, by simp only [namedGraphs, hindex], hback.counts_unique hsim.holds, ?_, ?_⟩
  · rw [rollback_generation hsim₂ (by rw [hsim₂.scope, hsaved]; rfl), run_writes_began hsim₁ hws hrun, hm₁]
  · rintro ws₁ ws₂ r m' rfl hrun₁ id t hdecode
    obtain ⟨r₁, r₂, m'', h₁, h₂⟩ := run_append hrun
    rw [hrun₁] at h₁
    cases h₁
    have hd : Dictionary.Valid X m₁.dictionary := by
      rw [hm₁]
      exact (run_dictionary hX h Dictionary.new_valid).1
    have hd' := (run_dictionary hX hrun₁ hd).1
    obtain ⟨hd₂, hgrown⟩ := run_dictionary hX h₂ hd'
    unfold decode at hdecode ⊢
    rw [rollback_dictionary]
    exact Dictionary.decode_mono hX hd' hd₂ hgrown hdecode

/-- A graph dropped and written again in one scope. -/
theorem rollback_restores_dropped : ∃ r m m₁ r' m₂, run Dictionary.bare new [.write (.insert ⟨0, 1, 2, some 3⟩)] = some (r, m) ∧
    m.begin = .ok m₁ ∧
    run Dictionary.bare m₁ [.write (.removeNamedGraph 3), .write (.insert ⟨5, 1, 2, some 3⟩), .encode (.blankNode "b")] =
      some (r', m₂) ∧
    m₂.rollback.index = m.index ∧ m₂.rollback.generation = m.generation := by
  refine ⟨_, _, _, _, _, rfl, rfl, rfl, ?_⟩
  obtain ⟨hindex, -, -, hgen, -⟩ := @rollback_restores Dictionary.bare Dictionary.bare_lawful
    [.write (.insert ⟨0, 1, 2, some 3⟩)]
    [.write (.removeNamedGraph 3), .write (.insert ⟨5, 1, 2, some 3⟩), .encode (.blankNode "b")] _ _ _ _ _ rfl rfl
    (by simp [Storage.Op.isWrite]) rfl
  exact ⟨hindex, hgen⟩

end Holos.MemoryStorage
