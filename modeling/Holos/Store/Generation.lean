import Holos.Lib.Version
import Holos.Store.Bulk
import Holos.Store.MemoryTheorems
import Holos.Store.RocksScope
/-!
# What the generation stamps

A moment of a run is the generation and the quads stored, as `contains_encoded` tells them. A
write that changes the quads moves the generation, and a rollback takes both back. So as long
as the generation is only moved on from the highest value it had, a value stands for one set
of quads.

Three things end that. After a rollback the next write gets a value the abandoned scope had
out already. Dropping a graph in memory takes its quads without moving anything. And on disk a
batch of removals can be written by a call that moves nothing, and a scope can be committed
with writes in it that were refused.
-/

namespace Holos

open Lib Lib.Version

/-! ## The in-memory tier -/

namespace MemoryStorage

variable {X : Inline.Datatypes} {m m' : MemoryStorage} {a : Storage.Scoped}

/-- A load is nothing special in memory. -/
def call (X : Inline.Datatypes) (m : MemoryStorage) : Storage.Call → Option (Storage.Reply × MemoryStorage)
  | .op op => m.step X op
  | .beginBulkLoad | .endBulkLoad | .flush => some (.scoped (.ok ()), m)

def moment (m : MemoryStorage) : Nat × (EncodedQuad → Bool) := (m.generation, m.containsEncoded)

/-- Whether a call moves the generation. -/
def advances (m : MemoryStorage) : Storage.Call → Bool
  | .op (.write (.insert q)) => !m.containsEncoded q
  | .op (.write (.remove q)) => m.containsEncoded q
  | _ => false

/-- The generation is moved from its highest value so far only, and no graph is dropped that
has quads. -/
def Trusted (peak : Nat) (m : MemoryStorage) (c : Storage.Call) : Prop :=
  (m.advances c = true → m.generation = peak) ∧
    ∀ g, c = .op (.write (.removeNamedGraph g)) → m.scan none none none (.named g) = []

/-- The highest generation so far. -/
def peakAfter (peak : Nat) (_ : MemoryStorage) (_ : Storage.Call) (m' : MemoryStorage) : Nat := max peak m'.generation

theorem Holds.containsEncoded {c : Contents} (h : Holds m c) : m.containsEncoded = fun q => decide (q ∈ c.quads) := by
  funext q
  have hmem : ∀ r, r ∈ m.index.quadsForPattern (some q.subject) (some q.predicate) (some q.object) (filterOf q.graphName) ↔
      r ∈ c.quads ∧ r = q := by
    intro r
    rw [Index.mem_quadsForPattern h.index]
    obtain ⟨s, p, o, g⟩ := q
    obtain ⟨s', p', o', g'⟩ := r
    cases g <;> simp [Index.matchesTriple, Index.GraphFilter.admits, filterOf] <;> tauto
  unfold MemoryStorage.containsEncoded
  cases hl : m.index.quadsForPattern (some q.subject) (some q.predicate) (some q.object) (filterOf q.graphName) with
  | nil =>
    have hq : q ∉ c.quads := fun hq => by
      have := (hmem q).2 ⟨hq, rfl⟩
      rw [hl] at this
      cases this
    simp [hq]
  | cons r l =>
    obtain ⟨hr, rfl⟩ := (hmem r).1 (by rw [hl]; exact List.mem_cons_self)
    simp [hr]

variable {H : List (Nat × (EncodedQuad → Bool))} {peak : Nat}

/-- With a scope open, the moment it began at is among those so far. -/
def Begun (H : List (Nat × (EncodedQuad → Bool))) (m : MemoryStorage) (a : Storage.Scoped) : Prop :=
  m.undo.isSome = true → (m.generationAtBegin, fun q => decide (q ∈ a.base.quads)) ∈ H

structure Tracked (H : List (Nat × (EncodedQuad → Bool))) (peak : Nat) (m : MemoryStorage) : Prop where
  track : Track H peak m.moment
  sim : ∃ a, Sim m a ∧ Begun H m a

/-- A call after which the moment is one there was. -/
theorem Tracked.again (h : Tracked H peak m) (hm : m'.moment ∈ H) (hsim : Sim m' a) (hbegun : Begun H m' a) :
    Tracked (m'.moment :: H) (max peak m'.generation) m' :=
  ⟨h.track.again hm, a, hsim, fun hu => List.mem_cons_of_mem _ (hbegun hu)⟩

/-- A call that moved the generation on from the highest there was. -/
theorem Tracked.fresh (h : Tracked H peak m) (hm : peak < m'.generation) (hsim : Sim m' a) (hbegun : Begun H m' a) :
    Tracked (m'.moment :: H) (max peak m'.generation) m' :=
  ⟨h.track.fresh hm, a, hsim, fun hu => List.mem_cons_of_mem _ (hbegun hu)⟩

/-- A write moves the generation just if it was announced to, and changes nothing else of the
moment unless it does. -/
theorem write_moment (h : Sim m a) {op : Index.Op} (hdrop : ∀ g, op = .removeNamedGraph g → m.scan none none none (.named g) = []) :
    (m.advances (.op (.write op)) = true → m.generation < (m.write op).2.generation) ∧
      (m.advances (.op (.write op)) = false → (m.write op).2.moment = m.moment) := by
  have hwrote := write_wrote h.holds op
  have hcontains := h.holds.containsEncoded
  have hafter := hwrote.holds.containsEncoded
  have hmoment : moves a.current op = 0 → (a.current.apply op).quads = a.current.quads → (m.write op).2.moment = m.moment := by
    intro hmoves hquads
    unfold moment
    rw [hwrote.generation, hmoves, hafter, hquads, ← hcontains]
    rfl
  cases op with
  | insert q =>
    by_cases hq : q ∈ a.current.quads
    · refine ⟨fun hadv => ?_, fun _ => hmoment (by simp [moves, hq]) ?_⟩
      · simp [advances, hcontains, hq] at hadv
      · simp [Contents.apply, Contents.insert_of_mem hq]
    · refine ⟨fun _ => ?_, fun hadv => ?_⟩
      · rw [hwrote.generation]
        simp [moves, hq]
      · simp [advances, hcontains, hq] at hadv
  | remove q =>
    by_cases hq : q ∈ a.current.quads
    · refine ⟨fun _ => ?_, fun hadv => ?_⟩
      · rw [hwrote.generation]
        simp [moves, hq]
      · simp [advances, hcontains, hq] at hadv
    · refine ⟨fun hadv => ?_, fun _ => hmoment (by simp [moves, hq]) ?_⟩
      · simp [advances, hcontains, hq] at hadv
      · simp [Contents.apply, Contents.remove_of_not_mem hq]
  | insertNamedGraph g => exact ⟨fun hadv => (by cases hadv), fun _ => hmoment rfl rfl⟩
  | removeNamedGraph g =>
    refine ⟨fun hadv => (by cases hadv), fun _ => hmoment rfl ?_⟩
    refine Finset.filter_true_of_mem (fun q hq hg => ?_)
    -- a quad of the graph would have been scanned
    have hmem : q ∈ m.scan none none none (.named g) := by
      unfold scan
      rw [Index.mem_quadsForPattern h.holds.index]
      simp [hq, Index.matchesTriple, Index.GraphFilter.admits, hg]
    rw [hdrop g rfl] at hmem
    cases hmem

theorem Tracked.call (h : Tracked H peak m) {c : Storage.Call} {reply : Storage.Reply} (hc : Trusted peak m c)
    (hstep : m.call X c = some (reply, m')) : Tracked (m'.moment :: H) (peakAfter peak m c m') m' := by
  obtain ⟨a, hsim, hbegun⟩ := h.sim
  have hquiet : m' = m → Tracked (m'.moment :: H) (peakAfter peak m c m') m' := by
    rintro rfl
    exact h.again h.track.now hsim hbegun
  cases c with
  | beginBulkLoad | endBulkLoad | flush =>
    cases hstep
    exact hquiet rfl
  | op op =>
    have hsim' := (hsim.step hstep).1
    cases op with
    | encode t =>
      obtain ⟨⟨id, m₁⟩, he, heq⟩ := Option.map_eq_some_iff.1 hstep
      obtain ⟨⟨id', d⟩, -, hd⟩ := Option.map_eq_some_iff.1 he
      cases hd
      cases heq
      exact h.again h.track.now hsim' hbegun
    | write op =>
      cases hstep
      have hwrote := write_wrote hsim.holds op
      have hdrop : ∀ g, op = .removeNamedGraph g → m.scan none none none (.named g) = [] := fun g hg => hc.2 g (by rw [hg])
      obtain ⟨hup, hsame⟩ := write_moment hsim hdrop
      -- the scope's beginning is where it was
      have hbegun' : Begun H (m.write op).2 (a.step (.write op)) := by
        intro hu
        obtain ⟨es, hes, -⟩ := hwrote.journal
        rw [hes, Option.isSome_map] at hu
        obtain ⟨c₀, hc₀⟩ := Option.isSome_iff_exists.1 (hsim.scope ▸ hu)
        have hbase : (a.step (.write op)).base = a.base := by
          simp only [Storage.Scoped.step, Storage.Scoped.base, hc₀, Option.getD_some]
        rw [hwrote.began, hbase]
        exact hbegun hu
      cases hadv : m.advances (.op (.write op)) with
      | true =>
        refine h.fresh ?_ hsim' hbegun'
        rw [← hc.1 hadv]
        exact hup hadv
      | false =>
        refine h.again ?_ hsim' hbegun'
        rw [hsame hadv]
        exact h.track.now
    | begin =>
      simp only [MemoryStorage.call, MemoryStorage.step, MemoryStorage.begin] at hstep
      split_ifs at hstep with hu
      · cases hstep
        exact hquiet rfl
      · cases hstep
        refine h.again h.track.now hsim' (fun _ => ?_)
        have hsaved : a.saved.isSome = false := by rw [← hsim.scope]; simpa using hu
        have hbase : (a.step .begin).base = a.current := by
          simp [Storage.Scoped.step, Storage.Scoped.base, hsaved]
        rw [hbase, ← hsim.holds.containsEncoded]
        exact h.track.now
    | commit =>
      simp only [MemoryStorage.call, MemoryStorage.step, MemoryStorage.commit] at hstep
      split_ifs at hstep with hu
      · cases hstep
        exact h.again h.track.now hsim' (fun hu => by cases hu)
      · cases hstep
        exact hquiet rfl
    | rollback =>
      cases hstep
      cases hu : m.undo.isSome with
      | false => exact hquiet (by simp only [rollback, Option.not_isSome_iff_eq_none.1 (Bool.eq_false_iff.1 hu)])
      | true =>
        have hclosed : m.rollback.undo.isSome = false := by rw [hsim'.scope]; rfl
        refine h.again ?_ hsim' (fun hopen => by rw [hclosed] at hopen; cases hopen)
        unfold moment
        rw [rollback_generation hsim hu, hsim'.holds.containsEncoded]
        exact hbegun hu

theorem new_tracked : Tracked [new.moment] 0 new := ⟨.single _, _, new_sim, fun h => by cases h⟩

end MemoryStorage

end Holos
