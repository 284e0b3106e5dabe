import Holos.Lib.Worklist
import Mathlib.Data.Set.Card
/-!
# Bounded sweeps

A queue that is only added to. Its entries are visited in order, and what an entry leads to goes behind
the others if it was not met before. A sweep ends early at an entry that is looked for, and stops short
when the queue has grown to a bound.
-/

namespace Lib

variable {ν ε : Type} [DecidableEq ν]

/-- Visits the `i`th entry and those behind it. A visit gives what the entry leads to, or `none` where it finds what
is looked for. -/
def sweepFrom (visit : ν → Except ε (Option (List ν))) (bound : Nat) : Nat → List ν → List ν → Nat → Except ε (Option (List ν))
  | 0, _, queue, _ => .ok (some queue)
  | left + 1, seen, queue, i =>
    match queue[i]? with
    | none => .ok (some queue)
    | some current =>
      if bound ≤ queue.length then .ok (some queue) else
        match visit current with
        | .error e => .error e
        | .ok none => .ok none
        | .ok (some next) =>
          let st := next.foldl absorb (seen, [])
          sweepFrom visit bound left st.1 (queue ++ st.2) (i + 1)

/-- An entry is only visited while the queue is below the bound, so there are fewer visits than that. -/
def sweep (visit : ν → Except ε (Option (List ν))) (bound : Nat) (start : List ν) : Except ε (Option (List ν)) :=
  sweepFrom visit bound bound start start 0

/-- One entry leads to another. -/
def Spreads (visit : ν → Except ε (Option (List ν))) (a b : ν) : Prop := ∃ next, visit a = .ok (some next) ∧ b ∈ next

/-- Some entry of `start` leads to `m`, in any number of steps. -/
def SpreadTo (visit : ν → Except ε (Option (List ν))) (start : List ν) (m : ν) : Prop :=
  ∃ s ∈ start, Relation.ReflTransGen (Spreads visit) s m

/-- The entries of `start`, and others that are not among them. -/
structure Extends (start queue : List ν) : Prop where
  prefixed : start <+: queue
  nodup : (queue.drop start.length).Nodup
  apart : ∀ m ∈ queue.drop start.length, m ∉ start

/-- What a sweep ends with. A queue it leaves below the bound has all that its entries lead to. -/
def Swept (visit : ν → Except ε (Option (List ν))) (bound : Nat) (start : List ν) : Except ε (Option (List ν)) → Prop
  | .ok (some queue) => Extends start queue ∧ (∀ m ∈ queue, SpreadTo visit start m) ∧
      (queue.length < bound → ∀ m ∈ queue, ∃ next, visit m = .ok (some next) ∧ ∀ b ∈ next, b ∈ queue)
  | .ok none => ∃ m, SpreadTo visit start m ∧ visit m = .ok none
  | .error e => ∃ m, SpreadTo visit start m ∧ visit m = .error e

variable {visit : ν → Except ε (Option (List ν))} {bound left i : Nat} {start seen queue : List ν}

/-- A sweep that has visited the first `i` entries. -/
structure Sweeping (visit : ν → Except ε (Option (List ν))) (start seen queue : List ν) (i : Nat) : Prop where
  grown : Extends start queue
  known : ∀ m, m ∈ seen ↔ m ∈ queue
  reached : ∀ m ∈ queue, SpreadTo visit start m
  visited : ∀ m ∈ queue.take i, ∃ next, visit m = .ok (some next) ∧ ∀ b ∈ next, b ∈ queue

omit [DecidableEq ν] in
theorem Sweeping.begin : Sweeping visit start start start 0 where
  grown := ⟨List.prefix_refl start, by simp, by simp⟩
  known m := Iff.rfl
  reached m hm := ⟨m, hm, .refl⟩
  visited m hm := by cases hm

omit [DecidableEq ν] in
theorem Extends.append {new : List ν} (h : Extends start queue) (hn : new.Nodup) (hnew : ∀ m ∈ new, m ∉ queue) :
    Extends start (queue ++ new) := by
  have hle : start.length ≤ queue.length := h.prefixed.length_le
  refine ⟨h.prefixed.trans (List.prefix_append queue new), ?_, fun m hm => ?_⟩
  · rw [List.drop_append_of_le_length hle]
    refine List.nodup_append.2 ⟨h.nodup, hn, fun a ha b hb hab => ?_⟩
    subst hab
    exact hnew a hb (List.mem_of_mem_drop ha)
  · rw [List.drop_append_of_le_length hle] at hm
    rcases List.mem_append.1 hm with hm | hm
    · exact h.apart m hm
    · exact fun hs => hnew m hm (h.prefixed.subset hs)

omit [DecidableEq ν] in
theorem SpreadTo.next {m b : ν} {next : List ν} (h : SpreadTo visit start m) (hm : visit m = .ok (some next)) (hb : b ∈ next) :
    SpreadTo visit start b := by
  obtain ⟨s, hs, hsm⟩ := h
  exact ⟨s, hs, hsm.tail ⟨next, hm, hb⟩⟩

theorem Sweeping.step (h : Sweeping visit start seen queue i) {current : ν} (hi : queue[i]? = some current) {next : List ν}
    (hv : visit current = .ok (some next)) :
    Sweeping visit start (next.foldl absorb (seen, [])).1 (queue ++ (next.foldl absorb (seen, [])).2) (i + 1) := by
  obtain ⟨new, ha⟩ := absorbAll_absorbed next (seen, [])
  have hnew : (next.foldl absorb (seen, [])).2 = new := ha.out.trans (List.nil_append new)
  have hcurrent : current ∈ queue := List.mem_of_getElem? hi
  have hlt : i < queue.length := (List.getElem?_eq_some_iff.1 hi).1
  rw [hnew]
  refine ⟨h.grown.append ha.nodup ?_, fun m => ?_, fun m hm => ?_, fun m hm => ?_⟩
  · intro m hm hq
    exact ((ha.fresh m).1 hm).2 ((h.known m).2 hq)
  · rw [ha.mem, List.mem_append, ha.fresh, ← h.known]
    tauto
  · rcases List.mem_append.1 hm with hm | hm
    · exact h.reached m hm
    · exact (h.reached current hcurrent).next hv ((ha.fresh m).1 hm).1
  · rw [List.take_append_of_le_length hlt, List.take_add_one, hi] at hm
    rcases List.mem_append.1 hm with hm | hm
    · obtain ⟨next', hm', hb⟩ := h.visited m hm
      exact ⟨next', hm', fun b hb' => List.mem_append_left _ (hb b hb')⟩
    · obtain rfl : m = current := by simpa using hm
      refine ⟨next, hv, fun b hb => ?_⟩
      have := (ha.mem b).2 (.inr hb)
      by_cases hq : b ∈ queue
      · exact List.mem_append_left _ hq
      · exact List.mem_append_right _ ((ha.fresh b).2 ⟨hb, fun hs => hq ((h.known b).1 hs)⟩)

/-- Below the bound the sweep has visited every entry by the time it stops. -/
theorem sweepFrom_swept (h : Sweeping visit start seen queue i) (hleft : bound ≤ left + i) :
    Swept visit bound start (sweepFrom visit bound left seen queue i) := by
  have hdone : (queue.length < bound → queue.length ≤ i) → Swept visit bound start (.ok (some queue)) := by
    intro hi
    refine ⟨h.grown, h.reached, fun hlt m hm => h.visited m ?_⟩
    rwa [List.take_of_length_le (hi hlt)]
  induction left generalizing seen queue i with
  | zero => exact hdone (by omega)
  | succ left ih =>
    unfold sweepFrom
    cases hi : queue[i]? with
    | none => exact hdone (fun _ => List.getElem?_eq_none_iff.1 hi)
    | some current =>
      dsimp only
      have hcurrent := h.reached current (List.mem_of_getElem? hi)
      split
      · exact hdone (by omega)
      · cases hv : visit current with
        | error e => exact ⟨current, hcurrent, hv⟩
        | ok found =>
          cases found with
          | none => exact ⟨current, hcurrent, hv⟩
          | some next =>
            have hnext := h.step hi hv
            refine ih hnext (by omega) (fun hlen => ⟨hnext.grown, hnext.reached, fun hlt m hm => hnext.visited m ?_⟩)
            rwa [List.take_of_length_le (hlen hlt)]

theorem sweep_swept (visit : ν → Except ε (Option (List ν))) (bound : Nat) (start : List ν) :
    Swept visit bound start (sweep visit bound start) :=
  sweepFrom_swept .begin (by omega)

/-! ## Sweeps along a relation -/

/-- What a visit gives are the successors of a relation. -/
def Along (R : ν → ν → Prop) (visit : ν → Except ε (Option (List ν))) : Prop :=
  ∀ a next, visit a = .ok (some next) → ∀ b, b ∈ next ↔ R a b

/-- Some entry of `start` reaches `m`. -/
def ReachedFrom (R : ν → ν → Prop) (start : List ν) (m : ν) : Prop := ∃ s ∈ start, Relation.ReflTransGen R s m

variable {R : ν → ν → Prop}

omit [DecidableEq ν] in
theorem SpreadTo.reachedFrom (h : Along R visit) {m : ν} (hm : SpreadTo visit start m) : ReachedFrom R start m := by
  obtain ⟨s, hs, hsm⟩ := hm
  refine ⟨s, hs, ?_⟩
  induction hsm with
  | refl => exact .refl
  | tail _ hab ih =>
    obtain ⟨next, ha, hb⟩ := hab
    exact ih.tail ((h _ next ha _).1 hb)

/-- Where few enough entries can be met, the queue stays below the bound. -/
theorem Swept.below [Finite ν] (h : Swept visit bound start (.ok (some queue))) (hR : Along R visit)
    (hfew : start.length + {m | ReachedFrom R start m ∧ m ∉ start}.ncard < bound) : queue.length < bound := by
  obtain ⟨hgrown, hreached, -⟩ := h
  have hsub : ((queue.drop start.length).toFinset : Set ν) ⊆ {m | ReachedFrom R start m ∧ m ∉ start} := by
    intro m hm
    have hm : m ∈ queue.drop start.length := List.mem_toFinset.1 hm
    exact ⟨(hreached m (List.mem_of_mem_drop hm)).reachedFrom hR, hgrown.apart m hm⟩
  have hlen := Set.ncard_le_ncard hsub (Set.toFinite _)
  rw [Set.ncard_coe_finset, List.toFinset_card_of_nodup hgrown.nodup, List.length_drop] at hlen
  omega

/-- A sweep that finds nothing only met what `start` reaches, and visited all of it where that is few enough. -/
theorem sweep_some [Finite ν] (hR : Along R visit) (h : sweep visit bound start = .ok (some queue)) :
    (∀ m ∈ queue, ReachedFrom R start m) ∧ (start.length + {m | ReachedFrom R start m ∧ m ∉ start}.ncard < bound →
      ∀ m, ReachedFrom R start m → m ∈ queue ∧ ∃ next, visit m = .ok (some next)) := by
  have hswept := sweep_swept visit bound start
  rw [h] at hswept
  refine ⟨fun m hm => (hswept.2.1 m hm).reachedFrom hR, fun hfew => ?_⟩
  have hclosed := hswept.2.2 (hswept.below hR hfew)
  rintro m ⟨s, hs, hsm⟩
  have hm : m ∈ queue := by
    induction hsm with
    | refl => exact hswept.1.prefixed.subset hs
    | tail _ hab ih =>
      obtain ⟨next, ha, hall⟩ := hclosed _ ih
      exact hall _ ((hR _ next ha _).2 hab)
  obtain ⟨next, hnext, -⟩ := hclosed m hm
  exact ⟨hm, next, hnext⟩

/-- A sweep finds what it looks for at an entry that `start` reaches. -/
theorem sweep_none (hR : Along R visit) (h : sweep visit bound start = .ok none) : ∃ m, ReachedFrom R start m ∧ visit m = .ok none := by
  have hswept := sweep_swept visit bound start
  rw [h] at hswept
  obtain ⟨m, hm, hv⟩ := hswept
  exact ⟨m, hm.reachedFrom hR, hv⟩

theorem sweep_error {e : ε} (h : sweep visit bound start = .error e) : ∃ m, visit m = .error e := by
  have hswept := sweep_swept visit bound start
  rw [h] at hswept
  obtain ⟨m, -, hv⟩ := hswept
  exact ⟨m, hv⟩

/-- A queue that has the bound to begin with is not swept at all. -/
theorem sweep_long (h : bound ≤ start.length) : sweep visit bound start = .ok (some start) := by
  unfold sweep
  cases bound with
  | zero => rfl
  | succ bound =>
    unfold sweepFrom
    cases start[0]? with
    | none => rfl
    | some current => exact if_pos h

end Lib
