import Mathlib.Algebra.BigOperators.Group.Finset.Basic
import Mathlib.Algebra.Order.BigOperators.Group.Finset
import Mathlib.Data.Fintype.Basic
import Mathlib.Logic.Relation
/-!
# Worklists

Sets as lists without repetitions: `absorb` adds to one and says what was new. `walk` reaches what
can be reached from a stack, popping a node and pushing its successors; `cost` bounds the steps it
takes where the successors stay in a finite set. `drain` is a walk that marks what it pushes, and ends
early where a node cannot be read.
-/

namespace Lib

variable {α : Type*} [DecidableEq α]

/-! ## Adding to a set -/

/-- What is in the set already is let go; what is not is reported, behind what was reported before. -/
def absorb (st : List α × List α) (a : α) : List α × List α := if a ∈ st.1 then st else (a :: st.1, st.2 ++ [a])

/-- What absorbing `xs` does: `new` was not there before. -/
structure Absorbed (st : List α × List α) (xs new : List α) (st' : List α × List α) : Prop where
  mem : ∀ x, x ∈ st'.1 ↔ x ∈ st.1 ∨ x ∈ xs
  out : st'.2 = st.2 ++ new
  fresh : ∀ x, x ∈ new ↔ x ∈ xs ∧ x ∉ st.1
  nodup : new.Nodup
  known : st.1.Nodup → st'.1.Nodup
  length : st'.1.length = st.1.length + new.length

theorem absorb_absorbed (st : List α × List α) (a : α) : ∃ new, Absorbed st [a] new (absorb st a) := by
  unfold absorb
  split
  · rename_i h
    refine ⟨[], fun x => ?_, by simp, fun x => ?_, .nil, id, rfl⟩
    · refine ⟨.inl, fun hx => hx.elim id (fun hx => ?_)⟩
      rw [List.mem_singleton.1 hx]
      exact h
    · refine ⟨fun hx => (by cases hx), fun ⟨hx, hno⟩ => absurd ?_ hno⟩
      rw [List.mem_singleton.1 hx]
      exact h
  · rename_i h
    refine ⟨[a], fun x => ?_, rfl, fun x => ?_, List.nodup_singleton a, fun hn => List.nodup_cons.2 ⟨h, hn⟩, by simp⟩
    · rw [List.mem_cons, List.mem_singleton, or_comm]
    · refine ⟨fun hx => ⟨hx, ?_⟩, fun hx => hx.1⟩
      rw [List.mem_singleton.1 hx]
      exact h

theorem absorbAll_absorbed (xs : List α) (st : List α × List α) : ∃ new, Absorbed st xs new (xs.foldl absorb st) := by
  induction xs generalizing st with
  | nil => exact ⟨[], fun x => by simp, by simp, fun x => by simp, .nil, id, rfl⟩
  | cons a xs ih =>
    obtain ⟨new₁, h₁⟩ := absorb_absorbed st a
    obtain ⟨new₂, h₂⟩ := ih (absorb st a)
    refine ⟨new₁ ++ new₂, fun x => ?_, ?_, fun x => ?_, ?_, fun hn => h₂.known (h₁.known hn), ?_⟩
    · simp only [List.foldl_cons, h₂.mem, h₁.mem, List.mem_cons, List.not_mem_nil, or_false, or_assoc]
    · rw [List.foldl_cons, h₂.out, h₁.out, List.append_assoc]
    · simp only [List.mem_append, h₁.fresh, h₂.fresh, h₁.mem, List.mem_cons, List.not_mem_nil, or_false]
      tauto
    · refine List.nodup_append.2 ⟨h₁.nodup, h₂.nodup, fun x hx y hy heq => ?_⟩
      subst heq
      exact ((h₂.fresh x).1 hy).2 ((h₁.mem x).2 (.inr ((h₁.fresh x).1 hx).1))
    · rw [List.foldl_cons, h₂.length, h₁.length, List.length_append, Nat.add_assoc]

/-! ## Reaching -/

section
variable (succ : α → List α)

/-- A walk from a stack, its top first. The steps are counted. -/
def walk : Nat → List α → List α → List α
  | 0, _, reached => reached
  | _ + 1, [], reached => reached
  | n + 1, x :: stack, reached => if x ∈ reached then walk n stack reached else walk n (succ x ++ stack) (x :: reached)

/-- The steps a walk within `U` may take yet. -/
def cost (U : Finset α) (stack reached : List α) : Nat := stack.length + ∑ x ∈ U with x ∉ reached, (succ x).length

variable {succ} {U : Finset α} {n : Nat} {stack reached : List α}

/-- A node met for the first time pays for its successors. -/
theorem cost_expand {x : α} (hx : x ∈ U) (hnew : x ∉ reached) :
    cost succ U (succ x ++ stack) (x :: reached) + 1 = cost succ U (x :: stack) reached := by
  have hsplit : (U.filter (fun y => y ∉ reached)) = insert x (U.filter (fun y => y ∉ x :: reached)) := by
    ext y
    by_cases hy : y = x
    · subst hy
      simp [hx, hnew]
    · simp [hy]
  have hnot : x ∉ U.filter (fun y => y ∉ x :: reached) := by simp
  unfold cost
  rw [hsplit, Finset.sum_insert hnot, List.length_append, List.length_cons]
  omega

/-- A walk only comes to what was there, and to successors. -/
theorem mem_walk_cases {x : α} (hx : x ∈ walk succ n stack reached) : x ∈ reached ∨ x ∈ stack ∨ ∃ y, x ∈ succ y := by
  induction n generalizing stack reached with
  | zero => exact .inl hx
  | succ n ih =>
    cases stack with
    | nil => exact .inl hx
    | cons a stack =>
      unfold walk at hx
      split at hx
      · exact (ih hx).imp_right (Or.imp_left (List.mem_cons_of_mem a))
      · rcases ih hx with h | h | h
        · rcases List.mem_cons.1 h with rfl | h
          · exact .inr (.inl List.mem_cons_self)
          · exact .inl h
        · rcases List.mem_append.1 h with h | h
          · exact .inr (.inr ⟨a, h⟩)
          · exact .inr (.inl (List.mem_cons_of_mem a h))
        · exact .inr (.inr h)

/-- What a walk ends with, if it may take the steps it needs. -/
structure Walked (succ : α → List α) (stack reached out : List α) : Prop where
  sound : ∀ x ∈ out, x ∈ reached ∨ ∃ s ∈ stack, Relation.ReflTransGen (fun a b => b ∈ succ a) s x
  keeps : ∀ x ∈ reached, x ∈ out
  visits : ∀ x ∈ stack, x ∈ out
  closed : (∀ a ∈ reached, ∀ b ∈ succ a, b ∈ reached ∨ b ∈ stack) → ∀ a ∈ out, ∀ b ∈ succ a, b ∈ out

theorem walk_walked (hU : ∀ x ∈ U, ∀ y ∈ succ x, y ∈ U) (hstack : ∀ x ∈ stack, x ∈ U) (hn : cost succ U stack reached < n) :
    Walked succ stack reached (walk succ n stack reached) := by
  induction n generalizing stack reached with
  | zero => exact absurd hn (Nat.not_lt_zero _)
  | succ n ih =>
    cases stack with
    | nil =>
      refine ⟨fun x hx => .inl hx, fun x hx => hx, fun x hx => (by cases hx), fun h a ha b hb => ?_⟩
      exact (h a ha b hb).elim id (fun hb => by cases hb)
    | cons x stack =>
      unfold walk
      split
      · rename_i hx
        have hcost : cost succ U stack reached < n := by
          unfold cost at hn ⊢
          rw [List.length_cons] at hn
          omega
        have h := ih (fun y hy => hstack y (List.mem_cons_of_mem x hy)) hcost
        refine ⟨fun y hy => ?_, h.keeps, fun y hy => ?_, fun hinv => h.closed (fun a ha b hb => ?_)⟩
        · exact (h.sound y hy).imp_right (fun ⟨s, hs, hr⟩ => ⟨s, List.mem_cons_of_mem x hs, hr⟩)
        · rcases List.mem_cons.1 hy with rfl | hy
          · exact h.keeps y hx
          · exact h.visits y hy
        · rcases hinv a ha b hb with hb | hb
          · exact .inl hb
          · rcases List.mem_cons.1 hb with rfl | hb
            · exact .inl hx
            · exact .inr hb
      · rename_i hx
        have hxU := hstack x List.mem_cons_self
        have hcost : cost succ U (succ x ++ stack) (x :: reached) < n := by
          have : cost succ U (succ x ++ stack) (x :: reached) + 1 = cost succ U (x :: stack) reached := cost_expand hxU hx
          omega
        have h := ih (fun y hy => (List.mem_append.1 hy).elim (hU x hxU y) (fun hy => hstack y (List.mem_cons_of_mem x hy))) hcost
        refine ⟨fun y hy => ?_, fun y hy => h.keeps y (List.mem_cons_of_mem x hy), fun y hy => ?_, fun hinv => h.closed (fun a ha b hb => ?_)⟩
        · rcases h.sound y hy with hy | ⟨s, hs, hr⟩
          · rcases List.mem_cons.1 hy with rfl | hy
            · exact .inr ⟨y, List.mem_cons_self, .refl⟩
            · exact .inl hy
          · rcases List.mem_append.1 hs with hs | hs
            · exact .inr ⟨x, List.mem_cons_self, .head hs hr⟩
            · exact .inr ⟨s, List.mem_cons_of_mem x hs, hr⟩
        · rcases List.mem_cons.1 hy with rfl | hy
          · exact h.keeps y List.mem_cons_self
          · exact h.visits y (List.mem_append_right _ hy)
        · rcases List.mem_cons.1 ha with rfl | ha
          · exact .inr (List.mem_append_left _ hb)
          · rcases hinv a ha b hb with hb | hb
            · exact .inl (List.mem_cons_of_mem x hb)
            · rcases List.mem_cons.1 hb with rfl | hb
              · exact .inl List.mem_cons_self
              · exact .inr (List.mem_append_right _ hb)

/-- A walk reaches what can be reached. -/
theorem mem_walk (hU : ∀ x ∈ U, ∀ y ∈ succ x, y ∈ U) (hstack : ∀ x ∈ stack, x ∈ U) (hn : cost succ U stack [] < n) {x : α} :
    x ∈ walk succ n stack [] ↔ ∃ s ∈ stack, Relation.ReflTransGen (fun a b => b ∈ succ a) s x := by
  have h := walk_walked hU hstack hn
  constructor
  · intro hx
    exact (h.sound x hx).elim (fun hx => by cases hx) id
  · rintro ⟨s, hs, hr⟩
    have hclosed := h.closed (fun a ha => by cases ha)
    induction hr with
    | refl => exact h.visits s hs
    | tail _ hb ih => exact hclosed _ ih _ hb

end

/-! ## Draining, where reading a node may fail -/

section
variable {ν ε : Type} [DecidableEq ν]

/-- Nodes are popped one after another, and what a node leads to is reported and pushed if it was not met before.
`none` while there is more to do. -/
def drain (succ : ν → ExceptT ε Option (List ν)) : Nat → List ν → List ν → List ν → ExceptT ε Option (List ν)
  | 0, _, _, _ => ExceptT.mk none
  | _ + 1, _, [], out => pure out
  | n + 1, met, x :: stack, out => do
    let next ← succ x
    let st := next.foldl absorb (met, [])
    drain succ n st.1 (st.2.reverse ++ stack) (out ++ st.2)

/-- A reading that does not run on. -/
def reading (f : ν → Except ε (List ν)) (x : ν) : ExceptT ε Option (List ν) := ExceptT.mk (some (f x))

variable {f : ν → Except ε (List ν)} {n : Nat} {met stack out : List ν}

theorem drain_cons {x : ν} : drain (reading f) (n + 1) met (x :: stack) out = match f x with
    | .ok next => drain (reading f) n (next.foldl absorb (met, [])).1 ((next.foldl absorb (met, [])).2.reverse ++ stack)
        (out ++ (next.foldl absorb (met, [])).2)
    | .error e => ExceptT.mk (some (.error e)) := by
  change ((reading f x) >>= fun next => drain (reading f) n (next.foldl absorb (met, [])).1
    ((next.foldl absorb (met, [])).2.reverse ++ stack) (out ++ (next.foldl absorb (met, [])).2)) = _
  unfold reading
  cases f x <;> rfl

/-- What is reported comes behind what was reported before. -/
theorem drain_out (before : List ν) : drain (reading f) n met stack (before ++ out) =
    ExceptT.mk ((drain (reading f) n met stack out).run.map (Except.map (before ++ ·))) := by
  induction n generalizing met stack out with
  | zero => rfl
  | succ n ih =>
    cases stack with
    | nil => rfl
    | cons x stack =>
      rw [drain_cons, drain_cons]
      cases f x with
      | ok next => exact (congrArg _ (List.append_assoc _ _ _)).trans ih
      | error e => rfl

/-- A walk that has come to its end stays there. -/
theorem drain_mono {g : Except ε (List ν)} (h : drain (reading f) n met stack out = ExceptT.mk (some g)) :
    drain (reading f) (n + 1) met stack out = ExceptT.mk (some g) := by
  induction n generalizing met stack out with
  | zero => cases h
  | succ n ih =>
    cases stack with
    | nil => exact h
    | cons x stack =>
      rw [drain_cons] at h ⊢
      cases hx : f x with
      | ok next =>
        rw [hx] at h
        exact ih h
      | error e =>
        rw [hx] at h
        exact h

/-- One node leads to another. -/
def LeadsTo (f : ν → Except ε (List ν)) (a b : ν) : Prop := ∃ next, f a = .ok next ∧ b ∈ next

/-- What a walk from `start` ends with: all it leads to, if all of it can be read. -/
def Drained (f : ν → Except ε (List ν)) (start : ν) : Except ε (List ν) → Prop
  | .ok out => (∀ m, m ∈ out ↔ Relation.TransGen (LeadsTo f) start m) ∧
      ∀ m, Relation.ReflTransGen (LeadsTo f) start m → ∃ next, f m = .ok next
  | .error e => ∃ m, Relation.ReflTransGen (LeadsTo f) start m ∧ f m = .error e

/-- Where a walk is: everything met is reported, and is on the stack still or read. -/
structure Draining (f : ν → Except ε (List ν)) (start : ν) (met stack out : List ν) : Prop where
  reached : ∀ m ∈ met, Relation.TransGen (LeadsTo f) start m
  pushed : ∀ m ∈ stack, m = start ∨ m ∈ met
  read : ∀ m, m = start ∨ m ∈ met → m ∉ stack → ∃ next, f m = .ok next ∧ ∀ b ∈ next, b ∈ met
  out : ∀ m, m ∈ out ↔ m ∈ met

variable {start : ν}

omit [DecidableEq ν] in
theorem Draining.begin : Draining f start [] [start] [] where
  reached m hm := by cases hm
  pushed m hm := .inl (List.mem_singleton.1 hm)
  read m hm hno := by
    rcases hm with rfl | hm
    · exact absurd (List.mem_singleton_self m) hno
    · cases hm
  out m := Iff.rfl

omit [DecidableEq ν] in
theorem Draining.reflTransGen (h : Draining f start met stack out) {m : ν} (hm : m = start ∨ m ∈ met) :
    Relation.ReflTransGen (LeadsTo f) start m := by
  rcases hm with rfl | hm
  · exact .refl
  · exact (h.reached m hm).to_reflTransGen

theorem Draining.step {x : ν} (h : Draining f start met (x :: stack) out) {next : List ν} (hx : f x = .ok next) :
    Draining f start (next.foldl absorb (met, [])).1 ((next.foldl absorb (met, [])).2.reverse ++ stack)
      (out ++ (next.foldl absorb (met, [])).2) := by
  obtain ⟨new, ha⟩ := absorbAll_absorbed next (met, [])
  have hnew : (next.foldl absorb (met, [])).2 = new := ha.out.trans (List.nil_append new)
  have hstart := h.pushed x List.mem_cons_self
  have hmet : ∀ m, m ∈ (next.foldl absorb (met, [])).1 ↔ m ∈ met ∨ m ∈ new := by
    intro m
    rw [ha.mem, ha.fresh]
    tauto
  rw [hnew]
  refine ⟨fun m hm => ?_, fun m hm => ?_, fun m hm hno => ?_, fun m => ?_⟩
  · rcases (hmet m).1 hm with hm | hm
    · exact h.reached m hm
    · exact Relation.TransGen.tail' (h.reflTransGen hstart) ⟨next, hx, ((ha.fresh m).1 hm).1⟩
  · rcases List.mem_append.1 hm with hm | hm
    · exact .inr ((hmet m).2 (.inr (List.mem_reverse.1 hm)))
    · exact (h.pushed m (List.mem_cons_of_mem x hm)).imp_right (fun hm => (hmet m).2 (.inl hm))
  · have hnot : m ∉ new ∧ m ∉ stack := by
      refine ⟨fun hmem => hno (List.mem_append_left _ (List.mem_reverse.2 hmem)), fun hmem => hno (List.mem_append_right _ hmem)⟩
    have hold : m = start ∨ m ∈ met := hm.imp_right (fun hm => ((hmet m).1 hm).resolve_right hnot.1)
    by_cases heq : m = x
    · subst heq
      refine ⟨next, hx, fun b hb => (ha.mem b).2 (.inr hb)⟩
    · obtain ⟨next', hm', hb⟩ := h.read m hold (by simp [heq, hnot.2])
      exact ⟨next', hm', fun b hb' => (hmet b).2 (.inl (hb b hb'))⟩
  · rw [List.mem_append, h.out, hmet]

omit [DecidableEq ν] in
/-- A walk with an empty stack is done. -/
theorem Draining.drained (h : Draining f start met [] out) : Drained f start (.ok out) := by
  have hclosed : ∀ m, m = start ∨ m ∈ met → ∀ b, LeadsTo f m b → b ∈ met := by
    rintro m hm b ⟨next, hnext, hb⟩
    obtain ⟨next', hnext', hall⟩ := h.read m hm List.not_mem_nil
    rw [hnext] at hnext'
    cases hnext'
    exact hall b hb
  refine ⟨fun m => ⟨fun hm => h.reached m ((h.out m).1 hm), fun hm => (h.out m).2 ?_⟩, fun m hm => ?_⟩
  · induction hm with
    | single hab => exact hclosed start (.inl rfl) _ hab
    | tail _ hbc ih => exact hclosed _ (.inr ih) _ hbc
  · have hin : m = start ∨ m ∈ met := by
      induction hm with
      | refl => exact .inl rfl
      | tail _ hbc ih => exact .inr (hclosed _ ih _ hbc)
    obtain ⟨next, hnext, -⟩ := h.read m hin List.not_mem_nil
    exact ⟨next, hnext⟩

/-- Where there are finitely many nodes, a walk ends. -/
theorem drain_ends [Fintype ν] (h : Draining f start met stack out) (hn : (Finset.univ.filter (fun x => x ∉ met)).card + stack.length < n) :
    ∃ g, drain (reading f) n met stack out = ExceptT.mk (some g) ∧ Drained f start g := by
  induction n generalizing met stack out with
  | zero => exact absurd hn (Nat.not_lt_zero _)
  | succ n ih =>
    cases stack with
    | nil => exact ⟨.ok out, rfl, h.drained⟩
    | cons x stack =>
      rw [drain_cons]
      cases hx : f x with
      | error e => exact ⟨.error e, rfl, x, h.reflTransGen (h.pushed x List.mem_cons_self), hx⟩
      | ok next =>
        refine ih (h.step hx) ?_
        obtain ⟨new, ha⟩ := absorbAll_absorbed next (met, [])
        have hnew : (next.foldl absorb (met, [])).2 = new := ha.out.trans (List.nil_append new)
        -- what is new was not met before
        have hcard : (Finset.univ.filter (fun y => y ∉ (next.foldl absorb (met, [])).1)).card + new.length ≤
            (Finset.univ.filter (fun y => y ∉ met)).card := by
          rw [← List.toFinset_card_of_nodup ha.nodup, ← Finset.card_union_of_disjoint]
          · refine Finset.card_le_card (fun y hy => ?_)
            rw [Finset.mem_filter]
            rcases Finset.mem_union.1 hy with hy | hy
            · exact ⟨Finset.mem_univ y, fun hmem => (Finset.mem_filter.1 hy).2 ((ha.mem y).2 (.inl hmem))⟩
            · exact ⟨Finset.mem_univ y, ((ha.fresh y).1 (List.mem_toFinset.1 hy)).2⟩
          · refine Finset.disjoint_left.2 (fun y hy hmem => (Finset.mem_filter.1 hy).2 ((ha.mem y).2 (.inr ?_)))
            exact ((ha.fresh y).1 (List.mem_toFinset.1 hmem)).1
        rw [hnew, List.length_append, List.length_reverse]
        rw [List.length_cons] at hn
        omega

end

end Lib
