import Holos.Shacl.Paths
import Holos.Store.MemoryBackend
/-!
# What a path leads to

A compiled path refers to earlier ones only, so it stands for a path expression. With enough steps a
walk ends, whatever cycles the data has, in all the expression leads to or where it comes to the
inverse of a path that is not one predicate.
-/

namespace Holos.Shacl

open Lib Lib.Eff

/-! ## Compiled paths -/

/-- Paths refer to earlier ones. -/
def Compiled (paths : List Path) : Prop := ∀ (i : PathIdx) (p : Path), paths[i]? = some p → ∀ j ∈ p.inner, j < i

theorem Compiled.nil : Compiled [] := by
  intro i p hp
  cases hp

theorem Compiled.append {paths : List Path} (h : Compiled paths) {path : Path} (hinner : ∀ j ∈ path.inner, j < paths.length) :
    Compiled (paths ++ [path]) := by
  intro i p hp j hj
  rw [List.getElem?_append] at hp
  split at hp
  · exact h i p hp j hj
  · rename_i hi
    have hpath : p = path := by
      rw [List.getElem?_singleton] at hp
      split at hp
      · exact (Option.some.inj hp).symm
      · cases hp
    rw [hpath] at hj
    exact lt_of_lt_of_le (hinner j hj) (not_lt.1 hi)

namespace Compiler

variable {B : Backend} {graph : GraphView B} {sh : Sh} {paths : List Path}

/-- An index into compiled paths, which only grew. -/
def Grew (paths : List Path) (idx : PathIdx) (paths' : List Path) : Prop :=
  Compiled paths' ∧ paths.length ≤ paths'.length ∧ idx < paths'.length

theorem pushPath_wp (h : Compiled paths) {path : Path} (hinner : ∀ j ∈ path.inner, j < paths.length) :
    wp (pushPath path) (Grew paths) (fun _ _ => True) paths := by
  refine wp_of (fun idx paths' hrun => ?_) (fun e paths' hrun => by cases hrun)
  cases hrun
  refine ⟨h.append hinner, ?_, ?_⟩
  · simp
  · rw [List.length_append, List.length_singleton]
    exact Nat.lt_succ_of_le (Nat.min_le_left _ _)

theorem Grew.trans {paths' paths'' : List Path} {idx : PathIdx} (h : Grew paths' idx paths'') (hle : paths.length ≤ paths'.length) :
    Grew paths idx paths'' :=
  ⟨h.1, hle.trans h.2.1, h.2.2⟩

theorem read_wp {α : Type} {r : Except StorageError α} {Q : α → List Path → Prop} (hQ : ∀ a, Q a paths) :
    wp (read r) Q (fun _ _ => True) paths :=
  wp_reads (fun a _ => hQ a) (fun _ _ => trivial)

/-- A compiled path refers to earlier ones. -/
theorem compilePath_wp (left : Nat) (node : TermId) (h : Compiled paths) :
    wp (compilePath graph sh left node) (Grew paths) (fun _ _ => True) paths := by
  induction left generalizing node paths with
  | zero => exact wp_throw trivial
  | succ left ih =>
    have hone : ∀ {inner : TermId} {make : PathIdx → Path}, (∀ i, (make i).inner = [i]) →
        wp (do return ← pushPath (make (← compilePath graph sh left inner))) (Grew paths) (fun _ _ => True) paths := by
      intro inner make hmake
      apply wp_bind
      refine (ih inner h).mono (fun i paths' hi => ?_) (fun _ _ h => h)
      refine (pushPath_wp hi.1 (fun j hj => ?_)).mono (fun idx _ hidx => hidx.trans hi.2.1) (fun _ _ h => h)
      rw [hmake, List.mem_singleton] at hj
      rw [hj]
      exact hi.2.2
    have hmany : ∀ {members : List TermId} {make : List PathIdx → Path}, (∀ is, (make is).inner = is) →
        wp (do
          let compiled ← members.foldlM (fun compiled m => return compiled ++ [← compilePath graph sh left m]) []
          return ← pushPath (make compiled)) (Grew paths) (fun _ _ => True) paths := by
      intro members make hmake
      apply wp_bind
      refine (wp_foldlM (I := fun _ compiled paths' => Compiled paths' ∧ paths.length ≤ paths'.length ∧ ∀ i ∈ compiled, i < paths'.length)
        ⟨h, le_rfl, fun i hi => by cases hi⟩ ?_).mono (fun compiled paths' hc => ?_) (fun _ _ h => h)
      · rintro done m rest compiled paths₁ - ⟨h₁, hle₁, hlt₁⟩
        apply wp_bind
        refine (ih m h₁).mono (fun i paths₂ h₂ => wp_pure ⟨h₂.1, hle₁.trans h₂.2.1, fun j hj => ?_⟩) (fun _ _ h => h)
        rcases List.mem_append.1 hj with hj | hj
        · exact lt_of_lt_of_le (hlt₁ j hj) h₂.2.1
        · rw [List.mem_singleton.1 hj]
          exact h₂.2.2
      · obtain ⟨hcompiled, hle, hlt⟩ := hc
        refine (pushPath_wp hcompiled (fun j hj => ?_)).mono (fun idx _ hidx => hidx.trans hle) (fun _ _ h => h)
        rw [hmake] at hj
        exact hlt j hj
    unfold compilePath
    apply wp_ite
    · intro _
      exact pushPath_wp h (fun j hj => by cases hj)
    · intro _
      apply wp_bind
      refine read_wp (fun first => ?_)
      apply wp_ite
      · intro _
        apply wp_bind
        exact read_wp (fun members => hmany (fun _ => rfl))
      · intro _
        -- the four keyed forms, each tried if the one before was not there
        apply wp_bind
        refine read_wp (fun o => ?_)
        split
        · exact hone (fun _ => rfl)
        apply wp_bind
        refine read_wp (fun o => ?_)
        split
        · exact hone (fun _ => rfl)
        apply wp_bind
        refine read_wp (fun o => ?_)
        split
        · exact hone (fun _ => rfl)
        apply wp_bind
        refine read_wp (fun o => ?_)
        split
        · exact hone (fun _ => rfl)
        apply wp_bind
        refine read_wp (fun o => ?_)
        split
        · apply wp_bind
          exact read_wp (fun members => hmany (fun _ => rfl))
        · exact wp_throw trivial

end Compiler

/-- What a compiled path stands for. -/
inductive Denotes (paths : List Path) : PathIdx → PathExpr TermId → Prop where
  | predicate {i p} (h : paths[i]? = some (.predicate p)) : Denotes paths i (.predicate p)
  | inverse {i j r} (h : paths[i]? = some (.inverse j)) (hj : Denotes paths j r) : Denotes paths i (.inverse r)
  | sequence {i js rs} (h : paths[i]? = some (.sequence js)) (hjs : List.Forall₂ (Denotes paths) js rs) : Denotes paths i (.sequence rs)
  | alternative {i js rs} (h : paths[i]? = some (.alternative js)) (hjs : List.Forall₂ (Denotes paths) js rs) :
      Denotes paths i (.alternative rs)
  | zeroOrMore {i j r} (h : paths[i]? = some (.zeroOrMore j)) (hj : Denotes paths j r) : Denotes paths i (.zeroOrMore r)
  | oneOrMore {i j r} (h : paths[i]? = some (.oneOrMore j)) (hj : Denotes paths j r) : Denotes paths i (.oneOrMore r)
  | zeroOrOne {i j r} (h : paths[i]? = some (.zeroOrOne j)) (hj : Denotes paths j r) : Denotes paths i (.zeroOrOne r)

/-- Every compiled path stands for an expression. -/
theorem Compiled.denotes {paths : List Path} (h : Compiled paths) {i : PathIdx} (hi : i < paths.length) : ∃ r, Denotes paths i r := by
  induction i using Nat.strong_induction_on with
  | _ i ih =>
    obtain ⟨p, hp⟩ : ∃ p, paths[i]? = some p := ⟨_, List.getElem?_eq_getElem hi⟩
    have hone : ∀ j ∈ p.inner, ∃ r, Denotes paths j r := fun j hj => ih j (h i p hp j hj) ((h i p hp j hj).trans hi)
    have hmany : ∀ js : List PathIdx, (∀ j ∈ js, ∃ r, Denotes paths j r) → ∃ rs, List.Forall₂ (Denotes paths) js rs := by
      intro js
      induction js with
      | nil => exact fun _ => ⟨[], .nil⟩
      | cons j js ihjs =>
        intro hjs
        obtain ⟨r, hr⟩ := hjs j List.mem_cons_self
        obtain ⟨rs, hrs⟩ := ihjs (fun j' hj' => hjs j' (List.mem_cons_of_mem j hj'))
        exact ⟨r :: rs, .cons hr hrs⟩
    cases p with
    | predicate p => exact ⟨_, .predicate hp⟩
    | inverse j =>
      obtain ⟨r, hr⟩ := hone j List.mem_cons_self
      exact ⟨_, .inverse hp hr⟩
    | sequence js =>
      obtain ⟨rs, hrs⟩ := hmany js hone
      exact ⟨_, .sequence hp hrs⟩
    | alternative js =>
      obtain ⟨rs, hrs⟩ := hmany js hone
      exact ⟨_, .alternative hp hrs⟩
    | zeroOrMore j =>
      obtain ⟨r, hr⟩ := hone j List.mem_cons_self
      exact ⟨_, .zeroOrMore hp hr⟩
    | oneOrMore j =>
      obtain ⟨r, hr⟩ := hone j List.mem_cons_self
      exact ⟨_, .oneOrMore hp hr⟩
    | zeroOrOne j =>
      obtain ⟨r, hr⟩ := hone j List.mem_cons_self
      exact ⟨_, .zeroOrOne hp hr⟩

/-- What a path stands for has the form of the path. -/
theorem Denotes.form {paths : List Path} {i : PathIdx} {p : Path} {r : PathExpr TermId} (hp : paths[i]? = some p) (h : Denotes paths i r) :
    match p with
    | .predicate q => r = .predicate q
    | .inverse j => ∃ s, r = .inverse s ∧ Denotes paths j s
    | .sequence js => ∃ rs, r = .sequence rs ∧ List.Forall₂ (Denotes paths) js rs
    | .alternative js => ∃ rs, r = .alternative rs ∧ List.Forall₂ (Denotes paths) js rs
    | .zeroOrMore j => ∃ s, r = .zeroOrMore s ∧ Denotes paths j s
    | .oneOrMore j => ∃ s, r = .oneOrMore s ∧ Denotes paths j s
    | .zeroOrOne j => ∃ s, r = .zeroOrOne s ∧ Denotes paths j s := by
  cases h with
  | predicate h' =>
    obtain rfl := Option.some.inj (hp.symm.trans h')
    rfl
  | inverse h' hj | zeroOrMore h' hj | oneOrMore h' hj | zeroOrOne h' hj =>
    obtain rfl := Option.some.inj (hp.symm.trans h')
    exact ⟨_, rfl, hj⟩
  | sequence h' hjs | alternative h' hjs =>
    obtain rfl := Option.some.inj (hp.symm.trans h')
    exact ⟨_, rfl, hjs⟩

/-- An expression is that of one predicate where the path is. -/
theorem Denotes.isPredicate {paths : List Path} {i : PathIdx} {r : PathExpr TermId} (h : Denotes paths i r) :
    r.isPredicate = false ↔ ∀ p, paths[i]? ≠ some (.predicate p) := by
  cases h with
  | predicate h => simp [PathExpr.isPredicate, h]
  | inverse h _ => simp [PathExpr.isPredicate, h]
  | sequence h _ => simp [PathExpr.isPredicate, h]
  | alternative h _ => simp [PathExpr.isPredicate, h]
  | zeroOrMore h _ => simp [PathExpr.isPredicate, h]
  | oneOrMore h _ => simp [PathExpr.isPredicate, h]
  | zeroOrOne h _ => simp [PathExpr.isPredicate, h]

/-! ## Walking -/

namespace Validator

/-- What an evaluation may end with: all and only the nodes related, an inverse of a compound path met, or a read that
fails. -/
def Follows (fails : StorageError → Prop) (rel : TermId → Prop) (meets : Prop) : Except ShaclError (List TermId) → Prop
  | .ok l => (∀ b, b ∈ l ↔ rel b) ∧ ¬ meets
  | .error (.unsupported detail) => detail = "sh:inversePath over a compound path" ∧ meets
  | .error (.storage e) => fails e
  | .error _ => False

variable {fails : StorageError → Prop}

/-- Where it ends in an error, what the error says is all there is to know. -/
theorem Follows.error {rel rel' : TermId → Prop} {meets meets' : Prop} {e : ShaclError} (h : Follows fails rel meets (.error e))
    (hm : meets → meets') : Follows fails rel' meets' (.error e) := by
  cases e with
  | unsupported detail => exact ⟨h.1, hm h.2⟩
  | storage e => exact h
  | illFormedShape detail => exact h
  | tooDeep limit => exact h

theorem Follows.congr {rel rel' : TermId → Prop} {meets meets' : Prop} {g : Except ShaclError (List TermId)} (h : Follows fails rel meets g)
    (hr : ∀ b, rel b ↔ rel' b) (hm : meets ↔ meets') : Follows fails rel' meets' g := by
  cases g with
  | ok l => exact ⟨fun b => (h.1 b).trans (hr b), fun hmeets => h.2 (hm.2 hmeets)⟩
  | error e => exact h.error hm.1

/-- The node itself comes first. -/
theorem Follows.cons {rel : TermId → Prop} {meets : Prop} {g : Except ShaclError (List TermId)} (h : Follows fails rel meets g) (a : TermId) :
    Follows fails (fun b => b = a ∨ rel b) meets (g.map (a :: ·)) := by
  cases g with
  | ok l => exact ⟨fun b => by rw [List.mem_cons, h.1], h.2⟩
  | error e => exact h.error id

/-- A result handed on behind what was reported before. -/
def emit (g : Except ShaclError (List TermId)) (out : List TermId) : Walk (List TermId) := ExceptT.mk (some (g.map (out ++ ·)))

/-- What is read from each, one after another. -/
def gathered {γ : Type} (f : γ → Except ShaclError (List TermId)) : List γ → Except ShaclError (List TermId)
  | [] => .ok []
  | x :: xs => match f x with
    | .ok l => (gathered f xs).map (l ++ ·)
    | .error e => .error e

theorem emit_cons (g : Except ShaclError (List TermId)) (a : TermId) (out : List TermId) : emit g (out ++ [a]) = emit (g.map (a :: ·)) out := by
  unfold emit
  cases g with
  | error e => rfl
  | ok l => exact congrArg (fun l => ExceptT.mk (some (.ok l))) (List.append_assoc out [a] l)

theorem foldlM_emit {γ : Type} {step : γ → List TermId → Walk (List TermId)} {f : γ → Except ShaclError (List TermId)} {xs : List γ}
    (hstep : ∀ x ∈ xs, ∀ out, step x out = emit (f x) out) (out : List TermId) :
    xs.foldlM (fun out x => step x out) out = emit (gathered f xs) out := by
  induction xs generalizing out with
  | nil => exact congrArg (fun l => ExceptT.mk (some (.ok l))) (List.append_nil out).symm
  | cons x xs ih =>
    rw [List.foldlM_cons, hstep x List.mem_cons_self]
    have hrest := fun out => ih (fun y hy => hstep y (List.mem_cons_of_mem x hy)) out
    unfold gathered
    cases f x with
    | error e => rfl
    | ok l =>
      refine (hrest (out ++ l)).trans ?_
      unfold emit
      cases gathered f xs with
      | error e => rfl
      | ok l' => exact congrArg (fun l => ExceptT.mk (some (.ok l))) (List.append_assoc out l l')

theorem gathered_follows {γ : Type} {f : γ → Except ShaclError (List TermId)} {rel : γ → TermId → Prop} {meets : γ → Prop} {xs : List γ}
    (hf : ∀ x ∈ xs, Follows fails (rel x) (meets x) (f x)) :
    Follows fails (fun b => ∃ x ∈ xs, rel x b) (∃ x ∈ xs, meets x) (gathered f xs) := by
  induction xs with
  | nil => exact ⟨fun b => by simp, by simp⟩
  | cons x xs ih =>
    have hx := hf x List.mem_cons_self
    have hrest := ih (fun y hy => hf y (List.mem_cons_of_mem x hy))
    unfold gathered
    cases hfx : f x with
    | error e =>
      rw [hfx] at hx
      exact hx.error (fun h => ⟨x, List.mem_cons_self, h⟩)
    | ok l =>
      rw [hfx] at hx
      cases hg : gathered f xs with
      | error e =>
        rw [hg] at hrest
        exact hrest.error (fun ⟨y, hy, h⟩ => ⟨y, List.mem_cons_of_mem x hy, h⟩)
      | ok l' =>
        rw [hg] at hrest
        refine ⟨fun b => ?_, ?_⟩
        · rw [List.mem_append, hx.1, hrest.1]
          simp
        · rintro ⟨y, hy, h⟩
          rcases List.mem_cons.1 hy with rfl | hy
          · exact hx.2 h
          · exact hrest.2 ⟨y, hy, h⟩

theorem gathered_follows_any {edge : TermId → TermId → TermId → Prop} {f : PathIdx → TermId → Except ShaclError (List TermId)}
    {paths : List Path} {js : List PathIdx} {rs : List (PathExpr TermId)} (hjs : List.Forall₂ (Denotes paths) js rs)
    (hf : ∀ j ∈ js, ∀ r, Denotes paths j r → ∀ a, Follows fails (r.Rel edge a) (r.Meets edge a) (f j a)) (a : TermId) :
    Follows fails (PathExpr.RelAny edge rs a) (PathExpr.MeetsAny edge rs a) (gathered (fun j => f j a) js) := by
  induction hjs with
  | nil => exact ⟨fun b => by simp [PathExpr.RelAny], by simp [PathExpr.MeetsAny]⟩
  | @cons j r js rs hj _ ih =>
    have hx := hf j List.mem_cons_self r hj a
    have hrest := ih (fun j' hj' => hf j' (List.mem_cons_of_mem j hj'))
    unfold gathered
    cases hfx : f j a with
    | error e =>
      rw [hfx] at hx
      exact hx.error .inl
    | ok l =>
      rw [hfx] at hx
      cases hg : gathered (fun j => f j a) js with
      | error e =>
        rw [hg] at hrest
        exact hrest.error .inr
      | ok l' =>
        rw [hg] at hrest
        refine ⟨fun b => ?_, fun hm => hm.elim hx.2 hrest.2⟩
        rw [List.mem_append, hx.1, hrest.1]
        exact Iff.rfl

/-! ### Sequences -/

/-- Steps taken in order, from all the nodes the steps before them led to. -/
def sequenced (f : PathIdx → TermId → Except ShaclError (List TermId)) : List PathIdx → List TermId → Except ShaclError (List TermId)
  | [], current => .ok current
  | j :: js, current => match gathered (f j) current with
    | .ok next => sequenced f js (sortDedup id next)
    | .error e => .error e

theorem foldlM_sequenced {step : PathIdx → TermId → List TermId → Walk (List TermId)} {f : PathIdx → TermId → Except ShaclError (List TermId)}
    {js : List PathIdx} (hstep : ∀ j ∈ js, ∀ a out, step j a out = emit (f j a) out) (current : List TermId) :
    js.foldlM (fun current j => do
      let next ← current.foldlM (fun next node => step j node next) []
      return sortDedup id next) current = ExceptT.mk (some (sequenced f js current)) := by
  induction js generalizing current with
  | nil => rfl
  | cons j js ih =>
    rw [List.foldlM_cons, foldlM_emit (fun a _ => hstep j List.mem_cons_self a)]
    have hrest := fun current => ih (fun j' hj' => hstep j' (List.mem_cons_of_mem j hj')) current
    unfold sequenced
    cases gathered (f j) current with
    | error e => rfl
    | ok next => exact hrest (sortDedup id next)

theorem sequenced_follows {edge : TermId → TermId → TermId → Prop} {f : PathIdx → TermId → Except ShaclError (List TermId)}
    {paths : List Path} {js : List PathIdx} {rs : List (PathExpr TermId)} (hjs : List.Forall₂ (Denotes paths) js rs)
    (hf : ∀ j ∈ js, ∀ r, Denotes paths j r → ∀ a, Follows fails (r.Rel edge a) (r.Meets edge a) (f j a)) (current : List TermId) :
    Follows fails (fun b => ∃ a ∈ current, PathExpr.RelSeq edge rs a b) (∃ a ∈ current, PathExpr.MeetsSeq edge rs a)
      (sequenced f js current) := by
  induction hjs generalizing current with
  | nil => exact ⟨fun b => by simp [PathExpr.RelSeq], by simp [PathExpr.MeetsSeq]⟩
  | @cons j r js rs hj _ ih =>
    have hfirst : Follows fails (fun b => ∃ a ∈ current, r.Rel edge a b) (∃ a ∈ current, r.Meets edge a) (gathered (f j) current) :=
      gathered_follows (fun a _ => hf j List.mem_cons_self r hj a)
    unfold sequenced
    cases hg : gathered (f j) current with
    | error e =>
      rw [hg] at hfirst
      exact hfirst.error (fun ⟨a, ha, hm⟩ => ⟨a, ha, .inl hm⟩)
    | ok next =>
      rw [hg] at hfirst
      have hnext : ∀ b, b ∈ sortDedup id next ↔ ∃ a ∈ current, r.Rel edge a b :=
        fun b => (mem_sortDedup Function.injective_id).trans (hfirst.1 b)
      have hrest := ih (fun j' hj' => hf j' (List.mem_cons_of_mem j hj')) (sortDedup id next)
      have hmeets : (∃ b ∈ sortDedup id next, PathExpr.MeetsSeq edge rs b) → ∃ a ∈ current, PathExpr.MeetsSeq edge (r :: rs) a := by
        rintro ⟨b, hb, hm⟩
        obtain ⟨a, ha, hab⟩ := (hnext b).1 hb
        exact ⟨a, ha, .inr ⟨b, hab, hm⟩⟩
      dsimp only
      cases hs : sequenced f js (sortDedup id next) with
      | error e =>
        rw [hs] at hrest
        exact hrest.error hmeets
      | ok l =>
        rw [hs] at hrest
        refine ⟨fun c => ?_, ?_⟩
        · rw [hrest.1]
          constructor
          · rintro ⟨b, hb, hbc⟩
            obtain ⟨a, ha, hab⟩ := (hnext b).1 hb
            exact ⟨a, ha, b, hab, hbc⟩
          · rintro ⟨a, ha, b, hab, hbc⟩
            exact ⟨b, (hnext b).2 ⟨a, ha, hab⟩, hbc⟩
        · rintro ⟨a, ha, hm | ⟨b, hab, hm⟩⟩
          · exact hfirst.2 ⟨a, ha, hm⟩
          · exact hrest.2 ⟨b, (hnext b).2 ⟨a, ha, hab⟩, hm⟩

/-! ### Closures -/

/-- More than there are nodes. -/
abbrev enough : Nat := 2 ^ 64 + 2

theorem closure_emit (f : TermId → Except ShaclError (List TermId)) (a : TermId) :
    ∃ g, (∀ n ≥ enough, ∀ out, closure (fun a out => emit (f a) out) n a out = emit g out) ∧ Drained f a g := by
  have hread : (fun a => emit (f a) []) = reading f := by
    funext a
    unfold emit reading
    cases f a <;> rfl
  obtain ⟨g, hg, hdrained⟩ := @drain_ends _ _ _ f enough [] [a] [] a _ Draining.begin (by simp [enough])
  refine ⟨g, fun n hn out => ?_, hdrained⟩
  have hlater : drain (reading f) n [] [a] [] = ExceptT.mk (some g) := by
    induction n, hn using Nat.le_induction with
    | base => exact hg
    | succ n _ ih => exact drain_mono ih
  unfold closure
  rw [hread]
  have hout := @drain_out _ _ _ f n [] [a] [] out
  rw [List.append_nil, hlater] at hout
  exact hout

/-- What a closure leads to, when each step leads to what it should. -/
theorem Drained.follows {rel : TermId → TermId → Prop} {meets : TermId → Prop} {f : TermId → Except ShaclError (List TermId)}
    (hf : ∀ a, Follows fails (rel a) (meets a) (f a)) {a : TermId} {g : Except ShaclError (List TermId)} (hg : Drained f a g) :
    Follows fails (Relation.TransGen rel a) (∃ b, Relation.ReflTransGen rel a b ∧ meets b) g := by
  have hstep : ∀ b c, LeadsTo f b c → rel b c := by
    rintro b c ⟨next, hnext, hc⟩
    have hb := hf b
    rw [hnext] at hb
    exact (hb.1 c).1 hc
  cases g with
  | error e =>
    obtain ⟨b, hb, hfb⟩ := hg
    have hb' := hf b
    rw [hfb] at hb'
    exact hb'.error (fun hm => ⟨b, Relation.ReflTransGen.mono hstep _ _ hb, hm⟩)
  | ok l =>
    obtain ⟨hl, hall⟩ := hg
    -- all that is related is read on the way
    have hreach : ∀ b, Relation.ReflTransGen rel a b → Relation.ReflTransGen (LeadsTo f) a b := by
      intro b hb
      induction hb with
      | refl => exact .refl
      | @tail b c _ hbc ih =>
        obtain ⟨next, hnext⟩ := hall b ih
        have hb' := hf b
        rw [hnext] at hb'
        exact ih.tail ⟨next, hnext, (hb'.1 c).2 hbc⟩
    refine ⟨fun b => ?_, ?_⟩
    · rw [hl]
      constructor
      · exact fun hb => Relation.TransGen.mono hstep _ _ hb
      · intro hb
        obtain ⟨c, hac, hcb⟩ := Relation.TransGen.tail'_iff.1 hb
        obtain ⟨next, hnext⟩ := hall c (hreach c hac)
        have hc := hf c
        rw [hnext] at hc
        exact Relation.TransGen.tail' (hreach c hac) ⟨next, hnext, (hc.1 b).2 hcb⟩
    · rintro ⟨b, hb, hm⟩
      obtain ⟨next, hnext⟩ := hall b (hreach b hb)
      have hb' := hf b
      rw [hnext] at hb'
      exact hb'.2 hm

/-! ### Paths -/

section
variable {B : Backend} {Sim : B.State → Held → Prop} {Open : B.State → Contents × Ids → Prop} {data : GraphView B} {h : Held}
variable {paths : List Path}

/-- A read of the data, as a walk has it. -/
theorem read_follows {r : Except StorageError (List TermId)} {rel : TermId → Prop} (hok : ∀ l, r = .ok l → ∀ b, b ∈ l ↔ rel b)
    (herr : ∀ e, r = .error e → data.Fails e) : Follows data.Fails rel False (World.failed r : Except ShaclError (List TermId)) := by
  cases r with
  | error e => exact herr e rfl
  | ok l => exact ⟨hok l rfl, id⟩

theorem walk_succ {i : PathIdx} {p : Path} (hp : paths[i]? = some p) (n : Nat) (a : TermId) (out : List TermId) :
    walk paths data (n + 1) i a out = walkPath paths data (walk paths data n) n a out p := by
  have hpath : path paths i = ExceptT.mk (some (.ok p)) := congrArg (fun o => ExceptT.mk (Option.map Except.ok o)) hp
  rw [walk, hpath]
  rfl

theorem lift_emit (g : Except ShaclError (List TermId)) (out : List TermId) :
    (do return out ++ (← (ExceptT.mk (some g) : Walk (List TermId))) : Walk (List TermId)) = emit g out := by
  cases g <;> rfl

/-- With enough steps a walk along a compiled path ends in what the path leads to, behind what was reported before. -/
theorem walk_follows (L : B.Lawful Sim Open) (hs : Sim data.store h) (hc : Compiled paths) {i : Nat} (hi : i < paths.length) :
    ∃ f : TermId → Except ShaclError (List TermId), (∀ n ≥ i + enough + 1, ∀ a out, walk paths data n i a out = emit (f a) out) ∧
      ∀ r, Denotes paths i r → ∀ a, Follows data.Fails (r.Rel (Edge h data.graph) a) (r.Meets (Edge h data.graph) a) (f a) := by
  induction i using Nat.strong_induction_on with
  | _ i ih =>
    obtain ⟨p, hp⟩ : ∃ p, paths[i]? = some p := ⟨_, List.getElem?_eq_getElem hi⟩
    -- the paths referred to, one step earlier
    have hinner : ∀ j : Nat, ∃ f : TermId → Except ShaclError (List TermId), j ∈ p.inner →
        (∀ n ≥ i + enough, ∀ a out, walk paths data n j a out = emit (f a) out) ∧
        ∀ r, Denotes paths j r → ∀ a, Follows data.Fails (r.Rel (Edge h data.graph) a) (r.Meets (Edge h data.graph) a) (f a) := by
      intro j
      by_cases hj : j ∈ p.inner
      · have hlt : j < i := hc i p hp j hj
        obtain ⟨f, hf, hspec⟩ := ih j hlt (hlt.trans hi)
        exact ⟨f, fun _ => ⟨fun n hn => hf n (by omega), hspec⟩⟩
      · exact ⟨fun _ => .ok [], fun h => absurd h hj⟩
    choose f hf using hinner
    -- one step pays for the path itself
    suffices hpath : ∃ g : TermId → Except ShaclError (List TermId),
        (∀ n ≥ i + enough, ∀ a out, walkPath paths data (walk paths data n) n a out p = emit (g a) out) ∧
        ∀ r, Denotes paths i r → ∀ a, Follows data.Fails (r.Rel (Edge h data.graph) a) (r.Meets (Edge h data.graph) a) (g a) by
      obtain ⟨g, hg, hspec⟩ := hpath
      refine ⟨g, fun n hn a out => ?_, hspec⟩
      obtain ⟨m, rfl⟩ : ∃ m, n = m + 1 := ⟨n - 1, by omega⟩
      rw [walk_succ hp]
      exact hg m (by omega) a out
    cases p with
    | predicate p =>
      refine ⟨fun a => World.failed (data.objects a p), fun n _ a out => lift_emit _ out, fun r hd a => ?_⟩
      obtain rfl := hd.form hp
      exact read_follows (fun l hl b => GraphView.mem_objects L hs hl) (fun e he => GraphView.read_error he)
    | inverse j =>
      have hj := hc i _ hp j List.mem_cons_self
      obtain ⟨q, hq⟩ : ∃ q, paths[j]? = some q := ⟨_, List.getElem?_eq_getElem (hj.trans hi)⟩
      have hpath : path paths j = ExceptT.mk (some (.ok q)) := congrArg (fun o => ExceptT.mk (Option.map Except.ok o)) hq
      by_cases hpred : ∃ p, q = .predicate p
      · obtain ⟨p, rfl⟩ := hpred
        refine ⟨fun a => World.failed (data.subjects p a), fun n _ a out => ?_, fun r hd a => ?_⟩
        · rw [walkPath, hpath]
          exact lift_emit _ out
        · obtain ⟨s, rfl, hj'⟩ := hd.form hp
          obtain rfl := hj'.form hq
          have hread := @read_follows B data (data.subjects p a) (fun b => Edge h data.graph p b a)
            (fun l hl b => GraphView.mem_subjects L hs hl) (fun e he => GraphView.read_error he)
          exact hread.congr (fun b => Iff.rfl) (by simp [PathExpr.Meets, PathExpr.isPredicate])
      · refine ⟨fun _ => .error (.unsupported "sh:inversePath over a compound path"), fun n _ a out => ?_, fun r hd a => ?_⟩
        · rw [walkPath, hpath]
          cases q with
          | predicate p => exact absurd ⟨p, rfl⟩ hpred
          | _ => rfl
        · obtain ⟨s, rfl, hj'⟩ := hd.form hp
          refine ⟨rfl, hj'.isPredicate.2 (fun p hp' => hpred ⟨p, ?_⟩)⟩
          rw [hq] at hp'
          exact Option.some.inj hp'
    | sequence js =>
      refine ⟨fun a => sequenced f js [a], fun n hn a out => ?_, fun r hd a => ?_⟩
      · have hseq := @foldlM_sequenced (walk paths data n) f js (fun j hj a out => (hf j hj).1 n hn a out) [a]
        rw [walkPath, hseq]
        exact lift_emit _ out
      · obtain ⟨rs, rfl, hjs⟩ := hd.form hp
        exact (sequenced_follows hjs (fun j hj => (hf j hj).2) [a]).congr (fun b => by simp [PathExpr.Rel]) (by simp [PathExpr.Meets])
    | alternative js =>
      refine ⟨fun a => gathered (fun j => f j a) js, fun n hn a out => ?_, fun r hd a => ?_⟩
      · exact foldlM_emit (fun j hj out => (hf j hj).1 n hn a out) out
      · obtain ⟨rs, rfl, hjs⟩ := hd.form hp
        exact gathered_follows_any hjs (fun j hj => (hf j hj).2) a
    | zeroOrMore j =>
      have hj := hf j List.mem_cons_self
      choose g hg using closure_emit (f j)
      refine ⟨fun a => (g a).map (a :: ·), fun n hn a out => ?_, fun r hd a => ?_⟩
      · rw [walkPath, show walk paths data n j = fun a out => emit (f j a) out from funext (fun a => funext (fun out => hj.1 n hn a out)),
          (hg a).1 n (by omega), emit_cons]
      · obtain ⟨s, rfl, hj'⟩ := hd.form hp
        refine ((Drained.follows (hj.2 _ hj') (hg a).2).cons a).congr (fun b => ?_) Iff.rfl
        exact Relation.reflTransGen_iff_eq_or_transGen.symm
    | oneOrMore j =>
      have hj := hf j List.mem_cons_self
      choose g hg using closure_emit (f j)
      refine ⟨g, fun n hn a out => ?_, fun r hd a => ?_⟩
      · rw [walkPath, show walk paths data n j = fun a out => emit (f j a) out from funext (fun a => funext (fun out => hj.1 n hn a out)),
          (hg a).1 n (by omega)]
      · obtain ⟨s, rfl, hj'⟩ := hd.form hp
        exact Drained.follows (hj.2 _ hj') (hg a).2
    | zeroOrOne j =>
      have hj := hf j List.mem_cons_self
      refine ⟨fun a => (f j a).map (a :: ·), fun n hn a out => ?_, fun r hd a => ?_⟩
      · rw [walkPath, hj.1 n hn, emit_cons]
      · obtain ⟨s, rfl, hj'⟩ := hd.form hp
        refine ((hj.2 _ hj' a).cons a).congr (fun b => ?_) Iff.rfl
        rw [PathExpr.Rel, Relation.reflGen_iff]

/-- What an evaluation ends with: the nodes the path leads to, sorted and each once, or an inverse of a compound path met
on the way, or a read of the data that failed. -/
def Evaluated (data : GraphView B) (h : Held) (r : PathExpr TermId) (start : TermId) : Except ShaclError (List TermId) → Prop
  | .ok l => l.Pairwise (· < ·) ∧ (∀ b, b ∈ l ↔ r.Rel (Edge h data.graph) start b) ∧ ¬ r.Meets (Edge h data.graph) start
  | .error (.unsupported detail) => detail = "sh:inversePath over a compound path" ∧ r.Meets (Edge h data.graph) start
  | .error (.storage e) => data.Fails e
  | .error _ => False

/-- Sorting what was walked changes nothing else. -/
theorem Follows.evaluated {r : PathExpr TermId} {a : TermId} {g : Except ShaclError (List TermId)}
    (hg : Follows data.Fails (r.Rel (Edge h data.graph) a) (r.Meets (Edge h data.graph) a) g) : Evaluated data h r a (g.map (sortDedup id)) := by
  cases g with
  | ok l =>
    have hsorted := sortDedup_sorted id l
    rw [List.map_id] at hsorted
    exact ⟨hsorted, fun b => (mem_sortDedup Function.injective_id).trans (hg.1 b), hg.2⟩
  | error e => cases e <;> exact hg

end

end Validator

/-- Paths as the compiler leaves them, one compiled after another. -/
inductive Compiling {B : Backend} (graph : GraphView B) (sh : Sh) : List Path → Prop where
  | nil : Compiling graph sh []
  | path {paths node idx paths'} (h : Compiling graph sh paths)
      (hrun : (Compiler.compilePath graph sh Compiler.nesting node).exec paths = some (.ok idx, paths')) : Compiling graph sh paths'

theorem Compiling.compiled {B : Backend} {graph : GraphView B} {sh : Sh} {paths : List Path} (h : Compiling graph sh paths) : Compiled paths := by
  induction h with
  | nil => exact Compiled.nil
  | path _ hrun ih => exact ((Compiler.compilePath_wp _ _ ih).ok hrun).1

/-- Every compiled path stands for an expression, and from every node of every graph its evaluation ends: in the nodes the
expression leads to, or where it comes to the inverse of a compound path, or where a read fails. -/
theorem evalPath_evaluated {B B' : Backend} {Sim : B.State → Held → Prop} {Open : B.State → Contents × Ids → Prop} {data : GraphView B} {h : Held}
    (L : B.Lawful Sim Open) (hs : Sim data.store h) {graph : GraphView B'} {sh : Sh} {paths : List Path} (hc : Compiling graph sh paths)
    {i : PathIdx} (hi : i < paths.length) :
    (∃ r, Denotes paths i r) ∧ ∀ start, ∃ g, (∃ N, ∀ n ≥ N, Validator.evalPath paths data n i start = ExceptT.mk (some g)) ∧
      ∀ r, Denotes paths i r → Validator.Evaluated data h r start g := by
  refine ⟨hc.compiled.denotes hi, fun start => ?_⟩
  obtain ⟨f, hf, hspec⟩ := Validator.walk_follows L hs hc.compiled hi
  refine ⟨(f start).map (sortDedup id), ⟨i + Validator.enough + 1, fun n hn => ?_⟩, fun r hd => (hspec r hd start).evaluated⟩
  unfold Validator.evalPath
  rw [hf n hn start []]
  unfold Validator.emit
  cases f start <;> rfl

namespace InMemory

/-- A store of these quads. -/
def storing (quads : List EncodedQuad) : MemoryStorage := quads.foldl (fun m q => (m.write (.insert q)).2) .new

theorem storing_stands (quads : List EncodedQuad) : ∃ h, MemoryStorage.Stands Dictionary.bare (storing quads) h ∧
    ∀ e, e ∈ h.contents.quads ↔ e ∈ quads := by
  unfold storing
  induction quads using List.reverseRecOn with
  | nil => exact ⟨_, MemoryStorage.new_stands Dictionary.bare_lawful, fun e => by simp [Contents.empty]⟩
  | append_singleton quads q ih =>
    obtain ⟨h, hs, hmem⟩ := ih
    rw [List.foldl_append]
    refine ⟨_, (hs.write (.insert q)).2, fun e => ?_⟩
    change e ∈ Insert.insert q h.contents.quads ↔ _
    rw [Finset.mem_insert, hmem, List.mem_append, List.mem_singleton, or_comm]

def named (n : UInt8) : TermId := .small .iri n

def blank : TermId := .small .blankNode 0

/-- Ids for the vocabulary. -/
def vocabulary : Sh where
  rdfType := named 0
  rdfFirst := named 1
  rdfRest := named 2
  rdfNil := named 3
  rdfsSubclassOf := named 4
  inversePath := named 5
  alternativePath := named 6
  zeroOrMorePath := named 7
  oneOrMorePath := named 8
  zeroOrOnePath := named 9
  shape := named 10
  uniqueValuesForComponent := named 11

def p : TermId := named 20
def x : TermId := named 21
def y : TermId := named 22

/-- A path any number of times along `p`, and two nodes each of which leads to the other. -/
def cyclic : GraphView (MemoryStorage.backend Dictionary.bare) :=
  ⟨storing [⟨blank, vocabulary.zeroOrMorePath, p, none⟩, ⟨x, p, y, none⟩, ⟨y, p, x, none⟩], .any⟩

def cyclicPaths : List Path := [.predicate p, .zeroOrMore 0]

theorem cyclicPaths_compiling : Compiling cyclic vocabulary cyclicPaths := by
  have hrun : (Compiler.compilePath cyclic vocabulary Compiler.nesting blank).exec [] = some (.ok 1, cyclicPaths) := by decide +kernel
  exact .path .nil hrun

end InMemory

open InMemory in
/-- On a cycle the evaluation ends in both nodes. -/
theorem evalPath_evaluated_cyclic : ∃ l, (∃ N, ∀ n ≥ N, Validator.evalPath cyclicPaths cyclic n 1 x = ExceptT.mk (some (.ok l))) ∧
    x ∈ l ∧ y ∈ l := by
  obtain ⟨h, hs, hmem⟩ := storing_stands [⟨blank, vocabulary.zeroOrMorePath, p, none⟩, ⟨x, p, y, none⟩, ⟨y, p, x, none⟩]
  have hd : Denotes cyclicPaths 1 (.zeroOrMore (.predicate p)) := .zeroOrMore rfl (.predicate rfl)
  obtain ⟨-, heval⟩ := @evalPath_evaluated _ _ _ _ cyclic h (MemoryStorage.lawful Dictionary.bare_lawful) hs cyclic vocabulary cyclicPaths
    cyclicPaths_compiling 1 (by decide)
  obtain ⟨g, hends, hg⟩ := heval x
  have hg := hg _ hd
  have hedge : Edge h cyclic.graph p x y := ⟨none, (hmem _).2 (by simp), rfl⟩
  cases g with
  | ok l => exact ⟨l, hends, (hg.2.1 x).2 .refl, (hg.2.1 y).2 (.single hedge)⟩
  | error e =>
    cases e with
    | unsupported detail =>
      obtain ⟨-, b, -, hb⟩ := hg
      exact hb.elim
    | storage e =>
      obtain ⟨s, p, o, hscan⟩ := hg
      cases hscan
    | illFormedShape detail => exact hg.elim
    | tooDeep limit => exact hg.elim

end Holos.Shacl
