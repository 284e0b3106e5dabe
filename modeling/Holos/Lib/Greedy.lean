import Mathlib.Data.List.Nodup
import Mathlib.Logic.Relation
/-!
# Greedy orders

Items are put in an order one by one. While one is linked to those already taken, one of these
comes next; only then the first of all that are left does. Such an order goes through the linked
groups one after another, so what has been taken before a group is told by the links and the
precedence alone, and with it whether the order joins whatever else the items may share.
-/

namespace Lib.Greedy

variable {ι : Type} {link before shares : ι → ι → Prop} {taken xs : List ι}

/-- The order `xs` goes on behind what is taken. -/
inductive Grown (link before : ι → ι → Prop) : List ι → List ι → Prop
  | nil {taken : List ι} : Grown link before taken []
  | linked {taken xs : List ι} {x : ι} (h : ∃ c ∈ taken, link c x) (rest : Grown link before (taken ++ [x]) xs) :
      Grown link before taken (x :: xs)
  | fresh {taken xs : List ι} {x : ι} (hlink : ∀ y ∈ x :: xs, ∀ c ∈ taken, ¬link c y) (hbefore : ∀ y ∈ xs, before x y)
      (rest : Grown link before (taken ++ [x]) xs) : Grown link before taken (x :: xs)

/-- What is linked, through others, to something that comes before `p`. -/
def Ahead (link before : ι → ι → Prop) (p m : ι) : Prop := ∃ m', Relation.ReflTransGen link m' m ∧ before m' p

/-- Everything taken is linked to something taken that comes before all that is left. -/
def Led (link before : ι → ι → Prop) (taken xs : List ι) : Prop :=
  ∀ m ∈ taken, ∃ m', Relation.ReflTransGen link m' m ∧ ∀ r ∈ xs, before m' r

/-- Where nothing left is linked to what is taken, what is taken is closed under links. -/
theorem mem_of_reached (hcover : ∀ i, i ∈ taken ∨ i ∈ xs) (hlink : ∀ y ∈ xs, ∀ c ∈ taken, ¬link c y) {m' m : ι} (h : m' ∈ taken)
    (hreach : Relation.ReflTransGen link m' m) : m ∈ taken := by
  induction hreach with
  | refl => exact h
  | @tail c y _ hcy ih => exact (hcover y).resolve_right fun hy => hlink y hy c ih hcy

theorem cover_step {x : ι} (h : ∀ i, i ∈ taken ∨ i ∈ x :: xs) (i : ι) : i ∈ taken ++ [x] ∨ i ∈ xs := by
  rw [List.mem_append, List.mem_singleton]
  rcases h i with hi | hi
  · exact .inl (.inl hi)
  · rcases List.mem_cons.1 hi with hi | hi
    · exact .inl (.inr hi)
    · exact .inr hi

theorem Led.step {x : ι} (h : Led link before taken (x :: xs)) (hx : ∃ m', Relation.ReflTransGen link m' x ∧ ∀ r ∈ xs, before m' r) :
    Led link before (taken ++ [x]) xs := by
  intro m hm
  rcases List.mem_append.1 hm with hm | hm
  · obtain ⟨l, hl, hall⟩ := h m hm
    exact ⟨l, hl, fun r hr => hall r (List.mem_cons_of_mem x hr)⟩
  · rw [List.mem_singleton.1 hm]
    exact hx

/-- What is put next is linked to something taken, or all that is taken is ahead of it and nothing else is. -/
theorem Grown.at_split (hasymm : ∀ a b, before a b → ¬before b a) (h : Grown link before taken xs)
    (hcover : ∀ i, i ∈ taken ∨ i ∈ xs) (hled : Led link before taken xs) :
    ∀ front p rest, xs = front ++ p :: rest →
      ((∃ c ∈ taken ++ front, link c p) ∧ Ahead link before p p) ∨ ∀ m, m ∈ taken ++ front ↔ Ahead link before p m := by
  induction h with
  | nil =>
    intro front p rest heq
    exact absurd heq (by simp)
  | @linked taken xs x hx _ ih =>
    obtain ⟨c, hc, hcx⟩ := hx
    obtain ⟨m', hm', hfirst⟩ := hled c hc
    have hx' : Relation.ReflTransGen link m' x := hm'.tail hcx
    intro front p rest heq
    cases front with
    | nil =>
      obtain ⟨rfl, rfl⟩ := List.cons.inj heq
      rw [List.append_nil]
      exact .inl ⟨⟨c, hc, hcx⟩, m', hx', hfirst _ List.mem_cons_self⟩
    | cons y front =>
      obtain ⟨rfl, hrest⟩ := List.cons.inj heq
      have hled' := hled.step ⟨m', hx', fun r hr => hfirst r (List.mem_cons_of_mem _ hr)⟩
      have h := ih (cover_step hcover) hled' front p rest hrest
      rwa [List.append_assoc, List.singleton_append] at h
  | @fresh taken xs x hlink hbefore _ ih =>
    intro front p rest heq
    cases front with
    | nil =>
      obtain ⟨rfl, rfl⟩ := List.cons.inj heq
      rw [List.append_nil]
      refine .inr fun m => ⟨fun hm => ?_, fun hm => ?_⟩
      · obtain ⟨m', hm', hall⟩ := hled m hm
        exact ⟨m', hm', hall _ List.mem_cons_self⟩
      · obtain ⟨m', hm', hlt⟩ := hm
        have htaken : m' ∈ taken := by
          refine (hcover m').resolve_right fun hin => ?_
          rcases List.mem_cons.1 hin with rfl | hin
          · exact hasymm _ _ hlt hlt
          · exact hasymm _ _ hlt (hbefore m' hin)
        exact mem_of_reached hcover hlink htaken hm'
    | cons y front =>
      obtain ⟨rfl, hrest⟩ := List.cons.inj heq
      have h := ih (cover_step hcover) (hled.step ⟨_, .refl, hbefore⟩) front p rest hrest
      rwa [List.append_assoc, List.singleton_append] at h

/-- What shares nothing with those before it is put only where nothing left shares anything. -/
def Joins (shares : ι → ι → Prop) (xs : List ι) : Prop :=
  ∀ front p rest, xs = front ++ p :: rest → (∀ c ∈ front, ¬shares p c) → ∀ q ∈ rest, ∀ c ∈ front, ¬shares q c

/-- A greedy order joins what the items share exactly where each item that begins a group shares
something with what is ahead of it if anything else does. -/
theorem Grown.joins_iff (hasymm : ∀ a b, before a b → ¬before b a) (hsub : ∀ a b, link a b → shares b a)
    (h : Grown link before [] xs) (hcover : ∀ i, i ∈ xs) (hnodup : xs.Nodup) :
    Joins shares xs ↔ ∀ p, ¬Ahead link before p p → (∃ q, ¬Ahead link before p q ∧ ∃ c, Ahead link before p c ∧ shares q c) →
      ∃ c, Ahead link before p c ∧ shares p c := by
  have hsplit := h.at_split hasymm (fun i => .inr (hcover i)) (fun m hm => absurd hm List.not_mem_nil)
  simp only [List.nil_append] at hsplit
  constructor
  · rintro hj p hp ⟨q, hq, c, hc, hqc⟩
    obtain ⟨front, rest, heq⟩ := List.append_of_mem (hcover p)
    have hfront := (hsplit front p rest heq).resolve_left fun hl => hp hl.2
    by_contra hnone
    have halone : ∀ c ∈ front, ¬shares p c := fun c hc hs => hnone ⟨c, (hfront c).1 hc, hs⟩
    have hqrest : q ∈ rest := by
      have hin := hcover q
      rw [heq, List.mem_append, List.mem_cons] at hin
      rcases hin with hin | rfl | hin
      · exact absurd ((hfront q).1 hin) hq
      · exact absurd ⟨c, hc, hqc⟩ hnone
      · exact hin
    exact hj front p rest heq halone q hqrest c ((hfront c).2 hc) hqc
  · intro hall front p rest heq halone q hq c hc hqc
    rcases hsplit front p rest heq with ⟨⟨d, hd, hlink⟩, -⟩ | hfront
    · exact halone d hd (hsub d p hlink)
    · have hnot : ∀ x ∈ p :: rest, x ∉ front := by
        intro x hx hxf
        rw [heq] at hnodup
        exact (List.nodup_append.1 hnodup).2.2 x hxf x hx rfl
      obtain ⟨d, hd, hs⟩ := hall p (fun hp => hnot p List.mem_cons_self ((hfront p).2 hp))
        ⟨q, fun hqa => hnot q (List.mem_cons_of_mem p hq) ((hfront q).2 hqa), c, (hfront c).1 hc, hqc⟩
      exact halone d ((hfront d).2 hd) hs

end Lib.Greedy
