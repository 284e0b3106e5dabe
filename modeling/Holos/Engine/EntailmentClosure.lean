import Holos.Engine.Entailment
/-!
# What the closure computes

`Derived` is one statement following from another under a schema that is read off the asserted
statements once, and `Closure` puts the reflexive axioms on top. `closure` computes it, whatever
the order hash tables are gone through in.
-/

namespace Holos.Engine.Entailment

open Lib Relation

/-! ## The rules, over sets of statements -/

section
variable (rdfs : Rdfs) (R : Set Row) (M : Set TermId)

/-- The property hierarchy as asserted, a container membership property under `rdfs:member`. -/
def SubProperty (p q : TermId) : Prop := (p, rdfs.subPropertyOf, q) ∈ R ∨ p ∈ M ∧ q = rdfs.member

def SubClass (c d : TermId) : Prop := (c, rdfs.subClassOf, d) ∈ R

def Range (p c : TermId) : Prop := (p, rdfs.range, c) ∈ R ∨ p = rdfs.reifies ∧ c = rdfs.proposition

/-- Up a hierarchy, to something else. -/
def Above (E : TermId → TermId → Prop) (a b : TermId) : Prop := b ≠ a ∧ ReflTransGen E a b

/-- One statement follows from another: rdfs7, rdfs2, rdfs3 and rdfs9. -/
inductive Follows : Row → Row → Prop
  | rdfs7 {s p o q} : Above (SubProperty rdfs R M) p q → Follows (s, p, o) (s, q, o)
  | rdfs2 {s p o c} : (p, rdfs.domain, c) ∈ R → Follows (s, p, o) (s, rdfs.ty, c)
  | rdfs3 {s p o c} : o.canBeSubject = true → Range rdfs R p c → Follows (s, p, o) (o, rdfs.ty, c)
  | rdfs9 {s c d} : Above (SubClass rdfs R) c d → Follows (s, rdfs.ty, c) (s, rdfs.ty, d)

/-- What there is before the data is gone through: rdfs12, rdfs5 and rdfs11. -/
inductive Given : Row → Prop
  | asserted {r} : r ∈ R → Given r
  | membership {i} : i ∈ M → Given (i, rdfs.ty, rdfs.containerMembershipProperty)
  | member {i} : i ∈ M → Given (i, rdfs.subPropertyOf, rdfs.member)
  | superProperty {p q} : Above (SubProperty rdfs R M) p q → Given (p, rdfs.subPropertyOf, q)
  | superClass {c d} : Above (SubClass rdfs R) c d → Given (c, rdfs.subClassOf, d)

def Derived : Set Row := {r | ∃ r₀, Given rdfs R M r₀ ∧ ReflTransGen (Follows rdfs R M) r₀ r}

/-- A class, by the positions that make a term one. -/
inductive IsClass (X : Set Row) : TermId → Prop
  | ofType {s c} : (s, rdfs.ty, c) ∈ X → IsClass X c
  | sub {c d} : (c, rdfs.subClassOf, d) ∈ X → IsClass X c
  | super {c d} : (c, rdfs.subClassOf, d) ∈ X → IsClass X d
  | domain {p c} : (p, rdfs.domain, c) ∈ X → IsClass X c
  | range {p c} : (p, rdfs.range, c) ∈ X → IsClass X c

inductive IsProperty (X : Set Row) : TermId → Prop
  | used {s p o} : (s, p, o) ∈ X → IsProperty X p
  | sub {p q} : (p, rdfs.subPropertyOf, q) ∈ X → IsProperty X p
  | super {p q} : (p, rdfs.subPropertyOf, q) ∈ X → IsProperty X q
  | domain {p c} : (p, rdfs.domain, c) ∈ X → IsProperty X p
  | range {p c} : (p, rdfs.range, c) ∈ X → IsProperty X p

/-- rdfs10 and rdfs6, over a set of statements. -/
def Reflexive (X : Set Row) : Set Row :=
  {r | (∃ c, IsClass rdfs X c ∧ c.canBeSubject = true ∧ r = (c, rdfs.subClassOf, c)) ∨
    ∃ p, IsProperty rdfs X p ∧ p.canBeSubject = true ∧ r = (p, rdfs.subPropertyOf, p)}

def Closure : Set Row := Derived rdfs R M ∪ Reflexive rdfs (Derived rdfs R M)

/-- Every one of them says what it says of something else. -/
structure Rdfs.Distinct (rdfs : Rdfs) : Prop where
  nodup : [rdfs.ty, rdfs.subClassOf, rdfs.subPropertyOf, rdfs.domain, rdfs.range].Nodup

theorem Rdfs.new_distinct {rdfs : Rdfs} (h : Rdfs.new = some rdfs) : rdfs.Distinct := by
  rw [Rdfs.new_eq] at h
  cases h
  exact ⟨by decide⟩

end

/-! ## Maps -/

theorem Pairs.mem_get {m : Pairs} {a b : TermId} : b ∈ m.get a ↔ (a, b) ∈ m := by
  unfold Pairs.get
  simp

theorem Pairs.mem_keys {m : Pairs} {a : TermId} : a ∈ m.keys ↔ ∃ b, (a, b) ∈ m := by
  unfold Pairs.keys
  simp

/-- The edges of a map. -/
abbrev Pairs.Edge (m : Pairs) (a b : TermId) : Prop := (a, b) ∈ m

section
variable (order : Order)

theorem Order.mem {α : Type} {l : List α} {a : α} : a ∈ order.of l ↔ a ∈ l := (order.perm l).mem_iff

variable {order}

theorem mem_reached {m : Pairs} {key b : TermId} : b ∈ reached order m key ↔ Above m.Edge key b := by
  unfold reached
  have hsucc : ∀ x y, y ∈ (order.of (m.get x)).reverse ↔ m.Edge x y := by
    intro x y
    rw [List.mem_reverse, order.mem, Pairs.mem_get]
  have hnodes : ∀ x y, m.Edge x y → y ∈ (m.map Prod.fst ++ m.map Prod.snd).toFinset := by
    intro x y hy
    rw [List.mem_toFinset, List.mem_append]
    exact .inr (List.mem_map.2 ⟨(x, y), hy, rfl⟩)
  rw [List.mem_filter, decide_eq_true_iff, and_comm,
    mem_walk (fun x _ y hy => hnodes x y ((hsucc x y).1 hy)) (fun x hx => hnodes key x ((hsucc key x).1 hx)) (Nat.lt_succ_self _)]
  simp only [hsucc]
  refine and_congr_right (fun hne => ?_)
  constructor
  · rintro ⟨s, hs, hr⟩
    exact .head hs hr
  · intro hr
    rcases hr.cases_head with rfl | ⟨s, hs, hr⟩
    · exact absurd rfl hne
    · exact ⟨s, hs, hr⟩

/-- A map on the way to its closure: the keys in `done` have theirs, and nothing else is reached than
before. -/
structure Closing (m : Pairs) (done : List TermId) (m' : Pairs) : Prop where
  reach : ReflTransGen m'.Edge = ReflTransGen m.Edge
  closed : ∀ a ∈ done, ∀ b, m'.Edge a b ↔ Above m.Edge a b
  same : ∀ a ∉ done, ∀ b, m'.Edge a b ↔ m.Edge a b

theorem Closing.step {m m' : Pairs} {done : List TermId} (h : Closing m done m') (key : TermId) :
    Closing m (done ++ [key]) (m'.filter (fun pair => pair.1 ≠ key) ++ (reached order m' key).map (fun node => (key, node))) := by
  have hedge : ∀ a b, (a, b) ∈ m'.filter (fun pair => pair.1 ≠ key) ++ (reached order m' key).map (fun node => (key, node)) ↔
      a ≠ key ∧ m'.Edge a b ∨ a = key ∧ Above m.Edge key b := by
    intro a b
    have habove : Above m'.Edge key b ↔ Above m.Edge key b := by
      unfold Above
      rw [h.reach]
    rw [List.mem_append, List.mem_filter, List.mem_map, decide_eq_true_iff, and_comm]
    refine or_congr_right ?_
    constructor
    · rintro ⟨node, hnode, heq⟩
      cases heq
      exact ⟨rfl, habove.1 (mem_reached.1 hnode)⟩
    · rintro ⟨rfl, hab⟩
      exact ⟨b, mem_reached.2 (habove.2 hab), rfl⟩
  constructor
  · rw [← h.reach]
    refine funext₂ (fun a b => propext ⟨fun hr => ?_, fun hr => ?_⟩)
    · refine reflTransGen_closed (fun x y hxy => ?_) a b hr
      rcases (hedge x y).1 hxy with ⟨-, hxy⟩ | ⟨rfl, -, hxy⟩
      · exact .single hxy
      · rw [h.reach]
        exact hxy
    · refine reflTransGen_closed (fun x y hxy => ?_) a b hr
      by_cases hx : x = key
      · subst hx
        by_cases hy : y = x
        · rw [hy]
        · refine .single ((hedge x y).2 (.inr ⟨rfl, hy, ?_⟩))
          rw [← h.reach]
          exact .single hxy
      · exact .single ((hedge x y).2 (.inl ⟨hx, hxy⟩))
  · intro a ha b
    change (a, b) ∈ _ ↔ _
    rw [hedge]
    by_cases heq : a = key
    · subst heq
      simp
    · have hdone : a ∈ done := (List.mem_append.1 ha).elim id (fun h => absurd (List.mem_singleton.1 h) heq)
      simp [heq, h.closed a hdone]
  · intro a ha b
    change (a, b) ∈ _ ↔ _
    rw [List.mem_append, List.mem_singleton, not_or] at ha
    rw [hedge]
    simp [ha.2, h.same a ha.1]

/-- A closed map has, under each key, everything above it. -/
theorem mem_closeTransitively {m : Pairs} {a b : TermId} : (a, b) ∈ closeTransitively order m ↔ Above m.Edge a b := by
  have hrun : ∀ (keys done : List TermId) (m' : Pairs), Closing m done m' → Closing m (done ++ keys) (keys.foldl
      (fun m key => m.filter (fun pair => pair.1 ≠ key) ++ (reached order m key).map (fun node => (key, node))) m') := by
    intro keys
    induction keys with
    | nil =>
      intro done m' h
      rwa [List.append_nil]
    | cons key keys ih =>
      intro done m' h
      rw [List.append_cons]
      exact ih _ _ (h.step key)
  have h := hrun (order.of m.keys) [] m ⟨rfl, fun a ha => (by cases ha), fun a _ b => Iff.rfl⟩
  by_cases hkey : a ∈ m.keys
  · exact h.closed a (order.mem.2 hkey) b
  · have hnone : ∀ b, ¬ m.Edge a b := fun b hb => hkey (Pairs.mem_keys.2 ⟨b, hb⟩)
    refine (h.same a (fun ha => hkey (order.mem.1 ha)) b).trans (iff_of_false (hnone b) ?_)
    rintro ⟨hne, hr⟩
    rcases hr.cases_head with rfl | ⟨c, hc, -⟩
    · exact hne rfl
    · exact hnone c hc

/-! ## The schema -/

/-- The maps of a schema hold what the statements of `X` say. -/
structure Schema.Holds (rdfs : Rdfs) (schema : Schema) (X : Set Row) : Prop where
  superProperties : ∀ a b, (a, b) ∈ schema.superProperties ↔ (a, rdfs.subPropertyOf, b) ∈ X
  superClasses : ∀ a b, (a, b) ∈ schema.superClasses ↔ (a, rdfs.subClassOf, b) ∈ X
  domains : ∀ a b, (a, b) ∈ schema.domains ↔ (a, rdfs.domain, b) ∈ X
  ranges : ∀ a b, (a, b) ∈ schema.ranges ↔ (a, rdfs.range, b) ∈ X

theorem Schema.Holds.read {rdfs : Rdfs} (hd : rdfs.Distinct) {schema : Schema} {X : Set Row} (h : schema.Holds rdfs X) (r : Row) :
    (Schema.read rdfs schema r).Holds rdfs (Insert.insert r X) := by
  obtain ⟨s, p, o⟩ := r
  have hn := hd.nodup
  simp only [List.nodup_cons, List.mem_cons, List.not_mem_nil, or_false, not_or] at hn
  obtain ⟨-, ⟨hcp, hcd, hcr⟩, ⟨hpd, hpr⟩, hdr, -⟩ := hn
  unfold Schema.read
  dsimp only
  split_ifs with h₁ h₂ h₃ h₄
  · subst h₁
    constructor <;> intro a b <;>
      simp [h.superProperties, h.superClasses, h.domains, h.ranges, hcp, Ne.symm hpd, Ne.symm hpr]
  · subst h₂
    constructor <;> intro a b <;>
      simp [h.superProperties, h.superClasses, h.domains, h.ranges, Ne.symm hcp, Ne.symm hcd, Ne.symm hcr]
  · subst h₃
    constructor <;> intro a b <;>
      simp [h.superProperties, h.superClasses, h.domains, h.ranges, hpd, hcd, Ne.symm hdr]
  · subst h₄
    constructor <;> intro a b <;>
      simp [h.superProperties, h.superClasses, h.domains, h.ranges, hpr, hcr, hdr]
  · constructor <;> intro a b <;>
      simp [h.superProperties, h.superClasses, h.domains, h.ranges, Ne.symm h₁, Ne.symm h₂, Ne.symm h₃, Ne.symm h₄]

theorem Schema.holds_foldl {rdfs : Rdfs} (hd : rdfs.Distinct) {rows : List Row} {schema : Schema} {X : Set Row} (h : schema.Holds rdfs X) :
    (rows.foldl (Schema.read rdfs) schema).Holds rdfs (X ∪ {r | r ∈ rows}) := by
  induction rows generalizing schema X with
  | nil => simpa using h
  | cons r rows ih =>
    have hset : X ∪ {r' | r' ∈ r :: rows} = Insert.insert r X ∪ {r | r ∈ rows} := by
      ext r'
      simp only [Set.mem_union, Set.mem_ofPred_eq, List.mem_cons, Set.mem_insert_iff]
      tauto
    rw [List.foldl_cons, hset]
    exact ih (h.read hd r)

/-- The container axioms of the terms in `M`. -/
def IsAxioms (rdfs : Rdfs) (M : Set TermId) (axioms : List Row) : Prop :=
  ∀ r, r ∈ axioms ↔ ∃ i ∈ M, r = (i, rdfs.ty, rdfs.containerMembershipProperty) ∨ r = (i, rdfs.subPropertyOf, rdfs.member)

section
variable {rdfs : Rdfs} {M : Set TermId} {asserted axioms : List Row}

theorem mem_axiomPairs (hd : rdfs.Distinct) (hM : IsAxioms rdfs M axioms) {m : Pairs} {a b : TermId} :
    (a, b) ∈ axioms.foldl (fun m r => if r.2.1 = rdfs.subPropertyOf then m.insert (r.1, r.2.2) else m) m ↔
      (a, b) ∈ m ∨ a ∈ M ∧ b = rdfs.member := by
  have hfold : ∀ (rows : List Row) (m : Pairs), (a, b) ∈ rows.foldl
      (fun m r => if r.2.1 = rdfs.subPropertyOf then m.insert (r.1, r.2.2) else m) m ↔
      (a, b) ∈ m ∨ (a, rdfs.subPropertyOf, b) ∈ rows := by
    intro rows
    induction rows with
    | nil => simp
    | cons r rows ih =>
      intro m
      obtain ⟨s, p, o⟩ := r
      rw [List.foldl_cons, ih]
      dsimp only
      split_ifs with hp
      · subst hp
        simp only [List.mem_insert_iff, List.mem_cons, Prod.mk.injEq, true_and]
        tauto
      · simp [Ne.symm hp]
  rw [hfold, hM]
  refine or_congr_right ?_
  have hne : rdfs.subPropertyOf ≠ rdfs.ty := by
    have hn := hd.nodup
    simp only [List.nodup_cons, List.mem_cons, not_or] at hn
    exact Ne.symm hn.1.2.1
  constructor
  · rintro ⟨i, hi, heq | heq⟩
    · simp only [Prod.mk.injEq] at heq
      exact absurd heq.2.1 hne
    · cases heq
      exact ⟨hi, rfl⟩
  · rintro ⟨ha, rfl⟩
    exact ⟨a, ha, .inr rfl⟩

/-- What the closed maps of a schema hold. -/
structure Schema.Closed (rdfs : Rdfs) (R : Set Row) (M : Set TermId) (schema : Schema) : Prop where
  superProperties : ∀ a b, (a, b) ∈ schema.superProperties ↔ Above (SubProperty rdfs R M) a b
  superClasses : ∀ a b, (a, b) ∈ schema.superClasses ↔ Above (SubClass rdfs R) a b
  domains : ∀ a b, (a, b) ∈ schema.domains ↔ (a, rdfs.domain, b) ∈ R
  ranges : ∀ a b, (a, b) ∈ schema.ranges ↔ Range rdfs R a b

theorem Schema.of_closed (hd : rdfs.Distinct) (hM : IsAxioms rdfs M axioms) :
    (Schema.of order rdfs asserted axioms).Closed rdfs {r | r ∈ asserted} M := by
  have hnone : ({} : Schema).Holds rdfs ∅ := ⟨by simp, by simp, by simp, by simp⟩
  have h : ((order.of asserted).foldl (Schema.read rdfs) {}).Holds rdfs (∅ ∪ {r | r ∈ order.of asserted}) := Schema.holds_foldl hd hnone
  have hset : (∅ : Set Row) ∪ {r | r ∈ order.of asserted} = {r | r ∈ asserted} := by
    ext r
    simp [order.mem]
  rw [hset] at h
  unfold Schema.of
  constructor
  · intro a b
    rw [mem_closeTransitively]
    have hedge : Pairs.Edge (axioms.foldl (fun m r => if r.2.1 = rdfs.subPropertyOf then m.insert (r.1, r.2.2) else m)
        ((order.of asserted).foldl (Schema.read rdfs) {}).superProperties) = SubProperty rdfs {r | r ∈ asserted} M := by
      refine funext₂ (fun a b => propext ?_)
      rw [Pairs.Edge, mem_axiomPairs hd hM, h.superProperties]
      rfl
    rw [hedge]
  · intro a b
    rw [mem_closeTransitively]
    have hedge : Pairs.Edge ((order.of asserted).foldl (Schema.read rdfs) {}).superClasses = SubClass rdfs {r | r ∈ asserted} := by
      refine funext₂ (fun a b => propext ?_)
      rw [Pairs.Edge, h.superClasses]
      rfl
    rw [hedge]
  · exact h.domains
  · intro a b
    rw [List.mem_insert_iff, h.ranges, Prod.mk.injEq, or_comm]
    rfl

end

/-! ## One statement -/

variable {rdfs : Rdfs} {R : Set Row} {M : Set TermId} {schema : Schema}

theorem mem_conclusions (h : schema.Closed rdfs R M) {r r' : Row} :
    r' ∈ conclusions order rdfs schema r ↔ Follows rdfs R M r r' := by
  obtain ⟨s, p, o⟩ := r
  simp only [conclusions, List.mem_append, List.mem_map, order.mem, Pairs.mem_get, h.superProperties, h.domains]
  constructor
  · rintro (((⟨q, hq, rfl⟩ | ⟨c, hc, rfl⟩) | hr) | hr)
    · exact .rdfs7 hq
    · exact .rdfs2 hc
    · split_ifs at hr with ho
      · simp only [List.mem_map, order.mem, Pairs.mem_get, h.ranges] at hr
        obtain ⟨c, hc, rfl⟩ := hr
        exact .rdfs3 ho hc
      · cases hr
    · split_ifs at hr with hp
      · simp only [List.mem_map, order.mem, Pairs.mem_get, h.superClasses] at hr
        obtain ⟨d, hd, rfl⟩ := hr
        subst hp
        exact .rdfs9 hd
      · cases hr
  · intro hf
    cases hf with
    | rdfs7 hq => exact .inl (.inl (.inl ⟨_, hq, rfl⟩))
    | rdfs2 hc => exact .inl (.inl (.inr ⟨_, hc, rfl⟩))
    | rdfs3 ho hc =>
      refine .inl (.inr ?_)
      rw [if_pos ho]
      simp only [List.mem_map, order.mem, Pairs.mem_get, h.ranges]
      exact ⟨_, hc, rfl⟩
    | rdfs9 hd =>
      refine .inr ?_
      rw [if_pos rfl]
      simp only [List.mem_map, order.mem, Pairs.mem_get, h.superClasses]
      exact ⟨_, hd, rfl⟩

/-! ## Rounds -/

/-- What is known is what was asserted and what was found, each once. -/
structure Books (asserted known fresh : List Row) : Prop where
  nodup : known.Nodup
  found : fresh.Nodup
  mem : ∀ r, r ∈ known ↔ r ∈ asserted ∨ r ∈ fresh
  apart : ∀ r ∈ fresh, r ∉ asserted

section
variable {asserted known fresh : List Row} {budget : Nat}

theorem Books.start (ha : asserted.Nodup) : Books asserted asserted [] :=
  ⟨ha, .nil, fun r => by simp, fun r hr => by cases hr⟩

theorem Books.length (hb : Books asserted known fresh) (ha : asserted.Nodup) : known.length = asserted.length + fresh.length := by
  have hnodup : (asserted ++ fresh).Nodup := List.nodup_append.2 ⟨ha, hb.found, fun r hr r' hr' heq => hb.apart r' hr' (heq ▸ hr)⟩
  have hperm : known.Perm (asserted ++ fresh) := by
    refine (List.perm_ext_iff_of_nodup hb.nodup hnodup).2 (fun r => ?_)
    rw [hb.mem, List.mem_append]
  rw [hperm.length_eq, List.length_append]

theorem Books.absorb (hb : Books asserted known fresh) {xs new : List Row} {st : List Row × List Row} {out : List Row}
    (h : Absorbed (known, out) xs new st) : Books asserted st.1 (fresh ++ new) := by
  refine ⟨h.known hb.nodup, ?_, fun r => ?_, fun r hr => ?_⟩
  · refine List.nodup_append.2 ⟨hb.found, h.nodup, fun r hr r' hr' heq => ?_⟩
    exact ((h.fresh r').1 hr').2 ((hb.mem r').2 (.inr (heq ▸ hr)))
  · rw [h.mem, hb.mem, List.mem_append, h.fresh, hb.mem]
    tauto
  · rcases List.mem_append.1 hr with hr | hr
    · exact hb.apart r hr
    · exact fun ha => ((h.fresh r).1 hr).2 ((hb.mem r).2 (.inl ha))

/-- More statements than the budget allows follow from `X` that were not asserted. -/
def TooMany (asserted : List Row) (X : Set Row) (budget : Nat) : Prop :=
  ∃ l : List Row, l.Nodup ∧ budget < l.length ∧ ∀ r ∈ l, r ∉ asserted ∧ r ∈ X

theorem Books.tooMany (hb : Books asserted known fresh) (ha : asserted.Nodup) {X : Set Row} (hX : ∀ r ∈ known, r ∈ X)
    (hover : known.length - asserted.length > budget) : TooMany asserted X budget := by
  refine ⟨fresh, hb.found, ?_, fun r hr => ⟨hb.apart r hr, hX r ((hb.mem r).2 (.inr hr))⟩⟩
  have := hb.length ha
  omega

/-- What follows from a list of statements. -/
def From (rdfs : Rdfs) (R : Set Row) (M : Set TermId) (rows : List Row) : Set Row :=
  {r | ∃ r₀ ∈ rows, ReflTransGen (Follows rdfs R M) r₀ r}

/-- The rounds end, with everything that follows or with more than the budget allows of it. -/
theorem saturate_spec (h : schema.Closed rdfs R M) (ha : asserted.Nodup) {left : Nat} : ∀ {frontier known fresh : List Row} {rounds : Nat},
    Books asserted known fresh → (∀ r ∈ frontier, r ∈ known) →
    (∀ r ∈ known, r ∈ frontier ∨ ∀ r', Follows rdfs R M r r' → r' ∈ known) →
    1 ≤ left → (frontier = [] ∨ budget + 2 ≤ left + (known.length - asserted.length)) →
    (∃ known' fresh' rounds', saturate order rdfs schema asserted.length budget left frontier known fresh rounds =
        some (.ok (known', fresh', rounds')) ∧ Books asserted known' fresh' ∧ {r | r ∈ known'} = From rdfs R M known) ∨
      ∃ message, saturate order rdfs schema asserted.length budget left frontier known fresh rounds = some (.error message) ∧
        TooMany asserted (From rdfs R M known) budget := by
  induction left with
  | zero =>
    intro frontier known fresh rounds _ _ _ hpos
    exact absurd hpos (by omega)
  | succ left ih =>
    intro frontier known fresh rounds hb hin hdone _ hleft
    cases frontier with
    | nil =>
      refine .inl ⟨known, fresh, rounds, by rw [saturate], hb, Set.Subset.antisymm (fun r hr => ⟨r, hr, .refl⟩) ?_⟩
      rintro r ⟨r₀, hr₀, hreach⟩
      induction hreach with
      | refl => exact hr₀
      | tail _ hf ihr => exact (hdone _ ihr).elim (fun hr => by cases hr) (fun hall => hall _ hf)
    | cons first rest =>
      have hleft := hleft.elim (fun hnil => by cases hnil) id
      obtain ⟨new, habs⟩ := absorbAll_absorbed ((first :: rest).flatMap (conclusions order rdfs schema)) (known, [])
      rw [saturate]
      · generalize hst : ((first :: rest).flatMap (conclusions order rdfs schema)).foldl absorb (known, []) = st at habs
        obtain ⟨known', next⟩ := st
        have hnext : next = new := by simpa using habs.out
        subst hnext
        have hb' : Books asserted known' (fresh ++ next) := hb.absorb habs
        have hfrom : ∀ r ∈ (first :: rest).flatMap (conclusions order rdfs schema), ∃ r₀ ∈ known, Follows rdfs R M r₀ r := by
          intro r hr
          obtain ⟨r₀, hr₀, hr⟩ := List.mem_flatMap.1 hr
          exact ⟨r₀, hin r₀ hr₀, (mem_conclusions h).1 hr⟩
        have hsound : ∀ r ∈ known', r ∈ From rdfs R M known := by
          intro r hr
          rcases (habs.mem r).1 hr with hr | hr
          · exact ⟨r, hr, .refl⟩
          · obtain ⟨r₀, hr₀, hf⟩ := hfrom r hr
            exact ⟨r₀, hr₀, .single hf⟩
        have hlen := habs.length
        dsimp only at hlen ⊢
        split_ifs with hover
        · exact .inr ⟨_, rfl, hb'.tooMany ha hsound hover⟩
        · -- a round that derives something uses up some of what the budget leaves
          have hshrink : next = [] ∨ 1 ≤ next.length := next.length.eq_zero_or_pos.imp List.length_eq_zero_iff.1 id
          have hge := hb.length ha
          have hres := @ih _ _ _ (rounds + 1) hb' (fun r hr => (habs.mem r).2 (.inr ((habs.fresh r).1 hr).1)) (fun r hr => ?_)
            (by omega) (hshrink.imp id (fun hpos => by omega))
          · have hsame : From rdfs R M known' = From rdfs R M known := by
              refine Set.Subset.antisymm ?_ ?_
              · rintro r ⟨r₀, hr₀, hreach⟩
                obtain ⟨r₁, hr₁, hreach₁⟩ := hsound r₀ hr₀
                exact ⟨r₁, hr₁, hreach₁.trans hreach⟩
              · rintro r ⟨r₀, hr₀, hreach⟩
                exact ⟨r₀, (habs.mem r₀).2 (.inl hr₀), hreach⟩
            rwa [hsame] at hres
          · by_cases hold : r ∈ known
            · refine .inr (fun r' hf => ?_)
              rcases hdone r hold with hr' | hall
              · exact (habs.mem r').2 (.inr (List.mem_flatMap.2 ⟨r, hr', (mem_conclusions h).2 hf⟩))
              · exact (habs.mem r').2 (.inl (hall r' hf))
            · exact .inl ((habs.fresh r).2 ⟨((habs.mem r).1 hr).resolve_left hold, hold⟩)
      · exact fun hnil => by cases hnil

end

/-! ## The reflexive axioms -/

/-- Terms gathered statement by statement. -/
theorem mem_gathered {f : List TermId → Row → List TermId} {P : Row → Prop} {t : TermId} (hone : ∀ ts r, t ∈ f ts r ↔ t ∈ ts ∨ P r)
    {rows : List Row} : t ∈ rows.foldl f [] ↔ ∃ r ∈ rows, P r := by
  have hrun : ∀ (rows : List Row) (ts : List TermId), t ∈ rows.foldl f ts ↔ t ∈ ts ∨ ∃ r ∈ rows, P r := by
    intro rows
    induction rows with
    | nil => simp
    | cons r rows ih =>
      intro ts
      rw [List.foldl_cons, ih, hone]
      simp [or_assoc]
  simp [hrun]

theorem isClass_iff {X : Set Row} {c : TermId} : IsClass rdfs X c ↔ ∃ r ∈ X, IsClass rdfs {r} c := by
  constructor
  · intro h
    cases h with
    | ofType h => exact ⟨_, h, .ofType rfl⟩
    | sub h => exact ⟨_, h, .sub rfl⟩
    | super h => exact ⟨_, h, .super rfl⟩
    | domain h => exact ⟨_, h, .domain rfl⟩
    | range h => exact ⟨_, h, .range rfl⟩
  · rintro ⟨r, hr, h⟩
    cases h with
    | ofType h => exact .ofType (h ▸ hr)
    | sub h => exact .sub (h ▸ hr)
    | super h => exact .super (h ▸ hr)
    | domain h => exact .domain (h ▸ hr)
    | range h => exact .range (h ▸ hr)

theorem isProperty_iff {X : Set Row} {p : TermId} : IsProperty rdfs X p ↔ ∃ r ∈ X, IsProperty rdfs {r} p := by
  constructor
  · intro h
    cases h with
    | used h => exact ⟨_, h, .used rfl⟩
    | sub h => exact ⟨_, h, .sub rfl⟩
    | super h => exact ⟨_, h, .super rfl⟩
    | domain h => exact ⟨_, h, .domain rfl⟩
    | range h => exact ⟨_, h, .range rfl⟩
  · rintro ⟨r, hr, h⟩
    cases h with
    | used h => exact .used (h ▸ hr)
    | sub h => exact .sub (h ▸ hr)
    | super h => exact .super (h ▸ hr)
    | domain h => exact .domain (h ▸ hr)
    | range h => exact .range (h ▸ hr)

theorem mem_classes (hd : rdfs.Distinct) {rows : List Row} {c : TermId} :
    c ∈ rows.foldl (classesOf rdfs) [] ↔ IsClass rdfs {r | r ∈ rows} c := by
  have hn := hd.nodup
  simp only [List.nodup_cons, List.mem_cons, List.not_mem_nil, or_false, not_or] at hn
  obtain ⟨⟨htc, htp, htd, htr⟩, ⟨hcp, hcd, hcr⟩, ⟨hpd, hpr⟩, hdr, -⟩ := hn
  rw [isClass_iff]
  refine mem_gathered (fun cs r => ?_)
  obtain ⟨s, p, o⟩ := r
  have hclass : IsClass rdfs {(s, p, o)} c ↔ (p = rdfs.ty ∧ c = o) ∨ (p = rdfs.subClassOf ∧ (c = s ∨ c = o)) ∨
      ((p = rdfs.domain ∨ p = rdfs.range) ∧ c = o) := by
    constructor
    · intro h
      cases h <;> rename_i h <;> cases h <;> simp
    · rintro (⟨rfl, rfl⟩ | ⟨rfl, rfl | rfl⟩ | ⟨rfl | rfl, rfl⟩)
      · exact .ofType rfl
      · exact .sub rfl
      · exact .super rfl
      · exact .domain rfl
      · exact .range rfl
  rw [hclass]
  unfold classesOf
  dsimp only
  split_ifs with h₁ h₂ h₃ h₄
  · simp [h₁, htc, htd, htr, or_comm]
  · subst h₂
    simp only [List.mem_insert_iff, Ne.symm htc, hcd, hcr, false_and, true_and, or_self, or_false, false_or]
    tauto
  · subst h₃
    simp [Ne.symm htp, Ne.symm hcp, hpd, hpr]
  · simp only [Bool.or_eq_true, decide_eq_true_eq] at h₄
    simp [h₁, h₂, h₄, or_comm]
  · simp only [Bool.or_eq_true, decide_eq_true_eq] at h₄
    simp [h₁, h₂, h₄]

theorem mem_properties (hd : rdfs.Distinct) {rows : List Row} {q : TermId} :
    q ∈ rows.foldl (propertiesOf rdfs) [] ↔ IsProperty rdfs {r | r ∈ rows} q := by
  have hn := hd.nodup
  simp only [List.nodup_cons, List.mem_cons, List.not_mem_nil, or_false, not_or] at hn
  obtain ⟨⟨htc, htp, htd, htr⟩, ⟨hcp, hcd, hcr⟩, ⟨hpd, hpr⟩, hdr, -⟩ := hn
  rw [isProperty_iff]
  refine mem_gathered (fun cs r => ?_)
  obtain ⟨s, p, o⟩ := r
  have hproperty : IsProperty rdfs {(s, p, o)} q ↔ q = p ∨ (p = rdfs.subPropertyOf ∧ (q = s ∨ q = o)) ∨
      ((p = rdfs.domain ∨ p = rdfs.range) ∧ q = s) := by
    constructor
    · intro h
      cases h <;> rename_i h <;> cases h <;> simp
    · rintro (rfl | ⟨rfl, rfl | rfl⟩ | ⟨rfl | rfl, rfl⟩)
      · exact .used rfl
      · exact .sub rfl
      · exact .super rfl
      · exact .domain rfl
      · exact .range rfl
  rw [hproperty]
  unfold propertiesOf
  dsimp only
  split_ifs with h₁ h₂ h₃ h₄
  · simp [h₁, htp, htd, htr, or_comm]
  · subst h₂
    simp [hcp, hcd, hcr, or_comm]
  · subst h₃
    simp only [List.mem_insert_iff, hpd, hpr, false_and, true_and, or_self, or_false]
    tauto
  · simp only [Bool.or_eq_true, decide_eq_true_eq] at h₄
    simp only [List.mem_insert_iff, h₃, h₄, false_and, true_and, false_or]
    tauto
  · simp only [Bool.or_eq_true, decide_eq_true_eq] at h₄
    simp [h₃, h₄, or_comm]

theorem mem_reflexive (hd : rdfs.Distinct) {rows : List Row} {r : Row} :
    r ∈ reflexive order rdfs rows ↔ r ∈ Reflexive rdfs {r | r ∈ rows} := by
  simp only [reflexive, List.mem_append, List.mem_map, List.mem_filter, order.mem, mem_classes hd, mem_properties hd, Reflexive, Set.mem_ofPred_eq, and_assoc, eq_comm]

/-! ## The closure -/

section
variable {asserted axioms : List Row} {budget : Nat}

theorem mem_hierarchies (h : schema.Closed rdfs R M) {r : Row} : r ∈ hierarchies order rdfs schema ↔
    (∃ p q, Above (SubProperty rdfs R M) p q ∧ r = (p, rdfs.subPropertyOf, q)) ∨
      ∃ c d, Above (SubClass rdfs R) c d ∧ r = (c, rdfs.subClassOf, d) := by
  simp only [hierarchies, List.mem_append, List.mem_map, order.mem, Prod.exists, h.superProperties, h.superClasses, eq_comm]

/-- The rows to begin with. -/
theorem given_iff (h : schema.Closed rdfs {r | r ∈ asserted} M) (hM : IsAxioms rdfs M axioms) {r : Row} :
    Given rdfs {r | r ∈ asserted} M r ↔ (r ∈ asserted ∨ r ∈ axioms) ∨ r ∈ hierarchies order rdfs schema := by
  rw [hM, mem_hierarchies h]
  constructor
  · intro hg
    cases hg with
    | asserted hr => exact .inl (.inl hr)
    | membership hi => exact .inl (.inr ⟨_, hi, .inl rfl⟩)
    | member hi => exact .inl (.inr ⟨_, hi, .inr rfl⟩)
    | superProperty hq => exact .inr (.inl ⟨_, _, hq, rfl⟩)
    | superClass hc => exact .inr (.inr ⟨_, _, hc, rfl⟩)
  · rintro ((hr | ⟨i, hi, rfl | rfl⟩) | ⟨p, q, hq, rfl⟩ | ⟨c, d, hc, rfl⟩)
    · exact .asserted hr
    · exact .membership hi
    · exact .member hi
    · exact .superProperty hq
    · exact .superClass hc

/-- Everything entailed that was not asserted is found, each once, and it is within the budget; or
there is more of it than that. -/
theorem closure_spec (hd : rdfs.Distinct) (ha : asserted.Nodup) (hM : IsAxioms rdfs M axioms) :
    (∃ fresh rounds, closure order rdfs asserted axioms budget = some (.ok (fresh, rounds)) ∧ fresh.Nodup ∧ fresh.length ≤ budget ∧
        ∀ r, r ∈ fresh ↔ r ∈ Closure rdfs {r | r ∈ asserted} M ∧ r ∉ asserted) ∨
      ∃ message, closure order rdfs asserted axioms budget = some (.error message) ∧
        TooMany asserted (Closure rdfs {r | r ∈ asserted} M) budget := by
  have hschema : (Schema.of order rdfs asserted axioms).Closed rdfs {r | r ∈ asserted} M := Schema.of_closed hd hM
  unfold closure
  -- what there is before the rounds
  obtain ⟨new₁, habs₁⟩ := absorbAll_absorbed axioms (asserted, [])
  have hb₁ := (Books.start ha).absorb habs₁
  rw [List.nil_append, ← List.nil_append new₁, ← show (axioms.foldl absorb (asserted, [])).2 = [] ++ new₁ from habs₁.out] at hb₁
  generalize axioms.foldl absorb (asserted, []) = st₁ at habs₁ hb₁
  obtain ⟨known₁, fresh₁⟩ := st₁
  dsimp only at hb₁ ⊢
  obtain ⟨new₂, habs₂⟩ := absorbAll_absorbed (hierarchies order rdfs (Schema.of order rdfs asserted axioms)) (known₁, fresh₁)
  have hb₂ := hb₁.absorb habs₂
  rw [← habs₂.out] at hb₂
  generalize (hierarchies order rdfs (Schema.of order rdfs asserted axioms)).foldl absorb (known₁, fresh₁) = st₂ at habs₂ hb₂
  obtain ⟨known₂, fresh₂⟩ := st₂
  dsimp only at hb₂ ⊢
  have hgiven : ∀ r, r ∈ known₂ ↔ Given rdfs {r | r ∈ asserted} M r := by
    intro r
    rw [given_iff hschema hM, ← habs₁.mem, ← habs₂.mem]
  have hderived : From rdfs {r | r ∈ asserted} M known₂ = Derived rdfs {r | r ∈ asserted} M := by
    ext r
    simp only [From, Derived, Set.mem_ofPred_eq, hgiven]
  rcases @saturate_spec order _ _ _ _ _ _ hschema ha _ _ _ _ 0 hb₂ (fun r hr => order.mem.1 hr) (fun r hr => .inl (order.mem.2 hr))
    (show 1 ≤ budget + 2 by omega) (.inr (Nat.le_add_right _ _)) with ⟨known, fresh, rounds, hsat, hb, hknown⟩ | ⟨message, hsat, hmany⟩
  · rw [hderived] at hknown
    rw [hsat]
    dsimp only
    obtain ⟨new, habs⟩ := absorbAll_absorbed (reflexive order rdfs known) (known, fresh)
    have hb' := hb.absorb habs
    rw [← habs.out] at hb'
    generalize (reflexive order rdfs known).foldl absorb (known, fresh) = st at habs hb'
    obtain ⟨all, found⟩ := st
    dsimp only at hb' ⊢
    have hall : ∀ r, r ∈ all ↔ r ∈ Closure rdfs {r | r ∈ asserted} M := by
      intro r
      rw [Closure, Set.mem_union, ← hknown]
      exact (habs.mem r).trans (or_congr_right (mem_reflexive hd))
    split_ifs with hover
    · exact .inr ⟨_, rfl, hb'.tooMany ha (fun r hr => (hall r).1 hr) hover⟩
    · have hlen := hb'.length ha
      refine .inl ⟨found, rounds, rfl, hb'.found, by omega, fun r => ?_⟩
      rw [← hall, hb'.mem]
      constructor
      · exact fun hr => ⟨.inr hr, hb'.apart r hr⟩
      · exact fun ⟨hr, hno⟩ => hr.resolve_left hno
  · rw [hsat]
    rw [hderived] at hmany
    obtain ⟨l, hl, hbudget, hmem⟩ := hmany
    exact .inr ⟨message, rfl, l, hl, hbudget, fun r hr => ⟨(hmem r hr).1, .inl (hmem r hr).2⟩⟩

end

end

end Holos.Engine.Entailment
