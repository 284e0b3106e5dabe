import Holos.Lib.Collect
import Holos.Shacl.PathTheorems
import Holos.Shacl.Validate
/-!
# What the class walks find

Targets go down the class hierarchy, class tests go up. Each of them is sound, and finds everything
while it stays below the size it is cut short at.
-/

namespace Holos.Shacl

open Lib

/-- What an answer finds is right; where `few` holds, all that is right is found. -/
def Found {α ρ : Type} (fails : StorageError → Prop) (few : Prop) (spec : α → Prop) (found : ρ → α → Prop) : Except StorageError ρ → Prop
  | .ok r => (∀ a, found r a → spec a) ∧ (few → ∀ a, spec a → found r a)
  | .error e => fails e

namespace Validator

variable {B : Backend} {Sim : B.State → Held → Prop} {Open : B.State → Contents × Ids → Prop} {v : Validator B} {h : Held}

/-- One class is a subclass of another, in any number of steps. -/
def Subclass (v : Validator B) (h : Held) : TermId → TermId → Prop :=
  Relation.ReflTransGen (Edge h v.data.graph v.sh.rdfsSubclassOf)

/-- `rdf:type`, and then any number of `rdfs:subClassOf`. -/
def Instance (v : Validator B) (h : Held) (node c : TermId) : Prop :=
  ∃ type, Edge h v.data.graph v.sh.rdfType node type ∧ Subclass v h type c

/-- The classes below a class, itself among them, are fewer than a walk is cut short at. -/
def FewBelow (v : Validator B) (h : Held) (c : TermId) : Prop := {d | Subclass v h d c}.ncard < hierarchyLimit

/-- The classes above a class, likewise. -/
def FewAbove (v : Validator B) (h : Held) (c : TermId) : Prop := {d | Subclass v h c d}.ncard < hierarchyLimit

/-- The types read for a node, each as often as it is read, and the further classes above them, likewise. -/
def FewTypes (v : Validator B) (h : Held) (node : TermId) : Prop :=
  ∀ types, v.data.objects node v.sh.rdfType = .ok types →
    types.length + {c | Instance v h node c ∧ c ∉ types}.ncard < hierarchyLimit

theorem few_of_below {R : TermId → TermId → Prop} {c : TermId} (hfew : {d | Relation.ReflTransGen R c d}.ncard < hierarchyLimit) :
    [c].length + {m | ReachedFrom R [c] m ∧ m ∉ [c]}.ncard < hierarchyLimit := by
  have heq : {m | ReachedFrom R [c] m ∧ m ∉ [c]} = {d | Relation.ReflTransGen R c d} \ {c} := by
    ext m
    simp [ReachedFrom]
  have hmem : c ∈ {d | Relation.ReflTransGen R c d} := .refl
  rw [heq, List.length_singleton, Nat.add_comm, Set.ncard_diff_singleton_add_one hmem]
  exact hfew

section
variable (L : B.Lawful Sim Open) (hs : Sim v.data.store h)
include L hs

theorem along_objects {p : TermId} {visit : TermId → Except StorageError (Option (List TermId))}
    (hvisit : ∀ c next, visit c = .ok (some next) → v.data.objects c p = .ok next) : Along (Edge h v.data.graph p) visit :=
  fun c next hc _ => GraphView.mem_objects L hs (hvisit c next hc)

theorem along_subjects {p : TermId} : Along (fun a b => Edge h v.data.graph p b a) (fun c => (v.data.subjects p c).map some) := by
  intro c next hc b
  obtain ⟨ss, hread, hss⟩ := of_map_ok hc
  cases hss
  exact GraphView.mem_subjects L hs hread

theorem subclassesOf_found (c : TermId) :
    Found v.data.Fails (FewBelow v h c) (fun d => Subclass v h d c) (fun ds d => d ∈ ds) (v.subclassesOf c) := by
  have hswap : ∀ d, Relation.ReflTransGen (fun a b => Edge h v.data.graph v.sh.rdfsSubclassOf b a) c d ↔ Subclass v h d c :=
    fun d => Relation.reflTransGen_swap
  unfold subclassesOf
  cases hsweep : sweep (fun current => (v.data.subjects v.sh.rdfsSubclassOf current).map some) hierarchyLimit [c] with
  | error e =>
    obtain ⟨m, hm⟩ := sweep_error hsweep
    exact GraphView.read_error (of_map_error hm)
  | ok found =>
    cases found with
    | none =>
      obtain ⟨m, -, hm⟩ := sweep_none (along_subjects L hs) hsweep
      obtain ⟨ss, -, hss⟩ := of_map_ok hm
      cases hss
    | some classes =>
      obtain ⟨hsound, hall⟩ := sweep_some (along_subjects L hs) hsweep
      refine ⟨fun d hd => ?_, fun hfew d hd => ?_⟩
      · obtain ⟨s, hmem, hsd⟩ := hsound d hd
        rw [List.mem_singleton.1 hmem] at hsd
        exact (hswap d).1 hsd
      · have hfew : [c].length + {m | ReachedFrom (fun a b => Edge h v.data.graph v.sh.rdfsSubclassOf b a) [c] m ∧ m ∉ [c]}.ncard <
            hierarchyLimit := by
          refine few_of_below ?_
          simp only [hswap]
          exact hfew
        exact (hall hfew d ⟨c, List.mem_singleton_self c, (hswap d).2 hd⟩).1

theorem instancesOf_found (c : TermId) :
    Found v.data.Fails (FewBelow v h c) (fun n => Instance v h n c) (fun ns n => n ∈ ns) (v.instancesOf c) := by
  have hbelow := subclassesOf_found L hs c
  unfold instancesOf
  cases hclasses : v.subclassesOf c with
  | error e =>
    rw [hclasses] at hbelow
    exact hbelow
  | ok classes =>
    rw [hclasses] at hbelow
    obtain ⟨hsound, hall⟩ := hbelow
    change Found _ _ _ _ (classes.foldlM (fun out c => do return out ++ (← v.data.subjects v.sh.rdfType c)) [])
    cases hout : classes.foldlM (fun out c => do return out ++ (← v.data.subjects v.sh.rdfType c)) [] with
    | error e =>
      obtain ⟨d, -, hd⟩ := foldlM_append_error hout
      exact GraphView.read_error hd
    | ok out =>
      obtain ⟨parts, hparts, rfl⟩ := foldlM_append_iff.1 hout
      rw [List.nil_append]
      refine ⟨fun n hn => ?_, fun hfew n hn => ?_⟩
      · obtain ⟨d, hd, part, hread, hmem⟩ := (mem_collected hparts).1 hn
        exact ⟨d, (GraphView.mem_subjects L hs hread).1 hmem, hsound d hd⟩
      · obtain ⟨d, htype, hsub⟩ := hn
        have hd := hall hfew d hsub
        obtain ⟨part, hread⟩ := exists_part hparts hd
        exact (mem_collected hparts).2 ⟨d, hd, part, hread, (GraphView.mem_subjects L hs hread).2 htype⟩

theorem isInstanceOf_found (n c : TermId) :
    Found v.data.Fails (FewTypes v h n) (fun _ : Unit => Instance v h n c) (fun b _ => b = true) (v.isInstanceOf n c) := by
  unfold isInstanceOf
  cases htypes : v.data.objects n v.sh.rdfType with
  | error e => exact GraphView.read_error htypes
  | ok types =>
    have hreached : ∀ d, ReachedFrom (Edge h v.data.graph v.sh.rdfsSubclassOf) types d ↔ Instance v h n d := by
      intro d
      exact exists_congr (fun type => and_congr_left (fun _ => GraphView.mem_objects L hs htypes))
    have halong : Along (Edge h v.data.graph v.sh.rdfsSubclassOf) (fun current =>
        if current = c then .ok none else (v.data.objects current v.sh.rdfsSubclassOf).map some) := by
      refine along_objects L hs (fun d next hd => ?_)
      split at hd
      · cases hd
      · obtain ⟨os, hread, hos⟩ := of_map_ok hd
        cases hos
        exact hread
    change Found _ _ _ _ (Except.map Option.isNone (sweep (fun current =>
      if current = c then .ok none else (v.data.objects current v.sh.rdfsSubclassOf).map some) hierarchyLimit types))
    cases hsweep : sweep (fun current =>
      if current = c then .ok none else (v.data.objects current v.sh.rdfsSubclassOf).map some) hierarchyLimit types with
    | error e =>
      obtain ⟨m, hm⟩ := sweep_error hsweep
      split at hm
      · cases hm
      · exact GraphView.read_error (of_map_error hm)
    | ok found =>
      cases found with
      | none =>
        obtain ⟨m, hreach, hm⟩ := sweep_none halong hsweep
        have heq : m = c := by
          by_contra hne
          rw [if_neg hne] at hm
          obtain ⟨os, -, hos⟩ := of_map_ok hm
          cases hos
        have hinstance := (hreached m).1 hreach
        rw [heq] at hinstance
        exact ⟨fun _ _ => hinstance, fun _ _ _ => rfl⟩
      | some queue =>
        obtain ⟨-, hall⟩ := sweep_some halong hsweep
        refine ⟨fun _ hfound => (by cases hfound), fun hfew _ hinstance => ?_⟩
        have hfew : types.length + {m | ReachedFrom (Edge h v.data.graph v.sh.rdfsSubclassOf) types m ∧ m ∉ types}.ncard < hierarchyLimit := by
          simp only [hreached]
          exact hfew types htypes
        -- the walk would have stopped at the class
        obtain ⟨-, next, hnext⟩ := hall hfew c ((hreached c).2 hinstance)
        rw [if_pos rfl] at hnext
        cases hnext

theorem isSubclassOf_found (c root : TermId) :
    Found v.data.Fails (FewAbove v h c) (fun _ : Unit => Subclass v h c root) (fun b _ => b = true) (v.isSubclassOf c root) := by
  unfold isSubclassOf
  split
  · rename_i heq
    subst heq
    exact ⟨fun _ _ => .refl, fun _ _ _ => rfl⟩
  · rename_i hne
    have hvisit : ∀ {d next}, (v.data.objects d v.sh.rdfsSubclassOf).map (fun sups => if root ∈ sups then none else some sups) = .ok (some next) →
        v.data.objects d v.sh.rdfsSubclassOf = .ok next ∧ root ∉ next := by
      intro d next hd
      obtain ⟨sups, hread, hsups⟩ := of_map_ok hd
      split at hsups
      · cases hsups
      · rename_i hroot
        cases hsups
        exact ⟨hread, hroot⟩
    have halong := along_objects L hs (v := v) (fun d n hd => (@hvisit d n hd).1)
    change Found _ _ _ _ (Except.map Option.isNone (sweep _ hierarchyLimit [c]))
    cases hsweep : sweep (fun current =>
      (v.data.objects current v.sh.rdfsSubclassOf).map (fun sups => if root ∈ sups then none else some sups)) hierarchyLimit [c] with
    | error e =>
      obtain ⟨m, hm⟩ := sweep_error hsweep
      exact GraphView.read_error (of_map_error hm)
    | ok found =>
      cases found with
      | none =>
        obtain ⟨m, ⟨s, hs', hreach⟩, hm⟩ := sweep_none halong hsweep
        rw [List.mem_singleton.1 hs'] at hreach
        obtain ⟨sups, hread, hsups⟩ := of_map_ok hm
        split at hsups
        · rename_i hroot
          have hsub : Subclass v h c root := hreach.tail ((GraphView.mem_objects L hs hread).1 hroot)
          exact ⟨fun _ _ => hsub, fun _ _ _ => rfl⟩
        · cases hsups
      | some queue =>
        obtain ⟨-, hall⟩ := sweep_some halong hsweep
        refine ⟨fun _ hfound => (by cases hfound), fun hfew _ hsub => ?_⟩
        -- the last step to the root starts at a class that was visited
        rcases Relation.ReflTransGen.cases_tail hsub with heq | ⟨m, hcm, hedge⟩
        · exact absurd heq.symm hne
        · obtain ⟨-, next, hnext⟩ := hall (few_of_below hfew) m ⟨c, List.mem_singleton_self c, hcm⟩
          obtain ⟨hread, hroot⟩ := hvisit hnext
          exact absurd ((GraphView.mem_objects L hs hread).2 hedge) hroot

theorem classesOf_found (n : TermId) :
    Found v.data.Fails (FewTypes v h n) (fun c => Instance v h n c) (fun cs c => c ∈ cs) (v.classesOf n) := by
  unfold classesOf
  cases htypes : v.data.objects n v.sh.rdfType with
  | error e => exact GraphView.read_error htypes
  | ok types =>
    have hreached : ∀ d, ReachedFrom (Edge h v.data.graph v.sh.rdfsSubclassOf) types d ↔ Instance v h n d := by
      intro d
      exact exists_congr (fun type => and_congr_left (fun _ => GraphView.mem_objects L hs htypes))
    have halong : Along (Edge h v.data.graph v.sh.rdfsSubclassOf) (fun c => (v.data.objects c v.sh.rdfsSubclassOf).map some) := by
      refine along_objects L hs (fun d next hd => ?_)
      obtain ⟨os, hread, hos⟩ := of_map_ok hd
      cases hos
      exact hread
    change Found _ _ _ _ (Except.map (·.getD []) (sweep (fun c => (v.data.objects c v.sh.rdfsSubclassOf).map some) hierarchyLimit types))
    cases hsweep : sweep (fun c => (v.data.objects c v.sh.rdfsSubclassOf).map some) hierarchyLimit types with
    | error e =>
      obtain ⟨m, hm⟩ := sweep_error hsweep
      exact GraphView.read_error (of_map_error hm)
    | ok found =>
      cases found with
      | none =>
        obtain ⟨m, -, hm⟩ := sweep_none halong hsweep
        obtain ⟨os, -, hos⟩ := of_map_ok hm
        cases hos
      | some classes =>
        obtain ⟨hsound, hall⟩ := sweep_some halong hsweep
        refine ⟨fun d hd => (hreached d).1 (hsound d hd), fun hfew d hd => ?_⟩
        have hfew : types.length + {m | ReachedFrom (Edge h v.data.graph v.sh.rdfsSubclassOf) types m ∧ m ∉ types}.ncard < hierarchyLimit := by
          simp only [hreached]
          exact hfew types htypes
        exact (hall hfew d ((hreached d).2 hd)).1

omit L hs in
theorem focusNodes_class {idx : ShapeIdx} {shape : Shape} {c : TermId} (hshape : v.shapes.shapes[idx]? = some shape)
    (htargets : shape.targets = [.class c]) : v.focusNodes idx = read ((v.instancesOf c).map (sortDedup id)) := by
  have hread : v.shapes.shape idx = pure shape := by
    unfold Shapes.shape
    rw [hshape]
    rfl
  have hselects : v.selects (.class c) = read (v.instancesOf c) := rfl
  unfold focusNodes
  rw [hread, pure_bind, htargets, List.foldlM_cons, hselects]
  cases v.instancesOf c <;> rfl

theorem focusNodes_found {idx : ShapeIdx} {shape : Shape} {c : TermId} (hshape : v.shapes.shapes[idx]? = some shape)
    (htargets : shape.targets = [.class c]) : ∃ r, v.focusNodes idx = read r ∧
      Found v.data.Fails (FewBelow v h c) (fun n => Instance v h n c) (fun ns n => n ∈ ns) r := by
  have hfound := instancesOf_found L hs c
  refine ⟨_, focusNodes_class hshape htargets, ?_⟩
  cases hinstances : v.instancesOf c with
  | error e =>
    rw [hinstances] at hfound
    exact hfound
  | ok ns =>
    rw [hinstances] at hfound
    have hmem : ∀ n, n ∈ sortDedup id ns ↔ n ∈ ns := fun n => mem_sortDedup Function.injective_id
    exact ⟨fun n hn => hfound.1 n ((hmem n).1 hn), fun hfew n hn => (hmem n).2 (hfound.2 hfew n hn)⟩

/-- The focus nodes of a class, the class tests and the class walk of `sh:ByTypes` follow one closure. Each is sound, and has
all of it where the classes are fewer than a walk is cut short at. -/
theorem classes_found :
    (∀ idx shape c, v.shapes.shapes[idx]? = some shape → shape.targets = [.class c] → ∃ r, v.focusNodes idx = read r ∧
      Found v.data.Fails (FewBelow v h c) (fun n => Instance v h n c) (fun ns n => n ∈ ns) r) ∧
    (∀ n c, Found v.data.Fails (FewTypes v h n) (fun _ : Unit => Instance v h n c) (fun b _ => b = true) (v.isInstanceOf n c)) ∧
    (∀ c root, Found v.data.Fails (FewAbove v h c) (fun _ : Unit => Subclass v h c root) (fun b _ => b = true) (v.isSubclassOf c root)) ∧
    (∀ n, Found v.data.Fails (FewTypes v h n) (fun c => Instance v h n c) (fun cs c => c ∈ cs) (v.classesOf n)) :=
  ⟨fun _ _ _ hshape htargets => focusNodes_found L hs hshape htargets, isInstanceOf_found L hs, isSubclassOf_found L hs,
    classesOf_found L hs⟩

end

end Validator

namespace InMemory

open Validator

/-- One shape for a class, over these quads. -/
def targeting (c : TermId) (quads : List EncodedQuad) : Validator (MemoryStorage.backend Dictionary.bare) where
  shapes := ⟨[⟨blank, none, none, [.class c], [], p, [], [], false⟩], [], [], by simp [Shape.paths]⟩
  data := ⟨storing quads, .any⟩
  sh := vocabulary
  validateShape _ _ _ := pure []

/-- A class of the thing `x`, and a class above it. -/
def below : Validator (MemoryStorage.backend Dictionary.bare) :=
  targeting y [⟨x, vocabulary.rdfType, p, none⟩, ⟨p, vocabulary.rdfsSubclassOf, y, none⟩]

end InMemory

namespace Validator

open InMemory in
theorem classes_found_below : ∃ h, (∀ n, Instance below h n y → n = x) ∧ Instance below h x y ∧
    ∃ r, below.focusNodes 0 = read r ∧ ∀ ns, r = .ok ns → ∀ n ∈ ns, n = x := by
  obtain ⟨h, hs, hmem⟩ := storing_stands [⟨x, vocabulary.rdfType, p, none⟩, ⟨p, vocabulary.rdfsSubclassOf, y, none⟩]
  obtain ⟨hfocus, htest, -, -⟩ := @classes_found _ _ _ below h (MemoryStorage.lawful Dictionary.bare_lawful) hs
  have honly : ∀ n, Instance below h n y → n = x := by
    rintro n ⟨type, ⟨g, hq, -⟩, -⟩
    rcases List.mem_cons.1 ((hmem _).1 hq) with heq | hq
    · exact (EncodedQuad.mk.inj heq).1
    · have hpredicate : vocabulary.rdfType = vocabulary.rdfsSubclassOf := (EncodedQuad.mk.inj (List.mem_singleton.1 hq)).2.1
      exact absurd hpredicate (by decide)
  refine ⟨h, honly, ?_, ?_⟩
  · have htrue : below.isInstanceOf x y = .ok true := by decide +kernel
    have := htest x y
    rw [htrue] at this
    exact this.1 () rfl
  · obtain ⟨r, hr, hfound⟩ := hfocus 0 _ y rfl rfl
    refine ⟨r, hr, fun ns hns n hn => ?_⟩
    rw [hns] at hfound
    exact honly n (hfound.1 n hn)

/-! ### A node with too many types -/

namespace Many

open InMemory

def kind (i : Fin hierarchyLimit) : TermId :=
  TermId.new .iri (1000 + i.val) (by
    have hlt : i.val < 10000 := i.isLt
    unfold TermId.payloadMax
    omega)

theorem kind_injective : Function.Injective kind := by
  intro i j hij
  have hpayload := congrArg TermId.payload hij
  simp only [kind, TermId.payload_new] at hpayload
  exact Fin.ext (by omega)

/-- `x` is of as many kinds as there may be classes in a walk. -/
def typed : List EncodedQuad := (List.finRange hierarchyLimit).map (fun i => ⟨x, vocabulary.rdfType, kind i, none⟩)

theorem mem_typed {q : EncodedQuad} : q ∈ typed ↔ ∃ i, ⟨x, vocabulary.rdfType, kind i, none⟩ = q := by
  unfold typed
  simp only [List.mem_map, List.mem_finRange, true_and]

def first : Fin hierarchyLimit := ⟨0, by decide⟩

def validator : Validator (MemoryStorage.backend Dictionary.bare) := targeting (kind first) typed

theorem validator_store : validator.data.store = storing typed := by
  unfold validator targeting
  dsimp only

/-- Whatever the shapes are, the test denies what the walk downwards finds. -/
theorem denied_and_found {w : Validator (MemoryStorage.backend Dictionary.bare)} (hstore : w.data.store = storing typed)
    (hgraph : w.data.graph = .any) (hsh : w.sh = vocabulary) :
    w.isInstanceOf x (kind first) = .ok false ∧ ∃ ns, w.instancesOf (kind first) = .ok ns ∧ x ∈ ns := by
  obtain ⟨h, hs, hmem⟩ := storing_stands typed
  rw [← hstore] at hs
  have L := MemoryStorage.lawful Dictionary.bare_lawful
  have hedge : ∀ i, Edge h w.data.graph w.sh.rdfType x (kind i) := by
    intro i
    rw [hgraph, hsh]
    exact ⟨none, (hmem _).2 (mem_typed.2 ⟨i, rfl⟩), rfl⟩
  constructor
  · obtain ⟨types, htypes⟩ : ∃ types, w.data.objects x w.sh.rdfType = .ok types := ⟨_, rfl⟩
    have hlong : hierarchyLimit ≤ types.length := by
      have hsub : (List.finRange hierarchyLimit).map kind ⊆ types := by
        intro c hc
        obtain ⟨i, -, rfl⟩ := List.mem_map.1 hc
        exact (GraphView.mem_objects L hs htypes).2 (hedge i)
      have hnodup := (List.nodup_finRange hierarchyLimit).map kind_injective
      have := (hnodup.subperm hsub).length_le
      rwa [List.length_map, List.length_finRange] at this
    unfold isInstanceOf
    rw [htypes]
    change (sweep _ hierarchyLimit types).map Option.isNone = _
    rw [sweep_long hlong]
    rfl
  · have hfound := instancesOf_found L hs (kind first)
    have hfew : FewBelow w h (kind first) := by
      have halone : {d | Subclass w h d (kind first)} ⊆ {kind first} := by
        intro d hd
        rcases Relation.ReflTransGen.cases_head hd with heq | ⟨e, ⟨g, hq, -⟩, -⟩
        · exact heq
        · obtain ⟨i, hi⟩ := mem_typed.1 ((hmem _).1 hq)
          have hpredicate : vocabulary.rdfType = w.sh.rdfsSubclassOf := (EncodedQuad.mk.inj hi).2.1
          rw [hsh] at hpredicate
          exact absurd hpredicate (by decide)
      have hle := Set.ncard_le_ncard halone (Set.toFinite _)
      rw [Set.ncard_singleton] at hle
      exact lt_of_le_of_lt hle (by decide)
    cases hinstances : w.instancesOf (kind first) with
    | error e =>
      rw [hinstances] at hfound
      obtain ⟨s, p, o, hscan⟩ := hfound
      cases hscan
    | ok ns =>
      rw [hinstances] at hfound
      exact ⟨ns, rfl, hfound.2 hfew x ⟨kind first, hedge first, .refl⟩⟩

end Many

open InMemory Many in
/-- A target selects the node, and the class test denies it. -/
theorem targets_and_tests_disagree : Many.validator.isInstanceOf x (kind first) = .ok false ∧
    ∃ ns, Many.validator.focusNodes 0 = read (.ok ns) ∧ x ∈ ns := by
  obtain ⟨hdenied, ns, hns, hx⟩ := denied_and_found Many.validator_store rfl rfl
  refine ⟨hdenied, sortDedup id ns, ?_, (mem_sortDedup Function.injective_id).2 hx⟩
  rw [focusNodes_class (c := kind first) rfl rfl, hns]
  rfl

end Validator

end Holos.Shacl
