import Holos.ShaclEngine.GraphTheorems
import Holos.ShaclEngine.Path
import Mathlib.Data.List.Flatten
import Mathlib.Tactic.NormNum
/-!
# What a path reaches

Following a path from many focus nodes at once gives each of them exactly the nodes the path relates it
to, whatever the graph's cycles, and however the focus nodes' ways overlap.
-/

namespace Holos.ShaclEngine

open Lib Relation

/-- A triple of the graph, as an edge. -/
def edge (data : Graph) (p a b : TermId) : Prop := ⟨a, p, b⟩ ∈ data.triples

/-- Where a path leads, forwards or in reverse. -/
def Leads (data : Graph) (path : Path) : Bool → TermId → TermId → Prop
  | false => path.Rel (edge data)
  | true => fun a b => path.Rel (edge data) b a

/-- A relation between nodes, for pairs: the origin stays. -/
def Moves (R : TermId → TermId → Prop) (x y : Pair) : Prop := x.1 = y.1 ∧ R x.2 y.2

/-- A walk adds what `R` leads to. -/
abbrev Follows (R : TermId → TermId → Prop) (walk : List Pair → Option (List Pair)) : Prop := Expands (Moves R) walk

variable {data : Graph} {R S : TermId → TermId → Prop} {walk : List Pair → Option (List Pair)}

@[simp] theorem mem_normalise {pairs : List Pair} {x : Pair} : x ∈ normalise pairs ↔ x ∈ pairs := mem_sortDedup toLex.injective

theorem Follows.congr (h : Follows R walk) (hRS : ∀ a b, R a b ↔ S a b) : Follows S walk := by
  obtain rfl : R = S := funext fun a => funext fun b => propext (hRS a b)
  exact h

/-! ## The steps -/

theorem TransGen.moves {o : Origin} {a b : TermId} (h : TransGen R a b) : TransGen (Moves R) (o, a) (o, b) := by
  induction h with
  | single h => exact .single ⟨rfl, h⟩
  | tail _ h ih => exact ih.tail ⟨rfl, h⟩

theorem transGen_moves {x y : Pair} : TransGen (Moves R) x y ↔ Moves (TransGen R) x y := by
  constructor
  · intro h
    induction h with
    | single h => exact ⟨h.1, .single h.2⟩
    | tail _ h ih => exact ⟨ih.1.trans h.1, ih.2.tail h.2⟩
  · obtain ⟨o, a⟩ := x
    obtain ⟨o', b⟩ := y
    rintro ⟨rfl : o = o', h⟩
    exact TransGen.moves h

/-- There are fewer pairs than rounds. -/
theorem card_pair : Fintype.card Pair < rounds := by
  simp only [Fintype.card_prod, Fintype.card_fin, rounds]
  norm_num

theorem closure_follows (h : Follows R walk) : Follows (TransGen R) (fun input => closure walk rounds input) := by
  intro input
  obtain ⟨out, hout, hmem⟩ := levels_below (fun _ _ => mem_normalise) h card_pair input
  refine ⟨out, hout, fun y => ?_⟩
  simp only [hmem, transGen_moves]

theorem mem_probeNode {p : TermId} {reverse : Bool} {origins : List (TermId ×ₗ Origin)} {a : TermId}
    (hnode : ∀ o ∈ origins, (ofLex o).1 = a) {y : Pair} :
    y ∈ probeNode data p reverse origins ↔ toLex (a, y.1) ∈ origins ∧ Leads data (.predicate p) reverse a y.2 := by
  cases origins with
  | nil => simp [probeNode]
  | cons first rest =>
    have hfound : ∀ t, t ∈ (if reverse then data.subjects p a else data.objects a p) ↔ Leads data (.predicate p) reverse a t := by
      intro t
      cases reverse with
      | false => exact data.answers.objects a p t
      | true => exact data.answers.subjects p a t
    rw [probeNode, hnode first List.mem_cons_self, List.mem_flatMap]
    simp only [hfound]
    constructor
    · rintro ⟨t, ht, hy⟩
      obtain ⟨o, ho, rfl⟩ := List.mem_map.1 hy
      refine ⟨?_, ht⟩
      rw [← hnode o ho]
      exact ho
    · rintro ⟨ho, ht⟩
      exact ⟨y.2, ht, List.mem_map.2 ⟨_, ho, rfl⟩⟩

/-- Every pair is probed once, in the group of its node. -/
theorem probe_follows (p : TermId) (reverse : Bool) :
    Follows (Leads data (.predicate p) reverse) (fun input => some (probe data p reverse input)) := by
  intro input
  refine ⟨_, rfl, fun y => ?_⟩
  have hbyNode : ∀ a, toLex (a, y.1) ∈ (input.map (fun pair => toLex (pair.2, pair.1))).mergeSort (fun a b => decide (a ≤ b)) ↔
      (y.1, a) ∈ input := by
    intro a
    rw [(List.mergeSort_perm _ _).mem_iff, List.mem_map]
    constructor
    · rintro ⟨⟨o, b⟩, hmem, h⟩
      cases h
      exact hmem
    · exact fun h => ⟨_, h, rfl⟩
  rw [probe, List.mem_flatMap]
  constructor
  · rintro ⟨g, hg, hy⟩
    obtain ⟨o, ho⟩ := List.exists_mem_of_ne_nil g (ne_nil_of_mem_groups hg)
    have hnode : ∀ o' ∈ g, (ofLex o').1 = (ofLex o).1 := fun o' ho' => key_of_mem_groups hg ho' ho
    obtain ⟨hmem, hlead⟩ := (mem_probeNode hnode).1 hy
    exact ⟨_, (hbyNode _).1 (mem_groups.1 ⟨g, hg, hmem⟩), rfl, hlead⟩
  · rintro ⟨⟨o, a⟩, hmem, rfl : o = y.1, hlead⟩
    have hgroup : ∃ g ∈ groups (fun o : TermId ×ₗ Origin => (ofLex o).1) _, toLex (a, y.1) ∈ g := mem_groups.2 ((hbyNode a).2 hmem)
    obtain ⟨g, hg, ho⟩ := hgroup
    have hnode : ∀ o' ∈ g, (ofLex o').1 = a := fun o' ho' => key_of_mem_groups hg ho' ho
    exact ⟨g, hg, (mem_probeNode hnode).2 ⟨ho, hlead⟩⟩

/-! ## Putting walks together -/

theorem eachAdds_follows {Rs : List (TermId → TermId → Prop)} {walks : List (List Pair → Option (List Pair))}
    (h : List.Forall₂ Follows Rs walks) : Follows (fun a b => ∃ R ∈ Rs, R a b) (eachAdds walks) := by
  induction h with
  | nil => exact fun _ => ⟨[], rfl, by simp [Moves]⟩
  | cons hwalk _ ih =>
    intro input
    obtain ⟨out, hout, hmem⟩ := hwalk input
    obtain ⟨out', hout', hmem'⟩ := ih input
    refine ⟨out ++ out', by simp [eachAdds, hout, hout'], fun y => ?_⟩
    rw [List.mem_append, hmem, hmem']
    simp only [Moves, List.mem_cons, exists_eq_or_imp, ← exists_or, ← and_or_left]

theorem inOrder_follows {Rs : List (TermId → TermId → Prop)} {walks : List (List Pair → Option (List Pair))}
    (h : List.Forall₂ Follows Rs walks) : Follows (Rs.foldr Comp Eq) (inOrder walks) := by
  induction h with
  | nil =>
    refine fun input => ⟨input, rfl, fun y => ?_⟩
    simp [Moves]
  | @cons R walk Rs walks hwalk _ ih =>
    intro input
    obtain ⟨next, hnext, hmem⟩ := hwalk input
    have hlead : ∀ y, (∃ x ∈ input, Moves (Comp R (Rs.foldr Comp Eq)) x y) ↔
        ∃ z ∈ normalise next, Moves (Rs.foldr Comp Eq) z y := by
      intro y
      constructor
      · rintro ⟨x, hx, ho, b, hxb, hby⟩
        exact ⟨(x.1, b), mem_normalise.2 ((hmem _).2 ⟨x, hx, rfl, hxb⟩), ho, hby⟩
      · rintro ⟨z, hz, ho, hzy⟩
        obtain ⟨x, hx, ho', hxz⟩ := (hmem z).1 (mem_normalise.1 hz)
        exact ⟨x, hx, ho'.trans ho, z.2, hxz, hzy⟩
    rw [inOrder, hnext]
    by_cases hnone : normalise next = []
    · refine ⟨[], ?_, fun y => ?_⟩
      · rw [Option.bind_eq_bind, Option.bind_some, hnone]
        rfl
      · rw [List.foldr_cons, hlead, hnone]
        simp
    · obtain ⟨out, hout, hall⟩ := ih (normalise next)
      refine ⟨out, ?_, fun y => ?_⟩
      · rw [Option.bind_eq_bind, Option.bind_some, if_neg (by simpa using hnone)]
        exact hout
      · rw [List.foldr_cons, hlead, hall]

/-! ## Paths -/

theorem relSeq_eq (steps : List Path) (a b : TermId) :
    PathExpr.RelSeq (edge data) steps a b ↔ (steps.map (Leads data · false)).foldr Comp Eq a b := by
  induction steps generalizing a with
  | nil => rfl
  | cons step steps ih =>
    rw [PathExpr.RelSeq, List.map_cons, List.foldr_cons]
    exact exists_congr fun c => and_congr_right fun _ => ih c

theorem comp_concat (Rs : List (TermId → TermId → Prop)) (R : TermId → TermId → Prop) (a b : TermId) :
    (Rs ++ [R]).foldr Comp Eq a b ↔ Comp (Rs.foldr Comp Eq) R a b := by
  induction Rs generalizing a with
  | nil =>
    simp only [List.nil_append, List.foldr_cons, List.foldr_nil, Comp]
    constructor
    · rintro ⟨c, hac, rfl⟩
      exact ⟨a, rfl, hac⟩
    · rintro ⟨c, rfl, hcb⟩
      exact ⟨b, hcb, rfl⟩
  | cons S Rs ih =>
    simp only [List.cons_append, List.foldr_cons, Comp, ih]
    constructor
    · rintro ⟨c, hac, d, hcd, hdb⟩
      exact ⟨d, ⟨c, hac, hcd⟩, hdb⟩
    · rintro ⟨d, ⟨c, hac, hcd⟩, hdb⟩
      exact ⟨c, hac, d, hcd, hdb⟩

/-- The steps in reverse, last one first. -/
theorem relSeq_reverse (steps : List Path) (a b : TermId) :
    PathExpr.RelSeq (edge data) steps b a ↔ ((steps.map (Leads data · true)).reverse).foldr Comp Eq a b := by
  induction steps generalizing b with
  | nil => exact eq_comm
  | cons step steps ih =>
    rw [PathExpr.RelSeq, List.map_cons, List.reverse_cons, comp_concat]
    constructor
    · rintro ⟨c, hbc, hca⟩
      exact ⟨c, (ih c).1 hca, hbc⟩
    · rintro ⟨c, hac, hcb⟩
      exact ⟨c, hcb, (ih c).2 hac⟩

theorem relAny_iff (alts : List Path) (reverse : Bool) (a b : TermId) :
    Leads data (.alternative alts) reverse a b ↔ ∃ R ∈ alts.map (Leads data · reverse), R a b := by
  have hany : ∀ a b, PathExpr.RelAny (edge data) alts a b ↔ ∃ path ∈ alts, path.Rel (edge data) a b := by
    intro a b
    induction alts with
    | nil => simp [PathExpr.RelAny]
    | cons path alts ih => simp [PathExpr.RelAny, ih]
  cases reverse <;> simp [Leads, PathExpr.Rel, hany]

theorem leads_inverse (inner : Path) (reverse : Bool) (a b : TermId) :
    Leads data (.inverse inner) reverse a b ↔ Leads data inner (!reverse) a b := by cases reverse <;> rfl

/-- A closure in reverse is the closure of the reverse. -/
theorem leads_oneOrMore (inner : Path) (reverse : Bool) (a b : TermId) :
    Leads data (.oneOrMore inner) reverse a b ↔ TransGen (Leads data inner reverse) a b := by
  cases reverse with
  | false => rfl
  | true => exact transGen_swap.symm

theorem leads_zeroOrMore (inner : Path) (reverse : Bool) (a b : TermId) :
    Leads data (.zeroOrMore inner) reverse a b ↔ a = b ∨ TransGen (Leads data inner reverse) a b := by
  rw [← leads_oneOrMore]
  cases reverse with
  | false => exact reflTransGen_iff_eq_or_transGen.trans (or_congr_left eq_comm)
  | true => exact reflTransGen_iff_eq_or_transGen

theorem leads_zeroOrOne (inner : Path) (reverse : Bool) (a b : TermId) :
    Leads data (.zeroOrOne inner) reverse a b ↔ a = b ∨ Leads data inner reverse a b := by
  cases reverse with
  | false => exact (reflGen_iff _ _ _).trans (or_congr_left eq_comm)
  | true => exact reflGen_iff _ _ _

/-- What was there, and what a walk adds to it. -/
theorem Follows.orStay (h : Follows R walk) : Follows (fun a b => a = b ∨ R a b) (fun input => do return input ++ (← walk input)) := by
  intro input
  obtain ⟨out, hout, hmem⟩ := h input
  refine ⟨input ++ out, by simp [hout], fun y => ?_⟩
  rw [List.mem_append, hmem]
  constructor
  · rintro (hy | ⟨x, hx, ho, hR⟩)
    · exact ⟨y, hy, rfl, .inl rfl⟩
    · exact ⟨x, hx, ho, .inr hR⟩
  · rintro ⟨x, hx, ho, hxy | hR⟩
    · rw [Prod.ext ho hxy] at hx
      exact .inl hx
    · exact .inr ⟨x, hx, ho, hR⟩

mutual

/-- Following a path adds what it leads to. -/
theorem walk_follows (data : Graph) : ∀ (path : Path) (reverse : Bool), Follows (Leads data path reverse) (ShaclEngine.walk data path reverse)
  | .predicate p, reverse => probe_follows p reverse
  | .inverse inner, reverse => (walk_follows data inner (!reverse)).congr (fun a b => (leads_inverse inner reverse a b).symm)
  | .sequence steps, false => (inOrder_follows (walks_follow data steps false)).congr (fun a b => (relSeq_eq steps a b).symm)
  | .sequence steps, true =>
    (inOrder_follows (List.rel_reverse (walks_follow data steps true))).congr (fun a b => (relSeq_reverse steps a b).symm)
  | .alternative alts, reverse => (eachAdds_follows (walks_follow data alts reverse)).congr (fun a b => (relAny_iff alts reverse a b).symm)
  | .zeroOrMore inner, reverse =>
    (closure_follows (walk_follows data inner reverse)).orStay.congr (fun a b => (leads_zeroOrMore inner reverse a b).symm)
  | .oneOrMore inner, reverse =>
    (closure_follows (walk_follows data inner reverse)).congr (fun a b => (leads_oneOrMore inner reverse a b).symm)
  | .zeroOrOne inner, reverse => (walk_follows data inner reverse).orStay.congr (fun a b => (leads_zeroOrOne inner reverse a b).symm)

theorem walks_follow (data : Graph) : ∀ (paths : List Path) (reverse : Bool),
    List.Forall₂ Follows (paths.map (Leads data · reverse)) (walks data paths reverse)
  | [], _ => .nil
  | path :: paths, reverse => .cons (walk_follows data path reverse) (walks_follow data paths reverse)

end

/-! ## Rows -/

/-- The compressed form of these rows. -/
structure Cut (v : ValueSets) (rows : List ValueRow) : Prop where
  focus : v.focus = rows.map ValueRow.focus
  values : v.values = rows.flatMap ValueRow.values
  offsets : v.offsets = (List.range (rows.length + 1)).map (fun k => ((rows.take k).flatMap ValueRow.values).length % 2 ^ 32)

theorem Cut.empty : Cut .empty [] := ⟨rfl, rfl, rfl⟩

theorem Cut.push {v : ValueSets} {rows : List ValueRow} (h : Cut v rows) (f : TermId) (values : List TermId) :
    Cut (v.pushRow f values) (rows ++ [ValueRow.mk f (sortDedup id values)]) where
  focus := by simp [ValueSets.pushRow, h.focus]
  values := by simp [ValueSets.pushRow, h.values]
  offsets := by
    have hearlier : ∀ k ∈ List.range (rows.length + 1), (rows ++ [ValueRow.mk f (sortDedup id values)]).take k = rows.take k := by
      intro k hk
      exact List.take_append_of_le_length (Nat.lt_succ_iff.1 (List.mem_range.1 hk))
    rw [List.length_append, List.length_singleton, List.range_succ, List.map_append, List.map_singleton, ValueSets.pushRow,
      List.map_congr_left (fun k hk => by rw [hearlier k hk]), ← h.offsets, List.take_of_length_le (by simp)]
    simp [h.values]

/-- A row is read back, as long as the values are numbered by 32 bits. -/
theorem Cut.row {v : ValueSets} {rows : List ValueRow} (h : Cut v rows) (hfit : v.values.length < 2 ^ 32) {i : Nat} (hi : i < rows.length) :
    v.row i = some rows[i] := by
  have hstart : ∀ k ≤ rows.length, v.offsets[k]? = some ((rows.take k).flatMap ValueRow.values).length := by
    intro k hk
    have hle : ((rows.take k).flatMap ValueRow.values).length ≤ v.values.length := by
      rw [h.values]
      exact ((List.take_sublist k rows).flatMap _).length_le
    rw [h.offsets, List.getElem?_map, List.getElem?_range (Nat.lt_succ_of_le hk), Option.map_some, Nat.mod_eq_of_lt (hle.trans_lt hfit)]
  have hstep : (rows.take (i + 1)).flatMap ValueRow.values = (rows.take i).flatMap ValueRow.values ++ rows[i].values := by
    rw [List.take_succ_eq_append_getElem hi, List.flatMap_append]
    simp
  have hsplit : v.values = (rows.take (i + 1)).flatMap ValueRow.values ++ (rows.drop (i + 1)).flatMap ValueRow.values := by
    rw [h.values, ← List.flatMap_append, List.take_append_drop]
  have hfocus : v.focus[i]? = some rows[i].focus := by
    rw [h.focus, List.getElem?_map, List.getElem?_eq_getElem hi, Option.map_some]
  unfold ValueSets.row
  rw [hstart i hi.le, hstart (i + 1) hi, hfocus, hsplit]
  simp only [Option.bind_eq_bind, Option.bind_some]
  rw [List.take_left, hstep, List.drop_left]
  simp

/-- The row of one origin. -/
def rowOf (reached : List Pair) (fi : TermId × Nat) : ValueRow :=
  ⟨fi.1, sortDedup id ((reached.filter (fun pair => pair.1 = Fin.ofNat (2 ^ 32) fi.2)).map (·.2))⟩

theorem ofNat_inj {i j : Nat} (hi : i < 2 ^ 32) (hj : j < 2 ^ 32) (h : (Fin.ofNat (2 ^ 32) i : Origin) = Fin.ofNat (2 ^ 32) j) : i = j := by
  have hval : i % 2 ^ 32 = j % 2 ^ 32 := congrArg Fin.val h
  rwa [Nat.mod_eq_of_lt hi, Nat.mod_eq_of_lt hj] at hval

/-- Pairs in the order of their origins are cut where the origin changes. -/
theorem rowsFrom_cut {focus : List TermId} {reached : List Pair} {v : ValueSets} {rows : List ValueRow} {i : Nat} (h : Cut v rows)
    (hsorted : reached.Pairwise (fun x y => x.1 ≤ y.1)) (hfrom : ∀ x ∈ reached, i ≤ x.1.val) (hroom : i + focus.length ≤ 2 ^ 32) :
    Cut (rowsFrom reached v i focus) (rows ++ (focus.zipIdx i).map (rowOf reached)) := by
  induction focus generalizing reached v rows i with
  | nil => simpa [rowsFrom] using h
  | cons f focus ih =>
    rw [List.length_cons] at hroom
    have hmine : ∀ x : Pair, x.1 = Fin.ofNat (2 ^ 32) i ↔ x.1.val = i := by
      intro x
      have hval : (Fin.ofNat (2 ^ 32) i : Origin).val = i := Nat.mod_eq_of_lt (by omega)
      rw [Fin.ext_iff, hval]
    have hblock : reached.Pairwise (fun x y => x.1 ≤ y.1 ∧ i ≤ x.1.val) :=
      hsorted.imp_of_mem (fun {x y} hx _ hxy => ⟨hxy, hfrom x hx⟩)
    have hfirst : ∀ x y : Pair, x.1 ≤ y.1 ∧ i ≤ x.1.val → decide (y.1 = Fin.ofNat (2 ^ 32) i) = true →
        decide (x.1 = Fin.ofNat (2 ^ 32) i) = true := by
      intro x y hxy hy
      rw [decide_eq_true_eq, hmine] at *
      have hle : x.1.val ≤ y.1.val := hxy.1
      omega
    rw [rowsFrom, takeWhile_eq_filter hblock hfirst, dropWhile_eq_filter hblock hfirst]
    have hlater : ∀ x ∈ reached.filter (fun pair => !decide (pair.1 = Fin.ofNat (2 ^ 32) i)), i + 1 ≤ x.1.val := by
      intro x hx
      obtain ⟨hx, hne⟩ := List.mem_filter.1 hx
      rw [Bool.not_eq_true', decide_eq_false_iff_not, hmine] at hne
      have := hfrom x hx
      omega
    have hrest := ih (h.push f ((reached.filter (fun pair => decide (pair.1 = Fin.ofNat (2 ^ 32) i))).map (·.2))) (hsorted.filter _)
      hlater (by omega)
    rw [List.zipIdx_cons, List.map_cons, ← List.singleton_append, ← List.append_assoc]
    refine (congrArg (Cut _) (congrArg₂ (· ++ ·) rfl (List.map_congr_left fun fi hfi => ?_))).mp hrest
    have hidx := List.mem_zipIdx hfi
    rw [rowOf, rowOf, List.filter_filter]
    congr 3
    refine List.filter_congr fun x _ => ?_
    cases hx : decide (x.1 = Fin.ofNat (2 ^ 32) fi.2) with
    | false => rfl
    | true =>
      have hne : ¬ x.1 = Fin.ofNat (2 ^ 32) i := by
        rw [of_decide_eq_true hx]
        exact fun heq => by have := ofNat_inj (by omega) (by omega) heq; omega
      rw [decide_eq_false hne]
      rfl

theorem mem_startPairs {focus : List TermId} {x : Pair} :
    x ∈ startPairs focus ↔ ∃ i, ∃ hi : i < focus.length, x = (Fin.ofNat (2 ^ 32) i, focus[i]) := by
  unfold startPairs
  rw [List.mem_map]
  constructor
  · rintro ⟨⟨f, i⟩, hmem, rfl⟩
    obtain ⟨-, hi, hf⟩ := List.mem_zipIdx hmem
    exact ⟨i, by simpa using hi, by simpa using hf⟩
  · rintro ⟨i, hi, rfl⟩
    exact ⟨(focus[i], i), List.mem_zipIdx_iff_getElem?.2 (by simp [hi]), rfl⟩

/-- A path followed from any focus nodes, either way: every focus node has its own row, of exactly the nodes the path leads
it to, in order, whatever the others reach. -/
theorem evalSetsDir_exact (data : Graph) (path : Path) (reverse : Bool) (focus : List TermId) (hfocus : focus.length ≤ 2 ^ 32) :
    ∃ v, evalSetsDir data path reverse focus = some v ∧ v.focus = focus ∧ (v.values.length < 2 ^ 32 → ∀ i (hi : i < focus.length),
      ∃ values, v.row i = some ⟨focus[i], values⟩ ∧ values.Pairwise (· < ·) ∧ ∀ t, t ∈ values ↔ Leads data path reverse focus[i] t) := by
  obtain ⟨reached, hreached, hmem⟩ := walk_follows data path reverse (startPairs focus)
  have hsorted : (normalise reached).Pairwise (fun x y => x.1 ≤ y.1) := by
    have hlex : (normalise reached).Pairwise (fun x y => toLex x < toLex y) := List.pairwise_map.1 (sortDedup_sorted toLex reached)
    refine hlex.imp (fun {x y} hxy => ?_)
    rcases Prod.Lex.toLex_lt_toLex.1 hxy with h | ⟨h, -⟩
    · exact h.le
    · exact h.le
  have hcut : Cut (rowsFrom (normalise reached) .empty 0 focus) _ :=
    rowsFrom_cut Cut.empty hsorted (fun _ _ => Nat.zero_le _) (by omega)
  refine ⟨_, by rw [evalSetsDir, hreached]; rfl, ?_, fun hfit i hi => ?_⟩
  · rw [hcut.focus, List.nil_append, List.map_map]
    exact List.zipIdx_map_fst 0 focus
  · have hrow := hcut.row hfit (i := i) (by simpa using hi)
    refine ⟨_, hrow.trans (by simp [rowOf]; rfl), ?_, fun t => ?_⟩
    · simpa using sortDedup_sorted id _
    · rw [mem_sortDedup Function.injective_id]
      simp only [List.mem_map, List.mem_filter, mem_normalise, hmem, decide_eq_true_eq]
      constructor
      · rintro ⟨⟨o, t'⟩, ⟨⟨x, hx, ho, hlead⟩, heq⟩, rfl⟩
        obtain ⟨j, hj, rfl⟩ := mem_startPairs.1 hx
        obtain rfl : j = i := ofNat_inj (by omega) (by omega) (ho.trans heq)
        exact hlead
      · intro hlead
        exact ⟨(_, t), ⟨⟨_, mem_startPairs.2 ⟨i, hi, rfl⟩, rfl, hlead⟩, rfl⟩, rfl⟩

/-- On a cycle. -/
theorem evalSetsDir_cycle : ([5] : List TermId).length ≤ 2 ^ 32 ∧
    ∃ v, evalSetsDir (Graph.build [⟨5, 1, 6⟩, ⟨6, 1, 5⟩]) (.oneOrMore (.predicate 1)) false [5] = some v ∧ v.focus = [5] := by
  have hfocus : ([5] : List TermId).length ≤ 2 ^ 32 := by simp
  obtain ⟨v, hv, hrows, -⟩ := evalSetsDir_exact (Graph.build [⟨5, 1, 6⟩, ⟨6, 1, 5⟩]) (.oneOrMore (.predicate 1)) false [5] hfocus
  exact ⟨hfocus, v, hv, hrows⟩

end Holos.ShaclEngine
