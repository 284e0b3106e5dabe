import Holos.Lib.Greedy
import Holos.Sparql.Meaning
import Holos.Stats.Reorder
/-!
# Reordering keeps the answers, and joins what it sees

The loop's order is a greedy one for the variables it looks at. It changes no answer; whether it
also joins what blank nodes and triple terms share is told by the patterns and the estimates.
-/

namespace Holos.Stats

open Sparql Lib.Greedy

variable {κ : Type} [LinearOrder κ]

/-! ## The loop is greedy -/

section
variable {ι : Type} [LinearOrder ι] (estimates : ι → κ) (vars : ι → List Variable)

/-- The smaller estimate, and of equal ones the earlier place. -/
def Precedes (a b : ι) : Prop := estimates a < estimates b ∨ (estimates a = estimates b ∧ a < b)

/-- Two have a variable in common. -/
def Linked (a b : ι) : Prop := ∃ v ∈ vars a, v ∈ vars b

variable {estimates vars}

theorem precedes_asymm (a b : ι) (h : Precedes estimates a b) : ¬Precedes estimates b a := by
  rintro (hlt | ⟨heq, hlt⟩)
  · rcases h with h | h
    · exact lt_asymm h hlt
    · exact hlt.ne h.1.symm
  · rcases h with h | h
    · exact h.ne heq.symm
    · exact lt_asymm h.2 hlt

variable (estimates) in
theorem firstMin_spec (xs : List ι) (x : ι) (h : (x :: xs).Pairwise (· < ·)) :
    firstMin estimates x xs ∈ x :: xs ∧ ∀ y ∈ x :: xs, y ≠ firstMin estimates x xs → Precedes estimates (firstMin estimates x xs) y := by
  induction xs generalizing x with
  | nil =>
    refine ⟨List.mem_cons_self, fun y hy hne => absurd (List.mem_singleton.1 hy) hne⟩
  | cons z xs ih =>
    obtain ⟨hx, hzs⟩ := List.pairwise_cons.1 h
    by_cases hz : estimates z < estimates x
    · have hfold : firstMin estimates x (z :: xs) = firstMin estimates z xs := by
        unfold firstMin
        rw [List.foldl_cons, if_pos hz]
      rw [hfold]
      obtain ⟨hmem, hall⟩ := ih z hzs
      refine ⟨List.mem_cons_of_mem x hmem, fun y hy hne => ?_⟩
      rcases List.mem_cons.1 hy with rfl | hy
      · by_cases hself : z = firstMin estimates z xs
        · exact .inl (hself ▸ hz)
        · rcases hall z List.mem_cons_self hself with hlt | ⟨heq, -⟩
          · exact .inl (hlt.trans hz)
          · exact .inl (heq ▸ hz)
      · exact hall y hy hne
    · have hfold : firstMin estimates x (z :: xs) = firstMin estimates x xs := by
        unfold firstMin
        rw [List.foldl_cons, if_neg hz]
      rw [hfold]
      have hxs : (x :: xs).Pairwise (· < ·) :=
        List.pairwise_cons.2 ⟨fun y hy => hx y (List.mem_cons_of_mem z hy), (List.pairwise_cons.1 hzs).2⟩
      obtain ⟨hmem, hall⟩ := ih x hxs
      have hxz := hx z List.mem_cons_self
      refine ⟨?_, fun y hy hne => ?_⟩
      · rcases List.mem_cons.1 hmem with hm | hm
        · exact List.mem_cons.2 (.inl hm)
        · exact List.mem_cons_of_mem x (List.mem_cons_of_mem z hm)
      · rcases List.mem_cons.1 hy with rfl | hy
        · exact hall y List.mem_cons_self hne
        · rcases List.mem_cons.1 hy with rfl | hy
          · -- `z` is no smaller than `x`, and stands behind it
            have hxle : Precedes estimates x y := (lt_or_eq_of_le (not_lt.1 hz)).imp id fun he => ⟨he, hxz⟩
            by_cases hself : x = firstMin estimates x xs
            · rw [← hself]
              exact hxle
            · rcases hall x List.mem_cons_self hself with hlt | ⟨heq, hlt⟩
              · exact .inl (hlt.trans_le (not_lt.1 hz))
              · rcases hxle with hl | ⟨he, -⟩
                · exact .inl (heq ▸ hl)
                · exact .inr ⟨heq.trans he, hlt.trans hxz⟩
          · exact hall y (List.mem_cons_of_mem x hy) hne

variable (estimates) in
/-- What is picked is linked to what is chosen, or nothing is and it is the first of all. -/
theorem pickNext_spec {r : ι} {remaining chosen : List ι} {bound : List Variable} (hsorted : (r :: remaining).Pairwise (· < ·))
    (hbound : ∀ v, v ∈ bound ↔ ∃ c ∈ chosen, v ∈ vars c) :
    pickNext estimates vars r remaining chosen bound ∈ r :: remaining ∧
      ((∃ c ∈ chosen, Linked vars c (pickNext estimates vars r remaining chosen bound)) ∨
        ((∀ y ∈ r :: remaining, ∀ c ∈ chosen, ¬Linked vars c y) ∧ ∀ y ∈ r :: remaining,
          y ≠ pickNext estimates vars r remaining chosen bound → Precedes estimates (pickNext estimates vars r remaining chosen bound) y)) := by
  have hconnected : ∀ i, i ∈ (r :: remaining).filter (fun i => (vars i).any (· ∈ bound)) ↔
      i ∈ r :: remaining ∧ ∃ c ∈ chosen, Linked vars c i := by
    intro i
    rw [List.mem_filter, List.any_eq_true]
    simp only [decide_eq_true_eq, hbound]
    constructor
    · rintro ⟨hi, v, hv, c, hc, hvc⟩
      exact ⟨hi, c, hc, v, hvc, hv⟩
    · rintro ⟨hi, c, hc, v, hvc, hv⟩
      exact ⟨hi, v, hv, c, hc, hvc⟩
  obtain ⟨hmem, hfirst⟩ := firstMin_spec estimates remaining r hsorted
  unfold pickNext
  cases chosen with
  | nil => exact ⟨hmem, .inr ⟨fun y _ c hc => absurd hc List.not_mem_nil, hfirst⟩⟩
  | cons d ds =>
    cases hl : (r :: remaining).filter (fun i => (vars i).any (· ∈ bound)) with
    | nil =>
      refine ⟨hmem, .inr ⟨fun y hy c hc hlink => ?_, hfirst⟩⟩
      have := (hconnected y).2 ⟨hy, c, hc, hlink⟩
      rw [hl] at this
      exact absurd this List.not_mem_nil
    | cons i is =>
      have hsub : (i :: is).Pairwise (· < ·) := hl ▸ hsorted.filter _
      obtain ⟨hi, -⟩ := firstMin_spec estimates is i hsub
      obtain ⟨hin, hlink⟩ := (hconnected _).1 (hl ▸ hi)
      exact ⟨hin, .inl hlink⟩

variable (estimates vars) in
/-- The loop puts the rest behind what is chosen, in a greedy order. -/
theorem grow_spec (fuel : Nat) (remaining chosen : List ι) (bound : List Variable) (hfuel : remaining.length ≤ fuel)
    (hsorted : remaining.Pairwise (· < ·)) (hbound : ∀ v, v ∈ bound ↔ ∃ c ∈ chosen, v ∈ vars c) :
    ∃ xs, grow estimates vars fuel remaining chosen bound = chosen ++ xs ∧ xs.Perm remaining ∧
      Grown (Linked vars) (Precedes estimates) chosen xs := by
  induction fuel generalizing remaining chosen bound with
  | zero =>
    have hnil : remaining = [] := List.length_eq_zero_iff.1 (Nat.le_zero.1 hfuel)
    subst hnil
    exact ⟨[], (List.append_nil _).symm, .refl _, .nil⟩
  | succ fuel ih =>
    cases remaining with
    | nil => exact ⟨[], (List.append_nil _).symm, .refl _, .nil⟩
    | cons r remaining =>
      obtain ⟨hpick, hright⟩ := pickNext_spec estimates hsorted hbound
      rw [grow]
      generalize pickNext estimates vars r remaining chosen bound = pick at hpick hright ⊢
      have hnodup : (r :: remaining).Nodup := hsorted.imp ne_of_lt
      have herase : (r :: remaining).filter (· ≠ pick) = (r :: remaining).erase pick := by
        rw [hnodup.erase_eq_filter]
        apply List.filter_congr
        intro i _
        rw [bne, decide_not, beq_eq_decide]
      have hlen : ((r :: remaining).filter (· ≠ pick)).length ≤ fuel := by
        rw [herase, List.length_erase_of_mem hpick]
        simp only [List.length_cons] at hfuel ⊢
        omega
      have hbound' : ∀ v, v ∈ bound ++ vars pick ↔ ∃ c ∈ chosen ++ [pick], v ∈ vars c := by
        intro v
        rw [List.mem_append, hbound]
        constructor
        · rintro (⟨c, hc, hv⟩ | hv)
          · exact ⟨c, List.mem_append_left _ hc, hv⟩
          · exact ⟨pick, List.mem_append_right _ List.mem_cons_self, hv⟩
        · rintro ⟨c, hc, hv⟩
          rcases List.mem_append.1 hc with hc | hc
          · exact .inl ⟨c, hc, hv⟩
          · exact .inr (List.mem_singleton.1 hc ▸ hv)
      obtain ⟨xs, hgrow, hperm, hgrown⟩ := ih ((r :: remaining).filter (· ≠ pick)) (chosen ++ [pick]) (bound ++ vars pick) hlen
        (hsorted.filter _) hbound'
      refine ⟨pick :: xs, ?_, ?_, ?_⟩
      · exact hgrow.trans (List.append_assoc chosen [pick] xs)
      · rw [herase] at hperm
        exact (hperm.cons pick).trans (List.perm_cons_erase hpick).symm
      · rcases hright with hlinked | ⟨hnone, hfirst⟩
        · exact .linked hlinked hgrown
        · refine .fresh (fun y hy c hc => ?_) (fun y hy => ?_) hgrown
          · rcases List.mem_cons.1 hy with rfl | hy
            · exact hnone y hpick c hc
            · exact hnone y (List.mem_filter.1 (hperm.mem_iff.1 hy)).1 c hc
          · obtain ⟨hin, hne⟩ := List.mem_filter.1 (hperm.mem_iff.1 hy)
            exact hfirst y hin (by simpa using hne)

end

/-! ## One basic graph pattern -/

variable (estimate : TriplePattern → κ)

/-- The places of the patterns, in the order they are put in. -/
def places (patterns : List TriplePattern) : List (Fin patterns.length) :=
  grow (fun i => estimate (patterns.get i)) (fun i => variablesOf (patterns.get i)) patterns.length
    (List.finRange patterns.length) [] []

theorem places_spec (patterns : List TriplePattern) :
    (places estimate patterns).Perm (List.finRange patterns.length) ∧
      Grown (Linked fun i => variablesOf (patterns.get i)) (Precedes fun i => estimate (patterns.get i)) [] (places estimate patterns) := by
  obtain ⟨xs, heq, hperm, hgrown⟩ := grow_spec (fun i => estimate (patterns.get i))
    (fun i => variablesOf (patterns.get i)) patterns.length (List.finRange patterns.length) [] []
    (Nat.le_of_eq (List.length_finRange)) (List.pairwise_lt_finRange _) (fun v => by simp)
  rw [places, heq]
  exact ⟨hperm, hgrown⟩

theorem order_eq (patterns : List TriplePattern) : order estimate patterns = (places estimate patterns).map patterns.get := by
  unfold order
  split
  · match patterns with
    | [] => rfl
    | [p] => rfl
    | p :: q :: ps =>
      rename_i h
      simp only [List.length_cons] at h
      omega
  · rfl

theorem order_perm (patterns : List TriplePattern) : (order estimate patterns).Perm patterns := by
  rw [order_eq]
  have h := (places_spec estimate patterns).1.map patterns.get
  rwa [List.map_get_finRange] at h

/-- Two patterns share a variable or a blank node. -/
def Shares (p q : TriplePattern) : Prop := ∃ v, p.Holds v ∧ q.Holds v

theorem holds_of_term {u : TermPattern} {v : Variable} (h : v ∈ (match u with | .var w => [w] | _ => [])) : u.Holds v := by
  cases u with
  | var w => exact (List.mem_singleton.1 h).symm
  | _ => exact absurd h List.not_mem_nil

theorem holds_of_variablesOf {t : TriplePattern} {v : Variable} (h : v ∈ variablesOf t) : t.Holds v := by
  unfold variablesOf at h
  rcases List.mem_append.1 h with h | h
  · rcases List.mem_append.1 h with h | h
    · exact .inl (holds_of_term h)
    · exact .inr (.inr (holds_of_term h))
  · refine .inr (.inl ?_)
    cases hp : t.predicate with
    | var w =>
      rw [hp] at h
      exact (List.mem_singleton.1 h).symm
    | namedNode n =>
      rw [hp] at h
      exact absurd h List.not_mem_nil

/-- The pattern at `q` comes ahead of the one at `p`: it is linked, through variables that stand at places of
their own, to one with a smaller estimate. -/
def ComesAhead (patterns : List TriplePattern) (p q : Fin patterns.length) : Prop :=
  Ahead (Linked fun i => variablesOf (patterns.get i)) (Precedes fun i => estimate (patterns.get i)) p q

/-- Where a pattern that nothing links to those ahead of it comes next, it shares something with
them all the same, or nothing else does. -/
def Bridged (patterns : List TriplePattern) : Prop :=
  ∀ p, ¬ComesAhead estimate patterns p p →
    (∃ q, ¬ComesAhead estimate patterns p q ∧ ∃ c, ComesAhead estimate patterns p c ∧ Shares (patterns.get q) (patterns.get c)) →
    ∃ c, ComesAhead estimate patterns p c ∧ Shares (patterns.get p) (patterns.get c)

theorem joins_map {ι α : Type} (shares : α → α → Prop) (f : ι → α) (xs : List ι) :
    Joins shares (xs.map f) ↔ Joins (fun i j => shares (f i) (f j)) xs := by
  constructor
  · intro h front p rest heq hp q hq c hc
    refine h (front.map f) (f p) (rest.map f) (by rw [heq, List.map_append, List.map_cons]) ?_ _ (List.mem_map_of_mem hq) _
      (List.mem_map_of_mem hc)
    intro d hd
    obtain ⟨e, he, rfl⟩ := List.mem_map.1 hd
    exact hp e he
  · intro h front p rest heq hp q hq c hc
    obtain ⟨front', tail, rfl, rfl, htail⟩ := List.map_eq_append_iff.1 heq
    obtain ⟨p', rest', rfl, rfl, rfl⟩ := List.map_eq_cons_iff.1 htail
    obtain ⟨q', hq', rfl⟩ := List.mem_map.1 hq
    obtain ⟨c', hc', rfl⟩ := List.mem_map.1 hc
    exact h front' p' rest' rfl (fun d hd => hp _ (List.mem_map_of_mem hd)) q' hq' c' hc'

theorem order_joins (patterns : List TriplePattern) : Joins Shares (order estimate patterns) ↔ Bridged estimate patterns := by
  obtain ⟨hperm, hgrown⟩ := places_spec estimate patterns
  rw [order_eq, joins_map]
  refine hgrown.joins_iff precedes_asymm ?_ (fun i => hperm.mem_iff.2 (List.mem_finRange i)) (hperm.nodup_iff.2 (List.nodup_finRange _))
  rintro a b ⟨v, ha, hb⟩
  exact ⟨v, holds_of_variablesOf hb, holds_of_variablesOf ha⟩

/-! ## Whole queries -/

/-- The same but for the order of the triple patterns inside basic graph patterns. -/
inductive Reordered : GraphPattern → GraphPattern → Prop
  | bgp {ps qs : List TriplePattern} (h : qs.Perm ps) : Reordered (.bgp ps) (.bgp qs)
  | join {l l' r r' : GraphPattern} (hl : Reordered l l') (hr : Reordered r r') : Reordered (.join l r) (.join l' r')
  | leftJoin {l l' r r' : GraphPattern} {e : Option Expression} (hl : Reordered l l') (hr : Reordered r r') :
      Reordered (.leftJoin l r e) (.leftJoin l' r' e)
  | filter {e : Expression} {p p' : GraphPattern} (h : Reordered p p') : Reordered (.filter e p) (.filter e p')
  | union {l l' r r' : GraphPattern} (hl : Reordered l l') (hr : Reordered r r') : Reordered (.union l r) (.union l' r')
  | graph {n : NamedNodePattern} {p p' : GraphPattern} (h : Reordered p p') : Reordered (.graph n p) (.graph n p')
  | extend {v : Variable} {e : Expression} {p p' : GraphPattern} (h : Reordered p p') : Reordered (.extend p v e) (.extend p' v e)
  | minus {l l' r r' : GraphPattern} (hl : Reordered l l') (hr : Reordered r r') : Reordered (.minus l r) (.minus l' r')
  | orderBy {es : List OrderExpression} {p p' : GraphPattern} (h : Reordered p p') : Reordered (.orderBy p es) (.orderBy p' es)
  | project {vs : List Variable} {p p' : GraphPattern} (h : Reordered p p') : Reordered (.project p vs) (.project p' vs)
  | distinct {p p' : GraphPattern} (h : Reordered p p') : Reordered (.distinct p) (.distinct p')
  | reduced {p p' : GraphPattern} (h : Reordered p p') : Reordered (.reduced p) (.reduced p')
  | slice {start : Nat} {length : Option Nat} {p p' : GraphPattern} (h : Reordered p p') :
      Reordered (.slice p start length) (.slice p' start length)
  | group {vs : List Variable} {as : List (Variable × AggregateExpression)} {p p' : GraphPattern} (h : Reordered p p') :
      Reordered (.group p vs as) (.group p' vs as)
  | same (p : GraphPattern) : Reordered p p

theorem rewrite_reordered (pattern : GraphPattern) : Reordered pattern (rewrite estimate pattern) := by
  induction pattern with
  | bgp patterns => exact .bgp (order_perm estimate patterns)
  | path subject path object => exact .same _
  | join left right ihl ihr => exact .join ihl ihr
  | leftJoin left right expression ihl ihr => exact .leftJoin ihl ihr
  | filter expr inner ih => exact .filter ih
  | union left right ihl ihr => exact .union ihl ihr
  | graph name inner ih => exact .graph ih
  | extend inner v expression ih => exact .extend ih
  | minus left right ihl ihr => exact .minus ihl ihr
  | values vars bindings => exact .same _
  | orderBy inner expression ih => exact .orderBy ih
  | project inner vars ih => exact .project ih
  | distinct inner ih => exact .distinct ih
  | reduced inner ih => exact .reduced ih
  | slice inner start length ih => exact .slice ih
  | group inner vars aggregates ih => exact .group ih
  | service name inner silent ih => exact .same _

/-- Patterns that differ in that order have the same answers. -/
theorem Reordered.denotes {p p' : GraphPattern} (h : Reordered p p') (F : Federation) (D : RdfDataset) (G : GraphName) (l : List TermRow) :
    F.Denotes D G p' l ↔ F.Denotes D G p l := by
  induction h generalizing D G l with
  | bgp h => rw [Federation.Denotes, Federation.Denotes, Lib.Mapping.joinAll_perm (h.map _)]
  | join _ _ ihl ihr => simp only [Federation.Denotes, ihl, ihr]
  | leftJoin _ _ ihl ihr => simp only [Federation.Denotes, ihl, ihr]
  | filter _ ih => simp only [Federation.Denotes, ih]
  | union _ _ ihl ihr => simp only [Federation.Denotes, ihl, ihr]
  | @graph n _ _ _ ih =>
    cases n with
    | namedNode n => simp only [Federation.Denotes, ih]
    | var v => simp only [Federation.Denotes, ih]
  | extend _ ih => simp only [Federation.Denotes, ih]
  | minus _ _ ihl ihr => simp only [Federation.Denotes, ihl, ihr]
  | orderBy _ ih => simp only [Federation.Denotes, ih]
  | project _ ih => simp only [Federation.Denotes, ih]
  | distinct _ ih => simp only [Federation.Denotes, ih]
  | reduced _ ih => simp only [Federation.Denotes, ih]
  | slice _ ih => simp only [Federation.Denotes, ih]
  | group _ ih => simp only [Federation.Denotes, ih]
  | same p => exact Iff.rfl

/-- The lists that are reordered: the basic graph patterns outside a `SERVICE`. -/
def bgps : GraphPattern → List (List TriplePattern)
  | .bgp patterns => [patterns]
  | .join left right => bgps left ++ bgps right
  | .leftJoin left right _ => bgps left ++ bgps right
  | .filter _ inner => bgps inner
  | .union left right => bgps left ++ bgps right
  | .graph _ inner => bgps inner
  | .extend inner _ _ => bgps inner
  | .minus left right => bgps left ++ bgps right
  | .orderBy inner _ => bgps inner
  | .project inner _ => bgps inner
  | .distinct inner => bgps inner
  | .reduced inner => bgps inner
  | .slice inner _ _ => bgps inner
  | .group inner _ _ => bgps inner
  | .path _ _ _ => []
  | .values _ _ => []
  | .service _ _ _ => []

theorem bgps_rewrite (pattern : GraphPattern) : bgps (rewrite estimate pattern) = (bgps pattern).map (order estimate) := by
  induction pattern with
  | bgp patterns => rfl
  | join left right ihl ihr => rw [rewrite, bgps, bgps, ihl, ihr, List.map_append]
  | leftJoin left right expression ihl ihr => rw [rewrite, bgps, bgps, ihl, ihr, List.map_append]
  | union left right ihl ihr => rw [rewrite, bgps, bgps, ihl, ihr, List.map_append]
  | minus left right ihl ihr => rw [rewrite, bgps, bgps, ihl, ihr, List.map_append]
  | path subject path object => rfl
  | values vars bindings => rfl
  | service name inner silent ih => rfl
  | _ => rw [rewrite, bgps, bgps]; assumption

def patternOf : Query → GraphPattern
  | .select _ pattern => pattern
  | .construct _ _ pattern => pattern
  | .describe _ pattern => pattern
  | .ask _ pattern => pattern

/-- Two queries that differ in the order of triple patterns only. -/
def QueryReordered : Query → Query → Prop
  | .select dataset pattern, .select dataset' pattern' => dataset = dataset' ∧ Reordered pattern pattern'
  | .construct template dataset pattern, .construct template' dataset' pattern' =>
    template = template' ∧ dataset = dataset' ∧ Reordered pattern pattern'
  | .describe dataset pattern, .describe dataset' pattern' => dataset = dataset' ∧ Reordered pattern pattern'
  | .ask dataset pattern, .ask dataset' pattern' => dataset = dataset' ∧ Reordered pattern pattern'
  | _, _ => False

theorem queryReordered (q : Query) : QueryReordered q (reorderQuery estimate q) := by
  cases q with
  | select dataset pattern => exact ⟨rfl, rewrite_reordered estimate pattern⟩
  | construct template dataset pattern => exact ⟨rfl, rfl, rewrite_reordered estimate pattern⟩
  | describe dataset pattern => exact ⟨rfl, rewrite_reordered estimate pattern⟩
  | ask dataset pattern => exact ⟨rfl, rewrite_reordered estimate pattern⟩

theorem patternOf_reorderQuery (q : Query) : patternOf (reorderQuery estimate q) = rewrite estimate (patternOf q) := by
  cases q <;> rfl

/-- Whatever the estimates are, reordering permutes the triple patterns of each basic graph pattern and does nothing
else, so a query has the answers it had. It joins what the patterns share exactly where each of
them is bridged. -/
theorem reorderQuery_exact (q : Query) :
    QueryReordered q (reorderQuery estimate q) ∧
    (∀ (F : Federation) D G l, F.Denotes D G (patternOf (reorderQuery estimate q)) l ↔ F.Denotes D G (patternOf q) l) ∧
    ((∀ ps ∈ bgps (patternOf (reorderQuery estimate q)), Joins Shares ps) ↔ ∀ ps ∈ bgps (patternOf q), Bridged estimate ps) := by
  rw [patternOf_reorderQuery]
  refine ⟨queryReordered estimate q, fun F D G l => (rewrite_reordered estimate (patternOf q)).denotes F D G l, ?_⟩
  rw [bgps_rewrite]
  simp only [List.mem_map, forall_exists_index, and_imp, forall_apply_eq_imp_iff₂, order_joins]

/-- `?x :p _:b . ?z :r ?w . _:b :q ?y`, with estimates that put the first first and the second second. -/
def blankJoin : List TriplePattern :=
  [⟨.var (.named "x"), .namedNode "p", .blankNode "b"⟩, ⟨.var (.named "z"), .namedNode "r", .var (.named "w")⟩,
    ⟨.blankNode "b", .namedNode "q", .var (.named "y")⟩]

def byPredicate (t : TriplePattern) : Nat := if t.predicate = .namedNode "p" then 1 else if t.predicate = .namedNode "r" then 2 else 3

/-- A join through a blank node is not seen: a pattern that shares nothing comes between. -/
theorem blankJoin_apart :
    ∃ ps ∈ bgps (patternOf (reorderQuery byPredicate (.ask none (.bgp blankJoin)))), ¬Joins Shares ps := by
  refine ⟨order byPredicate blankJoin, List.mem_singleton.2 rfl, fun h => ?_⟩
  have horder : order byPredicate blankJoin =
      [blankJoin[0]] ++ blankJoin[1] :: [blankJoin[2]] := by decide
  refine h [blankJoin[0]] blankJoin[1] [blankJoin[2]] horder ?_ blankJoin[2] List.mem_cons_self blankJoin[0] List.mem_cons_self ?_
  · intro c hc
    rw [List.mem_singleton.1 hc]
    rintro ⟨v, hp, hq⟩
    simp only [blankJoin, TriplePattern.Holds, TermPattern.Holds, NamedNodePattern.Holds, List.getElem_cons_zero,
      List.getElem_cons_succ, false_or] at hp hq
    rcases hp with rfl | rfl
    · rcases hq with h | h
      · exact absurd h (by decide)
      · exact absurd h (by decide)
    · rcases hq with h | h
      · exact absurd h (by decide)
      · exact absurd h (by decide)
  · exact ⟨.blank "b", .inl rfl, .inr (.inr rfl)⟩

end Holos.Stats
