import Holos.Security.Policy
/-!
# What a compiled policy decides

The reference semantics is stated on the rules themselves. Compilation folds the rules
of a scope into one slot before the mode of an access is known, and a deny drops the
modes of the allow it meets; so a slot speaks for the rules of its level except where
one of them denies and only allows name the mode. `Shadowed` names those levels, and
`compile_decideQuad_eq_reference_iff` says exactly when they change a decision.
-/

namespace Holos.Security

/-! ## Single modes -/

/-- One operation. -/
inductive Mode where
  | read | write | validate | admin
deriving DecidableEq, Repr

def Mode.modes : Mode → Modes
  | .read => Modes.read
  | .write => Modes.write
  | .validate => Modes.validate
  | .admin => Modes.admin

theorem and_mode (m : Mode) (a : Modes) : a &&& m.modes = 0 ∨ a &&& m.modes = m.modes := by
  revert a
  cases m <;> decide

/-- A single mode is in a union exactly when it is in one of the sets. -/
theorem union_contains (m : Mode) (a b : Modes) :
    (a.union b).contains m.modes = (a.contains m.modes || b.contains m.modes) := by
  have hm : m.modes ≠ 0 := by cases m <;> decide
  have hd : (a ||| b) &&& m.modes = (a &&& m.modes) ||| (b &&& m.modes) := by
    ext i hi; simp [Bool.and_or_distrib_right]
  simp only [Modes.union, Modes.contains, hd]
  rcases and_mode m a with ha | ha <;> rcases and_mode m b with hb | hb <;> simp [ha, hb]

/-! ## The reference semantics -/

section Reference
variable (policy : Policy) (lookup : NamedNode → Option TermId) (principal : Principal)

/-- A scope covers a quad. -/
def Scope.covers (quad : EncodedQuad) : Scope → Bool
  | .everything => true
  | .graph g => quad.graphName.any (fun id => lookup g = some id)
  | .predicate p => lookup p = some quad.predicate
  | .graphPredicate g p => quad.graphName.any (fun id => lookup g = some id) && decide (lookup p = some quad.predicate)

/-- The principal is not cleared for a label of the quad's graph. -/
def refused (quad : EncodedQuad) : Bool :=
  match quad.graphName with
  | none => !principal.isClearedFor policy.defaultGraphLabel
  | some g => policy.graphLabels.any (fun e => decide (lookup e.1 = some g) && !principal.isClearedFor e.2)

/-- The rules that apply to the principal, name the mode and cover the quad. -/
def applicable (quad : EncodedQuad) (m : Modes) : List Rule :=
  policy.rules.filter (fun r => r.appliesTo.matches principal && r.modes.contains m && r.scope.covers lookup quad)

/-- Those of the highest specificity. -/
def mostSpecific (rs : List Rule) : List Rule :=
  rs.filter (fun r => rs.all (fun r' => r'.scope.specificity ≤ r.scope.specificity))

/-- Deny if one of them denies, allow if there is one and none denies, else the default. -/
def verdict (default : Effect) (rs : List Rule) : Effect :=
  if rs.any (fun r => r.effect = .deny) then .deny else if rs.isEmpty then default else .allow

def refusalOf : Semantics → Decision
  | .filter => .filter
  | .fail => .fail

/-- The decision the rules call for. -/
def reference (quad : EncodedQuad) (m : Modes) : Decision :=
  if refused policy lookup principal quad then refusalOf policy.semantics
  else
    match verdict policy.defaultEffect (mostSpecific (applicable policy lookup principal quad m)) with
    | .allow => .allow
    | .deny => refusalOf policy.semantics

/-- The rules of one specificity that apply to the principal and cover the quad, for
whatever mode. -/
def level (quad : EncodedQuad) (n : Nat) : List Rule :=
  policy.rules.filter (fun r =>
    r.appliesTo.matches principal && r.scope.covers lookup quad && decide (r.scope.specificity = n))

/-- The four levels of a quad, most specific first. -/
def levels (quad : EncodedQuad) : List (List Rule) := [3, 2, 1, 0].map (level policy lookup principal quad)

end Reference

/-- What the rules of one level say about a mode. -/
def levelEffect (m : Modes) (rs : List Rule) : Option Effect :=
  if rs.any (fun r => decide (r.effect = .deny) && r.modes.contains m) then some .deny
  else if rs.any (fun r => r.modes.contains m) then some .allow
  else none

/-- The level allows the mode beside a deny that names other modes only. -/
def Shadowed (m : Modes) (rs : List Rule) : Bool :=
  rs.any (fun r => r.effect = .deny) && decide (levelEffect m rs = some .allow)

/-! ## The reference, level by level -/

theorem levelEffect_eq_none {m : Modes} {rs : List Rule} :
    levelEffect m rs = none ↔ ∀ r ∈ rs, r.modes.contains m = false := by
  unfold levelEffect
  constructor
  · intro h
    split at h
    · cases h
    · split at h
      · cases h
      · rename_i h2; simpa using h2
  · intro h
    have h1 : rs.any (fun r => decide (r.effect = .deny) && r.modes.contains m) = false := by
      simp only [List.any_eq_false, Bool.and_eq_true, not_and, Bool.not_eq_true]
      exact fun r hr _ => h r hr
    have h2 : rs.any (fun r => r.modes.contains m) = false := by
      simpa using h
    simp [h1, h2]

theorem Scope.specificity_le (s : Scope) : s.specificity ≤ 3 := by cases s <;> simp [Scope.specificity]

/-- The most specific rules for the mode are those of the first level with one. -/
theorem mostSpecific_eq {rs : List Rule} {n : Nat} (hn : ∃ r ∈ rs, r.scope.specificity = n)
    (hmax : ∀ r ∈ rs, r.scope.specificity ≤ n) :
    mostSpecific rs = rs.filter (fun r => decide (r.scope.specificity = n)) := by
  obtain ⟨r₀, hr₀, hn⟩ := hn
  refine List.filter_congr fun r hr => ?_
  rw [Bool.eq_iff_iff, List.all_eq_true]
  simp only [decide_eq_true_eq]
  constructor
  · intro h; exact le_antisymm (hmax r hr) (hn ▸ h r₀ hr₀)
  · intro h r' hr'; exact h ▸ hmax r' hr'

/-- The verdict of the rules of a level that name the mode. -/
theorem verdict_level (default : Effect) (m : Modes) (rs : List Rule) :
    verdict default (rs.filter (fun r => r.modes.contains m)) = (levelEffect m rs).getD default := by
  have hd : (rs.filter (fun r => r.modes.contains m)).any (fun r => decide (r.effect = .deny)) =
      rs.any (fun r => decide (r.effect = .deny) && r.modes.contains m) := by
    rw [List.any_filter]; simp only [Bool.and_comm]
  have he : (rs.filter (fun r => r.modes.contains m)).isEmpty = !rs.any (fun r => r.modes.contains m) := by
    rw [Bool.eq_iff_iff]
    simp [List.isEmpty_iff, List.filter_eq_nil_iff]
  unfold verdict levelEffect
  rw [hd, he]
  cases rs.any (fun r => decide (r.effect = .deny) && r.modes.contains m) <;>
    cases rs.any (fun r => r.modes.contains m) <;> rfl

section Reference
variable (policy : Policy) (lookup : NamedNode → Option TermId) (principal : Principal) (quad : EncodedQuad)

theorem applicable_level (m : Modes) (n : Nat) :
    (applicable policy lookup principal quad m).filter (fun r => decide (r.scope.specificity = n)) =
      (level policy lookup principal quad n).filter (fun r => r.modes.contains m) := by
  simp only [applicable, level, List.filter_filter]
  refine List.filter_congr fun r _ => ?_
  cases r.appliesTo.matches principal <;> cases r.modes.contains m <;> cases r.scope.covers lookup quad <;>
    cases decide (r.scope.specificity = n) <;> rfl

theorem level_of_applicable {m : Modes} {r : Rule} (hr : r ∈ applicable policy lookup principal quad m) :
    levelEffect m (level policy lookup principal quad r.scope.specificity) ≠ none := by
  intro h
  have hmem : r ∈ (level policy lookup principal quad r.scope.specificity).filter (fun r => r.modes.contains m) := by
    rw [← applicable_level]
    exact List.mem_filter.2 ⟨hr, by simp⟩
  obtain ⟨hl, hm⟩ := List.mem_filter.1 hmem
  rw [levelEffect_eq_none.1 h r hl] at hm
  cases hm

/-- The verdict is that of the first level, from the most specific, with a rule for
the mode. -/
theorem verdict_at {m : Modes} {n : Nat} (hn : levelEffect m (level policy lookup principal quad n) ≠ none)
    (habove : ∀ k, n < k → k ≤ 3 → levelEffect m (level policy lookup principal quad k) = none) :
    verdict policy.defaultEffect (mostSpecific (applicable policy lookup principal quad m)) =
      (levelEffect m (level policy lookup principal quad n)).getD policy.defaultEffect := by
  rw [← verdict_level, ← applicable_level]
  congr 1
  refine mostSpecific_eq ?_ fun r hr => ?_
  · by_contra hno
    refine hn (levelEffect_eq_none.2 fun r hr => ?_)
    by_contra hc
    have hmem : r ∈ (level policy lookup principal quad n).filter (fun r => r.modes.contains m) :=
      List.mem_filter.2 ⟨hr, by simpa using hc⟩
    rw [← applicable_level] at hmem
    obtain ⟨h1, h2⟩ := List.mem_filter.1 hmem
    exact hno ⟨r, h1, by simpa using h2⟩
  · by_contra hlt
    exact level_of_applicable policy lookup principal quad hr
      (habove _ (not_le.1 hlt) (Scope.specificity_le _))

theorem verdict_none {m : Modes} (h : ∀ k, k ≤ 3 → levelEffect m (level policy lookup principal quad k) = none) :
    verdict policy.defaultEffect (mostSpecific (applicable policy lookup principal quad m)) = policy.defaultEffect := by
  have hnil : applicable policy lookup principal quad m = [] := by
    refine List.eq_nil_iff_forall_not_mem.2 fun r hr => ?_
    exact level_of_applicable policy lookup principal quad hr (h _ (Scope.specificity_le _))
  simp [hnil, mostSpecific, verdict]

/-- The reference verdict reads the four levels, most specific first. -/
theorem verdict_eq (m : Modes) :
    verdict policy.defaultEffect (mostSpecific (applicable policy lookup principal quad m)) =
      ((levels policy lookup principal quad).findSome? (levelEffect m)).getD policy.defaultEffect := by
  simp only [levels, List.map_cons, List.map_nil, List.findSome?_cons, List.findSome?_nil]
  cases h3 : levelEffect m (level policy lookup principal quad 3) with
  | some e =>
    rw [verdict_at policy lookup principal quad (n := 3) (by simp [h3]) (fun k hk hk' => by omega), h3]
  | none =>
  cases h2 : levelEffect m (level policy lookup principal quad 2) with
  | some e =>
    rw [verdict_at policy lookup principal quad (n := 2) (by simp [h2])
      (fun k hk hk' => by obtain rfl : k = 3 := by omega
                          exact h3), h2]
  | none =>
  cases h1 : levelEffect m (level policy lookup principal quad 1) with
  | some e =>
    rw [verdict_at policy lookup principal quad (n := 1) (by simp [h1])
      (fun k hk hk' => by obtain rfl | rfl : k = 2 ∨ k = 3 := by omega
                          · exact h2
                          · exact h3), h1]
  | none =>
  cases h0 : levelEffect m (level policy lookup principal quad 0) with
  | some e =>
    rw [verdict_at policy lookup principal quad (n := 0) (by simp [h0])
      (fun k hk hk' => by obtain rfl | rfl | rfl : k = 1 ∨ k = 2 ∨ k = 3 := by omega
                          · exact h1
                          · exact h2
                          · exact h3), h0]
  | none =>
    rw [verdict_none policy lookup principal quad (fun k hk => by
      obtain rfl | rfl | rfl | rfl : k = 0 ∨ k = 1 ∨ k = 2 ∨ k = 3 := by omega
      · exact h0
      · exact h1
      · exact h2
      · exact h3)]
    rfl

end Reference

/-! ## What a slot keeps of its rules -/

/-- The rules of a scope, folded in the order they come in. -/
def fold (rs : List Rule) : Option Entry := rs.foldl (fun slot r => merge slot r.entry) none

/-- What a slot says about a mode. -/
def slotEffect (m : Modes) (slot : Option Entry) : Option Effect :=
  slot.bind (fun e => if e.modes.contains m then some e.effect else none)

/-- A slot that stands for the rules `rs`, all of specificity `n`: it denies if one of
them does, and its modes are those of the rules with its effect. -/
structure Summarises (m : Mode) (n : Nat) (rs : List Rule) (e : Entry) : Prop where
  specificity : e.specificity = n
  deny : e.effect = .deny ↔ ∃ r ∈ rs, r.effect = .deny
  modes : e.modes.contains m.modes = rs.any (fun r => decide (r.effect = e.effect) && r.modes.contains m.modes)

theorem Effect.ne_deny {e : Effect} : e ≠ .deny ↔ e = .allow := by cases e <;> simp

theorem summarises_single {m : Mode} {n : Nat} {r : Rule} (hn : r.scope.specificity = n) :
    Summarises m n [r] r.entry := by
  constructor <;> simp [Rule.entry, hn]

theorem summarises_resolve {m : Mode} {n : Nat} {rs : List Rule} {e : Entry} {r : Rule}
    (h : Summarises m n rs e) (hn : r.scope.specificity = n) :
    Summarises m n (rs ++ [r]) (resolveConflict e r.entry) := by
  have hall : e.effect = .allow → ∀ r' ∈ rs, r'.effect = .allow := fun he r' hr' =>
    Effect.ne_deny.1 fun hd => by simpa [he] using h.deny.2 ⟨r', hr', hd⟩
  have hm := h.modes
  have hd := h.deny
  cases he : e.effect <;> cases hr : r.effect
  case allow.allow =>
    have hrs := hall he
    rw [he] at hm hd
    constructor
    · simp [resolveConflict, Rule.entry, he, hr, h.specificity]
    · simp [resolveConflict, Rule.entry, he, hr]
      exact fun r' hr' => by simp [hrs r' hr']
    · simp [resolveConflict, Rule.entry, he, hr, union_contains, hm]
  case allow.deny =>
    have hrs := hall he
    constructor
    · simp [resolveConflict, Rule.entry, he, hr, hn]
    · simp [resolveConflict, Rule.entry, he, hr]
    · have hnone : rs.any (fun r => decide (r.effect = .deny) && r.modes.contains m.modes) = false := by
        simp only [List.any_eq_false]
        intro r' hr'
        simp [hrs r' hr']
      simp [resolveConflict, Rule.entry, he, hr, hnone]
  case deny.allow =>
    rw [he] at hm hd
    constructor
    · simp [resolveConflict, Rule.entry, he, hr, h.specificity]
    · simp [resolveConflict, Rule.entry, he, hr]
      simpa using hd
    · simp [resolveConflict, Rule.entry, he, hr, hm]
  case deny.deny =>
    rw [he] at hm hd
    constructor
    · simp [resolveConflict, Rule.entry, he, hr, h.specificity]
    · simp [resolveConflict, Rule.entry, he, hr]
    · simp [resolveConflict, Rule.entry, he, hr, union_contains, hm]

theorem fold_append (rs : List Rule) (r : Rule) : fold (rs ++ [r]) = merge (fold rs) r.entry := by
  simp [fold, List.foldl_append]

/-- The slot of a list of rules summarises it. -/
theorem fold_summarises (m : Mode) {n : Nat} {rs : List Rule} (h : ∀ r ∈ rs, r.scope.specificity = n) :
    (rs = [] ∧ fold rs = none) ∨ ∃ e, fold rs = some e ∧ Summarises m n rs e := by
  induction rs using List.reverseRecOn with
  | nil => exact .inl ⟨rfl, rfl⟩
  | append_singleton rs r ih =>
    have hr : r.scope.specificity = n := h r (by simp)
    refine .inr ?_
    rw [fold_append]
    rcases ih (fun r' hr' => h r' (by simp [hr'])) with ⟨rfl, hf⟩ | ⟨e, hf, hs⟩
    · exact ⟨r.entry, by simp [hf, merge], summarises_single hr⟩
    · exact ⟨resolveConflict e r.entry, by simp [hf, merge], summarises_resolve hs hr⟩

theorem Summarises.slotEffect {m : Mode} {n : Nat} {rs : List Rule} {e : Entry} (h : Summarises m n rs e) :
    slotEffect m.modes (some e) = if Shadowed m.modes rs then none else levelEffect m.modes rs := by
  have hm := h.modes
  have hd := h.deny
  simp only [Security.slotEffect, Option.bind_some]
  cases he : e.effect with
  | deny =>
    rw [he] at hm hd
    have hany : rs.any (fun r => decide (r.effect = .deny)) = true := by simpa using hd.1 rfl
    rw [hm]
    simp only [Shadowed, levelEffect, hany, Bool.true_and]
    by_cases h1 : rs.any (fun r => decide (r.effect = .deny) && r.modes.contains m.modes) = true
    · simp only [h1, if_true]; rfl
    · by_cases h2 : rs.any (fun r => r.modes.contains m.modes) = true
      · simp only [h1, h2, if_true]; rfl
      · simp only [h1, h2]; rfl
  | allow =>
    rw [he] at hm hd
    have hno : ∀ r ∈ rs, r.effect = .allow := fun r hr => Effect.ne_deny.1 fun hr' => by
      simpa using hd.2 ⟨r, hr, hr'⟩
    have hany : rs.any (fun r => decide (r.effect = .deny)) = false := by
      simp only [List.any_eq_false]
      intro r hr
      simp [hno r hr]
    have hdeny : rs.any (fun r => decide (r.effect = .deny) && r.modes.contains m.modes) = false := by
      simp only [List.any_eq_false]
      intro r hr
      simp [hno r hr]
    have hmode : rs.any (fun r => decide (r.effect = .allow) && r.modes.contains m.modes) =
        rs.any (fun r => r.modes.contains m.modes) := by
      rw [Bool.eq_iff_iff]
      simp only [List.any_eq_true, Bool.and_eq_true, decide_eq_true_eq]
      exact ⟨fun ⟨r, hr, _, hc⟩ => ⟨r, hr, hc⟩, fun ⟨r, hr, hc⟩ => ⟨r, hr, hno r hr, hc⟩⟩
    rw [hm, hmode]
    simp [Shadowed, levelEffect, hany, hdeny]

/-- A slot says what the rules of its level say, unless the level is shadowed: then it
says nothing. -/
theorem slotEffect_fold (m : Mode) {n : Nat} {rs : List Rule} (h : ∀ r ∈ rs, r.scope.specificity = n) :
    slotEffect m.modes (fold rs) = if Shadowed m.modes rs then none else levelEffect m.modes rs := by
  rcases fold_summarises m h with ⟨rfl, hf⟩ | ⟨e, hf, hs⟩
  · simp [hf, slotEffect, Shadowed, levelEffect]
  · rw [hf, hs.slotEffect]

/-! ## Deciding over the slots -/

theorem consider_best {m : Modes} {best : Option (Nat × Effect)} {slot : Option Entry}
    (h : ∀ e ∈ slot, ∀ b ∈ best, b.1 ≤ e.specificity) :
    (CompiledPolicy.consider m best slot).map (·.2) = (slotEffect m slot).or (best.map (·.2)) := by
  cases slot with
  | none => simp [CompiledPolicy.consider, slotEffect]
  | some e =>
    cases best with
    | none => by_cases hm : e.modes.contains m <;> simp [CompiledPolicy.consider, slotEffect, hm]
    | some b =>
      have := h e rfl b rfl
      by_cases hm : e.modes.contains m <;> simp [CompiledPolicy.consider, slotEffect, hm, this]

theorem consider_specificity {m : Modes} {best : Option (Nat × Effect)} {slot : Option Entry} {n : Nat}
    (hs : ∀ e ∈ slot, e.specificity ≤ n) (hb : ∀ b ∈ best, b.1 ≤ n) :
    ∀ b ∈ CompiledPolicy.consider m best slot, b.1 ≤ n := by
  intro b h
  cases slot with
  | none => exact hb b h
  | some e =>
    simp only [CompiledPolicy.consider] at h
    generalize (e.modes.contains m && _) = c at h
    cases c with
    | false => exact hb b h
    | true =>
      simp only [if_true, Option.mem_def, Option.some.injEq] at h
      subst h
      exact hs e rfl

/-- The slots of a quad, as they are read, rise in specificity. -/
def Rising (slots : List (Option Entry)) : Prop :=
  slots.Pairwise (fun a b => ∀ x ∈ a, ∀ y ∈ b, x.specificity ≤ y.specificity)

/-- Reading the slots in rising specificity keeps the last that speaks for the mode. -/
theorem foldl_consider (m : Modes) (slots : List (Option Entry))
    (h : Rising slots) :
    (slots.foldl (CompiledPolicy.consider m) none).map (·.2) = slots.reverse.findSome? (slotEffect m) := by
  suffices H : (slots.foldl (CompiledPolicy.consider m) none).map (·.2) = slots.reverse.findSome? (slotEffect m) ∧
      ∀ n, (∀ s ∈ slots, ∀ e ∈ s, e.specificity ≤ n) →
        ∀ b ∈ slots.foldl (CompiledPolicy.consider m) none, b.1 ≤ n from H.1
  induction slots using List.reverseRecOn with
  | nil => simp
  | append_singleton slots s ih =>
    obtain ⟨hp, -, hs⟩ := List.pairwise_append.1 h
    obtain ⟨heq, hle⟩ := ih hp
    rw [List.foldl_append, List.foldl_cons, List.foldl_nil]
    constructor
    · have hbest : ∀ e ∈ s, ∀ b ∈ slots.foldl (CompiledPolicy.consider m) none, b.1 ≤ e.specificity :=
        fun e he => hle e.specificity fun t ht x hx => hs t ht s (by simp) x hx e he
      rw [consider_best hbest, heq, List.reverse_append]
      cases hse : slotEffect m s <;> simp [hse]
    · intro n hn
      exact consider_specificity (hn s (by simp)) (hle n fun t ht => hn t (by simp [ht]))

/-! ## Compilation, slot by slot -/

theorem lookup_mergeMap {K : Type} [DecidableEq K] [BEq K] [LawfulBEq K] (map : Slots K) (key k : K) (e : Entry) :
    (mergeMap map key e).lookup k = if k = key then merge (map.lookup k) e else map.lookup k := by
  induction map with
  | nil =>
    by_cases hk : k = key
    · subst hk; simp [mergeMap, merge]
    · simp [mergeMap, List.lookup_cons, hk, beq_false_of_ne hk]
  | cons kv map ih =>
    obtain ⟨k', e'⟩ := kv
    by_cases hk' : k' = key
    · subst hk'
      by_cases hk : k = k'
      · subst hk; simp [mergeMap, merge]
      · simp [mergeMap, List.lookup_cons, hk, beq_false_of_ne hk]
    · by_cases hkk : k = k'
      · subst hkk
        simp [mergeMap, hk']
      · simp [mergeMap, hk', List.lookup_cons, beq_false_of_ne hkk, ih]

/-- The slot of a quad at each level, in the maps under construction. -/
def Building.slot (b : Building) (quad : EncodedQuad) : Nat → Option Entry
  | 0 => b.everything
  | 1 => quad.graphName.bind (b.graph.lookup ·)
  | 2 => b.predicate.lookup quad.predicate
  | _ => quad.graphName.bind (fun g => b.graphPredicate.lookup (g, quad.predicate))

section Compile
variable (lookup : NamedNode → Option TermId)

/-- A dictionary read that does not fail. -/
def resolving : Resolve := fun n => .ok (lookup n)

/-- One rule reaches the slot of its own level, when it covers the quad, and no other. -/
theorem addRule_slot (b : Building) (r : Rule) :
    ∃ b', addRule (resolving lookup) b r = .ok b' ∧ ∀ quad, ∀ n ≤ 3, b'.slot quad n =
      if r.scope.covers lookup quad && decide (r.scope.specificity = n) then merge (b.slot quad n) r.entry
      else b.slot quad n := by
  have hcases : ∀ n ≤ 3, n = 0 ∨ n = 1 ∨ n = 2 ∨ n = 3 := by omega
  cases hs : r.scope with
  | everything =>
    refine ⟨_, by simp only [addRule, hs]; rfl, fun quad n hn => ?_⟩
    rcases hcases n hn with rfl | rfl | rfl | rfl <;> simp [Building.slot, Scope.covers, Scope.specificity]
  | graph g =>
    cases hg : lookup g with
    | none =>
      refine ⟨_, by simp only [addRule, hs, resolving, hg]; rfl, fun quad n hn => ?_⟩
      rcases hcases n hn with rfl | rfl | rfl | rfl <;> simp [Building.slot, Scope.covers, Scope.specificity, hg]
    | some id =>
      refine ⟨_, by simp only [addRule, hs, resolving, hg]; rfl, fun quad n hn => ?_⟩
      rcases hcases n hn with rfl | rfl | rfl | rfl <;> cases hq : quad.graphName <;>
        simp [Building.slot, Scope.covers, Scope.specificity, hg, hq, lookup_mergeMap, eq_comm]
  | predicate p =>
    cases hp : lookup p with
    | none =>
      refine ⟨_, by simp only [addRule, hs, resolving, hp]; rfl, fun quad n hn => ?_⟩
      rcases hcases n hn with rfl | rfl | rfl | rfl <;> simp [Building.slot, Scope.covers, Scope.specificity, hp]
    | some id =>
      refine ⟨_, by simp only [addRule, hs, resolving, hp]; rfl, fun quad n hn => ?_⟩
      rcases hcases n hn with rfl | rfl | rfl | rfl <;>
        simp [Building.slot, Scope.covers, Scope.specificity, hp, lookup_mergeMap, eq_comm]
  | graphPredicate g p =>
    cases hg : lookup g with
    | none =>
      refine ⟨_, by simp only [addRule, hs, resolving, hg]; rfl, fun quad n hn => ?_⟩
      rcases hcases n hn with rfl | rfl | rfl | rfl <;> simp [Building.slot, Scope.covers, Scope.specificity, hg]
    | some gid =>
      cases hp : lookup p with
      | none =>
        refine ⟨_, by simp only [addRule, hs, resolving, hg, hp]; rfl, fun quad n hn => ?_⟩
        rcases hcases n hn with rfl | rfl | rfl | rfl <;> simp [Building.slot, Scope.covers, Scope.specificity, hg, hp]
      | some pid =>
        refine ⟨_, by simp only [addRule, hs, resolving, hg, hp]; rfl, fun quad n hn => ?_⟩
        rcases hcases n hn with rfl | rfl | rfl | rfl <;> cases hq : quad.graphName <;>
          simp [Building.slot, Scope.covers, Scope.specificity, hg, hp, hq, lookup_mergeMap, eq_comm (a := gid),
            eq_comm (a := pid)]

/-- The rules of one level that cover the quad. -/
def covering (quad : EncodedQuad) (n : Nat) (rs : List Rule) : List Rule :=
  rs.filter (fun r => r.scope.covers lookup quad && decide (r.scope.specificity = n))

/-- After all the rules, every slot is the fold of the rules of its level. -/
theorem addRules_slot (rs : List Rule) (b : Building) :
    ∃ b', rs.foldlM (addRule (resolving lookup)) b = .ok b' ∧ ∀ quad, ∀ n ≤ 3,
      b'.slot quad n = (covering lookup quad n rs).foldl (fun slot r => merge slot r.entry) (b.slot quad n) := by
  induction rs generalizing b with
  | nil => exact ⟨b, rfl, fun quad n _ => rfl⟩
  | cons r rs ih =>
    obtain ⟨b₁, h₁, hs₁⟩ := addRule_slot lookup b r
    obtain ⟨b₂, h₂, hs₂⟩ := ih b₁
    refine ⟨b₂, by rw [List.foldlM_cons, h₁]; exact h₂, fun quad n hn => ?_⟩
    rw [hs₂ quad n hn, hs₁ quad n hn]
    by_cases hc : (r.scope.covers lookup quad && decide (r.scope.specificity = n)) = true
    · simp only [covering, List.filter_cons, hc, if_true, List.foldl_cons]
    · simp only [covering, List.filter_cons, hc]
      rfl

/-- A graph is forbidden when one of its labels is above the principal's clearance. -/
theorem addLabels_forbidden (principal : Principal) (ls : List (NamedNode × Label))
    (acc : List TermId × List NamedNode) :
    ∃ acc', ls.foldlM (addLabel (resolving lookup) principal) acc = .ok acc' ∧ ∀ g, g ∈ acc'.1 ↔
      g ∈ acc.1 ∨ ∃ e ∈ ls, lookup e.1 = some g ∧ principal.isClearedFor e.2 = false := by
  induction ls generalizing acc with
  | nil => exact ⟨acc, rfl, by simp⟩
  | cons l ls ih =>
    obtain ⟨acc₁, h₁, hm₁⟩ : ∃ acc₁, addLabel (resolving lookup) principal acc l = .ok acc₁ ∧ ∀ g, g ∈ acc₁.1 ↔
        g ∈ acc.1 ∨ (lookup l.1 = some g ∧ principal.isClearedFor l.2 = false) := by
      cases hl : lookup l.1 with
      | none => exact ⟨_, by simp only [addLabel, resolving, hl]; rfl, by simp⟩
      | some id =>
        refine ⟨_, by simp only [addLabel, resolving, hl]; rfl, fun g => ?_⟩
        cases hc : principal.isClearedFor l.2 <;> simp [eq_comm]
    obtain ⟨acc₂, h₂, hm₂⟩ := ih acc₁
    refine ⟨acc₂, by rw [List.foldlM_cons, h₁]; exact h₂, fun g => ?_⟩
    rw [hm₂, hm₁, or_assoc]
    simp

/-- The levels of a compiled policy that speak for a mode, most specific first. -/
def unshadowed (m : Mode) (ls : List (List Rule)) : List (List Rule) := ls.filter (fun rs => !Shadowed m.modes rs)

/-- What the levels say about a mode, most specific first. -/
def effectOf (default : Effect) (m : Mode) (ls : List (List Rule)) : Effect :=
  (ls.findSome? (levelEffect m.modes)).getD default

theorem findSome?_unshadowed (m : Mode) (ls : List (List Rule)) :
    (unshadowed m ls).findSome? (levelEffect m.modes) =
      ls.findSome? (fun rs => if Shadowed m.modes rs then none else levelEffect m.modes rs) := by
  induction ls with
  | nil => rfl
  | cons rs ls ih =>
    cases hs : Shadowed m.modes rs
    · simp only [unshadowed, List.filter_cons, hs, Bool.not_false, if_true, List.findSome?_cons]
      rw [← unshadowed, ih]
      rfl
    · simp only [unshadowed, List.filter_cons, hs, List.findSome?_cons]
      rw [← unshadowed]
      simpa using ih

variable (policy : Policy) (principal : Principal)

theorem level_eq_covering (quad : EncodedQuad) (n : Nat) :
    level policy lookup principal quad n =
      covering lookup quad n (policy.rules.filter (fun r => r.appliesTo.matches principal)) := by
  simp only [level, covering, List.filter_filter]
  refine List.filter_congr fun r _ => ?_
  cases r.appliesTo.matches principal <;> cases r.scope.covers lookup quad <;>
    cases decide (r.scope.specificity = n) <;> rfl

theorem level_specificity {quad : EncodedQuad} {n : Nat} {r : Rule}
    (hr : r ∈ level policy lookup principal quad n) : r.scope.specificity = n := by
  have := (List.mem_filter.1 hr).2
  simp only [Bool.and_eq_true, decide_eq_true_eq] at this
  exact this.2

theorem fold_level_specificity (m : Mode) {quad : EncodedQuad} {n : Nat} {e : Entry}
    (he : e ∈ fold (level policy lookup principal quad n)) : e.specificity = n := by
  rcases fold_summarises m (fun r hr => level_specificity lookup policy principal hr) with ⟨-, hf⟩ | ⟨e', hf, hs⟩
  · rw [hf] at he; cases he
  · rw [hf] at he; cases he; exact hs.specificity

/-- A policy compiles, whatever its rules: each slot of a quad is the fold of one level,
and a graph is cleared unless the principal is refused one of its labels. -/
theorem compileWith_slots (dictionaryLen : Nat) :
    ∃ cp, policy.compileWith (resolving lookup) dictionaryLen principal = .ok cp ∧
      cp.defaultEffect = policy.defaultEffect ∧ cp.semantics = policy.semantics ∧
      (∀ quad, cp.slots quad = ((levels policy lookup principal quad).map fold).reverse) ∧
      (∀ quad, cp.cleared quad.graphName = !refused policy lookup principal quad) := by
  obtain ⟨b, hb, hslot⟩ := addRules_slot lookup (policy.rules.filter (fun r => r.appliesTo.matches principal)) {}
  obtain ⟨acc, hacc, hmem⟩ := addLabels_forbidden lookup principal policy.graphLabels ([], b.unresolved)
  refine ⟨_, by simp only [Policy.compileWith, hb, hacc, bind, Except.bind]; rfl, rfl, rfl, fun quad => ?_, fun quad => ?_⟩
  · have h : ∀ n ≤ 3, b.slot quad n = fold (level policy lookup principal quad n) := by
      intro n hn
      have hempty : Building.slot {} quad n = none := by
        obtain rfl | rfl | rfl | rfl : n = 0 ∨ n = 1 ∨ n = 2 ∨ n = 3 := by omega
        all_goals cases hq : quad.graphName <;> simp [Building.slot, hq]
      rw [hslot quad n hn, hempty, level_eq_covering]
      rfl
    simp only [levels, List.map_cons, List.map_nil, List.reverse_cons, List.reverse_nil, List.nil_append,
      List.cons_append, ← h 0 (by omega), ← h 1 (by omega), ← h 2 (by omega), ← h 3 (by omega)]
    rfl
  · cases hq : quad.graphName with
    | none => simp [CompiledPolicy.cleared, refused, hq]
    | some g =>
      have hf : decide (g ∈ acc.1) = policy.graphLabels.any
          (fun e => decide (lookup e.1 = some g) && !principal.isClearedFor e.2) := by
        rw [Bool.eq_iff_iff]
        simp [hmem]
      simp only [CompiledPolicy.cleared, refused, hq, hf]

theorem levels_rising (quad : EncodedQuad) : Rising ((levels policy lookup principal quad).map fold).reverse := by
  have hsp : ∀ n, ∀ e ∈ fold (level policy lookup principal quad n), e.specificity = n :=
    fun n e he => fold_level_specificity lookup policy principal .read he
  simp only [Rising, levels, List.map_cons, List.map_nil, List.reverse_cons, List.reverse_nil, List.nil_append,
    List.cons_append, List.pairwise_cons, List.mem_cons, List.not_mem_nil, or_false]
  refine ⟨?_, ?_, ?_, by simp, List.Pairwise.nil⟩
  · rintro s (rfl | rfl | rfl) x hx y hy <;> rw [hsp _ x hx, hsp _ y hy] <;> omega
  · rintro s (rfl | rfl) x hx y hy <;> rw [hsp _ x hx, hsp _ y hy] <;> omega
  · rintro s rfl x hx y hy
    rw [hsp _ x hx, hsp _ y hy]
    omega

/-- What `decideQuad` returns, on the rules: the levels that are not shadowed decide. -/
theorem decideQuad_eq (dictionaryLen : Nat) :
    ∃ cp, policy.compileWith (resolving lookup) dictionaryLen principal = .ok cp ∧ ∀ quad (m : Mode),
      cp.decideQuad quad m.modes =
        if refused policy lookup principal quad then refusalOf policy.semantics
        else match effectOf policy.defaultEffect m (unshadowed m (levels policy lookup principal quad)) with
          | .allow => .allow
          | .deny => refusalOf policy.semantics := by
  obtain ⟨cp, hcp, hdef, hsem, hslots, hclr⟩ := compileWith_slots lookup policy principal dictionaryLen
  refine ⟨cp, hcp, fun quad m => ?_⟩
  have href : cp.refusal = refusalOf policy.semantics := by
    rw [← hsem]; cases hs : cp.semantics <;> simp [CompiledPolicy.refusal, refusalOf, hs]
  have hrise : Rising (cp.slots quad) := hslots quad ▸ levels_rising lookup policy principal quad
  have hbest : ((cp.slots quad).foldl (CompiledPolicy.consider m.modes) none).map (·.2) =
      (unshadowed m (levels policy lookup principal quad)).findSome? (levelEffect m.modes) := by
    rw [foldl_consider _ _ hrise, hslots, List.reverse_reverse, findSome?_unshadowed, List.findSome?_map]
    simp only [levels, List.findSome?_map]
    congr 1
    funext n
    exact slotEffect_fold m (fun r hr => level_specificity lookup policy principal hr)
  unfold CompiledPolicy.decideQuad effectOf
  rw [hclr, Bool.not_not, href, ← hdef, ← hbest] <;> rfl

end Compile

/-! ## The compiled policy against the reference -/

/-- The first level, from the most specific, with a rule for the mode. -/
def decisive (m : Mode) (ls : List (List Rule)) : Option (List Rule) :=
  ls.find? (fun rs => rs.any (fun r => r.modes.contains m.modes))

theorem levelEffect_isSome (m : Modes) (rs : List Rule) :
    (levelEffect m rs).isSome = rs.any (fun r => r.modes.contains m) := by
  cases h : levelEffect m rs with
  | none =>
    have := levelEffect_eq_none.1 h
    symm
    simpa using this
  | some e =>
    symm
    by_contra hc
    have : levelEffect m rs = none := levelEffect_eq_none.2 fun r hr => by
      by_contra hr'
      exact hc (List.any_eq_true.2 ⟨r, hr, by simpa using hr'⟩)
    rw [this] at h
    cases h

theorem Shadowed.allow {m : Modes} {rs : List Rule} (h : Shadowed m rs = true) : levelEffect m rs = some .allow := by
  simp only [Shadowed, Bool.and_eq_true, decide_eq_true_eq] at h
  exact h.2

/-- With the decisive level unshadowed, dropping the shadowed levels changes nothing. -/
theorem effectOf_unshadowed {default : Effect} {m : Mode} {ls : List (List Rule)}
    (h : ∀ rs ∈ decisive m ls, Shadowed m.modes rs = false) :
    effectOf default m (unshadowed m ls) = effectOf default m ls := by
  induction ls with
  | nil => rfl
  | cons rs ls ih =>
    by_cases hd : rs.any (fun r => r.modes.contains m.modes) = true
    · have hs : Shadowed m.modes rs = false := h rs (by simp only [decisive, List.find?_cons, hd]; rfl)
      have hsome : (levelEffect m.modes rs).isSome = true := by rw [levelEffect_isSome, hd]
      obtain ⟨e, he⟩ := Option.isSome_iff_exists.1 hsome
      simp [effectOf, unshadowed, hs, he]
    · have hnone : levelEffect m.modes rs = none := by
        rw [← Option.not_isSome_iff_eq_none, levelEffect_isSome]; exact hd
      have hs : Shadowed m.modes rs = false := by simp [Shadowed, hnone]
      have ih := ih fun rs' hrs' => h rs' (by simp only [decisive, List.find?_cons, hd]; exact hrs')
      simp only [effectOf, unshadowed] at ih ⊢
      simpa [List.filter_cons, hs, List.findSome?_cons, hnone] using ih

/-- A shadowed decisive level allows the mode. -/
theorem effectOf_decisive {default : Effect} {m : Mode} {ls : List (List Rule)} {rs : List Rule}
    (h : decisive m ls = some rs) (hs : Shadowed m.modes rs = true) : effectOf default m ls = .allow := by
  induction ls with
  | nil => cases h
  | cons rs' ls ih =>
    simp only [decisive, List.find?_cons] at h
    cases hd : rs'.any (fun r => r.modes.contains m.modes) with
    | true =>
      simp only [hd, Option.some.injEq] at h
      subst h
      simp [effectOf, Shadowed.allow hs]
    | false =>
      simp only [hd] at h
      have hnone : levelEffect m.modes rs' = none := by
        rw [← Option.not_isSome_iff_eq_none, levelEffect_isSome, hd]; simp
      have ih := ih h
      simp only [effectOf] at ih ⊢
      simpa [List.findSome?_cons, hnone] using ih

theorem refusalOf_ne_allow (s : Semantics) : refusalOf s ≠ .allow := by cases s <;> simp [refusalOf]

/-- Only a policy that fails what it refuses decides to fail. -/
theorem CompiledPolicy.decideQuad_fail (self : CompiledPolicy) {quad : EncodedQuad} {mode : Modes}
    (h : self.decideQuad quad mode = .fail) : self.semantics = .fail := by
  cases hs : self.semantics with
  | fail => rfl
  | filter =>
    simp only [CompiledPolicy.decideQuad, CompiledPolicy.refusal, hs] at h
    split at h
    · cases h
    · split at h <;> cases h

/-- The dictionary of a store, on IRIs. -/
def lookupIn (store : Store) : NamedNode → Option TermId := fun n => store.lookupTerm (.namedNode n)

/-- A compiled policy decides as its rules call for exactly when the principal is
refused the graph, or the decisive level holds no deny of other modes beside its allow,
or the unshadowed levels allow the mode anyway. -/
theorem compile_decideQuad_eq_reference_iff (policy : Policy) (store : Store) (principal : Principal) :
    ∃ cp, policy.compile store principal = .ok cp ∧ ∀ (quad : EncodedQuad) (m : Mode),
      (cp.decideQuad quad m.modes = reference policy (lookupIn store) principal quad m.modes ↔
        refused policy (lookupIn store) principal quad = true ∨
        (∀ rs ∈ decisive m (levels policy (lookupIn store) principal quad), Shadowed m.modes rs = false) ∨
        effectOf policy.defaultEffect m (unshadowed m (levels policy (lookupIn store) principal quad)) = .allow) := by
  obtain ⟨cp, hcp, hdec⟩ := decideQuad_eq (lookupIn store) policy principal store.dictionaryLen
  refine ⟨cp, hcp, fun quad m => ?_⟩
  rw [hdec quad m, reference, verdict_eq]
  cases hr : refused policy (lookupIn store) principal quad with
  | true => simp
  | false =>
    simp only [Bool.false_eq_true, if_false, false_or]
    by_cases hs : ∀ rs ∈ decisive m (levels policy (lookupIn store) principal quad), Shadowed m.modes rs = false
    · rw [effectOf_unshadowed hs]
      exact ⟨fun _ => .inl hs, fun _ => rfl⟩
    · obtain ⟨rs, hrs, hsh⟩ : ∃ rs, decisive m (levels policy (lookupIn store) principal quad) = some rs ∧
          Shadowed m.modes rs = true := by
        by_contra hno
        refine hs fun rs hrs => ?_
        by_contra hsh
        exact hno ⟨rs, hrs, by simpa using hsh⟩
      have hallow : effectOf policy.defaultEffect m (levels policy (lookupIn store) principal quad) = .allow :=
        effectOf_decisive hrs hsh
      simp only [effectOf] at hallow
      rw [hallow]
      cases effectOf policy.defaultEffect m (unshadowed m (levels policy (lookupIn store) principal quad)) with
      | allow => simp
      | deny => exact ⟨fun h => absurd h (refusalOf_ne_allow _), fun h => absurd (h.resolve_left hs) (by decide)⟩

/-- Writing is denied and reading is allowed, both on everything. -/
def readOnly : Policy where
  defaultEffect := .deny
  semantics := .filter
  rules := [⟨.deny, Modes.write, .everything, .everyone⟩, ⟨.allow, Modes.read, .everything, .everyone⟩]
  graphLabels := []
  defaultGraphLabel := Label.default

def reader : Principal := ⟨"urn:reader", ∅, [], none⟩

def nothingStored : Store := Store.ofOps (fun _ => none) 0 []

/-- Under `readOnly` the rules allow the read, and the compiled policy filters it. -/
theorem readOnly_filters_read :
    ∃ cp, readOnly.compile nothingStored reader = .ok cp ∧
      cp.decideQuad ⟨1, 2, 3, none⟩ Mode.read.modes = .filter ∧
      reference readOnly (lookupIn nothingStored) reader ⟨1, 2, 3, none⟩ Mode.read.modes = .allow :=
  ⟨_, rfl, by decide, by decide⟩

end Holos.Security
