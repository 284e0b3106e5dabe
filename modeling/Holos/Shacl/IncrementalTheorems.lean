import Holos.Lib.Collect
import Holos.Shacl.Incremental
import Holos.Shacl.PathTheorems
/-!
# A revalidation reports nothing a validation does not

All that is left of the work of a delta are targeted shapes at focus nodes their targets select, each
pair once, and a validation evaluates every such pair. What compares focus nodes is evaluated over the
whole target set, and once for a shape.
-/

namespace Holos.Shacl

open Lib Incremental

/-- What a run reports, and nothing where it fails. -/
def outcome {α : Type} (m : Walk (List α)) : List α :=
  match m.run with
  | some (.ok l) => l
  | _ => []

theorem outcome_pure {α : Type} {m : Walk (List α)} {l : List α} (h : m = pure l) : outcome m = l := by
  rw [h]
  rfl

theorem subperm_flatMap {α β : Type} {l l' : List α} (h : l.Subperm l') (f : α → List β) : (l.flatMap f).Subperm (l'.flatMap f) := by
  obtain ⟨k, hperm, hsub⟩ := h
  exact ⟨k.flatMap f, hperm.flatMap (fun _ _ => List.Perm.refl _), hsub.flatMap f⟩

theorem flatten_outcome {α β : Type} {f : α → Walk (List β)} {xs : List α} {parts : List (List β)}
    (h : List.Forall₂ (fun x part => f x = pure part) xs parts) : parts.flatten = xs.flatMap (fun x => outcome (f x)) :=
  flatten_parts (h.imp (fun _ _ hx => (outcome_pure hx).symm))

/-! ## Indices -/

namespace Shapes

variable {s : Shapes} {sh : Sh} {i j : ShapeIdx}

theorem lt_of_mem_indices (h : i ∈ s.indices) : i < s.shapes.length := by
  obtain ⟨k, hk, rfl⟩ := List.mem_map.1 h
  exact lt_of_le_of_lt (Nat.min_le_left _ _) (List.mem_range.1 hk)

theorem mem_targeted : i ∈ s.targeted ↔ i ∈ s.indices ∧ s.hasTargets i = true := by
  unfold targeted
  rw [(List.mergeSort_perm _ _).mem_iff, List.mem_filter]

theorem mem_indices_of_pushed {κ : Type} [DecidableEq κ] {f : Shape → List κ} {k : κ} (h : i ∈ pushed (s.entries f) k) : i ∈ s.indices := by
  unfold pushed at h
  rw [mem_sortDedup Function.injective_id] at h
  obtain ⟨e, he, rfl⟩ := List.mem_map.1 h
  obtain ⟨⟨j, shape⟩, hzip, hmem⟩ := List.mem_flatMap.1 (List.mem_filter.1 he).1
  obtain ⟨k', -, rfl⟩ := List.mem_map.1 hmem
  exact (List.of_mem_zip hzip).1

/-- Ancestors have targets. -/
theorem mem_targeted_of_ancestor (hi : i ∈ s.indices) (hj : j ∈ s.targetedAncestors i) : j ∈ s.targeted := by
  unfold targetedAncestors at hj
  rw [mem_sortDedup Function.injective_id] at hj
  obtain ⟨hwalk, htargets⟩ := List.mem_filter.1 hj
  refine mem_targeted.2 ⟨?_, htargets⟩
  rcases mem_walk_cases hwalk with h | h | ⟨k, h⟩
  · cases h
  · rw [List.mem_singleton.1 h]
    exact hi
  · exact mem_indices_of_pushed (List.mem_reverse.1 h)

theorem shape_of_lt (h : i < s.shapes.length) : s.shape i = pure s.shapes[i] := by
  unfold shape
  rw [List.getElem?_eq_getElem h]
  rfl

/-- Whether focus nodes may be upstream is known for every shape. -/
theorem focusMayBeUpstream_known (h : i < s.shapes.length) : ∃ b, s.focusMayBeUpstream i = pure b := by
  unfold focusMayBeUpstream
  rw [shape_of_lt h, pure_bind]
  extract_lets compound rest
  have hcompound : ∀ p ∈ s.shapes[i].paths, ∃ b, compound p = pure b := by
    intro p hp
    have hlt := s.paths_lt _ (List.getElem_mem h) p hp
    have hpath : Validator.path s.paths p = pure s.paths[p] := by
      unfold Validator.path
      rw [List.getElem?_eq_getElem hlt]
      rfl
    dsimp only [compound]
    rw [hpath, pure_bind]
    cases s.paths[p] <;> exact ⟨_, rfl⟩
  have hrest : ∀ ps : List PathIdx, (∀ p ∈ ps, p ∈ s.shapes[i].paths) → ∀ found,
      ∃ b, ps.foldlM (fun found p => if found = true then (pure true : Walk Bool) else compound p) found = pure b := by
    intro ps
    induction ps with
    | nil => exact fun _ found => ⟨found, rfl⟩
    | cons p ps ih =>
      intro hps found
      have hnext := ih (fun q hq => hps q (List.mem_cons_of_mem p hq))
      rw [List.foldlM_cons]
      cases found with
      | true => exact hnext true
      | false =>
        obtain ⟨b, hb⟩ := hcompound p (hps p List.mem_cons_self)
        rw [if_neg (by decide), hb, pure_bind]
        exact hnext b
  have hcompared : ∃ b, rest () = pure b :=
    hrest _ (fun p hp => List.mem_append_right _ hp) false
  cases hpath : s.shapes[i].path with
  | none => exact hcompared
  | some p =>
    obtain ⟨b, hb⟩ := hcompound p (List.mem_append_left _ (by rw [hpath]; exact List.mem_singleton_self p))
    dsimp only
    rw [hb, pure_bind]
    cases b with
    | true => exact ⟨true, rfl⟩
    | false => exact hcompared

end Shapes

/-! ## The work of a delta -/

namespace Incremental

variable {s : Shapes} {sh : Sh} {changes : List Change} {classesOf : TermId → List TermId}

theorem mem_sorted {work : Work} {w : ShapeIdx × TermId} : w ∈ sorted work ↔ w ∈ work := mem_sortDedup toLex.injective

theorem sorted_nodup (work : Work) : (sorted work).Nodup := by
  have h := sortDedup_sorted (fun w : ShapeIdx × TermId => toLex w) work
  exact List.Nodup.of_map _ (h.imp (fun hlt => ne_of_lt hlt))

/-- A plan is about shapes that are there. -/
theorem mem_indices_of_plan {idx : ShapeIdx} {node : TermId} (h : (idx, node) ∈ plan s sh changes classesOf) : idx ∈ s.indices := by
  unfold plan at h
  rw [mem_sorted] at h
  obtain ⟨change, -, hmem⟩ := List.mem_flatMap.1 h
  rcases List.mem_append.1 hmem with hmem | hmem
  · obtain ⟨j, hj, hpair⟩ := List.mem_flatMap.1 hmem
    have : idx = j := by
      rcases List.mem_cons.1 hpair with heq | hpair
      · exact (Prod.mk.inj heq).1
      · exact (Prod.mk.inj (List.mem_singleton.1 hpair)).1
    rw [this]
    exact Shapes.mem_indices_of_pushed hj
  · split at hmem
    · obtain ⟨c, -, hmap⟩ := List.mem_flatMap.1 hmem
      obtain ⟨j, hj, hpair⟩ := List.mem_map.1 hmap
      rw [← (Prod.mk.inj hpair).1]
      exact Shapes.mem_indices_of_pushed hj
    · cases hmem

theorem add_implicated {node : TermId} {upstream : Bool} {ancestors : List ShapeIdx} {st : Attributed} (hall : ∀ a ∈ ancestors, a ∈ s.targeted)
    (hst : ∀ i ∈ st.implicated, i ∈ s.targeted) :
    ∀ i ∈ (ancestors.foldl (Attributed.add node upstream) st).implicated, i ∈ s.targeted := by
  induction ancestors generalizing st with
  | nil => exact hst
  | cons a ancestors ih =>
    refine ih (fun b hb => hall b (List.mem_cons_of_mem a hb)) (fun i hi => ?_)
    rcases List.mem_insert_iff.1 hi with rfl | hi
    · exact hall i List.mem_cons_self
    · exact hst i hi

/-- What is implicated has targets. -/
theorem attributeUpwards_spec {work : Work} (hwork : ∀ w ∈ work, w.1 ∈ s.indices) :
    ∃ st, attributeUpwards s work = pure st ∧ ∀ i ∈ st.implicated, i ∈ s.targeted := by
  unfold attributeUpwards
  have hst : ∀ i ∈ (⟨[], [], []⟩ : Attributed).implicated, i ∈ s.targeted := fun i hi => by cases hi
  generalize (⟨[], [], []⟩ : Attributed) = st at hst ⊢
  induction work generalizing st with
  | nil => exact ⟨st, rfl, hst⟩
  | cons w work ih =>
    have hidx := hwork w List.mem_cons_self
    obtain ⟨upstream, hup⟩ := Shapes.focusMayBeUpstream_known (Shapes.lt_of_mem_indices hidx)
    rw [List.foldlM_cons, hup, pure_bind, pure_bind]
    exact ih (fun w hw => hwork w (List.mem_cons_of_mem _ hw)) _ (add_implicated (fun a ha => Shapes.mem_targeted_of_ancestor hidx ha) hst)

end Incremental

/-! ## What is evaluated -/

namespace Validator

variable {B : Backend} {v : Validator B}

/-- What a validation evaluates for a shape: at its focus nodes, and over all of them. -/
def foundAt (v : Validator B) (idx : ShapeIdx) : List ValidationResult :=
  (outcome (v.focusNodes idx)).flatMap (fun focus => outcome (v.validateShape idx focus 0))

def foundOver (v : Validator B) (idx : ShapeIdx) : List ValidationResult :=
  outcome (v.uniqueValuesFor idx (outcome (v.focusNodes idx)))

/-- What the evaluations of a validation report, whether or not another one fails. -/
def found (v : Validator B) : List ValidationResult := v.shapes.targeted.flatMap (fun idx => v.foundAt idx ++ v.foundOver idx)

/-- A shape whose evaluations all come to an end. -/
structure Validated (v : Validator B) (idx : ShapeIdx) (fs : List TermId) : Prop where
  focus : v.focusNodes idx = pure fs
  each : ∀ f ∈ fs, ∃ r, v.validateShape idx f 0 = pure r
  whole : ∃ u, v.uniqueValuesFor idx fs = pure u

/-- A validation that comes to an end evaluated every targeted shape. -/
theorem validateAll_spec {rep : Report} (h : v.validateAll = pure rep) :
    (∀ idx ∈ v.shapes.targeted, ∃ fs, Validated v idx fs) ∧ ∃ declared, rep = Report.new (v.found ++ declared) := by
  unfold validateAll at h
  obtain ⟨results, hloop, hrest⟩ := bind_pure_iff.1 h
  obtain ⟨declared, -, hrep⟩ := bind_pure_iff.1 hrest
  have hstep : ∀ idx ∈ v.shapes.targeted, ∀ out out', (do
      let focusNodes ← v.focusNodes idx
      let results ← focusNodes.foldlM (fun results focus => return results ++ (← v.validateShape idx focus 0)) out
      return results ++ (← v.uniqueValuesFor idx focusNodes)) = pure out' →
      ∃ part, ((∃ fs, Validated v idx fs) ∧ part = v.foundAt idx ++ v.foundOver idx) ∧ out' = out ++ part := by
    intro idx _ out out' hrun
    obtain ⟨fs, hfs, hrun⟩ := bind_pure_iff.1 hrun
    obtain ⟨results, heach, hover⟩ := bind_pure_iff.1 hrun
    obtain ⟨parts, hparts, rfl⟩ := foldlM_append_iff.1 heach
    obtain ⟨u, hu, rfl⟩ := append_step.1 hover
    refine ⟨_, ⟨⟨fs, hfs, fun f hf => exists_part hparts hf, u, hu⟩, rfl⟩, ?_⟩
    unfold foundAt foundOver
    rw [outcome_pure hfs, flatten_outcome hparts, outcome_pure hu, List.append_assoc]
  obtain ⟨parts, hparts, rfl⟩ := parts_of_foldlM hstep hloop
  have hflatten : parts.flatten = v.found := flatten_parts (hparts.imp (fun _ _ hx => hx.2))
  refine ⟨fun idx hidx => ?_, declared, ?_⟩
  · obtain ⟨part, hvalidated, -⟩ := exists_part hparts hidx
    exact hvalidated
  · rw [← Inverting.pure_inj hrep, List.nil_append, hflatten]

/-! ## What is selected -/

/-- A check at a targeted shape, at a node its targets select. -/
def Selected (v : Validator B) (w : ShapeIdx × TermId) : Prop :=
  w.1 ∈ v.shapes.targeted ∧ ∃ fs, v.focusNodes w.1 = pure fs ∧ w.2 ∈ fs

theorem uniqueOnce_cases {done done' : List ShapeIdx} {results results' : List ValidationResult} {idx : ShapeIdx}
    (h : v.uniqueOnce done results idx = pure (done', results')) :
    (idx ∈ done ∧ done' = done ∧ results' = results) ∨
      (idx ∉ done ∧ done' = idx :: done ∧ (results' = results ∨ results' = results ++ v.foundOver idx)) := by
  unfold uniqueOnce at h
  split at h
  · rename_i hdone
    cases Inverting.pure_inj h
    exact .inl ⟨hdone, rfl, rfl⟩
  · rename_i hdone
    obtain ⟨shape, -, h⟩ := bind_pure_iff.1 h
    split at h
    · cases Inverting.pure_inj h
      exact .inr ⟨hdone, rfl, .inl rfl⟩
    · obtain ⟨fs, hfs, h⟩ := bind_pure_iff.1 h
      obtain ⟨u, hu, h⟩ := bind_pure_iff.1 h
      cases Inverting.pure_inj h
      unfold foundOver
      rw [outcome_pure hfs, outcome_pure hu]
      exact .inr ⟨hdone, rfl, .inr rfl⟩

/-- What compares focus nodes is evaluated once for a shape at most. -/
theorem uniqueOnce_loop {work : Work} {done : List ShapeIdx} {results : List ValidationResult} {st : List ShapeIdx × List ValidationResult}
    (h : work.foldlM (fun st w => v.uniqueOnce st.1 st.2 w.1) (done, results) = pure st) :
    ∃ idxs : List ShapeIdx, idxs.Nodup ∧ (∀ i ∈ idxs, i ∉ done ∧ ∃ w ∈ work, w.1 = i) ∧ st.2 = results ++ idxs.flatMap v.foundOver := by
  induction work generalizing done results with
  | nil =>
    cases Inverting.pure_inj h
    exact ⟨[], .nil, (fun i hi => by cases hi), by simp⟩
  | cons w work ih =>
    rw [List.foldlM_cons] at h
    obtain ⟨⟨done', results'⟩, hstep, hrest⟩ := bind_pure_iff.1 h
    obtain ⟨idxs, hnodup, hidxs, hst⟩ := ih hrest
    have hlater : ∀ i ∈ idxs, ∃ w' ∈ w :: work, w'.1 = i := by
      intro i hi
      obtain ⟨w', hw', heq⟩ := (hidxs i hi).2
      exact ⟨w', List.mem_cons_of_mem w hw', heq⟩
    rcases uniqueOnce_cases hstep with ⟨-, rfl, rfl⟩ | ⟨hnew, rfl, hresults⟩
    · exact ⟨idxs, hnodup, fun i hi => ⟨(hidxs i hi).1, hlater i hi⟩, hst⟩
    · have hnot : ∀ i ∈ idxs, i ∉ done := fun i hi hmem => (hidxs i hi).1 (List.mem_cons_of_mem _ hmem)
      rcases hresults with rfl | rfl
      · exact ⟨idxs, hnodup, fun i hi => ⟨hnot i hi, hlater i hi⟩, hst⟩
      · refine ⟨w.1 :: idxs, List.nodup_cons.2 ⟨fun hmem => (hidxs _ hmem).1 List.mem_cons_self, hnodup⟩, fun i hi => ?_, ?_⟩
        · rcases List.mem_cons.1 hi with rfl | hi
          · exact ⟨hnew, w, List.mem_cons_self, rfl⟩
          · exact ⟨hnot i hi, hlater i hi⟩
        · rw [hst, List.flatMap_cons, List.append_assoc]

/-- Checks that are selected, each once, report no more than the evaluations of a validation. -/
theorem validateSelected_found {work : Work} {rep : Report} (hnodup : work.Nodup) (hselected : ∀ w ∈ work, Selected v w)
    (h : v.validateSelected work = pure rep) : ∃ results, rep = Report.new results ∧ results.Subperm v.found := by
  unfold validateSelected at h
  obtain ⟨results, heach, hrest⟩ := bind_pure_iff.1 h
  obtain ⟨st, hunique, hrep⟩ := bind_pure_iff.1 hrest
  obtain ⟨parts, hparts, rfl⟩ := foldlM_append_iff.1 heach
  obtain ⟨idxs, hidxs, hmem, hst⟩ := uniqueOnce_loop hunique
  refine ⟨st.2, (Inverting.pure_inj hrep).symm, ?_⟩
  -- the checks are among all pairs of a targeted shape and a focus node
  have hpairs : work.Subperm (v.shapes.targeted.flatMap (fun idx => (outcome (v.focusNodes idx)).map (fun f => (idx, f)))) := by
    refine hnodup.subperm (fun w hw => ?_)
    obtain ⟨htargeted, fs, hfs, hf⟩ := hselected w hw
    refine List.mem_flatMap.2 ⟨w.1, htargeted, ?_⟩
    rw [outcome_pure hfs]
    exact List.mem_map.2 ⟨w.2, hf, rfl⟩
  have heach : (parts.flatten).Subperm (v.shapes.targeted.flatMap v.foundAt) := by
    have hsub := subperm_flatMap hpairs (fun w => outcome (v.validateShape w.1 w.2 0))
    rw [flatten_outcome hparts]
    refine hsub.trans (List.Perm.subperm (List.Perm.of_eq ?_))
    rw [List.flatMap_assoc]
    congr 1
    funext idx
    rw [List.flatMap_map]
    rfl
  have hover : (idxs.flatMap v.foundOver).Subperm (v.shapes.targeted.flatMap v.foundOver) := by
    refine subperm_flatMap (hidxs.subperm (fun i hi => ?_)) v.foundOver
    obtain ⟨w, hw, rfl⟩ := (hmem i hi).2
    exact (hselected w hw).1
  rw [hst, List.nil_append]
  exact (heach.append hover).trans (List.flatMap_append_perm _ _ _).subperm

/-- Checks of evaluated shapes come to an end. -/
theorem validateSelected_ends {work : Work} (hselected : ∀ w ∈ work, Selected v w)
    (hvalidated : ∀ idx ∈ v.shapes.targeted, ∃ fs, Validated v idx fs) : ∃ rep, v.validateSelected work = pure rep := by
  have heach : ∃ results, work.foldlM (fun results w => do return results ++ (← v.validateShape w.1 w.2 0)) [] = pure results := by
    have hpart : ∀ w ∈ work, ∃ part, v.validateShape w.1 w.2 0 = pure part := by
      intro w hw
      obtain ⟨htargeted, fs, hfs, hf⟩ := hselected w hw
      obtain ⟨fs', hfs', hall, -⟩ := hvalidated w.1 htargeted
      cases Inverting.pure_inj (hfs.symm.trans hfs')
      exact hall w.2 hf
    obtain ⟨parts, hparts⟩ := exists_parts hpart
    exact ⟨_, foldlM_append_iff.2 ⟨parts, hparts, rfl⟩⟩
  obtain ⟨results, hresults⟩ := heach
  have hunique : ∃ st, work.foldlM (fun st w => v.uniqueOnce st.1 st.2 w.1) (([] : List ShapeIdx), results) = pure st := by
    refine foldlM_ends (fun w hw st => ?_)
    obtain ⟨htargeted, -⟩ := hselected w hw
    obtain ⟨fs, hfs, -, u, hu⟩ := hvalidated w.1 htargeted
    have hshape := Shapes.shape_of_lt (Shapes.lt_of_mem_indices (Shapes.mem_targeted.1 htargeted).1)
    unfold uniqueOnce
    split
    · exact ⟨_, rfl⟩
    · rw [hshape, pure_bind]
      split
      · exact ⟨_, rfl⟩
      · rw [hfs, pure_bind, hu, pure_bind]
        exact ⟨_, rfl⟩
  obtain ⟨st, hst⟩ := hunique
  refine ⟨Report.new st.2, ?_⟩
  unfold validateSelected
  rw [hresults, pure_bind, hst, pure_bind]

theorem unwrapOrDefault_pure {m : Walk (List TermId)} {fs : List TermId} {f : TermId} (h : unwrapOrDefault m = pure fs) (hf : f ∈ fs) :
    m = pure fs := by
  unfold unwrapOrDefault at h
  cases hm : m.run with
  | none =>
    rw [hm] at h
    cases h
  | some r =>
    rw [hm] at h
    cases r with
    | ok l =>
      cases h
      exact hm
    | error e =>
      cases h
      cases hf

/-- The focus nodes of targeted shapes, none where they cannot be read. -/
def Caching (v : Validator B) (cache : List (ShapeIdx × List TermId)) : Prop :=
  ∀ e ∈ cache, e.1 ∈ v.shapes.targeted ∧ unwrapOrDefault (v.focusNodes e.1) = pure e.2

theorem selected_of_lookup {cache : List (ShapeIdx × List TermId)} (h : Caching v cache) {idx : ShapeIdx} {fs : List TermId}
    (hlookup : cache.lookup idx = some fs) {f : TermId} (hf : f ∈ fs) : Selected v (idx, f) := by
  obtain ⟨l₁, l₂, hcache, -⟩ := List.lookup_eq_some_iff.1 hlookup
  obtain ⟨htargeted, hfs⟩ := h (idx, fs) (by rw [hcache]; simp)
  exact ⟨htargeted, fs, unwrapOrDefault_pure hfs hf, hf⟩

/-- What is left of the work is selected. -/
theorem selected_of_trim {attributed : Attributed} {cache : List (ShapeIdx × List TermId)} (h : Caching v cache) {w : ShapeIdx × TermId}
    (hw : w ∈ trim attributed cache) : Selected v w := by
  unfold Incremental.trim at hw
  rw [mem_sorted] at hw
  rcases List.mem_append.1 hw with hw | hw
  · have hany := (List.mem_filter.1 hw).2
    cases hlookup : cache.lookup w.1 with
    | none =>
      rw [hlookup] at hany
      cases hany
    | some fs =>
      rw [hlookup] at hany
      exact selected_of_lookup h hlookup (of_decide_eq_true hany)
  · obtain ⟨idx, -, hw⟩ := List.mem_flatMap.1 hw
    split at hw
    · cases hw
    · obtain ⟨f, hf, rfl⟩ := List.mem_map.1 hw
      cases hlookup : cache.lookup idx with
      | none =>
        rw [hlookup] at hf
        cases hf
      | some fs =>
        rw [hlookup] at hf
        exact selected_of_lookup h hlookup hf

theorem focusCache_caching {implicated : List ShapeIdx} (himplicated : ∀ i ∈ implicated, i ∈ v.shapes.targeted)
    {cache : List (ShapeIdx × List TermId)} (h : v.focusCache implicated = pure cache) : Caching v cache := by
  have hstep : ∀ idx ∈ implicated, ∀ out out', (do return out ++ [(idx, ← unwrapOrDefault (v.focusNodes idx))]) = (pure out' : Walk _) →
      ∃ part, (∀ e ∈ part, e.1 ∈ v.shapes.targeted ∧ unwrapOrDefault (v.focusNodes e.1) = pure e.2) ∧ out' = out ++ part := by
    intro idx hidx out out' hrun
    obtain ⟨fs, hfs, hout⟩ := bind_pure_iff.1 hrun
    refine ⟨[(idx, fs)], fun e he => ?_, (Inverting.pure_inj hout).symm⟩
    rw [List.mem_singleton.1 he]
    exact ⟨himplicated idx hidx, hfs⟩
  obtain ⟨parts, hparts, rfl⟩ := parts_of_foldlM hstep h
  intro e he
  rw [List.nil_append] at he
  obtain ⟨part, hpart, hmem⟩ := List.mem_flatten.1 he
  obtain ⟨idx, hall⟩ := exists_part hparts.flip hpart
  exact hall e hmem

/-- What a revalidation selects. -/
theorem revalidate_cases (v : Validator B) (changes : List Change) : ∃ implicated, (∀ i ∈ implicated, i ∈ v.shapes.targeted) ∧
    ∃ attributed, v.revalidate changes = (v.focusCache implicated >>= fun cache => v.validateSelected (trim attributed cache)) := by
  unfold revalidate
  extract_lets classesOf
  obtain ⟨st, hst, himplicated⟩ := @attributeUpwards_spec v.shapes (plan v.shapes v.sh changes classesOf) (fun w hw => mem_indices_of_plan hw)
  refine ⟨st.implicated, himplicated, st, ?_⟩
  rw [hst, pure_bind]

/-- A revalidation that comes to an end reports no more than the evaluations of a validation. -/
theorem revalidate_found {changes : List Change} {rep : Report} (h : v.revalidate changes = pure rep) :
    ∃ results, rep = Report.new results ∧ results.Subperm v.found := by
  obtain ⟨implicated, himplicated, attributed, heq⟩ := revalidate_cases v changes
  rw [heq] at h
  obtain ⟨cache, hcache, hrun⟩ := bind_pure_iff.1 h
  exact validateSelected_found (sorted_nodup _) (fun w hw => selected_of_trim (focusCache_caching himplicated hcache) hw) hrun

theorem revalidate_ends (changes : List Change) (hvalidated : ∀ idx ∈ v.shapes.targeted, ∃ fs, Validated v idx fs) :
    ∃ rep, v.revalidate changes = pure rep := by
  obtain ⟨implicated, himplicated, attributed, heq⟩ := revalidate_cases v changes
  have hfold : ∃ cache, v.focusCache implicated = pure cache := by
    refine foldlM_ends (fun idx hidx cache => ?_)
    obtain ⟨fs, hfs, -⟩ := hvalidated idx (himplicated idx hidx)
    rw [hfs]
    exact ⟨_, rfl⟩
  obtain ⟨cache, hcache⟩ := hfold
  rw [heq, hcache, pure_bind]
  exact validateSelected_ends (fun w hw => selected_of_trim (focusCache_caching himplicated hcache) hw) hvalidated

end Validator

theorem conforms_of_subperm {results results' : List ValidationResult} (h : results.Subperm results') (hc : (Report.new results').conforms = true) :
    (Report.new results).conforms = true := by
  unfold Report.new at hc ⊢
  dsimp only at hc ⊢
  rw [Bool.not_eq_true', List.any_eq_false] at hc ⊢
  exact fun r hr => hc r (h.subset hr)

namespace CompiledShapes

variable {B : Backend}

open Shacl.InMemory in
/-- One shape, for the node `x`. -/
def single : CompiledShapes := ⟨⟨[⟨blank, none, none, [.node x], [], p, [], [], false⟩], [], [], by simp [Shape.paths]⟩, ⟨.any, .any⟩, vocabulary⟩

open Shacl.InMemory in
/-- A shape that no node conforms to. -/
def rejecting : ShapeIdx → TermId → Nat → Walk (List ValidationResult) :=
  fun _ focus _ => pure [⟨focus, none, none, blank, p, none, p, [], []⟩]

end CompiledShapes

end Holos.Shacl
