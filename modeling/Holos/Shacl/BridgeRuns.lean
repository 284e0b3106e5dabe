import Holos.Engine.WorldTheorems
import Holos.Shacl.EngineRunTheorems
import Holos.Store.MemoryBackend
/-!
# A bridge over many deltas

A bridge is told of every effective change to its store, in batches, and is compared after each
with the store bridged afresh. A row is a quad without its graph, so a filter that selects several
graphs can hold one row through several quads.
-/

namespace Holos

open Lib Lib.Eff

def Change.edit (change : Change) : Edit EncodedQuad := if change.added then .add change.quad else .remove change.quad

def Change.op (change : Change) : Index.Op := if change.added then .insert change.quad else .remove change.quad

/-- Two quads say the same, perhaps in two graphs. -/
def EncodedQuad.SameTriple (e e' : EncodedQuad) : Prop :=
  e.subject = e'.subject ∧ e.predicate = e'.predicate ∧ e.object = e'.object

namespace Shacl

variable {ids ids' : Ids} {decode : Decode} {f f' : Forward} {g : GraphFilter}

/-! ## Rows of a store -/

/-- The row of a quad, whichever graph it is of. -/
def HasRow (ids : Ids) (e : EncodedQuad) (row : Row) : Prop :=
  ids row.1 = some e.subject ∧ ids row.2.1 = some e.predicate ∧ ids row.2.2 = some e.object

def rowsOf (ids : Ids) (g : GraphFilter) (quads : Set EncodedQuad) : Set Row :=
  {row | ∃ e ∈ quads, inGraph e.graphName g = true ∧ HasRow ids e row}

theorem HasRow.unique {e : EncodedQuad} {row row' : Row} (h : HasRow ids e row) (h' : HasRow ids e row') : row = row' :=
  Prod.ext (Ids.term_inj h.1 h'.1) (Prod.ext (Ids.term_inj h.2.1 h'.2.1) (Ids.term_inj h.2.2 h'.2.2))

theorem HasRow.mono {e : EncodedQuad} {row : Row} (h : HasRow ids e row) (hle : ids ≤ ids') : HasRow ids' e row :=
  ⟨hle _ _ h.1, hle _ _ h.2.1, hle _ _ h.2.2⟩

theorem HasRow.sameTriple {e e' : EncodedQuad} {row : Row} (h : HasRow ids e row) (h' : HasRow ids e' row) : e.SameTriple e' :=
  ⟨Option.some.inj (h.1.symm.trans h'.1), Option.some.inj (h.2.1.symm.trans h'.2.1), Option.some.inj (h.2.2.symm.trans h'.2.2)⟩

theorem HasRow.of_sameTriple {e e' : EncodedQuad} {row : Row} (h : HasRow ids e row) (hsame : e.SameTriple e') : HasRow ids e' row := by
  obtain ⟨hs, hp, ho⟩ := hsame
  exact ⟨hs ▸ h.1, hp ▸ h.2.1, ho ▸ h.2.2⟩

/-- The row of a quad whose ids are all given. -/
noncomputable def rowOf (ids : Ids) (e : EncodedQuad) : Row :=
  open Classical in if h : ∃ row, HasRow ids e row then h.choose else (.blankNode "", .blankNode "", .blankNode "")

theorem hasRow_rowOf {e : EncodedQuad} (h : ∃ row, HasRow ids e row) : HasRow ids e (rowOf ids e) := by
  unfold rowOf
  rw [dif_pos h]
  exact h.choose_spec

theorem rowOf_eq {e : EncodedQuad} {row : Row} (h : HasRow ids e row) : rowOf ids e = row := (hasRow_rowOf ⟨row, h⟩).unique h

theorem rowOf_eq_iff {e e' : EncodedQuad} (h : ∃ row, HasRow ids e row) (h' : ∃ row, HasRow ids e' row) :
    rowOf ids e = rowOf ids e' ↔ e.SameTriple e' := by
  constructor
  · exact fun heq => (heq ▸ hasRow_rowOf h).sameTriple (hasRow_rowOf h')
  · exact fun hsame => (rowOf_eq ((hasRow_rowOf h).of_sameTriple hsame)).symm

theorem HasRow.of_quad {e : EncodedQuad} (h : ∃ q, ids.quad q = some e) : ∃ row, HasRow ids e row := by
  obtain ⟨q, hq⟩ := h
  obtain ⟨hs, hp, ho, -⟩ := Ids.quad_eq_some.1 hq
  exact ⟨(_, _, _), hs, hp, ho⟩

/-- New ids are of no quad that has its own. -/
theorem rowsOf_mono {quads : Set EncodedQuad} (hrow : ∀ e ∈ quads, ∃ row, HasRow ids e row) (hle : ids ≤ ids') :
    rowsOf ids' g quads = rowsOf ids g quads := by
  ext row
  constructor
  · rintro ⟨e, he, hg, h⟩
    obtain ⟨row', h'⟩ := hrow e he
    cases h.unique (h'.mono hle)
    exact ⟨e, he, hg, h'⟩
  · rintro ⟨e, he, hg, h⟩
    exact ⟨e, he, hg, h.mono hle⟩

/-! ## Net effects -/

/-- The changes of the graphs a filter selects. -/
def selected (g : GraphFilter) (changes : List Change) : List Change := changes.filter (fun c => inGraph c.quad.graphName g)

theorem mem_selected {changes : List Change} {c : Change} : c ∈ selected g changes ↔ c ∈ changes ∧ inGraph c.quad.graphName g = true :=
  List.mem_filter

namespace EngineRun

section
variable {α : Type} {row : α → Row} {added : α → Bool} {as : List α} {r : Row} {b b' : Bool}

/-- A row's entry is the last change to it. -/
theorem mem_net_iff : (r, b) ∈ net row added as ↔
    ∃ before a after, as = before ++ a :: after ∧ row a = r ∧ added a = b ∧ ∀ a' ∈ after, row a' ≠ r := by
  induction as using List.reverseRecOn with
  | nil => simp [net]
  | append_singleton as a ih =>
    rw [net_concat, mem_note]
    by_cases heq : r = row a
    · rw [if_pos heq]
      constructor
      · rintro rfl
        exact ⟨as, a, [], rfl, heq.symm, rfl, fun a' ha' => absurd ha' List.not_mem_nil⟩
      · rintro ⟨before, a', after, has, -, hb, hlast⟩
        -- a later change to the row would be the one at the end
        rcases List.eq_nil_or_concat after with rfl | ⟨after', a'', rfl⟩
        · obtain ⟨-, hlist⟩ := List.append_inj' has rfl
          cases hlist
          exact hb.symm
        · rw [List.concat_eq_append, ← List.cons_append, ← List.append_assoc] at has
          obtain ⟨-, hlist⟩ := List.append_inj' has rfl
          cases hlist
          exact absurd heq.symm (hlast a (by simp))
    · rw [if_neg heq, ih]
      constructor
      · rintro ⟨before, a', after, rfl, hr, hb, hlast⟩
        refine ⟨before, a', after ++ [a], by simp, hr, hb, fun a'' ha'' => ?_⟩
        rcases List.mem_append.1 ha'' with ha'' | ha''
        · exact hlast a'' ha''
        · rw [List.mem_singleton.1 ha'']
          exact Ne.symm heq
      · rintro ⟨before, a', after, has, hr, hb, hlast⟩
        rcases List.eq_nil_or_concat after with rfl | ⟨after', a'', rfl⟩
        · obtain ⟨-, hlist⟩ := List.append_inj' has rfl
          cases hlist
          exact absurd hr.symm heq
        · rw [List.concat_eq_append, ← List.cons_append, ← List.append_assoc] at has
          obtain ⟨hinit, hlist⟩ := List.append_inj' has rfl
          cases hlist
          exact ⟨before, a', after', hinit, hr, hb, fun a'' ha'' => hlast a'' (by simp [ha''])⟩

theorem net_functional (h : (r, b) ∈ net row added as) (h' : (r, b') ∈ net row added as) : b = b' := by
  induction as using List.reverseRecOn with
  | nil => simp [net] at h
  | append_singleton as a ih =>
    rw [net_concat, mem_note] at h h'
    split_ifs at h h' with heq
    · exact h.trans h'.symm
    · exact ih h h'

/-- A row that some change is to has an entry. -/
theorem exists_net {a : α} (ha : a ∈ as) : ∃ b, (row a, b) ∈ net row added as := by
  induction as using List.reverseRecOn with
  | nil => cases ha
  | append_singleton as a' ih =>
    simp only [net_concat, mem_note]
    by_cases heq : row a = row a'
    · exact ⟨added a', by rw [if_pos heq]⟩
    · rcases List.mem_append.1 ha with ha | ha
      · obtain ⟨b, hb⟩ := ih ha
        exact ⟨b, by rwa [if_neg heq]⟩
      · exact absurd (congrArg row (List.mem_singleton.1 ha)) heq

end

/-! ## What a batch makes of the rows -/

/-- The row edits of a batch: its changes to the selected graphs, forgetting which. -/
noncomputable def rowEdits (ids : Ids) (g : GraphFilter) (changes : List Change) : List (Edit Row) :=
  (selected g changes).map (fun c => edit (rowOf ids c.quad) c.added)

/-- The last change of a triple takes it out of one selected graph, and another has it. The quads are
those the changes leave. -/
def Lingers (g : GraphFilter) (quads : Set EncodedQuad) (changes : List Change) : Prop :=
  ∃ before c after, selected g changes = before ++ c :: after ∧ c.added = false ∧ (∀ c' ∈ after, ¬ c'.quad.SameTriple c.quad) ∧
    ∃ e ∈ quads, inGraph e.graphName g = true ∧ e.SameTriple c.quad

/-- The first change of a triple puts it into one selected graph, and another had it. The quads are
those before the changes. -/
def Doubles (g : GraphFilter) (quads : Set EncodedQuad) (changes : List Change) : Prop :=
  ∃ before c after, selected g changes = before ++ c :: after ∧ c.added = true ∧ (∀ c' ∈ before, ¬ c'.quad.SameTriple c.quad) ∧
    ∃ e ∈ quads, inGraph e.graphName g = true ∧ e.SameTriple c.quad

variable {S : Set EncodedQuad} {changes : List Change} {r : Row}

theorem selected_concat (changes : List Change) (c : Change) :
    selected g (changes ++ [c]) = if inGraph c.quad.graphName g = true then selected g changes ++ [c] else selected g changes := by
  unfold selected
  rw [List.filter_append, List.filter_singleton]
  cases inGraph c.quad.graphName g with
  | true => rfl
  | false => exact List.append_nil _

/-- A change concerns no row but its own, and none if its graph is not selected. -/
theorem mem_rowsOf_apply {c : Change} (h : ¬ (inGraph c.quad.graphName g = true ∧ HasRow ids c.quad r)) :
    r ∈ rowsOf ids g (c.edit.apply S) ↔ r ∈ rowsOf ids g S := by
  have hne : ∀ e, inGraph e.graphName g = true → HasRow ids e r → e ≠ c.quad := by
    rintro e hg hrow rfl
    exact h ⟨hg, hrow⟩
  have hmem : ∀ e, e ≠ c.quad → (e ∈ c.edit.apply S ↔ e ∈ S) := by
    intro e hec
    unfold Change.edit
    split
    · exact Set.mem_insert_iff.trans (or_iff_right hec)
    · exact (Set.mem_sdiff e).trans (and_iff_left hec)
  constructor
  · rintro ⟨e, he, hg, hrow⟩
    exact ⟨e, (hmem e (hne e hg hrow)).1 he, hg, hrow⟩
  · rintro ⟨e, he, hg, hrow⟩
    exact ⟨e, (hmem e (hne e hg hrow)).2 he, hg, hrow⟩

/-- A row added last is held, and one that no change is to is held if it was. -/
theorem mem_rowsOf_replay (hrow : ∀ c ∈ changes, ∃ row, HasRow ids c.quad row) :
    ((r, true) ∈ net (fun c => rowOf ids c.quad) (·.added) (selected g changes) →
      r ∈ rowsOf ids g (Edit.replay S (changes.map Change.edit))) ∧
    ((∀ b, (r, b) ∉ net (fun c => rowOf ids c.quad) (·.added) (selected g changes)) →
      (r ∈ rowsOf ids g (Edit.replay S (changes.map Change.edit)) ↔ r ∈ rowsOf ids g S)) := by
  induction changes using List.reverseRecOn with
  | nil => simp [selected, net]
  | append_singleton changes c ih =>
    obtain ⟨hadd, hkeep⟩ := ih (fun c hc => hrow c (by simp [hc]))
    have hc := hasRow_rowOf (hrow c (by simp))
    rw [List.map_append, Edit.replay_append, List.map_singleton, Edit.replay_cons, Edit.replay_nil, selected_concat]
    by_cases hg : inGraph c.quad.graphName g = true
    · rw [if_pos hg, net_concat]
      simp only [mem_note]
      by_cases heq : r = rowOf ids c.quad
      · simp only [if_pos heq]
        constructor
        · intro hadded
          refine ⟨c.quad, ?_, hg, heq ▸ hc⟩
          unfold Change.edit
          rw [← hadded, if_pos rfl]
          exact Set.mem_insert _ _
        · exact fun hnone => absurd rfl (hnone c.added)
      · simp only [if_neg heq]
        have hother : ¬ (inGraph c.quad.graphName g = true ∧ HasRow ids c.quad r) := fun h => heq (h.2.unique hc)
        exact ⟨fun h => (mem_rowsOf_apply hother).2 (hadd h), fun h => (mem_rowsOf_apply hother).trans (hkeep h)⟩
    · rw [if_neg hg]
      have hother : ¬ (inGraph c.quad.graphName g = true ∧ HasRow ids c.quad r) := fun h => hg h.1
      exact ⟨fun h => (mem_rowsOf_apply hother).2 (hadd h), fun h => (mem_rowsOf_apply hother).trans (hkeep h)⟩

/-- A batch brings the rows to those of the store exactly if no triple lingers. -/
theorem replay_eq_rowsOf_iff (hrow : ∀ c ∈ changes, ∃ row, HasRow ids c.quad row) :
    Edit.replay (rowsOf ids g S) (rowEdits ids g changes) = rowsOf ids g (Edit.replay S (changes.map Change.edit)) ↔
      ¬ Lingers g (Edit.replay S (changes.map Change.edit)) changes := by
  have hsel : ∀ c ∈ selected g changes, ∃ row, HasRow ids c.quad row := fun c hc => hrow c (mem_selected.1 hc).1
  have hmem := fun r => @mem_replay_net Change (fun c => rowOf ids c.quad) (·.added) (rowsOf ids g S) (selected g changes) r
  constructor
  · rintro heq ⟨before, c, after, hsplit, hremoved, hlast, e, he, hg, hsame⟩
    have hc : c ∈ selected g changes := by simp [hsplit]
    have hrow' := hasRow_rowOf (hsel c hc)
    have hnet : (rowOf ids c.quad, false) ∈ net (fun c => rowOf ids c.quad) (·.added) (selected g changes) := by
      refine mem_net_iff.2 ⟨before, c, after, hsplit, rfl, hremoved, fun c' hc' heq' => ?_⟩
      exact hlast c' hc' ((rowOf_eq_iff (hsel c' (by simp [hsplit, hc'])) (hsel c hc)).1 heq')
    have hheld : rowOf ids c.quad ∈ Edit.replay (rowsOf ids g S) (rowEdits ids g changes) := by
      rw [heq]
      exact ⟨e, he, hg, hrow'.of_sameTriple ⟨hsame.1.symm, hsame.2.1.symm, hsame.2.2.symm⟩⟩
    rcases (hmem _).1 hheld with hadd | ⟨-, hno⟩
    · cases net_functional hadd hnet
    · exact hno hnet
  · intro hno
    ext r
    obtain ⟨hadd, hkeep⟩ := @mem_rowsOf_replay ids g S changes r hrow
    refine (hmem r).trans ?_
    by_cases htrue : (r, true) ∈ net (fun c => rowOf ids c.quad) (·.added) (selected g changes)
    · exact ⟨fun _ => hadd htrue, fun _ => .inl htrue⟩
    · by_cases hfalse : (r, false) ∈ net (fun c => rowOf ids c.quad) (·.added) (selected g changes)
      · -- a row removed last would linger
        refine ⟨fun h => absurd hfalse (h.elim (fun h => absurd h htrue) And.right), ?_⟩
        rintro ⟨e, he, hg, hrow'⟩
        obtain ⟨before, c, after, hsplit, rfl, hremoved, hlast⟩ := mem_net_iff.1 hfalse
        have hc : c ∈ selected g changes := by simp [hsplit]
        refine absurd ⟨before, c, after, hsplit, hremoved, fun c' hc' hsame => ?_, e, he, hg, ?_⟩ hno
        · exact hlast c' hc' ((rowOf_eq_iff (hsel c' (by simp [hsplit, hc'])) (hsel c hc)).2 hsame)
        · exact hrow'.sameTriple (hasRow_rowOf (hsel c hc))
      · have hnone : ∀ b, (r, b) ∉ net (fun c => rowOf ids c.quad) (·.added) (selected g changes) := by
          rintro (_ | _)
          exacts [hfalse, htrue]
        rw [hkeep hnone]
        exact ⟨fun h => h.elim (fun h => absurd h htrue) And.left, fun h => .inr ⟨h, hfalse⟩⟩

/-! ## What a batch taken back makes of them -/

/-- The batch `revert` applies. -/
def inverseOf (changes : List Change) : List Change := changes.reverse.map (fun change => { change with added := !change.added })

theorem selected_inverseOf : selected g (inverseOf changes) = inverseOf (selected g changes) := by
  unfold selected inverseOf
  rw [List.filter_map, List.filter_reverse]
  rfl

/-- The entry of a row in the opposite batch is the opposite of the first change to it. -/
theorem mem_net_inverseOf {row : EncodedQuad → Row} {b : Bool} :
    (r, b) ∈ net (fun c : Change => row c.quad) (·.added) (inverseOf changes) ↔
      ∃ before c after, changes = before ++ c :: after ∧ row c.quad = r ∧ c.added = !b ∧ ∀ c' ∈ before, row c'.quad ≠ r := by
  rw [mem_net_iff]
  unfold inverseOf
  constructor
  · rintro ⟨before, c, after, hsplit, hr, hb, hlast⟩
    obtain ⟨before', after', hrev, rfl, hafter⟩ := List.map_eq_append_iff.1 hsplit
    obtain ⟨c', after'', rfl, rfl, rfl⟩ := List.map_eq_cons_iff.1 hafter
    refine ⟨after''.reverse, c', before'.reverse, ?_, hr, by rw [← hb]; exact (Bool.not_not _).symm, fun c hc => ?_⟩
    · rw [← List.reverse_reverse changes, hrev]
      simp
    · exact hlast { c with added := !c.added } (List.mem_map.2 ⟨c, List.mem_reverse.1 hc, rfl⟩)
  · rintro ⟨before, c, after, rfl, hr, hb, hfirst⟩
    refine ⟨(after.reverse).map (fun change => { change with added := !change.added }), { c with added := !c.added },
      before.reverse.map (fun change => { change with added := !change.added }), by simp, hr, ?_, fun c' hc' => ?_⟩
    · change (!c.added) = b
      rw [hb, Bool.not_not]
    · obtain ⟨c'', hc'', rfl⟩ := List.mem_map.1 hc'
      exact hfirst c'' (List.mem_reverse.1 hc'')

/-- What is removed first was there. -/
theorem mem_of_first_removed (heff : Edit.Effective S (changes.map Change.edit)) {before after : List Change} {c : Change}
    (hsplit : selected g changes = before ++ c :: after) (hremoved : c.added = false)
    (hfirst : ∀ c' ∈ before, ¬ c'.quad.SameTriple c.quad) : c.quad ∈ S := by
  obtain ⟨before', rest, rfl, hbefore, hrest⟩ := List.filter_eq_append_iff.1 hsplit
  obtain ⟨between, after', rfl, hbetween, hg, -⟩ := List.filter_eq_cons_iff.1 hrest
  rw [← List.append_assoc, List.map_append, Edit.effective_append] at heff
  have hthere : c.quad ∈ Edit.replay S ((before' ++ between).map Change.edit) := by
    have hchanges := heff.2.1
    unfold Change.edit at hchanges
    rw [hremoved] at hchanges
    exact hchanges
  refine (Edit.mem_replay_of_forall_ne ?_).1 hthere
  intro e he
  obtain ⟨c', hc', rfl⟩ := List.mem_map.1 he
  have helem : c'.edit.elem = c'.quad := by
    unfold Change.edit
    split <;> rfl
  rw [helem]
  rintro heq
  have hg' : inGraph c'.quad.graphName g = true := by rwa [heq]
  rcases List.mem_append.1 hc' with hc' | hc'
  · exact hfirst c' (by rw [← hbefore]; exact List.mem_filter.2 ⟨hc', hg'⟩) (by rw [heq]; exact ⟨rfl, rfl, rfl⟩)
  · exact hbetween c' hc' hg'

/-- Taking a batch back restores the rows exactly if it doubled none. -/
theorem replay_inverseOf_iff (hrow : ∀ c ∈ changes, ∃ row, HasRow ids c.quad row)
    (heff : Edit.Effective S (changes.map Change.edit)) :
    Edit.replay (Edit.replay (rowsOf ids g S) (rowEdits ids g changes)) (rowEdits ids g (inverseOf changes)) = rowsOf ids g S ↔
      ¬ Doubles g S changes := by
  have hsel : ∀ c ∈ selected g changes, ∃ row, HasRow ids c.quad row := fun c hc => hrow c (mem_selected.1 hc).1
  have hmem := fun r => @mem_replay_net Change (fun c => rowOf ids c.quad) (·.added) (rowsOf ids g S) (selected g changes) r
  have hback := fun r => @mem_replay_net Change (fun c => rowOf ids c.quad) (·.added)
    (Edit.replay (rowsOf ids g S) (rowEdits ids g changes)) (inverseOf (selected g changes)) r
  unfold rowEdits at hback ⊢
  rw [selected_inverseOf]
  constructor
  · rintro heq ⟨before, c, after, hsplit, hadded, hfirst, e, he, hg, hsame⟩
    have hc : c ∈ selected g changes := by simp [hsplit]
    have hnet : (rowOf ids c.quad, false) ∈ net (fun c => rowOf ids c.quad) (·.added) (inverseOf (selected g changes)) := by
      refine mem_net_inverseOf.2 ⟨before, c, after, hsplit, rfl, hadded, fun c' hc' heq' => ?_⟩
      exact hfirst c' hc' ((rowOf_eq_iff (hsel c' (by simp [hsplit, hc'])) (hsel c hc)).1 heq')
    have hheld : rowOf ids c.quad ∈ rowsOf ids g S :=
      ⟨e, he, hg, (hasRow_rowOf (hsel c hc)).of_sameTriple ⟨hsame.1.symm, hsame.2.1.symm, hsame.2.2.symm⟩⟩
    rw [← heq] at hheld
    rcases (hback _).1 hheld with hadd | ⟨-, hno⟩
    · cases net_functional hadd hnet
    · exact hno hnet
  · intro hno
    ext r
    refine (hback r).trans ?_
    by_cases htrue : (r, true) ∈ net (fun c => rowOf ids c.quad) (·.added) (inverseOf (selected g changes))
    · obtain ⟨before, c, after, hsplit, rfl, hremoved, hfirst⟩ := mem_net_inverseOf.1 htrue
      have hc : c ∈ selected g changes := by simp [hsplit]
      have hthere : c.quad ∈ S := mem_of_first_removed heff hsplit hremoved (fun c' hc' hsame =>
        hfirst c' hc' ((rowOf_eq_iff (hsel c' (by simp [hsplit, hc'])) (hsel c hc)).2 hsame))
      exact ⟨fun _ => ⟨c.quad, hthere, (mem_selected.1 hc).2, hasRow_rowOf (hsel c hc)⟩, fun _ => .inl htrue⟩
    · by_cases hfalse : (r, false) ∈ net (fun c => rowOf ids c.quad) (·.added) (inverseOf (selected g changes))
      · refine ⟨fun h => absurd hfalse (h.elim (fun h => absurd h htrue) And.right), ?_⟩
        rintro ⟨e, he, hg, hrow'⟩
        obtain ⟨before, c, after, hsplit, rfl, hadded, hfirst⟩ := mem_net_inverseOf.1 hfalse
        have hc : c ∈ selected g changes := by simp [hsplit]
        refine absurd ⟨before, c, after, hsplit, hadded, fun c' hc' hsame => ?_, e, he, hg, ?_⟩ hno
        · exact hfirst c' hc' ((rowOf_eq_iff (hsel c' (by simp [hsplit, hc'])) (hsel c hc)).2 hsame)
        · exact hrow'.sameTriple (hasRow_rowOf (hsel c hc))
      · -- no change was to the row
        have hnone : ∀ b, (r, b) ∉ net (fun c => rowOf ids c.quad) (·.added) (selected g changes) := by
          intro b hb
          obtain ⟨before, c, after, hsplit, rfl, -, -⟩ := mem_net_iff.1 hb
          have hinv : { c with added := !c.added } ∈ inverseOf (selected g changes) := by
            unfold inverseOf
            exact List.mem_map_of_mem (List.mem_reverse.2 (by simp [hsplit]))
          obtain ⟨b', hb'⟩ := @exists_net _ (fun c : Change => rowOf ids c.quad) (·.added) _ _ hinv
          cases b' with
          | true => exact htrue hb'
          | false => exact hfalse hb'
        constructor
        · intro h
          rcases (hmem r).1 (h.elim (fun h => absurd h htrue) And.left) with h | h
          · exact absurd h (hnone true)
          · exact h.1
        · exact fun h => .inr ⟨(hmem r).2 (.inr ⟨h, hnone false⟩), hfalse⟩

end EngineRun

end Shacl

end Holos
