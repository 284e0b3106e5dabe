import Holos.Lib.Edits
import Holos.Shacl.EngineRun
/-!
# What the bridge holds

Applying a delta replays it on the bridged rows, whatever order the net effect is gathered in.
Reverting replays the opposite changes in reverse, and needs no term that the delta did not
already need, so it cannot fail.
-/

namespace Holos

open Lib Lib.Eff

namespace Shacl

/-! ## Terms met before -/

/-- The bridge can tell the term of an id: it met it, or the store decodes it. -/
def Resolves (decode : Decode) (f : Forward) (i : TermId) (t : Term) : Prop :=
  f.lookup i = some t ∨ f.lookup i = none ∧ decode i = .ok (some t)

/-- What was met stays, and what is new is what the store decodes. -/
structure Learns (decode : Decode) (f f' : Forward) : Prop where
  kept : ∀ i t, f.lookup i = some t → f'.lookup i = some t
  resolves : ∀ i t, Resolves decode f i t → Resolves decode f' i t
  source : ∀ i t, f'.lookup i = some t → f.lookup i = some t ∨ decode i = .ok (some t)

variable {decode : Decode} {f f' f'' : Forward} {i : TermId} {t : Term}

theorem Learns.refl : Learns decode f f := ⟨fun _ _ h => h, fun _ _ h => h, fun _ _ h => .inl h⟩

theorem Learns.trans (h : Learns decode f f') (h' : Learns decode f' f'') : Learns decode f f'' where
  kept i t hi := h'.kept i t (h.kept i t hi)
  resolves i t hi := h'.resolves i t (h.resolves i t hi)
  source i t hi := (h'.source i t hi).elim (h.source i t) .inr

theorem intern_spec (h : Resolves decode f i t) :
    ∃ f', (intern decode i).exec f = some (.ok t, f') ∧ Learns decode f f' ∧ f'.lookup i = some t := by
  rcases h with h | ⟨hnone, hdec⟩
  · refine ⟨f, ?_, .refl, h⟩
    unfold intern
    rw [exec_of, h]
  · refine ⟨(i, t) :: f, ?_, ⟨fun j u hj => ?_, fun j u hj => ?_, fun j u hj => ?_⟩, by simp⟩
    · unfold intern
      rw [exec_of, hnone, hdec]
    · have hne : (j == i) = false := by
        rw [beq_eq_false_iff_ne]
        rintro rfl
        rw [hnone] at hj
        cases hj
      rw [List.lookup_cons, hne]
      exact hj
    · by_cases heq : j = i
      · subst heq
        rcases hj with hj | ⟨-, hj⟩
        · rw [hnone] at hj
          cases hj
        · cases hdec.symm.trans hj
          exact .inl (by simp)
      · have hne : (j == i) = false := beq_eq_false_iff_ne.2 heq
        unfold Resolves
        rw [List.lookup_cons, hne]
        exact hj
    · by_cases heq : j = i
      · subst heq
        rw [List.lookup_cons, beq_self_eq_true] at hj
        cases hj
        exact .inr hdec
      · rw [List.lookup_cons, beq_eq_false_iff_ne.2 heq] at hj
        exact .inl hj

def RowResolves (decode : Decode) (f : Forward) (quad : EncodedQuad) (row : Row) : Prop :=
  Resolves decode f quad.subject row.1 ∧ Resolves decode f quad.predicate row.2.1 ∧ Resolves decode f quad.object row.2.2

/-- All three terms were met. -/
def RowKnown (f : Forward) (quad : EncodedQuad) (row : Row) : Prop :=
  f.lookup quad.subject = some row.1 ∧ f.lookup quad.predicate = some row.2.1 ∧ f.lookup quad.object = some row.2.2

theorem RowKnown.resolves {quad : EncodedQuad} {row : Row} (h : RowKnown f quad row) : RowResolves decode f quad row :=
  ⟨.inl h.1, .inl h.2.1, .inl h.2.2⟩

theorem RowKnown.mono {quad : EncodedQuad} {row : Row} (h : RowKnown f quad row) (hl : Learns decode f f') : RowKnown f' quad row :=
  ⟨hl.kept _ _ h.1, hl.kept _ _ h.2.1, hl.kept _ _ h.2.2⟩

theorem RowResolves.mono {quad : EncodedQuad} {row : Row} (h : RowResolves decode f quad row) (hl : Learns decode f f') :
    RowResolves decode f' quad row :=
  ⟨hl.resolves _ _ h.1, hl.resolves _ _ h.2.1, hl.resolves _ _ h.2.2⟩

theorem internRow_spec {quad : EncodedQuad} {row : Row} (h : RowResolves decode f quad row) :
    ∃ f', (internRow decode quad).exec f = some (.ok row, f') ∧ Learns decode f f' ∧ RowKnown f' quad row := by
  obtain ⟨hs, hp, ho⟩ := h
  obtain ⟨f₁, he₁, hl₁, hk₁⟩ := intern_spec hs
  obtain ⟨f₂, he₂, hl₂, hk₂⟩ := intern_spec (hl₁.resolves _ _ hp)
  obtain ⟨f₃, he₃, hl₃, hk₃⟩ := intern_spec (hl₂.resolves _ _ (hl₁.resolves _ _ ho))
  refine ⟨f₃, ?_, hl₁.trans (hl₂.trans hl₃), hl₃.kept _ _ (hl₂.kept _ _ hk₁), hl₃.kept _ _ hk₂, hk₃⟩
  unfold internRow
  simp only [exec_bind, he₁, he₂, he₃, Option.bind_some, exec_pure]

namespace EngineRun

variable {E : RuleEngine}

/-! ## Net effects -/

theorem mem_note {net : List (Row × Bool)} {row row' : Row} {added b : Bool} :
    (row', b) ∈ note net row added ↔ if row' = row then b = added else (row', b) ∈ net := by
  unfold note
  split
  · rename_i hany
    obtain ⟨⟨r, a⟩, hmem, hr⟩ := List.any_eq_true.1 hany
    rw [decide_eq_true_iff] at hr
    rw [List.mem_map]
    by_cases heq : row' = row
    · rw [if_pos heq, heq]
      constructor
      · rintro ⟨⟨r', a'⟩, -, h⟩
        split at h
        · exact (congrArg Prod.snd h).symm
        · rename_i hne
          exact absurd (congrArg Prod.fst h) hne
      · rintro rfl
        exact ⟨(r, a), hmem, if_pos hr⟩
    · rw [if_neg heq]
      constructor
      · rintro ⟨⟨r', a'⟩, hmem', h⟩
        split at h
        · exact absurd (congrArg Prod.fst h).symm heq
        · exact h ▸ hmem'
      · exact fun h => ⟨(row', b), h, if_neg heq⟩
  · rename_i hany
    rw [List.mem_append, List.mem_singleton, Prod.mk.injEq]
    by_cases heq : row' = row
    · rw [if_pos heq]
      constructor
      · rintro (h | h)
        · exact absurd (List.any_eq_true.2 ⟨_, h, decide_eq_true heq⟩) hany
        · exact h.2
      · exact fun h => .inr ⟨heq, h⟩
    · rw [if_neg heq]
      exact or_iff_left (fun h => heq h.1)

/-- A row added or removed. -/
def edit (row : Row) (added : Bool) : Edit Row := if added then .add row else .remove row

variable {α : Type} {row : α → Row} {added : α → Bool}

/-- The net effect of a list of changes. -/
def net (row : α → Row) (added : α → Bool) (as : List α) : List (Row × Bool) :=
  as.foldl (fun net a => note net (row a) (added a)) []

theorem net_concat (as : List α) (a : α) : net row added (as ++ [a]) = note (net row added as) (row a) (added a) := by
  unfold net
  rw [List.foldl_append]
  rfl

/-- The net effect is the effect of the changes one by one. -/
theorem mem_replay_net (S : Set Row) (as : List α) (r : Row) :
    r ∈ Edit.replay S (as.map (fun a => edit (row a) (added a))) ↔
      (r, true) ∈ net row added as ∨ (r ∈ S ∧ (r, false) ∉ net row added as) := by
  induction as using List.reverseRecOn with
  | nil => simp [net]
  | append_singleton as a ih =>
    rw [List.map_append, Edit.replay_append, net_concat, mem_note, mem_note, List.map_singleton, Edit.replay_cons, Edit.replay_nil]
    cases hb : added a with
    | true =>
      have hedit : edit (row a) true = .add (row a) := rfl
      rw [hedit]
      refine Set.mem_insert_iff.trans ?_
      rw [ih]
      by_cases hr : r = row a
      · simp [hr]
      · simp [hr]
    | false =>
      have hedit : edit (row a) false = .remove (row a) := rfl
      rw [hedit]
      refine (Set.mem_sdiff _).trans ?_
      rw [ih, Set.mem_singleton_iff]
      by_cases hr : r = row a
      · simp [hr]
      · simp [hr]

theorem coe_graph (g : Finset Row) (as : List α) :
    (((g \ (((net row added as).filter (fun e => !e.2)).map (·.1)).toFinset) ∪
      (((net row added as).filter (·.2)).map (·.1)).toFinset : Finset Row) : Set Row) =
      Edit.replay ↑g (as.map (fun a => edit (row a) (added a))) := by
  ext r
  rw [mem_replay_net]
  simp only [Finset.coe_union, Finset.coe_sdiff, Set.mem_union, Set.mem_sdiff, Finset.mem_coe, List.mem_toFinset, List.mem_map,
    List.mem_filter, Prod.exists, exists_and_right, exists_eq_right, Bool.not_eq_true']
  simp [or_comm]

/-! ## Applying and reverting -/

/-- Every change is of the data graph, not of the shapes, and its terms can be told. -/
structure Legible (decode : Decode) (run : EngineRun E) (change : α → Change) (row : α → Row) (as : List α) : Prop where
  data : ∀ a ∈ as, inGraph (change a).quad.graphName run.options.dataGraph = true
  shapes : ∀ a ∈ as, inGraph (change a).quad.graphName run.options.shapesGraph = false
  resolves : ∀ a ∈ as, RowResolves decode run.forward (change a).quad (row a)

theorem netOf_spec {g : GraphFilter} {change : α → Change} {as : List α} (hdata : ∀ a ∈ as, inGraph (change a).quad.graphName g = true)
    (hres : ∀ a ∈ as, RowResolves decode f (change a).quad (row a)) :
    ∃ f', (netOf decode g (as.map change)).exec f = some (.ok (net row (fun a => (change a).added) as), f') ∧ Learns decode f f' ∧
      ∀ a ∈ as, RowKnown f' (change a).quad (row a) := by
  unfold netOf
  induction as using List.reverseRecOn with
  | nil => exact ⟨f, rfl, .refl, by simp⟩
  | append_singleton as a ih =>
    obtain ⟨f₁, he₁, hl₁, hk₁⟩ := ih (fun a ha => hdata a (by simp [ha])) (fun a ha => hres a (by simp [ha]))
    obtain ⟨f₂, he₂, hl₂, hk₂⟩ := internRow_spec ((hres a (by simp)).mono hl₁)
    refine ⟨f₂, ?_, hl₁.trans hl₂, fun b hb => ?_⟩
    · rw [List.map_append, List.map_singleton, List.foldlM_append, exec_bind, he₁, Option.bind_some]
      dsimp only
      rw [List.foldlM_cons, if_pos (hdata a (by simp)), net_concat]
      simp only [exec_bind, he₂, Option.bind_some, exec_pure, List.foldlM_nil]
    · rcases List.mem_append.1 hb with hb | hb
      · exact (hk₁ b hb).mono hl₂
      · rw [List.mem_singleton.1 hb]
        exact hk₂

theorem redefines_none {g : GraphFilter} {changes : List Change} (h : ∀ change ∈ changes, inGraph change.quad.graphName g = false) :
    redefines decode g changes = .ok false := by
  unfold redefines
  induction changes with
  | nil => rfl
  | cons change changes ih =>
    rw [List.foldlM_cons, if_neg (by decide), if_neg (by rw [h change List.mem_cons_self]; decide)]
    exact ih (fun c hc => h c (List.mem_cons_of_mem _ hc))

/-- A legible delta is replayed on the rows. -/
theorem apply_spec {run : EngineRun E} {change : α → Change} {as : List α} (hstale : run.stale = false)
    (hl : Legible decode run change row as) :
    ∃ run', (apply decode (as.map change)).exec run = some (.ok (), run') ∧
      (run'.graph : Set Row) = Edit.replay ↑run.graph (as.map (fun a => edit (row a) (change a).added)) ∧
      Learns decode run.forward run'.forward ∧ (∀ a ∈ as, RowKnown run'.forward (change a).quad (row a)) ∧
      run'.shapes = run.shapes ∧ run'.options = run.options ∧ run'.stale = false ∧
      run'.pending = run.pending.map (· ++ as.map change) := by
  obtain ⟨f', he, hlearn, hknown⟩ := netOf_spec hl.data hl.resolves
  have hred : redefines decode run.options.shapesGraph (as.map change) = .ok false := by
    refine redefines_none (fun c hc => ?_)
    obtain ⟨a, ha, rfl⟩ := List.mem_map.1 hc
    exact hl.shapes a ha
  let run' : EngineRun E := { run with
    graph := (run.graph \ (((net row (fun a => (change a).added) as).filter (fun e => !e.2)).map (·.1)).toFinset) ∪
      (((net row (fun a => (change a).added) as).filter (·.2)).map (·.1)).toFinset
    forward := f'
    pending := run.pending.map (· ++ as.map change)
    stale := false }
  refine ⟨run', ?_, coe_graph run.graph as, hlearn, hknown, rfl, rfl, rfl, rfl⟩
  unfold apply
  simp only [exec_bind, exec_get, Option.bind_some, hstale, Bool.false_eq_true, if_false, exec_reads, hred, exec_on, he,
    Option.map_some, exec_modify]
  rfl

/-- Before the checkpoint was left there is nothing to take back. -/
theorem revert_none {run : EngineRun E} (h : run.pending = none) : run.revert decode = some run := by
  unfold revert
  rw [h]

/-- Effective changes, all of whose terms were met, are taken back exactly. -/
theorem revert_spec {run : EngineRun E} {change : α → Change} {as : List α} {S : Set Row} (hstale : run.stale = false)
    (hpending : run.pending = some (as.map change))
    (hdata : ∀ a ∈ as, inGraph (change a).quad.graphName run.options.dataGraph = true)
    (hshapes : ∀ a ∈ as, inGraph (change a).quad.graphName run.options.shapesGraph = false)
    (hknown : ∀ a ∈ as, RowKnown run.forward (change a).quad (row a))
    (heff : Edit.Effective S (as.map (fun a => edit (row a) (change a).added)))
    (hgraph : (run.graph : Set Row) = Edit.replay S (as.map (fun a => edit (row a) (change a).added))) :
    ∃ run', run.revert decode = some run' ∧ (run'.graph : Set Row) = S ∧ run'.shapes = run.shapes ∧ run'.options = run.options ∧
      run'.stale = false ∧ run'.pending = none ∧ Learns decode run.forward run'.forward := by
  let inverse : α → Change := fun a => { change a with added := !(change a).added }
  have hlegible : Legible decode { run with pending := none } inverse row as.reverse :=
    ⟨fun a ha => hdata a (List.mem_reverse.1 ha), fun a ha => hshapes a (List.mem_reverse.1 ha),
      fun a ha => (hknown a (List.mem_reverse.1 ha)).resolves⟩
  obtain ⟨run', he, hg, hlearn, -, hsh, ho, hst, hp⟩ := @apply_spec decode E α row { run with pending := none } inverse as.reverse hstale hlegible
  have hundo : as.reverse.map (fun a => edit (row a) (inverse a).added) =
      Edit.undo (as.map (fun a => edit (row a) (change a).added)) := by
    unfold Edit.undo
    rw [← List.map_reverse, List.map_map]
    refine List.map_congr_left (fun a _ => ?_)
    have hinv : (inverse a).added = !(change a).added := rfl
    rw [hinv, Function.comp_apply]
    cases (change a).added <;> rfl
  refine ⟨run', ?_, ?_, hsh, ho, hst, hp, hlearn⟩
  · have hmap : (as.map change).reverse.map (fun c => ({ c with added := !c.added } : Change)) = as.reverse.map inverse := by
      rw [← List.map_reverse, List.map_map]
      rfl
    unfold revert
    rw [hpending]
    dsimp only
    rw [hmap, he]
  · rw [hg, hundo]
    change Edit.replay ↑run.graph _ = S
    rw [hgraph, Edit.replay_undo heff]

end EngineRun

/-! ## Bridging -/

theorem bridge_spec {row : EncodedQuad → Row} {quads : List EncodedQuad} (h : ∀ e ∈ quads, RowResolves decode f e (row e)) :
    ∃ g f', (bridge decode quads).exec f = some (.ok g, f') ∧ (g : Set Row) = row '' {e | e ∈ quads} ∧ Learns decode f f' := by
  unfold bridge
  induction quads using List.reverseRecOn with
  | nil => exact ⟨∅, f, rfl, by simp, .refl⟩
  | append_singleton quads e ih =>
    obtain ⟨g, f₁, he₁, hg, hl₁⟩ := ih (fun e he => h e (by simp [he]))
    obtain ⟨f₂, he₂, hl₂, -⟩ := internRow_spec ((h e (by simp)).mono hl₁)
    refine ⟨insert (row e) g, f₂, ?_, ?_, hl₁.trans hl₂⟩
    · rw [List.foldlM_append, exec_bind, he₁, Option.bind_some]
      dsimp only
      rw [List.foldlM_cons]
      simp only [exec_bind, he₂, Option.bind_some, exec_pure, List.foldlM_nil]
    · rw [Finset.coe_insert, hg]
      ext r
      simp only [Set.mem_insert_iff, Set.mem_image, Set.mem_ofPred_eq, List.mem_append, List.mem_singleton]
      constructor
      · rintro (rfl | ⟨e', he', rfl⟩)
        · exact ⟨e, .inr rfl, rfl⟩
        · exact ⟨e', .inl he', rfl⟩
      · rintro ⟨e', he' | rfl, rfl⟩
        · exact .inr ⟨e', he', rfl⟩
        · exact .inl rfl

/-- A prepared run holds the rows of the data graph, and the shapes of those of the shapes graph. -/
theorem EngineRun.prepare_spec {E : RuleEngine} {scan : GraphFilter → Except StorageError (List EncodedQuad)} {options : Options}
    {row : EncodedQuad → Row} {run : EngineRun E} (h : EngineRun.prepare decode scan options = some (.ok run))
    (hres : ∀ g qs e, scan g = .ok qs → e ∈ qs → decode e.subject = .ok (some (row e).1) ∧
      decode e.predicate = .ok (some (row e).2.1) ∧ decode e.object = .ok (some (row e).2.2)) :
    ∃ data shapes, scan options.dataGraph = .ok data ∧ scan options.shapesGraph = .ok shapes ∧
      (run.graph : Set Row) = row '' {e | e ∈ data} ∧
      (∃ g : Finset Row, (g : Set Row) = row '' {e | e ∈ shapes} ∧ E.compile g = .ok run.shapes) ∧ run.options = options ∧
      run.pending = none ∧ run.stale = false ∧ Learns decode [] run.forward := by
  have hresolves : ∀ g qs e f, Learns decode [] f → scan g = .ok qs → e ∈ qs → RowResolves decode f e (row e) := by
    intro g qs e f hl hscan he
    obtain ⟨hs, hp, ho⟩ := hres g qs e hscan he
    exact ⟨hl.resolves _ _ (.inr ⟨rfl, hs⟩), hl.resolves _ _ (.inr ⟨rfl, hp⟩), hl.resolves _ _ (.inr ⟨rfl, ho⟩)⟩
  unfold EngineRun.prepare at h
  obtain ⟨⟨r, f⟩, hexec, heq⟩ := Option.map_eq_some_iff.1 h
  cases hdata : scan options.dataGraph with
  | error e =>
    simp only [exec_bind, exec_reads, hdata, World.failed, Option.bind_some] at hexec
    cases hexec
    cases heq
  | ok data =>
    obtain ⟨g₁, f₁, he₁, hg₁, hl₁⟩ := @bridge_spec _ _ row _ (fun e he => hresolves _ data e [] .refl hdata he)
    cases hshapes : scan options.shapesGraph with
    | error e =>
      simp only [exec_bind, exec_reads, hdata, hshapes, World.failed, Option.bind_some, he₁] at hexec
      cases hexec
      cases heq
    | ok shapes =>
      obtain ⟨g₂, f₂, he₂, hg₂, hl₂⟩ := @bridge_spec _ _ row _ (fun e he => hresolves _ shapes e f₁ hl₁ hshapes he)
      simp only [exec_bind, exec_reads, hdata, hshapes, World.failed, Option.bind_some, he₁, he₂] at hexec
      cases hcomp : E.compile g₂ with
      | error e =>
        simp only [hcomp] at hexec
        cases hexec
        cases heq
      | ok sh =>
        simp only [hcomp] at hexec
        cases hexec
        cases heq
        exact ⟨data, shapes, rfl, rfl, hg₁, ⟨g₂, hg₂, hcomp⟩, rfl, rfl, rfl, hl₁.trans hl₂⟩

end Shacl

end Holos
