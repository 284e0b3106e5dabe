import Holos.Lib.StableSort
/-!
# Rows that share a key

Rows come one after the other, and the values of those that share a key are combined in the order
they came. Sorted by key, a tie left as it came, the rows of a key stand next to each other in that
order, so that one pass over them combines them all.
-/

namespace Lib.Keyed

open StableSort (le)

variable {κ ν : Type}

section

variable [DecidableEq κ] (combine : κ → ν → ν → ν)

/-- The values of a key, in the order they came. -/
def values (rows : List (κ × ν)) (key : κ) : List ν := (rows.filter (fun row => row.1 = key)).map (·.2)

/-- The values of a key combined, if it has any. -/
def combined (rows : List (κ × ν)) (key : κ) : Option ν :=
  match values rows key with
  | [] => none
  | first :: later => some (later.foldl (combine key) first)

/-- Combines rows that stand next to each other and share a key, after a row that was read. -/
def onePassFrom (key : κ) (value : ν) : List (κ × ν) → List (κ × ν)
  | [] => [(key, value)]
  | row :: rows => if row.1 = key then onePassFrom key (combine key value row.2) rows else (key, value) :: onePassFrom row.1 row.2 rows

def onePass : List (κ × ν) → List (κ × ν)
  | [] => []
  | row :: rows => onePassFrom combine row.1 row.2 rows

variable {combine}

theorem values_cons (row : κ × ν) (rows : List (κ × ν)) (key : κ) :
    values (row :: rows) key = if row.1 = key then row.2 :: values rows key else values rows key := by
  unfold values
  by_cases h : row.1 = key <;> simp [h]

theorem values_append (rows more : List (κ × ν)) (key : κ) : values (rows ++ more) key = values rows key ++ values more key := by
  rw [values, List.filter_append, List.map_append]
  rfl

theorem values_eq_nil {rows : List (κ × ν)} {key : κ} : values rows key = [] ↔ key ∉ rows.map (·.1) := by
  rw [values, List.map_eq_nil_iff, List.filter_eq_nil_iff, List.mem_map]
  simp only [decide_eq_true_eq, not_exists, not_and]

/-- A key has a value exactly when a row has it. -/
theorem combined_isSome {rows : List (κ × ν)} {key : κ} : (∃ value, combined combine rows key = some value) ↔ key ∈ rows.map (·.1) := by
  rw [← not_iff_not, ← values_eq_nil, combined]
  cases values rows key <;> simp

theorem combined_cons_ne {row : κ × ν} {rows : List (κ × ν)} {key : κ} (h : row.1 ≠ key) :
    combined combine (row :: rows) key = combined combine rows key := by
  rw [combined, values_cons, if_neg h, combined]

theorem combined_two (key : κ) (first second : ν) (rows : List (κ × ν)) :
    combined combine ((key, first) :: (key, second) :: rows) = combined combine ((key, combine key first second) :: rows) := by
  funext k
  rw [combined, combined, values_cons, values_cons, values_cons]
  by_cases h : key = k
  · subst h
    simp
  · simp [h]

theorem combined_append (rows : List (κ × ν)) (row : κ × ν) (key : κ) :
    combined combine (rows ++ [row]) key = if row.1 = key then
      some (match combined combine rows key with
        | some first => combine key first row.2
        | none => row.2)
    else combined combine rows key := by
  rw [combined, combined, values_append, values_cons]
  by_cases h : row.1 = key
  · rw [if_pos h, if_pos h]
    cases values rows key with
    | nil => rfl
    | cons first later =>
      change some ((later ++ [row.2]).foldl (combine key) first) = _
      rw [List.foldl_append]
      rfl
  · rw [if_neg h, if_neg h]
    simp [values]

/-- Writing the rows down one after the other, each over what its key has. -/
theorem foldl_update (rows : List (κ × ν)) :
    rows.foldl (fun (file : κ → Option ν) row => Function.update file row.1
      (some (match file row.1 with
        | some first => combine row.1 first row.2
        | none => row.2))) (fun _ => none) = combined combine rows := by
  induction rows using List.reverseRecOn with
  | nil => rfl
  | append_singleton rows row ih =>
    rw [List.foldl_append, ih, List.foldl_cons, List.foldl_nil]
    funext key
    rw [combined_append, Function.update_apply]
    by_cases h : key = row.1
    · rw [if_pos h, if_pos h.symm, h]
    · rw [if_neg h, if_neg (Ne.symm h)]

end

section

variable [LinearOrder κ]

/-- Rows by their keys. -/
def keyCmp (a b : κ × ν) : Ordering := cmp a.1 b.1

theorem keyCmp_consistent (s : κ × ν → Prop) : Held.Consistent keyCmp s := by
  refine ⟨fun a b _ _ => (cmp_swap a.1 b.1).symm, fun a b c _ _ _ hab hbc => ?_⟩
  unfold keyCmp at hab hbc ⊢
  rw [ne_eq, cmp_eq_gt_iff, not_lt] at hab hbc ⊢
  exact hab.trans hbc

theorem le_keyCmp {a b : κ × ν} : le keyCmp a b = true ↔ a.1 ≤ b.1 := by
  rw [le, keyCmp, ← Ordering.ne_gt_iff_isLE, cmp_eq_gt_iff, not_lt]

theorem mergeSort_keys (rows : List (κ × ν)) : (rows.mergeSort (le keyCmp)).Pairwise (fun a b => a.1 ≤ b.1) := by
  refine (List.pairwise_mergeSort (fun a b c hab hbc => ?_) (fun a b => ?_) rows).imp le_keyCmp.1
  · rw [le_keyCmp] at hab hbc ⊢
    exact hab.trans hbc
  · rw [Bool.or_eq_true, le_keyCmp, le_keyCmp]
    exact le_total a.1 b.1

variable [DecidableEq κ] {combine : κ → ν → ν → ν}

/-- Sorting leaves the rows of a key in the order they came. -/
theorem values_mergeSort (rows : List (κ × ν)) (key : κ) : values (rows.mergeSort (le keyCmp)) key = values rows key := by
  have hties : (rows.filter (fun row => row.1 = key)).Pairwise (fun a b => le keyCmp a b = true) := by
    refine List.pairwise_of_forall_mem_list fun a ha b hb => le_keyCmp.2 ?_
    rw [of_decide_eq_true (List.mem_filter.1 ha).2, of_decide_eq_true (List.mem_filter.1 hb).2]
  have hsub : (rows.filter (fun row => row.1 = key)).Sublist (rows.mergeSort (le keyCmp)) := by
    refine List.sublist_mergeSort (fun a b c hab hbc => ?_) (fun a b => ?_) hties List.filter_sublist
    · rw [le_keyCmp] at hab hbc ⊢
      exact hab.trans hbc
    · rw [Bool.or_eq_true, le_keyCmp, le_keyCmp]
      exact le_total a.1 b.1
  have hkept := hsub.filter (fun row => decide (row.1 = key))
  rw [List.filter_filter] at hkept
  have hlen := ((List.mergeSort_perm rows (le keyCmp)).filter (fun row => decide (row.1 = key))).length_eq
  have hsame := hkept.eq_of_length (by simpa using hlen.symm)
  unfold values
  rw [← hsame]
  simp

theorem combined_mergeSort (rows : List (κ × ν)) : combined combine (rows.mergeSort (le keyCmp)) = combined combine rows := by
  funext key
  rw [combined, values_mergeSort, combined]

/-- A row on its own before those of later keys. -/
theorem combined_alone {row : κ × ν} {rows : List (κ × ν)} (h : ∀ later ∈ rows, row.1 < later.1) : combined combine (row :: rows) row.1 = some row.2 := by
  have hnone : values rows row.1 = [] := by
    rw [values_eq_nil, List.mem_map]
    rintro ⟨later, hlater, heq⟩
    exact absurd heq (ne_of_gt (h later hlater))
  rw [combined, values_cons, if_pos rfl, hnone]
  rfl

/-- One pass over sorted rows: a row a key, in order, with the values of the key combined. -/
theorem onePassFrom_spec {key : κ} {value : ν} {rows : List (κ × ν)} (h : ((key, value) :: rows).Pairwise (fun a b => a.1 ≤ b.1)) :
    ((onePassFrom combine key value rows).map (·.1)).Pairwise (· < ·) ∧ (∀ row ∈ onePassFrom combine key value rows, key ≤ row.1) ∧
      ∀ k v, (k, v) ∈ onePassFrom combine key value rows ↔ combined combine ((key, value) :: rows) k = some v := by
  induction rows generalizing key value with
  | nil =>
    refine ⟨List.pairwise_singleton _ _, by simp [onePassFrom], fun k v => ?_⟩
    rw [onePassFrom, List.mem_singleton, Prod.mk.injEq]
    by_cases hk : key = k
    · subst hk
      rw [combined_alone (by simp)]
      simp [eq_comm]
    · rw [combined_cons_ne hk]
      simp [combined, values, Ne.symm hk]
  | cons row rows ih =>
    obtain ⟨hfirst, hrest⟩ := List.pairwise_cons.1 h
    by_cases hsame : row.1 = key
    · -- the row goes on with the same key
      have hnext : ((key, combine key value row.2) :: rows).Pairwise (fun a b => a.1 ≤ b.1) :=
        List.pairwise_cons.2 ⟨fun later hlater => hfirst later (List.mem_cons_of_mem _ hlater), (List.pairwise_cons.1 hrest).2⟩
      have hrow : row = (key, row.2) := Prod.ext hsame rfl
      rw [onePassFrom, if_pos hsame, hrow, combined_two]
      exact ih hnext
    · -- the key is done: those that come later are above it
      obtain ⟨hkeys, hbound, hmem⟩ := ih hrest
      have hlt : key < row.1 := lt_of_le_of_ne (hfirst row List.mem_cons_self) (Ne.symm hsame)
      have hlater : ∀ later ∈ row :: rows, key < later.1 := by
        intro later hlater
        rcases List.mem_cons.1 hlater with rfl | hlater
        · exact hlt
        · exact hlt.trans_le ((List.pairwise_cons.1 hrest).1 later hlater)
      rw [onePassFrom, if_neg hsame]
      refine ⟨?_, ?_, fun k v => ?_⟩
      · rw [List.map_cons, List.pairwise_cons]
        refine ⟨fun k hk => ?_, hkeys⟩
        obtain ⟨later, hmem, rfl⟩ := List.mem_map.1 hk
        exact hlt.trans_le (hbound later hmem)
      · intro later hmem
        rcases List.mem_cons.1 hmem with rfl | hmem
        · exact le_refl _
        · exact hlt.le.trans (hbound later hmem)
      · by_cases hk : key = k
        · subst hk
          have hnot : (key, v) ∉ onePassFrom combine row.1 row.2 rows := fun hin => absurd (hbound _ hin) (not_le.2 hlt)
          rw [combined_alone hlater, List.mem_cons, or_iff_left hnot]
          simp [eq_comm]
        · rw [combined_cons_ne hk, ← hmem, List.mem_cons, or_iff_right]
          rintro ⟨⟩
          exact hk rfl

theorem onePass_spec {rows : List (κ × ν)} (h : rows.Pairwise (fun a b => a.1 ≤ b.1)) :
    ((onePass combine rows).map (·.1)).Pairwise (· < ·) ∧ ∀ k v, (k, v) ∈ onePass combine rows ↔ combined combine rows k = some v := by
  cases rows with
  | nil => simp [onePass, combined, values]
  | cons row rows =>
    obtain ⟨hkeys, _, hmem⟩ := onePassFrom_spec h
    exact ⟨hkeys, hmem⟩

end

end Lib.Keyed
