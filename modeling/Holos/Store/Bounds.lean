import Holos.Lib.Between
import Holos.Store.Codec
import Holos.Store.IndexTheorems
/-!
# The bounds of a scan

A scan of an order reads the keys between two byte strings, the upper one left out or absent.
They hold the keys that begin with a prefix, and of a span scan those whose next id is in the
span, whatever bytes the ids end in.
-/

namespace Holos.Codec

open Lib Lib.Bytes

/-! ## The bound behind a prefix -/

/-- Drops the `0xFF` at the end, which stands first here, and counts the byte before them up. -/
def countUp : List UInt8 → Option (List UInt8)
  | [] => none
  | last :: rest => if last ≠ 0xFF then some ((last + 1) :: rest) else countUp rest

/-- The exclusive upper bound for a prefix scan, or `none` when the prefix is empty or all
`0xFF`. -/
def prefixUpperBound (pre : List UInt8) : Option (List UInt8) := (countUp pre.reverse).map List.reverse

theorem prefixUpperBound_nil : prefixUpperBound [] = none := rfl

theorem prefixUpperBound_append (q : List UInt8) (b : UInt8) :
    prefixUpperBound (q ++ [b]) = if b ≠ 0xFF then some (q ++ [b + 1]) else prefixUpperBound q := by
  rw [prefixUpperBound, List.reverse_append, List.reverse_singleton, List.singleton_append, countUp]
  split
  · rw [Option.map_some, List.reverse_cons, List.reverse_reverse]
  · rfl

/-- There is no bound where the prefix is empty or all `0xFF`. -/
theorem prefixUpperBound_eq_none (p : List UInt8) : prefixUpperBound p = none ↔ ∀ b ∈ p, b = 0xFF := by
  induction p using List.reverseRecOn with
  | nil => simp [prefixUpperBound_nil]
  | append_singleton q b ih =>
    rw [prefixUpperBound_append]
    by_cases hb : b = 0xFF
    · subst hb
      rw [if_neg (not_not.2 rfl), ih]
      constructor
      · intro h b hb
        rcases List.mem_append.1 hb with hb | hb
        · exact h b hb
        · exact List.mem_singleton.1 hb
      · exact fun h b hb => h b (List.mem_append_left _ hb)
    · rw [if_pos hb]
      simp [hb]

theorem lt_succ_iff {b c : UInt8} (h : b ≠ 0xFF) : c < b + 1 ↔ c ≤ b := by
  have hb : b.toNat ≠ 255 := fun he => h (UInt8.toNat_inj.1 he)
  have hlt := b.toNat_lt
  rw [UInt8.lt_iff_toNat_lt, UInt8.le_iff_toNat_le, UInt8.toNat_add]
  change c.toNat < (b.toNat + 1) % 2 ^ 8 ↔ _
  rw [Nat.mod_eq_of_lt (by omega)]
  exact Nat.lt_succ_iff

theorem le_last (c : UInt8) : c ≤ 0xFF := by
  have := c.toNat_lt
  rw [UInt8.le_iff_toNat_le]
  simp
  omega

/-- Below the bound of a prefix: below the prefix, or beginning with it. -/
theorem lt_bound_iff (p k : List UInt8) : (∀ u ∈ prefixUpperBound p, k < u) ↔ k < p ∨ p <+: k := by
  induction p using List.reverseRecOn with
  | nil => simp [prefixUpperBound_nil]
  | append_singleton q b ih =>
    have hsplit : (k < q ++ [b] ∨ q ++ [b] <+: k) ↔ k < q ∨ ∃ t, k = q ++ t ∧ ∀ c s, t = c :: s → c ≤ b := by
      rw [lt_append_iff, append_prefix_iff, or_assoc, ← exists_or]
      simp only [← and_or_left, first_le_iff]
    rw [prefixUpperBound_append, hsplit]
    by_cases hb : b = 0xFF
    · -- no byte is above it: what begins with `q` is below the byte or begins with it
      subst hb
      rw [if_neg (by decide), ih]
      constructor
      · rintro (hlt | ⟨t, rfl⟩)
        · exact .inl hlt
        · exact .inr ⟨t, rfl, fun c s _ => le_last c⟩
      · rintro (hlt | ⟨t, rfl, -⟩)
        · exact .inl hlt
        · exact .inr (List.prefix_append q t)
    · rw [if_pos hb]
      simp only [Option.mem_def, Option.some.injEq, forall_eq']
      rw [lt_append_iff]
      simp only [first_lt_iff, lt_succ_iff hb]

/-! ## Scans -/

/-- What an iterator is told of the keys to read. -/
structure ReadOptions where
  lower : Option (List UInt8)
  upper : Option (List UInt8)
  totalOrderSeek : Bool

/-- The keys an iterator reads: from the lower bound on, up to the upper one and without it. -/
def ReadOptions.Admits (opts : ReadOptions) (k : List UInt8) : Prop := (∀ l ∈ opts.lower, ¬k < l) ∧ ∀ u ∈ opts.upper, k < u

instance (opts : ReadOptions) (k : List UInt8) : Decidable (opts.Admits k) := inferInstanceAs (Decidable (_ ∧ _))

/-- The options of a prefix scan. -/
def scanOrder (pre : List TermId) : ReadOptions :=
  let lower := key pre
  ⟨if lower.isEmpty then none else some lower, prefixUpperBound lower, lower.isEmpty⟩

/-- The options of a span scan: the span bounds the id behind the prefix. -/
def scanOrderSpan (pre : List TermId) (span : IdRange) : ReadOptions :=
  let lower := key pre ++ putId span.first
  let upper := key pre ++ putId span.last
  ⟨some lower, prefixUpperBound upper, pre.isEmpty⟩

theorem key_append (pre ids : List TermId) : key (pre ++ ids) = key pre ++ key ids := List.flatMap_append

theorem key_singleton (id : TermId) : key [id] = putId id := List.append_nil _

theorem length_putId (id : TermId) : (putId id).length = ID := length_be ID id.val

theorem putId_inj {a b : TermId} (h : putId a = putId b) : a = b := by
  apply Fin.ext
  rw [← ofBe_be (id_lt a), ← ofBe_be (id_lt b)]
  exact congrArg ofBe h

/-- A key begins with the bytes of some ids where its ids begin with those. -/
theorem key_prefix_iff (pre ids : List TermId) : key pre <+: key ids ↔ pre <+: ids := by
  constructor
  · intro h
    induction pre generalizing ids with
    | nil => exact List.nil_prefix
    | cons a pre ih =>
      obtain ⟨t, ht⟩ := h
      cases ids with
      | nil =>
        have hlen := congrArg List.length ht
        simp only [key, List.flatMap_cons, List.flatMap_nil, List.length_append, length_putId, List.length_nil, ID] at hlen
        omega
      | cons b ids =>
        have hparts : putId a ++ (key pre ++ t) = putId b ++ key ids := by
          rw [← List.append_assoc]
          exact ht
        obtain ⟨hid, hrest⟩ := List.append_inj hparts (by rw [length_putId, length_putId])
        rw [putId_inj hid]
        exact (List.prefix_cons_inj b).2 (ih ids ⟨t, hrest⟩)
  · rintro ⟨t, rfl⟩
    rw [key_append]
    exact List.prefix_append _ _

/-- Any bytes are admitted by a prefix scan where they begin with the prefix. -/
theorem scanOrder_admits (pre : List TermId) (k : List UInt8) : (scanOrder pre).Admits k ↔ key pre <+: k := by
  have hlower : (∀ l ∈ (scanOrder pre).lower, ¬k < l) ↔ ¬k < key pre := by
    unfold scanOrder
    dsimp only
    cases hkey : key pre with
    | nil => simp
    | cons b bs => simp
  have hupper : (∀ u ∈ (scanOrder pre).upper, k < u) ↔ k < key pre ∨ key pre <+: k := lt_bound_iff (key pre) k
  rw [ReadOptions.Admits, hlower, hupper]
  constructor
  · rintro ⟨hlow, hlt | hp⟩
    · exact absurd hlt hlow
    · exact hp
  · rintro ⟨t, rfl⟩
    exact ⟨not_append_lt _ _, .inr (List.prefix_append _ _)⟩

theorem scanOrder_admits_key (pre ids : List TermId) : (scanOrder pre).Admits (key ids) ↔ pre <+: ids := by
  rw [scanOrder_admits, key_prefix_iff]

/-- A scan of a prefix reads the keys that begin with it, and a span scan those of them whose next
id is in the span, for ids of any bytes. -/
theorem scan_bounds (pre : List TermId) :
    (∀ ids, (scanOrder pre).Admits (key ids) ↔ pre <+: ids) ∧
    ∀ (span : IdRange) (ids : List TermId), (scanOrderSpan pre span).Admits (key ids) ↔
      pre <+: ids ∧ ∃ next, ids[pre.length]? = some next ∧ span.contains next = true := by
  constructor
  · exact scanOrder_admits_key pre
  · intro span ids
    have hbound : ∀ id : TermId, key pre ++ putId id = key (pre ++ [id]) := by
      intro id
      rw [key_append, key_singleton]
    have hlower : (∀ l ∈ (scanOrderSpan pre span).lower, ¬key ids < l) ↔ ¬ids < pre ++ [span.first] := by
      simp only [scanOrderSpan, Option.mem_def, Option.some.injEq, forall_eq', hbound, key_lt_key_iff]
    have hupper : (∀ u ∈ (scanOrderSpan pre span).upper, key ids < u) ↔ ids < pre ++ [span.last] ∨ pre ++ [span.last] <+: ids := by
      rw [← key_lt_key_iff, ← key_prefix_iff, ← hbound]
      exact lt_bound_iff _ _
    rw [ReadOptions.Admits, hlower, hupper, between_iff]
    simp only [IdRange.contains_iff]

/-! ## The rows of an order -/

/-- The rows an iterator reads of an order with three ids in its keys. -/
def rows3 (set : SortedSet Key3) (opts : ReadOptions) : List Key3 := set.toList.filter (fun k => opts.Admits (key k.toList))

def rows4 (set : SortedSet Key4) (opts : ReadOptions) : List Key4 := set.toList.filter (fun k => opts.Admits (key k.toList))

/-- What is read of the bytes is the range of the index. -/
theorem scan3_eq (set : SortedSet Key3) {pre : List TermId} (hp : pre.length ≤ 3) (f : Key3 → EncodedQuad) :
    QuadIndex.scan3 set pre f = (rows3 set (scanOrder pre)).map f := by
  have hrows : set.range (QuadIndex.key3 (QuadIndex.lower 3 pre)) (QuadIndex.key3 (QuadIndex.upper 3 pre)) =
      rows3 set (scanOrder pre) := by
    apply List.filter_congr
    intro k hk
    have hin := @Index.mem_range3 set pre hp k
    rw [SortedSet.mem_range, and_congr_right_iff] at hin
    rw [decide_eq_decide, scanOrder_admits_key]
    exact hin hk
  rw [QuadIndex.scan3, hrows]

theorem scan4_eq (set : SortedSet Key4) {pre : List TermId} (hp : pre.length ≤ 4) (f : Key4 → EncodedQuad) :
    QuadIndex.scan4 set pre f = (rows4 set (scanOrder pre)).map f := by
  have hrows : set.range (QuadIndex.key4 (QuadIndex.lower 4 pre)) (QuadIndex.key4 (QuadIndex.upper 4 pre)) =
      rows4 set (scanOrder pre) := by
    apply List.filter_congr
    intro k hk
    have hin := @Index.mem_range4 set pre hp k
    rw [SortedSet.mem_range, and_congr_right_iff] at hin
    rw [decide_eq_decide, scanOrder_admits_key]
    exact hin hk
  rw [QuadIndex.scan4, hrows]

end Holos.Codec
