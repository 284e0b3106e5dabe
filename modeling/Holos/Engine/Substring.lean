import Mathlib.Data.Fintype.Basic
import Holos.Engine.Percent
import Holos.Inline
import Holos.Lib.Int64
/-!
# `fn:substring` and `afn:substr`

Both read their positions as 64-bit numbers and share one helper, which takes a start and a
length and slices the characters. `none` is an operation that overflows, or a slice out of range.
Reading a number that is no integer is a double's work, taken as `roundF64`.
-/

namespace Holos.Engine

open Lib Int64

section

variable (roundF64 : String → Option Int)

/-- A position. One that is not integral is rounded. -/
def integer : Term → Option Int
  | .literal l => (Inline.parseI64 l.value).or (roundF64 l.value)
  | _ => none

/-- Character-oriented substring. -/
def charsBetween (s : List Char) (start : Int) (len : Option Int) : Option (List Char) := do
  let n : Int := s.length
  let first := min (max start 0) n
  let last ← match len with
    | none => some n
    | some l => (checked (first + max l 0)).map (min · n)
  if first ≤ last ∧ last ≤ n then some ((s.take last.toNat).drop first.toNat) else none

/-- XPath positions are 1-based. -/
def fnSubstring (a : List Term) : Option (Option Term) :=
  match a.head?.bind text, a[1]?.bind (integer roundF64) with
  | some s, some position => do
    let start ← checked (position - 1)
    let len := a[2]?.bind (integer roundF64)
    return some (stringOut (← charsBetween s.toList start len))
  | _, _ => some none

/-- Jena's are 0-based, with an end. -/
def afnSubstr (a : List Term) : Option (Option Term) :=
  match a.head?.bind text, a[1]?.bind (integer roundF64) with
  | some s, some start => do
    let len ← match a[2]?.bind (integer roundF64) with
      | none => some none
      | some e => (checked (e - start)).map some
    return some (stringOut (← charsBetween s.toList start len))
  | _, _ => some none

end

/-! ## The characters at some positions -/

/-- The characters at the positions from `first` on and before `last`, counted from `origin`. -/
def characters (origin : Nat) (s : List Char) (first : Int) (last : Option Int) : List Char :=
  ((s.zipIdx origin).filter fun c => first ≤ c.2 ∧ ∀ e ∈ last, (c.2 : Int) < e).map (·.1)

theorem characters_cons (origin : Nat) (c : Char) (s : List Char) (first : Int) (last : Option Int) :
    characters origin (c :: s) first last =
      if first ≤ origin ∧ ∀ e ∈ last, (origin : Int) < e then c :: characters (origin + 1) s first last
      else characters (origin + 1) s first last := by
  rw [characters, List.zipIdx_cons, List.filter_cons]
  by_cases h : first ≤ origin ∧ ∀ e ∈ last, (origin : Int) < e
  · rw [if_pos h, if_pos (by simpa using h)]
    rfl
  · rw [if_neg h, if_neg (by simpa using h)]
    rfl

/-- They are a slice. -/
theorem characters_some (origin : Nat) (s : List Char) (first last : Int) :
    characters origin s first (some last) = (s.take (last - origin).toNat).drop (first - origin).toNat := by
  induction s generalizing origin with
  | nil => simp [characters]
  | cons c s ih =>
    have hnext : ((origin + 1 : Nat) : Int) = origin + 1 := Int.natCast_succ origin
    rw [characters_cons, ih, hnext]
    simp only [Option.mem_def, Option.some.injEq, forall_eq']
    by_cases hlast : (origin : Int) < last
    · have htake : (last - origin).toNat = (last - (origin + 1)).toNat + 1 := by omega
      rw [htake, List.take_succ_cons]
      by_cases hfirst : first ≤ (origin : Int)
      · have hzero : (first - (origin : Int)).toNat = 0 := by omega
        have hzero' : (first - ((origin : Int) + 1)).toNat = 0 := by omega
        rw [if_pos ⟨hfirst, hlast⟩, hzero, hzero']
        rfl
      · have hdrop : (first - (origin : Int)).toNat = (first - ((origin : Int) + 1)).toNat + 1 := by omega
        rw [if_neg (fun h => hfirst h.1), hdrop, List.drop_succ_cons]
    · have hzero : (last - (origin : Int)).toNat = 0 := by omega
      have hzero' : (last - ((origin : Int) + 1)).toNat = 0 := by omega
      rw [if_neg (fun h => hlast h.2), hzero, hzero']
      simp

theorem characters_none (origin : Nat) (s : List Char) (first : Int) :
    characters origin s first none = s.drop (first - origin).toNat := by
  induction s generalizing origin with
  | nil => simp [characters]
  | cons c s ih =>
    have hnext : ((origin + 1 : Nat) : Int) = origin + 1 := Int.natCast_succ origin
    rw [characters_cons, ih, hnext]
    by_cases hfirst : first ≤ (origin : Int)
    · have hzero : (first - (origin : Int)).toNat = 0 := by omega
      have hzero' : (first - ((origin : Int) + 1)).toNat = 0 := by omega
      rw [if_pos ⟨hfirst, by simp⟩, hzero, hzero']
      rfl
    · have hdrop : (first - (origin : Int)).toNat = (first - ((origin : Int) + 1)).toNat + 1 := by omega
      rw [if_neg (fun h => hfirst h.1), hdrop, List.drop_succ_cons]

/-! ## The helper -/

theorem charsBetween_none (s : List Char) (start : Int) : charsBetween s start none = some (s.drop start.toNat) := by
  have hrange : min (max start 0) (s.length : Int) ≤ s.length ∧ (s.length : Int) ≤ s.length := ⟨min_le_right _ _, le_rfl⟩
  have hdrop : s.drop (min (max start 0) (s.length : Int)).toNat = s.drop start.toNat := by
    by_cases h : start ≤ s.length
    · congr 1
      omega
    · rw [List.drop_of_length_le (by omega), List.drop_of_length_le (by omega)]
  unfold charsBetween
  simp only [Option.bind_eq_bind, Option.bind_some]
  rw [if_pos hrange, Int.toNat_natCast, List.take_length, hdrop]

/-- Where the end does not overflow, the characters from the start on, so many as the length
says, counted from the first character where the start is before it. -/
theorem charsBetween_some (s : List Char) (start len : Int) :
    charsBetween s start (some len) =
      if Fits (min (max start 0) s.length + max len 0) then some ((s.drop start.toNat).take len.toNat) else none := by
  by_cases hfit : Fits (min (max start 0) s.length + max len 0)
  · have hrange : min (max start 0) (s.length : Int) ≤ min (min (max start 0) s.length + max len 0) s.length ∧
        min (min (max start 0) (s.length : Int) + max len 0) s.length ≤ s.length := by
      omega
    unfold charsBetween
    simp only [Option.bind_eq_bind]
    rw [checked_of hfit, Option.map_some, Option.bind_some, if_pos hrange, if_pos hfit, Option.some.injEq, List.drop_take]
    by_cases h : start ≤ s.length
    · have hstart : (min (max start 0) (s.length : Int)).toNat = start.toNat := by omega
      rw [hstart]
      by_cases hlen : start.toNat + len.toNat ≤ s.length
      · congr 1
        omega
      · rw [List.take_of_length_le, List.take_of_length_le]
        · rw [List.length_drop]
          omega
        · rw [List.length_drop]
          omega
    · rw [List.drop_of_length_le (by omega), List.drop_of_length_le (by omega), List.take_nil, List.take_nil]
  · unfold charsBetween
    simp only [Option.bind_eq_bind]
    rw [checked_eq_none.2 hfit, if_neg hfit]
    rfl

/-! ## Positions and lengths -/

/-- No position overflows, and where the start is before the first character a length does not
count from there. -/
def Exact (s : List Char) (a : Int) (len : Option Int) : Prop :=
  -2 ^ 63 < a ∧ ∀ n ∈ len, min (max (a - 1) 0) s.length + max n 0 < 2 ^ 63 ∧ (1 ≤ a ∨ n ≤ 0 ∨ s = [] ∨ s.length < a + n)

instance (s : List Char) (a : Int) (len : Option Int) : Decidable (Exact s a len) := inferInstanceAs (Decidable (_ ∧ _))

/-- The characters at positions are so many from the first of them on, or fewer where that is
before the text. -/
theorem slice_iff (s : List Char) (a n : Int) :
    (s.drop (a - 1).toNat).take n.toNat = characters 1 s a (some (a + n)) ↔ 1 ≤ a ∨ n ≤ 0 ∨ s = [] ∨ s.length < a + n := by
  rw [characters_some, List.drop_take]
  have hone : ((1 : Nat) : Int) = 1 := rfl
  rw [hone]
  constructor
  · intro h
    have hlen := congrArg List.length h
    simp only [List.length_take, List.length_drop] at hlen
    have hs : s = [] ↔ s.length = 0 := List.length_eq_zero_iff.symm
    rw [hs]
    omega
  · have hsame : 1 ≤ a ∨ n ≤ 0 → n.toNat = (a + n - 1).toNat - (a - 1).toNat := by omega
    rintro (h | h | rfl | h)
    · rw [← hsame (.inl h)]
    · rw [← hsame (.inr h)]
    · simp
    · by_cases ha : 1 ≤ a
      · rw [← hsame (.inl ha)]
      · rw [List.take_of_length_le, List.take_of_length_le]
        · rw [List.length_drop]
          omega
        · rw [List.length_drop]
          omega

theorem stringOut_eq_iff {s t : List Char} : stringOut s = stringOut t ↔ s = t := by
  unfold stringOut
  rw [Term.literal.injEq, Literal.simple.injEq, String.ofList_inj]

variable {roundF64 : String → Option Int}

theorem parseI64_fits {v : String} {n : Int} (h : Inline.parseI64 v = some n) : Fits n := by
  have hwithin : ∀ {m : Option Nat} {f : Nat → Int},
      (m.bind fun k => if -2 ^ 63 ≤ f k ∧ f k < 2 ^ 63 then some (f k) else none) = some n → Fits n := by
    intro m f hm
    obtain ⟨k, -, hk⟩ := Option.bind_eq_some_iff.1 hm
    split at hk
    · rename_i hfit
      cases hk
      exact hfit
    · cases hk
  unfold Inline.parseI64 at h
  simp only at h
  split at h
  · exact hwithin h
  · exact hwithin h
  · exact hwithin h

/-- A position is a number of 64 bits, as rounding a double gives one. -/
theorem integer_fits (hround : ∀ v n, roundF64 v = some n → Fits n) {t : Term} {n : Int} (h : integer roundF64 t = some n) : Fits n := by
  cases t with
  | literal l =>
    rw [integer, Option.or_eq_some_iff] at h
    rcases h with h | ⟨-, h⟩
    · exact parseI64_fits h
    · exact hround _ _ h
  | namedNode _ => cases h
  | blankNode _ => cases h
  | triple _ _ _ => cases h

/-- Each of the two functions reads the characters at its positions. -/
theorem fnSubstring_iff {args : List Term} {s : String} {a : Int} (hs : args.head?.bind text = some s)
    (ha : args[1]?.bind (integer roundF64) = some a) (hfit : Fits a) :
    fnSubstring roundF64 args = some (some (stringOut (characters 1 s.toList a ((args[2]?.bind (integer roundF64)).map (a + ·))))) ↔
      Exact s.toList a (args[2]?.bind (integer roundF64)) := by
  unfold fnSubstring
  rw [hs, ha]
  simp only [Option.bind_eq_bind]
  by_cases hlow : -2 ^ 63 < a
  · have hstart : checked (a - 1) = some (a - 1) := by
      apply checked_of
      simp only [Fits] at hfit ⊢
      omega
    rw [hstart, Option.bind_some]
    cases args[2]?.bind (integer roundF64) with
    | none =>
      have hexact : Exact s.toList a none := ⟨hlow, fun n hn => absurd hn (by simp)⟩
      rw [charsBetween_none, Option.map_none, characters_none]
      exact iff_of_true rfl hexact
    | some n =>
      have hexact : Exact s.toList a (some n) ↔ min (max (a - 1) 0) (s.toList.length : Int) + max n 0 < 2 ^ 63 ∧
          (1 ≤ a ∨ n ≤ 0 ∨ s.toList = [] ∨ (s.toList.length : Int) < a + n) := by
        simp only [Exact, Option.mem_def, Option.some.injEq, forall_eq', and_iff_right hlow]
      rw [charsBetween_some, Option.map_some, hexact, ← slice_iff]
      by_cases hend : Fits (min (max (a - 1) 0) s.toList.length + max n 0)
      · have hend' := hend.2
        rw [if_pos hend, Option.bind_some, Option.pure_def, Option.some.injEq, Option.some.injEq, stringOut_eq_iff, and_iff_right hend']
      · have hend' : ¬min (max (a - 1) 0) (s.toList.length : Int) + max n 0 < 2 ^ 63 := by
          simp only [Fits] at hend
          omega
        rw [if_neg hend, Option.bind_none]
        exact iff_of_false (by simp) (fun h => hend' h.1)
  · have hover : ¬Fits (a - 1) := by
      simp only [Fits]
      omega
    rw [checked_eq_none.2 hover, Option.bind_none]
    exact iff_of_false (by simp) (fun h => hlow h.1)

/-- From a position up to another that is not before it. -/
theorem afnSubstr_eq {args : List Term} {s : String} {a : Int} (hs : args.head?.bind text = some s)
    (ha : args[1]?.bind (integer roundF64) = some a) (hpos : 0 ≤ a)
    (hle : ∀ e ∈ args[2]?.bind (integer roundF64), a ≤ e ∧ Fits e) :
    afnSubstr roundF64 args = some (some (stringOut (characters 0 s.toList a (args[2]?.bind (integer roundF64))))) := by
  unfold afnSubstr
  rw [hs, ha]
  simp only [Option.bind_eq_bind]
  cases he : args[2]?.bind (integer roundF64) with
  | none =>
    rw [Option.bind_some, charsBetween_none, characters_none]
    simp
  | some e =>
    obtain ⟨hae, hfit⟩ := hle e he
    simp only [Fits] at hfit
    have hlen : checked (e - a) = some (e - a) := checked_of (by simp only [Fits]; omega)
    have hend : Fits (min (max a 0) s.toList.length + max (e - a) 0) := by
      simp only [Fits]
      omega
    have hcount : (e - a).toNat = (e - ((0 : Nat) : Int)).toNat - (a - ((0 : Nat) : Int)).toNat := by omega
    have hstart : (a - ((0 : Nat) : Int)).toNat = a.toNat := by omega
    simp only [hlen, Option.map_some, Option.bind_some]
    rw [charsBetween_some, if_pos hend, Option.bind_some, characters_some, List.drop_take, ← hcount, hstart]
    rfl

/-- The end less the start is what may overflow. -/
theorem afnSubstr_isSome {args : List Term} {s : String} {a : Int} (hs : args.head?.bind text = some s)
    (ha : args[1]?.bind (integer roundF64) = some a) (hfit : Fits a)
    (hfits : ∀ e ∈ args[2]?.bind (integer roundF64), Fits e) :
    (afnSubstr roundF64 args).isSome ↔ ∀ e ∈ args[2]?.bind (integer roundF64), Fits (e - a) := by
  unfold afnSubstr
  rw [hs, ha]
  simp only [Option.bind_eq_bind]
  cases he : args[2]?.bind (integer roundF64) with
  | none =>
    rw [Option.bind_some, charsBetween_none]
    simp
  | some e =>
    have hfite := hfits e he
    simp only [Option.mem_def, Option.some.injEq, forall_eq']
    by_cases hlen : Fits (e - a)
    · have hend : Fits (min (max a 0) s.toList.length + max (e - a) 0) := by
        simp only [Fits] at hlen hfit hfite ⊢
        omega
      rw [checked_of hlen, Option.map_some, Option.bind_some, charsBetween_some, if_pos hend]
      simp [hlen]
    · rw [checked_eq_none.2 hlen]
      simp [hlen]

/-- `fn:substring` reads the characters at the positions asked for where no position overflows and
a start before the text has no length that ends in it. `afn:substr` reads its own, and overflows
where the end less the start does. -/
theorem substring_exact (roundF64 : String → Option Int) (hround : ∀ v n, roundF64 v = some n → Fits n) (args : List Term) :
    (∀ s a, args.head?.bind text = some s → args[1]?.bind (integer roundF64) = some a →
      (fnSubstring roundF64 args = some (some (stringOut (characters 1 s.toList a ((args[2]?.bind (integer roundF64)).map (a + ·))))) ↔
        Exact s.toList a (args[2]?.bind (integer roundF64))) ∧
      (0 ≤ a → (∀ e ∈ args[2]?.bind (integer roundF64), a ≤ e) →
        afnSubstr roundF64 args = some (some (stringOut (characters 0 s.toList a (args[2]?.bind (integer roundF64)))))) ∧
      ((afnSubstr roundF64 args).isSome ↔ ∀ e ∈ args[2]?.bind (integer roundF64), Fits (e - a))) ∧
    (args.head?.bind text = none ∨ args[1]?.bind (integer roundF64) = none →
      fnSubstring roundF64 args = some none ∧ afnSubstr roundF64 args = some none) := by
  constructor
  · intro s a hs ha
    have hfits : ∀ (i : Nat) (n : Int), args[i]?.bind (integer roundF64) = some n → Fits n := by
      intro i n hn
      obtain ⟨t, -, ht⟩ := Option.bind_eq_some_iff.1 hn
      exact integer_fits hround ht
    refine ⟨fnSubstring_iff hs ha (hfits 1 a ha), ?_, afnSubstr_isSome hs ha (hfits 1 a ha) (fun e he => hfits 2 e he)⟩
    intro hpos hle
    exact afnSubstr_eq hs ha hpos (fun e he => ⟨hle e he, hfits 2 e he⟩)
  · intro h
    unfold fnSubstring afnSubstr
    rcases h with h | h
    · rw [h]
      exact ⟨rfl, rfl⟩
    · rw [h]
      cases args.head?.bind text <;> exact ⟨rfl, rfl⟩

/-- Characters are counted, not bytes. -/
theorem substring_accent :
    fnSubstring (fun _ => none) [stringOut "héllo".toList, stringOut ['2'], stringOut ['2']] = some (some (stringOut "él".toList)) := by
  have hread := ((substring_exact (fun _ => none) (fun _ _ h => by cases h)
    [stringOut "héllo".toList, stringOut ['2'], stringOut ['2']]).1 "héllo" 2 (by decide) (by decide)).1
  exact (hread.2 (by decide)).trans (by decide)

/-- A length counts from the first character where the start is before it, and the least and the
greatest positions overflow. -/
theorem substring_before :
    fnSubstring (fun _ => none) [stringOut "abc".toList, stringOut ['0'], stringOut ['2']] = some (some (stringOut "ab".toList)) ∧
    characters 1 "abc".toList 0 (some (0 + 2)) = ['a'] ∧
    fnSubstring (fun _ => none) [stringOut "abc".toList, stringOut "-9223372036854775808".toList] = none ∧
    fnSubstring (fun _ => none) [stringOut "abc".toList, stringOut ['2'], stringOut "9223372036854775807".toList] = none ∧
    afnSubstr (fun _ => none) [stringOut "abc".toList, stringOut "-1".toList, stringOut "9223372036854775807".toList] = none := by
  decide

end Holos.Engine
