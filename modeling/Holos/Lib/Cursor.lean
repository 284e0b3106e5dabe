import Holos.Lib.Bytes
import Holos.Lib.Effect
/-!
# Reading bytes from a place in them

A reader goes through bytes from where it stands, and gives up where too few are left. `Steady`
readers do not panic, and what they read does not depend on what stands behind it. `Reads m enc a`
reads `a` off `enc` wherever it stands. Both are put together as readers are; of a reader that
has both, `whole` accepts an encoding and neither a cut of it nor more than it.
-/

namespace Lib

open Bytes

structure Cursor where
  bytes : List UInt8
  pos : Nat

namespace Cursor

variable {α β γ : Type}

/-- The next `n` bytes. -/
def take (n : Nat) : Eff Unit Cursor (List UInt8) :=
  Eff.of fun cur =>
    if cur.pos + n ≤ cur.bytes.length then some (.ok ((cur.bytes.drop cur.pos).take n), { cur with pos := cur.pos + n })
    else some (.error (), cur)

/-- An element of a slice, which panics out of range. -/
def index (b : List UInt8) (i : Nat) : Eff Unit Cursor UInt8 := Eff.of fun cur => b[i]?.map fun x => (.ok x, cur)

def u8 : Eff Unit Cursor UInt8 := do
  let b ← take 1
  index b 0

def u32 : Eff Unit Cursor Nat := do
  let b ← take 4
  return ofBe [← index b 0, ← index b 1, ← index b 2, ← index b 3]

def u64 : Eff Unit Cursor Nat := do
  let b ← take 8
  if b.length = 8 then return ofBe b else throw ()

/-- Going round a number of times. -/
def times (step : β → Eff Unit Cursor β) : Nat → β → Eff Unit Cursor β
  | 0, acc => pure acc
  | n + 1, acc => do
    let acc ← step acc
    times step n acc

/-- A reader run on bytes, all of which it is to read. -/
def whole (m : Eff Unit Cursor α) (bytes : List UInt8) : Option (Option α) :=
  (m.exec ⟨bytes, 0⟩).map fun r => match r.1 with
    | .ok a => if r.2.pos = bytes.length then some a else none
    | .error _ => none

theorem exec_bind_ok {m : Eff Unit Cursor α} {f : α → Eff Unit Cursor β} {cur cur' : Cursor} {a : α}
    (h : m.exec cur = some (.ok a, cur')) : (m >>= f).exec cur = (f a).exec cur' := by
  rw [Eff.exec_bind, h]
  rfl

theorem exec_bind_error {m : Eff Unit Cursor α} {f : α → Eff Unit Cursor β} {cur cur' : Cursor}
    (h : m.exec cur = some (.error (), cur')) : (m >>= f).exec cur = some (.error (), cur') := by
  rw [Eff.exec_bind, h]
  rfl

/-! ## Readers that depend on what they read only -/

/-- No panic, and what is read stays read when more bytes stand behind. -/
structure Steady (m : Eff Unit Cursor α) : Prop where
  total : ∀ cur, ∃ r, m.exec cur = some r
  bytes : ∀ cur r, m.exec cur = some r → r.2.bytes = cur.bytes
  stays : ∀ cur a cur' more, m.exec cur = some (.ok a, cur') →
    m.exec ⟨cur.bytes ++ more, cur.pos⟩ = some (.ok a, ⟨cur'.bytes ++ more, cur'.pos⟩)

theorem Steady.pure (a : α) : Steady (pure a : Eff Unit Cursor α) where
  total _ := ⟨_, rfl⟩
  bytes := by
    intro cur r h
    cases h
    rfl
  stays := by
    intro cur a cur' more h
    cases h
    rfl

theorem Steady.throw : Steady (throw () : Eff Unit Cursor α) where
  total _ := ⟨_, rfl⟩
  bytes := by
    intro cur r h
    cases h
    rfl
  stays := by
    intro cur a cur' more h
    cases h

theorem Steady.bind {m : Eff Unit Cursor α} {f : α → Eff Unit Cursor β} (hm : Steady m) (hf : ∀ a, Steady (f a)) :
    Steady (m >>= f) where
  total cur := by
    obtain ⟨⟨r, cur'⟩, h⟩ := hm.total cur
    rw [Eff.exec_bind, h]
    cases r with
    | ok a => exact (hf a).total cur'
    | error e => exact ⟨_, rfl⟩
  bytes cur r h := by
    rw [Eff.exec_bind] at h
    obtain ⟨⟨r₁, cur₁⟩, h₁, h₂⟩ := Option.bind_eq_some_iff.1 h
    have hb := hm.bytes cur _ h₁
    cases r₁ with
    | ok a => exact ((hf a).bytes cur₁ r h₂).trans hb
    | error e =>
      cases h₂
      exact hb
  stays cur b cur' more h := by
    rw [Eff.exec_bind] at h
    obtain ⟨⟨r₁, cur₁⟩, h₁, h₂⟩ := Option.bind_eq_some_iff.1 h
    cases r₁ with
    | ok a =>
      rw [Eff.exec_bind, hm.stays cur a cur₁ more h₁]
      exact (hf a).stays cur₁ b cur' more h₂
    | error e => cases h₂

theorem Steady.ite {p : Prop} [Decidable p] {m m' : Eff Unit Cursor α} (h : p → Steady m) (h' : ¬p → Steady m') :
    Steady (if p then m else m') := by
  split
  · exact h ‹_›
  · exact h' ‹_›

theorem Steady.times {step : β → Eff Unit Cursor β} (h : ∀ b, Steady (step b)) (n : Nat) (b : β) : Steady (times step n b) := by
  induction n generalizing b with
  | zero => exact Steady.pure b
  | succ n ih => exact (h b).bind ih

/-! ## The bytes a slice has -/

theorem exec_take {n : Nat} {cur : Cursor} (h : cur.pos + n ≤ cur.bytes.length) :
    (take n).exec cur = some (.ok ((cur.bytes.drop cur.pos).take n), { cur with pos := cur.pos + n }) := if_pos h

theorem exec_take_none {n : Nat} {cur : Cursor} (h : ¬cur.pos + n ≤ cur.bytes.length) :
    (take n).exec cur = some (.error (), cur) := if_neg h

theorem exec_index {b : List UInt8} {i : Nat} (h : i < b.length) (cur : Cursor) : (index b i).exec cur = some (.ok b[i], cur) := by
  rw [index, Eff.exec_of, List.getElem?_eq_getElem h]
  rfl

theorem length_slice {n : Nat} {cur : Cursor} (h : cur.pos + n ≤ cur.bytes.length) :
    ((cur.bytes.drop cur.pos).take n).length = n := by
  rw [List.length_take, List.length_drop]
  omega

/-- What follows a slice only has to be steady on slices of that length. -/
theorem Steady.take_bind {n : Nat} {f : List UInt8 → Eff Unit Cursor β} (hf : ∀ b, b.length = n → Steady (f b)) :
    Steady (take n >>= f) where
  total cur := by
    by_cases h : cur.pos + n ≤ cur.bytes.length
    · rw [exec_bind_ok (exec_take h)]
      exact (hf _ (length_slice h)).total _
    · exact ⟨_, exec_bind_error (exec_take_none h)⟩
  bytes cur r h := by
    by_cases hn : cur.pos + n ≤ cur.bytes.length
    · rw [exec_bind_ok (exec_take hn)] at h
      exact (hf _ (length_slice hn)).bytes { cur with pos := cur.pos + n } r h
    · rw [exec_bind_error (exec_take_none hn)] at h
      cases h
      rfl
  stays cur b cur' more h := by
    by_cases hn : cur.pos + n ≤ cur.bytes.length
    · rw [exec_bind_ok (exec_take hn)] at h
      have hmore : cur.pos + n ≤ (cur.bytes ++ more).length := by
        rw [List.length_append]
        omega
      have hslice : ((cur.bytes ++ more).drop cur.pos).take n = (cur.bytes.drop cur.pos).take n := by
        rw [List.drop_append_of_le_length (by omega), List.take_append_of_le_length]
        rw [List.length_drop]
        omega
      rw [exec_bind_ok (@exec_take n ⟨cur.bytes ++ more, cur.pos⟩ hmore)]
      simp only [hslice]
      exact (hf _ (length_slice hn)).stays _ b cur' more h
    · rw [exec_bind_error (exec_take_none hn)] at h
      cases h

theorem Steady.index {b : List UInt8} {i : Nat} (h : i < b.length) : Steady (index b i) where
  total cur := ⟨_, exec_index h cur⟩
  bytes cur r hr := by
    rw [exec_index h] at hr
    cases hr
    rfl
  stays cur a cur' more hr := by
    rw [exec_index h] at hr ⊢
    cases hr
    rfl

theorem steady_u8 : Steady u8 := Steady.take_bind fun b hb => Steady.index (by omega)

theorem steady_u32 : Steady u32 := by
  apply Steady.take_bind
  intro b hb
  refine (Steady.index (by omega)).bind fun b₀ => ?_
  refine (Steady.index (by omega)).bind fun b₁ => ?_
  refine (Steady.index (by omega)).bind fun b₂ => ?_
  exact (Steady.index (by omega)).bind fun b₃ => Steady.pure _

theorem steady_u64 : Steady u64 := by
  apply Steady.take_bind
  intro b hb
  exact Steady.ite (fun _ => Steady.pure _) (fun _ => Steady.throw)

/-! ## Reading an encoding -/

/-- Wherever it stands, `m` reads `a` off `enc`. -/
def Reads (m : Eff Unit Cursor α) (enc : List UInt8) (a : α) : Prop :=
  ∀ before after, m.exec ⟨before ++ (enc ++ after), before.length⟩ =
    some (.ok a, ⟨before ++ (enc ++ after), before.length + enc.length⟩)

theorem reads_pure (a : α) : Reads (pure a) [] a := by
  intro before after
  rfl

theorem Reads.bind {m : Eff Unit Cursor α} {f : α → Eff Unit Cursor β} {enc enc' : List UInt8} {a : α} {b : β}
    (hm : Reads m enc a) (hf : Reads (f a) enc' b) : Reads (m >>= f) (enc ++ enc') b := by
  intro before after
  have hrun := hf (before ++ enc) after
  rw [List.append_assoc, List.length_append, Nat.add_assoc] at hrun
  rw [List.append_assoc, exec_bind_ok (hm before (enc' ++ after)), List.length_append]
  exact hrun

/-- What reads no more than has been read. -/
theorem Reads.last {m : Eff Unit Cursor α} {f : α → Eff Unit Cursor β} {enc : List UInt8} {a : α} {b : β}
    (hm : Reads m enc a) (hf : Reads (f a) [] b) : Reads (m >>= f) enc b := by
  have h := hm.bind hf
  rw [List.append_nil] at h
  exact h

/-- A list, one element a round. -/
theorem reads_times {step : β → Eff Unit Cursor β} {enc : γ → List UInt8} {put : β → γ → β} {xs : List γ}
    (h : ∀ x ∈ xs, ∀ b, Reads (step b) (enc x) (put b x)) (b : β) :
    Reads (times step xs.length b) (xs.flatMap enc) (xs.foldl put b) := by
  induction xs generalizing b with
  | nil => exact reads_pure b
  | cons x xs ih =>
    rw [List.flatMap_cons]
    apply (h x List.mem_cons_self b).bind
    exact ih (fun y hy => h y (List.mem_cons_of_mem _ hy)) (put b x)

theorem reads_take {n : Nat} {enc : List UInt8} (h : enc.length = n) : Reads (take n) enc enc := by
  intro before after
  subst h
  rw [exec_take]
  · rw [List.drop_left, List.take_left]
  · simp only [List.length_append]
    omega

theorem reads_index {b : List UInt8} {i : Nat} (h : i < b.length) : Reads (index b i) [] b[i] := by
  intro before after
  exact exec_index h _

theorem reads_u8 (b : UInt8) : Reads u8 [b] b := (reads_take rfl).last (reads_index (Nat.one_pos))

theorem reads_u32 {n : Nat} (h : n < 256 ^ 4) : Reads u32 (be 4 n) n := by
  apply (reads_take (length_be 4 n)).last
  apply (reads_index (i := 0) (by rw [length_be]; omega)).last
  apply (reads_index (i := 1) (by rw [length_be]; omega)).last
  apply (reads_index (i := 2) (by rw [length_be]; omega)).last
  apply (reads_index (i := 3) (by rw [length_be]; omega)).last
  have hbytes : ofBe [(be 4 n)[0], (be 4 n)[1], (be 4 n)[2], (be 4 n)[3]] = n := ofBe_be h
  rw [hbytes]
  exact reads_pure n

theorem reads_u64 {n : Nat} (h : n < 256 ^ 8) : Reads u64 (be 8 n) n := by
  apply (reads_take (length_be 8 n)).last
  rw [if_pos (length_be 8 n), ofBe_be h]
  exact reads_pure n

/-! ## Reading to the end -/

theorem whole_total {m : Eff Unit Cursor α} (h : Steady m) (bytes : List UInt8) : ∃ r, whole m bytes = some r := by
  obtain ⟨r, hr⟩ := h.total ⟨bytes, 0⟩
  rw [whole, hr]
  exact ⟨_, rfl⟩

theorem exec_start {m : Eff Unit Cursor α} {enc : List UInt8} {a : α} (h : Reads m enc a) (after : List UInt8) :
    m.exec ⟨enc ++ after, 0⟩ = some (.ok a, ⟨enc ++ after, enc.length⟩) := by
  have hrun := h [] after
  rw [List.nil_append, List.length_nil, Nat.zero_add] at hrun
  exact hrun

theorem whole_reads {m : Eff Unit Cursor α} {enc : List UInt8} {a : α} (h : Reads m enc a) : whole m enc = some (some a) := by
  have hrun := exec_start h []
  rw [List.append_nil] at hrun
  rw [whole, hrun]
  exact congrArg some (if_pos rfl)

/-- More than an encoding is not accepted. -/
theorem whole_more {m : Eff Unit Cursor α} {enc : List UInt8} {a : α} (h : Reads m enc a) {more : List UInt8} (hmore : more ≠ []) :
    whole m (enc ++ more) = some none := by
  have hlen : ¬enc.length = (enc ++ more).length := by
    have := List.length_pos_iff.2 hmore
    rw [List.length_append]
    omega
  rw [whole, exec_start h more]
  exact congrArg some (if_neg hlen)

/-- Nor is less: what a cut encoding is read as would be read off the encoding too, which is
read to its end. -/
theorem whole_cut {m : Eff Unit Cursor α} (hs : Steady m) {enc cut more : List UInt8} {a : α} (h : Reads m enc a)
    (hcut : enc = cut ++ more) (hmore : more ≠ []) : whole m cut = some none := by
  obtain ⟨⟨r, cur⟩, hr⟩ := hs.total ⟨cut, 0⟩
  rw [whole, hr]
  cases r with
  | error e => rfl
  | ok b =>
    have hfull := exec_start h []
    rw [List.append_nil, hcut, hs.stays _ b cur more hr] at hfull
    have hpos : cur.pos = (cut ++ more).length := congrArg (fun r => r.2.pos) (Option.some.inj hfull)
    have hlen : ¬cur.pos = cut.length := by
      have := List.length_pos_iff.2 hmore
      rw [hpos, List.length_append]
      omega
    exact congrArg some (if_neg hlen)

end Cursor

end Lib
