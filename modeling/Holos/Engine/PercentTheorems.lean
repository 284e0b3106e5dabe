import Holos.Engine.Percent
/-!
# When percent escapes are read as they should be

The loop and the specification go through the bytes together. They part at a `%` behind which
the slice cuts a character, where the loop panics, and at one behind which a sign and a digit
stand, where the loop has one `%` less than the specification.
-/

namespace Holos.Engine

open Lib

/-! ## Digits -/

theorem hexValue_lt : ∀ b : UInt8, ∀ d ∈ hexValue b, d < 16 := forall_byte (by decide)

theorem hexValue_high : ∀ b : UInt8, 128 ≤ b → hexValue b = none := forall_byte (by decide)

theorem hexPair_of_none {x : UInt8} (h : hexValue x = none) (y : UInt8) : hexPair x y = none := by
  rw [hexPair, h]
  rfl

theorem hexPair_none_right {y : UInt8} (h : hexValue y = none) (x : UInt8) : hexPair x y = none := by
  unfold hexPair
  cases hexValue x with
  | none => rfl
  | some hi =>
    rw [h]
    rfl

/-- Two bytes the first of which is no sign are read as two digits. -/
theorem fromStrRadix16_pair {x : UInt8} (h : x ≠ 43) (y : UInt8) : fromStrRadix16 [x, y] = hexPair x y := by
  have hsign : ((some x == some (43 : UInt8)) && decide (1 < [x, y].length)) = false := by simp [h]
  unfold fromStrRadix16 hexPair
  rw [List.head?_cons, hsign]
  cases hx : hexValue x with
  | none => simp [hx]
  | some hi =>
    cases hy : hexValue y with
    | none => simp [hx, hy]
    | some lo =>
      have hhi := hexValue_lt x hi hx
      have hlo := hexValue_lt y lo hy
      have hbyte : hi * 16 + lo < 256 := by omega
      have hnat : UInt8.ofNat (hi * 16 + lo) = UInt8.ofNat (16 * hi + lo) := by rw [Nat.mul_comm]
      simpa [hx, hy, show hi < 256 by omega, hbyte] using hnat

/-- A sign and a byte are read as one digit. -/
theorem fromStrRadix16_sign (y : UInt8) : fromStrRadix16 [43, y] = (hexValue y).map UInt8.ofNat := by
  unfold fromStrRadix16
  cases hy : hexValue y with
  | none => simp [hy]
  | some d =>
    have := hexValue_lt y d hy
    simp [hy, show d < 256 by omega]

/-! ## One round of the loop -/

variable {form : Bool}

theorem percentLoop_plain {b : UInt8} (h : b ≠ 37) (bs : List UInt8) :
    percentLoop form (b :: bs) = (percentLoop form bs).map (plain form b :: ·) := by
  match bs with
  | [] => by_cases hf : (form && b == 43) = true <;> simp [percentLoop, plain, hf]
  | [x] => by_cases hf : (form && b == 43) = true <;> simp [percentLoop, plain, hf]
  | x :: y :: rest =>
    have hb : ¬(b == 37) = true := fun e => h (beq_iff_eq.1 e)
    rw [percentLoop, plain]
    by_cases hf : (form && b == 43) = true
    · rw [if_pos hf, if_pos hf]
    · rw [if_neg hf, if_neg hf, if_neg hb]

theorem percentLoop_cut {x y : UInt8} {rest : List UInt8} (h : continues x ∨ rest.head?.any continues) :
    percentLoop form (37 :: x :: y :: rest) = none := by
  rw [percentLoop, if_neg (by simp), if_pos (beq_self_eq_true _), if_pos (by simpa using h)]

theorem percentLoop_slice {x y : UInt8} {rest : List UInt8} (hx : continues x = false) (hr : rest.head?.any continues = false) :
    percentLoop form (37 :: x :: y :: rest) = match fromStrRadix16 [x, y] with
      | some byte => (percentLoop form rest).map (byte :: ·)
      | none => (percentLoop form (x :: y :: rest)).map (37 :: ·) := by
  rewrite [percentLoop, if_neg (by simp), if_pos (beq_self_eq_true _), if_neg (by simp [hx, hr])]
  cases fromStrRadix16 [x, y] <;> rfl

theorem percentLoop_short {bs : List UInt8} (h : bs.length < 2) :
    percentLoop form (37 :: bs) = (percentLoop form bs).map (37 :: ·) := by
  match bs with
  | [] => simp [percentLoop]
  | [x] => simp [percentLoop]
  | x :: y :: rest =>
    simp only [List.length_cons] at h
    omega

theorem unescape_short {bs : List UInt8} (h : bs.length < 2) : unescape form (37 :: bs) = 37 :: unescape form bs := by
  have hp : plain form 37 = 37 := by simp [plain]
  match bs with
  | [] => simp [unescape, hp]
  | [x] => simp [unescape, hp]
  | x :: y :: rest =>
    simp only [List.length_cons] at h
    omega

/-! ## The loop beside the specification -/

/-- Where `clear` holds the loop does as specified, and elsewhere it panics or loses a `%`. -/
structure Settled (form : Bool) (clear : Prop) (bs : List UInt8) : Prop where
  same : clear → percentLoop form bs = some (unescape form bs)
  less : ¬clear → ∀ out, percentLoop form bs = some out → out.count 37 < (unescape form bs).count 37

theorem Settled.le {clear : Prop} {bs out : List UInt8} (h : Settled form clear bs) (hout : percentLoop form bs = some out) :
    out.count 37 ≤ (unescape form bs).count 37 := by
  by_cases hc : clear
  · rw [h.same hc] at hout
    rw [Option.some.inj hout]
  · exact Nat.le_of_lt (h.less hc out hout)

/-- Both give one byte and go on at the same place. -/
theorem Settled.step {clear : Prop} {bs rest : List UInt8} {v : UInt8} (h : Settled form clear rest)
    (hloop : percentLoop form bs = (percentLoop form rest).map (v :: ·)) (hspec : unescape form bs = v :: unescape form rest) :
    Settled form clear bs where
  same hc := by rw [hloop, hspec, h.same hc, Option.map_some]
  less hc out hout := by
    rw [hloop] at hout
    obtain ⟨tail, htail, rfl⟩ := Option.map_eq_some_iff.1 hout
    have := h.less hc tail htail
    rw [hspec, List.count_cons, List.count_cons]
    omega

theorem Settled.panic {clear : Prop} {bs : List UInt8} (hc : ¬clear) (hloop : percentLoop form bs = none) :
    Settled form clear bs where
  same h := absurd h hc
  less _ out hout := by
    rw [hloop] at hout
    cases hout

theorem Settled.plain {clear : Prop} {l rest : List UInt8} (hl : ∀ b ∈ l, b ≠ 37) (h : Settled form clear rest) :
    Settled form clear (l ++ rest) := by
  induction l with
  | nil => exact h
  | cons b l ih =>
    have hb := hl b List.mem_cons_self
    apply (ih (fun x hx => hl x (List.mem_cons_of_mem _ hx))).step
    · exact percentLoop_plain hb _
    · exact unescape_plain hb _

theorem Settled.congr {clear clear' : Prop} {bs : List UInt8} (h : Settled form clear bs) (hiff : clear' ↔ clear) :
    Settled form clear' bs := ⟨fun hc => h.same (hiff.1 hc), fun hc => h.less (fun hc' => hc (hiff.2 hc'))⟩

/-! ## Texts -/

/-- A hexadecimal digit. -/
def IsHex (c : Char) : Prop := c.utf8Size = 1 ∧ hexValue c.val.toUInt8 ≠ none

instance (c : Char) : Decidable (IsHex c) := inferInstanceAs (Decidable (_ ∧ _))

/-- What may stand behind a `%`: the two bytes behind it do not cut a character, and are not a
sign and a digit. -/
def Behind : List Char → Prop
  | [] => True
  | [c] => c.utf8Size ≤ 2
  | c :: d :: _ => c.utf8Size = 2 ∨ (c.utf8Size = 1 ∧ d.utf8Size = 1 ∧ ¬(c = '+' ∧ IsHex d))

/-- Only such stands behind a `%`. -/
def Clear : List Char → Prop
  | [] => True
  | c :: cs => (c = '%' → Behind cs) ∧ Clear cs

theorem byte_ne {c d : Char} (hd : d.utf8Size = 1) (h : c ≠ d) : ∀ b ∈ String.utf8EncodeChar c, b ≠ d.val.toUInt8 := by
  intro b hb
  have hlt : d.val.toUInt8 < 128 := by
    rw [UInt8.lt_iff_toNat_lt, (encodeChar_of_one hd).2.2]
    exact (encodeChar_of_one hd).2.1
  by_cases hc : c.utf8Size = 1
  · rw [(encodeChar_of_one hc).1, List.mem_singleton] at hb
    rw [hb]
    exact fun e => h (byte_inj hc hd e)
  · have := c.utf8Size_pos
    obtain ⟨x, tail, hx, -, hx128, -, htail⟩ := encodeChar_of_two_le (c := c) (by omega)
    rw [hx] at hb
    have hb128 : 128 ≤ b := by
      rcases List.mem_cons.1 hb with rfl | hb
      · exact hx128
      · exact le_of_continues b (htail b hb)
    rintro rfl
    exact absurd hb128 (UInt8.not_le.2 hlt)

theorem utf8_of_one {c : Char} (h : c.utf8Size = 1) (cs : List Char) : utf8 (c :: cs) = c.val.toUInt8 :: utf8 cs := by
  rw [utf8_cons, (encodeChar_of_one h).1]
  rfl

theorem utf8_percent (cs : List Char) : utf8 ('%' :: cs) = 37 :: utf8 cs := utf8_of_one (by decide) cs

/-- A text does not begin inside a character. -/
theorem head_utf8 (cs : List Char) : (utf8 cs).head?.any continues = false := by
  cases cs with
  | nil => rfl
  | cons c cs =>
    obtain ⟨b, rest, he, -, hb, -⟩ := encodeChar_head c
    rw [utf8_cons, he, List.cons_append, List.head?_cons, Option.any_some, hb]

theorem not_continues_of_one {c : Char} (h : c.utf8Size = 1) : continues c.val.toUInt8 = false := by
  apply not_continues_of_lt
  rw [UInt8.lt_iff_toNat_lt, (encodeChar_of_one h).2.2]
  exact (encodeChar_of_one h).2.1

theorem clear_of_ne {c : Char} {cs : List Char} (h : c ≠ '%') : Clear (c :: cs) ↔ Clear cs := by
  simp [Clear, h]

theorem clear_percent {cs : List Char} : Clear ('%' :: cs) ↔ Behind cs ∧ Clear cs := by
  simp [Clear]

/-- A `%` that stands for itself. -/
theorem Settled.percent {cs : List Char} {bs : List UInt8} (h : Settled form (Clear cs) bs) (hb : Behind cs)
    (hloop : percentLoop form (37 :: bs) = (percentLoop form bs).map (37 :: ·))
    (hspec : unescape form (37 :: bs) = 37 :: unescape form bs) : Settled form (Clear ('%' :: cs)) (37 :: bs) := by
  apply (h.step hloop hspec).congr
  rw [clear_percent]
  exact ⟨And.right, fun hc => ⟨hb, hc⟩⟩

theorem unescape_none {x y : UInt8} (h : hexPair x y = none) (bs : List UInt8) :
    unescape form (37 :: x :: y :: bs) = 37 :: unescape form (x :: y :: bs) := by
  rw [unescape_percent h]
  simp [Lib.plain]

/-- Behind the `%` stand two characters of one byte. -/
theorem settled_two {c d : Char} {cs : List Char} (hc : c.utf8Size = 1) (hd : d.utf8Size = 1)
    (h₁ : Settled form (Clear (c :: d :: cs)) (utf8 (c :: d :: cs))) (h₂ : Settled form (Clear cs) (utf8 cs)) :
    Settled form (Clear ('%' :: c :: d :: cs)) (utf8 ('%' :: c :: d :: cs)) := by
  have htext : utf8 (c :: d :: cs) = c.val.toUInt8 :: d.val.toUInt8 :: utf8 cs := by
    rw [utf8_of_one hc, utf8_of_one hd]
  have hslice := @percentLoop_slice form _ d.val.toUInt8 _ (not_continues_of_one hc) (head_utf8 cs)
  rw [utf8_percent]
  by_cases hplus : c = '+'
  · subst hplus
    rw [htext] at h₁ ⊢
    have hbyte : '+'.val.toUInt8 = 43 := rfl
    have hnone : hexPair 43 d.val.toUInt8 = none := hexPair_of_none rfl _
    rw [hbyte] at h₁ hslice ⊢
    cases hv : hexValue d.val.toUInt8 with
    | none =>
      rw [fromStrRadix16_sign, hv] at hslice
      apply h₁.percent
      · exact .inr ⟨hc, hd, fun hx => hx.2.2 hv⟩
      · exact hslice
      · exact unescape_none hnone _
    | some v =>
      -- the loop takes the sign and the digit for a byte, which is no `%`
      rw [fromStrRadix16_sign, hv] at hslice
      have hv16 := hexValue_lt _ v hv
      have hv37 : UInt8.ofNat v ≠ 37 := by
        intro e
        have := congrArg UInt8.toNat e
        rw [UInt8.toNat_ofNat', Nat.mod_eq_of_lt (by omega)] at this
        have h37 : (37 : UInt8).toNat = 37 := rfl
        omega
      refine ⟨fun hclear => ?_, fun _ out hout => ?_⟩
      · rcases (clear_percent.1 hclear).1 with h2 | h2
        · omega
        · exact absurd ⟨rfl, hd, by rw [hv]; exact Option.some_ne_none v⟩ h2.2.2
      · have hout' := hslice.symm.trans hout
        obtain ⟨tail, htail, rfl⟩ := Option.map_eq_some_iff.1 hout'
        have hle := h₂.le htail
        have hd37 : d.val.toUInt8 ≠ 37 := by
          intro e
          rw [e] at hv
          cases hv
        rw [unescape_none hnone, unescape_plain (by decide), unescape_plain hd37, List.count_cons_of_ne hv37, List.count_cons_self,
          List.count_cons, List.count_cons]
        omega
  · rw [fromStrRadix16_pair (by
      have := byte_ne (d := '+') (by decide) hplus c.val.toUInt8
      rw [(encodeChar_of_one hc).1] at this
      exact this (List.mem_singleton_self _))] at hslice
    have hbehind : Behind (c :: d :: cs) := .inr ⟨hc, hd, fun hx => hplus hx.1⟩
    cases hv : hexPair c.val.toUInt8 d.val.toUInt8 with
    | none =>
      rw [hv] at hslice
      apply h₁.percent hbehind
      · rw [htext]
        exact hslice
      · rw [htext]
        exact unescape_none hv _
    | some v =>
      rw [hv] at hslice
      have hcp : c ≠ '%' := by
        rintro rfl
        rw [hexPair_of_none rfl] at hv
        cases hv
      have hdp : d ≠ '%' := by
        rintro rfl
        rw [hexPair_none_right rfl] at hv
        cases hv
      rw [htext]
      apply (h₂.step hslice (unescape_pair hv _)).congr
      rw [clear_percent, clear_of_ne hcp, clear_of_ne hdp]
      exact ⟨And.right, fun hclear => ⟨hbehind, hclear⟩⟩

theorem behind_two {c : Char} (h : c.utf8Size = 2) (cs : List Char) : Behind (c :: cs) := by
  cases cs with
  | nil => exact Nat.le_of_eq h
  | cons d cs => exact .inl h

/-- Behind the `%` and a character of one byte the slice ends inside a character. -/
theorem settled_cut {c d : Char} {cs : List Char} (hc : c.utf8Size = 1) (hd : 2 ≤ d.utf8Size) :
    Settled form (Clear ('%' :: c :: d :: cs)) (utf8 ('%' :: c :: d :: cs)) := by
  obtain ⟨y, tail, hy, hlen, -, -, htail⟩ := encodeChar_of_two_le hd
  apply Settled.panic
  · intro hclear
    rcases (clear_percent.1 hclear).1 with h2 | h2
    · omega
    · have := h2.2.1
      omega
  · rw [utf8_percent, utf8_of_one hc, utf8_cons, hy]
    cases tail with
    | nil =>
      rw [List.length_nil] at hlen
      omega
    | cons z tail =>
      apply percentLoop_cut
      exact .inr (htail z List.mem_cons_self)

/-- Behind the `%` stands a character of several bytes. -/
theorem settled_wide {c : Char} {cs : List Char} (hc : 2 ≤ c.utf8Size) (h : Settled form (Clear (c :: cs)) (utf8 (c :: cs))) :
    Settled form (Clear ('%' :: c :: cs)) (utf8 ('%' :: c :: cs)) := by
  obtain ⟨x, tail, hx, hlen, hx128, hxc, htail⟩ := encodeChar_of_two_le hc
  have htext : utf8 (c :: cs) = x :: (tail ++ utf8 cs) := by
    rw [utf8_cons, hx]
    rfl
  cases tail with
  | nil =>
    rw [List.length_nil] at hlen
    omega
  | cons y tail =>
    cases tail with
    | nil =>
      -- the slice is the character, which is no digit
      have h2 : c.utf8Size = 2 := by
        simp only [List.length_cons, List.length_nil] at hlen
        omega
      have hx43 : x ≠ 43 := by
        rintro rfl
        exact absurd hx128 (by decide)
      have hnone : hexPair x y = none := hexPair_of_none (hexValue_high x hx128) y
      have hslice := @percentLoop_slice form x y _ hxc (head_utf8 cs)
      rw [fromStrRadix16_pair hx43, hnone] at hslice
      rw [utf8_percent]
      apply h.percent (behind_two h2 cs)
      · rw [htext]
        exact hslice
      · rw [htext]
        exact unescape_none hnone _
    | cons z tail =>
      have h3 : 3 ≤ c.utf8Size := by
        simp only [List.length_cons] at hlen
        omega
      apply Settled.panic
      · intro hclear
        have hb := (clear_percent.1 hclear).1
        cases cs with
        | nil =>
          have : c.utf8Size ≤ 2 := hb
          omega
        | cons d cs =>
          rcases hb with h2 | h2
          · omega
          · have := h2.1
            omega
      · rw [utf8_percent, htext]
        apply percentLoop_cut
        exact .inr (htail z (List.mem_cons_of_mem y List.mem_cons_self))

/-- By the number of characters; an escape is read in one round. -/
theorem settled_utf8 (s : List Char) : Settled form (Clear s) (utf8 s) := by
  induction hn : s.length using Nat.strongRecOn generalizing s with
  | _ n ih =>
    cases s with
    | nil => exact ⟨fun _ => rfl, fun h => absurd trivial h⟩
    | cons c cs =>
      have hcs := ih cs.length (by simp [← hn]) cs rfl
      by_cases hc : c = '%'
      · subst hc
        cases cs with
        | nil => exact hcs.percent trivial (percentLoop_short (by decide)) (unescape_short (by decide))
        | cons c cs =>
          have hpos := c.utf8Size_pos
          by_cases h1 : c.utf8Size = 1
          · cases cs with
            | nil =>
              have hshort : (utf8 [c]).length < 2 := by
                rw [utf8_of_one h1]
                exact Nat.lt_succ_self 1
              apply hcs.percent
              · change c.utf8Size ≤ 2
                omega
              · exact percentLoop_short hshort
              · exact unescape_short hshort
            | cons d cs =>
              have hpos' := d.utf8Size_pos
              by_cases h1' : d.utf8Size = 1
              · exact settled_two h1 h1' hcs (ih cs.length (by simp only [← hn, List.length_cons]; omega) cs rfl)
              · exact settled_cut h1 (by omega)
          · exact settled_wide (by omega) hcs
      · rw [utf8_cons]
        apply Settled.plain (byte_ne (by decide) hc)
        exact hcs.congr (clear_of_ne hc)

/-- An escape is one byte. -/
theorem percentLoop_escape {x y : Char} {v : UInt8} (hx : x.utf8Size = 1) (hy : y.utf8Size = 1)
    (h : hexPair x.val.toUInt8 y.val.toUInt8 = some v) (cs : List Char) :
    percentLoop form (utf8 ('%' :: x :: y :: cs)) = (percentLoop form (utf8 cs)).map (v :: ·) := by
  have hx43 : x.val.toUInt8 ≠ 43 := by
    intro e
    rw [e, hexPair_of_none rfl] at h
    cases h
  rw [utf8_percent, utf8_of_one hx, utf8_of_one hy, percentLoop_slice (not_continues_of_one hx) (head_utf8 cs),
    fromStrRadix16_pair hx43, h]

/-- The loop panics on no clear text and reads it as specified, and reads no other so. -/
theorem percentLoop_iff (form : Bool) (s : List Char) :
    (percentLoop form (utf8 s)).map lossy = some (lossy (unescape form (utf8 s))) ↔ Clear s := by
  have h := @settled_utf8 form s
  constructor
  · intro heq
    by_contra hc
    obtain ⟨out, hout, hread⟩ := Option.map_eq_some_iff.1 heq
    have hlt := h.less hc out hout
    have hcount := congrArg (List.count '%') hread
    rw [count_lossy (by decide), count_lossy (by decide)] at hcount
    exact absurd hcount (Nat.ne_of_lt hlt)
  · intro hc
    rw [h.same hc, Option.map_some]

/-! ## Both ways -/

theorem toUInt8_ofUInt8 (b : UInt8) : (Char.ofUInt8 b).val.toUInt8 = b := by
  have hval : (Char.ofUInt8 b).val = b.toUInt32 := rfl
  simp [hval]

theorem escapeByte_plain : ∀ b : UInt8, (Char.ofUInt8 b).isAlphanum ∨ Char.ofUInt8 b ∈ ['-', '_', '.', '~'] →
    (Char.ofUInt8 b).utf8Size = 1 ∧ b ≠ 37 := forall_byte (by decide)

theorem hexDigit_size {n : Nat} (h : n < 16) : (hexDigit n).utf8Size = 1 := by
  have hall : ∀ n < 16, (hexDigit n).utf8Size = 1 := by decide
  exact hall n h

theorem percentLoop_percentByte (b : UInt8) (cs : List Char) :
    percentLoop form (utf8 (percentByte b ++ cs)) = (percentLoop form (utf8 cs)).map (b :: ·) := by
  have hb := b.toNat_lt
  exact percentLoop_escape (hexDigit_size (by omega)) (hexDigit_size (Nat.mod_lt _ (by decide))) (hexPair_digits b) cs

theorem percentLoop_escapeByte (b : UInt8) (cs : List Char) :
    percentLoop false (utf8 (escapeByte b ++ cs)) = (percentLoop false (utf8 cs)).map (b :: ·) := by
  unfold escapeByte
  simp only
  split
  · rename_i h
    obtain ⟨hsize, h37⟩ := escapeByte_plain b h
    rw [List.singleton_append, utf8_of_one hsize, toUInt8_ofUInt8, percentLoop_plain h37]
    rfl
  · exact percentLoop_percentByte b cs

/-- Escaped bytes are read back. -/
theorem percentLoop_escaped (bs : List UInt8) : percentLoop false (utf8 (bs.flatMap escapeByte)) = some bs := by
  induction bs with
  | nil => rfl
  | cons b bs ih => rw [List.flatMap_cons, percentLoop_escapeByte, ih, Option.map_some]

/-- A text that was encoded is decoded to itself. -/
theorem spifDecodeUrl_encode (s : List Char) :
    ∃ e, spifEncodeUrl [stringOut s] = some e ∧ spifDecodeUrl [e] = some (some (stringOut s)) := by
  refine ⟨stringOut ((utf8 s).flatMap escapeByte), ?_, ?_⟩
  · simp [spifEncodeUrl, stringOut, text, Literal.value]
  · have hloop := percentLoop_escaped (utf8 s)
    simp [spifDecodeUrl, stringOut, text, Literal.value, hloop, lossy_utf8]

theorem stringOut_inj {s t : List Char} (h : stringOut s = stringOut t) : s = t := by
  unfold stringOut at h
  exact String.ofList_inj.1 (Literal.simple.inj (Term.literal.inj h))

theorem spifDecodeUrl_iff {a : Term} {s : String} (h : text a = some s) :
    spifDecodeUrl [a] = some (some (stringOut (lossy (unescape false (utf8 s.toList))))) ↔ Clear s.toList := by
  rw [← percentLoop_iff false]
  have hread : spifDecodeUrl [a] = (percentLoop false (utf8 s.toList)).map fun out => some (stringOut (lossy out)) := by
    simp [spifDecodeUrl, h]
  rw [hread]
  cases percentLoop false (utf8 s.toList) with
  | none => simp
  | some out =>
    rw [Option.map_some, Option.map_some]
    constructor
    · intro e
      rw [stringOut_inj (Option.some.inj (Option.some.inj e))]
    · intro e
      rw [Option.some.inj e]

end Holos.Engine
