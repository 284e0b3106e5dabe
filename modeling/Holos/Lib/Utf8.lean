import Mathlib.Data.List.Basic
/-!
# Text as UTF-8

The bytes of a text, and reading bytes back with every broken sequence replaced. A broken
sequence is the longest start of a character's bytes, or one byte where there is none, so a
byte below 128 is always read as itself.
-/

namespace Lib

/-- The bytes of a text. -/
def utf8 (cs : List Char) : List UInt8 := cs.flatMap String.utf8EncodeChar

/-- A byte that goes on a character another byte began. -/
def continues (b : UInt8) : Bool := b &&& 0xC0 == 0x80

/-- Whether a byte can follow the first of three or four. -/
def secondFits (b x : UInt8) : Bool :=
  b == 0xE0 && 0xA0 ≤ x && x ≤ 0xBF || 0xE1 ≤ b && b ≤ 0xEC && 0x80 ≤ x && x ≤ 0xBF ||
    b == 0xED && 0x80 ≤ x && x ≤ 0x9F || 0xEE ≤ b && b ≤ 0xEF && 0x80 ≤ x && x ≤ 0xBF ||
    b == 0xF0 && 0x90 ≤ x && x ≤ 0xBF || 0xF1 ≤ b && b ≤ 0xF3 && 0x80 ≤ x && x ≤ 0xBF ||
    b == 0xF4 && 0x80 ≤ x && x ≤ 0x8F

/-- How many bytes the broken sequence at the start of the bytes has. -/
def brokenLength : List UInt8 → Nat
  | b :: x :: rest =>
    if secondFits b x then
      if 0xF0 ≤ b && rest.head?.any continues then 3 else 2
    else 1
  | _ => 1

/-- Bytes read as text past the first `k`, each broken sequence as one replacement character. -/
def lossyFrom : Nat → List UInt8 → List Char
  | _, [] => []
  | k + 1, _ :: bs => lossyFrom k bs
  | 0, b :: bs =>
    match (b :: bs).toByteArray.utf8DecodeChar? 0 with
    | some c => c :: lossyFrom (c.utf8Size - 1) bs
    | none => '\uFFFD' :: lossyFrom (brokenLength (b :: bs) - 1) bs

/-- Bytes read as text, each broken sequence as one replacement character. -/
def lossy (bs : List UInt8) : List Char := lossyFrom 0 bs

/-! ## Reading back -/

theorem utf8_cons (c : Char) (cs : List Char) : utf8 (c :: cs) = String.utf8EncodeChar c ++ utf8 cs := by
  simp [utf8]

theorem utf8_append (cs ds : List Char) : utf8 (cs ++ ds) = utf8 cs ++ utf8 ds := by
  simp [utf8]

theorem lossyFrom_eq_drop (k : Nat) (bs : List UInt8) : lossyFrom k bs = lossyFrom 0 (bs.drop k) := by
  induction k generalizing bs with
  | zero => rfl
  | succ k ih =>
    cases bs with
    | nil => rfl
    | cons b bs => exact ih bs

/-- One character's bytes are read as that character. -/
theorem lossy_encodeChar_append (c : Char) (bs : List UInt8) :
    lossy (String.utf8EncodeChar c ++ bs) = c :: lossy bs := by
  have hdecode : (String.utf8EncodeChar c ++ bs).toByteArray.utf8DecodeChar? 0 = some c := by
    rw [List.toByteArray_append]
    exact ByteArray.utf8DecodeChar?_utf8EncodeChar_append
  cases he : String.utf8EncodeChar c with
  | nil => exact absurd he String.utf8EncodeChar_ne_nil
  | cons b rest =>
    have hlen : rest.length = c.utf8Size - 1 := by
      have := String.length_utf8EncodeChar c
      rw [he, List.length_cons] at this
      omega
    rw [he, List.cons_append] at hdecode
    unfold lossy
    rw [List.cons_append, lossyFrom, hdecode]
    simp only
    rw [lossyFrom_eq_drop, ← hlen, List.drop_left]

theorem lossy_utf8_append (cs : List Char) (bs : List UInt8) : lossy (utf8 cs ++ bs) = cs ++ lossy bs := by
  induction cs with
  | nil => rfl
  | cons c cs ih => rw [utf8_cons, List.append_assoc, lossy_encodeChar_append, ih, List.cons_append]

/-- A text's bytes are read as the text. -/
theorem lossy_utf8 (cs : List Char) : lossy (utf8 cs) = cs := by
  have h := lossy_utf8_append cs []
  rwa [List.append_nil, show lossy [] = [] from rfl, List.append_nil] at h

theorem utf8_inj {cs ds : List Char} (h : utf8 cs = utf8 ds) : cs = ds := by
  rw [← lossy_utf8 cs, h, lossy_utf8]

/-! ## Bytes below 128 -/

theorem forall_byte {p : UInt8 → Prop} (h : ∀ x : BitVec 8, p ⟨x⟩) (x : UInt8) : p x := h x.toBitVec

theorem continues_tail : ∀ x : UInt8, continues (x &&& 0x3f ||| 0x80) = true := forall_byte (by decide)

theorem not_continues_two : ∀ x : UInt8, continues (x &&& 0x1f ||| 0xc0) = false := forall_byte (by decide)

theorem not_continues_three : ∀ x : UInt8, continues (x &&& 0x0f ||| 0xe0) = false := forall_byte (by decide)

theorem not_continues_four : ∀ x : UInt8, continues (x &&& 0x07 ||| 0xf0) = false := forall_byte (by decide)

theorem le_of_continues : ∀ x : UInt8, continues x = true → 128 ≤ x := forall_byte (by decide)

theorem le_two : ∀ x : UInt8, 128 ≤ x &&& 0x1f ||| 0xc0 := forall_byte (by decide)

theorem le_three : ∀ x : UInt8, 128 ≤ x &&& 0x0f ||| 0xe0 := forall_byte (by decide)

theorem le_four : ∀ x : UInt8, 128 ≤ x &&& 0x07 ||| 0xf0 := forall_byte (by decide)

/-- The bytes of a character of several: the first begins it, and the others go on. -/
theorem encodeChar_of_two_le {c : Char} (h : 2 ≤ c.utf8Size) :
    ∃ b rest, String.utf8EncodeChar c = b :: rest ∧ rest.length = c.utf8Size - 1 ∧ 128 ≤ b ∧ continues b = false ∧
      ∀ x ∈ rest, continues x = true := by
  have hle := c.utf8Size_le_four
  obtain h2 | h3 | h4 : c.utf8Size = 2 ∨ c.utf8Size = 3 ∨ c.utf8Size = 4 := by omega
  · refine ⟨_, _, String.utf8EncodeChar_eq_cons_cons h2, by simp [h2], le_two _, not_continues_two _, ?_⟩
    simp [continues_tail]
  · refine ⟨_, _, String.utf8EncodeChar_eq_cons_cons_cons h3, by simp [h3], le_three _, not_continues_three _, ?_⟩
    simp [continues_tail]
  · refine ⟨_, _, String.utf8EncodeChar_eq_cons_cons_cons_cons h4, by simp [h4], le_four _, not_continues_four _, ?_⟩
    simp [continues_tail]

/-- A character of one byte is below 128, and the byte is the character. -/
theorem encodeChar_of_one {c : Char} (h : c.utf8Size = 1) :
    String.utf8EncodeChar c = [c.val.toUInt8] ∧ c.toNat < 128 ∧ c.val.toUInt8.toNat = c.toNat := by
  have hlt : c.toNat < 128 := by
    rw [Char.utf8Size_eq_one_iff, UInt32.le_iff_toNat_le] at h
    have : (0x7f : UInt32).toNat = 127 := rfl
    rw [this] at h
    exact Nat.lt_succ_of_le h
  refine ⟨String.utf8EncodeChar_eq_singleton h, hlt, ?_⟩
  have hval : c.val.toNat < 256 := Nat.lt_trans hlt (by decide)
  rw [UInt32.toNat_toUInt8]
  exact Nat.mod_eq_of_lt hval

theorem not_continues_of_lt : ∀ x : UInt8, x < 128 → continues x = false := forall_byte (by decide)

/-- A character's bytes begin with one that does not go on. -/
theorem encodeChar_head (c : Char) :
    ∃ b rest, String.utf8EncodeChar c = b :: rest ∧ rest.length = c.utf8Size - 1 ∧ continues b = false ∧
      (∀ x ∈ rest, continues x = true) := by
  by_cases h : c.utf8Size = 1
  · obtain ⟨he, hlt, hv⟩ := encodeChar_of_one h
    refine ⟨c.val.toUInt8, [], he, by simp [h], not_continues_of_lt _ ?_, by simp⟩
    rw [UInt8.lt_iff_toNat_lt, hv]
    exact hlt
  · have := c.utf8Size_pos
    obtain ⟨b, rest, he, hlen, -, hb, hrest⟩ := encodeChar_of_two_le (c := c) (by omega)
    exact ⟨b, rest, he, hlen, hb, hrest⟩

theorem le_of_secondFits {b x : UInt8} (h : secondFits b x = true) : 128 ≤ x := by
  simp only [secondFits, Bool.or_eq_true, Bool.and_eq_true, decide_eq_true_eq, UInt8.le_iff_toNat_le] at h ⊢
  have h80 : (0x80 : UInt8).toNat = 128 := rfl
  have h90 : (0x90 : UInt8).toNat = 144 := rfl
  have hA0 : (0xA0 : UInt8).toNat = 160 := rfl
  have h128 : (128 : UInt8).toNat = 128 := rfl
  omega

/-- A broken sequence is no longer than the bytes, and has nothing below 128 past its first byte. -/
theorem le_of_mem_broken (b : UInt8) (bs : List UInt8) : ∀ x ∈ bs.take (brokenLength (b :: bs) - 1), 128 ≤ x := by
  match bs with
  | [] => simp
  | x :: rest =>
    simp only [brokenLength]
    by_cases hs : secondFits b x = true
    · have hx := le_of_secondFits hs
      rw [if_pos hs]
      split
      · rename_i hy
        match rest with
        | [] => simp at hy
        | y :: rest =>
          have hy : continues y = true := by simpa using (Bool.and_eq_true_iff.1 hy).2
          intro z hz
          simp only [Nat.reduceSub, List.take_succ_cons, List.take_zero, List.mem_cons, List.not_mem_nil, or_false] at hz
          rcases hz with rfl | rfl
          · exact hx
          · exact le_of_continues _ hy
      · intro z hz
        simp only [Nat.reduceSub, List.take_succ_cons, List.take_zero, List.mem_cons, List.not_mem_nil, or_false] at hz
        rw [hz]
        exact hx
    · rw [if_neg hs]
      simp

/-- What the first character takes of the bytes. -/
theorem exists_of_decode {bs : List UInt8} {c : Char} (h : bs.toByteArray.utf8DecodeChar? 0 = some c) :
    ∃ rest, bs = String.utf8EncodeChar c ++ rest := by
  obtain ⟨l, hl⟩ := ByteArray.exists_of_utf8DecodeChar?_eq_some h
  refine ⟨l.data.toList, ?_⟩
  rw [← List.toList_data_toByteArray (l := bs), hl]
  simp

/-- A byte below 128 is read as the character it is. -/
theorem decode_of_lt {c : Char} (h : c.utf8Size = 1) (bs : List UInt8) :
    (c.val.toUInt8 :: bs).toByteArray.utf8DecodeChar? 0 = some c := by
  have hd := @ByteArray.utf8DecodeChar?_utf8EncodeChar_append bs.toByteArray c
  rwa [(encodeChar_of_one h).1, ← List.toByteArray_append] at hd

/-- Every byte below 128 is some character. -/
theorem exists_char {b : UInt8} (h : b < 128) : ∃ c : Char, c.utf8Size = 1 ∧ c.val.toUInt8 = b := by
  have hlt : b.toNat < 128 := UInt8.lt_iff_toNat_lt.1 h
  have hval : (Char.ofUInt8 b).val = b.toUInt32 := rfl
  refine ⟨Char.ofUInt8 b, ?_, by simp [hval]⟩
  rw [Char.utf8Size_eq_one_iff, UInt32.le_iff_toNat_le]
  have : (Char.ofUInt8 b).val.toNat = b.toNat := by simp [hval]
  rw [this]
  exact Nat.le_of_lt_succ hlt

theorem byte_inj {c d : Char} (hc : c.utf8Size = 1) (hd : d.utf8Size = 1) (h : c.val.toUInt8 = d.val.toUInt8) : c = d := by
  have htext : utf8 [c] = utf8 [d] := by
    rw [utf8_cons, utf8_cons, (encodeChar_of_one hc).1, (encodeChar_of_one hd).1, h]
  exact (List.cons.inj (utf8_inj htext)).1

/-- Reading a text's bytes, broken or not, neither makes nor loses a character below 128. -/
theorem count_lossy {c : Char} (h : c.utf8Size = 1) (bs : List UInt8) : (lossy bs).count c = bs.count c.val.toUInt8 := by
  have hb : c.val.toUInt8 < 128 := by
    rw [UInt8.lt_iff_toNat_lt, (encodeChar_of_one h).2.2]
    exact (encodeChar_of_one h).2.1
  have hnot : ∀ l : List UInt8, (∀ x ∈ l, 128 ≤ x) → l.count c.val.toUInt8 = 0 := by
    intro l hl
    apply List.count_eq_zero.2
    intro hm
    exact absurd (hl _ hm) (UInt8.not_le.2 hb)
  -- on the number of bytes: each step reads at least one
  induction hn : bs.length using Nat.strongRecOn generalizing bs with
  | _ n ih =>
    cases bs with
    | nil => rfl
    | cons b bs =>
      cases hd : (b :: bs).toByteArray.utf8DecodeChar? 0 with
      | some d =>
        obtain ⟨rest, he⟩ := exists_of_decode hd
        have hlen := congrArg List.length he
        have hpos := d.utf8Size_pos
        rw [List.length_append, String.length_utf8EncodeChar] at hlen
        rw [he, lossy_encodeChar_append, List.count_append, List.count_cons, ih rest.length (by omega) rest rfl]
        by_cases hd1 : d.utf8Size = 1
        · rw [(encodeChar_of_one hd1).1, List.count_singleton, Nat.add_comm]
          congr 1
          by_cases hcd : d = c
          · simp [hcd]
          · have hbyte : d.val.toUInt8 ≠ c.val.toUInt8 := fun hv => hcd (byte_inj hd1 h hv)
            rw [beq_false_of_ne hcd, beq_false_of_ne hbyte]
        · have hne : (d == c) = false := by
            apply beq_false_of_ne
            rintro rfl
            exact hd1 h
          obtain ⟨x, tail, hx, -, hx128, -, htail⟩ := encodeChar_of_two_le (c := d) (by omega)
          have hall : ∀ y ∈ String.utf8EncodeChar d, 128 ≤ y := by
            rw [hx]
            intro y hy
            rcases List.mem_cons.1 hy with rfl | hy
            · exact hx128
            · exact le_of_continues y (htail y hy)
          rw [hne, hnot _ hall]
          simp
      | none =>
        have hb128 : 128 ≤ b := by
          apply UInt8.not_lt.1
          intro hlt
          obtain ⟨d, hd1, rfl⟩ := exists_char hlt
          rw [decode_of_lt hd1] at hd
          cases hd
        have hsplit := List.take_append_drop (brokenLength (b :: bs) - 1) bs
        unfold lossy
        rw [lossyFrom, hd]
        simp only
        rw [lossyFrom_eq_drop, List.count_cons_of_ne (by rintro rfl; exact absurd h (by decide))]
        have hshort : (bs.drop (brokenLength (b :: bs) - 1)).length < n := by
          rw [← hn, List.length_drop, List.length_cons]
          omega
        have hrest := ih _ hshort _ rfl
        unfold lossy at hrest
        rw [hrest, List.count_cons_of_ne (by rintro rfl; exact absurd hb128 (UInt8.not_le.2 hb))]
        conv => rhs; rw [← hsplit, List.count_append, hnot _ (le_of_mem_broken b bs), Nat.zero_add]

end Lib
