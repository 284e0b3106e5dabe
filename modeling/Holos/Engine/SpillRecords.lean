import Holos.Engine.SpillRows
import Holos.Store.Codec
/-!
# Records of a run

What a run file gives out record by record, and the two ceilings: what a length field can say, and what
the runs may take on disk.
-/

namespace Holos.Engine.Spill

open Inline (utf8)
open Lib.Bytes (be)

variable {F : TextForm}

variable {row : Live} {width : Nat}

theorem length_slotsOf (row : Live) (width : Nat) : (slotsOf row width).length = width := by simp [slotsOf]

theorem slotsOf_self (h : row.length = width) : slotsOf row width = row := by
  subst h
  apply List.ext_getElem
  · exact length_slotsOf row _
  · intro i _ hi
    simp [slotsOf, hi]

theorem encodeRow_slotsOf (row : Live) (width : Nat) : encodeRow F (slotsOf row width) width = encodeRow F row width := by
  rw [encodeRow, slotsOf_self (length_slotsOf row width), encodeRow]

theorem length_encodeSlot (term : Term) : (encodeSlot F (some term)).length = 5 + (utf8 (F.toText term)).length := by
  rw [encodeSlot, List.length_cons, List.length_append, Lib.Bytes.length_be]
  omega

/-- The texts of a record whose length can be said have lengths that can be said. -/
theorem text_short {slots : Live} (h : Short (slots.flatMap (encodeSlot F))) :
    ∀ term, some term ∈ slots → (utf8 (F.toText term)).length < 2 ^ 32 := by
  intro term hterm
  obtain ⟨before, after, rfl⟩ := List.append_of_mem hterm
  unfold Short at h
  rw [List.flatMap_append, List.flatMap_cons, List.length_append, List.length_append, length_encodeSlot] at h
  omega

theorem decode_encodeRow (hparse : ParsesBack F (slotsOf row width)) (hshort : Short (encodeRow F row width)) :
    decode F (encodeRow F row width) width = slotsOf row width := by
  have hread := decodeAt_encode hparse (text_short hshort) [] []
  rw [length_slotsOf, List.nil_append, List.append_nil] at hread
  exact congrArg Prod.fst hread

theorem nextRecord_run {rows : List Row} (h : ∀ row ∈ rows, Short row) :
    nextRecord (rows.flatMap writeRow) = .ok (rows.head?, rows.tail.flatMap writeRow) := by
  cases rows with
  | nil => exact nextRecord_nil
  | cons row rows => exact nextRecord_writeRow (h row List.mem_cons_self) _

/-- A run that has a record left gives it; reading one that has none changes nothing. -/
theorem nextRecord_source {files : List (List Row)} (h : ∀ file ∈ files, ∀ row ∈ file, Short row) (source : Nat) :
    (∃ row rest, files[source]? = some (row :: rest) ∧
      nextRecord ((files.map (fun file => file.flatMap writeRow))[source]?.getD []) = .ok (some row, rest.flatMap writeRow)) ∨
    ((∀ row rest, files[source]? ≠ some (row :: rest)) ∧
      nextRecord ((files.map (fun file => file.flatMap writeRow))[source]?.getD []) = .ok (none, []) ∧
      (files.map (fun file => file.flatMap writeRow)).set source [] = files.map (fun file => file.flatMap writeRow)) := by
  rw [List.getElem?_map]
  match hget : files[source]? with
  | none =>
    refine .inr ⟨by simp, nextRecord_nil, ?_⟩
    rw [List.set_eq_of_length_le]
    rw [List.length_map]
    exact List.getElem?_eq_none_iff.1 hget
  | some [] =>
    obtain ⟨hlt, hval⟩ := List.getElem?_eq_some_iff.1 hget
    refine .inr ⟨by simp, nextRecord_nil, ?_⟩
    have hsame : files.set source [] = files := by
      rw [← hval, List.set_getElem_self]
    calc (files.map (fun file => file.flatMap writeRow)).set source []
        = (files.set source []).map (fun file => file.flatMap writeRow) := by rw [List.map_set]; rfl
      _ = files.map (fun file => file.flatMap writeRow) := by rw [hsame]
  | some (row :: rest) =>
    exact .inl ⟨row, rest, rfl, nextRecord_run (h _ (List.mem_of_getElem? hget))⟩

theorem short_set {files : List (List Row)} {source : Nat} {row : Row} {rest : List Row} (h : ∀ file ∈ files, ∀ row ∈ file, Short row)
    (hget : files[source]? = some (row :: rest)) : ∀ file ∈ files.set source rest, ∀ row ∈ file, Short row := by
  intro file hfile k hk
  rcases List.mem_or_eq_of_mem_set hfile with hfile | rfl
  · exact h file hfile k hk
  · exact h _ (List.mem_of_getElem? hget) k (List.mem_cons_of_mem _ hk)

theorem overDiskLimit_error {written limit : Nat} (h : limit ≠ 0 ∧ written > limit) :
    overDiskLimit written limit = .error (.diskLimitExceeded written limit) := if_pos h

theorem overDiskLimit_ok {written limit : Nat} (h : ¬(limit ≠ 0 ∧ written > limit)) : overDiskLimit written limit = .ok () := if_neg h

/-! ## Past the length field -/

/-- A record one byte too long for its length field is cut by a byte, and what is left of the run is no
record. -/
theorem nextRecord_long {row : Row} (h : row.length = 2 ^ 32) :
    nextRecord (writeRow row) = .ok (some (row.take (2 ^ 32 - 1)), row.drop (2 ^ 32 - 1)) ∧
      nextRecord (row.drop (2 ^ 32 - 1)) = .ok (none, []) := by
  have hfield : lengthField row.length = 2 ^ 32 - 1 := by
    rw [h]
    exact if_neg (Nat.lt_irrefl _)
  have hread : Lib.Bytes.ofLe (Lib.Bytes.le 4 (2 ^ 32 - 1)) = 2 ^ 32 - 1 := @Lib.Bytes.ofLe_le 4 _ (by norm_num)
  have htake : (writeRow row).take 4 = Lib.Bytes.le 4 (2 ^ 32 - 1) := by
    rw [writeRow, hfield]
    exact List.take_left' (Lib.Bytes.length_le 4 _)
  have hdrop : (writeRow row).drop 4 = row := by
    rw [writeRow, hfield]
    exact List.drop_left' (Lib.Bytes.length_le 4 _)
  have hlong : ¬(writeRow row).length < 4 := by
    rw [writeRow, List.length_append, Lib.Bytes.length_le]
    omega
  refine ⟨?_, ?_⟩
  · unfold nextRecord
    rw [if_neg hlong, htake, hdrop, hread]
    dsimp only
    rw [if_neg (by rw [h]; omega)]
  · unfold nextRecord
    rw [if_pos (by rw [List.length_drop, h]; omega)]

/-- A row of one term whose record is so long is read as a row with nothing bound. -/
theorem decode_long {term : Term} (h : (utf8 (F.toText term)).length = 2 ^ 32 - 5) :
    (encodeRow F [some term] 1).length = 2 ^ 32 ∧ decode F ((encodeRow F [some term] 1).take (2 ^ 32 - 1)) 1 = [none] := by
  have hrow : encodeRow F [some term] 1 = [1] ++ (be 4 (2 ^ 32 - 5) ++ utf8 (F.toText term)) := by
    have hfield : lengthField (2 ^ 32 - 5) = 2 ^ 32 - 5 := lengthField_eq (by norm_num)
    simp only [encodeRow, slotsOf_self (show ([some term] : Live).length = 1 from rfl), List.flatMap_cons, List.flatMap_nil, List.append_nil,
      encodeSlot, h, hfield]
    rfl
  have hlen : (encodeRow F [some term] 1).length = 2 ^ 32 := by
    rw [hrow, List.length_append, List.length_append, Lib.Bytes.length_be, h, List.length_singleton]
    norm_num
  refine ⟨hlen, ?_⟩
  have hcut : ((encodeRow F [some term] 1).take (2 ^ 32 - 1)).length = 2 ^ 32 - 1 := by
    rw [List.length_take, hlen]
    norm_num
  have hcutEq : (encodeRow F [some term] 1).take (2 ^ 32 - 1) =
      [1] ++ be 4 (2 ^ 32 - 5) ++ (utf8 (F.toText term)).take (2 ^ 32 - 6) := by
    rw [hrow, ← List.append_assoc, List.take_append, List.take_of_length_le]
    · congr 2
    · rw [List.length_append, Lib.Bytes.length_be, List.length_singleton]
      norm_num
  generalize (encodeRow F [some term] 1).take (2 ^ 32 - 1) = cut at hcut hcutEq ⊢
  have hfirst : cut[0]? = some 1 := by rw [hcutEq]; rfl
  have hlength : getRange cut (0 + 1) (0 + 1 + 4) = some (be 4 (2 ^ 32 - 5)) := by
    have := getRange_append [1] (be 4 (2 ^ 32 - 5)) ((utf8 (F.toText term)).take (2 ^ 32 - 6))
    rwa [← hcutEq, Lib.Bytes.length_be] at this
  have hofbe : Lib.Bytes.ofBe (be 4 (2 ^ 32 - 5)) = 2 ^ 32 - 5 := @Lib.Bytes.ofBe_be 4 _ (by norm_num)
  have htext : getRange cut (0 + 1 + 4) (0 + 1 + 4 + (2 ^ 32 - 5)) = none := by
    unfold getRange
    rw [if_neg]
    rw [hcut]
    omega
  rw [decode, decodeAt_bound hfirst hlength, hofbe, htext]
  rfl

/-- IRIs in angle brackets. -/
def angled : TextForm where
  toText
    | .namedNode n => "<" ++ n ++ ">"
    | _ => ""
  parse text :=
    match text.toList with
    | '<' :: rest => if rest.getLast? = some '>' then some (.namedNode (String.ofList rest.dropLast)) else none
    | _ => none

theorem angled_parse (n : NamedNode) : angled.parse (angled.toText (.namedNode n)) = some (.namedNode n) := by
  simp [angled]

theorem angled_long : (utf8 (angled.toText (.namedNode (Codec.longDatatype (2 ^ 32 - 7))))).length = 2 ^ 32 - 5 := by
  have happend : ∀ a b : String, utf8 (a ++ b) = utf8 a ++ utf8 b := by
    intro a b
    simp [utf8]
  have htext : angled.toText (.namedNode (Codec.longDatatype (2 ^ 32 - 7))) = "<" ++ Codec.longDatatype (2 ^ 32 - 7) ++ ">" := rfl
  have hopen : (utf8 "<").length = 1 := by decide
  have hclose : (utf8 ">").length = 1 := by decide
  rw [htext, happend, happend, List.length_append, List.length_append, Codec.length_longDatatype, hopen, hclose]
  norm_num

end Holos.Engine.Spill
