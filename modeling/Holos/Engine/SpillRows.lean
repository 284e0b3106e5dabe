import Holos.Core
import Holos.Inline
import Holos.Lib.Bytes
/-!
# Rows as bytes

What a spilling operator writes: a slot for each variable, unbound marked, bound as the text of the
term with its length before it; a record with its length before it; and the reading of both. A length
that its four bytes cannot say is written as the largest they can.

The text form of terms is `oxrdf`'s, taken as `TextForm`.
-/

namespace Holos.Engine.Spill

open Lib.Bytes
open Inline (utf8 fromUtf8)

/-- How a term is printed, and read back. -/
structure TextForm where
  toText : Term → String
  parse : String → Option Term

/-- One row as held in memory. -/
abbrev Live := List (Option Term)

/-- One encoded row. -/
abbrev Row := List UInt8

inductive SpillError where
  | unexpectedEof
  | diskLimitExceeded (written limit : Nat)
deriving DecidableEq, Repr

variable (F : TextForm)

/-- `u32::try_from(n).unwrap_or(u32::MAX)`. -/
def lengthField (n : Nat) : Nat := if n < 2 ^ 32 then n else 2 ^ 32 - 1

def encodeSlot : Option Term → Row
  | none => [0]
  | some term => 1 :: (be 4 (lengthField (utf8 (F.toText term)).length) ++ utf8 (F.toText term))

/-- The slots of a row. -/
def slotsOf (row : Live) (width : Nat) : Live := (List.range width).map (fun slot => row[slot]?.join)

/-- A row as bytes: one slot per variable. -/
def encodeRow (row : Live) (width : Nat) : Row := (slotsOf row width).flatMap (encodeSlot F)

/-- `row.get(from..upto)`. -/
def getRange (row : Row) (start upto : Nat) : Option Row :=
  if start ≤ upto ∧ upto ≤ row.length then some ((row.take upto).drop start) else none

/-- The terms an encoded row holds from an offset on, and where it stopped. A term that does not parse
back comes out unbound. -/
def decodeAt (row : Row) : Nat → Nat → Live × Nat
  | 0, at_ => ([], at_)
  | width + 1, at_ =>
    match row[at_]? with
    | some 0 =>
      let (rest, stop) := decodeAt row width (at_ + 1)
      (none :: rest, stop)
    | some _ =>
      match getRange row (at_ + 1) (at_ + 1 + 4) with
      | none =>
        let (rest, stop) := decodeAt row width (at_ + 1)
        (none :: rest, stop)
      | some length =>
        let end_ := at_ + 1 + 4 + ofBe length
        let text := (getRange row (at_ + 1 + 4) end_).bind fromUtf8
        let (rest, stop) := decodeAt row width end_
        (text.bind F.parse :: rest, stop)
    | none =>
      let (rest, stop) := decodeAt row width at_
      (none :: rest, stop)

def decode (row : Row) (width : Nat) : Live := (decodeAt F row width 0).1

/-! ## Runs -/

/-- One length-prefixed record, as it is written. -/
def writeRow (row : Row) : List UInt8 := le 4 (lengthField row.length) ++ row

/-- How many bytes that is taken to be. -/
def writtenBytes (row : Row) : Nat := row.length + 4

/-- The next record of a run, and what is left of the file. A file that ends within a length ends
there; one that ends within a record is an error. -/
def nextRecord (file : List UInt8) : Except SpillError (Option Row × List UInt8) :=
  if file.length < 4 then .ok (none, [])
  else
    let length := ofLe (file.take 4)
    let rest := file.drop 4
    if rest.length < length then .error .unexpectedEof else .ok (some (rest.take length), rest.drop length)

/-- `Ok` while the scratch written is within the ceiling, and the breach otherwise. -/
def overDiskLimit (written limit : Nat) : Except SpillError Unit :=
  if limit ≠ 0 ∧ written > limit then .error (.diskLimitExceeded written limit) else .ok ()

/-! ## What was written is read -/

variable {F}

/-- A term whose text parses back. -/
def ParsesBack (F : TextForm) (row : Live) : Prop := ∀ term, some term ∈ row → F.parse (F.toText term) = some term

/-- A record whose length its length field can say. -/
def Short (row : Row) : Prop := row.length < 2 ^ 32

theorem lengthField_eq {n : Nat} (h : n < 2 ^ 32) : lengthField n = n := if_pos h

theorem nextRecord_writeRow {row : Row} (h : Short row) (rest : List UInt8) : nextRecord (writeRow row ++ rest) = .ok (some row, rest) := by
  have hlen : (writeRow row ++ rest).take 4 = le 4 row.length := by
    rw [writeRow, lengthField_eq h, List.append_assoc]
    exact List.take_left' (length_le 4 _)
  have hrest : (writeRow row ++ rest).drop 4 = row ++ rest := by
    rw [writeRow, lengthField_eq h, List.append_assoc]
    exact List.drop_left' (length_le 4 _)
  have hwritten : (writeRow row).length = 4 + row.length := by rw [writeRow, List.length_append, length_le]
  have hlong : ¬(writeRow row ++ rest).length < 4 := by
    rw [List.length_append, hwritten]
    omega
  have hlength : ofLe (le 4 row.length) = row.length := @ofLe_le 4 _ h
  have hwhole : ¬(row ++ rest).length < row.length := by
    rw [List.length_append]
    omega
  unfold nextRecord
  rw [if_neg hlong, hlen, hrest, hlength]
  dsimp only
  rw [if_neg hwhole, List.take_left, List.drop_left]

theorem nextRecord_nil : nextRecord [] = .ok (none, []) := rfl

theorem getRange_append (xs ys zs : Row) : getRange (xs ++ ys ++ zs) xs.length (xs.length + ys.length) = some ys := by
  rw [getRange, if_pos (by simp), List.append_assoc, List.take_append, List.drop_append]
  simp

theorem decodeAt_unbound {row : Row} {width at_ : Nat} (h : row[at_]? = some 0) :
    decodeAt F row (width + 1) at_ = (none :: (decodeAt F row width (at_ + 1)).1, (decodeAt F row width (at_ + 1)).2) := by
  simp [decodeAt, h]

theorem decodeAt_bound {row length : Row} {width at_ : Nat} (h : row[at_]? = some 1)
    (hlength : getRange row (at_ + 1) (at_ + 1 + 4) = some length) :
    decodeAt F row (width + 1) at_ =
      (((getRange row (at_ + 1 + 4) (at_ + 1 + 4 + ofBe length)).bind fromUtf8).bind F.parse ::
          (decodeAt F row width (at_ + 1 + 4 + ofBe length)).1, (decodeAt F row width (at_ + 1 + 4 + ofBe length)).2) := by
  simp [decodeAt, h, hlength]

/-- A record in which every bound slot is written whole is read back slot by slot, wherever it stands. -/
theorem decodeAt_encode {slots : Live} (hparse : ParsesBack F slots)
    (hshort : ∀ term, some term ∈ slots → (utf8 (F.toText term)).length < 2 ^ 32) (before after : Row) :
    decodeAt F (before ++ slots.flatMap (encodeSlot F) ++ after) slots.length before.length =
      (slots, before.length + (slots.flatMap (encodeSlot F)).length) := by
  induction slots generalizing before with
  | nil => simp [decodeAt]
  | cons slot slots ih =>
    have hslots : ParsesBack F slots := fun term hterm => hparse term (List.mem_cons_of_mem _ hterm)
    have hshorts : ∀ term, some term ∈ slots → (utf8 (F.toText term)).length < 2 ^ 32 :=
      fun term hterm => hshort term (List.mem_cons_of_mem _ hterm)
    -- the slot is read, and the others from where it ends
    have hrest := ih hslots hshorts (before ++ encodeSlot F slot)
    rw [List.length_append] at hrest
    have hsplit : before ++ (slot :: slots).flatMap (encodeSlot F) ++ after =
        before ++ encodeSlot F slot ++ slots.flatMap (encodeSlot F) ++ after := by
      rw [List.flatMap_cons, ← List.append_assoc before]
    have hstop : before.length + ((slot :: slots).flatMap (encodeSlot F)).length =
        before.length + (encodeSlot F slot).length + (slots.flatMap (encodeSlot F)).length := by
      rw [List.flatMap_cons, List.length_append, Nat.add_assoc]
    rw [hsplit, hstop, List.length_cons]
    cases slot with
    | none =>
      have hfirst : (before ++ encodeSlot F none ++ slots.flatMap (encodeSlot F) ++ after)[before.length]? = some 0 := by
        rw [List.append_assoc, List.append_assoc, List.getElem?_append_right (Nat.le_refl _), Nat.sub_self]
        rfl
      rw [decodeAt_unbound hfirst, show before.length + 1 = before.length + (encodeSlot F none).length from rfl, hrest]
    | some term =>
      have hlen := hshort term List.mem_cons_self
      have hlong : (encodeSlot F (some term)).length = 1 + (4 + (utf8 (F.toText term)).length) := by
        rw [encodeSlot, List.length_cons, List.length_append, length_be, Nat.add_comm]
      have hfirst : (before ++ encodeSlot F (some term) ++ slots.flatMap (encodeSlot F) ++ after)[before.length]? = some 1 := by
        rw [List.append_assoc, List.append_assoc, List.getElem?_append_right (Nat.le_refl _), Nat.sub_self]
        rfl
      have hparts : before ++ encodeSlot F (some term) ++ slots.flatMap (encodeSlot F) ++ after =
          (before ++ [1]) ++ be 4 (utf8 (F.toText term)).length ++ (utf8 (F.toText term) ++ (slots.flatMap (encodeSlot F) ++ after)) := by
        rw [encodeSlot, lengthField_eq hlen]
        simp
      have hlength : getRange (before ++ encodeSlot F (some term) ++ slots.flatMap (encodeSlot F) ++ after) (before.length + 1)
          (before.length + 1 + 4) = some (be 4 (utf8 (F.toText term)).length) := by
        have := getRange_append (before ++ [1]) (be 4 (utf8 (F.toText term)).length)
          (utf8 (F.toText term) ++ (slots.flatMap (encodeSlot F) ++ after))
        rwa [← hparts, List.length_append, length_be] at this
      have htext : getRange (before ++ encodeSlot F (some term) ++ slots.flatMap (encodeSlot F) ++ after) (before.length + 1 + 4)
          (before.length + 1 + 4 + (utf8 (F.toText term)).length) = some (utf8 (F.toText term)) := by
        have := getRange_append ((before ++ [1]) ++ be 4 (utf8 (F.toText term)).length) (utf8 (F.toText term))
          (slots.flatMap (encodeSlot F) ++ after)
        rw [List.append_assoc ((before ++ [1]) ++ _), ← hparts, List.length_append, List.length_append, length_be] at this
        exact this
      have hend : before.length + 1 + 4 + (utf8 (F.toText term)).length = before.length + (encodeSlot F (some term)).length := by
        rw [hlong]
        omega
      have hofbe : ofBe (be 4 (utf8 (F.toText term)).length) = (utf8 (F.toText term)).length := @ofBe_be 4 _ hlen
      rw [decodeAt_bound hfirst hlength, hofbe, htext, hend, hrest, Option.bind_some, Inline.fromUtf8_utf8, Option.bind_some,
        hparse term List.mem_cons_self]

end Holos.Engine.Spill
