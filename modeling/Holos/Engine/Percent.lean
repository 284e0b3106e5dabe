import Holos.Core
import Holos.Lib.Percent
/-!
# Reading percent escapes

One loop over the bytes of a text, which slices two bytes behind a `%` out of the text and has
the standard library read them as a number. The slice panics where it would cut a character in
two, and the library reads a sign where a digit should be. A text is the list of its characters.
-/

namespace Holos.Engine

open Lib

/-- A byte as a number in base sixteen: a leading `+` is let through. -/
def fromStrRadix16 (src : List UInt8) : Option UInt8 :=
  let digits := if src.head? == some 43 && 1 < src.length then src.tail else src
  if digits.isEmpty then none
  else
    (digits.foldlM (fun n b => do
      let d ← hexValue b
      if n * 16 + d < 256 then some (n * 16 + d) else none) 0).map UInt8.ofNat

/-- The loop, on the bytes from where it stands. `none` is a panic: the slice of the two bytes
behind a `%` has to begin and to end between characters. -/
def percentLoop (form : Bool) : List UInt8 → Option (List UInt8)
  | [] => some []
  | b :: bs =>
    if form && b == 43 then (percentLoop form bs).map (32 :: ·)
    else match bs with
      | x :: y :: rest =>
        if b == 37 then
          if continues x || rest.head?.any continues then none
          else match fromStrRadix16 [x, y] with
            | some byte => (percentLoop form rest).map (byte :: ·)
            | none => (percentLoop form (x :: y :: rest)).map (b :: ·)
        else (percentLoop form (x :: y :: rest)).map (b :: ·)
      | bs => (percentLoop form bs).map (b :: ·)

/-- The path of a `file:` URL. -/
def percentDecode (s : List Char) : Option (List Char) := (percentLoop false (utf8 s)).map lossy

/-! ## `spif:encodeURL` and `spif:decodeURL` -/

/-- The text of a term that has one. -/
def text : Term → Option String
  | .literal l => some l.value
  | .namedNode n => some n
  | .blankNode b => some b
  | .triple _ _ _ => none

def stringOut (s : List Char) : Term := .literal (.simple (String.ofList s))

/-- What a byte is written as: itself where it is unreserved. -/
def escapeByte (b : UInt8) : List Char :=
  let c := Char.ofUInt8 b
  if c.isAlphanum ∨ c ∈ ['-', '_', '.', '~'] then [c] else percentByte b

def spifEncodeUrl (a : List Term) : Option Term := do
  let s ← text (← a.head?)
  return stringOut ((utf8 s.toList).flatMap escapeByte)

/-- The outer `none` is a panic. -/
def spifDecodeUrl (a : List Term) : Option (Option Term) :=
  match a.head?.bind text with
  | none => some none
  | some s => (percentLoop false (utf8 s.toList)).map fun out => some (stringOut (lossy out))

end Holos.Engine
