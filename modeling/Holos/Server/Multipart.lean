import Holos.Lib.Find
import Holos.Lib.Utf8
import Holos.Server.Dispatch
/-!
# Multipart bodies

The typed parts of a `multipart/form-data` body, and the parameter of a content type that says
how they are kept apart. `none` is a slice out of range, or a scan that has run out of fuel.
-/

namespace Holos.Server

open Lib

abbrev Bytes := List UInt8

def sliceFrom (body : Bytes) (i : Nat) : Option Bytes := if i ≤ body.length then some (body.drop i) else none

def slice (body : Bytes) (i j : Nat) : Option Bytes :=
  if i ≤ j ∧ j ≤ body.length then some ((body.take j).drop i) else none

def crlf : Bytes := [13, 10]

def lf : Bytes := [10]

/-- What ends a body, behind its last delimiter. -/
def dashes : Bytes := [45, 45]

def delimiter (boundary : List Char) : Bytes := utf8 ('-' :: '-' :: boundary)

/-- Past the line break behind a delimiter. -/
def skipLine (rest : Bytes) (start : Nat) : Nat :=
  if crlf.isPrefixOf rest then start + 2 else if lf.isPrefixOf rest then start + 1 else start

/-- What stands between delimiters, from `start` on. -/
def pieces (delimiter body : Bytes) : Nat → Nat → Option (List Bytes)
  | 0, _ => none
  | fuel + 1, start => do
    match find (← sliceFrom body start) delimiter with
    | none => return []
    | some i =>
      let found := start + i
      -- the two bytes before a delimiter are the line break that ends the part
      let piece ← if 0 < start then (slice body start (max (found - 2) start)).map ([·]) else some []
      let start := found + delimiter.length
      let rest ← sliceFrom body start
      if dashes.isPrefixOf rest then return piece
      else return piece ++ (← pieces delimiter body fuel (skipLine rest start))

/-- The lines of a text. A carriage return goes with the line feed behind it, and a last line may
have none. -/
def strLines (s : List Char) : List (List Char) :=
  let lines := s.splitOn '\n'
  lines.dropLast.map (fun line => if line.getLast? = some '\r' then line.dropLast else line) ++
    lines.getLast?.toList.filter (!·.isEmpty)

/-- The media type a line gives. -/
def mediaLine (line : List Char) : Option (List Char) :=
  (splitOnce ':' line).bind fun (name, v) =>
    if (trim name).map Char.toLower = "content-type".toList then some (trim v) else none

/-- Where the headers end, and how wide the blank line is. -/
def blankLine (part : Bytes) : Option (Nat × Nat) :=
  ((find part (crlf ++ crlf)).map (·, 4)).or ((find part (lf ++ lf)).map (·, 2))

/-- The content of one part and its media type, where it has one. -/
def readPart (part : Bytes) : Option (List (Bytes × List Char)) :=
  match blankLine part with
  | none => some []
  | some (i, width) => do
    let headers ← slice part 0 i
    let content ← sliceFrom part (i + width)
    return (((strLines (lossy headers)).findSome? mediaLine).map (content, ·)).toList

/-- Splits a `multipart/form-data` body into its typed parts. -/
def multipartParts (body : Bytes) (boundary : List Char) : Option (List (Bytes × List Char)) := do
  let parts ← pieces (delimiter boundary) body (body.length + 1) 0
  return (← parts.mapM readPart).flatten

/-- The `boundary=` parameter of a `multipart/form-data` content type. -/
def multipartBoundary (contentType : List Char) : Option (List Char) :=
  if ((contentType.splitOn ';').head?.map fun m => (trim m).map Char.toLower) = some "multipart/form-data".toList then
    (contentType.splitOn ';').findSome? fun p =>
      (splitOnce '=' p).bind fun (name, v) =>
        if (trim name).map Char.toLower = "boundary".toList then some (trimMatches '"' (trim v)) else none
  else none

end Holos.Server
