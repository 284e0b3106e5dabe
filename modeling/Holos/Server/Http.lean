import Holos.Engine.Percent
import Holos.Lib.Assoc
import Holos.Lib.Text
/-!
# Parameters

The parameters of a URL or a form-encoded body, as a map. A key keeps its first value, but for
the four that build a dataset, whose values are joined by line breaks. `none` is a panic.
-/

namespace Holos.Server

open Lib Engine

/-- Percent-decoding, with `+` meaning space. -/
def decode (s : List Char) : Option (List Char) := (percentLoop true (utf8 s)).map lossy

/-- Before and behind the first of a character. -/
def splitOnce (sep : Char) (s : List Char) : Option (List Char × List Char) :=
  if sep ∈ s then some (s.takeWhile (· ≠ sep), (s.dropWhile (· ≠ sep)).tail) else none

/-- Parameters that may appear more than once. -/
def repeatable : List (List Char) :=
  ["default-graph-uri".toList, "named-graph-uri".toList, "using-graph-uri".toList, "using-named-graph-uri".toList]

abbrev Params := List (List Char × List Char)

/-- One more pair. -/
def addParam (out : Params) (key text : List Char) : Params :=
  if key ∈ repeatable then
    let joined := match value key out with
      | some existing => existing ++ '\n' :: text
      | none => text
    entry [] (fun _ => joined) key out
  else if (value key out).isSome then out else entry [] (fun _ => text) key out

def pairsOf (body : List Char) : List (List Char) := (body.splitOn '&').filter (!·.isEmpty)

/-- One pair of a form is read. -/
def readPair (out : Params) (pair : List Char) : Option Params := do
  let (key, text) := (splitOnce '=' pair).getD (pair, [])
  let key ← decode key
  let text ← decode text
  return addParam out key text

/-- Parses `application/x-www-form-urlencoded` into its parameters. -/
def parseForm (body : List Char) : Option Params := (pairsOf body).foldlM readPair []

def countPair (key : List Char) (n : Nat) (pair : List Char) : Option Nat := do
  let name := (splitOnce '=' pair).elim pair (·.1)
  return if (← decode name) = key then n + 1 else n

/-- Whether a parameter is given more than once, which the map no longer tells. -/
def givenMoreThanOnce (encoded key : List Char) : Option Bool :=
  ((pairsOf encoded).foldlM (countPair key) 0).map fun count => 1 < count

/-- Every value given for a repeatable parameter. -/
def values (params : Params) (key : List Char) : List (List Char) :=
  match value key params with
  | some v => ((v.splitOn '\n').map trim).filter (!·.isEmpty)
  | none => []

/-- Splits a URL into its path and decoded query parameters. -/
def splitUrl (url : List Char) : Option (List Char × Params) :=
  match splitOnce '?' url with
  | none => some (url, [])
  | some (path, query) => (parseForm query).map (path, ·)

end Holos.Server
