import Holos.Server.Http
import Holos.Server.Principals
/-!
# Where a request is taken

The three routes that run SPARQL: what each makes of the URL's parameters and the body's before
it hands them on, and what of them is read there. A new IRI may be no IRI, which `newNode` says.
-/

namespace Holos.Server

open Lib

/-- A request. The body is `none` where it cannot be read as text. -/
structure Call where
  method : String
  url : List Char
  request : Request
  body : Option (List Char)

/-- What is done about a request. -/
inductive Taken where
  | answer (query : List Char) (params : Params)
  | applyUpdate (update : List Char) (params : Params)
  | badRequest (why : List Char)
  | readOnly
  | unread
  | elsewhere
deriving DecidableEq

/-- Whether a protocol parameter was given more than once, as a message saying so. -/
def repeated (encoded key : List Char) : Option (Option (List Char)) :=
  (givenMoreThanOnce encoded key).map fun twice =>
    if twice then some ("the request carries more than one '".toList ++ key ++ "' parameter".toList) else none

def trimMatches (c : Char) (s : List Char) : List Char := ((s.dropWhile (· == c)).reverse.dropWhile (· == c)).reverse

/-- The charset a content type declares. -/
def charsetOf (contentType : List Char) : Option (List Char) :=
  (contentType.splitOn ';').tail.findSome? fun p =>
    (splitOnce '=' p).bind fun (name, v) =>
      if (trim name).map Char.toLower == "charset".toList then some ((trimMatches '"' (trim v)).map Char.toLower) else none

/-- Whether a POST body cannot be used, given its declared content type. -/
def unusableBody (contentType : Option String) : Option (List Char) :=
  match contentType with
  | none => some ("a POST body needs a Content-Type: application/sparql-query, application/sparql-update, or " ++
      "application/x-www-form-urlencoded").toList
  | some c =>
    (charsetOf c.toList).bind fun charset =>
      if charset ≠ "utf-8".toList ∧ charset ≠ "utf8".toList then
        some ("the protocol requires UTF-8; this request declares `".toList ++ charset ++ "`".toList)
      else none

def startsWith (mediaType : String) (contentType : Option String) : Bool :=
  contentType.any fun c => mediaType.toList.isPrefixOf c.toList

def queryKey : List Char := "query".toList

def updateKey : List Char := "update".toList

def missing (key : List Char) : Taken := .badRequest ("missing the '".toList ++ key ++ "' parameter".toList)

/-- `GET /query`. -/
def getQuery (queryString : List Char) (params : Params) : Option Taken := do
  match ← repeated queryString queryKey with
  | some why => return .badRequest why
  | none =>
    match value queryKey params with
    | none => return missing queryKey
    | some query => return .answer query params

/-- The text a body carries under a key, directly or in a form, and the form. -/
def bodyText (direct : Bool) (key body : List Char) : Option (Except Taken (List Char × Params)) := do
  if direct then return .ok (body, []) else
    match ← repeated body key with
    | some why => return .error (.badRequest why)
    | none =>
      let form ← parseForm body
      match value key form with
      | none => return .error (missing key)
      | some text => return .ok (text, form)

/-- `POST /query`. -/
def postQuery (call : Call) (queryString : List Char) (params : Params) : Option Taken := do
  let contentType := header call.request "content-type"
  match ← repeated queryString queryKey with
  | some why => return .badRequest why
  | none =>
    match unusableBody contentType, call.body with
    | some why, _ => return .badRequest why
    | none, none => return .unread
    | none, some body =>
      match ← bodyText (startsWith "application/sparql-query" contentType) queryKey body with
      | .error taken => return taken
      | .ok (query, _) => return .answer query params

/-- What neither place gives twice. -/
def mergeForm (params form : Params) : Params :=
  form.foldl (fun merged p => if (value p.1 merged).isSome then merged else entry [] (fun _ => p.2) p.1 merged) params

/-- `POST /update`. -/
def postUpdate (readOnly : Bool) (call : Call) (queryString : List Char) (params : Params) : Option Taken := do
  let contentType := header call.request "content-type"
  if readOnly then return .readOnly else
    match ← repeated queryString updateKey with
    | some why => return .badRequest why
    | none =>
      match unusableBody contentType, call.body with
      | some why, _ => return .badRequest why
      | none, none => return .unread
      | none, some body =>
        match ← bodyText (startsWith "application/sparql-update" contentType) updateKey body with
        | .error taken => return taken
        | .ok (update, form) => return .applyUpdate update (mergeForm params form)

def dispatch (readOnly : Bool) (call : Call) : Option Taken := do
  let (path, params) ← splitUrl call.url
  let queryString := (splitOnce '?' call.url).elim [] (·.2)
  if call.method = "GET" ∧ path = "/query".toList then getQuery queryString params
  else if call.method = "POST" ∧ path = "/query".toList then postQuery call queryString params
  else if call.method = "POST" ∧ path = "/update".toList then postUpdate readOnly call queryString params
  else return .elsewhere

/-! ## What is read of the parameters -/

/-- Of the options of a query, those the parameters decide. -/
structure QueryOptions where
  defaultGraphs : List NamedNode
  namedGraphs : List NamedNode
  explain : Bool

/-- The graphs a key names. -/
def graphsOf (newNode : List Char → Except (List Char) NamedNode) (params : Params) (key : List Char) :
    Except (List Char) (List NamedNode) :=
  (values params key).mapM fun iri => (newNode iri).mapError fun e => key ++ " `".toList ++ iri ++ "`: ".toList ++ e

def queryOptions (newNode : List Char → Except (List Char) NamedNode) (params : Params) : Except (List Char) QueryOptions := do
  let defaultGraphs ← graphsOf newNode params "default-graph-uri".toList
  let namedGraphs ← graphsOf newNode params "named-graph-uri".toList
  return ⟨defaultGraphs, namedGraphs, (value "explain".toList params).isSome⟩

/-- The graphs `using-graph-uri` and `using-named-graph-uri` name. -/
def namedDataset (newNode : List Char → Except (List Char) NamedNode) (params : Params) :
    Except (List Char) (List NamedNode × List NamedNode) := do
  return (← graphsOf newNode params "using-graph-uri".toList, ← graphsOf newNode params "using-named-graph-uri".toList)

end Holos.Server
