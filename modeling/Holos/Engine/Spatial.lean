import Holos.Store.Backend
import Holos.Lib.Text
/-!
# The spatial index

The boxes of the geometry literals of a store. The index follows the dictionary: every literal id below
its watermark has been read. A purge takes out the geometries that no quad refers to and keeps their
ids on a watchlist, which a refresh goes through when the store has grown.

Parsing and boxes are the geometry crates', taken as `Geo`. The tree is the list of what was put in
it; repacking it changes nothing it holds.
-/

namespace Holos.Spatial

/-- What the geometry crates make of text, and of what it stands for. -/
structure Geo where
  Geometry : Type
  Rect : Type
  parseWkt : String → Option Geometry
  parseGeoJson : String → Option Geometry
  boundingRect : Geometry → Option Rect
  isFinite : Rect → Bool
  intersects : Rect → Rect → Bool

def wktLiteral : NamedNode := "http://www.opengis.net/ont/geosparql#wktLiteral"

def geoJsonLiteral : NamedNode := "http://www.opengis.net/ont/geosparql#geoJSONLiteral"

variable (G : Geo)

/-- The geometry a term is, which its datatype decides. -/
def geometryOf : Term → Option G.Geometry
  | .literal l =>
    let value := String.ofList (Lib.trim l.value.toList)
    if l.datatype = wktLiteral then G.parseWkt value
    else if l.datatype = geoJsonLiteral then G.parseGeoJson value
    else none
  | _ => none

/-- One indexed geometry. -/
structure Indexed where
  term : TermId
  rect : G.Rect

/-- The index entry for a geometry, if it has a bounding box of finite corners. -/
def indexEntry (term : TermId) (geometry : G.Geometry) : Option (Indexed G) :=
  (G.boundingRect geometry).bind (fun rect => if G.isFinite rect then some ⟨term, rect⟩ else none)

/-- The entry a term has under its id. -/
def entryOf (id : TermId) (term : Term) : Option (Indexed G) := (geometryOf G term).bind (indexEntry G id)

structure SpatialIndex where
  tree : List (Indexed G)
  /-- How many literal ids had been issued when the index last caught up. -/
  watermark : Nat
  /-- Geometries a purge removed, which are still interned. -/
  dormant : List TermId
  /-- The store's quad count when the watchlist was last checked. -/
  quadsAtLastCheck : Nat

structure PurgeReport where
  examined : Nat
  dropped : Nat
  retained : Nat

namespace SpatialIndex

variable {G} {B : Backend}

def default : SpatialIndex G := ⟨[], 0, [], 0⟩

/-- Whether any quad, in any graph, has the term as its object. -/
def referenced (s : B.State) (term : TermId) : Except StorageError Bool :=
  (B.scan s none none (some term) .any).map (!·.isEmpty)

/-- A watchlist entry that has been referenced again. -/
def resurrected (s : B.State) (term : TermId) : Except StorageError (Option (Indexed G)) := do
  if ← referenced s term then return (← B.decode s term).bind (entryOf G term) else return none

/-- Those of the watchlist, looked for only where the store has grown. -/
def resurrect (index : SpatialIndex G) (s : B.State) : Except StorageError (List (Indexed G)) :=
  if index.dormant.isEmpty || B.len s ≤ index.quadsAtLastCheck then .ok []
  else (index.dormant.mapM (resurrected s)).map List.reduceOption

/-- Reads literal ids from a given one upwards, indexing every geometry among them. -/
def catchUp (index : SpatialIndex G) (s : B.State) (lowest : Nat) : Except StorageError (SpatialIndex G) :=
  let count := B.dictionaryCountFor s .literal
  let quads := B.len s
  if count ≤ lowest ∧ index.quadsAtLastCheck = quads then .ok index
  else do
    let terms ← B.forEachInRange s .literal lowest count
    let fresh := terms.filterMap (fun (id, term) => entryOf G id term)
    let back ← index.resurrect s
    return {
      tree := index.tree ++ fresh ++ back
      dormant := index.dormant.filter (fun term => term ∉ back.map (·.term))
      quadsAtLastCheck := quads
      watermark := max index.watermark count }

/-- Brings the index up to date with the store. -/
def refresh (index : SpatialIndex G) (s : B.State) : Except StorageError (SpatialIndex G) := index.catchUp s index.watermark

def build (s : B.State) : Except StorageError (SpatialIndex G) := default.catchUp s 0

/-- Drops indexed geometries that no quad refers to any more. -/
def purge (index : SpatialIndex G) (s : B.State) : Except StorageError (PurgeReport × SpatialIndex G) := do
  let checked ← index.tree.mapM (fun entry => (referenced s entry.term).map (fun kept => (entry, kept)))
  let kept := (checked.filter (·.2)).map (·.1)
  let dropped := (checked.filter (!·.2)).map (·.1.term)
  return (⟨index.tree.length, dropped.length, kept.length⟩,
    { index with tree := kept, dormant := index.dormant ++ dropped, quadsAtLastCheck := B.len s })

/-- Whether the index still describes the store. -/
def isCurrentFor (index : SpatialIndex G) (s : B.State) : Bool :=
  index.watermark ≥ B.dictionaryCountFor s .literal && (index.dormant.isEmpty || index.quadsAtLastCheck == B.len s)

/-- Every indexed geometry whose box meets a given one. -/
def candidatesIn (index : SpatialIndex G) (rect : G.Rect) : List TermId :=
  (index.tree.filter (fun entry => G.intersects entry.rect rect)).map (·.term)

/-- Every indexed geometry whose box meets that of the probe. -/
def candidates (index : SpatialIndex G) (probe : G.Geometry) : List TermId :=
  match G.boundingRect probe with
  | none => []
  | some rect => index.candidatesIn rect

end SpatialIndex

end Holos.Spatial
