import Holos.Store.Dictionary
import Holos.Store.IndexTheorems
/-!
# The store

A dictionary and a quad index. `holds` ties the index to the set of quads it stores, so
a store whose nine orders disagree cannot be built. This is the in-memory tier, whose
reads never fail; `StorageError` is what the other tier's reads may raise.
-/

namespace Holos

structure Store where
  /-- The dictionary, read without interning: `none` for a term the store has not seen. -/
  lookupTerm : Term → Option TermId
  dictionaryLen : Nat
  index : QuadIndex
  quads : Finset EncodedQuad
  graphs : Finset TermId
  holds : Index.Holds index quads graphs

namespace Store

/-- The store a run of index operations leaves, under a dictionary. -/
def ofOps (lookupTerm : Term → Option TermId) (dictionaryLen : Nat) (ops : List Index.Op) : Store where
  lookupTerm := lookupTerm
  dictionaryLen := dictionaryLen
  index := Index.run ops
  quads := ops.foldl Index.replayQuads ∅
  graphs := ops.foldl Index.replayGraphs ∅
  holds := Index.foldl_holds ops Index.holds_new

/-- A dictionary that has interned these IRIs, in this order. -/
def internedIris (iris : List String) : Term → Option TermId
  | .namedNode iri => (iris.idxOf? iri).map (Fin.ofNat _)
  | _ => none

def quadsForPattern (store : Store) (s p o : Option TermId) (graph : GraphFilter) : List EncodedQuad :=
  store.index.quadsForPattern s p o graph

def quadsWithObjectIn (store : Store) (s p : Option TermId) (span : IdRange) (graph : GraphFilter) :
    List EncodedQuad :=
  store.index.quadsWithObjectIn s p span graph

/-- Every named graph, whether or not it holds quads. -/
def namedGraphs (store : Store) : List TermId := store.index.graphs.toList

theorem mem_namedGraphs (store : Store) (g : TermId) : g ∈ store.namedGraphs ↔ g ∈ store.graphs :=
  store.holds.graphs g

theorem mem_quadsForPattern (store : Store) (s p o : Option TermId) (graph : GraphFilter) (q : EncodedQuad) :
    q ∈ store.quadsForPattern s p o graph ↔
      q ∈ store.quads ∧ Index.matchesTriple s p o q = true ∧ Index.GraphFilter.admits graph q = true :=
  Index.mem_quadsForPattern store.holds s p o graph q

theorem quadsForPattern_nodup (store : Store) (s p o : Option TermId) (graph : GraphFilter) :
    (store.quadsForPattern s p o graph).Nodup :=
  Index.quadsForPattern_nodup store.holds s p o graph

theorem mem_quadsWithObjectIn (store : Store) (s p : Option TermId) (span : IdRange) (graph : GraphFilter)
    (q : EncodedQuad) :
    q ∈ store.quadsWithObjectIn s p span graph ↔
      q ∈ store.quads ∧ Index.matchesTriple s p none q = true ∧ span.contains q.object = true ∧
        Index.GraphFilter.admits graph q = true :=
  Index.mem_quadsWithObjectIn store.holds s p span graph q

theorem quadsWithObjectIn_nodup (store : Store) (s p : Option TermId) (span : IdRange) (graph : GraphFilter) :
    (store.quadsWithObjectIn s p span graph).Nodup :=
  Index.quadsWithObjectIn_nodup store.holds s p span graph

end Store

end Holos
