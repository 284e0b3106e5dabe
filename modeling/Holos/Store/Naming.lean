import Holos.Store.Backend
/-!
# The ids a store has for IRIs

An IRI gets its id when it is interned. A rollback may take it away again, but the id then goes to
no other IRI: ids under a tag are given out in order, and the counters only move on. So an IRI that
has an id now has had it all along, or has been given one since that nothing had.
-/

namespace Holos

/-- The named nodes in a term. -/
def Term.nodes : Term → List NamedNode
  | .namedNode n => [n]
  | .blankNode _ => []
  | .literal _ => []
  | .triple (.namedNode s) p o => s :: p :: o.nodes
  | .triple (.blankNode _) p o => p :: o.nodes

/-- What a store has for each IRI. -/
abbrev Look := NamedNode → Option TermId

/-- The predicate of a quad is an IRI's id, and so is its graph, unless it is a blank node's. -/
structure Live (look : Look) (e : EncodedQuad) : Prop where
  predicate : ∃ n, look n = some e.predicate
  graph : ∀ g, e.graphName = some g → (∃ n, look n = some g) ∨ g.tag = .blankNode

theorem Live.mono {look look' : Look} {e : EncodedQuad} (h : Live look e) (hle : ∀ n i, look n = some i → look' n = some i) :
    Live look' e where
  predicate := h.predicate.imp (fun n hn => hle n _ hn)
  graph g hg := (h.graph g hg).imp_left (Exists.imp (fun n hn => hle n g hn))

namespace Backend

variable {B : Backend}

/-- An id that was not yet given out. -/
def Unissued (B : Backend) (s : B.State) (i : TermId) : Prop :=
  Dictionary.issues i.tag = true ∧ B.dictionaryCountFor s i.tag ≤ i.payload

/-- One store is later than the other: the counters have only moved on, and an IRI has the id it
had, or one that had not been given out. -/
structure Later (B : Backend) (look : B.State → Look) (s s' : B.State) : Prop where
  counts : ∀ tag, B.dictionaryCountFor s tag ≤ B.dictionaryCountFor s' tag
  names : ∀ n i, look s' n = some i → look s n = some i ∨ B.Unissued s i

variable {look : B.State → Look} {s s' s'' : B.State}

theorem Later.refl (s : B.State) : B.Later look s s := ⟨fun _ => le_rfl, fun _ _ h => .inl h⟩

theorem Later.trans (h : B.Later look s s') (h' : B.Later look s' s'') : B.Later look s s'' where
  counts tag := (h.counts tag).trans (h'.counts tag)
  names n i hi := by
    rcases h'.names n i hi with hi | ⟨htag, hle⟩
    · exact h.names n i hi
    · exact .inr ⟨htag, (h.counts i.tag).trans hle⟩

/-- What a backend promises of its IRIs, whatever is done to it and whatever that answers. -/
structure Naming (B : Backend) (Inv : B.State → Prop) (look : B.State → Look) : Prop where
  lookup : ∀ {s n}, Inv s → B.lookup s (.namedNode n) = .ok (look s n)
  inj : ∀ {s n m i}, Inv s → look s n = some i → look s m = some i → n = m
  tag : ∀ {s n i}, Inv s → look s n = some i → i.tag ≠ .blankNode
  issued : ∀ {s n i}, Inv s → look s n = some i → Dictionary.issues i.tag = true → i.payload < B.dictionaryCountFor s i.tag
  len : ∀ s, B.dictionaryLen s = B.dictionaryCountFor s .iri + B.dictionaryCountFor s .blankNode +
    B.dictionaryCountFor s .literal + B.dictionaryCountFor s .tripleTerm
  contains : ∀ {s e}, Inv s → ∃ b, B.containsEncoded s e = .ok b ∧ (b = true → Live (look s) e)
  encode : ∀ {s t r s'}, Inv s → B.encode s t = some (r, s') → Inv s' ∧ B.Later look s s' ∧
    ∀ n i, look s n = some i → look s' n = some i
  write : ∀ {s op r s'}, Inv s → (∀ e, op = .insert e → Live (look s) e) → B.write s op = (r, s') →
    Inv s' ∧ B.Later look s s' ∧ look s' = look s
  begin : ∀ {s s'}, Inv s → B.begin s = .ok s' → Inv s' ∧ B.Later look s s' ∧ look s' = look s
  commit : ∀ {s b r s'}, Inv s → B.commit b s = (r, s') → Inv s' ∧ B.Later look s s' ∧
    ∀ n i, look s' n = some i → look s n = some i
  rollback : ∀ {s}, Inv s → Inv (B.rollback s) ∧ B.Later look s (B.rollback s) ∧
    ∀ n i, look (B.rollback s) n = some i → look s n = some i

/-- No IRI loses its id. -/
structure Remembers (B : Backend) (Inv : B.State → Prop) (look : B.State → Look) : Prop where
  commit : ∀ {s b r s'}, Inv s → B.commit b s = (r, s') → look s' = look s
  rollback : ∀ {s}, Inv s → look (B.rollback s) = look s

/-- Interning a term gives ids to the IRIs in it alone. -/
def Introduces (B : Backend) (Inv : B.State → Prop) (look : B.State → Look) : Prop :=
  ∀ {s t r s'}, Inv s → B.encode s t = some (r, s') → ∀ n, look s' n ≠ look s n → n ∈ t.nodes

variable {Inv : B.State → Prop}

/-- With as many ids given out as before, no IRI has an id it did not have. -/
theorem Naming.same_len (hN : B.Naming Inv look) (hs' : Inv s') (h : B.Later look s s') (hlen : B.dictionaryLen s' = B.dictionaryLen s)
    {n : NamedNode} {i : TermId} (hi : look s' n = some i) : look s n = some i := by
  rcases h.names n i hi with hi' | ⟨htag, hle⟩
  · exact hi'
  · have hlt := hN.issued hs' hi htag
    have h₁ := h.counts .iri
    have h₂ := h.counts .blankNode
    have h₃ := h.counts .literal
    have h₄ := h.counts .tripleTerm
    rw [hN.len, hN.len] at hlen
    have heq : B.dictionaryCountFor s i.tag = B.dictionaryCountFor s' i.tag := by
      cases hcase : i.tag <;> rw [hcase] at htag <;> first | omega | cases htag
    omega

/-- An id that an IRI had is not another IRI's later. -/
theorem Naming.keeps (hN : B.Naming Inv look) (hs : Inv s) (h : B.Later look s s') {n m : NamedNode} {i : TermId}
    (hi : look s n = some i) (hi' : look s' m = some i) : n = m := by
  rcases h.names m i hi' with hm | ⟨htag, hle⟩
  · exact hN.inj hs hi hm
  · have hlt := hN.issued hs hi htag
    omega

end Backend

end Holos
