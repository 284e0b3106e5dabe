import Holos.Lib.Effect
import Holos.Store.Storage
import Mathlib.Data.PEquiv
/-!
# A store, whichever backend keeps it

The engine sees a store through the `Storage` trait. `Backend` is that trait, and `Lawful` is
what the layers above rely on: a backend stands for what it holds, the ids its terms have, and
what a rollback would go back to. Inside a scope an operation may fail, and then the store need
not stand for anything, but the scope is still open over what it was opened on.
-/

namespace Holos

/-! ## Quads as terms -/

/-- An `oxrdf` triple. -/
structure Triple where
  subject : NamedOrBlankNode
  predicate : NamedNode
  object : Term
deriving DecidableEq, Repr

inductive GraphName where
  | defaultGraph
  | namedNode (iri : NamedNode)
  | blankNode (id : String)
deriving DecidableEq, Repr

/-- An `oxrdf` quad. -/
structure Quad where
  subject : NamedOrBlankNode
  predicate : NamedNode
  object : Term
  graphName : GraphName
deriving DecidableEq, Repr

def Triple.inGraph (t : Triple) (g : GraphName) : Quad := ⟨t.subject, t.predicate, t.object, g⟩

def Quad.triple (q : Quad) : Triple := ⟨q.subject, q.predicate, q.object⟩

@[simp] theorem Triple.inGraph_graphName (t : Triple) (g : GraphName) : (t.inGraph g).graphName = g := rfl

@[simp] theorem Triple.triple_inGraph (t : Triple) (g : GraphName) : (t.inGraph g).triple = t := rfl

@[simp] theorem Quad.inGraph_triple (q : Quad) : q.triple.inGraph q.graphName = q := rfl

/-! ## What a store stands for -/

/-- The ids of terms: no term has two, and no two terms have one. -/
abbrev Ids := Term ≃. TermId

/-- Ids by the function that looks them up. -/
noncomputable def Ids.ofLookup (f : Term → Option TermId) (hf : ∀ t u i, f t = some i → f u = some i → t = u) : Ids :=
  open Classical in
  { toFun := f
    invFun := fun i => if h : ∃ t, f t = some i then some h.choose else none
    inv := fun t i => by
      constructor
      · intro h
        split at h
        · rename_i hex
          cases h
          exact hex.choose_spec
        · cases h
      · intro h
        have hex : ∃ t, f t = some i := ⟨t, h⟩
        rw [dif_pos hex, hf _ _ _ hex.choose_spec h] }

@[simp] theorem Ids.ofLookup_apply (f : Term → Option TermId) (hf : ∀ t u i, f t = some i → f u = some i → t = u) (t : Term) :
    Ids.ofLookup f hf t = f t := rfl

def Ids.graph (ids : Ids) : GraphName → Option (Option TermId)
  | .defaultGraph => some none
  | .namedNode n => (ids (.namedNode n)).map some
  | .blankNode b => (ids (.blankNode b)).map some

/-- A quad by its ids, if all its terms have one. -/
def Ids.quad (ids : Ids) (q : Quad) : Option EncodedQuad := do
  let s ← ids q.subject.toTerm
  let p ← ids (.namedNode q.predicate)
  let o ← ids q.object
  let g ← ids.graph q.graphName
  return ⟨s, p, o, g⟩

/-- The contents now, the ids now, and both as they were when the open scope began. -/
structure Held where
  contents : Contents
  ids : Ids
  saved : Option (Contents × Ids)

namespace Held

/-- The store holds a quad. -/
def Has (h : Held) (q : Quad) : Prop := ∃ e, h.ids.quad q = some e ∧ e ∈ h.contents.quads

/-- Every stored quad is a quad of terms. -/
def Decodes (h : Held) : Prop := ∀ e ∈ h.contents.quads, ∃ q, h.ids.quad q = some e

def write (h : Held) (op : Index.Op) : Held := { h with contents := h.contents.apply op }

@[simp] theorem write_ids (h : Held) (op : Index.Op) : (h.write op).ids = h.ids := rfl
@[simp] theorem write_saved (h : Held) (op : Index.Op) : (h.write op).saved = h.saved := rfl
@[simp] theorem write_contents (h : Held) (op : Index.Op) : (h.write op).contents = h.contents.apply op := rfl

end Held

/-! ## The trait -/

/-- The `Storage` trait outside a bulk load. `none` is a panic. Whether a commit reaches the
disk is not the backend's to say, so it is told. -/
structure Backend where
  State : Type
  encode : State → Term → Option (Except StorageError TermId × State)
  lookup : State → Term → Except StorageError (Option TermId)
  decode : State → TermId → Except StorageError (Option Term)
  write : State → Index.Op → Except StorageError Bool × State
  containsEncoded : State → EncodedQuad → Except StorageError Bool
  scan : State → Option TermId → Option TermId → Option TermId → GraphFilter → Except StorageError (List EncodedQuad)
  containsNamedGraph : State → TermId → Except StorageError Bool
  namedGraphs : State → Except StorageError (List TermId)
  len : State → Nat
  dictionaryLen : State → Nat
  dictionaryCountFor : State → Tag → Nat
  forEachInRange : State → Tag → Nat → Nat → Except StorageError (List (TermId × Term))
  inScope : State → Bool
  begin : State → Except StorageError State
  commit : Bool → State → Except StorageError Unit × State
  rollback : State → State

/-- A triple term whose parts are new takes one id for each place they stand in, unless a scope
is open to remember them. -/
def Term.isTriple : Term → Bool
  | .triple _ _ _ => true
  | _ => false

/-- The ids of a tag with payloads from `m` up to `n`. -/
def TermId.range (tag : Tag) (m n : Nat) : List TermId := (List.range' m (n - m)).filterMap (TermId.checked tag)

theorem TermId.mem_range {tag : Tag} {m n : Nat} {i : TermId} (htag : i.tag = tag) (hissues : Dictionary.issues tag = true)
    (hm : m ≤ i.payload) (hn : i.payload < n) : i ∈ TermId.range tag m n := by
  refine List.mem_filterMap.2 ⟨i.payload, List.mem_range'_1.2 ⟨hm, by omega⟩, ?_⟩
  unfold TermId.checked
  rw [dif_pos i.payload_le, Option.some.injEq]
  refine TermId.ext_tag_payload (by rw [TermId.tag_new, htag]) ?_ (TermId.payload_new _ _ _)
  rw [TermId.tag_new]
  exact Dictionary.issues_ne_reserved hissues

/-- `Sim s h`: the store stands for `h`. `Open s c`: a scope is open over `c`. -/
structure Backend.Lawful (B : Backend) (Sim : B.State → Held → Prop) (Open : B.State → Contents × Ids → Prop) : Prop where
  lookup : ∀ {s h t r}, Sim s h → B.lookup s t = .ok r → r = h.ids t
  decode : ∀ {s h t i}, Sim s h → h.ids t = some i → B.decode s i = .ok (some t)
  contains : ∀ {s h e b}, Sim s h → B.containsEncoded s e = .ok b → b = decide (e ∈ h.contents.quads)
  scan_nodup : ∀ {s h x p o g qs}, Sim s h → B.scan s x p o g = .ok qs → qs.Nodup
  mem_scan : ∀ {s h x p o g qs e}, Sim s h → B.scan s x p o g = .ok qs →
    (e ∈ qs ↔ e ∈ h.contents.quads ∧ Index.matchesTriple x p o e = true ∧ Index.GraphFilter.admits g e = true)
  containsNamedGraph : ∀ {s h g b}, Sim s h → B.containsNamedGraph s g = .ok b → b = decide (g ∈ h.contents.graphs)
  mem_namedGraphs : ∀ {s h gs g}, Sim s h → B.namedGraphs s = .ok gs → (g ∈ gs ↔ g ∈ h.contents.graphs)
  len : ∀ {s h}, Sim s h → B.len s = h.contents.quads.card
  issued : ∀ {s h t i}, Sim s h → h.ids t = some i → Dictionary.issues i.tag = true →
    i.payload < B.dictionaryCountFor s i.tag
  mem_forEachInRange : ∀ {s h tag m n l t i}, Sim s h → Dictionary.issues tag = true → B.forEachInRange s tag m n = .ok l →
    h.ids t = some i → i.tag = tag → m ≤ i.payload → i.payload < n → (i, t) ∈ l
  inScope : ∀ {s h}, Sim s h → B.inScope s = h.saved.isSome
  encode : ∀ {s h t i s'}, Sim s h → (h.saved.isSome ∨ t.isTriple = false) → B.encode s t = some (.ok i, s') →
    ∃ ids, h.ids ≤ ids ∧ ids t = some i ∧ Sim s' { h with ids }
  encode_ok : ∀ {s h t r s'}, Sim s h → h.saved = none → B.encode s t = some (r, s') → ∃ i, r = .ok i
  write : ∀ {s h op b s'}, Sim s h → B.write s op = (.ok b, s') → b = h.contents.changes op ∧ Sim s' (h.write op)
  write_ok : ∀ {s h op r s'}, Sim s h → h.saved = none → B.write s op = (r, s') → ∃ b, r = .ok b
  begin : ∀ {s h s'}, Sim s h → B.begin s = .ok s' → h.saved = none ∧ Sim s' { h with saved := some (h.contents, h.ids) }
  commit : ∀ {s h b s'}, Sim s h → h.saved.isSome → B.commit b s = (.ok (), s') → Sim s' { h with saved := none }
  opened : ∀ {s h c}, Sim s h → h.saved = some c → Open s c
  open_encode : ∀ {s c t r s'}, Open s c → B.encode s t = some (r, s') → Open s' c
  open_write : ∀ {s c op r s'}, Open s c → B.write s op = (r, s') → Open s' c
  open_inScope : ∀ {s c}, Open s c → B.inScope s = true
  rollback : ∀ {s c}, Open s c → ∃ ids, c.2 ≤ ids ∧ Sim (B.rollback s) ⟨c.1, ids, none⟩
  commit_error : ∀ {s c b e s'}, Open s c → B.commit b s = (.error e, s') → ∃ ids, c.2 ≤ ids ∧ Sim s' ⟨c.1, ids, none⟩

/-- Scans come in the order of the index they are routed to. -/
def Backend.Ordered (B : Backend) (Sim : B.State → Held → Prop) : Prop :=
  ∀ {s h x p o g qs}, Sim s h → B.scan s x p o g = .ok qs → Index.ScanOrder x p o g qs

/-- Terms get their ids right outside a scope as well, triple terms included. -/
def Backend.EncodesTriples (B : Backend) (Sim : B.State → Held → Prop) : Prop :=
  ∀ {s h t i s'}, Sim s h → B.encode s t = some (.ok i, s') → ∃ ids, h.ids ≤ ids ∧ ids t = some i ∧ Sim s' { h with ids }

/-! ## Ids for good -/

/-- `Named s N`: `N` has every id that was ever given to a term, with the term. A rollback may
forget an id, but gives it to no other term. -/
structure Backend.Names (B : Backend) (Named : B.State → Set (TermId × Term) → Prop) : Prop where
  functional : ∀ {s N i t t'}, Named s N → (i, t) ∈ N → (i, t') ∈ N → t = t'
  decoded : ∀ {s N i t}, Named s N → B.decode s i = .ok (some t) → (i, t) ∈ N
  encode : ∀ {s N t r s'}, Named s N → B.encode s t = some (r, s') → ∃ N', N ⊆ N' ∧ Named s' N'
  write : ∀ {s N op r s'}, Named s N → B.write s op = (r, s') → ∃ N', N ⊆ N' ∧ Named s' N'
  begin : ∀ {s N s'}, Named s N → B.begin s = .ok s' → ∃ N', N ⊆ N' ∧ Named s' N'
  commit : ∀ {s N b r s'}, Named s N → B.commit b s = (r, s') → ∃ N', N ⊆ N' ∧ Named s' N'
  rollback : ∀ {s N}, Named s N → ∃ N', N ⊆ N' ∧ Named (B.rollback s) N'

/-- Every id of `N₀` has its term still. -/
def Backend.Knows {B : Backend} (Named : B.State → Set (TermId × Term) → Prop) (N₀ : Set (TermId × Term)) (s : B.State) : Prop :=
  ∃ N, N₀ ⊆ N ∧ Named s N

section
variable {B : Backend} {Sim : B.State → Held → Prop} {Open : B.State → Contents × Ids → Prop}
variable {Named : B.State → Set (TermId × Term) → Prop} {N₀ : Set (TermId × Term)} {s s' : B.State}

theorem Backend.Knows.grow (hk : Backend.Knows Named N₀ s) (h : ∀ N, Named s N → ∃ N', N ⊆ N' ∧ Named s' N') :
    Backend.Knows Named N₀ s' := by
  obtain ⟨N, hN, hs⟩ := hk
  obtain ⟨N', hN', hs'⟩ := h N hs
  exact ⟨N', hN.trans hN', hs'⟩

/-- A lawful backend is one still when it is also to know what was named. -/
theorem Backend.Lawful.knowing (L : B.Lawful Sim Open) (hN : B.Names Named) (N₀ : Set (TermId × Term)) :
    B.Lawful (fun s h => Sim s h ∧ Backend.Knows Named N₀ s) (fun s c => Open s c ∧ Backend.Knows Named N₀ s) where
  lookup hs := L.lookup hs.1
  decode hs := L.decode hs.1
  contains hs := L.contains hs.1
  scan_nodup hs := L.scan_nodup hs.1
  mem_scan hs := L.mem_scan hs.1
  containsNamedGraph hs := L.containsNamedGraph hs.1
  mem_namedGraphs hs := L.mem_namedGraphs hs.1
  len hs := L.len hs.1
  issued hs := L.issued hs.1
  mem_forEachInRange hs := L.mem_forEachInRange hs.1
  inScope hs := L.inScope hs.1
  encode hs hor henc := by
    obtain ⟨ids, hle, hi, hs'⟩ := L.encode hs.1 hor henc
    exact ⟨ids, hle, hi, hs', hs.2.grow (fun N h => hN.encode h henc)⟩
  encode_ok hs := L.encode_ok hs.1
  write hs hw := ⟨(L.write hs.1 hw).1, (L.write hs.1 hw).2, hs.2.grow (fun N h => hN.write h hw)⟩
  write_ok hs := L.write_ok hs.1
  begin hs hb := ⟨(L.begin hs.1 hb).1, (L.begin hs.1 hb).2, hs.2.grow (fun N h => hN.begin h hb)⟩
  commit hs hsaved hc := ⟨L.commit hs.1 hsaved hc, hs.2.grow (fun N h => hN.commit h hc)⟩
  opened hs hc := ⟨L.opened hs.1 hc, hs.2⟩
  open_encode ho henc := ⟨L.open_encode ho.1 henc, ho.2.grow (fun N h => hN.encode h henc)⟩
  open_write ho hw := ⟨L.open_write ho.1 hw, ho.2.grow (fun N h => hN.write h hw)⟩
  open_inScope ho := L.open_inScope ho.1
  rollback ho := by
    obtain ⟨ids, hle, hs⟩ := L.rollback ho.1
    exact ⟨ids, hle, hs, ho.2.grow (fun N h => hN.rollback h)⟩
  commit_error ho hc := by
    obtain ⟨ids, hle, hs⟩ := L.commit_error ho.1 hc
    exact ⟨ids, hle, hs, ho.2.grow (fun N h => hN.commit h hc)⟩

end

end Holos
