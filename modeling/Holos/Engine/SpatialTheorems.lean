import Holos.Lib.Collect
import Holos.Engine.Spatial
import Holos.Store.MemoryBackend
/-!
# What a current index leaves out

Nothing, as long as the quad count tells of every purged geometry that came back. Every literal below
the watermark is in the tree or on the watchlist, and where the count is that of the last check no quad
refers to a geometry on the watchlist. The count tells nothing when quads go as others come.
-/

namespace Holos.Spatial

open SpatialIndex

/-! ## The literals of a store -/

/-- One operation of a store, whatever it answers. -/
def Moves (B : Backend) (s s' : B.State) : Prop :=
  (∃ t r, B.encode s t = some (r, s')) ∨ (∃ op r, B.write s op = (r, s')) ∨ B.begin s = .ok s' ∨ (∃ b r, B.commit b s = (r, s')) ∨
    s' = B.rollback s

/-- A backend gives literals their ids in order, and gives none of these to another. -/
structure KeepsLiterals (B : Backend) (Sim : B.State → Held → Prop) (X : Inline.Datatypes) : Prop where
  grows : ∀ {s s'}, Moves B s s' → B.dictionaryCountFor s .literal ≤ B.dictionaryCountFor s' .literal
  older : ∀ {s s' i t}, Moves B s s' → i.tag = .literal → B.decode s' i = .ok (some t) →
    B.decode s i = .ok (some t) ∨ B.dictionaryCountFor s .literal ≤ i.payload
  issued : ∀ {s i t}, i.tag = .literal → B.decode s i = .ok (some t) → i.payload < B.dictionaryCountFor s .literal
  walk : ∀ {s m n l i t}, B.forEachInRange s .literal m n = .ok l → i.tag = .literal → B.decode s i = .ok (some t) →
    m ≤ i.payload → i.payload < n → (i, t) ∈ l
  tag : ∀ {s h l i}, Sim s h → h.ids (.literal l) = some i → i.tag = .literal ∨ Inline.encodeLiteral X l = some i

/-! ## Runs -/

variable {G : Geo} {B : Backend} {Sim : B.State → Held → Prop} {Open : B.State → Contents × Ids → Prop} {X : Inline.Datatypes}

inductive Event where
  | store
  | refresh
  | purge

/-- A store and the index over it take turns. The index reads the store only while it stands for
something, which one in which a scope failed does not before it is rolled back. -/
inductive Step (Sim : B.State → Held → Prop) : Event → B.State × SpatialIndex G → B.State × SpatialIndex G → Prop
  | store {s s' index} : Moves B s s' → Step Sim .store (s, index) (s', index)
  | refresh {s h index index'} : Sim s h → index.refresh s = .ok index' → Step Sim .refresh (s, index) (s, index')
  | purge {s h index report index'} : Sim s h → index.purge s = .ok (report, index') → Step Sim .purge (s, index) (s, index')

/-- A purged geometry is the object of a stored quad. -/
def Watched (index : SpatialIndex G) (h : Held) : Prop :=
  ∃ e ∈ h.contents.quads, ∃ t entry, h.ids t = some e.object ∧ entryOf G e.object t = some entry ∧ e.object ∈ index.dormant

/-- While a purged geometry is stored the quad count does not come to that of the last check, no refresh
finds it below that, and nothing is purged. -/
def Careful (Sim : B.State → Held → Prop) : Event → B.State × SpatialIndex G → B.State × SpatialIndex G → Prop
  | .store, _, b => ∀ h, Sim b.1 h → Watched b.2 h → h.contents.quads.card ≠ b.2.quadsAtLastCheck
  | .refresh, a, _ => ∀ h, Sim a.1 h → Watched a.2 h → a.2.quadsAtLastCheck ≤ h.contents.quads.card
  | .purge, a, _ => ∀ h, Sim a.1 h → ¬Watched a.2 h

/-- A run all of whose steps are careful. -/
abbrev Run (Sim : B.State → Held → Prop) : B.State × SpatialIndex G → B.State × SpatialIndex G → Prop :=
  Relation.ReflTransGen (fun a b => ∃ e, Step Sim e a b ∧ Careful Sim e a b)

/-! ## What holds over a run -/

/-- What the index knows of the store. -/
structure Knows (Sim : B.State → Held → Prop) (s : B.State) (index : SpatialIndex G) : Prop where
  level : index.watermark ≤ B.dictionaryCountFor s .literal
  known : ∀ {i t entry}, i.tag = .literal → B.decode s i = .ok (some t) → entryOf G i t = some entry → i.payload < index.watermark →
    entry ∈ index.tree ∨ i ∈ index.dormant
  checked : ∀ {h}, Sim s h → h.contents.quads.card = index.quadsAtLastCheck → ¬Watched index h

theorem Knows.start (Sim : B.State → Held → Prop) (s : B.State) : Knows Sim s (.default : SpatialIndex G) where
  level := Nat.zero_le _
  known _ _ _ hlt := absurd hlt (Nat.not_lt_zero _)
  checked := by
    rintro h _ _ ⟨e, _, t, entry, _, _, hdormant⟩
    cases hdormant

theorem Knows.store (K : KeepsLiterals B Sim X) {s s' : B.State} {index : SpatialIndex G} (hk : Knows Sim s index) (hmoves : Moves B s s')
    (hcareful : ∀ h, Sim s' h → Watched index h → h.contents.quads.card ≠ index.quadsAtLastCheck) : Knows Sim s' index where
  level := hk.level.trans (K.grows hmoves)
  known htag hdecode hentry hlt := by
    rcases K.older hmoves htag hdecode with hold | hnew
    · exact hk.known htag hold hentry hlt
    · have hlevel := hk.level
      omega
  checked hs hcard hwatched := hcareful _ hs hwatched hcard

theorem entryOf_term {i : TermId} {t : Term} {entry : Indexed G} (h : entryOf G i t = some entry) : entry.term = i := by
  unfold entryOf indexEntry at h
  obtain ⟨geometry, -, h⟩ := Option.bind_eq_some_iff.1 h
  obtain ⟨rect, -, h⟩ := Option.bind_eq_some_iff.1 h
  split at h
  · cases h
    rfl
  · cases h

/-- A term is referenced when it is the object of a quad. -/
theorem referenced_eq (L : B.Lawful Sim Open) {s : B.State} {h : Held} (hs : Sim s h) {term : TermId} {r : Bool}
    (hr : referenced s term = .ok r) : r = true ↔ ∃ e ∈ h.contents.quads, e.object = term := by
  unfold referenced at hr
  cases hscan : B.scan s none none (some term) .any with
  | error e =>
    rw [hscan] at hr
    cases hr
  | ok quads =>
    rw [hscan] at hr
    cases hr
    rw [Bool.not_eq_true', List.isEmpty_eq_false_iff_exists_mem]
    refine exists_congr fun e => ?_
    rw [L.mem_scan hs hscan]
    simp [Index.matchesTriple, Index.GraphFilter.admits, eq_comm]

/-- A geometry of the watchlist that is stored again comes back when the store has grown. -/
theorem resurrect_watched (L : B.Lawful Sim Open) {s : B.State} {h : Held} (hs : Sim s h) {index : SpatialIndex G} {back : List (Indexed G)}
    (hback : index.resurrect s = .ok back) (hgrown : index.quadsAtLastCheck < h.contents.quads.card) {e : EncodedQuad}
    (he : e ∈ h.contents.quads) {t : Term} {entry : Indexed G} (hid : h.ids t = some e.object) (hentry : entryOf G e.object t = some entry)
    (hdormant : e.object ∈ index.dormant) : entry ∈ back := by
  have hlen := L.len hs
  have hsome : ¬(index.dormant.isEmpty || decide (B.len s ≤ index.quadsAtLastCheck)) = true := by
    rw [Bool.or_eq_true, not_or, List.isEmpty_iff, decide_eq_true_eq, hlen]
    exact ⟨List.ne_nil_of_mem hdormant, Nat.not_le.2 hgrown⟩
  unfold resurrect at hback
  rw [if_neg hsome] at hback
  cases hall : index.dormant.mapM (resurrected s : TermId → Except StorageError (Option (Indexed G))) with
  | error e =>
    rw [hall] at hback
    cases hback
  | ok found =>
    rw [hall] at hback
    cases hback
    obtain ⟨r, hr, hread⟩ := Lib.forall₂_exists_right (Lib.forall₂_of_mapM hall) hdormant
    have hsame : r = some entry := by
      unfold resurrected at hread
      obtain ⟨kept, hkept, hread⟩ := Lib.bind_pure_iff.1 hread
      rw [(referenced_eq L hs hkept).2 ⟨e, he, rfl⟩, if_pos rfl, L.decode hs hid] at hread
      have hread' : (.ok (entryOf G e.object t) : Except StorageError (Option (Indexed G))) = .ok r := hread
      exact (Except.ok.inj hread').symm.trans hentry
    exact List.mem_filterMap.2 ⟨r, hr, hsame⟩

/-- What comes back is what its id decodes to. -/
theorem mem_resurrect {s : B.State} {index : SpatialIndex G} {back : List (Indexed G)} (hback : index.resurrect s = .ok back) {entry : Indexed G}
    (hentry : entry ∈ back) : ∃ t, B.decode s entry.term = .ok (some t) ∧ entryOf G entry.term t = some entry := by
  unfold resurrect at hback
  split at hback
  · cases hback
    cases hentry
  · cases hall : index.dormant.mapM (resurrected s : TermId → Except StorageError (Option (Indexed G))) with
    | error e =>
      rw [hall] at hback
      cases hback
    | ok found =>
      rw [hall] at hback
      cases hback
      obtain ⟨r, hr, hsome⟩ := List.mem_filterMap.1 hentry
      have hsame : r = some entry := hsome
      obtain ⟨term, -, hread⟩ := Lib.forall₂_exists_left (Lib.forall₂_of_mapM hall) hr
      unfold resurrected at hread
      obtain ⟨kept, -, hread⟩ := Lib.bind_pure_iff.1 hread
      cases kept with
      | false =>
        rw [hsame] at hread
        cases hread
      | true =>
        rw [if_pos rfl] at hread
        obtain ⟨t, hdecode, hread⟩ := Lib.bind_pure_iff.1 hread
        have hfound := (Lib.Inverting.pure_inj hread).trans hsame
        obtain ⟨t, rfl, hfound⟩ := Option.bind_eq_some_iff.1 hfound
        rw [entryOf_term hfound]
        exact ⟨t, hdecode, hfound⟩

theorem Knows.refresh (L : B.Lawful Sim Open) (K : KeepsLiterals B Sim X) {s : B.State} {index index' : SpatialIndex G}
    (hk : Knows Sim s index) (hcareful : ∀ h, Sim s h → Watched index h → index.quadsAtLastCheck ≤ h.contents.quads.card)
    (hok : index.refresh s = .ok index') : Knows Sim s index' := by
  unfold SpatialIndex.refresh catchUp at hok
  dsimp only at hok
  split at hok
  · cases hok
    exact hk
  · obtain ⟨terms, hterms, hok⟩ := Lib.bind_pure_iff.1 hok
    obtain ⟨back, hback, hok⟩ := Lib.bind_pure_iff.1 hok
    rw [← Lib.Inverting.pure_inj hok]
    refine ⟨max_le hk.level le_rfl, ?_, ?_⟩
    · intro i t entry htag hdecode hentry hlt
      by_cases hread : i.payload < index.watermark
      · rcases hk.known htag hdecode hentry hread with htree | hdormant
        · exact .inl (List.mem_append_left _ (List.mem_append_left _ htree))
        · by_cases hcame : i ∈ back.map (·.term)
          · obtain ⟨other, hother, rfl⟩ := List.mem_map.1 hcame
            obtain ⟨t', hdecode', hentry'⟩ := mem_resurrect hback hother
            rw [hdecode] at hdecode'
            cases hdecode'
            rw [hentry] at hentry'
            cases hentry'
            exact .inl (List.mem_append_right _ hother)
          · exact .inr (List.mem_filter.2 ⟨hdormant, decide_eq_true hcame⟩)
      · have hcount : i.payload < B.dictionaryCountFor s .literal := K.issued htag hdecode
        have hwalked := K.walk hterms htag hdecode (Nat.le_of_not_lt hread) hcount
        exact .inl (List.mem_append_left _ (List.mem_append_right _ (List.mem_filterMap.2 ⟨_, hwalked, hentry⟩)))
    · rintro h' hs' - ⟨e, he, t, entry, hid, hentry, hdormant⟩
      obtain ⟨hwas, hgone⟩ := List.mem_filter.1 hdormant
      have hwatched : Watched index h' := ⟨e, he, t, entry, hid, hentry, hwas⟩
      have hlt : index.quadsAtLastCheck < h'.contents.quads.card :=
        lt_of_le_of_ne (hcareful h' hs' hwatched) (fun heq => hk.checked hs' heq.symm hwatched)
      have hcame := resurrect_watched L hs' hback hlt he hid hentry hwas
      exact of_decide_eq_true hgone (List.mem_map.2 ⟨entry, hcame, entryOf_term hentry⟩)

theorem Knows.purge (L : B.Lawful Sim Open) {s : B.State} {index index' : SpatialIndex G} {report : PurgeReport} (hk : Knows Sim s index)
    (hcareful : ∀ h, Sim s h → ¬Watched index h) (hok : index.purge s = .ok (report, index')) : Knows Sim s index' := by
  unfold SpatialIndex.purge at hok
  obtain ⟨checked, hchecked, hok⟩ := Lib.bind_pure_iff.1 hok
  have hparts := Lib.forall₂_of_mapM hchecked
  have hread : ∀ {entry kept}, (entry, kept) ∈ checked → entry ∈ index.tree ∧ referenced s entry.term = .ok kept := by
    intro entry kept hmem
    obtain ⟨entry', hin, hr⟩ := Lib.forall₂_exists_left hparts hmem
    cases hkept : (referenced s entry'.term : Except StorageError Bool) with
    | error e =>
      rw [hkept] at hr
      cases hr
    | ok b =>
      rw [hkept] at hr
      cases hr
      exact ⟨hin, hkept⟩
  cases Lib.Inverting.pure_inj hok
  refine ⟨hk.level, ?_, ?_⟩
  · intro i t entry htag hdecode hentry hlt
    rcases hk.known htag hdecode hentry hlt with htree | hdormant
    · obtain ⟨⟨entry', kept⟩, hmem, hr⟩ := Lib.forall₂_exists_right hparts htree
      have hsame : entry' = entry := by
        cases hkept : (referenced s entry.term : Except StorageError Bool) with
        | error e =>
          rw [hkept] at hr
          cases hr
        | ok b =>
          rw [hkept] at hr
          cases hr
          rfl
      subst hsame
      cases kept with
      | true => exact .inl (List.mem_map.2 ⟨_, List.mem_filter.2 ⟨hmem, rfl⟩, rfl⟩)
      | false =>
        refine .inr (List.mem_append_right _ (List.mem_map.2 ⟨_, List.mem_filter.2 ⟨hmem, rfl⟩, ?_⟩))
        exact entryOf_term hentry
    · exact .inr (List.mem_append_left _ hdormant)
  · rintro h hs - ⟨e, he, t, entry, hid, hentry, hdormant⟩
    rcases List.mem_append.1 hdormant with hdormant | hdropped
    · exact hcareful h hs ⟨e, he, t, entry, hid, hentry, hdormant⟩
    · obtain ⟨⟨gone, kept⟩, hmem, hterm⟩ := List.mem_map.1 hdropped
      obtain ⟨hin, hkept⟩ := List.mem_filter.1 hmem
      obtain ⟨-, hr⟩ := hread hin
      have hstored := (referenced_eq L hs hr).2 ⟨e, he, hterm.symm⟩
      rw [hstored] at hkept
      cases hkept

theorem Knows.run (L : B.Lawful Sim Open) (K : KeepsLiterals B Sim X) {s₀ s : B.State} {index : SpatialIndex G}
    (hrun : Run Sim (s₀, .default) (s, index)) : Knows Sim s index := by
  have hall : ∀ b : B.State × SpatialIndex G, Run Sim (s₀, .default) b → Knows Sim b.1 b.2 := by
    intro b hb
    induction hb with
    | refl => exact .start Sim s₀
    | tail _ hlast ih =>
      obtain ⟨event, hstep, hcareful⟩ := hlast
      cases hstep with
      | store hmoves => exact ih.store K hmoves hcareful
      | refresh _ hok => exact ih.refresh L K hcareful hok
      | purge _ hok => exact ih.purge L hcareful hok
  exact hall _ hrun

/-! ## A current index -/

/-- Geometries are never encoded inline. -/
theorem encodeLiteral_geometry {l : Literal} {i : TermId} {entry : Indexed G} (h : entryOf G i (.literal l) = some entry) :
    Inline.encodeLiteral X l = none := by
  obtain ⟨geometry, hgeometry, -⟩ := Option.bind_eq_some_iff.1 h
  have hdatatype : l.datatype = wktLiteral ∨ l.datatype = geoJsonLiteral := by
    unfold geometryOf at hgeometry
    dsimp only at hgeometry
    split at hgeometry
    · exact .inl ‹_›
    · split at hgeometry
      · exact .inr ‹_›
      · cases hgeometry
  unfold Inline.encodeLiteral
  rcases hdatatype with hd | hd <;> rw [hd] <;> simp [wktLiteral, geoJsonLiteral, Xsd.string, Xsd.integer, Xsd.boolean, Xsd.float, Xsd.dateTime]

/-- In a careful run, an index that is current has every stored geometry that has a box, and proposes
those that meet the probe. -/
theorem current_complete (L : B.Lawful Sim Open) (K : KeepsLiterals B Sim X) {s₀ s : B.State} {index : SpatialIndex G}
    (hrun : Run Sim (s₀, .default) (s, index)) {h : Held} (hs : Sim s h) (hcurrent : index.isCurrentFor s = true) :
    ∀ e ∈ h.contents.quads, ∀ t entry, h.ids t = some e.object → entryOf G e.object t = some entry → entry ∈ index.tree ∧
      ∀ probe rect, G.boundingRect probe = some rect → G.intersects entry.rect rect = true → e.object ∈ index.candidates probe := by
  intro e he t entry hid hentry
  have hk := Knows.run L K hrun
  have hdecode := L.decode hs hid
  unfold isCurrentFor at hcurrent
  rw [Bool.and_eq_true, decide_eq_true_eq, Bool.or_eq_true, List.isEmpty_iff, beq_iff_eq, L.len hs] at hcurrent
  have htag : e.object.tag = .literal := by
    cases t with
    | literal l =>
      refine (K.tag hs hid).resolve_right fun hinline => ?_
      rw [encodeLiteral_geometry hentry] at hinline
      cases hinline
    | _ => cases hentry
  have hin : entry ∈ index.tree := by
    refine (hk.known htag hdecode hentry ((K.issued htag hdecode).trans_le hcurrent.1)).resolve_right fun hdormant => ?_
    have hlast := hcurrent.2.resolve_left (List.ne_nil_of_mem hdormant)
    exact hk.checked hs hlast.symm ⟨e, he, t, entry, hid, hentry, hdormant⟩
  refine ⟨hin, fun probe rect hrect hmeets => ?_⟩
  unfold candidates
  rw [hrect]
  exact List.mem_map.2 ⟨entry, List.mem_filter.2 ⟨hin, hmeets⟩, entryOf_term hentry⟩

/-! ## In memory -/

open MemoryStorage (Stands)

/-- An in-memory dictionary only grows. -/
theorem Moves.grown {m m' : MemoryStorage} (h : Moves (MemoryStorage.backend X) m m') : m.dictionary.Grown m'.dictionary := by
  rcases h with ⟨t, r, henc⟩ | ⟨op, r, hw⟩ | hb | ⟨b, r, hc⟩ | rfl
  · obtain ⟨⟨i, m₁⟩, he, heq⟩ := Option.map_eq_some_iff.1 henc
    cases heq
    obtain ⟨⟨j, d⟩, hdict, heq⟩ := Option.map_eq_some_iff.1 he
    cases heq
    exact (Dictionary.encode_spec hdict).2
  · cases hw
    rw [MemoryStorage.write_dictionary]
    exact .refl _
  · change MemoryStorage.begin m = .ok m' at hb
    unfold MemoryStorage.begin at hb
    split_ifs at hb
    cases hb
    exact .refl _
  · simp only [MemoryStorage.backend, MemoryStorage.commit] at hc
    split_ifs at hc <;> cases hc <;> exact .refl _
  · have hsame : ((MemoryStorage.backend X).rollback m).dictionary = m.dictionary := MemoryStorage.rollback_dictionary m
    rw [hsame]
    exact .refl _

/-- A literal id decodes to the entry it numbers. -/
theorem decode_literal {m : MemoryStorage} {i : TermId} (htag : i.tag = .literal) :
    m.decode X i = .ok (m.dictionary.literals.entries[i.payload]?.map .literal) := by
  unfold MemoryStorage.decode Dictionary.decode Dictionary.decodeAt
  rw [htag]

theorem keepsLiterals : KeepsLiterals (MemoryStorage.backend X) (Stands X) X where
  grows h := h.grown.countFor .literal
  older := by
    intro (m : MemoryStorage) (m' : MemoryStorage) i t h htag hdecode
    change MemoryStorage.decode X m' i = _ at hdecode
    rw [decode_literal htag] at hdecode
    by_cases hlt : i.payload < m.dictionary.literals.entries.length
    · left
      have hsame := h.grown.literals.get (List.getElem?_eq_getElem hlt)
      rw [hsame] at hdecode
      change MemoryStorage.decode X m i = _
      rw [decode_literal htag, List.getElem?_eq_getElem hlt]
      exact hdecode
    · exact .inr (Nat.le_of_not_lt hlt)
  issued := by
    intro (m : MemoryStorage) i t htag hdecode
    change MemoryStorage.decode X m i = _ at hdecode
    rw [decode_literal htag, Except.ok.injEq, Option.map_eq_some_iff] at hdecode
    obtain ⟨l, hget, -⟩ := hdecode
    exact (List.getElem?_eq_some_iff.1 hget).1
  walk hok htag hdecode hm hn := MemoryStorage.mem_forEachInRange rfl hok hdecode htag hm hn
  tag := by
    intro m h l i hs hi
    rw [hs.ids] at hi
    unfold Dictionary.lookup at hi
    cases hinline : Inline.encodeLiteral X l with
    | some id =>
      rw [hinline] at hi
      exact .inr hi
    | none =>
      rw [hinline] at hi
      obtain ⟨n, -, hchecked⟩ := Option.bind_eq_some_iff.1 hi
      exact .inl (TermId.checked_eq_some hchecked).1

/-! ## A dot that comes back -/

/-- Every text is one dot, and every box meets every other. -/
def dots : Geo where
  Geometry := Unit
  Rect := Unit
  parseWkt _ := some ()
  parseGeoJson _ := none
  boundingRect _ := some ()
  isFinite _ := true
  intersects _ _ := true

abbrev Memory := MemoryStorage.backend Dictionary.bare

def place : Literal := .typed "POINT(0 0)" wktLiteral (by decide)

def placeId : TermId := .small .literal 0

/-- A quad about the dot, and one that is not. -/
def located : EncodedQuad := ⟨placeId, placeId, placeId, none⟩

def named : EncodedQuad := ⟨placeId, placeId, .small .iri 0, none⟩

/-- A store that knows the dot, and what writes make of it. -/
def knowing : MemoryStorage := ((MemoryStorage.new.encode Dictionary.bare (.literal place)).map (·.2)).getD .new

def written (ops : List Index.Op) : MemoryStorage := ops.foldl (fun m op => (m.write op).2) knowing

theorem knowing_stands : ∃ ids, ids (.literal place) = some placeId ∧ Stands Dictionary.bare knowing ⟨.empty, ids, none⟩ := by
  have hnew := MemoryStorage.new_stands Dictionary.bare_lawful
  have henc : Memory.encode MemoryStorage.new (.literal place) = some (.ok placeId, knowing) := rfl
  obtain ⟨ids, -, hid, hs⟩ := (MemoryStorage.lawful Dictionary.bare_lawful).encode hnew (.inr rfl) henc
  exact ⟨ids, hid, hs⟩

theorem written_stands {ids : Ids} (hs : Stands Dictionary.bare knowing ⟨.empty, ids, none⟩) (ops : List Index.Op) :
    Stands Dictionary.bare (written ops) (ops.foldl Held.write ⟨.empty, ids, none⟩) := by
  induction ops using List.reverseRecOn with
  | nil => exact hs
  | append_singleton ops op ih =>
    unfold written at ih ⊢
    rw [List.foldl_append, List.foldl_append]
    exact (ih.write op).2

theorem written_moves (ops : List Index.Op) (op : Index.Op) : Moves Memory (written ops) (written (ops ++ [op])) := by
  unfold written
  rw [List.foldl_append]
  exact .inr (.inl ⟨op, _, rfl⟩)

theorem current_complete_dot :
    (⟨placeId, ()⟩ : Indexed dots) ∈ (⟨[⟨placeId, ()⟩], 1, [], 1⟩ : SpatialIndex dots).tree ∧
      placeId ∈ (⟨[⟨placeId, ()⟩], 1, [], 1⟩ : SpatialIndex dots).candidates () := by
  obtain ⟨ids, hid, hs⟩ := knowing_stands
  have hwritten := written_stands hs [.insert located]
  have hrun : @Run dots Memory (Stands Dictionary.bare) (knowing, .default) (written [.insert located], ⟨[⟨placeId, ()⟩], 1, [], 1⟩) := by
    have hnone : ∀ h, ¬Watched (.default : SpatialIndex dots) h := by
      rintro h ⟨e, -, t, entry, -, -, hdormant⟩
      cases hdormant
    refine (Relation.ReflTransGen.single ⟨.store, .store (written_moves [] (.insert located)), fun h _ hw => absurd hw (hnone h)⟩).tail
      ⟨.refresh, .refresh hwritten rfl, fun h _ hw => absurd hw (hnone h)⟩
  have h := current_complete (MemoryStorage.lawful Dictionary.bare_lawful) keepsLiterals hrun hwritten rfl located (Finset.mem_insert_self _ _)
    (.literal place) ⟨placeId, ()⟩ hid rfl
  exact ⟨h.1, h.2 () () rfl rfl⟩

/-- What a run over the store comes to. -/
def Ran (ops : List Index.Op) (index : SpatialIndex dots) : Prop :=
  Relation.ReflTransGen (fun a b => ∃ e, @Step dots Memory (Stands Dictionary.bare) e a b) (knowing, .default) (written ops, index)

theorem Ran.store {ops : List Index.Op} {index : SpatialIndex dots} (h : Ran ops index) (op : Index.Op) : Ran (ops ++ [op]) index :=
  Relation.ReflTransGen.tail h ⟨.store, .store (written_moves ops op)⟩

theorem Ran.refresh {ops : List Index.Op} {index index' : SpatialIndex dots} (h : Ran ops index)
    (hok : @SpatialIndex.refresh dots Memory index (written ops) = .ok index') : Ran ops index' := by
  obtain ⟨ids, -, hs⟩ := knowing_stands
  exact Relation.ReflTransGen.tail h ⟨.refresh, .refresh (written_stands hs ops) hok⟩

theorem Ran.purge {ops : List Index.Op} {index index' : SpatialIndex dots} {report : PurgeReport} (h : Ran ops index)
    (hok : @SpatialIndex.purge dots Memory index (written ops) = .ok (report, index')) : Ran ops index' := by
  obtain ⟨ids, -, hs⟩ := knowing_stands
  exact Relation.ReflTransGen.tail h ⟨.purge, .purge (written_stands hs ops) hok⟩

/-- A dot is purged, another quad comes and is read, and goes again as the dot comes back: the count is
that of the last check, and the index is current without the dot. -/
theorem current_incomplete :
    ¬∀ (s : Memory.State) (index : SpatialIndex dots), Relation.ReflTransGen (fun a b => ∃ e, @Step dots Memory (Stands Dictionary.bare) e a b)
      (knowing, .default) (s, index) → ∀ h, Stands Dictionary.bare s h → @isCurrentFor dots Memory index s = true →
        ∀ e ∈ h.contents.quads, ∀ t entry, h.ids t = some e.object → entryOf dots e.object t = some entry → entry ∈ index.tree := by
  intro hall
  obtain ⟨ids, hid, hs⟩ := knowing_stands
  have hfirst : Ran [] .default := .refl
  have hindexed : Ran [.insert located] ⟨[⟨placeId, ()⟩], 1, [], 1⟩ := (hfirst.store _).refresh rfl
  have hpurged : Ran [.insert located, .remove located] ⟨[], 1, [placeId], 0⟩ := (hindexed.store _).purge rfl
  have hread : Ran [.insert located, .remove located, .insert named] ⟨[], 1, [placeId], 1⟩ := (hpurged.store _).refresh rfl
  have hback := (hread.store (.remove named)).store (.insert located)
  have hin := hall _ _ hback _ (written_stands hs _) rfl located (Finset.mem_insert_self _ _) (.literal place) ⟨placeId, ()⟩ hid rfl
  cases hin

end Holos.Spatial
