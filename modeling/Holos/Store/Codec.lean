import Holos.Inline
import Holos.Lib.Bytes
import Holos.Store.Rocks
/-!
# The on-disk byte encodings

Ids are written big-endian, so that the byte order of keys is the order of the ids in them. A term is
written as a tag and its strings, each but the last with its length before it; a triple term as the
ids of its parts. Reading takes any bytes: it checks every slice it takes, and ends in a term or in
an error.
-/

namespace Holos.Codec

open Lib.Bytes
open Inline (utf8 fromUtf8)

/-! ## Keys -/

/-- Bytes per term id in a key. -/
def ID : Nat := 8

/-- Writes a term id big-endian. -/
def putId (id : TermId) : List UInt8 := be ID id.val

/-- Builds a key from term ids, in the order given. -/
def key (ids : List TermId) : List UInt8 := ids.flatMap putId

theorem id_lt (id : TermId) : id.val < 256 ^ ID := id.isLt

/-- Keys are in byte order exactly when the tuples they were built from are. -/
theorem key_lt_key_iff (xs ys : List TermId) : key xs < key ys ↔ xs < ys := by
  induction xs generalizing ys with
  | nil =>
    cases ys with
    | nil => simp [key]
    | cons y ys =>
      have hfirst : key (y :: ys) = putId y ++ key ys := rfl
      have hlen : 0 < (key (y :: ys)).length := by
        rw [hfirst, List.length_append, putId, length_be]
        exact Nat.lt_of_lt_of_le (by decide) (Nat.le_add_right _ _)
      obtain ⟨b, bs, hbs⟩ := List.exists_cons_of_length_pos hlen
      rw [hbs]
      simp [key]
  | cons x xs ih =>
    cases ys with
    | nil => simp [key]
    | cons y ys =>
      change be ID x.val ++ key xs < be ID y.val ++ key ys ↔ _
      rw [be_append_lt_iff (id_lt x) (id_lt y), ih, List.cons_lt_cons_iff, Fin.lt_def, Fin.ext_iff]

/-! ## Slices

A read returns an error, a value, or panics on a range that is not there. -/

/-- What a reader returns; `none` is a panic. -/
abbrev Read (α : Type) := Option (Except StorageError α)

namespace Read
variable {α β : Type}

def ok (a : α) : Read α := some (.ok a)

def corruption (detail : String) : Read α := some (.error (.corruption detail))

def bind (r : Read α) (f : α → Read β) : Read β :=
  match r with
  | none => none
  | some (.error e) => some (.error e)
  | some (.ok a) => f a

instance : Monad Read where
  pure := ok
  bind := bind

end Read

/-- `bytes.get(from..upto)`. -/
def getRange (bytes : List UInt8) (start upto : Nat) : Option (List UInt8) :=
  if start ≤ upto ∧ upto ≤ bytes.length then some ((bytes.take upto).drop start) else none

/-- `&bytes[from..]`. -/
def sliceFrom (bytes : List UInt8) (start : Nat) : Read (List UInt8) :=
  if start ≤ bytes.length then Read.ok (bytes.drop start) else none

/-- What the standard library says of bytes that are not UTF-8. -/
abbrev Describe := List UInt8 → String

def asStr (describe : Describe) (bytes : List UInt8) : Read String :=
  match fromUtf8 bytes with
  | some s => .ok s
  | none => .corruption s!"term row is not UTF-8: {describe bytes}"

/-- Reads a term id big-endian. -/
def readId (bytes : List UInt8) : Read TermId :=
  match getRange bytes 0 ID with
  | some arr => .ok (Fin.ofNat (2 ^ 64) (ofBe arr))
  | none => .corruption "key is shorter than a term id"

/-- Splits a key back into its three term ids. -/
def splitKey3 (bytes : List UInt8) : Read (TermId × TermId × TermId) :=
  if bytes.length ≠ 3 * ID then .corruption s!"expected a {3 * ID}-byte key, got {bytes.length}"
  else do
    let a ← readId (← sliceFrom bytes (0 * ID))
    let b ← readId (← sliceFrom bytes (1 * ID))
    let c ← readId (← sliceFrom bytes (2 * ID))
    return (a, b, c)

/-! ## Terms -/

def T_IRI : UInt8 := 0
def T_BLANK : UInt8 := 1
def T_SIMPLE : UInt8 := 2
def T_TYPED : UInt8 := 3
def T_LANG : UInt8 := 4
def T_LANG_DIR : UInt8 := 5
def T_TRIPLE : UInt8 := 6

/-- A string with its length before it; `none` is the panic on one longer than the length field can
say. -/
def putStr (s : String) : Option (List UInt8) :=
  if (utf8 s).length < 2 ^ 32 then some (be 4 (utf8 s).length ++ utf8 s) else none

def directionByte : BaseDirection → UInt8
  | .ltr => 0
  | .rtl => 1

/-- Serialises a term. `none` is a panic: a length field that is too small, or a triple term without
the ids of its parts. -/
def putTerm (term : Term) (tripleComponents : Option (TermId × TermId × TermId)) : Option (List UInt8) :=
  match term with
  | .namedNode n => some (T_IRI :: utf8 n)
  | .blankNode b => some (T_BLANK :: utf8 b)
  | .literal l =>
    match l.language, l.direction with
    | some lang, some dir => (putStr lang).map (fun s => T_LANG_DIR :: directionByte dir :: s ++ utf8 l.value)
    | some lang, none => (putStr lang).map (fun s => T_LANG :: s ++ utf8 l.value)
    | none, _ =>
      if l.datatype = Xsd.string then some (T_SIMPLE :: utf8 l.value)
      else (putStr l.datatype).map (fun s => T_TYPED :: s ++ utf8 l.value)
  | .triple _ _ _ => tripleComponents.map (fun ids => T_TRIPLE :: key [ids.1, ids.2.1, ids.2.2])

/-- A string whose length stands before it, and what follows. -/
def readStr (describe : Describe) (bytes : List UInt8) : Read (String × List UInt8) :=
  match getRange bytes 0 4 with
  | none => .corruption "truncated length prefix"
  | some four =>
    let len := ofBe four
    match getRange bytes 4 (4 + len) with
    | none => .corruption "truncated string"
    | some s => do
      let string ← asStr describe s
      let rest ← sliceFrom bytes (4 + len)
      return (string, rest)

/-- Deserialises a term: a complete one, or the ids of a triple term's parts. -/
def readTerm (describe : Describe) (bytes : List UInt8) : Read StoredTerm :=
  match bytes with
  | [] => .corruption "empty term row"
  | tag :: rest =>
    if tag = T_IRI then do return .iri (← asStr describe rest)
    else if tag = T_BLANK then do return .blank (← asStr describe rest)
    else if tag = T_SIMPLE then do return .literal (.simple (← asStr describe rest))
    else if tag = T_TYPED then do
      let (datatype, value) ← readStr describe rest
      return .literal (.newTyped (← asStr describe value) datatype)
    else if tag = T_LANG then do
      let (lang, value) ← readStr describe rest
      return .literal (.languageTagged (← asStr describe value) lang)
    else if tag = T_LANG_DIR then
      match rest with
      | [] => .corruption "truncated directional literal"
      | d :: rest =>
        if d = 0 then do
          let (lang, value) ← readStr describe rest
          return .literal (.directional (← asStr describe value) lang .ltr)
        else if d = 1 then do
          let (lang, value) ← readStr describe rest
          return .literal (.directional (← asStr describe value) lang .rtl)
        else .corruption s!"unknown base direction {d.toNat}"
    else if tag = T_TRIPLE then do
      let (s, p, o) ← splitKey3 rest
      return .triple s p o
    else .corruption s!"unknown term tag {tag.toNat}"

/-! ## What was written is read -/

variable {describe : Describe}

@[simp] theorem ok_bind {α β : Type} (a : α) (f : α → Read β) : (Read.ok a >>= f) = f a := rfl

theorem asStr_utf8 (s : String) : asStr describe (utf8 s) = .ok s := by
  rw [asStr, Inline.fromUtf8_utf8]

theorem getRange_append (xs ys zs : List UInt8) : getRange (xs ++ ys ++ zs) xs.length (xs.length + ys.length) = some ys := by
  rw [getRange, if_pos (by simp), List.append_assoc, List.take_append, List.drop_append]
  simp

theorem sliceFrom_append (xs ys : List UInt8) : sliceFrom (xs ++ ys) xs.length = .ok ys := by
  rw [sliceFrom, if_pos (by simp), List.drop_left]

theorem readStr_put {s : String} {bytes value : List UInt8} (h : putStr s = some bytes) :
    readStr describe (bytes ++ value) = .ok (s, value) := by
  unfold putStr at h
  split at h
  · rename_i hlen
    cases h
    have hfour : getRange (be 4 (utf8 s).length ++ utf8 s ++ value) 0 4 = some (be 4 (utf8 s).length) := by
      have := getRange_append [] (be 4 (utf8 s).length) (utf8 s ++ value)
      rwa [List.nil_append, List.length_nil, length_be, Nat.zero_add, ← List.append_assoc] at this
    have hstring : getRange (be 4 (utf8 s).length ++ utf8 s ++ value) 4 (4 + (utf8 s).length) = some (utf8 s) := by
      have := getRange_append (be 4 (utf8 s).length) (utf8 s) value
      rwa [length_be] at this
    have hrest : sliceFrom (be 4 (utf8 s).length ++ utf8 s ++ value) (4 + (utf8 s).length) = .ok value := by
      have := sliceFrom_append (be 4 (utf8 s).length ++ utf8 s) value
      rwa [List.length_append, length_be] at this
    simp only [readStr, hfour, @ofBe_be 4 _ hlen, hstring, asStr_utf8, hrest, ok_bind]
    rfl
  · cases h

theorem readId_put (id : TermId) (rest : List UInt8) : readId (putId id ++ rest) = .ok id := by
  have hid : getRange (putId id ++ rest) 0 ID = some (putId id) := by
    have := getRange_append [] (putId id) rest
    rwa [List.nil_append, List.length_nil, putId, length_be, Nat.zero_add] at this
  rw [readId, hid]
  simp only [putId, ofBe_be (id_lt id)]
  congr 1
  exact Fin.ext (Nat.mod_eq_of_lt id.isLt)

theorem splitKey3_key (a b c : TermId) : splitKey3 (key [a, b, c]) = .ok (a, b, c) := by
  have hkey : key [a, b, c] = putId a ++ (putId b ++ (putId c ++ [])) := rfl
  have hlen : ∀ id, (putId id).length = ID := fun id => length_be _ _
  have hfirst : sliceFrom (key [a, b, c]) (0 * ID) = .ok (putId a ++ (putId b ++ (putId c ++ []))) := by
    rw [hkey, Nat.zero_mul]
    exact sliceFrom_append [] _
  have hsecond : sliceFrom (key [a, b, c]) (1 * ID) = .ok (putId b ++ (putId c ++ [])) := by
    have := sliceFrom_append (putId a) (putId b ++ (putId c ++ []))
    rwa [hlen, ← Nat.one_mul ID] at this
  have hthird : sliceFrom (key [a, b, c]) (2 * ID) = .ok (putId c ++ []) := by
    have := sliceFrom_append (putId a ++ putId b) (putId c ++ [])
    rwa [List.length_append, hlen, hlen, ← Nat.two_mul, List.append_assoc] at this
  rw [splitKey3, if_neg]
  · rw [hfirst, hsecond, hthird]
    simp only [ok_bind, readId_put]
    rfl
  · rw [hkey]
    simp only [List.length_append, hlen, List.length_nil, not_not]
    rfl

/-- What a row stands for. -/
def storedTerm (term : Term) (tripleComponents : Option (TermId × TermId × TermId)) : Option StoredTerm :=
  match term with
  | .namedNode n => some (.iri n)
  | .blankNode b => some (.blank b)
  | .literal l => some (.literal l)
  | .triple _ _ _ => tripleComponents.map (fun ids => .triple ids.1 ids.2.1 ids.2.2)

theorem readTerm_put {term : Term} {components : Option (TermId × TermId × TermId)} {bytes : List UInt8}
    (h : putTerm term components = some bytes) :
    ∃ stored, storedTerm term components = some stored ∧ readTerm describe bytes = .ok stored := by
  cases term with
  | namedNode n =>
    cases h
    exact ⟨.iri n, rfl, by simp [readTerm, asStr_utf8]; rfl⟩
  | blankNode b =>
    cases h
    exact ⟨.blank b, rfl, by simp [readTerm, T_IRI, T_BLANK, asStr_utf8]; rfl⟩
  | triple s p o =>
    obtain ⟨⟨a, b, c⟩, hids, hbytes⟩ := Option.map_eq_some_iff.1 h
    subst hbytes
    refine ⟨.triple a b c, by rw [storedTerm, hids]; rfl, ?_⟩
    simp only [readTerm, T_IRI, T_BLANK, T_SIMPLE, T_TYPED, T_LANG, T_LANG_DIR, T_TRIPLE, splitKey3_key, ok_bind]
    rfl
  | literal l =>
    refine ⟨.literal l, rfl, ?_⟩
    cases l with
    | simple v =>
      cases h
      simp [readTerm, T_IRI, T_BLANK, T_SIMPLE, Literal.value, asStr_utf8]
      rfl
    | typed v d hd =>
      have hput : (putStr d).map (fun s => T_TYPED :: s ++ utf8 v) = some bytes := by
        simpa [putTerm, Literal.language, Literal.datatype, hd, Literal.value] using h
      obtain ⟨s, hs, rfl⟩ := Option.map_eq_some_iff.1 hput
      simp [readTerm, T_IRI, T_BLANK, T_SIMPLE, T_TYPED, readStr_put hs, asStr_utf8, Literal.newTyped, hd]
      rfl
    | languageTagged v lang =>
      obtain ⟨s, hs, rfl⟩ := Option.map_eq_some_iff.1 h
      simp [readTerm, T_IRI, T_BLANK, T_SIMPLE, T_TYPED, T_LANG, readStr_put hs, asStr_utf8, Literal.value]
      rfl
    | directional v lang dir =>
      obtain ⟨s, hs, rfl⟩ := Option.map_eq_some_iff.1 h
      cases dir <;>
        simp [readTerm, T_IRI, T_BLANK, T_SIMPLE, T_TYPED, T_LANG, T_LANG_DIR, directionByte, readStr_put hs, asStr_utf8,
          Literal.value] <;> rfl

/-! ## Any bytes are read -/

theorem bind_safe {α β : Type} {r : Read α} {f : α → Read β} (hr : r ≠ none) (hf : ∀ a, r = .ok a → f a ≠ none) :
    (r >>= f) ≠ none := by
  match r, hr with
  | some (.error e), _ => exact Option.some_ne_none _
  | some (.ok a), _ => exact hf a rfl

theorem asStr_safe (bytes : List UInt8) : asStr describe bytes ≠ none := by
  unfold asStr
  split <;> exact Option.some_ne_none _

theorem readStr_safe (bytes : List UInt8) : readStr describe bytes ≠ none := by
  unfold readStr
  split
  · exact Option.some_ne_none _
  · rename_i four _
    dsimp only
    split
    · exact Option.some_ne_none _
    · rename_i s hs
      -- the length was checked when the string was taken
      have hlen : 4 + ofBe four ≤ bytes.length := by
        unfold getRange at hs
        split at hs
        · rename_i hrange
          exact hrange.2
        · cases hs
      have hrest : sliceFrom bytes (4 + ofBe four) = .ok (bytes.drop (4 + ofBe four)) := by
        rw [sliceFrom, if_pos hlen]
      refine bind_safe (asStr_safe s) (fun string _ => ?_)
      rw [hrest]
      exact Option.some_ne_none _

theorem readId_safe (bytes : List UInt8) : readId bytes ≠ none := by
  unfold readId
  split <;> exact Option.some_ne_none _

theorem splitKey3_safe (bytes : List UInt8) : splitKey3 bytes ≠ none := by
  unfold splitKey3
  split
  · exact Option.some_ne_none _
  · rename_i hlen
    have hslice : ∀ i, i < 3 → sliceFrom bytes (i * ID) ≠ none := by
      intro i hi
      rw [sliceFrom, if_pos]
      · exact Option.some_ne_none _
      · rw [not_not.1 hlen]
        exact Nat.mul_le_mul_right ID hi.le
    refine bind_safe (hslice 0 (by decide)) (fun xs _ => bind_safe (readId_safe xs) (fun a _ => ?_))
    refine bind_safe (hslice 1 (by decide)) (fun ys _ => bind_safe (readId_safe ys) (fun b _ => ?_))
    exact bind_safe (hslice 2 (by decide)) (fun zs _ => bind_safe (readId_safe zs) (fun c _ => Option.some_ne_none _))

theorem readTerm_safe (bytes : List UInt8) : readTerm describe bytes ≠ none := by
  have htail : ∀ (rest : List UInt8) (f : String → StoredTerm), (do return f (← asStr describe rest) : Read StoredTerm) ≠ none :=
    fun rest f => bind_safe (asStr_safe rest) (fun _ _ => Option.some_ne_none _)
  have hstring : ∀ (rest : List UInt8) (f : String → String → StoredTerm),
      (do let (s, value) ← readStr describe rest; return f (← asStr describe value) s : Read StoredTerm) ≠ none :=
    fun rest f => bind_safe (readStr_safe rest) (fun _ _ => htail _ _)
  unfold readTerm
  split
  · exact Option.some_ne_none _
  · rename_i tag rest
    split_ifs
    · exact htail rest _
    · exact htail rest _
    · exact htail rest _
    · exact hstring rest (fun value datatype => .literal (.newTyped value datatype))
    · exact hstring rest (fun value lang => .literal (.languageTagged value lang))
    · split
      · exact Option.some_ne_none _
      · split_ifs
        · exact hstring _ (fun value lang => .literal (.directional value lang .ltr))
        · exact hstring _ (fun value lang => .literal (.directional value lang .rtl))
        · exact Option.some_ne_none _
    · exact bind_safe (splitKey3_safe rest) (fun _ _ => Option.some_ne_none _)
    · exact Option.some_ne_none _

/-! ## Which terms are written -/

/-- The string of a term that stands before another in its row. -/
def lengthPrefixed : Term → Option String
  | .literal (.typed _ datatype _) => some datatype
  | .literal (.languageTagged _ language) => some language
  | .literal (.directional _ language _) => some language
  | _ => none

/-- A term with a string before another of at most 2³² - 1 bytes, if any. -/
def Fits (term : Term) : Prop := ∀ s, lengthPrefixed term = some s → (utf8 s).length < 2 ^ 32

theorem putStr_isSome {s : String} : (putStr s).isSome = true ↔ (utf8 s).length < 2 ^ 32 := by
  unfold putStr
  split <;> simp_all

theorem putTerm_isSome {term : Term} {components : Option (TermId × TermId × TermId)} (hid : (storedTerm term components).isSome = true) :
    (putTerm term components).isSome = true ↔ Fits term := by
  cases term with
  | namedNode n => simp [putTerm, Fits, lengthPrefixed]
  | blankNode b => simp [putTerm, Fits, lengthPrefixed]
  | triple s p o =>
    have hids : components.isSome = true := by simpa [storedTerm] using hid
    simp [putTerm, Fits, lengthPrefixed, hids]
  | literal l =>
    cases l with
    | simple v => simp [putTerm, Fits, lengthPrefixed, Literal.language, Literal.datatype]
    | typed v d hd => simpa [putTerm, Fits, lengthPrefixed, Literal.language, Literal.datatype, hd] using putStr_isSome
    | languageTagged v lang => simpa [putTerm, Fits, lengthPrefixed, Literal.language, Literal.direction] using putStr_isSome
    | directional v lang dir => simpa [putTerm, Fits, lengthPrefixed, Literal.language, Literal.direction] using putStr_isSome

/-- A row is as long as the dictionary takes it to be. -/
theorem length_putTerm {term : Term} {components : Option (TermId × TermId × TermId)} {bytes : List UInt8} {stored : StoredTerm}
    (h : putTerm term components = some bytes) (hs : storedTerm term components = some stored) : bytes.length = stored.size := by
  have hlen : ∀ s : String, (utf8 s).length = s.utf8ByteSize := fun s => rfl
  have hput : ∀ {s : String} {row : List UInt8}, putStr s = some row → row.length = 4 + s.utf8ByteSize := by
    intro s row hrow
    unfold putStr at hrow
    split at hrow
    · cases hrow
      rw [List.length_append, length_be, hlen]
    · cases hrow
  cases term with
  | namedNode n =>
    cases h
    cases hs
    rw [List.length_cons, hlen, StoredTerm.size, Nat.add_comm]
  | blankNode b =>
    cases h
    cases hs
    rw [List.length_cons, hlen, StoredTerm.size, Nat.add_comm]
  | triple s p o =>
    obtain ⟨ids, rfl, rfl⟩ := Option.map_eq_some_iff.1 h
    cases hs
    simp [key, putId, ID, StoredTerm.size]
  | literal l =>
    cases hs
    cases l with
    | simple v =>
      cases h
      rw [List.length_cons, hlen, StoredTerm.size, Nat.add_comm]
      rfl
    | typed v d hd =>
      have hrow : (putStr d).map (fun s => T_TYPED :: s ++ utf8 v) = some bytes := by
        simpa [putTerm, Literal.language, Literal.datatype, hd, Literal.value] using h
      obtain ⟨s, hs, rfl⟩ := Option.map_eq_some_iff.1 hrow
      simp only [List.cons_append, List.length_cons, List.length_append, hput hs, hlen, StoredTerm.size]
      omega
    | languageTagged v lang =>
      obtain ⟨s, hs, rfl⟩ := Option.map_eq_some_iff.1 h
      simp only [List.cons_append, List.length_cons, List.length_append, hput hs, hlen, StoredTerm.size, Literal.value]
      omega
    | directional v lang dir =>
      obtain ⟨s, hs, rfl⟩ := Option.map_eq_some_iff.1 h
      simp only [List.cons_append, List.length_cons, List.length_append, hput hs, hlen, StoredTerm.size, Literal.value]
      omega

/-- Every term that fits is written and read back, as are the ids of a triple term's parts; two terms
that are written to the same bytes are the same; a term is not written exactly when it does not fit;
and any bytes are read. -/
theorem term_rows (describe : Describe) :
    (∀ term components stored, storedTerm term components = some stored → Fits term →
      ∃ bytes, putTerm term components = some bytes ∧ readTerm describe bytes = .ok stored) ∧
    (∀ term components term' components' bytes, putTerm term components = some bytes → putTerm term' components' = some bytes →
      storedTerm term components = storedTerm term' components') ∧
    (∀ term components stored, storedTerm term components = some stored → (putTerm term components = none ↔ ¬Fits term)) ∧
    ∀ bytes, readTerm describe bytes ≠ none := by
  refine ⟨fun term components stored hid hfits => ?_, fun term components term' components' bytes h h' => ?_,
    fun term components stored hid => ?_, readTerm_safe⟩
  · obtain ⟨bytes, hbytes⟩ := Option.isSome_iff_exists.1 ((putTerm_isSome (Option.isSome_of_mem hid)).2 hfits)
    obtain ⟨stored', hstored, hread⟩ := @readTerm_put describe _ _ _ hbytes
    rw [hid] at hstored
    cases hstored
    exact ⟨bytes, hbytes, hread⟩
  · obtain ⟨stored, hstored, hread⟩ := @readTerm_put describe _ _ _ h
    obtain ⟨stored', hstored', hread'⟩ := @readTerm_put describe _ _ _ h'
    rw [hread] at hread'
    cases hread'
    rw [hstored, hstored']
  · rw [← putTerm_isSome (Option.isSome_of_mem hid), Bool.not_eq_true, Option.isSome_eq_false_iff, Option.isNone_iff_eq_none]

/-- A datatype of `n` letters. -/
def longDatatype (n : Nat) : NamedNode := String.ofList (List.replicate n 'a')

theorem length_longDatatype (n : Nat) : (utf8 (longDatatype n)).length = n := by
  have hbytes : utf8 (longDatatype n) = (List.replicate n 'a').flatMap String.utf8EncodeChar := by
    simp [utf8, longDatatype, List.utf8Encode]
  have hone : 'a'.utf8Size = 1 := by decide
  rw [hbytes]
  simp [List.length_flatMap, hone]

/-- A literal whose datatype is too long for the length field is not written. -/
theorem long_datatype_panics : ∃ h : longDatatype (2 ^ 32) ≠ Xsd.string,
    putTerm (.literal (.typed "x" (longDatatype (2 ^ 32)) h)) none = none := by
  have hne : longDatatype (2 ^ 32) ≠ Xsd.string := by
    intro heq
    have hlen := length_longDatatype (2 ^ 32)
    rw [heq] at hlen
    exact absurd hlen (by decide)
  refine ⟨hne, ?_⟩
  have hput : putStr (longDatatype (2 ^ 32)) = none := by
    rw [putStr, if_neg]
    rw [length_longDatatype]
    exact Nat.lt_irrefl _
  simp only [putTerm, Literal.language, Literal.direction, Literal.datatype, if_neg hne, hput, Option.map_none]

end Holos.Codec
