import Holos.Engine.SessionRuns
import Holos.Store.DictionaryTheorems
import Holos.Store.MemoryBackend
import Holos.Store.Naming
/-!
# A session over the in-memory tier

No IRI of that tier loses its id: the dictionary is not part of a scope. So the policy a session
returns is never out of date.
-/

namespace Holos

theorem Contents.mem_apply {c : Contents} {op : Index.Op} {e : EncodedQuad} (h : e ∈ (c.apply op).quads) : op = .insert e ∨ e ∈ c.quads := by
  cases op with
  | insert q =>
    rcases Finset.mem_insert.1 h with rfl | h
    · exact .inl rfl
    · exact .inr h
  | remove q => exact .inr (Finset.mem_of_mem_erase h)
  | insertNamedGraph g => exact .inr h
  | removeNamedGraph g => exact .inr (Finset.mem_filter.1 h).1

namespace MemoryStorage

variable {X : Inline.Datatypes}

def look (m : MemoryStorage) : Look := fun n => m.dictionary.lookupNamedNode n

/-- Every quad there is, or would be after a rollback, is written by ids of IRIs. -/
def Inv (X : Inline.Datatypes) (m : MemoryStorage) : Prop :=
  ∃ h, Stands X m h ∧ (∀ e ∈ h.contents.quads, Live m.look e) ∧ ∀ c, h.saved = some c → ∀ e ∈ c.1.quads, Live m.look e

theorem later_of_dictionary {m m' : MemoryStorage} (h : m'.dictionary = m.dictionary) : (backend X).Later look m m' := by
  refine ⟨fun tag => ?_, fun n i hi => .inl ?_⟩
  · change m.dictionary.countFor tag ≤ m'.dictionary.countFor tag
    rw [h]
  · unfold look at hi ⊢
    rw [← h]
    exact hi

/-- A dictionary that has grown has the ids it had for IRIs, and others that were not given out. -/
theorem later_of_grown {m m' : MemoryStorage} (h : Dictionary.Grown m.dictionary m'.dictionary) : (backend X).Later look m m' := by
  refine ⟨h.countFor, fun n i hi => ?_⟩
  unfold look Dictionary.lookupNamedNode at hi
  cases hv : Vocab.encodeIri n with
  | some v =>
    rw [hv] at hi
    left
    unfold look Dictionary.lookupNamedNode
    rw [hv]
    exact hi
  | none =>
    rw [hv] at hi
    obtain ⟨htag, hget⟩ := Dictionary.checked_bind_get hi
    by_cases hlt : i.payload < m.dictionary.iris.entries.length
    · left
      -- the entry was there, so it is the one that is found now
      have hentry : m.dictionary.iris.entries[i.payload]? = some n := by
        rw [List.getElem?_eq_getElem hlt, ← hget]
        exact (h.iris.get (List.getElem?_eq_getElem hlt)).symm
      have hindex := (m.dictionary.iris.index_iff n i.payload).2 hentry
      rw [h.iris.index hindex] at hi
      unfold look Dictionary.lookupNamedNode
      rw [hv, hindex]
      exact hi
    · right
      refine ⟨by rw [htag]; rfl, ?_⟩
      rw [htag]
      exact not_lt.1 hlt

theorem new_inv (hX : X.Lawful) : Inv X new := by
  refine ⟨_, new_stands hX, fun e he => ?_, fun c hc => by cases hc⟩
  cases he

theorem look_eq {m m' : MemoryStorage} (h : m'.dictionary = m.dictionary) : m'.look = m.look := by
  funext n
  unfold look
  rw [h]

theorem Inv.write {m : MemoryStorage} (hm : Inv X m) {op : Index.Op} (hop : ∀ e, op = .insert e → Live m.look e) : Inv X (m.write op).2 := by
  obtain ⟨h, hs, hlive, hsaved⟩ := hm
  have hlook := look_eq (write_dictionary m op)
  refine ⟨_, (hs.write op).2, fun e he => ?_, fun c hc e he => ?_⟩
  · rw [hlook]
    exact (Contents.mem_apply he).elim (hop e) (hlive e)
  · rw [hlook]
    exact hsaved c hc e he

theorem Inv.encode (hX : X.Lawful) {m m' : MemoryStorage} (hm : Inv X m) {t : Term} {i : TermId} (henc : m.encode X t = some (i, m')) :
    Inv X m' ∧ Dictionary.Grown m.dictionary m'.dictionary := by
  obtain ⟨h, hs, hlive, hsaved⟩ := hm
  obtain ⟨ids, -, -, hs'⟩ := hs.encode hX henc
  obtain ⟨⟨i', d⟩, hd, heq⟩ := Option.map_eq_some_iff.1 henc
  cases heq
  have hgrown := (Dictionary.encode_spec hd).2
  have hmono : ∀ n i, m.look n = some i → look { m with dictionary := d } n = some i := fun n i => Dictionary.lookupNamedNode_mono hgrown
  exact ⟨⟨_, hs', fun e he => (hlive e he).mono hmono, fun c hc e he => (hsaved c hc e he).mono hmono⟩, hgrown⟩

theorem Inv.begin {m m' : MemoryStorage} (hm : Inv X m) (hok : m.begin = .ok m') : Inv X m' ∧ m'.dictionary = m.dictionary := by
  obtain ⟨h, hs, hlive, -⟩ := hm
  have hdict : m'.dictionary = m.dictionary := by
    unfold MemoryStorage.begin at hok
    split_ifs at hok
    cases hok
    rfl
  refine ⟨⟨_, (hs.begin hok).2, ?_, fun c hc e he => ?_⟩, hdict⟩
  · rw [look_eq hdict]
    exact hlive
  · cases hc
    rw [look_eq hdict]
    exact hlive e he

theorem Inv.commit {m : MemoryStorage} (hm : Inv X m) (lands : Bool) :
    Inv X ((backend X).commit lands m).2 ∧ MemoryStorage.dictionary ((backend X).commit lands m).2 = m.dictionary := by
  obtain ⟨h, hs, hlive, hsaved⟩ := hm
  cases hc : m.commit with
  | ok m' =>
    have hdict : m'.dictionary = m.dictionary := by
      unfold MemoryStorage.commit at hc
      split_ifs at hc
      cases hc
      rfl
    simp only [backend, hc]
    refine ⟨⟨_, hs.commit hc, ?_, fun c hc => by cases hc⟩, hdict⟩
    rw [look_eq hdict]
    exact hlive
  | error e =>
    simp only [backend, hc]
    exact ⟨⟨h, hs, hlive, hsaved⟩, trivial⟩

theorem Inv.rollback {m : MemoryStorage} (hm : Inv X m) : Inv X m.rollback := by
  obtain ⟨h, hs, hlive, hsaved⟩ := hm
  have hlook := look_eq (rollback_dictionary m)
  cases hc : h.saved with
  | none =>
    have hscope : m.undo = none := by
      have hsome := hs.sim.scope
      simp only [hc, Option.map_none, Option.isSome_none] at hsome
      exact Option.not_isSome_iff_eq_none.1 (by rw [hsome]; exact Bool.false_ne_true)
    have hsame : m.rollback = m := by
      unfold MemoryStorage.rollback
      rw [hscope]
    rw [hsame]
    exact ⟨h, hs, hlive, hsaved⟩
  | some c =>
    refine ⟨_, hs.rollback hc, fun e he => ?_, fun c hc => by cases hc⟩
    rw [hlook]
    exact hsaved c hc e he

theorem naming (hX : X.Lawful) : (backend X).Naming (Inv X) look where
  lookup _ := rfl
  inj := by
    rintro m n n' i ⟨h, hs, -⟩ hn hn'
    exact Term.namedNode.inj (Dictionary.lookup_injective hX hs.valid (t := .namedNode n) (u := .namedNode n') hn hn')
  tag := by
    rintro m n i - hn
    rcases Dictionary.lookupNamedNode_cases hn with hv | ⟨htag, -⟩
    · rw [(Vocab.decodeIri_encodeIri hv).1]
      exact fun h => by cases h
    · rw [htag]
      exact fun h => by cases h
  issued := by
    rintro m n i - hn hissues
    exact Dictionary.lookup_issued hX (t := .namedNode n) hn hissues
  len _ := rfl
  contains := by
    rintro m e ⟨h, hs, hlive, -⟩
    refine ⟨_, rfl, fun hmem => hlive e ?_⟩
    rw [containsEncoded_eq hs.sim.holds] at hmem
    exact of_decide_eq_true hmem
  encode := by
    rintro m t r m' hm henc
    obtain ⟨⟨i, m₁⟩, he, heq⟩ := Option.map_eq_some_iff.1 henc
    cases heq
    obtain ⟨hm', hgrown⟩ := hm.encode hX he
    exact ⟨hm', later_of_grown hgrown, fun n i => Dictionary.lookupNamedNode_mono hgrown⟩
  write := by
    rintro m op r m' hm hop hw
    cases hw
    exact ⟨hm.write hop, later_of_dictionary (write_dictionary m op), look_eq (write_dictionary m op)⟩
  begin := by
    rintro m m' hm hok
    obtain ⟨hm', hdict⟩ := hm.begin hok
    exact ⟨hm', later_of_dictionary hdict, look_eq hdict⟩
  commit := by
    rintro m lands r m' hm hc
    obtain ⟨hm', hdict⟩ := hm.commit lands
    rw [hc] at hm' hdict
    exact ⟨hm', later_of_dictionary hdict, fun n i hi => by rw [← look_eq hdict]; exact hi⟩
  rollback := by
    rintro m hm
    refine ⟨hm.rollback, later_of_dictionary (rollback_dictionary m), fun n i hi => ?_⟩
    rw [← look_eq (rollback_dictionary m)]
    exact hi

theorem remembers : (backend X).Remembers (Inv X) look where
  commit := by
    rintro m lands r m' hm hc
    have hdict := (hm.commit lands).2
    rw [hc] at hdict
    exact look_eq hdict
  rollback _ := look_eq (rollback_dictionary _)

end MemoryStorage

namespace World

open Lib Lib.Eff Security

/-- Whatever is interned, written, committed and given up between the calls, the policy a session
returns decides every stored quad as one compiled then and there. -/
theorem memory_policy_current {X : Inline.Datatypes} (hX : X.Lawful) {w w' : World (MemoryStorage.backend X) Unit}
    (hopen : Opened (B := MemoryStorage.backend X) .new w) (hrun : Runs Known w w') : w'.Current :=
  current_of_remembers (MemoryStorage.naming hX) MemoryStorage.remembers (MemoryStorage.new_inv hX) hopen hrun

/-- Nobody may do anything with one predicate. -/
def withheld : Policy := ⟨.allow, .filter, [⟨.deny, .all, .predicate "urn:p", .everyone⟩], [], Label.default⟩

/-- A session opened before its predicate has an id, and a quad stored with it. -/
theorem memory_policy_current_withheld : ∃ (w w' : World (MemoryStorage.backend Dictionary.bare) Unit) (e : EncodedQuad),
    Opened (B := MemoryStorage.backend Dictionary.bare) .new w ∧ w.session.policy = withheld ∧ Runs Known w w' ∧
    MemoryStorage.containsEncoded w'.store e = true ∧ w'.Current := by
  have hsome : (MemoryStorage.encode Dictionary.bare .new (.namedNode "urn:p")).isSome = true := by decide +kernel
  obtain ⟨⟨i, m⟩, henc⟩ := Option.isSome_iff_exists.1 hsome
  obtain ⟨ids, -, hi, hs⟩ := (MemoryStorage.new_stands Dictionary.bare_lawful).encode Dictionary.bare_lawful henc
  have hlookup : m.lookup Dictionary.bare (.namedNode "urn:p") = some i := by
    rw [← hi]
    exact (hs.ids _).symm
  obtain ⟨compiled, hcompiled, -⟩ := compileWith_slots (MemoryStorage.look .new) withheld .anonymous 0
  obtain ⟨w, hw⟩ : ∃ w : World (MemoryStorage.backend Dictionary.bare) Unit, w = ⟨.new, ⟨.anonymous, withheld, compiled⟩, ()⟩ := ⟨_, rfl⟩
  have hopen : Opened (B := MemoryStorage.backend Dictionary.bare) .new w := by
    subst hw
    refine ⟨rfl, ?_⟩
    unfold Session.open
    change (do return ⟨.anonymous, withheld, ← withheld.compileWith (resolving (MemoryStorage.look .new)) 0 .anonymous⟩ :
      Except StorageError Session) = _
    rw [hcompiled]
    rfl
  have hencode : w.step (.encode (.namedNode "urn:p")) = some { w with store := m } := by
    subst hw
    simp only [step, next, encodeTerm, Eff.exec_of, MemoryStorage.backend, henc, Option.map_some]
  have hwrite : World.step (B := MemoryStorage.backend Dictionary.bare) { w with store := m } (.write (.insert ⟨i, i, i, none⟩)) =
      some { w with store := (MemoryStorage.write m (.insert ⟨i, i, i, none⟩)).2 } := rfl
  have hrun : Runs Known w { w with store := (MemoryStorage.write m (.insert ⟨i, i, i, none⟩)).2 } :=
    .tail (.tail .refl ⟨.encode (.namedNode "urn:p"), trivial, hencode⟩)
      ⟨.write (.insert ⟨i, i, i, none⟩), ⟨⟨"urn:p", congrArg Except.ok hlookup⟩, fun g hg => by cases hg⟩, hwrite⟩
  refine ⟨w, _, ⟨i, i, i, none⟩, hopen, by rw [hw], hrun, ?_, memory_policy_current Dictionary.bare_lawful hopen hrun⟩
  have hafter := (hs.write (.insert ⟨i, i, i, none⟩)).2
  rw [MemoryStorage.containsEncoded_eq hafter.sim.holds]
  exact decide_eq_true (Finset.mem_insert_self _ _)

end World

end Holos
