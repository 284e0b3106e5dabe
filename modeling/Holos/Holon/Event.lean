import Holos.Holon.Model
import Holos.Vocab
import Holos.Inline
/-!
# The event graph

One node for a tick, and for each change it made a reifier that names the triple. Nodes are
numbered from the version and the change's position.
-/

namespace Holos

/-- One recorded change. -/
inductive Operation where
  | added
  | removed
deriving DecidableEq, Repr

def Operation.iri : Operation → NamedNode
  | .added => holos "Added"
  | .removed => holos "Removed"

/-- Everything one tick records. -/
structure TickRecord where
  holon : Holon
  version : Nat
  at_ : Int
  principal : NamedNode
  changes : List (Operation × Triple)
  admitted : Bool
  violations : Nat
deriving DecidableEq, Repr

def Triple.toTerm (t : Triple) : Term := .triple t.subject t.predicate t.object

namespace Event

def tick (version : Nat) : String := s!"tick{version}"

def change (version i : Nat) : String := s!"change{version}_{i}"

theorem toString_injective {n m : Nat} (h : toString n = toString m) : n = m := by
  have hdigits : Nat.toDigits 10 n = Nat.toDigits 10 m := by
    rw [← Nat.toList_repr, ← Nat.toList_repr]
    exact congrArg String.toList h
  rw [← Nat.ofDigitChars_ten_toDigits (n := n), hdigits, Nat.ofDigitChars_ten_toDigits]

theorem tick_injective : Function.Injective tick := by
  intro v v' h
  have hl : "tick" ++ toString v = "tick" ++ toString v' := h
  exact toString_injective ((String.append_right_inj _).1 hl)

/-- No digit is the underscore between the version and the position. -/
theorem change_injective {v v' i i' : Nat} (h : change v i = change v' i') : v = v' ∧ i = i' := by
  have hl : "change" ++ toString v ++ "_" ++ toString i = "change" ++ toString v' ++ "_" ++ toString i' := h
  rw [String.append_assoc, String.append_assoc, String.append_assoc, String.append_assoc, String.append_right_inj] at hl
  have hd := congrArg String.toList hl
  rw [String.toList_append, String.toList_append, String.toList_append, String.toList_append] at hd
  have hnot : ∀ n : Nat, '_' ∉ (toString n).toList := fun n hmem => by
    have hrepr : (toString n).toList = Nat.toDigits 10 n := Nat.toList_repr
    exact Nat.underscore_not_in_toDigits (hrepr ▸ hmem)
  have hlist : (toString v).toList ++ '_' :: (toString i).toList = (toString v').toList ++ '_' :: (toString i').toList := hd
  obtain ⟨hv, -, hi⟩ := (List.append_cons_inj_of_notMem (hnot v) (hnot i)).1 hlist
  exact ⟨toString_injective (String.toList_inj.1 hv), toString_injective (String.toList_inj.1 hi)⟩

/-- The quads about one change. -/
def changeQuads (record : TickRecord) (i : Nat) (operation : Operation) (triple : Triple) : List Quad :=
  let graph := GraphName.namedNode record.holon.events
  let subject := NamedOrBlankNode.blankNode (change record.version i)
  [⟨subject, Vocab.rdf "reifies", triple.toTerm, graph⟩,
    ⟨subject, holos "inTick", .blankNode (tick record.version), graph⟩,
    ⟨subject, holos "operation", .namedNode operation.iri, graph⟩]

/-- The quads about the tick itself. -/
def tickQuads (record : TickRecord) : List Quad :=
  let graph := GraphName.namedNode record.holon.events
  let say := fun p o => (⟨.blankNode (tick record.version), p, o, graph⟩ : Quad)
  [say (Vocab.rdf "type") (.namedNode (Vocab.prov "Activity")),
    say (Vocab.rdf "type") (.namedNode (holos "Tick")),
    say (holos "onHolon") (.namedNode record.holon.id),
    say (holos "version") (.literal (.newTyped (toString record.version) Xsd.integer))] ++
  (match Inline.formatUtcSeconds record.at_ with
    | some stamp => [say (Vocab.prov "startedAtTime") (.literal (.newTyped stamp Xsd.dateTime))]
    | none => []) ++
  [say (Vocab.prov "wasAssociatedWith") (.namedNode record.principal),
    say (holos "admitted") (.literal (.newTyped (if record.admitted then "true" else "false") Xsd.boolean))] ++
  (if record.violations > 0 then
    [say (holos "violations") (.literal (.newTyped (toString record.violations) Xsd.integer))] else [])

/-- Renders a tick as quads in the holon's event graph. -/
def toQuads (record : TickRecord) : List Quad :=
  tickQuads record ++ (record.changes.zipIdx.flatMap (fun c => changeQuads record c.2 c.1.1 c.1.2))

/-- Every quad lands in the holon's event graph. -/
theorem toQuads_graph {record : TickRecord} {q : Quad} (hq : q ∈ toQuads record) :
    q.graphName = .namedNode record.holon.events := by
  rcases List.mem_append.1 hq with hq | hq
  · simp only [tickQuads, List.mem_append, List.mem_cons, List.not_mem_nil, or_false] at hq
    rcases hq with ((hq | hq) | hq) | hq
    · rcases hq with rfl | rfl | rfl | rfl <;> rfl
    · split at hq
      · rw [List.mem_singleton.1 hq]
      · cases hq
    · rcases hq with rfl | rfl <;> rfl
    · split at hq
      · rw [List.mem_singleton.1 hq]
      · cases hq
  · obtain ⟨c, -, hq⟩ := List.mem_flatMap.1 hq
    simp only [changeQuads, List.mem_cons, List.not_mem_nil, or_false] at hq
    rcases hq with rfl | rfl | rfl <;> rfl

/-- The change node of a version and a position says what was done, and to which triple. -/
def Says (S : Set Quad) (events : NamedNode) (version i : Nat) (operation : Operation) (triple : Triple) : Prop :=
  (⟨.blankNode (change version i), Vocab.rdf "reifies", triple.toTerm, .namedNode events⟩ : Quad) ∈ S ∧
    (⟨.blankNode (change version i), holos "operation", .namedNode operation.iri, .namedNode events⟩ : Quad) ∈ S

theorem tick_ne_change (v v' i : Nat) : tick v ≠ change v' i := by
  intro h
  have hl : "tick" ++ toString v = "change" ++ (toString v' ++ ("_" ++ toString i)) := by
    rw [← String.append_assoc, ← String.append_assoc]
    exact h
  have hhead := congrArg (fun s => s.toList.head?) hl
  simp only [String.toList_append] at hhead
  rw [List.head?_append_of_ne_nil _ (by decide), List.head?_append_of_ne_nil _ (by decide)] at hhead
  exact absurd hhead (by decide)

theorem tickQuads_subject {record : TickRecord} {q : Quad} (hq : q ∈ tickQuads record) :
    q.subject = .blankNode (tick record.version) := by
  simp only [tickQuads, List.mem_append, List.mem_cons, List.not_mem_nil, or_false] at hq
  rcases hq with ((hq | hq) | hq) | hq
  · rcases hq with rfl | rfl | rfl | rfl <;> rfl
  · split at hq
    · rw [List.mem_singleton.1 hq]
    · cases hq
  · rcases hq with rfl | rfl <;> rfl
  · split at hq
    · rw [List.mem_singleton.1 hq]
    · cases hq

theorem changeQuads_subject {record : TickRecord} {i : Nat} {op : Operation} {t : Triple} {q : Quad}
    (hq : q ∈ changeQuads record i op t) : q.subject = .blankNode (change record.version i) := by
  simp only [changeQuads, List.mem_cons, List.not_mem_nil, or_false] at hq
  rcases hq with rfl | rfl | rfl <;> rfl

/-- What an event says of a change node is what its change there says. -/
theorem mem_toQuads_change {record : TickRecord} {v i : Nat} {q : Quad} (hq : q.subject = .blankNode (change v i)) :
    q ∈ toQuads record ↔ v = record.version ∧ ∃ op t, record.changes[i]? = some (op, t) ∧ q ∈ changeQuads record i op t := by
  constructor
  · intro hmem
    rcases List.mem_append.1 hmem with hmem | hmem
    · have hs := (tickQuads_subject hmem).symm.trans hq
      exact absurd (NamedOrBlankNode.blankNode.inj hs) (tick_ne_change _ _ _)
    · obtain ⟨⟨⟨op, t⟩, j⟩, hj, hmem⟩ := List.mem_flatMap.1 hmem
      have hs := (changeQuads_subject hmem).symm.trans hq
      obtain ⟨rfl, rfl⟩ := change_injective (NamedOrBlankNode.blankNode.inj hs)
      exact ⟨rfl, op, t, (List.mem_zipIdx_iff_getElem?.1 hj), hmem⟩
  · rintro ⟨rfl, op, t, hi, hmem⟩
    exact List.mem_append_right _ (List.mem_flatMap.2 ⟨((op, t), i), List.mem_zipIdx_iff_getElem?.2 hi, hmem⟩)

theorem Triple.toTerm_injective : Function.Injective Triple.toTerm := by
  rintro ⟨s, p, o⟩ ⟨s', p', o'⟩ h
  cases h
  rfl

theorem Operation.iri_injective : Function.Injective Operation.iri := by
  intro op op' h
  cases op <;> cases op' <;> first | rfl | exact absurd h (by decide)

/-- An event says exactly the changes of its record. -/
theorem says_toQuads {record : TickRecord} {v i : Nat} {operation : Operation} {triple : Triple} :
    Says {q | q ∈ toQuads record} record.holon.events v i operation triple ↔
      v = record.version ∧ record.changes[i]? = some (operation, triple) := by
  unfold Says
  rw [Set.mem_ofPred_eq, Set.mem_ofPred_eq, mem_toQuads_change rfl, mem_toQuads_change rfl]
  constructor
  · rintro ⟨⟨rfl, op, t, hi, hreif⟩, -, op', t', hi', hop⟩
    cases hi.symm.trans hi'
    refine ⟨rfl, ?_⟩
    have ht : triple = t := by
      simp only [changeQuads, List.mem_cons, List.not_mem_nil, or_false, Quad.mk.injEq] at hreif
      rcases hreif with ⟨-, -, h, -⟩ | ⟨-, h, -⟩ | ⟨-, h, -⟩
      · exact Triple.toTerm_injective h
      · exact absurd h (by decide)
      · exact absurd h (by decide)
    have ho : operation = op := by
      simp only [changeQuads, List.mem_cons, List.not_mem_nil, or_false, Quad.mk.injEq] at hop
      rcases hop with ⟨-, h, -⟩ | ⟨-, h, -⟩ | ⟨-, -, h, -⟩
      · exact absurd h (by decide)
      · exact absurd h (by decide)
      · exact Operation.iri_injective (Term.namedNode.inj h)
    rw [ht, ho]
    exact hi
  · rintro ⟨rfl, hi⟩
    exact ⟨⟨rfl, operation, triple, hi, by simp [changeQuads]⟩, rfl, operation, triple, hi, by simp [changeQuads]⟩

end Event

end Holos
