import Holos.Engine.Bindjoin.Abandon
import Holos.Engine.TopK
import Holos.Lib.StableSort
/-!
# What the heap answers

The heap over the bind join's ids gives the slice that the heap over the decoded rows gives, and
where the keys of the rows have an order that is the slice of the sorted rows. `topK` returns the
answer of the other paths unless the join gives the plan up: there is no token that could have been
cancelled, and the query fails as cancelled where the other paths turn to the evaluator.
-/

namespace Holos.Engine.TopK

open Sparql
open Bindjoin (givesUp readable completed outside)

variable {ev : Evaluator}

/-! ## Keys -/

section Keys
variable {C : Type} {decode : C → Except ViewError (Option Term)} {term : C → Option Term}

/-- The cells of a row, decoded. -/
def decoded (term : C → Option Term) (values : List (Option C)) : Solution := values.map (·.bind term)

/-- The key of a decoded row. -/
def Reader.read (ev : Evaluator) (values : Solution) : Reader → Option (ExpressionTerm ev)
  | .var position => (position.bind (fun i => values[i]?.join)).map (.ofTerm ev)
  | .expression e needs =>
    (ev.evaluateExpression e (needs.filterMap (fun (v, position) => values[position]?.join.map (v, ·)))).map (.ofTerm ev)

theorem join_decoded (term : C → Option Term) (values : List (Option C)) (position : Nat) :
    (decoded term values)[position]?.join = values[position]?.join.bind term := by
  rw [decoded, List.getElem?_map]
  cases values[position]? with
  | none => rfl
  | some cell => rfl

theorem decoded_some (values : Solution) : decoded some values = values := by
  simp [decoded]

theorem cellAt_eq (h : ∀ c, decode c = .ok (term c)) (values : List (Option C)) (position : Nat) :
    cellAt decode values position = .ok (decoded term values)[position]?.join := by
  rw [join_decoded, cellAt]
  cases values[position]?.join with
  | none => rfl
  | some cell => exact h cell

theorem mapM_ok {α β ε : Type} {f : α → Except ε β} {g : α → β} {l : List α} (h : ∀ a ∈ l, f a = .ok (g a)) :
    l.mapM f = .ok (l.map g) := by
  induction l with
  | nil => rfl
  | cons a l ih =>
    rw [List.mapM_cons, h a List.mem_cons_self, ih (fun b hb => h b (List.mem_cons_of_mem _ hb))]
    rfl

theorem Reader.key_eq (h : ∀ c, decode c = .ok (term c)) (values : List (Option C)) (reader : Reader) :
    reader.key ev decode values = .ok (reader.read ev (decoded term values)) := by
  cases reader with
  | var position =>
    cases position with
    | none => rfl
    | some position =>
      rw [Reader.key, cellAt_eq h]
      rfl
  | expression e needs =>
    rw [Reader.key, @mapM_ok _ _ _ _ (fun need : Variable × Nat => (need.1, (decoded term values)[need.2]?.join)) needs]
    · simp only [Reader.read, bind, Except.bind, pure, Except.pure, List.filterMap_map, Function.comp_def]
    · rintro ⟨v, position⟩ -
      simp only [cellAt_eq h]
      rfl

/-- The keys of a decoded row. -/
def keysOfRow (ev : Evaluator) (readers : List Reader) (values : Solution) : List (Option (ExpressionTerm ev)) :=
  readers.map (Reader.read ev values)

theorem readKeys_eq (h : ∀ c, decode c = .ok (term c)) (readers : List Reader) (values : List (Option C)) :
    readKeys ev decode readers values = .ok (keysOfRow ev readers (decoded term values)) :=
  mapM_ok (fun reader _ => Reader.key_eq h values reader)

end Keys

/-! ## Rows kept as ids, and decoded -/

/-- What a projection asks of a decoded row. -/
def outputOf (output : List (Option Nat)) (values : Solution) : Solution :=
  output.map (fun position => position.bind (fun i => values[i]?.join))

theorem decodeRow_eq {decode : TermId → Except ViewError (Option Term)} {term : TermId → Option Term}
    (h : ∀ id, decode id = .ok (term id)) (output : List (Option Nat)) (ids : Bindjoin.Row) :
    decodeRow decode output ids = .ok (outputOf output (decoded term ids)) := by
  apply mapM_ok
  intro position _
  cases position with
  | none => rfl
  | some i =>
    simp only [Option.bind_some, join_decoded]
    cases ids[i]?.join with
    | none => rfl
    | some id => exact h id

theorem decodeCells_eq {decode : TermId → Except ViewError (Option Term)} {term : TermId → Option Term}
    (h : ∀ id, decode id = .ok (term id)) (ids : Bindjoin.Row) : ids.mapM (decodeCell decode) = .ok (decoded term ids) := by
  apply mapM_ok
  intro cell _
  cases cell with
  | none => rfl
  | some id => exact h id

namespace Collector
variable {R S : Type} (plan : Plan) (held : Nat)

/-- A heap with something else kept of each row. -/
def map (f : R → S) (collector : Collector ev R) : Collector ev S :=
  ⟨collector.heap.map (fun entry => ⟨entry.keys, f entry.row, entry.seq⟩), collector.seq⟩

theorem offer_map (f : R → S) (collector : Collector ev R) (keys : List (Option (ExpressionTerm ev))) (row : R) :
    (collector.map f).offer plan held keys (f row) = (collector.offer plan held keys row).map f := by
  unfold offer map
  simp only [Collector.mk.injEq, and_true]
  exact Lib.Held.offer_map (fun _ _ => rfl) held collector.heap ⟨keys, row, collector.seq⟩

theorem finish_map (f : R → S) (collector : Collector ev R) :
    (collector.map f).finish plan held = (collector.finish plan held).map f := by
  simp only [finish, map, List.map_drop, List.map_take, List.map_map, Function.comp_def]

/-- A stream of rows through the heap. -/
def offerAll (keys : R → List (Option (ExpressionTerm ev))) (rows : List R) : Collector ev R :=
  rows.foldl (fun collector row => collector.offer plan held (keys row) row) new

theorem foldl_offer_map {keys : R → List (Option (ExpressionTerm ev))} {f : R → S} (rows : List R) (collector : Collector ev R) :
    rows.foldl (fun c row => c.offer plan held (keys row) (f row)) (collector.map f) =
      (rows.foldl (fun c row => c.offer plan held (keys row) row) collector).map f := by
  induction rows generalizing collector with
  | nil => rfl
  | cons row rows ih => rw [List.foldl_cons, List.foldl_cons, offer_map, ih]

end Collector

/-- The slice of some rows: what the heap holds of them at the end. -/
def Plan.slice (plan : Plan) (ev : Evaluator) (vars : List Variable) (held : Nat) (rows : List Solution) : List Solution :=
  ((Collector.offerAll plan held (keysOfRow ev (plan.readers vars)) rows).finish plan held).map (outputOf (plan.outputPositions vars))

theorem foldlM_ok {α β ε : Type} {f : β → α → Except ε β} {g : β → α → β} {l : List α} (h : ∀ b, ∀ a ∈ l, f b a = .ok (g b a))
    (init : β) : l.foldlM f init = .ok (l.foldl g init) := by
  induction l generalizing init with
  | nil => rfl
  | cons a l ih =>
    rw [List.foldlM_cons, h init a List.mem_cons_self, List.foldl_cons]
    exact ih (fun b c hc => h b c (List.mem_cons_of_mem _ hc)) _

theorem collect_eq (plan : Plan) (vars : List Variable) (rows : List Solution) (held : Nat) :
    plan.collect ev vars (rows.map .ok) held = .ok (plan.slice ev vars held rows) := by
  have hoffer : ∀ (collector : Collector ev Solution), ∀ values ∈ rows, plan.offerSolution ev vars held collector (.ok values) =
      .ok (collector.offer plan held (keysOfRow ev (plan.readers vars) values) (outputOf (plan.outputPositions vars) values)) := by
    intro collector values _
    change ((readKeys ev (fun t => .ok (some t)) (plan.readers vars) values).mapError EngineError.view >>= _) = _
    rw [readKeys_eq (fun _ => rfl), decoded_some]
    rfl
  rw [Plan.collect, List.foldlM_map, foldlM_ok hoffer, Plan.slice, ← Collector.finish_map, Collector.offerAll,
    ← Collector.foldl_offer_map]
  rfl

theorem collectIds_eq {plan : Plan} {cx : Bindjoin.Context} {decode : TermId → Except ViewError (Option Term)}
    {term : TermId → Option Term} (h : ∀ id, decode id = .ok (term id)) {join : Bindjoin.Plan} {token : Option (Nat → Bool)}
    {held : Nat} {completed : Bool} {rows : List Bindjoin.Row} (hrows : join.evaluateEach cx ⟨none, token⟩ = .ok (completed, rows)) :
    plan.collectIds ev cx decode join token held =
      .ok (if completed then some (plan.slice ev join.vars held (rows.map (decoded term))) else none) := by
  have hoffer : ∀ (collector : Collector ev Bindjoin.Row), ∀ row ∈ rows, plan.offerIds ev decode join.vars held collector row =
      .ok (collector.offer plan held (keysOfRow ev (plan.readers join.vars) (decoded term row)) row) := by
    intro collector row _
    rw [Plan.offerIds, readKeys_eq h]
    rfl
  have hslice : plan.slice ev join.vars held (rows.map (decoded term)) =
      ((rows.foldl (fun collector row => collector.offer plan held (keysOfRow ev (plan.readers join.vars) (decoded term row)) row)
        Collector.new).finish plan held).map (fun row => outputOf (plan.outputPositions join.vars) (decoded term row)) := by
    rw [Plan.slice, Collector.offerAll, List.foldl_map,
      show (Collector.new : Collector ev Solution) = Collector.new.map (decoded term) from rfl, Collector.foldl_offer_map,
      Collector.finish_map, List.map_map]
    rfl
  have hdecode : ∀ kept : List Bindjoin.Row, kept.mapM (decodeRow decode (plan.outputPositions join.vars)) =
      .ok (kept.map (fun row => outputOf (plan.outputPositions join.vars) (decoded term row))) :=
    fun kept => mapM_ok (fun ids _ => decodeRow_eq h (plan.outputPositions join.vars) ids)
  rw [Plan.collectIds, hrows, hslice]
  change (rows.foldlM (plan.offerIds ev decode join.vars held) Collector.new >>= _) = _
  rw [foldlM_ok hoffer]
  cases completed with
  | false => rfl
  | true => simp [bind, Except.bind, pure, Except.pure, Except.mapError, hdecode]

/-! ## The slice of the sorted rows -/

/-- The rows with their keys and their places in the stream. -/
def entriesFrom (keys : Solution → List (Option (ExpressionTerm ev))) (seq : Nat) (rows : List Solution) : List (Entry ev Solution) :=
  (rows.zipIdx seq).map (fun (row, place) => ⟨keys row, row, place⟩)

theorem heap_eq (plan : Plan) (held : Nat) (keys : Solution → List (Option (ExpressionTerm ev))) (rows : List Solution)
    (collector : Collector ev Solution) :
    (rows.foldl (fun c row => c.offer plan held (keys row) row) collector).heap =
      (entriesFrom keys collector.seq rows).foldl
        (Lib.Held.offer (Entry.outputCmp ev (plan.keys.map (·.descending))) held) collector.heap := by
  induction rows generalizing collector with
  | nil => rfl
  | cons row rows ih =>
    rw [List.foldl_cons, ih]
    rfl

/-- Where the keys have an order, so have the entries: arrival breaks the ties. -/
theorem outputCmp_consistent {descending : List Bool} {s : List (Option (ExpressionTerm ev)) → Prop}
    (h : Lib.Held.Consistent (fun a b => cmpKeys ev a b descending) s) :
    Lib.Held.Consistent (Entry.outputCmp (R := Solution) ev descending) (fun entry => s entry.keys) :=
  ⟨fun a b => h.byArrival.swap (a.keys, a.seq) (b.keys, b.seq),
    fun a b c => h.byArrival.trans (a.keys, a.seq) (b.keys, b.seq) (c.keys, c.seq)⟩

/-- Where the keys of the rows have an order, the slice is that of the sorted rows; rows the keys do
not tell apart keep the order they came in. -/
theorem slice_sorted (plan : Plan) (vars : List Variable) (held : Nat) (rows : List Solution)
    (h : Lib.Held.Consistent (fun a b => cmpKeys ev a b (plan.keys.map (·.descending)))
      (· ∈ rows.map (keysOfRow ev (plan.readers vars)))) :
    ∃ sorted : List (Entry ev Solution), sorted.Perm (entriesFrom (keysOfRow ev (plan.readers vars)) 0 rows) ∧
      sorted.Pairwise (fun a b => a.outputCmp ev (plan.keys.map (·.descending)) b ≠ .gt) ∧
      plan.slice ev vars held rows =
        ((sorted.drop plan.start).take (held - plan.start)).map (fun entry => outputOf (plan.outputPositions vars) entry.row) := by
  have hmem : ∀ entry ∈ entriesFrom (keysOfRow ev (plan.readers vars)) 0 rows,
      entry.keys ∈ rows.map (keysOfRow ev (plan.readers vars)) := by
    intro entry hentry
    obtain ⟨⟨row, place⟩, hrow, rfl⟩ := List.mem_map.1 hentry
    exact List.mem_map_of_mem (List.fst_mem_of_mem_zipIdx hrow)
  refine ⟨_, Lib.Held.sorted_perm _, Lib.Held.sorted_ordered (outputCmp_consistent h) hmem, ?_⟩
  have hheap := Lib.Held.foldl_offer (outputCmp_consistent h) held hmem
  rw [Plan.slice, Collector.offerAll, Collector.finish, heap_eq]
  change (((((entriesFrom (keysOfRow ev (plan.readers vars)) 0 rows).foldl _ []).drop plan.start).take _).map _).map _ = _
  rw [hheap, List.drop_take, List.take_take, Nat.min_self, List.map_map]
  rfl

/-! ## The answer -/

/-- The answer of the other paths: the slice of the rows the join collects, or of the evaluator's where
it does not apply or was abandoned. -/
def Plan.answer (plan : Plan) (ev : Evaluator) (cx : Bindjoin.Context) (decode : TermId → Except ViewError (Option Term))
    (options : QueryOptions) : Except EngineError QueryResults := do
  let results ← match ← tryBindJoin cx decode (plan.join ev options) ⟨none, none⟩ with
    | some results => pure results
    | none => ev.evaluate plan.inner
  match results with
  | .solutions vars rows => return .solutions plan.projected ((← plan.collect ev vars rows (plan.held.getD 0)).map .ok)
  | _ => .error (.badRequest "the body of an ORDER BY did not yield solutions")

/-- The search of the body comes to a place where the join gives the plan up. -/
def Plan.GivenUp (plan : Plan) (ev : Evaluator) (cx : Bindjoin.Context) (options : QueryOptions) : Prop :=
  ∃ join, plan.join ev options = some join ∧ givesUp (join.trace cx) = true

/-- No search of a `MINUS`'s right side completes a row. -/
def Plan.Undisturbed (plan : Plan) (ev : Evaluator) (cx : Bindjoin.Context) (options : QueryOptions) : Prop :=
  ∀ join found, plan.join ev options = some join → completed false (join.trace cx) = some found → ∀ r ∈ found, r.1 = false

/-- The body under the sort has no slice and no `DISTINCT` of its own around it. -/
theorem join_unlimited {query : Query} {plan : Plan} {options : QueryOptions} {join : Bindjoin.Plan}
    (hplan : TopK.plan ev.converts query = some plan) (hjoin : plan.join ev options = some join) :
    join.limit = none ∧ join.distinct = false ∧ join.offset = 0 := by
  obtain ⟨shape, -, hshape⟩ := Option.bind_eq_some_iff.1 hplan
  obtain ⟨⟨keys, needed⟩, -, hkeys⟩ := Option.bind_eq_some_iff.1 hshape
  cases hkeys
  unfold Plan.join at hjoin
  split at hjoin
  · unfold Bindjoin.plan at hjoin
    split at hjoin
    · rename_i pattern hselect
      injection hselect with _ hpattern
      subst hpattern
      obtain ⟨⟨bound, items, filters⟩, -, hfinish⟩ := Option.bind_eq_some_iff.1 hjoin
      change Bindjoin.finish items filters bound needed false 0 none = some join at hfinish
      unfold Bindjoin.finish at hfinish
      split_ifs at hfinish
      cases hfinish
      exact ⟨rfl, rfl, rfl⟩
    · cases hjoin
  · cases hjoin

theorem tryBindJoin_eq {cx : Bindjoin.Context} {decode : TermId → Except ViewError (Option Term)}
    {term : TermId → Option Term} (h : ∀ id, decode id = .ok (term id)) {join : Bindjoin.Plan} {limits : Bindjoin.Limits}
    {rows : Option (List Bindjoin.Row)} (hrows : join.evaluate cx limits = .ok rows) :
    tryBindJoin cx decode (some join) limits =
      .ok (rows.map (fun found => .solutions join.vars ((found.map (decoded term)).map .ok))) := by
  have hrow : ∀ found : List Bindjoin.Row, found.mapM (List.mapM (decodeCell decode)) = .ok (found.map (decoded term)) :=
    fun found => mapM_ok (fun ids _ => decodeCells_eq h ids)
  cases rows with
  | none => simp [tryBindJoin, hrows, bind, Except.bind, pure, Except.pure, Except.mapError]
  | some found => simp [tryBindJoin, hrows, hrow, bind, Except.bind, pure, Except.pure, Except.mapError]

/-- An evaluator that binds no row, and knows no values. -/
def emptyEvaluator : Evaluator where
  Value := Literal
  value l := l
  partialCmp _ _ := none
  lexicalCmp a b := compare a.value b.value
  evaluateExpression _ _ := none
  converts _ := true
  evaluate _ := .ok (.solutions [.named "x"] [])

/-- `SELECT ?x { VALUES ?x { :never } ?x :p ?y } ORDER BY ?x LIMIT 1`. -/
def unseenQuery : Query :=
  .select none (.slice (.project (.orderBy (.join (.values [.named "x"] [[some (.namedNode "never")]])
    (.bgp [⟨.var (.named "x"), .namedNode "p", .var (.named "y")⟩])) [.asc (.var (.named "x"))]) [.named "x"]) 0 (some 1))

def noOptions : QueryOptions := ⟨false, false, []⟩

/-- The terms of the store `removedRow`. -/
def decodeIri (id : TermId) : Except ViewError (Option Term) := .ok (["a", "b", "p", "q"][id.val]?.map .namedNode)

/-- `SELECT ?x { ?x :p ?y } ORDER BY ?x LIMIT 1`. -/
def seenQuery : Query :=
  .select none (.slice (.project (.orderBy (.bgp [⟨.var (.named "x"), .namedNode "p", .var (.named "y")⟩])
    [.asc (.var (.named "x"))]) [.named "x"]) 0 (some 1))

/-- Rows with their keys, offered in the order they arrive. -/
def Collector.offerRows {R : Type} (plan : Plan) (held : Nat) (rows : List (List (Option (ExpressionTerm ev)) × R)) : Collector ev R :=
  rows.foldl (fun collector row => collector.offer plan held row.1 row.2) .new

/-- A row at its place, as the heap keeps it. -/
def entryOf {R : Type} (row : (List (Option (ExpressionTerm ev)) × R) × Nat) : Entry ev R := ⟨row.1.1, row.1.2, row.2⟩

theorem offerRows_from {R : Type} (plan : Plan) (held : Nat) (rows : List (List (Option (ExpressionTerm ev)) × R))
    (heap : List ((List (Option (ExpressionTerm ev)) × R) × Nat)) (seq : Nat) :
    (rows.foldl (fun collector row => collector.offer plan held row.1 row.2) (⟨heap.map entryOf, seq⟩ : Collector ev R)).heap =
      ((rows.zipIdx seq).foldl (Lib.Held.offer
        (Lib.Held.byArrival (fun a b => cmpKeys ev a.1 b.1 (plan.keys.map (·.descending)))) held) heap).map entryOf := by
  induction rows generalizing heap seq with
  | nil => rfl
  | cons row rows ih =>
    have hoffer := @Lib.Held.offer_map _ _
      (Lib.Held.byArrival (fun a b : List (Option (ExpressionTerm ev)) × R => cmpKeys ev a.1 b.1 (plan.keys.map (·.descending))))
      (Entry.outputCmp ev (plan.keys.map (·.descending))) entryOf (fun _ _ => rfl) held heap (row, seq)
    rw [List.foldl_cons, List.zipIdx_cons, List.foldl_cons, ← ih, ← hoffer]
    rfl

/-- Where the keys of the rows have an order, a heap of `OFFSET + LIMIT` rows gives out the rows
`OFFSET..OFFSET + LIMIT` of the stable sort of them all. -/
theorem collector_slice {R : Type} {plan : Plan} {length : Nat} (hlength : plan.length = some length)
    (hpos : 0 < plan.start + length) (hheld : plan.start + length ≤ maxHeld) {rows : List (List (Option (ExpressionTerm ev)) × R)}
    (h : Lib.Held.Consistent (fun a b => cmpKeys ev a b (plan.keys.map (·.descending))) (· ∈ rows.map Prod.fst)) :
    ∃ held, plan.held = some held ∧ (Collector.offerRows plan held rows).finish plan held =
      (((rows.mergeSort (fun a b => (cmpKeys ev a.1 b.1 (plan.keys.map (·.descending))).isLE)).drop plan.start).take length).map Prod.snd := by
  refine ⟨plan.start + length, ?_, ?_⟩
  · simp only [Plan.held, hlength]
    exact if_pos ⟨hpos, hheld⟩
  · have hrows : Lib.Held.Consistent (fun a b : List (Option (ExpressionTerm ev)) × R =>
        cmpKeys ev a.1 b.1 (plan.keys.map (·.descending))) (· ∈ rows) :=
      ⟨fun a b ha hb => h.swap a.1 b.1 (List.mem_map_of_mem ha) (List.mem_map_of_mem hb),
        fun a b c ha hb hc => h.trans a.1 b.1 c.1 (List.mem_map_of_mem ha) (List.mem_map_of_mem hb) (List.mem_map_of_mem hc)⟩
    have hheap := offerRows_from plan (plan.start + length) rows [] 0
    have hfirst := Lib.StableSort.foldl_offer_arrivals hrows (plan.start + length) (fun _ ha => ha)
    unfold Collector.finish Collector.offerRows
    rw [show (Collector.new : Collector ev R) = ⟨[].map entryOf, 0⟩ from rfl, hheap, ← List.map_drop, ← List.map_take, List.map_map,
      Nat.add_sub_cancel_left]
    have hrow : ∀ kept : List ((List (Option (ExpressionTerm ev)) × R) × Nat),
        kept.map ((·.row) ∘ entryOf) = (kept.map (·.1)).map Prod.snd := by
      intro kept
      rw [List.map_map]
      rfl
    rw [hrow, List.map_take, List.map_drop, hfirst, List.drop_take, List.take_take, Nat.add_sub_cancel_left, Nat.min_self]
    rfl

/-- `ORDER BY ?x LIMIT 1`. -/
def firstOnly : Plan := ⟨seenQuery, [.named "x"], [⟨.var (.named "x"), false⟩], 0, some 1⟩

def twoRows : List (List (Option (ExpressionTerm emptyEvaluator)) × Nat) :=
  [([some (.namedNode "b")], 0), ([some (.namedNode "a")], 1)]

theorem collector_slice_two : ∃ held, firstOnly.held = some held ∧
    (Collector.offerRows firstOnly held twoRows).finish firstOnly held = [1] := by
  have hkeys : ∀ a, a ∈ twoRows.map Prod.fst → a = [some (.namedNode "b")] ∨ a = [some (.namedNode "a")] := by
    intro a ha
    simpa [twoRows] using ha
  obtain ⟨held, hheld, hslice⟩ := @collector_slice emptyEvaluator Nat firstOnly 1 rfl (by decide) (by decide) twoRows ⟨fun a b ha hb => by
      rcases hkeys a ha with rfl | rfl <;> rcases hkeys b hb with rfl | rfl <;> decide,
    fun a b c ha hb hc => by
      rcases hkeys a ha with rfl | rfl <;> rcases hkeys b hb with rfl | rfl <;> rcases hkeys c hc with rfl | rfl <;> decide⟩
  have hcmp : cmpKeys emptyEvaluator [some (.namedNode "b")] [some (.namedNode "a")] [false] = .gt := by decide
  exact ⟨held, hheld, hslice.trans (by simp [twoRows, firstOnly, List.mergeSort, List.MergeSort.Internal.splitInTwo, hcmp])⟩

end Holos.Engine.TopK
