import Holos.Server.HttpTheorems
import Holos.Server.Dispatch
/-!
# Which graphs a request runs over

A request names graphs in its URL and in a form body. What each route hands on names them all
where the body adds none to those of the URL: a query's body is read for the query alone, and of
a key that stands in both places an update keeps the URL's values.
-/

namespace Holos.Server

open Lib Engine

/-! ## Graphs -/

/-- The graphs one value names, a line each. -/
def lines (v : List Char) : List (List Char) := ((v.splitOn '\n').map trim).filter (!·.isEmpty)

/-- The graphs parameters name under a key. -/
def named (pairs : List (List Char × List Char)) (key : List Char) : List (List Char) :=
  ((pairs.filter (·.1 = key)).map (·.2)).flatMap lines

theorem lines_append (a b : List Char) : lines (a ++ '\n' :: b) = lines a ++ lines b := by
  unfold lines
  rw [List.splitOn_append_cons_self, List.map_append, List.filter_append]

theorem lines_intercalate (v : List Char) (vs : List (List Char)) :
    lines (['\n'].intercalate (v :: vs)) = (v :: vs).flatMap lines := by
  induction vs generalizing v with
  | nil => simp
  | cons w vs ih =>
    rw [List.intercalate_cons_cons, List.flatMap_cons, ← ih w, List.append_assoc, List.singleton_append, lines_append]

theorem values_eq (params : Params) (key : List Char) : values params key = ((value key params).map lines).getD [] := by
  unfold values lines
  cases value key params <;> rfl

/-- The parameters of a list of pairs. -/
def paramsOf (pairs : List (List Char × List Char)) : Params := pairs.foldl (fun out p => addParam out p.1 p.2) []

theorem values_paramsOf {key : List Char} (h : key ∈ repeatable) (pairs : List (List Char × List Char)) :
    values (paramsOf pairs) key = named pairs key := by
  rw [values_eq, paramsOf, value_repeatable h, named]
  cases (pairs.filter (·.1 = key)).map (·.2) with
  | nil => rfl
  | cons v vs =>
    have hfold : (v :: vs).foldl join (value key []) = some (['\n'].intercalate (v :: vs)) := foldl_join vs v
    rw [hfold, Option.map_some, Option.getD_some, lines_intercalate]

theorem named_append (a b : List (List Char × List Char)) (key : List Char) : named (a ++ b) key = named a key ++ named b key := by
  unfold named
  rw [List.filter_append, List.map_append, List.flatMap_append]

theorem isSome_foldl (pairs : List (List Char × List Char)) (key : List Char) (out : Params) :
    (value key (pairs.foldl (fun out p => addParam out p.1 p.2) out)).isSome ↔
      (value key out).isSome ∨ key ∈ pairs.map Prod.fst := by
  induction pairs generalizing out with
  | nil => simp
  | cons p pairs ih =>
    rw [List.foldl_cons, ih, value_addParam, List.map_cons, List.mem_cons]
    by_cases hk : key = p.1
    · rw [if_pos hk]
      split <;> simp [hk]
    · rw [if_neg hk]
      simp [hk]

theorem isSome_paramsOf (pairs : List (List Char × List Char)) (key : List Char) :
    (value key (paramsOf pairs)).isSome ↔ key ∈ pairs.map Prod.fst := by
  rw [paramsOf, isSome_foldl]
  simp [value]

/-- What stands in the first place, else what stands in the second. -/
theorem value_mergeForm (key : List Char) (params form : Params) :
    value key (mergeForm params form) = (value key params).or (value key form) := by
  unfold mergeForm
  induction form generalizing params with
  | nil => simp [value]
  | cons p form ih =>
    rw [List.foldl_cons, ih, value_cons]
    by_cases hk : key = p.1
    · subst hk
      rw [if_pos rfl]
      cases hv : value p.1 params with
      | none => rw [Option.isSome_none, if_neg (by decide), value_entry, if_pos rfl]; rfl
      | some v => rw [Option.isSome_some, if_pos rfl, hv]; rfl
    · rw [if_neg hk]
      split
      · rfl
      · rw [value_entry, if_neg hk]

/-! ## Requests -/

/-- The parameters a URL carries behind its path. -/
def Carries (path : List Char) (pairs : List (List Char × List Char)) (url : List Char) : Prop :=
  (∃ query, FormBody pairs query ∧ url = path ++ '?' :: query) ∨ (pairs = [] ∧ url = path)

/-- A key is given once. -/
def Once (key text : List Char) (pairs : List (List Char × List Char)) : Prop := (pairs.filter (·.1 = key)).map (·.2) = [text]

theorem Carries.split {path url : List Char} {pairs : List (List Char × List Char)} (h : Carries path pairs url) (hpath : '?' ∉ path) :
    splitUrl url = some (path, paramsOf pairs) ∧ ∃ query, FormBody pairs query ∧ (splitOnce '?' url).elim [] (·.2) = query := by
  rcases h with ⟨query, hform, rfl⟩ | ⟨rfl, rfl⟩
  · have hsplit := splitOnce_append hpath query
    refine ⟨?_, query, hform, ?_⟩
    · rw [splitUrl, hsplit]
      simp only
      rw [hform.parse]
      rfl
    · rw [hsplit]
      rfl
  · have hsplit : splitOnce '?' url = none := if_neg hpath
    refine ⟨?_, [], ⟨[], .nil, rfl⟩, ?_⟩
    · rw [splitUrl, hsplit]
      rfl
    · rw [hsplit]
      rfl

theorem repeated_none {pairs : List (List Char × List Char)} {body : List Char} (h : FormBody pairs body) {key : List Char}
    (hcount : pairs.countP (·.1 = key) ≤ 1) : repeated body key = some none := by
  have hnot : decide (1 < pairs.countP (·.1 = key)) = false := decide_eq_false (by omega)
  rw [repeated, h.repeated, hnot]
  rfl

theorem Once.count {key text : List Char} {pairs : List (List Char × List Char)} (h : Once key text pairs) :
    pairs.countP (·.1 = key) ≤ 1 := by
  have := congrArg List.length h
  rw [List.length_map] at this
  rw [List.countP_eq_length_filter, this]
  exact Nat.le_refl 1

theorem Once.value {key text : List Char} {pairs : List (List Char × List Char)} (h : Once key text pairs) (hkey : key ∉ repeatable) :
    value key (paramsOf pairs) = some text := by
  have hhead := congrArg List.head? h
  rw [List.head?_map, List.head?_filter] at hhead
  rw [paramsOf, value_ordinary hkey, hhead]
  rfl

theorem count_of_not_mem {key : List Char} {pairs : List (List Char × List Char)} (h : key ∉ pairs.map Prod.fst) :
    pairs.countP (·.1 = key) ≤ 1 := by
  have hzero : pairs.countP (·.1 = key) = 0 := by
    apply List.countP_eq_zero.2
    intro p hp
    simpa using fun e : p.1 = key => h (e ▸ List.mem_map_of_mem hp)
  omega

/-- A POST whose body can be read. -/
structure Posted (path : List Char) (pairs : List (List Char × List Char)) (key body : List Char) (call : Call) : Prop where
  method : call.method = "POST"
  url : Carries path pairs call.url
  /-- The text to run stands in the body. -/
  single : key ∉ pairs.map Prod.fst
  usable : unusableBody (header call.request "content-type") = none
  body : call.body = some body

theorem dispatch_getQuery {readOnly : Bool} {call : Call} {a : List (List Char × List Char)} {q : List Char} (hm : call.method = "GET")
    (hurl : Carries "/query".toList a call.url) (hone : Once queryKey q a) :
    dispatch readOnly call = some (.answer q (paramsOf a)) := by
  obtain ⟨hsplit, query, hform, hquery⟩ := hurl.split (by decide)
  unfold dispatch
  rw [hsplit, hquery]
  simp only [hm]
  unfold getQuery
  rw [repeated_none hform hone.count]
  simp [hone.value (by decide)]

theorem bodyText_form {key body text : List Char} {b : List (List Char × List Char)} (hform : FormBody b body) (hone : Once key text b)
    (hkey : key ∉ repeatable) : bodyText false key body = some (.ok (text, paramsOf b)) := by
  have hparse : parseForm body = some (paramsOf b) := hform.parse
  unfold bodyText
  rw [repeated_none hform hone.count, hparse]
  simp [hone.value hkey]

theorem postQuery_posted {call : Call} {a : List (List Char × List Char)} {query body q : List Char} {form params : Params}
    (hp : Posted "/query".toList a queryKey body call) (hform : FormBody a query)
    (hbody : bodyText (startsWith "application/sparql-query" (header call.request "content-type")) queryKey body = some (.ok (q, form))) :
    postQuery call query params = some (.answer q params) := by
  unfold postQuery
  dsimp only
  rw [repeated_none hform (count_of_not_mem hp.single), Option.bind_eq_bind, Option.bind_some, hp.usable, hp.body]
  dsimp only
  rw [hbody]
  rfl

theorem postUpdate_posted {call : Call} {a : List (List Char × List Char)} {query body u : List Char} {form params : Params}
    (hp : Posted "/update".toList a updateKey body call) (hform : FormBody a query)
    (hbody : bodyText (startsWith "application/sparql-update" (header call.request "content-type")) updateKey body = some (.ok (u, form))) :
    postUpdate false call query params = some (.applyUpdate u (mergeForm params form)) := by
  unfold postUpdate
  dsimp only
  rw [if_neg Bool.false_ne_true, repeated_none hform (count_of_not_mem hp.single), Option.bind_eq_bind, Option.bind_some, hp.usable, hp.body]
  dsimp only
  rw [hbody]
  rfl

theorem dispatch_postQuery {readOnly : Bool} {call : Call} {a : List (List Char × List Char)} {body q : List Char} {form : Params}
    (hp : Posted "/query".toList a queryKey body call)
    (hbody : bodyText (startsWith "application/sparql-query" (header call.request "content-type")) queryKey body = some (.ok (q, form))) :
    dispatch readOnly call = some (.answer q (paramsOf a)) := by
  obtain ⟨hsplit, query, hform, hquery⟩ := hp.url.split (by decide)
  unfold dispatch
  rw [hsplit, hquery, Option.bind_eq_bind, Option.bind_some]
  dsimp only
  rw [if_neg (by simp [hp.method]), if_pos ⟨hp.method, rfl⟩]
  exact postQuery_posted hp hform hbody

theorem dispatch_postUpdate {call : Call} {a : List (List Char × List Char)} {body u : List Char} {form : Params}
    (hp : Posted "/update".toList a updateKey body call)
    (hbody : bodyText (startsWith "application/sparql-update" (header call.request "content-type")) updateKey body = some (.ok (u, form))) :
    dispatch false call = some (.applyUpdate u (mergeForm (paramsOf a) form)) := by
  obtain ⟨hsplit, query, hform, hquery⟩ := hp.url.split (by decide)
  have hother : "/update".toList ≠ "/query".toList := by decide
  unfold dispatch
  rw [hsplit, hquery, Option.bind_eq_bind, Option.bind_some]
  dsimp only
  rw [if_neg (by simp [hp.method]), if_neg (fun h => hother h.2), if_pos ⟨hp.method, rfl⟩]
  exact postUpdate_posted hp hform hbody

/-! ## What is handed on -/

def queryKeys : List (List Char) := ["default-graph-uri".toList, "named-graph-uri".toList]

def updateKeys : List (List Char) := ["using-graph-uri".toList, "using-named-graph-uri".toList]

/-- What a query is answered with is what the parameters ask for. -/
structure HandsQuery (params : Params) (pairs : List (List Char × List Char)) : Prop where
  graphs : ∀ key ∈ queryKeys, ∀ g, g ∈ values params key ↔ g ∈ named pairs key
  explain : (value "explain".toList params).isSome ↔ "explain".toList ∈ pairs.map Prod.fst

def HandsUpdate (params : Params) (pairs : List (List Char × List Char)) : Prop :=
  ∀ key ∈ updateKeys, ∀ g, g ∈ values params key ↔ g ∈ named pairs key

theorem handsQuery_self (a : List (List Char × List Char)) : HandsQuery (paramsOf a) a where
  graphs key hkey g := by
    have hrep : ∀ key ∈ queryKeys, key ∈ repeatable := by decide
    rw [values_paramsOf (hrep key hkey)]
  explain := isSome_paramsOf a _

/-- The second list of pairs asks for nothing the first does not. -/
theorem handsQuery_append (a b : List (List Char × List Char)) :
    HandsQuery (paramsOf a) (a ++ b) ↔
      (∀ key ∈ queryKeys, ∀ g ∈ named b key, g ∈ named a key) ∧
      ("explain".toList ∈ b.map Prod.fst → "explain".toList ∈ a.map Prod.fst) := by
  have hself := handsQuery_self a
  constructor
  · intro h
    constructor
    · intro key hkey g hg
      rw [← hself.graphs key hkey, h.graphs key hkey, named_append]
      exact List.mem_append_right _ hg
    · intro hb
      rw [← hself.explain, h.explain, List.map_append]
      exact List.mem_append_right _ hb
  · rintro ⟨hgraphs, hexplain⟩
    constructor
    · intro key hkey g
      rw [hself.graphs key hkey, named_append, List.mem_append]
      exact ⟨.inl, fun hg => hg.elim id (hgraphs key hkey g)⟩
    · rw [hself.explain, List.map_append, List.mem_append]
      exact ⟨.inl, fun hx => hx.elim id hexplain⟩

theorem values_mergeForm {key : List Char} (h : key ∈ repeatable) (a b : List (List Char × List Char)) :
    values (mergeForm (paramsOf a) (paramsOf b)) key = if key ∈ a.map Prod.fst then named a key else named b key := by
  have hiff := isSome_paramsOf a key
  rw [values_eq, value_mergeForm, ← values_paramsOf h a, ← values_paramsOf h b, values_eq, values_eq]
  by_cases hk : key ∈ a.map Prod.fst
  · rw [if_pos hk]
    obtain ⟨v, hv⟩ := Option.isSome_iff_exists.1 (hiff.2 hk)
    rw [hv]
    rfl
  · rw [if_neg hk]
    have hnone : value key (paramsOf a) = none := by
      rw [← Option.not_isSome_iff_eq_none]
      exact fun hs => hk (hiff.1 hs)
    rw [hnone]
    rfl

theorem named_of_not_mem {key : List Char} {a : List (List Char × List Char)} (h : key ∉ a.map Prod.fst) : named a key = [] := by
  have hfilter : a.filter (·.1 = key) = [] := by
    apply List.filter_eq_nil_iff.2
    intro p hp
    simpa using fun e : p.1 = key => h (e ▸ List.mem_map_of_mem hp)
  rw [named, hfilter]
  rfl

theorem handsUpdate_append (a b : List (List Char × List Char)) :
    HandsUpdate (mergeForm (paramsOf a) (paramsOf b)) (a ++ b) ↔
      ∀ key ∈ updateKeys, key ∈ a.map Prod.fst → ∀ g ∈ named b key, g ∈ named a key := by
  have hrep : ∀ key ∈ updateKeys, key ∈ repeatable := by decide
  constructor
  · intro h key hkey hmem g hg
    have hiff := h key hkey g
    rw [values_mergeForm (hrep key hkey), if_pos hmem, named_append, List.mem_append] at hiff
    exact hiff.2 (.inr hg)
  · intro h key hkey g
    rw [values_mergeForm (hrep key hkey), named_append, List.mem_append]
    by_cases hmem : key ∈ a.map Prod.fst
    · rw [if_pos hmem]
      exact ⟨.inl, fun hg => hg.elim id (h key hkey hmem g)⟩
    · rw [if_neg hmem, named_of_not_mem hmem]
      simp

theorem handsUpdate_self (a : List (List Char × List Char)) : HandsUpdate (mergeForm (paramsOf a) []) a := by
  have hrep : ∀ key ∈ updateKeys, key ∈ repeatable := by decide
  intro key hkey g
  rw [← values_paramsOf (hrep key hkey)]
  rfl

/-- Every graph a request names is handed on, wherever its text and its parameters stand: always
where they stand in the URL; of a form, for a query where the body asks for nothing the URL does
not, and for an update where it names no graph beside those the URL has under the same key. -/
theorem dispatch_hands (readOnly : Bool) (call : Call) (a : Params) :
    (∀ q, call.method = "GET" → Carries "/query".toList a call.url → Once queryKey q a →
      ∃ params, dispatch readOnly call = some (.answer q params) ∧ HandsQuery params a) ∧
    (∀ body, Posted "/query".toList a queryKey body call →
      (startsWith "application/sparql-query" (header call.request "content-type") = true →
        ∃ params, dispatch readOnly call = some (.answer body params) ∧ HandsQuery params a) ∧
      (startsWith "application/sparql-query" (header call.request "content-type") = false →
        ∀ b q, FormBody b body → Once queryKey q b →
          ∃ params, dispatch readOnly call = some (.answer q params) ∧
            (HandsQuery params (a ++ b) ↔
              (∀ key ∈ queryKeys, ∀ g ∈ named b key, g ∈ named a key) ∧
              ("explain".toList ∈ b.map Prod.fst → "explain".toList ∈ a.map Prod.fst)))) ∧
    ∀ body, Posted "/update".toList a updateKey body call →
      (startsWith "application/sparql-update" (header call.request "content-type") = true →
        ∃ params, dispatch false call = some (.applyUpdate body params) ∧ HandsUpdate params a) ∧
      (startsWith "application/sparql-update" (header call.request "content-type") = false →
        ∀ b u, FormBody b body → Once updateKey u b →
          ∃ params, dispatch false call = some (.applyUpdate u params) ∧
            (HandsUpdate params (a ++ b) ↔ ∀ key ∈ updateKeys, key ∈ a.map Prod.fst → ∀ g ∈ named b key, g ∈ named a key)) := by
  refine ⟨?_, ?_, ?_⟩
  · intro q hm hurl hone
    exact ⟨_, dispatch_getQuery hm hurl hone, handsQuery_self a⟩
  · intro body hp
    constructor
    · intro hdirect
      refine ⟨_, @dispatch_postQuery readOnly call a body body [] hp ?_, handsQuery_self a⟩
      rw [hdirect]
      rfl
    · intro hdirect b q hform hone
      refine ⟨_, @dispatch_postQuery readOnly call a body q (paramsOf b) hp ?_, handsQuery_append a b⟩
      rw [hdirect]
      exact bodyText_form hform hone (by decide)
  · intro body hp
    constructor
    · intro hdirect
      refine ⟨_, @dispatch_postUpdate call a body body [] hp ?_, handsUpdate_self a⟩
      rw [hdirect]
      rfl
    · intro hdirect b u hform hone
      refine ⟨_, @dispatch_postUpdate call a body u (paramsOf b) hp ?_, handsUpdate_append a b⟩
      rw [hdirect]
      exact bodyText_form hform hone (by decide)

/-- A request with a form for its body. -/
def formCall (method url body : String) : Call :=
  ⟨method, url.toList, ⟨[("content-type", "application/x-www-form-urlencoded")]⟩, some body.toList⟩

theorem dispatch_hands_form :
    (∃ params, dispatch false (formCall "GET" "/query?query=Q" "") = some (.answer ['Q'] params) ∧ HandsQuery params [(queryKey, ['Q'])]) ∧
    (∃ params, dispatch false (formCall "POST" "/query" "query=Q") = some (.answer ['Q'] params) ∧ HandsQuery params [(queryKey, ['Q'])]) ∧
    ∃ params, dispatch false (formCall "POST" "/update" "update=U&using-graph-uri=urn:h") = some (.applyUpdate ['U'] params) ∧
      HandsUpdate params [(updateKey, ['U']), ("using-graph-uri".toList, "urn:h".toList)] := by
  have hquery : FormBody [(queryKey, ['Q'])] "query=Q".toList :=
    ⟨["query=Q".toList], .cons ⟨queryKey, ['Q'], formText_raw (Lib.forall_mem_of_all (by decide)), formText_raw (Lib.forall_mem_of_all (by decide)), rfl⟩ .nil, by simp⟩
  have hupdate : FormBody [(updateKey, ['U']), ("using-graph-uri".toList, "urn:h".toList)] "update=U&using-graph-uri=urn:h".toList :=
    ⟨["update=U".toList, "using-graph-uri=urn:h".toList],
      .cons ⟨updateKey, ['U'], formText_raw (Lib.forall_mem_of_all (by decide)), formText_raw (Lib.forall_mem_of_all (by decide)), rfl⟩
        (.cons ⟨"using-graph-uri".toList, "urn:h".toList, formText_raw (Lib.forall_mem_of_all (by decide)), formText_raw (Lib.forall_mem_of_all (by decide)), rfl⟩ .nil),
      by simp [List.intercalate_cons_cons]⟩
  refine ⟨?_, ?_, ?_⟩
  · exact (dispatch_hands false (formCall "GET" "/query?query=Q" "") _).1 ['Q'] rfl (.inl ⟨_, hquery, rfl⟩) rfl
  · have hp : Posted "/query".toList [] queryKey "query=Q".toList (formCall "POST" "/query" "query=Q") :=
      ⟨rfl, .inr ⟨rfl, rfl⟩, List.not_mem_nil, by decide +kernel, rfl⟩
    obtain ⟨params, hrun, hiff⟩ := ((dispatch_hands false _ _).2.1 _ hp).2 (by decide +kernel) _ ['Q'] hquery rfl
    refine ⟨params, hrun, hiff.2 ⟨?_, ?_⟩⟩
    · decide
    · decide
  · have hp : Posted "/update".toList [] updateKey "update=U&using-graph-uri=urn:h".toList
        (formCall "POST" "/update" "update=U&using-graph-uri=urn:h") :=
      ⟨rfl, .inr ⟨rfl, rfl⟩, List.not_mem_nil, by decide +kernel, rfl⟩
    obtain ⟨params, hrun, hiff⟩ := ((dispatch_hands false _ _).2.2 _ hp).2 (by decide +kernel) _ ['U'] hupdate rfl
    refine ⟨params, hrun, hiff.2 ?_⟩
    intro key hkey hmem
    exact absurd hmem List.not_mem_nil

/-- A graph the body of a query names is lost, and one the body of an update names beside the URL's. -/
theorem dispatch_loses :
    (∃ params, dispatch false (formCall "GET" "/query?query=Q&default-graph-uri=urn:g" "") = some (.answer ['Q'] params) ∧
      values params "default-graph-uri".toList = ["urn:g".toList]) ∧
    (∃ params, dispatch false (formCall "POST" "/query" "query=Q&default-graph-uri=urn:g") = some (.answer ['Q'] params) ∧
      values params "default-graph-uri".toList = []) ∧
    ∃ params, dispatch false (formCall "POST" "/update?using-graph-uri=urn:g" "update=U&using-graph-uri=urn:h") =
        some (.applyUpdate ['U'] params) ∧ values params "using-graph-uri".toList = ["urn:g".toList] := by
  refine ⟨⟨[("query".toList, ['Q']), ("default-graph-uri".toList, "urn:g".toList)], ?_, ?_⟩, ⟨[], ?_, ?_⟩,
    ⟨[("using-graph-uri".toList, "urn:g".toList), ("update".toList, ['U'])], ?_, ?_⟩⟩
  all_goals decide +kernel

/-! ## What is read of what is handed on -/

theorem mapM_ok {α β ε : Type} {f : α → Except ε β} {l : List α} {bs : List β} (h : l.mapM f = .ok bs) :
    (∀ b, b ∈ bs ↔ ∃ a ∈ l, f a = .ok b) ∧ ∀ a ∈ l, ∃ b, f a = .ok b := by
  induction l generalizing bs with
  | nil =>
    cases h
    simp
  | cons a l ih =>
    rw [List.mapM_cons] at h
    cases ha : f a with
    | error e =>
      rw [ha] at h
      cases h
    | ok b =>
      cases hl : l.mapM f with
      | error e =>
        rw [ha, hl] at h
        cases h
      | ok cs =>
        rw [ha, hl] at h
        cases h
        obtain ⟨hmem, hall⟩ := ih hl
        constructor
        · intro c
          rw [List.mem_cons, hmem, List.exists_mem_cons_iff, ha, Except.ok.injEq, eq_comm (a := b)]
        · intro x hx
          rcases List.mem_cons.1 hx with rfl | hx
          · exact ⟨b, ha⟩
          · exact hall x hx

theorem mapM_error {α β ε : Type} {f : α → Except ε β} {l : List α} {e : ε} (h : l.mapM f = .error e) : ∃ a ∈ l, f a = .error e := by
  induction l with
  | nil => cases h
  | cons a l ih =>
    rw [List.mapM_cons] at h
    cases ha : f a with
    | error e' =>
      rw [ha] at h
      cases h
      exact ⟨a, List.mem_cons_self, ha⟩
    | ok b =>
      cases hl : l.mapM f with
      | error e' =>
        rw [ha, hl] at h
        cases h
        obtain ⟨x, hx, hxe⟩ := ih hl
        exact ⟨x, List.mem_cons_of_mem a hx, hxe⟩
      | ok cs =>
        rw [ha, hl] at h
        cases h

/-- Which graphs a key names depends on the values of it, and not on their order. -/
theorem graphsOf_congr {newNode : List Char → Except (List Char) NamedNode} {params params' : Params} {key : List Char}
    (h : ∀ g, g ∈ values params key ↔ g ∈ values params' key) :
    match graphsOf newNode params key, graphsOf newNode params' key with
    | .ok gs, .ok gs' => ∀ n, n ∈ gs ↔ n ∈ gs'
    | .error _, .error _ => True
    | _, _ => False := by
  have hgood : ∀ {p p' : Params} {gs e}, (∀ g, g ∈ values p key ↔ g ∈ values p' key) → graphsOf newNode p key = .ok gs →
      graphsOf newNode p' key ≠ .error e := by
    intro p p' gs e hp hok herr
    obtain ⟨a, ha, hae⟩ := mapM_error herr
    obtain ⟨b, hb⟩ := (mapM_ok hok).2 a ((hp a).2 ha)
    rw [hb] at hae
    cases hae
  cases hg : graphsOf newNode params key with
  | ok gs =>
    cases hg' : graphsOf newNode params' key with
    | ok gs' =>
      intro n
      rw [(mapM_ok hg).1, (mapM_ok hg').1]
      simp only [h]
    | error e => exact hgood h hg hg'
  | error e =>
    cases hg' : graphsOf newNode params' key with
    | ok gs' => exact hgood (fun g => (h g).symm) hg' hg
    | error e' => trivial

/-- Two requests that ask for the same are answered with the same options. -/
theorem queryOptions_congr {newNode : List Char → Except (List Char) NamedNode} {params params' : Params}
    {pairs : List (List Char × List Char)} (h : HandsQuery params pairs) (h' : HandsQuery params' pairs) :
    match queryOptions newNode params, queryOptions newNode params' with
    | .ok o, .ok o' => (∀ n, n ∈ o.defaultGraphs ↔ n ∈ o'.defaultGraphs) ∧ (∀ n, n ∈ o.namedGraphs ↔ n ∈ o'.namedGraphs) ∧
        o.explain = o'.explain
    | .error _, .error _ => True
    | _, _ => False := by
  have hsame : ∀ key ∈ queryKeys, ∀ g, g ∈ values params key ↔ g ∈ values params' key := by
    intro key hkey g
    rw [h.graphs key hkey, h'.graphs key hkey]
  have hdefault := @graphsOf_congr newNode params params' _ (hsame "default-graph-uri".toList (by decide))
  have hnamed := @graphsOf_congr newNode params params' _ (hsame "named-graph-uri".toList (by decide))
  have hexplain : (value "explain".toList params).isSome = (value "explain".toList params').isSome := by
    rw [Bool.eq_iff_iff, h.explain, h'.explain]
  unfold queryOptions
  revert hdefault hnamed
  cases graphsOf newNode params "default-graph-uri".toList <;> cases graphsOf newNode params' "default-graph-uri".toList <;>
    cases graphsOf newNode params "named-graph-uri".toList <;> cases graphsOf newNode params' "named-graph-uri".toList <;>
    intro hdefault hnamed <;> first | exact ⟨hdefault, hnamed, hexplain⟩ | exact trivial | exact hdefault.elim | exact hnamed.elim

theorem namedDataset_congr {newNode : List Char → Except (List Char) NamedNode} {params params' : Params}
    {pairs : List (List Char × List Char)} (h : HandsUpdate params pairs) (h' : HandsUpdate params' pairs) :
    match namedDataset newNode params, namedDataset newNode params' with
    | .ok d, .ok d' => (∀ n, n ∈ d.1 ↔ n ∈ d'.1) ∧ ∀ n, n ∈ d.2 ↔ n ∈ d'.2
    | .error _, .error _ => True
    | _, _ => False := by
  have hsame : ∀ key ∈ updateKeys, ∀ g, g ∈ values params key ↔ g ∈ values params' key := by
    intro key hkey g
    rw [h key hkey, h' key hkey]
  have hdefault := @graphsOf_congr newNode params params' _ (hsame "using-graph-uri".toList (by decide))
  have hnamed := @graphsOf_congr newNode params params' _ (hsame "using-named-graph-uri".toList (by decide))
  unfold namedDataset
  revert hdefault hnamed
  cases graphsOf newNode params "using-graph-uri".toList <;> cases graphsOf newNode params' "using-graph-uri".toList <;>
    cases graphsOf newNode params "using-named-graph-uri".toList <;> cases graphsOf newNode params' "using-named-graph-uri".toList <;>
    intro hdefault hnamed <;> first | exact ⟨hdefault, hnamed⟩ | exact trivial | exact hdefault.elim | exact hnamed.elim

end Holos.Server
