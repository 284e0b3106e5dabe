import Holos.Engine.PercentTheorems
import Holos.Server.Http
/-!
# Forms are read back

What a form may look like: each character of a key or a value as itself, as an escape of its
bytes, or a space as `+`. Of such a form the parameters are read as they were meant, and none
of it makes reading panic.
-/

namespace Holos.Server

open Lib Engine

/-! ## Form-encoded text -/

/-- Bytes, each as a `%` and two digits. -/
inductive Escapes : List UInt8 → List Char → Prop
  | nil : Escapes [] []
  | cons {b : UInt8} {x y : Char} {bs : List UInt8} {es : List Char} (hx : x.utf8Size = 1) (hy : y.utf8Size = 1)
      (h : hexPair x.val.toUInt8 y.val.toUInt8 = some b) (rest : Escapes bs es) : Escapes (b :: bs) ('%' :: x :: y :: es)

/-- A text as a form may write it. -/
inductive FormText : List Char → List Char → Prop
  | nil : FormText [] []
  | raw {c : Char} {t e : List Char} (h : c ∉ ['%', '+', '&', '=']) (rest : FormText t e) : FormText (c :: t) (c :: e)
  | space {t e : List Char} (rest : FormText t e) : FormText (' ' :: t) ('+' :: e)
  | escape {c : Char} {t es e : List Char} (h : Escapes (String.utf8EncodeChar c) es) (rest : FormText t e) :
      FormText (c :: t) (es ++ e)

/-- A key and its value. -/
def PairText (p : List Char × List Char) (e : List Char) : Prop :=
  ∃ key text, FormText p.1 key ∧ FormText p.2 text ∧ e = key ++ '=' :: text

/-- Keys and values as a form's body. -/
def FormBody (pairs : List (List Char × List Char)) (body : List Char) : Prop :=
  ∃ es, List.Forall₂ PairText pairs es ∧ body = ['&'].intercalate es

theorem formText_raw {t : List Char} (h : ∀ c ∈ t, c ∉ ['%', '+', '&', '=']) : FormText t t := by
  induction t with
  | nil => exact .nil
  | cons c t ih => exact .raw (h c List.mem_cons_self) (ih (fun d hd => h d (List.mem_cons_of_mem c hd)))

theorem percentLoop_append {form : Bool} {l : List UInt8} (hl : ∀ b ∈ l, b ≠ 37 ∧ b ≠ 43) (bs : List UInt8) :
    percentLoop form (l ++ bs) = (percentLoop form bs).map (l ++ ·) := by
  induction l with
  | nil => simp
  | cons b l ih =>
    obtain ⟨h37, h43⟩ := hl b List.mem_cons_self
    have hplain : plain form b = b := by simp [plain, h43]
    rw [List.cons_append, percentLoop_plain h37, ih (fun x hx => hl x (List.mem_cons_of_mem _ hx)), Option.map_map, hplain]
    rfl

theorem Escapes.read {bs : List UInt8} {es : List Char} (h : Escapes bs es) (cs : List Char) :
    percentLoop true (utf8 (es ++ cs)) = (percentLoop true (utf8 cs)).map (bs ++ ·) := by
  induction h with
  | nil => simp
  | cons hx hy hpair _ ih =>
    rw [List.cons_append, List.cons_append, List.cons_append, percentLoop_escape hx hy hpair, ih, Option.map_map]
    rfl

theorem FormText.read {t e : List Char} (h : FormText t e) : percentLoop true (utf8 e) = some (utf8 t) := by
  induction h with
  | nil => rfl
  | @raw c t e hc _ ih =>
    have hbytes : ∀ b ∈ String.utf8EncodeChar c, b ≠ 37 ∧ b ≠ 43 := by
      intro b hb
      simp only [List.mem_cons, List.not_mem_nil, or_false, not_or] at hc
      exact ⟨byte_ne (d := '%') (by decide) hc.1 b hb, byte_ne (d := '+') (by decide) hc.2.1 b hb⟩
    rw [utf8_cons, percentLoop_append hbytes, ih, Option.map_some, utf8_cons]
  | @space t e _ ih =>
    have hplus : utf8 ('+' :: e) = 43 :: utf8 e := utf8_of_one (by decide) e
    have hspace : utf8 (' ' :: t) = 32 :: utf8 t := utf8_of_one (by decide) t
    rw [hplus, hspace, percentLoop_plain (by decide), ih]
    rfl
  | escape h _ ih => rw [h.read, ih, Option.map_some, utf8_cons]

theorem FormText.decode {t e : List Char} (h : FormText t e) : decode e = some t := by
  rw [Server.decode, h.read, Option.map_some, lossy_utf8]

/-- No separator stands in what is escaped. -/
theorem Escapes.apart {bs : List UInt8} {es : List Char} (h : Escapes bs es) {c : Char} (hc : c = '&' ∨ c = '=') : c ∉ es := by
  induction h with
  | nil => exact List.not_mem_nil
  | @cons b x y bs es hx hy hpair _ ih =>
    have hval : hexValue c.val.toUInt8 = none := by
      rcases hc with rfl | rfl
      · rfl
      · rfl
    have hcx : c ≠ x := by
      rintro rfl
      rw [hexPair_of_none hval] at hpair
      cases hpair
    have hcy : c ≠ y := by
      rintro rfl
      rw [hexPair_none_right hval] at hpair
      cases hpair
    have hcp : c ≠ '%' := by
      rcases hc with rfl | rfl
      · decide
      · decide
    intro hmem
    simp only [List.mem_cons] at hmem
    rcases hmem with h | h | h | h
    · exact hcp h
    · exact hcx h
    · exact hcy h
    · exact ih h

theorem FormText.apart {t e : List Char} (h : FormText t e) {c : Char} (hc : c = '&' ∨ c = '=') : c ∉ e := by
  induction h with
  | nil => exact List.not_mem_nil
  | raw hraw _ ih =>
    intro hmem
    rcases List.mem_cons.1 hmem with rfl | hmem
    · rcases hc with rfl | rfl
      · exact hraw (by decide)
      · exact hraw (by decide)
    · exact ih hmem
  | space _ ih =>
    intro hmem
    rcases List.mem_cons.1 hmem with rfl | hmem
    · rcases hc with h | h
      · exact absurd h (by decide)
      · exact absurd h (by decide)
    · exact ih hmem
  | escape hes _ ih =>
    intro hmem
    rcases List.mem_append.1 hmem with hmem | hmem
    · exact hes.apart hc hmem
    · exact ih hmem

/-! ## Pairs -/

theorem splitOnce_append {sep : Char} {a : List Char} (h : sep ∉ a) (b : List Char) : splitOnce sep (a ++ sep :: b) = some (a, b) := by
  have hall : ∀ c ∈ a, decide (c ≠ sep) = true := by
    intro c hc
    apply decide_eq_true
    rintro rfl
    exact h hc
  rw [splitOnce, if_pos (List.mem_append_right a List.mem_cons_self), List.takeWhile_append_of_pos hall,
    List.dropWhile_append_of_pos hall]
  simp

theorem PairText.split {p : List Char × List Char} {e : List Char} (h : PairText p e) :
    ∃ key text, splitOnce '=' e = some (key, text) ∧ decode key = some p.1 ∧ decode text = some p.2 ∧ e ≠ [] ∧ '&' ∉ e := by
  obtain ⟨key, text, hkey, htext, rfl⟩ := h
  refine ⟨key, text, splitOnce_append (hkey.apart (.inr rfl)) text, hkey.decode, htext.decode, by simp, ?_⟩
  intro hmem
  rcases List.mem_append.1 hmem with hmem | hmem
  · exact hkey.apart (.inl rfl) hmem
  · rcases List.mem_cons.1 hmem with hmem | hmem
    · exact absurd hmem (by decide)
    · exact htext.apart (.inl rfl) hmem

/-- The body falls into its pairs. -/
theorem FormBody.pairs {pairs : List (List Char × List Char)} {body : List Char} (h : FormBody pairs body) :
    List.Forall₂ PairText pairs (pairsOf body) := by
  obtain ⟨es, hes, rfl⟩ := h
  suffices heq : pairsOf (['&'].intercalate es) = es by
    rw [heq]
    exact hes
  have hgood : ∀ e ∈ es, e ≠ [] ∧ '&' ∉ e := by
    intro e he
    obtain ⟨i, hi, rfl⟩ := List.mem_iff_getElem.1 he
    have hp := hes.get (by rw [hes.length_eq]; exact hi) hi
    obtain ⟨_, _, -, -, -, hne, hamp⟩ := hp.split
    exact ⟨hne, hamp⟩
  unfold pairsOf
  by_cases hnil : es = []
  · subst hnil
    rfl
  · rw [List.splitOn_intercalate '&' (fun e he => (hgood e he).2) hnil]
    apply List.filter_eq_self.2
    intro e he
    simp [(hgood e he).1]

theorem PairText.readPair {p : List Char × List Char} {e : List Char} (h : PairText p e) (out : Params) :
    readPair out e = some (addParam out p.1 p.2) := by
  obtain ⟨key, text, hsplit, hkey, htext, -, -⟩ := h.split
  simp [Server.readPair, hsplit, hkey, htext]

theorem PairText.countPair {p : List Char × List Char} {e : List Char} (h : PairText p e) (key : List Char) (n : Nat) :
    countPair key n e = some (if p.1 = key then n + 1 else n) := by
  obtain ⟨name, text, hsplit, hkey, -, -, -⟩ := h.split
  simp [Server.countPair, hsplit, hkey]

/-- A form is read pair by pair. -/
theorem foldlM_readPair {pairs : List (List Char × List Char)} {es : List (List Char)} (h : List.Forall₂ PairText pairs es)
    (out : Params) : es.foldlM readPair out = some (pairs.foldl (fun out p => addParam out p.1 p.2) out) := by
  induction h generalizing out with
  | nil => rfl
  | cons hp _ ih =>
    rw [List.foldlM_cons, hp.readPair]
    exact ih _

theorem foldlM_countPair {pairs : List (List Char × List Char)} {es : List (List Char)} (h : List.Forall₂ PairText pairs es)
    (key : List Char) (n : Nat) : es.foldlM (countPair key) n = some (n + pairs.countP (·.1 = key)) := by
  induction h generalizing n with
  | nil => rfl
  | @cons p e pairs es hp _ ih =>
    rw [List.foldlM_cons, hp.countPair, List.countP_cons]
    refine (ih _).trans ?_
    by_cases hk : p.1 = key
    · simp [hk, Nat.add_assoc, Nat.add_comm 1]
    · simp [hk]

theorem FormBody.parse {pairs : List (List Char × List Char)} {body : List Char} (h : FormBody pairs body) :
    parseForm body = some (pairs.foldl (fun out p => addParam out p.1 p.2) []) := foldlM_readPair h.pairs []

theorem FormBody.repeated {pairs : List (List Char × List Char)} {body : List Char} (h : FormBody pairs body) (key : List Char) :
    givenMoreThanOnce body key = some (decide (1 < pairs.countP (·.1 = key))) := by
  rw [givenMoreThanOnce, foldlM_countPair h.pairs, Nat.zero_add]
  rfl

/-! ## Keys -/

theorem value_addParam (out : Params) (key k text : List Char) :
    value key (addParam out k text) =
      if key = k then
        if k ∈ repeatable then some (match value k out with
          | some existing => existing ++ '\n' :: text
          | none => text)
        else some ((value k out).getD text)
      else value key out := by
  unfold addParam
  by_cases hr : k ∈ repeatable
  · rw [if_pos hr, if_pos hr]
    rewrite [value_entry]
    by_cases hk : key = k
    · simp only [if_pos hk] <;> cases value k out <;> rfl
    · simp only [if_neg hk]
  · rw [if_neg hr, if_neg hr]
    by_cases hk : key = k
    · subst hk
      rw [if_pos rfl]
      cases hv : value key out with
      | none => rw [Option.isSome_none, if_neg (by decide), value_entry, if_pos rfl, Option.getD_none]
      | some v => rw [Option.isSome_some, if_pos rfl, hv, Option.getD_some]
    · rw [if_neg hk]
      split
      · rfl
      · rw [value_entry, if_neg hk]

/-- An ordinary key keeps its first value. -/
theorem value_ordinary {key : List Char} (h : key ∉ repeatable) (pairs : List (List Char × List Char)) (out : Params) :
    value key (pairs.foldl (fun out p => addParam out p.1 p.2) out) =
      (value key out).or ((pairs.find? (·.1 = key)).map (·.2)) := by
  induction pairs generalizing out with
  | nil => simp
  | cons p pairs ih =>
    rw [List.foldl_cons, ih, value_addParam, List.find?_cons]
    by_cases hk : key = p.1
    · subst hk
      rw [if_pos rfl, if_neg h]
      cases value p.1 out <;> simp
    · have hk' : ¬p.1 = key := fun e => hk e.symm
      simp [hk, hk']

/-- A value put behind those there are. -/
def join (texts : Option (List Char)) (text : List Char) : Option (List Char) :=
  some (match texts with
    | some existing => existing ++ '\n' :: text
    | none => text)

/-- A repeatable key has its values joined. -/
theorem value_repeatable {key : List Char} (h : key ∈ repeatable) (pairs : List (List Char × List Char)) (out : Params) :
    value key (pairs.foldl (fun out p => addParam out p.1 p.2) out) =
      ((pairs.filter (·.1 = key)).map (·.2)).foldl join (value key out) := by
  induction pairs generalizing out with
  | nil => rfl
  | cons p pairs ih =>
    rw [List.foldl_cons, ih, value_addParam]
    by_cases hk : key = p.1
    · subst hk
      rw [if_pos rfl, if_pos h, List.filter_cons_of_pos (by simp), List.map_cons, List.foldl_cons]
      rfl
    · rw [if_neg hk, List.filter_cons_of_neg (by simpa using fun e => hk e.symm)]

theorem foldl_join (vs : List (List Char)) (v : List Char) : vs.foldl join (some v) = some (['\n'].intercalate (v :: vs)) := by
  induction vs generalizing v with
  | nil => simp
  | cons w vs ih =>
    rw [List.foldl_cons, join, ih]
    cases vs with
    | nil => simp [List.intercalate_cons_cons]
    | cons x vs => simp [List.intercalate_cons_cons]

theorem isWhitespace_newline : isWhitespace '\n' = true := rfl

theorem trim_of_none {s : List Char} (h : ∀ c ∈ s, isWhitespace c = false) : trim s = s := by
  have hdrop : ∀ l : List Char, (∀ c ∈ l, isWhitespace c = false) → l.dropWhile isWhitespace = l := by
    intro l hl
    cases l with
    | nil => rfl
    | cons c l =>
      have hc := hl c List.mem_cons_self
      apply List.dropWhile_cons_of_neg
      rw [hc]
      exact Bool.false_ne_true
  unfold trim
  rw [hdrop s h, hdrop s.reverse (fun c hc => h c (List.mem_reverse.1 hc)), List.reverse_reverse]

/-- Values without white space are read back, but for the empty ones. -/
theorem values_joined {params : Params} {key : List Char} {vs : List (List Char)} (h : value key params = vs.foldl join none)
    (hws : ∀ v ∈ vs, ∀ c ∈ v, isWhitespace c = false) : values params key = vs.filter (!·.isEmpty) := by
  unfold values
  rw [h]
  cases vs with
  | nil => rfl
  | cons v vs =>
    have hline : ∀ w ∈ v :: vs, '\n' ∉ w := by
      intro w hw hmem
      have := hws w hw '\n' hmem
      rw [isWhitespace_newline] at this
      cases this
    have hfold : (v :: vs).foldl join none = some (['\n'].intercalate (v :: vs)) := foldl_join vs v
    rw [hfold]
    simp only
    rw [List.splitOn_intercalate '\n' hline (List.cons_ne_nil v vs)]
    have htrim : (v :: vs).map trim = v :: vs := by
      conv_rhs => rw [← List.map_id (v :: vs)]
      apply List.map_congr_left
      intro w hw
      exact trim_of_none (hws w hw)
    rw [htrim]

/-! ## Decoders -/

/-- Each decoder reads a text as it should, and does not panic, where no `%` has a character of
several bytes in the two behind it, or a sign and a digit. What was encoded is always clear. -/
theorem escapes_read (cs : List Char) :
    (decode cs = some (lossy (unescape true (utf8 cs))) ↔ Clear cs) ∧
    (percentDecode cs = some (lossy (unescape false (utf8 cs))) ↔ Clear cs) ∧
    (∀ a s, text a = some s →
      (spifDecodeUrl [a] = some (some (stringOut (lossy (unescape false (utf8 s.toList))))) ↔ Clear s.toList)) ∧
    (∀ s, ∃ e, spifEncodeUrl [stringOut s] = some e ∧ spifDecodeUrl [e] = some (some (stringOut s))) ∧
    ∀ pairs body, FormBody pairs body → ∃ params, parseForm body = some params ∧
      (∀ key, key ∉ repeatable → value key params = (pairs.find? (·.1 = key)).map (·.2)) ∧
      (∀ key, key ∈ repeatable → (∀ p ∈ pairs, p.1 = key → ∀ c ∈ p.2, isWhitespace c = false) →
        values params key = ((pairs.filter (·.1 = key)).map (·.2)).filter (!·.isEmpty)) ∧
      ∀ key, givenMoreThanOnce body key = some (decide (1 < pairs.countP (·.1 = key))) := by
  refine ⟨percentLoop_iff true cs, percentLoop_iff false cs, fun a s => spifDecodeUrl_iff, spifDecodeUrl_encode, ?_⟩
  intro pairs body h
  refine ⟨_, h.parse, ?_, ?_, h.repeated⟩
  · intro key hkey
    rw [value_ordinary hkey]
    rfl
  · intro key hkey hws
    apply values_joined (value_repeatable hkey pairs [])
    intro v hv
    obtain ⟨p, hp, rfl⟩ := List.mem_map.1 hv
    obtain ⟨hmem, heq⟩ := List.mem_filter.1 hp
    exact hws p hmem (by simpa using heq)

theorem escapes_read_query :
    decode "a%2F".toList = some (lossy (unescape true (utf8 "a%2F".toList))) ∧
    spifDecodeUrl [.literal (.simple "%41")] = some (some (stringOut (lossy (unescape false (utf8 "%41".toList))))) ∧
    ∃ params, parseForm "q=A+B".toList = some params ∧ value ['q'] params = some "A B".toList ∧
      values params "named-graph-uri".toList = [] := by
  refine ⟨(escapes_read _).1.2 ?_, ((escapes_read []).2.2.1 _ "%41" rfl).2 ?_, ?_⟩
  · simp [Clear, Behind]
    decide
  · simp [Clear, Behind]
    decide
  · have hbody : FormBody [(['q'], "A B".toList)] "q=A+B".toList := by
      refine ⟨["q=A+B".toList], .cons ⟨['q'], "A+B".toList, ?_, ?_, rfl⟩ .nil, by simp⟩
      · exact .raw (by decide) .nil
      · exact .raw (by decide) (.space (.raw (by decide) .nil))
    obtain ⟨params, hparse, hfirst, hall, -⟩ := (escapes_read []).2.2.2.2 _ _ hbody
    refine ⟨params, hparse, ?_, ?_⟩
    · exact hfirst ['q'] (by decide)
    · exact hall _ (by decide) (by simp)

/-- The slice behind the `%` ends inside the last character, and a sign is no digit. -/
theorem escapes_cut :
    decode ['%', 'a', 'é'] = none ∧ percentDecode ['%', 'a', 'é'] = none ∧ spifDecodeUrl [stringOut ['%', 'a', 'é']] = none ∧
    decode ['%', '+', '5'] ≠ some (lossy (unescape true (utf8 ['%', '+', '5']))) := by
  decide

end Holos.Server
