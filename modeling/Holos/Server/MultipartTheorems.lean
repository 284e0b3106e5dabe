import Holos.Server.HttpTheorems
import Holos.Server.Multipart
/-!
# Uploads are read back

Parts as a client writes them, and what is read of the body they make. The delimiter is found
wherever it stands, so a part that holds it is cut, and a part without headers has what its
content begins with taken for some.
-/

namespace Holos.Server

open Lib Engine

/-! ## What is written -/

/-- A header line. -/
structure Header where
  name : List Char
  text : List Char
  name_line : ∀ c ∈ [':', '\r', '\n'], c ∉ name
  text_line : ∀ c ∈ ['\r', '\n'], c ∉ text

/-- A part of an upload. -/
structure Part where
  headers : List Header
  content : Bytes

def Header.line (h : Header) : List Char := h.name ++ ':' :: h.text

/-- The media type a header gives. -/
def Header.media (h : Header) : Option (List Char) :=
  if (trim h.name).map Char.toLower = "content-type".toList then some (trim h.text) else none

namespace Part

def bytes (p : Part) : Bytes := p.headers.flatMap (fun h => utf8 h.line ++ crlf) ++ crlf ++ p.content

def media (p : Part) : Option (List Char) := p.headers.findSome? Header.media

/-- What is to be read of a part. -/
def typed (p : Part) : List (Bytes × List Char) := (p.media.map (p.content, ·)).toList

/-- The delimiter behind a part is the first one in it. -/
def Quiet (d : Bytes) (p : Part) : Prop := Free d (p.bytes ++ crlf)

end Part

/-- An upload, with what stands before the first delimiter and behind the last. -/
def written (boundary : List Char) (lead tail : Bytes) (ps : List Part) : Bytes :=
  lead ++ delimiter boundary ++ (ps.flatMap (fun p => crlf ++ (p.bytes ++ crlf ++ delimiter boundary)) ++ dashes ++ tail)

/-- What stands before and behind the first blank line, of one kind or else of the other. -/
inductive Splits (part block rest : Bytes) : Prop
  | ofCrlf (h : part = block ++ (crlf ++ crlf) ++ rest) (hfree : Free (crlf ++ crlf) block)
  | ofLf (hnone : ¬crlf ++ crlf <:+: part) (h : part = block ++ (lf ++ lf) ++ rest) (hfree : Free (lf ++ lf) block)

/-- What a part without headers begins with passes for a header that gives its media type. -/
def Mistaken (content : Bytes) : Prop :=
  ∃ block rest, Splits (crlf ++ content) block rest ∧ ((strLines (lossy block)).findSome? mediaLine).isSome

def Part.Unmistaken (p : Part) : Prop := p.headers = [] → ¬Mistaken p.content

/-! ## One part -/

theorem slice_append (block rest : Bytes) : slice (block ++ rest) 0 block.length = some block := by
  rw [slice, if_pos ⟨Nat.zero_le _, by simp⟩]
  simp

theorem sliceFrom_append (pre rest : Bytes) : sliceFrom (pre ++ rest) pre.length = some rest := by
  rw [sliceFrom, if_pos (by simp)]
  simp

theorem Splits.blank {part block rest : Bytes} (h : Splits part block rest) :
    ∃ sep, part = block ++ sep ++ rest ∧ blankLine part = some (block.length, sep.length) := by
  cases h with
  | ofCrlf h hfree =>
    refine ⟨crlf ++ crlf, h, ?_⟩
    rw [blankLine, h, find_append (by decide) hfree]
    rfl
  | ofLf hnone h hfree =>
    refine ⟨lf ++ lf, h, ?_⟩
    rw [blankLine, (find_eq_none (by decide)).2 hnone, h, find_append (by decide) hfree]
    rfl

theorem Splits.read {part block rest : Bytes} (h : Splits part block rest) :
    readPart part = some (((strLines (lossy block)).findSome? mediaLine).map (rest, ·)).toList := by
  obtain ⟨sep, heq, hblank⟩ := h.blank
  have hcontent : sliceFrom part (block.length + sep.length) = some rest := by
    rw [heq, ← List.length_append]
    exact sliceFrom_append _ _
  have hheaders : slice part 0 block.length = some block := by
    rw [heq, List.append_assoc]
    exact slice_append _ _
  rw [readPart, hblank]
  simp only [hcontent, hheaders, Option.bind_eq_bind, Option.bind_some]
  rfl

/-- A part has a blank line, or nothing is read of it. -/
theorem splits_or (part : Bytes) : (∃ block rest, Splits part block rest) ∨ readPart part = some [] := by
  cases hc : find part (crlf ++ crlf) with
  | some i =>
    obtain ⟨u, v, h, -, hfree⟩ := exists_of_find (by decide) hc
    exact .inl ⟨u, v, .ofCrlf h hfree⟩
  | none =>
    cases hl : find part (lf ++ lf) with
    | some i =>
      obtain ⟨u, v, h, -, hfree⟩ := exists_of_find (by decide) hl
      exact .inl ⟨u, v, .ofLf ((find_eq_none (by decide)).1 hc) h hfree⟩
    | none =>
      right
      rw [readPart, blankLine, hc, hl]
      rfl

/-- Reading a part takes no slice out of range. What is read ends the part. -/
theorem readPart_total (part : Bytes) :
    ∃ out, readPart part = some out ∧ ∀ q ∈ out, ∃ front, part = front ++ q.1 := by
  rcases splits_or part with ⟨block, rest, h⟩ | h
  · refine ⟨_, h.read, ?_⟩
    obtain ⟨sep, heq, -⟩ := h.blank
    intro q hq
    obtain ⟨m, -, rfl⟩ := Option.map_eq_some_iff.1 (Option.mem_toList.1 hq)
    exact ⟨block ++ sep, heq⟩
  · exact ⟨[], h, by simp⟩

/-! ## Parts with headers -/

/-- The lines of a header block, one behind the other. -/
def joined : List (List Char) → List Char
  | [] => []
  | [line] => line
  | line :: lines => line ++ '\r' :: '\n' :: joined lines

theorem utf8_crlf (cs : List Char) : utf8 ('\r' :: '\n' :: cs) = crlf ++ utf8 cs := by
  rw [utf8_of_one (by decide), utf8_of_one (by decide)]
  rfl

theorem Header.line_free (h : Header) : ∀ c ∈ ['\r', '\n'], c ∉ h.line := by
  intro c hc hmem
  rcases List.mem_append.1 hmem with hmem | hmem
  · exact h.name_line c (List.mem_cons_of_mem _ hc) hmem
  · rcases List.mem_cons.1 hmem with rfl | hmem
    · exact absurd hc (by decide)
    · exact h.text_line c hc hmem

theorem not_mem_utf8 {d : Char} (hd : d.utf8Size = 1) {cs : List Char} (h : d ∉ cs) : d.val.toUInt8 ∉ utf8 cs := by
  intro hmem
  obtain ⟨c, hc, hb⟩ := List.mem_flatMap.1 hmem
  apply byte_ne hd _ _ hb rfl
  rintro rfl
  exact h hc

/-- Headers as they are written, up to the line break behind the last. -/
theorem bytes_headers (h : Header) (hs : List Header) (content : Bytes) :
    (h :: hs).flatMap (fun h => utf8 h.line ++ crlf) ++ crlf ++ content =
      utf8 (joined ((h :: hs).map Header.line)) ++ (crlf ++ crlf) ++ content := by
  induction hs generalizing h with
  | nil => simp [joined]
  | cons k hs ih =>
    have hstep := ih k
    rw [List.flatMap_cons, List.append_assoc, List.append_assoc, ← List.append_assoc _ crlf content, hstep]
    simp only [List.map_cons, joined, utf8_append, utf8_crlf, List.append_assoc]

/-- A header block does not begin with a line break. -/
theorem head_headers (h : Header) (hs : List Header) :
    ∃ b rest, utf8 (joined ((h :: hs).map Header.line)) = b :: rest ∧ b ≠ 13 := by
  have hfirst : ∃ more, joined ((h :: hs).map Header.line) = h.line ++ more := by
    cases hs with
    | nil => exact ⟨[], (List.append_nil _).symm⟩
    | cons k hs => exact ⟨_, rfl⟩
  obtain ⟨more, hmore⟩ := hfirst
  obtain ⟨c, cs, hcs⟩ : ∃ c cs, h.line = c :: cs := List.exists_cons_of_ne_nil (by simp [Header.line])
  have hc : c ≠ '\r' := by
    rintro rfl
    apply h.line_free '\r' (by decide)
    rw [hcs]
    exact List.mem_cons_self
  obtain ⟨b, rest, he, -, -, -⟩ := encodeChar_head c
  refine ⟨b, rest ++ utf8 (cs ++ more), ?_, ?_⟩
  · rw [hmore, hcs, List.cons_append, utf8_cons, he]
    rfl
  · apply byte_ne (d := '\r') (by decide) hc
    rw [he]
    exact List.mem_cons_self

/-- No blank line stands in a header block. -/
theorem free_headers (h : Header) (hs : List Header) : Free (crlf ++ crlf) (utf8 (joined ((h :: hs).map Header.line))) := by
  induction hs generalizing h with
  | nil =>
    have hline : (13 : UInt8) ∉ utf8 h.line := not_mem_utf8 (d := '\r') (by decide) (h.line_free _ (by decide))
    have hskip := @Free.skip _ (crlf ++ crlf) _ _ 13 rfl hline (Free.nil _)
    rwa [List.append_nil] at hskip
  | cons k hs ih =>
    have hline : (13 : UInt8) ∉ utf8 h.line := not_mem_utf8 (d := '\r') (by decide) (h.line_free _ (by decide))
    have hjoined : utf8 (joined ((h :: k :: hs).map Header.line)) =
        utf8 h.line ++ (13 :: 10 :: utf8 (joined ((k :: hs).map Header.line))) := by
      simp only [List.map_cons, joined, utf8_append, utf8_crlf]
      rfl
    obtain ⟨b, rest, hrest, hb⟩ := head_headers k hs
    rw [hjoined]
    apply Free.skip rfl hline
    apply Free.cons
    · -- the line behind does not begin with a line break
      rintro ⟨t, ht⟩
      rw [hrest] at ht
      simp only [crlf, List.cons_append, List.nil_append, List.cons.injEq] at ht
      exact hb ht.2.2.1.symm
    · apply Free.cons
      · rintro ⟨t, ht⟩
        simp only [crlf, List.cons_append, List.nil_append, List.cons.injEq] at ht
        exact absurd ht.1 (by decide)
      · exact ih k

/-- One line of several. -/
theorem strLines_append {line : List Char} (h : '\n' ∉ line) (rest : List Char) :
    strLines (line ++ '\r' :: '\n' :: rest) = line :: strLines rest := by
  have hfront : '\n' ∉ line ++ ['\r'] := by
    simpa using h
  have hsplit : (line ++ '\r' :: '\n' :: rest).splitOn '\n' = (line ++ ['\r']) :: rest.splitOn '\n' := by
    rw [← List.splitOn_append_cons_self_of_not_mem hfront rest, List.append_assoc]
    rfl
  have hne : rest.splitOn '\n' ≠ [] := List.splitOn_ne_nil _ _
  unfold strLines
  simp only [hsplit]
  rw [List.dropLast_cons_of_ne_nil hne, List.map_cons, List.getLast?_concat, if_pos rfl, List.dropLast_concat,
    List.getLast?_cons_of_ne_nil hne]
  rfl

theorem strLines_single {line : List Char} (hne : line ≠ []) (h : '\n' ∉ line) : strLines line = [line] := by
  unfold strLines
  rw [List.splitOn_eq_singleton h]
  cases line with
  | nil => exact absurd rfl hne
  | cons c line => rfl

theorem joined_lines (h : Header) (hs : List Header) :
    strLines (joined ((h :: hs).map Header.line)) = (h :: hs).map Header.line := by
  induction hs generalizing h with
  | nil =>
    have hne : h.line ≠ [] := by simp [Header.line]
    exact strLines_single hne (h.line_free '\n' (by decide))
  | cons k hs ih =>
    have hrest := ih k
    simp only [List.map_cons, joined] at hrest ⊢
    rw [strLines_append (h.line_free '\n' (by decide)), hrest]

theorem Header.mediaLine (h : Header) : mediaLine h.line = h.media := by
  have hname : ':' ∉ h.name := h.name_line ':' (by decide)
  rw [Server.mediaLine, Header.line, splitOnce_append hname]
  rfl

/-- A part with headers is read as it is meant. -/
theorem Part.read_headers {p : Part} (h : p.headers ≠ []) : readPart p.bytes = some p.typed := by
  obtain ⟨k, hs, hheaders⟩ := List.exists_cons_of_ne_nil h
  have hsplits : Splits p.bytes (utf8 (joined ((k :: hs).map Header.line))) p.content := by
    apply Splits.ofCrlf _ (free_headers k hs)
    rw [Part.bytes, hheaders]
    exact bytes_headers k hs p.content
  have hmedia : (strLines (joined ((k :: hs).map Header.line))).findSome? Server.mediaLine = p.media := by
    rw [joined_lines, Part.media, hheaders, List.findSome?_map]
    congr 1
    funext x
    exact x.mediaLine
  rw [hsplits.read, lossy_utf8, hmedia]
  rfl

/-- A part without headers is read as it is meant where its content is not mistaken. -/
theorem Part.read_bare {p : Part} (h : p.headers = []) : readPart p.bytes = some p.typed ↔ ¬Mistaken p.content := by
  have hbytes : p.bytes = crlf ++ p.content := by
    rw [Part.bytes, h]
    rfl
  have htyped : p.typed = [] := by
    rw [Part.typed, Part.media, h]
    rfl
  rw [hbytes, htyped]
  constructor
  · rintro hread ⟨block, rest, hsplits, hsome⟩
    obtain ⟨m, hm⟩ := Option.isSome_iff_exists.1 hsome
    rw [hsplits.read, hm] at hread
    cases Option.some.inj hread
  · intro hnot
    rcases splits_or (crlf ++ p.content) with ⟨block, rest, hsplits⟩ | hread
    · rw [hsplits.read]
      cases hm : (strLines (lossy block)).findSome? Server.mediaLine with
      | none => rfl
      | some m => exact absurd ⟨block, rest, hsplits, by rw [hm]; rfl⟩ hnot
    · exact hread

theorem Part.read_iff (p : Part) : readPart p.bytes = some p.typed ↔ p.Unmistaken := by
  by_cases h : p.headers = []
  · rw [p.read_bare h]
    exact ⟨fun hnot _ => hnot, fun hun => hun h⟩
  · exact ⟨fun _ he => absurd he h, fun _ => p.read_headers h⟩

/-! ## Between delimiters -/

variable {d : Bytes}

/-- Where a delimiter is found, what stands before it is a piece, but for the first. -/
theorem pieces_found (hd : d ≠ []) (pre : Bytes) {u : Bytes} (h : Free d u) (v : Bytes) (fuel : Nat) :
    pieces d (pre ++ (u ++ d ++ v)) (fuel + 1) pre.length =
      let piece := if 0 < pre.length then [u.take (u.length - 2)] else []
      if dashes.isPrefixOf v then some piece
      else (pieces d (pre ++ (u ++ d ++ v)) fuel (skipLine v (pre ++ u ++ d).length)).map (piece ++ ·) := by
  have hbehind : sliceFrom (pre ++ (u ++ d ++ v)) (pre.length + u.length + d.length) = some v := by
    have := sliceFrom_append (pre ++ u ++ d) v
    simpa [Nat.add_assoc] using this
  have hslice : slice (pre ++ (u ++ d ++ v)) pre.length (max (pre.length + u.length - 2) pre.length) =
      some (u.take (u.length - 2)) := by
    have hmax : max (pre.length + u.length - 2) pre.length = pre.length + (u.length - 2) := by omega
    rw [slice, hmax, if_pos ⟨by omega, by simp; omega⟩, List.take_length_add_append, List.drop_left, List.append_assoc,
      List.take_append_of_le_length (by omega)]
  rw [pieces, sliceFrom_append]
  simp only [Option.bind_eq_bind, Option.bind_some, find_append hd h, hslice, hbehind, Option.map_some, List.length_append]
  by_cases hpos : 0 < pre.length
  · simp only [if_pos hpos]
    split
    · rfl
    · rw [Option.map_eq_bind]
      rfl
  · simp only [if_neg hpos]
    split
    · rfl
    · rw [Option.map_eq_bind]
      rfl

theorem pieces_end (hd : d ≠ []) (pre : Bytes) {rest : Bytes} (h : ¬d <:+: rest) (fuel : Nat) :
    pieces d (pre ++ rest) (fuel + 1) pre.length = some [] := by
  rw [pieces, sliceFrom_append]
  simp only [Option.bind_eq_bind, Option.bind_some, (find_eq_none hd).2 h]
  rfl

theorem skipLine_le (v : Bytes) (n : Nat) : n ≤ skipLine v n ∧ skipLine v n ≤ n + v.length := by
  unfold skipLine
  split
  · rename_i hp
    have := (List.isPrefixOf_iff_prefix.1 hp).length_le
    exact ⟨by omega, by simpa [crlf] using this⟩
  · split
    · rename_i hp
      have := (List.isPrefixOf_iff_prefix.1 hp).length_le
      exact ⟨by omega, by simpa [lf] using this⟩
    · exact ⟨le_rfl, by omega⟩

/-- The scan ends, takes no slice out of range, and no piece holds the delimiter. -/
theorem pieces_total (hd : d ≠ []) (body : Bytes) {fuel start : Nat} (hstart : start ≤ body.length)
    (hfuel : body.length < fuel + start) : ∃ ps, pieces d body fuel start = some ps ∧ ∀ p ∈ ps, ¬d <:+: p := by
  induction fuel generalizing start with
  | zero => omega
  | succ fuel ih =>
    obtain ⟨pre, rest, rfl, rfl⟩ : ∃ pre rest, body = pre ++ rest ∧ start = pre.length :=
      ⟨body.take start, body.drop start, (List.take_append_drop start body).symm, by simp [hstart]⟩
    cases hf : find rest d with
    | none => exact ⟨[], pieces_end hd pre ((find_eq_none hd).1 hf) fuel, by simp⟩
    | some i =>
      obtain ⟨u, v, rfl, -, hfree⟩ := exists_of_find hd hf
      have hpiece : ∀ p ∈ (if 0 < pre.length then [u.take (u.length - 2)] else []), ¬d <:+: p := by
        intro p hp
        split at hp
        · rw [List.mem_singleton.1 hp]
          exact fun hin => hfree.not_infix hd (hin.trans (List.take_prefix _ u).isInfix)
        · cases hp
      rw [pieces_found hd pre hfree v fuel]
      simp only
      split
      · exact ⟨_, rfl, hpiece⟩
      · obtain ⟨hlow, hhigh⟩ := skipLine_le v (pre ++ u ++ d).length
        have hpos := List.length_pos_iff.2 hd
        simp only [List.length_append] at hlow hhigh hstart hfuel
        have hnext : skipLine v (pre ++ u ++ d).length ≤ (pre ++ (u ++ d ++ v)).length := by
          simp only [List.length_append]
          omega
        obtain ⟨ps, hps, hall⟩ := ih hnext (by simp only [List.length_append]; omega)
        refine ⟨_, by rw [hps]; rfl, ?_⟩
        intro p hp
        rcases List.mem_append.1 hp with hp | hp
        · exact hpiece p hp
        · exact hall p hp

/-- A delimiter with a line break behind it. -/
theorem pieces_next (hd : d ≠ []) (pre : Bytes) {u : Bytes} (h : Free d u) (rest : Bytes) (fuel : Nat) :
    pieces d (pre ++ (u ++ d ++ (crlf ++ rest))) (fuel + 1) pre.length =
      (pieces d ((pre ++ u ++ d ++ crlf) ++ rest) fuel (pre ++ u ++ d ++ crlf).length).map
        ((if 0 < pre.length then [u.take (u.length - 2)] else []) ++ ·) := by
  have hbody : pre ++ (u ++ d ++ (crlf ++ rest)) = pre ++ u ++ d ++ crlf ++ rest := by
    simp only [List.append_assoc]
  have hskip : skipLine (crlf ++ rest) (pre ++ u ++ d).length = (pre ++ u ++ d ++ crlf).length := by
    rw [@List.length_append _ _ crlf]
    rfl
  rw [pieces_found hd pre h (crlf ++ rest) fuel, hskip, hbody]
  rfl

/-- The delimiter that ends a body. -/
theorem pieces_last (hd : d ≠ []) (pre : Bytes) {u : Bytes} (h : Free d u) (tail : Bytes) (fuel : Nat) :
    pieces d (pre ++ (u ++ d ++ (dashes ++ tail))) (fuel + 1) pre.length =
      some (if 0 < pre.length then [u.take (u.length - 2)] else []) := by
  rw [pieces_found hd pre h (dashes ++ tail) fuel]
  rfl

/-- The parts that follow a delimiter. -/
def sections (d tail : Bytes) (ps : List Part) : Bytes :=
  ps.flatMap (fun p => crlf ++ (p.bytes ++ crlf ++ d)) ++ dashes ++ tail

theorem sections_cons (d tail : Bytes) (p : Part) (ps : List Part) :
    sections d tail (p :: ps) = crlf ++ (p.bytes ++ crlf ++ d ++ sections d tail ps) := by
  simp only [sections, List.flatMap_cons, List.append_assoc]

theorem take_crlf (b : Bytes) : (b ++ crlf).take ((b ++ crlf).length - 2) = b := by
  have hlen : (b ++ crlf).length - 2 = b.length := by
    rw [List.length_append]
    rfl
  rw [hlen, List.take_left]

/-- The pieces behind a delimiter are the parts. -/
theorem pieces_sections (hd : d ≠ []) (tail : Bytes) (ps : List Part) {pre : Bytes} (hpre : 0 < pre.length) (p : Part)
    (hquiet : ∀ q ∈ p :: ps, q.Quiet d) {fuel : Nat} (hfuel : ps.length < fuel) :
    pieces d (pre ++ (p.bytes ++ crlf ++ d ++ sections d tail ps)) fuel pre.length = some ((p :: ps).map Part.bytes) := by
  obtain ⟨fuel, rfl⟩ : ∃ n, fuel = n + 1 := ⟨fuel - 1, by omega⟩
  induction ps generalizing pre p fuel with
  | nil =>
    have hlast := pieces_last hd pre (hquiet p List.mem_cons_self) tail fuel
    rw [if_pos hpre, take_crlf] at hlast
    exact hlast
  | cons q ps ih =>
    rw [List.length_cons] at hfuel
    obtain ⟨fuel, rfl⟩ : ∃ n, fuel = n + 1 := ⟨fuel - 1, by omega⟩
    have hlater : 0 < (pre ++ (p.bytes ++ crlf) ++ d ++ crlf).length := by
      simp only [List.length_append]
      omega
    rw [sections_cons, pieces_next hd pre (hquiet p List.mem_cons_self) _ (fuel + 1),
      ih hlater q (fun r hr => hquiet r (List.mem_cons_of_mem _ hr)) fuel (by omega), if_pos hpre, take_crlf]
    rfl

theorem length_le_sections (d tail : Bytes) (ps : List Part) : ps.length ≤ (sections d tail ps).length := by
  induction ps with
  | nil => exact Nat.zero_le _
  | cons p ps ih =>
    rw [sections_cons]
    simp only [List.length_append, List.length_cons, crlf]
    omega

/-- The pieces of an upload are its parts. -/
theorem pieces_written (hd : d ≠ []) {lead : Bytes} (hlead : Free d lead) (tail : Bytes) {ps : List Part}
    (hquiet : ∀ p ∈ ps, p.Quiet d) {fuel : Nat} (hfuel : ps.length + 1 < fuel) :
    pieces d (lead ++ d ++ sections d tail ps) fuel 0 = some (ps.map Part.bytes) := by
  obtain ⟨fuel, rfl⟩ : ∃ n, fuel = n + 1 := ⟨fuel - 1, by omega⟩
  cases ps with
  | nil => exact pieces_last hd [] hlead tail fuel
  | cons p ps =>
    have hnext := pieces_next hd [] hlead (p.bytes ++ crlf ++ d ++ sections d tail ps) fuel
    rw [← sections_cons] at hnext
    have hlater : 0 < ([] ++ lead ++ d ++ crlf).length := by
      simp only [List.length_append, crlf, List.length_cons]
      omega
    rw [List.length_cons] at hfuel
    rw [pieces_sections hd tail ps hlater p hquiet (by omega)] at hnext
    exact hnext

/-! ## Uploads -/

theorem delimiter_ne (boundary : List Char) : delimiter boundary ≠ [] := by
  rw [delimiter, utf8_of_one (by decide)]
  exact List.cons_ne_nil _ _

/-- Every part read, none taking a slice out of range. -/
theorem exists_read : ∃ read : Bytes → List (Bytes × List Char), (∀ part, readPart part = some (read part)) ∧
    ∀ part, ∀ q ∈ read part, ∃ front, part = front ++ q.1 := by
  choose read hread using readPart_total
  exact ⟨read, fun part => (hread part).1, fun part => (hread part).2⟩

theorem mapM_readPart {read : Bytes → List (Bytes × List Char)} (h : ∀ part, readPart part = some (read part)) (l : List Bytes) :
    l.mapM readPart = some (l.map read) := by
  have hpure : readPart = fun part => pure (read part) := by
    funext part
    exact h part
  rw [hpure, List.mapM_pure]
  rfl

/-- On any bytes the parts are read to an end, and no content holds the delimiter. -/
theorem multipartParts_total (body : Bytes) (boundary : List Char) :
    ∃ out, multipartParts body boundary = some out ∧ ∀ q ∈ out, ¬delimiter boundary <:+: q.1 := by
  obtain ⟨ps, hps, hfree⟩ := pieces_total (delimiter_ne boundary) body (Nat.zero_le _) (Nat.lt_succ_self body.length)
  obtain ⟨read, hread, hends⟩ := exists_read
  refine ⟨(ps.map read).flatten, ?_, ?_⟩
  · rw [multipartParts, hps, Option.bind_eq_bind, Option.bind_some, mapM_readPart hread]
    rfl
  · intro q hq hin
    obtain ⟨out, hout, hmem⟩ := List.mem_flatten.1 hq
    obtain ⟨p, hp, rfl⟩ := List.mem_map.1 hout
    obtain ⟨front, hfront⟩ := hends p q hmem
    apply hfree p hp
    rw [hfront]
    exact hin.trans (List.suffix_append front q.1).isInfix

theorem written_eq (boundary : List Char) (lead tail : Bytes) (ps : List Part) :
    written boundary lead tail ps = lead ++ delimiter boundary ++ sections (delimiter boundary) tail ps := rfl

theorem length_le_written (boundary : List Char) (lead tail : Bytes) (ps : List Part) :
    ps.length + 1 < (written boundary lead tail ps).length + 1 := by
  have hsections := length_le_sections (delimiter boundary) tail ps
  have hpos := List.length_pos_iff.2 (delimiter_ne boundary)
  rw [written_eq, List.length_append, List.length_append]
  omega

/-- Where the delimiter stands between the parts alone, each part is read for itself. -/
theorem multipartParts_written {boundary : List Char} {lead : Bytes} (hlead : Free (delimiter boundary) lead) (tail : Bytes)
    {ps : List Part} (hquiet : ∀ p ∈ ps, p.Quiet (delimiter boundary)) {read : Bytes → List (Bytes × List Char)}
    (hread : ∀ part, readPart part = some (read part)) :
    multipartParts (written boundary lead tail ps) boundary = some (ps.flatMap fun p => read p.bytes) := by
  have hpieces := pieces_written (delimiter_ne boundary) hlead tail hquiet (length_le_written boundary lead tail ps)
  rw [← written_eq] at hpieces
  rw [multipartParts, hpieces, Option.bind_eq_bind, Option.bind_some, mapM_readPart hread, List.map_map, List.flatMap_def]
  rfl

theorem length_flatMap_le {α β : Type} {f g : α → List β} {l : List α} (h : ∀ x ∈ l, f x = g x ∨ g x = []) :
    (l.flatMap g).length ≤ (l.flatMap f).length := by
  induction l with
  | nil => exact le_rfl
  | cons x l ih =>
    have hrest := ih (fun y hy => h y (List.mem_cons_of_mem x hy))
    rw [List.flatMap_cons, List.flatMap_cons, List.length_append, List.length_append]
    rcases h x List.mem_cons_self with hx | hx
    · rw [hx]
      omega
    · rw [hx, List.length_nil]
      omega

/-- A list that leaves out whole stretches of another is the other where it leaves out none. -/
theorem flatMap_eq_iff {α β : Type} {f g : α → List β} {l : List α} (h : ∀ x ∈ l, f x = g x ∨ g x = []) :
    l.flatMap f = l.flatMap g ↔ ∀ x ∈ l, f x = g x := by
  constructor
  · intro heq
    induction l with
    | nil => simp
    | cons x l ih =>
      have hrest : ∀ y ∈ l, f y = g y ∨ g y = [] := fun y hy => h y (List.mem_cons_of_mem x hy)
      have hle := length_flatMap_le hrest
      rw [List.flatMap_cons, List.flatMap_cons] at heq
      have hlen := congrArg List.length heq
      rw [List.length_append, List.length_append] at hlen
      have hx : (f x).length = (g x).length := by
        rcases h x List.mem_cons_self with hx | hx
        · rw [hx]
        · rw [hx, List.length_nil] at hlen ⊢
          omega
      obtain ⟨hfirst, htail⟩ := List.append_inj heq hx
      intro y hy
      rcases List.mem_cons.1 hy with rfl | hy
      · exact hfirst
      · exact ih hrest htail y hy
  · intro hall
    rw [List.flatMap_def, List.flatMap_def, List.map_congr_left hall]

/-- An upload whose delimiter stands between the parts alone is read right where no content is
mistaken for headers. -/
theorem quiet_iff {boundary : List Char} {lead : Bytes} (hlead : Free (delimiter boundary) lead) (tail : Bytes)
    {ps : List Part} (hquiet : ∀ p ∈ ps, p.Quiet (delimiter boundary)) :
    multipartParts (written boundary lead tail ps) boundary = some (ps.flatMap Part.typed) ↔ ∀ p ∈ ps, p.Unmistaken := by
  obtain ⟨read, hread, -⟩ := exists_read
  have hone : ∀ p : Part, read p.bytes = p.typed ↔ p.Unmistaken := by
    intro p
    rw [← p.read_iff, hread, Option.some.injEq]
  have hor : ∀ p ∈ ps, read p.bytes = p.typed ∨ p.typed = [] := by
    intro p _
    by_cases hp : p.headers = []
    · right
      rw [Part.typed, Part.media, hp]
      rfl
    · exact .inl ((hone p).2 (fun he => absurd he hp))
  rw [multipartParts_written hlead tail hquiet hread, Option.some.injEq, flatMap_eq_iff hor]
  exact forall₂_congr fun p _ => hone p

/-- An upload whose delimiter, but for those between the parts, stands in contents that have a
media type is read right where it stands in none, and no content without headers is mistaken for
some. Any bytes are read to an end. -/
theorem multipart_exact (boundary : List Char) (lead tail : Bytes) (ps : List Part) (hlead : Free (delimiter boundary) lead)
    (hwhere : ∀ p ∈ ps, p.Quiet (delimiter boundary) ∨ p.media.isSome ∧ delimiter boundary <:+: p.content) :
    (multipartParts (written boundary lead tail ps) boundary = some (ps.flatMap Part.typed) ↔
      ∀ p ∈ ps, p.Quiet (delimiter boundary) ∧ p.Unmistaken) ∧
    ∀ body b, (multipartParts body b).isSome := by
  constructor
  · constructor
    · intro h
      have hquiet : ∀ p ∈ ps, p.Quiet (delimiter boundary) := by
        intro p hp
        refine (hwhere p hp).resolve_right ?_
        rintro ⟨hmedia, hin⟩
        obtain ⟨out, hout, hfree⟩ := multipartParts_total (written boundary lead tail ps) boundary
        rw [h] at hout
        obtain ⟨m, hm⟩ := Option.isSome_iff_exists.1 hmedia
        have hmem : (p.content, m) ∈ p.typed := by
          rw [Part.typed, hm]
          exact List.mem_singleton_self _
        apply hfree (p.content, m) _ hin
        rw [← Option.some.inj hout]
        exact List.mem_flatMap.2 ⟨p, hp, hmem⟩
      have hun := (quiet_iff hlead tail hquiet).1 h
      exact fun p hp => ⟨hquiet p hp, hun p hp⟩
    · intro h
      exact (quiet_iff hlead tail (fun p hp => (h p hp).1)).2 (fun p hp => (h p hp).2)
  · intro body b
    obtain ⟨out, hout, -⟩ := multipartParts_total body b
    rw [hout]
    rfl

/-- A file in Turtle. -/
def turtlePart (content : List Char) : Part :=
  ⟨[⟨"Content-Type".toList, " text/turtle".toList, Lib.forall_mem_of_all (by decide), Lib.forall_mem_of_all (by decide)⟩], utf8 content⟩

theorem multipart_exact_file :
    multipartParts (written ['B'] [] [] [turtlePart "<a> <b> <c> .".toList, ⟨[], utf8 "field".toList⟩]) ['B'] =
      some [(utf8 "<a> <b> <c> .".toList, "text/turtle".toList)] := by
  have hquiet : ∀ p ∈ [turtlePart "<a> <b> <c> .".toList, ⟨[], utf8 "field".toList⟩], p.Quiet (delimiter ['B']) := by
    intro p hp
    simp only [List.mem_cons, List.not_mem_nil, or_false] at hp
    rcases hp with rfl | rfl
    · exact (free_iff (delimiter_ne _) _).2 (by decide)
    · exact (free_iff (delimiter_ne _) _).2 (by decide)
  have hun : ∀ p ∈ [turtlePart "<a> <b> <c> .".toList, ⟨[], utf8 "field".toList⟩], p.Unmistaken := by
    intro p hp
    apply p.read_iff.1
    simp only [List.mem_cons, List.not_mem_nil, or_false] at hp
    rcases hp with rfl | rfl
    · decide
    · decide
  exact ((multipart_exact ['B'] [] [] _ (Free.nil _) (fun p hp => .inl (hquiet p hp))).1).2 (fun p hp => ⟨hquiet p hp, hun p hp⟩)

/-- A content with the delimiter in a line is cut there, and one without headers that begins like
a header is taken for a file. -/
theorem uploads_misread :
    (¬crlf ++ delimiter ['B'] <:+: (turtlePart "<a> <b> \"--B\" .".toList).content ∧
      multipartParts (written ['B'] [] [] [turtlePart "<a> <b> \"--B\" .".toList]) ['B'] =
        some [(utf8 "<a> <b>".toList, "text/turtle".toList)]) ∧
    multipartParts (written ['B'] [] [] [⟨[], utf8 "Content-Type: a\r\n\r\nb".toList⟩]) ['B'] =
      some [(utf8 ['b'], ['a'])] ∧
    (turtlePart "<a> <b> \"--B\" .".toList).typed = [(utf8 "<a> <b> \"--B\" .".toList, "text/turtle".toList)] ∧
    (⟨[], utf8 "Content-Type: a\r\n\r\nb".toList⟩ : Part).typed = [] := by
  decide

theorem trimMatches_of_none {c : Char} {s : List Char} (h : c ∉ s) : trimMatches c s = s := by
  have hdrop : ∀ l : List Char, c ∉ l → l.dropWhile (· == c) = l := by
    intro l hl
    cases l with
    | nil => rfl
    | cons x l =>
      apply List.dropWhile_cons_of_neg
      rw [beq_iff_eq]
      rintro rfl
      exact hl List.mem_cons_self
  unfold trimMatches
  rw [hdrop s h, hdrop s.reverse (by rwa [List.mem_reverse]), List.reverse_reverse]

/-- The boundary a client gives is the one the body is split at. -/
theorem multipartBoundary_read {boundary : List Char} (h : ∀ c ∈ boundary, c ≠ ';' ∧ c ≠ '"' ∧ isWhitespace c = false) :
    multipartBoundary ("multipart/form-data; boundary=".toList ++ boundary) = some boundary := by
  have hsplit : ("multipart/form-data; boundary=".toList ++ boundary).splitOn ';' =
      ["multipart/form-data".toList, " boundary".toList ++ '=' :: boundary] := by
    have hfirst : ';' ∉ "multipart/form-data".toList := by decide
    have hsecond : ';' ∉ " boundary".toList ++ '=' :: boundary := by
      simp only [List.mem_append, List.mem_cons, not_or]
      exact ⟨by decide, by decide, fun hmem => (h _ hmem).1 rfl⟩
    rw [← List.splitOn_eq_singleton hsecond, ← List.splitOn_append_cons_self_of_not_mem hfirst]
    rfl
  have hvalue : trimMatches '"' (trim boundary) = boundary := by
    rw [trim_of_none (fun c hc => (h c hc).2.2), trimMatches_of_none (fun hmem => (h _ hmem).2.1 rfl)]
  have hparam : splitOnce '=' (" boundary".toList ++ '=' :: boundary) = some (" boundary".toList, boundary) :=
    splitOnce_append (by decide) boundary
  have hmedia : (["multipart/form-data".toList, " boundary".toList ++ '=' :: boundary].head?.map fun m =>
      (trim m).map Char.toLower) = some "multipart/form-data".toList := by
    rw [List.head?_cons]
    decide
  rw [multipartBoundary, hsplit, if_pos hmedia, List.findSome?_cons, List.findSome?_cons, hparam, Option.bind_some]
  simp only [hvalue]
  rfl

end Holos.Server
