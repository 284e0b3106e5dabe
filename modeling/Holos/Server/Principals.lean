import Holos.Security.Principals
import Holos.Lib.Text
import Holos.Engine.World
/-!
# Who a request is from

A server that trusts its proxy reads the principal from forwarded headers. The name is made
safe for an IRI character by character, and two names can be made the same.
-/

namespace Holos.Server

open Security Lib

/-- What of the server's configuration decides who a request is from. -/
structure Config where
  trustForwarded : Bool
  roles : List String
  clearance : Option Nat

/-- A request's headers, in order. -/
structure Request where
  headers : List (String × String)

def eqIgnoreAsciiCase (a b : String) : Bool := a.toList.map Char.toLower == b.toList.map Char.toLower

/-- The first header of a name, whatever its case. -/
def header (request : Request) (name : String) : Option String :=
  (request.headers.find? fun h => eqIgnoreAsciiCase h.1 name).map (·.2)

/-- A character of a forwarded name: `_` for one that is no letter, digit, `-` or `_`. -/
def forwardedChar (c : Char) : Char := if !c.isAlphanum && c ≠ '-' && c ≠ '_' then '_' else c

def forwardedName (id : String) : String := String.ofList (id.toList.map forwardedChar)

/-- The roles a header lists. -/
def forwardedRoles (roles : String) : List String :=
  ((roles.toList.splitOn ',').map trim).filter (!·.isEmpty) |>.map String.ofList

/-- The principal of a request. -/
def principalFor (config : Config) (request : Request) : Principal :=
  let principal :=
    if config.trustForwarded then
      match header request "x-holos-principal" with
      | some id => Principal.new ("urn:holos:principal:forwarded/" ++ forwardedName id)
      | none => Principal.anonymous
    else Principal.anonymous
  let principal :=
    if config.trustForwarded then
      let principal := match header request "x-holos-roles" with
        | some roles => (forwardedRoles roles).foldl Principal.withRole principal
        | none => principal
      match (header request "x-holos-clearance").bind fun c => parseBelow (2 ^ 16) (trim c.toList) with
      | some level => principal.withClearance (Label.ofLevel level)
      | none => principal
    else principal
  let principal := config.roles.foldl Principal.withRole principal
  match config.clearance with
  | some level => principal.withClearance (Label.ofLevel level)
  | none => principal

theorem foldl_withRole_id (roles : List String) (principal : Principal) : (roles.foldl Principal.withRole principal).id = principal.id := by
  induction roles generalizing principal with
  | nil => rfl
  | cons role roles ih => exact ih _

theorem withClearance_id (clearance : Option Nat) (principal : Principal) :
    (match clearance with
      | some level => principal.withClearance (Label.ofLevel level)
      | none => principal).id = principal.id := by
  cases clearance <;> rfl

/-- The identifier is the forwarded name's, whatever roles and clearance come with it. -/
theorem principalFor_id {config : Config} (h : config.trustForwarded = true) {request : Request} {id : String}
    (hid : header request "x-holos-principal" = some id) :
    (principalFor config request).id = "urn:holos:principal:forwarded/" ++ forwardedName id := by
  unfold principalFor
  simp only [h, hid, if_true]
  rw [withClearance_id, foldl_withRole_id, withClearance_id]
  split
  · rw [foldl_withRole_id]
    rfl
  · rfl

/-! ## Names that are kept apart -/

/-- The characters no other is turned into. -/
def Kept (c : Char) : Prop := c.isAlphanum ∨ c = '-'

theorem forwardedChar_kept {c : Char} (h : Kept c) : forwardedChar c = c ∧ c ≠ '_' := by
  have hne : c ≠ '_' := by
    rintro rfl
    rcases h with h | h
    · exact absurd h (by decide)
    · exact absurd h (by decide)
  refine ⟨?_, hne⟩
  unfold forwardedChar
  apply if_neg
  rcases h with h | rfl
  · simp [h]
  · decide

theorem forwardedChar_lost {c : Char} (h : ¬Kept c) : forwardedChar c = '_' := by
  obtain ⟨ha, hd⟩ := not_or.1 h
  unfold forwardedChar
  by_cases hu : c = '_'
  · rw [hu]
    decide
  · apply if_pos
    simp [ha, hd, hu]

theorem forwardedChar_inj {c d : Char} : forwardedChar c = forwardedChar d ↔ c = d ∨ ¬Kept c ∧ ¬Kept d := by
  by_cases hc : Kept c
  · by_cases hd : Kept d
    · rw [(forwardedChar_kept hc).1, (forwardedChar_kept hd).1]
      tauto
    · rw [(forwardedChar_kept hc).1, forwardedChar_lost hd]
      have hne := (forwardedChar_kept hc).2
      have hcd : c ≠ d := fun e => hd (e ▸ hc)
      tauto
  · by_cases hd : Kept d
    · rw [forwardedChar_lost hc, (forwardedChar_kept hd).1]
      have hne := (forwardedChar_kept hd).2.symm
      have hcd : c ≠ d := fun e => hc (e ▸ hd)
      tauto
    · rw [forwardedChar_lost hc, forwardedChar_lost hd]
      tauto

/-- Two names that are not as long, or that somewhere have two characters of which one is kept. -/
def KeptApart (a b : String) : Prop :=
  a.length ≠ b.length ∨ ∃ (i : Nat) (c d : Char), a.toList[i]? = some c ∧ b.toList[i]? = some d ∧ c ≠ d ∧ (Kept c ∨ Kept d)

theorem forwardedName_ne_iff {a b : String} : forwardedName a ≠ forwardedName b ↔ KeptApart a b := by
  have hget : forwardedName a = forwardedName b ↔
      ∀ i : Nat, (a.toList[i]?).map forwardedChar = (b.toList[i]?).map forwardedChar := by
    unfold forwardedName
    rw [String.ofList_inj, List.ext_getElem?_iff]
    simp only [List.getElem?_map]
  unfold KeptApart
  rw [ne_eq, hget, ← String.length_toList, ← String.length_toList]
  constructor
  · intro h
    obtain ⟨i, hi⟩ := not_forall.1 h
    by_cases hlen : a.toList.length = b.toList.length
    · right
      by_cases hlt : i < a.toList.length
      · have hlt' : i < b.toList.length := hlen ▸ hlt
        rw [List.getElem?_eq_getElem hlt, List.getElem?_eq_getElem hlt'] at hi
        have hne : ¬forwardedChar a.toList[i] = forwardedChar b.toList[i] := fun e => hi (congrArg some e)
        rw [forwardedChar_inj, not_or, not_and_or, not_not, not_not] at hne
        exact ⟨i, _, _, List.getElem?_eq_getElem hlt, List.getElem?_eq_getElem hlt', hne⟩
      · exact absurd (by rw [List.getElem?_eq_none (by omega), List.getElem?_eq_none (by omega)]) hi
    · exact .inl hlen
  · rintro (hlen | ⟨i, c, d, hc, hd, hcd, hkept⟩) hall
    · apply hlen
      have h : a.toList.map forwardedChar = b.toList.map forwardedChar := by
        apply List.ext_getElem?
        simpa only [List.getElem?_map] using hall
      simpa using congrArg List.length h
    · have h := hall i
      rw [hc, hd] at h
      rcases forwardedChar_inj.1 (Option.some.inj h) with he | ⟨hnc, hnd⟩
      · exact hcd he
      · rcases hkept with hk | hk
        · exact hnc hk
        · exact hnd hk

theorem iriChar_forwardedName (id : String) : ∀ c ∈ (forwardedName id).toList, IriChar c := by
  intro c hc
  unfold forwardedName at hc
  rw [String.toList_ofList] at hc
  obtain ⟨d, -, rfl⟩ := List.mem_map.1 hc
  by_cases hd : Kept d
  · rw [(forwardedChar_kept hd).1]
    rcases hd with hd | rfl
    · exact .inl hd
    · exact .inr (by decide)
  · rw [forwardedChar_lost hd]
    exact .inr (by decide)

/-- Claims of two issuers or two subjects make two principals. Two forwarded names make two
exactly when they are kept apart; otherwise a rule for one applies to the other. Every
identifier is made of characters an IRI can have. -/
theorem principals_apart (config config' : Config) (request request' : Request) (a b : String) :
    (∀ issuer subject issuer' subject' claims claims' rolesClaim rolesClaim', (issuer, subject) ≠ (issuer', subject') →
      (Principal.fromVerifiedClaims issuer subject claims rolesClaim).id ≠
        (Principal.fromVerifiedClaims issuer' subject' claims' rolesClaim').id) ∧
    (∀ issuer subject claims rolesClaim, ∀ c ∈ (Principal.fromVerifiedClaims issuer subject claims rolesClaim).id.toList, IriChar c) ∧
    (config.trustForwarded = true → config'.trustForwarded = true →
      header request "x-holos-principal" = some a → header request' "x-holos-principal" = some b →
      ((principalFor config request).id ≠ (principalFor config' request').id ↔ KeptApart a b) ∧
      ((PrincipalMatch.identity (principalFor config request).id).matches (principalFor config' request') = false ↔ KeptApart a b) ∧
      ∀ c ∈ (principalFor config request).id.toList, IriChar c) := by
  refine ⟨fun issuer subject issuer' subject' claims claims' rolesClaim rolesClaim' hne heq => ?_,
    Principal.iriChar_fromVerifiedClaims, fun ht ht' ha hb => ?_⟩
  · obtain ⟨hi, hs⟩ := Principal.fromVerifiedClaims_inj heq
    exact hne (by rw [hi, hs])
  · have hid : (principalFor config request).id ≠ (principalFor config' request').id ↔ KeptApart a b := by
      rw [principalFor_id ht ha, principalFor_id ht' hb, ← forwardedName_ne_iff, ne_eq, ne_eq, not_iff_not, ← String.toList_inj,
        String.toList_append, String.toList_append, List.append_cancel_left_eq, String.toList_inj]
    refine ⟨hid, ?_, ?_⟩
    · rw [← hid]
      unfold PrincipalMatch.matches
      rw [decide_eq_false_iff_not]
      exact ne_comm
    · intro c hc
      rw [principalFor_id ht ha, String.toList_append, List.mem_append] at hc
      rcases hc with hc | hc
      · have hprefix : ∀ c ∈ "urn:holos:principal:forwarded/".toList, IriChar c := Lib.forall_mem_of_all (by decide)
        exact hprefix c hc
      · exact iriChar_forwardedName a c hc

/-- A server behind a proxy. -/
def trusting : Config := ⟨true, [], none⟩

/-- `a.b` and `a_b` are one principal. -/
theorem principals_collide :
    header ⟨[("X-Holos-Principal", "a.b")]⟩ "x-holos-principal" = some "a.b" ∧
      header ⟨[("X-Holos-Principal", "a_b")]⟩ "x-holos-principal" = some "a_b" ∧ ("a.b" : String) ≠ "a_b" ∧
      (principalFor trusting ⟨[("X-Holos-Principal", "a.b")]⟩).id = (principalFor trusting ⟨[("X-Holos-Principal", "a_b")]⟩).id := by
  have ha : header ⟨[("X-Holos-Principal", "a.b")]⟩ "x-holos-principal" = some "a.b" := by decide
  have hb : header ⟨[("X-Holos-Principal", "a_b")]⟩ "x-holos-principal" = some "a_b" := by decide
  refine ⟨ha, hb, by decide, ?_⟩
  rw [principalFor_id rfl ha, principalFor_id rfl hb]
  rfl

/-- `a` and `b` are not. -/
theorem principals_apart_letters :
    (principalFor trusting ⟨[("X-Holos-Principal", "a")]⟩).id ≠ (principalFor trusting ⟨[("X-Holos-Principal", "b")]⟩).id := by
  have ha : header ⟨[("X-Holos-Principal", "a")]⟩ "x-holos-principal" = some "a" := by decide
  have hb : header ⟨[("X-Holos-Principal", "b")]⟩ "x-holos-principal" = some "b" := by decide
  have h := (principals_apart trusting trusting ⟨[("X-Holos-Principal", "a")]⟩ ⟨[("X-Holos-Principal", "b")]⟩ "a" "b").2.2 rfl rfl ha hb
  exact h.1.2 (.inr ⟨0, 'a', 'b', rfl, rfl, by decide, .inl (.inl (by decide))⟩)

end Holos.Server
