import Holos.Security.Policy
import Holos.Lib.Percent
import Holos.Lib.Text
import Holos.Lib.Labels
/-!
# Where principals come from

A principal built from claims a token carried is named by the issuer and the subject, each
percent-escaped. Two that differ are two principals.
-/

namespace Holos.Security

open Lib

/-- A principal with an identifier and nothing else. -/
def Principal.new (id : NamedNode) : Principal := ⟨id, ∅, [], none⟩

def Principal.withRole (self : Principal) (role : String) : Principal := { self with roles := insert role self.roles }

def Principal.withClearance (self : Principal) (clearance : Label) : Principal := { self with clearance := some clearance }

def Label.ofLevel (level : Nat) : Label := ⟨level, ∅⟩

/-- Percent-escapes the characters that would break an IRI. -/
def urnEscape (s : String) : String :=
  String.ofList <| s.toList.flatMap fun c =>
    if c.isAlphanum ∨ c ∈ ['-', '.', '_', '~'] then [c] else (String.utf8EncodeChar c).flatMap percentByte

/-- The principal of an identity provider's claims: the claim named `rolesClaim` holds the
roles, and every other is an attribute. -/
def Principal.fromVerifiedClaims (issuer subject : String) (claims : List (String × Finset String)) (rolesClaim : String) :
    Principal :=
  claims.foldl
    (fun principal (key, values) =>
      if key = rolesClaim then { principal with roles := principal.roles ∪ values }
      else { principal with attributes := principal.attributes ++ [(key, values)] })
    (Principal.new ("urn:holos:principal:" ++ urnEscape issuer ++ "/" ++ urnEscape subject))

/-! ## Escapes -/

/-- The characters below 128 an IRI can have: unreserved, reserved, and `%`. -/
def IriChar (c : Char) : Prop :=
  c.isAlphanum ∨ c ∈ ['-', '.', '_', '~', ':', '/', '?', '#', '[', ']', '@', '!', '$', '&', '\'', '(', ')', '*', '+', ',', ';',
    '=', '%']
deriving Decidable

/-- What an escape is made of. -/
def UrnChar (c : Char) : Prop := c.isAlphanum ∨ c ∈ ['-', '.', '_', '~', '%']

theorem hexDigit_isAlphanum {n : Nat} (h : n < 16) : (hexDigit n).isAlphanum = true := by
  have hall : ∀ n < 16, (hexDigit n).isAlphanum = true := by decide
  exact hall n h

theorem urnChar_of_mem {s : String} {c : Char} (h : c ∈ (urnEscape s).toList) : UrnChar c := by
  unfold urnEscape at h
  rw [String.toList_ofList, List.mem_flatMap] at h
  obtain ⟨d, -, hc⟩ := h
  split at hc
  · rename_i hd
    rw [List.mem_singleton.1 hc]
    apply hd.imp_right
    intro hm
    exact List.mem_append_left ['%'] hm
  · obtain ⟨b, -, hb⟩ := List.mem_flatMap.1 hc
    have := b.toNat_lt
    simp only [percentByte, List.mem_cons, List.not_mem_nil, or_false] at hb
    rcases hb with rfl | rfl | rfl
    · exact .inr (by decide)
    · exact .inl (hexDigit_isAlphanum (by omega))
    · exact .inl (hexDigit_isAlphanum (by omega))

theorem isAlphanum_iff {c : Char} : c.isAlphanum = true ↔
    ((decide (c.val ≥ 'A'.val ∧ c.val ≤ 'Z'.val) || (decide (c.val ≥ 'a'.val) && decide (c.val ≤ 'z'.val))) ||
      (decide (c.val ≥ '0'.val) && decide (c.val ≤ '9'.val))) = true := Iff.rfl

theorem isAlphanum_lt {c : Char} (h : c.isAlphanum = true) : c.utf8Size = 1 ∧ c ≠ '%' := by
  have hrange : 48 ≤ c.toNat ∧ c.toNat ≤ 122 := by
    simp only [isAlphanum_iff, Bool.or_eq_true, Bool.and_eq_true, decide_eq_true_eq, UInt32.le_iff_toNat_le, ge_iff_le] at h
    have : c.val.toNat = c.toNat := rfl
    have : 'A'.val.toNat = 65 := rfl
    have : 'Z'.val.toNat = 90 := rfl
    have : 'a'.val.toNat = 97 := rfl
    have : 'z'.val.toNat = 122 := rfl
    have : '0'.val.toNat = 48 := rfl
    have : '9'.val.toNat = 57 := rfl
    omega
  constructor
  · rw [Char.utf8Size_eq_one_iff, UInt32.le_iff_toNat_le]
    exact Nat.le_trans hrange.2 (by decide)
  · rintro rfl
    exact absurd hrange.1 (by decide)

/-- A character left as it is stands for its one byte. -/
theorem unescape_kept {c : Char} (h : c.isAlphanum ∨ c ∈ ['-', '.', '_', '~']) (bs : List UInt8) :
    unescape false (String.utf8EncodeChar c ++ bs) = String.utf8EncodeChar c ++ unescape false bs := by
  have hone : c.utf8Size = 1 ∧ c ≠ '%' := by
    rcases h with h | h
    · exact isAlphanum_lt h
    · have hall : ∀ c ∈ ['-', '.', '_', '~'], c.utf8Size = 1 ∧ c ≠ '%' := Lib.forall_mem_of_all (by decide)
      exact hall c h
  have hne : c.val.toUInt8 ≠ 37 := fun hb => hone.2 (byte_inj hone.1 (by decide) hb)
  rw [(encodeChar_of_one hone.1).1]
  exact unescape_plain hne bs

/-- An escape is read back. -/
theorem unescape_urnEscape (s : String) : unescape false (utf8 (urnEscape s).toList) = utf8 s.toList := by
  unfold urnEscape
  rw [String.toList_ofList]
  induction s.toList with
  | nil => rfl
  | cons c cs ih =>
    rw [List.flatMap_cons, utf8_append, utf8_cons c cs]
    split
    · rename_i hc
      rw [utf8_cons, show utf8 [] = [] from rfl, List.append_nil, unescape_kept hc, ih]
    · have hbytes : ∀ bs rest : List UInt8,
          unescape false (utf8 (bs.flatMap percentByte) ++ rest) = bs ++ unescape false rest := by
        intro bs rest
        induction bs with
        | nil => rfl
        | cons b bs ihb =>
          rw [List.flatMap_cons, utf8_append, List.append_assoc, unescape_percentByte, ihb, List.cons_append]
      rw [hbytes, ih]

theorem urnEscape_inj {s t : String} (h : urnEscape s = urnEscape t) : s = t := by
  have hread := unescape_urnEscape s
  rw [h, unescape_urnEscape t] at hread
  exact String.toList_inj.1 (utf8_inj hread).symm

/-! ## Identifiers -/

theorem Principal.fromVerifiedClaims_id (issuer subject : String) (claims : List (String × Finset String)) (rolesClaim : String) :
    (Principal.fromVerifiedClaims issuer subject claims rolesClaim).id =
      "urn:holos:principal:" ++ urnEscape issuer ++ "/" ++ urnEscape subject := by
  unfold Principal.fromVerifiedClaims
  generalize hp : Principal.new _ = principal
  have hid : principal.id = "urn:holos:principal:" ++ urnEscape issuer ++ "/" ++ urnEscape subject := by rw [← hp]; rfl
  clear hp
  induction claims generalizing principal with
  | nil => exact hid
  | cons claim claims ih =>
    rw [List.foldl_cons]
    apply ih
    dsimp only
    split <;> exact hid

/-- The escapes have no `/`, so the one between them tells them apart. -/
theorem Principal.fromVerifiedClaims_inj {issuer subject issuer' subject' : String} {claims claims' : List (String × Finset String)}
    {rolesClaim rolesClaim' : String}
    (h : (Principal.fromVerifiedClaims issuer subject claims rolesClaim).id =
      (Principal.fromVerifiedClaims issuer' subject' claims' rolesClaim').id) : issuer = issuer' ∧ subject = subject' := by
  rw [fromVerifiedClaims_id, fromVerifiedClaims_id] at h
  have hlist := congrArg String.toList h
  simp only [String.toList_append, List.append_assoc] at hlist
  have hrest := List.append_cancel_left hlist
  have hslash : ∀ t : String, ∀ k ∈ (urnEscape t).toList, ¬k = '/' := by
    rintro t k hk rfl
    exact absurd (urnChar_of_mem hk) (by simp [UrnChar])
  obtain ⟨hi, -, hs⟩ := @split_last Char (· = '/') _ _ _ _ _ _ rfl rfl (hslash subject) (hslash subject') hrest
  exact ⟨urnEscape_inj (String.toList_inj.1 hi), urnEscape_inj (String.toList_inj.1 hs)⟩

theorem iriChar_of_urnChar {c : Char} (h : UrnChar c) : IriChar c := by
  apply h.imp_right
  intro hm
  have hsub : ∀ c ∈ ['-', '.', '_', '~', '%'], c ∈ ['-', '.', '_', '~', ':', '/', '?', '#', '[', ']', '@', '!', '$', '&', '\'',
      '(', ')', '*', '+', ',', ';', '=', '%'] := Lib.forall_mem_of_all (by decide)
  exact hsub c hm

theorem Principal.iriChar_fromVerifiedClaims (issuer subject : String) (claims : List (String × Finset String))
    (rolesClaim : String) : ∀ c ∈ (Principal.fromVerifiedClaims issuer subject claims rolesClaim).id.toList, IriChar c := by
  have hprefix : ∀ c ∈ "urn:holos:principal:".toList, IriChar c := Lib.forall_mem_of_all (by decide)
  have hslash : ∀ c ∈ "/".toList, IriChar c := Lib.forall_mem_of_all (by decide)
  intro c hc
  rw [fromVerifiedClaims_id, String.toList_append, String.toList_append, String.toList_append] at hc
  simp only [List.mem_append] at hc
  rcases hc with ((hc | hc) | hc) | hc
  · exact hprefix c hc
  · exact iriChar_of_urnChar (urnChar_of_mem hc)
  · exact hslash c hc
  · exact iriChar_of_urnChar (urnChar_of_mem hc)

end Holos.Security
