import Snix.Lib.Base64
import Snix.Lib.Text

/-!
# Signatures

Signatures of store paths as they stand in text formats: the name of a key, a colon,
and 64 bytes in base64. Which characters are alphanumeric is a table of Unicode, and a
parameter here.

## Main definitions

- `Signature` — a name and 64 bytes
- `Signature.parse`, `Signature.display` — reading and printing

## Main results

- `Signature.parse_display_iff` — which signatures are read back
-/

namespace Snix

/-- The encodings of the characters of a string. -/
def utf8Chars : Bytes → List Bytes
  | [] => []
  | b :: rest =>
    match utf8Chars rest with
    | [] => [[b]]
    | c :: cs => if 0x7F < b ∧ c.head?.any isCont = true then (b :: c) :: cs else [b] :: c :: cs

/-- An ASCII byte is a character. -/
theorem singleton_mem_utf8Chars {s : Bytes} {b : UInt8} (hb : b ≤ 0x7F) (h : b ∈ s) :
    [b] ∈ utf8Chars s := by
  have hcont : isCont b = false := by
    have hlt : ¬ (0x80 ≤ b) := by
      intro hle
      exact absurd (UInt8.le_trans hle hb) (by decide)
    simp only [isCont, hlt, decide_false, Bool.false_and]
  induction s with
  | nil => cases h
  | cons a rest ih =>
    have htail : b ∈ rest → [b] ∈ utf8Chars (a :: rest) := by
      intro hmem
      have hchar := ih hmem
      rw [utf8Chars]
      cases hrest : utf8Chars rest with
      | nil =>
        rw [hrest] at hchar
        cases hchar
      | cons c cs =>
        rw [hrest] at hchar
        dsimp only
        split
        case isTrue hmerge =>
          rcases List.mem_cons.mp hchar with rfl | hcs
          · rw [List.head?_cons, Option.any_some, hcont] at hmerge
            cases hmerge.2
          · exact List.mem_cons_of_mem _ hcs
        case isFalse => exact List.mem_cons_of_mem _ hchar
    rcases List.mem_cons.mp h with rfl | hmem
    · rw [utf8Chars]
      cases hrest : utf8Chars rest with
      | nil => exact List.mem_cons_self
      | cons c cs =>
        have hnot : ¬ (0x7F < b ∧ c.head?.any isCont = true) := fun hand =>
          absurd (UInt8.lt_of_lt_of_le hand.1 hb) (UInt8.lt_irrefl _)
        dsimp only
        rw [if_neg hnot]
        exact List.mem_cons_self
    · exact htail hmem

def SIGNATURE_LENGTH : ℕ := 64

/-- A signature by the key with this name. -/
structure Signature where
  name : Bytes
  bytes : ByteArr SIGNATURE_LENGTH
  deriving DecidableEq

namespace Signature

inductive Error where
  | invalidName (name : Bytes)
  | missingSeparator
  | invalidSignatureLen (len : ℕ)
  | decodeError (input : Bytes)
  /-- The program panicked: the base64 had another length than 64 bytes. -/
  | unreachable
  deriving DecidableEq

section

variable (isAlphanumeric : Bytes → Bool)

/-- The names that are accepted. -/
def ValidName (name : Bytes) : Prop :=
  name ≠ [] ∧ (utf8Chars name).all (fun c => isAlphanumeric c || c = [45] || c = [46]) = true

instance (name : Bytes) : Decidable (ValidName isAlphanumeric name) := instDecidableAnd

def parse (input : Bytes) : Except Error Signature :=
  match splitOnce 58 input with
  | none => .error .missingSeparator
  | some (name, bytes64) =>
    if ¬ ValidName isAlphanumeric name then .error (.invalidName name)
    else if bytes64.length ≠ (SIGNATURE_LENGTH + 2) / 3 * 4 then
      .error (.invalidSignatureLen bytes64.length)
    else match base64Decode bytes64 with
      | none => .error (.decodeError input)
      | some bytes =>
        if h : bytes.length = SIGNATURE_LENGTH then .ok ⟨name, bytes, h⟩ else .error .unreachable

end

def display (sig : Signature) : Bytes := sig.name ++ 58 :: base64Encode sig.bytes.val

variable {isAlphanumeric : Bytes → Bool}

/-- What is accepted starts with the name. -/
theorem parse_eq_ok {input : Bytes} {sig : Signature} (h : parse isAlphanumeric input = .ok sig) :
    ValidName isAlphanumeric sig.name ∧ ∀ c ∈ sig.name, c ∈ input := by
  unfold parse at h
  cases hsplit : splitOnce 58 input with
  | none =>
    rw [hsplit] at h
    cases h
  | some parts =>
    obtain ⟨name, bytes64⟩ := parts
    obtain ⟨rfl, -⟩ := splitOnce_eq_some_iff.mp hsplit
    rw [hsplit] at h
    dsimp only at h
    split_ifs at h with hname hlen
    split at h
    case h_1 => cases h
    case h_2 bytes hdecode =>
      split_ifs at h with hbytes
      cases h
      exact ⟨hname, fun c hc => List.mem_append_left _ hc⟩

theorem not_mem_of_validName {name : Bytes} (hcolon : isAlphanumeric [58] = false)
    (h : ValidName isAlphanumeric name) : 58 ∉ name := by
  intro hmem
  have hchar := List.all_eq_true.mp h.2 [58] (singleton_mem_utf8Chars (by decide) hmem)
  rw [hcolon] at hchar
  exact absurd hchar (by decide)

/-- A printed signature is read back where its name is one that is accepted. -/
theorem parse_display (hcolon : isAlphanumeric [58] = false) {sig : Signature}
    (h : ValidName isAlphanumeric sig.name) : parse isAlphanumeric sig.display = .ok sig := by
  have hsplit : splitOnce 58 sig.display = some (sig.name, base64Encode sig.bytes.val) :=
    splitOnce_eq_some_iff.mpr ⟨rfl, not_mem_of_validName hcolon h⟩
  have hlen : sig.bytes.val.length = SIGNATURE_LENGTH := sig.bytes.property
  have hencoded : (base64Encode sig.bytes.val).length = (SIGNATURE_LENGTH + 2) / 3 * 4 := by
    rw [length_base64Encode, hlen]
  rw [parse, hsplit]
  dsimp only
  rw [if_neg (not_not_intro h), if_neg (not_not_intro hencoded), base64Decode_base64Encode]
  dsimp only
  rw [dif_pos hlen]
  rfl

/-- A printed signature with another name is rejected: it is cut inside of the name, and
    too much is left behind the cut. -/
theorem parse_display_error {sig : Signature} (h : ¬ ValidName isAlphanumeric sig.name) :
    ∃ e, parse isAlphanumeric sig.display = .error e := by
  cases hparse : parse isAlphanumeric sig.display with
  | error e => exact ⟨e, rfl⟩
  | ok sig' =>
    unfold parse at hparse
    cases hsplit : splitOnce 58 sig.display with
    | none =>
      rw [hsplit] at hparse
      cases hparse
    | some parts =>
      obtain ⟨name, bytes64⟩ := parts
      rw [hsplit] at hparse
      dsimp only at hparse
      split_ifs at hparse with hname hlen
      obtain ⟨hdisplay, -⟩ := splitOnce_eq_some_iff.mp hsplit
      have hencoded : (base64Encode sig.bytes.val).length = (SIGNATURE_LENGTH + 2) / 3 * 4 := by
        have hbytes : sig.bytes.val.length = SIGNATURE_LENGTH := sig.bytes.property
        rw [length_base64Encode, hbytes]
      have htotal := congrArg List.length hdisplay
      rw [display, List.length_append, List.length_append, List.length_cons, List.length_cons,
        hencoded, not_not.mp hlen] at htotal
      rw [display] at hdisplay
      rw [(List.append_inj hdisplay (by omega)).1] at h
      exact absurd hname h

theorem parse_display_iff (hcolon : isAlphanumeric [58] = false) {sig : Signature} :
    parse isAlphanumeric sig.display = .ok sig ↔ ValidName isAlphanumeric sig.name :=
  ⟨fun h => (parse_eq_ok h).1, parse_display hcolon⟩

end Signature

end Snix
