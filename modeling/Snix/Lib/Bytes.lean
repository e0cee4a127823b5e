import Mathlib.Data.List.Basic
import Mathlib.Data.Vector.Basic

/-!
# Byte strings

Byte strings are lists of `UInt8`. This module fixes the abbreviations the rest
of the development uses, reads ASCII literals as byte strings, and decides
well-formedness of UTF-8.

## Main definitions

- `Bytes` — a byte string
- `ByteArr` — a byte string of fixed length
- `ascii` — the bytes of an ASCII literal
- `utf8Valid` — well-formed UTF-8, by the table of well-formed byte sequences
- `Utf8` — a byte string together with the proof that it is UTF-8
-/

namespace Snix

/-- A byte string. -/
abbrev Bytes := List UInt8

/-- A byte string of exactly `n` bytes. -/
abbrev ByteArr (n : ℕ) := List.Vector UInt8 n

/-- The bytes of an ASCII literal. -/
def ascii (s : String) : Bytes :=
  s.toList.map fun c => UInt8.ofNat c.toNat

/-- A UTF-8 continuation byte. -/
def isCont (b : UInt8) : Bool := 0x80 ≤ b && b ≤ 0xBF

/-- Well-formed UTF-8: one branch per row of the table of well-formed byte
    sequences, which excludes overlong forms, surrogates and code points past
    `U+10FFFF`. -/
def utf8Valid : Bytes → Bool
  | [] => true
  | b :: rest =>
    if b ≤ 0x7F then utf8Valid rest
    else if 0xC2 ≤ b && b ≤ 0xDF then
      match rest with
      | c :: rest => isCont c && utf8Valid rest
      | _ => false
    else if 0xE0 ≤ b && b ≤ 0xEF then
      match rest with
      | c :: d :: rest =>
        (if b = 0xE0 then 0xA0 ≤ c && c ≤ 0xBF
          else if b = 0xED then 0x80 ≤ c && c ≤ 0x9F
          else isCont c) && isCont d && utf8Valid rest
      | _ => false
    else if 0xF0 ≤ b && b ≤ 0xF4 then
      match rest with
      | c :: d :: e :: rest =>
        (if b = 0xF0 then 0x90 ≤ c && c ≤ 0xBF
          else if b = 0xF4 then 0x80 ≤ c && c ≤ 0x8F
          else isCont c) && isCont d && isCont e && utf8Valid rest
      | _ => false
    else false

/-- A string: a byte string that is well-formed UTF-8. -/
abbrev Utf8 := { b : Bytes // utf8Valid b = true }

/-- Checked conversion of a byte string into a string. -/
def Utf8.ofBytes? (b : Bytes) : Option Utf8 :=
  if h : utf8Valid b = true then some ⟨b, h⟩ else none

@[simp] theorem Utf8.ofBytes?_val (s : Utf8) : Utf8.ofBytes? s.val = some s := by
  simp [Utf8.ofBytes?, s.property]

/-- Plain ASCII is well-formed UTF-8. -/
theorem utf8Valid_of_ascii {b : Bytes} (h : ∀ c ∈ b, c ≤ 0x7F) : utf8Valid b = true := by
  induction b with
  | nil => rfl
  | cons c rest ih =>
    have hc : c ≤ 0x7F := h c (by simp)
    have hrest : utf8Valid rest = true := ih fun d hd => h d (by simp [hd])
    unfold utf8Valid
    simp [hc, hrest]

/-- Strings are put together to strings. By induction on the characters of the first. -/
theorem utf8Valid_append {x y : Bytes} (hx : utf8Valid x = true) (hy : utf8Valid y = true) :
    utf8Valid (x ++ y) = true := by
  induction x using utf8Valid.induct with
  | case1 => exact hy
  | case2 b rest hb ih =>
    unfold utf8Valid at hx ⊢
    simp only [List.cons_append, if_pos hb] at hx ⊢
    exact ih hx
  | case3 b hb htwo c rest ih =>
    unfold utf8Valid at hx ⊢
    simp only [List.cons_append, if_neg hb, if_pos htwo] at hx ⊢
    rw [Bool.and_eq_true] at hx ⊢
    exact ⟨hx.1, ih hx.2⟩
  | case5 b hb htwo hthree c d rest ih =>
    unfold utf8Valid at hx ⊢
    simp only [List.cons_append, if_neg hb, if_neg htwo, if_pos hthree] at hx ⊢
    rw [Bool.and_eq_true] at hx ⊢
    exact ⟨hx.1, ih hx.2⟩
  | case7 b hb htwo hthree hfour c d e rest ih =>
    unfold utf8Valid at hx ⊢
    simp only [List.cons_append, if_neg hb, if_neg htwo, if_neg hthree, if_pos hfour] at hx ⊢
    rw [Bool.and_eq_true] at hx ⊢
    exact ⟨hx.1, ih hx.2⟩
  | case4 b rest hb htwo hcut =>
    unfold utf8Valid at hx
    simp only [if_neg hb, if_pos htwo] at hx
    cases hx
  | case6 b rest hb htwo hthree hcut =>
    unfold utf8Valid at hx
    simp only [if_neg hb, if_neg htwo, if_pos hthree] at hx
    cases hx
  | case8 b rest hb htwo hthree hfour hcut =>
    unfold utf8Valid at hx
    simp only [if_neg hb, if_neg htwo, if_neg hthree, if_pos hfour] at hx
    cases hx
  | case9 b rest hb htwo hthree hfour =>
    unfold utf8Valid at hx
    simp only [if_neg hb, if_neg htwo, if_neg hthree, if_neg hfour] at hx
    cases hx

/-- Two ways to cut a list at different places. -/
theorem exists_append_of_length_le {α : Type*} {a b x y : List α} (h : a ++ x = b ++ y)
    (hle : b.length ≤ a.length) : ∃ d, a = b ++ d ∧ y = d ++ x := by
  have hprefix : b <+: a ++ x := h ▸ List.prefix_append b y
  obtain ⟨d, rfl⟩ := List.prefix_of_prefix_length_le hprefix (List.prefix_append a x) hle
  refine ⟨d, rfl, ?_⟩
  rw [List.append_assoc] at h
  exact (List.append_cancel_left h).symm

end Snix
