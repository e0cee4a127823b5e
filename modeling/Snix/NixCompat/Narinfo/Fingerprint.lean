import Snix.Lib.StreamParser
import Snix.NixCompat.DerivedPath
import Snix.NixCompat.Narinfo.Basic

/-!
# Fingerprints

What is signed of a store path is a text of its path, the hash and the size of its
archive and its references.

## Main definitions

- `fingerprint` — the text

## Main results

- `fingerprint_inj` — nothing else has the same text
-/

namespace Snix

open StreamParser (joined)

-- ====================
-- Lists with separators
-- ====================

/-- The first separator splits a text in one way. -/
theorem append_cons_inj {c : UInt8} {a b x y : Bytes} (ha : c ∉ a) (hb : c ∉ b)
    (h : a ++ c :: x = b ++ c :: y) : a = b ∧ x = y := by
  have hsplit := @splitOnceOn_append c [] a ha x
  have hsplit' := @splitOnceOn_append c [] b hb y
  have h' : a ++ ([c] ++ x) = b ++ ([c] ++ y) := h
  rw [h', hsplit'] at hsplit
  cases hsplit
  exact ⟨rfl, rfl⟩

section

variable {α : Type} {w : α → Bytes} {c : UInt8}

/-- Texts without the separator are told apart. -/
theorem joined_inj (hw : Function.Injective w) (hne : ∀ x, w x ≠ []) (hc : ∀ x, c ∉ w x)
    {xs ys : List α} : joined c w xs = joined c w ys ↔ xs = ys := by
  refine ⟨fun h => ?_, fun h => by rw [h]⟩
  have hone : ∀ x y (zs : List α), joined c w [x] ≠ joined c w (y :: zs) ∨ zs = [] := by
    intro x y zs
    cases zs with
    | nil => exact .inr rfl
    | cons z zs =>
      refine .inl fun heq => hc x ?_
      have hmem : c ∈ joined c w (y :: z :: zs) :=
        List.mem_append_right _ (List.mem_append_left _ List.mem_cons_self)
      rw [← heq, joined, List.flatMap_nil, List.append_nil] at hmem
      exact hmem
  induction xs generalizing ys with
  | nil =>
    cases ys with
    | nil => rfl
    | cons y ys => exact absurd (List.append_eq_nil_iff.mp h.symm).1 (hne y)
  | cons x xs ih =>
    cases ys with
    | nil => exact absurd (List.append_eq_nil_iff.mp h).1 (hne x)
    | cons y ys =>
      cases xs with
      | nil =>
        obtain rfl := (hone x y ys).resolve_left (not_not.mpr h)
        simp only [joined, List.flatMap_nil, List.append_nil] at h
        rw [hw h]
      | cons x' xs =>
        cases ys with
        | nil =>
          have hnil := (hone y x (x' :: xs)).resolve_left (not_not.mpr h.symm)
          exact absurd hnil (List.cons_ne_nil _ _)
        | cons y' ys =>
          have hsplit : w x ++ c :: joined c w (x' :: xs) = w y ++ c :: joined c w (y' :: ys) := h
          obtain ⟨hx, hrest⟩ := append_cons_inj (hc x) (hc y) hsplit
          rw [hw hx, ih hrest]

end

-- ====================
-- The fingerprint
-- ====================

/-- The text that is signed. -/
def fingerprint (storePath : StorePath) (narSha256 : ByteArr 32) (narSize : ℕ)
    (references : List StorePath) : Bytes :=
  ascii "1;" ++ (storePath.toAbsolutePath ++ 59 :: (ascii "sha256:" ++
    (Nixbase32.encode narSha256.val ++ 59 :: (decimal narSize ++
      59 :: joined 44 StorePath.toAbsolutePath references))))

def NarInfo.fingerprint (n : NarInfo) : Bytes :=
  Snix.fingerprint n.storePath n.narHash n.narSize n.references

namespace StorePath

theorem toAbsolutePath_injective : Function.Injective toAbsolutePath := by
  intro p q h
  have hp := fromAbsolutePath_toAbsolutePath p
  rw [h, fromAbsolutePath_toAbsolutePath q] at hp
  exact (Except.ok.inj hp).symm

theorem toAbsolutePath_ne_nil (p : StorePath) : p.toAbsolutePath ≠ [] := by
  intro h
  rw [toAbsolutePath, List.append_eq_nil_iff] at h
  exact absurd h.1 (by decide)

/-- The separators are not in a path. -/
theorem notMem_toAbsolutePath {c : UInt8} (hname : isNameChar c = false) (hslash : c ≠ 47)
    (p : StorePath) : c ∉ p.toAbsolutePath := by
  intro h
  rcases DerivedPath.mem_toAbsolutePath h with hc | hc
  · rw [hname] at hc
    cases hc
  · exact hslash hc

end StorePath

theorem notMem_decimal (n : ℕ) : 59 ∉ decimal n := fun h => absurd (decimal_range h).2 (by decide)

/-- A fingerprint is that of one path, hash, size and list of references. -/
theorem fingerprint_inj {p q : StorePath} {sha sha' : ByteArr 32} {size size' : ℕ}
    {references references' : List StorePath} :
    fingerprint p sha size references = fingerprint q sha' size' references' ↔
      p = q ∧ sha = sha' ∧ size = size' ∧ references = references' := by
  refine ⟨fun h => ?_, fun ⟨hp, hsha, hsize, hrefs⟩ => by rw [hp, hsha, hsize, hrefs]⟩
  have hsemi := StorePath.notMem_toAbsolutePath (c := 59) (by decide) (by decide)
  have hpath := List.append_cancel_left h
  obtain ⟨hp, hrest⟩ := append_cons_inj (hsemi p) (hsemi q) hpath
  have hlen : (Nixbase32.encode sha.val).length = (Nixbase32.encode sha'.val).length := by
    rw [Nixbase32.length_encode, Nixbase32.length_encode, sha.property, sha'.property]
  obtain ⟨hsha, hrest'⟩ := List.append_inj (List.append_cancel_left hrest) hlen
  obtain ⟨hsize, hrefs⟩ := append_cons_inj (notMem_decimal size) (notMem_decimal size')
    (List.cons.inj hrest').2
  refine ⟨StorePath.toAbsolutePath_injective hp, ?_, ?_, ?_⟩
  · have hdecode := Nixbase32.decode_encode sha.val
    rw [hsha, Nixbase32.decode_encode sha'.val] at hdecode
    exact Subtype.ext (Except.ok.inj hdecode).symm
  · have hdigits := digitsFrom_decimal size
    rw [hsize, digitsFrom_decimal size'] at hdigits
    exact (Option.some.inj hdigits).symm
  · exact (joined_inj StorePath.toAbsolutePath_injective StorePath.toAbsolutePath_ne_nil
      (StorePath.notMem_toAbsolutePath (by decide) (by decide))).mp hrefs

end Snix
