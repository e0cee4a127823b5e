import Snix.Lib.Hex
import Snix.Lib.Text

/-!
# Form-encoded queries

Lists of names and values as they stand in the query of a URL: pairs are separated by
ampersands, and whatever could be taken for a separator is percent-encoded.

## Main definitions

- `formEncode`, `formDecode` — names and values
- `queryEncode`, `queryDecode` — lists of them

## Main results

- `queryDecode_queryEncode` — an encoded list is decoded to itself
-/

namespace Snix

/-- The bytes that stand for themselves. -/
def isFormChar (c : UInt8) : Bool :=
  (48 ≤ c && c ≤ 57) || (65 ≤ c && c ≤ 90) || (97 ≤ c && c ≤ 122) || c ∈ ascii "*-._"

/-- An uppercase hexadecimal digit. -/
def upperHexDigit (n : UInt8) : UInt8 := if n < 10 then n + 48 else n + 55

/-- The value of a hexadecimal digit of either case. -/
def anyHexValue? (c : UInt8) : Option UInt8 :=
  if 48 ≤ c && c ≤ 57 then some (c - 48)
  else if 65 ≤ c && c ≤ 70 then some (c - 55)
  else if 97 ≤ c && c ≤ 102 then some (c - 87)
  else none

def formEncodeByte (c : UInt8) : Bytes :=
  if isFormChar c then [c]
  else if c = 32 then [43]
  else [37, upperHexDigit (c >>> 4), upperHexDigit (c &&& 15)]

/-- Encodes a name or a value. -/
def formEncode (s : Bytes) : Bytes := s.flatMap formEncodeByte

/-- Decodes a name or a value. A percent sign without digits stands for itself. -/
def formDecode : Bytes → Bytes
  | [] => []
  | c :: rest =>
    if c = 37 then
      match rest with
      | d :: e :: tail =>
        match anyHexValue? d, anyHexValue? e with
        | some hi, some lo => (hi <<< 4 ||| lo) :: formDecode tail
        | _, _ => c :: formDecode (d :: e :: tail)
      | rest => c :: formDecode rest
    else (if c = 43 then 32 else c) :: formDecode rest

/-- The list as a query. -/
def queryEncode (pairs : List (Bytes × Bytes)) : Bytes :=
  [38].intercalate (pairs.map fun pair => formEncode pair.1 ++ 61 :: formEncode pair.2)

/-- A piece of a query without an equality sign is a name with an empty value. -/
def pairDecode (piece : Bytes) : Bytes × Bytes :=
  match splitOnce 61 piece with
  | some (name, value) => (formDecode name, formDecode value)
  | none => (formDecode piece, [])

/-- The list a query stands for. Empty pieces are left out. -/
def queryDecode (query : Bytes) : List (Bytes × Bytes) :=
  ((query.splitOn 38).filter (· ≠ [])).map pairDecode

theorem isFormChar_ne :
    ∀ c : UInt8, isFormChar c = true → c ≠ 37 ∧ c ≠ 38 ∧ c ≠ 43 ∧ c ≠ 61 ∧ c ≠ 63 := by
  refine forall_byte ?_
  decide +kernel

theorem anyHexValue?_nibbles (c : UInt8) :
    anyHexValue? (upperHexDigit (c >>> 4)) = some (c >>> 4) ∧
      anyHexValue? (upperHexDigit (c &&& 15)) = some (c &&& 15) ∧
      (c >>> 4) <<< 4 ||| (c &&& 15) = c := by
  revert c
  refine forall_byte ?_
  decide +kernel

theorem formDecode_formEncodeByte (c : UInt8) (rest : Bytes) :
    formDecode (formEncodeByte c ++ rest) = c :: formDecode rest := by
  unfold formEncodeByte
  by_cases hform : isFormChar c = true
  · obtain ⟨hpercent, -, hplus, -⟩ := isFormChar_ne c hform
    rw [if_pos hform, List.singleton_append, formDecode.eq_def]
    simp only [if_neg hpercent, if_neg hplus]
  rw [if_neg hform]
  by_cases hspace : c = 32
  · subst hspace
    rw [if_pos rfl]
    show formDecode (43 :: rest) = _
    rw [formDecode.eq_def]
    rfl
  · obtain ⟨hhi, hlo, hc⟩ := anyHexValue?_nibbles c
    rw [if_neg hspace]
    show formDecode (37 :: upperHexDigit (c >>> 4) :: upperHexDigit (c &&& 15) :: rest) = _
    rw [formDecode.eq_def]
    simp only [if_true, hhi, hlo, hc]

theorem formDecode_formEncode (s : Bytes) : formDecode (formEncode s) = s := by
  induction s with
  | nil => rfl
  | cons c s ih =>
    rw [formEncode, List.flatMap_cons, formDecode_formEncodeByte]
    exact congrArg (c :: ·) ih

/-- What is encoded has no separators. -/
theorem formEncode_ne {s : Bytes} {c : UInt8} (h : c ∈ formEncode s) :
    c ≠ 38 ∧ c ≠ 61 ∧ c ≠ 63 := by
  have hbyte : ∀ x : UInt8,
      (formEncodeByte x).all (fun c => c != 38 && c != 61 && c != 63) = true := by
    refine forall_byte ?_
    decide +kernel
  obtain ⟨x, -, hc⟩ := List.mem_flatMap.mp h
  have hne := List.all_eq_true.mp (hbyte x) c hc
  rwa [Bool.and_eq_true, Bool.and_eq_true, bne_iff_ne, bne_iff_ne, bne_iff_ne, and_assoc] at hne

theorem pairDecode_encode (name value : Bytes) :
    pairDecode (formEncode name ++ 61 :: formEncode value) = (name, value) := by
  have hsplit : splitOnce 61 (formEncode name ++ 61 :: formEncode value) =
      some (formEncode name, formEncode value) :=
    splitOnce_eq_some_iff.mpr ⟨rfl, fun h => (formEncode_ne h).2.1 rfl⟩
  rw [pairDecode, hsplit]
  show (formDecode (formEncode name), formDecode (formEncode value)) = _
  rw [formDecode_formEncode, formDecode_formEncode]

/-- An encoded list is decoded to itself. -/
theorem queryDecode_queryEncode (pairs : List (Bytes × Bytes)) :
    queryDecode (queryEncode pairs) = pairs := by
  cases pairs with
  | nil => rfl
  | cons pair pairs =>
    have hpieces : ∀ piece ∈ (pair :: pairs).map fun pair =>
        formEncode pair.1 ++ 61 :: formEncode pair.2, 38 ∉ piece ∧ piece ≠ [] := by
      intro piece hpiece
      obtain ⟨x, -, rfl⟩ := List.mem_map.mp hpiece
      refine ⟨fun h => ?_, List.append_ne_nil_of_right_ne_nil _ (List.cons_ne_nil _ _)⟩
      rcases List.mem_append.mp h with h | h
      · exact (formEncode_ne h).1 rfl
      · rcases List.mem_cons.mp h with h | h
        · exact absurd h (by decide)
        · exact (formEncode_ne h).1 rfl
    have hsplit := List.splitOn_intercalate 38 (fun piece hpiece => (hpieces piece hpiece).1)
      (List.cons_ne_nil _ _)
    rw [queryDecode, queryEncode, hsplit, List.filter_eq_self.mpr fun piece hpiece =>
      decide_eq_true (hpieces piece hpiece).2, List.map_map]
    calc (pair :: pairs).map (pairDecode ∘ fun pair => formEncode pair.1 ++ 61 :: formEncode pair.2)
        = (pair :: pairs).map id :=
          List.map_congr_left fun x _ => pairDecode_encode x.1 x.2
      _ = pair :: pairs := List.map_id _

end Snix
