import Snix.Lib.StreamParser
import Snix.NixCompat.StorePath

/-!
# ATerm building blocks

The ATerm format Nix stores derivations in is made of quoted fields, lists in
brackets and tuples in parentheses. This module has the escaping of a field,
the parsers of fields and lists, and what they say about each other.

## Main definitions

- `writeEscaped`, `writeField` — the writers
- `parseBytesField`, `parseStringField`, `parseStringList` — the parsers
- `Unescapes` — the text of a field, and the value it stands for

## Main results

- `parseBytesField_of_unescapes`, `parseStringField_of_unescapes` — a field is
  read back as the value its text stands for
- `weighs_parseBytesField`, `weighs_parseStringField` — the control bytes of the
  text of a field are determined by its value
-/

namespace Snix.Aterm

open StreamParser

/-- The bytes that are escaped: `\\`, `\n`, `\r`, `\t` and `"`. -/
def PATTERNS : Bytes := [92, 10, 13, 9, 34]

/-- What they are replaced by. -/
def REPLACEMENTS : List Bytes := [[92, 92], [92, 110], [92, 114], [92, 116], [92, 34]]

/-- Writes a byte string in escaped form, without the quotes. -/
def writeEscaped (s : Bytes) : Bytes :=
  s.flatMap fun c => ((PATTERNS.zip REPLACEMENTS).lookup c).getD [c]

def PAREN_OPEN : UInt8 := 40
def PAREN_CLOSE : UInt8 := 41
def BRACKET_OPEN : UInt8 := 91
def BRACKET_CLOSE : UInt8 := 93
def COMMA : UInt8 := 44
def QUOTE : UInt8 := 34

/-- Writes a quoted field. Escaping is skipped for text that is known to need
    none. -/
def writeField (s : Bytes) (escape : Bool) : Bytes :=
  QUOTE :: ((if escape then writeEscaped s else s) ++ [QUOTE])

/-- The letter after a backslash. -/
def parseEscape : Parser Error Bytes :=
  alt [value [92] (char 92), value [10] (char 110), value [9] (char 116),
    value [13] (char 114), value [34] (char 34)]

/-- Reads the text of a field and undoes the escaping. -/
def parseEscapedBytes : Parser Error Bytes :=
  escapedTransform (isNot [34, 92]) 92 parseEscape

/-- A quoted field, as bytes. -/
def parseBytesField : Parser Error Bytes :=
  delimited (char QUOTE) (map (fun o => o.getD []) (opt parseEscapedBytes)) (char QUOTE)

/-- A quoted field that must be UTF-8. -/
def parseStringField : Parser Error Utf8 :=
  delimited (char QUOTE)
    (mapRes Utf8.ofBytes? (map (fun o => o.getD []) (opt parseEscapedBytes))) (char QUOTE)

/-- A bracketed list of quoted UTF-8 fields. -/
def parseStringList : Parser Error (List Utf8) :=
  delimited (char BRACKET_OPEN) (separatedList0 (char COMMA) parseStringField)
    (char BRACKET_CLOSE)

-- ====================
-- The text of a field
-- ====================

/-- The letter of an escape and the byte it stands for. -/
def escapes : List (UInt8 × UInt8) := [(92, 92), (110, 10), (116, 9), (114, 13), (34, 34)]

/-- `Unescapes raw v`: the text `raw` of a field stands for the value `v`. -/
inductive Unescapes : Bytes → Bytes → Prop where
  | nil : Unescapes [] []
  | plain {c : UInt8} {raw v : Bytes} :
      c ≠ 34 → c ≠ 92 → Unescapes raw v → Unescapes (c :: raw) (c :: v)
  | escape {c e : UInt8} {raw v : Bytes} :
      (c, e) ∈ escapes → Unescapes raw v → Unescapes (92 :: c :: raw) (e :: v)

theorem Unescapes.append {raw v raw' v' : Bytes} (h : Unescapes raw v)
    (h' : Unescapes raw' v') : Unescapes (raw ++ raw') (v ++ v') := by
  induction h with
  | nil => exact h'
  | plain h₁ h₂ _ ih => exact .plain h₁ h₂ ih
  | escape hm _ ih => exact .escape hm ih

/-- Text without quotes and backslashes stands for itself. -/
theorem unescapes_self {s : Bytes} (h : ∀ c ∈ s, c ≠ 34 ∧ c ≠ 92) : Unescapes s s := by
  induction s with
  | nil => exact .nil
  | cons c s ih =>
    obtain ⟨h₁, h₂⟩ := h c (by simp)
    exact .plain h₁ h₂ (ih fun d hd => h d (by simp [hd]))

theorem ne_of_isPlain {c : UInt8} (h : isPlain c = true) : c ≠ 34 ∧ c ≠ 92 := by
  simp only [isPlain, Bool.and_eq_true, decide_eq_true_eq] at h
  exact ⟨h.1.2, h.2⟩

/-- The escaped form of a value stands for it. -/
theorem unescapes_writeEscaped (s : Bytes) : Unescapes (writeEscaped s) s := by
  induction s with
  | nil => exact .nil
  | cons c s ih =>
    have hc : Unescapes (((PATTERNS.zip REPLACEMENTS).lookup c).getD [c]) [c] := by
      by_cases hm : c ∈ PATTERNS
      · have hm : c = 92 ∨ c = 10 ∨ c = 13 ∨ c = 9 ∨ c = 34 := by simpa [PATTERNS] using hm
        rcases hm with rfl | rfl | rfl | rfl | rfl
        all_goals exact .escape (by decide) .nil
      · have hm : ¬(c = 92 ∨ c = 10 ∨ c = 13 ∨ c = 9 ∨ c = 34) := by
          simpa [PATTERNS] using hm
        simp only [not_or] at hm
        obtain ⟨h92, h10, h13, h9, h34⟩ := hm
        have hnone : (PATTERNS.zip REPLACEMENTS).lookup c = none := by
          simp [PATTERNS, REPLACEMENTS, List.lookup_cons, beq_eq_false_iff_ne.mpr h92,
            beq_eq_false_iff_ne.mpr h10, beq_eq_false_iff_ne.mpr h13,
            beq_eq_false_iff_ne.mpr h9, beq_eq_false_iff_ne.mpr h34]
        rw [hnone]
        exact .plain h34 h92 .nil
    exact hc.append ih

/-- Splits off the text before the first quote or backslash. -/
theorem Unescapes.split {raw v : Bytes} (h : Unescapes raw v) :
    ∃ v', v = raw.takeWhile (notIn [34, 92]) ++ v' ∧
      Unescapes (raw.dropWhile (notIn [34, 92])) v' := by
  induction h with
  | nil => exact ⟨[], rfl, .nil⟩
  | @plain c raw v h₁ h₂ h ih =>
    obtain ⟨v', rfl, hv'⟩ := ih
    have hc : notIn [34, 92] c = true := by simp [notIn, h₁, h₂]
    exact ⟨v', by simp [hc], by simpa [hc] using hv'⟩
  | @escape c e raw v hm h ih =>
    have h92 : notIn [34, 92] 92 = false := rfl
    exact ⟨e :: v, by simp [h92], by simpa [h92] using .escape hm h⟩

/-- Every escape letter is read as the byte it stands for. -/
theorem parseEscape_of_mem {c e : UInt8} (h : (c, e) ∈ escapes) (rest : Bytes) :
    parseEscape (c :: rest) = .ok (rest, [e]) := by
  simp only [escapes, List.mem_cons, Prod.mk.injEq, List.not_mem_nil, or_false] at h
  rcases h with ⟨rfl, rfl⟩ | ⟨rfl, rfl⟩ | ⟨rfl, rfl⟩ | ⟨rfl, rfl⟩ | ⟨rfl, rfl⟩
  all_goals simp [parseEscape, alt, value, andThen, char, success]

/-- An escape that is read is one of the five. -/
theorem mem_escapes_of_parseEscape {i rest v : Bytes} (h : parseEscape i = .ok (rest, v)) :
    ∃ c e, (c, e) ∈ escapes ∧ i = c :: rest ∧ v = [e] := by
  obtain ⟨p, hp, h⟩ := exists_mem_of_alt_eq_ok h
  simp only [List.mem_cons, List.not_mem_nil, or_false] at hp
  rcases hp with rfl | rfl | rfl | rfl | rfl
  all_goals
    obtain ⟨hi, hv⟩ := value_char_eq_ok.mp h
    exact ⟨_, _, by decide, hi, hv⟩

/-- The loop reads the text of a field up to the closing quote. -/
theorem escapedTransformLoop_of_unescapes (rest : Bytes) :
    ∀ (fuel : ℕ) {raw v : Bytes} (res : Bytes), Unescapes raw v → raw.length < fuel →
      escapedTransformLoop (isNot [34, 92]) 92 parseEscape fuel res (raw ++ 34 :: rest) =
        .ok (34 :: rest, res ++ v) := by
  intro fuel
  induction fuel with
  | zero => intro raw v res _ h; omega
  | succ fuel ih =>
    intro raw v res h hlen
    cases h with
    | nil => simp [escapedTransformLoop, isNot_of_stop (show notIn [34, 92] 34 = false from rfl)]
    | @plain c raw v h₁ h₂ h =>
      -- A maximal run of plain text is read at once.
      have hc : notIn [34, 92] c = true := by simp [notIn, h₁, h₂]
      obtain ⟨v', rfl, hun⟩ := h.split
      have hlt : (raw.dropWhile (notIn [34, 92])).length < fuel := by
        have := (List.dropWhile_suffix (notIn [34, 92]) (l := raw)).length_le
        simp only [List.length_cons] at hlen
        omega
      have hrest := ih (res ++ c :: raw.takeWhile (notIn [34, 92])) hun hlt
      have hrun : (isNot [34, 92] : Parser Error Bytes) (c :: raw ++ 34 :: rest) = _ :=
        isNot_of_run hc (show notIn [34, 92] 34 = false from rfl)
      simp only [List.cons_append] at hrun ⊢
      simp [escapedTransformLoop, hrun, hrest]
    | @escape c e raw v hm h =>
      have hlt : raw.length < fuel := by simp at hlen; omega
      have hrest := ih (res ++ [e]) h hlt
      simp [escapedTransformLoop, isNot_of_stop (show notIn [34, 92] 92 = false from rfl),
        parseEscape_of_mem hm, hrest]

/-- What the loop reads is the text of the value it returns. -/
theorem unescapes_of_escapedTransformLoop (rest : Bytes) :
    ∀ (fuel : ℕ) {i res out : Bytes},
      escapedTransformLoop (isNot [34, 92]) 92 parseEscape fuel res i = .ok (rest, out) →
      ∃ raw v, i = raw ++ rest ∧ out = res ++ v ∧ Unescapes raw v := by
  intro fuel
  induction fuel with
  | zero => intro i res out h; cases h
  | succ fuel ih =>
    intro i res out h
    cases i with
    | nil => cases h
    | cons c i =>
      rw [escapedTransformLoop] at h
      split at h
      · next i₁ o hrun =>
        split at h
        · cases h
        · obtain ⟨hi, hplain⟩ := isNot_eq_ok hrun
          obtain ⟨raw, v, rfl, rfl, hun⟩ := ih h
          refine ⟨o ++ raw, o ++ v, by simp [hi], by simp, ?_⟩
          refine (unescapes_self fun d hd => ?_).append hun
          simpa [notIn] using hplain d hd
      · split at h
        · next hctl =>
          split at h
          · cases h
          · split at h
            · next i₁ o hesc =>
              split at h
              · cases h
              · obtain ⟨d, e, hm, rfl, rfl⟩ := mem_escapes_of_parseEscape hesc
                obtain ⟨raw, v, rfl, rfl, hun⟩ := ih h
                exact ⟨92 :: d :: raw, e :: v, by simp [hctl], by simp, .escape hm hun⟩
            · cases h
        · cases h
          exact ⟨[], [], rfl, by simp, .nil⟩
      · cases h

/-- The text of a field is read back as the value it stands for. -/
theorem parseEscapedBytes_of_unescapes {raw v : Bytes} (h : Unescapes raw v) (rest : Bytes) :
    parseEscapedBytes (raw ++ 34 :: rest) = .ok (34 :: rest, v) := by
  have hloop := escapedTransformLoop_of_unescapes rest (raw.length + rest.length + 2) [] h
    (by omega)
  simpa [parseEscapedBytes, escapedTransform, Nat.add_assoc] using hloop

theorem optEscapedBytes_of_unescapes {raw v : Bytes} (h : Unescapes raw v) (rest : Bytes) :
    map (fun o => o.getD []) (opt parseEscapedBytes) (raw ++ 34 :: rest) =
      .ok (34 :: rest, v) := by
  simp [map, andThen, opt, parseEscapedBytes_of_unescapes h, success]

/-- A field is read back as the value its text stands for. -/
theorem parseBytesField_of_unescapes {raw v : Bytes} (h : Unescapes raw v) (rest : Bytes) :
    parseBytesField (QUOTE :: (raw ++ [QUOTE]) ++ rest) = .ok (rest, v) :=
  delimited_char_ok (optEscapedBytes_of_unescapes h rest)

theorem parseStringField_of_unescapes {raw : Bytes} {v : Utf8} (h : Unescapes raw v.val)
    (rest : Bytes) : parseStringField (QUOTE :: (raw ++ [QUOTE]) ++ rest) = .ok (rest, v) := by
  have hopt := optEscapedBytes_of_unescapes h rest
  have hres : mapRes Utf8.ofBytes? (map (fun o => o.getD []) (opt parseEscapedBytes))
      (raw ++ QUOTE :: rest) = .ok (QUOTE :: rest, v) := by
    simp [mapRes, hopt, QUOTE]
  exact delimited_char_ok hres

/-- A field that was written with escaping is read back. -/
theorem parseStringField_writeField (v : Utf8) (rest : Bytes) :
    parseStringField (writeField v.val true ++ rest) = .ok (rest, v) :=
  parseStringField_of_unescapes (unescapes_writeEscaped v.val) rest

/-- A field that was written without escaping is read back if it needs none. -/
theorem parseStringField_writeField_false {v : Utf8} (h : ∀ c ∈ v.val, c ≠ 34 ∧ c ≠ 92)
    (rest : Bytes) : parseStringField (writeField v.val false ++ rest) = .ok (rest, v) :=
  parseStringField_of_unescapes (unescapes_self h) rest

/-- A bracketed list of written fields is read back. -/
theorem parseStringList_of_fields {w : Utf8 → Bytes} {vs : List Utf8}
    (h : ∀ v ∈ vs, ∀ r, parseStringField (w v ++ r) = .ok (r, v)) (rest : Bytes) :
    parseStringList (BRACKET_OPEN :: (joined COMMA w vs ++ [BRACKET_CLOSE]) ++ rest) =
      .ok (rest, vs) := by
  have hend : (char COMMA : Parser Error UInt8) (BRACKET_CLOSE :: rest) =
      .error (.error ⟨BRACKET_CLOSE :: rest, .char⟩) := char_cons_ne (by decide)
  have hnone : parseStringField (BRACKET_CLOSE :: rest) =
      .error (.error ⟨BRACKET_CLOSE :: rest, .char⟩) := by
    rfl
  exact delimited_char_ok (separatedList0_of_elems (fun r => char_cons COMMA) hend hnone h)

-- ====================
-- Weights
-- ====================

/-- Backslashes and line and tabulator controls, the bytes an escaped text has as
    many of as its value determines. -/
def textWeight (s : Bytes) : ℕ :=
  (s.map fun c => if c = 92 ∨ c = 10 ∨ c = 9 ∨ c = 13 then 1 else 0).sum

/-- The weight of any text that stands for a value. -/
def valueWeight (s : Bytes) : ℕ :=
  (s.map fun c => if c = 92 then 2 else if c = 34 ∨ c = 10 ∨ c = 9 ∨ c = 13 then 1 else 0).sum

@[simp] theorem textWeight_append (s t : Bytes) :
    textWeight (s ++ t) = textWeight s + textWeight t := by
  simp [textWeight]

/-- All texts of a value have the same weight. -/
theorem textWeight_of_unescapes {raw v : Bytes} (h : Unescapes raw v) :
    textWeight raw = valueWeight v := by
  induction h with
  | nil => rfl
  | @plain c raw v h₁ h₂ _ ih =>
    simp only [textWeight, valueWeight, List.map_cons, List.sum_cons] at ih ⊢
    simp [h₁, h₂, ih]
  | @escape c e raw v hm _ ih =>
    simp only [textWeight, valueWeight, List.map_cons, List.sum_cons] at ih ⊢
    simp only [escapes, List.mem_cons, Prod.mk.injEq, List.not_mem_nil, or_false] at hm
    rcases hm with ⟨rfl, rfl⟩ | ⟨rfl, rfl⟩ | ⟨rfl, rfl⟩ | ⟨rfl, rfl⟩ | ⟨rfl, rfl⟩
    all_goals
      simp only [ih]
      simp
      try omega

/-- Unescaped text weighs at most what its value would, and weighs the same only
    if it has no quotes and backslashes. -/
theorem textWeight_le_valueWeight (s : Bytes) : textWeight s ≤ valueWeight s := by
  refine List.sum_le_sum fun c _ => ?_
  split <;> split <;> simp_all

theorem ne_of_textWeight_eq {s : Bytes} (h : textWeight s = valueWeight s) :
    ∀ c ∈ s, c ≠ 34 ∧ c ≠ 92 := by
  induction s with
  | nil => simp
  | cons c s ih =>
    have hle := textWeight_le_valueWeight s
    simp only [textWeight, valueWeight, List.map_cons, List.sum_cons] at h hle ih
    have hc : c ≠ 34 ∧ c ≠ 92 := by
      refine ⟨?_, ?_⟩
      · rintro rfl
        simp at h
        omega
      · rintro rfl
        simp at h
        omega
    refine List.forall_mem_cons.mpr ⟨hc, ih ?_⟩
    simp only [hc.1, hc.2, false_or, if_false] at h
    omega

theorem textWeight_cons_eq {c : UInt8} (h : c ≠ 92 ∧ c ≠ 10 ∧ c ≠ 9 ∧ c ≠ 13) (i : Bytes) :
    textWeight (c :: i) = textWeight i := by
  simp [textWeight, h]

theorem textWeight_joined {α : Type} (w : α → Bytes) (xs : List α) :
    textWeight (joined COMMA w xs) = (xs.map fun x => textWeight (w x)).sum := by
  have hrest : ∀ ys : List α, textWeight (ys.flatMap fun y => COMMA :: w y) =
      (ys.map fun x => textWeight (w x)).sum := by
    intro ys
    induction ys with
    | nil => rfl
    | cons y ys ih =>
      rw [List.flatMap_cons, textWeight_append, textWeight_cons_eq (by decide), ih]
      simp
  cases xs with
  | nil => rfl
  | cons x xs => simp [joined, hrest]

theorem weighs_optEscapedBytes :
    Weighs textWeight (map (fun o => o.getD []) (opt parseEscapedBytes)) valueWeight := by
  intro i rest v h
  obtain ⟨i₁, o, h₁, h₂⟩ := andThen_eq_ok.mp h
  obtain ⟨rfl, rfl⟩ : i₁ = rest ∧ o.getD [] = v := by simpa [success] using h₂
  unfold opt at h₁
  split at h₁
  · next i₂ s hs =>
    cases h₁
    obtain ⟨raw, v, rfl, rfl, hun⟩ := unescapes_of_escapedTransformLoop _ _ hs
    simp [textWeight_of_unescapes hun]
  · -- The text of the field is not read at all.
    cases h₁
    simp [valueWeight]
  · cases h₁

theorem weighs_parseBytesField : Weighs textWeight parseBytesField valueWeight :=
  .delimited (.char (textWeight_cons_eq (by decide))) weighs_optEscapedBytes
    (.char (textWeight_cons_eq (by decide)))

theorem weighs_parseStringField :
    Weighs textWeight parseStringField fun v => valueWeight v.val := by
  refine .delimited (.char (textWeight_cons_eq (by decide))) ?_
    (.char (textWeight_cons_eq (by decide)))
  refine weighs_optEscapedBytes.mapRes fun a b hab => ?_
  unfold Utf8.ofBytes? at hab
  split at hab
  · cases hab
    rfl
  · cases hab

end Snix.Aterm
