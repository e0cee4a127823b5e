import Snix.Eval.Builtins.Context

/-!
# Printed strings

A string is printed in quotes, and a string that is the name of an attribute without them, where
the language has such a name. The text is read one character after the other; as long as nothing
was escaped it is the text itself that is printed and not a copy.

## Main definitions

- `Str.nixEscapeString` — a text with its escapes, by the indices of the characters
- `NixString.fmt`, `NixString.identStr` — what is printed
- `readBody` — how the language reads a string that is in quotes

## Main results

- `Str.nixEscapeString_eq` — the indices are those of characters, and what the escapes are
- `readBody_nixEscapeString` — the escapes are read back
- `reads_back` — what is printed is read as what it was
-/

namespace Snix.Eval

-- ====================
-- Text
-- ====================

/-- A text that is borrowed, or a copy. -/
inductive Cow where
  | borrowed (s : Bytes)
  | owned (s : Bytes)
  deriving DecidableEq

def Cow.text : Cow → Bytes
  | .borrowed s | .owned s => s

namespace Str

/-- At most that many characters, each of them as its bytes. -/
def charsWithin : ℕ → Bytes → List Bytes
  | 0, _ => []
  | n + 1, s =>
    if s = [] then []
    else s.take (utf8Front s).2 :: charsWithin n (s.drop (utf8Front s).2)

def chars (s : Bytes) : List Bytes := charsWithin s.length s

/-- The characters with the indices of their first bytes. -/
def indicesFrom : ℕ → List Bytes → List (ℕ × Bytes)
  | _, [] => []
  | i, c :: cs => (i, c) :: indicesFrom (i + c.length) cs

def charIndices (s : Bytes) : List (ℕ × Bytes) := indicesFrom 0 (chars s)

/-- The index is not inside of a character. -/
def isCharBoundary (s : Bytes) (i : ℕ) : Bool :=
  i = 0 || i = s.length || s[i]?.any fun b => !isCont b

/-- `&s[..i]`, which panics inside of a character. -/
def sliceTo (s : Bytes) (i : ℕ) : Option Bytes :=
  if isCharBoundary s i then some (s.take i) else none

/-- `&s[i..]`, which panics inside of a character. -/
def sliceFrom (s : Bytes) (i : ℕ) : Option Bytes :=
  if isCharBoundary s i then some (s.drop i) else none

def nixEscapeChar (ch : Bytes) (next : Option Bytes) : Option Bytes :=
  if ch = [92] then some [92, 92]
  else if ch = [34] then some [92, 34]
  else if ch = [10] then some [92, 110]
  else if ch = [9] then some [92, 116]
  else if ch = [13] then some [92, 114]
  else if ch = [36] ∧ next = some [123] then some [92, 36]
  else none

/-- The loop after the first escape. -/
def escapeChars : List Bytes → Bytes
  | [] => []
  | c :: iter => (nixEscapeChar c iter.head?).getD c ++ escapeChars iter

/-- The loop up to the first escape. -/
def escapeFrom (input : Bytes) : List (ℕ × Bytes) → Option Cow
  | [] => some (.borrowed input)
  | (i, c) :: iter =>
    match nixEscapeChar c (iter.head?.map Prod.snd) with
    | none => escapeFrom input iter
    | some esc => do
      let front ← sliceTo input i
      let rest ← sliceFrom input (i + 1)
      some (.owned (front ++ esc ++ escapeChars (chars rest)))

/-- None where the text is cut inside of a character. -/
def nixEscapeString (input : Bytes) : Option Cow := escapeFrom input (charIndices input)

/-- A character of one byte, and which one. -/
def single (p : UInt8 → Bool) : Bytes → Bool
  | [b] => p b
  | _ => false

def isIdentifierStart (b : UInt8) : Bool :=
  (97 ≤ b && b ≤ 122) || (65 ≤ b && b ≤ 90) || b = 95

def isIdentifierPart (b : UInt8) : Bool :=
  (97 ≤ b && b ≤ 122) || (65 ≤ b && b ≤ 90) || (48 ≤ b && b ≤ 57) || b = 95 || b = 45 || b = 39

def isValidNixIdentifier (s : Bytes) : Bool :=
  match chars s with
  | [] => false
  | c :: cs => single isIdentifierStart c && cs.all (single isIdentifierPart)

def isKeyword (s : Bytes) : Bool :=
  s = ascii "if" || s = ascii "then" || s = ascii "else" || s = ascii "assert" ||
    s = ascii "with" || s = ascii "let" || s = ascii "in" || s = ascii "rec" ||
    s = ascii "inherit"

end Str

/-- The text of bytes, a copy where it is not the bytes themselves. -/
def toStrLossy (b : Bytes) : Cow :=
  if utf8Valid b then .borrowed b else .owned (toStringLossy b)

namespace NixString

/-- The displayed string. None where printing it panics. -/
def fmt (s : NixString) : Option Bytes := do
  let escaped ← Str.nixEscapeString (toStrLossy s.contents).text
  some ([34] ++ escaped.text ++ [34])

/-- The string as an identifier, in quotes where it is none. None where this panics. -/
def identStr (s : NixString) : Option Cow := do
  let escaped ← match toStrLossy s.contents with
    | .borrowed s => Str.nixEscapeString s
    | .owned s => (Str.nixEscapeString s).map fun escaped => .owned escaped.text
  match escaped with
  | .borrowed t =>
    if Str.isValidNixIdentifier t && !Str.isKeyword t then some (.borrowed t)
    else some (.owned ([34] ++ t ++ [34]))
  | .owned t => some (.owned ([34] ++ t ++ [34]))

end NixString

-- ====================
-- Reading
-- ====================

/-- Where the text of a string that is in quotes ends, and the string up to there. -/
inductive Quoted where
  /-- At its closing quote, with the text after it. -/
  | closed (s rest : Bytes)
  /-- At an interpolation. -/
  | interpolation (s : Bytes)
  | unterminated
  deriving DecidableEq

def Quoted.push (c : UInt8) : Quoted → Quoted
  | .closed s rest => .closed (c :: s) rest
  | .interpolation s => .interpolation (c :: s)
  | .unterminated => .unterminated

/-- The character that an escape stands for. -/
def unescapeChar (c : UInt8) : UInt8 :=
  if c = 110 then 10 else if c = 114 then 13 else if c = 116 then 9 else c

/-- Reads a string after its opening quote. A carriage return ends a line like a line feed. The
    first flag says whether dollar signs are read in pairs, so that the second one of a pair does
    not open an interpolation, and the second flag whether the character before the text is the
    first one of a pair. -/
def readBody (pairs : Bool) : Bool → Bytes → Quoted
  | _, [] => .unterminated
  | paired, c :: rest =>
    if c = 34 then .closed [] rest
    else if c = 92 then
      match rest with
      | [] => .unterminated
      | d :: rest => (readBody pairs false rest).push (unescapeChar d)
    else if c = 36 then
      if !paired && rest.head? = some 123 then .interpolation []
      else (readBody pairs (pairs && !paired) rest).push 36
    else if c = 13 then
      if rest.head? = some 10 then readBody pairs false rest
      else (readBody pairs false rest).push 10
    else (readBody pairs false rest).push c

/-- Reads a string with its quotes. -/
def readString (pairs : Bool) : Bytes → Quoted
  | [] => .unterminated
  | c :: body => if c = 34 then readBody pairs false body else .unterminated

def isLetter (c : UInt8) : Bool := (97 ≤ c && c ≤ 122) || (65 ≤ c && c ≤ 90)

def isDigit (c : UInt8) : Bool := 48 ≤ c && c ≤ 57

/-- The identifiers of the language. -/
def IsIdentifier : Bytes → Prop
  | [] => False
  | c :: s => (isLetter c ∨ c = 95) ∧
    ∀ d ∈ s, isLetter d ∨ isDigit d ∨ d = 95 ∨ d = 45 ∨ d = 39

instance : DecidablePred IsIdentifier
  | [] => inferInstanceAs (Decidable False)
  | _ :: _ => inferInstanceAs (Decidable (_ ∧ _))

/-- Texts that look like identifiers, but mean something else. -/
def KEYWORDS : List Bytes := [ascii "if", ascii "then", ascii "else", ascii "assert", ascii "with",
  ascii "let", ascii "in", ascii "rec", ascii "inherit"]

/-- Reads the name of an attribute. -/
def readName (pairs : Bool) (t : Bytes) : Option Bytes :=
  if IsIdentifier t ∧ !KEYWORDS.contains t then some t
  else
    match readString pairs t with
    | .closed s [] => some s
    | _ => none

-- ====================
-- Special characters
-- ====================

/-- The characters that may be escaped. -/
def SPECIAL : Bytes := [92, 34, 10, 9, 13, 36]

theorem nixEscapeChar_of_not_special {ch : UInt8} (h : ch ∉ SPECIAL) (next : Option UInt8) :
    nixEscapeChar ch next = none := by
  simp only [SPECIAL, List.mem_cons, List.not_mem_nil, or_false, not_or] at h
  obtain ⟨h₁, h₂, h₃, h₄, h₅, h₆⟩ := h
  rw [nixEscapeChar, if_neg h₁, if_neg h₂, if_neg h₃, if_neg h₄, if_neg h₅,
    if_neg fun h => h₆ h.1]

/-- Where there are no special characters, nothing is escaped. -/
theorem nixEscapeString_append_of_not_special {s : Bytes} (h : ∀ y ∈ s, y ∉ SPECIAL)
    (rest : Bytes) : nixEscapeString (s ++ rest) = s ++ nixEscapeString rest := by
  induction s with
  | nil => rfl
  | cons y s ih =>
    rw [List.cons_append, nixEscapeString, nixEscapeChar_of_not_special (h y List.mem_cons_self),
      ih fun z hz => h z (List.mem_cons_of_mem _ hz)]
    rfl

theorem not_special_of_high {y : UInt8} (h : 0x80 ≤ y) : y ∉ SPECIAL := by
  have hlow : SPECIAL.all (· < 0x80) = true := by decide
  intro hmem
  have hy := of_decide_eq_true (List.all_eq_true.mp hlow y hmem)
  exact UInt8.lt_irrefl y (UInt8.lt_of_lt_of_le hy h)

-- ====================
-- Characters
-- ====================

namespace Str

variable {b : UInt8} {c s rest : Bytes} {n : ℕ}

/-- The bytes of one character: one byte of ASCII, or none at all. -/
inductive IsChar : Bytes → Prop
  | ascii {b : UInt8} (h : b ≤ 0x7F) : IsChar [b]
  | high {c : Bytes} (hne : c ≠ []) (h : ∀ y ∈ c, 0x80 ≤ y) : IsChar c

theorem isChar_take {k : ℕ} (hk : 0 < k) (hle : k ≤ s.length)
    (h : k = 1 ∨ ∀ y ∈ s.take k, 0x80 ≤ y) : IsChar (s.take k) := by
  obtain _ | ⟨b, s⟩ := s
  · exact absurd (Nat.lt_of_lt_of_le hk hle) (Nat.lt_irrefl 0)
  · have hne : (b :: s).take k ≠ [] := by
      simpa [List.take_eq_nil_iff] using hk.ne'
    obtain rfl | h := h
    · by_cases hb : b ≤ 0x7F
      · exact .ascii hb
      · exact .high hne fun y hy => (List.mem_singleton.mp hy) ▸ le_of_not_ascii hb
    · exact .high hne h

theorem charsWithin_of_le {m n : ℕ} {s : Bytes} (hm : s.length ≤ m) (hn : s.length ≤ n) :
    charsWithin m s = charsWithin n s := by
  induction m generalizing n s with
  | zero =>
    rw [List.length_eq_zero_iff.mp (Nat.le_zero.mp hm)]
    cases n <;> simp [charsWithin]
  | succ m ih =>
    by_cases hs : s = []
    · subst hs
      cases n <;> simp [charsWithin]
    · obtain ⟨hpos, hle⟩ := utf8Front_length hs
      obtain _ | n := n
      · exact absurd (List.length_eq_zero_iff.mp (Nat.le_zero.mp hn)) hs
      · rw [charsWithin, charsWithin, if_neg hs, if_neg hs]
        congr 1
        apply ih <;> (rw [List.length_drop]; omega)

/-- By induction on the characters of a text. -/
theorem text_induction {P : ∀ s : Bytes, utf8Valid s = true → Prop} (nil : P [] rfl)
    (char : ∀ c rest (h : utf8Valid (c ++ rest) = true) (hrest : utf8Valid rest = true), IsChar c →
      chars (c ++ rest) = c :: chars rest → P rest hrest → P (c ++ rest) h)
    (s : Bytes) (h : utf8Valid s = true) : P s h := by
  induction hn : s.length using Nat.strong_induction_on generalizing s with
  | _ n ih =>
    by_cases hs : s = []
    · subst hs
      exact nil
    · obtain ⟨k, hk, hrest, hchar⟩ := utf8Front_of_valid hs h
      obtain ⟨hpos, hle⟩ := utf8Front_length hs
      rw [hk] at hpos hle
      obtain ⟨c, rest, rfl, hc, hdrop⟩ : ∃ c rest, s = c ++ rest ∧ s.take k = c ∧ s.drop k = rest :=
        ⟨_, _, (List.take_append_drop k s).symm, rfl, rfl⟩
      rw [hdrop] at hrest
      have hlen : c.length = k := by
        rw [← hc, List.length_take, Nat.min_eq_left hle]
      have hlt : rest.length < n := by
        rw [← hn, List.length_append, hlen]
        exact Nat.lt_add_of_pos_left hpos
      have hchars : chars (c ++ rest) = c :: chars rest := by
        obtain ⟨m, hm⟩ : ∃ m, (c ++ rest).length = m + 1 := ⟨(c ++ rest).length - 1, by omega⟩
        have hle' : rest.length ≤ m := by omega
        rw [chars, hm, charsWithin, if_neg hs, hk, hc, hdrop, chars, charsWithin_of_le hle' le_rfl]
      exact char c rest h hrest (hc ▸ isChar_take hpos hle hchar) hchars (ih _ hlt rest hrest rfl)

/-- A character of ASCII is next if its byte is. -/
theorem head?_chars (hb : b ≤ 0x7F) (h : utf8Valid s = true) :
    (chars s).head? = some [b] ↔ s.head? = some b := by
  induction s, h using text_induction with
  | nil => simp [chars, charsWithin]
  | char c rest h hrest hc hchars ih =>
    rw [hchars, List.head?_cons]
    cases hc with
    | ascii h => simp
    | high hne h =>
      obtain _ | ⟨y, c⟩ := c
      · exact absurd rfl hne
      · have hy : y ≠ b := by
          rintro rfl
          exact absurd (UInt8.le_trans (h y List.mem_cons_self) hb) (by decide)
        simp [hy]

/-- A text does not begin inside of a character. -/
theorem not_isCont_head (h : utf8Valid s = true) : ∀ y ∈ s.head?, isCont y = false := by
  intro y hy
  obtain ⟨s, rfl⟩ := List.head?_eq_some_iff.mp hy
  by_contra hcont
  rw [Bool.not_eq_false, isCont, Bool.and_eq_true, decide_eq_true_iff, decide_eq_true_iff] at hcont
  unfold utf8Valid at h
  obtain ⟨hlo, hhi⟩ := hcont
  rw [if_neg, if_neg, if_neg, if_neg] at h
  · cases h
  all_goals
    simp only [Bool.and_eq_true, decide_eq_true_iff, UInt8.le_iff_toNat_le, UInt8.reduceToNat] at *
    omega

theorem isCharBoundary_append (c : Bytes) (h : utf8Valid rest = true) :
    isCharBoundary (c ++ rest) c.length = true := by
  obtain _ | ⟨y, rest⟩ := rest
  · simp [isCharBoundary]
  · have hy := not_isCont_head h y rfl
    simp [isCharBoundary, hy]

theorem sliceTo_append (c : Bytes) (h : utf8Valid rest = true) :
    sliceTo (c ++ rest) c.length = some c := by
  rw [sliceTo, if_pos (isCharBoundary_append c h), List.take_left]

theorem sliceFrom_append (c : Bytes) (h : utf8Valid rest = true) :
    sliceFrom (c ++ rest) c.length = some rest := by
  rw [sliceFrom, if_pos (isCharBoundary_append c h), List.drop_left]

-- ====================
-- Escapes
-- ====================

/-- A character of ASCII is escaped as its byte is. -/
theorem nixEscapeChar_single (hrest : utf8Valid rest = true) :
    nixEscapeChar [b] (chars rest).head? = Eval.nixEscapeChar b rest.head? := by
  have hnext : (chars rest).head? = some [123] ↔ rest.head? = some 123 :=
    head?_chars (by decide) hrest
  simp only [nixEscapeChar, Eval.nixEscapeChar, hnext, List.cons.injEq, and_true]

theorem nixEscapeChar_high {next : Option Bytes} (h : ∀ y ∈ c, 0x80 ≤ y) :
    nixEscapeChar c next = none := by
  have hne : ∀ b ∈ SPECIAL, c ≠ [b] := by
    rintro b hb rfl
    exact not_special_of_high (h b (List.mem_singleton.mpr rfl)) hb
  rw [nixEscapeChar, if_neg (hne _ (by decide)), if_neg (hne _ (by decide)),
    if_neg (hne _ (by decide)), if_neg (hne _ (by decide)), if_neg (hne _ (by decide)),
    if_neg fun h => hne 36 (by decide) h.1]

/-- One character at the front, which is escaped or not. -/
theorem nixEscapeString_append (hc : IsChar c) (hrest : utf8Valid rest = true) :
    Eval.nixEscapeString (c ++ rest) =
      (nixEscapeChar c (chars rest).head?).getD c ++ Eval.nixEscapeString rest := by
  cases hc with
  | ascii h => rw [nixEscapeChar_single hrest, List.singleton_append, Eval.nixEscapeString]
  | high hne h =>
    have hspecial : ∀ y ∈ c, y ∉ SPECIAL := fun y hy => not_special_of_high (h y hy)
    rw [nixEscapeChar_high h, nixEscapeString_append_of_not_special hspecial, Option.getD_none]

theorem escapeChars_chars (h : utf8Valid s = true) :
    escapeChars (chars s) = Eval.nixEscapeString s := by
  induction s, h using text_induction with
  | nil => rfl
  | char c rest h hrest hc hchars ih =>
    rw [hchars, escapeChars, ih, nixEscapeString_append hc hrest]

/-- Escapes take two bytes, in place of one. -/
theorem escape_of_nixEscapeChar {next : Option Bytes} {esc : Bytes}
    (h : nixEscapeChar c next = some esc) : c.length = 1 ∧ esc.length = 2 := by
  unfold nixEscapeChar at h
  split_ifs at h with h₁ h₂ h₃ h₄ h₅ h₆
  all_goals
    obtain rfl := Option.some.inj h
    refine ⟨?_, rfl⟩
    first
    | rw [h₁]; rfl
    | rw [h₂]; rfl
    | rw [h₃]; rfl
    | rw [h₄]; rfl
    | rw [h₅]; rfl
    | rw [h₆.1]; rfl

theorem length_le_nixEscapeString (s : Bytes) : s.length ≤ (Eval.nixEscapeString s).length := by
  induction s with
  | nil => exact Nat.le_refl _
  | cons ch rest ih =>
    have hpos : 1 ≤ ((Eval.nixEscapeChar ch rest.head?).getD [ch]).length := by
      unfold Eval.nixEscapeChar
      split_ifs <;> simp
    rw [Eval.nixEscapeString, List.length_append, List.length_cons]
    omega

/-- The loop after a part in which nothing is escaped. -/
theorem escapeFrom_indices (front : Bytes) (h : utf8Valid rest = true) :
    escapeFrom (front ++ rest) (indicesFrom front.length (chars rest)) =
      some (if Eval.nixEscapeString rest = rest then .borrowed (front ++ rest)
        else .owned (front ++ Eval.nixEscapeString rest)) := by
  induction rest, h using text_induction generalizing front with
  | nil => rfl
  | char c rest h hrest hc hchars ih =>
    have hnext : (indicesFrom (front.length + c.length) (chars rest)).head?.map Prod.snd =
        (chars rest).head? := by
      cases chars rest <;> rfl
    have hstep := nixEscapeString_append hc hrest
    rw [hchars, indicesFrom, escapeFrom, hnext]
    cases hesc : nixEscapeChar c (chars rest).head? with
    | none =>
      rw [hesc, Option.getD_none] at hstep
      have happ := ih (front ++ c)
      rw [List.append_assoc, List.length_append, List.append_assoc] at happ
      simp only [happ, hstep, List.append_cancel_left_eq]
    | some esc =>
      rw [hesc, Option.getD_some] at hstep
      obtain ⟨hone, htwo⟩ := escape_of_nixEscapeChar hesc
      -- an escape makes the text longer
      have hne : Eval.nixEscapeString (c ++ rest) ≠ c ++ rest := by
        intro he
        have hlen := congrArg List.length (hstep.symm.trans he)
        have hle := length_le_nixEscapeString rest
        simp only [List.length_append] at hlen
        omega
      have hback := sliceFrom_append (front ++ c) hrest
      rw [List.append_assoc, List.length_append, hone] at hback
      rw [if_neg hne, hstep]
      simp only [sliceTo_append front h, hback, escapeChars_chars hrest, Option.bind_eq_bind,
        Option.bind_some, List.append_assoc]

/-- The text is never cut inside of a character, and it is copied if something is escaped. -/
theorem nixEscapeString_eq (h : utf8Valid s = true) :
    nixEscapeString s = some (if Eval.nixEscapeString s = s then .borrowed s
      else .owned (Eval.nixEscapeString s)) :=
  escapeFrom_indices [] h

end Str

-- ====================
-- Reading back
-- ====================

section Reading

variable {pairs : Bool} {s rest : Bytes}

theorem readBody_cons {paired : Bool} {c : UInt8} {t : Bytes} (h₁ : c ≠ 34) (h₂ : c ≠ 92)
    (h₃ : c ≠ 13) (h : c = 36 → t.head? ≠ some 123) :
    readBody pairs paired (c :: t) = (readBody pairs (c = 36 && pairs && !paired) t).push c := by
  rw [readBody.eq_def]
  simp only [if_neg h₁, if_neg h₂, if_neg h₃]
  by_cases h₄ : c = 36
  · have hnext : ¬(!paired && t.head? = some 123) = true := by simp [h h₄]
    rw [if_pos h₄, if_neg hnext, h₄]
    simp
  · rw [if_neg h₄]
    simp [h₄]

theorem readBody_escape {paired : Bool} {c ch : UInt8} {t : Bytes} (h : unescapeChar c = ch)
    (ht : readBody pairs false t = .closed s rest) :
    readBody pairs paired (92 :: c :: t) = .closed (ch :: s) rest := by
  rw [readBody, if_neg (by decide), if_pos rfl, ht, h]
  rfl

/-- What begins with a brace begins with one that was not escaped. -/
theorem head?_nixEscapeString (h : s.head? ≠ some 123) (rest : Bytes) :
    (nixEscapeString s ++ 34 :: rest).head? ≠ some 123 := by
  obtain _ | ⟨ch, s⟩ := s
  · simp [nixEscapeString]
  · have hne : ch ≠ 123 := fun he => h (congrArg some he)
    unfold nixEscapeString nixEscapeChar
    split_ifs <;> simp [hne]

/-- The escapes are read back, and the string ends at the quote after them. By induction on the
    string, whether a dollar sign was the first one of a pair or not. -/
theorem readBody_nixEscapeString (pairs paired : Bool) (s rest : Bytes) :
    readBody pairs paired (nixEscapeString s ++ 34 :: rest) = .closed s rest := by
  induction s generalizing paired with
  | nil =>
    rw [readBody.eq_def]
    rfl
  | cons ch s ih =>
    by_cases h₁ : ch = 92
    · subst h₁
      exact readBody_escape (c := 92) rfl (ih false)
    by_cases h₂ : ch = 34
    · subst h₂
      exact readBody_escape (c := 34) rfl (ih false)
    by_cases h₃ : ch = 10
    · subst h₃
      exact readBody_escape (c := 110) rfl (ih false)
    by_cases h₄ : ch = 9
    · subst h₄
      exact readBody_escape (c := 116) rfl (ih false)
    by_cases h₅ : ch = 13
    · subst h₅
      exact readBody_escape (c := 114) rfl (ih false)
    rw [nixEscapeString, nixEscapeChar, if_neg h₁, if_neg h₂, if_neg h₃, if_neg h₄, if_neg h₅]
    split_ifs with h₆
    · obtain ⟨rfl, -⟩ := h₆
      exact readBody_escape (c := 36) rfl (ih false)
    · have hnext : ch = 36 → (nixEscapeString s ++ 34 :: rest).head? ≠ some 123 := fun he =>
        head?_nixEscapeString (fun hs => h₆ ⟨he, hs⟩) rest
      rw [Option.getD_none, List.singleton_append, List.cons_append, readBody_cons h₂ h₁ h₅ hnext, ih]
      rfl

/-- A string in quotes is read back, and there is nothing after it. -/
theorem readString_quoted (pairs : Bool) (s : Bytes) :
    readString pairs ([34] ++ nixEscapeString s ++ [34]) = .closed s [] := by
  rw [List.append_assoc, List.singleton_append, readString, if_pos rfl, readBody_nixEscapeString]

/-- Of two dollar signs before a brace the second one is escaped. -/
example : nixEscapeString [36, 36, 123] = [36, 92, 36, 123] := by decide

-- ====================
-- Identifiers
-- ====================

/-- Bytes of ASCII are looked for in the characters or in the bytes. -/
theorem all_chars {p : UInt8 → Bool} (hp : ∀ b, p b = true → b ≤ 0x7F) (h : utf8Valid s = true) :
    (Str.chars s).all (Str.single p) = s.all p := by
  induction s, h using Str.text_induction with
  | nil => rfl
  | char c rest h hrest hc hchars ih =>
    rw [hchars, List.all_cons, ih, List.all_append]
    congr 1
    cases hc with
    | ascii h => simp [Str.single]
    | high hne h =>
      obtain _ | ⟨y, c⟩ := c
      · exact absurd rfl hne
      · have hy : p y = false := by
          by_contra htrue
          have hle := hp y (Bool.not_eq_false _ ▸ htrue)
          exact absurd (UInt8.le_trans (h y List.mem_cons_self) hle) (by decide)
        cases c <;> simp [Str.single, hy]

theorem isIdentifierStart_iff {b : UInt8} :
    Str.isIdentifierStart b = true ↔ isLetter b ∨ b = 95 := by
  simp [Str.isIdentifierStart, isLetter]

theorem isIdentifierPart_iff {b : UInt8} :
    Str.isIdentifierPart b = true ↔ isLetter b ∨ isDigit b ∨ b = 95 ∨ b = 45 ∨ b = 39 := by
  simp [Str.isIdentifierPart, isLetter, isDigit, or_assoc]

theorem isIdentifierPart_of_start {b : UInt8} (h : Str.isIdentifierStart b = true) :
    Str.isIdentifierPart b = true := by
  rw [isIdentifierPart_iff]
  obtain h | h := isIdentifierStart_iff.mp h
  · exact .inl h
  · exact .inr (.inr (.inl h))

/-- The bytes of identifiers are ASCII. -/
theorem le_of_isIdentifierPart (b : UInt8) (h : Str.isIdentifierPart b = true) : b ≤ 0x7F := by
  simp only [Str.isIdentifierPart, Bool.or_eq_true, Bool.and_eq_true, decide_eq_true_iff,
    UInt8.le_iff_toNat_le, ← UInt8.toNat_inj, UInt8.reduceToNat] at h ⊢
  omega

theorem isIdentifier_cons_iff {b : UInt8} :
    IsIdentifier (b :: s) ↔ Str.isIdentifierStart b = true ∧ s.all Str.isIdentifierPart = true := by
  simp only [IsIdentifier, isIdentifierStart_iff, List.all_eq_true, isIdentifierPart_iff]

theorem isValidNixIdentifier_iff (h : utf8Valid s = true) :
    Str.isValidNixIdentifier s = true ↔ IsIdentifier s := by
  induction s, h using Str.text_induction with
  | nil => simp [Str.isValidNixIdentifier, Str.chars, Str.charsWithin, IsIdentifier]
  | char c rest h hrest hc hchars ih =>
    rw [Str.isValidNixIdentifier, hchars]
    simp only [all_chars le_of_isIdentifierPart hrest, Bool.and_eq_true]
    cases hc with
    | ascii h => exact isIdentifier_cons_iff.symm
    | high hne h =>
      obtain _ | ⟨y, c⟩ := c
      · exact absurd rfl hne
      · have hy : Str.isIdentifierStart y ≠ true := fun hstart =>
          absurd (UInt8.le_trans (h y List.mem_cons_self)
            (le_of_isIdentifierPart y (isIdentifierPart_of_start hstart))) (by decide)
        rw [List.cons_append, isIdentifier_cons_iff]
        cases c <;> simp [Str.single, hy]

theorem isKeyword_iff : Str.isKeyword s = true ↔ s ∈ KEYWORDS := by
  simp [Str.isKeyword, KEYWORDS, or_assoc]

/-- In an identifier there is nothing to escape. -/
theorem nixEscapeString_of_isIdentifier (h : IsIdentifier s) : nixEscapeString s = s := by
  have hpart : ∀ b ∈ s, Str.isIdentifierPart b = true := by
    obtain _ | ⟨c, s⟩ := s
    · exact nofun
    · obtain ⟨hc, hs⟩ := isIdentifier_cons_iff.mp h
      exact List.forall_mem_cons.mpr ⟨isIdentifierPart_of_start hc, List.all_eq_true.mp hs⟩
  have hspecial : SPECIAL.all (!Str.isIdentifierPart ·) = true := by decide
  have hnot : ∀ b ∈ s, b ∉ SPECIAL := by
    intro b hb hmem
    have hfalse := List.all_eq_true.mp hspecial b hmem
    rw [hpart b hb] at hfalse
    cases hfalse
  have hescape := nixEscapeString_append_of_not_special hnot []
  rwa [List.append_nil, nixEscapeString, List.append_nil] at hescape

theorem readName_identifier (pairs : Bool) (h : IsIdentifier s) (hkey : s ∉ KEYWORDS) :
    readName pairs s = some s := by
  have hcontains : (!KEYWORDS.contains s) = true := by
    rw [Bool.not_eq_true', List.contains_eq_mem, decide_eq_false_iff_not]
    exact hkey
  exact if_pos ⟨h, hcontains⟩

theorem readName_quoted (pairs : Bool) (s : Bytes) :
    readName pairs ([34] ++ nixEscapeString s ++ [34]) = some s := by
  have hnot : ¬(IsIdentifier ([34] ++ nixEscapeString s ++ [34]) ∧
      !KEYWORDS.contains ([34] ++ nixEscapeString s ++ [34])) := fun h => absurd h.1.1 (by decide)
  rw [readName, if_neg hnot, readString_quoted]

/-- What is printed for a text. -/
theorem fmt_eq (s : Utf8) (context : NixContext) :
    (NixString.mk s.val context).fmt = some (display s.val) := by
  rw [NixString.fmt, toStrLossy, if_pos s.property, display, toStringLossy_of_valid s.property]
  simp only [Cow.text, Str.nixEscapeString_eq s.property, Option.bind_eq_bind, Option.bind_some]
  split_ifs with h
  · rw [h]
  · rfl

/-- Names are printed as they are, and all other texts in quotes. -/
theorem identStr_eq (s : Utf8) (context : NixContext) :
    (NixString.mk s.val context).identStr =
      some (if IsIdentifier s.val ∧ s.val ∉ KEYWORDS then .borrowed s.val
        else .owned ([34] ++ nixEscapeString s.val ++ [34])) := by
  simp only [NixString.identStr, toStrLossy, if_pos s.property, Str.nixEscapeString_eq s.property,
    Option.bind_eq_bind, Option.bind_some]
  have hname : (Str.isValidNixIdentifier s.val && !Str.isKeyword s.val) = true ↔
      IsIdentifier s.val ∧ s.val ∉ KEYWORDS := by
    rw [Bool.and_eq_true, isValidNixIdentifier_iff s.property, Bool.not_eq_true',
      ← Bool.not_eq_true, isKeyword_iff]
  by_cases hesc : nixEscapeString s.val = s.val
  · rw [if_pos hesc, hesc]
    by_cases h : IsIdentifier s.val ∧ s.val ∉ KEYWORDS
    · rw [if_pos h]
      exact if_pos (hname.mpr h)
    · rw [if_neg h]
      exact if_neg fun h' => h (hname.mp h')
  · have hnot : ¬(IsIdentifier s.val ∧ s.val ∉ KEYWORDS) := fun h =>
      hesc (nixEscapeString_of_isIdentifier h.1)
    simp only [if_neg hesc, if_neg hnot]

/-- A text that is printed is read as what it was, without an interpolation and up to the quote
    that is its last character, and it is printed without quotes if that is a name. -/
theorem reads_back (pairs : Bool) (s : Utf8) (context : NixContext) :
    (∃ printed, (NixString.mk s.val context).fmt = some printed ∧
      readString pairs printed = .closed s.val []) ∧
    ∃ name, (NixString.mk s.val context).identStr = some name ∧
      readName pairs name.text = some s.val ∧
      ((name.text = s.val ∧ IsIdentifier s.val ∧ s.val ∉ KEYWORDS) ∨
        ¬(IsIdentifier s.val ∧ s.val ∉ KEYWORDS) ∧
          (NixString.mk s.val context).fmt = some name.text) := by
  rw [fmt_eq, identStr_eq, display, toStringLossy_of_valid s.property]
  refine ⟨⟨_, rfl, readString_quoted pairs s.val⟩, _, rfl, ?_⟩
  split_ifs with h
  · exact ⟨readName_identifier pairs h.1 h.2, .inl ⟨rfl, h⟩⟩
  · exact ⟨readName_quoted pairs s.val, .inr ⟨h, rfl⟩⟩

end Reading

end Snix.Eval
