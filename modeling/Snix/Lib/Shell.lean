import Snix.Lib.Text

/-!
# Declarations of shell variables

How a shell reads the words of a script, and the statements that declare variables and arrays.
What a shell would expand, and what is not written here, is not read.

## Main definitions

- `word` — the word at the front, without its quotes
- `unquote` — the value of a text that is one word
- `Denotes` — a text is read as a word, whatever comes after it
- `readScript` — the declarations of a script

## Main results

- `items_flatMap` — the elements of an array are read back
- `readScript_flatMap` — the statements of a script are read back
-/

namespace Snix.Shell

def isNameStart (c : UInt8) : Bool := (65 ≤ c && c ≤ 90) || (97 ≤ c && c ≤ 122) || c = 95

/-- The names of variables. -/
def isName : Bytes → Bool
  | [] => false
  | c :: s => isNameStart c && s.all fun c => isNameStart c || (48 ≤ c && c ≤ 57)

-- ====================
-- Words
-- ====================

/-- The bytes that are taken as they are outside of quotes, except at the end of a word. -/
def isLiteral (c : UInt8) : Bool :=
  isNameStart c || (48 ≤ c && c ≤ 57) || c = 45 || c = 46 || c = 47

/-- Reads a word, up to one of the bytes that end it. Inside of single quotes all bytes are taken as
    they are, and a backslash outside of them takes the next byte as it is, unless that is the end
    of a line. -/
def word (ends : UInt8 → Bool) : Bool → Bytes → Option (Bytes × Bytes)
  | true, [] => none
  | true, c :: s =>
    if c = 39 then word ends false s else (word ends true s).map fun (v, rest) => (c :: v, rest)
  | false, [] => some ([], [])
  | false, 92 :: d :: s =>
    if d = 10 then word ends false s
    else (word ends false s).map fun (v, rest) => (d :: v, rest)
  | false, c :: s =>
    if c = 39 then word ends true s
    else if ends c then some ([], c :: s)
    else if isLiteral c then (word ends false s).map fun (v, rest) => (c :: v, rest)
    else none

/-- The value of a text that is one word. -/
def unquote (s : Bytes) : Option Bytes :=
  match word (fun _ => false) false s with
  | some (v, []) => some v
  | _ => none

/-- A word ends before the text. -/
def Stops (ends : UInt8 → Bool) (s : Bytes) : Prop := word ends false s = some ([], s)

/-- A text is read as a word with the value `v`, whatever comes after it. -/
def Denotes (ends : UInt8 → Bool) (t v : Bytes) : Prop :=
  ∀ s, Stops ends s → word ends false (t ++ s) = some (v, s)

variable {ends : UInt8 → Bool}

theorem Denotes.nil : Denotes ends [] [] := fun _ hs => hs

theorem Denotes.unquote {t v : Bytes} (h : Denotes (fun _ => false) t v) : unquote t = some v := by
  have hword : word (fun _ => false) false (t ++ []) = some (v, []) := h [] rfl
  rw [List.append_nil] at hword
  rw [Shell.unquote, hword]

theorem denotes_literal {t : Bytes} (h : ∀ c ∈ t, isLiteral c = true ∧ ends c = false) :
    Denotes ends t t := by
  intro s hs
  induction t with
  | nil => exact hs
  | cons c t ih =>
    obtain ⟨⟨hliteral, hends⟩, ht⟩ := List.forall_mem_cons.mp h
    have hquote : c ≠ 39 := by
      rintro rfl
      cases hliteral
    have hbackslash : c ≠ 92 := by
      rintro rfl
      cases hliteral
    rw [List.cons_append, word, if_neg hquote, hends, if_neg Bool.false_ne_true, if_pos hliteral,
      ih ht, Option.map_some]
    exact fun d s' heq => absurd heq hbackslash

theorem word_true_cons {c : UInt8} (hc : c ≠ 39) (s : Bytes) :
    word ends true (c :: s) = (word ends true s).map fun (v, rest) => (c :: v, rest) := by
  rw [word, if_neg hc]

/-- A quote that is escaped outside of the single quotes around it. -/
theorem word_true_escaped (s : Bytes) :
    word ends true (ascii "'\\''" ++ s) =
      (word ends true s).map fun (v, rest) => (39 :: v, rest) := by
  rfl

-- ====================
-- Lists
-- ====================

def isBlank (c : UInt8) : Bool := c = 32 || c = 9 || c = 10

/-- The bytes that end a word. -/
def endsWord (c : UInt8) : Bool := isBlank c || c = 41

/-- Reads a list up to the closing parenthesis, in at most `k` steps. -/
def items {α : Type} (item : Bytes → Option (α × Bytes)) : ℕ → Bytes → Option (List α × Bytes)
  | 0, _ => none
  | _ + 1, [] => none
  | k + 1, c :: s =>
    if isBlank c then items item k s
    else if c = 41 then some ([], s)
    else do
      let (a, s) ← item (c :: s)
      let (as, s) ← items item k s
      some (a :: as, s)

/-- Reads a word with its subscript in front. No element has the empty subscript. -/
def subscripted (s : Bytes) : Option ((Bytes × Bytes) × Bytes) := do
  let s ← stripPrefix (ascii "[") s
  let (key, s) ← word (fun c => c = 93) false s
  if key = [] then none
  else do
    let s ← stripPrefix (ascii "]=") s
    let (v, s) ← word endsWord false s
    some ((key, v), s)

theorem stops_cons {c : UInt8} (h : endsWord c = true) (s : Bytes) : Stops endsWord (c :: s) := by
  have hcases : c = 32 ∨ c = 9 ∨ c = 10 ∨ c = 41 := by
    simpa [endsWord, isBlank, or_assoc] using h
  obtain rfl | rfl | rfl | rfl := hcases
  all_goals rfl

theorem subscripted_of_denotes {t k u v : Bytes} (hkey : Denotes (fun c => c = 93) t k)
    (hk : k ≠ []) (hvalue : Denotes endsWord u v) {s : Bytes} (hs : Stops endsWord s) :
    subscripted (ascii "[" ++ t ++ ascii "]=" ++ u ++ s) = some ((k, v), s) := by
  have hstop : Stops (fun c => c = 93) (ascii "]=" ++ (u ++ s)) := rfl
  rw [List.append_assoc, List.append_assoc, List.append_assoc, subscripted, stripPrefix_append]
  simp only [Option.bind_eq_bind, Option.bind_some, hkey _ hstop, if_neg hk, stripPrefix_append,
    hvalue s hs]

/-- A list is read back whose elements are written with a blank behind each. An element without any
    text is none. -/
theorem items_flatMap {α β : Type} {item : Bytes → Option (α × Bytes)} {text : β → Bytes}
    {val : β → α} {l : List β} (s : Bytes)
    (h : ∀ b ∈ l, text b ≠ [] → (∀ c ∈ (text b).head?, endsWord c = false) ∧
      ∀ s, item (text b ++ 32 :: s) = some (val b, 32 :: s))
    {k : ℕ} (hk : (l.flatMap fun b => text b ++ [32]).length < k) :
    items item k ((l.flatMap fun b => text b ++ [32]) ++ 41 :: s) =
      some ((l.filter fun b => text b ≠ []).map val, s) := by
  induction l generalizing k with
  | nil =>
    obtain ⟨k, rfl⟩ := Nat.exists_eq_succ_of_ne_zero (Nat.ne_of_gt hk)
    rfl
  | cons b l ih =>
    obtain ⟨hb, hl⟩ := List.forall_mem_cons.mp h
    rw [List.flatMap_cons, List.length_append, List.length_append, List.length_singleton] at hk
    have hrest : ∀ k', (l.flatMap fun b => text b ++ [32]).length < k' →
        items item (k' + 1) (32 :: ((l.flatMap fun b => text b ++ [32]) ++ 41 :: s)) =
          some ((l.filter fun b => text b ≠ []).map val, s) := fun k' hk' => ih hl hk'
    rw [List.flatMap_cons, List.append_assoc, List.append_assoc, List.singleton_append]
    cases htext : text b with
    | nil =>
      obtain ⟨k, rfl⟩ : ∃ k', k = k' + 1 := ⟨k - 1, by omega⟩
      rw [List.nil_append, hrest k (by omega), List.filter_cons_of_neg (by simp [htext])]
    | cons c t =>
      have hne : text b ≠ [] := by
        rw [htext]
        exact List.cons_ne_nil c t
      obtain ⟨hhead, hitem⟩ := hb hne
      have hc : endsWord c = false := hhead c (by rw [htext]; rfl)
      have hlen : (text b).length = t.length + 1 := by rw [htext, List.length_cons]
      obtain ⟨k, rfl⟩ : ∃ k', k = k' + 1 + 1 := ⟨k - 2, by omega⟩
      obtain ⟨hblank, hclose⟩ := Bool.or_eq_false_iff.mp hc
      simp only [htext, List.cons_append] at hitem
      rw [List.cons_append, items, hblank, if_neg Bool.false_ne_true,
        if_neg (of_decide_eq_false hclose)]
      simp only [hitem, Option.bind_eq_bind, Option.bind_some]
      rw [hrest k (by omega), List.filter_cons_of_pos (by simpa using hne)]
      rfl

-- ====================
-- Statements
-- ====================

/-- What a variable is declared as. -/
inductive Declared where
  | scalar (v : Bytes)
  | array (vs : List Bytes)
  | assoc (entries : List (Bytes × Bytes))
  deriving DecidableEq

/-- Reads the value behind the equals sign, which is a list if there is an option. -/
def value (option s : Bytes) : Option (Declared × Bytes) :=
  if option = ascii "-a " then do
    let s ← stripPrefix (ascii "(") s
    let (vs, s) ← items (word endsWord false) s.length s
    some (.array vs, s)
  else if option = ascii "-A " then do
    let s ← stripPrefix (ascii "(") s
    let (entries, s) ← items subscripted s.length s
    some (.assoc entries, s)
  else (word endsWord false s).map fun (v, s) => (.scalar v, s)

/-- The option at the front, and what comes after it. -/
def option (s : Bytes) : Bytes × Bytes :=
  if ascii "-a " <+: s ∨ ascii "-A " <+: s then (s.take 3, s.drop 3) else ([], s)

/-- Reads a statement and the end of its line. -/
def statement (s : Bytes) : Option ((Bytes × Declared) × Bytes) := do
  let s ← stripPrefix (ascii "declare ") s
  let (name, rest) ← splitOnce 61 (option s).2
  if isName name then do
    let (v, rest) ← value (option s).1 rest
    let rest ← stripPrefix [10] rest
    some ((name, v), rest)
  else none

/-- Reads at most `k` statements. -/
def statements : ℕ → Bytes → Option (List (Bytes × Declared))
  | _, [] => some []
  | 0, _ => none
  | k + 1, s => do
    let (d, s) ← statement s
    let ds ← statements k s
    some (d :: ds)

/-- The declarations of a script. There are no null bytes in it. -/
def readScript (s : Bytes) : Option (List (Bytes × Declared)) :=
  if 0 ∈ s then none else statements s.length s

theorem ne_61_of_isName {name : Bytes} (h : isName name = true) : 61 ∉ name := by
  intro hmem
  cases name with
  | nil => cases hmem
  | cons c s =>
    obtain ⟨hc, hs⟩ := Bool.and_eq_true_iff.mp h
    obtain rfl | hmem := List.mem_cons.mp hmem
    · cases hc
    · cases List.all_eq_true.mp hs 61 hmem

/-- A statement is read back. -/
theorem statement_append {opt name text : Bytes} {v : Declared}
    (hopt : opt = [] ∨ opt = ascii "-a " ∨ opt = ascii "-A ") (hname : isName name = true)
    (hvalue : ∀ s, value opt (text ++ 10 :: s) = some (v, 10 :: s)) (s : Bytes) :
    statement (ascii "declare " ++ opt ++ name ++ ascii "=" ++ text ++ 10 :: s) =
      some ((name, v), s) := by
  have hoption : option (opt ++ (name ++ 61 :: (text ++ 10 :: s))) =
      (opt, name ++ 61 :: (text ++ 10 :: s)) := by
    obtain rfl | rfl | rfl := hopt
    · cases name with
      | nil => cases hname
      | cons c cs =>
        have hc : c ≠ 45 := by
          rintro rfl
          cases hname
        refine if_neg ?_
        rintro (⟨t, ht⟩ | ⟨t, ht⟩)
        · exact hc (List.cons.inj ht).1.symm
        · exact hc (List.cons.inj ht).1.symm
    · rw [option, if_pos (Or.inl (List.prefix_append _ _))]
      rfl
    · rw [option, if_pos (Or.inr (List.prefix_append _ _))]
      rfl
  have hsplit : splitOnce 61 (name ++ 61 :: (text ++ 10 :: s)) = some (name, text ++ 10 :: s) :=
    splitOnce_eq_some_iff.mpr ⟨rfl, ne_61_of_isName hname⟩
  have hline : stripPrefix [10] (10 :: s) = some s := stripPrefix_append [10] s
  have happend : ascii "declare " ++ opt ++ name ++ ascii "=" ++ text ++ 10 :: s =
      ascii "declare " ++ (opt ++ (name ++ 61 :: (text ++ 10 :: s))) := by
    simp only [List.append_assoc]
    rfl
  rw [happend, statement, stripPrefix_append]
  simp only [Option.bind_eq_bind, Option.bind_some, hoption, hsplit, hname, if_true, hvalue, hline]

theorem statements_flatMap {β : Type} {text : β → Bytes} {d : β → Bytes × Declared} {l : List β}
    (h : ∀ b ∈ l, ∀ s, statement (text b ++ s) = some (d b, s)) {k : ℕ}
    (hk : (l.flatMap text).length ≤ k) : statements k (l.flatMap text) = some (l.map d) := by
  induction l generalizing k with
  | nil => cases k <;> rfl
  | cons b l ih =>
    obtain ⟨hb, hl⟩ := List.forall_mem_cons.mp h
    have hpos : 0 < (text b).length := by
      refine List.length_pos_of_ne_nil fun hnil => ?_
      have hread := hb []
      rw [hnil] at hread
      cases hread
    rw [List.flatMap_cons, List.length_append] at hk
    obtain ⟨k, rfl⟩ : ∃ k', k = k' + 1 := ⟨k - 1, by omega⟩
    have hrest := ih hl (k := k) (by omega)
    rw [List.flatMap_cons, statements]
    · simp only [hb, Option.bind_eq_bind, Option.bind_some, hrest]
      rfl
    · intro hnil
      rw [(List.append_eq_nil_iff.mp hnil).1] at hpos
      cases hpos

/-- The statements of a script are read back. -/
theorem readScript_flatMap {β : Type} {text : β → Bytes} {d : β → Bytes × Declared} {l : List β}
    (h : ∀ b ∈ l, 0 ∉ text b ∧ ∀ s, statement (text b ++ s) = some (d b, s)) :
    readScript (l.flatMap text) = some (l.map d) := by
  have hzero : 0 ∉ l.flatMap text := by
    intro hmem
    obtain ⟨b, hb, hzero⟩ := List.mem_flatMap.mp hmem
    exact (h b hb).1 hzero
  rw [readScript, if_neg hzero]
  exact statements_flatMap (fun b hb => (h b hb).2) le_rfl

end Snix.Shell
