import Snix.Lib.Hex
import Snix.Lib.Shell
import Snix.NixCompat.StructuredAttrs

/-!
# The script of structured attributes in the shell

What a shell declares when it reads the script of the attributes. Strings and the keys of objects
may have any bytes but null bytes, and a key may not be empty. A `false` in an array leaves nothing
behind.

## Main definitions

- `Json.Declarable` — the attributes that a shell can hold
- `shellValue` — what an attribute is declared as

## Main results

- `unquote_shellEscapedSingleQuoted` — quoting is undone by the shell
- `declares_attrs` — the script declares the attributes with the names of variables
-/

namespace Snix.StructuredAttrs

open Shell

variable {ends : UInt8 → Bool}

theorem word_escaped (s t : Bytes) :
    word ends true ((s.flatMap fun c => if c = 39 then ascii "'\\''" else [c]) ++ 39 :: t) =
      (word ends false t).map fun (v, rest) => (s ++ v, rest) := by
  induction s with
  | nil =>
    rw [List.flatMap_nil, List.nil_append, word, if_pos rfl]
    exact Option.map_id'.symm
  | cons c s ih =>
    rw [List.flatMap_cons, List.append_assoc]
    by_cases hc : c = 39
    · rw [if_pos hc, word_true_escaped, ih, Option.map_map, hc]
      rfl
    · rw [if_neg hc, List.singleton_append, word_true_cons hc, ih, Option.map_map]
      rfl

/-- A quoted string is read as that string, in whatever it stands. -/
theorem denotes_shellEscapedSingleQuoted (s : Bytes) :
    Denotes ends (shellEscapedSingleQuoted s) s := by
  intro t ht
  have hopen : word ends false (shellEscapedSingleQuoted s ++ t) = word ends true
      ((s.flatMap fun c => if c = 39 then ascii "'\\''" else [c]) ++ 39 :: t) := by
    rw [shellEscapedSingleQuoted, List.cons_append, List.cons_append, List.append_assoc]
    rfl
  rw [hopen, word_escaped, ht, Option.map_some]
  dsimp only
  rw [List.append_nil]

-- ====================
-- Values
-- ====================

/-- The integer that a number stands for. -/
def Number.value : Number → ℤ
  | .posInt n => n.toNat
  | .negInt i => i.toInt
  | .float f => ⌈f⌉

/-- The floats are integers of 64 bits. -/
def Number.Fits : Number → Prop
  | .float f => (⌈f⌉ : ℚ) = f ∧ -2 ^ 63 ≤ ⌈f⌉ ∧ ⌈f⌉ < 2 ^ 63
  | _ => True

instance (n : Number) : Decidable n.Fits := by
  cases n <;> unfold Number.Fits <;> infer_instance

/-- The simple values that a shell can hold. -/
def Json.Plain : Json → Prop
  | .null => True
  | .bool _ => True
  | .number n => n.Fits
  | .string s => 0 ∉ s
  | .array _ => False
  | .object _ => False

/-- The attributes that a shell can hold. -/
def Json.Declarable : Json → Prop
  | .array values => ∀ v ∈ values, v.Plain
  | .object map => ∀ e ∈ map, e.1 ≠ [] ∧ 0 ∉ e.1 ∧ e.2.Plain
  | v => v.Plain

/-- A simple value in the shell: numbers are decimal, true is one, and null and false are empty. -/
def Json.shellText : Json → Bytes
  | .bool true => ascii "1"
  | .number n => decimalInt n.value
  | .string s => s
  | _ => []

def Json.isFalse : Json → Bool
  | .bool false => true
  | _ => false

/-- What an attribute is declared as. -/
def shellValue : Json → Declared
  | .array values => .array ((values.filter fun v => !v.isFalse).map Json.shellText)
  | .object map => .assoc (map.map fun e => (e.1, e.2.shellText))
  | v => .scalar v.shellText

theorem decimalInt_eq (i : ℤ) : ∀ c ∈ decimalInt i, c = 45 ∨ (48 ≤ c ∧ c ≤ 57) := by
  intro c hc
  cases i with
  | ofNat n => exact .inr (decimal_range hc)
  | negSucc n =>
    obtain rfl | hc := List.mem_cons.mp hc
    · exact .inl rfl
    · exact .inr (decimal_range hc)

theorem decimalInt_ne_nil (i : ℤ) : decimalInt i ≠ [] := by
  cases i with
  | ofNat n => exact decimal_ne_nil n
  | negSucc n => exact List.cons_ne_nil _ _

theorem isLiteral_of_mem_decimalInt {i : ℤ} {c : UInt8} (h : c ∈ decimalInt i) :
    isLiteral c = true ∧ endsWord c = false := by
  have key : ∀ c : UInt8, c = 45 ∨ (48 ≤ c ∧ c ≤ 57) → isLiteral c = true ∧ endsWord c = false := by
    refine forall_byte ?_
    decide +kernel
  exact key c (decimalInt_eq i c h)

theorem write_of_fits {n : Number} (h : n.Fits) : n.write = decimalInt n.value := by
  cases n with
  | posInt n => rfl
  | negInt i => rfl
  | float f =>
    have hcast : toI64 ⌈f⌉ = ⌈f⌉ := by
      obtain ⟨-, hlow, hhigh⟩ := h
      rw [toI64, min_eq_left (Int.le_sub_one_of_lt hhigh), max_eq_right hlow]
    rw [Number.write, hcast]
    rfl

theorem simple_of_plain {v : Json} (h : v.Plain) : v.Simple := by
  cases v with
  | number n =>
    cases n with
    | float f => exact congrArg some (decide_eq_true h.1)
    | _ => rfl
  | array values => exact h.elim
  | object map => exact h.elim
  | _ => rfl

theorem good_of_declarable {v : Json} (h : v.Declarable) : v.Good := by
  cases v with
  | array values => exact fun v hv => simple_of_plain (h v hv)
  | object map => exact fun e he => simple_of_plain (h e he).2.2
  | _ => exact simple_of_plain (v := _) h

theorem checked_of_good {v : Json} (h : v.Good) : v.Checked := by
  cases v with
  | array values =>
    intro front v back heq hnone
    have hsimple : isGoodSimpleValue v = some true := h v (by rw [heq]; simp)
    rw [hnone] at hsimple
    cases hsimple
  | _ => trivial

/-- A simple value that is written is read as its value in the shell. -/
theorem denotes_text {v : Json} (h : v.Plain) : Denotes endsWord v.text v.shellText := by
  cases v with
  | null => exact denotes_shellEscapedSingleQuoted []
  | bool b =>
    cases b with
    | false => exact Denotes.nil
    | true =>
      refine denotes_literal fun c hc => ?_
      rw [List.mem_singleton.mp hc]
      decide
  | number n =>
    have htext : (Json.number n).text = decimalInt n.value := write_of_fits h
    rw [htext]
    exact denotes_literal fun c hc => isLiteral_of_mem_decimalInt hc
  | string s => exact denotes_shellEscapedSingleQuoted s
  | array values => exact h.elim
  | object map => exact h.elim

/-- Only false is written as nothing. -/
theorem text_eq_nil_iff {v : Json} (h : v.Plain) : v.text = [] ↔ v.isFalse = true := by
  cases v with
  | bool b => cases b <;> decide
  | number n =>
    have htext : (Json.number n).text = decimalInt n.value := write_of_fits h
    rw [htext]
    exact iff_of_false (decimalInt_ne_nil _) Bool.false_ne_true
  | null => decide
  | string s => exact iff_of_false (List.cons_ne_nil _ _) Bool.false_ne_true
  | array values => exact h.elim
  | object map => exact h.elim

theorem endsWord_head_text {v : Json} (h : v.Plain) :
    ∀ c ∈ v.text.head?, endsWord c = false := by
  intro c hc
  cases v with
  | bool b =>
    cases b with
    | false => cases hc
    | true =>
      cases hc
      rfl
  | number n =>
    have htext : (Json.number n).text = decimalInt n.value := write_of_fits h
    rw [htext] at hc
    exact (isLiteral_of_mem_decimalInt (List.mem_of_mem_head? hc)).2
  | null =>
    cases hc
    rfl
  | string s =>
    cases hc
    rfl
  | array values => exact h.elim
  | object map => exact h.elim

-- ====================
-- The script
-- ====================

theorem value_array {values : List Json} (h : ∀ v ∈ values, v.Plain) (s : Bytes) :
    value (ascii "-a ") (ascii "(" ++ (values.flatMap fun v => v.text ++ ascii " ") ++ ascii ")" ++
      10 :: s) = some (shellValue (.array values), 10 :: s) := by
  have happend : ascii "(" ++ (values.flatMap fun v => v.text ++ ascii " ") ++ ascii ")" ++ 10 :: s =
      ascii "(" ++ ((values.flatMap fun v => v.text ++ ascii " ") ++ 41 :: 10 :: s) := by
    simp only [List.append_assoc]
    rfl
  have hlen : (values.flatMap fun v => v.text ++ ascii " ").length <
      ((values.flatMap fun v => v.text ++ ascii " ") ++ 41 :: 10 :: s).length := by
    rw [List.length_append]
    exact Nat.lt_add_of_pos_right (Nat.succ_pos _)
  have hitems : items (word endsWord false)
      ((values.flatMap fun v => v.text ++ ascii " ") ++ 41 :: 10 :: s).length
      ((values.flatMap fun v => v.text ++ ascii " ") ++ 41 :: 10 :: s) =
        some ((values.filter fun v => v.text ≠ []).map Json.shellText, 10 :: s) :=
    items_flatMap (10 :: s) (fun v hv _ =>
      ⟨endsWord_head_text (h v hv), fun s => denotes_text (h v hv) _ (stops_cons rfl s)⟩) hlen
  have hfilter : values.filter (fun v => v.text ≠ []) = values.filter fun v => !v.isFalse := by
    refine List.filter_congr fun v hv => ?_
    rw [Bool.eq_iff_iff, decide_eq_true_iff, Bool.not_eq_true', ← Bool.not_eq_true, not_iff_not]
    exact text_eq_nil_iff (h v hv)
  rw [happend, value, if_pos rfl, stripPrefix_append]
  simp only [Option.bind_eq_bind, Option.bind_some, hitems, hfilter]
  rfl

/-- How an entry of an object is written. -/
def entryText (e : Bytes × Json) : Bytes :=
  ascii "[" ++ shellEscapedSingleQuoted e.1 ++ ascii "]=" ++ e.2.text

theorem value_object {map : List (Bytes × Json)}
    (h : ∀ e ∈ map, e.1 ≠ [] ∧ 0 ∉ e.1 ∧ e.2.Plain) (s : Bytes) :
    value (ascii "-A ") (ascii "(" ++ (map.flatMap fun e => entryText e ++ ascii " ") ++ ascii ")" ++
      10 :: s) = some (shellValue (.object map), 10 :: s) := by
  have happend : ascii "(" ++ (map.flatMap fun e => entryText e ++ ascii " ") ++ ascii ")" ++ 10 :: s =
      ascii "(" ++ ((map.flatMap fun e => entryText e ++ ascii " ") ++ 41 :: 10 :: s) := by
    simp only [List.append_assoc]
    rfl
  have hlen : (map.flatMap fun e => entryText e ++ ascii " ").length <
      ((map.flatMap fun e => entryText e ++ ascii " ") ++ 41 :: 10 :: s).length := by
    rw [List.length_append]
    exact Nat.lt_add_of_pos_right (Nat.succ_pos _)
  have hentry : ∀ e ∈ map, entryText e ≠ [] → (∀ c ∈ (entryText e).head?, endsWord c = false) ∧
      ∀ s, subscripted (entryText e ++ 32 :: s) = some ((e.1, e.2.shellText), 32 :: s) := by
    intro e he _
    obtain ⟨hne, -, hplain⟩ := h e he
    refine ⟨fun c hc => ?_, fun s => ?_⟩
    · cases hc
      rfl
    · exact subscripted_of_denotes (denotes_shellEscapedSingleQuoted e.1) hne (denotes_text hplain)
        (stops_cons rfl s)
  have hitems : items subscripted
      ((map.flatMap fun e => entryText e ++ ascii " ") ++ 41 :: 10 :: s).length
      ((map.flatMap fun e => entryText e ++ ascii " ") ++ 41 :: 10 :: s) =
        some ((map.filter fun e => entryText e ≠ []).map fun e => (e.1, e.2.shellText), 10 :: s) :=
    items_flatMap (10 :: s) hentry hlen
  have hfilter : map.filter (fun e => entryText e ≠ []) = map :=
    List.filter_eq_self.mpr fun e _ => decide_eq_true (List.cons_ne_nil _ _)
  rw [happend, value, if_neg (by decide), if_pos rfl, stripPrefix_append]
  simp only [Option.bind_eq_bind, Option.bind_some, hitems, hfilter]
  rfl

theorem value_simple {v : Json} (h : v.Plain) (s : Bytes) :
    value [] (v.text ++ 10 :: s) = some (.scalar v.shellText, 10 :: s) := by
  rw [value, if_neg (by decide), if_neg (by decide), denotes_text h _ (stops_cons rfl s)]
  rfl

/-- The line of an attribute is read as one statement. -/
theorem statement_declaration {k : Bytes} (hk : isValidShVarName k = true) {v : Json}
    (h : v.Declarable) (s : Bytes) :
    statement (declaration k v ++ s) = some ((k, shellValue v), s) := by
  have hsimple : v.Plain → declaration k v = ascii "declare " ++ k ++ ascii "=" ++ v.text ++
      ascii "\n" → shellValue v = .scalar v.shellText →
      statement (declaration k v ++ s) = some ((k, shellValue v), s) := by
    intro hplain hdeclaration hvalue
    have hread := statement_append (.inl rfl) hk (value_simple hplain) s
    rw [hdeclaration, hvalue, ← hread]
    simp only [List.append_assoc, List.append_nil]
    rfl
  cases v with
  | array values =>
    rw [← statement_append (.inr (.inl rfl)) hk (value_array h) s, declaration]
    simp only [List.append_assoc]
    rfl
  | object map =>
    rw [← statement_append (.inr (.inr rfl)) hk (value_object h) s, declaration]
    simp only [entryText, List.append_assoc]
    rfl
  | null => exact hsimple h rfl rfl
  | bool b => exact hsimple h rfl rfl
  | number n => exact hsimple h rfl rfl
  | string s => exact hsimple h rfl rfl

theorem zero_notMem_shellEscapedSingleQuoted {s : Bytes} (h : 0 ∉ s) :
    0 ∉ shellEscapedSingleQuoted s := by
  have hbody : 0 ∉ s.flatMap fun c => if c = 39 then ascii "'\\''" else [c] := by
    intro hmem
    obtain ⟨c, hc, hzero⟩ := List.mem_flatMap.mp hmem
    split at hzero
    · exact absurd hzero (by decide)
    · rw [List.mem_singleton.mp hzero] at h
      exact h hc
  simp [shellEscapedSingleQuoted, hbody]

theorem zero_notMem_text {v : Json} (h : v.Plain) : 0 ∉ v.text := by
  cases v with
  | null => decide
  | bool b => cases b <;> decide
  | number n =>
    have htext : (Json.number n).text = decimalInt n.value := write_of_fits h
    rw [htext]
    intro hzero
    exact absurd (isLiteral_of_mem_decimalInt hzero).1 (by decide)
  | string s => exact zero_notMem_shellEscapedSingleQuoted h
  | array values => exact h.elim
  | object map => exact h.elim

theorem zero_notMem_name {k : Bytes} (h : isValidShVarName k = true) : 0 ∉ k := by
  intro hmem
  cases k with
  | nil => cases hmem
  | cons c s =>
    obtain ⟨hc, hs⟩ := Bool.and_eq_true_iff.mp h
    obtain rfl | hmem := List.mem_cons.mp hmem
    · cases hc
    · cases List.all_eq_true.mp hs 0 hmem

theorem zero_notMem_declaration {k : Bytes} (hk : isValidShVarName k = true) {v : Json}
    (h : v.Declarable) : 0 ∉ declaration k v := by
  have hname := zero_notMem_name hk
  have hlit : 0 ∉ ascii "declare " ∧ 0 ∉ ascii "declare -a " ∧ 0 ∉ ascii "declare -A " ∧
      0 ∉ ascii "=(" ∧ 0 ∉ ascii ")\n" ∧ 0 ∉ ascii "[" ∧ 0 ∉ ascii "]=" ∧ 0 ∉ ascii " " ∧
      0 ∉ ascii "=" ∧ 0 ∉ ascii "\n" := by decide
  have hsimple : v.Plain → 0 ∉ ascii "declare " ++ k ++ ascii "=" ++ v.text ++ ascii "\n" := by
    intro hplain
    simp [hname, zero_notMem_text hplain, hlit]
  cases v with
  | array values =>
    have helements : 0 ∉ values.flatMap fun v => v.text ++ ascii " " := by
      intro hmem
      obtain ⟨v, hv, hzero⟩ := List.mem_flatMap.mp hmem
      obtain hzero | hzero := List.mem_append.mp hzero
      · exact zero_notMem_text (h v hv) hzero
      · exact absurd hzero (by decide)
    simp [declaration, hname, helements, hlit]
  | object map =>
    have hentries : ∀ k v, (k, v) ∈ map → 0 ∉ shellEscapedSingleQuoted k ∧ 0 ∉ v.text := by
      intro k v he
      obtain ⟨-, hkey, hplain⟩ := h (k, v) he
      exact ⟨zero_notMem_shellEscapedSingleQuoted hkey, zero_notMem_text hplain⟩
    simpa [declaration, hname, hlit] using hentries
  | null => exact hsimple h
  | bool b => exact hsimple h
  | number n => exact hsimple h
  | string s => exact hsimple h

/-- The shell undoes the quoting of a string. If a shell can hold all attributes with the names of
    variables, the script is written, and a shell that reads it declares these attributes, in their
    order and with their values, and nothing else. -/
theorem declares_attrs :
    (∀ s, unquote (shellEscapedSingleQuoted s) = some s) ∧
      ∀ map : List (Bytes × Json),
        (∀ e ∈ map, isValidShVarName e.1 = true → e.2.Declarable) →
          ∃ out, writeAttrsShFile map = some out ∧
            readScript out = some ((map.filter fun e => isValidShVarName e.1).map fun e =>
              (e.1, shellValue e.2)) := by
  refine ⟨fun s => (denotes_shellEscapedSingleQuoted s).unquote, fun map h => ?_⟩
  refine ⟨script map, writeAttrsShFile_of_checked fun e he hk =>
    checked_of_good (good_of_declarable (h e he hk)), ?_⟩
  have hscript : script map = (map.filter fun e => isValidShVarName e.1).flatMap fun e =>
      declaration e.1 e.2 := by
    induction map with
    | nil => rfl
    | cons e map ih =>
      obtain ⟨k, v⟩ := e
      obtain ⟨he, hmap⟩ := List.forall_mem_cons.mp h
      rw [script_cons, ih hmap]
      cases hk : isValidShVarName k with
      | false =>
        rw [if_neg fun hand => Bool.false_ne_true hand.1, List.nil_append,
          List.filter_cons_of_neg (by simp [hk])]
      | true =>
        rw [if_pos ⟨rfl, good_of_declarable (he hk)⟩, List.filter_cons_of_pos (by simp [hk])]
        rfl
  rw [hscript]
  refine readScript_flatMap fun e he => ?_
  obtain ⟨hmem, hk⟩ := List.mem_filter.mp he
  exact ⟨zero_notMem_declaration hk (h e hmem hk),
    fun s => statement_declaration hk (h e hmem hk) s⟩

/-- A string with a quote, and a key that is no name. -/
theorem declares_attrs_quote :
    ∃ out, writeAttrsShFile [(ascii "k", .string (ascii "it's")), (ascii "a b", .null)] = some out ∧
      readScript out = some [(ascii "k", .scalar (ascii "it's"))] := by
  refine declares_attrs.2 [(ascii "k", .string (ascii "it's")), (ascii "a b", .null)] ?_
  intro e he _
  obtain rfl | he := List.mem_cons.mp he
  · exact show 0 ∉ ascii "it's" by decide
  · obtain rfl := List.mem_singleton.mp he
    exact trivial

/-- A `false` in an array is not read, an entry with the empty key is not one of an array of the
    shell, and a null byte is not one of a script. -/
theorem readScript_false :
    (∃ out, writeAttrsShFile [(ascii "k", .array [.bool false])] = some out ∧
        readScript out = some [(ascii "k", .array [])]) ∧
      (∃ out, writeAttrsShFile [(ascii "k", .object [([], .bool true)])] = some out ∧
        readScript out = none) ∧
      ∃ out, writeAttrsShFile [(ascii "k", .string [0])] = some out ∧ readScript out = none := by
  refine ⟨⟨_, rfl, ?_⟩, ⟨_, rfl, ?_⟩, ⟨_, rfl, ?_⟩⟩
  all_goals decide +kernel

end Snix.StructuredAttrs
