import Snix.Lib.Text
import Mathlib.Algebra.Order.Floor.Ring
import Mathlib.Data.Rat.Floor

/-!
# Structured attributes

The shell script that declares the attributes of a derivation. An attribute is written if it is a
simple value, an array of these or an object of these, and skipped otherwise. Whether an element of
an array is simple may only be asked of elements that are no arrays and no objects.

## Main definitions

- `Json` — the attributes
- `writeAttrsShFile` — the script, if writing it does not panic
- `Good` — the attributes that can be declared
- `Checked` — a bad number is found before anything that is not simple

## Main results

- `writeAttrsShFile_eq_some_iff` — when the script is written, with all that can be declared
-/

namespace Snix.StructuredAttrs

/-- A number, as one of the three kinds of the library. A float is finite, and stands for its
    value. -/
inductive Number where
  | posInt (n : UInt64)
  | negInt (i : Int64)
  | float (f : ℚ)
  deriving DecidableEq

/-- An object has its entries in the order in which they are visited. -/
inductive Json where
  | null
  | bool (b : Bool)
  | number (n : Number)
  | string (s : Bytes)
  | array (values : List Json)
  | object (map : List (Bytes × Json))

-- ====================
-- The script
-- ====================

def isLetter (c : UInt8) : Bool := (65 ≤ c && c ≤ 90) || (97 ≤ c && c ≤ 122) || c = 95

def isDigit (c : UInt8) : Bool := 48 ≤ c && c ≤ 57

/-- Is this the name of a variable of the shell? -/
def isValidShVarName : Bytes → Bool
  | [] => false
  | c :: s => isLetter c && s.all fun c => isLetter c || isDigit c

/-- The text in single quotes. A quote is the only byte that is escaped. -/
def shellEscapedSingleQuoted (s : Bytes) : Bytes :=
  39 :: (s.flatMap fun c => if c = 39 then ascii "'\\''" else [c]) ++ [39]

/-- Floats are good if they are integers. The integers of 64 bits are good before they are looked at
    as floats. -/
def Number.isGood : Number → Bool
  | .posInt _ => true
  | .negInt _ => true
  | .float f => (⌈f⌉ : ℚ) = f

/-- Can the value be written? There is a panic if it is an array or an object. -/
def isGoodSimpleValue : Json → Option Bool
  | .null => some true
  | .bool _ => some true
  | .string _ => some true
  | .number n => some n.isGood
  | .array _ => none
  | .object _ => none

/-- A cast from a float that is an integer, which ends at the bounds. -/
def toI64 (i : ℤ) : ℤ := max (-2 ^ 63) (min i (2 ^ 63 - 1))

def decimalInt : ℤ → Bytes
  | .ofNat n => decimal n
  | .negSucc n => 45 :: decimal (n + 1)

def Number.write : Number → Bytes
  | .posInt n => decimal n.toNat
  | .negInt i => decimalInt i.toInt
  | .float f => decimalInt (toI64 ⌈f⌉)

def writeSimpleType : Json → Option Bytes
  | .null => some (ascii "''")
  | .bool b => some (if b then ascii "1" else [])
  | .number n => some n.write
  | .string s => some (shellEscapedSingleQuoted s)
  | .array _ => none
  | .object _ => none

/-- Is there a bad value? No value after it is looked at. -/
def anyBad : List Json → Option Bool
  | [] => some false
  | v :: values => do if ← isGoodSimpleValue v then anyBad values else some true

def writeElements : List Json → Option Bytes
  | [] => some []
  | v :: values => do
    let val ← writeSimpleType v
    let rest ← writeElements values
    some (val ++ ascii " " ++ rest)

/-- Is the value an array, an object or bad? Nothing is asked of the first two. -/
def isComplexOrBad : Json → Option Bool
  | .array _ => some true
  | .object _ => some true
  | v => (isGoodSimpleValue v).map not

def anyComplexOrBad : List (Bytes × Json) → Option Bool
  | [] => some false
  | (_, v) :: map => do if ← isComplexOrBad v then some true else anyComplexOrBad map

def writeEntries : List (Bytes × Json) → Option Bytes
  | [] => some []
  | (k, v) :: map => do
    let val ← writeSimpleType v
    let rest ← writeEntries map
    some (ascii "[" ++ shellEscapedSingleQuoted k ++ ascii "]=" ++ val ++ ascii " " ++ rest)

/-- The line of an attribute. -/
def writeAttr (k : Bytes) (v : Json) : Option Bytes :=
  if !isValidShVarName k then some []
  else match v with
    | .array values => do
      if ← anyBad values then some []
      else do
        let elements ← writeElements values
        some (ascii "declare -a " ++ k ++ ascii "=(" ++ elements ++ ascii ")\n")
    | .object map => do
      if ← anyComplexOrBad map then some []
      else do
        let entries ← writeEntries map
        some (ascii "declare -A " ++ k ++ ascii "=(" ++ entries ++ ascii ")\n")
    | .number n =>
      if !n.isGood then some []
      else some (ascii "declare " ++ k ++ ascii "=" ++ n.write ++ ascii "\n")
    | v => do
      let val ← writeSimpleType v
      some (ascii "declare " ++ k ++ ascii "=" ++ val ++ ascii "\n")

/-- The script, or nothing if there is a panic. -/
def writeAttrsShFile : List (Bytes × Json) → Option Bytes
  | [] => some []
  | (k, v) :: map => do
    let line ← writeAttr k v
    let rest ← writeAttrsShFile map
    some (line ++ rest)

-- ====================
-- What is written
-- ====================

/-- Neither an array nor an object, nor a float that is no integer. -/
def Json.Simple (v : Json) : Prop := isGoodSimpleValue v = some true

instance (v : Json) : Decidable v.Simple := inferInstanceAs (Decidable (_ = _))

/-- The attributes that can be declared: simple values, arrays of these, and objects of these. -/
def Json.Good : Json → Prop
  | .array values => ∀ v ∈ values, v.Simple
  | .object map => ∀ e ∈ map, e.2.Simple
  | v => v.Simple

instance : DecidablePred Json.Good := fun v => by
  cases v <;> unfold Json.Good <;> infer_instance

/-- How a simple value is written. -/
def Json.text (v : Json) : Bytes := (writeSimpleType v).getD []

/-- How an attribute that can be declared is written. -/
def declaration (k : Bytes) : Json → Bytes
  | .array values =>
    ascii "declare -a " ++ k ++ ascii "=(" ++ (values.flatMap fun v => v.text ++ ascii " ") ++
      ascii ")\n"
  | .object map =>
    ascii "declare -A " ++ k ++ ascii "=(" ++ (map.flatMap fun e =>
      ascii "[" ++ shellEscapedSingleQuoted e.1 ++ ascii "]=" ++ e.2.text ++ ascii " ") ++
      ascii ")\n"
  | v => ascii "declare " ++ k ++ ascii "=" ++ v.text ++ ascii "\n"

/-- The script that declares all attributes that can be declared, and no others. -/
def script (map : List (Bytes × Json)) : Bytes :=
  map.flatMap fun e => if isValidShVarName e.1 ∧ e.2.Good then declaration e.1 e.2 else []

/-- In an array, a number that is no integer comes before anything that is an array or an object. -/
def Json.Checked : Json → Prop
  | .array values => ∀ front v back, values = front ++ v :: back → isGoodSimpleValue v = none →
      ∃ w ∈ front, isGoodSimpleValue w = some false
  | _ => True

theorem writeSimpleType_eq_text {v : Json} (h : v.Simple) : writeSimpleType v = some v.text := by
  cases v with
  | array values => cases h
  | object map => cases h
  | _ => rfl

theorem writeElements_eq {values : List Json} (h : ∀ v ∈ values, v.Simple) :
    writeElements values = some (values.flatMap fun v => v.text ++ ascii " ") := by
  induction values with
  | nil => rfl
  | cons v values ih =>
    obtain ⟨hv, hvalues⟩ := List.forall_mem_cons.mp h
    rw [writeElements, writeSimpleType_eq_text hv, ih hvalues]
    rfl

theorem writeEntries_eq {map : List (Bytes × Json)} (h : ∀ e ∈ map, e.2.Simple) :
    writeEntries map = some (map.flatMap fun e =>
      ascii "[" ++ shellEscapedSingleQuoted e.1 ++ ascii "]=" ++ e.2.text ++ ascii " ") := by
  induction map with
  | nil => rfl
  | cons e map ih =>
    obtain ⟨hv, hmap⟩ := List.forall_mem_cons.mp h
    obtain ⟨k, v⟩ := e
    rw [writeEntries, writeSimpleType_eq_text hv, ih hmap]
    rfl

/-- The three ways in which looking for a bad value ends. -/
theorem anyBad_cases (values : List Json) :
    (anyBad values = some false ∧ ∀ v ∈ values, v.Simple) ∨
      (anyBad values = some true ∧ (¬∀ v ∈ values, v.Simple) ∧ (Json.array values).Checked) ∨
      (anyBad values = none ∧ ¬(Json.array values).Checked) := by
  induction values with
  | nil => exact .inl ⟨rfl, List.forall_mem_nil _⟩
  | cons v values ih =>
    rw [anyBad]
    cases hv : isGoodSimpleValue v with
    | none =>
      refine .inr (.inr ⟨rfl, fun hchecked => ?_⟩)
      obtain ⟨w, hw, -⟩ := hchecked [] v values rfl hv
      cases hw
    | some good =>
      cases good with
      | false =>
        refine .inr (.inl ⟨rfl, fun hall => ?_, fun front w back heq hw => ?_⟩)
        · have hsimple : isGoodSimpleValue v = some true := hall v List.mem_cons_self
          rw [hv] at hsimple
          cases hsimple
        · cases front with
          | nil =>
            cases heq
            rw [hv] at hw
            cases hw
          | cons x front =>
            cases heq
            exact ⟨v, List.mem_cons_self, hv⟩
      | true =>
        have hrest : (do if ← some true then anyBad values else some true) = anyBad values := rfl
        have hchecked : (Json.array (v :: values)).Checked ↔ (Json.array values).Checked := by
          constructor
          · intro h front w back heq hw
            obtain ⟨x, hx, hbad⟩ := h (v :: front) w back (by rw [heq]; rfl) hw
            obtain rfl | hx := List.mem_cons.mp hx
            · rw [hv] at hbad
              cases hbad
            · exact ⟨x, hx, hbad⟩
          · intro h front w back heq hw
            cases front with
            | nil =>
              cases heq
              rw [hv] at hw
              cases hw
            | cons y front =>
              cases heq
              obtain ⟨x, hx, hbad⟩ := h front w back rfl hw
              exact ⟨x, List.mem_cons_of_mem _ hx, hbad⟩
        rw [hrest, List.forall_mem_cons, and_iff_right (show v.Simple from hv), hchecked]
        exact ih

theorem anyComplexOrBad_cases (map : List (Bytes × Json)) :
    (anyComplexOrBad map = some false ∧ ∀ e ∈ map, e.2.Simple) ∨
      (anyComplexOrBad map = some true ∧ ¬∀ e ∈ map, e.2.Simple) := by
  induction map with
  | nil => exact .inl ⟨rfl, List.forall_mem_nil _⟩
  | cons e map ih =>
    obtain ⟨k, v⟩ := e
    have hvalue : (isComplexOrBad v = some true ∧ ¬v.Simple) ∨
        (isComplexOrBad v = some false ∧ v.Simple) := by
      cases v with
      | number n =>
        cases hn : n.isGood with
        | false => exact .inl ⟨by simp [isComplexOrBad, isGoodSimpleValue, hn], by
            simp [Json.Simple, isGoodSimpleValue, hn]⟩
        | true => exact .inr ⟨by simp [isComplexOrBad, isGoodSimpleValue, hn], by
            simp [Json.Simple, isGoodSimpleValue, hn]⟩
      | array values => exact .inl ⟨rfl, nofun⟩
      | object map => exact .inl ⟨rfl, nofun⟩
      | _ => exact .inr ⟨rfl, rfl⟩
    rw [anyComplexOrBad]
    obtain ⟨hcomplex, hsimple⟩ | ⟨hgood, hsimple⟩ := hvalue
    · rw [hcomplex]
      exact .inr ⟨rfl, fun hall => hsimple (hall _ List.mem_cons_self)⟩
    · rw [hgood, List.forall_mem_cons, and_iff_right hsimple]
      exact ih

/-- The line of an attribute is written unless the elements of an array are not checked. -/
theorem writeAttr_eq {k : Bytes} (hk : isValidShVarName k = true) {v : Json} (h : v.Checked) :
    writeAttr k v = some (if v.Good then declaration k v else []) := by
  have hvalid : (!isValidShVarName k) = false := by rw [hk]; rfl
  cases v with
  | array values =>
    obtain ⟨hbad, hall⟩ | ⟨hbad, hall, -⟩ | ⟨-, hchecked⟩ := anyBad_cases values
    · simp only [writeAttr, hvalid, hbad, writeElements_eq hall]
      exact congrArg some (if_pos (c := (Json.array values).Good) hall).symm
    · simp only [writeAttr, hvalid, hbad]
      exact congrArg some (if_neg (c := (Json.array values).Good) hall).symm
    · exact absurd h hchecked
  | object map =>
    obtain ⟨hbad, hall⟩ | ⟨hbad, hall⟩ := anyComplexOrBad_cases map
    · simp only [writeAttr, hvalid, hbad, writeEntries_eq hall]
      exact congrArg some (if_pos (c := (Json.object map).Good) hall).symm
    · simp only [writeAttr, hvalid, hbad]
      exact congrArg some (if_neg (c := (Json.object map).Good) hall).symm
  | number n =>
    have hgood : (Json.number n).Good ↔ n.isGood = true := by
      simp [Json.Good, Json.Simple, isGoodSimpleValue]
    simp only [writeAttr, hvalid, hgood]
    cases n.isGood <;> rfl
  | null =>
    simp only [writeAttr, hvalid]
    exact congrArg some (if_pos (show Json.null.Good from rfl)).symm
  | bool b =>
    simp only [writeAttr, hvalid]
    exact congrArg some (if_pos (show (Json.bool b).Good from rfl)).symm
  | string s =>
    simp only [writeAttr, hvalid]
    exact congrArg some (if_pos (show (Json.string s).Good from rfl)).symm

theorem writeAttr_eq_none {k : Bytes} (hk : isValidShVarName k = true) {v : Json}
    (h : ¬v.Checked) : writeAttr k v = none := by
  have hvalid : (!isValidShVarName k) = false := by rw [hk]; rfl
  cases v with
  | array values =>
    obtain ⟨-, hall⟩ | ⟨-, -, hchecked⟩ | ⟨hbad, -⟩ := anyBad_cases values
    · refine absurd (fun front v back heq hv => ?_) h
      have hsimple : isGoodSimpleValue v = some true := hall v (by rw [heq]; simp)
      rw [hv] at hsimple
      cases hsimple
    · exact absurd hchecked h
    · simp only [writeAttr, hvalid, hbad]
      rfl
  | _ => exact absurd trivial h

/-- What an attribute adds to the script. -/
theorem script_cons (k : Bytes) (v : Json) (map : List (Bytes × Json)) :
    script ((k, v) :: map) =
      (if isValidShVarName k ∧ v.Good then declaration k v else []) ++ script map := rfl

theorem writeAttrsShFile_of_checked {map : List (Bytes × Json)}
    (h : ∀ e ∈ map, isValidShVarName e.1 = true → e.2.Checked) :
    writeAttrsShFile map = some (script map) := by
  induction map with
  | nil => rfl
  | cons e map ih =>
    obtain ⟨k, v⟩ := e
    obtain ⟨he, hmap⟩ := List.forall_mem_cons.mp h
    have hline : writeAttr k v =
        some (if isValidShVarName k ∧ v.Good then declaration k v else []) := by
      cases hk : isValidShVarName k with
      | false => simp [writeAttr, hk]
      | true =>
        rw [writeAttr_eq hk (he hk)]
        simp only [true_and]
    rw [writeAttrsShFile, hline, ih hmap, script_cons]
    rfl

/-- The script is written, with exactly the attributes that can be declared, exactly if in every
    array of an attribute that is not skipped by its name, a number that is no integer comes before
    anything that is an array or an object. Otherwise there is a panic. -/
theorem writeAttrsShFile_eq_some_iff (map : List (Bytes × Json)) :
    writeAttrsShFile map = some (script map) ↔
      ∀ e ∈ map, isValidShVarName e.1 = true → e.2.Checked := by
  refine ⟨fun h => ?_, writeAttrsShFile_of_checked⟩
  by_contra hnot
  have hnone : writeAttrsShFile map = none := by
    clear h
    induction map with
    | nil => exact absurd (List.forall_mem_nil _) hnot
    | cons e map ih =>
      obtain ⟨k, v⟩ := e
      rw [writeAttrsShFile]
      by_cases he : isValidShVarName k = true → v.Checked
      · rw [ih fun hmap => hnot (List.forall_mem_cons.mpr ⟨he, hmap⟩)]
        cases writeAttr k v <;> rfl
      · obtain ⟨hk, hv⟩ := Classical.not_imp.mp he
        rw [writeAttr_eq_none hk hv]
        rfl
  rw [hnone] at h
  cases h

/-- An array in an array. -/
theorem writeAttrsShFile_nested :
    writeAttrsShFile [(ascii "k", .array [.array []])] = none := by
  decide

end Snix.StructuredAttrs
