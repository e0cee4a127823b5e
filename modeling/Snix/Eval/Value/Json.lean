import Snix.Eval.Value.Compare

/-!
# JSON

Values are turned into documents, with the context of all strings in them, and documents are
turned into values. Printing a document and reading it is left to a library.

## Main definitions

- `Json` — the documents
- `SerdeJson` — how documents are printed and read
- `intoContextfulJson` — from a value to a document
- `Value.deserialize` — from a document to a value
- `builtinToJson`, `builtinFromJson` — the builtins
-/

namespace Snix.Eval

/-- The documents. -/
inductive Json where
  | null
  | bool (b : Bool)
  | integer (i : Int)
  | float (f : Float)
  | string (s : Bytes)
  | array (l : List Json)
  /-- The entries in the order of their keys, or as they were read. -/
  | object (m : List (Bytes × Json))

/-- How documents are printed and read. The errors are messages. -/
structure SerdeJson where
  toString : Json → Except String Bytes
  fromSlice : Bytes → Except String Json

/-- Numbers that are not finite are null. -/
def Json.ofFloat (f : Float) : Json := if f.isFinite then .float f else .null

-- ====================
-- Writing
-- ====================

/-- The loop over the elements of a list. -/
def jsonItems (into : Value → Option (Except Fault (Json × NixContext))) :
    List Value → List Json → NixContext → Option (Except Fault (Json × NixContext))
  | [], out, context => some (.ok (.array out, context))
  | val :: l, out, context =>
    match into val with
    | none => none
    | some (.error e) => some (.error e)
    | some (.ok (jsonItem, ctx)) => jsonItems into l (out ++ [jsonItem]) (context.extend ctx)

/-- The loop over the attributes of a set. -/
def jsonEntries (into : Value → Option (Except Fault (Json × NixContext))) :
    List (NixString × Value) → List (Bytes × Json) → NixContext →
    Option (Except Fault (Json × NixContext))
  | [], out, context => some (.ok (.object out, context))
  | (name, value) :: attrs, out, context =>
    match into value with
    | none => none
    | some (.error e) => some (.error e)
    | some (.ok (jsonValue, ctx)) =>
      match name.asStr with
      | .error e => some (.error (.error e))
      | .ok name =>
        jsonEntries into attrs (SortedMap.insertEntry compare name.val jsonValue out)
          (context.extend ctx)

/-- The string that a set with `__toString` is coerced to. -/
def jsonOfCoerced : Option (Except Fault Value) → Option (Except Fault (Json × NixContext))
  | none => none
  | some (.error e) => some (.error e)
  | some (.ok (.catchable c)) => some (.error (.error (.catchableError c)))
  | some (.ok (.string s)) =>
    match s.asStr with
    | .error e => some (.error (.error e))
    | .ok u => some (.ok (.string u.val, NixContext.extend [] s.context))
  | some (.ok _) => some (.error .panic)

def jsonAttrs (vm : Vm) (n : ℕ) (into : Value → Option (Except Fault (Json × NixContext)))
    (attrs : AttrsRep Value) : Option (Except Fault (Json × NixContext)) :=
  if (attrs.select TO_STRING.contents).isSome then
    jsonOfCoerced (coerceToString vm n ⟨false, false⟩ (.attrs attrs))
  else
    match attrs.select OUT_PATH.contents with
    | some outPath => (into outPath).map fun r => r.map fun p => (p.1, NixContext.extend [] p.2)
    | none => jsonEntries into attrs.intoIterSorted [] []

/-- A document and the context of the strings in it. None if values are nested deeper than the
    given number. -/
def intoContextfulJson (vm : Vm) : ℕ → Value → Option (Except Fault (Json × NixContext))
  | 0, _ => none
  | n + 1, self =>
    match self.force vm with
    | .error e => some (.error (.error e))
    | .ok .null => some (.ok (.null, []))
    | .ok (.bool b) => some (.ok (.bool b, []))
    | .ok (.integer i) => some (.ok (.integer i, []))
    | .ok (.float f) => some (.ok (.ofFloat f, []))
    | .ok (.string s) =>
      match s.asStr with
      | .error e => some (.error (.error e))
      | .ok u => some (.ok (.string u.val, NixContext.extend [] s.context))
    | .ok (.path p) =>
      match vm.pathImport p with
      | .error e => some (.error (.error e))
      | .ok imported =>
        let path := toStringLossy imported
        some (.ok (.string path, NixContext.append [] (.plain path)))
    | .ok (.list l) => jsonItems (intoContextfulJson vm n) l [] []
    | .ok (.attrs attrs) => jsonAttrs vm n (intoContextfulJson vm n) attrs
    | .ok (.catchable c) => some (.error (.error (.catchableError c)))
    | .ok val => some (.error (.error (.notSerialisableToJson val.typeOf)))

def builtinToJson (vm : Vm) (serde : SerdeJson) (n : ℕ) (val : Value) :
    Option (Except Fault Value) :=
  match intoContextfulJson vm n val with
  | none => none
  | some (.error (.error (.catchableError catchable))) => some (.ok (.catchable catchable))
  | some (.error e) => some (.error e)
  | some (.ok (json, context)) =>
    match serde.toString json with
    | .error message => some (.error (.error (.jsonError message)))
    | .ok jsonStr => some (.ok (.string ⟨jsonStr, context⟩))

-- ====================
-- Reading
-- ====================

/-- What is said of a document that is none of the variants of a value. -/
def untaggedMismatch : Fault :=
  .error (.jsonError "data did not match any variant of untagged enum Value")

/-- The attribute set of some keys and values. What is wrong with them is not said. -/
def visitMap (stackArray : List Value) : Except Fault Value :=
  match construct (stackArray.length / 2) stackArray with
  | some (.ok (.ok attrs)) => .ok (.attrs attrs)
  | some (.error _) => .error untaggedMismatch
  -- keys are strings
  | some (.ok (.error _)) | none => .error .panic

mutual

/-- The first variant that the document can be read as. -/
def Value.deserialize : Json → Except Fault Value
  | .null => .ok .null
  | .bool b => .ok (.bool b)
  | .integer i =>
    if -2 ^ 63 ≤ i ∧ i < 2 ^ 63 then .ok (.integer i) else .ok (.float (Float.ofInt i))
  | .float f => .ok (.float f)
  | .string s => .ok (.string (.plain s))
  | .object m => do visitMap (← deserializeEntries m)
  | .array l => do .ok (.list (← deserializeItems l))

def deserializeItems : List Json → Except Fault (List Value)
  | [] => .ok []
  | j :: l => do
    let item ← Value.deserialize j
    let items ← deserializeItems l
    .ok (item :: items)

/-- The stack of the keys and values. A key is read as a value, too. -/
def deserializeEntries : List (Bytes × Json) → Except Fault (List Value)
  | [] => .ok []
  | (key, j) :: m => do
    let value ← Value.deserialize j
    let stackArray ← deserializeEntries m
    .ok (.string (.plain key) :: value :: stackArray)

end

def builtinFromJson (serde : SerdeJson) (json : Value) : Except Fault Value :=
  match json.toStr with
  | .error e => .error (.error e)
  | .ok jsonStr =>
    match serde.fromSlice jsonStr.contents with
    | .error message => .error (.error (.jsonError message))
    | .ok j => Value.deserialize j

end Snix.Eval
