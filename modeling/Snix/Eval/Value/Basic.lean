import Snix.Eval.Value.NixString

/-!
# Values

The runtime values of the language, and the errors an evaluation ends with. Thunks
and functions are pointers: what a thunk holds changes while an evaluation runs.

## Main definitions

- `AttrsRep` — the representations of an attribute set
- `Value` — the values
- `CatchableErrorKind`, `ErrorKind` — errors that `tryEval` sees, and the others
- `Vm` — what the machine answers when it is asked to force, to call or to import
-/

namespace Snix.Eval

/-- The representations of an attribute set. -/
inductive AttrsRep (V : Type) where
  | empty
  | map (m : List (NixString × V))
  /-- Two attributes, called `name` and `value`. -/
  | kv (name value : V)
  deriving DecidableEq

/-- Errors that `tryEval` sees. -/
inductive CatchableErrorKind where
  | throw (message : NixString)
  | assertionFailed
  | unimplementedFeature (feature : Bytes)
  | nixPathResolution (path : Bytes)
  deriving DecidableEq

/-- The runtime values. -/
inductive Value where
  | null
  | bool (b : Bool)
  | integer (i : Int)
  | float (f : Float)
  | string (s : NixString)
  | path (p : Bytes)
  | attrs (a : AttrsRep Value)
  | list (l : List Value)
  | closure (pointer : ℕ)
  | builtin (pointer : ℕ)
  | thunk (pointer : ℕ)
  -- values that the language does not show
  | attrNotFound
  | blueprint (pointer : ℕ)
  | deferredUpvalue (idx : ℕ)
  | unresolvedPath (p : Bytes)
  | finaliseRequest (b : Bool)
  | catchable (e : CatchableErrorKind)

/-- A range of a source file. -/
structure Span where
  low : ℕ
  high : ℕ
  deriving DecidableEq

/-- What is coerced to a string: also what is not written as one, and paths by what they are
    imported as. -/
structure CoercionKind where
  strong : Bool
  importPaths : Bool
  deriving DecidableEq

/-- Errors that end an evaluation. -/
inductive ErrorKind where
  | divisionByZero
  | duplicateAttrsKey (key : NixString)
  | invalidAttributeName (name : Value)
  | attributeNotFound (name : Bytes)
  | typeError (expected actual : String)
  | incomparable (lhs rhs : String)
  | notCoercibleToString (type : String) (kind : CoercionKind)
  /-- Where a thunk that is being evaluated was forced, where it was suspended, and its code. -/
  | infiniteRecursion (firstForce : Span) (suspendedAt contentSpan : Option Span)
  | utf8
  | invalidRegex (pattern : Bytes)
  | jsonError (message : String)
  | notSerialisableToJson (type : String)
  | snixBug (message : String)
  /-- An error that `tryEval` sees, on its way out of native code. -/
  | catchableError (e : CatchableErrorKind)
  /-- An error with a note on what was being done. -/
  | withContext (note : String) (underlying : ErrorKind)

namespace Value

def typeOf : Value → String
  | .null => "null"
  | .bool _ => "bool"
  | .integer _ => "int"
  | .float _ => "float"
  | .string _ => "string"
  | .path _ => "path"
  | .attrs _ => "set"
  | .list _ => "list"
  | .closure _ | .builtin _ => "lambda"
  | .thunk _ => "internal[thunk]"
  | .attrNotFound => "internal[attr_not_found]"
  | .blueprint _ => "internal[blueprint]"
  | .deferredUpvalue _ => "internal[deferred_upvalue]"
  | .unresolvedPath _ => "internal[unresolved_path]"
  | .finaliseRequest _ => "internal[finaliser_sentinel]"
  | .catchable _ => "internal[catchable]"

def isCatchable : Value → Bool
  | .catchable _ => true
  | _ => false

def asBool : Value → Except ErrorKind Bool
  | .bool b => .ok b
  | v => .error (.typeError "bool" v.typeOf)

def toContextfulStr : Value → Except ErrorKind NixString
  | .string s => .ok s
  | v => .error (.typeError "contextful string" v.typeOf)

def toAttrs : Value → Except ErrorKind (AttrsRep Value)
  | .attrs a => .ok a
  | v => .error (.typeError "set" v.typeOf)

def toList : Value → Except ErrorKind (List Value)
  | .list l => .ok l
  | v => .error (.typeError "list" v.typeOf)

/-- The string, which must have no context. -/
def toStr : Value → Except ErrorKind NixString
  | .string s => if s.hasContext then .error (.typeError "contextless strings" "string") else .ok s
  | v => .error (.typeError "contextless strings" v.typeOf)

end Value

/-- The text of a string that is UTF-8. -/
def NixString.asStr (s : NixString) : Except ErrorKind Utf8 :=
  match Utf8.ofBytes? s.contents with
  | some text => .ok text
  | none => .error .utf8

/-- Why an evaluation does not go on: an error, or a panic. -/
inductive Fault where
  | error (e : ErrorKind)
  | panic

/-- What the machine answers to the requests of native code. -/
structure Vm where
  /-- The value of a thunk. -/
  force : ℕ → Except ErrorKind Value
  /-- The path in the store that a path was imported to. -/
  pathImport : Bytes → Except ErrorKind Bytes
  call : (callable arg : Value) → Except ErrorKind Value
  /-- A float with six decimal places. -/
  formatFloat : Float → Bytes

/-- A machine that is not asked for anything. -/
def idleVm : Vm := ⟨fun _ => .ok .null, .ok, fun f _ => .ok f, fun _ => []⟩

/-- A call with several arguments. -/
def Vm.callWith (vm : Vm) (callable : Value) (args : List Value) : Except ErrorKind Value :=
  args.foldlM vm.call callable

def Value.force (vm : Vm) : Value → Except ErrorKind Value
  | .thunk a => vm.force a
  | v => .ok v

end Snix.Eval
