import Snix.Lib.Bytes
import Snix.Lib.HashMap

/-!
# Nix strings

A string is its bytes and its context, the set of things it depends on. Strings are
compared, hashed and ordered by their bytes.

## Main definitions

- `NixContextElement` — one dependency
- `NixString` — the strings
-/

namespace Snix.Eval

inductive NixContextElement where
  /-- A plain store path. -/
  | plain (path : Bytes)
  /-- One output of a derivation. -/
  | single (name derivation : Bytes)
  /-- A complete derivation. -/
  | derivation (path : Bytes)
  deriving DecidableEq

/-- A set of dependencies, in the order an iteration meets them. -/
abbrev NixContext := List NixContextElement

/-- A string. No context and an empty one are the same. -/
structure NixString where
  contents : Bytes
  context : NixContext
  deriving DecidableEq

namespace NixString

/-- A string without a context. -/
def plain (contents : Bytes) : NixString := ⟨contents, []⟩

def hasContext (s : NixString) : Bool := !s.context.isEmpty

instance : Borrow NixString Bytes := ⟨contents⟩

/-- Equality of strings. -/
def eq (s t : NixString) : Bool := decide (s.contents = t.contents)

def cmp (s t : NixString) : Ordering := compare s.contents t.contents

end NixString

end Snix.Eval
