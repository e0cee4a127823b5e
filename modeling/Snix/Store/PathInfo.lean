import Snix.Castore.Node
import Snix.NixCompat.StorePath

/-!
# Path infos

What is known about a store path besides its contents.
-/

namespace Snix.Store

open Castore

/-- A signature of a path info, with the name of its key. -/
structure Signature where
  name : Bytes
  bytes : ByteArr 64
  deriving DecidableEq

/-- The metadata of a store path, and the node that holds its contents. -/
structure PathInfo where
  storePath : StorePath
  node : Node
  references : List StorePath
  narSize : UInt64
  narSha256 : ByteArr 32
  signatures : List Signature
  deriver : Option StorePath
  ca : Option CAHash
  deriving DecidableEq

end Snix.Store
