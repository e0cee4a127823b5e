import Snix.NixCompat.FlakeRef.Url

/-!
# Flake references

A flake reference is read from a URL. Its scheme says what is fetched, perhaps with the
scheme of another URL behind a plus sign; parameters come from the query. A reference is
printed as a URL again, to which the parameters are appended.

## Main definitions

- `FlakeRef` — flake references, with their parameters
- `FlakeRef.fromStr` — reading
- `FlakeRef.toUri` — printing
-/

namespace Snix

open UrlCrate

structure FileParams where
  narHash : Option Bytes := none
  rev : Option Bytes := none
  revCount : Option ℕ := none
  lastModified : Option ℕ := none
  deriving DecidableEq

structure GitParams where
  ref : Option Bytes := none
  rev : Option Bytes := none
  keytype : Option Bytes := none
  publicKey : Option Bytes := none
  publicKeys : Option (List Bytes) := none
  submodules : Bool := false
  shallow : Bool := false
  exportIgnore : Bool := false
  allRefs : Bool := false
  verifyCommit : Bool := false
  deriving DecidableEq

structure RepoHostParams where
  owner : Bytes
  repo : Bytes
  host : Option Bytes := none
  ref : Option Bytes := none
  rev : Option Bytes := none
  keytype : Option Bytes := none
  publicKey : Option Bytes := none
  publicKeys : Option (List Bytes) := none
  deriving DecidableEq

inductive FlakeRef (Url : Type) where
  | file (url : Url) (params : FileParams)
  | git (url : Url) (params : GitParams)
  | gitHub (params : RepoHostParams)
  | gitLab (params : RepoHostParams)
  | indirect (id : Bytes) (ref rev : Option Bytes)
  | mercurial (ref rev : Option Bytes)
  | path (path : Bytes) (params : FileParams)
  | sourceHut (params : RepoHostParams)
  | tarball (url : Url) (params : FileParams)
  deriving DecidableEq

inductive FlakeRefError where
  | urlParseError
  | unsupportedType (message : Bytes)
  deriving DecidableEq

/-- What is fetched. -/
inductive FetchType where
  | file
  | git
  | gitHub
  | gitLab
  | indirect
  | path
  | sourceHut
  | tarball
  deriving DecidableEq

namespace FlakeRef

-- ====================
-- Reading
-- ====================

/-- The value of a name. Of several pairs with the same name, the last one counts. -/
def lookup (pairs : List (Bytes × Bytes)) (key : Bytes) : Option Bytes :=
  (pairs.reverse.find? fun pair => pair.1 = key).map Prod.snd

def getParam (pairs : List (Bytes × Bytes)) (key : Bytes) : Option ℕ :=
  (lookup pairs key).bind parseU64

def asciiLower (c : UInt8) : UInt8 := if 65 ≤ c && c ≤ 90 then c + 32 else c

def getBoolParam (pairs : List (Bytes × Bytes)) (key : Bytes) : Bool :=
  (lookup pairs key).any fun v => v = ascii "1" || v.map asciiLower = ascii "true"

def extractCommonFileParams (pairs : List (Bytes × Bytes)) : FileParams where
  narHash := lookup pairs (ascii "narHash")
  rev := lookup pairs (ascii "rev")
  revCount := getParam pairs (ascii "revCount")
  lastModified := getParam pairs (ascii "lastModified")

def extractGitParams (pairs : List (Bytes × Bytes)) : GitParams where
  ref := lookup pairs (ascii "ref")
  rev := lookup pairs (ascii "rev")
  keytype := lookup pairs (ascii "keytype")
  publicKey := lookup pairs (ascii "publicKey")
  publicKeys := (lookup pairs (ascii "publicKeys")).map (List.splitOn 44)
  submodules := getBoolParam pairs (ascii "submodules")
  shallow := getBoolParam pairs (ascii "shallow")
  exportIgnore := getBoolParam pairs (ascii "exportIgnore")
  allRefs := getBoolParam pairs (ascii "allRefs")
  verifyCommit := getBoolParam pairs (ascii "verifyCommit")

/-- Owner and repository, and what follows them. -/
def parsePathSegments (path : Bytes) : Except FlakeRefError (Bytes × Bytes × Option Bytes) :=
  match splitOnce 47 (path.dropWhile (· = 47)) with
  | none => .error (.unsupportedType (ascii "URLs must contain owner and repo"))
  | some (owner, rest) =>
    match splitOnce 47 rest with
    | none => .ok (owner, rest, none)
    | some (repo, ref) => .ok (owner, repo, some ref)

def extractRepoParams (path : Bytes) (pairs : List (Bytes × Bytes)) :
    Except FlakeRefError RepoHostParams := do
  let (owner, repo, pathRef) ← parsePathSegments path
  if pathRef.isSome ∧ (lookup pairs (ascii "ref")).isSome then
    .error (.unsupportedType (ascii "URL contains multiple branch/tag names"))
  else
    .ok {
      owner := owner
      repo := repo
      ref := pathRef.or (lookup pairs (ascii "ref"))
      rev := lookup pairs (ascii "rev")
      host := lookup pairs (ascii "host")
      keytype := lookup pairs (ascii "keytype")
      publicKey := lookup pairs (ascii "publicKey")
      publicKeys := (lookup pairs (ascii "publicKeys")).map (List.splitOn 44) }

def isTarballExtension (path : Bytes) : Bool :=
  [ascii ".zip", ascii ".tar", ascii ".tgz", ascii ".tar.gz", ascii ".tar.xz", ascii ".tar.bz2",
    ascii ".tar.zst"].any fun ext => ext <:+ path

/-- What is fetched from a URL with this scheme and path, and the scheme that replaces
    it. -/
def fetchType (scheme path : Bytes) : Except FlakeRefError (FetchType × Option Bytes) :=
  match splitOnce 43 scheme with
  | some (typePart, protocol) =>
    if typePart = ascii "path" then .ok (.path, some protocol)
    else if typePart = ascii "file" then .ok (.file, some protocol)
    else if typePart = ascii "tarball" then .ok (.tarball, some protocol)
    else if typePart = ascii "git" then .ok (.git, some protocol)
    else if typePart = ascii "github" then .ok (.gitHub, some protocol)
    else if typePart = ascii "gitlab" then .ok (.gitLab, some protocol)
    else if typePart = ascii "sourcehut" then .ok (.sourceHut, some protocol)
    else if typePart = ascii "indirect" then .ok (.indirect, some protocol)
    else .error (.unsupportedType typePart)
  | none =>
    if scheme = ascii "path" then .ok (.path, none)
    else if scheme = ascii "github" then .ok (.gitHub, none)
    else if scheme = ascii "gitlab" then .ok (.gitLab, none)
    else if scheme = ascii "sourcehut" then .ok (.sourceHut, none)
    else if scheme = ascii "git" then .ok (.git, none)
    else if isTarballExtension path then .ok (.tarball, none)
    else .ok (.file, none)

section

variable {Url : Type} [UrlCrate Url]

/-- The printed URL is parsed again with the other scheme. -/
def replaceScheme (url : Url) : Option Bytes → Except FlakeRefError Url
  | none => .ok url
  | some protocol =>
    match parse (protocol ++ (asStr url).drop (scheme url).length) with
    | some url => .ok url
    | none => .error .urlParseError

def ofUrl (url : Url) : FetchType → Except FlakeRefError (FlakeRef Url)
  | .file => .ok (.file url (extractCommonFileParams (queryPairs url)))
  | .tarball => .ok (.tarball url (extractCommonFileParams (queryPairs url)))
  | .indirect =>
    .ok (.indirect (UrlCrate.path url) (lookup (queryPairs url) (ascii "ref"))
      (lookup (queryPairs url) (ascii "rev")))
  | .git => .ok (.git url (extractGitParams (queryPairs url)))
  | .path => .ok (.path (UrlCrate.path url) (extractCommonFileParams (queryPairs url)))
  | .gitHub => (extractRepoParams (UrlCrate.path url) (queryPairs url)).map .gitHub
  | .gitLab => (extractRepoParams (UrlCrate.path url) (queryPairs url)).map .gitLab
  | .sourceHut => (extractRepoParams (UrlCrate.path url) (queryPairs url)).map .sourceHut

/-- The reference a URL stands for. -/
def fromUrl (url : Url) : Except FlakeRefError (FlakeRef Url) := do
  let (type, newProtocol) ← fetchType (scheme url) (UrlCrate.path url)
  let url ← replaceScheme url newProtocol
  ofUrl url type

def fromStr (s : Bytes) : Except FlakeRefError (FlakeRef Url) :=
  match parse s with
  | none => .error .urlParseError
  | some url => fromUrl url

-- ====================
-- Printing
-- ====================

def appendParam (url : Url) (key : Bytes) : Option Bytes → Url
  | some val => appendPair key val url
  | none => url

/-- Appends those parameters that are given. -/
def appendParams (url : Url) (params : List (Bytes × Option Bytes)) : Url :=
  params.foldl (fun url param => appendParam url param.1 param.2) url

/-- A flag is given as the number one. -/
def flag (value : Bool) : Option Bytes := if value then some (ascii "1") else none

def fileParams (params : FileParams) : List (Bytes × Option Bytes) :=
  [(ascii "narHash", params.narHash), (ascii "rev", params.rev),
    (ascii "revCount", params.revCount.map decimal),
    (ascii "lastModified", params.lastModified.map decimal)]

def publicKeysParam (keys : Option (List Bytes)) : Option Bytes := keys.map [44].intercalate

def gitParams (params : GitParams) : List (Bytes × Option Bytes) :=
  [(ascii "ref", params.ref), (ascii "rev", params.rev), (ascii "keytype", params.keytype),
    (ascii "publicKey", params.publicKey), (ascii "publicKeys", publicKeysParam params.publicKeys),
    (ascii "shallow", flag params.shallow), (ascii "submodules", flag params.submodules),
    (ascii "exportIgnore", flag params.exportIgnore), (ascii "allRefs", flag params.allRefs),
    (ascii "verifyCommit", flag params.verifyCommit)]

def repoHostParams (params : RepoHostParams) : List (Bytes × Option Bytes) :=
  [(ascii "ref", params.ref), (ascii "rev", params.rev), (ascii "keytype", params.keytype),
    (ascii "publicKey", params.publicKey), (ascii "publicKeys", publicKeysParam params.publicKeys)]

def replaceHost : Option Bytes → Url → Option Url
  | some host, url => setHost host url
  | none, url => some url

/-- A repository of a forge: the owner stands where a URL has its host, and is replaced by
    the host if there is one. -/
def repoUri (scheme : Bytes) (params : RepoHostParams) : Option Url := do
  let url ← parse (withAuthority scheme (params.owner ++ 47 :: params.repo))
  let url ← replaceHost params.host url
  some (appendParams url (repoHostParams params))

/-- The reference as a URL. There is none where the program panics. -/
def toUri : FlakeRef Url → Option Url
  | .file url params => some (appendParams url (fileParams params))
  | .git url params => parse (ascii "git+" ++ asStr (appendParams url (gitParams params)))
  | .gitHub params => repoUri (ascii "github") params
  | .gitLab params => repoUri (ascii "gitlab") params
  | .sourceHut params => repoUri (ascii "sourcehut") params
  | .indirect id ref rev =>
    (parse (withAuthority (ascii "indirect") id)).map fun url =>
      appendParams url [(ascii "ref", ref), (ascii "rev", rev)]
  | .path p params =>
    (parse (withAuthority (ascii "path") p)).map fun url => appendParams url (fileParams params)
  | .tarball url params => some (appendParams url (fileParams params))
  | .mercurial ref rev =>
    (parse (withAuthority (ascii "hg") [])).map fun url =>
      appendParams url [(ascii "ref", ref), (ascii "rev", rev)]

end

end FlakeRef

end Snix
