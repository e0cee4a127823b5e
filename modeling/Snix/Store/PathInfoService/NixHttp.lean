import Snix.Castore.Url
import Snix.NixCompat.Narinfo.Fingerprint
import Snix.NixCompat.Narinfo.Keys
import Snix.NixCompat.Narinfo.RoundTrip
import Snix.Store.Proto

/-!
# Signed path infos from a binary cache

A service signs the path infos that are put into it. A server prints what is stored as
descriptions, with a URL that holds the node of the path. A client fetches descriptions,
checks them against the keys it trusts, and gets the contents through the node in the
URL, or as an archive that is ingested.

The cryptography, the network, the rendering and the ingestion of archives are left
open.

## Main definitions

- `SigningPathInfoService.put` — signs a path info
- `genNarinfoStr` — what the server prints
- `NixHTTPPathInfoService.get` — what the client makes of what it is sent

## Main results

- `NixHTTPPathInfoService.get_authentic` — what is returned was signed
- `get_served` — what was signed and stored is returned
-/

namespace Snix.Store

open Castore
open Castore.Proto (Prost parseInfusedNarPath writeInfusedNarPath)

-- ====================
-- Signatures
-- ====================

/-- What is used of the cryptography. -/
structure Ed25519 (Secret Key : Type) where
  sign : Secret → Bytes → ByteArr SIGNATURE_LENGTH
  verifyStrict : Key → Bytes → ByteArr SIGNATURE_LENGTH → Bool

variable {Secret Key : Type} (ed25519 : Ed25519 Secret Key)

/-- Signs the fingerprint of a description. -/
def addSignature (key : SigningKey Secret) (n : NarInfo) : NarInfo :=
  { n with signatures :=
      n.signatures ++ [⟨key.name, ed25519.sign key.signingKey n.fingerprint⟩] }

/-- A signature is by the key with its name, and of the fingerprint. -/
def verify (key : VerifyingKey Key) (fingerprint : Bytes) (sig : Snix.Signature) : Bool :=
  if key.name ≠ sig.name then false
  else ed25519.verifyStrict key.verifyingKey fingerprint sig.bytes

namespace PathInfo

def toNarinfo (p : PathInfo) : NarInfo where
  flags := .empty
  storePath := p.storePath
  narHash := p.narSha256
  narSize := p.narSize.toNat
  references := p.references
  signatures := p.signatures.map fun sig => ⟨sig.name, sig.bytes⟩
  ca := p.ca
  system := none
  deriver := p.deriver
  url := []
  -- `none` is printed as itself
  compression := some (ascii "none")
  fileHash := none
  fileSize := none

/-- The path info a description is about, with the node of the contents. -/
def ofNarinfo (n : NarInfo) (node : Node) : PathInfo where
  storePath := n.storePath
  node := node
  references := n.references
  narSize := UInt64.ofNat n.narSize
  narSha256 := n.narHash
  signatures := n.signatures.map fun sig => ⟨sig.name, sig.bytes⟩
  deriver := n.deriver
  ca := n.ca

end PathInfo

namespace SigningPathInfoService

/-- Adds a signature. It panics if there is not one new signature. -/
def sign (key : SigningKey Secret) (p : PathInfo) : Option PathInfo :=
  let narInfo := addSignature ed25519 key { p.toNarinfo with signatures := [] }
  match narInfo.signatures.getLast? with
  | none => none
  | some s =>
    if narInfo.signatures.dropLast.isEmpty then
      some { p with signatures := p.signatures ++ [⟨s.name, s.bytes⟩] }
    else none

/-- Puts a path info into the inner service with a signature. -/
def put {ε τ : Type} (key : SigningKey Secret) (inner : PathInfo → τ → Except ε PathInfo × τ)
    (p : PathInfo) (s : τ) : Option (Except ε PathInfo × τ) :=
  (sign ed25519 key p).map fun p => inner p s

end SigningPathInfoService

-- ====================
-- The server
-- ====================

/-- Prints a path info as a description. The node is in its URL. -/
def genNarinfoStr (prost : Prost) (p : PathInfo) : Bytes :=
  NarInfo.display { p.toNarinfo with
    url := writeInfusedNarPath prost p.node p.narSize
    fileSize := some p.narSize.toNat }

-- ====================
-- The client
-- ====================

/-- What the client is sent, and what it makes of nodes and archives. -/
structure Remote where
  /-- The status and the text of a description. -/
  narinfo : ByteArr DIGEST_SIZE → Option (ℕ × Option Bytes)
  joinUrl : Bytes → Option Bytes
  /-- The status and the body of an archive. -/
  nar : Bytes → Option (ℕ × Bytes)
  /-- The archive of a node, if everything under it is there. -/
  render : Node → Option Bytes
  sha256 : Bytes → ByteArr 32
  /-- Ingests an archive after its decompression; returns the node, the hash and the size. -/
  ingest : Option Bytes → Bytes → Option CAHash → Option (Node × ByteArr 32 × ℕ)

structure NixHTTPPathInfoService (Key : Type) where
  trustedPublicKeys : List (VerifyingKey Key)
  forceDownloadNar : Bool

namespace NixHTTPPathInfoService

inductive Error where
  | reqwest
  | decodeBody
  | parseNarinfo (e : NarInfo.Error)
  | digestMismatch
  | noValidSignature
  | joinUrl
  | failedToRequestNar (status : ℕ)
  | unsupportedNarCompression (compression : Bytes)
  | ingestNar
  | narSizeMismatch (narinfoSize actualSize : ℕ)
  | narHashMismatch (narinfoNarSha256 actualNarSha256 : ByteArr 32)

inductive InfusedError where
  | inconsistentNarSizeInUrl
  | renderingNar
  | wrongNarSize (expected actual : ℕ)
  | wrongNarHash (expected actual : ByteArr 32)

/-- The node in the URL, if its archive is the one described. -/
def tryInfusedNarPath (prost : Prost) (remote : Remote) (n : NarInfo) :
    Except InfusedError (Option Node) :=
  match parseInfusedNarPath prost n.url with
  | none => .ok none
  | some (node, narSize) =>
    if narSize.toNat ≠ n.narSize then .error .inconsistentNarSizeInUrl
    else match remote.render node with
      | none => .error .renderingNar
      | some nar =>
        if n.narSize ≠ nar.length then .error (.wrongNarSize n.narSize nar.length)
        else if n.narHash ≠ remote.sha256 nar then
          .error (.wrongNarHash n.narHash (remote.sha256 nar))
        else .ok (some node)

def supportedCompressions : List (Option Bytes) :=
  [none, some (ascii "bzip2"), some (ascii "gzip"), some (ascii "xz"), some (ascii "zstd")]

/-- Downloads and ingests the archive. -/
def downloadNar (remote : Remote) (n : NarInfo) : Except Error Node :=
  match remote.joinUrl n.url with
  | none => .error .joinUrl
  | some url =>
    match remote.nar url with
    | none => .error .reqwest
    | some (status, body) =>
      if ¬ (200 ≤ status ∧ status < 300) then .error (.failedToRequestNar status)
      else if n.compression ∉ supportedCompressions then
        .error (.unsupportedNarCompression (n.compression.getD []))
      else match remote.ingest n.compression body n.ca with
        | none => .error .ingestNar
        | some (node, narHash, narSize) =>
          if n.narSize ≠ narSize then .error (.narSizeMismatch n.narSize narSize)
          else if n.narHash ≠ narHash then .error (.narHashMismatch n.narHash narHash)
          else .ok node

def rootNode (prost : Prost) (remote : Remote) (svc : NixHTTPPathInfoService Key) (n : NarInfo) :
    Except Error Node :=
  -- errors of the first way are only logged
  match if svc.forceDownloadNar then none
    else (tryInfusedNarPath prost remote n).toOption.join with
  | some node => .ok node
  | none => downloadNar remote n

/-- Is there a signature of a trusted key, or none asked for? -/
def trusted (svc : NixHTTPPathInfoService Key) (n : NarInfo) : Bool :=
  svc.trustedPublicKeys.isEmpty ||
    svc.trustedPublicKeys.any fun pubkey => n.signatures.any (verify ed25519 pubkey n.fingerprint)

def get (isAlphanumeric : Bytes → Bool) (prost : Prost) (remote : Remote)
    (svc : NixHTTPPathInfoService Key) (digest : ByteArr DIGEST_SIZE) :
    Except Error (Option PathInfo) :=
  match remote.narinfo digest with
  | none => .error .reqwest
  | some (status, text) =>
    if status = 404 ∨ status = 403 then .ok none
    else match text with
      | none => .error .decodeBody
      | some text =>
        match NarInfo.parse isAlphanumeric text with
        | .error e => .error (.parseNarinfo e)
        | .ok n =>
          if n.storePath.digest ≠ digest then .error .digestMismatch
          else if ¬ trusted ed25519 svc n then .error .noValidSignature
          else (rootNode prost remote svc n).map fun node => some (.ofNarinfo n node)

-- ====================
-- Sizes
-- ====================

end NixHTTPPathInfoService

section

open NarInfo

variable {isAlphanumeric : Bytes → Bool} {f f' : Fields}

/-- Only the line of the size sets it, to a number of 64 bits. -/
theorem narSize_lt_of_parseField {tag : Tag} {val : Bytes} (hf : ∀ k ∈ f.narSize, k < 2 ^ 64)
    (h : parseField isAlphanumeric f tag val = .ok f') : ∀ k ∈ f'.narSize, k < 2 ^ 64 := by
  have hmap : ∀ {α : Type} {x : Except NarInfo.Error α} {g : α → Fields},
      x.map g = .ok f' → (∀ a, (g a).narSize = f.narSize) → ∀ k ∈ f'.narSize, k < 2 ^ 64 := by
    intro α x g hx hg
    obtain ⟨a, -, rfl⟩ := map_eq_ok_iff.mp hx
    rw [hg]
    exact hf
  cases tag with
  | narSize =>
    obtain ⟨x, hx, rfl⟩ := map_eq_ok_iff.mp h
    exact parseSize_eq_ok hx
  | url => exact hmap h fun _ => rfl
  | compression => exact hmap h fun _ => rfl
  | fileHash => exact hmap h fun _ => rfl
  | fileSize => exact hmap h fun _ => rfl
  | system => exact hmap h fun _ => rfl
  | storePath =>
    simp only [parseField] at h
    split at h
    · cases h
    · split at h
      · cases h
      · exact hmap h fun _ => rfl
  | narHash =>
    simp only [parseField] at h
    split at h
    · exact hmap h fun _ => rfl
    · exact hmap h fun _ => rfl
  | references =>
    simp only [parseField] at h
    split at h
    · cases h
    · exact hmap h fun _ => rfl
  | deriver =>
    simp only [parseField] at h
    split at h
    · split at h
      · cases h
      · exact hmap h fun _ => rfl
    · split at h
      · cases h
        exact hf
      · cases h
  | sig =>
    simp only [parseField] at h
    split at h
    · cases h
    · cases h
      exact hf
  | ca =>
    simp only [parseField] at h
    split at h
    · cases h
    · exact hmap h fun _ => rfl

theorem narSize_lt_of_parseLine {line : Bytes} (hf : ∀ k ∈ f.narSize, k < 2 ^ 64)
    (h : parseLine isAlphanumeric f line = .ok f') : ∀ k ∈ f'.narSize, k < 2 ^ 64 := by
  unfold parseLine at h
  split at h
  · cases h
  · split at h
    · cases h
    · split at h
      · exact narSize_lt_of_parseField hf h
      · cases h
        exact hf

/-- The size of a description that was read has 64 bits. -/
theorem narSize_lt_of_parse {text : Bytes} {n : NarInfo}
    (h : NarInfo.parse isAlphanumeric text = .ok n) : n.narSize < 2 ^ 64 := by
  obtain ⟨f, hlines, hfinish⟩ := except_bind_eq_ok_iff.mp h
  have hf : ∀ k ∈ f.narSize, k < 2 ^ 64 := by
    have hempty : ∀ k ∈ Fields.empty.narSize, k < 2 ^ 64 := fun k hk => by cases hk
    generalize Fields.empty = f₀ at hlines hempty
    generalize lines text = ls at hlines
    induction ls generalizing f₀ with
    | nil =>
      cases hlines
      exact hempty
    | cons l ls ih =>
      rw [List.foldlM_cons] at hlines
      obtain ⟨f₁, hline, hrest⟩ := except_bind_eq_ok_iff.mp hlines
      exact ih f₁ (narSize_lt_of_parseLine hempty hline) hrest
  unfold NarInfo.finish at hfinish
  obtain ⟨storePath, -, hfinish⟩ := except_bind_eq_ok_iff.mp hfinish
  obtain ⟨narHash, -, hfinish⟩ := except_bind_eq_ok_iff.mp hfinish
  obtain ⟨narSize, hsize, hfinish⟩ := except_bind_eq_ok_iff.mp hfinish
  obtain ⟨url, -, hfinish⟩ := except_bind_eq_ok_iff.mp hfinish
  cases hfinish
  exact hf narSize (required_eq_ok_iff.mp hsize)

end

namespace NixHTTPPathInfoService

-- ====================
-- What is returned
-- ====================

variable {ed25519} {isAlphanumeric : Bytes → Bool} {prost : Prost} {remote : Remote}
  {svc : NixHTTPPathInfoService Key}

/-- The contents have the hash and the size: those of their own archive, or of one that was
    ingested. -/
def Verified (remote : Remote) (p : PathInfo) : Prop :=
  (∃ nar, remote.render p.node = some nar ∧ nar.length = p.narSize.toNat ∧
      remote.sha256 nar = p.narSha256) ∨
    ∃ compression body, remote.ingest compression body p.ca =
      some (p.node, p.narSha256, p.narSize.toNat)

theorem tryInfusedNarPath_eq_ok_some {n : NarInfo} {node : Node}
    (h : tryInfusedNarPath prost remote n = .ok (some node)) :
    ∃ nar, remote.render node = some nar ∧ nar.length = n.narSize ∧
      remote.sha256 nar = n.narHash := by
  unfold tryInfusedNarPath at h
  cases hparse : parseInfusedNarPath prost n.url with
  | none =>
    rw [hparse] at h
    cases h
  | some x =>
    obtain ⟨node', narSize⟩ := x
    simp only [hparse] at h
    split_ifs at h with hsize
    cases hrender : remote.render node' with
    | none =>
      rw [hrender] at h
      cases h
    | some nar =>
      simp only [hrender] at h
      split_ifs at h with hlen hhash
      cases h
      exact ⟨nar, hrender, (not_not.mp hlen).symm, (not_not.mp hhash).symm⟩

theorem downloadNar_eq_ok {n : NarInfo} {node : Node} (h : downloadNar remote n = .ok node) :
    ∃ body, remote.ingest n.compression body n.ca = some (node, n.narHash, n.narSize) := by
  unfold downloadNar at h
  cases hurl : remote.joinUrl n.url with
  | none =>
    rw [hurl] at h
    cases h
  | some url =>
    cases hnar : remote.nar url with
    | none =>
      simp only [hurl, hnar] at h
      cases h
    | some x =>
      obtain ⟨status, body⟩ := x
      simp only [hurl, hnar] at h
      split_ifs at h with hstatus hcompression
      cases hingest : remote.ingest n.compression body n.ca with
      | none =>
        rw [hingest] at h
        cases h
      | some x =>
        obtain ⟨node', narHash, narSize⟩ := x
        simp only [hingest] at h
        split_ifs at h with hsize hhash
        cases h
        rw [not_not] at hsize hhash
        exact ⟨body, by rw [hingest, hsize, hhash]⟩

theorem verified_of_rootNode {n : NarInfo} (hsize : n.narSize < 2 ^ 64) {node : Node}
    (h : rootNode prost remote svc n = .ok node) : Verified remote (.ofNarinfo n node) := by
  have htoNat : (UInt64.ofNat n.narSize).toNat = n.narSize := UInt64.toNat_ofNat_of_lt hsize
  unfold rootNode at h
  split at h
  · next node' hinfused =>
    cases h
    split_ifs at hinfused with hforce
    cases htry : tryInfusedNarPath prost remote n with
    | error e =>
      rw [htry] at hinfused
      cases hinfused
    | ok found =>
      rw [htry] at hinfused
      obtain rfl : found = some node := hinfused
      obtain ⟨nar, hrender, hlen, hhash⟩ := tryInfusedNarPath_eq_ok_some htry
      exact .inl ⟨nar, hrender, hlen.trans htoNat.symm, hhash⟩
  · obtain ⟨body, hingest⟩ := downloadNar_eq_ok h
    refine .inr ⟨n.compression, body, ?_⟩
    show remote.ingest n.compression body n.ca = some (node, n.narHash, (UInt64.ofNat _).toNat)
    rw [hingest, htoNat]

/-- What a description has to be to be returned. -/
theorem get_eq_ok_some {digest : ByteArr DIGEST_SIZE} {p : PathInfo}
    (h : get ed25519 isAlphanumeric prost remote svc digest = .ok (some p)) :
    ∃ n node, n.narSize < 2 ^ 64 ∧ n.storePath.digest = digest ∧
      trusted ed25519 svc n = true ∧ rootNode prost remote svc n = .ok node ∧
        p = .ofNarinfo n node := by
  unfold get at h
  cases hresponse : remote.narinfo digest with
  | none =>
    rw [hresponse] at h
    cases h
  | some x =>
    obtain ⟨status, text⟩ := x
    simp only [hresponse] at h
    by_cases hstatus : status = 404 ∨ status = 403
    · rw [if_pos hstatus] at h
      cases h
    rw [if_neg hstatus] at h
    cases text with
    | none => cases h
    | some text =>
      cases hparse : NarInfo.parse isAlphanumeric text with
      | error e =>
        simp only [hparse] at h
        cases h
      | ok n =>
        simp only [hparse] at h
        split_ifs at h with hdigest htrusted
        cases hroot : rootNode prost remote svc n with
        | error e =>
          rw [hroot] at h
          cases h
        | ok node =>
          rw [hroot] at h
          cases h
          rw [not_not] at hdigest
          exact ⟨n, node, narSize_lt_of_parse hparse, hdigest, by simpa using htrusted, hroot, rfl⟩

/-- Whatever the server sends: if every signature that a trusted key accepts was made when a path
    info was put into a service that signs, then what is returned is such a path info, as far as
    its path, hash, size and references go, and has these contents. -/
theorem get_authentic (hkeys : svc.trustedPublicKeys ≠ [])
    (puts : VerifyingKey Key → List PathInfo)
    (hunforgeable : ∀ key ∈ svc.trustedPublicKeys, ∀ m s,
      ed25519.verifyStrict key.verifyingKey m s = true →
        ∃ q ∈ puts key, m = q.toNarinfo.fingerprint)
    {digest : ByteArr DIGEST_SIZE} {p : PathInfo}
    (h : get ed25519 isAlphanumeric prost remote svc digest = .ok (some p)) :
    p.storePath.digest = digest ∧ Verified remote p ∧
      ∃ key ∈ svc.trustedPublicKeys, ∃ q ∈ puts key, q.storePath = p.storePath ∧
        q.narSha256 = p.narSha256 ∧ q.narSize = p.narSize ∧ q.references = p.references := by
  obtain ⟨n, node, hn, hdigest, htrusted, hroot, rfl⟩ := get_eq_ok_some h
  refine ⟨hdigest, verified_of_rootNode hn hroot, ?_⟩
  rw [trusted, List.isEmpty_eq_false_iff.mpr hkeys, Bool.false_or, List.any_eq_true] at htrusted
  obtain ⟨key, hkey, hany⟩ := htrusted
  obtain ⟨sig, -, hverify⟩ := List.any_eq_true.mp hany
  rw [verify] at hverify
  split_ifs at hverify with hname
  obtain ⟨q, hq, hfingerprint⟩ := hunforgeable key hkey _ _ hverify
  obtain ⟨hpath, hhash, hsize, hrefs⟩ := fingerprint_inj.mp hfingerprint.symm
  refine ⟨key, hkey, q, hq, hpath, hhash, ?_, hrefs⟩
  show q.narSize = UInt64.ofNat n.narSize
  rw [← hsize]
  exact (UInt64.ofNat_toNat).symm

end NixHTTPPathInfoService

-- ====================
-- A cache and its clients
-- ====================

/-- How messages of path infos are written and read. -/
structure Codec where
  encodeToVec : Proto.PathInfo → Bytes
  decode : Bytes → Option Proto.PathInfo

namespace RedbPathInfoService

inductive Error where
  | protobufDecode
  | pathInfoValidation (e : Proto.ValidatePathInfoError)

/-- The messages of a database. -/
abbrev Table := ByteArr DIGEST_SIZE → Option Bytes

def get (codec : Codec) (table : Table) (digest : ByteArr DIGEST_SIZE) :
    Except Error (Option PathInfo) :=
  match table digest with
  | none => .ok none
  | some bytes =>
    match codec.decode bytes with
    | none => .error .protobufDecode
    | some m => ((Proto.PathInfo.tryFrom m).mapError .pathInfoValidation).map some

def put (codec : Codec) (p : PathInfo) (table : Table) : Except Error PathInfo × Table :=
  (.ok p, Function.update table p.storePath.digest
    (some (codec.encodeToVec (Proto.PathInfo.ofPathInfo p))))

end RedbPathInfoService

section

variable {ed25519} {isAlphanumeric : Bytes → Bool} {prost : Prost} {codec : Codec}
  {remote : Remote} {svc : NixHTTPPathInfoService Key} {key : SigningKey Secret} {p : PathInfo}

/-- Puts path infos one after the other into a database, through a service that signs. -/
def putAll (ed25519 : Ed25519 Secret Key) (codec : Codec) (key : SigningKey Secret)
    (ps : List PathInfo) : RedbPathInfoService.Table :=
  ps.foldl (fun table p =>
    ((SigningPathInfoService.put ed25519 key (RedbPathInfoService.put codec) p table).map
      Prod.snd).getD table) fun _ => none

/-- What the server answers. -/
def serve (prost : Prost) (codec : Codec) (table : RedbPathInfoService.Table)
    (digest : ByteArr DIGEST_SIZE) : ℕ × Option Bytes :=
  match RedbPathInfoService.get codec table digest with
  | .error _ => (500, some [])
  | .ok none => (404, some [])
  | .ok (some p) => (200, some (genNarinfoStr prost p))

/-- The path info can be printed, and its contents are there. -/
structure Servable (isAlphanumeric : Bytes → Bool) (remote : Remote) (p : PathInfo) : Prop where
  signatures : ∀ sig ∈ p.signatures,
    NarInfo.GoodSignature isAlphanumeric ⟨sig.name, sig.bytes⟩
  node : ∀ target, p.node = .symlink target → target.val.length ≤ 4090
  contents : ∃ nar, remote.render p.node = some nar ∧ nar.length = p.narSize.toNat ∧
    remote.sha256 nar = p.narSha256

/-- The path info with one more signature. -/
def PathInfo.signed (ed25519 : Ed25519 Secret Key) (key : SigningKey Secret) (p : PathInfo) :
    PathInfo :=
  { p with signatures :=
      p.signatures ++ [⟨key.name, ed25519.sign key.signingKey p.toNarinfo.fingerprint⟩] }

/-- The message of a path info that was signed. -/
def PathInfo.stored (ed25519 : Ed25519 Secret Key) (codec : Codec) (key : SigningKey Secret)
    (p : PathInfo) : Bytes :=
  codec.encodeToVec (Proto.PathInfo.ofPathInfo (p.signed ed25519 key))

theorem put_stored (table : RedbPathInfoService.Table) :
    SigningPathInfoService.put ed25519 key (RedbPathInfoService.put codec) p table =
      some (.ok (p.signed ed25519 key),
        Function.update table p.storePath.digest (some (p.stored ed25519 codec key))) := rfl

/-- The last path info of a path is kept. -/
theorem putAll_eq (ps : List PathInfo) (digest : ByteArr DIGEST_SIZE) :
    putAll ed25519 codec key ps digest =
      (ps.reverse.find? fun p => p.storePath.digest = digest).map
        (·.stored ed25519 codec key) := by
  induction ps using List.reverseRecOn with
  | nil => rfl
  | append_singleton ps p ih =>
    rw [putAll, List.foldl_append, List.foldl_cons, List.foldl_nil, put_stored]
    show Function.update (putAll ed25519 codec key ps) _ _ digest = _
    rw [List.reverse_append, List.reverse_singleton, List.singleton_append]
    by_cases h : p.storePath.digest = digest
    · subst h
      rw [Function.update_self, List.find?_cons_of_pos (by simp)]
      rfl
    · rw [Function.update_of_ne (Ne.symm h), ih, List.find?_cons_of_neg (by simpa using h)]

/-- What was stored is read back. -/
theorem get_of_stored {table : RedbPathInfoService.Table} {digest : ByteArr DIGEST_SIZE}
    (h : table digest = some (p.stored ed25519 codec key))
    (hcodec : codec.decode (p.stored ed25519 codec key) =
      some (Proto.PathInfo.ofPathInfo (p.signed ed25519 key))) :
    RedbPathInfoService.get codec table digest = .ok (some (p.signed ed25519 key)) := by
  have hvalid := Proto.PathInfo.tryFrom_ofPathInfo_inverse.1 (p.signed ed25519 key)
  simp only [RedbPathInfoService.get, h, hcodec, hvalid]
  rfl

/-- The description of a path info, as it is read back. -/
def PathInfo.described (prost : Prost) (p : PathInfo) : NarInfo :=
  { p.toNarinfo with
    url := writeInfusedNarPath prost p.node p.narSize
    compression := none
    fileSize := some p.narSize.toNat }

theorem genNarinfoStr_eq : genNarinfoStr prost p = (p.described prost).display := rfl

theorem base64UrlDigit_ne_lineBreak :
    ∀ v < 64, base64UrlDigit v ≠ 10 ∧ base64UrlDigit v ≠ 13 := by
  decide +kernel

theorem goodText_writeInfusedNarPath (node : Node) (narSize : UInt64) :
    NarInfo.GoodText (writeInfusedNarPath prost node narSize) := by
  have hnode : Clean (Castore.Proto.urlsafeProto prost node) := by
    constructor
    · intro h
      obtain ⟨v, hv, heq⟩ := mem_base64EncodeNoPad h
      exact (base64UrlDigit_ne_lineBreak v hv).1 heq.symm
    · intro h
      obtain ⟨v, hv, heq⟩ := mem_base64EncodeNoPad h
      exact (base64UrlDigit_ne_lineBreak v hv).2 heq.symm
  have hstart : Clean (ascii "nar/snix-castore/") := by unfold Clean; decide
  have hsize : Clean (ascii "?narsize=") := by unfold Clean; decide
  refine ⟨fun h => ?_, hstart.append (hnode.append (hsize.append (clean_decimal _)))⟩
  exact absurd (List.append_eq_nil_iff.mp h).1 (by decide)

theorem printable_described (prost : Prost) (h : Servable isAlphanumeric remote p) :
    (p.described prost).Printable isAlphanumeric where
  url := goodText_writeInfusedNarPath _ _
  compression := nofun
  compressionDefault := nofun
  system := nofun
  fileSize k hk := by
    cases hk
    exact p.narSize.toNat_lt
  narSize := p.narSize.toNat_lt
  references := nofun
  signatures sig hsig := by
    obtain ⟨sig, hmem, rfl⟩ := List.mem_map.mp hsig
    exact h.signatures sig hmem

theorem servable_signed (h : Servable isAlphanumeric remote p)
    (hkey : Signature.ValidName isAlphanumeric key.name ∧ Clean key.name) :
    Servable isAlphanumeric remote (p.signed ed25519 key) where
  signatures sig hsig := by
    rcases List.mem_append.mp hsig with hsig | hsig
    · exact h.signatures sig hsig
    · obtain rfl := List.mem_singleton.mp hsig
      exact hkey
  node := h.node
  contents := h.contents

theorem rootNode_described (h : Servable isAlphanumeric remote p)
    (hforce : svc.forceDownloadNar = false) {n : NarInfo}
    (hn : { n with flags := (p.described prost).flags } = p.described prost) :
    NixHTTPPathInfoService.rootNode prost remote svc n = .ok p.node := by
  obtain ⟨nar, hrender, hlen, hhash⟩ := h.contents
  have hurl : n.url = writeInfusedNarPath prost p.node p.narSize := congrArg NarInfo.url hn
  have hsize : n.narSize = p.narSize.toNat := congrArg NarInfo.narSize hn
  have hsha : n.narHash = p.narSha256 := congrArg NarInfo.narHash hn
  have hparse : parseInfusedNarPath prost n.url = some (p.node, p.narSize) := by
    rw [hurl, Castore.Proto.parseInfusedNarPath_writeInfusedNarPath,
      Castore.Proto.parseUrlsafeProto_urlsafeProto,
      if_pos ((Castore.Proto.length_encodeToVec_le_iff prost).mpr h.node)]
    rfl
  have htry : NixHTTPPathInfoService.tryInfusedNarPath prost remote n = .ok (some p.node) := by
    simp only [NixHTTPPathInfoService.tryInfusedNarPath, hparse, hsize, hrender, hlen, hsha, hhash,
      ne_eq, not_true, if_false]
  rw [NixHTTPPathInfoService.rootNode, hforce, htry]
  rfl

theorem PathInfo.ofNarinfo_described (prost : Prost) (p : PathInfo) :
    PathInfo.ofNarinfo (p.described prost) p.node = p := by
  cases p
  simp [ofNarinfo, described, toNarinfo, Function.comp_def]

/-- The signature that was added is found by a client with the key. -/
theorem trusted_described (prost : Prost) {pubkey : VerifyingKey Key}
    (hname : pubkey.name = key.name)
    (hverify : ∀ m,
      ed25519.verifyStrict pubkey.verifyingKey m (ed25519.sign key.signingKey m) = true)
    (htrusted : pubkey ∈ svc.trustedPublicKeys) :
    NixHTTPPathInfoService.trusted ed25519 svc ((p.signed ed25519 key).described prost) = true := by
  have hmem : (⟨key.name, ed25519.sign key.signingKey p.toNarinfo.fingerprint⟩ : Snix.Signature) ∈
      ((p.signed ed25519 key).described prost).signatures :=
    List.mem_map.mpr ⟨_, List.mem_append_right _ (List.mem_singleton_self _), rfl⟩
  have hvalid : verify ed25519 pubkey ((p.signed ed25519 key).described prost).fingerprint
      ⟨key.name, ed25519.sign key.signingKey p.toNarinfo.fingerprint⟩ = true := by
    rw [verify, if_neg (not_not.mpr hname)]
    exact hverify _
  rw [NixHTTPPathInfoService.trusted, Bool.or_eq_true]
  exact .inr (List.any_eq_true.mpr ⟨pubkey, htrusted, List.any_eq_true.mpr ⟨_, hmem, hvalid⟩⟩)

/-- A description that the server printed of a path info leads to this path info. -/
theorem get_genNarinfoStr (hcolon : isAlphanumeric [58] = false)
    (hforce : svc.forceDownloadNar = false) (hp : Servable isAlphanumeric remote p)
    (htrusted : NixHTTPPathInfoService.trusted ed25519 svc (p.described prost) = true)
    {digest : ByteArr DIGEST_SIZE} (hdigest : p.storePath.digest = digest)
    (hserve : remote.narinfo digest = some (200, some (genNarinfoStr prost p))) :
    NixHTTPPathInfoService.get ed25519 isAlphanumeric prost remote svc digest = .ok (some p) := by
  obtain ⟨n, hparse, hn, -⟩ := NarInfo.parse_display hcolon (printable_described prost hp)
  have hroot := rootNode_described hp hforce hn
  have hpath : n.storePath = p.storePath := congrArg NarInfo.storePath hn
  -- the flags of the description are not looked at
  have hsigned : NixHTTPPathInfoService.trusted ed25519 svc n = true := by
    rw [← hn] at htrusted
    exact htrusted
  have hresult : PathInfo.ofNarinfo n p.node = p := by
    have hdescribed := PathInfo.ofNarinfo_described prost p
    rw [← hn] at hdescribed
    exact hdescribed
  simp only [NixHTTPPathInfoService.get, hserve, genNarinfoStr_eq, hparse]
  rw [if_neg (by decide), if_neg (not_not.mpr (by rw [hpath, hdigest])),
    if_neg (not_not.mpr hsigned), hroot]
  exact congrArg (fun p => Except.ok (some p)) hresult

/-- What is in a cache, a client that trusts its key gets back: the last path info that was put for
    a path, with the signature. -/
theorem get_served {pubkey : VerifyingKey Key} (hcolon : isAlphanumeric [58] = false)
    (hname : pubkey.name = key.name)
    (hverify : ∀ m,
      ed25519.verifyStrict pubkey.verifyingKey m (ed25519.sign key.signingKey m) = true)
    (hkeyName : Signature.ValidName isAlphanumeric key.name ∧ Clean key.name)
    (htrusted : pubkey ∈ svc.trustedPublicKeys) (hforce : svc.forceDownloadNar = false)
    {ps : List PathInfo} (hps : ∀ p ∈ ps, Servable isAlphanumeric remote p)
    (hcodec : ∀ p ∈ ps, codec.decode (p.stored ed25519 codec key) =
      some (Proto.PathInfo.ofPathInfo (p.signed ed25519 key)))
    (hserve : ∀ digest, remote.narinfo digest =
      some (serve prost codec (putAll ed25519 codec key ps) digest))
    (digest : ByteArr DIGEST_SIZE) :
    NixHTTPPathInfoService.get ed25519 isAlphanumeric prost remote svc digest =
      .ok ((ps.reverse.find? fun p => p.storePath.digest = digest).map (·.signed ed25519 key)) := by
  have htable := @putAll_eq Secret Key ed25519 codec key ps digest
  cases hfind : ps.reverse.find? fun p => p.storePath.digest = digest with
  | none =>
    rw [hfind] at htable
    rw [NixHTTPPathInfoService.get, hserve, serve, RedbPathInfoService.get, htable]
    rfl
  | some p =>
    rw [hfind] at htable
    have hfound := List.find?_some hfind
    have hmem := List.mem_reverse.mp (List.mem_of_find?_eq_some hfind)
    have hp : Servable isAlphanumeric remote (p.signed ed25519 key) :=
      servable_signed (hps p hmem) hkeyName
    refine get_genNarinfoStr hcolon hforce hp (trusted_described prost hname hverify htrusted)
      (of_decide_eq_true hfound) ?_
    rw [hserve, serve, get_of_stored htable (hcodec p hmem)]

end

-- ====================
-- A path in a cache
-- ====================

/-- A file of five bytes, with an archive of 120 bytes. -/
def onePath : PathInfo where
  storePath := ⟨List.Vector.replicate DIGEST_SIZE 0, [97], by decide +kernel⟩
  node := .file (List.Vector.replicate 32 7) 5 false
  references := []
  narSize := 120
  narSha256 := List.Vector.replicate 32 0
  signatures := []
  deriver := none
  ca := none

def oneKey : SigningKey Unit := ⟨[107], ()⟩

/-- Only the path is signed, with zeros. -/
def onlyOnePath : Ed25519 Unit Unit where
  sign _ _ := List.Vector.replicate SIGNATURE_LENGTH 0
  verifyStrict _ m _ := m = onePath.toNarinfo.fingerprint

theorem onlyOnePath_verifyStrict {key m s} :
    onlyOnePath.verifyStrict key m s = true ↔ m = onePath.toNarinfo.fingerprint := by
  simp [onlyOnePath]

/-- Everything is signed with zeros. -/
def zeros : Ed25519 Unit Unit where
  sign _ _ := List.Vector.replicate SIGNATURE_LENGTH 0
  verifyStrict _ _ s := s = List.Vector.replicate SIGNATURE_LENGTH 0

/-- The message of the path, with its name, the digest of the file and a signature. -/
def oneMessage : Bytes :=
  [0x0a, 0x4a, 0x12, 0x48, 0x0a, 0x22] ++ onePath.storePath.display ++
    [0x12, 0x20] ++ List.replicate 32 7 ++ [0x18, 0x05] ++
    [0x1a, 0x6b, 0x08, 0x78, 0x12, 0x20] ++ List.replicate 32 0 ++
    [0x1a, 0x45, 0x0a, 0x01, 0x6b, 0x12, 0x40] ++ List.replicate 64 0

/-- Only this message is read or written. -/
def oneCodec : Codec where
  encodeToVec _ := oneMessage
  decode bytes :=
    if bytes = oneMessage then some (Proto.PathInfo.ofPathInfo (onePath.signed zeros oneKey))
    else none

theorem decode_oneMessage : oneCodec.decode oneMessage =
    some (Proto.PathInfo.ofPathInfo (onePath.signed zeros oneKey)) := by
  unfold oneCodec
  generalize oneMessage = bytes
  simp

/-- An honest server, and a service that has the contents. -/
def honest (ed25519 : Ed25519 Unit Unit) : Remote where
  narinfo digest := some (serve .wire oneCodec (putAll ed25519 oneCodec oneKey [onePath]) digest)
  joinUrl _ := none
  nar _ := none
  render _ := some (List.replicate 120 0)
  sha256 _ := List.Vector.replicate 32 0
  ingest _ _ _ := none

def oneClient : NixHTTPPathInfoService Unit := ⟨[⟨[107], ()⟩], false⟩

theorem goodKey :
    Signature.ValidName NarInfo.asciiAlphanumeric oneKey.name ∧ Clean oneKey.name := by
  unfold Clean
  decide +kernel

theorem servable_onePath (ed25519 : Ed25519 Unit Unit) :
    Servable NarInfo.asciiAlphanumeric (honest ed25519) onePath where
  signatures _ h := by cases h
  node _ h := by cases h
  contents := ⟨_, rfl, by rw [List.length_replicate]; rfl, rfl⟩

theorem get_onePath :
    NixHTTPPathInfoService.get onlyOnePath NarInfo.asciiAlphanumeric .wire (honest onlyOnePath)
      oneClient onePath.storePath.digest = .ok (some (onePath.signed onlyOnePath oneKey)) := by
  refine get_genNarinfoStr (by decide) rfl (servable_signed (servable_onePath _) goodKey) ?_ rfl ?_
  · have hvalid : onlyOnePath.verifyStrict () onePath.toNarinfo.fingerprint
        (List.Vector.replicate SIGNATURE_LENGTH 0) = true := by simp [onlyOnePath]
    exact hvalid
  · show some (serve _ _ _ _) = _
    have hstored := @putAll_eq Unit Unit onlyOnePath oneCodec oneKey [onePath]
      onePath.storePath.digest
    rw [List.reverse_singleton, List.find?_cons_of_pos (by simp), Option.map_some] at hstored
    rw [serve, get_of_stored hstored decode_oneMessage]

namespace NixHTTPPathInfoService

theorem get_authentic_onePath :
    (onePath.signed onlyOnePath oneKey).storePath.digest = onePath.storePath.digest ∧
      Verified (honest onlyOnePath) (onePath.signed onlyOnePath oneKey) ∧
      ∃ key ∈ oneClient.trustedPublicKeys, ∃ q ∈ (fun _ => [onePath]) key,
        q.storePath = (onePath.signed onlyOnePath oneKey).storePath ∧
          q.narSha256 = (onePath.signed onlyOnePath oneKey).narSha256 ∧
          q.narSize = (onePath.signed onlyOnePath oneKey).narSize ∧
          q.references = (onePath.signed onlyOnePath oneKey).references :=
  get_authentic (by simp [oneClient]) (fun _ => [onePath])
    (fun _ _ m s h => ⟨onePath, List.mem_singleton_self _, onlyOnePath_verifyStrict.mp h⟩)
    get_onePath

end NixHTTPPathInfoService

theorem get_served_onePath :
    NixHTTPPathInfoService.get zeros NarInfo.asciiAlphanumeric .wire (honest zeros) oneClient
        onePath.storePath.digest =
      .ok (([onePath].reverse.find? fun p => p.storePath.digest = onePath.storePath.digest).map
        (·.signed zeros oneKey)) :=
  @get_served Unit Unit zeros NarInfo.asciiAlphanumeric .wire oneCodec (honest zeros) oneClient
    oneKey ⟨[107], ()⟩ (by decide) rfl (fun _ => by simp [zeros]) goodKey (List.mem_singleton_self _) rfl
    [onePath] (List.forall_mem_singleton.mpr (servable_onePath _))
    (List.forall_mem_singleton.mpr decode_oneMessage) (fun _ => rfl) _

end Snix.Store
