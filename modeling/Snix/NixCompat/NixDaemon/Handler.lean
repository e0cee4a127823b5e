import Snix.Lib.Reading
import Snix.NixCompat.DerivedPath
import Snix.NixCompat.Derivation.Parser
import Snix.NixCompat.NixDaemon.FramedRead
import Snix.NixCompat.NixDaemon.PathInfo
import Snix.NixCompat.NixDaemon.StderrRead
import Snix.NixCompat.NixDaemon.WorkerProtocol

/-!
# A session of the daemon

The daemon reads requests from a connection one after the other, and answers each: with
the end of the log and a value, or with an error. Archives follow their request in
frames, and are read by what executes the request. If it does not read all of them, the
daemon answers and closes the connection.

What the requests do is left open. So are the chunks in which the bytes arrive.

## Main definitions

- `Request`, `readRequest` — requests, and how they are read
- `NixDaemonIO` — what executes requests
- `NixDaemon.handleClient` — the session
- `Sent`, `Served` — what a client sends, and what is to happen

## Main results

- `NixDaemon.handleClient_serves` — every request is executed and answered in order
- `NixDaemon.connection_serves` — the same behind the handshake
-/

set_option linter.dupNamespace false

namespace Snix.NixDaemon

open Wire
open NixSerialize (serialize)
open NixDeserialize (tryDeserialize)

-- ====================
-- Types
-- ====================

inductive BuildMode where
  | normal
  | repair
  | check
  deriving DecidableEq

inductive VerbosityLevel where
  | error
  | warn
  | notice
  | info
  | talkative
  | chatty
  | debug
  | vomit
  deriving DecidableEq

def BuildMode.tryFrom (n : ℕ) : Option BuildMode := [normal, repair, check][n]?

def VerbosityLevel.tryFrom (n : ℕ) : Option VerbosityLevel :=
  [error, warn, notice, info, talkative, chatty, debug, vomit][n]?

/-- Reads a number as a value, where there is one. -/
def readNumberAs {α : Type} (tryFrom : ℕ → Option α) : De (Option α) := do
  match ← De.tryReadNumber with
  | some n =>
    match tryFrom n with
    | some a => pure (some a)
    | none => .fail .invalidData
  | none => pure none

instance : NixDeserialize BuildMode := ⟨readNumberAs BuildMode.tryFrom⟩

instance : NixDeserialize VerbosityLevel := ⟨readNumberAs VerbosityLevel.tryFrom⟩

instance : NixDeserialize DerivedPath where
  tryDeserialize := readAs fun buf =>
    if utf8Valid buf then (LegacyDerivedPath.fromStr buf).toOption.map LegacyDerivedPath.path
    else none

instance : NixSerialize Unit := ⟨fun _ => []⟩

instance : NixSerialize (Option UnkeyedValidPathInfo) where
  serialize
    | some value => serialize true ++ serialize value
    | none => serialize false

structure ValidPathInfo where
  path : StorePath
  info : UnkeyedValidPathInfo

instance [AlphanumericTable] : NixDeserialize ValidPathInfo where
  tryDeserialize := do
    match ← (tryDeserialize : De (Option StorePath)) with
    | some path => do
      let info ← deserialize UnkeyedValidPathInfo
      pure (some ⟨path, info⟩)
    | none => pure none

structure QueryValidPaths where
  paths : List StorePath
  /-- Since version 1.27. -/
  substitute : Bool

def QueryValidPaths.read (minor : ℕ) : De QueryValidPaths := do
  let paths ← deserialize (List StorePath)
  let substitute ← if 27 ≤ minor then deserialize Bool else pure false
  pure ⟨paths, substitute⟩

structure BuildPaths where
  paths : List DerivedPath
  mode : BuildMode

def BuildPaths.read : De BuildPaths := do
  let paths ← deserialize (List DerivedPath)
  let mode ← deserialize BuildMode
  pure ⟨paths, mode⟩

structure ClientSettings where
  keepFailed : Bool
  keepGoing : Bool
  tryFallback : Bool
  verbosity : VerbosityLevel
  maxBuildJobs : ℕ
  maxSilentTime : ℕ
  useBuildHook : Bool
  verboseBuild : ℕ
  logType : ℕ
  printBuildTrace : ℕ
  buildCores : ℕ
  useSubstitutes : Bool
  /-- Since version 1.12. -/
  overrides : SortedMap Utf8.cmp Utf8

/-- A map is a number of entries. The last of those with one key is kept. -/
def readOverrides : De (SortedMap Utf8.cmp Utf8) := do
  let len ← deserialize ℕ
  let entries ← De.times (do
    let key ← deserialize Utf8
    let value ← deserialize Utf8
    pure (key, value)) len
  pure (entries.foldl (fun m e => m.insert e.1 e.2) SortedMap.empty)

def ClientSettings.read (minor : ℕ) : De ClientSettings := do
  let keepFailed ← deserialize Bool
  let keepGoing ← deserialize Bool
  let tryFallback ← deserialize Bool
  let verbosity ← deserialize VerbosityLevel
  let maxBuildJobs ← deserialize ℕ
  let maxSilentTime ← deserialize ℕ
  let useBuildHook ← deserialize Bool
  let verboseBuild ← deserialize ℕ
  let logType ← deserialize ℕ
  let printBuildTrace ← deserialize ℕ
  let buildCores ← deserialize ℕ
  let useSubstitutes ← deserialize Bool
  let overrides ← if 12 ≤ minor then readOverrides else pure SortedMap.empty
  pure ⟨keepFailed, keepGoing, tryFallback, verbosity, maxBuildJobs, maxSilentTime, useBuildHook,
    verboseBuild, logType, printBuildTrace, buildCores, useSubstitutes, overrides⟩

-- ====================
-- Requests
-- ====================

/-- A request, without the frames that may follow it. -/
inductive Request where
  | isValidPath (path : StorePath)
  | setOptions (settings : ClientSettings)
  | queryPathInfo (path : StorePath)
  | queryPathFromHashPart (hash : Bytes)
  | queryValidPaths (query : QueryValidPaths)
  | queryValidDerivers (path : StorePath)
  /-- `QueryReferrers` or `QueryRealisation`: nothing is found. -/
  | queryNothing (key : Utf8)
  | addMultipleToStore (repair dontCheckSigs : Bool)
  | addToStoreNar (info : ValidPathInfo) (repair dontCheckSigs : Bool)
  | buildPaths (args : BuildPaths)

/-- Why a session ends. -/
inductive SessionError where
  | io (e : IoError)
  | unknownOperation (opCode : ℕ)
  | notImplemented (operation : Operation)
  /-- Behind the archive there is more in the frames, or there are more frames. -/
  | payloadNotConsumed
  /-- The client is too old, or its version has more than 16 bits. -/
  | unsupported
  | expectedSetOptions
  deriving DecidableEq

/-- How the arguments of an operation are read. -/
def Operation.request [AlphanumericTable] (minor : ℕ) : Operation → Option (De Request)
  | .isValidPath => some do return .isValidPath (← deserialize StorePath)
  | .setOptions => some do return .setOptions (← ClientSettings.read minor)
  | .queryPathInfo => some do return .queryPathInfo (← deserialize StorePath)
  | .queryPathFromHashPart => some do return .queryPathFromHashPart (← deserialize Bytes)
  | .queryValidPaths => some do return .queryValidPaths (← QueryValidPaths.read minor)
  | .queryValidDerivers => some do return .queryValidDerivers (← deserialize StorePath)
  | .queryReferrers => some do return .queryNothing (← deserialize Utf8)
  | .queryRealisation => some do return .queryNothing (← deserialize Utf8)
  | .addMultipleToStore => some do
    let repair ← deserialize Bool
    let dontCheckSigs ← deserialize Bool
    return .addMultipleToStore repair dontCheckSigs
  | .addToStoreNar => some do
    let info ← deserialize ValidPathInfo
    let repair ← deserialize Bool
    let dontCheckSigs ← deserialize Bool
    return .addToStoreNar info repair dontCheckSigs
  | .buildPaths => some do return .buildPaths (← BuildPaths.read)
  | _ => none

/-- Reads off `d`, where strings are at most `N` bytes long. -/
def decodeIo {α : Type} (N : ℕ) (d : De α) (b : Bytes) : Except SessionError (α × Bytes) :=
  (d.decode N b).mapError .io

/-- Reads the next request; returns what is behind it. -/
def readRequest [AlphanumericTable] (N minor : ℕ) (b : Bytes) :
    Except SessionError (Request × Bytes) := do
  let (opCode, b) ← decodeIo N (deserialize ℕ) b
  match Operation.tryFrom opCode with
  | none => .error (.unknownOperation opCode)
  | some operation =>
    match operation.request minor with
    | none => .error (.notImplemented operation)
    | some d => decodeIo N d b

-- ====================
-- Responses
-- ====================

def STDERR_LAST : ℕ := 0x616c7473

def STDERR_ERROR : ℕ := 0x63787470

/-- A `NixError` with this message. -/
def nixError (minor : ℕ) (msg : Bytes) : List Item :=
  if 26 ≤ minor then
    -- type, level, name, message, position and traces
    [.slice (ascii "Error"), .number 0, .slice (ascii "Error"), .slice msg, .number 0, .number 0]
  else [.slice msg, .number 1]

/-- The bytes that answer a request. An error is given by how it is printed. -/
def response {α : Type} [NixSerialize α] (minor : ℕ) : Except Bytes α → Bytes
  | .ok r => encodeItems (.number STDERR_LAST :: serialize r)
  | .error e => encodeItems (.number STDERR_ERROR :: nixError minor e)

-- ====================
-- What executes requests
-- ====================

/-- What executes requests, over its own state. Archives are read by programs. -/
structure NixDaemonIO (σ : Type) where
  isValidPath : StorePath → σ → Except Bytes Bool × σ
  queryPathInfo : StorePath → σ → Except Bytes (Option UnkeyedValidPathInfo) × σ
  queryPathFromHashPart : Bytes → σ → Except Bytes (Option UnkeyedValidPathInfo) × σ
  queryValidPaths : QueryValidPaths → σ → Except Bytes (List StorePath) × σ
  queryValidDerivers : StorePath → σ → Except Bytes (List StorePath) × σ
  addToStoreNar : ValidPathInfo → Bool → Bool → σ → Reading (Except Bytes Unit × σ)
  buildPaths : List DerivedPath → BuildMode → σ → Except Bytes Unit × σ

/-- A reader of values over the frames: what it has buffered, and how often it has filled its
    buffer. -/
structure Source where
  buf : Bytes
  fills : ℕ

/-- How the session is set up: the longest string on the wire, the room in the buffer of a
    `Source` each time it is filled, and how errors are printed. -/
structure Setup where
  maxString : ℕ
  room : ℕ → ℕ
  debug : IoError → Bytes

namespace Source

variable {α β : Type}

/-- Fills the buffer until it has as many bytes, or to the end of the frames. -/
def fillTo (room : ℕ → ℕ) (need : ℕ) :
    ℕ → Source → (Except IoError Source → Reading β) → Reading β
  | 0, src, next => next (.ok src)
  | fuel + 1, src, next =>
    if need ≤ src.buf.length then next (.ok src)
    else .read (room src.fills) fun
      | .error e => next (.error e)
      | .ok chunk =>
        if chunk = [] then next (.ok src)
        else fillTo room need fuel ⟨src.buf ++ chunk, src.fills + 1⟩ next

/-- Reads a value. -/
def readValue (setup : Setup) :
    De α → Source → (Except IoError (α × Source) → Reading β) → Reading β
  | .done a, src, next => next (.ok (a, src))
  | .fail e, _, next => next (.error e)
  | .number f, src, next => fillTo setup.room 8 8 src fun
    | .error e => next (.error e)
    | .ok src =>
      match takeNumber src.buf with
      | .error e => next (.error e)
      | .ok (n, buf) => readValue setup (f n) { src with buf } next
  | .bytes f, src, next => fillTo setup.room 8 8 src fun
    | .error e => next (.error e)
    | .ok src =>
      match takeNumber src.buf with
      | .error e => next (.error e)
      | .ok (none, buf) => readValue setup (f none) { src with buf } next
      | .ok (some len, buf) =>
        if len ≤ setup.maxString ∧ len + 7 < 2 ^ 64 then
          let aligned := (len + 7) / 8 * 8
          fillTo setup.room aligned aligned { src with buf } fun
          | .error e => next (.error e)
          | .ok src =>
            match takeContents 0 setup.maxString len src.buf with
            | .error e => next (.error e)
            | .ok (x, buf) => readValue setup (f (some x)) { src with buf } next
        else next (.error .invalidData)

/-- Lets a program read through the buffer. -/
def through (room : ℕ → ℕ) : Reading α → Source → (α → Source → Reading β) → Reading β
  | .done a, src, next => next a src
  | .read n f, src, next =>
    if src.buf = [] then
      .read (room src.fills) fun
      | .error e => through room (f (.error e)) src next
      | .ok chunk =>
        through room (f (.ok (chunk.take n))) ⟨chunk.drop n, src.fills + 1⟩ next
    else through room (f (.ok (src.buf.take n))) { src with buf := src.buf.drop n } next

end Source

namespace NixDaemonIO

variable {σ : Type} [AlphanumericTable]

/-- Adds as many paths, each with its archive behind it. -/
def addPaths (setup : Setup) (io : NixDaemonIO σ) (repair dontCheckSigs : Bool) :
    ℕ → Source → σ → Reading (Except Bytes Unit × σ)
  | 0, _, s => .done (.ok (), s)
  | count + 1, src, s => src.readValue setup (deserialize ValidPathInfo) fun
    | .error e => .done (.error (setup.debug e), s)
    | .ok (info, src) =>
      src.through setup.room (io.addToStoreNar info repair dontCheckSigs s) fun
      | (.error e, s), _ => .done (.error e, s)
      | (.ok (), s), src => addPaths setup io repair dontCheckSigs count src s

/-- Reads a number of paths, and adds them. -/
def addMultipleToStore (setup : Setup) (io : NixDaemonIO σ) (repair dontCheckSigs : Bool) (s : σ) :
    Reading (Except Bytes Unit × σ) :=
  Source.readValue setup (deserialize ℕ) ⟨[], 0⟩ fun
  | .error e => .done (.error (setup.debug e), s)
  | .ok (count, src) => io.addPaths setup repair dontCheckSigs count src s

end NixDaemonIO

/-- What is done for a request: it is answered at once, or an archive is read first. -/
inductive Action (σ : Type) where
  | reply (run : σ → Bytes × σ)
  | payload (run : σ → Reading (Except Bytes Unit × σ))

/-- Answers with the result of a call. -/
def Action.call {σ α : Type} [NixSerialize α] (minor : ℕ) (run : σ → Except Bytes α × σ) :
    Action σ :=
  .reply fun s => (response minor (run s).1, (run s).2)

def Request.action {σ : Type} [AlphanumericTable] (setup : Setup) (io : NixDaemonIO σ)
    (minor : ℕ) : Request → Action σ
  | .isValidPath path => .call minor (io.isValidPath path)
  | .setOptions _ => .call minor fun s => (.ok (), s)
  | .queryPathInfo path => .call minor (io.queryPathInfo path)
  | .queryPathFromHashPart hash => .call minor (io.queryPathFromHashPart hash)
  | .queryValidPaths query => .call minor (io.queryValidPaths query)
  | .queryValidDerivers path => .call minor (io.queryValidDerivers path)
  | .queryNothing _ => .call minor fun s => (.ok ([] : List StorePath), s)
  | .addMultipleToStore repair dontCheckSigs =>
    .payload (io.addMultipleToStore setup repair dontCheckSigs)
  | .addToStoreNar info repair dontCheckSigs =>
    .payload (io.addToStoreNar info repair dontCheckSigs)
  | .buildPaths args => .call minor (io.buildPaths args.paths args.mode)

/-- The settings after a request. -/
def Request.settings : Request → ClientSettings → ClientSettings
  | .setOptions settings, _ => settings
  | _, settings => settings

-- ====================
-- The session
-- ====================

structure NixDaemon (σ : Type) where
  io : σ
  /-- The minor version of the protocol. -/
  minor : ℕ
  clientSettings : ClientSettings
  reader : AsyncStream
  writer : AsyncSink

namespace NixDaemon

variable {σ : Type}

/-- Parts of a session, which leave the connection behind where they fail. -/
abbrev Session (σ : Type) := Prog (SessionError × NixDaemon σ) (NixDaemon σ)

/-- Sends a response. -/
def send (d : NixDaemon σ) (bytes : Bytes) : NixDaemon σ :=
  { d with writer := { d.writer with written := d.writer.written ++ bytes } }

inductive Trust where
  | trusted
  | notTrusted

def Trust.toU64 : Trust → ℕ
  | trusted => 1
  | notTrusted => 2

def WORKER_MAGIC_1 : ℕ := 0x6e697863

def WORKER_MAGIC_2 : ℕ := 0x6478696f

/-- A version has its major and minor version in a byte each. -/
def PROTOCOL_VERSION : ℕ := 0x125

/-- The minor version. -/
def minorOf (version : ℕ) : ℕ := version % 2 ^ 8

def pickedVersion (clientVersion : ℕ) : ℕ := min PROTOCOL_VERSION clientVersion

def readU64 (b : Bytes) : Except SessionError (ℕ × Bytes) :=
  match takeExact IoError.unexpectedEof 8 b with
  | .error e => .error (.io e)
  | .ok (x, b) => .ok (leValue x, b)

/-- Skips the processors and the space a client of such a version asks for. -/
def skipObsolete (minor : ℕ) (b : Bytes) : Except SessionError Bytes := do
  let b ← if 14 ≤ minor then do
      let (affinity, b) ← readU64 b
      if affinity ≠ 0 then (readU64 b).map Prod.snd else pure b
    else pure b
  if 11 ≤ minor then (readU64 b).map Prod.snd else pure b

/-- What the handshake writes for a picked minor version. -/
def greeting (minor : ℕ) (nixVersion : Bytes) (trusted : Trust) : Bytes :=
  leBytes 8 WORKER_MAGIC_2 ++ leBytes 8 PROTOCOL_VERSION ++
    (if 33 ≤ minor then encodeBytes nixVersion else []) ++
      if 35 ≤ minor then leBytes 8 trusted.toU64 else []

/-- The handshake; returns the picked version, what is written and what is left to be read. -/
def serverHandshakeClient (nixVersion : Bytes) (trusted : Trust) (b : Bytes) :
    Except SessionError (ℕ × Bytes × Bytes) := do
  let (workerMagic1, b) ← readU64 b
  if workerMagic1 ≠ WORKER_MAGIC_1 then .error (.io .invalidData)
  else
    let (clientVersion, b) ← readU64 b
    if 2 ^ 16 ≤ clientVersion ∨ clientVersion < 0x10a then .error .unsupported
    else
      let minor := minorOf (pickedVersion clientVersion)
      let b ← skipObsolete minor b
      pure (pickedVersion clientVersion, greeting minor nixVersion trusted, b)

/-- The first operation sets the options. -/
def readFirst (N minor : ℕ) (b : Bytes) : Except SessionError (ClientSettings × Bytes) := do
  let (opCode, b) ← decodeIo N (deserialize ℕ) b
  match Operation.tryFrom opCode with
  | none => .error (.io .invalidData)
  | some operation =>
    if operation ≠ .setOptions then .error .expectedSetOptions
    else decodeIo N (ClientSettings.read minor) b

/-- Greets a client, and reads the settings of the session. -/
def init (setup : Setup) (io : σ) (reader : AsyncStream) (writer : AsyncSink) :
    Except SessionError (NixDaemon σ) := do
  let (version, written, b) ← serverHandshakeClient (ascii "2.18.2") .trusted reader.rest
  let minor := minorOf version
  let (clientSettings, rest) ← readFirst setup.maxString minor b
  let d : NixDaemon σ := ⟨io, minor, clientSettings, { reader with rest }, writer⟩
  pure (d.send (written ++ leBytes 8 STDERR_LAST ++ leBytes 8 STDERR_LAST))

/-- Runs a program on a reader made from the connection, to which it is given back. -/
def handleReading {ρ : Type} (p : Prog Empty ρ (Except Bytes Unit × σ)) (start : ρ)
    (giveBack : ρ → NixDaemon σ → NixDaemon σ) : Session σ Unit := fun d =>
  match p.run start with
  | none => none
  | some (.error e) => e.elim
  | some (.ok ((result, io), r)) =>
    some (.ok ((), { giveBack r d with io }.send (response d.minor result)))

/-- A poll of an archive that is asked for piece by piece. -/
def pollStderr (fuel n : ℕ) (fr : StderrReadFramedReader) :
    Poll (Except IoError Bytes) × StderrReadFramedReader :=
  match fr.pollRead fuel ⟨[], n⟩ with
  | none => (.pending, fr)
  | some (.pending, fr, _) => (.pending, fr)
  | some (.ready (.error e), fr, _) => (.ready (.error e), fr)
  | some (.ready (.ok ()), fr, buf) => (.ready (.ok buf.filled), fr)

/-- Runs a program on the frames, and looks whether they are at their end. -/
def readFrames (k : ℕ) (p : Reading (Except Bytes Unit × σ)) :
    Prog Empty NixFramedReader ((Except Bytes Unit × σ) × Except IoError Bool) := do
  let x ← p.exec NixFramedReader.pollRead k
  let isEof ← ready NixFramedReader.pollIsEof k
  pure (x, isEof)

/-- Runs a program on the frames, and answers. If there is more in the frames, the session ends. -/
def handleFramed (k : ℕ) (p : Reading (Except Bytes Unit × σ)) : Session σ Unit := fun d =>
  match (readFrames k p).run (.new d.reader) with
  | none => none
  | some (.error e) => e.elim
  | some (.ok (((result, io), isEof), fr)) =>
    let d := { d with io, reader := fr.reader }.send (response d.minor result)
    match isEof with
    | .ok true => some (.ok ((), d))
    | .ok false => some (.error (.payloadNotConsumed, d))
    | .error e => some (.error (.io e, d))

/-- Executes a request. How its archive is sent depends on the version, but for several at once. -/
def execute [AlphanumericTable] (setup : Setup) (io : NixDaemonIO σ) (k : ℕ) (r : Request) :
    Session σ Unit := fun d =>
  match r, r.action setup io d.minor with
  | _, .reply run =>
    let d := { d with io := (run d.io).2, clientSettings := r.settings d.clientSettings }.send
      (run d.io).1
    some (.ok ((), d))
  | .addMultipleToStore _ _, .payload run => handleFramed k (run d.io) d
  | _, .payload run =>
    if d.minor < 21 then
      handleReading ((run d.io).exec (fun n r => r.pollRead n) k) d.reader
        (fun r d => { d with reader := r }) d
    else if d.minor < 23 then
      handleReading ((run d.io).exec (pollStderr k) k) (.new d.reader d.writer)
        (fun fr d => { d with reader := fr.reader, writer := fr.writer }) d
    else handleFramed k (run d.io) d

/-- The main loop: reads requests and responds to them. -/
def handleClient [AlphanumericTable] (setup : Setup) (io : NixDaemonIO σ) : ℕ → Session σ Unit
  | 0 => .running
  | k + 1 => fun d =>
    match readRequest setup.maxString d.minor d.reader.rest with
    | .error e => some (.error (e, d))
    | .ok (r, rest) =>
      (do
        execute setup io k r
        handleClient setup io k : Session σ Unit).run
          { d with reader := { d.reader with rest } }

end NixDaemon

-- ====================
-- What is to happen
-- ====================

/-- A request, and the frames behind it. -/
structure Message where
  request : Request
  frames : List Bytes

def Request.hasFrames : Request → Bool
  | .addMultipleToStore _ _ => true
  | .addToStoreNar _ _ _ => true
  | _ => false

/-- What is behind the request on the wire. -/
def Message.payload (m : Message) : Bytes := if m.request.hasFrames then framed m.frames else []

/-- A client sends a message by these bytes. -/
def Sent [AlphanumericTable] (N minor : ℕ) (m : Message) (bytes : Bytes) : Prop :=
  Frames m.frames ∧ ∃ head, bytes = head ++ m.payload ∧
    ∀ tail, readRequest N minor (head ++ tail) = .ok (m.request, tail)

section

variable {σ : Type} [AlphanumericTable] {setup : Setup} {io : NixDaemonIO σ} {minor : ℕ}

/-- A message is answered, with a part of its archive not read. -/
def Serves (setup : Setup) (io : NixDaemonIO σ) (minor : ℕ) (m : Message) (s : σ) (out : Bytes)
    (s' : σ) (unread : Bytes) : Prop :=
  match m.request.action setup io minor with
  | .reply run => run s = (out, s') ∧ unread = []
  | .payload run =>
    ∃ result, (run s).Reads m.frames.flatten (result, s') unread ∧ out = response minor result

/-- Messages are answered one after the other, and their archives read. -/
inductive Served (setup : Setup) (io : NixDaemonIO σ) (minor : ℕ) :
    List Message → σ → List Bytes → σ → Prop
  | nil (s : σ) : Served setup io minor [] s [] s
  | cons {m : Message} {ms : List Message} {s s' s'' : σ} {out : Bytes} {outs : List Bytes}
      (h : Serves setup io minor m s out s' []) (hs : Served setup io minor ms s' outs s'') :
      Served setup io minor (m :: ms) s (out :: outs) s''

namespace NixDaemon

variable {d d' : NixDaemon σ}

/-- What a client says first: its version, the processors and the space it asks for. -/
def hello (clientVersion affinity cpus space : ℕ) : Bytes :=
  leBytes 8 WORKER_MAGIC_1 ++ leBytes 8 clientVersion ++
    (if 14 ≤ minorOf (pickedVersion clientVersion) then
      leBytes 8 affinity ++ if affinity ≠ 0 then leBytes 8 cpus else []
    else []) ++ if 11 ≤ minorOf (pickedVersion clientVersion) then leBytes 8 space else []

/-- All messages were answered, and the session ended behind them. -/
def Finished (setup : Setup) (io : NixDaemonIO σ) (ms : List Message) (e : SessionError)
    (d : NixDaemon σ) (e' : SessionError) (d' : NixDaemon σ) : Prop :=
  e' = e ∧ d'.clientSettings = ms.foldl (fun s m => m.request.settings s) d.clientSettings ∧
    ∃ outs, Served setup io d.minor ms d.io outs d'.io ∧
      d'.writer.written = d.writer.written ++ outs.flatten

/-- A message was answered without its archive being read, and ended the session. -/
def Killed (setup : Setup) (io : NixDaemonIO σ) (ms : List Message) (d : NixDaemon σ)
    (e' : SessionError) (d' : NixDaemon σ) : Prop :=
  e' = .payloadNotConsumed ∧ ∃ before m after outs s out unread, ms = before ++ m :: after ∧
    Served setup io d.minor before d.io outs s ∧ Serves setup io d.minor m s out d'.io unread ∧
      unread ≠ [] ∧ d'.writer.written = d.writer.written ++ (outs.flatten ++ out)

-- ====================
-- Frames
-- ====================

section

variable {r₀ : AsyncStream} {tail : Bytes}

theorem returns_pollRead (hfair : r₀.Fair) (hfaultless : r₀.Faultless) (n : ℕ) (data : Bytes)
    (fr : NixFramedReader) (h : fr.Inv tail [] r₀ data) :
    ∃ res fr', Reading.HandsOut (fun data fr => NixFramedReader.Inv tail [] r₀ data fr) n data res fr' ∧
      Returns (fun k => (ready (NixFramedReader.pollRead n) k : Prog Empty _ _)) fr
        (.ok (res, fr')) := by
  rcases Nat.eq_zero_or_pos n with rfl | hn
  · exact ⟨.ok [], fr, .inr ⟨rfl, .inl rfl, h⟩, returns_ready_now rfl⟩
  refine returns_ready NixFramedReader.reader hfair (fun fr h => h.later)
    (fun fr h => ?_) h
  rcases NixFramedReader.pollRead_spec hn h with
    ⟨hinv, -, hres⟩ | ⟨fr', hres, hinv, heof⟩ |
      ⟨chunk, data', fr', hres, hne, hlen, hdata, hinv, -⟩
  · generalize fr.pollRead n = r at hinv hres ⊢
    obtain ⟨res, fr'⟩ := r
    rcases hres with ⟨rfl, hstalled⟩ | ⟨-, hnot⟩ | ⟨-, hcut⟩
    · exact .inl ⟨fr', rfl, hinv, hstalled⟩
    · exact absurd hfaultless hnot
    · exact absurd hcut (Nat.not_lt_zero _)
  · have hexp := hinv.expects
    rw [heof] at hexp
    exact .inr ⟨_, fr', hres, .inr ⟨rfl, .inr hexp.1, hinv⟩⟩
  · exact .inr ⟨_, fr', hres, .inl ⟨chunk, data', rfl, hne, hlen, hdata, hinv⟩⟩

theorem returns_pollIsEof (hfair : r₀.Fair) (hfaultless : r₀.Faultless) {data : Bytes}
    {fr : NixFramedReader} (h : fr.Inv tail [] r₀ data) :
    ∃ res fr', (res = .ok (decide (data = [])) ∧ fr'.reader.Later r₀ ∧
        (data = [] → fr'.reader.rest = tail)) ∧
      Returns (fun k => (ready NixFramedReader.pollIsEof k : Prog Empty _ _)) fr
        (.ok (res, fr')) := by
  refine returns_ready NixFramedReader.reader (I := fun fr => fr.Inv tail [] r₀ data)
    hfair (fun fr h => h.later) (fun fr h => ?_) h
  unfold NixFramedReader.pollIsEof
  rcases NixFramedReader.lengthLoop_spec NixFramedReader.atEof 10 h fr.rounds_lt with
    ⟨hinv, -, hres⟩ | ⟨fr', hrun, hinv, -, hst⟩
  · generalize fr.lengthLoop NixFramedReader.atEof 10 = r at hinv hres ⊢
    obtain ⟨res, fr'⟩ := r
    rcases hres with ⟨rfl, hstalled⟩ | ⟨-, hnot⟩ | ⟨-, hcut⟩
    · exact .inl ⟨fr', rfl, hinv, hstalled⟩
    · exact absurd hfaultless hnot
    · exact absurd hcut (Nat.not_lt_zero _)
  · refine .inr ⟨_, fr', hrun, ?_, hinv.later, ?_⟩
    all_goals
      have hexp := hinv.expects
      cases hst' : fr'.state with
      | length buf => exact absurd hst' (hst buf)
      | chunk remaining =>
        rw [hst'] at hexp
        obtain ⟨c, fs, -, rfl, hlen, hpos, -⟩ := hexp
        have hne : c ++ fs.flatten ≠ [] := by
          intro hnil
          rw [List.append_eq_nil_iff] at hnil
          rw [← hlen, hnil.1] at hpos
          exact absurd hpos (lt_irrefl _)
        simp [hne]
      | eof =>
        rw [hst', List.append_nil] at hexp
        simp [hexp.1, hexp.2]

/-- Running a program on frames answers, and notices what was not read. -/
theorem returns_handleFramed (hfair : r₀.Fair) (hfaultless : r₀.Faultless) (hlater : d.reader.Later r₀)
    {frames : List Bytes} (hframes : Frames frames) (hrest : d.reader.rest = framed frames ++ tail)
    (p : Reading (Except Bytes Unit × σ)) :
    ∃ result s' unread reader, p.Reads frames.flatten (result, s') unread ∧
      (unread = [] ∧ reader.Later r₀ ∧ reader.rest = tail ∧
          Returns (fun k => handleFramed k p) d
            (.ok ((), { d with io := s', reader }.send (response d.minor result))) ∨
        unread ≠ [] ∧ Returns (fun k => handleFramed k p) d
          (.error (.payloadNotConsumed,
            { d with io := s', reader }.send (response d.minor result)))) := by
  have hinv : (NixFramedReader.new d.reader).Inv tail [] r₀ frames.flatten := by
    refine ⟨hlater, frames, hframes, rfl, Nat.zero_le _, ?_⟩
    rw [List.append_nil, List.nil_append]
    exact hrest
  obtain ⟨⟨result, s'⟩, unread, fr, hreads, hinv', hexec⟩ :=
    Reading.returns_exec (ε := Empty) (returns_pollRead hfair hfaultless) p hinv
  obtain ⟨res, fr', ⟨rfl, hlater', hrest'⟩, heof⟩ := returns_pollIsEof hfair hfaultless hinv'
  have hrun : Returns (fun k => readFrames k p) (.new d.reader)
      (.ok (((result, s'), .ok (decide (unread = []))), fr')) :=
    hexec.bind (heof.bind (.pure _ fr'))
  obtain ⟨c, hc⟩ := hrun
  refine ⟨result, s', unread, fr'.reader, hreads, ?_⟩
  by_cases hunread : unread = []
  · refine .inl ⟨hunread, hlater', hrest' hunread, c, fun k hk => ?_⟩
    rw [decide_eq_true hunread] at hc
    show handleFramed k p d = _
    rw [handleFramed, hc k hk]
  · refine .inr ⟨hunread, c, fun k hk => ?_⟩
    rw [decide_eq_false hunread] at hc
    show handleFramed k p d = _
    rw [handleFramed, hc k hk]

end

-- ====================
-- Requests
-- ====================

section

variable {r₀ : AsyncStream} {tail : Bytes}

/-- A request without frames is answered at once. -/
theorem hasFrames_eq_false {r : Request} {run : σ → Bytes × σ}
    (h : r.action setup io minor = .reply run) : r.hasFrames = false := by
  cases r <;> first | rfl | cases h

theorem hasFrames_eq_true {r : Request} {run : σ → Reading (Except Bytes Unit × σ)}
    (h : r.action setup io minor = .payload run) :
    r.hasFrames = true ∧ ∀ settings, r.settings settings = settings := by
  cases r <;> first | exact ⟨rfl, fun _ => rfl⟩ | cases h

theorem execute_reply {r : Request} {run : σ → Bytes × σ}
    (h : r.action setup io d.minor = .reply run) (k : ℕ) :
    (execute setup io k r).run d = some (.ok ((),
      { d with io := (run d.io).2, clientSettings := r.settings d.clientSettings }.send
        (run d.io).1)) := by
  show execute setup io k r d = _
  unfold execute
  rw [h]

theorem execute_payload {r : Request} {run : σ → Reading (Except Bytes Unit × σ)}
    (h : r.action setup io d.minor = .payload run) (hminor : 23 ≤ d.minor) (k : ℕ) :
    (execute setup io k r).run d = (handleFramed k (run d.io)).run d := by
  show execute setup io k r d = _
  unfold execute
  rw [h]
  have h21 : ¬ d.minor < 21 := by omega
  have h23 : ¬ d.minor < 23 := by omega
  cases r with
  | addMultipleToStore repair dontCheckSigs => rfl
  | addToStoreNar info repair dontCheckSigs => simp only [h21, h23, if_false]; rfl
  | _ => cases h

/-- Executing a request answers it, and goes on behind its frames if they were read. -/
theorem returns_execute (setup : Setup) (io : NixDaemonIO σ) (hfair : r₀.Fair) (hfaultless : r₀.Faultless) (hminor : 23 ≤ d.minor)
    (hlater : d.reader.Later r₀) {m : Message} (hframes : Frames m.frames)
    (hrest : d.reader.rest = m.payload ++ tail) :
    ∃ out s' unread reader, Serves setup io d.minor m d.io out s' unread ∧
      (unread = [] ∧ reader.Later r₀ ∧ reader.rest = tail ∧
          Returns (fun k => execute setup io k m.request) d
            (.ok ((), { d with io := s', clientSettings := m.request.settings d.clientSettings,
                               reader }.send out)) ∨
        unread ≠ [] ∧ Returns (fun k => execute setup io k m.request) d
          (.error (.payloadNotConsumed, { d with io := s', reader }.send out))) := by
  unfold Serves
  cases haction : m.request.action setup io d.minor with
  | reply run =>
    rw [Message.payload, hasFrames_eq_false haction, if_neg Bool.false_ne_true,
      List.nil_append] at hrest
    exact ⟨(run d.io).1, (run d.io).2, [], d.reader, ⟨rfl, rfl⟩, .inl ⟨rfl, hlater, hrest,
      0, fun k _ => execute_reply haction k⟩⟩
  | payload run =>
    obtain ⟨hhas, hsettings⟩ := hasFrames_eq_true haction
    rw [Message.payload, hhas, if_pos rfl] at hrest
    obtain ⟨result, s', unread, reader, hreads, hres⟩ :=
      returns_handleFramed hfair hfaultless hlater hframes hrest (run d.io)
    refine ⟨_, s', unread, reader, ⟨result, hreads, rfl⟩, ?_⟩
    rcases hres with ⟨hunread, hlater', hrest', c, hc⟩ | ⟨hunread, c, hc⟩
    · refine .inl ⟨hunread, hlater', hrest', c, fun k hk => ?_⟩
      rw [execute_payload haction hminor, hc k hk, hsettings]
    · exact .inr ⟨hunread, c, fun k hk => by rw [execute_payload haction hminor, hc k hk]⟩

end

-- ====================
-- The session
-- ====================

theorem readRequest_of_reads {N : ℕ} (operation : Operation) {read : De Request} {args : Bytes}
    {r : Request} (h : operation.request minor = some read) (hread : De.Reads N read args r)
    (tail : Bytes) :
    readRequest N minor (leBytes 8 operation.toU64 ++ args ++ tail) = .ok (r, tail) := by
  have hlt : operation.toU64 < 2 ^ 64 := operation.toU64_lt.2.trans (by decide)
  have hcode : (deserialize ℕ).decode N (leBytes 8 operation.toU64 ++ (args ++ tail)) =
      .ok (operation.toU64, args ++ tail) := by
    have hback := (@readsBack_number N operation.toU64 hlt).deserialize (args ++ tail)
    rwa [encode_number] at hback
  rw [readRequest, List.append_assoc, decodeIo, hcode]
  show (match Operation.tryFrom operation.toU64 with | none => _ | some operation => _) = _
  rw [Operation.tryFrom_toU64]
  dsimp only
  rw [h]
  show (read.decode N (args ++ tail)).mapError _ = _
  rw [hread tail]
  rfl

theorem run_handleClient_ok {r : Request} {rest : Bytes}
    (h : readRequest setup.maxString d.minor d.reader.rest = .ok (r, rest)) (k : ℕ) :
    (handleClient setup io (k + 1)).run d =
      (do
        execute setup io k r
        handleClient setup io k : Session σ Unit).run
          { d with reader := { d.reader with rest } } := by
  show (match readRequest setup.maxString d.minor d.reader.rest with
    | .error e => _
    | .ok (r, rest) => _) = _
  rw [h]

theorem returns_handleClient_error {e : SessionError}
    (h : readRequest setup.maxString d.minor d.reader.rest = .error e) :
    Returns (fun k => handleClient setup io k) d (.error (e, d)) := by
  refine ⟨1, fun k hk => ?_⟩
  obtain ⟨k, rfl⟩ := Nat.exists_eq_add_of_le' hk
  show (match readRequest setup.maxString d.minor d.reader.rest with
    | .error e => _
    | .ok (r, rest) => _) = _
  rw [h]

/-- Of what a client sends, every message is executed and answered in order, and the session ends
    with the bytes behind them. It ends before if an archive was not read: nothing in it is taken
    for a request. -/
theorem handleClient_serves (setup : Setup) (io : NixDaemonIO σ) (d : NixDaemon σ)
    (hminor : 23 ≤ d.minor) (hfair : d.reader.Fair) (hfaultless : d.reader.Faultless)
    {ms : List Message} {bs : List Bytes} {tail : Bytes} {e : SessionError}
    (hsent : List.Forall₂ (Sent setup.maxString d.minor) ms bs)
    (hrest : d.reader.rest = bs.flatten ++ tail)
    (htail : readRequest setup.maxString d.minor tail = .error e) :
    ∃ e' d', Returns (fun k => handleClient setup io k) d (.error (e', d')) ∧
      (Finished setup io ms e d e' d' ∨ Killed setup io ms d e' d') := by
  suffices ∀ d : NixDaemon σ, 23 ≤ d.minor → ∀ r₀ : AsyncStream, r₀.Fair → r₀.Faultless →
      d.reader.Later r₀ → List.Forall₂ (Sent setup.maxString d.minor) ms bs →
        d.reader.rest = bs.flatten ++ tail →
          readRequest setup.maxString d.minor tail = .error e →
            ∃ e' d', Returns (fun k => handleClient setup io k) d (.error (e', d')) ∧
              (Finished setup io ms e d e' d' ∨ Killed setup io ms d e' d') from
    this d hminor d.reader hfair hfaultless (.refl _) hsent hrest htail
  clear hminor hfair hfaultless hsent hrest htail d
  intro d hminor r₀ hfair hfaultless hlater hsent hrest htail
  induction ms generalizing bs d with
  | nil =>
    cases hsent
    rw [List.flatten_nil, List.nil_append] at hrest
    rw [← hrest] at htail
    exact ⟨e, d, returns_handleClient_error htail,
      .inl ⟨rfl, rfl, [], .nil _, (List.append_nil _).symm⟩⟩
  | cons m ms ih =>
    obtain _ | ⟨⟨hframes, head, rfl, hread⟩, hsent⟩ := hsent
    rename_i bs
    rw [List.flatten_cons, List.append_assoc, List.append_assoc] at hrest
    have hread' := hread (m.payload ++ (bs.flatten ++ tail))
    rw [← hrest] at hread'
    obtain ⟨out, s', unread, reader, hserves, hres⟩ :=
      returns_execute setup io hfair hfaultless
        (d := { d with reader := { d.reader with rest := m.payload ++ (bs.flatten ++ tail) } })
        hminor hlater hframes rfl
    rcases hres with ⟨rfl, hlater', hrest', hret⟩ | ⟨hunread, hret⟩
    · obtain ⟨e', d', hret', hend⟩ := ih (send { d with
        io := s', clientSettings := m.request.settings d.clientSettings, reader } out)
          hminor hlater' hsent hrest' htail
      refine ⟨e', d', (hret.bind hret').succ (run_handleClient_ok hread'), ?_⟩
      rcases hend with ⟨he, hsettings, outs, hserved, hwritten⟩ |
        ⟨he, before, m', after, outs, s, out', unread, hms, hserved, hserves', hunread, hwritten⟩
      · refine .inl ⟨he, hsettings, out :: outs, .cons hserves hserved, ?_⟩
        rw [hwritten, List.flatten_cons]
        exact List.append_assoc _ _ _
      · refine .inr ⟨he, m :: before, m', after, out :: outs, s, out', unread, by rw [hms]; rfl,
          .cons hserves hserved, hserves', hunread, ?_⟩
        rw [hwritten, List.flatten_cons, List.append_assoc out]
        exact List.append_assoc _ _ _
    · exact ⟨_, _, hret.bind_error.succ (run_handleClient_ok hread'), .inr ⟨rfl, [], m, ms, [], d.io,
        out, unread, rfl, .nil _, hserves, hunread, rfl⟩⟩

-- ====================
-- The connection
-- ====================

theorem readU64_leBytes {n : ℕ} (hn : n < 2 ^ 64) (rest : Bytes) :
    readU64 (leBytes 8 n ++ rest) = .ok (n, rest) := by
  have htake : takeExact IoError.unexpectedEof 8 (leBytes 8 n ++ rest) = .ok (leBytes 8 n, rest) :=
    takeExact_eq_ok_iff.mpr ⟨rfl, length_leBytes 8 n⟩
  rw [readU64, htake]
  dsimp only
  rw [leValue_leBytes (by omega)]

theorem skipObsolete_hello {minor affinity cpus space : ℕ} (haffinity : affinity < 2 ^ 64)
    (hcpus : cpus < 2 ^ 64) (hspace : space < 2 ^ 64) (rest : Bytes) :
    skipObsolete minor
      ((if 14 ≤ minor then leBytes 8 affinity ++ if affinity ≠ 0 then leBytes 8 cpus else []
        else []) ++ ((if 11 ≤ minor then leBytes 8 space else []) ++ rest)) = .ok rest := by
  have hreserved : (if 11 ≤ minor then
      (readU64 ((if 11 ≤ minor then leBytes 8 space else []) ++ rest)).map Prod.snd
      else pure ((if 11 ≤ minor then leBytes 8 space else []) ++ rest)) = .ok rest := by
    by_cases h : 11 ≤ minor
    · simp only [h, if_true, readU64_leBytes hspace]
      rfl
    · simp only [h, if_false]
      rfl
  rw [skipObsolete]
  by_cases h : 14 ≤ minor
  · simp only [h, if_true, List.append_assoc, readU64_leBytes haffinity]
    by_cases haff : affinity = 0
    · simp only [bind, Except.bind, haff, ne_eq, not_true, if_false, List.nil_append]
      exact hreserved
    · simp only [bind, Except.bind, haff, ne_eq, not_false_iff, if_true, readU64_leBytes hcpus]
      exact hreserved
  · simp only [h, if_false]
    exact hreserved

theorem serverHandshakeClient_hello (nixVersion : Bytes) (trusted : Trust)
    {clientVersion affinity cpus space : ℕ} (hlow : 0x10a ≤ clientVersion)
    (hhigh : clientVersion < 2 ^ 16) (haffinity : affinity < 2 ^ 64) (hcpus : cpus < 2 ^ 64)
    (hspace : space < 2 ^ 64) (rest : Bytes) :
    serverHandshakeClient nixVersion trusted (hello clientVersion affinity cpus space ++ rest) =
      .ok (pickedVersion clientVersion,
        greeting (minorOf (pickedVersion clientVersion)) nixVersion trusted, rest) := by
  have hmagic : WORKER_MAGIC_1 < 2 ^ 64 := by decide
  have hclient : clientVersion < 2 ^ 64 := by omega
  have hnot : ¬ (2 ^ 16 ≤ clientVersion ∨ clientVersion < 0x10a) := by omega
  rw [serverHandshakeClient, hello, List.append_assoc, List.append_assoc, List.append_assoc,
    readU64_leBytes hmagic]
  simp only [bind, Except.bind, ne_eq, not_true, if_false, readU64_leBytes hclient, hnot,
    skipObsolete_hello haffinity hcpus hspace]
  rfl

theorem init_hello (setup : Setup) (s : σ) {reader : AsyncStream} (writer : AsyncSink)
    {clientVersion affinity cpus space : ℕ} (hlow : 0x10a ≤ clientVersion)
    (hhigh : clientVersion < 2 ^ 16) (haffinity : affinity < 2 ^ 64) (hcpus : cpus < 2 ^ 64)
    (hspace : space < 2 ^ 64) {settings : ClientSettings} {options tail : Bytes}
    (hoptions : De.Reads setup.maxString
      (ClientSettings.read (minorOf (pickedVersion clientVersion))) options settings)
    (hrest : reader.rest = hello clientVersion affinity cpus space ++
      (leBytes 8 Operation.setOptions.toU64 ++ (options ++ tail))) :
    init setup s reader writer = .ok (send
      ⟨s, minorOf (pickedVersion clientVersion), settings, { reader with rest := tail }, writer⟩
      (greeting (minorOf (pickedVersion clientVersion)) (ascii "2.18.2") .trusted ++
        leBytes 8 STDERR_LAST ++ leBytes 8 STDERR_LAST)) := by
  have hcode : decodeIo setup.maxString (deserialize ℕ)
      (leBytes 8 Operation.setOptions.toU64 ++ (options ++ tail)) =
        .ok (Operation.setOptions.toU64, options ++ tail) := by
    have hback := (@readsBack_number setup.maxString Operation.setOptions.toU64
      (by decide)).deserialize (options ++ tail)
    rw [encode_number] at hback
    rw [decodeIo, hback]
    rfl
  have hsettings : decodeIo setup.maxString
      (ClientSettings.read (minorOf (pickedVersion clientVersion))) (options ++ tail) =
        .ok (settings, tail) := by
    rw [decodeIo, hoptions tail]
    rfl
  have hfirst : readFirst setup.maxString (minorOf (pickedVersion clientVersion))
      (leBytes 8 Operation.setOptions.toU64 ++ (options ++ tail)) = .ok (settings, tail) := by
    rw [readFirst, hcode]
    simp only [bind, Except.bind, Operation.tryFrom_toU64, ne_eq, not_true, if_false, hsettings]
  rw [init, hrest, serverHandshakeClient_hello _ _ hlow hhigh haffinity hcpus hspace]
  simp only [bind, Except.bind, hfirst]
  rfl

/-- A client that is not too old is greeted and agrees with the daemon on a version, its settings
    are taken over, and what it sends then is served. -/
theorem connection_serves (setup : Setup) (io : NixDaemonIO σ) (s : σ) {reader : AsyncStream}
    (writer : AsyncSink) (hfair : reader.Fair) (hfaultless : reader.Faultless)
    {clientVersion affinity cpus space : ℕ} (hlow : 0x117 ≤ clientVersion)
    (hhigh : clientVersion < 2 ^ 16) (haffinity : affinity < 2 ^ 64) (hcpus : cpus < 2 ^ 64)
    (hspace : space < 2 ^ 64) {settings : ClientSettings} {options tail : Bytes}
    {ms : List Message} {bs : List Bytes} {e : SessionError}
    (hoptions : De.Reads setup.maxString
      (ClientSettings.read (minorOf (pickedVersion clientVersion))) options settings)
    (hsent : List.Forall₂ (Sent setup.maxString (minorOf (pickedVersion clientVersion))) ms bs)
    (htail : readRequest setup.maxString (minorOf (pickedVersion clientVersion)) tail = .error e)
    (hrest : reader.rest = hello clientVersion affinity cpus space ++
      (leBytes 8 Operation.setOptions.toU64 ++ (options ++ (bs.flatten ++ tail)))) :
    ∃ d e' d', init setup s reader writer = .ok d ∧ d.io = s ∧
      d.minor = minorOf (pickedVersion clientVersion) ∧ d.clientSettings = settings ∧
      d.writer.written = writer.written ++
        (greeting d.minor (ascii "2.18.2") .trusted ++ leBytes 8 STDERR_LAST ++
          leBytes 8 STDERR_LAST) ∧
      Returns (fun k => handleClient setup io k) d (.error (e', d')) ∧
        (Finished setup io ms e d e' d' ∨ Killed setup io ms d e' d') := by
  have hminor : 23 ≤ minorOf (pickedVersion clientVersion) := by
    unfold minorOf pickedVersion PROTOCOL_VERSION
    omega
  have hinit := init_hello setup s writer (by omega) hhigh haffinity hcpus hspace hoptions hrest
  obtain ⟨e', d', hret, hend⟩ := handleClient_serves setup io
    (send ⟨s, minorOf (pickedVersion clientVersion), settings,
      { reader with rest := bs.flatten ++ tail }, writer⟩
      (greeting (minorOf (pickedVersion clientVersion)) (ascii "2.18.2") .trusted ++
        leBytes 8 STDERR_LAST ++ leBytes 8 STDERR_LAST))
    hminor hfair hfaultless hsent rfl htail
  exact ⟨_, e', d', hinit, rfl, rfl, rfl, rfl, hret, hend⟩

end NixDaemon

end

-- ====================
-- A session
-- ====================

section

namespace NixDaemon

/-- The ASCII letters and digits. -/
local instance : AlphanumericTable where
  isAlphanumeric c := match c with
    | [b] => (97 ≤ b && b ≤ 122) || (65 ≤ b && b ≤ 90) || (48 ≤ b && b ≤ 57)
    | _ => false

/-- Every archive is added without being read. -/
def careless : NixDaemonIO Unit where
  isValidPath _ s := (.ok false, s)
  queryPathInfo _ s := (.ok none, s)
  queryPathFromHashPart _ s := (.ok none, s)
  queryValidPaths _ s := (.ok [], s)
  queryValidDerivers _ s := (.ok [], s)
  addToStoreNar _ _ _ s := .done (.ok (), s)
  buildPaths _ _ s := (.ok (), s)

def smallSetup : Setup := ⟨16, fun _ => 8, fun _ => []⟩

/-- No paths are added, with a byte behind their number that is not read, and a hash is looked
    up. -/
def twoMessages : List Message :=
  [⟨.addMultipleToStore false true, [leBytes 8 0, [9]]⟩, ⟨.queryPathFromHashPart [7], []⟩]

def twoMessagesBytes : List Bytes :=
  [leBytes 8 44 ++ (encode false ++ encode true) ++ framed [leBytes 8 0, [9]],
    leBytes 8 29 ++ encodeBytes [7] ++ []]

theorem sent_twoMessages :
    List.Forall₂ (Sent smallSetup.maxString 37) twoMessages twoMessagesBytes := by
  refine .cons ⟨?_, leBytes 8 44 ++ (encode false ++ encode true), rfl, ?_⟩
    (.cons ⟨nofun, leBytes 8 29 ++ encodeBytes [7], rfl, ?_⟩ .nil)
  · intro f hf
    simp only [List.mem_cons, List.not_mem_nil, or_false] at hf
    rcases hf with rfl | rfl
    · exact ⟨by decide, by decide⟩
    · exact ⟨by decide, by decide⟩
  · exact readRequest_of_reads .addMultipleToStore rfl
      ((readsBack_bool false).deserialize.bind ((readsBack_bool true).deserialize.map _))
  · have hhash := readsBack_bytes (N := smallSetup.maxString) (x := [7]) (by decide) (by decide)
    rw [ReadsBack, encode_slice] at hhash
    exact readRequest_of_reads .queryPathFromHashPart rfl
      ((readsIff_deserialize (.of_reads hhash)).map _ |>.reads trivial)

def noOptions : ClientSettings :=
  ⟨false, false, false, .error, 0, 0, false, 0, 0, 0, 0, false, .empty⟩

/-- All settings are zero. -/
theorem reads_noOptions (N : ℕ) :
    De.Reads N (ClientSettings.read 37) (List.replicate 13 (leBytes 8 0)).flatten noOptions := by
  have hbool : De.Reads N (deserialize Bool) (leBytes 8 0) false := (readsBack_bool false).deserialize
  have hnumber : De.Reads N (deserialize ℕ) (leBytes 8 0) 0 :=
    (readsBack_number (Nat.two_pow_pos 64)).deserialize
  have hlevel : De.Reads N (deserialize VerbosityLevel) (leBytes 8 0) VerbosityLevel.error :=
    (readsIff_deserialize (.of_reads ((De.reads_number (Nat.two_pow_pos 64)).bind
      (De.reads_pure (some VerbosityLevel.error))))).reads trivial
  have hoverrides : De.Reads N readOverrides (leBytes 8 0 ++ ([] ++ [])) .empty :=
    hnumber.bind ((De.reads_pure []).bind (De.reads_pure _))
  exact hbool.bind (hbool.bind (hbool.bind (hlevel.bind (hnumber.bind (hnumber.bind (hbool.bind
    (hnumber.bind (hnumber.bind (hnumber.bind (hnumber.bind (hbool.bind
      (hoverrides.bind (De.reads_pure _)))))))))))))

/-- A connection of a client of the same version, with four bytes arriving at a time. -/
def twoReader : AsyncStream :=
  ⟨hello 0x125 0 0 0 ++ (leBytes 8 Operation.setOptions.toU64 ++
    ((List.replicate 13 (leBytes 8 0)).flatten ++ (twoMessagesBytes.flatten ++ []))),
    fun _ => .chunk 4⟩

theorem connection_serves_two : ∃ d e' d',
    init smallSetup () twoReader ⟨[], fun _ => .accept 8⟩ = .ok d ∧ d.io = () ∧
      d.minor = minorOf (pickedVersion 0x125) ∧ d.clientSettings = noOptions ∧
      d.writer.written = [] ++
        (greeting d.minor (ascii "2.18.2") .trusted ++ leBytes 8 STDERR_LAST ++
          leBytes 8 STDERR_LAST) ∧
      Returns (fun k => handleClient smallSetup careless k) d (.error (e', d')) ∧
        (Finished smallSetup careless twoMessages (.io .unexpectedEof) d e' d' ∨
          Killed smallSetup careless twoMessages d e' d') :=
  connection_serves smallSetup careless () ⟨[], fun _ => .accept 8⟩
    (fun _ => ⟨0, Answer.noConfusion⟩) (fun _ => Answer.noConfusion) (by decide) (by decide)
    (by decide) (by decide) (by decide) (reads_noOptions _) sent_twoMessages rfl rfl

end NixDaemon

end

end Snix.NixDaemon
