import Snix.Lib.Bytes
import Snix.Lib.SortedMap
import Snix.Lib.StreamParser
import Snix.Lib.LittleEndian
import Snix.Lib.Hex
import Snix.Lib.StableSort
import Snix.Lib.Sha256
import Snix.Lib.Effect
import Snix.Lib.MachineInt
import Snix.Lib.AsyncStream
import Snix.Lib.AsyncSink
import Snix.Lib.ByteWriter
import Snix.Lib.Admission
import Snix.Lib.Merkle
import Snix.Lib.DiGraph
import Snix.NixCompat.Nixbase32
import Snix.NixCompat.NixHash
import Snix.NixCompat.StorePath
import Snix.NixCompat.Aterm
import Snix.NixCompat.Derivation.Output
import Snix.NixCompat.Derivation.Basic
import Snix.NixCompat.Derivation.Write
import Snix.NixCompat.Derivation.Parser
import Snix.NixCompat.Derivation.RoundTrip
import Snix.NixCompat.Derivation.HashModulo
import Snix.Castore.Node
import Snix.Castore.Directory
import Snix.Castore.Proto
import Snix.Castore.DirectoryService.OrderValidator
import Snix.Castore.DirectoryService.DirectoryGraph.Basic
import Snix.Castore.DirectoryService.DirectoryGraph.Accept
import Snix.Castore.DirectoryService.DirectoryGraph.Drain
import Snix.Castore.DirectoryService.Traversal
import Snix.Store.PathInfo
import Snix.BuildGlue.Builder
import Snix.BuildGlue.BuildState
import Snix.Lib.Prog
import Snix.Lib.ByteReader
import Snix.NixCompat.Wire.BytesReader
import Snix.NixCompat.Wire.Await
import Snix.NixCompat.Wire.BytesWriter
import Snix.NixCompat.NixDaemon.FramedRead
import Snix.NixCompat.NixDaemon.StderrRead
import Snix.NixCompat.Nar.Wire
import Snix.NixCompat.Nar.Format
import Snix.NixCompat.Nar.Writer
import Snix.NixCompat.Nar.Reader
import Snix.NixCompat.Nar.AsyncReader
import Snix.Store.Nar.Archive
import Snix.Store.Nar.Renderer
import Snix.Castore.BlobService.ChunkedReader
import Snix.Store.Nar.Listing
import Snix.Castore.BlobService.ObjectStore
import Snix.Castore.Composition
import Snix.Castore.DirectoryService.Cache
import Snix.Castore.Fs.InodeTracker
import Snix.Castore.Fs.SnixStoreFs
import Snix.Castore.Fs.Listing
import Snix.Castore.Fs.Attributes
import Snix.Castore.Import.FileTree
import Snix.Castore.Import.IngestEntries
import Snix.Castore.Import.Order
import Snix.Castore.Refscan
import Snix.Store.Proto
import Snix.Build.Proto
import Snix.BuildGlue.Request
import Snix.Eval.Value.Attrs
import Snix.Lib.Await
import Snix.Lib.Base64
import Snix.Lib.BytesMut
import Snix.Lib.Text
import Snix.NixCompat.CaHash
import Snix.NixCompat.Nar.Truncation
import Snix.NixCompat.Narinfo.Basic
import Snix.NixCompat.Narinfo.RoundTrip
import Snix.NixCompat.NixDaemon.StderrTruncation
import Snix.NixCompat.NixDaemon.WorkerProtocol
import Snix.NixCompat.Wire.NixReader
import Snix.NixCompat.Wire.NixWriter
import Snix.NixCompat.Wire.Serde
import Snix.NixCompat.Wire.Collections
import Snix.NixCompat.DerivedPath
import Snix.NixCompat.StructuredAttrs
import Snix.NixCompat.StructuredAttrs.Declare
import Snix.NixCompat.StorePath.Grammar
import Snix.Eval.Compiler.Emit
import Snix.Eval.Compiler.Scope
import Snix.Lib.FormUrlencoded
import Snix.NixCompat.FlakeRef.Basic
import Snix.NixCompat.FlakeRef.RoundTrip
import Snix.NixCompat.NixDaemon.PathInfo
import Snix.NixCompat.NixDaemon.Handler
import Snix.Castore.DirectoryService.DirectoryGraph.Rejected
import Snix.Castore.BlobService.Grpc
import Snix.Castore.BlobService.ObjectStoreBlobWriter
import Snix.Castore.BlobService.OpenDuringUpload
import Snix.Store.Decompression
import Snix.Store.Nar.ListingStream
import Snix.Store.Nar.Import
import Snix.Store.Nar.ImportRoundTrip
import Snix.Store.Nar.Seekable
import Snix.Store.Nar.SeekableReader
import Snix.Castore.Import.Archive
import Snix.Castore.Import.ArchiveStream
import Snix.Castore.Import.Blobs
import Snix.Castore.Import.LastEntryWins
import Snix.Castore.Path
import Snix.Eval.Value.Compare
import Snix.Eval.Value.Display
import Snix.Castore.BlobService.Combinator
import Snix.Castore.DirectoryService.ObjectStore
import Snix.Eval.Value.Thunk.Failure
import Snix.Eval.Builtins.Arithmetic
import Snix.Eval.Builtins.Context
import Snix.Eval.Builtins.JsonRoundTrip
import Snix.Eval.Builtins.GenericClosure
import Snix.Eval.Builtins.ReplaceStrings
import Snix.Eval.Builtins.Sort
import Snix.Eval.Builtins.Split
import Snix.Eval.Builtins.VersionOrder
import Snix.Eval.Builtins.XmlDocument
import Snix.Eval.Value.Order
import Snix.BuildGlue.Inputs
import Snix.BuildGlue.PassAsFile
import Snix.BuildGlue.References
import Snix.Lib.Base64NoPad
import Snix.Castore.Url
import Snix.Eval.Value.Interner
import Snix.Lib.Discovery
import Snix.Lib.HashTable
import Snix.Lib.Protobuf
import Snix.NixCompat.Derivation.OutputPaths
import Snix.NixCompat.Derivation.Streaming
import Snix.NixCompat.NixHash.Order
import Snix.NixCompat.NixHash.Parse
import Snix.NixCompat.NixHash.RoundTrip
import Snix.NixCompat.Narinfo.Keys
import Snix.NixCompat.Narinfo.Fingerprint
import Snix.Store.PathInfoService.NixHttp
