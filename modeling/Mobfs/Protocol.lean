import Mobfs.Lib.Chunks
import Mobfs.Snapshot
/-!
# The wire protocol

Requests, responses and errors as `protocol.rs` and `error.rs` declare them.
Everything travels in frames on one ordered, encrypted stream; a frame is just
bytes, and nothing in it says whether it carries a request or a piece of a
write's data. `Frame.sentAs` is the sender's intention: no code reads it.
-/

namespace Mobfs

abbrev Bytes := List UInt8

inductive Request where
  | hello
  | snapshot (root : String) (ignore : List String)
  | stat (root rel : String)
  | listDir (root rel : String)
  | readFile (root rel : String)
  | readFileChunk (root rel : String) (offset len : Nat)
  | readSmallFiles (root : String) (rels : List String) (maxFileBytes maxTotalBytes : Nat)
  | writeFile (root rel : String) (data : Bytes) (mode : Nat)
  | writeFileStart (root rel uploadId : String)
  | writeFileChunk (root rel uploadId : String) (offset : Nat) (data : Bytes)
  | writeFileOffset (root rel uploadId : String)
  | writeFileAt (root rel : String) (offset : Nat) (data : Bytes)
  | writeFileAtBinary (root rel : String) (offset len : Nat)
  | writeFileAtStream (root rel : String) (offset len : Nat) (opId : Option String)
  | truncate (root rel : String) (size : Nat) (opId : Option String)
  | fsync (root rel : String)
  | rename (root src dst : String) (opId : Option String)
  | writeFileFinish (root rel uploadId sha256 : String) (mode : Nat)
  | symlink (root rel target : String) (opId : Option String)
  | setMetadata (root rel : String) (mode : Option Nat) (modified : Option Int) (opId : Option String)
  | mkdir (root rel : String) (opId : Option String)
  | remove (root rel : String) (dir : Bool) (opId : Option String)
  | run (root : String) (command : List String)
  | setClientId (id : Nat)
  | readRange (root rel : String) (offset len : Nat)
  | snapshotMeta (root : String) (ignore : List String) (maxEntries : Nat)
  | watchChanges (root : String) (ignore : List String) (epoch : Nat) (since : Option Nat) (timeoutMs : Nat)
  | statFs (root : String)
  | search (root query : String) (ignore : List String) (limit : Nat)
  deriving DecidableEq, Repr

inductive ChangeKind where
  | write (offset len : Nat)
  | metadata
  | replaced
  deriving DecidableEq, Repr

structure ChangeEvent where
  path : String
  kind : ChangeKind
  deriving DecidableEq, Repr

structure FsStats where
  totalBytes : Nat
  freeBytes : Nat
  availBytes : Nat
  files : Nat
  freeFiles : Nat
  deriving DecidableEq, Repr

inductive RunStream where
  | stdout
  | stderr
  deriving DecidableEq, Repr

inductive Response where
  | hello (version : Nat)
  | snapshot (snapshot : Snapshot)
  | stat (entry : Option EntryMeta)
  | dirEntries (entries : List (String × EntryMeta))
  | file (data : Bytes)
  | fileChunk (data : Bytes) (eof : Bool)
  | smallFiles (files : List (String × Bytes))
  | fileOffset (offset : Nat)
  | runOutput (stream : RunStream) (data : Bytes)
  | runResult (code : Option Int) (stdout stderr : Bytes)
  | rangeHeader (len : Nat) (eof : Bool)
  | snapshotMeta (snapshot : Snapshot) (completeDirs : List String)
  | changes (epoch cursor : Nat) (events : List ChangeEvent) (reset live : Bool)
  | statFs (stats : FsStats)
  | searchResults (results : List (String × EntryMeta))
  | ok
  | error (message : String)

inductive MobfsError where
  | io (message : String)
  /-- An `io` error of kind `UnexpectedEof`: the peer has closed the stream. -/
  | eof
  | json (message : String)
  | invalidPath (path : String)
  | config (message : String)
  | remote (message : String)
  | server (message : String)
  deriving DecidableEq, Repr

/-- `error.to_string()`, the text an `Error` response carries. -/
def MobfsError.text : MobfsError → String
  | .io m => "io error: " ++ m
  | .eof => "io error: unexpected end of file"
  | .json m => "json error: " ++ m
  | .invalidPath p => "invalid path: " ++ p
  | .config m => "config error: " ++ m
  | .remote m => "remote error: " ++ m
  | .server m => "remote error: " ++ m

/-! ## Frames -/

inductive SentAs where
  | request
  | payload
  deriving DecidableEq, Repr

structure Frame where
  bytes : Bytes
  sentAs : SentAs
  deriving DecidableEq, Repr

/-- `serde_json` on requests. -/
structure Codec where
  toVec : Request → Bytes
  fromSlice : Bytes → Except MobfsError Request

/-- The documented behaviour the protocol rests on, for one request: reading
back what was written gives the request. -/
def Codec.ReadsBack (codec : Codec) (r : Request) : Prop := codec.fromSlice (codec.toVec r) = .ok r

/-- The frame `write_frame` sends for a request. -/
def Codec.requestFrame (codec : Codec) (r : Request) : Frame := ⟨codec.toVec r, .request⟩

/-- The frames of a write's data. -/
def payloadFrames (data : Bytes) (chunkSize : Nat) : List Frame :=
  (Lib.chunks chunkSize data).map fun c => ⟨c, .payload⟩

/-- The frames `send_with_byte_stream` sends before it reads the response. -/
def sendWithByteStream (codec : Codec) (request : Request) (data : Bytes) (chunkSize : Nat) : List Frame :=
  codec.requestFrame request :: payloadFrames data chunkSize

end Mobfs
