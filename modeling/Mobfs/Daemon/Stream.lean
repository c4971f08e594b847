import Mobfs.Daemon.Policy
/-!
# The daemon's connection loop

`handleClient` takes one turn of the loop of `handle_client`: it reads a frame,
takes it for a request and answers it. Two requests read further frames from
the same stream, the binary and the streamed write; the streamed write is
modelled call by call (`handleWriteFileAtStream`). The other handlers read
nothing from the stream, so they are parameters (`Handlers`).

`Conn.decoded` records the frames taken for requests. It is for stating
properties only.
-/

namespace Mobfs

def opMarkerTtl : Nat := 24 * 60 * 60

def streamAnnounceBytes : Nat := 4 * 1024 * 1024

/-- `u64::saturating_add`. -/
def satAdd (a b : Nat) : Nat := min (a + b) (2 ^ 64 - 1)

/-- One call of `changes::record`. -/
structure Recorded where
  root : AbsPath
  origin : Nat
  rel : String
  kind : ChangeKind
  deriving DecidableEq, Repr

/-- The daemon: the disk, the counter `MARKS` and the changes recorded so far. -/
structure Daemon (σ : Type) where
  disk : σ
  marks : Nat
  changes : List Recorded

section Handlers
variable {σ : Type}

/-- Runs a call of the operating system. -/
def Daemon.call {α : Type} (d : Daemon σ) (io : Io σ α) : Except MobfsError α × Daemon σ :=
  ((io d.disk).1, { d with disk := (io d.disk).2 })

def Daemon.record (d : Daemon σ) (root : AbsPath) (origin : Nat) (rel : String) (kind : ChangeKind) :
    Daemon σ :=
  { d with changes := d.changes ++ [⟨root, origin, rel, kind⟩] }

variable (os : Os σ) (policy : RootPolicy)

/-! ## Marks of operations already done -/

def opMarkerPath (root opId : String) : Io σ AbsPath := fun s =>
  match policy.check os root s with
  | (.error e, s) => (.error e, s)
  | (.ok root, s) =>
    let safe := String.ofList (opId.toList.filter fun c => c.isDigit || ('a' ≤ c && c ≤ 'f') || ('A' ≤ c && c ≤ 'F'))
    (.ok (os.tempDir ++ ["mobfsd", "ops", os.pathHash root, safe]), s)

def opDone (root opId : String) : Io σ Bool := fun s =>
  match opMarkerPath os policy root opId s with
  | (.error e, s) => (.error e, s)
  | (.ok marker, s) => (.ok (os.exists_ marker s).1, (os.exists_ marker s).2)

def pruneOpMarkers (dir : AbsPath) (s : σ) : σ :=
  match os.readDir dir s with
  | (.error _, s) => s
  | (.ok items, s) => items.foldl (fun s item =>
      match os.elapsed item s with
      | (some age, s) => if opMarkerTtl < age then (os.removeFile item s).2 else s
      | (none, s) => s) s

def markOpDone (root opId : String) (d : Daemon σ) : Except MobfsError Unit × Daemon σ :=
  match d.call (opMarkerPath os policy root opId) with
  | (.error e, d) => (.error e, d)
  | (.ok marker, d) =>
    match d.call (os.createDirAll marker.dropLast) with
    | (.error e, d) => (.error e, d)
    | (.ok (), d) =>
      let disk := if d.marks % 1024 = 0 then pruneOpMarkers os marker.dropLast d.disk else d.disk
      let d := { d with disk, marks := d.marks + 1 }
      d.call (os.write marker "done".toUTF8.toList)

/-! ## The streamed write -/

/-- `drain_stream_bytes`, from `read` bytes on: the result and the frames left. -/
def drainStreamBytes (len : Nat) : List Frame → Nat → Except MobfsError Unit × List Frame
  | [], read => if read < len then (.error .eof, []) else (.ok (), [])
  | f :: frames, read =>
    if read < len then
      let read := satAdd read f.bytes.length
      if len < read then (.error (.remote "binary write length mismatch"), frames)
      else drainStreamBytes len frames read
    else (.ok (), f :: frames)

/-- A streamed write: the request's fields and the client they come from. -/
structure StreamWrite where
  root : String
  rel : String
  offset : Nat
  len : Nat
  opId : Option String
  origin : Nat

/-- The file a streamed write goes to. -/
structure Target where
  rootPath : AbsPath
  file : Nat

/-- Whether the write is known to be done. -/
def writeDone (w : StreamWrite) : Io σ Bool := fun s =>
  match w.opId with
  | some opId => opDone os policy w.root opId s
  | none => (.ok false, s)

/-- Makes the parent directory; the root of the file system has none. -/
def createParent (path : AbsPath) : Io σ Unit := fun s =>
  if path = [] then (.ok (), s) else os.createDirAll path.dropLast s

/-- Opens the file of a streamed write and goes to its offset. -/
def openTarget (w : StreamWrite) : Io σ Target := fun s =>
  match policy.check os w.root s with
  | (.error e, s) => (.error e, s)
  | (.ok rootPath, s) =>
    match safeJoin rootPath w.rel with
    | .error e => (.error e, s)
    | .ok path =>
      match createParent os path s with
      | (.error e, s) => (.error e, s)
      | (.ok (), s) =>
        match os.openWrite path s with
        | (.error e, s) => (.error e, s)
        | (.ok file, s) =>
          match os.seek file w.offset s with
          | (.error e, s) => (.error e, s)
          | (.ok (), s) => (.ok ⟨rootPath, file⟩, s)

/-- Announces the bytes written since `announced`. -/
def announce (w : StreamWrite) (t : Target) (announced written : Nat) (d : Daemon σ) : Daemon σ :=
  d.record t.rootPath w.origin w.rel (.write (w.offset + announced) (written - announced))

/-- The loop of `handle_write_file_at_stream`: the bytes written and announced,
and the frames left. -/
def writeFrames (w : StreamWrite) (t : Target) :
    List Frame → Nat → Nat → Daemon σ → Except MobfsError (Nat × Nat) × List Frame × Daemon σ
  | [], written, announced, d =>
    if written < w.len then (.error .eof, [], d) else (.ok (written, announced), [], d)
  | f :: frames, written, announced, d =>
    if written < w.len then
      let written := satAdd written f.bytes.length
      if w.len < written then (.error (.remote "binary write length mismatch"), frames, d)
      else
        match d.call (os.writeAll t.file f.bytes) with
        | (.error e, d) => (.error e, frames, d)
        | (.ok (), d) =>
          if streamAnnounceBytes ≤ written - announced then
            writeFrames w t frames written written (announce w t announced written d)
          else writeFrames w t frames written announced d
    else (.ok (written, announced), f :: frames, d)

/-- The result, the frames left on the stream and the daemon after a streamed
write. The guard of `begin_write` only changes what the watcher reports. -/
def handleWriteFileAtStream (w : StreamWrite) (frames : List Frame) (d : Daemon σ) :
    Except MobfsError Unit × List Frame × Daemon σ :=
  match d.call (writeDone os policy w) with
  | (.error e, d) => (.error e, frames, d)
  | (.ok true, d) => ((drainStreamBytes w.len frames 0).1, (drainStreamBytes w.len frames 0).2, d)
  | (.ok false, d) =>
    match d.call (openTarget os policy w) with
    | (.error e, d) => (.error e, frames, d)
    | (.ok t, d) =>
      match writeFrames os w t frames 0 0 d with
      | (.error e, frames, d) => (.error e, frames, d)
      | (.ok (written, announced), frames, d) =>
        let d := if announced < written || w.len = 0 then announce w t announced written d else d
        match w.opId with
        | some opId => ((markOpDone os policy w.root opId d).1, frames, (markOpDone os policy w.root opId d).2)
        | none => (.ok (), frames, d)

end Handlers

/-! ## The loop -/

/-- What the daemon sends: a response, or a piece of a range read. -/
inductive Reply where
  | response (r : Response)
  | data (bytes : Bytes)

def rangeFrameBytes : Nat := 1024 * 1024

/-- The answer to a `ReadRange`: a header and the data in pieces. -/
def rangeReplies : Except MobfsError (Bytes × Bool) → List Reply
  | .ok (data, eof) => .response (.rangeHeader data.length eof) :: (Lib.chunks rangeFrameBytes data).map .data
  | .error e => [.response (.error e.text)]

/-- What a command has written to one of its outputs. -/
def outputOf (stream : RunStream) (outputs : List (RunStream × Bytes)) : Bytes :=
  outputs.flatMap fun o => if o.1 = stream then o.2 else []

/-- The answer to a `Run`: the outputs as they come, and the result. -/
def runReplies (outputs : List (RunStream × Bytes)) (result : Except MobfsError (Option Int)) : List Reply :=
  outputs.map (fun o => .response (.runOutput o.1 o.2)) ++
    [.response (match result with
      | .ok code => .runResult code (outputOf .stdout outputs) (outputOf .stderr outputs)
      | .error e => .error e.text)]

/-- The handlers that read nothing from the stream. -/
structure Handlers (σ : Type) where
  handleRequest : Request → RootPolicy → Nat → Daemon σ → Except MobfsError Response × Daemon σ
  readRange : String → String → Nat → Nat → RootPolicy → Daemon σ → Except MobfsError (Bytes × Bool) × Daemon σ
  /-- The outputs in the order they are sent, and the exit code. -/
  handleRun : String → List String → RootPolicy → Daemon σ →
    List (RunStream × Bytes) × Except MobfsError (Option Int) × Daemon σ
  handleWriteFileAtBytes : String → String → Nat → Bytes → RootPolicy → Daemon σ →
    Except MobfsError Unit × Daemon σ

structure Conn (σ : Type) where
  incoming : List Frame
  outgoing : List Reply
  clientId : Nat
  isOpen : Bool
  daemon : Daemon σ
  decoded : List Frame

def respond {α : Type} (result : Except MobfsError α) (ok : α → Response) : Reply :=
  .response (match result with
    | .ok a => ok a
    | .error e => .error e.text)

section Loop
variable {σ : Type} (codec : Codec) (os : Os σ) (policy : RootPolicy) (handlers : Handlers σ)

/-- Answers one request: the frames left, the replies, the client id and the
daemon afterwards. -/
def answer (request : Request) (frames : List Frame) (clientId : Nat) (d : Daemon σ) :
    List Frame × List Reply × Nat × Daemon σ :=
  match request with
  | .setClientId id => (frames, [.response .ok], id, d)
  | .readRange root rel offset len =>
    let r := handlers.readRange root rel offset len policy d
    (frames, rangeReplies r.1, clientId, r.2)
  | .run root command =>
    let r := handlers.handleRun root command policy d
    (frames, runReplies r.1 r.2.1, clientId, r.2.2)
  | .writeFileAtBinary root rel offset len =>
    match frames with
    | [] => ([], [respond (.error .eof) fun () => .ok], clientId, d)
    | f :: frames =>
      if f.bytes.length = len then
        let r := handlers.handleWriteFileAtBytes root rel offset f.bytes policy d
        (frames, [respond r.1 fun () => .ok], clientId, r.2)
      else (frames, [.response (.error "binary write length mismatch")], clientId, d)
  | .writeFileAtStream root rel offset len opId =>
    let r := handleWriteFileAtStream os policy ⟨root, rel, offset, len, opId, clientId⟩ frames d
    (r.2.1, [respond r.1 fun () => .ok], clientId, r.2.2)
  | request =>
    let r := handlers.handleRequest request policy clientId d
    (frames, [respond r.1 id], clientId, r.2)

/-- One turn of the loop. The turn `sends` says whether the reply can still be
sent; if not, the loop ends. -/
def handleClient (c : Conn σ) (sends : Bool) : Option (Conn σ) :=
  if !c.isOpen then none
  else
    match c.incoming with
    | [] => some { c with isOpen := false }
    | f :: frames =>
      match codec.fromSlice f.bytes with
      | .error _ => some { c with incoming := frames, isOpen := false }
      | .ok request =>
        let drop := os.shouldDropRequest request c.daemon.disk
        let d := { c.daemon with disk := drop.2 }
        if drop.1 then
          some { c with incoming := frames, isOpen := false, daemon := d, decoded := c.decoded ++ [f] }
        else
          let a := answer os policy handlers request frames c.clientId d
          some { incoming := a.1, outgoing := c.outgoing ++ a.2.1, clientId := a.2.2.1, isOpen := sends,
                 daemon := a.2.2.2, decoded := c.decoded ++ [f] }

end Loop

end Mobfs
