import Mathlib.Logic.Function.Basic
import Mobfs.Lib.Contents
import Mobfs.Lib.Maps
import Mobfs.Lib.Runs
import Mobfs.Path
import Mobfs.Protocol
/-!
# Write-back

`write` puts its data into a buffer of the file handle and returns. Later the
buffer is taken out, registered as an upload and written to the remote by a
worker. A buffer is taken out by a write that cannot extend it, by `flush`, by
`flush_matching` and by the idle flusher, each under the lock of the buffers;
it is registered under the lock of the uploads. Between the two the thread that
took it holds it alone.

A thread runs a list of instructions, one critical section each, and threads
interleave in any way. A `Part` is the data of one call of `write`; parts,
`written`, `returned`, `uploaded`, `place`, `taken`, `flushed` and `matched` are
for stating properties and read by no instruction.
-/

namespace Mobfs

open Lib Std

def writeBufferLimit : Nat := 8 * 1024 * 1024

def maxInflightUploadBytes : Nat := 128 * 1024 * 1024

inductive Errno where
  | enoent
  | eacces
  | eexist
  | enotempty
  | eisdir
  | enotdir
  | enospc
  | erofs
  | enametoolong
  | einval
  | eio
  | estale
  | noXattr
  deriving DecidableEq, Repr

def isSidecar (path : String) : Bool :=
  let name := (splitParent path).2
  ['.', '_'].isPrefixOf name.toList || name = ".DS_Store"

/-- `resize` and `copy_from_slice`: a write to contents kept in memory. -/
def putBytes (stored : Bytes) (offset : Nat) (data : Bytes) : Bytes :=
  writeAt 0 (stored ++ List.replicate (offset + data.length - stored.length) 0) offset data

/-! ## Buffers and uploads -/

/-- The data of one call of `write`, numbered in the order of the calls. -/
structure Part where
  id : Nat
  fh : Nat
  path : String
  offset : Nat
  data : Bytes
  deriving DecidableEq, Repr

/-- The parts follow each other without a gap, from `offset` on. -/
def Chained : Nat → List Part → Prop
  | _, [] => True
  | offset, p :: ps => p.offset = offset ∧ Chained (offset + p.data.length) ps

def partsData (parts : List Part) : Bytes := parts.flatMap (·.data)

/-- `PendingWrite`. Its data is that of the writes it was made from. -/
structure Pending where
  ino : Nat
  path : String
  offset : Nat
  parts : List Part
  chained : Chained offset parts

def Pending.data (c : Pending) : Bytes := partsData c.parts

theorem Chained.append {offset : Nat} {ps : List Part} {p : Part} (h : Chained offset ps)
    (hp : p.offset = offset + (partsData ps).length) : Chained offset (ps ++ [p]) := by
  induction ps generalizing offset with
  | nil => exact ⟨by simpa [partsData] using hp, trivial⟩
  | cons q ps ih =>
    refine ⟨h.1, ih h.2 ?_⟩
    rw [hp, partsData, partsData, List.flatMap_cons, List.length_append]
    omega

/-- A buffer for one write. -/
def Pending.single (ino : Nat) (p : Part) : Pending := ⟨ino, p.path, p.offset, [p], rfl, trivial⟩

/-- `pending.data.extend_from_slice`. -/
def Pending.extend (c : Pending) (p : Part) (h : p.offset = c.offset + c.data.length) : Pending :=
  { c with parts := c.parts ++ [p], chained := c.chained.append h }

inductive UploadState where
  | queued
  | written
  | failed (e : Errno)
  deriving DecidableEq, Repr

/-- `Upload`, with the data its worker was given. -/
structure Upload where
  id : Nat
  fh : Nat
  pending : Pending
  state : UploadState

/-- The ranges have a byte in common, by the test of `dispatch_pending`. -/
def overlaps (o len o' len' : Nat) : Bool := o < o' + len' && o' < o + len

/-! ## Threads -/

/-- One critical section of a call. -/
inductive Instr where
  | takeError (fh : Nat)
  | buffer (fh ino : Nat) (path : String) (offset : Nat) (data : Bytes)
  /-- `write` returns `Ok`. -/
  | wrote (p : Part)
  | take (fh : Nat)
  | resolve (fh : Nat) (c : Pending)
  | register (fh : Nat) (c : Pending)
  | waitFh (fh : Nat)
  | waitMatching (path : String)
  | waitAll
  /-- `flush` returns `Ok`; `due` had been written when it started. -/
  | flushed (fh : Nat) (due : List Part)
  | collect (path : String)
  | collectAll
  /-- `flush_matching` returns `Ok`; `due` had been written when it started. -/
  | matched (path : String) (due : List Part)
  | remoteFsync (path : String)

inductive VfsCall where
  | write (ino fh offset : Nat) (data : Bytes)
  | flush (fh : Nat)
  | fsync (ino fh : Nat)
  | read (ino : Nat)
  | setattr (ino : Nat)
  /-- `flush_idle`, with the handles it finds idle. -/
  | flushIdle (fhs : List Nat)
  | flushAllBuffers

/-- Where the data of a write is. -/
inductive Place where
  | buffered
  /-- Thread `t` has taken it out and not yet registered it. -/
  | held (t : Nat)
  | flying (id : Nat)
  | applied
  | lost
  deriving DecidableEq, Repr

/-- A `flush_matching` that has returned `Ok`: what had been written when it
started and when it returned, and the remote contents then. -/
structure Matched where
  path : String
  due : List Part
  all : List Part
  contents : Bytes

structure WriteBack where
  buffers : ExtTreeMap Nat Pending
  inflight : List Upload
  bytes : Nat
  next : Nat
  errors : Nat → Option Errno
  inodes : Nat → Option String
  remote : String → Bytes
  threads : Nat → List Instr
  written : List Part
  returned : List Part
  /-- What `write_file_at` has written to the remote. -/
  uploaded : List Pending
  place : Nat → Place
  taken : List Nat
  flushed : List (Nat × List Part)
  matched : List Matched

namespace WriteBack

/-- The thread goes on with `prog`. -/
def goOn (s : WriteBack) (t : Nat) (prog : List Instr) : WriteBack :=
  { s with threads := Function.update s.threads t prog }

def move (s : WriteBack) (parts : List Part) (dest : Place) : WriteBack :=
  { s with place := fun id => if id ∈ parts.map (·.id) then dest else s.place id }

/-- The writes to a path, in the order of the calls. -/
def writtenTo (s : WriteBack) (path : String) : List Part := s.written.filter (·.path = path)

def matching (path candidate : String) : Bool := candidate = path || below path candidate

/-- The handles whose buffers `flush_matching` finds. -/
def matchingHandles (s : WriteBack) (path : String) : List Nat :=
  (s.buffers.toList.filter fun x => matching path x.2.path).map (·.1)

def overlapping (s : WriteBack) (c : Pending) : Bool :=
  s.inflight.any fun u => u.pending.path = c.path &&
    overlaps u.pending.offset u.pending.data.length c.offset c.data.length

def room (s : WriteBack) (c : Pending) : Bool :=
  s.inflight.isEmpty || s.bytes + c.data.length ≤ maxInflightUploadBytes

/-- The instructions of a call, where it reaches the buffers at all: a file
must have a path, and the files kept out of the remote have no uploads. -/
def program (ignore : List String) (s : WriteBack) : VfsCall → Option (List Instr)
  | .write ino fh offset data =>
    match s.inodes ino with
    | none => none
    | some path =>
      if path = "" || isSidecar path || shouldIgnoreRel ignore path then none
      else some [.takeError fh, .buffer fh ino path offset data]
  | .flush fh => some [.take fh, .waitFh fh, .takeError fh, .flushed fh (s.returned.filter (·.fh = fh))]
  | .fsync ino fh =>
    match s.inodes ino with
    | none => none
    | some path =>
      if isSidecar path then none
      else some [.take fh, .waitFh fh, .takeError fh, .flushed fh (s.returned.filter (·.fh = fh)),
        .collect path, .matched path (s.writtenTo path), .remoteFsync path]
  | .read ino =>
    match s.inodes ino with
    | none => none
    | some path => if path = "" || isSidecar path then none else some [.collect path, .matched path (s.writtenTo path)]
  | .setattr ino =>
    match s.inodes ino with
    | none => none
    | some path => if path = "" || isSidecar path then none else some [.collect path, .matched path (s.writtenTo path)]
  | .flushIdle fhs => some (fhs.map .take)
  | .flushAllBuffers => some [.collectAll]

/-- The critical section of `write`. -/
def bufferWrite (s : WriteBack) (t : Nat) (rest : List Instr) (ino : Nat) (p : Part) : WriteBack :=
  let s := { s with written := s.written ++ [p] }
  match s.buffers[p.fh]? with
  | none => ({ s with buffers := s.buffers.insert p.fh (.single ino p) }.move [p] .buffered).goOn t (.wrote p :: rest)
  | some c =>
    if h : c.ino = ino ∧ p.offset = c.offset + c.data.length ∧
        c.data.length + p.data.length ≤ writeBufferLimit then
      ({ s with buffers := s.buffers.insert p.fh (c.extend p h.2.1) }.move [p] .buffered).goOn t (.wrote p :: rest)
    else
      (({ s with buffers := s.buffers.insert p.fh (.single ino p) }.move c.parts (.held t)).move [p] .buffered).goOn t
        (.resolve p.fh c :: .wrote p :: rest)

/-- Executes an instruction; `rest` follows it. -/
def exec1 (s : WriteBack) (t : Nat) (rest : List Instr) : Instr → Option WriteBack
  | .takeError fh =>
    match s.errors fh with
    | none => some (s.goOn t rest)
    | some _ =>
      -- The call returns the error.
      some ({ s with errors := Function.update s.errors fh none, taken := fh :: s.taken }.goOn t [])
  | .buffer fh ino path offset data =>
    some (s.bufferWrite t rest ino ⟨s.written.length, fh, path, offset, data⟩)
  | .wrote p => some ({ s with returned := s.returned ++ [p] }.goOn t rest)
  | .take fh =>
    match s.buffers[fh]? with
    | none => some (s.goOn t rest)
    | some c => some (({ s with buffers := s.buffers.erase fh }.move c.parts (.held t)).goOn t (.resolve fh c :: rest))
  | .resolve fh c =>
    some (s.goOn t (.register fh { c with path := (s.inodes c.ino).getD c.path } :: rest))
  | .register fh c =>
    if s.overlapping c || !s.room c then none
    else
      some (({ s with next := s.next + 1, bytes := s.bytes + c.data.length,
                      inflight := s.inflight ++ [Upload.mk (s.next + 1) fh c .queued] }.move c.parts
        (.flying (s.next + 1))).goOn t rest)
  | .waitFh fh => if s.inflight.any (·.fh = fh) then none else some (s.goOn t rest)
  | .waitMatching path =>
    if s.inflight.any fun u => matching path u.pending.path then none else some (s.goOn t rest)
  | .waitAll => if s.inflight.isEmpty then some (s.goOn t rest) else none
  | .flushed fh due => some ({ s with flushed := s.flushed ++ [(fh, due)] }.goOn t rest)
  | .collect path =>
    let fhs := s.matchingHandles path
    some (s.goOn t (fhs.map .take ++ .waitMatching path :: fhs.map .takeError ++ rest))
  | .collectAll => some (s.goOn t (s.buffers.keys.map .take ++ .waitAll :: rest))
  | .matched path due =>
    some ({ s with matched := s.matched ++ [Matched.mk path due (s.writtenTo path) (s.remote path)] }.goOn t rest)
  | .remoteFsync _ => some (s.goOn t rest)

end WriteBack

inductive WriteBackAct where
  | call (t : Nat) (c : VfsCall)
  | run (t : Nat)
  /-- The worker's `write_file_at` returns `Ok`. -/
  | upload (id : Nat)
  /-- It returns an error, after it has written so many bytes. -/
  | uploadFails (id : Nat) (e : Errno) (bytes : Nat)
  /-- The worker takes its upload off the list. -/
  | complete (id : Nat)
  /-- Renames and removals. -/
  | setInodes (inodes : Nat → Option String)

namespace WriteBack

def setState (s : WriteBack) (id : Nat) (state : UploadState) : WriteBack :=
  { s with inflight := s.inflight.map fun u => if u.id = id then { u with state } else u }

/-- `write_file_at` on the remote file. -/
def writeRemote (s : WriteBack) (path : String) (offset : Nat) (data : Bytes) : WriteBack :=
  { s with remote := Function.update s.remote path (writeAt 0 (s.remote path) offset data) }

def step (ignore : List String) (s : WriteBack) : WriteBackAct → Option WriteBack
  | .call t c =>
    match s.threads t with
    | [] => (s.program ignore c).map (s.goOn t)
    | _ => none
  | .run t =>
    match s.threads t with
    | [] => none
    | i :: rest => s.exec1 t rest i
  | .upload id =>
    match s.inflight.find? (·.id = id) with
    | some u =>
      if u.state = .queued then
        let s := s.writeRemote u.pending.path u.pending.offset u.pending.data
        some (({ s with uploaded := s.uploaded ++ [u.pending] }.setState id .written).move u.pending.parts .applied)
      else none
    | none => none
  | .uploadFails id e n =>
    match s.inflight.find? (·.id = id) with
    | some u =>
      if u.state = .queued then
        some ((s.writeRemote u.pending.path u.pending.offset (u.pending.data.take n)).setState id (.failed e))
      else none
    | none => none
  | .complete id =>
    match s.inflight.find? (·.id = id) with
    | some u =>
      let done := { s with inflight := s.inflight.filter (·.id ≠ id), bytes := s.bytes - u.pending.data.length }
      match u.state with
      | .queued => none
      | .written => some done
      | .failed e => some ({ done with errors := Function.update s.errors u.fh (some e) }.move u.pending.parts .lost)
    | none => none
  | .setInodes inodes => some { s with inodes }

/-- Nothing has been written yet. -/
def start (inodes : Nat → Option String) (remote : String → Bytes) : WriteBack :=
  { buffers := ∅, inflight := [], bytes := 0, next := 0, errors := fun _ => none, inodes, remote,
    threads := fun _ => [], written := [], returned := [], uploaded := [], place := fun _ => .buffered, taken := [],
    flushed := [], matched := [] }

end WriteBack

end Mobfs
