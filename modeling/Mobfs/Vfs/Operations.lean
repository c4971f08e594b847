import Mobfs.Vfs.BlockCache
import Mobfs.Vfs.Caches
import Mobfs.Vfs.Mutate
import Mobfs.Vfs.NameCache
/-!
# Operations that change the remote

The operations of the mount that change the remote, as lists of tasks: tests, flushes,
calls of `mutate` (`Mobfs.Vfs.Mutate`), and what is done to the caches. Where a task
fails, the operation returns an error, and what is left of its tasks is not done. What
the daemon has carried out until then stays.
-/

namespace Mobfs

open Lib Std
open WriteBack (matching)

/-! ## What the daemon answers -/

/-- `entry_meta_fast`. -/
def entryMetaFast (n : Node) : Option EntryMeta :=
  (entryMeta (fun _ => "") n).map fun m => { m with sha256 := none }

section Remote
variable (w : Walks)

/-- The daemon's answer to `Stat`. -/
def statRemote (t : Tree) (p : String) : Option EntryMeta := (w.lookup t p).bind entryMetaFast

/-- The daemon's answer to `ListDir`. -/
def listDir (t : Tree) (d : String) : Option (DirEntries EntryMeta) :=
  (w.follow t d).bind fun q =>
    if q = "" ∨ t.isDir q = true then
      some (t.paths.filterMap fun p =>
        if (splitParent p).1 = q then ((t.node p).bind entryMetaFast).map fun m => ((splitParent p).2, m) else none)
    else none

/-- `list_dir` of the client, which leaves ignored names out. -/
def listRemote (ignore : List String) (t : Tree) (d : String) : Option (DirEntries EntryMeta) :=
  (listDir w t d).map fun entries => entries.filter fun e => !shouldIgnorePart e.1.toList ignore

/-- The daemon's answer to a read of one block. -/
def readRemote (t : Tree) (p : String) (index : Nat) : Option Bytes :=
  (w.follow t p).bind fun q =>
    match t.node q with
    | some (.file data _ _) => some ((data.drop (index * blockSize)).take blockSize)
    | _ => none

end Remote

/-! ## Operations -/

inductive VfsOp where
  | create (p : String) (mode : Nat) (exclusive : Bool)
  | setattr (p : String) (mode size : Option Nat) (modified : Option Int)
  | mkdir (p : String) (mode : Nat)
  | symlink (p target : String)
  | rename (src dst : String) (noreplace : Bool)
  | remove (p : String) (dir : Option Bool)

/-- What a look at an entry is for: that there is none (`rename` takes an error of the
`Stat` for that), to know its kind, or to return its attributes after changing them. -/
inductive Purpose where
  | absent (ignoreErrors : Bool)
  | kind
  | attributes (mode : Option Nat) (modified : Option Int)

inductive Task where
  /-- Sidecars, ignored paths and the root concern neither the remote nor the caches. -/
  | aside
  | look (purpose : Purpose) (p : String)
  | stat (purpose : Purpose) (p : String)
  | listDir (p : String)
  | dropBuffers (p : String)
  | waitUploads (p : String)
  | flush (p : String)
  | mutate (op : JournalOp) (mode : Option Nat)
  /-- After the `Truncate` of `setattr`. -/
  | cut (p : String) (size : Nat)
  | finish

def removeTasks (p : String) (dir : Bool) : List Task :=
  (if dir then [.listDir p] else []) ++ [.dropBuffers p, .waitUploads p, .mutate (.remove p dir) none, .finish]

namespace VfsOp

def isAside (ignore : List String) : VfsOp → Bool
  | .setattr p _ _ _ => p = "" || isSidecar p
  | .rename src dst _ => isSidecar src || isSidecar dst || shouldIgnoreRel ignore dst
  | .create p _ _ | .mkdir p _ | .symlink p _ | .remove p _ => isSidecar p || shouldIgnoreRel ignore p

def tasks (ignore : List String) (op : VfsOp) : List Task :=
  if op.isAside ignore then [.aside]
  else
    match op with
    | .create p mode exclusive =>
      (if exclusive then [.look (.absent false) p] else []) ++ [.mutate (.truncate p 0) (some (masked mode)), .finish]
    | .setattr p mode size modified =>
      .flush p ::
        ((match size with
          | some size => [.mutate (.truncate p size) none, .cut p size]
          | none => []) ++
        (if mode.isSome || modified.isSome then [.mutate (.setMetadata p (mode.map masked) modified) none] else []) ++
        [.look (.attributes (mode.map masked) modified) p])
    | .mkdir p mode => [.mutate (.mkdir p) (some (masked mode)), .finish]
    | .symlink p target => [.mutate (.symlink p target) none, .finish]
    | .rename src dst noreplace =>
      (if noreplace then [.look (.absent true) dst] else []) ++
        [.flush src, .flush dst, .mutate (.rename src dst) none, .finish]
    | .remove p (some dir) => removeTasks p dir
    | .remove p none => [.look .kind p]

/-- The tables of names after success. -/
def caches (clock : Int) (now : Nat) (c : Caches EntryMeta) : VfsOp → Caches EntryMeta
  | .create p mode _ =>
    let m := fileMeta 0 (masked mode) clock
    (c.setMeta p m).dirUpsert p m
  | .setattr _ _ _ _ => c
  | .mkdir p mode =>
    let m := ⟨.dir, 0, clock, none, masked mode, none⟩
    ((c.setMeta p m).dirUpsert p m).setDir p now []
  | .symlink p target =>
    let m := ⟨.symlink, target.utf8ByteSize, clock, none, 0o777, some target⟩
    (c.setMeta p m).dirUpsert p m
  | .rename src dst _ => c.renamed src dst
  | .remove p _ => c.removed p

/-- The paths whose blocks are invalidated after success. -/
def stale : VfsOp → String → Bool
  | .create p _ _, q => q = p
  | .rename src dst _, q => matching src q || matching dst q
  | .remove p _, q => matching p q
  | _, _ => false

end VfsOp

/-- A write that is not on the remote yet: in a buffer, or `flying`, among the uploads. -/
structure PendingPart where
  path : String
  offset : Nat
  data : Bytes
  flying : Bool

inductive OpStage where
  | running (todo : List Task)
  | returned (r : Except Errno Unit)

/-- An operation under way. -/
structure Operation where
  remote : Mutations
  pending : List PendingPart
  caches : Caches EntryMeta
  blocks : String → Nat → Option Bytes
  stage : OpStage

inductive OpAct where
  | aside (r : Except Errno Unit)
  | look (k : CacheClock)
  /-- The daemon answers a `Stat` or `ListDir`, or it fails. -/
  | ask (fault : Option Errno)
  /-- A task of the mount alone, or `mutate` has returned `Ok`. -/
  | go (clock : Int) (now : Nat)
  /-- A flush returns the error of an upload, `mutate` one of its own. -/
  | fails (e : Errno)
  | remote (a : MutateAct)
  | dispatch (n : Nat)
  /-- A worker's upload is handled, for the first bytes if the connection ends before the
  data; it may be refused. -/
  | upload (n written : Nat) (h : Handling)

namespace Operation

def goOn (s : Operation) (todo : List Task) : Operation := { s with stage := .running todo }

def ends (s : Operation) (r : Except Errno Unit) : Operation := { s with stage := .returned r }

def hasPending (s : Operation) (p : String) : Bool := s.pending.any fun part => matching p part.path

/-- `metas` with an entry put in or taken out. -/
def setEntry (s : Operation) (p : String) (m : Option EntryMeta) : Operation :=
  { s with caches := match m with
      | some m => s.caches.setMeta p m
      | none => s.caches.forget p }

/-- The entry after the `Truncate` of `setattr`. -/
def resizedEntry (old : Option EntryMeta) (size : Nat) (clock : Int) : EntryMeta :=
  { old.getD (fileMeta size 0o644 clock) with size, modified := clock }

/-- The entry that is there, or the answer of the daemon, ends a look or lets it pass. -/
def looked (s : Operation) (rest : List Task) (p : String) : Purpose → Option EntryMeta → Operation
  | .absent _, some _ => s.ends (.error .eexist)
  | .absent _, none => s.goOn rest
  | .kind, some m => s.goOn (removeTasks p (m.kind = .dir))
  | .kind, none => s.ends (.error .enoent)
  | .attributes _ _, some _ => s.ends (.ok ())
  | .attributes _ _, none => s.ends (.error .enoent)

/-- The look into the caches; `none` where they do not say. -/
def lookCached (s : Operation) (k : CacheClock) (p : String) : Purpose → Option (Option EntryMeta)
  | .attributes _ _ => s.caches.metas[p]?.map some
  | _ =>
    match s.caches.metas[p]? with
    | some m => some (some m)
    | none => if s.caches.knownAbsent k (splitParent p).1 (splitParent p).2 then some none else none

/-- The edit of the entry after `SetMetadata`, which `setattr` then returns. -/
def editCached (s : Operation) (p : String) : Purpose → Operation
  | .attributes mode modified =>
    match s.caches.metas[p]? with
    | some m => s.setEntry p (some { m with mode := mode.getD m.mode, modified := modified.getD m.modified })
    | none => s
  | _ => s

/-- The steps of `mutate` for one operation, without those of other writers. -/
def isOfMutate (op : JournalOp) (mode : Option Nat) : MutateAct → Bool
  | .call op' mode' => op' = op && mode' = mode
  | .recordFails op' _ => op' = op
  | .others _ => false
  | _ => true

section System
variable (w : Walks) (blobs : String → Bytes) (retries : Nat) (ignore : List String) (op : VfsOp)

/-- `stat_remote`. -/
def stat (s : Operation) (rest : List Task) (purpose : Purpose) (p : String) : Option Errno → Operation
  | some e => if let .absent true := purpose then s.goOn rest else s.ends (.error e)
  | none =>
    let m := statRemote w s.remote.tree p
    let s' := if m.isSome && s.hasPending p then s else s.setEntry p m
    s'.looked rest p purpose m

def step (s : Operation) (a : OpAct) : Option Operation :=
  match s.stage with
  | .returned _ => none
  | .running todo =>
    match a, todo with
    | .aside r, .aside :: _ => some (s.ends r)
    | .look k, .look purpose p :: rest =>
      match s.lookCached k p purpose with
      | some m => some ((s.editCached p purpose).looked rest p purpose m)
      | none => some (s.goOn (.stat purpose p :: rest))
    | .ask fault, .stat purpose p :: rest => some (s.stat w rest purpose p fault)
    | .ask (some e), .listDir _ :: _ => some (s.ends (.error e))
    | .ask none, .listDir p :: rest =>
      match listRemote w ignore s.remote.tree p with
      | some [] => some (s.goOn rest)
      | some _ => some (s.ends (.error .enotempty))
      | none => none
    | .go _ _, .dropBuffers p :: rest =>
      some ({ s with pending := s.pending.filter fun part => part.flying || !matching p part.path }.goOn rest)
    | .go _ _, .waitUploads p :: rest =>
      if s.pending.any fun part => part.flying && part.path = p then none else some (s.goOn rest)
    | .go _ _, .flush p :: rest => if s.hasPending p then none else some (s.goOn rest)
    | .fails e, .flush _ :: _ => some (s.ends (.error e))
    | .remote b, .mutate jop mode :: _ =>
      if isOfMutate jop mode b then (mutateStep w blobs retries s.remote b).map fun remote => { s with remote } else none
    | .go _ _, .mutate _ _ :: rest =>
      match s.remote.phase with
      | .returned _ true => some ({ s with remote := { s.remote with phase := .idle } }.goOn rest)
      | _ => none
    | .fails e, .mutate _ _ :: _ =>
      match s.remote.phase with
      | .returned _ false => some ({ s with remote := { s.remote with phase := .idle } }.ends (.error e))
      | _ => none
    | .go clock _, .cut p size :: rest =>
      let s' := s.setEntry p (some (resizedEntry s.caches.metas[p]? size clock))
      some ({ s' with blocks := fun q i => if q = p then none else s.blocks q i }.goOn rest)
    | .go clock now, .finish :: _ =>
      some ({ s with
        caches := op.caches clock now s.caches
        blocks := fun q i => if op.stale q then none else s.blocks q i }.ends (.ok ()))
    | .dispatch n, _ =>
      s.pending[n]?.map fun part => { s with pending := s.pending.set n { part with flying := true } }
    | .upload n written h, _ =>
      match s.pending[n]? with
      | some part =>
        let tree := (handle w blobs h false s.remote.tree (.writeAt part.path part.offset (part.data.take written))).1
        -- The worker invalidates the range, whether or not the daemon has taken the data.
        some { s with
          remote := { s.remote with tree }
          pending := s.pending.eraseIdx n
          blocks := fun q i =>
            if q = part.path ∧ part.offset < (i + 1) * blockSize ∧ i * blockSize < part.offset + part.data.length then none
            else s.blocks q i }
      | none => none
    | _, _ => none

end System

/-- An operation about to begin. -/
def start (ignore : List String) (op : VfsOp) (remote : Mutations) (pending : List PendingPart) (caches : Caches EntryMeta)
    (blocks : String → Nat → Option Bytes) : Operation :=
  ⟨remote, pending, caches, blocks, .running (op.tasks ignore)⟩

end Operation

end Mobfs
