import Mobfs.Vfs.TreeInvalidation
/-!
# The caches of a mount and its change feed

`metas` and `dirs` cache what the daemon said about paths and directories. A call
asks the daemon, and puts the answer into the cache some time after the daemon has
computed it. The feed thread takes changes of other clients one by one and removes
what they make stale, in several critical sections; it passes over a change of a
path under which local writes are pending.

Time is the clock of the block cache, which every step advances. A cached value and
an answer are dated by the time the daemon computed them (`asOf`), a change by the
time it was made. No code reads a date.
-/

namespace Mobfs

open Lib

structure Dated (α : Type) where
  value : α
  asOf : Nat
  deriving DecidableEq

structure FeedEvent where
  event : ChangeEvent
  madeAt : Nat
  deriving DecidableEq

/-- A buffered write, by what the caches see of it. -/
structure Chunk where
  path : String
  offset : Nat
  len : Nat
  deriving DecidableEq

/-- Where a chunk is: in `write_buffers`, in the hands of a thread, among the
uploads, and there with its upload ended. -/
inductive ChunkPlace where
  | buffered
  | held
  | uploading
  | ended
  deriving DecidableEq

/-- A request of `setattr`. -/
inductive Attr where
  | truncate (size : Nat)
  | metadata (mode : Option Nat) (modified : Option Int)
  deriving DecidableEq

/-- A call under way, by its next critical section or the answer it waits for. -/
inductive NameCall where
  | stat (p : String)
  | forget (p : String)
  | list (d : String)
  | listed (d : String) (asOf : Nat) (entries : List (String × EntryMeta))
  /-- Puts entries into `metas`; `looked` counts the places already searched for
  pending writes of the first. -/
  | put (asOf looked : Nat) (todo : List (String × EntryMeta))
  | setattr (p : String) (todo : List Attr)
  | invalidate (p : String) (a : Attr) (asOf : Nat) (rest : List Attr)
  | edit (p : String) (a : Attr) (asOf : Nat) (rest : List Attr)
  | write (c : Chunk)
  | wrote (c : Chunk)
  | note (c : Chunk)

/-- A critical section of `apply_change`. -/
inductive Sweep where
  | entry (p : String)
  | metasUnder (p : String)
  | dirsUnder (p : String)
  | range (p : String) (offset len : Nat)
  /-- The two of `invalidate_tree`. -/
  | collect (p : String)
  | bump (p : String) (paths : List String)
  | unlist (d : String)

/-- What the feed thread is doing with an event. -/
inductive Feeding where
  | lookBuffers (e : FeedEvent)
  | lookUploads (e : FeedEvent)
  | sweeping (e : FeedEvent) (todo : List Sweep)

structure Mount where
  metas : String → Option (Dated EntryMeta)
  dirs : String → Option (Dated (List (String × EntryMeta)))
  cache : BlockCache
  chunks : List (Chunk × ChunkPlace)
  calls : Nat → Option NameCall
  queue : List FeedEvent
  feeding : Option Feeding
  /-- The events the cursor is past: applied, and passed over. -/
  applied : List FeedEvent
  passedOver : List FeedEvent

inductive Answer where
  | entry (m : Option EntryMeta)
  | entries (es : List (String × EntryMeta))
  | ok

inductive MountAct where
  /-- `stat_remote`, of a lookup or a getattr. -/
  | stat (t : Nat) (p : String)
  | listDir (t : Nat) (d : String)
  | setattr (t : Nat) (p : String) (todo : List Attr)
  | write (t : Nat) (c : Chunk)
  /-- The daemon computes the answer to a call. -/
  | answer (t : Nat) (a : Answer)
  | fails (t : Nat)
  | run (t : Nat) (clock : Int)
  /-- Another client makes a change. -/
  | change (e : ChangeEvent)
  | feed
  | feedRun
  | place (i : Nat) (dst : ChunkPlace)
  | complete (i : Nat)
  /-- Reads, and what renames and removals do to the blocks. -/
  | cache (a : CacheAct)

/-- Paths `apply_change` takes no notice of. -/
def ignored (ignore : List String) (path : String) : Bool := path = "" || shouldIgnoreRel ignore path

def joinRel (d name : String) : String := if d = "" then name else d ++ "/" ++ name

theorem joinRel_inj {d n n' : String} (h : joinRel d n = joinRel d n') : n = n' := by
  unfold joinRel at h
  split at h
  · exact h
  · rw [← String.toList_inj] at h ⊢
    simpa using h

def fileMeta (size : Nat) (mode : Nat) (clock : Int) : EntryMeta := ⟨.file, size, clock, none, mode, none⟩

/-- The critical sections for an event, in their order. -/
def ChangeEvent.sweeps (e : ChangeEvent) : List Sweep :=
  match e.kind with
  | .write offset len => [.range e.path offset len, .entry e.path, .unlist (splitParent e.path).1]
  | .metadata => [.entry e.path, .unlist (splitParent e.path).1]
  | .replaced => [.metasUnder e.path, .dirsUnder e.path, .collect e.path, .unlist (splitParent e.path).1]

/-- The edit of a cached entry after a `setattr` request has been answered. -/
def Attr.edit (asOf : Nat) (clock : Int) : Attr → Option (Dated EntryMeta) → Option (Dated EntryMeta)
  | .truncate size, some v => some ⟨{ v.value with size, modified := clock }, min v.asOf asOf⟩
  | .truncate size, none => some ⟨fileMeta size 0o644 clock, asOf⟩
  | .metadata mode modified, some v =>
    some ⟨{ v.value with mode := mode.getD v.value.mode, modified := modified.getD v.value.modified }, min v.asOf asOf⟩
  | .metadata _ _, none => none

/-- `note_local_write`. -/
def noteLocalWrite (now : Nat) (clock : Int) (c : Chunk) : Option (Dated EntryMeta) → Dated EntryMeta
  | some v => ⟨{ v.value with kind := .file, size := max v.value.size (c.offset + c.len), modified := clock, sha256 := none },
      v.asOf⟩
  | none => ⟨fileMeta (c.offset + c.len) 0o644 clock, now⟩

namespace Mount

def now (s : Mount) : Nat := s.cache.now

def goOn (s : Mount) (t : Nat) (c : Option NameCall) : Mount := { s with calls := Function.update s.calls t c }

def withStore (s : Mount) (st : BlockStore) : Mount := { s with cache := { s.cache with store := st } }

def setMeta (s : Mount) (p : String) (v : Option (Dated EntryMeta)) : Mount :=
  { s with metas := Function.update s.metas p v }

def setDir (s : Mount) (d : String) (v : Option (Dated (List (String × EntryMeta)))) : Mount :=
  { s with dirs := Function.update s.dirs d v }

def buffer (s : Mount) (c : Chunk) : Mount := { s with chunks := s.chunks ++ [(c, .buffered)] }

/-- One of the two searches of `has_pending_write`. -/
def pendingIn (s : Mount) (places : List ChunkPlace) (path : String) : Bool :=
  s.chunks.any fun (c, place) => decide (place ∈ places) && BlockStore.under path c.path

def call (s : Mount) (t : Nat) (c : NameCall) : Option Mount :=
  match s.calls t with
  | none => some (s.goOn t (some c))
  | some _ => none

/-- A call gets its answer. -/
def answered (s : Mount) (t : Nat) : NameCall → Answer → Option Mount
  | .stat p, .entry (some m) => some (s.goOn t (some (.put s.now 0 [(p, m)])))
  | .stat p, .entry none => some (s.goOn t (some (.forget p)))
  | .list d, .entries es => some (s.goOn t (some (.listed d s.now es)))
  | .setattr p (.truncate size :: rest), .ok => some (s.goOn t (some (.invalidate p (.truncate size) s.now rest)))
  | .setattr p (.metadata mode modified :: rest), .ok => some (s.goOn t (some (.edit p (.metadata mode modified) s.now rest)))
  | _, _ => none

/-- The next critical section of a call. -/
def goOnWith (s : Mount) (t : Nat) (clock : Int) : NameCall → Option Mount
  | .forget p => some ((s.setMeta p none).goOn t none)
  | .listed d asOf entries =>
    some ((s.setDir d (some ⟨entries, asOf⟩)).goOn t
      (some (.put asOf 0 (entries.map fun x => (joinRel d x.1, x.2)))))
  | .put _ _ [] => some (s.goOn t none)
  | .put asOf 0 ((p, m) :: rest) =>
    some (s.goOn t (some (if s.pendingIn [.buffered] p then .put asOf 0 rest else .put asOf 1 ((p, m) :: rest))))
  | .put asOf 1 ((p, m) :: rest) =>
    some (s.goOn t (some (if s.pendingIn [.uploading, .ended] p then .put asOf 0 rest else .put asOf 2 ((p, m) :: rest))))
  | .put asOf (_ + 2) ((p, m) :: rest) => some ((s.setMeta p (some ⟨m, asOf⟩)).goOn t (some (.put asOf 0 rest)))
  | .invalidate p a asOf rest =>
    some ((s.withStore (s.cache.store.invalidatePath p)).goOn t (some (.edit p a asOf rest)))
  | .edit p a asOf rest => some ((s.setMeta p (a.edit asOf clock (s.metas p))).goOn t (some (.setattr p rest)))
  | .setattr p [] => some (s.goOn t (if (s.metas p).isSome then none else some (.stat p)))
  | .write c => some ((s.buffer c).goOn t (some (.wrote c)))
  | .wrote c => some ((s.withStore (s.cache.store.invalidateRange c.path c.offset c.len)).goOn t (some (.note c)))
  | .note c => some ((s.setMeta c.path (some (noteLocalWrite s.now clock c (s.metas c.path)))).goOn t none)
  | _ => none

def sweep (s : Mount) (e : FeedEvent) (rest : List Sweep) : Sweep → Mount
  | .entry p => { s.setMeta p none with feeding := some (.sweeping e rest) }
  | .metasUnder p =>
    { s with
      metas := fun q => if BlockStore.under p q then none else s.metas q
      feeding := some (.sweeping e rest) }
  | .dirsUnder p =>
    { s with
      dirs := fun q => if BlockStore.under p q then none else s.dirs q
      feeding := some (.sweeping e rest) }
  | .range p offset len =>
    { s.withStore (s.cache.store.invalidateRange p offset len) with feeding := some (.sweeping e rest) }
  | .collect p => { s with feeding := some (.sweeping e (.bump p (s.cache.store.treePaths p) :: rest)) }
  | .bump _ paths =>
    { s.withStore (s.cache.store.invalidateWhere paths fun _ => false) with feeding := some (.sweeping e rest) }
  | .unlist d => { s.setDir d none with feeding := some (.sweeping e rest) }

def passOver (s : Mount) (e : FeedEvent) : Mount := { s with feeding := none, passedOver := s.passedOver ++ [e] }

/-- The next critical section of the feed thread. -/
def feedNext (s : Mount) : Feeding → Mount
  | .lookBuffers e =>
    if s.pendingIn [.buffered] e.event.path then s.passOver e else { s with feeding := some (.lookUploads e) }
  | .lookUploads e =>
    if s.pendingIn [.uploading, .ended] e.event.path then s.passOver e
    else { s with feeding := some (.sweeping e e.event.sweeps) }
  | .sweeping e [] => { s with feeding := none, applied := s.applied ++ [e] }
  | .sweeping e (x :: rest) => s.sweep e rest x

/-- Where a chunk may go next. -/
def ChunkPlace.leadsTo : ChunkPlace → ChunkPlace → Bool
  | .buffered, .held => true
  | .held, .uploading => true
  | .uploading, .ended => true
  | _, _ => false

def act (ignore : List String) (s : Mount) : MountAct → Option Mount
  | .stat t p => s.call t (.stat p)
  | .listDir t d => s.call t (.list d)
  | .setattr t p todo => s.call t (.setattr p todo)
  | .write t c => s.call t (.write c)
  | .answer t a => (s.calls t).bind fun c => s.answered t c a
  | .fails t => (s.calls t).map fun _ => s.goOn t none
  | .run t clock => (s.calls t).bind (s.goOnWith t clock)
  | .change e => some { s with queue := s.queue ++ [⟨e, s.now⟩] }
  | .feed =>
    match s.feeding, s.queue with
    | none, e :: queue =>
      if ignored ignore e.event.path then some { s.passOver e with queue }
      else some { s with queue, feeding := some (.lookBuffers e) }
    | _, _ => none
  | .feedRun => s.feeding.map s.feedNext
  | .place i dst =>
    match s.chunks[i]? with
    | some (c, src) =>
      if ChunkPlace.leadsTo src dst then
        -- The worker invalidates the range when its upload has ended.
        let s' := if dst = .ended then s.withStore (s.cache.store.invalidateRange c.path c.offset c.len) else s
        some { s' with chunks := s.chunks.set i (c, dst) }
      else none
    | none => none
  | .complete i =>
    match s.chunks[i]? with
    | some (_, .ended) => some { s with chunks := s.chunks.eraseIdx i }
    | _ => none
  | .cache a => (s.cache.step a).map fun cache => { s with cache }

def step (ignore : List String) (s : Mount) (a : MountAct) : Option Mount :=
  (s.act ignore a).map fun s' => { s' with cache := { s'.cache with now := s.now + 1 } }

/-- Nothing is under way. The caches may be filled. -/
structure Quiet (s : Mount) : Prop where
  calls : ∀ t, s.calls t = none
  cache : s.cache.Idle
  queue : s.queue = []
  feeding : s.feeding = none
  applied : s.applied = []
  passedOver : s.passedOver = []

end Mount

end Mobfs
