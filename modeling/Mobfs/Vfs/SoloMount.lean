import Mathlib.Algebra.GroupWithZero.Nat
import Mobfs.Vfs.Listed
import Mobfs.Vfs.Replays
/-!
# A mount that has the remote to itself

No one else writes, and every request succeeds. The calls of the mount are made one at a
time; beside them buffers are dispatched, uploads carried out, and `metas` thinned out by
`invalidate_all`. A write goes into `metas` at once and to the remote later.

`create` and `rename` look into `metas`; `setattr` and `rename` flush what is buffered for
their paths, `create` does not.
-/

namespace Mobfs

open Lib Std
open WriteBack (matching)

/-! ## The tables -/

/-- `dispatch_pending` goes by the path that the inode has now. -/
def Pending.resolve (t : InodeMaps) (c : Pending) : Pending := { c with path := (t.byIno[c.ino]?).getD c.path }

/-- A write that is appended begins where the buffer ends. -/
theorem offset_of_appends {c : Pending} {ino : Nat} {p : Part}
    (h : c.ino = ino ∧ p.offset = c.offset + c.data.length ∧ c.data.length + p.data.length ≤ writeBufferLimit) :
    p.offset = c.offset + c.data.length := h.2.1

namespace MountTables

section Tables
variable (t : MountTables)

/-- The critical section of `write`, with the buffer that has to make room. -/
def buffer (ino : Nat) (p : Part) : MountTables × Option Pending :=
  match t.buffers[p.fh]? with
  | none => ({ t with buffers := t.buffers.insert p.fh (.single ino p) }, none)
  | some c =>
    if h : c.ino = ino ∧ p.offset = c.offset + c.data.length ∧ c.data.length + p.data.length ≤ writeBufferLimit then
      ({ t with buffers := t.buffers.insert p.fh (c.extend p (offset_of_appends h)) }, none)
    else ({ t with buffers := t.buffers.insert p.fh (.single ino p) }, some c)

def overlapping (c : Pending) : Bool :=
  t.uploads.any fun u => u.pending.path = c.path &&
    overlaps u.pending.offset u.pending.data.length c.offset c.data.length

def room (c : Pending) : Bool :=
  t.uploads.isEmpty || (t.uploads.map (·.pending.data.length)).sum + c.data.length ≤ maxInflightUploadBytes

/-- `none` as long as `dispatch_pending` waits. -/
def register (id fh : Nat) (c : Pending) : Option MountTables :=
  if t.overlapping c || !t.room c then none else some { t with uploads := t.uploads ++ [⟨id, fh, c, .queued⟩] }

/-- The test of `create` with `exclusive` and of `rename` with `noreplace`. -/
def occupied (k : CacheClock) (path : String) (found : Option EntryMeta) : MountTables × Bool :=
  match t.caches.metas[path]? with
  | some _ => (t, true)
  | none =>
    if t.caches.knownAbsent k (splitParent path).1 (splitParent path).2 then (t, false)
    else ((t.statRemote path (.ok found)).1, found.isSome)

def noteWrite (clock : Int) (c : Chunk) : MountTables :=
  let m := (noteLocalWrite 0 clock c (t.caches.metas[c.path]?.map (⟨·, 0⟩))).value
  { t with caches := t.caches.setMeta c.path m }

/-- `retain` of `invalidate_all`, and what it clears besides. -/
def retain (paths : List String) : MountTables :=
  { t with caches := ⟨eraseWhere t.caches.metas fun p => p ∉ paths, ∅⟩ }

def setSide (side : SideData) : MountTables := { t with side }

end Tables

theorem Numbered.refl (t : InodeMaps) : Numbered t t := ⟨id, fun _ _ h => h⟩

theorem Numbered.byIno {t t' : InodeMaps} (h : Numbered t t') (hv : t.Valid) {i : Nat} {p : String}
    (hi : t.byIno[i]? = some p) : t'.byIno[i]? = some p := pathOf_iff.1 (h.pathOf hv (pathOf_iff.2 hi))

end MountTables

/-! ## Calls and what goes on beside them -/

/-- A `write` that has buffered its data. What it has displaced is dispatched, and then it
notes itself. -/
structure Writing where
  fh : Nat
  displaced : Option Pending
  chunk : Chunk

/-- A buffer that `dispatch_fh` has taken, before or after it has looked up the path. -/
structure Dispatching where
  fh : Nat
  pending : Pending
  resolved : Bool

structure SoloMount where
  tables : MountTables
  tree : Tree
  writing : Option Writing
  dispatching : List Dispatching
  /-- Numbers the writes, and the uploads. -/
  written : Nat
  next : Nat

inductive SoloCall where
  | lookup (parent : Nat) (name : String) (k : CacheClock)
  | create (parent : Nat) (name : String) (mode : Nat) (exclusive : Bool) (k : CacheClock) (clock : Int) (stamp : Stamp)
  | write (ino fh offset : Nat) (data : Bytes) (clock : Int)
  | setSize (ino size : Nat) (clock : Int) (stamp : Stamp)
  | rename (parent : Nat) (name : String) (newparent : Nat) (newname : String) (noreplace : Bool) (k : CacheClock)
      (stamp : Stamp)

inductive SoloAct where
  | call (c : SoloCall)
  /-- The rest of a `write`. -/
  | displaces
  | notes (clock : Int)
  /-- `dispatch_fh`, of a flush or the idle flusher: it takes the buffer, looks up its path
  and adds it to the uploads. -/
  | take (fh : Nat)
  | resolve (i : Nat)
  | register (i : Nat)
  /-- The worker's `write_file_at` returns, and then it takes its upload off the list. -/
  | lands (i : Nat) (stamp : Stamp)
  | ends (i : Nat)
  /-- By the feed thread; the paths are those of buffers, as it has found them. -/
  | retain (paths : List String)
  /-- `flush_all_buffers` returns. -/
  | flushAll

namespace SoloMount

section System
variable (w : Walks) (blobs : String → Bytes) (ignore : List String)

/-- A request that the remote carries out. -/
def request (s : SoloMount) (stamp : Stamp) (op : JournalOp) : Option SoloMount :=
  match handle w blobs ⟨stamp, false, none⟩ false s.tree op with
  | (tree, true) => some { s with tree }
  | (_, false) => none

def setTables (s : SoloMount) (tables : MountTables) : SoloMount := { s with tables }

/-- The call ends before it comes to the remote or the buffers, or does so for a sidecar. -/
def aside (s : SoloMount) (side : SideData) : SoloMount := s.setTables (s.tables.setSide side)

/-- Paths that are kept off the remote. -/
def isAside (path : String) : Bool := isSidecar path || shouldIgnoreRel ignore path

def lookup (s : SoloMount) (parent : Nat) (name : String) (k : CacheClock) : SoloMount :=
  match s.tables.side.inodes.childPath parent name with
  | .error _ => s
  | .ok path => s.setTables (s.tables.lookup ignore k parent name (statAnswer w s.tree path)).1

/-- The tables after the test, which `asked` has to be made, and whether it ends the call. -/
def looks (s : SoloMount) (asked : Bool) (k : CacheClock) (path : String) : MountTables × Bool :=
  if asked then s.tables.occupied k path (statRemote w s.tree path) else (s.tables, false)

def create (s : SoloMount) (parent : Nat) (name : String) (mode : Nat) (exclusive : Bool) (k : CacheClock) (clock : Int)
    (stamp : Stamp) : Option SoloMount :=
  match s.tables.side.inodes.childPath parent name with
  | .error _ => some s
  | .ok path =>
    if isAside ignore path then
      some (s.aside (s.tables.side.create ignore parent name mode exclusive clock (.ok ())).1)
    else
      let (t, taken) := s.looks w exclusive k path
      if taken then some (s.setTables t)
      else
        (s.request w blobs stamp (.truncate path 0)).bind fun s =>
        (s.request w blobs stamp (.setMetadata path (some (masked mode)) none)).map fun s =>
        let m := fileMeta 0 (masked mode) clock
        s.setTables ({ t with caches := (t.caches.setMeta path m).dirUpsert path m }.found path m).1

def write (s : SoloMount) (ino fh offset : Nat) (data : Bytes) (clock : Int) : SoloMount :=
  match s.tables.side.inodes.pathOf ino with
  | .error _ => s
  | .ok path =>
    if path = "" || isAside ignore path then s.aside (s.tables.side.write ino offset data clock).1
    else
      let (t, displaced) := s.tables.buffer ino ⟨s.written, fh, path, offset, data⟩
      { s with tables := t, writing := some ⟨fh, displaced, path, offset, data.length⟩, written := s.written + 1 }

def setSize (s : SoloMount) (ino size : Nat) (clock : Int) (stamp : Stamp) : Option SoloMount :=
  match s.tables.side.inodes.pathOf ino with
  | .error _ => some s
  | .ok path =>
    if path = "" || isSidecar path then some (s.aside (s.tables.side.setattr ino none (some size) none).1)
    else if s.tables.hasPendingWrite path then none
    else
      (s.request w blobs stamp (.truncate path size)).map fun s =>
        let t := s.tables
        s.setTables { t with
          caches := t.caches.setMeta path (Operation.resizedEntry t.caches.metas[path]? size clock) }

def rename (s : SoloMount) (parent : Nat) (name : String) (newparent : Nat) (newname : String) (noreplace : Bool)
    (k : CacheClock) (stamp : Stamp) : Option SoloMount :=
  match s.tables.side.inodes.childPath parent name, s.tables.side.inodes.childPath newparent newname with
  | .error _, _ => some s
  | _, .error _ => some s
  | .ok src, .ok dst =>
    let side := (s.tables.side.rename ignore parent name newparent newname noreplace (.ok ())).1
    if isSidecar src || isAside ignore dst then some (s.aside side)
    else
      let (t, taken) := s.looks w noreplace k dst
      if taken then some (s.setTables t)
      else if t.hasPendingWrite src || t.hasPendingWrite dst then none
      else
        (s.request w blobs stamp (.rename src dst)).map fun s =>
          s.setTables { t with caches := t.caches.renamed src dst, side }

def call (s : SoloMount) : SoloCall → Option SoloMount
  | .lookup parent name k => some (s.lookup w ignore parent name k)
  | .create parent name mode exclusive k clock stamp => s.create w blobs ignore parent name mode exclusive k clock stamp
  | .write ino fh offset data clock => some (s.write ignore ino fh offset data clock)
  | .setSize ino size clock stamp => s.setSize w blobs ino size clock stamp
  | .rename parent name newparent newname noreplace k stamp =>
    s.rename w blobs ignore parent name newparent newname noreplace k stamp

def registers (s : SoloMount) (fh : Nat) (c : Pending) : Option SoloMount :=
  (s.tables.register (s.next + 1) fh c).map fun t => { s with tables := t, next := s.next + 1 }

def step (s : SoloMount) : SoloAct → Option SoloMount
  | .call c => if s.writing.isSome then none else s.call w blobs ignore c
  | .displaces =>
    match s.writing with
    | some ⟨fh, some c, chunk⟩ =>
      { s with writing := some ⟨fh, none, chunk⟩ }.registers fh (c.resolve s.tables.side.inodes)
    | _ => none
  | .notes clock =>
    match s.writing with
    | some ⟨_, none, chunk⟩ => some { s with tables := s.tables.noteWrite clock chunk, writing := none }
    | _ => none
  | .take fh =>
    match s.tables.buffers[fh]? with
    | some c =>
      some { s with
        tables := { s.tables with buffers := s.tables.buffers.erase fh }
        dispatching := s.dispatching ++ [⟨fh, c, false⟩] }
    | none => none
  | .resolve i =>
    match s.dispatching[i]? with
    | some ⟨fh, c, false⟩ =>
      some { s with dispatching := s.dispatching.set i ⟨fh, c.resolve s.tables.side.inodes, true⟩ }
    | _ => none
  | .register i =>
    match s.dispatching[i]? with
    | some ⟨fh, c, true⟩ => { s with dispatching := s.dispatching.eraseIdx i }.registers fh c
    | _ => none
  | .lands i stamp =>
    match s.tables.uploads[i]? with
    | some u =>
      if u.state = .queued then
        (s.request w blobs stamp (.writeAt u.pending.path u.pending.offset u.pending.data)).map fun s =>
          s.setTables { s.tables with uploads := s.tables.uploads.set i { u with state := .written } }
      else none
    | none => none
  | .ends i =>
    match s.tables.uploads[i]? with
    | some u =>
      if u.state = .written then some (s.setTables { s.tables with uploads := s.tables.uploads.eraseIdx i }) else none
    | none => none
  | .retain paths => some (s.setTables (s.tables.retain paths))
  | .flushAll => if s.writing.isNone && s.tables.buffers.isEmpty && s.tables.uploads.isEmpty then some s else none

end System

end SoloMount

/-! ## What the requests do to the files -/

def Node.length? : Node → Option Nat
  | .file data _ _ => some data.length
  | _ => none

def Tree.sizeAt (t : Tree) (p : String) : Option Nat := (t.node p).bind Node.length?

section Requests
variable {w : Walks} {blobs : String → Bytes} {stamp : Stamp} {t t' t'' : Tree} {p q r : String}

/-- What there is at `p` is at `q` after it, and ends where it did. -/
def Tree.SameAt (t : Tree) (p : String) (t' : Tree) (q : String) : Prop :=
  t.node p ≠ none → t'.node q ≠ none ∧ t'.sizeAt q = t.sizeAt p

theorem Tree.SameAt.trans (h : t.SameAt p t' q) (h' : t'.SameAt q t'' r) : t.SameAt p t'' r := by
  intro hp
  obtain ⟨hq, hsize⟩ := h hp
  obtain ⟨hr, hsize'⟩ := h' hq
  exact ⟨hr, hsize'.trans hsize⟩

theorem Tree.SameAt.of_node (h : t'.node q = t.node p) : t.SameAt p t' q :=
  fun hp => ⟨by rwa [h], by rw [sizeAt, sizeAt, h]⟩

theorem Tree.sizeAt_eq_some {n : Nat} :
    t.sizeAt p = some n ↔ ∃ data mode mtime, t.node p = some (.file data mode mtime) ∧ data.length = n := by
  unfold sizeAt
  cases hn : t.node p with
  | none => simp
  | some x => cases x <;> simp [Node.length?]

theorem Tree.node_of_sizeAt (h : t.sizeAt p ≠ none) : t.node p ≠ none := by
  intro hn
  rw [sizeAt, hn] at h
  exact h rfl

theorem AddsDirs.sameAt {ds : String → Prop} (h : AddsDirs t t' ds) (q : String) : t.SameAt q t' q := by
  intro hq
  rcases h q with e | ⟨-, hn, -⟩
  · exact Tree.SameAt.of_node e hq
  · exact absurd hn hq

theorem length?_bare (n : Node) : n.bare.length? = n.length? := by
  cases n <;> rfl

theorem Tree.MetaOnly.sizeAt (h : t.MetaOnly t') (q : String) : t'.sizeAt q = t.sizeAt q := by
  have hq := h q
  unfold Tree.sizeAt
  cases hn : t.node q with
  | none => rw [(h.node_none q).2 hn]
  | some n =>
    rw [hn, Option.map_some] at hq
    obtain ⟨n', hn', hb⟩ := Option.map_eq_some_iff.1 hq
    rw [hn', Option.bind_some, Option.bind_some, ← length?_bare n', hb, length?_bare]

theorem Tree.MetaOnly.sameAt (h : t.MetaOnly t') (q : String) : t.SameAt q t' q :=
  fun hq => ⟨fun hn => hq ((h.node_none q).1 hn), h.sizeAt q⟩

/-- A file is opened and changed at a path that leads to itself. -/
theorem openEdit_at {f : Bytes → Bytes} (hq : w.follow t p = some p)
    (hc : doAll t [openCreate w stamp p, editFile w stamp p f] = some t') :
    ∃ data mode, (t.node p ≠ none → t.sizeAt p = some data.length) ∧
      ∀ r, t'.node r = if r = p then some (.file (f data) mode stamp.mtime) else t.node r := by
  obtain ⟨t2, h2, hc⟩ := doAll_cons.1 hc
  obtain ⟨t3, h3, hc⟩ := doAll_cons.1 hc
  cases hc
  unfold openCreate at h2
  rw [hq] at h2
  dsimp only at h2
  split at h2
  · rename_i hn
    obtain ⟨-, -, hnode⟩ := Tree.place_eq_some h2
    have hq2 := w.follow_place t t2 p p _ hq (by simp [Tree.isLink, hn]) rfl h2
    obtain ⟨u, hu, -, hnode'⟩ := editFile_of_file stamp (f := f) hq2 (by rw [hnode, if_pos rfl])
    obtain rfl : t' = u := Option.some.inj (h3.symm.trans hu)
    refine ⟨[], stamp.fileMode, fun h => absurd hn h, fun r => ?_⟩
    · rw [hnode', hnode]
      split <;> rfl
  · rename_i data mode mtime hn
    cases h2
    obtain ⟨u, hu, -, hnode'⟩ := editFile_of_file stamp (f := f) hq hn
    obtain rfl : t' = u := Option.some.inj (h3.symm.trans hu)
    refine ⟨data, mode, fun _ => ?_, hnode'⟩
    rw [Tree.sizeAt, hn]
    rfl
  · cases h2

/-- The same in directories that may be missing. -/
theorem openEdit_sizeAt {f : Bytes → Bytes} (hp : t.Plain p) (hl : t.isLink p = false)
    (hc : doAll t (createDirAll w stamp (ancestors p) ++ [openCreate w stamp p, editFile w stamp p f]) = some t') :
    (∃ data : Bytes, t'.sizeAt p = some (f data).length ∧ (t.node p ≠ none → t.sizeAt p = some data.length)) ∧
      ∀ q, q ≠ p → t.SameAt q t' q := by
  obtain ⟨t1, h1, hc⟩ := doAll_append.1 hc
  rw [doAll_createDirAll] at h1
  have hadds := (createDirs_spec (plain_ancestors hp) h1).1
  have hself : t1.node p = t.node p := hadds.self
  obtain ⟨data, mode, hdata, hnode⟩ := openEdit_at (follow_plain (hadds.plain hp) (by rw [hadds.isLink, hl])) hc
  rw [Tree.sizeAt, hself, ← Tree.sizeAt] at hdata
  refine ⟨⟨data, ?_, hdata⟩, fun q hq => ?_⟩
  · rw [Tree.sizeAt, hnode, if_pos rfl]
    rfl
  · exact (hadds.sameAt q).trans (.of_node (by rw [hnode, if_neg hq]))

theorem rename_sameAt {src dst : String} {h : Handling} (hu : h.unseen = false) (hs : t.Plain src) (hd : t.Plain dst)
    (hc : doAll t ((JournalOp.rename src dst).calls w blobs h t) = some t') :
    (∀ q, matching src q = false → matching dst q = false → t.SameAt q t' q) ∧
      ∀ q, matching dst q = true → matching dst (rebase dst src q) = false → t.SameAt (rebase dst src q) t' q := by
  obtain ⟨t1, h1, hc⟩ := doAll_append.1 hc
  obtain ⟨t2, h2, hc⟩ := doAll_cons.1 hc
  cases hc
  rw [doAll_createDirAll] at h1
  have hadds := (createDirs_spec (plain_ancestors hd) h1).1
  rw [renameSeen, hu, if_neg Bool.false_ne_true, lookup_plain (hadds.plain hs), w.locate_plain t1 src (hadds.plain hs),
    w.locate_plain t1 dst (hadds.plain hd)] at h2
  cases hn : t1.node src with
  | none =>
    rw [hn] at h2
    cases h2
    refine ⟨fun q _ _ => hadds.sameAt q, fun q hq _ hr => ?_⟩
    -- There is nothing under a path where there is nothing.
    exfalso
    refine hadds.node_ne_none hr ?_
    rcases matching_iff.1 (matching_rebase src hq) with he | hb
    · rw [he, hn]
    · exact Tree.none_of_below hb (by simp [Tree.isDir, hn])
  | some n =>
    rw [hn] at h2
    by_cases hne : src = dst
    · subst hne
      obtain rfl := Tree.rename_self h2
      refine ⟨fun q _ _ => hadds.sameAt q, fun q hq hno => ?_⟩
      rw [matching_rebase src hq] at hno
      cases hno
    · have hm := Tree.moved_of_rename hne h2
      refine ⟨fun q hsq hdq => (hadds.sameAt q).trans (.of_node ?_), fun q hq _ => (hadds.sameAt _).trans (.of_node ?_)⟩
      · rw [hm.node, if_neg (by simp [hdq]), if_neg (by simp [hsq])]
      · rw [hm.node, if_pos hq]

theorem SoloMount.request_eq {s s' : SoloMount} {op : JournalOp} (h : s.request w blobs stamp op = some s') :
    s' = { s with tree := (handle w blobs ⟨stamp, false, none⟩ false s.tree op).1 } ∧
      doAll s.tree (op.calls w blobs ⟨stamp, false, none⟩ s.tree) = some s'.tree := by
  unfold SoloMount.request at h
  split at h
  · rename_i tree hh
    cases h
    have hok : (handle w blobs ⟨stamp, false, none⟩ false s.tree op).2 = true := by rw [hh]
    have hcalls := handle_ok hok
    rw [hh] at hcalls ⊢
    exact ⟨rfl, hcalls⟩
  · cases h

end Requests

end Mobfs
