import Mobfs.Daemon.Rejected
import Mobfs.Vfs.Operations
import Mobfs.Vfs.Replays
/-!
# Setting attributes

What `SetMetadata` does on the remote, where modes and times are those the file system keeps, and
what `setattr`, `create` and `mkdir` put into `metas`. `SetattrTakes` and `ModeTakes` are the
conditions under which the two agree.
-/

namespace Mobfs

open Lib Std

/-- What is relied on beyond `Walks.Steady` and `Walks.Fresh`. -/
structure Walks.Led (w : Walks) : Prop extends w.Steady, w.Fresh where
  /-- A path does not lead to a link. -/
  noLink : ∀ t p q, w.follow t p = some q → t.isLink q = false
  /-- What a path leads to is found under it, unless a link is. -/
  found : ∀ t p q, w.follow t p = some q → ∃ q', w.locate t p = some q' ∧ (q' = q ∨ t.isLink q' = true)

/-- A tree with the times of its directories, which a `Tree` does not keep. -/
structure TimedTree where
  tree : Tree
  times : String → Int

/-- How the requests of a call of `mutate` fare, as far as the daemon handles them: those of
the action, first for the operation and then for the mode beside it, and those of
`replay_journal`. Each goes with whether its marker is there. Where the journal has records of
earlier calls, it is about what comes after the last request for one of these. -/
structure Course where
  first : List (Handling × Bool)
  mode : List (Handling × Bool)
  again : List (Handling × Bool)
  /-- It is `recover_journal` that ends well, and not the action. -/
  recovered : Bool

/-- The remote, and what `metas` has for a path. -/
structure Mounted where
  remote : TimedTree
  cached : Option EntryMeta

/-- Attributes in place of those of the entry. -/
def EntryMeta.given (mode : Option Nat) (modified : Option Int) (m : EntryMeta) : EntryMeta :=
  { m with mode := mode.getD m.mode, modified := modified.getD m.modified }

/-! ## The daemon -/

section Remote
variable (w : Walks) (blobs : String → Bytes)

/-- `entry_meta_fast`. -/
def TimedTree.fastMeta (s : TimedTree) (q : String) : Option EntryMeta :=
  ((s.tree.node q).bind entryMetaFast).map fun m =>
    if m.kind = .dir then { m with modified := modifiedSecs (s.times q) } else m

/-- The daemon's answer to `Stat`. -/
def TimedTree.stat (s : TimedTree) (p : String) : Option EntryMeta := (w.locate s.tree p).bind s.fastMeta

def onTree (c : Tree → Option Tree) (s : TimedTree) : Option TimedTree := (c s.tree).map fun tree => { s with tree }

/-- `set_file_mtime`. -/
def touchFile (p : String) (modified : Int) (s : TimedTree) : Option TimedTree :=
  (setFileMtime w p modified s.tree).map fun tree =>
    ⟨tree, fun q => if w.follow s.tree p = some q then w.keptTime modified else s.times q⟩

/-- `set_mode`. -/
def modeCalls (p : String) : Option Nat → List (TimedTree → Option TimedTree)
  | some mode => if mode ≠ 0 then [onTree (setPermissions w p mode)] else []
  | none => []

/-- `set_mtime`. -/
def mtimeCalls (p : String) : Option Int → List (TimedTree → Option TimedTree)
  | some modified => if 0 < modified then [touchFile w p modified] else []
  | none => []

def timedCalls (h : Handling) (t : Tree) : JournalOp → List (TimedTree → Option TimedTree)
  | .setMetadata p mode modified => modeCalls w p mode ++ mtimeCalls w p modified
  | op => (op.calls w blobs h t).map onTree

/-- A request for an operation under `once`. -/
def handleTimed (h : Handling) (marked : Bool) (s : TimedTree) (op : JournalOp) : TimedTree × Bool :=
  runSteps h.refused s (if marked then [some] else some :: timedCalls w blobs h s.tree op ++ [some])

/-- Requests one after the other, with the last answer. -/
def handleRequests (requests : List (JournalOp × Handling × Bool)) (r : TimedTree × Bool) : TimedTree × Bool :=
  requests.foldl (fun r x => handleTimed w blobs x.2.1 x.2.2 r.1 x.1) r

/-! ## The mount -/

def Course.requests (c : Course) (op : JournalOp) (mode : Option Nat) : List (JournalOp × Handling × Bool) :=
  c.first.map (op, ·) ++ ((action op mode).tail.flatMap fun o => c.mode.map (o, ·)) ++ c.again.map (op, ·)

/-- `mutate`, and whether it returns `Ok`. -/
def Course.mutate (c : Course) (op : JournalOp) (mode : Option Nat) (s : TimedTree) : TimedTree × Bool :=
  let r := handleRequests w blobs (c.requests op mode) (s, false)
  (r.1, c.recovered || r.2)

namespace Mounted
variable (s : Mounted) (p : String) (clock : Int)

/-- The part of `setattr` that is for the size; with whether it goes on. -/
def cutSize (c : Course) : Option Nat → Mounted × Bool
  | some size =>
    let r := c.mutate w blobs (.truncate p size) none s.remote
    if r.2 then (⟨r.1, some (Operation.resizedEntry s.cached size clock)⟩, true) else (⟨r.1, s.cached⟩, false)
  | none => (s, true)

/-- The part for mode and time. -/
def setMetadata (c : Course) (mode : Option Nat) (modified : Option Int) : Mounted × Bool :=
  if mode.isSome || modified.isSome then
    let r := c.mutate w blobs (.setMetadata p mode modified) none s.remote
    if r.2 then (⟨r.1, s.cached.map (·.given mode modified)⟩, true) else (⟨r.1, s.cached⟩, false)
  else (s, true)

/-- `setattr`, after `flush_matching`; nothing for an error. -/
def setattr (cut set : Course) (mode size : Option Nat) (modified : Option Int) : Mounted × Option EntryMeta :=
  let (s, ok) := s.cutSize w blobs p clock cut size
  if ok then
    let (s, ok) := s.setMetadata w blobs p set (mode.map masked) modified
    (s, if ok then s.cached.or (s.remote.stat w p) else none)
  else (s, none)

/-- `create` and `mkdir` from `mutate` on, with the entry they report. -/
def makeEntry (op : JournalOp) (m : EntryMeta) (c : Course) : Mounted × Option EntryMeta :=
  let r := c.mutate w blobs op (some m.mode) s.remote
  if r.2 then (⟨r.1, some m⟩, some m) else (⟨r.1, s.cached⟩, none)

def create (mode : Nat) (c : Course) : Mounted × Option EntryMeta :=
  s.makeEntry w blobs (.truncate p 0) (fileMeta 0 (masked mode) clock) c

def mkdir (mode : Nat) (c : Course) : Mounted × Option EntryMeta :=
  s.makeEntry w blobs (.mkdir p) ⟨.dir, 0, clock, none, masked mode, none⟩ c

end Mounted

/-! ## What is asked of the reports -/

/-- `create` and `mkdir` ask for the mode once the operation has been answered with `Ok`: a
request for it has made all its calls. And the daemon makes files with one mode. -/
structure Course.Fits (c : Course) (stamp : Stamp) (op : JournalOp) (s : TimedTree) : Prop where
  answered : c.mode ≠ [] → ∃ pre h post, c.first = pre ++ (h, false) :: post ∧
    (handleTimed w blobs h false (handleRequests w blobs (pre.map (op, ·)) (s, false)).1 op).2 = true
  modes : ∀ x ∈ c.first ++ c.again, stamp.SameModes x.1.stamp

end Remote

/-! ## One request for the attributes -/

section Requests
variable {w : Walks} {blobs : String → Bytes} {s s' : TimedTree} {p q : String} {e : EntryMeta}

/-- The mode or time that `Stat` tells where the daemon sets it. -/
def taken (w : Walks) (mode : Option Nat) : Option Nat := (mode.filter (· ≠ 0)).map w.modeFor

/-- An entry with attributes that were set, if it is no link. -/
def EntryMeta.set (mode : Option Nat) (modified : Option Int) (m : EntryMeta) : EntryMeta :=
  if m.kind = .symlink then m else m.given mode modified

variable {h : Handling} {mode : Option Nat} {modified : Option Int}

end Requests

end Mobfs
