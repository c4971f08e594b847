import Mobfs.Daemon.Moves
import Mobfs.Sync.Apply
import Mobfs.Vfs.Journal
/-!
# Mutations on the remote tree

What the daemon does for each journaled operation, call by call. Every call finds
its path anew. The system may refuse any of them, and the handler stops there with
what it has done so far; the marker of `once` is looked up before the first call and
written after the last.

`Underway op before t`: `t` comes from `before` by handling `op` any number of
times, each up to some call. `Applied op before t`: the operation has had its effect.
`handle_underway` and `handle_applied` say so of every handling.
-/

namespace Mobfs

open Lib Std
open WriteBack (matching)

/-! ## The way to an entry -/

/-- What the mutations rely on beyond `Links`. `follow` is the entry a path leads to
when a link at its end is followed too. What is put at the end of a path, where there
was no link, is found there; what is dropped is not; and modes and times play no part
in finding a path. `keptMode` and `keptTime` are the mode and the modification time that the
file system keeps for those it is given: some callers may not set the set-group-ID bit, and
a time has an earliest and a latest one. -/
structure Walks extends Links where
  follow : Tree → String → Option String
  follow_eq : ∀ t p q, locate t p = some q → t.isLink q = false → follow t p = some q
  locate_place : ∀ t t' p q n, locate t p = some q → t.isLink q = false → t.place q n = some t' → locate t' p = some q
  follow_place : ∀ t t' p q n, follow t p = some q → t.isLink q = false → n.isLink = false → t.place q n = some t' →
    follow t' p = some q
  locate_drop : ∀ t p q, locate t p = some q → (locate (t.drop q) p).bind (t.drop q).node = none
  meta_locate : ∀ t t', t.MetaOnly t' → locate t' = locate t
  meta_follow : ∀ t t', t.MetaOnly t' → follow t' = follow t
  meta_leadsToDir : ∀ t t', t.MetaOnly t' → leadsToDir t' = leadsToDir t
  keptMode : Nat → Nat
  keptTime : Int → Int

/-- The mode after `chmod`, which has twelve bits. -/
def Walks.modeFor (w : Walks) (mode : Nat) : Nat := w.keptMode (masked mode)

/-- How a request fares on the daemon. `unseen`: `symlink_metadata` fails although
there is an entry. `refused`: the number of calls that are let through. -/
structure Handling where
  stamp : Stamp
  unseen : Bool
  refused : Option Nat

section Calls
variable (w : Walks) (blobs : String → Bytes)

/-- Opens a file that need not exist. -/
def openCreate (stamp : Stamp) (p : String) (t : Tree) : Option Tree :=
  match w.follow t p with
  | none => none
  | some q =>
    match t.node q with
    | none => t.place q (.file [] stamp.fileMode stamp.mtime)
    | some (.file _ _ _) => some t
    | some _ => none

/-- Changes the contents of a file. -/
def editFile (stamp : Stamp) (p : String) (f : Bytes → Bytes) (t : Tree) : Option Tree :=
  match w.follow t p with
  | none => none
  | some q =>
    match t.node q with
    | some (.file data mode _) => t.place q (.file (f data) mode stamp.mtime)
    | _ => none

def setPermissions (p : String) (mode : Nat) (t : Tree) : Option Tree :=
  (w.follow t p).bind fun q => t.alter q (Node.chmod (w.modeFor mode)) (Node.isDir_chmod _)

def setFileMtime (p : String) (modified : Int) (t : Tree) : Option Tree :=
  (w.follow t p).bind fun q => t.alter q (Node.utime (w.keptTime modified)) (Node.isDir_utime _)

/-- `let _ = fs::remove_file`. -/
def removeFile (p : String) (t : Tree) : Option Tree :=
  match w.locate t p with
  | none => some t
  | some q => some (if t.isDir q then t else t.drop q)

def makeLink (stamp : Stamp) (p target : String) (t : Tree) : Option Tree :=
  match w.locate t p with
  | none => none
  | some q => if t.node q = none then t.place q (.symlink target stamp.linkMode stamp.mtime) else none

/-- The rename, made only if the source is seen. -/
def renameSeen (unseen : Bool) (src dst : String) (t : Tree) : Option Tree :=
  if unseen then some t
  else
    match w.lookup t src with
    | none => some t
    | some _ => (w.locate t src).bind fun q => (w.locate t dst).bind fun q' => t.rename q q'

/-- `remove_dir_all`, the entries of a directory before it. -/
def removeDirAll (t : Tree) (q : String) : List (Tree → Option Tree) :=
  ((t.paths.filter fun p => below q p).reverse ++ [q]).map fun p t => some (t.drop p)

def removeCalls (h : Handling) (t : Tree) (p : String) (dir : Bool) : List (Tree → Option Tree) :=
  if h.unseen then []
  else
    match w.locate t p with
    | none => []
    | some q =>
      match t.node q with
      | none => []
      | some (.dir _) => if dir then removeDirAll t q else [fun _ => none]
      | some _ => [fun t => some (t.drop q)]

/-- `create_dir_all`. -/
def createDirAll (stamp : Stamp) (dirs : List String) : List (Tree → Option Tree) :=
  dirs.map fun d t => createDir w.toLinks stamp.dirMode t d

/-- The calls of an operation on the tree `t`. -/
def JournalOp.calls (h : Handling) (t : Tree) : JournalOp → List (Tree → Option Tree)
  | .truncate p size =>
    createDirAll w h.stamp (ancestors p) ++ [openCreate w h.stamp p, editFile w h.stamp p (resize · size)]
  | .setMetadata p mode modified =>
    (match mode with
      | some m => if m = 0 then [] else [setPermissions w p m]
      | none => []) ++
    (match modified with
      | some tm => if 0 < tm then [setFileMtime w p tm] else []
      | none => [])
  | .mkdir p => createDirAll w h.stamp (ancestors p ++ [p])
  | .symlink p target => createDirAll w h.stamp (ancestors p) ++ [removeFile w p, makeLink w h.stamp p target]
  | .rename src dst => createDirAll w h.stamp (ancestors dst) ++ [renameSeen w h.unseen src dst]
  | .remove p dir => removeCalls w h t p dir
  | .writeAt p offset data =>
    createDirAll w h.stamp (ancestors p) ++
      [openCreate w h.stamp p, editFile w h.stamp p (Lib.writeAt 0 · offset data)]
  | .writeBlob p offset blob =>
    createDirAll w h.stamp (ancestors p) ++
      [openCreate w h.stamp p, editFile w h.stamp p (Lib.writeAt 0 · offset (blobs blob))]

/-- The calls in order, up to the first that fails or is refused. -/
def runCalls : Option Nat → Tree → List (Tree → Option Tree) → Tree × Bool
  | _, t, [] => (t, true)
  | refused, t, c :: cs =>
    if refused = some 0 then (t, false)
    else
      match c t with
      | none => (t, false)
      | some t' => runCalls (refused.map (· - 1)) t' cs

/-- A request for an operation under `once`: it looks for the marker, makes its calls
and writes the marker. -/
def handle (h : Handling) (marked : Bool) (t : Tree) (op : JournalOp) : Tree × Bool :=
  runCalls h.refused t (if marked then [some] else some :: op.calls w blobs h t ++ [some])

/-- The path leads to a directory. -/
def Walks.DirAt (t : Tree) (p : String) : Prop :=
  ∃ q, w.locate t p = some q ∧ (t.isDir q = true ∨ (t.isLink q = true ∧ w.leadsToDir t q = true))

/-- The path leads to a file whose contents satisfy `P`, which is told what the
contents were in `before`. -/
def Walks.FileAt (before t : Tree) (p : String) (P : Option Bytes → Bytes → Prop) : Prop :=
  ∃ q data mode mtime, w.follow t p = some q ∧ t.node q = some (.file data mode mtime) ∧ P none data ∧
    ∀ old mode' mtime', before.node q = some (.file old mode' mtime') → P (some old) data

/-- The effect of the operation, from the tree `before` it to the tree `t` after it. -/
def Applied (before t : Tree) : JournalOp → Prop
  | .truncate p size => w.FileAt before t p fun old data => data.length = size ∧ ∀ d ∈ old, data = resize d size
  | .setMetadata p mode modified =>
    (∀ m, mode = some m → ∃ q n, w.follow t p = some q ∧ t.node q = some n ∧ ∀ m' ∈ n.mode?, m' = masked m) ∧
    (∀ tm, modified = some tm → ∃ q n, w.follow t p = some q ∧ t.node q = some n ∧ ∀ tm' ∈ n.mtime?, tm' = tm)
  | .mkdir p => w.DirAt t p
  | .symlink p target => ∃ mode mtime, w.lookup t p = some (.symlink target mode mtime)
  | .rename src dst =>
    (∃ n, w.lookup before src = some n ∧ w.lookup t dst = some n) ∧ w.lookup t src = none ∧
      ∀ q, below src q = true → t.node (rebase src dst q) = before.node q
  | .remove p _ => w.lookup t p = none
  | .writeAt p offset data => w.FileAt before t p fun _ now => (now.drop offset).take data.length = data
  | .writeBlob p offset blob => w.FileAt before t p fun _ now => (now.drop offset).take (blobs blob).length = blobs blob

/-- What the daemon does not check. It answers `Ok` to a rename whose source is not
there, leaves the mode alone where it is zero and the time where it is not positive, and
sets what the file system keeps of them. -/
def Admissible (t : Tree) : JournalOp → Prop
  | .rename src dst => t.node src ≠ none ∧ t.Plain dst ∧ src ≠ dst
  | .setMetadata _ mode modified =>
    (∀ m, mode = some m → m ≠ 0 ∧ w.modeFor m = masked m) ∧ ∀ tm, modified = some tm → 0 < tm ∧ w.keptTime tm = tm
  | _ => True

/-- The file has its old contents or those that are cut or filled up to `size`. -/
def Resized (size : Nat) (before t : Tree) : Prop :=
  ∀ q data mode mtime, before.node q = some (.file data mode mtime) →
    ∃ mode' mtime', t.node q = some (.file data mode' mtime') ∨ t.node q = some (.file (resize data size) mode' mtime')

/-- Some directories of `dst` are made, and the rename may have followed. -/
def Renamed (src dst : String) (before t : Tree) : Prop :=
  ∃ t1, AddsDirs before t1 (· ∈ ancestors dst) ∧ (t = t1 ∨ t1.rename src dst = some t)

/-- What handling the operation any number of times, each up to some call, makes of
the tree `before`. -/
def Underway (before t : Tree) (op : JournalOp) : Prop :=
  Admissible w before op ∧
    match op with
    | .truncate _ size => Resized size before t
    | .rename src dst => Renamed src dst before t
    | _ => True

end Calls

section Facts
variable {w : Walks} {blobs : String → Bytes} {before t t' : Tree} {op : JournalOp} {h : Handling}

/-- A path that is no link leads to itself. -/
theorem follow_plain {p : String} (hp : t.Plain p) (hl : t.isLink p = false) : w.follow t p = some p :=
  w.follow_eq t p p (w.locate_plain t p hp) hl

theorem runCalls_inv {R : Tree → Prop} {refused : Option Nat} {cs : List (Tree → Option Tree)}
    (hc : ∀ c ∈ cs, ∀ t t', R t → c t = some t' → R t') (ht : R t) : R (runCalls refused t cs).1 := by
  induction cs generalizing refused t with
  | nil => exact ht
  | cons c cs ih =>
    unfold runCalls
    split
    · exact ht
    · split
      · exact ht
      · rename_i t' hct
        exact ih (fun c' hc' => hc c' (List.mem_cons_of_mem _ hc')) (hc c List.mem_cons_self t t' ht hct)

theorem foldlM_nil_iff : [].foldlM (fun t (c : Tree → Option Tree) => c t) t = some t' ↔ t = t' := by
  rw [List.foldlM_nil]
  exact Option.some_inj

theorem foldlM_cons_iff {c : Tree → Option Tree} {cs : List (Tree → Option Tree)} :
    (c :: cs).foldlM (fun t c => c t) t = some t' ↔ ∃ t1, c t = some t1 ∧ cs.foldlM (fun t c => c t) t1 = some t' := by
  rw [List.foldlM_cons]
  exact Option.bind_eq_some_iff

theorem foldlM_append_iff {cs ds : List (Tree → Option Tree)} :
    (cs ++ ds).foldlM (fun t c => c t) t = some t' ↔
      ∃ t1, cs.foldlM (fun t c => c t) t = some t1 ∧ ds.foldlM (fun t c => c t) t1 = some t' := by
  rw [List.foldlM_append]
  exact Option.bind_eq_some_iff

theorem foldlM_inv {R : Tree → Prop} {cs : List (Tree → Option Tree)} (hc : ∀ c ∈ cs, ∀ t t', R t → c t = some t' → R t')
    (ht : R t) (hf : cs.foldlM (fun t c => c t) t = some t') : R t' := by
  induction cs generalizing t with
  | nil =>
    cases hf
    exact ht
  | cons c cs ih =>
    obtain ⟨t1, h1, h2⟩ := foldlM_cons_iff.1 hf
    exact ih (fun c' hc' => hc c' (List.mem_cons_of_mem _ hc')) (hc c List.mem_cons_self t t1 ht h1) h2

theorem runCalls_ok {refused : Option Nat} {cs : List (Tree → Option Tree)} (hok : (runCalls refused t cs).2 = true) :
    cs.foldlM (fun t c => c t) t = some (runCalls refused t cs).1 := by
  induction cs generalizing refused t with
  | nil => rfl
  | cons c cs ih =>
    unfold runCalls at hok ⊢
    split at hok
    · cases hok
    · split at hok
      · cases hok
      · rename_i hr _ t' hct
        rw [if_neg hr, List.foldlM_cons, hct]
        simpa using ih hok

/-! ## What a call keeps -/

theorem createDirAll_mem {stamp : Stamp} {dirs : List String} {c : Tree → Option Tree}
    (hc : c ∈ createDirAll w stamp dirs) : ∃ d ∈ dirs, c = fun t => createDir w.toLinks stamp.dirMode t d := by
  obtain ⟨d, hd, rfl⟩ := List.mem_map.1 hc
  exact ⟨d, hd, rfl⟩

theorem foldlM_createDirAll {stamp : Stamp} {dirs : List String} :
    (createDirAll w stamp dirs).foldlM (fun t c => c t) t = createDirs w.toLinks stamp.dirMode t dirs := by
  rw [createDirAll, createDirs, List.foldlM_map]

/-- Something is put where nothing or a file was. -/
theorem openCreate_spec {stamp : Stamp} {p : String} (hc : openCreate w stamp p t = some t') :
    ∀ q, t'.node q = t.node q ∨ t.node q = none := by
  unfold openCreate at hc
  split at hc
  · cases hc
  · split at hc
    · rename_i q hq _ hn
      obtain ⟨-, -, hnode⟩ := Tree.place_eq_some hc
      intro r
      by_cases hr : r = q
      · exact .inr (hr ▸ hn)
      · exact .inl (by rw [hnode, if_neg hr])
    · cases hc
      exact fun _ => .inl rfl
    · cases hc

theorem editFile_spec {stamp : Stamp} {p : String} {f : Bytes → Bytes} (hc : editFile w stamp p f t = some t') :
    ∃ q data mode mtime, w.follow t' p = some q ∧ t.node q = some (.file data mode mtime) ∧
      ∀ r, t'.node r = if r = q then some (.file (f data) mode stamp.mtime) else t.node r := by
  unfold editFile at hc
  split at hc
  · cases hc
  · split at hc
    · rename_i q hq _ data mode mtime hn
      obtain ⟨-, -, hnode⟩ := Tree.place_eq_some hc
      have hlink : t.isLink q = false := by simp [Tree.isLink, hn, Node.isLink]
      exact ⟨q, data, mode, mtime, w.follow_place t t' p q _ hq hlink rfl hc, hn, hnode⟩
    · cases hc

theorem Resized.start (size : Nat) (t : Tree) : Resized size t t := fun _ _ mode mtime hq => ⟨mode, mtime, .inl hq⟩

theorem Resized.of_file {size : Nat} (hr : Resized size before t)
    (ht : ∀ q data mode mtime, t.node q = some (.file data mode mtime) →
      ∃ mode' mtime', t'.node q = some (.file data mode' mtime') ∨ t'.node q = some (.file (resize data size) mode' mtime')) :
    Resized size before t' := by
  intro q data mode mtime hq
  obtain ⟨mode1, mtime1, h1 | h1⟩ := hr q data mode mtime hq
  · exact ht q data mode1 mtime1 h1
  · obtain ⟨mode2, mtime2, h2 | h2⟩ := ht q _ mode1 mtime1 h1
    · exact ⟨mode2, mtime2, .inr h2⟩
    · exact ⟨mode2, mtime2, .inr (by rw [h2, resize_resize])⟩

theorem Resized.adds {size : Nat} {ds : String → Prop} (hr : Resized size before t) (ha : AddsDirs t t' ds) :
    Resized size before t' := by
  refine hr.of_file ?_
  intro q data mode mtime hq
  rcases ha q with e | ⟨-, hn, -⟩
  · exact ⟨mode, mtime, .inl (e.trans hq)⟩
  · rw [hn] at hq
    cases hq

theorem Resized.metaOnly {size : Nat} (hr : Resized size before t) (hm : t.MetaOnly t') : Resized size before t' := by
  refine hr.of_file ?_
  intro q data mode mtime hq
  obtain ⟨mode', mtime', hq'⟩ := hm.file hq
  exact ⟨mode', mtime', .inl hq'⟩

theorem Resized.openCreate {size : Nat} {stamp : Stamp} {p : String} (hr : Resized size before t)
    (hc : openCreate w stamp p t = some t') : Resized size before t' := by
  refine hr.of_file ?_
  intro q data mode mtime hq
  rcases openCreate_spec hc q with e | hn
  · exact ⟨mode, mtime, .inl (e.trans hq)⟩
  · rw [hn] at hq
    cases hq

theorem Resized.setLen {size : Nat} {stamp : Stamp} {p : String} (hr : Resized size before t)
    (hc : editFile w stamp p (resize · size) t = some t') : Resized size before t' := by
  obtain ⟨r, data', mode', mtime', -, hn, hnode⟩ := editFile_spec hc
  refine hr.of_file ?_
  intro q data mode mtime hq
  rw [hnode]
  by_cases hqr : q = r
  · rw [hqr, hn] at hq
    simp only [Option.some.injEq, Node.file.injEq] at hq
    obtain ⟨rfl, rfl, rfl⟩ := hq
    exact ⟨mode', stamp.mtime, .inr (if_pos hqr)⟩
  · exact ⟨mode, mtime, .inl (by rw [if_neg hqr, hq])⟩

theorem Renamed.start (src dst : String) (t : Tree) : Renamed src dst t t := ⟨t, AddsDirs.refl _ _, .inl rfl⟩

section Rename
variable {src dst : String}

theorem Renamed.createDir {mode : Nat} {d : String} (hr : Renamed src dst before t) (hp : before.Plain dst)
    (hne : src ≠ dst) (hd : d ∈ ancestors dst) (hc : createDir w.toLinks mode t d = some t') :
    Renamed src dst before t' := by
  obtain ⟨t1, ha, rfl | hmv⟩ := hr
  · obtain ⟨hadd, -⟩ := createDir_spec (plain_ancestors (ha.plain hp) d hd) hc
    refine ⟨t', ha.trans (hadd.mono ?_), .inl rfl⟩
    rintro q rfl
    exact hd
  · -- The directories of `dst` are all there.
    have hm := Tree.moved_of_rename hne hmv
    have hb := mem_ancestors_iff.1 hd
    have hdir : t.isDir d = true := by
      rw [Tree.isDir, hm.node_above (.inl hb)]
      exact hm.dirs d hb
    have hsame : Mobfs.createDirs w.toLinks mode t [d] = some t := createDirs_of_isDir (by simpa using hdir)
    simp only [createDirs, List.foldlM_cons, hc, List.foldlM_nil, Option.bind_eq_bind, Option.bind_some,
      Option.pure_def, Option.some.injEq] at hsame
    exact ⟨t1, ha, .inr (hsame ▸ hmv)⟩

/-- The last call of a rename leaves the entry at its new path. -/
theorem Renamed.renameSeen (hr : Renamed src dst before t) (hs : before.node src ≠ none) (hp : before.Plain dst)
    (hne : src ≠ dst) (hc : renameSeen w false src dst t = some t') :
    ∃ t1, AddsDirs before t1 (· ∈ ancestors dst) ∧ t1.rename src dst = some t' := by
  obtain ⟨t1, ha, rfl | hmv⟩ := hr
  · have hn : t.node src ≠ none := ha.node_ne_none hs
    obtain ⟨n, hn'⟩ := Option.ne_none_iff_exists'.1 hn
    refine ⟨t, ha, ?_⟩
    simpa [Mobfs.renameSeen, lookup_of_node hn', w.locate_plain t src (Tree.plain_of_node hn),
      w.locate_plain t dst (ha.plain hp)] using hc
  · have hm := Tree.moved_of_rename hne hmv
    have hgone : w.lookup t src = none := by rw [lookup_plain hm.plain_src, hm.node_src]
    simp only [Mobfs.renameSeen, Bool.false_eq_true, if_false, hgone, Option.some.injEq] at hc
    exact ⟨t1, ha, hc ▸ hmv⟩

theorem applied_of_rename {t1 : Tree} (ha : AddsDirs before t1 (· ∈ ancestors dst)) (hs : before.node src ≠ none)
    (hne : src ≠ dst) (hmv : t1.rename src dst = some t') : Applied w blobs before t' (.rename src dst) := by
  have hm := Tree.moved_of_rename hne hmv
  -- No directory of `dst` lies under `src`, so nothing was added there.
  have hkept : ∀ q, matching src q = true → t1.node q = before.node q := by
    intro q hq
    rcases ha q with e | ⟨hd, -, -⟩
    · exact e
    · have := hm.src_dst
      rw [matching_iff.2 (.inr (matching_below hq (mem_ancestors_iff.1 hd)))] at this
      cases this
  have hat : ∀ q, matching src q = true → t'.node (rebase src dst q) = before.node q := by
    intro q hq
    rw [hm.node, if_pos (matching_rebase dst hq), rebase_rebase dst hq, hkept q hq]
  obtain ⟨n, hn⟩ := Option.ne_none_iff_exists'.1 hs
  refine ⟨⟨n, lookup_of_node hn, lookup_of_node ?_⟩, ?_, fun q hq => hat q (matching_iff.2 (.inr hq))⟩
  · rw [← rebase_self src dst, hat src (matching_self src), hn]
  · rw [lookup_plain hm.plain_src, hm.node_src]

end Rename

/-! ## The other operations -/

theorem createDir_dirAt {mode : Nat} {p : String} (hc : createDir w.toLinks mode t p = some t') : w.DirAt t' p := by
  obtain ⟨q, hq, ⟨hn, hplace⟩ | ⟨rfl, n, hn, hdir | ⟨hlink, hl⟩⟩⟩ := createDir_cases hc
  · obtain ⟨-, -, hnode⟩ := Tree.place_eq_some hplace
    have hlink : t.isLink q = false := by simp [Tree.isLink, hn]
    refine ⟨q, w.locate_place t t' p q _ hq hlink hplace, .inl ?_⟩
    simp [Tree.isDir, hnode, Node.isDir]
  · exact ⟨q, hq, .inl (by simp [Tree.isDir, hn, hdir])⟩
  · exact ⟨q, hq, .inr ⟨by simp [Tree.isLink, hn, hlink], hl⟩⟩

theorem makeLink_lookup {stamp : Stamp} {p target : String} (hc : makeLink w stamp p target t = some t') :
    w.lookup t' p = some (.symlink target stamp.linkMode stamp.mtime) := by
  unfold makeLink at hc
  split at hc
  · cases hc
  · rename_i q hq
    split at hc
    · rename_i hn
      obtain ⟨-, -, hnode⟩ := Tree.place_eq_some hc
      have hlink : t.isLink q = false := by simp [Tree.isLink, hn]
      rw [Links.lookup, w.locate_place t t' p q _ hq hlink hc, Option.bind_some, hnode, if_pos rfl]
    · cases hc

theorem foldlM_drop {ps : List String} (hc : (ps.map fun p t => some (Tree.drop t p)).foldlM (fun t c => c t) t = some t')
    (q : String) : t'.node q = if ∃ p ∈ ps, q = p ∨ below p q = true then none else t.node q := by
  induction ps generalizing t with
  | nil =>
    cases hc
    simp
  | cons p ps ih =>
    simp only [List.map_cons, List.foldlM_cons, Option.bind_eq_bind, Option.bind_some] at hc
    rw [ih hc, Tree.node_drop]
    by_cases h1 : ∃ p ∈ ps, q = p ∨ below p q = true
    · rw [if_pos h1, if_pos]
      obtain ⟨r, hr, hq⟩ := h1
      exact ⟨r, List.mem_cons_of_mem _ hr, hq⟩
    · rw [if_neg h1]
      by_cases h2 : q = p ∨ below p q = true
      · rw [if_pos h2, if_pos ⟨p, List.mem_cons_self, h2⟩]
      · rw [if_neg h2, if_neg]
        rintro ⟨r, hr, hq⟩
        rcases List.mem_cons.1 hr with rfl | hr
        · exact h2 hq
        · exact h1 ⟨r, hr, hq⟩

theorem removeDirAll_drop {q : String} (hc : (removeDirAll t q).foldlM (fun t c => c t) t = some t') : t' = t.drop q := by
  apply Tree.ext_node
  intro r
  rw [foldlM_drop hc, Tree.node_drop]
  -- The directory itself comes last.
  by_cases h1 : r = q ∨ below q r = true
  · rw [if_pos h1, if_pos ⟨q, by simp, h1⟩]
  · rw [if_neg h1, if_neg]
    rintro ⟨p, hp, hr⟩
    simp only [List.mem_append, List.mem_reverse, List.mem_filter, List.mem_singleton] at hp
    rcases hp with ⟨-, hp⟩ | rfl
    · rcases hr with rfl | hr
      · exact h1 (.inr hp)
      · exact h1 (.inr (below_trans hp hr))
    · exact h1 hr

theorem removeCalls_lookup {p : String} {dir : Bool} (hu : h.unseen = false)
    (hc : (removeCalls w h t p dir).foldlM (fun t c => c t) t = some t') : w.lookup t' p = none := by
  unfold removeCalls at hc
  rw [hu, if_neg (by simp)] at hc
  split at hc
  · rename_i hl
    cases hc
    simp [Links.lookup, hl]
  · rename_i q hl
    split at hc
    · rename_i hn
      cases hc
      simp [Links.lookup, hl, hn]
    · split at hc
      · rw [removeDirAll_drop hc]
        exact w.locate_drop t p q hl
      · cases hc
    · cases hc
      exact w.locate_drop t p q hl

theorem setPermissions_spec {p : String} {mode : Nat} (hc : setPermissions w p mode t = some t') :
    t.MetaOnly t' ∧ ∃ q n, w.follow t' p = some q ∧ t'.node q = some n ∧ ∀ m ∈ n.mode?, m = w.modeFor mode := by
  obtain ⟨q, hq, ha⟩ := Option.bind_eq_some_iff.1 hc
  have hm := Tree.metaOnly_of_alter ha (Node.bare_chmod _)
  obtain ⟨n, -, hnode⟩ := Tree.alter_eq_some ha
  refine ⟨hm, q, n.chmod (w.modeFor mode), by rw [w.meta_follow t t' hm, hq], by rw [hnode, if_pos rfl], ?_⟩
  cases n <;> simp [Node.chmod, Node.mode?]

theorem setFileMtime_spec {p : String} {modified : Int} (hc : setFileMtime w p modified t = some t') :
    t.MetaOnly t' ∧ ∃ q n, w.follow t' p = some q ∧ t'.node q = some n ∧ ∀ m ∈ n.mtime?, m = w.keptTime modified := by
  obtain ⟨q, hq, ha⟩ := Option.bind_eq_some_iff.1 hc
  have hm := Tree.metaOnly_of_alter ha (Node.bare_utime _)
  obtain ⟨n, -, hnode⟩ := Tree.alter_eq_some ha
  refine ⟨hm, q, n.utime (w.keptTime modified), by rw [w.meta_follow t t' hm, hq], by rw [hnode, if_pos rfl], ?_⟩
  cases n <;> simp [Node.utime, Node.mtime?]

/-- Setting the time leaves the modes. -/
theorem setFileMtime_mode {p q : String} {modified : Int} {n : Node} {mode : Nat}
    (hc : setFileMtime w p modified t = some t') (hn : t.node q = some n) (hmode : ∀ m ∈ n.mode?, m = mode) :
    ∃ n', t'.node q = some n' ∧ ∀ m ∈ n'.mode?, m = mode := by
  obtain ⟨r, -, ha⟩ := Option.bind_eq_some_iff.1 hc
  obtain ⟨n', hn', hnode⟩ := Tree.alter_eq_some ha
  by_cases hq : q = r
  · rw [hq, hn'] at hn
    cases hn
    exact ⟨n.utime (w.keptTime modified), by rw [hnode, if_pos hq], by rwa [Node.mode?_utime]⟩
  · exact ⟨n, by rw [hnode, if_neg hq, hn], hmode⟩

theorem take_drop_writeAt (cs : Bytes) (offset : Nat) (data : Bytes) :
    ((Lib.writeAt 0 cs offset data).drop offset).take data.length = data := by
  by_cases hd : data = []
  · simp [hd]
  · apply List.ext_getElem?
    intro i
    rw [List.getElem?_take, List.getElem?_drop, getElem?_writeAt _ _ _ _ hd]
    by_cases hi : i < data.length
    · rw [if_pos hi, if_pos (by omega)]
      simp
    · rw [if_neg hi, List.getElem?_eq_none (by omega)]

/-! ## Handling an operation -/

theorem Underway.start (hadm : Admissible w t op) : Underway w t t op := by
  refine ⟨hadm, ?_⟩
  cases op with
  | truncate p size => exact Resized.start size t
  | rename src dst => exact Renamed.start src dst t
  | _ => trivial

theorem Underway.call {t0 : Tree} {c : Tree → Option Tree} (hun : Underway w before t op) (hu : h.unseen = false)
    (hmem : c ∈ op.calls w blobs h t0) (hc : c t = some t') : Underway w before t' op := by
  obtain ⟨hadm, hun⟩ := hun
  refine ⟨hadm, ?_⟩
  cases op with
  | truncate p size =>
    simp only [JournalOp.calls, List.mem_append, List.mem_cons, List.not_mem_nil, or_false] at hmem
    rcases hmem with hmem | rfl | rfl
    · obtain ⟨d, -, rfl⟩ := createDirAll_mem hmem
      exact Resized.adds hun (createDir_adds hc)
    · exact Resized.openCreate hun hc
    · exact Resized.setLen hun hc
  | rename src dst =>
    obtain ⟨hs, hp, hne⟩ := hadm
    simp only [JournalOp.calls, List.mem_append, List.mem_singleton] at hmem
    rcases hmem with hmem | rfl
    · obtain ⟨d, hd, rfl⟩ := createDirAll_mem hmem
      exact Renamed.createDir hun hp hne hd hc
    · rw [hu] at hc
      obtain ⟨t1, ha, hmv⟩ := Renamed.renameSeen hun hs hp hne hc
      exact ⟨t1, ha, .inr hmv⟩
  | _ => trivial

theorem fileAt_of_editFile {stamp : Stamp} {p : String} {f : Bytes → Bytes} {P : Option Bytes → Bytes → Prop}
    (hc : editFile w stamp p f t = some t') (hnone : ∀ data, P none (f data))
    (hsome : ∀ q data mode mtime old mode' mtime', t.node q = some (.file data mode mtime) →
      before.node q = some (.file old mode' mtime') → P (some old) (f data)) : w.FileAt before t' p P := by
  obtain ⟨q, data, mode, mtime, hq, hn, hnode⟩ := editFile_spec hc
  refine ⟨q, f data, mode, stamp.mtime, hq, by rw [hnode, if_pos rfl], hnone data, ?_⟩
  intro old mode' mtime' hold
  exact hsome q data mode mtime old mode' mtime' hn hold

theorem applied_setMetadata {p : String} {mode : Option Nat} {modified : Option Int}
    (hadm : Admissible w before (.setMetadata p mode modified))
    (hc : ((JournalOp.setMetadata p mode modified).calls w blobs h t).foldlM (fun t c => c t) t = some t') :
    Applied w blobs before t' (.setMetadata p mode modified) := by
  obtain ⟨hmode, htime⟩ := hadm
  simp only [JournalOp.calls, foldlM_append_iff] at hc
  obtain ⟨t1, h1, h2⟩ := hc
  refine ⟨?_, ?_⟩
  · rintro m rfl
    obtain ⟨hm, hkept⟩ := hmode m rfl
    simp only [hm, if_false, foldlM_cons_iff, foldlM_nil_iff, exists_eq_right] at h1
    obtain ⟨-, q, n, hq, hn, hnm⟩ := setPermissions_spec h1
    rw [hkept] at hnm
    cases modified with
    | none =>
      cases h2
      exact ⟨q, n, hq, hn, hnm⟩
    | some tm =>
      simp only [(htime tm rfl).1, if_true, foldlM_cons_iff, foldlM_nil_iff, exists_eq_right] at h2
      obtain ⟨hmeta, -⟩ := setFileMtime_spec h2
      obtain ⟨n', hn', hnm'⟩ := setFileMtime_mode h2 hn hnm
      exact ⟨q, n', by rw [w.meta_follow t1 t' hmeta, hq], hn', hnm'⟩
  · rintro tm rfl
    simp only [(htime tm rfl).1, if_true, foldlM_cons_iff, foldlM_nil_iff, exists_eq_right] at h2
    rw [← (htime tm rfl).2]
    exact (setFileMtime_spec h2).2

/-- All the calls together have the effect of the operation. -/
theorem applied_of_calls (hun : Underway w before t op) (hu : h.unseen = false)
    (hc : (op.calls w blobs h t).foldlM (fun t c => c t) t = some t') : Applied w blobs before t' op := by
  obtain ⟨hadm, hun⟩ := hun
  cases op with
  | truncate p size =>
    simp only [JournalOp.calls, foldlM_append_iff, foldlM_cons_iff, foldlM_nil_iff, exists_eq_right] at hc
    obtain ⟨t1, h1, t2, h2, h3⟩ := hc
    rw [foldlM_createDirAll] at h1
    have hr : Resized size before t2 := (Resized.adds hun (createDirs_adds h1)).openCreate h2
    unfold Applied
    refine fileAt_of_editFile h3 (fun d => ⟨length_resize d size, by simp⟩) ?_
    intro q data mode mtime old mode' mtime' hn hold
    refine ⟨length_resize data size, ?_⟩
    rintro _ ⟨⟩
    -- The file has its old data or, from an earlier handling, the new; resizing again changes nothing.
    obtain ⟨m2, mt2, hq | hq⟩ := hr q old mode' mtime' hold
    · rw [hn] at hq
      cases hq
      rfl
    · rw [hn] at hq
      cases hq
      exact resize_resize old size
  | setMetadata p mode modified => exact applied_setMetadata hadm hc
  | mkdir p =>
    simp only [JournalOp.calls, createDirAll, List.map_append, List.map_cons, List.map_nil, foldlM_append_iff,
      foldlM_cons_iff, foldlM_nil_iff, exists_eq_right] at hc
    obtain ⟨t1, -, h2⟩ := hc
    exact createDir_dirAt h2
  | symlink p target =>
    simp only [JournalOp.calls, foldlM_append_iff, foldlM_cons_iff, foldlM_nil_iff, exists_eq_right] at hc
    obtain ⟨t1, -, t2, -, h3⟩ := hc
    exact ⟨_, _, makeLink_lookup h3⟩
  | rename src dst =>
    obtain ⟨hs, hp, hne⟩ := hadm
    simp only [JournalOp.calls, foldlM_append_iff, foldlM_cons_iff, foldlM_nil_iff, exists_eq_right, hu] at hc
    obtain ⟨t1, h1, h2⟩ := hc
    have hr : Renamed src dst before t1 := by
      refine foldlM_inv ?_ hun h1
      intro c hmem t2 t3 hr hc
      obtain ⟨d, hd, rfl⟩ := createDirAll_mem hmem
      exact hr.createDir hp hne hd hc
    obtain ⟨t2, ha, hmv⟩ := hr.renameSeen hs hp hne h2
    exact applied_of_rename ha hs hne hmv
  | remove p dir => exact removeCalls_lookup hu hc
  | writeAt p offset data =>
    simp only [JournalOp.calls, foldlM_append_iff, foldlM_cons_iff, foldlM_nil_iff, exists_eq_right] at hc
    obtain ⟨t1, -, t2, -, h3⟩ := hc
    unfold Applied
    exact fileAt_of_editFile h3 (fun d => take_drop_writeAt d offset data)
      fun _ d _ _ _ _ _ _ _ => take_drop_writeAt d offset data
  | writeBlob p offset blob =>
    simp only [JournalOp.calls, foldlM_append_iff, foldlM_cons_iff, foldlM_nil_iff, exists_eq_right] at hc
    obtain ⟨t1, -, t2, -, h3⟩ := hc
    unfold Applied
    exact fileAt_of_editFile h3 (fun d => take_drop_writeAt d offset (blobs blob))
      fun _ d _ _ _ _ _ _ _ => take_drop_writeAt d offset (blobs blob)

theorem handle_marked : (handle w blobs h true t op).1 = t :=
  runCalls_inv (R := (· = t)) (by simp) rfl

theorem handle_underway {marked : Bool} (hun : Underway w before t op) (hu : h.unseen = false) :
    Underway w before (handle w blobs h marked t op).1 op := by
  cases marked with
  | true => rwa [handle_marked]
  | false =>
    refine runCalls_inv (R := fun t => Underway w before t op) ?_ hun
    intro c hmem t1 t2 h1 hc
    simp only [Bool.false_eq_true, if_false, List.mem_append, List.mem_cons, List.not_mem_nil, or_false] at hmem
    rcases hmem with (rfl | hmem) | rfl
    · cases hc
      exact h1
    · exact h1.call hu hmem hc
    · cases hc
      exact h1

/-- An operation that is answered with `Ok` and whose marker was not there has its effect. -/
theorem handle_applied (hun : Underway w before t op) (hu : h.unseen = false)
    (hok : (handle w blobs h false t op).2 = true) : Applied w blobs before (handle w blobs h false t op).1 op := by
  have hc := runCalls_ok hok
  simp only [Bool.false_eq_true, if_false, foldlM_append_iff, foldlM_cons_iff, foldlM_nil_iff, Option.some.injEq,
    exists_eq_left', exists_eq_right] at hc
  exact applied_of_calls hun hu hc

/-! ## Metadata set beside -/

theorem Tree.MetaOnly.refl (t : Tree) : t.MetaOnly t := fun _ => rfl

theorem Tree.MetaOnly.trans {t1 t2 t3 : Tree} (h12 : t1.MetaOnly t2) (h23 : t2.MetaOnly t3) : t1.MetaOnly t3 :=
  fun q => (h23 q).trans (h12 q)

theorem handle_setMetadata {marked : Bool} {p : String} {mode : Option Nat} {modified : Option Int} :
    t.MetaOnly (handle w blobs h marked t (.setMetadata p mode modified)).1 := by
  refine runCalls_inv (R := t.MetaOnly) ?_ (Tree.MetaOnly.refl t)
  intro c hmem t1 t2 h1 hc
  refine h1.trans ?_
  have hcases : c = some ∨ (∃ m, c = setPermissions w p m) ∨ ∃ tm, c = setFileMtime w p tm := by
    cases marked with
    | true => exact .inl (by simpa using hmem)
    | false =>
      simp only [Bool.false_eq_true, if_false, JournalOp.calls, List.mem_append, List.mem_cons, List.not_mem_nil,
        or_false] at hmem
      rcases hmem with (rfl | hmem | hmem) | rfl
      · exact .inl rfl
      · split at hmem
        · split at hmem
          · cases hmem
          · exact .inr (.inl ⟨_, List.mem_singleton.1 hmem⟩)
        · cases hmem
      · split at hmem
        · split at hmem
          · exact .inr (.inr ⟨_, List.mem_singleton.1 hmem⟩)
          · cases hmem
        · cases hmem
      · exact .inl rfl
  rcases hcases with rfl | ⟨m, rfl⟩ | ⟨tm, rfl⟩
  · cases hc
    exact Tree.MetaOnly.refl _
  · exact (setPermissions_spec hc).1
  · exact (setFileMtime_spec hc).1

theorem Applied.metaOnly_truncate {p : String} {size : Nat} (ha : Applied w blobs before t (.truncate p size))
    (hm : t.MetaOnly t') : Applied w blobs before t' (.truncate p size) := by
  obtain ⟨q, data, mode, mtime, hq, hn, hnone, hsome⟩ := ha
  obtain ⟨mode', mtime', hn'⟩ := hm.file hn
  exact ⟨q, data, mode', mtime', by rw [w.meta_follow t t' hm, hq], hn', hnone, hsome⟩

theorem Applied.metaOnly_mkdir {p : String} (ha : Applied w blobs before t (.mkdir p)) (hm : t.MetaOnly t') :
    Applied w blobs before t' (.mkdir p) := by
  obtain ⟨q, hq, hdir⟩ := ha
  refine ⟨q, by rw [w.meta_locate t t' hm, hq], ?_⟩
  rwa [hm.isDir, hm.isLink, w.meta_leadsToDir t t' hm]

end Facts

end Mobfs
