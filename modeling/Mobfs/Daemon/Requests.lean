import Mobfs.Daemon.Calls
/-!
# All requests on the remote tree

What each request does to the tree, call by call, and the changes its handler records.
The journaled operations are those of `Mobfs.Daemon.Calls`; beside them are the writes,
and the uploads, which go through a temporary file next to the path.

Clients write a path as the tree does. The root is no entry of the tree, and requests
for it stand apart (`rootCalls`). The markers of `once` are outside of the tree.
-/

namespace Mobfs

open Lib
open WriteBack (matching)

/-! ## Temporary files -/

/-- `with_file_name`. -/
def withFileName (p name : String) : String :=
  match (ancestors p).getLast? with
  | some parent => parent ++ "/" ++ name
  | none => name

def fileName (p : String) : String := (splitParent p).2

def uploadTempPath (p uploadId : String) : Option String :=
  if uploadId.toList.all fun c => c.isAlphanum || c = '-' || c = '_' then
    some (withFileName p ("." ++ fileName p ++ ".mobfs-upload-" ++ uploadId))
  else none

def atomicTempPath (pid : Nat) (p : String) : String :=
  withFileName p ("." ++ fileName p ++ ".mobfs-tmp-" ++ toString pid)

/-! ## Requests -/

namespace Request

/-- The paths a request is to change. -/
def paths : Request → List String
  | .writeFile _ p _ _ | .writeFileStart _ p _ | .writeFileChunk _ p _ _ _ | .writeFileAt _ p _ _
  | .writeFileAtBinary _ p _ _ | .truncate _ p _ _ | .writeFileFinish _ p _ _ _ | .symlink _ p _ _
  | .setMetadata _ p _ _ _ | .mkdir _ p _ | .remove _ p _ _ => [p]
  | .rename _ src dst _ => [src, dst]
  | _ => []

/-- The op id, for `once`. -/
def onceId : Request → Option String
  | .truncate _ _ _ opId | .rename _ _ _ opId | .symlink _ _ _ opId | .setMetadata _ _ _ _ opId | .mkdir _ _ opId
  | .remove _ _ _ opId => opId
  | _ => none

/-- What the handler records before it answers `Ok`. -/
def events : Request → List ChangeEvent
  | .writeFile _ p _ _ | .truncate _ p _ _ | .writeFileFinish _ p _ _ _ | .symlink _ p _ _ | .mkdir _ p _
  | .remove _ p _ _ => [⟨p, .replaced⟩]
  | .writeFileAt _ p offset data => [⟨p, .write offset data.length⟩]
  | .rename _ src dst _ => [⟨src, .replaced⟩, ⟨dst, .replaced⟩]
  | .setMetadata _ p _ _ _ => [⟨p, .metadata⟩]
  | _ => []

end Request

section Calls
variable (w : Walks) (sha : Bytes → String) (pid : Nat)

/-- `Path::exists`. -/
def Walks.there (t : Tree) (p : String) : Bool := ((w.follow t p).bind t.node).isSome

/-- `fs::rename`. -/
def moveEntry (src dst : String) (t : Tree) : Option Tree :=
  (w.locate t src).bind fun q => (w.locate t dst).bind fun q' => t.rename q q'

/-- `open` of a file for writing. -/
def openFile (p : String) (t : Tree) : Option Tree :=
  match (w.follow t p).bind t.node with
  | some (.file _ _ _) => some t
  | _ => none

/-- `seek` and `write_all`. -/
def writeAll (stamp : Stamp) (p : String) (offset : Nat) (data : Bytes) (t : Tree) : Option Tree :=
  if data = [] then some t else editFile w stamp p (writeAt 0 · offset data) t

/-- `File::create`. -/
def createFile (stamp : Stamp) (p : String) (t : Tree) : Option Tree :=
  (openCreate w stamp p t).bind (editFile w stamp p fun _ => [])

/-- The calls of `WriteFileAt` and of the binary write. -/
def writeCalls (stamp : Stamp) (p : String) (offset : Nat) (data : Bytes) : List (Tree → Option Tree) :=
  createDirAll w stamp (ancestors p) ++ [openCreate w stamp p, writeAll w stamp p offset data]

/-- The mode of a file of that mode after `set_mode`. -/
def chmodded (mode old : Nat) : Nat := if mode = 0 then old else w.modeFor mode

def chmodCalls (p : String) (mode : Nat) : List (Tree → Option Tree) :=
  if mode = 0 then [] else [setPermissions w p mode]

/-- The calls of `WriteFileFinish`. -/
def finishCalls (p temp sum : String) (mode : Nat) (t : Tree) : List (Tree → Option Tree) :=
  match (w.follow t temp).bind t.node with
  | some (.file data _ _) =>
    if sha data = sum then chmodCalls w temp mode ++ [moveEntry w temp p] else [removeFile w temp, fun _ => none]
  | _ => [fun _ => none]

namespace Request

/-- The calls of a request for entries. `frame` is the data of a binary write. Streamed
writes and commands are not answered here. -/
def treeCalls (h : Handling) (frame : Bytes) (t : Tree) : Request → List (Tree → Option Tree)
  | .writeFile _ p data mode =>
    let temp := atomicTempPath pid p
    createDirAll w h.stamp (ancestors p) ++ ([createFile w h.stamp temp, writeAll w h.stamp temp 0 data] ++
      chmodCalls w temp mode ++ [moveEntry w temp p])
  | .writeFileStart _ p uploadId =>
    createDirAll w h.stamp (ancestors p) ++ [fun t => (uploadTempPath p uploadId).bind fun temp =>
      if w.there t temp then some t else openCreate w h.stamp temp t]
  | .writeFileChunk _ p uploadId offset data =>
    match uploadTempPath p uploadId with
    | none => [fun _ => none]
    | some temp => [openFile w temp, writeAll w h.stamp temp offset data]
  | .writeFileAt _ p offset data => writeCalls w h.stamp p offset data
  | .writeFileAtBinary _ p offset len => if frame.length = len then writeCalls w h.stamp p offset frame else [fun _ => none]
  | .truncate _ p size _ => (JournalOp.truncate p size).calls w (fun _ => []) h t
  | .rename _ src dst _ => (JournalOp.rename src dst).calls w (fun _ => []) h t
  | .writeFileFinish _ p uploadId sum mode =>
    match uploadTempPath p uploadId with
    | none => [fun _ => none]
    | some temp => finishCalls w sha p temp sum mode t
  | .symlink _ p target _ => (JournalOp.symlink p target).calls w (fun _ => []) h t
  | .setMetadata _ p mode modified _ => (JournalOp.setMetadata p mode modified).calls w (fun _ => []) h t
  | .mkdir _ p _ => (JournalOp.mkdir p).calls w (fun _ => []) h t
  | .remove _ p dir _ => (JournalOp.remove p dir).calls w (fun _ => []) h t
  | .writeFileAtStream _ _ _ _ _ | .run _ _ => [fun _ => none]
  | _ => []

/-- The calls of a request for the root itself. It is a directory and stays where it is;
a temporary file next to it is outside of the tree. -/
def rootCalls (h : Handling) : Request → List (Tree → Option Tree)
  | .writeFileStart _ _ _ | .writeFileChunk _ _ _ _ _ | .setMetadata _ _ _ _ _ | .mkdir _ _ _ => []
  | .remove _ _ dir _ => if h.unseen then [] else if dir then [fun _ => some .empty] else [fun _ => none]
  | .rename _ src dst _ =>
    createDirAll w h.stamp (ancestors dst) ++
      (if h.unseen ∨ (src = "" ∧ dst = "") then []
      else [fun t => if src ≠ "" ∧ w.lookup t src = none then some t else none])
  | _ => [fun _ => none]

def calls (h : Handling) (frame : Bytes) (t : Tree) (r : Request) : List (Tree → Option Tree) :=
  if "" ∈ r.paths then r.rootCalls w h else r.treeCalls w sha pid h frame t

end Request

structure Handled where
  tree : Tree
  events : List ChangeEvent
  ok : Bool

/-- How the daemon handles a request that comes with a data frame or none. -/
def Request.handle (h : Handling) (marked : Bool) (frame : Bytes) (t : Tree) (r : Request) : Handled :=
  if r.onceId.isSome && marked then ⟨t, [], true⟩
  else
    let calls := r.calls w sha pid h frame t
    let res := runCalls h.refused t (if r.onceId.isSome then some :: calls ++ [some] else calls)
    ⟨res.1, if res.2 then r.events else [], res.2⟩

end Calls

/-! ## Names next to a path -/

/-- A path is its last directory and a name without a slash, or only a name. -/
theorem splitParent_cases (p : String) :
    (ancestors p = [] ∧ splitParent p = ("", p) ∧ '/' ∉ p.toList) ∨
      ∃ parent name, (ancestors p).getLast? = some parent ∧ splitParent p = (parent, name) ∧
        p.toList = parent.toList ++ '/' :: name.toList ∧ '/' ∉ name.toList := by
  generalize hslashes : (List.range p.toList.length).filter (fun i => decide (p.toList[i]? = some '/')) = slashes
  have hmem : ∀ i, i ∈ slashes ↔ p.toList[i]? = some '/' := by
    intro i
    rw [← hslashes, List.mem_filter, List.mem_range, decide_eq_true_eq, and_iff_right_iff_imp]
    exact fun h => (List.getElem?_eq_some_iff.1 h).1
  have hanc : ancestors p = slashes.map fun i => String.ofList (p.toList.take i) := by rw [← hslashes]; rfl
  cases hlast : slashes.getLast? with
  | none =>
    rw [List.getLast?_eq_none_iff] at hlast
    rw [hlast, List.map_nil] at hanc
    refine .inl ⟨hanc, by simp [splitParent, hanc], fun hin => ?_⟩
    obtain ⟨j, hj⟩ := List.getElem?_of_mem hin
    have := (hmem j).2 hj
    simp [hlast] at this
  | some i =>
    have hi : p.toList[i]? = some '/' := (hmem i).1 (List.mem_of_getLast? hlast)
    obtain ⟨hlt, hget⟩ := List.getElem?_eq_some_iff.1 hi
    have hparent : (ancestors p).getLast? = some (String.ofList (p.toList.take i)) := by
      rw [hanc, List.getLast?_map, hlast]
      rfl
    have hlen : (String.ofList (p.toList.take i)).toList.length = i := by
      rw [String.toList_ofList, List.length_take]
      omega
    refine .inr ⟨_, String.ofList (p.toList.drop (i + 1)), hparent, by simp only [splitParent, hparent, hlen], ?_, ?_⟩
    · rw [String.toList_ofList, String.toList_ofList, ← hget, ← List.drop_eq_getElem_cons hlt, List.take_append_drop]
    · -- `i` is the last of the slashes.
      rw [String.toList_ofList]
      intro hin
      obtain ⟨j, hj⟩ := List.getElem?_of_mem hin
      rw [List.getElem?_drop] at hj
      have hin := (hmem (i + 1 + j)).2 hj
      obtain ⟨before, hbefore⟩ := List.getLast?_eq_some_iff.1 hlast
      have hsorted : slashes.Pairwise (· < ·) := hslashes ▸ List.pairwise_lt_range.filter _
      rw [hbefore] at hin hsorted
      rcases List.mem_append.1 hin with hin | hin
      · have := (List.pairwise_append.1 hsorted).2.2 _ hin i List.mem_cons_self
        omega
      · have := List.mem_singleton.1 hin
        omega

/-- The first name of a text. -/
theorem exists_name (rest : List Char) :
    ∃ name more, rest = name ++ more ∧ '/' ∉ name ∧ (more = [] ∨ ∃ more', more = '/' :: more') := by
  induction rest with
  | nil => exact ⟨[], [], rfl, by simp, .inl rfl⟩
  | cons c rest ih =>
    by_cases hc : c = '/'
    · exact ⟨[], c :: rest, rfl, by simp, .inr ⟨rest, by rw [hc]⟩⟩
    · obtain ⟨name, more, rfl, hname, hmore⟩ := ih
      refine ⟨c :: name, more, rfl, ?_, hmore⟩
      simp [Ne.symm hc, hname]

theorem append_slash_inj {a b x y : List Char} (h : a ++ '/' :: x = b ++ '/' :: y) (hx : '/' ∉ x) (hy : '/' ∉ y) : a = b := by
  induction a generalizing b with
  | nil =>
    cases b with
    | nil => rfl
    | cons c b =>
      obtain ⟨-, rfl⟩ := List.cons.inj h
      simp at hx
  | cons c a ih =>
    cases b with
    | nil =>
      obtain ⟨-, rfl⟩ := List.cons.inj h
      simp at hy
    | cons c' b =>
      obtain ⟨rfl, h'⟩ := List.cons.inj h
      rw [ih h']

theorem parent_of (c : String) : (splitParent c).1 = "" ∨ below (splitParent c).1 c = true := by
  rcases splitParent_cases c with ⟨-, hs, -⟩ | ⟨parent, name, -, hs, hc, -⟩
  · exact .inl (by rw [hs])
  · exact .inr (by rw [hs]; exact below_iff.2 ⟨name.toList, hc⟩)

/-- A path is ignored where its directory is, or its name. -/
theorem notIgnored_iff {ignore : List String} {c : String} : shouldIgnoreRel ignore c = false ↔
    (below (splitParent c).1 c = true → shouldIgnoreRel ignore (splitParent c).1 = false) ∧
      shouldIgnorePart (splitParent c).2.toList ignore = false := by
  rcases splitParent_cases c with ⟨hanc, hs, hno⟩ | ⟨parent, name, -, hs, hc, hno⟩
  · have hbelow : below "" c = false := by
      rw [Bool.eq_false_iff, ne_eq, ← mem_ancestors_iff, hanc]
      exact List.not_mem_nil
    rw [hs, hbelow, shouldIgnoreRel, List.splitOn_eq_singleton hno]
    simp
  · have hbelow : below parent c = true := below_iff.2 ⟨name.toList, hc⟩
    rw [hs, hbelow, shouldIgnoreRel, hc, List.splitOn_append_cons_self, List.splitOn_eq_singleton hno]
    simp [shouldIgnoreRel]

theorem name_notIgnored {ignore : List String} {c : String} (h : shouldIgnoreRel ignore c = false) :
    shouldIgnorePart (splitParent c).2.toList ignore = false := (notIgnored_iff.1 h).2

/-- What lies below a directory is one of its entries or lies below one. -/
theorem child_of_below {d r : String} (h : below d r = true) : ∃ c, (splitParent c).1 = d ∧ matching c r = true := by
  obtain ⟨rest, hr⟩ := below_iff.1 h
  obtain ⟨name, more, rfl, hname, hmore⟩ := exists_name rest
  have hc : (String.ofList (d.toList ++ '/' :: name)).toList = d.toList ++ '/' :: name := String.toList_ofList
  refine ⟨String.ofList (d.toList ++ '/' :: name), ?_, ?_⟩
  · rcases splitParent_cases (String.ofList (d.toList ++ '/' :: name)) with ⟨-, -, hno⟩ | ⟨parent, last, -, hp, heq, hlast⟩
    · exact absurd (by simp) hno
    · rw [hp]
      rw [hc] at heq
      exact String.toList_inj.1 (append_slash_inj heq hname hlast).symm
  · rw [WriteBack.matching, Bool.or_eq_true, decide_eq_true_eq]
    rcases hmore with rfl | ⟨more, rfl⟩
    · refine .inl (String.toList_inj.1 ?_)
      rw [hr, hc, List.append_nil]
    · refine .inr (below_iff.2 ⟨more, ?_⟩)
      rw [hr, hc]
      simp

theorem fileName_noSlash (p : String) : '/' ∉ (fileName p).toList := by
  rcases splitParent_cases p with ⟨-, hsplit, h⟩ | ⟨parent, name, -, hsplit, -, h⟩
  · rwa [fileName, hsplit]
  · rwa [fileName, hsplit]

theorem withFileName_fileName (p : String) : withFileName p (fileName p) = p := by
  rw [← String.toList_inj]
  rcases splitParent_cases p with ⟨hanc, hsplit, -⟩ | ⟨parent, name, hanc, hsplit, hp, -⟩
  · simp [withFileName, fileName, hanc, hsplit]
  · simp [withFileName, fileName, hanc, hsplit, hp]

section Siblings
variable {p n : String}

/-- Both names come after the same text. -/
theorem exists_withFileName (p : String) : ∃ pre, ∀ n, (withFileName p n).toList = pre ++ n.toList := by
  unfold withFileName
  split
  · rename_i parent _
    exact ⟨parent.toList ++ ['/'], fun n => by simp⟩
  · exact ⟨[], fun n => rfl⟩

/-- The directories of a path are found in the text before its name. -/
theorem ancestors_of_noSlash {q : String} {pre : List Char} (hq : q.toList = pre ++ n.toList) (hn : '/' ∉ n.toList) :
    ancestors q = ((List.range pre.length).filter fun i => pre[i]? = some '/').map fun i => String.ofList (pre.take i) := by
  have hname : (List.range n.toList.length).filter
      ((fun i => decide (q.toList[i]? = some '/')) ∘ fun i => pre.length + i) = [] := by
    rw [List.filter_eq_nil_iff]
    intro i _ hi
    simp only [Function.comp_apply, hq, decide_eq_true_eq] at hi
    rw [List.getElem?_append_right (by omega), Nat.add_sub_cancel_left] at hi
    exact hn (List.mem_of_getElem? hi)
  have hpre : (List.range pre.length).filter (fun i => decide (q.toList[i]? = some '/')) =
      (List.range pre.length).filter fun i => decide (pre[i]? = some '/') := by
    refine List.filter_congr fun i hi => ?_
    rw [hq, List.getElem?_append_left (List.mem_range.1 hi)]
  unfold ancestors
  rw [show q.toList.length = pre.length + n.toList.length by rw [hq, List.length_append], List.range_add,
    List.filter_append, List.filter_map, hname, List.map_nil, List.append_nil, hpre]
  refine List.map_congr_left fun i hi => ?_
  have hlt : i < pre.length := List.mem_range.1 (List.mem_filter.1 hi).1
  rw [hq, List.take_append_of_le_length hlt.le]

theorem ancestors_withFileName (hn : '/' ∉ n.toList) : ancestors (withFileName p n) = ancestors p := by
  obtain ⟨pre, hpre⟩ := exists_withFileName p
  have hp : p.toList = pre ++ (fileName p).toList := by rw [← hpre, withFileName_fileName]
  rw [ancestors_of_noSlash (hpre n) hn, ancestors_of_noSlash hp (fileName_noSlash p)]

/-- Nothing of a path lies under another name in its directory. -/
theorem not_matching_withFileName (hn : '/' ∉ n.toList) (hne : n ≠ fileName p) : matching p (withFileName p n) = false := by
  rw [Bool.eq_false_iff]
  intro hm
  obtain ⟨pre, hpre⟩ := exists_withFileName p
  have hp : p.toList = pre ++ (fileName p).toList := by rw [← hpre, withFileName_fileName]
  rcases matching_iff.1 hm with h | h
  · have htext := hpre n
    rw [h, hp, List.append_cancel_left_eq] at htext
    exact hne (String.toList_inj.1 htext.symm)
  · obtain ⟨r, hr⟩ := below_iff.1 h
    rw [hpre, hp, List.append_assoc, List.append_cancel_left_eq] at hr
    exact hn (by simp [hr])

/-- They lie in the same directories. -/
theorem below_of_below_withFileName {d : String} (hn : '/' ∉ n.toList) (h : below d (withFileName p n) = true) :
    below d p = true := by
  obtain ⟨r, hr⟩ := below_iff.1 h
  obtain ⟨pre, hpre⟩ := exists_withFileName p
  have hp : p.toList = pre ++ (fileName p).toList := by rw [← hpre, withFileName_fileName]
  rw [hpre] at hr
  rcases List.append_eq_append_iff.1 hr with ⟨x, hx, hx'⟩ | ⟨x, hx, hx'⟩
  · -- The slash cannot be in the name.
    exact absurd (by simp [hx']) hn
  · cases x with
    | nil =>
      rw [List.nil_append] at hx'
      exact absurd (by simp [← hx']) hn
    | cons c x =>
      simp only [List.cons_append, List.cons.injEq] at hx'
      exact below_iff.2 ⟨x ++ (fileName p).toList, by rw [hp, hx, ← hx'.1]; simp⟩

/-- Another name in the directory of a path. -/
def Sibling (p temp : String) : Prop := ∃ n, temp = withFileName p n ∧ '/' ∉ n.toList ∧ n ≠ fileName p

theorem sibling_of_longer {p m : String} (hm : '/' ∉ m.toList) (hlen : 0 < m.toList.length) :
    Sibling p (withFileName p ("." ++ fileName p ++ m)) := by
  refine ⟨_, rfl, by simpa [fileName_noSlash] using hm, fun h => ?_⟩
  have := congrArg (fun s : String => s.toList.length) h
  simp at this
  omega

theorem sibling_uploadTempPath {p uploadId temp : String} (h : uploadTempPath p uploadId = some temp) : Sibling p temp := by
  unfold uploadTempPath at h
  split at h
  · rename_i hid
    cases h
    rw [String.append_assoc]
    refine sibling_of_longer ?_ (by simp)
    rw [String.toList_append, List.mem_append, not_or]
    refine ⟨by decide, fun hin => ?_⟩
    have hslash := List.all_eq_true.1 hid _ hin
    exact absurd hslash (by decide)
  · cases h

theorem sibling_atomicTempPath (pid : Nat) (p : String) : Sibling p (atomicTempPath pid p) := by
  unfold atomicTempPath
  rw [String.append_assoc]
  refine sibling_of_longer ?_ (by simp)
  rw [String.toList_append, List.mem_append, not_or]
  refine ⟨by decide, fun hin => ?_⟩
  have hdigits : '/' ∈ Nat.toDigits 10 pid := by simpa [Nat.repr] using hin
  exact absurd (Nat.isDigit_of_mem_toDigits (by decide) (by decide) hdigits) (by decide)

end Siblings

end Mobfs
