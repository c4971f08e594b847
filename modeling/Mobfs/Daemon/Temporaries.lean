import Mathlib.Data.List.Infix
import Mobfs.Changes.Outside
import Mobfs.Daemon.Announce
import Mobfs.Vfs.MountSnapshot
import Mobfs.Vfs.Operations
/-!
# Temporary files in listings

Uploads are written to a file next to their path. The change feed leaves such files out; the
snapshots and `ListDir` do not. Uploads of any number of clients are run call by call here,
in any order, and each may be cut off after any call.

`uploads_invisible_iff` says when a listing shows none of their temporaries: when each that
was made has been renamed to its path or removed since, or is ignored.
-/

namespace Mobfs

open Lib Std
open Changes (isDaemonTemp)

/-- What is relied on of the way to an entry. -/
structure Walks.Named (w : Walks) : Prop where
  /-- The entry has the name of the path. -/
  name : ∀ t p q, w.locate t p = some q → fileName q = fileName p
  /-- What a path leads to is found under it, unless a link is. -/
  found : ∀ t p q, w.follow t p = some q → ∃ q', w.locate t p = some q' ∧ (q' = q ∨ t.isLink q' = true)

/-- A call of the handlers of uploads. -/
inductive UploadCall where
  | makeDir (dir : String)
  | create (temp : String)
  /-- Creates the temporary unless it is there. -/
  | start (temp : String)
  | openFile (temp : String)
  | write (temp : String) (offset : Nat) (data : Bytes)
  | chmod (temp : String) (mode : Nat)
  | move (temp p : String)
  | remove (temp : String)
  | fail

/-- The tree, and the uploads under way. -/
structure TempRun where
  tree : Tree
  /-- The calls that each request has yet to make. -/
  running : List (Stamp × List UploadCall)
  /-- Where a temporary was made, and not renamed or removed since. -/
  opened : List String

inductive TempAct where
  | begin (r : Request) (stamp : Stamp) (pid : Nat)
  | call (i : Nat)
  /-- The request ends before its next call, or within it if this is a write. -/
  | cut (i n : Nat)

/-! ## The calls -/

section Calls
variable (w : Walks) (sha : Bytes → String)

namespace UploadCall

def run (stamp : Stamp) : UploadCall → Tree → Option Tree
  | .makeDir dir => fun t => createDir w.toLinks stamp.dirMode t dir
  | .create temp => createFile w stamp temp
  | .start temp => fun t => if w.there t temp then some t else openCreate w stamp temp t
  | .openFile temp => Mobfs.openFile w temp
  | .write temp offset data => writeAll w stamp temp offset data
  | .chmod temp mode => setPermissions w temp mode
  | .move temp p => moveEntry w temp p
  | .remove temp => removeFile w temp
  | .fail => fun _ => none

/-- The temporaries that are open after the call. -/
def track (t : Tree) (opened : List String) : UploadCall → List String
  | .create temp | .start temp => (w.follow t temp).toList ++ opened
  | .move temp _ | .remove temp => opened.filter fun q => w.locate t temp ≠ some q
  | _ => opened

end UploadCall

namespace Request

def isUpload : Request → Bool
  | .writeFile _ _ _ _ | .writeFileStart _ _ _ | .writeFileChunk _ _ _ _ _ | .writeFileFinish _ _ _ _ _ => true
  | _ => false

/-- The calls of an upload that begins on the tree `t`, as in `treeCalls`. -/
def uploadCalls (pid : Nat) (t : Tree) (r : Request) : List UploadCall :=
  if "" ∈ r.paths then
    match r with
    | .writeFileStart _ _ _ | .writeFileChunk _ _ _ _ _ => []
    | _ => [.fail]
  else
    match r with
    | .writeFile _ p data mode =>
      let temp := atomicTempPath pid p
      (ancestors p).map .makeDir ++ ([.create temp, .write temp 0 data] ++ (if mode = 0 then [] else [.chmod temp mode]) ++
        [.move temp p])
    | .writeFileStart _ p uploadId =>
      (ancestors p).map .makeDir ++ [((uploadTempPath p uploadId).map .start).getD .fail]
    | .writeFileChunk _ p uploadId offset data =>
      match uploadTempPath p uploadId with
      | none => [.fail]
      | some temp => [.openFile temp, .write temp offset data]
    | .writeFileFinish _ p uploadId sum mode =>
      match uploadTempPath p uploadId with
      | none => [.fail]
      | some temp =>
        match (w.follow t temp).bind t.node with
        | some (.file data _ _) =>
          if sha data = sum then (if mode = 0 then [] else [.chmod temp mode]) ++ [.move temp p] else [.remove temp, .fail]
        | _ => [.fail]
    | _ => []

end Request

/-- No name in the path is that of a temporary. -/
def CleanPath (p : String) : Prop := ∀ q ∈ p :: ancestors p, isDaemonTemp q = false

instance (p : String) : Decidable (CleanPath p) := by
  unfold CleanPath
  infer_instance

namespace TempRun

def start (t : Tree) : TempRun := ⟨t, [], []⟩

def step (s : TempRun) : TempAct → Option TempRun
  | .begin r stamp pid =>
    if r.isUpload = true ∧ ∀ p ∈ r.paths, CleanPath p then
      some { s with running := s.running ++ [(stamp, r.uploadCalls w sha pid s.tree)] }
    else none
  | .call i =>
    match s.running[i]? with
    | some (stamp, c :: cs) =>
      match c.run w stamp s.tree with
      | some t => some ⟨t, s.running.set i (stamp, cs), c.track w s.tree s.opened⟩
      | none => some { s with running := s.running.eraseIdx i }
    | _ => none
  | .cut i n =>
    match s.running[i]? with
    | some (stamp, .write temp offset data :: _) =>
      some { s with tree := (writeAll w stamp temp offset (data.take n) s.tree).getD s.tree, running := s.running.eraseIdx i }
    | some _ => some { s with running := s.running.eraseIdx i }
    | none => none

end TempRun

/-- No path of the snapshot is that of a temporary. -/
def HidesTemps (snap : Snapshot) : Prop := ∀ p m, snap[p]? = some m → isDaemonTemp p = false

variable {w sha}

/-- These are the calls of the requests. -/
theorem run_uploadCalls {r : Request} (hr : r.isUpload = true) (pid : Nat) (h : Handling) (t : Tree) :
    (r.uploadCalls w sha pid t).map (UploadCall.run w h.stamp) = r.calls w sha pid h [] t := by
  have hdirs : ∀ p, ((ancestors p).map UploadCall.makeDir).map (UploadCall.run w h.stamp) =
      createDirAll w h.stamp (ancestors p) := by
    intro p
    rw [List.map_map]
    rfl
  have hchmod : ∀ temp mode, (if mode = 0 then [] else [UploadCall.chmod temp mode]).map (UploadCall.run w h.stamp) =
      chmodCalls w temp mode := by
    intro temp mode
    unfold chmodCalls
    split <;> rfl
  unfold Request.uploadCalls Request.calls
  cases r with
  | writeFile root p data mode =>
    split
    · rfl
    · simp only [Request.treeCalls, List.map_append, hdirs, hchmod]
      rfl
  | writeFileStart root p uploadId =>
    split
    · rfl
    · simp only [Request.treeCalls, List.map_append, hdirs, List.map_cons, List.map_nil]
      cases uploadTempPath p uploadId <;> rfl
  | writeFileChunk root p uploadId offset data =>
    split
    · rfl
    · simp only [Request.treeCalls]
      cases uploadTempPath p uploadId <;> rfl
  | writeFileFinish root p uploadId sum mode =>
    split
    · rfl
    · simp only [Request.treeCalls]
      cases uploadTempPath p uploadId with
      | none => rfl
      | some temp =>
        simp only [finishCalls]
        cases (w.follow t temp).bind t.node with
        | none => rfl
        | some n =>
          cases n with
          | file data mode' mtime =>
            dsimp only
            split
            · rw [List.map_append, hchmod]
              rfl
            · rfl
          | _ => rfl
  | _ => cases hr

end Calls

/-! ## Names of temporaries -/

section Names
variable {p q n temp : String}

theorem isDaemonTemp_of_fileName (h : fileName q = fileName p) : isDaemonTemp q = isDaemonTemp p := by
  unfold fileName at h
  unfold Changes.isDaemonTemp
  rw [h]

theorem fileName_withFileName (hn : '/' ∉ n.toList) : fileName (withFileName p n) = n := by
  unfold fileName splitParent
  rw [ancestors_withFileName hn]
  unfold withFileName
  cases (ancestors p).getLast? with
  | none => rfl
  | some parent =>
    rw [← String.toList_inj]
    simp

theorem fileName_fileName (p : String) : fileName (fileName p) = fileName p := by
  rcases splitParent_cases (fileName p) with ⟨-, hs, -⟩ | ⟨parent, name, -, -, hp, -⟩
  · rw [fileName, hs]
  · have hslash := fileName_noSlash p
    rw [hp] at hslash
    simp at hslash

/-- A name with a mark in it. -/
theorem isDaemonTemp_of_mark {mark : String} (pre rest : List Char) (hmark : mark ∈ [".mobfs-upload-", ".mobfs-tmp-"])
    (hq : (fileName q).toList = pre ++ (mark.toList ++ rest)) : isDaemonTemp q = true := by
  unfold Changes.isDaemonTemp
  unfold fileName at hq
  dsimp only
  rw [List.any_eq_true]
  refine ⟨mark.toList ++ rest, (List.mem_tails _ _).2 ⟨pre, hq.symm⟩, ?_⟩
  simp only [List.mem_cons, List.not_mem_nil, or_false] at hmark
  rw [Bool.or_eq_true, List.isPrefixOf_iff_prefix, List.isPrefixOf_iff_prefix]
  rcases hmark with rfl | rfl
  · exact .inl (List.prefix_append _ _)
  · exact .inr (List.prefix_append _ _)

theorem isDaemonTemp_uploadTempPath {uploadId : String} (h : uploadTempPath p uploadId = some temp) :
    isDaemonTemp temp = true := by
  obtain ⟨n, htemp, hn, -⟩ := sibling_uploadTempPath h
  unfold uploadTempPath at h
  split at h
  · obtain rfl : "." ++ fileName p ++ ".mobfs-upload-" ++ uploadId = n := withFileName_inj ((Option.some.inj h).trans htemp)
    refine isDaemonTemp_of_mark ("." ++ fileName p).toList uploadId.toList List.mem_cons_self ?_
    rw [htemp, fileName_withFileName hn, String.toList_append, String.toList_append, List.append_assoc]
  · cases h

theorem isDaemonTemp_atomicTempPath (pid : Nat) (p : String) : isDaemonTemp (atomicTempPath pid p) = true := by
  obtain ⟨n, htemp, hn, -⟩ := sibling_atomicTempPath pid p
  obtain rfl : "." ++ fileName p ++ ".mobfs-tmp-" ++ toString pid = n := withFileName_inj htemp
  refine isDaemonTemp_of_mark ("." ++ fileName p).toList (toString pid).toList
    (List.mem_cons_of_mem _ List.mem_cons_self) ?_
  rw [htemp, fileName_withFileName hn, String.toList_append, String.toList_append, List.append_assoc]

end Names

/-! ## One call -/

/-- What is open: regular files, the only entries with the name of a temporary. -/
structure TempsOpen (t : Tree) (opened : List String) : Prop where
  temps : ∀ q n, t.node q = some n → isDaemonTemp q = true → q ∈ opened ∧ n.isDir = false ∧ n.isLink = false
  opened : ∀ q ∈ opened, isDaemonTemp q = true ∧ ∃ data mode mtime, t.node q = some (.file data mode mtime)

/-- The paths that a call is given. -/
def UploadCall.Fits : UploadCall → Prop
  | .makeDir p => isDaemonTemp p = false
  | .create temp | .start temp | .openFile temp | .write temp _ _ | .chmod temp _ | .remove temp => isDaemonTemp temp = true
  | .move temp p => isDaemonTemp temp = true ∧ isDaemonTemp p = false
  | .fail => True

section Steps
variable {w : Walks} {sha : Bytes → String} {t t' : Tree} {opened : List String} {stamp : Stamp} {p q temp : String}

namespace TempsOpen

/-- A temporary is found where its path says. -/
theorem follow_temp (h : TempsOpen t opened) (hw : w.Named) (htemp : isDaemonTemp temp = true) (hq : w.follow t temp = some q) :
    isDaemonTemp q = true ∧ w.locate t temp = some q := by
  obtain ⟨q', hq', rfl | hl⟩ := hw.found _ _ _ hq
  · exact ⟨(isDaemonTemp_of_fileName (hw.name _ _ _ hq')).trans htemp, hq'⟩
  · have hname := (isDaemonTemp_of_fileName (hw.name _ _ _ hq')).trans htemp
    cases hn : t.node q' with
    | none => simp [Tree.isLink, hn] at hl
    | some n =>
      have hno := (h.temps q' n hn hname).2.2
      rw [Tree.isLink, hn, Option.any_some, hno] at hl
      cases hl

/-- A file is put where a temporary is or goes. -/
theorem put {data : Bytes} {mode : Nat} {mtime : Int} (h : TempsOpen t opened) (hq : isDaemonTemp q = true)
    (hnode : ∀ r, t'.node r = if r = q then some (.file data mode mtime) else t.node r) : TempsOpen t' (q :: opened) where
  temps r n hn hr := by
    rw [hnode] at hn
    split at hn
    · rename_i hrq
      cases hn
      exact ⟨hrq ▸ List.mem_cons_self, rfl, rfl⟩
    · obtain ⟨hmem, hkind⟩ := h.temps r n hn hr
      exact ⟨List.mem_cons_of_mem _ hmem, hkind⟩
  opened r hr := by
    rw [hnode]
    split
    · rename_i hrq
      exact ⟨hrq ▸ hq, data, mode, mtime, rfl⟩
    · rename_i hrq
      exact h.opened r (List.mem_of_ne_of_mem hrq hr)

/-- Only the set of what is open counts. -/
theorem congr {opened' : List String} (h : TempsOpen t opened) (hsame : ∀ q, q ∈ opened' ↔ q ∈ opened) :
    TempsOpen t opened' where
  temps q n hn hq := by
    rw [hsame]
    exact h.temps q n hn hq
  opened q hq := h.opened q ((hsame q).1 hq)

theorem mem_of_node (h : TempsOpen t opened) (hq : isDaemonTemp q = true) (hn : t.node q ≠ none) : q ∈ opened := by
  obtain ⟨n, hn⟩ := Option.ne_none_iff_exists'.1 hn
  exact (h.temps q n hn hq).1

/-- A temporary that is there is written to. -/
theorem rewrite {data : Bytes} {mode : Nat} {mtime : Int} (h : TempsOpen t opened) (hq : isDaemonTemp q = true)
    (hn : t.node q ≠ none) (hnode : ∀ r, t'.node r = if r = q then some (.file data mode mtime) else t.node r) :
    TempsOpen t' opened := by
  refine (h.put hq hnode).congr fun r => ?_
  have hmem := h.mem_of_node hq hn
  rw [List.mem_cons]
  exact ⟨.inr, fun hr => hr.elim (fun e => e ▸ hmem) id⟩

/-- Other names are changed. -/
theorem aside (h : TempsOpen t opened) (hnode : ∀ r, isDaemonTemp r = true → t'.node r = t.node r) : TempsOpen t' opened where
  temps q n hn hq := h.temps q n (hnode q hq ▸ hn) hq
  opened q hq := by
    have hopen := h.opened q hq
    rwa [hnode q hopen.1]

/-- A temporary goes. -/
theorem gone (h : TempsOpen t opened) (hnode : ∀ r, isDaemonTemp r = true → t'.node r = if r = q then none else t.node r) :
    TempsOpen t' (opened.filter fun r => some q ≠ some r) where
  temps r n hn hr := by
    rw [hnode r hr] at hn
    split at hn
    · cases hn
    · rename_i hrq
      obtain ⟨hmem, hkind⟩ := h.temps r n hn hr
      exact ⟨List.mem_filter.2 ⟨hmem, by simpa using Ne.symm hrq⟩, hkind⟩
  opened r hr := by
    obtain ⟨hmem, hne⟩ := List.mem_filter.1 hr
    have hopen := h.opened r hmem
    rw [hnode r hopen.1, if_neg fun e => of_decide_eq_true hne (congrArg some e.symm)]
    exact hopen

theorem file_of_node {n : Node} (h : TempsOpen t opened) (hq : isDaemonTemp q = true) (hn : t.node q = some n) :
    ∃ data mode mtime, n = .file data mode mtime := by
  obtain ⟨data, mode, mtime, hfile⟩ := (h.opened q (h.temps q n hn hq).1).2
  exact ⟨data, mode, mtime, Option.some.inj (hn.symm.trans hfile)⟩

/-! One lemma for each kind of call. -/

theorem makeDir {mode : Nat} (h : TempsOpen t opened) (hw : w.Named) (hp : isDaemonTemp p = false)
    (ht : createDir w.toLinks mode t p = some t') : TempsOpen t' opened := by
  obtain ⟨q, hq, ⟨-, hplace⟩ | ⟨rfl, -⟩⟩ := createDir_cases ht
  · have hclean := (isDaemonTemp_of_fileName (hw.name _ _ _ hq)).trans hp
    refine h.aside fun r hr => ?_
    rw [(Tree.place_eq_some hplace).2.2, if_neg]
    rintro rfl
    rw [hr] at hclean
    cases hclean
  · exact h

theorem openCreate (h : TempsOpen t opened) (hw : w.Named) (htemp : isDaemonTemp temp = true)
    (ht : openCreate w stamp temp t = some t') : TempsOpen t' ((w.follow t temp).toList ++ opened) := by
  unfold Mobfs.openCreate at ht
  split at ht
  · cases ht
  · rename_i q hq
    obtain ⟨hname, -⟩ := h.follow_temp hw htemp hq
    rw [hq]
    split at ht
    · exact h.put hname (Tree.place_eq_some ht).2.2
    · rename_i hn
      cases ht
      have hmem := (h.temps q _ hn hname).1
      refine h.congr fun r => ?_
      simp only [Option.toList_some, List.singleton_append, List.mem_cons, or_iff_right_iff_imp]
      rintro rfl
      exact hmem
    · cases ht

theorem editFile {f : Bytes → Bytes} (h : TempsOpen t opened) (hw : w.Named) (htemp : isDaemonTemp temp = true)
    (ht : editFile w stamp temp f t = some t') : TempsOpen t' opened := by
  unfold Mobfs.editFile at ht
  split at ht
  · cases ht
  · rename_i q hq
    obtain ⟨hname, -⟩ := h.follow_temp hw htemp hq
    split at ht
    · rename_i hn
      exact h.rewrite hname (by simp [hn]) (Tree.place_eq_some ht).2.2
    · cases ht

theorem writeAll {offset : Nat} {data : Bytes} (h : TempsOpen t opened) (hw : w.Named) (htemp : isDaemonTemp temp = true)
    (ht : writeAll w stamp temp offset data t = some t') : TempsOpen t' opened := by
  unfold Mobfs.writeAll at ht
  split at ht
  · cases ht
    exact h
  · exact h.editFile hw htemp ht

theorem chmod {mode : Nat} (h : TempsOpen t opened) (hw : w.Named) (htemp : isDaemonTemp temp = true)
    (ht : setPermissions w temp mode t = some t') : TempsOpen t' opened := by
  obtain ⟨q, hq, halter⟩ := Option.bind_eq_some_iff.1 ht
  obtain ⟨hname, -⟩ := h.follow_temp hw htemp hq
  obtain ⟨n, hn, hnode⟩ := Tree.alter_eq_some halter
  obtain ⟨data, mode', mtime, rfl⟩ := h.file_of_node hname hn
  exact h.rewrite hname (by simp [hn]) hnode

theorem move (h : TempsOpen t opened) (hw : w.Named) (htemp : isDaemonTemp temp = true) (hp : isDaemonTemp p = false)
    (ht : moveEntry w temp p t = some t') : TempsOpen t' (opened.filter fun q => w.locate t temp ≠ some q) := by
  obtain ⟨q, hq, ht⟩ := Option.bind_eq_some_iff.1 ht
  obtain ⟨q', hq', hmv⟩ := Option.bind_eq_some_iff.1 ht
  have hname := (isDaemonTemp_of_fileName (hw.name _ _ _ hq)).trans htemp
  have hclean := (isDaemonTemp_of_fileName (hw.name _ _ _ hq')).trans hp
  have hne : ∀ r, isDaemonTemp r = true → r ≠ q' := by
    rintro r hr rfl
    rw [hr] at hclean
    cases hclean
  obtain ⟨n, hn⟩ := Option.ne_none_iff_exists'.1 (Tree.moved_of_rename (hne q hname) hmv).src_ne
  rw [hq]
  refine h.gone fun r hr => ?_
  rw [move_file (hne q hname) hmv hn (h.temps q n hn hname).2.1, if_neg (hne r hr)]

theorem remove (h : TempsOpen t opened) (hw : w.Named) (htemp : isDaemonTemp temp = true)
    (ht : removeFile w temp t = some t') : TempsOpen t' (opened.filter fun q => w.locate t temp ≠ some q) := by
  unfold removeFile at ht
  split at ht
  · rename_i hq
    cases ht
    rw [hq]
    exact h.congr fun r => by simp
  · rename_i q hq
    cases ht
    have hname := (isDaemonTemp_of_fileName (hw.name _ _ _ hq)).trans htemp
    have hdir : t.isDir q = false := by
      cases hn : t.node q with
      | none => rw [Tree.isDir, hn, Option.any_none]
      | some n => rw [Tree.isDir, hn, Option.any_some, (h.temps q n hn hname).2.1]
    rw [hq, hdir, if_neg Bool.false_ne_true]
    exact h.gone fun r _ => Tree.node_drop_of_not_isDir hdir r

/-- What a call opens and closes. -/
theorem call {c : UploadCall} (h : TempsOpen t opened) (hw : w.Named) (hc : c.Fits) (ht : c.run w stamp t = some t') :
    TempsOpen t' (c.track w t opened) := by
  cases c with
  | makeDir dir => exact h.makeDir hw hc ht
  | create temp =>
    obtain ⟨t1, hopen, hedit⟩ := Option.bind_eq_some_iff.1 ht
    exact (h.openCreate hw hc hopen).editFile hw hc hedit
  | start temp =>
    simp only [UploadCall.run] at ht
    split at ht
    · rename_i hthere
      cases ht
      refine h.congr fun r => ?_
      unfold UploadCall.track
      rw [List.mem_append, Option.mem_toList]
      refine ⟨fun hr => hr.elim (fun hr => ?_) id, .inr⟩
      have hnode : t.node r ≠ none := by
        rw [Walks.there, Option.mem_def.1 hr, Option.bind_some] at hthere
        exact Option.isSome_iff_ne_none.1 hthere
      exact h.mem_of_node (h.follow_temp hw hc hr).1 hnode
    · exact h.openCreate hw hc ht
  | openFile temp =>
    simp only [UploadCall.run, Mobfs.openFile] at ht
    split at ht
    · cases ht
      exact h
    · cases ht
  | write temp offset data => exact h.writeAll hw hc ht
  | chmod temp mode => exact h.chmod hw hc ht
  | move temp p => exact h.move hw hc.1 hc.2 ht
  | remove temp => exact h.remove hw hc ht
  | fail => cases ht

end TempsOpen

end Steps

/-! ## Runs -/

section Runs
variable {w : Walks} {sha : Bytes → String} {s s' : TempRun}

/-- What is kept over a run. -/
structure TempInv (s : TempRun) : Prop where
  temps : TempsOpen s.tree s.opened
  calls : ∀ x ∈ s.running, ∀ c ∈ x.2, c.Fits

theorem fits_uploadCalls {r : Request} (pid : Nat) (t : Tree) (hclean : ∀ p ∈ r.paths, CleanPath p) :
    ∀ c ∈ r.uploadCalls w sha pid t, c.Fits := by
  have hdirs : ∀ p, CleanPath p → ∀ c ∈ (ancestors p).map UploadCall.makeDir, c.Fits := by
    intro p hp c hc
    obtain ⟨d, hd, rfl⟩ := List.mem_map.1 hc
    exact hp d (List.mem_cons_of_mem _ hd)
  have hself : ∀ p, CleanPath p → isDaemonTemp p = false := fun p hp => hp p List.mem_cons_self
  have hchmod : ∀ temp mode, isDaemonTemp temp = true →
      ∀ c ∈ (if mode = 0 then [] else [UploadCall.chmod temp mode]), c.Fits := by
    intro temp mode htemp c hc
    split at hc
    · cases hc
    · rw [List.mem_singleton.1 hc]
      exact htemp
  intro c hc
  unfold Request.uploadCalls at hc
  split at hc
  · split at hc
    · cases hc
    · cases hc
    · rw [List.mem_singleton.1 hc]
      trivial
  · cases r with
    | writeFile root p data mode =>
      have hp := hclean p List.mem_cons_self
      have htemp := isDaemonTemp_atomicTempPath pid p
      simp only [List.mem_append, List.mem_cons, List.not_mem_nil, or_false] at hc
      rcases hc with hc | ((rfl | rfl) | hc) | rfl
      · exact hdirs p hp c hc
      · exact htemp
      · exact htemp
      · exact hchmod _ mode htemp c hc
      · exact ⟨htemp, hself p hp⟩
    | writeFileStart root p uploadId =>
      have hp := hclean p List.mem_cons_self
      rcases List.mem_append.1 hc with hc | hc
      · exact hdirs p hp c hc
      · rw [List.mem_singleton.1 hc]
        cases htemp : uploadTempPath p uploadId with
        | none => trivial
        | some temp => exact isDaemonTemp_uploadTempPath htemp
    | writeFileChunk root p uploadId offset data =>
      dsimp only at hc
      split at hc
      · rw [List.mem_singleton.1 hc]
        trivial
      · rename_i temp htemp
        have htemp := isDaemonTemp_uploadTempPath htemp
        simp only [List.mem_cons, List.not_mem_nil, or_false] at hc
        rcases hc with rfl | rfl
        · exact htemp
        · exact htemp
    | writeFileFinish root p uploadId sum mode =>
      have hp := hclean p List.mem_cons_self
      dsimp only at hc
      split at hc
      · rw [List.mem_singleton.1 hc]
        trivial
      · rename_i temp htemp
        have htemp := isDaemonTemp_uploadTempPath htemp
        split at hc
        · split at hc
          · rcases List.mem_append.1 hc with hc | hc
            · exact hchmod _ mode htemp c hc
            · rw [List.mem_singleton.1 hc]
              exact ⟨htemp, hself p hp⟩
          · simp only [List.mem_cons, List.not_mem_nil, or_false] at hc
            rcases hc with rfl | rfl
            · exact htemp
            · trivial
        · rw [List.mem_singleton.1 hc]
          trivial
    | _ => cases hc

theorem tempInv_start {t : Tree} (hclean : ∀ q, t.node q ≠ none → isDaemonTemp q = false) : TempInv (.start t) where
  temps := by
    refine ⟨fun q n hn hq => ?_, fun q hq => by cases hq⟩
    have hn : t.node q = some n := hn
    rw [hclean q (by simp [hn])] at hq
    cases hq
  calls x hx := by cases hx

theorem TempInv.step {a : TempAct} (hw : w.Named) (h : TempInv s) (hs : s.step w sha a = some s') : TempInv s' := by
  have hless : ∀ i, ∀ x ∈ s.running.eraseIdx i, ∀ c ∈ x.2, c.Fits := fun i x hx =>
    h.calls x (List.mem_of_mem_eraseIdx hx)
  cases a with
  | begin r stamp pid =>
    simp only [TempRun.step] at hs
    split at hs
    · rename_i hr
      cases hs
      refine ⟨h.temps, fun x hx c hc => ?_⟩
      rcases List.mem_append.1 hx with hx | hx
      · exact h.calls x hx c hc
      · rw [List.mem_singleton.1 hx] at hc
        exact fits_uploadCalls pid s.tree hr.2 c hc
    · cases hs
  | call i =>
    simp only [TempRun.step] at hs
    split at hs
    · rename_i stamp c cs hi
      have hfits := h.calls _ (List.mem_of_getElem? hi)
      split at hs
      · rename_i t ht
        cases hs
        refine ⟨h.temps.call hw (hfits c List.mem_cons_self) ht, fun x hx d hd => ?_⟩
        rcases List.mem_or_eq_of_mem_set hx with hx | rfl
        · exact h.calls x hx d hd
        · exact hfits d (List.mem_cons_of_mem _ hd)
      · cases hs
        exact ⟨h.temps, hless i⟩
    · cases hs
  | cut i n =>
    simp only [TempRun.step] at hs
    split at hs
    · rename_i stamp temp offset data cs hi
      cases hs
      have htemp := h.calls _ (List.mem_of_getElem? hi) _ List.mem_cons_self
      refine ⟨?_, hless i⟩
      cases ht : writeAll w stamp temp offset (data.take n) s.tree with
      | none => exact h.temps
      | some t => exact h.temps.writeAll hw htemp ht
    · cases hs
      exact ⟨h.temps, hless i⟩
    · cases hs

end Runs

/-! ## The listings -/

section Listings
variable {w : Walks} {sha : Bytes → String} {t : Tree} {opened ignore : List String} {d : DiskTree}

/-- Every temporary that is open is ignored. -/
def AllIgnored (ignore opened : List String) : Prop := ∀ q ∈ opened, shouldIgnoreRel ignore q = true

theorem TempsOpen.snapshot_iff (sha : Bytes → String) (h : TempsOpen t opened) (hd : d.tree = t) :
    HidesTemps (d.snapshot sha ignore) ↔ AllIgnored ignore opened := by
  subst hd
  constructor
  · intro hhides q hq
    obtain ⟨hname, data, mode, mtime, hn⟩ := h.opened q hq
    by_contra hign
    have hlisted : (d.snapshot sha ignore)[q]? = entryMeta sha (.file data mode mtime) := by
      rw [DiskTree.get?_snapshot, get?_scan, if_neg hign, hn, Option.bind_some]
    rw [hhides q _ hlisted] at hname
    cases hname
  · intro hign p m hm
    rw [DiskTree.get?_snapshot] at hm
    obtain ⟨hnot, n, hn, -⟩ := node_of_scan hm
    rw [Bool.eq_false_iff]
    intro hname
    rw [hign p (h.temps p n hn hname).1] at hnot
    cases hnot

/-- A snapshot for the mount has no entry that the full one has not. -/
theorem TempsOpen.snapshotMeta_hides (h : TempsOpen t opened) (hd : d.tree = t) {maxEntries : Nat} {root : AbsPath}
    {snap : Snapshot} {dirs : List String} (hsnap : d.snapshotMeta ignore maxEntries root = some (.ok (snap, dirs)))
    (hign : AllIgnored ignore opened) : HidesTemps snap := by
  subst hd
  obtain ⟨snap', dirs', hsnap', hexact⟩ := d.snapshotMeta_exact (fun _ => "") ignore maxEntries root
  obtain ⟨rfl, rfl⟩ := Prod.mk.inj (Except.ok.inj (Option.some.inj (hsnap.symm.trans hsnap')))
  intro p m hm
  have hlisted : snap[p]? ≠ none := by simp [hm]
  obtain ⟨hnot, n, hn, -⟩ := (hexact.children _ (hexact.parents p hlisted) p rfl).1 hlisted
  rw [Bool.eq_false_iff]
  intro hname
  rw [hign p (h.temps p n hn hname).1] at hnot
  cases hnot

/-- A snapshot for the mount that is not cut short has what the full one has. -/
theorem TempsOpen.snapshotMeta_shows (h : TempsOpen t opened) (hd : d.tree = t) {maxEntries : Nat} {root : AbsPath}
    {snap : Snapshot} {dirs : List String} (hsnap : d.snapshotMeta ignore maxEntries root = some (.ok (snap, dirs)))
    (hsize : (d.snapshot sha ignore).size ≤ maxEntries) (hhides : HidesTemps snap) : AllIgnored ignore opened := by
  obtain ⟨snap', dirs', hsnap', hexact⟩ := d.snapshotMeta_exact sha ignore maxEntries root
  obtain ⟨rfl, rfl⟩ := Prod.mk.inj (Except.ok.inj (Option.some.inj (hsnap.symm.trans hsnap')))
  refine (h.snapshot_iff sha hd).1 fun p m hm => ?_
  have hsame := hexact.whole hsize p
  rw [hm] at hsame
  obtain ⟨m', hm', -⟩ := Option.map_eq_some_iff.1 hsame
  exact hhides p m' hm'

theorem mem_listDir {rel dir : String} {entries : DirEntries EntryMeta} (hdir : w.follow t rel = some dir)
    (hlist : listDir w t rel = some entries) (x : String × EntryMeta) :
    x ∈ entries ↔ ∃ p n, t.node p = some n ∧ (splitParent p).1 = dir ∧ entryMetaFast n = some x.2 ∧ fileName p = x.1 := by
  unfold listDir at hlist
  rw [hdir, Option.bind_some] at hlist
  split at hlist
  · rw [← Option.some.inj hlist, List.mem_filterMap]
    constructor
    · rintro ⟨p, hp, hx⟩
      split at hx
      · rename_i hparent
        obtain ⟨m, hm, rfl⟩ := Option.map_eq_some_iff.1 hx
        obtain ⟨n, hn, hmeta⟩ := Option.bind_eq_some_iff.1 hm
        exact ⟨p, n, hn, hparent, hmeta, rfl⟩
      · cases hx
    · rintro ⟨p, n, hn, hparent, hmeta, hname⟩
      refine ⟨p, Tree.mem_paths.2 (by simp [hn]), ?_⟩
      rw [if_pos hparent, hn, Option.bind_some, hmeta, Option.map_some]
      exact congrArg some (Prod.ext hname rfl)
  · cases hlist

theorem TempsOpen.listDir_iff (h : TempsOpen t opened) {rel : String} {entries : DirEntries EntryMeta}
    (hlist : listDir w t rel = some entries) :
    (∀ x ∈ entries, isDaemonTemp x.1 = false) ↔ ∀ q ∈ opened, w.follow t rel ≠ some (splitParent q).1 := by
  obtain ⟨dir, hdir, -⟩ := Option.bind_eq_some_iff.1 hlist
  have hname : ∀ p, isDaemonTemp (fileName p) = isDaemonTemp p := fun p => isDaemonTemp_of_fileName (fileName_fileName p)
  constructor
  · intro hhides q hq hin
    obtain ⟨htemp, data, mode, mtime, hn⟩ := h.opened q hq
    obtain rfl : dir = (splitParent q).1 := Option.some.inj (hdir.symm.trans hin)
    have hlisted := hhides (fileName q, _) ((mem_listDir hdir hlist _).2 ⟨q, _, hn, rfl, rfl, rfl⟩)
    rw [hname, htemp] at hlisted
    cases hlisted
  · intro hout x hx
    obtain ⟨p, n, hn, hparent, -, hp⟩ := (mem_listDir hdir hlist x).1 hx
    rw [← hp, hname, Bool.eq_false_iff]
    intro htemp
    exact hout p (h.temps p n hn htemp).1 (hparent ▸ hdir)

end Listings

/-- At every point of every run of uploads from a tree without temporaries: a snapshot shows none if and only if
each that is open is ignored, and a directory shows none if and only if none is open in it. -/
theorem uploads_invisible_iff (w : Walks) (hw : w.Named) (sha : Bytes → String) (t : Tree)
    (hclean : ∀ q, t.node q ≠ none → isDaemonTemp q = false) (as : List TempAct) (s : TempRun)
    (hs : exec (TempRun.step w sha) (.start t) as = some s) :
    (∀ (d : DiskTree) (ignore : List String), d.tree = s.tree →
      (HidesTemps (d.snapshot sha ignore) ↔ AllIgnored ignore s.opened) ∧
      ∀ maxEntries root snap dirs, d.snapshotMeta ignore maxEntries root = some (.ok (snap, dirs)) →
        (AllIgnored ignore s.opened → HidesTemps snap) ∧
        ((d.snapshot sha ignore).size ≤ maxEntries → HidesTemps snap → AllIgnored ignore s.opened)) ∧
    ∀ rel entries, listDir w s.tree rel = some entries →
      ((∀ x ∈ entries, isDaemonTemp x.1 = false) ↔ ∀ q ∈ s.opened, w.follow s.tree rel ≠ some (splitParent q).1) := by
  have hinv : TempInv s := exec_inv TempInv (fun _ _ _ h hstep => h.step hw hstep) (tempInv_start hclean) hs
  refine ⟨fun d ignore hd => ⟨hinv.temps.snapshot_iff sha hd, fun maxEntries root snap dirs hsnap => ⟨?_, ?_⟩⟩,
    fun rel entries hlist => ?_⟩
  · exact hinv.temps.snapshotMeta_hides hd hsnap
  · exact hinv.temps.snapshotMeta_shows hd hsnap
  · exact hinv.temps.listDir_iff hlist

/-! ## An upload that is finished, and one that is not -/

/-- The names in the tree are those of a file system. -/
def Tree.wellNamed (t : Tree) : Bool :=
  decide (∀ p ∈ t.paths, ∀ part ∈ p.toList.splitOn '/', part ≠ [] ∧ part ≠ ['.'] ∧ part ≠ ['.', '.'])

/-- A tree with its entries in order. -/
def DiskTree.inOrder (t : Tree) (named : t.wellNamed = true) : DiskTree where
  tree := t
  dirTimes _ := 0
  named p hp := of_decide_eq_true named p (Tree.mem_paths.2 hp)
  items d := (t.paths.filter fun p => (splitParent p).1 = d).map fun p => (splitParent p).2
  items_perm _ := .refl _
  walked := "" :: t.paths
  walked_perm := .refl _

theorem textWalks_named : textWalks.Named where
  name t p q h := by
    cases h
    rfl
  found t p q h := by
    cases h
    exact ⟨p, rfl, .inl rfl⟩

theorem fileA_clean (q : String) (hq : fileA.node q ≠ none) : isDaemonTemp q = false := by
  have hall : ∀ p ∈ fileA.paths, isDaemonTemp p = false := by decide
  exact hall q (Tree.mem_paths.2 hq)

abbrev uploadStep : TempRun → TempAct → Option TempRun := TempRun.step textWalks fun _ => ""

def uploadStamp : Stamp := ⟨9, 420, 493, 511⟩

/-- An upload of one byte to `b`. -/
def uploadB : List TempAct :=
  [.begin (.writeFileStart "" "b" "u") uploadStamp 1, .call 0,
    .begin (.writeFileChunk "" "b" "u" 0 [7]) uploadStamp 1, .call 1, .call 1,
    .begin (.writeFileFinish "" "b" "u" "" 384) uploadStamp 1, .call 2, .call 2]

/-- The client of an upload to `a` is gone after the first request. -/
def uploadCutOff : List TempAct := [.begin (.writeFileStart "" "a" "u") uploadStamp 1, .call 0]

theorem uploads_invisible_finished :
    ∃ (s : TempRun) (d : DiskTree), exec uploadStep (.start fileA) uploadB = some s ∧ d.tree = s.tree ∧
      s.tree.node "b" = some (.file [7] 384 9) ∧ HidesTemps (d.snapshot (fun _ => "") []) ∧
      (∃ snap dirs, d.snapshotMeta [] 10 [] = some (.ok (snap, dirs)) ∧ HidesTemps snap) ∧
      ∃ entries, listDir textWalks s.tree "" = some entries ∧ ∀ x ∈ entries, isDaemonTemp x.1 = false := by
  have hend : (exec uploadStep (.start fileA) uploadB).any (fun s =>
      s.opened = [] && s.tree.node "b" = some (.file [7] 384 9) && s.tree.wellNamed) = true := by decide
  obtain ⟨s, hs, hall⟩ := (Option.any_eq_true _ _).1 hend
  simp only [Bool.and_eq_true, decide_eq_true_eq] at hall
  obtain ⟨⟨hopened, hb⟩, hnamed⟩ := hall
  obtain ⟨hsnapshots, hdirs⟩ := uploads_invisible_iff textWalks textWalks_named (fun _ => "") fileA fileA_clean uploadB s hs
  obtain ⟨hfull, hmeta⟩ := hsnapshots (.inOrder s.tree hnamed) [] rfl
  have hign : AllIgnored [] s.opened := by simp [AllIgnored, hopened]
  refine ⟨s, .inOrder s.tree hnamed, hs, rfl, hb, hfull.2 hign, ?_, ?_⟩
  · obtain ⟨snap, dirs, hsnap, -⟩ :=
      (DiskTree.inOrder s.tree hnamed).snapshotMeta_exact (fun _ => "") [] 10 []
    exact ⟨snap, dirs, hsnap, (hmeta 10 [] snap dirs hsnap).1 hign⟩
  · have hlist : (listDir textWalks s.tree "").isSome = true := rfl
    obtain ⟨entries, hlist⟩ := Option.isSome_iff_exists.1 hlist
    exact ⟨entries, hlist, (hdirs "" entries hlist).2 (by simp [hopened])⟩

/-- The temporary is in each of the listings. -/
theorem cut_off_upload_listed :
    ∃ (s : TempRun) (d : DiskTree), exec uploadStep (.start fileA) uploadCutOff = some s ∧ d.tree = s.tree ∧
      isDaemonTemp ".a.mobfs-upload-u" = true ∧
      (d.snapshot (fun _ => "") [])[".a.mobfs-upload-u"]? = some ⟨.file, 0, 9, some "", 420, none⟩ ∧
      (∃ snap dirs, d.snapshotMeta [] 10 [] = some (.ok (snap, dirs)) ∧
        snap[".a.mobfs-upload-u"]? = some ⟨.file, 0, 9, none, 420, none⟩) ∧
      ∃ entries, listDir textWalks s.tree "" = some entries ∧
        (".a.mobfs-upload-u", ⟨.file, 0, 9, none, 420, none⟩) ∈ entries := by
  have hend : (exec uploadStep (.start fileA) uploadCutOff).any (fun s =>
      if h : s.tree.wellNamed = true then
        decide (((DiskTree.inOrder s.tree h).snapshot (fun _ => "") [])[".a.mobfs-upload-u"]? =
          some ⟨.file, 0, 9, some "", 420, none⟩) &&
        ((DiskTree.inOrder s.tree h).snapshotMeta [] 10 []).any (fun r => r.toOption.any fun x =>
          x.1[".a.mobfs-upload-u"]? = some ⟨.file, 0, 9, none, 420, none⟩) &&
        (listDir textWalks s.tree "").any (fun entries =>
          decide ((".a.mobfs-upload-u", ⟨.file, 0, 9, none, 420, none⟩) ∈ entries))
      else false) = true := by decide
  obtain ⟨s, hs, hall⟩ := (Option.any_eq_true _ _).1 hend
  split at hall
  · rename_i hnamed
    simp only [Bool.and_eq_true, decide_eq_true_eq, Option.any_eq_true] at hall
    obtain ⟨⟨hfull, r, hsnap, x, hx, hmeta⟩, entries, hlist, hmem⟩ := hall
    cases r with
    | error e => cases hx
    | ok y =>
      obtain rfl : y = x := Option.some.inj hx
      exact ⟨s, .inOrder s.tree hnamed, hs, rfl, by decide, hfull, ⟨y.1, y.2, hsnap, hmeta⟩, entries, hlist, hmem⟩
  · cases hall

end Mobfs
