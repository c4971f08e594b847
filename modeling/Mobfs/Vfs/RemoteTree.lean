import Mobfs.Daemon.Announce
import Mobfs.Vfs.Answers
import Mobfs.Vfs.AtRest
import Mobfs.Vfs.BlockWrites
/-!
# A mount and the tree of the daemon

The daemon handles the requests of other clients one after the other, and its handlers record
changes. A mount that nothing is written through asks it for entries, listings and blocks.

`Served.clears`: whatever a request changes of the daemon's answers, its events tell a mount
to drop. `mount_shows_tree`: so a mount whose feed cursor is past the events has what the tree
of the daemon has. Times of directories are not kept in a tree, and nobody is told of them.
-/

namespace Mobfs

open Lib Std
open WriteBack (matching)

/-- The data of a file. -/
def Node.content : Node → Bytes
  | .file data _ _ => data
  | _ => []

def Tree.content (t : Tree) (p : String) : Bytes := ((t.node p).map Node.content).getD []

/-- Applying the event takes the value out of the place. -/
def ChangeEvent.Clears (e : ChangeEvent) (x : Item) : Prop := ∃ w ∈ e.sweeps, w.Clears x

/-- The event is the other one, or of a write that the other one is part of. A streamed write
records what it has written in larger pieces. -/
def ChangeEvent.Covers (e e' : ChangeEvent) : Prop :=
  e = e' ∨ ∃ offset len offset' len', e = ⟨e'.path, .write offset len⟩ ∧ e'.kind = .write offset' len' ∧ offset ≤ offset' ∧
    offset' + max len' 1 ≤ offset + max len 1

/-- A request as the daemon handles it. `marked`: the marker of its op id is there. A frame of
a streamed write is a write of its own. -/
structure Served where
  request : Request
  handling : Handling
  marked : Bool
  frame : Bytes

section Remote
variable (w : Walks) (sha : Bytes → String) (pid : Nat) (ignore : List String)

def Served.handle (c : Served) (t : Tree) : Handled := c.request.handle w sha pid c.handling c.marked c.frame t

/-- The request is answered `Ok` or changes nothing, is not for the root, and reaches only the
entry of its path. A write begins in the file or at its end. -/
structure Served.Fits (c : Served) (t : Tree) : Prop where
  seen : c.handling.unseen = false
  root : "" ∉ c.request.paths
  ok : (c.handle w sha pid t).ok = true ∨ (c.handle w sha pid t).tree = t
  direct : c.request.onceId.isSome ∧ c.marked = true ∨ c.request.Direct w pid c.handling c.frame t
  inside : ∀ root p offset data, c.request = .writeFileAt root p offset data → data ≠ [] →
    offset ≤ (t.content p).length ∧ offset + data.length ≤ u64Max

/-! ## What the daemon answers -/

/-- The answer to `Stat` for a path that leads through no link. -/
def remoteEntry (t : Tree) (q : String) : Option EntryMeta := if t.Plain q then statRemote w t q else none

/-- The listing of a directory. -/
def remoteListing (t : Tree) (d : String) : Option (DirEntries EntryMeta) :=
  if d = "" ∨ t.isDir d = true then listRemote w ignore t d else none

/-- The block of a file, nothing where there is no file. -/
def remoteBlock (t : Tree) (key : BlockKey) : Bytes :=
  if t.Plain key.1 ∧ t.isLink key.1 = false then (readRemote w t key.1 key.2).getD [] else []

/-- The daemon answers the same about the place. -/
def SameAnswer (t t' : Tree) : Item → Prop
  | .entry q => remoteEntry w t q = remoteEntry w t' q
  | .listing d => remoteListing w ignore t d = remoteListing w ignore t' d
  | .block key => remoteBlock w t key = remoteBlock w t' key

end Remote

section Answers
variable {w : Walks} {ignore : List String} {t t' : Tree} {p q d : String}

theorem remoteEntry_eq (w : Walks) (t : Tree) (q : String) : remoteEntry w t q = (t.node q).bind entryMetaFast := by
  unfold remoteEntry
  split
  · rename_i hplain
    rw [statRemote, Links.lookup, w.locate_plain t q hplain]
    rfl
  · rename_i hplain
    have hn : t.node q = none := by
      by_contra hn
      exact hplain (Tree.plain_of_node hn)
    rw [hn]
    rfl

theorem remoteListing_eq (w : Walks) (ignore : List String) (hroot : t.node "" = none) (d : String) :
    remoteListing w ignore t d = if d = "" ∨ t.isDir d = true then
      some ((t.entriesIn d).filter fun e => !shouldIgnorePart e.1.toList ignore) else none := by
  unfold remoteListing
  split
  · rename_i hd
    have hfollow : w.follow t d = some d := by
      rcases hd with rfl | hd
      · refine follow_plain (fun d hd => ?_) (by simp [Tree.isLink, hroot])
        obtain ⟨r, hr⟩ := below_iff.1 hd
        simp at hr
      · obtain ⟨n, hn, -⟩ := Tree.isDir_iff.1 hd
        exact follow_plain (Tree.plain_of_node (by simp [hn])) (Tree.isLink_of_isDir hd)
    rw [listRemote, listDir, hfollow, Option.bind_some, if_pos hd]
    rfl
  · rfl

theorem content_of_node {n : Node} (hn : t.node p = some n) : t.content p = n.content := by
  rw [Tree.content, hn, Option.map_some, Option.getD_some]

theorem blockOf_nil (i : Nat) : blockOf [] i = [] := by simp [blockOf]

theorem readRemote_eq (hplain : t.Plain p) (hlink : t.isLink p = false) (i : Nat) :
    (readRemote w t p i).getD [] = blockOf (t.content p) i := by
  rw [readRemote, follow_plain hplain hlink, Option.bind_some]
  cases hn : t.node p with
  | none => rw [Tree.content, hn, Option.map_none, Option.getD_none, blockOf_nil]
  | some n =>
    rw [content_of_node hn]
    cases n with
    | file data mode mtime => rw [Option.getD_some, Node.content, blockOf]
    | _ => simp only [Node.content, Option.getD_none, blockOf_nil]

theorem remoteBlock_eq (w : Walks) (t : Tree) (p : String) (i : Nat) : remoteBlock w t (p, i) = blockOf (t.content p) i := by
  unfold remoteBlock
  split
  · rename_i hp
    exact readRemote_eq hp.1 hp.2 i
  · rename_i hp
    have hc : t.content p = [] := by
      cases hn : t.node p with
      | none => rw [Tree.content, hn, Option.map_none, Option.getD_none]
      | some n =>
        rw [content_of_node hn]
        cases n with
        | file data mode mtime =>
          refine absurd ⟨Tree.plain_of_node (by simp [hn]), ?_⟩ hp
          simp [Tree.isLink, hn, Node.isLink]
        | _ => rfl
    rw [hc, blockOf_nil]

end Answers

/-! ## What changes an answer -/

section Changes
variable {w : Walks} {sha : Bytes → String} {pid : Nat} {ignore : List String} {t t' : Tree} {p q d : String}
  {e e' : ChangeEvent} {x : Item}

theorem matching_parent {a c : String} (h : below a c = true) : matching a (splitParent c).1 = true := by
  rcases splitParent_cases c with ⟨hanc, -, -⟩ | ⟨parent, name, -, hs, hc, hno⟩
  · have hm := mem_ancestors_iff.2 h
    rw [hanc] at hm
    cases hm
  · obtain ⟨r, hr⟩ := below_iff.1 h
    rw [hs, matching_iff, below_iff]
    rw [hc] at hr
    -- The name has no slash, so `a` ends before it.
    rcases List.append_eq_append_iff.1 hr with ⟨y, hy, hy'⟩ | ⟨y, hy, hy'⟩
    · cases y with
      | nil => exact .inl (String.toList_inj.1 (by simpa using hy.symm))
      | cons b y =>
        rw [List.cons_append, List.cons.injEq] at hy'
        exact absurd (by simp [hy'.2]) hno
    · cases y with
      | nil => exact .inl (String.toList_inj.1 (by simpa using hy))
      | cons b y =>
        rw [List.cons_append, List.cons.injEq] at hy'
        exact .inr ⟨y, by rw [hy, ← hy'.1]⟩

theorem joinRel_splitParent (hroot : t.node "" = none) (hp : t.node p ≠ none) :
    joinRel (splitParent p).1 (splitParent p).2 = p := by
  rcases splitParent_cases p with ⟨-, hs, -⟩ | ⟨parent, name, -, hs, hc, -⟩
  · rw [hs]
    rfl
  · rw [hs]
    have hne : parent ≠ "" := by
      rintro rfl
      have hdir := Tree.isDir_of_below (below_iff.2 ⟨name.toList, hc⟩) hp
      simp [Tree.isDir, hroot] at hdir
    rw [joinRel, if_neg hne, ← String.toList_inj, hc]
    simp

theorem content_congr (h : t'.node p = t.node p) : t'.content p = t.content p := by
  rw [Tree.content, Tree.content, h]

/-- A listing is made of the entries of the directory. -/
theorem entriesIn_congr (h : ∀ c, (splitParent c).1 = d → t'.node c = t.node c) : t'.entriesIn d = t.entriesIn d := by
  have hpaths : (t'.paths.filter fun p => (splitParent p).1 = d) = t.paths.filter fun p => (splitParent p).1 = d :=
    filter_paths_congr fun c hc => by rw [h c (of_decide_eq_true hc)]
  rw [entriesIn_eq, entriesIn_eq, hpaths]
  refine List.filterMap_congr fun c hc => ?_
  rw [h c (of_decide_eq_true (List.mem_filter.1 hc).2)]

theorem remoteListing_congr (hroot : t.node "" = none) (hroot' : t'.node "" = none) (hdir : d ≠ "" → t'.isDir d = t.isDir d)
    (h : ∀ c, (splitParent c).1 = d → t'.node c = t.node c) : remoteListing w ignore t' d = remoteListing w ignore t d := by
  rw [remoteListing_eq w ignore hroot, remoteListing_eq w ignore hroot', entriesIn_congr h]
  by_cases hd : d = ""
  · rw [if_pos (.inl hd), if_pos (.inl hd)]
  · rw [hdir hd]

/-! ## What an event clears -/

theorem clears_entry (e : ChangeEvent) : e.Clears (.entry e.path) := by
  unfold ChangeEvent.Clears ChangeEvent.sweeps
  split
  · exact ⟨.entry e.path, by simp, rfl⟩
  · exact ⟨.entry e.path, by simp, rfl⟩
  · exact ⟨.metasUnder e.path, by simp, Mount.under_self _⟩

theorem clears_listing (e : ChangeEvent) : e.Clears (.listing (splitParent e.path).1) := by
  unfold ChangeEvent.Clears ChangeEvent.sweeps
  split <;> exact ⟨.unlist (splitParent e.path).1, by simp, rfl⟩

theorem clears_under (he : e.kind = .replaced) (h : matching e.path q = true) :
    e.Clears (.entry q) ∧ e.Clears (.listing q) ∧ ∀ i, e.Clears (.block (q, i)) := by
  simp only [ChangeEvent.Clears, ChangeEvent.sweeps, he]
  exact ⟨⟨.metasUnder e.path, by simp, h⟩, ⟨.dirsUnder e.path, by simp, h⟩, fun i => ⟨.collect e.path, by simp, h⟩⟩

theorem inRange_mono {offset len offset' len' i : Nat} (hle : offset ≤ offset') (hend : offset' + max len' 1 ≤ offset + max len 1)
    (h : BlockStore.inRange offset' len' i = true) : BlockStore.inRange offset len i = true := by
  simp only [BlockStore.inRange, Bool.not_eq_true', Bool.or_eq_false_iff, decide_eq_false_iff_not, Nat.not_lt] at h ⊢
  refine ⟨(Nat.div_le_div_right hle).trans h.1, h.2.trans (Nat.div_le_div_right ?_)⟩
  omega

/-- A larger event clears no less. -/
theorem ChangeEvent.Covers.clears (h : e.Covers e') (hx : e'.Clears x) : e.Clears x := by
  rcases h with rfl | ⟨offset, len, offset', len', rfl, hk, hle, hend⟩
  · exact hx
  · simp only [ChangeEvent.Clears, ChangeEvent.sweeps, hk, List.mem_cons, List.not_mem_nil, or_false] at hx ⊢
    obtain ⟨w, rfl | rfl | rfl, hw⟩ := hx
    · refine ⟨_, .inl rfl, ?_⟩
      cases x with
      | block key => exact ⟨hw.1, inRange_mono hle hend hw.2⟩
      | entry q => exact absurd hw id
      | listing d => exact absurd hw id
    · exact ⟨_, .inr (.inl rfl), hw⟩
    · exact ⟨_, .inr (.inr rfl), hw⟩

/-! ## What a request changes -/

/-- The calls of a request that is answered `Ok`, and what it records. -/
theorem handle_run {c : Served} (hroot : "" ∉ c.request.paths) (hmark : ¬ (c.request.onceId.isSome ∧ c.marked = true))
    (hok : (c.handle w sha pid t).ok = true) :
    (c.request.treeCalls w sha pid c.handling c.frame t).foldlM (fun t c => c t) t = some (c.handle w sha pid t).tree ∧
      (c.handle w sha pid t).events = c.request.events := by
  unfold Served.handle Request.handle at hok ⊢
  rw [if_neg (by simpa using hmark)] at hok ⊢
  simp only at hok ⊢
  refine ⟨?_, if_pos hok⟩
  have hrun := runCalls_ok hok
  rw [Request.calls, if_neg hroot] at hrun ⊢
  generalize (runCalls _ _ _).1 = t' at hrun ⊢
  split at hrun
  · simpa only [List.cons_append, foldlM_cons_iff, foldlM_append_iff, foldlM_nil_iff, Option.some.injEq,
      exists_eq_left', exists_eq_right] using hrun
  · exact hrun

theorem openCreate_content {stamp : Stamp} (ho : openCreate w stamp p t = some t') (r : String) :
    t'.content r = t.content r ∧ t'.isDir r = t.isDir r := by
  unfold openCreate at ho
  split at ho
  · cases ho
  · split at ho
    · rename_i q _ _ hn
      obtain ⟨-, -, hnode⟩ := Tree.place_eq_some ho
      by_cases hr : r = q
      · rw [Tree.content, Tree.content, Tree.isDir, Tree.isDir, hnode, if_pos hr, hr, hn]
        exact ⟨rfl, rfl⟩
      · rw [Tree.content, Tree.content, Tree.isDir, Tree.isDir, hnode, if_neg hr]
        exact ⟨rfl, rfl⟩
    · cases ho
      exact ⟨rfl, rfl⟩
    · cases ho

theorem editFile_content {stamp : Stamp} {f : Bytes → Bytes} (he : editFile w stamp p f t = some t') (r : String) :
    (t'.content r = t.content r ∨ t'.content r = f (t.content r)) ∧ t'.isDir r = t.isDir r := by
  unfold editFile at he
  split at he
  · cases he
  · split at he
    · rename_i q _ _ data mode mtime hn
      obtain ⟨-, -, hnode⟩ := Tree.place_eq_some he
      by_cases hr : r = q
      · rw [Tree.content, Tree.content, Tree.isDir, Tree.isDir, hnode, if_pos hr, hr, hn]
        exact ⟨.inr rfl, rfl⟩
      · rw [Tree.content, Tree.content, Tree.isDir, Tree.isDir, hnode, if_neg hr]
        exact ⟨.inl rfl, rfl⟩
    · cases he

/-- A write, where no directory is made. -/
theorem writeCalls_content {stamp : Stamp} {offset : Nat} {data : Bytes} (hnone : NoneMissing w t p)
    (hrun : (writeCalls w stamp p offset data).foldlM (fun t c => c t) t = some t') (r : String) :
    (t'.content r = t.content r ∨ data ≠ [] ∧ t'.content r = writeAt 0 (t.content r) offset data) ∧
      t'.isDir r = t.isDir r := by
  obtain ⟨t1, hmk, hwrite⟩ := createDirAll_append.1 hrun
  obtain rfl := createDirs_of_lookup hnone hmk
  obtain ⟨t2, ho, hw⟩ := foldlM_two_iff.1 hwrite
  obtain ⟨hcontent, hdir⟩ := openCreate_content ho r
  rw [← hcontent, ← hdir]
  unfold writeAll at hw
  split at hw
  · cases hw
    exact ⟨.inl rfl, rfl⟩
  · rename_i hne
    obtain ⟨hedit, hdir'⟩ := editFile_content hw r
    exact ⟨hedit.imp_right fun h => ⟨hne, h⟩, hdir'⟩

theorem edited_content (mode : Option Nat) (modified : Option Int) (n : Node) :
    (n.edited w mode modified).content = n.content ∧ (n.edited w mode modified).isDir = n.isDir := by
  unfold Node.edited
  by_cases hm : mode.getD 0 = 0
  · by_cases ht : 0 < modified.getD 0 <;> cases n <;> simp [hm, ht, Node.utime, Node.content, Node.isDir]
  · by_cases ht : 0 < modified.getD 0 <;> cases n <;> simp [hm, ht, Node.utime, Node.chmod, Node.content, Node.isDir]

theorem setMetadata_content {h : Handling} {mode : Option Nat} {modified : Option Int}
    (hrun : ((JournalOp.setMetadata p mode modified).calls w (fun _ => []) h t).foldlM (fun t c => c t) t = some t')
    (r : String) : t'.content r = t.content r ∧ t'.isDir r = t.isDir r := by
  rcases setMetadata_node hrun with ⟨rfl, -⟩ | ⟨q, n, -, hn, hnode⟩
  · exact ⟨rfl, rfl⟩
  · by_cases hr : r = q
    · rw [Tree.content, Tree.content, Tree.isDir, Tree.isDir, hnode, if_pos hr, hr, hn]
      obtain ⟨hcontent, hdir⟩ := edited_content mode modified n
      exact ⟨hcontent, hdir⟩
    · rw [Tree.content, Tree.content, Tree.isDir, Tree.isDir, hnode, if_neg hr]
      exact ⟨rfl, rfl⟩

/-- A block out of the range of a write stays, if the write leaves no gap. -/
theorem blockOf_outside {cs data : Bytes} {offset i : Nat} (hd : data ≠ []) (hin : offset ≤ cs.length)
    (hmax : offset + data.length ≤ u64Max) (hr : BlockStore.inRange offset data.length i = false) :
    blockOf (writeAt 0 cs offset data) i = blockOf cs i := by
  have hpos := List.length_pos_iff.2 hd
  by_cases hi : i * blockSize ≤ u64Max
  · rcases (BlockStore.before_or_after hpos hi).1 hr with hlt | hge
    · have hfull : (i + 1) * blockSize ≤ offset := (Nat.mul_le_mul_right _ hlt).trans (Nat.div_mul_le_self _ _)
      exact (BlockStore.blockOf_writeAt_before hd hlt).2 (hfull.trans hin)
    · exact BlockStore.blockOf_writeAt_after hd hge
  · exact BlockStore.blockOf_writeAt_after hd (by omega)

/-! ## Whatever changes is cleared -/

variable {c : Served}

theorem events_path {r : Request} (he : e ∈ r.events) : e.path ∈ r.paths := by
  cases r <;> simp [Request.events, Request.paths] at he ⊢ <;> grind

/-- Only a request that is carried out and answered `Ok` records anything. -/
theorem mem_events (he : e ∈ (c.handle w sha pid t).events) :
    (c.handle w sha pid t).ok = true ∧ ¬ (c.request.onceId.isSome ∧ c.marked = true) ∧ e ∈ c.request.events := by
  unfold Served.handle Request.handle at he ⊢
  split at he
  · cases he
  · rename_i hmark
    rw [if_neg hmark]
    simp only at he ⊢
    generalize runCalls _ _ _ = res at he ⊢
    split at he
    · rename_i hok
      exact ⟨hok, by simpa using hmark, he⟩
    · cases he

theorem request_of_edit {r : Request} (he : e ∈ r.events) (hk : e.kind ≠ .replaced) :
    (∃ root p offset data, r = .writeFileAt root p offset data) ∨
      ∃ root p mode modified opId, r = .setMetadata root p mode modified opId := by
  cases r with
  | writeFileAt root p offset data => exact .inl ⟨root, p, offset, data, rfl⟩
  | setMetadata root p mode modified opId => exact .inr ⟨root, p, mode, modified, opId, rfl⟩
  | _ =>
    refine absurd ?_ hk
    unfold Request.events at he
    grind

namespace Served.Fits

theorem announced (hf : c.Fits w sha pid t) (hw : w.Real) :
    AllAnnounced t (c.handle w sha pid t).tree (c.handle w sha pid t).events := by
  rcases hf.ok with hok | hsame
  · exact (announced_iff hw hf.seen hok).2 (hf.direct.imp_right .inr)
  · rw [hsame]
    exact allAnnounced_refl _ _

theorem path_ne (hf : c.Fits w sha pid t) (he : e ∈ (c.handle w sha pid t).events) : e.path ≠ "" :=
  fun h => hf.root (h ▸ events_path (mem_events he).2.2)

/-- What has changed lies at the path of an event, or below one that is replaced. -/
theorem told (hf : c.Fits w sha pid t) (hw : w.Real) (hq : (c.handle w sha pid t).tree.node q ≠ t.node q) :
    ∃ e ∈ (c.handle w sha pid t).events, matching e.path q = true ∧ (e.kind = .replaced ∨ q = e.path) := by
  obtain ⟨e, he, rfl | ⟨hk, hroot | hb⟩⟩ := hf.announced hw q hq
  · exact ⟨e, he, matching_self _, .inr rfl⟩
  · exact absurd hroot (hf.path_ne he)
  · exact ⟨e, he, matching_iff.2 (.inr hb), .inl hk⟩

theorem node_root (hf : c.Fits w sha pid t) (hw : w.Real) (hroot : t.node "" = none) :
    (c.handle w sha pid t).tree.node "" = none := by
  by_contra hn
  obtain ⟨e, he, hm, -⟩ := hf.told hw (q := "") (by rw [hroot]; exact hn)
  rcases matching_iff.1 hm with h | h
  · exact hf.path_ne he h.symm
  · obtain ⟨r, hr⟩ := below_iff.1 h
    simp at hr

/-- An event that is not of a replacement is of a write of data, or of a mode or a time. -/
theorem edits (hf : c.Fits w sha pid t) (he : e ∈ (c.handle w sha pid t).events) (hk : e.kind ≠ .replaced) (r : String) :
    (c.handle w sha pid t).tree.isDir r = t.isDir r ∧ ((c.handle w sha pid t).tree.content r = t.content r ∨
      ∃ offset data, e.kind = .write offset data.length ∧ data ≠ [] ∧
        (c.handle w sha pid t).tree.content r = writeAt 0 (t.content r) offset data ∧
        offset ≤ (t.content e.path).length ∧ offset + data.length ≤ u64Max) := by
  obtain ⟨hok, hmark, hmem⟩ := mem_events he
  have hrun := (handle_run hf.root hmark hok).1
  have hdirect := hf.direct.resolve_left hmark
  rcases request_of_edit hmem hk with ⟨root, p, offset, data, hr⟩ | ⟨root, p, mode, modified, opId, hr⟩
  · rw [hr] at hrun hdirect hmem
    obtain rfl := List.mem_singleton.1 hmem
    obtain ⟨hcontent, hdir⟩ := writeCalls_content hdirect.1 hrun r
    refine ⟨hdir, hcontent.imp_right fun h => ?_⟩
    obtain ⟨hin, hmax⟩ := hf.inside root p offset data hr h.1
    exact ⟨offset, data, rfl, h.1, h.2, hin, hmax⟩
  · rw [hr] at hrun
    obtain ⟨hcontent, hdir⟩ := setMetadata_content (h := c.handling) hrun r
    exact ⟨hdir, .inl hcontent⟩

/-- Whatever the request changes of the daemon's answers, one of its events clears. -/
theorem clears (hf : c.Fits w sha pid t) (hw : w.Real) (hroot : t.node "" = none)
    (hne : ¬ SameAnswer w ignore t (c.handle w sha pid t).tree x) :
    ∃ e ∈ (c.handle w sha pid t).events, e.Clears x := by
  cases x with
  | entry q =>
    have hq : (c.handle w sha pid t).tree.node q ≠ t.node q := by
      intro h
      exact hne (by rw [SameAnswer, remoteEntry_eq, remoteEntry_eq, h])
    obtain ⟨e, he, hm, hk⟩ := hf.told hw hq
    refine ⟨e, he, ?_⟩
    rcases hk with hk | rfl
    · exact (clears_under hk hm).1
    · exact clears_entry e
  | listing d =>
    by_contra hnone
    refine hne (remoteListing_congr hroot (hf.node_root hw hroot) (fun _ => ?_) fun q hq => ?_).symm
    · -- The directory itself.
      by_contra hdir
      obtain ⟨e, he, hm, hk⟩ := hf.told hw fun h => hdir (by rw [Tree.isDir, h, Tree.isDir])
      by_cases hrep : e.kind = .replaced
      · exact hnone ⟨e, he, (clears_under hrep hm).2.1⟩
      · exact hdir (hf.edits he hrep d).1
    · -- One of its entries.
      by_contra hn
      obtain ⟨e, he, hm, hk⟩ := hf.told hw hn
      rcases matching_iff.1 hm with rfl | hb
      · exact hnone ⟨e, he, hq ▸ clears_listing e⟩
      · have hrep : e.kind = .replaced := by
          refine hk.resolve_right ?_
          rintro rfl
          rw [below_irrefl] at hb
          cases hb
        exact hnone ⟨e, he, (clears_under hrep (hq ▸ matching_parent hb)).2.1⟩
  | block key =>
    obtain ⟨p, i⟩ := key
    have hblock : blockOf ((c.handle w sha pid t).tree.content p) i ≠ blockOf (t.content p) i := by
      intro h
      exact hne (by rw [SameAnswer, remoteBlock_eq, remoteBlock_eq, h])
    obtain ⟨e, he, hm, hk⟩ := hf.told hw fun h => hblock (by rw [content_congr h])
    refine ⟨e, he, ?_⟩
    by_cases hrep : e.kind = .replaced
    · exact (clears_under hrep hm).2.2 i
    · obtain rfl := hk.resolve_left hrep
      rcases (hf.edits he hrep e.path).2 with hsame | ⟨offset, data, hkind, hne, hwrite, hin, hmax⟩
      · exact absurd (by rw [hsame]) hblock
      · cases hr : BlockStore.inRange offset data.length i with
        | true =>
          refine ⟨.range e.path offset data.length, ?_, rfl, hr⟩
          simp [ChangeEvent.sweeps, hkind]
        | false =>
          rw [hwrite] at hblock
          exact absurd (blockOf_outside hne hin hmax hr) hblock

end Served.Fits

end Changes

/-! ## The mount and the daemon -/

section Run
variable (w : Walks) (sha : Bytes → String) (pid : Nat)

/-- The tree at each time, where the daemon handles these requests. -/
def treeAt (first : Tree) (served : Nat → Option Served) : Nat → Tree
  | 0 => first
  | k + 1 => ((served k).map fun c => (c.handle w sha pid (treeAt first served k)).tree).getD (treeAt first served k)

/-- A daemon, and the requests of other clients that it handles, each at its time. The root is
no entry of the tree. -/
structure RemoteRun where
  first : Tree
  served : Nat → Option Served
  root : first.node "" = none
  fits : ∀ k c, served k = some c → c.Fits w sha pid (treeAt w sha pid first served k)

namespace RemoteRun

variable {w sha pid} (r : RemoteRun w sha pid)

def tree (k : Nat) : Tree := treeAt w sha pid r.first r.served k

/-- What the handler of the request at that time records. -/
def events (k : Nat) : List ChangeEvent := ((r.served k).map fun c => (c.handle w sha pid (r.tree k)).events).getD []

theorem tree_succ (k : Nat) : r.served k = none ∧ r.tree (k + 1) = r.tree k ∧ r.events k = [] ∨
    ∃ c, r.served k = some c ∧ r.tree (k + 1) = (c.handle w sha pid (r.tree k)).tree ∧
      r.events k = (c.handle w sha pid (r.tree k)).events := by
  cases hc : r.served k with
  | none => exact .inl ⟨rfl, by simp [tree, treeAt, hc], by simp [events, hc]⟩
  | some c => exact .inr ⟨c, rfl, by simp [tree, treeAt, hc], by simp [events, hc]⟩

theorem node_root (hw : w.Real) (k : Nat) : (r.tree k).node "" = none := by
  induction k with
  | zero => exact r.root
  | succ k ih =>
    obtain ⟨-, ht, -⟩ | ⟨c, hc, ht, -⟩ := r.tree_succ k
    · rw [ht]
      exact ih
    · rw [ht]
      exact (r.fits k c hc).node_root hw ih

/-- What the daemon answers at each time. -/
def history (hw : w.Real) (ignore : List String) : History where
  entry k q := remoteEntry w (r.tree k) q
  listing k d := remoteListing w ignore (r.tree k) d
  block k key := some (remoteBlock w (r.tree k) key)
  listed := by
    intro k d es hes x hx
    rw [remoteListing_eq w ignore (r.node_root hw k)] at hes
    simp only [Option.ite_none_right_eq_some, Option.some.injEq] at hes
    rw [← hes.2, List.mem_filter, Tree.entriesIn, List.mem_filterMap] at hx
    obtain ⟨⟨p, hp, hx⟩, -⟩ := hx
    simp only [Option.ite_none_right_eq_some, Option.map_eq_some_iff] at hx
    obtain ⟨rfl, m, hm, rfl⟩ := hx
    rw [joinRel_splitParent (r.node_root hw k) (Tree.mem_paths.1 hp), remoteEntry_eq, hm]

/-- Where the answers about a place change, the events of the request clear it. -/
theorem clears (hw : w.Real) {ignore : List String} {k : Nat} {x : Item}
    (hne : ¬ (r.history hw ignore).Same k (k + 1) x) : ∃ e ∈ r.events k, e.Clears x := by
  have hdiff : ¬ SameAnswer w ignore (r.tree k) (r.tree (k + 1)) x := by
    intro h
    refine hne ?_
    cases x with
    | entry q => exact h
    | listing d => exact h
    | block key => exact congrArg some h
  obtain ⟨-, ht, -⟩ | ⟨c, hc, ht, he⟩ := r.tree_succ k
  · rw [ht] at hdiff
    refine absurd ?_ hdiff
    cases x <;> rfl
  · rw [ht] at hdiff
    rw [he]
    exact (r.fits k c hc).clears hw (r.node_root hw k) hdiff

end RemoteRun

end Run

/-- In every run of a mount that nothing is written through, against a daemon that handles any
requests of others which reach the entries of their paths: when all changes so far have been
recorded, and the feed cursor is past them, whatever the mount has cached is what the daemon
would answer now. -/
theorem mount_shows_tree (w : Walks) (hw : w.Real) (sha : Bytes → String) (pid : Nat) (r : RemoteRun w sha pid)
    (ignore : List String) (client capacity epoch : Nat) (s : MountRun) (as : List MountRunAct)
    (hg : Guarded (MountRun.step ignore client) (fun s a => s.Guard ignore client a ∧ (r.history hw ignore).Says s a)
      (.start capacity epoch) as)
    (hs : exec (MountRun.step ignore client) (.start capacity epoch) as = some s)
    (hlast : s.thread.last.1 = s.thread.epoch)
    (htold : ∀ k < s.thread.mount.now, ∀ e ∈ r.events k,
      ∃ e' ∈ s.thread.known client s.thread.last.2, k < e'.madeAt ∧ e'.event.Covers e) :
    (∀ q v, s.thread.mount.metas q = some v → remoteEntry w (r.tree s.thread.mount.now) q = some v.value) ∧
    (∀ d v, s.thread.mount.dirs d = some v → remoteListing w ignore (r.tree s.thread.mount.now) d = some v.value) ∧
    ∀ key b, s.thread.mount.cache.store.block key = some b → remoteBlock w (r.tree s.thread.mount.now) key = b.data := by
  obtain ⟨hi, hv⟩ := History.run_holds hg hs
  have hmatches : ∀ x, (r.history hw ignore).Matches s.thread.mount x := by
    intro x
    refine hv.fresh hi hlast fun k hk hne => ?_
    obtain ⟨e, he, hx⟩ := r.clears hw hne
    obtain ⟨e', he', hmade, hcov⟩ := htold k hk e he
    exact ⟨e', he', hmade, hcov.clears hx⟩
  refine ⟨fun q => hmatches (.entry q), fun d => hmatches (.listing d), fun key b hb => ?_⟩
  exact Option.some.inj (hmatches (.block key) b hb)

/-! ## A file that another client cuts -/

def cutA : Served := ⟨.truncate "" "a" 0 none, letThrough, false, []⟩

theorem cutA_fits {t : Tree} (hok : (cutA.handle textWalks (fun _ => "") 1 t).ok = true) :
    cutA.Fits textWalks (fun _ => "") 1 t where
  seen := rfl
  root := by decide
  ok := .inl hok
  direct := .inr ⟨(fun d hd => by cases hd), fun q hq => .inl (Option.some.inj hq).symm⟩
  inside := fun _ _ _ _ h => by cases h

/-- The file is cut at time 0. -/
def cutsFirst : RemoteRun textWalks (fun _ => "") 1 where
  first := fileA
  served := fun k => if k = 0 then some cutA else none
  root := by decide
  fits := by
    intro k c hc
    obtain ⟨rfl, hc⟩ := Option.ite_none_right_eq_some.1 hc
    cases hc
    exact cutA_fits (by decide)

theorem tree_cutsFirst (k : Nat) : cutsFirst.tree (k + 1) = (cutA.handle textWalks (fun _ => "") 1 fileA).tree := by
  induction k with
  | zero => rfl
  | succ k ih =>
    obtain ⟨-, ht, -⟩ | ⟨c, hc, -, -⟩ := cutsFirst.tree_succ (k + 1)
    · rw [ht, ih]
    · cases hc

/-- The mount hears of it before it asks for the file. -/
def asksForA : List MountRunAct :=
  [.thread (.record (.record 0 none 7 "g" .metadata) 0), .thread (.record (.record 0 none 9 "a" .replaced) 1),
    .watch true, .askSnapshot, .snapshot ∅ [], .askFiles, .files [], .thread (.mount (.stat 0 "a")),
    .thread (.mount (.answer 0 (.entry (some (fileMeta 0 420 9))))), .thread (.mount (.run 0 0)),
    .thread (.mount (.run 0 0)), .thread (.mount (.run 0 0))]

/-- The answer is for that file, and not of the beginning. -/
def answersA (s : MountRun) : MountRunAct → Bool
  | .thread (.mount (.answer t _)) =>
    1 ≤ s.thread.mount.now && match s.thread.mount.calls t with
      | some (.stat p) => p = "a"
      | _ => false
  | _ => true

theorem guarded_asksForA : Guarded (MountRun.step [] 7)
    (fun s a => s.Guard [] 7 a ∧ (cutsFirst.history textWalks_real []).Says s a) (.start 0 0) asksForA := by
  refine guarded_of_checkRun (fun _ => True) (· ∈ asksForA) answersA (fun _ _ _ _ _ _ => trivial) ?_ trivial
    (fun _ => id) (by decide)
  intro s a _ ha hok
  simp only [asksForA, List.mem_cons, List.not_mem_nil, or_false] at ha
  rcases ha with rfl | rfl | rfl | rfl | rfl | rfl | rfl | rfl | rfl | rfl | rfl | rfl
  case inr.inr.inr.inr.inl => exact ⟨trivial, fun asked hp => ⟨fun q v hq => by simp at hq, by simp⟩⟩
  case inr.inr.inr.inr.inr.inr.inl => exact ⟨trivial, fun asked hp f hf => by cases hf⟩
  case inr.inr.inr.inr.inr.inr.inr.inr.inl =>
    refine ⟨trivial, fun p hp => ?_⟩
    simp only [answersA, hp, Bool.and_eq_true, decide_eq_true_eq] at hok
    obtain ⟨hnow, rfl⟩ := hok
    obtain ⟨n, hn⟩ := Nat.exists_eq_add_of_le' hnow
    show remoteEntry textWalks (cutsFirst.tree s.thread.mount.now) "a" = _
    rw [hn, tree_cutsFirst]
    decide
  all_goals exact ⟨trivial, trivial⟩

theorem mount_shows_tree_cut : ∃ s v, exec (MountRun.step [] 7) (.start 0 0) asksForA = some s ∧
    s.thread.mount.metas "a" = some v ∧ remoteEntry textWalks (cutsFirst.tree s.thread.mount.now) "a" = some v.value := by
  have hrun : (exec (MountRun.step [] 7) (.start 0 0) asksForA).any fun s =>
      s.thread.last.1 = s.thread.epoch && (s.thread.mount.metas "a").isSome &&
        decide (s.thread.known 7 s.thread.last.2 = [⟨⟨"a", .replaced⟩, 1⟩]) := by
    decide
  obtain ⟨s, hs, hrun⟩ := (Option.any_eq_true _ _).1 hrun
  simp only [Bool.and_eq_true, decide_eq_true_eq] at hrun
  obtain ⟨⟨hlast, hmeta⟩, hknown⟩ := hrun
  obtain ⟨v, hv⟩ := Option.isSome_iff_exists.1 hmeta
  refine ⟨s, v, hs, hv, (mount_shows_tree textWalks textWalks_real (fun _ => "") 1 cutsFirst [] 7 0 0 s asksForA
    guarded_asksForA hs hlast ?_).1 "a" v hv⟩
  intro k _ e he
  obtain ⟨-, -, hnone⟩ | ⟨c, hc, -, hevents⟩ := cutsFirst.tree_succ k
  · rw [hnone] at he
    cases he
  · obtain ⟨rfl, hc⟩ := Option.ite_none_right_eq_some.1 hc
    cases hc
    rw [hevents] at he
    obtain rfl := List.mem_singleton.1 (mem_events he).2.2
    exact ⟨⟨⟨"a", .replaced⟩, 1⟩, by simp [hknown], Nat.one_pos, .inl rfl⟩

end Mobfs
