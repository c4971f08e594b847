import Mobfs.Daemon.Reach
import Mobfs.Vfs.Operations
/-!
# What the daemon would answer

An item of the caches beside the daemon's answer for it, times apart, which the mount sets by
its own clock. The writes that are still buffered at or below its path are counted in
(`settle`).

The answer is made of few entries (`CacheItem.reads`): two trees that have the same there
give the same answer (`answer_sameOn`), also after the buffered writes (`answer_settled`).
-/

namespace Mobfs

open Lib Std
open WriteBack (matching)

def EntryMeta.timeless (m : EntryMeta) : EntryMeta := { m with modified := 0, sha256 := none }

inductive CacheItem where
  | entry (p : String)
  | listing (d : String)
  | block (p : String) (index : Nat)

inductive View where
  | entry (m : Option EntryMeta)
  | listing (names : Option (String → Option EntryMeta))
  | block (data : Option Bytes)

def nameView (entries : DirEntries EntryMeta) (name : String) : Option EntryMeta :=
  (entries.find? fun e => e.1 = name).map fun e => e.2.timeless

namespace CacheItem

def path : CacheItem → String
  | .entry p => p
  | .listing d => d
  | .block p _ => p

/-- The entries that the answer is made of. -/
def reads : CacheItem → String → Prop
  | .entry p, c => c = p
  | .listing d, c => c = d ∨ (splitParent c).1 = d
  | .block p _, c => c = p

/-- What the answer has of an entry. -/
def seen : CacheItem → Node → Node
  | .block _ _ => Node.bare
  | _ => Node.untimed

/-- The entry or the directory is there, and not a link that the daemon would follow. -/
def There (t : Tree) : CacheItem → Prop
  | .entry p => t.node p ≠ none
  | .listing d => (d = "" ∨ t.node d ≠ none) ∧ t.isLink d = false
  | .block p _ => t.node p ≠ none ∧ t.isLink p = false

end CacheItem

/-- The entries of a directory, by their names. -/
def Tree.entriesIn (t : Tree) (d : String) : DirEntries EntryMeta :=
  t.paths.filterMap fun p =>
    if (splitParent p).1 = d then ((t.node p).bind entryMetaFast).map fun m => ((splitParent p).2, m) else none

/-- There, the trees have the same entries as far as `f` tells. -/
def Tree.SameOn (f : Node → Node) (P : String → Prop) (t t' : Tree) : Prop :=
  ∀ c, P c → (t'.node c).map f = (t.node c).map f

section Answer
variable (w : Walks) (blobs : String → Bytes) (ignore : List String)

/-- The daemon's answer for an item of the caches. -/
def answerFor (t : Tree) : CacheItem → View
  | .entry p => .entry ((statRemote w t p).map EntryMeta.timeless)
  | .listing d => .listing ((listRemote w ignore t d).map nameView)
  | .block p i => .block (readRemote w t p i)

/-- The tree after a buffered write. -/
def settleOne (t : Tree) (part : PendingPart) : Tree :=
  (handle w blobs ⟨⟨0, 0o644, 0o755, 0o777⟩, false, none⟩ false t (.writeAt part.path part.offset part.data)).1

/-- The tree once the writes buffered at or below the path are uploaded. -/
def settle (pending : List PendingPart) (p : String) (t : Tree) : Tree :=
  (pending.filter fun part => matching p part.path).foldl (settleOne w blobs) t

/-- The daemon's answer on a tree, once the writes that are pending are uploaded. -/
def answerOn (pending : List PendingPart) (t : Tree) (x : CacheItem) : View :=
  answerFor w ignore (settle w blobs pending x.path t) x

end Answer

variable {w : Walks} {blobs : String → Bytes} {ignore : List String} {t t' : Tree} {x : CacheItem} {p d : String}

/-! ## The same entries, the same answer -/

theorem filter_paths_congr {P : String → Bool} (h : ∀ c, P c = true → (t'.node c = none ↔ t.node c = none)) :
    t'.paths.filter P = t.paths.filter P := by
  have hlt : ∀ t : Tree, (t.paths.filter P).Pairwise fun a b => a.toList < b.toList := fun t => (keys_lt t.nodes).filter _
  have hnodup : ∀ t : Tree, (t.paths.filter P).Nodup := fun t => (hlt t).imp fun hab he => absurd (he ▸ hab) (List.lt_irrefl _)
  refine List.Perm.eq_of_pairwise (fun a b _ _ hab hba => absurd hab (List.lt_asymm hba)) (hlt t') (hlt t) ?_
  refine (List.perm_ext_iff_of_nodup (hnodup t') (hnodup t)).2 fun c => ?_
  rw [List.mem_filter, List.mem_filter, Tree.mem_paths, Tree.mem_paths]
  exact and_congr_left fun hc => not_congr (h c hc)

theorem entriesIn_eq (t : Tree) (d : String) : t.entriesIn d =
    (t.paths.filter fun p => (splitParent p).1 = d).filterMap fun p =>
      ((t.node p).bind entryMetaFast).map fun m => ((splitParent p).2, m) := by
  rw [Tree.entriesIn, List.filterMap_filter]
  simp only [decide_eq_true_eq]

/-- A listing tells of names, and of the entries but their times. -/
theorem nameView_eq (es : DirEntries EntryMeta) (name : String) :
    nameView es name = ((es.map fun e => (e.1, e.2.timeless)).find? fun e => e.1 = name).map (·.2) := by
  rw [List.find?_map, Option.map_map]
  rfl

namespace Tree.SameOn

variable {f : Node → Node} {P Q : String → Prop}

theorem mono (h : t.SameOn f P t') (hPQ : ∀ c, Q c → P c) : t.SameOn f Q t' := fun c hc => h c (hPQ c hc)

theorem node_none (h : t.SameOn f P t') {c : String} (hc : P c) : t'.node c = none ↔ t.node c = none := by
  rw [← Option.map_eq_none_iff (f := f), h c hc, Option.map_eq_none_iff]

theorem node (h : t.SameOn f P t') {c : String} (hc : P c) {n : Node} (hn : t.node c = some n) :
    ∃ n', t'.node c = some n' ∧ f n' = f n := by
  have hsame := h c hc
  rw [hn, Option.map_some] at hsame
  exact Option.map_eq_some_iff.1 hsame

end Tree.SameOn

theorem entryMetaFast_untimed {n n' : Node} (h : n'.untimed = n.untimed) :
    (entryMetaFast n').map EntryMeta.timeless = (entryMetaFast n).map EntryMeta.timeless := by
  cases n <;> cases n' <;> cases h <;> rfl

namespace CacheItem

theorem seen_bare {n n' : Node} (h : x.seen n' = x.seen n) : n'.bare = n.bare := by
  cases x with
  | block p i => exact h
  | _ =>
    have hsame : n'.untimed = n.untimed := h
    rw [← Node.bare_untimed, hsame, Node.bare_untimed]

theorem isLink_of_bare {n n' : Node} (h : n'.bare = n.bare) : n'.isLink = n.isLink := by
  cases n <;> cases n' <;> cases h <;> rfl

theorem isDir_of_bare {n n' : Node} (h : n'.bare = n.bare) : n'.isDir = n.isDir := by
  cases n <;> cases n' <;> cases h <;> rfl

theorem reads_path (x : CacheItem) : x.reads x.path := by
  cases x with
  | entry p => exact rfl
  | listing d => exact .inl rfl
  | block p i => exact rfl

/-- What is seen of an entry tells whether it is there, a link or a directory. -/
theorem isLink_seen (h : t.SameOn x.seen x.reads t') {c : String} (hc : x.reads c) : t'.isLink c = t.isLink c := by
  cases hn : t.node c with
  | none => rw [Tree.isLink, Tree.isLink, hn, (h.node_none hc).2 hn]
  | some n =>
    obtain ⟨n', hn', hsame⟩ := h.node hc hn
    rw [Tree.isLink, Tree.isLink, hn, hn', Option.any_some, Option.any_some, isLink_of_bare (seen_bare hsame)]

theorem isDir_seen (h : t.SameOn x.seen x.reads t') {c : String} (hc : x.reads c) : t'.isDir c = t.isDir c := by
  cases hn : t.node c with
  | none => rw [Tree.isDir, Tree.isDir, hn, (h.node_none hc).2 hn]
  | some n =>
    obtain ⟨n', hn', hsame⟩ := h.node hc hn
    rw [Tree.isDir, Tree.isDir, hn, hn', Option.any_some, Option.any_some, isDir_of_bare (seen_bare hsame)]

theorem There.sameOn (hx : x.There t) (h : t.SameOn x.seen x.reads t') : x.There t' := by
  have hlink := isLink_seen h x.reads_path
  have hnone := h.node_none x.reads_path
  cases x with
  | entry p => exact fun hn => hx (hnone.1 hn)
  | listing d => exact ⟨hx.1.imp_right fun hn hn' => hn (hnone.1 hn'), hlink.trans hx.2⟩
  | block p i => exact ⟨fun hn => hx.1 (hnone.1 hn), hlink.trans hx.2⟩

/-- The daemon finds the item where its path says. -/
theorem There.plain (hx : x.There t) : t.Plain x.path := by
  cases x with
  | entry p => exact Tree.plain_of_node hx
  | listing d =>
    rcases hx.1 with rfl | hn
    · intro d hd
      obtain ⟨r, hr⟩ := below_iff.1 hd
      simp [path] at hr
    · exact Tree.plain_of_node hn
  | block p i => exact Tree.plain_of_node hx.1

end CacheItem

theorem entriesIn_sameOn (h : t.SameOn Node.untimed (CacheItem.listing d).reads t') :
    (t'.entriesIn d).map (fun e => (e.1, e.2.timeless)) = (t.entriesIn d).map fun e => (e.1, e.2.timeless) := by
  have hpaths : (t'.paths.filter fun p => (splitParent p).1 = d) = t.paths.filter fun p => (splitParent p).1 = d :=
    filter_paths_congr fun c hc => h.node_none (.inr (of_decide_eq_true hc))
  rw [entriesIn_eq, entriesIn_eq, hpaths, List.map_filterMap, List.map_filterMap]
  refine List.filterMap_congr fun c hc => ?_
  have hdir : (splitParent c).1 = d := of_decide_eq_true (List.mem_filter.1 hc).2
  cases hn : t.node c with
  | none => rw [(h.node_none (.inr hdir)).2 hn]
  | some n =>
    obtain ⟨n', hn', hsame⟩ := h.node (.inr hdir) hn
    have hmeta := entryMetaFast_untimed hsame
    rw [hn', Option.bind_some, Option.bind_some, Option.map_map, Option.map_map]
    have hname : ∀ o : Option EntryMeta, o.map ((fun e : String × EntryMeta => (e.1, e.2.timeless)) ∘
        fun m => ((splitParent c).2, m)) = (o.map EntryMeta.timeless).map fun m => ((splitParent c).2, m) := by
      intro o
      rw [Option.map_map]
      rfl
    rw [hname, hname, hmeta]

theorem listRemote_eq (w : Walks) (ignore : List String) (hd : (CacheItem.listing d).There t) : listRemote w ignore t d =
    if d = "" ∨ t.isDir d = true then
      some ((t.entriesIn d).filter fun e => !shouldIgnorePart e.1.toList ignore) else none := by
  have hfollow : w.follow t d = some d := follow_plain hd.plain hd.2
  rw [listRemote, listDir, hfollow, Option.bind_some]
  show Option.map _ (if d = "" ∨ t.isDir d = true then some (t.entriesIn d) else none) = _
  split <;> rfl

theorem answer_sameOn (hx : x.There t) (h : t.SameOn x.seen x.reads t') : answerFor w ignore t' x = answerFor w ignore t x := by
  have hx' := hx.sameOn h
  cases x with
  | entry p =>
    obtain ⟨n, hn⟩ := Option.ne_none_iff_exists'.1 hx
    obtain ⟨n', hn', hsame⟩ := h.node rfl hn
    refine congrArg View.entry ?_
    rw [statRemote, statRemote, lookup_of_node hn, lookup_of_node hn', Option.bind_some, Option.bind_some]
    exact entryMetaFast_untimed hsame
  | listing d =>
    refine congrArg View.listing ?_
    rw [listRemote_eq w ignore hx, listRemote_eq w ignore hx', CacheItem.isDir_seen h (.inl rfl)]
    split
    · refine congrArg some (funext fun name => ?_)
      rw [nameView_eq, nameView_eq]
      have hfilter : ∀ es : DirEntries EntryMeta,
          (es.filter fun e => !shouldIgnorePart e.1.toList ignore).map (fun e => (e.1, e.2.timeless)) =
            (es.map fun e => (e.1, e.2.timeless)).filter fun e => !shouldIgnorePart e.1.toList ignore := by
        intro es
        rw [List.filter_map]
        rfl
      rw [hfilter, hfilter, entriesIn_sameOn h]
    · rfl
  | block p i =>
    obtain ⟨n, hn⟩ := Option.ne_none_iff_exists'.1 hx.1
    obtain ⟨n', hn', hsame⟩ := h.node rfl hn
    refine congrArg View.block ?_
    have hfollow : w.follow t p = some p := follow_plain hx.plain hx.2
    have hfollow' : w.follow t' p = some p := follow_plain hx'.plain hx'.2
    rw [readRemote, readRemote, hfollow, hfollow', Option.bind_some, Option.bind_some, hn, hn']
    cases n <;> cases n' <;> cases hsame <;> rfl

/-! ## Writes to files that are there -/

/-- There is a file at the path. -/
def Tree.HasFile (t : Tree) (p : String) : Prop := ∃ data mode mtime, t.node p = some (.file data mode mtime)

/-- A write to a file that is there, where nothing is refused. -/
theorem handle_writeAt_file {h : Handling} {data : Bytes} {mode : Nat} {mtime : Int} (hr : h.refused = none)
    (hn : t.node p = some (.file data mode mtime)) (offset : Nat) (bytes : Bytes) (c : String) :
    (handle w blobs h false t (.writeAt p offset bytes)).1.node c =
      if c = p then some (.file (writeAt 0 data offset bytes) mode h.stamp.mtime) else t.node c := by
  have hfollow : w.follow t p = some p :=
    follow_plain (Tree.plain_of_node (by simp [hn])) (by simp [Tree.isLink, hn, Node.isLink])
  obtain ⟨t1, hedit, -, hnode⟩ := editFile_of_file (f := (writeAt 0 · offset bytes)) h.stamp hfollow hn
  have hdirs : ∀ d ∈ ancestors p, t.isDir d = true :=
    fun d hd => Tree.isDir_of_below (mem_ancestors_iff.1 hd) (by simp [hn])
  have hall : doAll t (some :: (JournalOp.writeAt p offset bytes).calls w blobs h t ++ [some]) = some t1 := by
    rw [List.cons_append, doAll_cons]
    refine ⟨t, rfl, doAll_append.2 ⟨t1, doAll_append.2 ⟨t, ?_, ?_⟩, rfl⟩⟩
    · rw [doAll_createDirAll]
      exact createDirs_of_isDir hdirs
    · exact doAll_cons.2 ⟨t, openCreate_of_file h.stamp hfollow hn, doAll_cons.2 ⟨t1, hedit, rfl⟩⟩
  have hrun := runSteps_append [] hall
  rw [List.append_nil] at hrun
  rw [handle, hr, runCalls_eq, if_neg Bool.false_ne_true, hrun]
  exact hnode c

theorem settleOne_file {part : PendingPart} {data : Bytes} {mode : Nat} {mtime : Int}
    (hn : t.node part.path = some (.file data mode mtime)) (c : String) : (settleOne w blobs t part).node c =
      if c = part.path then some (.file (writeAt 0 data part.offset part.data) mode 0) else t.node c :=
  handle_writeAt_file rfl hn part.offset part.data c

theorem Tree.HasFile.settleOne {part : PendingPart} (h : t.HasFile p) (hpart : t.HasFile part.path) :
    (settleOne w blobs t part).HasFile p := by
  obtain ⟨data, mode, mtime, hn⟩ := hpart
  by_cases hp : p = part.path
  · exact ⟨_, _, _, (settleOne_file hn p).trans (if_pos hp)⟩
  · obtain ⟨data', mode', mtime', hn'⟩ := h
    exact ⟨_, _, _, ((settleOne_file hn p).trans (if_neg hp)).trans hn'⟩

namespace CacheItem

variable {part : PendingPart} {P : String → Prop}

theorem There.settleOne (hx : x.There t) (hpart : t.HasFile part.path) : x.There (settleOne w blobs t part) := by
  obtain ⟨data, mode, mtime, hn⟩ := hpart
  have hsome : t.node x.path ≠ none → (Mobfs.settleOne w blobs t part).node x.path ≠ none := by
    rw [settleOne_file hn]
    split
    · simp
    · exact id
  have hlink : (Mobfs.settleOne w blobs t part).isLink x.path = t.isLink x.path := by
    rw [Tree.isLink, settleOne_file hn]
    split
    · rename_i hp
      rw [Tree.isLink, hp, hn]
      rfl
    · rfl
  cases x with
  | entry p => exact hsome hx
  | listing d => exact ⟨hx.1.imp_right hsome, hlink.trans hx.2⟩
  | block p i => exact ⟨hsome hx.1, hlink.trans hx.2⟩

/-- A file that is seen as another one has its data, and is so after a write to both. -/
theorem seen_file {n : Node} {data : Bytes} {mode : Nat} {mtime : Int} (h : x.seen n = x.seen (.file data mode mtime)) :
    ∃ mode' mtime', n = .file data mode' mtime' ∧
      ∀ data' m m', x.seen (.file data' mode' m') = x.seen (.file data' mode m) := by
  have hbare := seen_bare h
  cases n with
  | file data' mode' mtime' =>
    obtain ⟨rfl, -, -⟩ := Node.file.inj hbare
    refine ⟨mode', mtime', rfl, fun data' m m' => ?_⟩
    cases x with
    | block p i => rfl
    | _ =>
      obtain ⟨-, rfl, -⟩ := Node.file.inj h
      rfl
  | _ => cases hbare

theorem sameOn_settleOne (h : t.SameOn x.seen P t') (hP : P part.path) (hpart : t.HasFile part.path) :
    (settleOne w blobs t part).SameOn x.seen P (settleOne w blobs t' part) := by
  obtain ⟨data, mode, mtime, hn⟩ := hpart
  obtain ⟨n', hn', hsame⟩ := h.node hP hn
  obtain ⟨mode', mtime', rfl, hwritten⟩ := seen_file hsame
  intro c hc
  rw [settleOne_file hn, settleOne_file hn']
  split
  · exact congrArg some (hwritten _ _ _)
  · exact h c hc

/-- Where trees have the same entries, the item is answered the same after writes to files
that are there. -/
theorem answer_settled {parts : List PendingPart} (hx : x.There t) (h : t.SameOn x.seen P t') (hreads : ∀ c, x.reads c → P c)
    (hparts : ∀ part ∈ parts, P part.path ∧ t.HasFile part.path) :
    answerFor w ignore (parts.foldl (settleOne w blobs) t') x = answerFor w ignore (parts.foldl (settleOne w blobs) t) x := by
  induction parts generalizing t t' with
  | nil => exact answer_sameOn hx (h.mono hreads)
  | cons part parts ih =>
    obtain ⟨hP, hfile⟩ := hparts part List.mem_cons_self
    refine ih (hx.settleOne hfile) (sameOn_settleOne h hP hfile) fun q hq => ?_
    obtain ⟨hPq, hfileq⟩ := hparts q (List.mem_cons_of_mem _ hq)
    exact ⟨hPq, hfileq.settleOne hfile⟩

end CacheItem

end Mobfs
