import Mobfs.Remote.DownloadFile
import Mobfs.Daemon.FileChanges
/-!
# Conflict copies

For a path that was changed on both sides `write_conflict_artifacts` copies the local file,
moves it aside, downloads the remote one to its path, moves this away, and moves the local
file back.

`conflict_copies_iff` says when the local file is at its path in the end, and the copies are
what they should be. When the downloaded file cannot be moved away, the function returns at
once, and the local file stays where it was moved to: a directory with the name of the copy
is enough (`directory_in_the_way`).
-/

namespace Mobfs

open Lib Std
open WriteBack (matching)

/-! ## The names -/

section Names
variable (pid : Nat) (p : String)

def localName : String := fileName p ++ ".mobfs-conflict-local"
def remoteName : String := fileName p ++ ".mobfs-conflict-remote"
def swapName : String := "." ++ fileName p ++ ".mobfs-conflict-swap"
def tempName : String := "." ++ fileName p ++ ".mobfs-tmp-" ++ toString pid

def localConflict : String := withFileName p (localName p)
def remoteConflict : String := withFileName p (remoteName p)
def conflictSwap : String := withFileName p (swapName p)

end Names

/-! ## Writing the copies -/

/-- The system of the client. `unseen`: `is_file` fails. `copies`: so many calls of
`fs::copy` are let through. The other flags let the three renames through. -/
structure ConflictOs where
  unseen : Bool
  copies : Option Nat
  asides : Bool
  download : LocalOs
  keeps : Bool
  restores : Bool

def Client.withTree (s : Client) (t : Tree) : Client := { s with disk := { s.disk with tree := t } }

section Artifacts
variable (w : Walks) (os : ConflictOs) (c : ReadRoute)

/-- `fs::copy`. The source is open before the copy is made, and read after that. -/
def copyCalls (stamp : Stamp) (src dst : String) (t : Tree) : List (Tree → Option Tree) :=
  match w.follow t src with
  | none => [fun _ => none]
  | some q =>
    match t.node q with
    | some (.file _ mode _) =>
      [createFile w stamp dst, setPermissions w dst mode, fun t =>
        match t.node q with
        | some (.file data _ _) => writeAll w stamp dst 0 data t
        | _ => none]
    | _ => [fun _ => none]

def renameIf (allowed : Bool) (src dst : String) (t : Tree) : Option Tree := if allowed then moveEntry w src dst t else none

/-- Whether `write_conflict_artifacts` returns `Ok`. -/
def writeConflictArtifacts (rel : String) (remote : Snapshot) (t : Tree) : Bool × Client :=
  match if os.unseen then none else (w.follow t rel).bind t.node with
  | some (.file _ _ _) =>
    match runCalls os.copies t (copyCalls w os.download.stamp rel (localConflict rel) t) with
    | (t, false) => (false, t.client)
    | (t, true) =>
      match remote[rel]? with
      | none => (true, t.client)
      | some m =>
        if m.kind = .file then
          match renameIf w os.asides rel (conflictSwap rel) t with
          | none => (false, t.client)
          | some t =>
            let result := downloadRegular w os.download c rel m t.client
            let kept := if result.1 then renameIf w os.keeps rel (remoteConflict rel) result.2.disk.tree
              else some result.2.disk.tree
            match kept with
            | none => (false, result.2)
            | some t =>
              match renameIf w os.restores (conflictSwap rel) rel t with
              | none => (false, result.2.withTree t)
              | some t => (result.1, result.2.withTree t)
        else (true, t.client)
  | _ => (true, t.client)

/-! ## When the local file is kept -/

/-- The entry at the path is the one that was there, and the file it leads to has its contents. -/
def LocalKept (rel : String) (n : Node) (q : String) (data : Bytes) (t : Tree) : Prop :=
  (w.lookup t rel).map Node.bare = some n.bare ∧ ∃ mode mtime, t.node q = some (.file data mode mtime)

def CopiesHold (rel : String) (data : Bytes) (t : Tree) : Prop :=
  Holds w (localConflict rel) data t ∧ Holds w (remoteConflict rel) c.file.contents t

/-- The local file has been copied and moved aside. -/
def setAside (rel : String) (t : Tree) : Option Tree :=
  match runCalls os.copies t (copyCalls w os.download.stamp rel (localConflict rel) t) with
  | (_, false) => none
  | (t, true) => renameIf w os.asides rel (conflictSwap rel) t

/-- If the remote entry is a file and the local one has been moved aside: either the download
succeeds, what it has brought is moved away and the local file back, and no piece was short;
or it fails and the local file is moved back; or it has left what was there. -/
def ConflictSafe (rel : String) (remote : Snapshot) (t : Tree) (n : Node) (data : Bytes) : Prop :=
  ∀ m, remote[rel]? = some m → m.kind = .file →
    if os.unseen then CopiesHold w c rel data t
    else ∀ t2, setAside w os rel t = some t2 →
      let got := downloadRegular w os.download c rel m t2.client
      if got.1 = true ∧ os.keeps = true ∧ (w.lookup t (remoteConflict rel)).any Node.isDir = false then
        os.restores = true ∧ ShortAtEnd c.file got.2.remote.state
      else (got.1 = false ∧ os.restores = true) ∨ (w.lookup got.2.disk.tree rel).map Node.bare = some n.bare

end Artifacts

/-- What is relied on of path resolution. -/
structure Walks.Level (w : Walks) : Prop extends w.Steady, w.Fresh where
  /-- The names of a directory are found next to each other. -/
  names : ∀ t p q n, w.locate t p = some q → '/' ∉ n.toList → w.locate t (withFileName p n) = some (withFileName q n)
  /-- A new entry changes no way to a directory that is there. -/
  kept : ∀ t t' p q r n, t.node r = none → t.place r n = some t' → w.locate t p = some q →
    (∀ d ∈ ancestors p, w.lookup t d ≠ none) → w.locate t' p = some q

/-- The names that are made up are no links, the path does not lead to them, and if it or
the name for the swap is a link, this link is not on the way to its own directory. -/
structure ConflictReady (w : Walks) (pid : Nat) (p : String) (t : Tree) : Prop where
  noLink : ∀ n ∈ [localName p, remoteName p, tempName pid p], ∀ q, w.locate t (withFileName p n) = some q → t.isLink q = false
  led : ∀ q, w.locate t p = some q → t.isLink q = true →
    ∀ n ∈ [localName p, remoteName p, swapName p, tempName pid p], w.follow t p ≠ w.locate t (withFileName p n)
  way : ∀ q qs, w.locate t p = some q → w.locate t (conflictSwap p) = some qs → t.isLink q = true ∨ t.isLink qs = true →
    w.locate ((t.drop qs).drop q) p = some q

/-! ## Names are apart -/

section Names
variable {pid : Nat} {p q : String}

theorem tempName_spec : '/' ∉ (tempName pid p).toList ∧ tempName pid p ≠ fileName p := by
  obtain ⟨n, htemp, hn, hne⟩ := sibling_atomicTempPath pid p
  obtain rfl : tempName pid p = n := withFileName_inj htemp
  exact ⟨hn, hne⟩

theorem localName_noSlash : '/' ∉ (localName p).toList := by simp [localName, fileName_noSlash]
theorem remoteName_noSlash : '/' ∉ (remoteName p).toList := by simp [remoteName, fileName_noSlash]
theorem swapName_noSlash : '/' ∉ (swapName p).toList := by simp [swapName, fileName_noSlash]

/-- The last characters tell the names apart. -/
theorem tempName_last : ∃ c, (tempName pid p).toList.getLast? = some c ∧ c.isDigit = true := by
  obtain ⟨c, hc⟩ := Option.ne_none_iff_exists'.1 (show (Nat.toDigits 10 pid).getLast? ≠ none by simp)
  refine ⟨c, ?_, Nat.isDigit_of_mem_toDigits (by decide) (by decide) (List.mem_of_getLast? hc)⟩
  have hdigits : (toString pid).toList = Nat.toDigits 10 pid := by simp [Nat.repr]
  rw [tempName, String.toList_append, List.getLast?_append, hdigits, hc]
  rfl

theorem localName_last : (localName p).toList.getLast? = some 'l' := by
  rw [localName, String.toList_append, List.getLast?_append]
  rfl

theorem remoteName_last : (remoteName p).toList.getLast? = some 'e' := by
  rw [remoteName, String.toList_append, List.getLast?_append]
  rfl

theorem swapName_last : (swapName p).toList.getLast? = some 'p' := by
  rw [swapName, String.toList_append, List.getLast?_append]
  rfl

theorem ne_of_last {a b : String} {c c' : Char} (ha : a.toList.getLast? = some c) (hb : b.toList.getLast? = some c') (hne : c ≠ c') :
    a ≠ b := by
  rintro rfl
  exact hne (Option.some.inj (ha.symm.trans hb))

theorem ne_tempName {n : String} {c : Char} (hn : n.toList.getLast? = some c) (hc : c.isDigit = false) : n ≠ tempName pid p := by
  obtain ⟨c', hlast, hdigit⟩ := tempName_last (p := p)
  refine ne_of_last hn hlast ?_
  rintro rfl
  exact Bool.false_ne_true (hc.symm.trans hdigit)

theorem ne_fileName {n : String} (hlen : (fileName p).toList.length < n.toList.length) : n ≠ fileName p := by
  rintro rfl
  exact Nat.lt_irrefl _ hlen

theorem localName_ne : localName p ≠ fileName p := ne_fileName (by simp [localName])
theorem remoteName_ne : remoteName p ≠ fileName p := ne_fileName (by simp [remoteName])
theorem swapName_ne : swapName p ≠ fileName p := by
  refine ne_fileName ?_
  have hdot : ".".toList.length = 1 := rfl
  rw [swapName, String.toList_append, String.toList_append, List.length_append, List.length_append]
  omega

theorem names_spec : ∀ a ∈ [localName p, remoteName p, swapName p, tempName pid p], '/' ∉ a.toList ∧ a ≠ fileName p := by
  simp only [List.forall_mem_cons, List.not_mem_nil, false_implies, implies_true, and_true]
  exact ⟨⟨localName_noSlash, localName_ne⟩, ⟨remoteName_noSlash, remoteName_ne⟩, ⟨swapName_noSlash, swapName_ne⟩, tempName_spec⟩

theorem written_subset : [localName p, remoteName p, tempName pid p] ⊆ [localName p, remoteName p, swapName p, tempName pid p] :=
  ((List.Sublist.refl _).cons _).cons_cons _ |>.cons_cons _ |>.subset

end Names

/-! ## Copying -/

section Copy
variable {w : Walks} {P : String → Prop} {t t' : Tree} {p q q0 : String}

theorem follow_touched (h : Touches P t t') (hw : w.Real) (hq : w.locate t p = some q) (hlink : t.isLink q = false) :
    w.follow t' p = some q :=
  w.follow_eq t' p q (by rw [h.locate_eq hw, hq]) (by rw [h.isLink, hlink])

theorem file_touched {data : Bytes} {mode : Nat} {mtime : Int} (h : Touches P t t') (hq : ¬ P q)
    (hn : t.node q = some (.file data mode mtime)) : ∃ mode' mtime', t'.node q = some (.file data mode' mtime') :=
  Tree.file_of_bare (by rw [h.bare hq, hn, Option.map_some])

/-- A copy changes no other entry, and has the contents of its source. -/
theorem copy_spec (hw : w.Real) (stamp : Stamp) {src dst qd : String} {data : Bytes} {mode : Nat} {mtime : Int}
    (hf : w.follow t src = some q0) (hD : t.node q0 = some (.file data mode mtime)) (hd : w.locate t dst = some qd)
    (hlink : t.isLink qd = false) (hne : q0 ≠ qd) (refused : Option Nat) :
    Touches (· = qd) t (runCalls refused t (copyCalls w stamp src dst t)).1 ∧
      ((runCalls refused t (copyCalls w stamp src dst t)).2 = true →
        ∃ mode' mtime', (runCalls refused t (copyCalls w stamp src dst t)).1.node qd = some (.file data mode' mtime')) := by
  simp only [copyCalls, hf, hD]
  have hcreate : ∀ t1 t2, Touches (· = qd) t t1 → createFile w stamp dst t1 = some t2 → Touches (· = qd) t t2 := fun t1 t2 h1 hc =>
    h1.trans (touches_createFile hw (follow_touched h1 hw hd hlink) rfl hc)
  have hwrite : ∀ t1 t2, Touches (· = qd) t t1 → writeAll w stamp dst 0 data t1 = some t2 → Touches (· = qd) t t2 := fun t1 t2 h1 hc =>
    h1.trans (touches_writeAll (follow_touched h1 hw hd hlink) rfl hc)
  -- What is read is what was there, the copy being another file.
  have hread : ∀ t1, Touches (· = qd) t t1 → (match t1.node q0 with
      | some (.file data _ _) => writeAll w stamp dst 0 data t1
      | _ => none) = writeAll w stamp dst 0 data t1 := by
    intro t1 h1
    obtain ⟨mode', mtime', hn⟩ := file_touched h1 hne hD
    rw [hn]
  refine ⟨runCalls_inv (fun call hcall t1 t2 h1 hc => ?_) .refl, fun hok => ?_⟩
  · simp only [List.mem_cons, List.not_mem_nil, or_false] at hcall
    rcases hcall with rfl | rfl | rfl
    · exact hcreate t1 t2 h1 hc
    · exact h1.metadata (setPermissions_spec hc).1
    · exact hwrite t1 t2 h1 ((hread t1 h1).symm.trans hc)
  · have hrun := runCalls_ok hok
    generalize (runCalls _ _ _).1 = t3 at hrun ⊢
    obtain ⟨t1, h1, hrun⟩ := foldlM_cons_iff.1 hrun
    obtain ⟨t2, h2, hrun⟩ := foldlM_cons_iff.1 hrun
    obtain ⟨t3', h3, hrun⟩ := foldlM_cons_iff.1 hrun
    obtain rfl := foldlM_nil_iff.1 hrun
    have ht1 := hcreate t t1 .refl h1
    have ht2 := ht1.metadata (setPermissions_spec h2).1
    have h3 := (hread t2 ht2).symm.trans h3
    have hempty : TempHolds w dst [] t2 := by
      obtain ⟨q, mode', mtime', hq, hn⟩ := tempHolds_createFile h1
      have hm := (setPermissions_spec h2).1
      obtain ⟨mode2, mtime2, hn2⟩ := hm.file hn
      exact ⟨q, mode2, mtime2, by rw [w.meta_follow _ _ hm, hq], hn2⟩
    obtain ⟨q, mode', mtime', hq, hn⟩ := hempty.writeAll h3
    obtain rfl : qd = q := Option.some.inj ((follow_touched (hwrite t2 _ ht2 h3) hw hd hlink).symm.trans hq)
    exact ⟨mode', mtime', hn⟩

end Copy

/-! ## Moving aside and back -/

/-- A directory that need not be made is there, or a link leads to it. -/
theorem there_of_createDir {links : Links} {mode : Nat} {t : Tree} {d : String} (h : createDir links mode t d = some t) :
    ∃ q n, links.locate t d = some q ∧ t.node q = some n ∧ (n.isDir = true ∨ n.isLink = true) := by
  obtain ⟨q, hq, ⟨hn, hplace⟩ | ⟨-, n, hn, hkind⟩⟩ := createDir_cases h
  · have hnew := (Tree.place_eq_some hplace).2.2 q
    rw [if_pos rfl, hn] at hnew
    cases hnew
  · exact ⟨q, n, hq, hn, hkind.imp_right And.left⟩

section Moves
variable {w : Walks} {t t' : Tree} {q q' : String} {n : Node}

theorem node_dropped (hdir : t.isDir q = false) (hdir' : t.isDir q' = false) (r : String) :
    ((t.drop q').drop q).node r = if r = q then none else if r = q' then none else t.node r := by
  have hd : (t.drop q').isDir q = false := by
    rw [Tree.isDir, Tree.node_drop_of_not_isDir hdir']
    split
    · rfl
    · exact hdir
  rw [Tree.node_drop_of_not_isDir hd, Tree.node_drop_of_not_isDir hdir']

/-- What has been moved is dropped where it was moved to. -/
theorem drop_moved (hne : q ≠ q') (hn : t.node q = some n) (hfile : n.isDir = false) (hmv : t.rename q q' = some t') :
    t'.drop q' = (t.drop q').drop q := by
  have hnode := move_file hne hmv hn hfile
  have hdir : t.isDir q = false := by rw [Tree.isDir, hn, Option.any_some, hfile]
  have hdir' : t'.isDir q' = false := by rw [Tree.isDir, hnode, if_pos rfl, Option.any_some, hfile]
  refine Tree.ext_node fun r => ?_
  rw [Tree.node_drop_of_not_isDir hdir', hnode, node_dropped hdir (isDir_replaced hne hn hfile hmv)]
  by_cases hr : r = q'
  · rw [if_pos hr, if_pos hr]
    split <;> rfl
  · rw [if_neg hr, if_neg hr, if_neg hr]

/-- A way that needs neither the entry nor what it replaces stays, if its directory is there
without them. -/
theorem locate_moved (hw : w.Level) (hne : q ≠ q') (hn : t.node q = some n) (hfile : n.isDir = false)
    (hmv : t.rename q q' = some t') {p r a : String} (hp : w.locate ((t.drop q').drop q) p = some r) (ha : '/' ∉ a.toList)
    (hthere : ((t.drop q').drop q).node (withFileName r a) ≠ none) : w.locate t' p = some r := by
  have hdir : t.isDir q = false := by rw [Tree.isDir, hn, Option.any_some, hfile]
  have hdir' := isDir_replaced hne hn hfile hmv
  have hnode := node_dropped hdir hdir'
  have hfree : ((t.drop q').drop q).node q' = none := by rw [hnode, if_neg (Ne.symm hne), if_pos rfl]
  have habove : ∀ d, below d q' = true → ((t.drop q').drop q).isDir d = true := by
    intro d hd
    have hd' := (Tree.moved_of_rename hne hmv).dirs d hd
    have hdne : d ≠ q := by
      rintro rfl
      exact Bool.false_ne_true (hdir.symm.trans hd')
    rwa [Tree.isDir, hnode, if_neg hdne, if_neg (ne_of_below hd)]
  obtain ⟨t2, hplace⟩ := Tree.place_isSome n habove (by rw [Tree.isDir, hfree]; rfl)
  have heq : t2 = t' := by
    refine Tree.ext_node fun r => ?_
    rw [(Tree.place_eq_some hplace).2.2, move_file hne hmv hn hfile, hnode]
    by_cases hr : r = q'
    · rw [if_pos hr, if_pos hr]
    · rw [if_neg hr, if_neg hr, if_neg hr]
  rw [← heq]
  refine hw.kept _ _ p r q' n hfree hplace hp fun d hd hnone => ?_
  -- The directories are there, something being in them.
  obtain ⟨x, m, hx, hm, -⟩ := there_of_createDir
    (hw.ways _ 0 _ _ (hw.names _ p r a hp ha) hthere d (by rwa [ancestors_withFileName ha]))
  rw [Links.lookup, hx, Option.bind_some, hm] at hnone
  cases hnone

end Moves

/-! ## What a download touches -/

section Download
variable {w : Walks} {os : LocalOs} {c : ReadRoute} {P : String → Prop} {t : Tree} {rel temp q qt : String} {m : EntryMeta}

theorem run_touches {disk : Machine} {calls : List (Tree → Option Tree)} (h : Touches P t disk.tree)
    (hcalls : ∀ call ∈ calls, ∀ t1 t2, Touches P t t1 → call t1 = some t2 → Touches P t t2) :
    Touches P t (disk.run os calls).2.tree :=
  runCalls_inv hcalls h

theorem chunks_touch (hw : w.Real) (ht : w.locate t temp = some qt) (hlink : t.isLink qt = false) (hP : P qt) {fuel offset : Nat}
    {s : Client} (h : Touches P t s.disk.tree) : Touches P t (downloadChunks w os c temp fuel offset s).2.disk.tree := by
  induction fuel generalizing offset s with
  | zero => exact h
  | succ fuel ih =>
    unfold downloadChunks
    split
    · rename_i data eof remote _
      have hrun : Touches P t (s.disk.run os [writeAll w os.stamp temp offset data]).2.tree :=
        run_touches h fun call hcall t1 t2 h1 hc => by
          rw [List.mem_singleton.1 hcall] at hc
          exact h1.trans (touches_writeAll (follow_touched h1 hw ht hlink) hP hc)
      split
      · rename_i disk hres
        rwa [hres] at hrun
      · rename_i disk hres
        rw [hres] at hrun
        split
        · exact hrun
        · exact ih hrun
    · exact h

/-- It is not made later either. -/
theorem createDir_touched {t1 t2 : Tree} {mode : Nat} {d : String} (h : Touches P t t1) (hw : w.Real)
    (hd : createDir w.toLinks mode t d = some t) (hc : createDir w.toLinks mode t1 d = some t2) : t2 = t1 := by
  obtain ⟨r, n, hr, hn, hkind⟩ := there_of_createDir hd
  obtain ⟨r', hr', ⟨hnone, -⟩ | ⟨rfl, -⟩⟩ := createDir_cases hc
  · have hloc : w.locate t1 d = some r := by rw [h.locate_eq hw, hr]
    obtain rfl : r = r' := Option.some.inj (hloc.symm.trans hr')
    rcases hkind with hkind | hkind
    · have hdir : t1.isDir r = true := by rw [h.isDir, Tree.isDir, hn, Option.any_some, hkind]
      rw [Tree.isDir, hnone] at hdir
      cases hdir
    · have hlink : t1.isLink r = true := by rw [h.isLink, Tree.isLink, hn, Option.any_some, hkind]
      rw [Tree.isLink, hnone] at hlink
      cases hlink
  · rfl

theorem isDir_of_createFile {stamp : Stamp} {t' : Tree} (hf : w.follow t temp = some qt) (hc : createFile w stamp temp t = some t') :
    t.isDir qt = false := by
  obtain ⟨t1, ho, -⟩ := Option.bind_eq_some_iff.1 hc
  rw [Bool.eq_false_iff]
  intro hdir
  obtain ⟨n, hn, hd⟩ := Tree.isDir_iff.1 hdir
  obtain ⟨data, mode, mtime, rfl⟩ := file_of_openCreate hf ho hn
  cases hd

/-- However a download ends, it has touched its temporary and the path. -/
theorem download_touches (hw : w.Real) (hq : w.locate t rel = some q) (hqlink : t.isLink q = false)
    (ht : w.locate t (atomicTempPath os.pid rel) = some qt) (hlink : t.isLink qt = false) (hne : qt ≠ q)
    (hdirs : ∀ d ∈ ancestors rel, createDir w.toLinks os.stamp.dirMode t d = some t) :
    Touches (fun r => r = q ∨ r = qt) t (downloadRegular w os c rel m t.client).2.disk.tree := by
  have hdir : ∀ d ∈ ancestors rel, ∀ t1 t2, Touches (fun r => r = q ∨ r = qt) t t1 →
      createDir w.toLinks os.stamp.dirMode t1 d = some t2 → Touches (fun r => r = q ∨ r = qt) t t2 := fun d hd t1 t2 h1 hc => by
    rw [createDir_touched h1 hw (hdirs d hd) hc]
    exact h1
  have hstart : Touches (fun r => r = q ∨ r = qt) t ((⟨t, 0⟩ : Machine).run os
      (createDirAll w os.stamp (ancestors rel) ++ [createFile w os.stamp (atomicTempPath os.pid rel)])).2.tree :=
    run_touches .refl fun call hcall t1 t2 h1 hc => by
      rcases List.mem_append.1 hcall with hcall | hcall
      · obtain ⟨d, hd, rfl⟩ := createDirAll_mem hcall
        exact hdir d hd t1 t2 h1 hc
      · rw [List.mem_singleton.1 hcall] at hc
        exact h1.trans (touches_createFile hw (follow_touched h1 hw ht hlink) (.inr rfl) hc)
  unfold downloadRegular
  dsimp only [Tree.client]
  split
  · rename_i disk hrun
    rwa [hrun] at hstart
  · rename_i disk hrun
    rw [hrun] at hstart
    -- The temporary is a file now, so that no directory is moved.
    obtain ⟨t1, hmade, hcreate⟩ := foldlM_append_iff.1 (run_ok hrun)
    obtain ⟨t2, hcreate, -⟩ := foldlM_cons_iff.1 hcreate
    have ht1 : Touches (fun r => r = q ∨ r = qt) t t1 :=
      foldlM_inv (fun call hcall t1 t2 h1 hc => by
        obtain ⟨d, hd, rfl⟩ := createDirAll_mem hcall
        exact hdir d hd t1 t2 h1 hc) .refl hmade
    have hqt : t.isDir qt = false := by
      rw [← ht1.isDir]
      exact isDir_of_createFile (follow_touched ht1 hw ht hlink) hcreate
    have hchunks : Touches (fun r => r = q ∨ r = qt) t (downloadChunks w os c (atomicTempPath os.pid rel)
        (c.file.contents.length + 1) 0 ⟨disk, ⟨[], 0⟩⟩).2.disk.tree := chunks_touch hw ht hlink (.inr rfl) hstart
    split
    · rename_i s hres
      rwa [hres] at hchunks
    · rename_i s hres
      rw [hres] at hchunks
      refine run_touches hchunks fun call hcall t1 t2 h1 hc => ?_
      rcases List.mem_cons.1 hcall with rfl | hcall
      · obtain ⟨qt', hqt', hmv⟩ := Option.bind_eq_some_iff.1 hc
        obtain ⟨q', hq', hmv⟩ := Option.bind_eq_some_iff.1 hmv
        rw [h1.locate_eq hw] at hqt' hq'
        obtain rfl : qt = qt' := Option.some.inj (ht.symm.trans hqt')
        obtain rfl : q = q' := Option.some.inj (hq.symm.trans hq')
        obtain ⟨n, hn, -⟩ := Tree.replaceable_of_rename hne hmv
        have hfile : n.isDir = false := by
          have hd := h1.isDir qt
          rwa [hqt, Tree.isDir, hn, Option.any_some] at hd
        have hnl : n.isLink = false := by
          have hl := h1.isLink qt
          rwa [hlink, Tree.isLink, hn, Option.any_some] at hl
        exact h1.trans (touches_rename (.inr rfl) (.inl rfl) hne hn hfile hnl (by rw [h1.isLink, hqlink]) hmv)
      · rcases List.mem_append.1 hcall with hcall | hcall
        · exact h1.metadata (metaOnly_of_mem_chmodCalls hcall hc)
        · exact h1.metadata (metaOnly_of_mem_utimeCalls hcall hc)

end Download

/-! ## The local file is aside -/

section Places
variable {w : Walks} {t : Tree} {rel q : String}

theorem place_self (hw : w.Level) (hq : w.locate t rel = some q) : withFileName q (fileName rel) = q := by
  have hplace := hw.names t rel q (fileName rel) hq (fileName_noSlash rel)
  rw [withFileName_fileName, hq] at hplace
  exact (Option.some.inj hplace).symm

theorem places_apart (hw : w.Level) (hq : w.locate t rel = some q) {a b : String} (ha : '/' ∉ a.toList) (hb : '/' ∉ b.toList)
    (hne : a ≠ b) : matching (withFileName q a) (withFileName q b) = false := by
  have hbelow := hw.beside' t rel a b _ _ ha hb hne (hw.names t rel q a hq ha) (hw.names t rel q b hq hb)
  rw [matching, hbelow, Bool.or_false, decide_eq_false]
  exact fun h => hne (withFileName_inj h.symm)

/-- A name other than that of the path. -/
theorem place_ne (hw : w.Level) (hq : w.locate t rel = some q) {a : String} (hne : a ≠ fileName rel) : withFileName q a ≠ q := by
  intro h
  exact hne (withFileName_inj (h.trans (place_self hw hq).symm))

end Places

/-- The local file is at the name for the swap, and its copy is there. -/
structure Aside (w : Walks) (rel q : String) (n : Node) (q0 : String) (data : Bytes) (t : Tree) : Prop where
  path : w.locate t rel = some q
  free : t.node q = none
  swap : (t.node (withFileName q (swapName rel))).map Node.bare = some n.bare
  way : w.locate (t.drop (withFileName q (swapName rel))) rel = some q
  copy : ∃ mode mtime, t.node (withFileName q (localName rel)) = some (.file data mode mtime)
  led : q0 ≠ q → ∃ mode mtime, t.node q0 = some (.file data mode mtime)

section Kept
variable {w : Walks} {os : ConflictOs} {c : ReadRoute} {rel q q0 : String} {n : Node} {m : EntryMeta} {data : Bytes} {mode : Nat}
  {mtime : Int} {t t1 t2 t' : Tree}

theorem localKept_iff (hloc : w.locate t' rel = some q) (hself : q0 = q → n = .file data mode mtime)
    (hother : q0 ≠ q → ∃ mode mtime, t'.node q0 = some (.file data mode mtime)) :
    LocalKept w rel n q0 data t' ↔ (t'.node q).map Node.bare = some n.bare := by
  rw [LocalKept, Links.lookup, hloc, Option.bind_some, and_iff_left_iff_imp]
  intro hbare
  by_cases h : q0 = q
  · rw [h]
    rw [hself h] at hbare
    exact Tree.file_of_bare hbare
  · exact hother h

/-- What has been copied is moved aside. -/
theorem aside_of_moveEntry (hw : w.Level) (hq : w.locate t rel = some q) (hn : t.node q = some n) (hfile : n.isDir = false)
    (hD : t.node q0 = some (.file data mode mtime)) (hapart : ∀ a ∈ [localName rel, swapName rel], withFileName q a ≠ q0)
    (hway : t.isLink q = true ∨ t.isLink (withFileName q (swapName rel)) = true →
      w.locate ((t.drop (withFileName q (swapName rel))).drop q) rel = some q)
    (ht : Touches (· = withFileName q (localName rel)) t t1)
    (hcopy : ∃ mode mtime, t1.node (withFileName q (localName rel)) = some (.file data mode mtime))
    (hmv : moveEntry w rel (conflictSwap rel) t1 = some t2) :
    Aside w rel q n q0 data t2 ∧ ∀ r, r ≠ q → r ≠ withFileName q (swapName rel) →
      t2.isLink r = t.isLink r ∧ t2.isDir r = t.isDir r := by
  have hlocal : withFileName q (localName rel) ≠ q := place_ne hw hq localName_ne
  have hlocalSwap : withFileName q (localName rel) ≠ withFileName q (swapName rel) := fun h =>
    ne_of_last localName_last swapName_last (by decide) (withFileName_inj h)
  have hne : q ≠ withFileName q (swapName rel) := (place_ne hw hq swapName_ne).symm
  have hq1 : w.locate t1 rel = some q := by rw [ht.locate_eq hw.toReal, hq]
  have hdir : t.isDir q = false := by rw [Tree.isDir, hn, Option.any_some, hfile]
  obtain ⟨qa, hqa, hmv⟩ := Option.bind_eq_some_iff.1 hmv
  obtain ⟨qb, hqb, hmv⟩ := Option.bind_eq_some_iff.1 hmv
  obtain rfl : q = qa := Option.some.inj (hq1.symm.trans hqa)
  obtain rfl : withFileName q (swapName rel) = qb :=
    Option.some.inj ((hw.names t1 rel q _ hq1 swapName_noSlash).symm.trans hqb)
  obtain ⟨n1, hn1, hbare⟩ : ∃ n1, t1.node q = some n1 ∧ n1.bare = n.bare :=
    Option.map_eq_some_iff.1 (by rw [ht.bare hlocal.symm, hn, Option.map_some])
  have hfile1 : n1.isDir = false := by
    have hd := ht.isDir q
    rwa [hdir, Tree.isDir, hn1, Option.any_some] at hd
  have hnode := move_file hne hmv hn1 hfile1
  have hdir1 := isDir_replaced hne hn1 hfile1 hmv
  have hdirs : t.isDir (withFileName q (swapName rel)) = false := by rw [← ht.isDir, hdir1]
  -- Neither entry is on the way, by the hypothesis if one of them is a link.
  have hdropped : w.locate ((t.drop (withFileName q (swapName rel))).drop q) rel = some q := by
    by_cases hlink : t.isLink q = true ∨ t.isLink (withFileName q (swapName rel)) = true
    · exact hway hlink
    · simp only [not_or, Bool.not_eq_true] at hlink
      have hd := Tree.node_drop_of_not_isDir hdirs q
      rw [if_neg hne] at hd
      rw [locate_drop_eq hw.toReal (by rw [Tree.isLink, hd]; exact hlink.1) (by rw [Tree.isDir, hd]; exact hdir),
        locate_drop_eq hw.toReal hlink.2 hdirs, hq]
  have hdropped1 : w.locate ((t1.drop (withFileName q (swapName rel))).drop q) rel = some q := by
    have hd := Tree.node_drop_of_not_isDir hdirs q
    rw [if_neg hne] at hd
    rw [((ht.drop hlocalSwap.symm hdirs).drop hlocal.symm (by rw [Tree.isDir, hd]; exact hdir)).locate_eq hw.toReal, hdropped]
  obtain ⟨mode', mtime', hcopy⟩ := hcopy
  have hpath : w.locate t2 rel = some q := by
    refine locate_moved hw hne hn1 hfile1 hmv hdropped1 (localName_noSlash (p := rel)) ?_
    rw [node_dropped (by rw [ht.isDir, hdir]) hdir1, if_neg hlocal, if_neg hlocalSwap, hcopy]
    exact Option.some_ne_none _
  refine ⟨⟨hpath, ?_, ?_, ?_, ⟨mode', mtime', ?_⟩, fun h0 => ?_⟩, fun r hr hrs => ?_⟩
  · rw [hnode, if_neg hne, if_pos rfl]
  · rw [hnode, if_pos rfl, Option.map_some, hbare]
  · rw [drop_moved hne hn1 hfile1 hmv, hdropped1]
  · rw [hnode, if_neg hlocalSwap, if_neg hlocal, hcopy]
  · have hl := hapart (localName rel) (by simp)
    have hs := hapart (swapName rel) (by simp)
    obtain ⟨mode1, mtime1, hD1⟩ := file_touched ht hl.symm hD
    exact ⟨mode1, mtime1, by rw [hnode, if_neg hs.symm, if_neg h0, hD1]⟩
  · have hsame := hnode r
    rw [if_neg hrs, if_neg hr] at hsame
    rw [← ht.isLink, ← ht.isDir, Tree.isLink, Tree.isDir, hsame]
    exact ⟨rfl, rfl⟩

/-- Where files have been touched elsewhere, the local file is moved back. -/
theorem restored (hw : w.Level) {P : String → Prop} (ha : Aside w rel q n q0 data t) (ht : Touches P t t1) (hfile : n.isDir = false)
    (hlocal : ¬ P (withFileName q (localName rel))) (hswap : ¬ P (withFileName q (swapName rel))) :
    ∃ t2, moveEntry w (conflictSwap rel) rel t1 = some t2 ∧ w.locate t2 rel = some q ∧
      (t2.node q).map Node.bare = some n.bare ∧
      ∀ r, r ≠ q → r ≠ withFileName q (swapName rel) → t2.node r = t1.node r := by
  have hne : withFileName q (swapName rel) ≠ q := place_ne hw ha.path swapName_ne
  have hlocalq : withFileName q (localName rel) ≠ q := place_ne hw ha.path localName_ne
  have hlocalSwap : withFileName q (localName rel) ≠ withFileName q (swapName rel) := fun h =>
    ne_of_last localName_last swapName_last (by decide) (withFileName_inj h)
  have hq1 : w.locate t1 rel = some q := by rw [ht.locate_eq hw.toReal, ha.path]
  obtain ⟨n1, hn1, hbare⟩ := Option.map_eq_some_iff.1 ((ht.bare hswap).trans ha.swap)
  obtain ⟨n0, hn0, hbare0⟩ := Option.map_eq_some_iff.1 ha.swap
  have hbareDir : ∀ {a b : Node}, a.bare = b.bare → a.isDir = b.isDir := fun {a b} h => by
    cases a <;> cases b <;> first | rfl | cases h
  have hfile1 : n1.isDir = false := (hbareDir hbare).trans hfile
  have hdirq : t1.isDir q = false := by rw [ht.isDir, Tree.isDir, ha.free]; rfl
  have hlinkq : t1.isLink q = false := by rw [ht.isLink, Tree.isLink, ha.free]; rfl
  have hdirs : t1.isDir (withFileName q (swapName rel)) = false := by rw [Tree.isDir, hn1, Option.any_some, hfile1]
  have habove : ∀ d ∈ ancestors q, t1.isDir d = true := by
    intro d hd
    rw [← ancestors_withFileName (p := q) (swapName_noSlash (p := rel))] at hd
    exact Tree.isDir_of_below (mem_ancestors_iff.1 hd) (by rw [hn1]; exact Option.some_ne_none _)
  have hmatch : matching (withFileName q (swapName rel)) q = false := by
    have := places_apart hw ha.path swapName_noSlash (fileName_noSlash rel) swapName_ne
    rwa [place_self hw ha.path] at this
  obtain ⟨t2, hmv⟩ := rename_isSome hn1 hfile1 hdirq habove hmatch
  have hnode := move_file hne hmv hn1 hfile1
  have hdropped : w.locate ((t1.drop q).drop (withFileName q (swapName rel))) rel = some q := by
    have hswapped : (t1.drop q).drop (withFileName q (swapName rel)) = (t1.drop (withFileName q (swapName rel))).drop q := by
      refine Tree.ext_node fun r => ?_
      rw [node_dropped hdirs hdirq, node_dropped hdirq hdirs]
      split <;> split <;> rfl
    have hd := Tree.node_drop_of_not_isDir hdirs q
    rw [if_neg hne.symm] at hd
    rw [hswapped, locate_drop_eq hw.toReal (by rw [Tree.isLink, hd]; exact hlinkq) (by rw [Tree.isDir, hd]; exact hdirq),
      (ht.drop hswap (by rw [← ht.isDir, hdirs])).locate_eq hw.toReal, ha.way]
  refine ⟨t2, ?_, ?_, ?_, fun r hr hrs => by rw [hnode, if_neg hr, if_neg hrs]⟩
  · rw [moveEntry, conflictSwap, hw.names t1 rel q _ hq1 swapName_noSlash, hq1]
    exact hmv
  · refine locate_moved hw hne hn1 hfile1 hmv hdropped (localName_noSlash (p := rel)) ?_
    obtain ⟨mode', mtime', hcopy⟩ := ha.copy
    obtain ⟨mode1, mtime1, hcopy1⟩ := file_touched ht hlocal hcopy
    rw [node_dropped hdirs hdirq, if_neg hlocalSwap, if_neg hlocalq, hcopy1]
    exact Option.some_ne_none _
  · rw [hnode, if_pos rfl, Option.map_some, hbare]

/-- What the renames at the end make of the download. -/
def afterDownload (w : Walks) (os : ConflictOs) (rel : String) (result : Bool × Client) : Bool × Client :=
  match if result.1 then renameIf w os.keeps rel (remoteConflict rel) result.2.disk.tree else some result.2.disk.tree with
  | none => (false, result.2)
  | some t =>
    match renameIf w os.restores (conflictSwap rel) rel t with
    | none => (false, result.2.withTree t)
    | some t => (result.1, result.2.withTree t)

theorem localKept_touched (hw : w.Level) {P : String → Prop} (ha : Aside w rel q n q0 data t) (hself : q0 = q → n = .file data mode mtime)
    (ht : Touches P t t1) (hq0 : q0 ≠ q → ¬ P q0) :
    LocalKept w rel n q0 data t1 ↔ (w.lookup t1 rel).map Node.bare = some n.bare := by
  have hloc : w.locate t1 rel = some q := by rw [ht.locate_eq hw.toReal, ha.path]
  rw [localKept_iff hloc hself, Links.lookup, hloc, Option.bind_some]
  intro hne
  obtain ⟨mode', mtime', hn⟩ := ha.led hne
  exact file_touched ht (hq0 hne) hn

/-- The downloaded file is moved away if no directory is in its place. -/
theorem keep_cases (hw : w.Level) (hq : w.locate t rel = some q) (hn : t.node q = some (.file data mode mtime))
    (hlink : t.isLink (withFileName q (remoteName rel)) = false) :
    (t.isDir (withFileName q (remoteName rel)) = true ∧ moveEntry w rel (remoteConflict rel) t = none) ∨
      (t.isDir (withFileName q (remoteName rel)) = false ∧ ∃ t1, moveEntry w rel (remoteConflict rel) t = some t1 ∧
        Touches (fun r => r = q ∨ r = withFileName q (remoteName rel)) t t1 ∧ t1.node q = none ∧
        t1.node (withFileName q (remoteName rel)) = some (.file data mode mtime)) := by
  have hne : q ≠ withFileName q (remoteName rel) := (place_ne hw hq remoteName_ne).symm
  have hmove : moveEntry w rel (remoteConflict rel) t = t.rename q (withFileName q (remoteName rel)) := by
    rw [moveEntry, remoteConflict, hq, Option.bind_some, hw.names t rel q _ hq remoteName_noSlash, Option.bind_some]
  rw [hmove]
  cases hdir : t.isDir (withFileName q (remoteName rel)) with
  | true =>
    refine .inl ⟨rfl, ?_⟩
    by_contra hmoved
    obtain ⟨t1, hmv⟩ := Option.ne_none_iff_exists'.1 hmoved
    rw [isDir_replaced hne hn rfl hmv] at hdir
    cases hdir
  | false =>
    have habove : ∀ d ∈ ancestors (withFileName q (remoteName rel)), t.isDir d = true := by
      intro d hd
      rw [ancestors_withFileName remoteName_noSlash] at hd
      exact Tree.isDir_of_below (mem_ancestors_iff.1 hd) (by rw [hn]; exact Option.some_ne_none _)
    have hmatch : matching q (withFileName q (remoteName rel)) = false := by
      have := places_apart hw hq (fileName_noSlash rel) remoteName_noSlash remoteName_ne.symm
      rwa [place_self hw hq] at this
    obtain ⟨t1, hmv⟩ := rename_isSome hn rfl hdir habove hmatch
    have hnode := move_file hne hmv hn rfl
    exact .inr ⟨rfl, t1, hmv, touches_rename (.inl rfl) (.inr rfl) hne hn rfl rfl hlink hmv,
      by rw [hnode, if_neg hne, if_pos rfl], by rw [hnode, if_pos rfl]⟩

/-- The local file is put back, whatever has become of the path, of the temporary and of the remote copy. -/
theorem putBack_kept (hw : w.Level) {pid : Nat} (ha : Aside w rel q n q0 data t) (hfile : n.isDir = false)
    (hself : q0 = q → n = .file data mode mtime)
    (hq0 : ∀ a ∈ [remoteName rel, swapName rel, tempName pid rel], withFileName q a ≠ q0) {P : String → Prop} {t1 : Tree}
    (h1 : Touches P t t1)
    (hP : ∀ r, P r → r = q ∨ r = withFileName q (tempName pid rel) ∨ r = withFileName q (remoteName rel)) :
    ∃ t2, moveEntry w (conflictSwap rel) rel t1 = some t2 ∧ w.locate t2 rel = some q ∧ LocalKept w rel n q0 data t2 ∧
      Holds w (localConflict rel) data t2 ∧
      t2.node (withFileName q (remoteName rel)) = t1.node (withFileName q (remoteName rel)) := by
  have hswapq : withFileName q (swapName rel) ≠ q := place_ne hw ha.path swapName_ne
  have hlocalq : withFileName q (localName rel) ≠ q := place_ne hw ha.path localName_ne
  have hremoteq : withFileName q (remoteName rel) ≠ q := place_ne hw ha.path remoteName_ne
  have hplaces : ∀ {a b : String}, a ≠ b → withFileName q a ≠ withFileName q b := fun h h' => h (withFileName_inj h')
  have hlocalTemp : withFileName q (localName rel) ≠ withFileName q (tempName pid rel) :=
    hplaces (ne_tempName localName_last (by decide))
  have hswapTemp : withFileName q (swapName rel) ≠ withFileName q (tempName pid rel) :=
    hplaces (ne_tempName swapName_last (by decide))
  have hlocalRemote : withFileName q (localName rel) ≠ withFileName q (remoteName rel) :=
    hplaces (ne_of_last localName_last remoteName_last (by decide))
  have hswapRemote : withFileName q (swapName rel) ≠ withFileName q (remoteName rel) :=
    hplaces (ne_of_last swapName_last remoteName_last (by decide))
  have hlocalSwap : withFileName q (localName rel) ≠ withFileName q (swapName rel) :=
    hplaces (ne_of_last localName_last swapName_last (by decide))
  have hnot : ∀ r, r ≠ q → r ≠ withFileName q (tempName pid rel) → r ≠ withFileName q (remoteName rel) → ¬ P r :=
    fun r hr htemp hremote hPr => (hP r hPr).elim hr fun h => h.elim htemp hremote
  obtain ⟨t2, hmv, hloc, hnode, hsame⟩ := restored hw ha h1 hfile (hnot _ hlocalq hlocalTemp hlocalRemote)
    (hnot _ hswapq hswapTemp hswapRemote)
  refine ⟨t2, hmv, hloc, (localKept_iff hloc hself fun hne => ?_).2 hnode, ?_, hsame _ hremoteq hswapRemote.symm⟩
  · obtain ⟨mode', mtime', hn⟩ := ha.led hne
    rw [hsame q0 hne (hq0 _ (by simp)).symm]
    exact file_touched h1 (hnot q0 hne (hq0 _ (by simp)).symm (hq0 _ (by simp)).symm) hn
  · obtain ⟨mode', mtime', hn⟩ := ha.copy
    obtain ⟨mode1, mtime1, hn1⟩ := file_touched h1 (hnot _ hlocalq hlocalTemp hlocalRemote) hn
    exact ⟨_, mode1, mtime1, hw.names t2 rel q _ hloc localName_noSlash, by rw [hsame _ hlocalq hlocalSwap, hn1]⟩

/-- The local file is aside, and a download has ended. -/
theorem afterDownload_iff (hw : w.Level) {pid : Nat} (ha : Aside w rel q n q0 data t) (hfile : n.isDir = false)
    (hself : q0 = q → n = .file data mode mtime)
    (hq0 : ∀ a ∈ [remoteName rel, swapName rel, tempName pid rel], withFileName q a ≠ q0)
    (hlink : t.isLink (withFileName q (remoteName rel)) = false) {got : Bool × Client}
    (ht : Touches (fun r => r = q ∨ r = withFileName q (tempName pid rel)) t got.2.disk.tree)
    (hgot : got.1 = true → ∃ k ≤ c.file.contents.length, Holds w rel (c.file.contents.take k) got.2.disk.tree ∧
      (k = c.file.contents.length ↔ ShortAtEnd c.file got.2.remote.state)) :
    (LocalKept w rel n q0 data (afterDownload w os rel got).2.disk.tree ∧
        ((afterDownload w os rel got).1 = true → CopiesHold w c rel data (afterDownload w os rel got).2.disk.tree)) ↔
      if got.1 = true ∧ os.keeps = true ∧ t.isDir (withFileName q (remoteName rel)) = false then
        os.restores = true ∧ ShortAtEnd c.file got.2.remote.state
      else (got.1 = false ∧ os.restores = true) ∨ (w.lookup got.2.disk.tree rel).map Node.bare = some n.bare := by
  have hkept := localKept_touched hw ha hself ht fun hne => not_or.2 ⟨hne, (hq0 _ (by simp)).symm⟩
  obtain ⟨ok, s⟩ := got
  dsimp only at ht hgot hkept ⊢
  cases ok with
  | false =>
    rw [if_neg (by simp), afterDownload]
    simp only [Bool.false_eq_true, if_false, true_and]
    cases hr : os.restores with
    | false =>
      simp only [renameIf, Bool.false_eq_true, if_false, false_or, false_implies, and_true]
      exact hkept
    | true =>
      obtain ⟨t2, hmv, -, hk, -⟩ := putBack_kept hw ha hfile hself hq0 ht fun r hr => hr.imp_right .inl
      simp only [renameIf, if_true, hmv, true_or, iff_true, Bool.false_eq_true, false_implies, and_true]
      exact hk
  | true =>
    obtain ⟨k, hk, ⟨q', mode', mtime', hq', hn'⟩, hiff⟩ := hgot rfl
    have hq1 : w.locate s.disk.tree rel = some q := by rw [ht.locate_eq hw.toReal, ha.path]
    obtain rfl : q = q' := Option.some.inj (hq1.symm.trans hq')
    have hstays : ∀ {t1}, t1 = s.disk.tree → ((LocalKept w rel n q0 data t1 ∧ (false = true → CopiesHold w c rel data t1)) ↔
        (true = false ∧ os.restores = true) ∨ (w.lookup s.disk.tree rel).map Node.bare = some n.bare) := by
      rintro t1 rfl
      simp only [Bool.true_eq_false, false_and, false_or, Bool.false_eq_true, false_implies, and_true]
      exact hkept
    unfold afterDownload
    dsimp only
    rw [if_pos rfl, ← ht.isDir]
    cases hkeeps : os.keeps with
    | false =>
      rw [if_neg (by simp)]
      exact hstays rfl
    | true =>
      rw [renameIf, if_pos rfl]
      rcases keep_cases hw hq1 hn' (by rw [ht.isLink, hlink]) with ⟨hdir, hmv⟩ | ⟨hdir, t4, hmv, ht4, hfree, hnew⟩
      · rw [hmv, if_neg (by simp [hdir])]
        exact hstays rfl
      · rw [hmv, if_pos ⟨rfl, rfl, hdir⟩]
        dsimp only
        have htouched : Touches (fun r => r = q ∨ r = withFileName q (tempName pid rel) ∨ r = withFileName q (remoteName rel)) t t4 :=
          (ht.mono fun r hr => hr.imp_right .inl).trans (ht4.mono fun r hr => hr.imp_right .inr)
        cases hr : os.restores with
        | false =>
          refine iff_of_false (fun h => ?_) (by simp)
          -- The local file stays aside.
          have hloc : w.locate t4 rel = some q := by rw [ht4.locate_eq hw.toReal, hq1]
          have hbare := h.1.1
          rw [Links.lookup] at hbare
          simp only [renameIf, Bool.false_eq_true, if_false, Client.withTree, hloc, Option.bind_some, hfree] at hbare
          cases hbare
        | true =>
          obtain ⟨t2, hmv, hloc, hk2, hlocal, hremote⟩ := putBack_kept hw ha hfile hself hq0 htouched fun r hr => hr
          simp only [renameIf, if_true, hmv, Client.withTree, hk2, true_and, forall_const]
          have hheld : Holds w (remoteConflict rel) (c.file.contents.take k) t2 :=
            ⟨_, mode', mtime', hw.names t2 rel q _ hloc remoteName_noSlash, hremote.trans hnew⟩
          rw [← hiff, CopiesHold, and_iff_right hlocal]
          constructor
          · intro hall
            have hlen := congrArg List.length (hheld.inj hall)
            rwa [List.length_take_of_le hk] at hlen
          · rintro rfl
            rwa [List.take_length] at hheld

/-- The local file is aside, and the remote one is downloaded. -/
theorem download_iff (hw : w.Level) (hq : w.locate t rel = some q) (ha : Aside w rel q n q0 data t2) (hfile : n.isDir = false)
    (hself : q0 = q → n = .file data mode mtime)
    (hapart : ∀ a ∈ [localName rel, remoteName rel, swapName rel, tempName os.download.pid rel], withFileName q a ≠ q0)
    (hnoLink : ∀ a ∈ [localName rel, remoteName rel, tempName os.download.pid rel], t.isLink (withFileName q a) = false)
    (hsame : ∀ r, r ≠ q → r ≠ withFileName q (swapName rel) → t2.isLink r = t.isLink r ∧ t2.isDir r = t.isDir r) :
    let got := downloadRegular w os.download c rel m t2.client
    (LocalKept w rel n q0 data (afterDownload w os rel got).2.disk.tree ∧
        ((afterDownload w os rel got).1 = true → CopiesHold w c rel data (afterDownload w os rel got).2.disk.tree)) ↔
      if got.1 = true ∧ os.keeps = true ∧ (w.lookup t (remoteConflict rel)).any Node.isDir = false then
        os.restores = true ∧ ShortAtEnd c.file got.2.remote.state
      else (got.1 = false ∧ os.restores = true) ∨ (w.lookup got.2.disk.tree rel).map Node.bare = some n.bare := by
  have hremoteSwap : withFileName q (remoteName rel) ≠ withFileName q (swapName rel) := fun h =>
    ne_of_last remoteName_last swapName_last (by decide) (withFileName_inj h)
  have htempSwap : withFileName q (tempName os.download.pid rel) ≠ withFileName q (swapName rel) := fun h =>
    ne_tempName swapName_last (by decide) (withFileName_inj h).symm
  have htempq : withFileName q (tempName os.download.pid rel) ≠ q := place_ne hw hq tempName_spec.2
  have hremote := hsame _ (place_ne hw hq remoteName_ne) hremoteSwap
  have hdir : (w.lookup t (remoteConflict rel)).any Node.isDir = t2.isDir (withFileName q (remoteName rel)) := by
    rw [hremote.2, Links.lookup, remoteConflict, hw.names t rel q _ hq remoteName_noSlash]
    rfl
  have hqlink : t2.isLink q = false := by
    rw [Tree.isLink, ha.free]
    rfl
  have hplace : w.locate t2 (atomicTempPath os.download.pid rel) = some (withFileName q (tempName os.download.pid rel)) :=
    hw.names t2 rel q _ ha.path tempName_spec.1
  have hlinkTemp : t2.isLink (withFileName q (tempName os.download.pid rel)) = false := by
    rw [(hsame _ htempq htempSwap).1]
    exact hnoLink _ (by simp)
  have hready : TempReady w rel (atomicTempPath os.download.pid rel) t2 := by
    refine ⟨fun x hx => ?_, fun x hx hl => ?_⟩
    · rw [← Option.some.inj (hplace.symm.trans hx)]
      exact hlinkTemp
    · rw [← Option.some.inj (ha.path.symm.trans hx), hqlink] at hl
      cases hl
  have hdirs : ∀ d ∈ ancestors rel, createDir w.toLinks os.download.stamp.dirMode t2 d = some t2 := by
    obtain ⟨mode', mtime', hcopy⟩ := ha.copy
    intro d hd
    have hd' : d ∈ ancestors (withFileName rel (localName rel)) := by rwa [ancestors_withFileName localName_noSlash]
    refine hw.ways t2 _ _ _ (hw.names t2 rel q _ ha.path localName_noSlash) ?_ d hd'
    rw [hcopy]
    exact Option.some_ne_none _
  have hq0 : ∀ a ∈ [remoteName rel, swapName rel, tempName os.download.pid rel], withFileName q a ≠ q0 :=
    fun a hmem => hapart a (List.mem_cons_of_mem _ hmem)
  have hlinkRemote : t2.isLink (withFileName q (remoteName rel)) = false := by
    rw [hremote.1]
    exact hnoLink _ (by simp)
  have htouches := download_touches (c := c) (m := m) hw.toReal ha.path hqlink hplace hlinkTemp htempq hdirs
  have hspec := downloadRegular_spec (c := c) (m := m) hw.toFresh hready
  dsimp only
  rw [hdir]
  generalize downloadRegular w os.download c rel m t2.client = got at htouches hspec ⊢
  exact afterDownload_iff hw ha hfile hself hq0 hlinkRemote htouches hspec

/-- What is at the path is no directory. -/
theorem isDir_of_follow (hq : w.locate t rel = some q) (hn : t.node q = some n) (hf : w.follow t rel = some q0)
    (hself : q0 = q → n = .file data mode mtime) : n.isDir = false := by
  cases n with
  | dir mode =>
    have hlead := w.follow_eq t rel q hq (by rw [Tree.isLink, hn]; rfl)
    cases hself (Option.some.inj (hf.symm.trans hlead))
  | _ => rfl

theorem ConflictReady.apart {pid : Nat} (hr : ConflictReady w pid rel t) (hw : w.Level) (hq : w.locate t rel = some q)
    (hf : w.follow t rel = some q0) : ∀ a ∈ [localName rel, remoteName rel, swapName rel, tempName pid rel], withFileName q a ≠ q0 := by
  intro a ha h0
  obtain ⟨hslash, hne⟩ := names_spec a ha
  cases hlink : t.isLink q with
  | true =>
    refine hr.led q hq hlink a ha ?_
    rw [hf, hw.names t rel q a hq hslash, h0]
  | false =>
    have hlead := w.follow_eq t rel q hq hlink
    obtain rfl : q0 = q := Option.some.inj (hf.symm.trans hlead)
    exact place_ne hw hq hne h0

theorem ConflictReady.plain {pid : Nat} (hr : ConflictReady w pid rel t) (hw : w.Level) (hq : w.locate t rel = some q) :
    ∀ a ∈ [localName rel, remoteName rel, tempName pid rel], t.isLink (withFileName q a) = false := by
  intro a ha
  exact hr.noLink a ha _ (hw.names t rel q a hq (names_spec a (written_subset ha)).1)

/-- What follows when the local file has been copied, and is moved aside. -/
theorem setAside_iff (hw : w.Level) (hr : ConflictReady w os.download.pid rel t) (hq : w.locate t rel = some q)
    (hn : t.node q = some n) (hf : w.follow t rel = some q0) (hD : t.node q0 = some (.file data mode mtime))
    (ht : Touches (· = withFileName q (localName rel)) t t1)
    (hcopy : ∃ mode mtime, t1.node (withFileName q (localName rel)) = some (.file data mode mtime))
    (hmv : renameIf w os.asides rel (conflictSwap rel) t1 = some t2) :
    let got := downloadRegular w os.download c rel m t2.client
    (LocalKept w rel n q0 data (afterDownload w os rel got).2.disk.tree ∧
        ((afterDownload w os rel got).1 = true → CopiesHold w c rel data (afterDownload w os rel got).2.disk.tree)) ↔
      if got.1 = true ∧ os.keeps = true ∧ (w.lookup t (remoteConflict rel)).any Node.isDir = false then
        os.restores = true ∧ ShortAtEnd c.file got.2.remote.state
      else (got.1 = false ∧ os.restores = true) ∨ (w.lookup got.2.disk.tree rel).map Node.bare = some n.bare := by
  have hself : q0 = q → n = .file data mode mtime := fun h => Option.some.inj ((h ▸ hn).symm.trans hD)
  have hfile := isDir_of_follow hq hn hf hself
  have hapart := hr.apart hw hq hf
  have hmoved : moveEntry w rel (conflictSwap rel) t1 = some t2 := by
    unfold renameIf at hmv
    split at hmv
    · exact hmv
    · cases hmv
  have hapart2 : ∀ a ∈ [localName rel, swapName rel], withFileName q a ≠ q0 := fun a ha => hapart a (by
    rcases List.mem_cons.1 ha with rfl | ha
    · exact List.mem_cons_self
    · rw [List.mem_singleton.1 ha]
      simp)
  obtain ⟨ha, hsame⟩ := aside_of_moveEntry hw hq hn hfile hD hapart2
    (hr.way q _ hq (hw.names t rel q _ hq swapName_noSlash)) ht hcopy hmoved
  exact download_iff hw hq ha hfile hself hapart (hr.plain hw hq) hsame

/-- The local file is at its path in the end, and with `Ok` the copies of a remote file have
the contents, if and only if the renames after the download are made and no piece was short. -/
theorem conflict_copies_iff (hw : w.Level) (hr : ConflictReady w os.download.pid rel t) (hq : w.locate t rel = some q)
    (hn : t.node q = some n) (hf : w.follow t rel = some q0) (hD : t.node q0 = some (.file data mode mtime)) (remote : Snapshot) :
    (LocalKept w rel n q0 data (writeConflictArtifacts w os c rel remote t).2.disk.tree ∧
        ((writeConflictArtifacts w os c rel remote t).1 = true → ∀ m, remote[rel]? = some m → m.kind = .file →
          CopiesHold w c rel data (writeConflictArtifacts w os c rel remote t).2.disk.tree)) ↔
      ConflictSafe w os c rel remote t n data := by
  cases hu : os.unseen with
  | true =>
    simp only [writeConflictArtifacts, ConflictSafe, hu, if_true]
    have hlookup : (w.lookup t rel).map Node.bare = some n.bare := by rw [Links.lookup, hq, Option.bind_some, hn, Option.map_some]
    exact ⟨fun h => h.2 trivial, fun h => ⟨⟨hlookup, mode, mtime, hD⟩, fun _ => h⟩⟩
  | false =>
    have hself : q0 = q → n = .file data mode mtime := fun h => Option.some.inj ((h ▸ hn).symm.trans hD)
    have hapart := hr.apart hw hq hf (localName rel) (by simp)
    obtain ⟨htouch, hcopied⟩ := copy_spec hw.toReal os.download.stamp hf hD
      (hw.names t rel q _ hq (localName_noSlash (p := rel))) (hr.plain hw hq _ (by simp)) hapart.symm os.copies
    simp only [writeConflictArtifacts, ConflictSafe, setAside, hu, Bool.false_eq_true, if_false, hf, Option.bind_some, hD, localConflict]
    generalize runCalls os.copies t (copyCalls w os.download.stamp rel (withFileName rel (localName rel)) t) = run at htouch hcopied ⊢
    obtain ⟨t1, ok⟩ := run
    dsimp only at htouch hcopied ⊢
    have hkept : LocalKept w rel n q0 data t1 := by
      refine (localKept_iff (by rw [htouch.locate_eq hw.toReal, hq]) hself fun _ => file_touched htouch hapart.symm hD).2 ?_
      rw [htouch.bare (place_ne hw hq localName_ne).symm, hn, Option.map_some]
    cases ok with
    | false => exact iff_of_true ⟨hkept, fun h => by cases h⟩ fun _ _ _ _ h => by cases h
    | true =>
      dsimp only
      cases remote[rel]? with
      | none => exact iff_of_true ⟨hkept, fun _ _ h => by cases h⟩ fun _ h => by cases h
      | some m =>
        dsimp only
        by_cases hkind : m.kind = .file
        · rw [if_pos hkind]
          cases hset : renameIf w os.asides rel (conflictSwap rel) t1 with
          | none => exact iff_of_true ⟨hkept, fun h => by cases h⟩ fun _ _ _ _ h => by cases h
          | some t2 =>
            have hiff := setAside_iff (c := c) (m := m) hw hr hq hn hf hD htouch (hcopied rfl) hset
            constructor
            · rintro ⟨hk, hok⟩ m' hm' - t2' ht2'
              cases hm'
              cases ht2'
              have hok := fun h => hok h m rfl hkind
              dsimp only at hk hok hiff ⊢
              generalize downloadRegular w os.download c rel m t2.client = got at hiff hk hok ⊢
              exact hiff.1 ⟨hk, hok⟩
            · intro h
              have hsafe := h m rfl hkind t2 rfl
              dsimp only at hiff hsafe ⊢
              generalize downloadRegular w os.download c rel m t2.client = got at hiff hsafe ⊢
              obtain ⟨hk, hok⟩ := hiff.2 hsafe
              exact ⟨hk, fun h m' hm' _ => hok h⟩
        · rw [if_neg hkind]
          refine iff_of_true ⟨hkept, fun _ m' h hk => ?_⟩ fun m' h hk => ?_
          · cases h
            exact absurd hk hkind
          · cases h
            exact absurd hk hkind

end Kept

/-! ## A directory in the way -/

theorem textWalks_level : textWalks.Level where
  toSteady := textWalks_steady
  fresh := textWalks_fresh.fresh
  names _ _ _ _ hq _ := by
    cases hq
    rfl
  kept _ _ _ _ _ _ _ _ hq _ := hq

theorem textWalks_conflictReady {pid : Nat} {p : String} {t : Tree} (hp : t.isLink p = false)
    (hnames : ∀ a ∈ [localName p, remoteName p, swapName p, tempName pid p], t.isLink (withFileName p a) = false) :
    ConflictReady textWalks pid p t where
  noLink a ha q hq := by
    cases hq
    exact hnames a (written_subset ha)
  led q hq hlink := by
    cases hq
    rw [hp] at hlink
    cases hlink
  way q qs hq hqs hlink := by
    cases hq
    cases hqs
    rw [hp, conflictSwap, hnames (swapName p) (by simp)] at hlink
    rcases hlink with h | h <;> cases h

/-- A system that lets everything through. -/
def calmConflict : ConflictOs := ⟨false, none, true, calmClient, true, true⟩

def twoBytesSnapshot : Snapshot := .ofList [("a", twoBytesMeta)]

/-- The local file has one byte, the remote one two. -/
theorem conflict_copies_made :
    (writeConflictArtifacts textWalks calmConflict (servesTwo 2 fun _ => ⟨true, true, true⟩) "a" twoBytesSnapshot fileA).1 = true ∧
    LocalKept textWalks "a" (.file [1] 420 5) "a" [1]
      (writeConflictArtifacts textWalks calmConflict (servesTwo 2 fun _ => ⟨true, true, true⟩) "a" twoBytesSnapshot fileA).2.disk.tree ∧
    CopiesHold textWalks (servesTwo 2 fun _ => ⟨true, true, true⟩) "a" [1]
      (writeConflictArtifacts textWalks calmConflict (servesTwo 2 fun _ => ⟨true, true, true⟩) "a" twoBytesSnapshot fileA).2.disk.tree := by
  have hok : (writeConflictArtifacts textWalks calmConflict (servesTwo 2 fun _ => ⟨true, true, true⟩) "a" twoBytesSnapshot fileA).1 =
      true := by decide +kernel
  have hfile : fileA.node "a" = some (.file [1] 420 5) := by decide
  have hready : ConflictReady textWalks calmConflict.download.pid "a" fileA :=
    textWalks_conflictReady (by decide +kernel) (by decide +kernel)
  have hm : twoBytesSnapshot["a"]? = some twoBytesMeta := by decide +kernel
  have hsafe : ConflictSafe textWalks calmConflict (servesTwo 2 fun _ => ⟨true, true, true⟩) "a" twoBytesSnapshot fileA
      (.file [1] 420 5) [1] := by
    intro m hm' _
    obtain rfl : twoBytesMeta = m := Option.some.inj (hm.symm.trans hm')
    rw [if_neg (show ¬ calmConflict.unseen = true from Bool.false_ne_true)]
    intro t2 hset
    obtain rfl : (setAside textWalks calmConflict "a" fileA).getD fileA = t2 := by rw [hset, Option.getD_some]
    dsimp only
    rw [if_pos (by decide +kernel)]
    exact ⟨rfl, by unfold ShortAtEnd; decide +kernel⟩
  obtain ⟨hkept, hcopies⟩ := (conflict_copies_iff textWalks_level hready rfl hfile rfl hfile twoBytesSnapshot).2 hsafe
  exact ⟨hok, hkept, hcopies hok twoBytesMeta hm rfl⟩

/-- A directory has the name of the remote copy. -/
def blockedA : Tree := .build [("a", .file [1] 420 5), ("a.mobfs-conflict-remote", .dir 493)]

/-- The file that has been downloaded cannot be moved away, and stays at the path. -/
theorem directory_in_the_way :
    (writeConflictArtifacts textWalks calmConflict (servesTwo 2 fun _ => ⟨true, true, true⟩) "a" twoBytesSnapshot blockedA).1 = false ∧
    (∃ mode mtime, (writeConflictArtifacts textWalks calmConflict (servesTwo 2 fun _ => ⟨true, true, true⟩) "a" twoBytesSnapshot
      blockedA).2.disk.tree.node "a" = some (.file [2, 3] mode mtime)) ∧
    ¬ LocalKept textWalks "a" (.file [1] 420 5) "a" [1]
      (writeConflictArtifacts textWalks calmConflict (servesTwo 2 fun _ => ⟨true, true, true⟩) "a" twoBytesSnapshot blockedA).2.disk.tree := by
  have hnew : (writeConflictArtifacts textWalks calmConflict (servesTwo 2 fun _ => ⟨true, true, true⟩) "a" twoBytesSnapshot
      blockedA).2.disk.tree.node "a" = some (.file [2, 3] 420 5) := by decide +kernel
  refine ⟨by decide +kernel, ⟨420, 5, hnew⟩, fun hkept => ?_⟩
  obtain ⟨mode, mtime, hn⟩ := hkept.2
  rw [hnew] at hn
  cases hn

end Mobfs
