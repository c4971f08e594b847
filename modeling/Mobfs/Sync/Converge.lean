import Mobfs.Sync.Deletes
/-!
# When a command leaves nothing to do

After a command the base it saved is the snapshot of the remote. So the next plan
is empty exactly if both sides look the same, entry by entry with mode and time.
An upload gives the file the time of writing and a link gets a new time and mode
on either side, so `converges_iff` needs the clock and the modes to play along
(`Stamp.KeepsUpload`, `Stamp.KeepsDownload`); and a local link that leads nowhere
is not deleted.

The trees have the same directories here. Then every item touches one path on
one side (`applyItem_outcome`), and the plan can be read item by item.
-/

namespace Mobfs

open Std Lib

/-- Both sides have the same directories, with any modes. -/
def CommonDirs (s : Sides) : Prop := ∀ p, s.loc.isDir p = s.rem.isDir p

/-- The next plan is empty, and an edit of one side alone brings no conflict. -/
def Converged (sha : List UInt8 → String) (ignore : List String) (base : Snapshot) (s : Sides) : Prop :=
  syncItems base (scan sha ignore s.loc) (scan sha ignore s.rem) true = [] ∧
  (∀ t, ∀ i ∈ syncItems base (scan sha ignore t) (scan sha ignore s.rem) true, i.isConflict = false) ∧
  (∀ t, ∀ i ∈ syncItems base (scan sha ignore s.loc) (scan sha ignore t) true, i.isConflict = false)

/-- The new link looks like the one it was made from. -/
def Stamp.KeepsLink (stamp : Stamp) (mode : Nat) (mtime : Int) : Prop :=
  modifiedSecs stamp.mtime = modifiedSecs mtime ∧ stamp.linkMode = mode

/-- What an upload leaves on the remote looks like the local entry. -/
def Stamp.KeepsUpload (stamp : Stamp) : Node → Prop
  | .file _ mode mtime => modifiedSecs stamp.mtime = modifiedSecs mtime ∧ (mode = 0 → stamp.fileMode = 0)
  | .symlink _ mode mtime => stamp.KeepsLink mode mtime
  | _ => True

/-- What a download leaves looks like the remote entry. -/
def Stamp.KeepsDownload (stamp : Stamp) : Node → Prop
  | .file _ mode mtime =>
    (modifiedSecs mtime = 0 → modifiedSecs stamp.mtime = 0) ∧ (mode = 0 → stamp.fileMode = 0)
  | .symlink _ mode mtime => stamp.KeepsLink mode mtime
  | _ => True

/-- The transfer of the item carries all that a snapshot sees. -/
def Sides.CarriesAll (s : Sides) (stamp : Stamp) : PlanItem → Prop
  | .put p => ∀ n ∈ s.loc.node p, stamp.KeepsUpload n
  | .get p => ∀ n ∈ s.rem.node p, stamp.KeepsDownload n
  | _ => True

/-! ## What an item does to its path -/

def uploaded (stamp : Stamp) : Node → Node
  | .file data mode _ => .file data (setMode mode stamp.fileMode) stamp.mtime
  | .symlink target _ _ => .symlink target stamp.linkMode stamp.mtime
  | n => n

def downloaded (stamp : Stamp) : Node → Node
  | .file data mode mtime =>
    .file data (setMode mode stamp.fileMode) (setMtime (modifiedSecs mtime) stamp.mtime)
  | .symlink target _ _ => .symlink target stamp.linkMode stamp.mtime
  | n => n

/-- The local and the remote entry at the path of an item after it. -/
def Sides.outcome (links : Links) (stamp : Stamp) (s : Sides) : PlanItem → Option Node × Option Node
  | .put p => (s.loc.node p, (s.loc.node p).map (uploaded stamp))
  | .get p => ((s.rem.node p).map (downloaded stamp), s.rem.node p)
  | .deleteLocal p =>
    (if s.loc.isLink p = true ∧ links.leadsSomewhere s.loc p = false then s.loc.node p else none, s.rem.node p)
  | .deleteRemote p => (s.loc.node p, none)
  | .conflict p => (s.loc.node p, s.rem.node p)

theorem setMode_eq_iff {mode old : Nat} : setMode mode old = mode ↔ (mode = 0 → old = 0) := by
  unfold setMode
  by_cases h : mode = 0 <;> simp [h]

theorem setMtime_eq_iff {mtime old : Int} :
    modifiedSecs (setMtime (modifiedSecs mtime) old) = modifiedSecs mtime ↔
      (modifiedSecs mtime = 0 → modifiedSecs old = 0) := by
  unfold setMtime modifiedSecs
  split <;> omega

theorem entryMeta_uploaded {sha : List UInt8 → String} {stamp : Stamp} {n : Node} :
    entryMeta sha (uploaded stamp n) = entryMeta sha n ↔ stamp.KeepsUpload n := by
  cases n with
  | file data mode mtime => simp [entryMeta, uploaded, Stamp.KeepsUpload, setMode_eq_iff]
  | symlink target mode mtime => simp [entryMeta, uploaded, Stamp.KeepsUpload, Stamp.KeepsLink]
  | dir mode => simp [uploaded, Stamp.KeepsUpload]
  | other => simp [uploaded, Stamp.KeepsUpload]

theorem entryMeta_downloaded {sha : List UInt8 → String} {stamp : Stamp} {n : Node} :
    entryMeta sha (downloaded stamp n) = entryMeta sha n ↔ stamp.KeepsDownload n := by
  cases n with
  | file data mode mtime =>
    simp [entryMeta, downloaded, Stamp.KeepsDownload, setMode_eq_iff, setMtime_eq_iff]
  | symlink target mode mtime => simp [entryMeta, downloaded, Stamp.KeepsDownload, Stamp.KeepsLink]
  | dir mode => simp [downloaded, Stamp.KeepsDownload]
  | other => simp [downloaded, Stamp.KeepsDownload]

theorem uploadFile_of_node {links : Links} {sha : List UInt8 → String} {stamp : Stamp} {loc rem : Tree} {p : String}
    {n : Node} {m : EntryMeta} (hn : loc.node p = some n) (hmeta : entryMeta sha n = some m) (hk : m.kind.carried = true) :
    uploadFile links stamp loc rem p = install links stamp rem p (uploaded stamp n) := by
  unfold uploadFile
  rw [lookup_of_node hn]
  cases n with
  | file data mode mtime => rfl
  | symlink target mode mtime => rfl
  | dir mode => cases hmeta; cases hk
  | other => cases hmeta

theorem downloadFile_of_node {links : Links} {sha : List UInt8 → String} {stamp : Stamp} {rem loc : Tree} {p : String}
    {n : Node} {m : EntryMeta} (hn : rem.node p = some n) (hmeta : entryMeta sha n = some m) (hk : m.kind.carried = true) :
    downloadFile links stamp rem loc p m = install links stamp loc p (downloaded stamp n) := by
  unfold downloadFile
  cases n with
  | file data mode mtime =>
    cases hmeta
    simp only [readFile, lookup_of_node hn]
    rfl
  | symlink target mode mtime =>
    cases hmeta
    rfl
  | dir mode => cases hmeta; cases hk
  | other => cases hmeta

/-! ## Trees with the same directories -/

section Common
variable {links : Links} {sha : List UInt8 → String} {ignore : List String} {c : Command} {s0 s : Sides}
  {i : PlanItem} {stamp : Stamp}

theorem CommonDirs.isDir (h : CommonDirs s) (p : String) : s.loc.isDir p = s.rem.isDir p := h p

theorem scan_of_isDir (sha : List UInt8 → String) {t : Tree} {p : String} (hp : shouldIgnoreRel ignore p = false) (h : t.isDir p = true) :
    ∃ m, (scan sha ignore t)[p]? = some m ∧ m.kind = .dir := by
  simp only [Tree.isDir, Option.any_eq_true] at h
  obtain ⟨n, hn, hd⟩ := h
  cases n with
  | dir mode => exact ⟨⟨.dir, 0, 0, none, mode, none⟩, by rw [get?_scan, hp, hn]; rfl, rfl⟩
  | _ => cases hd

/-- The sides have the directories they had. -/
structure SameDirs (s0 s : Sides) : Prop where
  loc : ∀ q, s.loc.isDir q = s0.loc.isDir q
  rem : ∀ q, s.rem.isDir q = s0.rem.isDir q

/-- The sides have the entries at the path that they had. -/
structure SameAt (s0 s : Sides) (p : String) : Prop where
  loc : s.loc.node p = s0.loc.node p
  rem : s.rem.node p = s0.rem.node p

/-- The directories of what one side has are there on the other. -/
theorem CommonDirs.target (h : CommonDirs s0) (hd : SameDirs s0 s) {p : String} :
    (s.loc.node p ≠ none → ∀ d, below d p = true → s.rem.isDir d = true) ∧
    (s.rem.node p ≠ none → ∀ d, below d p = true → s.loc.isDir d = true) := by
  refine ⟨?_, ?_⟩
  · intro hp d hb
    rw [hd.rem, ← h.isDir, ← hd.loc]
    exact Tree.isDir_of_below hb hp
  · intro hp d hb
    rw [hd.loc, h.isDir, ← hd.rem]
    exact Tree.isDir_of_below hb hp

theorem not_dir_of_carried {t : Tree} {p : String} {m : EntryMeta} (h : (scan sha ignore t)[p]? = some m)
    (hk : m.kind.carried = true) : t.isDir p = false := by
  rw [isDir_of_scan h]
  cases hm : m.kind with
  | dir => rw [hm] at hk; cases hk
  | _ => rfl

/-- A directory is in both snapshots, so no item is about one. -/
theorem CommonDirs.item_not_dir (h : CommonDirs s0) {delete : Bool} (hi : i ∈ c.planned sha ignore delete s0)
    (hc : i.isConflict = false) : s0.loc.isDir i.path = false := by
  cases i with
  | put p =>
    obtain ⟨m, hm, hk, -⟩ := Command.of_put hi
    exact not_dir_of_carried hm hk
  | get p =>
    obtain ⟨m, hm, hk, -⟩ := Command.of_get hi
    rw [h.isDir]
    exact not_dir_of_carried hm hk
  | deleteLocal p =>
    obtain ⟨-, hr, hl, -⟩ := Command.of_deleteLocal hi
    obtain ⟨m, hm⟩ := Option.ne_none_iff_exists'.1 hl
    by_contra hd
    rw [Bool.not_eq_false, PlanItem.path, h.isDir] at hd
    obtain ⟨m', hm', -⟩ := scan_of_isDir sha (node_of_scan hm).1 hd
    rw [hm'] at hr
    cases hr
  | deleteRemote p =>
    obtain ⟨-, hl, hr, -⟩ := Command.of_deleteRemote hi
    obtain ⟨m, hm⟩ := Option.ne_none_iff_exists'.1 hr
    by_contra hd
    rw [Bool.not_eq_false, PlanItem.path] at hd
    obtain ⟨m', hm', -⟩ := scan_of_isDir sha (node_of_scan hm).1 hd
    rw [hm'] at hl
    cases hl
  | conflict p => cases hc

/-- An item succeeds and touches nothing but its path. -/
theorem applyItem_outcome (links : Links) (stamp : Stamp) (h : CommonDirs s0) {delete : Bool} (hi : i ∈ c.planned sha ignore delete s0)
    (hdirs : SameDirs s0 s) (hu : SameAt s0 s i.path) :
    (applyItem links (scan sha ignore s0.rem) stamp s i).2 = true ∧
    (∀ q, (applyItem links (scan sha ignore s0.rem) stamp s i).1.loc.node q =
      if q = i.path then (s.outcome links stamp i).1 else s.loc.node q) ∧
    (∀ q, (applyItem links (scan sha ignore s0.rem) stamp s i).1.rem.node q =
      if q = i.path then (s.outcome links stamp i).2 else s.rem.node q) := by
  have hself : ∀ (t : Tree) (p q : String), t.node q = if q = p then t.node p else t.node q := by
    intro t p q
    by_cases hq : q = p
    · rw [if_pos hq, hq]
    · rw [if_neg hq]
  cases i with
  | put p =>
    obtain ⟨m, hm, hk, -⟩ := Command.of_put hi
    obtain ⟨-, n, hn, hmeta⟩ := node_of_scan hm
    have hl : s.loc.node p = some n := hu.loc.trans hn
    have hd : s.rem.isDir p = false := by
      rw [hdirs.rem, ← h.isDir]
      exact h.item_not_dir hi rfl
    obtain ⟨hok, hnode⟩ := install_of_isDir links stamp (uploaded stamp n)
      ((h.target hdirs).1 (by rw [hl]; simp)) hd
    simp only [applyItem, uploadFile_of_node hl hmeta hk, PlanItem.path, Sides.outcome, hl, Option.map_some]
    refine ⟨hok, ?_, hnode⟩
    intro q
    have hq := hself s.loc p q
    rwa [hl] at hq
  | get p =>
    obtain ⟨m, hm, hk, -⟩ := Command.of_get hi
    obtain ⟨-, n, hn, hmeta⟩ := node_of_scan hm
    have hr : s.rem.node p = some n := hu.rem.trans hn
    have hd : s.loc.isDir p = false := by
      rw [hdirs.loc]
      exact h.item_not_dir hi rfl
    obtain ⟨hok, hnode⟩ := install_of_isDir links stamp (downloaded stamp n)
      ((h.target hdirs).2 (by rw [hr]; simp)) hd
    simp only [applyItem, hm, downloadFile_of_node hr hmeta hk, PlanItem.path, Sides.outcome, hr, Option.map_some]
    refine ⟨hok, hnode, ?_⟩
    intro q
    have hq := hself s.rem p q
    rwa [hr] at hq
  | deleteLocal p =>
    have hd : s.loc.isDir p = false := by
      rw [hdirs.loc]
      exact h.item_not_dir hi rfl
    have hp : s.loc.node p ≠ none := by
      rw [show s.loc.node p = s0.loc.node p from hu.loc]
      exact node_ne_none_of_scan (Command.of_deleteLocal hi).2.2.1
    simp only [applyItem, removeLocal_spec (Tree.plain_of_node hp), PlanItem.path, Sides.outcome, hp, false_or,
      true_and]
    refine ⟨?_, hself s.rem p⟩
    intro q
    by_cases hl : s.loc.isLink p = true ∧ links.leadsSomewhere s.loc p = false
    · rw [if_pos hl, if_pos hl]
      exact hself s.loc p q
    · rw [if_neg hl, if_neg hl]
      exact Tree.node_drop_of_not_isDir hd q
  | deleteRemote p =>
    obtain ⟨-, -, hr, -⟩ := Command.of_deleteRemote hi
    obtain ⟨m, hm⟩ := Option.ne_none_iff_exists'.1 hr
    have hd : s.rem.isDir p = false := by
      rw [hdirs.rem, ← h.isDir]
      exact h.item_not_dir hi rfl
    have hp : s.rem.node p ≠ none := by
      rw [show s.rem.node p = s0.rem.node p from hu.rem]
      exact node_ne_none_of_scan hr
    simp only [applyItem, hm, removeRemote_spec (Tree.plain_of_node hp), PlanItem.path, Sides.outcome, hp, if_false,
      hd, Bool.false_eq_true, false_and, true_and]
    exact ⟨hself s.loc p, Tree.node_drop_of_not_isDir hd⟩
  | conflict p => exact ⟨rfl, hself s.loc p, hself s.rem p⟩

theorem uploaded_isDir (n : Node) : (uploaded stamp n).isDir = n.isDir := by
  cases n <;> rfl

theorem downloaded_isDir (n : Node) : (downloaded stamp n).isDir = n.isDir := by
  cases n <;> rfl

theorem outcome_not_dir (links : Links) (stamp : Stamp) (hl : s.loc.isDir i.path = false) (hr : s.rem.isDir i.path = false) :
    (s.outcome links stamp i).1.any Node.isDir = false ∧ (s.outcome links stamp i).2.any Node.isDir = false := by
  cases i with
  | put p =>
    refine ⟨hl, ?_⟩
    simp only [Sides.outcome, Option.any_map, uploaded_isDir]
    exact hl
  | get p =>
    refine ⟨?_, hr⟩
    simp only [Sides.outcome, Option.any_map, downloaded_isDir]
    exact hr
  | deleteLocal p =>
    refine ⟨?_, hr⟩
    simp only [Sides.outcome]
    split
    · exact hl
    · rfl
  | deleteRemote p => exact ⟨hl, rfl⟩
  | conflict p => exact ⟨hl, hr⟩

/-! ## The plan, item by item -/

section Frame
variable {delete : Bool} {env : Env} {is : List PlanItem}

theorem applyItem_frame (links : Links) (stamp : Stamp) (h : CommonDirs s0)
    (hi : i ∈ c.planned sha ignore delete s0) (hc : i.isConflict = false) (hd : SameDirs s0 s) (hu : SameAt s0 s i.path) :
    SameDirs s0 (applyItem links (scan sha ignore s0.rem) stamp s i).1 ∧
    ∀ q, q ≠ i.path → SameAt s (applyItem links (scan sha ignore s0.rem) stamp s i).1 q := by
  obtain ⟨-, hl, hr⟩ := applyItem_outcome links stamp h hi hd hu
  have hnl : s.loc.isDir i.path = false := by
    rw [hd.loc]
    exact h.item_not_dir hi hc
  have hnr : s.rem.isDir i.path = false := by
    rw [hd.rem, ← h.isDir]
    exact h.item_not_dir hi hc
  obtain ⟨hol, hor⟩ := outcome_not_dir links stamp hnl hnr
  refine ⟨⟨?_, ?_⟩, fun q hq => ⟨by rw [hl, if_neg hq], by rw [hr, if_neg hq]⟩⟩
  · intro q
    rw [Tree.isDir, hl]
    by_cases hq : q = i.path
    · rw [if_pos hq, hol, ← hd.loc, hq, hnl]
    · rw [if_neg hq]
      exact hd.loc q
  · intro q
    rw [Tree.isDir, hr]
    by_cases hq : q = i.path
    · rw [if_pos hq, hor, ← hd.rem, hq, hnr]
    · rw [if_neg hq]
      exact hd.rem q

/-- Items with a path of their own each leave the rest as it is. -/
theorem runItems_frame (links : Links) (env : Env) (h : CommonDirs s0)
    (hsub : ∀ i ∈ is, i ∈ c.planned sha ignore delete s0 ∧ i.isConflict = false)
    (hpaths : is.Pairwise fun i j => i.path ≠ j.path) (hd : SameDirs s0 s) (hu : ∀ i ∈ is, SameAt s0 s i.path) :
    SameDirs s0 (runItems (applyItem links (scan sha ignore s0.rem)) env s is).1 ∧
    ∀ q, (∀ i ∈ is, i.path ≠ q) → SameAt s (runItems (applyItem links (scan sha ignore s0.rem)) env s is).1 q := by
  induction is generalizing s with
  | nil => exact ⟨hd, fun q _ => ⟨rfl, rfl⟩⟩
  | cons i is ih =>
    obtain ⟨hi, his⟩ := List.pairwise_cons.1 hpaths
    obtain ⟨hmem, hconf⟩ := hsub i List.mem_cons_self
    have hstep := applyItem_frame links (env.stamp i.path) h hmem hconf hd (hu i List.mem_cons_self)
    -- A fault leaves the state before the item or the one after it.
    have hhit : SameDirs s0
          ((env.fault i.path).hit s (applyItem links (scan sha ignore s0.rem) (env.stamp i.path) s i)).1 ∧
        ∀ q, q ≠ i.path → SameAt s
          ((env.fault i.path).hit s (applyItem links (scan sha ignore s0.rem) (env.stamp i.path) s i)).1 q := by
      rcases (env.fault i.path).hit_cases s (applyItem links (scan sha ignore s0.rem) (env.stamp i.path) s i) with e | e
      · rw [e]; exact ⟨hd, fun q _ => ⟨rfl, rfl⟩⟩
      · rw [e]; exact hstep
    rcases he : (env.fault i.path).hit s (applyItem links (scan sha ignore s0.rem) (env.stamp i.path) s i) with ⟨s', ok⟩
    rw [he] at hhit
    obtain ⟨hd', hat⟩ := hhit
    simp only [runItems, he]
    cases ok with
    | false => exact ⟨hd', fun q hq => hat q (hq i List.mem_cons_self).symm⟩
    | true =>
      have hu' : ∀ j ∈ is, SameAt s0 s' j.path := by
        intro j hj
        have hj' := hat j.path (hi j hj).symm
        have hj0 := hu j (List.mem_cons_of_mem _ hj)
        exact ⟨hj'.loc.trans hj0.loc, hj'.rem.trans hj0.rem⟩
      obtain ⟨hd'', hat'⟩ := ih (fun j hj => hsub j (List.mem_cons_of_mem _ hj)) his hd' hu'
      refine ⟨hd'', ?_⟩
      intro q hq
      have h1 := hat q (hq i List.mem_cons_self).symm
      have h2 := hat' q fun j hj => hq j (List.mem_cons_of_mem _ hj)
      exact ⟨h2.loc.trans h1.loc, h2.rem.trans h1.rem⟩

/-- At the path of an item, a plan that is done leaves what the item left there. -/
theorem runItems_outcome (h : CommonDirs s0) {pre post : List PlanItem}
    (hsub : ∀ j ∈ pre ++ i :: post, j ∈ c.planned sha ignore delete s0 ∧ j.isConflict = false)
    (hpaths : (pre ++ i :: post).Pairwise fun i j => i.path ≠ j.path)
    (hdone : (runItems (applyItem links (scan sha ignore s0.rem)) env s0 (pre ++ i :: post)).2 = true) :
    let before := (runItems (applyItem links (scan sha ignore s0.rem)) env s0 pre).1
    let after := (runItems (applyItem links (scan sha ignore s0.rem)) env s0 (pre ++ i :: post)).1
    SameAt s0 before i.path ∧ after.loc.node i.path = (before.outcome links (env.stamp i.path) i).1 ∧
      after.rem.node i.path = (before.outcome links (env.stamp i.path) i).2 := by
  intro before after
  obtain ⟨hpre, hrest, hcross⟩ := List.pairwise_append.1 hpaths
  obtain ⟨hi, hpost⟩ := List.pairwise_cons.1 hrest
  have hsame : ∀ q, SameAt s0 s0 q := fun _ => ⟨rfl, rfl⟩
  obtain ⟨hdb, hatb⟩ := runItems_frame links env h
    (fun j hj => hsub j (List.mem_append_left _ hj)) hpre ⟨fun _ => rfl, fun _ => rfl⟩ fun j _ => hsame _
  have hbefore : ∀ q, (∀ j ∈ pre, j.path ≠ q) → SameAt s0 before q := hatb
  have hbi : SameAt s0 before i.path := hbefore _ fun j hj => hcross j hj i List.mem_cons_self
  obtain ⟨hmem, hconf⟩ := hsub i (List.mem_append_right _ List.mem_cons_self)
  obtain ⟨-, hl, hr⟩ := applyItem_outcome links (env.stamp i.path) h hmem hdb hbi
  obtain ⟨hd1, hat1⟩ := applyItem_frame links (env.stamp i.path) h hmem hconf hdb hbi
  -- The items after it have other paths.
  obtain ⟨-, hat2⟩ := runItems_frame links env h
    (fun j hj => hsub j (List.mem_append_right _ (List.mem_cons_of_mem _ hj))) hpost hd1 (by
      intro j hj
      have h1 := hat1 j.path (hi j hj).symm
      have h0 := hbefore j.path fun k hk => hcross k hk j (List.mem_cons_of_mem _ hj)
      exact ⟨h1.loc.trans h0.loc, h1.rem.trans h0.rem⟩)
  have hlast := hat2 i.path fun j hj => (hi j hj).symm
  rw [← (runItems_split hdone).2] at hlast
  refine ⟨hbi, ?_, ?_⟩
  · rw [hlast.loc, hl, if_pos rfl]
  · rw [hlast.rem, hr, if_pos rfl]

end Frame

/-! ## The commands -/

section Commands
variable {env : Env}

theorem ensureDirs_of_isDir {mode : String → Nat} {t : Tree} {ds : List String} (h : ∀ d ∈ ds, t.isDir d = true) :
    ensureDirs links mode t ds = (t, true) := by
  induction ds with
  | nil => rfl
  | cons d ds ih =>
    have hd := h d List.mem_cons_self
    have hall : ∀ e ∈ ancestors d ++ [d], t.isDir e = true := by
      intro e he
      rcases List.mem_append.1 he with he | he
      · refine Tree.isDir_of_below (mem_ancestors_iff.1 he) ?_
        intro hn
        simp [Tree.isDir, hn] at hd
      · rwa [List.mem_singleton.1 he]
    simp only [ensureDirs, createDirs_of_isDir hall]
    exact ih fun e he => h e (List.mem_cons_of_mem _ he)

theorem CommonDirs.dirs_loc (h : CommonDirs s) : ∀ d ∈ (scan sha ignore s.rem).dirs, s.loc.isDir d = true := by
  intro d hd
  obtain ⟨m, hm, hk⟩ := mem_dirs.1 hd
  rw [h.isDir, isDir_of_scan hm, hk]
  rfl

theorem CommonDirs.dirs_rem (h : CommonDirs s) : ∀ d ∈ (scan sha ignore s.loc).dirs, s.rem.isDir d = true := by
  intro d hd
  obtain ⟨m, hm, hk⟩ := mem_dirs.1 hd
  rw [← h.isDir, isDir_of_scan hm, hk]
  rfl

/-- With the same directories on both sides a command that is done has just
carried out its plan. -/
theorem run_common (links : Links) (env : Env) (h : CommonDirs s) {delete : Bool} (hdone : (c.run links sha ignore env delete s).2 = true) :
    c.run links sha ignore env delete s =
      runItems (applyItem links (scan sha ignore s.rem)) env s (c.planned sha ignore delete s) ∧
    ∀ i ∈ c.planned sha ignore delete s, i.isConflict = false := by
  cases c with
  | sync base =>
    simp only [Command.run, Command.carryOut] at hdone ⊢
    by_cases hc : ((Command.sync base).planned sha ignore delete s).any PlanItem.isConflict = true
    · rw [Command.planned] at hc
      rw [if_pos hc] at hdone
      cases hdone
    · refine ⟨if_neg hc, ?_⟩
      intro i hi
      by_contra hi'
      exact hc (List.any_eq_true.2 ⟨i, hi, by simpa using hi'⟩)
  | pull =>
    refine ⟨?_, ?_⟩
    · simp only [Command.run, Command.carryOut, ensureDirs_of_isDir h.dirs_loc]
      rfl
    · intro i hi
      rcases mem_carryItems.1 hi with ⟨p, _, rfl, -⟩ | ⟨p, rfl, -⟩ <;> rfl
  | push =>
    refine ⟨?_, ?_⟩
    · simp only [Command.run, Command.carryOut, ensureDirs_of_isDir h.dirs_rem, Command.plan,
        runItems_pushItem pushItems_put_or_delete]
      rfl
    · intro i hi
      rcases mem_carryItems.1 hi with ⟨p, _, rfl, -⟩ | ⟨p, rfl, -⟩ <;> rfl

/-- Where there is neither an item nor a directory, the sides look the same already. -/
theorem CommonDirs.same_of_no_item (h : CommonDirs s) {p : String} (hdir : s.loc.isDir p = false)
    (hp : ∀ i ∈ c.planned sha ignore true s, i.path ≠ p) : (scan sha ignore s.loc)[p]? = (scan sha ignore s.rem)[p]? := by
  by_contra hne
  have hcl : ∀ m, (scan sha ignore s.loc)[p]? = some m → m.kind.carried = true := by
    intro m hm
    rw [isDir_of_scan hm] at hdir
    cases hk : m.kind with
    | dir => simp [hk] at hdir
    | _ => rfl
  have hcr : ∀ m, (scan sha ignore s.rem)[p]? = some m → m.kind.carried = true := by
    intro m hm
    rw [h.isDir, isDir_of_scan hm] at hdir
    cases hk : m.kind with
    | dir => simp [hk] at hdir
    | _ => rfl
  have hmem : ∃ i ∈ c.planned sha ignore true s, i.path = p := by
    cases c with
    | sync base =>
      have hplan : ∃ i, syncItem true p base[p]? (scan sha ignore s.loc)[p]? (scan sha ignore s.rem)[p]? = some i ∧
          i.path = p := by
        simp only [syncItem_eq_some]
        by_cases hl : (scan sha ignore s.loc)[p]? = base[p]? <;> by_cases hr : (scan sha ignore s.rem)[p]? = base[p]?
        · exact absurd (hl.trans hr.symm) hne
        · cases hm : (scan sha ignore s.rem)[p]? with
          | none => exact ⟨.deleteLocal p, .inr (.inr (.inr (.inl ⟨rfl, trivial, rfl, hl, fun e => hne (e.trans hm.symm)⟩))), rfl⟩
          | some m => exact ⟨.get p, .inr (.inr (.inl ⟨rfl, hl, hm ▸ hr, m, rfl, hcr m hm⟩)), rfl⟩
        · cases hm : (scan sha ignore s.loc)[p]? with
          | none => exact ⟨.deleteRemote p, .inr (.inl ⟨rfl, trivial, rfl, hr, fun e => hne (hm.trans e.symm)⟩), rfl⟩
          | some m => exact ⟨.put p, .inl ⟨rfl, hm ▸ hl, hr, m, rfl, hcl m hm⟩, rfl⟩
        · exact ⟨.conflict p, .inr (.inr (.inr (.inr ⟨rfl, hl, hr, hne⟩))), rfl⟩
      obtain ⟨i, hi, hip⟩ := hplan
      exact ⟨i, mem_syncItems.2 ⟨p, hi⟩, hip⟩
    | pull =>
      cases hm : (scan sha ignore s.rem)[p]? with
      | none => exact ⟨.deleteLocal p, mem_carryItems.2 (.inr ⟨p, rfl, rfl, fun e => hne (e.trans hm.symm), hm⟩), rfl⟩
      | some m =>
        exact ⟨.get p, mem_carryItems.2 (.inl ⟨p, m, rfl, hm, hcr m hm, fun e => hne (e.trans hm.symm)⟩), rfl⟩
    | push =>
      cases hm : (scan sha ignore s.loc)[p]? with
      | none =>
        exact ⟨.deleteRemote p, mem_carryItems.2 (.inr ⟨p, rfl, rfl, fun e => hne (hm.trans e.symm), hm⟩), rfl⟩
      | some m =>
        exact ⟨.put p, mem_carryItems.2 (.inl ⟨p, m, rfl, hm, hcl m hm, fun e => hne (hm.trans e.symm)⟩), rfl⟩
  obtain ⟨i, hi, hip⟩ := hmem
  exact hp i hi hip

/-- The base a command saves is the snapshot of the remote it leaves. -/
theorem exec_base (h : CommonDirs s) {s' : Sides} {base' : Snapshot} {delete : Bool}
    (hexec : c.exec links sha ignore env delete s = (s', some base')) :
    (c.run links sha ignore env delete s) = (s', true) ∧ base' = scan sha ignore s'.rem := by
  rcases hrun : c.run links sha ignore env delete s with ⟨s1, ok⟩
  simp only [Command.exec, hrun] at hexec
  cases ok with
  | false => cases hexec
  | true =>
    cases c with
    | sync base => cases hexec; exact ⟨rfl, rfl⟩
    | push => cases hexec; exact ⟨rfl, rfl⟩
    | pull =>
      cases hexec
      refine ⟨rfl, ?_⟩
      -- A pull does not change the remote.
      have hitems := (run_common links env h (by rw [hrun])).1
      have hrem : (runItems (applyItem links (scan sha ignore s.rem)) env s
          (Command.pull.planned sha ignore delete s)).1.rem = s.rem := by
        refine runItems_inv (fun s1 => s1.rem = s.rem) ?_ rfl
        intro i hi s2 h2
        rcases mem_carryItems.1 hi with ⟨p, _, rfl, -⟩ | ⟨p, rfl, -⟩
        · rw [applyItem_get_rem, h2]
        · exact h2
      rw [← hitems, hrun] at hrem
      rw [← hrem]

/-- If the base is the snapshot of the remote, there is nothing left to do exactly
where the sides look the same. -/
theorem converged_iff_same (hd : CommonDirs s) :
    Converged sha ignore (scan sha ignore s.rem) s ↔
      ∀ p : String, (scan sha ignore s.loc)[p]? = (scan sha ignore s.rem)[p]? := by
  constructor
  · rintro ⟨hempty, -, hedit⟩ p
    cases hp : s.loc.isDir p with
    | false =>
      refine hd.same_of_no_item (c := .sync (scan sha ignore s.rem)) hp ?_
      intro i hi
      rw [Command.planned, Command.plan, hempty] at hi
      cases hi
    | true =>
      cases hi : shouldIgnoreRel ignore p with
      | true => rw [get?_scan, get?_scan, hi]; rfl
      | false =>
        -- Were the directories unlike, deleting the remote one would be a conflict.
        by_contra hne
        obtain ⟨m, hm, -⟩ := scan_of_isDir sha hi hp
        obtain ⟨m', hm', -⟩ := scan_of_isDir sha hi ((hd.isDir p).symm.trans hp)
        have hgone : (scan sha ignore Tree.empty)[p]? = none := by
          rw [get?_scan, hi]
          rfl
        have hc := hedit Tree.empty (.conflict p) (mem_syncItems.2 ⟨p, syncItem_eq_some.2
          (.inr (.inr (.inr (.inr ⟨rfl, hne, by simp [hgone, hm'], by simp [hgone, hm]⟩))))⟩)
        cases hc
  · intro hsame
    refine ⟨?_, ?_, ?_⟩
    · rw [List.eq_nil_iff_forall_not_mem]
      intro i hi
      obtain ⟨p, hp⟩ := mem_syncItems.1 hi
      simp [syncItem, hsame p] at hp
    · intro t i hi
      obtain ⟨p, hp⟩ := mem_syncItems.1 hi
      obtain ⟨rfl, -⟩ | ⟨rfl, -⟩ | ⟨rfl, -⟩ | ⟨rfl, -⟩ | ⟨-, -, hne, -⟩ := syncItem_eq_some.1 hp
      · rfl
      · rfl
      · rfl
      · rfl
      · exact absurd rfl hne
    · intro t i hi
      obtain ⟨p, hp⟩ := mem_syncItems.1 hi
      obtain ⟨rfl, -⟩ | ⟨rfl, -⟩ | ⟨rfl, -⟩ | ⟨rfl, -⟩ | ⟨-, hne, -, -⟩ := syncItem_eq_some.1 hp
      · rfl
      · rfl
      · rfl
      · rfl
      · exact absurd (hsame p) hne

theorem bind_entryMeta_of_scan {t : Tree} {p : String} (hp : shouldIgnoreRel ignore p = false) :
    (scan sha ignore t)[p]? = (t.node p).bind (entryMeta sha) := by
  rw [get?_scan, hp]
  rfl

/-- No item is about an ignored path. -/
theorem item_not_ignored {delete : Bool} (hi : i ∈ c.planned sha ignore delete s) (hc : i.isConflict = false) :
    shouldIgnoreRel ignore i.path = false := by
  have hvisible : ∀ {t : Tree} {p : String}, (scan sha ignore t)[p]? ≠ none → shouldIgnoreRel ignore p = false := by
    intro t p hp
    obtain ⟨m, hm⟩ := Option.ne_none_iff_exists'.1 hp
    exact (node_of_scan hm).1
  cases i with
  | put p =>
    obtain ⟨m, hm, -⟩ := Command.of_put hi
    exact (node_of_scan hm).1
  | get p =>
    obtain ⟨m, hm, -⟩ := Command.of_get hi
    exact (node_of_scan hm).1
  | deleteLocal p => exact hvisible (Command.of_deleteLocal hi).2.2.1
  | deleteRemote p => exact hvisible (Command.of_deleteRemote hi).2.2.1
  | conflict p => cases hc

/-- After an item its path looks the same on both sides if the transfer carried
everything, or the local link to be deleted led somewhere. -/
theorem outcome_same_iff {before : Sides} {delete : Bool} (hi : i ∈ c.planned sha ignore delete s)
    (hc : i.isConflict = false) (hb : SameAt s before i.path) :
    (before.outcome links stamp i).1.bind (entryMeta sha) = (before.outcome links stamp i).2.bind (entryMeta sha) ↔
      s.CarriesAll stamp i ∧ (∀ p, i = .deleteLocal p → s.loc.isLink p = true →
        links.leadsSomewhere before.loc p = true) := by
  have hign := item_not_ignored hi hc
  cases i with
  | put p =>
    obtain ⟨m, hm, -⟩ := Command.of_put hi
    obtain ⟨-, n, hn, -⟩ := node_of_scan hm
    have hl : before.loc.node p = some n := hb.loc.trans hn
    simp only [Sides.outcome, hl, Option.map_some, Option.bind_some, Sides.CarriesAll, hn, Option.mem_def,
      Option.some.injEq, forall_eq', reduceCtorEq, false_implies, implies_true, and_true]
    rw [eq_comm, entryMeta_uploaded]
  | get p =>
    obtain ⟨m, hm, -⟩ := Command.of_get hi
    obtain ⟨-, n, hn, -⟩ := node_of_scan hm
    have hr : before.rem.node p = some n := hb.rem.trans hn
    simp only [Sides.outcome, hr, Option.map_some, Option.bind_some, Sides.CarriesAll, hn, Option.mem_def,
      Option.some.injEq, forall_eq', reduceCtorEq, false_implies, implies_true, and_true]
    rw [entryMeta_downloaded]
  | deleteLocal p =>
    obtain ⟨-, hr, hl, -⟩ := Command.of_deleteLocal hi
    rw [PlanItem.path] at hign
    rw [bind_entryMeta_of_scan hign] at hr hl
    have hnode : before.loc.node p = s.loc.node p := hb.loc
    have hrem : before.rem.node p = s.rem.node p := hb.rem
    have hlink : before.loc.isLink p = s.loc.isLink p := by rw [Tree.isLink, hnode, Tree.isLink]
    simp only [Sides.outcome, hrem, hr, Sides.CarriesAll, true_and, PlanItem.deleteLocal.injEq, forall_eq', hnode, hlink]
    constructor
    · intro he hln
      by_contra hlead
      rw [if_pos ⟨hln, by simpa using hlead⟩] at he
      exact hl he
    · intro hlead
      rw [if_neg]
      · rfl
      · rintro ⟨hln, hno⟩
        rw [hlead hln] at hno
        cases hno
  | deleteRemote p =>
    obtain ⟨-, hl, -⟩ := Command.of_deleteRemote hi
    rw [PlanItem.path] at hign
    rw [bind_entryMeta_of_scan hign] at hl
    have hnode : before.loc.node p = s.loc.node p := hb.loc
    simp [Sides.outcome, hnode, hl, Sides.CarriesAll]
  | conflict p => cases hc

end Commands

end Common

/-- Both sides have the same directories and the command completes: there is then
nothing left to do if and only if the directories have the same modes, each
transfer carried mode and time as well, which depends on the clock, and each local
link to be deleted led somewhere when its turn came. -/
theorem converges_iff (links : Links) (sha : List UInt8 → String) (ignore : List String) (c : Command) (env : Env)
    (s s' : Sides) (base' : Snapshot) (hdirs : CommonDirs s)
    (hexec : c.exec links sha ignore env true s = (s', some base')) :
    Converged sha ignore base' s' ↔
      (∀ p, s.loc.isDir p = true → (scan sha ignore s.loc)[p]? = (scan sha ignore s.rem)[p]?) ∧
      (∀ i ∈ c.planned sha ignore true s, s.CarriesAll (env.stamp i.path) i) ∧
      ∀ pre p post, c.planned sha ignore true s = pre ++ .deleteLocal p :: post → s.loc.isLink p = true →
        links.leadsSomewhere (runItems (applyItem links (scan sha ignore s.rem)) env s pre).1.loc p = true := by
  obtain ⟨hrun, rfl⟩ := exec_base hdirs hexec
  obtain ⟨hitems, hconf⟩ := run_common links env hdirs (by rw [hrun])
  rw [hrun] at hitems
  have hs' : s' = (runItems (applyItem links (scan sha ignore s.rem)) env s (c.planned sha ignore true s)).1 := by
    rw [← hitems]
  have hdone : (runItems (applyItem links (scan sha ignore s.rem)) env s (c.planned sha ignore true s)).2 = true := by
    rw [← hitems]
  have hpaths : (c.planned sha ignore true s).Pairwise fun i j => i.path ≠ j.path := Command.plan_paths
  have hsub : ∀ i ∈ c.planned sha ignore true s, i ∈ c.planned sha ignore true s ∧ i.isConflict = false :=
    fun i hi => ⟨hi, hconf i hi⟩
  obtain ⟨hsame, hrest⟩ := runItems_frame links env hdirs hsub hpaths ⟨fun _ => rfl, fun _ => rfl⟩
    fun i _ => ⟨rfl, rfl⟩
  rw [← hs'] at hsame hrest
  have hdirs' : CommonDirs s' := fun p => by rw [hsame.loc, hsame.rem, hdirs.isDir]
  have hkept : ∀ p, (∀ i ∈ c.planned sha ignore true s, i.path ≠ p) →
      ((scan sha ignore s'.loc)[p]? = (scan sha ignore s'.rem)[p]? ↔
        (scan sha ignore s.loc)[p]? = (scan sha ignore s.rem)[p]?) := by
    intro p hp
    rw [get?_scan, get?_scan, get?_scan, get?_scan, (hrest p hp).loc, (hrest p hp).rem]
  -- At the path of an item the sides look the same if the item was carried out in full.
  have hat : ∀ pre i post, c.planned sha ignore true s = pre ++ i :: post →
      ((scan sha ignore s'.loc)[i.path]? = (scan sha ignore s'.rem)[i.path]? ↔
        s.CarriesAll (env.stamp i.path) i ∧ (∀ p, i = .deleteLocal p → s.loc.isLink p = true →
          links.leadsSomewhere (runItems (applyItem links (scan sha ignore s.rem)) env s pre).1.loc p = true)) := by
    intro pre i post hsplit
    have hi : i ∈ c.planned sha ignore true s := by rw [hsplit]; simp
    rw [hsplit] at hpaths hdone hs'
    obtain ⟨hb, hl, hr⟩ := runItems_outcome hdirs (fun j hj => hsub j (by rw [hsplit]; exact hj)) hpaths hdone
    rw [← hs'] at hl hr
    have hign := item_not_ignored hi (hconf i hi)
    rw [bind_entryMeta_of_scan hign, bind_entryMeta_of_scan hign, hl, hr]
    exact outcome_same_iff hi (hconf i hi) hb
  rw [converged_iff_same hdirs']
  constructor
  · intro hall
    refine ⟨?_, ?_, ?_⟩
    · intro p hp
      refine (hkept p ?_).1 (hall p)
      rintro i hi rfl
      rw [hdirs.item_not_dir hi (hconf i hi)] at hp
      cases hp
    · intro i hi
      obtain ⟨pre, post, hsplit⟩ := List.append_of_mem hi
      exact ((hat pre i post hsplit).1 (hall i.path)).1
    · intro pre p post hsplit
      exact ((hat pre _ post hsplit).1 (hall p)).2 p rfl
  · rintro ⟨hmodes, hcarry, hlead⟩ p
    by_cases hp : ∀ i ∈ c.planned sha ignore true s, i.path ≠ p
    · rw [hkept p hp]
      cases hd : s.loc.isDir p with
      | true => exact hmodes p hd
      | false => exact hdirs.same_of_no_item hd hp
    · simp only [ne_eq, not_forall, not_not] at hp
      obtain ⟨i, hi, rfl⟩ := hp
      obtain ⟨pre, post, hsplit⟩ := List.append_of_mem hi
      refine (hat pre i post hsplit).2 ⟨hcarry i hi, ?_⟩
      rintro q rfl
      exact hlead pre q post hsplit

/-! ## An upload and a download -/

theorem commonDirs_of_paths {s : Sides} (h : ∀ p ∈ s.loc.paths ++ s.rem.paths, s.loc.isDir p = s.rem.isDir p) :
    CommonDirs s := by
  intro p
  by_cases hp : p ∈ s.loc.paths ++ s.rem.paths
  · exact h p hp
  · simp only [List.mem_append, Tree.mem_paths, not_or, not_not] at hp
    rw [Tree.isDir, Tree.isDir, hp.1, hp.2]

/-- A file written at second 5. -/
def note : Tree := .build [("note", .file [1] 420 5)]

/-- A pull of it leaves nothing to do. -/
theorem converges_after_pull :
    CommonDirs ⟨.empty, note⟩ ∧
    (Command.pull.exec brokenLinks (fun _ => "") [] calmEnv true ⟨.empty, note⟩).2 = some (scan (fun _ => "") [] note) ∧
    Converged (fun _ => "") [] (scan (fun _ => "") [] note)
      (Command.pull.exec brokenLinks (fun _ => "") [] calmEnv true ⟨.empty, note⟩).1 := by
  have hd : CommonDirs ⟨.empty, note⟩ := commonDirs_of_paths (by decide)
  have hplan : Command.pull.planned (fun _ => "") [] true ⟨.empty, note⟩ = [.get "note"] := by decide
  refine ⟨hd, rfl, (converges_iff brokenLinks (fun _ => "") [] .pull calmEnv ⟨.empty, note⟩ _ _ hd rfl).2 ⟨?_, ?_, ?_⟩⟩
  · intro p hp
    rw [Tree.isDir] at hp
    cases hp
  · rw [hplan]
    intro i hi
    cases List.mem_singleton.1 hi
    intro n hn
    have hn' : n = .file [1] 420 5 := by
      have : note.node "note" = some (.file [1] 420 5) := by decide
      rw [this] at hn
      exact (Option.some.inj hn).symm
    rw [hn']
    exact ⟨by decide, by decide⟩
  · intro pre p post h
    rw [hplan] at h
    have hm : PlanItem.deleteLocal p ∈ [PlanItem.get "note"] := by rw [h]; simp
    simp at hm

/-- The clock shows second 9 when `sync` uploads it, so the remote file gets
another time than the local one. It is planned again, and an edit of the remote
file alone is a conflict. -/
theorem upload_never_settles :
    ∃ (s s' : Sides) (base' : Snapshot) (t : Tree), CommonDirs s ∧
      (Command.sync ∅).planned (fun _ => "") [] true s = [.put "note"] ∧
      (Command.sync ∅).exec brokenLinks (fun _ => "") [] calmEnv true s = (s', some base') ∧
      syncItems base' (scan (fun _ => "") [] s'.loc) (scan (fun _ => "") [] s'.rem) true = [.put "note"] ∧
      .conflict "note" ∈ syncItems base' (scan (fun _ => "") [] s'.loc) (scan (fun _ => "") [] t) true ∧
      ¬ Converged (fun _ => "") [] base' s' := by
  refine ⟨⟨note, .empty⟩, ((Command.sync ∅).exec brokenLinks (fun _ => "") [] calmEnv true ⟨note, .empty⟩).1, _,
    .build [("note", .file [2] 420 12)], commonDirs_of_paths (by decide), by decide, rfl, by decide, by decide, ?_⟩
  intro h
  exact absurd h.1 (by decide)

end Mobfs
