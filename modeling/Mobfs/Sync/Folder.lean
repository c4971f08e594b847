import Mathlib.Data.List.Infix
import Mobfs.Sync.Mirror
/-!
# The folder backend

With a folder of a cloud provider as the remote, `push` and `pull` work on two trees
of the same machine. `FolderClient::snapshot` passes over what it takes for files of
the provider (`providerNoise`), which `local::snapshot` lists and `push` stores; the
next `pull` with `delete` takes them for deleted. `folder_keeps_iff` says what it
leaves.

The loops are those of `push_plan` and `apply_plan`. As with the daemon, a temporary
file is not modelled.
-/

namespace Mobfs

open Std Lib

namespace FolderClient

/-- `provider_noise`. -/
def providerNoise (rel : String) : Bool :=
  ".icloud".toList.isSuffixOf rel.toList || ".tmp".toList.isSuffixOf rel.toList ||
    decide (".tmp.drivedownload".toList <:+: rel.toList) || decide (".goutputstream".toList <:+: rel.toList) ||
    (rel.toList.splitOn '/').any fun part =>
      [".DS_Store", ".localized", "Icon\r", ".TemporaryItems", ".Trashes"].any fun name => name.toList == part

section Calls
variable (links : Links)

/-- A link is made after what was there is unlinked; no directories are made for it. -/
def putLink (stamp : Stamp) (t : Tree) (rel target : String) : Tree × Bool :=
  match (links.locate t rel).bind fun q => t.place q (.symlink target stamp.linkMode stamp.mtime) with
  | some t' => (t', true)
  | none => (t, false)

/-- `copy_file_atomic` and what is set afterwards, given what opening and reading the
source gives. -/
def copyFile (stamp : Stamp) (t : Tree) (rel : String) (source : Option (List UInt8)) (made : List UInt8 → Node) :
    Tree × Bool :=
  match source with
  | some data => install links stamp t rel (made data)
  | none => ((createDirs links stamp.dirMode t (ancestors rel)).getD t, false)

def uploadFile (stamp : Stamp) (loc rem : Tree) (rel : String) : Tree × Bool :=
  match links.lookup loc rel with
  | none => (rem, false)
  | some (.symlink target _ _) => putLink links stamp rem rel target
  | some n =>
    copyFile links stamp rem rel (readFile links loc rel) fun data =>
      .file data (setMode (n.mode?.getD 0) stamp.fileMode) stamp.mtime

def downloadFile (stamp : Stamp) (rem loc : Tree) (rel : String) (m : EntryMeta) : Tree × Bool :=
  if m.kind = .symlink then
    match m.linkTarget with
    | some target => putLink links stamp loc rel target
    | none => (loc, false)
  else
    copyFile links stamp loc rel (readFile links rem rel) fun data =>
      .file data (setMode m.mode stamp.fileMode) (setMtime m.modified stamp.mtime)

/-- `path.exists()` follows a link at the path; `remove_dir_all` and `remove_file` want
what they are named after. -/
def remove (t : Tree) (rel : String) (dir : Bool) : Tree × Bool :=
  match links.locate t rel with
  | none => (t, true)
  | some q =>
    match t.node q with
    | none => (t, true)
    | some (.dir _) => if dir then (t.drop q, true) else (t, false)
    | some (.symlink _ _ _) => if links.leadsSomewhere t q then (t.drop q, true) else (t, true)
    | some _ => if dir then (t, false) else (t.drop q, true)

def applyItem (remote : Snapshot) (stamp : Stamp) (s : Sides) : PlanItem → Sides × Bool
  | .put rel =>
    let r := uploadFile links stamp s.loc s.rem rel
    (⟨s.loc, r.1⟩, r.2)
  | .get rel =>
    match remote[rel]? with
    | some m =>
      let r := downloadFile links stamp s.rem s.loc rel m
      (⟨r.1, s.rem⟩, r.2)
    | none => (s, true)
  | .deleteLocal rel => (⟨removeLocal links s.loc rel, s.rem⟩, true)
  | .deleteRemote rel =>
    match remote[rel]? with
    | some m =>
      let r := remove links s.rem rel (m.kind = .dir)
      (⟨s.loc, r.1⟩, r.2)
    | none => (s, true)
  | .conflict _ => (s, true)

end Calls

section Commands
variable (links : Links) (sha : List UInt8 → String) (ignore : List String)

def snapshot (t : Tree) : Snapshot :=
  collect (fun rel n => if shouldIgnoreRel ignore rel || providerNoise rel then none else entryMeta sha n) t.nodes

def push (env : Env) (delete : Bool) (s : Sides) : Sides × Bool :=
  let loc := scan sha ignore s.loc
  let remote := snapshot sha ignore s.rem
  match ensureDirs links (fun d => (env.stamp d).dirMode) s.rem loc.dirs with
  | (r, true) => runItems (applyItem links remote) env ⟨s.loc, r⟩ (pushItems loc remote delete)
  | (r, false) => (⟨s.loc, r⟩, false)

def pull (env : Env) (delete : Bool) (s : Sides) : Sides × Bool :=
  let loc := scan sha ignore s.loc
  let remote := snapshot sha ignore s.rem
  match ensureDirs links (fun d => (env.stamp d).dirMode) s.loc remote.dirs with
  | (l, true) => runItems (applyItem links remote) env ⟨l, s.rem⟩ (pullItems loc remote delete)
  | (l, false) => (⟨l, s.rem⟩, false)

end Commands

/-! ## What the items do -/

section Items
variable {links : Links} {sha : List UInt8 → String} {ignore : List String} {stamp : Stamp} {t : Tree} {p : String}
  {srcSnap dstSnap : Snapshot}

theorem get?_snapshot (t : Tree) (p : String) :
    (snapshot sha ignore t)[p]? =
      if shouldIgnoreRel ignore p || providerNoise p then none else (t.node p).bind (entryMeta sha) := by
  rw [snapshot, get?_collect]
  cases h : shouldIgnoreRel ignore p || providerNoise p with
  | true => cases t.nodes[p]? <;> rfl
  | false => rfl

theorem sound_snapshot : Sound sha (snapshot sha ignore t) t := by
  intro p m hm
  rw [get?_snapshot] at hm
  split at hm
  · cases hm
  · exact Option.bind_eq_some_iff.1 hm

theorem snapshot_of_node {n : Node} {m : EntryMeta} (hp : shouldIgnoreRel ignore p = false) (hn : t.node p = some n)
    (hmeta : entryMeta sha n = some m) :
    (snapshot sha ignore t)[p]? = if providerNoise p then none else some m := by
  rw [get?_snapshot, hp, hn, Bool.false_or, Option.bind_some, hmeta]

theorem putLink_installs {target : String} (hp : t.Plain p) :
    Installs t (putLink links stamp t p target).1 p (.symlink target stamp.linkMode stamp.mtime)
      (putLink links stamp t p target).2 := by
  unfold putLink
  rw [links.locate_plain t p hp, Option.bind_some]
  cases h : t.place p (.symlink target stamp.linkMode stamp.mtime) with
  | none => exact (AddsDirs.refl t _).installs
  | some t' =>
    obtain ⟨-, hd, hnode⟩ := Tree.place_eq_some h
    refine ⟨fun q => ?_, fun _ => by simp [hnode]⟩
    by_cases hq : q = p
    · exact .inr (.inr ⟨hq, rfl, hq ▸ hd⟩)
    · exact .inl (by rw [hnode, if_neg hq])

theorem putLink_ok {target : String} (hd : ∀ d, below d p = true → t.isDir d = true) (hp : t.isDir p = false) :
    (putLink links stamp t p target).2 = true := by
  obtain ⟨t', ht'⟩ := Tree.place_isSome (.symlink target stamp.linkMode stamp.mtime) hd hp
  unfold putLink
  rw [links.locate_plain t p fun d hb => Tree.isLink_of_isDir (hd d hb), Option.bind_some, ht']

theorem putLink_inPlace {target q : String} {n : Node} (hn : t.node q = some n) :
    InPlace n ((putLink links stamp t p target).1.node q) := by
  unfold putLink
  split
  · rename_i t' h
    obtain ⟨r, -, hr⟩ := Option.bind_eq_some_iff.1 h
    exact place_inPlace rfl hr hn
  · exact ⟨n, hn, .inl rfl⟩

theorem copyFile_inPlace {source : Option (List UInt8)} {made : List UInt8 → Node} {q : String} {n : Node}
    (hmade : ∀ data, (made data).carried = true) (hn : t.node q = some n) :
    InPlace n ((copyFile links stamp t p source made).1.node q) := by
  unfold copyFile
  split
  · exact install_inPlace (hmade _) hn
  · cases h : createDirs links stamp.dirMode t (ancestors p) with
    | none => exact ⟨n, hn, .inl rfl⟩
    | some t' => exact (createDirs_adds h).inPlace hn

theorem readFile_of_node {data : List UInt8} {mode : Nat} {mtime : Int} (hn : t.node p = some (.file data mode mtime)) :
    readFile links t p = some data := by
  rw [readFile, lookup_of_node hn]

/-- What is put in the place of a file or link has its contents or target. -/
theorem uploadFile_spec {loc rem : Tree} {n : Node} {m : EntryMeta} (hn : loc.node p = some n)
    (hmeta : entryMeta sha n = some m) (hk : m.kind.carried = true) :
    (rem.Plain p → ∃ n', n'.bare = n.bare ∧
      Installs rem (uploadFile links stamp loc rem p).1 p n' (uploadFile links stamp loc rem p).2) ∧
    ((∀ d, below d p = true → rem.isDir d = true) → rem.isDir p = false → (uploadFile links stamp loc rem p).2 = true) := by
  unfold uploadFile
  rw [lookup_of_node hn]
  cases n with
  | file data mode mtime =>
    simp only [readFile_of_node hn, copyFile]
    exact ⟨fun hp => ⟨_, uploaded_bare stamp _, install_spec hp⟩, fun hd hp => (install_of_isDir links stamp _ hd hp).1⟩
  | symlink target mode mtime => exact ⟨fun hp => ⟨_, uploaded_bare stamp _, putLink_installs hp⟩, putLink_ok⟩
  | dir mode => cases hmeta; cases hk
  | other => cases hmeta

theorem downloadFile_spec {rem loc : Tree} {n : Node} {m : EntryMeta} (hn : rem.node p = some n)
    (hmeta : entryMeta sha n = some m) (hk : m.kind.carried = true) :
    (loc.Plain p → ∃ n', n'.bare = n.bare ∧
      Installs loc (downloadFile links stamp rem loc p m).1 p n' (downloadFile links stamp rem loc p m).2) ∧
    ((∀ d, below d p = true → loc.isDir d = true) → loc.isDir p = false →
      (downloadFile links stamp rem loc p m).2 = true) := by
  unfold downloadFile
  cases n with
  | file data mode mtime =>
    cases hmeta
    simp only [readFile_of_node hn, copyFile]
    exact ⟨fun hp => ⟨_, downloaded_bare stamp _, install_spec hp⟩, fun hd hp => (install_of_isDir links stamp _ hd hp).1⟩
  | symlink target mode mtime =>
    cases hmeta
    exact ⟨fun hp => ⟨_, downloaded_bare stamp _, putLink_installs hp⟩, putLink_ok⟩
  | dir mode => cases hmeta; cases hk
  | other => cases hmeta

theorem uploadFile_inPlace {loc rem : Tree} {q : String} {n : Node} (hn : rem.node q = some n) :
    InPlace n ((uploadFile links stamp loc rem p).1.node q) := by
  unfold uploadFile
  split
  · exact ⟨n, hn, .inl rfl⟩
  · exact putLink_inPlace hn
  · exact copyFile_inPlace (fun _ => rfl) hn

theorem downloadFile_inPlace {rem loc : Tree} {q : String} {m : EntryMeta} {n : Node} (hn : loc.node q = some n) :
    InPlace n ((downloadFile links stamp rem loc p m).1.node q) := by
  unfold downloadFile
  split
  · split
    · exact putLink_inPlace hn
    · exact ⟨n, hn, .inl rfl⟩
  · exact copyFile_inPlace (fun _ => rfl) hn

theorem remove_plain (links : Links) (dir : Bool) (hp : t.Plain p) :
    (remove links t p dir = (t, true) ∧ (t.node p = none ∨ links.Dangling t p)) ∨
    (remove links t p dir = (t.drop p, true) ∧ ¬ links.Dangling t p) ∨
    (remove links t p dir = (t, false) ∧ ∃ n, t.node p = some n ∧ n.isDir = !dir) := by
  unfold remove
  rw [links.locate_plain t p hp]
  cases hn : t.node p with
  | none => simp [hn]
  | some n =>
    cases n <;> cases dir <;> cases hl : links.leadsSomewhere t p <;>
      simp [hn, hl, Links.Dangling, Tree.isLink, Node.isLink, Node.isDir]

end Items

section OneWay
variable {links : Links} {srcSnap dstSnap : Snapshot}

theorem oneWay_push (sha : List UInt8 → String) :
    OneWay sha srcSnap dstSnap (applyItem links dstSnap) Sides.loc Sides.rem .put .deleteRemote links.Dangling where
  carry_path _ := rfl
  remove_path _ := rfl
  carry_ne _ := nofun
  carry_src _ _ _ := rfl
  remove_src st s p := by
    simp only [applyItem]
    split <;> rfl
  carry_spec st s p m n hm hk hn hmeta hplain := (uploadFile_spec hn hmeta hk).1 hplain
  carry_ok st s p m n hm hk hn hmeta hd hp := (uploadFile_spec hn hmeta hk).2 hd hp
  carry_keeps st s p q n hn := uploadFile_inPlace hn
  remove_spec st s p hp hplain := by
    obtain ⟨m, hm⟩ := Option.ne_none_iff_exists'.1 hp
    simp only [applyItem, hm]
    rcases remove_plain links (decide (m.kind = .dir)) hplain with ⟨e, hno⟩ | ⟨e, -⟩ | ⟨e, -⟩
    · rw [e]
      exact .inr ⟨rfl, hno.imp_right .inr⟩
    · rw [e]
      exact .inl rfl
    · rw [e]
      exact .inr ⟨rfl, .inr (.inl rfl)⟩
  remove_ok st s p m hm hplain hd := by
    simp only [applyItem, hm]
    rcases remove_plain links (decide (m.kind = .dir)) hplain with ⟨e, -⟩ | ⟨e, -⟩ | ⟨e, n, hn, hnd⟩
    · rw [e]
    · rw [e]
    · have := hd n hn
      by_cases hk : m.kind = .dir <;> simp [hk, hnd] at this
  remove_stays st s p hplain hs := by
    cases hm : dstSnap[p]? with
    | none => simp only [applyItem, hm]
    | some m =>
      simp only [applyItem, hm]
      rcases remove_plain links (decide (m.kind = .dir)) hplain with ⟨e, -⟩ | ⟨-, hno⟩ | ⟨e, -⟩
      · rw [e]
      · exact absurd hs hno
      · rw [e]
  stays_link _ _ hs := hs.1

/-- What `pull` deletes it deletes as with the daemon. -/
theorem oneWay_pull (sha : List UInt8 → String) :
    OneWay sha srcSnap dstSnap (applyItem links srcSnap) Sides.rem Sides.loc .get .deleteLocal links.Dangling :=
  have h : OneWay sha srcSnap dstSnap (Mobfs.applyItem links srcSnap) Sides.rem Sides.loc .get .deleteLocal
    links.Dangling := Mobfs.oneWay_pull
  { carry_path := h.carry_path
    remove_path := h.remove_path
    carry_ne := h.carry_ne
    carry_src := by
      intro st s p
      simp only [applyItem]
      split <;> rfl
    remove_src := h.remove_src
    carry_spec := by
      intro st s p m n hm hk hn hmeta hplain
      simp only [applyItem, hm]
      exact (downloadFile_spec hn hmeta hk).1 hplain
    carry_ok := by
      intro st s p m n hm hk hn hmeta hd hp
      simp only [applyItem, hm]
      exact (downloadFile_spec hn hmeta hk).2 hd hp
    carry_keeps := by
      intro st s p q n hn
      cases hm : srcSnap[p]? with
      | none =>
        simp only [applyItem, hm]
        exact ⟨n, hn, .inl rfl⟩
      | some m =>
        simp only [applyItem, hm]
        exact downloadFile_inPlace hn
    remove_spec := h.remove_spec
    remove_ok := h.remove_ok
    remove_stays := h.remove_stays
    stays_link := h.stays_link }

end OneWay

/-! ## What `push` stores -/

/-- An entry that `local::snapshot` lists. -/
def Listed (ignore : List String) (t : Tree) (p : String) (n : Node) : Prop :=
  shouldIgnoreRel ignore p = false ∧ t.node p = some n ∧ n ≠ .other

/-- What is listed locally the folder has, with the same contents or the same
metadata. -/
def Stored (sha : List UInt8 → String) (ignore : List String) (loc rem : Tree) : Prop :=
  ∀ p n, Listed ignore loc p n → ∃ n', rem.node p = some n' ∧
    (n'.bare = n.bare ∨ entryMeta sha n' = entryMeta sha n)

section Push
variable {links : Links} {sha : List UInt8 → String} {ignore : List String} {env : Env} {delete : Bool} {s : Sides}
  {loc rem : Tree} {p : String} {n : Node}

theorem Listed.scan (sha : List UInt8 → String) (h : Listed ignore loc p n) :
    ∃ m, (scan sha ignore loc)[p]? = some m ∧ entryMeta sha n = some m :=
  scan_of_node sha h.1 h.2.1 h.2.2

theorem listed_of_scan {m : EntryMeta} (h : (scan sha ignore loc)[p]? = some m) :
    ∃ n, Listed ignore loc p n ∧ entryMeta sha n = some m := by
  obtain ⟨hi, n, hn, hm⟩ := node_of_scan h
  refine ⟨n, ⟨hi, hn, ?_⟩, hm⟩
  rintro rfl
  cases hm

/-- What is stored is of the kind it has locally. -/
theorem Stored.kind (h : Stored sha ignore loc rem) (hl : Listed ignore loc p n) :
    ∃ n' m', rem.node p = some n' ∧ entryMeta sha n' = some m' ∧ n'.isDir = n.isDir ∧ n'.isLink = n.isLink := by
  obtain ⟨n', hn', hb | hm⟩ := h p n hl
  · have hmeta : ∃ m', entryMeta sha n' = some m' := by
      cases n' with
      | other =>
        cases n with
        | other => exact absurd rfl hl.2.2
        | _ => cases hb
      | _ => exact ⟨_, rfl⟩
    obtain ⟨m', hm'⟩ := hmeta
    exact ⟨n', m', hn', hm', Node.isDir_of_bare hb, Node.isLink_of_bare hb⟩
  · obtain ⟨m, -, hm'⟩ := hl.scan sha
    rw [hm'] at hm
    exact ⟨n', m, hn', hm, by rw [entryMeta_isDir hm, entryMeta_isDir hm'],
      by rw [entryMeta_isLink hm, entryMeta_isLink hm']⟩

theorem push_eq (links : Links) (sha : List UInt8 → String) (ignore : List String) (env : Env) (delete : Bool) (s : Sides) :
    let made := ensureDirs links (fun d => (env.stamp d).dirMode) s.rem (scan sha ignore s.loc).dirs
    push links sha ignore env delete s =
      if made.2 then runItems (applyItem links (snapshot sha ignore s.rem)) env ⟨s.loc, made.1⟩
        (carryItems .put .deleteRemote (scan sha ignore s.loc) (snapshot sha ignore s.rem) delete)
      else (⟨s.loc, made.1⟩, false) := by
  intro made
  simp only [push, pushItems]
  rcases hmade : ensureDirs links (fun d => (env.stamp d).dirMode) s.rem (scan sha ignore s.loc).dirs with ⟨r, ok⟩
  simp only [made, hmade]
  cases ok <;> rfl

theorem push_loc : (push links sha ignore env delete s).1.loc = s.loc := by
  rw [push_eq]
  split
  · exact (oneWay_push sha).run_src
  · rfl

theorem node_ne_none_of_snapshot {t : Tree} (h : (snapshot sha ignore t)[p]? ≠ none) : t.node p ≠ none := by
  obtain ⟨m, hm⟩ := Option.ne_none_iff_exists'.1 h
  obtain ⟨n, hn, -⟩ := sound_snapshot p m hm
  simp [hn]

/-- A link that stands in the folder where there is a local entry is still there after
`push`, or a file or another link is. -/
theorem push_keeps_link (hpush : (push links sha ignore env delete s).2 = true) (hl : Listed ignore s.loc p n)
    (hlink : s.rem.isLink p = true) :
    ∃ n', (push links sha ignore env delete s).1.rem.node p = some n' ∧ n'.carried = true := by
  obtain ⟨n0, hn0, hl0⟩ := Tree.isLink_iff.1 hlink
  rw [push_eq] at hpush ⊢
  have hadds : AddsDirs s.rem (ensureDirs links (fun d => (env.stamp d).dirMode) s.rem (scan sha ignore s.loc).dirs).1
      fun _ => True := ensureDirs_adds
  generalize ensureDirs links (fun d => (env.stamp d).dirMode) s.rem (scan sha ignore s.loc).dirs = made at *
  by_cases hmade : made.2 = true
  · rw [if_pos hmade]
    have hsound : ∀ p, (snapshot sha ignore s.rem)[p]? ≠ none → (Sides.rem ⟨s.loc, made.1⟩).node p ≠ none :=
      fun q hq => hadds.node_ne_none (node_ne_none_of_snapshot hq)
    rcases (oneWay_push sha).run_place hsound p n0 (hadds.node_eq hn0) with ⟨n', hn', rfl | ⟨-, hc⟩⟩ | ⟨-, d, hd, hpd⟩
    · refine ⟨n', hn', ?_⟩
      cases n' with
      | symlink target mode mtime => rfl
      | _ => cases hl0
    · exact ⟨n', hn', hc⟩
    · obtain ⟨m, hm, -⟩ := hl.scan sha
      rw [scan_none_below hpd hd.2.2] at hm
      cases hm
  · rw [if_neg hmade] at hpush
    cases hpush

/-- Where no local directory is a link in the folder, `push` stores what is listed. -/
theorem push_stored (hlinks : ∀ d n, Listed ignore s.loc d n → n.isDir = true → s.rem.isLink d = false)
    (hpush : (push links sha ignore env delete s).2 = true) :
    Stored sha ignore s.loc (push links sha ignore env delete s).1.rem := by
  have hnolink : ∀ d ∈ (scan sha ignore s.loc).dirs, ∀ e, Upto d e → s.rem.isLink e = false := by
    intro d hd e he
    obtain ⟨m, hm, hk⟩ := mem_dirs.1 hd
    have hdir : s.loc.isDir d = true := by
      rw [isDir_of_scan hm, hk]
      rfl
    have hde : s.loc.isDir e = true := by
      rcases he with rfl | he
      · exact hdir
      · exact Tree.isDir_of_below he (Tree.node_ne_none_of_isDir hdir)
    obtain ⟨n, hn, hnd⟩ := Tree.isDir_iff.1 hde
    refine hlinks e n ⟨not_ignored_of_upto (node_of_scan hm).1 he, hn, ?_⟩ hnd
    rintro rfl
    cases hnd
  obtain ⟨hadds, hdirs⟩ := ensureDirs_spec links (fun d => (env.stamp d).dirMode) hnolink
  rw [push_eq] at hpush ⊢
  generalize ensureDirs links (fun d => (env.stamp d).dirMode) s.rem (scan sha ignore s.loc).dirs = made at *
  by_cases hmade : made.2 = true
  · rw [if_pos hmade] at hpush ⊢
    have hdirs' : ∀ q m, (scan sha ignore s.loc)[q]? = some m → m.kind = .dir →
        (Sides.rem ⟨s.loc, made.1⟩).isDir q = true := fun q m hq hk => hdirs hmade q (mem_dirs.2 ⟨m, hq, hk⟩)
    have hplain : ∀ p, Carried (scan sha ignore s.loc) (snapshot sha ignore s.rem) p → made.1.Plain p := by
      rintro p ⟨m, hm, -⟩ d hd
      obtain ⟨md, hmd, hk⟩ := scan_dir_of_below hd (Option.ne_none_iff_exists'.2 ⟨m, hm⟩)
      exact Tree.isLink_of_isDir (hdirs' d md hmd hk)
    have hdst : Sound sha (snapshot sha ignore s.rem) (Sides.rem ⟨s.loc, made.1⟩) := by
      intro q m hq
      obtain ⟨n, hn, hm⟩ := sound_snapshot q m hq
      exact ⟨n, hadds.node_eq hn, hm⟩
    intro p n hl
    obtain ⟨m, hm, hmeta⟩ := hl.scan sha
    obtain ⟨n1, n', hn1, -, hn', hsame⟩ := (oneWay_push sha).run_source sound_scan
      (fits_of_plain hplain fun q hq => hadds.node_ne_none (node_ne_none_of_snapshot hq)) hdst hdirs'
      (fun d q hd hq => scan_none_below hq hd) hm hpush
    obtain rfl : n = n1 := Option.some.inj (hl.2.1.symm.trans hn1)
    exact ⟨n', hn', hsame.imp_right fun h => by rw [h.2, hmeta]⟩
  · rw [if_neg hmade] at hpush
    cases hpush

end Push

/-! ## What `pull` leaves -/

/-- No file or directory that is listed has a name the provider's files have. -/
def NoNoise (ignore : List String) (t : Tree) : Prop :=
  ∀ p n, Listed ignore t p n → n.isLink = false → providerNoise p = false

/-- All that is listed in `t` is in `t'` with its contents; links with such names may
or may not be. -/
def KeepsListed (ignore : List String) (t t' : Tree) : Prop :=
  ∀ p n, Listed ignore t p n → (n.isLink = true → providerNoise p = false) → ∃ n', t'.node p = some n' ∧ n'.bare = n.bare

section Pull
variable {links : Links} {sha : List UInt8 → String} {ignore : List String} {env : Env} {delete : Bool} {s : Sides}
  {p : String} {n : Node}

theorem pull_eq (links : Links) (sha : List UInt8 → String) (ignore : List String) (env : Env) (delete : Bool) (s : Sides) :
    let made := ensureDirs links (fun d => (env.stamp d).dirMode) s.loc (snapshot sha ignore s.rem).dirs
    pull links sha ignore env delete s =
      if made.2 then runItems (applyItem links (snapshot sha ignore s.rem)) env ⟨made.1, s.rem⟩
        (carryItems .get .deleteLocal (snapshot sha ignore s.rem) (scan sha ignore s.loc) delete)
      else (⟨made.1, s.rem⟩, false) := by
  intro made
  simp only [pull, pullItems]
  rcases hmade : ensureDirs links (fun d => (env.stamp d).dirMode) s.loc (snapshot sha ignore s.rem).dirs with ⟨l, ok⟩
  simp only [made, hmade]
  cases ok <;> rfl

/-- A `pull` that completes found no file or link in the folder where it has a
directory that is no noise. -/
theorem pull_blocked (hl : Listed ignore s.loc p n) (hd : n.isDir = true) (hnoise : providerNoise p = false)
    {n' : Node} (hn' : s.rem.node p = some n') (hc : n'.carried = true) :
    (pull links sha ignore env delete s).2 = false := by
  obtain ⟨m, hm, hmeta⟩ := hl.scan sha
  have hcar : Carried (snapshot sha ignore s.rem) (scan sha ignore s.loc) p := by
    obtain ⟨m', hm'⟩ : ∃ m', entryMeta sha n' = some m' := by
      cases n' <;> first | exact ⟨_, rfl⟩ | cases hc
    have hk : m'.kind.carried = true := by rw [← entryMeta_carried hm', hc]
    refine ⟨m', ?_, hk, ?_⟩
    · rw [snapshot_of_node hl.1 hn' hm', hnoise]
      rfl
    · rw [hm]
      rintro h
      obtain rfl : m = m' := Option.some.inj h
      rw [← entryMeta_carried hmeta] at hk
      rw [Node.not_dir_of_carried hk] at hd
      cases hd
  rw [pull_eq]
  have hadds : AddsDirs s.loc
      (ensureDirs links (fun d => (env.stamp d).dirMode) s.loc (snapshot sha ignore s.rem).dirs).1 fun _ => True :=
    ensureDirs_adds
  generalize ensureDirs links (fun d => (env.stamp d).dirMode) s.loc (snapshot sha ignore s.rem).dirs = made at *
  by_cases hmade : made.2 = true
  · rw [if_pos hmade]
    exact (oneWay_pull sha).run_blocked sound_snapshot hcar (hadds.isDir (Tree.isDir_iff.2 ⟨n, hl.2.1, hd⟩))
  · rw [if_neg hmade]

/-- A `pull` that deletes and completes has removed what is noise, or left a link
there. -/
theorem pull_loses (hpull : (pull links sha ignore env true s).2 = true) (hl : Listed ignore s.loc p n)
    (hnoise : providerNoise p = true) :
    (pull links sha ignore env true s).1.loc.node p = none ∨ (pull links sha ignore env true s).1.loc.isLink p = true := by
  obtain ⟨m, hm, -⟩ := hl.scan sha
  have hr : Removed true (snapshot sha ignore s.rem) (scan sha ignore s.loc) p := by
    refine ⟨rfl, by simp [hm], ?_⟩
    rw [get?_snapshot, hnoise, Bool.or_true]
    rfl
  rw [pull_eq] at hpull ⊢
  have hadds : AddsDirs s.loc
      (ensureDirs links (fun d => (env.stamp d).dirMode) s.loc (snapshot sha ignore s.rem).dirs).1 fun _ => True :=
    ensureDirs_adds
  generalize ensureDirs links (fun d => (env.stamp d).dirMode) s.loc (snapshot sha ignore s.rem).dirs = made at *
  by_cases hmade : made.2 = true
  · rw [if_pos hmade] at hpull ⊢
    have hsound : ∀ p, (scan sha ignore s.loc)[p]? ≠ none → (Sides.loc ⟨made.1, s.rem⟩).node p ≠ none :=
      fun q hq => hadds.node_ne_none (node_ne_none_of_scan hq)
    rcases (oneWay_pull sha).run_removed hsound hr hpull with hgone | ⟨pre, post, -, hstay, hsame⟩
    · exact .inl hgone
    · right
      rw [Tree.isLink, hsame]
      exact hstay.1
  · rw [if_neg hmade] at hpull
    cases hpull

section Keeps
variable (hnoise : NoNoise ignore s.loc) (hst : Stored sha ignore s.loc s.rem)
include hnoise hst

/-- What is to be deleted is a link. -/
theorem removed_isLink (hr : Removed true (snapshot sha ignore s.rem) (scan sha ignore s.loc) p) :
    ∃ n, Listed ignore s.loc p n ∧ n.isLink = true ∧ providerNoise p = true := by
  obtain ⟨m, hm⟩ := Option.ne_none_iff_exists'.1 hr.2.1
  obtain ⟨n, hl, -⟩ := listed_of_scan hm
  obtain ⟨n', m', hn', hmeta', -⟩ := hst.kind hl
  have hnone := hr.2.2
  rw [snapshot_of_node hl.1 hn' hmeta'] at hnone
  cases hp : providerNoise p with
  | false =>
    rw [hp] at hnone
    cases hnone
  | true =>
    refine ⟨n, hl, ?_, rfl⟩
    by_contra hlink
    rw [hnoise p n hl (by simpa using hlink)] at hp
    cases hp

/-- What the folder lists in a directory is not in the way of a local link. -/
theorem fits_pull {made : Tree} (hadds : AddsDirs s.loc made fun _ => True) :
    Fits made (Carried (snapshot sha ignore s.rem) (scan sha ignore s.loc))
      (Removed true (snapshot sha ignore s.rem) (scan sha ignore s.loc)) := by
  have hrem : ∀ p d, Carried (snapshot sha ignore s.rem) (scan sha ignore s.loc) p → below d p = true →
      s.rem.isDir d = true := by
    rintro p d ⟨m, hm, -⟩ hd
    obtain ⟨n, hn, -⟩ := sound_snapshot p m hm
    exact Tree.isDir_of_below hd (by simp [hn])
  -- A link on the local side is stored as one, so it is no directory of the folder.
  have hnolink : ∀ p d n, Carried (snapshot sha ignore s.rem) (scan sha ignore s.loc) p → below d p = true →
      Listed ignore s.loc d n → n.isLink = false := by
    intro p d n hp hd hl
    obtain ⟨n', m', hn', -, -, hlink⟩ := hst.kind hl
    have hdir := Tree.isLink_of_isDir (hrem p d hp hd)
    rw [Tree.isLink, hn'] at hdir
    exact hlink.symm.trans hdir
  have hvis : ∀ p, Carried (snapshot sha ignore s.rem) (scan sha ignore s.loc) p → shouldIgnoreRel ignore p = false := by
    rintro p ⟨m, hm, -⟩
    rw [get?_snapshot] at hm
    by_contra hi
    rw [Bool.not_eq_false] at hi
    rw [hi] at hm
    cases hm
  refine ⟨?_, ?_, ?_, ?_⟩
  · intro p hp d hd
    rw [hadds.isLink]
    by_contra hlink
    obtain ⟨n, hn, hln⟩ := Tree.isLink_iff.1 (by simpa using hlink)
    have := hnolink p d n hp hd ⟨not_ignored_of_upto (hvis p hp) (.inr hd), hn, by rintro rfl; cases hln⟩
    rw [hln] at this
    cases this
  · intro p d hp hd hd'
    obtain ⟨m, hm, hk, -⟩ := hd'
    obtain ⟨n, hn, hmeta⟩ := sound_snapshot d m hm
    have hdir := hrem p d hp hd
    rw [Tree.isDir, hn, show Option.any Node.isDir (some n) = n.isDir from rfl,
      Node.not_dir_of_carried (by rw [entryMeta_carried hmeta, hk])] at hdir
    cases hdir
  · intro p d hp hd hr
    rcases hd with rfl | hd
    · obtain ⟨m, hm, -⟩ := hp
      rw [hr.2.2] at hm
      cases hm
    · obtain ⟨n, hl, hln, -⟩ := removed_isLink hnoise hst hr
      rw [hnolink p d n hp hd hl] at hln
      cases hln
  · intro p hr
    exact hadds.node_ne_none (node_ne_none_of_scan hr.2.1)

/-- Where nothing is noise and all is stored, `pull` keeps what is listed, wherever it
stops. -/
theorem pull_keeps : KeepsListed ignore s.loc (pull links sha ignore env true s).1.loc := by
  intro p n hl hquiet
  rw [pull_eq]
  have hadds : AddsDirs s.loc
      (ensureDirs links (fun d => (env.stamp d).dirMode) s.loc (snapshot sha ignore s.rem).dirs).1 fun _ => True :=
    ensureDirs_adds
  generalize ensureDirs links (fun d => (env.stamp d).dirMode) s.loc (snapshot sha ignore s.rem).dirs = made at *
  have hmaden : made.1.node p = some n := hadds.node_eq hl.2.1
  by_cases hmade : made.2 = true
  · rw [if_pos hmade]
    have hkept : ∀ d, Removed true (snapshot sha ignore s.rem) (scan sha ignore s.loc) d →
        ¬ (p = d ∨ below d p = true) := by
      intro d hr hpd
      obtain ⟨nd, hld, hlink, hdn⟩ := removed_isLink hnoise hst hr
      rcases hpd with rfl | hpd
      · obtain rfl : nd = n := Option.some.inj (hld.2.1.symm.trans hl.2.1)
        rw [hquiet hlink] at hdn
        cases hdn
      · have hdir := Tree.isLink_of_isDir (Tree.isDir_of_below hpd (by simp [hl.2.1] : s.loc.node p ≠ none))
        rw [Tree.isLink, hld.2.1] at hdir
        rw [show Option.any Node.isLink (some nd) = nd.isLink from rfl, hlink] at hdir
        cases hdir
    have hf : Fits (Sides.loc ⟨made.1, s.rem⟩) (Carried (snapshot sha ignore s.rem) (scan sha ignore s.loc))
        (Removed true (snapshot sha ignore s.rem) (scan sha ignore s.loc)) := fits_pull hnoise hst hadds
    rcases ((oneWay_pull sha).run_along sound_snapshot hf).along.frame p (by simp [hmaden]) hkept with
      e | ⟨⟨m, hm, -, hne⟩, n1, n2, hn1, hn2, hbare⟩
    · exact ⟨n, e.trans hmaden, rfl⟩
    · -- What was fetched is what `push` stored, since it looks different.
      refine ⟨n2, hn2, ?_⟩
      obtain ⟨n', hn', hsame⟩ := hst p n hl
      obtain rfl : n1 = n' := Option.some.inj (hn1.symm.trans hn')
      rcases hsame with hb | hmeta
      · rw [hbare, hb]
      · obtain ⟨m0, hm0, hmeta0⟩ := hl.scan sha
        obtain ⟨n3, hn3, hmeta3⟩ := sound_snapshot p m hm
        obtain rfl : n3 = n1 := Option.some.inj (hn3.symm.trans hn1)
        rw [hmeta3, hmeta0] at hmeta
        exact absurd (hmeta ▸ hm0) hne
  · rw [if_neg hmade]
    exact ⟨n, hmaden, rfl⟩

end Keeps

end Pull

/-- `push`, completed, and then `pull` with `delete`. What is stored under a listed
path the folder lists exactly if it is no noise. If `pull` completes, what is listed
locally is kept exactly if no file or directory of it is noise. Then it is kept also
if `pull` stops, provided that no local directory was a link in the folder. -/
theorem folder_keeps_iff (links : Links) (sha : List UInt8 → String) (ignore : List String) (delete : Bool)
    (env env' : Env) (s : Sides) (hpush : (push links sha ignore env delete s).2 = true) :
    let stored := (push links sha ignore env delete s).1
    let pulled := pull links sha ignore env' true stored
    (∀ p n, Listed ignore s.loc p n → (∃ n', stored.rem.node p = some n' ∧ n' ≠ .other) →
      ((snapshot sha ignore stored.rem)[p]? ≠ none ↔ providerNoise p = false)) ∧
    (pulled.2 = true → (KeepsListed ignore s.loc pulled.1.loc ↔ NoNoise ignore s.loc)) ∧
    (NoNoise ignore s.loc → (∀ d n, Listed ignore s.loc d n → n.isDir = true → s.rem.isLink d = false) →
      KeepsListed ignore s.loc pulled.1.loc) := by
  intro stored pulled
  have hloc : stored.loc = s.loc := push_loc
  have hkeeps : NoNoise ignore s.loc → (∀ d n, Listed ignore s.loc d n → n.isDir = true → s.rem.isLink d = false) →
      KeepsListed ignore s.loc pulled.1.loc := by
    intro hnoise hlinks
    have hst : Stored sha ignore s.loc stored.rem := push_stored hlinks hpush
    rw [← hloc] at hnoise hst ⊢
    exact pull_keeps hnoise hst
  refine ⟨?_, ?_, hkeeps⟩
  · rintro p n hl ⟨n', hn', ho⟩
    obtain ⟨m', hm'⟩ : ∃ m', entryMeta sha n' = some m' := by
      cases n' with
      | other => exact absurd rfl ho
      | _ => exact ⟨_, rfl⟩
    rw [snapshot_of_node hl.1 hn' hm']
    cases providerNoise p <;> simp
  · intro hpull
    refine ⟨?_, fun hnoise => hkeeps hnoise ?_⟩
    · intro hk p n hl hlink
      by_contra hnoise
      obtain ⟨n', hn', hb⟩ := hk p n hl (by simp [hlink])
      rcases pull_loses hpull (hloc.symm ▸ hl) (by simpa using hnoise) with hgone | hleft
      · rw [show pulled.1.loc.node p = none from hgone] at hn'
        cases hn'
      · rw [Tree.isLink, show pulled.1.loc.node p = some n' from hn'] at hleft
        rw [← Node.isLink_of_bare hb] at hlink
        exact Bool.false_ne_true (hlink.symm.trans hleft)
    · -- A link there would still be in the way of what is fetched.
      intro d n hl hd
      by_contra hlink
      obtain ⟨n', hn', hc⟩ := push_keeps_link hpush hl (by simpa using hlink)
      have hno : n.isLink = false := by
        cases n with
        | dir mode => rfl
        | _ => cases hd
      have hfail : pulled.2 = false := pull_blocked (hloc.symm ▸ hl) hd (hnoise d n hl hno) hn' hc
      rw [hfail] at hpull
      cases hpull

/-- The directory of `docs` is kept. -/
theorem folder_keeps_docs :
    (push brokenLinks (fun _ => "") [] calmEnv false ⟨docs, .empty⟩).2 = true ∧ NoNoise [] docs ∧
    KeepsListed [] docs (pull brokenLinks (fun _ => "") [] calmEnv true
      (push brokenLinks (fun _ => "") [] calmEnv false ⟨docs, .empty⟩).1).1.loc := by
  have hnoise : NoNoise [] docs := by
    have hall : ∀ p ∈ docs.paths, providerNoise p = false := by decide +kernel
    exact fun p n hl _ => hall p (Tree.mem_paths.2 (by simp [hl.2.1]))
  have hpush : (push brokenLinks (fun _ => "") [] calmEnv false ⟨docs, .empty⟩).2 = true := by decide
  refine ⟨hpush, hnoise, (folder_keeps_iff brokenLinks (fun _ => "") [] false calmEnv calmEnv ⟨docs, .empty⟩ hpush).2.2
    hnoise ?_⟩
  intro d n _ _
  rfl

/-- A file `notes.tmp` is stored in the folder, and the next `pull` deletes it. -/
theorem pull_deletes_stored :
    let s : Sides := ⟨.build [("notes.tmp", .file [1] 420 5)], .empty⟩
    let stored := push brokenLinks (fun _ => "") [] calmEnv false s
    let pulled := pull brokenLinks (fun _ => "") [] calmEnv true stored.1
    stored.2 = true ∧ stored.1.rem.node "notes.tmp" = some (.file [1] 420 9) ∧ pulled.2 = true ∧
      pulled.1.loc.node "notes.tmp" = none := by
  decide

end FolderClient

end Mobfs
