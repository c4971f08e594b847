import Mobfs.Sync.Bases
/-!
# Known versions

A sync that finds the remote entry of a path as the base has it takes the local one
for newer, and uploads or deletes. That is right if the remote version is one that
local has had, or the user has edited the local copy since: `Known`.

An edit of the local tree and every piece of work of a sync leave a known path known
(`Known.move`, `known_work`); only a remote edit can make it unknown.
-/

namespace Mobfs

open Std Lib

namespace Workspace

section Known
variable (sha : List UInt8 → String) (ignore : List String)

/-- The remote version of the path is the one local had when both were last equal,
or the user has edited the local copy since, or there is no remote entry. -/
def Known (s : Workspace) (p : String) : Prop :=
  s.dirty p = true ∨ (scan sha ignore s.rem)[p]? = none ∨ (scan sha ignore s.rem).version p = s.seen p

/-- The step changes or deletes a remote version that local has not had, of a path
the user has not edited. -/
def LosesEdit (s s' : Workspace) (p : String) : Prop :=
  (scan sha ignore s'.rem)[p]? ≠ (scan sha ignore s.rem)[p]? ∧ ¬ s.Known sha ignore p

instance (s : Workspace) (p : String) : Decidable (s.Known sha ignore p) := inferInstanceAs (Decidable (_ ∨ _ ∨ _))

instance (s s' : Workspace) (p : String) : Decidable (s.LosesEdit sha ignore s' p) := inferInstanceAs (Decidable (_ ∧ _))

end Known

end Workspace

/-! ## Versions -/

section Versions
variable {sha : List UInt8 → String} {ignore : List String}

/-- What the version of an entry keeps of it. -/
def nodeVersion (sha : List UInt8 → String) (n : Node) : Option EntryMeta :=
  (entryMeta sha n).map fun m => { m with modified := 0, mode := 0 }

theorem version_scan (t : Tree) (p : String) :
    (scan sha ignore t).version p = if shouldIgnoreRel ignore p then none else (t.node p).bind (nodeVersion sha) := by
  rw [Snapshot.version, get?_scan]
  cases h : shouldIgnoreRel ignore p with
  | true => rfl
  | false =>
    cases hn : t.node p with
    | none => simp
    | some n => simp [nodeVersion]

theorem version_eq_of_nodes {t t' : Tree} {p : String}
    (h : (t.node p).bind (nodeVersion sha) = (t'.node p).bind (nodeVersion sha)) :
    (scan sha ignore t).version p = (scan sha ignore t').version p := by
  rw [version_scan, version_scan, h]

theorem version_eq_of_dirs {t t' : Tree} {p : String} (h : t.isDir p = true) (h' : t'.isDir p = true) :
    (scan sha ignore t).version p = (scan sha ignore t').version p := by
  have hdir : ∀ {u : Tree}, u.isDir p = true → (u.node p).bind (nodeVersion sha) = some ⟨.dir, 0, 0, none, 0, none⟩ := by
    intro u hu
    simp only [Tree.isDir, Option.any_eq_true] at hu
    obtain ⟨n, hn, hd⟩ := hu
    rw [hn]
    cases n with
    | dir mode => rfl
    | _ => cases hd
  exact version_eq_of_nodes ((hdir h).trans (hdir h').symm)

theorem nodeVersion_uploaded (stamp : Stamp) (n : Node) : nodeVersion sha (uploaded stamp n) = nodeVersion sha n := by
  cases n <;> rfl

theorem nodeVersion_downloaded (stamp : Stamp) (n : Node) : nodeVersion sha (downloaded stamp n) = nodeVersion sha n := by
  cases n <;> rfl

theorem version_congr {snap snap' : Snapshot} {p : String} (h : snap[p]? = snap'[p]?) : snap.version p = snap'.version p := by
  rw [Snapshot.version, Snapshot.version, h]

theorem version_ne_none {snap : Snapshot} {p : String} : snap.version p ≠ none ↔ snap[p]? ≠ none := by
  simp [Snapshot.version]

end Versions

/-! ## What a transfer does -/

section Transfer
variable {links : Links} {sha : List UInt8 → String} {ignore : List String} {stamp : Stamp} {loc rem : Tree} {p : String}

theorem uploadFile_spec (hl : loc.Plain p) (hr : rem.Plain p) :
    (uploadFile links stamp loc rem p).1 = rem ∨
    ∃ n, loc.node p = some n ∧
      Installs rem (uploadFile links stamp loc rem p).1 p (uploaded stamp n) (uploadFile links stamp loc rem p).2 := by
  unfold uploadFile
  rw [lookup_plain hl]
  cases hn : loc.node p with
  | none => exact .inl rfl
  | some n =>
    cases n with
    | file data mode mtime => exact .inr ⟨_, rfl, install_spec hr⟩
    | symlink target mode mtime => exact .inr ⟨_, rfl, install_spec hr⟩
    | dir mode => exact .inl rfl
    | other => exact .inl rfl

/-- A path that an upload changes is the same on both sides afterwards. -/
theorem upload_same (hl : loc.Plain p) (hr : rem.Plain p) (q : String)
    (hq : (uploadFile links stamp loc rem p).1.node q ≠ rem.node q) :
    (scan sha ignore loc).version q = (scan sha ignore (uploadFile links stamp loc rem p).1).version q := by
  rcases (uploadFile_spec hl hr : (uploadFile links stamp loc rem p).1 = rem ∨ _) with e | ⟨n, hn, hi⟩
  · exact absurd (by rw [e]) hq
  · rcases hi.node q with e | ⟨hb, -, hd⟩ | ⟨rfl, hok, -⟩
    · exact absurd e hq
    · exact version_eq_of_dirs (Tree.isDir_of_below hb (by simp [hn])) hd
    · apply version_eq_of_nodes
      rw [hn, hi.done hok, Option.bind_some, Option.bind_some, nodeVersion_uploaded]

theorem downloadFile_spec {m : EntryMeta} (hl : loc.Plain p) (hm : (scan sha ignore rem)[p]? = some m)
    (hk : m.kind.carried = true) :
    ∃ n, rem.node p = some n ∧
      Installs loc (downloadFile links stamp rem loc p m).1 p (downloaded stamp n)
        (downloadFile links stamp rem loc p m).2 := by
  obtain ⟨-, n, hn, he⟩ := node_of_scan hm
  refine ⟨n, hn, ?_⟩
  cases n with
  | file data mode mtime =>
    cases he
    simp only [downloadFile, readFile, lookup_of_node hn]
    exact install_spec hl
  | symlink target mode mtime =>
    cases he
    exact install_spec hl
  | dir mode =>
    cases he
    cases hk
  | other => cases he

/-- A download that succeeds makes its path the same on both sides, if the snapshot has
the entry as it is. -/
theorem download_same {m : EntryMeta} (hl : loc.Plain p) (hm : (scan sha ignore rem)[p]? = some m)
    (hk : m.kind.carried = true) (hok : (downloadFile links stamp rem loc p m).2 = true) :
    (scan sha ignore (downloadFile links stamp rem loc p m).1).version p = (scan sha ignore rem).version p := by
  have hspec : ∃ n, rem.node p = some n ∧ Installs loc (downloadFile links stamp rem loc p m).1 p
      (downloaded stamp n) (downloadFile links stamp rem loc p m).2 := downloadFile_spec hl hm hk
  obtain ⟨n, hn, hi⟩ := hspec
  apply version_eq_of_nodes
  rw [hi.done hok, hn, Option.bind_some, Option.bind_some, nodeVersion_downloaded]

/-- A file is read when it is fetched, so it may have changed since the snapshot. -/
theorem download_same_file {m m' : EntryMeta} (hl : loc.Plain p) (hm : (scan sha ignore rem)[p]? = some m)
    (hk : m.kind = .file) (hk' : m'.kind = .file) (hok : (downloadFile links stamp rem loc p m').2 = true) :
    (scan sha ignore (downloadFile links stamp rem loc p m').1).version p = (scan sha ignore rem).version p := by
  obtain ⟨-, n, hn, he⟩ := node_of_scan hm
  cases n with
  | file data mode mtime =>
    simp only [downloadFile, hk', readFile, lookup_of_node hn, reduceCtorEq, if_false] at hok ⊢
    apply version_eq_of_nodes
    rw [(install_spec hl).done hok, hn]
    rfl
  | symlink target mode mtime =>
    cases he
    cases hk
  | dir mode =>
    cases he
    cases hk
  | other => cases he

end Transfer

/-! ## What keeps a path known -/

section Step
variable {links : Links} {sha : List UInt8 → String} {ignore : List String} {s : Workspace} {j : Job} {p : String}

theorem known_of_same {l r : Tree} {user : Bool} (h : (scan sha ignore l).version p = (scan sha ignore r).version p) :
    (s.move sha ignore l r user).Known sha ignore p := by
  refine .inr (.inr ?_)
  simp only [Workspace.move, h, if_true]

theorem Workspace.Known.move {l r : Tree} {user : Bool} (h : s.Known sha ignore p)
    (hr : (scan sha ignore r)[p]? = (scan sha ignore s.rem)[p]?) : (s.move sha ignore l r user).Known sha ignore p := by
  by_cases hsame : (scan sha ignore l).version p = (scan sha ignore r).version p
  · exact known_of_same hsame
  · rcases h with hd | hn | hv
    · refine .inl ?_
      simp [Workspace.move, hsame, hd]
    · exact .inr (.inl (hr.trans hn))
    · refine .inr (.inr ?_)
      simp only [Workspace.move, hsame, if_false]
      rw [version_congr hr, hv]

/-- Where a piece of work of a sync changes the remote, the path is known. -/
theorem known_of_changed {stamp : Stamp} {i : PlanItem} (hput : ∀ q, i = .put q → s.loc.Plain q ∧ s.rem.Plain q)
    (hn : (s.workNext links stamp j (.item i)).1.rem.node p ≠ s.rem.node p) :
    (s.move sha ignore (s.workNext links stamp j (.item i)).1.loc (s.workNext links stamp j (.item i)).1.rem
      false).Known sha ignore p := by
  cases i with
  | put q =>
    obtain ⟨hl, hr⟩ := hput q rfl
    exact known_of_same (upload_same hl hr p hn)
  | deleteRemote q =>
    rcases applyItem_deleteRemote_shrinks links j.rem stamp (s := ⟨s.loc, s.rem⟩) q p with e | e
    · exact absurd e hn
    · refine .inr (.inl ?_)
      rw [Workspace.move_rem, get?_scan, Workspace.workNext, e]
      simp
  | get q => exact absurd (by rw [Workspace.workNext, applyItem_get_rem]) hn
  | deleteLocal q => exact absurd rfl hn
  | conflict q => exact absurd rfl hn

/-- No piece of work of a sync makes a known path unknown. -/
theorem known_work {stamp : Stamp} {i : PlanItem} (h : s.Known sha ignore p)
    (hput : ∀ q, i = .put q → s.loc.Plain q ∧ s.rem.Plain q) :
    (s.move sha ignore (s.workNext links stamp j (.item i)).1.loc (s.workNext links stamp j (.item i)).1.rem
      false).Known sha ignore p := by
  by_cases hn : (s.workNext links stamp j (.item i)).1.rem.node p = s.rem.node p
  · exact h.move (scan_congr hn)
  · exact known_of_changed hput hn

end Step

end Mobfs
