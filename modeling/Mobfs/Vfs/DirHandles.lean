import Mathlib.Logic.Function.Basic
import Mobfs.Lib.Runs
import Mobfs.Vfs.Readdir
/-!
# Directories opened through FUSE

A read of a directory from its start lists it and keeps the listing under the file handle;
the reads that follow go by that listing. A listing that is not in the caches is got by a
worker, and other calls run meanwhile. The kernel makes one read of a handle at a time, and
releases a handle when no read of it is under way.

The NFS front end lists the directory anew for each page (`Mobfs.Vfs.Readdir`). Here all
that a handle is given since its start comes from one listing, whatever else happens.
-/

namespace Mobfs

open Lib

inductive FileType where
  | regularFile
  | directory
  | symlink
  deriving DecidableEq

def fileType : EntryKind → FileType
  | .file => .regularFile
  | .dir => .directory
  | .symlink => .symlink

abbrev DirListing := List (Nat × FileType × String)

/-- The listing that `readdir` builds. -/
def buildListing (ino parent : Nat) (items : List DirItem) : DirListing :=
  (ino, .directory, ".") :: (parent, .directory, "..") :: items.map fun item => (item.1, fileType item.2.2.kind, item.2.1)

/-- The entries that go into the reply, each with the offset that comes after it. The reply
has room for so many. -/
def sendListing (listing : DirListing) (offset room : Nat) : List ((Nat × FileType × String) × Nat) :=
  ((listing.zipIdx.drop offset).take room).map fun x => (x.1, x.2 + 1)

/-- An open directory, as the kernel has it: what it has been given since it was last at the
start, and whether the last reply was empty. A read under way has the parent from before. -/
structure OpenDir where
  ino : Nat
  pos : Nat
  got : DirListing
  ended : Bool
  reading : Option (Nat × Nat)

/-- `made`: the directory listings by the handles they were made for. -/
structure DirHandles where
  dirHandles : Nat → Option DirListing
  nextFh : Nat
  dirs : Nat → Option OpenDir
  made : List (Nat × List DirItem)

inductive DirHandlesAct where
  | opendir (ino : Nat) (known : Bool)
  /-- A file is opened. -/
  | openFile
  /-- `listed` is what `list_dir_fast` returns. -/
  | readdir (fh parent room : Nat) (listed : Option (Except Errno (List DirItem)))
  /-- A worker has the listing. -/
  | listDir (fh : Nat) (result : Except Errno (List DirItem))
  | rewind (fh : Nat)
  | releasedir (fh : Nat)

namespace DirHandles

def withDir (s : DirHandles) (fh : Nat) (d : Option OpenDir) : DirHandles := { s with dirs := Function.update s.dirs fh d }

/-- The kernel goes on behind the last entry that it has been given. -/
def reply (s : DirHandles) (fh : Nat) (d : OpenDir) (listing : DirListing) (room : Nat) : DirHandles :=
  let sent := sendListing listing d.pos room
  s.withDir fh (some { d with
    pos := (sent.getLast?.map Prod.snd).getD d.pos
    got := d.got ++ sent.map Prod.fst
    ended := sent.isEmpty
    reading := none })

/-- A listing has been made for the handle. -/
def keep (s : DirHandles) (fh : Nat) (listing : DirListing) (items : List DirItem) : DirHandles :=
  { s with dirHandles := Function.update s.dirHandles fh (some listing), made := (fh, items) :: s.made }

def listed (s : DirHandles) (fh : Nat) (d : OpenDir) (parent room : Nat) : Except Errno (List DirItem) → DirHandles
  | .ok items => (s.keep fh (buildListing d.ino parent items) items).reply fh d (buildListing d.ino parent items) room
  | .error _ => s.withDir fh (some { d with reading := none })

def step (s : DirHandles) : DirHandlesAct → Option DirHandles
  | .opendir ino known =>
    if known then some { s.withDir s.nextFh (some ⟨ino, 0, [], false, none⟩) with nextFh := s.nextFh + 1 } else some s
  | .openFile => some { s with nextFh := s.nextFh + 1 }
  | .readdir fh parent room result =>
    match s.dirs fh with
    | none => none
    | some d =>
      if d.reading.isSome then none
      else
        match if 0 < d.pos then s.dirHandles fh else none with
        | some listing => some (s.reply fh d listing room)
        | none =>
          match result with
          | some result => some (s.listed fh d parent room result)
          | none => some (s.withDir fh (some { d with reading := some (parent, room) }))
  | .listDir fh result =>
    match s.dirs fh with
    | none => none
    | some d => d.reading.map fun r => s.listed fh d r.1 r.2 result
  | .rewind fh =>
    match s.dirs fh with
    | none => none
    | some d => if d.reading.isSome then none else some (s.withDir fh (some { d with pos := 0, got := [], ended := false }))
  | .releasedir fh =>
    match s.dirs fh with
    | none => none
    | some d =>
      if d.reading.isSome then none
      else some { s.withDir fh none with dirHandles := Function.update s.dirHandles fh none }

def start : DirHandles := ⟨fun _ => none, 1, fun _ => none, []⟩

/-- A reply has room for an entry. -/
def Roomy : DirHandlesAct → Prop
  | .readdir _ _ room _ => 0 < room
  | _ => True

end DirHandles

/-! ## One reply -/

section Reply

variable {listing : DirListing} {offset room : Nat}

theorem sendListing_entries : (sendListing listing offset room).map Prod.fst = (listing.drop offset).take room := by
  rw [sendListing, List.map_map, List.map_take, List.map_drop]
  congr 2
  exact List.zipIdx_map_fst 0 listing

theorem length_sendListing : (sendListing listing offset room).length = min room (listing.length - offset) := by
  simp [sendListing]

theorem sendListing_getElem? {k : Nat} (hk : k < room) :
    (sendListing listing offset room)[k]? = (listing[offset + k]?).map fun e => (e, offset + k + 1) := by
  rw [sendListing, List.getElem?_map, List.getElem?_take_of_lt hk, List.getElem?_drop, List.getElem?_zipIdx, Option.map_map]
  refine Option.map_congr fun e _ => ?_
  simp

/-- The offset after the last entry counts the entries up to it. -/
theorem sendListing_next :
    ((sendListing listing offset room).getLast?.map Prod.snd).getD offset = offset + min room (listing.length - offset) := by
  have hlen : (sendListing listing offset room).length = min room (listing.length - offset) := length_sendListing
  by_cases hn : min room (listing.length - offset) = 0
  · rw [List.length_eq_zero_iff.1 (hlen.trans hn), hn]
    rfl
  · have hlt : offset + (min room (listing.length - offset) - 1) < listing.length := by omega
    rw [List.getLast?_eq_getElem?, hlen, sendListing_getElem? (by omega), List.getElem?_eq_getElem hlt]
    simp only [Option.map_some, Option.getD_some]
    omega

end Reply

/-! ## All replies -/

namespace DirHandles

variable {s s' : DirHandles} {fh : Nat} {d : OpenDir}

/-- What the handle has been given is the beginning of the listing. -/
structure OfListing (d : OpenDir) (l : DirListing) : Prop where
  got : d.got = l.take d.pos
  pos : d.pos ≤ l.length
  ended : d.ended = true → d.got = l

structure DirInv (s : DirHandles) : Prop where
  opened : ∀ fh d, s.dirs fh = some d → fh < s.nextFh
  kept : ∀ fh l, s.dirHandles fh = some l → ∃ d parent items, s.dirs fh = some d ∧ (fh, items) ∈ s.made ∧
    l = buildListing d.ino parent items
  start : ∀ fh d, s.dirs fh = some d → d.pos = 0 → d.got = [] ∧ d.ended = false
  got : ∀ fh d, s.dirs fh = some d → 0 < d.pos → ∃ l, s.dirHandles fh = some l ∧ OfListing d l
  reading : ∀ fh d r, s.dirs fh = some d → d.reading = some r → d.pos = 0 ∧ 0 < r.2

theorem dirInv_start : DirInv start := by
  refine ⟨fun fh d h => ?_, fun fh l h => ?_, fun fh d h => ?_, fun fh d h => ?_, fun fh d r h => ?_⟩ <;> cases h

theorem withDir_dirs {fh' : Nat} {o : Option OpenDir} :
    (s.withDir fh o).dirs fh' = if fh' = fh then o else s.dirs fh' := Function.update_apply ..

/-- The state of a handle that stays open changes. -/
theorem DirInv.withDir {d' : OpenDir} (hi : DirInv s) (hd : s.dirs fh = some d) (hino : d'.ino = d.ino)
    (hstart : d'.pos = 0 → d'.got = [] ∧ d'.ended = false)
    (hgot : 0 < d'.pos → ∃ l, s.dirHandles fh = some l ∧ OfListing d' l)
    (hreading : ∀ r, d'.reading = some r → d'.pos = 0 ∧ 0 < r.2) : DirInv (s.withDir fh (some d')) := by
  refine ⟨fun g e he => ?_, fun g l hl => ?_, fun g e he => ?_, fun g e he => ?_, fun g e r he => ?_⟩
  · rw [withDir_dirs] at he
    split at he
    · rename_i hg
      exact hg ▸ hi.opened fh d hd
    · exact hi.opened g e he
  · obtain ⟨e, parent, items, he, hmade, rfl⟩ := hi.kept g l hl
    by_cases hg : g = fh
    · subst hg
      rw [hd] at he
      cases he
      exact ⟨d', parent, items, by rw [withDir_dirs, if_pos rfl], hmade, by rw [hino]⟩
    · exact ⟨e, parent, items, by rw [withDir_dirs, if_neg hg, he], hmade, rfl⟩
  · rw [withDir_dirs] at he
    split at he
    · cases he
      exact hstart
    · exact hi.start g e he
  · rw [withDir_dirs] at he
    split at he
    · rename_i hg
      cases he
      rw [hg]
      exact hgot
    · exact hi.got g e he
  · rw [withDir_dirs] at he
    split at he
    · cases he
      exact hreading r
    · exact hi.reading g e r he

/-- A page of the listing that is kept. -/
theorem DirInv.reply {l : DirListing} {room : Nat} (hi : DirInv s) (hd : s.dirs fh = some d) (hl : s.dirHandles fh = some l)
    (hroom : 0 < room) : DirInv (s.reply fh d l room) := by
  have hof : OfListing d l := by
    by_cases hpos : 0 < d.pos
    · obtain ⟨l', hl', hof⟩ := hi.got fh d hd hpos
      rw [hl] at hl'
      cases hl'
      exact hof
    · obtain ⟨hgot, hended⟩ := hi.start fh d hd (by omega)
      refine ⟨?_, by omega, fun h => absurd h (by simp [hended])⟩
      rw [hgot, show d.pos = 0 by omega, List.take_zero]
  obtain ⟨e, parent, items, -, -, hbuilt⟩ := hi.kept fh l hl
  have hlen : 2 ≤ l.length := by simp [hbuilt, buildListing]
  obtain ⟨hgot, hle, -⟩ := hof
  have hempty : (sendListing l d.pos room).isEmpty = true ↔ l.length ≤ d.pos := by
    rw [List.isEmpty_iff, ← List.length_eq_zero_iff, length_sendListing]
    omega
  unfold DirHandles.reply
  simp only [sendListing_next, sendListing_entries]
  have hmore : d.got ++ (l.drop d.pos).take room = l.take (d.pos + min room (l.length - d.pos)) := by
    rw [hgot, ← List.take_add]
    rcases Nat.le_total room (l.length - d.pos) with h | h
    · rw [Nat.min_eq_left h]
    · rw [Nat.min_eq_right h, List.take_of_length_le (by omega), List.take_of_length_le (by omega)]
  refine hi.withDir hd rfl (fun h => ?_) (fun _ => ⟨l, hl, hmore, ?_, fun h => ?_⟩) (fun r h => by cases h)
  · -- There is room, so the first page is not empty.
    exfalso
    have h : d.pos + min room (l.length - d.pos) = 0 := h
    omega
  · show d.pos + min room (l.length - d.pos) ≤ l.length
    omega
  · have hend := hempty.1 h
    exact hmore.trans (List.take_of_length_le (by omega))

/-- A listing is made for a handle at its start. -/
theorem DirInv.listed {parent room : Nat} {result : Except Errno (List DirItem)} (hi : DirInv s) (hd : s.dirs fh = some d)
    (hpos : d.pos = 0) (hroom : 0 < room) : DirInv (s.listed fh d parent room result) := by
  cases result with
  | error e =>
    refine hi.withDir hd rfl (hi.start fh d hd) (fun h => ?_) (fun r h => by cases h)
    exact (hi.got fh d hd h).imp fun l hl => ⟨hl.1, hl.2.got, hl.2.pos, hl.2.ended⟩
  | ok items =>
    have hkeep : DirInv (s.keep fh (buildListing d.ino parent items) items) := by
      refine ⟨hi.opened, fun g l hl => ?_, hi.start, fun g e he hpos' => ?_, hi.reading⟩
      · by_cases hg : g = fh
        · subst hg
          simp only [keep, Function.update_self, Option.some.injEq] at hl
          exact ⟨d, parent, items, hd, List.mem_cons_self, hl.symm⟩
        · simp only [keep, Function.update_of_ne hg] at hl
          obtain ⟨e, parent', items', he, hmade, rfl⟩ := hi.kept g l hl
          exact ⟨e, parent', items', he, List.mem_cons_of_mem _ hmade, rfl⟩
      · have hg : g ≠ fh := by
          rintro rfl
          have he : s.dirs g = some e := he
          rw [hd] at he
          cases he
          omega
        simpa [keep, Function.update_of_ne hg] using hi.got g e he hpos'
    exact hkeep.reply hd (by simp [keep]) hroom

/-- A new handle has no listing yet. -/
theorem DirInv.opendir {ino : Nat} {known : Bool} (hi : DirInv s) (h : s.step (.opendir ino known) = some s') :
    DirInv s' := by
  simp only [DirHandles.step] at h
  split at h <;> cases h
  · have hnone : s.dirs s.nextFh = none := by
      by_contra hne
      obtain ⟨d, hd⟩ := Option.ne_none_iff_exists'.1 hne
      exact absurd (hi.opened _ d hd) (Nat.lt_irrefl _)
    have hold : ∀ g e, (s.withDir s.nextFh (some ⟨ino, 0, [], false, none⟩)).dirs g = some e →
        e = ⟨ino, 0, [], false, none⟩ ∧ g = s.nextFh ∨ s.dirs g = some e := by
      intro g e he
      rw [withDir_dirs] at he
      split at he
      · rename_i hg
        exact .inl ⟨(Option.some.inj he).symm, hg⟩
      · exact .inr he
    refine ⟨fun g e he => ?_, fun g l hl => ?_, fun g e he hpos => ?_, fun g e he hpos => ?_, fun g e r he hr => ?_⟩
    · rcases hold g e he with ⟨-, rfl⟩ | he
      · exact Nat.lt_succ_self _
      · exact Nat.lt_succ_of_lt (hi.opened g e he)
    · obtain ⟨e, parent, items, he, hmade, rfl⟩ := hi.kept g l hl
      have hg : g ≠ s.nextFh := by
        rintro rfl
        rw [hnone] at he
        cases he
      exact ⟨e, parent, items, by rw [← he]; exact withDir_dirs.trans (if_neg hg), hmade, rfl⟩
    · rcases hold g e he with ⟨rfl, -⟩ | he
      · exact ⟨rfl, rfl⟩
      · exact hi.start g e he hpos
    · rcases hold g e he with ⟨rfl, -⟩ | he
      · exact absurd hpos (Nat.lt_irrefl 0)
      · exact hi.got g e he hpos
    · rcases hold g e he with ⟨rfl, -⟩ | he
      · cases hr
      · exact hi.reading g e r he hr
  · exact hi

theorem DirInv.readdir {parent room : Nat} {result : Option (Except Errno (List DirItem))} (hi : DirInv s)
    (hroomy : Roomy (.readdir fh parent room result)) (h : s.step (.readdir fh parent room result) = some s') :
    DirInv s' := by
  simp only [DirHandles.step] at h
  split at h
  · cases h
  · rename_i d hd
    split at h
    · cases h
    · split at h
      · rename_i l hl
        cases h
        exact hi.reply hd (Option.ite_none_right_eq_some.1 hl).2 hroomy
      · rename_i hnone
        -- Only at its start has the handle no listing to go by.
        have hpos : d.pos = 0 := by
          by_contra hne
          obtain ⟨l, hl, -⟩ := hi.got fh d hd (by omega)
          rw [if_pos (by omega), hl] at hnone
          cases hnone
        split at h
        · cases h
          exact hi.listed hd hpos hroomy
        · cases h
          refine hi.withDir hd rfl (hi.start fh d hd) (fun h => absurd (show 0 < d.pos from h) (by omega)) ?_
          rintro r ⟨⟩
          exact ⟨hpos, hroomy⟩

theorem DirInv.listDir {result : Except Errno (List DirItem)} (hi : DirInv s) (h : s.step (.listDir fh result) = some s') :
    DirInv s' := by
  simp only [DirHandles.step] at h
  split at h
  · cases h
  · rename_i d hd
    obtain ⟨r, hr, rfl⟩ := Option.map_eq_some_iff.1 h
    obtain ⟨hpos, hroom⟩ := hi.reading fh d r hd hr
    exact hi.listed hd hpos hroom

/-- A handle is at its start again. -/
theorem DirInv.rewind (hi : DirInv s) (h : s.step (.rewind fh) = some s') :
    DirInv s' := by
  simp only [DirHandles.step] at h
  split at h
  · cases h
  · rename_i d hd
    split at h <;> cases h
    rename_i hr
    refine hi.withDir hd rfl (fun _ => ⟨rfl, rfl⟩) (fun h => absurd h (Nat.lt_irrefl 0)) fun r hr' => ?_
    rw [show d.reading = some r from hr'] at hr
    exact absurd rfl hr

/-- The listing goes with its handle. -/
theorem DirInv.releasedir (hi : DirInv s) (h : s.step (.releasedir fh) = some s') :
    DirInv s' := by
  simp only [DirHandles.step] at h
  split at h
  · cases h
  · split at h <;> cases h
    have hother : ∀ {g e}, (s.withDir fh none).dirs g = some e → g ≠ fh ∧ s.dirs g = some e := by
      intro g e he
      rw [withDir_dirs] at he
      split at he
      · cases he
      · rename_i hg
        exact ⟨hg, he⟩
    refine ⟨fun g e he => hi.opened g e (hother he).2, fun g l hl => ?_, fun g e he => hi.start g e (hother he).2,
      fun g e he hpos => ?_, fun g e r he => hi.reading g e r (hother he).2⟩
    · have hg : g ≠ fh := by
        rintro rfl
        simp at hl
      simp only [Function.update_of_ne hg] at hl
      obtain ⟨e, parent, items, he, hmade, rfl⟩ := hi.kept g l hl
      exact ⟨e, parent, items, by rw [← he]; exact withDir_dirs.trans (if_neg hg), hmade, rfl⟩
    · obtain ⟨hg, he⟩ := hother he
      simpa [Function.update_of_ne hg] using hi.got g e he hpos

theorem DirInv.step {a : DirHandlesAct} (hi : DirInv s) (hroomy : Roomy a) (h : s.step a = some s') : DirInv s' := by
  cases a with
  | opendir ino known => exact hi.opendir h
  | openFile =>
    cases h
    exact ⟨fun g e he => Nat.lt_succ_of_lt (hi.opened g e he), hi.kept, hi.start, hi.got, hi.reading⟩
  | readdir fh parent room result => exact hi.readdir hroomy h
  | listDir fh result => exact hi.listDir h
  | rewind fh => exact hi.rewind h
  | releasedir fh => exact hi.releasedir h

/-- In every run of any number of handles: what a handle has been given since it was last at
its start is the beginning of one listing of its directory, and all of it once a reply is
empty. No listing is kept longer than its handle. -/
theorem fuse_pages_one_listing (acts : List DirHandlesAct) (s : DirHandles) (hroomy : ∀ a ∈ acts, Roomy a)
    (h : exec step start acts = some s) :
    (∀ fh d, s.dirs fh = some d → 0 < d.pos → ∃ parent items, (fh, items) ∈ s.made ∧
      d.got = (buildListing d.ino parent items).take d.pos ∧ (d.ended = true → d.got = buildListing d.ino parent items)) ∧
    ∀ fh, (s.dirHandles fh).isSome = true → (s.dirs fh).isSome = true := by
  have hi : DirInv s := by
    refine exec_guarded_inv DirInv (fun _ _ _ hi hr hs => hi.step hr hs) dirInv_start ?_ h
    exact guarded_of_forall hroomy
  refine ⟨fun fh d hd hpos => ?_, fun fh hfh => ?_⟩
  · obtain ⟨l, hl, hof⟩ := hi.got fh d hd hpos
    obtain ⟨e, parent, items, he, hmade, rfl⟩ := hi.kept fh l hl
    rw [hd] at he
    cases he
    exact ⟨parent, items, hmade, hof.got, hof.ended⟩
  · obtain ⟨l, hl⟩ := Option.isSome_iff_exists.1 hfh
    obtain ⟨d, -, -, hd, -⟩ := hi.kept fh l hl
    exact Option.isSome_iff_exists.2 ⟨d, hd⟩

/-- Two handles for one directory. A file comes into it between their listings, and the first
goes on with its own. -/
def twoHandles : List DirHandlesAct :=
  let f : DirItem := (2, "f", fileMeta 1 0o644 0)
  let g : DirItem := (3, "g", fileMeta 1 0o644 0)
  [.opendir 1 true, .openFile, .opendir 1 true, .readdir 1 1 2 none, .listDir 1 (.ok [f]), .readdir 3 1 9 (some (.ok [f, g])),
    .readdir 1 1 2 none, .readdir 1 1 2 none]

theorem fuse_pages_one_listing_twoHandles : ∃ s d, exec step start twoHandles = some s ∧ s.dirs 1 = some d ∧
    d.got.map (·.2.2) = [".", "..", "f"] ∧
    ∃ parent items, (1, items) ∈ s.made ∧ d.got = buildListing d.ino parent items := by
  have hrun : (exec step start twoHandles).any fun s => (s.dirs 1).any fun d =>
      d.pos = 3 && d.ended && d.got.map (·.2.2) = [".", "..", "f"] := by
    decide
  obtain ⟨s, hs, hrun⟩ := (Option.any_eq_true _ _).1 hrun
  obtain ⟨d, hd, hrun⟩ := (Option.any_eq_true _ _).1 hrun
  simp only [Bool.and_eq_true, decide_eq_true_eq] at hrun
  obtain ⟨⟨hpos, hended⟩, hgot⟩ := hrun
  have hroomy : ∀ a ∈ twoHandles, Roomy a := by
    simp [twoHandles, Roomy]
  obtain ⟨parent, items, hmade, -, hall⟩ := (fuse_pages_one_listing twoHandles s hroomy hs).1 1 d hd (by omega)
  exact ⟨s, d, hs, hd, hgot, parent, items, hmade, hall hended⟩

end DirHandles

end Mobfs
