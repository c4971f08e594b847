import Mobfs.Vfs.InodeMaps
import Mobfs.Vfs.NameCache
/-!
# Extended attributes and sidecars

Both are kept in memory, by path: the attributes of any inode, and the contents of the
files that `is_sidecar` keeps off the remote. A rename moves the inodes of a whole
subtree, but in these tables at most the entry of the path itself: of a sidecar its
contents, of anything else its attributes. A removal takes the attributes of a subtree
out, or the contents of a sidecar.

`side_data_follows` says when that is enough.
-/

namespace Mobfs

open Lib Std
open WriteBack (matching)

abbrev Attrs := ExtTreeMap String Bytes

structure SideData where
  inodes : InodeMaps
  xattrs : ExtTreeMap String Attrs
  sidecars : ExtTreeMap String (EntryMeta × Bytes)

def InodeMaps.pathOf (t : InodeMaps) (ino : Nat) : Except Errno String :=
  match t.byIno[ino]? with
  | some path => .ok path
  | none => .error .estale

def InodeMaps.childPath (t : InodeMaps) (parent : Nat) (name : String) : Except Errno String :=
  if name = "" ∨ name = "." ∨ name = ".." ∨ '/' ∈ name.toList then .error .einval
  else if 255 < name.utf8ByteSize then .error .enametoolong
  else (t.pathOf parent).map fun dir => joinRel dir name

/-- A call of the mount, by what it does to the inodes and to these tables. `remote` is
how the part of it that concerns the remote ends. -/
inductive SideCall where
  /-- A lookup or listing meets the path. -/
  | ino (path : String)
  | setxattr (ino : Nat) (name : String) (value : Bytes) (create replace : Bool) (position : Nat)
  | removexattr (ino : Nat) (name : String)
  | create (parent : Nat) (name : String) (mode : Nat) (exclusive : Bool) (clock : Int) (remote : Except Errno Unit)
  | write (ino : Nat) (offset : Nat) (data : Bytes) (clock : Int)
  | setattr (ino : Nat) (mode size : Option Nat) (modified : Option Int)
  | rename (parent : Nat) (name : String) (newparent : Nat) (newname : String) (noreplace : Bool)
      (remote : Except Errno Unit)
  | remove (parent : Nat) (name : String) (dir : Option Bool) (remote : Except Errno Unit)

namespace SideData

def new : SideData := ⟨InodeMaps.new, ∅, ∅⟩

/-- The attributes kept for a path. -/
def attrs (s : SideData) (path : String) : Attrs := (s.xattrs[path]?).getD ∅

def setxattr (s : SideData) (ino : Nat) (name : String) (value : Bytes) (create replace : Bool) (position : Nat) :
    SideData × Except Errno Unit :=
  match s.inodes.pathOf ino with
  | .error e => (s, .error e)
  | .ok path =>
    let attrs := s.attrs path
    let store := fun attrs => { s with xattrs := s.xattrs.insert path attrs }
    if create && attrs.contains name then (store attrs, .error .eexist)
    else if replace && !attrs.contains name then (store attrs, .error .noXattr)
    else
      let stored := (attrs[name]?).getD []
      (store (attrs.insert name (if position = 0 then value else putBytes stored position value)), .ok ())

def removexattr (s : SideData) (ino : Nat) (name : String) : SideData × Except Errno Unit :=
  match s.inodes.pathOf ino with
  | .error e => (s, .error e)
  | .ok path =>
    match s.xattrs[path]? with
    | none => (s, .error .noXattr)
    | some attrs =>
      if attrs.contains name then ({ s with xattrs := s.xattrs.insert path (attrs.erase name) }, .ok ())
      else (s, .error .noXattr)

/-- A change of a sidecar's contents. -/
def editSidecar (s : SideData) (path : String) (f : EntryMeta × Bytes → EntryMeta × Bytes) : SideData × Except Errno Unit :=
  match s.sidecars[path]? with
  | none => (s, .error .enoent)
  | some x => ({ s with sidecars := s.sidecars.insert path (f x) }, .ok ())

/-- `xattrs.remove(&to)`, then the attributes of `from` in their place. -/
def renameXattrs (xattrs : ExtTreeMap String Attrs) (src dst : String) : ExtTreeMap String Attrs :=
  let xattrs := xattrs.erase dst
  match xattrs[src]? with
  | some attrs => (xattrs.erase src).insert dst attrs
  | none => xattrs.erase src

section Calls
variable (ignore : List String)

def create (s : SideData) (parent : Nat) (name : String) (mode : Nat) (exclusive : Bool) (clock : Int)
    (remote : Except Errno Unit) : SideData × Except Errno Unit :=
  match s.inodes.childPath parent name with
  | .error e => (s, .error e)
  | .ok path =>
    if isSidecar path then
      if exclusive && s.sidecars.contains path then (s, .error .eexist)
      else
        ({ s with
          sidecars := s.sidecars.insert path (fileMeta 0 (mode &&& 0o7777) clock, [])
          inodes := (s.inodes.ino path).1 }, .ok ())
    else if shouldIgnoreRel ignore path then (s, .error .eacces)
    else
      match remote with
      | .error e => (s, .error e)
      | .ok () => ({ s with inodes := (s.inodes.ino path).1 }, .ok ())

/-- Only the data of a sidecar is kept here. -/
def write (s : SideData) (ino offset : Nat) (data : Bytes) (clock : Int) : SideData × Except Errno Unit :=
  match s.inodes.pathOf ino with
  | .error e => (s, .error e)
  | .ok path =>
    if path = "" then (s, .error .eisdir)
    else if isSidecar path then
      s.editSidecar path fun (m, stored) =>
        let stored := putBytes stored offset data
        ({ m with size := stored.length, modified := clock }, stored)
    else (s, .ok ())

def setattr (s : SideData) (ino : Nat) (mode size : Option Nat) (modified : Option Int) : SideData × Except Errno Unit :=
  match s.inodes.pathOf ino with
  | .error e => (s, .error e)
  | .ok path =>
    if path = "" then (s, .ok ())
    else if isSidecar path then
      s.editSidecar path fun (m, stored) =>
        ({ m with
          size := size.getD m.size
          mode := (mode.map (· &&& 0o7777)).getD m.mode
          modified := modified.getD m.modified },
        match size with
        | some size => stored.take size ++ List.replicate (size - stored.length) 0
        | none => stored)
    else (s, .ok ())

def rename (s : SideData) (parent : Nat) (name : String) (newparent : Nat) (newname : String) (noreplace : Bool)
    (remote : Except Errno Unit) : SideData × Except Errno Unit :=
  match s.inodes.childPath parent name, s.inodes.childPath newparent newname with
  | .error e, _ => (s, .error e)
  | _, .error e => (s, .error e)
  | .ok src, .ok dst =>
    if isSidecar src && isSidecar dst then
      match s.sidecars[src]? with
      | none => (s, .error .enoent)
      | some entry =>
        let sidecars := s.sidecars.erase src
        if noreplace && sidecars.contains dst then ({ s with sidecars := sidecars.insert src entry }, .error .eexist)
        else ({ s with sidecars := sidecars.insert dst entry, inodes := s.inodes.rename src dst }, .ok ())
    else if isSidecar src || isSidecar dst then (s, .error .eacces)
    else if shouldIgnoreRel ignore dst then (s, .error .eacces)
    else
      match remote with
      | .error e => (s, .error e)
      | .ok () => ({ s with xattrs := renameXattrs s.xattrs src dst, inodes := s.inodes.rename src dst }, .ok ())

/-- Where the kind is not known, `lookup` finds it out and gives the path a number. -/
def remove (s : SideData) (parent : Nat) (name : String) (dir : Option Bool) (remote : Except Errno Unit) :
    SideData × Except Errno Unit :=
  match s.inodes.childPath parent name with
  | .error e => (s, .error e)
  | .ok path =>
    if isSidecar path then
      ({ s with sidecars := s.sidecars.erase path, inodes := s.inodes.removeTree path }, .ok ())
    else if shouldIgnoreRel ignore path then (s, .ok ())
    else
      match remote with
      | .error e => (s, .error e)
      | .ok () =>
        let inodes := if dir.isNone then (s.inodes.ino path).1 else s.inodes
        ({ s with xattrs := eraseWhere s.xattrs (matching path), inodes := inodes.removeTree path }, .ok ())

def call (s : SideData) : SideCall → SideData × Except Errno Unit
  | .ino path => ({ s with inodes := (s.inodes.ino path).1 }, .ok ())
  | .setxattr ino name value create replace position => s.setxattr ino name value create replace position
  | .removexattr ino name => s.removexattr ino name
  | .create parent name mode exclusive clock remote => s.create ignore parent name mode exclusive clock remote
  | .write ino offset data clock => s.write ino offset data clock
  | .setattr ino mode size modified => s.setattr ino mode size modified
  | .rename parent name newparent newname noreplace remote =>
    s.rename ignore parent name newparent newname noreplace remote
  | .remove parent name dir remote => s.remove ignore parent name dir remote

/-- The state after some calls. -/
def after (calls : List SideCall) : SideData := calls.foldl (fun s c => (s.call ignore c).1) new

end Calls

/-! ## A table and the inodes -/

section Table
variable {β : Type} {t : InodeMaps} {src dst : String} {T T' : String → β} {z : β} {top : Bool}

/-- What a table has for an inode; nothing for one without a path. -/
def ofInode (t : InodeMaps) (T : String → β) (z : β) (i : Nat) : β :=
  match t.byIno[i]? with
  | some path => T path
  | none => z

/-- The table follows the inodes through a rename from `src` to `dst`. -/
structure Follows (t t' : InodeMaps) (src dst : String) (T T' : String → β) (z : β) : Prop where
  inodes : ∀ i p, t.byIno[i]? = some p → matching src p = true → ofInode t' T' z i = T p
  old : ∀ p, matching src p = true → matching dst p = false → T' p = z
  others : ∀ p, matching src p = false → matching dst p = false → T' p = T p

/-- The table has nothing for the paths below `src`, and nothing where their inodes go to;
`top` says whether `src` itself is moved in the table. Nor does it for inodes that lie
under both names, which a rename forgets. -/
structure Keeps (t : InodeMaps) (src dst : String) (T : String → β) (z : β) (top : Bool) : Prop where
  old : ∀ p, matching src p = true → matching dst p = false → (top = true → p ≠ src) → T p = z
  both : ∀ p, t.byPath[p]? ≠ none → matching src p = true → matching dst p = true → T p = z
  target : ∀ p, t.byPath[p]? ≠ none → matching src p = true → matching dst p = false → (top = true → p ≠ src) →
    T (rebase src dst p) = z

/-- A rename does with the table what it does: it moves the entry of `src`, or nothing. -/
structure MovesTop (src dst : String) (T T' : String → β) (z : β) (top : Bool) : Prop where
  enters : top = true → src ≠ dst → T' dst = T src
  leaves : top = true → src ≠ dst → T' src = z
  other : ∀ p, p ≠ src → p ≠ dst → T' p = T p
  still : top = false → T' = T

theorem rename_byIno (h : t.Valid) {i : Nat} {p : String} (hi : t.byIno[i]? = some p) (hp : matching src p = true) :
    (t.rename src dst).byIno[i]? = if matching dst p then none else some (rebase src dst p) := by
  cases hd : matching dst p with
  | true => exact InodeMaps.byIno_rename_replaced h hi hd
  | false => exact InodeMaps.byIno_rename_moved h hi hp hd

theorem MovesTop.eq (hm : MovesTop src dst T T' z top) {p : String} (hd : p ≠ dst) (hs : top = true → p ≠ src) :
    T' p = T p := by
  cases top with
  | false => rw [hm.still rfl]
  | true => exact hm.other p (hs rfl) hd

theorem ne_of_not_matching {p : String} (h : matching dst p = false) : p ≠ dst := by
  rintro rfl
  rw [matching_self] at h
  cases h

/-- The new name of a path that `dst` does not hold is neither `dst` nor `src`. -/
theorem rebase_ne {p : String} (hp : matching src p = true) (hd : matching dst p = false) (hps : p ≠ src) :
    rebase src dst p ≠ dst ∧ rebase src dst p ≠ src := by
  refine ⟨fun he => hps ?_, fun he => ?_⟩
  · exact rebase_inj hp (matching_self src) (he.trans (rebase_self src dst).symm)
  · have hds : matching dst src = true := he ▸ matching_rebase dst hp
    rw [matching_trans hds hp] at hd
    cases hd

theorem MovesTop.target (hm : MovesTop src dst T T' z top) {p : String} (hp : matching src p = true)
    (hd : matching dst p = false) (hps : top = true → p ≠ src) : T' (rebase src dst p) = T (rebase src dst p) := by
  cases htop : top with
  | false => rw [hm.still htop]
  | true =>
    obtain ⟨hnd, hns⟩ := rebase_ne hp hd (hps htop)
    exact hm.other _ hns hnd

/-- The table follows the inodes if and only if nothing was lost that it does not move. -/
theorem follows_iff (h : t.Valid) (hm : MovesTop src dst T T' z top) :
    Follows t (t.rename src dst) src dst T T' z ↔ Keeps t src dst T z top := by
  constructor
  · intro hf
    have hold : ∀ p, matching src p = true → matching dst p = false → (top = true → p ≠ src) → T p = z := by
      intro p hp hd hps
      rw [← hm.eq (ne_of_not_matching hd) hps, hf.old p hp hd]
    refine ⟨hold, fun p hi hp hd => ?_, fun p hi hp hd hps => ?_⟩
    · obtain ⟨i, hi⟩ := Option.ne_none_iff_exists'.1 hi
      have hino := (h.inverse p i).1 hi
      rw [← hf.inodes i p hino hp, ofInode, rename_byIno h hino hp, if_pos hd]
    · obtain ⟨i, hi⟩ := Option.ne_none_iff_exists'.1 hi
      have hino := (h.inverse p i).1 hi
      have heq : T' (rebase src dst p) = T p := by
        have hf := hf.inodes i p hino hp
        rwa [ofInode, rename_byIno h hino hp, if_neg (by simp [hd])] at hf
      rw [← hm.target hp hd hps, heq, hold p hp hd hps]
  · intro hk
    refine ⟨fun i p hino hp => ?_, fun p hp hd => ?_, fun p hp hd => ?_⟩
    · have hi : t.byPath[p]? ≠ none := by simp [(h.inverse p i).2 hino]
      rw [ofInode, rename_byIno h hino hp]
      by_cases hd : matching dst p = true
      · rw [if_pos hd, hk.both p hi hp hd]
      · have hd : matching dst p = false := by simpa using hd
        rw [if_neg (by simp [hd])]
        by_cases hps : top = true → p ≠ src
        · simp only [hm.target hp hd hps, hk.target p hi hp hd hps, hk.old p hp hd hps]
        · obtain ⟨htop, rfl⟩ : top = true ∧ p = src := by simpa using hps
          simp only [rebase_self, hm.enters htop (ne_of_not_matching hd)]
    · by_cases hps : top = true → p ≠ src
      · rw [hm.eq (ne_of_not_matching hd) hps, hk.old p hp hd hps]
      · obtain ⟨htop, rfl⟩ : top = true ∧ p = src := by simpa using hps
        exact hm.leaves htop (ne_of_not_matching hd)
    · refine hm.eq (ne_of_not_matching hd) fun _ => ?_
      rintro rfl
      rw [matching_self] at hp
      cases hp

end Table

/-! ## Renames and removals -/

def sidecar (s : SideData) (path : String) : Option (EntryMeta × Bytes) := s.sidecars[path]?

/-- The table has nothing left at or below a removed path, and is otherwise as it was. -/
structure Cleared {β : Type} (path : String) (T T' : String → β) (z : β) : Prop where
  old : ∀ p, matching path p = true → T' p = z
  others : ∀ p, matching path p = false → T' p = T p

/-- The side data follows the inodes through a rename or removal. -/
def FollowsInodes (s s' : SideData) : SideCall → Prop
  | .rename parent name newparent newname _ _ =>
    ∀ src dst, s.inodes.childPath parent name = .ok src → s.inodes.childPath newparent newname = .ok dst →
      Follows s.inodes s'.inodes src dst s.attrs s'.attrs ∅ ∧ Follows s.inodes s'.inodes src dst s.sidecar s'.sidecar none
  | .remove parent name _ _ =>
    ∀ path, s.inodes.childPath parent name = .ok path →
      Cleared path s.attrs s'.attrs ∅ ∧ Cleared path s.sidecar s'.sidecar none
  | _ => True

/-- There is no side data where the code leaves it behind. -/
def NothingBehind (ignore : List String) (s : SideData) : SideCall → Prop
  | .rename parent name newparent newname _ _ =>
    ∀ src dst, s.inodes.childPath parent name = .ok src → s.inodes.childPath newparent newname = .ok dst →
      Keeps s.inodes src dst s.attrs ∅ (!isSidecar src) ∧ Keeps s.inodes src dst s.sidecar none (isSidecar src)
  | .remove parent name _ _ =>
    ∀ path, s.inodes.childPath parent name = .ok path →
      (isSidecar path = true ∨ shouldIgnoreRel ignore path = true → ∀ p, matching path p = true → s.attrs p = ∅) ∧
      ∀ p, matching path p = true → (isSidecar path = true → p ≠ path) → s.sidecar p = none
  | _ => True

variable {ignore : List String} {s : SideData}

theorem call_valid (h : s.inodes.Valid) (c : SideCall) : (s.call ignore c).1.inodes.Valid := by
  have hino := fun p => (InodeMaps.ino_valid h p).1
  cases c with
  | ino p => exact hino p
  | setxattr ino name value create replace position =>
    simp only [call, setxattr]
    repeat' split
    all_goals exact h
  | removexattr ino name =>
    simp only [call, removexattr]
    repeat' split
    all_goals exact h
  | create parent name mode exclusive clock remote =>
    simp only [call, create]
    split
    · exact h
    · split
      · split
        · exact h
        · exact hino _
      · split
        · exact h
        · split
          · exact h
          · exact hino _
  | write ino offset data clock =>
    simp only [call, write, editSidecar]
    repeat' split
    all_goals exact h
  | setattr ino mode size modified =>
    simp only [call, setattr, editSidecar]
    repeat' split
    all_goals exact h
  | rename parent name newparent newname noreplace remote =>
    have hmoved := fun src dst => (InodeMaps.rename_valid h src dst).1
    simp only [call, rename]
    split
    · exact h
    · exact h
    · split
      · split
        · exact h
        · split
          · exact h
          · exact hmoved _ _
      · split
        · exact h
        · split
          · exact h
          · split
            · exact h
            · exact hmoved _ _
  | remove parent name dir remote =>
    simp only [call, remove]
    split
    · exact h
    · split
      · exact (InodeMaps.removeTree_valid h _).1
      · split
        · exact h
        · split
          · exact h
          · refine (InodeMaps.removeTree_valid ?_ _).1
            split
            · exact hino _
            · exact h

theorem after_valid (calls : List SideCall) : (after ignore calls).inodes.Valid := by
  suffices h : ∀ s : SideData, s.inodes.Valid → (calls.foldl (fun s c => (s.call ignore c).1) s).inodes.Valid from
    h new InodeMaps.new_valid
  induction calls with
  | nil => exact fun s h => h
  | cons c calls ih => exact fun s h => ih _ (call_valid h c)

theorem movesTop_rfl {β : Type} {src dst : String} {T : String → β} {z : β} : MovesTop src dst T T z false :=
  ⟨by simp, by simp, fun _ _ _ => rfl, fun _ => rfl⟩

theorem getElem?_renameXattrs (m : ExtTreeMap String Attrs) {src dst : String} (hne : src ≠ dst) (p : String) :
    (renameXattrs m src dst)[p]? = if p = dst then m[src]? else if p = src then none else m[p]? := by
  have hsrc : (m.erase dst)[src]? = m[src]? := by rw [get?_erase, if_neg hne]
  simp only [renameXattrs, hsrc]
  split
  · rename_i attrs ha
    rw [get?_insert, get?_erase, get?_erase, ha]
    grind
  · rename_i ha
    rw [get?_erase, get?_erase, ha]
    grind

theorem movesTop_xattrs (s : SideData) (src dst : String) (inodes : InodeMaps) :
    MovesTop src dst s.attrs ({ s with xattrs := renameXattrs s.xattrs src dst, inodes } : SideData).attrs ∅ true := by
  refine ⟨fun _ hne => ?_, fun _ hne => ?_, fun p hs hd => ?_, by simp⟩
  · simp [attrs, getElem?_renameXattrs _ hne]
  · simp [attrs, getElem?_renameXattrs _ hne, hne]
  · by_cases hne : src = dst
    · subst hne
      simp [attrs, renameXattrs, get?_erase, hs]
    · simp [attrs, getElem?_renameXattrs _ hne, hs, hd]

theorem movesTop_sidecar {src : String} {entry : EntryMeta × Bytes} (hentry : s.sidecars[src]? = some entry) (dst : String)
    (inodes : InodeMaps) :
    MovesTop src dst s.sidecar ({ s with sidecars := (s.sidecars.erase src).insert dst entry, inodes } : SideData).sidecar
      none true := by
  refine ⟨fun _ _ => ?_, fun _ hne => ?_, fun p hs hd => ?_, by simp⟩
  · simp [sidecar, hentry]
  · simp [sidecar, get?_insert, hne]
  · simp [sidecar, get?_insert, get?_erase, hs, hd]

/-- What a successful rename does. -/
theorem rename_spec {parent newparent : Nat} {name newname src dst : String} {noreplace : Bool} {remote : Except Errno Unit}
    (hsrc : s.inodes.childPath parent name = .ok src) (hdst : s.inodes.childPath newparent newname = .ok dst)
    (hok : (s.rename ignore parent name newparent newname noreplace remote).2 = .ok ()) :
    let s' := (s.rename ignore parent name newparent newname noreplace remote).1
    s'.inodes = s.inodes.rename src dst ∧ MovesTop src dst s.attrs s'.attrs ∅ (!isSidecar src) ∧
      MovesTop src dst s.sidecar s'.sidecar none (isSidecar src) := by
  unfold rename at hok ⊢
  rw [hsrc, hdst] at hok ⊢
  simp only at hok ⊢
  split at hok
  · rename_i hside
    have hside : isSidecar src = true ∧ isSidecar dst = true := by simpa using hside
    split at hok
    · cases hok
    · rename_i entry hentry
      split at hok
      · cases hok
      · rename_i hfree
        simp only [hside.1, hside.2, Bool.and_self, if_true, if_neg hfree, Bool.not_true]
        exact ⟨trivial, movesTop_rfl, movesTop_sidecar hentry dst _⟩
  · split at hok
    · cases hok
    · rename_i hmixed hside
      have hside : isSidecar src = false ∧ isSidecar dst = false := by simpa using hside
      split at hok
      · cases hok
      · rename_i hignored
        split at hok
        · cases hok
        · simp only [hside.1, hside.2, Bool.and_self, Bool.or_self, Bool.false_eq_true, if_false, if_neg hignored, Bool.not_false]
          exact ⟨trivial, movesTop_xattrs s src dst _, movesTop_rfl⟩

/-- What a successful removal does: the attributes of the subtree go, or the contents of
the sidecar, or nothing. -/
theorem remove_spec {parent : Nat} {name path : String} {dir : Option Bool} {remote : Except Errno Unit}
    (hpath : s.inodes.childPath parent name = .ok path) (hok : (s.remove ignore parent name dir remote).2 = .ok ()) (p : String) :
    let s' := (s.remove ignore parent name dir remote).1
    s'.attrs p = (if isSidecar path = false ∧ shouldIgnoreRel ignore path = false ∧ matching path p = true then ∅ else s.attrs p) ∧
      s'.sidecar p = (if isSidecar path = true ∧ p = path then none else s.sidecar p) := by
  unfold remove at hok ⊢
  rw [hpath] at hok ⊢
  simp only at hok ⊢
  by_cases hside : isSidecar path = true
  · simp [hside, attrs, sidecar, get?_erase]
  · rw [if_neg hside] at hok ⊢
    by_cases hig : shouldIgnoreRel ignore path = true
    · simp [hside, hig]
    · rw [if_neg hig] at hok ⊢
      split at hok
      · cases hok
      · simp only [attrs, sidecar, get?_eraseWhere]
        simp only [Bool.not_eq_true] at hside hig
        cases matching path p <;> simp [hside, hig]

theorem cleared_iff {β : Type} (path : String) {T T' : String → β} {z : β} (gone : String → Bool)
    (hT : ∀ p, T' p = if gone p then z else T p) (hgone : ∀ p, gone p = true → matching path p = true) :
    Cleared path T T' z ↔ ∀ p, matching path p = true → gone p = false → T p = z := by
  constructor
  · intro hc p hp hg
    rw [← hc.old p hp, hT, if_neg (by simp [hg])]
  · intro hk
    refine ⟨fun p hp => ?_, fun p hp => ?_⟩
    · rw [hT]
      split
      · rfl
      · exact hk p hp (by simpa using ‹¬ gone p = true›)
    · rw [hT, if_neg]
      intro hg
      rw [hgone p hg] at hp
      cases hp

/-- In every state reached by calls of the mount: a rename or removal that succeeds takes
the side data along with the inodes if and only if there is none that it leaves behind. -/
theorem side_data_follows (calls : List SideCall) (c : SideCall)
    (hok : ((after ignore calls).call ignore c).2 = .ok ()) :
    FollowsInodes (after ignore calls) ((after ignore calls).call ignore c).1 c ↔
      NothingBehind ignore (after ignore calls) c := by
  have hv : (after ignore calls).inodes.Valid := after_valid calls
  generalize after ignore calls = s at hok hv ⊢
  cases c with
  | rename parent name newparent newname noreplace remote =>
    refine forall_congr' fun src => forall_congr' fun dst => imp_congr_right fun hsrc => imp_congr_right fun hdst => ?_
    obtain ⟨hino, hattrs, hside⟩ := rename_spec hsrc hdst hok
    simp only [call, hino]
    exact and_congr (follows_iff hv hattrs) (follows_iff hv hside)
  | remove parent name dir remote =>
    refine forall_congr' fun path => imp_congr_right fun hpath => ?_
    have hspec := fun p => remove_spec hpath hok p
    have hattrs := cleared_iff path (T := s.attrs) (z := ∅)
      (fun p => !isSidecar path && !shouldIgnoreRel ignore path && matching path p)
      (fun p => by simpa [Bool.and_assoc, and_assoc] using (hspec p).1) fun p hp => by simp_all
    have hside := cleared_iff path (T := s.sidecar) (z := none) (fun p => isSidecar path && decide (p = path))
      (fun p => by simpa using (hspec p).2) fun p hp => by
        simp only [Bool.and_eq_true, decide_eq_true_eq] at hp
        exact matching_iff.2 (.inl hp.2)
    refine and_congr (hattrs.trans ?_) (hside.trans ?_)
    · cases isSidecar path <;> cases shouldIgnoreRel ignore path <;> simp
      grind
    · cases isSidecar path <;> simp
  | _ => exact Iff.rfl

/-- A file with an attribute. -/
def tagged : List SideCall := [.ino "a", .setxattr 2 "k" [1] false false 0]

theorem tagged_attrs (p : String) : (after [] tagged).attrs p = if p = "a" then (∅ : Attrs).insert "k" [1] else ∅ := by
  have hx : (after [] tagged).xattrs = (∅ : ExtTreeMap String Attrs).insert "a" ((∅ : Attrs).insert "k" [1]) := by rfl
  rw [attrs, hx, get?_insert]
  split <;> simp

theorem side_data_follows_file :
    FollowsInodes (after [] tagged) ((after [] tagged).call [] (.rename 1 "a" 1 "b" false (.ok ()))).1
      (.rename 1 "a" 1 "b" false (.ok ())) := by
  refine (side_data_follows tagged (.rename 1 "a" 1 "b" false (.ok ())) (by rfl)).2 fun src dst hsrc hdst => ?_
  obtain rfl : "a" = src := by cases hsrc; rfl
  obtain rfl : "b" = dst := by cases hdst; rfl
  have hapart : ∀ p, matching "b" p = true → p ≠ "a" := by
    rintro p hp rfl
    exact absurd hp (by decide)
  have hnone : ∀ p, (after [] tagged).sidecar p = none := fun p => by
    have hx : (after [] tagged).sidecars = ∅ := by rfl
    rw [sidecar, hx]
    simp
  refine ⟨⟨fun p hp _ hps => ?_, fun p _ _ hd => ?_, fun p _ hp _ _ => ?_⟩, ⟨?_, ?_, ?_⟩⟩
  · rw [tagged_attrs, if_neg (hps (by decide))]
  · rw [tagged_attrs, if_neg (hapart p hd)]
  · rw [tagged_attrs, if_neg (hapart _ (matching_rebase "b" hp))]
  all_goals intros
  all_goals exact hnone _

/-- A directory with a file that has an attribute. -/
def taggedBelow : List SideCall := [.ino "d", .ino "d/f", .setxattr 3 "k" [1] false false 0]

/-- The directory is renamed, and the attribute stays at the old name of the file. -/
theorem rename_leaves_attribute :
    ((after [] taggedBelow).call [] (.rename 1 "d" 1 "e" false (.ok ()))).2 = .ok () ∧
      ¬ FollowsInodes (after [] taggedBelow) ((after [] taggedBelow).call [] (.rename 1 "d" 1 "e" false (.ok ()))).1
        (.rename 1 "d" 1 "e" false (.ok ())) := by
  refine ⟨by rfl, fun hf => ?_⟩
  have hino := (hf "d" "e" (by rfl) (by rfl)).1.inodes 3 "d/f" (by decide) (by decide)
  have hk := congrArg (fun attrs : Attrs => attrs["k"]?) hino
  exact absurd hk (by decide)

end SideData

end Mobfs
