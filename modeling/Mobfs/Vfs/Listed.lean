import Mobfs.Vfs.Mkdir
import Mobfs.Vfs.Readdir
/-!
# Attributes in listings

`list_dir` gives every entry its number and its attributes. A listing that is cached
yields to `metas`; one that comes from the remote does not, and goes into `metas` where
no write is pending. `getattr` and `lookup` always prefer `metas`, and neither takes the
attributes of a listing.

`listing_agrees_iff` says when the two tell the same of every entry.
-/

namespace Mobfs

open Lib Std
open WriteBack (matching)

/-! ## The calls -/

namespace MountTables

section Calls
variable (root : EntryMeta) (k : CacheClock) (t : MountTables)

def getattrFast (ino : Nat) : Option (Except Errno EntryMeta) :=
  match t.side.inodes.pathOf ino with
  | .error e => some (.error e)
  | .ok path =>
    if path = "" then some (.ok root)
    else if isSidecar path then
      match t.side.sidecars[path]? with
      | some (m, _) => some (.ok m)
      | none => some (.error .enoent)
    else (t.caches.metas[path]?).map .ok

/-- `stat` answers for the remote. -/
def getattr (ino : Nat) (stat : String → Except Errno (Option EntryMeta)) : MountTables × Except Errno EntryMeta :=
  match t.getattrFast root ino with
  | some result => (t, result)
  | none =>
    match t.side.inodes.pathOf ino with
    | .error e => (t, .error e)
    | .ok path =>
      match t.statRemote path (stat path) with
      | (t, .error e) => (t, .error e)
      | (t, .ok (some m)) => (t, .ok m)
      | (t, .ok none) => (t, .error .enoent)

def buildListing (dir : String) (fresh : Bool) : MountTables → DirEntries EntryMeta → MountTables × List DirItem
  | t, [] => (t, [])
  | t, (name, m) :: rest =>
    let path := joinRel dir name
    let t := if fresh && !t.hasPendingWrite path then { t with caches := t.caches.setMeta path m } else t
    let m := if fresh then m else (t.caches.metas[path]?).getD m
    let numbered := t.side.inodes.ino path
    let built := buildListing dir fresh (t.setInodes numbered.1) rest
    (built.1, (numbered.2, name, m) :: built.2)

def listDirFast (ino : Nat) : Option (MountTables × Except Errno (List DirItem)) :=
  match t.side.inodes.pathOf ino with
  | .error e => some (t, .error e)
  | .ok dir =>
    (t.caches.dirListing k dir).map fun entries =>
      let built := t.buildListing dir false entries
      (built.1, .ok built.2)

/-- `list` answers for the remote, at `now`. -/
def listDir (now ino : Nat) (list : String → Except Errno (DirEntries EntryMeta)) :
    MountTables × Except Errno (List DirItem) :=
  match t.listDirFast k ino with
  | some result => result
  | none =>
    match t.side.inodes.pathOf ino with
    | .error e => (t, .error e)
    | .ok dir =>
      match list dir with
      | .error e => (t, .error e)
      | .ok entries =>
        let built := { t with caches := t.caches.setDir dir now entries }.buildListing dir true entries
        (built.1, .ok built.2)

end Calls

end MountTables

section Remote
variable (w : Walks)

def statAnswer (tree : Tree) (p : String) : Except Errno (Option EntryMeta) := .ok (statRemote w tree p)

def listAnswer (ignore : List String) (tree : Tree) (d : String) : Except Errno (DirEntries EntryMeta) :=
  match listRemote w ignore tree d with
  | some entries => .ok entries
  | none => .error .enoent

/-- What is relied on beyond `Walks`: the entries of a directory are found under their names. -/
structure Walks.Enters : Prop where
  entry : ∀ t d q name, w.follow t d = some q → (q = "" ∨ t.isDir q = true) → t.node (joinRel q name) ≠ none →
    w.locate t (joinRel d name) = some (joinRel q name)

end Remote

/-- The paths of the tree are relative. -/
def Tree.Relative (t : Tree) : Prop := ∀ p, t.node p ≠ none → joinRel (splitParent p).1 (splitParent p).2 = p

def EntryMeta.SameAttrs (m m' : EntryMeta) : Prop := m.kind = m'.kind ∧ m.size = m'.size ∧ m.mode = m'.mode

instance (m m' : EntryMeta) : Decidable (m.SameAttrs m') := inferInstanceAs (Decidable (_ ∧ _))

theorem EntryMeta.SameAttrs.refl (m : EntryMeta) : m.SameAttrs m := ⟨rfl, rfl, rfl⟩

/-! ## The condition -/

namespace MountTables

section Condition
variable (w : Walks) (ignore : List String) (root : EntryMeta) (k : CacheClock) (tree : Tree) (t : MountTables)

/-- `getattr` and `lookup` say of an entry what the listing has said. -/
structure AgreesWith (dir : Nat) (x : DirItem) : Prop where
  getattr : ∃ m, (t.getattr root x.1 (statAnswer w tree)).2 = .ok m ∧ m.SameAttrs x.2.2
  lookup : ∃ path, t.side.inodes.childPath dir x.2.1 = .ok path ∧
    ∃ m, (t.lookup ignore k dir x.2.1 (statAnswer w tree path)).2 = .ok (x.1, m) ∧ m.SameAttrs x.2.2

/-- What `build_listing` shows of an entry. -/
def shown (dir : String) (fresh : Bool) (e : String × EntryMeta) : EntryMeta :=
  if fresh then e.2 else (t.caches.metas[joinRel dir e.1]?).getD e.2

/-- `child_path` takes the name. A sidecar is in the table of the sidecars, with what is
listed. Any other entry is not ignored; and if it comes from the remote, either no write is
pending or `metas` does not differ from the remote; if it comes from the cache, it is in
`metas` or as the remote has it. -/
def EntryOk (ino : Nat) (dir : String) (fresh : Bool) (e : String × EntryMeta) : Prop :=
  let path := joinRel dir e.1
  t.side.inodes.childPath ino e.1 = .ok path ∧
    if isSidecar path = true then ∃ x, t.side.sidecars[path]? = some x ∧ x.1.SameAttrs (t.shown dir fresh e)
    else shouldIgnoreRel ignore path = false ∧
      match t.caches.metas[path]? with
      | some m => fresh = true → t.hasPendingWrite path = true → m.SameAttrs e.2
      | none => fresh = false → ∃ m, Mobfs.statRemote w tree path = some m ∧ m.SameAttrs e.2

/-- The entries that `list_dir` goes through, from the cache or from the remote. -/
def ListingOk (ino : Nat) : Prop :=
  ∀ dir, t.side.inodes.pathOf ino = .ok dir →
    match t.caches.dirListing k dir with
    | some entries => ∀ e ∈ entries, t.EntryOk w ignore tree ino dir false e
    | none =>
      ∀ entries, listRemote w ignore tree dir = some entries → ∀ e ∈ entries, t.EntryOk w ignore tree ino dir true e

end Condition

/-! ## What `build_listing` does -/

section Build
variable {w : Walks} {ignore : List String} {root : EntryMeta} {k : CacheClock} {tree : Tree} {t t' : MountTables}
  {dir : String} {fresh : Bool} {entries : DirEntries EntryMeta}

/-- Numbers are only added. -/
structure Numbered (t t' : InodeMaps) : Prop where
  valid : t.Valid → t'.Valid
  kept : ∀ (p : String) (i : Nat), t.byPath[p]? = some i → t'.byPath[p]? = some i

theorem ino_numbered (t : InodeMaps) (path : String) : Numbered t (t.ino path).1 where
  valid h := (InodeMaps.ino_valid h path).1
  kept p i hp := by
    unfold InodeMaps.ino
    split
    · exact hp
    · rename_i hnone
      rw [get?_insert, if_neg]
      · exact hp
      · rintro rfl
        rw [hnone] at hp
        cases hp

theorem ino_byPath_self (t : InodeMaps) (path : String) : (t.ino path).1.byPath[path]? = some (t.ino path).2 := by
  unfold InodeMaps.ino
  split
  · assumption
  · rw [get?_insert, if_pos rfl]

theorem Numbered.trans {a b c : InodeMaps} (h : Numbered a b) (h' : Numbered b c) : Numbered a c :=
  ⟨fun hv => h'.valid (h.valid hv), fun p i hp => h'.kept p i (h.kept p i hp)⟩

/-- The numbers and `metas` apart, the tables are as before. -/
structure Beside (t t' : MountTables) : Prop where
  buffers : t'.buffers = t.buffers
  uploads : t'.uploads = t.uploads
  dirs : t'.caches.dirs = t.caches.dirs
  xattrs : t'.side.xattrs = t.side.xattrs
  sidecars : t'.side.sidecars = t.side.sidecars

theorem Beside.refl (t : MountTables) : Beside t t := ⟨rfl, rfl, rfl, rfl, rfl⟩

theorem Beside.trans {a b c : MountTables} (h : Beside a b) (h' : Beside b c) : Beside a c :=
  ⟨h'.buffers.trans h.buffers, h'.uploads.trans h.uploads, h'.dirs.trans h.dirs, h'.xattrs.trans h.xattrs,
    h'.sidecars.trans h.sidecars⟩

theorem Beside.hasPendingWrite (h : Beside t t') (path : String) :
    t'.hasPendingWrite path = t.hasPendingWrite path := by
  unfold MountTables.hasPendingWrite
  rw [h.buffers, h.uploads]

/-- `metas` has what it had of a path, or what the listing has. -/
def Filled (dir : String) (fresh : Bool) (entries : DirEntries EntryMeta) (t t' : MountTables) : Prop :=
  ∀ p : String, t'.caches.metas[p]? = t.caches.metas[p]? ∧
      (∀ e ∈ entries, joinRel dir e.1 = p → fresh = true → t.hasPendingWrite p = true) ∨
    fresh = true ∧ t.hasPendingWrite p = false ∧ ∃ e ∈ entries, joinRel dir e.1 = p ∧ t'.caches.metas[p]? = some e.2

structure Built (dir : String) (fresh : Bool) (entries : DirEntries EntryMeta) (t : MountTables)
    (r : MountTables × List DirItem) : Prop where
  beside : Beside t r.1
  inodes : Numbered t.side.inodes r.1.side.inodes
  filled : Filled dir fresh entries t r.1
  items : ∀ x ∈ r.2, ∃ e ∈ entries, x.2 = (e.1, t.shown dir fresh e) ∧
    r.1.side.inodes.byPath[joinRel dir e.1]? = some x.1
  all : ∀ e ∈ entries, ∃ x ∈ r.2, x.2 = (e.1, t.shown dir fresh e) ∧
    r.1.side.inodes.byPath[joinRel dir e.1]? = some x.1

/-- The entry goes into `metas`, and its path gets a number. -/
def enter (dir : String) (fresh : Bool) (t : MountTables) (e : String × EntryMeta) : MountTables :=
  let path := joinRel dir e.1
  let t := if fresh && !t.hasPendingWrite path then { t with caches := t.caches.setMeta path e.2 } else t
  t.setInodes (t.side.inodes.ino path).1

theorem enter_beside (dir : String) (fresh : Bool) (t : MountTables) (e : String × EntryMeta) :
    Beside t (enter dir fresh t e) := by
  simp only [enter]
  split <;> exact ⟨rfl, rfl, rfl, rfl, rfl⟩

theorem enter_inodes (dir : String) (fresh : Bool) (t : MountTables) (e : String × EntryMeta) :
    (enter dir fresh t e).side.inodes = (t.side.inodes.ino (joinRel dir e.1)).1 := by
  simp only [enter]
  split <;> rfl

theorem enter_metas (dir : String) (fresh : Bool) (t : MountTables) (e : String × EntryMeta) (p : String) :
    (enter dir fresh t e).caches.metas[p]? =
      if p = joinRel dir e.1 ∧ fresh = true ∧ t.hasPendingWrite p = false then some e.2 else t.caches.metas[p]? := by
  unfold enter
  by_cases hset : (fresh && !t.hasPendingWrite (joinRel dir e.1)) = true
  · simp only [hset, if_true]
    obtain ⟨rfl, hp⟩ := Bool.and_eq_true_iff.1 hset
    show (t.caches.metas.insert (joinRel dir e.1) e.2)[p]? = _
    rw [get?_insert]
    by_cases hpath : p = joinRel dir e.1
    · subst hpath
      simpa using fun h => by simp [h] at hp
    · simp [hpath]
  · simp only [Bool.not_eq_true] at hset
    simp only [hset, Bool.false_eq_true, if_false]
    rw [if_neg]
    · rfl
    · rintro ⟨rfl, rfl, hp⟩
      simp [hp] at hset

theorem buildListing_cons (dir : String) (fresh : Bool) (t : MountTables) (e : String × EntryMeta)
    (rest : DirEntries EntryMeta) :
    t.buildListing dir fresh (e :: rest) =
      let built := (enter dir fresh t e).buildListing dir fresh rest
      (built.1, ((t.side.inodes.ino (joinRel dir e.1)).2, e.1, t.shown dir fresh e) :: built.2) := by
  obtain ⟨name, m⟩ := e
  rw [buildListing]
  cases fresh with
  | false => rfl
  | true =>
    simp only [enter, shown, Bool.true_and, if_true]
    cases t.hasPendingWrite (joinRel dir name) <;> rfl

theorem shown_enter (dir : String) (fresh : Bool) (t : MountTables) (e e' : String × EntryMeta) :
    (enter dir fresh t e).shown dir fresh e' = t.shown dir fresh e' := by
  cases fresh with
  | true => rfl
  | false => simp only [shown, enter_metas, Bool.false_eq_true, false_and, and_false, if_false]

/-- By induction on the listing, the tables after each entry being those of `enter`. -/
theorem buildListing_built (dir : String) (fresh : Bool) (entries : DirEntries EntryMeta) (t : MountTables) :
    Built dir fresh entries t (t.buildListing dir fresh entries) := by
  induction entries generalizing t with
  | nil =>
    refine ⟨.refl t, ⟨id, fun _ _ h => h⟩, fun p => .inl ⟨rfl, ?_⟩, ?_, ?_⟩
    all_goals simp [buildListing]
  | cons e rest ih =>
    have hb := ih (enter dir fresh t e)
    have hbeside := enter_beside dir fresh t e
    have hnumbers : Numbered t.side.inodes (enter dir fresh t e).side.inodes := by
      rw [enter_inodes]
      exact ino_numbered _ _
    have hself : ((enter dir fresh t e).buildListing dir fresh rest).1.side.inodes.byPath[joinRel dir e.1]? =
        some (t.side.inodes.ino (joinRel dir e.1)).2 := by
      refine hb.inodes.kept _ _ ?_
      rw [enter_inodes]
      exact ino_byPath_self _ _
    rw [buildListing_cons]
    refine ⟨hbeside.trans hb.beside, hnumbers.trans hb.inodes, fun p => ?_, fun x hx => ?_, fun e' he' => ?_⟩
    · have hpend := hbeside.hasPendingWrite p
      rcases hb.filled p with ⟨hsame, hno⟩ | ⟨hfresh, hp, e', he', hpath, hm⟩
      · rw [enter_metas] at hsame
        by_cases hset : p = joinRel dir e.1 ∧ fresh = true ∧ t.hasPendingWrite p = false
        · rw [if_pos hset] at hsame
          exact .inr ⟨hset.2.1, hset.2.2, e, List.mem_cons_self, hset.1.symm, hsame⟩
        · rw [if_neg hset] at hsame
          refine .inl ⟨hsame, fun e' he' hpath hfresh => ?_⟩
          rcases List.mem_cons.1 he' with rfl | he'
          · by_contra hp
            exact hset ⟨hpath.symm, hfresh, by simpa using hp⟩
          · exact hpend ▸ hno e' he' hpath hfresh
      · exact .inr ⟨hfresh, hpend ▸ hp, e', List.mem_cons_of_mem _ he', hpath, hm⟩
    · rcases List.mem_cons.1 hx with rfl | hx
      · exact ⟨e, List.mem_cons_self, rfl, hself⟩
      · obtain ⟨e', he', hshown, hino⟩ := hb.items x hx
        exact ⟨e', List.mem_cons_of_mem _ he', by rw [hshown, shown_enter], hino⟩
    · rcases List.mem_cons.1 he' with rfl | he'
      · exact ⟨_, List.mem_cons_self, rfl, hself⟩
      · obtain ⟨x, hx, hshown, hino⟩ := hb.all e' he'
        exact ⟨x, List.mem_cons_of_mem _ hx, by rw [hshown, shown_enter], hino⟩

/-! ## One entry -/

theorem splitParent_joinRel {d n : String} (hn : '/' ∉ n.toList) : splitParent (joinRel d n) = (d, n) := by
  unfold joinRel
  split
  · rename_i hd
    rcases splitParent_cases n with ⟨-, hs, -⟩ | ⟨parent, name, -, -, heq, -⟩
    · rw [hs, hd]
    · exact absurd (by simp [heq]) hn
  · have htext : (d ++ "/" ++ n).toList = d.toList ++ '/' :: n.toList := by simp
    rcases splitParent_cases (d ++ "/" ++ n) with ⟨-, -, hno⟩ | ⟨parent, name, -, hs, heq, hname⟩
    · exact absurd (by simp) hno
    · rw [htext] at heq
      obtain rfl := String.toList_inj.1 (append_slash_inj heq hn hname)
      have hrest := List.append_cancel_left heq
      simp only [List.cons.injEq, true_and] at hrest
      rw [hs, String.toList_inj.1 hrest]

theorem childPath_ok {s : InodeMaps} {parent : Nat} {name path : String} (h : s.childPath parent name = .ok path) :
    '/' ∉ name.toList ∧ ∃ d, s.pathOf parent = .ok d ∧ path = joinRel d name := by
  unfold InodeMaps.childPath at h
  split at h
  · cases h
  · rename_i hname
    split at h
    · cases h
    · cases hdir : s.pathOf parent with
      | error e =>
        rw [hdir] at h
        cases h
      | ok d =>
        rw [hdir] at h
        cases h
        exact ⟨fun hs => hname (.inr (.inr (.inr hs))), d, rfl, rfl⟩

theorem pathOf_iff {s : InodeMaps} {i : Nat} {p : String} : s.pathOf i = .ok p ↔ s.byIno[i]? = some p := by
  unfold InodeMaps.pathOf
  cases s.byIno[i]? with
  | none => simp
  | some q => simp

theorem Numbered.pathOf {s s' : InodeMaps} (h : Numbered s s') (hv : s.Valid) {i : Nat} {p : String}
    (hp : s.pathOf i = .ok p) : s'.pathOf i = .ok p := by
  rw [pathOf_iff] at hp ⊢
  exact ((h.valid hv).inverse p i).1 (h.kept p i ((hv.inverse p i).2 hp))

theorem Numbered.childPath {s s' : InodeMaps} (h : Numbered s s') (hv : s.Valid) {i : Nat} {p : String}
    (hp : s.pathOf i = .ok p) (name : String) : s'.childPath i name = s.childPath i name := by
  unfold InodeMaps.childPath
  rw [h.pathOf hv hp, hp]

/-- What the tables and the remote tell of a path. -/
def told (w : Walks) (tree : Tree) (t : MountTables) (p : String) : Option EntryMeta :=
  if isSidecar p then (t.side.sidecars[p]?).map (·.1) else (t.caches.metas[p]?).or (Mobfs.statRemote w tree p)

theorem getattr_told {i : Nat} {p : String} (hp : t.side.inodes.pathOf i = .ok p) (hne : p ≠ "") :
    (t.getattr root i (statAnswer w tree)).2 =
      match told w tree t p with
      | some m => .ok m
      | none => .error .enoent := by
  unfold told
  cases hside : isSidecar p with
  | true =>
    cases hs : t.side.sidecars[p]? <;> simp [getattr, getattrFast, hp, hne, hside, hs]
  | false =>
    cases hm : t.caches.metas[p]? with
    | some m => simp [getattr, getattrFast, hp, hne, hside, hm]
    | none =>
      cases hs : Mobfs.statRemote w tree p <;>
        simp [getattr, getattrFast, hp, hne, hside, hm, MountTables.statRemote, statAnswer, hs]

theorem found_numbered {p : String} {i : Nat} {m : EntryMeta} (hi : t.side.inodes.byPath[p]? = some i) :
    (t.found p m).2 = .ok (i, m) := by
  rw [found]
  unfold InodeMaps.ino
  rw [hi]

theorem lookup_told {parent i : Nat} {name : String} (hc : t.side.inodes.childPath parent name = .ok (joinRel dir name))
    (hi : t.side.inodes.byPath[joinRel dir name]? = some i) (hk : t.caches.Keeps dir name) :
    (t.lookup ignore k parent name (statAnswer w tree (joinRel dir name))).2 =
      if isSidecar (joinRel dir name) = false ∧ shouldIgnoreRel ignore (joinRel dir name) = true then .error .enoent
      else
        match told w tree t (joinRel dir name) with
        | some m => .ok (i, m)
        | none => .error .enoent := by
  unfold told
  cases hside : isSidecar (joinRel dir name) with
  | true =>
    cases hs : t.side.sidecars[joinRel dir name]? <;> simp [lookup, lookupFast, hc, hside, hs, found_numbered hi]
  | false =>
    cases hign : shouldIgnoreRel ignore (joinRel dir name) with
    | true => simp [lookup, lookupFast, hc, hside, hign]
    | false =>
      rw [lookup_eq hc hside hign, splitParent_joinRel (childPath_ok hc).1, hk.known]
      cases hm : t.caches.metas[joinRel dir name]? with
      | some m => simp [found_numbered hi]
      | none =>
        cases hs : Mobfs.statRemote w tree (joinRel dir name) with
        | none => simp [MountTables.statRemote, statAnswer, hs]
        | some m =>
          simp only [MountTables.statRemote, statAnswer, hs, Bool.false_eq_true, if_false, Option.none_or, and_false]
          cases t.hasPendingWrite (joinRel dir name) with
          | true => exact found_numbered hi
          | false => exact found_numbered (t := { t with caches := t.caches.setMeta (joinRel dir name) m }) hi

/-- Of an entry that is numbered and in the listing that is kept, `getattr` and `lookup`
tell the same, if `lookup` takes its name and does not ignore it. -/
theorem agreesWith_iff {ino : Nat} {x : DirItem} {name : String} {m : EntryMeta} (hv : t.side.inodes.Valid)
    (hdir : t.side.inodes.pathOf ino = .ok dir) (hx : x.2 = (name, m))
    (hi : t.side.inodes.byPath[joinRel dir name]? = some x.1) (hk : t.caches.Keeps dir name) :
    t.AgreesWith w ignore root k tree ino x ↔
      t.side.inodes.childPath ino name = .ok (joinRel dir name) ∧
        (isSidecar (joinRel dir name) = true ∨ shouldIgnoreRel ignore (joinRel dir name) = false) ∧
        ∃ m', told w tree t (joinRel dir name) = some m' ∧ m'.SameAttrs m := by
  obtain ⟨i, name', m'⟩ := x
  obtain ⟨rfl, rfl⟩ := Prod.mk.inj hx
  have hp : t.side.inodes.pathOf i = .ok (joinRel dir name') := pathOf_iff.2 ((hv.inverse _ _).1 hi)
  constructor
  · rintro ⟨⟨m, hget, hsame⟩, path, hc, m', hlook, hsame'⟩
    obtain ⟨-, d, hd, rfl⟩ := childPath_ok hc
    obtain rfl : dir = d := by
      rw [hdir] at hd
      exact Except.ok.inj hd
    rw [lookup_told hc hi hk] at hlook
    refine ⟨hc, ?_⟩
    split at hlook
    · cases hlook
    · rename_i hign
      refine ⟨?_, ?_⟩
      · cases hs : isSidecar (joinRel dir name') with
        | true => exact .inl rfl
        | false => exact .inr (by simpa [hs] using hign)
      · split at hlook
        · rename_i m'' hm''
          cases hlook
          exact ⟨_, hm'', hsame'⟩
        · cases hlook
  · rintro ⟨hc, hign, m', hm', hsame⟩
    refine ⟨⟨m', ?_, hsame⟩, _, hc, m', ?_, hsame⟩
    · rw [getattr_told hp (childPath_ne hc), hm']
    · rw [lookup_told hc hi hk, if_neg, hm']
      rintro ⟨hs, hi⟩
      rcases hign with h | h
      · rw [hs] at h
        cases h
      · rw [hi] at h
        cases h

/-- What the listing and the tables after it say of an entry, by the tables before it. -/
theorem told_iff {r : MountTables × List DirItem} {e : String × EntryMeta} (hb : Built dir fresh entries t r)
    (he : e ∈ entries) (hside : isSidecar (joinRel dir e.1) = false)
    (hfresh : fresh = true → ∀ e ∈ entries, Mobfs.statRemote w tree (joinRel dir e.1) = some e.2) :
    (∃ m, told w tree r.1 (joinRel dir e.1) = some m ∧ m.SameAttrs (t.shown dir fresh e)) ↔
      match t.caches.metas[joinRel dir e.1]? with
      | some m => fresh = true → t.hasPendingWrite (joinRel dir e.1) = true → m.SameAttrs e.2
      | none => fresh = false → ∃ m, Mobfs.statRemote w tree (joinRel dir e.1) = some m ∧ m.SameAttrs e.2 := by
  have htold : told w tree r.1 (joinRel dir e.1) =
      (r.1.caches.metas[joinRel dir e.1]?).or (Mobfs.statRemote w tree (joinRel dir e.1)) := by
    rw [told, hside]
    rfl
  rw [htold]
  rcases hb.filled (joinRel dir e.1) with ⟨hsame, hpend⟩ | ⟨rfl, hpend, e', he', hpath, hm⟩
  · rw [hsame]
    cases hm : t.caches.metas[joinRel dir e.1]? with
    | some m =>
      cases fresh with
      | true => simp [shown, hpend e he rfl rfl]
      | false => simp [shown, hm, EntryMeta.SameAttrs.refl]
    | none =>
      cases fresh with
      | true => simp [shown, hfresh rfl e he, EntryMeta.SameAttrs.refl]
      | false => simp [shown, hm]
  · -- Whichever entry of the listing went into `metas`, the remote has the same at this path.
    have he2 : e'.2 = e.2 := by
      have h' := hfresh rfl e' he'
      rw [hpath, hfresh rfl e he] at h'
      exact (Option.some.inj h').symm
    have hl : ∃ m, (r.1.caches.metas[joinRel dir e.1]?).or (Mobfs.statRemote w tree (joinRel dir e.1)) = some m ∧
        m.SameAttrs (t.shown dir true e) := ⟨e.2, by rw [hm, he2]; rfl, .refl _⟩
    refine iff_of_true hl ?_
    split
    · intro _ hp
      rw [hpend] at hp
      cases hp
    · intro hf
      cases hf

theorem listed_iff {ino : Nat} (hv : t.side.inodes.Valid) (hdir : t.side.inodes.pathOf ino = .ok dir)
    (hkeeps : ∀ e ∈ entries, t.caches.Keeps dir e.1)
    (hfresh : fresh = true → ∀ e ∈ entries, Mobfs.statRemote w tree (joinRel dir e.1) = some e.2) :
    (∀ x ∈ (t.buildListing dir fresh entries).2,
        (t.buildListing dir fresh entries).1.AgreesWith w ignore root k tree ino x) ↔
      ∀ e ∈ entries, t.EntryOk w ignore tree ino dir fresh e := by
  have hb := buildListing_built dir fresh entries t
  generalize t.buildListing dir fresh entries = r at hb ⊢
  have hone : ∀ x : DirItem, ∀ e ∈ entries, x.2 = (e.1, t.shown dir fresh e) →
      r.1.side.inodes.byPath[joinRel dir e.1]? = some x.1 →
      (r.1.AgreesWith w ignore root k tree ino x ↔ t.EntryOk w ignore tree ino dir fresh e) := by
    intro x e he hx hnum
    have hk : r.1.caches.Keeps dir e.1 := by
      have hk := hkeeps e he
      unfold Caches.Keeps at hk ⊢
      rwa [hb.beside.dirs]
    rw [agreesWith_iff (hb.inodes.valid hv) (hb.inodes.pathOf hv hdir) hx hnum hk, EntryOk, hb.inodes.childPath hv hdir]
    refine and_congr_right fun _ => ?_
    cases hside : isSidecar (joinRel dir e.1) with
    | true =>
      have htold : told w tree r.1 (joinRel dir e.1) = (t.side.sidecars[joinRel dir e.1]?).map (·.1) := by
        rw [told, hside, hb.beside.sidecars]
        rfl
      simp [htold]
    | false => simp [told_iff hb he hside hfresh]
  constructor
  · intro h e he
    obtain ⟨x, hx, hshown, hnum⟩ := hb.all e he
    exact (hone x e he hshown hnum).1 (h x hx)
  · intro h x hx
    obtain ⟨e, he, hshown, hnum⟩ := hb.items x hx
    exact (hone x e he hshown hnum).2 (h e he)

/-! ## The remote -/

theorem statRemote_of_listed (hw : w.Enters) (htree : tree.Relative) (h : listRemote w ignore tree dir = some entries)
    {e : String × EntryMeta} (he : e ∈ entries) : Mobfs.statRemote w tree (joinRel dir e.1) = some e.2 := by
  obtain ⟨all, hall, rfl⟩ := Option.map_eq_some_iff.1 h
  obtain ⟨q, hq, hall⟩ := Option.bind_eq_some_iff.1 hall
  obtain ⟨hqdir, hall⟩ := Option.ite_none_right_eq_some.1 hall
  cases hall
  obtain ⟨p, hp, hm⟩ := List.mem_filterMap.1 (List.mem_filter.1 he).1
  obtain ⟨hparent, hm⟩ := Option.ite_none_right_eq_some.1 hm
  obtain ⟨m, hbind, rfl⟩ := Option.map_eq_some_iff.1 hm
  have hjoin : joinRel q (splitParent p).2 = p := by
    rw [← hparent]
    exact htree p (Tree.mem_paths.1 hp)
  have hloc := hw.entry tree dir q (splitParent p).2 hq hqdir (by rw [hjoin]; exact Tree.mem_paths.1 hp)
  rw [Mobfs.statRemote, Links.lookup, hloc, hjoin, Option.bind_some]
  exact hbind

theorem keeps_of_listing {created : Nat} {c : Caches EntryMeta} (hd : c.dirs[dir]? = some (created, entries))
    {e : String × EntryMeta} (he : e ∈ entries) : c.Keeps dir e.1 := by
  intro created' entries' hd'
  obtain ⟨-, rfl⟩ := Prod.mk.inj (Option.some.inj (hd.symm.trans hd'))
  exact List.mem_map_of_mem he

/-- In every state of the inodes that calls of the mount lead to, whatever is cached,
buffered and in flight: of every entry that `list_dir` returns, `getattr` and `lookup` say
the same right after, if and only if every entry it goes through is in order. -/
theorem listing_agrees_iff (root : EntryMeta) (hw : w.Enters) (htree : tree.Relative) (calls : List SideCall)
    (ht : t.side = SideData.after ignore calls) (k' : CacheClock) (now ino : Nat) :
    (∀ items, (t.listDir k now ino (listAnswer w ignore tree)).2 = .ok items → ∀ x ∈ items,
        (t.listDir k now ino (listAnswer w ignore tree)).1.AgreesWith w ignore root k' tree ino x) ↔
      t.ListingOk w ignore k tree ino := by
  have hv : t.side.inodes.Valid := by
    rw [ht]
    exact SideData.after_valid calls
  unfold ListingOk listDir listDirFast
  cases hdir : t.side.inodes.pathOf ino with
  | error e => simp
  | ok dir =>
    simp only [Except.ok.injEq, forall_eq']
    cases hl : t.caches.dirListing k dir with
    | some entries =>
      obtain ⟨created, hd⟩ : ∃ created, t.caches.dirs[dir]? = some (created, entries) := by
        unfold Caches.dirListing at hl
        split at hl
        · cases hl
        · rename_i created entries' hd
          obtain ⟨-, hl⟩ := Option.ite_none_right_eq_some.1 hl
          cases hl
          exact ⟨created, hd⟩
      simp only [Option.map_some, Except.ok.injEq, forall_eq']
      exact listed_iff hv hdir (fun e he => keeps_of_listing hd he) fun h => by cases h
    | none =>
      simp only [Option.map_none, listAnswer]
      cases hr : listRemote w ignore tree dir with
      | none => simp
      | some entries =>
        simp only [Except.ok.injEq, forall_eq', Option.some.injEq]
        refine listed_iff (t := { t with caches := t.caches.setDir dir now entries }) hv hdir (fun e he => ?_)
          fun _ e he => statRemote_of_listed hw htree hr he
        have hd : (t.caches.dirs.insert dir (now, entries))[dir]? = some (now, entries) := by
          rw [get?_insert, if_pos rfl]
        exact keeps_of_listing hd he

end Build

/-! ## A write that is still buffered -/

theorem textWalks_enters : textWalks.Enters where
  entry := by
    rintro t d q name ⟨⟩ - -
    rfl

def rootMeta : EntryMeta := ⟨.dir, 0, 0, none, 0o755, none⟩

/-- What the daemon has of the file that `written` has made, and with the byte. -/
def emptyA : Tree := .build [("a", .file [] 420 9)]

def byteA : Tree := .build [("a", .file [7] 420 9)]

theorem byteA_relative : byteA.Relative := by
  intro p hp
  have hmem : p ∈ byteA.paths := Tree.mem_paths.2 hp
  rw [show byteA.paths = ["a"] by decide] at hmem
  obtain rfl := List.mem_singleton.1 hmem
  decide

theorem listing_agrees_uploaded :
    let r := written.listDir ⟨1, true, 0⟩ 0 1 (listAnswer textWalks [] byteA)
    r.2 = .ok [(2, "a", ⟨.file, 1, 9, none, 420, none⟩)] ∧
      r.1.AgreesWith textWalks [] rootMeta ⟨1, true, 0⟩ byteA 1 (2, "a", ⟨.file, 1, 9, none, 420, none⟩) := by
  intro r
  have hr : r.2 = .ok [(2, "a", ⟨.file, 1, 9, none, 420, none⟩)] := by rfl
  have hagrees := listing_agrees_iff (k := ⟨1, true, 0⟩) (t := written) rootMeta textWalks_enters byteA_relative
    [.create 1 "a" 0o644 false 0 (.ok ())] rfl ⟨1, true, 0⟩ 0 1
  refine ⟨hr, hagrees.2 ?_ _ hr _ List.mem_cons_self⟩
  intro dir hdir
  obtain rfl : "" = dir := by cases hdir; rfl
  intro entries hentries e he
  obtain rfl : [("a", ⟨.file, 1, 9, none, 420, none⟩)] = entries := by cases hentries; rfl
  obtain rfl := List.mem_singleton.1 he
  exact ⟨by rfl, by decide, fun _ _ => by decide⟩

/-- The listing comes from the remote and has no byte of the file; `getattr` has the one
that is written. -/
theorem listing_lacks_write :
    let r := written.listDir ⟨1, true, 0⟩ 0 1 (listAnswer textWalks [] emptyA)
    r.2 = .ok [(2, "a", ⟨.file, 0, 9, none, 420, none⟩)] ∧
      (r.1.getattr rootMeta 2 (statAnswer textWalks emptyA)).2 = .ok (fileMeta 1 0o644 0) ∧
      ¬ r.1.AgreesWith textWalks [] rootMeta ⟨1, true, 0⟩ emptyA 1 (2, "a", ⟨.file, 0, 9, none, 420, none⟩) := by
  intro r
  have hget : (r.1.getattr rootMeta 2 (statAnswer textWalks emptyA)).2 = .ok (fileMeta 1 0o644 0) := by rfl
  refine ⟨by rfl, hget, fun h => ?_⟩
  obtain ⟨m, hm, hsame⟩ := h.getattr
  rw [hget] at hm
  cases hm
  revert hsame
  decide

end MountTables

end Mobfs
