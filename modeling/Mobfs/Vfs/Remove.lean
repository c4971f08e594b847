import Mobfs.Vfs.Caches
import Mobfs.Vfs.SideData
/-!
# Removals that fail

`remove` finds out the kind of the entry where it is not told, asks whether a directory
is empty, drops the writes still buffered under the path, waits for its uploads, and
only then sends its request. The other tables are changed after the request has
succeeded.

`failed_remove_iff` says when a failed call has left the tables alone.
-/

namespace Mobfs

open Lib Std
open WriteBack (matching)

/-- What the remote requests of a call end in. -/
structure RemoveAnswers where
  stat : Except Errno (Option EntryMeta)
  /-- `list_dir`, which leaves ignored entries out. -/
  list : Except Errno (List (String × EntryMeta))
  /-- `mutate`, with its journal. -/
  removed : Except Errno Unit

/-- The tables that `remove` reads or changes. -/
structure MountTables where
  buffers : ExtTreeMap Nat Pending
  uploads : List Upload
  caches : Caches EntryMeta
  side : SideData

namespace MountTables

section Calls
variable (ignore : List String) (k : CacheClock) (t : MountTables)

def hasPendingWrite (path : String) : Bool :=
  (t.buffers.toList.any fun x => matching path x.2.path) || t.uploads.any fun u => matching path u.pending.path

def setInodes (inodes : InodeMaps) : MountTables := { t with side := { t.side with inodes } }

/-- `(self.ino(&path), meta)`. -/
def found (path : String) (m : EntryMeta) : MountTables × Except Errno (Nat × EntryMeta) :=
  (t.setInodes (t.side.inodes.ino path).1, .ok ((t.side.inodes.ino path).2, m))

def statRemote (path : String) : Except Errno (Option EntryMeta) → MountTables × Except Errno (Option EntryMeta)
  | .error e => (t, .error e)
  | .ok (some m) =>
    (if t.hasPendingWrite path then t else { t with caches := t.caches.setMeta path m }, .ok (some m))
  | .ok none => ({ t with caches := t.caches.forget path }, .ok none)

def lookupFast (parent : Nat) (name : String) : Option (MountTables × Except Errno (Nat × EntryMeta)) :=
  match t.side.inodes.childPath parent name with
  | .error e => some (t, .error e)
  | .ok path =>
    if isSidecar path then
      match t.side.sidecars[path]? with
      | some (m, _) => some (t.found path m)
      | none => some (t, .error .enoent)
    else if shouldIgnoreRel ignore path then some (t, .error .enoent)
    else
      match t.caches.metas[path]? with
      | some m => some (t.found path m)
      | none => if t.caches.knownAbsent k (splitParent path).1 name then some (t, .error .enoent) else none

def lookup (parent : Nat) (name : String) (stat : Except Errno (Option EntryMeta)) :
    MountTables × Except Errno (Nat × EntryMeta) :=
  match t.lookupFast ignore k parent name with
  | some result => result
  | none =>
    match t.side.inodes.childPath parent name with
    | .error e => (t, .error e)
    | .ok path =>
      match t.statRemote path stat with
      | (t, .error e) => (t, .error e)
      | (t, .ok (some m)) => t.found path m
      | (t, .ok none) => (t, .error .enoent)

/-- The kind that `remove` goes by: whether the entry is a directory. -/
def kindOf (parent : Nat) (name : String) (dir : Option Bool) (stat : Except Errno (Option EntryMeta)) :
    MountTables × Except Errno Bool :=
  match dir with
  | some dir => (t, .ok dir)
  | none =>
    let (t, found) := t.lookup ignore k parent name stat
    (t, found.map fun entry => entry.2.kind = .dir)

/-- `remove` from where it drops the buffered writes. -/
def removeEntry (path : String) (removed : Except Errno Unit) : MountTables × Except Errno Unit :=
  let t := { t with
    buffers := t.buffers.filter fun _ c => !matching path c.path
    uploads := t.uploads.filter fun u => u.pending.path ≠ path }
  match removed with
  | .error e => (t, .error e)
  | .ok () =>
    ({ t with
      caches := t.caches.removed path
      side := { t.side with
        xattrs := eraseWhere t.side.xattrs (matching path)
        inodes := t.side.inodes.removeTree path } }, .ok ())

def remove (parent : Nat) (name : String) (dir : Option Bool) (a : RemoveAnswers) : MountTables × Except Errno Unit :=
  match t.side.inodes.childPath parent name with
  | .error e => (t, .error e)
  | .ok path =>
    if isSidecar path then
      ({ t with side := { t.side with
        sidecars := t.side.sidecars.erase path
        inodes := t.side.inodes.removeTree path } }, .ok ())
    else if shouldIgnoreRel ignore path then (t, .ok ())
    else
      match t.kindOf ignore k parent name dir a.stat with
      | (t, .error e) => (t, .error e)
      | (t, .ok false) => t.removeEntry path a.removed
      | (t, .ok true) =>
        match a.list with
        | .error e => (t, .error e)
        | .ok entries => if entries.isEmpty then t.removeEntry path a.removed else (t, .error .enotempty)

/-- What a flush of the handle sends to the remote: `dispatch_pending` goes by the path
that the inode has now. -/
def dispatched (fh : Nat) : Option (String × Nat × Bytes) :=
  t.buffers[fh]?.map fun c => ((t.side.inodes.byIno[c.ino]?).getD c.path, c.offset, c.data)

end Calls

/-! ## What a failed call has changed -/

/-- The tables are as they were. -/
structure Kept (t t' : MountTables) : Prop where
  buffers : t'.buffers = t.buffers
  metas : t'.caches.metas = t.caches.metas
  listings : t'.caches.dirs = t.caches.dirs
  xattrs : t'.side.xattrs = t.side.xattrs
  sidecars : t'.side.sidecars = t.side.sidecars
  inodes : t'.side.inodes = t.side.inodes

section Condition
variable (k : CacheClock) (t : MountTables) (path name : String)

/-- Asking for the entry puts nothing new into `metas` or the inodes. -/
def LearnsNothing (stat : Except Errno (Option EntryMeta)) : Prop :=
  match t.caches.metas[path]?, stat with
  | some _, _ => (t.side.inodes.byPath[path]?).isSome
  | none, .ok (some _) =>
    t.caches.knownAbsent k (splitParent path).1 name = true ∨
      t.hasPendingWrite path = true ∧ (t.side.inodes.byPath[path]?).isSome
  | none, _ => True

/-- The kind of the entry, if it is known or can be found out. -/
def kindFound (dir : Option Bool) (stat : Except Errno (Option EntryMeta)) : Option Bool :=
  match dir, t.caches.metas[path]?, stat with
  | some dir, _, _ => some dir
  | none, some m, _ => some (m.kind = .dir)
  | none, none, .ok (some m) =>
    if t.caches.knownAbsent k (splitParent path).1 name then none else some (m.kind = .dir)
  | none, none, _ => none

/-- The kind cannot be found out, or it is that of a directory that is not listed as empty. -/
def GoesNoFurther (kind : Option Bool) (a : RemoveAnswers) : Prop :=
  kind = none ∨ kind = some true ∧ ∀ entries, a.list = .ok entries → entries ≠ []

/-- The call fails before it drops anything, or there is nothing to drop. -/
def DiscardsNothing (dir : Option Bool) (a : RemoveAnswers) : Prop :=
  GoesNoFurther (t.kindFound k path name dir a.stat) a ∨
    ∀ (fh : Nat) (c : Pending), t.buffers[fh]? = some c → matching path c.path = false

structure LosesNothing (dir : Option Bool) (a : RemoveAnswers) : Prop where
  learns : dir = none → t.LearnsNothing k path name a.stat
  discards : t.DiscardsNothing k path name dir a

end Condition

section Proofs
variable {ignore : List String} {k : CacheClock} {t t' : MountTables} {path name : String} {parent : Nat}

theorem Kept.refl (t : MountTables) : Kept t t := ⟨rfl, rfl, rfl, rfl, rfl, rfl⟩

theorem Kept.dispatched (h : Kept t t') (fh : Nat) : t'.dispatched fh = t.dispatched fh := by
  unfold MountTables.dispatched
  rw [h.buffers, h.inodes]

theorem ino_fst_eq_iff (s : InodeMaps) : (s.ino path).1 = s ↔ (s.byPath[path]?).isSome := by
  unfold InodeMaps.ino
  split
  · rename_i h
    simp [h]
  · rename_i h
    rw [h]
    refine ⟨fun he => ?_, fun h => by cases h⟩
    have := congrArg InodeMaps.next he
    simp at this

theorem insert_eq_iff {m : ExtTreeMap String EntryMeta} (h : m[path]? = none) (x : EntryMeta) : m.insert path x ≠ m := by
  intro he
  have hx : (m.insert path x)[path]? = some x := by simp
  rw [he, h] at hx
  cases hx

theorem erase_absent {m : ExtTreeMap String EntryMeta} (h : m[path]? = none) : m.erase path = m := by
  apply ExtTreeMap.ext_getElem?
  intro p
  rw [get?_erase]
  split
  · rename_i hp
    rw [hp, h]
  · rfl

theorem filter_buffers_eq_iff (m : ExtTreeMap Nat Pending) :
    (m.filter fun _ c => !matching path c.path) = m ↔ ∀ (fh : Nat) (c : Pending), m[fh]? = some c → matching path c.path = false := by
  constructor
  · intro he fh c hc
    rw [← he, ExtTreeMap.getElem?_filter', Option.filter_eq_some_iff] at hc
    simpa using hc.2
  · intro h
    apply ExtTreeMap.ext_getElem?
    intro fh
    rw [ExtTreeMap.getElem?_filter']
    cases hc : m[fh]? with
    | none => rfl
    | some c => simp [h fh c hc]

/-- What the tables are after asking for the kind of an entry, and what comes out. -/
structure Asked (k : CacheClock) (t : MountTables) (path name : String) (dir : Option Bool)
    (stat : Except Errno (Option EntryMeta)) (result : MountTables × Except Errno Bool) : Prop where
  buffers : result.1.buffers = t.buffers
  listings : result.1.caches.dirs = t.caches.dirs
  xattrs : result.1.side.xattrs = t.side.xattrs
  sidecars : result.1.side.sidecars = t.side.sidecars
  learned : (result.1.caches.metas = t.caches.metas ∧ result.1.side.inodes = t.side.inodes) ↔
    (dir = none → t.LearnsNothing k path name stat)
  kind : result.2.toOption = t.kindFound k path name dir stat

theorem lookup_eq (hpath : t.side.inodes.childPath parent name = .ok path) (hside : isSidecar path = false)
    (hign : shouldIgnoreRel ignore path = false) (stat : Except Errno (Option EntryMeta)) :
    t.lookup ignore k parent name stat =
      match t.caches.metas[path]? with
      | some m => t.found path m
      | none =>
        if t.caches.knownAbsent k (splitParent path).1 name then (t, .error .enoent)
        else
          match t.statRemote path stat with
          | (t, .error e) => (t, .error e)
          | (t, .ok (some m)) => t.found path m
          | (t, .ok none) => (t, .error .enoent) := by
  simp only [lookup, lookupFast, hpath, hside, hign, Bool.false_eq_true, if_false]
  cases t.caches.metas[path]? with
  | some m => rfl
  | none =>
    cases t.caches.knownAbsent k (splitParent path).1 name with
    | true => rfl
    | false => rfl

theorem kindOf_asked (hpath : t.side.inodes.childPath parent name = .ok path) (hside : isSidecar path = false)
    (hign : shouldIgnoreRel ignore path = false) (dir : Option Bool) (stat : Except Errno (Option EntryMeta)) :
    Asked k t path name dir stat (t.kindOf ignore k parent name dir stat) := by
  cases dir with
  | some dir => exact ⟨rfl, rfl, rfl, rfl, by simp [kindOf], by simp [kindOf, kindFound, Except.toOption]⟩
  | none =>
    simp only [kindOf, lookup_eq hpath hside hign]
    cases hm : t.caches.metas[path]? with
    | some m =>
      refine ⟨rfl, rfl, rfl, rfl, ?_, ?_⟩
      · simp [found, setInodes, ino_fst_eq_iff, LearnsNothing, hm]
      · simp [found, kindFound, hm, Except.map, Except.toOption]
    | none =>
      cases hk : t.caches.knownAbsent k (splitParent path).1 name with
      | true =>
        refine ⟨rfl, rfl, rfl, rfl, ?_, ?_⟩
        · rcases stat with e | m | m <;> simp [LearnsNothing, hm, hk]
        · rcases stat with e | m | m <;> simp [kindFound, hm, hk, Except.map, Except.toOption]
      | false =>
        rcases stat with e | _ | m
        · refine ⟨rfl, rfl, rfl, rfl, ?_, ?_⟩
          · simp [statRemote, LearnsNothing, hm]
          · simp [statRemote, kindFound, hm, Except.map, Except.toOption]
        · refine ⟨rfl, rfl, rfl, rfl, ?_, ?_⟩
          · simp [statRemote, LearnsNothing, hm, erase_absent hm]
          · simp [statRemote, kindFound, hm, Except.map, Except.toOption]
        · cases hp : t.hasPendingWrite path with
          | true =>
            refine ⟨?_, ?_, ?_, ?_, ?_, ?_⟩
            all_goals simp [statRemote, found, setInodes, ino_fst_eq_iff, LearnsNothing, kindFound, hm, hk, hp, Except.map,
              Except.toOption]
          | false =>
            refine ⟨?_, ?_, ?_, ?_, ?_, ?_⟩
            all_goals simp [statRemote, found, setInodes, insert_eq_iff hm, LearnsNothing, kindFound, hm, hk, hp, Except.map,
              Except.toOption]

/-- A call that has failed: it stopped once the kind was asked for, or its request has
failed and the buffers are gone. -/
theorem remove_failed {dir : Option Bool} {a : RemoveAnswers} {e : Errno}
    (hpath : t.side.inodes.childPath parent name = .ok path) (h : (t.remove ignore k parent name dir a).2 = .error e) :
    isSidecar path = false ∧ shouldIgnoreRel ignore path = false ∧
      let asked := t.kindOf ignore k parent name dir a.stat
      let t' := (t.remove ignore k parent name dir a).1
      (GoesNoFurther asked.2.toOption a ∧ t' = asked.1 ∨
        ¬ GoesNoFurther asked.2.toOption a ∧ t' = (asked.1.removeEntry path (.error e)).1) := by
  simp only [remove, hpath] at h ⊢
  cases hside : isSidecar path with
  | true => simp [hside] at h
  | false =>
    cases hign : shouldIgnoreRel ignore path with
    | true => simp [hside, hign] at h
    | false =>
      refine ⟨rfl, rfl, ?_⟩
      simp only [hside, hign, Bool.false_eq_true, if_false] at h ⊢
      generalize t.kindOf ignore k parent name dir a.stat = asked at h ⊢
      obtain ⟨t₁, kind⟩ := asked
      have hremoved : (t₁.removeEntry path a.removed).2 = .error e → a.removed = .error e := by
        unfold removeEntry
        cases a.removed with
        | error e' => exact id
        | ok _ => exact fun h => by cases h
      rcases kind with e' | _ | _
      · exact .inl ⟨.inl rfl, rfl⟩
      · simp only at h
        refine .inr ⟨by simp [GoesNoFurther, Except.toOption], ?_⟩
        rw [hremoved h]
      · simp only at h ⊢
        cases hl : a.list with
        | error e' => exact .inl ⟨.inr ⟨rfl, by simp [hl]⟩, rfl⟩
        | ok entries =>
          rw [hl] at h
          cases entries with
          | nil =>
            refine .inr ⟨by simp [GoesNoFurther, Except.toOption, hl], ?_⟩
            simp only [List.isEmpty_nil, if_true] at h ⊢
            rw [hremoved h]
          | cons x entries => exact .inl ⟨.inr ⟨rfl, by simp [hl]⟩, rfl⟩

/-- A failed `remove` has left the tables alone, and what was written is still sent by the
next flush, if and only if asking for the entry told nothing new and nothing was dropped. -/
theorem failed_remove_iff {dir : Option Bool} {a : RemoveAnswers} {e : Errno}
    (h : (t.remove ignore k parent name dir a).2 = .error e) :
    let t' := (t.remove ignore k parent name dir a).1
    (Kept t t' ∧ ∀ fh, t'.dispatched fh = t.dispatched fh) ↔
      ∀ path, t.side.inodes.childPath parent name = .ok path → t.LosesNothing k path name dir a := by
  intro t'
  cases hpath : t.side.inodes.childPath parent name with
  | error e' =>
    have ht : t' = t := by simp only [t', remove, hpath]
    rw [ht]
    constructor
    · intro _ path hp
      cases hp
    · intro _
      exact ⟨.refl t, fun _ => rfl⟩
  | ok path =>
    obtain ⟨hside, hign, hcases⟩ := remove_failed hpath h
    have hasked := kindOf_asked (k := k) hpath hside hign dir a.stat
    have hkept : (Kept t t' ∧ ∀ fh, t'.dispatched fh = t.dispatched fh) ↔ Kept t t' :=
      ⟨fun hk => hk.1, fun hk => ⟨hk, hk.dispatched⟩⟩
    rw [hkept]
    have hgoal : Kept t t' ↔ t.LosesNothing k path name dir a := by
      rcases hcases with ⟨hearly, ht⟩ | ⟨hlate, ht⟩
      · rw [hasked.kind] at hearly
        constructor
        · intro hk
          rw [show t' = _ from ht] at hk
          exact ⟨hasked.learned.1 ⟨hk.metas, hk.inodes⟩, .inl hearly⟩
        · intro hl
          rw [show t' = _ from ht]
          obtain ⟨hmetas, hinodes⟩ := hasked.learned.2 hl.learns
          exact ⟨hasked.buffers, hmetas, hasked.listings, hasked.xattrs, hasked.sidecars, hinodes⟩
      · rw [hasked.kind] at hlate
        have hbuf : t'.buffers = t.buffers ↔ ∀ (fh : Nat) (c : Pending), t.buffers[fh]? = some c → matching path c.path = false := by
          rw [show t' = _ from ht, ← filter_buffers_eq_iff]
          simp only [removeEntry, hasked.buffers]
        constructor
        · intro hk
          refine ⟨hasked.learned.1 ⟨?_, ?_⟩, .inr (hbuf.1 hk.buffers)⟩
          · rw [← hk.metas, show t' = _ from ht]
            rfl
          · rw [← hk.inodes, show t' = _ from ht]
            rfl
        · intro hl
          obtain ⟨hmetas, hinodes⟩ := hasked.learned.2 hl.learns
          have hnone : ∀ (fh : Nat) (c : Pending), t.buffers[fh]? = some c → matching path c.path = false := by
            rcases hl.discards with hd | hd
            · exact absurd hd hlate
            · exact hd
          have hb := hbuf.2 hnone
          rw [show t' = _ from ht] at hb ⊢
          exact ⟨hb, hmetas, hasked.listings, hasked.xattrs, hasked.sidecars, hinodes⟩
    rw [hgoal]
    constructor
    · intro hl q hq
      cases hq
      exact hl
    · intro hl
      exact hl path rfl

end Proofs

/-! ## A buffered write is gone -/

/-- After `create` and a `write` of one byte to it. -/
def written : MountTables where
  buffers := (∅ : ExtTreeMap Nat Pending).insert 1 (.single 2 ⟨0, 1, "a", 0, [7]⟩)
  uploads := []
  caches := Caches.empty.setMeta "a" (fileMeta 1 0o644 0)
  side := SideData.after [] [.create 1 "a" 0o644 false 0 (.ok ())]

/-- The daemon rejects the removal, and the byte that `write` has taken is nowhere. -/
theorem failed_remove_drops_write :
    let a : RemoveAnswers := ⟨.ok none, .ok [], .error .eacces⟩
    let failed := written.remove [] ⟨1, true, 0⟩ 1 "a" (some false) a
    failed.2 = .error .eacces ∧ written.dispatched 1 = some ("a", 0, [7]) ∧ failed.1.dispatched 1 = none := by
  refine ⟨by rfl, by rfl, ?_⟩
  change ((written.buffers.filter fun _ c => !matching "a" c.path)[1]?).map _ = none
  rw [ExtTreeMap.getElem?_filter']
  rfl

theorem failed_remove_iff_other :
    let a : RemoveAnswers := ⟨.ok none, .ok [], .error .eacces⟩
    Kept written (written.remove [] ⟨1, true, 0⟩ 1 "b" (some false) a).1 := by
  intro a
  have hfailed : (written.remove [] ⟨1, true, 0⟩ 1 "b" (some false) a).2 = .error .eacces := by rfl
  refine ((failed_remove_iff hfailed).2 ?_).1
  intro path hpath
  obtain rfl : "b" = path := by cases hpath; rfl
  have hdir : (some false : Option Bool) ≠ none := by decide
  refine ⟨fun h => absurd h hdir, .inr fun fh c hc => ?_⟩
  have hc : (if fh = 1 then some (Pending.single 2 ⟨0, 1, "a", 0, [7]⟩) else (∅ : ExtTreeMap Nat Pending)[fh]?) = some c := by
    rw [← hc]
    exact (get?_insert ..).symm
  split at hc
  · cases hc
    decide
  · simp at hc

end MountTables

end Mobfs
