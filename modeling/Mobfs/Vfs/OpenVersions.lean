import Mobfs.Vfs.BlockCache
import Mobfs.Vfs.InodeMaps
import Mobfs.Vfs.NameCache
/-!
# The versions of the inodes

The kernel keeps the pages of a file from one open to the next only if `open` tells it to. The
mount counts the changes of others for each inode, and remembers at an open how many there
were: the kernel may keep its pages if there are no more at the next open. An NFS client is
told of a change by the nanoseconds of the file's times, which are that count.

`open_keeps_unchanged` is about the whole mount: while inodes are made, renamed and removed,
the feed thread applies its events, and files are created and opened.
-/

namespace Mobfs

open Lib Std
open WriteBack (matching)

/-- What the feed thread turns to. -/
inductive Renewal where
  | event (e : ChangeEvent)
  /-- `invalidate_all`. -/
  | reset

/-- The contents of the file with that path may be others. -/
def Renewal.renews : Renewal → String → Bool
  | .event ⟨path, .write _ _⟩, p => p = path
  | .event ⟨path, .replaced⟩, p => matching path p
  | .event ⟨_, .metadata⟩, _ => false
  | .reset, _ => true

/-- What has happened so far. -/
inductive VersionMark where
  | opened (ino : Nat) (keep : Bool)
  | stat (ino nseconds : Nat)
  | changed (ino : Nat)
  /-- The feed thread has looked up the inodes, which were these. -/
  | applied (r : Renewal) (inodes : InodeMaps)
  /-- `create` has looked up the inode of the file, which is now empty. -/
  | created (ino : Nat)

/-- `versions`: the count of changes of an inode, and what it was at the last open. `todo`,
`created`: the inodes that the feed thread, or a `create`, has still to count a change for.
`log` is for the proof, the newest mark first. -/
structure OpenVersions where
  inodes : InodeMaps
  versions : Nat → Option (Nat × Nat)
  todo : List Nat
  created : List Nat
  log : List VersionMark

inductive VersionAct where
  | inodes (c : InodeMaps.Call)
  /-- The feed thread turns to the next event of a reply, or to its reset. `pending`: a write
  to the path is pending. -/
  | apply (r : Renewal) (pending : Bool)
  | bump
  /-- `create` has succeeded on the remote. -/
  | create (path : String)
  | bumpCreated (ino : Nat)
  | opens (ino : Nat)
  /-- The attributes of an inode go out. -/
  | fattr (ino : Nat)

def VersionMark.changes (ino : Nat) : VersionMark → Bool
  | .changed i => i = ino
  | _ => false

namespace OpenVersions

def start : OpenVersions := ⟨.new, fun _ => none, [], [], []⟩

/-- `data_version`. -/
def dataVersion (s : OpenVersions) (ino : Nat) : Nat := ((s.versions ino).map Prod.fst).getD 0

/-- `bump_version`. -/
def bumpVersion (s : OpenVersions) (ino : Nat) : OpenVersions :=
  let entry := (s.versions ino).getD (0, 0)
  { s with versions := Function.update s.versions ino (some (entry.1 + 1, entry.2)), log := .changed ino :: s.log }

/-- The inodes that `apply_change` and `invalidate_all` count a change for. -/
def gather (t : InodeMaps) : Renewal → List Nat
  | .event ⟨path, .write _ _⟩ => t.byPath[path]?.toList
  | .event ⟨_, .metadata⟩ => []
  | .event ⟨path, .replaced⟩ => (subtreeKeys t.byPath path).filterMap fun key => t.byPath[key]?
  | .reset => t.byIno.keys

/-- An event that `apply_change` passes over. -/
def passes (ignore : List String) (pending : Bool) : Renewal → Bool
  | .event e => ignored ignore e.path || pending
  | .reset => false

/-- `open`: the entry of the inode as it then is, and whether the kernel keeps its pages. -/
def openFile (s : OpenVersions) (ino : Nat) : (Nat × Nat) × Bool :=
  let entry := (s.versions ino).getD (0, u64Max)
  ((entry.1, entry.1), entry.1 = entry.2)

def step (ignore : List String) (s : OpenVersions) : VersionAct → Option OpenVersions
  | .inodes c => some { s with inodes := s.inodes.call c }
  | .apply r pending =>
    match s.todo with
    | [] =>
      if passes ignore pending r then some s
      else some { s with todo := gather s.inodes r, log := .applied r s.inodes :: s.log }
    | _ => none
  | .bump =>
    match s.todo with
    | ino :: todo => some { s.bumpVersion ino with todo }
    | [] => none
  | .create path =>
    let r := s.inodes.ino path
    some { s with inodes := r.1, created := r.2 :: s.created, log := .created r.2 :: s.log }
  | .bumpCreated ino =>
    if ino ∈ s.created then some { s.bumpVersion ino with created := s.created.erase ino } else none
  | .opens ino =>
    -- `path_of` fails for an inode without a path.
    if s.inodes.byIno[ino]?.isSome then
      some { s with
        versions := Function.update s.versions ino (some (s.openFile ino).1)
        log := .opened ino (s.openFile ino).2 :: s.log }
    else none
  | .fattr ino => some { s with log := .stat ino (s.dataVersion ino % 1000000000) :: s.log }

/-! ## What the marks say -/

/-- The changes of an inode so far. -/
def changes (ino : Nat) (log : List VersionMark) : Nat := log.countP (·.changes ino)

/-- How many changes there were when the inode was last opened. -/
def openedAt (ino : Nat) : List VersionMark → Option Nat
  | [] => none
  | .opened i _ :: older => if i = ino then some (changes ino older) else openedAt ino older
  | _ :: older => openedAt ino older

/-- The inode has been opened, and has not changed since. -/
def Unchanged (ino : Nat) (log : List VersionMark) : Prop :=
  ∃ between keep older, log = between ++ .opened ino keep :: older ∧ .changed ino ∉ between

section Marks

variable {ino : Nat} {m : VersionMark} {log older : List VersionMark}

theorem changes_cons : changes ino (m :: log) = changes ino log + if m.changes ino then 1 else 0 := List.countP_cons

theorem changes_append : changes ino (log ++ older) = changes ino log + changes ino older := List.countP_append

theorem changes_le_cons : changes ino log ≤ changes ino (m :: log) := by
  rw [changes_cons]
  omega

theorem openedAt_le {n : Nat} (h : openedAt ino log = some n) : n ≤ changes ino log := by
  induction log with
  | nil => cases h
  | cons m log ih =>
    cases m with
    | opened i keep =>
      simp only [openedAt] at h
      split at h
      · cases h
        exact changes_le_cons
      · exact (ih h).trans changes_le_cons
    | _ => exact (ih h).trans changes_le_cons

theorem unchanged_cons (hopen : ∀ keep, m ≠ .opened ino keep) :
    Unchanged ino (m :: log) ↔ m ≠ .changed ino ∧ Unchanged ino log := by
  constructor
  · rintro ⟨between, keep, older, he, hno⟩
    cases between with
    | nil => exact absurd (List.cons.inj he).1 (hopen keep)
    | cons m' between =>
      obtain ⟨rfl, htail⟩ := List.cons.inj he
      simp only [List.mem_cons, not_or] at hno
      exact ⟨Ne.symm hno.1, between, keep, older, htail, hno.2⟩
  · rintro ⟨hm, between, keep, older, he, hno⟩
    refine ⟨m :: between, keep, older, by rw [he]; rfl, ?_⟩
    simp only [List.mem_cons, not_or]
    exact ⟨Ne.symm hm, hno⟩

theorem openedAt_eq_changes : openedAt ino log = some (changes ino log) ↔ Unchanged ino log := by
  induction log with
  | nil => simp [openedAt, Unchanged]
  | cons m log ih =>
    cases m with
    | opened i keep =>
      by_cases hi : i = ino
      · subst hi
        simp only [openedAt, if_pos, changes_cons, VersionMark.changes]
        exact iff_of_true rfl ⟨[], keep, log, rfl, List.not_mem_nil⟩
      · rw [unchanged_cons (fun keep' he => hi (VersionMark.opened.inj he).1), ← ih]
        simp [openedAt, hi, changes_cons, VersionMark.changes]
    | changed i =>
      rw [unchanged_cons (fun _ he => by cases he), ← ih]
      by_cases hi : i = ino
      · subst hi
        simp only [openedAt, changes_cons, VersionMark.changes, decide_true, if_pos, ne_eq, not_true_eq_false, false_and,
          iff_false]
        intro ho
        have := openedAt_le ho
        omega
      · simp [openedAt, hi, changes_cons, VersionMark.changes]
    | stat i n =>
      rw [unchanged_cons (fun _ he => by cases he), ← ih]
      simp [openedAt, changes_cons, VersionMark.changes]
    | applied r t =>
      rw [unchanged_cons (fun _ he => by cases he), ← ih]
      simp [openedAt, changes_cons, VersionMark.changes]
    | created i =>
      rw [unchanged_cons (fun _ he => by cases he), ← ih]
      simp [openedAt, changes_cons, VersionMark.changes]

end Marks

/-! ## The invariant -/

/-- The inodes of which the feed thread counts a change are those of the files that the event
may have changed. -/
theorem mem_gather {t : InodeMaps} (ht : t.Valid) (r : Renewal) (i : Nat) :
    i ∈ gather t r ↔ ((t.byIno[i]?).any r.renews) = true := by
  rw [Option.any_eq_true]
  cases r with
  | reset =>
    unfold gather
    rw [ExtTreeMap.mem_keys, ← ExtTreeMap.isSome_getElem?_iff_mem, Option.isSome_iff_exists]
    simp [Renewal.renews]
  | event e =>
    obtain ⟨path, kind⟩ := e
    cases kind with
    | write offset len =>
      simp only [gather, Option.mem_toList, Renewal.renews, decide_eq_true_eq, ht.inverse path i]
      constructor
      · exact fun h => ⟨path, h, rfl⟩
      · rintro ⟨p, h, rfl⟩
        exact h
    | metadata => simp [gather, Renewal.renews]
    | replaced =>
      simp only [gather, List.mem_filterMap, mem_subtreeKeys, Renewal.renews]
      constructor
      · rintro ⟨p, ⟨-, hm⟩, h⟩
        exact ⟨p, (ht.inverse p i).1 h, hm⟩
      · rintro ⟨p, h, hm⟩
        have hp := (ht.inverse p i).2 h
        exact ⟨p, ⟨ExtTreeMap.isSome_getElem?_iff_mem.1 (by rw [hp]; rfl), hm⟩, hp⟩

theorem count_gather {t : InodeMaps} (ht : t.Valid) (r : Renewal) (i : Nat) :
    (gather t r).count i = if (t.byIno[i]?).any r.renews then 1 else 0 := by
  have hnodup : (gather t r).Nodup := by
    cases r with
    | reset => exact ExtTreeMap.nodup_keys
    | event e =>
      obtain ⟨path, kind⟩ := e
      cases kind with
      | write offset len =>
        simp only [gather]
        cases t.byPath[path]? <;> simp
      | metadata => exact List.nodup_nil
      | replaced =>
        refine List.Nodup.filterMap (fun p q i hp hq => ?_) (nodup_subtreeKeys _ _)
        exact ht.inj (Option.mem_def.1 hp) (Option.mem_def.1 hq)
  rw [hnodup.count]
  simp only [mem_gather ht]

/-- The file of the inode may have other contents from this mark on. -/
def Touches (ino : Nat) : VersionMark → Bool
  | .applied r t => (t.byIno[ino]?).any r.renews
  | .created i => i = ino
  | _ => false

def touches (ino : Nat) (log : List VersionMark) : Nat := log.countP (Touches ino)

theorem touches_cons {ino : Nat} {m : VersionMark} {log : List VersionMark} :
    touches ino (m :: log) = touches ino log + if Touches ino m then 1 else 0 := List.countP_cons

/-- What a mark says of the time before. -/
def MarkRight (older : List VersionMark) : VersionMark → Prop
  | .opened ino keep => keep = true ↔ Unchanged ino older
  | .stat ino nseconds => nseconds = changes ino older % 1000000000
  | _ => True

def MarksRight : List VersionMark → Prop
  | [] => True
  | m :: older => MarkRight older m ∧ MarksRight older

theorem MarksRight.at_mark {newer older : List VersionMark} {m : VersionMark} (h : MarksRight (newer ++ m :: older)) :
    MarkRight older m := by
  induction newer with
  | nil => exact h.1
  | cons m' newer ih => exact ih h.2

/-- For every inode whose file may have changed, a change has been counted since, or will be. -/
def AllDue (todo created : List Nat) (log : List VersionMark) : Prop :=
  ∀ newer m older, log = newer ++ m :: older → ∀ i, Touches i m = true → .changed i ∈ newer ∨ i ∈ todo ∨ i ∈ created

theorem AllDue.cons {todo todo' created created' : List Nat} {log : List VersionMark} {m : VersionMark}
    (h : AllDue todo created log) (htodo : ∀ i ∈ todo, m = .changed i ∨ i ∈ todo')
    (hcreated : ∀ i ∈ created, m = .changed i ∨ i ∈ created') (hm : ∀ i, Touches i m = true → i ∈ todo' ∨ i ∈ created') :
    AllDue todo' created' (m :: log) := by
  intro newer x older he i hx
  cases newer with
  | nil =>
    obtain rfl := (List.cons.inj he).1
    exact .inr (hm i hx)
  | cons m' newer =>
    obtain ⟨rfl, htail⟩ := List.cons.inj he
    rcases h newer x older htail i hx with hc | ht | hc
    · exact .inl (List.mem_cons_of_mem _ hc)
    · rcases htodo i ht with rfl | ht
      · exact .inl List.mem_cons_self
      · exact .inr (.inl ht)
    · rcases hcreated i hc with rfl | hc
      · exact .inl List.mem_cons_self
      · exact .inr (.inr hc)

/-- The entry of an inode counts its changes, and has what the count was at the last open. -/
structure VersionsInv (s : OpenVersions) : Prop where
  valid : s.inodes.Valid
  count : ∀ ino, s.dataVersion ino = changes ino s.log
  opened : ∀ ino n, openedAt ino s.log = some n → ∃ c, s.versions ino = some (c, n)
  unopened : ∀ ino, openedAt ino s.log = none → s.versions ino = none ∨ ∃ c, s.versions ino = some (c, 0) ∧ 0 < c
  right : MarksRight s.log
  due : AllDue s.todo s.created s.log
  exact : ∀ i, changes i s.log + s.todo.count i + s.created.count i = touches i s.log

variable {s s' : OpenVersions} {ignore : List String} {a : VersionAct}

theorem VersionsInv.keep (hi : s.VersionsInv) (ino : Nat) : (s.openFile ino).2 = true ↔ Unchanged ino s.log := by
  have hc := hi.count ino
  rw [← openedAt_eq_changes, ← hc]
  unfold openFile dataVersion
  cases ho : openedAt ino s.log with
  | none =>
    rcases hi.unopened ino ho with hv | ⟨c, hv, hpos⟩
    · simp [hv, u64Max]
    · simp only [hv, Option.getD_some, decide_eq_true_eq]
      exact iff_of_false (by omega) (by simp)
  | some n =>
    obtain ⟨c, hv⟩ := hi.opened ino n ho
    simp only [hv, Option.getD_some, Option.map_some, decide_eq_true_eq, Option.some.injEq]
    exact eq_comm

theorem start_inv : start.VersionsInv := by
  refine ⟨InodeMaps.new_valid, fun _ => rfl, fun _ _ h => ?_, fun _ _ => .inl rfl, trivial, ?_, fun i => rfl⟩
  · cases h
  · intro newer m older he
    simp [start] at he

/-- A mark that is none of an open or of a change. -/
theorem VersionsInv.mark {m : VersionMark} {inodes : InodeMaps} {todo created : List Nat} (hi : s.VersionsInv)
    (hvalid : inodes.Valid) (hm : ∀ ino, m.changes ino = false)
    (hopen : ∀ ino, openedAt ino (m :: s.log) = openedAt ino s.log)
    (hright : MarkRight s.log m) (hdue : AllDue todo created (m :: s.log))
    (hexact : ∀ i, todo.count i + created.count i = s.todo.count i + s.created.count i + if Touches i m then 1 else 0) :
    ({ s with inodes, todo, created, log := m :: s.log } : OpenVersions).VersionsInv := by
  refine ⟨hvalid, fun ino => ?_, fun ino n ho => ?_, fun ino ho => ?_, ⟨hright, hi.right⟩, hdue, fun i => ?_⟩
  · rw [changes_cons, hm ino]
    exact hi.count ino
  · exact hi.opened ino n ((hopen ino).symm.trans ho)
  · exact hi.unopened ino ((hopen ino).symm.trans ho)
  · have := hi.exact i
    have := hexact i
    simp only [changes_cons, touches_cons, hm i, Bool.false_eq_true, if_false]
    omega

theorem VersionsInv.bumped {ino : Nat} {todo created : List Nat} (hi : s.VersionsInv)
    (htodo : ∀ i ∈ s.todo, i = ino ∨ i ∈ todo) (hcreated : ∀ i ∈ s.created, i = ino ∨ i ∈ created)
    (hone : ∀ i, todo.count i + created.count i + (if ino = i then 1 else 0) = s.todo.count i + s.created.count i) :
    ({ s.bumpVersion ino with todo, created } : OpenVersions).VersionsInv := by
  refine ⟨hi.valid, fun i => ?_, fun i n hopen => ?_, fun i hopen => ?_, ⟨trivial, hi.right⟩, ?_, fun i => ?_⟩
  · have hc := hi.count i
    show ((Function.update s.versions ino _ i).map Prod.fst).getD 0 = changes i (.changed ino :: s.log)
    rw [changes_cons, ← hc]
    by_cases hs : i = ino
    · subst hs
      cases hv : s.versions i <;> simp [dataVersion, hv, VersionMark.changes]
    · simp [Function.update_of_ne hs, dataVersion, VersionMark.changes, Ne.symm hs]
  · obtain ⟨c, hv⟩ := hi.opened i n hopen
    by_cases hs : i = ino
    · subst hs
      exact ⟨c + 1, by simp [bumpVersion, hv]⟩
    · exact ⟨c, by simp [bumpVersion, Function.update_of_ne hs, hv]⟩
  · by_cases hs : i = ino
    · subst hs
      rcases hi.unopened i hopen with hv | ⟨c, hv, -⟩
      · exact .inr ⟨1, by simp [bumpVersion, hv], Nat.one_pos⟩
      · exact .inr ⟨c + 1, by simp [bumpVersion, hv], Nat.succ_pos c⟩
    · simp only [bumpVersion, Function.update_of_ne hs]
      exact hi.unopened i hopen
  · refine hi.due.cons (fun i hm => ?_) (fun i hm => ?_) (fun i hm => by cases hm)
    · exact (htodo i hm).imp_left fun he => by rw [he]
    · exact (hcreated i hm).imp_left fun he => by rw [he]
  · have := hi.exact i
    have := hone i
    show changes i (.changed ino :: s.log) + todo.count i + created.count i = touches i (.changed ino :: s.log)
    simp only [changes_cons, touches_cons, VersionMark.changes, Touches, Bool.false_eq_true, if_false, decide_eq_true_eq]
    omega

theorem VersionsInv.apply {r : Renewal} {pending : Bool} (hi : s.VersionsInv)
    (h : s.step ignore (.apply r pending) = some s') : s'.VersionsInv := by
  simp only [OpenVersions.step] at h
  split at h
  · rename_i htodo
    split at h
    · cases h
      exact hi
    · cases h
      refine hi.mark hi.valid (fun _ => rfl) (fun _ => rfl) trivial ?_ fun i => ?_
      · refine hi.due.cons (fun i hm => ?_) (fun i hm => .inr hm) (fun i hm => .inl ((mem_gather hi.valid r i).2 hm))
        rw [htodo] at hm
        cases hm
      · rw [count_gather hi.valid, htodo, List.count_nil, Nat.zero_add, Nat.add_comm]
        rfl
  · cases h

theorem VersionsInv.bump (hi : s.VersionsInv) (h : s.step ignore .bump = some s') : s'.VersionsInv := by
  simp only [OpenVersions.step] at h
  split at h
  · rename_i ino todo htodo
    cases h
    refine hi.bumped (fun i hm => ?_) (fun i hm => .inr hm) (fun i => ?_)
    · rw [htodo] at hm
      exact List.mem_cons.1 hm
    · show todo.count i + s.created.count i + _ = _
      rw [htodo, List.count_cons]
      simp only [beq_iff_eq]
      omega
  · cases h

theorem VersionsInv.bumpCreated {ino : Nat} (hi : s.VersionsInv) (h : s.step ignore (.bumpCreated ino) = some s') :
    s'.VersionsInv := by
  simp only [OpenVersions.step] at h
  split at h
  · rename_i hc
    cases h
    refine hi.bumped (fun i hm => .inr hm) (fun i hm => ?_) (fun i => ?_)
    · by_cases hs : i = ino
      · exact .inl hs
      · exact .inr ((List.mem_erase_of_ne hs).2 hm)
    · have hpos := List.count_pos_iff.2 hc
      show s.todo.count i + (s.created.erase ino).count i + _ = _
      rw [List.count_erase]
      by_cases hs : ino = i
      · subst hs
        simp only [beq_self_eq_true, if_true]
        omega
      · simp [hs]
  · cases h

theorem VersionsInv.opens {ino : Nat} (hi : s.VersionsInv) (h : s.step ignore (.opens ino) = some s') :
    s'.VersionsInv := by
  simp only [OpenVersions.step] at h
  split at h
  · cases h
    refine ⟨hi.valid, fun i => ?_, fun i n ho => ?_, fun i ho => ?_, ⟨hi.keep ino, hi.right⟩, ?_, fun i => ?_⟩
    · have hc := hi.count i
      show ((Function.update s.versions ino _ i).map Prod.fst).getD 0 = changes i (.opened ino _ :: s.log)
      rw [changes_cons, ← hc]
      by_cases hs : i = ino
      · subst hs
        cases hv : s.versions i <;> simp [openFile, dataVersion, hv, VersionMark.changes]
      · simp [Function.update_of_ne hs, dataVersion, VersionMark.changes]
    · by_cases hs : i = ino
      · subst hs
        simp only [openedAt, if_pos, Option.some.injEq] at ho
        have hc := hi.count i
        refine ⟨n, ?_⟩
        rw [← ho, ← hc]
        cases hv : s.versions i <;> simp [openFile, dataVersion, hv]
      · simp only [openedAt, if_neg (Ne.symm hs)] at ho
        simp only [Function.update_of_ne hs]
        exact hi.opened i n ho
    · by_cases hs : i = ino
      · subst hs
        simp [openedAt] at ho
      · simp only [openedAt, if_neg (Ne.symm hs)] at ho
        simp only [Function.update_of_ne hs]
        exact hi.unopened i ho
    · exact hi.due.cons (fun i hm => .inr hm) (fun i hm => .inr hm) (fun i hm => by cases hm)
    · simp only [changes_cons, touches_cons, VersionMark.changes, Touches, Bool.false_eq_true, if_false, Nat.add_zero]
      exact hi.exact i
  · cases h

theorem VersionsInv.step (hi : s.VersionsInv) (h : s.step ignore a = some s') : s'.VersionsInv := by
  cases a with
  | inodes c =>
    cases h
    exact ⟨(InodeMaps.call_valid hi.valid c).1, hi.count, hi.opened, hi.unopened, hi.right, hi.due, hi.exact⟩
  | apply r pending => exact hi.apply h
  | bump => exact hi.bump h
  | create path =>
    cases h
    refine hi.mark (InodeMaps.ino_valid hi.valid path).1 (fun _ => rfl) (fun _ => rfl) trivial ?_ fun i => ?_
    · refine hi.due.cons (fun i hm => .inr hm) (fun i hm => .inr (List.mem_cons_of_mem _ hm)) (fun i hm => .inr ?_)
      obtain rfl : (s.inodes.ino path).2 = i := of_decide_eq_true hm
      exact List.mem_cons_self
    · rw [List.count_cons]
      simp only [Touches, beq_iff_eq, decide_eq_true_eq]
      omega
  | bumpCreated ino => exact hi.bumpCreated h
  | opens ino => exact hi.opens h
  | fattr ino =>
    cases h
    refine hi.mark hi.valid (fun _ => rfl) (fun _ => rfl) (by rw [MarkRight, hi.count ino]) ?_ fun i => rfl
    exact hi.due.cons (fun i hm => .inr hm) (fun i hm => .inr hm) (fun i hm => by cases hm)

/-! ## What the kernel and an NFS client are told -/

/-- In every order of the calls: the kernel is told to keep its pages at an open if and only
if the inode has been opened before and no change has been counted for it since. For each
event that is not passed over, and each reset, that may have changed the file of the path that
the inode then has, and for each `create` of the file, one change is counted, after it, and no
other ever is. The times that an NFS client is given are others if and only if changes have
been counted in between, but for a multiple of 10^9 of them. -/
theorem open_keeps_unchanged (ignore : List String) (acts : List VersionAct) (s : OpenVersions)
    (h : exec (step ignore) start acts = some s) :
    (∀ newer ino keep older, s.log = newer ++ .opened ino keep :: older → (keep = true ↔ Unchanged ino older)) ∧
    (∀ newer m older, s.log = newer ++ m :: older →
      ∀ i, Touches i m = true → .changed i ∈ newer ∨ i ∈ s.todo ∨ i ∈ s.created) ∧
    (∀ i, changes i s.log + s.todo.count i + s.created.count i = touches i s.log) ∧
    ∀ newer ino n between n' older, s.log = newer ++ .stat ino n :: (between ++ .stat ino n' :: older) →
      (n = n' ↔ changes ino between % 1000000000 = 0) := by
  have hi : s.VersionsInv := exec_inv VersionsInv (fun _ _ _ hi hs => hi.step hs) start_inv h
  have hright := hi.right
  refine ⟨fun newer ino keep older he => ?_, hi.due, hi.exact, fun newer ino n between n' older he => ?_⟩
  · rw [he] at hright
    exact hright.at_mark
  · have hn : n = changes ino (between ++ .stat ino n' :: older) % 1000000000 := by
      rw [he] at hright
      exact hright.at_mark
    have hn' : n' = changes ino older % 1000000000 := by
      rw [he, ← List.cons_append, ← List.append_assoc] at hright
      exact hright.at_mark
    simp only [changes_append, changes_cons, VersionMark.changes, Bool.false_eq_true, if_false, Nat.add_zero] at hn
    omega

/-- The last mark, if it is that of an open. -/
def lastOpen (s : OpenVersions) : Option (Nat × Bool) :=
  match s.log with
  | .opened ino keep :: _ => some (ino, keep)
  | _ => none

/-- A directory is replaced while a file in it has been opened. -/
def replacedBelow : List VersionAct :=
  [.inodes (.ino "d"), .inodes (.ino "d/f"), .opens 3, .opens 3, .apply (.event ⟨"d", .replaced⟩) false, .bump, .bump,
    .opens 3]

theorem open_keeps_unchanged_replaced : ∃ s older, exec (step []) start replacedBelow = some s ∧
    s.log = .opened 3 false :: older ∧ ¬ Unchanged 3 older := by
  have hrun : (exec (step []) start replacedBelow).any fun s => s.lastOpen = some (3, false) := by decide
  obtain ⟨s, hs, hrun⟩ := (Option.any_eq_true _ _).1 hrun
  have hlast : s.lastOpen = some (3, false) := of_decide_eq_true hrun
  unfold lastOpen at hlast
  split at hlast
  · rename_i i keep older hl
    cases hlast
    refine ⟨s, older, hs, hl, fun hu => ?_⟩
    have hk := ((open_keeps_unchanged [] replacedBelow s hs).1 [] 3 false older hl).2 hu
    cases hk
  · cases hlast

end OpenVersions

end Mobfs
