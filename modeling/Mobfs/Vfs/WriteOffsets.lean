import Mathlib.Algebra.GroupWithZero.Nat
import Mobfs.Vfs.Readahead
import Mobfs.Vfs.SideData
/-!
# Write offsets

The front ends hand on any `u64` as the offset of a write. `write` adds the length of the data
to it, for a sidecar as it is and for a buffer saturating; `dispatch_pending` adds up again
when it looks for uploads that overlap.

`write_offsets_iff` says for every state and every call when no sum overflows, no slice is out
of range and the data is put at its offset.
-/

namespace Mobfs

open Lib Std

/-- The most bytes a `Vec` can get. -/
def isizeMax : Nat := 2 ^ 63 - 1

/-- A sum that does not fit wraps around, where overflow is not checked. -/
def wrapped (n : Nat) : Except Halt Nat := .ok (n % 2 ^ 64)

/-- `PendingWrite`. -/
structure PendingWrite where
  ino : Nat
  path : String
  offset : Nat
  data : Bytes

/-- An upload in flight. -/
structure Transfer where
  fh : Nat
  path : String
  offset : Nat
  len : Nat

/-- `Uploads`. Those in flight are in the order in which the map yields them. -/
structure Uploads where
  bytes : Nat
  inflight : List Transfer
  errors : ExtTreeMap Nat Errno

structure WriteTables where
  side : SideData
  buffers : ExtTreeMap Nat PendingWrite
  uploads : Uploads
  metas : ExtTreeMap String EntryMeta
  blocks : BlockStore

/-- The critical section of `write`, with the buffer that has to make room. -/
def bufferData (buffers : ExtTreeMap Nat PendingWrite) (ino fh : Nat) (path : String) (offset : Nat) (data : Bytes) :
    ExtTreeMap Nat PendingWrite × Option PendingWrite :=
  match buffers[fh]? with
  | none => (buffers.insert fh ⟨ino, path, offset, data⟩, none)
  | some c =>
    if c.ino = ino ∧ satAdd c.offset c.data.length = offset ∧ satAdd c.data.length data.length ≤ writeBufferLimit then
      (buffers.insert fh { c with data := c.data ++ data }, none)
    else (buffers.insert fh ⟨ino, path, offset, data⟩, some c)

/-- `note_local_write`. -/
def notedWrite (entry : Option EntryMeta) (offset len : Nat) (clock : Int) : EntryMeta :=
  let entry := entry.getD (fileMeta 0 0o644 clock)
  { entry with kind := .file, size := max entry.size (satAdd offset len), modified := clock, sha256 := none }

/-- `stored[start..stop].copy_from_slice(data)`. -/
def copyInto (stored : Bytes) (start stop : Nat) (data : Bytes) : Except Halt Bytes :=
  if start ≤ stop ∧ stop ≤ stored.length ∧ stop - start = data.length then
    .ok (stored.take start ++ data ++ stored.drop stop)
  else .error .panics

section Calls
variable (sum : Nat → Except Halt Nat) (capacity : Nat)

/-- `Vec::resize` with zeros, where no more than `capacity` bytes can be had. -/
def resizeVec (stored : Bytes) (n : Nat) : Except Halt Bytes :=
  if n ≤ stored.length then .ok (stored.take n)
  else if n ≤ capacity then .ok (stored ++ List.replicate (n - stored.length) 0)
  else .error .panics

/-- A write to the contents of a sidecar. -/
def storeAt (stored : Bytes) (offset : Nat) (data : Bytes) : Except Halt Bytes := do
  let stop ← sum (offset + data.length)
  let stored ← if stored.length < stop then resizeVec capacity stored stop else .ok stored
  copyInto stored offset stop data

/-- `setattr`, of a sidecar. -/
def setattrSidecar (s : SideData) (path : String) (mode size : Option Nat) (modified : Option Int) :
    Except Halt (SideData × Except Errno Unit) :=
  match s.sidecars[path]? with
  | none => return (s, .error .enoent)
  | some (m, data) => do
    let data ← match size with
      | some size => resizeVec capacity data size
      | none => .ok data
    let m := { m with
      size := size.getD m.size
      mode := (mode.map (· &&& 0o7777)).getD m.mode
      modified := modified.getD m.modified }
    return ({ s with sidecars := s.sidecars.insert path (m, data) }, .ok ())

/-- The test of `dispatch_pending`, of one upload and of all. -/
def hits (path : String) (offset len : Nat) (u : Transfer) : Except Halt Bool :=
  if u.path = path then do
    let stop ← sum (offset + len)
    if u.offset < stop then
      let stop ← sum (u.offset + u.len)
      return offset < stop
    else return false
  else return false

def hitsAny (path : String) (offset len : Nat) : List Transfer → Except Halt Bool
  | [] => return false
  | u :: us => do
    let hit ← hits sum path offset len u
    if hit then return true else hitsAny path offset len us

def Uploads.room (u : Uploads) (len : Nat) : Except Halt Bool :=
  if u.inflight.isEmpty then return true
  else do
    let total ← sum (u.bytes + len)
    return total ≤ maxInflightUploadBytes

/-- `dispatch_pending`, with the uploads that it finds each time it looks. -/
def dispatchPending (fh : Nat) (path : String) (c : PendingWrite) : List Uploads → Except Halt Uploads
  | [] => .error .runsOn
  | u :: found => do
    let overlaps ← hitsAny sum path c.offset c.data.length u.inflight
    let room ← u.room sum c.data.length
    if !overlaps && room then
      let bytes ← sum (u.bytes + c.data.length)
      return { u with bytes, inflight := u.inflight ++ [⟨fh, path, c.offset, c.data.length⟩] }
    else dispatchPending fh path c found

/-- `write`. A displaced buffer finds its path in `inodes`, and waits for the uploads in `found`. -/
def WriteTables.write (ignore : List String) (t : WriteTables) (ino fh offset : Nat) (data : Bytes) (clock : Int)
    (inodes : Nat → Option String) (found : List Uploads) : Except Halt (WriteTables × Except Errno Unit) :=
  match t.side.inodes.pathOf ino with
  | .error e => return (t, .error e)
  | .ok path =>
    if path = "" then return (t, .error .eisdir)
    else if isSidecar path then
      match t.side.sidecars[path]? with
      | none => return (t, .error .enoent)
      | some (m, stored) => do
        let stored ← storeAt sum capacity stored offset data
        let entry := { m with size := stored.length, modified := clock }
        return ({ t with side := { t.side with sidecars := t.side.sidecars.insert path (entry, stored) } }, .ok ())
    else if shouldIgnoreRel ignore path then return (t, .error .eacces)
    else
      match t.uploads.errors[fh]? with
      | some e => return ({ t with uploads := { t.uploads with errors := t.uploads.errors.erase fh } }, .error e)
      | none => do
        let (buffers, displaced) := bufferData t.buffers ino fh path offset data
        let uploads ← match displaced with
          | some c => dispatchPending sum fh ((inodes c.ino).getD c.path) c found
          | none => .ok t.uploads
        return ({ t with
          buffers, uploads
          blocks := t.blocks.invalidateRange path offset data.length
          metas := t.metas.insert path (notedWrite t.metas[path]? offset data.length clock) }, .ok ())

end Calls

/-! ## What is asked of the calls -/

def Transfer.shares (path : String) (offset len : Nat) (u : Transfer) : Bool :=
  u.path = path && overlaps u.offset u.len offset len

/-- The test has the right answer, and no sum overflows. -/
def TestSafe (path : String) (offset len : Nat) (us : List Transfer) : Prop :=
  hitsAny checked path offset len us = .ok (us.any (·.shares path offset len))

/-- The sums of the test fit: those of each upload of the path up to the first that overlaps. -/
def TestFits (path : String) (offset len : Nat) : List Transfer → Prop
  | [] => True
  | u :: us =>
    (u.path = path → offset + len ≤ u64Max ∧ (u.offset < offset + len → u.offset + u.len ≤ u64Max)) ∧
      (u.shares path offset len = false → TestFits path offset len us)

/-- So long as `dispatch_pending` has to wait, it makes its test again. -/
def DispatchFits (path : String) (offset len : Nat) : List Uploads → Prop
  | [] => True
  | u :: found =>
    TestFits path offset len u.inflight ∧
      (u.inflight.any (·.shares path offset len) = true ∨ u.inflight ≠ [] ∧ maxInflightUploadBytes < u.bytes + len →
        DispatchFits path offset len found)

/-- What the counts of the uploads are in every state. -/
structure Uploads.Sized (u : Uploads) : Prop where
  bytes_eq : u.bytes = (u.inflight.map (·.len)).sum
  bytes_le : u.bytes ≤ isizeMax

structure WriteTables.Sized (t : WriteTables) : Prop where
  buffers : ∀ (fh : Nat) c, t.buffers[fh]? = some c → c.data.length ≤ isizeMax
  uploads : t.uploads.Sized

/-- A write has put its data into the buffer of the handle, at its offset and last. -/
def PutAt (buffers : ExtTreeMap Nat PendingWrite) (fh offset : Nat) (data : Bytes) : Prop :=
  ∃ c before, buffers[fh]? = some c ∧ c.data = before ++ data ∧ c.offset + before.length = offset

section Asked
variable (capacity : Nat) (ignore : List String)

/-- The data is at its offset: in the contents of a sidecar, else in the buffer of the handle. -/
structure WriteTables.Applied (t t' : WriteTables) (ino fh offset : Nat) (data : Bytes) (clock : Int) (path : String) : Prop where
  sidecar : isSidecar path = true → t'.side = (t.side.write ino offset data clock).1
  buffered : isSidecar path = false → data ≠ [] → PutAt t'.buffers fh offset data

/-- `write` does not panic: it is still waiting, or it has put the data at its offset, or it returns
an error and has put it nowhere. -/
def WriteSafe (t : WriteTables) (ino fh offset : Nat) (data : Bytes) (clock : Int) (inodes : Nat → Option String)
    (found : List Uploads) : Prop :=
  match t.write checked capacity ignore ino fh offset data clock inodes found with
  | .error h => h = .runsOn
  | .ok (t', .error _) => t'.side = t.side ∧ t'.buffers = t.buffers
  | .ok (t', .ok ()) => ∀ path, t.side.inodes.pathOf ino = .ok path → t.Applied t' ino fh offset data clock path

def VecFits (stored : Bytes) (n : Nat) : Prop := n ≤ stored.length ∨ n ≤ capacity

/-- The data is appended to a buffer that ends beyond the last offset. -/
def Saturates (t : WriteTables) (ino fh offset : Nat) (data : Bytes) : Prop :=
  data ≠ [] ∧ offset = u64Max ∧
    ∃ c, t.buffers[fh]? = some c ∧ c.ino = ino ∧ u64Max < c.offset + c.data.length ∧
      c.data.length + data.length ≤ writeBufferLimit

/-- The call comes to the buffers. -/
structure ToBuffer (t : WriteTables) (ino fh : Nat) (path : String) : Prop where
  at_path : t.side.inodes.pathOf ino = .ok path
  ne_root : path ≠ ""
  not_sidecar : isSidecar path = false
  not_ignored : shouldIgnoreRel ignore path = false
  no_error : t.uploads.errors[fh]? = none

structure WriteFits (t : WriteTables) (ino fh offset : Nat) (data : Bytes) (inodes : Nat → Option String) (found : List Uploads) :
    Prop where
  sidecar : ∀ path, t.side.inodes.pathOf ino = .ok path → isSidecar path = true →
    ∀ m stored, t.side.sidecars[path]? = some (m, stored) →
      offset + data.length ≤ u64Max ∧ VecFits capacity stored (offset + data.length)
  merged : ∀ path, ToBuffer ignore t ino fh path → ¬ Saturates t ino fh offset data
  displaced : ∀ path, ToBuffer ignore t ino fh path → ∀ c, (bufferData t.buffers ino fh path offset data).2 = some c →
    DispatchFits ((inodes c.ino).getD c.path) c.offset c.data.length found

def SetattrFits (s : SideData) (path : String) (size : Option Nat) : Prop :=
  ∀ m data, s.sidecars[path]? = some (m, data) → ∀ n ∈ size, VecFits capacity data n

end Asked

/-! ## Sidecars -/

section Sidecars
variable {capacity offset : Nat} {stored data : Bytes}

theorem resizeVec_eq_ok {n : Nat} {b : Bytes} : resizeVec capacity stored n = .ok b ↔
    VecFits capacity stored n ∧ b = stored.take n ++ List.replicate (n - stored.length) 0 := by
  unfold resizeVec VecFits
  by_cases hle : n ≤ stored.length
  · rw [if_pos hle, Nat.sub_eq_zero_of_le hle]
    simp [hle, eq_comm]
  · rw [if_neg hle, List.take_of_length_le (by omega)]
    by_cases hcap : n ≤ capacity
    · simp [hcap, eq_comm]
    · simp [hle, hcap]

theorem resizeVec_of_fits {n : Nat} (h : VecFits capacity stored n) :
    resizeVec capacity stored n = .ok (stored.take n ++ List.replicate (n - stored.length) 0) := resizeVec_eq_ok.2 ⟨h, rfl⟩

theorem resizeVec_panics {n : Nat} (h : ¬ VecFits capacity stored n) : resizeVec capacity stored n = .error .panics := by
  unfold VecFits at h
  unfold resizeVec
  rw [if_neg (by omega), if_neg (by omega)]

/-- A write in range is that of `putBytes`. -/
theorem copyInto_extended : copyInto (stored ++ List.replicate (offset + data.length - stored.length) 0) offset
    (offset + data.length) data = .ok (putBytes stored offset data) := by
  unfold putBytes
  have hlen : offset + data.length ≤ (stored ++ List.replicate (offset + data.length - stored.length) (0 : UInt8)).length := by
    rw [List.length_append, List.length_replicate]
    omega
  generalize stored ++ List.replicate (offset + data.length - stored.length) (0 : UInt8) = extended at hlen
  rw [copyInto, if_pos ⟨by omega, hlen, by omega⟩, writeAt]
  split
  · rename_i hd
    rw [hd, List.append_nil, List.length_nil, Nat.add_zero, List.take_append_drop]
  · rw [Nat.sub_eq_zero_of_le (by omega), List.replicate_zero, List.append_nil]

theorem storeAt_of_fits (hsum : offset + data.length ≤ u64Max) (h : VecFits capacity stored (offset + data.length)) :
    storeAt checked capacity stored offset data = .ok (putBytes stored offset data) := by
  rw [storeAt, checked_of_le hsum]
  by_cases hlt : stored.length < offset + data.length
  · simp only [bind, Except.bind, if_pos hlt, resizeVec_of_fits h]
    rw [List.take_of_length_le (by omega)]
    exact copyInto_extended
  · have hzero : offset + data.length - stored.length = 0 := by omega
    simp only [bind, Except.bind, if_neg hlt]
    have hcopy : copyInto (stored ++ List.replicate (offset + data.length - stored.length) 0) offset (offset + data.length) data =
        .ok (putBytes stored offset data) := copyInto_extended
    rwa [hzero, List.replicate_zero, List.append_nil] at hcopy

theorem storeAt_panics (h : ¬ (offset + data.length ≤ u64Max ∧ VecFits capacity stored (offset + data.length))) :
    storeAt checked capacity stored offset data = .error .panics := by
  rw [storeAt, checked]
  by_cases hsum : offset + data.length ≤ u64Max
  · have hfit : ¬ VecFits capacity stored (offset + data.length) := fun hf => h ⟨hsum, hf⟩
    have hlt : stored.length < offset + data.length := by
      unfold VecFits at hfit
      omega
    simp only [if_pos hsum, bind, Except.bind, if_pos hlt, resizeVec_panics hfit]
  · rw [if_neg hsum]
    rfl

/-- `setattr` of a sidecar: it goes through if and only if the size can be had, and then does what
it does with contents of any length. -/
theorem setattr_iff {s : SideData} {path : String} {ino : Nat} {mode size : Option Nat} {modified : Option Int}
    (hino : s.inodes.pathOf ino = .ok path) (hside : isSidecar path = true) :
    setattrSidecar capacity s path mode size modified = .ok (s.setattr ino mode size modified) ↔ SetattrFits capacity s path size := by
  have hroot : path ≠ "" := by
    rintro rfl
    exact absurd hside (by decide)
  rw [SideData.setattr, hino]
  simp only [if_neg hroot, if_pos hside, SideData.editSidecar]
  unfold setattrSidecar SetattrFits
  cases hget : s.sidecars[path]? with
  | none => exact iff_of_true rfl fun m data h => by cases h
  | some x =>
    obtain ⟨m, data⟩ := x
    cases size with
    | none => exact iff_of_true rfl fun _ _ _ n hn => by cases hn
    | some n =>
      by_cases hfit : VecFits capacity data n
      · refine iff_of_true ?_ ?_
        · simp only [bind, Except.bind, resizeVec_of_fits hfit]
          rfl
        · rintro _ _ ⟨⟩ _ ⟨⟩
          exact hfit
      · refine iff_of_false ?_ fun h => hfit (h m data rfl n rfl)
        simp only [bind, Except.bind, resizeVec_panics hfit]
        exact fun h => by cases h

end Sidecars

/-! ## Dispatching -/

section Dispatch
variable {path : String} {offset len fh : Nat}

theorem hits_of_fits {u : Transfer} (h : u.path = path → offset + len ≤ u64Max ∧ (u.offset < offset + len → u.offset + u.len ≤ u64Max)) :
    hits checked path offset len u = .ok (u.shares path offset len) := by
  unfold hits Transfer.shares overlaps
  by_cases hpath : u.path = path
  · obtain ⟨hstop, hother⟩ := h hpath
    rw [if_pos hpath, checked_of_le hstop]
    by_cases hlt : u.offset < offset + len
    · simp only [bind, Except.bind, if_pos hlt, checked_of_le (hother hlt)]
      simp [hpath, hlt, pure, Except.pure]
    · simp only [bind, Except.bind, if_neg hlt]
      simp [hpath, hlt, pure, Except.pure]
  · rw [if_neg hpath]
    simp [hpath, pure, Except.pure]

theorem hits_panics {u : Transfer}
    (h : ¬ (u.path = path → offset + len ≤ u64Max ∧ (u.offset < offset + len → u.offset + u.len ≤ u64Max))) :
    hits checked path offset len u = .error .panics := by
  obtain ⟨hpath, h⟩ := Classical.not_imp.1 h
  rw [hits, if_pos hpath, checked]
  by_cases hstop : offset + len ≤ u64Max
  · obtain ⟨hlt, hother⟩ := Classical.not_imp.1 fun hother => h ⟨hstop, hother⟩
    rw [if_pos hstop]
    simp only [bind, Except.bind, if_pos hlt, checked, if_neg hother]
  · rw [if_neg hstop]
    rfl

theorem hitsAny_of_fits {us : List Transfer} (h : TestFits path offset len us) : TestSafe path offset len us := by
  unfold TestSafe
  induction us with
  | nil => rfl
  | cons u us ih =>
    rw [hitsAny, hits_of_fits h.1, List.any_cons]
    cases hshares : u.shares path offset len with
    | true => rfl
    | false =>
      simp only [bind, Except.bind, Bool.false_or]
      exact ih (h.2 hshares)

theorem hitsAny_panics {us : List Transfer} (h : ¬ TestFits path offset len us) :
    hitsAny checked path offset len us = .error .panics := by
  induction us with
  | nil => exact absurd trivial h
  | cons u us ih =>
    by_cases hu : u.path = path → offset + len ≤ u64Max ∧ (u.offset < offset + len → u.offset + u.len ≤ u64Max)
    · obtain ⟨hshares, hrest⟩ := Classical.not_imp.1 fun hrest => h ⟨hu, hrest⟩
      rw [hitsAny, hits_of_fits hu, hshares]
      exact ih hrest
    · rw [hitsAny, hits_panics hu]
      rfl

theorem test_iff {us : List Transfer} : TestSafe path offset len us ↔ TestFits path offset len us := by
  refine ⟨fun h => ?_, hitsAny_of_fits⟩
  by_contra hfit
  rw [TestSafe, hitsAny_panics hfit] at h
  cases h

/-- The sum for the room never overflows. -/
theorem room_eq {u : Uploads} (h : u.Sized) (hlen : len ≤ isizeMax) :
    u.room checked len = .ok (u.inflight.isEmpty || decide (u.bytes + len ≤ maxInflightUploadBytes)) := by
  have hfit : u.bytes + len ≤ u64Max := by
    have := h.bytes_le
    simp only [isizeMax, u64Max] at *
    omega
  unfold Uploads.room
  cases hempty : u.inflight.isEmpty with
  | true => rfl
  | false => simp [checked_of_le hfit, bind, Except.bind, pure, Except.pure]

/-- What is registered is again no more than a count can hold. -/
theorem register_sized {u : Uploads} {t : Transfer} (h : u.Sized) (hlen : t.len ≤ isizeMax)
    (hroom : u.inflight = [] ∨ u.bytes + t.len ≤ maxInflightUploadBytes) :
    Uploads.Sized { u with bytes := u.bytes + t.len, inflight := u.inflight ++ [t] } := by
  refine ⟨?_, ?_⟩
  · simp [h.bytes_eq]
  · rcases hroom with hnil | hroom
    · have hzero : u.bytes = 0 := by rw [h.bytes_eq, hnil]; rfl
      simpa [hzero] using hlen
    · refine hroom.trans ?_
      decide

/-- `dispatch_pending` either panics, if a sum of its test does not fit, or registers its upload or
is still waiting. -/
theorem dispatch_spec (path : String) (fh : Nat) {c : PendingWrite} {found : List Uploads} (hfound : ∀ u ∈ found, u.Sized)
    (hlen : c.data.length ≤ isizeMax) :
    (DispatchFits path c.offset c.data.length found →
      dispatchPending checked fh path c found = .error .runsOn ∨
        ∃ u, dispatchPending checked fh path c found = .ok u ∧ u.Sized) ∧
      (¬ DispatchFits path c.offset c.data.length found → dispatchPending checked fh path c found = .error .panics) := by
  induction found with
  | nil => exact ⟨fun _ => .inl rfl, fun h => absurd trivial h⟩
  | cons u found ih =>
    obtain ⟨hu, hrest⟩ := List.forall_mem_cons.1 hfound
    obtain ⟨ihfit, ihpanic⟩ := ih hrest
    unfold dispatchPending
    by_cases htest : TestFits path c.offset c.data.length u.inflight
    · have hhits : hitsAny checked path c.offset c.data.length u.inflight = _ := hitsAny_of_fits htest
      rw [hhits, room_eq hu hlen]
      simp only [bind, Except.bind]
      by_cases hwait : u.inflight.any (·.shares path c.offset c.data.length) = true ∨
          u.inflight ≠ [] ∧ maxInflightUploadBytes < u.bytes + c.data.length
      · rw [if_neg]
        · exact ⟨fun h => ihfit (h.2 hwait), fun h => ihpanic fun hfit => h ⟨htest, fun _ => hfit⟩⟩
        · rcases hwait with hany | ⟨hne, hfull⟩
          · simp [hany]
          · simp [List.isEmpty_eq_false_iff.2 hne, Nat.not_le.2 hfull]
      · obtain ⟨hany, hroom⟩ := not_or.1 hwait
        have hroom : u.inflight = [] ∨ u.bytes + c.data.length ≤ maxInflightUploadBytes := by
          by_cases hnil : u.inflight = []
          · exact .inl hnil
          · exact .inr (Nat.not_lt.1 fun hlt => hroom ⟨hnil, hlt⟩)
        have hsized := register_sized (t := ⟨fh, path, c.offset, c.data.length⟩) hu hlen hroom
        have hsum : u.bytes + c.data.length ≤ u64Max := Nat.le_trans hsized.bytes_le (by decide)
        rw [if_pos]
        · rw [checked_of_le hsum]
          exact ⟨fun _ => .inr ⟨_, rfl, hsized⟩, fun h => absurd ⟨htest, fun hw => absurd hw hwait⟩ h⟩
        · rw [Bool.not_eq_true] at hany
          rw [hany]
          rcases hroom with hnil | hroom
          · simp [hnil]
          · simp [hroom]
    · rw [hitsAny_panics htest]
      exact ⟨fun h => absurd h.1 htest, fun _ => rfl⟩

end Dispatch

/-! ## Writing -/

section Write
variable {capacity : Nat} {ignore : List String} {t : WriteTables} {ino fh offset : Nat} {data : Bytes} {path : String}

theorem putAt_single (buffers : ExtTreeMap Nat PendingWrite) : PutAt (buffers.insert fh ⟨ino, path, offset, data⟩) fh offset data :=
  ⟨_, [], ExtTreeMap.getElem?_insert_self, rfl, rfl⟩

/-- The data goes where it should, unless it is appended at a saturated end. -/
theorem bufferData_putAt (path : String) (h : ¬ Saturates t ino fh offset data) (hdata : data ≠ []) :
    PutAt (bufferData t.buffers ino fh path offset data).1 fh offset data := by
  unfold bufferData
  cases hget : t.buffers[fh]? with
  | none => exact putAt_single _
  | some c =>
    dsimp only
    split
    · rename_i hmerge
      obtain ⟨hino, hend, hlimit⟩ := hmerge
      refine ⟨_, c.data, ExtTreeMap.getElem?_insert_self, rfl, ?_⟩
      by_contra hne
      dsimp only at hne
      have hmax : u64Max = 2 ^ 64 - 1 := rfl
      have hbuf : writeBufferLimit = 8 * 1024 * 1024 := rfl
      rw [satAdd] at hend hlimit
      exact h ⟨hdata, by omega, c, hget, hino, by omega, by omega⟩
    · exact putAt_single _

theorem bufferData_saturates (path : String) (h : Saturates t ino fh offset data) :
    (bufferData t.buffers ino fh path offset data).2 = none ∧ ¬ PutAt (bufferData t.buffers ino fh path offset data).1 fh offset data := by
  obtain ⟨hdata, hoff, c, hget, hino, hend, hlimit⟩ := h
  have hmax : u64Max = 2 ^ 64 - 1 := rfl
  have hbuf : writeBufferLimit = 8 * 1024 * 1024 := rfl
  have hmerge : c.ino = ino ∧ satAdd c.offset c.data.length = offset ∧ satAdd c.data.length data.length ≤ writeBufferLimit := by
    unfold satAdd
    exact ⟨hino, by omega, by omega⟩
  simp only [bufferData, hget, if_pos hmerge, true_and]
  rintro ⟨d, before, hd, hsplit, hat⟩
  rw [ExtTreeMap.getElem?_insert_self] at hd
  cases hd
  have hbefore : before.length = c.data.length := by
    have := congrArg List.length hsplit
    simp only [List.length_append] at this
    omega
  dsimp only at hat
  omega

/-- What is displaced has been a buffer. -/
theorem displaced_mem {c : PendingWrite} (h : (bufferData t.buffers ino fh path offset data).2 = some c) :
    t.buffers[fh]? = some c := by
  unfold bufferData at h
  cases hget : t.buffers[fh]? with
  | none =>
    rw [hget] at h
    cases h
  | some d =>
    rw [hget] at h
    dsimp only at h
    split at h <;> cases h
    rfl

/-- Buffers stay within what a slice can hold. -/
theorem bufferData_sized (ino fh : Nat) (path : String) (offset : Nat)
    (h : ∀ (fh : Nat) c, t.buffers[fh]? = some c → c.data.length ≤ isizeMax) (hdata : data.length ≤ isizeMax)
    (fh' : Nat) (c : PendingWrite) (hc : (bufferData t.buffers ino fh path offset data).1[fh']? = some c) : c.data.length ≤ isizeMax := by
  have hinsert : ∀ d : PendingWrite, d.data.length ≤ isizeMax → (t.buffers.insert fh d)[fh']? = some c → c.data.length ≤ isizeMax := by
    intro d hd hget
    rw [ExtTreeMap.getElem?_insert] at hget
    split at hget
    · cases hget
      exact hd
    · exact h fh' c hget
  unfold bufferData at hc
  cases hget : t.buffers[fh]? with
  | none =>
    rw [hget] at hc
    exact hinsert _ hdata hc
  | some d =>
    rw [hget] at hc
    dsimp only at hc
    split at hc
    · rename_i hmerge
      refine hinsert _ ?_ hc
      have hlimit := hmerge.2.2
      have hsmall : writeBufferLimit < isizeMax := by decide
      have hmax : isizeMax = 2 ^ 63 - 1 := rfl
      rw [satAdd] at hlimit
      rw [List.length_append]
      omega
    · exact hinsert _ hdata hc

/-- The part of `write` after its tests. -/
theorem write_buffered {clock : Int} {inodes : Nat → Option String} {found : List Uploads} (hb : ToBuffer ignore t ino fh path) :
    t.write checked capacity ignore ino fh offset data clock inodes found =
      match (bufferData t.buffers ino fh path offset data).2 with
      | some c => (dispatchPending checked fh ((inodes c.ino).getD c.path) c found).map fun uploads =>
        ({ t with
          buffers := (bufferData t.buffers ino fh path offset data).1, uploads
          blocks := t.blocks.invalidateRange path offset data.length
          metas := t.metas.insert path (notedWrite t.metas[path]? offset data.length clock) }, .ok ())
      | none => .ok ({ t with
          buffers := (bufferData t.buffers ino fh path offset data).1
          blocks := t.blocks.invalidateRange path offset data.length
          metas := t.metas.insert path (notedWrite t.metas[path]? offset data.length clock) }, .ok ()) := by
  have hnot : ¬ isSidecar path = true := by rw [hb.not_sidecar]; decide
  have hignored : ¬ shouldIgnoreRel ignore path = true := by rw [hb.not_ignored]; decide
  simp only [WriteTables.write, hb.at_path, if_neg hb.ne_root, if_neg hnot, if_neg hignored, hb.no_error]
  cases (bufferData t.buffers ino fh path offset data).2 with
  | none => rfl
  | some c =>
    dsimp only
    cases dispatchPending checked fh ((inodes c.ino).getD c.path) c found <;> rfl

/-- A write to the buffers is safe if it is not appended at a saturated end and what it displaces
can be dispatched. -/
theorem write_buffered_iff {clock : Int} {inodes : Nat → Option String} {found : List Uploads} (ht : t.Sized)
    (hfound : ∀ u ∈ found, u.Sized) (hb : ToBuffer ignore t ino fh path) :
    WriteSafe capacity ignore t ino fh offset data clock inodes found ↔
      ¬ Saturates t ino fh offset data ∧ ∀ c, (bufferData t.buffers ino fh path offset data).2 = some c →
        DispatchFits ((inodes c.ino).getD c.path) c.offset c.data.length found := by
  have happlied : ∀ t' : WriteTables, t'.buffers = (bufferData t.buffers ino fh path offset data).1 →
      ((∀ path, t.side.inodes.pathOf ino = .ok path → t.Applied t' ino fh offset data clock path) ↔
        ¬ Saturates t ino fh offset data) := by
    intro t' hbuf
    constructor
    · intro h hsat
      refine (bufferData_saturates path hsat).2 ?_
      rw [← hbuf]
      exact (h path hb.at_path).buffered hb.not_sidecar hsat.1
    · intro hsat p hp
      rw [hb.at_path] at hp
      cases hp
      refine ⟨fun hside => ?_, fun _ hdata => ?_⟩
      · rw [hb.not_sidecar] at hside
        cases hside
      · have := bufferData_putAt path hsat hdata
        rwa [← hbuf] at this
  rw [WriteSafe, write_buffered hb]
  cases hdis : (bufferData t.buffers ino fh path offset data).2 with
  | none =>
    dsimp only
    rw [happlied _ rfl]
    exact ⟨fun h => ⟨h, fun c hc => by cases hc⟩, fun h => h.1⟩
  | some c =>
    -- A write that displaces a buffer begins a new one.
    have hsat : ¬ Saturates t ino fh offset data := by
      intro hsat
      rw [(bufferData_saturates path hsat).1] at hdis
      cases hdis
    have hlen : c.data.length ≤ isizeMax := ht.buffers fh c (displaced_mem hdis)
    obtain ⟨hfits, hpanics⟩ := dispatch_spec ((inodes c.ino).getD c.path) fh hfound hlen
    by_cases hfit : DispatchFits ((inodes c.ino).getD c.path) c.offset c.data.length found
    · refine iff_of_true ?_ ⟨hsat, by rintro _ ⟨⟩; exact hfit⟩
      rcases hfits hfit with hwait | ⟨u, hu, -⟩
      · simp only [hwait, Except.map]
      · simp only [hu, Except.map]
        exact (happlied _ rfl).2 hsat
    · refine iff_of_false ?_ fun h => hfit (h.2 c rfl)
      simp only [hpanics hfit, Except.map]
      exact fun h => by cases h

/-- The calls that do not come to the buffers. -/
theorem write_aside_iff {clock : Int} {inodes : Nat → Option String} {found : List Uploads}
    (hnone : ∀ path, ¬ ToBuffer ignore t ino fh path) :
    WriteSafe capacity ignore t ino fh offset data clock inodes found ↔
      ∀ path, t.side.inodes.pathOf ino = .ok path → isSidecar path = true → ∀ m stored, t.side.sidecars[path]? = some (m, stored) →
        offset + data.length ≤ u64Max ∧ VecFits capacity stored (offset + data.length) := by
  unfold WriteSafe WriteTables.write
  cases hino : t.side.inodes.pathOf ino with
  | error e => exact iff_of_true ⟨rfl, rfl⟩ fun p hp => by cases hp
  | ok path =>
    dsimp only
    by_cases hroot : path = ""
    · rw [if_pos hroot, hroot]
      exact iff_of_true ⟨rfl, rfl⟩ fun p hp hside => by cases hp; exact absurd hside (by decide)
    · rw [if_neg hroot]
      by_cases hside : isSidecar path = true
      · rw [if_pos hside]
        cases hget : t.side.sidecars[path]? with
        | none =>
          refine iff_of_true ⟨rfl, rfl⟩ ?_
          rintro _ ⟨⟩ _ m stored h
          rw [hget] at h
          cases h
        | some x =>
          obtain ⟨m, stored⟩ := x
          dsimp only
          by_cases hfit : offset + data.length ≤ u64Max ∧ VecFits capacity stored (offset + data.length)
          · refine iff_of_true ?_ ?_
            · simp only [bind, Except.bind, storeAt_of_fits hfit.1 hfit.2, pure, Except.pure]
              rintro _ ⟨⟩
              refine ⟨fun _ => ?_, fun hnot => ?_⟩
              · simp only [SideData.write, hino, if_neg hroot, if_pos hside, SideData.editSidecar, hget]
              · rw [hside] at hnot
                cases hnot
            · rintro _ ⟨⟩ _ m' stored' h
              rw [hget] at h
              cases h
              exact hfit
          · refine iff_of_false ?_ fun h => hfit (h path rfl hside m stored hget)
            simp only [bind, Except.bind, storeAt_panics hfit]
            exact fun h => by cases h
      · rw [if_neg hside]
        have hnot : ∀ p, (Except.ok path : Except Errno String) = .ok p → isSidecar p = true →
            ∀ m stored, t.side.sidecars[p]? = some (m, stored) →
              offset + data.length ≤ u64Max ∧ VecFits capacity stored (offset + data.length) := by
          rintro _ ⟨⟩ h
          exact absurd h hside
        by_cases hignored : shouldIgnoreRel ignore path = true
        · rw [if_pos hignored]
          exact iff_of_true ⟨rfl, rfl⟩ hnot
        · rw [if_neg hignored]
          cases herror : t.uploads.errors[fh]? with
          | some e => exact iff_of_true ⟨rfl, rfl⟩ hnot
          | none =>
            rw [Bool.not_eq_true] at hside hignored
            exact absurd ⟨hino, hroot, hside, hignored, herror⟩ (hnone path)

theorem write_iff {clock : Int} {inodes : Nat → Option String} {found : List Uploads} (ht : t.Sized)
    (hfound : ∀ u ∈ found, u.Sized) :
    WriteSafe capacity ignore t ino fh offset data clock inodes found ↔
      WriteFits capacity ignore t ino fh offset data inodes found := by
  by_cases hb : ∃ path, ToBuffer ignore t ino fh path
  · obtain ⟨path, hb⟩ := hb
    have hpath : ∀ p, t.side.inodes.pathOf ino = .ok p → p = path := by
      intro p hp
      rw [hb.at_path] at hp
      cases hp
      rfl
    rw [write_buffered_iff ht hfound hb]
    constructor
    · rintro ⟨hsat, hdis⟩
      refine ⟨fun p hp hside => ?_, fun _ _ => hsat, fun p hp c hc => ?_⟩
      · rw [hpath p hp, hb.not_sidecar] at hside
        cases hside
      · rw [hpath p hp.at_path] at hc
        exact hdis c hc
    · exact fun h => ⟨h.merged path hb, h.displaced path hb⟩
  · have hnone : ∀ path, ¬ ToBuffer ignore t ino fh path := fun path h => hb ⟨path, h⟩
    rw [write_aside_iff hnone]
    exact ⟨fun h => ⟨h, fun p hp => absurd hp (hnone p), fun p hp => absurd hp (hnone p)⟩, fun h => h.sidecar⟩

/-- The counts stay what they are. -/
theorem write_sized {clock : Int} {inodes : Nat → Option String} {found : List Uploads} {t' : WriteTables} {r : Except Errno Unit}
    (ht : t.Sized) (hfound : ∀ u ∈ found, u.Sized) (hdata : data.length ≤ isizeMax)
    (h : t.write checked capacity ignore ino fh offset data clock inodes found = .ok (t', r)) : t'.Sized := by
  by_cases hb : ∃ path, ToBuffer ignore t ino fh path
  · obtain ⟨path, hb⟩ := hb
    have hbuffers := bufferData_sized ino fh path offset ht.buffers hdata
    rw [write_buffered hb] at h
    cases hdis : (bufferData t.buffers ino fh path offset data).2 with
    | none =>
      rw [hdis] at h
      cases h
      exact ⟨hbuffers, ht.uploads⟩
    | some c =>
      rw [hdis] at h
      obtain ⟨hfits, hpanics⟩ := dispatch_spec ((inodes c.ino).getD c.path) fh hfound
        (ht.buffers fh c (displaced_mem hdis))
      by_cases hfit : DispatchFits ((inodes c.ino).getD c.path) c.offset c.data.length found
      · rcases hfits hfit with hwait | ⟨u, hu, hsized⟩
        · simp only [hwait, Except.map] at h
          cases h
        · simp only [hu, Except.map] at h
          cases h
          exact ⟨hbuffers, hsized⟩
      · simp only [hpanics hfit, Except.map] at h
        cases h
  · unfold WriteTables.write at h
    cases hino : t.side.inodes.pathOf ino with
    | error e =>
      rw [hino] at h
      cases h
      exact ht
    | ok path =>
      simp only [hino] at h
      split at h
      · cases h
        exact ht
      · rename_i hroot
        split at h
        · split at h
          · cases h
            exact ht
          · obtain ⟨stored, -, h⟩ := bind_eq_ok.1 h
            cases h
            exact ⟨ht.buffers, ht.uploads⟩
        · rename_i hside
          split at h
          · cases h
            exact ht
          · rename_i hignored
            split at h
            · cases h
              exact ⟨ht.buffers, ht.uploads.bytes_eq, ht.uploads.bytes_le⟩
            · rename_i herror
              rw [Bool.not_eq_true] at hside hignored
              exact absurd ⟨path, hino, hroot, hside, hignored, herror⟩ hb

end Write

/-- No sum overflows, no slice is out of range, and `write` puts its data at its offset or returns an
error, if and only if: the write to a sidecar ends where a `Vec` can still end; a buffered one is not
appended at a saturated end, and the sums of the test fit for what it displaces; the size of a sidecar
can be had. -/
theorem write_offsets_iff (capacity : Nat) (ignore : List String) :
    (∀ (t : WriteTables) (ino fh offset : Nat) (data : Bytes) (clock : Int) (inodes : Nat → Option String) (found : List Uploads),
      t.Sized → (∀ u ∈ found, u.Sized) →
      (WriteSafe capacity ignore t ino fh offset data clock inodes found ↔
        WriteFits capacity ignore t ino fh offset data inodes found)) ∧
    (∀ (path : String) (offset len : Nat) (inflight : List Transfer),
      TestSafe path offset len inflight ↔ TestFits path offset len inflight) ∧
    ∀ (s : SideData) (path : String) (ino : Nat) (mode size : Option Nat) (modified : Option Int),
      s.inodes.pathOf ino = .ok path → isSidecar path = true →
      (setattrSidecar capacity s path mode size modified = .ok (s.setattr ino mode size modified) ↔
        SetattrFits capacity s path size) :=
  ⟨fun _ _ _ _ _ _ _ _ ht hfound => write_iff ht hfound, fun _ _ _ _ => test_iff, fun _ _ _ _ _ _ hino hside =>
    setattr_iff hino hside⟩

/-- A file and a sidecar, both empty. -/
def fileAndSidecar : WriteTables where
  side := ⟨((InodeMaps.new.ino "a").1.ino "._a").1, ∅, (∅ : ExtTreeMap String (EntryMeta × Bytes)).insert "._a" (fileMeta 0 0o644 0, [])⟩
  buffers := ∅
  uploads := ⟨0, [], ∅⟩
  metas := ∅
  blocks := .new 0

theorem fileAndSidecar_sized : fileAndSidecar.Sized := ⟨fun fh c h => by simp [fileAndSidecar] at h, rfl, by decide⟩

theorem write_offsets_end :
    WriteSafe isizeMax [] fileAndSidecar 2 5 u64Max [1] 0 (fun _ => none) [] ∧
      setattrSidecar isizeMax fileAndSidecar.side "._a" none (some 3) none = .ok (fileAndSidecar.side.setattr 3 none (some 3) none) := by
  obtain ⟨hwrite, -, hsetattr⟩ := write_offsets_iff isizeMax []
  refine ⟨(hwrite _ _ _ _ _ _ _ _ fileAndSidecar_sized fun u h => by cases h).2 ⟨?_, ?_, ?_⟩, (hsetattr _ _ _ _ _ _ rfl rfl).2 ?_⟩
  · rintro _ ⟨⟩ hside
    exact absurd hside (by decide)
  · rintro _ _ ⟨-, -, c, hc, -⟩
    simp [fileAndSidecar] at hc
  · rintro _ _ c hc
    have := displaced_mem hc
    simp [fileAndSidecar] at this
  · rintro m data h n ⟨⟩
    exact .inr (by decide)

/-- At the last offset: a write to a sidecar panics, where overflow is checked and where it wraps; the data of
a second write to a file is put behind that of the first; and the test panics, or finds that an upload does not
overlap itself. A sidecar cannot get 2^63 bytes. -/
theorem write_offsets_overflow :
    (fileAndSidecar.write checked isizeMax [] 3 5 u64Max [7] 0 (fun _ => none) [] = .error .panics ∧
      fileAndSidecar.write wrapped isizeMax [] 3 5 u64Max [7] 0 (fun _ => none) [] = .error .panics ∧
      ¬ WriteSafe isizeMax [] fileAndSidecar 3 5 u64Max [7] 0 (fun _ => none) []) ∧
    setattrSidecar isizeMax fileAndSidecar.side "._a" none (some (2 ^ 63)) none = .error .panics ∧
    (∃ t₁ t₂, fileAndSidecar.write checked isizeMax [] 2 5 u64Max [1] 0 (fun _ => none) [] = .ok (t₁, .ok ()) ∧
      t₁.write checked isizeMax [] 2 5 u64Max [2] 0 (fun _ => none) [] = .ok (t₂, .ok ()) ∧
      t₂.buffers[5]? = some ⟨2, "a", u64Max, [1, 2]⟩ ∧
      ¬ WriteSafe isizeMax [] t₁ 2 5 u64Max [2] 0 (fun _ => none) []) ∧
    hitsAny checked "a" u64Max 1 [⟨5, "a", u64Max, 1⟩] = .error .panics ∧
      hitsAny wrapped "a" u64Max 1 [⟨5, "a", u64Max, 1⟩] = .ok false ∧ ¬ TestSafe "a" u64Max 1 [⟨5, "a", u64Max, 1⟩] := by
  refine ⟨⟨rfl, rfl, fun h => ?_⟩, rfl, ⟨_, _, rfl, rfl, rfl, fun h => ?_⟩, rfl, rfl, fun h => ?_⟩
  · cases (id h : Halt.panics = Halt.runsOn)
  · have hfirst : fileAndSidecar.write checked isizeMax [] 2 5 u64Max [1] 0 (fun _ => none) [] = .ok (_, .ok ()) := rfl
    have hsized := write_sized fileAndSidecar_sized (fun u hu => by cases hu) (by decide) hfirst
    have hfits := (write_iff hsized fun u hu => by cases hu).1 h
    exact hfits.merged "a" ⟨rfl, by decide, by decide, by decide, rfl⟩ ⟨by decide, rfl, _, rfl, rfl, by decide, by decide⟩
  · cases (id h : Except.error Halt.panics = Except.ok true)

end Mobfs
