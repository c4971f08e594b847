import Mobfs.Vfs.Coherence
/-!
# A file that a mount shares

A mount, and one file on the remote that the mount writes to, among any others. The entry of
`metas` for it comes from answers, from notes of writes and from requests that set the size or
the mode, and goes at any time.

`SizeGuard` is what a step must meet so that the entry keeps the size the file has once its
writes are uploaded, `SizeInv` what then holds in every state.
-/

namespace Mobfs

open Lib

structure RemoteFile where
  size : Nat
  mode : Nat
  deriving DecidableEq, Repr

/-- A mount and the file at a path. The three times are for stating properties: of the
last change by others, of the last new size given by `setattr` or an upload, and of the
last mode given by `setattr`. -/
structure SharedFile where
  mount : Mount
  file : Option RemoteFile
  changedAt : Nat
  resizedAt : Nat
  chmodAt : Nat
  /-- The paths of buffered writes, while `invalidate_all` has them. -/
  keeping : Option (List String)

inductive FileAct where
  | mount (a : MountAct)
  /-- The daemon carries out the upload of a chunk. -/
  | lands (i : Nat)
  /-- The file is written, made, moved or removed by others, or by calls of this mount that
  make, move and remove entries. -/
  | changed (file : Option RemoteFile)
  /-- Such a call of this mount edits the entry. -/
  | names (m : Option EntryMeta)
  /-- The two critical sections of `invalidate_all` that bear on `metas`. -/
  | collect
  | retain

def Chunk.stop (c : Chunk) : Nat := c.offset + c.len

/-- The writes to a path that are accepted and whose uploads have not ended. -/
def Mount.pendingTo (s : Mount) (p : String) : List Chunk := (s.chunks.map (·.1)).filter (·.path = p)

/-- How far the writes reach. -/
def reach (cs : List Chunk) : Nat := cs.foldr (fun c n => max c.stop n) 0

/-- What a `Stat` says of the file. -/
def showsFile : Option RemoteFile → Option EntryMeta → Bool
  | none, none => true
  | some f, some m => decide (m.kind = .file ∧ m.size = f.size ∧ m.mode = f.mode)
  | _, _ => false

/-- What a request of `setattr` makes of the file. -/
def Attr.onFile (fileMode : Nat) : Attr → Option RemoteFile → Option RemoteFile
  | .truncate size, f => some ⟨size, (f.map (·.mode)).getD fileMode⟩
  | .metadata mode _, f => f.map fun f => { f with mode := mode.elim f.mode fun m => if m = 0 then f.mode else m }

/-- What the upload of a chunk makes of the file. -/
def Chunk.onFile (fileMode : Nat) (c : Chunk) : Option RemoteFile → RemoteFile
  | some f => { f with size := if c.len = 0 then f.size else max f.size c.stop }
  | none => ⟨if c.len = 0 then 0 else c.stop, fileMode⟩

/-- The call waits for an answer of the daemon. -/
def NameCall.waits : NameCall → Bool
  | .stat _ | .list _ | .setattr _ (_ :: _) => true
  | _ => false

namespace SharedFile

def now (s : SharedFile) : Nat := s.mount.now

/-- A step beside those of the mount takes time, too. -/
def tick (s : SharedFile) : SharedFile :=
  { s with mount := { s.mount with cache := { s.mount.cache with now := s.now + 1 } } }

/-- The answers are the daemon's, as far as they are about the file. -/
def fits (s : SharedFile) (p : String) : MountAct → Bool
  | .answer t (.entry m) =>
    match s.mount.calls t with
    | some (.stat q) => q ≠ p || showsFile s.file m
    | _ => true
  | .answer t (.entries es) =>
    match s.mount.calls t with
    | some (.list d) => es.all fun x => joinRel d x.1 ≠ p || showsFile s.file (some x.2)
    | _ => true
  | .answer t .ok =>
    match s.mount.calls t with
    | some (.setattr q (.metadata _ _ :: _)) => q ≠ p || s.file.isSome
    | _ => true
  | .fails t => (s.mount.calls t).any NameCall.waits
  | _ => true

/-- The request that is answered with `Ok` has been carried out. -/
def request (s : SharedFile) (p : String) : MountAct → Option Attr
  | .answer t .ok =>
    match s.mount.calls t with
    | some (.setattr q (a :: _)) => if q = p then some a else none
    | _ => none
  | _ => none

def carryOut (s : SharedFile) (fileMode : Nat) : Option Attr → SharedFile
  | some (.truncate size) => { s with file := (Attr.truncate size).onFile fileMode s.file, resizedAt := s.now }
  | some (.metadata (some m) modified) =>
    { s with file := (Attr.metadata (some m) modified).onFile fileMode s.file, chmodAt := s.now }
  | _ => s

/-- `retain` of `invalidate_all`, and what it clears besides. -/
def keepOnly (s : SharedFile) (paths : List String) : SharedFile :=
  { s with
    mount := { s.mount.withStore s.mount.cache.store.clear with
      metas := fun q => if q ∈ paths then s.mount.metas q else none
      dirs := fun _ => none }
    keeping := none }

def step (ignore : List String) (p : String) (fileMode : Nat) (s : SharedFile) : FileAct → Option SharedFile
  | .mount a =>
    if s.fits p a then (s.mount.step ignore a).map fun m => { s.carryOut fileMode (s.request p a) with mount := m }
    else none
  | .lands i =>
    match s.mount.chunks[i]? with
    | some (c, .uploading) =>
      if c.path = p then some { s.tick with file := some (c.onFile fileMode s.file), resizedAt := s.now } else none
    | _ => none
  | .changed file => some { s.tick with file, changedAt := s.now }
  | .names m => some ({ s with mount := s.mount.setMeta p (m.map (⟨·, s.now⟩)) }.tick)
  | .collect =>
    some { s.tick with
      keeping := some ((s.mount.chunks.filter fun x => x.2 = .buffered).map (·.1.path)) }
  | .retain => s.keeping.map fun paths => (s.keepOnly paths).tick

/-- `getattr_fast` of a path that is neither the root nor a sidecar. -/
def getattrFast (s : SharedFile) (p : String) : Option EntryMeta := (s.mount.metas p).map (·.value)

/-- `read` takes the offset to be past the end of the file. -/
def pastEnd (s : SharedFile) (p : String) (offset : Nat) : Bool :=
  ((s.getattrFast p).map (·.size)).any (· ≤ offset)

/-! ## The condition -/

end SharedFile

/-- The write that a call has buffered and not yet noted. -/
def NameCall.noting : NameCall → Option Chunk
  | .wrote c | .note c => some c
  | _ => none

/-- A `setattr` has had its request carried out and is yet to edit the entry. -/
def NameCall.editing : NameCall → Option (String × Attr × Nat)
  | .invalidate p a asOf _ | .edit p a asOf _ => some (p, a, asOf)
  | _ => none

/-- The answer that a call has, and may yet put into the entries. -/
def NameCall.carrying : NameCall → Option (Nat × List (String × EntryMeta))
  | .put asOf _ todo => some (asOf, todo)
  | .listed d asOf entries => some (asOf, entries.map fun x => (joinRel d x.1, x.2))
  | _ => none

def Attr.resizes : Attr → Bool
  | .truncate _ => true
  | .metadata _ _ => false

def Attr.chmods : Attr → Bool
  | .metadata (some _) _ => true
  | _ => false

namespace SharedFile

def Noting (s : SharedFile) (p : String) (t : Nat) (c : Chunk) : Prop :=
  c.path = p ∧ (s.mount.calls t).bind NameCall.noting = some c

def Editing (s : SharedFile) (p : String) (t : Nat) (a : Attr) (asOf : Nat) : Prop :=
  (s.mount.calls t).bind NameCall.editing = some (p, a, asOf)

def Carrying (s : SharedFile) (p : String) (asOf : Nat) (m : EntryMeta) : Prop :=
  ∃ t todo, (s.mount.calls t).bind NameCall.carrying = some (asOf, todo) ∧ (p, m) ∈ todo

/-- How far the file reaches once the pending writes are uploaded. -/
def extent (s : SharedFile) (p : String) (f : RemoteFile) : Nat := max f.size (reach (s.mount.pendingTo p))

/-- The entry is out of date by a change of others. -/
def Outdated (s : SharedFile) (v : Dated EntryMeta) : Prop := v.asOf < s.changedAt

/-- A write is noted. Where there is an entry, others have not changed the file since, no
`setattr` is between its request and its edit, and no other write that is about to be
noted reaches further; where there is none, neither the file nor the pending writes reach
further than this one, and the mode is 0644. -/
def NoteOk (s : SharedFile) (p : String) (t : Nat) (c : Chunk) : Prop :=
  (∃ f, s.file = some f ∧ c.stop ≤ s.extent p f) ∧
    match s.mount.metas p with
    | some v => ¬ s.Outdated v ∧ (∀ u a asOf, ¬ s.Editing p u a asOf) ∧
        ∀ u d, u ≠ t → s.Noting p u d → d.stop ≤ max v.value.size c.stop
    | none => ∀ f, s.file = some f → s.extent p f ≤ c.stop ∧ f.mode = 0o644

/-- An answer is put into the entry: since it was given no write and no `setattr` has
changed the file, and none is pending. -/
def PutOk (s : SharedFile) (p : String) (asOf : Nat) : Prop :=
  s.changedAt ≤ asOf → s.resizedAt ≤ asOf ∧ s.chmodAt ≤ asOf ∧ s.mount.pendingTo p = []

/-- A `setattr` edits the entry: its request was the last of its kind, no write is pending
and no other one is to edit the same; and it makes up no entry with a wrong mode, nor a
mode of zero. -/
def EditOk (s : SharedFile) (p : String) (t : Nat) (asOf : Nat) : Attr → Prop
  | .truncate _ => s.changedAt ≤ asOf → s.resizedAt ≤ asOf ∧ s.mount.pendingTo p = [] ∧
      (∀ u b d, u ≠ t → s.Editing p u b d → b.resizes = false) ∧
      (s.mount.metas p = none → ∀ f, s.file = some f → f.mode = 0o644)
  | .metadata mode _ => s.changedAt ≤ asOf → ∀ m, mode = some m → m ≠ 0 ∧ s.chmodAt ≤ asOf ∧
      ∀ u b d, u ≠ t → s.Editing p u b d → b.chmods = false

/-- The step leaves no wrong entry. -/
def SizeGuard (p : String) (s : SharedFile) : FileAct → Prop
  | .mount (.run t _) =>
    match s.mount.calls t with
    | some (.note c) => c.path = p → s.NoteOk p t c
    | some (.put asOf (_ + 2) ((q, _) :: _)) => q = p → s.PutOk p asOf
    | some (.edit q a asOf _) => q = p → s.EditOk p t asOf a
    | _ => True
  | .mount (.complete i) =>
    ∀ c place, s.mount.chunks[i]? = some (c, place) → c.path = p →
      (∃ f, s.file = some f ∧ c.stop ≤ f.size) ∨ ∀ v, s.mount.metas p = some v → s.Outdated v
  | .names (some m) => showsFile s.file (some m) = true ∧ s.mount.pendingTo p = []
  | _ => True

/-! ## The invariant -/

/-- The entry has the size that the file will have, but for the writes about to be noted. -/
structure Sized (s : SharedFile) (p : String) (f : RemoteFile) (size : Nat) : Prop where
  le : size ≤ s.extent p f
  covers : ∀ n, n < s.extent p f → n < size ∨ ∃ t c, s.Noting p t c ∧ n < c.stop

structure SizeInv (p : String) (s : SharedFile) : Prop where
  dates : ∀ d, s.mount.Dates (.entry p) d → d < s.now
  entry : ∀ v, s.mount.metas p = some v → ¬ s.Outdated v → ∃ f, s.file = some f ∧
    ((∀ t a d, s.Editing p t a d → a.resizes = false) → s.Sized p f v.value.size) ∧
    ((∀ t a d, s.Editing p t a d → a.chmods = false) → v.value.mode = f.mode)
  carried : ∀ asOf m, s.Carrying p asOf m → s.changedAt ≤ asOf → ∃ f, s.file = some f ∧
    (s.resizedAt ≤ asOf → m.size = f.size) ∧ (s.chmodAt ≤ asOf → m.mode = f.mode)
  edits : ∀ t a asOf, s.Editing p t a asOf → s.changedAt ≤ asOf → ∃ f, s.file = some f ∧
    (∀ size, a = .truncate size → s.resizedAt ≤ asOf → f.size = size) ∧
    ∀ m modified, a = .metadata (some m) modified → m ≠ 0 → s.chmodAt ≤ asOf → f.mode = m

end SharedFile

/-! ## How far writes reach -/

theorem lt_reach {n : Nat} {cs : List Chunk} : n < reach cs ↔ ∃ c ∈ cs, n < c.stop := by
  induction cs with
  | nil => simp [reach]
  | cons c cs ih =>
    rw [show reach (c :: cs) = max c.stop (reach cs) from rfl, lt_max_iff, ih]
    simp

theorem stop_le_reach {c : Chunk} {cs : List Chunk} (h : c ∈ cs) : c.stop ≤ reach cs := by
  by_contra hlt
  exact absurd (lt_reach.2 ⟨c, h, Nat.lt_of_not_le hlt⟩) (Nat.lt_irrefl _)

theorem reach_le_of_subset {cs ds : List Chunk} (h : ∀ c ∈ cs, c ∈ ds) : reach cs ≤ reach ds := by
  by_contra hlt
  obtain ⟨c, hc, hlt⟩ := lt_reach.1 (Nat.lt_of_not_le hlt)
  exact absurd (stop_le_reach (h c hc)) (Nat.not_le_of_lt hlt)

namespace SharedFile

variable {ignore : List String} {p : String} {fileMode : Nat} {s s' : SharedFile} {f : RemoteFile}

theorem lt_extent {n : Nat} : n < s.extent p f ↔ n < f.size ∨ ∃ c ∈ s.mount.pendingTo p, n < c.stop := by
  rw [extent, lt_max_iff, lt_reach]

/-! ## Steps that leave the file and its entry alone -/

/-- The entry may go, answers about the file as it is may come. -/
structure Frame (p : String) (s s' : SharedFile) : Prop where
  file : s'.file = s.file
  changedAt : s'.changedAt = s.changedAt
  resizedAt : s'.resizedAt = s.resizedAt
  chmodAt : s'.chmodAt = s.chmodAt
  now : s.now ≤ s'.now
  entry : s'.mount.metas p = s.mount.metas p ∨ s'.mount.metas p = none
  pending : s'.mount.pendingTo p = s.mount.pendingTo p
  noting : ∀ t c, s.Noting p t c → s'.Noting p t c
  editing : ∀ t a d, s'.Editing p t a d ↔ s.Editing p t a d
  carrying : ∀ asOf m, s'.Carrying p asOf m → s.Carrying p asOf m ∨ showsFile s.file (some m) = true

theorem SizeInv.frame (hi : SizeInv p s) (hf : Frame p s s') (hd : ∀ d, s'.mount.Dates (.entry p) d → d < s'.now) :
    SizeInv p s' where
  dates := hd
  entry := by
    intro v hv hnew
    rcases hf.entry with he | he
    · rw [he] at hv
      rw [Outdated, hf.changedAt] at hnew
      obtain ⟨f, hfile, hsize, hmode⟩ := hi.entry v hv hnew
      refine ⟨f, hf.file.trans hfile, fun hno => ?_,
        fun hno => hmode fun t a d ha => hno t a d ((hf.editing t a d).2 ha)⟩
      have hsized := hsize fun t a d ha => hno t a d ((hf.editing t a d).2 ha)
      have hext : s'.extent p f = s.extent p f := by rw [extent, extent, hf.pending]
      refine ⟨hext ▸ hsized.le, fun n hn => ?_⟩
      rcases hsized.covers n (hext ▸ hn) with h | ⟨t, c, hc, h⟩
      · exact .inl h
      · exact .inr ⟨t, c, hf.noting t c hc, h⟩
    · rw [he] at hv
      cases hv
  carried := by
    intro asOf m hm hnew
    rw [hf.changedAt] at hnew
    rw [hf.resizedAt, hf.chmodAt, hf.file]
    rcases hf.carrying asOf m hm with hm | hm
    · exact hi.carried asOf m hm hnew
    · cases hfile : s.file with
      | none =>
        rw [hfile] at hm
        cases hm
      | some f =>
        rw [hfile] at hm
        obtain ⟨-, hsize, hmode⟩ := of_decide_eq_true hm
        exact ⟨f, rfl, fun _ => hsize, fun _ => hmode⟩
  edits := by
    intro t a asOf ha hnew
    rw [hf.changedAt] at hnew
    rw [hf.resizedAt, hf.chmodAt, hf.file]
    exact hi.edits t a asOf ((hf.editing t a asOf).1 ha) hnew

end SharedFile

end Mobfs
