import Mobfs.Daemon.Framing
import Mobfs.Lib.Ranges
/-!
# What a streamed write announces

`handle_write_file_at_stream` records what it has written each time the bytes not yet
announced reach `STREAM_ANNOUNCE_BYTES`, and at the end; where it returns early, the bytes
since the last announcement are not recorded.

`Os.logged` is the operating system with a log of the bytes that reach the file.
`stream_announces_iff` says exactly when the events of a write cover all of them.
-/

namespace Mobfs

open Lib

/-- The ranges written to the file, and the position in it. -/
structure FileLog where
  pos : Nat
  ranges : List (Nat × Nat)

def FileLog.add (l : FileLog) (n : Nat) : FileLog := ⟨l.pos + n, l.ranges ++ [(l.pos, n)]⟩

/-- A file ends at the largest `i64`. -/
def maxFileEnd : Nat := 2 ^ 63 - 1

section Logged
variable {σ α : Type}

/-- A call that writes nothing to the file. -/
def Io.aside (io : Io σ α) : Io (σ × FileLog) α := fun s => ((io s.1).1, ((io s.1).2, s.2))

/-- The operating system with the log. `short file data s` bytes of the data reach the
file where `write_all` fails in state `s`; it fails in any case beyond the end a file can
have. -/
def Os.logged (os : Os σ) (short : Nat → Bytes → σ → Nat) : Os (σ × FileLog) where
  canonicalize path := Io.aside (os.canonicalize path)
  exists_ path s := ((os.exists_ path s.1).1, ((os.exists_ path s.1).2, s.2))
  createDirAll path := Io.aside (os.createDirAll path)
  openWrite path s := ((os.openWrite path s.1).1, ((os.openWrite path s.1).2, { s.2 with pos := 0 }))
  seek file offset s := ((os.seek file offset s.1).1, ((os.seek file offset s.1).2, { s.2 with pos := offset }))
  writeAll file data s :=
    let part := min (short file data s.1) (min (maxFileEnd - s.2.pos) (data.length - 1))
    if s.2.pos + data.length ≤ maxFileEnd then
      match os.writeAll file data s.1 with
      | (.ok (), s') => (.ok (), (s', s.2.add data.length))
      | (.error e, s') => (.error e, (s', s.2.add part))
    else (.error (.io "File too large (os error 27)"), (s.1, s.2.add part))
  write path data := Io.aside (os.write path data)
  readDir path := Io.aside (os.readDir path)
  elapsed path s := ((os.elapsed path s.1).1, ((os.elapsed path s.1).2, s.2))
  removeFile path := Io.aside (os.removeFile path)
  tempDir := os.tempDir
  pathHash := os.pathHash
  shouldDropRequest request s := ((os.shouldDropRequest request s.1).1, ((os.shouldDropRequest request s.1).2, s.2))

/-- The log of a write that has not begun. -/
def Daemon.logging (d : Daemon σ) : Daemon (σ × FileLog) := ⟨(d.disk, ⟨0, []⟩), d.marks, d.changes⟩

/-- The bytes not announced after some frames, from their sizes. -/
def unannounced : Nat → List Nat → Nat
  | pending, [] => pending
  | pending, n :: sizes =>
    unannounced (if streamAnnounceBytes ≤ pending + n then 0 else pending + n) sizes

/-- Where the data of a write breaks off: the sizes of the frames that have been written,
and how much of the next one has reached the file. Nothing where all of it arrives and is
written. -/
def breaksOff (os : Os (σ × FileLog)) (len file : Nat) : List Frame → Nat → σ × FileLog → Option (List Nat × Nat)
  | [], written, _ => if written < len then some ([], 0) else none
  | f :: frames, written, s =>
    if written < len then
      -- A frame that is too long ends the write, and nothing of it is written.
      if len < satAdd written f.bytes.length then some ([], 0)
      else
        match os.writeAll file f.bytes s with
        | (.error _, s') => some ([], s'.2.pos - s.2.pos)
        | (.ok (), s') =>
          (breaksOff os len file frames (satAdd written f.bytes.length) s').map fun x => (f.bytes.length :: x.1, x.2)
    else none

/-- The condition: the write fails before it opens the file; or its data arrives and is
written; or what is written when the data breaks off has been announced. A write that is
known to be done writes nothing, and announces nothing. -/
def AnnouncesAll (os : Os (σ × FileLog)) (policy : RootPolicy) (w : StreamWrite) (frames : List Frame)
    (s : σ × FileLog) : Prop :=
  match writeDone os policy w s with
  | (.error _, _) => True
  | (.ok true, _) => (drainStreamBytes w.len frames 0).1 = .ok () → w.len = 0
  | (.ok false, s) =>
    match openTarget os policy w s with
    | (.error _, _) => True
    | (.ok t, s) => ∀ sizes part, breaksOff os w.len t.file frames 0 s = some (sizes, part) →
      unannounced 0 sizes = 0 ∧ part = 0

/-- The root of a write, as it is resolved when the file is opened. -/
def rootPathOf (os : Os (σ × FileLog)) (policy : RootPolicy) (w : StreamWrite) (s : σ × FileLog) : AbsPath :=
  match (policy.check os w.root (writeDone os policy w s).2).1 with
  | .ok root => root
  | .error _ => []

/-- The events that a write has recorded are for its root and path, and cover the bytes it has
written; if it returns `Ok`, they are ranges one after the other from `offset` to
`offset + len`. -/
def StreamAnnounced (root : AbsPath) (w : StreamWrite) (before : Daemon σ) (result : Except MobfsError Unit)
    (d : Daemon (σ × FileLog)) : Prop :=
  ∃ ranges, d.changes = before.changes ++ ranges.map (fun r => ⟨root, w.origin, w.rel, .write r.1 r.2⟩) ∧
    (∀ i, (∃ r ∈ d.disk.2.ranges, Within r i) → ∃ r ∈ ranges, Within r i) ∧
    (result = .ok () → Consecutive w.offset ranges (w.offset + w.len) ∧ ranges.Pairwise fun r r' => r.1 + r.2 ≤ r'.1)

/-! ## Calls that leave the log alone -/

section Aside
variable (os : Os σ) (short : Nat → Bytes → σ → Nat) (policy : RootPolicy)

theorem check_log (root : String) (s : σ × FileLog) : (policy.check (os.logged short) root s).2.2 = s.2 := by
  unfold RootPolicy.check Os.logged Io.aside
  dsimp only
  cases (os.canonicalize root s.1).1 with
  | error e => rfl
  | ok path =>
    dsimp only
    split <;> rfl

theorem opMarkerPath_log (root opId : String) (s : σ × FileLog) :
    (opMarkerPath (os.logged short) policy root opId s).2.2 = s.2 := by
  have h := check_log os short policy root s
  unfold opMarkerPath
  rcases hc : policy.check (os.logged short) root s with ⟨e | r, s'⟩ <;> rw [hc] at h <;> exact h

theorem writeDone_log (w : StreamWrite) (s : σ × FileLog) :
    (writeDone (os.logged short) policy w s).2.2 = s.2 := by
  unfold writeDone
  cases w.opId with
  | none => rfl
  | some opId =>
    have h := opMarkerPath_log os short policy w.root opId s
    simp only [opDone]
    rcases hc : opMarkerPath (os.logged short) policy w.root opId s with ⟨e | r, s'⟩ <;> rw [hc] at h <;> exact h

theorem createParent_log (path : AbsPath) (s : σ × FileLog) :
    (createParent (os.logged short) path s).2.2 = s.2 := by
  unfold createParent
  split <;> rfl

/-- Opening the file writes nothing to it. -/
theorem openTarget_ranges (w : StreamWrite) (s : σ × FileLog) :
    (openTarget (os.logged short) policy w s).2.2.ranges = s.2.ranges := by
  have hcheck := check_log os short policy w.root s
  unfold openTarget
  rcases hc : policy.check (os.logged short) w.root s with ⟨e | root, s₁⟩ <;> rw [hc] at hcheck <;> dsimp only at hcheck ⊢
  · rw [hcheck]
  cases safeJoin root w.rel with
  | error e =>
    dsimp only
    rw [hcheck]
  | ok path =>
    have hparent := createParent_log os short path s₁
    dsimp only
    rcases hp : createParent (os.logged short) path s₁ with ⟨e | u, s₂⟩ <;> rw [hp] at hparent <;> dsimp only at hparent ⊢
    · rw [hparent, hcheck]
    have hopen : ((os.logged short).openWrite path s₂).2.2.ranges = s₂.2.ranges := rfl
    rcases ho : (os.logged short).openWrite path s₂ with ⟨e | file, s₃⟩ <;> rw [ho] at hopen <;> dsimp only at hopen ⊢
    · rw [hopen, hparent, hcheck]
    have hseek : ((os.logged short).seek file w.offset s₃).2.2.ranges = s₃.2.ranges := rfl
    rcases hs : (os.logged short).seek file w.offset s₃ with ⟨e | u, s₄⟩ <;> rw [hs] at hseek <;> dsimp only at hseek ⊢ <;>
      rw [hseek, hopen, hparent, hcheck]

theorem openTarget_pos {w : StreamWrite} {t : Target} {s s' : σ × FileLog}
    (h : openTarget (os.logged short) policy w s = (.ok t, s')) : s'.2.pos = w.offset := by
  obtain ⟨path, s₁, s₂, s₃, -, -, -, -, hs⟩ := (openTarget_ok_iff _ _).1 h
  have hs' : s' = ((os.logged short).seek t.file w.offset s₃).2 := by rw [hs]
  rw [hs']
  rfl

theorem pruneOpMarkers_log (dir : AbsPath) (s : σ × FileLog) : (pruneOpMarkers (os.logged short) dir s).2 = s.2 := by
  unfold pruneOpMarkers
  have hread : ((os.logged short).readDir dir s).2.2 = s.2 := rfl
  rcases hr : (os.logged short).readDir dir s with ⟨e | items, s'⟩ <;> rw [hr] at hread
  · exact hread
  · refine List.foldlRecOn (motive := fun x : σ × FileLog => x.2 = s.2) items _ hread ?_
    intro s'' hs'' item _
    have helapsed : ((os.logged short).elapsed item s'').2.2 = s''.2 := rfl
    rcases he : (os.logged short).elapsed item s'' with ⟨none | age, s₃⟩ <;> rw [he] at helapsed <;> dsimp only at helapsed ⊢
    · exact helapsed.trans hs''
    · split
      · exact helapsed.trans hs''
      · exact helapsed.trans hs''

/-- The mark of an operation is not in the file, and is not announced. -/
theorem markOpDone_log (root opId : String) (d : Daemon (σ × FileLog)) :
    (markOpDone (os.logged short) policy root opId d).2.disk.2 = d.disk.2 ∧
      (markOpDone (os.logged short) policy root opId d).2.changes = d.changes := by
  have hpath := opMarkerPath_log os short policy root opId d.disk
  unfold markOpDone Daemon.call
  rcases hm : opMarkerPath (os.logged short) policy root opId d.disk with ⟨e | marker, s⟩ <;> rw [hm] at hpath <;>
    dsimp only at hpath ⊢
  · exact ⟨hpath, rfl⟩
  have hcreate : ((os.logged short).createDirAll marker.dropLast s).2.2 = s.2 := rfl
  rcases hc : (os.logged short).createDirAll marker.dropLast s with ⟨e | u, s'⟩ <;> rw [hc] at hcreate <;>
    dsimp only at hcreate ⊢
  · exact ⟨hcreate.trans hpath, rfl⟩
  refine ⟨?_, rfl⟩
  have hwrite : ∀ s'' : σ × FileLog, ((os.logged short).write marker "done".toUTF8.toList s'').2.2 = s''.2 := fun _ => rfl
  rw [hwrite]
  split
  · rw [pruneOpMarkers_log, hcreate, hpath]
  · rw [hcreate, hpath]

end Aside

/-! ## The loop -/

section Loop
variable {os : Os σ} {short : Nat → Bytes → σ → Nat} {w : StreamWrite} {t : Target} {before : Daemon σ}
  {d : Daemon (σ × FileLog)} {written announced : Nat}

theorem writeAll_ok {file : Nat} {data : Bytes} {s s' : σ × FileLog}
    (h : (os.logged short).writeAll file data s = (.ok (), s')) :
    s.2.pos + data.length ≤ maxFileEnd ∧ s'.2 = s.2.add data.length := by
  simp only [Os.logged] at h
  split at h
  · rename_i hfits
    split at h
    · cases h
      exact ⟨hfits, rfl⟩
    · cases h
  · cases h

theorem writeAll_error {file : Nat} {data : Bytes} {s s' : σ × FileLog} {e : MobfsError}
    (h : (os.logged short).writeAll file data s = (.error e, s')) : ∃ part, s'.2 = s.2.add part := by
  simp only [Os.logged] at h
  split at h
  · split at h
    · cases h
    · cases h
      exact ⟨_, rfl⟩
  · cases h
    exact ⟨_, rfl⟩

/-- What holds in the loop: the file has the bytes from `offset` on, and the first of them
are announced. -/
structure WrittenSoFar (w : StreamWrite) (t : Target) (before : Daemon σ) (written announced : Nat) (d : Daemon (σ × FileLog)) :
    Prop where
  le : announced ≤ written
  events : ∃ ranges, d.changes = before.changes ++ ranges.map (fun r => ⟨t.rootPath, w.origin, w.rel, .write r.1 r.2⟩) ∧
    Consecutive w.offset ranges (w.offset + announced)
  bytes : Consecutive w.offset d.disk.2.ranges (w.offset + written)
  pos : d.disk.2.pos = w.offset + written

theorem WrittenSoFar.congr (h : WrittenSoFar w t before written announced d) {d' : Daemon (σ × FileLog)}
    (hd : d'.disk.2 = d.disk.2 ∧ d'.changes = d.changes) : WrittenSoFar w t before written announced d' where
  le := h.le
  events := by
    rw [hd.2]
    exact h.events
  bytes := by
    rw [hd.1]
    exact h.bytes
  pos := by
    rw [hd.1]
    exact h.pos

theorem WrittenSoFar.write (h : WrittenSoFar w t before written announced d) {n : Nat} {s : σ × FileLog} (hs : s.2 = d.disk.2.add n) :
    WrittenSoFar w t before (written + n) announced { d with disk := s } where
  le := Nat.le_add_right_of_le h.le
  events := h.events
  bytes := by
    rw [hs, FileLog.add, h.pos, ← Nat.add_assoc]
    exact h.bytes.snoc n
  pos := by
    rw [hs, FileLog.add, h.pos, Nat.add_assoc]

theorem WrittenSoFar.announce (h : WrittenSoFar w t before written announced d) :
    WrittenSoFar w t before written written (announce w t announced written d) where
  le := Nat.le_refl _
  events := by
    obtain ⟨ranges, hchanges, hcons⟩ := h.events
    have hend : w.offset + announced + (written - announced) = w.offset + written := by have := h.le; omega
    refine ⟨ranges ++ [(w.offset + announced, written - announced)], ?_, hend ▸ hcons.snoc _⟩
    simp [Mobfs.announce, Daemon.record, hchanges]
  bytes := h.bytes
  pos := h.pos

/-- Where the loop ends, by where the data breaks off. -/
theorem writeFrames_written (os : Os σ) (short : Nat → Bytes → σ → Nat) (hlen : w.len < 2 ^ 64) (frames : List Frame) (h : WrittenSoFar w t before written announced d)
    (hle : written ≤ w.len) :
    (breaksOff (os.logged short) w.len t.file frames written d.disk = none → ∃ a,
      (writeFrames (os.logged short) w t frames written announced d).1 = .ok (w.len, a) ∧
        WrittenSoFar w t before w.len a (writeFrames (os.logged short) w t frames written announced d).2.2) ∧
    ∀ sizes part, breaksOff (os.logged short) w.len t.file frames written d.disk = some (sizes, part) → ∃ e total a,
      (writeFrames (os.logged short) w t frames written announced d).1 = .error e ∧
        WrittenSoFar w t before total a (writeFrames (os.logged short) w t frames written announced d).2.2 ∧
        total - a = unannounced (written - announced) sizes + part := by
  have hstop : ¬ written < w.len → written = w.len := by omega
  induction frames generalizing written announced d with
  | nil =>
    unfold breaksOff writeFrames
    split
    · refine ⟨fun h => (by cases h), ?_⟩
      rintro _ _ ⟨⟩
      exact ⟨_, written, announced, rfl, h, rfl⟩
    · rename_i hend
      rw [hstop hend] at h ⊢
      exact ⟨fun _ => ⟨announced, rfl, h⟩, fun _ _ h => (by cases h)⟩
  | cons f frames ih =>
    unfold breaksOff writeFrames
    split
    · rename_i hlt
      dsimp only
      split
      · refine ⟨fun h => (by cases h), ?_⟩
        rintro _ _ ⟨⟩
        exact ⟨_, written, announced, rfl, h, rfl⟩
      · rename_i hfits
        rw [Daemon.call]
        rcases hw : (os.logged short).writeAll t.file f.bytes d.disk with ⟨e | u, s⟩
        · obtain ⟨part, hs⟩ := writeAll_error hw
          refine ⟨fun h => (by cases h), ?_⟩
          rintro _ _ ⟨⟩
          refine ⟨e, written + part, announced, rfl, h.write hs, ?_⟩
          have hpart : s.2.pos - d.disk.2.pos = part := by
            rw [hs, FileLog.add]
            exact Nat.add_sub_cancel_left _ _
          have := h.le
          simp only [unannounced, hpart]
          omega
        · obtain ⟨hroom, hs⟩ := writeAll_ok hw
          -- The position bounds the bytes written, so the sum does not saturate.
          have hadd : satAdd written f.bytes.length = written + f.bytes.length := by
            rw [h.pos, maxFileEnd] at hroom
            unfold satAdd
            omega
          have hpending : written - announced + f.bytes.length = written + f.bytes.length - announced := by
            have := h.le
            omega
          have hnext := h.write hs
          rw [hadd] at hfits ⊢
          have hle' : written + f.bytes.length ≤ w.len := by omega
          have hstop' : ¬ written + f.bytes.length < w.len → written + f.bytes.length = w.len := by omega
          dsimp only
          rw [Option.map_eq_none_iff]
          simp only [Option.map_eq_some_iff]
          split
          · rename_i hann
            have hih := ih hnext.announce hle' hstop'
            refine ⟨hih.1, ?_⟩
            rintro _ _ ⟨⟨sizes, part⟩, hbreak, ⟨⟩⟩
            obtain ⟨e, total, a, he, hwritten, htotal⟩ := hih.2 sizes part hbreak
            refine ⟨e, total, a, he, hwritten, ?_⟩
            rw [htotal, unannounced, hpending, if_pos hann, Nat.sub_self]
          · rename_i hann
            have hih := ih hnext hle' hstop'
            refine ⟨hih.1, ?_⟩
            rintro _ _ ⟨⟨sizes, part⟩, hbreak, ⟨⟩⟩
            obtain ⟨e, total, a, he, hwritten, htotal⟩ := hih.2 sizes part hbreak
            refine ⟨e, total, a, he, hwritten, ?_⟩
            rw [htotal, unannounced, hpending, if_neg hann]
    · rename_i hend
      rw [hstop hend] at h ⊢
      exact ⟨fun _ => ⟨announced, rfl, h⟩, fun _ _ h => (by cases h)⟩

end Loop

/-! ## What is announced -/

section Announces
variable {os : Os σ} {short : Nat → Bytes → σ → Nat} {policy : RootPolicy} {w : StreamWrite} {t : Target}
  {before : Daemon σ} {d d' : Daemon (σ × FileLog)} {result : Except MobfsError Unit} {written announced : Nat}
  {root : AbsPath}

theorem rootPathOf_openTarget {os' : Os (σ × FileLog)} {s s₁ s' : σ × FileLog} {done : Except MobfsError Bool}
    (hdone : writeDone os' policy w s = (done, s₁))
    (h : openTarget os' policy w s₁ = (.ok t, s')) : rootPathOf os' policy w s = t.rootPath := by
  obtain ⟨path, s₂, s₃, s₄, hcheck, -⟩ := (openTarget_ok_iff os' policy).1 h
  rw [rootPathOf, hdone, hcheck]

/-- A write that has written nothing. -/
theorem announced_none (hchanges : d.changes = before.changes) (hranges : d.disk.2.ranges = []) :
    StreamAnnounced root w before result d ↔ (result = .ok () → w.len = 0) := by
  have hnil : ∀ ranges : List (Nat × Nat),
      d.changes = before.changes ++ ranges.map (fun r => ⟨root, w.origin, w.rel, .write r.1 r.2⟩) ↔ ranges = [] := by
    intro ranges
    rw [hchanges, List.self_eq_append_right, List.map_eq_nil_iff]
  constructor
  · rintro ⟨ranges, hr, -, hok⟩ h
    rw [(hnil ranges).1 hr] at hok
    have := (hok h).1
    simp only [Consecutive] at this
    omega
  · intro hok
    refine ⟨[], (hnil []).2 rfl, by simp [hranges], fun h => ⟨?_, List.Pairwise.nil⟩⟩
    simp [Consecutive, hok h]

theorem WrittenSoFar.covers (h : WrittenSoFar w t before written announced d) (e : MobfsError) :
    StreamAnnounced t.rootPath w before (.error e) d ↔ written = announced := by
  obtain ⟨ranges, hchanges, hcons⟩ := h.events
  constructor
  · rintro ⟨ranges', hchanges', hcover, -⟩
    have hsame : ranges' = ranges := by
      rw [hchanges, List.append_cancel_left_eq] at hchanges'
      have hpairs := congrArg (List.filterMap fun c : Recorded => match c.kind with
        | .write offset len => some (offset, len)
        | _ => none) hchanges'
      simpa [List.filterMap_map, Function.comp_def] using hpairs.symm
    have hle := h.le
    by_contra hne
    -- The last byte written is in no event.
    have hlast := hcover (w.offset + written - 1) ((h.bytes.within_iff _).2 (by omega))
    rw [hsame, hcons.within_iff] at hlast
    omega
  · rintro rfl
    refine ⟨ranges, hchanges, ?_, fun h' => nomatch h'⟩
    intro i hi
    exact (hcons.within_iff i).2 ((h.bytes.within_iff i).1 hi)

theorem WrittenSoFar.announced_all (h : WrittenSoFar w t before w.len w.len d) (result : Except MobfsError Unit) :
    StreamAnnounced t.rootPath w before result d := by
  obtain ⟨ranges, hchanges, hcons⟩ := h.events
  refine ⟨ranges, hchanges, ?_, fun _ => ⟨hcons, hcons.disjoint⟩⟩
  intro i hi
  exact (hcons.within_iff i).2 ((h.bytes.within_iff i).1 hi)

theorem stream_announces_iff (os : Os σ) (short : Nat → Bytes → σ → Nat) (policy : RootPolicy) (w : StreamWrite)
    (hlen : w.len < 2 ^ 64) (frames : List Frame) (before : Daemon σ) :
    let r := handleWriteFileAtStream (os.logged short) policy w frames before.logging
    StreamAnnounced (rootPathOf (os.logged short) policy w before.logging.disk) w before r.1 r.2.2 ↔ AnnouncesAll (os.logged short) policy w frames before.logging.disk := by
  have hdone := writeDone_log os short policy w before.logging.disk
  unfold handleWriteFileAtStream AnnouncesAll Daemon.call
  rcases hwd : writeDone (os.logged short) policy w before.logging.disk with ⟨e | done, s⟩ <;> rw [hwd] at hdone <;>
    dsimp only at hdone ⊢
  · rw [announced_none rfl (congrArg FileLog.ranges hdone)]
    simp
  cases done with
  | true =>
    dsimp only
    rw [announced_none rfl (congrArg FileLog.ranges hdone)]
  | false =>
    have hopen := openTarget_ranges os short policy w s
    dsimp only
    rcases ho : openTarget (os.logged short) policy w s with ⟨e | t, s'⟩ <;> rw [ho] at hopen <;> dsimp only at hopen ⊢
    · rw [announced_none rfl (hopen.trans (congrArg FileLog.ranges hdone))]
      simp
    · rw [rootPathOf_openTarget hwd ho]
      have hbytes : s'.2.ranges = [] := hopen.trans (congrArg FileLog.ranges hdone)
      have hstart : WrittenSoFar w t before 0 0 { before.logging with disk := s' } := {
        le := Nat.le_refl 0
        events := ⟨[], by simp [Daemon.logging], rfl⟩
        bytes := by rw [hbytes]; rfl
        pos := openTarget_pos os short policy ho }
      have hloop := writeFrames_written os short hlen frames hstart (Nat.zero_le _)
      dsimp only at hloop
      generalize hr : writeFrames (os.logged short) w t frames 0 0 _ = r at hloop ⊢
      cases hbreak : breaksOff (os.logged short) w.len t.file frames 0 s' with
      | none =>
        obtain ⟨a, hok, hwritten⟩ := hloop.1 hbreak
        obtain ⟨res, left, d⟩ := r
        cases hok
        dsimp only at hwritten ⊢
        have hall : WrittenSoFar w t before w.len w.len
            (if decide (a < w.len) || decide (w.len = 0) then announce w t a w.len d else d) := by
          split
          · exact hwritten.announce
          · rename_i hann
            simp only [Bool.or_eq_true, decide_eq_true_eq, not_or, Nat.not_lt] at hann
            have ha : a = w.len := Nat.le_antisymm hwritten.le hann.1
            rwa [ha] at hwritten
        refine iff_of_true ?_ nofun
        cases w.opId with
        | none => exact hall.announced_all _
        | some opId => exact (hall.congr (markOpDone_log os short policy w.root opId _)).announced_all _
      | some x =>
        obtain ⟨e, total, a, herr, hwritten, htotal⟩ := hloop.2 x.1 x.2 hbreak
        obtain ⟨res, left, d⟩ := r
        cases herr
        dsimp only at hwritten ⊢
        have hle := hwritten.le
        rw [hwritten.covers e]
        rw [Nat.sub_self] at htotal
        constructor
        · rintro rfl sizes part ⟨⟩
          rw [Nat.sub_self] at htotal
          dsimp only at htotal
          omega
        · intro h
          have := h x.1 x.2 rfl
          omega

end Announces

end Logged

/-- A write of two bytes that arrive in one frame. -/
theorem stream_announces_iff_whole :
    2 < 2 ^ 64 ∧ StreamAnnounced (rootPathOf (calmOs.logged fun _ _ _ => 0) ⟨[], true⟩ ⟨"/srv", "x", 0, 2, none, 0⟩
        ((), ⟨0, []⟩)) ⟨"/srv", "x", 0, 2, none, 0⟩ ⟨(), 0, []⟩ (.ok ())
      (handleWriteFileAtStream (calmOs.logged fun _ _ _ => 0) ⟨[], true⟩ ⟨"/srv", "x", 0, 2, none, 0⟩ [⟨[7, 8], .payload⟩]
        (Daemon.logging ⟨(), 0, []⟩)).2.2 := by
  refine ⟨by decide, (stream_announces_iff calmOs (fun _ _ _ => 0) ⟨[], true⟩ ⟨"/srv", "x", 0, 2, none, 0⟩ (by decide)
    [⟨[7, 8], .payload⟩] ⟨(), 0, []⟩).2 ?_⟩
  intro sizes part h
  cases h

/-- The connection is lost after the first of two bytes: it has been written, and nothing
is recorded. -/
theorem cut_stream_not_announced :
    (handleWriteFileAtStream (calmOs.logged fun _ _ _ => 0) ⟨[], true⟩ ⟨"/srv", "x", 0, 2, none, 0⟩ [⟨[7], .payload⟩]
        (Daemon.logging ⟨(), 0, []⟩)).1 = .error .eof ∧
      ∀ root, ¬ StreamAnnounced root ⟨"/srv", "x", 0, 2, none, 0⟩ ⟨(), 0, []⟩ (.error .eof)
        (handleWriteFileAtStream (calmOs.logged fun _ _ _ => 0) ⟨[], true⟩ ⟨"/srv", "x", 0, 2, none, 0⟩ [⟨[7], .payload⟩]
          (Daemon.logging ⟨(), 0, []⟩)).2.2 := by
  refine ⟨rfl, fun root => ?_⟩
  rintro ⟨ranges, hchanges, hcover, -⟩
  have hnil : ranges = [] := by
    have hnone : (handleWriteFileAtStream (calmOs.logged fun _ _ _ => 0) ⟨[], true⟩ ⟨"/srv", "x", 0, 2, none, 0⟩
        [⟨[7], .payload⟩] (Daemon.logging ⟨(), 0, []⟩)).2.2.changes = [] := rfl
    rw [hnone, List.nil_append] at hchanges
    exact List.map_eq_nil_iff.1 hchanges.symm
  obtain ⟨r, hr, -⟩ := hcover 0 ⟨(0, 1), List.mem_singleton_self _, by decide, by decide⟩
  rw [hnil] at hr
  cases hr

end Mobfs
