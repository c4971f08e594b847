import Mobfs.Lib.Runs
import Mobfs.Path
import Mobfs.Changes.Feed
/-!
# Changes made beside the daemon

The watcher reports what happens under the root, by the daemon or by anyone. `push`
gives up an event of a path that is being written, and one that it takes for the echo
of a change that was recorded a short while ago: the size, the time and the kind are as
they were then. It looks for writes, then at the disk, then takes the lock; requests and
other processes come between.

`outside_edits_recorded`: in every run in which no event is given up that comes after a
change by another process, that change is recorded. None is in runs in which the changes keep
apart from the daemon's own.
-/

namespace Mobfs.Changes

open Lib

/-- An entry on disk. The contents of a directory are what the system keeps of it. -/
structure DiskEntry where
  isDir : Bool
  mode : Nat
  modified : Option Int
  data : Bytes
  deriving DecidableEq, Repr

/-- What `symlink_metadata` tells `signature`. -/
def signature (e : Option DiskEntry) : Signature := e.map fun e => (e.data.length, e.modified, e.isDir)

/-- Contents, mode or existence differ. -/
def Altered (e e' : Option DiskEntry) : Prop :=
  (e'.map fun e => (e.isDir, e.mode, e.data)) ≠ e.map fun e => (e.isDir, e.mode, e.data)

instance (e e' : Option DiskEntry) : Decidable (Altered e e') := by
  unfold Altered
  infer_instance

/-- `is_daemon_temp`. -/
def isDaemonTemp (rel : String) : Bool :=
  let name := (splitParent rel).2.toList
  name.tails.any fun rest => ".mobfs-upload-".toList.isPrefixOf rest || ".mobfs-tmp-".toList.isPrefixOf rest

inductive FsEventKind where
  | access
  | create
  | modify
  | remove
  deriving DecidableEq, Repr

/-- The paths of an event that `handle_fs_event` does not push. -/
def skipsEvent (ignore : List String) (kind : FsEventKind) (rel : String) : Bool :=
  kind = .access || rel = "" || shouldIgnoreRel ignore rel || isDaemonTemp rel

/-- A call of `record` that has read the signature. -/
structure Recording where
  origin : Nat
  path : String
  kind : ChangeKind
  current : Signature

/-- The watcher's thread: between events, or in `push`, before and after it has read
the signature. -/
inductive WatcherState where
  | idle
  | checked (path : String)
  | read (path : String) (current : Signature)
  deriving DecidableEq

def WatcherState.path? : WatcherState → Option String
  | .idle => none
  | .checked p | .read p _ => some p

/-- A root and its feed. `changed`: paths that another process has changed since the
last event for them was delivered. `due`: paths for which an event was delivered after
such a change, and no `Replaced` recorded since. The code keeps neither. -/
structure WatchedRoot where
  disk : String → Option DiskEntry
  clock : Nat
  feed : FeedState
  recordings : List Recording
  watcher : WatcherState
  changed : List String
  due : List String

inductive RootAct where
  | tick (ms : Nat)
  /-- The daemon changes an entry. -/
  | write (path : String) (e : Option DiskEntry)
  /-- Another process does. -/
  | outside (path : String) (e : Option DiskEntry)
  | beginWrite (path : String)
  | endWrite (path : String)
  /-- A call of `record`, up to the lock. -/
  | recordRead (origin : Nat) (path : String) (kind : ChangeKind)
  | recordPush (i : Nat)
  /-- An event, with the first look at `busy`. -/
  | fsEvent (kind : FsEventKind) (rel : String)
  | watchRead
  | watchPush

namespace WatchedRoot

/-- The feed changes, and what is recorded is no longer due. -/
def setFeed (s : WatchedRoot) (feed : FeedState) : WatchedRoot :=
  { s with
    feed := feed
    due := s.due.filter fun p => (feed.log.drop s.feed.log.length).all fun r => r.event ≠ ⟨p, .replaced⟩ }

/-- An event for the path comes to `push`. -/
def deliver (s : WatchedRoot) (p : String) : WatchedRoot :=
  { s with
    changed := s.changed.filter (· ≠ p)
    due := if p ∈ s.changed then p :: s.due else s.due }

def step (ignore : List String) (s : WatchedRoot) : RootAct → Option WatchedRoot
  | .tick ms => some { s with clock := s.clock + ms }
  | .write p e => some { s with disk := Function.update s.disk p e }
  | .outside p e =>
    some { s with
      disk := Function.update s.disk p e
      changed := if Altered (s.disk p) e then p :: s.changed else s.changed }
  | .beginWrite p => some (s.setFeed (s.feed.beginWrite p))
  | .endWrite p => some (s.setFeed (s.feed.endWrite p))
  | .recordRead origin p kind => some { s with recordings := s.recordings ++ [⟨origin, p, kind, signature (s.disk p)⟩] }
  | .recordPush i =>
    match s.recordings[i]? with
    | none => none
    | some r =>
      some { s.setFeed (s.feed.push s.clock r.current r.origin r.path r.kind true) with
        recordings := s.recordings.eraseIdx i }
  | .fsEvent kind rel =>
    if s.watcher ≠ .idle then none
    else if skipsEvent ignore kind rel then some s
    else if s.feed.busy.contains rel then some (s.deliver rel)
    else some { s.deliver rel with watcher := .checked rel }
  | .watchRead =>
    match s.watcher with
    | .checked p => some { s with watcher := .read p (signature (s.disk p)) }
    | _ => none
  | .watchPush =>
    match s.watcher with
    | .read p current => some { s.setFeed (s.feed.push s.clock current 0 p .replaced false) with watcher := .idle }
    | _ => none

def start (disk : String → Option DiskEntry) : WatchedRoot := ⟨disk, 0, .new, [], .idle, [], []⟩

end WatchedRoot

/-- What is due will still be recorded: the path is being written, or the watcher has
an event for it. -/
def NotSwallowed (s : WatchedRoot) : Prop :=
  ∀ p ∈ s.due, s.feed.busy.contains p = true ∨ s.watcher.path? = some p

/-- No event that comes after a change by another process is given up. -/
def Heeded (s : WatchedRoot) : RootAct → Prop
  | .fsEvent _ p => p ∈ s.changed → s.feed.busy.contains p = false
  | .watchPush => ∀ p current, s.watcher = .read p current → p ∈ s.due →
    s.feed.busy.contains p = false ∧ s.feed.echoes s.clock current p = false
  | _ => True

section Facts
variable {ignore : List String} {s s' : WatchedRoot} {a : RootAct} {p : String}

theorem mem_due_setFeed {feed : FeedState} :
    p ∈ (s.setFeed feed).due ↔ p ∈ s.due ∧ ∀ r ∈ feed.log.drop s.feed.log.length, r.event ≠ ⟨p, .replaced⟩ := by
  simp [WatchedRoot.setFeed]

theorem mem_due_deliver {rel : String} (h : p ∈ (s.deliver rel).due) : p ∈ s.due ∨ (p = rel ∧ p ∈ s.changed) := by
  simp only [WatchedRoot.deliver] at h
  split at h
  · rename_i hrel
    rcases List.mem_cons.1 h with rfl | h
    · exact .inr ⟨rfl, hrel⟩
    · exact .inl h
  · exact .inl h

theorem busy_push {st : FeedState} {now origin : Nat} {current : Signature} {kind : ChangeKind} {fromMobfs : Bool} :
    (st.push now current origin p kind fromMobfs).busy = st.busy := by
  unfold FeedState.push
  split
  · rfl
  · split
    · rfl
    · split <;> rfl

/-- An event of the watcher is not remembered. -/
theorem recent_push {st : FeedState} {now origin : Nat} {current : Signature} {kind : ChangeKind} :
    (st.push now current origin p kind false).recent = st.recent := by
  rw [FeedState.push, if_neg Bool.false_ne_true]
  split
  · rfl
  · split <;> rfl

/-- An event that is not given up is recorded. -/
theorem push_event {st : FeedState} {now : Nat} {current : Signature} (hb : st.busy.contains p = false)
    (he : st.echoes now current p = false) :
    (st.push now current 0 p .replaced false).log = st.log ++ [⟨st.nextSeq, 0, ⟨p, .replaced⟩⟩] := by
  simp [FeedState.push, hb, he, FeedState.append]

/-- What a step can do. -/
inductive Stepped (ignore : List String) (s : WatchedRoot) : RootAct → WatchedRoot → Prop where
  | tick (ms : Nat) : Stepped ignore s (.tick ms) { s with clock := s.clock + ms }
  | write (p : String) (e : Option DiskEntry) : Stepped ignore s (.write p e) { s with disk := Function.update s.disk p e }
  | outside (p : String) (e : Option DiskEntry) : Stepped ignore s (.outside p e)
      { s with
        disk := Function.update s.disk p e
        changed := if Altered (s.disk p) e then p :: s.changed else s.changed }
  | beginWrite (p : String) : Stepped ignore s (.beginWrite p) (s.setFeed (s.feed.beginWrite p))
  | endWrite (p : String) : Stepped ignore s (.endWrite p) (s.setFeed (s.feed.endWrite p))
  | recordRead (origin : Nat) (p : String) (kind : ChangeKind) : Stepped ignore s (.recordRead origin p kind)
      { s with recordings := s.recordings ++ [⟨origin, p, kind, signature (s.disk p)⟩] }
  | recordPush (i : Nat) (r : Recording) (hr : r ∈ s.recordings) : Stepped ignore s (.recordPush i)
      { s.setFeed (s.feed.push s.clock r.current r.origin r.path r.kind true) with recordings := s.recordings.eraseIdx i }
  | skipped (kind : FsEventKind) (rel : String) : Stepped ignore s (.fsEvent kind rel) s
  | givenUp (kind : FsEventKind) (rel : String) (hidle : s.watcher = .idle) (hbusy : s.feed.busy.contains rel = true) :
      Stepped ignore s (.fsEvent kind rel) (s.deliver rel)
  | delivered (kind : FsEventKind) (rel : String) (hidle : s.watcher = .idle) :
      Stepped ignore s (.fsEvent kind rel) { s.deliver rel with watcher := .checked rel }
  | watchRead (p : String) (hw : s.watcher = .checked p) :
      Stepped ignore s .watchRead { s with watcher := .read p (signature (s.disk p)) }
  | watchPush (p : String) (current : Signature) (hw : s.watcher = .read p current) : Stepped ignore s .watchPush
      { s.setFeed (s.feed.push s.clock current 0 p .replaced false) with watcher := .idle }

theorem stepped_of_step (hs : s.step ignore a = some s') : Stepped ignore s a s' := by
  cases a with
  | tick | write | outside | beginWrite | endWrite | recordRead =>
    cases hs
    constructor
  | recordPush i =>
    simp only [WatchedRoot.step] at hs
    split at hs
    · cases hs
    · rename_i r hr
      cases hs
      exact .recordPush i r (List.mem_of_getElem? hr)
  | fsEvent kind rel =>
    simp only [WatchedRoot.step] at hs
    split at hs
    · cases hs
    · rename_i hidle
      split at hs
      · cases hs
        exact .skipped kind rel
      · split at hs
        · cases hs
          exact .givenUp kind rel (Decidable.not_not.1 hidle) ‹_›
        · cases hs
          exact .delivered kind rel (Decidable.not_not.1 hidle)
  | watchRead =>
    simp only [WatchedRoot.step] at hs
    split at hs
    · cases hs
      exact .watchRead _ ‹_›
    · cases hs
  | watchPush =>
    simp only [WatchedRoot.step] at hs
    split at hs
    · cases hs
      exact .watchPush _ _ ‹_›
    · cases hs

/-! ## Runs in which no event is given up -/

/-- Whatever is due, the watcher has an event for it. -/
def AllUnderway (s : WatchedRoot) : Prop := ∀ p ∈ s.due, s.watcher.path? = some p

theorem AllUnderway.setFeed (h : AllUnderway s) (feed : FeedState) : AllUnderway (s.setFeed feed) :=
  fun p hp => h p (mem_due_setFeed.1 hp).1

theorem AllUnderway.step (h : AllUnderway s) (hg : Heeded s a) (hs : s.step ignore a = some s') : AllUnderway s' := by
  -- Where the watcher has no event, nothing is due.
  have hnone : s.watcher = .idle → ∀ p, p ∉ s.due := by
    intro hidle p hp
    have := h p hp
    rw [hidle] at this
    cases this
  cases stepped_of_step hs with
  | tick | write | outside | recordRead | skipped => exact h
  | beginWrite | endWrite | recordPush => exact h.setFeed _
  | givenUp kind rel hidle hbusy =>
    intro p hp
    rcases mem_due_deliver hp with hp | ⟨rfl, hch⟩
    · exact absurd hp (hnone hidle p)
    · rw [hg hch] at hbusy
      cases hbusy
  | delivered kind rel hidle =>
    intro p hp
    rcases mem_due_deliver hp with hp | ⟨rfl, -⟩
    · exact absurd hp (hnone hidle p)
    · rfl
  | watchRead q hw =>
    intro p hp
    have := h p hp
    rwa [hw] at this
  | watchPush q current hw =>
    intro p hp
    obtain ⟨hp, hnot⟩ := mem_due_setFeed.1 hp
    have hpq := h p hp
    rw [hw] at hpq
    cases hpq
    -- The event is recorded.
    obtain ⟨hb, he⟩ := hg q current hw hp
    rw [push_event hb he, List.drop_left] at hnot
    exact absurd rfl (hnot _ List.mem_cons_self)

/-! ## Changes that keep apart from the daemon's -/

namespace WatchedRoot

/-- Another process has changed the path, and this is not recorded yet. -/
def Pending (s : WatchedRoot) (p : String) : Prop := p ∈ s.changed ∨ p ∈ s.due

/-- No signature that the daemon keeps for the path, or is to keep, is this one. -/
def Fresh (s : WatchedRoot) (p : String) (sig : Signature) : Prop :=
  (∀ x, s.feed.recent[p]? = some x → x.2 ≠ sig) ∧ ∀ r ∈ s.recordings, r.path = p → r.current ≠ sig

/-- Another process changes a path that is not being written and gives it a new
signature, and until this is recorded no request begins to write the path, records it or
gives it back a signature it had. -/
def Quiet (s : WatchedRoot) : RootAct → Prop
  | .outside p e => s.Pending p ∨ Altered (s.disk p) e → s.feed.busy.contains p = false ∧ s.Fresh p (signature e)
  | .write p e => s.Pending p → s.Fresh p (signature e)
  | .beginWrite p | .recordRead _ p _ => ¬ s.Pending p
  | _ => True

end WatchedRoot

structure QuietInv (s : WatchedRoot) : Prop where
  disk : ∀ p, s.Pending p → s.feed.busy.contains p = false ∧ s.Fresh p (signature (s.disk p))
  read : ∀ p current, s.watcher = .read p current → p ∈ s.due → s.Fresh p current

theorem QuietInv.heeded (h : QuietInv s) : Heeded s a := by
  cases a with
  | fsEvent kind rel => exact fun hp => (h.disk rel (.inl hp)).1
  | watchPush =>
    intro p current hw hp
    refine ⟨(h.disk p (.inr hp)).1, ?_⟩
    have hfresh := (h.read p current hw hp).1
    unfold FeedState.echoes
    split
    · rename_i seen known hk
      simpa using fun _ => hfresh _ hk
    · rfl
  | _ => trivial

/-- Nothing new is remembered for the path but what a request was to record. -/
theorem WatchedRoot.Fresh.mono {sig : Signature} (h : s.Fresh p sig)
    (hrecent : ∀ x, s'.feed.recent[p]? = some x → s.feed.recent[p]? = some x ∨ ∃ r ∈ s.recordings, r.path = p ∧ x.2 = r.current)
    (hrec : ∀ r ∈ s'.recordings, r.path = p → r ∈ s.recordings) : s'.Fresh p sig := by
  refine ⟨fun x hx => ?_, fun r hr hp => h.2 r (hrec r hr hp) hp⟩
  rcases hrecent x hx with hx | ⟨r, hr, hp, hcur⟩
  · exact h.1 x hx
  · rw [hcur]
    exact h.2 r hr hp

theorem recent_noteRecent {st : FeedState} {now : Nat} {current : Signature} {q : String} {x : Nat × Signature}
    (h : (st.noteRecent now current q).recent[p]? = some x) : (p = q ∧ x = (now, current)) ∨ st.recent[p]? = some x := by
  have hins : (st.recent.insert q (now, current))[p]? = some x := by
    simp only [FeedState.noteRecent] at h
    split at h
    · rw [Std.ExtTreeMap.getElem?_filter', Option.filter_eq_some_iff] at h
      exact h.1
    · exact h
  rw [get?_insert] at hins
  split at hins
  · cases hins
    exact .inl ⟨‹_›, rfl⟩
  · exact .inr hins

theorem contains_beginWrite {st : FeedState} {q : String} (hne : p ≠ q) :
    (st.beginWrite q).busy.contains p = st.busy.contains p := by
  simp [FeedState.beginWrite, Std.ExtTreeMap.contains_insert, Ne.symm hne]

theorem contains_endWrite {st : FeedState} {q : String} (h : st.busy.contains p = false) :
    (st.endWrite q).busy.contains p = false := by
  simp only [FeedState.endWrite]
  split
  · rename_i n hn
    simp only
    split
    · simp [Std.ExtTreeMap.contains_erase, h]
    · have hq : st.busy.contains q = true := Std.ExtTreeMap.contains_iff_mem.2 (mem_iff_get?.2 ⟨n, hn⟩)
      have hne : q ≠ p := fun e => by rw [e, h] at hq; cases hq
      simp [Std.ExtTreeMap.contains_insert, h, hne]
  · exact h

theorem recent_endWrite {st : FeedState} {q : String} : (st.endWrite q).recent = st.recent := by
  simp only [FeedState.endWrite]
  split <;> rfl

theorem QuietInv.setFeed (h : QuietInv s) (feed : FeedState)
    (hbusy : ∀ p, s.Pending p → s.feed.busy.contains p = false → feed.busy.contains p = false)
    (hrecent : ∀ p x, feed.recent[p]? = some x → s.feed.recent[p]? = some x ∨ ∃ r ∈ s.recordings, r.path = p ∧ x.2 = r.current) :
    QuietInv (s.setFeed feed) := by
  have hfresh : ∀ {p sig}, s.Fresh p sig → (s.setFeed feed).Fresh p sig :=
    fun hf => hf.mono (hrecent _) fun _ hr _ => hr
  refine ⟨fun p hp => ?_, fun p current hw hp => hfresh (h.read p current hw (mem_due_setFeed.1 hp).1)⟩
  have hp : s.Pending p := hp.imp_right fun hd => (mem_due_setFeed.1 hd).1
  exact ⟨hbusy p hp (h.disk p hp).1, hfresh (h.disk p hp).2⟩

theorem QuietInv.deliver (h : QuietInv s) (rel : String) (hw : s.watcher = .idle) : QuietInv (s.deliver rel) := by
  refine ⟨fun p hp => h.disk p ?_, fun p current hr _ => by rw [WatchedRoot.deliver, hw] at hr; cases hr⟩
  rcases hp with hp | hp
  · exact .inl (List.mem_filter.1 hp).1
  · rcases mem_due_deliver hp with hp | ⟨-, hp⟩
    · exact .inr hp
    · exact .inl hp

/-- The entry of a path changes, or only that of another. -/
theorem QuietInv.setDisk {q : String} {e : Option DiskEntry} {changed : List String} (h : QuietInv s)
    (hpend : ∀ p, p ≠ q → p ∈ changed → p ∈ s.changed)
    (hq : q ∈ changed ∨ q ∈ s.due → s.feed.busy.contains q = false ∧ s.Fresh q (signature e)) :
    QuietInv { s with disk := Function.update s.disk q e, changed := changed } := by
  refine ⟨fun p hp => ?_, h.read⟩
  by_cases hpq : p = q
  · subst hpq
    simp only [Function.update_self]
    exact hq hp
  · simp only [Function.update_of_ne hpq]
    exact h.disk p (hp.imp_left (hpend p hpq))

/-- No request reads what is pending. -/
theorem QuietInv.recordRead {r : Recording} (h : QuietInv s) (hr : ¬ s.Pending r.path) :
    QuietInv { s with recordings := s.recordings ++ [r] } := by
  have hfresh : ∀ {p sig}, s.Pending p → s.Fresh p sig → WatchedRoot.Fresh { s with recordings := s.recordings ++ [r] } p sig := by
    intro p sig hp hf
    refine hf.mono (fun _ => .inl) fun r' hr' hrp => (List.mem_append.1 hr').resolve_right fun hm => ?_
    rw [List.mem_singleton] at hm
    subst hm
    subst hrp
    exact hr hp
  exact ⟨fun p hp => ⟨(h.disk p hp).1, hfresh hp (h.disk p hp).2⟩,
    fun p current hw hp => hfresh (.inr hp) (h.read p current hw hp)⟩

theorem QuietInv.eraseRecording (h : QuietInv s) (i : Nat) : QuietInv { s with recordings := s.recordings.eraseIdx i } := by
  have hless : ∀ {p sig}, s.Fresh p sig → WatchedRoot.Fresh { s with recordings := s.recordings.eraseIdx i } p sig :=
    fun hf => hf.mono (fun _ => .inl) fun _ hm _ => List.mem_of_mem_eraseIdx hm
  exact ⟨fun p hp => ⟨(h.disk p hp).1, hless (h.disk p hp).2⟩, fun p current hw hp => hless (h.read p current hw hp)⟩

/-- The watcher has not read a signature. -/
theorem QuietInv.setWatcher {watcher : WatcherState} (h : QuietInv s) (hw : ∀ p current, watcher ≠ .read p current) :
    QuietInv { s with watcher := watcher } :=
  ⟨h.disk, fun p current hr _ => absurd hr (hw p current)⟩

theorem QuietInv.step (h : QuietInv s) (hq : s.Quiet a) (hs : s.step ignore a = some s') : QuietInv s' := by
  cases stepped_of_step hs with
  | tick ms => exact ⟨h.disk, h.read⟩
  | write q e => exact h.setDisk (fun _ _ hp => hp) fun hp => ⟨(h.disk q hp).1, hq hp⟩
  | outside q e =>
    refine h.setDisk (fun p hpq hp => ?_) fun hp => hq ?_
    · split at hp
      · exact (List.mem_cons.1 hp).resolve_left hpq
      · exact hp
    · by_cases hal : Altered (s.disk q) e
      · exact .inr hal
      · rw [if_neg hal] at hp
        exact .inl hp
  | beginWrite q =>
    refine h.setFeed _ (fun p hp hb => ?_) fun p x hx => .inl hx
    have hne : p ≠ q := by
      rintro rfl
      exact hq hp
    rwa [contains_beginWrite hne]
  | endWrite q => exact h.setFeed _ (fun _ _ => contains_endWrite) fun p x hx => .inl (by rwa [recent_endWrite] at hx)
  | recordRead origin q kind => exact h.recordRead hq
  | recordPush i r hr =>
    refine (h.setFeed _ (fun p _ hb => by rwa [busy_push]) fun p x hx => ?_).eraseRecording i
    rcases recent_noteRecent hx with ⟨rfl, rfl⟩ | hx
    · exact .inr ⟨r, hr, rfl, rfl⟩
    · exact .inl hx
  | skipped => exact h
  | givenUp kind rel hidle => exact h.deliver rel hidle
  | delivered kind rel hidle => exact (h.deliver rel hidle).setWatcher fun _ _ => by simp
  | watchRead q hw =>
    refine ⟨h.disk, fun _ _ hr hp => ?_⟩
    cases hr
    exact (h.disk _ (.inr hp)).2
  | watchPush q current hw =>
    refine (h.setFeed _ (fun p _ hb => by rwa [busy_push]) fun p x hx => .inl ?_).setWatcher fun _ _ => by simp
    rwa [recent_push] at hx

theorem quietInv_start (disk : String → Option DiskEntry) : QuietInv (.start disk) :=
  ⟨fun _ hp => absurd hp (by simp [WatchedRoot.Pending, WatchedRoot.start]), fun _ _ hw => by cases hw⟩

/-- No event is given up where the changes keep apart from the daemon's. -/
theorem QuietInv.guarded {as : List RootAct} (h : QuietInv s) (hq : Guarded (WatchedRoot.step ignore) WatchedRoot.Quiet s as) :
    Guarded (WatchedRoot.step ignore) Heeded s as := by
  induction as generalizing s with
  | nil => trivial
  | cons a as ih => exact ⟨h.heeded, fun t ht => ih (h.step hq.1 ht) (hq.2 t ht)⟩

/-- In every run of requests, changes by other processes and events of the watcher in
which no event is given up that comes after a change by another process, a `Replaced`
is recorded for every such change whose event is delivered. For this it is enough that the
changes keep apart from the daemon's. -/
theorem outside_edits_recorded (ignore : List String) (disk : String → Option DiskEntry) (as : List RootAct) (s : WatchedRoot)
    (hrun : exec (WatchedRoot.step ignore) (.start disk) as = some s)
    (hguard : Guarded (WatchedRoot.step ignore) Heeded (.start disk) as ∨
      Guarded (WatchedRoot.step ignore) WatchedRoot.Quiet (.start disk) as) : NotSwallowed s := by
  have hheeded : Guarded (WatchedRoot.step ignore) Heeded (.start disk) as :=
    hguard.elim id (quietInv_start disk).guarded
  have hall := exec_guarded_inv AllUnderway (fun _ _ _ h hg hs => h.step hg hs) (fun _ hp => absurd hp List.not_mem_nil)
    hheeded hrun
  exact fun p hp => .inr (hall p hp)

end Facts

/-! ## A file that is edited -/

/-- A root with the file `a`, of one byte. -/
def oneFile : WatchedRoot := .start fun p => if p = "a" then some ⟨false, 420, some 5, [1]⟩ else none

/-- `Heeded`, as a test. -/
def heeds (s : WatchedRoot) : RootAct → Bool
  | .fsEvent _ p => !(decide (p ∈ s.changed) && s.feed.busy.contains p)
  | .watchPush =>
    match s.watcher with
    | .read p current => !(s.feed.busy.contains p || s.feed.echoes s.clock current p)
    | _ => true
  | _ => true

theorem heeded_of_heeds {s : WatchedRoot} {a : RootAct} (h : heeds s a = true) : Heeded s a := by
  cases a with
  | fsEvent kind p =>
    simp only [heeds, Bool.not_eq_true', Bool.and_eq_false_iff, decide_eq_false_iff_not] at h
    exact fun hp => h.resolve_left fun hn => hn hp
  | watchPush =>
    intro p current hw _
    simpa [heeds, hw] using h
  | _ => trivial

/-- The file is written over while the daemon does not write it, a quarter of a minute after
a request has. -/
def editLater : List RootAct :=
  [.recordRead 7 "a" (.write 0 1), .recordPush 0, .tick 15000, .outside "a" (some ⟨false, 420, some 20, [2]⟩),
    .fsEvent .modify "a", .watchRead, .watchPush]

theorem edit_later_recorded : ∃ s, exec (WatchedRoot.step []) oneFile editLater = some s ∧
    s.feed.log.map Recorded.event = [⟨"a", .write 0 1⟩, ⟨"a", .replaced⟩] ∧ NotSwallowed s := by
  have hguard : Guarded (WatchedRoot.step []) Heeded oneFile editLater :=
    guarded_of_checkRun (fun _ => True) (fun _ => True) heeds (fun _ _ _ _ _ _ => trivial) (fun _ _ _ _ h => heeded_of_heeds h)
      trivial (fun _ _ => trivial) (by decide)
  have hrun : (exec (WatchedRoot.step []) oneFile editLater).any (fun s =>
      s.feed.log.map Recorded.event = [⟨"a", .write 0 1⟩, ⟨"a", .replaced⟩]) = true := by decide
  obtain ⟨s, hs, hlog⟩ := (Option.any_eq_true _ _).1 hrun
  exact ⟨s, hs, by simpa using hlog, outside_edits_recorded [] _ editLater s hs (.inl hguard)⟩

/-- The daemon writes the file, another process writes it too, the watcher's event comes,
and the daemon records its write and lets go of the path. -/
def editDuringWrite : List RootAct :=
  [.beginWrite "a", .write "a" (some ⟨false, 420, some 6, [2]⟩), .outside "a" (some ⟨false, 420, some 7, [3]⟩),
    .fsEvent .modify "a", .recordRead 7 "a" (.write 0 1), .recordPush 0, .endWrite "a"]

/-- The mode of the file is changed right after the daemon has recorded a write of it. -/
def chmodAfterWrite : List RootAct :=
  [.recordRead 7 "a" (.write 0 1), .recordPush 0, .outside "a" (some ⟨false, 384, some 5, [1]⟩), .fsEvent .modify "a",
    .watchRead, .watchPush]

/-- Nothing is under way any more, and of the edit or of the mode nothing is recorded. -/
theorem edits_swallowed : (∃ s, exec (WatchedRoot.step []) oneFile editDuringWrite = some s ∧ ¬ NotSwallowed s) ∧
    ∃ s, exec (WatchedRoot.step []) oneFile chmodAfterWrite = some s ∧ ¬ NotSwallowed s := by
  have hlost : ∀ s : WatchedRoot, s.due = ["a"] ∧ s.feed.busy.contains "a" = false ∧ s.watcher = .idle → ¬ NotSwallowed s := by
    rintro s ⟨hdue, hbusy, hidle⟩ h
    rcases h "a" (by simp [hdue]) with hb | hw
    · rw [hbusy] at hb
      cases hb
    · rw [hidle] at hw
      cases hw
  have hedit : (exec (WatchedRoot.step []) oneFile editDuringWrite).any (fun s =>
      s.due = ["a"] ∧ s.feed.busy.contains "a" = false ∧ s.watcher = .idle) = true := by decide
  have hchmod : (exec (WatchedRoot.step []) oneFile chmodAfterWrite).any (fun s =>
      s.due = ["a"] ∧ s.feed.busy.contains "a" = false ∧ s.watcher = .idle) = true := by decide
  obtain ⟨s, hs, hend⟩ := (Option.any_eq_true _ _).1 hedit
  obtain ⟨s', hs', hend'⟩ := (Option.any_eq_true _ _).1 hchmod
  exact ⟨⟨s, hs, hlost s (of_decide_eq_true hend)⟩, s', hs', hlost s' (of_decide_eq_true hend')⟩

end Mobfs.Changes
