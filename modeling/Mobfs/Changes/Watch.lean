import Mobfs.Changes.Outside
import Mobfs.Daemon.Requests
/-!
# The watcher of a root

The first client that polls a feed has its watcher started, with its own ignore list.
A walk over the tree puts a watch on every directory that the list does not exclude, and
the feed is live if all watches could be set. From then on a thread takes the watcher's
events: it walks over a directory that has come, and pushes the path. Only the directory
of a path must be watched for its event to come.

`Reached`: while the feed is live, a directory that the list does not exclude is watched,
or the watcher has still to come to it, or has passed it over.
-/

namespace Mobfs.Changes

open Lib
open WriteBack (matching)

/-- Something has come, gone or got another name. -/
def FsEventKind.moves : FsEventKind → Bool
  | .create | .remove => true
  | .access | .modify => false

def maxWatchedDirs : Nat := 100000

inductive WalkTask where
  | watch (dir : String)
  /-- `read_dir`, for the entries below. -/
  | list (dir : String)
  deriving DecidableEq

/-- `watch_tree` under way. -/
structure Walk where
  todo : List WalkTask
  complete : Bool

/-- `start_watcher`. -/
inductive WatcherStart where
  | off
  | starting
  | walking (w : Walk)
  | running

/-- The thread that takes the events. -/
inductive EventThread where
  | idle
  | walking (path : String) (w : Walk)
  /-- In `push`: before the first look at `busy`, after it, and with the signature. -/
  | arrived (path : String)
  | checked (path : String)
  | read (path : String) (current : Signature)

def EventThread.path? : EventThread → Option String
  | .idle => none
  | .walking p _ | .arrived p | .checked p | .read p _ => some p

/-- A root, its feed and the watcher. In the queue, `create` also stands for a rename.
`passed` and `unlisted` are for stating properties: the directories that the thread has
passed over for their name, and those that a walk could not read. -/
structure WatchedFeed where
  tree : Tree
  feed : FeedState
  ignore : List String
  start : WatcherStart
  live : Bool
  watched : List String
  watchedDirs : Nat
  queue : List (FsEventKind × String)
  thread : EventThread
  passed : List String
  unlisted : List String

inductive WatchAct where
  /-- The tree changes, by the daemon or by others; the paths that the system tells of. -/
  | edit (tree : Tree) (changes : List (FsEventKind × String))
  /-- `record`, `begin_write` and the end of a write. -/
  | request (a : FeedAct)
  | startWatcher (ok : Bool)
  /-- The first walk takes a step: a watch is set, or a directory read, or it fails. -/
  | startWalk (ok : Bool)
  | started
  | take
  | walk (ok : Bool)
  | walked
  | look
  | readSignature (current : Signature)
  | push (now : Nat)

/-- The directory is the other one or lies below it. -/
def under (a d : String) : Bool := a = "" || matching a d

def strictlyUnder (a d : String) : Bool := (a = "" && d ≠ "") || below a d

def WalkTask.covers : WalkTask → String → Bool
  | .watch a, d => under a d
  | .list a, d => strictlyUnder a d

namespace WatchedFeed

def isDirectory (t : Tree) (d : String) : Bool := d = "" || t.isDir d

/-- A change of the tree is told by the paths: what differs is one of them, or lies below
one that came or went; and every directory that is there now, where it was not, lies under
one that came. -/
def told (t t' : Tree) (changes : List (FsEventKind × String)) : Bool :=
  ((t.paths ++ t'.paths).all fun q => t'.node q = t.node q ||
    changes.any fun x => if x.1.moves then matching x.2 q else x.1 = .modify && x.2 = q) &&
  (t'.paths.all fun d => !t'.isDir d || (t.isDir d && !changes.any fun x => x.1.moves && matching x.2 d) ||
    changes.any fun x => x.1 = .create && matching x.2 d) &&
  changes.all fun x => x.2 ≠ "" && isDirectory t (splitParent x.2).1

/-- The directories in a directory that `filter_entry` lets through. -/
def children (s : WatchedFeed) (d : String) : List String :=
  s.tree.paths.filter fun p =>
    (splitParent p).1 = d && s.tree.isDir p && !shouldIgnorePart (splitParent p).2.toList s.ignore

/-- One step of `watch_tree`. -/
def walkStep (s : WatchedFeed) (w : Walk) (ok : Bool) : Option (WatchedFeed × Walk) :=
  match w.todo with
  | [] => none
  | .watch d :: rest =>
    if maxWatchedDirs ≤ s.watchedDirs then some (s, ⟨[], false⟩)
    else if ok then
      some ({ s with
        watched := if isDirectory s.tree d then d :: s.watched else s.watched
        watchedDirs := s.watchedDirs + 1 }, ⟨.list d :: rest, w.complete⟩)
    else some (s, ⟨.list d :: rest, false⟩)
  | .list d :: rest =>
    -- An error of the walk is skipped.
    if ok then some (s, ⟨(s.children d).map .watch ++ rest, w.complete⟩)
    else some ({ s with unlisted := d :: s.unlisted }, ⟨rest, w.complete⟩)

def step (s : WatchedFeed) : WatchAct → Option WatchedFeed
  | .edit tree changes =>
    if told s.tree tree changes then
      some { s with
        tree := tree
        queue := s.queue ++ changes.filter fun x => s.watched.contains (splitParent x.2).1
        -- A directory that goes takes its watch with it.
        watched := s.watched.filter fun d => !changes.any fun x => x.1.moves && matching x.2 d }
    else none
  | .request a =>
    match a with
    | .fsEvent _ _ _ => none
    | _ => some { s with feed := s.feed.change a }
  | .startWatcher ok =>
    match s.start with
    | .starting => some { s with start := if ok then .walking ⟨[.watch ""], true⟩ else .off }
    | _ => none
  | .startWalk ok =>
    match s.start with
    | .walking w => (s.walkStep w ok).map fun x => { x.1 with start := .walking x.2 }
    | _ => none
  | .started =>
    match s.start with
    | .walking ⟨[], complete⟩ => some { s with start := .running, live := complete }
    | _ => none
  | .take =>
    match s.start, s.thread, s.queue with
    | .running, .idle, (kind, p) :: queue =>
      let s := { s with queue }
      if skipsEvent s.ignore kind p then
        some (if kind = .create ∧ isDaemonTemp p then { s with passed := p :: s.passed } else s)
      else if kind = .create ∧ s.tree.isDir p then some { s with thread := .walking p ⟨[.watch p], true⟩ }
      else some { s with thread := .arrived p }
    | _, _, _ => none
  | .walk ok =>
    match s.thread with
    | .walking p w => (s.walkStep w ok).map fun x => { x.1 with thread := .walking p x.2 }
    | _ => none
  | .walked =>
    match s.thread with
    | .walking p ⟨[], complete⟩ => some { s with thread := .arrived p, live := s.live && complete }
    | _ => none
  | .look =>
    match s.thread with
    | .arrived p => some { s with thread := if s.feed.busy.contains p then .idle else .checked p }
    | _ => none
  | .readSignature current =>
    match s.thread with
    | .checked p => some { s with thread := .read p current }
    | _ => none
  | .push now =>
    match s.thread with
    | .read p current => some { s with feed := s.feed.push now current 0 p .replaced false, thread := .idle }
    | _ => none

/-- `ensure_watching`: the list of the first client is kept. -/
def ensureWatching (s : WatchedFeed) (watching : Bool) (ignore : List String) : WatchedFeed :=
  if watching then s else { s with ignore, start := .starting }

/-! ## What is watched -/

def startTodo (s : WatchedFeed) : List WalkTask :=
  match s.start with
  | .walking w => w.todo
  | _ => []

def threadTodo (s : WatchedFeed) : List WalkTask :=
  match s.thread with
  | .walking _ w => w.todo
  | _ => []

/-- The watcher has still to come to the directory, or it has passed it over. -/
def Unreached (s : WatchedFeed) (d : String) : Prop :=
  (∃ x ∈ s.queue, x.1 = .create ∧ matching x.2 d = true) ∨ (∃ t ∈ s.startTodo ++ s.threadTodo, t.covers d = true) ∨
    (∃ a ∈ s.passed, matching a d = true) ∨ ∃ a ∈ s.unlisted, strictlyUnder a d = true

/-- No watch has failed. -/
def sound (s : WatchedFeed) : Bool :=
  match s.start, s.thread with
  | .walking w, _ => w.complete
  | .running, .walking _ w => s.live && w.complete
  | .running, _ => s.live
  | _, _ => false

/-- A directory that is there, and that the list does not exclude. -/
def Followed (s : WatchedFeed) (d : String) : Prop :=
  isDirectory s.tree d = true ∧ (d ≠ "" → shouldIgnoreRel s.ignore d = false)

structure WatchInv (s : WatchedFeed) : Prop where
  named : ∀ x ∈ s.queue, x.2 ≠ ""
  passed : ∀ a ∈ s.passed, a ≠ ""
  reached : s.sound = true → ∀ d, s.Followed d → d ∈ s.watched ∨ s.Unreached d
  idle : s.start ≠ .running → s.thread = .idle
  live : s.live = true → s.start = .running

/-! ## Each step keeps it -/

section Steps
variable {s s' : WatchedFeed} {w : Walk}

theorem not_below_root (a : String) : below a "" = false := by
  by_contra h
  rw [Bool.not_eq_false] at h
  obtain ⟨r, hr⟩ := below_iff.1 h
  simp at hr

theorem not_matching_root {a : String} (ha : a ≠ "") : matching a "" = false := by
  by_contra h
  rw [Bool.not_eq_false] at h
  rcases matching_iff.1 h with h | h
  · exact ha h.symm
  · rw [not_below_root] at h
    cases h

theorem ne_root_of_matching {a d : String} (ha : a ≠ "") (hm : matching a d = true) : d ≠ "" := by
  rintro rfl
  rw [not_matching_root ha] at hm
  cases hm

theorem under_eq {a d : String} (ha : a ≠ "") : under a d = matching a d := by simp [under, ha]

theorem under_trans {a b d : String} (h : under a b = true) (h' : matching b d = true) : under a d = true := by
  by_cases ha : a = ""
  · simp [under, ha]
  · rw [under_eq ha] at h ⊢
    exact matching_trans h h'

theorem strictlyUnder_trans {a b d : String} (h : strictlyUnder a b = true) (h' : matching b d = true) (hd : d ≠ "") :
    strictlyUnder a d = true := by
  unfold strictlyUnder at h ⊢
  rw [Bool.or_eq_true] at h ⊢
  rcases h with h | h
  · rw [Bool.and_eq_true] at h ⊢
    exact .inl ⟨h.1, by simpa using hd⟩
  · right
    rcases matching_iff.1 h' with rfl | h'
    · exact h
    · exact below_trans h h'

/-- What is not under a directory strictly is the directory. -/
theorem eq_of_under {a d : String} (h : under a d = true) (hs : strictlyUnder a d = false) : d = a := by
  unfold under strictlyUnder at *
  by_cases ha : a = ""
  · subst ha
    have hs : d = "" ∧ below "" d = false := by simpa using hs
    exact hs.1
  · have hm : matching a d = true := by simpa [ha] using h
    rcases matching_iff.1 hm with h | h
    · exact h
    · simp [h] at hs

/-- The first directory on the way from a directory to one below it. -/
theorem child_of_strictlyUnder {a d : String} (h : strictlyUnder a d = true) :
    ∃ c, (splitParent c).1 = a ∧ matching c d = true := by
  unfold strictlyUnder at h
  rw [Bool.or_eq_true, Bool.and_eq_true, decide_eq_true_eq] at h
  rcases h with ⟨rfl, -⟩ | h
  · obtain ⟨name, more, hd, hname, hmore⟩ := exists_name d.toList
    refine ⟨String.ofList name, ?_, matching_iff.2 ?_⟩
    · rcases splitParent_cases (String.ofList name) with ⟨-, hs, -⟩ | ⟨parent, last, -, -, heq, -⟩
      · rw [hs]
      · refine absurd ?_ hname
        rw [String.toList_ofList] at heq
        rw [heq]
        simp
    · rcases hmore with rfl | ⟨more, rfl⟩
      · exact .inl (String.toList_inj.1 (by simpa using hd))
      · exact .inr (below_iff.2 ⟨more, by simpa using hd⟩)
  · exact child_of_below h

theorem not_ignored_of_matching {ignore : List String} {c d : String} (h : matching c d = true)
    (hd : shouldIgnoreRel ignore d = false) : shouldIgnoreRel ignore c = false := by
  rcases matching_iff.1 h with rfl | h
  · exact hd
  · by_contra hc
    rw [Bool.not_eq_false] at hc
    rw [ignored_below h hc] at hd
    cases hd

/-- What a step of a walk does. -/
structure Walked (s : WatchedFeed) (w : Walk) (s' : WatchedFeed) (w' : Walk) : Prop where
  same : s' = { s with watched := s'.watched, watchedDirs := s'.watchedDirs, unlisted := s'.unlisted }
  watched : ∀ d ∈ s.watched, d ∈ s'.watched
  unlisted : ∀ d ∈ s.unlisted, d ∈ s'.unlisted
  complete : w'.complete = true → w.complete = true
  covers : w'.complete = true → ∀ d, s.Followed d → (∃ t ∈ w.todo, t.covers d = true) →
    d ∈ s'.watched ∨ (∃ t ∈ w'.todo, t.covers d = true) ∨ ∃ a ∈ s'.unlisted, strictlyUnder a d = true

theorem walkStep_walked {ok : Bool} {x : WatchedFeed × Walk} (h : s.walkStep w ok = some x) : Walked s w x.1 x.2 := by
  unfold walkStep at h
  split at h
  · cases h
  · rename_i d rest htodo
    have hrest : ∀ {e} (done : List WalkTask), (∃ t ∈ w.todo, t.covers e = true) →
        under d e = true ∨ ∃ t ∈ done ++ rest, t.covers e = true := by
      rintro e done ⟨t, ht, hc⟩
      rw [htodo] at ht
      rcases List.mem_cons.1 ht with rfl | ht
      · exact .inl hc
      · exact .inr ⟨t, List.mem_append_right _ ht, hc⟩
    split at h
    · cases h
      exact ⟨rfl, fun _ hd => hd, fun _ hd => hd, (fun h => by cases h), fun h => by cases h⟩
    · split at h
      · cases h
        refine ⟨rfl, fun e he => ?_, fun _ hd => hd, fun h => h, fun _ e hf ht => ?_⟩
        · simp only
          split
          · exact List.mem_cons_of_mem _ he
          · exact he
        · rcases hrest [.list d] ht with hu | ht
          · by_cases hs : strictlyUnder d e = true
            · exact .inr (.inl ⟨.list d, List.mem_cons_self, hs⟩)
            · -- The directory itself is now watched.
              obtain rfl := eq_of_under hu (Bool.not_eq_true _ ▸ hs)
              left
              simp only [hf.1, if_true]
              exact List.mem_cons_self
          · exact .inr (.inl ht)
      · cases h
        exact ⟨rfl, fun _ hd => hd, fun _ hd => hd, (fun h => by cases h), fun h => by cases h⟩
  · rename_i d rest htodo
    split at h
    · cases h
      refine ⟨rfl, fun _ hd => hd, fun _ hd => hd, fun h => h, fun _ e hf ht => .inr (.inl ?_)⟩
      obtain ⟨t, ht, hc⟩ := ht
      rw [htodo] at ht
      rcases List.mem_cons.1 ht with rfl | ht
      · obtain ⟨c, hparent, hc'⟩ := child_of_strictlyUnder hc
        have hne : e ≠ "" := by
          rintro rfl
          simp [WalkTask.covers, strictlyUnder, below] at hc
        have hdir : s.tree.isDir e = true := by simpa [isDirectory, hne] using hf.1
        have hcdir : s.tree.isDir c = true := by
          rcases matching_iff.1 hc' with rfl | hb
          · exact hdir
          · exact Tree.isDir_of_below hb fun hn => by simp [Tree.isDir, hn] at hdir
        have hmem : c ∈ s.children d := by
          refine List.mem_filter.2 ⟨Tree.mem_paths.2 fun hn => by simp [Tree.isDir, hn] at hcdir, ?_⟩
          simp [hparent, hcdir, name_notIgnored (not_ignored_of_matching hc' (hf.2 hne))]
        refine ⟨.watch c, List.mem_append_left _ (List.mem_map_of_mem hmem), ?_⟩
        simp [WalkTask.covers, under, hc']
      · exact ⟨t, List.mem_append_right _ ht, hc⟩
    · cases h
      refine ⟨rfl, fun _ hd => hd, fun _ hd => List.mem_cons_of_mem _ hd, fun h => h, fun _ e _ ht => .inr ?_⟩
      obtain ⟨t, ht, hc⟩ := ht
      rw [htodo] at ht
      rcases List.mem_cons.1 ht with rfl | ht
      · exact .inr ⟨d, List.mem_cons_self, hc⟩
      · exact .inl ⟨t, ht, hc⟩

theorem Unreached.below {a d : String} (h : s.Unreached a) (hm : matching a d = true) (hd : d ≠ "") : s.Unreached d := by
  rcases h with ⟨x, hx, hk, ha⟩ | ⟨t, ht, ha⟩ | ⟨b, hb, ha⟩ | ⟨b, hb, ha⟩
  · exact .inl ⟨x, hx, hk, matching_trans ha hm⟩
  · refine .inr (.inl ⟨t, ht, ?_⟩)
    cases t with
    | watch b => exact under_trans ha hm
    | list b => exact strictlyUnder_trans ha hm hd
  · exact .inr (.inr (.inl ⟨b, hb, matching_trans ha hm⟩))
  · exact .inr (.inr (.inr ⟨b, hb, strictlyUnder_trans ha hm hd⟩))

/-- To come to the root is to come to everything. -/
theorem WatchInv.unreached_root (h : WatchInv s) (hu : s.Unreached "") (d : String) : s.Unreached d := by
  rcases hu with ⟨x, hx, -, ha⟩ | ⟨t, ht, ha⟩ | ⟨a, hp, ha⟩ | ⟨a, -, ha⟩
  · exact absurd rfl (ne_root_of_matching (h.named x hx) ha)
  · cases t with
    | watch a =>
      have ha' : a = "" := by
        by_contra hne
        rw [WalkTask.covers, under_eq hne, not_matching_root hne] at ha
        cases ha
      exact .inr (.inl ⟨.watch a, ht, by simp [WalkTask.covers, under, ha']⟩)
    | list a => simp [WalkTask.covers, strictlyUnder, not_below_root] at ha
  · exact absurd rfl (ne_root_of_matching (h.passed a hp) ha)
  · simp [strictlyUnder, not_below_root] at ha

/-- A walk goes on: what was reached, or was still to come, is so afterwards. -/
theorem WatchInv.walk {w' : Walk} {t : WatchedFeed} (h : WatchInv s) (hw : Walked s w s' w') (hsound : s.sound = true)
    (hcomplete : w'.complete = true) {d : String} (hf : s.Followed d)
    (htodo : ∀ x ∈ s.startTodo ++ s.threadTodo, x ∈ w.todo) (hq : t.queue = s.queue) (hp : t.passed = s.passed)
    (hl : t.unlisted = s'.unlisted) (htodo' : ∀ x ∈ w'.todo, x ∈ t.startTodo ++ t.threadTodo) :
    d ∈ s'.watched ∨ t.Unreached d := by
  unfold Unreached
  rw [hq, hp, hl]
  rcases h.reached hsound d hf with hd | hq | ⟨x, hx, hc⟩ | hp | ⟨a, ha, hu⟩
  · exact .inl (hw.watched d hd)
  · exact .inr (.inl hq)
  · rcases hw.covers hcomplete d hf ⟨x, htodo x hx, hc⟩ with hd | ⟨x, hx, hc⟩ | hu
    · exact .inl hd
    · exact .inr (.inr (.inl ⟨x, htodo' x hx, hc⟩))
    · exact .inr (.inr (.inr (.inr hu)))
  · exact .inr (.inr (.inr (.inl hp)))
  · exact .inr (.inr (.inr (.inr ⟨a, hw.unlisted a ha, hu⟩)))

/-- What is still to be reached stays so where no walk has less to do. -/
theorem Unreached.of_todo {d : String} (h : s.Unreached d) (hq : s'.queue = s.queue) (hp : s'.passed = s.passed)
    (hl : s'.unlisted = s.unlisted) (htodo : ∀ x ∈ s.startTodo ++ s.threadTodo, x ∈ s'.startTodo ++ s'.threadTodo) :
    s'.Unreached d := by
  unfold Unreached
  rw [hq, hp, hl]
  rcases h with hq | ⟨x, hx, hc⟩ | hrest
  · exact .inl hq
  · exact .inr (.inl ⟨x, htodo x hx, hc⟩)
  · exact .inr (.inr hrest)

theorem WatchInv.not_live (h : WatchInv s) (hs : s.start ≠ .running) : s.live ≠ true := fun hl => hs (h.live hl)

theorem WatchInv.edit {tree : Tree} {changes : List (FsEventKind × String)} (h : WatchInv s)
    (htold : told s.tree tree changes = true) :
    WatchInv { s with
      tree := tree
      queue := s.queue ++ changes.filter fun x => s.watched.contains (splitParent x.2).1
      watched := s.watched.filter fun d => !changes.any fun x => x.1.moves && matching x.2 d } := by
  simp only [told, Bool.and_eq_true, List.all_eq_true] at htold
  obtain ⟨⟨-, hdirs⟩, hnames⟩ := htold
  have hname : ∀ x ∈ changes, x.2 ≠ "" ∧ isDirectory s.tree (splitParent x.2).1 = true := fun x hx => by
    simpa using hnames x hx
  refine ⟨fun x hx => ?_, h.passed, fun hsound d hf => ?_, h.idle, h.live⟩
  · rcases List.mem_append.1 hx with hx | hx
    · exact h.named x hx
    · exact (hname x (List.mem_of_mem_filter hx)).1
  · -- Unless the directory lies under one that came, it was there before.
    have hgrows : ∀ {e}, s.Unreached e → WatchedFeed.Unreached { s with
        tree := tree
        queue := s.queue ++ changes.filter fun x => s.watched.contains (splitParent x.2).1
        watched := s.watched.filter fun d => !changes.any fun x => x.1.moves && matching x.2 d } e := by
      rintro e (⟨x, hx, hrest⟩ | hrest)
      · exact .inl ⟨x, List.mem_append_left _ hx, hrest⟩
      · exact .inr hrest
    by_cases hroot : d = ""
    · subst hroot
      rcases h.reached hsound "" ⟨by simp [isDirectory], fun h => absurd rfl h⟩ with hd | hu
      · refine .inl (List.mem_filter.2 ⟨hd, ?_⟩)
        rw [Bool.not_eq_true', List.any_eq_false]
        intro x hx
        simp [not_matching_root (hname x hx).1]
      · exact .inr (hgrows hu)
    · have hdir : tree.isDir d = true := by simpa [isDirectory, hroot] using hf.1
      have hpath : d ∈ tree.paths := Tree.mem_paths.2 fun hn => by simp [Tree.isDir, hn] at hdir
      have hcases := hdirs d hpath
      rw [hdir, Bool.not_true, Bool.false_or, Bool.or_eq_true, Bool.and_eq_true] at hcases
      rcases hcases with ⟨hold, hstays⟩ | hcame
      · rcases h.reached hsound d ⟨by simp [isDirectory, hold], hf.2⟩ with hd | hu
        · exact .inl (List.mem_filter.2 ⟨hd, hstays⟩)
        · exact .inr (hgrows hu)
      · obtain ⟨x, hx, hc⟩ := List.any_eq_true.1 hcame
        rw [Bool.and_eq_true, decide_eq_true_eq] at hc
        -- Its parent is watched, or the watcher has still to come there.
        by_cases hwatched : (splitParent x.2).1 ∈ s.watched
        · refine .inr (.inl ⟨x, List.mem_append_right _ (List.mem_filter.2 ⟨hx, by simpa using hwatched⟩), hc.1, hc.2⟩)
        · have hx' : shouldIgnoreRel s.ignore x.2 = false := not_ignored_of_matching hc.2 (hf.2 hroot)
          have hparent : s.Followed (splitParent x.2).1 := by
            refine ⟨(hname x hx).2, fun hne => ?_⟩
            rcases parent_of x.2 with hp | hp
            · exact absurd hp hne
            · exact not_ignored_of_matching (matching_iff.2 (.inr hp)) hx'
          rcases h.reached hsound _ hparent with hd | hu
          · exact absurd hd hwatched
          · rcases parent_of x.2 with hp | hp
            · rw [hp] at hu
              exact .inr (hgrows (h.unreached_root hu d))
            · exact .inr (hgrows (hu.below (matching_trans (matching_iff.2 (.inr hp)) hc.2) hroot))

theorem WatchInv.running (h : WatchInv s) (ht : s.thread ≠ .idle) : s.start = .running := by
  by_contra hs
  exact ht (h.idle hs)

/-- The thread goes on, and no walk is under way before or after. -/
theorem WatchInv.goesOn (h : WatchInv s) {t : EventThread} (hrun : s.start = .running) (ht : ∀ p w, s.thread ≠ .walking p w)
    (ht' : ∀ p w, t ≠ .walking p w) : WatchInv { s with thread := t } := by
  refine ⟨h.named, h.passed, fun hsound d hf => ?_, fun hne => absurd hrun hne, h.live⟩
  have hold : s.sound = true := by
    unfold sound at hsound ⊢
    simp only [hrun] at hsound ⊢
    exact hsound
  have htodo : s.threadTodo = [] := by
    unfold threadTodo
    split
    · exact absurd ‹_› (ht _ _)
    · rfl
  refine (h.reached hold d hf).imp_right fun hu => hu.of_todo rfl rfl rfl fun x hx => ?_
  rw [htodo, List.append_nil] at hx
  exact List.mem_append_left _ hx

/-- The thread takes an event. -/
theorem WatchInv.take (h : WatchInv s) (hs : s.step .take = some s') : WatchInv s' := by
  simp only [step] at hs
  split at hs
  · rename_i kind p queue hrun hidle hqueue
    have hp : p ≠ "" := h.named (kind, p) (by rw [hqueue]; exact List.mem_cons_self)
    have hnamed : ∀ x ∈ queue, x.2 ≠ "" := fun x hx => h.named x (by rw [hqueue]; exact List.mem_cons_of_mem _ hx)
    -- A directory was reached before, unless the event is the one that tells of it.
    have hleft : s.live = true → ∀ d, s.Followed d → (kind = .create ∧ matching p d = true) ∨ d ∈ s.watched ∨
        (∃ x ∈ queue, x.1 = .create ∧ matching x.2 d = true) ∨ (∃ a ∈ s.passed, matching a d = true) ∨
        ∃ a ∈ s.unlisted, strictlyUnder a d = true := by
      intro hlive d hf
      rcases h.reached (by simp [sound, hrun, hidle, hlive]) d hf with hd | ⟨x, hx, hk, hm⟩ | ⟨t, ht, hc⟩ | hrest
      · exact .inr (.inl hd)
      · rw [hqueue] at hx
        rcases List.mem_cons.1 hx with rfl | hx
        · exact .inl ⟨hk, hm⟩
        · exact .inr (.inr (.inl ⟨x, hx, hk, hm⟩))
      · simp [startTodo, threadTodo, hrun, hidle] at ht
      · exact .inr (.inr (.inr hrest))
    split at hs
    · rename_i hskip
      split at hs
      · cases hs
        refine ⟨hnamed, fun a ha => ?_, fun hsound d hf => ?_, fun hne => absurd hrun hne, h.live⟩
        · rcases List.mem_cons.1 ha with rfl | ha
          · exact hp
          · exact h.passed a ha
        · rcases hleft (by simpa [sound, hrun, hidle] using hsound) d hf with ⟨-, hm⟩ | hd | hq | ⟨a, ha, hm⟩ | hl
          · exact .inr (.inr (.inr (.inl ⟨p, List.mem_cons_self, hm⟩)))
          · exact .inl hd
          · exact .inr (.inl hq)
          · exact .inr (.inr (.inr (.inl ⟨a, List.mem_cons_of_mem _ ha, hm⟩)))
          · exact .inr (.inr (.inr (.inr hl)))
      · rename_i htemp
        cases hs
        refine ⟨hnamed, h.passed, fun hsound d hf => ?_, fun hne => absurd hrun hne, h.live⟩
        rcases hleft (by simpa [sound, hrun, hidle] using hsound) d hf with ⟨hk, hm⟩ | hd | hq | hrest
        · -- The path is excluded, and so is all that lies under it.
          have hd : d ≠ "" := ne_root_of_matching hp hm
          have hign : shouldIgnoreRel s.ignore p = false := not_ignored_of_matching hm (hf.2 hd)
          simp [skipsEvent, hk, hp, hign] at hskip htemp
          exact absurd hskip (by simpa [hk] using htemp)
        · exact .inl hd
        · exact .inr (.inl hq)
        · exact .inr (.inr (.inr hrest))
    · split at hs
      · cases hs
        refine ⟨hnamed, h.passed, fun hsound d hf => ?_, fun hne => absurd hrun hne, h.live⟩
        rcases hleft (by simpa [sound, hrun] using hsound) d hf with ⟨-, hm⟩ | hd | hq | hrest
        · refine .inr (.inr (.inl ⟨.watch p, by simp [startTodo, threadTodo, hrun], ?_⟩))
          simp [WalkTask.covers, under, hm]
        · exact .inl hd
        · exact .inr (.inl hq)
        · exact .inr (.inr (.inr hrest))
      · rename_i hdir
        cases hs
        refine ⟨hnamed, h.passed, fun hsound d hf => ?_, fun hne => absurd hrun hne, h.live⟩
        rcases hleft (by simpa [sound, hrun] using hsound) d hf with ⟨hk, hm⟩ | hd | hq | hrest
        · -- It is no directory (any more), so there is none under it.
          have hd : d ≠ "" := ne_root_of_matching hp hm
          have hdd : s.tree.isDir d = true := by
            have := hf.1
            simpa [isDirectory, hd] using this
          have hpd : s.tree.isDir p = true := by
            rcases matching_iff.1 hm with rfl | hb
            · exact hdd
            · exact Tree.isDir_of_below hb fun hn => by simp [Tree.isDir, hn] at hdd
          exact absurd ⟨hk, hpd⟩ hdir
        · exact .inl hd
        · exact .inr (.inl hq)
        · exact .inr (.inr (.inr hrest))
  · cases hs

theorem WatchInv.startWatcher {ok : Bool} (h : WatchInv s) (hs : s.step (.startWatcher ok) = some s') : WatchInv s' := by
  simp only [WatchedFeed.step] at hs
  split at hs
  · rename_i hstart
    cases hs
    have hnot : s.start ≠ .running := by simp [hstart]
    have hidle := h.idle hnot
    have hlive := h.not_live hnot
    refine ⟨h.named, h.passed, fun hsound d _ => ?_, fun _ => hidle, fun hl => absurd hl hlive⟩
    cases ok with
    | false => simp [sound] at hsound
    | true => exact .inr (.inr (.inl ⟨.watch "", by simp [startTodo], by simp [WalkTask.covers, under]⟩))
  · cases hs

theorem WatchInv.startWalk {ok : Bool} (h : WatchInv s) (hs : s.step (.startWalk ok) = some s') : WatchInv s' := by
  simp only [WatchedFeed.step] at hs
  split at hs
  · rename_i w hstart
    obtain ⟨x, hx, rfl⟩ := Option.map_eq_some_iff.1 hs
    have hw := walkStep_walked hx
    have hnot : s.start ≠ .running := by simp [hstart]
    have hidle := h.idle hnot
    have hlive := h.not_live hnot
    rw [hw.same]
    refine ⟨h.named, h.passed, fun hsound d hf => ?_, fun _ => hidle, fun hl => absurd hl hlive⟩
    have hold : s.sound = true := by simpa [sound, hstart] using hw.complete (by simpa [sound] using hsound)
    have htodo : ∀ t ∈ s.startTodo ++ s.threadTodo, t ∈ w.todo := by simp [startTodo, threadTodo, hstart, hidle]
    exact h.walk hw hold (by simpa [sound] using hsound) hf htodo rfl rfl rfl fun x hx => List.mem_append_left _ hx
  · cases hs

theorem WatchInv.started (h : WatchInv s) (hs : s.step .started = some s') : WatchInv s' := by
  simp only [WatchedFeed.step] at hs
  split at hs
  · rename_i complete hstart
    cases hs
    have hidle := h.idle (by rw [hstart]; simp)
    refine ⟨h.named, h.passed, fun hsound d hf => ?_, fun hne => absurd rfl hne, fun _ => rfl⟩
    have hold : s.sound = true := by simpa [sound, hstart, hidle] using hsound
    have htodo : s.startTodo ++ s.threadTodo = [] := by simp [startTodo, threadTodo, hstart, hidle]
    exact (h.reached hold d hf).imp_right fun hu => hu.of_todo rfl rfl rfl (by simp [htodo])
  · cases hs

theorem WatchInv.walkOn {ok : Bool} (h : WatchInv s) (hs : s.step (.walk ok) = some s') : WatchInv s' := by
  simp only [WatchedFeed.step] at hs
  split at hs
  · rename_i p w hthread
    obtain ⟨x, hx, rfl⟩ := Option.map_eq_some_iff.1 hs
    have hw := walkStep_walked hx
    have hrun := h.running (by rw [hthread]; simp)
    rw [hw.same]
    refine ⟨h.named, h.passed, fun hsound d hf => ?_, fun hne => absurd hrun hne, h.live⟩
    have hboth : s.live = true ∧ x.2.complete = true := by simpa [sound, hrun] using hsound
    have hold : s.sound = true := by simp [sound, hrun, hthread, hboth.1, hw.complete hboth.2]
    have htodo : ∀ t ∈ s.startTodo ++ s.threadTodo, t ∈ w.todo := by simp [startTodo, threadTodo, hrun, hthread]
    exact h.walk hw hold hboth.2 hf htodo rfl rfl rfl fun x hx => List.mem_append_right _ hx
  · cases hs

theorem WatchInv.walked (h : WatchInv s) (hs : s.step .walked = some s') : WatchInv s' := by
  simp only [WatchedFeed.step] at hs
  split at hs
  · rename_i p complete hthread
    cases hs
    have hrun := h.running (by rw [hthread]; simp)
    refine ⟨h.named, h.passed, fun hsound d hf => ?_, fun hne => absurd hrun hne, fun hl => hrun⟩
    have hold : s.sound = true := by simpa [sound, hrun, hthread] using hsound
    have htodo : s.startTodo ++ s.threadTodo = [] := by simp [startTodo, threadTodo, hrun, hthread]
    exact (h.reached hold d hf).imp_right fun hu => hu.of_todo rfl rfl rfl (by simp [htodo])
  · cases hs

theorem WatchInv.step (h : WatchInv s) {a : WatchAct} (hs : s.step a = some s') : WatchInv s' := by
  cases a with
  | edit tree changes =>
    simp only [WatchedFeed.step] at hs
    split at hs
    · cases hs
      exact h.edit ‹_›
    · cases hs
  | request a =>
    simp only [WatchedFeed.step] at hs
    split at hs
    · cases hs
    · cases hs
      exact ⟨h.named, h.passed, h.reached, h.idle, h.live⟩
  | startWatcher ok => exact h.startWatcher hs
  | startWalk ok => exact h.startWalk hs
  | started => exact h.started hs
  | take => exact h.take hs
  | walk ok => exact h.walkOn hs
  | walked => exact h.walked hs
  | look =>
    simp only [WatchedFeed.step] at hs
    split at hs
    · rename_i p hthread
      cases hs
      refine h.goesOn (h.running (by rw [hthread]; simp)) (by rw [hthread]; simp) fun q w => ?_
      split <;> simp
    · cases hs
  | readSignature current =>
    simp only [WatchedFeed.step] at hs
    split at hs
    · rename_i p hthread
      cases hs
      exact h.goesOn (h.running (by rw [hthread]; simp)) (by rw [hthread]; simp) (by simp)
    · cases hs
  | push now =>
    simp only [WatchedFeed.step] at hs
    split at hs
    · rename_i p current hthread
      cases hs
      have hidle : WatchInv { s with thread := EventThread.idle } :=
        h.goesOn (h.running (by rw [hthread]; simp)) (by rw [hthread]; simp) (by simp)
      exact ⟨hidle.named, hidle.passed, hidle.reached, hidle.idle, hidle.live⟩
    · cases hs

/-- While no watch has failed, the watcher tells of every change in a directory that it has come to. -/
theorem WatchInv.told_of (h : WatchInv s) (hsound : s.sound = true) {p : String} (hp : shouldIgnoreRel s.ignore p = false)
    (hdir : isDirectory s.tree (splitParent p).1 = true) (hreached : ¬ s.Unreached (splitParent p).1) :
    (splitParent p).1 ∈ s.watched := by
  refine (h.reached hsound _ ⟨hdir, fun hne => ?_⟩).resolve_right hreached
  exact not_ignored_of_matching (matching_iff.2 (.inr ((parent_of p).resolve_left hne))) hp

end Steps

end WatchedFeed

end Mobfs.Changes
