import Mobfs.Changes.Polls
import Mobfs.Changes.Watch
/-!
# What a live feed owes its clients

Clients with ignore lists of their own poll the feed of one root. A client that is told
that the feed is live keeps what it has cached until an event tells it otherwise, so it
is owed an event for every path that another process changes from then on and that its
own list does not exclude.

`live_complete` says when what is owed comes. The watcher has the list of the client that
polled first, so with different lists it need not.
-/

namespace Mobfs.Changes

open Lib
open WriteBack (matching)

/-- A client. `owed`, for stating properties: the paths changed since it was told that
the feed is live, with the length of the log then; an event for the path, or a reset,
takes one out. -/
structure Subscriber where
  id : Nat
  ignore : List String
  last : Option (Nat × Nat)
  waiting : Bool
  told : Bool
  owed : List (String × Nat)

def Subscriber.cursor (c : Subscriber) : Nat := (c.last.map Prod.snd).getD 0

structure LiveFeed where
  watching : Bool
  root : WatchedFeed
  clients : Nat → Subscriber

inductive LiveAct where
  /-- What the daemon does, to the tree too. -/
  | root (a : WatchAct)
  /-- Another process changes the tree. -/
  | outside (tree : Tree) (changes : List (FsEventKind × String))
  /-- `wait`, up to the first time that it gives the lock back. -/
  | poll (c : Nat) (expired : Bool)
  | wake (c : Nat) (expired : Bool)

namespace LiveFeed

/-- The reply has an event for the path that was recorded after the change. -/
def received (s : LiveFeed) (sub : Subscriber) (r : WaitResult) (x : String × Nat) : Bool :=
  s.root.feed.log.any fun y =>
    y.event = ⟨x.1, .replaced⟩ && x.2 < y.seq && sub.cursor < y.seq && y.seq ≤ r.cursor && r.events.contains y.event

/-- The client after a reply. -/
def hears (s : LiveFeed) (sub : Subscriber) (r : WaitResult) : Subscriber :=
  { sub with
    last := some (r.epoch, r.cursor)
    waiting := false
    told := r.live
    owed := if r.reset || sub.last.isNone then [] else sub.owed.filter fun x => !s.received sub r x }

def setClient (s : LiveFeed) (c : Nat) (sub : Subscriber) : LiveFeed := { s with clients := Function.update s.clients c sub }

def reply (s : LiveFeed) (c : Nat) (r : WaitResult) : LiveFeed := s.setClient c (s.hears (s.clients c) r)

/-- What the client is owed for changes by another process. -/
def owes (s : LiveFeed) (changes : List (FsEventKind × String)) (sub : Subscriber) : List (String × Nat) :=
  if sub.told then
    (changes.filter fun x => x.1 ≠ .access && !shouldIgnoreRel sub.ignore x.2).map fun x => (x.2, s.root.feed.log.length)
  else []

section Steps
variable (epoch : Nat)

/-- The loop of `wait`, the lock held. -/
def turn (s : LiveFeed) (c : Nat) (expired : Bool) : LiveFeed :=
  let sub := s.clients c
  match s.root.feed.turn epoch s.root.live sub.id sub.cursor expired with
  | some r => s.reply c r
  | none => s.setClient c { sub with waiting := true }

def step (s : LiveFeed) : LiveAct → Option LiveFeed
  | .root a => (s.root.step a).map fun root => { s with root }
  | .outside tree changes =>
    (s.root.step (.edit tree changes)).map fun root =>
      { s with
        root
        clients := fun c => { s.clients c with owed := (s.clients c).owed ++ s.owes changes (s.clients c) } }
  | .poll c expired =>
    let sub := s.clients c
    if sub.waiting then none
    else
      let s := { s with root := s.root.ensureWatching s.watching sub.ignore, watching := true }
      let clientEpoch := (sub.last.map Prod.fst).getD 0
      match s.root.feed.enter epoch s.root.live clientEpoch (sub.last.map Prod.snd) with
      | some r => some (s.reply c r)
      | none => some (s.turn epoch c expired)
  | .wake c expired => if (s.clients c).waiting then some (s.turn epoch c expired) else none

/-- Nobody has polled the feed of this daemon. -/
structure Starts (s : LiveFeed) : Prop where
  watching : s.watching = false
  feed : s.root.feed = .new
  start : s.root.start = .off
  live : s.root.live = false
  queue : s.root.queue = []
  thread : s.root.thread = .idle
  passed : s.root.passed = []
  clients : ∀ c, (s.clients c).owed = [] ∧ (s.clients c).told = false ∧ (s.clients c).waiting = false ∧
    ∀ e cursor, (s.clients c).last = some (e, cursor) → e ≠ epoch

end Steps

/-! ## What comes -/

/-- An event for the path is in the watcher's queue, or recorded above the client's cursor. -/
def ComesLater (s : LiveFeed) (c : Nat) (x : String × Nat) : Prop :=
  (∃ k, k ≠ .access ∧ (k, x.1) ∈ s.root.queue) ∨
    ∃ r ∈ s.root.feed.log, x.2 < r.seq ∧ (s.clients c).cursor < r.seq ∧ Foreign (s.clients c).id r ∧
      r.event = ⟨x.1, .replaced⟩

/-- An event that the client has still to receive is under way. -/
def Coming (s : LiveFeed) (c : Nat) (x : String × Nat) : Prop :=
  s.root.thread.path? = some x.1 ∨ s.ComesLater c x

/-- The event that the thread has at hand is the only one for what a client is owed. -/
def Awaited (s : LiveFeed) (p : String) : Prop :=
  ∃ c x, x ∈ (s.clients c).owed ∧ x.1 = p ∧ ¬ s.ComesLater c x

/-- A change that a client is owed an event for is neither excluded by the list of the
watcher nor under a name of the daemon's temporary files, no watch has failed, and the
watcher has come to the directory; its event is not given up by `push`; and what a call
of `wait` waits above is still stored when it goes on. -/
def Heeded (s : LiveFeed) : LiveAct → Prop
  | .outside _ changes => ∀ x ∈ changes, x.1 ≠ .access →
    (∃ c, (s.clients c).told = true ∧ shouldIgnoreRel (s.clients c).ignore x.2 = false) →
    skipsEvent s.root.ignore x.1 x.2 = false ∧ s.root.sound = true ∧ ¬ s.root.Unreached (splitParent x.2).1
  | .root .look => ∀ p, s.root.thread = .arrived p → s.root.feed.busy.contains p = true → ¬ s.Awaited p
  | .root (.push now) => ∀ p current, s.root.thread = .read p current →
    s.root.feed.busy.contains p = true ∨ s.root.feed.echoes now current p = true → ¬ s.Awaited p
  | .wake c _ => s.root.feed.oldest ≤ (s.clients c).cursor + 1
  | _ => True

structure LiveInv (epoch : Nat) (s : LiveFeed) : Prop where
  watch : s.root.WatchInv
  feed : FeedInv s.root.feed
  off : s.watching = false → s.root.start = .off ∧ ∀ c, (s.clients c).owed = [] ∧ (s.clients c).told = false ∧
    (s.clients c).waiting = false
  cursor : ∀ c cursor, (s.clients c).last = some (epoch, cursor) → cursor ≤ s.root.feed.log.length
  known : ∀ c, (s.clients c).owed ≠ [] ∨ (s.clients c).told = true ∨ (s.clients c).waiting = true →
    ∃ cursor, (s.clients c).last = some (epoch, cursor)
  owed : ∀ c, ∀ x ∈ (s.clients c).owed,
    skipsEvent s.root.ignore .modify x.1 = false ∧ x.2 ≤ s.root.feed.log.length ∧ s.Coming c x

section Facts
variable {epoch : Nat} {s s' : LiveFeed} {c : Nat} {x : String × Nat}

theorem skipsEvent_modify {ignore : List String} {k : FsEventKind} {p : String} (hk : k ≠ .access) :
    skipsEvent ignore k p = skipsEvent ignore .modify p := by
  cases k <;> simp [skipsEvent] at hk ⊢

theorem not_ignored_of_skips {ignore : List String} {k : FsEventKind} {p : String} (h : skipsEvent ignore k p = false) :
    shouldIgnoreRel ignore p = false := by
  simp only [skipsEvent, Bool.or_eq_false_iff] at h
  exact h.1.2

/-- What is recorded stays, and what is queued is kept or at hand. -/
theorem ComesLater.mono (h : s.ComesLater c x) (hc : s'.clients c = s.clients c)
    (hq : ∀ k, k ≠ .access → (k, x.1) ∈ s.root.queue → (k, x.1) ∈ s'.root.queue)
    (hl : ∀ r ∈ s.root.feed.log, r ∈ s'.root.feed.log) : s'.ComesLater c x := by
  rcases h with ⟨k, hk, hm⟩ | ⟨r, hr, hrest⟩
  · exact .inl ⟨k, hk, hq k hk hm⟩
  · exact .inr ⟨r, hl r hr, by rw [hc]; exact hrest⟩

/-- A step of the watcher that neither records nor takes an event. -/
theorem Coming.mono (h : s.Coming c x) (hc : s'.clients c = s.clients c)
    (hq : ∀ k, k ≠ .access → (k, x.1) ∈ s.root.queue → (k, x.1) ∈ s'.root.queue)
    (hl : ∀ r ∈ s.root.feed.log, r ∈ s'.root.feed.log) (ht : s'.root.thread.path? = s.root.thread.path?) : s'.Coming c x := by
  rcases h with h | h
  · exact .inl (ht.trans h)
  · exact .inr (h.mono hc hq hl)

/-- The thread gives up its event, or it is recorded. -/
theorem Coming.settles {p : String} (h : s.Coming c x) (hx : x ∈ (s.clients c).owed) (hp : s.root.thread.path? = some p)
    (hgiven : ¬ s.Awaited p) : s.ComesLater c x := by
  rcases h with h | h
  · rw [hp, Option.some_inj] at h
    by_contra hnot
    exact hgiven ⟨c, x, hx, h.symm, hnot⟩
  · exact h

/-- How a step of the watcher changes what is under way. -/
structure Keeps (s : LiveFeed) (root : WatchedFeed) : Prop where
  watch : root.WatchInv
  feed : FeedInv root.feed
  ignore : root.ignore = s.root.ignore
  off : s.root.start = .off → root.start = .off
  log : s.root.feed.log.length ≤ root.feed.log.length
  coming : ∀ c, ∀ x ∈ (s.clients c).owed, s.Coming c x → LiveFeed.Coming { s with root } c x

theorem LiveInv.root (h : LiveInv epoch s) {root : WatchedFeed} (hk : s.Keeps root) : LiveInv epoch { s with root } where
  watch := hk.watch
  feed := hk.feed
  off hw := ⟨hk.off (h.off hw).1, (h.off hw).2⟩
  cursor c cursor hc := Nat.le_trans (h.cursor c cursor hc) hk.log
  known := h.known
  owed c x hx := by
    obtain ⟨hskip, hlen, hcoming⟩ := h.owed c x hx
    exact ⟨by rw [hk.ignore]; exact hskip, Nat.le_trans hlen hk.log, hk.coming c x hx hcoming⟩

theorem log_mono_change (st : FeedState) (a : FeedAct) : (∀ r ∈ st.log, r ∈ (st.change a).log) ∧
    st.log.length ≤ (st.change a).log.length := by
  obtain ⟨new, hnew⟩ := log_change st a
  rw [hnew]
  exact ⟨fun r hr => List.mem_append_left _ hr, by simp⟩

/-- A step that leaves the feed, the queue and the path at hand alone. -/
theorem LiveInv.keeps (h : LiveInv epoch s) {a : WatchAct} {root : WatchedFeed} (hs : s.root.step a = some root)
    (hfeed : root.feed = s.root.feed) (hqueue : root.queue = s.root.queue) (hignore : root.ignore = s.root.ignore)
    (hpath : root.thread.path? = s.root.thread.path?) (hoff : s.root.start = .off → root.start = .off) : s.Keeps root where
  watch := h.watch.step hs
  feed := hfeed ▸ h.feed
  ignore := hignore
  off := hoff
  log := by rw [hfeed]
  coming _ _ _ hc := hc.mono rfl (fun k _ hm => by rw [hqueue]; exact hm) (fun r hr => by rw [hfeed]; exact hr) hpath

/-- A step of a walk leaves all but the watches alone. -/
theorem walkStep_same {w : Walk} {root : WatchedFeed} {ok : Bool} {y : WatchedFeed × Walk} (h : root.walkStep w ok = some y) :
    y.1.feed = root.feed ∧ y.1.queue = root.queue ∧ y.1.ignore = root.ignore ∧ y.1.thread = root.thread ∧
      y.1.start = root.start := by
  have hsame := (WatchedFeed.walkStep_walked h).same
  rw [hsame]
  exact ⟨rfl, rfl, rfl, rfl, rfl⟩

/-- The thread takes an event: what is owed for its path is now at hand. -/
theorem LiveInv.keeps_take (h : LiveInv epoch s) {root : WatchedFeed} (hs : s.root.step .take = some root) : s.Keeps root := by
  have hstep := hs
  simp only [WatchedFeed.step] at hs
  split at hs
  · rename_i kind p queue hrun hidle hqueue
    have hcoming : ∀ {root' : WatchedFeed}, root'.feed = s.root.feed → root'.queue = queue →
        (skipsEvent s.root.ignore kind p = false → root'.thread.path? = some p) →
        ∀ c, ∀ x ∈ (s.clients c).owed, s.Coming c x → LiveFeed.Coming { s with root := root' } c x := by
      intro root' hf hq ht c x hx hc
      rcases hc with hc | ⟨k, hk, hm⟩ | ⟨r, hr, hrest⟩
      · rw [hidle] at hc
        cases hc
      · rw [hqueue] at hm
        rcases List.mem_cons.1 hm with heq | hm
        · obtain ⟨rfl, rfl⟩ := Prod.mk.inj heq
          left
          exact ht ((skipsEvent_modify hk).trans (h.owed c x hx).1)
        · exact .inr (.inl ⟨k, hk, by rw [hq]; exact hm⟩)
      · exact .inr (.inr ⟨r, by rw [hf]; exact hr, hrest⟩)
    split at hs
    · rename_i hskip
      have hno : skipsEvent s.root.ignore kind p = false → False := fun hf => by rw [hf] at hskip; cases hskip
      split at hs
      · cases hs
        exact ⟨h.watch.step hstep, h.feed, rfl, fun h => h, Nat.le_refl _, hcoming rfl rfl fun hf => (hno hf).elim⟩
      · cases hs
        exact ⟨h.watch.step hstep, h.feed, rfl, fun h => h, Nat.le_refl _, hcoming rfl rfl fun hf => (hno hf).elim⟩
    · split at hs
      · cases hs
        exact ⟨h.watch.step hstep, h.feed, rfl, fun h => h, Nat.le_refl _, hcoming rfl rfl fun _ => rfl⟩
      · cases hs
        exact ⟨h.watch.step hstep, h.feed, rfl, fun h => h, Nat.le_refl _, hcoming rfl rfl fun _ => rfl⟩
  · cases hs

/-- The thread pushes: the path is recorded unless it is given up. -/
theorem LiveInv.keeps_push (h : LiveInv epoch s) {now : Nat} {root : WatchedFeed} (hg : s.Heeded (.root (.push now)))
    (hs : s.root.step (.push now) = some root) : s.Keeps root := by
  have hstep := hs
  simp only [WatchedFeed.step] at hs
  split at hs
  · rename_i p current hthread
    cases hs
    have hpath : s.root.thread.path? = some p := by
      rw [hthread]
      rfl
    obtain ⟨hmem, hlen⟩ := log_mono_change s.root.feed (.fsEvent now current p)
    refine ⟨h.watch.step hstep, h.feed.change (.fsEvent now current p), rfl, fun h => h, hlen, fun c x hx hc => .inr ?_⟩
    by_cases hgiven : s.root.feed.busy.contains p = true ∨ s.root.feed.echoes now current p = true
    · exact (hc.settles hx hpath (hg p current hthread hgiven)).mono rfl (fun k _ hm => hm) hmem
    · rw [not_or, Bool.not_eq_true, Bool.not_eq_true] at hgiven
      rcases hc with hc | hc
      · -- What is owed for the path is recorded now.
        rw [hpath, Option.some_inj] at hc
        refine .inr ⟨⟨s.root.feed.nextSeq, 0, ⟨p, .replaced⟩⟩, ?_, ?_, ?_, ?_, by rw [hc]⟩
        · rw [push_event hgiven.1 hgiven.2]
          exact List.mem_append_right _ (List.mem_singleton_self _)
        · have := (h.owed c x hx).2.1
          simp only [h.feed.nextSeq]
          omega
        · obtain ⟨cursor, hlast⟩ := h.known c (.inl (List.ne_nil_of_mem hx))
          have := h.cursor c cursor hlast
          simp only [Subscriber.cursor, hlast, Option.map_some, Option.getD_some, h.feed.nextSeq]
          omega
        · by_cases hid : (s.clients c).id = 0
          · exact .inl hid
          · exact .inr (Ne.symm hid)
      · exact hc.mono rfl (fun k _ hm => hm) hmem
  · cases hs

theorem LiveInv.keeps_step (h : LiveInv epoch s) {a : WatchAct} {root : WatchedFeed} (hg : s.Heeded (.root a))
    (hs : s.root.step a = some root) : s.Keeps root := by
  have hstep := hs
  cases a with
  | edit tree changes =>
    simp only [WatchedFeed.step] at hs
    split at hs
    · cases hs
      refine ⟨h.watch.step hstep, h.feed, rfl, fun h => h, Nat.le_refl _, fun c x _ hc => ?_⟩
      exact hc.mono rfl (fun k _ hm => List.mem_append_left _ hm) (fun r hr => hr) rfl
    · cases hs
  | request a =>
    have hchange : root = { s.root with feed := s.root.feed.change a } := by
      cases a <;> simp only [WatchedFeed.step, reduceCtorEq, Option.some.injEq] at hs
      all_goals exact hs.symm
    subst hchange
    obtain ⟨hmem, hlen⟩ := log_mono_change s.root.feed a
    refine ⟨h.watch.step hstep, h.feed.change a, rfl, fun h => h, hlen, fun c x _ hc => ?_⟩
    exact hc.mono rfl (fun k _ hm => hm) hmem rfl
  | startWatcher ok =>
    simp only [WatchedFeed.step] at hs
    split at hs
    · rename_i hstart
      cases hs
      exact h.keeps hstep rfl rfl rfl rfl fun hoff => by rw [hstart] at hoff; cases hoff
    · cases hs
  | startWalk ok =>
    simp only [WatchedFeed.step] at hs
    split at hs
    · rename_i w hstart
      obtain ⟨y, hy, rfl⟩ := Option.map_eq_some_iff.1 hs
      obtain ⟨hf, hq, hi, ht, -⟩ := walkStep_same hy
      exact h.keeps hstep hf hq hi (by rw [ht]) fun hoff => by rw [hstart] at hoff; cases hoff
    · cases hs
  | started =>
    simp only [WatchedFeed.step] at hs
    split at hs
    · rename_i complete hstart
      cases hs
      exact h.keeps hstep rfl rfl rfl rfl fun hoff => by rw [hstart] at hoff; cases hoff
    · cases hs
  | take => exact h.keeps_take hs
  | walk ok =>
    simp only [WatchedFeed.step] at hs
    split at hs
    · rename_i p w hthread
      obtain ⟨y, hy, rfl⟩ := Option.map_eq_some_iff.1 hs
      obtain ⟨hf, hq, hi, -, hstart⟩ := walkStep_same hy
      exact h.keeps hstep hf hq hi (by rw [hthread]; rfl) fun hoff => hstart.trans hoff
    · cases hs
  | walked =>
    simp only [WatchedFeed.step] at hs
    split at hs
    · rename_i p complete hthread
      cases hs
      exact h.keeps hstep rfl rfl rfl (by rw [hthread]; rfl) fun hoff => hoff
    · cases hs
  | look =>
    simp only [WatchedFeed.step] at hs
    split at hs
    · rename_i p hthread
      cases hs
      refine ⟨h.watch.step hstep, h.feed, rfl, fun h => h, Nat.le_refl _, fun c x hx hc => ?_⟩
      by_cases hbusy : s.root.feed.busy.contains p = true
      · have hlater := hc.settles hx (by rw [hthread]; rfl) (hg p hthread hbusy)
        exact .inr (hlater.mono rfl (fun k _ hm => hm) fun r hr => hr)
      · refine hc.mono rfl (fun k _ hm => hm) (fun r hr => hr) ?_
        rw [hthread]
        simp [hbusy, EventThread.path?]
    · cases hs
  | readSignature current =>
    simp only [WatchedFeed.step] at hs
    split at hs
    · rename_i p hthread
      cases hs
      exact h.keeps hstep rfl rfl rfl (by rw [hthread]; rfl) fun hoff => hoff
    · cases hs
  | push now => exact h.keeps_push hg hs

/-- Another process changes the tree: what the clients are owed for it is queued. -/
theorem LiveInv.outside (h : LiveInv epoch s) {tree : Tree} {changes : List (FsEventKind × String)}
    (hg : s.Heeded (.outside tree changes)) (hs : s.step epoch (.outside tree changes) = some s') : LiveInv epoch s' := by
  obtain ⟨root, hroot, rfl⟩ := Option.map_eq_some_iff.1 hs
  have hk := h.keeps_step (a := .edit tree changes) trivial hroot
  have hr := h.root hk
  have hedit : WatchedFeed.told s.root.tree tree changes = true ∧ root.feed = s.root.feed ∧
      ∀ x ∈ changes, (splitParent x.2).1 ∈ s.root.watched → x ∈ root.queue := by
    simp only [WatchedFeed.step] at hroot
    split at hroot
    · cases hroot
      refine ⟨‹_›, rfl, fun x hx hw => List.mem_append_right _ (List.mem_filter.2 ⟨hx, by simpa using hw⟩)⟩
    · cases hroot
  obtain ⟨htold, hfeed, hqueued⟩ := hedit
  have hsame : ∀ {c x}, LiveFeed.Coming { s with root } c x → LiveFeed.Coming { s with
      root := root
      clients := fun c => { s.clients c with owed := (s.clients c).owed ++ s.owes changes (s.clients c) } } c x := fun hc => hc
  have howes : ∀ {sub x}, x ∈ s.owes changes sub → sub.told = true ∧ ∃ k, k ≠ .access ∧ (k, x.1) ∈ changes ∧
      shouldIgnoreRel sub.ignore x.1 = false ∧ x.2 = s.root.feed.log.length := by
    intro sub x hx
    unfold owes at hx
    split at hx
    · rename_i ht
      obtain ⟨y, hy, rfl⟩ := List.mem_map.1 hx
      obtain ⟨hy, hcond⟩ := List.mem_filter.1 hy
      simp only [Bool.and_eq_true, decide_eq_true_eq, Bool.not_eq_true'] at hcond
      exact ⟨ht, y.1, hcond.1, hy, hcond.2, rfl⟩
    · cases hx
  refine ⟨hr.watch, hr.feed, fun hw => ?_, hr.cursor, fun c hc => ?_, fun c x hx => ?_⟩
  · obtain ⟨hoff, hnone⟩ := hr.off hw
    refine ⟨hoff, fun c => ?_⟩
    obtain ⟨hnil, hnot, hno⟩ := hnone c
    have hnot : (s.clients c).told = false := hnot
    have hnil : (s.clients c).owed = [] := hnil
    exact ⟨by simp [hnil, owes, hnot], hnot, hno⟩
  · refine hr.known c ?_
    rcases hc with hc | hc | hc
    · by_cases ht : (s.clients c).told = true
      · exact .inr (.inl ht)
      · left
        rw [Bool.not_eq_true] at ht
        simpa [owes, ht] using hc
    · exact .inr (.inl hc)
    · exact .inr (.inr hc)
  · rcases List.mem_append.1 hx with hx | hx
    · obtain ⟨h1, h2, h3⟩ := hr.owed c x hx
      exact ⟨h1, h2, hsame h3⟩
    · obtain ⟨ht, k, hk', hmem, hign, hlen⟩ := howes hx
      obtain ⟨hskip, hsound, hreached⟩ := hg (k, x.1) hmem hk' ⟨c, ht, hign⟩
      have hdir : WatchedFeed.isDirectory s.root.tree (splitParent x.1).1 = true := by
        simp only [WatchedFeed.told, Bool.and_eq_true, List.all_eq_true] at htold
        exact (htold.2 (k, x.1) hmem).2
      have hwatched := h.watch.told_of hsound (not_ignored_of_skips hskip) hdir hreached
      refine ⟨?_, ?_, .inr (.inl ⟨k, hk', hqueued _ hmem hwatched⟩)⟩
      · rw [hk.ignore, ← skipsEvent_modify hk']
        exact hskip
      · rw [hlen, hfeed]

/-! ## Polls -/

@[simp] theorem setClient_self (s : LiveFeed) (c : Nat) (sub : Subscriber) : (s.setClient c sub).clients c = sub :=
  Function.update_self _ _ _

theorem setClient_other {d : Nat} {sub : Subscriber} (hd : d ≠ c) : (s.setClient c sub).clients d = s.clients d :=
  Function.update_of_ne hd _ _

/-- When one client changes, the others keep what they have. -/
theorem LiveInv.setClient (h : LiveInv epoch s) {sub : Subscriber} (hlive : s.watching = true)
    (hcursor : ∀ cursor, sub.last = some (epoch, cursor) → cursor ≤ s.root.feed.log.length)
    (hknown : ∃ cursor, sub.last = some (epoch, cursor))
    (howed : ∀ x ∈ sub.owed, skipsEvent s.root.ignore .modify x.1 = false ∧ x.2 ≤ s.root.feed.log.length ∧
      (s.setClient c sub).Coming c x) : LiveInv epoch (s.setClient c sub) := by
  refine ⟨h.watch, h.feed, fun hw => ?_, fun d cursor hd => ?_, fun d hd => ?_, fun d x hx => ?_⟩
  · rw [show (s.setClient c sub).watching = s.watching from rfl, hlive] at hw
    cases hw
  · by_cases hdc : d = c
    · rw [hdc, setClient_self] at hd
      exact hcursor cursor hd
    · rw [setClient_other hdc] at hd
      exact h.cursor d cursor hd
  · by_cases hdc : d = c
    · rw [hdc, setClient_self]
      exact hknown
    · rw [setClient_other hdc] at hd ⊢
      exact h.known d hd
  · by_cases hdc : d = c
    · subst hdc
      rw [setClient_self] at hx
      exact howed x hx
    · rw [setClient_other hdc] at hx
      obtain ⟨hskip, hlen, hcoming⟩ := h.owed d x hx
      exact ⟨hskip, hlen, hcoming.mono (setClient_other hdc) (fun k _ hm => hm) (fun r hr => hr) rfl⟩

/-- What a client is owed after a reply without a reset was not in it, and is still coming. -/
theorem LiveInv.reply (h : LiveInv epoch s) {r : WaitResult} (hepoch : r.epoch = epoch) (hlive : s.watching = true)
    (hcursor : r.cursor ≤ s.root.feed.log.length)
    (hevents : r.reset = false → (s.clients c).last ≠ none → (s.clients c).cursor ≤ r.cursor ∧
      r.events = s.root.feed.between (s.clients c).id (s.clients c).cursor r.cursor) : LiveInv epoch (s.reply c r) := by
  refine h.setClient hlive (fun cursor hlast => ?_) ⟨r.cursor, by rw [← hepoch]; rfl⟩ fun x hx => ?_
  · obtain ⟨-, rfl⟩ := Prod.mk.inj (Option.some.inj hlast)
    exact hcursor
  · simp only [hears] at hx
    split at hx
    · cases hx
    · rename_i hgo
      simp only [Bool.or_eq_true, not_or, Bool.not_eq_true, Option.isNone_eq_false_iff] at hgo
      obtain ⟨hx, hnot⟩ := List.mem_filter.1 hx
      obtain ⟨hskip, hlen, hcoming⟩ := h.owed c x hx
      refine ⟨hskip, hlen, ?_⟩
      obtain ⟨hle, hev⟩ := hevents hgo.1 (by rw [← Option.isSome_iff_ne_none]; exact hgo.2)
      rcases hcoming with ht | hq | ⟨y, hy, hseq, hcur, hforeign, hevent⟩
      · exact .inl ht
      · exact .inr (.inl hq)
      · refine .inr (.inr ⟨y, hy, hseq, ?_, ?_, hevent⟩)
        · -- An event up to the new cursor is in the reply.
          rw [setClient_self]
          change r.cursor < y.seq
          by_contra hle'
          have hmem : y.event ∈ r.events := by
            rw [hev]
            refine List.mem_map_of_mem (List.mem_filter.2 ⟨List.mem_filter.2 ⟨hy, ?_⟩, by simpa using hforeign⟩)
            simpa using ⟨hcur, Nat.not_lt.1 hle'⟩
          have hrec : s.received (s.clients c) r x = true := by
            refine List.any_eq_true.2 ⟨y, hy, ?_⟩
            simp only [Bool.and_eq_true, decide_eq_true_eq, List.contains_eq_mem]
            exact ⟨⟨⟨⟨hevent, hseq⟩, hcur⟩, Nat.not_lt.1 hle'⟩, hmem⟩
          rw [hrec] at hnot
          cases hnot
        · rw [setClient_self]
          exact hforeign

theorem LiveInv.turn (h : LiveInv epoch s) {expired : Bool} (hlive : s.watching = true) {cursor : Nat}
    (hlast : (s.clients c).last = some (epoch, cursor)) (hold : s.root.feed.oldest ≤ (s.clients c).cursor + 1) :
    LiveInv epoch (s.turn epoch c expired) := by
  have hcur : (s.clients c).cursor = cursor := by simp [Subscriber.cursor, hlast]
  have hle : (s.clients c).cursor ≤ s.root.feed.log.length := hcur ▸ h.cursor c cursor hlast
  unfold LiveFeed.turn
  simp only
  split
  · rename_i r hr
    obtain ⟨h1, -, h3, h4, h5⟩ := h.feed.turn_spec hle hold hr
    exact h.reply h1 hlive h4 fun _ _ => ⟨h3, h5⟩
  · -- The client waits.
    refine h.setClient hlive (h.cursor c) ⟨cursor, hlast⟩ fun x hx => ?_
    obtain ⟨hskip, hlen, hcoming⟩ := h.owed c x hx
    refine ⟨hskip, hlen, ?_⟩
    rcases hcoming with ht | hq | ⟨y, hy, hseq, hcur, hrest⟩
    · exact .inl ht
    · exact .inr (.inl hq)
    · exact .inr (.inr ⟨y, hy, hseq, by rw [setClient_self]; exact hcur, by rw [setClient_self]; exact hrest⟩)

/-- `ensure_watching`. -/
theorem LiveInv.ensureWatching (h : LiveInv epoch s) (ignore : List String) :
    LiveInv epoch { s with root := s.root.ensureWatching s.watching ignore, watching := true } := by
  cases hw : s.watching with
  | true => exact ⟨h.watch, h.feed, (fun hno => by cases hno), h.cursor, h.known, h.owed⟩
  | false =>
    -- Nobody is owed anything yet.
    obtain ⟨hoff, hnone⟩ := h.off hw
    have hidle := h.watch.idle (by rw [hoff]; simp)
    have hlive : s.root.live ≠ true := fun hl => by
      have := h.watch.live hl
      rw [hoff] at this
      cases this
    refine ⟨⟨h.watch.named, h.watch.passed, fun hsound => ?_, fun _ => hidle, fun hl => absurd hl hlive⟩, h.feed,
      (fun hno => by cases hno), h.cursor, h.known, fun c x hx => ?_⟩
    · simp [WatchedFeed.sound, WatchedFeed.ensureWatching] at hsound
    · rw [(hnone c).1] at hx
      cases hx

theorem LiveInv.poll (h : LiveInv epoch s) {expired : Bool} (hs : s.step epoch (.poll c expired) = some s') :
    LiveInv epoch s' := by
  simp only [LiveFeed.step] at hs
  split at hs
  · cases hs
  · have hw := h.ensureWatching (s.clients c).ignore
    generalize hs₁ : ({ s with root := s.root.ensureWatching s.watching (s.clients c).ignore, watching := true } : LiveFeed) =
      s₁ at hw hs
    have hclients : s₁.clients = s.clients := by rw [← hs₁]
    have hwatching : s₁.watching = true := by rw [← hs₁]
    have hroot : s.root.ensureWatching s.watching (s.clients c).ignore = s₁.root := by rw [← hs₁]
    rw [hroot, ← hclients] at hs
    cases hlast : (s₁.clients c).last with
    | none =>
      simp only [hlast, Option.map_none, FeedState.enter] at hs
      cases hs
      refine hw.reply rfl hwatching (by simp [hw.feed.nextSeq]) fun _ hne => absurd hlast hne
    | some x =>
      obtain ⟨e, cursor⟩ := x
      have hcur : (s₁.clients c).cursor = cursor := by simp [Subscriber.cursor, hlast]
      have hle : e = epoch → cursor ≤ s₁.root.feed.log.length := by
        rintro rfl
        exact hw.cursor c cursor hlast
      obtain ⟨hnone, hsome⟩ := hw.feed.enter_reset s₁.root.live hle
      simp only [hlast, Option.map_some, Option.getD_some] at hs
      cases he : s₁.root.feed.enter epoch s₁.root.live e (some cursor) with
      | some r =>
        rw [he] at hs
        cases hs
        rw [hsome r he]
        exact hw.reply rfl hwatching (Nat.le_refl _) fun hno => by cases hno
      | none =>
        rw [he] at hs
        cases hs
        obtain ⟨rfl, -⟩ : e = epoch ∧ _ := by simpa only [not_or, not_not] using hnone.1 he
        refine hw.turn hwatching hlast ?_
        simp only [FeedState.enter] at he
        split at he
        · cases he
        · rw [hcur]
          omega

theorem LiveInv.step (h : LiveInv epoch s) {a : LiveAct} (hg : s.Heeded a) (hs : s.step epoch a = some s') :
    LiveInv epoch s' := by
  cases a with
  | root a =>
    obtain ⟨root, hroot, rfl⟩ := Option.map_eq_some_iff.1 hs
    exact h.root (h.keeps_step hg hroot)
  | outside tree changes => exact h.outside hg hs
  | poll c expired => exact h.poll hs
  | wake c expired =>
    simp only [LiveFeed.step] at hs
    split at hs
    · rename_i hwaiting
      cases hs
      obtain ⟨cursor, hlast⟩ := h.known c (.inr (.inr hwaiting))
      have hwatching : s.watching = true := by
        by_contra hno
        rw [((h.off (Bool.not_eq_true _ ▸ hno)).2 c).2.2] at hwaiting
        cases hwaiting
      exact h.turn hwatching hlast hg
    · cases hs

theorem Starts.inv (h : s.Starts epoch) : LiveInv epoch s where
  watch := by
    refine ⟨by simp [h.queue], by simp [h.passed], fun hsound => ?_, fun _ => h.thread, fun hl => ?_⟩
    · simp [WatchedFeed.sound, h.start] at hsound
    · rw [h.live] at hl
      cases hl
  feed := h.feed ▸ feedInv_new
  off _ := ⟨h.start, fun c => ⟨(h.clients c).1, (h.clients c).2.1, (h.clients c).2.2.1⟩⟩
  cursor c cursor hc := absurd rfl ((h.clients c).2.2.2 _ _ hc)
  known c hc := by
    obtain ⟨h1, h2, h3, -⟩ := h.clients c
    simp [h1, h2, h3] at hc
  owed c x hx := by
    rw [(h.clients c).1] at hx
    cases hx

end Facts

/-- In every run in which the changes by other processes are heeded: what a client is owed,
since it was told that the feed is live, is on its way to it; and a client that has read
all that was recorded, when the watcher is done, is owed nothing. -/
theorem live_complete (epoch : Nat) (s₀ s : LiveFeed) (as : List LiveAct) (h₀ : s₀.Starts epoch)
    (hg : Guarded (step epoch) Heeded s₀ as) (hrun : exec (step epoch) s₀ as = some s) :
    (∀ c, ∀ x ∈ (s.clients c).owed, s.Coming c x) ∧
    (s.root.queue = [] → s.root.thread = .idle → ∀ c, (s.clients c).cursor = s.root.feed.log.length →
      (s.clients c).owed = []) := by
  have h := exec_guarded_inv (LiveInv epoch) (fun s a s' h hg hs => h.step hg hs) h₀.inv hg hrun
  refine ⟨fun c x hx => (h.owed c x hx).2.2, fun hqueue hidle c hcur => ?_⟩
  refine List.eq_nil_iff_forall_not_mem.2 fun x hx => ?_
  rcases (h.owed c x hx).2.2 with ht | ⟨k, -, hq⟩ | ⟨r, hr, -, hlt, -⟩
  · rw [hidle] at ht
    cases ht
  · rw [hqueue] at hq
    cases hq
  · have := (h.feed.numbered.seq_le hr).2
    omega

/-! ## Two clients -/

/-- Two clients of one root; only the first one ignores `target`. -/
def twoLists : LiveFeed where
  watching := false
  root := {
    tree := Tree.build [("target", .dir 493)]
    feed := .new
    ignore := []
    start := .off
    live := false
    watched := []
    watchedDirs := 0
    queue := []
    thread := .idle
    passed := []
    unlisted := [] }
  clients c := ⟨c + 1, if c = 0 then ["target"] else [], none, false, false, []⟩

/-- The first client polls, the watcher starts, and the second client is told that the feed is live. -/
def subscribe : List LiveAct :=
  [.poll 0 true, .root (.startWatcher true), .root (.startWalk true), .root (.startWalk true), .root .started, .poll 1 true]

/-- Another process makes a file. -/
def makes (p : String) : LiveAct := .outside (Tree.build [("target", .dir 493), (p, .file [1] 420 0)]) [(.create, p)]

def told (s : LiveFeed) (c : Nat) : Bool := (s.clients c).told

/-- The file is in `target`: the second client is owed an event, and there is none. -/
theorem live_misses_event :
    ∃ s, exec (step 1) twoLists (subscribe ++ [makes "target/x"]) = some s ∧ s.told 1 = true ∧
      ("target/x", 0) ∈ (s.clients 1).owed ∧ ¬ s.Coming 1 ("target/x", 0) := by
  have hrun : ((exec (step 1) twoLists (subscribe ++ [makes "target/x"])).any fun s => s.told 1 &&
      (s.clients 1).owed = [("target/x", 0)] && s.root.queue.isEmpty && s.root.feed.log.isEmpty &&
      s.root.thread.path? = none) = true := by decide
  obtain ⟨s, hs, h⟩ := (Option.any_eq_true _ _).1 hrun
  simp only [Bool.and_eq_true, decide_eq_true_eq, List.isEmpty_iff] at h
  obtain ⟨⟨⟨⟨ht, ho⟩, hq⟩, hl⟩, hp⟩ := h
  refine ⟨s, hs, ht, by rw [ho]; exact List.mem_singleton_self _, ?_⟩
  rintro (h | ⟨k, -, h⟩ | ⟨r, h, -⟩)
  · rw [hp] at h
    cases h
  · rw [hq] at h
    cases h
  · rw [hl] at h
    cases h

/-- `Heeded`, as a test for runs in which the watcher has come to everything. -/
def calm (s : LiveFeed) : LiveAct → Bool
  | .outside _ changes => (changes.all fun x => !skipsEvent s.root.ignore x.1 x.2) && s.root.sound &&
    (s.root.queue.isEmpty && (s.root.startTodo ++ s.root.threadTodo).isEmpty && s.root.passed.isEmpty && s.root.unlisted.isEmpty)
  | .root .look => match s.root.thread with
    | .arrived p => !s.root.feed.busy.contains p
    | _ => true
  | .root (.push now) => match s.root.thread with
    | .read p current => !s.root.feed.busy.contains p && !s.root.feed.echoes now current p
    | _ => true
  | .wake c _ => s.root.feed.oldest ≤ (s.clients c).cursor + 1
  | _ => true

theorem heeded_of_calm {s : LiveFeed} {a : LiveAct} (h : s.calm a = true) : s.Heeded a := by
  cases a with
  | outside tree changes =>
    simp only [calm, Bool.and_eq_true, List.all_eq_true, Bool.not_eq_true', List.isEmpty_iff] at h
    obtain ⟨⟨hskip, hsound⟩, ⟨⟨hq, ht⟩, hp⟩, hu⟩ := h
    intro x hx _ _
    refine ⟨hskip x hx, hsound, ?_⟩
    rintro (⟨y, hy, -⟩ | ⟨t, hy, -⟩ | ⟨y, hy, -⟩ | ⟨y, hy, -⟩)
    · simp [hq] at hy
    · simp [ht] at hy
    · simp [hp] at hy
    · simp [hu] at hy
  | root a =>
    cases a with
    | look =>
      intro p hp hbusy
      simp [calm, hp, hbusy] at h
    | push now =>
      intro p current hp hgiven
      simp only [calm, hp, Bool.and_eq_true, Bool.not_eq_true'] at h
      rcases hgiven with hg | hg
      · rw [h.1] at hg
        cases hg
      · rw [h.2] at hg
        cases hg
    | _ => trivial
  | poll c expired => trivial
  | wake c expired =>
    simp only [calm, decide_eq_true_eq] at h
    exact h

/-- The file is beside it: its event is taken, pushed, and received. -/
def beside : List LiveAct :=
  subscribe ++ [makes "x", .root .take, .root .look, .root (.readSignature (some (1, some 0, false))), .root (.push 5), .poll 1 true]

theorem live_complete_beside :
    ∃ s, exec (step 1) twoLists beside = some s ∧ (s.clients 1).last = some (1, 1) ∧ (s.clients 1).owed = [] := by
  have hrun : ((exec (step 1) twoLists beside).any fun s => (s.clients 1).last = some (1, 1) && s.root.queue.isEmpty &&
      s.root.thread.path? = none && s.root.feed.log.length = 1) = true := by decide
  obtain ⟨s, hs, h⟩ := (Option.any_eq_true _ _).1 hrun
  simp only [Bool.and_eq_true, decide_eq_true_eq, List.isEmpty_iff] at h
  obtain ⟨⟨⟨hlast, hq⟩, hp⟩, hlen⟩ := h
  have hstart : twoLists.Starts 1 := by
    refine ⟨rfl, rfl, rfl, rfl, rfl, rfl, rfl, fun c => ⟨rfl, rfl, rfl, fun _ _ h => by cases h⟩⟩
  have hg : Guarded (step 1) Heeded twoLists beside :=
    guarded_of_checkRun (fun _ => True) (fun _ => True) calm (fun _ _ _ _ _ _ => trivial) (fun _ _ _ _ h => heeded_of_calm h)
      trivial (fun _ _ => trivial) (by decide)
  have hidle : s.root.thread = .idle := by
    cases ht : s.root.thread <;> simp [ht, EventThread.path?] at hp
    rfl
  refine ⟨s, hs, hlast, (live_complete 1 twoLists s beside hstart hg hs).2 hq hidle 1 ?_⟩
  simp [Subscriber.cursor, hlast, hlen]

end LiveFeed

end Mobfs.Changes
