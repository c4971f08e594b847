import Mobfs.Vfs.FeedPast
/-!
# Mounting

`Vfs::start` asks the feed for its cursor, then for the snapshot that fills the tables, then
for the contents of small files, and only then starts the feed thread from that cursor. Other
clients go on changing the files meanwhile, and the daemon may be started anew.

What a request is answered with is dated by the time it was sent: nothing in the answer was
read earlier. `started_leaves_nothing_older` is about every run from the start on.
-/

namespace Mobfs

open Lib Std Changes

/-- How far `Vfs::start` is. A request that is under way was sent at that time. -/
inductive StartPhase where
  | connected
  | watched
  | listing (asked : Nat)
  | listed
  | prefetching (asked : Nat)
  | running
  deriving DecidableEq

structure MountRun where
  thread : FeedThread
  phase : StartPhase

inductive MountRunAct where
  | thread (a : FeedThreadAct)
  | watch (live : Bool)
  | askSnapshot
  | snapshot (entries : Snapshot) (complete : List String)
  | askFiles
  /-- The files of the answer, none if the request has failed. -/
  | files (files : List (String × Bytes))

/-- The mount has no threads of its own before it runs. -/
def StartPhase.allows : StartPhase → FeedThreadAct → Bool
  | .running, _ => true
  | _, .record _ _ | _, .restart _ => true
  | _, _ => false

/-- The entries of the snapshot that lie in the directory, by their names. -/
def listedUnder (entries : Snapshot) (d : String) : List (String × EntryMeta) :=
  entries.toList.filterMap fun x => if (splitParent x.1).1 = d then some ((splitParent x.1).2, x.2) else none

namespace Mount

def unmounted (capacity : Nat) : Mount where
  metas := fun _ => none
  dirs := fun _ => none
  cache := ⟨.new capacity, ∅, 0, [], fun _ => none, 0⟩
  chunks := []
  calls := fun _ => none
  queue := []
  feeding := none
  applied := []
  passedOver := []

/-- The tables as the snapshot fills them. -/
def load (s : Mount) (asked : Nat) (entries : Snapshot) (complete : List String) : Mount :=
  { s with
    metas := fun q => entries[q]?.map fun m => ⟨m, asked⟩
    dirs := fun d => if d ∈ complete then some ⟨listedUnder entries d, asked⟩ else none }

/-- Each small file is the first block of itself. -/
def prefetch (s : Mount) (asked : Nat) (files : List (String × Bytes)) : Mount :=
  s.withStore (files.foldl (fun st f => st.insert (f.1, 0) ⟨f.2, asked⟩ 0) s.cache.store)

end Mount

namespace MountRun

def start (capacity epoch : Nat) : MountRun where
  thread :=
    { epoch
      used := [epoch]
      feed := .new
      madeAt := fun _ => 0
      earlier := []
      mount := .unmounted capacity
      last := (epoch, 0)
      live := false
      loop := .idle }
  phase := .connected

def ticked (s : MountRun) (phase : StartPhase) : MountRun := ⟨s.thread.withMount s.thread.mount.tick, phase⟩

def step (ignore : List String) (client : Nat) (s : MountRun) : MountRunAct → Option MountRun
  | .thread a => if s.phase.allows a then (s.thread.step ignore client a).map fun t => ⟨t, s.phase⟩ else none
  | .watch live =>
    match s.phase with
    | .connected =>
      let r := s.thread.feed.waitNow s.thread.epoch live client 0 none
      some ⟨{ s.thread with mount := s.thread.mount.tick, last := (r.epoch, r.cursor) }, .watched⟩
    | _ => none
  | .askSnapshot =>
    match s.phase with
    | .watched => some (s.ticked (.listing s.thread.mount.now))
    | _ => none
  | .snapshot entries complete =>
    match s.phase with
    | .listing asked => some ⟨s.thread.withMount (s.thread.mount.load asked entries complete).tick, .listed⟩
    | _ => none
  | .askFiles =>
    match s.phase with
    | .listed => some (s.ticked (.prefetching s.thread.mount.now))
    | _ => none
  | .files files =>
    match s.phase with
    | .prefetching asked => some ⟨s.thread.withMount (s.thread.mount.prefetch asked files).tick, .running⟩
    | _ => none

/-- The condition on the feed thread and on the threads of the mount. -/
def Guard (ignore : List String) (client : Nat) (s : MountRun) : MountRunAct → Prop
  | .thread a => s.thread.Guard ignore client a
  | _ => True

end MountRun

def StartPhase.asked : StartPhase → Option Nat
  | .listing asked | .prefetching asked => some asked
  | _ => none

/-- Until the feed thread starts, the mount is quiet, and a request under way was sent after
the changes that the cursor is past. -/
structure StartInv (client : Nat) (s : MountRun) : Prop where
  past : s.thread.PastInv client
  quiet : s.phase ≠ .running → s.thread.mount.Quiet ∧ s.thread.loop = .idle
  empty : s.phase = .connected → ∀ x d, ¬ s.thread.mount.Dates x d
  asked : ∀ T, s.phase.asked = some T → T ≤ s.thread.mount.now ∧
    (s.thread.last.1 = s.thread.epoch → ∀ e ∈ s.thread.known client s.thread.last.2, e.madeAt ≤ T)

section Runs

variable {ignore : List String} {client : Nat} {s s' : MountRun} {m m' : Mount}

theorem Mount.Quiet.tick (h : m.Quiet) : m.tick.Quiet := ⟨h.calls, h.cache, h.queue, h.feeding, h.applied, h.passedOver⟩

theorem Mount.Quiet.feedThread (h : m.Quiet) : FeedThread.Quiet m := ⟨h.queue, h.feeding⟩

/-- Nothing is cached, and no call is under way. -/
theorem Mount.unmounted_dates (capacity : Nat) (x : Item) (d : Nat) : ¬ (Mount.unmounted capacity).Dates x d := by
  have hblock : ∀ k, (BlockStore.new capacity).block k = none := fun k => by simp [BlockStore.new, BlockStore.block]
  rintro (hd | hd)
  · cases x with
    | block k => simp [cachedAt, unmounted, hblock] at hd
    | entry q => cases hd
    | listing q => cases hd
  · cases x with
    | block k =>
      obtain ⟨t, f, g, ht, -⟩ := hd
      cases ht
    | entry q =>
      obtain ⟨t, c, ht, -⟩ := hd
      cases ht
    | listing q =>
      obtain ⟨t, c, ht, -⟩ := hd
      cases ht

theorem startInv_start (client capacity epoch : Nat) : StartInv client (.start capacity epoch) := by
  have hquiet : (Mount.unmounted capacity).Quiet := ⟨fun _ => rfl, fun _ => rfl, rfl, rfl, rfl, rfl⟩
  have hknown : ∀ b, (MountRun.start capacity epoch).thread.known client b = [] := fun b => rfl
  refine ⟨⟨feedInv_new, hquiet.feedInv, List.mem_singleton.2 rfl, ?_, List.mem_singleton.2 rfl, fun _ => Nat.le_refl _, ?_,
    hquiet.feedThread⟩, fun _ => ⟨hquiet, rfl⟩, fun _ => Mount.unmounted_dates capacity, fun T hT => by cases hT⟩
  · rw [hknown]
    exact fun e he => by cases he
  · rw [hknown]
    exact fun _ e he => by cases he

/-! ## Filling the tables -/

/-- What `load` and `prefetch` put into a place is of the date of the request. -/
theorem Mount.dates_load {asked : Nat} {entries : Snapshot} {complete : List String} {x : Item} {d : Nat}
    (hd : (m.load asked entries complete).tick.Dates x d) : m.Dates x d ∨ d = asked := by
  rcases dates_tick.1 hd with hd | hd
  · cases x with
    | block k => exact .inl (.inl hd)
    | entry q =>
      simp only [cachedAt, load, Option.map_map, Option.map_eq_some_iff] at hd
      obtain ⟨v, -, rfl⟩ := hd
      exact .inr rfl
    | listing q =>
      simp only [cachedAt, load, Option.map_eq_some_iff] at hd
      obtain ⟨v, hv, rfl⟩ := hd
      split at hv
      · cases hv
        exact .inr rfl
      · cases hv
  · cases x <;> exact .inl (.inr hd)

theorem block_prefetched {asked : Nat} {files : List (String × Bytes)} {st : BlockStore} {k : BlockKey} {b : Block}
    (h : (files.foldl (fun st f => st.insert (f.1, 0) ⟨f.2, asked⟩ 0) st).block k = some b) :
    st.block k = some b ∨ b.readAt = asked := by
  induction files generalizing st with
  | nil => exact .inl h
  | cons f files ih =>
    rcases ih h with h | h
    · rcases BlockStore.block_insert h with h | ⟨-, rfl, -⟩
      · exact .inl h
      · exact .inr rfl
    · exact .inr h

theorem Mount.dates_prefetch {asked : Nat} {files : List (String × Bytes)} {x : Item} {d : Nat} (hq : m.Quiet)
    (hd : (m.prefetch asked files).tick.Dates x d) : m.Dates x d ∨ d = asked := by
  rcases dates_tick.1 hd with hd | hd
  · cases x with
    | block k =>
      simp only [cachedAt, prefetch, withStore, Option.map_eq_some_iff] at hd
      obtain ⟨b, hb, rfl⟩ := hd
      rcases block_prefetched hb with hb | hb
      · exact .inl (.inl (by simp [cachedAt, hb]))
      · exact .inr hb
    | entry q => exact .inl (.inl hd)
    | listing q => exact .inl (.inl hd)
  · cases x with
    | block k =>
      obtain ⟨t, f, g, ht, -⟩ := hd
      have ht : m.cache.threads t = some f := ht
      rw [hq.cache t] at ht
      cases ht
    | entry q => exact .inl (.inr hd)
    | listing q => exact .inl (.inr hd)

/-- A quiet mount gets values that were read after the changes the cursor is past. -/
theorem FeedThread.PastInv.filled {t : FeedThread} (asked : Nat) (hi : t.PastInv client) (hloop : t.loop = .idle)
    (hq : m.Quiet) (hnow : t.mount.now ≤ m.now) (hchunks : m.chunks = t.mount.chunks)
    (hdates : ∀ x d, m.Dates x d → t.mount.Dates x d ∨ d = asked)
    (hasked : t.last.1 = t.epoch → ∀ e ∈ t.known client t.last.2, e.madeAt ≤ asked) : (t.withMount m).PastInv client := by
  refine ⟨hi.feed, hq.feedInv, hi.epoch, fun e he => Nat.le_trans (hi.made e he) hnow, hi.last, hi.cursor, ?_, ?_⟩
  · intro hl e he x hx
    rcases hi.past hl e he x hx with hf | hc
    · refine .inl fun d hd => ?_
      rcases hdates x d hd with hd | rfl
      · exact hf d hd
      · exact hasked hl e he
    · refine .inr ?_
      cases x with
      | block k =>
        obtain ⟨c, pl, hmem, hc⟩ := hc
        exact ⟨c, pl, hchunks ▸ hmem, hc⟩
      | entry q => exact hc
      | listing d => exact hc
  · show FeedThread.LoopInv client _ t.loop
    rw [hloop]
    exact hq.feedThread

/-! ## Steps -/

/-- A change is recorded, or another daemon comes, before the mount runs. -/
theorem StartInv.feedStep {a : FeedThreadAct} {t : FeedThread} (hi : StartInv client s) (hrun : s.phase ≠ .running)
    (ha : s.phase.allows a = true) (h : s.thread.step ignore client a = some t) : StartInv client ⟨t, s.phase⟩ := by
  obtain ⟨hq, hloop⟩ := hi.quiet hrun
  have hguard : s.thread.Guard ignore client a := by
    cases a with
    | wake live expired => cases hp : s.phase <;> simp [hp, StartPhase.allows] at ha hrun
    | run => cases hp : s.phase <;> simp [hp, StartPhase.allows] at ha hrun
    | _ => trivial
  have hpast := hi.past.step hguard h
  -- Either way the mount only sees the clock tick.
  obtain ⟨hmount, hl, hlast, hknown⟩ : t.mount = s.thread.mount.tick ∧ t.loop = s.thread.loop ∧ t.last = s.thread.last ∧
      (t.last.1 = t.epoch → s.thread.last.1 = s.thread.epoch ∧
        t.known client t.last.2 = s.thread.known client s.thread.last.2) := by
    cases a with
    | record a made =>
      simp only [FeedThread.step] at h
      split at h
      · rename_i hmade
        cases h
        refine ⟨rfl, rfl, rfl, fun he => ⟨he, ?_⟩⟩
        exact (FeedThread.grows_record hi.past hmade).known (hi.past.cursor he)
      · cases h
    | restart epoch =>
      simp only [FeedThread.step] at h
      split at h
      · cases h
      · rename_i hnew
        cases h
        refine ⟨rfl, rfl, rfl, fun he => absurd hi.past.last ?_⟩
        rw [show s.thread.last.1 = epoch from he]
        exact hnew
    | _ => cases hp : s.phase <;> simp [hp, StartPhase.allows] at ha hrun
  refine ⟨hpast, fun _ => ⟨?_, hl.trans hloop⟩, fun hp x d => ?_, fun T hT => ?_⟩
  · rw [hmount]
    exact hq.tick
  · rw [hmount, Mount.dates_tick]
    exact hi.empty hp x d
  · obtain ⟨hle, hbefore⟩ := hi.asked T hT
    refine ⟨by rw [hmount]; exact Nat.le_succ_of_le hle, fun he e hmem => ?_⟩
    obtain ⟨he', hk⟩ := hknown he
    exact hbefore he' e (hk ▸ hmem)

/-- The cursor of the feed is past everything recorded so far, and nothing is cached yet. -/
theorem StartInv.watch {live : Bool} (hi : StartInv client s) (h : s.step ignore client (.watch live) = some s') :
    StartInv client s' := by
  simp only [MountRun.step] at h
  split at h
  · rename_i hp
    cases h
    obtain ⟨hq, hloop⟩ := hi.quiet (by simp [hp])
    have hempty := hi.empty hp
    have hreply : s.thread.feed.waitNow s.thread.epoch live client 0 none =
        ⟨s.thread.epoch, s.thread.feed.nextSeq - 1, [], false, live⟩ := rfl
    have hcur : s.thread.feed.nextSeq - 1 = s.thread.feed.log.length := by
      rw [hi.past.feed.nextSeq, Nat.add_sub_cancel]
    simp only [hreply, hcur]
    have hpast : FeedThread.PastInv client { s.thread with
        mount := s.thread.mount.tick, last := (s.thread.epoch, s.thread.feed.log.length) } := by
      refine ⟨hi.past.feed, hq.tick.feedInv, hi.past.epoch, fun e he => Nat.le_succ_of_le (hi.past.made e he),
        hi.past.epoch, fun _ => Nat.le_refl _, ?_, ?_⟩
      · exact fun _ e _ x _ => .inl fun d hd => absurd (Mount.dates_tick.1 hd) (hempty x d)
      · show FeedThread.LoopInv client _ s.thread.loop
        rw [hloop]
        exact hq.tick.feedThread
    exact ⟨hpast, fun _ => ⟨hq.tick, hloop⟩, fun hp => (by cases hp), fun T hT => (by cases hT)⟩
  · cases h

/-- A request is sent: all changes the cursor is past were made before. -/
theorem StartInv.asks {phase : StartPhase} (hi : StartInv client s) (hrun : s.phase ≠ .running) (hconn : phase ≠ .connected)
    (hasked : phase.asked = some s.thread.mount.now) : StartInv client (s.ticked phase) := by
  obtain ⟨hq, hloop⟩ := hi.quiet hrun
  have hpast : (s.ticked phase).thread.PastInv client := by
    refine hi.past.filled s.thread.mount.now hloop hq.tick (Nat.le_succ _) rfl ?_ ?_
    · exact fun x d hd => .inl (Mount.dates_tick.1 hd)
    · exact fun he e hmem => hi.past.made e (FeedThread.known_mono hi.past.feed (hi.past.cursor he) hmem)
  refine ⟨hpast, fun _ => ⟨hq.tick, hloop⟩, fun hp => absurd hp hconn, fun T hT => ?_⟩
  rw [show phase.asked = some T from hT, Option.some.injEq] at hasked
  subst hasked
  exact ⟨Nat.le_succ _, fun he e hmem => hi.past.made e (FeedThread.known_mono hi.past.feed (hi.past.cursor he) hmem)⟩

/-- A request is answered. -/
theorem StartInv.fills (asked : Nat) {phase : StartPhase} (hi : StartInv client s) (hp : s.phase.asked = some asked)
    (hq : m.Quiet) (hnow : s.thread.mount.now ≤ m.now) (hchunks : m.chunks = s.thread.mount.chunks)
    (hdates : ∀ x d, m.Dates x d → s.thread.mount.Dates x d ∨ d = asked) (hconn : phase ≠ .connected)
    (hnone : phase.asked = none) : StartInv client ⟨s.thread.withMount m, phase⟩ := by
  have hrun : s.phase ≠ .running := by
    intro he
    rw [he] at hp
    cases hp
  obtain ⟨-, hloop⟩ := hi.quiet hrun
  refine ⟨hi.past.filled asked hloop hq hnow hchunks hdates (hi.asked asked hp).2, fun _ => ⟨hq, hloop⟩,
    fun hc => absurd hc hconn, fun T hT => ?_⟩
  rw [show phase.asked = some T from hT] at hnone
  cases hnone

theorem StartInv.step {a : MountRunAct} (hi : StartInv client s) (hg : s.Guard ignore client a)
    (h : s.step ignore client a = some s') : StartInv client s' := by
  cases a with
  | thread a =>
    simp only [MountRun.step] at h
    split at h
    · rename_i ha
      obtain ⟨t, ht, rfl⟩ := Option.map_eq_some_iff.1 h
      by_cases hrun : s.phase = .running
      · refine ⟨hi.past.step hg ht, fun hne => absurd hrun hne, fun hp => ?_, fun T hT => ?_⟩
        · rw [hrun] at hp
          cases hp
        · rw [hrun] at hT
          cases hT
      · exact hi.feedStep hrun ha ht
    · cases h
  | watch live => exact hi.watch h
  | askSnapshot =>
    simp only [MountRun.step] at h
    split at h
    · rename_i hp
      cases h
      exact hi.asks (by simp [hp]) (by simp) rfl
    · cases h
  | snapshot entries complete =>
    simp only [MountRun.step] at h
    split at h
    · rename_i asked hp
      cases h
      obtain ⟨hq, -⟩ := hi.quiet (by simp [hp])
      exact hi.fills asked (by rw [hp]; rfl) (Mount.Quiet.tick
        ⟨hq.calls, hq.cache, hq.queue, hq.feeding, hq.applied, hq.passedOver⟩)
        (Nat.le_succ _) rfl (fun x d hd => Mount.dates_load hd) (by simp) rfl
    · cases h
  | askFiles =>
    simp only [MountRun.step] at h
    split at h
    · rename_i hp
      cases h
      exact hi.asks (by simp [hp]) (by simp) rfl
    · cases h
  | files files =>
    simp only [MountRun.step] at h
    split at h
    · rename_i asked hp
      cases h
      obtain ⟨hq, -⟩ := hi.quiet (by simp [hp])
      exact hi.fills asked (by rw [hp]; rfl) (Mount.Quiet.tick
        ⟨hq.calls, hq.cache, hq.queue, hq.feeding, hq.applied, hq.passedOver⟩)
        (Nat.le_succ _) rfl (fun x d hd => Mount.dates_prefetch hq hd) (by simp) rfl
    · cases h

/-- From the start on nothing older than a change of another client that the feed cursor is
past is in a cache, or on the way into one. Where the daemon was started anew, that is so of
the changes of all earlier daemons as soon as the reset has been dealt with. -/
theorem started_leaves_nothing_older (ignore : List String) (client capacity epoch : Nat) (s : MountRun)
    (as : List MountRunAct)
    (hg : Guarded (MountRun.step ignore client) (MountRun.Guard ignore client) (.start capacity epoch) as)
    (h : exec (MountRun.step ignore client) (.start capacity epoch) as = some s)
    (hlast : s.thread.last.1 = s.thread.epoch) (e : FeedEvent) (he : e ∈ s.thread.known client s.thread.last.2) (x : Item)
    (hx : EventNames e x) : (∀ d, s.thread.mount.Dates x d → e.madeAt ≤ d) ∨ s.thread.mount.Covered x := by
  have hi : StartInv client s :=
    exec_guarded_inv (StartInv client) (fun _ _ _ hi hg hs => hi.step hg hs) (startInv_start client capacity epoch) hg h
  exact hi.past.past hlast e he x hx

end Runs

/-! ## A daemon that is started anew -/

namespace MountRun

variable {ignore : List String} {client : Nat} {s s' : MountRun}

/-- No call of the mount is under way. -/
structure Still (s : MountRun) : Prop where
  calls : ∀ t, s.thread.mount.calls t = none
  threads : ∀ t, s.thread.mount.cache.threads t = none

theorem Still.held (h : s.Still) (x : Item) (d : Nat) : ¬ s.thread.mount.Held x d := by
  cases x with
  | block k =>
    rintro ⟨t, f, g, ht, -⟩
    rw [h.threads t] at ht
    cases ht
  | entry q =>
    rintro ⟨t, c, ht, -⟩
    rw [h.calls t] at ht
    cases ht
  | listing q =>
    rintro ⟨t, c, ht, -⟩
    rw [h.calls t] at ht
    cases ht

def ofCall : MountRunAct → Bool
  | .thread (.mount _) => true
  | _ => false

/-- The caches are emptied, and no entry has a buffered write. -/
def empties (s : MountRun) : MountRunAct → Bool
  | .thread (.wake _ _) => false
  | .thread .run =>
    match s.thread.loop with
    | .clearing _ (.metas kept :: _) => kept.isEmpty
    | .clearing _ _ => true
    | _ => false
  | _ => true

theorem guard_of_empties {a : MountRunAct} (hs : s.Still) (h : s.empties a = true) : s.Guard ignore client a := by
  cases a with
  | thread a =>
    cases a with
    | wake live expired => cases h
    | run =>
      simp only [Guard, FeedThread.Guard]
      simp only [empties] at h
      cases hl : s.thread.loop with
      | clearing r todo =>
        rw [hl] at h
        cases todo with
        | nil => trivial
        | cons c rest =>
          intro e _ x d _ hleaves
          exfalso
          cases c with
          | pending => cases x <;> exact hleaves
          | metas kept =>
            cases x with
            | entry q =>
              rcases hleaves with hheld | ⟨hq, -⟩
              · exact hs.held (.entry q) d hheld
              · rw [List.isEmpty_iff.1 h] at hq
                cases hq
            | listing q => exact hleaves
            | block k => exact hleaves
          | dirs =>
            cases x with
            | listing q => exact hs.held (.listing q) d hleaves
            | entry q => exact hleaves
            | block k => exact hleaves
          | blocks =>
            cases x with
            | block k => exact hs.held (.block k) d hleaves.1
            | entry q => exact hleaves
            | listing q => exact hleaves
      | _ =>
        rw [hl] at h
        cases h
    | _ => trivial
  | _ => trivial

/-- The feed thread leaves the calls of the others alone. -/
theorem calls_feed {m m' : Mount} {a : MountAct} (ha : a = .feed ∨ a = .feedRun) (h : m.step ignore a = some m') :
    m'.calls = m.calls ∧ m'.cache.threads = m.cache.threads := by
  obtain ⟨m1, h1, rfl⟩ := Option.map_eq_some_iff.1 h
  rcases ha with rfl | rfl
  · simp only [Mount.act] at h1
    split at h1
    · split at h1 <;> cases h1 <;> exact ⟨rfl, rfl⟩
    · cases h1
  · obtain ⟨f, -, rfl⟩ := Option.map_eq_some_iff.1 h1
    cases f with
    | lookBuffers e =>
      simp only [Mount.feedNext]
      split <;> exact ⟨rfl, rfl⟩
    | lookUploads e =>
      simp only [Mount.feedNext]
      split <;> exact ⟨rfl, rfl⟩
    | sweeping e todo =>
      cases todo with
      | nil => exact ⟨rfl, rfl⟩
      | cons w rest => cases w <;> exact ⟨rfl, rfl⟩

theorem calls_thread {t t' : FeedThread} {a : FeedThreadAct} (ha : ∀ b, a ≠ .mount b)
    (h : t.step ignore client a = some t') :
    t'.mount.calls = t.mount.calls ∧ t'.mount.cache.threads = t.mount.cache.threads := by
  have hreplied : ∀ r, (t.replied client r).mount.calls = t.mount.calls ∧
      (t.replied client r).mount.cache.threads = t.mount.cache.threads := by
    intro r
    unfold FeedThread.replied
    split <;> exact ⟨rfl, rfl⟩
  cases a with
  | mount b => exact absurd rfl (ha b)
  | record b made =>
    simp only [FeedThread.step] at h
    split at h <;> cases h
    exact ⟨rfl, rfl⟩
  | restart epoch =>
    simp only [FeedThread.step] at h
    split at h <;> cases h
    exact ⟨rfl, rfl⟩
  | fails =>
    simp only [FeedThread.step] at h
    split at h <;> cases h <;> exact ⟨rfl, rfl⟩
  | poll live expired =>
    simp only [FeedThread.step] at h
    split at h
    · split at h
      · cases h
        exact hreplied _
      · split at h <;> cases h
        · exact hreplied _
        · exact ⟨rfl, rfl⟩
    · cases h
  | wake live expired =>
    simp only [FeedThread.step] at h
    split at h
    · split at h
      · split at h <;> cases h
        · exact hreplied _
        · exact ⟨rfl, rfl⟩
      · cases h
    · cases h
  | run =>
    simp only [FeedThread.step] at h
    split at h
    · split at h
      · cases h
        exact ⟨rfl, rfl⟩
      · obtain ⟨m, hm, rfl⟩ := Option.map_eq_some_iff.1 h
        refine calls_feed ?_ hm
        unfold FeedThread.nextFeed
        split
        · exact .inr rfl
        · exact .inl rfl
    · cases h
      exact ⟨rfl, rfl⟩
    · rename_i c rest hl
      cases h
      cases c <;> exact ⟨rfl, rfl⟩
    · cases h

theorem Still.step {a : MountRunAct} (hs : s.Still) (ha : ofCall a = false) (h : s.step ignore client a = some s') :
    s'.Still := by
  obtain ⟨hc, ht⟩ : s'.thread.mount.calls = s.thread.mount.calls ∧
      s'.thread.mount.cache.threads = s.thread.mount.cache.threads := by
    cases a with
    | thread a =>
      simp only [MountRun.step] at h
      split at h
      · obtain ⟨t, ht, rfl⟩ := Option.map_eq_some_iff.1 h
        refine calls_thread (fun b hb => ?_) ht
        subst hb
        cases ha
      · cases h
    | _ =>
      simp only [MountRun.step] at h
      split at h <;> cases h
      exact ⟨rfl, rfl⟩
  exact ⟨fun t => by rw [hc, hs.calls t], fun t => by rw [ht, hs.threads t]⟩

theorem still_start (capacity epoch : Nat) : (start capacity epoch).Still := ⟨fun _ => rfl, fun _ => rfl⟩

theorem guarded_of_empties {capacity epoch : Nat} {as : List MountRunAct} (ha : ∀ a ∈ as, ofCall a = false)
    (h : checkRun (step ignore client) empties (start capacity epoch) as = true) :
    Guarded (step ignore client) (Guard ignore client) (start capacity epoch) as :=
  guarded_of_checkRun Still (fun a => ofCall a = false) empties (fun _ _ _ hs ha h => hs.step ha h)
    (fun _ _ hs _ h => guard_of_empties hs h) (still_start capacity epoch) ha h

/-- Another client writes to `f` once the mount runs, and before the poll the daemon is started
anew. -/
def restarted : List MountRunAct :=
  [.watch true, .askSnapshot, .snapshot ((∅ : Snapshot).insert "f" Mount.aFile) [""], .askFiles, .files [],
    .thread (.record (.record 0 none 9 "f" (.write 0 1)) 5), .thread (.restart 1), .thread (.poll true true)] ++
    List.replicate 5 (.thread .run)

end MountRun

theorem started_leaves_nothing_older_restart : ∃ s e, exec (MountRun.step [] 7) (.start 0 0) MountRun.restarted = some s ∧
    e ∈ s.thread.known 7 s.thread.last.2 ∧ e.madeAt = 5 ∧
    ((∀ d, s.thread.mount.Dates (.entry e.event.path) d → e.madeAt ≤ d) ∨ s.thread.mount.Covered (.entry e.event.path)) := by
  have hrun : (exec (MountRun.step [] 7) (.start 0 0) MountRun.restarted).any fun s =>
      s.thread.last.1 = s.thread.epoch && (s.thread.known 7 s.thread.last.2).head?.any fun e =>
        e.event = ⟨"f", .write 0 1⟩ && e.madeAt = 5 := by
    decide
  obtain ⟨s, hs, hrun⟩ := (Option.any_eq_true _ _).1 hrun
  obtain ⟨hlast, hrun⟩ := Bool.and_eq_true_iff.1 hrun
  obtain ⟨e, he, hrun⟩ := (Option.any_eq_true _ _).1 hrun
  obtain ⟨hev, hmade⟩ := Bool.and_eq_true_iff.1 hrun
  have hmem := List.mem_of_mem_head? he
  refine ⟨s, e, hs, hmem, of_decide_eq_true hmade, ?_⟩
  refine started_leaves_nothing_older [] 7 0 0 s _ (MountRun.guarded_of_empties (by decide) (by decide)) hs
    (of_decide_eq_true hlast) e hmem _ ⟨.entry e.event.path, ?_, rfl⟩
  rw [of_decide_eq_true hev]
  exact List.mem_cons_of_mem _ List.mem_cons_self

end Mobfs
