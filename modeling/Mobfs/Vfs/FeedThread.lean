import Mobfs.Changes.Polls
import Mobfs.Vfs.Coherence
/-!
# The thread of the change feed

`run_change_feed` polls the daemon with the epoch and the cursor of the last reply, applies
the events of the reply, or empties all caches when the reply is a reset, and only then takes
over the reply's cursor. A poll that fails leaves both as they are.

Here the thread, the feed it polls and the caches of the mount make one system: changes are
recorded some time after they were made, polls wait, fail and are answered, and the daemon
may be started anew, with an epoch of its own and an empty feed.
-/

namespace Mobfs

open Lib Changes

/-- The critical sections for the event take the value out of the place. -/
def EventNames (e : FeedEvent) (x : Item) : Prop := ∃ w ∈ e.event.sweeps, w.Clears x

/-- A critical section of `invalidate_all`. -/
inductive Clearing where
  | pending
  | metas (pending : List String)
  | dirs
  | blocks

/-- Where `run_change_feed` is. A poll waits in the daemon with that epoch. -/
inductive FeedLoop where
  | idle
  | waiting (epoch : Nat)
  | applying (r : WaitResult)
  | clearing (r : WaitResult) (todo : List Clearing)

/-- `epoch` and `feed` are the daemon's, `last` the epoch and the cursor that the next poll
passes. `used`: the epochs of all daemons so far. `madeAt`: when the change with that number
was made. `earlier`: the changes of others that earlier daemons recorded. -/
structure FeedThread where
  epoch : Nat
  used : List Nat
  feed : FeedState
  madeAt : Nat → Nat
  earlier : List FeedEvent
  mount : Mount
  last : Nat × Nat
  live : Bool
  loop : FeedLoop

inductive FeedThreadAct where
  /-- What the other threads of the mount do. -/
  | mount (a : MountAct)
  /-- A change that was made at that time reaches the feed. -/
  | record (a : FeedAct) (made : Nat)
  | restart (epoch : Nat)
  | poll (live expired : Bool)
  | wake (live expired : Bool)
  | fails
  /-- The next critical section of the feed thread. -/
  | run

def MountAct.ofFeed : MountAct → Bool
  | .change _ | .feed | .feedRun => true
  | _ => false

namespace Mount

def tick (s : Mount) : Mount := { s with cache := { s.cache with now := s.now + 1 } }

/-- The paths with a buffered write. -/
def buffered (s : Mount) : List String := (s.chunks.filter fun c => c.2 = .buffered).map (·.1.path)

def retain (s : Mount) (pending : List String) : Mount :=
  { s with metas := fun q => if q ∈ pending then s.metas q else none }

def clearDirs (s : Mount) : Mount := { s with dirs := fun _ => none }

end Mount

namespace FeedThread

def dated (s : FeedThread) (r : Changes.Recorded) : FeedEvent := ⟨r.event, s.madeAt r.seq⟩

/-- The changes of others with a number above `a` and up to `b`. -/
def arrived (client : Nat) (s : FeedThread) (a b : Nat) : List FeedEvent :=
  ((s.feed.log.filter fun r => a < r.seq ∧ r.seq ≤ b).filter fun r => Foreign client r).map s.dated

/-- The changes of others up to that cursor, those of earlier daemons among them. -/
def known (client : Nat) (s : FeedThread) (cursor : Nat) : List FeedEvent := s.earlier ++ s.arrived client 0 cursor

/-- A reply has come. -/
def replied (client : Nat) (s : FeedThread) (r : WaitResult) : FeedThread :=
  if r.reset then { s with mount := s.mount.tick, loop := .clearing r [.pending, .dirs, .blocks] }
  else
    { s with
      mount := { s.mount.tick with
        queue := List.zipWith FeedEvent.mk r.events ((s.arrived client s.last.2 r.cursor).map (·.madeAt)) }
      loop := .applying r }

/-- The reply is dealt with. -/
def finish (s : FeedThread) (r : WaitResult) : FeedThread :=
  { s with mount := s.mount.tick, live := r.live, last := (r.epoch, r.cursor), loop := .idle }

def clear (s : FeedThread) (r : WaitResult) (rest : List Clearing) : Clearing → FeedThread
  | .pending => { s with mount := s.mount.tick, loop := .clearing r (.metas s.mount.buffered :: rest) }
  | .metas pending => { s with mount := (s.mount.retain pending).tick, loop := .clearing r rest }
  | .dirs => { s with mount := s.mount.clearDirs.tick, loop := .clearing r rest }
  | .blocks => { s with mount := (s.mount.withStore s.mount.cache.store.clear).tick, loop := .clearing r rest }

def withMount (s : FeedThread) (m : Mount) : FeedThread := { s with mount := m }

/-- The feed thread turns to the next event, or goes on with the one at hand. -/
def nextFeed (s : FeedThread) : MountAct := if s.mount.feeding.isSome then .feedRun else .feed

def step (ignore : List String) (client : Nat) (s : FeedThread) : FeedThreadAct → Option FeedThread
  | .mount a => if a.ofFeed then none else (s.mount.step ignore a).map s.withMount
  | .record a made =>
    if made ≤ s.mount.now then
      some { s with
        feed := s.feed.change a
        madeAt := Function.update s.madeAt s.feed.nextSeq made
        mount := s.mount.tick }
    else none
  | .restart epoch =>
    if epoch ∈ s.used then none
    else
      some { s with
        epoch
        used := epoch :: s.used
        feed := .new
        earlier := s.known client s.feed.log.length
        mount := s.mount.tick }
  | .poll live expired =>
    match s.loop with
    | .idle =>
      match s.feed.enter s.epoch live s.last.1 (some s.last.2) with
      | some r => some (s.replied client r)
      | none =>
        match s.feed.turn s.epoch live client s.last.2 expired with
        | some r => some (s.replied client r)
        | none => some { s with mount := s.mount.tick, loop := .waiting s.epoch }
    | _ => none
  | .wake live expired =>
    match s.loop with
    | .waiting epoch =>
      if epoch = s.epoch then
        match s.feed.turn s.epoch live client s.last.2 expired with
        | some r => some (s.replied client r)
        | none => some (s.withMount s.mount.tick)
      else none
    | _ => none
  | .fails =>
    match s.loop with
    | .idle | .waiting _ => some { s with mount := s.mount.tick, live := false, loop := .idle }
    | _ => none
  | .run =>
    match s.loop with
    | .applying r =>
      if s.mount.feeding.isNone && s.mount.queue.isEmpty then some (s.finish r)
      else (s.mount.step ignore s.nextFeed).map s.withMount
    | .clearing r [] => some (s.finish r)
    | .clearing r (c :: rest) => some (s.clear r rest c)
    | _ => none

end FeedThread

/-! ## Replies to polls that have waited -/

namespace Changes

variable {st : FeedState}

/-- Recording appends one entry, or none. -/
theorem FeedState.log_change_one (st : FeedState) (a : FeedAct) :
    (st.change a).log = st.log ∨ ∃ r, (st.change a).log = st.log ++ [r] ∧ r.seq = st.nextSeq := by
  cases a with
  | record now current origin path kind => exact .inr ⟨_, rfl, rfl⟩
  | fsEvent now current path =>
    simp only [FeedState.change, FeedState.push, Bool.false_eq_true, if_false]
    by_cases hb : st.busy.contains path = true
    · exact .inl (by rw [if_pos hb])
    · rw [if_neg hb]
      by_cases he : st.echoes now current path = true
      · exact .inl (by rw [if_pos he])
      · rw [if_neg he]
        exact .inr ⟨_, rfl, rfl⟩
  | beginWrite path => exact .inl rfl
  | endWrite path =>
    simp only [FeedState.change, FeedState.endWrite]
    cases st.busy[path]? <;> exact .inl rfl

/-- The events above the cursor that are gone are the client's own: the page lacks nothing. -/
theorem FeedInv.turn_foreign (h : FeedInv st) {epoch : Nat} {live : Bool} {client since : Nat} {expired : Bool}
    {r : WaitResult} (hs : since ≤ st.log.length)
    (hgone : ∀ e ∈ st.log, since < e.seq → Foreign client e → st.log.length < e.seq + maxEvents)
    (hr : st.turn epoch live client since expired = some r) :
    r.epoch = epoch ∧ r.reset = false ∧ since ≤ r.cursor ∧ r.cursor ≤ st.log.length ∧
    r.events = ((st.log.filter fun x => since < x.seq ∧ x.seq ≤ r.cursor).filter fun x => Foreign client x).map
      Changes.Recorded.event := by
  simp only [FeedState.turn, Option.ite_none_right_eq_some, Option.some.injEq] at hr
  obtain ⟨-, rfl⟩ := hr
  -- What is skipped of the stored events, and what is no longer stored, ends at `m`.
  obtain ⟨m, hm, hmlen, hlow, hskip⟩ : ∃ m, since ≤ m ∧ m ≤ st.log.length ∧
      (∀ e ∈ st.log, since < e.seq → e.seq ≤ m → ¬ Foreign client e) ∧
      st.events.drop (since + 1 - st.oldest) = st.log.drop m := by
    refine ⟨max since (st.log.length - maxEvents), Nat.le_max_left _ _, by omega, ?_, ?_⟩
    · intro e he hlt hle hfor
      have := hgone e he hlt hfor
      omega
    · have hm : st.log.length - maxEvents + (since + 1 - (st.log.length - maxEvents + 1)) =
          max since (st.log.length - maxEvents) := by omega
      rw [h.oldest, h.stored, List.drop_drop, hm]
  rw [hskip]
  obtain ⟨k, hk, hev, hcur⟩ := collect_spec client (st.log.drop m) [] (st.nextSeq - 1)
  have hnext := h.nextSeq
  rw [List.length_drop] at hk hcur
  have hcursor : (FeedState.collect client [] (st.nextSeq - 1) (st.log.drop m)).2 = m + k := by
    rcases hcur with ⟨hall, hc⟩ | ⟨x, hx, hc⟩
    · rw [hc]
      omega
    · rw [List.getElem?_drop] at hx
      rw [hc, h.numbered _ x hx]
      omega
  have hown : (st.log.filter fun x => since < x.seq ∧ x.seq ≤ m).filter (fun x => Foreign client x) = [] := by
    rw [List.filter_eq_nil_iff]
    intro x hx
    obtain ⟨hx, hr⟩ := List.mem_filter.1 hx
    obtain ⟨h1, h2⟩ := of_decide_eq_true hr
    simpa using hlow x hx h1 h2
  refine ⟨rfl, rfl, by simp only [hcursor]; omega, by simp only [hcursor]; omega, ?_⟩
  simp only [hcursor]
  rw [h.numbered.between_append hm (Nat.le_add_right m k), List.filter_append, hown, List.nil_append,
    h.numbered.between (Nat.le_add_right m k), Nat.add_sub_cancel_left, hev, List.nil_append]

end Changes

/-! ## Mounts with fewer values -/

namespace Mount

variable {X : FeedEvent → Item → Prop} {s s' : Mount} {e : FeedEvent} {ignore : List String}

/-- No place holds a value that it did not hold before, and no local write has ended. -/
structure Thins (s s' : Mount) : Prop where
  dates : ∀ x d, s'.Dates x d → s.Dates x d
  chunks : s'.chunks = s.chunks
  gens : s.cache.GenInv → s'.cache.GenInv
  now : s.now ≤ s'.now

theorem Thins.fresh {T : Nat} {x : Item} (h : s.Thins s') (hf : s.FreshSince T x) : s'.FreshSince T x :=
  fun d hd => hf d (h.dates x d hd)

theorem Thins.covered {x : Item} (h : s.Thins s') (hc : s.Covered x) : s'.Covered x := by
  cases x with
  | block k =>
    obtain ⟨c, pl, hmem, hc⟩ := hc
    exact ⟨c, pl, h.chunks ▸ hmem, hc⟩
  | entry q => exact hc
  | listing q => exact hc

theorem Thins.settled (h : s.Thins s') (hs : Settled X s e) : Settled X s' e :=
  fun x hx => (hs x hx).imp h.fresh h.covered

theorem FeedInv.thins (hi : FeedInv X s) (h : s.Thins s') (hq : ∀ e ∈ s'.queue, e.madeAt ≤ s'.now)
    (hf : s'.feeding = s.feeding) (ha : s'.applied = s.applied) (hp : s'.passedOver = s.passedOver) : FeedInv X s' := by
  have hnow := h.now
  refine ⟨h.gens hi.gens, hq, ?_, ?_, ?_, ?_⟩
  · intro f hfd
    exact Nat.le_trans (hi.feeding f (hf ▸ hfd)) hnow
  · intro e todo hfd x hx
    exact (hi.sweeping e todo (hf ▸ hfd) x hx).imp_left h.fresh
  · intro e he
    obtain ⟨hT, hfr⟩ := hi.applied e (ha ▸ he)
    exact ⟨Nat.le_trans hT hnow, fun x hx => h.fresh (hfr x hx)⟩
  · intro e he
    obtain ⟨hT, hs⟩ := hi.passedOver e (hp ▸ he)
    exact ⟨Nat.le_trans hT hnow, h.settled hs⟩

theorem dates_tick {x : Item} {d : Nat} : s.tick.Dates x d ↔ s.Dates x d := by
  cases x <;> exact Iff.rfl

theorem Thins.tick (h : s.Thins s') : s.Thins s'.tick :=
  ⟨fun x d hd => h.dates x d (dates_tick.1 hd), h.chunks, h.gens, Nat.le_succ_of_le h.now⟩

theorem Thins.refl (s : Mount) : s.Thins s := ⟨fun _ _ => id, rfl, id, Nat.le_refl _⟩

theorem thins_retain (s : Mount) (pending : List String) : s.Thins (s.retain pending) := by
  refine ⟨fun x d hd => ?_, rfl, id, Nat.le_refl _⟩
  cases x with
  | entry q =>
    refine hd.imp (fun hd => ?_) id
    simp only [cachedAt, retain] at hd ⊢
    split at hd
    · exact hd
    · cases hd
  | listing q => exact hd
  | block k => exact hd

theorem thins_clearDirs (s : Mount) : s.Thins s.clearDirs := by
  refine ⟨fun x d hd => ?_, rfl, id, Nat.le_refl _⟩
  cases x with
  | entry q => exact hd
  | listing q =>
    refine hd.imp (fun hd => ?_) id
    cases hd
  | block k => exact hd

/-- Of the blocks, `clear` leaves those that a fetch has read on a path without a block in
the cache: the generation of such a path is not advanced. -/
theorem dates_clear {k : BlockKey} {d : Nat} (hg : s.cache.GenInv)
    (hd : (s.withStore s.cache.store.clear).Dates (.block k) d) :
    s.Held (.block k) d ∧ ¬ s.cache.store.Cached k.1 := by
  rcases hd with hd | ⟨t, f, g, ht, hf, hgen⟩
  · simp [cachedAt, withStore, BlockStore.block_clear] at hd
  · have hle := hg t f k.1 g ht (BlockCache.claim_of_inserting hf)
    obtain ⟨hadv, hmono⟩ := @BlockStore.generations_clear s.cache.store k.1
    have hgen : g = s.cache.store.clear.generations k.1 := hgen
    refine ⟨⟨t, f, g, ht, hf, by omega⟩, fun hc => ?_⟩
    have := hadv hc
    omega

theorem thins_clear (s : Mount) (hg : s.cache.GenInv) : s.Thins (s.withStore s.cache.store.clear) := by
  refine ⟨fun x d hd => ?_, rfl, fun hg t x p g ht hc => ?_, Nat.le_refl _⟩
  · cases x with
    | block k => exact .inr (dates_clear hg hd).1
    | entry q => exact hd
    | listing q => exact hd
  · exact Nat.le_trans (hg t x p g ht hc) (BlockStore.generations_clear p).2

end Mount

end Mobfs
