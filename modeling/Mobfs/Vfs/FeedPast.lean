import Mobfs.Vfs.FeedThread
/-!
# What the feed thread leaves behind

`PastInv`: the caches have nothing older than a change of another client that the cursor is
past, and what is still to be done with a reply leads to the same for its own cursor. A
reply that is a reset is past everything recorded so far, by earlier daemons too. `Guard` is
what the code does not see to: answers under way when a change is applied or the caches are
emptied (entries and listings have no generation), and changes dropped from the feed while
a poll waits.
-/

namespace Mobfs

open Lib Changes

/-! ## What the cursor is past -/

/-- The critical section takes the value out of the place, or leaves that to the next one. -/
def Clearing.Clears : Clearing → Item → Prop
  | .pending, .entry _ | .metas _, .entry _ | .dirs, .listing _ | .blocks, .block _ => True
  | _, _ => False

/-- The section that it adds to those that are left. -/
def Clearing.adds (s : Mount) : Clearing → List Clearing
  | .pending => [.metas s.buffered]
  | _ => []

/-- The critical section leaves a value of that date for the place: in the hands of a call, in
an entry with a buffered write, or read by a fetch on a path without a block in the cache. -/
def Clearing.Leaves (s : Mount) : Clearing → Item → Nat → Prop
  | .metas kept, .entry q, d => s.Held (.entry q) d ∨ q ∈ kept ∧ s.cachedAt (.entry q) = some d
  | .dirs, .listing q, d => s.Held (.listing q) d
  | .blocks, .block k, d => s.Held (.block k) d ∧ ¬ s.cache.store.Cached k.1
  | _, _, _ => False

namespace FeedThread

variable {ignore : List String} {client : Nat} {s s' : FeedThread}

/-- While a poll waits, no change of another client above its cursor is dropped from the feed.
An event is passed over only where nothing older is left, and no critical section of
`apply_change` or `invalidate_all` leaves anything older than a change it is for. -/
def Guard (ignore : List String) (client : Nat) (s : FeedThread) : FeedThreadAct → Prop
  | .wake _ _ => ∀ e ∈ s.feed.log, s.last.2 < e.seq → Foreign client e → s.feed.log.length < e.seq + maxEvents
  | .run =>
    match s.loop with
    | .applying _ => Mount.FeedGuard EventNames ignore s.mount s.nextFeed
    | .clearing r (c :: _) => ∀ e ∈ s.known client r.cursor, ∀ x d, EventNames e x → c.Leaves s.mount x d → e.madeAt ≤ d
    | _ => True
  | _ => True

/-- The event has come with the reply and is still to be applied. -/
def AtHand (m : Mount) (e : FeedEvent) : Prop := e ∈ m.queue ∨ ∃ f, m.feeding = some f ∧ f.event = e

/-- No reply is being applied. -/
def Quiet (m : Mount) : Prop := m.queue = [] ∧ m.feeding = none

/-- What the thread has still to do leads to what the reply's cursor says. A reply of an
earlier daemon says nothing. -/
def LoopInv (client : Nat) (s : FeedThread) : FeedLoop → Prop
  | .idle => Quiet s.mount
  | .waiting epoch => Quiet s.mount ∧ epoch ∈ s.used ∧ (epoch = s.epoch → s.last.1 = s.epoch)
  | .applying r => r.epoch ∈ s.used ∧ (r.epoch = s.epoch →
      s.last.1 = s.epoch ∧ s.last.2 ≤ r.cursor ∧ r.cursor ≤ s.feed.log.length ∧
        ∀ e ∈ s.arrived client s.last.2 r.cursor, AtHand s.mount e ∨ Mount.Settled EventNames s.mount e)
  | .clearing r todo => Quiet s.mount ∧ r.epoch ∈ s.used ∧ (r.epoch = s.epoch →
      r.cursor ≤ s.feed.log.length ∧ ∀ e ∈ s.known client r.cursor, ∀ x, EventNames e x →
        (s.mount.FreshSince e.madeAt x ∨ s.mount.Covered x) ∨ ∃ c ∈ todo, c.Clears x)

structure PastInv (client : Nat) (s : FeedThread) : Prop where
  feed : Changes.FeedInv s.feed
  mount : Mount.FeedInv EventNames s.mount
  epoch : s.epoch ∈ s.used
  made : ∀ e ∈ s.known client s.feed.log.length, e.madeAt ≤ s.mount.now
  last : s.last.1 ∈ s.used
  cursor : s.last.1 = s.epoch → s.last.2 ≤ s.feed.log.length
  past : s.last.1 = s.epoch → ∀ e ∈ s.known client s.last.2, Mount.Settled EventNames s.mount e
  loop : LoopInv client s s.loop

/-! ## The changes known -/

theorem known_append (h : Changes.FeedInv s.feed) {a b : Nat} (hab : a ≤ b) :
    s.known client b = s.known client a ++ s.arrived client a b := by
  rw [known, known, arrived, arrived, arrived, h.numbered.between_append (Nat.zero_le a) hab, List.filter_append,
    List.map_append, List.append_assoc]

theorem known_mono (h : Changes.FeedInv s.feed) {a b : Nat} (hab : a ≤ b) {e : FeedEvent} (he : e ∈ s.known client a) :
    e ∈ s.known client b := by
  rw [known_append h hab]
  exact List.mem_append_left _ he

theorem arrived_known (h : Changes.FeedInv s.feed) {a b : Nat} (hab : a ≤ b) {e : FeedEvent}
    (he : e ∈ s.arrived client a b) : e ∈ s.known client b := by
  rw [known_append h hab]
  exact List.mem_append_right _ he

/-- A reply brings the changes that have arrived since the last one. -/
theorem queue_replied {r : WaitResult} (hr : r.events = ((s.feed.log.filter fun x => s.last.2 < x.seq ∧ x.seq ≤ r.cursor).filter
    fun x => Foreign client x).map Changes.Recorded.event) :
    List.zipWith FeedEvent.mk r.events ((s.arrived client s.last.2 r.cursor).map (·.madeAt)) =
      s.arrived client s.last.2 r.cursor := by
  rw [hr, arrived, List.map_map, List.zipWith_map]
  exact List.zipWith_self

/-- The same daemon goes on, and what its feed had stays numbered and dated. -/
structure Grows (client : Nat) (s s' : FeedThread) : Prop where
  epoch : s'.epoch = s.epoch
  used : s'.used = s.used
  earlier : s'.earlier = s.earlier
  feed : Changes.FeedInv s'.feed
  length : s.feed.log.length ≤ s'.feed.log.length
  arrived : ∀ a b, b ≤ s.feed.log.length → s'.arrived client a b = s.arrived client a b
  made : ∀ e ∈ s'.arrived client s.feed.log.length s'.feed.log.length, e.madeAt ≤ s'.mount.now

theorem Grows.known (h : Grows client s s') {b : Nat} (hb : b ≤ s.feed.log.length) :
    s'.known client b = s.known client b := by
  rw [FeedThread.known, FeedThread.known, h.earlier, h.arrived 0 b hb]

/-- Other threads, the feed thread within a reply, and ticks of the clock do nothing to the feed. -/
theorem grows_of_same (h : Changes.FeedInv s.feed) (hepoch : s'.epoch = s.epoch) (hused : s'.used = s.used)
    (hfeed : s'.feed = s.feed) (hmade : s'.madeAt = s.madeAt) (hearlier : s'.earlier = s.earlier) : Grows client s s' := by
  have hdated : s'.dated = s.dated := by
    funext r
    rw [dated, dated, hmade]
  refine ⟨hepoch, hused, hearlier, hfeed ▸ h, by rw [hfeed], fun a b _ => ?_, ?_⟩
  · rw [FeedThread.arrived, FeedThread.arrived, hfeed, hdated]
  · rw [FeedThread.arrived, hfeed, h.numbered.between (Nat.le_refl _), Nat.sub_self]
    simp

/-- What a step of the mount does to changes that were made before it. -/
structure Carries (m m' : Mount) : Prop where
  now : m.now ≤ m'.now
  fresh : ∀ T x, T ≤ m.now → m.FreshSince T x → m'.FreshSince T x
  either : ∀ T x, T ≤ m.now → m.FreshSince T x ∨ m.Covered x → m'.FreshSince T x ∨ m'.Covered x

theorem Carries.settled {m m' : Mount} (h : Carries m m') {e : FeedEvent} (hT : e.madeAt ≤ m.now)
    (he : Mount.Settled EventNames m e) : Mount.Settled EventNames m' e := fun x hx => h.either _ x hT (he x hx)

theorem carries_step {m m' : Mount} {a : MountAct} (hg : m.cache.GenInv) (h : m.step ignore a = some m') : Carries m m' :=
  ⟨by rw [Mount.step_now h]; exact Nat.le_succ _, fun _ _ hT hf => hf.step hT hg h,
    fun _ _ hT hf => Mount.settled_step hf hT hg h⟩

theorem carries_thins {m m' : Mount} (h : m.Thins m') : Carries m m' :=
  ⟨h.now, fun _ _ _ => h.fresh, fun _ _ _ hf => hf.imp h.fresh h.covered⟩

/-- What is still to be done with a reply stays the same. -/
theorem LoopInv.grows {l : FeedLoop} (hi : PastInv client s) (hl : LoopInv client s l) (h : Grows client s s')
    (hc : Carries s.mount s'.mount) (hlast : s'.last = s.last) (hq : s'.mount.queue = s.mount.queue)
    (hf : s'.mount.feeding = s.mount.feeding) : LoopInv client s' l := by
  have hquiet : Quiet s.mount → Quiet s'.mount := fun hqu => ⟨hq.trans hqu.1, hf.trans hqu.2⟩
  cases l with
  | idle => exact hquiet hl
  | waiting epoch => exact ⟨hquiet hl.1, h.used ▸ hl.2.1, by rw [h.epoch, hlast]; exact hl.2.2⟩
  | applying r =>
    refine ⟨h.used ▸ hl.1, ?_⟩
    rw [h.epoch, hlast]
    intro he
    obtain ⟨h1, h2, h3, h4⟩ := hl.2 he
    rw [h.arrived _ _ h3]
    refine ⟨h1, h2, Nat.le_trans h3 h.length, fun e hmem => (h4 e hmem).imp ?_ fun hs => ?_⟩
    · rw [AtHand, AtHand, hq, hf]
      exact id
    · exact hc.settled (hi.made e (known_mono hi.feed h3 (arrived_known hi.feed h2 hmem))) hs
  | clearing r todo =>
    refine ⟨hquiet hl.1, h.used ▸ hl.2.1, ?_⟩
    rw [h.epoch]
    intro he
    obtain ⟨h1, h2⟩ := hl.2.2 he
    rw [h.known h1]
    refine ⟨Nat.le_trans h1 h.length, fun e hmem x hx => (h2 e hmem x hx).imp_left fun hs => ?_⟩
    exact hc.either _ x (hi.made e (known_mono hi.feed h1 hmem)) hs

/-- A step that leaves the cursor alone. -/
theorem PastInv.grows (hi : PastInv client s) (h : Grows client s s') (hc : Carries s.mount s'.mount)
    (hm : Mount.FeedInv EventNames s'.mount) (hlast : s'.last = s.last) (hloop : LoopInv client s' s'.loop) :
    PastInv client s' := by
  refine ⟨h.feed, hm, by rw [h.epoch, h.used]; exact hi.epoch, ?_, by rw [hlast, h.used]; exact hi.last, ?_, ?_, hloop⟩
  · intro e he
    rw [known_append h.feed h.length, h.known (Nat.le_refl _)] at he
    rcases List.mem_append.1 he with he | he
    · exact Nat.le_trans (hi.made e he) hc.now
    · exact h.made e he
  · rw [hlast, h.epoch]
    exact fun hl => Nat.le_trans (hi.cursor hl) h.length
  · rw [hlast, h.epoch]
    intro hl e he
    rw [h.known (hi.cursor hl)] at he
    exact hc.settled (hi.made e (known_mono hi.feed (hi.cursor hl) he)) (hi.past hl e he)

theorem not_ofFeed {a : MountAct} (h : ¬ a.ofFeed = true) : ¬ Mount.OfFeed a := by
  cases a <;> first | exact fun hf => hf | exact absurd rfl h

/-! ## Steps -/

theorem PastInv.mountStep {a : MountAct} {m : Mount} (hi : PastInv client s) (ha : ¬ a.ofFeed = true)
    (h : s.mount.step ignore a = some m) : PastInv client (s.withMount m) := by
  have hc : Carries s.mount m := carries_step hi.mount.gens h
  have hgrows : Grows client s (s.withMount m) := grows_of_same hi.feed rfl rfl rfl rfl rfl
  obtain ⟨m1, h1, rfl⟩ := Option.map_eq_some_iff.1 h
  obtain ⟨hq, hf, happ, hp⟩ := Mount.act_frame h1 (not_ofFeed ha)
  refine hi.grows hgrows hc (hi.mount.other h (fun e he => .inl (hq ▸ he)) hf happ hp) rfl ?_
  exact hi.loop.grows hi hgrows hc rfl hq hf

/-- The clock ticks, and the thread may be somewhere else. -/
theorem PastInv.ticked {live : Bool} {l : FeedLoop} (hi : PastInv client s) (hl : LoopInv client s l) :
    PastInv client { s with mount := s.mount.tick, live := live, loop := l } := by
  have hthin : s.mount.Thins s.mount.tick := (Mount.Thins.refl _).tick
  have hgrows : Grows client s { s with mount := s.mount.tick, live := live, loop := l } :=
    grows_of_same hi.feed rfl rfl rfl rfl rfl
  refine hi.grows hgrows (carries_thins hthin) (hi.mount.thins hthin ?_ rfl rfl rfl) rfl ?_
  · exact fun e he => Nat.le_succ_of_le (hi.mount.queue e he)
  · exact hl.grows hi hgrows (carries_thins hthin) rfl rfl rfl

theorem grows_record {a : FeedAct} {made : Nat} (hi : PastInv client s) (hmade : made ≤ s.mount.now) :
    Grows client s { s with
      feed := s.feed.change a
      madeAt := Function.update s.madeAt s.feed.nextSeq made
      mount := s.mount.tick } := by
  have hfeed := hi.feed.change a
  have hnext := hi.feed.nextSeq
  have hold : ∀ r ∈ s.feed.log, r.seq ≠ s.feed.nextSeq := by
    intro r hr
    have := (hi.feed.numbered.seq_le hr).2
    omega
  rcases FeedState.log_change_one s.feed a with hlog | ⟨x, hlog, hx⟩
  · refine ⟨rfl, rfl, rfl, hfeed, by rw [hlog], fun a' b _ => ?_, fun e he => ?_⟩
    · simp only [arrived, hlog]
      refine List.map_congr_left fun r hr => ?_
      simp only [dated, Function.update_of_ne (hold r (List.mem_of_mem_filter (List.mem_of_mem_filter hr)))]
    · simp only [arrived, hlog, hi.feed.numbered.between (Nat.le_refl _), Nat.sub_self] at he
      simp at he
  · have hn := hfeed.numbered
    rw [hlog] at hn
    refine ⟨rfl, rfl, rfl, hfeed, by simp [hlog], fun a' b hb => ?_, fun e he => ?_⟩
    · simp only [arrived, hlog, hn.between_grown hb]
      refine List.map_congr_left fun r hr => ?_
      simp only [dated, Function.update_of_ne (hold r (List.mem_of_mem_filter (List.mem_of_mem_filter hr)))]
    · -- Only the new entry has a number above the old ones.
      obtain ⟨r, hr, rfl⟩ := List.mem_map.1 he
      obtain ⟨hr, hseq⟩ := List.mem_filter.1 (List.mem_of_mem_filter hr)
      have hlt := (of_decide_eq_true hseq).1
      simp only [hlog, List.mem_append, List.mem_singleton] at hr
      rcases hr with hr | rfl
      · have := (hi.feed.numbered.seq_le hr).2
        omega
      · simp only [dated, hx, Function.update_self]
        exact Nat.le_succ_of_le hmade

theorem PastInv.record {a : FeedAct} {made : Nat} (hi : PastInv client s) (hmade : made ≤ s.mount.now) :
    PastInv client { s with
      feed := s.feed.change a
      madeAt := Function.update s.madeAt s.feed.nextSeq made
      mount := s.mount.tick } := by
  have hthin : s.mount.Thins s.mount.tick := (Mount.Thins.refl _).tick
  refine hi.grows (grows_record hi hmade) (carries_thins hthin) (hi.mount.thins hthin ?_ rfl rfl rfl) rfl ?_
  · exact fun e he => Nat.le_succ_of_le (hi.mount.queue e he)
  · exact hi.loop.grows hi (grows_record hi hmade) (carries_thins hthin) rfl rfl rfl

/-- Another daemon has no events, and no reply of the old one counts. -/
theorem PastInv.restart {epoch : Nat} (hi : PastInv client s) (hnew : epoch ∉ s.used) :
    PastInv client { s with
      epoch
      used := epoch :: s.used
      feed := .new
      earlier := s.known client s.feed.log.length
      mount := s.mount.tick } := by
  have hthin : s.mount.Thins s.mount.tick := (Mount.Thins.refl _).tick
  have hne : ∀ {e}, e ∈ s.used → e ≠ epoch := fun he heq => hnew (heq ▸ he)
  refine ⟨feedInv_new, ?_, List.mem_cons_self, ?_, List.mem_cons_of_mem _ hi.last, fun he => absurd he (hne hi.last),
    fun he => absurd he (hne hi.last), ?_⟩
  · exact hi.mount.thins hthin (fun e he => Nat.le_succ_of_le (hi.mount.queue e he)) rfl rfl rfl
  · intro e he
    have he : e ∈ s.known client s.feed.log.length := by simpa [known, arrived, FeedState.new] using he
    exact Nat.le_succ_of_le (hi.made e he)
  · have hl := hi.loop
    show LoopInv client _ s.loop
    cases h : s.loop with
    | idle =>
      rw [h] at hl
      exact hl
    | waiting e =>
      rw [h] at hl
      -- The poll waits in the old daemon.
      exact ⟨hl.1, List.mem_cons_of_mem _ hl.2.1, fun heq => absurd heq (hne hl.2.1)⟩
    | applying r =>
      rw [h] at hl
      exact ⟨List.mem_cons_of_mem _ hl.1, fun heq => absurd heq (hne hl.1)⟩
    | clearing r todo =>
      rw [h] at hl
      exact ⟨hl.1, List.mem_cons_of_mem _ hl.2.1, fun heq => absurd heq (hne hl.2.1)⟩

/-- A reply of the present daemon, built while the thread was not busy. -/
theorem PastInv.replied {r : WaitResult} (hi : PastInv client s) (hq : Quiet s.mount) (hepoch : r.epoch = s.epoch)
    (hcur : r.cursor ≤ s.feed.log.length)
    (hr : r.reset = false → s.last.1 = s.epoch ∧ s.last.2 ≤ r.cursor ∧
      r.events = ((s.feed.log.filter fun x => s.last.2 < x.seq ∧ x.seq ≤ r.cursor).filter fun x => Foreign client x).map
        Changes.Recorded.event) : PastInv client (s.replied client r) := by
  have hused : r.epoch ∈ s.used := hepoch ▸ hi.epoch
  rw [FeedThread.replied]
  split
  · refine hi.ticked (l := .clearing r [.pending, .dirs, .blocks]) ⟨hq, hused, fun _ => ⟨hcur, fun e _ x _ => .inr ?_⟩⟩
    cases x with
    | entry q => exact ⟨.pending, by simp, trivial⟩
    | listing d => exact ⟨.dirs, by simp, trivial⟩
    | block k => exact ⟨.blocks, by simp, trivial⟩
  · rename_i hreset
    obtain ⟨hlast, hle, hev⟩ := hr (Bool.not_eq_true _ ▸ hreset)
    rw [queue_replied hev]
    have hthin : s.mount.Thins { s.mount.tick with queue := s.arrived client s.last.2 r.cursor } := by
      refine ⟨fun x d hd => ?_, rfl, id, Nat.le_succ _⟩
      cases x <;> exact hd
    have hgrows : Grows client s { s with
        mount := { s.mount.tick with queue := s.arrived client s.last.2 r.cursor }, loop := .applying r } :=
      grows_of_same hi.feed rfl rfl rfl rfl rfl
    refine hi.grows hgrows (carries_thins hthin) (hi.mount.thins hthin ?_ rfl rfl rfl) rfl ⟨hused, fun _ => ?_⟩
    · intro e he
      exact Nat.le_succ_of_le (hi.made e (known_mono hi.feed hcur (arrived_known hi.feed hle he)))
    · exact ⟨hlast, hle, hcur, fun e he => .inl (.inl he)⟩

/-- The loop of `wait` is entered or gone on with. -/
theorem PastInv.turned {live expired : Bool} {r : WaitResult} (hi : PastInv client s) (hq : Quiet s.mount)
    (hlast : s.last.1 = s.epoch)
    (hgone : ∀ e ∈ s.feed.log, s.last.2 < e.seq → Foreign client e → s.feed.log.length < e.seq + maxEvents)
    (hr : s.feed.turn s.epoch live client s.last.2 expired = some r) : PastInv client (s.replied client r) := by
  obtain ⟨h1, h2, h3, h4, h5⟩ := hi.feed.turn_foreign (hi.cursor hlast) hgone hr
  exact hi.replied hq h1 h4 fun _ => ⟨hlast, h3, h5⟩

theorem PastInv.poll {live expired : Bool} (hi : PastInv client s) (h : s.step ignore client (.poll live expired) = some s') :
    PastInv client s' := by
  simp only [step] at h
  split at h
  · rename_i hl
    have hq : Quiet s.mount := by
      have := hi.loop
      rwa [hl] at this
    obtain ⟨-, hsome⟩ := hi.feed.enter_reset live hi.cursor
    split at h
    · rename_i r hr
      cases h
      rw [hsome r hr]
      exact hi.replied hq rfl (Nat.le_refl _) (fun h => by cases h)
    · rename_i he
      -- The cursor is one of this daemon, and what is above it is all stored.
      simp only [FeedState.enter, ite_eq_right_iff, reduceCtorEq, imp_false, not_or, not_not] at he
      obtain ⟨hlast, -, hold⟩ := he
      rw [hi.feed.oldest] at hold
      split at h
      · rename_i r hr
        cases h
        exact hi.turned hq hlast (fun e he hlt _ => by omega) hr
      · cases h
        exact hi.ticked (l := .waiting s.epoch) ⟨hq, hi.epoch, fun _ => hlast⟩
  · cases h

theorem PastInv.wake {live expired : Bool} (hi : PastInv client s) (hg : Guard ignore client s (.wake live expired))
    (h : s.step ignore client (.wake live expired) = some s') : PastInv client s' := by
  simp only [step] at h
  split at h
  · rename_i epoch hl
    obtain ⟨hq, -, hlast⟩ : LoopInv client s (.waiting epoch) := hl ▸ hi.loop
    split at h
    · rename_i he
      split at h
      · rename_i r hr
        cases h
        exact hi.turned hq (hlast he) hg hr
      · cases h
        exact hi.ticked (l := s.loop) hi.loop
    · cases h
  · cases h

theorem PastInv.fails (hi : PastInv client s) (h : s.step ignore client .fails = some s') : PastInv client s' := by
  have hl := hi.loop
  simp only [step] at h
  split at h
  · rename_i h0
    cases h
    rw [h0] at hl
    exact hi.ticked (l := .idle) hl
  · rename_i epoch h0
    cases h
    rw [h0] at hl
    exact hi.ticked (l := .idle) hl.1
  · cases h

/-- Nothing is left to be done with a reply, and its cursor is taken over. -/
theorem PastInv.finish {r : WaitResult} (hi : PastInv client s) (hq : Quiet s.mount) (hused : r.epoch ∈ s.used)
    (hr : r.epoch = s.epoch → r.cursor ≤ s.feed.log.length ∧ ∀ e ∈ s.known client r.cursor, Mount.Settled EventNames s.mount e) :
    PastInv client (s.finish r) := by
  have hthin : s.mount.Thins s.mount.tick := (Mount.Thins.refl _).tick
  refine ⟨hi.feed, ?_, hi.epoch, fun e he => Nat.le_succ_of_le (hi.made e he), hused, fun he => (hr he).1, ?_, hq⟩
  · exact hi.mount.thins hthin (fun e he => Nat.le_succ_of_le (hi.mount.queue e he)) rfl rfl rfl
  · exact fun he e hmem => hthin.settled ((hr he).2 e hmem)

/-- The feed thread goes on: an event at hand stays at hand, or has been applied or passed
over. -/
theorem atHand_next {m : Mount} {e : FeedEvent} (h : s.mount.step ignore s.nextFeed = some m) (he : AtHand s.mount e) :
    AtHand m e ∨ e ∈ m.applied ∨ e ∈ m.passedOver := by
  obtain ⟨m1, h1, rfl⟩ := Option.map_eq_some_iff.1 h
  have hout : AtHand { m1 with cache := { m1.cache with now := s.mount.now + 1 } } e ↔ AtHand m1 e := Iff.rfl
  rw [hout]
  show AtHand m1 e ∨ e ∈ m1.applied ∨ e ∈ m1.passedOver
  unfold nextFeed at h1
  cases hf : s.mount.feeding with
  | none =>
    rw [hf] at h1
    simp only [Option.isSome_none, Bool.false_eq_true, if_false, Mount.act, hf] at h1
    have he : e ∈ s.mount.queue := he.resolve_right (by simp [hf])
    split at h1
    · rename_i e' queue _ hq
      rw [hq] at he
      split at h1
      · cases h1
        rcases List.mem_cons.1 he with rfl | he
        · exact .inr (.inr (List.mem_append_right _ (List.mem_singleton.2 rfl)))
        · exact .inl (.inl he)
      · cases h1
        rcases List.mem_cons.1 he with rfl | he
        · exact .inl (.inr ⟨_, rfl, rfl⟩)
        · exact .inl (.inl he)
    · cases h1
  | some f =>
    rw [hf] at h1
    simp only [Option.isSome_some, if_true, Mount.act, hf, Option.map_some, Option.some.injEq] at h1
    subst h1
    rcases he with he | ⟨f', hf', rfl⟩
    · refine .inl (.inl ?_)
      cases f with
      | lookBuffers e' => simp only [Mount.feedNext]; split <;> exact he
      | lookUploads e' => simp only [Mount.feedNext]; split <;> exact he
      | sweeping e' todo =>
        cases todo with
        | nil => exact he
        | cons w rest => simp only [Mount.feedNext, (Mount.sweep_frame e' rest w).1]; exact he
    · rw [hf, Option.some.injEq] at hf'
      subst hf'
      cases f with
      | lookBuffers e' =>
        simp only [Mount.feedNext]
        split
        · exact .inr (.inr (List.mem_append_right _ (List.mem_singleton.2 rfl)))
        · exact .inl (.inr ⟨_, rfl, rfl⟩)
      | lookUploads e' =>
        simp only [Mount.feedNext]
        split
        · exact .inr (.inr (List.mem_append_right _ (List.mem_singleton.2 rfl)))
        · exact .inl (.inr ⟨_, rfl, rfl⟩)
      | sweeping e' todo =>
        cases todo with
        | nil => exact .inr (.inl (List.mem_append_right _ (List.mem_singleton.2 rfl)))
        | cons w rest => exact .inl (.inr ⟨_, Mount.sweep_feeding, rfl⟩)

theorem names_sweeps (e : FeedEvent) (x : Item) (h : EventNames e x) : ∃ w ∈ e.event.sweeps, w.Clears x := h

theorem PastInv.apply {r : WaitResult} {m : Mount} (hi : PastInv client s) (hl : s.loop = .applying r)
    (hg : Mount.FeedGuard EventNames ignore s.mount s.nextFeed) (h : s.mount.step ignore s.nextFeed = some m) :
    PastInv client (s.withMount m) := by
  have hc : Carries s.mount m := carries_step hi.mount.gens h
  have hgrows : Grows client s (s.withMount m) := grows_of_same hi.feed rfl rfl rfl rfl rfl
  have hm : Mount.FeedInv EventNames m := hi.mount.step names_sweeps hg h
  refine hi.grows hgrows hc hm rfl ?_
  show LoopInv client _ s.loop
  have hloop := hi.loop
  rw [hl] at hloop ⊢
  refine ⟨hloop.1, fun he => ?_⟩
  obtain ⟨h1, h2, h3, h4⟩ := hloop.2 he
  refine ⟨h1, h2, h3, fun e hmem => ?_⟩
  rw [hgrows.arrived _ _ h3] at hmem
  rcases h4 e hmem with hhand | hs
  · rcases atHand_next h hhand with hhand | happ | hpass
    · exact .inl hhand
    · exact .inr fun x hx => .inl ((hm.applied e happ).2 x hx)
    · exact .inr (hm.passedOver e hpass).2
  · exact .inr (hc.settled (hi.made e (known_mono hi.feed h3 (arrived_known hi.feed h2 hmem))) hs)

/-- What a critical section of `invalidate_all` does to the mount. -/
theorem thins_section (hi : PastInv client s) (r : WaitResult) (rest : List Clearing) (c : Clearing) :
    s.mount.Thins (s.clear r rest c).mount := by
  cases c with
  | pending => exact (Mount.Thins.refl _).tick
  | metas kept => exact (Mount.thins_retain _ _).tick
  | dirs => exact (Mount.thins_clearDirs _).tick
  | blocks => exact (Mount.thins_clear _ hi.mount.gens).tick

/-- What is left for a place that it clears. -/
theorem section_leaves (hi : PastInv client s) (r : WaitResult) (rest : List Clearing) {c : Clearing} {x : Item} {d : Nat}
    (hp : c ≠ .pending) (hx : c.Clears x) (hd : (s.clear r rest c).mount.Dates x d) : c.Leaves s.mount x d := by
  cases c with
  | pending => exact absurd rfl hp
  | metas kept =>
    cases x with
    | entry q =>
      rcases Mount.dates_tick.1 hd with hd | hd
      · refine .inr ?_
        simp only [Mount.cachedAt, Mount.retain] at hd ⊢
        split at hd
        · rename_i hq
          exact ⟨hq, hd⟩
        · cases hd
      · exact .inl hd
    | listing q => exact absurd hx id
    | block k => exact absurd hx id
  | dirs =>
    cases x with
    | listing q =>
      rcases Mount.dates_tick.1 hd with hd | hd
      · cases hd
      · exact hd
    | entry q => exact absurd hx id
    | block k => exact absurd hx id
  | blocks =>
    cases x with
    | block k => exact Mount.dates_clear hi.mount.gens (Mount.dates_tick.1 hd)
    | entry q => exact absurd hx id
    | listing q => exact absurd hx id

theorem PastInv.clearing {r : WaitResult} {c : Clearing} {rest : List Clearing} (hi : PastInv client s)
    (hl : s.loop = .clearing r (c :: rest))
    (hg : ∀ e ∈ s.known client r.cursor, ∀ x d, EventNames e x → c.Leaves s.mount x d → e.madeAt ≤ d) :
    PastInv client (s.clear r rest c) := by
  have hthin := thins_section hi r rest c
  have hsame : (s.clear r rest c).epoch = s.epoch ∧ (s.clear r rest c).used = s.used ∧ (s.clear r rest c).feed = s.feed ∧
      (s.clear r rest c).madeAt = s.madeAt ∧ (s.clear r rest c).earlier = s.earlier ∧ (s.clear r rest c).last = s.last ∧
      (s.clear r rest c).mount.queue = s.mount.queue ∧ (s.clear r rest c).mount.feeding = s.mount.feeding ∧
      (s.clear r rest c).mount.applied = s.mount.applied ∧ (s.clear r rest c).mount.passedOver = s.mount.passedOver := by
    cases c <;> exact ⟨rfl, rfl, rfl, rfl, rfl, rfl, rfl, rfl, rfl, rfl⟩
  obtain ⟨hepoch, hused, hfeed, hmade, hearlier, hlast, hq, hf, ha, hp⟩ := hsame
  have hgrows : Grows client s (s.clear r rest c) := grows_of_same hi.feed hepoch hused hfeed hmade hearlier
  refine hi.grows hgrows (carries_thins hthin) (hi.mount.thins hthin ?_ hf ha hp) hlast ?_
  · intro e he
    exact Nat.le_trans (hi.mount.queue e (hq ▸ he)) hthin.now
  · obtain ⟨hquiet, hr, hdone⟩ : LoopInv client s (.clearing r (c :: rest)) := hl ▸ hi.loop
    have hloop : (s.clear r rest c).loop = .clearing r (c.adds s.mount ++ rest) := by cases c <;> rfl
    rw [hloop]
    refine ⟨⟨hq.trans hquiet.1, hf.trans hquiet.2⟩, hused ▸ hr, fun he => ?_⟩
    rw [hepoch] at he
    obtain ⟨hcur, hdone⟩ := hdone he
    rw [hgrows.known hcur, hfeed]
    refine ⟨hcur, fun e hmem x hx => ?_⟩
    by_cases hcx : c.Clears x
    · by_cases hpend : c = .pending
      · -- It leaves the entries to the next section.
        subst hpend
        refine .inr ⟨.metas s.mount.buffered, List.mem_append_left _ List.mem_cons_self, ?_⟩
        cases x <;> exact hcx
      · exact .inl (.inl fun d hd => hg e hmem x d hx (section_leaves hi r rest hpend hcx hd))
    · rcases hdone e hmem x hx with hfr | ⟨c', hc', hclears⟩
      · exact .inl (hfr.imp hthin.fresh hthin.covered)
      · rcases List.mem_cons.1 hc' with rfl | hrest
        · exact absurd hclears hcx
        · exact .inr ⟨c', List.mem_append_right _ hrest, hclears⟩

theorem PastInv.run (hi : PastInv client s) (hg : Guard ignore client s .run) (h : s.step ignore client .run = some s') :
    PastInv client s' := by
  have hloop := hi.loop
  simp only [Guard] at hg
  simp only [step] at h
  cases hl : s.loop with
  | idle =>
    rw [hl] at h
    cases h
  | waiting epoch =>
    rw [hl] at h
    cases h
  | applying r =>
    rw [hl] at h hg hloop
    dsimp only at h hg
    split at h
    · rename_i hdone
      cases h
      rw [Bool.and_eq_true, Option.isNone_iff_eq_none, List.isEmpty_iff] at hdone
      refine hi.finish ⟨hdone.2, hdone.1⟩ hloop.1 fun he => ?_
      obtain ⟨h1, h2, h3, h4⟩ := hloop.2 he
      refine ⟨h3, fun e hmem => ?_⟩
      rw [known_append hi.feed h2] at hmem
      rcases List.mem_append.1 hmem with hmem | hmem
      · exact hi.past h1 e hmem
      · refine (h4 e hmem).resolve_left ?_
        rintro (hq | ⟨f, hf, -⟩)
        · rw [hdone.2] at hq
          cases hq
        · rw [hdone.1] at hf
          cases hf
    · obtain ⟨m, hm, rfl⟩ := Option.map_eq_some_iff.1 h
      exact hi.apply hl hg hm
  | clearing r todo =>
    rw [hl] at h hg hloop
    cases todo with
    | nil =>
      cases h
      refine hi.finish hloop.1 hloop.2.1 fun he => ?_
      obtain ⟨h1, h2⟩ := hloop.2.2 he
      refine ⟨h1, fun e hmem x hx => (h2 e hmem x hx).resolve_right ?_⟩
      rintro ⟨c, hc, -⟩
      cases hc
    | cons c rest =>
      cases h
      exact hi.clearing hl hg

theorem PastInv.step {a : FeedThreadAct} (hi : PastInv client s) (hg : Guard ignore client s a)
    (h : s.step ignore client a = some s') : PastInv client s' := by
  cases a with
  | mount a =>
    simp only [FeedThread.step] at h
    split at h
    · cases h
    · rename_i ha
      obtain ⟨m, hm, rfl⟩ := Option.map_eq_some_iff.1 h
      exact hi.mountStep ha hm
  | record a made =>
    simp only [FeedThread.step] at h
    split at h
    · rename_i hmade
      cases h
      exact hi.record hmade
    · cases h
  | restart epoch =>
    simp only [FeedThread.step] at h
    split at h
    · cases h
    · rename_i hnew
      cases h
      exact hi.restart hnew
  | poll live expired => exact hi.poll h
  | wake live expired => exact hi.wake hg h
  | fails => exact hi.fails h
  | run => exact hi.run hg h

end FeedThread

end Mobfs
