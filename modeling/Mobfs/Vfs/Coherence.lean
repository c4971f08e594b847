import Mobfs.Vfs.Dates
/-!
# The change feed and answers under way

Applying an event takes the value out of the places it makes stale. It takes back
no answer that a call still holds, since entries and listings have no generation: a
call that was answered before the change puts its answer in afterwards. An event
that is passed over takes nothing out at all. `FeedGuard` says that neither leaves
anything older than the change.
-/

namespace Mobfs

open Lib

/-- The critical section takes the value out of the place. Of the two of
`invalidate_tree` the first leaves that to the second. -/
def Sweep.Clears : Sweep → Item → Prop
  | .entry p, .entry q => q = p
  | .metasUnder p, .entry q => BlockStore.under p q = true
  | .dirsUnder p, .listing d => BlockStore.under p d = true
  | .unlist d, .listing d' => d' = d
  | .range p offset len, .block k => k.1 = p ∧ BlockStore.inRange offset len k.2 = true
  | .collect p, .block k => BlockStore.under p k.1 = true
  | .bump p _, .block k => BlockStore.under p k.1 = true
  | _, _ => False

def Feeding.event : Feeding → FeedEvent
  | .lookBuffers e => e
  | .lookUploads e => e
  | .sweeping e _ => e

namespace Mount

variable {ignore : List String} {s s' : Mount}

/-! ## Events the cursor is past -/

/-- The critical section leaves a value of that date for the place: in the hands of a
call, or, of the second one of `invalidate_tree`, on a path it has not collected. -/
def Escapes (s : Mount) : Sweep → Item → Nat → Prop
  | .bump _ paths, .block k, d => k.1 ∉ paths ∧ s.Dates (.block k) d
  | _, .block _, _ => False
  | _, x, d => s.Held x d

/-- Everything older than the event, in the places of `X`, is gone or goes with a
local write. -/
def Settled (X : FeedEvent → Item → Prop) (s : Mount) (e : FeedEvent) : Prop :=
  ∀ x, X e x → s.FreshSince e.madeAt x ∨ s.Covered x

/-- An event is passed over only where nothing older is left; and a critical section
of `apply_change` leaves nothing older for the places it clears. -/
def FeedGuard (X : FeedEvent → Item → Prop) (ignore : List String) (s : Mount) : MountAct → Prop
  | .feed => ∀ e ∈ s.queue.head?, ignored ignore e.event.path = true → Settled X s e
  | .feedRun =>
    match s.feeding with
    | some (.lookBuffers e) => s.pendingIn [.buffered] e.event.path = true → Settled X s e
    | some (.lookUploads e) => s.pendingIn [.uploading, .ended] e.event.path = true → Settled X s e
    | some (.sweeping e (w :: _)) => ∀ x d, X e x → w.Clears x → s.Escapes w x d → e.madeAt ≤ d
    | _ => True
  | _ => True

structure FeedInv (X : FeedEvent → Item → Prop) (s : Mount) : Prop where
  gens : s.cache.GenInv
  queue : ∀ e ∈ s.queue, e.madeAt ≤ s.now
  feeding : ∀ f, s.feeding = some f → f.event.madeAt ≤ s.now
  sweeping : ∀ e todo, s.feeding = some (.sweeping e todo) →
    ∀ x, X e x → s.FreshSince e.madeAt x ∨ ∃ w ∈ todo, w.Clears x
  applied : ∀ e ∈ s.applied, e.madeAt ≤ s.now ∧ ∀ x, X e x → s.FreshSince e.madeAt x
  passedOver : ∀ e ∈ s.passedOver, e.madeAt ≤ s.now ∧ Settled X s e

variable {X : FeedEvent → Item → Prop}

theorem Quiet.feedInv (h : s.Quiet) : FeedInv X s where
  gens := fun t x p g hx => by rw [h.cache t] at hx; cases hx
  queue := by simp [h.queue]
  feeding := by simp [h.feeding]
  sweeping := by simp [h.feeding]
  applied := by simp [h.applied]
  passedOver := by simp [h.passedOver]

/-- What the invariant says of the events the cursor is past carries over. -/
theorem FeedInv.past {a : MountAct} (hi : FeedInv X s) (h : s.step ignore a = some s') :
    (∀ e ∈ s.applied, e.madeAt ≤ s'.now ∧ ∀ x, X e x → s'.FreshSince e.madeAt x) ∧
    ∀ e ∈ s.passedOver, e.madeAt ≤ s'.now ∧ Settled X s' e := by
  have hnow := step_now h
  refine ⟨fun e he => ?_, fun e he => ?_⟩
  · obtain ⟨hT, hf⟩ := hi.applied e he
    exact ⟨by omega, fun x hx => (hf x hx).step hT hi.gens h⟩
  · obtain ⟨hT, hf⟩ := hi.passedOver e he
    exact ⟨by omega, fun x hx => settled_step (hf x hx) hT hi.gens h⟩

/-- A step that is no business of the feed thread. -/
theorem FeedInv.other {a : MountAct} (hi : FeedInv X s) (h : s.step ignore a = some s')
    (hq : ∀ e ∈ s'.queue, e ∈ s.queue ∨ e.madeAt = s.now) (hf : s'.feeding = s.feeding) (ha : s'.applied = s.applied)
    (hp : s'.passedOver = s.passedOver) : FeedInv X s' := by
  have hnow := step_now h
  obtain ⟨hpast, hpast'⟩ := hi.past h
  refine ⟨hi.gens.moves (step_cacheMoves h), ?_, ?_, ?_, by rwa [ha], by rwa [hp]⟩
  · intro e he
    rcases hq e he with he | he
    · have := hi.queue e he
      omega
    · omega
  · intro f hfd
    have := hi.feeding f (hf ▸ hfd)
    omega
  · intro e todo hfd x hx
    rw [hf] at hfd
    have hT := hi.feeding _ hfd
    exact (hi.sweeping e todo hfd x hx).imp_left fun hfr => hfr.step hT hi.gens h

theorem act_frame {a : MountAct} (h : s.act ignore a = some s') (ha : ¬ OfFeed a) :
    s'.queue = s.queue ∧ s'.feeding = s.feeding ∧ s'.applied = s.applied ∧ s'.passedOver = s.passedOver := by
  cases act_cases h with
  | turns t next hnext hs' =>
    rw [hs']
    exact ⟨rfl, rfl, rfl, rfl⟩
  | runs t clock n hn hs' =>
    unfold goOnWith at hs'
    split at hs' <;> cases hs' <;> exact ⟨rfl, rfl, rfl, rfl⟩
  | feeds hf queue applied passedOver feeding hs' => exact absurd hf ha
  | sweeps hf e rest w hs' => exact absurd hf ha
  | places i c src dst hi hs' =>
    rw [hs']
    split <;> exact ⟨rfl, rfl, rfl, rfl⟩
  | completes i c hi hs' =>
    rw [hs']
    exact ⟨rfl, rfl, rfl, rfl⟩
  | cache b cache hb hs' =>
    rw [hs']
    exact ⟨rfl, rfl, rfl, rfl⟩

/-- What a critical section leaves for a place it clears. -/
theorem sweep_dates (e : FeedEvent) (rest : List Sweep) {w : Sweep} {x : Item} {d : Nat} (hg : s.cache.GenInv)
    (hw : ∀ p, w ≠ .collect p) (hc : w.Clears x) (hd : (s.sweep e rest w).Dates x d) : s.Escapes w x d := by
  cases w with
  | collect p => exact absurd rfl (hw p)
  | entry p =>
    cases x with
    | entry q =>
      obtain rfl : q = p := hc
      rcases hd with hd | hd
      · simp [sweep, cachedAt, setMeta] at hd
      · exact hd
    | listing q => exact absurd hc id
    | block k => exact absurd hc id
  | metasUnder p =>
    cases x with
    | entry q =>
      rcases hd with hd | hd
      · simp [sweep, cachedAt, show BlockStore.under p q = true from hc] at hd
      · exact hd
    | listing q => exact absurd hc id
    | block k => exact absurd hc id
  | dirsUnder p =>
    cases x with
    | listing q =>
      rcases hd with hd | hd
      · simp [sweep, cachedAt, show BlockStore.under p q = true from hc] at hd
      · exact hd
    | entry q => exact absurd hc id
    | block k => exact absurd hc id
  | unlist p =>
    cases x with
    | listing q =>
      obtain rfl : q = p := hc
      rcases hd with hd | hd
      · simp [sweep, cachedAt, setDir] at hd
      · exact hd
    | entry q => exact absurd hc id
    | block k => exact absurd hc id
  | range p offset len =>
    cases x with
    | block k =>
      obtain ⟨hp, hin⟩ := hc
      exact absurd hd (dates_invalidateWhere hg rfl rfl (List.mem_singleton.2 hp) (by simp [hin]))
    | entry q => exact absurd hc id
    | listing q => exact absurd hc id
  | bump p paths =>
    cases x with
    | block k =>
      -- A path that had no block in the cache was not collected, and keeps its generation.
      by_cases hk : k.1 ∈ paths
      · exact absurd hd (dates_invalidateWhere hg rfl rfl hk rfl)
      · refine ⟨hk, hd.imp (fun hd => ?_) ?_⟩
        · simpa [sweep, withStore, cachedAt, BlockStore.block_invalidateWhere, hk] using hd
        · rintro ⟨t, f, g, ht, hf, hgen⟩
          refine ⟨t, f, g, ht, hf, ?_⟩
          simpa [sweep, withStore, BlockStore.generations_invalidateWhere, hk] using hgen
    | entry q => exact absurd hc id
    | listing q => exact absurd hc id

theorem sweep_feeding {e : FeedEvent} {rest : List Sweep} {w : Sweep} :
    (s.sweep e rest w).feeding = some (.sweeping e (match w with
      | .collect p => .bump p (s.cache.store.treePaths p) :: rest
      | _ => rest)) := by
  cases w <;> rfl

theorem sweep_frame (e : FeedEvent) (rest : List Sweep) (w : Sweep) : (s.sweep e rest w).queue = s.queue ∧
    (s.sweep e rest w).applied = s.applied ∧ (s.sweep e rest w).passedOver = s.passedOver := by
  cases w <;> exact ⟨rfl, rfl, rfl⟩

/-- A critical section of `apply_change`: what it clears is free of old dates, or, for
the first one of `invalidate_tree`, is left to the second. -/
theorem FeedInv.sweep {e : FeedEvent} {rest : List Sweep} {w : Sweep} (hi : FeedInv X s)
    (hfd : s.feeding = some (.sweeping e (w :: rest))) (hguard : FeedGuard X ignore s .feedRun)
    (h : s.step ignore .feedRun = some s') : FeedInv X s' := by
  have hnow := step_now h
  have hT : e.madeAt ≤ s.now := hi.feeding _ hfd
  obtain ⟨hpast, hpast'⟩ := hi.past h
  have hstep : ∀ x, s.FreshSince e.madeAt x → s'.FreshSince e.madeAt x := fun x hf => hf.step hT hi.gens h
  have hgens := hi.gens.moves (step_cacheMoves h)
  obtain ⟨s1, h1, rfl⟩ := Option.map_eq_some_iff.1 h
  obtain ⟨f, hf, rfl⟩ := Option.map_eq_some_iff.1 h1
  rw [hfd] at hf
  cases hf
  simp only [FeedGuard, hfd] at hguard
  obtain ⟨hq, ha, hp⟩ := sweep_frame (s := s) e rest w
  refine ⟨hgens, ?_, ?_, ?_, ?_, ?_⟩
  · intro e' he
    have := hi.queue e' (hq ▸ he)
    omega
  · intro f' hf'
    have hf' : (s.sweep e rest w).feeding = some f' := hf'
    rw [sweep_feeding] at hf'
    cases hf'
    exact Nat.le_succ_of_le hT
  · intro e' todo hf' x hx
    have hf' : (s.sweep e rest w).feeding = some (.sweeping e' todo) := hf'
    rw [sweep_feeding] at hf'
    cases hf'
    by_cases hc : w.Clears x
    · -- `collect` takes nothing out yet: it leaves the blocks to `bump`.
      by_cases hw : ∃ p, w = .collect p
      · obtain ⟨p, rfl⟩ := hw
        refine .inr ⟨.bump p _, List.mem_cons_self, ?_⟩
        cases x with
        | block k => exact hc
        | entry q => exact absurd hc id
        | listing q => exact absurd hc id
      · refine .inl fun d hd => hguard x d hx hc (sweep_dates e rest hi.gens (fun p hp => hw ⟨p, hp⟩) hc ?_)
        cases x <;> exact hd
    · -- The place is free already, or is left to a later section.
      rcases hi.sweeping e _ hfd x hx with hf | ⟨w', hw', hc'⟩
      · exact .inl (hstep x hf)
      · rcases List.mem_cons.1 hw' with rfl | hrest
        · exact absurd hc' hc
        · refine .inr ⟨w', ?_, hc'⟩
          split
          · exact List.mem_cons_of_mem _ hrest
          · exact hrest
  · intro e' he
    exact hpast e' (ha ▸ he)
  · intro e' he
    exact hpast' e' (hp ▸ he)

/-- The event at hand is passed over. -/
theorem FeedInv.pass {a : MountAct} {e : FeedEvent} (hi : FeedInv X s) (h : s.step ignore a = some s')
    (hT : e.madeAt ≤ s.now) (he : Settled X s e) (hq : ∀ e' ∈ s'.queue, e' ∈ s.queue) (hf : s'.feeding = none)
    (ha : s'.applied = s.applied) (hp : s'.passedOver = s.passedOver ++ [e]) : FeedInv X s' := by
  have hnow := step_now h
  obtain ⟨hpast, hpast'⟩ := hi.past h
  refine ⟨hi.gens.moves (step_cacheMoves h), ?_, by simp [hf], by simp [hf], by rwa [ha], ?_⟩
  · intro e' he'
    have := hi.queue e' (hq e' he')
    omega
  · intro e' he'
    rw [hp] at he'
    rcases List.mem_append.1 he' with he' | he'
    · exact hpast' e' he'
    · obtain rfl := List.mem_singleton.1 he'
      exact ⟨by omega, fun x hx => settled_step (he x hx) hT hi.gens h⟩

/-- The feed thread turns to an event, or goes on with it, and the caches stay. -/
theorem FeedInv.turn {a : MountAct} {f : Feeding} (hi : FeedInv X s) (h : s.step ignore a = some s')
    (hT : f.event.madeAt ≤ s.now) (hX : ∀ e todo, f = .sweeping e todo → ∀ x, X e x → ∃ w ∈ todo, w.Clears x)
    (hq : ∀ e' ∈ s'.queue, e' ∈ s.queue) (hf : s'.feeding = some f) (ha : s'.applied = s.applied)
    (hp : s'.passedOver = s.passedOver) : FeedInv X s' := by
  have hnow := step_now h
  obtain ⟨hpast, hpast'⟩ := hi.past h
  refine ⟨hi.gens.moves (step_cacheMoves h), ?_, ?_, ?_, by rwa [ha], by rwa [hp]⟩
  · intro e' he'
    have := hi.queue e' (hq e' he')
    omega
  · intro f' hf'
    rw [hf] at hf'
    cases hf'
    omega
  · intro e todo hf' x hx
    rw [hf] at hf'
    exact .inr (hX e todo (Option.some.inj hf') x hx)

theorem FeedInv.feedStep (hi : FeedInv X s) (hguard : FeedGuard X ignore s .feed)
    (h : s.step ignore .feed = some s') : FeedInv X s' := by
  obtain ⟨s1, h1, rfl⟩ := Option.map_eq_some_iff.1 h
  simp only [act] at h1
  split at h1
  · rename_i e queue hfd hq
    have hT : e.madeAt ≤ s.now := hi.queue e (by simp [hq])
    have hsub : ∀ e' ∈ queue, e' ∈ s.queue := fun e' he' => by simp [hq, he']
    split at h1
    · rename_i hig
      cases h1
      exact hi.pass h hT (hguard e (by simp [hq]) hig) hsub rfl rfl rfl
    · cases h1
      exact hi.turn (f := .lookBuffers e) h hT (by simp) hsub rfl rfl rfl
  · cases h1

theorem FeedInv.feedRunStep (hX : ∀ e x, X e x → ∃ w ∈ e.event.sweeps, w.Clears x) (hi : FeedInv X s)
    (hguard : FeedGuard X ignore s .feedRun) (h : s.step ignore .feedRun = some s') : FeedInv X s' := by
  have hnow := step_now h
  have h0 := h
  obtain ⟨s1, h1, rfl⟩ := Option.map_eq_some_iff.1 h
  obtain ⟨f, hfd, rfl⟩ := Option.map_eq_some_iff.1 h1
  have hT := hi.feeding f hfd
  have hguard' := hguard
  simp only [FeedGuard, hfd] at hguard'
  cases f with
  | lookBuffers e =>
    simp only [feedNext] at h ⊢
    split
    · rename_i hpend
      rw [if_pos hpend] at h
      exact hi.pass h hT (hguard' hpend) (fun _ he => he) rfl rfl rfl
    · rename_i hpend
      rw [if_neg hpend] at h
      exact hi.turn (f := .lookUploads e) h hT (by simp) (fun _ he => he) rfl rfl rfl
  | lookUploads e =>
    simp only [feedNext] at h ⊢
    split
    · rename_i hpend
      rw [if_pos hpend] at h
      exact hi.pass h hT (hguard' hpend) (fun _ he => he) rfl rfl rfl
    · rename_i hpend
      rw [if_neg hpend] at h
      refine hi.turn (f := .sweeping e e.event.sweeps) h hT ?_ (fun _ he => he) rfl rfl rfl
      intro e' todo he x hx
      cases he
      exact hX e x hx
  | sweeping e todo =>
    cases todo with
    | nil =>
      obtain ⟨hpast, hpast'⟩ := hi.past h
      refine ⟨hi.gens.moves (step_cacheMoves h), ?_, by simp [feedNext], by simp [feedNext], ?_, hpast'⟩
      · intro e' he'
        have := hi.queue e' he'
        omega
      · intro e' he'
        rcases List.mem_append.1 he' with he' | he'
        · exact hpast e' he'
        · obtain rfl := List.mem_singleton.1 he'
          refine ⟨Nat.le_succ_of_le hT, fun x hx => ?_⟩
          rcases hi.sweeping e' [] hfd x hx with hf | ⟨w, hw, -⟩
          · exact hf.step hT hi.gens h
          · cases hw
    | cons w rest => exact hi.sweep hfd hguard h0

theorem FeedInv.step {a : MountAct} (hX : ∀ e x, X e x → ∃ w ∈ e.event.sweeps, w.Clears x) (hi : FeedInv X s)
    (hguard : FeedGuard X ignore s a) (h : s.step ignore a = some s') : FeedInv X s' := by
  by_cases hfeed : OfFeed a
  · cases a with
    | feed => exact hi.feedStep hguard h
    | feedRun => exact hi.feedRunStep hX hguard h
    | change e =>
      obtain ⟨s1, h1, rfl⟩ := Option.map_eq_some_iff.1 h
      cases h1
      refine hi.other h ?_ rfl rfl rfl
      intro e' he'
      rcases List.mem_append.1 he' with he' | he'
      · exact .inl he'
      · obtain rfl := List.mem_singleton.1 he'
        exact .inr rfl
    | _ => exact absurd hfeed id
  · obtain ⟨s1, h1, rfl⟩ := Option.map_eq_some_iff.1 h
    obtain ⟨hq, hfd, ha, hp⟩ := act_frame h1 hfeed
    exact hi.other h (fun e he => .inl (hq ▸ he)) hfd ha hp

/-! ## The entry of the path and the listing of its parent -/

/-- The places of the name itself. -/
def OfName (e : FeedEvent) (x : Item) : Prop :=
  x = .entry e.event.path ∨ x = .listing (splitParent e.event.path).1

theorem under_self (p : String) : BlockStore.under p p = true := by simp [BlockStore.under]

theorem ofName_sweeps (e : FeedEvent) (x : Item) (h : OfName e x) : ∃ w ∈ e.event.sweeps, w.Clears x := by
  rcases h with rfl | rfl
  · cases hk : e.event.kind with
    | write offset len => exact ⟨.entry e.event.path, by simp [ChangeEvent.sweeps, hk], rfl⟩
    | metadata => exact ⟨.entry e.event.path, by simp [ChangeEvent.sweeps, hk], rfl⟩
    | replaced => exact ⟨.metasUnder e.event.path, by simp [ChangeEvent.sweeps, hk], under_self _⟩
  · exact ⟨.unlist (splitParent e.event.path).1, by cases hk : e.event.kind <;> simp [ChangeEvent.sweeps, hk], rfl⟩

/-- In a run that meets `FeedGuard`: once the cursor is past an event, the entry of
its path and the listing of its parent hold nothing the daemon computed before the
change. -/
theorem names_never_before_change (ignore : List String) (s₀ s : Mount) (as : List MountAct) (h₀ : s₀.Quiet)
    (hguard : Guarded (step ignore) (FeedGuard OfName ignore) s₀ as) (h : exec (step ignore) s₀ as = some s) :
    ∀ e ∈ s.applied ++ s.passedOver, (∀ v, s.metas e.event.path = some v → e.madeAt ≤ v.asOf) ∧
      ∀ v, s.dirs (splitParent e.event.path).1 = some v → e.madeAt ≤ v.asOf := by
  have hi : FeedInv OfName s :=
    exec_guarded_inv (FeedInv OfName) (fun _ _ _ hi hg hs => hi.step ofName_sweeps hg hs) h₀.feedInv hguard h
  have hfresh : ∀ e ∈ s.applied ++ s.passedOver, Settled OfName s e := by
    intro e he
    rcases List.mem_append.1 he with he | he
    · exact fun x hx => .inl ((hi.applied e he).2 x hx)
    · exact (hi.passedOver e he).2
  intro e he
  refine ⟨fun v hv => ?_, fun v hv => ?_⟩
  · rcases hfresh e he (.entry e.event.path) (.inl rfl) with hf | hc
    · exact hf _ (dates_metas hv)
    · exact absurd hc id
  · rcases hfresh e he (.listing (splitParent e.event.path).1) (.inr rfl) with hf | hc
    · exact hf _ (dates_dirs hv)
    · exact absurd hc id

/-- An idle mount with nothing in its caches. -/
def empty : Mount := ⟨fun _ => none, fun _ => none, BlockCache.empty, [], fun _ => none, [], none, [], []⟩

theorem empty_quiet : empty.Quiet := ⟨fun _ => rfl, fun _ => rfl, rfl, rfl, rfl, rfl⟩

def aFile : EntryMeta := fileMeta 1 0o644 0

/-- Everything in the caches is from after the changes that are still to be fed. -/
structure AllAfter (T : Nat) (s : Mount) : Prop where
  gens : s.cache.GenInv
  now : T ≤ s.now
  fresh : ∀ x, s.FreshSince T x

theorem AllAfter.step {T : Nat} {a : MountAct} (h0 : AllAfter T s) (h : s.step ignore a = some s') : AllAfter T s' :=
  ⟨h0.gens.moves (step_cacheMoves h), by rw [step_now h]; exact Nat.le_succ_of_le h0.now,
    fun x => (h0.fresh x).step h0.now h0.gens h⟩

theorem empty_allAfter : AllAfter 1 empty := by
  refine ⟨fun t x p g hx => ?_, Nat.le_refl _, fun x d hd => ?_⟩
  · cases hx
  · have hblock : ∀ k, empty.cache.store.block k = none := by
      intro k
      simp [empty, BlockCache.empty, BlockStore.new, BlockStore.block]
    cases x with
    | entry q =>
      rcases hd with hd | ⟨t, c, ht, -⟩
      · cases hd
      · cases ht
    | listing q =>
      rcases hd with hd | ⟨t, c, ht, -⟩
      · cases hd
      · cases ht
    | block k =>
      rcases hd with hd | ⟨t, f, g, ht, -⟩
      · simp [cachedAt, hblock] at hd
      · cases ht

theorem dates_of_escapes {w : Sweep} {x : Item} {d : Nat} (h : s.Escapes w x d) : s.Dates x d := by
  cases x with
  | entry q => cases w <;> exact .inr h
  | listing q => cases w <;> exact .inr h
  | block k =>
    cases w with
    | bump p paths => exact h.2
    | _ => exact absurd h id

/-- All events at hand were made by `T`. -/
def madeBy (T : Nat) (s : Mount) : MountAct → Bool := fun _ =>
  s.queue.all (fun e => decide (e.madeAt ≤ T)) && s.feeding.all fun f => decide (f.event.madeAt ≤ T)

theorem feedGuard_of_madeBy {T : Nat} {a : MountAct} (h0 : AllAfter T s) (h : madeBy T s a = true) :
    FeedGuard X ignore s a := by
  simp only [madeBy, Bool.and_eq_true, List.all_eq_true, decide_eq_true_eq] at h
  obtain ⟨hq, hfd⟩ := h
  have hsettled : ∀ e, e.madeAt ≤ T → Settled X s e :=
    fun e he x _ => .inl fun d hd => Nat.le_trans he (h0.fresh x d hd)
  cases a with
  | feed => exact fun e he _ => hsettled e (hq e (List.mem_of_mem_head? he))
  | feedRun =>
    cases hf : s.feeding with
    | none => simp only [FeedGuard, hf]
    | some f =>
      have hT : f.event.madeAt ≤ T := by simpa [hf] using hfd
      cases f with
      | lookBuffers e => simp only [FeedGuard, hf]; exact fun _ => hsettled e hT
      | lookUploads e => simp only [FeedGuard, hf]; exact fun _ => hsettled e hT
      | sweeping e todo =>
        cases todo with
        | nil => simp only [FeedGuard, hf]
        | cons w rest =>
          simp only [FeedGuard, hf]
          exact fun x d _ _ hesc => Nat.le_trans hT (h0.fresh x d (dates_of_escapes hesc))
  | _ => trivial

theorem feedGuard_empty {as : List MountAct} (h : checkRun (step ignore) (madeBy 1) empty as = true) :
    Guarded (step ignore) (FeedGuard X ignore) empty as :=
  guarded_of_checkRun (AllAfter 1) (fun _ => True) (madeBy 1) (fun _ _ _ h0 _ hs => h0.step hs)
    (fun _ _ h0 _ h => feedGuard_of_madeBy h0 h) empty_allAfter (fun _ _ => trivial) h

/-- The feed thread applies one write event. -/
def feedsOne : List MountAct := .feed :: List.replicate 6 .feedRun

/-- Another client has written to `f`. A lookup of `f` is answered after that, and the
answer goes into the cache after the event has been applied. -/
def lookedUpAfter : List MountAct :=
  .change ⟨"f", .write 0 1⟩ :: .stat 0 "f" :: .answer 0 (.entry (some aFile)) :: feedsOne ++ List.replicate 3 (.run 0 0)

theorem names_never_before_change_lookup :
    ∃ s e v, exec (step []) empty lookedUpAfter = some s ∧
      e ∈ s.applied ∧ s.metas e.event.path = some v ∧ e.madeAt ≤ v.asOf := by
  have hrun : (exec (step []) empty lookedUpAfter).any fun s =>
      s.applied.head?.any fun e => (s.metas e.event.path).isSome := by
    decide
  obtain ⟨s, hs, hrun⟩ := (Option.any_eq_true _ _).1 hrun
  obtain ⟨e, he, hrun⟩ := (Option.any_eq_true _ _).1 hrun
  obtain ⟨v, hv⟩ := Option.isSome_iff_exists.1 hrun
  have hmem := List.mem_of_mem_head? he
  exact ⟨s, e, v, hs, hmem, hv, (names_never_before_change [] empty s _ empty_quiet (feedGuard_empty (by decide)) hs e
    (List.mem_append_left _ hmem)).1 v hv⟩

/-- A lookup of `f` and a listing of the root are answered, then the change is made
and its event applied, and then the answers go into the caches. -/
def answeredBefore : List MountAct :=
  .stat 0 "f" :: .answer 0 (.entry (some aFile)) :: .listDir 1 "" :: .answer 1 (.entries [("f", aFile)]) ::
    .change ⟨"f", .write 0 1⟩ :: feedsOne ++ .run 1 0 :: List.replicate 3 (.run 0 0)

theorem late_answer_resurrects :
    ∃ s e v w, exec (step []) empty answeredBefore = some s ∧
      e ∈ s.applied ∧ s.metas e.event.path = some v ∧ v.asOf < e.madeAt ∧
      s.dirs (splitParent e.event.path).1 = some w ∧ w.asOf < e.madeAt := by
  have hrun : (exec (step []) empty answeredBefore).any fun s =>
      s.applied.head?.any fun e => (s.metas e.event.path).any (·.asOf < e.madeAt) &&
        (s.dirs (splitParent e.event.path).1).any (·.asOf < e.madeAt) := by
    decide
  obtain ⟨s, hs, hrun⟩ := (Option.any_eq_true _ _).1 hrun
  obtain ⟨e, he, hrun⟩ := (Option.any_eq_true _ _).1 hrun
  obtain ⟨hm, hd⟩ := Bool.and_eq_true_iff.1 hrun
  obtain ⟨v, hv, hlt⟩ := (Option.any_eq_true _ _).1 hm
  obtain ⟨w, hw, hlt'⟩ := (Option.any_eq_true _ _).1 hd
  exact ⟨s, e, v, w, hs, List.mem_of_mem_head? he, hv, of_decide_eq_true hlt, hw, of_decide_eq_true hlt'⟩

end Mount

end Mobfs
