import Mathlib.Logic.Function.Basic
import Mobfs.Lib.Runs
import Mobfs.Vfs.BlockCache
/-!
# The block cache: fetches and invalidations

A fetch goes through several critical sections with a remote read between them:
it registers itself as in flight, reads the generation of its path, reads from the
remote, inserts block by block and takes itself off again. Others wait for it.
`invalidate_tree` has two critical sections, the other invalidations one.

Time is counted in steps. `Fresh T K` says that no block of `K` that is cached, or
that a fetch under way can still insert, was read before `T`. Every step keeps it.
An invalidation establishes it for what it takes out, if it advances the
generation of every path there on which a read is under way.
-/

namespace Mobfs

open Lib Std

/-- What a leader has registered: consecutive blocks of one path. `whole` for
`fetch_run`, which inserts all it gets; `fetch` inserts one block. -/
structure FetchJob where
  path : String
  first : Nat
  flights : List Nat
  whole : Bool

/-- A call under way, by the critical section or the remote read it is at. -/
inductive Fetch where
  | lookup (key : BlockKey)
  | join (key : BlockKey)
  | wait (flight : Nat) (key : BlockKey)
  | lookupAgain (key : BlockKey)
  | readAlone (key : BlockKey)
  | register (path : String) (first count : Nat)
  | generation (job : FetchJob)
  | read (job : FetchJob) (generation : Nat)
  | reading (job : FetchJob) (generation started : Nat)
  | insert (job : FetchJob) (generation started position : Nat) (blocks : List Bytes)
  | finish (job : FetchJob)
  | signal (flights : List Nat)
  /-- `invalidate_tree`, when it has collected the paths. -/
  | tree (d : String) (paths : List String)

structure BlockCache where
  store : BlockStore
  inflight : ExtTreeMap BlockKey Nat BlockKey.cmp
  nextFlight : Nat
  finished : List Nat
  threads : Nat → Option Fetch
  now : Nat

inductive CacheAct where
  | fetch (t : Nat) (path : String) (index : Nat)
  | fetchRun (t : Nat) (path : String) (first count : Nat)
  | get (path : String) (index : Nat)
  | invalidateRange (path : String) (offset len : Nat)
  | invalidatePath (path : String)
  | invalidateTree (t : Nat) (path : String)
  | clear
  /-- The thread goes on; `reply` is what a remote read that ends here returns. -/
  | run (t : Nat) (reply : Option (List Bytes))

def intoBlocks (frames : List Bytes) : List Bytes :=
  let aligned := frames.dropLast.all (·.length == blockSize) && frames.getLast?.all (·.length ≤ blockSize)
  if aligned then frames else chunks blockSize frames.flatten

namespace BlockCache

def goOn (s : BlockCache) (t : Nat) (f : Option Fetch) : BlockCache :=
  { s with threads := Function.update s.threads t f }

/-- The loop of `fetch_run` under both locks: registers blocks until one is cached or
in flight. -/
def registerRun (st : BlockStore) (path : String) (next : Nat) :
    ExtTreeMap BlockKey Nat BlockKey.cmp → Nat → Nat → ExtTreeMap BlockKey Nat BlockKey.cmp × List Nat
  | inflight, _, 0 => (inflight, [])
  | inflight, index, count + 1 =>
    if st.blocks.contains (path, index) || inflight.contains (path, index) then (inflight, [])
    else
      let r := registerRun st path (next + 1) (inflight.insert (path, index) next) (index + 1) count
      (r.1, next :: r.2)

/-- What is inserted of a remote read. -/
def FetchJob.blocks (job : FetchJob) (frames : List Bytes) : List Bytes :=
  if job.whole then intoBlocks frames else [(intoBlocks frames).head?.getD []]

def FetchJob.keys (job : FetchJob) : List BlockKey :=
  (List.range job.flights.length).map fun i => (job.path, job.first + i)

/-- The next critical section of a thread. -/
def goOnWith (s : BlockCache) (t : Nat) (reply : Option (List Bytes)) : Fetch → Option BlockCache
  | .lookup key =>
    let r := s.store.get key
    some ({ s with store := r.1 }.goOn t (if r.2.isSome then none else some (.join key)))
  | .join key =>
    match s.inflight[key]? with
    | some flight => some (s.goOn t (some (.wait flight key)))
    | none =>
      some ({ s with inflight := s.inflight.insert key s.nextFlight, nextFlight := s.nextFlight + 1 }.goOn t
        (some (.generation ⟨key.1, key.2, [s.nextFlight], false⟩)))
  | .wait flight key => if flight ∈ s.finished then some (s.goOn t (some (.lookupAgain key))) else none
  | .lookupAgain key =>
    let r := s.store.get key
    some ({ s with store := r.1 }.goOn t (if r.2.isSome then none else some (.readAlone key)))
  | .readAlone _ => some (s.goOn t none)
  | .register path first count =>
    let r := registerRun s.store path s.nextFlight s.inflight first count
    some ({ s with inflight := r.1, nextFlight := s.nextFlight + r.2.length }.goOn t
      (if r.2.isEmpty then none else some (.generation ⟨path, first, r.2, true⟩)))
  | .generation job => some (s.goOn t (some (.read job (s.store.generations job.path))))
  | .read job generation => some (s.goOn t (some (.reading job generation s.now)))
  | .reading job generation started =>
    match reply with
    | some frames => some (s.goOn t (some (.insert job generation started 0 (FetchJob.blocks job frames))))
    | none => some (s.goOn t (some (.finish job)))
  | .insert job generation started position (b :: bs) =>
    some ({ s with store := s.store.insert (job.path, job.first + position) ⟨b, started⟩ generation }.goOn t
      (some (.insert job generation started (position + 1) bs)))
  | .insert job _ _ _ [] => some (s.goOn t (some (.finish job)))
  | .finish job =>
    some ({ s with inflight := (FetchJob.keys job).foldl (fun m k => m.erase k) s.inflight }.goOn t
      (some (.signal job.flights)))
  | .signal flights => some ({ s with finished := flights ++ s.finished }.goOn t none)
  | .tree _ paths => some ({ s with store := s.store.invalidateWhere paths fun _ => false }.goOn t none)

def call (s : BlockCache) (t : Nat) (f : Fetch) : Option BlockCache :=
  match s.threads t with
  | none => some (s.goOn t (some f))
  | some _ => none

def act (s : BlockCache) : CacheAct → Option BlockCache
  | .fetch t path index => s.call t (.lookup (path, index))
  | .fetchRun t path first count => s.call t (.register path first count)
  | .get path index => some { s with store := (s.store.get (path, index)).1 }
  | .invalidateRange path offset len => some { s with store := s.store.invalidateRange path offset len }
  | .invalidatePath path => some { s with store := s.store.invalidatePath path }
  | .invalidateTree t path => s.call t (.tree path (s.store.treePaths path))
  | .clear => some { s with store := s.store.clear }
  | .run t reply => (s.threads t).bind (s.goOnWith t reply)

def step (s : BlockCache) (a : CacheAct) : Option BlockCache :=
  (s.act a).map fun s' => { s' with now := s.now + 1 }

/-- No call is under way. The store may hold what was loaded before. -/
def Idle (s : BlockCache) : Prop := ∀ t, s.threads t = none

end BlockCache

/-! ## What a step can do -/

/-- A generation the call has read and will compare with. -/
def Fetch.claim : Fetch → Option (String × Nat)
  | .read job g => some (job.path, g)
  | .reading job g _ => some (job.path, g)
  | .insert job g _ _ _ => some (job.path, g)
  | _ => none

/-- The remote read of the call has started, and it may yet insert a block: the path,
the generation and the time of the read. -/
def Fetch.inserting : Fetch → Option (String × Nat × Nat)
  | .reading job g started => some (job.path, g, started)
  | .insert job g started _ (_ :: _) => some (job.path, g, started)
  | _ => none

/-- A step leaves the cache alone, advances generations and takes blocks out, or
inserts a block of a call that is under way. -/
inductive StoreStep (s : BlockCache) (st : BlockStore) : Prop
  | same (hblock : ∀ k, st.block k = s.store.block k) (hgen : st.generations = s.store.generations)
  | shrink (hblock : ∀ k, st.block k = s.store.block k ∨ st.block k = none)
      (hgen : ∀ p, s.store.generations p ≤ st.generations p)
  | insert (t : Nat) (job : FetchJob) (g started position : Nat) (b : Bytes) (bs : List Bytes)
      (ht : s.threads t = some (.insert job g started position (b :: bs)))
      (hst : st = s.store.insert (job.path, job.first + position) ⟨b, started⟩ g)

theorem StoreStep.generations_le {s : BlockCache} {st : BlockStore} (h : StoreStep s st) (p : String) :
    s.store.generations p ≤ st.generations p := by
  cases h with
  | same hblock hgen => rw [hgen]
  | shrink hblock hgen => exact hgen p
  | insert t job g started position b bs ht hst => rw [hst, BlockStore.generations_insert]

namespace BlockCache
variable {s s' : BlockCache}

/-- What a call holds next, it held before or has got now. -/
structure Follows (s : BlockCache) (f : Option Fetch) (x : Fetch) : Prop where
  claim : ∀ p g, x.claim = some (p, g) → (∃ y, f = some y ∧ y.claim = some (p, g)) ∨ g = s.store.generations p
  inserting : ∀ p g started, x.inserting = some (p, g, started) →
    (∃ y, f = some y ∧ y.inserting = some (p, g, started)) ∨ started = s.now

theorem follows_of_none {f : Option Fetch} {x : Fetch} (hc : x.claim = none) (hi : x.inserting = none) :
    Follows s f x := by
  constructor
  · intro p g h
    rw [hc] at h
    cases h
  · intro p g started h
    rw [hi] at h
    cases h

/-- The one call a step moves on, and where to. -/
theorem goOnWith_threads {t : Nat} {reply : Option (List Bytes)} {f : Fetch} (h : s.goOnWith t reply f = some s') :
    ∃ f', s'.threads = Function.update s.threads t f' ∧ ∀ x, f' = some x → Follows s (some f) x := by
  cases f with
  | lookup key =>
    cases h
    refine ⟨_, rfl, fun x hx => ?_⟩
    simp only [Option.ite_none_left_eq_some, Option.some.injEq] at hx
    rw [← hx.2]
    exact follows_of_none rfl rfl
  | join key =>
    simp only [goOnWith] at h
    split at h
    · cases h
      exact ⟨_, rfl, by rintro x ⟨⟩; exact follows_of_none rfl rfl⟩
    · cases h
      exact ⟨_, rfl, by rintro x ⟨⟩; exact follows_of_none rfl rfl⟩
  | wait flight key =>
    simp only [goOnWith, Option.ite_none_right_eq_some, Option.some.injEq] at h
    rw [← h.2]
    exact ⟨_, rfl, by rintro x ⟨⟩; exact follows_of_none rfl rfl⟩
  | lookupAgain key =>
    cases h
    refine ⟨_, rfl, fun x hx => ?_⟩
    simp only [Option.ite_none_left_eq_some, Option.some.injEq] at hx
    rw [← hx.2]
    exact follows_of_none rfl rfl
  | readAlone key =>
    cases h
    exact ⟨none, rfl, by simp⟩
  | register path first count =>
    cases h
    refine ⟨_, rfl, fun x hx => ?_⟩
    simp only [Option.ite_none_left_eq_some, Option.some.injEq] at hx
    rw [← hx.2]
    exact follows_of_none rfl rfl
  | generation job =>
    cases h
    refine ⟨_, rfl, ?_⟩
    rintro x ⟨⟩
    constructor
    · rintro p g ⟨⟩
      exact .inr rfl
    · simp [Fetch.inserting]
  | read job g =>
    cases h
    refine ⟨_, rfl, ?_⟩
    rintro x ⟨⟩
    constructor
    · intro p g h
      exact .inl ⟨_, rfl, h⟩
    · rintro p g started ⟨⟩
      exact .inr rfl
  | reading job g started =>
    simp only [goOnWith] at h
    split at h
    · cases h
      refine ⟨_, rfl, ?_⟩
      rintro x ⟨⟩
      refine ⟨fun p g h => .inl ⟨_, rfl, h⟩, fun p g st hi => .inl ⟨_, rfl, ?_⟩⟩
      unfold Fetch.inserting at hi
      split at hi <;> simp_all [Fetch.inserting]
    · cases h
      exact ⟨_, rfl, by rintro x ⟨⟩; exact follows_of_none rfl rfl⟩
  | insert job g started position bs =>
    cases bs with
    | nil =>
      cases h
      exact ⟨_, rfl, by rintro x ⟨⟩; exact follows_of_none rfl rfl⟩
    | cons b bs =>
      cases h
      refine ⟨_, rfl, ?_⟩
      rintro x ⟨⟩
      refine ⟨fun p g h => .inl ⟨_, rfl, h⟩, fun p g st hi => .inl ⟨_, rfl, ?_⟩⟩
      -- The last block leaves nothing to insert.
      cases bs with
      | nil => cases hi
      | cons b' bs => exact hi
  | finish job =>
    cases h
    exact ⟨_, rfl, by rintro x ⟨⟩; exact follows_of_none rfl rfl⟩
  | signal flights =>
    cases h
    exact ⟨none, rfl, by simp⟩
  | tree d paths =>
    cases h
    exact ⟨none, rfl, by simp⟩

theorem shrink_invalidateWhere (s : BlockCache) (paths : List String) (keep : BlockKey → Bool) :
    StoreStep s (s.store.invalidateWhere paths keep) := by
  refine .shrink (fun k => ?_) (fun p => ?_)
  · rw [BlockStore.block_invalidateWhere]
    split
    · exact .inr rfl
    · exact .inl rfl
  · rw [BlockStore.generations_invalidateWhere]
    split <;> omega

theorem goOnWith_store {t : Nat} {reply : Option (List Bytes)} {f : Fetch} (hf : s.threads t = some f)
    (h : s.goOnWith t reply f = some s') : StoreStep s s'.store := by
  have hsame : StoreStep s s.store := .same (fun _ => rfl) rfl
  have hget : ∀ key, StoreStep s (s.store.get key).1 :=
    fun key => .same (fun _ => BlockStore.block_get) BlockStore.generations_get
  unfold goOnWith at h
  split at h
  case h_1 => cases h; exact hget _
  case h_2 => split at h <;> cases h <;> exact hsame
  case h_3 =>
    simp only [Option.ite_none_right_eq_some, Option.some.injEq] at h
    rw [← h.2]
    exact hsame
  case h_4 => cases h; exact hget _
  case h_9 => split at h <;> cases h <;> exact hsame
  case h_10 job g started position b bs =>
    cases h
    exact .insert t job g started position b bs hf rfl
  case h_14 d paths =>
    cases h
    exact shrink_invalidateWhere s paths _
  all_goals
    cases h
    exact hsame

/-- What a step can do, for the generations read and the reads under way. -/
structure Moves (s s' : BlockCache) : Prop where
  now : s'.now = s.now + 1
  store : StoreStep s s'.store
  claim : ∀ t x, s'.threads t = some x → ∀ p g, x.claim = some (p, g) →
    (∃ y, s.threads t = some y ∧ y.claim = some (p, g)) ∨ g = s.store.generations p
  inserting : ∀ t x, s'.threads t = some x → ∀ p g started, x.inserting = some (p, g, started) →
    (∃ y, s.threads t = some y ∧ y.inserting = some (p, g, started)) ∨ started = s.now

/-- A step that moves no call on. -/
theorem moves_store {st : BlockStore} (h : StoreStep s st) : Moves s { s with store := st, now := s.now + 1 } :=
  ⟨rfl, h, fun _ x hx _ _ hc => .inl ⟨x, hx, hc⟩, fun _ x hx _ _ _ hi => .inl ⟨x, hx, hi⟩⟩

/-- A step of one call. -/
theorem moves_thread {t : Nat} {f' : Option Fetch} (hst : StoreStep s s'.store)
    (hth : s'.threads = Function.update s.threads t f') (hf : ∀ x, f' = some x → Follows s (s.threads t) x) :
    Moves s { s' with now := s.now + 1 } := by
  refine ⟨rfl, hst, fun u x hx p g hc => ?_, fun u x hx p g started hi => ?_⟩
  · by_cases hu : u = t
    · have hx1 : f' = some x := by simpa [hth, hu] using hx
      rw [hu]
      exact (hf x hx1).claim p g hc
    · have hx1 : s.threads u = some x := by simpa [hth, Function.update_of_ne hu] using hx
      exact .inl ⟨x, hx1, hc⟩
  · by_cases hu : u = t
    · have hx1 : f' = some x := by simpa [hth, hu] using hx
      rw [hu]
      exact (hf x hx1).inserting p g started hi
    · have hx1 : s.threads u = some x := by simpa [hth, Function.update_of_ne hu] using hx
      exact .inl ⟨x, hx1, hi⟩

theorem moves_call {t : Nat} {f : Fetch} (hc : f.claim = none) (hi : f.inserting = none)
    (h : s.call t f = some s') : Moves s { s' with now := s.now + 1 } := by
  unfold call at h
  split at h
  · cases h
    refine moves_thread (.same (fun _ => rfl) rfl) rfl fun x hx => ?_
    cases hx
    exact follows_of_none hc hi
  · cases h

theorem step_moves {a : CacheAct} (h : s.step a = some s') : Moves s s' := by
  obtain ⟨s1, h1, rfl⟩ := Option.map_eq_some_iff.1 h
  cases a with
  | fetch t path index => exact moves_call rfl rfl h1
  | fetchRun t path first count => exact moves_call rfl rfl h1
  | invalidateTree t path => exact moves_call rfl rfl h1
  | get path index =>
    cases h1
    exact moves_store (.same (fun _ => BlockStore.block_get) BlockStore.generations_get)
  | invalidateRange path offset len =>
    cases h1
    exact moves_store (shrink_invalidateWhere s _ _)
  | invalidatePath path =>
    cases h1
    exact moves_store (shrink_invalidateWhere s _ _)
  | clear =>
    cases h1
    exact moves_store (.shrink (fun _ => .inr BlockStore.block_clear) fun p => (BlockStore.generations_clear p).2)
  | run t reply =>
    obtain ⟨f, hf, h1⟩ := Option.bind_eq_some_iff.1 h1
    obtain ⟨f', hth, hspec⟩ := goOnWith_threads h1
    refine moves_thread (goOnWith_store hf h1) hth fun x hx => ?_
    rw [hf]
    exact hspec x hx

/-! ## Freshness -/

/-- No call has read a generation that is still to come. -/
def GenInv (s : BlockCache) : Prop :=
  ∀ t x p g, s.threads t = some x → x.claim = some (p, g) → g ≤ s.store.generations p

structure Fresh (T : Nat) (K : BlockKey → Prop) (s : BlockCache) : Prop where
  cached : ∀ k, K k → ∀ b, s.store.block k = some b → T ≤ b.readAt
  inserting : ∀ t x p g started, s.threads t = some x → x.inserting = some (p, g, started) →
    g = s.store.generations p → (∃ index, K (p, index)) → T ≤ started
  now : T ≤ s.now

theorem claim_of_inserting {x : Fetch} {p : String} {g started : Nat} (h : x.inserting = some (p, g, started)) :
    x.claim = some (p, g) := by
  unfold Fetch.inserting at h
  split at h
  · cases h; rfl
  · cases h; rfl
  · cases h

theorem GenInv.moves (h : GenInv s) (hm : Moves s s') : GenInv s' := by
  intro t x p g hx hc
  have hle := hm.store.generations_le p
  rcases hm.claim t x hx p g hc with ⟨y, hy, hc'⟩ | rfl
  · exact Nat.le_trans (h t y p g hy hc') hle
  · exact hle

theorem Fresh.moves {T : Nat} {K : BlockKey → Prop} (h : Fresh T K s) (hg : GenInv s) (hm : Moves s s') :
    Fresh T K s' := by
  refine ⟨?_, ?_, by rw [hm.now]; exact Nat.le_succ_of_le h.now⟩
  · intro k hk b hb
    cases hm.store with
    | same hblock hgen => exact h.cached k hk b (by rwa [hblock k] at hb)
    | shrink hblock hgen =>
      rcases hblock k with e | e
      · exact h.cached k hk b (by rwa [e] at hb)
      · rw [e] at hb
        cases hb
    | insert t job g started position d ds ht hst =>
      rw [hst] at hb
      rcases BlockStore.block_insert hb with hb | ⟨rfl, rfl, hgen⟩
      · exact h.cached k hk b hb
      · exact h.inserting t _ job.path g started ht rfl hgen.symm ⟨_, hk⟩
  · intro t x p g started hx hi hgen hK
    rcases hm.inserting t x hx p g started hi with ⟨y, hy, hi'⟩ | rfl
    · -- The generation the call has read is the present one, so it has not been advanced.
      have h1 := hg t y p g hy (claim_of_inserting hi')
      have h2 := hm.store.generations_le p
      exact h.inserting t y p g started hy hi' (by omega) hK
    · exact h.now

/-- An invalidation that takes the blocks of `K` out and advances the generations of
all paths of `K` on which a read is under way. -/
theorem fresh_of_invalidation {K : BlockKey → Prop} (hg : GenInv s) (hm : Moves s s')
    (hout : ∀ k, K k → s'.store.block k = none)
    (hbump : ∀ t x p g started, s.threads t = some x → x.inserting = some (p, g, started) →
      g = s.store.generations p → (∃ index, K (p, index)) → s.store.generations p < s'.store.generations p)
    (hthreads : ∀ t x, s'.threads t = some x → x.inserting ≠ none → s.threads t = some x) :
    Fresh s'.now K s' := by
  refine ⟨?_, ?_, Nat.le_refl _⟩
  · intro k hk b hb
    rw [hout k hk] at hb
    cases hb
  · intro t x p g started hx hi hgen hK
    have hx' := hthreads t x hx (by simp [hi])
    have h1 := hg t x p g hx' (claim_of_inserting hi)
    have h2 := hm.store.generations_le p
    have h3 := hbump t x p g started hx' hi (by omega) hK
    omega

theorem genInv_exec {s₀ : BlockCache} {as : List CacheAct} (h₀ : s₀.Idle) (h : exec step s₀ as = some s) : GenInv s :=
  exec_inv GenInv (fun _ _ _ hi hs => hi.moves (step_moves hs)) (fun t x p g hx => by rw [h₀ t] at hx; cases hx) h

/-- What is fresh stays fresh. -/
theorem fresh_exec {T : Nat} {K : BlockKey → Prop} {as : List CacheAct} (hg : GenInv s) (hf : Fresh T K s)
    (h : exec step s as = some s') : Fresh T K s' := by
  refine (exec_inv (fun s => GenInv s ∧ Fresh T K s) (fun a b c hi hs => ?_) ⟨hg, hf⟩ h).2
  exact ⟨hi.1.moves (step_moves hs), hi.2.moves hi.1 (step_moves hs)⟩

/-! ## Invalidation of a path or a range -/

/-- What `invalidate_range` or `invalidate_path` is to take out. -/
def Hits : CacheAct → BlockKey → Prop
  | .invalidateRange path offset len, k => k.1 = path ∧ BlockStore.Overlaps offset len k.2
  | .invalidatePath path, k => k.1 = path
  | _, _ => False

/-- The step evicts the block or invalidates it. -/
def Drops (s : BlockCache) (k : BlockKey) : CacheAct → Prop
  | .invalidateRange path offset len => k.1 = path ∧ BlockStore.inRange offset len k.2 = true
  | .invalidatePath path => k.1 = path
  | .clear => True
  | .run t _ =>
    match s.threads t with
    | some (.tree _ paths) => k.1 ∈ paths
    | some (.insert job g started position (b :: _)) =>
      let st := s.store.place (job.path, job.first + position) ⟨b, started⟩
      s.store.generations job.path = g ∧ k ∈ st.evicted st.lru.toList
    | _ => False
  | _ => False

/-- A block that a step does not drop stays. -/
theorem step_kept {k : BlockKey} {a : CacheAct} (hk : s.store.block k ≠ none) (hd : ¬ s.Drops k a)
    (h : s.step a = some s') : s'.store.block k ≠ none := by
  obtain ⟨s1, h1, rfl⟩ := Option.map_eq_some_iff.1 h
  have hwhere : ∀ paths keep, ¬ (k.1 ∈ paths ∧ keep k = false) → (s.store.invalidateWhere paths keep).block k ≠ none := by
    intro paths keep hn
    rwa [BlockStore.block_invalidateWhere, if_neg hn]
  have hcall : ∀ t f, s.call t f = some s1 → s1.store.block k ≠ none := by
    intro t f hc
    unfold call at hc
    split at hc <;> cases hc
    exact hk
  cases a with
  | fetch t path index => exact hcall t _ h1
  | fetchRun t path first count => exact hcall t _ h1
  | invalidateTree t path => exact hcall t _ h1
  | get path index =>
    cases h1
    show (s.store.get (path, index)).1.block k ≠ none
    rwa [BlockStore.block_get]
  | invalidateRange path offset len =>
    cases h1
    refine hwhere _ _ fun hc => hd ⟨List.mem_singleton.1 hc.1, ?_⟩
    simpa using hc.2
  | invalidatePath path =>
    cases h1
    exact hwhere _ _ fun hc => hd (List.mem_singleton.1 hc.1)
  | clear => exact absurd trivial hd
  | run t reply =>
    obtain ⟨f, hf, h1⟩ := Option.bind_eq_some_iff.1 h1
    simp only [Drops, hf] at hd
    unfold goOnWith at h1
    split at h1
    case h_1 =>
      cases h1
      simpa [goOn, BlockStore.block_get] using hk
    case h_2 => split at h1 <;> cases h1 <;> exact hk
    case h_3 =>
      simp only [Option.ite_none_right_eq_some, Option.some.injEq] at h1
      rw [← h1.2]
      exact hk
    case h_4 =>
      cases h1
      simpa [goOn, BlockStore.block_get] using hk
    case h_9 => split at h1 <;> cases h1 <;> exact hk
    case h_10 job g started position b bs =>
      cases h1
      exact BlockStore.block_insert_kept hk fun hg he => hd ⟨hg, he⟩
    case h_14 d paths =>
      cases h1
      exact hwhere _ _ fun hc => hd hc.1
    all_goals
      cases h1
      exact hk

/-- Whatever fetches are under way: after `invalidate_range` or `invalidate_path`,
a block of the path that overlaps the range and that `get` returns was read from the
remote afterwards. A block of the path outside the range stays until it is evicted
or invalidated. -/
theorem invalidation_beats_fetches (s₀ s₁ s₂ s : BlockCache) (as₁ as₂ : List CacheAct) (a : CacheAct) (h₀ : s₀.Idle)
    (h₁ : exec step s₀ as₁ = some s₁) (ha : s₁.step a = some s₂) (h₂ : exec step s₂ as₂ = some s) :
    (∀ k b, Hits a k → k.2 * blockSize ≤ u64Max → (s.store.get k).2 = some b → s₂.now ≤ b.readAt) ∧
    ∀ path offset len index, a = .invalidateRange path offset len → ¬ BlockStore.Overlaps offset len index →
      (s₁.store.get (path, index)).2 ≠ none → Guarded step (fun s a => ¬ s.Drops (path, index) a) s₂ as₂ →
      (s.store.get (path, index)).2 ≠ none := by
  have hg := genInv_exec h₀ h₁
  have hm := step_moves ha
  refine ⟨fun k b hit hi hb => ?_, ?_⟩
  · rw [BlockStore.get_snd] at hb
    have hfresh : ∃ K, K k ∧ Fresh s₂.now K s₂ := by
      obtain ⟨s', hs', rfl⟩ := Option.map_eq_some_iff.1 ha
      cases a with
      | invalidateRange path offset len =>
        cases hs'
        refine ⟨fun k => k.1 = path ∧ BlockStore.inRange offset len k.2 = true,
          ⟨hit.1, BlockStore.inRange_of_overlaps hit.2 hi⟩, fresh_of_invalidation hg hm ?_ ?_ fun t x hx _ => hx⟩
        · rintro k ⟨hk, hr⟩
          show (s₁.store.invalidateWhere _ _).block k = none
          rw [BlockStore.block_invalidateWhere, if_pos]
          exact ⟨List.mem_singleton.2 hk, by simp [hr]⟩
        · rintro t x p g started - - - ⟨index, hp, -⟩
          show _ < (s₁.store.invalidateWhere _ _).generations p
          rw [BlockStore.generations_invalidateWhere, if_pos (List.mem_singleton.2 hp)]
          omega
      | invalidatePath path =>
        cases hs'
        refine ⟨fun k => k.1 = path, hit, fresh_of_invalidation hg hm ?_ ?_ fun t x hx _ => hx⟩
        · intro k hk
          show (s₁.store.invalidateWhere _ _).block k = none
          rw [BlockStore.block_invalidateWhere, if_pos]
          exact ⟨List.mem_singleton.2 hk, rfl⟩
        · rintro t x p g started - - - ⟨index, hp⟩
          show _ < (s₁.store.invalidateWhere _ _).generations p
          rw [BlockStore.generations_invalidateWhere, if_pos (List.mem_singleton.2 hp)]
          omega
      | _ => exact absurd hit id
    obtain ⟨K, hk, hf⟩ := hfresh
    exact (fresh_exec (hg.moves hm) hf h₂).cached k hk b hb
  · rintro path offset len index rfl hout hc hguard
    rw [BlockStore.get_snd] at hc ⊢
    have hd : ¬ s₁.Drops (path, index) (.invalidateRange path offset len) :=
      fun h => hout (BlockStore.overlaps_of_inRange h.2)
    exact exec_guarded_inv (fun s => s.store.block (path, index) ≠ none) (fun _ _ _ hk hd hs => step_kept hk hd hs)
      (step_kept hc hd ha) hguard h₂

/-- An empty cache. -/
def empty : BlockCache := ⟨.new 0, ∅, 0, [], fun _ => none, 1⟩

/-- A thread fetches the first block of a file, up to its remote read. -/
def fetchStarts (t : Nat) (path : String) : List CacheAct := .fetch t path 0 :: List.replicate 4 (.run t none)

/-- The read returns a byte, and the fetch ends. -/
def fetchEnds (t : Nat) (byte : UInt8) : List CacheAct := .run t (some [[byte]]) :: List.replicate 4 (.run t none)

/-- The fetch that was under way leaves nothing in the cache, a later one does. -/
theorem invalidation_beats_fetches_in_flight :
    ∃ s₁ s₂ s b, exec step empty (fetchStarts 0 "f") = some s₁ ∧ s₁.step (.invalidateRange "f" 0 1) = some s₂ ∧
      exec step s₂ (fetchEnds 0 1 ++ fetchStarts 1 "f" ++ fetchEnds 1 2) = some s ∧
      (s.store.get ("f", 0)).2 = some b ∧ s₂.now ≤ b.readAt := by
  have hrun : (exec step empty (fetchStarts 0 "f")).any fun s₁ => (s₁.step (.invalidateRange "f" 0 1)).any fun s₂ =>
      (exec step s₂ (fetchEnds 0 1 ++ fetchStarts 1 "f" ++ fetchEnds 1 2)).any fun s => (s.store.get ("f", 0)).2.isSome := by
    decide
  obtain ⟨s₁, h₁, hrun⟩ := (Option.any_eq_true _ _).1 hrun
  obtain ⟨s₂, ha, hrun⟩ := (Option.any_eq_true _ _).1 hrun
  obtain ⟨s, h₂, hrun⟩ := (Option.any_eq_true _ _).1 hrun
  obtain ⟨b, hb⟩ := Option.isSome_iff_exists.1 hrun
  have hit : Hits (.invalidateRange "f" 0 1) ("f", 0) := ⟨rfl, 0, by decide⟩
  exact ⟨s₁, s₂, s, b, h₁, ha, h₂, hb,
    (invalidation_beats_fetches empty s₁ s₂ s _ _ _ (fun _ => rfl) h₁ ha h₂).1 ("f", 0) b hit (by decide) hb⟩

/-- A range of length zero has no byte, and yet the block at its offset goes. -/
theorem empty_range_invalidates :
    ∃ s₁ s₂, exec step empty (fetchStarts 0 "f" ++ fetchEnds 0 1) = some s₁ ∧ (s₁.store.get ("f", 0)).2 ≠ none ∧
      s₁.step (.invalidateRange "f" 0 0) = some s₂ ∧ (¬ ∃ byte, 0 ≤ byte ∧ byte < 0 + 0 ∧ byte / blockSize = 0) ∧
      (s₂.store.get ("f", 0)).2 = none := by
  have hrun : (exec step empty (fetchStarts 0 "f" ++ fetchEnds 0 1)).any fun s₁ => (s₁.store.get ("f", 0)).2.isSome &&
      (s₁.step (.invalidateRange "f" 0 0)).any fun s₂ => (s₂.store.get ("f", 0)).2.isNone := by
    decide
  obtain ⟨s₁, h₁, hrun⟩ := (Option.any_eq_true _ _).1 hrun
  obtain ⟨hc, hrun⟩ := Bool.and_eq_true_iff.1 hrun
  obtain ⟨s₂, ha, hrun⟩ := (Option.any_eq_true _ _).1 hrun
  refine ⟨s₁, s₂, h₁, Option.isSome_iff_ne_none.1 hc, ha, ?_, Option.isNone_iff_eq_none.1 hrun⟩
  rintro ⟨byte, -, hlt, -⟩
  omega

end BlockCache

end Mobfs
