import Mobfs.Daemon.FileReads
import Mobfs.Vfs.BlockFetch
import Mobfs.Vfs.BlockWrites
/-!
# Fetches of a file that does not change

As long as the daemon answers with what the file has, no fetch puts anything else into
the cache, whatever the others do (`Agrees`). And a thread that waits for a block waits
for one that still works on it (`Led`).
-/

namespace Mobfs

open Lib Std

/-- The frames in which the daemon answers a `ReadRange`. -/
def rangeFrames (cs : Bytes) (offset len : Nat) : List Bytes :=
  chunks rangeFrameBytes ((cs.drop offset).take (min len maxRangeBytes))

/-- The remote read that a call is at: path, offset and length. -/
def Fetch.request : Fetch → Option (String × Nat × Nat)
  | .readAlone key => some (key.1, key.2 * blockSize, blockSize)
  | .reading job _ _ => some (job.path, job.first * blockSize, job.flights.length * blockSize)
  | _ => none

/-- The blocks that a call has registered as in flight. -/
def Fetch.registered : Fetch → Option FetchJob
  | .generation job | .read job _ | .reading job _ _ | .insert job _ _ _ _ | .finish job => some job
  | _ => none

/-- The flights that a call will end. -/
def Fetch.leads : Fetch → List Nat
  | .signal flights => flights
  | x => (x.registered.map (·.flights)).getD []

/-- The thread that a call starts on. -/
def CacheAct.caller : CacheAct → Option Nat
  | .fetch t _ _ | .fetchRun t _ _ _ | .invalidateTree t _ => some t
  | _ => none

/-! ## What the daemon answers -/

/-- Frames that are blocks already are left, and others are cut anew: both ways give the blocks. -/
theorem intoBlocks_eq {frames : List Bytes} (h : ∀ f ∈ frames, f ≠ []) :
    intoBlocks frames = chunks blockSize frames.flatten := by
  unfold intoBlocks
  simp only
  split
  · rename_i haligned
    rw [Bool.and_eq_true, List.all_eq_true, Option.all_eq_true] at haligned
    obtain ⟨hfull, hlast⟩ := haligned
    rw [chunks_eq_of_flatten (by decide) h (fun c hc => eq_of_beq (hfull c hc)) fun c hc => of_decide_eq_true (hlast c hc)]
  · rfl

theorem intoBlocks_chunks (data : Bytes) : intoBlocks (chunks blockSize data) = chunks blockSize data := by
  rw [intoBlocks_eq (chunks_ne_nil (by decide) data), chunks_flatten (by decide)]

theorem getElem?_rangeFrames {cs : Bytes} {first n j : Nat} {b : Bytes}
    (h : (rangeFrames cs (first * blockSize) (n * blockSize))[j]? = some b) : b = blockOf cs (first + j) := by
  rw [rangeFrames, getElem?_chunks (by decide)] at h
  have hm : min (n * blockSize) maxRangeBytes = min n 16 * blockSize := by
    simp only [maxRangeBytes, blockSize]
    omega
  rw [hm, show rangeFrameBytes = blockSize from rfl] at h
  split at h
  · rename_i hj
    cases h
    rw [List.length_take, List.length_drop] at hj
    -- The piece lies within the length that was asked for.
    have hlt : j < min n 16 := Nat.lt_of_mul_lt_mul_right (Nat.lt_of_lt_of_le hj (Nat.min_le_left _ _))
    have hle : (j + 1) * blockSize ≤ min n 16 * blockSize := Nat.mul_le_mul_right _ hlt
    rw [Nat.succ_mul] at hle
    rw [blockOf, List.drop_take, List.take_take, List.drop_drop, Nat.add_mul, Nat.min_eq_left (by omega)]
  · cases h

theorem head?_rangeFrames (cs : Bytes) (index : Nat) :
    ((rangeFrames cs (index * blockSize) blockSize).head?.getD []) = blockOf cs index := by
  have hone : rangeFrames cs (index * blockSize) blockSize = rangeFrames cs (index * blockSize) (1 * blockSize) := by
    rw [Nat.one_mul]
  rw [hone]
  cases h : (rangeFrames cs (index * blockSize) (1 * blockSize)).head? with
  | some b =>
    rw [List.head?_eq_getElem?] at h
    have hb := getElem?_rangeFrames h
    rwa [Nat.add_zero] at hb
  | none =>
    rw [List.head?_eq_none_iff, rangeFrames, chunks_eq_nil_iff (by decide), List.take_eq_nil_iff] at h
    rcases h with h | h
    · simp only [blockSize, maxRangeBytes] at h
      omega
    · rw [blockOf, h, List.take_nil]
      rfl

theorem flatten_rangeFrames (cs : Bytes) (index : Nat) :
    (rangeFrames cs (index * blockSize) blockSize).flatten = blockOf cs index := by
  rw [rangeFrames, chunks_flatten (by decide)]
  rfl

namespace BlockCache

variable {s s' : BlockCache} {cs : Bytes} {path : String}

/-- The blocks of the path in the cache are those of the file, and so are those that a
fetch is about to insert. -/
structure Agrees (cs : Bytes) (path : String) (s : BlockCache) : Prop where
  blocks : ∀ i b, s.store.block (path, i) = some b → b.data = blockOf cs i
  inserts : ∀ t job g started position bs, s.threads t = some (.insert job g started position bs) → job.path = path →
    ∀ (j : Nat) b, bs[j]? = some b → b = blockOf cs (job.first + position + j)
  single : ∀ t x job, s.threads t = some x → x.registered = some job → job.whole = false → job.flights.length = 1

/-- A remote read of the path that ends here fails, or returns what the file has. -/
def Truthful (cs : Bytes) (path : String) (s : BlockCache) : CacheAct → Prop
  | .run t (some frames) =>
    ∀ f offset len, s.threads t = some f → f.request = some (path, offset, len) → frames = rangeFrames cs offset len
  | _ => True

theorem step_run {t : Nat} {reply : Option (List Bytes)} (h : s.step (.run t reply) = some s') :
    ∃ f s1, s.threads t = some f ∧ s.goOnWith t reply f = some s1 ∧ s' = { s1 with now := s.now + 1 } := by
  obtain ⟨s1, h1, rfl⟩ := Option.map_eq_some_iff.1 h
  obtain ⟨f, hf, h1⟩ := Option.bind_eq_some_iff.1 h1
  exact ⟨f, s1, hf, h1, rfl⟩

theorem threads_call {t : Nat} {f : Fetch} (h : s.call t f = some s') :
    s.threads t = none ∧ s'.threads = Function.update s.threads t (some f) ∧ s'.store = s.store ∧ s'.inflight = s.inflight ∧
      s'.finished = s.finished := by
  unfold call at h
  split at h
  · cases h
    exact ⟨‹_›, rfl, rfl, rfl, rfl⟩
  · cases h

/-- A step that is none of a call under way starts a call, or leaves all calls alone. -/
theorem step_starts {a : CacheAct} (h : s.step a = some s') (ha : ∀ t reply, a ≠ .run t reply) :
    s'.inflight = s.inflight ∧ s'.finished = s.finished ∧
      (s'.threads = s.threads ∨ ∃ t f, a.caller = some t ∧ s.threads t = none ∧
        s'.threads = Function.update s.threads t (some f) ∧ f.request = none ∧
        ((∃ key, f = .lookup key) ∨ (∃ path first count, f = .register path first count) ∨ ∃ d paths, f = .tree d paths)) := by
  obtain ⟨s1, h1, rfl⟩ := Option.map_eq_some_iff.1 h
  cases a with
  | run t reply => exact absurd rfl (ha t reply)
  | fetch t p i =>
    obtain ⟨hn, ht, -, hi, hf⟩ := threads_call h1
    exact ⟨hi, hf, .inr ⟨t, _, rfl, hn, ht, rfl, .inl ⟨_, rfl⟩⟩⟩
  | fetchRun t p i c =>
    obtain ⟨hn, ht, -, hi, hf⟩ := threads_call h1
    exact ⟨hi, hf, .inr ⟨t, _, rfl, hn, ht, rfl, .inr (.inl ⟨_, _, _, rfl⟩)⟩⟩
  | invalidateTree t p =>
    obtain ⟨hn, ht, -, hi, hf⟩ := threads_call h1
    exact ⟨hi, hf, .inr ⟨t, _, rfl, hn, ht, rfl, .inr (.inr ⟨_, _, rfl⟩)⟩⟩
  | get p i =>
    cases h1
    exact ⟨rfl, rfl, .inl rfl⟩
  | invalidateRange p o l =>
    cases h1
    exact ⟨rfl, rfl, .inl rfl⟩
  | invalidatePath p =>
    cases h1
    exact ⟨rfl, rfl, .inl rfl⟩
  | clear =>
    cases h1
    exact ⟨rfl, rfl, .inl rfl⟩

/-- What a call inserts next it was to insert before, or the remote read has brought it. -/
theorem goOnWith_inserts {t : Nat} {reply : Option (List Bytes)} {f : Fetch} {job : FetchJob} {g started position : Nat}
    {bs : List Bytes} (h : s.goOnWith t reply f = some s') (hx : s'.threads t = some (.insert job g started position bs)) :
    (∃ frames, reply = some frames ∧ f = .reading job g started ∧ position = 0 ∧ bs = FetchJob.blocks job frames) ∨
      ∃ b before, f = .insert job g started before (b :: bs) ∧ position = before + 1 := by
  obtain ⟨f', hth, -⟩ := goOnWith_threads h
  cases f with
  | reading job' g' started' =>
    simp only [goOnWith] at h
    split at h
    · rename_i frames
      cases h
      simp only [goOn, Function.update_self, Option.some.injEq, Fetch.insert.injEq] at hx
      obtain ⟨rfl, rfl, rfl, rfl, rfl⟩ := hx
      exact .inl ⟨frames, rfl, rfl, rfl, rfl⟩
    · cases h
      simp [goOn] at hx
  | insert job' g' started' before blocks =>
    cases blocks with
    | nil =>
      cases h
      simp [goOn] at hx
    | cons b rest =>
      cases h
      simp only [goOn, Function.update_self, Option.some.injEq, Fetch.insert.injEq] at hx
      obtain ⟨rfl, rfl, rfl, rfl, rfl⟩ := hx
      exact .inr ⟨b, before, rfl, rfl⟩
  | wait flight key =>
    simp only [goOnWith, Option.ite_none_right_eq_some, Option.some.injEq] at h
    rw [← h.2] at hx
    simp [goOn] at hx
  | join key =>
    simp only [goOnWith] at h
    split at h
    all_goals
      cases h
      simp [goOn] at hx
  | lookup key =>
    cases h
    simp [goOn] at hx
  | lookupAgain key =>
    cases h
    simp [goOn] at hx
  | register p first count =>
    cases h
    simp [goOn] at hx
  | _ =>
    cases h
    simp [goOn] at hx

/-- A call that has registered blocks goes on with them, or takes them off. -/
theorem goOnWith_works {t : Nat} {reply : Option (List Bytes)} {f : Fetch} {job : FetchJob}
    (h : s.goOnWith t reply f = some s') (hf : f.registered = some job) :
    (∃ x, s'.threads t = some x ∧ x.registered = some job ∧ s'.inflight = s.inflight ∧ s'.finished = s.finished) ∨
      (f = .finish job ∧ s'.threads t = some (.signal job.flights) ∧
        s'.inflight = (FetchJob.keys job).foldl (fun m k => m.erase k) s.inflight) := by
  cases f with
  | generation job' =>
    cases hf
    cases h
    exact .inl ⟨_, Function.update_self _ _ _, rfl, rfl, rfl⟩
  | read job' g =>
    cases hf
    cases h
    exact .inl ⟨_, Function.update_self _ _ _, rfl, rfl, rfl⟩
  | reading job' g started =>
    cases hf
    simp only [goOnWith] at h
    split at h
    all_goals
      cases h
      exact .inl ⟨_, Function.update_self _ _ _, rfl, rfl, rfl⟩
  | insert job' g started position bs =>
    cases hf
    cases bs
    all_goals
      cases h
      exact .inl ⟨_, Function.update_self _ _ _, rfl, rfl, rfl⟩
  | finish job' =>
    cases hf
    cases h
    exact .inr ⟨rfl, Function.update_self _ _ _, rfl⟩
  | _ => cases hf

theorem get?_registerRun {st : BlockStore} {p : String} {key : BlockKey} {flight : Nat} :
    ∀ (count next index : Nat) (inflight : ExtTreeMap BlockKey Nat BlockKey.cmp),
      (registerRun st p next inflight index count).1[key]? = some flight →
      inflight[key]? = some flight ∨
        (key.1 = p ∧ ∃ j : Nat, (registerRun st p next inflight index count).2[j]? = some flight ∧ key.2 = index + j)
  | 0, _, _, _, h => .inl h
  | count + 1, next, index, inflight, h => by
    rw [registerRun] at h ⊢
    split at h
    · exact .inl h
    · rename_i hfree
      rw [if_neg hfree]
      simp only at h ⊢
      rcases get?_registerRun count (next + 1) (index + 1) _ h with h | ⟨hp, j, hj, hk⟩
      · rw [get?_insert] at h
        split at h
        · rename_i hkey
          cases h
          exact .inr ⟨by rw [hkey], 0, rfl, by rw [hkey]; rfl⟩
        · exact .inl h
      · exact .inr ⟨hp, j + 1, hj, by omega⟩

/-- The call has registered the flight for the block. -/
def Fetch.WorksOn (x : Fetch) (key : BlockKey) (flight : Nat) : Prop :=
  ∃ job, x.registered = some job ∧ key.1 = job.path ∧ ∃ j : Nat, job.flights[j]? = some flight ∧ key.2 = job.first + j

/-- A call that has registered nothing yet. -/
theorem goOnWith_registers {t : Nat} {reply : Option (List Bytes)} {f : Fetch} (h : s.goOnWith t reply f = some s')
    (hf : f.registered = none) :
    (∀ (key : BlockKey) (flight : Nat), s'.inflight[key]? = some flight →
      s.inflight[key]? = some flight ∨ ∃ x, s'.threads t = some x ∧ Fetch.WorksOn x key flight) ∧
    ∀ x job, s'.threads t = some x → x.registered = some job → job.whole = false → job.flights.length = 1 := by
  cases f with
  | join key =>
    simp only [goOnWith] at h
    split at h
    · cases h
      refine ⟨fun k flight hk => .inl hk, fun x job hx hj => ?_⟩
      simp only [goOn, Function.update_self, Option.some.injEq] at hx
      subst hx
      cases hj
    · rename_i hnone
      cases h
      refine ⟨fun k flight hk => ?_, fun x job hx hj => ?_⟩
      · simp only [goOn, get?_insert] at hk
        split at hk
        · rename_i hkey
          cases hk
          exact .inr ⟨_, Function.update_self _ _ _, _, rfl, by rw [hkey], 0, rfl, by rw [hkey]; rfl⟩
        · exact .inl hk
      · simp only [goOn, Function.update_self, Option.some.injEq] at hx
        subst hx
        cases hj
        exact fun _ => rfl
  | register p first count =>
    cases h
    refine ⟨fun k flight hk => ?_, fun x job hx hj => ?_⟩
    · rcases get?_registerRun count _ first _ hk with hk | ⟨hp, j, hj, hkey⟩
      · exact .inl hk
      · have hsome : (registerRun s.store p s.nextFlight s.inflight first count).2.isEmpty = false := by
          rw [List.isEmpty_eq_false_iff]
          rintro hnil
          rw [hnil] at hj
          cases hj
        refine .inr ⟨.generation ⟨p, first, _, true⟩, ?_, _, rfl, hp, j, hj, hkey⟩
        simp [goOn, hsome]
    · simp only [goOn, Function.update_self, Option.ite_none_left_eq_some, Option.some.injEq] at hx
      rw [← hx.2] at hj
      cases hj
      exact fun hw => (by cases hw)
  | wait flight key =>
    simp only [goOnWith, Option.ite_none_right_eq_some, Option.some.injEq] at h
    rw [← h.2]
    refine ⟨fun k flight hk => .inl hk, fun x job hx hj => ?_⟩
    simp only [goOn, Function.update_self, Option.some.injEq] at hx
    subst hx
    cases hj
  | lookup key =>
    cases h
    refine ⟨fun k flight hk => .inl hk, fun x job hx hj => ?_⟩
    simp only [goOn, Function.update_self, Option.ite_none_left_eq_some, Option.some.injEq] at hx
    rw [← hx.2] at hj
    cases hj
  | lookupAgain key =>
    cases h
    refine ⟨fun k flight hk => .inl hk, fun x job hx hj => ?_⟩
    simp only [goOn, Function.update_self, Option.ite_none_left_eq_some, Option.some.injEq] at hx
    rw [← hx.2] at hj
    cases hj
  | readAlone key =>
    cases h
    exact ⟨fun k flight hk => .inl hk, fun x job hx => by simp [goOn] at hx⟩
  | signal flights =>
    cases h
    exact ⟨fun k flight hk => .inl hk, fun x job hx => by simp [goOn] at hx⟩
  | tree d paths =>
    cases h
    exact ⟨fun k flight hk => .inl hk, fun x job hx => by simp [goOn] at hx⟩
  | _ => cases hf

theorem goOnWith_others {t u : Nat} {reply : Option (List Bytes)} {f : Fetch} (h : s.goOnWith t reply f = some s')
    (hu : u ≠ t) : s'.threads u = s.threads u := by
  obtain ⟨f', hth, -⟩ := goOnWith_threads h
  rw [hth, Function.update_of_ne hu]

/-- A call that is under way after a step was so before, or starts with it, or is the one
that the step moves on. -/
theorem step_thread {a : CacheAct} {t : Nat} {x : Fetch} (hs : s.step a = some s') (hx : s'.threads t = some x) :
    s.threads t = some x ∨ (x.registered = none ∧ ∀ flight key, x ≠ .wait flight key) ∨
      ∃ f reply s1, a = .run t reply ∧ s.threads t = some f ∧ s.goOnWith t reply f = some s1 ∧ s1.threads t = some x := by
  by_cases hrun : ∃ u reply, a = .run u reply
  · obtain ⟨u, reply, rfl⟩ := hrun
    obtain ⟨f, s1, hf, h1, rfl⟩ := step_run hs
    by_cases hu : t = u
    · subst hu
      exact .inr (.inr ⟨f, reply, s1, rfl, hf, h1, hx⟩)
    · exact .inl ((goOnWith_others h1 hu).symm.trans hx)
  · obtain ⟨-, -, hth⟩ := step_starts hs fun u reply he => hrun ⟨u, reply, he⟩
    rcases hth with hth | ⟨u, f, -, -, hth, -, hf⟩
    · exact .inl (hth ▸ hx)
    · rw [hth, Function.update_apply] at hx
      split at hx
      · obtain rfl := Option.some.inj hx
        refine .inr (.inl ?_)
        rcases hf with ⟨_, rfl⟩ | ⟨_, _, _, rfl⟩ | ⟨_, _, rfl⟩ <;> exact ⟨rfl, by simp⟩
      · exact .inl hx

/-! ## Only what the file has is inserted -/

theorem blocks_reply {job : FetchJob} {j : Nat} {b : Bytes} (hjob : job.whole = false → job.flights.length = 1)
    (hb : (FetchJob.blocks job (rangeFrames cs (job.first * blockSize) (job.flights.length * blockSize)))[j]? = some b) :
    b = blockOf cs (job.first + j) := by
  unfold FetchJob.blocks at hb
  split at hb
  · rw [rangeFrames, show rangeFrameBytes = blockSize from rfl, intoBlocks_chunks] at hb
    exact getElem?_rangeFrames hb
  · rename_i hw
    rw [hjob (by simpa using hw), Nat.one_mul] at hb
    cases j with
    | zero =>
      rw [rangeFrames, show rangeFrameBytes = blockSize from rfl, intoBlocks_chunks] at hb
      simp only [List.getElem?_cons_zero, Option.some.injEq] at hb
      rw [← hb]
      exact head?_rangeFrames cs job.first
    | succ j => cases hb

theorem Agrees.step {a : CacheAct} (h : Agrees cs path s) (ha : Truthful cs path s a) (hs : s.step a = some s') :
    Agrees cs path s' := by
  refine ⟨fun i b hb => ?_, fun t job g started position bs ht hp j b hb => ?_, fun t x job ht hj hw => ?_⟩
  · cases (step_moves hs).store with
    | same hblock hgen => exact h.blocks i b (by rwa [hblock] at hb)
    | shrink hblock hgen =>
      rcases hblock (path, i) with e | e
      · exact h.blocks i b (by rwa [e] at hb)
      · rw [e] at hb
        cases hb
    | insert t job g started position d ds ht hst =>
      rw [hst] at hb
      rcases BlockStore.block_insert hb with hb | ⟨hkey, rfl, -⟩
      · exact h.blocks i b hb
      · cases hkey
        exact h.inserts t job g started position _ ht rfl 0 d rfl
  · rcases step_thread hs ht with ht | ⟨hnone, -⟩ | ⟨f, reply, s1, rfl, hf, h1, ht⟩
    · exact h.inserts t job g started position bs ht hp j b hb
    · cases hnone
    · rcases goOnWith_inserts h1 ht with ⟨frames, rfl, rfl, rfl, rfl⟩ | ⟨b', before, rfl, rfl⟩
      · have hreq : Fetch.request (.reading job g started) =
            some (path, job.first * blockSize, job.flights.length * blockSize) := by rw [Fetch.request, hp]
        rw [ha _ _ _ hf hreq] at hb
        exact blocks_reply (h.single t _ job hf rfl) hb
      · have := h.inserts t job g started before _ hf hp (j + 1) b hb
        rwa [show job.first + before + (j + 1) = job.first + (before + 1) + j by omega] at this
  · rcases step_thread hs ht with ht | ⟨hnone, -⟩ | ⟨f, reply, s1, rfl, hf, h1, ht⟩
    · exact h.single t x job ht hj hw
    · rw [hnone] at hj
      cases hj
    · cases hreg : f.registered with
      | none => exact (goOnWith_registers h1 hreg).2 x job ht hj hw
      | some job' =>
        rcases goOnWith_works h1 hreg with ⟨x', hx', hj', -⟩ | ⟨-, hx', -⟩
        · obtain rfl : x' = x := Option.some.inj (hx'.symm.trans ht)
          obtain rfl : job' = job := Option.some.inj (hj'.symm.trans hj)
          exact h.single t f job' hf hreg hw
        · obtain rfl := Option.some.inj (hx'.symm.trans ht)
          cases hj

/-! ## Who waits waits for someone at work -/

structure Led (s : BlockCache) : Prop where
  inflight : ∀ (key : BlockKey) (flight : Nat), s.inflight[key]? = some flight →
    ∃ t x, s.threads t = some x ∧ Fetch.WorksOn x key flight
  waiting : ∀ t flight key, s.threads t = some (.wait flight key) →
    flight ∈ s.finished ∨ ∃ u x, s.threads u = some x ∧ flight ∈ x.leads

theorem leads_of_worksOn {x : Fetch} {key : BlockKey} {flight : Nat} (h : Fetch.WorksOn x key flight) : flight ∈ x.leads := by
  obtain ⟨job, hj, -, j, hflight, -⟩ := h
  have hmem : flight ∈ job.flights := List.mem_of_getElem? hflight
  cases x <;> simp_all [Fetch.leads, Fetch.registered]

/-- A flight that a call leads it goes on to lead, or has ended. -/
theorem goOnWith_leads {t flight : Nat} {reply : Option (List Bytes)} {f : Fetch} (h : s.goOnWith t reply f = some s')
    (hf : flight ∈ f.leads) : flight ∈ s'.finished ∨ ∃ x, s'.threads t = some x ∧ flight ∈ x.leads := by
  cases hreg : f.registered with
  | some job =>
    have hmem : flight ∈ job.flights := by
      cases f <;> simp_all [Fetch.leads, Fetch.registered]
    rcases goOnWith_works h hreg with ⟨x, hx, hj, -⟩ | ⟨-, hx, -⟩
    · refine .inr ⟨x, hx, ?_⟩
      cases x <;> simp_all [Fetch.leads, Fetch.registered]
    · exact .inr ⟨_, hx, hmem⟩
  | none =>
    cases f with
    | signal flights =>
      cases h
      exact .inl (List.mem_append_left _ hf)
    | _ => simp_all [Fetch.leads, Fetch.registered]

theorem goOnWith_finished {t : Nat} {reply : Option (List Bytes)} {f : Fetch} (h : s.goOnWith t reply f = some s') :
    s.finished ⊆ s'.finished := by
  intro flight hm
  cases f with
  | signal flights =>
    cases h
    exact List.mem_append_right _ hm
  | join key =>
    simp only [goOnWith] at h
    split at h <;> cases h <;> exact hm
  | wait flight' key =>
    simp only [goOnWith, Option.ite_none_right_eq_some, Option.some.injEq] at h
    rw [← h.2]
    exact hm
  | reading job g started =>
    simp only [goOnWith] at h
    split at h <;> cases h <;> exact hm
  | insert job g started position bs =>
    cases bs <;> cases h <;> exact hm
  | _ =>
    cases h
    exact hm

theorem goOnWith_wait {t flight : Nat} {key : BlockKey} {reply : Option (List Bytes)} {f : Fetch}
    (h : s.goOnWith t reply f = some s') (hx : s'.threads t = some (.wait flight key)) :
    f = .join key ∧ s.inflight[key]? = some flight := by
  cases f with
  | join key' =>
    simp only [goOnWith] at h
    split at h
    · rename_i hin
      cases h
      simp only [goOn, Function.update_self, Option.some.injEq, Fetch.wait.injEq] at hx
      obtain ⟨rfl, rfl⟩ := hx
      exact ⟨rfl, hin⟩
    · cases h
      simp [goOn] at hx
  | wait flight' key' =>
    simp only [goOnWith, Option.ite_none_right_eq_some, Option.some.injEq] at h
    rw [← h.2] at hx
    simp [goOn] at hx
  | reading job g started =>
    simp only [goOnWith] at h
    split at h <;> cases h <;> simp [goOn] at hx
  | insert job g started position bs =>
    cases bs <;> cases h <;> simp [goOn] at hx
  | _ =>
    cases h
    simp [goOn] at hx

/-- A thread goes on. -/
theorem Led.run {t : Nat} {reply : Option (List Bytes)} (h : Led s) (hs : s.step (.run t reply) = some s') : Led s' := by
  obtain ⟨f, s1, hf, h1, rfl⟩ := step_run hs
  have hothers : ∀ u, u ≠ t → s1.threads u = s.threads u := fun u hu => goOnWith_others h1 hu
  -- Who led the flight leads it still, or it has ended.
  have hleads : ∀ flight u x, s.threads u = some x → flight ∈ x.leads →
      flight ∈ s1.finished ∨ ∃ u x, s1.threads u = some x ∧ flight ∈ x.leads := by
    intro flight u x hx hm
    by_cases hu : u = t
    · subst hu
      obtain rfl : f = x := Option.some.inj (hf.symm.trans hx)
      rcases goOnWith_leads h1 hm with hm | ⟨x', hx', hm⟩
      · exact .inl hm
      · exact .inr ⟨u, x', hx', hm⟩
    · exact .inr ⟨u, x, (hothers u hu).trans hx, hm⟩
  refine ⟨fun key flight hkey => ?_, fun u flight key hw => ?_⟩
  · have hold : s.inflight[key]? = some flight → f.registered = none →
        ∃ u x, s1.threads u = some x ∧ Fetch.WorksOn x key flight := by
      intro hkey hreg
      obtain ⟨u, x, hx, hworks⟩ := h.inflight key flight hkey
      have hu : u ≠ t := by
        rintro rfl
        obtain rfl : f = x := Option.some.inj (hf.symm.trans hx)
        obtain ⟨job, hj, -⟩ := hworks
        rw [hreg] at hj
        cases hj
      exact ⟨u, x, (hothers u hu).trans hx, hworks⟩
    cases hreg : f.registered with
    | none =>
      rcases (goOnWith_registers h1 hreg).1 key flight hkey with hkey | ⟨x, hx, hworks⟩
      · exact hold hkey hreg
      · exact ⟨t, x, hx, hworks⟩
    | some job =>
      have hentry : s.inflight[key]? = some flight ∧ (key ∈ FetchJob.keys job → ∃ x, s1.threads t = some x ∧ x.registered = some job) := by
        rcases goOnWith_works h1 hreg with ⟨x, hx, hj, hin, -⟩ | ⟨-, -, hin⟩
        · exact ⟨by rw [← hin]; exact hkey, fun _ => ⟨x, hx, hj⟩⟩
        · have hkey : s1.inflight[key]? = some flight := hkey
          rw [hin, get?_foldl_erase] at hkey
          split at hkey
          · cases hkey
          · exact ⟨hkey, fun hm => absurd hm ‹_›⟩
      obtain ⟨u, x, hx, hworks⟩ := h.inflight key flight hentry.1
      by_cases hu : u = t
      · subst hu
        obtain rfl : f = x := Option.some.inj (hf.symm.trans hx)
        obtain ⟨job', hj, hp, j, hflight, hi⟩ := hworks
        obtain rfl : job = job' := Option.some.inj (hreg.symm.trans hj)
        have hmem : key ∈ FetchJob.keys job :=
          List.mem_map.2 ⟨j, List.mem_range.2 (List.getElem?_eq_some_iff.1 hflight).1, by rw [← hp, ← hi]⟩
        obtain ⟨x', hx', hj'⟩ := hentry.2 hmem
        exact ⟨u, x', hx', job, hj', hp, j, hflight, hi⟩
      · exact ⟨u, x, (hothers u hu).trans hx, hworks⟩
  · by_cases hu : u = t
    · subst hu
      obtain ⟨rfl, hkey⟩ := goOnWith_wait h1 hw
      obtain ⟨v, x, hx, hworks⟩ := h.inflight key flight hkey
      exact hleads flight v x hx (leads_of_worksOn hworks)
    · have hw : s.threads u = some (.wait flight key) := (hothers u hu).symm.trans hw
      rcases h.waiting u flight key hw with hm | ⟨v, x, hx, hm⟩
      · exact .inl (goOnWith_finished h1 hm)
      · exact hleads flight v x hx hm

/-- A call begins, or something is invalidated. -/
theorem Led.starts {a : CacheAct} (h : Led s) (hrun : ∀ t reply, a ≠ .run t reply) (hs : s.step a = some s') : Led s' := by
  obtain ⟨hin, hfin, hth⟩ := step_starts hs hrun
  -- Calls that are under way go on being so.
  have hkeep : ∀ u x, s.threads u = some x → s'.threads u = some x := by
    intro u x hx
    rcases hth with hth | ⟨t, f, -, hnone, hth, -⟩
    · rw [hth, hx]
    · have hu : u ≠ t := by
        rintro rfl
        rw [hnone] at hx
        cases hx
      rw [hth, Function.update_of_ne hu, hx]
  refine ⟨fun key flight hkey => ?_, fun u flight key hw => ?_⟩
  · rw [hin] at hkey
    obtain ⟨t, x, hx, hworks⟩ := h.inflight key flight hkey
    exact ⟨t, x, hkeep t x hx, hworks⟩
  · rcases step_thread hs hw with hw | ⟨-, hne⟩ | ⟨f, reply, s1, rfl, -⟩
    · rcases h.waiting u flight key hw with hm | ⟨v, x, hx, hm⟩
      · exact .inl (hfin ▸ hm)
      · exact .inr ⟨v, x, hkeep v x hx, hm⟩
    · exact absurd rfl (hne flight key)
    · exact absurd rfl (hrun u reply)

theorem Led.step {a : CacheAct} (h : Led s) (hs : s.step a = some s') : Led s' := by
  by_cases hrun : ∃ t reply, a = .run t reply
  · obtain ⟨t, reply, rfl⟩ := hrun
    exact h.run hs
  · exact h.starts (fun t reply he => hrun ⟨t, reply, he⟩) hs

end BlockCache

end Mobfs
