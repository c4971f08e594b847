import Mobfs.Vfs.FetchAnswers
import Mobfs.Vfs.Readahead
import Mobfs.Vfs.Reads
/-!
# The steps of a read

A thread that reads a file, block by block through the cache, while other threads fetch,
prefetch and invalidate. It calls `schedule_readahead` first, which may panic, and looks at
the window then: a wide one makes it fetch runs of blocks. A prefetch job is a `fetch_run` of
another thread.

`Sound.step`: whatever the others do, the read has at hand what the file has.
-/

namespace Mobfs

open Lib Std

/-- A call of `read` when there is nothing to flush, with the size it has found in the cached
entry. `failure` is the error a failing request is answered with. -/
structure ReadCall extends ReadAt where
  path : String
  failure : Errno
  readaheadBlocks : Nat

/-- What a read does next: `index` is that of the round, `rest` those of the rounds to
come. The value of a fetch is kept until the fetch returns. -/
inductive ReadStage where
  | start
  /-- `schedule_readahead` has returned. -/
  | scheduled
  | panicked
  /-- `contains`, in the blocks. -/
  | look (index : Nat) (rest : List Nat) (g : Gathered)
  /-- `contains`, in what is in flight. -/
  | lookInflight (index : Nat) (rest : List Nat) (g : Gathered)
  | running (index : Nat) (rest : List Nat) (g : Gathered)
  | calling (index : Nat) (rest : List Nat) (g : Gathered)
  | fetching (index : Nat) (rest : List Nat) (g : Gathered) (value : Option (Option Bytes))
  | returned (result : Except Errno Bytes)

/-- The read, the cache it works on and `read_ahead`. -/
structure FileRead where
  cache : BlockCache
  readAhead : ExtTreeMap Nat ReadAhead
  stage : ReadStage
  sequential : Bool

inductive ReadAct where
  /-- A step of the block cache: of another thread, or of a fetch of the read. -/
  | cache (a : CacheAct)
  /-- Another thread calls `schedule_readahead`, which returns. -/
  | schedules (q : ReadAt)
  | reader

/-- What `fetch` returns, in the step in which that is settled. -/
def Fetch.value (st : BlockStore) (reply : Option (List Bytes)) : Fetch → Option (Option Bytes)
  | .lookup key | .lookupAgain key => (st.get key).2.map fun b => some b.data
  | .readAlone _ => some (reply.map List.flatten)
  | .reading job _ _ => if job.whole then none else some (reply.map fun frames => (intoBlocks frames).head?.getD [])
  | _ => none

/-- The stage, whether the fetch has its value yet or not. -/
def ReadStage.bare : ReadStage → ReadStage
  | .fetching index rest g _ => .fetching index rest g none
  | stage => stage

/-- The call has registered blocks, and waits for nobody. -/
def Fetch.working : Fetch → Bool
  | .generation _ | .read .. | .reading .. | .insert .. | .finish _ | .signal _ => true
  | _ => false

/-- What the file has where the call reads. -/
def Fetch.reply (cs : Bytes) (f : Fetch) : List Bytes :=
  match f.request with
  | some q => rangeFrames cs q.2.1 q.2.2
  | none => []

namespace ReadCall

def stop (r : ReadCall) : Nat := readStop r.offset r.size

/-- The next round, or the result. -/
def next (sequential : Bool) (g : Gathered) : List Nat → ReadStage
  | [] => .returned (.ok g.data)
  | index :: rest => if sequential then .look index rest g else .calling index rest g

/-- The length of the file is a `u64`, and that in the cached entry, if any. -/
structure Fits (cs : Bytes) (r : ReadCall) : Prop where
  length : cs.length ≤ u64Max
  size : ∀ n, r.fileSize = some n → n = cs.length

/-- The rest of a round, once `fetch` has returned. -/
def deliver (r : ReadCall) (sequential : Bool) (index : Nat) (rest : List Nat) (g : Gathered) : Option Bytes → ReadStage
  | none => .returned (if g.nothing then .error r.failure else .ok g.data)
  | some block =>
    let g := g.round r.offset r.stop index block
    if block.length < blockSize then .returned (.ok g.data) else next sequential g rest

/-- The number of blocks asked of `fetch_run`. -/
def runLength (r : ReadCall) (index : Nat) : Nat :=
  let batchEnd := (index / prefetchBatchBlocks + 1) * prefetchBatchBlocks
  let batchEnd := match r.fileSize with
    | none => batchEnd
    | some len => min batchEnd ((len - 1) / blockSize + 1)
  max (batchEnd - index) 1

end ReadCall

namespace FileRead

/-- The fetch of the read takes note of its value. -/
def noted (me : Nat) (s : FileRead) (a : CacheAct) : ReadStage :=
  match s.stage, a, s.cache.threads me with
  | .fetching index rest g value, .run t reply, some f =>
    .fetching index rest g (if t = me then value.or (f.value s.cache.store reply) else value)
  | stage, _, _ => stage

/-- A step; `me` is the thread of the read. -/
def step (me : Nat) (r : ReadCall) (s : FileRead) : ReadAct → Option FileRead
  | .cache a =>
    if a.caller = some me then none else (s.cache.step a).map fun cache => { s with cache, stage := s.noted me a }
  | .schedules q =>
    (scheduleReadahead r.readaheadBlocks q s.readAhead).toOption.map fun x => { s with readAhead := x.1 }
  | .reader =>
    match s.stage with
    | .start =>
      if r.fileSize.any (· ≤ r.offset) then some { s with stage := .returned (.ok []) }
      else match scheduleReadahead r.readaheadBlocks r.toReadAt s.readAhead with
        | .ok (readAhead, _) => some { s with readAhead, stage := .scheduled }
        | .error _ => some { s with stage := .panicked }
    | .scheduled =>
      let sequential := s.readAhead[r.ino]?.any (2 ≤ ·.window)
      some { s with sequential, stage := ReadCall.next sequential .empty (readIndices r.offset r.stop) }
    | .panicked => none
    | .look index rest g =>
      some { s with
        stage := if s.cache.store.blocks.contains (r.path, index) then .calling index rest g
          else .lookInflight index rest g }
    | .lookInflight index rest g =>
      if s.cache.inflight.contains (r.path, index) then some { s with stage := .calling index rest g }
      else
        (s.cache.step (.fetchRun me r.path index (r.runLength index))).map fun cache =>
          { s with cache, stage := .running index rest g }
    | .running index rest g => if (s.cache.threads me).isNone then some { s with stage := .calling index rest g } else none
    | .calling index rest g =>
      (s.cache.step (.fetch me r.path index)).map fun cache => { s with cache, stage := .fetching index rest g none }
    | .fetching index rest g value =>
      match s.cache.threads me, value with
      | none, some value => some { s with stage := r.deliver s.sequential index rest g value }
      | _, _ => none
    | .returned _ => none

/-- Nothing has been read ahead yet. -/
def start (cache : BlockCache) : FileRead := ⟨cache, ∅, .start, false⟩

/-- No remote request of the read fails, and those for its path that are answered are
answered with what the file has. -/
def Answered (cs : Bytes) (me : Nat) (r : ReadCall) (s : FileRead) : ReadAct → Prop
  | .cache (.run t none) => t = me → ∀ f, s.cache.threads me = some f → f.request = none
  | .cache a => s.cache.Truthful cs r.path a
  | .schedules _ | .reader => True

/-- The call of `schedule_readahead`, where it is reached, finds a state that admits it. -/
def Scheduled (r : ReadCall) (s : FileRead) : ReadAct → Prop
  | .reader => s.stage = .start → r.fileSize.any (· ≤ r.offset) = true ∨
      Admits r.readaheadBlocks (stateOf s.readAhead r.ino) r.toReadAt
  | _ => True

/-- If the read has returned, it has returned what was asked for; and it can go on to return. -/
def ReadsWell (cs : Bytes) (me : Nat) (r : ReadCall) (s : FileRead) : Prop :=
  (∀ result, s.stage = .returned result → result = .ok (requested cs r.offset r.size)) ∧
    ∃ more s', Guarded (FileRead.step me r) (Answered cs me r) s more ∧ exec (FileRead.step me r) s more = some s' ∧
      s'.stage = .returned (.ok (requested cs r.offset r.size))

/-! ## What a read has at hand -/

/-- The thread of the read is at the fetch of the block, or has its value. -/
def FetchOk (cs : Bytes) (path : String) (index : Nat) (value : Option (Option Bytes)) : Option Fetch → Prop
  | none => value = some (some (blockOf cs index))
  | some (.lookup key) | some (.join key) | some (.wait _ key) | some (.lookupAgain key) | some (.readAlone key) =>
    key = (path, index) ∧ value = none
  | some (.generation job) | some (.read job _) | some (.reading job _ _) =>
    job.path = path ∧ job.first = index ∧ job.whole = false ∧ value = none
  | some (.insert ..) | some (.finish _) | some (.signal _) => value = some (some (blockOf cs index))
  | some (.register ..) | some (.tree ..) => False

/-- The thread of the read is in `fetch_run`. -/
def RunOk : Option Fetch → Prop
  | some (.lookup _) | some (.join _) | some (.wait ..) | some (.lookupAgain _) | some (.readAlone _) | some (.tree ..) =>
    False
  | _ => True

/-- The rounds before have read what the file has there. -/
structure LoopOk (cs : Bytes) (r : ReadCall) (index : Nat) (rest : List Nat) (g : Gathered) : Prop where
  valid : g.Valid
  data : g.data = readBefore cs r.offset r.stop index
  indices : rest = List.range' (index + 1) rest.length
  stop : r.stop ≤ (index + 1 + rest.length) * blockSize

/-- Where the read is, `f` being where its thread is. -/
def StageOk (cs : Bytes) (r : ReadCall) (f : Option Fetch) : ReadStage → Prop
  | .start | .scheduled => f = none
  | .panicked => False
  | .look index rest g | .lookInflight index rest g | .calling index rest g => f = none ∧ LoopOk cs r index rest g
  | .running index rest g => RunOk f ∧ LoopOk cs r index rest g
  | .fetching index rest g value => FetchOk cs r.path index value f ∧ LoopOk cs r index rest g
  | .returned result => f = none ∧ result = .ok (requested cs r.offset r.size)

/-- What holds at each time while the read is under way. -/
structure Sound (cs : Bytes) (me : Nat) (r : ReadCall) (s : FileRead) : Prop where
  agrees : s.cache.Agrees cs r.path
  led : s.cache.Led
  windows : WindowsOk r.readaheadBlocks s.readAhead
  stage : StageOk cs r (s.cache.threads me) s.stage

variable {cs : Bytes} {me : Nat} {r : ReadCall} {s s' : FileRead}

theorem Answered.truthful {a : CacheAct} (h : s.Answered cs me r (.cache a)) : s.cache.Truthful cs r.path a := by
  cases a with
  | run t reply =>
    cases reply with
    | none => trivial
    | some frames => exact h
  | _ => trivial

/-! ## The loop -/

theorem stageOk_next (hfits : r.Fits cs) {sequential : Bool} {n k : Nat} {g : Gathered} (hv : g.Valid)
    (hg : g.data = readBefore cs r.offset r.stop k) (hstop : r.stop ≤ (k + n) * blockSize) :
    StageOk cs r none (ReadCall.next sequential g (List.range' k n)) := by
  cases n with
  | zero =>
    refine ⟨rfl, ?_⟩
    rw [hg, readBefore_end (.inl (by simpa using hstop)), ReadCall.stop, take_readStop hfits.length]
  | succ n =>
    have hloop : LoopOk cs r k (List.range' (k + 1) n) g :=
      ⟨hv, hg, by rw [List.length_range'], by rw [List.length_range']; rwa [Nat.add_assoc, Nat.add_comm 1]⟩
    rw [List.range'_succ, ReadCall.next]
    split
    · exact ⟨rfl, hloop⟩
    · exact ⟨rfl, hloop⟩

theorem stageOk_start (hfits : r.Fits cs) (sequential : Bool) :
    StageOk cs r none (ReadCall.next sequential .empty (readIndices r.offset r.stop)) := by
  refine stageOk_next hfits Gathered.valid_empty (readBefore_first cs r.offset r.stop).symm ?_
  simp only [blockSize]
  omega

theorem LoopOk.deliver (hfits : r.Fits cs) {sequential : Bool} {index : Nat} {rest : List Nat} {g : Gathered}
    (h : LoopOk cs r index rest g) : StageOk cs r none (r.deliver sequential index rest g (some (blockOf cs index))) := by
  obtain ⟨hv, hg⟩ := h.valid.round_block h.data
  rw [ReadCall.deliver]
  split
  · rename_i hshort
    refine ⟨rfl, ?_⟩
    rw [hg, readBefore_short hshort, ReadCall.stop, take_readStop hfits.length]
  · rw [h.indices]
    exact stageOk_next hfits hv hg h.stop

/-- Behind the end of the file there is nothing to read. -/
theorem requested_behind {offset : Nat} (h : cs.length ≤ offset) (size : Nat) : requested cs offset size = [] := by
  rw [requested, List.drop_eq_nil_iff, List.length_take]
  omega

/-! ## The thread of the read -/

theorem RunOk.goOnWith {t : Nat} {reply : Option (List Bytes)} {f : Fetch} {c c' : BlockCache} (h : RunOk (some f))
    (hs : c.goOnWith t reply f = some c') : RunOk (c'.threads t) := by
  cases hreg : f.registered with
  | some job =>
    rcases BlockCache.goOnWith_works hs hreg with ⟨x, hx, hj, -⟩ | ⟨-, hx, -⟩
    · rw [hx]
      cases x <;> trivial
    · rw [hx]
      trivial
  | none =>
    cases f with
    | register p first count =>
      cases hs
      simp only [BlockCache.goOn, Function.update_self]
      split <;> trivial
    | signal flights =>
      cases hs
      simp only [BlockCache.goOn, Function.update_self]
      trivial
    | lookup key => exact h.elim
    | join key => exact h.elim
    | wait flight key => exact h.elim
    | lookupAgain key => exact h.elim
    | readAlone key => exact h.elim
    | tree d paths => exact h.elim
    | _ => cases hreg

/-- A lookup finds the block of the file, or nothing. -/
theorem value_get {c : BlockCache} {path : String} (h : c.Agrees cs path) (index : Nat) :
    (c.store.get (path, index)).2 = none ∨ ∃ b, (c.store.get (path, index)).2 = some b ∧ b.data = blockOf cs index := by
  rw [BlockStore.get_snd]
  cases hb : c.store.block (path, index) with
  | none => exact .inl rfl
  | some b => exact .inr ⟨b, rfl, h.blocks index b hb⟩

theorem FetchOk.goOnWith {reply : Option (List Bytes)} {f : Fetch} {c c' : BlockCache} {path : String} {index : Nat}
    {value : Option (Option Bytes)} (hagrees : c.Agrees cs path) (hf : c.threads me = some f)
    (hreply : ∀ offset len, f.request = some (path, offset, len) → reply = some (rangeFrames cs offset len))
    (h : FetchOk cs path index value (some f)) (hs : c.goOnWith me reply f = some c') :
    FetchOk cs path index (value.or (f.value c.store reply)) (c'.threads me) := by
  cases f with
  | lookup key =>
    obtain ⟨rfl, rfl⟩ := h
    cases hs
    simp only [BlockCache.goOn, Function.update_self, Fetch.value]
    rcases value_get hagrees index with hn | ⟨b, hb, hdata⟩
    · rw [hn]
      exact ⟨rfl, rfl⟩
    · rw [hb]
      simp [FetchOk, hdata]
  | lookupAgain key =>
    obtain ⟨rfl, rfl⟩ := h
    cases hs
    simp only [BlockCache.goOn, Function.update_self, Fetch.value]
    rcases value_get hagrees index with hn | ⟨b, hb, hdata⟩
    · rw [hn]
      exact ⟨rfl, rfl⟩
    · rw [hb]
      simp [FetchOk, hdata]
  | join key =>
    obtain ⟨rfl, rfl⟩ := h
    simp only [BlockCache.goOnWith] at hs
    split at hs
    · cases hs
      simp only [BlockCache.goOn, Function.update_self]
      exact ⟨rfl, rfl⟩
    · cases hs
      simp only [BlockCache.goOn, Function.update_self]
      exact ⟨rfl, rfl, rfl, rfl⟩
  | wait flight key =>
    obtain ⟨rfl, rfl⟩ := h
    simp only [BlockCache.goOnWith, Option.ite_none_right_eq_some, Option.some.injEq] at hs
    rw [← hs.2]
    simp only [BlockCache.goOn, Function.update_self]
    exact ⟨rfl, rfl⟩
  | readAlone key =>
    obtain ⟨rfl, rfl⟩ := h
    cases hs
    rw [hreply _ _ rfl]
    simp only [BlockCache.goOn, Function.update_self, Fetch.value, FetchOk, Option.map_some, flatten_rangeFrames,
      Option.none_or]
  | generation job =>
    cases hs
    simp only [BlockCache.goOn, Function.update_self]
    obtain ⟨hp, hi, hw, rfl⟩ := h
    exact ⟨hp, hi, hw, rfl⟩
  | read job g =>
    cases hs
    simp only [BlockCache.goOn, Function.update_self]
    obtain ⟨hp, hi, hw, rfl⟩ := h
    exact ⟨hp, hi, hw, rfl⟩
  | reading job g started =>
    obtain ⟨rfl, rfl, hw, rfl⟩ := h
    have hone : job.flights.length = 1 := hagrees.single me _ job hf rfl hw
    have hreply := hreply _ _ rfl
    subst hreply
    cases hs
    simp only [BlockCache.goOn, Function.update_self, Fetch.value, hw, FetchOk, hone, Nat.one_mul, Option.map_some,
      Option.none_or, Bool.false_eq_true, if_false]
    rw [rangeFrames, show rangeFrameBytes = blockSize from rfl, intoBlocks_chunks]
    exact congrArg _ (congrArg _ (head?_rangeFrames cs job.first))
  | insert job g started position bs =>
    obtain rfl := h
    cases bs
    all_goals
      cases hs
      simp only [BlockCache.goOn, Function.update_self]
      rfl
  | finish job =>
    obtain rfl := h
    cases hs
    simp only [BlockCache.goOn, Function.update_self]
    rfl
  | signal flights =>
    obtain rfl := h
    cases hs
    simp only [BlockCache.goOn, Function.update_self]
    rfl
  | register p first count => exact h.elim
  | tree d paths => exact h.elim

/-- A step of the cache that is not one of the read leaves its thread alone. -/
theorem step_other {a : CacheAct} {c c' : BlockCache} (hs : c.step a = some c') (hcaller : a.caller ≠ some me)
    (hrun : ∀ reply, a ≠ .run me reply) : c'.threads me = c.threads me := by
  by_cases hother : ∃ t reply, a = .run t reply
  · obtain ⟨t, reply, rfl⟩ := hother
    obtain ⟨f, c1, hf, h1, rfl⟩ := BlockCache.step_run hs
    have ht : me ≠ t := by
      rintro rfl
      exact hrun reply rfl
    have hth := BlockCache.goOnWith_others h1 ht
    exact hth
  · obtain ⟨-, -, hth | ⟨t, f, ht, -, hth, -⟩⟩ := BlockCache.step_starts hs fun t reply he => hother ⟨t, reply, he⟩
    · rw [hth]
    · rw [hth, Function.update_of_ne]
      rintro rfl
      exact hcaller ht

theorem noted_other {a : CacheAct} (hrun : ∀ reply, a ≠ .run me reply) : s.noted me a = s.stage := by
  unfold noted
  split
  · rename_i hstage _
    rw [if_neg, hstage]
    rintro rfl
    exact hrun _ rfl
  · rfl

/-- A step of the cache, of whichever thread. -/
theorem Sound.cache {a : CacheAct} {c' : BlockCache} (h : Sound cs me r s) (ha : s.Answered cs me r (.cache a))
    (hcaller : a.caller ≠ some me) (hs : s.cache.step a = some c') :
    Sound cs me r { s with cache := c', stage := s.noted me a } := by
  refine ⟨h.agrees.step ha.truthful hs, h.led.step hs, h.windows, ?_⟩
  by_cases hrun : ∃ reply, a = .run me reply
  · obtain ⟨reply, rfl⟩ := hrun
    obtain ⟨f, c1, hf, h1, rfl⟩ := BlockCache.step_run hs
    have hstage := h.stage
    rw [hf] at hstage
    cases hst : s.stage with
    | running index rest g =>
      rw [hst] at hstage
      simp only [noted, hst]
      exact ⟨hstage.1.goOnWith h1, hstage.2⟩
    | fetching index rest g value =>
      rw [hst] at hstage
      simp only [noted, hst, hf, if_true]
      refine ⟨hstage.1.goOnWith h.agrees hf (fun offset len hreq => ?_) h1, hstage.2⟩
      cases reply with
      | none =>
        rw [ha rfl f hf] at hreq
        cases hreq
      | some frames => rw [ha f offset len hf hreq]
    | start =>
      rw [hst] at hstage
      cases hstage
    | scheduled =>
      rw [hst] at hstage
      cases hstage
    | panicked =>
      rw [hst] at hstage
      exact hstage.elim
    | returned result =>
      rw [hst] at hstage
      cases hstage.1
    | look index rest g =>
      rw [hst] at hstage
      cases hstage.1
    | lookInflight index rest g =>
      rw [hst] at hstage
      cases hstage.1
    | calling index rest g =>
      rw [hst] at hstage
      cases hstage.1
  · have hrun : ∀ reply, a ≠ .run me reply := fun reply he => hrun ⟨reply, he⟩
    rw [noted_other hrun]
    simp only
    rw [step_other hs hcaller hrun]
    exact h.stage

/-- A call of the read starts. -/
theorem threads_starts {a : CacheAct} {f : Fetch} {c c' : BlockCache} (hs : c.step a = some c')
    (ha : c.act a = c.call me f) : c'.threads me = some f := by
  obtain ⟨c1, h1, rfl⟩ := Option.map_eq_some_iff.1 hs
  rw [ha] at h1
  rw [show ({ c1 with now := c.now + 1 } : BlockCache).threads = c1.threads from rfl, (BlockCache.threads_call h1).2.1,
    Function.update_self]

/-- The call of `schedule_readahead` returns. -/
theorem Sound.schedule (hfits : r.Fits cs) (h : Sound cs me r s) (hst : s.stage = .start) (ha : Scheduled r s .reader)
    (hs : s.step me r .reader = some s') : Sound cs me r s' := by
  have hstage := h.stage
  rw [hst] at hstage
  simp only [FileRead.step, hst] at hs
  split at hs
  · rename_i hbehind
    cases hs
    obtain ⟨n, hn, hle⟩ := (Option.any_eq_true _ _).1 hbehind
    refine ⟨h.agrees, h.led, h.windows, hstage, ?_⟩
    rw [requested_behind (hfits.size n hn ▸ of_decide_eq_true hle)]
  · rename_i hbehind
    obtain ⟨states, runs, hcall, hwindows, -⟩ := schedule_spec h.windows ((ha hst).resolve_left hbehind)
    rw [hcall] at hs
    cases hs
    exact ⟨h.agrees, h.led, hwindows, hstage⟩

/-- Another thread's call of `schedule_readahead`. -/
theorem Sound.schedules {q : ReadAt} (h : Sound cs me r s) (hs : s.step me r (.schedules q) = some s') : Sound cs me r s' := by
  simp only [FileRead.step, Option.map_eq_some_iff] at hs
  obtain ⟨⟨states, runs⟩, hcall, rfl⟩ := hs
  have hcall : scheduleReadahead r.readaheadBlocks q s.readAhead = .ok (states, runs) := by
    cases hres : scheduleReadahead r.readaheadBlocks q s.readAhead with
    | error e =>
      rw [hres] at hcall
      cases hcall
    | ok x =>
      rw [hres] at hcall
      cases hcall
      rfl
  obtain ⟨states', runs', hcall', hwindows, -⟩ := schedule_spec h.windows (admits_of_schedule hcall)
  rw [hcall] at hcall'
  cases hcall'
  exact ⟨h.agrees, h.led, hwindows, h.stage⟩

theorem Sound.step (hfits : r.Fits cs) {a : ReadAct} (h : Sound cs me r s) (ha : s.Answered cs me r a ∧ Scheduled r s a)
    (hs : s.step me r a = some s') : Sound cs me r s' := by
  cases a with
  | cache a =>
    simp only [FileRead.step, Option.ite_none_left_eq_some, Option.map_eq_some_iff] at hs
    obtain ⟨hcaller, c', hc, rfl⟩ := hs
    exact h.cache ha.1 hcaller hc
  | schedules q => exact h.schedules hs
  | reader =>
    have hstage := h.stage
    cases hst : s.stage with
    | start => exact h.schedule hfits hst ha.2 hs
    | scheduled =>
      rw [hst] at hstage
      simp only [FileRead.step, hst] at hs
      cases hs
      refine ⟨h.agrees, h.led, h.windows, ?_⟩
      rw [hstage]
      exact stageOk_start hfits _
    | panicked =>
      rw [hst] at hstage
      exact hstage.elim
    | look index rest g =>
      rw [hst] at hstage
      simp only [FileRead.step, hst] at hs
      cases hs
      refine ⟨h.agrees, h.led, h.windows, ?_⟩
      simp only
      split
      · exact hstage
      · exact hstage
    | lookInflight index rest g =>
      rw [hst] at hstage
      simp only [FileRead.step, hst] at hs
      split at hs
      · cases hs
        exact ⟨h.agrees, h.led, h.windows, hstage⟩
      · obtain ⟨c', hc, rfl⟩ := Option.map_eq_some_iff.1 hs
        refine ⟨h.agrees.step (by trivial) hc, h.led.step hc, h.windows, ?_⟩
        rw [threads_starts hc rfl]
        exact ⟨trivial, hstage.2⟩
    | running index rest g =>
      rw [hst] at hstage
      simp only [FileRead.step, hst, Option.ite_none_right_eq_some] at hs
      obtain ⟨hnone, hs⟩ := hs
      cases hs
      exact ⟨h.agrees, h.led, h.windows, Option.isNone_iff_eq_none.1 hnone, hstage.2⟩
    | calling index rest g =>
      rw [hst] at hstage
      simp only [FileRead.step, hst] at hs
      obtain ⟨c', hc, rfl⟩ := Option.map_eq_some_iff.1 hs
      refine ⟨h.agrees.step (by trivial) hc, h.led.step hc, h.windows, ?_⟩
      rw [threads_starts hc rfl]
      exact ⟨⟨rfl, rfl⟩, hstage.2⟩
    | fetching index rest g value =>
      rw [hst] at hstage
      simp only [FileRead.step, hst] at hs
      split at hs
      · rename_i hnone
        cases hs
        rw [hnone] at hstage
        refine ⟨h.agrees, h.led, h.windows, ?_⟩
        rw [hnone]
        obtain ⟨hvalue, hloop⟩ := hstage
        obtain rfl := Option.some.inj hvalue
        exact hloop.deliver hfits
      · cases hs
    | returned result =>
      simp only [FileRead.step, hst] at hs
      cases hs

end FileRead

end Mobfs
