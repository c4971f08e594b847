import Mobfs.Daemon.Stream
import Mobfs.Vfs.BlockCache
/-!
# Read-ahead

`schedule_readahead` keeps a window for every inode. It is doubled when reads follow on each
other, up to the number of blocks given on the command line, and the blocks of the window are
queued in runs.

`readahead_total_iff` says for every sequence of reads when it goes through without a panic,
and that all runs are as they should be then. With `--readahead-mib 1` the first read panics
(`one_block_panics`), since `clamp` is called with a maximum below its minimum.
-/

namespace Mobfs

open Lib Std

def prefetchBatchBlocks : Nat := 8

/-! ## Arithmetic that may panic -/

/-- Why a call does not return: it panics, or it is still in its loop. -/
inductive Halt where
  | panics
  | runsOn
deriving DecidableEq

/-- The result of an addition or multiplication of `u64`. -/
def checked (n : Nat) : Except Halt Nat := if n ≤ u64Max then .ok n else .error .panics

/-- `u64::clamp`. -/
def clamp (n lo hi : Nat) : Except Halt Nat :=
  if lo ≤ hi then .ok (if n < lo then lo else if hi < n then hi else n) else .error .panics

def absDiff (a b : Nat) : Nat := (a - b) + (b - a)

/-! ## Scheduling -/

structure ReadAhead where
  nextOffset : Nat
  window : Nat
  epoch : Nat
deriving DecidableEq

/-- A call of `schedule_readahead`, with what it finds when it looks at a run: the blocks that
are there, and whether the run is new to the queue. -/
structure ReadAt where
  ino : Nat
  offset : Nat
  size : Nat
  fileSize : Option Nat
  contains : Nat → Nat → Bool
  inserts : Nat → Bool
  offset_le : offset ≤ u64Max
  size_le : size ≤ u64Max
  fileSize_le : ∀ len ∈ fileSize, len ≤ u64Max

namespace ReadAt

def current (r : ReadAt) : Nat := satAdd r.offset (r.size - 1) / blockSize

def last (r : ReadAt) : Option Nat := r.fileSize.map fun len => (len - 1) / blockSize

/-- The read goes on near where the last one ended. -/
def near (r : ReadAt) (s : ReadAhead) : Bool := absDiff r.offset s.nextOffset ≤ 2 * blockSize

def missing (r : ReadAt) (first stop : Nat) : Bool := (List.range' first (stop - first)).any fun index => !r.contains first index

end ReadAt

section Schedule
variable (blocks : Nat)

/-- The state is brought up to date. -/
def nextWindow (r : ReadAt) (s : ReadAhead) : Except Halt ReadAhead :=
  if r.near s then do
    let doubled ← checked (s.window * 2)
    let window ← clamp doubled 2 blocks
    return ⟨satAdd r.offset r.size, window, s.epoch⟩
  else do
    let epoch ← checked (s.epoch + 1)
    return ⟨satAdd r.offset r.size, 1, epoch⟩

/-- Where the run that begins at `first` ends. -/
def runEnd (window horizon : Nat) (last : Option Nat) (first : Nat) : Except Halt Nat := do
  let batch ← checked (first / prefetchBatchBlocks + 1)
  let batchEnd ← checked (batch * prefetchBatchBlocks)
  let stop ← (if prefetchBatchBlocks ≤ window then .ok batchEnd else (checked (horizon + 1)).map (min batchEnd))
  match last with
  | none => .ok stop
  | some last => (checked (last + 1)).map (min stop)

/-- The loop, with the runs it queues. -/
def queueRuns (r : ReadAt) (window horizon : Nat) : Nat → Nat → Except Halt (List (Nat × Nat))
  | 0, _ => .error .runsOn
  | fuel + 1, first =>
    if first ≤ horizon then do
      let stop ← runEnd window horizon r.last first
      let rest ← queueRuns r window horizon fuel stop
      return if r.missing first stop && r.inserts first then (first, stop) :: rest else rest
    else return []

/-- The entry of an inode, which is made if there is none. -/
def stateOf (states : ExtTreeMap Nat ReadAhead) (ino : Nat) : ReadAhead := states[ino]?.getD ⟨0, 0, 0⟩

/-- `schedule_readahead`. The loop is given a round for every block up to the horizon. -/
def scheduleReadahead (r : ReadAt) (states : ExtTreeMap Nat ReadAhead) : Except Halt (ExtTreeMap Nat ReadAhead × List (Nat × Nat)) :=
  if blocks = 0 then return (states, [])
  else do
    let state ← nextWindow blocks r (stateOf states r.ino)
    let reach ← checked (r.current + state.window)
    let horizon := match r.last with
      | some last => min reach last
      | none => reach
    let first ← checked (r.current + 1)
    let runs ← queueRuns r state.window horizon (horizon + 1) first
    return (states.insert r.ino state, runs)

/-- Calls one after the other, with the runs of each. -/
def scheduleAll (states : ExtTreeMap Nat ReadAhead) : List ReadAt → Except Halt (List (ReadAt × List (Nat × Nat)))
  | [] => return []
  | r :: reads => do
    let (states, runs) ← scheduleReadahead blocks r states
    let rest ← scheduleAll states reads
    return (r, runs) :: rest

end Schedule

/-! ## What is asked of the runs -/

/-- The runs of a call: each a block and where it ends. -/
structure RunsFit (r : ReadAt) (runs : List (Nat × Nat)) : Prop where
  nonempty : ∀ x ∈ runs, x.1 < x.2
  ascending : runs.Pairwise fun x y => x.2 ≤ y.1
  after : ∀ x ∈ runs, r.current < x.1
  inside : ∀ last ∈ r.last, ∀ x ∈ runs, x.2 ≤ last + 1
  batch : ∀ x ∈ runs, x.2 - x.1 ≤ prefetchBatchBlocks

/-- The reads go through without a panic, every loop ends, and all runs fit. -/
def ReadaheadTotal (blocks : Nat) (states : ExtTreeMap Nat ReadAhead) (reads : List ReadAt) : Prop :=
  ∃ out, scheduleAll blocks states reads = .ok out ∧ ∀ x ∈ out, RunsFit x.1 x.2

/-- The state admits the read: where the window is doubled, there is more than one block and
the window is no more than half of what an `u64` holds; else the epoch can be counted up. -/
def Admits (blocks : Nat) (s : ReadAhead) (r : ReadAt) : Prop :=
  blocks = 0 ∨ if r.near s then blocks ≠ 1 ∧ s.window * 2 ≤ u64Max else s.epoch < u64Max

/-- Every read finds a state that admits it. -/
def AllAdmitted (blocks : Nat) (states : ExtTreeMap Nat ReadAhead) : List ReadAt → Prop
  | [] => True
  | r :: reads => Admits blocks (stateOf states r.ino) r ∧
    ∀ states' runs, scheduleReadahead blocks r states = .ok (states', runs) → AllAdmitted blocks states' reads

/-! ## One call -/

section Call
variable {blocks window horizon first : Nat} {r : ReadAt} {s s' : ReadAhead}

theorem bind_eq_ok {α β : Type} {x : Except Halt α} {f : α → Except Halt β} {b : β} :
    x >>= f = .ok b ↔ ∃ a, x = .ok a ∧ f a = .ok b := by
  cases x <;> simp [bind, Except.bind]

theorem checked_of_le {n : Nat} (h : n ≤ u64Max) : checked n = .ok n := if_pos h

theorem checked_eq_ok {n m : Nat} : checked n = .ok m ↔ n ≤ u64Max ∧ m = n := by
  unfold checked
  split <;> simp [*, eq_comm]

theorem clamp_eq_ok {n lo hi m : Nat} : clamp n lo hi = .ok m ↔ lo ≤ hi ∧ m = max lo (min n hi) := by
  unfold clamp
  split
  · rename_i h
    simp only [Except.ok.injEq, h, true_and]
    split <;> [skip; split] <;> omega
  · simp [*]

/-- A run ends after it begins, within its batch and the file. -/
theorem runEnd_spec (window : Nat) {last : Option Nat} (hfirst : first ≤ horizon) (hsmall : horizon + 2 * prefetchBatchBlocks ≤ u64Max)
    (hlast : ∀ l ∈ last, horizon ≤ l ∧ l + 1 ≤ u64Max) :
    ∃ stop, runEnd window horizon last first = .ok stop ∧ first < stop ∧ stop ≤ first + prefetchBatchBlocks ∧
      ∀ l ∈ last, stop ≤ l + 1 := by
  have hbatch : first < (first / prefetchBatchBlocks + 1) * prefetchBatchBlocks ∧
      (first / prefetchBatchBlocks + 1) * prefetchBatchBlocks ≤ first + prefetchBatchBlocks := by
    unfold prefetchBatchBlocks
    omega
  have hquot : checked (first / prefetchBatchBlocks + 1) = .ok (first / prefetchBatchBlocks + 1) := by
    refine checked_of_le ?_
    have := Nat.div_le_self first prefetchBatchBlocks
    omega
  have hmul : checked ((first / prefetchBatchBlocks + 1) * prefetchBatchBlocks) =
      .ok ((first / prefetchBatchBlocks + 1) * prefetchBatchBlocks) := checked_of_le (by omega)
  -- A run ends with its batch, or where the window does.
  obtain ⟨stop, hstop, hafter, hwithin⟩ : ∃ stop, (if prefetchBatchBlocks ≤ window then
      (.ok ((first / prefetchBatchBlocks + 1) * prefetchBatchBlocks) : Except Halt Nat)
      else (checked (horizon + 1)).map (min ((first / prefetchBatchBlocks + 1) * prefetchBatchBlocks))) = .ok stop ∧
      first < stop ∧ stop ≤ first + prefetchBatchBlocks := by
    split
    · exact ⟨_, rfl, hbatch⟩
    · rw [checked_of_le (by omega : horizon + 1 ≤ u64Max)]
      exact ⟨_, rfl, by omega, by omega⟩
  unfold runEnd
  simp only [bind, Except.bind, hquot, hmul, hstop]
  cases last with
  | none => exact ⟨stop, rfl, hafter, hwithin, fun l hl => by cases hl⟩
  | some l =>
    obtain ⟨hl, hsmall'⟩ := hlast l rfl
    dsimp only
    rw [checked_of_le hsmall']
    refine ⟨min stop (l + 1), rfl, by omega, by omega, fun l' hl' => ?_⟩
    cases hl'
    omega

/-- The loop ends, and its runs lie one after the other from `first` on. -/
theorem queueRuns_spec (r : ReadAt) (window : Nat) (hsmall : horizon + 2 * prefetchBatchBlocks ≤ u64Max)
    (hlast : ∀ l ∈ r.last, horizon ≤ l ∧ l + 1 ≤ u64Max) {fuel : Nat} (hfuel : horizon + 1 - first < fuel) :
    ∃ runs, queueRuns r window horizon fuel first = .ok runs ∧ runs.Pairwise (fun x y => x.2 ≤ y.1) ∧
      ∀ x ∈ runs, first ≤ x.1 ∧ x.1 < x.2 ∧ x.2 - x.1 ≤ prefetchBatchBlocks ∧ ∀ l ∈ r.last, x.2 ≤ l + 1 := by
  induction fuel generalizing first with
  | zero => omega
  | succ fuel ih =>
    unfold queueRuns
    by_cases hfirst : first ≤ horizon
    · obtain ⟨stop, hstop, hafter, hbatch, hinside⟩ := runEnd_spec window hfirst hsmall hlast
      obtain ⟨rest, hrest, hsorted, hall⟩ := ih (show horizon + 1 - stop < fuel by omega)
      rw [if_pos hfirst, hstop]
      simp only [bind, Except.bind, hrest]
      have hall' : ∀ x ∈ rest, first ≤ x.1 ∧ x.1 < x.2 ∧ x.2 - x.1 ≤ prefetchBatchBlocks ∧ ∀ l ∈ r.last, x.2 ≤ l + 1 := by
        intro x hx
        obtain ⟨h1, h2⟩ := hall x hx
        exact ⟨by omega, h2⟩
      by_cases hqueue : (r.missing first stop && r.inserts first) = true
      · rw [if_pos hqueue]
        refine ⟨_, rfl, List.pairwise_cons.2 ⟨fun x hx => (hall x hx).1, hsorted⟩, List.forall_mem_cons.2 ⟨?_, hall'⟩⟩
        exact ⟨Nat.le_refl _, hafter, by dsimp only; omega, hinside⟩
      · rw [if_neg hqueue]
        exact ⟨rest, rfl, hsorted, hall'⟩
    · rw [if_neg hfirst]
      exact ⟨[], rfl, List.Pairwise.nil, fun x hx => by cases hx⟩

/-- A window is a power of two, or as wide as it can be. -/
def WindowOk (blocks : Nat) (s : ReadAhead) : Prop := s.window = 0 ∨ s.window = blocks ∨ ∃ k, s.window = 2 ^ k

theorem nextWindow_near (h : r.near s = true) : nextWindow blocks r s = .ok s' ↔
    s.window * 2 ≤ u64Max ∧ 2 ≤ blocks ∧ s' = ⟨satAdd r.offset r.size, max 2 (min (s.window * 2) blocks), s.epoch⟩ := by
  rw [nextWindow, if_pos h, bind_eq_ok]
  simp only [checked_eq_ok, bind_eq_ok, clamp_eq_ok, pure, Except.pure, Except.ok.injEq]
  constructor
  · rintro ⟨-, ⟨hdouble, rfl⟩, -, ⟨hblocks, rfl⟩, rfl⟩
    exact ⟨hdouble, hblocks, rfl⟩
  · rintro ⟨hdouble, hblocks, rfl⟩
    exact ⟨_, ⟨hdouble, rfl⟩, _, ⟨hblocks, rfl⟩, rfl⟩

theorem nextWindow_far (h : ¬ r.near s = true) : nextWindow blocks r s = .ok s' ↔
    s.epoch + 1 ≤ u64Max ∧ s' = ⟨satAdd r.offset r.size, 1, s.epoch + 1⟩ := by
  rw [nextWindow, if_neg h, bind_eq_ok]
  simp only [checked_eq_ok, pure, Except.pure, Except.ok.injEq]
  constructor
  · rintro ⟨-, ⟨hepoch, rfl⟩, rfl⟩
    exact ⟨hepoch, rfl⟩
  · rintro ⟨hepoch, rfl⟩
    exact ⟨_, ⟨hepoch, rfl⟩, rfl⟩

theorem admits_iff (hblocks : blocks ≠ 0) : Admits blocks s r ↔ ∃ s', nextWindow blocks r s = .ok s' := by
  rw [Admits, or_iff_right hblocks]
  by_cases h : r.near s = true
  · simp only [if_pos h, nextWindow_near h]
    constructor
    · rintro ⟨hne, hdouble⟩
      exact ⟨_, hdouble, by omega, rfl⟩
    · rintro ⟨s', hdouble, hle, -⟩
      exact ⟨by omega, hdouble⟩
  · simp only [if_neg h, nextWindow_far h]
    constructor
    · intro hepoch
      exact ⟨_, hepoch, rfl⟩
    · rintro ⟨s', hepoch, -⟩
      exact hepoch

/-- What is doubled was at most half of what an `u64` holds. -/
theorem window_le (h : nextWindow blocks r s = .ok s') (hs : WindowOk blocks s) : WindowOk blocks s' ∧ s'.window ≤ 2 ^ 63 := by
  by_cases hnear : r.near s = true
  · obtain ⟨hdouble, hblocks, rfl⟩ := (nextWindow_near hnear).1 h
    have hmax : u64Max = 2 ^ 64 - 1 := rfl
    rw [WindowOk]
    rcases hs with hs | hs | ⟨k, hs⟩
    · refine ⟨.inr (.inr ⟨1, ?_⟩), ?_⟩ <;> dsimp only <;> omega
    · refine ⟨.inr (.inl ?_), ?_⟩ <;> dsimp only <;> omega
    · have hk : k + 1 < 64 := by
        by_contra hk
        have : 2 ^ 64 ≤ 2 ^ (k + 1) := Nat.pow_le_pow_right (by decide) (by omega)
        rw [Nat.pow_succ] at this
        omega
      have hpow : 2 ^ (k + 1) ≤ 2 ^ 63 := Nat.pow_le_pow_right (by decide) (by omega)
      rw [Nat.pow_succ] at hpow
      refine ⟨?_, by dsimp only; omega⟩
      by_cases hle : s.window * 2 ≤ blocks
      · refine .inr (.inr ⟨k + 1, ?_⟩)
        have := Nat.one_le_two_pow (n := k)
        dsimp only
        rw [Nat.pow_succ]
        omega
      · exact .inr (.inl (by dsimp only; omega))
  · obtain ⟨-, rfl⟩ := (nextWindow_far hnear).1 h
    exact ⟨.inr (.inr ⟨0, rfl⟩), Nat.one_le_two_pow⟩

theorem stateOf_empty (ino : Nat) : stateOf ∅ ino = ⟨0, 0, 0⟩ := by simp [stateOf]

theorem stateOf_insert (states : ExtTreeMap Nat ReadAhead) (state : ReadAhead) (i ino : Nat) :
    stateOf (states.insert i state) ino = if i = ino then state else stateOf states ino := by
  rw [stateOf, ExtTreeMap.getElem?_insert, stateOf]
  simp only [Std.compare_eq_iff_eq]
  split <;> rfl

/-- Every window of the table is one. -/
def WindowsOk (blocks : Nat) (states : ExtTreeMap Nat ReadAhead) : Prop := ∀ ino : Nat, WindowOk blocks (stateOf states ino)

theorem div_blockSize_le {n : Nat} (h : n ≤ u64Max) : n / blockSize ≤ 2 ^ 44 := by
  have hsize : blockSize = 2 ^ 20 := rfl
  have hmax : u64Max = 2 ^ 64 - 1 := rfl
  rw [hsize]
  omega

/-- A read that is admitted returns, and its runs fit. -/
theorem schedule_spec {states : ExtTreeMap Nat ReadAhead} (hs : WindowsOk blocks states)
    (h : Admits blocks (stateOf states r.ino) r) :
    ∃ states' runs, scheduleReadahead blocks r states = .ok (states', runs) ∧ WindowsOk blocks states' ∧ RunsFit r runs := by
  unfold scheduleReadahead
  by_cases hblocks : blocks = 0
  · rw [if_pos hblocks]
    refine ⟨states, [], rfl, hs, ?_⟩
    constructor <;> simp
  · rw [if_neg hblocks]
    obtain ⟨state, hstate⟩ := (admits_iff hblocks).1 h
    obtain ⟨hok, hwindow⟩ := window_le hstate (hs r.ino)
    have hmax : u64Max = 2 ^ 64 - 1 := rfl
    have hbatch : prefetchBatchBlocks = 8 := rfl
    have hcurrent : r.current ≤ 2 ^ 44 := div_blockSize_le (by rw [satAdd, hmax]; omega)
    have hlast : ∀ l ∈ r.last, l ≤ 2 ^ 44 := by
      intro l hl
      obtain ⟨len, hlen, rfl⟩ := Option.map_eq_some_iff.1 hl
      have := r.fileSize_le len hlen
      exact div_blockSize_le (by omega)
    have hreach : checked (r.current + state.window) = .ok (r.current + state.window) := checked_of_le (by omega)
    have hfirst : checked (r.current + 1) = .ok (r.current + 1) := checked_of_le (by omega)
    -- The horizon is not beyond the window, nor beyond the file.
    have hhorizon : ∀ horizon, horizon ≤ r.current + state.window → (∀ l ∈ r.last, horizon ≤ l) →
        ∃ runs, queueRuns r state.window horizon (horizon + 1) (r.current + 1) = .ok runs ∧ RunsFit r runs := by
      intro horizon hle hinside
      have hfuel : horizon + 1 - (r.current + 1) < horizon + 1 := by omega
      have hfile : ∀ l ∈ r.last, horizon ≤ l ∧ l + 1 ≤ u64Max := by
        intro l hl
        have := hlast l hl
        exact ⟨hinside l hl, by omega⟩
      obtain ⟨runs, hruns, hsorted, hall⟩ := queueRuns_spec r state.window (by omega) hfile hfuel
      exact ⟨runs, hruns, fun x hx => (hall x hx).2.1, hsorted, fun x hx => (hall x hx).1,
        fun l hl x hx => (hall x hx).2.2.2 l hl, fun x hx => (hall x hx).2.2.1⟩
    obtain ⟨runs, hruns, hfit⟩ := hhorizon (match r.last with
      | some last => min (r.current + state.window) last
      | none => r.current + state.window) (by split <;> omega) (fun l hl => by rw [Option.mem_def.1 hl]; dsimp only; omega)
    refine ⟨states.insert r.ino state, runs, ?_, fun ino => ?_, hfit⟩
    · simp only [bind, Except.bind, hstate, hreach, hfirst]
      rw [hruns]
      rfl
    · rw [stateOf_insert]
      split
      · exact hok
      · exact hs ino

/-- What a call leaves in the table. -/
theorem schedule_state {states states' : ExtTreeMap Nat ReadAhead} {runs : List (Nat × Nat)} (hblocks : blocks ≠ 0)
    (h : scheduleReadahead blocks r states = .ok (states', runs)) :
    ∃ state, nextWindow blocks r (stateOf states r.ino) = .ok state ∧ states' = states.insert r.ino state := by
  rw [scheduleReadahead, if_neg hblocks] at h
  obtain ⟨state, hstate, h⟩ := bind_eq_ok.1 h
  obtain ⟨_, -, h⟩ := bind_eq_ok.1 h
  obtain ⟨_, -, h⟩ := bind_eq_ok.1 h
  obtain ⟨_, -, h⟩ := bind_eq_ok.1 h
  cases h
  exact ⟨state, hstate, rfl⟩

/-- A read that is not admitted panics. -/
theorem admits_of_schedule {states states' : ExtTreeMap Nat ReadAhead} {runs : List (Nat × Nat)}
    (h : scheduleReadahead blocks r states = .ok (states', runs)) : Admits blocks (stateOf states r.ino) r := by
  by_cases hblocks : blocks = 0
  · exact .inl hblocks
  · obtain ⟨state, hstate, -⟩ := schedule_state hblocks h
    exact (admits_iff hblocks).2 ⟨state, hstate⟩

end Call

/-! ## All calls -/

theorem readahead_iff {blocks : Nat} {states : ExtTreeMap Nat ReadAhead} {reads : List ReadAt} (hs : WindowsOk blocks states) :
    ReadaheadTotal blocks states reads ↔ AllAdmitted blocks states reads := by
  induction reads generalizing states with
  | nil => exact iff_of_true ⟨[], rfl, fun x hx => by cases hx⟩ trivial
  | cons r reads ih =>
    constructor
    · rintro ⟨out, hout, hfit⟩
      obtain ⟨⟨states', runs⟩, hcall, hout⟩ := bind_eq_ok.1 hout
      obtain ⟨rest, hrest, hout⟩ := bind_eq_ok.1 hout
      have hadmits := admits_of_schedule hcall
      refine ⟨hadmits, fun states1 runs1 hcall1 => ?_⟩
      rw [hcall] at hcall1
      cases hcall1
      cases hout
      obtain ⟨states2, runs2, hcall2, hs', -⟩ := schedule_spec hs hadmits
      rw [hcall] at hcall2
      cases hcall2
      exact (ih hs').1 ⟨rest, hrest, fun x hx => hfit x (List.mem_cons_of_mem _ hx)⟩
    · rintro ⟨hadmits, hnext⟩
      obtain ⟨states', runs, hcall, hs', hfit⟩ := schedule_spec hs hadmits
      obtain ⟨rest, hrest, hall⟩ := (ih hs').2 (hnext states' runs hcall)
      refine ⟨(r, runs) :: rest, ?_, List.forall_mem_cons.2 ⟨hfit, hall⟩⟩
      rw [scheduleAll, hcall]
      simp only [bind, Except.bind, hrest]
      rfl

/-- With more than one block, and no more than half of what an `u64` holds, fewer reads than
an epoch can count are all admitted. -/
theorem allAdmitted_of_lt {blocks : Nat} (hone : blocks ≠ 1) (hmax : blocks < 2 ^ 63) {states : ExtTreeMap Nat ReadAhead}
    {reads : List ReadAt} (hs : ∀ ino : Nat, (stateOf states ino).window ≤ max 2 blocks ∧
      (stateOf states ino).epoch + reads.length ≤ u64Max) : AllAdmitted blocks states reads := by
  have hlimit : u64Max = 2 ^ 64 - 1 := rfl
  induction reads generalizing states with
  | nil => trivial
  | cons r reads ih =>
    simp only [List.length_cons] at hs
    obtain ⟨hwindow, hepoch⟩ := hs r.ino
    refine ⟨.inr ?_, fun states' runs hcall => ih fun ino => ?_⟩
    · split
      · exact ⟨hone, by omega⟩
      · omega
    · by_cases hblocks : blocks = 0
      · rw [scheduleReadahead, if_pos hblocks] at hcall
        cases hcall
        obtain ⟨h1, h2⟩ := hs ino
        exact ⟨h1, by omega⟩
      · obtain ⟨state, hstate, rfl⟩ := schedule_state hblocks hcall
        rw [stateOf_insert]
        split
        · by_cases hnear : r.near (stateOf states r.ino) = true
          · obtain ⟨-, -, rfl⟩ := (nextWindow_near hnear).1 hstate
            exact ⟨by dsimp only; omega, by dsimp only; omega⟩
          · obtain ⟨-, rfl⟩ := (nextWindow_far hnear).1 hstate
            exact ⟨by dsimp only; omega, by dsimp only; omega⟩
        · obtain ⟨h1, h2⟩ := hs ino
          exact ⟨h1, by omega⟩

/-- Reads go through without a panic, and their runs are in range, if and only if each of
them is admitted by the state it finds. -/
theorem readahead_total_iff (blocks : Nat) (reads : List ReadAt) : ReadaheadTotal blocks ∅ reads ↔ AllAdmitted blocks ∅ reads :=
  readahead_iff fun ino => .inl (by rw [stateOf_empty])

theorem readahead_total {blocks : Nat} (hone : blocks ≠ 1) (hmax : blocks < 2 ^ 63) {reads : List ReadAt}
    (hlen : reads.length ≤ u64Max) : ReadaheadTotal blocks ∅ reads :=
  (readahead_iff fun ino => .inl (by rw [stateOf_empty])).2
    (allAdmitted_of_lt hone hmax fun ino => by rw [stateOf_empty]; exact ⟨Nat.zero_le _, by simpa using hlen⟩)

/-- A first read, of 128 KiB. -/
def firstRead : ReadAt := ⟨2, 0, 131072, none, fun _ _ => false, fun _ => true, by decide, by decide, by simp⟩

/-- The window cannot be clamped to a single block. -/
theorem one_block_panics : scheduleReadahead 1 firstRead ∅ = .error .panics ∧ ¬ ReadaheadTotal 1 ∅ [firstRead] := by
  have hpanics : scheduleReadahead 1 firstRead ∅ = .error .panics := by
    rw [scheduleReadahead, stateOf_empty]
    rfl
  refine ⟨hpanics, ?_⟩
  rintro ⟨out, hout, -⟩
  rw [scheduleAll, hpanics] at hout
  cases hout

end Mobfs
