import Mobfs.Lib.Log
import Mobfs.Protocol
/-!
# The change feed

`RootFeed` numbers the changes of one root and keeps the last `maxEvents` of them.
A client polls it with the cursor of its last reply. `log` is everything ever
recorded; the code does not keep it. `FeedInv` is what turning a cursor into a
number of events to skip rests on: the stored events are the end of the log, and
each event of the log carries its position.

The time of an `Instant` is in milliseconds. Sequence numbers do not wrap.
-/

namespace Mobfs.Changes

open Std Lib

def maxEvents : Nat := 50000

def maxEventsPerReply : Nat := 4096

def echoWindow : Nat := 10000

structure WaitResult where
  epoch : Nat
  cursor : Nat
  events : List ChangeEvent
  reset : Bool
  live : Bool
  deriving DecidableEq, Repr

structure Recorded where
  seq : Nat
  origin : Nat
  event : ChangeEvent
  deriving DecidableEq, Repr

/-- Size, modification time and whether it is a directory, of a path that exists. -/
abbrev Signature := Option (Nat × Option Int × Bool)

structure FeedState where
  nextSeq : Nat
  events : List Recorded
  recent : ExtTreeMap String (Nat × Signature)
  busy : ExtTreeMap String Nat
  log : List Recorded

namespace FeedState

def new : FeedState := ⟨1, [], ∅, ∅, []⟩

/-! ## Recording -/

/-- The change is the echo of one that came through the daemon. -/
def echoes (st : FeedState) (now : Nat) (current : Signature) (path : String) : Bool :=
  match st.recent[path]? with
  | some (seen, known) => decide (now - seen < echoWindow) && known == current
  | none => false

def noteRecent (st : FeedState) (now : Nat) (current : Signature) (path : String) : FeedState :=
  let recent := st.recent.insert path (now, current)
  { st with recent := if recent.size > 16384 then recent.filter fun _ x => now - x.1 < echoWindow else recent }

def append (st : FeedState) (origin : Nat) (path : String) (kind : ChangeKind) : FeedState :=
  let r := ⟨st.nextSeq, origin, ⟨path, kind⟩⟩
  let events := st.events ++ [r]
  { st with
    nextSeq := st.nextSeq + 1
    -- The front is popped until at most `maxEvents` are left.
    events := events.drop (events.length - maxEvents)
    log := st.log ++ [r] }

/-- `push`, from the second time it takes the lock. The first time it can only give
up a watcher's event of a path that is being written. -/
def push (st : FeedState) (now : Nat) (current : Signature) (origin : Nat) (path : String) (kind : ChangeKind)
    (fromMobfs : Bool) : FeedState :=
  if fromMobfs then (st.noteRecent now current path).append origin path kind
  else if st.busy.contains path then st
  else if st.echoes now current path then st
  else st.append origin path kind

def beginWrite (st : FeedState) (path : String) : FeedState :=
  { st with busy := st.busy.insert path (st.busy.getD path 0 + 1) }

/-- Dropping a `WriteGuard`. -/
def endWrite (st : FeedState) (path : String) : FeedState :=
  match st.busy[path]? with
  | some n => { st with busy := if n - 1 = 0 then st.busy.erase path else st.busy.insert path (n - 1) }
  | none => st

end FeedState

/-- What changes a feed: `record` for a request, an event of the file system
watcher, and the start and end of a streamed write. -/
inductive FeedAct where
  | record (now : Nat) (current : Signature) (origin : Nat) (path : String) (kind : ChangeKind)
  | fsEvent (now : Nat) (current : Signature) (path : String)
  | beginWrite (path : String)
  | endWrite (path : String)
  deriving DecidableEq

namespace FeedState

def change (st : FeedState) : FeedAct → FeedState
  | .record now current origin path kind => st.push now current origin path kind true
  | .fsEvent now current path => st.push now current 0 path .replaced false
  | .beginWrite path => st.beginWrite path
  | .endWrite path => st.endWrite path

/-! ## Waiting -/

def oldest (st : FeedState) : Nat :=
  match st.events.head? with
  | some r => r.seq
  | none => st.nextSeq

/-- The part of `wait` before its loop: the answers that do not wait. -/
def enter (st : FeedState) (epoch : Nat) (live : Bool) (clientEpoch : Nat) : Option Nat → Option WaitResult
  | none => some ⟨epoch, st.nextSeq - 1, [], false, live⟩
  | some since =>
    if clientEpoch ≠ epoch ∨ since ≥ st.nextSeq ∨ since + 1 < st.oldest then
      some ⟨epoch, st.nextSeq - 1, [], true, live⟩
    else none

/-- The loop over the stored events: at most a page of them, without the client's
own. A client without an id has none of its own. -/
def collect (client : Nat) (events : List ChangeEvent) (cursor : Nat) : List Recorded → List ChangeEvent × Nat
  | [] => (events, cursor)
  | r :: rs =>
    if events.length ≥ maxEventsPerReply then (events, r.seq - 1)
    else if client ≠ 0 ∧ r.origin = client then collect client events cursor rs
    else collect client (events ++ [r.event]) cursor rs

/-- One turn of the loop of `wait`, the lock held; `none` if it goes on waiting.
`expired` says that the deadline has come. -/
def turn (st : FeedState) (epoch : Nat) (live : Bool) (client since : Nat) (expired : Bool) : Option WaitResult :=
  let page := collect client [] (st.nextSeq - 1) (st.events.drop (since + 1 - st.oldest))
  if page.1 ≠ [] ∨ expired = true then some ⟨epoch, page.2, page.1, false, live⟩ else none

end FeedState

/-! ## The invariant -/

structure FeedInv (st : FeedState) : Prop where
  numbered : Numbered Recorded.seq st.log
  nextSeq : st.nextSeq = st.log.length + 1
  stored : st.events = st.log.drop (st.log.length - maxEvents)

theorem feedInv_new : FeedInv .new := ⟨Numbered.nil, rfl, rfl⟩

variable {st : FeedState}

theorem FeedInv.append (h : FeedInv st) (origin : Nat) (path : String) (kind : ChangeKind) :
    FeedInv (st.append origin path kind) := by
  refine ⟨h.numbered.concat h.nextSeq, by simp [FeedState.append, h.nextSeq], ?_⟩
  have hkeep (r : Recorded) : st.log.length - maxEvents + ((st.events ++ [r]).length - maxEvents) =
      (st.log ++ [r]).length - maxEvents := by
    simp only [h.stored, List.length_drop, List.length_append, List.length_singleton]
    omega
  have hdrop (r : Recorded) : (st.log ++ [r]).drop (st.log.length - maxEvents) = st.events ++ [r] := by
    rw [List.drop_append_of_le_length (Nat.sub_le _ _), ← h.stored]
  simp only [FeedState.append]
  rw [← hkeep, ← List.drop_drop, hdrop]

theorem FeedInv.change (h : FeedInv st) (a : FeedAct) : FeedInv (st.change a) := by
  have hnote : ∀ now current path, FeedInv (st.noteRecent now current path) :=
    fun _ _ _ => ⟨h.numbered, h.nextSeq, h.stored⟩
  cases a with
  | record now current origin path kind =>
    simp only [FeedState.change, FeedState.push, if_true]
    exact (hnote now current path).append origin path kind
  | fsEvent now current path =>
    simp only [FeedState.change, FeedState.push, Bool.false_eq_true, if_false]
    by_cases hb : st.busy.contains path = true
    · rw [if_pos hb]
      exact h
    · rw [if_neg hb]
      by_cases he : st.echoes now current path = true
      · rw [if_pos he]
        exact h
      · rw [if_neg he]
        exact h.append 0 path .replaced
  | beginWrite path => exact ⟨h.numbered, h.nextSeq, h.stored⟩
  | endWrite path =>
    simp only [FeedState.change, FeedState.endWrite]
    cases st.busy[path]? with
    | none => exact h
    | some n => exact ⟨h.numbered, h.nextSeq, h.stored⟩

/-- Whatever happens to the feed, its log only grows. -/
theorem log_change (st : FeedState) (a : FeedAct) : ∃ new, (st.change a).log = st.log ++ new := by
  cases a with
  | record now current origin path kind => exact ⟨_, rfl⟩
  | fsEvent now current path =>
    simp only [FeedState.change, FeedState.push, Bool.false_eq_true, if_false]
    by_cases hb : st.busy.contains path = true
    · exact ⟨[], by rw [if_pos hb, List.append_nil]⟩
    · rw [if_neg hb]
      by_cases he : st.echoes now current path = true
      · exact ⟨[], by rw [if_pos he, List.append_nil]⟩
      · rw [if_neg he]
        exact ⟨_, rfl⟩
  | beginWrite path => exact ⟨[], (List.append_nil _).symm⟩
  | endWrite path =>
    refine ⟨[], ?_⟩
    simp only [FeedState.change, FeedState.endWrite, List.append_nil]
    cases st.busy[path]? <;> rfl

theorem FeedInv.oldest (h : FeedInv st) : st.oldest = st.log.length - maxEvents + 1 := by
  unfold FeedState.oldest
  rw [h.stored, List.head?_drop]
  cases hx : st.log[st.log.length - maxEvents]? with
  | some r => exact h.numbered _ r hx
  | none =>
    -- Only an empty log has nothing stored.
    have hlen : st.log.length ≤ st.log.length - maxEvents := List.getElem?_eq_none_iff.1 hx
    have hmax : 0 < maxEvents := by decide
    have := h.nextSeq
    simp only
    omega

/-- An event is gone if as many have been recorded after it as are kept. -/
theorem FeedInv.evicted (h : FeedInv st) {r : Recorded} (hr : r ∈ st.log) :
    r ∉ st.events ↔ r.seq + maxEvents ≤ st.log.length := by
  have hpos := (h.numbered.seq_le hr).1
  rw [h.stored, h.numbered.mem_drop]
  constructor
  · intro hn
    by_contra hlt
    exact hn ⟨hr, by omega⟩
  · rintro hle ⟨-, hlt⟩
    omega

/-- Skipping what the cursor covers leaves the log above the cursor. -/
theorem FeedInv.skip (h : FeedInv st) {since : Nat} (hs : st.oldest ≤ since + 1) :
    st.events.drop (since + 1 - st.oldest) = st.log.drop since := by
  rw [h.oldest] at hs ⊢
  have hskip : st.log.length - maxEvents + (since + 1 - (st.log.length - maxEvents + 1)) = since := by omega
  rw [h.stored, List.drop_drop, hskip]

/-! ## A page -/

/-- The event is none of the client's own. -/
def Foreign (client : Nat) (r : Recorded) : Prop := client = 0 ∨ r.origin ≠ client

instance (client : Nat) (r : Recorded) : Decidable (Foreign client r) := by
  unfold Foreign
  infer_instance

/-- What the loop delivers is the foreign part of the events it went over, and if
it stops early its cursor is just before the next one. -/
theorem collect_spec (client : Nat) (rs : List Recorded) (acc : List ChangeEvent) (cursor : Nat) :
    ∃ k ≤ rs.length,
      (FeedState.collect client acc cursor rs).1 =
        acc ++ ((rs.take k).filter fun r => Foreign client r).map Recorded.event ∧
      ((k = rs.length ∧ (FeedState.collect client acc cursor rs).2 = cursor) ∨
        ∃ r, rs[k]? = some r ∧ (FeedState.collect client acc cursor rs).2 = r.seq - 1) := by
  induction rs generalizing acc with
  | nil => exact ⟨0, Nat.le_refl 0, by simp [FeedState.collect], .inl ⟨rfl, rfl⟩⟩
  | cons r rs ih =>
    unfold FeedState.collect
    by_cases hfull : acc.length ≥ maxEventsPerReply
    · rw [if_pos hfull]
      exact ⟨0, by simp, by simp, .inr ⟨r, rfl, rfl⟩⟩
    · rw [if_neg hfull]
      by_cases hown : client ≠ 0 ∧ r.origin = client
      · have hf : ¬ Foreign client r := by
          rintro (h | h)
          · exact hown.1 h
          · exact h hown.2
        rw [if_pos hown]
        obtain ⟨k, hk, hev, hcur⟩ := ih acc
        refine ⟨k + 1, by simpa using hk, ?_, ?_⟩
        · simp [hev, hf]
        · simpa using hcur
      · have hf : Foreign client r := by
          by_cases hc : client = 0
          · exact .inl hc
          · exact .inr fun ho => hown ⟨hc, ho⟩
        rw [if_neg hown]
        obtain ⟨k, hk, hev, hcur⟩ := ih (acc ++ [r.event])
        refine ⟨k + 1, by simpa using hk, ?_, ?_⟩
        · simp [hev, hf]
        · simpa using hcur

end Mobfs.Changes
