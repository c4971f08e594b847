import Mobfs.Lib.Runs
import Mobfs.Changes.Polls
/-!
# Polls that wait

`wait` tests once whether events above the cursor are gone, before its loop. The
lock is free while it waits, and when it gets it back it takes the stored events
above the cursor for all there are. So a reply has a gap if, from the first change
of another client on, more than `maxEvents` are recorded before the lock is back.
-/

namespace Mobfs.Changes

open Lib

/-- A call of `wait` that waits on the condition variable. -/
structure Blocked where
  client : Nat
  since : Nat

/-- A reply to a call that has waited, with the log and the stored events as they
were when it was built. -/
structure Reply where
  client : Nat
  since : Nat
  log : List Recorded
  stored : List Recorded
  result : WaitResult

structure Waiters where
  st : FeedState
  waiting : Nat → Option Blocked
  replies : List Reply

inductive WaitAct where
  | change (a : FeedAct)
  | wait (t : Nat) (live : Bool) (client clientEpoch : Nat) (since : Option Nat) (expired : Bool)
  /-- A thread that waited has the lock again: notified, timed out or for no reason. -/
  | wake (t : Nat) (live expired : Bool)

namespace Waiters

def step (epoch : Nat) (s : Waiters) : WaitAct → Option Waiters
  | .change a => some { s with st := s.st.change a }
  | .wait t live client clientEpoch since expired =>
    match s.waiting t, s.st.enter epoch live clientEpoch since, since with
    | some _, _, _ => none
    | none, none, some since =>
      match s.st.turn epoch live client since expired with
      | some _ => some s
      | none => some { s with waiting := Function.update s.waiting t (some ⟨client, since⟩) }
    | none, _, _ => some s
  | .wake t live expired =>
    (s.waiting t).map fun b =>
      match s.st.turn epoch live b.client b.since expired with
      | some r =>
        { s with
          waiting := Function.update s.waiting t none
          replies := s.replies ++ [⟨b.client, b.since, s.st.log, s.st.events, r⟩] }
      | none => s

def idle : Waiters := ⟨.new, fun _ => none, []⟩

end Waiters

/-- A reply built from a sound state, that is not a reset. -/
def Reply.Built (r : Reply) : Prop :=
  r.result.reset = false ∧ ∃ st, FeedInv st ∧ st.log = r.log ∧ st.events = r.stored

structure WaitInv (s : Waiters) : Prop where
  feed : FeedInv s.st
  replies : ∀ r ∈ s.replies, r.Built

section Runs
variable {epoch : Nat} {s s' : Waiters}

theorem turn_reset {st : FeedState} {live : Bool} {client since : Nat} {expired : Bool} {r : WaitResult}
    (h : st.turn epoch live client since expired = some r) : r.reset = false := by
  simp only [FeedState.turn, Option.ite_none_right_eq_some, Option.some.injEq] at h
  rw [← h.2]

theorem WaitInv.step (h : WaitInv s) {a : WaitAct} (hs : s.step epoch a = some s') : WaitInv s' := by
  cases a with
  | change a =>
    cases hs
    exact ⟨h.feed.change a, h.replies⟩
  | wait t live client clientEpoch since expired =>
    simp only [Waiters.step] at hs
    split at hs
    · cases hs
    · split at hs <;> cases hs <;> exact ⟨h.feed, h.replies⟩
    · cases hs
      exact h
  | wake t live expired =>
    obtain ⟨b, -, rfl⟩ := Option.map_eq_some_iff.1 hs
    cases hr : s.st.turn epoch live b.client b.since expired with
    | none => exact h
    | some r =>
      refine ⟨h.feed, fun x hx => ?_⟩
      rcases List.mem_append.1 hx with hx | hx
      · exact h.replies x hx
      · rw [List.mem_singleton.1 hx]
        exact ⟨turn_reset hr, s.st, h.feed, rfl, rfl⟩

end Runs

/-- In every run, a reply to a call that has waited does not skip a change of
another client above its cursor silently, exactly if each such change has fewer than
`maxEvents` after it when the reply is built. -/
theorem blocked_poll_sound_iff (epoch : Nat) (as : List WaitAct) (s : Waiters)
    (hrun : exec (Waiters.step epoch) .idle as = some s) (r : Reply) (hr : r ∈ s.replies) :
    ((∃ e ∈ r.log, r.since < e.seq ∧ Foreign r.client e ∧ e ∉ r.stored) → r.result.reset = true) ↔
      ∀ e ∈ r.log, r.since < e.seq → Foreign r.client e → r.log.length < e.seq + maxEvents := by
  have hinit : WaitInv .idle := ⟨feedInv_new, by simp [Waiters.idle]⟩
  have h := exec_inv WaitInv (fun _ _ _ h hs => h.step hs) hinit hrun
  obtain ⟨hreset, st, hf, hlog, hstored⟩ := h.replies r hr
  rw [hreset, ← hlog, ← hstored]
  -- A change is gone exactly if `maxEvents` others follow it.
  constructor
  · intro hskip e he hlt hfor
    by_contra hle
    have hgone := (hf.evicted he).2 (by omega)
    exact absurd (hskip ⟨e, he, hlt, hfor, hgone⟩) (by decide)
  · rintro hall ⟨e, he, hlt, hfor, hgone⟩
    have hle := (hf.evicted he).1 hgone
    have := hall e he hlt hfor
    omega

/-! ## One change, and a flood of them -/

/-- A client waits, another one makes a change, and the first wakes up. -/
def oneChange : List WaitAct :=
  [.wait 0 true 9 1 (some 0) false, .change (.record 0 none 7 "a.mov" .replaced), .wake 0 true false]

theorem blocked_poll_sound_one_change :
    ∃ s r, exec (Waiters.step 1) .idle oneChange = some s ∧ r ∈ s.replies ∧
      (∀ e ∈ r.log, r.since < e.seq → Foreign r.client e → r.log.length < e.seq + maxEvents) ∧
      ((∃ e ∈ r.log, r.since < e.seq ∧ Foreign r.client e ∧ e ∉ r.stored) → r.result.reset = true) := by
  have hrun : (exec (Waiters.step 1) .idle oneChange).any (fun s => s.replies.any fun r =>
      decide (∀ e ∈ r.log, r.since < e.seq → Foreign r.client e → r.log.length < e.seq + maxEvents)) := by decide
  obtain ⟨s, hs, hr⟩ := (Option.any_eq_true _ _).1 hrun
  obtain ⟨r, hr, hall⟩ := List.any_eq_true.1 hr
  replace hall := of_decide_eq_true hall
  exact ⟨s, r, hs, hr, hall, (blocked_poll_sound_iff 1 oneChange s hs r hr).2 hall⟩

/-- Changes of client 7, one after another. -/
def flood (n : Nat) : List WaitAct := List.replicate n (.change (.record 0 none 7 "a.mov" .replaced))

theorem exec_flood (epoch n : Nat) (s : Waiters) (h : ∀ e ∈ s.st.log, e.origin = 7) :
    ∃ st, exec (Waiters.step epoch) s (flood n) = some { s with st := st } ∧ st.log.length = s.st.log.length + n ∧
      ∀ e ∈ st.log, e.origin = 7 := by
  induction n generalizing s with
  | zero => exact ⟨s.st, rfl, rfl, h⟩
  | succ n ih =>
    have hlog : (s.st.change (.record 0 none 7 "a.mov" .replaced)).log =
        s.st.log ++ [⟨s.st.nextSeq, 7, ⟨"a.mov", .replaced⟩⟩] := rfl
    obtain ⟨st, hst, hlen, horig⟩ := ih { s with st := s.st.change (.record 0 none 7 "a.mov" .replaced) } (by
      intro e he
      rcases List.mem_append.1 (hlog ▸ he) with he | he
      · exact h e he
      · rw [List.mem_singleton.1 he])
    refine ⟨st, hst, ?_, horig⟩
    rw [hlen, hlog, List.length_append, List.length_singleton]
    omega

/-- A client waits from the start of the feed; another one makes one change more
than are kept before the first gets the lock back. The first change is gone, and
the reply is no reset. -/
theorem blocked_poll_skips :
    ∃ s r e, exec (Waiters.step 1) .idle
        (.wait 0 true 9 1 (some 0) false :: (flood (maxEvents + 1) ++ [.wake 0 true true])) = some s ∧
      r ∈ s.replies ∧ e ∈ r.log ∧ r.since < e.seq ∧ Foreign r.client e ∧ e ∉ r.stored ∧ r.result.reset = false := by
  let s₁ : Waiters := ⟨.new, Function.update (fun _ => none) 0 (some ⟨9, 0⟩), []⟩
  have hwait : Waiters.step 1 .idle (.wait 0 true 9 1 (some 0) false) = some s₁ := rfl
  obtain ⟨st, hflood, hlen, horig⟩ := exec_flood 1 (maxEvents + 1) s₁ (by simp [s₁, FeedState.new])
  have hinv : WaitInv { s₁ with st := st } :=
    exec_inv WaitInv (fun _ _ _ h hs => h.step hs) ⟨feedInv_new, by simp [s₁]⟩ hflood
  have hlen' : st.log.length = maxEvents + 1 := by simpa [s₁, FeedState.new] using hlen
  have hpos : 0 < st.log.length := by omega
  obtain ⟨r, hr⟩ : ∃ r, st.turn 1 true 9 0 true = some r := by simp [FeedState.turn]
  have hwake : Waiters.step 1 { s₁ with st := st } (.wake 0 true true) =
      some ⟨st, Function.update s₁.waiting 0 none, [⟨9, 0, st.log, st.events, r⟩]⟩ := by
    simp [Waiters.step, s₁, hr]
  have hrun := exec_cons.2 ⟨s₁, hwait, exec_append.2 ⟨_, hflood, exec_cons.2 ⟨_, hwake, exec_nil _⟩⟩⟩
  refine ⟨_, ⟨9, 0, st.log, st.events, r⟩, st.log[0], hrun, List.mem_singleton.2 rfl, List.getElem_mem hpos, ?_, ?_, ?_,
    turn_reset hr⟩
  · exact (hinv.feed.numbered.seq_le (List.getElem_mem hpos)).1
  · exact .inr (by simp [horig _ (List.getElem_mem hpos)])
  · refine (hinv.feed.evicted (List.getElem_mem hpos)).2 ?_
    rw [hinv.feed.numbered 0 _ (List.getElem?_eq_getElem hpos), hlen']
    omega

end Mobfs.Changes
