import Mobfs.Lib.Runs
import Mobfs.Changes.Feed
/-!
# Polling the feed

A client that polls without waiting, each time with the epoch and the cursor of its
last reply, among changes by anyone. What has been delivered to it since its first
cursor, or since the last reset, is exactly what was recorded above that cursor and
up to its present one, without its own changes.

A client whose id is 0 has not told the daemon an id. It has no changes of its own,
and gets those of all others without an id.
-/

namespace Mobfs.Changes

open Lib

/-- `wait` with a timeout of zero. -/
def FeedState.waitNow (st : FeedState) (epoch : Nat) (live : Bool) (client clientEpoch : Nat) (since : Option Nat) :
    WaitResult :=
  match st.enter epoch live clientEpoch since, since with
  | some r, _ => r
  | none, some since => (st.turn epoch live client since true).getD ⟨epoch, 0, [], false, live⟩
  | none, none => ⟨epoch, 0, [], false, live⟩

/-- A feed with a client that polls it. `last` is the epoch and the cursor of its
last reply; `first` is the cursor from which `delivered` counts. -/
structure Poller where
  st : FeedState
  last : Option (Nat × Nat)
  first : Nat
  delivered : List ChangeEvent

inductive PollAct where
  | change (a : FeedAct)
  | poll (live : Bool)

namespace Poller

/-- The reply to the next poll. -/
def reply (epoch client : Nat) (s : Poller) (live : Bool) : WaitResult :=
  match s.last with
  | none => s.st.waitNow epoch live client 0 none
  | some (e, cursor) => s.st.waitNow epoch live client e (some cursor)

def step (epoch client : Nat) (s : Poller) : PollAct → Option Poller
  | .change a => some { s with st := s.st.change a }
  | .poll live =>
    let r := s.reply epoch client live
    some { s with
      last := some (r.epoch, r.cursor)
      first := if r.reset || s.last.isNone then r.cursor else s.first
      delivered := if r.reset || s.last.isNone then [] else s.delivered ++ r.events }

/-- A client that has not polled yet, or that comes from another run of the daemon. -/
def Starts (epoch : Nat) (s : Poller) : Prop :=
  s.st = .new ∧ s.delivered = [] ∧ ∀ e cursor, s.last = some (e, cursor) → e ≠ epoch

end Poller

section Waiting
variable {st : FeedState} {epoch : Nat}

/-- The answers that do not wait are a reset exactly if the epoch differs or an event
above the cursor is gone. -/
theorem FeedInv.enter_reset (h : FeedInv st) (live : Bool) {clientEpoch since : Nat}
    (hs : clientEpoch = epoch → since ≤ st.log.length) :
    (st.enter epoch live clientEpoch (some since) = none ↔
      ¬ (clientEpoch ≠ epoch ∨ ∃ r ∈ st.log, since < r.seq ∧ r ∉ st.events)) ∧
    ∀ r, st.enter epoch live clientEpoch (some since) = some r →
      r = ⟨epoch, st.log.length, [], true, live⟩ := by
  have hgone : (∃ r ∈ st.log, since < r.seq ∧ r ∉ st.events) ↔ since + 1 < st.oldest := by
    rw [h.oldest]
    constructor
    · rintro ⟨r, hr, hlt, hout⟩
      have := (h.evicted hr).1 hout
      omega
    · intro hlt
      -- The last event that is gone.
      have hpos : st.log.length - maxEvents - 1 < st.log.length := by omega
      refine ⟨st.log[st.log.length - maxEvents - 1], List.getElem_mem hpos, ?_⟩
      have hseq := h.numbered _ _ (List.getElem?_eq_getElem hpos)
      refine ⟨by omega, (h.evicted (List.getElem_mem hpos)).2 (by omega)⟩
  have hnext := h.nextSeq
  refine ⟨?_, ?_⟩
  · rw [hgone]
    simp only [FeedState.enter]
    by_cases he : clientEpoch = epoch
    · have := hs he
      simp only [he, ne_eq, not_true_eq_false, false_or, ite_eq_right_iff, reduceCtorEq, imp_false, not_or]
      omega
    · simp [he]
  · intro r hr
    simp only [FeedState.enter, Option.ite_none_right_eq_some, Option.some.injEq] at hr
    rw [← hr.2, hnext]
    rfl

/-- A turn of the loop from a cursor whose events are all stored. -/
theorem FeedInv.turn_spec (h : FeedInv st) {live : Bool} {client since : Nat} {expired : Bool} {r : WaitResult}
    (hs : since ≤ st.log.length) (hold : st.oldest ≤ since + 1) (hr : st.turn epoch live client since expired = some r) :
    r.epoch = epoch ∧ r.reset = false ∧ since ≤ r.cursor ∧ r.cursor ≤ st.log.length ∧
    r.events = ((st.log.filter fun x => since < x.seq ∧ x.seq ≤ r.cursor).filter fun x => Foreign client x).map
      Recorded.event := by
  simp only [FeedState.turn, Option.ite_none_right_eq_some, Option.some.injEq] at hr
  obtain ⟨-, rfl⟩ := hr
  rw [h.skip hold]
  obtain ⟨k, hk, hev, hcur⟩ := collect_spec client (st.log.drop since) [] (st.nextSeq - 1)
  have hnext := h.nextSeq
  rw [List.length_drop] at hk hcur
  -- In both cases the cursor is the number of the last event gone over.
  have hcursor : (FeedState.collect client [] (st.nextSeq - 1) (st.log.drop since)).2 = since + k := by
    rcases hcur with ⟨hall, hc⟩ | ⟨x, hx, hc⟩
    · rw [hc]
      omega
    · rw [List.getElem?_drop] at hx
      rw [hc, h.numbered _ x hx]
      omega
  refine ⟨rfl, rfl, ?_, ?_, ?_⟩
  · simp only [hcursor]
    omega
  · simp only [hcursor]
    omega
  · simp only [hcursor]
    rw [h.numbered.between (by omega), Nat.add_sub_cancel_left, hev, List.nil_append]

end Waiting

/-! ## Runs of polls -/

/-- The changes recorded above one cursor and up to another that are not the
client's own. -/
def FeedState.between (st : FeedState) (client first cursor : Nat) : List ChangeEvent :=
  ((st.log.filter fun r => first < r.seq ∧ r.seq ≤ cursor).filter fun r => Foreign client r).map Recorded.event

structure PollInv (epoch client : Nat) (s : Poller) : Prop where
  feed : FeedInv s.st
  last : ∀ cursor, s.last = some (epoch, cursor) →
    s.first ≤ cursor ∧ cursor ≤ s.st.log.length ∧ s.delivered = s.st.between client s.first cursor

section Runs
variable {epoch client : Nat} {s s' : Poller}

theorem FeedInv.between_self (h : FeedInv s.st) (c : Nat) : s.st.between client c c = [] := by
  rw [FeedState.between, h.numbered.between (Nat.le_refl c), Nat.sub_self]
  rfl

/-- What a poll is answered, and that it is a reset exactly if it has to be. -/
theorem PollInv.reply_spec (h : PollInv epoch client s) (live : Bool) {e cursor : Nat} (hl : s.last = some (e, cursor)) :
    ((s.reply epoch client live).reset = true ↔
      e ≠ epoch ∨ ∃ r ∈ s.st.log, cursor < r.seq ∧ r ∉ s.st.events) ∧
    (s.reply epoch client live).epoch = epoch ∧ (s.reply epoch client live).cursor ≤ s.st.log.length ∧
    ((s.reply epoch client live).reset = false → e = epoch ∧ cursor ≤ (s.reply epoch client live).cursor ∧
      (s.reply epoch client live).events = s.st.between client cursor (s.reply epoch client live).cursor) := by
  have hs : e = epoch → cursor ≤ s.st.log.length := by
    rintro rfl
    exact (h.last cursor hl).2.1
  obtain ⟨hnone, hsome⟩ := h.feed.enter_reset live hs
  simp only [Poller.reply, hl, FeedState.waitNow]
  cases he : s.st.enter epoch live e (some cursor) with
  | some r =>
    rw [hsome r he]
    simp only [he, reduceCtorEq, false_iff, not_not] at hnone
    simpa using hnone
  | none =>
    have hok := hnone.1 he
    simp only [not_or, not_not] at hok
    have hpage : ∃ r, s.st.turn epoch live client cursor true = some r := by
      simp [FeedState.turn]
    obtain ⟨r, hr⟩ := hpage
    -- No reset: the cursor's events are all stored.
    have hold : s.st.oldest ≤ cursor + 1 := by
      simp only [FeedState.enter] at he
      split at he
      · cases he
      · omega
    obtain ⟨h1, h2, h3, h4, h5⟩ := h.feed.turn_spec (hs hok.1) hold hr
    simp only [hr, Option.getD_some, h2, Bool.false_eq_true, false_iff, not_or, not_not]
    exact ⟨hok, h1, h4, fun _ => ⟨hok.1, h3, h5⟩⟩

theorem PollInv.step (h : PollInv epoch client s) {a : PollAct} (hs : s.step epoch client a = some s') :
    PollInv epoch client s' := by
  cases a with
  | change a =>
    cases hs
    obtain ⟨new, hnew⟩ := log_change s.st a
    have hf := h.feed.change a
    refine ⟨hf, fun cursor hl => ?_⟩
    obtain ⟨h1, h2, h3⟩ := h.last cursor hl
    refine ⟨h1, ?_, ?_⟩
    · rw [hnew, List.length_append]
      omega
    · have hn := hf.numbered
      rw [hnew] at hn
      rw [FeedState.between, hnew, hn.between_grown h2]
      exact h3
  | poll live =>
    cases hs
    refine ⟨h.feed, fun cursor hl => ?_⟩
    simp only [Option.some.injEq, Prod.mk.injEq] at hl
    cases hlast : s.last with
    | none =>
      -- The first reply: the client is up to date.
      simp only [Poller.reply, hlast, FeedState.waitNow, FeedState.enter] at hl
      simp only [Poller.reply, hlast, FeedState.waitNow, FeedState.enter, Option.isNone_none, Bool.or_true, if_true]
      rw [hl.2]
      have := h.feed.nextSeq
      exact ⟨Nat.le_refl _, by omega, (h.feed.between_self _).symm⟩
    | some x =>
      obtain ⟨e, c0⟩ := x
      obtain ⟨-, -, hle, hgo⟩ := h.reply_spec live hlast
      rw [hl.2] at hle hgo
      simp only [Option.isNone_some, Bool.or_false, hl.2]
      cases hres : (s.reply epoch client live).reset with
      | true =>
        simp only [if_true]
        exact ⟨Nat.le_refl _, hle, (h.feed.between_self _).symm⟩
      | false =>
        obtain ⟨rfl, hge, hev⟩ := hgo hres
        obtain ⟨h1, h2, h3⟩ := h.last c0 hlast
        simp only [Bool.false_eq_true, if_false]
        refine ⟨Nat.le_trans h1 hge, hle, ?_⟩
        rw [h3, hev, FeedState.between, FeedState.between, FeedState.between, h.feed.numbered.between_append h1 hge,
          List.filter_append, List.map_append]

end Runs

/-- However changes and polls are interleaved: since the client's first cursor, or
the last reset, exactly the changes of others up to its present cursor have been
delivered to it, in order and each once; and the next reply is a reset exactly if an
event above the cursor is gone or the epoch differs. -/
theorem polls_exact (epoch client : Nat) (s₀ s : Poller) (as : List PollAct) (h₀ : s₀.Starts epoch)
    (hrun : exec (Poller.step epoch client) s₀ as = some s) :
    (∀ cursor, s.last = some (epoch, cursor) →
      s.delivered = ((s.st.log.filter fun r => s.first < r.seq ∧ r.seq ≤ cursor).filter fun r =>
        client = 0 ∨ r.origin ≠ client).map Recorded.event) ∧
    ∀ live e cursor, s.last = some (e, cursor) →
      ((s.reply epoch client live).reset = true ↔
        (∃ r ∈ s.st.log, cursor < r.seq ∧ r ∉ s.st.events) ∨ e ≠ epoch) := by
  obtain ⟨hst, hdel, hlast⟩ := h₀
  have hinit : PollInv epoch client s₀ := by
    refine ⟨hst ▸ feedInv_new, fun cursor hl => ?_⟩
    exact absurd rfl (hlast epoch cursor hl)
  have h := exec_inv (PollInv epoch client) (fun _ _ _ h hs => h.step hs) hinit hrun
  refine ⟨fun cursor hl => (h.last cursor hl).2.2, fun live e cursor hl => ?_⟩
  rw [or_comm]
  exact (h.reply_spec live hl).1

/-- Before the first poll of a new daemon's feed. -/
def newPoller : Poller := ⟨.new, none, 0, []⟩

/-- A change by client 7, one by client 9, and a poll before and after. -/
def changesByTwo : List PollAct :=
  [.poll true, .change (.record 0 none 7 "a.mov" (.write 0 10)), .change (.record 0 none 9 "b.txt" .replaced), .poll true]

theorem polls_exact_two_clients :
    newPoller.Starts 1 ∧ ∃ s, exec (Poller.step 1 9) newPoller changesByTwo = some s ∧ s.last = some (1, 2) ∧
      [⟨"a.mov", .write 0 10⟩] = ((s.st.log.filter fun r => 0 < r.seq ∧ r.seq ≤ 2).filter fun r =>
        9 = 0 ∨ r.origin ≠ 9).map Recorded.event := by
  have hstart : newPoller.Starts 1 := ⟨rfl, rfl, fun _ _ hl => by cases hl⟩
  have hrun : (exec (Poller.step 1 9) newPoller changesByTwo).any
      (fun s => decide (s.last = some (1, 2) ∧ s.first = 0 ∧ s.delivered = [⟨"a.mov", .write 0 10⟩])) := by decide
  obtain ⟨s, hs, hd⟩ := (Option.any_eq_true _ _).1 hrun
  obtain ⟨hl, hf, hd⟩ := of_decide_eq_true hd
  have h := (polls_exact 1 9 newPoller s changesByTwo hstart hs).1 2 hl
  rw [hd, hf] at h
  exact ⟨hstart, s, hs, hl, h⟩

/-- A client without an id gets the change of another one without an id, which has
the same origin. -/
theorem polls_without_id :
    ∃ s, exec (Poller.step 1 0) newPoller [.poll true, .change (.record 0 none 0 "a.mov" .replaced), .poll true] = some s ∧
      s.last = some (1, 1) ∧
      s.delivered ≠ ((s.st.log.filter fun r => s.first < r.seq ∧ r.seq ≤ 1).filter fun r =>
        r.origin ≠ 0).map Recorded.event := by
  refine ⟨_, rfl, ?_⟩
  decide

end Mobfs.Changes
