import Mobfs.Daemon.Calls
import Mobfs.Vfs.JournalRuns
/-!
# Mutations and their outcome

Calls of `mutate`, one at a time: the record, the action, and where that fails by the
network, up to twelve attempts of `recover_journal`, each of which goes through the
whole journal. Every request may be sent several times by the client (`op`), with one
op id; each time it may be lost before or after it is handled.

`success_means_applied`: in a run that meets `MutateGuard`, a call that returns `Ok`
has applied its operation, and the daemon's last answer to it was no rejection. The
code ensures this only for the action: `replay_journal` drops what the daemon rejects
(`replay_drops_rejected`), and applies the operations of earlier calls again.
-/

namespace Mobfs

open Lib

/-- A call of `mutate`. `before` and `journal`, the tree and the journal at the call, and
`answer`, the daemon's last answer to it, are for stating properties. -/
structure Mutation where
  op : JournalOp
  before : Tree
  journal : JournalFile
  answer : Option Bool

/-- A request on its way: how often it was sent again, and whether the marker of its
op id is there. -/
structure Sending where
  tries : Nat
  marked : Bool
  deriving DecidableEq

def Sending.new : Sending := ⟨0, false⟩

inductive MutatePhase where
  | idle
  /-- The calls of the client that the action has still to make. -/
  | acting (m : Mutation) (rest : List JournalOp) (sending : Sending)
  | recovering (m : Mutation) (attempt : Nat)
  | replaying (m : Mutation) (attempt : Nat) (rest : List JournalOp) (sending : Sending)
  /-- `clear_record` comes next. -/
  | clearing (m : Mutation) (applied : Bool)
  | returned (m : Mutation) (ok : Bool)

structure Mutations where
  tree : Tree
  journal : JournalFile
  phase : MutatePhase

/-- What happens to a request. `reconnects`: the client connects again after it. -/
inductive Trip where
  | lost (reconnects : Bool)
  | handled (h : Handling) (answered reconnects : Bool)

/-- How a request ends for the client. -/
inductive SendResult where
  | answered (ok : Bool)
  | again (sending : Sending)
  | failed

inductive MutateAct where
  /-- `mode` is set beside, by `create` and `mkdir`. -/
  | call (op : JournalOp) (mode : Option Nat)
  /-- `append_journal` fails and leaves this behind. -/
  | recordFails (op : JournalOp) (left : JournalFile)
  | send (trip : Trip)
  /-- The marker of the request under way is older than a day, and pruned. -/
  | prune
  /-- An attempt of `recover_journal`: a connection is there and the journal is read, or not. -/
  | attempt (ok : Bool)
  | clear (t : Truncate)
  /-- Changes by others, between calls. -/
  | others (tree : Tree)

/-- The calls of the client that the callers of `mutate` put in the action. -/
def action (op : JournalOp) (mode : Option Nat) : List JournalOp :=
  op :: match op, mode with
    | .truncate p 0, some m => [.setMetadata p (some m) none]
    | .mkdir p, some m => [.setMetadata p (some m) none]
    | _, _ => []

section System
variable (w : Walks) (blobs : String → Bytes) (retries : Nat)

/-- `op` of the client after a network error. -/
def retry (sending : Sending) (reconnects marked : Bool) : SendResult :=
  if sending.tries < retries ∧ reconnects = true then .again ⟨sending.tries + 1, marked⟩ else .failed

/-- One request for the operation: the tree, the daemon's answer if it gives one, and
what the client makes of it. -/
def sendOnce (t : Tree) (op : JournalOp) (sending : Sending) : Trip → Tree × Option Bool × SendResult
  | .lost reconnects => (t, none, retry retries sending reconnects sending.marked)
  | .handled h answered reconnects =>
    let r := handle w blobs h sending.marked t op
    (r.1, some r.2, if answered then .answered r.2 else retry retries sending reconnects (sending.marked || r.2))

def Mutation.hears (m : Mutation) (answer : Option Bool) : Mutation := { m with answer := answer.or m.answer }

/-- The phase after an attempt to recover that failed. -/
def Mutation.nextAttempt (m : Mutation) (attempt : Nat) : MutatePhase :=
  if attempt + 1 < defaultOpRetries then .recovering m (attempt + 1) else .returned m false

/-- The action goes on. -/
def afterAct (m : Mutation) (op : JournalOp) (rest : List JournalOp) : SendResult → MutatePhase
  | .answered true => if rest = [] then .clearing m true else .acting m rest .new
  | .answered false => .clearing m false
  | .again sending => .acting m (op :: rest) sending
  | .failed => .recovering m 0

/-- The replay goes on: a rejected operation is dropped. -/
def afterReplay (m : Mutation) (attempt : Nat) (op : JournalOp) (rest : List JournalOp) : SendResult → MutatePhase
  | .answered _ => .replaying m attempt rest .new
  | .again sending => .replaying m attempt (op :: rest) sending
  | .failed => m.nextAttempt attempt

def mutateStep (s : Mutations) : MutateAct → Option Mutations
  | .call op mode =>
    match s.phase with
    | .idle => some ⟨s.tree, s.journal ++ [.json op, .newline], .acting ⟨op, s.tree, s.journal, none⟩ (action op mode) .new⟩
    | _ => none
  | .recordFails op left =>
    match s.phase with
    | .idle =>
      if left = [] ∨ left = [.cutOff] ∨ left = [.json op] ∨ left = [.json op, .newline] then
        some ⟨s.tree, s.journal ++ left, .returned ⟨op, s.tree, s.journal, none⟩ false⟩
      else none
    | _ => none
  | .send trip =>
    match s.phase with
    | .acting m (op :: rest) sending =>
      let r := sendOnce w blobs retries s.tree op sending trip
      some ⟨r.1, s.journal, afterAct (m.hears r.2.1) op rest r.2.2⟩
    | .replaying m n (op :: rest) sending =>
      let r := sendOnce w blobs retries s.tree op sending trip
      some ⟨r.1, s.journal, afterReplay (if op = m.op then m.hears r.2.1 else m) n op rest r.2.2⟩
    | _ => none
  | .prune =>
    match s.phase with
    | .acting m rest sending => some { s with phase := .acting m rest ⟨sending.tries, false⟩ }
    | .replaying m n rest sending => some { s with phase := .replaying m n rest ⟨sending.tries, false⟩ }
    | _ => none
  | .attempt ok =>
    match s.phase with
    | .recovering m n =>
      some { s with phase := if ok then .replaying m n (journalOps s.journal) .new else m.nextAttempt n }
    | _ => none
  | .clear t =>
    match s.phase with
    | .replaying m n [] _ =>
      some ⟨s.tree, t.file s.journal, if t = .ok then .clearing m true else m.nextAttempt n⟩
    | .clearing m applied => some ⟨s.tree, t.file s.journal, .returned m (applied && t = .ok)⟩
    | _ => none
  | .others tree =>
    match s.phase with
    | .idle => some { s with tree }
    | .returned _ _ => some { s with tree, phase := .idle }
    | _ => none

/-- The last call, if it has returned `Ok`, has applied its operation, and the daemon
has not rejected it last. -/
def SuccessApplied (s : Mutations) : Prop :=
  ∀ m, s.phase = .returned m true → Applied w blobs m.before s.tree m.op ∧ m.answer ≠ some false

/-- The operation is admissible when it is called. The daemon sees what is there. A call
that is replayed began with an empty journal; or the replay goes through records of this
operation alone, at least one unless the daemon has answered `Ok` already. It is not
answered with a rejection. -/
def MutateGuard (s : Mutations) : MutateAct → Prop
  | .call op _ => Admissible w s.tree op
  | .send (.handled h answered _) => h.unseen = false ∧
      ∀ m n op rest sending, s.phase = .replaying m n (op :: rest) sending → answered = true →
        (handle w blobs h sending.marked s.tree op).2 = true
  | .attempt true => ∀ m n, s.phase = .recovering m n → m.journal = [] ∨
      (∀ op ∈ journalOps s.journal, op = m.op) ∧ (m.op ∈ journalOps s.journal ∨ m.answer = some true)
  | _ => True

/-! ## The invariant -/

/-- The tree of a call whose operation has been tried any number of times. -/
structure Tried (m : Mutation) (t : Tree) : Prop where
  underway : Underway w m.before t m.op
  applied : m.answer = some true → Applied w blobs m.before t m.op

/-- The operations beside which the action sets the mode. -/
def HasMode : JournalOp → Prop
  | .truncate _ _ => True
  | .mkdir _ => True
  | _ => False

/-- The action is at its operation, or at the mode after it. -/
def Acting (m : Mutation) (t : Tree) (rest : List JournalOp) (sending : Sending) : Prop :=
  (∃ mode, rest = action m.op mode ∧ (sending.marked = true → Applied w blobs m.before t m.op)) ∨
  (∃ p mode, rest = [.setMetadata p (some mode) none] ∧ HasMode m.op ∧ Applied w blobs m.before t m.op)

structure Replaying (m : Mutation) (t : Tree) (rest : List JournalOp) (sending : Sending) : Prop where
  own : ∀ op ∈ rest, op = m.op
  done : rest = [] → m.answer = some true
  marked : sending.marked = true → Applied w blobs m.before t m.op

/-- If the journal was empty at the call, it has the operation and no other, unless the
daemon has answered `Ok` to it. -/
def Mutation.Recorded (m : Mutation) (file : JournalFile) : Prop :=
  m.journal = [] → (∀ op ∈ journalOps file, op = m.op) ∧ (m.op ∈ journalOps file ∨ m.answer = some true)

def MutateInv (s : Mutations) : Prop :=
  match s.phase with
  | .idle => True
  | .acting m rest sending => Tried w blobs m s.tree ∧ Acting w blobs m s.tree rest sending ∧
      (m.journal = [] → journalOps s.journal = [m.op])
  | .recovering m _ => Tried w blobs m s.tree ∧ m.Recorded s.journal
  | .replaying m _ rest sending => Tried w blobs m s.tree ∧ Replaying w blobs m s.tree rest sending ∧
      m.Recorded s.journal ∧ ∀ op ∈ rest, op ∈ journalOps s.journal
  | .clearing m applied => applied = true → Applied w blobs m.before s.tree m.op ∧ m.answer = some true
  | .returned m ok => ok = true → Applied w blobs m.before s.tree m.op ∧ m.answer = some true

end System

section Facts
variable {w : Walks} {blobs : String → Bytes} {retries : Nat} {s s' : Mutations} {m : Mutation} {t t' : Tree}

def Trip.Seen : Trip → Prop
  | .lost _ => True
  | .handled h _ _ => h.unseen = false

theorem retry_again {sending sending' : Sending} {reconnects marked : Bool}
    (h : retry retries sending reconnects marked = .again sending') : sending'.marked = marked := by
  unfold retry at h
  split at h
  · cases h
    rfl
  · cases h

theorem retry_ne_answered {sending : Sending} {reconnects marked ok : Bool} :
    retry retries sending reconnects marked ≠ .answered ok := by
  unfold retry
  split <;> simp

/-- A client is answered only with the daemon's answer. -/
theorem sendOnce_answered {op : JournalOp} {sending : Sending} {trip : Trip} {ok : Bool}
    (h : (sendOnce w blobs retries t op sending trip).2.2 = .answered ok) :
    (sendOnce w blobs retries t op sending trip).2.1 = some ok := by
  cases trip with
  | lost reconnects => exact absurd h retry_ne_answered
  | handled hd answered reconnects =>
    simp only [sendOnce] at h ⊢
    split at h
    · cases h
      rfl
    · exact absurd h retry_ne_answered

/-- A request for the call's own operation. -/
theorem sendOnce_own (retries : Nat) {sending : Sending} {trip : Trip} (ht : Tried w blobs m t) (hu : trip.Seen)
    (hm : sending.marked = true → Applied w blobs m.before t m.op) :
    Tried w blobs (m.hears (sendOnce w blobs retries t m.op sending trip).2.1)
      (sendOnce w blobs retries t m.op sending trip).1 ∧
    ∀ sending', (sendOnce w blobs retries t m.op sending trip).2.2 = .again sending' → sending'.marked = true →
      Applied w blobs m.before (sendOnce w blobs retries t m.op sending trip).1 m.op := by
  cases trip with
  | lost reconnects =>
    refine ⟨ht, ?_⟩
    intro sending' ha hmarked
    rw [retry_again ha] at hmarked
    exact hm hmarked
  | handled hd answered reconnects =>
    have hun : Underway w m.before (handle w blobs hd sending.marked t m.op).1 m.op := handle_underway ht.underway hu
    -- An answer `Ok` means the effect is there, now or since the marker was written.
    have hok : (handle w blobs hd sending.marked t m.op).2 = true ∨ sending.marked = true →
        Applied w blobs m.before (handle w blobs hd sending.marked t m.op).1 m.op := by
      cases hmk : sending.marked with
      | true =>
        rw [handle_marked]
        exact fun _ => hm hmk
      | false =>
        intro h
        exact handle_applied ht.underway hu (by simpa using h)
    refine ⟨⟨hun, ?_⟩, ?_⟩
    · intro ha
      simp only [Mutation.hears, sendOnce, Option.some_or, Option.some.injEq] at ha
      exact hok (.inl ha)
    · intro sending' ha hmarked
      simp only [sendOnce] at ha
      split at ha
      · cases ha
      · rw [retry_again ha, Bool.or_eq_true] at hmarked
        exact hok hmarked.symm

/-- The request for the mode leaves the operation's effect. -/
theorem sendOnce_beside {op : JournalOp} {p : String} {mode : Option Nat} {modified : Option Int} {sending : Sending}
    {trip : Trip} (hop : op = .setMetadata p mode modified) :
    t.MetaOnly (sendOnce w blobs retries t op sending trip).1 := by
  subst hop
  cases trip with
  | lost reconnects => exact Tree.MetaOnly.refl t
  | handled hd answered reconnects => exact handle_setMetadata

theorem Applied.beside {before : Tree} {op : JournalOp} (hm : HasMode op) (ha : Applied w blobs before t op)
    (hmeta : t.MetaOnly t') : Applied w blobs before t' op := by
  cases op with
  | truncate p size => exact ha.metaOnly_truncate hmeta
  | mkdir p => exact ha.metaOnly_mkdir hmeta
  | _ => cases hm

theorem Underway.beside {before : Tree} {op : JournalOp} (hm : HasMode op) (hun : Underway w before t op)
    (hmeta : t.MetaOnly t') : Underway w before t' op := by
  cases op with
  | truncate p size => exact ⟨hun.1, Resized.metaOnly hun.2 hmeta⟩
  | mkdir p => exact hun
  | _ => cases hm

theorem action_cases {op o : JournalOp} {mode : Option Nat} {rest : List JournalOp} (h : o :: rest = action op mode) :
    o = op ∧ (rest = [] ∨ ∃ p m, rest = [.setMetadata p (some m) none] ∧ HasMode op) := by
  unfold action at h
  simp only [List.cons.injEq] at h
  refine ⟨h.1, ?_⟩
  rw [h.2]
  split
  · exact .inr ⟨_, _, rfl, trivial⟩
  · exact .inr ⟨_, _, rfl, trivial⟩
  · exact .inl rfl

theorem journalOps_record (op : JournalOp) : journalOps [.json op, .newline] = [op] := by
  rw [show [Written.json op, .newline] = [.json op] ++ [.newline] from rfl, journalOps_newline, journalOps_line (by simp)]
  rfl

/-- The record is there, whatever the daemon answers. -/
theorem recorded_hears {file : JournalFile} (h : m.journal = [] → journalOps file = [m.op]) (answer : Option Bool) :
    (m.hears answer).Recorded file := by
  intro hempty
  rw [h hempty]
  exact ⟨fun op hop => List.mem_singleton.1 hop, .inl List.mem_cons_self⟩

theorem inv_nextAttempt {n : Nat} {file : JournalFile} (ht : Tried w blobs m t) (hr : m.Recorded file) :
    MutateInv w blobs ⟨t, file, m.nextAttempt n⟩ := by
  unfold Mutation.nextAttempt
  split
  · exact ⟨ht, hr⟩
  · exact fun h => by cases h

/-- A request of the action. -/
theorem inv_act {file : JournalFile} {op : JournalOp} {rest : List JournalOp} {sending : Sending} {trip : Trip}
    (ht : Tried w blobs m t) (ha : Acting w blobs m t (op :: rest) sending)
    (hrec : m.journal = [] → journalOps file = [m.op]) (hu : trip.Seen) :
    MutateInv w blobs ⟨(sendOnce w blobs retries t op sending trip).1, file,
      afterAct (m.hears (sendOnce w blobs retries t op sending trip).2.1) op rest
        (sendOnce w blobs retries t op sending trip).2.2⟩ := by
  rcases ha with ⟨mode, hrest, hmark⟩ | ⟨p, mode, hrest, hmode, happ⟩
  · -- The operation of the call.
    obtain ⟨rfl, hcases⟩ := action_cases hrest
    obtain ⟨ht', hagain⟩ := sendOnce_own retries ht hu hmark
    cases ho : (sendOnce w blobs retries t m.op sending trip).2.2 with
    | answered ok =>
      have hans := sendOnce_answered ho
      cases ok with
      | false => exact fun h => by cases h
      | true =>
        have happ := ht'.applied (by rw [hans]; rfl)
        rcases hcases with rfl | ⟨p, md, rfl, hmode⟩
        · exact fun _ => ⟨happ, by rw [hans]; rfl⟩
        · exact ⟨ht', .inr ⟨p, md, rfl, hmode, happ⟩, hrec⟩
    | again sending' => exact ⟨ht', .inl ⟨mode, hrest, hagain sending' ho⟩, hrec⟩
    | failed => exact ⟨ht', recorded_hears hrec _⟩
  · -- The mode of what has been made.
    simp only [List.cons.injEq] at hrest
    obtain ⟨hop, rfl⟩ := hrest
    have hmeta : t.MetaOnly (sendOnce w blobs retries t op sending trip).1 := sendOnce_beside hop
    have happ' := happ.beside hmode hmeta
    have ht' : Tried w blobs (m.hears (sendOnce w blobs retries t op sending trip).2.1)
        (sendOnce w blobs retries t op sending trip).1 := ⟨ht.underway.beside hmode hmeta, fun _ => happ'⟩
    cases ho : (sendOnce w blobs retries t op sending trip).2.2 with
    | answered ok =>
      have hans := sendOnce_answered ho
      cases ok with
      | false => exact fun h => by cases h
      | true => exact fun _ => ⟨happ', by rw [hans]; rfl⟩
    | again sending' => exact ⟨ht', .inr ⟨p, mode, by rw [hop], hmode, happ'⟩, hrec⟩
    | failed => exact ⟨ht', recorded_hears hrec _⟩

/-- A request of a replay that is not answered with a rejection. -/
theorem inv_replay {file : JournalFile} {n : Nat} {op : JournalOp} {rest : List JournalOp} {sending : Sending} {trip : Trip}
    (ht : Tried w blobs m t) (hr : Replaying w blobs m t (op :: rest) sending) (hrec : m.Recorded file)
    (hfile : ∀ o ∈ op :: rest, o ∈ journalOps file) (hu : trip.Seen)
    (hok : (sendOnce w blobs retries t op sending trip).2.2 ≠ .answered false) :
    MutateInv w blobs ⟨(sendOnce w blobs retries t op sending trip).1, file,
      afterReplay (if op = m.op then m.hears (sendOnce w blobs retries t op sending trip).2.1 else m) n op rest
        (sendOnce w blobs retries t op sending trip).2.2⟩ := by
  obtain rfl := hr.own op List.mem_cons_self
  obtain ⟨ht', hagain⟩ := sendOnce_own retries ht hu hr.marked
  rw [if_pos rfl]
  have hrec' : ∀ answer, (m.hears answer).Recorded file :=
    fun answer hempty => ⟨(hrec hempty).1, .inl (hfile _ List.mem_cons_self)⟩
  cases ho : (sendOnce w blobs retries t m.op sending trip).2.2 with
  | answered ok =>
    have hans := sendOnce_answered ho
    cases ok with
    | false => exact absurd ho hok
    | true =>
      have hheard : (m.hears (sendOnce w blobs retries t m.op sending trip).2.1).answer = some true := by
        rw [hans]
        rfl
      exact ⟨ht', ⟨fun o h => hr.own o (List.mem_cons_of_mem _ h), fun _ => hheard, fun h => by cases h⟩, hrec' _,
        fun o h => hfile o (List.mem_cons_of_mem _ h)⟩
  | again sending' => exact ⟨ht', ⟨hr.own, (fun h => by cases h), hagain sending' ho⟩, hrec' _, hfile⟩
  | failed => exact inv_nextAttempt ht' (hrec' _)

theorem inv_call {op : JournalOp} {mode : Option Nat} (hg : MutateGuard w blobs s (.call op mode))
    (hs : mutateStep w blobs retries s (.call op mode) = some s') : MutateInv w blobs s' := by
  simp only [mutateStep] at hs
  split at hs
  · cases hs
    refine ⟨⟨Underway.start hg, fun h => by cases h⟩, .inl ⟨mode, rfl, fun h => by cases h⟩, ?_⟩
    intro hempty
    have hempty : s.journal = [] := hempty
    rw [hempty]
    exact journalOps_record op
  · cases hs

theorem inv_send {trip : Trip} (h : MutateInv w blobs s) (hg : MutateGuard w blobs s (.send trip))
    (hs : mutateStep w blobs retries s (.send trip) = some s') : MutateInv w blobs s' := by
  have hu : trip.Seen := by
    cases trip with
    | lost reconnects => trivial
    | handled hd answered reconnects => exact hg.1
  simp only [mutateStep] at hs
  split at hs
  · rename_i m op rest sending hp
    simp only [MutateInv, hp] at h
    cases hs
    exact inv_act h.1 h.2.1 h.2.2 hu
  · rename_i m n op rest sending hp
    simp only [MutateInv, hp] at h
    cases hs
    refine inv_replay h.1 h.2.1 h.2.2.1 h.2.2.2 hu ?_
    intro hrej
    cases trip with
    | lost reconnects => exact retry_ne_answered hrej
    | handled hd answered reconnects =>
      simp only [sendOnce] at hrej
      split at hrej
      · rename_i hans
        have hok := hg.2 m n op rest sending hp hans
        rw [hok] at hrej
        cases hrej
      · exact retry_ne_answered hrej
  · cases hs

theorem inv_prune (h : MutateInv w blobs s) (hs : mutateStep w blobs retries s .prune = some s') : MutateInv w blobs s' := by
  simp only [mutateStep] at hs
  split at hs
  · rename_i m rest sending hp
    simp only [MutateInv, hp] at h
    cases hs
    refine ⟨h.1, ?_, h.2.2⟩
    rcases h.2.1 with ⟨mode, hrest, -⟩ | hbeside
    · exact .inl ⟨mode, hrest, fun h => by cases h⟩
    · exact .inr hbeside
  · rename_i m n rest sending hp
    simp only [MutateInv, hp] at h
    cases hs
    exact ⟨h.1, ⟨h.2.1.own, h.2.1.done, fun h => by cases h⟩, h.2.2⟩
  · cases hs

theorem inv_attempt {ok : Bool} (h : MutateInv w blobs s) (hg : MutateGuard w blobs s (.attempt ok))
    (hs : mutateStep w blobs retries s (.attempt ok) = some s') : MutateInv w blobs s' := by
  simp only [mutateStep] at hs
  split at hs
  · rename_i m n hp
    simp only [MutateInv, hp] at h
    cases hs
    cases ok with
    | false => exact inv_nextAttempt h.1 h.2
    | true =>
      -- The journal has nothing but this operation.
      obtain ⟨hown, hmem⟩ := (hg m n hp).elim h.2 id
      refine ⟨h.1, ⟨hown, ?_, fun h => by cases h⟩, h.2, fun _ h => h⟩
      intro hnil
      rw [hnil] at hmem
      exact hmem.resolve_left (by simp)
  · cases hs

theorem inv_clear {tr : Truncate} (h : MutateInv w blobs s) (hs : mutateStep w blobs retries s (.clear tr) = some s') :
    MutateInv w blobs s' := by
  simp only [mutateStep] at hs
  split at hs
  · rename_i m n sending hp
    simp only [MutateInv, hp] at h
    cases hs
    -- The replay has come to its end, so its last answer was `Ok`.
    have hans := h.2.1.done rfl
    split
    · exact fun _ => ⟨h.1.applied hans, hans⟩
    · refine inv_nextAttempt h.1 fun hempty => ⟨?_, .inr hans⟩
      cases tr with
      | openFails => exact (h.2.2.1 hempty).1
      | ok => exact fun op hop => by cases hop
      | syncFails => exact fun op hop => by cases hop
  · rename_i m applied hp
    simp only [MutateInv, hp] at h
    cases hs
    intro hok
    exact h (by simp at hok; exact hok.1)
  · cases hs

theorem inv_step {a : MutateAct} (h : MutateInv w blobs s) (hg : MutateGuard w blobs s a)
    (hs : mutateStep w blobs retries s a = some s') : MutateInv w blobs s' := by
  cases a with
  | call op mode => exact inv_call hg hs
  | recordFails op left =>
    simp only [mutateStep] at hs
    split at hs
    · split at hs
      · cases hs
        exact fun h => by cases h
      · cases hs
    · cases hs
  | send trip => exact inv_send h hg hs
  | prune => exact inv_prune h hs
  | attempt ok => exact inv_attempt h hg hs
  | clear tr => exact inv_clear h hs
  | others tree =>
    simp only [mutateStep] at hs
    split at hs
    · rename_i hp
      cases hs
      simp [MutateInv, hp]
    · cases hs
      trivial
    · cases hs

end Facts

/-- No call is under way. The journal may hold what earlier mounts left. -/
def Mutations.start (tree : Tree) (journal : JournalFile) : Mutations := ⟨tree, journal, .idle⟩

/-- In every run of calls of `mutate`, one at a time, that meets `MutateGuard`: a call
that returns `Ok` has applied its operation, and one whose last answer from the daemon
is a rejection returns an error. -/
theorem success_means_applied (w : Walks) (blobs : String → Bytes) (retries : Nat) (tree : Tree) (journal : JournalFile)
    (as : List MutateAct) (s : Mutations)
    (hguard : Guarded (mutateStep w blobs retries) (MutateGuard w blobs) (.start tree journal) as)
    (hrun : exec (mutateStep w blobs retries) (.start tree journal) as = some s) : SuccessApplied w blobs s := by
  have hinv := exec_guarded_inv (MutateInv w blobs) (fun _ _ _ h hg hs => inv_step h hg hs) (by trivial) hguard hrun
  intro m hp
  simp only [MutateInv, hp] at hinv
  obtain ⟨happ, hans⟩ := hinv trivial
  exact ⟨happ, by simp [hans]⟩

/-! ## A rename whose answer is lost, and replays that go wrong -/

/-- The way to an entry where there are no links. -/
def textWalks : Walks where
  locate _ p := some p
  leadsToDir _ _ := false
  leadsSomewhere _ _ := false
  read _ _ := none
  locate_plain _ _ _ := rfl
  follow _ p := some p
  follow_eq _ _ _ h _ := h
  locate_place _ _ _ _ _ h _ _ := h
  follow_place _ _ _ _ _ h _ _ _ := h
  locate_drop t p q h := by
    cases h
    rw [Option.bind_some, Tree.node_drop, if_pos (.inl rfl)]
  meta_locate _ _ _ := rfl
  meta_follow _ _ _ := rfl
  meta_leadsToDir _ _ _ := rfl
  keptMode mode := mode
  -- The latest time of ext4.
  keptTime tm := min tm 15032385535

def noBlobs : String → Bytes := fun _ => []

abbrev textStep : Mutations → MutateAct → Option Mutations := mutateStep textWalks noBlobs 0

/-- A request the system lets through. -/
def letThrough : Handling := ⟨⟨9, 420, 493, 511⟩, false, none⟩

/-- `MutateGuard` for a rename, as a test. -/
def guardsRename (s : Mutations) : MutateAct → Bool
  | .call (.rename src dst) _ => decide (s.tree.node src ≠ none ∧ s.tree.Plain dst ∧ src ≠ dst)
  | .call _ _ => false
  | .send (.handled h _ _) => !h.unseen && match s.phase with
    | .replaying _ _ (op :: _) sending => (handle textWalks noBlobs h sending.marked s.tree op).2
    | _ => true
  | .attempt true => match s.phase with
    | .recovering m _ => m.journal = []
    | _ => true
  | _ => true

theorem mutateGuard_of_guardsRename {s : Mutations} {a : MutateAct} (h : guardsRename s a = true) :
    MutateGuard textWalks noBlobs s a := by
  cases a with
  | call op mode =>
    cases op with
    | rename src dst =>
      simp only [guardsRename, decide_eq_true_eq] at h
      exact h
    | _ => cases h
  | send trip =>
    cases trip with
    | lost reconnects => trivial
    | handled hd answered reconnects =>
      simp only [guardsRename, Bool.and_eq_true, Bool.not_eq_true'] at h
      refine ⟨h.1, ?_⟩
      intro m n op rest sending hp _
      simpa [hp] using h.2
  | attempt ok =>
    cases ok with
    | false => trivial
    | true =>
      intro m n hp
      simp only [guardsRename, hp, decide_eq_true_eq] at h
      exact .inl h
  | _ => trivial

def fileA : Tree := .build [("a", .file [1] 420 5)]

/-- The first request is handled and its answer lost; the replay finds the source gone. -/
def answerLost : List MutateAct :=
  [.call (.rename "a" "b") none, .send (.handled letThrough false false), .attempt true,
    .send (.handled letThrough true false), .clear .ok, .clear .ok]

/-- The call that has returned `Ok`. -/
def Mutations.succeeded (s : Mutations) : Option Mutation :=
  match s.phase with
  | .returned m true => some m
  | _ => none

theorem phase_of_succeeded {s : Mutations} {m : Mutation} (h : s.succeeded = some m) : s.phase = .returned m true := by
  unfold Mutations.succeeded at h
  split at h
  · rename_i hp
    cases h
    exact hp
  · cases h

theorem exists_succeeded {r : Option Mutations} {P : Mutations → Mutation → Bool}
    (h : (r.any fun s => s.succeeded.any (P s)) = true) :
    ∃ s m, r = some s ∧ s.phase = .returned m true ∧ P s m = true := by
  obtain ⟨s, hs, h⟩ := (Option.any_eq_true _ _).1 h
  obtain ⟨m, hm, hP⟩ := (Option.any_eq_true _ _).1 h
  exact ⟨s, m, hs, phase_of_succeeded hm, hP⟩

theorem success_means_applied_answer_lost :
    ∃ s m, exec textStep (.start fileA []) answerLost = some s ∧ s.phase = .returned m true ∧ m.op = .rename "a" "b" ∧
      Applied textWalks noBlobs m.before s.tree (.rename "a" "b") := by
  have hrun : ((exec textStep (.start fileA []) answerLost).any fun s =>
      s.succeeded.any fun m => m.op = .rename "a" "b") = true := by decide
  obtain ⟨s, m, hs, hphase, hop⟩ := exists_succeeded hrun
  have hg : Guarded textStep (MutateGuard textWalks noBlobs) (.start fileA []) answerLost :=
    guarded_of_checkRun (fun _ => True) (fun _ => True) guardsRename (fun _ _ _ _ _ _ => trivial)
      (fun _ _ _ _ => mutateGuard_of_guardsRename) trivial (fun _ _ => trivial) (by decide)
  have h := success_means_applied textWalks noBlobs 0 fileA [] answerLost s hg hs
  have hop := of_decide_eq_true hop
  exact ⟨s, m, hs, hphase, hop, hop ▸ (h m hphase).1⟩

/-- The request of a `mkdir` is lost, and its replay refused. -/
def replayRefused : List MutateAct :=
  [.call (.mkdir "d") none, .send (.lost false), .attempt true,
    .send (.handled { letThrough with refused := some 0 } true false), .clear .ok, .clear .ok]

/-- A source that is not there. -/
def sourceGone : List MutateAct :=
  [.call (.rename "x" "b") none, .send (.handled letThrough true false), .clear .ok]

/-- All attempts to remove `b` fail, and its record stays. Then `a` is renamed to `b`:
the first replay has its answer lost, and the second removes `b`. -/
def removedAgain : List MutateAct :=
  (.call (.remove "b" false) none :: .send (.lost false) :: List.replicate 12 (.attempt false) : List MutateAct) ++
  ([.others fileA, .call (.rename "a" "b") none, .send (.lost false),
    .attempt true, .send (.handled letThrough true false), .send (.handled letThrough false false),
    .attempt true, .send (.handled letThrough true false), .send (.handled letThrough true false),
    .clear .ok, .clear .ok] : List MutateAct)

theorem not_applied_of_absent {before t : Tree} {src dst : String} (h : t.node dst = none) :
    ¬ Applied textWalks noBlobs before t (.rename src dst) := by
  rintro ⟨⟨n, -, hn⟩, -⟩
  have hdst : t.node dst = some n := hn
  rw [h] at hdst
  cases hdst

/-- Three calls that return `Ok`: one whose only answer was a rejection, one that has
renamed nothing, and one whose entry is at neither name. -/
theorem replay_drops_rejected :
    (∃ s m, exec textStep (.start .empty []) replayRefused = some s ∧ s.phase = .returned m true ∧ m.op = .mkdir "d" ∧
      m.answer = some false ∧ s.tree.node "d" = none ∧ ¬ SuccessApplied textWalks noBlobs s) ∧
    (∃ s m, exec textStep (.start fileA []) sourceGone = some s ∧ s.phase = .returned m true ∧ m.op = .rename "x" "b" ∧
      s.tree.node "b" = none ∧ ¬ SuccessApplied textWalks noBlobs s) ∧
    (∃ s m, exec textStep (.start fileA []) removedAgain = some s ∧ s.phase = .returned m true ∧
      m.op = .rename "a" "b" ∧ s.tree.node "a" = none ∧ s.tree.node "b" = none ∧
      ¬ SuccessApplied textWalks noBlobs s) := by
  refine ⟨?_, ?_, ?_⟩
  · have hrun : ((exec textStep (.start .empty []) replayRefused).any fun s =>
        s.succeeded.any fun m => m.op = .mkdir "d" ∧ m.answer = some false ∧ s.tree.node "d" = none) = true := by decide
    obtain ⟨s, m, hs, hphase, h⟩ := exists_succeeded hrun
    obtain ⟨hop, hans, hd⟩ := of_decide_eq_true h
    exact ⟨s, m, hs, hphase, hop, hans, hd, fun hsound => (hsound m hphase).2 hans⟩
  · have hrun : ((exec textStep (.start fileA []) sourceGone).any fun s =>
        s.succeeded.any fun m => m.op = .rename "x" "b" ∧ s.tree.node "b" = none) = true := by decide
    obtain ⟨s, m, hs, hphase, h⟩ := exists_succeeded hrun
    obtain ⟨hop, hb⟩ := of_decide_eq_true h
    exact ⟨s, m, hs, hphase, hop, hb, fun hsound => not_applied_of_absent hb (hop ▸ (hsound m hphase).1)⟩
  · have hrun : ((exec textStep (.start fileA []) removedAgain).any fun s =>
        s.succeeded.any fun m => m.op = .rename "a" "b" ∧ s.tree.node "a" = none ∧ s.tree.node "b" = none) = true := by
      decide
    obtain ⟨s, m, hs, hphase, h⟩ := exists_succeeded hrun
    obtain ⟨hop, ha, hb⟩ := of_decide_eq_true h
    exact ⟨s, m, hs, hphase, hop, ha, hb, fun hsound => not_applied_of_absent hb (hop ▸ (hsound m hphase).1)⟩

end Mobfs
