import Mobfs.Vfs.Mutate
/-!
# A mount that dies and is started again

The process may end at any point of a call of `mutate`, also while the record is written. The
next `Vfs::start` goes through the journal before the mount does anything else, and clears it
then. It may fail, or die itself, and be tried again.

`crash_recovers`: once the mount is up again, the daemon has answered the operation of the call
that was cut short, and it has been applied unless the last answer is a rejection. Only where
the record itself was cut off has nothing of it reached the daemon. Where `create` and `mkdir`
set a mode beside, that is not in the journal.
-/

namespace Mobfs

open Lib

/-- The process of the mount. -/
inductive ProcessPhase where
  | up
  | down
  /-- `Vfs::start` has these operations of the journal still to replay. -/
  | starting (rest : List JournalOp) (sending : Sending)

/-- `last`: the call that was under way when the process last died, until there is another.
`complete`: its record can be read; `heard`: a client has had an answer to one of its requests.
All are for stating properties. -/
structure MountLife where
  run : Mutations
  phase : ProcessPhase
  last : Option Mutation
  complete : Bool
  heard : Bool

inductive LifeAct where
  | up (a : MutateAct)
  | crash
  /-- The process dies in `append_journal`, and leaves this behind. -/
  | crashRecording (op : JournalOp) (left : JournalFile)
  /-- `Vfs::start` has a connection, and reads the journal. -/
  | mount
  | send (trip : Trip)
  | prune
  /-- `replay_journal` clears the journal. -/
  | started (t : Truncate)

def MutatePhase.call? : MutatePhase → Option Mutation
  | .idle => none
  | .acting m _ _ | .recovering m _ | .replaying m _ _ _ | .clearing m _ | .returned m _ => some m

/-- A client has had an answer now, or had one before. -/
def Trip.heard (before : Bool) : Trip → Bool
  | .lost _ => before
  | .handled _ answered _ => before || answered

/-- What there may be of a record that has not been finished. -/
def Unfinished (op : JournalOp) (left : JournalFile) : Prop :=
  left = [] ∨ left = [.cutOff] ∨ left = [.json op] ∨ left = [.json op, .newline]

instance (op : JournalOp) (left : JournalFile) : Decidable (Unfinished op left) :=
  inferInstanceAs (Decidable (_ ∨ _ ∨ _ ∨ _))

section System
variable (w : Walks) (blobs : String → Bytes) (retries : Nat)

def lifeStep (s : MountLife) : LifeAct → Option MountLife
  | .up a =>
    match s.phase with
    | .up => (mutateStep w blobs retries s.run a).map fun run =>
      match a with
      | .call _ _ => ⟨run, .up, none, true, false⟩
      | .recordFails op left => ⟨run, .up, none, op ∈ journalOps left, false⟩
      | .send trip => ⟨run, .up, none, s.complete, trip.heard s.heard⟩
      | _ => ⟨run, .up, none, s.complete, s.heard⟩
    | _ => none
  | .crash =>
    match s.phase with
    | .up => some { s with run := { s.run with phase := .idle }, phase := .down, last := s.run.phase.call?.or s.last }
    | .starting _ _ => some { s with phase := .down }
    | .down => none
  | .crashRecording op left =>
    match s.phase, s.run.phase with
    | .up, .idle =>
      if Unfinished op left then
        some ⟨{ s.run with journal := s.run.journal ++ left }, .down, some ⟨op, s.run.tree, s.run.journal, none⟩,
          op ∈ journalOps left, false⟩
      else none
    | _, _ => none
  | .mount =>
    match s.phase with
    | .down => some { s with phase := .starting (journalOps s.run.journal) .new }
    | _ => none
  | .send trip =>
    match s.phase with
    | .starting (op :: rest) sending =>
      let r := sendOnce w blobs retries s.run.tree op sending trip
      some ⟨{ s.run with tree := r.1 },
        match r.2.2 with
        | .answered _ => .starting rest .new
        | .again sending => .starting (op :: rest) sending
        | .failed => .down,
        s.last.map fun m => if op = m.op then m.hears r.2.1 else m, s.complete, trip.heard s.heard⟩
    | _ => none
  | .prune =>
    match s.phase with
    | .starting rest sending => some { s with phase := .starting rest ⟨sending.tries, false⟩ }
    | _ => none
  | .started t =>
    match s.phase with
    | .starting [] _ =>
      some { s with run := { s.run with journal := t.file s.run.journal }, phase := if t = .ok then .up else .down }
    | _ => none

/-- A call begins with an empty journal, and its operation is admissible. The daemon sees what
is there. -/
def LifeGuard (s : MountLife) : LifeAct → Prop
  | .up (.call op _) | .up (.recordFails op _) | .crashRecording op _ => Admissible w s.run.tree op ∧ s.run.journal = []
  | .up (.send trip) | .send trip => trip.Seen
  | _ => True

/-- The daemon has answered the operation, and it has been applied unless the last answer was
a rejection. Where its record cannot be read, nothing has been sent of it. -/
def Recovered (m : Mutation) (t : Tree) (complete heard : Bool) : Prop :=
  if complete then heard = true ∧ ∃ ok, m.answer = some ok ∧ (ok = true → Applied w blobs m.before t m.op)
  else t = m.before ∧ m.answer = none

/-! ## The invariant -/

/-- What a client has heard of the call is in `answer`. The journal has its operation and no
other, or a client has heard of it; where the record cannot be read, nothing has been sent. -/
structure Held (m : Mutation) (t : Tree) (file : JournalFile) (complete heard : Bool) : Prop where
  tried : Tried w blobs m t
  own : ∀ op ∈ journalOps file, op = m.op
  there : complete = true → m.op ∈ journalOps file ∨ heard = true
  answer : heard = true → m.answer ≠ none
  cutOff : complete = false → journalOps file = [] ∧ t = m.before ∧ m.answer = none

/-- The journal is replayed from there on. -/
structure Replays (m : Mutation) (t : Tree) (file : JournalFile) (rest : List JournalOp) (sending : Sending)
    (complete heard : Bool) : Prop where
  own : ∀ op ∈ rest, op = m.op ∧ op ∈ journalOps file
  done : rest = [] → complete = true → heard = true
  marked : sending.marked = true → Applied w blobs m.before t m.op

def UpInv (s : Mutations) (last : Option Mutation) (complete heard : Bool) : Prop :=
  match s.phase with
  | .idle => ∀ m, last = some m → Recovered w blobs m s.tree complete heard ∧ Held w blobs m s.tree s.journal complete heard
  | .acting m rest sending =>
    Held w blobs m s.tree s.journal complete heard ∧ m.op ∈ journalOps s.journal ∧ Acting w blobs m s.tree rest sending ∧
      (m.journal = [] → journalOps s.journal = [m.op])
  | .recovering m _ | .returned m _ => Held w blobs m s.tree s.journal complete heard
  | .replaying m _ rest sending =>
    Held w blobs m s.tree s.journal complete heard ∧ Replays w blobs m s.tree s.journal rest sending complete heard
  | .clearing m _ => Held w blobs m s.tree s.journal complete heard ∧ (complete = true → heard = true)

def LifeInv (s : MountLife) : Prop :=
  match s.phase with
  | .up => UpInv w blobs s.run s.last s.complete s.heard
  | .down => s.run.phase = .idle ∧ ∀ m, s.last = some m → Held w blobs m s.run.tree s.run.journal s.complete s.heard
  | .starting rest sending => s.run.phase = .idle ∧ ∀ m, s.last = some m →
      Held w blobs m s.run.tree s.run.journal s.complete s.heard ∧
        Replays w blobs m s.run.tree s.run.journal rest sending s.complete s.heard

end System

section Facts
variable {w : Walks} {blobs : String → Bytes} {retries : Nat} {s s' : MountLife} {m : Mutation} {t t' : Tree}
  {file : JournalFile} {rest : List JournalOp} {sending : Sending} {trip : Trip} {complete heard : Bool}

theorem journalOps_unfinished {op : JournalOp} {left : JournalFile} (h : Unfinished op left) :
    ∀ o ∈ journalOps left, o = op := by
  rcases h with rfl | rfl | rfl | rfl
  · simp
  · rw [journalOps_line (by simp)]
    simp [readLine]
  · rw [journalOps_line (by simp)]
    simp [readLine]
  · simp [journalOps_record]

/-- A call begins, or is cut short while it is recorded. -/
theorem Held.begins {op : JournalOp} {left : JournalFile} (hop : Admissible w t op) (hl : Unfinished op left) :
    Held w blobs ⟨op, t, [], none⟩ t left (op ∈ journalOps left) false := by
  refine ⟨⟨Underway.start hop, fun h => by cases h⟩, journalOps_unfinished hl, fun hc => .inl (of_decide_eq_true hc),
    fun h => (by cases h), fun hc => ⟨?_, rfl, rfl⟩⟩
  rw [List.eq_nil_iff_forall_not_mem]
  intro o ho
  have hop := journalOps_unfinished hl o ho
  exact of_decide_eq_false hc (hop ▸ ho)

/-- The journal is cleared, or not. -/
theorem Held.cleared (hi : Held w blobs m t file complete heard) (tr : Truncate) (hd : complete = true → heard = true) :
    Held w blobs m t (tr.file file) complete heard := by
  have hgone : Held w blobs m t [] complete heard :=
    ⟨hi.tried, (fun op h => by cases h), fun hc => .inr (hd hc), hi.answer, fun hc => ⟨rfl, (hi.cutOff hc).2⟩⟩
  cases tr with
  | openFails => exact hi
  | ok => exact hgone
  | syncFails => exact hgone

/-- What is left of a call that holds is recovered by a replay that has come to its end. -/
theorem Replays.recovered (hi : Held w blobs m t file complete heard)
    (hr : Replays w blobs m t file [] sending complete heard) : Recovered w blobs m t complete heard := by
  cases hc : complete with
  | false =>
    rw [Recovered, if_neg (by simp)]
    exact (hi.cutOff hc).2
  | true =>
    rw [Recovered, if_pos rfl]
    have hh := hr.done rfl hc
    obtain ⟨ok, ha⟩ := Option.ne_none_iff_exists'.1 (hi.answer hh)
    refine ⟨hh, ok, ha, fun hok => hi.tried.applied ?_⟩
    rw [ha, hok]

theorem Held.replays (hi : Held w blobs m t file complete heard) :
    Replays w blobs m t file (journalOps file) .new complete heard := by
  refine ⟨fun op h => ⟨hi.own op h, h⟩, fun hnil hc => ?_, fun h => by cases h⟩
  refine (hi.there hc).resolve_left ?_
  rw [hnil]
  exact List.not_mem_nil

/-- A client that has had an answer knows of it. -/
theorem hears_of_heard {op : JournalOp} (h : heard = true → m.answer ≠ none) (ha : trip.heard heard = true) :
    (m.hears (sendOnce w blobs retries t op sending trip).2.1).answer ≠ none := by
  cases trip with
  | lost reconnects => exact h ha
  | handled hd answered reconnects => simp [Mutation.hears, sendOnce]

/-- A request of a call whose record is in the journal. -/
theorem Held.hears {op : JournalOp} (retries : Nat) (hi : Held w blobs m t file complete heard)
    (hmem : m.op ∈ journalOps file)
    (ht : Tried w blobs (m.hears (sendOnce w blobs retries t op sending trip).2.1)
      (sendOnce w blobs retries t op sending trip).1) :
    Held w blobs (m.hears (sendOnce w blobs retries t op sending trip).2.1)
      (sendOnce w blobs retries t op sending trip).1 file complete (trip.heard heard) := by
  refine ⟨ht, hi.own, fun _ => .inl hmem, hears_of_heard hi.answer, fun hc => ?_⟩
  rw [(hi.cutOff hc).1] at hmem
  cases hmem

/-- A request for the operation while it is replayed. -/
theorem Held.send {op : JournalOp} (retries : Nat) (hi : Held w blobs m t file complete heard)
    (hr : Replays w blobs m t file (op :: rest) sending complete heard) (hu : trip.Seen) :
    op = m.op ∧ Held w blobs (m.hears (sendOnce w blobs retries t op sending trip).2.1)
      (sendOnce w blobs retries t op sending trip).1 file complete (trip.heard heard) ∧
    ∀ sending', (sendOnce w blobs retries t op sending trip).2.2 = .again sending' →
      Replays w blobs (m.hears (sendOnce w blobs retries t op sending trip).2.1)
        (sendOnce w blobs retries t op sending trip).1 file (op :: rest) sending' complete (trip.heard heard) := by
  obtain ⟨rfl, hmem⟩ := hr.own op List.mem_cons_self
  obtain ⟨ht, hagain⟩ := sendOnce_own retries hi.tried hu hr.marked
  exact ⟨rfl, hi.hears retries hmem ht, fun sending' ha => ⟨hr.own, (fun h => by cases h), hagain sending' ha⟩⟩

/-- The marker of the request is pruned. -/
theorem Replays.pruned (hr : Replays w blobs m t file rest sending complete heard) :
    Replays w blobs m t file rest ⟨sending.tries, false⟩ complete heard :=
  ⟨hr.own, hr.done, fun h => by cases h⟩

/-- The replay goes on with the next operation. -/
theorem Replays.next {op : JournalOp} {answer : Option Bool} {heard' : Bool}
    (hr : Replays w blobs m t file (op :: rest) sending complete heard) (ha : heard' = true) :
    Replays w blobs (m.hears answer) t' file rest .new complete heard' :=
  ⟨fun o h => hr.own o (List.mem_cons_of_mem _ h), fun _ _ => ha, fun h => by cases h⟩

/-- The client is answered. -/
theorem heard_answered {op : JournalOp} {ok : Bool} (h : (sendOnce w blobs retries t op sending trip).2.2 = .answered ok)
    (before : Bool) : trip.heard before = true := by
  cases trip with
  | lost reconnects => exact absurd h retry_ne_answered
  | handled hd answered reconnects =>
    simp only [sendOnce] at h
    split at h
    · rename_i ha
      rw [Trip.heard, ha, Bool.or_true]
    · exact absurd h retry_ne_answered

/-- A request of the action, whatever becomes of the process after it. -/
theorem Acting.tried {op : JournalOp} (retries : Nat) (ht : Tried w blobs m t)
    (ha : Acting w blobs m t (op :: rest) sending) (hu : trip.Seen) :
    Tried w blobs (m.hears (sendOnce w blobs retries t op sending trip).2.1)
      (sendOnce w blobs retries t op sending trip).1 := by
  rcases ha with ⟨mode, hrest, hmark⟩ | ⟨p, mode, hrest, hmode, happ⟩
  · obtain ⟨rfl, -⟩ := action_cases hrest
    exact (sendOnce_own retries ht hu hmark).1
  · simp only [List.cons.injEq] at hrest
    have hmeta : t.MetaOnly (sendOnce w blobs retries t op sending trip).1 := sendOnce_beside hrest.1
    exact ⟨ht.underway.beside hmode hmeta, fun _ => happ.beside hmode hmeta⟩

theorem upInv_act {op : JournalOp} (hi : Held w blobs m t file complete heard) (hmem : m.op ∈ journalOps file)
    (ha : Acting w blobs m t (op :: rest) sending) (hrec : m.journal = [] → journalOps file = [m.op]) (hu : trip.Seen) :
    UpInv w blobs ⟨(sendOnce w blobs retries t op sending trip).1, file,
      afterAct (m.hears (sendOnce w blobs retries t op sending trip).2.1) op rest
        (sendOnce w blobs retries t op sending trip).2.2⟩ none complete (trip.heard heard) := by
  have hheld := hi.hears retries hmem (ha.tried retries hi.tried hu)
  have hnext := @inv_act w blobs retries m t file op rest sending trip hi.tried ha hrec hu
  cases ho : (sendOnce w blobs retries t op sending trip).2.2 with
  | answered ok =>
    rw [ho] at hnext
    cases ok with
    | false => exact ⟨hheld, fun _ => heard_answered ho heard⟩
    | true =>
      simp only [afterAct] at hnext ⊢
      split
      · exact ⟨hheld, fun _ => heard_answered ho heard⟩
      · rename_i hne
        rw [if_neg hne] at hnext
        exact ⟨hheld, hmem, hnext.2⟩
  | again sending' =>
    rw [ho] at hnext
    exact ⟨hheld, hmem, hnext.2⟩
  | failed => exact hheld

theorem upInv_nextAttempt {n : Nat} (hi : Held w blobs m t file complete heard) :
    UpInv w blobs ⟨t, file, m.nextAttempt n⟩ none complete heard := by
  unfold Mutation.nextAttempt
  split <;> exact hi

theorem upInv_replay {op : JournalOp} {n : Nat} (hi : Held w blobs m t file complete heard)
    (hr : Replays w blobs m t file (op :: rest) sending complete heard) (hu : trip.Seen) :
    UpInv w blobs ⟨(sendOnce w blobs retries t op sending trip).1, file,
      afterReplay (if op = m.op then m.hears (sendOnce w blobs retries t op sending trip).2.1 else m) n op rest
        (sendOnce w blobs retries t op sending trip).2.2⟩ none complete (trip.heard heard) := by
  obtain ⟨rfl, hheld, hagain⟩ := hi.send retries hr hu
  rw [if_pos rfl]
  cases ho : (sendOnce w blobs retries t m.op sending trip).2.2 with
  | answered ok => exact ⟨hheld, hr.next (heard_answered ho heard)⟩
  | again sending' => exact ⟨hheld, hagain sending' ho⟩
  | failed => exact upInv_nextAttempt hheld

/-- A step of a process that is up. -/
theorem lifeInv_up {a : MutateAct} (h : UpInv w blobs s.run s.last s.complete s.heard) (hp : s.phase = .up)
    (hg : LifeGuard w s (.up a)) (hs : lifeStep w blobs retries s (.up a) = some s') : LifeInv w blobs s' := by
  simp only [lifeStep, hp] at hs
  obtain ⟨run, hrun, rfl⟩ := Option.map_eq_some_iff.1 hs
  unfold mutateStep at hrun
  split at hrun
  case h_1 op mode =>
    split at hrun
    · cases hrun
      obtain ⟨hop, hempty⟩ := hg
      have hbegins := @Held.begins w blobs s.run.tree op [.json op, .newline] hop (.inr (.inr (.inr rfl)))
      have hops := journalOps_record op
      simp only [hops, List.mem_singleton, decide_true] at hbegins
      simp only [LifeInv, UpInv, hempty, List.nil_append]
      exact ⟨hbegins, hops ▸ List.mem_singleton_self op, .inl ⟨mode, rfl, fun h => by cases h⟩, fun _ => hops⟩
    · cases hrun
  case h_2 op left =>
    split at hrun
    · split at hrun
      · rename_i hleft
        cases hrun
        obtain ⟨hop, hempty⟩ := hg
        simp only [LifeInv, UpInv, hempty, List.nil_append]
        exact Held.begins hop hleft
      · cases hrun
    · cases hrun
  case h_3 trip =>
    split at hrun
    · rename_i m op rest sending hphase
      simp only [UpInv, hphase] at h
      cases hrun
      exact upInv_act h.1 h.2.1 h.2.2.1 h.2.2.2 hg
    · rename_i m n op rest sending hphase
      simp only [UpInv, hphase] at h
      cases hrun
      exact upInv_replay h.1 h.2 hg
    · cases hrun
  case h_4 =>
    split at hrun
    · rename_i m rest sending hphase
      simp only [UpInv, hphase] at h
      cases hrun
      refine ⟨h.1, h.2.1, ?_, h.2.2.2⟩
      rcases h.2.2.1 with ⟨mode, hrest, -⟩ | hbeside
      · exact .inl ⟨mode, hrest, fun h => by cases h⟩
      · exact .inr hbeside
    · rename_i m n rest sending hphase
      simp only [UpInv, hphase] at h
      cases hrun
      exact ⟨h.1, h.2.pruned⟩
    · cases hrun
  case h_5 ok =>
    split at hrun
    · rename_i m n hphase
      simp only [UpInv, hphase] at h
      cases hrun
      cases ok with
      | false => exact upInv_nextAttempt h
      | true => exact ⟨h, h.replays⟩
    · cases hrun
  case h_6 tr =>
    split at hrun
    · rename_i m n sending hphase
      simp only [UpInv, hphase] at h
      cases hrun
      have hdone := h.2.done rfl
      have hcleared := h.1.cleared tr hdone
      by_cases htr : tr = .ok
      · rw [if_pos htr]
        exact ⟨hcleared, hdone⟩
      · rw [if_neg htr]
        exact upInv_nextAttempt hcleared
    · rename_i m applied hphase
      simp only [UpInv, hphase] at h
      cases hrun
      exact h.1.cleared tr h.2
    · cases hrun
  case h_7 tree =>
    split at hrun
    · rename_i hphase
      cases hrun
      simp [LifeInv, UpInv, hphase]
    · cases hrun
      exact fun m h => by cases h
    · cases hrun

/-- The process dies while a call is under way, or after it. -/
theorem UpInv.crash {u : Mutations} {last : Option Mutation} (h : UpInv w blobs u last complete heard) :
    ∀ m, u.phase.call?.or last = some m → Held w blobs m u.tree u.journal complete heard := by
  intro m hm
  cases hp : u.phase with
  | idle =>
    simp only [UpInv, hp] at h
    simp only [hp, MutatePhase.call?, Option.none_or] at hm
    exact (h m hm).2
  | acting m' rest sending =>
    simp only [UpInv, hp] at h
    simp only [hp, MutatePhase.call?, Option.some_or, Option.some.injEq] at hm
    exact hm ▸ h.1
  | recovering m' n =>
    simp only [UpInv, hp] at h
    simp only [hp, MutatePhase.call?, Option.some_or, Option.some.injEq] at hm
    exact hm ▸ h
  | replaying m' n rest sending =>
    simp only [UpInv, hp] at h
    simp only [hp, MutatePhase.call?, Option.some_or, Option.some.injEq] at hm
    exact hm ▸ h.1
  | clearing m' applied =>
    simp only [UpInv, hp] at h
    simp only [hp, MutatePhase.call?, Option.some_or, Option.some.injEq] at hm
    exact hm ▸ h.1
  | returned m' ok =>
    simp only [UpInv, hp] at h
    simp only [hp, MutatePhase.call?, Option.some_or, Option.some.injEq] at hm
    exact hm ▸ h

/-- A request of the replay in `Vfs::start`. -/
theorem lifeInv_send {trip : Trip} (h : LifeInv w blobs s) (hg : LifeGuard w s (.send trip))
    (hs : lifeStep w blobs retries s (.send trip) = some s') : LifeInv w blobs s' := by
  simp only [lifeStep] at hs
  split at hs
  · rename_i op rest sending hp
    simp only [LifeInv, hp] at h
    cases hs
    have hsend : ∀ m', (s.last.map fun m => if op = m.op then
        m.hears (sendOnce w blobs retries s.run.tree op sending trip).2.1 else m) = some m' →
        Held w blobs m' (sendOnce w blobs retries s.run.tree op sending trip).1 s.run.journal s.complete
          (trip.heard s.heard) ∧
        (∀ ok, (sendOnce w blobs retries s.run.tree op sending trip).2.2 = .answered ok → Replays w blobs m'
          (sendOnce w blobs retries s.run.tree op sending trip).1 s.run.journal rest .new s.complete
          (trip.heard s.heard)) ∧
        ∀ sending', (sendOnce w blobs retries s.run.tree op sending trip).2.2 = .again sending' → Replays w blobs m'
          (sendOnce w blobs retries s.run.tree op sending trip).1 s.run.journal (op :: rest) sending' s.complete
          (trip.heard s.heard) := by
      intro m' hm'
      obtain ⟨m, hm, rfl⟩ := Option.map_eq_some_iff.1 hm'
      obtain ⟨rfl, hheld, hagain⟩ := (h.2 m hm).1.send retries (h.2 m hm).2 hg
      rw [if_pos rfl]
      refine ⟨hheld, ?_, hagain⟩
      intro ok ho
      exact (h.2 m hm).2.next (heard_answered ho s.heard)
    simp only [LifeInv]
    cases ho : (sendOnce w blobs retries s.run.tree op sending trip).2.2 with
    | answered ok => exact ⟨h.1, fun m' hm' => ⟨(hsend m' hm').1, (hsend m' hm').2.1 ok ho⟩⟩
    | again sending' => exact ⟨h.1, fun m' hm' => ⟨(hsend m' hm').1, (hsend m' hm').2.2 sending' ho⟩⟩
    | failed => exact ⟨h.1, fun m' hm' => (hsend m' hm').1⟩
  · cases hs

theorem lifeInv_step {a : LifeAct} (h : LifeInv w blobs s) (hg : LifeGuard w s a)
    (hs : lifeStep w blobs retries s a = some s') : LifeInv w blobs s' := by
  unfold lifeStep at hs
  split at hs
  case h_1 a =>
    have hstep : lifeStep w blobs retries s (.up a) = some s' := hs
    split at hs
    · rename_i hp
      simp only [LifeInv, hp] at h
      exact lifeInv_up h hp hg hstep
    · cases hs
  case h_2 =>
    split at hs
    · rename_i hp
      simp only [LifeInv, hp] at h
      cases hs
      exact ⟨rfl, h.crash⟩
    · rename_i rest sending hp
      simp only [LifeInv, hp] at h
      cases hs
      exact ⟨h.1, fun m hm => (h.2 m hm).1⟩
    · cases hs
  case h_3 op left =>
    split at hs
    · rename_i hp hidle
      split at hs
      · rename_i hleft
        cases hs
        obtain ⟨hop, hempty⟩ := hg
        refine ⟨hidle, ?_⟩
        intro m hm
        cases hm
        simp only [hempty, List.nil_append]
        exact .begins hop hleft
      · cases hs
    · cases hs
  case h_4 =>
    split at hs
    · rename_i hp
      simp only [LifeInv, hp] at h
      cases hs
      exact ⟨h.1, fun m hm => ⟨h.2 m hm, (h.2 m hm).replays⟩⟩
    · cases hs
  case h_5 trip => exact lifeInv_send h hg hs
  case h_6 =>
    split at hs
    · rename_i rest sending hp
      simp only [LifeInv, hp] at h
      cases hs
      exact ⟨h.1, fun m hm => ⟨(h.2 m hm).1, (h.2 m hm).2.pruned⟩⟩
    · cases hs
  case h_7 tr =>
    split at hs
    · rename_i sending hp
      simp only [LifeInv, hp] at h
      cases hs
      have hclear : ∀ m, s.last = some m → Held w blobs m s.run.tree (tr.file s.run.journal) s.complete s.heard :=
        fun m hm => (h.2 m hm).1.cleared tr ((h.2 m hm).2.done rfl)
      by_cases htr : tr = .ok
      · rw [if_pos htr]
        simp only [LifeInv, UpInv, h.1]
        exact fun m hm => ⟨(h.2 m hm).2.recovered (h.2 m hm).1, hclear m hm⟩
      · rw [if_neg htr]
        exact ⟨h.1, hclear⟩
    · cases hs

end Facts

/-- No call has been cut short. -/
def MountLife.start (tree : Tree) (journal : JournalFile) : MountLife := ⟨.start tree journal, .down, none, true, false⟩

/-- In every run of mounts and their calls that meets `LifeGuard`: when the mount is up again
after its process died in a call, and no call has begun since, a client has had the daemon's
answer to the operation of that call, or its record cannot be read and nothing has been sent. -/
theorem crash_recovers (w : Walks) (blobs : String → Bytes) (retries : Nat) (tree : Tree) (journal : JournalFile)
    (as : List LifeAct) (s : MountLife) (m : Mutation)
    (hguard : Guarded (lifeStep w blobs retries) (LifeGuard w) (.start tree journal) as)
    (hrun : exec (lifeStep w blobs retries) (.start tree journal) as = some s)
    (hup : s.phase = .up) (hidle : s.run.phase = .idle) (hlast : s.last = some m) :
    Recovered w blobs m s.run.tree s.complete s.heard := by
  have h0 : LifeInv w blobs (.start tree journal) := ⟨rfl, fun m h => by cases h⟩
  have hinv := exec_guarded_inv (LifeInv w blobs) (fun _ _ _ h hg hs => lifeInv_step h hg hs) h0 hguard hrun
  simp only [LifeInv, hup, UpInv, hidle] at hinv
  exact (hinv m hlast).1

/-! ## A rename in a process that dies twice -/

instance (trip : Trip) : Decidable trip.Seen := by
  unfold Trip.Seen
  split <;> infer_instance

/-- `LifeGuard` for a rename, as a test. -/
def guardsLife (s : MountLife) : LifeAct → Bool
  | .up (.call (.rename src dst) _) =>
    decide (s.run.tree.node src ≠ none ∧ s.run.tree.Plain dst ∧ src ≠ dst) && s.run.journal.isEmpty
  | .up (.call _ _) | .up (.recordFails _ _) | .crashRecording _ _ => false
  | .up (.send trip) | .send trip => decide trip.Seen
  | _ => true

theorem lifeGuard_of_guardsLife {s : MountLife} {a : LifeAct} (h : guardsLife s a = true) : LifeGuard textWalks s a := by
  unfold guardsLife at h
  split at h
  · simp only [Bool.and_eq_true, decide_eq_true_eq, List.isEmpty_iff] at h
    exact h
  · cases h
  · cases h
  · cases h
  · have hseen := of_decide_eq_true h
    exact hseen
  · have hseen := of_decide_eq_true h
    exact hseen
  · unfold LifeGuard
    split <;> simp_all

/-- The process dies when the rename has been done and its answer lost. The next one gives up
on its replay, which the one after it repeats. -/
def diedTwice : List LifeAct :=
  [.mount, .started .ok, .up (.call (.rename "a" "b") none), .up (.send (.handled letThrough false false)), .crash,
    .mount, .send (.handled letThrough false false), .mount, .send (.handled letThrough true false), .started .ok]

/-- The call that was cut short, of a mount that is up again. -/
def MountLife.recovered (s : MountLife) : Option Mutation :=
  match s.phase, s.run.phase with
  | .up, .idle => s.last
  | _, _ => none

theorem crash_recovers_died_twice :
    ∃ s m, exec (lifeStep textWalks noBlobs 0) (.start fileA []) diedTwice = some s ∧ s.last = some m ∧
      m.op = .rename "a" "b" ∧ s.complete = true ∧ Recovered textWalks noBlobs m s.run.tree s.complete s.heard := by
  have hrun : ((exec (lifeStep textWalks noBlobs 0) (.start fileA []) diedTwice).any fun s =>
      s.recovered.any fun m => m.op = .rename "a" "b" ∧ s.complete = true) = true := by decide
  obtain ⟨s, hs, h⟩ := (Option.any_eq_true _ _).1 hrun
  obtain ⟨m, hm, h⟩ := (Option.any_eq_true _ _).1 h
  obtain ⟨hop, hcomplete⟩ := of_decide_eq_true h
  have hg : Guarded (lifeStep textWalks noBlobs 0) (LifeGuard textWalks) (.start fileA []) diedTwice :=
    guarded_of_checkRun (fun _ => True) (fun _ => True) guardsLife (fun _ _ _ _ _ _ => trivial)
      (fun _ _ _ _ => lifeGuard_of_guardsLife) trivial (fun _ _ => trivial) (by decide)
  unfold MountLife.recovered at hm
  split at hm
  · rename_i hup hidle
    exact ⟨s, m, hs, hm, hop, hcomplete, crash_recovers textWalks noBlobs 0 fileA [] diedTwice s m hg hs hup hidle hm⟩
  · cases hm

end Mobfs
