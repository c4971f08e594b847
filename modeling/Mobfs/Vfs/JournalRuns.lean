import Mathlib.Logic.Function.Basic
import Mobfs.Lib.Runs
import Mobfs.Vfs.Journal
/-!
# Mutations and the journal they share

Any number of `mutate` calls run at once, each on a thread of its own, and take
their steps in any order. A step is one system call on the journal, or one
answer of the daemon; every one of them may fail.

`mutation_in_journal`: in a run where nobody truncates the file under a call
that has put its record there and does not yet know its outcome, and nobody
starts a record on an unfinished line, the file has the operation of each such
call. The code ensures neither (`clear_drops_other_record`).
-/

namespace Mobfs

open Lib

def defaultOpRetries : Nat := 12

/-- How far a call of `mutate` has come. -/
inductive Phase where
  | fresh
  /-- `append_journal` has opened the file. -/
  | opened (op : JournalOp)
  | wroteJson (op : JournalOp)
  | wroteLine (op : JournalOp)
  /-- The record is there; the action runs. -/
  | waiting (op : JournalOp)
  /-- `recover_journal`, before an attempt. `known`: an earlier attempt has
  already tried the operation. -/
  | recovering (op : JournalOp) (attempt : Nat) (known : Bool)
  /-- `replay_journal` with the operations still to be tried. `found`: this
  call's own was among those read. -/
  | replaying (op : JournalOp) (attempt : Nat) (known : Bool) (rest : List JournalOp) (found : Bool)
  /-- The outcome is known; `clear_record` comes next. -/
  | clearing
  | returned
  /-- All attempts to recover have failed. -/
  | gaveUp (op : JournalOp) (known : Bool)
  deriving DecidableEq, Repr

/-- The operation of a call that has recorded it and does not know its outcome. -/
def Phase.pending? : Phase → Option JournalOp
  | .waiting op => some op
  | .recovering op _ known => if known then none else some op
  | .replaying op _ known _ _ => if known then none else some op
  | .gaveUp op known => if known then none else some op
  | _ => none

/-- The operation of a call that has written its JSON and not yet recorded it. -/
def Phase.recording? : Phase → Option JournalOp
  | .wroteJson op => some op
  | .wroteLine op => some op
  | _ => none

/-- How a call of the operating system goes. -/
inductive Truncate where
  | ok
  /-- The file could not be opened. -/
  | openFails
  /-- The file is empty and `sync_data` fails. -/
  | syncFails
  deriving DecidableEq, Repr

inductive Event where
  | call (op : JournalOp)
  | openFails
  | writeJson
  /-- `write_all` fails, after a part of the JSON or before it. -/
  | writeJsonFails (cutOff : Bool)
  | writeNewline
  | writeNewlineFails
  | sync
  | syncFails
  /-- The action returns `Ok` or a `Server` error. -/
  | answered
  | actionFails
  /-- A connection is there and the file is read. -/
  | readJournal
  /-- No connection, or the file cannot be read. -/
  | attemptFails
  /-- The next operation is applied, or rejected and dropped. -/
  | replayed
  | replayFails
  | replayClear (t : Truncate)
  | clearRecord (t : Truncate)
  deriving DecidableEq, Repr

structure JournalState where
  file : JournalFile
  phase : Nat → Phase

/-- The phase after an attempt to recover that failed. -/
def nextAttempt (op : JournalOp) (attempt : Nat) (known : Bool) : Phase :=
  if attempt + 1 < defaultOpRetries then .recovering op (attempt + 1) known else .gaveUp op known

def Truncate.file : Truncate → JournalFile → JournalFile
  | .openFails, file => file
  | _, _ => []

/-- The file and the phase of a call after one of its steps. -/
def phaseStep (file : JournalFile) : Phase → Event → Option (JournalFile × Phase)
  | .fresh, .call op => some (file, .opened op)
  | .fresh, .openFails => some (file, .returned)
  | .opened op, .writeJson => some (file ++ [.json op], .wroteJson op)
  | .opened _, .writeJsonFails cutOff => some (if cutOff then file ++ [.cutOff] else file, .returned)
  | .wroteJson op, .writeNewline => some (file ++ [.newline], .wroteLine op)
  | .wroteJson _, .writeNewlineFails => some (file, .returned)
  | .wroteLine op, .sync => some (file, .waiting op)
  | .wroteLine _, .syncFails => some (file, .returned)
  | .waiting _, .answered => some (file, .clearing)
  | .waiting op, .actionFails => some (file, .recovering op 0 false)
  | .recovering op n known, .readJournal =>
    some (file, .replaying op n known (journalOps file) (op ∈ journalOps file))
  | .recovering op n known, .attemptFails => some (file, nextAttempt op n known)
  | .replaying op n known (_ :: rest) found, .replayed => some (file, .replaying op n known rest found)
  | .replaying op n known (_ :: _) _, .replayFails => some (file, nextAttempt op n known)
  | .replaying op n known [] found, .replayClear t =>
    some (t.file file, if t = .ok then .clearing else nextAttempt op n (known || found))
  | .clearing, .clearRecord t => some (t.file file, .returned)
  | _, _ => none

/-- One step of the call `a.1`. -/
def journalStep (s : JournalState) (a : Nat × Event) : Option JournalState :=
  (phaseStep s.file (s.phase a.1) a.2).map fun r => ⟨r.1, Function.update s.phase a.1 r.2⟩

def JournalState.start : JournalState := ⟨[], fun _ => .fresh⟩

/-! ## The property and its condition -/

def InJournal (s : JournalState) : Prop :=
  ∀ i op, (s.phase i).pending? = some op → op ∈ journalOps s.file

def Event.truncates : Event → Bool
  | .replayClear _ => true
  | .clearRecord _ => true
  | _ => false

def Event.startsLine : Event → Bool
  | .writeJson => true
  | .writeJsonFails _ => true
  | _ => false

/-- The file is truncated only when no other call has a record there whose
outcome it does not know, and a record is started only on a new line. -/
def Spares (s : JournalState) (a : Nat × Event) : Prop :=
  (a.2.truncates → ∀ j, j ≠ a.1 → (s.phase j).pending? = none ∧ (s.phase j).recording? = none) ∧
  (a.2.startsLine → AtLineStart s.file)

/-- What a call's phase says about the file: its record is there, also while it
is being made, and a call that replays without knowing its outcome has read its own. -/
structure PhaseInv (file : JournalFile) (p : Phase) : Prop where
  pending : ∀ op, p.pending? = some op → op ∈ journalOps file
  recording : ∀ op, p.recording? = some op → op ∈ journalOps file
  found : ∀ op n rest found, p = .replaying op n false rest found → found = true

theorem PhaseInv.quiet {file : JournalFile} {p : Phase} (hp : p.pending? = none) (hr : p.recording? = none) :
    PhaseInv file p := by
  refine ⟨by simp [hp], by simp [hr], ?_⟩
  rintro op n rest found rfl
  simp [Phase.pending?] at hp

theorem PhaseInv.mono {file file' : JournalFile} {p : Phase} (h : PhaseInv file p)
    (hsub : ∀ op ∈ journalOps file, op ∈ journalOps file') : PhaseInv file' p :=
  ⟨fun op ho => hsub op (h.pending op ho), fun op ho => hsub op (h.recording op ho), h.found⟩

/-- A failed attempt leaves the record where it was. -/
theorem PhaseInv.nextAttempt {file : JournalFile} {op : JournalOp} {n : Nat} {known : Bool}
    (h : known = false → op ∈ journalOps file) : PhaseInv file (nextAttempt op n known) := by
  unfold Mobfs.nextAttempt
  split
  all_goals
    refine ⟨?_, by simp [Phase.recording?], by simp⟩
    intro o ho
    cases known with
    | true => simp [Phase.pending?] at ho
    | false =>
      simp only [Phase.pending?, Bool.false_eq_true, if_false, Option.some.injEq] at ho
      exact ho ▸ h rfl

/-- A step that does not truncate the file loses no record. -/
theorem phaseStep_keeps {file file' : JournalFile} {p p' : Phase} {e : Event}
    (h : phaseStep file p e = some (file', p')) (ht : e.truncates = false)
    (hl : e.startsLine → AtLineStart file) : ∀ op ∈ journalOps file, op ∈ journalOps file' := by
  intro o ho
  unfold phaseStep at h
  split at h
  case h_3 =>
    cases h
    -- A record that starts a line is one more operation.
    rw [journalOps_json (hl rfl)]
    exact List.mem_append_left _ ho
  case h_4 cutOff =>
    cases h
    -- A record that is cut off is a line nobody can read.
    cases cutOff
    · exact ho
    · exact (journalOps_cutOff (hl rfl)).symm ▸ ho
  case h_5 =>
    cases h
    rwa [journalOps_newline]
  case h_15 => cases ht
  case h_16 => cases ht
  all_goals cases h <;> exact ho

/-- A step keeps what the phase of its own call says. -/
theorem phaseStep_inv {file file' : JournalFile} {p p' : Phase} {e : Event}
    (h : phaseStep file p e = some (file', p')) (hl : e.startsLine → AtLineStart file)
    (hp : PhaseInv file p) : PhaseInv file' p' := by
  unfold phaseStep at h
  split at h
  case h_3 op =>
    cases h
    refine ⟨by simp [Phase.pending?], ?_, by simp⟩
    simp [Phase.recording?, journalOps_json (hl rfl)]
  case h_5 op =>
    cases h
    refine ⟨by simp [Phase.pending?], ?_, by simp⟩
    simpa [Phase.recording?] using hp.recording op rfl
  case h_7 op =>
    cases h
    exact ⟨by simpa [Phase.pending?] using hp.recording op rfl, by simp [Phase.recording?], by simp⟩
  case h_10 op =>
    cases h
    exact ⟨by simpa [Phase.pending?] using hp.pending op rfl, by simp [Phase.recording?], by simp⟩
  case h_11 op n known =>
    cases h
    refine ⟨hp.pending, by simp [Phase.recording?], ?_⟩
    intro op' n' rest found he
    simp only [Phase.replaying.injEq] at he
    obtain ⟨rfl, rfl, rfl, rfl, rfl⟩ := he
    exact decide_eq_true (hp.pending op rfl)
  case h_12 op n known =>
    cases h
    exact .nextAttempt fun hk => hp.pending op (by simp [Phase.pending?, hk])
  case h_13 op n known o rest found =>
    cases h
    refine ⟨hp.pending, by simp [Phase.recording?], ?_⟩
    intro op' n' rest' found' he
    simp only [Phase.replaying.injEq] at he
    obtain ⟨rfl, rfl, rfl, rfl, rfl⟩ := he
    exact hp.found op n (o :: rest) found rfl
  case h_14 op n known o rest found =>
    cases h
    exact .nextAttempt fun hk => hp.pending op (by simp [Phase.pending?, hk])
  case h_15 op n known found t =>
    cases h
    split
    · exact .quiet rfl rfl
    · -- The operation has just been tried, so the file no longer matters.
      refine .nextAttempt fun hk => ?_
      simp only [Bool.or_eq_false_iff] at hk
      obtain ⟨rfl, rfl⟩ := hk
      cases hp.found op n [] false rfl
  all_goals cases h <;> exact .quiet rfl rfl

def JournalInv (s : JournalState) : Prop := ∀ i, PhaseInv s.file (s.phase i)

theorem journalStep_inv {s s' : JournalState} {a : Nat × Event} (h : JournalInv s) (hg : Spares s a)
    (hs : journalStep s a = some s') : JournalInv s' := by
  obtain ⟨i, e⟩ := a
  obtain ⟨⟨file', p'⟩, hp, rfl⟩ := Option.map_eq_some_iff.1 hs
  intro j
  by_cases hj : j = i
  · subst hj
    simpa using phaseStep_inv hp hg.2 (h j)
  · -- Another call loses its record only if the file is truncated under it.
    simp only [Function.update_of_ne hj]
    cases ht : e.truncates with
    | true =>
      obtain ⟨hq, hr⟩ := hg.1 ht j hj
      exact .quiet hq hr
    | false => exact (h j).mono (phaseStep_keeps hp ht hg.2)

/-- In every run whose steps spare the records of other calls, the journal has
the operation of each call that has recorded it and does not know its outcome. -/
theorem mutation_in_journal (as : List (Nat × Event)) (s : JournalState)
    (hg : Guarded journalStep Spares .start as) (h : exec journalStep .start as = some s) : InJournal s := by
  have hstart : JournalInv .start := fun _ => .quiet rfl rfl
  have hinv : JournalInv s := exec_guarded_inv JournalInv (fun _ _ _ => journalStep_inv) hstart hg h
  exact fun i op hop => (hinv i).pending op hop

/-! ## What goes wrong -/

def recorded (i : Nat) (op : JournalOp) : List (Nat × Event) :=
  [(i, .call op), (i, .writeJson), (i, .writeNewline), (i, .sync)]

/-- One call ends while another waits for its answer, and takes its record
along; two records written at the same time end up on one line. -/
theorem clear_drops_other_record :
    (∃ s, exec journalStep .start (recorded 0 (.mkdir "a") ++ recorded 1 (.mkdir "b") ++
        [(1, .answered), (1, .clearRecord .ok)]) = some s ∧ s.phase 0 = .waiting (.mkdir "a") ∧ ¬ InJournal s) ∧
    (∃ s, exec journalStep .start [(0, .call (.mkdir "a")), (1, .call (.mkdir "b")), (0, .writeJson),
        (1, .writeJson), (0, .writeNewline), (1, .writeNewline), (0, .sync), (1, .sync)] = some s ∧
      s.phase 0 = .waiting (.mkdir "a") ∧ ¬ InJournal s) := by
  refine ⟨⟨_, rfl, rfl, ?_⟩, ⟨_, rfl, rfl, ?_⟩⟩
  · intro h
    exact absurd (h 0 (.mkdir "a") rfl) (by decide)
  · intro h
    exact absurd (h 0 (.mkdir "a") rfl) (by decide)

/-- A call on its own keeps its record until its outcome is known. -/
theorem mutation_in_journal_alone :
    ∃ s, exec journalStep .start (recorded 0 (.mkdir "a") ++ [(0, .actionFails), (0, .readJournal)]) = some s ∧
      (s.phase 0).pending? = some (.mkdir "a") ∧ InJournal s := by
  refine ⟨_, rfl, rfl, mutation_in_journal
    (recorded 0 (.mkdir "a") ++ [(0, .actionFails), (0, .readJournal)]) _ ?_ rfl⟩
  simp only [recorded, List.cons_append, List.nil_append, Guarded, Spares, Event.truncates, Event.startsLine]
  refine ⟨by simp, ?_⟩
  intro s hs
  obtain rfl := Option.some.inj hs
  refine ⟨⟨by simp, fun _ => .inl rfl⟩, ?_⟩
  simp

end Mobfs
