import Mathlib.Data.List.Count
import Mobfs.Daemon.Framing
import Mobfs.Lib.Runs
/-!
# One call of `run`

The client sends the command, reads its output and its result. Any error of an
attempt, also a timeout while the command runs and an `Error` reply, makes `op`
connect again and send the command again. Each attempt has a connection of its own
and a thread of the daemon at its other end; the thread of an attempt that was given
up goes on, and may read its request only then.

`run_starts_once`: the command is started once at most if no failure leaves open
whether it has been started (`FailGuard`).
-/

namespace Mobfs

open Lib

/-- The daemon's end of the connection of an attempt. -/
inductive RunConn where
  /-- The request has been sent and not yet read. -/
  | sent
  /-- The request can no longer be read. -/
  | lost
  /-- The request is answered by an error before the command is started. -/
  | refused
  | running
  /-- The command has been started, and is answered or no longer watched. -/
  | over
  deriving DecidableEq

def RunConn.hasStarted : RunConn → Bool
  | .running | .over => true
  | _ => false

/-- The request of the attempt has come to nothing. -/
def RunConn.Harmless (c : RunConn) : Prop := c = .lost ∨ c = .refused

/-- The connection breaks. -/
def RunConn.dies : RunConn → RunConn
  | .sent => .lost
  | .running => .over
  | c => c

inductive RunPhase where
  | trying
  | reading (stdout stderr : Bytes)
  | failed (e : MobfsError)
  | returned (r : Except MobfsError (Option Int × Bytes × Bytes))

/-- A call of `run` with all its attempts, the last of them last. -/
structure RunCall (σ : Type) where
  phase : RunPhase
  conns : List RunConn
  /-- What the client has still to read on its present connection. -/
  replies : List Response
  os : σ
  spawned : Nat

inductive RunAct (σ : Type) where
  /-- The client writes the request: whether it can be read at the other end, and
  whether the write returns an error. -/
  | write (arrives : Bool) (error : Option MobfsError)
  /-- The daemon reads the request of an attempt. -/
  | serve (i : Nat)
  | output (i : Nat) (stream : RunStream) (data : Bytes)
  /-- The command ends, or waiting for it fails. -/
  | ends (i : Nat) (result : Except MobfsError (Option Int × Bytes × Bytes))
  /-- The connection of an attempt breaks. -/
  | dies (i : Nat)
  | read
  /-- A timeout or another error. -/
  | readFails (e : MobfsError)
  /-- `op` has connected again. -/
  | retry
  /-- The retries are used up, or connecting fails with another error. -/
  | giveUp (reconnect : Option MobfsError)
  /-- Others use the daemon's machine. -/
  | others (os : σ)

section System
variable {σ : Type} (os : Os σ) (policy : RootPolicy) (spawn : AbsPath → List String → Io σ Unit)
variable (root : String) (command : List String) (retries : Nat)

/-- `handle_run` up to the start of the command, which succeeds if this does. -/
def handleRun : Io σ Unit := fun s =>
  match policy.check os root s with
  | (.error e, s) => (.error e, s)
  | (.ok path, s) =>
    if command = [] then (.error (.remote "empty command"), s)
    else
      match safeJoin path "" with
      | .error e => (.error e, s)
      | .ok dir => spawn dir command s

/-- What the client makes of a frame. -/
def readRun (stdout stderr : Bytes) : Response → RunPhase
  | .runOutput .stdout data => .reading (stdout ++ data) stderr
  | .runOutput .stderr data => .reading stdout (stderr ++ data)
  | .runResult code _ _ => .returned (.ok (code, stdout, stderr))
  | .error message => .failed (.remote message)
  | _ => .failed (.remote "invalid run response")

/-- A frame of the thread of attempt `i`: the client gets it if this is its present
connection. -/
def RunCall.reply (s : RunCall σ) (i : Nat) (r : Response) : List Response :=
  if i + 1 = s.conns.length then s.replies ++ [r] else s.replies

def runStep (s : RunCall σ) : RunAct σ → Option (RunCall σ)
  | .write arrives error =>
    match s.phase with
    | .trying => some { s with
        conns := s.conns ++ [if arrives then .sent else .lost]
        phase := match error with
          | none => .reading [] []
          | some e => .failed e }
    | _ => none
  | .serve i =>
    match s.conns[i]? with
    | some .sent =>
      match handleRun os policy spawn root command s.os with
      | (.ok (), st) => some { s with conns := s.conns.set i .running, spawned := s.spawned + 1, os := st }
      | (.error e, st) => some { s with conns := s.conns.set i .refused, replies := s.reply i (.error e.text), os := st }
    | _ => none
  | .output i stream data =>
    match s.conns[i]? with
    | some .running => some { s with replies := s.reply i (.runOutput stream data) }
    | _ => none
  | .ends i result =>
    match s.conns[i]? with
    | some .running => some { s with
        conns := s.conns.set i .over
        replies := s.reply i (match result with
          | .ok (code, stdout, stderr) => .runResult code stdout stderr
          | .error e => .error e.text) }
    | _ => none
  | .dies i => s.conns[i]?.map fun c => { s with conns := s.conns.set i c.dies }
  | .read =>
    match s.phase, s.replies with
    | .reading stdout stderr, r :: rs => some { s with phase := readRun stdout stderr r, replies := rs }
    | _, _ => none
  | .readFails e =>
    match s.phase with
    | .reading _ _ => some { s with phase := .failed e }
    | _ => none
  | .retry =>
    match s.phase with
    | .failed _ => if s.conns.length ≤ retries then some { s with phase := .trying, replies := [] } else none
    | _ => none
  | .giveUp reconnect =>
    match s.phase with
    | .failed e =>
      if s.conns.length ≤ retries then reconnect.map fun e => { s with phase := .returned (.error e) }
      else some { s with phase := .returned (.error e) }
    | _ => none
  | .others st => some { s with os := st }

/-- The failures that leave open whether the command has been started: a write that
reports an error although the request can be read, a read that fails after a request
that was not lost or refused, an error in place of the result of a started command. -/
def FailGuard (s : RunCall σ) : RunAct σ → Prop
  | .write arrives error => arrives = false ∨ error = none
  | .readFails _ => ∀ c, s.conns.getLast? = some c → c.Harmless
  | .ends _ result => ∃ r, result = .ok r
  | _ => True

/-- Before the first attempt. -/
def RunCall.start (st : σ) : RunCall σ := ⟨.trying, [], [], st, 0⟩

/-! ## The invariant -/

/-- A reply after which `op` would try again. -/
def Response.FailsRun (r : Response) : Prop := ∀ stdout stderr, ∃ e, readRun stdout stderr r = .failed e

/-- No attempt has started the command or can start it. -/
def RunCall.Idle (s : RunCall σ) : Prop := ∀ c ∈ s.conns, c.Harmless

/-- Each attempt but the last has come to nothing; where the client has seen an error,
or is to see one, the last has too. -/
structure StartsOnce (s : RunCall σ) : Prop where
  counted : s.spawned = s.conns.countP (·.hasStarted)
  earlier : ∀ c ∈ s.conns.dropLast, c.Harmless
  trying : s.phase = .trying → s.Idle ∧ s.replies = []
  failed : ∀ e, s.phase = .failed e → s.Idle
  replies : ∀ r ∈ s.replies, r.FailsRun → s.Idle

variable {os policy spawn root command retries} {s s' : RunCall σ}

theorem hasStarted_of_harmless {c : RunConn} (h : c.Harmless) : c.hasStarted = false := by
  rcases h with rfl | rfl <;> rfl

theorem StartsOnce.spawned_le (h : StartsOnce s) : s.spawned ≤ 1 := by
  have hnone : s.conns.dropLast.countP (·.hasStarted) = 0 :=
    List.countP_eq_zero.2 fun c hc => by simp [hasStarted_of_harmless (h.earlier c hc)]
  rw [h.counted]
  rcases List.eq_nil_or_concat s.conns with hnil | ⟨conns, c, hconns⟩
  · simp [hnil]
  · rw [hconns, List.concat_eq_append] at hnone ⊢
    rw [List.dropLast_concat] at hnone
    rw [List.countP_append, hnone, List.countP_singleton]
    split <;> omega

/-- An attempt that is not harmless is the last one. -/
theorem StartsOnce.last_of_live (h : StartsOnce s) {i : Nat} {c : RunConn} (hi : s.conns[i]? = some c)
    (hc : ¬ c.Harmless) : ∃ conns, s.conns = conns ++ [c] ∧ i = conns.length := by
  obtain ⟨hlt, -⟩ := List.getElem?_eq_some_iff.1 hi
  rcases List.eq_nil_or_concat s.conns with hnil | ⟨conns, x, hconns⟩
  · simp [hnil] at hlt
  rw [List.concat_eq_append] at hconns
  rw [hconns] at hi
  by_cases hlast : i < conns.length
  · rw [List.getElem?_append_left hlast] at hi
    refine absurd (h.earlier c ?_) hc
    rw [hconns, List.dropLast_concat]
    exact List.mem_of_getElem? hi
  · rw [hconns, List.length_append, List.length_singleton] at hlt
    obtain rfl : i = conns.length := by omega
    simp only [List.getElem?_concat_length, Option.some.injEq] at hi
    exact ⟨conns, hi ▸ hconns, rfl⟩

/-- While an attempt has been sent or started, the client is not to see an error. -/
theorem StartsOnce.not_idle {i : Nat} {c : RunConn} (hi : s.conns[i]? = some c) (hc : ¬ c.Harmless) : ¬ s.Idle :=
  fun hidle => hc (hidle c (List.mem_of_getElem? hi))

/-- The last attempt goes on: what is left to show is that the count is right and that
each error the client can see then finds it harmless. -/
theorem StartsOnce.moved (h : StartsOnce s) {i : Nat} {c x : RunConn} (hi : s.conns[i]? = some c)
    (hc : ¬ c.Harmless) (hconns : s'.conns = s.conns.set i x) (hphase : s'.phase = s.phase)
    (hspawned : s'.spawned + c.hasStarted.toNat = s.spawned + x.hasStarted.toNat)
    (hreplies : ∀ r ∈ s'.replies, r.FailsRun → r ∈ s.replies ∨ x.Harmless) : StartsOnce s' := by
  obtain ⟨conns, hlast, rfl⟩ := h.last_of_live hi hc
  have hset : s'.conns = conns ++ [x] := by
    rw [hconns, hlast, List.set_append_right _ _ (Nat.le_refl _), Nat.sub_self, List.set_cons_zero]
  have hbusy : ¬ s.Idle := StartsOnce.not_idle hi hc
  have hcount : s.spawned = conns.countP (·.hasStarted) + c.hasStarted.toNat := by
    rw [h.counted, hlast, List.countP_append, List.countP_singleton]
    cases c.hasStarted <;> rfl
  have hearlier : ∀ d ∈ conns, d.Harmless := fun d hd => h.earlier d (by rwa [hlast, List.dropLast_concat])
  refine ⟨?_, ?_, ?_, ?_, ?_⟩
  · rw [hset, List.countP_append, List.countP_singleton]
    have hx : (if x.hasStarted = true then 1 else 0) = x.hasStarted.toNat := by cases x.hasStarted <;> rfl
    omega
  · rwa [hset, List.dropLast_concat]
  · exact fun ht => absurd (h.trying (hphase ▸ ht)).1 hbusy
  · exact fun e he => absurd (h.failed e (hphase ▸ he)) hbusy
  · intro r hr hfails d hd
    rcases hreplies r hr hfails with hr | hx
    · exact absurd (h.replies r hr hfails) hbusy
    · rw [hset, List.mem_append, List.mem_singleton] at hd
      rcases hd with hd | rfl
      · exact hearlier d hd
      · exact hx

/-- A step of the client that leaves the attempts as they are. -/
theorem StartsOnce.client (h : StartsOnce s) (hconns : s'.conns = s.conns) (hspawned : s'.spawned = s.spawned)
    (htrying : s'.phase = .trying → s.Idle ∧ s'.replies = []) (hfailed : ∀ e, s'.phase = .failed e → s.Idle)
    (hreplies : ∀ r ∈ s'.replies, r ∈ s.replies) : StartsOnce s' := by
  have hidle : s.Idle → s'.Idle := fun hs c hc => hs c (hconns ▸ hc)
  refine ⟨?_, ?_, ?_, ?_, ?_⟩
  · rw [hspawned, hconns, h.counted]
  · rw [hconns]
    exact h.earlier
  · exact fun ht => ⟨hidle (htrying ht).1, (htrying ht).2⟩
  · exact fun e he => hidle (hfailed e he)
  · exact fun r hr hfails => hidle (h.replies r (hreplies r hr) hfails)

theorem mem_reply {i : Nat} {r x : Response} (h : x ∈ s.reply i r) : x ∈ s.replies ∨ x = r := by
  unfold RunCall.reply at h
  split at h
  · simpa using h
  · exact .inl h

theorem not_failsRun_output (stream : RunStream) (data : Bytes) : ¬ (Response.runOutput stream data).FailsRun := by
  intro h
  obtain ⟨e, he⟩ := h [] []
  cases stream <;> cases he

theorem not_failsRun_result (code : Option Int) (stdout stderr : Bytes) :
    ¬ (Response.runResult code stdout stderr).FailsRun := by
  intro h
  obtain ⟨e, he⟩ := h [] []
  cases he

theorem readRun_ne_trying (stdout stderr : Bytes) (r : Response) : readRun stdout stderr r ≠ .trying := by
  unfold readRun
  split <;> simp

/-- Whether a reply is an error does not depend on what has been read. -/
theorem failsRun_of_failed {stdout stderr : Bytes} {r : Response} {e : MobfsError}
    (h : readRun stdout stderr r = .failed e) : r.FailsRun := by
  intro stdout' stderr'
  unfold readRun at h ⊢
  split at h
  · cases h
  · cases h
  · cases h
  · exact ⟨_, rfl⟩
  · exact ⟨_, rfl⟩

theorem StartsOnce.write (h : StartsOnce s) {arrives : Bool} {error : Option MobfsError}
    (hg : FailGuard s (.write arrives error))
    (hs : runStep os policy spawn root command retries s (.write arrives error) = some s') : StartsOnce s' := by
  simp only [runStep] at hs
  split at hs
  · rename_i hp
    cases hs
    -- Nothing has started and nothing is on its way but this request.
    obtain ⟨hidle, hnil⟩ := h.trying hp
    have hnew : (if arrives then RunConn.sent else .lost).hasStarted = false := by cases arrives <;> rfl
    refine ⟨?_, ?_, ?_, ?_, ?_⟩
    · rw [h.counted, List.countP_append, List.countP_singleton, hnew]
      rfl
    · rw [List.dropLast_concat]
      exact hidle
    · intro ht
      cases error <;> cases ht
    · intro e he c hc
      obtain rfl : arrives = false := by
        rcases hg with ha | hnone
        · exact ha
        · rw [hnone] at he
          cases he
      rcases List.mem_append.1 hc with hc | hc
      · exact hidle c hc
      · rw [List.mem_singleton.1 hc]
        exact .inl rfl
    · intro r hr
      rw [hnil] at hr
      cases hr
  · cases hs

theorem StartsOnce.serve (h : StartsOnce s) {i : Nat}
    (hs : runStep os policy spawn root command retries s (.serve i) = some s') : StartsOnce s' := by
  simp only [runStep] at hs
  split at hs
  · rename_i hi
    have hsent : ¬ RunConn.sent.Harmless := by rintro (h | h) <;> cases h
    split at hs
    · cases hs
      exact h.moved hi hsent rfl rfl rfl fun r hr _ => .inl hr
    · cases hs
      exact h.moved hi hsent rfl rfl rfl fun r hr _ => .inr (.inr rfl)
  · cases hs

theorem StartsOnce.serves (h : StartsOnce s) {i : Nat} {x : RunConn} {r : Response}
    (hi : s.conns[i]? = some .running) (hx : x.hasStarted = true) (hr : ¬ r.FailsRun) :
    StartsOnce { s with conns := s.conns.set i x, replies := s.reply i r } := by
  have hrunning : ¬ RunConn.running.Harmless := by rintro (h | h) <;> cases h
  refine h.moved hi hrunning rfl rfl (by rw [hx]; rfl) ?_
  intro y hy hfails
  rcases mem_reply hy with hy | rfl
  · exact .inl hy
  · exact absurd hfails hr

theorem set_same {conns : List RunConn} {i : Nat} {c : RunConn} (hi : conns[i]? = some c) : conns.set i c = conns := by
  obtain ⟨hlt, rfl⟩ := List.getElem?_eq_some_iff.1 hi
  exact List.set_getElem_self hlt

theorem StartsOnce.dies (h : StartsOnce s) {i : Nat} {c : RunConn} (hi : s.conns[i]? = some c) :
    StartsOnce { s with conns := s.conns.set i c.dies } := by
  by_cases hc : c.Harmless
  · have hsame : c.dies = c := by rcases hc with rfl | rfl <;> rfl
    rw [hsame, set_same hi]
    exact h
  · exact h.moved hi hc rfl rfl (by cases c <;> rfl) fun r hr _ => .inl hr

/-- A read fails: the earlier attempts are harmless anyway, the last one by the guard. -/
theorem StartsOnce.idle_of_last (h : StartsOnce s) (hlast : ∀ c, s.conns.getLast? = some c → c.Harmless) : s.Idle := by
  intro c hc
  rcases List.eq_nil_or_concat s.conns with hnil | ⟨conns, x, hconns⟩
  · rw [hnil] at hc
    cases hc
  · rw [List.concat_eq_append] at hconns
    rw [hconns, List.mem_append, List.mem_singleton] at hc
    rcases hc with hc | rfl
    · exact h.earlier c (by rwa [hconns, List.dropLast_concat])
    · exact hlast c (by rw [hconns, List.getLast?_concat])

theorem StartsOnce.step (h : StartsOnce s) {a : RunAct σ} (hg : FailGuard s a)
    (hs : runStep os policy spawn root command retries s a = some s') : StartsOnce s' := by
  cases a with
  | write arrives error => exact h.write hg hs
  | serve i => exact h.serve hs
  | output i stream data =>
    simp only [runStep] at hs
    split at hs
    · rename_i hi
      cases hs
      have := h.serves hi (x := .running) rfl (not_failsRun_output stream data)
      rwa [set_same hi] at this
    · cases hs
  | ends i result =>
    obtain ⟨⟨code, stdout, stderr⟩, rfl⟩ := hg
    simp only [runStep] at hs
    split at hs
    · rename_i hi
      cases hs
      exact h.serves hi rfl (not_failsRun_result code stdout stderr)
    · cases hs
  | dies i =>
    obtain ⟨c, hi, rfl⟩ := Option.map_eq_some_iff.1 hs
    exact h.dies hi
  | read =>
    simp only [runStep] at hs
    split at hs
    · rename_i stdout stderr r rs _ hreplies
      cases hs
      refine h.client rfl rfl (fun ht => absurd ht (readRun_ne_trying _ _ _)) ?_ ?_
      · intro e he
        exact h.replies r (by rw [hreplies]; exact List.mem_cons_self) (failsRun_of_failed he)
      · intro x hx
        rw [hreplies]
        exact List.mem_cons_of_mem _ hx
    · cases hs
  | readFails e =>
    simp only [runStep] at hs
    split at hs
    · cases hs
      exact h.client rfl rfl (fun ht => by cases ht) (fun _ _ => h.idle_of_last hg) fun r hr => hr
    · cases hs
  | retry =>
    simp only [runStep] at hs
    split at hs
    · rename_i e hp
      simp only [Option.ite_none_right_eq_some, Option.some.injEq] at hs
      rw [← hs.2]
      exact h.client rfl rfl (fun _ => ⟨h.failed e hp, rfl⟩) (fun _ he => by cases he) fun r hr => by cases hr
    · cases hs
  | giveUp reconnect =>
    have hgone (r : Except MobfsError (Option Int × Bytes × Bytes)) : StartsOnce { s with phase := .returned r } :=
      h.client rfl rfl (fun ht => by cases ht) (fun _ he => by cases he) fun r hr => hr
    simp only [runStep] at hs
    split at hs
    · split at hs
      · obtain ⟨e, -, rfl⟩ := Option.map_eq_some_iff.1 hs
        exact hgone _
      · cases hs
        exact hgone _
    · cases hs
  | others st =>
    cases hs
    exact ⟨h.counted, h.earlier, h.trying, h.failed, h.replies⟩

end System

/-- In every run of one call of `run`, whatever is lost, late or refused: if each
failure meets `FailGuard`, the daemon starts the command once at most. -/
theorem run_starts_once {σ : Type} (os : Os σ) (policy : RootPolicy) (spawn : AbsPath → List String → Io σ Unit)
    (root : String) (command : List String) (retries : Nat) (st : σ) (as : List (RunAct σ)) (s : RunCall σ)
    (hguard : Guarded (runStep os policy spawn root command retries) FailGuard (.start st) as)
    (hrun : exec (runStep os policy spawn root command retries) (.start st) as = some s) : s.spawned ≤ 1 := by
  have hinit : StartsOnce (RunCall.start st) :=
    ⟨rfl, by simp [RunCall.start], fun _ => ⟨by simp [RunCall.start, RunCall.Idle], rfl⟩, fun _ he => (by cases he),
      fun _ hr => (by cases hr)⟩
  exact (exec_guarded_inv StartsOnce (fun _ _ _ h hg hs => h.step hg hs) hinit hguard hrun).spawned_le

/-! ## A retry that is harmless, and one that is not -/

/-- `make` on a machine on which everything succeeds, with one retry. -/
def runMake : RunCall Unit → RunAct Unit → Option (RunCall Unit) :=
  runStep calmOs ⟨[], true⟩ (fun _ _ s => (.ok (), s)) "/srv" ["make"] 1

/-- The first request is lost; the second is answered. -/
def firstLost : List (RunAct Unit) :=
  [.write false (some (.io "broken pipe")), .retry, .write true none, .serve 1, .ends 1 (.ok (some 0, [], [])), .read]

theorem run_starts_once_first_lost :
    ∃ s, exec runMake (.start ()) firstLost = some s ∧ s.spawned = 1 ∧ s.spawned ≤ 1 := by
  have hrun : (exec runMake (.start ()) firstLost).any (·.spawned = 1) := by decide
  obtain ⟨s, hs, hone⟩ := (Option.any_eq_true _ _).1 hrun
  have hguard : Guarded runMake FailGuard (.start ()) firstLost :=
    ⟨.inl rfl, fun _ _ => ⟨trivial, fun _ _ => ⟨.inr rfl, fun _ _ => ⟨trivial, fun _ _ => ⟨⟨_, rfl⟩, fun _ _ =>
      ⟨trivial, fun _ _ => trivial⟩⟩⟩⟩⟩⟩
  exact ⟨s, hs, of_decide_eq_true hone,
    run_starts_once calmOs ⟨[], true⟩ (fun _ _ s => (.ok (), s)) "/srv" ["make"] 1 () firstLost s hguard hs⟩

/-- The command is silent for longer than the read timeout: it is started again while
it still runs. -/
theorem timeout_starts_command_again :
    ∃ s, exec runMake (.start ()) [.write true none, .serve 0, .readFails (.io "timed out"), .retry, .write true none,
      .serve 1] = some s ∧ ¬ s.spawned ≤ 1 := by
  have hrun : (exec runMake (.start ()) [.write true none, .serve 0, .readFails (.io "timed out"), .retry,
      .write true none, .serve 1]).any (·.spawned = 2) := by decide
  obtain ⟨s, hs, htwo⟩ := (Option.any_eq_true _ _).1 hrun
  exact ⟨s, hs, by rw [of_decide_eq_true htwo]; decide⟩

end Mobfs
