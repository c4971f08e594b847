import Mobfs.Remote.Run
/-!
# The output of a command

`handle_run` gives each of the two pipes of the command to a thread of its own, which reads
it and sends what it has read over a channel. The loop writes what comes out of the channel to
the client, and looks now and then whether the command has ended. Then it goes on until both
threads are gone and the channel is empty, or nothing has come for 10 ms.

`run_returns_output`: what an attempt of `run` returns is what the command has written, each
stream in its order, up to where the loop ended. It is all of it where the loop did not end by
the timeout and the thread of the stream read to the end of its pipe.
-/

namespace Mobfs

open Lib

/-- A thread of `spawn_output_reader`. -/
inductive OutputReader where
  | reading
  | sending (data : Bytes)
  /-- `eof`: by `Ok(0)`. -/
  | ended (eof : Bool)
  deriving DecidableEq

/-- The loop of `handle_run`, and the one after the command has ended. -/
inductive RelayPhase where
  | polling
  | draining (code : Option Int)
  /-- `handle_run` has returned. `drained`: its threads were gone and the channel was empty. -/
  | over (drained : Bool)
  deriving DecidableEq

/-- The daemon and the client, once the command has been started. `wrote`: what the command
has written. `pipe`: what of it is still in the pipe. `lost`: the connection is broken. -/
structure RunRelay where
  wrote : RunStream → Bytes
  pipe : RunStream → Bytes
  closed : RunStream → Bool
  exited : Option (Option Int)
  readers : RunStream → OutputReader
  channel : List (RunStream × Bytes)
  /-- `all_stdout` and `all_stderr`. -/
  all : RunStream → Bytes
  phase : RelayPhase
  wire : List Response
  lost : Bool
  client : RunPhase

inductive RelayAct where
  /-- The command, or a process it has left behind, writes. -/
  | write (stream : RunStream) (data : Bytes)
  | close (stream : RunStream)
  | exit (code : Option Int)
  /-- A read of the pipe returns so many bytes. -/
  | read (stream : RunStream) (n : Nat)
  | eof (stream : RunStream)
  | readFails (stream : RunStream)
  | send (stream : RunStream)
  /-- `try_recv` or `recv_timeout` returns data, which is written to the client. -/
  | relay
  | tryWait
  | waitFails (e : MobfsError)
  /-- `recv_timeout` fails. -/
  | disconnected
  | timeout
  /-- The daemon fails to write a frame. -/
  | writeFails
  /-- The connection breaks, and only so many frames still arrive. -/
  | breaks (n : Nat)
  | clientReads
  | clientFails (e : MobfsError)

/-- The size of the buffer of `spawn_output_reader`. -/
def outputBuffer : Nat := 16 * 1024

/-- The bytes of the two streams. -/
def both (stdout stderr : Bytes) : RunStream → Bytes
  | .stdout => stdout
  | .stderr => stderr

namespace RelayPhase

def isOver : RelayPhase → Bool
  | .over _ => true
  | _ => false

end RelayPhase

def OutputReader.isEnded : OutputReader → Bool
  | .ended _ => true
  | _ => false

namespace RunRelay

def start : RunRelay where
  wrote := fun _ => []
  pipe := fun _ => []
  closed := fun _ => false
  exited := none
  readers := fun _ => .reading
  channel := []
  all := fun _ => []
  phase := .polling
  wire := []
  lost := false
  client := .reading [] []

def setReader (s : RunRelay) (stream : RunStream) (r : OutputReader) : RunRelay :=
  { s with readers := Function.update s.readers stream r }

/-- A frame is written. It goes nowhere once the connection is broken. -/
def frame (s : RunRelay) (r : Response) : RunRelay := { s with wire := if s.lost then s.wire else s.wire ++ [r] }

/-- `handle_run` ends with that exit code. -/
def finish (s : RunRelay) (code : Option Int) (drained : Bool) : RunRelay :=
  { s.frame (.runResult code (s.all .stdout) (s.all .stderr)) with phase := .over drained }

def step (s : RunRelay) : RelayAct → Option RunRelay
  | .write stream data =>
    if s.closed stream then none
    else
      some { s with
        wrote := Function.update s.wrote stream (s.wrote stream ++ data)
        pipe := Function.update s.pipe stream (s.pipe stream ++ data) }
  | .close stream => some { s with closed := Function.update s.closed stream true }
  | .exit code => if s.exited.isSome then none else some { s with exited := some code }
  | .read stream n =>
    if s.readers stream = .reading ∧ 0 < n ∧ n ≤ outputBuffer ∧ n ≤ (s.pipe stream).length then
      some { s.setReader stream (.sending ((s.pipe stream).take n)) with
        pipe := Function.update s.pipe stream ((s.pipe stream).drop n) }
    else none
  | .eof stream =>
    if s.readers stream = .reading ∧ s.closed stream = true ∧ s.pipe stream = [] then
      some (s.setReader stream (.ended true))
    else none
  | .readFails stream =>
    if s.readers stream = .reading then some (s.setReader stream (.ended false)) else none
  | .send stream =>
    match s.readers stream with
    | .sending data =>
      -- The receiver is dropped when `handle_run` returns.
      if s.phase.isOver then some (s.setReader stream (.ended false))
      else some { s.setReader stream .reading with channel := s.channel ++ [(stream, data)] }
    | _ => none
  | .relay =>
    match s.channel with
    | (stream, data) :: rest =>
      if s.phase.isOver then none
      else
        some { s.frame (.runOutput stream data) with
          channel := rest, all := Function.update s.all stream (s.all stream ++ data) }
    | [] => none
  | .tryWait =>
    match s.phase, s.exited with
    | .polling, some code => some { s with phase := .draining code }
    | _, _ => none
  | .waitFails e =>
    match s.phase with
    | .polling => some { s.frame (.error e.text) with phase := .over false }
    | _ => none
  | .disconnected =>
    match s.phase, s.channel with
    | .draining code, [] =>
      if (s.readers .stdout).isEnded && (s.readers .stderr).isEnded then some (s.finish code true) else none
    | _, _ => none
  | .timeout =>
    match s.phase, s.channel with
    | .draining code, [] => some (s.finish code false)
    | _, _ => none
  | .writeFails => if s.phase.isOver then none else some { s with phase := .over false, lost := true }
  | .breaks n => some { s with wire := s.wire.take n, lost := true }
  | .clientReads =>
    match s.client, s.wire with
    | .reading stdout stderr, r :: rest => some { s with client := readRun stdout stderr r, wire := rest }
    | _, _ => none
  | .clientFails e =>
    match s.client with
    | .reading _ _ => some { s with client := .failed e }
    | _ => none

end RunRelay

/-! ## Frames on their way -/

/-- What a thread has read and not yet sent. -/
def OutputReader.held : OutputReader → Bytes
  | .sending data => data
  | _ => []

/-- The client, which has got so much, will never have more than there is, and all of it when
it reads the result. `up`: all frames so far arrive. -/
def OnItsWay (all : RunStream → Bytes) (done : Option Int → Prop) (up : Prop) : (RunStream → Bytes) → List Response → Prop
  | got, [] => (∀ stream, got stream <+: all stream) ∧ (up → got = all)
  | got, .runOutput stream data :: rest =>
    OnItsWay all done up (Function.update got stream (got stream ++ data)) rest
  | got, .runResult code _ _ :: _ => done code ∧ got = all
  | got, _ :: _ => ∀ stream, got stream <+: all stream

section OnItsWay

variable {all all' got : RunStream → Bytes} {done done' : Option Int → Prop} {up up' : Prop} {wire : List Response}

theorem prefix_update (got : RunStream → Bytes) (stream : RunStream) (data : Bytes) (stream' : RunStream) :
    got stream' <+: Function.update got stream (got stream ++ data) stream' := by
  by_cases h : stream' = stream
  · subst h
    simp
  · simp [Function.update_of_ne h]

theorem OnItsWay.got_le (h : OnItsWay all done up got wire) (stream : RunStream) : got stream <+: all stream := by
  induction wire generalizing got with
  | nil => exact h.1 stream
  | cons r rest ih =>
    cases r with
    | runOutput stream' data => exact (prefix_update got stream' data stream).trans (ih h)
    | runResult code out err => exact h.2 ▸ List.prefix_rfl
    | _ => exact h stream

/-- The connection may break, and the command may turn out to have ended. -/
theorem OnItsWay.mono (h : OnItsWay all done up got wire) (hdone : ∀ code, done code → done' code) (hup : up' → up) :
    OnItsWay all done' up' got wire := by
  induction wire generalizing got with
  | nil => exact ⟨h.1, fun hu => h.2 (hup hu)⟩
  | cons r rest ih =>
    cases r with
    | runOutput stream data => exact ih h
    | runResult code out err => exact ⟨hdone code h.1, h.2⟩
    | _ => exact h

theorem OnItsWay.take (h : OnItsWay all done up got wire) (n : Nat) : OnItsWay all done False got (wire.take n) := by
  induction wire generalizing got n with
  | nil =>
    rw [List.take_nil]
    exact h.mono (fun _ => id) False.elim
  | cons r rest ih =>
    cases n with
    | zero => exact ⟨h.got_le, False.elim⟩
    | succ n =>
      rw [List.take_succ_cons]
      cases r with
      | runOutput stream data => exact ih h n
      | runResult code out err => exact h
      | _ => exact h

/-- Only output is on its way. -/
def OnlyOutput (wire : List Response) : Prop := ∀ r ∈ wire, ∃ stream data, r = .runOutput stream data

theorem onlyOutput_cons {r : Response} (h : OnlyOutput (r :: wire)) :
    (∃ stream data, r = .runOutput stream data) ∧ OnlyOutput wire :=
  ⟨h r List.mem_cons_self, fun r hr => h r (List.mem_cons_of_mem _ hr)⟩

/-- More is written to the client. -/
theorem OnItsWay.append {more : List Response} (h : OnItsWay all done up got wire) (hu : up) (hwire : OnlyOutput wire)
    (hmore : OnItsWay all' done' up' all more) : OnItsWay all' done' up' got (wire ++ more) := by
  induction wire generalizing got with
  | nil =>
    obtain rfl := h.2 hu
    exact hmore
  | cons r rest ih =>
    obtain ⟨⟨stream, data, rfl⟩, hrest⟩ := onlyOutput_cons hwire
    exact ih h hrest

/-- More output is there that the client will not see. -/
theorem OnItsWay.grown (h : OnItsWay all done up got wire) (hwire : OnlyOutput wire)
    (hall : ∀ stream, all stream <+: all' stream) : OnItsWay all' done' False got wire := by
  induction wire generalizing got with
  | nil => exact ⟨fun stream => (h.1 stream).trans (hall stream), False.elim⟩
  | cons r rest ih =>
    obtain ⟨⟨stream, data, rfl⟩, hrest⟩ := onlyOutput_cons hwire
    exact ih h hrest

end OnItsWay

namespace RunRelay

variable {s s' : RunRelay} {a : RelayAct}

/-! ## The threads of the daemon -/

/-- Until `handle_run` returns, what has been written is with the client, in the channel, with
the thread of the stream or in the pipe. -/
structure DaemonInv (s : RunRelay) : Prop where
  whole : s.phase.isOver = false → ∀ stream,
    s.wrote stream = s.all stream ++ (outputOf stream s.channel ++ ((s.readers stream).held ++ s.pipe stream))
  relayed : ∀ stream, s.all stream <+: s.wrote stream
  atEnd : ∀ stream, s.readers stream = .ended true → s.closed stream = true ∧ s.pipe stream = []
  code : ∀ code, s.phase = .draining code → s.exited = some code
  gone : s.phase = .over true → ∀ stream, (s.readers stream).isEnded = true
  drained : s.phase = .over true → ∀ stream, s.readers stream = .ended true → s.all stream = s.wrote stream

theorem outputOf_snoc (stream : RunStream) (channel : List (RunStream × Bytes)) (x : RunStream × Bytes) :
    outputOf stream (channel ++ [x]) = outputOf stream channel ++ if x.1 = stream then x.2 else [] := by
  simp [outputOf]

theorem outputOf_cons (stream : RunStream) (x : RunStream × Bytes) (channel : List (RunStream × Bytes)) :
    outputOf stream (x :: channel) = (if x.1 = stream then x.2 else []) ++ outputOf stream channel := by
  simp [outputOf]

/-- The thread of a pipe goes on. -/
theorem DaemonInv.reader (stream : RunStream) (hi : s.DaemonInv) (hr : (s.readers stream).isEnded = false)
    (hsame : s'.wrote = s.wrote ∧ s'.all = s.all ∧ s'.phase = s.phase ∧ s'.closed = s.closed ∧ s'.exited = s.exited)
    (hother : ∀ stream', stream' ≠ stream → s'.readers stream' = s.readers stream' ∧ s'.pipe stream' = s.pipe stream')
    (hwhole : s.phase.isOver = false → ∀ stream',
      outputOf stream' s'.channel ++ ((s'.readers stream').held ++ s'.pipe stream') =
        outputOf stream' s.channel ++ ((s.readers stream').held ++ s.pipe stream'))
    (hend : s'.readers stream = .ended true → s'.closed stream = true ∧ s'.pipe stream = []) : s'.DaemonInv := by
  obtain ⟨hwrote, hall, hphase, hclosed, hexited⟩ := hsame
  have hover : s'.phase ≠ .over true := by
    intro hp
    rw [hi.gone (hphase.symm.trans hp) stream] at hr
    cases hr
  refine ⟨fun hp stream' => ?_, fun stream' => ?_, fun stream' he => ?_, fun code hp => ?_, fun hp => absurd hp hover,
    fun hp => absurd hp hover⟩
  · rw [hphase] at hp
    rw [hwrote, hall, hwhole hp stream']
    exact hi.whole hp stream'
  · rw [hwrote, hall]
    exact hi.relayed stream'
  · by_cases hs : stream' = stream
    · subst hs
      exact hend he
    · obtain ⟨hreader, hpipe⟩ := hother stream' hs
      rw [hclosed, hpipe]
      exact hi.atEnd stream' (hreader.symm.trans he)
  · rw [hexited]
    exact hi.code code (hphase.symm.trans hp)

/-- `handle_run` returns. -/
theorem DaemonInv.over {drained : Bool} {wire : List Response} {lost : Bool} (hi : s.DaemonInv)
    (hgone : drained = true → (∀ stream, (s.readers stream).isEnded = true) ∧ s.channel = [] ∧ s.phase.isOver = false) :
    ({ s with phase := .over drained, wire, lost } : RunRelay).DaemonInv := by
  refine ⟨fun hp => (by cases hp), hi.relayed, hi.atEnd, fun code hp => (by cases hp), fun hp => ?_, fun hp stream he => ?_⟩
  · obtain rfl : drained = true := RelayPhase.over.inj hp
    exact (hgone rfl).1
  · obtain rfl : drained = true := RelayPhase.over.inj hp
    obtain ⟨-, hc, hover⟩ := hgone rfl
    rw [hi.whole hover stream, hc, show s.readers stream = .ended true from he, (hi.atEnd stream he).2]
    simp [outputOf, OutputReader.held]

theorem DaemonInv.write {stream : RunStream} {data : Bytes} (hi : s.DaemonInv)
    (h : s.step (.write stream data) = some s') : s'.DaemonInv := by
  simp only [RunRelay.step] at h
  split at h
  · cases h
  · rename_i hopen
    cases h
    refine ⟨fun hp stream' => ?_, fun stream' => ?_, fun stream' he => ?_, hi.code, hi.gone, fun hp stream' he => ?_⟩
    · have hw := hi.whole hp stream'
      by_cases hs : stream' = stream
      · subst hs
        simp only [Function.update_self]
        rw [hw]
        simp only [List.append_assoc]
      · simp only [Function.update_of_ne hs]
        exact hw
    · exact (hi.relayed stream').trans (prefix_update s.wrote stream data stream')
    · have hs : stream' ≠ stream := by
        rintro rfl
        exact hopen (hi.atEnd stream' he).1
      simp only [Function.update_of_ne hs]
      exact hi.atEnd stream' he
    · have hs : stream' ≠ stream := by
        rintro rfl
        exact hopen (hi.atEnd stream' he).1
      simp only [Function.update_of_ne hs]
      exact hi.drained hp stream' he

theorem DaemonInv.close {stream : RunStream} (hi : s.DaemonInv)
    (h : s.step (.close stream) = some s') : s'.DaemonInv := by
  cases h
  refine ⟨hi.whole, hi.relayed, fun stream' he => ⟨?_, (hi.atEnd stream' he).2⟩, hi.code, hi.gone, hi.drained⟩
  by_cases hs : stream' = stream
  · subst hs
    exact Function.update_self _ _ _
  · exact (Function.update_of_ne hs _ _).trans (hi.atEnd stream' he).1

theorem DaemonInv.exit {code : Option Int} (hi : s.DaemonInv) (h : s.step (.exit code) = some s') : s'.DaemonInv := by
  simp only [RunRelay.step] at h
  split at h
  · cases h
  · rename_i hnone
    cases h
    refine ⟨hi.whole, hi.relayed, hi.atEnd, fun code' hp => ?_, hi.gone, hi.drained⟩
    rw [hi.code code' hp] at hnone
    exact absurd rfl hnone

theorem DaemonInv.read {stream : RunStream} {n : Nat} (hi : s.DaemonInv)
    (h : s.step (.read stream n) = some s') : s'.DaemonInv := by
  simp only [RunRelay.step] at h
  split at h
  · rename_i hn
    cases h
    refine hi.reader stream (by rw [hn.1]; rfl) ⟨rfl, rfl, rfl, rfl, rfl⟩ (fun stream' hs => ?_) (fun hp stream' => ?_) ?_
    · exact ⟨Function.update_of_ne hs _ _, Function.update_of_ne hs _ _⟩
    · by_cases hs : stream' = stream
      · subst hs
        simp [setReader, hn.1, OutputReader.held]
      · simp [setReader, Function.update_of_ne hs]
    · simp [setReader]
  · cases h

theorem DaemonInv.eof {stream : RunStream} (hi : s.DaemonInv)
    (h : s.step (.eof stream) = some s') : s'.DaemonInv := by
  simp only [RunRelay.step] at h
  split at h
  · rename_i hn
    cases h
    refine hi.reader stream (by rw [hn.1]; rfl) ⟨rfl, rfl, rfl, rfl, rfl⟩ (fun stream' hs => ?_) (fun hp stream' => ?_) ?_
    · exact ⟨Function.update_of_ne hs _ _, rfl⟩
    · by_cases hs : stream' = stream
      · subst hs
        simp [setReader, hn.1, OutputReader.held]
      · simp [setReader, Function.update_of_ne hs]
    · exact fun _ => hn.2
  · cases h

theorem DaemonInv.readFails {stream : RunStream} (hi : s.DaemonInv)
    (h : s.step (.readFails stream) = some s') : s'.DaemonInv := by
  simp only [RunRelay.step] at h
  split at h
  · rename_i hn
    cases h
    refine hi.reader stream (by rw [hn]; rfl) ⟨rfl, rfl, rfl, rfl, rfl⟩ (fun stream' hs => ?_) (fun hp stream' => ?_) ?_
    · exact ⟨Function.update_of_ne hs _ _, rfl⟩
    · by_cases hs : stream' = stream
      · subst hs
        simp [setReader, hn, OutputReader.held]
      · simp [setReader, Function.update_of_ne hs]
    · simp [setReader]
  · cases h

theorem DaemonInv.send {stream : RunStream} (hi : s.DaemonInv)
    (h : s.step (.send stream) = some s') : s'.DaemonInv := by
  simp only [RunRelay.step] at h
  split at h
  · rename_i data hn
    have hr : (s.readers stream).isEnded = false := by rw [hn]; rfl
    split at h
    · rename_i hover
      cases h
      refine hi.reader stream hr ⟨rfl, rfl, rfl, rfl, rfl⟩ (fun stream' hs => ?_) (fun hp => ?_) ?_
      · exact ⟨Function.update_of_ne hs _ _, rfl⟩
      · rw [hp] at hover
        cases hover
      · simp [setReader]
    · cases h
      refine hi.reader stream hr ⟨rfl, rfl, rfl, rfl, rfl⟩ (fun stream' hs => ?_) (fun hp stream' => ?_) ?_
      · exact ⟨Function.update_of_ne hs _ _, rfl⟩
      · by_cases hs : stream' = stream
        · subst hs
          simp [setReader, hn, OutputReader.held, outputOf_snoc]
        · simp [setReader, Function.update_of_ne hs, outputOf_snoc, Ne.symm hs]
      · simp [setReader]
  · cases h

theorem DaemonInv.relay (hi : s.DaemonInv) (h : s.step .relay = some s') : s'.DaemonInv := by
  simp only [RunRelay.step] at h
  split at h
  · rename_i stream data rest hc
    split at h
    · cases h
    · rename_i hover
      cases h
      have hover : s.phase.isOver = false := Bool.eq_false_iff.2 hover
      have hsplit : ∀ stream', s.wrote stream' = Function.update s.all stream (s.all stream ++ data) stream' ++
          (outputOf stream' rest ++ ((s.readers stream').held ++ s.pipe stream')) := by
        intro stream'
        rw [hi.whole hover stream', hc, outputOf_cons]
        by_cases hs : stream' = stream
        · subst hs
          simp
        · simp [Function.update_of_ne hs, Ne.symm hs]
      refine ⟨fun _ => hsplit, fun stream' => ⟨_, (hsplit stream').symm⟩, hi.atEnd, hi.code, fun hp => ?_, fun hp => ?_⟩
      · exact hi.gone hp
      · have hp : s.phase = .over true := hp
        rw [hp] at hover
        cases hover
  · cases h

theorem DaemonInv.tryWait (hi : s.DaemonInv) (h : s.step .tryWait = some s') : s'.DaemonInv := by
  simp only [RunRelay.step] at h
  split at h
  · rename_i code hp he
    cases h
    refine ⟨fun _ => hi.whole (by rw [hp]; rfl), hi.relayed, hi.atEnd, fun code' hc => ?_, fun hc => ?_, fun hc => ?_⟩
    · cases hc
      exact he
    · cases hc
    · cases hc
  · cases h

theorem DaemonInv.waitFails {e : MobfsError} (hi : s.DaemonInv)
    (h : s.step (.waitFails e) = some s') : s'.DaemonInv := by
  simp only [RunRelay.step] at h
  split at h
  · cases h
    exact hi.over (fun hd => by cases hd)
  · cases h

theorem DaemonInv.disconnected (hi : s.DaemonInv) (h : s.step .disconnected = some s') : s'.DaemonInv := by
  simp only [RunRelay.step] at h
  split at h
  · rename_i code hp hc
    split at h
    · rename_i hgone
      cases h
      rw [Bool.and_eq_true] at hgone
      refine hi.over (fun _ => ⟨fun stream => ?_, hc, by rw [hp]; rfl⟩)
      cases stream
      · exact hgone.1
      · exact hgone.2
    · cases h
  · cases h

theorem DaemonInv.timeout (hi : s.DaemonInv) (h : s.step .timeout = some s') : s'.DaemonInv := by
  simp only [RunRelay.step] at h
  split at h
  · cases h
    exact hi.over (fun hd => by cases hd)
  · cases h

theorem DaemonInv.writeFails (hi : s.DaemonInv) (h : s.step .writeFails = some s') : s'.DaemonInv := by
  simp only [RunRelay.step] at h
  split at h
  · cases h
  · cases h
    exact hi.over (fun hd => by cases hd)

theorem DaemonInv.clientReads (hi : s.DaemonInv) (h : s.step .clientReads = some s') : s'.DaemonInv := by
  simp only [RunRelay.step] at h
  split at h
  · cases h
    exact ⟨hi.whole, hi.relayed, hi.atEnd, hi.code, hi.gone, hi.drained⟩
  · cases h

theorem DaemonInv.clientFails {e : MobfsError} (hi : s.DaemonInv)
    (h : s.step (.clientFails e) = some s') : s'.DaemonInv := by
  simp only [RunRelay.step] at h
  split at h
  · cases h
    exact ⟨hi.whole, hi.relayed, hi.atEnd, hi.code, hi.gone, hi.drained⟩
  · cases h

theorem DaemonInv.step (hi : s.DaemonInv) (h : s.step a = some s') : s'.DaemonInv := by
  cases a with
  | write stream data => exact hi.write h
  | close stream => exact hi.close h
  | exit code => exact hi.exit h
  | read stream n => exact hi.read h
  | eof stream => exact hi.eof h
  | readFails stream => exact hi.readFails h
  | send stream => exact hi.send h
  | relay => exact hi.relay h
  | tryWait => exact hi.tryWait h
  | waitFails e => exact hi.waitFails h
  | disconnected => exact hi.disconnected h
  | timeout => exact hi.timeout h
  | writeFails => exact hi.writeFails h
  | breaks n =>
    cases h
    exact ⟨hi.whole, hi.relayed, hi.atEnd, hi.code, hi.gone, hi.drained⟩
  | clientReads => exact hi.clientReads h
  | clientFails e => exact hi.clientFails h

/-! ## The client -/

/-- Nothing but output is written before `handle_run` returns. -/
structure ClientInv (s : RunRelay) : Prop where
  output : s.phase.isOver = false → OnlyOutput s.wire
  reading : ∀ stdout stderr, s.client = .reading stdout stderr →
    OnItsWay s.all (fun code => s.exited = some code ∧ s.phase.isOver = true) (s.lost = false) (both stdout stderr) s.wire
  returned : ∀ code stdout stderr, s.client = .returned (.ok (code, stdout, stderr)) →
    s.exited = some code ∧ s.phase.isOver = true ∧ both stdout stderr = s.all

theorem both_stdout (stdout stderr data : Bytes) :
    Function.update (both stdout stderr) .stdout (both stdout stderr .stdout ++ data) = both (stdout ++ data) stderr := by
  funext stream
  cases stream <;> rfl

theorem both_stderr (stdout stderr data : Bytes) :
    Function.update (both stdout stderr) .stderr (both stdout stderr .stderr ++ data) = both stdout (stderr ++ data) := by
  funext stream
  cases stream <;> rfl

/-- The daemon takes a step that neither relays output nor writes to the client. -/
theorem ClientInv.same (hi : s.ClientInv) (hclient : s'.client = s.client ∧ s'.wire = s.wire ∧ s'.all = s.all)
    (hexited : ∀ code, s.exited = some code → s'.exited = some code)
    (hphase : s.phase.isOver = true → s'.phase.isOver = true) (hlost : s'.lost = false → s.lost = false) :
    s'.ClientInv := by
  obtain ⟨hclient, hwire, hall⟩ := hclient
  refine ⟨fun hp => ?_, fun stdout stderr hc => ?_, fun code stdout stderr hc => ?_⟩
  · rw [hwire]
    apply hi.output
    rw [Bool.eq_false_iff] at hp ⊢
    exact fun ho => hp (hphase ho)
  · rw [hall, hwire]
    exact (hi.reading stdout stderr (hclient ▸ hc)).mono (fun code hd => ⟨hexited code hd.1, hphase hd.2⟩) hlost
  · obtain ⟨he, hp, hb⟩ := hi.returned code stdout stderr (hclient ▸ hc)
    exact ⟨hexited code he, hphase hp, hb.trans hall.symm⟩

/-- The daemon writes a frame, or would if the connection were there. -/
theorem ClientInv.writes {r : Response} (hi : s.ClientInv) (hover : s.phase.isOver = false)
    (hsame : s'.client = s.client ∧ s'.wire = (s.frame r).wire ∧ s'.lost = s.lost)
    (hall : ∀ stream, s.all stream <+: s'.all stream)
    (hlast : s'.phase.isOver = false → ∃ stream data, r = .runOutput stream data)
    (hmore : OnItsWay s'.all (fun code => s'.exited = some code ∧ s'.phase.isOver = true) (s'.lost = false) s.all [r]) :
    s'.ClientInv := by
  obtain ⟨hclient, hwire, hlost⟩ := hsame
  refine ⟨fun hp => ?_, fun stdout stderr hc => ?_, fun code stdout stderr hc => ?_⟩
  · rw [hwire, frame]
    split
    · exact hi.output hover
    · intro x hx
      rcases List.mem_append.1 hx with hx | hx
      · exact hi.output hover x hx
      · rw [List.mem_singleton.1 hx]
        exact hlast hp
  · have hr := hi.reading stdout stderr (hclient ▸ hc)
    rw [hwire, frame]
    split
    · rename_i hl
      refine (hr.grown (hi.output hover) hall).mono (fun _ => id) fun hn => ?_
      rw [hlost, hl] at hn
      cases hn
    · rename_i hl
      exact hr.append (Bool.eq_false_iff.2 hl) (hi.output hover) hmore
  · obtain ⟨-, hp, -⟩ := hi.returned code stdout stderr (hclient ▸ hc)
    rw [hover] at hp
    cases hp

theorem ClientInv.finish {code : Option Int} {drained : Bool} (hi : s.ClientInv) (hover : s.phase.isOver = false)
    (he : s.exited = some code) : (s.finish code drained).ClientInv := by
  refine hi.writes hover ⟨rfl, rfl, rfl⟩ (fun _ => List.prefix_rfl) (fun hp => by cases hp) ?_
  exact ⟨⟨he, rfl⟩, rfl⟩

theorem ClientInv.exit {code : Option Int} (hi : s.ClientInv) (h : s.step (.exit code) = some s') : s'.ClientInv := by
  simp only [RunRelay.step] at h
  split at h
  · cases h
  · rename_i hnone
    cases h
    refine hi.same ⟨rfl, rfl, rfl⟩ (fun code' he => ?_) id id
    rw [he] at hnone
    exact absurd rfl hnone

theorem ClientInv.send {stream : RunStream} (hi : s.ClientInv)
    (h : s.step (.send stream) = some s') : s'.ClientInv := by
  simp only [RunRelay.step] at h
  split at h
  · split at h
    · cases h
      exact hi.same ⟨rfl, rfl, rfl⟩ (fun _ => id) id id
    · cases h
      exact hi.same ⟨rfl, rfl, rfl⟩ (fun _ => id) id id
  · cases h

theorem ClientInv.relay (hi : s.ClientInv) (h : s.step .relay = some s') : s'.ClientInv := by
  simp only [RunRelay.step] at h
  split at h
  · rename_i stream data rest hc
    split at h
    · cases h
    · rename_i hover
      cases h
      refine hi.writes (r := .runOutput stream data) (Bool.eq_false_iff.2 hover) ⟨rfl, rfl, rfl⟩
        (prefix_update s.all stream data)
        (fun _ => ⟨stream, data, rfl⟩) ?_
      exact ⟨fun _ => List.prefix_rfl, fun _ => rfl⟩
  · cases h

theorem ClientInv.tryWait (hi : s.ClientInv) (h : s.step .tryWait = some s') : s'.ClientInv := by
  simp only [RunRelay.step] at h
  split at h
  · rename_i code hp he
    cases h
    refine hi.same ⟨rfl, rfl, rfl⟩ (fun _ => id) (fun hover => ?_) id
    rw [hp] at hover
    cases hover
  · cases h

theorem ClientInv.waitFails {e : MobfsError} (hi : s.ClientInv)
    (h : s.step (.waitFails e) = some s') : s'.ClientInv := by
  simp only [RunRelay.step] at h
  split at h
  · rename_i hp
    cases h
    refine hi.writes (r := .error e.text) (by rw [hp]; rfl) ⟨rfl, rfl, rfl⟩ (fun _ => List.prefix_rfl)
      (fun hp => by cases hp) ?_
    exact fun _ => List.prefix_rfl
  · cases h

theorem ClientInv.disconnected (hi : s.ClientInv) (hd : s.DaemonInv)
    (h : s.step .disconnected = some s') : s'.ClientInv := by
  simp only [RunRelay.step] at h
  split at h
  · rename_i code hp hc
    split at h
    · cases h
      exact hi.finish (by rw [hp]; rfl) (hd.code code hp)
    · cases h
  · cases h

theorem ClientInv.clientReads (hi : s.ClientInv) (h : s.step .clientReads = some s') : s'.ClientInv := by
  simp only [RunRelay.step] at h
  split at h
  · rename_i stdout stderr r rest hc hw
    cases h
    have hr := hi.reading stdout stderr hc
    rw [hw] at hr
    refine ⟨fun hp => ?_, fun out err hread => ?_, fun code out err hret => ?_⟩
    · have ho := hi.output hp
      rw [hw] at ho
      exact (onlyOutput_cons ho).2
    · cases r with
      | runOutput stream data =>
        cases stream with
        | stdout =>
          cases hread
          rw [← both_stdout]
          exact hr
        | stderr =>
          cases hread
          rw [← both_stderr]
          exact hr
      | _ => cases hread
    · cases r with
      | runOutput stream data => cases stream <;> cases hret
      | runResult code' out' err' =>
        cases hret
        exact ⟨hr.1.1, hr.1.2, hr.2⟩
      | _ => cases hret
  · cases h

theorem ClientInv.step (hi : s.ClientInv) (hd : s.DaemonInv) (h : s.step a = some s') : s'.ClientInv := by
  cases a with
  | write stream data =>
    simp only [RunRelay.step] at h
    split at h
    · cases h
    · cases h
      exact hi.same ⟨rfl, rfl, rfl⟩ (fun _ => id) id id
  | close stream =>
    cases h
    exact hi.same ⟨rfl, rfl, rfl⟩ (fun _ => id) id id
  | exit code => exact hi.exit h
  | read stream n =>
    simp only [RunRelay.step] at h
    split at h
    · cases h
      exact hi.same ⟨rfl, rfl, rfl⟩ (fun _ => id) id id
    · cases h
  | eof stream =>
    simp only [RunRelay.step] at h
    split at h
    · cases h
      exact hi.same ⟨rfl, rfl, rfl⟩ (fun _ => id) id id
    · cases h
  | readFails stream =>
    simp only [RunRelay.step] at h
    split at h
    · cases h
      exact hi.same ⟨rfl, rfl, rfl⟩ (fun _ => id) id id
    · cases h
  | send stream => exact hi.send h
  | relay => exact hi.relay h
  | tryWait => exact hi.tryWait h
  | waitFails e => exact hi.waitFails h
  | disconnected => exact hi.disconnected hd h
  | timeout =>
    simp only [RunRelay.step] at h
    split at h
    · rename_i code hp hc
      cases h
      exact hi.finish (by rw [hp]; rfl) (hd.code code hp)
    · cases h
  | writeFails =>
    simp only [RunRelay.step] at h
    split at h
    · cases h
    · cases h
      exact hi.same ⟨rfl, rfl, rfl⟩ (fun _ => id) (fun _ => rfl) (fun hl => by cases hl)
  | breaks n =>
    cases h
    refine ⟨fun hp r hr => hi.output hp r (List.mem_of_mem_take hr), fun stdout stderr hc => ?_, hi.returned⟩
    exact ((hi.reading stdout stderr hc).take n).mono (fun _ => id) (fun hl => by cases hl)
  | clientReads => exact hi.clientReads h
  | clientFails e =>
    simp only [RunRelay.step] at h
    split at h
    · cases h
      exact ⟨hi.output, fun out err hc => (by cases hc), fun code out err hc => (by cases hc)⟩
    · cases h

/-! ## What `run` returns -/

theorem start_inv : start.DaemonInv ∧ start.ClientInv := by
  refine ⟨⟨fun _ _ => rfl, fun _ => List.prefix_rfl, fun stream he => ?_, fun code hp => ?_, fun hp => ?_, fun hp => ?_⟩,
    ⟨fun _ r hr => ?_, fun stdout stderr hc => ?_, fun code stdout stderr hc => ?_⟩⟩
  · cases he
  · cases hp
  · cases hp
  · cases hp
  · cases hr
  · cases hc
    refine ⟨fun stream => ?_, fun _ => ?_⟩
    · cases stream <;> exact List.prefix_rfl
    · funext stream
      cases stream <;> rfl
  · cases hc

/-- In every order of the steps of the command, of the threads of the daemon and of the
client: the client has what the command has written up to some point, each stream in its
order. With the result it has the exit code, and all that was written on a stream, if the
loop did not end by the timeout and the thread of the stream came to the end of its pipe. -/
theorem run_returns_output (acts : List RelayAct) (s : RunRelay) (h : exec step start acts = some s) :
    (∀ stdout stderr, s.client = .reading stdout stderr → ∀ stream, both stdout stderr stream <+: s.wrote stream) ∧
    ∀ code stdout stderr, s.client = .returned (.ok (code, stdout, stderr)) →
      s.exited = some code ∧ (∀ stream, both stdout stderr stream <+: s.wrote stream) ∧
        (s.phase = .over true → ∀ stream, s.readers stream = .ended true → both stdout stderr stream = s.wrote stream) := by
  obtain ⟨hd, hc⟩ : s.DaemonInv ∧ s.ClientInv :=
    exec_inv (fun s => s.DaemonInv ∧ s.ClientInv) (fun _ _ _ hi hs => ⟨hi.1.step hs, hi.2.step hi.1 hs⟩) start_inv h
  refine ⟨fun stdout stderr hr stream => ?_, fun code stdout stderr hr => ?_⟩
  · exact ((hc.reading stdout stderr hr).got_le stream).trans (hd.relayed stream)
  · obtain ⟨he, -, hb⟩ := hc.returned code stdout stderr hr
    rw [hb]
    exact ⟨he, hd.relayed, hd.drained⟩

/-- A thread that takes longer than 10 ms to send is too late. -/
example : (exec step start [.write .stdout [1], .read .stdout 1, .exit (some 0), .tryWait, .timeout, .send .stdout,
    .clientReads]).any (fun s => s.phase = .over false && s.wrote .stdout = [1] && s.wire.isEmpty) = true := by decide

/-- Both streams are written, and the connection carries all of it. -/
def wholeOutput : List RelayAct :=
  [.write .stdout [1, 2], .write .stderr [3], .read .stdout 2, .read .stderr 1, .send .stderr, .relay, .write .stdout [4],
    .close .stdout, .close .stderr, .exit (some 0), .tryWait, .clientReads, .send .stdout, .read .stdout 1, .eof .stderr,
    .relay,
    .send .stdout, .relay, .eof .stdout, .disconnected, .clientReads, .clientReads, .clientReads]

def returns (s : RunRelay) : Bool :=
  match s.client with
  | .returned (.ok (code, stdout, stderr)) => code = some 0 && stdout = [1, 2, 4] && stderr = [3]
  | _ => false

theorem run_returns_output_whole : ∃ s, exec step start wholeOutput = some s ∧ s.returns = true ∧
    ∀ code stdout stderr, s.client = .returned (.ok (code, stdout, stderr)) →
      ∀ stream, both stdout stderr stream = s.wrote stream := by
  have hrun : (exec step start wholeOutput).any fun s =>
      s.returns && decide (s.phase = .over true) && decide (s.readers .stdout = .ended true) &&
        decide (s.readers .stderr = .ended true) := by
    decide
  obtain ⟨s, hs, hrun⟩ := (Option.any_eq_true _ _).1 hrun
  simp only [Bool.and_eq_true, decide_eq_true_eq] at hrun
  obtain ⟨⟨⟨hret, hover⟩, hout⟩, herr⟩ := hrun
  refine ⟨s, hs, hret, fun code stdout stderr hc stream => ?_⟩
  refine ((run_returns_output wholeOutput s hs).2 code stdout stderr hc).2.2 hover stream ?_
  cases stream
  · exact hout
  · exact herr

end RunRelay

end Mobfs
