import Mobfs.Vfs.Places
/-!
# What the threads do is moves

`step_cases` says what a step can do, and `step_places` that it is a list of moves of
`Places`. The rest is about programs: `after` is what an instruction leaves to do,
`step_threads` says which thread a step belongs to, and `step_thread` what it leaves
of the program of one thread.
-/

namespace Mobfs

open Lib Std

/-- The chunk a thread has taken out of a buffer and not yet registered. -/
def holds : List Instr → Option (Nat × Pending)
  | .resolve fh c :: _ => some (fh, c)
  | .register fh c :: _ => some (fh, c)
  | _ => none

/-- The state without its threads. -/
def WriteBack.places (s : WriteBack) : Places :=
  { buf := fun fh => s.buffers[fh]?, hold := fun t => holds (s.threads t), fly := s.inflight, next := s.next,
    errors := s.errors, taken := s.taken, remote := s.remote, written := s.written, uploaded := s.uploaded,
    place := s.place }

/-! ## Steps of the threads are moves -/

def Instr.holding : Instr → Bool
  | .resolve .. => true
  | .register .. => true
  | _ => false

/-- An instruction that another one may leave to do. -/
def Instr.inner : Instr → Bool
  | .takeError _ => true
  | .wrote _ => true
  | .take _ => true
  | .resolve .. => true
  | .register .. => true
  | .waitMatching _ => true
  | .waitAll => true
  | _ => false

/-- A chunk is dealt with before anything else. -/
def Tidy (prog : List Instr) : Prop := ∀ i ∈ prog.tail, i.holding = false

theorem holds_eq_none {prog : List Instr} (h : ∀ i ∈ prog, i.holding = false) : holds prog = none := by
  cases prog with
  | nil => rfl
  | cons i prog =>
    have hi := h i List.mem_cons_self
    cases i <;> first | rfl | cases hi

theorem holds_cons_eq_none {i : Instr} {prog : List Instr} (h : i.holding = false) : holds (i :: prog) = none := by
  cases i <;> first | rfl | cases h

namespace WriteBack

variable {s s' : WriteBack}

/-- The moves an instruction makes. -/
def instrMoves (s : WriteBack) (t : Nat) : Instr → List Move
  | .takeError fh => if s.errors fh = none then [] else [.takeError fh]
  | .buffer fh ino path offset data =>
    let p : Part := ⟨s.written.length, fh, path, offset, data⟩
    match s.buffers[fh]? with
    | none => [.accept ino p]
    | some c =>
      if c.ino = ino ∧ p.offset = c.offset + c.data.length ∧ c.data.length + p.data.length ≤ writeBufferLimit then
        [.extend ino p]
      else [.take t fh, .accept ino p]
  | .take fh => if s.buffers[fh]?.isSome then [.take t fh] else []
  | .resolve _ c => [.resolve t ((s.inodes c.ino).getD c.path)]
  | .register _ _ => [.register t]
  | _ => []

def moves (s : WriteBack) : WriteBackAct → List Move
  | .run t =>
    match s.threads t with
    | [] => []
    | i :: _ => s.instrMoves t i
  | .upload id => [.upload id]
  | .uploadFails id e n => [.fail id e n]
  | .complete id => [.complete id]
  | _ => []

theorem places_goOn (s : WriteBack) (t : Nat) (prog : List Instr) :
    (s.goOn t prog).places = { s.places with hold := Function.update s.places.hold t (holds prog) } := by
  have hhold : (fun t' => holds ((s.goOn t prog).threads t')) = Function.update s.places.hold t (holds prog) := by
    funext t'
    by_cases h : t' = t
    · subst h
      simp [goOn]
    · simp [goOn, places, h]
  simp only [places] at hhold ⊢
  rw [hhold]
  rfl

/-- A thread that goes on without a chunk, as it was without one. -/
theorem places_goOn_none {t : Nat} {prog : List Instr} (h : holds (s.threads t) = none) (h' : holds prog = none) :
    (s.goOn t prog).places = s.places := by
  rw [places_goOn, h']
  have : Function.update s.places.hold t none = s.places.hold := Function.update_eq_self_iff.2 h.symm
  rw [this]

theorem get?_insert_eq_update (m : ExtTreeMap Nat Pending) (fh : Nat) (c : Pending) :
    (fun k => (m.insert fh c)[k]?) = Function.update (fun k => m[k]?) fh (some c) := by
  funext k
  rw [get?_insert, Function.update_apply]

theorem get?_erase_eq_update (m : ExtTreeMap Nat Pending) (fh : Nat) :
    (fun k => (m.erase fh)[k]?) = Function.update (fun k => m[k]?) fh none := by
  funext k
  rw [get?_erase, Function.update_apply]

theorem bufferWrite_places {t : Nat} {rest : List Instr} {ino : Nat} {p : Part} (hid : p.id = s.written.length)
    (hh : holds (s.threads t) = none) :
    exec Places.step s.places (s.instrMoves t (.buffer p.fh ino p.path p.offset p.data)) =
      some (s.bufferWrite t rest ino p).places := by
  have hp : (⟨s.written.length, p.fh, p.path, p.offset, p.data⟩ : Part) = p := by rw [← hid]
  simp only [instrMoves, hp, bufferWrite]
  cases hb : s.buffers[p.fh]? with
  | none =>
    rw [places_goOn_none (by exact hh) rfl]
    simp only [exec, Places.step, places, hb, hid, and_self, if_true, Option.bind_some, move, get?_insert_eq_update]
    rfl
  | some c =>
    simp only
    split
    · rename_i hc
      rw [places_goOn_none (by exact hh) rfl]
      simp only [exec, Places.step, places, hb, hid, hc, and_self, if_true, dite_true, Option.bind_some, move,
        get?_insert_eq_update]
      rfl
    · rw [places_goOn]
      simp only [exec, Places.step, places, hb, hh, Option.bind_some, Function.update_self, hid, and_self, if_true,
        Function.update_idem, move, get?_insert_eq_update]
      rfl

/-- The programs of the calls. -/
inductive Programs (s : WriteBack) : VfsCall → List Instr → Prop where
  | write (ino fh offset : Nat) (data : Bytes) (path : String) (hpath : s.inodes ino = some path) :
      Programs s (.write ino fh offset data) [.takeError fh, .buffer fh ino path offset data]
  | flush (fh : Nat) :
      Programs s (.flush fh) [.take fh, .waitFh fh, .takeError fh, .flushed fh (s.returned.filter (·.fh = fh))]
  | fsync (ino fh : Nat) (path : String) :
      Programs s (.fsync ino fh) [.take fh, .waitFh fh, .takeError fh, .flushed fh (s.returned.filter (·.fh = fh)),
        .collect path, .matched path (s.writtenTo path), .remoteFsync path]
  | read (ino : Nat) (path : String) : Programs s (.read ino) [.collect path, .matched path (s.writtenTo path)]
  | setattr (ino : Nat) (path : String) : Programs s (.setattr ino) [.collect path, .matched path (s.writtenTo path)]
  | flushIdle (fhs : List Nat) : Programs s (.flushIdle fhs) (fhs.map .take)
  | flushAllBuffers : Programs s .flushAllBuffers [.collectAll]

theorem programs_of_program {ignore : List String} {c : VfsCall} {prog : List Instr} (h : s.program ignore c = some prog) :
    s.Programs c prog := by
  cases c <;> simp only [program] at h
  case flush | flushIdle | flushAllBuffers =>
    cases h
    constructor
  all_goals
    split at h
    · cases h
    · split at h
      · cases h
      · cases h
        constructor
        try assumption

/-- A call starts without a chunk, and no write has returned. -/
theorem program_fresh {ignore : List String} {c : VfsCall} {prog : List Instr}
    (h : s.program ignore c = some prog) : ∀ i ∈ prog, i.holding = false ∧ ∀ p, i ≠ .wrote p := by
  cases programs_of_program h <;> simp [Instr.holding]

theorem program_buffer {ignore : List String} {c : VfsCall} {prog : List Instr} {fh ino : Nat} {path : String} {offset : Nat} {data : Bytes}
    (h : s.program ignore c = some prog) (hm : .buffer fh ino path offset data ∈ prog) : s.inodes ino = some path := by
  cases programs_of_program h with
  | write ino' fh' offset' data' path' hpath =>
    obtain ⟨-, rfl, rfl, -, -⟩ : fh = fh' ∧ ino = ino' ∧ path = path' ∧ offset = offset' ∧ data = data' := by simpa using hm
    exact hpath
  | _ => simp at hm

theorem exec1_places {t : Nat} {i : Instr} {rest : List Instr} (hprog : s.threads t = i :: rest)
    (hrest : ∀ j ∈ rest, j.holding = false) (h : s.exec1 t rest i = some s') :
    exec Places.step s.places (s.instrMoves t i) = some s'.places := by
  have hr : holds rest = none := holds_eq_none hrest
  have hh : i.holding = false → holds (s.threads t) = none := fun hi => by rw [hprog]; exact holds_cons_eq_none hi
  cases i <;> simp only [exec1] at h
  case takeError fh =>
    simp only [instrMoves]
    split at h
    · rename_i he
      cases h
      rw [if_pos he, places_goOn_none (hh rfl) hr]
      rfl
    · rename_i e he
      cases h
      rw [if_neg (by simp [he]), places_goOn_none (by exact hh rfl) rfl]
      rfl
  case buffer fh ino path offset data =>
    cases h
    exact bufferWrite_places (p := ⟨s.written.length, fh, path, offset, data⟩) rfl (hh rfl)
  case take fh =>
    simp only [instrMoves]
    split at h
    · rename_i hb
      cases h
      rw [places_goOn_none (hh rfl) hr, hb]
      rfl
    · rename_i c hb
      cases h
      rw [places_goOn]
      simp only [hb, Option.isSome_some, if_true, exec, Places.step, places, hh rfl, Option.bind_some, move,
        get?_erase_eq_update]
      rfl
  case resolve fh c =>
    cases h
    rw [places_goOn]
    have hheld : s.places.hold t = some (fh, c) := by simp [places, hprog, holds]
    simp only [instrMoves, exec, Places.step, hheld, Option.bind_some]
    rfl
  case register fh c =>
    split at h
    · cases h
    · rename_i hno
      cases h
      have hheld : s.places.hold t = some (fh, c) := by simp [places, hprog, holds]
      have hov : s.places.overlapping c = false := by
        have : s.overlapping c = false := by simp_all
        exact this
      rw [places_goOn, hr]
      simp only [instrMoves, exec, Places.step, hheld, hov, Bool.false_eq_true, if_false, Option.bind_some]
      rfl
  case collect path =>
    cases h
    rw [places_goOn_none (hh rfl)]
    · rfl
    · apply holds_eq_none
      simp only [List.mem_append, List.mem_map, List.mem_cons]
      rintro j ((⟨fh, -, rfl⟩ | rfl | ⟨fh, -, rfl⟩) | hj)
      · rfl
      · rfl
      · rfl
      · exact hrest j hj
  case collectAll =>
    cases h
    rw [places_goOn_none (hh rfl)]
    · rfl
    · apply holds_eq_none
      simp only [List.mem_append, List.mem_map, List.mem_cons]
      rintro j (⟨fh, -, rfl⟩ | rfl | hj)
      · rfl
      · rfl
      · exact hrest j hj
  all_goals
    try split at h
    all_goals
      cases h <;> exact congrArg some (places_goOn_none (by exact hh rfl) hr).symm

/-- What a step can do: a call starts, a thread carries out its next instruction, or a
worker uploads, fails to, or takes its upload off. -/
inductive Steps (ignore : List String) (s : WriteBack) : WriteBackAct → WriteBack → Prop
  | call {t : Nat} {c : VfsCall} {prog : List Instr} (hidle : s.threads t = []) (hprog : s.program ignore c = some prog) :
      Steps ignore s (.call t c) (s.goOn t prog)
  | run {t : Nat} {i : Instr} {rest : List Instr} {s' : WriteBack} (hprog : s.threads t = i :: rest)
      (he : s.exec1 t rest i = some s') : Steps ignore s (.run t) s'
  | upload {id : Nat} {u : Upload} (hu : s.inflight.find? (·.id = id) = some u) (hq : u.state = .queued) :
      Steps ignore s (.upload id)
        (({ s.writeRemote u.pending.path u.pending.offset u.pending.data with
          uploaded := s.uploaded ++ [u.pending] }.setState id .written).move u.pending.parts .applied)
  | uploadFails {id n : Nat} {e : Errno} {u : Upload} (hu : s.inflight.find? (·.id = id) = some u)
      (hq : u.state = .queued) :
      Steps ignore s (.uploadFails id e n)
        ((s.writeRemote u.pending.path u.pending.offset (u.pending.data.take n)).setState id (.failed e))
  | completeWritten {id : Nat} {u : Upload} (hu : s.inflight.find? (·.id = id) = some u) (hw : u.state = .written) :
      Steps ignore s (.complete id)
        { s with inflight := s.inflight.filter (·.id ≠ id), bytes := s.bytes - u.pending.data.length }
  | completeFailed {id : Nat} {u : Upload} {e : Errno} (hu : s.inflight.find? (·.id = id) = some u)
      (hf : u.state = .failed e) :
      Steps ignore s (.complete id)
        ({ s with
          inflight := s.inflight.filter (·.id ≠ id)
          bytes := s.bytes - u.pending.data.length
          errors := Function.update s.errors u.fh (some e) }.move u.pending.parts .lost)
  | setInodes {inodes : Nat → Option String} : Steps ignore s (.setInodes inodes) { s with inodes }

theorem step_cases {ignore : List String} {a : WriteBackAct} (h : s.step ignore a = some s') :
    Steps ignore s a s' := by
  unfold step at h
  split at h
  · split at h
    · obtain ⟨prog, hprog, rfl⟩ := Option.map_eq_some_iff.1 h
      exact .call ‹_› hprog
    · cases h
  · split at h
    · cases h
    · exact .run ‹_› h
  · split at h
    · split at h
      · cases h
        exact .upload ‹_› ‹_›
      · cases h
    · cases h
  · split at h
    · split at h
      · cases h
        exact .uploadFails ‹_› ‹_›
      · cases h
    · cases h
  · split at h
    · dsimp only at h
      split at h
      · cases h
      · cases h
        exact .completeWritten ‹_› ‹_›
      · cases h
        exact .completeFailed ‹_› ‹_›
    · cases h
  · cases h
    exact .setInodes

/-- A step of the threads is a list of moves. -/
theorem step_places {ignore : List String} {a : WriteBackAct} (htidy : ∀ t, Tidy (s.threads t))
    (h : s.step ignore a = some s') : exec Places.step s.places (s.moves a) = some s'.places := by
  have hfly : ∀ {id u}, s.inflight.find? (·.id = id) = some u → s.places.fly.find? (·.id = id) = some u := id
  cases step_cases h with
  | call hidle hprog =>
    rw [places_goOn_none (by rw [hidle]; rfl)]
    · rfl
    · exact holds_eq_none fun i hi => (program_fresh hprog i hi).1
  | @run t i rest _ hprog he =>
    simp only [moves, hprog]
    exact exec1_places hprog (fun j hj => htidy t j (by rw [hprog]; exact hj)) he
  | upload hu hq =>
    simp only [moves, exec, Places.step, hfly hu, hq, if_true, Option.bind_some]
    rfl
  | uploadFails hu hq =>
    simp only [moves, exec, Places.step, hfly hu, hq, if_true, Option.bind_some]
    rfl
  | completeWritten hu hw =>
    simp only [moves, exec, Places.step, hfly hu, hw]
    rfl
  | completeFailed hu hf =>
    simp only [moves, exec, Places.step, hfly hu, hf]
    rfl
  | setInodes => rfl

/-! ## What a step does to the threads -/

/-- What is left of a program after an instruction of it. -/
def after (s : WriteBack) (rest : List Instr) : Instr → List Instr
  | .takeError fh => if s.errors fh = none then rest else []
  | .buffer fh ino path offset data =>
    let p : Part := ⟨s.written.length, fh, path, offset, data⟩
    match s.buffers[fh]? with
    | none => .wrote p :: rest
    | some c =>
      if c.ino = ino ∧ p.offset = c.offset + c.data.length ∧ c.data.length + p.data.length ≤ writeBufferLimit then
        .wrote p :: rest
      else .resolve fh c :: .wrote p :: rest
  | .take fh =>
    match s.buffers[fh]? with
    | none => rest
    | some c => .resolve fh c :: rest
  | .resolve fh c => .register fh { c with path := (s.inodes c.ino).getD c.path } :: rest
  | .collect path =>
    (s.matchingHandles path).map .take ++ .waitMatching path :: (s.matchingHandles path).map .takeError ++ rest
  | .collectAll => s.buffers.keys.map .take ++ .waitAll :: rest
  | _ => rest

/-- A program goes on with some inner instructions, or it ends with an error. -/
theorem after_append (s : WriteBack) (i : Instr) (rest : List Instr) :
    (s.after rest i = [] ∧ ∃ fh, i = .takeError fh ∧ s.errors fh ≠ none) ∨
    ∃ new, s.after rest i = new ++ rest ∧ ∀ j ∈ new, j.inner = true := by
  cases i <;> simp only [after]
  case takeError fh =>
    split
    · exact .inr ⟨[], rfl, by simp⟩
    · exact .inl ⟨rfl, fh, rfl, ‹_›⟩
  case buffer fh ino path offset data =>
    right
    split
    · exact ⟨[_], rfl, by simp [Instr.inner]⟩
    · split
      · exact ⟨[_], rfl, by simp [Instr.inner]⟩
      · exact ⟨[_, _], rfl, by simp [Instr.inner]⟩
  case take fh =>
    right
    split
    · exact ⟨[], rfl, by simp⟩
    · exact ⟨[_], rfl, by simp [Instr.inner]⟩
  case resolve fh c => exact .inr ⟨[_], rfl, by simp [Instr.inner]⟩
  case collect path =>
    refine .inr ⟨_, rfl, ?_⟩
    simp only [List.mem_append, List.mem_map, List.mem_cons]
    rintro j (⟨fh, -, rfl⟩ | rfl | ⟨fh, -, rfl⟩) <;> rfl
  case collectAll =>
    refine .inr ⟨s.buffers.keys.map .take ++ [.waitAll], by simp, ?_⟩
    simp only [List.mem_append, List.mem_map, List.mem_singleton]
    rintro j (⟨fh, -, rfl⟩ | rfl) <;> rfl
  all_goals exact .inr ⟨[], rfl, by simp⟩

theorem mem_after {i j : Instr} {rest : List Instr} (hj : j.inner = false) (h : j ∈ s.after rest i) : j ∈ rest := by
  rcases s.after_append i rest with ⟨he, -⟩ | ⟨new, he, hnew⟩
  · rw [he] at h
    cases h
  · rw [he] at h
    rcases List.mem_append.1 h with h | h
    · rw [hnew j h] at hj
      cases hj
    · exact h

theorem exec1_threads {t : Nat} {i : Instr} {rest : List Instr} (h : s.exec1 t rest i = some s') :
    s'.threads = Function.update s.threads t (s.after rest i) := by
  cases i <;> simp only [exec1] at h
  case takeError fh =>
    simp only [after]
    split at h
    · cases h
      rw [if_pos ‹_›]
      rfl
    · rename_i e he
      cases h
      rw [if_neg (by simp [he])]
      rfl
  case buffer fh ino path offset data =>
    cases h
    simp only [after, bufferWrite]
    cases hb : s.buffers[fh]? with
    | none => rfl
    | some c =>
      by_cases hc : c.ino = ino ∧ offset = c.offset + c.data.length ∧ c.data.length + data.length ≤ writeBufferLimit
      · simp only [hc, and_self, dite_true, if_true]
        rfl
      · simp only [hc, dite_false, if_false]
        rfl
  case take fh =>
    cases hb : s.buffers[fh]? with
    | none =>
      simp only [after, hb] at h ⊢
      cases h
      rfl
    | some c =>
      simp only [after, hb] at h ⊢
      cases h
      rfl
  all_goals
    try split at h
    all_goals
      cases h <;> rfl

theorem after_tidy {i : Instr} {rest : List Instr} (h : ∀ j ∈ rest, j.holding = false) : Tidy (s.after rest i) := by
  have hrest : Tidy rest := fun j hj => h j (List.mem_of_mem_tail hj)
  cases i <;> simp only [after]
  case takeError fh =>
    split
    · exact hrest
    · simp [Tidy]
  case buffer fh ino path offset data =>
    have hw : ∀ p, ∀ j ∈ Instr.wrote p :: rest, j.holding = false := by
      intro p j hj
      rcases List.mem_cons.1 hj with rfl | hj
      · rfl
      · exact h j hj
    split
    · exact h
    · split
      · exact h
      · exact hw _
  case take fh =>
    split
    · exact hrest
    · exact h
  case resolve fh c => exact h
  case collect path =>
    intro j hj
    have hj := List.mem_of_mem_tail hj
    simp only [List.mem_append, List.mem_map, List.mem_cons] at hj
    rcases hj with (⟨fh, -, rfl⟩ | rfl | ⟨fh, -, rfl⟩) | hj
    · rfl
    · rfl
    · rfl
    · exact h j hj
  case collectAll =>
    intro j hj
    have hj := List.mem_of_mem_tail hj
    simp only [List.mem_append, List.mem_map, List.mem_cons] at hj
    rcases hj with ⟨fh, -, rfl⟩ | rfl | hj
    · rfl
    · rfl
    · exact h j hj
  all_goals exact hrest

/-- Only a call or an instruction changes a program, and only that of its thread. -/
theorem step_threads {ignore : List String} {a : WriteBackAct} (h : s.step ignore a = some s') :
    (∃ t c prog, a = .call t c ∧ s.threads t = [] ∧ s.program ignore c = some prog ∧ s' = s.goOn t prog) ∨
    (∃ t i rest, a = .run t ∧ s.threads t = i :: rest ∧ s.exec1 t rest i = some s') ∨
    (s'.threads = s.threads ∧ s'.written = s.written ∧ s'.returned = s.returned ∧ s'.flushed = s.flushed ∧
      s'.matched = s.matched ∧ (s'.inodes = s.inodes ∨ a = .setInodes s'.inodes)) := by
  cases step_cases h with
  | @call t c prog hidle hprog => exact .inl ⟨t, c, prog, rfl, hidle, hprog, rfl⟩
  | @run t i rest _ hprog he => exact .inr (.inl ⟨t, i, rest, rfl, hprog, he⟩)
  | setInodes => exact .inr (.inr ⟨rfl, rfl, rfl, rfl, rfl, .inr rfl⟩)
  | _ => exact .inr (.inr ⟨rfl, rfl, rfl, rfl, rfl, .inl rfl⟩)

/-- The program of one thread after a step: the one it had, that of the call it has
started, or what its instruction has left. -/
theorem step_thread {ignore : List String} {a : WriteBackAct} (h : s.step ignore a = some s') (t : Nat) :
    (s'.threads t = s.threads t ∧ ∀ c, a ≠ .call t c) ∨
    (∃ c prog, a = .call t c ∧ s.program ignore c = some prog ∧ s' = s.goOn t prog ∧ s'.threads t = prog) ∨
    (∃ i rest, a = .run t ∧ s.threads t = i :: rest ∧ s.exec1 t rest i = some s' ∧ s'.threads t = s.after rest i) := by
  cases step_cases h with
  | @call t' c prog hidle hprog =>
    by_cases ht : t = t'
    · subst ht
      exact .inr (.inl ⟨c, prog, rfl, hprog, rfl, by simp [goOn]⟩)
    · refine .inl ⟨by simp [goOn, Function.update_of_ne ht], ?_⟩
      rintro c ⟨⟩
      exact ht rfl
  | @run t' i rest _ hprog he =>
    have hthreads := exec1_threads he
    by_cases ht : t = t'
    · subst ht
      exact .inr (.inr ⟨i, rest, rfl, hprog, he, by rw [hthreads, Function.update_self]⟩)
    · exact .inl ⟨by rw [hthreads, Function.update_of_ne ht], by simp⟩
  | _ => exact .inl ⟨rfl, by simp⟩

theorem step_tidy {ignore : List String} {a : WriteBackAct} (htidy : ∀ t, Tidy (s.threads t))
    (h : s.step ignore a = some s') : ∀ t, Tidy (s'.threads t) := by
  intro t
  rcases step_thread h t with ⟨hth, -⟩ | ⟨c, prog, -, hp, -, hth⟩ | ⟨i, rest, -, hprog, -, hth⟩
  · rw [hth]
    exact htidy t
  · rw [hth]
    exact fun i hi => (program_fresh hp i (List.mem_of_mem_tail hi)).1
  · rw [hth]
    exact after_tidy fun j hj => htidy t j (by rw [hprog]; exact hj)

/-! ## What holds after every step -/

/-- The invariant of the write-back state. -/
structure Sound (s : WriteBack) : Prop where
  tidy : ∀ t, Tidy (s.threads t)
  inv : s.places.Inv
  wrote : ∀ t p, .wrote p ∈ s.threads t → p ∈ s.written
  returned : ∀ p ∈ s.returned, p ∈ s.written

theorem start_sound (inodes : Nat → Option String) (remote : String → Bytes) : (start inodes remote).Sound := by
  refine ⟨fun _ => by simp [start, Tidy], ?_, by simp [start], by simp [start]⟩
  refine ⟨?_, ?_, ?_, ?_, ?_, ?_, ?_⟩ <;> simp [start, places, holds]

/-- A part stays written, and a step takes it to a later place or leaves it where it is. -/
theorem Sound.forward (h : s.Sound) {ignore : List String} {a : WriteBackAct} (hs : s.step ignore a = some s')
    {p : Part} (hp : p ∈ s.written) :
    p ∈ s'.written ∧ (s'.place p.id = s.place p.id ∨ Places.rank (s.place p.id) < Places.rank (s'.place p.id)) := by
  have hmoves := step_places h.tidy hs
  have hrun : ∀ (ms : List Move) (v v' : Places), v.Inv → p ∈ v.written → exec Places.step v ms = some v' →
      p ∈ v'.written ∧ (v'.place p.id = v.place p.id ∨ Places.rank (v.place p.id) < Places.rank (v'.place p.id)) := by
    intro ms
    induction ms with
    | nil =>
      intro v v' _ hp he
      obtain rfl := Option.some.inj he
      exact ⟨hp, .inl rfl⟩
    | cons m ms ih =>
      intro v v' hv hp he
      obtain ⟨w, hw, he⟩ := exec_cons.1 he
      obtain ⟨hpw, hfirst⟩ := Places.step_forward hv hw hp
      obtain ⟨hpv, hrest⟩ := ih w v' (Places.step_inv hv hw) hpw he
      refine ⟨hpv, ?_⟩
      rcases hfirst with hfirst | hfirst
      · rwa [hfirst] at hrest
      · rcases hrest with hrest | hrest
        · exact .inr (hrest ▸ hfirst)
        · exact .inr (hfirst.trans hrest)
  exact hrun _ _ _ h.inv hp hmoves

theorem mem_after_wrote {i : Instr} {rest : List Instr} {p : Part} (h : .wrote p ∈ s.after rest i) :
    .wrote p ∈ rest ∨ ∃ fh ino path offset data, i = .buffer fh ino path offset data ∧
      p = ⟨s.written.length, fh, path, offset, data⟩ := by
  cases i <;> simp only [after] at h <;> grind

/-- A write is put into the buffer of its handle, alone or behind those of the same inode. -/
theorem bufferWrite_eq (s : WriteBack) (t : Nat) (rest : List Instr) (ino : Nat) (p : Part) :
    ∃ c place threads, s.bufferWrite t rest ino p =
        { s with written := s.written ++ [p], buffers := s.buffers.insert p.fh c, place := place, threads := threads } ∧
      c.ino = ino ∧ ∀ q ∈ c.parts, q = p ∨ ∃ c₀, s.buffers[p.fh]? = some c₀ ∧ c₀.ino = ino ∧ q ∈ c₀.parts := by
  unfold bufferWrite
  dsimp only
  split
  · exact ⟨_, _, _, rfl, rfl, by simp [Pending.single]⟩
  · rename_i c hb
    split
    · rename_i hext
      refine ⟨_, _, _, rfl, hext.1, fun q hq => ?_⟩
      rcases List.mem_append.1 hq with hq | hq
      · exact .inr ⟨c, hb, hext.1, hq⟩
      · exact .inl (List.mem_singleton.1 hq)
    · exact ⟨_, _, _, rfl, rfl, by simp [Pending.single]⟩

theorem buffer_written {t : Nat} {rest : List Instr} {fh ino : Nat} {path : String} {offset : Nat} {data : Bytes}
    (h : s.exec1 t rest (.buffer fh ino path offset data) = some s') :
    s'.written = s.written ++ [⟨s.written.length, fh, path, offset, data⟩] := by
  obtain ⟨c, place, threads, heq, -⟩ := s.bufferWrite_eq t rest ino ⟨s.written.length, fh, path, offset, data⟩
  simp only [exec1, heq, Option.some.injEq] at h
  subst h
  rfl

theorem exec1_written {t : Nat} {i : Instr} {rest : List Instr} (hi : ∀ fh ino path o d, i ≠ .buffer fh ino path o d)
    (h : s.exec1 t rest i = some s') : s'.written = s.written := by
  cases i <;> simp only [exec1] at h
  case buffer fh ino path o d => exact absurd rfl (hi fh ino path o d)
  all_goals
    try split at h
    all_goals
      cases h <;> rfl

/-- What an instruction records of the calls that return, and that no
instruction changes the inodes. -/
theorem exec1_frame {t : Nat} {i : Instr} {rest : List Instr} (h : s.exec1 t rest i = some s') :
    s'.inodes = s.inodes ∧
    (s'.returned = match i with
      | .wrote p => s.returned ++ [p]
      | _ => s.returned) ∧
    (s'.flushed = match i with
      | .flushed fh due => s.flushed ++ [(fh, due)]
      | _ => s.flushed) ∧
    (s'.matched = match i with
      | .matched path due => s.matched ++ [⟨path, due, s.writtenTo path, s.remote path⟩]
      | _ => s.matched) := by
  cases i <;> simp only [exec1] at h
  case buffer fh ino path offset data =>
    obtain ⟨c, place, threads, heq, -⟩ := s.bufferWrite_eq t rest ino ⟨s.written.length, fh, path, offset, data⟩
    rw [heq] at h
    cases h
    exact ⟨rfl, rfl, rfl, rfl⟩
  all_goals
    try split at h
    all_goals
      cases h <;> exact ⟨rfl, rfl, rfl, rfl⟩

theorem exec1_uploads {t : Nat} {i : Instr} {rest : List Instr} (h : s.exec1 t rest i = some s') :
    (s'.inflight = s.inflight ∧ s'.next = s.next) ∨
    ∃ fh c, i = .register fh c ∧ s'.inflight = s.inflight ++ [⟨s.next + 1, fh, c, .queued⟩] ∧ s'.next = s.next + 1 := by
  cases i <;> simp only [exec1] at h
  case buffer fh ino path offset data =>
    obtain ⟨c, place, threads, heq, -⟩ := s.bufferWrite_eq t rest ino ⟨s.written.length, fh, path, offset, data⟩
    rw [heq] at h
    cases h
    exact .inl ⟨rfl, rfl⟩
  case register fh c =>
    split at h
    · cases h
    · cases h
      exact .inr ⟨fh, c, rfl, rfl, rfl⟩
  all_goals
    try split at h
    all_goals
      cases h <;> exact .inl ⟨rfl, rfl⟩

theorem exec1_errors {t : Nat} {i : Instr} {rest : List Instr} (h : s.exec1 t rest i = some s') :
    s'.errors = s.errors ∨ ∃ fh, i = .takeError fh ∧ s.errors fh ≠ none ∧ s'.errors = Function.update s.errors fh none := by
  cases i <;> simp only [exec1] at h
  case takeError fh =>
    split at h
    · cases h
      exact .inl rfl
    · rename_i e he
      cases h
      exact .inr ⟨fh, rfl, by simp [he], rfl⟩
  case buffer fh ino path offset data =>
    obtain ⟨c, place, threads, heq, -⟩ := s.bufferWrite_eq t rest ino ⟨s.written.length, fh, path, offset, data⟩
    rw [heq] at h
    cases h
    exact .inl rfl
  all_goals
    try split at h
    all_goals
      cases h <;> exact .inl rfl

theorem Sound.step (h : s.Sound) {ignore : List String} {a : WriteBackAct} (hs : s.step ignore a = some s') :
    s'.Sound := by
  have hgrow : ∀ p ∈ s.written, p ∈ s'.written := fun p hp => (h.forward hs hp).1
  refine ⟨step_tidy h.tidy hs, ?_, ?_, ?_⟩
  · exact exec_inv Places.Inv (fun _ _ _ hi hm => Places.step_inv hi hm) h.inv (step_places h.tidy hs)
  · intro t p hp
    rcases step_thread hs t with ⟨hth, -⟩ | ⟨c, prog, -, hprog, -, hth⟩ | ⟨i, rest, -, hprog, he, hth⟩
    · rw [hth] at hp
      exact hgrow p (h.wrote t p hp)
    · rw [hth] at hp
      exact absurd rfl ((program_fresh hprog _ hp).2 p)
    · rw [hth] at hp
      rcases mem_after_wrote hp with hp | ⟨fh, ino, path, offset, data, rfl, rfl⟩
      · exact hgrow p (h.wrote t p (by rw [hprog]; exact List.mem_cons_of_mem _ hp))
      · rw [buffer_written he]
        simp
  · intro p hp
    rcases step_threads hs with ⟨t, c, prog, -, -, hprog, rfl⟩ | ⟨t, i, rest, -, hprog, he⟩ | ⟨-, -, hret, -⟩
    · exact h.returned p hp
    · rw [(exec1_frame he).2.1] at hp
      split at hp
      · rename_i q he
        rcases List.mem_append.1 hp with hp | hp
        · exact hgrow p (h.returned p hp)
        · rw [List.mem_singleton.1 hp]
          exact hgrow q (h.wrote t q (by rw [hprog]; exact List.mem_cons_self))
      · exact hgrow p (h.returned p hp)
    · exact hgrow p (h.returned p (hret ▸ hp))

end WriteBack

end Mobfs
