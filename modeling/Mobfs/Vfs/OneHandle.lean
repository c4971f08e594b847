import Mobfs.Vfs.LastWrite
/-!
# One handle

A program that writes a file through one handle, one call after the other, does not
see the buffer: when all its calls return `Ok`, a flush leaves the remote file as plain
writes would have made it (`writes_refine`). Displaced buffers overlap older uploads,
and uploads run in any order, but only one thread at a time registers chunks, and what
is in the buffer is newer than what a thread holds (`Alone.later`).

An upload may fail on the way. Then its data is lost, and some call returns the error;
until then nothing is said of the remote file (`Failed`).
-/

namespace Mobfs

open Lib Std

namespace Places

/-- Something is lost, or will be. -/
def Failed (v : Places) : Prop :=
  (∃ p ∈ v.written, v.place p.id = .lost) ∨ ∃ u ∈ v.fly, ∃ e, u.state = .failed e

/-- All writes are made through handle `fh`, and one thread at a time holds a chunk. -/
structure Alone (fh : Nat) (inodes : Nat → Option String) (orig : String → Bytes) (v : Places) : Prop where
  inv : v.Inv
  handle : ∀ p ∈ v.written, p.fh = fh
  chunks : ∀ c, v.HasChunk c → c.parts ≠ []
  holder : ∀ t t' x x', v.hold t = some x → v.hold t' = some x' → t = t'
  later : ∀ t fh' c, v.hold t = some (fh', c) → ∀ q ∈ c.parts, ∀ p ∈ v.written, v.place p.id = .buffered → q.id < p.id
  outcome : v.Failed ∨ v.Ordered inodes orig

/-- The moves such a thread makes. -/
def AloneOk (fh : Nat) (inodes : Nat → Option String) (v : Places) : Move → Prop
  | .accept ino p => p.fh = fh ∧ inodes ino = some p.path
  | .extend ino p => p.fh = fh ∧ inodes ino = some p.path ∧ ∀ t, v.hold t = none
  | .take _ _ => ∀ t, v.hold t = none
  | .resolve t path => ∀ fh c, v.hold t = some (fh, c) → path = (inodes c.ino).getD c.path
  | _ => True

variable {v v' : Places} {fh : Nat} {inodes : Nat → Option String} {orig : String → Bytes}

/-- An upload that has failed stays, or its data is lost. -/
theorem step_failed (hinv : v.Inv) (hne : ∀ c, v.HasChunk c → c.parts ≠ []) {m : Move} (hs : v.step m = some v')
    {u : Upload} (hu : u ∈ v.fly) {e : Errno} (he : u.state = .failed e) :
    u ∈ v'.fly ∨ ∃ p ∈ v'.written, v'.place p.id = .lost := by
  have hset : ∀ id state, (∃ x, v.fly.find? (·.id = id) = some x ∧ x.state = .queued) → u ∈ v.setState id state := by
    rintro id state ⟨x, hx, hq⟩
    have hid : u.id ≠ id := by
      intro hid
      rw [(hinv.find_eq hx).2.2 u hu hid, hq] at he
      cases he
    exact mem_setState.2 ⟨u, hu, by rw [if_neg hid]⟩
  cases m <;> simp only [step] at hs
  case register t =>
    split at hs
    · cases hs
    · split at hs <;> cases hs
      exact .inl (List.mem_append_left _ hu)
  case upload id =>
    split at hs
    · cases hs
    · split at hs <;> cases hs
      exact .inl (hset id _ ⟨_, ‹_›, ‹_›⟩)
  case fail id e' n =>
    split at hs
    · cases hs
    · split at hs <;> cases hs
      exact .inl (hset id _ ⟨_, ‹_›, ‹_›⟩)
  case complete id =>
    split at hs
    · cases hs
    rename_i x hx
    obtain ⟨hxm, -, huniq⟩ := hinv.find_eq hx
    have hkeep : u ≠ x → u ∈ v.fly.filter (·.id ≠ id) := fun hne => List.mem_filter.2 ⟨hu, by
      simp only [ne_eq, decide_eq_true_eq]
      exact fun hid => hne (huniq u hu hid)⟩
    by_cases hux : u = x
    · subst hux
      simp only [he] at hs
      cases hs
      obtain ⟨p, hp⟩ := List.exists_mem_of_ne_nil _ (hne u.pending (.inr (.inr ⟨u, hu, rfl⟩)))
      refine .inr ⟨p, (hinv.fly u hu p hp).1, ?_⟩
      exact (hinv.move_eq _ (fun q hq => (hinv.fly u hu q hq).1) (hinv.fly u hu p hp).1).trans (if_pos hp)
    · split at hs <;> cases hs <;> exact .inl (hkeep hux)
  all_goals
    left
    grind

theorem Failed.step (h : v.Failed) (hinv : v.Inv) (hne : ∀ c, v.HasChunk c → c.parts ≠ []) {m : Move}
    (hs : v.step m = some v') : v'.Failed := by
  rcases h with ⟨p, hp, hlost⟩ | ⟨u, hu, e, he⟩
  · obtain ⟨hp', hplace | hlt⟩ := step_forward hinv hs hp
    · exact .inl ⟨p, hp', hplace.trans hlost⟩
    · rw [hlost] at hlt
      exact absurd (WriteBack.rank_le (v'.place p.id)) (Nat.not_le.2 hlt)
  · rcases step_failed hinv hne hs hu he with hu' | hlost
    · exact .inr ⟨u, hu', e, he⟩
    · exact .inl hlost

/-- A move that is in order keeps the order, or something fails. -/
theorem Alone.step_outcome (h : v.Alone fh inodes orig) {m : Move} (hok : AloneOk fh inodes v m)
    (hs : v.step m = some v') : v'.Failed ∨ v'.Ordered inodes orig := by
  rcases h.outcome with hf | hord
  · exact .inl (hf.step h.inv h.chunks hs)
  cases m with
  | fail id e n =>
    left
    simp only [step] at hs
    split at hs
    · cases hs
    · rename_i u hu
      split at hs <;> cases hs
      exact .inr ⟨_, mem_setState.2 ⟨u, (h.inv.find_eq hu).1, rfl⟩, e, by simp [(h.inv.find_eq hu).2.1]⟩
  | register t =>
    refine .inr (step_ordered hord (m := .register t) ?_ hs)
    intro fh' c hh q hq p hp _ hlt _
    refine ⟨fun hb => ?_, fun t' ht hheld => ?_⟩
    · have hlater := h.later t fh' c hh q hq p hp hb
      omega
    · have hl := h.inv.located p hp
      rw [hheld] at hl
      obtain ⟨c', hc', -⟩ := hl
      exact ht (h.holder t' t _ _ hc' hh)
  | takeError fh' => exact .inr (step_ordered hord (m := .takeError fh') trivial hs)
  | accept ino p => exact .inr (step_ordered hord (m := .accept ino p) hok.2 hs)
  | extend ino p => exact .inr (step_ordered hord (m := .extend ino p) hok.2.1 hs)
  | take t fh' => exact .inr (step_ordered hord (m := .take t fh') trivial hs)
  | resolve t path => exact .inr (step_ordered hord (m := .resolve t path) hok hs)
  | upload id => exact .inr (step_ordered hord (m := .upload id) trivial hs)
  | complete id => exact .inr (step_ordered hord (m := .complete id) trivial hs)

/-- No chunk is without a write. -/
theorem step_chunks (h : ∀ c, v.HasChunk c → c.parts ≠ []) {m : Move} (hs : v.step m = some v') :
    ∀ c, v'.HasChunk c → c.parts ≠ [] := by
  have hbuf : ∀ {k : Nat} {c' : Pending}, c'.parts ≠ [] → ∀ c, (∃ i, Function.update v.buf k (some c') i = some c) →
      c.parts ≠ [] := by
    rintro k c' hc' c ⟨i, hi⟩
    by_cases hik : i = k
    · subst hik
      rw [Function.update_self] at hi
      exact Option.some.inj hi ▸ hc'
    · rw [Function.update_of_ne hik] at hi
      exact h c (.inl ⟨i, hi⟩)
  have hset : ∀ {id state} c, (∃ u ∈ v.setState id state, u.pending = c) → ∃ u ∈ v.fly, u.pending = c := by
    rintro id state c ⟨u, hu, rfl⟩
    obtain ⟨x, hx, rfl⟩ := mem_setState.1 hu
    exact ⟨x, hx, by split <;> rfl⟩
  cases m <;> simp only [Places.step] at hs
  case takeError fh =>
    cases hs
    exact h
  case accept ino p =>
    split at hs <;> cases hs
    rintro c (hb | hc)
    · exact hbuf (by simp [Pending.single]) c hb
    · exact h c (.inr hc)
  case extend ino p =>
    split at hs
    · cases hs
    · split at hs
      · split at hs <;> cases hs
        rintro c (hb | hc)
        · exact hbuf (by simp [Pending.extend]) c hb
        · exact h c (.inr hc)
      · cases hs
  case take t fh =>
    split at hs <;> cases hs
    grind [HasChunk]
  case resolve t path =>
    split at hs <;> cases hs
    grind [HasChunk]
  case register t =>
    split at hs
    · cases hs
    · split at hs <;> cases hs
      grind [HasChunk]
  case upload id =>
    split at hs
    · cases hs
    · split at hs <;> cases hs
      exact fun c hc => h c (hc.imp_right (·.imp_right (hset c)))
  case fail id e n =>
    split at hs
    · cases hs
    · split at hs <;> cases hs
      exact fun c hc => h c (hc.imp_right (·.imp_right (hset c)))
  case complete id =>
    split at hs
    · cases hs
    · split at hs <;> cases hs <;> grind [HasChunk]

/-- What a thread holds after a move it held before, with the same parts, or has just
taken from the buffer of the handle. -/
theorem step_holder {m : Move} (hs : v.step m = some v') {t : Nat} {x : Nat × Pending} (hx : v'.hold t = some x) :
    (∃ y, v.hold t = some y ∧ x.2.parts = y.2.parts) ∨ ∃ k, m = .take t k ∧ v.buf k = some x.2 ∧ v'.buf k = none := by
  cases m <;> simp only [Places.step] at hs
  case take t' k =>
    split at hs <;> cases hs
    grind
  case resolve t' path =>
    split at hs <;> cases hs
    grind
  case register t' =>
    split at hs
    · cases hs
    · split at hs <;> cases hs
      grind
  all_goals
    left
    refine ⟨x, ?_, rfl⟩
    grind

/-- A write is new, in a move that leaves what the threads hold. -/
theorem step_written {m : Move} (hs : v.step m = some v') {p : Part} (hp : p ∈ v'.written) :
    p ∈ v.written ∨ p.id = v.written.length ∧ (∃ ino, m = .accept ino p ∨ m = .extend ino p) ∧ v'.hold = v.hold := by
  cases m <;> simp only [Places.step] at hs
  case accept ino q =>
    split at hs <;> cases hs
    rcases List.mem_append.1 hp with hp | hp
    · exact .inl hp
    · obtain rfl := List.mem_singleton.1 hp
      exact .inr ⟨(‹_ ∧ _›).2, ⟨ino, .inl rfl⟩, rfl⟩
  case extend ino q =>
    split at hs
    · cases hs
    · split at hs
      · split at hs <;> cases hs
        rcases List.mem_append.1 hp with hp | hp
        · exact .inl hp
        · obtain rfl := List.mem_singleton.1 hp
          exact .inr ⟨(‹_ ∧ _›).2, ⟨ino, .inr rfl⟩, rfl⟩
      · cases hs
  all_goals
    left
    grind

theorem Alone.step (h : v.Alone fh inodes orig) {m : Move} (hok : AloneOk fh inodes v m) (hs : v.step m = some v') :
    v'.Alone fh inodes orig := by
  have hinv := step_inv h.inv hs
  refine ⟨hinv, ?_, step_chunks h.chunks hs, ?_, ?_, h.step_outcome hok hs⟩
  · intro p hp
    rcases step_written hs hp with hp | ⟨-, ⟨ino, rfl | rfl⟩, -⟩
    · exact h.handle p hp
    · exact hok.1
    · exact hok.1
  · intro t t' x x' hx hx'
    rcases step_holder hs hx with ⟨y, hy, -⟩ | ⟨k, rfl, -, -⟩
    · rcases step_holder hs hx' with ⟨y', hy', -⟩ | ⟨k', rfl, -, -⟩
      · exact h.holder t t' y y' hy hy'
      · rw [hok t] at hy
        cases hy
    · rcases step_holder hs hx' with ⟨y', hy', -⟩ | ⟨k', he, -, -⟩
      · rw [hok t'] at hy'
        cases hy'
      · cases he
        rfl
  · intro t k c hc q hq p hp hb
    rcases step_written hs hp with hp | ⟨hid, -, hhold⟩
    · have hb' : v.place p.id = .buffered := by
        rcases (step_forward h.inv hs hp).2 with he | hlt
        · rw [← he, hb]
        · rw [hb] at hlt
          exact absurd hlt (Nat.not_lt_zero _)
      rcases step_holder hs hc with ⟨y, hy, hparts⟩ | ⟨k', rfl, hbuf, hnone⟩
      · exact h.later t y.1 y.2 hy q (hparts ▸ hq) p hp hb'
      · -- The only buffer has just been emptied.
        have hk : k' = fh := by
          obtain ⟨hqw, hqfh, -⟩ := h.inv.buf k' c hbuf q hq
          rw [← hqfh, h.handle q hqw]
        have hl := hinv.located p (step_forward h.inv hs hp).1
        rw [hb] at hl
        obtain ⟨c', hc', -⟩ := hl
        rw [h.handle p hp, ← hk, hnone] at hc'
        cases hc'
    · -- The new write is the last one.
      rw [hhold] at hc
      have hlt := h.inv.id_lt (h.inv.hold t k c hc q hq).1
      omega

end Places

/-! ## Calls one at a time -/

/-- A write or a flush through the handle, or the idle flusher. -/
def VfsCall.through (ino fh : Nat) : VfsCall → Prop
  | .write ino' fh' _ _ => ino' = ino ∧ fh' = fh
  | .flush fh' => fh' = fh
  | .flushIdle _ => True
  | _ => False

def VfsCall.isWrite : VfsCall → Bool
  | .write .. => true
  | _ => false

/-- The offsets and data of the writes of a run. -/
def issued (as : List WriteBackAct) : List (Nat × Bytes) :=
  as.filterMap fun
    | .call _ (.write _ _ offset data) => some (offset, data)
    | _ => none

/-- The writes a program has still to put into the buffer. -/
def ahead (prog : List Instr) : List (Nat × Bytes) :=
  prog.filterMap fun
    | .buffer _ _ _ offset data => some (offset, data)
    | _ => none

/-- The writes a program has put into the buffer, before the call returns. -/
def begun (prog : List Instr) : List Part :=
  prog.filterMap fun
    | .wrote p => some p
    | _ => none

namespace WriteBack

/-- Calls are made one at a time, all through one handle of one file, which keeps its
name. The workers go on at any time. -/
def OneAtATime (ino fh : Nat) (s : WriteBack) : WriteBackAct → Prop
  | .call _ c => (∀ t, s.threads t = []) ∧ c.through ino fh
  | .setInodes _ => False
  | _ => True

/-- What the thread whose call is under way has still to do. -/
structure Turn (ino fh : Nat) (inodes : Nat → Option String) (s : WriteBack) (ws : List (Nat × Bytes))
    (prog : List Instr) : Prop where
  buffer : ∀ fh' ino' path offset data, .buffer fh' ino' path offset data ∈ prog →
    fh' = fh ∧ ino' = ino ∧ inodes ino = some path
  last : ∀ pre fh' ino' path offset data post, prog = pre ++ .buffer fh' ino' path offset data :: post → post = []
  issued : ws = s.written.map (fun p => (p.offset, p.data)) ++ ahead prog
  returned : s.written = s.returned ++ begun prog

/-- The state between and during calls made one at a time: `ws` have been issued. -/
structure Sequential (ino fh : Nat) (inodes : Nat → Option String) (orig : String → Bytes) (ws : List (Nat × Bytes))
    (s : WriteBack) : Prop where
  flush : s.FlushInv
  alone : s.places.Alone fh inodes orig
  inodes_eq : s.inodes = inodes
  path : ∀ p ∈ s.written, inodes ino = some p.path
  turn : ∃ t, (∀ t' ≠ t, s.threads t' = []) ∧ Turn ino fh inodes s ws (s.threads t)

variable {s s' : WriteBack} {ignore : List String} {a : WriteBackAct} {ino fh : Nat}
variable {inodes : Nat → Option String} {orig : String → Bytes} {ws : List (Nat × Bytes)}

/-! ## What has been taken -/

/-- An error that has been returned is not forgotten. -/
theorem step_taken (h : s.step ignore a = some s') (ht : s'.taken = []) : s.taken = [] := by
  cases step_cases h with
  | @run t i rest _ hprog he =>
    cases i <;> simp only [exec1] at he
    case takeError fh =>
      split at he <;> cases he
      · exact ht
      · cases ht
    case buffer fh ino path offset data =>
      obtain ⟨c, place, threads, heq, -⟩ := s.bufferWrite_eq t rest ino ⟨s.written.length, fh, path, offset, data⟩
      rw [heq] at he
      cases he
      exact ht
    all_goals
      try split at he
      all_goals
        cases he <;> exact ht
  | _ => exact ht

theorem takeError_none {t k : Nat} {rest : List Instr} (h : s.exec1 t rest (.takeError k) = some s') (ht : s'.taken = []) :
    s.errors k = none := by
  simp only [exec1] at h
  split at h
  · assumption
  · cases h
    cases ht

/-! ## One step -/

/-- Only the thread whose turn it is may hold a chunk. -/
theorem hold_eq_none {t : Nat} (hothers : ∀ t' ≠ t, s.threads t' = []) {i : Instr} {rest : List Instr}
    (hprog : s.threads t = i :: rest) (hi : i.holding = false) (t' : Nat) : s.places.hold t' = none := by
  by_cases ht : t' = t
  · subst ht
    simp only [places, hprog]
    exact holds_cons_eq_none hi
  · simp [places, hothers t' ht, holds]

theorem run_aloneOk {t : Nat} {i : Instr} {rest : List Instr} (hino : s.inodes = inodes)
    (hothers : ∀ t' ≠ t, s.threads t' = []) (hprog : s.threads t = i :: rest)
    (hbuf : ∀ fh' ino' path offset data, .buffer fh' ino' path offset data ∈ s.threads t →
      fh' = fh ∧ ino' = ino ∧ inodes ino = some path) :
    Guarded Places.step (Places.AloneOk fh inodes) s.places (s.moves (.run t)) := by
  have hnone : i.holding = false → ∀ t', s.places.hold t' = none := fun hi => hold_eq_none hothers hprog hi
  simp only [moves, hprog]
  cases i <;> simp only [instrMoves]
  case takeError k =>
    split
    · trivial
    · exact ⟨trivial, fun _ _ => trivial⟩
  case buffer fh' ino' path offset data =>
    obtain ⟨rfl, rfl, hpath⟩ := hbuf fh' ino' path offset data (by rw [hprog]; exact List.mem_cons_self)
    split
    · exact ⟨⟨rfl, hpath⟩, fun _ _ => trivial⟩
    · split
      · exact ⟨⟨rfl, hpath, hnone rfl⟩, fun _ _ => trivial⟩
      · exact ⟨hnone rfl, fun _ _ => ⟨⟨rfl, hpath⟩, fun _ _ => trivial⟩⟩
  case take k =>
    split
    · exact ⟨hnone rfl, fun _ _ => trivial⟩
    · trivial
  case resolve k c =>
    refine ⟨?_, fun _ _ => trivial⟩
    intro k' c' hh
    have hheld : some (k, c) = some (k', c') := by simpa [places, hprog, holds] using hh
    obtain ⟨-, rfl⟩ := Prod.mk.inj (Option.some.inj hheld)
    rw [hino]
  case register k c => exact ⟨trivial, fun _ _ => trivial⟩
  all_goals trivial

theorem begun_inner {new : List Instr} (h : ∀ i ∈ new, ∀ p, i ≠ .wrote p) : begun new = [] := by
  rw [begun, List.filterMap_eq_nil_iff]
  intro i hi
  cases i <;> first | rfl | exact absurd rfl (h _ hi _)

theorem ahead_inner {new : List Instr} (h : ∀ i ∈ new, i.inner = true) : ahead new = [] := by
  rw [ahead, List.filterMap_eq_nil_iff]
  intro i hi
  cases i <;> first | rfl | cases h _ hi

/-- A program without writes has nothing behind one. -/
theorem last_of_quiet {prog pre post : List Instr} {k i : Nat} {path : String} {o : Nat} {d : Bytes}
    (h : ∀ k i path o d, .buffer k i path o d ∉ prog) (he : prog = pre ++ .buffer k i path o d :: post) : post = [] :=
  absurd (by rw [he]; simp) (h k i path o d)

/-- The program of a call: a write that has not been issued before, or none. -/
theorem program_turn {c : VfsCall} {prog : List Instr} (hino : s.inodes = inodes) (hc : c.through ino fh)
    (hprog : s.program ignore c = some prog) (hws : ws = s.written.map fun p => (p.offset, p.data))
    (hret : s.written = s.returned) (t : Nat) :
    Turn ino fh inodes s (ws ++ Mobfs.issued [.call t c]) prog := by
  cases programs_of_program hprog with
  | write ino' fh' offset data path hpath =>
    obtain ⟨rfl, rfl⟩ := hc
    refine ⟨?_, ?_, ?_, ?_⟩
    · intro k i' path' o d hm
      obtain ⟨rfl, rfl, rfl, rfl, rfl⟩ : k = fh' ∧ i' = ino' ∧ path' = path ∧ o = offset ∧ d = data := by simpa using hm
      exact ⟨rfl, rfl, hino ▸ hpath⟩
    · intro pre k i' path' o d post he
      cases pre with
      | nil => cases he
      | cons x pre =>
        cases pre with
        | nil =>
          cases he
          rfl
        | cons y pre => simp at he
    · simp [hws, issued, ahead]
    · simp [hret, begun]
  | flush k => exact ⟨by simp, fun _ _ _ _ _ _ _ => last_of_quiet (by simp), by simp [hws, issued, ahead], by simp [hret, begun]⟩
  | flushIdle ks =>
    refine ⟨by simp, fun _ _ _ _ _ _ _ => last_of_quiet (by simp), ?_, ?_⟩
    · rw [ahead_inner (by simp [Instr.inner])]
      simp [hws, issued]
    · rw [begun_inner (by simp)]
      simp [hret]
  | _ => exact hc.elim

/-- A call that has returned no error goes on. -/
theorem after_eq {t : Nat} {i : Instr} {rest : List Instr} (h : s.exec1 t rest i = some s') (ht : s'.taken = []) :
    ∃ new, s.after rest i = new ++ rest ∧ ∀ j ∈ new, j.inner = true := by
  rcases s.after_append i rest with ⟨-, k, rfl, he⟩ | hnew
  · exact absurd (takeError_none h ht) he
  · exact hnew

theorem Turn.run {t : Nat} {i : Instr} {rest : List Instr} (h : Turn ino fh inodes s ws (i :: rest))
    (he : s.exec1 t rest i = some s') (ht : s'.taken = []) :
    Turn ino fh inodes s' ws (s.after rest i) ∧ ∀ p ∈ s'.written, p ∈ s.written ∨ inodes ino = some p.path := by
  have hframe := exec1_frame he
  obtain ⟨new, hnew, hinner⟩ := after_eq he ht
  have hbuf : ∀ k i' path o d, .buffer k i' path o d ∈ s.after rest i → .buffer k i' path o d ∈ rest :=
    fun k i' path o d hm => mem_after rfl hm
  have hlast : ∀ pre k i' path o d post, s.after rest i = pre ++ .buffer k i' path o d :: post → post = [] := by
    intro pre k i' path o d post he'
    -- The instruction is in `rest`, and has nothing behind it there.
    rw [hnew] at he'
    rcases List.append_eq_append_iff.1 he' with ⟨mid, hm, hr⟩ | ⟨mid, hm, hr⟩
    · exact h.last (i :: mid) k i' path o d post (by rw [hr]; rfl)
    · cases mid with
      | nil => exact h.last [i] k i' path o d post (by simpa using hr.symm)
      | cons j mid =>
        rw [List.cons_append] at hr
        obtain ⟨rfl, -⟩ := List.cons.inj hr
        have := hinner (.buffer k i' path o d) (by rw [hm]; simp)
        cases this
  by_cases hb : ∃ k i' path o d, i = .buffer k i' path o d
  · obtain ⟨k, i', path, o, d, rfl⟩ := hb
    have hrest : rest = [] := h.last [] k i' path o d rest rfl
    obtain ⟨rfl, rfl, hpath⟩ := h.buffer k i' path o d List.mem_cons_self
    subst hrest
    have hw := buffer_written he
    have hissued := h.issued
    have hreturned := h.returned
    simp only [ahead, begun, List.filterMap_cons, List.filterMap_nil, List.append_nil] at hissued hreturned
    refine ⟨⟨?_, hlast, ?_, ?_⟩, ?_⟩
    · intro k' i' path' o' d' hm
      cases hbuf _ _ _ _ _ hm
    · have hahead : ahead (s.after [] (.buffer k i' path o d)) = [] := by
        rw [hnew, List.append_nil]
        exact ahead_inner hinner
      rw [hahead, hw, hissued]
      simp
    · have hbegun : begun (s.after [] (.buffer k i' path o d)) = [⟨s.written.length, k, path, o, d⟩] := by
        simp only [after]
        split
        · rfl
        · split <;> rfl
      rw [hbegun, hw, hframe.2.1, hreturned]
    · intro p hp
      rw [hw] at hp
      rcases List.mem_append.1 hp with hp | hp
      · exact .inl hp
      · rw [List.mem_singleton.1 hp]
        exact .inr hpath
  · have hne : ∀ k i' path o d, i ≠ .buffer k i' path o d := fun k i' path o d he => hb ⟨k, i', path, o, d, he⟩
    have hw := exec1_written hne he
    have hahead : ahead (s.after rest i) = ahead (i :: rest) := by
      rw [hnew, ahead, List.filterMap_append]
      show ahead new ++ ahead rest = _
      rw [ahead_inner hinner]
      cases i <;> first | rfl | exact absurd rfl (hne _ _ _ _ _)
    refine ⟨⟨fun k i' path o d hm => h.buffer k i' path o d (List.mem_cons_of_mem _ (hbuf k i' path o d hm)), hlast, ?_, ?_⟩,
      fun p hp => .inl (hw ▸ hp)⟩
    · rw [hw, hahead]
      exact h.issued
    · by_cases hret : ∃ p, i = .wrote p
      · obtain ⟨p, rfl⟩ := hret
        rw [hw, hframe.2.1]
        simpa [after, begun] using h.returned
      · have hno : ∀ p, i ≠ .wrote p := fun p he => hret ⟨p, he⟩
        have hbegun : begun (s.after rest i) = begun (i :: rest) := by
          have hsame : begun (s.after rest i) = begun rest := by
            cases i <;> simp only [after]
            case buffer k i' path o d => exact absurd rfl (hne k i' path o d)
            case takeError k => rw [if_pos (takeError_none he ht)]
            case take k => split <;> rfl
            case collect path => simp [begun, List.filterMap_append, List.filterMap_map]
            case collectAll => simp [begun, List.filterMap_append, List.filterMap_map]
            all_goals rfl
          rw [hsame]
          cases i <;> first | rfl | exact absurd rfl (hno _)
        have hsame : s'.returned = s.returned := by
          rw [hframe.2.1]
          cases i <;> first | rfl | exact absurd rfl (hno _)
        rw [hw, hbegun, hsame]
        exact h.returned

theorem Turn.keep {prog : List Instr} (h : Turn ino fh inodes s ws prog) (hw : s'.written = s.written)
    (hr : s'.returned = s.returned) : Turn ino fh inodes s' ws prog :=
  ⟨h.buffer, h.last, by rw [hw]; exact h.issued, by rw [hw, hr]; exact h.returned⟩

theorem Sequential.sees (h : s.Sequential ino fh inodes orig ws) (ht : s.taken = []) : s.SeesAll a := by
  obtain ⟨t, hothers, -⟩ := h.turn
  cases a with
  | run t' =>
    simp only [SeesAll]
    split
    · rename_i k rest hprog
      intro t'' c
      have htt : t' = t := by
        by_contra hne
        rw [hothers t' hne] at hprog
        cases hprog
      subst htt
      have hnone := hold_eq_none hothers hprog rfl t''
      simp only [places] at hnone
      rw [hnone]
      simp
    · rw [ht]
      simp
    · trivial
  | _ => trivial

theorem Sequential.aloneOk (h : s.Sequential ino fh inodes orig ws) :
    Guarded Places.step (Places.AloneOk fh inodes) s.places (s.moves a) := by
  obtain ⟨t, hothers, hturn⟩ := h.turn
  cases a with
  | call t c => trivial
  | upload id => exact ⟨trivial, fun _ _ => trivial⟩
  | uploadFails id e n => exact ⟨trivial, fun _ _ => trivial⟩
  | complete id => exact ⟨trivial, fun _ _ => trivial⟩
  | setInodes f => trivial
  | run t' =>
    cases hprog : s.threads t' with
    | nil =>
      simp only [moves, hprog]
      trivial
    | cons i rest =>
      have htt : t' = t := by
        by_contra hne
        rw [hothers t' hne] at hprog
        cases hprog
      subst htt
      exact run_aloneOk h.inodes_eq hothers hprog hturn.buffer

theorem Sequential.step (h : s.Sequential ino fh inodes orig ws) (hg : s.OneAtATime ino fh a)
    (hs : s.step ignore a = some s') (ht : s'.taken = []) :
    s'.Sequential ino fh inodes orig (ws ++ Mobfs.issued [a]) := by
  have htidy := h.flush.sound.tidy
  have hflush := h.flush.step (h.sees (step_taken hs ht)) hs
  have halone := exec_guarded_inv (Places.Alone fh inodes orig) (fun _ _ _ h hg hs => h.step hg hs) h.alone h.aloneOk
    (step_places htidy hs)
  obtain ⟨t, hothers, hturn⟩ := h.turn
  cases step_cases hs with
  | @call t' c prog hidle hprog =>
    obtain ⟨hall, hc⟩ := hg
    have hws := hturn.issued
    have hret := hturn.returned
    simp only [hall t, ahead, begun, List.filterMap_nil, List.append_nil] at hws hret
    refine ⟨hflush, halone, h.inodes_eq, h.path, t', ?_, ?_⟩
    · intro t'' hne
      simpa [goOn, Function.update_of_ne hne] using hall t''
    · simp only [goOn, Function.update_self]
      exact (program_turn h.inodes_eq hc hprog hws hret t').keep rfl rfl
  | @run t' i rest _ hprog he =>
    have htt : t' = t := by
      by_contra hne
      rw [hothers t' hne] at hprog
      cases hprog
    subst htt
    rw [hprog] at hturn
    obtain ⟨hturn', hpath⟩ := hturn.run he ht
    refine ⟨hflush, halone, (exec1_frame he).1.trans h.inodes_eq, ?_, t', ?_, ?_⟩
    · intro p hp
      rcases hpath p hp with hp | hp
      · exact h.path p hp
      · exact hp
    · intro t'' hne
      rw [exec1_threads he, Function.update_of_ne hne]
      exact hothers t'' hne
    · rw [exec1_threads he, Function.update_self]
      simpa [issued] using hturn'
  | setInodes => exact hg.elim
  | _ =>
    simp only [issued, List.filterMap_cons, List.filterMap_nil, List.append_nil]
    exact ⟨hflush, halone, h.inodes_eq, h.path, t, hothers, hturn.keep rfl rfl⟩

/-- The flush that was due with these writes has returned, or is under way, and no
write has been made since. -/
structure Flushing (fh : Nat) (due : List Part) (s : WriteBack) : Prop where
  written : s.written = due
  quiet : ∀ t k i path o d, .buffer k i path o d ∉ s.threads t
  flushed : (fh, due) ∈ s.flushed ∨ ∃ t, .flushed fh due ∈ s.threads t

theorem program_quiet {c : VfsCall} {prog : List Instr} (hc : c.isWrite = false) (h : s.program ignore c = some prog) :
    ∀ k i path o d, .buffer k i path o d ∉ prog := by
  cases programs_of_program h with
  | write => cases hc
  | _ => simp

theorem Flushing.step {due : List Part} (h : Flushing fh due s) (hs : s.step ignore a = some s')
    (ha : ∀ t c, a = .call t c → c.isWrite = false) (ht : s'.taken = []) : Flushing fh due s' := by
  obtain ⟨hwritten, hquiet, hflushed⟩ := h
  cases step_cases hs with
  | @call t c prog hidle hprog =>
    refine ⟨hwritten, fun t' => ?_, hflushed.imp_right fun ⟨t', hm⟩ => ⟨t', ?_⟩⟩
    · by_cases hne : t' = t
      · subst hne
        simpa [goOn] using program_quiet (ha t' c rfl) hprog
      · simpa [goOn, Function.update_of_ne hne] using hquiet t'
    · have hne : t' ≠ t := by
        rintro rfl
        rw [hidle] at hm
        cases hm
      simpa [goOn, Function.update_of_ne hne] using hm
  | @run t i rest _ hprog he =>
    have hi : ∀ k i' path o d, i ≠ .buffer k i' path o d := by
      rintro k i' path o d rfl
      exact hquiet t k i' path o d (by rw [hprog]; exact List.mem_cons_self)
    obtain ⟨new, hnew, -⟩ := after_eq he ht
    refine ⟨(exec1_written hi he).trans hwritten, fun t' k i' path o d hm => ?_, ?_⟩
    · rw [exec1_threads he] at hm
      by_cases hne : t' = t
      · subst hne
        rw [Function.update_self] at hm
        exact hquiet t' k i' path o d (by rw [hprog]; exact List.mem_cons_of_mem _ (mem_after rfl hm))
      · rw [Function.update_of_ne hne] at hm
        exact hquiet t' k i' path o d hm
    · have hfl := (exec1_frame he).2.2.1
      have hgrow : (fh, due) ∈ s.flushed → (fh, due) ∈ s'.flushed := by
        intro hm
        rw [hfl]
        split
        · exact List.mem_append_left _ hm
        · exact hm
      rcases hflushed with hm | ⟨t', hm⟩
      · exact .inl (hgrow hm)
      · by_cases hne : t' = t
        · subst hne
          rw [hprog] at hm
          rcases List.mem_cons.1 hm with rfl | hm
          · exact .inl (by rw [hfl]; simp)
          · exact .inr ⟨t', by rw [exec1_threads he, Function.update_self, hnew]; exact List.mem_append_right _ hm⟩
        · exact .inr ⟨t', by rwa [exec1_threads he, Function.update_of_ne hne]⟩
  | _ => exact ⟨hwritten, hquiet, hflushed⟩

/-- Nothing has failed when all that has been written is on the remote. -/
theorem Sequential.ordered (h : s.Sequential ino fh inodes orig ws) (happ : ∀ p ∈ s.written, s.place p.id = .applied) :
    s.places.Ordered inodes orig := by
  rcases h.alone.outcome with (⟨p, hp, hlost⟩ | ⟨u, hu, e, he⟩) | hord
  · exact absurd (hlost.symm.trans (happ p hp)) (by simp)
  · obtain ⟨p, hp⟩ := List.exists_mem_of_ne_nil _ (h.alone.chunks u.pending (.inr (.inr ⟨u, hu, rfl⟩)))
    obtain ⟨hw, -, hplace⟩ := h.alone.inv.fly u hu p hp
    have hflying : s.places.place p.id = .flying u.id := by simpa [Upload.place, he] using hplace
    exact absurd (hflying.symm.trans (happ p hw)) (by simp)
  · exact hord

end WriteBack

end Mobfs
