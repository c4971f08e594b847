import Mobfs.Vfs.Flush
import Mobfs.Vfs.Order
/-!
# The last write wins

A read, `fsync` or `setattr` of a file first runs `flush_matching` on it: it
takes out the buffers of the file, handle by handle in the order of the handle
numbers, and waits for the uploads. Buffers of different handles are thus
registered in an order that need not be that of the writes
(`older_handle_wins`).

`last_write_wins`: in every run in which chunks are registered in the order of
the overlapping writes (`InOrder`), the remote contents are the original
contents with the writes applied in the order of the calls.
-/

namespace Mobfs

open Lib Std

def Instr.isMatched : Instr → Bool
  | .matched .. => true
  | _ => false

namespace WriteBack

/-- The steps that keep the order of the writes. Renames are left out, and
uploads that fail; a chunk is registered when no older write that it overlaps is
still in another buffer or in another thread's hands, and `flush_matching` stops
waiting when no thread holds a chunk of the file. -/
def InOrder (s : WriteBack) : WriteBackAct → Prop
  | .setInodes inodes => inodes = s.inodes
  | .uploadFails .. => False
  | .run t =>
    match s.threads t with
    | .register _ c :: _ => ∀ q ∈ c.parts, ∀ p ∈ s.written, p.path = q.path → p.id < q.id → p.meets q →
        s.place p.id ≠ .buffered ∧ ∀ t' ≠ t, s.place p.id ≠ .held t'
    | .waitMatching path :: _ => ∀ t' fh c, holds (s.threads t') = some (fh, c) → c.path ≠ path
    | _ => True
  | _ => True

def NoMatched (prog : List Instr) : Prop := ∀ i ∈ prog, i.isMatched = false

/-- How far a thread has come with `flush_matching`, and what it has made sure
of: it has not begun; what is still in a buffer is in one it will take; all is
on the remote. -/
def MatchAt (s : WriteBack) (path : String) (due : List Part) (prog : List Instr) : Prop :=
  (∃ pre rest, prog = pre ++ .collect path :: .matched path due :: rest ∧ NoMatched pre ∧ NoMatched rest) ∨
  (∃ (pre : List Instr) (fhs errs : List Nat) (rest : List Instr),
    prog = pre ++ (fhs.map .take ++ .waitMatching path :: (errs.map .takeError ++ .matched path due :: rest)) ∧
    (∀ i ∈ pre, i.holding = true) ∧ NoMatched rest ∧ ∀ p ∈ due, s.place p.id = .buffered → p.fh ∈ fhs) ∨
  ∃ (errs : List Nat) (rest : List Instr), prog = errs.map .takeError ++ .matched path due :: rest ∧
    NoMatched rest ∧ ∀ p ∈ due, s.place p.id = .applied

structure MatchInv (inodes : Nat → Option String) (orig : String → Bytes) (s : WriteBack) : Prop where
  sound : s.Sound
  inodes_eq : s.inodes = inodes
  buffers : ∀ t fh ino path offset data, .buffer fh ino path offset data ∈ s.threads t → inodes ino = some path
  ordered : s.places.Ordered inodes orig
  due : ∀ t path due, .matched path due ∈ s.threads t → ∀ p ∈ due, p ∈ s.written ∧ p.path = path
  at_ : ∀ t path due, .matched path due ∈ s.threads t → MatchAt s path due (s.threads t)
  matched : ∀ m ∈ s.matched, m.due = m.all → m.contents = m.all.foldl applyPart (orig m.path)

variable {s s' : WriteBack} {ignore : List String} {a : WriteBackAct}
variable {inodes : Nat → Option String} {orig : String → Bytes}

/-! ## The moves of a step are in order -/

theorem moves_ok (hino : s.inodes = inodes)
    (hbuf : ∀ t fh ino path offset data, .buffer fh ino path offset data ∈ s.threads t → inodes ino = some path)
    (hg : s.InOrder a) : Guarded Places.step (Places.MoveOk inodes) s.places (s.moves a) := by
  cases a with
  | call t c => trivial
  | upload id => exact ⟨trivial, fun _ _ => trivial⟩
  | uploadFails id e n => exact hg.elim
  | complete id => exact ⟨trivial, fun _ _ => trivial⟩
  | setInodes f => trivial
  | run t =>
    simp only [moves]
    cases hprog : s.threads t with
    | nil => trivial
    | cons i rest =>
      simp only [InOrder, hprog] at hg
      cases i <;> simp only [instrMoves]
      case takeError fh =>
        split
        · trivial
        · exact ⟨trivial, fun _ _ => trivial⟩
      case buffer fh ino path offset data =>
        have hpath : inodes ino = some path := hbuf t fh ino path offset data (by rw [hprog]; exact List.mem_cons_self)
        split
        · exact ⟨hpath, fun _ _ => trivial⟩
        · split
          · exact ⟨hpath, fun _ _ => trivial⟩
          · exact ⟨trivial, fun _ _ => ⟨hpath, fun _ _ => trivial⟩⟩
      case take fh =>
        split
        · exact ⟨trivial, fun _ _ => trivial⟩
        · trivial
      case resolve fh c =>
        refine ⟨?_, fun _ _ => trivial⟩
        intro fh' c' hh
        have hheld : some (fh, c) = some (fh', c') := by simpa [places, hprog, holds] using hh
        obtain ⟨-, rfl⟩ := Prod.mk.inj (Option.some.inj hheld)
        rw [hino]
      case register fh c =>
        refine ⟨?_, fun _ _ => trivial⟩
        intro fh' c' hh
        have hheld : some (fh, c) = some (fh', c') := by simpa [places, hprog, holds] using hh
        obtain ⟨-, rfl⟩ := Prod.mk.inj (Option.some.inj hheld)
        exact hg
      all_goals trivial

/-! ## One step of `flush_matching` -/

theorem noMatched_of_inner {prog : List Instr} (h : ∀ i ∈ prog, i.inner = true) : NoMatched prog := by
  intro i hi
  have hinner := h i hi
  cases i <;> first | rfl | cases hinner

theorem MatchAt.mono {path : String} {due : List Part} {prog : List Instr} (h : MatchAt s path due prog)
    (hsound : s.Sound) (hs : s.step ignore a = some s') (hdue : ∀ p ∈ due, p ∈ s.written) :
    MatchAt s' path due prog := by
  rcases h with h | ⟨pre, fhs, errs, rest, hp, hpre, hr, h⟩ | ⟨errs, rest, hp, hr, h⟩
  · exact .inl h
  · refine .inr (.inl ⟨pre, fhs, errs, rest, hp, hpre, hr, fun p hpd hb => h p hpd ?_⟩)
    by_contra hne
    exact hsound.not_buffered hs (hdue p hpd) hne hb
  · exact .inr (.inr ⟨errs, rest, hp, hr, fun p hpd => hsound.applied hs (hdue p hpd) (h p hpd)⟩)

/-- Nothing of the file is left when the wait is over. -/
theorem waitMatching_applied {t : Nat} {path : String} {due : List Part} {rest : List Instr}
    (hord : s.places.Ordered inodes orig) (hprog : s.threads t = .waitMatching path :: rest)
    (hdue : ∀ p ∈ due, p ∈ s.written ∧ p.path = path) (hg : s.InOrder (.run t))
    (hs : s.exec1 t rest (.waitMatching path) = some s') (hbuf : ∀ p ∈ due, s.place p.id ≠ .buffered) :
    ∀ p ∈ due, s.place p.id = .applied := by
  intro p hp
  obtain ⟨hw, hpath⟩ := hdue p hp
  have hno : (s.inflight.any fun u => matching path u.pending.path) = false := by
    simp only [exec1] at hs
    split at hs
    · cases hs
    · rename_i hany
      exact Bool.not_eq_true _ ▸ hany
  simp only [InOrder, hprog] at hg
  have hl : s.places.Located p (s.place p.id) := hord.inv.located p hw
  cases hpl : s.place p.id with
  | buffered => exact absurd hpl (hbuf p hp)
  | held t' =>
    rw [hpl] at hl
    obtain ⟨c, hc, hpc⟩ := hl
    have hcp := (hord.chunks c (.inr (.inl ⟨t', p.fh, hc⟩))).parts p hpc
    exact absurd (hcp.symm.trans hpath) (hg t' p.fh c hc)
  | flying id =>
    rw [hpl] at hl
    obtain ⟨u, hu, -, -, hpu⟩ := hl
    have hup := (hord.chunks u.pending (.inr (.inr ⟨u, hu, rfl⟩))).parts p hpu
    rw [List.any_eq_false] at hno
    exact absurd (by simp [matching, ← hup, hpath]) (hno u hu)
  | applied => rfl
  | lost => exact absurd hpl (hord.kept p hw)

theorem MatchAt.step {t : Nat} {path : String} {due : List Part} {i : Instr} {rest : List Instr}
    (h : MatchAt s path due (i :: rest)) (hsound : s.Sound) (hord : s.places.Ordered inodes orig)
    (hprog : s.threads t = i :: rest) (hdue : ∀ p ∈ due, p ∈ s.written ∧ p.path = path) (hg : s.InOrder (.run t))
    (hs : s.exec1 t rest i = some s') (hm : .matched path due ∈ s.after rest i) :
    MatchAt s' path due (s.after rest i) := by
  have hstep : s.step [] (.run t) = some s' := by simp only [WriteBack.step, hprog, hs]
  have hsound' : s'.Sound := hsound.step hstep
  have hbuf : ∀ p ∈ due, s'.place p.id = .buffered → s.place p.id = .buffered := by
    intro p hp hb
    by_contra hne
    exact hsound.not_buffered hstep (hdue p hp).1 hne hb
  rcases h with ⟨pre, tail, hp, hpre, hr⟩ | ⟨pre, fhs, errs, tail, hp, hpre, hr, h⟩ | ⟨errs, tail, hp, hr, h⟩
  · cases pre with
    | nil =>
      -- The handles are collected now.
      obtain ⟨rfl, rfl⟩ := List.cons.inj hp
      refine .inr (.inl ⟨[], s.matchingHandles path, s.matchingHandles path, tail, by simp [after], by simp, hr, ?_⟩)
      intro p hpd hb
      have hl : s.places.Located p (s.place p.id) := hord.inv.located p (hdue p hpd).1
      rw [hbuf p hpd hb] at hl
      obtain ⟨c, hc, hpc⟩ := hl
      have hcp := (hord.chunks c (.inl ⟨p.fh, hc⟩)).parts p hpc
      exact mem_matchingHandles hc (by simp [matching, ← hcp, (hdue p hpd).2])
    | cons j pre =>
      rw [List.cons_append] at hp
      obtain ⟨rfl, rfl⟩ := List.cons.inj hp
      rcases s.after_append i (pre ++ .collect path :: .matched path due :: tail) with ⟨he, -⟩ | ⟨new, he, hnew⟩
      · rw [he] at hm
        cases hm
      · refine .inl ⟨new ++ pre, tail, by simp [he], ?_, hr⟩
        intro k hk
        rcases List.mem_append.1 hk with hk | hk
        · exact noMatched_of_inner hnew k hk
        · exact hpre k (List.mem_cons_of_mem _ hk)
  · cases pre with
    | cons j pre =>
      obtain ⟨rfl, rfl⟩ := List.cons.inj hp
      have hi := hpre i List.mem_cons_self
      have hpre' : ∀ k ∈ pre, k.holding = true := fun k hk => hpre k (List.mem_cons_of_mem _ hk)
      have h' : ∀ p ∈ due, s'.place p.id = .buffered → p.fh ∈ fhs := fun p hpd hb => h p hpd (hbuf p hpd hb)
      cases i
      case resolve fh c =>
        refine .inr (.inl ⟨_ :: pre, fhs, errs, tail, rfl, ?_, hr, h'⟩)
        intro k hk
        rcases List.mem_cons.1 hk with rfl | hk
        · rfl
        · exact hpre' k hk
      case register fh c => exact .inr (.inl ⟨pre, fhs, errs, tail, rfl, hpre', hr, h'⟩)
      all_goals cases hi
    | nil =>
      cases fhs with
      | cons fh fhs =>
        obtain ⟨rfl, rfl⟩ := List.cons.inj hp
        have h' : ∀ p ∈ due, s'.place p.id = .buffered → p.fh ∈ fhs := by
          intro p hpd hb
          rcases List.mem_cons.1 (h p hpd (hbuf p hpd hb)) with hfh | hfh
          · -- The buffer of this handle has just been taken.
            have hl : s'.places.Located p (s'.place p.id) :=
              hsound'.inv.located p (hsound.forward hstep (hdue p hpd).1).1
            rw [hb] at hl
            obtain ⟨c, hc, -⟩ := hl
            have hnone : s'.places.buf p.fh = none := by
              rw [hfh]
              exact take_buffers hs
            rw [hnone] at hc
            cases hc
          · exact hfh
        simp only [after]
        split
        · exact .inr (.inl ⟨[], fhs, errs, tail, rfl, by simp, hr, h'⟩)
        · exact .inr (.inl ⟨[_], fhs, errs, tail, rfl, by simp [Instr.holding], hr, h'⟩)
      | nil =>
        obtain ⟨rfl, rfl⟩ := List.cons.inj hp
        have happ := waitMatching_applied hord hprog hdue hg hs fun p hpd hb => by simpa using h p hpd hb
        exact .inr (.inr ⟨errs, tail, rfl, hr, fun p hpd => hsound.applied hstep (hdue p hpd).1 (happ p hpd)⟩)
  · cases errs with
    | cons e errs =>
      obtain ⟨rfl, rfl⟩ := List.cons.inj hp
      simp only [after] at hm ⊢
      split at hm
      · rename_i he
        rw [if_pos he]
        exact .inr (.inr ⟨errs, tail, rfl, hr, fun p hpd => hsound.applied hstep (hdue p hpd).1 (h p hpd)⟩)
      · cases hm
    | nil =>
      obtain ⟨rfl, rfl⟩ := List.cons.inj hp
      have hno := hr _ hm
      cases hno

/-- A `flush_matching` that returns has made sure of all that was due. -/
theorem MatchAt.at_matched {path : String} {due : List Part} {rest : List Instr}
    (h : MatchAt s path due (.matched path due :: rest)) : ∀ p ∈ due, s.place p.id = .applied := by
  rcases h with ⟨pre, tail, hp, hpre, -⟩ | ⟨pre, fhs, errs, tail, hp, hpre, -, -⟩ | ⟨errs, tail, hp, -, h⟩
  · cases pre with
    | nil => cases hp
    | cons j pre =>
      obtain ⟨rfl, -⟩ := List.cons.inj hp
      cases hpre _ List.mem_cons_self
  · cases pre with
    | nil => cases fhs <;> cases hp
    | cons j pre =>
      obtain ⟨rfl, -⟩ := List.cons.inj hp
      cases hpre _ List.mem_cons_self
  · exact h

/-! ## Every run -/

theorem program_matched {c : VfsCall} {prog : List Instr} {path : String} {due : List Part}
    (h : s.program ignore c = some prog) (hm : .matched path due ∈ prog) :
    due = s.writtenTo path ∧ ∀ s' : WriteBack, MatchAt s' path due prog := by
  cases programs_of_program h with
  | fsync ino fh path' =>
    obtain ⟨rfl, rfl⟩ : path = path' ∧ due = s.writtenTo path' := by simpa using hm
    refine ⟨rfl, fun _ => .inl ⟨[.take fh, .waitFh fh, .takeError fh, .flushed fh _], [.remoteFsync path], rfl, ?_, ?_⟩⟩
    · simp [NoMatched, Instr.isMatched]
    · simp [NoMatched, Instr.isMatched]
  | read ino path' | setattr ino path' =>
    obtain ⟨rfl, rfl⟩ : path = path' ∧ due = s.writtenTo path' := by simpa using hm
    exact ⟨rfl, fun _ => .inl ⟨[], [], rfl, by simp [NoMatched], by simp [NoMatched]⟩⟩
  | _ => simp at hm

theorem step_inodes (hg : s.InOrder a) (h : s.step ignore a = some s') : s'.inodes = s.inodes := by
  rcases step_threads h with ⟨t, c, prog, -, -, -, rfl⟩ | ⟨t, i, rest, -, -, he⟩ | ⟨-, -, -, -, -, hino | rfl⟩
  · rfl
  · exact (exec1_frame he).1
  · exact hino
  · exact hg

/-- All that was due is on the remote, so nothing is left to apply. -/
theorem contents_of_applied {path : String} (hord : s.places.Ordered inodes orig)
    (happ : ∀ p ∈ s.writtenTo path, s.place p.id = .applied) :
    s.remote path = (s.writtenTo path).foldl applyPart (orig path) := by
  have hnone : s.places.unapplied path = [] := by
    rw [Places.unapplied, List.filter_eq_nil_iff]
    intro p hp
    simp only [Bool.and_eq_true, decide_eq_true_eq, not_and, ne_eq, not_not]
    intro hpath
    exact happ p (List.mem_filter.2 ⟨hp, by simpa using hpath⟩)
  have hc := hord.contents path
  rw [hnone] at hc
  exact hc

theorem MatchInv.step (h : s.MatchInv inodes orig) (hg : s.InOrder a) (hs : s.step ignore a = some s') :
    s'.MatchInv inodes orig := by
  obtain ⟨hsound, hino, hbuf, hord, hdue, hat, hdone⟩ := h
  have hord' : s'.places.Ordered inodes orig :=
    exec_guarded_inv (Places.Ordered inodes orig) (fun _ _ _ h hg hm => Places.step_ordered h hg hm) hord
      (moves_ok hino hbuf hg) (step_places hsound.tidy hs)
  have hother : ∀ t path due, .matched path due ∈ s.threads t → (∀ p ∈ due, p ∈ s'.written ∧ p.path = path) ∧
      MatchAt s' path due (s.threads t) := by
    intro t path due hm
    have hd := hdue t path due hm
    exact ⟨fun p hp => ⟨(hsound.forward hs (hd p hp).1).1, (hd p hp).2⟩,
      (hat t path due hm).mono hsound hs fun p hp => (hd p hp).1⟩
  have hboth : ∀ t path due, .matched path due ∈ s'.threads t → (∀ p ∈ due, p ∈ s'.written ∧ p.path = path) ∧
      MatchAt s' path due (s'.threads t) := by
    intro t path due hm
    rcases step_thread hs t with ⟨hth, -⟩ | ⟨c, prog, -, hprog, rfl, hth⟩ | ⟨i, rest, rfl, hprog, he, hth⟩
    · rw [hth] at hm ⊢
      exact hother t path due hm
    · rw [hth] at hm ⊢
      obtain ⟨rfl, hstart⟩ := program_matched hprog hm
      refine ⟨fun p hp => ?_, hstart _⟩
      obtain ⟨hp, hpath⟩ := List.mem_filter.1 hp
      exact ⟨hp, by simpa using hpath⟩
    · rw [hth] at hm ⊢
      have hm' : .matched path due ∈ s.threads t := by
        rw [hprog]
        exact List.mem_cons_of_mem _ (mem_after rfl hm)
      have hmatch := hat t path due hm'
      rw [hprog] at hmatch
      exact ⟨(hother t path due hm').1, hmatch.step hsound hord hprog (hdue t path due hm') hg he hm⟩
  refine ⟨hsound.step hs, (step_inodes hg hs).trans hino, ?_, hord', fun t path due hm => (hboth t path due hm).1,
    fun t path due hm => (hboth t path due hm).2, ?_⟩
  · intro t fh ino path offset data hm
    rcases step_thread hs t with ⟨hth, -⟩ | ⟨c, prog, -, hprog, -, hth⟩ | ⟨i, rest, -, hprog, -, hth⟩
    · rw [hth] at hm
      exact hbuf t fh ino path offset data hm
    · rw [hth] at hm
      rw [← hino]
      exact program_buffer hprog hm
    · rw [hth] at hm
      exact hbuf t fh ino path offset data (by rw [hprog]; exact List.mem_cons_of_mem _ (mem_after rfl hm))
  · rcases step_threads hs with ⟨t, c, prog, -, -, hprog, rfl⟩ | ⟨t, i, rest, rfl, hprog, he⟩ | ⟨-, -, -, -, hmt, -⟩
    · exact hdone
    · rw [(exec1_frame he).2.2.2]
      split
      · rename_i path due he
        intro m hm
        rcases List.mem_append.1 hm with hm | hm
        · exact hdone m hm
        · rw [List.mem_singleton.1 hm]
          simp only
          rintro rfl
          have hmem : .matched path (s.writtenTo path) ∈ s.threads t := by
            rw [hprog]
            exact List.mem_cons_self
          apply contents_of_applied hord
          have hmatch := hat t path _ hmem
          rw [hprog] at hmatch
          exact hmatch.at_matched
      · exact hdone
    · rw [hmt]
      exact hdone

theorem start_no_chunk (inodes : Nat → Option String) (remote : String → Bytes) (c : Pending) :
    ¬ (start inodes remote).places.HasChunk c := by
  rintro (⟨fh, hb⟩ | ⟨t, fh, hh⟩ | ⟨u, hu, -⟩)
  · simp [start, places] at hb
  · simp [start, places, holds] at hh
  · cases hu

theorem start_ordered (inodes : Nat → Option String) (remote : String → Bytes) :
    (start inodes remote).places.Ordered inodes remote := by
  refine ⟨(start_sound inodes remote).inv, fun c hc => absurd hc (start_no_chunk inodes remote c), ?_, ?_, ?_,
    fun path => rfl⟩
  all_goals simp [start, places]

/-- In every run whose steps are in order, a read, `fsync` or `setattr` that
finds nothing written since it started leaves the remote file as the writes make
it, one after the other in the order of the calls. -/
theorem last_write_wins (ignore : List String) (inodes : Nat → Option String) (remote : String → Bytes)
    (as : List WriteBackAct) (s : WriteBack) (hg : Guarded (step ignore) InOrder (start inodes remote) as)
    (h : exec (step ignore) (start inodes remote) as = some s) :
    ∀ m ∈ s.matched, m.due = m.all → m.contents = m.all.foldl applyPart (remote m.path) := by
  have hstart : (start inodes remote).MatchInv inodes remote :=
    ⟨start_sound inodes remote, rfl, by simp [start], start_ordered inodes remote, by simp [start], by simp [start],
      by simp [start]⟩
  exact (exec_guarded_inv (MatchInv inodes remote) (fun _ _ _ h hg hs => h.step hg hs) hstart hg h).matched

/-! ## Two handles -/

/-- A byte written through handle 2, another in its place through handle 1, and
a read of the file: its `flush_matching` uploads handle 1 first. -/
def writesTwice : List WriteBackAct :=
  [.call 0 (.write 2 2 0 [65]), .run 0, .run 0, .run 0, .call 0 (.write 2 1 0 [66]), .run 0, .run 0, .run 0,
    .call 0 (.read 2), .run 0, .run 0, .run 0, .run 0, .upload 1, .complete 1, .run 0, .run 0, .run 0,
    .upload 2, .complete 2, .run 0, .run 0, .run 0, .run 0]

/-- The byte written last is overwritten by the one written first. -/
theorem older_handle_wins :
    ¬ ∀ s, exec (step []) oneFile writesTwice = some s →
      ∀ m ∈ s.matched, m.due = m.all → m.contents = m.all.foldl applyPart [] := by
  intro h
  have hrun : (exec (step []) oneFile writesTwice).map (fun s => s.matched.map fun m => (m.due, m.all, m.contents)) =
      some [([⟨0, 2, "f", 0, [65]⟩, ⟨1, 1, "f", 0, [66]⟩], [⟨0, 2, "f", 0, [65]⟩, ⟨1, 1, "f", 0, [66]⟩], [65])] := by
    decide
  obtain ⟨s, hs, hm⟩ := Option.map_eq_some_iff.1 hrun
  obtain ⟨m, hm, he⟩ := List.map_eq_singleton_iff.1 hm
  obtain ⟨hd, ha, hc⟩ : m.due = _ ∧ m.all = _ ∧ m.contents = _ := by simpa using he
  have hlast := h s hs m (by rw [hm]; exact List.mem_singleton_self _) (hd.trans ha.symm)
  rw [hc, ha] at hlast
  exact absurd hlast (by decide)

/-- The same through handles 1 and 2. -/
def writesInOrder : List WriteBackAct :=
  [.call 0 (.write 2 1 0 [65]), .run 0, .run 0, .run 0, .call 0 (.write 2 2 0 [66]), .run 0, .run 0, .run 0,
    .call 0 (.read 2), .run 0, .run 0, .run 0, .run 0, .upload 1, .complete 1, .run 0, .run 0, .run 0,
    .upload 2, .complete 2, .run 0, .run 0, .run 0, .run 0]

/-- `InOrder`, where only thread 0 has anything to do. -/
def inOrder0 (s : WriteBack) : WriteBackAct → Bool
  | .setInodes _ => false
  | .uploadFails .. => false
  | .run _ =>
    match s.threads 0 with
    | .register _ c :: _ => c.parts.all fun q => s.written.all fun p =>
        !(p.path = q.path && p.id < q.id && p.meets q) ||
          match s.place p.id with
          | .buffered => false
          | .held t => t = 0
          | _ => true
    | _ => true
  | _ => true

theorem inOrder_of_inOrder0 (h : ∀ t ≠ 0, s.threads t = []) (ha : OnlyThread0 a) (hc : s.inOrder0 a = true) :
    s.InOrder a := by
  cases a with
  | setInodes f => cases hc
  | uploadFails id e n => cases hc
  | run t =>
    obtain rfl : t = 0 := ha
    simp only [inOrder0] at hc
    simp only [InOrder]
    split
    · rename_i fh c rest hprog
      simp only [hprog, List.all_eq_true] at hc
      intro q hq p hp hpath hlt hmeets
      have hpq := hc q hq p hp
      simp only [hpath, hlt, hmeets, decide_true, Bool.and_self, Bool.not_true, Bool.false_or] at hpq
      cases hpl : s.place p.id with
      | buffered => simp [hpl] at hpq
      | held t =>
        simp only [hpl, decide_eq_true_eq] at hpq
        subst hpq
        exact ⟨by simp, fun t' ht he => ht (Place.held.inj he).symm⟩
      | _ => simp
    · rename_i path rest hprog
      intro t' fh c hh
      by_cases ht : t' = 0
      · subst ht
        simp [hprog, holds] at hh
      · simp [h t' ht, holds] at hh
    · trivial
  | _ => trivial

theorem last_write_wins_two_handles :
    ∃ s m, exec (step []) oneFile writesInOrder = some s ∧ s.matched = [m] ∧ m.due = m.all ∧ m.contents = [66] ∧
      m.contents = m.all.foldl applyPart [] := by
  have hrun : (exec (step []) oneFile writesInOrder).map (fun s => s.matched.map fun m => (m.due, m.all, m.contents)) =
      some [([⟨0, 1, "f", 0, [65]⟩, ⟨1, 2, "f", 0, [66]⟩], [⟨0, 1, "f", 0, [65]⟩, ⟨1, 2, "f", 0, [66]⟩], [66])] := by
    decide
  obtain ⟨s, hs, hm⟩ := Option.map_eq_some_iff.1 hrun
  obtain ⟨m, hm, he⟩ := List.map_eq_singleton_iff.1 hm
  obtain ⟨hd, ha, hc⟩ : m.due = _ ∧ m.all = _ ∧ m.contents = _ := by simpa using he
  have hg : Guarded (step []) InOrder oneFile writesInOrder :=
    guarded_of_checkRun (fun s => ∀ t ≠ 0, s.threads t = []) OnlyThread0 inOrder0
      (fun _ _ _ => step_onlyThread0) (fun _ _ => inOrder_of_inOrder0) (fun _ _ => rfl)
      (by simp [writesInOrder, OnlyThread0]) (by decide)
  exact ⟨s, m, hs, hm, hd.trans ha.symm, hc,
    last_write_wins [] _ _ writesInOrder s hg hs m (by rw [hm]; exact List.mem_singleton_self _) (hd.trans ha.symm)⟩

end WriteBack

end Mobfs
