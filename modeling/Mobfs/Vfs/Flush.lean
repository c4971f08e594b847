import Mobfs.Vfs.Threads
/-!
# Flush waits for the data

`flush(fh)` takes the buffer of the handle out, registers it, waits until no
upload of the handle is in flight and then asks for an upload error. It does not
see data that another thread has taken out of the buffer and not yet registered,
nor an upload that failed if another call has already taken its error
(`flush_returns_early`).

`flush_waits`: in every run where neither is the case when a flush looks, all
that was written through the handle before is on the remote when it returns.
-/

namespace Mobfs

open Lib Std

def Instr.isFlushed : Instr → Bool
  | .flushed .. => true
  | _ => false

namespace WriteBack

/-- Neither thing a flush cannot see is there: when it stops waiting, no thread
holds a buffer of the handle, and when it asks for an error, none of the handle
has been taken. -/
def SeesAll (s : WriteBack) : WriteBackAct → Prop
  | .run t =>
    match s.threads t with
    | .waitFh fh :: _ => ∀ t' c, holds (s.threads t') ≠ some (fh, c)
    | .takeError fh :: .flushed _ _ :: _ => fh ∉ s.taken
    | _ => True
  | _ => True

/-- How far a thread has come with a flush, and what it has made sure of. -/
inductive FlushAt (s : WriteBack) (fh : Nat) (due : List Part) : List Instr → Prop where
  | start {rest : List Instr} (hr : ∀ i ∈ rest, i.isFlushed = false) :
    FlushAt s fh due (.take fh :: .waitFh fh :: .takeError fh :: .flushed fh due :: rest)
  | holding {i : Instr} {rest : List Instr} (hr : ∀ i ∈ rest, i.isFlushed = false) (hi : i.holding = true)
    (h : ∀ p ∈ due, s.place p.id ≠ .buffered) :
    FlushAt s fh due (i :: .waitFh fh :: .takeError fh :: .flushed fh due :: rest)
  | waiting {rest : List Instr} (hr : ∀ i ∈ rest, i.isFlushed = false)
    (h : ∀ p ∈ due, s.place p.id ≠ .buffered) :
    FlushAt s fh due (.waitFh fh :: .takeError fh :: .flushed fh due :: rest)
  | checking {rest : List Instr} (hr : ∀ i ∈ rest, i.isFlushed = false)
    (h : ∀ p ∈ due, s.place p.id = .applied ∨ s.place p.id = .lost) :
    FlushAt s fh due (.takeError fh :: .flushed fh due :: rest)
  | done {rest : List Instr} (hr : ∀ i ∈ rest, i.isFlushed = false) (h : ∀ p ∈ due, s.place p.id = .applied) :
    FlushAt s fh due (.flushed fh due :: rest)

structure FlushInv (s : WriteBack) : Prop where
  sound : s.Sound
  due : ∀ t fh due, .flushed fh due ∈ s.threads t → ∀ p ∈ due, p ∈ s.written ∧ p.fh = fh
  at_ : ∀ t fh due, .flushed fh due ∈ s.threads t → FlushAt s fh due (s.threads t)
  flushed : ∀ f ∈ s.flushed, ∀ p ∈ f.2, p ∈ s.written ∧ s.place p.id = .applied

variable {s s' : WriteBack} {ignore : List String} {a : WriteBackAct}

theorem mem_matchingHandles {path : String} {fh : Nat} {c : Pending} (hb : s.buffers[fh]? = some c)
    (hm : matching path c.path = true) : fh ∈ s.matchingHandles path := by
  refine List.mem_map.2 ⟨(fh, c), List.mem_filter.2 ⟨?_, hm⟩, rfl⟩
  exact ExtTreeMap.mem_toList_iff_getElem?_eq_some.2 hb

/-! ## What stays true of a place -/

theorem Sound.not_buffered (h : s.Sound) (hs : s.step ignore a = some s') {p : Part} (hp : p ∈ s.written)
    (hb : s.place p.id ≠ .buffered) : s'.place p.id ≠ .buffered := by
  rcases (h.forward hs hp).2 with he | hlt
  · rwa [he]
  · intro hb'
    rw [hb'] at hlt
    exact Nat.not_lt_zero _ hlt

theorem rank_le (pl : Place) : Places.rank pl ≤ 3 := by
  cases pl <;> simp [Places.rank]

theorem Sound.settled (h : s.Sound) (hs : s.step ignore a = some s') {p : Part} (hp : p ∈ s.written)
    (hset : Places.rank (s.place p.id) = 3) : s'.place p.id = s.place p.id := by
  rcases (h.forward hs hp).2 with he | hlt
  · exact he
  · have hle := rank_le (s'.place p.id)
    omega

theorem Sound.applied (h : s.Sound) (hs : s.step ignore a = some s') {p : Part} (hp : p ∈ s.written)
    (happ : s.place p.id = .applied) : s'.place p.id = .applied := by
  rw [h.settled hs hp (by rw [happ]; rfl), happ]

theorem FlushAt.mono {fh : Nat} {due : List Part} {prog : List Instr} (h : FlushAt s fh due prog) (hsound : s.Sound)
    (hs : s.step ignore a = some s') (hdue : ∀ p ∈ due, p ∈ s.written) : FlushAt s' fh due prog := by
  cases h with
  | start hr => exact .start hr
  | holding hr hi h => exact .holding hr hi fun p hp => hsound.not_buffered hs (hdue p hp) (h p hp)
  | waiting hr h => exact .waiting hr fun p hp => hsound.not_buffered hs (hdue p hp) (h p hp)
  | checking hr h =>
    refine .checking hr fun p hp => ?_
    have hset : Places.rank (s.place p.id) = 3 := by rcases h p hp with h | h <;> rw [h] <;> rfl
    rw [hsound.settled hs (hdue p hp) hset]
    exact h p hp
  | done hr h => exact .done hr fun p hp => hsound.applied hs (hdue p hp) (h p hp)

/-! ## One step of a flush -/

theorem take_buffers {t fh : Nat} {rest : List Instr} (h : s.exec1 t rest (.take fh) = some s') :
    s'.buffers[fh]? = none := by
  simp only [exec1] at h
  split at h
  · cases h
    exact ‹_›
  · cases h
    simp [goOn, move]

theorem FlushAt.step {t fh : Nat} {due : List Part} {i : Instr} {rest : List Instr}
    (h : FlushAt s fh due (i :: rest)) (hsound : s.Sound) (hprog : s.threads t = i :: rest)
    (hdue : ∀ p ∈ due, p ∈ s.written ∧ p.fh = fh) (hg : s.SeesAll (.run t))
    (hs : s.exec1 t rest i = some s') (hm : .flushed fh due ∈ s.after rest i) :
    FlushAt s' fh due (s.after rest i) := by
  have hstep : s.step [] (.run t) = some s' := by simp only [WriteBack.step, hprog, hs]
  have hsound' : s'.Sound := hsound.step hstep
  have hmem : ∀ p ∈ due, p ∈ s.written := fun p hp => (hdue p hp).1
  simp only [SeesAll, hprog] at hg
  cases h with
  | start hr =>
    have hout : ∀ p ∈ due, s'.place p.id ≠ .buffered := by
      intro p hp hb
      have hl := hsound'.inv.located p (hsound.forward hstep (hmem p hp)).1
      have hpl : s'.places.place p.id = .buffered := hb
      rw [hpl] at hl
      obtain ⟨c, hc, -⟩ := hl
      have hnone : s'.places.buf p.fh = none := by
        rw [(hdue p hp).2]
        exact take_buffers hs
      rw [hnone] at hc
      cases hc
    simp only [after]
    split
    · exact .waiting hr hout
    · exact .holding hr rfl hout
  | holding hr hi h =>
    have hout : ∀ p ∈ due, s'.place p.id ≠ .buffered := fun p hp => hsound.not_buffered hstep (hmem p hp) (h p hp)
    cases i
    case resolve => exact .holding hr rfl hout
    case register => exact .waiting hr hout
    all_goals cases hi
  | waiting hr h =>
    have hplace : s'.place = s.place := by
      simp only [exec1] at hs
      split at hs <;> cases hs
      rfl
    have hno : s.inflight.any (·.fh = fh) = false := by
      simp only [exec1] at hs
      split at hs
      · cases hs
      · rename_i hany
        exact Bool.not_eq_true _ ▸ hany
    refine .checking hr fun p hp => ?_
    rw [hplace]
    have hl := hsound.inv.located p (hmem p hp)
    have hfh := (hdue p hp).2
    change s.places.Located p (s.place p.id) at hl
    cases hpl : s.place p.id with
    | buffered => exact absurd hpl (h p hp)
    | held t' =>
      rw [hpl] at hl
      obtain ⟨c, hc, -⟩ := hl
      rw [hfh] at hc
      exact absurd hc (hg t' c)
    | flying id =>
      rw [hpl] at hl
      obtain ⟨u, hu, -, hufh, -⟩ := hl
      rw [List.any_eq_false] at hno
      exact absurd (hufh.trans hfh) (by simpa using hno u hu)
    | applied => exact .inl rfl
    | lost => exact .inr rfl
  | checking hr h =>
    simp only [after] at hm ⊢
    split at hm
    · rename_i herr
      rw [if_pos herr]
      simp only [exec1, herr, Option.some.injEq] at hs
      subst hs
      refine .done hr fun p hp => ?_
      rcases h p hp with h | h
      · exact h
      · -- A lost part has left an error, which nobody has taken.
        have hl := hsound.inv.located p (hmem p hp)
        have hpl : s.places.place p.id = .lost := h
        rw [hpl] at hl
        rw [Places.Located, (hdue p hp).2] at hl
        rcases hl with hl | hl
        · exact absurd herr hl
        · exact absurd hl hg
    · cases hm
  | done hr h =>
    have := hr _ hm
    cases this

/-! ## Every run -/

theorem program_flushed {c : VfsCall} {prog : List Instr} {fh : Nat} {due : List Part}
    (h : s.program ignore c = some prog) (hm : .flushed fh due ∈ prog) :
    due = s.returned.filter (·.fh = fh) ∧ ∀ s' : WriteBack, FlushAt s' fh due prog := by
  cases programs_of_program h with
  | flush fh' =>
    obtain ⟨rfl, rfl⟩ : fh = fh' ∧ due = s.returned.filter (·.fh = fh') := by simpa using hm
    exact ⟨rfl, fun _ => .start (by simp)⟩
  | fsync ino fh' path =>
    obtain ⟨rfl, rfl⟩ : fh = fh' ∧ due = s.returned.filter (·.fh = fh') := by simpa using hm
    exact ⟨rfl, fun _ => .start (by simp [Instr.isFlushed])⟩
  | _ => simp at hm

theorem FlushInv.step (h : s.FlushInv) (hg : s.SeesAll a) (hs : s.step ignore a = some s') : s'.FlushInv := by
  obtain ⟨hsound, hdue, hat, hdone⟩ := h
  -- A flush of a thread that does not step keeps what it has made sure of.
  have hother : ∀ t fh due, .flushed fh due ∈ s.threads t → (∀ p ∈ due, p ∈ s'.written ∧ p.fh = fh) ∧
      FlushAt s' fh due (s.threads t) := by
    intro t fh due hm
    have hd := hdue t fh due hm
    exact ⟨fun p hp => ⟨(hsound.forward hs (hd p hp).1).1, (hd p hp).2⟩,
      (hat t fh due hm).mono hsound hs fun p hp => (hd p hp).1⟩
  have hstill : ∀ f ∈ s.flushed, ∀ p ∈ f.2, p ∈ s'.written ∧ s'.place p.id = .applied := by
    intro f hf p hp
    obtain ⟨hw, happ⟩ := hdone f hf p hp
    exact ⟨(hsound.forward hs hw).1, hsound.applied hs hw happ⟩
  have hboth : ∀ t fh due, .flushed fh due ∈ s'.threads t → (∀ p ∈ due, p ∈ s'.written ∧ p.fh = fh) ∧
      FlushAt s' fh due (s'.threads t) := by
    intro t fh due hm
    rcases step_thread hs t with ⟨hth, -⟩ | ⟨c, prog, -, hprog, rfl, hth⟩ | ⟨i, rest, rfl, hprog, he, hth⟩
    · rw [hth] at hm ⊢
      exact hother t fh due hm
    · rw [hth] at hm ⊢
      obtain ⟨rfl, hstart⟩ := program_flushed hprog hm
      refine ⟨fun p hp => ?_, hstart _⟩
      obtain ⟨hp, hfh⟩ := List.mem_filter.1 hp
      exact ⟨hsound.returned p hp, by simpa using hfh⟩
    · rw [hth] at hm ⊢
      have hm' : .flushed fh due ∈ s.threads t := by
        rw [hprog]
        exact List.mem_cons_of_mem _ (mem_after rfl hm)
      have hd := hdue t fh due hm'
      have hflush := hat t fh due hm'
      rw [hprog] at hflush
      exact ⟨(hother t fh due hm').1, hflush.step hsound hprog hd hg he hm⟩
  refine ⟨hsound.step hs, fun t fh due hm => (hboth t fh due hm).1, fun t fh due hm => (hboth t fh due hm).2, ?_⟩
  rcases step_threads hs with ⟨t, c, prog, -, -, hprog, rfl⟩ | ⟨t, i, rest, rfl, hprog, he⟩ | ⟨-, -, -, hfl, -⟩
  · exact hstill
  · rw [(exec1_frame he).2.2.1]
    split
    · rename_i fh due he
      intro f hf
      rcases List.mem_append.1 hf with hf | hf
      · exact hstill f hf
      · rw [List.mem_singleton.1 hf]
        have hm : .flushed fh due ∈ s.threads t := by
          rw [hprog]
          exact List.mem_cons_self
        have hflush := hat t fh due hm
        rw [hprog] at hflush
        cases hflush with
        | holding _ hi _ => cases hi
        | done _ happ =>
          intro p hp
          have hw := (hdue t fh due hm p hp).1
          exact ⟨(hsound.forward hs hw).1, hsound.applied hs hw (happ p hp)⟩
    · exact hstill
  · rw [hfl]
    exact hstill

/-- The data of a write is on the remote: some upload that returned `Ok` had it. -/
def OnRemote (s : WriteBack) (p : Part) : Prop := ∃ c ∈ s.uploaded, p ∈ c.parts

/-- In every run in which each flush sees all there is, what was written through
a handle before a flush that returns `Ok` is on the remote. -/
theorem flush_waits (ignore : List String) (inodes : Nat → Option String) (remote : String → Bytes)
    (as : List WriteBackAct) (s : WriteBack) (hg : Guarded (step ignore) SeesAll (start inodes remote) as)
    (h : exec (step ignore) (start inodes remote) as = some s) :
    ∀ f ∈ s.flushed, ∀ p ∈ f.2, s.OnRemote p := by
  have hstart : (start inodes remote).FlushInv :=
    ⟨start_sound inodes remote, by simp [start], by simp [start], by simp [start]⟩
  have hinv : s.FlushInv := exec_guarded_inv FlushInv (fun _ _ _ h hg hs => h.step hg hs) hstart hg h
  intro f hf p hp
  obtain ⟨hw, happ⟩ := hinv.flushed f hf p hp
  have hl := hinv.sound.inv.located p hw
  have hpl : s.places.place p.id = .applied := happ
  rwa [hpl] at hl

/-! ## What a flush misses -/

/-- One file, `f`, with inode 2. -/
def oneFile : WriteBack := start (fun ino => if ino = 2 then some "f" else none) fun _ => []

/-- Thread 0 writes a byte through handle 7. -/
def writesByte : List WriteBackAct := [.call 0 (.write 2 7 0 [65]), .run 0, .run 0, .run 0]

/-- Thread 0 flushes handle 7 and finds nothing to do. -/
def flushesNothing : List WriteBackAct := [.call 0 (.flush 7), .run 0, .run 0, .run 0, .run 0]

/-- The idle flusher has the buffer of the handle in its hands while `flush`
finds neither a buffer nor an upload; or the upload fails, a later write returns
the error, and `flush` finds no error. -/
theorem flush_returns_early :
    (¬ ∀ s, exec (step []) oneFile (writesByte ++ [.call 1 (.flushIdle [7]), .run 1] ++ flushesNothing) = some s →
      ∀ f ∈ s.flushed, ∀ p ∈ f.2, s.OnRemote p) ∧
    (¬ ∀ s, exec (step []) oneFile (writesByte ++
        [.call 1 (.flushIdle [7]), .run 1, .run 1, .run 1, .uploadFails 1 .enospc 0, .complete 1,
          .call 0 (.write 2 7 1 [66]), .run 0] ++ flushesNothing) = some s →
      ∀ f ∈ s.flushed, ∀ p ∈ f.2, s.OnRemote p) := by
  constructor
  · intro h
    have hrun : (exec (step []) oneFile (writesByte ++ ([.call 1 (.flushIdle [7]), .run 1] : List WriteBackAct) ++
        flushesNothing)).map (fun s => (s.flushed, s.uploaded.length)) =
        some ([(7, [⟨0, 7, "f", 0, [65]⟩])], 0) := by decide
    obtain ⟨s, hs, he⟩ := Option.map_eq_some_iff.1 hrun
    obtain ⟨hf, hu⟩ := Prod.mk.inj he
    obtain ⟨c, hc, -⟩ := h s hs _ (by rw [hf]; exact List.mem_singleton_self _) _ (List.mem_singleton_self _)
    rw [List.length_eq_zero_iff.1 hu] at hc
    cases hc
  · intro h
    have hrun : (exec (step []) oneFile (writesByte ++
        ([.call 1 (.flushIdle [7]), .run 1, .run 1, .run 1, .uploadFails 1 .enospc 0, .complete 1,
          .call 0 (.write 2 7 1 [66]), .run 0] : List WriteBackAct) ++ flushesNothing)).map
        (fun s => (s.flushed, s.uploaded.length)) = some ([(7, [⟨0, 7, "f", 0, [65]⟩])], 0) := by decide
    obtain ⟨s, hs, he⟩ := Option.map_eq_some_iff.1 hrun
    obtain ⟨hf, hu⟩ := Prod.mk.inj he
    obtain ⟨c, hc, -⟩ := h s hs _ (by rw [hf]; exact List.mem_singleton_self _) _ (List.mem_singleton_self _)
    rw [List.length_eq_zero_iff.1 hu] at hc
    cases hc

/-- A write and a flush by one thread: the flush uploads the byte and waits for it. -/
def writesAndFlushes : List WriteBackAct :=
  writesByte ++ [.call 0 (.flush 7), .run 0, .run 0, .run 0, .upload 1, .complete 1, .run 0, .run 0, .run 0]

/-- `SeesAll`, where only thread 0 has anything to do. -/
def seesAll0 (s : WriteBack) : WriteBackAct → Bool
  | .run _ =>
    match s.threads 0 with
    | .takeError fh :: .flushed _ _ :: _ => fh ∉ s.taken
    | _ => true
  | _ => true

def OnlyThread0 : WriteBackAct → Prop
  | .call t _ => t = 0
  | .run t => t = 0
  | _ => True

theorem step_onlyThread0 (h : ∀ t ≠ 0, s.threads t = []) (ha : OnlyThread0 a) (hs : s.step ignore a = some s') :
    ∀ t ≠ 0, s'.threads t = [] := by
  intro t' ht
  rcases step_threads hs with ⟨t, c, prog, rfl, -, -, rfl⟩ | ⟨t, i, rest, rfl, -, he⟩ | ⟨hth, -⟩
  · obtain rfl : t = 0 := ha
    simpa only [goOn, Function.update_of_ne ht] using h t' ht
  · obtain rfl : t = 0 := ha
    rw [exec1_threads he, Function.update_of_ne ht]
    exact h t' ht
  · rw [hth]
    exact h t' ht

theorem seesAll_of_seesAll0 (h : ∀ t ≠ 0, s.threads t = []) (ha : OnlyThread0 a) (hc : s.seesAll0 a = true) :
    s.SeesAll a := by
  cases a with
  | run t =>
    obtain rfl : t = 0 := ha
    simp only [seesAll0] at hc
    simp only [SeesAll]
    split
    · rename_i fh rest hprog
      intro t' c
      by_cases ht : t' = 0
      · subst ht
        simp [hprog, holds]
      · simp [h t' ht, holds]
    · rename_i fh fh' due rest hprog
      simpa [hprog] using hc
    · trivial
  | _ => trivial

theorem flush_waits_alone :
    ∃ s, exec (step []) oneFile writesAndFlushes = some s ∧ s.flushed = [(7, [⟨0, 7, "f", 0, [65]⟩])] ∧
      ∀ f ∈ s.flushed, ∀ p ∈ f.2, s.OnRemote p := by
  have hrun : (exec (step []) oneFile writesAndFlushes).map (·.flushed) =
      some [(7, [⟨0, 7, "f", 0, [65]⟩])] := by decide
  obtain ⟨s, hs, hf⟩ := Option.map_eq_some_iff.1 hrun
  have hg : Guarded (step []) SeesAll oneFile writesAndFlushes :=
    guarded_of_checkRun (fun s => ∀ t ≠ 0, s.threads t = []) OnlyThread0 seesAll0
      (fun _ _ _ => step_onlyThread0) (fun _ _ => seesAll_of_seesAll0) (fun _ _ => rfl)
      (by simp [writesAndFlushes, writesByte, OnlyThread0]) (by decide)
  exact ⟨s, hs, hf, flush_waits [] _ _ writesAndFlushes s hg hs⟩

end WriteBack

end Mobfs
