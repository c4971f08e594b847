import Mobfs.Vfs.Flush
/-!
# Chunks on their way

Where a buffer, a chunk in a thread's hands or an upload comes from: the step before had
it, or a write has made or extended it. `Placed` says that the inodes of all of them have a
path, and which it is where the path has been looked up.
-/

namespace Mobfs

open Lib Std

namespace WriteBack

variable {s s' : WriteBack} {ignore : List String} {a : WriteBackAct}

theorem mem_after_resolve {i : Instr} {rest : List Instr} {fh : Nat} {c : Pending}
    (h : .resolve fh c ∈ s.after rest i) : .resolve fh c ∈ rest ∨ s.buffers[fh]? = some c := by
  cases i <;> simp only [after] at h <;> grind

theorem mem_after_register {i : Instr} {rest : List Instr} {fh : Nat} {c : Pending}
    (h : .register fh c ∈ s.after rest i) :
    .register fh c ∈ rest ∨ ∃ c₀, i = .resolve fh c₀ ∧ c = { c₀ with path := (s.inodes c₀.ino).getD c₀.path } := by
  cases i <;> simp only [after] at h <;> grind

/-- A buffer after an instruction was there before, or a write has made or extended it. -/
theorem exec1_buffers {t : Nat} {i : Instr} {rest : List Instr} (h : s.exec1 t rest i = some s') {fh : Nat} {c : Pending}
    (hc : s'.buffers[fh]? = some c) :
    s.buffers[fh]? = some c ∨ ∃ ino path offset data, i = .buffer fh ino path offset data ∧ c.ino = ino ∧
      ∀ p ∈ c.parts, p.id = s.written.length ∨ ∃ c₀, s.buffers[fh]? = some c₀ ∧ c₀.ino = ino ∧ p ∈ c₀.parts := by
  cases i <;> simp only [exec1] at h
  case buffer fh' ino path offset data =>
    obtain ⟨c', place, threads, heq, hino, hparts⟩ := s.bufferWrite_eq t rest ino ⟨s.written.length, fh', path, offset, data⟩
    rw [heq] at h
    cases h
    simp only [get?_insert] at hc
    split at hc
    · rename_i hfh
      subst hfh
      cases hc
      refine .inr ⟨ino, path, offset, data, rfl, hino, fun p hp => ?_⟩
      exact (hparts p hp).imp_left fun hp => by rw [hp]
    · exact .inl hc
  case take fh' =>
    split at h
    · cases h
      exact .inl hc
    · cases h
      simp only [goOn, move, get?_erase] at hc
      split at hc
      · cases hc
      · exact .inl hc
  all_goals
    try split at h
    all_goals
      cases h <;> exact .inl hc

theorem exec1_written_le {t : Nat} {i : Instr} {rest : List Instr} (h : s.exec1 t rest i = some s') :
    s.written.length ≤ s'.written.length := by
  by_cases hi : ∃ fh ino path o d, i = .buffer fh ino path o d
  · obtain ⟨fh, ino, path, o, d, rfl⟩ := hi
    simp [buffer_written h]
  · rw [exec1_written (fun fh ino path o d he => hi ⟨fh, ino, path, o, d, he⟩) h]

theorem exec1_waitMatching {t : Nat} {p : String} {rest : List Instr} (h : s.exec1 t rest (.waitMatching p) = some s') :
    s'.inflight = s.inflight ∧ ∀ u ∈ s.inflight, matching p u.pending.path = false := by
  simp only [exec1, Option.ite_none_left_eq_some, Option.some.injEq] at h
  obtain ⟨hnone, rfl⟩ := h
  refine ⟨rfl, fun u hu => ?_⟩
  rw [Bool.not_eq_true, List.any_eq_false] at hnone
  exact Bool.eq_false_iff.2 (hnone u hu)

/-- A call has its data, or the chunk it holds, at the path of its inode. -/
structure Placed (s : WriteBack) : Prop where
  call : ∀ t fh ino path offset data, .buffer fh ino path offset data ∈ s.threads t → s.inodes ino ≠ none
  buffers : ∀ (fh : Nat) (c : Pending), s.buffers[fh]? = some c → s.inodes c.ino ≠ none
  resolve : ∀ t fh c, .resolve fh c ∈ s.threads t → s.inodes c.ino ≠ none
  register : ∀ t fh c, .register fh c ∈ s.threads t → s.inodes c.ino = some c.path
  inflight : ∀ u ∈ s.inflight, u.state = .queued → s.inodes u.pending.ino = some u.pending.path

/-- The chunk is still to be written to the remote. -/
def HasChunk (s : WriteBack) (c : Pending) : Prop :=
  (∃ fh : Nat, s.buffers[fh]? = some c) ∨ (∃ t fh, .resolve fh c ∈ s.threads t) ∨
    (∃ t fh, .register fh c ∈ s.threads t) ∨ ∃ u ∈ s.inflight, u.state = .queued ∧ u.pending = c

/-- Where the threads, buffers and uploads after a step come from. -/
structure Flows (s s' : WriteBack) : Prop where
  inodes : s'.inodes = s.inodes
  written : s.written.length ≤ s'.written.length
  call : ∀ t fh ino path offset data, .buffer fh ino path offset data ∈ s'.threads t →
    .buffer fh ino path offset data ∈ s.threads t ∨ s.inodes ino ≠ none
  buffers : ∀ (fh : Nat) (c : Pending), s'.buffers[fh]? = some c → s.buffers[fh]? = some c ∨
    (∃ t path offset data, .buffer fh c.ino path offset data ∈ s.threads t) ∧
      ∀ p ∈ c.parts, p.id = s.written.length ∨ ∃ c₀, s.buffers[fh]? = some c₀ ∧ c₀.ino = c.ino ∧ p ∈ c₀.parts
  resolve : ∀ t fh c, .resolve fh c ∈ s'.threads t → .resolve fh c ∈ s.threads t ∨ s.buffers[fh]? = some c
  register : ∀ t fh c, .register fh c ∈ s'.threads t → .register fh c ∈ s.threads t ∨
    ∃ c₀, .resolve fh c₀ ∈ s.threads t ∧ c = { c₀ with path := (s.inodes c₀.ino).getD c₀.path }
  inflight : ∀ w ∈ s'.inflight, (∃ u ∈ s.inflight, u.pending = w.pending ∧ (w.state = .queued → u.state = .queued)) ∨
    ∃ t fh, .register fh w.pending ∈ s.threads t

/-- A step that leaves the threads and fills no buffer. -/
theorem flows_uploads (hi : s'.inodes = s.inodes) (hw : s'.written = s.written) (ht : s'.threads = s.threads)
    (hb : ∀ (fh : Nat) c, s'.buffers[fh]? = some c → s.buffers[fh]? = some c)
    (hf : ∀ w ∈ s'.inflight, ∃ u ∈ s.inflight, u.pending = w.pending ∧ (w.state = .queued → u.state = .queued)) :
    Flows s s' := by
  refine ⟨hi, by rw [hw], ?_, ?_, ?_, ?_, fun w hw => .inl (hf w hw)⟩
  · intro t fh ino path offset data hm
    exact .inl (ht ▸ hm)
  · intro fh c hc
    exact .inl (hb fh c hc)
  · intro t fh c hm
    exact .inl (ht ▸ hm)
  · intro t fh c hm
    exact .inl (ht ▸ hm)

theorem flows_call {t : Nat} {prog : List Instr} (hprog : ∀ i ∈ prog, i.holding = false)
    (hb : ∀ fh ino path offset data, .buffer fh ino path offset data ∈ prog → s.inodes ino ≠ none) :
    Flows s (s.goOn t prog) := by
  have hmem : ∀ {t' i}, i ∈ (s.goOn t prog).threads t' → i ∈ s.threads t' ∨ i ∈ prog := by
    intro t' i hi
    by_cases ht : t' = t
    · subst ht
      exact .inr (by simpa [goOn] using hi)
    · exact .inl (by simpa [goOn, Function.update_of_ne ht] using hi)
  refine ⟨rfl, Nat.le_refl _, ?_, fun _ _ hc => .inl hc, ?_, ?_, fun w hw => .inl ⟨w, hw, rfl, id⟩⟩
  · intro t' fh ino path offset data hm
    exact (hmem hm).imp_right (hb fh ino path offset data)
  · intro t' fh c hm
    refine (hmem hm).imp_right fun hp => ?_
    cases hprog _ hp
  · intro t' fh c hm
    refine (hmem hm).imp_right fun hp => ?_
    cases hprog _ hp

theorem flows_exec1 {t : Nat} {i : Instr} {rest : List Instr} (hprog : s.threads t = i :: rest)
    (h : s.exec1 t rest i = some s') : Flows s s' := by
  have hmem : ∀ {t' j}, j ∈ s'.threads t' → j ∈ s.threads t' ∨ t' = t ∧ j ∈ s.after rest i := by
    intro t' j hj
    rw [exec1_threads h] at hj
    by_cases ht : t' = t
    · subst ht
      exact .inr ⟨rfl, by simpa using hj⟩
    · exact .inl (by simpa [Function.update_of_ne ht] using hj)
  have hrest : ∀ j ∈ rest, j ∈ s.threads t := by
    intro j hj
    rw [hprog]
    exact List.mem_cons_of_mem _ hj
  have hhead : i ∈ s.threads t := by
    rw [hprog]
    exact List.mem_cons_self
  refine ⟨(exec1_frame h).1, exec1_written_le h, ?_, ?_, ?_, ?_, ?_⟩
  · intro t' fh ino path offset data hm
    rcases hmem hm with hm | ⟨rfl, hm⟩
    · exact .inl hm
    · exact .inl (hrest _ (mem_after rfl hm))
  · intro fh c hc
    rcases exec1_buffers h hc with hc | ⟨ino, path, offset, data, rfl, rfl, hparts⟩
    · exact .inl hc
    · exact .inr ⟨⟨t, path, offset, data, hhead⟩, hparts⟩
  · intro t' fh c hm
    rcases hmem hm with hm | ⟨rfl, hm⟩
    · exact .inl hm
    · exact (mem_after_resolve hm).imp_left (hrest _)
  · intro t' fh c hm
    rcases hmem hm with hm | ⟨rfl, hm⟩
    · exact .inl hm
    · rcases mem_after_register hm with hm | ⟨c₀, rfl, he⟩
      · exact .inl (hrest _ hm)
      · exact .inr ⟨c₀, hhead, he⟩
  · intro w hw
    rcases exec1_uploads h with ⟨hi, -⟩ | ⟨fh, c, rfl, hi, -⟩
    · exact .inl ⟨w, hi ▸ hw, rfl, id⟩
    · rw [hi] at hw
      rcases List.mem_append.1 hw with hw | hw
      · exact .inl ⟨w, hw, rfl, id⟩
      · rw [List.mem_singleton.1 hw]
        exact .inr ⟨t, fh, hhead⟩

theorem flows_step (hno : ∀ n, a ≠ .setInodes n) (h : s.step ignore a = some s') : Flows s s' := by
  have hset : ∀ (n : Nat) state, state ≠ .queued → ∀ w ∈ (s.setState n state).inflight,
      ∃ u ∈ s.inflight, u.pending = w.pending ∧ (w.state = .queued → u.state = .queued) := by
    intro n state hst w hw
    obtain ⟨u, hu, rfl⟩ := List.mem_map.1 hw
    refine ⟨u, hu, ?_⟩
    split
    · exact ⟨rfl, fun hq => absurd hq hst⟩
    · exact ⟨rfl, id⟩
  have htaken : ∀ n, ∀ w ∈ s.inflight.filter (·.id ≠ n),
      ∃ u ∈ s.inflight, u.pending = w.pending ∧ (w.state = .queued → u.state = .queued) :=
    fun n w hw => ⟨w, (List.mem_filter.1 hw).1, rfl, id⟩
  cases step_cases h with
  | call hidle hprog =>
    exact flows_call (fun i hi => (program_fresh hprog i hi).1)
      fun fh ino path offset data hm => by rw [program_buffer hprog hm]; simp
  | run hprog he => exact flows_exec1 hprog he
  | upload hu hq => exact flows_uploads rfl rfl rfl (fun _ _ hc => hc) (hset _ _ (by simp))
  | uploadFails hu hq => exact flows_uploads rfl rfl rfl (fun _ _ hc => hc) (hset _ _ (by simp))
  | completeWritten hu hw => exact flows_uploads rfl rfl rfl (fun _ _ hc => hc) (htaken _)
  | completeFailed hu hf => exact flows_uploads rfl rfl rfl (fun _ _ hc => hc) (htaken _)
  | setInodes => exact absurd rfl (hno _)

theorem Placed.flows (h : s.Placed) (hf : Flows s s') : s'.Placed := by
  constructor
  · intro t fh ino path offset data hm
    rw [hf.inodes]
    rcases hf.call t fh ino path offset data hm with hm | hne
    · exact h.call t fh ino path offset data hm
    · exact hne
  · intro fh c hc
    rw [hf.inodes]
    rcases hf.buffers fh c hc with hc | ⟨⟨t, path, offset, data, hm⟩, -⟩
    · exact h.buffers fh c hc
    · exact h.call t fh c.ino path offset data hm
  · intro t fh c hm
    rw [hf.inodes]
    rcases hf.resolve t fh c hm with hm | hb
    · exact h.resolve t fh c hm
    · exact h.buffers fh c hb
  · intro t fh c hm
    rw [hf.inodes]
    rcases hf.register t fh c hm with hm | ⟨c₀, hres, rfl⟩
    · exact h.register t fh c hm
    · -- The inode has a path, so it is the one that is looked up.
      obtain ⟨path, hp⟩ := Option.ne_none_iff_exists'.1 (h.resolve t fh c₀ hres)
      simp [hp]
  · intro w hw hq
    rw [hf.inodes]
    rcases hf.inflight w hw with ⟨u, hu, hp, hst⟩ | ⟨t, fh, hm⟩
    · rw [← hp]
      exact h.inflight u hu (hst hq)
    · exact h.register t fh w.pending hm

/-- The parts of a chunk are those of a chunk of the same inode, or one just written. -/
theorem Flows.chunk (hf : Flows s s') {c : Pending} (hc : s'.HasChunk c) {p : Part} (hp : p ∈ c.parts) :
    p.id = s.written.length ∨ ∃ c₀, s.HasChunk c₀ ∧ c₀.ino = c.ino ∧ p ∈ c₀.parts := by
  rcases hc with ⟨fh, hc⟩ | ⟨t, fh, hc⟩ | ⟨t, fh, hc⟩ | ⟨w, hw, hq, rfl⟩
  · rcases hf.buffers fh c hc with hc | ⟨-, hparts⟩
    · exact .inr ⟨c, .inl ⟨fh, hc⟩, rfl, hp⟩
    · rcases hparts p hp with hid | ⟨c₀, hc₀, hino, hp⟩
      · exact .inl hid
      · exact .inr ⟨c₀, .inl ⟨fh, hc₀⟩, hino, hp⟩
  · rcases hf.resolve t fh c hc with hc | hc
    · exact .inr ⟨c, .inr (.inl ⟨t, fh, hc⟩), rfl, hp⟩
    · exact .inr ⟨c, .inl ⟨fh, hc⟩, rfl, hp⟩
  · rcases hf.register t fh c hc with hc | ⟨c₀, hc₀, rfl⟩
    · exact .inr ⟨c, .inr (.inr (.inl ⟨t, fh, hc⟩)), rfl, hp⟩
    · exact .inr ⟨c₀, .inr (.inl ⟨t, fh, hc₀⟩), rfl, hp⟩
  · rcases hf.inflight w hw with ⟨u, hu, hpend, hst⟩ | ⟨t, fh, hm⟩
    · exact .inr ⟨w.pending, .inr (.inr (.inr ⟨u, hu, hst hq, hpend⟩)), rfl, hp⟩
    · exact .inr ⟨w.pending, .inr (.inr (.inl ⟨t, fh, hm⟩)), rfl, hp⟩

/-- What is still to be written has an inode with a path. -/
theorem Placed.inode_ne_none (h : s.Placed) {c : Pending} (hc : s.HasChunk c) : s.inodes c.ino ≠ none := by
  rcases hc with ⟨fh, hc⟩ | ⟨t, fh, hc⟩ | ⟨t, fh, hc⟩ | ⟨u, hu, hq, rfl⟩
  · exact h.buffers fh c hc
  · exact h.resolve t fh c hc
  · rw [h.register t fh c hc]
    simp
  · rw [h.inflight u hu hq]
    simp

end WriteBack

end Mobfs
