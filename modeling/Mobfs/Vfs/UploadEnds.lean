import Mathlib.Algebra.GroupWithZero.Nat
import Mathlib.Algebra.BigOperators.Group.Finset.Basic
import Mathlib.Algebra.Order.BigOperators.Group.List
import Mobfs.Vfs.Threads
/-!
# Every flush ends

A call of the write-back state waits for uploads only, and an upload for its worker only. So
where a call waits, some upload can take a step; and no call and no upload goes on without
end: each instruction leads to so many steps and no more, whatever the order in which the
threads and the workers take them. `flush_matching` and `flush_all_buffers` go over the
buffers that there are, and no step makes another one but a `write` under way.
-/

namespace Mobfs

open Lib Std

/-- The steps that an instruction leads to, those of an upload among them, where there are at
most `n` buffers. -/
def Instr.work (n : Nat) : Instr → Nat
  | .buffer _ _ _ _ _ => 6
  | .take _ => 5
  | .resolve _ _ => 4
  | .register _ _ => 3
  | .collect _ => 6 * n + 2
  | .collectAll => 5 * n + 2
  | _ => 1

/-- The buffers that it may make. -/
def Instr.fills : Instr → Nat
  | .buffer _ _ _ _ _ => 1
  | _ => 0

/-- The steps that an upload has still to take. -/
def Upload.left (u : Upload) : Nat := if u.state = .queued then 2 else 1

/-- A call starts, or inodes change. -/
def WriteBackAct.outer : WriteBackAct → Bool
  | .call _ _ | .setInodes _ => true
  | _ => false

namespace WriteBack

variable {ignore : List String} {s s' : WriteBack} {n : Nat} {t : Nat} {i : Instr} {rest : List Instr}

def work (n : Nat) (prog : List Instr) : Nat := (prog.map (Instr.work n)).sum

def fills (prog : List Instr) : Nat := (prog.map Instr.fills).sum

def uploadsLeft (uploads : List Upload) : Nat := (uploads.map Upload.left).sum

@[simp] theorem work_nil : work n [] = 0 := rfl

@[simp] theorem work_cons : work n (i :: rest) = i.work n + work n rest := rfl

@[simp] theorem work_append (p q : List Instr) : work n (p ++ q) = work n p + work n q := by
  simp [work]

@[simp] theorem fills_cons : fills (i :: rest) = i.fills + fills rest := rfl

@[simp] theorem fills_append (p q : List Instr) : fills (p ++ q) = fills p + fills q := by
  simp [fills]

theorem work_map {f : Nat → Instr} {k : Nat} (fhs : List Nat) (h : ∀ fh, (f fh).work n = k) :
    work n (fhs.map f) = fhs.length * k := by
  induction fhs with
  | nil => simp
  | cons fh fhs ih =>
    rw [List.map_cons, work_cons, ih, h, List.length_cons, Nat.add_mul, Nat.one_mul, Nat.add_comm]

/-! ## One instruction -/

/-- The instruction is done, and has led to fewer steps than it may. -/
theorem work_after (h : s.exec1 t rest i = some s') (hn : s.buffers.size ≤ n) :
    work n (s.after rest i) + uploadsLeft s'.inflight + 1 ≤ i.work n + work n rest + uploadsLeft s.inflight := by
  have hmatching : ∀ path, (s.matchingHandles path).length ≤ n := by
    intro path
    rw [matchingHandles, List.length_map]
    exact Nat.le_trans (List.length_filter_le _ _) (ExtTreeMap.length_toList.trans_le hn)
  rcases exec1_uploads h with ⟨hup, -⟩ | ⟨fh, c, rfl, hup, -⟩
  · rw [hup]
    cases i <;> simp only [after, Instr.work]
    case takeError fh =>
      split
      · omega
      · simp only [work_nil]
        omega
    case buffer fh ino path offset data =>
      split
      · simp only [work_cons, Instr.work]
        omega
      · split <;> simp only [work_cons, Instr.work] <;> omega
    case take fh =>
      split
      · omega
      · simp only [work_cons, Instr.work]
        omega
    case collect path =>
      have := hmatching path
      simp only [work_append, work_cons, work_map _ (fun _ => rfl : ∀ fh, (Instr.take fh).work n = 5),
        work_map _ (fun _ => rfl : ∀ fh, (Instr.takeError fh).work n = 1), Instr.work]
      omega
    case collectAll =>
      have hkeys : s.buffers.keys.length ≤ n := ExtTreeMap.length_keys.trans_le hn
      simp only [work_append, work_cons, work_map _ (fun _ => rfl : ∀ fh, (Instr.take fh).work n = 5), Instr.work]
      omega
    all_goals
      try simp only [work_cons, Instr.work]
      omega
  · simp only [after, hup, uploadsLeft, List.map_append, List.sum_append, List.map_cons, List.map_nil, List.sum_cons,
      List.sum_nil, Upload.left, if_true, Instr.work]
    omega

theorem fills_after : fills (s.after rest i) ≤ fills rest := by
  rcases s.after_append i rest with ⟨he, -⟩ | ⟨new, he, hnew⟩
  · rw [he]
    exact Nat.zero_le _
  · have hzero : fills new = 0 := by
      refine List.sum_eq_zero fun k hk => ?_
      obtain ⟨j, hj, rfl⟩ := List.mem_map.1 hk
      have := hnew j hj
      cases j <;> first | rfl | cases this
    rw [he, fills_append, hzero, Nat.zero_add]

/-- A buffer more is one write less that may make one. -/
theorem size_after (h : s.exec1 t rest i = some s') : s'.buffers.size ≤ s.buffers.size + i.fills := by
  cases i <;> simp only [exec1] at h
  case buffer fh ino path offset data =>
    obtain ⟨c, place, threads, heq, -⟩ := s.bufferWrite_eq t rest ino ⟨s.written.length, fh, path, offset, data⟩
    rw [heq] at h
    cases h
    exact ExtTreeMap.size_insert_le
  case take fh =>
    split at h <;> cases h
    · exact Nat.le_refl _
    · exact ExtTreeMap.size_erase_le
  all_goals
    try split at h
    all_goals
      cases h <;> exact Nat.le_refl _

/-! ## Uploads -/

theorem setState_left {us : List Upload} {id : Nat} {u : Upload} (st : UploadState) (hu : us.find? (·.id = id) = some u)
    (hq : u.state = .queued) (hst : st ≠ .queued) :
    uploadsLeft (us.map fun u => if u.id = id then { u with state := st } else u) + 1 ≤ uploadsLeft us := by
  have hone : ∀ v : Upload, (if v.id = id then { v with state := st } else v).left ≤ v.left := by
    intro v
    split
    · simp only [Upload.left, if_neg hst]
      split <;> omega
    · exact Nat.le_refl _
  have hall : ∀ vs : List Upload, uploadsLeft (vs.map fun u => if u.id = id then { u with state := st } else u) ≤ uploadsLeft vs := by
    intro vs
    induction vs with
    | nil => exact Nat.le_refl _
    | cons v vs ih => exact Nat.add_le_add (hone v) ih
  induction us with
  | nil => cases hu
  | cons v us ih =>
    rw [List.find?_cons] at hu
    split at hu
    · -- The upload itself: it was queued.
      rename_i hid
      cases hu
      have hid : u.id = id := of_decide_eq_true hid
      have hrest := hall us
      simp only [uploadsLeft, List.map_cons, List.sum_cons, if_pos hid, Upload.left, if_neg hst, if_pos hq] at hrest ⊢
      omega
    · have := ih hu
      have hv := hone v
      simp only [uploadsLeft, List.map_cons, List.sum_cons] at this ⊢
      omega

theorem filter_left {us : List Upload} {id : Nat} {u : Upload} (hu : us.find? (·.id = id) = some u) :
    uploadsLeft (us.filter (·.id ≠ id)) + 1 ≤ uploadsLeft us := by
  have hone : ∀ v : Upload, 1 ≤ v.left := by
    intro v
    unfold Upload.left
    split <;> omega
  have hall : ∀ vs : List Upload, uploadsLeft (vs.filter (·.id ≠ id)) ≤ uploadsLeft vs := by
    intro vs
    exact (List.filter_sublist.map Upload.left).sum_le_sum fun _ _ => Nat.zero_le _
  induction us with
  | nil => cases hu
  | cons v us ih =>
    rw [List.find?_cons] at hu
    split at hu
    · rename_i hid
      cases hu
      have hid : u.id = id := of_decide_eq_true hid
      have hrest := hall us
      have := hone u
      simp only [uploadsLeft, List.filter_cons, hid, ne_eq, not_true_eq_false, decide_false, Bool.false_eq_true, if_false,
        List.map_cons, List.sum_cons] at hrest ⊢
      omega
    · rename_i hid
      have hid : v.id ≠ id := by simpa using hid
      have := ih hu
      simp only [uploadsLeft, List.filter_cons, hid, ne_eq, not_false_eq_true, decide_true, if_true, List.map_cons,
        List.sum_cons] at this ⊢
      omega

/-! ## All threads -/

variable {T : Finset Nat}

/-- Calls are under way on these threads only. -/
def OnThreads (T : Finset Nat) (s : WriteBack) : Prop := ∀ t, s.threads t ≠ [] → t ∈ T

/-- The buffers that there are and those that may come. -/
def mayBuffer (T : Finset Nat) (s : WriteBack) : Nat := s.buffers.size + ∑ t ∈ T, fills (s.threads t)

/-- The steps that are left, with at most `n` buffers. -/
def stepsLeft (T : Finset Nat) (n : Nat) (s : WriteBack) : Nat :=
  ∑ t ∈ T, work n (s.threads t) + uploadsLeft s.inflight

theorem sum_update (w : List Instr → Nat) (f : Nat → List Instr) (prog : List Instr) (ht : t ∈ T) :
    ∑ u ∈ T, w (Function.update f t prog u) + w (f t) = ∑ u ∈ T, w (f u) + w prog := by
  have hrest : ∑ u ∈ T.erase t, w (Function.update f t prog u) = ∑ u ∈ T.erase t, w (f u) := by
    refine Finset.sum_congr rfl fun u hu => ?_
    rw [Function.update_of_ne (Finset.ne_of_mem_erase hu)]
  rw [← Finset.add_sum_erase _ _ ht, ← Finset.add_sum_erase _ (fun u => w (f u)) ht, Function.update_self, hrest]
  omega

/-- A step of a thread or of a worker: less is left. -/
theorem step_stepsLeft {a : WriteBackAct} (hT : OnThreads T s) (hn : mayBuffer T s ≤ n) (ha : a.outer = false)
    (h : s.step ignore a = some s') :
    OnThreads T s' ∧ mayBuffer T s' ≤ mayBuffer T s ∧ stepsLeft T n s' + 1 ≤ stepsLeft T n s := by
  cases step_cases h with
  | call => cases ha
  | setInodes => cases ha
  | @run t i rest _ hprog he =>
    have ht : t ∈ T := hT t (by simp [hprog])
    have hth := exec1_threads he
    have hw := sum_update (work n) s.threads (s.after rest i) ht
    have hf := sum_update fills s.threads (s.after rest i) ht
    have hwork := work_after he (Nat.le_trans (Nat.le_add_right _ _) hn)
    have hfills : fills (s.after rest i) ≤ fills rest := fills_after
    have hsize := size_after he
    rw [hprog] at hw hf
    simp only [work_cons, fills_cons] at hw hf
    refine ⟨fun u hu => ?_, ?_, ?_⟩
    · by_cases hut : u = t
      · exact hut ▸ ht
      · rw [hth, Function.update_of_ne hut] at hu
        exact hT u hu
    · simp only [mayBuffer, hth]
      omega
    · simp only [stepsLeft, hth]
      omega
  | upload hu hq =>
    have := setState_left .written hu hq (by simp)
    exact ⟨hT, Nat.le_refl _, Nat.add_le_add_left this (∑ t ∈ T, work n (s.threads t))⟩
  | @uploadFails id k e u hu hq =>
    have := setState_left (.failed e) hu hq (by simp)
    exact ⟨hT, Nat.le_refl _, Nat.add_le_add_left this (∑ t ∈ T, work n (s.threads t))⟩
  | completeWritten hu hw =>
    have := filter_left hu
    exact ⟨hT, Nat.le_refl _, Nat.add_le_add_left this (∑ t ∈ T, work n (s.threads t))⟩
  | completeFailed hu hf =>
    have := filter_left hu
    exact ⟨hT, Nat.le_refl _, Nat.add_le_add_left this (∑ t ∈ T, work n (s.threads t))⟩

theorem exec_stepsLeft {as : List WriteBackAct} (hT : OnThreads T s) (hn : mayBuffer T s ≤ n)
    (hcalls : ∀ a ∈ as, ∀ t c, a ≠ .call t c) (h : exec (step ignore) s as = some s') :
    OnThreads T s' ∧ as.countP (fun a => !a.outer) + stepsLeft T n s' ≤ stepsLeft T n s := by
  induction as generalizing s with
  | nil =>
    cases h
    exact ⟨hT, by simp⟩
  | cons a as ih =>
    obtain ⟨s1, h1, h⟩ := exec_cons.1 h
    have hrest : ∀ b ∈ as, ∀ t c, b ≠ .call t c := fun b hb => hcalls b (List.mem_cons_of_mem _ hb)
    cases ha : a.outer with
    | false =>
      obtain ⟨hT1, hn1, hleft⟩ := step_stepsLeft hT hn ha h1
      obtain ⟨hT', hcount⟩ := ih hT1 (Nat.le_trans hn1 hn) hrest h
      refine ⟨hT', ?_⟩
      rw [List.countP_cons, ha, if_pos (by rfl)]
      omega
    | true =>
      cases a with
      | call t c => exact absurd rfl (hcalls _ List.mem_cons_self t c)
      | setInodes inodes =>
        cases h1
        obtain ⟨hT', hcount⟩ := ih (s := { s with inodes }) hT hn hrest h
        refine ⟨hT', ?_⟩
        rw [List.countP_cons, ha, if_neg (by simp)]
        exact hcount
      | _ => cases ha

/-- As long as a call or an upload is under way, one of them can take a step. -/
theorem can_step (h : (∃ t, s.threads t ≠ []) ∨ s.inflight ≠ []) :
    ∃ a : WriteBackAct, a.outer = false ∧ (s.step ignore a).isSome = true := by
  by_cases hup : s.inflight = []
  · obtain ⟨t, ht⟩ := h.resolve_right (not_not.2 hup)
    refine ⟨.run t, rfl, ?_⟩
    obtain ⟨i, rest, hprog⟩ := List.exists_cons_of_ne_nil ht
    have hsome : (s.exec1 t rest i).isSome = true := by
      cases i <;> simp only [exec1]
      case takeError fh => split <;> rfl
      case take fh => split <;> rfl
      case register fh c => simp [overlapping, room, hup]
      case waitFh fh => simp [hup]
      case waitMatching path => simp [hup]
      case waitAll => simp [hup]
      all_goals rfl
    simpa [WriteBack.step, hprog] using hsome
  · obtain ⟨u, us, hus⟩ := List.exists_cons_of_ne_nil hup
    obtain ⟨v, hv⟩ : ∃ v, s.inflight.find? (·.id = u.id) = some v := by
      rw [← Option.isSome_iff_exists, List.find?_isSome]
      exact ⟨u, by rw [hus]; exact List.mem_cons_self, by simp⟩
    cases hst : v.state with
    | queued => exact ⟨.upload u.id, rfl, by simp [WriteBack.step, hv, hst]⟩
    | written => exact ⟨.complete u.id, rfl, by simp [WriteBack.step, hv, hst]⟩
    | failed e => exact ⟨.complete u.id, rfl, by simp [WriteBack.step, hv, hst]⟩

/-- From any state with calls under way on the threads of `T` and any uploads, without new
calls: however the threads and the workers take turns, and whatever becomes of the uploads,
there are no more than so many steps, and when no step is left to take all calls have returned
and no upload is under way. -/
theorem flushes_end (ignore : List String) (T : Finset Nat) (s s' : WriteBack) (as : List WriteBackAct)
    (hT : ∀ t, s.threads t ≠ [] → t ∈ T) (hcalls : ∀ a ∈ as, ∀ t c, a ≠ .call t c)
    (h : exec (step ignore) s as = some s') :
    as.countP (fun a => !a.outer) ≤ stepsLeft T (mayBuffer T s) s ∧
      ((∀ a : WriteBackAct, a.outer = false → s'.step ignore a = none) → (∀ t, s'.threads t = []) ∧ s'.inflight = []) := by
  obtain ⟨-, hcount⟩ := exec_stepsLeft hT (Nat.le_refl _) hcalls h
  refine ⟨by omega, fun hnone => ?_⟩
  by_contra hne
  have hunder : (∃ t, s'.threads t ≠ []) ∨ s'.inflight ≠ [] := by
    by_contra hno
    simp only [not_or, not_exists, not_not] at hno
    exact hne hno
  obtain ⟨a, ha, hsome⟩ : ∃ a : WriteBackAct, a.outer = false ∧ (s'.step ignore a).isSome = true := can_step hunder
  rw [hnone a ha] at hsome
  cases hsome

/-- A flush of a handle that has a byte in its buffer. -/
def flushStarts : WriteBack :=
  { start (fun _ => some "f") (fun _ => []) with
    buffers := (∅ : ExtTreeMap Nat Pending).insert 1 (.single 2 ⟨0, 1, "f", 0, [7]⟩)
    threads := Function.update (fun _ => []) 3 [.take 1, .waitFh 1, .takeError 1, .flushed 1 []] }

def flushRuns : List WriteBackAct :=
  [.run 3, .run 3, .run 3, .upload 1, .complete 1, .run 3, .run 3, .run 3]

theorem flushes_end_one : ∃ s, exec (step []) flushStarts flushRuns = some s ∧ s.threads 3 = [] ∧
    flushRuns.countP (fun a => !a.outer) ≤ stepsLeft {3} (mayBuffer {3} flushStarts) flushStarts := by
  have hrun : (exec (step []) flushStarts flushRuns).any fun s => (s.threads 3).isEmpty := by
    decide
  obtain ⟨s, hs, hrun⟩ := (Option.any_eq_true _ _).1 hrun
  have hT : ∀ t, flushStarts.threads t ≠ [] → t ∈ ({3} : Finset Nat) := by
    intro t ht
    by_contra hne
    have h3 : t ≠ 3 := by simpa using hne
    simp [flushStarts, Function.update_of_ne h3] at ht
  refine ⟨s, hs, List.isEmpty_iff.1 hrun, ?_⟩
  exact (flushes_end [] {3} flushStarts s flushRuns hT (by simp [flushRuns]) hs).1

end WriteBack

end Mobfs
