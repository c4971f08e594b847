import Mobfs.Vfs.Flush
/-!
# Upload errors

The worker of a failed upload leaves the error in the map of errors, one slot for
each handle. A write and a flush look into the slot of their handle. So does
`flush_matching`, for the handles whose buffers it has dispatched, and it is run by
reads, setattrs and fsyncs of others, which then return the error in place of the
handle (`reader_takes_error`).

`Owing` adds to the write-back state which failures no call on the handle has
reported, and which of them each call started after.
-/

namespace Mobfs

open Lib Std

/-- The handle a call is made on. -/
def VfsCall.handle : VfsCall → Option Nat
  | .write _ fh _ _ => some fh
  | .flush fh => some fh
  | .fsync _ fh => some fh
  | _ => none

structure Owing where
  wb : WriteBack
  /-- Failed uploads, with their handles: no call on the handle has returned an error
  since. -/
  owed : List (Nat × Nat)
  /-- For a call on a handle: the handle, and the failed uploads it started after. -/
  calls : Nat → Option (Nat × List Nat)

namespace Owing

def owedTo (s : Owing) (fh : Nat) : List Nat := (s.owed.filter (·.2 = fh)).map (·.1)

/-- The thread's next instruction finds an error, and its call returns it. -/
def returnsError (s : Owing) (t : Nat) : Bool :=
  match s.wb.threads t with
  | .takeError fh :: _ => (s.wb.errors fh).isSome
  | _ => false

def owedAfter (s : Owing) : WriteBackAct → List (Nat × Nat)
  | .run t =>
    match s.returnsError t, s.calls t with
    | true, some (fh, _) => s.owed.filter (·.2 ≠ fh)
    | _, _ => s.owed
  | .uploadFails id _ _ =>
    match s.wb.inflight.find? (·.id = id) with
    | some u => (id, u.fh) :: s.owed
    | none => s.owed
  | _ => s.owed

def callsAfter (s : Owing) : WriteBackAct → Nat → Option (Nat × List Nat)
  | .call t c => Function.update s.calls t (c.handle.map fun fh => (fh, s.owedTo fh))
  | _ => s.calls

def step (ignore : List String) (s : Owing) (a : WriteBackAct) : Option Owing :=
  (s.wb.step ignore a).map fun wb => ⟨wb, s.owedAfter a, s.callsAfter a⟩

def start (inodes : Nat → Option String) (remote : String → Bytes) : Owing :=
  ⟨WriteBack.start inodes remote, [], fun _ => none⟩

/-- A call looks for an error only in the slot of its own handle, or in one that has
none. -/
def OwnError (s : Owing) : WriteBackAct → Prop
  | .run t =>
    match s.wb.threads t with
    | .takeError fh :: _ => s.wb.errors fh = none ∨ (s.calls t).map (·.1) = some fh
    | _ => True
  | _ => True

end Owing

/-! ## What a step does to the uploads -/

namespace WriteBack

variable {s s' : WriteBack} {ignore : List String} {a : WriteBackAct}

/-- An upload after a step is a new one, or was there with the same handle, and in the
same state if it had left the queue. -/
theorem step_inflight (hsound : s.Sound) (h : s.step ignore a = some s') :
    s.next ≤ s'.next ∧ ∀ w ∈ s'.inflight, w.id = s.next + 1 ∧ s'.next = s.next + 1 ∨
      ∃ u ∈ s.inflight, u.id = w.id ∧ u.fh = w.fh ∧ (u.state = .queued ∨ w.state = u.state) := by
  have hsame : s'.inflight = s.inflight → ∀ w ∈ s'.inflight, w.id = s.next + 1 ∧ s'.next = s.next + 1 ∨
      ∃ u ∈ s.inflight, u.id = w.id ∧ u.fh = w.fh ∧ (u.state = .queued ∨ w.state = u.state) :=
    fun he w hw => .inr ⟨w, he ▸ hw, rfl, rfl, .inr rfl⟩
  have hset : ∀ n state x, s.inflight.find? (·.id = n) = some x → x.state = .queued →
      s'.inflight = (s.setState n state).inflight → ∀ w ∈ s'.inflight, w.id = s.next + 1 ∧ s'.next = s.next + 1 ∨
      ∃ u ∈ s.inflight, u.id = w.id ∧ u.fh = w.fh ∧ (u.state = .queued ∨ w.state = u.state) := by
    intro n state x hx hq he w hw
    rw [he] at hw
    obtain ⟨u, hu, rfl⟩ := List.mem_map.1 hw
    refine .inr ⟨u, hu, ?_⟩
    obtain ⟨-, -, huniq⟩ := hsound.inv.find_eq hx
    split
    · rename_i hid
      exact ⟨rfl, rfl, .inl (huniq u hu hid ▸ hq)⟩
    · exact ⟨rfl, rfl, .inr rfl⟩
  have htaken : ∀ n, s'.inflight = s.inflight.filter (·.id ≠ n) → ∀ w ∈ s'.inflight,
      w.id = s.next + 1 ∧ s'.next = s.next + 1 ∨
      ∃ u ∈ s.inflight, u.id = w.id ∧ u.fh = w.fh ∧ (u.state = .queued ∨ w.state = u.state) := by
    intro n he w hw
    rw [he] at hw
    exact .inr ⟨w, (List.mem_filter.1 hw).1, rfl, rfl, .inr rfl⟩
  cases step_cases h with
  | call hidle hprog => exact ⟨Nat.le_refl _, hsame rfl⟩
  | run hprog he =>
    rcases exec1_uploads he with ⟨hi, hn⟩ | ⟨fh, c, -, hi, hn⟩
    · exact ⟨by omega, hsame hi⟩
    · refine ⟨by omega, fun w hw => ?_⟩
      rw [hi] at hw
      rcases List.mem_append.1 hw with hw | hw
      · exact .inr ⟨w, hw, rfl, rfl, .inr rfl⟩
      · rw [List.mem_singleton.1 hw]
        exact .inl ⟨rfl, hn⟩
  | @upload n u hu hq => exact ⟨Nat.le_refl _, hset n .written u hu hq rfl⟩
  | @uploadFails n bytes e u hu hq => exact ⟨Nat.le_refl _, hset n (.failed e) u hu hq rfl⟩
  | @completeWritten n u hu hw => exact ⟨Nat.le_refl _, htaken n rfl⟩
  | @completeFailed n u e hu hf => exact ⟨Nat.le_refl _, htaken n rfl⟩
  | setInodes => exact ⟨Nat.le_refl _, hsame rfl⟩

/-- An upload stays until its worker takes it off; one that failed leaves an error. -/
theorem step_keeps_upload (hsound : s.Sound) (h : s.step ignore a = some s') {u : Upload} (hu : u ∈ s.inflight) :
    (∃ w ∈ s'.inflight, w.id = u.id) ∨ ((∃ e, u.state = .failed e) → s'.errors u.fh ≠ none) := by
  have hsame : s'.inflight = s.inflight → ∃ w ∈ s'.inflight, w.id = u.id := fun he => ⟨u, he ▸ hu, rfl⟩
  have hset : ∀ n state, s'.inflight = (s.setState n state).inflight → ∃ w ∈ s'.inflight, w.id = u.id := by
    intro n state he
    refine ⟨if u.id = n then { u with state } else u, ?_, by split <;> rfl⟩
    rw [he]
    exact List.mem_map.2 ⟨u, hu, rfl⟩
  have htaken : ∀ n, u.id ≠ n → s'.inflight = s.inflight.filter (·.id ≠ n) → ∃ w ∈ s'.inflight, w.id = u.id := by
    intro n hn he
    refine ⟨u, ?_, rfl⟩
    rw [he]
    exact List.mem_filter.2 ⟨hu, by simpa using hn⟩
  cases step_cases h with
  | call hidle hprog => exact .inl (hsame rfl)
  | run hprog he =>
    rcases exec1_uploads he with ⟨hi, -⟩ | ⟨fh, c, -, hi, -⟩
    · exact .inl (hsame hi)
    · exact .inl ⟨u, by rw [hi]; exact List.mem_append_left _ hu, rfl⟩
  | @upload n x hx hq => exact .inl (hset n .written rfl)
  | @uploadFails n bytes e x hx hq => exact .inl (hset n (.failed e) rfl)
  | @completeWritten n x hx hw =>
    by_cases hn : u.id = n
    · obtain ⟨-, -, huniq⟩ := hsound.inv.find_eq hx
      obtain rfl := huniq u hu hn
      refine .inr ?_
      rintro ⟨e, he⟩
      rw [hw] at he
      cases he
    · exact .inl (htaken n hn rfl)
  | @completeFailed n x e hx hf =>
    by_cases hn : u.id = n
    · obtain ⟨-, -, huniq⟩ := hsound.inv.find_eq hx
      obtain rfl := huniq u hu hn
      exact .inr fun _ => by simp [move]
    · exact .inl (htaken n hn rfl)
  | setInodes => exact .inl (hsame rfl)

/-- An error stays until a call takes it. -/
theorem step_keeps_error (h : s.step ignore a = some s') {fh : Nat} (he : s.errors fh ≠ none) :
    s'.errors fh ≠ none ∨ ∃ t rest, a = .run t ∧ s.threads t = .takeError fh :: rest := by
  cases step_cases h with
  | @run t i rest _ hprog hexec =>
    rcases exec1_errors hexec with hsame | ⟨fh', rfl, -, hupd⟩
    · exact .inl (hsame ▸ he)
    · by_cases hfh : fh = fh'
      · subst hfh
        exact .inr ⟨t, rest, rfl, hprog⟩
      · exact .inl (by rwa [hupd, Function.update_of_ne hfh])
  | @completeFailed n u e hu hf =>
    refine .inl ?_
    show Function.update s.errors u.fh _ fh ≠ none
    by_cases hfh : fh = u.fh
    · simp [hfh]
    · rwa [Function.update_of_ne hfh]
  | _ => exact .inl he

end WriteBack

namespace Owing

variable {s s' : Owing} {ignore : List String} {a : WriteBackAct}

/-- How far a thread has come with a flush that started after these failures. -/
inductive FlushStage (s : Owing) (fh : Nat) (due : List Part) (failed : List Nat) : List Instr → Prop where
  | start {rest : List Instr} (hr : ∀ i ∈ rest, i.isFlushed = false) :
    FlushStage s fh due failed (.take fh :: .waitFh fh :: .takeError fh :: .flushed fh due :: rest)
  | holding {i : Instr} {rest : List Instr} (hr : ∀ i ∈ rest, i.isFlushed = false) (hi : i.holding = true) :
    FlushStage s fh due failed (i :: .waitFh fh :: .takeError fh :: .flushed fh due :: rest)
  | waiting {rest : List Instr} (hr : ∀ i ∈ rest, i.isFlushed = false) :
    FlushStage s fh due failed (.waitFh fh :: .takeError fh :: .flushed fh due :: rest)
  | checking {rest : List Instr} (hr : ∀ i ∈ rest, i.isFlushed = false)
    (h : ∀ id ∈ failed, ∀ u ∈ s.wb.inflight, u.id ≠ id) :
    FlushStage s fh due failed (.takeError fh :: .flushed fh due :: rest)
  | done {rest : List Instr} (hr : ∀ i ∈ rest, i.isFlushed = false) (h : ∀ id ∈ failed, (id, fh) ∉ s.owed) :
    FlushStage s fh due failed (.flushed fh due :: rest)

/-- A failure that is owed is on its way to the slot of its handle, or there is an
error in the slot. -/
structure OwingInv (s : Owing) : Prop where
  sound : s.wb.Sound
  owed : ∀ x ∈ s.owed, x.1 ≤ s.wb.next ∧
    (∀ u ∈ s.wb.inflight, u.id = x.1 → u.fh = x.2 ∧ ∃ e, u.state = .failed e) ∧
    ((∃ u ∈ s.wb.inflight, u.id = x.1) ∨ s.wb.errors x.2 ≠ none)
  calls : ∀ t fh failed, s.calls t = some (fh, failed) → ∀ id ∈ failed, id ≤ s.wb.next ∧
    ∀ u ∈ s.wb.inflight, u.id = id → u.fh = fh ∧ u.state ≠ .queued
  flush : ∀ t fh due, .flushed fh due ∈ s.wb.threads t →
    ∃ failed, s.calls t = some (fh, failed) ∧ FlushStage s fh due failed (s.wb.threads t)

/-- What is owed after a step: a failure of this step, or one that was owed before and
that the step's call has not reported. -/
theorem mem_owedAfter {x : Nat × Nat} (h : x ∈ s.owedAfter a) :
    (∃ e n u, a = .uploadFails x.1 e n ∧ s.wb.inflight.find? (·.id = x.1) = some u ∧ u.fh = x.2) ∨
    (x ∈ s.owed ∧ ∀ t fh failed, a = .run t → s.returnsError t = true → s.calls t = some (fh, failed) → x.2 ≠ fh) := by
  unfold owedAfter at h
  split at h
  · rename_i t
    split at h
    · rename_i fh failed hret hc
      obtain ⟨hx, hne⟩ := List.mem_filter.1 h
      refine .inr ⟨hx, fun t' fh' failed' ht _ hc' => ?_⟩
      cases ht
      rw [hc] at hc'
      cases hc'
      simpa using hne
    · rename_i hno
      refine .inr ⟨h, fun t' fh failed ht hret hc => ?_⟩
      cases ht
      exact absurd hc (hno fh failed hret)
  · split at h
    · rename_i u hu
      rcases List.mem_cons.1 h with rfl | h
      · exact .inl ⟨_, _, u, rfl, hu, rfl⟩
      · exact .inr ⟨h, fun t fh failed ht => by cases ht⟩
    · exact .inr ⟨h, fun t fh failed ht => by cases ht⟩
  · rename_i hrun _
    exact .inr ⟨h, fun t fh failed ht => absurd ht (hrun t)⟩

theorem OwingInv.owed_step (h : OwingInv s) (hg : OwnError s a) (hs : s.step ignore a = some s') :
    ∀ x ∈ s'.owed, x.1 ≤ s'.wb.next ∧
      (∀ u ∈ s'.wb.inflight, u.id = x.1 → u.fh = x.2 ∧ ∃ e, u.state = .failed e) ∧
      ((∃ u ∈ s'.wb.inflight, u.id = x.1) ∨ s'.wb.errors x.2 ≠ none) := by
  obtain ⟨wb, hwb, rfl⟩ := Option.map_eq_some_iff.1 hs
  obtain ⟨hnext, hfly⟩ := WriteBack.step_inflight h.sound hwb
  intro x hx
  rcases mem_owedAfter hx with ⟨e, n, u, rfl, hu, hfh⟩ | ⟨hx, hother⟩
  · -- The upload fails in this step.
    obtain ⟨hmem, hid, huniq⟩ := h.sound.inv.find_eq hu
    have hle : u.id ≤ s.wb.next := h.sound.inv.flyNext u hmem
    simp only [WriteBack.step, hu] at hwb
    split at hwb
    · cases hwb
      refine ⟨hid ▸ hle, fun w hw hwid => ?_, .inl ⟨{ u with state := .failed e }, ?_, hid⟩⟩
      · obtain ⟨v, hv, rfl⟩ := List.mem_map.1 hw
        by_cases hvid : v.id = x.1
        · obtain rfl := huniq v hv hvid
          simp [hvid, hfh]
        · simp [hvid] at hwid
      · exact List.mem_map.2 ⟨u, hmem, by simp [hid]⟩
    · cases hwb
  · obtain ⟨hle, hall, hsome⟩ := h.owed x hx
    refine ⟨by show x.1 ≤ wb.next; omega, fun w hw hwid => ?_, ?_⟩
    · -- A new upload has a new id.
      rcases hfly w hw with ⟨hnew, -⟩ | ⟨u, hu, hid, hfh, hst⟩
      · omega
      · obtain ⟨hufh, e, he⟩ := hall u hu (hid.trans hwid)
        refine ⟨hfh ▸ hufh, e, ?_⟩
        rcases hst with hst | hst
        · rw [he] at hst
          cases hst
        · rw [hst, he]
    · rcases hsome with ⟨u, hu, hid⟩ | herr
      · obtain ⟨hufh, hfailed⟩ := hall u hu hid
        rcases WriteBack.step_keeps_upload h.sound hwb hu with ⟨w, hw, hwid⟩ | herr
        · exact .inl ⟨w, hw, hwid.trans hid⟩
        · exact .inr (hufh ▸ herr hfailed)
      · rcases WriteBack.step_keeps_error hwb herr with herr' | ⟨t, rest, rfl, hprog⟩
        · exact .inr herr'
        · -- Only a call on the handle takes its error, and then nothing is owed to it.
          simp only [OwnError, hprog] at hg
          rcases hg with hnone | hcall
          · exact absurd hnone herr
          · obtain ⟨⟨fh, failed⟩, hc, rfl⟩ := Option.map_eq_some_iff.1 hcall
            have hret : s.returnsError t = true := by
              simp only [returnsError, hprog]
              exact Option.isSome_iff_ne_none.2 herr
            exact absurd rfl (hother t _ failed rfl hret hc)

theorem OwingInv.calls_step (h : OwingInv s) (hs : s.step ignore a = some s') :
    ∀ t fh failed, s'.calls t = some (fh, failed) → ∀ id ∈ failed, id ≤ s'.wb.next ∧
      ∀ u ∈ s'.wb.inflight, u.id = id → u.fh = fh ∧ u.state ≠ .queued := by
  obtain ⟨wb, hwb, rfl⟩ := Option.map_eq_some_iff.1 hs
  obtain ⟨hnext, hfly⟩ := WriteBack.step_inflight h.sound hwb
  have hkeep : ∀ fh id, (id ≤ s.wb.next ∧ ∀ u ∈ s.wb.inflight, u.id = id → u.fh = fh ∧ u.state ≠ .queued) →
      id ≤ wb.next ∧ ∀ u ∈ wb.inflight, u.id = id → u.fh = fh ∧ u.state ≠ .queued := by
    rintro fh id ⟨hle, hall⟩
    refine ⟨by omega, fun w hw hwid => ?_⟩
    rcases hfly w hw with ⟨hnew, -⟩ | ⟨u, hu, hid, hfh, hst⟩
    · omega
    · obtain ⟨hufh, hne⟩ := hall u hu (hid.trans hwid)
      refine ⟨hfh ▸ hufh, ?_⟩
      rcases hst with hst | hst
      · exact absurd hst hne
      · rwa [hst]
  have hold : ∀ t fh failed, s.calls t = some (fh, failed) → ∀ id ∈ failed, id ≤ wb.next ∧
      ∀ u ∈ wb.inflight, u.id = id → u.fh = fh ∧ u.state ≠ .queued :=
    fun t fh failed hc id hid => hkeep fh id (h.calls t fh failed hc id hid)
  intro t fh failed hc
  cases a with
  | call t' c =>
    simp only [callsAfter] at hc
    by_cases ht : t = t'
    · subst ht
      rw [Function.update_self] at hc
      obtain ⟨fh', -, he⟩ := Option.map_eq_some_iff.1 hc
      cases he
      intro id hid
      -- A call that starts takes down what is owed to its handle.
      obtain ⟨x, hx, rfl⟩ := List.mem_map.1 hid
      obtain ⟨hx, hfh⟩ := List.mem_filter.1 hx
      obtain ⟨hle, hall, -⟩ := h.owed x hx
      have hfh : x.2 = fh := by simpa using hfh
      refine hkeep fh x.1 ⟨hle, fun u hu hid => ?_⟩
      obtain ⟨hufh, e, he⟩ := hall u hu hid
      exact ⟨hufh.trans hfh, by simp [he]⟩
    · rw [Function.update_of_ne ht] at hc
      exact hold t fh failed hc
  | run t' => exact hold t fh failed hc
  | upload n => exact hold t fh failed hc
  | uploadFails n e bytes => exact hold t fh failed hc
  | complete n => exact hold t fh failed hc
  | setInodes inodes => exact hold t fh failed hc

/-! ## One step of a flush -/

/-- The failures a flush started after are over: none of them is owed anew. -/
theorem OwingInv.not_owed_step {t fh : Nat} {failed : List Nat} (h : OwingInv s) (hs : s.step ignore a = some s')
    (hc : s.calls t = some (fh, failed)) {id : Nat} (hid : id ∈ failed) (ho : (id, fh) ∉ s.owed) :
    (id, fh) ∉ s'.owed := by
  obtain ⟨wb, hwb, rfl⟩ := Option.map_eq_some_iff.1 hs
  intro hx
  rcases mem_owedAfter hx with ⟨e, n, u, rfl, hu, -⟩ | ⟨hx, -⟩
  · obtain ⟨hmem, huid, -⟩ := h.sound.inv.find_eq hu
    have hne := ((h.calls t fh failed hc id hid).2 u hmem huid).2
    simp only [WriteBack.step, hu] at hwb
    split at hwb
    · rename_i hq
      exact hne hq
    · cases hwb
  · exact ho hx

theorem OwingInv.gone_step {t fh : Nat} {failed : List Nat} (h : OwingInv s) (hs : s.step ignore a = some s')
    (hc : s.calls t = some (fh, failed)) {id : Nat} (hid : id ∈ failed) (hno : ∀ u ∈ s.wb.inflight, u.id ≠ id) :
    ∀ u ∈ s'.wb.inflight, u.id ≠ id := by
  obtain ⟨wb, hwb, rfl⟩ := Option.map_eq_some_iff.1 hs
  obtain ⟨-, hfly⟩ := WriteBack.step_inflight h.sound hwb
  have hle := (h.calls t fh failed hc id hid).1
  intro w hw hwid
  rcases hfly w hw with ⟨hnew, -⟩ | ⟨u, hu, huid, -⟩
  · omega
  · exact hno u hu (huid.trans hwid)

theorem FlushStage.mono {t fh : Nat} {due : List Part} {failed : List Nat} {prog : List Instr}
    (hst : FlushStage s fh due failed prog) (h : OwingInv s) (hs : s.step ignore a = some s')
    (hc : s.calls t = some (fh, failed)) : FlushStage s' fh due failed prog := by
  cases hst with
  | start hr => exact .start hr
  | holding hr hi => exact .holding hr hi
  | waiting hr => exact .waiting hr
  | checking hr hno => exact .checking hr fun id hid => h.gone_step hs hc hid (hno id hid)
  | done hr ho => exact .done hr fun id hid => h.not_owed_step hs hc hid (ho id hid)

theorem FlushStage.step {t fh : Nat} {due : List Part} {failed : List Nat} {i : Instr} {rest : List Instr}
    (hst : FlushStage s fh due failed (i :: rest)) (h : OwingInv s) (hprog : s.wb.threads t = i :: rest)
    (hs : s.step ignore (.run t) = some s') (hc : s.calls t = some (fh, failed))
    (hm : .flushed fh due ∈ s.wb.after rest i) : FlushStage s' fh due failed (s.wb.after rest i) := by
  have hexec : s.wb.exec1 t rest i = some s'.wb := by
    obtain ⟨wb, hwb, rfl⟩ := Option.map_eq_some_iff.1 hs
    simpa only [WriteBack.step, hprog] using hwb
  cases hst with
  | start hr =>
    simp only [WriteBack.after]
    split
    · exact .waiting hr
    · exact .holding hr rfl
  | holding hr hi =>
    cases i
    case resolve => exact .holding hr rfl
    case register => exact .waiting hr
    all_goals cases hi
  | waiting hr =>
    -- No upload of the handle is left when the wait is over, so those that failed are gone.
    refine .checking hr fun id hid => h.gone_step hs hc hid fun u hu huid => ?_
    have hfh := ((h.calls t fh failed hc id hid).2 u hu huid).1
    simp only [WriteBack.exec1] at hexec
    split at hexec
    · cases hexec
    · rename_i hany
      exact hany (List.any_eq_true.2 ⟨u, hu, by simpa using hfh⟩)
  | checking hr hno =>
    simp only [WriteBack.after] at hm ⊢
    split at hm
    · rename_i herr
      rw [if_pos herr]
      refine .done hr fun id hid => h.not_owed_step hs hc hid fun ho => ?_
      -- What is owed and gone has left its error, but the slot is empty.
      rcases (h.owed _ ho).2.2 with ⟨u, hu, huid⟩ | hne
      · exact hno id hid u hu huid
      · exact hne herr
    · cases hm
  | done hr ho =>
    have := hr _ hm
    cases this

theorem program_flushStage {c : VfsCall} {prog : List Instr} {fh : Nat} {due : List Part}
    (h : s.wb.program ignore c = some prog) (hm : .flushed fh due ∈ prog) :
    c.handle = some fh ∧ ∀ (s' : Owing) failed, FlushStage s' fh due failed prog := by
  cases WriteBack.programs_of_program h with
  | flush fh' =>
    obtain ⟨rfl, rfl⟩ : fh = fh' ∧ due = s.wb.returned.filter (·.fh = fh') := by simpa using hm
    exact ⟨rfl, fun _ _ => .start (by simp)⟩
  | fsync ino fh' path =>
    obtain ⟨rfl, rfl⟩ : fh = fh' ∧ due = s.wb.returned.filter (·.fh = fh') := by simpa using hm
    exact ⟨rfl, fun _ _ => .start (by simp [Instr.isFlushed])⟩
  | _ => simp at hm

theorem OwingInv.flush_step (h : OwingInv s) (hs : s.step ignore a = some s') :
    ∀ t fh due, .flushed fh due ∈ s'.wb.threads t →
      ∃ failed, s'.calls t = some (fh, failed) ∧ FlushStage s' fh due failed (s'.wb.threads t) := by
  intro t fh due hm
  have hs' := hs
  obtain ⟨wb, hwb, rfl⟩ := Option.map_eq_some_iff.1 hs
  rcases WriteBack.step_thread hwb t with ⟨hth, hcall⟩ | ⟨c, prog, rfl, hprog, -, hth⟩ | ⟨i, rest, rfl, hprog, -, hth⟩
  · simp only [hth] at hm ⊢
    obtain ⟨failed, hc, hst⟩ := h.flush t fh due hm
    have hca : s.callsAfter a t = s.calls t := by
      cases a with
      | call t' c =>
        have ht : t ≠ t' := by
          rintro rfl
          exact hcall c rfl
        simp [callsAfter, Function.update_of_ne ht]
      | _ => rfl
    exact ⟨failed, hca.trans hc, hst.mono h hs' hc⟩
  · simp only [hth] at hm ⊢
    obtain ⟨hhandle, hstart⟩ := program_flushStage hprog hm
    exact ⟨s.owedTo fh, by simp [callsAfter, hhandle], hstart _ _⟩
  · simp only [hth] at hm ⊢
    have hm' : .flushed fh due ∈ s.wb.threads t := by
      rw [hprog]
      exact List.mem_cons_of_mem _ (WriteBack.mem_after rfl hm)
    obtain ⟨failed, hc, hst⟩ := h.flush t fh due hm'
    rw [hprog] at hst
    exact ⟨failed, hc, hst.step h hprog hs' hc hm⟩

theorem OwingInv.step (h : OwingInv s) (hg : OwnError s a) (hs : s.step ignore a = some s') : OwingInv s' := by
  refine ⟨?_, h.owed_step hg hs, h.calls_step hs, h.flush_step hs⟩
  obtain ⟨wb, hwb, rfl⟩ := Option.map_eq_some_iff.1 hs
  exact h.sound.step hwb

theorem start_owingInv (inodes : Nat → Option String) (remote : String → Bytes) : OwingInv (start inodes remote) :=
  ⟨WriteBack.start_sound inodes remote, by simp [start], by simp [start], by simp [start, WriteBack.start]⟩

/-- In every run in which no call takes an upload error of a handle it was not made
on: when a flush is about to return `Ok`, each upload of its handle that had failed
when it started has been followed by a call on that handle that returned an error. -/
theorem error_reaches_handle (ignore : List String) (inodes : Nat → Option String) (remote : String → Bytes)
    (as : List WriteBackAct) (s : Owing) (hg : Guarded (step ignore) OwnError (start inodes remote) as)
    (h : exec (step ignore) (start inodes remote) as = some s) :
    ∀ t fh due rest, s.wb.threads t = .flushed fh due :: rest →
      ∃ failed, s.calls t = some (fh, failed) ∧ ∀ id ∈ failed, (id, fh) ∉ s.owed := by
  have hi : OwingInv s :=
    exec_guarded_inv OwingInv (fun _ _ _ h hg hs => h.step hg hs) (start_owingInv inodes remote) hg h
  intro t fh due rest hprog
  obtain ⟨failed, hc, hst⟩ := hi.flush t fh due (by rw [hprog]; exact List.mem_cons_self)
  rw [hprog] at hst
  cases hst with
  | holding _ hh => cases hh
  | done _ ho => exact ⟨failed, hc, ho⟩

/-- A test of `OwnError`. -/
def takesOwn (s : Owing) : WriteBackAct → Bool
  | .run t =>
    match s.wb.threads t with
    | .takeError fh :: _ => (s.wb.errors fh).isNone || (s.calls t).map (·.1) == some fh
    | _ => true
  | _ => true

theorem ownError_of_takesOwn (h : s.takesOwn a = true) : OwnError s a := by
  unfold OwnError
  unfold takesOwn at h
  split
  · simp only at h
    split
    · rename_i fh rest hprog
      simpa only [hprog, Bool.or_eq_true, Option.isNone_iff_eq_none, beq_iff_eq] using h
    · trivial
  · trivial

/-- One file, `f`, with inode 2. -/
def oneFile : Owing := start (fun ino => if ino = 2 then some "f" else none) fun _ => []

/-- The thread is left with the answer of a flush of the handle. -/
def hasFlushed (s : Owing) (t fh : Nat) : Bool :=
  match s.wb.threads t with
  | [.flushed fh' _] => fh' == fh
  | _ => false

theorem exists_flushed {s : Owing} {t fh : Nat} (h : s.hasFlushed t fh = true) : ∃ due, s.wb.threads t = [.flushed fh due] := by
  unfold hasFlushed at h
  split at h
  · rename_i fh' due hprog
    exact ⟨due, by rw [hprog, beq_iff_eq.1 h]⟩
  · cases h

/-- Handle 7 has written a byte, and the idle flusher's upload of it fails. A flush of
the handle starts, then a write through it, which returns the error. -/
def writerTakesError : List WriteBackAct :=
  WriteBack.writesByte ++ (.call 1 (.flushIdle [7]) :: List.replicate 3 (.run 1) : List WriteBackAct) ++
    (.uploadFails 1 .eio 0 :: .complete 1 :: .call 2 (.flush 7) :: .call 0 (.write 2 7 0 [66]) :: .run 0 ::
      List.replicate 3 (.run 2) : List WriteBackAct)

theorem error_reaches_handle_write :
    ∃ s due, exec (step []) oneFile writerTakesError = some s ∧ s.wb.threads 2 = [.flushed 7 due] ∧
      s.calls 2 = some (7, [1]) ∧ (1, 7) ∉ s.owed := by
  have hrun : (exec (step []) oneFile writerTakesError).any fun s => (s.calls 2 == some (7, [1])) && s.hasFlushed 2 7 := by
    decide
  have hg : Guarded (step []) OwnError oneFile writerTakesError :=
    guarded_of_checkRun (fun _ => True) (fun _ => True) takesOwn (fun _ _ _ _ _ _ => trivial)
      (fun _ _ _ _ h => ownError_of_takesOwn h) trivial (fun _ _ => trivial) (by decide)
  obtain ⟨s, hs, hrun⟩ := (Option.any_eq_true _ _).1 hrun
  obtain ⟨hc, hrun⟩ := Bool.and_eq_true_iff.1 hrun
  obtain ⟨due, hprog⟩ := exists_flushed hrun
  obtain ⟨failed, hcall, ho⟩ := error_reaches_handle [] _ _ _ s hg hs 2 7 due [] hprog
  rw [beq_iff_eq.1 hc] at hcall
  cases hcall
  exact ⟨s, due, hs, hprog, beq_iff_eq.1 hc, ho 1 (by simp)⟩

/-- Handle 7 has written a byte. A read of the file uploads it, the upload fails, and
the read returns the error. A flush of the handle that starts after that finds none. -/
def readerTakesError : List WriteBackAct :=
  WriteBack.writesByte ++ (.call 1 (.read 2) :: List.replicate 4 (.run 1) : List WriteBackAct) ++
    (.uploadFails 1 .eio 0 :: .complete 1 :: .run 1 :: .run 1 :: .call 0 (.flush 7) ::
      List.replicate 3 (.run 0) : List WriteBackAct)

theorem reader_takes_error :
    ∃ s due, exec (step []) oneFile readerTakesError = some s ∧ s.wb.threads 0 = [.flushed 7 due] ∧
      s.calls 0 = some (7, [1]) ∧ (1, 7) ∈ s.owed := by
  have hrun : (exec (step []) oneFile readerTakesError).any fun s => (s.calls 0 == some (7, [1])) &&
      s.owed.contains (1, 7) && s.hasFlushed 0 7 := by
    decide
  obtain ⟨s, hs, hrun⟩ := (Option.any_eq_true _ _).1 hrun
  simp only [Bool.and_eq_true, beq_iff_eq, List.contains_iff_mem] at hrun
  obtain ⟨⟨hc, ho⟩, hrun⟩ := hrun
  obtain ⟨due, hprog⟩ := exists_flushed hrun
  exact ⟨s, due, hs, hprog, hc, ho⟩

end Owing

end Mobfs
