import Mobfs.Vfs.SizeSteps
/-!
# The size a write leaves

`write` notes itself on the entry of `metas` for its file, from which `getattr` takes the
size and the mode and `read` takes where the file ends. Entries go at any time: the feed
drops them, and `invalidate_all` all but those of files with buffered writes. A write that
finds no entry makes one up: a file that ends where the write ends, with mode 0644.

A `SharedFile` is a mount and one remote file. `write_keeps_size` says when a write leaves
the entry that the file has once its writes are uploaded.
-/

namespace Mobfs

open Lib

namespace SharedFile

variable {ignore : List String} {p : String} {fileMode : Nat} {s s' : SharedFile} {f : RemoteFile}

/-! ## What a write leaves -/

/-- The mount has just started. -/
structure Starts (p : String) (s : SharedFile) : Prop where
  quiet : s.mount.Quiet
  chunks : s.mount.chunks = []
  entry : s.mount.metas p = none

theorem Starts.sizeInv (h : Starts p s) : SizeInv p s := by
  have hcalls : ∀ {t c}, s.mount.calls t ≠ some c := fun {t c} hc => by
    rw [h.quiet.calls] at hc
    cases hc
  refine ⟨?_, fun v hv => ?_, ?_, ?_⟩
  · rintro d (hd | ⟨t, c, hc, -⟩)
    · obtain ⟨v, hv, -⟩ := Option.map_eq_some_iff.1 hd
      cases h.entry.symm.trans hv
    · exact absurd hc hcalls
  · cases h.entry.symm.trans hv
  · rintro asOf m ⟨t, todo, hk, -⟩
    obtain ⟨c, hc, -⟩ := Option.bind_eq_some_iff.1 hk
    exact absurd hc hcalls
  · intro t a asOf ha
    obtain ⟨c, hc, -⟩ := Option.bind_eq_some_iff.1 ha
    exact absurd hc hcalls

theorem sizeInv_of_run {s₀ : SharedFile} {acts : List FileAct} (h0 : Starts p s₀)
    (hg : Guarded (step ignore p fileMode) (SizeGuard p) s₀ acts) (h : exec (step ignore p fileMode) s₀ acts = some s) :
    SizeInv p s :=
  exec_guarded_inv (SizeInv p) (fun _ _ _ hi hg hs => hi.step hg hs) h0.sizeInv hg h

/-- When a write returns, `getattr` shows the file as large as it will be with the pending
writes uploaded, and `read` takes none of that to be past the end. -/
theorem write_keeps_size (ignore : List String) (p : String) (fileMode : Nat) (s₀ s s' : SharedFile)
    (acts : List FileAct) (t : Nat) (clock : Int) (c : Chunk) (h0 : Starts p s₀)
    (hg : Guarded (step ignore p fileMode) (SizeGuard p) s₀ (acts ++ [.mount (.run t clock)]))
    (h : exec (step ignore p fileMode) s₀ acts = some s) (hc : s.mount.calls t = some (.note c)) (hp : c.path = p)
    (hs' : s.step ignore p fileMode (.mount (.run t clock)) = some s') :
    ∃ f m, s'.file = some f ∧ s'.getattrFast p = some m ∧ m.kind = .file ∧
      m.size = max (max f.size (reach (s.mount.pendingTo p))) c.stop ∧ m.mode = f.mode ∧
      ∀ offset < m.size, s'.pastEnd p offset = false := by
  obtain ⟨hg, hlast⟩ := hg.append
  have hnote : s.NoteOk p t c := by
    have hguard := (hlast s h).1
    simp only [SizeGuard, hc] at hguard
    exact hguard hp
  obtain ⟨f, hfile, hstop, hsize, hmode⟩ := noted_value clock (sizeInv_of_run h0 hg h) hc hp hnote
  obtain ⟨-, m, hm, rfl⟩ := step_mount hs'
  obtain ⟨c', hc', hm⟩ := Option.bind_eq_some_iff.1 hm
  obtain rfl := Option.some.inj (hc.symm.trans hc')
  cases hm
  have hmeta : (s.mount.setMeta c.path (some (noteLocalWrite s.now clock c (s.mount.metas c.path)))).metas p =
      some (noteLocalWrite s.now clock c (s.mount.metas p)) := by
    rw [hp]
    exact Function.update_self _ _ _
  have hshown := congrArg (Option.map (·.value)) hmeta
  refine ⟨f, (noteLocalWrite s.now clock c (s.mount.metas p)).value, hfile, hshown, ?_, ?_, hmode, fun offset hlt => ?_⟩
  · unfold noteLocalWrite
    split <;> rfl
  · exact hsize.trans (Nat.max_eq_left hstop).symm
  · exact (congrArg (fun e => (Option.map (·.size) e).any (· ≤ offset)) hshown).trans
      (decide_eq_false (Nat.not_le_of_lt hlt))

/-! ## One call at a time -/

/-- The actions of call `0`, setattr apart. -/
def single : FileAct → Bool
  | .mount (.stat 0 _) | .mount (.answer 0 _) | .mount (.run 0 _) | .mount (.write 0 _) => true
  | _ => false

def Alone (s : SharedFile) : Prop := ∀ u, u ≠ 0 → s.mount.calls u = none

theorem calls_goOnWith {m n : Mount} {t u : Nat} {clock : Int} {c : NameCall} (h : m.goOnWith t clock c = some n)
    (hu : u ≠ t) : n.calls u = m.calls u := by
  unfold Mount.goOnWith at h
  split at h
  all_goals
    cases h
    try exact Function.update_of_ne hu _ _

theorem calls_answered {m n : Mount} {t u : Nat} {c : NameCall} {a : Answer} (h : m.answered t c a = some n)
    (hu : u ≠ t) : n.calls u = m.calls u := by
  unfold Mount.answered at h
  split at h
  all_goals
    cases h
    try exact Function.update_of_ne hu _ _

theorem calls_call {m n : Mount} {t u : Nat} {c : NameCall} (h : m.call t c = some n) (hu : u ≠ t) :
    n.calls u = m.calls u := by
  unfold Mount.call at h
  split at h
  · cases h
    exact Function.update_of_ne hu _ _
  · cases h

theorem Alone.step {act : FileAct} (h0 : s.Alone) (ha : single act = true)
    (h : s.step ignore p fileMode act = some s') : s'.Alone := by
  intro u hu
  unfold single at ha
  split at ha
  case h_5 => cases ha
  all_goals
    obtain ⟨-, m, hm, rfl⟩ := step_mount h
    refine Eq.trans (show _ = s.mount.calls u from ?_) (h0 u hu)
    show m.calls u = _
  · exact calls_call hm hu
  · obtain ⟨c, -, hm⟩ := Option.bind_eq_some_iff.1 hm
    exact calls_answered hm hu
  · obtain ⟨c, -, hm⟩ := Option.bind_eq_some_iff.1 hm
    exact calls_goOnWith hm hu
  · exact calls_call hm hu

/-- Enough for `SizeGuard` with one call. -/
def steady (p : String) (s : SharedFile) : FileAct → Bool
  | .mount (.run 0 _) =>
    match s.mount.calls 0 with
    | some (.note c) => s.file.any (fun f => decide (c.stop ≤ s.extent p f)) &&
        (s.mount.metas p).any fun v => decide (s.changedAt ≤ v.asOf)
    | some (.put asOf _ _) =>
      decide (s.resizedAt ≤ asOf) && decide (s.chmodAt ≤ asOf) && (s.mount.pendingTo p).isEmpty
    | some (.edit ..) => false
    | _ => true
  | .mount (.complete _) => false
  | .mount _ => true
  | _ => false

theorem sizeGuard_of_steady {act : FileAct} (h0 : s.Alone) (ha : single act = true) (h : steady p s act = true) :
    SizeGuard p s act := by
  unfold single at ha
  split at ha
  case h_5 => cases ha
  case h_3 =>
    simp only [steady] at h
    simp only [SizeGuard]
    split
    · rename_i c hc
      intro hp
      simp only [hc, Bool.and_eq_true, Option.any_eq_true, decide_eq_true_eq] at h
      obtain ⟨⟨f, hf, hstop⟩, v, hv, hnew⟩ := h
      refine ⟨⟨f, hf, hstop⟩, ?_⟩
      rw [hv]
      refine ⟨Nat.not_lt_of_le hnew, fun u a d ha => ?_, fun u d hu hd => ?_⟩
      · by_cases hu : u = 0
        · subst hu
          rw [Editing, hc] at ha
          cases ha
        · rw [Editing, h0 u hu] at ha
          cases ha
      · rw [Noting, h0 u hu] at hd
        cases hd.2
    · rename_i asOf _ _ _ _ hc
      intro _ _
      simp only [hc, Bool.and_eq_true, decide_eq_true_eq, List.isEmpty_iff] at h
      exact ⟨h.1.1, h.1.2, h.2⟩
    · rename_i hc
      simp [hc] at h
    · trivial
  all_goals trivial

/-- The mount just started, beside an executable file of ten bytes. -/
def tenBytes : SharedFile := ⟨Mount.empty, some ⟨10, 0o755⟩, 0, 0, 0, none⟩

theorem tenBytes_starts : Starts "f" tenBytes := ⟨Mount.empty_quiet, rfl, rfl⟩

/-- `getattr`, and then a write of one byte up to its critical section of `metas`. -/
def statAndWrite : List FileAct :=
  [.mount (.stat 0 "f"), .mount (.answer 0 (.entry (some (fileMeta 10 0o755 0))))] ++
    List.replicate 4 (.mount (.run 0 0)) ++ [.mount (.write 0 ⟨"f", 0, 1⟩), .mount (.run 0 0), .mount (.run 0 0)]

theorem steady_run {acts : List FileAct} (ha : acts.all single = true)
    (h : checkRun (step [] "f" 0o644) (steady "f") tenBytes acts = true) :
    Guarded (step [] "f" 0o644) (SizeGuard "f") tenBytes acts :=
  guarded_of_checkRun Alone (fun a => single a = true) (steady "f") (fun _ _ _ h0 ha hs => h0.step ha hs)
    (fun _ _ h0 ha h => sizeGuard_of_steady h0 ha h) (fun _ _ => rfl) (List.all_eq_true.1 ha) h

theorem write_keeps_size_one_byte :
    ∃ s s' f m, exec (step [] "f" 0o644) tenBytes statAndWrite = some s ∧
      s.step [] "f" 0o644 (.mount (.run 0 0)) = some s' ∧ s'.file = some f ∧ s'.getattrFast "f" = some m ∧
      m.size = max (max f.size (reach (s.mount.pendingTo "f"))) 1 ∧ m.mode = f.mode ∧ s'.pastEnd "f" 9 = false := by
  have hrun : (exec (step [] "f" 0o644) tenBytes statAndWrite).any fun s =>
      decide ((s.mount.calls 0).bind NameCall.noting = some ⟨"f", 0, 1⟩) && (s.mount.calls 0).any (fun c => match c with
        | .note _ => true
        | _ => false) && (s.step [] "f" 0o644 (.mount (.run 0 0))).any fun s' =>
          decide ((s'.getattrFast "f").map (·.size) = some 10) := by
    decide +kernel
  obtain ⟨s, hs, hrun⟩ := (Option.any_eq_true _ _).1 hrun
  simp only [Bool.and_eq_true, Option.any_eq_true, decide_eq_true_eq] at hrun
  obtain ⟨⟨hnoting, c, hc, hnote⟩, s', hs', hten⟩ := hrun
  split at hnote
  · rename_i d
    rw [hc] at hnoting
    obtain rfl : d = ⟨"f", 0, 1⟩ := Option.some.inj hnoting
    obtain ⟨f, m, hf, hm, -, hsize, hmode, hread⟩ := write_keeps_size [] "f" 0o644 tenBytes s s' statAndWrite 0 0 _
      tenBytes_starts (steady_run (by decide) (by decide +kernel)) hs hc rfl hs'
    rw [hm] at hten
    obtain h10 : m.size = 10 := Option.some.inj hten
    exact ⟨s, s', f, m, hs, hs', hf, hm, hsize, hmode, hread 9 (by rw [h10]; decide)⟩
  · cases hnote

/-- Between the two, another client changes the file's times, and the feed thread drops
the entry. -/
theorem write_shrinks_dropped :
    ∃ s f m, exec (step [] "f" 0o644) tenBytes
        ([.mount (.stat 0 "f"), .mount (.answer 0 (.entry (some (fileMeta 10 0o755 0))))] ++
          List.replicate 4 (.mount (.run 0 0)) ++
          [.changed (some ⟨10, 0o755⟩), .mount (.change ⟨"f", .metadata⟩), .mount .feed] ++
          List.replicate 5 (.mount .feedRun) ++
          [.mount (.write 0 ⟨"f", 0, 1⟩), .mount (.run 0 0), .mount (.run 0 0), .mount (.run 0 0)]) = some s ∧
      s.file = some f ∧ s.getattrFast "f" = some m ∧ f = ⟨10, 0o755⟩ ∧ m.size = 1 ∧ m.mode = 0o644 ∧
      s.pastEnd "f" 1 = true := by
  -- The run stands in the goal, and is evaluated from there.
  have hends : ∀ acts, ((exec (step [] "f" 0o644) tenBytes acts).any fun s =>
      s.file.any fun f => (s.getattrFast "f").any fun m =>
        decide (f = ⟨10, 0o755⟩ ∧ m.size = 1 ∧ m.mode = 0o644 ∧ s.pastEnd "f" 1 = true)) = true →
      ∃ s f m, exec (step [] "f" 0o644) tenBytes acts = some s ∧
        s.file = some f ∧ s.getattrFast "f" = some m ∧ f = ⟨10, 0o755⟩ ∧ m.size = 1 ∧ m.mode = 0o644 ∧
        s.pastEnd "f" 1 = true := by
    intro acts hrun
    obtain ⟨s, hs, hrun⟩ := (Option.any_eq_true _ _).1 hrun
    obtain ⟨f, hf, hrun⟩ := (Option.any_eq_true _ _).1 hrun
    obtain ⟨m, hm, hrun⟩ := (Option.any_eq_true _ _).1 hrun
    exact ⟨s, f, m, hs, hf, hm, of_decide_eq_true hrun⟩
  exact hends _ (by decide +kernel)

end SharedFile

end Mobfs
