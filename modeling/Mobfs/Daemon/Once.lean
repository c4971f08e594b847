import Mathlib.Logic.Function.Basic
import Mobfs.Daemon.Stream
import Mobfs.Lib.Runs
/-!
# Retried mutations

A mutating request carries an op id. Each delivery of it runs on the thread of its
connection: it looks for the marker of the op id, makes its calls of the file system
one by one, and writes the marker. Nothing keeps two deliveries from running at the
same time, and the marker may fail to be written or be pruned.

A request is a `Script` of calls, read off its handler. The file system is a
parameter about which nothing is assumed. `completed` is set as soon as a delivery
has made its last call; no code reads it.
-/

namespace Mobfs

open Lib

inductive FsCall where
  | mkdir (path : AbsPath)
  | create (path : AbsPath)
  | seek (path : AbsPath) (offset : Nat)
  | write (path : AbsPath) (offset : Nat) (data : Bytes)
  | setLen (path : AbsPath) (size : Nat)
  | rename (src dst : AbsPath)
  | removeFile (path : AbsPath)
  /-- A file or an empty directory, in `remove_dir_all`. -/
  | removeEntry (path : AbsPath)
  | symlink (path : AbsPath) (target : String)
  | setMode (path : AbsPath) (mode : Nat)
  | setMtime (path : AbsPath) (modified : Int)
  deriving DecidableEq

/-- What a handler does, call by call. -/
inductive Script where
  | answer (r : Except MobfsError Unit)
  /-- A call with `?`. -/
  | call (c : FsCall) (next : Script)
  /-- A call whose error is ignored. -/
  | tryCall (c : FsCall) (next : Script)
  /-- `symlink_metadata`. -/
  | look (path : AbsPath) (absent other dir : Script)
  /-- `remove_dir_all`, one entry at a time. -/
  | removeTree (path : AbsPath) (next : Script)

namespace Script

def createDirAll (path : AbsPath) (next : Script) : Script :=
  ((List.range path.length).map fun i => path.take (i + 1)).foldr (fun d s => .call (.mkdir d) s) next

/-- The root of the file system has no parent. -/
def parent (path : AbsPath) (next : Script) : Script :=
  if path = [] then next else createDirAll path.dropLast next

/-- The loop of `handle_write_file_at_stream`. -/
def eachFrame (path : AbsPath) (offset len : Nat) : List Bytes → Nat → Script
  | [], written => if written < len then .answer (.error .eof) else .answer (.ok ())
  | f :: frames, written =>
    if written < len then
      if len < satAdd written f.length then .answer (.error (.remote "binary write length mismatch"))
      else .call (.write path (offset + written) f) (eachFrame path offset len frames (satAdd written f.length))
    else .answer (.ok ())

def atPath (root : AbsPath) (rel : String) (next : AbsPath → Script) : Script :=
  match safeJoin root rel with
  | .error e => .answer (.error e)
  | .ok path => next path

end Script

open Script in
/-- The calls of a request below a root that `RootPolicy::check` has admitted;
`frames` are the data of a streamed write. -/
def Request.script (root : AbsPath) (frames : List Bytes) : Request → Script
  | .writeFileAtStream _ rel offset len _ =>
    atPath root rel fun path =>
      parent path (.call (.create path) (.call (.seek path offset) (eachFrame path offset len frames 0)))
  | .truncate _ rel size _ =>
    atPath root rel fun path => parent path (.call (.create path) (.call (.setLen path size) (.answer (.ok ()))))
  | .rename _ src dst _ =>
    atPath root src fun src => atPath root dst fun dst =>
      parent dst
        (.look src (.answer (.ok ())) (.call (.rename src dst) (.answer (.ok ()))) (.call (.rename src dst) (.answer (.ok ()))))
  | .symlink _ rel target _ =>
    atPath root rel fun path =>
      parent path (.tryCall (.removeFile path) (.call (.symlink path target) (.answer (.ok ()))))
  | .setMetadata _ rel mode modified _ =>
    atPath root rel fun path =>
      let times := match modified with
        | some t => if 0 < t then .call (.setMtime path t) (.answer (.ok ())) else .answer (.ok ())
        | none => .answer (.ok ())
      match mode with
      | some m => if m = 0 then times else .call (.setMode path m) times
      | none => times
  | .mkdir _ rel _ => atPath root rel fun path => createDirAll path (.answer (.ok ()))
  | .remove _ rel dir _ =>
    atPath root rel fun path =>
      let file := .call (.removeFile path) (.answer (.ok ()))
      .look path (.answer (.ok ())) file (if dir then .removeTree path (.answer (.ok ())) else file)
  | _ => .answer (.error (.remote "not a mutation with an op id"))

/-- The file system on a disk `τ`: a call may fail, and `look` says whether there is
an entry and whether it is a directory. -/
structure Fs (τ : Type) where
  call : FsCall → τ → Bool × τ
  look : AbsPath → τ → Option Bool

/-- How far a delivery has come. -/
inductive Delivery where
  | received (frames : List Bytes)
  | acting (script : Script)
  | answered

/-- The disk, the marker of one request and its deliveries. -/
structure Deliveries (τ : Type) where
  disk : τ
  marked : Bool
  deliveries : Nat → Option Delivery
  completed : Bool

inductive DeliveryAct (τ : Type) where
  | deliver (d : Nat) (frames : List Bytes)
  /-- The next step of a delivery. `fails` is an error that is no call's: of the
  policy, the stream or the marker. `entry` is what `remove_dir_all` takes next. -/
  | run (d : Nat) (fails : Bool) (entry : AbsPath)
  /-- The marker is older than a day, and pruned. -/
  | prune
  /-- Requests of others. -/
  | others (disk : τ)

/-- All calls have been made, with success. -/
def Script.done : Script → Bool
  | .answer (.ok ()) => true
  | _ => false

/-- There are calls to be made. -/
def Script.busy : Script → Bool
  | .answer _ => false
  | _ => true

section System
variable {τ : Type} (fs : Fs τ) (root : AbsPath) (request : Request)

/-- The next call of a script that has one: the script that is left, and the disk. -/
def Script.next (disk : τ) (entry : AbsPath) : Script → Script × τ
  | .answer r => (.answer r, disk)
  | .call c next =>
    let r := fs.call c disk
    (if r.1 then next else .answer (.error (.io "call failed")), r.2)
  | .tryCall c next => (next, (fs.call c disk).2)
  | .look path absent other dir =>
    (match fs.look path disk with
      | none => absent
      | some false => other
      | some true => dir, disk)
  | .removeTree path next =>
    if path.isPrefixOf entry then
      let r := fs.call (.removeEntry entry) disk
      (if !r.1 then .answer (.error (.io "call failed")) else if entry = path then next else .removeTree path next, r.2)
    else (.removeTree path next, disk)

/-- The delivery goes on with a script. -/
def Deliveries.goOn (s : Deliveries τ) (d : Nat) (r : Script × τ) : Deliveries τ :=
  { s with
    disk := r.2
    deliveries := Function.update s.deliveries d (some (.acting r.1))
    completed := s.completed || r.1.done }

def Deliveries.answer (s : Deliveries τ) (d : Nat) : Deliveries τ :=
  { s with deliveries := Function.update s.deliveries d (some .answered) }

def deliveryStep (s : Deliveries τ) : DeliveryAct τ → Option (Deliveries τ)
  | .deliver d frames =>
    match s.deliveries d with
    | none => some { s with deliveries := Function.update s.deliveries d (some (.received frames)) }
    | some _ => none
  | .run d fails entry =>
    match s.deliveries d with
    | some (.received frames) =>
      -- `op_done`
      if fails || s.marked then some (s.answer d) else some (s.goOn d (request.script root frames, s.disk))
    | some (.acting (.answer (.ok ()))) =>
      -- `mark_op_done`
      some ({ s with marked := s.marked || !fails }.answer d)
    | some (.acting (.answer (.error _))) => some (s.answer d)
    | some (.acting script) =>
      some (if fails then s.goOn d (.answer (.error .eof), s.disk) else s.goOn d (script.next fs s.disk entry))
    | _ => none
  | .prune => some { s with marked := false }
  | .others disk => some { s with disk }

/-- The delivery has calls to make. -/
def Deliveries.Busy (s : Deliveries τ) (d : Nat) : Prop :=
  ∃ script, s.deliveries d = some (.acting script) ∧ script.busy = true

/-- The delivery is between its look and its mark. -/
def Deliveries.Pending (s : Deliveries τ) (d : Nat) : Prop :=
  ∃ script, s.deliveries d = some (.acting script) ∧ (script.busy = true ∨ script.done = true)

/-- No delivery looks for the marker while another is between its look and its mark;
no mark fails, and none is pruned. -/
def OnceGuard (s : Deliveries τ) : DeliveryAct τ → Prop
  | .run d fails _ =>
    ((∃ frames, s.deliveries d = some (.received frames)) → fails = false → ∀ d', ¬ s.Pending d') ∧
    (s.deliveries d = some (.acting (.answer (.ok ()))) → fails = false)
  | .prune => s.marked = false
  | _ => True

/-! ## The invariant -/

/-- One delivery at most is between its look and its mark, and none once the marker is
there. A request that is completed has its marker, or a delivery that writes it next. -/
structure OneActs (s : Deliveries τ) : Prop where
  one : ∀ d d', s.Pending d → s.Pending d' → d = d'
  marked : s.marked = true → ∀ d, ¬ s.Pending d
  completed : s.completed = true → s.marked = true ∨ ∃ d, s.deliveries d = some (.acting (.answer (.ok ())))

variable {fs root request} {s s' : Deliveries τ}

theorem busy_of_not_answer {script : Script} (h1 : script ≠ .answer (.ok ())) (h2 : ∀ e, script ≠ .answer (.error e)) :
    script.busy = true := by
  cases script with
  | answer r =>
    cases r with
    | ok u => exact absurd rfl h1
    | error e => exact absurd rfl (h2 e)
  | _ => rfl

theorem eq_of_done {script : Script} (h : script.done = true) : script = .answer (.ok ()) := by
  unfold Script.done at h
  split at h
  · rfl
  · cases h

theorem pending_of_done {d : Nat} (h : s.deliveries d = some (.acting (.answer (.ok ())))) : s.Pending d :=
  ⟨_, h, .inr rfl⟩

theorem pending_of_busy {d : Nat} (h : s.Busy d) : s.Pending d := by
  obtain ⟨script, hs, hb⟩ := h
  exact ⟨script, hs, .inl hb⟩

/-- After a step of one delivery the others are as they were. -/
theorem pending_update {disk : τ} {m c : Bool} {d d' : Nat} {x : Delivery}
    (h : (Deliveries.mk disk m (Function.update s.deliveries d (some x)) c).Pending d') :
    (d' = d ∧ ∃ script, x = .acting script ∧ (script.busy = true ∨ script.done = true)) ∨ (d' ≠ d ∧ s.Pending d') := by
  obtain ⟨script, hs, hb⟩ := h
  by_cases hd : d' = d
  · rw [hd] at hs
    simp only [Function.update_self, Option.some.injEq] at hs
    exact .inl ⟨hd, script, hs, hb⟩
  · simp only [Function.update_of_ne hd] at hs
    exact .inr ⟨hd, script, hs, hb⟩

/-- A request that is completed has no calls to make: either the marker is there, or
the delivery that writes it has made its own. -/
theorem OneActs.not_busy (h : OneActs s) (hdone : s.completed = true) (d : Nat) : ¬ s.Busy d := by
  intro hb
  rcases h.completed hdone with hm | ⟨d', hd'⟩
  · exact h.marked hm d (pending_of_busy hb)
  · obtain ⟨script, hs, hb'⟩ := hb
    rw [h.one d d' ⟨script, hs, .inl hb'⟩ (pending_of_done hd'), hd'] at hs
    cases hs
    cases hb'

/-- A delivery of which nothing is pending afterwards, and which is not the one that
is to write the marker. -/
theorem OneActs.rest (h : OneActs s) {d : Nat} {x : Delivery} (hx : ∀ script, x ≠ .acting script)
    (hd : s.deliveries d ≠ some (.acting (.answer (.ok ())))) :
    OneActs { s with deliveries := Function.update s.deliveries d (some x) } := by
  have hold : ∀ d', ({ s with deliveries := Function.update s.deliveries d (some x) } : Deliveries τ).Pending d' →
      s.Pending d' := by
    intro d' hb
    rcases pending_update hb with ⟨-, script, hs, -⟩ | ⟨-, hb⟩
    · exact absurd hs (hx script)
    · exact hb
  refine ⟨fun d d' hd hd' => h.one d d' (hold d hd) (hold d' hd'), fun hm d hd => h.marked hm d (hold d hd), fun hc => ?_⟩
  rcases h.completed hc with hm | ⟨d', hd'⟩
  · exact .inl hm
  · refine .inr ⟨d', ?_⟩
    have hne : d' ≠ d := by
      rintro rfl
      exact hd hd'
    exact (Function.update_of_ne hne _ _).trans hd'

/-- The only delivery that acts, before the marker is there, goes on. -/
theorem OneActs.goOn (hm : s.marked = false) (hc : s.completed = false) {d : Nat} (hd : ∀ d', s.Pending d' → d' = d)
    (r : Script × τ) : OneActs (s.goOn d r) := by
  have hone : ∀ d', (s.goOn d r).Pending d' → d' = d := by
    intro d' hb
    rcases pending_update hb with ⟨hd', -⟩ | ⟨-, hb⟩
    · exact hd'
    · exact hd d' hb
  refine ⟨fun a b ha hb => by rw [hone a ha, hone b hb], fun hm' => ?_, fun hdone => .inr ⟨d, ?_⟩⟩
  · rw [Deliveries.goOn, hm] at hm'
    cases hm'
  · simp only [Deliveries.goOn, hc, Bool.false_or] at hdone
    simp only [Deliveries.goOn, Function.update_self, eq_of_done hdone]

/-- While a delivery has calls to make, the request is neither marked nor completed. -/
theorem OneActs.of_busy (h : OneActs s) {d : Nat} (hb : s.Busy d) : s.marked = false ∧ s.completed = false := by
  refine ⟨Bool.eq_false_iff.2 fun hm => h.marked hm d (pending_of_busy hb), Bool.eq_false_iff.2 fun hc => ?_⟩
  exact h.not_busy hc d hb

/-- A look that finds no marker, while no other delivery acts. -/
theorem OneActs.look (h : OneActs s) (hidle : ∀ d, ¬ s.Pending d) (hm : s.marked = false) (d : Nat) (script : Script) :
    OneActs (s.goOn d (script, s.disk)) := by
  have hc : s.completed = false := Bool.eq_false_iff.2 fun hc => by
    rcases h.completed hc with hm' | ⟨d', hd'⟩
    · rw [hm] at hm'
      cases hm'
    · exact hidle d' (pending_of_done hd')
  exact OneActs.goOn hm hc (fun d' hb => absurd hb (hidle d')) _

/-- The marker is written: no delivery acts any more. -/
theorem OneActs.mark (h : OneActs s) {d : Nat} (hd : s.deliveries d = some (.acting (.answer (.ok ())))) :
    OneActs ({ s with marked := s.marked || !false }.answer d) := by
  have hnone : ∀ d', ¬ ({ s with marked := s.marked || !false }.answer d).Pending d' := by
    intro d' hb
    rcases pending_update hb with ⟨-, script, hs, -⟩ | ⟨hne, hb⟩
    · cases hs
    · exact hne (h.one d' d hb (pending_of_done hd))
  refine ⟨fun a b ha => absurd ha (hnone a), fun _ => hnone, fun _ => .inl ?_⟩
  rw [Deliveries.answer, Bool.not_false, Bool.or_true]

theorem OneActs.step (h : OneActs s) {a : DeliveryAct τ} (hg : OnceGuard s a)
    (hs : deliveryStep fs root request s a = some s') : OneActs s' := by
  cases a with
  | deliver d frames =>
    simp only [deliveryStep] at hs
    split at hs
    · rename_i hd
      cases hs
      exact h.rest (fun _ hx => by cases hx) (by rw [hd]; simp)
    · cases hs
  | run d fails entry =>
    simp only [deliveryStep] at hs
    split at hs
    · rename_i frames hd
      split at hs
      · cases hs
        exact h.rest (fun _ hx => by cases hx) (by rw [hd]; simp)
      · rename_i hlook
        simp only [Bool.or_eq_true, not_or, Bool.not_eq_true] at hlook
        cases hs
        exact h.look (hg.1 ⟨frames, hd⟩ hlook.1) hlook.2 d _
    · rename_i hd
      cases hs
      rw [hg.2 hd]
      exact h.mark hd
    · rename_i e hd
      cases hs
      exact h.rest (fun _ hx => by cases hx) (by rw [hd]; simp)
    · rename_i script h1 h2 hd
      have hb : s.Busy d := ⟨script, hd, busy_of_not_answer (fun e => h1 (e ▸ rfl)) (fun e he => h2 e (he ▸ rfl))⟩
      obtain ⟨hm, hc⟩ := h.of_busy hb
      have hone : ∀ d', s.Pending d' → d' = d := fun d' hb' => h.one d' d hb' (pending_of_busy hb)
      split at hs <;> cases hs <;> exact OneActs.goOn hm hc hone _
    · cases hs
  | prune =>
    cases hs
    have hsame : ({ s with marked := false } : Deliveries τ) = s := by rw [← show s.marked = false from hg]
    rw [hsame]
    exact h
  | others disk =>
    cases hs
    exact ⟨h.one, h.marked, h.completed⟩

/-- Only a busy delivery touches the disk. -/
theorem disk_of_not_busy {d : Nat} {fails : Bool} {entry : AbsPath} (hb : ¬ s.Busy d)
    (hs : deliveryStep fs root request s (.run d fails entry) = some s') : s'.disk = s.disk := by
  simp only [deliveryStep] at hs
  split at hs
  · split at hs <;> cases hs <;> rfl
  · cases hs
    rfl
  · cases hs
    rfl
  · rename_i script h1 h2 hd
    exact absurd ⟨script, hd, busy_of_not_answer (fun e => h1 (e ▸ rfl)) (fun e he => h2 e (he ▸ rfl))⟩ hb
  · cases hs

end System

/-- No request has been delivered yet. -/
def Deliveries.start {τ : Type} (disk : τ) : Deliveries τ := ⟨disk, false, fun _ => none, false⟩

/-- In every run of the deliveries of a mutating request among the requests of others
that meets `OnceGuard`: once a delivery has completed the request, no step of any
delivery of it changes the disk. -/
theorem mutation_once {τ : Type} (fs : Fs τ) (root : AbsPath) (request : Request) (disk : τ) (as : List (DeliveryAct τ))
    (s : Deliveries τ) (hguard : Guarded (deliveryStep fs root request) OnceGuard (.start disk) as)
    (hrun : exec (deliveryStep fs root request) (.start disk) as = some s) (hdone : s.completed = true) :
    ∀ d fails entry s', deliveryStep fs root request s (.run d fails entry) = some s' → s'.disk = s.disk := by
  have hinit : OneActs (Deliveries.start disk) := by
    refine ⟨fun d d' hb => ?_, fun hm => (by cases hm), fun hc => (by cases hc)⟩
    obtain ⟨script, hs, -⟩ := hb
    cases hs
  have h := exec_guarded_inv OneActs (fun _ _ _ h hg hs => h.step hg hs) hinit hguard hrun
  intro d fails entry s' hs
  exact disk_of_not_busy (h.not_busy hdone d) hs

/-! ## A retry after the first delivery, and one during it -/

/-- A disk with one file. -/
def oneFileFs : Fs Bytes where
  call
    | .setLen _ size, data => (true, data.take size)
    | _, data => (true, data)
  look _ _ := some false

def truncateFile : Request := .truncate "/srv" "f" 0 (some "5ea1")

abbrev truncateStep : Deliveries Bytes → DeliveryAct Bytes → Option (Deliveries Bytes) :=
  deliveryStep oneFileFs [] truncateFile

/-- The steps of a delivery that is left alone: it looks, opens, truncates and marks. -/
def wholeDelivery (d : Nat) : List (DeliveryAct Bytes) := .deliver d [] :: List.replicate 4 (.run d false [])

theorem deliveries_other {τ : Type} {fs : Fs τ} {root : AbsPath} {request : Request} {s s' : Deliveries τ} {d d' : Nat}
    {fails : Bool} {entry : AbsPath} (hs : deliveryStep fs root request s (.run d fails entry) = some s') (hd : d' ≠ d) :
    s'.deliveries d' = s.deliveries d' := by
  simp only [deliveryStep] at hs
  split at hs
  · split at hs <;> cases hs <;> exact Function.update_of_ne hd _ _
  · cases hs
    exact Function.update_of_ne hd _ _
  · cases hs
    exact Function.update_of_ne hd _ _
  · split at hs <;> cases hs <;> exact Function.update_of_ne hd _ _
  · cases hs

/-- Deliveries 0 and 1 only. -/
def OfTwo : DeliveryAct Bytes → Prop
  | .deliver d _ => d < 2
  | .run d _ _ => d < 2
  | _ => True

theorem step_ofTwo {s s' : Deliveries Bytes} {a : DeliveryAct Bytes} (h : ∀ d, 2 ≤ d → s.deliveries d = none)
    (ha : OfTwo a) (hs : truncateStep s a = some s') : ∀ d, 2 ≤ d → s'.deliveries d = none := by
  intro d hd
  cases a with
  | deliver d' frames =>
    have hlt : d' < 2 := ha
    simp only [truncateStep, deliveryStep] at hs
    split at hs
    · cases hs
      exact (Function.update_of_ne (by omega) _ _).trans (h d hd)
    · cases hs
  | run d' fails entry =>
    have hlt : d' < 2 := ha
    rw [deliveries_other hs (by omega)]
    exact h d hd
  | prune => cases hs; exact h d hd
  | others disk => cases hs; exact h d hd

def Deliveries.pending (s : Deliveries Bytes) (d : Nat) : Bool :=
  match s.deliveries d with
  | some (.acting script) => script.busy || script.done
  | _ => false

/-- A test for `OnceGuard` with two deliveries. -/
def onceGuarded (s : Deliveries Bytes) : DeliveryAct Bytes → Bool
  | .run d fails _ =>
    !fails && match s.deliveries d with
      | some (.received _) => !s.pending 0 && !s.pending 1
      | _ => true
  | .prune => false
  | _ => true

theorem onceGuard_of_test {s : Deliveries Bytes} {a : DeliveryAct Bytes} (h : ∀ d, 2 ≤ d → s.deliveries d = none)
    (hc : onceGuarded s a = true) : OnceGuard s a := by
  cases a with
  | run d fails entry =>
    simp only [onceGuarded, Bool.and_eq_true, Bool.not_eq_true'] at hc
    refine ⟨?_, fun _ => hc.1⟩
    rintro ⟨frames, hd⟩ - d' ⟨script, hs, hb⟩
    have hidle := hc.2
    simp only [hd, Bool.and_eq_true, Bool.not_eq_true'] at hidle
    have hpending : s.pending d' = true := by
      rw [Deliveries.pending, hs]
      exact Bool.or_eq_true_iff.2 hb
    by_cases h2 : 2 ≤ d'
    · rw [h d' h2] at hs
      cases hs
    · have hcases : d' = 0 ∨ d' = 1 := by omega
      rcases hcases with rfl | rfl
      · rw [hidle.1] at hpending
        cases hpending
      · rw [hidle.2] at hpending
        cases hpending
  | prune => cases hc
  | _ => trivial

/-- The retry comes when the first delivery has ended, and after a change by others. -/
def retriedLater : List (DeliveryAct Bytes) := wholeDelivery 0 ++ [.others [1, 2, 3], .deliver 1 []]

theorem mutation_once_retried_later :
    ∃ s, exec truncateStep (.start [9]) retriedLater = some s ∧ s.completed = true ∧ s.disk = [1, 2, 3] ∧
      ∀ s', truncateStep s (.run 1 false []) = some s' → s'.disk = s.disk := by
  have hrun : (exec truncateStep (.start [9]) retriedLater).any fun s => s.completed && s.disk = [1, 2, 3] := by decide
  obtain ⟨s, hs, hd⟩ := (Option.any_eq_true _ _).1 hrun
  simp only [Bool.and_eq_true, decide_eq_true_eq] at hd
  have hguard : Guarded truncateStep OnceGuard (.start [9]) retriedLater :=
    guarded_of_checkRun (fun s => ∀ d, 2 ≤ d → s.deliveries d = none) OfTwo onceGuarded
      (fun _ _ _ hi ha hs => step_ofTwo hi ha hs) (fun _ _ hi _ hc => onceGuard_of_test hi hc) (fun _ _ => rfl)
      (by simp [retriedLater, wholeDelivery, OfTwo]) (by decide)
  exact ⟨s, hs, hd.1, hd.2,
    mutation_once oneFileFs [] truncateFile [9] retriedLater s hguard hs hd.1 1 false []⟩

/-- The retry arrives while the first delivery has opened the file and not yet
truncated it. It completes and is answered; then another client writes; then the
first delivery truncates what that client wrote. -/
theorem older_delivery_undoes_newer_write :
    ∃ s s', exec truncateStep (.start [9]) ([.deliver 0 [], .run 0 false [], .run 0 false []] ++ wholeDelivery 1 ++
        [.others [1, 2, 3]]) = some s ∧ s.completed = true ∧ truncateStep s (.run 0 false []) = some s' ∧
      s.disk = [1, 2, 3] ∧ s'.disk = [] := by
  have hrun : (exec truncateStep (.start [9]) (([.deliver 0 [], .run 0 false [], .run 0 false []] :
      List (DeliveryAct Bytes)) ++ wholeDelivery 1 ++ [.others [1, 2, 3]])).any fun s =>
        (s.completed && s.disk = [1, 2, 3]) &&
        (truncateStep s (.run 0 false [])).any fun s' => s'.disk = [] := by decide
  obtain ⟨s, hs, hd⟩ := (Option.any_eq_true _ _).1 hrun
  simp only [Bool.and_eq_true, decide_eq_true_eq] at hd
  obtain ⟨s', hs', hd'⟩ := (Option.any_eq_true _ _).1 hd.2
  exact ⟨s, s', hs, hd.1.1, hs', hd.1.2, of_decide_eq_true hd'⟩

end Mobfs
