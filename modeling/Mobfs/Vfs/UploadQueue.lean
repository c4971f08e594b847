import Mathlib.Algebra.GroupWithZero.Nat
import Mathlib.Algebra.Order.BigOperators.Group.List
import Mobfs.Lib.Keyed
import Mobfs.Vfs.Threads
/-!
# The upload queue

`dispatch_pending` registers a chunk as an upload when none in flight on its path
overlaps it and there is room for its bytes, and waits until then. Workers carry the
uploads out, in any order, and take each off the list when it is done.

`Queued` is what holds of the list in every reachable state. Uploads that could be
carried out in another order are apart, so the contents of a file are those of the
chunks written in the order they were registered (`uploads_in_order`).

The write-back state has such a queue in it, and its steps are steps of the queue
(`WriteBack.step_queue`).
-/

namespace Mobfs

open Lib

/-- The uploads, what `dispatch_pending` is called with in each thread until it has
registered it, and the remote. `registered` are the chunks in the order of their
registration, and read by no step. -/
structure UploadQueue where
  next : Nat
  bytes : Nat
  inflight : List Upload
  errors : Nat → Option Errno
  waiting : Nat → Option (Nat × Pending)
  remote : String → Bytes
  registered : List Pending

inductive QueueAct where
  /-- `dispatch_pending` is called and finds this path for the inode. -/
  | dispatch (t fh : Nat) (pending : Pending) (path : Option String)
  | register (t : Nat)
  /-- The worker's `write_file_at` takes effect. -/
  | upload (id : Nat)
  /-- It returns an error, after it has written so many bytes. -/
  | uploadFails (id : Nat) (e : Errno) (bytes : Nat)
  /-- The worker takes its upload off the list. -/
  | complete (id : Nat)
  | takeError (fh : Nat)

namespace UploadQueue

def overlapping (q : UploadQueue) (c : Pending) : Bool :=
  q.inflight.any fun u => u.pending.path = c.path &&
    overlaps u.pending.offset u.pending.data.length c.offset c.data.length

def room (q : UploadQueue) (c : Pending) : Bool :=
  q.inflight.isEmpty || q.bytes + c.data.length ≤ maxInflightUploadBytes

def setState (q : UploadQueue) (id : Nat) (state : UploadState) : UploadQueue :=
  { q with inflight := q.inflight.map fun u => if u.id = id then { u with state } else u }

def writeRemote (q : UploadQueue) (path : String) (offset : Nat) (data : Bytes) : UploadQueue :=
  { q with remote := Function.update q.remote path (writeAt 0 (q.remote path) offset data) }

def step (q : UploadQueue) : QueueAct → Option UploadQueue
  | .dispatch t fh c path =>
    match q.waiting t with
    | some _ => none
    | none => some { q with waiting := Function.update q.waiting t (some (fh, { c with path := path.getD c.path })) }
  | .register t =>
    match q.waiting t with
    | none => none
    | some (fh, c) =>
      if q.overlapping c || !q.room c then none
      else
        some { q with next := q.next + 1, bytes := q.bytes + c.data.length,
                      inflight := q.inflight ++ [⟨q.next + 1, fh, c, .queued⟩],
                      waiting := Function.update q.waiting t none, registered := q.registered ++ [c] }
  | .upload id =>
    match q.inflight.find? (·.id = id) with
    | none => none
    | some u =>
      if u.state = .queued then
        some ((q.writeRemote u.pending.path u.pending.offset u.pending.data).setState id .written)
      else none
  | .uploadFails id e n =>
    match q.inflight.find? (·.id = id) with
    | none => none
    | some u =>
      if u.state = .queued then
        some ((q.writeRemote u.pending.path u.pending.offset (u.pending.data.take n)).setState id (.failed e))
      else none
  | .complete id =>
    match q.inflight.find? (·.id = id) with
    | none => none
    | some u =>
      let done := { q with inflight := q.inflight.filter (·.id ≠ id), bytes := q.bytes - u.pending.data.length }
      match u.state with
      | .queued => none
      | .written => some done
      | .failed e => some { done with errors := Function.update q.errors u.fh (some e) }
  | .takeError fh => some { q with errors := Function.update q.errors fh none }

def start (remote : String → Bytes) : UploadQueue :=
  { next := 0, bytes := 0, inflight := [], errors := fun _ => none, waiting := fun _ => none, remote, registered := [] }

/-! ## What holds of the list -/

/-- The uploads are to different paths, or to ranges without a common byte. -/
def Apart (u v : Upload) : Prop :=
  u.pending.path = v.pending.path →
    overlaps u.pending.offset u.pending.data.length v.pending.offset v.pending.data.length = false

structure Queued (q : UploadQueue) : Prop where
  ids : q.inflight.Pairwise (·.id ≠ ·.id)
  next : ∀ u ∈ q.inflight, u.id ≤ q.next
  apart : q.inflight.Pairwise Apart
  bytes : q.bytes = (q.inflight.map (·.pending.data.length)).sum
  limit : q.inflight.length ≤ 1 ∨ q.bytes ≤ maxInflightUploadBytes

variable {q q' : UploadQueue}

/-- What a step can do. -/
inductive Steps (q : UploadQueue) : QueueAct → UploadQueue → Prop
  | dispatch {t fh : Nat} {c : Pending} {path : Option String} (hw : q.waiting t = none) :
    Steps q (.dispatch t fh c path)
      { q with waiting := Function.update q.waiting t (some (fh, { c with path := path.getD c.path })) }
  | register {t fh : Nat} {c : Pending} (hw : q.waiting t = some (fh, c)) (hno : q.overlapping c = false)
    (hroom : q.room c = true) :
    Steps q (.register t)
      { q with next := q.next + 1, bytes := q.bytes + c.data.length,
               inflight := q.inflight ++ [⟨q.next + 1, fh, c, .queued⟩],
               waiting := Function.update q.waiting t none, registered := q.registered ++ [c] }
  | upload {id : Nat} {u : Upload} (hu : q.inflight.find? (·.id = id) = some u) (hq : u.state = .queued) :
    Steps q (.upload id) ((q.writeRemote u.pending.path u.pending.offset u.pending.data).setState id .written)
  | uploadFails {id n : Nat} {e : Errno} {u : Upload} (hu : q.inflight.find? (·.id = id) = some u)
    (hq : u.state = .queued) :
    Steps q (.uploadFails id e n)
      ((q.writeRemote u.pending.path u.pending.offset (u.pending.data.take n)).setState id (.failed e))
  | complete {id : Nat} {u : Upload} (hu : q.inflight.find? (·.id = id) = some u) (hq : u.state ≠ .queued)
    (errors : Nat → Option Errno) (he : (∀ e, u.state ≠ .failed e) → errors = q.errors) :
    Steps q (.complete id)
      { q with inflight := q.inflight.filter (·.id ≠ id), bytes := q.bytes - u.pending.data.length, errors := errors }
  | takeError {fh : Nat} : Steps q (.takeError fh) { q with errors := Function.update q.errors fh none }

theorem step_cases {a : QueueAct} (h : q.step a = some q') : Steps q a q' := by
  cases a <;> simp only [step] at h
  case dispatch t fh c path =>
    split at h
    · cases h
    · cases h
      exact .dispatch ‹_›
  case register t =>
    split at h
    · cases h
    · split at h
      · cases h
      · rename_i hno
        cases h
        simp only [Bool.or_eq_true, not_or, Bool.not_eq_true, Bool.not_eq_false'] at hno
        exact .register ‹_› hno.1 hno.2
  case upload id =>
    split at h
    · cases h
    · split at h
      · cases h
        exact .upload ‹_› ‹_›
      · cases h
  case uploadFails id e n =>
    split at h
    · cases h
    · split at h
      · cases h
        exact .uploadFails ‹_› ‹_›
      · cases h
  case complete id =>
    split at h
    · cases h
    · split at h
      · cases h
      · rename_i hst
        cases h
        exact .complete ‹_› (by simp [hst]) _ fun _ => rfl
      · rename_i e hst
        cases h
        exact .complete ‹_› (by simp [hst]) _ fun hno => absurd hst (hno e)
  case takeError fh =>
    cases h
    exact .takeError

/-- The state of an upload is not what keeps it apart from others. -/
theorem Queued.setState (h : q.Queued) {u : Upload} {id : Nat} (hu : q.inflight.find? (·.id = id) = some u)
    (state : UploadState) (remote : String → Bytes) : Queued { q.setState id state with remote := remote } := by
  obtain ⟨hid, l₁, l₂, hl, h₁, h₂⟩ := split_of_find h.ids hu
  have hnew : (q.setState id state).inflight = l₁ ++ { u with state } :: l₂ := by
    simp only [UploadQueue.setState, hl]
    exact map_update_split (fun u : Upload => { u with state }) hid h₁ h₂
  obtain ⟨hids, hnext, hapart, hbytes, hlimit⟩ := h
  rw [hl] at hids hnext hapart hbytes hlimit
  refine ⟨?_, ?_, ?_, ?_, ?_⟩
  · simp only [hnew, List.pairwise_append, List.pairwise_cons] at hids ⊢
    grind
  · simp only [hnew]
    grind [UploadQueue.setState]
  · simp only [hnew, List.pairwise_append, List.pairwise_cons] at hapart ⊢
    grind [Apart]
  · simp only [hnew]
    simpa [UploadQueue.setState] using hbytes
  · simp only [hnew]
    simpa [UploadQueue.setState] using hlimit

theorem Queued.register (h : q.Queued) {t fh : Nat} {c : Pending} (hno : q.overlapping c = false)
    (hroom : q.room c = true) :
    Queued { q with next := q.next + 1, bytes := q.bytes + c.data.length,
                    inflight := q.inflight ++ [⟨q.next + 1, fh, c, .queued⟩],
                    waiting := Function.update q.waiting t none, registered := q.registered ++ [c] } := by
  refine ⟨?_, ?_, ?_, ?_, ?_⟩
  · refine List.pairwise_append.2 ⟨h.ids, List.pairwise_singleton _ _, ?_⟩
    intro u hu v hv
    have hle := h.next u hu
    rw [List.mem_singleton.1 hv]
    simp only
    omega
  · intro u hu
    rcases List.mem_append.1 hu with hu | hu
    · have hle := h.next u hu
      simp only
      omega
    · rw [List.mem_singleton.1 hu]
  · refine List.pairwise_append.2 ⟨h.apart, List.pairwise_singleton _ _, ?_⟩
    intro u hu v hv hpath
    rw [List.mem_singleton.1 hv] at hpath ⊢
    have hu' := List.any_eq_false.1 hno u hu
    simpa [hpath] using hu'
  · simp [h.bytes]
  · -- There is room: the list is empty, or the bytes fit.
    simp only [room, Bool.or_eq_true, List.isEmpty_iff, decide_eq_true_eq] at hroom
    rcases hroom with hempty | hfits
    · simp [hempty]
    · exact .inr hfits

theorem Queued.remove (h : q.Queued) {u : Upload} {id : Nat} (hu : q.inflight.find? (·.id = id) = some u)
    (errors : Nat → Option Errno) :
    Queued { q with inflight := q.inflight.filter (·.id ≠ id), bytes := q.bytes - u.pending.data.length,
                    errors := errors } := by
  obtain ⟨hid, l₁, l₂, hl, h₁, h₂⟩ := split_of_find h.ids hu
  have hnew : q.inflight.filter (·.id ≠ id) = l₁ ++ l₂ := by
    rw [hl]
    exact filter_ne_split hid h₁ h₂
  have hbytes := h.bytes
  refine ⟨h.ids.filter _, fun w hw => h.next w (List.mem_filter.1 hw).1, h.apart.filter _, ?_, ?_⟩
  · simp only [hnew]
    rw [hl] at hbytes
    simp only [List.map_append, List.sum_append, List.map_cons, List.sum_cons] at hbytes ⊢
    omega
  · rcases h.limit with hone | hfits
    · left
      exact (List.length_filter_le _ _).trans hone
    · right
      exact (Nat.sub_le _ _).trans hfits

theorem start_queued (remote : String → Bytes) : (start remote).Queued :=
  ⟨.nil, by simp [start], .nil, rfl, .inl (Nat.zero_le _)⟩

theorem Queued.step (h : q.Queued) {a : QueueAct} (hs : q.step a = some q') : q'.Queued := by
  cases step_cases hs with
  | dispatch hw => exact ⟨h.ids, h.next, h.apart, h.bytes, h.limit⟩
  | register hw hno hroom => exact h.register hno hroom
  | upload hu hq => exact h.setState hu _ _
  | uploadFails hu hq => exact h.setState hu _ _
  | complete hu hq errors he => exact h.remove hu errors
  | takeError => exact ⟨h.ids, h.next, h.apart, h.bytes, h.limit⟩

/-! ## The order of the workers does not matter -/

/-- The contents after a chunk is written. -/
def applyChunk (b : Bytes) (c : Pending) : Bytes := writeAt 0 b c.offset c.data

theorem applyChunk_comm {c d : Pending} (h : overlaps c.offset c.data.length d.offset d.data.length = false)
    (b : Bytes) : applyChunk (applyChunk b c) d = applyChunk (applyChunk b d) c := by
  by_cases hc : c.data = []
  · simp [applyChunk, hc]
  by_cases hd : d.data = []
  · simp [applyChunk, hd]
  have hc' : 0 < c.data.length := List.length_pos_iff.2 hc
  have hd' : 0 < d.data.length := List.length_pos_iff.2 hd
  apply writeAt_comm
  simp only [overlaps, Bool.and_eq_false_iff, decide_eq_false_iff_not] at h
  omega

/-- The chunks of a path that no worker has written, in the order of their registration. -/
def queuedTo (q : UploadQueue) (path : String) : List Pending :=
  (q.inflight.filter fun u => u.state = .queued && u.pending.path = path).map (·.pending)

def registeredTo (q : UploadQueue) (path : String) : List Pending := q.registered.filter (·.path = path)

/-- The remote contents, with what the workers have still to write, are the original
contents with all that has been registered. -/
structure Settling (orig : String → Bytes) (q : UploadQueue) : Prop where
  queued : q.Queued
  states : ∀ u ∈ q.inflight, u.state = .queued ∨ u.state = .written
  contents : ∀ path, (q.queuedTo path).foldl applyChunk (q.remote path) =
    (q.registeredTo path).foldl applyChunk (orig path)

variable {orig : String → Bytes}

theorem Settling.register (h : q.Settling orig) {t fh : Nat} {c : Pending} (hno : q.overlapping c = false)
    (hroom : q.room c = true) :
    Settling orig { q with next := q.next + 1, bytes := q.bytes + c.data.length,
                           inflight := q.inflight ++ [⟨q.next + 1, fh, c, .queued⟩],
                           waiting := Function.update q.waiting t none, registered := q.registered ++ [c] } := by
  refine ⟨h.queued.register hno hroom, ?_, fun path => ?_⟩
  · intro u hu
    rcases List.mem_append.1 hu with hu | hu
    · exact h.states u hu
    · rw [List.mem_singleton.1 hu]
      exact .inl rfl
  · have hc := h.contents path
    simp only [queuedTo, registeredTo, List.filter_append, List.map_append, List.foldl_append] at hc ⊢
    rw [hc]
    by_cases hp : c.path = path
    · simp [hp]
    · simp [hp]

theorem Settling.upload (h : q.Settling orig) {u : Upload} {id : Nat} (hu : q.inflight.find? (·.id = id) = some u)
    (hq : u.state = .queued) :
    Settling orig ((q.writeRemote u.pending.path u.pending.offset u.pending.data).setState id .written) := by
  obtain ⟨hid, l₁, l₂, hl, h₁, h₂⟩ := split_of_find h.queued.ids hu
  have hnew : (q.inflight.map fun w => if w.id = id then { w with state := .written } else w) =
      l₁ ++ { u with state := .written } :: l₂ := by
    rw [hl]
    exact map_update_split (fun u : Upload => { u with state := .written }) hid h₁ h₂
  refine ⟨h.queued.setState hu _ _, ?_, fun path => ?_⟩
  · intro w hw
    simp only [UploadQueue.setState, writeRemote, hnew] at hw
    have hold : ∀ v ∈ l₁ ++ l₂, v.state = .queued ∨ v.state = .written := fun v hv => h.states v (by rw [hl]; grind)
    grind
  · have hc := h.contents path
    simp only [queuedTo, registeredTo, UploadQueue.setState, writeRemote, hnew] at hc ⊢
    rw [hl] at hc
    by_cases hp : u.pending.path = path
    · -- Nothing that is queued before the upload overlaps it, so it may be written first.
      subst hp
      have hapart := h.queued.apart
      rw [hl] at hapart
      have hcomm : ∀ c ∈ (l₁.filter fun w => w.state = .queued && w.pending.path = u.pending.path).map (·.pending),
          ∀ b, applyChunk (applyChunk b u.pending) c = applyChunk (applyChunk b c) u.pending := by
        intro c hc b
        obtain ⟨w, hw, rfl⟩ := List.mem_map.1 hc
        obtain ⟨hw, hwp⟩ := List.mem_filter.1 hw
        have hwu : Apart w u := (List.pairwise_append.1 hapart).2.2 w hw u List.mem_cons_self
        have hpath : w.pending.path = u.pending.path := (Bool.and_eq_true_iff.1 hwp).2 |> of_decide_eq_true
        exact (applyChunk_comm (hwu hpath) b).symm
      have hfirst := foldl_comm_of_forall applyChunk (b := q.remote u.pending.path) hcomm
      simp only [List.filter_append, List.filter_cons, hq, decide_true, Bool.and_self, if_true, List.map_append,
        List.map_cons, List.foldl_append, List.foldl_cons] at hc
      simp only [List.filter_append, List.filter_cons, reduceCtorEq, decide_false, Bool.false_and, Bool.false_eq_true,
        if_false, List.map_append, List.foldl_append, Function.update_self]
      rw [← hc, ← hfirst]
      rfl
    · simpa [List.filter_append, List.filter_cons, hp, Ne.symm hp, hq] using hc

theorem Settling.complete (h : q.Settling orig) {u : Upload} {id : Nat} (hu : q.inflight.find? (·.id = id) = some u)
    (hq : u.state ≠ .queued) (errors : Nat → Option Errno) :
    Settling orig { q with inflight := q.inflight.filter (·.id ≠ id), bytes := q.bytes - u.pending.data.length,
                           errors := errors } := by
  obtain ⟨hid, l₁, l₂, hl, h₁, h₂⟩ := split_of_find h.queued.ids hu
  have hnew : q.inflight.filter (·.id ≠ id) = l₁ ++ l₂ := by
    rw [hl]
    exact filter_ne_split hid h₁ h₂
  refine ⟨h.queued.remove hu errors, fun w hw => h.states w (List.mem_filter.1 hw).1, fun path => ?_⟩
  have hc := h.contents path
  simp only [queuedTo, registeredTo, hnew] at hc ⊢
  rw [hl] at hc
  simpa [List.filter_append, List.filter_cons, hq] using hc

/-- An upload that fails need not have written its chunk. -/
def NotFailing : QueueAct → Prop
  | .uploadFails .. => False
  | _ => True

theorem Settling.step (h : q.Settling orig) {a : QueueAct} (ha : NotFailing a) (hs : q.step a = some q') :
    q'.Settling orig := by
  cases step_cases hs with
  | dispatch hw => exact ⟨h.queued.step hs, h.states, h.contents⟩
  | register hw hno hroom => exact h.register hno hroom
  | upload hu hq => exact h.upload hu hq
  | uploadFails hu hq => exact ha.elim
  | complete hu hq errors he => exact h.complete hu hq errors
  | takeError => exact ⟨h.queued.step hs, h.states, h.contents⟩

theorem start_settling (remote : String → Bytes) : (start remote).Settling remote :=
  ⟨start_queued remote, by simp [start], fun _ => rfl⟩

theorem exec_settling {remote : String → Bytes} {as : List QueueAct} (hok : ∀ a ∈ as, NotFailing a)
    (h : exec step (start remote) as = some q) : q.Settling remote := by
  have hg : ∀ as : List QueueAct, (∀ a ∈ as, NotFailing a) → ∀ q, Guarded step (fun _ => NotFailing) q as := by
    intro as
    induction as with
    | nil => exact fun _ _ => trivial
    | cons a as ih =>
      intro hok q
      exact ⟨hok a List.mem_cons_self, fun q' _ => ih (fun b hb => hok b (List.mem_cons_of_mem _ hb)) q'⟩
  exact exec_guarded_inv (Settling remote) (fun _ _ _ h ha hs => h.step ha hs) (start_settling remote) (hg as hok _) h

theorem exec_contents {remote : String → Bytes} {as : List QueueAct} (hok : ∀ a ∈ as, NotFailing a)
    (h : exec step (start remote) as = some q) (hempty : q.inflight = []) (path : String) :
    q.remote path = (q.registeredTo path).foldl applyChunk (remote path) := by
  have hc := (exec_settling hok h).contents path
  simpa [queuedTo, hempty] using hc

/-- In every reachable state the uploads in flight on one path cover disjoint ranges,
`bytes` is the sum of their lengths and no less than what is taken from it, and there is
at most one upload or at most `maxInflightUploadBytes`. When all have been written, the
contents of every file are the original contents with the chunks applied in the order of
their registration, whatever the workers did first. -/
theorem uploads_in_order (remote : String → Bytes) (as : List QueueAct) (q : UploadQueue)
    (h : exec step (start remote) as = some q) :
    (q.inflight.Pairwise fun u v => u.pending.path = v.pending.path →
      ∀ i, ¬ (u.pending.offset ≤ i ∧ i < u.pending.offset + u.pending.data.length ∧
        v.pending.offset ≤ i ∧ i < v.pending.offset + v.pending.data.length)) ∧
    q.bytes = (q.inflight.map (·.pending.data.length)).sum ∧
    (∀ u ∈ q.inflight, u.pending.data.length ≤ q.bytes) ∧
    (q.inflight.length ≤ 1 ∨ q.bytes ≤ maxInflightUploadBytes) ∧
    ((∀ a ∈ as, NotFailing a) → q.inflight = [] →
      (∀ path, q.remote path = (q.registeredTo path).foldl applyChunk (remote path)) ∧
      ∀ as' q', exec step (start remote) as' = some q' → (∀ a ∈ as', NotFailing a) → q'.inflight = [] →
        q'.registered = q.registered → q'.remote = q.remote) := by
  have hq : q.Queued := exec_inv Queued (fun _ _ _ h hs => h.step hs) (start_queued remote) h
  refine ⟨hq.apart.imp ?_, hq.bytes, ?_, hq.limit, ?_⟩
  · intro u v hapart hpath i hi
    have hno := hapart hpath
    simp only [overlaps, Bool.and_eq_false_iff, decide_eq_false_iff_not] at hno
    omega
  · intro u hu
    rw [hq.bytes]
    exact List.single_le_sum (fun _ _ => Nat.zero_le _) _ (List.mem_map_of_mem hu)
  · intro hok hempty
    refine ⟨exec_contents hok h hempty, fun as' q' h' hok' hempty' hreg => ?_⟩
    funext path
    rw [exec_contents hok h hempty, exec_contents hok' h' hempty', registeredTo, registeredTo, hreg]

/-- Two writes of `f` that overlap and one of another place in it. The last one is written
first, and the second one waits for the first. -/
def threeChunks : List QueueAct :=
  [.dispatch 0 7 (.single 2 ⟨0, 7, "f", 0, [65, 65]⟩) (some "f"), .register 0,
    .dispatch 0 7 (.single 2 ⟨1, 7, "f", 1, [66, 66]⟩) (some "f"),
    .dispatch 1 8 (.single 2 ⟨2, 8, "f", 4, [67]⟩) none, .register 1, .upload 2, .upload 1, .complete 1, .register 0,
    .complete 2, .upload 3, .complete 3]

theorem uploads_in_order_threeChunks :
    ∃ q, exec step (start fun _ => []) threeChunks = some q ∧ q.bytes = 0 ∧ q.remote "f" = [65, 66, 66, 0, 67] ∧
      q.remote "f" = (q.registeredTo "f").foldl applyChunk [] := by
  have hrun : (exec step (start fun _ => []) threeChunks).map (fun q => (q.inflight.isEmpty, q.bytes, q.remote "f")) =
      some (true, 0, [65, 66, 66, 0, 67]) := by
    decide
  obtain ⟨q, hq, he⟩ := Option.map_eq_some_iff.1 hrun
  simp only [Prod.mk.injEq, List.isEmpty_iff] at he
  have hok : ∀ a ∈ threeChunks, NotFailing a := by simp [threeChunks, NotFailing]
  exact ⟨q, hq, he.2.1, he.2.2, ((uploads_in_order _ threeChunks q hq).2.2.2.2 hok he.1).1 "f"⟩

end UploadQueue

/-! ## The queue of the write-back state -/

/-- What a thread that is in `dispatch_pending` waits with. -/
def waits : List Instr → Option (Nat × Pending)
  | .register fh c :: _ => some (fh, c)
  | _ => none

theorem waits_eq_none {prog : List Instr} (h : ∀ i ∈ prog, i.holding = false) : waits prog = none := by
  cases prog with
  | nil => rfl
  | cons i prog =>
    have hi := h i List.mem_cons_self
    cases i <;> first | rfl | cases hi

namespace WriteBack

/-- The queue, where these are the chunks that have been registered. -/
def queue (s : WriteBack) (registered : List Pending) : UploadQueue :=
  { next := s.next, bytes := s.bytes, inflight := s.inflight, errors := s.errors, waiting := fun t => waits (s.threads t),
    remote := s.remote, registered }

def queueActs (s : WriteBack) : WriteBackAct → List QueueAct
  | .run t =>
    match s.threads t with
    | .takeError fh :: _ => if s.errors fh = none then [] else [.takeError fh]
    | .resolve fh c :: _ => [.dispatch t fh c (s.inodes c.ino)]
    | .register _ _ :: _ => [.register t]
    | _ => []
  | .upload id => [.upload id]
  | .uploadFails id e n => [.uploadFails id e n]
  | .complete id => [.complete id]
  | _ => []

variable {s s' : WriteBack} {reg : List Pending}

theorem queue_goOn (s : WriteBack) (t : Nat) (prog : List Instr) :
    (s.goOn t prog).queue reg = { s.queue reg with waiting := Function.update (s.queue reg).waiting t (waits prog) } := by
  have hwaiting : (fun t' => waits ((s.goOn t prog).threads t')) = Function.update (s.queue reg).waiting t (waits prog) := by
    funext t'
    by_cases h : t' = t
    · subst h
      simp [goOn]
    · simp [goOn, queue, h]
  simp only [queue] at hwaiting ⊢
  rw [hwaiting]
  rfl

/-- A thread that goes on outside `dispatch_pending`, as it was. -/
theorem queue_goOn_none (reg : List Pending) {t : Nat} {prog : List Instr} (h : waits (s.threads t) = none) (h' : waits prog = none) :
    (s.goOn t prog).queue reg = s.queue reg := by
  rw [queue_goOn, h']
  have : Function.update (s.queue reg).waiting t none = (s.queue reg).waiting := Function.update_eq_self_iff.2 h.symm
  rw [this]

/-- An instruction outside `dispatch_pending` that looks for no error. -/
theorem exec1_queue_eq {t : Nat} {i : Instr} {rest : List Instr} (hi : i.holding = false)
    (hne : ∀ fh, i ≠ .takeError fh) (hprog : s.threads t = i :: rest) (hw : waits (s.after rest i) = none)
    (h : s.exec1 t rest i = some s') : s'.queue reg = s.queue reg := by
  have hwaits : waits (s.threads t) = none := by
    rw [hprog]
    cases i <;> first | rfl | cases hi
  have hframe : s'.next = s.next ∧ s'.bytes = s.bytes ∧ s'.inflight = s.inflight ∧ s'.errors = s.errors ∧
      s'.remote = s.remote := by
    cases i <;> simp only [exec1] at h
    case takeError fh => exact absurd rfl (hne fh)
    case resolve => cases hi
    case register => cases hi
    case buffer fh ino path offset data =>
      obtain ⟨c, place, threads, heq, -⟩ := s.bufferWrite_eq t rest ino ⟨s.written.length, fh, path, offset, data⟩
      rw [heq] at h
      cases h
      exact ⟨rfl, rfl, rfl, rfl, rfl⟩
    all_goals
      try split at h
      all_goals
        cases h <;> exact ⟨rfl, rfl, rfl, rfl, rfl⟩
  obtain ⟨hn, hb, hf, he, hr⟩ := hframe
  have hgo := queue_goOn_none reg hwaits hw
  rw [← hgo]
  simp only [queue, goOn, hn, hb, hf, he, hr, exec1_threads h]

theorem waits_after {i : Instr} {rest : List Instr} (hi : ∀ fh c, i ≠ .resolve fh c)
    (hrest : ∀ j ∈ rest, j.holding = false) : waits (s.after rest i) = none := by
  have hr : waits rest = none := waits_eq_none hrest
  cases i <;> simp only [after]
  case resolve fh c => exact absurd rfl (hi fh c)
  case takeError fh =>
    split
    · exact hr
    · rfl
  case buffer => grind [waits]
  case take fh =>
    split
    · exact hr
    · rfl
  case collect path => cases s.matchingHandles path <;> rfl
  case collectAll => cases s.buffers.keys <;> rfl
  all_goals exact hr

theorem run_queue {t : Nat} {i : Instr} {rest : List Instr} (hprog : s.threads t = i :: rest)
    (hrest : ∀ j ∈ rest, j.holding = false) (h : s.exec1 t rest i = some s') :
    ∃ reg', exec UploadQueue.step (s.queue reg) (s.queueActs (.run t)) = some (s'.queue reg') := by
  have hr : waits rest = none := waits_eq_none hrest
  cases i <;> simp only [queueActs, hprog]
  case takeError fh =>
    have hw : waits (s.threads t) = none := by rw [hprog]; rfl
    refine ⟨reg, ?_⟩
    simp only [exec1] at h
    split at h
    · rename_i hnone
      cases h
      rw [if_pos hnone, queue_goOn_none reg hw hr]
      rfl
    · rename_i e hsome
      cases h
      rw [if_neg (by simp [hsome]), queue_goOn_none reg (by exact hw) rfl]
      rfl
  case resolve fh c =>
    have hwait : (s.queue reg).waiting t = none := by simp [queue, hprog, waits]
    cases h
    refine ⟨reg, ?_⟩
    rw [queue_goOn]
    simp only [exec, UploadQueue.step, hwait, Option.bind_some]
    rfl
  case register fh c =>
    have hwait : (s.queue reg).waiting t = some (fh, c) := by simp [queue, hprog, waits]
    simp only [exec1] at h
    split at h
    · cases h
    · rename_i hno
      cases h
      refine ⟨reg ++ [c], ?_⟩
      have hno' : ((s.queue reg).overlapping c || !(s.queue reg).room c) = false :=
        Bool.eq_false_iff.2 hno
      rw [queue_goOn, hr]
      simp only [exec, UploadQueue.step, hwait, hno', Bool.false_eq_true, if_false, Option.bind_some]
      rfl
  all_goals
    refine ⟨reg, congrArg some (exec1_queue_eq rfl (by simp) hprog (waits_after (by simp) hrest) h).symm⟩

/-- A step of the write-back state is a run of its queue. -/
theorem step_queue (reg : List Pending) {ignore : List String} {a : WriteBackAct} (htidy : ∀ t, Tidy (s.threads t))
    (hs : s.step ignore a = some s') :
    ∃ reg', exec UploadQueue.step (s.queue reg) (s.queueActs a) = some (s'.queue reg') := by
  have hfind : ∀ {id u}, s.inflight.find? (·.id = id) = some u → (s.queue reg).inflight.find? (·.id = id) = some u := id
  cases step_cases hs with
  | call hidle hprog =>
    refine ⟨reg, ?_⟩
    rw [queue_goOn_none reg (by rw [hidle]; rfl)]
    · rfl
    · exact waits_eq_none fun i hi => (program_fresh hprog i hi).1
  | @run t i rest _ hprog he => exact run_queue hprog (fun j hj => htidy t j (by rw [hprog]; exact hj)) he
  | upload hu hq =>
    refine ⟨reg, ?_⟩
    simp only [queueActs, exec, UploadQueue.step, hfind hu, hq, if_true, Option.bind_some]
    rfl
  | uploadFails hu hq =>
    refine ⟨reg, ?_⟩
    simp only [queueActs, exec, UploadQueue.step, hfind hu, hq, if_true, Option.bind_some]
    rfl
  | completeWritten hu hw =>
    refine ⟨reg, ?_⟩
    simp only [queueActs, exec, UploadQueue.step, hfind hu, hw, Option.bind_some]
    rfl
  | completeFailed hu hf =>
    refine ⟨reg, ?_⟩
    simp only [queueActs, exec, UploadQueue.step, hfind hu, hf, Option.bind_some]
    rfl
  | setInodes => exact ⟨reg, rfl⟩

/-- The queue of a reachable write-back state is well formed. -/
theorem exec_queued {ignore : List String} {inodes : Nat → Option String} {remote : String → Bytes}
    {as : List WriteBackAct} (h : exec (step ignore) (start inodes remote) as = some s) :
    ∃ reg, (s.queue reg).Queued := by
  have hrun := exec_inv (fun s => s.Sound ∧ ∃ reg, (queue s reg).Queued) ?_
    ⟨start_sound inodes remote, [], .nil, by simp [queue, start], .nil, rfl, .inl (Nat.zero_le _)⟩ h
  · exact hrun.2
  · rintro s a s' ⟨hsound, reg, hq⟩ hs
    obtain ⟨reg', hrun⟩ := step_queue reg hsound.tidy hs
    exact ⟨hsound.step hs, reg', exec_inv UploadQueue.Queued (fun _ _ _ h hs => h.step hs) hq hrun⟩

end WriteBack

end Mobfs
