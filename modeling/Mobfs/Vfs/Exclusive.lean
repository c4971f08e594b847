import Mathlib.Logic.Function.Basic
import Mobfs.Lib.Contents
import Mobfs.Lib.Runs
import Mobfs.Vfs.Caches
import Mobfs.Vfs.NameCache
/-!
# Exclusive creation

Two calls of `create` for one path with `O_EXCL`, from two mounts or two threads of
one. A call tests whether there is a file, in the caches or by a `Stat`, and then
sends a `Truncate`, which makes the file or empties it. What the daemon does for
different requests interleaves, call by call of the file system; a request may be
sent again, and may be handled after the client has given it up.

`create_exclusive`: in runs that meet `ExclusiveGuard` at most one of the two returns
`Ok`, and from then on no step of the other changes the file.
-/

namespace Mobfs

open Lib Std

inductive Caller where
  | first
  | second
  deriving DecidableEq, Repr

def Caller.other : Caller → Caller
  | .first => .second
  | .second => .first

theorem Caller.eq_or_eq_other (i j : Caller) : j = i ∨ j = i.other := by
  cases i <;> cases j <;> decide

theorem Caller.other_ne (i : Caller) : i.other ≠ i := by
  cases i <;> decide

theorem Caller.other_other (i : Caller) : i.other.other = i := by
  cases i <;> rfl

namespace Exclusive

/-- A request on its way, by the next call of its handler. -/
inductive Request where
  | truncate
  | setLen
  | setMode (mode : Nat)
  deriving DecidableEq, Repr

/-- What a `create` does next. -/
inductive Stage where
  | start
  | listing
  /-- A `Stat` is on its way. -/
  | asking
  | told (found : Option EntryMeta)
  /-- `mutate`. A `Truncate` has been carried out or not. -/
  | acting (truncated : Bool)
  | caching
  | returned (result : Except Errno Unit)
  deriving DecidableEq

/-- The entry at the path on the remote and in the tables of the mounts, and the two
calls with their requests. -/
structure Creates where
  file : Option (Bytes × Nat)
  sidecars : Nat → Option (Bytes × Nat)
  caches : Nat → Caches EntryMeta
  stage : Caller → Stage
  requests : Caller → List Request

inductive CreateAct where
  /-- The tests on the path, and the look into `metas`. -/
  | begin (i : Caller)
  | list (i : Caller) (k : CacheClock)
  /-- The daemon answers the `Stat`. -/
  | stat (i : Caller) (clock : Int)
  | stated (i : Caller) (pendingWrite : Bool)
  /-- The `Stat`, the journal or the mutation fails. -/
  | fails (i : Caller) (e : Errno)
  | send (i : Caller) (r : Request)
  /-- The next call for a request. -/
  | handle (i : Caller) (n : Nat)
  /-- A request is lost, refused, or answered because of its marker. -/
  | drop (i : Caller) (n : Nat)
  | mutated (i : Caller)
  /-- `recover_journal` ends well although no `Truncate` of the replay was answered with `Ok`: it
  was rejected, or its record is missing or cannot be read. -/
  | rejected (i : Caller)
  | cache (i : Caller) (clock : Int)
  /-- The caller writes to the file it has created. -/
  | write (i : Caller) (offset : Nat) (data : Bytes)
  /-- Other calls of a mount, and its feed thread. -/
  | others (m : Nat) (caches : Caches EntryMeta)

def CreateAct.caller : CreateAct → Option Caller
  | .begin i | .list i _ | .stat i _ | .stated i _ | .fails i _ | .send i _ | .handle i _ | .drop i _ | .mutated i
  | .rejected i | .cache i _ | .write i _ _ => some i
  | .others _ _ => none

def Creates.goOn (s : Creates) (i : Caller) (st : Stage) : Creates :=
  { s with stage := Function.update s.stage i st }

def Creates.setRequests (s : Creates) (i : Caller) (rs : List Request) : Creates :=
  { s with requests := Function.update s.requests i rs }

def Creates.setCaches (s : Creates) (m : Nat) (c : Caches EntryMeta) : Creates :=
  { s with caches := Function.update s.caches m c }

/-- What a request may be sent for: the `Truncate` always, the mode only once it has
been carried out. -/
def sendable (truncated : Bool) : Request → Bool
  | .truncate => true
  | .setLen => false
  | .setMode _ => truncated

/-- The next call of a handler: the file, and what is left of the request. A new file
has the mode `umask`. -/
def call (umask : Nat) (file : Option (Bytes × Nat)) : Request → Option (Bytes × Nat) × List Request
  | .truncate => (some (file.getD ([], umask)), [.setLen])
  | .setLen => (file.map fun f => ([], f.2), [])
  | .setMode mode => (file.map fun f => (f.1, mode), [])

section System
variable (mount : Caller → Nat) (ignore : List String) (path : String) (mode umask : Nat)

/-- The entry of the path that a call creates and writes. -/
def Creates.entry (s : Creates) (i : Caller) : Option (Bytes × Nat) :=
  if isSidecar path then s.sidecars (mount i) else s.file

def step (s : Creates) : CreateAct → Option Creates
  | .begin i =>
    match s.stage i with
    | .start =>
      if isSidecar path then
        match s.sidecars (mount i) with
        | some _ => some (s.goOn i (.returned (.error .eexist)))
        | none =>
          some ({ s with sidecars := Function.update s.sidecars (mount i) (some ([], mode)) }.goOn i (.returned (.ok ())))
      else if shouldIgnoreRel ignore path then some (s.goOn i (.returned (.error .eacces)))
      else if (s.caches (mount i)).metas[path]?.isSome then some (s.goOn i (.returned (.error .eexist)))
      else some (s.goOn i .listing)
    | _ => none
  | .list i k =>
    match s.stage i with
    | .listing =>
      let (parent, name) := splitParent path
      some (s.goOn i (if (s.caches (mount i)).knownAbsent k parent name then .acting false else .asking))
    | _ => none
  | .stat i clock =>
    match s.stage i with
    | .asking => some (s.goOn i (.told (s.file.map fun f => fileMeta f.1.length f.2 clock)))
    | _ => none
  | .stated i pendingWrite =>
    match s.stage i with
    | .told (some m) =>
      let c := s.caches (mount i)
      some ((s.setCaches (mount i) (if pendingWrite then c else c.setMeta path m)).goOn i (.returned (.error .eexist)))
    | .told none => some ((s.setCaches (mount i) ((s.caches (mount i)).forget path)).goOn i (.acting false))
    | _ => none
  | .fails i e =>
    match s.stage i with
    | .asking | .told _ | .acting _ => some (s.goOn i (.returned (.error e)))
    | _ => none
  | .send i r =>
    match s.stage i with
    | .acting truncated => if sendable truncated r then some (s.setRequests i (s.requests i ++ [r])) else none
    | _ => none
  | .handle i n =>
    match (s.requests i)[n]? with
    | some r =>
      let s' := { s with file := (call umask s.file r).1 }.setRequests i ((s.requests i).eraseIdx n ++ (call umask s.file r).2)
      match s.stage i, r with
      | .acting _, .setLen => some (s'.goOn i (.acting true))
      | _, _ => some s'
    | none => none
  | .drop i n => if n < (s.requests i).length then some (s.setRequests i ((s.requests i).eraseIdx n)) else none
  | .mutated i =>
    match s.stage i with
    | .acting true => some (s.goOn i .caching)
    | _ => none
  | .rejected i =>
    match s.stage i with
    | .acting _ => some (s.goOn i .caching)
    | _ => none
  | .cache i clock =>
    match s.stage i with
    | .caching =>
      let m := fileMeta 0 mode clock
      some ((s.setCaches (mount i) (((s.caches (mount i)).setMeta path m).dirUpsert path m)).goOn i (.returned (.ok ())))
    | _ => none
  | .write i offset data =>
    match s.stage i with
    | .returned (.ok _) =>
      if isSidecar path then
        let stored := (s.sidecars (mount i)).map fun f => (putBytes f.1 offset data, f.2)
        some { s with sidecars := Function.update s.sidecars (mount i) stored }
      else some { s with file := s.file.map fun f => (writeAt 0 f.1 offset data, f.2) }
    | _ => none
  | .others m caches => some (s.setCaches m caches)

/-! ## When creation is exclusive -/

/-- The call has found no file, and has not yet returned with an error. -/
def Stage.past : Stage → Bool
  | .told none | .acting _ | .caching | .returned (.ok _) => true
  | _ => false

def Stage.ended : Stage → Bool
  | .caching | .returned (.ok _) => true
  | _ => false

/-- The mutation of the call is not under way, and none of its requests is. -/
def Creates.quiet (s : Creates) (i : Caller) : Bool :=
  (!(s.stage i).past || (s.stage i).ended) && (s.requests i).isEmpty

def Stage.failed : Stage → Bool
  | .returned (.error _) => true
  | _ => false

/-- Whenever a call finds no file: the other is not between its own test and the end of
its mutation, and none of its requests is on its way; if it has found none in a listing,
there is none, unless the other has failed. No `Truncate` of a replay is rejected, and
sidecars are created in one mount only. -/
def ExclusiveGuard (s : Creates) : CreateAct → Bool
  | .begin _ => !isSidecar path || decide (mount .first = mount .second)
  | .list i k =>
    !(s.caches (mount i)).knownAbsent k (splitParent path).1 (splitParent path).2 ||
      (s.quiet i.other && (s.file.isNone || (s.stage i.other).failed))
  | .stat i _ => s.file.isSome || s.quiet i.other
  | .rejected _ => false
  | _ => true

/-- No call has begun, and there is no file. -/
structure Start (s : Creates) : Prop where
  file : s.file = none
  stage : ∀ i, s.stage i = .start
  requests : ∀ i, s.requests i = []

/-- A call that is past its test keeps the other from being so. -/
structure Inv (s : Creates) : Prop where
  alone : ∀ i, (s.stage i).past = true → (s.stage i.other).past = false ∧ s.requests i.other = []
  made : isSidecar path = false → ∀ i, (s.stage i).ended = true ∨ s.stage i = .acting true → s.file ≠ none
  opened : ∀ i, .setLen ∈ s.requests i → s.file ≠ none
  sidecar : isSidecar path = true → ∀ i, s.requests i = [] ∧
    (s.stage i = .start ∨ (∃ e, s.stage i = .returned (.error e)) ∨
      (s.stage i = .returned (.ok ()) ∧ s.sidecars (mount i) ≠ none))

variable {mount ignore path mode umask} {s s' : Creates} {i : Caller}

/-- Only a call for another path than that of a sidecar goes on after its first step. -/
theorem Inv.plain (h : Inv mount path s) (hs : s.requests i ≠ [] ∨ (s.stage i ≠ .start ∧ ∀ r, s.stage i ≠ .returned r)) :
    isSidecar path = false := by
  by_contra hp
  obtain ⟨hreq, hst⟩ := h.sidecar (by simpa using hp) i
  rcases hs with hs | ⟨hs, hr⟩
  · exact hs hreq
  · rcases hst with hst | ⟨e, hst⟩ | ⟨hst, -⟩
    · exact hs hst
    · exact hr _ hst
    · exact hr _ hst

/-- A step of one call, of a path that is no sidecar's. -/
theorem Inv.turn (h : Inv mount path s) (hp : isSidecar path = false) {st : Stage} {rs : List Request}
    (hst : s'.stage = Function.update s.stage i st) (hrs : s'.requests = Function.update s.requests i rs)
    (hpast : st.past = true → (s.stage i).past = true ∨ ((s.stage i.other).past = false ∧ s.requests i.other = []))
    (hsent : rs = [] ∨ (s.stage i.other).past = false) (hfile : s.file ≠ none → s'.file ≠ none)
    (hmade : st.ended = true ∨ st = .acting true → s'.file ≠ none) (hopen : .setLen ∈ rs → s'.file ≠ none) :
    Inv mount path s' := by
  have hne := i.other_ne
  refine ⟨fun j hj => ?_, fun _ j hj => ?_, fun j hj => ?_, fun hp' => by simp [hp] at hp'⟩
  · rcases i.eq_or_eq_other j with rfl | rfl
    · rw [hst, Function.update_self] at hj
      rw [hst, hrs, Function.update_of_ne hne, Function.update_of_ne hne]
      rcases hpast hj with hj | hj
      · exact h.alone j hj
      · exact hj
    · rw [hst, Function.update_of_ne hne] at hj
      rw [hst, hrs, Caller.other_other, Function.update_self, Function.update_self]
      obtain ⟨hi, -⟩ := h.alone _ hj
      rw [Caller.other_other] at hi
      refine ⟨?_, hsent.resolve_right (by simp [hj])⟩
      by_contra hpst
      rcases hpast (by simpa using hpst) with hi' | hi'
      · simp [hi] at hi'
      · simp [hj] at hi'
  · rw [hst] at hj
    by_cases hji : j = i
    · subst hji
      rw [Function.update_self] at hj
      exact hmade hj
    · rw [Function.update_of_ne hji] at hj
      exact hfile (h.made hp j hj)
  · rw [hrs] at hj
    by_cases hji : j = i
    · subst hji
      rw [Function.update_self] at hj
      exact hopen hj
    · rw [Function.update_of_ne hji] at hj
      exact hfile (h.opened j hj)

theorem call_ne_none {file : Option (Bytes × Nat)} (r : Request) (h : file ≠ none) : (call umask file r).1 ≠ none := by
  cases r <;> simp [call, h]

theorem Inv.sent (h : Inv mount path s) (i : Caller) : s.requests i = [] ∨ (s.stage i.other).past = false := by
  cases hp : (s.stage i.other).past with
  | false => exact .inr rfl
  | true =>
    have hi := (h.alone _ hp).2
    rw [Caller.other_other] at hi
    exact .inl hi

/-- A step of one call that sends nothing and leaves the file alone. -/
theorem Inv.goOn (h : Inv mount path s) (hp : isSidecar path = false) {st : Stage}
    (hst : s'.stage = Function.update s.stage i st) (hrs : s'.requests = s.requests) (hf : s'.file = s.file)
    (hpast : st.past = true → (s.stage i).past = true ∨ ((s.stage i.other).past = false ∧ s.requests i.other = []))
    (hmade : st.ended = true ∨ st = .acting true → s.file ≠ none) : Inv mount path s' := by
  have hrs : s'.requests = Function.update s.requests i (s.requests i) := by rw [hrs, Function.update_eq_self]
  exact h.turn hp hst hrs hpast (h.sent i) (fun hne => hf ▸ hne) (fun hd => hf ▸ hmade hd) fun hm => hf ▸ h.opened i hm

/-- A call that is past its test and no further finds the other as the guard wants it. -/
theorem Inv.others (h : Inv mount path s) (hp : isSidecar path = false) (hq : s.quiet i.other = true)
    (hf : s.file = none ∨ (s.stage i.other).failed = true) :
    (s.stage i.other).past = false ∧ s.requests i.other = [] := by
  simp only [Creates.quiet, Bool.and_eq_true, Bool.or_eq_true, Bool.not_eq_true', List.isEmpty_iff] at hq
  refine ⟨?_, hq.2⟩
  rcases hq.1 with hq | hq
  · exact hq
  · rcases hf with hf | hf
    · exact absurd hf (h.made hp _ (.inl hq))
    · cases hst : s.stage i.other <;> simp [hst, Stage.failed, Stage.ended] at hf hq
      rename_i r
      cases r <;> simp at hf hq

theorem inv_begin (h : Inv mount path s) (hg : ExclusiveGuard mount path s (.begin i) = true)
    (hs : step mount ignore path mode umask s (.begin i) = some s') : Inv mount path s' := by
  simp only [step] at hs
  split at hs
  · rename_i hst
    split at hs
    · rename_i hp
      have hm : mount i.other = mount i := by
        have hm : mount .first = mount .second := by simpa [ExclusiveGuard, hp] using hg
        cases i
        · exact hm.symm
        · exact hm
      have hsame : ∀ j, mount j = mount i := fun j => by
        rcases i.eq_or_eq_other j with rfl | rfl
        · rfl
        · exact hm
      have hreq := fun j => (h.sidecar hp j).1
      split at hs
      · cases hs
        refine ⟨fun j hj => ?_, fun hp' => by simp [hp] at hp', h.opened, fun _ j => ⟨hreq j, ?_⟩⟩
        · rcases i.eq_or_eq_other j with rfl | rfl
          · simp [Creates.goOn, Stage.past] at hj
          · rw [Caller.other_other]
            exact ⟨by simp [Creates.goOn, Stage.past], hreq i⟩
        · by_cases hji : j = i
          · subst hji
            exact .inr (.inl ⟨.eexist, by simp [Creates.goOn]⟩)
          · simpa [Creates.goOn, Function.update_of_ne hji] using (h.sidecar hp j).2
      · rename_i hnone
        cases hs
        -- The table is that of the other call, too, which has thus not created the file.
        have hother : (s.stage i.other).past = false := by
          rcases (h.sidecar hp i.other).2 with hst | ⟨e, hst⟩ | ⟨-, hne⟩
          · simp [hst, Stage.past]
          · simp [hst, Stage.past]
          · exact absurd hnone (hm ▸ hne)
        refine ⟨fun j hj => ?_, fun hp' => by simp [hp] at hp', h.opened, fun _ j => ⟨hreq j, ?_⟩⟩
        · rcases i.eq_or_eq_other j with rfl | rfl
          · exact ⟨by simpa [Creates.goOn, Function.update_of_ne j.other_ne] using hother, hreq _⟩
          · simp [Creates.goOn, Function.update_of_ne i.other_ne, hother] at hj
        · by_cases hji : j = i
          · subst hji
            exact .inr (.inr (by simp [Creates.goOn]))
          · rcases (h.sidecar hp j).2 with hst | hst | ⟨hst, -⟩
            · exact .inl (by simpa [Creates.goOn, Function.update_of_ne hji] using hst)
            · exact .inr (.inl (by simpa [Creates.goOn, Function.update_of_ne hji] using hst))
            · exact .inr (.inr (by simp [Creates.goOn, Function.update_of_ne hji, hst, hsame j]))
    · rename_i hp
      have hp : isSidecar path = false := by simpa using hp
      split at hs
      · cases hs
        exact h.goOn hp rfl rfl rfl (by simp [Stage.past]) (by simp [Stage.ended])
      · split at hs <;> cases hs <;> exact h.goOn hp rfl rfl rfl (by simp [Stage.past]) (by simp [Stage.ended])
  · cases hs

theorem inv_list {k : CacheClock} (h : Inv mount path s) (hg : ExclusiveGuard mount path s (.list i k) = true)
    (hs : step mount ignore path mode umask s (.list i k) = some s') : Inv mount path s' := by
  simp only [step] at hs
  split at hs
  · rename_i hst
    cases hs
    have hp := h.plain (i := i) (.inr (by simp [hst]))
    refine h.goOn hp rfl rfl rfl (fun hpast => .inr ?_) fun hd => ?_
    · split at hpast
      · rename_i habs
        simp only [ExclusiveGuard, habs, Bool.not_true, Bool.false_or, Bool.and_eq_true, Bool.or_eq_true,
          Option.isNone_iff_eq_none] at hg
        exact h.others hp hg.1 hg.2
      · simp [Stage.past] at hpast
    · split at hd <;> simp [Stage.ended] at hd
  · cases hs

theorem inv_stat {clock : Int} (h : Inv mount path s) (hg : ExclusiveGuard mount path s (.stat i clock) = true)
    (hs : step mount ignore path mode umask s (.stat i clock) = some s') : Inv mount path s' := by
  simp only [step] at hs
  split at hs
  · rename_i hst
    cases hs
    have hp := h.plain (i := i) (.inr (by simp [hst]))
    refine h.goOn hp rfl rfl rfl (fun hpast => .inr ?_) fun hd => by simp [Stage.ended] at hd
    cases hf : s.file with
    | none => exact h.others hp (by simpa [ExclusiveGuard, hf] using hg) (.inl hf)
    | some f => simp [hf, Stage.past] at hpast
  · cases hs

theorem inv_stated {pendingWrite : Bool} (h : Inv mount path s)
    (hs : step mount ignore path mode umask s (.stated i pendingWrite) = some s') : Inv mount path s' := by
  simp only [step] at hs
  split at hs
  · rename_i m hst
    cases hs
    exact h.goOn (h.plain (i := i) (.inr (by simp [hst]))) rfl rfl rfl (by simp [Stage.past]) (by simp [Stage.ended])
  · rename_i hst
    cases hs
    refine h.goOn (h.plain (i := i) (.inr (by simp [hst]))) rfl rfl rfl (fun _ => .inl ?_) (by simp [Stage.ended])
    rw [hst, Stage.past]
  · cases hs

theorem inv_fails {e : Errno} (h : Inv mount path s)
    (hs : step mount ignore path mode umask s (.fails i e) = some s') : Inv mount path s' := by
  have hend : s.stage i ≠ .start → (∀ r, s.stage i ≠ .returned r) →
      Inv mount path (s.goOn i (.returned (.error e))) := fun h₁ h₂ =>
    h.goOn (h.plain (.inr ⟨h₁, h₂⟩)) rfl rfl rfl (by simp [Stage.past]) (by simp [Stage.ended])
  simp only [step] at hs
  split at hs
  case h_4 => cases hs
  all_goals
    rename_i hst
    cases hs
    exact hend (by simp [hst]) (by simp [hst])

theorem inv_send {r : Request} (h : Inv mount path s)
    (hs : step mount ignore path mode umask s (.send i r) = some s') : Inv mount path s' := by
  have hkeep : s.stage = Function.update s.stage i (s.stage i) := (Function.update_eq_self i _).symm
  simp only [step] at hs
  split at hs
  · rename_i truncated hst
    split at hs
    · rename_i hsend
      cases hs
      have hp := h.plain (i := i) (.inr (by simp [hst]))
      have hpast : (s.stage i).past = true := by rw [hst, Stage.past]
      refine h.turn hp hkeep rfl (fun _ => .inl hpast) (.inr (h.alone i hpast).1) id (fun hd => h.made hp i hd) ?_
      intro hm
      rcases List.mem_append.1 hm with hm | hm
      · exact h.opened i hm
      · cases List.mem_singleton.1 hm
        cases hsend
    · cases hs
  · cases hs

theorem inv_handle {n : Nat} (h : Inv mount path s)
    (hs : step mount ignore path mode umask s (.handle i n) = some s') : Inv mount path s' := by
  have hkeep : s.stage = Function.update s.stage i (s.stage i) := (Function.update_eq_self i _).symm
  simp only [step] at hs
  split at hs
  · rename_i r hr
    have hne : s.requests i ≠ [] := fun he => by simp [he] at hr
    have hp := h.plain (.inl hne)
    have hother := (h.sent i).resolve_left hne
    have hfile : s.file ≠ none → (call umask s.file r).1 ≠ none := call_ne_none r
    have hopen : .setLen ∈ (s.requests i).eraseIdx n ++ (call umask s.file r).2 → (call umask s.file r).1 ≠ none := by
      intro hm
      rcases List.mem_append.1 hm with hm | hm
      · exact hfile (h.opened i (List.mem_of_mem_eraseIdx hm))
      · cases r <;> simp [call] at hm ⊢
    split at hs
    · rename_i truncated hst
      cases hs
      have hset := h.opened i (List.mem_of_getElem? hr)
      exact h.turn hp rfl rfl (fun _ => .inl (by rw [hst, Stage.past])) (.inr hother) hfile (fun _ => hfile hset) hopen
    · cases hs
      exact h.turn hp hkeep rfl .inl (.inr hother) hfile (fun hd => hfile (h.made hp i hd)) hopen
  · cases hs

theorem inv_drop {n : Nat} (h : Inv mount path s)
    (hs : step mount ignore path mode umask s (.drop i n) = some s') : Inv mount path s' := by
  have hkeep : s.stage = Function.update s.stage i (s.stage i) := (Function.update_eq_self i _).symm
  simp only [step] at hs
  split at hs
  · rename_i hlt
    cases hs
    have hne : s.requests i ≠ [] := fun he => by simp [he] at hlt
    have hp := h.plain (.inl hne)
    exact h.turn hp hkeep rfl (fun hpast => .inl hpast)
      (.inr ((h.sent i).resolve_left hne)) id (fun hd => h.made hp i hd) fun hm => h.opened i (List.mem_of_mem_eraseIdx hm)
  · cases hs

theorem inv_mutated (h : Inv mount path s)
    (hs : step mount ignore path mode umask s (.mutated i) = some s') : Inv mount path s' := by
  simp only [step] at hs
  split at hs
  · rename_i hst
    cases hs
    have hp := h.plain (i := i) (.inr (by simp [hst]))
    exact h.goOn hp rfl rfl rfl (fun _ => .inl (by rw [hst, Stage.past])) fun _ => h.made hp i (.inr hst)
  · cases hs

theorem inv_cache {clock : Int} (h : Inv mount path s)
    (hs : step mount ignore path mode umask s (.cache i clock) = some s') : Inv mount path s' := by
  simp only [step] at hs
  split at hs
  · rename_i hst
    cases hs
    have hp := h.plain (i := i) (.inr (by simp [hst]))
    exact h.goOn hp rfl rfl rfl (fun _ => .inl (by rw [hst, Stage.past])) fun _ =>
      h.made hp i (.inl (by rw [hst, Stage.ended]))
  · cases hs

theorem inv_write {offset : Nat} {data : Bytes} (h : Inv mount path s)
    (hs : step mount ignore path mode umask s (.write i offset data) = some s') : Inv mount path s' := by
  simp only [step] at hs
  split at hs
  · split at hs
    · rename_i hp
      cases hs
      refine ⟨h.alone, fun hp' => by simp [hp] at hp', h.opened, fun _ j => ⟨(h.sidecar hp j).1, ?_⟩⟩
      rcases (h.sidecar hp j).2 with hst | hst | ⟨hst, hne⟩
      · exact .inl hst
      · exact .inr (.inl hst)
      · refine .inr (.inr ⟨hst, ?_⟩)
        by_cases hm : mount j = mount i
        · simpa [hm] using hne
        · simpa [Function.update_of_ne hm] using hne
    · cases hs
      exact ⟨h.alone, fun hp' j hj => by simpa using h.made hp' j hj, fun j hj => by simpa using h.opened j hj, h.sidecar⟩
  · cases hs

theorem step_inv {a : CreateAct} (h : Inv mount path s) (hg : ExclusiveGuard mount path s a = true)
    (hs : step mount ignore path mode umask s a = some s') : Inv mount path s' := by
  cases a with
  | begin i => exact inv_begin h hg hs
  | list i k => exact inv_list h hg hs
  | stat i clock => exact inv_stat h hg hs
  | stated i pendingWrite => exact inv_stated h hs
  | fails i e => exact inv_fails h hs
  | send i r => exact inv_send h hs
  | handle i n => exact inv_handle h hs
  | drop i n => exact inv_drop h hs
  | mutated i => exact inv_mutated h hs
  | rejected i => cases hg
  | cache i clock => exact inv_cache h hs
  | write i offset data => exact inv_write h hs
  | others m caches =>
    cases hs
    exact ⟨h.alone, h.made, h.opened, h.sidecar⟩

/-- What the calls of the other do to the entry once a call has returned `Ok`. -/
theorem Inv.entry_kept (h : Inv mount path s) (hi : s.stage i = .returned (.ok ())) {a : CreateAct}
    (ha : a.caller = some i.other) (hs : step mount ignore path mode umask s a = some s') :
    s'.entry mount path i = s.entry mount path i := by
  obtain ⟨hpast, hreq⟩ := h.alone i (by rw [hi, Stage.past])
  have hne : ∀ r, s.stage i.other ≠ .returned (.ok r) := fun r hst => by simp [hst, Stage.past] at hpast
  cases a <;> simp only [CreateAct.caller, Option.some.injEq, reduceCtorEq] at ha <;> subst ha
  case begin =>
    simp only [step] at hs
    split at hs
    · split at hs
      · rename_i hp
        split at hs
        · cases hs
          rfl
        · rename_i hnone
          cases hs
          rcases (h.sidecar hp i).2 with hst | ⟨e, hst⟩ | ⟨-, hside⟩
          · rw [hi] at hst
            cases hst
          · rw [hi] at hst
            cases hst
          · have hm : mount i ≠ mount i.other := fun hm => hside (hm ▸ hnone)
            simp [Creates.entry, Creates.goOn, hp, Function.update_of_ne hm]
      · split at hs
        · cases hs
          rfl
        · split at hs <;> cases hs <;> rfl
    · cases hs
  case write => simp [step] at hs
  case handle => simp [step, hreq] at hs
  all_goals
    simp only [step] at hs
    split at hs
  all_goals first
    | cases hs
      rfl
    | cases hs
    | (split at hs <;> cases hs
       rfl)

theorem Start.inv (h : Start s) : Inv mount path s where
  alone i hi := by simp [h.stage, Stage.past] at hi
  made _ i hi := by simp [h.stage, Stage.ended] at hi
  opened i hi := by simp [h.requests] at hi
  sidecar _ i := ⟨h.requests i, .inl (h.stage i)⟩

/-- At most one of the two calls returns `Ok`, and no later step of the other changes
what it has created and written. -/
theorem create_exclusive {acts : List CreateAct} (h0 : Start s)
    (hg : Guarded (step mount ignore path mode umask) (fun s a => ExclusiveGuard mount path s a = true) s acts)
    (hr : exec (step mount ignore path mode umask) s acts = some s') :
    ∀ i, s'.stage i = .returned (.ok ()) →
      s'.stage i.other ≠ .returned (.ok ()) ∧
      ∀ a t, a.caller = some i.other → step mount ignore path mode umask s' a = some t →
        t.entry mount path i = s'.entry mount path i := by
  intro i hi
  have h := exec_guarded_inv (Inv mount path) (fun _ _ _ => step_inv) h0.inv hg hr
  refine ⟨fun hj => ?_, fun a t ha ht => h.entry_kept hi ha ht⟩
  have hpast := (h.alone i (by rw [hi, Stage.past])).1
  simp [hj, Stage.past] at hpast

end System

/-! ## Two locks -/

/-- Two calls for a path that no table knows. -/
def fresh : Creates :=
  ⟨none, fun _ => none, fun _ => .empty, fun _ => .start, fun _ => []⟩

def looks (i : Caller) : List CreateAct := [.begin i, .list i ⟨1, false, 0⟩, .stat i 0, .stated i false]

def makes (i : Caller) : List CreateAct :=
  [.send i .truncate, .handle i 0, .handle i 0, .send i (.setMode 0o600), .handle i 0, .mutated i, .cache i 0]

/-- Each is called from its own mount. -/
def twoMounts : Caller → Nat
  | .first => 0
  | .second => 1

/-- The second begins when the first has returned, and is refused. -/
theorem create_exclusive_lock :
    ∃ s, exec (step twoMounts [] "index.lock" 0o600 0o644) fresh (looks .first ++ makes .first ++ looks .second) = some s ∧
      s.stage .first = .returned (.ok ()) ∧ s.stage .second ≠ .returned (.ok ()) := by
  have hrun : (exec (step twoMounts [] "index.lock" 0o600 0o644) fresh (looks .first ++ makes .first ++ looks .second)).any
      (fun s => s.stage .first = .returned (.ok ())) = true := by
    decide
  obtain ⟨s, hs, hok⟩ := (Option.any_eq_true _ _).1 hrun
  have hok : s.stage .first = .returned (.ok ()) := by simpa using hok
  exact ⟨s, hs, hok, (create_exclusive ⟨rfl, fun _ => rfl, fun _ => rfl⟩
    (guarded_of_checkRun (fun _ => True) (fun _ => True) (ExclusiveGuard twoMounts "index.lock") (fun _ _ _ _ _ _ => trivial)
      (fun _ _ _ _ h => h) trivial (fun _ _ => trivial) (by decide)) hs .first hok).1⟩

/-- Both look before either has made the file. The first writes, the second truncates, and
both return `Ok`. -/
theorem both_create :
    ∃ s s' : Creates, Start fresh ∧
      exec (step twoMounts [] "index.lock" 0o600 0o644) fresh
        (looks .first ++ looks .second ++ makes .first ++ [.write .first 0 [1]]) = some s ∧
      s.stage .first = .returned (.ok ()) ∧ s.file = some ([1], 0o600) ∧
      exec (step twoMounts [] "index.lock" 0o600 0o644) s (makes .second) = some s' ∧
      s'.stage .first = .returned (.ok ()) ∧ s'.stage .second = .returned (.ok ()) ∧ s'.file = some ([], 0o600) :=
  ⟨_, _, ⟨rfl, fun _ => rfl, fun _ => rfl⟩, rfl, rfl, rfl, rfl, rfl, rfl, rfl⟩

end Exclusive

end Mobfs
