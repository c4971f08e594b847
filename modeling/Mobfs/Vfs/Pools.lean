import Mathlib.Data.Finset.Card
import Mobfs.Lib.Runs
/-!
# Connections and workers

A call of `ClientPool::with` tries the slots of the pool one after the other and takes the
first that is free. When all were taken it waits for one of them, which it picks by turns.
Every use of a connection goes through such a call, so no two threads are ever on one.

A thread that finds a slot taken goes on to the next. So however the calls overlap, at least
`k` threads of all that there are stand in front of slot `k`, and only those that are more
than the slots may have to wait. The workers of a `WorkerPool` with as many connections as
workers never do.
-/

namespace Mobfs

open Lib

/-- A call of `ClientPool::with`. -/
inductive PoolCall where
  | idle
  /-- Next it tries the lock of that slot. -/
  | trying (i : Nat)
  /-- All slots were taken, and it is blocked on the lock of that one. -/
  | waiting (i : Nat)
  /-- It has the lock of that slot, where a client may have to be connected first. -/
  | locked (i : Nat)
  /-- The action has the client of that slot. -/
  | acting (i : Nat)
  deriving DecidableEq

/-- `slots`: who has the lock. `connected`: the slots with a client. -/
structure ClientPool where
  size : Nat
  slots : Nat → Option Nat
  connected : Nat → Bool
  next : Nat
  calls : Nat → PoolCall

inductive PoolAct where
  | call (t : Nat)
  /-- The thread goes on. `ok`: connecting succeeds, where it connects. -/
  | run (t : Nat) (ok : Bool)

/-- The call stands at that slot or behind it. -/
def PoolCall.behind (k : Nat) : PoolCall → Bool
  | .idle => false
  | .trying i | .locked i | .acting i => k ≤ i
  | .waiting _ => true

/-- The call has that slot. -/
def PoolCall.has (i : Nat) : PoolCall → Bool
  | .locked j | .acting j => j = i
  | _ => false

def PoolCall.isWaiting : PoolCall → Bool
  | .waiting _ => true
  | _ => false

/-- The steps that the call has still to take. -/
def PoolCall.left (size : Nat) : PoolCall → Nat
  | .idle => 0
  | .trying i => size - i + 4
  | .waiting _ => 3
  | .locked _ => 2
  | .acting _ => 1

def PoolAct.isCall (t : Nat) : PoolAct → Bool
  | .call u => u = t
  | _ => false

def PoolAct.isRun (t : Nat) : PoolAct → Bool
  | .run u _ => u = t
  | _ => false

namespace ClientPool

def new (size : Nat) : ClientPool := ⟨max size 1, fun _ => none, fun _ => false, 0, fun _ => .idle⟩

def goOn (s : ClientPool) (t : Nat) (c : PoolCall) : ClientPool := { s with calls := Function.update s.calls t c }

/-- The lock is taken. -/
def take (s : ClientPool) (t i : Nat) : ClientPool :=
  { s.goOn t (.locked i) with slots := Function.update s.slots i (some t) }

/-- `use_slot` returns. -/
def release (s : ClientPool) (t i : Nat) : ClientPool :=
  { s.goOn t .idle with slots := Function.update s.slots i none }

def step (s : ClientPool) : PoolAct → Option ClientPool
  | .call t =>
    match s.calls t with
    | .idle => some (s.goOn t (.trying 0))
    | _ => none
  | .run t ok =>
    match s.calls t with
    | .idle => none
    | .trying i =>
      if i < s.size then
        match s.slots i with
        | none => some (s.take t i)
        | some _ => some (s.goOn t (.trying (i + 1)))
      else some { s.goOn t (.waiting (s.next % s.size)) with next := s.next + 1 }
    | .waiting i =>
      match s.slots i with
      | none => some (s.take t i)
      | some _ => none
    | .locked i =>
      if s.connected i || ok then
        some { s.goOn t (.acting i) with connected := Function.update s.connected i true }
      else some (s.release t i)
    | .acting i => some (s.release t i)

variable {s s' : ClientPool} {T : Finset Nat} {t : Nat} {a : PoolAct}

/-- The calls at that slot or behind it. -/
def behind (T : Finset Nat) (s : ClientPool) (k : Nat) : Finset Nat := T.filter fun t => (s.calls t).behind k = true

/-- The locks are with those that have taken them, and a thread less is behind each slot
than behind the one before. -/
structure PoolInv (T : Finset Nat) (s : ClientPool) : Prop where
  pos : 0 < s.size
  held : ∀ i t, s.slots i = some t ↔ (s.calls t).has i = true
  within : ∀ t, s.calls t ≠ .idle → t ∈ T
  inside : ∀ t i, s.calls t = .trying i → i ≤ s.size
  fewer : ∀ k, k ≤ s.size → (behind T s k).card ≤ T.card - k

/-- What one step of a thread does to its call. -/
inductive Moves (s : ClientPool) (t : Nat) : ClientPool → Prop where
  | next (i : Nat) (u : Nat) (hc : s.calls t = .trying i) (hi : i < s.size) (hu : s.slots i = some u) :
      Moves s t (s.goOn t (.trying (i + 1)))
  | waits (i n : Nat) (hc : s.calls t = .trying i) (hi : i = s.size) :
      Moves s t { s.goOn t (.waiting (s.next % s.size)) with next := n }
  | takes (i : Nat) (hc : s.calls t = .trying i ∨ s.calls t = .waiting i) (hu : s.slots i = none) : Moves s t (s.take t i)
  | acts (i : Nat) (hc : s.calls t = .locked i) :
      Moves s t { s.goOn t (.acting i) with connected := Function.update s.connected i true }
  | releases (i : Nat) (hc : s.calls t = .locked i ∨ s.calls t = .acting i) : Moves s t (s.release t i)

theorem PoolInv.moves (hi : PoolInv T s) {ok : Bool} (h : s.step (.run t ok) = some s') : Moves s t s' := by
  simp only [ClientPool.step] at h
  split at h
  · cases h
  · rename_i i hc
    split at h
    · split at h
      · cases h
        exact .takes i (.inl hc) ‹_›
      · cases h
        exact .next i _ hc ‹_› ‹_›
    · cases h
      have := hi.inside t i hc
      exact .waits i _ hc (by omega)
  · rename_i i hc
    split at h
    · cases h
      exact .takes i (.inr hc) ‹_›
    · cases h
  · rename_i i hc
    split at h
    · cases h
      exact .acts i hc
    · cases h
      exact .releases i (.inl hc)
  · rename_i i hc
    cases h
    exact .releases i (.inr hc)

theorem has_iff {i : Nat} {c : PoolCall} : c.has i = true ↔ c = .locked i ∨ c = .acting i := by
  cases c <;> simp [PoolCall.has]

theorem behind_of_le {k j : Nat} {c : PoolCall} (hk : k ≤ j) (h : c.behind j = true) : c.behind k = true := by
  cases c <;> simp only [PoolCall.behind, decide_eq_true_eq, Bool.false_eq_true] at h ⊢ <;> omega

/-- A call that does not go on to a slot further back. -/
theorem card_behind_le {k : Nat} (hle : ∀ u, (s'.calls u).behind k = true → (s.calls u).behind k = true) :
    (behind T s' k).card ≤ (behind T s k).card := by
  refine Finset.card_le_card fun u hu => ?_
  obtain ⟨hT, hb⟩ := Finset.mem_filter.1 hu
  exact Finset.mem_filter.2 ⟨hT, hle u hb⟩

/-- The thread that finds a slot taken leaves its holder behind. -/
theorem PoolInv.card_next {i u : Nat} (hi : PoolInv T s) (hc : s.calls t = .trying i) (hu : s.slots i = some u) :
    (behind T (s.goOn t (.trying (i + 1))) (i + 1)).card + 1 ≤ (behind T s i).card := by
  have hholds : s.calls u = .locked i ∨ s.calls u = .acting i := has_iff.1 ((hi.held i u).1 hu)
  have hne : t ≠ u := by
    rintro rfl
    rw [hc] at hholds
    rcases hholds with h | h <;> cases h
  have hsub : behind T (s.goOn t (.trying (i + 1))) (i + 1) ⊆ insert t (behind T s (i + 1)) := by
    intro v hv
    obtain ⟨hT, hb⟩ := Finset.mem_filter.1 hv
    by_cases hvt : v = t
    · exact Finset.mem_insert.2 (.inl hvt)
    · refine Finset.mem_insert.2 (.inr (Finset.mem_filter.2 ⟨hT, ?_⟩))
      have hb : (Function.update s.calls t (.trying (i + 1)) v).behind (i + 1) = true := hb
      rwa [Function.update_of_ne hvt] at hb
  have hboth : insert u (insert t (behind T s (i + 1))) ⊆ behind T s i := by
    intro v hv
    rcases Finset.mem_insert.1 hv with rfl | hv
    · refine Finset.mem_filter.2 ⟨hi.within v ?_, ?_⟩ <;> rcases hholds with h | h <;> simp [h, PoolCall.behind]
    · rcases Finset.mem_insert.1 hv with rfl | hv
      · exact Finset.mem_filter.2 ⟨hi.within v (by rw [hc]; simp), by simp [hc, PoolCall.behind]⟩
      · obtain ⟨hT, hb⟩ := Finset.mem_filter.1 hv
        exact Finset.mem_filter.2 ⟨hT, behind_of_le (Nat.le_succ i) hb⟩
  have hnot : u ∉ insert t (behind T s (i + 1)) := by
    intro hm
    rcases Finset.mem_insert.1 hm with rfl | hm
    · exact hne rfl
    · have hb := (Finset.mem_filter.1 hm).2
      rcases hholds with h | h <;> simp only [h, PoolCall.behind, decide_eq_true_eq] at hb <;> omega
  have hcard := Finset.card_le_card hboth
  rw [Finset.card_insert_of_notMem hnot] at hcard
  have := Finset.card_le_card hsub
  omega

/-- A call goes on. -/
theorem PoolInv.goOn {c : PoolCall} {slots : Nat → Option Nat} {connected : Nat → Bool} {next : Nat} (hi : PoolInv T s)
    (ht : t ∈ T) (hself : ∀ i, slots i = some t ↔ c.has i = true)
    (hother : ∀ i u, u ≠ t → (slots i = some u ↔ s.slots i = some u)) (hin : ∀ i, c = .trying i → i ≤ s.size)
    (hfewer : ∀ k, k ≤ s.size → (behind T (s.goOn t c) k).card ≤ T.card - k) :
    PoolInv T { s.goOn t c with slots, connected, next } := by
  have hcalls : ∀ u, u ≠ t → Function.update s.calls t c u = s.calls u := fun u hut => Function.update_of_ne hut _ _
  refine ⟨hi.pos, fun i u => ?_, fun u hu => ?_, fun u i hu => ?_, hfewer⟩
  · show slots i = some u ↔ (Function.update s.calls t c u).has i = true
    by_cases hut : u = t
    · subst hut
      rw [Function.update_self]
      exact hself i
    · rw [hcalls u hut, hother i u hut]
      exact hi.held i u
  · by_cases hut : u = t
    · exact hut ▸ ht
    · exact hi.within u ((hcalls u hut) ▸ hu)
  · have hu : Function.update s.calls t c u = .trying i := hu
    by_cases hut : u = t
    · subst hut
      rw [Function.update_self] at hu
      exact hin i hu
    · rw [hcalls u hut] at hu
      exact hi.inside u i hu

/-- Of a call that keeps what it has. -/
theorem PoolInv.same {c : PoolCall} {connected : Nat → Bool} {next : Nat} (hi : PoolInv T s) (ht : t ∈ T)
    (hhas : ∀ i, c.has i = (s.calls t).has i) (hin : ∀ i, c = .trying i → i ≤ s.size)
    (hfewer : ∀ k, k ≤ s.size → (behind T (s.goOn t c) k).card ≤ T.card - k) :
    PoolInv T { s.goOn t c with connected, next } :=
  hi.goOn ht (fun i => by rw [hhas]; exact hi.held i t) (fun _ _ _ => .rfl) hin hfewer

/-- Of a call that does not go on beyond that slot. -/
theorem PoolInv.nearer {c : PoolCall} {k : Nat} (hi : PoolInv T s) (hk : k ≤ s.size)
    (hc : c.behind k = true → (s.calls t).behind k = true) : (behind T (s.goOn t c) k).card ≤ T.card - k := by
  refine (card_behind_le fun v hv => ?_).trans (hi.fewer k hk)
  have hv : (Function.update s.calls t c v).behind k = true := hv
  by_cases h : v = t
  · subst h
    rw [Function.update_self] at hv
    exact hc hv
  · rwa [Function.update_of_ne h] at hv

theorem PoolInv.moved (hi : PoolInv T s) (h : Moves s t s') : PoolInv T s' := by
  have hwithin : ∀ {c}, s.calls t = c → c ≠ .idle → t ∈ T := fun hc hne => hi.within t (by rw [hc]; exact hne)
  cases h with
  | next i u hc hlt hu =>
    refine hi.same (hwithin hc (by simp)) (fun j => by rw [hc]; rfl) (fun j hj => by cases hj; omega) fun k hk => ?_
    by_cases hki : k = i + 1
    · subst hki
      have := hi.card_next hc hu
      have := hi.fewer i (by omega)
      omega
    · refine hi.nearer hk fun hb => ?_
      rw [hc]
      simp only [PoolCall.behind, decide_eq_true_eq] at hb ⊢
      omega
  | waits i n hc hend =>
    refine hi.same (hwithin hc (by simp)) (fun j => by rw [hc]; rfl) (fun j hj => by cases hj) fun k hk =>
      hi.nearer hk fun _ => ?_
    rw [hc]
    simp only [PoolCall.behind, decide_eq_true_eq]
    omega
  | takes i hc hu =>
    have hnone : ∀ j, s.slots j ≠ some t := by
      intro j hj
      have hh := (hi.held j t).1 hj
      rcases hc with hc | hc <;> rw [hc] at hh <;> cases hh
    have ht : t ∈ T := by
      rcases hc with hc | hc
      · exact hwithin hc (by simp)
      · exact hwithin hc (by simp)
    show PoolInv T { s.goOn t (.locked i) with
      slots := Function.update s.slots i (some t), connected := s.connected, next := s.next }
    refine hi.goOn ht (fun j => ?_) (fun j u hut => ?_) (fun j hj => by cases hj) fun k hk => hi.nearer hk fun hb => ?_
    · by_cases hj : j = i
      · subst hj
        simp [PoolCall.has]
      · rw [Function.update_of_ne hj]
        exact iff_of_false (hnone j) (by simp [PoolCall.has, Ne.symm hj])
    · by_cases hj : j = i
      · subst hj
        rw [Function.update_self, hu]
        exact iff_of_false (fun he => hut (Option.some.inj he).symm) (by simp)
      · rw [Function.update_of_ne hj]
    · rcases hc with hc | hc <;> rw [hc]
      · exact hb
      · rfl
  | acts i hc =>
    refine hi.same (hwithin hc (by simp)) (fun j => by rw [hc]; rfl) (fun j hj => by cases hj) fun k hk =>
      hi.nearer hk fun hb => ?_
    rw [hc]
    exact hb
  | releases i hc =>
    have hhas : ∀ j, (s.calls t).has j = true ↔ j = i := by
      intro j
      rcases hc with hc | hc <;> rw [hc] <;> simp [PoolCall.has, eq_comm]
    have ht : t ∈ T := by
      rcases hc with hc | hc
      · exact hwithin hc (by simp)
      · exact hwithin hc (by simp)
    have hi_t : s.slots i = some t := (hi.held i t).2 ((hhas i).2 rfl)
    show PoolInv T { s.goOn t .idle with slots := Function.update s.slots i none, connected := s.connected, next := s.next }
    refine hi.goOn ht (fun j => ?_) (fun j u hut => ?_) (fun j hj => by cases hj) fun k hk =>
      hi.nearer hk fun hb => by cases hb
    · by_cases hj : j = i
      · subst hj
        simp [PoolCall.has]
      · rw [Function.update_of_ne hj, hi.held j t, hhas j]
        exact iff_of_false hj (by simp [PoolCall.has])
    · by_cases hj : j = i
      · subst hj
        rw [Function.update_self, hi_t]
        exact iff_of_false (by simp) (fun he => hut (Option.some.inj he).symm)
      · rw [Function.update_of_ne hj]

theorem PoolInv.call (hi : PoolInv T s) (ht : t ∈ T) (h : s.step (.call t) = some s') : PoolInv T s' := by
  simp only [ClientPool.step] at h
  split at h
  · rename_i hc
    cases h
    refine hi.same ht (fun j => by rw [hc]; rfl) (fun j hj => by cases hj; exact Nat.zero_le _) fun k hk => ?_
    cases k with
    | zero => exact Finset.card_filter_le _ _
    | succ k => exact hi.nearer hk fun hb => by simp [PoolCall.behind] at hb
  · cases h

theorem poolInv_new (T : Finset Nat) (size : Nat) : PoolInv T (new size) := by
  refine ⟨Nat.lt_of_lt_of_le Nat.one_pos (Nat.le_max_right _ _), fun i t => ?_, fun t ht => absurd rfl ht, fun t i hc => ?_,
    fun k _ => ?_⟩
  · simp [new, PoolCall.has]
  · cases hc
  · simp [behind, new, PoolCall.behind]

/-! ## How long a call may take -/

/-- The steps that the call of a thread has still to take. -/
def left (s : ClientPool) (t : Nat) : Nat := (s.calls t).left s.size

theorem Moves.left (h : Moves s t s') : s'.left t + 1 ≤ s.left t := by
  cases h with
  | next i u hc hlt hu =>
    simp only [ClientPool.left, ClientPool.goOn, Function.update_self, hc, PoolCall.left]
    omega
  | waits i n hc hend =>
    simp only [ClientPool.left, ClientPool.goOn, Function.update_self, hc, PoolCall.left]
    omega
  | takes i hc hu =>
    simp only [ClientPool.left, ClientPool.take, ClientPool.goOn, Function.update_self]
    rcases hc with hc | hc <;> rw [hc] <;> simp only [PoolCall.left] <;> omega
  | acts i hc => simp [ClientPool.left, ClientPool.goOn, hc, PoolCall.left]
  | releases i hc =>
    rcases hc with hc | hc <;> simp [ClientPool.left, ClientPool.release, ClientPool.goOn, hc, PoolCall.left]

/-- A call goes on, unless it waits for a slot that a call has which does. -/
theorem goes_on (hi : PoolInv T s) (hc : s.calls t ≠ .idle) :
    (∀ ok, (s.step (.run t ok)).isSome = true) ∨
      ∃ i u, s.calls t = .waiting i ∧ (s.calls u).has i = true ∧ ∀ ok, (s.step (.run u ok)).isSome = true := by
  have hhas : ∀ {u i}, (s.calls u).has i = true → ∀ ok, (s.step (.run u ok)).isSome = true := by
    intro u i hu ok
    rcases has_iff.1 hu with hu | hu
    · simp only [ClientPool.step, hu]
      split <;> rfl
    · simp [ClientPool.step, hu]
  cases hct : s.calls t with
  | idle => exact absurd hct hc
  | trying i =>
    refine .inl fun ok => ?_
    simp only [ClientPool.step, hct]
    split
    · split <;> rfl
    · rfl
  | waiting i =>
    cases hs : s.slots i with
    | none => exact .inl fun ok => by simp [ClientPool.step, hct, hs]
    | some u => exact .inr ⟨i, u, rfl, (hi.held i u).1 hs, hhas ((hi.held i u).1 hs)⟩
  | locked i => exact .inl (hhas (i := i) (has_iff.2 (.inl hct)))
  | acting i => exact .inl (hhas (i := i) (has_iff.2 (.inr hct)))

theorem PoolInv.step (hi : PoolInv T s) (hT : ∀ u, a = .call u → u ∈ T) (h : s.step a = some s') : PoolInv T s' := by
  cases a with
  | call u => exact hi.call (hT u rfl) h
  | run u ok => exact hi.moved (hi.moves h)

theorem size_step (h : s.step a = some s') : s'.size = s.size := by
  cases a <;> simp only [ClientPool.step] at h <;> (repeat' split at h) <;> cases h <;> rfl

/-- The calls of other threads are as they were. -/
theorem Moves.other {u : Nat} (h : Moves s t s') (hu : u ≠ t) : s'.calls u = s.calls u := by
  cases h <;> exact Function.update_of_ne hu _ _

theorem left_step (hi : PoolInv T s) (h : s.step a = some s') :
    s'.left t + (if a.isRun t then 1 else 0) ≤ s.left t + (s.size + 4) * (if a.isCall t then 1 else 0) := by
  have hsize := size_step h
  cases a with
  | call u =>
    simp only [PoolAct.isRun, PoolAct.isCall, Bool.false_eq_true, if_false, decide_eq_true_eq]
    simp only [ClientPool.step] at h
    split at h
    · rename_i hc
      cases h
      by_cases hu : u = t
      · subst hu
        simp [ClientPool.left, ClientPool.goOn, PoolCall.left]
      · simp [ClientPool.left, ClientPool.goOn, Function.update_of_ne (Ne.symm hu), hu]
    · cases h
  | run u ok =>
    simp only [PoolAct.isRun, PoolAct.isCall, Bool.false_eq_true, if_false, decide_eq_true_eq]
    have hm := hi.moves h
    by_cases hu : u = t
    · subst hu
      have := hm.left
      simp only [if_true]
      omega
    · simp only [hu, if_false]
      simp only [ClientPool.left, hm.other (Ne.symm hu), hsize]
      omega

/-- The invariant, and the steps that a thread has taken and has still to take. -/
theorem exec_pool {s₀ : ClientPool} {as : List PoolAct} (h0 : PoolInv T s₀) (hT : ∀ u, .call u ∈ as → u ∈ T)
    (h : exec step s₀ as = some s) (t : Nat) :
    PoolInv T s ∧ s.size = s₀.size ∧
      as.countP (·.isRun t) + s.left t ≤ s₀.left t + (s₀.size + 4) * as.countP (·.isCall t) := by
  induction as generalizing s₀ with
  | nil =>
    cases h
    exact ⟨h0, rfl, by simp⟩
  | cons a as ih =>
    obtain ⟨s₁, h₁, h⟩ := exec_cons.1 h
    have hi := h0.step (fun u hu => hT u (hu ▸ List.mem_cons_self)) h₁
    obtain ⟨hinv, hsize, hcount⟩ := ih hi (fun u hu => hT u (List.mem_cons_of_mem _ hu)) h
    have hone := left_step (t := t) h0 h₁
    have hsz := size_step h₁
    refine ⟨hinv, hsize.trans hsz, ?_⟩
    rw [hsz] at hcount
    simp only [List.countP_cons, Nat.mul_add]
    omega

/-- In every order of the calls of any threads `T`: a connection is with one call at a time, no
more threads wait than there are beyond one for each slot, from where a thread has no call on
it takes at most `size + 4` steps for each it makes, and a call goes on or waits for one that
does. -/
theorem pool_serves (size : Nat) (T : Finset Nat) (acts : List PoolAct) (s : ClientPool) (hT : ∀ u, .call u ∈ acts → u ∈ T)
    (h : exec step (new size) acts = some s) :
    (∀ i t u, (s.calls t).has i = true → (s.calls u).has i = true → t = u) ∧
    (T.filter fun t => (s.calls t).isWaiting = true).card ≤ T.card - max size 1 ∧
    ∀ t, (s.calls t = .idle → ∀ more s', (∀ u, .call u ∈ more → u ∈ T) → exec step s more = some s' →
        more.countP (·.isRun t) ≤ (max size 1 + 4) * more.countP (·.isCall t)) ∧
      (s.calls t ≠ .idle → (∀ ok, (s.step (.run t ok)).isSome = true) ∨
        ∃ i u, s.calls t = .waiting i ∧ (s.calls u).has i = true ∧ ∀ ok, (s.step (.run u ok)).isSome = true) := by
  have hrun := fun t => exec_pool (poolInv_new T size) hT h t
  obtain ⟨hi, hsize, -⟩ := hrun 0
  refine ⟨fun i t u ht hu => ?_, ?_, fun t => ⟨fun hidle more s' hmore hs' => ?_, fun hc => goes_on hi hc⟩⟩
  · have ht := (hi.held i t).2 ht
    rw [(hi.held i u).2 hu] at ht
    exact (Option.some.inj ht).symm
  · refine (Finset.card_le_card fun t ht => ?_).trans (hsize ▸ hi.fewer s.size (Nat.le_refl _))
    obtain ⟨hm, hw⟩ := Finset.mem_filter.1 ht
    refine Finset.mem_filter.2 ⟨hm, ?_⟩
    cases hc : s.calls t <;> rw [hc] at hw <;> first | rfl | cases hw
  · obtain ⟨-, -, hcount⟩ := exec_pool hi hmore hs' t
    have hzero : s.left t = 0 := by rw [left, hidle, PoolCall.left]
    have hnew : s.size = max size 1 := hsize
    rw [hzero, hnew] at hcount
    omega

/-- Two calls for one slot. -/
def twoForOne : List PoolAct := [.call 1, .call 2, .run 1 true, .run 2 true, .run 2 true, .run 1 true]

theorem pool_serves_waiting : ∃ s, exec step (new 1) twoForOne = some s ∧ s.calls 2 = .waiting 0 ∧
    (({1, 2} : Finset Nat).filter fun t => (s.calls t).isWaiting = true).card ≤ 1 ∧
    ∃ i u, s.calls 2 = .waiting i ∧ (s.calls u).has i = true ∧ ∀ ok, (s.step (.run u ok)).isSome = true := by
  have hrun : (exec step (new 1) twoForOne).any fun s => s.calls 2 = .waiting 0 && (s.step (.run 2 true)).isNone := by decide
  obtain ⟨s, hs, hrun⟩ := (Option.any_eq_true _ _).1 hrun
  simp only [Bool.and_eq_true, decide_eq_true_eq] at hrun
  obtain ⟨hwait, hblocked⟩ := hrun
  have hT : ∀ u, .call u ∈ twoForOne → u ∈ ({1, 2} : Finset Nat) := by
    intro u hu
    simpa [twoForOne] using hu
  obtain ⟨-, hcard, hgo⟩ := pool_serves 1 {1, 2} twoForOne s hT hs
  refine ⟨s, hs, hwait, hcard, ?_⟩
  rcases (hgo 2).2 (by rw [hwait]; simp) with hr | hr
  · rw [Option.isNone_iff_eq_none] at hblocked
    have := hr true
    rw [hblocked] at this
    cases this
  · exact hr

end ClientPool

/-! ## Workers with connections of their own -/

/-- A thread of a `WorkerPool`. It has the lock of the receiver only until it has a job. -/
inductive WorkerPhase where
  | locking
  | receiving
  | working (job : Nat)
  deriving DecidableEq

/-- A `WorkerPool` whose jobs use a `ClientPool`. Jobs are numbered as they are submitted.
`started` is for the proof. -/
structure Workers where
  pool : ClientPool
  queue : List Nat
  submitted : Nat
  receiver : Option Nat
  phase : Nat → WorkerPhase
  started : List Nat

inductive WorkerAct where
  | submit
  | lock (w : Nat)
  | recv (w : Nat)
  /-- The job calls `ClientPool::with`. -/
  | call (w : Nat)
  | run (w : Nat) (ok : Bool)
  | finish (w : Nat)

def WorkerPhase.job : WorkerPhase → Option Nat
  | .working job => some job
  | _ => none

namespace Workers

def start (size : Nat) : Workers := ⟨.new size, [], 0, none, fun _ => .locking, []⟩

def setPhase (s : Workers) (w : Nat) (p : WorkerPhase) : Workers := { s with phase := Function.update s.phase w p }

def step (threads : Nat) (s : Workers) : WorkerAct → Option Workers
  | .submit => some { s with queue := s.queue ++ [s.submitted], submitted := s.submitted + 1 }
  | .lock w =>
    if w < threads ∧ s.phase w = .locking ∧ s.receiver = none then
      some { s.setPhase w .receiving with receiver := some w }
    else none
  | .recv w =>
    match s.phase w, s.queue with
    | .receiving, job :: queue =>
      some { s.setPhase w (.working job) with queue, receiver := none, started := s.started ++ [job] }
    | _, _ => none
  | .call w =>
    if (s.phase w).job.isSome then (s.pool.step (.call w)).map fun pool => { s with pool } else none
  | .run w ok =>
    if (s.phase w).job.isSome then (s.pool.step (.run w ok)).map fun pool => { s with pool } else none
  | .finish w =>
    if (s.phase w).job.isSome ∧ s.pool.calls w = .idle then some (s.setPhase w .locking) else none

/-- Only workers with a job call the pool, and only a worker without one has the lock. -/
structure WorkersInv (threads : Nat) (s : Workers) : Prop where
  pool : ClientPool.PoolInv (Finset.range threads) s.pool
  busy : ∀ w, s.pool.calls w ≠ .idle → (s.phase w).job.isSome = true
  few : ∀ w, s.phase w ≠ .locking → w < threads
  receiver : ∀ w, s.receiver = some w ↔ s.phase w = .receiving
  order : s.started ++ s.queue = List.range s.submitted

variable {threads : Nat} {s s' : Workers} {a : WorkerAct}

theorem job_ne_locking {p : WorkerPhase} (h : p.job.isSome = true) : p ≠ .locking ∧ p ≠ .receiving := by
  constructor <;> rintro rfl <;> cases h

/-- A worker turns to something else. -/
theorem WorkersInv.setPhase {w : Nat} {p : WorkerPhase} {receiver : Option Nat} (hi : WorkersInv threads s)
    (hbusy : s.pool.calls w ≠ .idle → p.job.isSome = true) (hfew : p ≠ .locking → w < threads)
    (hself : receiver = some w ↔ p = .receiving) (hother : ∀ v, v ≠ w → (receiver = some v ↔ s.receiver = some v)) :
    WorkersInv threads { s.setPhase w p with receiver } := by
  have hphase : ∀ v, v ≠ w → Function.update s.phase w p v = s.phase v := fun v hv => Function.update_of_ne hv _ _
  refine ⟨hi.pool, fun v hv => ?_, fun v hv => ?_, fun v => ?_, hi.order⟩
  · show (Function.update s.phase w p v).job.isSome = true
    by_cases h : v = w
    · subst h
      rw [Function.update_self]
      exact hbusy hv
    · rw [hphase v h]
      exact hi.busy v hv
  · have hv : Function.update s.phase w p v ≠ .locking := hv
    by_cases h : v = w
    · subst h
      rw [Function.update_self] at hv
      exact hfew hv
    · rw [hphase v h] at hv
      exact hi.few v hv
  · show receiver = some v ↔ Function.update s.phase w p v = .receiving
    by_cases h : v = w
    · subst h
      rw [Function.update_self]
      exact hself
    · rw [hphase v h, hother v h]
      exact hi.receiver v

theorem WorkersInv.step (hi : WorkersInv threads s) (h : s.step threads a = some s') : WorkersInv threads s' := by
  cases a with
  | submit =>
    cases h
    refine ⟨hi.pool, hi.busy, hi.few, hi.receiver, ?_⟩
    rw [List.range_succ, ← hi.order, List.append_assoc]
  | lock w =>
    simp only [Workers.step] at h
    split at h
    · rename_i hw
      cases h
      refine hi.setPhase (fun hc => ?_) (fun _ => hw.1) (iff_of_true rfl rfl) (fun v hv => ?_)
      · exact absurd hw.2.1 (job_ne_locking (hi.busy w hc)).1
      · rw [hw.2.2]
        exact iff_of_false (fun he => hv (Option.some.inj he).symm) (by simp)
    · cases h
  | recv w =>
    simp only [Workers.step] at h
    split at h
    · rename_i job queue hp hq
      cases h
      have hrec : s.receiver = some w := (hi.receiver w).2 hp
      have hset : WorkersInv threads { s.setPhase w (.working job) with receiver := none } := by
        refine hi.setPhase (fun _ => rfl) (fun _ => hi.few w (by rw [hp]; simp)) (iff_of_false (by simp) (by simp))
          fun v hv => ?_
        rw [hrec]
        exact iff_of_false (by simp) (fun he => hv (Option.some.inj he).symm)
      refine ⟨hset.pool, hset.busy, hset.few, hset.receiver, ?_⟩
      have ho := hi.order
      rw [hq] at ho
      show (s.started ++ [job]) ++ queue = List.range s.submitted
      rw [List.append_assoc, List.singleton_append, ho]
    · cases h
  | call w =>
    simp only [Workers.step] at h
    split at h
    · rename_i hj
      obtain ⟨pool, hp, rfl⟩ := Option.map_eq_some_iff.1 h
      have hw := hi.few w (job_ne_locking hj).1
      refine ⟨hi.pool.call (Finset.mem_range.2 hw) hp, fun v hv => ?_, hi.few, hi.receiver, hi.order⟩
      by_cases hvw : v = w
      · exact hvw ▸ hj
      · refine hi.busy v ?_
        simp only [ClientPool.step] at hp
        split at hp
        · cases hp
          simp only [ClientPool.goOn, Function.update_of_ne hvw] at hv
          exact hv
        · cases hp
    · cases h
  | run w ok =>
    simp only [Workers.step] at h
    split at h
    · rename_i hj
      obtain ⟨pool, hp, rfl⟩ := Option.map_eq_some_iff.1 h
      have hm := hi.pool.moves hp
      refine ⟨hi.pool.moved hm, fun v hv => ?_, hi.few, hi.receiver, hi.order⟩
      by_cases hvw : v = w
      · exact hvw ▸ hj
      · exact hi.busy v (by rwa [← hm.other hvw])
    · cases h
  | finish w =>
    simp only [Workers.step] at h
    split at h
    · rename_i hw
      cases h
      have hp := job_ne_locking hw.1
      refine hi.setPhase (fun hc => absurd hw.2 hc) (fun hn => absurd rfl hn) ?_ (fun v _ => .rfl)
      rw [hi.receiver w]
      exact iff_of_false hp.2 (by simp)
    · cases h

theorem workersInv_start (threads size : Nat) : WorkersInv threads (start size) := by
  refine ⟨ClientPool.poolInv_new _ size, fun w hw => absurd rfl hw, fun w hw => absurd rfl hw, fun w => ?_, rfl⟩
  exact iff_of_false (by simp [start]) (by simp [start])

theorem pool_size_step (h : s.step threads a = some s') : s'.pool.size = s.pool.size := by
  cases a <;> simp only [Workers.step] at h <;> (repeat' split at h) <;> try cases h
  all_goals first
    | rfl
    | obtain ⟨pool, hp, rfl⟩ := Option.map_eq_some_iff.1 h
      exact ClientPool.size_step hp

/-- With a connection for each worker, in every order of their steps: none ever waits for a
connection. Jobs are taken in the order in which they were submitted, each once. A worker
with a job goes on, and one without takes a job if there is one, or another does. -/
theorem workers_never_wait (threads size : Nat) (hle : threads ≤ max size 1) (acts : List WorkerAct) (s : Workers)
    (h : exec (step threads) (start size) acts = some s) :
    (∀ w i, s.pool.calls w ≠ .waiting i) ∧ s.started ++ s.queue = List.range s.submitted ∧
    (∀ w, (s.phase w).job.isSome = true →
      (s.step threads (.finish w)).isSome = true ∨ ∀ ok, (s.step threads (.run w ok)).isSome = true) ∧
    (s.queue ≠ [] → ∀ w < threads, (s.phase w).job = none →
      ∃ v, (s.step threads (.lock v)).isSome = true ∨ (s.step threads (.recv v)).isSome = true) := by
  obtain ⟨hi, hsize⟩ : WorkersInv threads s ∧ s.pool.size = max size 1 :=
    exec_inv (fun s => WorkersInv threads s ∧ s.pool.size = max size 1)
      (fun _ _ _ hi hs => ⟨hi.1.step hs, (pool_size_step hs).trans hi.2⟩) ⟨workersInv_start threads size, rfl⟩ h
  have hnever : ∀ w i, s.pool.calls w ≠ .waiting i := by
    intro w i hw
    have hfew := hi.pool.fewer s.pool.size (Nat.le_refl _)
    rw [Finset.card_range, hsize, Nat.sub_eq_zero_of_le hle, Nat.le_zero, Finset.card_eq_zero] at hfew
    have hm : w ∈ ClientPool.behind (Finset.range threads) s.pool (max size 1) :=
      Finset.mem_filter.2 ⟨hi.pool.within w (by rw [hw]; simp), by rw [hw]; rfl⟩
    rw [hfew] at hm
    cases hm
  refine ⟨hnever, hi.order, fun w hw => ?_, fun hq w hlt hw => ?_⟩
  · by_cases hc : s.pool.calls w = .idle
    · exact .inl (by simp [Workers.step, hw, hc])
    · refine .inr fun ok => ?_
      rcases ClientPool.goes_on hi.pool hc with hr | ⟨i, u, hwait, -⟩
      · simp only [Workers.step, hw, if_true, Option.isSome_map]
        exact hr ok
      · exact absurd hwait (hnever w i)
  · obtain ⟨job, queue, hq⟩ := List.exists_cons_of_ne_nil hq
    cases hr : s.receiver with
    | some v => exact ⟨v, .inr (by simp [Workers.step, (hi.receiver v).1 hr, hq])⟩
    | none =>
      -- Without the lock held, the worker is at the lock itself.
      have hp : s.phase w = .locking := by
        cases hp : s.phase w with
        | locking => rfl
        | receiving =>
          rw [(hi.receiver w).2 hp] at hr
          cases hr
        | working job =>
          rw [hp] at hw
          cases hw
      exact ⟨w, .inl (by simp [Workers.step, hlt, hp, hr])⟩

/-- Two workers with two connections. -/
def twoJobs : List WorkerAct :=
  [.submit, .submit, .submit, .lock 1, .recv 1, .lock 0, .recv 0, .call 0, .call 1, .run 1 true, .run 0 true, .run 0 true]

theorem workers_never_wait_two : ∃ s, exec (step 2) (start 2) twoJobs = some s ∧ s.started = [0, 1] ∧
    s.pool.calls 0 = .locked 1 ∧ ∀ w i, s.pool.calls w ≠ .waiting i := by
  have hrun : (exec (step 2) (start 2) twoJobs).any fun s => s.started = [0, 1] && s.pool.calls 0 = .locked 1 := by decide
  obtain ⟨s, hs, hrun⟩ := (Option.any_eq_true _ _).1 hrun
  simp only [Bool.and_eq_true, decide_eq_true_eq] at hrun
  exact ⟨s, hs, hrun.1, hrun.2, (workers_never_wait 2 2 (by decide) twoJobs s hs).1⟩

end Workers

end Mobfs
