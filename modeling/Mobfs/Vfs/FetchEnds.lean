import Mobfs.Vfs.FetchAnswers
/-!
# Every fetch ends

A call of the block cache takes so many steps of its own, whatever the other calls do
meanwhile: there is no loop in it but the one over the blocks of its answer. And a call that
cannot go on waits for another one that can. So if the remote reads end, and no more calls are
made, all calls end, in whatever order they take their steps.
-/

namespace Mobfs

open Lib Std

/-- So many steps a call has at most still to take, if no answer has more than `n` blocks. -/
def Fetch.left (n : Nat) : Fetch → Nat
  | .lookup _ => n + 9
  | .join _ => n + 8
  | .wait _ _ => 3
  | .lookupAgain _ => 2
  | .readAlone _ => 1
  | .register _ _ _ => n + 8
  | .generation _ => n + 7
  | .read _ _ => n + 6
  | .reading _ _ _ => n + 5
  | .insert _ _ _ _ blocks => blocks.length + 3
  | .finish _ => 2
  | .signal _ => 1
  | .tree _ _ => 1

/-- The steps of a thread in a run, and the calls that start on it. -/
def CacheAct.isRunOf (t : Nat) : CacheAct → Bool
  | .run u _ => u = t
  | _ => false

namespace BlockCache

variable {s s' : BlockCache} {n t : Nat}

def left (n : Nat) (s : BlockCache) (t : Nat) : Nat := ((s.threads t).map (Fetch.left n)).getD 0

/-- No answer has more blocks than that. -/
def Short (n : Nat) : CacheAct → Prop
  | .run _ (some frames) => (intoBlocks frames).length ≤ n ∧ 1 ≤ n
  | _ => True

theorem length_blocks (job : FetchJob) {frames : List Bytes} (h : (intoBlocks frames).length ≤ n ∧ 1 ≤ n) :
    (FetchJob.blocks job frames).length ≤ n := by
  unfold FetchJob.blocks
  split
  · exact h.1
  · exact h.2

/-- A step of a call leaves it with fewer. -/
theorem goOnWith_left {reply : Option (List Bytes)} {f : Fetch} (hshort : Short n (.run t reply))
    (h : s.goOnWith t reply f = some s') : s'.left n t + 1 ≤ f.left n := by
  have hnext : ∀ {next : Option Fetch}, s'.threads = Function.update s.threads t next →
      s'.left n t = (next.map (Fetch.left n)).getD 0 := by
    intro next hth
    rw [left, hth, Function.update_self]
  cases f with
  | lookup key =>
    cases h
    rw [hnext rfl]
    split <;> simp [Fetch.left]
  | join key =>
    simp only [goOnWith] at h
    split at h <;> cases h <;> rw [hnext rfl] <;> simp [Fetch.left]
  | wait flight key =>
    simp only [goOnWith, Option.ite_none_right_eq_some, Option.some.injEq] at h
    obtain ⟨-, rfl⟩ := h
    rw [hnext rfl]
    simp [Fetch.left]
  | lookupAgain key =>
    cases h
    rw [hnext rfl]
    split <;> simp [Fetch.left]
  | register path first count =>
    cases h
    rw [hnext rfl]
    split <;> simp [Fetch.left]
  | reading job g started =>
    simp only [goOnWith] at h
    split at h
    · cases h
      rw [hnext rfl]
      have := length_blocks job hshort
      simp only [Option.map_some, Option.getD_some, Fetch.left]
      omega
    · cases h
      rw [hnext rfl]
      simp [Fetch.left]
  | insert job g started position blocks =>
    cases blocks with
    | nil =>
      cases h
      rw [hnext rfl]
      simp [Fetch.left]
    | cons b bs =>
      cases h
      rw [hnext rfl]
      simp [Fetch.left]
  | _ =>
    cases h
    rw [hnext rfl]
    simp [Fetch.left]

/-- Only its own steps, and a call that starts on it, change what a thread has left. -/
theorem step_left {a : CacheAct} (hshort : Short n a) (h : s.step a = some s') :
    s'.left n t + (if a.isRunOf t then 1 else 0) ≤ s.left n t + if a.caller = some t then n + 9 else 0 := by
  by_cases hrun : ∃ u reply, a = .run u reply
  · obtain ⟨u, reply, rfl⟩ := hrun
    obtain ⟨f, s1, hf, h1, rfl⟩ := step_run h
    by_cases hu : u = t
    · subst hu
      have hleft : s1.left n u + 1 ≤ f.left n := goOnWith_left hshort h1
      have hbefore : s.left n u = f.left n := by simp [left, hf]
      have hafter : left n { s1 with now := s.now + 1 } u = s1.left n u := rfl
      simp only [CacheAct.isRunOf, CacheAct.caller, decide_true, if_true, reduceCtorEq, if_false]
      omega
    · have hsame : left n { s1 with now := s.now + 1 } t = s.left n t := by
        show ((s1.threads t).map (Fetch.left n)).getD 0 = _
        rw [goOnWith_others h1 (Ne.symm hu), left]
      simp [CacheAct.isRunOf, CacheAct.caller, hu, hsame]
  · obtain ⟨-, -, hth⟩ := step_starts h fun u reply he => hrun ⟨u, reply, he⟩
    have hnot : a.isRunOf t = false := by
      cases a with
      | run u reply => exact absurd ⟨u, reply, rfl⟩ hrun
      | _ => rfl
    rw [hnot]
    rcases hth with hth | ⟨u, f, hcaller, hnone, hth, -, hf⟩
    · rw [left, left, hth]
      exact Nat.le_add_right _ _
    · by_cases hu : u = t
      · subst hu
        have hfirst : f.left n ≤ n + 9 := by
          rcases hf with ⟨key, rfl⟩ | ⟨path, first, count, rfl⟩ | ⟨d, paths, rfl⟩ <;> simp [Fetch.left]
        simp [left, hth, hcaller, hnone, hfirst]
      · rw [left, left, hth, Function.update_of_ne (Ne.symm hu)]
        exact Nat.le_add_right _ _

/-- The steps that a thread has taken, and those that it has left, come from its calls. -/
theorem exec_left {as : List CacheAct} (hshort : ∀ a ∈ as, Short n a) (h : exec step s as = some s') :
    s'.left n t + as.countP (·.isRunOf t) ≤ s.left n t + (n + 9) * as.countP (·.caller = some t) := by
  induction as generalizing s with
  | nil =>
    cases h
    exact Nat.le_refl _
  | cons a as ih =>
    obtain ⟨s1, h1, h⟩ := exec_cons.1 h
    have hfirst := step_left (t := t) (hshort a List.mem_cons_self) h1
    have hrest := ih (fun b hb => hshort b (List.mem_cons_of_mem _ hb)) h
    rw [List.countP_cons, List.countP_cons, Nat.mul_add]
    by_cases hc : a.caller = some t
    · simp only [hc, if_true, decide_true] at hfirst ⊢
      omega
    · simp only [hc, if_false, decide_false, Bool.false_eq_true] at hfirst ⊢
      omega

/-- A call that cannot go on waits for a flight whose leader can. -/
theorem goes_on {f : Fetch} (hled : s.Led) (hf : s.threads t = some f) :
    (∀ reply, (s.step (.run t reply)).isSome = true) ∨
      ∃ flight key u, f = .wait flight key ∧ u ≠ t ∧ ∀ reply, (s.step (.run u reply)).isSome = true := by
  have hstep : ∀ {u g}, s.threads u = some g → (∀ flight key, g = .wait flight key → flight ∈ s.finished) →
      ∀ reply, (s.step (.run u reply)).isSome = true := by
    intro u g hg hwait reply
    have hsome : (s.goOnWith u reply g).isSome = true := by
      cases g with
      | wait flight key => simp [goOnWith, hwait flight key rfl]
      | join key =>
        simp only [goOnWith]
        split <;> rfl
      | reading job g started =>
        simp only [goOnWith]
        split <;> rfl
      | insert job g started position blocks => cases blocks <;> rfl
      | _ => rfl
    simp [BlockCache.step, act, hg, hsome]
  by_cases hwait : ∀ flight key, f = .wait flight key → flight ∈ s.finished
  · exact .inl (hstep hf hwait)
  · simp only [not_forall] at hwait
    obtain ⟨flight, key, rfl, hnot⟩ := hwait
    rcases hled.waiting t flight key hf with hfin | ⟨u, x, hx, hleads⟩
    · exact absurd hfin hnot
    · refine .inr ⟨flight, key, u, rfl, ?_, hstep hx ?_⟩
      · rintro rfl
        rw [hf] at hx
        cases hx
        cases hleads
      · rintro flight' key' rfl
        cases hleads

/-- In every run from a cache without calls, of any number of threads: a thread takes at most
`n + 9` steps for each call that starts on it, where no answer has more than `n` blocks; and
a call that is under way can take a step, or waits for another one that can. -/
theorem fetches_end (n : Nat) (s₀ s : BlockCache) (as : List CacheAct) (hidle : s₀.Idle) (hempty : s₀.inflight = ∅)
    (hshort : ∀ a ∈ as, Short n a) (h : exec step s₀ as = some s) (t : Nat) :
    as.countP (·.isRunOf t) ≤ (n + 9) * as.countP (·.caller = some t) ∧
    ∀ f, s.threads t = some f → (∀ reply, (s.step (.run t reply)).isSome = true) ∨
      ∃ flight key u, f = .wait flight key ∧ u ≠ t ∧ ∀ reply, (s.step (.run u reply)).isSome = true := by
  have hled : Led s := by
    refine exec_inv Led (fun _ _ _ hi hs => hi.step hs) ⟨fun key flight hk => ?_, fun u flight key hw => ?_⟩ h
    · rw [hempty] at hk
      simp at hk
    · rw [hidle u] at hw
      cases hw
  refine ⟨?_, fun f hf => goes_on hled hf⟩
  have hleft := exec_left (t := t) hshort h
  have hnone : s₀.left n t = 0 := by simp [left, hidle t]
  omega

/-- A thread waits for the block that another one reads, and goes on when it is there. -/
def readerWaits : List CacheAct :=
  fetchStarts 1 "f" ++ .fetch 2 "f" 0 :: List.replicate 2 (.run 2 none) ++ fetchEnds 1 7 ++ List.replicate 2 (.run 2 none)

theorem fetches_end_waits : ∃ s, exec step empty readerWaits = some s ∧ s.threads 2 = none ∧
    readerWaits.countP (·.isRunOf 2) ≤ (1 + 9) * readerWaits.countP (·.caller = some 2) := by
  have hrun : (exec step empty readerWaits).any fun s => (s.threads 2).isNone := by
    decide
  obtain ⟨s, hs, hrun⟩ := (Option.any_eq_true _ _).1 hrun
  have hshort : ∀ a ∈ readerWaits, Short 1 a := by
    simp [readerWaits, fetchStarts, fetchEnds, Short, intoBlocks, blockSize]
  exact ⟨s, hs, Option.isNone_iff_eq_none.1 hrun,
    (fetches_end 1 empty s readerWaits (fun _ => rfl) rfl hshort hs 2).1⟩

end BlockCache

end Mobfs
