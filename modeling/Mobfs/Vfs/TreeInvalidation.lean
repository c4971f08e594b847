import Mobfs.Vfs.BlockFetch
/-!
# The block cache: invalidation of a tree, and reset

`invalidate_tree` and `clear` advance the generations of the paths that have a block
in the cache. A path on which a read is under way, and of which nothing is cached,
keeps its generation, and what was read before the invalidation is inserted after
it. `TreeGuard` says that there is no such path.
-/

namespace Mobfs

open Lib

namespace BlockCache

/-- What `invalidate_tree`, in its second critical section, or `clear` is to take out. -/
def Sweeps (s : BlockCache) : CacheAct → BlockKey → Prop
  | .run t _, k => ∃ d paths, s.threads t = some (.tree d paths) ∧ BlockStore.under d k.1 = true
  | .clear, _ => True
  | _, _ => False

/-- Every read under way that could still be inserted, on a path that is to be taken
out, is on a path whose generation the invalidation advances; and so is every block
that was cached since `invalidate_tree` collected the paths. -/
def TreeGuard (s : BlockCache) : CacheAct → Prop
  | .run t _ => ∀ d paths, s.threads t = some (.tree d paths) →
      (∀ k, s.store.block k ≠ none → BlockStore.under d k.1 = true → k.1 ∈ paths) ∧
      ∀ u x p g started, s.threads u = some x → x.inserting = some (p, g, started) → g = s.store.generations p →
        BlockStore.under d p = true → p ∈ paths
  | .clear => ∀ u x p g started, s.threads u = some x → x.inserting = some (p, g, started) →
      g = s.store.generations p → s.store.Cached p
  | _ => True

/-- After an `invalidate_tree` or a `clear` that meets `TreeGuard`, whatever fetches
are under way and whatever comes later, `get` returns no block of what was to be
taken out whose remote read started before. -/
theorem tree_invalidation_beats_fetches (s₀ s₁ s₂ s : BlockCache) (as₁ as₂ : List CacheAct) (a : CacheAct)
    (h₀ : s₀.Idle) (h₁ : exec step s₀ as₁ = some s₁) (hguard : s₁.TreeGuard a) (ha : s₁.step a = some s₂)
    (h₂ : exec step s₂ as₂ = some s) :
    ∀ k b, s₁.Sweeps a k → (s.store.get k).2 = some b → s₂.now ≤ b.readAt := by
  have hg := genInv_exec h₀ h₁
  have hm := step_moves ha
  have hfresh : Fresh s₂.now (s₁.Sweeps a) s₂ := by
    obtain ⟨s', hs', rfl⟩ := Option.map_eq_some_iff.1 ha
    cases a with
    | clear =>
      cases hs'
      refine fresh_of_invalidation hg hm (fun k _ => BlockStore.block_clear) ?_ fun t x hx _ => hx
      intro t x p g started hx hi hgen _
      -- A path that is being read has a block in the cache, so its generation is advanced.
      have hb : s₁.store.clear.generations p = s₁.store.generations p + 1 :=
        (BlockStore.generations_clear p).1 (hguard t x p g started hx hi hgen)
      show _ < s₁.store.clear.generations p
      omega
    | run t reply =>
      obtain ⟨f, hf, hs'⟩ := Option.bind_eq_some_iff.1 hs'
      by_cases htree : ∃ d paths, f = .tree d paths
      · obtain ⟨d, paths, rfl⟩ := htree
        obtain ⟨hcached, hreads⟩ := hguard d paths hf
        have hsweeps : ∀ k, s₁.Sweeps (.run t reply) k → BlockStore.under d k.1 = true := by
          rintro k ⟨d', paths', hf', hk⟩
          rw [hf] at hf'
          cases hf'
          exact hk
        cases hs'
        refine fresh_of_invalidation hg hm ?_ ?_ ?_
        · intro k hk
          show (s₁.store.invalidateWhere paths _).block k = none
          rw [BlockStore.block_invalidateWhere]
          by_cases hn : s₁.store.block k = none
          · rw [hn, ite_self]
          · rw [if_pos ⟨hcached k hn (hsweeps k hk), rfl⟩]
        · rintro u x p g started hx hi hgen ⟨index, hk⟩
          show _ < (s₁.store.invalidateWhere paths _).generations p
          rw [BlockStore.generations_invalidateWhere,
            if_pos (hreads u x p g started hx hi hgen (hsweeps _ hk))]
          omega
        · intro u x hx _
          by_cases hu : u = t
          · simp [goOn, hu] at hx
          · simpa [goOn, Function.update_of_ne hu] using hx
      · -- Another critical section: nothing is to be taken out.
        have hnone : ∀ k, ¬ s₁.Sweeps (.run t reply) k := by
          rintro k ⟨d, paths, hf', -⟩
          rw [hf] at hf'
          exact htree ⟨d, paths, Option.some.inj hf'⟩
        refine ⟨fun k hk => absurd hk (hnone k), ?_, Nat.le_refl _⟩
        rintro u x p g started - - - ⟨_, hk⟩
        exact absurd hk (hnone _)
    | _ =>
      refine ⟨fun k hk => absurd hk id, ?_, Nat.le_refl _⟩
      rintro u x p g started - - - ⟨_, hk⟩
      exact absurd hk id
  intro k b hk hb
  rw [BlockStore.get_snd] at hb
  exact (fresh_exec (hg.moves hm) hfresh h₂).cached k hk b hb

/-! ## A path that is cached, and one that is not -/

def ByThread0 : CacheAct → Prop
  | .fetch t _ _ => t = 0
  | .fetchRun t _ _ _ => t = 0
  | .invalidateTree t _ => t = 0
  | .run t _ => t = 0
  | _ => True

theorem step_byThread0 {s s' : BlockCache} {a : CacheAct} (h : s.step a = some s') (ha : ByThread0 a) {u : Nat}
    (hu : u ≠ 0) : s'.threads u = s.threads u := by
  obtain ⟨s1, h1, rfl⟩ := Option.map_eq_some_iff.1 h
  have hcall : ∀ f, s.call 0 f = some s1 → s1.threads u = s.threads u := by
    intro f hc
    unfold call at hc
    split at hc <;> cases hc
    exact Function.update_of_ne hu _ _
  cases a with
  | fetch t path index => obtain rfl : t = 0 := ha; exact hcall _ h1
  | fetchRun t path first count => obtain rfl : t = 0 := ha; exact hcall _ h1
  | invalidateTree t path => obtain rfl : t = 0 := ha; exact hcall _ h1
  | run t reply =>
    obtain rfl : t = 0 := ha
    obtain ⟨f, -, h1⟩ := Option.bind_eq_some_iff.1 h1
    obtain ⟨f', hth, -⟩ := goOnWith_threads h1
    simp [hth, Function.update_of_ne hu]
  | get path index => cases h1; rfl
  | invalidateRange path offset len => cases h1; rfl
  | invalidatePath path => cases h1; rfl
  | clear => cases h1; rfl

theorem exec_byThread0 {s s' : BlockCache} {as : List CacheAct} (h : exec step s as = some s')
    (ha : ∀ a ∈ as, ByThread0 a) {u : Nat} (hu : u ≠ 0) : s'.threads u = s.threads u := by
  induction as generalizing s with
  | nil => cases h; rfl
  | cons a as ih =>
    obtain ⟨s1, h1, h⟩ := exec_cons.1 h
    rw [ih h fun b hb => ha b (List.mem_cons_of_mem _ hb), step_byThread0 h1 (ha a List.mem_cons_self) hu]

/-- The first block of `f` is cached and its second block is being read. -/
def secondBlock : List CacheAct :=
  fetchStarts 0 "f" ++ fetchEnds 0 1 ++ (.fetch 0 "f" 1 :: List.replicate 4 (.run 0 none) : List CacheAct)

theorem tree_invalidation_beats_second_block :
    ∃ s₁ s₂ s b, exec step empty secondBlock = some s₁ ∧ s₁.TreeGuard .clear ∧ s₁.step .clear = some s₂ ∧
      exec step s₂ (fetchEnds 0 1 ++ fetchStarts 1 "f" ++ fetchEnds 1 2) = some s ∧
      (s.store.get ("f", 0)).2 = some b ∧ s₂.now ≤ b.readAt := by
  have hrun : (exec step empty secondBlock).any fun s₁ => (s₁.store.block ("f", 0)).isSome &&
      ((s₁.threads 0).bind Fetch.inserting).any (·.1 = "f") && (s₁.step .clear).any fun s₂ =>
      (exec step s₂ (fetchEnds 0 1 ++ fetchStarts 1 "f" ++ fetchEnds 1 2)).any fun s =>
        (s.store.get ("f", 0)).2.isSome := by
    decide
  obtain ⟨s₁, h₁, hrun⟩ := (Option.any_eq_true _ _).1 hrun
  simp only [Bool.and_eq_true] at hrun
  obtain ⟨⟨hcached, hread⟩, hrun⟩ := hrun
  obtain ⟨s₂, ha, hrun⟩ := (Option.any_eq_true _ _).1 hrun
  obtain ⟨s, h₂, hrun⟩ := (Option.any_eq_true _ _).1 hrun
  obtain ⟨b, hb⟩ := Option.isSome_iff_exists.1 hrun
  have hguard : s₁.TreeGuard .clear := by
    intro u x p g started hx hi _
    by_cases hu : u = 0
    · rw [hu] at hx
      simp only [hx, Option.bind_some, hi, Option.any_some, decide_eq_true_eq] at hread
      exact ⟨0, by rw [hread]; exact Option.isSome_iff_ne_none.1 hcached⟩
    · have hnone := exec_byThread0 h₁ (by simp [secondBlock, fetchStarts, fetchEnds, ByThread0]) hu
      rw [hnone] at hx
      cases hx
  exact ⟨s₁, s₂, s, b, h₁, hguard, ha, h₂, hb,
    tree_invalidation_beats_fetches empty s₁ s₂ s _ _ .clear (fun _ => rfl) h₁ hguard ha h₂ ("f", 0) b trivial hb⟩

/-- A thread is about to invalidate a tree with this path. -/
def sweeping (s : BlockCache) (t : Nat) (path : String) : Bool :=
  match s.threads t with
  | some (.tree d _) => BlockStore.under d path
  | _ => false

theorem sweeps_of_sweeping {s : BlockCache} {t index : Nat} {path : String} (h : s.sweeping t path = true) :
    s.Sweeps (.run t none) (path, index) := by
  unfold sweeping at h
  split at h
  · rename_i d paths hf
    exact ⟨d, paths, hf, h⟩
  · cases h

/-- The first block of `d/f` is being read and nothing of it is cached. It is
inserted after `invalidate_tree` of `d` has run, and after `clear` has. -/
theorem in_flight_read_survives_tree_invalidation :
    (∃ s₁ s₂ s b, exec step empty (fetchStarts 0 "d/f" ++ [.invalidateTree 1 "d"]) = some s₁ ∧
      s₁.step (.run 1 none) = some s₂ ∧ s₁.Sweeps (.run 1 none) ("d/f", 0) ∧
      exec step s₂ (fetchEnds 0 1) = some s ∧ (s.store.get ("d/f", 0)).2 = some b ∧ b.readAt < s₁.now) ∧
    ∃ s₁ s₂ s b, exec step empty (fetchStarts 0 "d/f") = some s₁ ∧ s₁.step .clear = some s₂ ∧
      exec step s₂ (fetchEnds 0 1) = some s ∧ (s.store.get ("d/f", 0)).2 = some b ∧ b.readAt < s₁.now := by
  have htree : (exec step empty (fetchStarts 0 "d/f" ++ [.invalidateTree 1 "d"])).any fun s₁ =>
      s₁.sweeping 1 "d/f" && (s₁.step (.run 1 none)).any fun s₂ => (exec step s₂ (fetchEnds 0 1)).any fun s =>
        (s.store.get ("d/f", 0)).2.any (·.readAt < s₁.now) := by
    decide
  have hclear : (exec step empty (fetchStarts 0 "d/f")).any fun s₁ => (s₁.step .clear).any fun s₂ =>
      (exec step s₂ (fetchEnds 0 1)).any fun s => (s.store.get ("d/f", 0)).2.any (·.readAt < s₁.now) := by
    decide
  refine ⟨?_, ?_⟩
  · obtain ⟨s₁, h₁, hrun⟩ := (Option.any_eq_true _ _).1 htree
    obtain ⟨hd, hrun⟩ := Bool.and_eq_true_iff.1 hrun
    obtain ⟨s₂, ha, hrun⟩ := (Option.any_eq_true _ _).1 hrun
    obtain ⟨s, h₂, hrun⟩ := (Option.any_eq_true _ _).1 hrun
    obtain ⟨b, hb, hlt⟩ := (Option.any_eq_true _ _).1 hrun
    exact ⟨s₁, s₂, s, b, h₁, ha, sweeps_of_sweeping hd, h₂, hb, of_decide_eq_true hlt⟩
  · obtain ⟨s₁, h₁, hrun⟩ := (Option.any_eq_true _ _).1 hclear
    obtain ⟨s₂, ha, hrun⟩ := (Option.any_eq_true _ _).1 hrun
    obtain ⟨s, h₂, hrun⟩ := (Option.any_eq_true _ _).1 hrun
    obtain ⟨b, hb, hlt⟩ := (Option.any_eq_true _ _).1 hrun
    exact ⟨s₁, s₂, s, b, h₁, ha, h₂, hb, of_decide_eq_true hlt⟩

end BlockCache

end Mobfs
