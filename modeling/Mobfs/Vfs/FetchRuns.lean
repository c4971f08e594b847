import Mathlib.Data.List.Induction
import Mobfs.Vfs.FetchAnswers
/-!
# Frames and blocks

The daemon answers in frames of its own choice, and `into_blocks` cuts them anew unless
they are blocks already; both ways give the blocks of the range (`intoBlocks_eq`). What
a fetch inserts is thus a piece of the range that it has read, under the index of its place
(`inserts_answered`): the answer to a call is found in the run that led to its insertion.
-/

namespace Mobfs

open Lib Std

namespace BlockCache

/-- In the run, the remote read of the call has ended with these frames. -/
def Answered (s₀ : BlockCache) (acts : List CacheAct) (t : Nat) (job : FetchJob) (g started : Nat) (frames : List Bytes) :
    Prop :=
  ∃ pre post s, acts = pre ++ .run t (some frames) :: post ∧ exec step s₀ pre = some s ∧
    s.threads t = some (.reading job g started)

variable {s₀ s : BlockCache} {acts : List CacheAct} {t g started : Nat} {job : FetchJob}

theorem Answered.concat {frames : List Bytes} (h : Answered s₀ acts t job g started frames) (a : CacheAct) :
    Answered s₀ (acts ++ [a]) t job g started frames := by
  obtain ⟨pre, post, s, rfl, hpre, ht⟩ := h
  exact ⟨pre, post ++ [a], s, by simp, hpre, ht⟩

/-- What a call is about to insert is left of the blocks it has been answered with. -/
theorem inserts_answered (hidle : s₀.Idle) (h : exec step s₀ acts = some s) {k : Nat} {bs : List Bytes}
    (ht : s.threads t = some (.insert job g started k bs)) :
    ∃ frames, Answered s₀ acts t job g started frames ∧ bs = (FetchJob.blocks job frames).drop k := by
  induction acts using List.reverseRecOn generalizing s k bs with
  | nil =>
    cases h
    rw [hidle t] at ht
    cases ht
  | append_singleton acts a ih =>
    obtain ⟨s1, h1, h2⟩ := exec_append.1 h
    obtain ⟨s2, hstep, hs⟩ := exec_cons.1 h2
    obtain rfl := Option.some.inj hs
    rcases step_thread hstep ht with ht | ⟨hnone, -⟩ | ⟨f, reply, s3, rfl, hf, hgo, ht⟩
    · obtain ⟨frames, hans, hbs⟩ := ih h1 ht
      exact ⟨frames, hans.concat a, hbs⟩
    · cases hnone
    · rcases goOnWith_inserts hgo ht with ⟨frames, rfl, rfl, rfl, rfl⟩ | ⟨b, before, rfl, rfl⟩
      · exact ⟨frames, ⟨acts, [], s1, rfl, h1, hf⟩, rfl⟩
      · obtain ⟨frames, hans, hbs⟩ := ih h1 hf
        refine ⟨frames, hans.concat _, ?_⟩
        rw [← List.drop_drop, ← hbs, List.drop_one, List.tail_cons]

theorem step_insert {k : Nat} {b : Bytes} {bs : List Bytes} {reply : Option (List Bytes)} {s' : BlockCache}
    (ht : s.threads t = some (.insert job g started k (b :: bs))) (h : s.step (.run t reply) = some s') :
    s'.store = s.store.insert (job.path, job.first + k) ⟨b, started⟩ g := by
  obtain ⟨f, s1, hf, h1, rfl⟩ := step_run h
  obtain rfl := Option.some.inj (ht.symm.trans hf)
  cases h1
  rfl

/-- Both ways of `into_blocks` give the consecutive blocks of what was read; and in every run, what
`fetch_run` stores under `first + k` is the piece at `k * BLOCK_SIZE` of the range it has read. -/
theorem into_blocks_regroups :
    (∀ frames : List Bytes, (∀ f ∈ frames, f ≠ []) →
      intoBlocks frames = chunks blockSize frames.flatten ∧ (intoBlocks frames).flatten = frames.flatten ∧
        (∀ b ∈ (intoBlocks frames).dropLast, b.length = blockSize) ∧
        ∀ b ∈ intoBlocks frames, b ≠ [] ∧ b.length ≤ blockSize) ∧
      ∀ (s₀ s : BlockCache) (acts : List CacheAct), s₀.Idle → exec step s₀ acts = some s →
        (∀ t frames, .run t (some frames) ∈ acts → ∀ f ∈ frames, f ≠ []) →
        ∀ (t : Nat) (job : FetchJob) (g started k : Nat) (b : Bytes) (bs : List Bytes), job.whole = true →
          s.threads t = some (.insert job g started k (b :: bs)) →
          (∃ frames, Answered s₀ acts t job g started frames ∧ k * blockSize < frames.flatten.length ∧
            b = (frames.flatten.drop (k * blockSize)).take blockSize) ∧
          ∀ reply s', s.step (.run t reply) = some s' →
            s'.store = s.store.insert (job.path, job.first + k) ⟨b, started⟩ g := by
  refine ⟨fun frames h => ?_, fun s₀ s acts hidle hexec hne t job g started k b bs hw ht => ⟨?_, fun reply s' hs => ?_⟩⟩
  · rw [intoBlocks_eq h]
    exact ⟨rfl, chunks_flatten (by decide) _, length_of_mem_dropLast_chunks blockSize _, fun c hc =>
      ⟨chunks_ne_nil (by decide) _ c hc, length_le_of_mem_chunks (by decide) hc⟩⟩
  · obtain ⟨frames, hans, hbs⟩ := inserts_answered hidle hexec ht
    have hframes : ∀ f ∈ frames, f ≠ [] := by
      obtain ⟨pre, post, -, rfl, -⟩ := hans
      exact hne t frames (by simp)
    have hk : (chunks blockSize frames.flatten)[k]? = some b := by
      rw [FetchJob.blocks, if_pos hw, intoBlocks_eq hframes] at hbs
      have hhead := congrArg List.head? hbs
      rwa [List.head?_drop, List.head?_cons, eq_comm] at hhead
    rw [getElem?_chunks (by decide)] at hk
    split at hk
    · exact ⟨frames, hans, ‹_›, (Option.some.inj hk).symm⟩
    · cases hk
  · exact step_insert ht hs

/-- A run of one block, which the daemon answers in two frames. -/
def twoFrames : List CacheAct :=
  [.fetchRun 1 "a" 0 1, .run 1 none, .run 1 none, .run 1 none, .run 1 (some [[1], [2, 3]])]

theorem into_blocks_regroups_frames :
    intoBlocks [[1], [2, 3]] = chunks blockSize [1, 2, 3] ∧
      ∃ frames, Answered empty twoFrames 1 ⟨"a", 0, [0], true⟩ 0 4 frames ∧
        [1, 2, 3] = (frames.flatten.drop (0 * blockSize)).take blockSize := by
  obtain ⟨hblocks, hruns⟩ := into_blocks_regroups
  obtain ⟨s, hs⟩ : ∃ s, exec step empty twoFrames = some s := ⟨_, rfl⟩
  have ht : s.threads 1 = some (.insert ⟨"a", 0, [0], true⟩ 0 4 0 [[1, 2, 3]]) := by
    cases hs
    rfl
  have hne : ∀ t frames, .run t (some frames) ∈ twoFrames → ∀ f ∈ frames, f ≠ [] := by
    intro t frames h
    simp only [twoFrames, List.mem_cons, CacheAct.run.injEq, reduceCtorEq, false_or, and_false, Option.some.injEq,
      List.not_mem_nil, or_false] at h
    rw [h.2]
    decide
  obtain ⟨⟨frames, hans, -, hb⟩, -⟩ := hruns empty s twoFrames (fun _ => rfl) hs hne 1 _ 0 4 0 _ _ rfl ht
  exact ⟨(hblocks [[1], [2, 3]] (by decide)).1, frames, hans, hb⟩

end BlockCache

end Mobfs
