import Mobfs.Vfs.Coherence
/-!
# Change events and pending writes

`apply_change` passes over an event while a local write under its path is buffered
or being uploaded, and the cursor moves on. When the uploads are done nothing looks
at the event again. What an upload takes out when it ends is its own range.
-/

namespace Mobfs

open Lib

namespace Mount

/-- What the change makes stale: the entries at its path and below a replaced one, the
listings they are in, and the blocks of the changed range. -/
def Stales (e : FeedEvent) : Item → Prop
  | .entry q => q = e.event.path ∨ e.event.kind = .replaced ∧ below e.event.path q = true
  | .listing d => d = (splitParent e.event.path).1 ∨ e.event.kind = .replaced ∧ BlockStore.under e.event.path d = true
  | .block k =>
    match e.event.kind with
    | .write offset len => k.1 = e.event.path ∧ BlockStore.Overlaps offset len k.2 ∧ k.2 * blockSize ≤ u64Max
    | .metadata => False
    | .replaced => BlockStore.under e.event.path k.1 = true

theorem stales_sweeps (e : FeedEvent) (x : Item) (h : Stales e x) : ∃ w ∈ e.event.sweeps, w.Clears x := by
  cases x with
  | entry q =>
    rcases h with rfl | ⟨hk, hb⟩
    · exact ofName_sweeps e _ (.inl rfl)
    · exact ⟨.metasUnder e.event.path, by simp [ChangeEvent.sweeps, hk], by simp [Sweep.Clears, BlockStore.under, hb]⟩
  | listing d =>
    rcases h with rfl | ⟨hk, hb⟩
    · exact ofName_sweeps e _ (.inr rfl)
    · exact ⟨.dirsUnder e.event.path, by simp [ChangeEvent.sweeps, hk], hb⟩
  | block k =>
    cases hk : e.event.kind with
    | write offset len =>
      simp only [Stales, hk] at h
      obtain ⟨hp, ho, hle⟩ := h
      exact ⟨.range e.event.path offset len, by simp [ChangeEvent.sweeps, hk], hp, BlockStore.inRange_of_overlaps ho hle⟩
    | metadata => simp [Stales, hk] at h
    | replaced =>
      simp only [Stales, hk] at h
      exact ⟨.collect e.event.path, by simp [ChangeEvent.sweeps, hk], h⟩

theorem under_of_stales {e : FeedEvent} {k : BlockKey} (h : Stales e (.block k)) :
    BlockStore.under e.event.path k.1 = true := by
  cases hk : e.event.kind with
  | write offset len =>
    simp only [Stales, hk] at h
    rw [h.1]
    exact under_self _
  | metadata => simp [Stales, hk] at h
  | replaced => simpa only [Stales, hk] using h

/-- In a run that meets `FeedGuard`: once the cursor is past an event, applied or
passed over, and no local write under its path is pending, what it makes stale is
served from no cache as it was before the change. -/
theorem no_event_lost (ignore : List String) (s₀ s : Mount) (as : List MountAct) (h₀ : s₀.Quiet)
    (hguard : Guarded (step ignore) (FeedGuard Stales ignore) s₀ as) (h : exec (step ignore) s₀ as = some s) :
    ∀ e ∈ s.applied ++ s.passedOver, (∀ x ∈ s.chunks, BlockStore.under e.event.path x.1.path = false) →
      (∀ k b, Stales e (.block k) → (s.cache.store.get k).2 = some b → e.madeAt ≤ b.readAt) ∧
      (∀ q v, Stales e (.entry q) → s.metas q = some v → e.madeAt ≤ v.asOf) ∧
      ∀ d v, Stales e (.listing d) → s.dirs d = some v → e.madeAt ≤ v.asOf := by
  have hi : FeedInv Stales s :=
    exec_guarded_inv (FeedInv Stales) (fun _ _ _ hi hg hs => hi.step stales_sweeps hg hs) h₀.feedInv hguard h
  intro e he hdone
  have hfresh : ∀ x, Stales e x → s.FreshSince e.madeAt x := by
    intro x hx
    rcases List.mem_append.1 he with he | he
    · exact (hi.applied e he).2 x hx
    · rcases (hi.passedOver e he).2 x hx with hf | hc
      · exact hf
      · -- The write that was to take the block out is still pending.
        cases x with
        | entry q => exact absurd hc id
        | listing d => exact absurd hc id
        | block k =>
          obtain ⟨c, place, hmem, -, hpath, -⟩ := hc
          have hu := hdone _ hmem
          rw [hpath, under_of_stales hx] at hu
          cases hu
  refine ⟨fun k b hx hb => ?_, fun q v hx hv => hfresh _ hx _ (dates_metas hv),
    fun d v hx hv => hfresh _ hx _ (dates_dirs hv)⟩
  rw [BlockStore.get_snd] at hb
  exact hfresh _ hx _ (.inl (by simp [cachedAt, hb]))

/-- A lookup of `f`. -/
def lookedUp : List MountAct := .stat 0 "f" :: .answer 0 (.entry (some aFile)) :: List.replicate 4 (.run 0 0)

/-- A local write to the first block of `f`. -/
def writtenHere : List MountAct := .write 0 ⟨"f", 0, 1⟩ :: List.replicate 3 (.run 0 0)

/-- The write is taken from its buffer and uploaded. -/
def uploaded : List MountAct := [.place 0 .held, .place 0 .uploading, .place 0 .ended, .complete 0]

/-- Another client has written to `f`. A lookup after that fills the cache, and a local
write is pending when the event comes, which is passed over. -/
def writtenLater : List MountAct :=
  .change ⟨"f", .write 0 1⟩ :: lookedUp ++ writtenHere ++ .feed :: .feedRun :: uploaded

theorem no_event_lost_later_write :
    ∃ s e v, exec (step []) empty writtenLater = some s ∧
      e ∈ s.passedOver ∧ s.chunks = [] ∧ s.metas e.event.path = some v ∧ e.madeAt ≤ v.asOf := by
  have hrun : (exec (step []) empty writtenLater).any fun s =>
      s.chunks.isEmpty && s.passedOver.head?.any fun e => (s.metas e.event.path).isSome := by
    decide
  obtain ⟨s, hs, hrun⟩ := (Option.any_eq_true _ _).1 hrun
  obtain ⟨hc, hrun⟩ := Bool.and_eq_true_iff.1 hrun
  obtain ⟨e, he, hrun⟩ := (Option.any_eq_true _ _).1 hrun
  obtain ⟨v, hv⟩ := Option.isSome_iff_exists.1 hrun
  have hmem := List.mem_of_mem_head? he
  have hchunks := List.isEmpty_iff.1 hc
  exact ⟨s, e, v, hs, hmem, hchunks, hv, (no_event_lost [] empty s _ empty_quiet (feedGuard_empty (by decide)) hs e
    (List.mem_append_right _ hmem) (by simp [hchunks])).2.1 e.event.path v (.inl rfl) hv⟩

def secondBlockRead : List CacheAct :=
  .fetch 0 "f" 1 :: List.replicate 4 (.run 0 none) ++ BlockCache.fetchEnds 0 1

/-- The second block and the entry of `f` are cached, and a local write to its first
block is pending, when another client writes to the second block. -/
def writtenMeanwhile : List MountAct :=
  lookedUp ++ secondBlockRead.map .cache ++ writtenHere ++ .change ⟨"f", .write blockSize 1⟩ :: .feed :: .feedRun :: uploaded

/-- The event is passed over, and when the write has been uploaded the caches are as
they were. -/
theorem passed_over_event_leaves_stale :
    ∃ s e v b, exec (step []) empty writtenMeanwhile = some s ∧
      e ∈ s.passedOver ∧ s.queue = [] ∧ s.chunks = [] ∧ Stales e (.block ("f", 1)) ∧
      (s.cache.store.get ("f", 1)).2 = some b ∧ b.readAt < e.madeAt ∧
      Stales e (.entry "f") ∧ s.metas "f" = some v ∧ v.asOf < e.madeAt := by
  have hrun : (exec (step []) empty writtenMeanwhile).any fun s =>
      s.queue.isEmpty && s.chunks.isEmpty && s.passedOver.head?.any fun e =>
        e.event == ⟨"f", .write blockSize 1⟩ && (s.cache.store.get ("f", 1)).2.any (·.readAt < e.madeAt) &&
        (s.metas "f").any (·.asOf < e.madeAt) := by
    decide
  obtain ⟨s, hs, hrun⟩ := (Option.any_eq_true _ _).1 hrun
  simp only [Bool.and_eq_true] at hrun
  obtain ⟨⟨hq, hc⟩, hrun⟩ := hrun
  obtain ⟨e, he, hrun⟩ := (Option.any_eq_true _ _).1 hrun
  simp only [Bool.and_eq_true, beq_iff_eq] at hrun
  obtain ⟨⟨hev, hb⟩, hm⟩ := hrun
  obtain ⟨b, hb, hlt⟩ := (Option.any_eq_true _ _).1 hb
  obtain ⟨v, hv, hlt'⟩ := (Option.any_eq_true _ _).1 hm
  refine ⟨s, e, v, b, hs, List.mem_of_mem_head? he, List.isEmpty_iff.1 hq, List.isEmpty_iff.1 hc, ?_, hb,
    of_decide_eq_true hlt, ?_, hv, of_decide_eq_true hlt'⟩
  · simp only [Stales, hev]
    exact ⟨trivial, ⟨blockSize, by decide⟩, by decide⟩
  · rw [Stales, hev]
    exact .inl rfl

end Mount

end Mobfs
