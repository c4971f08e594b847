import Mobfs.Vfs.MountStart
/-!
# A mount at rest

Nothing is written through the mount, the remote changes, and every answer says what the
remote had when it was made. `History.Holds`: what a cache has, or a call is about to put
there, is what the remote had at its date, unless that has changed since. Once all changes
have been recorded, and the feed cursor is past them, the caches have what the remote has.

A read of a block, the snapshot and the small files take their time. Of what changes in
between, nothing is said: they may have something of both.
-/

namespace Mobfs

open Lib Std

/-! ## What there is to see -/

/-- Nothing changes from `d` to `n`. -/
def Unchanged {β : Type} (obs : Nat → β) (d n : Nat) : Prop := ∀ k, d ≤ k → k < n → obs k = obs (k + 1)

theorem Unchanged.eq {β : Type} {obs : Nat → β} {d n : Nat} (h : Unchanged obs d n) (hn : d ≤ n) : obs d = obs n := by
  induction n, hn using Nat.le_induction with
  | base => rfl
  | succ n hn ih => exact (ih fun k hk hlt => h k hk (by omega)).trans (h n hn (Nat.lt_succ_self n))

/-- The value is what there was to see at `d`, or there has been a change by `n`. -/
structure Seen {α : Type} (obs : Nat → Option α) (v : α) (d n : Nat) : Prop where
  le : d ≤ n
  value : Unchanged obs d n → obs d = some v

section Seen

variable {α : Type} {obs : Nat → Option α} {v : α} {d n n' : Nat}

theorem Seen.later (h : Seen obs v d n) (hn : n ≤ n') : Seen obs v d n' :=
  ⟨Nat.le_trans h.le hn, fun hu => h.value fun k hk hlt => hu k hk (by omega)⟩

theorem seen_now (h : obs n = some v) : Seen obs v n n := ⟨Nat.le_refl n, fun _ => h⟩

/-- Nothing has changed since the value was read, if it is not older than any change. -/
theorem Seen.fresh (h : Seen obs v d n) (hd : ∀ k < n, obs k ≠ obs (k + 1) → k < d) : obs n = some v := by
  have hsame : Unchanged obs d n := by
    intro k hk hlt
    by_contra hne
    exact absurd (hd k hlt hne) (by omega)
  rw [← hsame.eq h.le]
  exact h.value hsame

end Seen

/-- The second mount has no value that the first one has not. -/
structure Mount.Fewer (m m' : Mount) : Prop where
  metas : ∀ q v, m'.metas q = some v → m.metas q = some v
  dirs : ∀ d v, m'.dirs d = some v → m.dirs d = some v
  blocks : ∀ k b, m'.cache.store.block k = some b → m.cache.store.block k = some b
  calls : m'.calls = m.calls
  threads : m'.cache.threads = m.cache.threads
  chunks : m'.chunks = m.chunks

/-- What the remote has at each time. A listing goes with the entries it is made of. -/
structure History where
  entry : Nat → String → Option EntryMeta
  listing : Nat → String → Option (List (String × EntryMeta))
  block : Nat → BlockKey → Option Bytes
  listed : ∀ k d es, listing k d = some es → ∀ x ∈ es, entry k (joinRel d x.1) = some x.2

namespace History

variable {h : History} {ignore : List String} {n n' : Nat} {m m' : Mount}

/-- The remote has the same in the place. -/
def Same (h : History) (j k : Nat) : Item → Prop
  | .entry q => h.entry j q = h.entry k q
  | .listing d => h.listing j d = h.listing k d
  | .block key => h.block j key = h.block k key

/-- What a fetch has read. -/
def Fetched (h : History) (n : Nat) : Fetch → Prop
  | .insert job _ started position blocks =>
    ∀ i b, blocks[i]? = some b → Seen (fun k => h.block k (job.path, job.first + (position + i))) b started n
  | _ => True

/-- What a call has been answered. It is none that writes. -/
def Called (h : History) (n : Nat) : NameCall → Prop
  | .listed d asOf es => Seen (fun k => h.listing k d) es asOf n ∧
      ∀ x ∈ es, Seen (fun k => h.entry k (joinRel d x.1)) x.2 asOf n
  | .put asOf _ todo => ∀ x ∈ todo, Seen (fun k => h.entry k x.1) x.2 asOf n
  | .stat _ | .forget _ | .list _ => True
  | _ => False

structure Holds (h : History) (n : Nat) (m : Mount) : Prop where
  metas : ∀ q v, m.metas q = some v → Seen (fun k => h.entry k q) v.value v.asOf n
  dirs : ∀ d v, m.dirs d = some v → Seen (fun k => h.listing k d) v.value v.asOf n
  blocks : ∀ k b, m.cache.store.block k = some b → Seen (fun j => h.block j k) b.data b.readAt n
  calls : ∀ t c, m.calls t = some c → h.Called n c
  threads : ∀ t f, m.cache.threads t = some f → h.Fetched n f
  chunks : m.chunks = []

/-- Nothing is written, and answers are right. -/
def Answers (h : History) (m : Mount) : MountAct → Prop
  | .setattr _ _ _ | .write _ _ => False
  | .answer t (.entry (some v)) => ∀ p, m.calls t = some (.stat p) → h.entry m.now p = some v
  | .answer t (.entries es) => ∀ d, m.calls t = some (.list d) → h.listing m.now d = some es
  | .cache (.run t (some frames)) => ∀ job g started, m.cache.threads t = some (.reading job g started) →
      ∀ i b, (BlockCache.FetchJob.blocks job frames)[i]? = some b →
        Seen (fun k => h.block k (job.path, job.first + i)) b started m.now
  | _ => True

/-! ## Steps of the mount -/

theorem Fetched.later {f : Fetch} (hf : h.Fetched n f) (hn : n ≤ n') : h.Fetched n' f := by
  cases f with
  | insert job g started position blocks => exact fun i b hb => (hf i b hb).later hn
  | _ => trivial

theorem Called.later {c : NameCall} (hc : h.Called n c) (hn : n ≤ n') : h.Called n' c := by
  cases c with
  | listed d asOf es => exact ⟨hc.1.later hn, fun x hx => (hc.2 x hx).later hn⟩
  | put asOf looked todo => exact fun x hx => (hc x hx).later hn
  | stat p => trivial
  | forget p => trivial
  | list d => trivial
  | _ => exact absurd hc id

theorem Holds.fewer (hi : h.Holds n m) (hn : n ≤ n') (hf : m.Fewer m') : h.Holds n' m' where
  metas := fun q v hv => (hi.metas q v (hf.metas q v hv)).later hn
  dirs := fun d v hv => (hi.dirs d v (hf.dirs d v hv)).later hn
  blocks := fun k b hb => (hi.blocks k b (hf.blocks k b hb)).later hn
  calls := fun t c hc => (hi.calls t c (hf.calls ▸ hc)).later hn
  threads := fun t f ht => (hi.threads t f (hf.threads ▸ ht)).later hn
  chunks := hf.chunks.trans hi.chunks

theorem Holds.goOn {t : Nat} {next : Option NameCall} (hi : h.Holds n m) (hc : ∀ c, next = some c → h.Called n c) :
    h.Holds n (m.goOn t next) := by
  refine ⟨hi.metas, hi.dirs, hi.blocks, fun u c hu => ?_, hi.threads, hi.chunks⟩
  simp only [Mount.goOn, Function.update_apply] at hu
  split at hu
  · exact hc c hu
  · exact hi.calls u c hu

theorem Holds.setMeta {p : String} {o : Option (Dated EntryMeta)} (hi : h.Holds n m)
    (ho : ∀ v, o = some v → Seen (fun k => h.entry k p) v.value v.asOf n) : h.Holds n (m.setMeta p o) := by
  refine ⟨fun q v hv => ?_, hi.dirs, hi.blocks, hi.calls, hi.threads, hi.chunks⟩
  simp only [Mount.setMeta, Function.update_apply] at hv
  split at hv
  · rename_i hq
    exact hq ▸ ho v hv
  · exact hi.metas q v hv

theorem Holds.setDir {d : String} {o : Option (Dated (List (String × EntryMeta)))} (hi : h.Holds n m)
    (ho : ∀ v, o = some v → Seen (fun k => h.listing k d) v.value v.asOf n) : h.Holds n (m.setDir d o) := by
  refine ⟨hi.metas, fun q v hv => ?_, hi.blocks, hi.calls, hi.threads, hi.chunks⟩
  simp only [Mount.setDir, Function.update_apply] at hv
  split at hv
  · rename_i hq
    exact hq ▸ ho v hv
  · exact hi.dirs q v hv

theorem Holds.answered {t : Nat} {c : NameCall} {a : Answer} (hi : h.Holds m.now m) (hc : m.calls t = some c)
    (ha : h.Answers m (.answer t a)) (hs : m.answered t c a = some m') : h.Holds m.now m' := by
  unfold Mount.answered at hs
  split at hs
  · rename_i p v
    cases hs
    refine hi.goOn ?_
    rintro _ ⟨⟩ x hx
    obtain rfl := List.mem_singleton.1 hx
    exact seen_now (ha p hc)
  · cases hs
    refine hi.goOn ?_
    rintro _ ⟨⟩
    trivial
  · rename_i d es
    cases hs
    refine hi.goOn ?_
    rintro _ ⟨⟩
    exact ⟨seen_now (ha d hc), fun x hx => seen_now (h.listed _ d es (ha d hc) x hx)⟩
  · exact absurd (hi.calls t _ hc) id
  · exact absurd (hi.calls t _ hc) id
  · cases hs

theorem Holds.goOnWith {t : Nat} {clock : Int} {c : NameCall} (hi : h.Holds n m) (hc : m.calls t = some c)
    (hs : m.goOnWith t clock c = some m') : h.Holds n m' := by
  have hcalled := hi.calls t c hc
  unfold Mount.goOnWith at hs
  split at hs
  · cases hs
    exact (hi.setMeta (by simp)).goOn (by simp)
  · rename_i d asOf es
    cases hs
    refine (hi.setDir ?_).goOn ?_
    · rintro _ ⟨⟩
      exact hcalled.1
    · rintro _ ⟨⟩ y hy
      obtain ⟨x, hx, rfl⟩ := List.mem_map.1 hy
      exact hcalled.2 x hx
  · cases hs
    exact hi.goOn (by simp)
  · rename_i asOf p v rest
    cases hs
    refine hi.goOn ?_
    rintro _ ⟨⟩
    split
    · exact fun x hx => hcalled x (List.mem_cons_of_mem _ hx)
    · exact hcalled
  · rename_i asOf p v rest
    cases hs
    refine hi.goOn ?_
    rintro _ ⟨⟩
    split
    · exact fun x hx => hcalled x (List.mem_cons_of_mem _ hx)
    · exact hcalled
  · rename_i asOf looked p v rest
    cases hs
    refine (hi.setMeta ?_).goOn ?_
    · rintro _ ⟨⟩
      exact hcalled (p, v) List.mem_cons_self
    · rintro _ ⟨⟩ x hx
      exact hcalled x (List.mem_cons_of_mem _ hx)
  all_goals first | exact absurd hcalled id | cases hs

/-- The thread that a step of the block cache moves on. -/
theorem fetched_goOnWith {c c' : BlockCache} {t : Nat} {reply : Option (List Bytes)} {f : Fetch} (hf : h.Fetched n f)
    (hreply : ∀ job g started frames, f = .reading job g started → reply = some frames →
      ∀ i b, (BlockCache.FetchJob.blocks job frames)[i]? = some b →
        Seen (fun k => h.block k (job.path, job.first + i)) b started n)
    (hs : c.goOnWith t reply f = some c') :
    ∃ next, c'.threads = Function.update c.threads t next ∧ ∀ f', next = some f' → h.Fetched n f' := by
  cases f with
  | lookup key =>
    cases hs
    refine ⟨_, rfl, fun x hx => ?_⟩
    simp only [Option.ite_none_left_eq_some, Option.some.injEq] at hx
    rw [← hx.2]
    trivial
  | join key =>
    simp only [BlockCache.goOnWith] at hs
    split at hs
    · cases hs
      exact ⟨_, rfl, by rintro _ ⟨⟩; trivial⟩
    · cases hs
      exact ⟨_, rfl, by rintro _ ⟨⟩; trivial⟩
  | wait flight key =>
    simp only [BlockCache.goOnWith, Option.ite_none_right_eq_some, Option.some.injEq] at hs
    rw [← hs.2]
    exact ⟨_, rfl, by rintro _ ⟨⟩; trivial⟩
  | lookupAgain key =>
    cases hs
    refine ⟨_, rfl, fun x hx => ?_⟩
    simp only [Option.ite_none_left_eq_some, Option.some.injEq] at hx
    rw [← hx.2]
    trivial
  | readAlone key =>
    cases hs
    exact ⟨none, rfl, by simp⟩
  | register path first count =>
    cases hs
    refine ⟨_, rfl, fun x hx => ?_⟩
    simp only [Option.ite_none_left_eq_some, Option.some.injEq] at hx
    rw [← hx.2]
    trivial
  | generation job =>
    cases hs
    exact ⟨_, rfl, by rintro _ ⟨⟩; trivial⟩
  | read job g =>
    cases hs
    exact ⟨_, rfl, by rintro _ ⟨⟩; trivial⟩
  | reading job g started =>
    simp only [BlockCache.goOnWith] at hs
    split at hs
    · cases hs
      refine ⟨_, rfl, ?_⟩
      rintro _ ⟨⟩ i b hb
      rw [Nat.zero_add]
      exact hreply job g started _ rfl rfl i b hb
    · cases hs
      exact ⟨_, rfl, by rintro _ ⟨⟩; trivial⟩
  | insert job g started position blocks =>
    cases blocks with
    | nil =>
      cases hs
      exact ⟨_, rfl, by rintro _ ⟨⟩; trivial⟩
    | cons b bs =>
      cases hs
      refine ⟨_, rfl, ?_⟩
      rintro _ ⟨⟩ i b' hb
      -- The rest of the blocks stand one place further on.
      have := hf (i + 1) b' (by rwa [List.getElem?_cons_succ])
      rwa [show position + (i + 1) = position + 1 + i by omega] at this
  | finish job =>
    cases hs
    exact ⟨_, rfl, by rintro _ ⟨⟩; trivial⟩
  | signal flights =>
    cases hs
    exact ⟨none, rfl, by simp⟩
  | tree d paths =>
    cases hs
    exact ⟨none, rfl, by simp⟩

theorem Holds.cache {a : CacheAct} {c : BlockCache} (hi : h.Holds m.now m) (ha : h.Answers m (.cache a))
    (hs : m.cache.step a = some c) : h.Holds m.now { m with cache := c } := by
  have hmoves := BlockCache.step_moves hs
  refine ⟨hi.metas, hi.dirs, fun k b hb => ?_, hi.calls, ?_, hi.chunks⟩
  · cases hmoves.store with
    | same hblock => exact hi.blocks k b (hblock k ▸ hb)
    | shrink hblock =>
      rcases hblock k with hk | hk
      · exact hi.blocks k b (hk ▸ hb)
      · exact absurd (hk ▸ hb) (by simp)
    | insert t job g started position b' bs ht hst =>
      have hb : c.store.block k = some b := hb
      rw [hst] at hb
      rcases BlockStore.block_insert hb with hb | ⟨rfl, rfl, -⟩
      · exact hi.blocks k b hb
      · exact hi.threads t _ ht 0 b' rfl
  · obtain ⟨c1, h1, rfl⟩ := Option.map_eq_some_iff.1 hs
    have hcall : ∀ {t : Nat} {f : Fetch}, h.Fetched m.now f → m.cache.call t f = some c1 →
        ∀ u f', c1.threads u = some f' → h.Fetched m.now f' := by
      intro t f hf hcall u f' hu
      unfold BlockCache.call at hcall
      split at hcall
      · cases hcall
        simp only [BlockCache.goOn, Function.update_apply] at hu
        split at hu
        · cases hu
          exact hf
        · exact hi.threads u f' hu
      · cases hcall
    cases a with
    | fetch t path index => exact hcall (f := .lookup (path, index)) trivial h1
    | fetchRun t path first count => exact hcall (f := .register path first count) trivial h1
    | invalidateTree t path => exact hcall (f := .tree path _) trivial h1
    | get path index =>
      cases h1
      exact hi.threads
    | invalidateRange path offset len =>
      cases h1
      exact hi.threads
    | invalidatePath path =>
      cases h1
      exact hi.threads
    | clear =>
      cases h1
      exact hi.threads
    | run t reply =>
      obtain ⟨f, hf, h1⟩ := Option.bind_eq_some_iff.1 h1
      obtain ⟨next, hth, hnext⟩ := fetched_goOnWith (hi.threads t f hf) (by
        rintro job g started frames rfl rfl
        exact ha job g started hf) h1
      intro u f' hu
      have hu : c1.threads u = some f' := hu
      rw [hth, Function.update_apply] at hu
      split at hu
      · exact hnext f' hu
      · exact hi.threads u f' hu

theorem fewer_sweep (m : Mount) (e : FeedEvent) (rest : List Sweep) (w : Sweep) : m.Fewer (m.sweep e rest w) := by
  have hdrop : ∀ {α : Type} {o : Option α} {c : Prop} [Decidable c] {v : α}, (if c then none else o) = some v → o = some v := by
    intro α o c _ v hv
    split at hv
    · cases hv
    · exact hv
  have hstore : ∀ paths keep k b, (m.cache.store.invalidateWhere paths keep).block k = some b →
      m.cache.store.block k = some b := by
    intro paths keep k b hb
    rw [BlockStore.block_invalidateWhere] at hb
    exact hdrop hb
  cases w with
  | entry p => exact ⟨fun q v hv => hdrop (by simpa [Mount.sweep, Mount.setMeta, Function.update_apply] using hv),
      fun _ _ => id, fun _ _ => id, rfl, rfl, rfl⟩
  | metasUnder p => exact ⟨fun q v hv => hdrop hv, fun _ _ => id, fun _ _ => id, rfl, rfl, rfl⟩
  | dirsUnder p => exact ⟨fun _ _ => id, fun q v hv => hdrop hv, fun _ _ => id, rfl, rfl, rfl⟩
  | range p offset len => exact ⟨fun _ _ => id, fun _ _ => id, hstore _ _, rfl, rfl, rfl⟩
  | collect p => exact ⟨fun _ _ => id, fun _ _ => id, fun _ _ => id, rfl, rfl, rfl⟩
  | bump p paths => exact ⟨fun _ _ => id, fun _ _ => id, hstore _ _, rfl, rfl, rfl⟩
  | unlist d => exact ⟨fun _ _ => id, fun q v hv => hdrop (by simpa [Mount.sweep, Mount.setDir, Function.update_apply] using hv),
      fun _ _ => id, rfl, rfl, rfl⟩

theorem Holds.act {a : MountAct} (hi : h.Holds m.now m) (ha : h.Answers m a) (hs : m.act ignore a = some m') :
    h.Holds m.now m' := by
  have hcall : ∀ {t : Nat} {c : NameCall}, h.Called m.now c → m.call t c = some m' → h.Holds m.now m' := by
    intro t c hc hcall
    unfold Mount.call at hcall
    split at hcall <;> cases hcall
    exact hi.goOn (by rintro _ ⟨⟩; exact hc)
  cases a with
  | stat t p => exact hcall (c := .stat p) trivial hs
  | listDir t d => exact hcall (c := .list d) trivial hs
  | setattr t p todo => exact absurd ha id
  | write t c => exact absurd ha id
  | answer t a =>
    obtain ⟨c, hc, hs⟩ := Option.bind_eq_some_iff.1 hs
    exact hi.answered hc ha hs
  | fails t =>
    obtain ⟨c, -, rfl⟩ := Option.map_eq_some_iff.1 hs
    exact hi.goOn (by simp)
  | run t clock =>
    obtain ⟨c, hc, hs⟩ := Option.bind_eq_some_iff.1 hs
    exact hi.goOnWith hc hs
  | change e =>
    cases hs
    exact hi.fewer (Nat.le_refl _) ⟨fun _ _ => id, fun _ _ => id, fun _ _ => id, rfl, rfl, rfl⟩
  | feed =>
    refine hi.fewer (Nat.le_refl _) ?_
    simp only [Mount.act] at hs
    split at hs
    · split at hs <;> cases hs <;> exact ⟨fun _ _ => id, fun _ _ => id, fun _ _ => id, rfl, rfl, rfl⟩
    · cases hs
  | feedRun =>
    obtain ⟨f, -, rfl⟩ := Option.map_eq_some_iff.1 hs
    refine hi.fewer (Nat.le_refl _) ?_
    cases f with
    | lookBuffers e =>
      simp only [Mount.feedNext]
      split <;> exact ⟨fun _ _ => id, fun _ _ => id, fun _ _ => id, rfl, rfl, rfl⟩
    | lookUploads e =>
      simp only [Mount.feedNext]
      split <;> exact ⟨fun _ _ => id, fun _ _ => id, fun _ _ => id, rfl, rfl, rfl⟩
    | sweeping e todo =>
      cases todo with
      | nil => exact ⟨fun _ _ => id, fun _ _ => id, fun _ _ => id, rfl, rfl, rfl⟩
      | cons w rest => exact fewer_sweep m e rest w
  | place i dst =>
    simp only [Mount.act, hi.chunks] at hs
    cases hs
  | complete i =>
    simp only [Mount.act, hi.chunks] at hs
    cases hs
  | cache a =>
    obtain ⟨c, hc, rfl⟩ := Option.map_eq_some_iff.1 hs
    exact hi.cache ha hc

theorem Holds.step {a : MountAct} (hi : h.Holds m.now m) (ha : h.Answers m a) (hs : m.step ignore a = some m') :
    h.Holds m'.now m' := by
  rw [Mount.step_now hs]
  obtain ⟨m1, h1, rfl⟩ := Option.map_eq_some_iff.1 hs
  exact (hi.act ha h1).fewer (Nat.le_succ _) ⟨fun _ _ => id, fun _ _ => id, fun _ _ => id, rfl, rfl, rfl⟩

/-! ## Steps of the feed thread and of `start` -/

/-- The other threads of the mount do not write, and are answered right. -/
def Thread (h : History) (s : FeedThread) : FeedThreadAct → Prop
  | .mount a => h.Answers s.mount a
  | _ => True

theorem Holds.thread {client : Nat} {s s' : FeedThread} {a : FeedThreadAct} (hi : h.Holds s.mount.now s.mount)
    (ha : h.Thread s a) (hs : s.step ignore client a = some s') : h.Holds s'.mount.now s'.mount := by
  have htick : h.Holds s.mount.tick.now s.mount.tick :=
    hi.fewer (Nat.le_succ _) ⟨fun _ _ => id, fun _ _ => id, fun _ _ => id, rfl, rfl, rfl⟩
  have hreplied : ∀ r, h.Holds (s.replied client r).mount.now (s.replied client r).mount := by
    intro r
    unfold FeedThread.replied
    split
    · exact htick
    · exact htick.fewer (Nat.le_refl _) ⟨fun _ _ => id, fun _ _ => id, fun _ _ => id, rfl, rfl, rfl⟩
  cases a with
  | mount a =>
    simp only [FeedThread.step] at hs
    split at hs
    · cases hs
    · obtain ⟨m, hm, rfl⟩ := Option.map_eq_some_iff.1 hs
      exact hi.step ha hm
  | record a made =>
    simp only [FeedThread.step] at hs
    split at hs <;> cases hs
    exact htick
  | restart epoch =>
    simp only [FeedThread.step] at hs
    split at hs <;> cases hs
    exact htick
  | fails =>
    simp only [FeedThread.step] at hs
    split at hs <;> cases hs <;> exact htick
  | poll live expired =>
    simp only [FeedThread.step] at hs
    split at hs
    · split at hs
      · cases hs
        exact hreplied _
      · split at hs <;> cases hs
        · exact hreplied _
        · exact htick
    · cases hs
  | wake live expired =>
    simp only [FeedThread.step] at hs
    split at hs
    · split at hs
      · split at hs <;> cases hs
        · exact hreplied _
        · exact htick
      · cases hs
    · cases hs
  | run =>
    simp only [FeedThread.step] at hs
    split at hs
    · split at hs
      · cases hs
        exact htick
      · obtain ⟨m, hm, rfl⟩ := Option.map_eq_some_iff.1 hs
        refine hi.step ?_ hm
        unfold FeedThread.nextFeed
        split <;> trivial
    · cases hs
      exact htick
    · rename_i r c rest hl
      cases hs
      cases c with
      | pending => exact htick
      | metas kept =>
        refine htick.fewer (Nat.le_refl _) ⟨fun q v hv => ?_, fun _ _ => id, fun _ _ => id, rfl, rfl, rfl⟩
        simp only [FeedThread.clear, Mount.retain, Mount.tick] at hv
        split at hv
        · exact hv
        · cases hv
      | dirs =>
        refine htick.fewer (Nat.le_refl _) ⟨fun _ _ => id, fun _ _ hv => ?_, fun _ _ => id, rfl, rfl, rfl⟩
        cases hv
      | blocks =>
        refine htick.fewer (Nat.le_refl _) ⟨fun _ _ => id, fun _ _ => id, fun k b hb => ?_, rfl, rfl, rfl⟩
        have hb : s.mount.cache.store.clear.block k = some b := hb
        rw [BlockStore.block_clear] at hb
        cases hb
    · cases hs

/-- Nothing is written, and what comes in says what the remote had, as far as that has not
changed since the request. -/
def Says (h : History) (s : MountRun) : MountRunAct → Prop
  | .thread a => h.Thread s.thread a
  | .snapshot entries complete => ∀ asked, s.phase = .listing asked →
      (∀ q v, entries[q]? = some v → Seen (fun k => h.entry k q) v asked s.thread.mount.now) ∧
      ∀ d ∈ complete, Seen (fun k => h.listing k d) (listedUnder entries d) asked s.thread.mount.now
  | .files files => ∀ asked, s.phase = .prefetching asked →
      ∀ f ∈ files, Seen (fun k => h.block k (f.1, 0)) f.2 asked s.thread.mount.now
  | _ => True

theorem Holds.load {asked : Nat} {entries : Snapshot} {complete : List String} (hi : h.Holds n m)
    (hentries : ∀ q v, entries[q]? = some v → Seen (fun k => h.entry k q) v asked n)
    (hcomplete : ∀ d ∈ complete, Seen (fun k => h.listing k d) (listedUnder entries d) asked n) :
    h.Holds n (m.load asked entries complete) := by
  refine ⟨fun q v hv => ?_, fun d v hv => ?_, hi.blocks, hi.calls, hi.threads, hi.chunks⟩
  · obtain ⟨e, he, rfl⟩ := Option.map_eq_some_iff.1 hv
    exact hentries q e he
  · simp only [Mount.load] at hv
    split at hv
    · rename_i hd
      cases hv
      exact hcomplete d hd
    · cases hv

theorem Holds.prefetch {asked : Nat} {files : List (String × Bytes)} (hi : h.Holds n m)
    (hfiles : ∀ f ∈ files, Seen (fun k => h.block k (f.1, 0)) f.2 asked n) : h.Holds n (m.prefetch asked files) := by
  refine ⟨hi.metas, hi.dirs, ?_, hi.calls, hi.threads, hi.chunks⟩
  have hblocks := hi.blocks
  show ∀ k b, (files.foldl (fun st f => st.insert (f.1, 0) ⟨f.2, asked⟩ 0) m.cache.store).block k = some b → _
  generalize m.cache.store = st at hblocks ⊢
  induction files generalizing st with
  | nil => exact hblocks
  | cons f files ih =>
    refine ih (fun g hg => hfiles g (List.mem_cons_of_mem _ hg)) _ fun k b hb => ?_
    rcases BlockStore.block_insert hb with hb | ⟨rfl, rfl, -⟩
    · exact hblocks k b hb
    · exact hfiles f List.mem_cons_self

theorem Holds.runStep {client : Nat} {s s' : MountRun} {a : MountRunAct} (hi : h.Holds s.thread.mount.now s.thread.mount)
    (ha : h.Says s a) (hs : s.step ignore client a = some s') : h.Holds s'.thread.mount.now s'.thread.mount := by
  have htick : ∀ {m : Mount}, h.Holds m.now m → h.Holds m.tick.now m.tick := fun hm =>
    hm.fewer (Nat.le_succ _) ⟨fun _ _ => id, fun _ _ => id, fun _ _ => id, rfl, rfl, rfl⟩
  cases a with
  | thread a =>
    simp only [MountRun.step] at hs
    split at hs
    · obtain ⟨t, ht, rfl⟩ := Option.map_eq_some_iff.1 hs
      exact hi.thread ha ht
    · cases hs
  | snapshot entries complete =>
    simp only [MountRun.step] at hs
    split at hs <;> cases hs
    rename_i asked hp
    obtain ⟨hentries, hcomplete⟩ := ha asked hp
    exact htick (hi.load hentries hcomplete)
  | files files =>
    simp only [MountRun.step] at hs
    split at hs <;> cases hs
    rename_i asked hp
    exact htick (hi.prefetch (ha asked hp))
  | _ =>
    simp only [MountRun.step] at hs
    split at hs <;> cases hs
    exact htick hi

theorem holds_start (h : History) (capacity epoch : Nat) :
    h.Holds 0 (MountRun.start capacity epoch).thread.mount := by
  refine ⟨fun q v hv => ?_, fun d v hv => ?_, fun k b hb => ?_, fun t c hc => ?_, fun t f hf => ?_, rfl⟩
  · cases hv
  · cases hv
  · have hb : (Mount.unmounted capacity).cache.store.block k = some b := hb
    have hd : (Mount.unmounted capacity).Dates (.block k) b.readAt := .inl (by simp [Mount.cachedAt, hb])
    exact absurd hd (Mount.unmounted_dates capacity _ _)
  · cases hc
  · cases hf

/-- What the mount has for the place, if anything, is what the remote has. -/
def Matches (h : History) (m : Mount) : Item → Prop
  | .entry q => ∀ v, m.metas q = some v → h.entry m.now q = some v.value
  | .listing d => ∀ v, m.dirs d = some v → h.listing m.now d = some v.value
  | .block k => ∀ b, m.cache.store.block k = some b → h.block m.now k = some b.data

section Rest
variable {h : History} {ignore : List String} {client capacity epoch : Nat} {s : MountRun} {as : List MountRunAct}

/-- What the invariants say in every run. -/
theorem run_holds
    (hg : Guarded (MountRun.step ignore client) (fun s a => s.Guard ignore client a ∧ h.Says s a) (.start capacity epoch) as)
    (hs : exec (MountRun.step ignore client) (.start capacity epoch) as = some s) :
    StartInv client s ∧ h.Holds s.thread.mount.now s.thread.mount :=
  exec_guarded_inv (fun s => StartInv client s ∧ h.Holds s.thread.mount.now s.thread.mount)
    (fun _ _ _ hi hg hs => ⟨hi.1.step hg.1 hs, hi.2.runStep hg.2 hs⟩)
    ⟨startInv_start client capacity epoch, h.holds_start capacity epoch⟩ hg hs

/-- No value in the place is older than a change, if the cursor is past all of them. -/
theorem Holds.fresh {x : Item} (hi : StartInv client s) (hv : h.Holds s.thread.mount.now s.thread.mount)
    (hlast : s.thread.last.1 = s.thread.epoch)
    (hpast : ∀ k < s.thread.mount.now, ¬ h.Same k (k + 1) x →
      ∃ e ∈ s.thread.known client s.thread.last.2, k < e.madeAt ∧ EventNames e x) : h.Matches s.thread.mount x := by
  have hfresh : ∀ d, s.thread.mount.cachedAt x = some d → ∀ k, k < s.thread.mount.now → ¬ h.Same k (k + 1) x → k < d := by
    intro d hd k hk hne
    obtain ⟨e, he, hmade, hx⟩ := hpast k hk hne
    rcases hi.past.past hlast e he x hx with hf | hc
    · have := hf d (.inl hd)
      omega
    · cases x with
      | block key =>
        obtain ⟨c, pl, hmem, -⟩ := hc
        rw [hv.chunks] at hmem
        cases hmem
      | entry q => exact absurd hc id
      | listing q => exact absurd hc id
  cases x with
  | entry q => exact fun v hq => (hv.metas q v hq).fresh (hfresh _ (by simp [Mount.cachedAt, hq]))
  | listing d => exact fun v hd => (hv.dirs d v hd).fresh (hfresh _ (by simp [Mount.cachedAt, hd]))
  | block k => exact fun b hb => (hv.blocks k b hb).fresh (hfresh _ (by simp [Mount.cachedAt, hb]))

end Rest

end History

/-- Where every change so far of what the remote has in a place is one that the feed cursor
is past, a mount that nothing is written through has in that place what the remote has now. -/
theorem at_rest_matches_remote (h : History) (ignore : List String) (client capacity epoch : Nat) (s : MountRun)
    (as : List MountRunAct)
    (hg : Guarded (MountRun.step ignore client) (fun s a => s.Guard ignore client a ∧ h.Says s a) (.start capacity epoch) as)
    (hs : exec (MountRun.step ignore client) (.start capacity epoch) as = some s)
    (hlast : s.thread.last.1 = s.thread.epoch) (x : Item)
    (hpast : ∀ k < s.thread.mount.now, ¬ h.Same k (k + 1) x →
      ∃ e ∈ s.thread.known client s.thread.last.2, e.madeAt = k + 1 ∧ EventNames e x) : h.Matches s.thread.mount x := by
  obtain ⟨hi, hv⟩ := History.run_holds hg hs
  refine hv.fresh hi hlast fun k hk hne => ?_
  obtain ⟨e, he, hmade, hx⟩ := hpast k hk hne
  exact ⟨e, he, by omega, hx⟩

/-! ## A file that another client has made -/

/-- The file comes into being at time 1. -/
def aFileFromOne : History where
  entry := fun k q => if q = "f" ∧ 1 ≤ k then some Mount.aFile else none
  listing := fun _ _ => none
  block := fun _ _ => none
  listed := fun k d es h => by cases h

/-- A change of its own, and then the other client's, which is in the snapshot. -/
def startsAfter : List MountRunAct :=
  [.thread (.record (.record 0 none 7 "g" .metadata) 0), .thread (.record (.record 0 none 9 "f" .replaced) 1),
    .watch true, .askSnapshot, .snapshot ((∅ : Snapshot).insert "f" Mount.aFile) [], .askFiles, .files []]

/-- What the run does, and that the snapshot is asked for in time. -/
def afterOne (s : MountRun) : MountRunAct → Bool
  | .snapshot _ _ =>
    match s.phase with
    | .listing asked => 1 ≤ asked && asked ≤ s.thread.mount.now
    | _ => true
  | _ => true

theorem guarded_startsAfter : Guarded (MountRun.step [] 7) (fun s a => s.Guard [] 7 a ∧ aFileFromOne.Says s a) (.start 0 0)
    startsAfter := by
  refine guarded_of_checkRun (fun _ => True) (· ∈ startsAfter) afterOne (fun _ _ _ _ _ _ => trivial) ?_ trivial
    (fun _ => id) (by decide)
  intro s a _ ha hok
  simp only [startsAfter, List.mem_cons, List.not_mem_nil, or_false] at ha
  rcases ha with rfl | rfl | rfl | rfl | rfl | rfl | rfl
  · exact ⟨trivial, trivial⟩
  · exact ⟨trivial, trivial⟩
  · exact ⟨trivial, trivial⟩
  · exact ⟨trivial, trivial⟩
  · refine ⟨trivial, fun asked hp => ⟨fun q v hq => ?_, by simp⟩⟩
    simp only [afterOne, hp, Bool.and_eq_true, decide_eq_true_eq] at hok
    rw [Std.ExtTreeMap.getElem?_insert] at hq
    split at hq
    · rename_i hf
      cases hq
      obtain rfl : "f" = q := by simpa using hf
      exact ⟨hok.2, fun _ => by simp [aFileFromOne, hok.1]⟩
    · simp at hq
  · exact ⟨trivial, trivial⟩
  · exact ⟨trivial, fun asked hp f hf => by cases hf⟩

theorem at_rest_matches_remote_snapshot : ∃ s v, exec (MountRun.step [] 7) (.start 0 0) startsAfter = some s ∧
    s.thread.mount.metas "f" = some v ∧ aFileFromOne.entry s.thread.mount.now "f" = some v.value := by
  have hrun : (exec (MountRun.step [] 7) (.start 0 0) startsAfter).any fun s =>
      s.thread.last.1 = s.thread.epoch && (s.thread.mount.metas "f").isSome &&
        decide (s.thread.known 7 s.thread.last.2 = [⟨⟨"f", .replaced⟩, 1⟩]) := by
    decide
  obtain ⟨s, hs, hrun⟩ := (Option.any_eq_true _ _).1 hrun
  simp only [Bool.and_eq_true, decide_eq_true_eq] at hrun
  obtain ⟨⟨hlast, hmeta⟩, hknown⟩ := hrun
  obtain ⟨v, hv⟩ := Option.isSome_iff_exists.1 hmeta
  refine ⟨s, v, hs, hv, at_rest_matches_remote aFileFromOne [] 7 0 0 s _ guarded_startsAfter hs hlast (.entry "f") ?_ v hv⟩
  intro k _ hne
  refine ⟨⟨⟨"f", .replaced⟩, 1⟩, by simp [hknown], ?_, .metasUnder "f", List.mem_cons_self, by simp [Sweep.Clears, BlockStore.under]⟩
  -- Only from time 0 to time 1 is there a change.
  show 1 = k + 1
  by_contra hk
  refine hne ?_
  have hk : 1 ≤ k := by omega
  simp [History.Same, aFileFromOne, hk]

end Mobfs
