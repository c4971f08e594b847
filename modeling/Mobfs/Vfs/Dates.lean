import Mobfs.Vfs.NameCache
/-!
# The dates of what is cached and of what is under way

`Dates s x a`: in place `x` of a cache stands a value of date `a`, or a call under
way may yet put one there. A step makes no other date than the present one
(`step_dates`), so a place that is free of old dates stays so.
-/

namespace Mobfs

open Lib

/-- A place of a cache. -/
inductive Item where
  | entry (p : String)
  | listing (d : String)
  | block (key : BlockKey)

/-- The call has an answer of that date and may yet put it into the place. -/
def NameCall.Holds : NameCall → Item → Nat → Prop
  | .put asOf _ todo, .entry q, a => a = asOf ∧ ∃ m, (q, m) ∈ todo
  | .listed d asOf entries, .entry q, a => a = asOf ∧ ∃ x ∈ entries, joinRel d x.1 = q
  | .listed d asOf _, .listing d', a => a = asOf ∧ d' = d
  | .invalidate p _ asOf _, .entry q, a => a = asOf ∧ q = p
  | .edit p _ asOf _, .entry q, a => a = asOf ∧ q = p
  | _, _, _ => False

namespace Mount

variable {ignore : List String} {s s' : Mount}

def cachedAt (s : Mount) : Item → Option Nat
  | .entry q => (s.metas q).map (·.asOf)
  | .listing d => (s.dirs d).map (·.asOf)
  | .block k => (s.cache.store.block k).map (·.readAt)

/-- A call under way may put a value of that date into the place. -/
def Held (s : Mount) : Item → Nat → Prop
  | .block k, a => ∃ t f g, s.cache.threads t = some f ∧ f.inserting = some (k.1, g, a) ∧ g = s.cache.store.generations k.1
  | x, a => ∃ t c, s.calls t = some c ∧ c.Holds x a

def Dates (s : Mount) (x : Item) (a : Nat) : Prop := s.cachedAt x = some a ∨ s.Held x a

/-! ## What a step can do -/

/-- The steps of other clients and of the feed thread. -/
def OfFeed : MountAct → Prop
  | .change _ => True
  | .feed => True
  | .feedRun => True
  | _ => False

/-- What a step does, the time apart: a call starts, is answered or fails, or enters its
next critical section; the feed moves on or clears places; a chunk moves on; or the
block cache takes a step. -/
inductive ActStep (s s' : Mount) (a : MountAct) : Prop
  | turns (t : Nat) (next : Option NameCall) (hnext : ∀ n x d, next = some n → n.Holds x d → d = s.now)
      (hs' : s' = s.goOn t next)
  | runs (t : Nat) (clock : Int) (c : NameCall) (hc : s.calls t = some c) (hs' : s.goOnWith t clock c = some s')
  | feeds (ha : OfFeed a) (queue applied passedOver : List FeedEvent) (feeding : Option Feeding)
      (hs' : s' = { s with queue, applied, passedOver, feeding })
  | sweeps (ha : OfFeed a) (e : FeedEvent) (rest : List Sweep) (w : Sweep) (hs' : s' = s.sweep e rest w)
  | places (i : Nat) (c : Chunk) (src dst : ChunkPlace) (hi : s.chunks[i]? = some (c, src))
      (hs' : s' = { if dst = .ended then s.withStore (s.cache.store.invalidateRange c.path c.offset c.len) else s with
        chunks := s.chunks.set i (c, dst) })
  | completes (i : Nat) (c : Chunk) (hi : s.chunks[i]? = some (c, .ended))
      (hs' : s' = { s with chunks := s.chunks.eraseIdx i })
  | cache (b : CacheAct) (cache : BlockCache) (hb : s.cache.step b = some cache) (hs' : s' = { s with cache })

theorem actStep_call {a : MountAct} {t : Nat} {c : NameCall} (hc : ∀ x d, ¬ c.Holds x d) (h : s.call t c = some s') :
    ActStep s s' a := by
  unfold call at h
  split at h
  · cases h
    refine .turns t (some c) (fun n x d hn hh => ?_) rfl
    cases hn
    exact absurd hh (hc x d)
  · cases h

theorem actStep_answered {b : MountAct} {t : Nat} {c : NameCall} {a : Answer} (h : s.answered t c a = some s') :
    ActStep s s' b := by
  unfold answered at h
  split at h
  case h_6 => cases h
  all_goals
    cases h
    refine .turns t _ (fun n x d hn hh => ?_) rfl
    cases hn
    cases x <;> simp_all [NameCall.Holds]

theorem actStep_feedNext {f : Feeding} : ActStep s (s.feedNext f) .feedRun := by
  cases f with
  | lookBuffers e =>
    simp only [feedNext]
    split <;> exact .feeds trivial _ _ _ _ rfl
  | lookUploads e =>
    simp only [feedNext]
    split <;> exact .feeds trivial _ _ _ _ rfl
  | sweeping e todo =>
    cases todo with
    | nil => exact .feeds trivial _ _ _ _ rfl
    | cons w rest => exact .sweeps trivial e rest w rfl

theorem act_cases {a : MountAct} (h : s.act ignore a = some s') : ActStep s s' a := by
  cases a with
  | stat t p => exact actStep_call (fun x d => by cases x <;> exact id) h
  | listDir t d => exact actStep_call (fun x d => by cases x <;> exact id) h
  | setattr t p todo => exact actStep_call (fun x d => by cases x <;> exact id) h
  | write t c => exact actStep_call (fun x d => by cases x <;> exact id) h
  | answer t a =>
    obtain ⟨c, -, h⟩ := Option.bind_eq_some_iff.1 h
    exact actStep_answered h
  | fails t =>
    obtain ⟨c, -, rfl⟩ := Option.map_eq_some_iff.1 h
    exact .turns t none (by simp) rfl
  | run t clock =>
    obtain ⟨c, hc, h⟩ := Option.bind_eq_some_iff.1 h
    exact .runs t clock c hc h
  | change e =>
    cases h
    exact .feeds trivial _ _ _ _ rfl
  | feed =>
    simp only [act] at h
    split at h
    · split at h <;> cases h <;> exact .feeds trivial _ _ _ _ rfl
    · cases h
  | feedRun =>
    obtain ⟨f, -, rfl⟩ := Option.map_eq_some_iff.1 h
    exact actStep_feedNext
  | place i dst =>
    simp only [act] at h
    split at h
    · rename_i c src hi
      split at h
      · cases h
        exact .places i c src dst hi rfl
      · cases h
    · cases h
  | complete i =>
    simp only [act] at h
    split at h
    · rename_i c hi
      cases h
      exact .completes i c hi rfl
    · cases h
  | cache b =>
    obtain ⟨c, hc, rfl⟩ := Option.map_eq_some_iff.1 h
    exact .cache b c hc rfl

/-- What a step does to entries, listings and the calls that fill them. -/
structure NameMoves (s s' : Mount) : Prop where
  metas : ∀ q v, s'.metas q = some v → s.Dates (.entry q) v.asOf ∨ v.asOf = s.now
  dirs : ∀ d v, s'.dirs d = some v → s.Dates (.listing d) v.asOf ∨ v.asOf = s.now
  calls : ∀ t c x a, s'.calls t = some c → c.Holds x a → (∃ c', s.calls t = some c' ∧ c'.Holds x a) ∨ a = s.now

theorem dates_metas {q : String} {v : Dated EntryMeta} (h : s.metas q = some v) : s.Dates (.entry q) v.asOf :=
  .inl (by simp [cachedAt, h])

theorem dates_dirs {d : String} {v : Dated (List (String × EntryMeta))} (h : s.dirs d = some v) :
    s.Dates (.listing d) v.asOf :=
  .inl (by simp [cachedAt, h])

/-- A step that takes values out and leaves the calls alone. -/
theorem nameMoves_shrink (hm : ∀ q, s'.metas q = s.metas q ∨ s'.metas q = none)
    (hd : ∀ d, s'.dirs d = s.dirs d ∨ s'.dirs d = none) (hc : s'.calls = s.calls) : NameMoves s s' := by
  refine ⟨fun q v hv => .inl ?_, fun d v hv => .inl ?_, fun t c x a ht hh => .inl ⟨c, by rwa [hc] at ht, hh⟩⟩
  · rcases hm q with h | h
    · exact dates_metas (h ▸ hv)
    · rw [h] at hv
      cases hv
  · rcases hd d with h | h
    · exact dates_dirs (h ▸ hv)
    · rw [h] at hv
      cases hv

/-- A step of one call: `s₁` has what it does to the caches. -/
theorem nameMoves_goOn {s₁ : Mount} {t : Nat} {next : Option NameCall} (h : NameMoves s s₁)
    (hnext : ∀ n x a, next = some n → n.Holds x a → (∃ c, s.calls t = some c ∧ c.Holds x a) ∨ a = s.now) :
    NameMoves s (s₁.goOn t next) := by
  refine ⟨h.metas, h.dirs, fun u c x a hu hh => ?_⟩
  by_cases e : u = t
  · subst e
    exact hnext c x a (by simpa [goOn] using hu) hh
  · exact h.calls u c x a (by simpa [goOn, Function.update_of_ne e] using hu) hh

theorem nameMoves_refl (s : Mount) : NameMoves s s :=
  nameMoves_shrink (fun _ => .inl rfl) (fun _ => .inl rfl) rfl

theorem nameMoves_setMeta {p : String} {v : Option (Dated EntryMeta)}
    (hv : ∀ m, v = some m → s.Dates (.entry p) m.asOf ∨ m.asOf = s.now) : NameMoves s (s.setMeta p v) := by
  refine ⟨fun q m hm => ?_, fun d m hm => .inl (dates_dirs hm), fun t c x a ht hh => .inl ⟨c, ht, hh⟩⟩
  by_cases e : q = p
  · subst e
    exact hv m (by simpa [setMeta] using hm)
  · exact .inl (dates_metas (by simpa [setMeta, Function.update_of_ne e] using hm))

theorem nameMoves_setDir {d : String} {v : Option (Dated (List (String × EntryMeta)))}
    (hv : ∀ m, v = some m → s.Dates (.listing d) m.asOf ∨ m.asOf = s.now) : NameMoves s (s.setDir d v) := by
  refine ⟨fun q m hm => .inl (dates_metas hm), fun d' m hm => ?_, fun t c x a ht hh => .inl ⟨c, ht, hh⟩⟩
  by_cases e : d' = d
  · subst e
    exact hv m (by simpa [setDir] using hm)
  · exact .inl (dates_dirs (by simpa [setDir, Function.update_of_ne e] using hm))

/-- The date of an edited entry is that of the entry or that of the answer. -/
theorem asOf_edit {a : Attr} {asOf : Nat} {clock : Int} {v : Option (Dated EntryMeta)} {m : Dated EntryMeta}
    (h : a.edit asOf clock v = some m) : (∃ v', v = some v' ∧ m.asOf = v'.asOf) ∨ m.asOf = asOf := by
  unfold Attr.edit at h
  split at h
  · cases h
    exact (min_choice _ _).imp_left fun hle => ⟨_, rfl, hle⟩
  · cases h
    exact .inr rfl
  · cases h
    exact (min_choice _ _).imp_left fun hle => ⟨_, rfl, hle⟩
  · cases h

/-- What is left to put, and what is put, is a part of what there was. -/
theorem nameMoves_put {t asOf looked : Nat} {clock : Int} {todo : List (String × EntryMeta)}
    (ht : s.calls t = some (.put asOf looked todo)) (h : s.goOnWith t clock (.put asOf looked todo) = some s') :
    NameMoves s s' := by
  have hrest : ∀ l rest n x a, (∀ y ∈ rest, y ∈ todo) → some (NameCall.put asOf l rest) = some n → n.Holds x a →
      (∃ c, s.calls t = some c ∧ c.Holds x a) ∨ a = s.now := by
    intro l rest n x a hsub hn hh
    cases hn
    refine .inl ⟨_, ht, ?_⟩
    cases x with
    | entry q =>
      obtain ⟨rfl, m, hm⟩ := hh
      exact ⟨rfl, m, hsub _ hm⟩
    | listing d => cases hh
    | block k => cases hh
  cases todo with
  | nil =>
    have hs : s' = s.goOn t none := by
      cases looked with
      | zero => cases h; rfl
      | succ l => cases l <;> cases h <;> rfl
    rw [hs]
    exact nameMoves_goOn (nameMoves_refl s) (by simp)
  | cons y rest =>
    have htail : ∀ z ∈ rest, z ∈ y :: rest := fun z hz => List.mem_cons_of_mem _ hz
    cases looked with
    | zero =>
      cases h
      refine nameMoves_goOn (nameMoves_refl s) fun n x a hn hh => ?_
      split at hn
      · exact hrest 0 rest n x a htail hn hh
      · exact hrest 1 _ n x a (fun _ hz => hz) hn hh
    | succ l =>
      cases l with
      | zero =>
        cases h
        refine nameMoves_goOn (nameMoves_refl s) fun n x a hn hh => ?_
        split at hn
        · exact hrest 0 rest n x a htail hn hh
        · exact hrest 2 _ n x a (fun _ hz => hz) hn hh
      | succ l =>
        cases h
        refine nameMoves_goOn (nameMoves_setMeta ?_) fun n x a hn hh => hrest 0 rest n x a htail hn hh
        intro m hm
        cases hm
        exact .inl (.inr ⟨t, _, ht, rfl, y.2, List.mem_cons_self⟩)

theorem nameMoves_goOnWith {t : Nat} {clock : Int} {c : NameCall} (ht : s.calls t = some c)
    (h : s.goOnWith t clock c = some s') : NameMoves s s' := by
  have hcall : ∀ x a, c.Holds x a → (∃ c, s.calls t = some c ∧ c.Holds x a) ∨ a = s.now :=
    fun x a hh => .inl ⟨c, ht, hh⟩
  cases c with
  | forget p =>
    cases h
    exact nameMoves_goOn (nameMoves_setMeta (by simp)) (by simp)
  | listed d asOf entries =>
    cases h
    refine nameMoves_goOn (nameMoves_setDir ?_) ?_
    · intro m hm
      cases hm
      exact .inl (.inr ⟨t, _, ht, rfl, rfl⟩)
    · intro n x a hn hh
      cases hn
      refine hcall x a ?_
      cases x with
      | entry q =>
        obtain ⟨rfl, m, hm⟩ := hh
        obtain ⟨y, hy, he⟩ := List.mem_map.1 hm
        exact ⟨rfl, y, hy, congrArg Prod.fst he⟩
      | listing d => cases hh
      | block k => cases hh
  | put asOf looked todo => exact nameMoves_put ht h
  | invalidate p b asOf rest =>
    cases h
    refine nameMoves_goOn (nameMoves_shrink (fun _ => .inl rfl) (fun _ => .inl rfl) rfl) fun n x a hn hh => ?_
    cases hn
    refine hcall x a ?_
    cases x <;> exact hh
  | edit p b asOf rest =>
    cases h
    refine nameMoves_goOn (nameMoves_setMeta ?_) fun n x a hn hh => ?_
    · intro m hm
      rcases asOf_edit hm with ⟨v, hv, he⟩ | he
      · rw [he]
        exact .inl (dates_metas hv)
      · rw [he]
        exact .inl (.inr ⟨t, _, ht, rfl, rfl⟩)
    · cases hn
      cases x <;> cases hh
  | setattr p todo =>
    cases todo with
    | nil =>
      cases h
      refine nameMoves_goOn (nameMoves_refl s) fun n x a hn hh => ?_
      split at hn
      · cases hn
      · cases hn
        cases x <;> cases hh
    | cons b rest => cases h
  | write ch =>
    cases h
    refine nameMoves_goOn (nameMoves_shrink (fun _ => .inl rfl) (fun _ => .inl rfl) rfl) fun n x a hn hh => ?_
    cases hn
    cases x <;> cases hh
  | wrote ch =>
    cases h
    refine nameMoves_goOn (nameMoves_shrink (fun _ => .inl rfl) (fun _ => .inl rfl) rfl) fun n x a hn hh => ?_
    cases hn
    cases x <;> cases hh
  | note ch =>
    cases h
    refine nameMoves_goOn (nameMoves_setMeta ?_) (by simp)
    intro m hm
    cases hm
    cases hv : s.metas ch.path with
    | none => exact .inr rfl
    | some v => exact .inl (.inl (by simp [cachedAt, hv, noteLocalWrite]))
  | stat p => cases h
  | list d => cases h

theorem nameMoves_sweep {e : FeedEvent} {rest : List Sweep} {w : Sweep} : NameMoves s (s.sweep e rest w) := by
  have hupdate : ∀ {β : Type} (f : String → Option β) (p q : String),
      Function.update f p none q = f q ∨ Function.update f p none q = none := by
    intro β f p q
    by_cases h : q = p
    · exact .inr (by rw [h, Function.update_self])
    · exact .inl (Function.update_of_ne h _ _)
  have hunder : ∀ {β : Type} (f : String → Option β) (p q : String),
      (if BlockStore.under p q = true then none else f q) = f q ∨ (if BlockStore.under p q = true then none else f q) = none := by
    intro β f p q
    split
    · exact .inr rfl
    · exact .inl rfl
  cases w with
  | entry p => exact nameMoves_shrink (hupdate s.metas p) (fun _ => .inl rfl) rfl
  | metasUnder p => exact nameMoves_shrink (hunder s.metas p) (fun _ => .inl rfl) rfl
  | dirsUnder p => exact nameMoves_shrink (fun _ => .inl rfl) (hunder s.dirs p) rfl
  | unlist d => exact nameMoves_shrink (fun _ => .inl rfl) (hupdate s.dirs d) rfl
  | range p offset len => exact nameMoves_shrink (fun _ => .inl rfl) (fun _ => .inl rfl) rfl
  | collect p => exact nameMoves_shrink (fun _ => .inl rfl) (fun _ => .inl rfl) rfl
  | bump p paths => exact nameMoves_shrink (fun _ => .inl rfl) (fun _ => .inl rfl) rfl

theorem nameMoves_act {a : MountAct} (h : s.act ignore a = some s') : NameMoves s s' := by
  have hsame : ∀ s' : Mount, s'.metas = s.metas → s'.dirs = s.dirs → s'.calls = s.calls → NameMoves s s' :=
    fun s' hm hd hc => nameMoves_shrink (fun q => .inl (by rw [hm])) (fun d => .inl (by rw [hd])) hc
  cases act_cases h with
  | turns t next hnext hs' =>
    rw [hs']
    exact nameMoves_goOn (nameMoves_refl s) fun n x d hn hh => .inr (hnext n x d hn hh)
  | runs t clock c hc hs' => exact nameMoves_goOnWith hc hs'
  | feeds ha queue applied passedOver feeding hs' => exact hsame _ (by rw [hs']) (by rw [hs']) (by rw [hs'])
  | sweeps ha e rest w hs' =>
    rw [hs']
    exact nameMoves_sweep
  | places i c src dst hi hs' =>
    rw [hs']
    split <;> exact hsame _ rfl rfl rfl
  | completes i c hi hs' => exact hsame _ (by rw [hs']) (by rw [hs']) (by rw [hs'])
  | cache b cache hb hs' => exact hsame _ (by rw [hs']) (by rw [hs']) (by rw [hs'])

/-- A step of the block cache, or one that invalidates blocks or leaves them alone. -/
theorem cacheMoves_act {a : MountAct} (h : s.act ignore a = some s') :
    s.cache.Moves { s'.cache with now := s.now + 1 } := by
  have hsame : ∀ s' : Mount, s'.cache = s.cache → s.cache.Moves { s'.cache with now := s.now + 1 } := by
    intro s' hc
    rw [hc]
    exact BlockCache.moves_store (.same (fun _ => rfl) rfl)
  have hwhere : ∀ (s' : Mount) paths keep, s'.cache = { s.cache with store := s.cache.store.invalidateWhere paths keep } →
      s.cache.Moves { s'.cache with now := s.now + 1 } := by
    intro s' paths keep hc
    rw [hc]
    exact BlockCache.moves_store (BlockCache.shrink_invalidateWhere s.cache paths keep)
  cases act_cases h with
  | turns t next hnext hs' => exact hsame _ (by rw [hs']; rfl)
  | runs t clock c hc hs' =>
    unfold goOnWith at hs'
    split at hs'
    case h_7 => cases hs'; exact hwhere _ _ _ rfl
    case h_11 => cases hs'; exact hwhere _ _ _ rfl
    case h_13 => cases hs'
    all_goals
      cases hs'
      exact hsame _ rfl
  | feeds ha queue applied passedOver feeding hs' => exact hsame _ (by rw [hs'])
  | sweeps ha e rest w hs' =>
    rw [hs']
    cases w with
    | range p offset len => exact hwhere _ _ _ rfl
    | bump p paths => exact hwhere _ _ _ rfl
    | _ => exact hsame _ rfl
  | places i c src dst hi hs' =>
    rw [hs']
    split
    · exact hwhere _ _ _ rfl
    · exact hsame _ rfl
  | completes i c hi hs' => exact hsame _ (by rw [hs'])
  | cache b cache hb hs' =>
    have hm := BlockCache.step_moves hb
    rw [hs']
    exact ⟨rfl, hm.store, hm.claim, hm.inserting⟩

theorem step_now {a : MountAct} (h : s.step ignore a = some s') : s'.now = s.now + 1 := by
  obtain ⟨s1, -, rfl⟩ := Option.map_eq_some_iff.1 h
  rfl

theorem step_cacheMoves {a : MountAct} (h : s.step ignore a = some s') : s.cache.Moves s'.cache := by
  obtain ⟨s1, h1, rfl⟩ := Option.map_eq_some_iff.1 h
  exact cacheMoves_act h1

/-- A step makes no date but the present one. -/
theorem step_dates {a : MountAct} {x : Item} {d : Nat} (hg : s.cache.GenInv) (h : s.step ignore a = some s')
    (hd : s'.Dates x d) : s.Dates x d ∨ d = s.now := by
  have hm := step_cacheMoves h
  obtain ⟨s1, h1, rfl⟩ := Option.map_eq_some_iff.1 h
  have hn := nameMoves_act h1
  have hheld : (∃ t c, s1.calls t = some c ∧ c.Holds x d) → (∃ t c, s.calls t = some c ∧ c.Holds x d) ∨ d = s.now := by
    rintro ⟨t, c, ht, hc⟩
    rcases hn.calls t c x d ht hc with ⟨c', ht', hc'⟩ | hnow
    · exact .inl ⟨t, c', ht', hc'⟩
    · exact .inr hnow
  cases x with
  | entry q =>
    rcases hd with hd | hd
    · obtain ⟨v, hv, rfl⟩ := Option.map_eq_some_iff.1 hd
      exact hn.metas q v hv
    · exact (hheld hd).imp_left .inr
  | listing q =>
    rcases hd with hd | hd
    · obtain ⟨v, hv, rfl⟩ := Option.map_eq_some_iff.1 hd
      exact hn.dirs q v hv
    · exact (hheld hd).imp_left .inr
  | block k =>
    rcases hd with hd | ⟨t, f, g, ht, hf, hgen⟩
    · obtain ⟨b, hb, rfl⟩ := Option.map_eq_some_iff.1 hd
      have hcached : s.cache.store.block k = some b → s.Dates (.block k) b.readAt :=
        fun h => .inl (by simp [cachedAt, h])
      cases hm.store with
      | same hblock hgen => exact .inl (hcached (hblock k ▸ hb))
      | shrink hblock hgen =>
        rcases hblock k with e | e
        · exact .inl (hcached (e ▸ hb))
        · rw [e] at hb
          cases hb
      | insert t job g started position d ds ht hst =>
        rw [hst] at hb
        rcases BlockStore.block_insert hb with hb | ⟨rfl, rfl, hgen⟩
        · exact .inl (hcached hb)
        · exact .inl (.inr ⟨t, _, g, ht, rfl, hgen.symm⟩)
    · rcases hm.inserting t f ht k.1 g d hf with ⟨y, hy, hi⟩ | hnow
      · -- The generation the call has read has not been advanced.
        have hle := hg t y k.1 g hy (BlockCache.claim_of_inserting hi)
        have hle' := hm.store.generations_le k.1
        exact .inl (.inr ⟨t, y, g, hy, hi, by omega⟩)
      · exact .inr hnow

/-! ## Places free of old dates -/

/-- Nothing in the place, or on the way to it, is older than `T`. -/
def FreshSince (s : Mount) (T : Nat) (x : Item) : Prop := ∀ d, s.Dates x d → T ≤ d

theorem FreshSince.step {a : MountAct} {T : Nat} {x : Item} (hf : s.FreshSince T x) (hT : T ≤ s.now)
    (hg : s.cache.GenInv) (h : s.step ignore a = some s') : s'.FreshSince T x := by
  intro d hd
  rcases step_dates hg h hd with hd | rfl
  · exact hf d hd
  · exact hT

/-- A local write that is not uploaded yet takes the block out when it is. -/
def Covered (s : Mount) : Item → Prop
  | .block k => ∃ c place, (c, place) ∈ s.chunks ∧ place ≠ .ended ∧ c.path = k.1 ∧
      BlockStore.inRange c.offset c.len k.2 = true
  | _ => False

/-- After an invalidation of a path nothing of the block is left. -/
theorem dates_invalidateWhere {paths : List String} {keep : BlockKey → Bool} {k : BlockKey} {d : Nat}
    (hg : s.cache.GenInv) (hthreads : s'.cache.threads = s.cache.threads)
    (hstore : s'.cache.store = s.cache.store.invalidateWhere paths keep) (hp : k.1 ∈ paths) (hk : keep k = false) :
    ¬ s'.Dates (.block k) d := by
  rintro (hd | ⟨t, f, g, ht, hf, hgen⟩)
  · simp only [cachedAt, hstore, BlockStore.block_invalidateWhere, if_pos (And.intro hp hk), Option.map_none] at hd
    cases hd
  · rw [hthreads] at ht
    -- A call under way has read an older generation, so its block will be refused.
    have hle := hg t f k.1 g ht (BlockCache.claim_of_inserting hf)
    rw [hstore, BlockStore.generations_invalidateWhere, if_pos hp] at hgen
    omega

/-- A write waits for the end of its upload, which invalidates its range. -/
theorem chunk_act {a : MountAct} {c : Chunk} {pl : ChunkPlace} (hmem : (c, pl) ∈ s.chunks) (hne : pl ≠ .ended)
    (h : s.act ignore a = some s') :
    (∃ pl', (c, pl') ∈ s'.chunks ∧ pl' ≠ .ended) ∨
    (s'.cache.threads = s.cache.threads ∧ s'.cache.store = s.cache.store.invalidateRange c.path c.offset c.len) := by
  have hsame : s'.chunks = s.chunks → ∃ pl', (c, pl') ∈ s'.chunks ∧ pl' ≠ .ended := fun he => ⟨pl, he ▸ hmem, hne⟩
  obtain ⟨j, hj⟩ := List.mem_iff_getElem?.1 hmem
  cases act_cases h with
  | turns t next hnext hs' => exact .inl (hsame (by rw [hs']; rfl))
  | runs t clock n hn hs' =>
    unfold goOnWith at hs'
    split at hs'
    case h_10 =>
      cases hs'
      exact .inl ⟨pl, List.mem_append_left _ hmem, hne⟩
    case h_13 => cases hs'
    all_goals
      cases hs'
      exact .inl (hsame rfl)
  | feeds ha queue applied passedOver feeding hs' => exact .inl (hsame (by rw [hs']))
  | sweeps ha e rest w hs' =>
    refine .inl (hsame ?_)
    rw [hs']
    cases w <;> rfl
  | places i c' src dst hi hs' =>
    rw [hs']
    by_cases hij : i = j
    · subst hij
      rw [hj] at hi
      cases hi
      have hi' : i < s.chunks.length := (List.getElem?_eq_some_iff.1 hj).1
      -- Only the end of its upload takes a chunk off, and that invalidates its range.
      by_cases hend : dst = .ended
      · exact .inr ⟨by simp [hend, withStore], by simp [hend, withStore]⟩
      · exact .inl ⟨dst, List.mem_set hi' _, hend⟩
    · refine .inl ⟨pl, List.mem_iff_getElem?.2 ⟨j, ?_⟩, hne⟩
      show (s.chunks.set i (c', dst))[j]? = some (c, pl)
      rw [List.getElem?_set_ne hij, hj]
  | completes i c' hi hs' =>
    rw [hs']
    refine .inl ⟨pl, ?_, hne⟩
    rw [List.mem_eraseIdx_iff_getElem?]
    refine ⟨j, ?_, hj⟩
    rintro rfl
    rw [hj] at hi
    cases hi
    exact hne rfl
  | cache b cache hb hs' => exact .inl (hsame (by rw [hs']))

theorem settled_step {a : MountAct} {T : Nat} {x : Item} (hf : s.FreshSince T x ∨ s.Covered x) (hT : T ≤ s.now)
    (hg : s.cache.GenInv) (h : s.step ignore a = some s') : s'.FreshSince T x ∨ s'.Covered x := by
  rcases hf with hf | hcov
  · exact .inl (hf.step hT hg h)
  · cases x with
    | entry q => exact absurd hcov id
    | listing d => exact absurd hcov id
    | block k =>
      obtain ⟨c, pl, hmem, hne, hpath, hin⟩ := hcov
      obtain ⟨s1, h1, rfl⟩ := Option.map_eq_some_iff.1 h
      rcases chunk_act hmem hne h1 with ⟨pl', hmem', hne'⟩ | ⟨hthreads, hstore⟩
      · exact .inr ⟨c, pl', hmem', hne', hpath, hin⟩
      · refine .inl fun d hd => absurd hd (dates_invalidateWhere hg hthreads hstore (List.mem_singleton.2 hpath.symm) ?_)
        simp [hin]

end Mount

end Mobfs
