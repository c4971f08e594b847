import Mobfs.Vfs.SharedFile
/-!
# Steps beside the shared file

Most steps of the mount change neither the file nor its entry, nor what is on its way to them:
`SizeInv` holds after them as it did before (`frame_act`).
-/

namespace Mobfs

open Lib

namespace SharedFile

variable {ignore : List String} {p : String} {fileMode : Nat} {s s' : SharedFile} {f : RemoteFile}

/-! ## Steps of the mount -/

/-- After a step of the mount. -/
def withMount (s : SharedFile) (m : Mount) : SharedFile :=
  { s with mount := { m with cache := { m.cache with now := s.now + 1 } } }

theorem step_mount {a : MountAct} (h : s.step ignore p fileMode (.mount a) = some s') :
    s.fits p a = true ∧
      ∃ m, s.mount.act ignore a = some m ∧ s' = (s.carryOut fileMode (s.request p a)).withMount m := by
  simp only [step] at h
  split at h
  · rename_i hfits
    refine ⟨hfits, ?_⟩
    obtain ⟨m', hm', rfl⟩ := Option.map_eq_some_iff.1 h
    obtain ⟨m, hm, rfl⟩ := Option.map_eq_some_iff.1 hm'
    refine ⟨m, hm, ?_⟩
    unfold carryOut
    split <;> rfl
  · cases h

theorem dates_act {a : MountAct} {m : Mount} (hi : ∀ d, s.mount.Dates (.entry p) d → d < s.now)
    (h : s.mount.act ignore a = some m) {d : Nat} (hd : m.Dates (.entry p) d) : d < s.now + 1 := by
  have hmoves := Mount.nameMoves_act h
  have hold : ∀ d, s.mount.Dates (.entry p) d ∨ d = s.mount.now → d < s.now + 1 := by
    rintro d (hd | rfl)
    · exact Nat.lt_succ_of_lt (hi d hd)
    · exact Nat.lt_succ_self _
  refine hold d ?_
  rcases hd with hd | ⟨t, c, hc, hh⟩
  · obtain ⟨v, hv, rfl⟩ := Option.map_eq_some_iff.1 hd
    exact hmoves.metas p v hv
  · rcases hmoves.calls t c (.entry p) d hc hh with ⟨c', hc', hh'⟩ | he
    · exact .inl (.inr ⟨t, c', hc', hh'⟩)
    · exact .inr he

theorem frame_calls {m : Mount} (hcalls : m.calls = s.mount.calls)
    (hmeta : m.metas p = s.mount.metas p ∨ m.metas p = none) (hpend : m.pendingTo p = s.mount.pendingTo p) :
    Frame p s (s.withMount m) where
  file := rfl
  changedAt := rfl
  resizedAt := rfl
  chmodAt := rfl
  now := Nat.le_succ _
  entry := hmeta
  pending := hpend
  noting t c h := ⟨h.1, show (m.calls t).bind _ = _ from hcalls ▸ h.2⟩
  editing t a d := by
    show (m.calls t).bind _ = _ ↔ _
    rw [hcalls]
    exact Iff.rfl
  carrying asOf e h := by
    obtain ⟨t, todo, ht, hm⟩ := h
    exact .inl ⟨t, todo, show (s.mount.calls t).bind _ = _ from hcalls ▸ ht, hm⟩

/-- One call moves on. -/
theorem frame_goOn {m : Mount} {t : Nat} {next : Option NameCall} (hcalls : m.calls = s.mount.calls)
    (hmeta : m.metas p = s.mount.metas p ∨ m.metas p = none) (hpend : m.pendingTo p = s.mount.pendingTo p)
    (hnoting : ∀ c, s.Noting p t c → next.bind NameCall.noting = some c)
    (hediting : ∀ a d, next.bind NameCall.editing = some (p, a, d) ↔ s.Editing p t a d)
    (hcarrying : ∀ asOf todo e, next.bind NameCall.carrying = some (asOf, todo) → (p, e) ∈ todo →
      s.Carrying p asOf e ∨ showsFile s.file (some e) = true) : Frame p s (s.withMount (m.goOn t next)) where
  file := rfl
  changedAt := rfl
  resizedAt := rfl
  chmodAt := rfl
  now := Nat.le_succ _
  entry := hmeta
  pending := hpend
  noting u c h := by
    refine ⟨h.1, ?_⟩
    show (Function.update m.calls t next u).bind _ = _
    by_cases hu : u = t
    · subst hu
      rw [Function.update_self]
      exact hnoting c h
    · rw [Function.update_of_ne hu, hcalls]
      exact h.2
  editing u a d := by
    show (Function.update m.calls t next u).bind _ = _ ↔ _
    by_cases hu : u = t
    · subst hu
      rw [Function.update_self]
      exact hediting a d
    · rw [Function.update_of_ne hu, hcalls]
      exact Iff.rfl
  carrying asOf e h := by
    obtain ⟨u, todo, hu', hm⟩ := h
    replace hu' : (Function.update m.calls t next u).bind NameCall.carrying = some (asOf, todo) := hu'
    by_cases hu : u = t
    · subst hu
      rw [Function.update_self] at hu'
      exact hcarrying asOf todo e hu' hm
    · rw [Function.update_of_ne hu, hcalls] at hu'
      exact .inl ⟨u, todo, hu', hm⟩

/-- A call that neither edits nor notes anything moves on to another such. -/
theorem frame_plain {m : Mount} {t : Nat} {next : Option NameCall} (hcalls : m.calls = s.mount.calls)
    (hmeta : m.metas p = s.mount.metas p ∨ m.metas p = none) (hpend : m.pendingTo p = s.mount.pendingTo p)
    (hold : (s.mount.calls t).bind NameCall.noting = none ∧ (s.mount.calls t).bind NameCall.editing = none)
    (hnew : next.bind NameCall.editing = none)
    (hcarrying : ∀ asOf todo e, next.bind NameCall.carrying = some (asOf, todo) → (p, e) ∈ todo →
      s.Carrying p asOf e ∨ showsFile s.file (some e) = true) : Frame p s (s.withMount (m.goOn t next)) := by
  refine frame_goOn hcalls hmeta hpend (fun c hc => ?_) (fun a d => ?_) hcarrying
  · rw [Noting, hold.1] at hc
    cases hc.2
  · rw [hnew, Editing, hold.2]

/-- The critical section changes the entry or the writes to the file. -/
def Touches (p : String) : NameCall → Prop
  | .put _ (_ + 2) ((q, _) :: _) => q = p
  | .edit q _ _ _ => q = p
  | .write c | .note c => c.path = p
  | _ => False

theorem metas_update {q : String} {m : Mount} {v : Option (Dated EntryMeta)} (hq : q ≠ p) :
    (m.setMeta q v).metas p = m.metas p :=
  Function.update_of_ne hq.symm _ _

theorem frame_put {m : Mount} {t asOf looked : Nat} {clock : Int} {todo : List (String × EntryMeta)}
    (hc : s.mount.calls t = some (.put asOf looked todo)) (hp : ¬ Touches p (.put asOf looked todo))
    (h : s.mount.goOnWith t clock (.put asOf looked todo) = some m) : Frame p s (s.withMount m) := by
  have hold : (s.mount.calls t).bind NameCall.noting = none ∧ (s.mount.calls t).bind NameCall.editing = none := by
    rw [hc]
    exact ⟨rfl, rfl⟩
  have hrest : ∀ l rest, (∀ y ∈ rest, y ∈ todo) → ∀ d todo' e,
      (some (NameCall.put asOf l rest)).bind NameCall.carrying = some (d, todo') → (p, e) ∈ todo' →
        s.Carrying p d e ∨ showsFile s.file (some e) = true := by
    rintro l rest hsub d todo' e ⟨⟩ hmem
    exact .inl ⟨t, todo, by rw [hc]; rfl, hsub _ hmem⟩
  cases todo with
  | nil =>
    have hm : m = s.mount.goOn t none := by
      cases looked with
      | zero =>
        cases h
        rfl
      | succ l => cases l <;> cases h <;> rfl
    rw [hm]
    exact frame_plain rfl (.inl rfl) rfl hold rfl fun _ _ _ hn => by cases hn
  | cons y rest =>
    have htail : ∀ z ∈ rest, z ∈ y :: rest := fun z hz => List.mem_cons_of_mem _ hz
    match looked with
    | 0 =>
      cases h
      refine frame_plain rfl (.inl rfl) rfl hold ?_ ?_
      · split <;> rfl
      · split
        · exact hrest 0 rest htail
        · exact hrest 1 _ fun _ hz => hz
    | 1 =>
      cases h
      refine frame_plain rfl (.inl rfl) rfl hold ?_ ?_
      · split <;> rfl
      · split
        · exact hrest 0 rest htail
        · exact hrest 2 _ fun _ hz => hz
    | l + 2 =>
      cases h
      exact frame_plain rfl (.inl (metas_update hp)) rfl hold rfl (hrest 0 rest htail)

theorem pendingTo_append {m : Mount} {c : Chunk} {place : ChunkPlace} (hp : c.path ≠ p)
    (hm : m.chunks = s.mount.chunks ++ [(c, place)]) : m.pendingTo p = s.mount.pendingTo p := by
  rw [Mount.pendingTo, hm]
  simp [Mount.pendingTo, hp]

theorem frame_run {m : Mount} {t : Nat} {clock : Int} {c : NameCall} (hc : s.mount.calls t = some c)
    (hp : ¬ Touches p c) (h : s.mount.goOnWith t clock c = some m) : Frame p s (s.withMount m) := by
  have hnone : ∀ asOf todo e, (none : Option NameCall).bind NameCall.carrying = some (asOf, todo) → (p, e) ∈ todo →
      s.Carrying p asOf e ∨ showsFile s.file (some e) = true := fun _ _ _ hn => by cases hn
  cases c with
  | stat q => cases h
  | list d => cases h
  | forget q =>
    cases h
    refine frame_plain rfl ?_ rfl (by rw [hc]; exact ⟨rfl, rfl⟩) rfl hnone
    by_cases hq : q = p
    · exact .inr (by rw [hq]; exact Function.update_self _ _ _)
    · exact .inl (metas_update hq)
  | listed d asOf entries =>
    cases h
    refine frame_plain rfl (.inl rfl) rfl (by rw [hc]; exact ⟨rfl, rfl⟩) rfl ?_
    rintro _ todo e ⟨⟩ hmem
    exact .inl ⟨t, _, by rw [hc]; rfl, hmem⟩
  | put asOf looked todo => exact frame_put hc hp h
  | setattr q todo =>
    cases todo with
    | nil =>
      cases h
      refine frame_plain rfl (.inl rfl) rfl (by rw [hc]; exact ⟨rfl, rfl⟩) ?_ ?_
      · split <;> rfl
      · intro asOf todo e hn
        split at hn <;> cases hn
    | cons b rest => cases h
  | invalidate q a asOf rest =>
    cases h
    refine frame_goOn rfl (.inl rfl) rfl (fun ch hch => ?_) (fun b d => ?_) fun _ _ _ hn => by cases hn
    · rw [Noting, hc] at hch
      cases hch.2
    · rw [Editing, hc]
      exact Iff.rfl
  | edit q a asOf rest =>
    cases h
    refine frame_goOn rfl (.inl (metas_update hp)) rfl (fun ch hch => ?_) (fun b d => ?_) fun _ _ _ hn => by cases hn
    · rw [Noting, hc] at hch
      cases hch.2
    · rw [Editing, hc]
      refine iff_of_false (fun hn => by cases hn) fun hn => ?_
      obtain ⟨rfl, -⟩ := Prod.mk.inj (Option.some.inj hn)
      exact hp rfl
  | write ch =>
    cases h
    refine frame_goOn rfl (.inl rfl) (pendingTo_append hp rfl) (fun d hd => ?_) (fun b d => ?_)
      fun _ _ _ hn => by cases hn
    · rw [Noting, hc] at hd
      cases hd.2
    · rw [Editing, hc]
      exact Iff.rfl
  | wrote ch =>
    cases h
    refine frame_goOn rfl (.inl rfl) rfl (fun d hd => ?_) (fun b d => ?_) fun _ _ _ hn => by cases hn
    · rw [Noting, hc] at hd
      exact hd.2
    · rw [Editing, hc]
      exact Iff.rfl
  | note ch =>
    cases h
    refine frame_goOn rfl (.inl (metas_update hp)) rfl (fun d hd => ?_) (fun b d => ?_) fun _ _ _ hn => by cases hn
    · rw [Noting, hc] at hd
      obtain ⟨hpath, he⟩ := hd
      obtain rfl := Option.some.inj he
      exact absurd hpath hp
    · rw [Editing, hc]
      exact Iff.rfl

theorem frame_call {m : Mount} {t : Nat} {c : NameCall} (he : c.editing = none) (hk : c.carrying = none)
    (h : s.mount.call t c = some m) : Frame p s (s.withMount m) := by
  unfold Mount.call at h
  split at h
  · rename_i hfree
    cases h
    refine frame_plain rfl (.inl rfl) rfl (by rw [hfree]; exact ⟨rfl, rfl⟩) he fun _ _ _ hcarry => ?_
    rw [Option.bind_some, hk] at hcarry
    cases hcarry
  · cases h

theorem frame_answer {m : Mount} {t : Nat} {c : NameCall} {a : Answer} (hfits : s.fits p (.answer t a) = true)
    (hreq : s.request p (.answer t a) = none) (hc : s.mount.calls t = some c) (h : s.mount.answered t c a = some m) :
    Frame p s (s.withMount m) := by
  have hshows : ∀ {next : Option NameCall}, (s.mount.calls t).bind NameCall.noting = none →
      (s.mount.calls t).bind NameCall.editing = none → next.bind NameCall.editing = none →
      (∀ asOf todo e, next.bind NameCall.carrying = some (asOf, todo) → (p, e) ∈ todo →
        showsFile s.file (some e) = true) →
      Frame p s (s.withMount (s.mount.goOn t next)) := fun hn he hnew hsh =>
    frame_plain rfl (.inl rfl) rfl ⟨hn, he⟩ hnew fun asOf todo e hk hm => .inr (hsh asOf todo e hk hm)
  unfold Mount.answered at h
  split at h
  · rename_i q e
    cases h
    refine hshows (by rw [hc]; rfl) (by rw [hc]; rfl) rfl ?_
    rintro _ _ e' ⟨⟩ hm
    obtain ⟨rfl, rfl⟩ := Prod.mk.inj (List.mem_singleton.1 hm)
    simpa [fits, hc] using hfits
  · cases h
    exact hshows (by rw [hc]; rfl) (by rw [hc]; rfl) rfl fun _ _ _ hn => by cases hn
  · rename_i d es
    cases h
    refine hshows (by rw [hc]; rfl) (by rw [hc]; rfl) rfl ?_
    rintro _ _ e' ⟨⟩ hm
    obtain ⟨x, hx, he⟩ := List.mem_map.1 hm
    obtain ⟨hjoin, rfl⟩ := Prod.mk.inj he
    simp only [fits, hc, List.all_eq_true, Bool.or_eq_true, decide_eq_true_eq] at hfits
    exact (hfits x hx).resolve_left fun hne => hne hjoin
  · rename_i q size rest
    have hq : q ≠ p := by
      rintro rfl
      simp [request, hc] at hreq
    cases h
    refine frame_goOn rfl (.inl rfl) rfl (fun ch hch => ?_) (fun b d => ?_) fun _ _ _ hn => by cases hn
    · rw [Noting, hc] at hch
      cases hch.2
    · rw [Editing, hc]
      refine iff_of_false (fun hn => ?_) fun hn => by cases hn
      exact hq (Prod.mk.inj (Option.some.inj hn)).1
  · rename_i q mode modified rest
    have hq : q ≠ p := by
      rintro rfl
      simp [request, hc] at hreq
    cases h
    refine frame_goOn rfl (.inl rfl) rfl (fun ch hch => ?_) (fun b d => ?_) fun _ _ _ hn => by cases hn
    · rw [Noting, hc] at hch
      cases hch.2
    · rw [Editing, hc]
      refine iff_of_false (fun hn => ?_) fun hn => by cases hn
      exact hq (Prod.mk.inj (Option.some.inj hn)).1
  · cases h

theorem frame_sweep {e : FeedEvent} {rest : List Sweep} {w : Sweep} :
    Frame p s (s.withMount (s.mount.sweep e rest w)) := by
  cases w with
  | entry q =>
    refine frame_calls rfl ?_ rfl
    by_cases hq : q = p
    · exact .inr (by rw [hq]; exact Function.update_self _ _ _)
    · exact .inl (metas_update hq)
  | metasUnder q =>
    refine frame_calls rfl ?_ rfl
    by_cases hq : BlockStore.under q p = true
    · exact .inr (if_pos hq)
    · exact .inl (if_neg hq)
  | _ => exact frame_calls rfl (.inl rfl) rfl

theorem pendingTo_set {m : Mount} {i : Nat} {c : Chunk} {src dst : ChunkPlace} (hi : s.mount.chunks[i]? = some (c, src))
    (hm : m.chunks = s.mount.chunks.set i (c, dst)) : m.pendingTo p = s.mount.pendingTo p := by
  have hmap : m.chunks.map (·.1) = s.mount.chunks.map (·.1) := by
    obtain ⟨hlt, hget⟩ := List.getElem?_eq_some_iff.1 hi
    rw [hm, List.map_set]
    refine List.ext_getElem? fun j => ?_
    rw [List.getElem?_set]
    split
    · rename_i hj
      subst hj
      simp [hlt, hget]
    · rfl
  rw [Mount.pendingTo, Mount.pendingTo, hmap]

theorem pendingTo_eraseIdx {m : Mount} {i : Nat} {c : Chunk} {place : ChunkPlace}
    (hi : s.mount.chunks[i]? = some (c, place)) (hm : m.chunks = s.mount.chunks.eraseIdx i) :
    (c.path ≠ p → m.pendingTo p = s.mount.pendingTo p) ∧
      ∀ d, d ∈ s.mount.pendingTo p → d = c ∨ d ∈ m.pendingTo p := by
  obtain ⟨hlt, hget⟩ := List.getElem?_eq_some_iff.1 hi
  have hsplit : s.mount.chunks = s.mount.chunks.take i ++ (c, place) :: s.mount.chunks.drop (i + 1) := by
    rw [← hget, ← List.drop_eq_getElem_cons hlt, List.take_append_drop]
  have hm' : m.chunks = s.mount.chunks.take i ++ s.mount.chunks.drop (i + 1) := by
    rw [hm, List.eraseIdx_eq_take_drop_succ]
  refine ⟨fun hne => ?_, fun d hd => ?_⟩
  · rw [Mount.pendingTo, Mount.pendingTo, hm']
    conv_rhs => rw [hsplit]
    simp [hne]
  · rw [Mount.pendingTo, hsplit] at hd
    rw [Mount.pendingTo, hm']
    simp only [List.map_append, List.map_cons, List.mem_filter, List.mem_append, List.mem_cons] at hd ⊢
    tauto

/-- What the step does beyond a frame. -/
def Special (s : SharedFile) (p : String) (a : MountAct) : Prop :=
  (∃ t clock c, a = .run t clock ∧ s.mount.calls t = some c ∧ Touches p c) ∨
    ∃ i c place, a = .complete i ∧ s.mount.chunks[i]? = some (c, place) ∧ c.path = p

theorem frame_act {a : MountAct} {m : Mount} (hfits : s.fits p a = true) (hreq : s.request p a = none)
    (hsp : ¬ s.Special p a) (h : s.mount.act ignore a = some m) : Frame p s (s.withMount m) := by
  cases a with
  | stat t q => exact frame_call rfl rfl h
  | listDir t d => exact frame_call rfl rfl h
  | setattr t q todo => exact frame_call rfl rfl h
  | write t c => exact frame_call rfl rfl h
  | answer t b =>
    obtain ⟨c, hc, h⟩ := Option.bind_eq_some_iff.1 h
    exact frame_answer hfits hreq hc h
  | fails t =>
    obtain ⟨c, hc, rfl⟩ := Option.map_eq_some_iff.1 h
    have hw : c.waits = true := by simpa [fits, hc] using hfits
    refine frame_plain rfl (.inl rfl) rfl ?_ rfl fun _ _ _ hn => by cases hn
    rw [hc]
    unfold NameCall.waits at hw
    split at hw
    · exact ⟨rfl, rfl⟩
    · exact ⟨rfl, rfl⟩
    · exact ⟨rfl, rfl⟩
    · cases hw
  | run t clock =>
    obtain ⟨c, hc, h⟩ := Option.bind_eq_some_iff.1 h
    exact frame_run hc (fun ht => hsp (.inl ⟨t, clock, c, rfl, hc, ht⟩)) h
  | change e =>
    cases h
    exact frame_calls rfl (.inl rfl) rfl
  | feed =>
    simp only [Mount.act] at h
    split at h
    · split at h
      · cases h
        exact frame_calls rfl (.inl rfl) rfl
      · cases h
        exact frame_calls rfl (.inl rfl) rfl
    · cases h
  | feedRun =>
    obtain ⟨f, -, rfl⟩ := Option.map_eq_some_iff.1 h
    cases f with
    | lookBuffers e =>
      simp only [Mount.feedNext]
      split <;> exact frame_calls rfl (.inl rfl) rfl
    | lookUploads e =>
      simp only [Mount.feedNext]
      split <;> exact frame_calls rfl (.inl rfl) rfl
    | sweeping e todo =>
      cases todo with
      | nil => exact frame_calls rfl (.inl rfl) rfl
      | cons w rest => exact frame_sweep
  | place i dst =>
    simp only [Mount.act] at h
    split at h
    · rename_i c src hi
      split at h
      · cases h
        refine frame_calls ?_ (.inl ?_) (pendingTo_set hi rfl)
        · split <;> rfl
        · split <;> rfl
      · cases h
    · cases h
  | complete i =>
    simp only [Mount.act] at h
    split at h
    · rename_i c hi
      cases h
      have hne : c.path ≠ p := fun hp => hsp (.inr ⟨i, c, .ended, rfl, hi, hp⟩)
      exact frame_calls rfl (.inl rfl) ((pendingTo_eraseIdx hi rfl).1 hne)
    · cases h
  | cache b =>
    obtain ⟨c, -, rfl⟩ := Option.map_eq_some_iff.1 h
    exact frame_calls rfl (.inl rfl) rfl

end SharedFile

end Mobfs
