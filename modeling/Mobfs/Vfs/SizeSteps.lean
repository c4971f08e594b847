import Mobfs.Vfs.SharedFrames
/-!
# Steps that keep the size

What the other steps do to the file and to its entry: the requests that set the size or the
mode, the notes of writes, the entries that answers put, and what others do to the file.

`SizeInv.step`: each step that meets `SizeGuard` keeps the size.
-/

namespace Mobfs

open Lib

namespace SharedFile

variable {ignore : List String} {p : String} {fileMode : Nat} {s s' : SharedFile} {f : RemoteFile}

/-! ## Steps that bear on the file or its entry -/

theorem noting_eq {t : Nat} {c d : Chunk} (hc : s.Noting p t c) (hd : s.Noting p t d) : c = d :=
  Option.some.inj (hc.2.symm.trans hd.2)

theorem dates_carrying {asOf : Nat} {m : EntryMeta} (h : s.Carrying p asOf m) : s.mount.Dates (.entry p) asOf := by
  obtain ⟨t, todo, hk, hm⟩ := h
  obtain ⟨c, hc, hk⟩ := Option.bind_eq_some_iff.1 hk
  refine .inr ⟨t, c, hc, ?_⟩
  cases c with
  | put _ _ todo' =>
    cases hk
    exact ⟨rfl, m, hm⟩
  | listed d _ entries =>
    cases hk
    obtain ⟨x, hx, he⟩ := List.mem_map.1 hm
    exact ⟨rfl, x, hx, (Prod.mk.inj he).1⟩
  | _ => cases hk

theorem dates_editing {t asOf : Nat} {a : Attr} (h : s.Editing p t a asOf) : s.mount.Dates (.entry p) asOf := by
  obtain ⟨c, hc, he⟩ := Option.bind_eq_some_iff.1 h
  refine .inr ⟨t, c, hc, ?_⟩
  cases c with
  | invalidate q b d rest =>
    cases he
    exact ⟨rfl, rfl⟩
  | edit q b d rest =>
    cases he
    exact ⟨rfl, rfl⟩
  | _ => cases he

theorem carrying_lt (hi : SizeInv p s) {asOf : Nat} {m : EntryMeta} (h : s.Carrying p asOf m) : asOf < s.now :=
  hi.dates asOf (dates_carrying h)

theorem editing_lt (hi : SizeInv p s) {t asOf : Nat} {a : Attr} (h : s.Editing p t a asOf) : asOf < s.now :=
  hi.dates asOf (dates_editing h)

/-- The other calls are as they were, and call `t` is at `next`. -/
structure Turn (s s' : SharedFile) (t : Nat) (next : Option NameCall) : Prop where
  same : ∀ u, u ≠ t → s'.mount.calls u = s.mount.calls u
  turned : s'.mount.calls t = next

theorem turn_of {u : SharedFile} {m : Mount} {t : Nat} {next : Option NameCall}
    (hs' : s' = u.withMount (m.goOn t next)) (hcalls : m.calls = s.mount.calls) : Turn s s' t next := by
  subst hs'
  exact ⟨fun u hu => (Function.update_of_ne hu _ _).trans (congrFun hcalls u), Function.update_self _ _ _⟩

theorem Turn.noting {t u : Nat} {next : Option NameCall} {c : Chunk} (h : Turn s s' t next) (hu : u ≠ t) :
    s'.Noting p u c ↔ s.Noting p u c := by
  rw [Noting, Noting, h.same u hu]

theorem Turn.editing {t u d : Nat} {next : Option NameCall} {a : Attr} (h : Turn s s' t next) (hu : u ≠ t) :
    s'.Editing p u a d ↔ s.Editing p u a d := by
  rw [Editing, Editing, h.same u hu]

/-- A call that now carries nothing. -/
theorem Turn.carrying {t asOf : Nat} {next : Option NameCall} {m : EntryMeta} (h : Turn s s' t next)
    (hnext : next.bind NameCall.carrying = none) (hk : s'.Carrying p asOf m) : s.Carrying p asOf m := by
  obtain ⟨u, todo, hu, hm⟩ := hk
  by_cases he : u = t
  · subst he
    rw [h.turned, hnext] at hu
    cases hu
  · rw [h.same u he] at hu
    exact ⟨u, todo, hu, hm⟩

/-- Where the file and the writes about to be noted are as before, `Sized` depends on how
far the pending writes reach. -/
theorem Sized.mono {f' : RemoteFile} {size : Nat} (h : s.Sized p f size) (hext : s'.extent p f' = s.extent p f)
    (hnoting : ∀ t c, s.Noting p t c → s'.Noting p t c) : s'.Sized p f' size where
  le := hext ▸ h.le
  covers n hn := by
    rcases h.covers n (hext ▸ hn) with h | ⟨t, c, hc, h⟩
    · exact .inl h
    · exact .inr ⟨t, c, hnoting t c hc, h⟩

theorem extent_congr {f' : RemoteFile} (hsize : f'.size = f.size) (hpend : s'.mount.pendingTo p = s.mount.pendingTo p) :
    s'.extent p f' = s.extent p f := by
  rw [extent, extent, hsize, hpend]

theorem sized_of_idle {size : Nat} (hpend : s.mount.pendingTo p = []) (hsize : size = f.size) : s.Sized p f size := by
  have hext : s.extent p f = f.size := by
    rw [extent, hpend]
    exact Nat.max_eq_left (Nat.zero_le _)
  exact ⟨by rw [hext, hsize], fun n hn => .inl (by rw [hsize, ← hext]; exact hn)⟩

/-- A request of `setattr` has been carried out; `t` is to edit the entry. -/
theorem editing_begins {t : Nat} {c next : NameCall} {a : Attr} (hc : s.mount.calls t = some c) (he : c.editing = none)
    (hturn : Turn s s' t (some next)) (hnext : next.editing = some (p, a, s.now)) :
    s'.Editing p t a s.now ∧ (∀ u b d, s'.Editing p u b d → b = a ∧ d = s.now ∨ s.Editing p u b d) ∧
      ∀ u b d, s.Editing p u b d → s'.Editing p u b d := by
  have hold : ∀ b d, ¬ s.Editing p t b d := by
    intro b d hb
    rw [Editing, hc, Option.bind_some, he] at hb
    cases hb
  refine ⟨?_, ?_, ?_⟩
  · rw [Editing, hturn.turned]
    exact hnext
  · intro u b d hb
    by_cases hu : u = t
    · subst hu
      rw [Editing, hturn.turned, Option.bind_some, hnext] at hb
      cases hb
      exact .inl ⟨rfl, rfl⟩
    · exact .inr ((hturn.editing hu).1 hb)
  · intro u b d hb
    by_cases hu : u = t
    · subst hu
      exact absurd hb (hold b d)
    · exact (hturn.editing hu).2 hb

theorem noting_of_turn {t : Nat} {c : NameCall} {next : Option NameCall} (hc : s.mount.calls t = some c)
    (hn : c.noting = none) (hturn : Turn s s' t next) : ∀ u d, s.Noting p u d → s'.Noting p u d := by
  intro u d hd
  by_cases hu : u = t
  · subst hu
    rw [Noting, hc, Option.bind_some, hn] at hd
    cases hd.2
  · exact (hturn.noting hu).2 hd

theorem sizeInv_truncate {t size : Nat} {rest : List Attr} (hi : SizeInv p s)
    (hc : s.mount.calls t = some (.setattr p (.truncate size :: rest)))
    (hs' : s' = (s.carryOut fileMode (some (.truncate size))).withMount
      (s.mount.goOn t (some (.invalidate p (.truncate size) s.now rest))))
    (hd : ∀ d, s'.mount.Dates (.entry p) d → d < s'.now) : SizeInv p s' := by
  have hturn := turn_of hs' rfl
  obtain ⟨hself, hnew, hkept⟩ := editing_begins (p := p) hc rfl hturn rfl
  subst hs'
  refine ⟨hd, ?_, ?_, ?_⟩
  · intro v hv hfresh
    obtain ⟨f, hfile, -, hmode⟩ := hi.entry v hv hfresh
    refine ⟨_, rfl, fun hno => ?_, fun hno => ?_⟩
    · cases hno t _ _ hself
    · show _ = (s.file.map (·.mode)).getD fileMode
      rw [hfile]
      exact hmode fun u a d ha => hno u a d (hkept u a d ha)
  · intro asOf m hk hfresh
    have hk' := hturn.carrying rfl hk
    obtain ⟨f, hfile, -, hmode⟩ := hi.carried asOf m hk' hfresh
    refine ⟨_, rfl, fun hle => absurd (carrying_lt hi hk') (Nat.not_lt_of_le hle), fun hle => ?_⟩
    show _ = (s.file.map (·.mode)).getD fileMode
    rw [hfile]
    exact hmode hle
  · intro u a asOf ha hfresh
    rcases hnew u a asOf ha with ⟨rfl, rfl⟩ | ha
    · refine ⟨_, rfl, fun n hn _ => ?_, fun _ _ hn => by cases hn⟩
      cases hn
      rfl
    · obtain ⟨f, hfile, -, hmode⟩ := hi.edits u a asOf ha hfresh
      refine ⟨_, rfl, fun _ _ hle => absurd (editing_lt hi ha) (Nat.not_lt_of_le hle), fun m modified he hm hle => ?_⟩
      show (s.file.map (·.mode)).getD fileMode = m
      rw [hfile]
      exact hmode m modified he hm hle

theorem sizeInv_chmod {t mode : Nat} {modified : Option Int} {rest : List Attr} (hi : SizeInv p s)
    (hc : s.mount.calls t = some (.setattr p (.metadata (some mode) modified :: rest))) (hsome : s.file.isSome = true)
    (hs' : s' = (s.carryOut fileMode (some (.metadata (some mode) modified))).withMount
      (s.mount.goOn t (some (.edit p (.metadata (some mode) modified) s.now rest))))
    (hd : ∀ d, s'.mount.Dates (.entry p) d → d < s'.now) : SizeInv p s' := by
  have hturn := turn_of hs' rfl
  obtain ⟨hself, hnew, hkept⟩ := editing_begins (p := p) hc rfl hturn rfl
  have hnoting := noting_of_turn (p := p) hc rfl hturn
  subst hs'
  obtain ⟨g, hg⟩ := Option.isSome_iff_exists.1 hsome
  have hfile' : (Attr.metadata (some mode) modified).onFile fileMode s.file =
      some { g with mode := if mode = 0 then g.mode else mode } := by
    rw [hg]
    rfl
  refine ⟨hd, ?_, ?_, ?_⟩
  · intro v hv hfresh
    obtain ⟨f, hfile, hsize, -⟩ := hi.entry v hv hfresh
    obtain rfl : g = f := Option.some.inj (hg.symm.trans hfile)
    refine ⟨_, hfile', fun hno => ?_, fun hno => ?_⟩
    · exact (hsize fun u a d ha => hno u a d (hkept u a d ha)).mono (extent_congr rfl rfl) hnoting
    · cases hno t _ _ hself
  · intro asOf m hk hfresh
    have hk' := hturn.carrying rfl hk
    obtain ⟨f, hfile, hsize, -⟩ := hi.carried asOf m hk' hfresh
    obtain rfl : g = f := Option.some.inj (hg.symm.trans hfile)
    exact ⟨_, hfile', hsize, fun hle => absurd (carrying_lt hi hk') (Nat.not_lt_of_le hle)⟩
  · intro u a asOf ha hfresh
    rcases hnew u a asOf ha with ⟨rfl, rfl⟩ | ha
    · refine ⟨_, hfile', fun _ hn _ => (by cases hn), fun n _ hn hne _ => ?_⟩
      cases hn
      exact if_neg hne
    · obtain ⟨f, hfile, hsize, -⟩ := hi.edits u a asOf ha hfresh
      obtain rfl : g = f := Option.some.inj (hg.symm.trans hfile)
      exact ⟨_, hfile', hsize, fun _ _ _ _ hle => absurd (editing_lt hi ha) (Nat.not_lt_of_le hle)⟩

/-- A request for the times alone. -/
theorem sizeInv_touch {t : Nat} {modified : Option Int} {rest : List Attr} (hi : SizeInv p s)
    (hc : s.mount.calls t = some (.setattr p (.metadata none modified :: rest))) (hsome : s.file.isSome = true)
    (hs' : s' = s.withMount (s.mount.goOn t (some (.edit p (.metadata none modified) s.now rest))))
    (hd : ∀ d, s'.mount.Dates (.entry p) d → d < s'.now) : SizeInv p s' := by
  have hturn := turn_of hs' rfl
  obtain ⟨-, hnew, hkept⟩ := editing_begins (p := p) hc rfl hturn rfl
  have hnoting := noting_of_turn (p := p) hc rfl hturn
  subst hs'
  refine ⟨hd, ?_, ?_, ?_⟩
  · intro v hv hfresh
    obtain ⟨f, hfile, hsize, hmode⟩ := hi.entry v hv hfresh
    refine ⟨f, hfile, fun hno => ?_, fun hno => hmode fun u a d ha => hno u a d (hkept u a d ha)⟩
    exact (hsize fun u a d ha => hno u a d (hkept u a d ha)).mono (extent_congr rfl rfl) hnoting
  · intro asOf m hk hfresh
    exact hi.carried asOf m (hturn.carrying rfl hk) hfresh
  · intro u a asOf ha hfresh
    rcases hnew u a asOf ha with ⟨rfl, rfl⟩ | ha
    · obtain ⟨f, hf⟩ := Option.isSome_iff_exists.1 hsome
      exact ⟨f, hf, fun _ hn _ => (by cases hn), fun _ _ hn _ _ => (by cases hn)⟩
    · exact hi.edits u a asOf ha hfresh

/-- The file, the dates of its changes and the calls that edit and carry are as before. -/
structure Beside (p : String) (s s' : SharedFile) : Prop where
  file : s'.file = s.file
  changedAt : s'.changedAt = s.changedAt
  resizedAt : s'.resizedAt = s.resizedAt
  chmodAt : s'.chmodAt = s.chmodAt
  editing : ∀ t a d, s'.Editing p t a d → s.Editing p t a d
  carrying : ∀ asOf m, s'.Carrying p asOf m → s.Carrying p asOf m

theorem SizeInv.beside (hi : SizeInv p s) (hb : Beside p s s') (hd : ∀ d, s'.mount.Dates (.entry p) d → d < s'.now)
    (he : ∀ v, s'.mount.metas p = some v → ¬ s.Outdated v → ∃ f, s.file = some f ∧
      ((∀ t a d, s'.Editing p t a d → a.resizes = false) → s'.Sized p f v.value.size) ∧
      ((∀ t a d, s'.Editing p t a d → a.chmods = false) → v.value.mode = f.mode)) : SizeInv p s' where
  dates := hd
  entry v hv hfresh := by
    rw [Outdated, hb.changedAt] at hfresh
    rw [hb.file]
    exact he v hv hfresh
  carried asOf m hm hfresh := by
    rw [hb.changedAt] at hfresh
    rw [hb.file, hb.resizedAt, hb.chmodAt]
    exact hi.carried asOf m (hb.carrying asOf m hm) hfresh
  edits t a asOf ha hfresh := by
    rw [hb.changedAt] at hfresh
    rw [hb.file, hb.resizedAt, hb.chmodAt]
    exact hi.edits t a asOf (hb.editing t a asOf ha) hfresh

/-- A call that is to edit nothing. -/
theorem Turn.editing_of {t u d : Nat} {next : Option NameCall} {a : Attr} (h : Turn s s' t next)
    (hnext : next.bind NameCall.editing = none) (ha : s'.Editing p u a d) : u ≠ t ∧ s.Editing p u a d := by
  have hu : u ≠ t := by
    rintro rfl
    rw [Editing, h.turned, hnext] at ha
    cases ha
  exact ⟨hu, (h.editing hu).1 ha⟩

theorem beside_of {m : Mount} {t : Nat} {next : Option NameCall} (hs' : s' = s.withMount (m.goOn t next))
    (hturn : Turn s s' t next) (he : next.bind NameCall.editing = none) (hk : next.bind NameCall.carrying = none) :
    Beside p s s' := by
  subst hs'
  exact ⟨rfl, rfl, rfl, rfl, fun _ _ _ ha => (hturn.editing_of he ha).2, fun _ _ hm => hturn.carrying hk hm⟩

/-- The calls that edit are as before. -/
theorem editing_kept {t : Nat} {c : NameCall} {next : Option NameCall} (hc : s.mount.calls t = some c)
    (he : c.editing = none) (hturn : Turn s s' t next) {u d : Nat} {a : Attr} (ha : s.Editing p u a d) :
    u ≠ t ∧ s'.Editing p u a d := by
  have hu : u ≠ t := by
    rintro rfl
    rw [Editing, hc, Option.bind_some, he] at ha
    cases ha
  exact ⟨hu, (hturn.editing hu).2 ha⟩

/-- A write to the file is buffered. -/
theorem sizeInv_write {t : Nat} {c : Chunk} (hi : SizeInv p s) (hc : s.mount.calls t = some (.write c))
    (hp : c.path = p)
    (hs' : s' = s.withMount ((s.mount.buffer c).goOn t (some (.wrote c))))
    (hd : ∀ d, s'.mount.Dates (.entry p) d → d < s'.now) : SizeInv p s' := by
  have hturn := turn_of hs' rfl
  have hnoting := noting_of_turn (p := p) hc rfl hturn
  have hpend : s'.mount.pendingTo p = s.mount.pendingTo p ++ [c] := by
    rw [hs']
    show ((s.mount.chunks ++ [(c, ChunkPlace.buffered)]).map fun x => x.1).filter _ = _
    simp [Mount.pendingTo, hp]
  refine hi.beside (beside_of hs' hturn rfl rfl) hd fun v hv hfresh => ?_
  rw [hs'] at hv
  obtain ⟨f, hfile, hsize, hmode⟩ := hi.entry v hv hfresh
  refine ⟨f, hfile, fun hno => ?_, fun hno => hmode fun u a d ha => hno u a d (editing_kept hc rfl hturn ha).2⟩
  have hsized := hsize fun u a d ha => hno u a d (editing_kept hc rfl hturn ha).2
  have hlt : ∀ n, n < s'.extent p f ↔ n < s.extent p f ∨ n < c.stop := by
    intro n
    rw [lt_extent, lt_extent, hpend]
    simp [or_and_right, exists_or, or_assoc]
  refine ⟨?_, fun n hn => ?_⟩
  · by_contra hgt
    exact absurd hsized.le (Nat.not_le_of_lt (Nat.lt_of_le_of_lt
      (Nat.le_of_not_lt fun h => absurd ((hlt _).2 (.inl h)) (Nat.lt_irrefl _)) (Nat.lt_of_not_le hgt)))
  · rcases (hlt n).1 hn with h | h
    · rcases hsized.covers n h with h | ⟨u, d, hd, h⟩
      · exact .inl h
      · exact .inr ⟨u, d, hnoting u d hd, h⟩
    · refine .inr ⟨t, c, ⟨hp, ?_⟩, h⟩
      rw [hturn.turned]
      rfl

/-- What the noted entry says of the file. -/
theorem noted_value {t : Nat} (clock : Int) {c : Chunk} (hi : SizeInv p s) (hc : s.mount.calls t = some (.note c))
    (hp : c.path = p) (hg : s.NoteOk p t c) :
    ∃ f, s.file = some f ∧ c.stop ≤ s.extent p f ∧
      (noteLocalWrite s.now clock c (s.mount.metas p)).value.size = s.extent p f ∧
      (noteLocalWrite s.now clock c (s.mount.metas p)).value.mode = f.mode := by
  obtain ⟨⟨f, hfile, hstop⟩, hentry⟩ := hg
  refine ⟨f, hfile, hstop, ?_⟩
  cases hm : s.mount.metas p with
  | none =>
    rw [hm] at hentry
    obtain ⟨hle, hmode⟩ := hentry f hfile
    exact ⟨Nat.le_antisymm hstop hle, hmode.symm⟩
  | some v =>
    rw [hm] at hentry
    obtain ⟨hnew, hediting, hnoting⟩ := hentry
    obtain ⟨f', hfile', hsize, hmode⟩ := hi.entry v hm hnew
    obtain rfl : f = f' := Option.some.inj (hfile.symm.trans hfile')
    have hsized := hsize fun u a d ha => absurd ha (hediting u a d)
    refine ⟨Nat.le_antisymm (Nat.max_le.2 ⟨hsized.le, hstop⟩) ?_, hmode fun u a d ha => absurd ha (hediting u a d)⟩
    -- What the old entry does not cover is about to be noted, by this call or by one that reaches no further.
    refine Nat.le_of_not_lt fun hlt => ?_
    rcases hsized.covers _ hlt with h | ⟨u, d, hu, h⟩
    · exact absurd h (Nat.not_lt_of_le (Nat.le_max_left _ _))
    · by_cases he : u = t
      · subst he
        obtain rfl := noting_eq hu ⟨hp, by rw [hc]; rfl⟩
        exact absurd h (Nat.not_lt_of_le (Nat.le_max_right _ _))
      · exact absurd h (Nat.not_lt_of_le (hnoting u d he hu))

/-- A write to the file is noted. -/
theorem sizeInv_note {t : Nat} {clock : Int} {c : Chunk} (hi : SizeInv p s) (hc : s.mount.calls t = some (.note c))
    (hp : c.path = p) (hg : s.NoteOk p t c)
    (hs' : s' = s.withMount ((s.mount.setMeta p (some (noteLocalWrite s.now clock c (s.mount.metas p)))).goOn t none))
    (hd : ∀ d, s'.mount.Dates (.entry p) d → d < s'.now) : SizeInv p s' := by
  have hturn := turn_of hs' rfl
  refine hi.beside (beside_of hs' hturn rfl rfl) hd fun v hv _ => ?_
  have hmeta : s'.mount.metas p = some (noteLocalWrite s.now clock c (s.mount.metas p)) := by
    rw [hs']
    exact Function.update_self _ _ _
  obtain rfl : _ = v := Option.some.inj (hmeta.symm.trans hv)
  obtain ⟨f, hfile, -, hsize, hmode⟩ := noted_value clock hi hc hp hg
  have hext : s'.extent p f = s.extent p f := by
    rw [hs']
    exact extent_congr rfl rfl
  refine ⟨f, hfile, fun _ => ⟨?_, fun n hn => .inl ?_⟩, fun _ => hmode⟩
  · rw [hext, hsize]
  · rw [hsize, ← hext]
    exact hn

/-- An answer is put into the entry. -/
theorem sizeInv_put {t asOf looked : Nat} {e : EntryMeta} {rest : List (String × EntryMeta)} (hi : SizeInv p s)
    (hc : s.mount.calls t = some (.put asOf looked ((p, e) :: rest))) (hg : s.PutOk p asOf)
    (hs' : s' = s.withMount ((s.mount.setMeta p (some ⟨e, asOf⟩)).goOn t (some (.put asOf 0 rest))))
    (hd : ∀ d, s'.mount.Dates (.entry p) d → d < s'.now) : SizeInv p s' := by
  have hturn := turn_of hs' rfl
  have hcarrying : ∀ d m, s'.Carrying p d m → s.Carrying p d m := by
    rintro d m ⟨u, todo, hu, hmem⟩
    by_cases he : u = t
    · subst he
      rw [hturn.turned] at hu
      cases hu
      exact ⟨u, _, by rw [hc]; rfl, List.mem_cons_of_mem _ hmem⟩
    · rw [hturn.same u he] at hu
      exact ⟨u, todo, hu, hmem⟩
  have hb : Beside p s s' := by
    subst hs'
    exact ⟨rfl, rfl, rfl, rfl, fun u a d ha => (hturn.editing_of rfl ha).2, hcarrying⟩
  refine hi.beside hb hd fun v hv hfresh => ?_
  have hmeta : s'.mount.metas p = some ⟨e, asOf⟩ := by
    rw [hs']
    exact Function.update_self _ _ _
  obtain rfl : _ = v := Option.some.inj (hmeta.symm.trans hv)
  have hnew : s.changedAt ≤ asOf := Nat.le_of_not_lt hfresh
  obtain ⟨hres, hch, hpend⟩ := hg hnew
  obtain ⟨f, hfile, hsize, hmode⟩ := hi.carried asOf e ⟨t, _, by rw [hc]; rfl, List.mem_cons_self⟩ hnew
  exact ⟨f, hfile, fun _ => sized_of_idle (by rw [hs']; exact hpend) (hsize hres), fun _ => hmode hch⟩

/-- A `setattr` edits the entry. -/
theorem sizeInv_edit {t asOf : Nat} {clock : Int} {a : Attr} {rest : List Attr} (hi : SizeInv p s)
    (hc : s.mount.calls t = some (.edit p a asOf rest)) (hg : s.EditOk p t asOf a)
    (hs' : s' = s.withMount ((s.mount.setMeta p (a.edit asOf clock (s.mount.metas p))).goOn t (some (.setattr p rest))))
    (hd : ∀ d, s'.mount.Dates (.entry p) d → d < s'.now) : SizeInv p s' := by
  have hturn := turn_of hs' rfl
  have hnoting := noting_of_turn (p := p) hc rfl hturn
  have hself : s.Editing p t a asOf := by
    rw [Editing, hc]
    rfl
  have hkept : ∀ u b d, u ≠ t → s.Editing p u b d → s'.Editing p u b d := fun u b d hu hb => (hturn.editing hu).2 hb
  have hmeta : s'.mount.metas p = a.edit asOf clock (s.mount.metas p) := by
    rw [hs']
    exact Function.update_self _ _ _
  have hpend : s'.mount.pendingTo p = s.mount.pendingTo p := by
    rw [hs']
    rfl
  refine hi.beside (beside_of hs' hturn rfl rfl) hd fun v hv hfresh => ?_
  rw [hmeta] at hv
  cases a with
  | truncate size =>
    have hold : ∀ w, s.mount.metas p = some w → v = ⟨{ w.value with size, modified := clock }, min w.asOf asOf⟩ := by
      intro w hw
      rw [hw] at hv
      exact (Option.some.inj hv).symm
    have hnew : s.changedAt ≤ asOf := by
      refine Nat.le_of_not_lt fun hlt => hfresh ?_
      cases hm : s.mount.metas p with
      | none =>
        rw [hm] at hv
        obtain rfl := Option.some.inj hv
        exact hlt
      | some w =>
        rw [hold w hm]
        exact Nat.lt_of_le_of_lt (Nat.min_le_right _ _) hlt
    obtain ⟨hres, hidle, hothers, hmode⟩ := hg hnew
    obtain ⟨f, hfile, hsize, -⟩ := hi.edits t _ asOf hself hnew
    have hf : f.size = size := hsize size rfl hres
    refine ⟨f, hfile, ?_⟩
    cases hm : s.mount.metas p with
    | none =>
      rw [hm] at hv
      obtain rfl := Option.some.inj hv
      exact ⟨fun _ => sized_of_idle (hpend.trans hidle) hf.symm, fun _ => (hmode hm f hfile).symm⟩
    | some w =>
      obtain rfl := hold w hm
      have hw : ¬ s.Outdated w := fun h => hfresh (Nat.lt_of_le_of_lt (Nat.min_le_left _ _) h)
      obtain ⟨f', hfile', -, hmode'⟩ := hi.entry w hm hw
      obtain rfl : f = f' := Option.some.inj (hfile.symm.trans hfile')
      refine ⟨fun _ => sized_of_idle (hpend.trans hidle) hf.symm, fun hno => hmode' fun u b d hb => ?_⟩
      by_cases hu : u = t
      · subst hu
        cases hb.symm.trans hself
        rfl
      · exact hno u b d (hkept u b d hu hb)
  | metadata mode modified =>
    cases hm : s.mount.metas p with
    | none =>
      rw [hm] at hv
      cases hv
    | some w =>
      rw [hm] at hv
      obtain rfl := Option.some.inj hv
      have hw : ¬ s.Outdated w := fun h => hfresh (Nat.lt_of_le_of_lt (Nat.min_le_left _ _) h)
      have hnew : s.changedAt ≤ asOf :=
        Nat.le_of_not_lt fun hlt => hfresh (Nat.lt_of_le_of_lt (Nat.min_le_right _ _) hlt)
      obtain ⟨f, hfile, hsize, hmode⟩ := hi.entry w hm hw
      refine ⟨f, hfile, fun hno => ?_, fun hno => ?_⟩
      · refine (hsize fun u b d hb => ?_).mono (extent_congr rfl hpend) hnoting
        by_cases hu : u = t
        · subst hu
          cases hb.symm.trans hself
          rfl
        · exact hno u b d (hkept u b d hu hb)
      · cases mode with
        | some m =>
          obtain ⟨hne, hch, -⟩ := hg hnew m rfl
          obtain ⟨f', hfile', -, hedit⟩ := hi.edits t _ asOf hself hnew
          obtain rfl : f = f' := Option.some.inj (hfile.symm.trans hfile')
          exact (hedit m modified rfl hne hch).symm
        | none =>
          refine hmode fun u b d hb => ?_
          by_cases hu : u = t
          · subst hu
            cases hb.symm.trans hself
            rfl
          · exact hno u b d (hkept u b d hu hb)

/-- An upload to the file is done with. -/
theorem sizeInv_complete {i : Nat} {c : Chunk} {place : ChunkPlace} {m : Mount} (hi : SizeInv p s)
    (hc : s.mount.chunks[i]? = some (c, place)) (hp : c.path = p)
    (hg : (∃ f, s.file = some f ∧ c.stop ≤ f.size) ∨ ∀ v, s.mount.metas p = some v → s.Outdated v)
    (hm : m = { s.mount with chunks := s.mount.chunks.eraseIdx i })
    (hd : ∀ d, (s.withMount m).mount.Dates (.entry p) d → d < (s.withMount m).now) : SizeInv p (s.withMount m) := by
  subst hm
  refine hi.beside ⟨rfl, rfl, rfl, rfl, fun _ _ _ ha => ha, fun _ _ hk => hk⟩ hd fun v hv hfresh => ?_
  obtain ⟨f, hfile, hsize, hmode⟩ := hi.entry v hv hfresh
  refine ⟨f, hfile, fun hno => (hsize hno).mono ?_ fun _ _ h => h, hmode⟩
  obtain ⟨f', hfile', hstop⟩ := hg.resolve_right fun h => hfresh (h v hv)
  obtain rfl : f = f' := Option.some.inj (hfile.symm.trans hfile')
  let m : Mount := { s.mount with chunks := s.mount.chunks.eraseIdx i }
  have hkept := (pendingTo_eraseIdx (p := p) (m := m) hc rfl).2
  have hsub : ∀ d ∈ m.pendingTo p, d ∈ s.mount.pendingTo p :=
    fun d hd => (List.Sublist.filter _ ((List.eraseIdx_sublist _ _).map _)).subset hd
  refine Nat.le_antisymm ?_ ?_
  · exact Nat.max_le.2 ⟨Nat.le_max_left _ _, Nat.le_trans (reach_le_of_subset hsub) (Nat.le_max_right _ _)⟩
  · refine Nat.le_of_not_lt fun hlt => ?_
    rcases lt_extent.1 hlt with h | ⟨d, hmem, h⟩
    · exact absurd h (Nat.not_lt_of_le (Nat.le_max_left _ _))
    · rcases hkept d hmem with rfl | hmem
      · exact absurd (Nat.lt_of_lt_of_le h hstop) (Nat.not_lt_of_le (Nat.le_max_left _ _))
      · exact absurd h (Nat.not_lt_of_le (Nat.le_trans (stop_le_reach hmem) (Nat.le_max_right _ _)))

/-! ## Steps of others -/

theorem dates_tick (hi : SizeInv p s) {d : Nat} (h : s.mount.Dates (.entry p) d) : d < s.now + 1 :=
  Nat.lt_succ_of_lt (hi.dates d h)

theorem sizeInv_lands {i : Nat} {c : Chunk} {place : ChunkPlace} (hi : SizeInv p s)
    (hc : s.mount.chunks[i]? = some (c, place)) (hp : c.path = p) :
    SizeInv p { s.tick with file := some (c.onFile fileMode s.file), resizedAt := s.now } := by
  have hmem : c ∈ s.mount.pendingTo p := by
    refine List.mem_filter.2 ⟨List.mem_map.2 ⟨(c, place), List.mem_of_getElem? hc, rfl⟩, decide_eq_true hp⟩
  have hland : ∀ f, s.file = some f → ∃ f', c.onFile fileMode s.file = f' ∧ f'.mode = f.mode ∧
      max f'.size (reach (s.mount.pendingTo p)) = s.extent p f := by
    intro f hf
    rw [hf]
    refine ⟨_, rfl, rfl, ?_⟩
    show max (if c.len = 0 then f.size else max f.size c.stop) _ = max f.size _
    split
    · rfl
    · rw [Nat.max_assoc, Nat.max_eq_right (stop_le_reach hmem)]
  refine ⟨fun d hd => dates_tick hi hd, ?_, ?_, ?_⟩
  · intro v hv hfresh
    obtain ⟨f, hfile, hsize, hmode⟩ := hi.entry v hv hfresh
    obtain ⟨f', hf', hmode', hext⟩ := hland f hfile
    exact ⟨_, rfl, fun hno => (hsize hno).mono (hf' ▸ hext) fun _ _ h => h,
      fun hno => (hmode hno).trans (hf' ▸ hmode'.symm)⟩
  · intro asOf m hk hfresh
    obtain ⟨f, hfile, -, hmode⟩ := hi.carried asOf m hk hfresh
    obtain ⟨f', hf', hmode', -⟩ := hland f hfile
    exact ⟨_, rfl, fun hle => absurd (carrying_lt hi hk) (Nat.not_lt_of_le hle),
      fun hle => (hmode hle).trans (hf' ▸ hmode'.symm)⟩
  · intro t a asOf ha hfresh
    obtain ⟨f, hfile, -, hmode⟩ := hi.edits t a asOf ha hfresh
    obtain ⟨f', hf', hmode', -⟩ := hland f hfile
    exact ⟨_, rfl, fun _ _ hle => absurd (editing_lt hi ha) (Nat.not_lt_of_le hle),
      fun m modified he hne hle =>
        (hf' ▸ hmode' : (c.onFile fileMode s.file).mode = f.mode).trans (hmode m modified he hne hle)⟩

/-- Others change the file: all that is known of it is out of date. -/
theorem sizeInv_changed {file : Option RemoteFile} (hi : SizeInv p s) :
    SizeInv p { s.tick with file, changedAt := s.now } := by
  refine ⟨fun d hd => dates_tick hi hd, ?_, ?_, ?_⟩
  · intro v hv hfresh
    have hv : s.mount.metas p = some v := hv
    have hdate : s.mount.cachedAt (.entry p) = some v.asOf := congrArg (Option.map Dated.asOf) hv
    exact absurd (hi.dates v.asOf (.inl hdate)) hfresh
  · intro asOf m hk hfresh
    exact absurd (carrying_lt hi hk) (Nat.not_lt_of_le hfresh)
  · intro t a asOf ha hfresh
    exact absurd (editing_lt hi ha) (Nat.not_lt_of_le hfresh)

/-- A call that makes, moves or removes entries edits the entry. -/
theorem sizeInv_names {m : Option EntryMeta} (hi : SizeInv p s)
    (hg : ∀ e, m = some e → showsFile s.file (some e) = true ∧ s.mount.pendingTo p = []) :
    SizeInv p ({ s with mount := s.mount.setMeta p (m.map (⟨·, s.now⟩)) }.tick) := by
  have hmeta : (s.mount.setMeta p (m.map (⟨·, s.now⟩))).metas p = m.map (⟨·, s.now⟩) := Function.update_self _ _ _
  refine hi.beside ⟨rfl, rfl, rfl, rfl, fun _ _ _ ha => ha, fun _ _ hk => hk⟩ (fun d hd => ?_) fun v hv _ => ?_
  · rcases hd with hd | hd
    · obtain ⟨v, hv, rfl⟩ := Option.map_eq_some_iff.1 hd
      obtain ⟨e, -, rfl⟩ := Option.map_eq_some_iff.1 (hmeta.symm.trans hv)
      exact Nat.lt_succ_self _
    · exact dates_tick hi (.inr hd)
  · obtain ⟨e, he, rfl⟩ := Option.map_eq_some_iff.1 (hmeta.symm.trans hv)
    obtain ⟨hshows, hidle⟩ := hg e he
    cases hfile : s.file with
    | none =>
      rw [hfile] at hshows
      cases hshows
    | some f =>
      rw [hfile] at hshows
      obtain ⟨-, hsize, hmode⟩ := of_decide_eq_true hshows
      exact ⟨f, rfl, fun _ => sized_of_idle hidle hsize, fun _ => hmode⟩

theorem sizeInv_retain {paths : List String} (hi : SizeInv p s) : SizeInv p (s.keepOnly paths).tick := by
  have hentry : (s.keepOnly paths).mount.metas p = s.mount.metas p ∨ (s.keepOnly paths).mount.metas p = none := by
    by_cases hp : p ∈ paths
    · exact .inl (if_pos hp)
    · exact .inr (if_neg hp)
  refine hi.frame ⟨rfl, rfl, rfl, rfl, Nat.le_succ _, hentry, rfl, fun _ _ h => h, fun _ _ _ => Iff.rfl,
    fun _ _ h => .inl h⟩ fun d hd => ?_
  rcases hd with hd | hd
  · rcases hentry with he | he
    · exact dates_tick hi (.inl (show (s.mount.metas p).map _ = _ from he ▸ hd))
    · obtain ⟨v, hv, -⟩ := Option.map_eq_some_iff.1 hd
      cases he.symm.trans hv
  · exact dates_tick hi (.inr hd)

/-! ## Every step -/

theorem sizeInv_request {t : Nat} {b : Answer} {a : Attr} {m : Mount} (hi : SizeInv p s)
    (hfits : s.fits p (.answer t b) = true) (hreq : s.request p (.answer t b) = some a)
    (h : s.mount.act ignore (.answer t b) = some m)
    (hd : ∀ d, ((s.carryOut fileMode (some a)).withMount m).mount.Dates (.entry p) d → d < s.now + 1) :
    SizeInv p ((s.carryOut fileMode (some a)).withMount m) := by
  obtain ⟨c, hc, h⟩ := Option.bind_eq_some_iff.1 h
  cases b with
  | ok =>
    cases c with
    | setattr q todo =>
      cases todo with
      | nil => cases h
      | cons b rest =>
        simp only [request, hc, Option.ite_none_right_eq_some] at hreq
        obtain ⟨rfl, hreq⟩ := hreq
        obtain rfl := Option.some.inj hreq
        cases b with
        | truncate size =>
          cases h
          exact sizeInv_truncate hi hc rfl hd
        | metadata mode modified =>
          have hsome : s.file.isSome = true := by simpa [fits, hc] using hfits
          cases h
          cases mode with
          | some n => exact sizeInv_chmod hi hc hsome rfl hd
          | none => exact sizeInv_touch hi hc hsome rfl hd
    | _ => cases h
  | _ => cases hreq

theorem sizeInv_special {a : MountAct} {m : Mount} (hi : SizeInv p s) (hg : SizeGuard p s (.mount a))
    (hsp : s.Special p a) (h : s.mount.act ignore a = some m)
    (hd : ∀ d, (s.withMount m).mount.Dates (.entry p) d → d < s.now + 1) : SizeInv p (s.withMount m) := by
  rcases hsp with ⟨t, clock, c, rfl, hc, ht⟩ | ⟨i, c, place, rfl, hc, hp⟩
  · obtain ⟨c', hc', h⟩ := Option.bind_eq_some_iff.1 h
    obtain rfl : c = c' := Option.some.inj (hc.symm.trans hc')
    simp only [SizeGuard, hc] at hg
    cases c with
    | put asOf looked todo =>
      match looked, todo, ht with
      | l + 2, (q, e) :: rest, hq =>
        obtain rfl : q = p := hq
        cases h
        exact sizeInv_put hi hc (hg rfl) rfl hd
    | edit q a asOf rest =>
      obtain rfl : q = p := ht
      cases h
      exact sizeInv_edit hi hc (hg rfl) rfl hd
    | write ch =>
      cases h
      exact sizeInv_write hi hc ht rfl hd
    | note ch =>
      obtain rfl : ch.path = p := ht
      cases h
      exact sizeInv_note hi hc rfl (hg rfl) rfl hd
    | _ => exact absurd ht id
  · simp only [Mount.act, hc] at h
    split at h
    · cases h
      exact sizeInv_complete hi hc hp (hg c place hc hp) rfl hd
    · cases h

theorem SizeInv.step {act : FileAct} (hi : SizeInv p s) (hg : SizeGuard p s act)
    (h : s.step ignore p fileMode act = some s') : SizeInv p s' := by
  cases act with
  | mount a =>
    obtain ⟨hfits, m, hm, rfl⟩ := step_mount h
    have hd : ∀ d, ((s.carryOut fileMode (s.request p a)).withMount m).mount.Dates (.entry p) d → d < s.now + 1 :=
      fun d hd => dates_act hi.dates hm hd
    cases hreq : s.request p a with
    | some b =>
      rw [hreq] at hd
      cases a with
      | answer t c => exact sizeInv_request hi hfits hreq hm hd
      | _ => cases hreq
    | none =>
      rw [hreq] at hd
      by_cases hsp : s.Special p a
      · exact sizeInv_special hi hg hsp hm hd
      · exact hi.frame (frame_act hfits hreq hsp hm) hd
  | lands i =>
    simp only [SharedFile.step] at h
    split at h
    · rename_i c hc
      split at h
      · rename_i hp
        cases h
        exact sizeInv_lands hi hc hp
      · cases h
    · cases h
  | changed file =>
    cases h
    exact sizeInv_changed hi
  | names m =>
    cases h
    refine sizeInv_names hi fun e he => ?_
    subst he
    exact hg
  | collect =>
    cases h
    exact hi.frame ⟨rfl, rfl, rfl, rfl, Nat.le_succ _, .inl rfl, rfl, fun _ _ h => h, fun _ _ _ => Iff.rfl,
      fun _ _ h => .inl h⟩ fun d hd => dates_tick hi hd
  | retain =>
    obtain ⟨paths, -, rfl⟩ := Option.map_eq_some_iff.1 h
    exact sizeInv_retain hi

end SharedFile

end Mobfs
