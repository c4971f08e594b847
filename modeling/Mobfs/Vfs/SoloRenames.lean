import Mobfs.Vfs.SoloCalls
/-!
# Renames of a mount and their sizes

A rename waits for the writes under both names, and the entries of `metas` and what is written to
the files go along with it.
-/

namespace Mobfs

open Lib Std
open WriteBack (matching)
open MountTables (Numbered ino_numbered)

namespace SoloMount

section Facts
variable {w : Walks} {blobs : String → Bytes} {ignore : List String} {s s' : SoloMount} {p q : String} {m : EntryMeta}
  {stamp : Stamp}

/-! ## Renaming -/

/-- The inodes under one name go under the other, between calls. -/
structure Renames (src dst : String) (s s' : SoloMount) : Prop where
  buffers : s'.tables.buffers = s.tables.buffers
  uploads : s'.tables.uploads = s.tables.uploads
  writing : s.writing = none ∧ s'.writing = none
  dispatching : s'.dispatching = s.dispatching
  inodes : s'.tables.side.inodes = s.tables.side.inodes.rename src dst

section Rename
variable {src dst : String}

theorem resolved_path {t : InodeMaps} {x : Dispatching} (hr : x.resolved = false)
    (hq : t.byIno[x.pending.ino]? = some q) : x.path t = q := by
  rw [Dispatching.path, hr, if_neg Bool.false_ne_true, Pending.resolve, hq]
  rfl

/-- A buffer that has not looked up its path follows its inode. -/
theorem Renames.path (hm : Renames src dst s s') (hn : s.Named) {x : Dispatching} (hx : x ∈ s.dispatching)
    (hd : matching dst (x.path s.tables.side.inodes) = false)
    (hr : x.resolved = true → matching src (x.path s.tables.side.inodes) = false) :
    x.path s'.tables.side.inodes = if matching src (x.path s.tables.side.inodes) then
      rebase src dst (x.path s.tables.side.inodes) else x.path s.tables.side.inodes := by
  cases hres : x.resolved with
  | true =>
    rw [hr hres, if_neg Bool.false_ne_true, Dispatching.path, Dispatching.path, hres]
    rfl
  | false =>
    obtain ⟨q, hq⟩ := Option.ne_none_iff_exists'.1 (hn.dispatching x hx hres)
    rw [resolved_path hres hq] at hd ⊢
    rw [hm.inodes]
    by_cases hs : matching src q = true
    · rw [if_pos hs]
      exact resolved_path hres (InodeMaps.byIno_rename_moved hn.inodes hq hs hd)
    · rw [if_neg hs]
      exact resolved_path hres (InodeMaps.byIno_rename_other hn.inodes hq (by simpa using hs) hd)

theorem Renames.named (hm : Renames src dst s s') (hn : s.Named)
    (hb : ∀ (fh : Nat) (c : Pending), s.tables.buffers[fh]? = some c →
      matching src c.path = false ∧ matching dst c.path = false)
    (hd : ∀ x ∈ s.dispatching, x.resolved = false → matching dst (x.path s.tables.side.inodes) = false) : s'.Named := by
  refine ⟨?_, fun fh c hc => ?_, fun c hc => ?_, fun x hx hr => ?_⟩
  · rw [hm.inodes]
    exact (InodeMaps.rename_valid hn.inodes src dst).1
  · rw [hm.buffers] at hc
    rw [hm.inodes]
    exact InodeMaps.byIno_rename_other hn.inodes (hn.buffers fh c hc) (hb fh c hc).1 (hb fh c hc).2
  · rw [displaced, hm.writing.2] at hc
    cases hc
  · rw [hm.dispatching] at hx
    obtain ⟨q, hq⟩ := Option.ne_none_iff_exists'.1 (hn.dispatching x hx hr)
    have hdst := hd x hx hr
    rw [resolved_path hr hq] at hdst
    rw [hm.inodes]
    by_cases hs : matching src q = true
    · rw [InodeMaps.byIno_rename_moved hn.inodes hq hs hdst]
      exact Option.some_ne_none _
    · rw [InodeMaps.byIno_rename_other hn.inodes hq (by simpa using hs) hdst]
      exact Option.some_ne_none _

theorem Renames.waiting_iff (hm : Renames src dst s s') (q r : String) (n : Nat)
    (hb : ∀ (fh : Nat) (c : Pending), s.tables.buffers[fh]? = some c → (c.path = q ↔ c.path = r))
    (hu : ∀ u ∈ s.tables.uploads, (u.pending.path = q ↔ u.pending.path = r))
    (hd : ∀ x ∈ s.dispatching, (x.path s'.tables.side.inodes = q ↔ x.path s.tables.side.inodes = r)) :
    s'.Waiting q n ↔ s.Waiting r n := by
  have hnone : s'.displaced = s.displaced := by rw [displaced, displaced, hm.writing.1, hm.writing.2]
  have hdisp : s.displaced = none := by rw [displaced, hm.writing.1]; rfl
  unfold Waiting
  rw [hm.buffers, hm.uploads, hm.dispatching, hnone, hdisp]
  refine or_congr ?_ (or_congr (by simp) (or_congr ?_ ?_))
  · exact exists_congr fun fh => exists_congr fun c => and_congr_right fun hc => and_congr_left fun _ => hb fh c hc
  · exact exists_congr fun x => and_congr_right fun hx => and_congr_left fun _ => hd x hx
  · exact exists_congr fun u => and_congr_right fun hmem => and_congr_right fun _ => and_congr_left fun _ => hu u hmem

/-- Nothing is pending under the two names, as `rename` sees it, and what it does not see
goes by its inode and is not under the new name. -/
structure Clear (src dst : String) (s : SoloMount) : Prop where
  buffers : ∀ (fh : Nat) (c : Pending), s.tables.buffers[fh]? = some c →
    matching src c.path = false ∧ matching dst c.path = false
  uploads : ∀ u ∈ s.tables.uploads, matching src u.pending.path = false ∧ matching dst u.pending.path = false
  dispatching : ∀ x ∈ s.dispatching, matching dst (x.path s.tables.side.inodes) = false ∧
    (x.resolved = true → matching src (x.path s.tables.side.inodes) = false)

theorem ne_of_matching {d a b : String} (ha : matching d a = true) (hb : matching d b = false) : b ≠ a := by
  rintro rfl
  rw [ha] at hb
  cases hb

theorem Clear.not_dst {n : Nat} (hc : Clear src dst s) (hw : s.writing = none) (h : s.Waiting q n) :
    matching dst q = false := by
  rcases h with ⟨fh, c, hb, rfl, -⟩ | ⟨c, hd, -⟩ | ⟨x, hx, rfl, -⟩ | ⟨u, hu, -, rfl, -⟩
  · exact (hc.buffers fh c hb).2
  · rw [displaced, hw] at hd
    cases hd
  · exact (hc.dispatching x hx).1
  · exact (hc.uploads u hu).2

theorem Renames.waiting_moved (hm : Renames src dst s s') (hc : Clear src dst s) (hn : s.Named)
    (hq : matching dst q = true) (n : Nat) : s'.Waiting q n ↔ s.Waiting (rebase dst src q) n := by
  have hback := matching_rebase src hq
  refine hm.waiting_iff q _ n (fun fh c hb => ?_) (fun u hu => ?_) fun x hx => ?_
  · obtain ⟨hs, hd⟩ := hc.buffers fh c hb
    exact iff_of_false (ne_of_matching hq hd) (ne_of_matching hback hs)
  · obtain ⟨hs, hd⟩ := hc.uploads u hu
    exact iff_of_false (ne_of_matching hq hd) (ne_of_matching hback hs)
  · obtain ⟨hd, hr⟩ := hc.dispatching x hx
    rw [hm.path hn hx hd hr]
    constructor
    · intro he
      split at he
      · rename_i hs
        rw [← he, rebase_rebase dst hs]
      · exact absurd he (ne_of_matching hq hd)
    · intro he
      rw [he, if_pos hback, rebase_rebase src hq]

theorem Renames.waiting_other (hm : Renames src dst s s') (hc : Clear src dst s) (hn : s.Named)
    (hs : matching src q = false) (hd : matching dst q = false) (n : Nat) : s'.Waiting q n ↔ s.Waiting q n := by
  refine hm.waiting_iff q q n (fun _ _ _ => Iff.rfl) (fun _ _ => Iff.rfl) fun x hx => ?_
  obtain ⟨hdst, hr⟩ := hc.dispatching x hx
  rw [hm.path hn hx hdst hr]
  split
  · rename_i hsrc
    exact iff_of_false (Ne.symm (ne_of_matching (matching_rebase dst hsrc) hd)) (Ne.symm (ne_of_matching hsrc hs))
  · exact Iff.rfl

/-- Nothing goes to the old name any more. -/
theorem Renames.waiting_old (hm : Renames src dst s s') (hc : Clear src dst s) (hn : s.Named)
    (hs : matching src q = true) (hd : matching dst q = false) (n : Nat) : ¬ s'.Waiting q n := by
  rintro (⟨fh, c, hb, he, -⟩ | ⟨c, hw, -⟩ | ⟨x, hx, he, -⟩ | ⟨u, hu, -, he, -⟩)
  · rw [hm.buffers] at hb
    exact ne_of_matching hs (hc.buffers fh c hb).1 he
  · rw [displaced, hm.writing.2] at hw
    cases hw
  · rw [hm.dispatching] at hx
    obtain ⟨hdst, hr⟩ := hc.dispatching x hx
    rw [hm.path hn hx hdst hr] at he
    split at he
    · rename_i hsrc
      exact Ne.symm (ne_of_matching (matching_rebase dst hsrc) hd) he
    · rename_i hsrc
      exact ne_of_matching hs (by simpa using hsrc) he
  · rw [hm.uploads] at hu
    exact ne_of_matching hs (hc.uploads u hu).1 he

/-- The files, their entries and what is on its way for them go under the new name. -/
theorem renamed_inv (h : s.SizesInv) (hm : Renames src dst s s') (hc : Clear src dst s)
    (hother : ∀ q, matching src q = false → matching dst q = false → s.tree.SameAt q s'.tree q)
    (hmoved : ∀ q, matching dst q = true → matching dst (rebase dst src q) = false →
      s.tree.SameAt (rebase dst src q) s'.tree q)
    (hmetas : s'.tables.caches.metas = moveSubtree s.tables.caches.metas src dst) : s'.SizesInv := by
  have hn := h.named
  have hnamed : s'.Named := hm.named hn hc.buffers fun x hx _ => (hc.dispatching x hx).1
  have hun : ∀ q r k, s'.Unnoted q k ↔ s.Unnoted r k := fun q r k =>
    iff_of_false (not_unnoted hm.writing.2 q k) (not_unnoted hm.writing.1 r k)
  refine ⟨hnamed, fun q n hq => ?_, fun wr hwr => ?_, fun q m hq => ?_⟩
  · cases hd : matching dst q with
    | true =>
      have hq := (hm.waiting_moved hc hn hd n).1 hq
      have hfile := h.files _ n hq
      rwa [(hmoved q hd (hc.not_dst hm.writing.1 hq) (Tree.node_of_sizeAt hfile)).2]
    | false =>
      cases hs : matching src q with
      | true => exact absurd hq (hm.waiting_old hc hn hs hd n)
      | false =>
        have hfile := h.files q n ((hm.waiting_other hc hn hs hd n).1 hq)
        rwa [(hother q hs hd (Tree.node_of_sizeAt hfile)).2]
  · rw [hm.writing.2] at hwr
    cases hwr
  · rw [hmetas, getElem?_moveSubtree] at hq
    split at hq
    · rename_i hd
      split at hq
      · cases hq
      · rename_i hback
        exact (h.cached _ m hq).moved (hmoved q hd (by simpa using hback)) (hm.waiting_moved hc hn hd) fun k =>
          hun _ _ k
    · rename_i hd
      split at hq
      · cases hq
      · rename_i hs
        have hd : matching dst q = false := by simpa using hd
        have hs : matching src q = false := by simpa using hs
        exact (h.cached q m hq).moved (hother q hs hd) (hm.waiting_other hc hn hs hd) fun k => hun _ _ k

/-- A rename of sidecars moves no data that goes by its inode. -/
theorem renamed_aside (h : s.SizesInv) (hm : Renames src dst s s')
    (hu : ∀ q, s.Unbound q → matching src q = false ∧ matching dst q = false) (htree : s'.tree = s.tree)
    (hmetas : s'.tables.caches = s.tables.caches) : s'.SizesInv := by
  have hn := h.named
  have hd : ∀ x ∈ s.dispatching, x.resolved = false → matching src (x.path s.tables.side.inodes) = false ∧
      matching dst (x.path s.tables.side.inodes) = false := fun x hx hr => hu _ (.inr ⟨x, hx, hr, rfl⟩)
  have hpath : ∀ x ∈ s.dispatching, x.path s'.tables.side.inodes = x.path s.tables.side.inodes := by
    intro x hx
    cases hr : x.resolved with
    | true =>
      unfold Dispatching.path
      rw [hr]
      rfl
    | false =>
      obtain ⟨hsrc, hdst⟩ := hd x hx hr
      rw [hm.path hn hx hdst fun _ => hsrc, hsrc, if_neg Bool.false_ne_true]
  have hwait : ∀ q n, s'.Waiting q n ↔ s.Waiting q n := fun q n =>
    hm.waiting_iff q q n (fun _ _ _ => Iff.rfl) (fun _ _ => Iff.rfl) fun x hx => by rw [hpath x hx]
  have hnamed : s'.Named := hm.named hn (fun fh c hc => hu _ (.inl ⟨fh, c, hc, rfl⟩)) fun x hx hr => (hd x hx hr).2
  refine h.of_steady hnamed (by rw [hm.writing.1, hm.writing.2]) (fun q hq => ?_) (fun q n => (hwait q n).1)
    (fun q k _ => ?_) fun q m hq => ?_
  · rw [htree]
    exact ⟨hq, Iff.rfl⟩
  · unfold Reaches
    simp only [hwait, htree]
  · rw [hmetas] at hq
    exact h.cached q m hq

theorem sideRename_aside {sd : SideData} {parent newparent : Nat} {name newname : String} (noreplace : Bool)
    (hsrc : sd.inodes.childPath parent name = .ok src) (hdst : sd.inodes.childPath newparent newname = .ok dst)
    (ha : isSidecar src = true ∨ isAside ignore dst = true) :
    (sd.rename ignore parent name newparent newname noreplace (.ok ())).1.inodes = sd.inodes ∨
      (isSidecar src = true ∧ isSidecar dst = true) ∧
      (sd.rename ignore parent name newparent newname noreplace (.ok ())).1.inodes = sd.inodes.rename src dst := by
  unfold SideData.rename
  rw [hsrc, hdst]
  dsimp only
  split
  · rename_i hboth
    split
    · exact .inl rfl
    · split
      · exact .inl rfl
      · exact .inr ⟨by simpa using hboth, rfl⟩
  · split
    · exact .inl rfl
    · rename_i hno
      split
      · exact .inl rfl
      · rename_i hign
        simp only [Bool.or_eq_true, not_or, Bool.not_eq_true] at hno hign
        rcases ha with ha | ha
        · simp [hno.1] at ha
        · simp [isAside, hno.2, hign] at ha

theorem sideRename_remote {sd : SideData} {parent newparent : Nat} {name newname : String} (noreplace : Bool)
    (hsrc : sd.inodes.childPath parent name = .ok src) (hdst : sd.inodes.childPath newparent newname = .ok dst)
    (hs : isSidecar src = false) (hd : isAside ignore dst = false) :
    (sd.rename ignore parent name newparent newname noreplace (.ok ())).1.inodes = sd.inodes.rename src dst := by
  obtain ⟨hside, hign⟩ := Bool.or_eq_false_iff.1 hd
  simp [SideData.rename, hsrc, hdst, hs, hside, hign]

theorem looks_side (asked : Bool) (k : CacheClock) (p : String) : (s.looks w asked k p).1.side = s.tables.side := by
  unfold looks MountTables.occupied
  split
  · split
    · rfl
    · split
      · rfl
      · cases Mobfs.statRemote w s.tree p with
        | none => rfl
        | some m =>
          dsimp only [MountTables.statRemote]
          split <;> rfl
  · rfl

theorem rename_inv {parent newparent : Nat} {name newname : String} {noreplace : Bool} {k : CacheClock}
    (h : s.SizesInv) (hw : s.writing = none)
    (hg : s.CallOk w ignore (.rename parent name newparent newname noreplace k stamp))
    (hs : s.rename w blobs ignore parent name newparent newname noreplace k stamp = some s') : s'.SizesInv := by
  unfold SoloMount.rename at hs
  cases hsrc : s.tables.side.inodes.childPath parent name with
  | error e =>
    rw [hsrc] at hs
    cases hs
    exact h
  | ok src =>
    cases hdst : s.tables.side.inodes.childPath newparent newname with
    | error e =>
      rw [hsrc, hdst] at hs
      cases hs
      exact h
    | ok dst =>
      rw [hsrc, hdst] at hs
      dsimp only at hs
      have hg := hg src dst hsrc hdst
      split at hs
      · rename_i ha
        cases hs
        rcases sideRename_aside noreplace hsrc hdst (by simpa using ha) with hi | ⟨hboth, hi⟩
        · refine aside_inv h ?_
          rw [hi]
          exact .refl _
        · rw [if_pos hboth] at hg
          exact renamed_aside h ⟨rfl, rfl, ⟨hw, hw⟩, rfl, hi⟩ hg rfl rfl
      · rename_i ha
        simp only [Bool.or_eq_true, not_or, Bool.not_eq_true] at ha
        obtain ⟨hs0, hd0⟩ := ha
        rw [if_neg (by simp [hs0])] at hg
        obtain ⟨hps, hpd, hseen, hfree⟩ := hg hs0 hd0
        have hlooked := looks_inv (w := w) (k := k) h hw hpd hseen
        have hr := looks_renumbers (s := s) (w := w) noreplace k dst
        have hside := looks_side (s := s) (w := w) noreplace k dst
        split at hs
        · cases hs
          exact hlooked
        · rename_i htaken
          have hfree := hfree (by simpa using htaken)
          obtain ⟨hpend, hs⟩ := Option.ite_none_left_eq_some.1 hs
          obtain ⟨s1, h1, hs⟩ := Option.map_eq_some_iff.1 hs
          obtain ⟨hs1, hcalls⟩ := request_eq h1
          obtain ⟨hother, hmoved⟩ := rename_sameAt rfl hps hpd hcalls
          have htree : s'.tree = s1.tree := by rw [← hs]; rfl
          simp only [Bool.or_eq_true, not_or, Bool.not_eq_true] at hpend
          obtain ⟨hbs, hus⟩ := hasPendingWrite_eq_false hpend.1
          obtain ⟨hbd, hud⟩ := hasPendingWrite_eq_false hpend.2
          have hm : Renames src dst (s.setTables (s.looks w noreplace k dst).1) s' := by
            rw [← hs, hs1]
            refine ⟨rfl, rfl, ⟨hw, hw⟩, rfl, ?_⟩
            show _ = InodeMaps.rename (s.looks w noreplace k dst).1.side.inodes src dst
            rw [hside]
            exact sideRename_remote noreplace hsrc hdst hs0 hd0
          refine renamed_inv hlooked hm
            ⟨fun fh c hc => ⟨hbs fh c hc, hbd fh c hc⟩, fun u hu => ⟨hus u hu, hud u hu⟩, ?_⟩
            (fun q hqs hqd => ?_) (fun q hq hback => ?_) ?_
          · show ∀ x ∈ s.dispatching, matching dst (x.path (s.looks w noreplace k dst).1.side.inodes) = false ∧
              (x.resolved = true → matching src (x.path (s.looks w noreplace k dst).1.side.inodes) = false)
            rw [hside]
            exact hfree
          · rw [htree]
            exact hother q hqs hqd
          · rw [htree]
            exact hmoved q hq hback
          · rw [← hs, hs1]
            exact Caches.metas_renamed src dst

end Rename

end Facts

end SoloMount

end Mobfs
