import Mobfs.Daemon.Again
import Mobfs.Daemon.Edits
import Mobfs.Vfs.Mutate
/-!
# Which changes are announced

`announced_iff` says for every request that is answered `Ok` when all it has changed is
at or below what it has recorded: no directory was missing on the way, the path leads to
the entry of that name and not elsewhere, and no temporary file has come or gone. The
binary write records nothing (`binary_write_not_announced`).
-/

namespace Mobfs

open Lib Std
open WriteBack (matching)

/-- What is relied on beyond `Walks`. -/
structure Walks.Real (w : Walks) : Prop where
  /-- Two names in a directory are two entries. -/
  apart : ∀ t p n n' q, '/' ∉ n.toList → '/' ∉ n'.toList → n ≠ n' → w.locate t (withFileName p n) = some q →
    w.locate t (withFileName p n') ≠ some q
  /-- A file changes no way. -/
  beside : ∀ t t' q data mode mtime, t.isLink q = false → t.place q (.file data mode mtime) = some t' →
    w.locate t' = w.locate t
  /-- There is nothing in a directory that has just been made. -/
  made : ∀ t t' mode p q, createDirs w.toLinks mode t (ancestors p) = some t' →
    (∃ d ∈ ancestors p, w.lookup t d = none) → w.locate t' p = some q → t'.node q = none

/-- The request reaches no other entry than the one of its path, and needs no directory
made on the way. -/
def Request.Direct (w : Walks) (pid : Nat) (h : Handling) (frame : Bytes) (t : Tree) : Request → Prop
  | .writeFile _ p data mode =>
    NoneMissing w t p ∧ w.lookup t (atomicTempPath pid p) = none ∧
      ∀ q, w.locate t p = some q → q = p ∨ t.node q = some (.file data (chmodded w mode h.stamp.fileMode) h.stamp.mtime)
  | .writeFileStart _ p uploadId => NoneMissing w t p ∧ ∀ temp, uploadTempPath p uploadId = some temp → w.there t temp = true
  | .writeFileChunk _ p uploadId offset data =>
    ∀ temp q, uploadTempPath p uploadId = some temp → w.follow t temp = some q →
      Unwritten h.stamp offset data t q
  | .writeFileFinish _ _ _ _ _ => False
  | .writeFileAt _ p offset data =>
    NoneMissing w t p ∧ ∀ q, w.follow t p = some q → q = p ∨ Unwritten h.stamp offset data t q
  | .writeFileAtBinary _ p offset _ =>
    NoneMissing w t p ∧ ∀ q, w.follow t p = some q → Unwritten h.stamp offset frame t q
  | .truncate _ p size _ =>
    NoneMissing w t p ∧ ∀ q, w.follow t p = some q → q = p ∨ Unedited h.stamp (resize · size) t q
  | .rename _ src dst _ =>
    NoneMissing w t dst ∧ (w.lookup t src = none ∨ ∀ q q', w.locate t src = some q → w.locate t dst = some q' →
      q = q' ∨ (q = src ∧ (q' = dst ∨ ∀ r, matching q r = true → t.node (rebase q q' r) = t.node r)))
  | .symlink _ p target _ =>
    NoneMissing w t p ∧ ∀ q, w.locate t p = some q →
      q = p ∨ (t.node q = some (.symlink target h.stamp.linkMode h.stamp.mtime) ∧ w.locate (t.drop q) p = some q)
  | .setMetadata _ p mode modified _ =>
    ∀ q n, w.follow t p = some q → t.node q = some n → q = p ∨ n.edited w mode modified = n
  | .mkdir _ p _ => NoneMissing w t p ∧ ∀ q, w.locate t p = some q → t.node q = none → q = p
  | .remove _ p _ _ => ∀ q, w.locate t p = some q → t.node q ≠ none → q = p
  | _ => True

section Facts
variable {w : Walks} {t t' t1 : Tree} {p q : String}

/-! ## Renames -/

section Rename
variable {src dst q' : String}

theorem announced_pair_iff {r : String} (hsrc : src ≠ "") (hdst : dst ≠ "") :
    Announced [⟨src, .replaced⟩, ⟨dst, .replaced⟩] r ↔ matching src r = true ∨ matching dst r = true := by
  simp only [Announced, List.mem_cons, List.not_mem_nil, or_false, exists_eq_or_imp, exists_eq_left, matching_iff,
    true_and, hsrc, hdst, false_or]

/-- What a rename has changed is found where its path says. -/
theorem plain_of_rename {r : String} (hne : q ≠ q') (hmv : t.rename q q' = some t') (hr : t'.node r ≠ t.node r)
    (hm : matching p r = true) : t.Plain p := by
  intro d hd
  have hb := below_of_matching hd hm
  by_cases hn : t.node r = none
  · -- It is new, and a link above it would have become a directory.
    have hdir : t'.isDir d = true := Tree.isDir_of_below hb fun h => hr (h.trans hn.symm)
    by_contra hlink
    rw [Tree.isDir_of_rename_link hne hmv (by simpa using hlink)] at hdir
    cases hdir
  · exact Tree.isLink_of_isDir (Tree.isDir_of_below hb hn)

theorem locate_of_rename {r : String} (hne : q ≠ q') (hmv : t.rename q q' = some t') (hr : t'.node r ≠ t.node r)
    (hm : matching p r = true) : w.locate t p = some p :=
  w.locate_plain t p (plain_of_rename hne hmv hr hm)

/-- A new directory at or below a path leads to an entry there. -/
theorem lookup_of_made {d : String} (hdir : t1.isDir d = true) (hm : matching p d = true) :
    t1.node p ≠ none ∧ w.locate t1 p = some p := by
  have hd : t1.node d ≠ none := fun h => by simp [Tree.isDir, h] at hdir
  have hp : t1.node p ≠ none := by
    rcases matching_iff.1 hm with rfl | hb
    · exact hd
    · intro h
      have := Tree.isDir_of_below hb hd
      simp [Tree.isDir, h] at this
  exact ⟨hp, w.locate_plain t1 p (Tree.plain_of_node hp)⟩

theorem none_of_matching (hn : t.node p = none) (hm : matching p q = true) : t.node q = none := by
  rcases matching_iff.1 hm with rfl | hb
  · exact hn
  · exact Tree.none_of_below hb (by simp [Tree.isDir, hn])

/-- A directory that is made for a rename and moved by it is not announced where it is then. -/
theorem moved_along_not_announced {mode : Nat} {d : String} (hsrc : src ≠ "") (hdst : dst ≠ "")
    (hmk : createDirs w.toLinks mode t (ancestors dst) = some t1) (hn : t.node d = none) (hd : t1.node d ≠ none)
    (hnew : t1.node q' = none) (hne : q ≠ q') (hq : w.locate t1 src = some q) (hq' : w.locate t1 dst = some q')
    (hmv : t1.rename q q' = some t') (hqd : matching q d = true) :
    t'.node (rebase q q' d) ≠ t.node (rebase q q' d) ∧
      ¬ Announced [⟨src, .replaced⟩, ⟨dst, .replaced⟩] (rebase q q' d) := by
  have hmoved := Tree.moved_of_rename hne hmv
  have hto : matching q' (rebase q q' d) = true := matching_rebase q' hqd
  have hnode : t'.node (rebase q q' d) = t1.node d := by rw [hmoved.node, if_pos hto, rebase_rebase q' hqd]
  have hold : t1.node (rebase q q' d) = none := none_of_matching hnew hto
  have ht : t.node (rebase q q' d) = none := by
    by_contra h
    exact (createDirs_adds hmk).node_ne_none h hold
  have hchanged : t'.node (rebase q q' d) ≠ t1.node (rebase q q' d) := by rwa [hnode, hold]
  refine ⟨by rwa [hnode, ht], fun hann => ?_⟩
  rcases (announced_pair_iff hsrc hdst).1 hann with hm | hm
  · have := locate_of_rename (w := w) hne hmv hchanged hm
    rw [hq] at this
    cases this
    rcases matching_total hm hto with h | h
    · exact Bool.false_ne_true (hmoved.src_dst.symm.trans h)
    · exact Bool.false_ne_true (hmoved.dst_src.symm.trans h)
  · have hplain := plain_of_rename hne hmv hchanged hm
    have hself := w.locate_plain t1 dst hplain
    rw [hq'] at hself
    cases hself
    -- It is one of the directories of `dst`, and `dst` is not below `src`.
    have hplain' : t.Plain dst := fun e he => by rw [← (createDirs_adds hmk).isLink]; exact hplain e he
    rcases (createDirs_spec (plain_ancestors hplain') hmk).1 d with hsame | ⟨hmem, -, -⟩
    · exact hd (hsame.trans hn)
    · have := hmoved.src_dst
      rw [matching_iff.2 (.inr (matching_below hqd (mem_ancestors_iff.1 hmem)))] at this
      cases this

/-- A directory that is made for a rename is not announced, nor is what becomes of it. -/
theorem rename_missing {mode : Nat} (hw : w.Real) (hsrc : src ≠ "") (hdst : dst ≠ "")
    (hmk : createDirs w.toLinks mode t (ancestors dst) = some t1) (hmiss : ¬ NoneMissing w t dst)
    (hq : w.locate t1 src = some q) (hq' : w.locate t1 dst = some q') (hmv : t1.rename q q' = some t') :
    ¬ AllAnnounced t t' [⟨src, .replaced⟩, ⟨dst, .replaced⟩] := by
  intro hall
  have hex : ∃ d ∈ ancestors dst, w.lookup t d = none := by simpa [NoneMissing] using hmiss
  obtain ⟨d, hn, hdir⟩ := createDirs_of_missing hex hmk
  have hnew : t1.node q' = none := hw.made t t1 mode dst q' hmk hex hq'
  have hd : t1.node d ≠ none := fun h => by simp [Tree.isDir, h] at hdir
  have hne : q ≠ q' := by
    rintro rfl
    simp [Tree.rename, hnew] at hmv
  by_cases hqd : matching q d = true
  · obtain ⟨hdiff, hnot⟩ := moved_along_not_announced hsrc hdst hmk hn hd hnew hne hq hq' hmv hqd
    exact hnot (hall _ hdiff)
  · -- It stays where it is, which is not below either path.
    have hq'd : ¬ matching q' d = true := fun hm => hd (none_of_matching hnew hm)
    have hnode : t'.node d = t1.node d := by rw [(Tree.moved_of_rename hne hmv).node, if_neg hq'd, if_neg hqd]
    rcases (announced_pair_iff hsrc hdst).1 (hall d (by rw [hnode, hn]; exact hd)) with hm | hm
    · have := (lookup_of_made (w := w) hdir hm).2
      rw [hq] at this
      cases this
      exact hqd hm
    · rw [made_apart hmk hn hdir] at hm
      cases hm

/-- Both paths are recorded, and both lead to the entries that are changed. -/
theorem moved_iff (hsrc : src ≠ "") (hdst : dst ≠ "") (hne : q ≠ q') (hq : w.locate t src = some q)
    (hq' : w.locate t dst = some q') (hmv : t.rename q q' = some t') :
    AllAnnounced t t' [⟨src, .replaced⟩, ⟨dst, .replaced⟩] ↔
      q = src ∧ (q' = dst ∨ ∀ r, matching q r = true → t.node (rebase q q' r) = t.node r) := by
  have hmoved := Tree.moved_of_rename hne hmv
  constructor
  · intro hall
    have hgone : t'.node q ≠ t.node q := by
      rw [hmoved.node_src]
      exact hmoved.src_ne.symm
    have hqs : q = src := by
      rcases (announced_pair_iff hsrc hdst).1 (hall q hgone) with hm | hm
      · have := locate_of_rename (w := w) hne hmv hgone hm
        exact Option.some.inj (hq.symm.trans this)
      · have := locate_of_rename (w := w) hne hmv hgone hm
        rw [hq'] at this
        cases this
        exact absurd (hmoved.dst_src.symm.trans hm) Bool.false_ne_true
    refine ⟨hqs, ?_⟩
    by_contra hnot
    push Not at hnot
    obtain ⟨hq'd, r, hr, hchanged⟩ := hnot
    have hto : matching q' (rebase q q' r) = true := matching_rebase q' hr
    have hnode : t'.node (rebase q q' r) = t.node r := by rw [hmoved.node, if_pos hto, rebase_rebase q' hr]
    have hdiff : t'.node (rebase q q' r) ≠ t.node (rebase q q' r) := hnode ▸ hchanged.symm
    rcases (announced_pair_iff hsrc hdst).1 (hall _ hdiff) with hm | hm
    · rw [← hqs] at hm
      rcases matching_total hm hto with h | h
      · exact Bool.false_ne_true (hmoved.src_dst.symm.trans h)
      · exact Bool.false_ne_true (hmoved.dst_src.symm.trans h)
    · have := locate_of_rename (w := w) hne hmv hdiff hm
      exact hq'd (Option.some.inj (hq'.symm.trans this))
  · rintro ⟨rfl, hto⟩ r hr
    rw [announced_pair_iff hsrc hdst]
    rw [hmoved.node] at hr
    split at hr
    · rename_i hm
      rcases hto with rfl | hsame
      · exact .inr hm
      · have := hsame (rebase q' q r) (matching_rebase q hm)
        rw [rebase_rebase q hm] at this
        exact absurd this.symm hr
    · split at hr
      · exact .inl ‹_›
      · exact absurd rfl hr

theorem rename_iff {h : Handling} (hw : w.Real) (hsrc : src ≠ "") (hdst : dst ≠ "") (hseen : h.unseen = false)
    (hrun : (createDirAll w h.stamp (ancestors dst) ++ [renameSeen w h.unseen src dst]).foldlM (fun t c => c t) t = some t') :
    AllAnnounced t t' [⟨src, .replaced⟩, ⟨dst, .replaced⟩] ↔
      NoneMissing w t dst ∧ (w.lookup t src = none ∨ ∀ q q', w.locate t src = some q → w.locate t dst = some q' →
        q = q' ∨ (q = src ∧ (q' = dst ∨ ∀ r, matching q r = true → t.node (rebase q q' r) = t.node r))) := by
  obtain ⟨t1, hmk, hrun⟩ := createDirAll_append.1 hrun
  obtain ⟨t2, hmv, ht⟩ := foldlM_cons_iff.1 hrun
  obtain rfl := foldlM_nil_iff.1 ht
  unfold renameSeen at hmv
  rw [hseen, if_neg Bool.false_ne_true] at hmv
  cases hsource : w.lookup t1 src with
  | none =>
    rw [hsource] at hmv
    cases hmv
    by_cases hnone : NoneMissing w t dst
    · obtain rfl := createDirs_of_lookup hnone hmk
      exact iff_of_true (allAnnounced_refl _ _) ⟨hnone, .inl hsource⟩
    · refine iff_of_false (fun hall => ?_) fun h => hnone h.1
      have hex : ∃ d ∈ ancestors dst, w.lookup t d = none := by simpa [NoneMissing] using hnone
      obtain ⟨d, hn, hdir⟩ := createDirs_of_missing hex hmk
      have hd : t1.node d ≠ t.node d := fun h => by rw [hn] at h; simp [Tree.isDir, h] at hdir
      rcases (announced_pair_iff hsrc hdst).1 (hall d hd) with hm | hm
      · obtain ⟨hp, hloc⟩ := lookup_of_made (w := w) hdir hm
        rw [Links.lookup, hloc] at hsource
        exact hp hsource
      · rw [made_apart hmk hn hdir] at hm
        cases hm
  | some n =>
    rw [hsource] at hmv
    obtain ⟨q, hq, hmv⟩ := Option.bind_eq_some_iff.1 hmv
    obtain ⟨q', hq', hmv⟩ := Option.bind_eq_some_iff.1 hmv
    by_cases hnone : NoneMissing w t dst
    · obtain rfl := createDirs_of_lookup hnone hmk
      rw [and_iff_right hnone, or_iff_right (by simp [hsource])]
      have hone : ∀ {P : String → String → Prop},
          (∀ r r', w.locate t1 src = some r → w.locate t1 dst = some r' → P r r') ↔ P q q' := by simp [hq, hq']
      rw [hone]
      by_cases hqq : q = q'
      · subst hqq
        obtain rfl := Tree.rename_self hmv
        exact iff_of_true (allAnnounced_refl _ _) (.inl rfl)
      · rw [or_iff_right hqq]
        exact moved_iff hsrc hdst hqq hq hq' hmv
    · exact iff_of_false (rename_missing hw hsrc hdst hmk hnone hq hq' hmv) fun h => hnone h.1

end Rename

/-! ## Temporary files -/

section Temp
variable {stamp : Stamp} {temp q' : String} {mode : Nat} {n : Node}

theorem Sibling.apart (hs : Sibling p temp) (hw : w.Real) (hq : w.locate t temp = some q) : w.locate t p ≠ some q := by
  obtain ⟨n, rfl, hn, hne⟩ := hs
  have := hw.apart t p n (fileName p) q hn (fileName_noSlash p) hne hq
  rwa [withFileName_fileName] at this

theorem Sibling.not_matching (hs : Sibling p temp) : matching p temp = false := by
  obtain ⟨n, rfl, hn, hne⟩ := hs
  exact not_matching_withFileName hn hne

theorem Sibling.plain (hs : Sibling p temp) (hp : t.Plain p) : t.Plain temp := by
  obtain ⟨n, rfl, hn, -⟩ := hs
  exact fun d hd => hp d (below_of_below_withFileName hn hd)

theorem Sibling.ancestors_eq (hs : Sibling p temp) : ancestors temp = ancestors p := by
  obtain ⟨n, rfl, hn, -⟩ := hs
  exact ancestors_withFileName hn

theorem openCreate_locate (hw : w.Real) (ho : openCreate w stamp p t = some t') : w.locate t' = w.locate t := by
  unfold openCreate at ho
  split at ho
  · cases ho
  · split at ho
    · rename_i hn
      exact hw.beside t t' _ _ _ _ (by simp [Tree.isLink, hn]) ho
    · cases ho
      rfl
    · cases ho

theorem editFile_locate {f : Bytes → Bytes} (hw : w.Real) (he : editFile w stamp p f t = some t') :
    w.locate t' = w.locate t := by
  unfold editFile at he
  split at he
  · cases he
  · split at he
    · rename_i hn
      exact hw.beside t t' _ _ _ _ (by simp [Tree.isLink, hn, Node.isLink]) he
    · cases he

theorem createFile_locate (hw : w.Real) (hc : createFile w stamp p t = some t') : w.locate t' = w.locate t := by
  obtain ⟨t1, ho, he⟩ := Option.bind_eq_some_iff.1 hc
  exact (editFile_locate hw he).trans (openCreate_locate hw ho)

theorem writeAll_locate {offset : Nat} {data : Bytes} (hw : w.Real) (hc : writeAll w stamp p offset data t = some t') :
    w.locate t' = w.locate t := by
  unfold writeAll at hc
  split at hc
  · cases hc
    rfl
  · exact editFile_locate hw hc

theorem metaOnly_of_mem_chmodCalls {c : Tree → Option Tree} (hc : c ∈ chmodCalls w p mode) (hct : c t = some t') : t.MetaOnly t' := by
  unfold chmodCalls at hc
  split at hc
  · cases hc
  · rw [List.mem_singleton.1 hc] at hct
    exact (setPermissions_spec hct).1

theorem chmodCalls_metaOnly (hrun : (chmodCalls w p mode).foldlM (fun t c => c t) t = some t') : t.MetaOnly t' := by
  unfold chmodCalls at hrun
  split at hrun
  · obtain rfl := foldlM_nil_iff.1 hrun
    exact Tree.MetaOnly.refl t
  · obtain ⟨t1, hc, ht⟩ := foldlM_cons_iff.1 hrun
    obtain rfl := foldlM_nil_iff.1 ht
    exact (setPermissions_spec hc).1

theorem chmodCalls_file {data : Bytes} {old : Nat} {mtime : Int} (hq : w.follow t p = some q)
    (hn : t.node q = some (.file data old mtime)) (hrun : (chmodCalls w p mode).foldlM (fun t c => c t) t = some t') (r : String) :
    t'.node r = if r = q then some (.file data (chmodded w mode old) mtime) else t.node r := by
  unfold chmodCalls at hrun
  split at hrun
  · rename_i hm
    obtain rfl := foldlM_nil_iff.1 hrun
    split
    · rename_i hr
      rw [hr, hn, hm]
      rfl
    · rfl
  · rename_i hm
    obtain ⟨t1, hc, ht⟩ := foldlM_cons_iff.1 hrun
    obtain rfl := foldlM_nil_iff.1 ht
    obtain ⟨-, q', n, hq', hn', hnode⟩ := setPermissions_node hc
    cases hq.symm.trans hq'
    cases hn.symm.trans hn'
    rw [hnode, chmodded, if_neg hm]
    rfl

/-- A new file with its contents and its mode. -/
theorem newFile_node {data : Bytes} {t2 t3 : Tree} (hq : w.follow t p = some q) (hn : t.node q = none)
    (ho : createFile w stamp p t = some t1) (he : writeAll w stamp p 0 data t1 = some t2)
    (hch : (chmodCalls w p mode).foldlM (fun t c => c t) t2 = some t3) (r : String) :
    t3.node r = if r = q then some (.file data (chmodded w mode stamp.fileMode) stamp.mtime) else t.node r := by
  obtain ⟨t0, ho, hcut⟩ := Option.bind_eq_some_iff.1 ho
  simp only [openCreate, hq, hn] at ho
  have hnode0 := (Tree.place_eq_some ho).2.2
  have hq0 : w.follow t0 p = some q := w.follow_place t t0 p q _ hq (by simp [Tree.isLink, hn]) rfl ho
  have hn0 : t0.node q = some (.file [] stamp.fileMode stamp.mtime) := by rw [hnode0, if_pos rfl]
  obtain ⟨u1, hu1, hq1, hnode1⟩ := editFile_of_file (f := fun _ => []) stamp hq0 hn0
  obtain rfl : t1 = u1 := Option.some.inj (hcut.symm.trans hu1)
  have hn1 : t1.node q = some (.file [] stamp.fileMode stamp.mtime) := by rw [hnode1, if_pos rfl]
  obtain ⟨hq2, hnode2⟩ : w.follow t2 p = some q ∧
      ∀ r, t2.node r = if r = q then some (.file data stamp.fileMode stamp.mtime) else t1.node r := by
    unfold writeAll at he
    split at he
    · rename_i hnil
      cases he
      refine ⟨hq1, fun r => ?_⟩
      rw [hnil, hnode1]
      split <;> rfl
    · obtain ⟨u2, hu2, hq2, hnode2⟩ := editFile_of_file (f := (writeAt 0 · 0 data)) stamp hq1 hn1
      obtain rfl : t2 = u2 := Option.some.inj (he.symm.trans hu2)
      refine ⟨hq2, fun r => ?_⟩
      rw [hnode2]
      exact if_congr Iff.rfl (by rw [show writeAt 0 ([] : Bytes) 0 data = data from writeAt_end 0 [] data]) rfl
  have hn2 : t2.node q = some (.file data stamp.fileMode stamp.mtime) := by rw [hnode2, if_pos rfl]
  rw [chmodCalls_file hq2 hn2 hch, hnode2, hnode1, hnode0]
  split <;> rfl

/-- A file takes the place of no directory. -/
theorem isDir_replaced {n : Node} (hne : q ≠ q') (hn : t.node q = some n) (hfile : n.isDir = false)
    (hmv : t.rename q q' = some t') : t.isDir q' = false := by
  obtain ⟨n', hn', hrep⟩ := Tree.replaceable_of_rename hne hmv
  obtain rfl : n = n' := Option.some.inj (hn.symm.trans hn')
  rw [Bool.eq_false_iff]
  intro hdir
  obtain ⟨m, hm, hmdir⟩ := Tree.isDir_iff.1 hdir
  cases m with
  | dir mode => simp [Tree.replaceable, hm, hfile] at hrep
  | _ => cases hmdir

/-- What a rename does with a file. -/
theorem move_file (hne : q ≠ q') (hmv : t.rename q q' = some t') (hn : t.node q = some n) (hfile : n.isDir = false) (r : String) :
    t'.node r = if r = q' then some n else if r = q then none else t.node r := by
  have hmoved := Tree.moved_of_rename hne hmv
  have hq : t.isDir q = false := by rw [Tree.isDir, hn, Option.any_some, hfile]
  have hq' : t.isDir q' = false := isDir_replaced hne hn hfile hmv
  rw [hmoved.node]
  split
  · rename_i hm
    rcases matching_iff.1 hm with rfl | hb
    · rw [rebase_self, hn, if_pos rfl]
    · -- There is nothing below either.
      have hrq' : r ≠ q' := fun h => by rw [h, below_irrefl] at hb; cases hb
      have hfrom : below q (rebase q' q r) = true := by
        have hreb : below (rebase q' q q') (rebase q' q r) = true := Tree.below_rebase (matching_self q') hb
        rwa [rebase_self] at hreb
      rw [Tree.none_of_below hfrom hq, if_neg hrq', Tree.none_of_below hb hq', ite_self]
  · rename_i hm
    have hrq' : r ≠ q' := fun h => hm (matching_iff.2 (.inl h))
    rw [if_neg hrq']
    split
    · rename_i hb
      rcases matching_iff.1 hb with rfl | hb
      · rw [if_pos rfl]
      · rw [Tree.none_of_below hb hq, ite_self]
    · rename_i hb
      rw [if_neg fun h => hb (matching_iff.2 (.inl h))]

/-- A temporary file that was there is gone after it is moved, and no event says so. -/
theorem temp_gone (hw : w.Real) (hp : p ≠ "") (hs : Sibling p temp) (hn : w.lookup t temp ≠ none)
    (hloc : w.locate t1 = w.locate t) (hmv : moveEntry w temp p t1 = some t') :
    ¬ AllAnnounced t t' [⟨p, .replaced⟩] := by
  intro hall
  obtain ⟨q, hq, hmv⟩ := Option.bind_eq_some_iff.1 hmv
  obtain ⟨q', hq', hmv⟩ := Option.bind_eq_some_iff.1 hmv
  rw [hloc] at hq hq'
  rw [Links.lookup, hq, Option.bind_some] at hn
  have hne : q ≠ q' := fun h => hs.apart hw hq (h ▸ hq')
  have hgone : t'.node q = none := (Tree.moved_of_rename hne hmv).node_src
  have hm := matching_of_announced hp (hall q (hgone ▸ hn.symm))
  have hplain : t.Plain p := plain_of_parents fun d hd => Tree.isDir_of_below (below_of_matching hd hm) hn
  have hself := w.locate_plain t temp (hs.plain hplain)
  rw [hq] at hself
  cases hself
  exact Bool.false_ne_true (hs.not_matching.symm.trans hm)

theorem writeFile_iff {data : Bytes} (hw : w.Real) (hp : p ≠ "") (hs : Sibling p temp)
    (hrun : (createDirAll w stamp (ancestors p) ++ ([createFile w stamp temp, writeAll w stamp temp 0 data] ++
      chmodCalls w temp mode ++ [moveEntry w temp p])).foldlM (fun t c => c t) t = some t') :
    AllAnnounced t t' [⟨p, .replaced⟩] ↔ NoneMissing w t p ∧ w.lookup t temp = none ∧
      ∀ q, w.locate t p = some q → q = p ∨ t.node q = some (.file data (chmodded w mode stamp.fileMode) stamp.mtime) := by
  obtain ⟨t1, hmk, hrun⟩ := createDirAll_append.1 hrun
  obtain ⟨t4, hrun, hlast⟩ := foldlM_append_iff.1 hrun
  obtain ⟨t3, hrun, hch⟩ := foldlM_append_iff.1 hrun
  obtain ⟨t2, ho, he⟩ := foldlM_two_iff.1 hrun
  obtain ⟨t5, hmv, ht⟩ := foldlM_cons_iff.1 hlast
  obtain rfl := foldlM_nil_iff.1 ht
  have hloc : w.locate t4 = w.locate t1 :=
    (w.meta_locate t3 t4 (chmodCalls_metaOnly hch)).trans ((writeAll_locate hw he).trans (createFile_locate hw ho))
  obtain ⟨q, hq, hto⟩ := Option.bind_eq_some_iff.1 hmv
  obtain ⟨q', hq', hmove⟩ := Option.bind_eq_some_iff.1 hto
  rw [hloc] at hq hq'
  by_cases htemp : w.lookup t1 temp = none
  swap
  · -- Nothing is in a directory that was just made.
    have hnone : NoneMissing w t p := by
      by_contra hmiss
      have hex : ∃ d ∈ ancestors temp, w.lookup t d = none := by
        rw [hs.ancestors_eq]
        simpa [NoneMissing] using hmiss
      rw [← hs.ancestors_eq] at hmk
      rw [Links.lookup, hq, Option.bind_some] at htemp
      exact htemp (hw.made t t1 _ temp q hmk hex hq)
    obtain rfl := createDirs_of_lookup hnone hmk
    exact iff_of_false (temp_gone hw hp hs htemp hloc hmv) fun h => htemp h.2.1
  · have hne : q ≠ q' := fun h => hs.apart hw hq (h ▸ hq')
    have hn : t1.node q = none := by simpa [Links.lookup, hq] using htemp
    have hf : w.follow t1 temp = some q := w.follow_eq t1 temp q hq (by simp [Tree.isLink, hn])
    have hnode4 := newFile_node hf hn ho he hch
    have hnode : ∀ r, t5.node r =
        if r = q' then some (.file data (chmodded w mode stamp.fileMode) stamp.mtime) else t1.node r := by
      intro r
      rw [move_file hne hmove (by rw [hnode4, if_pos rfl]) rfl, hnode4]
      split
      · rfl
      · split
        · rename_i hr
          rw [hr, hn]
        · rfl
    rw [edit_recorded_iff hp hmk (.inl hq') hnode]
    refine and_congr_right fun hnone => ?_
    obtain rfl := createDirs_of_lookup hnone hmk
    simp [htemp, hq']

theorem finish_not {sha : Bytes → String} {sum : String} (hw : w.Real) (hp : p ≠ "") (hs : Sibling p temp)
    (hrun : (finishCalls w sha p temp sum mode t).foldlM (fun t c => c t) t = some t') :
    ¬ AllAnnounced t t' [⟨p, .replaced⟩] := by
  unfold finishCalls at hrun
  split at hrun
  · rename_i data _ _ hfile
    by_cases hsum : sha data = sum
    · rw [if_pos hsum] at hrun
      obtain ⟨t2, hch, hlast⟩ := foldlM_append_iff.1 hrun
      obtain ⟨t3, hmv, ht⟩ := foldlM_cons_iff.1 hlast
      obtain rfl := foldlM_nil_iff.1 ht
      have hmeta := chmodCalls_metaOnly hch
      have hloc : w.locate t2 = w.locate t := w.meta_locate t t2 hmeta
      refine temp_gone hw hp hs ?_ hloc hmv
      -- There is something to move.
      obtain ⟨q, hq, hto⟩ := Option.bind_eq_some_iff.1 hmv
      obtain ⟨q', -, hmove⟩ := Option.bind_eq_some_iff.1 hto
      rw [hloc] at hq
      rw [Links.lookup, hq, Option.bind_some]
      intro hn
      have hn2 : t2.node q = none := by simpa [hn] using hmeta q
      simp [Tree.rename, hn2] at hmove
    · rw [if_neg hsum] at hrun
      obtain ⟨_, -, hrun⟩ := foldlM_cons_iff.1 hrun
      obtain ⟨_, hfail, -⟩ := foldlM_cons_iff.1 hrun
      cases hfail
  · obtain ⟨_, hfail, -⟩ := foldlM_cons_iff.1 hrun
    cases hfail

end Temp

/-! ## All requests -/

section Handle
variable {sha : Bytes → String} {pid : Nat} {h : Handling} {frame : Bytes} {r : Request}

theorem foldlM_fail {cs : List (Tree → Option Tree)} : ((fun _ => none) :: cs).foldlM (fun t (c : Tree → Option Tree) => c t) t ≠ some t' := by
  intro h
  obtain ⟨_, hfail, -⟩ := foldlM_cons_iff.1 h
  cases hfail

/-- A request for the root changes nothing or records the root, and with it everything. -/
theorem root_announced (hroot : "" ∈ r.paths) (hrun : (r.rootCalls w h).foldlM (fun t c => c t) t = some t') :
    AllAnnounced t t' r.events := by
  have hall : ⟨"", .replaced⟩ ∈ r.events → AllAnnounced t t' r.events := fun he q _ => ⟨_, he, .inr ⟨rfl, .inl rfl⟩⟩
  cases r with
  | remove root p dir opId => exact hall (by simpa [Request.paths, Request.events, eq_comm] using hroot)
  | rename root src dst opId => exact hall (by simpa [Request.paths, Request.events, eq_comm] using hroot)
  | writeFileStart | writeFileChunk | setMetadata | mkdir =>
    obtain rfl := foldlM_nil_iff.1 hrun
    exact allAnnounced_refl _ _
  | writeFile | writeFileAt | writeFileAtBinary | truncate | writeFileFinish | symlink => exact absurd hrun foldlM_fail
  | _ => cases hroot

theorem entry_announced_iff (hw : w.Real) (hseen : h.unseen = false) (hroot : "" ∉ r.paths)
    (hrun : (r.treeCalls w sha pid h frame t).foldlM (fun t c => c t) t = some t') :
    AllAnnounced t t' r.events ↔ r.Direct w pid h frame t := by
  have hone : ∀ {p : String}, r.paths = [p] → p ≠ "" := fun hp h => hroot (by simp [hp, h])
  cases r with
  | writeFile root p data mode =>
    simp only [Request.treeCalls] at hrun
    exact writeFile_iff hw (hone rfl) (sibling_atomicTempPath pid p) hrun
  | writeFileStart root p uploadId => exact start_iff hrun
  | writeFileChunk root p uploadId offset data =>
    simp only [Request.treeCalls] at hrun
    cases htemp : uploadTempPath p uploadId with
    | none =>
      rw [htemp] at hrun
      exact absurd hrun foldlM_fail
    | some temp =>
      rw [htemp] at hrun
      have hdirect : (Request.writeFileChunk root p uploadId offset data).Direct w pid h frame t ↔
          ∀ q, w.follow t temp = some q → Unwritten h.stamp offset data t q := by
        simp only [Request.Direct, htemp, Option.some.injEq]
        constructor
        · exact fun h q => h temp q rfl
        · rintro h _ q rfl
          exact h q
      exact (chunk_iff hrun).trans hdirect.symm
  | writeFileAt root p offset data => exact (writes_iff (hone rfl) hrun).1 _
  | writeFileAtBinary root p offset len =>
    simp only [Request.treeCalls] at hrun
    split at hrun
    · exact (writes_iff (hone rfl) hrun).2
    · exact absurd hrun foldlM_fail
  | truncate root p size opId => exact truncate_iff (hone rfl) hrun _
  | rename root src dst opId =>
    simp only [Request.paths, List.mem_cons, List.not_mem_nil, or_false, not_or] at hroot
    exact rename_iff hw (Ne.symm hroot.1) (Ne.symm hroot.2) hseen hrun
  | writeFileFinish root p uploadId sum mode =>
    simp only [Request.treeCalls] at hrun
    cases htemp : uploadTempPath p uploadId with
    | none =>
      rw [htemp] at hrun
      exact absurd hrun foldlM_fail
    | some temp =>
      rw [htemp] at hrun
      exact iff_of_false (finish_not hw (hone rfl) (sibling_uploadTempPath htemp) hrun) id
  | symlink root p target opId => exact symlink_iff (hone rfl) hrun
  | setMetadata root p mode modified opId => exact setMetadata_iff (h := h) (hone rfl) hrun
  | mkdir root p opId => exact mkdir_iff (hone rfl) hrun
  | remove root p dir opId => exact remove_iff (hone rfl) hseen hrun
  | writeFileAtStream | run => exact absurd hrun foldlM_fail
  | _ =>
    obtain rfl := foldlM_nil_iff.1 hrun
    exact iff_of_true (allAnnounced_refl _ _) trivial

/-- All that a request answered with `Ok` has changed is announced if and only if its
marker was there, or it is for the root, or it reaches only the entry of its path and
needs no directory made. -/
theorem announced_iff {marked : Bool} (hw : w.Real) (hseen : h.unseen = false)
    (hok : (r.handle w sha pid h marked frame t).ok = true) :
    AllAnnounced t (r.handle w sha pid h marked frame t).tree (r.handle w sha pid h marked frame t).events ↔
      (r.onceId.isSome ∧ marked = true) ∨ "" ∈ r.paths ∨ r.Direct w pid h frame t := by
  unfold Request.handle at hok ⊢
  by_cases hmarked : (r.onceId.isSome && marked) = true
  · rw [if_pos hmarked]
    exact iff_of_true (allAnnounced_refl _ _) (.inl (by simpa using hmarked))
  · rw [if_neg hmarked] at hok ⊢
    simp only at hok ⊢
    rw [hok, if_pos rfl, or_iff_right (by simpa using hmarked)]
    -- The markers of `once` are outside of the tree.
    have hrun := runCalls_ok hok
    generalize (runCalls _ _ _).1 = t' at hrun ⊢
    have hcalls : (r.calls w sha pid h frame t).foldlM (fun t c => c t) t = some t' := by
      split at hrun
      · simpa only [List.cons_append, foldlM_cons_iff, foldlM_append_iff, foldlM_nil_iff, Option.some.injEq,
          exists_eq_left', exists_eq_right] using hrun
      · exact hrun
    unfold Request.calls at hcalls
    split at hcalls
    · rename_i hroot
      exact iff_of_true (root_announced hroot hcalls) (.inl hroot)
    · rename_i hroot
      rw [or_iff_right hroot]
      exact entry_announced_iff hw hseen hroot hcalls

end Handle

end Facts

/-! ## A file that is there -/

theorem node_of_textDirs {mode : Nat} {t t' : Tree} {ds : List String} {q : String} (hq : q ∉ ds)
    (h : createDirs textWalks.toLinks mode t ds = some t') : t'.node q = t.node q := by
  induction ds generalizing t with
  | nil =>
    cases h
    rfl
  | cons d ds ih =>
    obtain ⟨t1, h1, h2⟩ := createDirs_cons.1 h
    rw [ih (fun hm => hq (List.mem_cons_of_mem _ hm)) h2]
    have hne : q ≠ d := fun h => hq (h ▸ List.mem_cons_self)
    obtain ⟨r, hr, ⟨-, hplace⟩ | ⟨rfl, -⟩⟩ := createDir_cases h1
    · cases hr
      rw [(Tree.place_eq_some hplace).2.2, if_neg hne]
    · rfl

theorem withFileName_inj {p n n' : String} (h : withFileName p n = withFileName p n') : n = n' := by
  obtain ⟨pre, hpre⟩ := exists_withFileName p
  have := hpre n
  rw [h, hpre n', List.append_cancel_left_eq] at this
  exact (String.toList_inj.1 this).symm

theorem textWalks_real : textWalks.Real where
  apart _ _ _ _ _ _ _ hne hq hq' := hne (withFileName_inj (Option.some.inj (hq.trans hq'.symm)))
  beside _ _ _ _ _ _ _ _ := rfl
  made t t' mode p q h hmiss hq := by
    obtain rfl : p = q := Option.some.inj hq
    obtain ⟨d, hd, hn⟩ := hmiss
    have hself : p ∉ ancestors p := fun hm => by
      have := mem_ancestors_iff.1 hm
      rw [below_irrefl] at this
      cases this
    rw [node_of_textDirs hself h]
    refine Tree.none_of_below (mem_ancestors_iff.1 hd) ?_
    have hn : t.node d = none := hn
    rw [Tree.isDir, hn]
    rfl

/-- A request as the system handles it when it lets all calls through. -/
abbrev handleText (frame : Bytes) (t : Tree) (r : Request) : Handled := r.handle textWalks (fun _ => "") 1 letThrough false frame t

/-- A file is cut, and this is announced. -/
theorem truncate_of_file_announced : (handleText [] fileA (.truncate "" "a" 0 none)).ok = true ∧
    AllAnnounced fileA (handleText [] fileA (.truncate "" "a" 0 none)).tree
      (handleText [] fileA (.truncate "" "a" 0 none)).events := by
  have hok : (handleText [] fileA (.truncate "" "a" 0 none)).ok = true := by decide
  refine ⟨hok, (announced_iff textWalks_real rfl hok).2 (.inr (.inr ⟨?_, ?_⟩))⟩
  · intro d hd
    cases hd
  · exact fun q hq => .inl (Option.some.inj hq).symm

/-- The binary write changes the file of its path and records nothing. -/
theorem binary_write_not_announced : (handleText [2] fileA (.writeFileAtBinary "" "a" 0 1)).ok = true ∧
    ¬ AllAnnounced fileA (handleText [2] fileA (.writeFileAtBinary "" "a" 0 1)).tree
      (handleText [2] fileA (.writeFileAtBinary "" "a" 0 1)).events := by
  refine ⟨by decide, fun hall => ?_⟩
  exact not_announced_nil "a" (hall "a" (by decide))

end Mobfs
