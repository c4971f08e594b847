import Mobfs.Daemon.Announce
/-!
# Uploads on the remote tree

An upload is written to a temporary file next to its path and takes the place of what is
there when it is finished, in one rename. `finish_cases` says what `WriteFileFinish` does:
if it answers `Ok`, the path has the contents of the temporary, and their checksum is the
one asked for; the temporary is gone then, and the same request fails from there on
(`finish_gone`).
-/

namespace Mobfs

open Lib Std
open WriteBack (matching)

/-- `Walks.Real`, and nothing is found in a directory that has just been made. -/
structure Walks.Fresh (w : Walks) : Prop extends w.Real where
  fresh : ∀ t t' mode d p q, d ∈ ancestors p → createDir w.toLinks mode t d = some t' → w.locate t' p = some q →
    t' = t ∨ t'.node q = none

/-- The temporary can take the place of the path: it is no link, and if the path is one,
this link is not on the way to the two. -/
structure TempReady (w : Walks) (p temp : String) (t : Tree) : Prop where
  noLink : ∀ q, w.locate t temp = some q → t.isLink q = false
  way : ∀ q, w.locate t p = some q → t.isLink q = true →
    w.locate (t.drop q) p = some q ∧ w.locate (t.drop q) temp = w.locate t temp

/-- There is no temporary. -/
def TempGone (w : Walks) (temp : String) (t : Tree) : Prop := (w.follow t temp).bind t.node = none

/-! ## Files are on no way -/

theorem Tree.MetaOnly.drop {t t' : Tree} (hm : t.MetaOnly t') (q : String) : (t.drop q).MetaOnly (t'.drop q) := by
  intro r
  rw [Tree.node_drop, Tree.node_drop]
  split
  · rfl
  · exact hm r

/-- The trees differ in one entry at most, which is no link and no directory in either. -/
structure OffWay (q : String) (t t' : Tree) : Prop where
  above : ∀ d, below d q = true → t.isDir d = true
  noLink : t.isLink q = false
  noDir : t.isDir q = false
  noLink' : t'.isLink q = false
  noDir' : t'.isDir q = false
  same : ∀ r, r ≠ q → t'.node r = t.node r

section Ways
variable {w : Walks} {t t' : Tree} {p q q' : String}

theorem ne_of_below {d : String} (h : below d q = true) : d ≠ q := by
  rintro rfl
  rw [below_irrefl] at h
  cases h

theorem isDir_of_isLink (h : t.isLink p = true) : t.isDir p = false := by
  rw [Bool.eq_false_iff]
  intro hd
  rw [Tree.isLink_of_isDir hd] at h
  cases h

namespace OffWay

theorem locate_eq (h : OffWay q t t') (hw : w.Real) : w.locate t' = w.locate t := by
  have habove' : ∀ d, below d q = true → t'.isDir d = true := by
    intro d hd
    rw [Tree.isDir, h.same d (ne_of_below hd)]
    exact h.above d hd
  obtain ⟨t1, h1⟩ := Tree.place_isSome (.file [] 0 0) h.above h.noDir
  obtain ⟨t2, h2⟩ := Tree.place_isSome (.file [] 0 0) habove' h.noDir'
  have heq : t1 = t2 := by
    refine Tree.ext_node fun r => ?_
    rw [(Tree.place_eq_some h1).2.2, (Tree.place_eq_some h2).2.2]
    split
    · rfl
    · exact (h.same r ‹_›).symm
  rw [← hw.beside t' t2 q _ _ _ h.noLink' h2, ← hw.beside t t1 q _ _ _ h.noLink h1, heq]

theorem of_place {data : Bytes} {mode : Nat} {mtime : Int} (hlink : t.isLink q = false)
    (hp : t.place q (.file data mode mtime) = some t') : OffWay q t t' := by
  obtain ⟨habove, hdir, hnode⟩ := Tree.place_eq_some hp
  refine ⟨habove, hlink, hdir, ?_, ?_, fun r hr => by rw [hnode, if_neg hr]⟩
  · rw [Tree.isLink, hnode, if_pos rfl]
    rfl
  · rw [Tree.isDir, hnode, if_pos rfl]
    rfl

theorem of_drop (hn : t.node q ≠ none) (hlink : t.isLink q = false) (hdir : t.isDir q = false) : OffWay q t (t.drop q) := by
  have hdrop := Tree.node_drop_of_not_isDir hdir
  refine ⟨fun d hd => Tree.isDir_of_below hd hn, hlink, hdir, ?_, ?_, fun r hr => by rw [hdrop, if_neg hr]⟩
  · rw [Tree.isLink, hdrop, if_pos rfl]
    rfl
  · rw [Tree.isDir, hdrop, if_pos rfl]
    rfl

theorem isLink (h : OffWay q t t') {r : String} (hr : t'.isLink r = true) : r ≠ q ∧ t.isLink r = true := by
  have hne : r ≠ q := by
    rintro rfl
    rw [h.noLink'] at hr
    cases hr
  rw [Tree.isLink, h.same r hne] at hr
  exact ⟨hne, hr⟩

/-- They do so when an entry that is no directory has been dropped from both. -/
theorem drop_other (h : OffWay q t t') {r : String} (hne : r ≠ q) (hdir : t.isDir r = false) : OffWay q (t.drop r) (t'.drop r) := by
  have hdir' : t'.isDir r = false := by rwa [Tree.isDir, h.same r hne]
  have hdrop := Tree.node_drop_of_not_isDir hdir
  have hdrop' := Tree.node_drop_of_not_isDir hdir'
  constructor
  · intro d hd
    have hdne : d ≠ r := by
      rintro rfl
      exact Bool.false_ne_true (hdir.symm.trans (h.above d hd))
    rw [Tree.isDir, hdrop, if_neg hdne]
    exact h.above d hd
  · rw [Tree.isLink, hdrop, if_neg (Ne.symm hne)]
    exact h.noLink
  · rw [Tree.isDir, hdrop, if_neg (Ne.symm hne)]
    exact h.noDir
  · rw [Tree.isLink, hdrop', if_neg (Ne.symm hne)]
    exact h.noLink'
  · rw [Tree.isDir, hdrop', if_neg (Ne.symm hne)]
    exact h.noDir'
  · intro x hx
    rw [hdrop, hdrop', h.same x hx]

theorem drop (h : OffWay q t t') {r : String} (hr : t'.isLink r = true) : OffWay q (t.drop r) (t'.drop r) := by
  obtain ⟨hne, hlink⟩ := h.isLink hr
  exact h.drop_other hne (isDir_of_isLink hlink)

end OffWay

theorem locate_drop_eq (hw : w.Real) (hlink : t.isLink q = false) (hdir : t.isDir q = false) :
    w.locate (t.drop q) = w.locate t := by
  by_cases hn : t.node q = none
  · rw [Tree.drop_of_none hn]
  · exact (OffWay.of_drop hn hlink hdir).locate_eq hw

/-- A file that is moved is on no way; what it replaces may have been. -/
theorem locate_of_file_moved {n : Node} (hw : w.Real) (hne : q ≠ q') (hn : t.node q = some n) (hfile : n.isDir = false)
    (hlink : n.isLink = false) (hmv : t.rename q q' = some t') : w.locate t' = w.locate (t.drop q') := by
  have hm := Tree.moved_of_rename hne hmv
  have hnode := move_file hne hmv hn hfile
  have hdrop := Tree.node_drop_of_not_isDir (isDir_replaced hne hn hfile hmv)
  have hdir : (t.drop q').isDir q = false := by rw [Tree.isDir, hdrop, if_neg hne, hn, Option.any_some, hfile]
  have hnl : (t.drop q').isLink q = false := by rw [Tree.isLink, hdrop, if_neg hne, hn, Option.any_some, hlink]
  have hdrop2 := Tree.node_drop_of_not_isDir hdir
  have hq' : ((t.drop q').drop q).node q' = none := by rw [hdrop2, if_neg (Ne.symm hne), hdrop, if_pos rfl]
  rw [← locate_drop_eq hw hnl hdir]
  refine OffWay.locate_eq (q := q') ⟨?_, ?_, ?_, ?_, ?_, ?_⟩ hw
  · intro d hd
    have hd' := hm.dirs d hd
    have hne' : d ≠ q := by
      rintro rfl
      rw [Tree.isDir, hn, Option.any_some, hfile] at hd'
      cases hd'
    rwa [Tree.isDir, hdrop2, if_neg hne', hdrop, if_neg (ne_of_below hd)]
  · rw [Tree.isLink, hq']
    rfl
  · rw [Tree.isDir, hq']
    rfl
  · rw [Tree.isLink, hnode, if_pos rfl, Option.any_some, hlink]
  · rw [Tree.isDir, hnode, if_pos rfl, Option.any_some, hfile]
  · intro r hr
    rw [hnode, if_neg hr, hdrop2, hdrop, if_neg hr]

end Ways

/-! ## What keeps a temporary ready -/

namespace TempReady
variable {w : Walks} {t t' : Tree} {p temp q : String} {stamp : Stamp}

theorem createDir {mode : Nat} {d : String} (hr : TempReady w p temp t) (hw : w.Fresh) (hs : Sibling p temp)
    (hd : d ∈ ancestors p) (hc : createDir w.toLinks mode t d = some t') : TempReady w p temp t' := by
  have hnone : ∀ q, t'.node q = none → t'.isLink q = false := by
    intro q hq
    rw [Tree.isLink, hq]
    rfl
  constructor
  · intro q hq
    rcases hw.fresh t t' mode d temp q (hs.ancestors_eq ▸ hd) hc hq with rfl | hn
    · exact hr.noLink q hq
    · exact hnone q hn
  · intro q hq hlink
    rcases hw.fresh t t' mode d p q hd hc hq with rfl | hn
    · exact hr.way q hq hlink
    · rw [hnone q hn] at hlink
      cases hlink

theorem offWay (hr : TempReady w p temp t) (hw : w.Real) (h : OffWay q t t') : TempReady w p temp t' := by
  have hloc := h.locate_eq hw
  constructor
  · intro r hr'
    rw [Bool.eq_false_iff]
    intro hlink
    rw [hloc] at hr'
    exact Bool.false_ne_true ((hr.noLink r hr').symm.trans (h.isLink hlink).2)
  · intro r hr' hlink
    rw [hloc] at hr' ⊢
    rw [(h.drop hlink).locate_eq hw]
    exact hr.way r hr' (h.isLink hlink).2

theorem openCreate {f : String} (hr : TempReady w p temp t) (hw : w.Real) (ho : openCreate w stamp f t = some t') :
    TempReady w p temp t' := by
  unfold Mobfs.openCreate at ho
  split at ho
  · cases ho
  · split at ho
    · rename_i hn
      exact hr.offWay hw (.of_place (by rw [Tree.isLink, hn]; rfl) ho)
    · cases ho
      exact hr
    · cases ho

theorem editFile {f : String} {g : Bytes → Bytes} (hr : TempReady w p temp t) (hw : w.Real)
    (he : editFile w stamp f g t = some t') : TempReady w p temp t' := by
  unfold Mobfs.editFile at he
  split at he
  · cases he
  · split at he
    · rename_i hn
      exact hr.offWay hw (.of_place (by rw [Tree.isLink, hn]; rfl) he)
    · cases he

theorem metaOnly (hr : TempReady w p temp t) (hm : t.MetaOnly t') : TempReady w p temp t' := by
  have hloc := w.meta_locate t t' hm
  constructor
  · intro q hq
    rw [hm.isLink]
    exact hr.noLink q (hloc ▸ hq)
  · intro q hq hlink
    rw [hm.isLink] at hlink
    rw [hloc] at hq ⊢
    rw [w.meta_locate _ _ (hm.drop q)]
    exact hr.way q hq hlink

/-- The temporary is removed. -/
theorem removeFile (hr : TempReady w p temp t) (hw : w.Real) (hc : removeFile w temp t = some t') :
    TempReady w p temp t' := by
  unfold Mobfs.removeFile at hc
  split at hc
  · cases hc
    exact hr
  · rename_i q hq
    cases hc
    split
    · exact hr
    · rename_i hdir
      by_cases hn : t.node q = none
      · rwa [Tree.drop_of_none hn]
      · exact hr.offWay hw (.of_drop hn (hr.noLink q hq) (by simpa using hdir))

/-- The rename that ends every write through a temporary. -/
theorem moveEntry {n : Node} (hr : TempReady w p temp t) (hw : w.Real) (hs : Sibling p temp) (hq : w.follow t temp = some q)
    (hn : t.node q = some n) (hfile : n.isDir = false) (hlink : n.isLink = false) (hmv : moveEntry w temp p t = some t') :
    TempGone w temp t' ∧ ∃ q', w.locate t' p = some q' ∧ t'.node q' = some n := by
  obtain ⟨qt, hqt, hmv⟩ := Option.bind_eq_some_iff.1 hmv
  obtain ⟨q', hq', hmv⟩ := Option.bind_eq_some_iff.1 hmv
  -- The temporary is no link, so what is moved is the file that was written.
  have hfollow := w.follow_eq t temp qt hqt (hr.noLink qt hqt)
  obtain rfl : q = qt := Option.some.inj (hq.symm.trans hfollow)
  have hne : q ≠ q' := by
    rintro rfl
    exact hs.apart hw hqt hq'
  have hnode := move_file hne hmv hn hfile
  have hlocate := locate_of_file_moved hw hne hn hfile hlink hmv
  have hways : w.locate t' p = some q' ∧ w.locate t' temp = some q := by
    rw [hlocate, ← hqt]
    cases hl : t.isLink q' with
    | true => exact hr.way q' hq' hl
    | false =>
      rw [locate_drop_eq hw hl (isDir_replaced hne hn hfile hmv)]
      exact ⟨hq', rfl⟩
  have hgone : t'.node q = none := by rw [hnode, if_neg hne, if_pos rfl]
  refine ⟨?_, q', hways.1, by rw [hnode, if_pos rfl]⟩
  rw [TempGone, w.follow_eq t' temp q hways.2 (by rw [Tree.isLink, hgone]; rfl), Option.bind_some, hgone]

end TempReady

/-! ## The requests of an upload -/

theorem runCalls_cut {R : Tree → Prop} {refused : Option Nat} {t : Tree} {cs : List (Tree → Option Tree)} {last : Tree → Option Tree}
    (hc : ∀ c ∈ cs, ∀ t t', R t → c t = some t' → R t') (ht : R t) (hcut : (runCalls refused t (cs ++ [last])).2 = false) :
    R (runCalls refused t (cs ++ [last])).1 := by
  induction cs generalizing refused t with
  | nil =>
    rw [List.nil_append, runCalls] at hcut ⊢
    split
    · exact ht
    · rename_i href
      rw [if_neg href] at hcut
      split
      · exact ht
      · rename_i hlast
        rw [hlast] at hcut
        cases hcut
  | cons c cs ih =>
    rw [List.cons_append, runCalls] at hcut ⊢
    split
    · exact ht
    · rename_i href
      rw [if_neg href] at hcut
      split
      · exact ht
      · rename_i t1 hct
        rw [hct] at hcut
        exact ih (fun c' hc' => hc c' (List.mem_cons_of_mem _ hc')) (hc c List.mem_cons_self t t1 ht hct) hcut

section Requests
variable {w : Walks} {sha : Bytes → String} {pid : Nat} {h : Handling} {t : Tree} {root p uploadId temp : String}

theorem handle_onceless {frame : Bytes} {r : Request} (honce : r.onceId = none) :
    (r.handle w sha pid h false frame t).tree = (runCalls h.refused t (r.calls w sha pid h frame t)).1 ∧
      (r.handle w sha pid h false frame t).ok = (runCalls h.refused t (r.calls w sha pid h frame t)).2 := by
  simp [Request.handle, honce]

theorem fails_keeps {R : Tree → Prop} {refused : Option Nat} (ht : R t) : R (runCalls refused t [fun _ => none]).1 :=
  runCalls_inv (fun c hc t t' _ hct => by rw [List.mem_singleton.1 hc] at hct; cases hct) ht

theorem TempReady.start (hr : TempReady w p temp t) (hw : w.Fresh) (htemp : uploadTempPath p uploadId = some temp) :
    TempReady w p temp ((Request.writeFileStart root p uploadId).handle w sha pid h false [] t).tree := by
  rw [(handle_onceless rfl).1]
  unfold Request.calls
  split
  · exact hr
  · refine runCalls_inv (fun c hc t t' ht hct => ?_) hr
    rcases List.mem_append.1 hc with hc | hc
    · obtain ⟨d, hd, rfl⟩ := createDirAll_mem hc
      exact ht.createDir hw (sibling_uploadTempPath htemp) hd hct
    · rw [List.mem_singleton.1 hc, htemp] at hct
      dsimp only [Option.bind_some] at hct
      split at hct
      · cases hct
        exact ht
      · exact ht.openCreate hw.toReal hct

theorem TempReady.chunk {offset : Nat} {data : Bytes} (hr : TempReady w p temp t) (hw : w.Fresh)
    (htemp : uploadTempPath p uploadId = some temp) :
    TempReady w p temp ((Request.writeFileChunk root p uploadId offset data).handle w sha pid h false [] t).tree := by
  rw [(handle_onceless rfl).1]
  unfold Request.calls
  split
  · exact hr
  · simp only [Request.treeCalls, htemp]
    refine runCalls_inv (fun c hc t t' ht hct => ?_) hr
    simp only [List.mem_cons, List.not_mem_nil, or_false] at hc
    rcases hc with rfl | rfl
    · unfold openFile at hct
      split at hct
      · cases hct
        exact ht
      · cases hct
    · unfold writeAll at hct
      split at hct
      · cases hct
        exact ht
      · exact ht.editFile hw.toReal hct

/-- How a `WriteFileFinish` ends: nothing has been moved, or the path has what the temporary
held, with the checksum, and the temporary is gone. -/
theorem finish_cases {sum : String} {mode : Nat} (hr : TempReady w p temp t) (hw : w.Real)
    (htemp : uploadTempPath p uploadId = some temp) {res : Handled}
    (hres : (Request.writeFileFinish root p uploadId sum mode).handle w sha pid h false [] t = res) :
    (res.ok = false ∧ TempReady w p temp res.tree) ∨
      (res.ok = true ∧ TempGone w temp res.tree ∧ ∃ q data mode mtime, sha data = sum ∧
        (∃ old time, (w.follow t temp).bind t.node = some (.file data old time)) ∧ w.locate res.tree p = some q ∧
        res.tree.node q = some (.file data mode mtime)) := by
  have hrun : res.tree = (runCalls h.refused t ((Request.writeFileFinish root p uploadId sum mode).calls w sha pid h [] t)).1 ∧
      res.ok = (runCalls h.refused t ((Request.writeFileFinish root p uploadId sum mode).calls w sha pid h [] t)).2 :=
    hres ▸ handle_onceless rfl
  rw [hrun.1, hrun.2]
  have hfails : ∀ refused, (runCalls refused t [fun _ => none]).2 = false ∧
      TempReady w p temp (runCalls refused t [fun _ => none]).1 := fun refused => ⟨by unfold runCalls; split <;> rfl, fails_keeps hr⟩
  unfold Request.calls
  split
  · exact .inl (hfails _)
  · simp only [Request.treeCalls, htemp, finishCalls]
    split
    · rename_i data old mtime hfile
      obtain ⟨q, hq, hn⟩ := Option.bind_eq_some_iff.1 hfile
      split
      · rename_i hsum
        cases hres : (runCalls h.refused t (chmodCalls w temp mode ++ [moveEntry w temp p])).2 with
        | true =>
          obtain ⟨t1, hchmod, hmove⟩ := foldlM_append_iff.1 (runCalls_ok hres)
          obtain ⟨t2, hmv, ht⟩ := foldlM_cons_iff.1 hmove
          rw [foldlM_nil_iff.1 ht] at hmv
          have hmeta := chmodCalls_metaOnly hchmod
          have hq1 : w.follow t1 temp = some q := by rw [w.meta_follow t t1 hmeta, hq]
          have hn1 : t1.node q = some (.file data (chmodded w mode old) mtime) := by rw [chmodCalls_file hq hn hchmod, if_pos rfl]
          obtain ⟨hgone, q', hq', hn'⟩ :=
            (hr.metaOnly hmeta).moveEntry hw (sibling_uploadTempPath htemp) hq1 hn1 rfl rfl hmv
          exact .inr ⟨rfl, hgone, q', data, _, mtime, hsum, ⟨old, mtime, hfile⟩, hq', hn'⟩
        | false =>
          refine .inl ⟨rfl, runCalls_cut (fun c hc t t' ht hct => ?_) hr hres⟩
          exact ht.metaOnly (metaOnly_of_mem_chmodCalls hc hct)
      · have hcut : (runCalls h.refused t ([removeFile w temp] ++ [fun _ => none])).2 = false := by
          rw [Bool.eq_false_iff]
          intro hok
          obtain ⟨t1, -, hlast⟩ := foldlM_cons_iff.1 (runCalls_ok hok)
          obtain ⟨t2, hnone, -⟩ := foldlM_cons_iff.1 hlast
          cases hnone
        refine .inl ⟨hcut, runCalls_cut (fun c hc t t' ht hct => ?_) hr hcut⟩
        rw [List.mem_singleton.1 hc] at hct
        exact ht.removeFile hw hct
    · exact .inl (hfails _)

/-- Without its temporary an upload is not finished, and nothing changes. -/
theorem finish_gone {sum : String} {mode : Nat} (htemp : uploadTempPath p uploadId = some temp) (hgone : TempGone w temp t)
    {res : Handled} (hres : (Request.writeFileFinish root p uploadId sum mode).handle w sha pid h false [] t = res) :
    res.ok = false ∧ res.tree = t := by
  have hcalls : (Request.writeFileFinish root p uploadId sum mode).calls w sha pid h [] t = [fun _ => none] := by
    unfold Request.calls
    split
    · rfl
    · simp only [Request.treeCalls, htemp, finishCalls]
      rw [show (w.follow t temp).bind t.node = none from hgone]
  have hrun : res.tree = (runCalls h.refused t ((Request.writeFileFinish root p uploadId sum mode).calls w sha pid h [] t)).1 ∧
      res.ok = (runCalls h.refused t ((Request.writeFileFinish root p uploadId sum mode).calls w sha pid h [] t)).2 :=
    hres ▸ handle_onceless rfl
  rw [hrun.1, hrun.2, hcalls]
  unfold runCalls
  split <;> exact ⟨rfl, rfl⟩

end Requests

/-! ## Paths without links -/

theorem textWalks_fresh : textWalks.Fresh where
  toReal := textWalks_real
  fresh t t' mode d p q hd hc hq := by
    obtain rfl : p = q := Option.some.inj hq
    obtain ⟨r, hr, ⟨hn, hplace⟩ | ⟨rfl, -⟩⟩ := createDir_cases hc
    · obtain rfl : d = r := Option.some.inj hr
      have hbelow := mem_ancestors_iff.1 hd
      refine .inr ?_
      rw [(Tree.place_eq_some hplace).2.2, if_neg (ne_of_below hbelow).symm]
      exact Tree.none_of_below hbelow (by rw [Tree.isDir, hn]; rfl)
    · exact .inl rfl

theorem textWalks_ready {t : Tree} (p temp : String) (hp : t.isLink p = false) (ht : t.isLink temp = false) :
    TempReady textWalks p temp t where
  noLink q hq := by
    obtain rfl : temp = q := Option.some.inj hq
    exact ht
  way q hq hlink := by
    obtain rfl : p = q := Option.some.inj hq
    rw [hp] at hlink
    cases hlink

end Mobfs
