import Mobfs.Daemon.Rejected
/-!
# Changes of files

Most calls only write, move or remove files, and set modes and times. Such changes leave
every way as it is, and every entry away from the files (`Touches`).
-/

namespace Mobfs

open Lib
open WriteBack (matching)

/-- Files have been written, made or removed at such places, and modes and times set. -/
inductive Touches (P : String → Prop) (t : Tree) : Tree → Prop
  | refl : Touches P t t
  | file {t1 t2 : Tree} {r : String} (h : Touches P t t1) (hr : P r) (ho : OffWay r t1 t2) : Touches P t t2
  | metadata {t1 t2 : Tree} (h : Touches P t t1) (hm : t1.MetaOnly t2) : Touches P t t2

section Ways
variable {w : Walks} {P Q : String → Prop} {t t1 t' : Tree} {r : String}

namespace Touches

theorem mono (h : Touches P t t') (hPQ : ∀ r, P r → Q r) : Touches Q t t' := by
  induction h with
  | refl => exact .refl
  | file _ hr ho ih => exact ih.file (hPQ _ hr) ho
  | metadata _ hm ih => exact ih.metadata hm

theorem trans (h : Touches P t t1) (h1 : Touches P t1 t') : Touches P t t' := by
  induction h1 with
  | refl => exact h
  | file _ hr ho ih => exact ih.file hr ho
  | metadata _ hm ih => exact ih.metadata hm

theorem isLink (h : Touches P t t') (r : String) : t'.isLink r = t.isLink r := by
  induction h with
  | refl => rfl
  | @file t1 t2 q _ _ ho ih =>
    rw [← ih]
    by_cases hr : r = q
    · rw [hr, ho.noLink, ho.noLink']
    · rw [Tree.isLink, ho.same r hr, Tree.isLink]
  | metadata _ hm ih => rw [hm.isLink, ih]

theorem isDir (h : Touches P t t') (r : String) : t'.isDir r = t.isDir r := by
  induction h with
  | refl => rfl
  | @file t1 t2 q _ _ ho ih =>
    rw [← ih]
    by_cases hr : r = q
    · rw [hr, ho.noDir, ho.noDir']
    · rw [Tree.isDir, ho.same r hr, Tree.isDir]
  | metadata _ hm ih => rw [hm.isDir, ih]

/-- Away from the places nothing changes but modes and times. -/
theorem bare (h : Touches P t t') (hr : ¬ P r) : (t'.node r).map Node.bare = (t.node r).map Node.bare := by
  induction h with
  | refl => rfl
  | file _ hq ho ih =>
    rw [ho.same r, ih]
    rintro rfl
    exact hr hq
  | metadata _ hm ih => rw [hm r, ih]

theorem locate_eq (h : Touches P t t') (hw : w.Real) : w.locate t' = w.locate t := by
  induction h with
  | refl => rfl
  | file _ _ ho ih => rw [ho.locate_eq hw, ih]
  | metadata _ hm ih => rw [w.meta_locate _ _ hm, ih]

theorem drop (h : Touches P t t') (hr : ¬ P r) (hdir : t.isDir r = false) : Touches P (t.drop r) (t'.drop r) := by
  induction h with
  | refl => exact .refl
  | file h hq ho ih =>
    refine ih.file hq (ho.drop_other ?_ (by rw [h.isDir, hdir]))
    rintro rfl
    exact hr hq
  | metadata _ hm ih => exact ih.metadata (hm.drop r)

end Touches

end Ways

/-! ## Calls for files -/

section Calls
variable {w : Walks} {P : String → Prop} {t t' : Tree} {p q q' : String} {stamp : Stamp}

theorem Tree.file_of_bare {t : Tree} {q : String} {data : Bytes} {mode : Nat} {mtime : Int}
    (h : (t.node q).map Node.bare = some (.file data mode mtime : Node).bare) : ∃ mode' mtime', t.node q = some (.file data mode' mtime') := by
  obtain ⟨n, hn, hb⟩ := Option.map_eq_some_iff.1 h
  cases n with
  | file data' mode' mtime' =>
    obtain ⟨rfl, -, -⟩ := Node.file.inj hb
    exact ⟨mode', mtime', hn⟩
  | _ => cases hb

theorem touches_place {data : Bytes} {mode : Nat} {mtime : Int} (hq : P q) (hlink : t.isLink q = false)
    (hp : t.place q (.file data mode mtime) = some t') : Touches P t t' :=
  Touches.refl.file hq (.of_place hlink hp)

theorem touches_openCreate (hf : w.follow t p = some q) (hq : P q) (ho : openCreate w stamp p t = some t') : Touches P t t' := by
  simp only [openCreate, hf] at ho
  split at ho
  · rename_i hn
    exact touches_place hq (by rw [Tree.isLink, hn]; rfl) ho
  · cases ho
    exact .refl
  · cases ho

theorem touches_editFile {g : Bytes → Bytes} (hf : w.follow t p = some q) (hq : P q) (he : editFile w stamp p g t = some t') :
    Touches P t t' := by
  simp only [editFile, hf] at he
  split at he
  · rename_i hn
    exact touches_place hq (by rw [Tree.isLink, hn]; rfl) he
  · cases he

theorem touches_createFile (hw : w.Real) (hf : w.follow t p = some q) (hq : P q) (hc : createFile w stamp p t = some t') :
    Touches P t t' := by
  obtain ⟨t1, ho, he⟩ := Option.bind_eq_some_iff.1 hc
  exact (touches_openCreate hf hq ho).trans (touches_editFile (openCreate_elsewhere hw hf ho).1 hq he)

theorem touches_writeAll {offset : Nat} {data : Bytes} (hf : w.follow t p = some q) (hq : P q)
    (he : writeAll w stamp p offset data t = some t') : Touches P t t' := by
  unfold writeAll at he
  split at he
  · cases he
    exact .refl
  · exact touches_editFile hf hq he

/-- A file is moved to where a file or nothing was. -/
theorem touches_rename {n : Node} (hq : P q) (hq' : P q') (hne : q ≠ q') (hn : t.node q = some n) (hfile : n.isDir = false)
    (hlink : n.isLink = false) (hlink' : t.isLink q' = false) (hmv : t.rename q q' = some t') : Touches P t t' := by
  have hm := Tree.moved_of_rename hne hmv
  have hnode := move_file hne hmv hn hfile
  have hdir' := isDir_replaced hne hn hfile hmv
  have hdir : t.isDir q = false := by rw [Tree.isDir, hn, Option.any_some, hfile]
  have hl : t.isLink q = false := by rw [Tree.isLink, hn, Option.any_some, hlink]
  have hdrop := Tree.node_drop_of_not_isDir hdir
  refine (Touches.refl.file hq (.of_drop (by simp [hn]) hl hdir)).file hq' ⟨fun d hd => ?_, ?_, ?_, ?_, ?_, fun r hr => ?_⟩
  · have hd' := hm.dirs d hd
    have hdne : d ≠ q := by
      rintro rfl
      exact Bool.false_ne_true (hdir.symm.trans hd')
    rwa [Tree.isDir, hdrop, if_neg hdne]
  · rwa [Tree.isLink, hdrop, if_neg (Ne.symm hne)]
  · rwa [Tree.isDir, hdrop, if_neg (Ne.symm hne)]
  · rw [Tree.isLink, hnode, if_pos rfl, Option.any_some, hlink]
  · rw [Tree.isDir, hnode, if_pos rfl, Option.any_some, hfile]
  · rw [hnode, if_neg hr, hdrop]

/-- What is no directory can be moved to where no directory is. -/
theorem rename_isSome {n : Node} (hn : t.node q = some n) (hfile : n.isDir = false) (hdir : t.isDir q' = false)
    (habove : ∀ d ∈ ancestors q', t.isDir d = true) (hm : matching q q' = false) : ∃ t', t.rename q q' = some t' := by
  have hne : q ≠ q' := by
    rintro rfl
    rw [matching_self] at hm
    cases hm
  have hrep : t.replaceable n q' = true := by
    unfold Tree.replaceable
    split
    · rfl
    · rename_i hd
      rw [Tree.isDir, hd] at hdir
      cases hdir
    · simp [hfile]
  unfold Tree.rename
  simp only [hn, if_neg hne, dif_pos (And.intro habove (And.intro hm hrep))]
  exact ⟨_, rfl⟩

end Calls

end Mobfs
