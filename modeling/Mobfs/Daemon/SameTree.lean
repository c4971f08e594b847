import Mobfs.Daemon.Calls
import Mobfs.Lib.Redo
/-!
# Trees that differ in times only

A call on two such trees fails on both, or leaves two such trees (`Alike`): times play no
part in what the daemon's calls do.
-/

namespace Mobfs

open Lib Std
open WriteBack (matching)

/-! ## Trees that differ in times only -/

def Node.untimed (n : Node) : Node := n.utime 0

theorem Node.bare_untimed (n : Node) : n.untimed.bare = n.bare := Node.bare_utime 0 n

namespace Tree

/-- Kinds, contents, targets and modes are the same. -/
def Same (t t' : Tree) : Prop := ∀ q, (t'.node q).map Node.untimed = (t.node q).map Node.untimed

variable {t t' t'' u u' : Tree}

theorem Same.refl (t : Tree) : t.Same t := fun _ => rfl

theorem Same.symm (h : t.Same t') : t'.Same t := fun q => (h q).symm

theorem Same.trans (h : t.Same t') (h' : t'.Same t'') : t.Same t'' := fun q => (h' q).trans (h q)

theorem same_equivalence : Equivalence Same := ⟨Same.refl, Same.symm, Same.trans⟩

theorem Same.metaOnly (h : t.Same t') : t.MetaOnly t' := by
  intro q
  have hb : ∀ o : Option Node, o.map Node.bare = (o.map Node.untimed).map Node.bare := by
    intro o
    cases o with
    | none => rfl
    | some n => simp [Node.bare_untimed]
  rw [hb, h q, ← hb]

theorem Same.node {q : String} {n : Node} (h : t.Same t') (hn : t.node q = some n) :
    ∃ n', t'.node q = some n' ∧ n'.untimed = n.untimed := by
  have hq := h q
  rw [hn] at hq
  exact Option.map_eq_some_iff.1 hq

/-- Trees that are changed at one place in the same way. -/
theorem Same.at {q : String} {n n' : Node} (h : t.Same t') (hu : ∀ r, u.node r = if r = q then some n else t.node r)
    (hu' : ∀ r, u'.node r = if r = q then some n' else t'.node r) (hn : n'.untimed = n.untimed) : u.Same u' := by
  intro r
  rw [hu, hu']
  split
  · simp [hn]
  · exact h r

theorem place_same {q : String} {n n' : Node} (h : t.Same t') (hn : n'.untimed = n.untimed) :
    Option.Rel Same (t.place q n) (t'.place q n') := by
  have hdir := h.metaOnly.isDir
  cases hp : t.place q n with
  | some u =>
    obtain ⟨hdirs, hq, hnode⟩ := place_eq_some hp
    obtain ⟨u', hu'⟩ := place_isSome (t := t') n' (fun d hd => by rw [hdir, hdirs d hd]) (by rw [hdir, hq])
    rw [hu']
    exact .some (h.at hnode (place_eq_some hu').2.2 hn)
  | none =>
    cases hp' : t'.place q n' with
    | none => exact .none
    | some u' =>
      obtain ⟨hdirs, hq, -⟩ := place_eq_some hp'
      obtain ⟨u, hu⟩ := place_isSome (t := t) n (fun d hd => by rw [← hdir, hdirs d hd]) (by rw [← hdir, hq])
      rw [hp] at hu
      cases hu

theorem drop_same (h : t.Same t') (p : String) : (t.drop p).Same (t'.drop p) := by
  intro q
  rw [node_drop, node_drop]
  split
  · rfl
  · exact h q

theorem alter_isSome {q : String} {f : Node → Node} {n : Node} (hf : ∀ n, (f n).isDir = n.isDir)
    (hn : t.node q = some n) : ∃ u, t.alter q f hf = some u := by
  unfold alter
  split
  · rename_i hnone
    rw [hn] at hnone
    cases hnone
  · exact ⟨_, rfl⟩

theorem alter_eq_none {q : String} {f : Node → Node} {hf : ∀ n, (f n).isDir = n.isDir} (hn : t.node q = none) :
    t.alter q f hf = none := by
  unfold alter
  split
  · rfl
  · rename_i hsome
    rw [hn] at hsome
    cases hsome

theorem alter_same {q : String} {f : Node → Node} (hf : ∀ n, (f n).isDir = n.isDir) (h : t.Same t')
    (hff : ∀ n n' : Node, n'.untimed = n.untimed → (f n').untimed = (f n).untimed) :
    Option.Rel Same (t.alter q f hf) (t'.alter q f hf) := by
  cases hn : t.node q with
  | some n =>
    obtain ⟨n', hn', hsame⟩ := h.node hn
    obtain ⟨u, hu⟩ := alter_isSome hf hn
    obtain ⟨u', hu'⟩ := alter_isSome hf hn'
    obtain ⟨m, hm, hnode⟩ := alter_eq_some hu
    obtain ⟨m', hm', hnode'⟩ := alter_eq_some hu'
    obtain rfl : n = m := Option.some.inj (hn.symm.trans hm)
    obtain rfl : n' = m' := Option.some.inj (hn'.symm.trans hm')
    rw [hu, hu']
    exact .some (h.at hnode hnode' (hff n n' hsame))
  | none =>
    rw [alter_eq_none hn, alter_eq_none ((h.metaOnly.node_none q).2 hn)]
    exact .none

theorem same_of_alter {q : String} {f : Node → Node} {hf : ∀ n, (f n).isDir = n.isDir} (h : t.alter q f hf = some u)
    (hff : ∀ n, t.node q = some n → (f n).untimed = n.untimed) : t.Same u := by
  obtain ⟨n, hn, hnode⟩ := alter_eq_some h
  intro r
  rw [hnode]
  split
  · rename_i hr
    rw [hr, hn, Option.map_some, Option.map_some, hff n hn]
  · rfl

theorem replaceable_eq (t : Tree) (n : Node) (dst : String) :
    t.replaceable n dst =
      if t.node dst = none then true
      else if t.isDir dst then n.isDir && t.paths.all fun p => !below dst p
      else !n.isDir := by
  unfold replaceable isDir
  cases t.node dst with
  | none => rfl
  | some m => cases m <;> rfl

theorem replaceable_same {n n' : Node} (h : t.Same t') (hn : n'.isDir = n.isDir) (dst : String) :
    t'.replaceable n' dst = t.replaceable n dst := by
  have hempty : (t'.paths.all fun p => !below dst p) = t.paths.all fun p => !below dst p := by
    rw [Bool.eq_iff_iff, List.all_eq_true, List.all_eq_true]
    refine forall_congr' fun p => ?_
    rw [mem_paths, mem_paths, Ne, Ne, h.metaOnly.node_none p]
  rw [replaceable_eq, replaceable_eq, h.metaOnly.isDir, hn, hempty]
  simp only [h.metaOnly.node_none]

theorem node_isDir {n n' : Node} (h : n'.untimed = n.untimed) : n'.isDir = n.isDir := by
  rw [← Node.isDir_utime 0 n', ← Node.isDir_utime 0 n]
  exact congrArg Node.isDir h

theorem rename_same (h : t.Same t') (src dst : String) : Option.Rel Same (t.rename src dst) (t'.rename src dst) := by
  have hdirs : (∀ d ∈ ancestors dst, t'.isDir d = true) ↔ ∀ d ∈ ancestors dst, t.isDir d = true := by
    simp only [h.metaOnly.isDir]
  cases hs : t.node src with
  | none =>
    have hs' := (h.metaOnly.node_none src).2 hs
    simp only [rename, hs, hs']
    exact .none
  | some n =>
    obtain ⟨n', hs', hn⟩ := h.node hs
    have hrep := replaceable_same h (node_isDir hn) dst
    simp only [rename, hs, hs']
    by_cases he : src = dst
    · rw [if_pos he, if_pos he]
      exact .some h
    · rw [if_neg he, if_neg he]
      by_cases hc : (∀ d ∈ ancestors dst, t.isDir d = true) ∧ matching src dst = false ∧ t.replaceable n dst = true
      · have hc' : (∀ d ∈ ancestors dst, t'.isDir d = true) ∧ matching src dst = false ∧ t'.replaceable n' dst = true :=
          ⟨hdirs.2 hc.1, hc.2.1, by rw [hrep, hc.2.2]⟩
        rw [dif_pos hc, dif_pos hc']
        refine .some fun q => ?_
        rw [node_move, node_move]
        split
        · exact h _
        · split
          · rfl
          · exact h q
      · have hc' : ¬ ((∀ d ∈ ancestors dst, t'.isDir d = true) ∧ matching src dst = false ∧
            t'.replaceable n' dst = true) :=
          fun hc' => hc ⟨hdirs.1 hc'.1, hc'.2.1, by rw [← hrep, hc'.2.2]⟩
        rw [dif_neg hc, dif_neg hc']
        exact .none

end Tree

/-! ## Calls that are alike -/

section Alike
variable {w : Walks} {stamp stamp' : Stamp} {p : String}

theorem createDir_alike (w : Walks) (mode : Nat) (d : String) :
    Alike Tree.Same (fun t => createDir w.toLinks mode t d) fun t => createDir w.toLinks mode t d := by
  intro t t' h
  simp only [createDir, w.meta_locate t t' h.metaOnly]
  cases hq : w.locate t d with
  | none => exact .none
  | some q =>
    simp only
    cases hn : t.node q with
    | none =>
      rw [(h.metaOnly.node_none q).2 hn]
      exact Tree.place_same h rfl
    | some n =>
      obtain ⟨n', hn', hsame⟩ := h.node hn
      rw [hn', w.meta_leadsToDir t t' h.metaOnly]
      cases n <;> cases n' <;> cases hsame
      · exact .none
      · exact .some h
      · simp only
        split
        · exact .some h
        · exact .none
      · exact .none

theorem openCreate_alike (w : Walks) (p : String) (hmode : stamp'.fileMode = stamp.fileMode) :
    Alike Tree.Same (openCreate w stamp p) (openCreate w stamp' p) := by
  intro t t' h
  simp only [openCreate, w.meta_follow t t' h.metaOnly]
  cases hq : w.follow t p with
  | none => exact .none
  | some q =>
    simp only
    cases hn : t.node q with
    | none =>
      rw [(h.metaOnly.node_none q).2 hn]
      refine Tree.place_same h ?_
      rw [hmode]
      rfl
    | some n =>
      obtain ⟨n', hn', hsame⟩ := h.node hn
      rw [hn']
      cases n <;> cases n' <;> cases hsame
      · exact .some h
      all_goals exact .none

theorem editFile_alike (w : Walks) (stamp stamp' : Stamp) (p : String) (f : Bytes → Bytes) :
    Alike Tree.Same (editFile w stamp p f) (editFile w stamp' p f) := by
  intro t t' h
  simp only [editFile, w.meta_follow t t' h.metaOnly]
  cases hq : w.follow t p with
  | none => exact .none
  | some q =>
    simp only
    cases hn : t.node q with
    | none =>
      rw [(h.metaOnly.node_none q).2 hn]
      exact .none
    | some n =>
      obtain ⟨n', hn', hsame⟩ := h.node hn
      rw [hn']
      cases n <;> cases n' <;> cases hsame
      · exact Tree.place_same h rfl
      all_goals exact .none

theorem setPermissions_alike (w : Walks) (p : String) (mode : Nat) :
    Alike Tree.Same (setPermissions w p mode) (setPermissions w p mode) := by
  intro t t' h
  simp only [setPermissions, w.meta_follow t t' h.metaOnly]
  cases hq : w.follow t p with
  | none => exact .none
  | some q =>
    refine Tree.alter_same (Node.isDir_chmod _) h fun n n' hn => ?_
    cases n <;> cases n' <;> cases hn <;> rfl

theorem setFileMtime_alike (w : Walks) (p : String) (modified : Int) :
    Alike Tree.Same (setFileMtime w p modified) (setFileMtime w p modified) := by
  intro t t' h
  simp only [setFileMtime, w.meta_follow t t' h.metaOnly]
  cases hq : w.follow t p with
  | none => exact .none
  | some q =>
    refine Tree.alter_same (Node.isDir_utime _) h fun n n' hn => ?_
    cases n <;> cases n' <;> cases hn <;> rfl

theorem removeFile_alike (w : Walks) (p : String) : Alike Tree.Same (removeFile w p) (removeFile w p) := by
  intro t t' h
  simp only [removeFile, w.meta_locate t t' h.metaOnly]
  cases hq : w.locate t p with
  | none => exact .some h
  | some q =>
    simp only [h.metaOnly.isDir]
    split
    · exact .some h
    · exact .some (Tree.drop_same h q)

theorem makeLink_alike (w : Walks) (p target : String) (hmode : stamp'.linkMode = stamp.linkMode) :
    Alike Tree.Same (makeLink w stamp p target) (makeLink w stamp' p target) := by
  intro t t' h
  simp only [makeLink, w.meta_locate t t' h.metaOnly]
  cases hq : w.locate t p with
  | none => exact .none
  | some q =>
    simp only [h.metaOnly.node_none]
    split
    · refine Tree.place_same h ?_
      rw [hmode]
      rfl
    · exact .none

theorem renameSeen_alike (w : Walks) (unseen : Bool) (src dst : String) :
    Alike Tree.Same (renameSeen w unseen src dst) (renameSeen w unseen src dst) := by
  intro t t' h
  have hlookup : w.lookup t' src = none ↔ w.lookup t src = none := by
    simp only [Links.lookup, w.meta_locate t t' h.metaOnly]
    cases w.locate t src with
    | none => exact Iff.rfl
    | some q => exact h.metaOnly.node_none q
  simp only [renameSeen]
  split
  · exact .some h
  · cases hl : w.lookup t src with
    | none =>
      rw [hlookup.2 hl]
      exact .some h
    | some n =>
      cases hl' : w.lookup t' src with
      | none =>
        rw [hlookup.1 hl'] at hl
        cases hl
      | some n' =>
        simp only [w.meta_locate t t' h.metaOnly]
        cases w.locate t src with
        | none => exact .none
        | some q =>
          cases w.locate t dst with
          | none => exact .none
          | some q' => exact Tree.rename_same h q q'

/-- What the daemon gives new entries is the same at all times. -/
structure Stamp.SameModes (stamp stamp' : Stamp) : Prop where
  file : stamp'.fileMode = stamp.fileMode
  dir : stamp'.dirMode = stamp.dirMode
  link : stamp'.linkMode = stamp.linkMode

theorem createDirAll_alike (hm : stamp.SameModes stamp') (ds : List String) :
    List.Forall₂ (Alike Tree.Same) (createDirAll w stamp ds) (createDirAll w stamp' ds) := by
  rw [createDirAll, createDirAll, hm.dir, List.forall₂_same]
  intro c hc
  obtain ⟨d, -, rfl⟩ := List.mem_map.1 hc
  exact createDir_alike w stamp.dirMode d

variable {blobs : String → Bytes} {op : JournalOp} {h h' : Handling}

variable (w blobs) in
theorem calls_alike (hm : h.stamp.SameModes h'.stamp) (hu : h'.unseen = h.unseen) (hop : ∀ p dir, op ≠ .remove p dir)
    (t t' : Tree) : List.Forall₂ (Alike Tree.Same) (op.calls w blobs h t) (op.calls w blobs h' t') := by
  have hwrite : ∀ p f, List.Forall₂ (Alike Tree.Same)
      (createDirAll w h.stamp (ancestors p) ++ [openCreate w h.stamp p, editFile w h.stamp p f])
      (createDirAll w h'.stamp (ancestors p) ++ [openCreate w h'.stamp p, editFile w h'.stamp p f]) := fun p f =>
    List.rel_append (createDirAll_alike hm _)
      (.cons (openCreate_alike w p hm.file) (.cons (editFile_alike w _ _ p f) .nil))
  cases op with
  | truncate p size => exact hwrite p _
  | setMetadata p mode modified =>
    refine List.rel_append ?_ ?_
    · refine List.forall₂_same.2 fun c hc => ?_
      split at hc
      · split at hc
        · cases hc
        · obtain rfl := List.mem_singleton.1 hc
          exact setPermissions_alike w p _
      · cases hc
    · refine List.forall₂_same.2 fun c hc => ?_
      split at hc
      · split at hc
        · obtain rfl := List.mem_singleton.1 hc
          exact setFileMtime_alike w p _
        · cases hc
      · cases hc
  | mkdir p => exact createDirAll_alike hm _
  | symlink p target =>
    exact List.rel_append (createDirAll_alike hm _)
      (.cons (removeFile_alike w p) (.cons (makeLink_alike w p target hm.link) .nil))
  | rename src dst =>
    refine List.rel_append (createDirAll_alike hm _) (.cons ?_ .nil)
    rw [hu]
    exact renameSeen_alike w h.unseen src dst
  | remove p dir => exact absurd rfl (hop p dir)
  | writeAt p offset data => exact hwrite p _
  | writeBlob p offset blob => exact hwrite p _

end Alike

end Mobfs
