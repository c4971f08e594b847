import Mobfs.Protocol
import Mobfs.Tree
import Mobfs.Vfs.Renames
/-!
# Changes of an entry

What the system does to a single entry of a tree beyond placing and dropping it: a
new mode or time (`Tree.alter`), and a rename (`Tree.rename`), which takes all that
lies under a path to another one. `Moved` is what a rename has done.
-/

namespace Mobfs

open Lib Std
open WriteBack (matching)

/-- `set_len` on contents. -/
def resize (data : Bytes) (size : Nat) : Bytes := data.take size ++ List.replicate (size - data.length) 0

theorem length_resize (data : Bytes) (size : Nat) : (resize data size).length = size := by
  simp [resize]
  omega

theorem resize_resize (data : Bytes) (size : Nat) : resize (resize data size) size = resize data size := by
  have hlen := length_resize data size
  rw [resize, hlen, Nat.sub_self, List.replicate_zero, List.append_nil, List.take_of_length_le (by omega)]

namespace Tree

theorem ext_node {t t' : Tree} (h : ∀ q, t.node q = t'.node q) : t = t' := by
  obtain ⟨nodes, closed⟩ := t
  obtain ⟨nodes', closed'⟩ := t'
  obtain rfl : nodes = nodes' := ExtTreeMap.ext_getElem? h
  rfl

theorem drop_of_none {t : Tree} {q : String} (h : t.node q = none) : t.drop q = t := by
  apply ext_node
  intro r
  rw [node_drop_of_not_isDir (by simp [isDir, h])]
  split
  · rename_i hr
    rw [hr, h]
  · rfl

/-- Changes an entry in a way that leaves a directory a directory. -/
def alter (t : Tree) (q : String) (f : Node → Node) (hf : ∀ n, (f n).isDir = n.isDir) : Option Tree :=
  match h : t.node q with
  | none => none
  | some n => some ⟨t.nodes.insert q (f n), by
    intro d p m hd hp
    have hdir : t.isDir d = true := by
      refine isDir_of_below hd ?_
      rw [get?_insert] at hp
      by_cases hpq : p = q
      · rw [hpq, h]
        simp
      · rw [if_neg hpq] at hp
        rw [node, hp]
        simp
    rw [get?_insert]
    by_cases hdq : d = q
    · rw [isDir, hdq, h] at hdir
      rw [if_pos hdq]
      simpa [hf] using hdir
    · rw [if_neg hdq]
      exact hdir⟩

theorem alter_eq_some {t t' : Tree} {q : String} {f : Node → Node} {hf : ∀ n, (f n).isDir = n.isDir}
    (h : t.alter q f hf = some t') :
    ∃ n, t.node q = some n ∧ ∀ p, t'.node p = if p = q then some (f n) else t.node p := by
  unfold alter at h
  split at h
  · cases h
  · rename_i n hn
    cases h
    refine ⟨n, hn, ?_⟩
    intro p
    exact get?_insert _ _ _ _

/-- Only modes and times differ. -/
def MetaOnly (t t' : Tree) : Prop := ∀ q, (t'.node q).map Node.bare = (t.node q).map Node.bare

theorem metaOnly_of_alter {t t' : Tree} {q : String} {f : Node → Node} {hf : ∀ n, (f n).isDir = n.isDir}
    (h : t.alter q f hf = some t') (hb : ∀ n, (f n).bare = n.bare) : MetaOnly t t' := by
  obtain ⟨n, hn, hnode⟩ := alter_eq_some h
  intro p
  rw [hnode]
  by_cases hp : p = q
  · rw [if_pos hp, hp, hn]
    simp [hb]
  · rw [if_neg hp]

theorem MetaOnly.symm {t t' : Tree} (h : MetaOnly t t') : MetaOnly t' t := fun q => (h q).symm

theorem MetaOnly.node_none {t t' : Tree} (h : MetaOnly t t') (q : String) : t'.node q = none ↔ t.node q = none := by
  rw [← Option.map_eq_none_iff (f := Node.bare), h q, Option.map_eq_none_iff]

theorem MetaOnly.isDir {t t' : Tree} (h : MetaOnly t t') (q : String) : t'.isDir q = t.isDir q := by
  have hb : ∀ o : Option Node, o.any Node.isDir = (o.map Node.bare).any Node.isDir := by
    intro o
    cases o with
    | none => rfl
    | some n => cases n <;> rfl
  rw [Tree.isDir, Tree.isDir, hb, h q, ← hb]

theorem MetaOnly.isLink {t t' : Tree} (h : MetaOnly t t') (q : String) : t'.isLink q = t.isLink q := by
  have hb : ∀ o : Option Node, o.any Node.isLink = (o.map Node.bare).any Node.isLink := by
    intro o
    cases o with
    | none => rfl
    | some n => cases n <;> rfl
  rw [Tree.isLink, Tree.isLink, hb, h q, ← hb]

theorem MetaOnly.file {t t' : Tree} (h : MetaOnly t t') {q : String} {data : Bytes} {mode : Nat} {mtime : Int}
    (hn : t.node q = some (.file data mode mtime)) : ∃ mode' mtime', t'.node q = some (.file data mode' mtime') := by
  have hq := h q
  rw [hn] at hq
  obtain ⟨n, hn', hb⟩ := Option.map_eq_some_iff.1 hq
  cases n with
  | file data' mode' mtime' =>
    simp only [Node.bare, Node.chmod, Node.utime, Node.file.injEq] at hb
    exact ⟨mode', mtime', by rw [hn', hb.1]⟩
  | _ => cases hb

/-! ## Renaming -/

theorem below_rebase {src dst d p : String} (hd : matching src d = true) (h : below d p = true) :
    below (rebase src dst d) (rebase src dst p) = true := by
  obtain ⟨r, hr, -⟩ := matching_iff_append.1 hd
  obtain ⟨q, hq⟩ := below_iff.1 h
  refine below_iff.2 ⟨q, ?_⟩
  simp [rebase, hq, hr]

/-- The entries after all that is under `src` is moved to `dst`, in place of what
was under `dst`. -/
def movedNodes (t : Tree) (src dst : String) : ExtTreeMap String Node :=
  insertMoved (eraseWhere t.nodes fun q => matching src q || matching dst q) t.nodes (matching src) (rebase src dst)

theorem get?_movedNodes (t : Tree) (src dst q : String) :
    (t.movedNodes src dst)[q]? =
      if matching dst q then t.node (rebase dst src q) else if matching src q then none else t.node q := by
  have hinj : ∀ a b, matching src a = true → matching src b = true → rebase src dst a = rebase src dst b → a = b :=
    fun a b ha hb h => rebase_inj ha hb h
  have hbase : (eraseWhere t.nodes fun q => matching src q || matching dst q)[q]? =
      if matching src q || matching dst q then none else t.node q := get?_eraseWhere _ _ _
  unfold movedNodes
  by_cases hq : matching dst q = true
  · have hsrc : matching src (rebase dst src q) = true := matching_rebase src hq
    rw [if_pos hq]
    cases hn : t.node (rebase dst src q) with
    | some n =>
      have hback : rebase src dst (rebase dst src q) = q := rebase_rebase src hq
      conv_lhs => rw [← hback]
      exact get?_insertMoved hinj hsrc hn
    | none =>
      rw [get?_insertMoved_other, hbase, if_pos (by simp [hq])]
      intro k hk hne he
      have : k = rebase dst src q := by rw [← he, rebase_rebase dst hk]
      exact hne (this ▸ hn)
  · rw [if_neg hq, get?_insertMoved_other, hbase]
    · cases hs : matching src q <;> simp [hq]
    · intro k hk _ he
      exact hq (he ▸ matching_rebase dst hk)

/-- `rename` of an entry to a path in an existing directory outside of it. -/
def move (t : Tree) (src dst : String) (hd : ∀ d, below d dst = true → t.isDir d = true) (hs : matching src dst = false) :
    Tree :=
  ⟨t.movedNodes src dst, by
    intro d p n hdp hp
    rw [get?_movedNodes] at hp ⊢
    by_cases hpd : matching dst p = true
    · rw [if_pos hpd] at hp
      by_cases hdd : matching dst d = true
      · rw [if_pos hdd]
        exact t.closed _ _ n (below_rebase hdd hdp) hp
      · -- `d` is one of the directories of `dst`.
        have hbd : below d dst = true := by
          rcases matching_total (matching_iff.2 (.inr hdp)) hpd with h | h
          · rcases matching_iff.1 h with rfl | h
            · exact absurd (matching_self _) hdd
            · exact h
          · exact absurd h hdd
        have hsd : ¬ matching src d = true := fun h => by
          rw [matching_iff.2 (.inr (matching_below h hbd))] at hs
          cases hs
        rw [if_neg hdd, if_neg hsd]
        exact hd d hbd
    · rw [if_neg hpd] at hp
      by_cases hps : matching src p = true
      · rw [if_pos hps] at hp
        cases hp
      · rw [if_neg hps] at hp
        have hdd : ¬ matching dst d = true := fun h => hpd (matching_iff.2 (.inr (matching_below h hdp)))
        have hsd : ¬ matching src d = true := fun h => hps (matching_iff.2 (.inr (matching_below h hdp)))
        rw [if_neg hdd, if_neg hsd]
        exact t.closed d p n hdp hp⟩

theorem node_move {t : Tree} {src dst : String} (hd : ∀ d, below d dst = true → t.isDir d = true)
    (hs : matching src dst = false) (q : String) :
    (t.move src dst hd hs).node q =
      if matching dst q then t.node (rebase dst src q) else if matching src q then none else t.node q :=
  get?_movedNodes t src dst q

/-- `dst` may be replaced by `n`: a directory only by a directory and if it is
empty, anything else only by what is no directory. -/
def replaceable (t : Tree) (n : Node) (dst : String) : Bool :=
  match t.node dst with
  | none => true
  | some (.dir _) => n.isDir && t.paths.all fun p => !below dst p
  | some _ => !n.isDir

/-- The system call. -/
def rename (t : Tree) (src dst : String) : Option Tree :=
  match t.node src with
  | none => none
  | some n =>
    if src = dst then some t
    else if h : (∀ d ∈ ancestors dst, t.isDir d = true) ∧ matching src dst = false ∧ t.replaceable n dst = true then
      some (t.move src dst (fun d hd => h.1 d (mem_ancestors_iff.2 hd)) h.2.1)
    else none

theorem rename_self {t t' : Tree} {q : String} (h : t.rename q q = some t') : t' = t := by
  unfold rename at h
  split at h
  · cases h
  · rw [if_pos rfl] at h
    exact (Option.some.inj h).symm

/-- What a rename has done: neither path lies under the other, and the entries under
the one are now under the other. -/
structure Moved (src dst : String) (t t' : Tree) : Prop where
  dirs : ∀ d, below d dst = true → t.isDir d = true
  src_dst : matching src dst = false
  dst_src : matching dst src = false
  src_ne : t.node src ≠ none
  node : ∀ q, t'.node q =
    if matching dst q then t.node (rebase dst src q) else if matching src q then none else t.node q

theorem not_below_of_replaceable {t : Tree} {n : Node} {src dst : String} (h : t.replaceable n dst = true)
    (hs : t.node src ≠ none) : below dst src = false := by
  rw [Bool.eq_false_iff]
  intro hb
  have hdir := isDir_of_below hb hs
  unfold replaceable at h
  split at h
  · rename_i hn
    simp [isDir, hn] at hdir
  · simp only [Bool.and_eq_true, List.all_eq_true, Bool.not_eq_true'] at h
    rw [h.2 src (mem_paths.2 hs)] at hb
    cases hb
  · rename_i hn' hn
    rw [isDir, hn, Option.any_some] at hdir
    rename_i n'
    cases n' with
    | dir mode => exact hn' mode rfl
    | _ => cases hdir

theorem moved_of_rename {t t' : Tree} {src dst : String} (hne : src ≠ dst) (h : t.rename src dst = some t') :
    Moved src dst t t' := by
  unfold rename at h
  split at h
  · cases h
  · rename_i n hn
    rw [if_neg hne] at h
    split at h
    · rename_i hc
      cases h
      have hs : t.node src ≠ none := by simp [hn]
      refine ⟨fun d hd => hc.1 d (mem_ancestors_iff.2 hd), hc.2.1, ?_, hs, node_move _ _⟩
      simp [matching, hne, not_below_of_replaceable hc.2.2 hs]
    · cases h

theorem replaceable_of_rename {t t' : Tree} {src dst : String} (hne : src ≠ dst) (h : t.rename src dst = some t') :
    ∃ n, t.node src = some n ∧ t.replaceable n dst = true := by
  unfold rename at h
  split at h
  · cases h
  · rename_i n hn
    rw [if_neg hne] at h
    split at h
    · rename_i hc
      exact ⟨n, hn, hc.2.2⟩
    · cases h

/-- No link is replaced by a directory. -/
theorem isDir_of_rename_link {t t' : Tree} {src dst d : String} (hne : src ≠ dst) (h : t.rename src dst = some t')
    (hd : t.isLink d = true) : t'.isDir d = false := by
  have hm := moved_of_rename hne h
  obtain ⟨n, hn, hrep⟩ := replaceable_of_rename hne h
  obtain ⟨l, hl, hlink⟩ := (Option.any_eq_true _ _).1 hd
  unfold replaceable at hrep
  rw [isDir, hm.node]
  split
  · rename_i hdst
    rcases matching_iff.1 hdst with rfl | hb
    · rw [rebase_self, hn, Option.any_some]
      rw [hl] at hrep
      cases l with
      | symlink target mode mtime => simpa using hrep
      | _ => cases hlink
    · -- The directory at `dst` would have to be empty.
      have hdir : t.isDir dst = true := isDir_of_below hb (by simp [hl])
      obtain ⟨m, hm, hmdir⟩ := (Option.any_eq_true _ _).1 hdir
      rw [hm] at hrep
      cases m with
      | dir mode =>
        simp only [Bool.and_eq_true, List.all_eq_true, Bool.not_eq_true'] at hrep
        rw [hrep.2 d (mem_paths.2 (by simp [hl]))] at hb
        cases hb
      | _ => cases hmdir
  · split
    · rfl
    · rw [hl, Option.any_some]
      cases l with
      | symlink target mode mtime => rfl
      | _ => cases hlink

theorem Moved.node_src {t t' : Tree} {src dst : String} (h : Moved src dst t t') : t'.node src = none := by
  rw [h.node, if_neg (by simp [h.dst_src]), if_pos (matching_self src)]

theorem Moved.node_above {t t' : Tree} {src dst d : String} (h : Moved src dst t t')
    (hd : below d dst = true ∨ below d src = true) : t'.node d = t.node d := by
  have hdst : ¬ matching dst d = true := by
    intro hm
    rcases hd with hb | hb
    · have := matching_below hm hb
      rw [below_irrefl] at this
      cases this
    · have := h.dst_src
      rw [matching_iff.2 (.inr (matching_below hm hb))] at this
      cases this
  have hsrc : ¬ matching src d = true := by
    intro hm
    rcases hd with hb | hb
    · have := h.src_dst
      rw [matching_iff.2 (.inr (matching_below hm hb))] at this
      cases this
    · have := matching_below hm hb
      rw [below_irrefl] at this
      cases this
  rw [h.node, if_neg hdst, if_neg hsrc]

theorem Moved.plain_src {t t' : Tree} {src dst : String} (h : Moved src dst t t') : t'.Plain src := by
  intro d hd
  rw [isLink, h.node_above (.inr hd), ← isLink]
  exact isLink_of_isDir (isDir_of_below hd h.src_ne)

end Tree

end Mobfs
