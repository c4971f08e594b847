import Mobfs.Daemon.Policy
import Mobfs.Daemon.Requests
import Mobfs.Vfs.Operations
/-!
# The snapshot a mount starts from

`snapshot_meta` of the daemon walks the tree breadth first and stops before the first
directory whose entries would be more than `max_entries` in all; `snapshot` walks all of
it and leaves the ignored paths out afterwards. A directory in `complete_dirs` is one
whose entries the mount takes for all there are.

`WalkInv` is what the walk keeps: the entries found are those of the complete directories,
and the queue holds the directories among them that are not complete.
`snapshotMeta_exact` sums up what comes out.
-/

namespace Mobfs

open Lib Std

/-- A tree as the daemon reads it while nothing changes it: names are those of a file
system, and `read_dir` and `WalkDir` come to the entries in some order. A `Tree` does not
keep the times of directories; they are `dirTimes`. -/
structure DiskTree where
  tree : Tree
  dirTimes : String → Int
  named : ∀ p, tree.node p ≠ none → ∀ part ∈ p.toList.splitOn '/', part ≠ [] ∧ part ≠ ['.'] ∧ part ≠ ['.', '.']
  items : String → List String
  items_perm : ∀ d, (items d).Perm ((tree.paths.filter fun p => (splitParent p).1 = d).map fun p => (splitParent p).2)
  walked : List String
  walked_perm : walked.Perm ("" :: tree.paths)

/-- What `snapshot_meta` has found so far. -/
structure MetaWalk where
  queue : List String
  entries : Snapshot
  completeDirs : List String

namespace DiskTree

section Walks
variable (d : DiskTree) (sha : List UInt8 → String) (ignore : List String) (maxEntries : Nat)

/-- What `snapshot` takes of a path that `WalkDir` comes to. -/
def walkedMeta (rel : String) : Option EntryMeta :=
  if rel = "" ∨ shouldIgnoreRel ignore rel = true then none else (d.tree.node rel).bind (entryMeta sha)

def snapshot : Snapshot :=
  d.walked.foldl (fun entries rel =>
    match d.walkedMeta sha ignore rel with
    | some m => entries.insert rel m
    | none => entries) ∅

/-- `entry_meta_fast`, which takes the time of a directory too. -/
def fastMeta (p : String) : Option EntryMeta :=
  ((d.tree.node p).bind entryMetaFast).map fun m =>
    if m.kind = .dir then { m with modified := modifiedSecs (d.dirTimes p) } else m

/-- `read_dir(safe_join(root, rel)?)`: the names in a directory, or none where it cannot
be read. -/
def readDir (root : AbsPath) (rel : String) : Except MobfsError (Option (List String)) :=
  match safeJoin root rel with
  | .error e => .error e
  | .ok _ => .ok (if rel = "" ∨ d.tree.isDir rel = true then some (d.items rel) else none)

/-- The entries of one directory. -/
def batch (rel : String) (names : List String) : List (String × EntryMeta) :=
  names.filterMap fun name =>
    if shouldIgnorePart name.toList ignore then none
    else (d.fastMeta (joinRel rel name)).map fun m => (joinRel rel name, m)

/-- The loop of `snapshot_meta`; nothing where the fuel runs out. -/
def metaLoop (root : AbsPath) : Nat → MetaWalk → Option (Except MobfsError MetaWalk)
  | 0, _ => none
  | fuel + 1, s =>
    match s.queue with
    | [] => some (.ok s)
    | rel :: queue =>
      match d.readDir root rel with
      | .error e => some (.error e)
      | .ok none => metaLoop root fuel { s with queue := queue }
      | .ok (some names) =>
        let batch := d.batch ignore rel names
        if maxEntries < s.entries.size + batch.length then some (.ok s)
        else
          metaLoop root fuel
            ⟨queue ++ (batch.filter fun x => x.2.kind = .dir).map (·.1), s.entries.insertMany batch,
              s.completeDirs ++ [rel]⟩

/-- A round for each directory is enough. -/
def snapshotMeta (root : AbsPath) : Option (Except MobfsError (Snapshot × List String)) :=
  (d.metaLoop ignore maxEntries root (d.tree.paths.length + 2) ⟨[""], ∅, []⟩).map fun r =>
    r.map fun s => (s.entries, s.completeDirs)

end Walks

/-! ## Names in a tree on disk -/

section Names
variable {d : DiskTree} {ignore : List String} {p rel : String}

theorem node_root (d : DiskTree) : d.tree.node "" = none := by
  by_contra h
  exact (d.named "" h [] (by simp)).1 rfl

theorem node_below_root (h : below "" p = true) : d.tree.node p = none := by
  by_contra hp
  obtain ⟨r, hr⟩ := below_iff.1 h
  exact (d.named p hp [] (by rw [hr]; exact List.mem_cons_self)).1 rfl

/-- A path is its directory and its name. -/
theorem join_splitParent (h : d.tree.node p ≠ none) : joinRel (splitParent p).1 (splitParent p).2 = p := by
  rcases splitParent_cases p with ⟨-, hs, -⟩ | ⟨parent, name, -, hs, hp, -⟩
  · rw [hs]
    rfl
  · have hne : parent ≠ "" := fun e => h (node_below_root (below_iff.2 ⟨name.toList, e ▸ hp⟩))
    rw [hs, joinRel, if_neg hne, ← String.toList_inj, hp]
    simp

theorem component_named {first : Bool} {part : List Char} (h : part ≠ [] ∧ part ≠ ['.'] ∧ part ≠ ['.', '.']) :
    component first part = some (.normal (String.ofList part)) := by
  rw [component, if_neg h.1, if_neg h.2.1, if_neg h.2.2]

theorem names_named {parts : List (List Char)} (h : ∀ part ∈ parts, part ≠ [] ∧ part ≠ ['.'] ∧ part ≠ ['.', '.']) :
    (parts.filterMap (component false)).mapM Component.name? = some (parts.map String.ofList) := by
  induction parts with
  | nil => rfl
  | cons part parts ih =>
    rw [List.filterMap_cons, component_named (h part List.mem_cons_self), List.mapM_cons,
      ih fun q hq => h q (List.mem_cons_of_mem _ hq)]
    rfl

/-- A path of the tree is joined to the root. -/
theorem safeJoin_named (root : AbsPath) (h : p = "" ∨ d.tree.node p ≠ none) : ∃ q, safeJoin root p = .ok q := by
  rcases h with rfl | h
  · exact ⟨root ++ [], rfl⟩
  · have hparts := d.named p h
    unfold safeJoin components
    cases hs : p.toList.splitOn '/' with
    | nil => exact ⟨root ++ [], rfl⟩
    | cons first parts =>
      rw [hs] at hparts
      have hfirst := hparts first List.mem_cons_self
      cases first with
      | nil => exact absurd rfl hfirst.1
      | cons c cs =>
        simp only [component_named hfirst, Option.toList_some, List.singleton_append, List.mapM_cons,
          names_named fun q hq => hparts q (List.mem_cons_of_mem _ hq)]
        exact ⟨_, rfl⟩

theorem readDir_of_dir (root : AbsPath) (h : rel = "" ∨ d.tree.isDir rel = true) :
    d.readDir root rel = .ok (some (d.items rel)) := by
  have hthere : rel = "" ∨ d.tree.node rel ≠ none := by
    refine h.imp_right fun hd => ?_
    obtain ⟨n, hn, -⟩ := Tree.isDir_iff.1 hd
    simp [hn]
  obtain ⟨q, hq⟩ := safeJoin_named root hthere
  rw [readDir, hq, if_pos h]

end Names

/-! ## The entries of one directory -/

section Batch
variable {d : DiskTree} {ignore : List String} {rel p : String} {m : EntryMeta}

theorem node_of_fastMeta (h : d.fastMeta p = some m) : ∃ n, d.tree.node p = some n ∧ (m.kind = .dir ↔ n.isDir = true) := by
  obtain ⟨m', h', rfl⟩ := Option.map_eq_some_iff.1 h
  obtain ⟨n, hn, hm⟩ := Option.bind_eq_some_iff.1 h'
  refine ⟨n, hn, ?_⟩
  cases n <;> cases hm <;> simp [Node.isDir]

theorem mem_items {name : String} :
    name ∈ d.items rel ↔ ∃ p, d.tree.node p ≠ none ∧ (splitParent p).1 = rel ∧ (splitParent p).2 = name := by
  rw [(d.items_perm rel).mem_iff]
  simp [Tree.mem_paths, and_assoc]

theorem mem_batch : (p, m) ∈ d.batch ignore rel (d.items rel) ↔
    (splitParent p).1 = rel ∧ shouldIgnorePart (splitParent p).2.toList ignore = false ∧ d.fastMeta p = some m := by
  simp only [batch, List.mem_filterMap, mem_items, Option.ite_none_left_eq_some, Option.map_eq_some_iff,
    Prod.mk.injEq, Bool.not_eq_true]
  constructor
  · rintro ⟨name, ⟨q, hq, rfl, rfl⟩, hign, m', hm, hp, rfl⟩
    rw [join_splitParent hq] at hp hm
    subst hp
    exact ⟨rfl, hign, hm⟩
  · rintro ⟨rfl, hign, hm⟩
    obtain ⟨n, hn, -⟩ := node_of_fastMeta hm
    have hp : d.tree.node p ≠ none := by simp [hn]
    refine ⟨_, ⟨p, hp, rfl, rfl⟩, hign, m, ?_, ?_, rfl⟩
    · rw [join_splitParent hp]
      exact hm
    · exact join_splitParent hp

theorem nodup_batch : ((d.batch ignore rel (d.items rel)).map Prod.fst).Nodup := by
  have hitems : (d.items rel).Nodup := by
    rw [(d.items_perm rel).nodup_iff]
    refine (List.nodup_map_iff_inj_on ?_).2 ?_
    · refine (ExtTreeMap.distinct_keys (t := d.tree.nodes)).filter _ |>.imp ?_
      intro a b hne he
      exact hne (by rw [he]; exact ReflCmp.compare_self)
    · intro a ha b hb hab
      simp only [List.mem_filter, Tree.mem_paths, decide_eq_true_eq] at ha hb
      rw [← join_splitParent ha.1, ← join_splitParent hb.1, ha.2, hb.2, hab]
  rw [List.Nodup, List.pairwise_map]
  unfold batch
  rw [List.pairwise_filterMap]
  refine hitems.imp ?_
  intro a b hab x hx y hy hxy
  simp only [Option.ite_none_left_eq_some, Option.map_eq_some_iff] at hx hy
  obtain ⟨-, m, -, rfl⟩ := hx
  obtain ⟨-, m', -, rfl⟩ := hy
  exact hab (joinRel_inj hxy)

end Batch

/-! ## What the walk keeps -/

section Walk
variable {d : DiskTree} {sha : List UInt8 → String} {ignore : List String} {maxEntries : Nat}
  {s : MetaWalk} {rel p : String} {queue : List String}

/-- The full snapshot has every path that is not ignored. -/
theorem get?_snapshot (d : DiskTree) (sha : List UInt8 → String) (ignore : List String) (p : String) :
    (d.snapshot sha ignore)[p]? = (scan sha ignore d.tree)[p]? := by
  have hwalked : p ∈ d.walked ↔ p = "" ∨ d.tree.node p ≠ none := by
    rw [d.walked_perm.mem_iff, List.mem_cons, Tree.mem_paths]
  rw [snapshot, get?_foldl_insert (d.walkedMeta sha ignore), get?_scan, walkedMeta]
  by_cases hp : p = ""
  · subst hp
    simp [node_root]
  · by_cases hn : d.tree.node p = none
    · simp [hp, hn]
    · cases shouldIgnoreRel ignore p <;> simp [hwalked, hp, hn]
  · intro entries rel
    cases d.walkedMeta sha ignore rel <;> rfl

structure WalkInv (d : DiskTree) (ignore : List String) (s : MetaWalk) : Prop where
  found : ∀ p m, s.entries[p]? = some m ↔ (splitParent p).1 ∈ s.completeDirs ∧
    shouldIgnorePart (splitParent p).2.toList ignore = false ∧ d.fastMeta p = some m
  dirs : ∀ rel, rel ∈ s.completeDirs ++ s.queue ↔ rel = "" ∨ ∃ m, s.entries[rel]? = some m ∧ m.kind = .dir
  nodup : (s.completeDirs ++ s.queue).Nodup

theorem walkInv_start (d : DiskTree) (ignore : List String) : WalkInv d ignore ⟨[""], ∅, []⟩ where
  found := by simp
  dirs := by simp
  nodup := by simp

theorem WalkInv.isDir (h : WalkInv d ignore s) (hrel : rel ∈ s.completeDirs ++ s.queue) :
    rel = "" ∨ d.tree.isDir rel = true := by
  refine ((h.dirs rel).1 hrel).imp_right ?_
  rintro ⟨m, hm, hk⟩
  obtain ⟨n, hn, hd⟩ := node_of_fastMeta ((h.found rel m).1 hm).2.2
  exact Tree.isDir_iff.2 ⟨n, hn, hd.1 hk⟩

/-- What is in the directory taken from the queue has not been found before. -/
theorem WalkInv.fresh (h : WalkInv d ignore s) (hq : s.queue = rel :: queue) {x : String × EntryMeta}
    (hx : x ∈ d.batch ignore rel (d.items rel)) : s.entries[x.1]? = none := by
  by_contra hne
  obtain ⟨m, hm⟩ := Option.ne_none_iff_exists'.1 hne
  have hcomplete := ((h.found x.1 m).1 hm).1
  rw [(mem_batch.1 hx).1] at hcomplete
  have hnodup := h.nodup
  rw [hq, List.nodup_append] at hnodup
  exact hnodup.2.2 rel hcomplete rel List.mem_cons_self rfl

/-- One round keeps the invariant. -/
theorem WalkInv.round (h : WalkInv d ignore s) (hq : s.queue = rel :: queue) :
    WalkInv d ignore
      ⟨queue ++ ((d.batch ignore rel (d.items rel)).filter fun x => x.2.kind = .dir).map (·.1),
        s.entries.insertMany (d.batch ignore rel (d.items rel)), s.completeDirs ++ [rel]⟩ := by
  have hfound : ∀ p m, (s.entries.insertMany (d.batch ignore rel (d.items rel)))[p]? = some m ↔
      (p, m) ∈ d.batch ignore rel (d.items rel) ∨ s.entries[p]? = some m := by
    intro p m
    rw [get?_insertMany nodup_batch]
    refine or_congr_right (and_iff_right_of_imp ?_)
    intro hm x hx hxp
    rw [← hxp, h.fresh hq hx] at hm
    cases hm
  have hnew : ∀ r, r ∈ ((d.batch ignore rel (d.items rel)).filter fun x => x.2.kind = .dir).map (·.1) ↔
      ∃ m, (r, m) ∈ d.batch ignore rel (d.items rel) ∧ m.kind = .dir := by
    intro r
    simp
  have hpast : ∀ r, r ∈ s.completeDirs ++ [rel] ++ queue ↔ r ∈ s.completeDirs ++ s.queue := by
    intro r
    rw [hq, List.append_assoc, List.singleton_append]
  refine ⟨?_, ?_, ?_⟩
  · intro p m
    rw [hfound, h.found, mem_batch, List.mem_append, List.mem_singleton]
    tauto
  · intro r
    rw [← List.append_assoc, List.mem_append, hpast, h.dirs, hnew]
    simp only [hfound]
    constructor
    · rintro ((rfl | ⟨m, hm, hk⟩) | ⟨m, hm, hk⟩)
      · exact .inl rfl
      · exact .inr ⟨m, .inr hm, hk⟩
      · exact .inr ⟨m, .inl hm, hk⟩
    · rintro (rfl | ⟨m, hm | hm, hk⟩)
      · exact .inl (.inl rfl)
      · exact .inr ⟨m, hm, hk⟩
      · exact .inl (.inr ⟨m, hm, hk⟩)
  · rw [← List.append_assoc, List.nodup_append]
    refine ⟨?_, (List.filter_sublist.map _).nodup nodup_batch, ?_⟩
    · rw [List.append_assoc, List.singleton_append, ← hq]
      exact h.nodup
    · -- A directory just found is not the root and was not among the entries.
      rintro r hr r' hr' rfl
      obtain ⟨m, hm, -⟩ := (hnew r).1 hr'
      rcases (h.dirs r).1 ((hpast r).1 hr) with rfl | ⟨m', hm', -⟩
      · obtain ⟨n, hn, -⟩ := node_of_fastMeta (mem_batch.1 hm).2.2
        rw [node_root] at hn
        cases hn
      · rw [h.fresh hq hm] at hm'
        cases hm'

theorem length_lt_of_below {a b : String} (h : below a b = true) : a.toList.length < b.toList.length := by
  obtain ⟨r, hr⟩ := below_iff.1 h
  rw [hr]
  simp

/-- Nothing found is ignored: the directories it is in have been found. -/
theorem WalkInv.notIgnored (h : WalkInv d ignore s) {m : EntryMeta} (hm : s.entries[p]? = some m) :
    shouldIgnoreRel ignore p = false := by
  induction hlen : p.toList.length using Nat.strong_induction_on generalizing p m with
  | _ n ih =>
    obtain ⟨hparent, hname, hmeta⟩ := (h.found p m).1 hm
    refine notIgnored_iff.2 ⟨fun hbelow => ?_, hname⟩
    rcases (h.dirs _).1 (List.mem_append_left _ hparent) with hroot | ⟨m', hm', -⟩
    · obtain ⟨n, hn, -⟩ := node_of_fastMeta hmeta
      rw [hroot] at hbelow
      rw [node_below_root hbelow] at hn
      cases hn
    · exact ih _ (hlen ▸ length_lt_of_below hbelow) hm' rfl

/-- What a directory in the tree shows of an entry, apart from times and sums. -/
def attrs (m : EntryMeta) : EntryKind × Nat × Nat × Option String := (m.kind, m.size, m.mode, m.linkTarget)

theorem attrs_fastMeta (d : DiskTree) (sha : List UInt8 → String) (p : String) :
    (d.fastMeta p).map attrs = ((d.tree.node p).bind (entryMeta sha)).map attrs := by
  unfold fastMeta
  cases d.tree.node p with
  | none => rfl
  | some n => cases n <;> rfl

theorem WalkInv.subset (h : WalkInv d ignore s) (sha : List UInt8 → String) {m : EntryMeta} (hm : s.entries[p]? = some m) :
    (d.snapshot sha ignore)[p]?.map attrs = some (attrs m) := by
  rw [get?_snapshot, get?_scan, h.notIgnored hm]
  simp only [Bool.false_eq_true, if_false]
  rw [← attrs_fastMeta, ((h.found p m).1 hm).2.2]
  rfl

/-- When the queue is empty, nothing of the full snapshot is missing. -/
theorem WalkInv.whole (h : WalkInv d ignore s) (hq : s.queue = []) {m : EntryMeta}
    (hm : (d.snapshot sha ignore)[p]? = some m) : s.entries[p]?.map attrs = some (attrs m) := by
  induction hlen : p.toList.length using Nat.strong_induction_on generalizing p m with
  | _ n ih =>
    rw [get?_snapshot] at hm
    obtain ⟨hign, n', hn, hmeta⟩ := node_of_scan hm
    have hattrs : (d.fastMeta p).map attrs = some (attrs m) := by
      rw [attrs_fastMeta d sha, hn, Option.bind_some, hmeta]
      rfl
    obtain ⟨m', hm', -⟩ := Option.map_eq_some_iff.1 hattrs
    have hparent : (splitParent p).1 ∈ s.completeDirs := by
      have hdir := (h.dirs (splitParent p).1).2
      rw [hq, List.append_nil] at hdir
      rcases parent_of p with hroot | hbelow
      · exact hdir (.inl hroot)
      · obtain ⟨md, hmd, hk⟩ := scan_dir_of_below hbelow (by rw [hm]; simp)
        have hfound := ih _ (hlen ▸ length_lt_of_below hbelow) (by rw [get?_snapshot]; exact hmd) rfl
        obtain ⟨m₀, hm₀, he⟩ := Option.map_eq_some_iff.1 hfound
        exact hdir (.inr ⟨m₀, hm₀, (congrArg Prod.fst he).trans hk⟩)
    rw [(h.found p m').2 ⟨hparent, (notIgnored_iff.1 hign).2, hm'⟩, ← hm', hattrs]

/-- The loop ends, and if what there is fits, with an empty queue. -/
theorem metaLoop_ends (sha : List UInt8 → String) (root : AbsPath) (fuel : Nat) (h : WalkInv d ignore s) (hsize : s.entries.size ≤ maxEntries)
    (hfuel : d.tree.paths.length + 2 ≤ fuel + s.completeDirs.length) :
    ∃ s', d.metaLoop ignore maxEntries root fuel s = some (.ok s') ∧ WalkInv d ignore s' ∧ s'.entries.size ≤ maxEntries ∧
      ((d.snapshot sha ignore).size ≤ maxEntries → s'.queue = []) := by
  induction fuel generalizing s with
  | zero =>
    -- No more directories are complete than there are directories.
    have hsub : s.completeDirs ⊆ "" :: d.tree.paths := by
      intro rel hrel
      rcases h.isDir (List.mem_append_left _ hrel) with rfl | hd
      · exact List.mem_cons_self
      · obtain ⟨n, hn, -⟩ := Tree.isDir_iff.1 hd
        exact List.mem_cons_of_mem _ (Tree.mem_paths.2 (by simp [hn]))
    have hle := ((List.nodup_append.1 h.nodup).1.subperm hsub).length_le
    rw [List.length_cons] at hle
    omega
  | succ fuel ih =>
    unfold metaLoop
    cases hq : s.queue with
    | nil => exact ⟨s, rfl, h, hsize, fun _ => hq⟩
    | cons rel queue =>
      have hrel : rel ∈ s.completeDirs ++ s.queue := by simp [hq]
      have hround := h.round hq
      have hnew := size_insertMany nodup_batch fun x hx => h.fresh hq hx
      simp only [readDir_of_dir root (h.isDir hrel)]
      split
      · rename_i hfull
        refine ⟨s, rfl, h, hsize, fun hfits => ?_⟩
        -- The entries with those of this directory are all in the full snapshot.
        have hall : (s.entries.insertMany (d.batch ignore rel (d.items rel))).size ≤ (d.snapshot sha ignore).size := by
          apply size_le_of_subset
          intro p m hm hnone
          have := hround.subset sha hm
          rw [hnone] at this
          cases this
        omega
      · rename_i hfits
        have hsize' : (s.entries.insertMany (d.batch ignore rel (d.items rel))).size ≤ maxEntries := by omega
        exact ih hround hsize' (by simp only [List.length_append, List.length_singleton]; omega)

end Walk

/-! ## What the snapshot says -/

/-- What is asked of a snapshot for the mount and of the directories it calls complete. -/
structure ExactMeta (d : DiskTree) (sha : List UInt8 → String) (ignore : List String) (maxEntries : Nat)
    (snap : Snapshot) (completeDirs : List String) : Prop where
  bounded : snap.size ≤ maxEntries
  dirs : ∀ dir ∈ completeDirs, dir = "" ∨ d.tree.isDir dir = true
  children : ∀ dir ∈ completeDirs, ∀ p : String, (splitParent p).1 = dir →
    (snap[p]? ≠ none ↔ shouldIgnoreRel ignore p = false ∧ ∃ n, d.tree.node p = some n ∧ n ≠ .other)
  parents : ∀ p : String, snap[p]? ≠ none → (splitParent p).1 ∈ completeDirs
  whole : (d.snapshot sha ignore).size ≤ maxEntries →
    ∀ p : String, snap[p]?.map attrs = (d.snapshot sha ignore)[p]?.map attrs

theorem fastMeta_ne_none {d : DiskTree} {p : String} : d.fastMeta p ≠ none ↔ ∃ n, d.tree.node p = some n ∧ n ≠ .other := by
  unfold fastMeta
  cases d.tree.node p with
  | none => simp
  | some n => cases n <;> simp [entryMetaFast, entryMeta]

theorem snapshotMeta_exact (d : DiskTree) (sha : List UInt8 → String) (ignore : List String) (maxEntries : Nat)
    (root : AbsPath) : ∃ snap completeDirs,
      d.snapshotMeta ignore maxEntries root = some (.ok (snap, completeDirs)) ∧
        ExactMeta d sha ignore maxEntries snap completeDirs := by
  obtain ⟨s, hs, h, hsize, hqueue⟩ := metaLoop_ends sha root (d.tree.paths.length + 2)
    (walkInv_start d ignore) (by simp : _ ≤ maxEntries) (by simp)
  refine ⟨s.entries, s.completeDirs, by rw [snapshotMeta, hs]; rfl, hsize, ?_, ?_, ?_, ?_⟩
  · exact fun dir hdir => h.isDir (List.mem_append_left _ hdir)
  · rintro dir hdir p rfl
    rw [← fastMeta_ne_none]
    constructor
    · intro hne
      obtain ⟨m, hm⟩ := Option.ne_none_iff_exists'.1 hne
      exact ⟨h.notIgnored hm, by simp [((h.found p m).1 hm).2.2]⟩
    · rintro ⟨hign, hne⟩
      obtain ⟨m, hm⟩ := Option.ne_none_iff_exists'.1 hne
      simp [(h.found p m).2 ⟨hdir, (notIgnored_iff.1 hign).2, hm⟩]
  · intro p hne
    obtain ⟨m, hm⟩ := Option.ne_none_iff_exists'.1 hne
    exact ((h.found p m).1 hm).1
  · intro hfits p
    cases hm : (d.snapshot sha ignore)[p]? with
    | some m => exact h.whole (hqueue hfits) hm
    | none =>
      cases hm' : s.entries[p]? with
      | none => rfl
      | some m =>
        have := h.subset sha hm'
        rw [hm] at this
        cases this

end DiskTree

end Mobfs
