import Mobfs.Tree
/-!
# Carrying out a plan

What `apply_plan` and `push_plan` do to the two trees, item by item: uploads,
downloads, `remove_local` and the daemon's `Remove`. Each returns the tree after
it and whether it succeeded.

A file is written next to its path and renamed onto it, and a link is created
after what was there is unlinked; both put a new entry in place of anything but a
directory (`install`). The temporary file is not modelled. What an interrupted
transfer leaves behind counts as an edit of that side.
-/

namespace Mobfs

open Std Lib

/-- What the system gives a new entry. -/
structure Stamp where
  mtime : Int
  fileMode : Nat
  dirMode : Nat
  linkMode : Nat

/-- The local and the remote tree. -/
structure Sides where
  loc : Tree
  rem : Tree

section Calls
variable (links : Links)

/-- The entry at a path, itself not followed: `symlink_metadata`. -/
def Links.lookup (t : Tree) (p : String) : Option Node := (links.locate t p).bind t.node

/-- One directory of `create_dir_all`. -/
def createDir (mode : Nat) (t : Tree) (d : String) : Option Tree :=
  match links.locate t d with
  | none => none
  | some q =>
    match t.node q with
    | none => t.place q (.dir mode)
    | some (.dir _) => some t
    | some (.symlink _ _ _) => if links.leadsToDir t q then some t else none
    | some _ => none

/-- `create_dir_all`, given the directories from the outermost on. -/
def createDirs (mode : Nat) (t : Tree) (dirs : List String) : Option Tree := dirs.foldlM (createDir links mode) t

/-- Creates the directories of a path and puts an entry there. -/
def install (stamp : Stamp) (t : Tree) (rel : String) (n : Node) : Tree × Bool :=
  match createDirs links stamp.dirMode t (ancestors rel) with
  | none => (t, false)
  | some t1 =>
    match (links.locate t1 rel).bind fun q => t1.place q n with
    | none => (t1, false)
    | some t2 => (t2, true)

/-- `set_mode`: mode zero leaves the mode the file was created with. -/
def setMode (mode old : Nat) : Nat := if mode ≠ 0 then mode else old

/-- `set_mtime`: only a positive time is set. -/
def setMtime (modified old : Int) : Int := if modified > 0 then modified else old

/-- `upload_file`. Neither `WriteFileFinish` nor `Symlink` carries a time. -/
def uploadFile (stamp : Stamp) (loc rem : Tree) (rel : String) : Tree × Bool :=
  match links.lookup loc rel with
  | some (.symlink target _ _) => install links stamp rem rel (.symlink target stamp.linkMode stamp.mtime)
  | some (.file data mode _) =>
    install links stamp rem rel (.file data (setMode mode stamp.fileMode) stamp.mtime)
  | _ => (rem, false)

/-- What reading a remote file gives. -/
def readFile (t : Tree) (rel : String) : Option (List UInt8) :=
  match links.lookup t rel with
  | some (.file data _ _) => some data
  | some (.symlink _ _ _) => links.read t rel
  | _ => none

/-- `download_file`: a link is made from the snapshot alone; a file is read now
and given the mode and time of the snapshot. -/
def downloadFile (stamp : Stamp) (rem loc : Tree) (rel : String) (m : EntryMeta) : Tree × Bool :=
  let parents := (createDirs links stamp.dirMode loc (ancestors rel)).getD loc
  if m.kind = .symlink then
    match m.linkTarget with
    | some target => install links stamp loc rel (.symlink target stamp.linkMode stamp.mtime)
    | none => (parents, false)
  else
    match readFile links rem rel with
    | some data =>
      install links stamp loc rel
        (.file data (setMode m.mode stamp.fileMode) (setMtime m.modified stamp.mtime))
    | none => (parents, false)

/-- `remove_local`: `is_dir` and `exists` follow a link at the path, so one that
leads nowhere stays. -/
def removeLocal (t : Tree) (rel : String) : Tree :=
  match links.locate t rel with
  | none => t
  | some q =>
    match t.node q with
    | none => t
    | some (.symlink _ _ _) => if links.leadsSomewhere t q then t.drop q else t
    | some _ => t.drop q

/-- The daemon's `Remove`. -/
def removeRemote (t : Tree) (rel : String) (dir : Bool) : Tree × Bool :=
  match links.locate t rel with
  | none => (t, true)
  | some q =>
    match t.node q with
    | some (.dir _) => if dir then (t.drop q, true) else (t, false)
    | some _ => (t.drop q, true)
    | none => (t, true)

/-- One item of `apply_plan`. -/
def applyItem (remote : Snapshot) (stamp : Stamp) (s : Sides) : PlanItem → Sides × Bool
  | .put rel =>
    let r := uploadFile links stamp s.loc s.rem rel
    (⟨s.loc, r.1⟩, r.2)
  | .get rel =>
    match remote[rel]? with
    | some m =>
      let r := downloadFile links stamp s.rem s.loc rel m
      (⟨r.1, s.rem⟩, r.2)
    | none => (s, true)
  | .deleteLocal rel => (⟨removeLocal links s.loc rel, s.rem⟩, true)
  | .deleteRemote rel =>
    match remote[rel]? with
    | some m =>
      let r := removeRemote links s.rem rel (m.kind = .dir)
      (⟨s.loc, r.1⟩, r.2)
    | none => (s, true)
  | .conflict _ => (s, true)

/-- One item of `push_plan`. -/
def pushItem (remote : Snapshot) (stamp : Stamp) (s : Sides) : PlanItem → Sides × Bool
  | .put rel => applyItem links remote stamp s (.put rel)
  | .deleteRemote rel => applyItem links remote stamp s (.deleteRemote rel)
  | _ => (s, true)

/-- `ensure_local_dirs` and `ensure_remote_dirs`, given the directories of a
snapshot. -/
def ensureDirs (mode : String → Nat) : Tree → List String → Tree × Bool
  | t, [] => (t, true)
  | t, d :: ds =>
    match createDirs links (mode d) t (ancestors d ++ [d]) with
    | some t' => ensureDirs mode t' ds
    | none => (t, false)

end Calls

/-- The directories of a snapshot, in its order. -/
def Snapshot.dirs (snap : Snapshot) : List String := (snap.toList.filter fun x => x.2.kind = .dir).map (·.1)

/-- What goes wrong with an item: nothing, its failure, or the loss of the answer
after it was done. -/
inductive Fault where
  | none
  | before
  | after
  deriving DecidableEq

def Fault.hit (f : Fault) (s : Sides) (r : Sides × Bool) : Sides × Bool :=
  match f with
  | .none => r
  | .before => (s, false)
  | .after => (r.1, false)

/-- The stamp and the fault each item meets. -/
structure Env where
  stamp : String → Stamp
  fault : String → Fault

/-- The items in order, up to the first that fails. -/
def runItems (item : Stamp → Sides → PlanItem → Sides × Bool) (env : Env) :
    Sides → List PlanItem → Sides × Bool
  | s, [] => (s, true)
  | s, i :: is =>
    match (env.fault i.path).hit s (item (env.stamp i.path) s i) with
    | (s', true) => runItems item env s' is
    | (s', false) => (s', false)

/-! ## Directories -/

/-- `t'` is `t` with some of the missing directories of `ds` created. -/
def AddsDirs (t t' : Tree) (ds : String → Prop) : Prop :=
  ∀ q, t'.node q = t.node q ∨ (ds q ∧ t.node q = none ∧ t'.isDir q = true)

theorem AddsDirs.refl (t : Tree) (ds : String → Prop) : AddsDirs t t ds := fun _ => .inl rfl

theorem AddsDirs.isLink {t t' : Tree} {ds : String → Prop} (h : AddsDirs t t' ds) (q : String) :
    t'.isLink q = t.isLink q := by
  rcases h q with e | ⟨-, hn, hd⟩
  · simp only [Tree.isLink, e]
  · rw [Tree.isLink_of_isDir hd, Tree.isLink, hn]
    rfl

theorem AddsDirs.isDir {t t' : Tree} {ds : String → Prop} (h : AddsDirs t t' ds) {q : String}
    (hq : t.isDir q = true) : t'.isDir q = true := by
  rcases h q with e | ⟨-, -, hd⟩
  · simpa only [Tree.isDir, e] using hq
  · exact hd

theorem AddsDirs.trans {t t' t'' : Tree} {ds : String → Prop} (h : AddsDirs t t' ds)
    (h' : AddsDirs t' t'' ds) : AddsDirs t t'' ds := by
  intro q
  rcases h q with e | ⟨hd, hn, hdir⟩
  · rw [← e]
    exact h' q
  · exact .inr ⟨hd, hn, h'.isDir hdir⟩

theorem AddsDirs.mono {t t' : Tree} {ds ds' : String → Prop} (h : AddsDirs t t' ds)
    (hds : ∀ q, ds q → ds' q) : AddsDirs t t' ds' :=
  fun q => (h q).imp_right fun ⟨hd, hr⟩ => ⟨hds q hd, hr⟩

variable {links : Links}

/-- A directory is made where there is nothing. One that is there stays, and so does a
link that leads to one. -/
theorem createDir_cases {mode : Nat} {t t' : Tree} {d : String} (h : createDir links mode t d = some t') :
    ∃ q, links.locate t d = some q ∧ ((t.node q = none ∧ t.place q (.dir mode) = some t') ∨
      (t' = t ∧ ∃ n, t.node q = some n ∧ (n.isDir = true ∨ (n.isLink = true ∧ links.leadsToDir t q = true)))) := by
  unfold createDir at h
  split at h
  · cases h
  · rename_i q hq
    refine ⟨q, hq, ?_⟩
    split at h
    · rename_i hn
      exact .inl ⟨hn, h⟩
    · rename_i m hn
      cases h
      exact .inr ⟨rfl, _, hn, .inl rfl⟩
    · rename_i hn
      split at h
      · rename_i hl
        cases h
        exact .inr ⟨rfl, _, hn, .inr ⟨rfl, hl⟩⟩
      · cases h
    · cases h

theorem createDir_adds {mode : Nat} {t t' : Tree} {d : String} (h : createDir links mode t d = some t') :
    AddsDirs t t' fun _ => True := by
  obtain ⟨p, -, ⟨hn, hp⟩ | ⟨rfl, -⟩⟩ := createDir_cases h
  · obtain ⟨-, -, hnode⟩ := Tree.place_eq_some hp
    intro q
    by_cases hq : q = p
    · subst hq
      exact .inr ⟨trivial, hn, by simp [Tree.isDir, hnode, Node.isDir]⟩
    · exact .inl (by rw [hnode, if_neg hq])
  · exact AddsDirs.refl _ _

theorem createDirs_adds {mode : Nat} {t t' : Tree} {ds : List String} (h : createDirs links mode t ds = some t') :
    AddsDirs t t' fun _ => True := by
  induction ds generalizing t with
  | nil =>
    cases h
    exact AddsDirs.refl _ _
  | cons d ds ih =>
    simp only [createDirs, List.foldlM_cons, Option.bind_eq_bind, Option.bind_eq_some_iff] at h
    obtain ⟨t1, h1, h2⟩ := h
    exact (createDir_adds h1).trans (ih h2)

theorem ensureDirs_adds {mode : String → Nat} {t : Tree} {ds : List String} :
    AddsDirs t (ensureDirs links mode t ds).1 fun _ => True := by
  induction ds generalizing t with
  | nil => exact AddsDirs.refl _ _
  | cons d ds ih =>
    unfold ensureDirs
    cases h : createDirs links (mode d) t (ancestors d ++ [d]) with
    | none => exact AddsDirs.refl _ _
    | some t1 => exact (createDirs_adds h).trans ih

theorem createDir_spec {mode : Nat} {t t' : Tree} {d : String} (hp : t.Plain d)
    (h : createDir links mode t d = some t') : AddsDirs t t' (· = d) ∧ t'.node d ≠ none := by
  obtain ⟨p, hl, hcases⟩ := createDir_cases h
  obtain rfl : d = p := Option.some.inj ((links.locate_plain t d hp).symm.trans hl)
  rcases hcases with ⟨hn, hplace⟩ | ⟨rfl, n, hn, -⟩
  · obtain ⟨-, -, hnode⟩ := Tree.place_eq_some hplace
    refine ⟨?_, by simp [hnode]⟩
    intro q
    by_cases hq : q = d
    · subst hq
      exact .inr ⟨rfl, hn, by simp [Tree.isDir, hnode, Node.isDir]⟩
    · exact .inl (by rw [hnode, if_neg hq])
  · exact ⟨AddsDirs.refl _ _, by simp [hn]⟩

theorem AddsDirs.plain {t t' : Tree} {ds : String → Prop} (h : AddsDirs t t' ds) {p : String} (hp : t.Plain p) :
    t'.Plain p :=
  fun d hd => by rw [h.isLink, hp d hd]

theorem AddsDirs.node_ne_none {t t' : Tree} {ds : String → Prop} (h : AddsDirs t t' ds) {q : String}
    (hq : t.node q ≠ none) : t'.node q ≠ none := by
  rcases h q with e | ⟨-, hn, -⟩
  · rwa [e]
  · exact absurd hn hq

theorem createDirs_spec {mode : Nat} {t t' : Tree} {ds : List String} (hds : ∀ d ∈ ds, t.Plain d)
    (h : createDirs links mode t ds = some t') : AddsDirs t t' (· ∈ ds) ∧ ∀ d ∈ ds, t'.node d ≠ none := by
  induction ds generalizing t with
  | nil =>
    cases h
    exact ⟨AddsDirs.refl _ _, by simp⟩
  | cons d ds ih =>
    simp only [createDirs, List.foldlM_cons, Option.bind_eq_bind, Option.bind_eq_some_iff] at h
    obtain ⟨t1, h1, h2⟩ := h
    obtain ⟨ha, hd⟩ := createDir_spec (hds d List.mem_cons_self) h1
    -- The directory just made is no link, so the others are found as before.
    obtain ⟨ha', hdirs⟩ := ih (fun d' hd' => ha.plain (hds d' (List.mem_cons_of_mem _ hd'))) h2
    refine ⟨(ha.mono ?_).trans (ha'.mono ?_), ?_⟩
    · rintro q rfl
      exact List.mem_cons_self
    · intro q hq
      exact List.mem_cons_of_mem _ hq
    · intro e he
      rcases List.mem_cons.1 he with rfl | he
      · exact ha'.node_ne_none hd
      · exact hdirs e he

theorem createDirs_of_isDir {mode : Nat} {t : Tree} {ds : List String} (hds : ∀ d ∈ ds, t.isDir d = true) :
    createDirs links mode t ds = some t := by
  induction ds with
  | nil => rfl
  | cons d ds ih =>
    have hd := hds d List.mem_cons_self
    have hp : t.Plain d := Tree.plain_of_node (by intro hn; simp [Tree.isDir, hn] at hd)
    have hone : createDir links mode t d = some t := by
      unfold createDir
      rw [links.locate_plain t d hp]
      simp only [Tree.isDir, Option.any_eq_true] at hd
      obtain ⟨n, hn, hdir⟩ := hd
      cases n with
      | dir m => simp only [hn]
      | _ => cases hdir
    simp only [createDirs, List.foldlM_cons, hone, Option.bind_eq_bind, Option.bind_some]
    exact ih fun e he => hds e (List.mem_cons_of_mem _ he)

theorem createDir_isDir {mode : Nat} {t t' : Tree} {d : String} (hp : t.Plain d) (hl : t.isLink d = false)
    (h : createDir links mode t d = some t') : t'.isDir d = true := by
  obtain ⟨q, hq, hcases⟩ := createDir_cases h
  obtain rfl : d = q := Option.some.inj ((links.locate_plain t d hp).symm.trans hq)
  rcases hcases with ⟨-, hplace⟩ | ⟨rfl, n, hn, hd | ⟨hlink, -⟩⟩
  · rw [Tree.isDir, (Tree.place_eq_some hplace).2.2, if_pos rfl]
    rfl
  · exact Tree.isDir_iff.2 ⟨n, hn, hd⟩
  · rw [Tree.isLink, hn] at hl
    rw [show Option.any Node.isLink (some n) = n.isLink from rfl, hlink] at hl
    cases hl

theorem createDirs_isDir {mode : Nat} {t t' : Tree} {ds : List String} (hp : ∀ d ∈ ds, t.Plain d)
    (hl : ∀ d ∈ ds, t.isLink d = false) (h : createDirs links mode t ds = some t') : ∀ d ∈ ds, t'.isDir d = true := by
  induction ds generalizing t with
  | nil => simp
  | cons d ds ih =>
    simp only [createDirs, List.foldlM_cons, Option.bind_eq_bind, Option.bind_eq_some_iff] at h
    obtain ⟨t1, h1, h2⟩ := h
    have ha := createDir_adds h1
    intro e he
    rcases List.mem_cons.1 he with rfl | he
    · have hd := createDir_isDir (hp e List.mem_cons_self) (hl e List.mem_cons_self) h1
      exact (createDirs_adds h2).isDir hd
    · refine ih (fun e he => ha.plain (hp e (List.mem_cons_of_mem _ he))) ?_ h2 e he
      intro e he
      rw [ha.isLink, hl e (List.mem_cons_of_mem _ he)]

/-- With no link on the way, a directory is made where there is nothing, if what it
lies in is there. -/
theorem createDir_ok (links : Links) (mode : Nat) {t : Tree} {d : String}
    (hd : ∀ e, below e d = true → t.isDir e = true) (hn : t.node d = none ∨ t.isDir d = true) : ∃ t', createDir links mode t d = some t' := by
  unfold createDir
  rw [links.locate_plain t d fun e he => Tree.isLink_of_isDir (hd e he)]
  rcases hn with hn | hn
  · simp only [hn]
    exact Tree.place_isSome _ hd (by rw [Tree.isDir, hn]; rfl)
  · obtain ⟨n, hn, hdir⟩ := Tree.isDir_iff.1 hn
    cases n with
    | dir m => exact ⟨t, by simp only [hn]⟩
    | _ => cases hdir

theorem createDirs_ok (links : Links) (mode : Nat) {t : Tree} {ds : List String}
    (hord : ds.Pairwise fun a b => below a b = true) (hin : ∀ d ∈ ds, ∀ e, below e d = true → t.isDir e = true ∨ e ∈ ds)
    (hn : ∀ d ∈ ds, t.node d = none ∨ t.isDir d = true) : ∃ t', createDirs links mode t ds = some t' := by
  induction ds generalizing t with
  | nil => exact ⟨t, rfl⟩
  | cons d ds ih =>
    obtain ⟨hfirst, hord⟩ := List.pairwise_cons.1 hord
    -- What the first one lies in is not further down the list.
    have hd : ∀ e, below e d = true → t.isDir e = true := by
      intro e he
      rcases hin d List.mem_cons_self e he with h | h
      · exact h
      · rcases List.mem_cons.1 h with rfl | h
        · rw [below_irrefl] at he
          cases he
        · have := below_trans he (hfirst e h)
          rw [below_irrefl] at this
          cases this
    have hnd := hn d List.mem_cons_self
    obtain ⟨t1, h1⟩ := createDir_ok links mode hd hnd
    have hplain : t.Plain d := fun e he => Tree.isLink_of_isDir (hd e he)
    have hnl : t.isLink d = false := by
      rcases hnd with h | h
      · rw [Tree.isLink, h]
        rfl
      · exact Tree.isLink_of_isDir h
    have ha := createDir_adds h1
    have hd1 := createDir_isDir hplain hnl h1
    have hin1 : ∀ q ∈ ds, ∀ e, below e q = true → t1.isDir e = true ∨ e ∈ ds := by
      intro q hq e he
      rcases hin q (List.mem_cons_of_mem _ hq) e he with h | h
      · exact .inl (ha.isDir h)
      · rcases List.mem_cons.1 h with rfl | h
        · exact .inl hd1
        · exact .inr h
    have hn1 : ∀ q ∈ ds, t1.node q = none ∨ t1.isDir q = true := by
      intro q hq
      rcases ha q with e | ⟨-, -, h⟩
      · rw [Tree.isDir, e]
        exact hn q (List.mem_cons_of_mem _ hq)
      · exact .inr h
    obtain ⟨t', ht'⟩ := ih hord hin1 hn1
    refine ⟨t', ?_⟩
    simp only [createDirs, List.foldlM_cons, h1, Option.bind_eq_bind, Option.bind_some]
    exact ht'

/-! ## Entries -/

/-- `t'` is `t` with some of the missing directories of `p` created and, where
`ok`, the entry `n` put at `p`. -/
structure Installs (t t' : Tree) (p : String) (n : Node) (ok : Bool) : Prop where
  node : ∀ q, t'.node q = t.node q ∨ (below q p = true ∧ t.node q = none ∧ t'.isDir q = true) ∨
    (q = p ∧ ok = true ∧ t.isDir p = false)
  done : ok = true → t'.node p = some n

theorem plain_ancestors {t : Tree} {p : String} (h : t.Plain p) : ∀ d ∈ ancestors p, t.Plain d :=
  fun _ hd e he => h e (below_trans he (mem_ancestors_iff.1 hd))

theorem AddsDirs.installs {t t' : Tree} {p : String} {n : Node} (h : AddsDirs t t' (· ∈ ancestors p)) :
    Installs t t' p n false := by
  refine ⟨?_, by simp⟩
  intro q
  rcases h q with e | ⟨hq, hn, hd⟩
  · exact .inl e
  · exact .inr (.inl ⟨mem_ancestors_iff.1 hq, hn, hd⟩)

theorem install_spec {stamp : Stamp} {t : Tree} {p : String} {n : Node} (hp : t.Plain p) :
    Installs t (install links stamp t p n).1 p n (install links stamp t p n).2 := by
  unfold install
  cases hc : createDirs links stamp.dirMode t (ancestors p) with
  | none => exact (AddsDirs.refl t _).installs
  | some t1 =>
    obtain ⟨ha, -⟩ := createDirs_spec (plain_ancestors hp) hc
    simp only [links.locate_plain t1 p (ha.plain hp), Option.bind_some]
    cases hpl : t1.place p n with
    | none => exact ha.installs
    | some t2 =>
      obtain ⟨-, hnd, hnode⟩ := Tree.place_eq_some hpl
      refine ⟨?_, fun _ => by simp [hnode]⟩
      intro q
      by_cases hq : q = p
      · subst hq
        -- `q` is not among its own directories, so it was no directory before.
        refine .inr (.inr ⟨rfl, rfl, ?_⟩)
        rcases ha q with e | ⟨hm, -, -⟩
        · simpa only [Tree.isDir, e] using hnd
        · have := mem_ancestors_iff.1 hm
          rw [below_irrefl] at this
          cases this
      · rw [hnode, if_neg hq]
        rcases ha q with e | ⟨hm, hn, hd⟩
        · exact .inl e
        · refine .inr (.inl ⟨mem_ancestors_iff.1 hm, hn, ?_⟩)
          simpa only [Tree.isDir, hnode, if_neg hq] using hd

/-- Where the directories exist and the path is none, the entry is put there and
nothing else changes. -/
theorem install_of_isDir (links : Links) (stamp : Stamp) {t : Tree} {p : String} (n : Node)
    (hd : ∀ d, below d p = true → t.isDir d = true) (hp : t.isDir p = false) :
    (install links stamp t p n).2 = true ∧
      ∀ q, (install links stamp t p n).1.node q = if q = p then some n else t.node q := by
  have hplain : t.Plain p := fun d hb => Tree.isLink_of_isDir (hd d hb)
  have hc : createDirs links stamp.dirMode t (ancestors p) = some t :=
    createDirs_of_isDir fun d hm => hd d (mem_ancestors_iff.1 hm)
  obtain ⟨t', ht'⟩ := Tree.place_isSome n hd hp
  unfold install
  simp only [hc, links.locate_plain t p hplain, Option.bind_some, ht', true_and]
  exact (Tree.place_eq_some ht').2.2

theorem lookup_plain {t : Tree} {p : String} (h : t.Plain p) : links.lookup t p = t.node p := by
  rw [Links.lookup, links.locate_plain t p h]
  rfl

theorem lookup_of_node {t : Tree} {p : String} {n : Node} (h : t.node p = some n) :
    links.lookup t p = some n := by
  rw [lookup_plain (Tree.plain_of_node (by simp [h])), h]

/-! ## Removals -/

theorem removeRemote_spec {t : Tree} {p : String} {dir : Bool} (hp : t.Plain p) :
    removeRemote links t p dir =
      if t.node p = none then (t, true)
      else if t.isDir p = true ∧ dir = false then (t, false)
      else (t.drop p, true) := by
  unfold removeRemote
  rw [links.locate_plain t p hp]
  cases hn : t.node p with
  | none => simp [hn]
  | some n => cases n <;> cases dir <;> simp [Tree.isDir, hn, Node.isDir]

theorem removeLocal_spec {t : Tree} {p : String} (hp : t.Plain p) :
    removeLocal links t p =
      if t.node p = none ∨ (t.isLink p = true ∧ links.leadsSomewhere t p = false) then t else t.drop p := by
  unfold removeLocal
  rw [links.locate_plain t p hp]
  cases hn : t.node p with
  | none => simp [hn]
  | some n =>
    cases n with
    | symlink target m mt => cases hs : links.leadsSomewhere t p <;> simp [Tree.isLink, hn, Node.isLink, hs]
    | _ => simp [Tree.isLink, hn, Node.isLink]

/-! ## One item -/

section Item
variable {remote : Snapshot} {stamp : Stamp} {s : Sides}

theorem parents_installs {t : Tree} {p : String} {n : Node} (hp : t.Plain p) :
    Installs t ((createDirs links stamp.dirMode t (ancestors p)).getD t) p n false := by
  cases hc : createDirs links stamp.dirMode t (ancestors p) with
  | none => exact (AddsDirs.refl _ _).installs
  | some t1 => exact (createDirs_spec (plain_ancestors hp) hc).1.installs

theorem downloadFile_installs {p : String} {m : EntryMeta} {rem loc : Tree} (hp : loc.Plain p) :
    ∃ n, Installs loc (downloadFile links stamp rem loc p m).1 p n (downloadFile links stamp rem loc p m).2 := by
  unfold downloadFile
  split
  · split
    · exact ⟨_, install_spec hp⟩
    · exact ⟨.other, parents_installs hp⟩
  · split
    · exact ⟨_, install_spec hp⟩
    · exact ⟨.other, parents_installs hp⟩

variable (links remote stamp)

theorem applyItem_put_rem {p : String} (hp : s.rem.Plain p) :
    ∃ n, Installs s.rem (applyItem links remote stamp s (.put p)).1.rem p n
      (applyItem links remote stamp s (.put p)).2 := by
  simp only [applyItem, uploadFile]
  split
  · exact ⟨_, install_spec hp⟩
  · exact ⟨_, install_spec hp⟩
  · exact ⟨.other, (AddsDirs.refl _ _).installs⟩

/-- An upload changes the remote only if there is something to upload. -/
theorem applyItem_put_lookup {p : String} :
    (applyItem links remote stamp s (.put p)).1.rem = s.rem ∨ links.lookup s.loc p ≠ none := by
  cases hn : links.lookup s.loc p with
  | some n => exact .inr (by simp)
  | none => simp [applyItem, uploadFile, hn]

theorem applyItem_get_loc {p : String} (hp : s.loc.Plain p) :
    (remote[p]? = none ∧ (applyItem links remote stamp s (.get p)).1.loc = s.loc) ∨
    ∃ n, Installs s.loc (applyItem links remote stamp s (.get p)).1.loc p n
      (applyItem links remote stamp s (.get p)).2 := by
  cases hm : remote[p]? with
  | some m =>
    simp only [applyItem, hm]
    exact .inr (downloadFile_installs hp)
  | none => simp [applyItem, hm]

@[simp] theorem applyItem_get_rem {p : String} : (applyItem links remote stamp s (.get p)).1.rem = s.rem := by
  cases hm : remote[p]? <;> simp [applyItem, hm]

@[simp] theorem applyItem_deleteRemote_loc {p : String} :
    (applyItem links remote stamp s (.deleteRemote p)).1.loc = s.loc := by
  cases hm : remote[p]? <;> simp [applyItem, hm]

theorem applyItem_deleteRemote_rem {p : String} (hp : s.rem.Plain p) :
    ((applyItem links remote stamp s (.deleteRemote p)).1.rem = s.rem ∧
      (remote[p]? = none ∨ s.rem.node p = none ∨ (applyItem links remote stamp s (.deleteRemote p)).2 = false)) ∨
    (applyItem links remote stamp s (.deleteRemote p)).1.rem = s.rem.drop p := by
  cases hm : remote[p]? with
  | none => simp [applyItem, hm]
  | some m =>
    simp only [applyItem, hm, removeRemote_spec hp]
    by_cases hn : s.rem.node p = none
    · simp [hn]
    · by_cases hd : s.rem.isDir p = true ∧ decide (m.kind = .dir) = false
      · rw [if_neg hn, if_pos hd]
        exact .inl ⟨rfl, .inr (.inr rfl)⟩
      · rw [if_neg hn, if_neg hd]
        exact .inr rfl

/-- A removal, wherever it leads, only takes away. -/
theorem applyItem_deleteRemote_shrinks (p q : String) :
    (applyItem links remote stamp s (.deleteRemote p)).1.rem.node q = s.rem.node q ∨
    (applyItem links remote stamp s (.deleteRemote p)).1.rem.node q = none := by
  have hdrop : ∀ r, (s.rem.drop r).node q = s.rem.node q ∨ (s.rem.drop r).node q = none := by
    intro r
    rw [Tree.node_drop]
    split
    · exact .inr rfl
    · exact .inl rfl
  have hrm : ∀ dir, (removeRemote links s.rem p dir).1.node q = s.rem.node q ∨
      (removeRemote links s.rem p dir).1.node q = none := by
    intro dir
    unfold removeRemote
    split
    · exact .inl rfl
    · split
      · split
        · exact hdrop _
        · exact .inl rfl
      · exact hdrop _
      · exact .inl rfl
  cases hm : remote[p]? with
  | none => simp [applyItem, hm]
  | some m => simpa [applyItem, hm] using hrm _

theorem applyItem_deleteLocal_loc {p : String} (hp : s.loc.Plain p) :
    ((applyItem links remote stamp s (.deleteLocal p)).1.loc = s.loc ∧ s.loc.isDir p = false) ∨
    (applyItem links remote stamp s (.deleteLocal p)).1.loc = s.loc.drop p := by
  simp only [applyItem, removeLocal_spec hp]
  split
  · rename_i h
    refine .inl ⟨rfl, ?_⟩
    rcases h with hn | ⟨hl, -⟩
    · rw [Tree.isDir, hn]
      rfl
    · by_contra hd
      rw [Tree.isLink_of_isDir (by simpa using hd)] at hl
      cases hl
  · exact .inr rfl

end Item

end Mobfs
