import Mobfs.Daemon.Requests
/-!
# Announcements of changes to one entry

A handler records the path of its request. Whether this tells of what the request has
done to the tree is settled here for the requests that change a single entry, after the
directories on the way to it are made: nothing may have been made, and the entry must be
that of the path, or stay as it was.
-/

namespace Mobfs

open Lib Std
open WriteBack (matching)

/-! ## Announcements -/

/-- The events tell a client that applies them of a change at the path. -/
def Announced (events : List ChangeEvent) (q : String) : Prop :=
  ∃ e ∈ events, q = e.path ∨ (e.kind = .replaced ∧ (e.path = "" ∨ below e.path q = true))

/-- What was created, removed or changed is announced. -/
def AllAnnounced (t t' : Tree) (events : List ChangeEvent) : Prop := ∀ q, t'.node q ≠ t.node q → Announced events q

/-- No directory on the way to the path is missing. -/
def NoneMissing (w : Walks) (t : Tree) (p : String) : Prop := ∀ d ∈ ancestors p, w.lookup t d ≠ none

/-- A write leaves the file as it is, its time included. -/
def Unedited (stamp : Stamp) (f : Bytes → Bytes) (t : Tree) (q : String) : Prop :=
  ∃ data mode, t.node q = some (.file data mode stamp.mtime) ∧ f data = data

/-- A file to which data is written stays as it is. -/
def Unwritten (stamp : Stamp) (offset : Nat) (data : Bytes) (t : Tree) (q : String) : Prop :=
  t.node q ≠ none ∧ (data = [] ∨ Unedited stamp (writeAt 0 · offset data) t q)

/-- `set_mode` and `set_mtime` on an entry. -/
def Node.edited (w : Walks) (mode : Option Nat) (modified : Option Int) (n : Node) : Node :=
  let n := if mode.getD 0 = 0 then n else n.chmod (w.modeFor (mode.getD 0))
  if 0 < modified.getD 0 then n.utime (w.keptTime (modified.getD 0)) else n

/-! ## Where changes are -/

section Facts
variable {w : Walks} {t t' t1 : Tree} {p q : String}

theorem announced_self {kind : ChangeKind} {events : List ChangeEvent} (h : ⟨p, kind⟩ ∈ events) : Announced events p :=
  ⟨_, h, .inl rfl⟩

theorem matching_of_announced {kind : ChangeKind} (hp : p ≠ "") (h : Announced [⟨p, kind⟩] q) : matching p q = true := by
  obtain ⟨e, he, hq⟩ := h
  rw [List.mem_singleton] at he
  subst he
  rcases hq with rfl | ⟨-, hroot | hb⟩
  · exact matching_self _
  · exact absurd hroot hp
  · exact matching_iff.2 (.inr hb)

/-- An entry lies in directories, none of them a link. -/
theorem plain_of_parents (h : ∀ d, below d p = true → t.isDir d = true) : t.Plain p :=
  fun d hd => Tree.isLink_of_isDir (h d hd)

/-- Where a path leads is not below the path. -/
theorem eq_of_matching (hdirs : ∀ d, below d q = true → t.isDir d = true)
    (hq : w.locate t p = some q ∨ w.follow t p = some q) (hm : matching p q = true) : q = p := by
  rcases matching_iff.1 hm with h | hb
  · exact h
  · -- The path is a directory, and leads to itself.
    have hdir : t.isDir p = true := hdirs p hb
    have hplain : t.Plain p := plain_of_parents fun d hd => hdirs d (below_trans hd hb)
    have hloc := w.locate_plain t p hplain
    rcases hq with hq | hq
    · exact Option.some.inj (hq.symm.trans hloc)
    · exact Option.some.inj (hq.symm.trans (w.follow_eq t p p hloc (Tree.isLink_of_isDir hdir)))

theorem parents_of_node (h : t.node q ≠ none) : ∀ d, below d q = true → t.isDir d = true :=
  fun _ hd => Tree.isDir_of_below hd h

/-! ## Directories that are made -/

theorem createDir_of_lookup {mode : Nat} {d : String} (hd : w.lookup t d ≠ none)
    (h : createDir w.toLinks mode t d = some t') : t' = t := by
  obtain ⟨q, hq, ⟨hn, -⟩ | ⟨ht, -⟩⟩ := createDir_cases h
  · exact absurd (by rw [Links.lookup, hq, Option.bind_some, hn]) hd
  · exact ht

theorem createDirs_cons {mode : Nat} {d : String} {ds : List String} :
    createDirs w.toLinks mode t (d :: ds) = some t' ↔
      ∃ t1, createDir w.toLinks mode t d = some t1 ∧ createDirs w.toLinks mode t1 ds = some t' := by
  simp only [createDirs, List.foldlM_cons, Option.bind_eq_bind, Option.bind_eq_some_iff]

/-- Where nothing is missing, nothing is made. -/
theorem createDirs_of_lookup {mode : Nat} {ds : List String} (hds : ∀ d ∈ ds, w.lookup t d ≠ none)
    (h : createDirs w.toLinks mode t ds = some t') : t' = t := by
  induction ds with
  | nil =>
    cases h
    rfl
  | cons d ds ih =>
    obtain ⟨t1, h1, h2⟩ := createDirs_cons.1 h
    obtain rfl := createDir_of_lookup (hds d List.mem_cons_self) h1
    exact ih (fun e he => hds e (List.mem_cons_of_mem _ he)) h2

theorem createDir_of_missing {mode : Nat} {d : String} (hd : w.lookup t d = none)
    (h : createDir w.toLinks mode t d = some t') : ∃ q, t.node q = none ∧ t'.isDir q = true := by
  obtain ⟨q, hq, ⟨hn, hplace⟩ | ⟨-, n, hn, -⟩⟩ := createDir_cases h
  · obtain ⟨-, -, hnode⟩ := Tree.place_eq_some hplace
    exact ⟨q, hn, by simp [Tree.isDir, hnode, Node.isDir]⟩
  · rw [Links.lookup, hq, Option.bind_some, hn] at hd
    cases hd

/-- Where something is missing, something is made. -/
theorem createDirs_of_missing {mode : Nat} {ds : List String} (hds : ∃ d ∈ ds, w.lookup t d = none)
    (h : createDirs w.toLinks mode t ds = some t') : ∃ q, t.node q = none ∧ t'.isDir q = true := by
  induction ds with
  | nil => simp at hds
  | cons d ds ih =>
    obtain ⟨t1, h1, h2⟩ := createDirs_cons.1 h
    by_cases hd : w.lookup t d = none
    · obtain ⟨q, hn, hdir⟩ := createDir_of_missing hd h1
      exact ⟨q, hn, (createDirs_adds h2).isDir hdir⟩
    · obtain rfl := createDir_of_lookup hd h1
      refine ih ?_ h2
      obtain ⟨e, he, hn⟩ := hds
      rcases List.mem_cons.1 he with rfl | he
      · exact absurd hn hd
      · exact ⟨e, he, hn⟩

theorem below_of_matching {d : String} (hd : below d p = true) (hm : matching p q = true) : below d q = true := by
  rcases matching_iff.1 hm with rfl | h
  · exact hd
  · exact below_trans hd h

/-- No directory that is made on the way to a path is at or below the path. -/
theorem made_apart {mode : Nat} (h : createDirs w.toLinks mode t (ancestors p) = some t1) (hn : t.node q = none)
    (hdir : t1.isDir q = true) : matching p q = false := by
  rw [Bool.eq_false_iff]
  intro hm
  have hq : t1.node q ≠ none := fun h => by simp [Tree.isDir, h] at hdir
  -- The way to the path has no links, so the directories are made where it says.
  have hplain : t.Plain p := by
    intro d hd
    rw [← (createDirs_adds h).isLink]
    exact Tree.isLink_of_isDir (Tree.isDir_of_below (below_of_matching hd hm) hq)
  rcases (createDirs_spec (plain_ancestors hplain) h).1 q with hsame | ⟨hmem, -, -⟩
  · exact hq (hsame.trans hn)
  · have := below_of_matching (mem_ancestors_iff.1 hmem) hm
    rw [below_irrefl] at this
    cases this

/-- A directory that is made on the way is not announced. -/
theorem missing_not_announced {mode : Nat} {events : List ChangeEvent} (hev : ∀ q, Announced events q → matching p q = true)
    (hmk : createDirs w.toLinks mode t (ancestors p) = some t1) (hmiss : ¬ NoneMissing w t p)
    (hkeep : ∀ q, t1.isDir q = true → t'.node q ≠ none) : ¬ AllAnnounced t t' events := by
  intro hall
  have hex : ∃ d ∈ ancestors p, w.lookup t d = none := by simpa [NoneMissing] using hmiss
  obtain ⟨q, hn, hdir⟩ := createDirs_of_missing hex hmk
  have hm := hev q (hall q fun h => hkeep q hdir (h.trans hn))
  rw [made_apart hmk hn hdir] at hm
  cases hm

theorem allAnnounced_refl (t : Tree) (events : List ChangeEvent) : AllAnnounced t t events := fun _ h => absurd rfl h

/-- Nothing is done but making the directories on the way. -/
theorem made_iff {mode : Nat} {events : List ChangeEvent} (hev : ∀ q, Announced events q → matching p q = true)
    (hmk : createDirs w.toLinks mode t (ancestors p) = some t1) : AllAnnounced t t1 events ↔ NoneMissing w t p := by
  constructor
  · intro hall
    by_contra hmiss
    refine missing_not_announced hev hmk hmiss (fun r hr hn => ?_) hall
    simp [Tree.isDir, hn] at hr
  · intro hnone
    obtain rfl := createDirs_of_lookup hnone hmk
    exact allAnnounced_refl _ _

/-! ## Requests that change one entry -/

section Edit
variable {mode : Nat} {events : List ChangeEvent} {n : Node}

/-- One entry is put or changed. -/
theorem put_iff (hnode : ∀ r, t'.node r = if r = q then some n else t.node r) :
    AllAnnounced t t' events ↔ t.node q = some n ∨ Announced events q := by
  constructor
  · intro hall
    by_cases hq : t.node q = some n
    · exact .inl hq
    · exact .inr (hall q (by simpa [hnode] using Ne.symm hq))
  · intro h r hr
    rw [hnode] at hr
    split at hr
    · rename_i hrq
      subst hrq
      exact h.resolve_left fun he => hr he.symm
    · exact absurd rfl hr

/-- One entry is put or changed after the directories on the way are made. -/
theorem edit_iff (hev : ∀ q, Announced events q → matching p q = true)
    (hmk : createDirs w.toLinks mode t (ancestors p) = some t1)
    (hnode : ∀ r, t'.node r = if r = q then some n else t1.node r) :
    AllAnnounced t t' events ↔ NoneMissing w t p ∧ (t.node q = some n ∨ Announced events q) := by
  by_cases hnone : NoneMissing w t p
  · obtain rfl := createDirs_of_lookup hnone hmk
    rw [and_iff_right hnone]
    exact put_iff hnode
  · refine iff_of_false (missing_not_announced hev hmk hnone fun r hr => ?_) fun h => hnone h.1
    rw [hnode]
    split
    · simp
    · exact fun hn => by simp [Tree.isDir, hn] at hr

theorem announced_iff_eq {kind : ChangeKind} (hp : p ≠ "") (hq : w.locate t p = some q ∨ w.follow t p = some q)
    (hdirs : ∀ d, below d q = true → t.isDir d = true) : Announced [⟨p, kind⟩] q ↔ q = p := by
  constructor
  · exact fun h => eq_of_matching hdirs hq (matching_of_announced hp h)
  · rintro rfl
    exact announced_self List.mem_cons_self

theorem parents_of_edit (hnode : ∀ r, t'.node r = if r = q then some n else t.node r) :
    ∀ d, below d q = true → t.isDir d = true := by
  intro d hd
  have hdir := Tree.isDir_of_below (t := t') hd (by simp [hnode])
  have hne : d ≠ q := fun h => by rw [h, below_irrefl] at hd; cases hd
  simpa [Tree.isDir, hnode, hne] using hdir

theorem put_recorded_iff {kind : ChangeKind} (hp : p ≠ "") (hq : w.locate t p = some q ∨ w.follow t p = some q)
    (hnode : ∀ r, t'.node r = if r = q then some n else t.node r) :
    AllAnnounced t t' [⟨p, kind⟩] ↔ q = p ∨ t.node q = some n := by
  rw [put_iff hnode, announced_iff_eq hp hq (parents_of_edit hnode)]
  exact or_comm

/-- One entry is put or changed, and its path recorded. -/
theorem edit_recorded_iff {kind : ChangeKind} (hp : p ≠ "") (hmk : createDirs w.toLinks mode t (ancestors p) = some t1)
    (hq : w.locate t1 p = some q ∨ w.follow t1 p = some q)
    (hnode : ∀ r, t'.node r = if r = q then some n else t1.node r) :
    AllAnnounced t t' [⟨p, kind⟩] ↔ NoneMissing w t p ∧ (q = p ∨ t.node q = some n) := by
  rw [edit_iff (fun _ => matching_of_announced hp) hmk hnode]
  refine and_congr_right fun hnone => ?_
  obtain rfl := createDirs_of_lookup hnone hmk
  rw [announced_iff_eq hp hq (parents_of_edit hnode)]
  exact or_comm

theorem not_announced_nil (q : String) : ¬ Announced [] q := fun ⟨_, he, _⟩ => List.not_mem_nil he

theorem edit_silent_iff (hmk : createDirs w.toLinks mode t (ancestors p) = some t1)
    (hnode : ∀ r, t'.node r = if r = q then some n else t1.node r) :
    AllAnnounced t t' [] ↔ NoneMissing w t p ∧ t.node q = some n := by
  rw [edit_iff (fun q h => absurd h (not_announced_nil q)) hmk hnode]
  simp [not_announced_nil]

end Edit

/-- A write to a file that is there. -/
theorem editFile_reaches {stamp : Stamp} {f : Bytes → Bytes} (he : editFile w stamp p f t = some t') :
    ∃ q n, w.follow t p = some q ∧ (∀ r, t'.node r = if r = q then some n else t.node r) ∧
      (t.node q = some n ↔ Unedited stamp f t q) := by
  unfold editFile at he
  split at he
  · cases he
  · rename_i q hq
    split at he
    · rename_i data mode mtime hn
      obtain ⟨-, -, hnode⟩ := Tree.place_eq_some he
      refine ⟨q, .file (f data) mode stamp.mtime, hq, hnode, ?_⟩
      simp only [hn, Unedited, Option.some.injEq, Node.file.injEq, true_and]
      constructor
      · rintro ⟨hf, rfl⟩
        exact ⟨data, mode, ⟨rfl, rfl, rfl⟩, hf.symm⟩
      · rintro ⟨data', mode', ⟨rfl, rfl, rfl⟩, hf⟩
        exact ⟨hf.symm, rfl⟩
    · cases he

/-- Opening a file for writing, and a write. -/
theorem write_spec {stamp : Stamp} {f : Bytes → Bytes} {t2 : Tree} (ho : openCreate w stamp p t1 = some t2)
    (he : editFile w stamp p f t2 = some t') :
    ∃ q n, w.follow t1 p = some q ∧ (∀ r, t'.node r = if r = q then some n else t1.node r) ∧
      (t1.node q = some n ↔ Unedited stamp f t1 q) := by
  unfold openCreate at ho
  split at ho
  · cases ho
  · rename_i q hq
    split at ho
    · -- The file is new.
      rename_i hn
      unfold editFile at he
      obtain ⟨-, -, hnode⟩ := Tree.place_eq_some ho
      rw [w.follow_place t1 t2 p q _ hq (by simp [Tree.isLink, hn]) rfl ho] at he
      simp only [hnode, if_true] at he
      obtain ⟨-, -, hnode'⟩ := Tree.place_eq_some he
      refine ⟨q, .file (f []) stamp.fileMode stamp.mtime, hq, fun r => ?_, ?_⟩
      · rw [hnode', hnode]
        split <;> rfl
      · simp [hn, Unedited]
    · cases ho
      exact editFile_reaches he
    · cases ho

theorem createDirAll_append {stamp : Stamp} {ds : List String} {cs : List (Tree → Option Tree)} :
    (createDirAll w stamp ds ++ cs).foldlM (fun t c => c t) t = some t' ↔
      ∃ t1, createDirs w.toLinks stamp.dirMode t ds = some t1 ∧ cs.foldlM (fun t c => c t) t1 = some t' := by
  rw [foldlM_append_iff, foldlM_createDirAll]

theorem foldlM_two_iff {c d : Tree → Option Tree} :
    [c, d].foldlM (fun t c => c t) t = some t' ↔ ∃ t1, c t = some t1 ∧ d t1 = some t' := by
  rw [foldlM_cons_iff]
  simp only [foldlM_cons_iff, foldlM_nil_iff, exists_eq_right]

/-- The file of a path is opened and changed, and this is recorded or not. -/
theorem open_edit_iff {mode : Nat} {n : Node} (hp : p ≠ "") (hmk : createDirs w.toLinks mode t (ancestors p) = some t1)
    (hq : w.follow t1 p = some q) (hnode : ∀ r, t'.node r = if r = q then some n else t1.node r) {P : Tree → String → Prop}
    (hP : t1.node q = some n ↔ P t1 q) :
    (∀ kind, AllAnnounced t t' [⟨p, kind⟩] ↔ NoneMissing w t p ∧ ∀ q, w.follow t p = some q → q = p ∨ P t q) ∧
    (AllAnnounced t t' [] ↔ NoneMissing w t p ∧ ∀ q, w.follow t p = some q → P t q) := by
  refine ⟨fun kind => ?_, ?_⟩
  · rw [edit_recorded_iff hp hmk (.inr hq) hnode]
    refine and_congr_right fun hnone => ?_
    obtain rfl := createDirs_of_lookup hnone hmk
    simp [hq, hP]
  · rw [edit_silent_iff hmk hnode]
    refine and_congr_right fun hnone => ?_
    obtain rfl := createDirs_of_lookup hnone hmk
    simp [hq, hP]

theorem truncate_iff {stamp : Stamp} {f : Bytes → Bytes} (hp : p ≠ "")
    (hrun : (createDirAll w stamp (ancestors p) ++ [openCreate w stamp p, editFile w stamp p f]).foldlM (fun t c => c t) t =
      some t') (kind : ChangeKind) :
    AllAnnounced t t' [⟨p, kind⟩] ↔ NoneMissing w t p ∧ ∀ q, w.follow t p = some q → q = p ∨ Unedited stamp f t q := by
  obtain ⟨t1, hmk, hrun⟩ := createDirAll_append.1 hrun
  obtain ⟨t2, ho, he⟩ := foldlM_two_iff.1 hrun
  obtain ⟨q, n, hq, hnode, hun⟩ := write_spec ho he
  exact (open_edit_iff hp hmk hq hnode hun).1 kind

/-- Opening a file, and data for it. -/
theorem openCreate_reaches {stamp : Stamp} (ho : openCreate w stamp p t = some t') :
    ∃ q n, w.follow t p = some q ∧ (∀ r, t'.node r = if r = q then some n else t.node r) ∧
      (t.node q = some n ↔ t.node q ≠ none) := by
  unfold openCreate at ho
  split at ho
  · cases ho
  · rename_i q hq
    split at ho
    · rename_i hn
      exact ⟨q, _, hq, (Tree.place_eq_some ho).2.2, by simp [hn]⟩
    · rename_i hn
      cases ho
      refine ⟨q, _, hq, fun r => ?_, iff_of_true hn (by simp [hn])⟩
      split
      · rename_i hr
        rw [hr, hn]
      · rfl
    · cases ho

theorem unwritten_iff {stamp : Stamp} {offset : Nat} {data : Bytes} (hd : data ≠ []) :
    Unwritten stamp offset data t q ↔ Unedited stamp (writeAt 0 · offset data) t q := by
  constructor
  · rintro ⟨-, h⟩
    exact h.resolve_left hd
  · rintro ⟨old, mode, hn, hf⟩
    exact ⟨by simp [hn], .inr ⟨old, mode, hn, hf⟩⟩

/-- A write to the file of a path, recorded or not. -/
theorem writes_iff {stamp : Stamp} {offset : Nat} {data : Bytes} (hp : p ≠ "")
    (hrun : (writeCalls w stamp p offset data).foldlM (fun t c => c t) t = some t') :
    (∀ kind, AllAnnounced t t' [⟨p, kind⟩] ↔
      NoneMissing w t p ∧ ∀ q, w.follow t p = some q → q = p ∨ Unwritten stamp offset data t q) ∧
    (AllAnnounced t t' [] ↔ NoneMissing w t p ∧ ∀ q, w.follow t p = some q → Unwritten stamp offset data t q) := by
  obtain ⟨t1, hmk, hrun⟩ := createDirAll_append.1 hrun
  obtain ⟨t2, ho, hwr⟩ := foldlM_two_iff.1 hrun
  unfold writeAll at hwr
  split at hwr
  · rename_i hd
    cases hwr
    obtain ⟨q, n, hq, hnode, hun⟩ := openCreate_reaches ho
    exact open_edit_iff hp hmk hq hnode (by simp [hun, Unwritten, hd])
  · rename_i hd
    obtain ⟨q, n, hq, hnode, hun⟩ := write_spec ho hwr
    exact open_edit_iff hp hmk hq hnode (hun.trans (unwritten_iff hd).symm)

/-! ## The other requests for one path -/

theorem mkdir_iff {stamp : Stamp} {kind : ChangeKind} (hp : p ≠ "")
    (hrun : (createDirAll w stamp (ancestors p ++ [p])).foldlM (fun t c => c t) t = some t') :
    AllAnnounced t t' [⟨p, kind⟩] ↔ NoneMissing w t p ∧ ∀ q, w.locate t p = some q → t.node q = none → q = p := by
  rw [createDirAll, List.map_append] at hrun
  obtain ⟨t1, hmk, hrun⟩ := createDirAll_append.1 hrun
  obtain ⟨t2, hd, ht⟩ := foldlM_cons_iff.1 hrun
  obtain rfl := foldlM_nil_iff.1 ht
  change createDir w.toLinks stamp.dirMode t1 p = some t2 at hd
  obtain ⟨q, hq, ⟨hn, hplace⟩ | ⟨rfl, n, hn, -⟩⟩ := createDir_cases hd
  · obtain ⟨-, -, hnode⟩ := Tree.place_eq_some hplace
    rw [edit_recorded_iff hp hmk (.inl hq) hnode]
    refine and_congr_right fun hnone => ?_
    obtain rfl := createDirs_of_lookup hnone hmk
    simp [hq, hn]
  · -- There is something already.
    rw [made_iff (fun _ => matching_of_announced hp) hmk]
    constructor
    · intro hnone
      obtain rfl := createDirs_of_lookup hnone hmk
      refine ⟨hnone, fun q' hq' hn' => ?_⟩
      cases hq.symm.trans hq'
      rw [hn] at hn'
      cases hn'
    · exact And.left

/-- `let _ = remove_file`, and a link in its place. -/
theorem link_spec {stamp : Stamp} {target : String} {t2 : Tree} (hr : removeFile w p t1 = some t2)
    (hl : makeLink w stamp p target t2 = some t') :
    ∃ q, w.locate t1 p = some q ∧ t1.isDir q = false ∧ ∃ q', w.locate (t1.drop q) p = some q' ∧
      (t1.drop q).node q' = none ∧ (∀ d, below d q' = true → (t1.drop q).isDir d = true) ∧
      ∀ r, t'.node r = if r = q' then some (.symlink target stamp.linkMode stamp.mtime) else if r = q then none else t1.node r := by
  unfold removeFile at hr
  unfold makeLink at hl
  split at hr
  · rename_i hq
    cases hr
    simp only [hq] at hl
    cases hl
  · rename_i q hq
    by_cases hdir : t1.isDir q = true
    · -- A directory stays, and no link can be made.
      rw [if_pos hdir] at hr
      cases hr
      rw [hq] at hl
      simp only at hl
      split at hl
      · rename_i hn
        simp [Tree.isDir, hn] at hdir
      · cases hl
    · rw [if_neg hdir] at hr
      cases hr
      split at hl
      · cases hl
      · rename_i q' hq'
        split at hl
        · rename_i hn
          obtain ⟨hdirs, -, hnode⟩ := Tree.place_eq_some hl
          refine ⟨q, hq, by simpa using hdir, q', hq', hn, hdirs, fun r => ?_⟩
          rw [hnode, Tree.node_drop_of_not_isDir (by simpa using hdir)]
        · cases hl

section Link
variable {stamp : Stamp} {target q' : String}

/-- A link put in the place of the entry of its path is that entry. -/
theorem link_self (hq : w.locate t p = some p) (hdir : t.isDir p = false) (hq' : w.locate (t.drop p) p = some q') : q' = p := by
  by_cases hn : t.node p = none
  · rw [Tree.drop_of_none hn, hq] at hq'
    exact (Option.some.inj hq').symm
  · have hplain : (t.drop p).Plain p := by
      intro d hd
      have hne : d ≠ p := fun h => by rw [h, below_irrefl] at hd; cases hd
      rw [Tree.isLink, Tree.node_drop_of_not_isDir hdir, if_neg hne]
      exact Tree.plain_of_node hn d hd
    rw [w.locate_plain _ _ hplain] at hq'
    exact (Option.some.inj hq').symm

/-- A link in another place is there already, if all is announced. -/
theorem link_elsewhere (hp : p ≠ "") (hqp : q ≠ p) (hq : w.locate t p = some q) (hdir : t.isDir q = false)
    (hq' : w.locate (t.drop q) p = some q') (hdirs : ∀ d, below d q' = true → (t.drop q).isDir d = true)
    (hnode : ∀ r, t'.node r =
      if r = q' then some (.symlink target stamp.linkMode stamp.mtime) else if r = q then none else t.node r)
    (hall : AllAnnounced t t' [⟨p, .replaced⟩]) :
    q' = q ∧ t.node q = some (.symlink target stamp.linkMode stamp.mtime) := by
  have hapart : (∀ d, below d q = true → t.isDir d = true) → ¬ Announced [⟨p, .replaced⟩] q := fun hd hann =>
    hqp (eq_of_matching hd (.inl hq) (matching_of_announced hp hann))
  by_cases hqq : q' = q
  · subst hqq
    refine ⟨rfl, ?_⟩
    by_contra hne
    refine hapart (fun d hd => ?_) (hall q' (by rw [hnode, if_pos rfl]; exact Ne.symm hne))
    have hd' := hdirs d hd
    rw [Tree.isDir, Tree.node_drop_of_not_isDir hdir] at hd'
    split at hd'
    · cases hd'
    · exact hd'
  · -- The old entry is gone, and the link is somewhere else.
    have hqn : t.node q = none := by
      by_contra hne
      exact hapart (parents_of_node hne) (hall q (by rw [hnode, if_neg (Ne.symm hqq), if_pos rfl]; exact Ne.symm hne))
    rw [Tree.drop_of_none hqn, hq] at hq'
    exact absurd (Option.some.inj hq').symm hqq

theorem symlink_iff (hp : p ≠ "")
    (hrun : (createDirAll w stamp (ancestors p) ++ [removeFile w p, makeLink w stamp p target]).foldlM (fun t c => c t) t =
      some t') :
    AllAnnounced t t' [⟨p, .replaced⟩] ↔ NoneMissing w t p ∧ ∀ q, w.locate t p = some q →
      q = p ∨ (t.node q = some (.symlink target stamp.linkMode stamp.mtime) ∧ w.locate (t.drop q) p = some q) := by
  obtain ⟨t1, hmk, hrun⟩ := createDirAll_append.1 hrun
  obtain ⟨t2, hrm, hl⟩ := foldlM_two_iff.1 hrun
  obtain ⟨q, hq, hdir, q', hq', hn', hdirs, hnode⟩ := link_spec hrm hl
  by_cases hnone : NoneMissing w t p
  · obtain rfl := createDirs_of_lookup hnone hmk
    rw [and_iff_right hnone]
    constructor
    · intro hall r hrq
      obtain rfl : q = r := Option.some.inj (hq.symm.trans hrq)
      by_cases hqp : q = p
      · exact .inl hqp
      · obtain ⟨rfl, hlink⟩ := link_elsewhere hp hqp hq hdir hq' hdirs hnode hall
        exact .inr ⟨hlink, hq'⟩
    · intro h
      have hput : q' = q → (t1.node q = some (.symlink target stamp.linkMode stamp.mtime) ∨ Announced [⟨p, .replaced⟩] q) →
          AllAnnounced t1 t' [⟨p, .replaced⟩] := by
        rintro rfl hor
        refine (put_iff fun r => ?_).2 hor
        rw [hnode]
        split <;> rfl
      rcases h q hq with rfl | ⟨hlink, hloc⟩
      · exact hput (link_self hq hdir hq') (.inr (announced_self List.mem_cons_self))
      · exact hput (Option.some.inj (hq'.symm.trans hloc)) (.inl hlink)
  · refine iff_of_false (missing_not_announced (fun _ => matching_of_announced hp) hmk hnone fun r hr => ?_) fun h => hnone h.1
    have hrq : r ≠ q := fun h => by rw [h, hdir] at hr; cases hr
    rw [hnode, if_neg hrq]
    split
    · simp
    · exact fun hn => by simp [Tree.isDir, hn] at hr

end Link

theorem setPermissions_node {mode : Nat} (hc : setPermissions w p mode t = some t') :
    w.follow t' = w.follow t ∧ ∃ q n, w.follow t p = some q ∧ t.node q = some n ∧
      ∀ r, t'.node r = if r = q then some (n.chmod (w.modeFor mode)) else t.node r := by
  obtain ⟨q, hq, ha⟩ := Option.bind_eq_some_iff.1 hc
  obtain ⟨n, hn, hnode⟩ := Tree.alter_eq_some ha
  exact ⟨w.meta_follow t t' (Tree.metaOnly_of_alter ha (Node.bare_chmod _)), q, n, hq, hn, hnode⟩

theorem setFileMtime_node {modified : Int} (hc : setFileMtime w p modified t = some t') :
    ∃ q n, w.follow t p = some q ∧ t.node q = some n ∧ ∀ r, t'.node r = if r = q then some (n.utime (w.keptTime modified)) else t.node r := by
  obtain ⟨q, hq, ha⟩ := Option.bind_eq_some_iff.1 hc
  obtain ⟨n, hn, hnode⟩ := Tree.alter_eq_some ha
  exact ⟨q, n, hq, hn, hnode⟩

/-- Either neither mode nor time is to be set, or the entry of the path gets both. -/
theorem setMetadata_node {h : Handling} {mode : Option Nat} {modified : Option Int}
    (hrun : ((JournalOp.setMetadata p mode modified).calls w (fun _ => []) h t).foldlM (fun t c => c t) t = some t') :
    (t' = t ∧ ∀ n : Node, n.edited w mode modified = n) ∨
      ∃ q n, w.follow t p = some q ∧ t.node q = some n ∧
        ∀ r, t'.node r = if r = q then some (n.edited w mode modified) else t.node r := by
  have hcalls : (JournalOp.setMetadata p mode modified).calls w (fun _ => []) h t =
      (if mode.getD 0 = 0 then [] else [setPermissions w p (mode.getD 0)]) ++
        (if 0 < modified.getD 0 then [setFileMtime w p (modified.getD 0)] else []) := by
    cases mode <;> cases modified <;> simp [JournalOp.calls]
  rw [hcalls] at hrun
  by_cases hm : mode.getD 0 = 0
  · by_cases ht : 0 < modified.getD 0
    · simp only [hm, ht, if_true, List.nil_append, foldlM_cons_iff, foldlM_nil_iff, exists_eq_right] at hrun
      obtain ⟨q, n, hq, hn, hnode⟩ := setFileMtime_node hrun
      exact .inr ⟨q, n, hq, hn, by simpa [Node.edited, hm, ht] using hnode⟩
    · simp only [hm, ht, if_true, if_false, List.nil_append, foldlM_nil_iff] at hrun
      exact .inl ⟨hrun.symm, fun n => by simp [Node.edited, hm, ht]⟩
  · by_cases ht : 0 < modified.getD 0
    · simp only [hm, ht, if_true, if_false, List.singleton_append, foldlM_two_iff] at hrun
      obtain ⟨t1, h1, h2⟩ := hrun
      obtain ⟨hfollow, q, n, hq, hn, hnode⟩ := setPermissions_node h1
      obtain ⟨q', n', hq', hn', hnode'⟩ := setFileMtime_node h2
      obtain rfl : q = q' := by rw [hfollow, hq] at hq'; exact Option.some.inj hq'
      rw [hnode, if_pos rfl] at hn'
      cases hn'
      refine .inr ⟨q, n, hq, hn, fun r => ?_⟩
      rw [hnode', hnode]
      split
      · simp [Node.edited, hm, ht]
      · rfl
    · simp only [hm, ht, if_false, List.append_nil, foldlM_cons_iff, foldlM_nil_iff, exists_eq_right] at hrun
      obtain ⟨-, q, n, hq, hn, hnode⟩ := setPermissions_node hrun
      exact .inr ⟨q, n, hq, hn, by simpa [Node.edited, hm, ht] using hnode⟩

theorem setMetadata_iff {h : Handling} {mode : Option Nat} {modified : Option Int} {kind : ChangeKind} (hp : p ≠ "")
    (hrun : ((JournalOp.setMetadata p mode modified).calls w (fun _ => []) h t).foldlM (fun t c => c t) t = some t') :
    AllAnnounced t t' [⟨p, kind⟩] ↔
      ∀ q n, w.follow t p = some q → t.node q = some n → q = p ∨ n.edited w mode modified = n := by
  rcases setMetadata_node hrun with ⟨rfl, hsame⟩ | ⟨q, n, hq, hn, hnode⟩
  · exact iff_of_true (allAnnounced_refl _ _) fun _ n _ _ => .inr (hsame n)
  · rw [put_recorded_iff hp (.inr hq) hnode, hn, Option.some.injEq]
    constructor
    · rintro h q' n' hq' hn'
      cases hq.symm.trans hq'
      cases hn.symm.trans hn'
      exact h.imp_right Eq.symm
    · exact fun h => (h q n hq hn).imp_right Eq.symm

theorem drop_iff (hp : p ≠ "") (hq : w.locate t p = some q) (hn : t.node q ≠ none) :
    AllAnnounced t (t.drop q) [⟨p, .replaced⟩] ↔ q = p := by
  constructor
  · intro hall
    refine eq_of_matching (parents_of_node hn) (.inl hq) (matching_of_announced hp (hall q ?_))
    rw [Tree.node_drop, if_pos (.inl rfl)]
    exact Ne.symm hn
  · rintro rfl r hr
    rw [Tree.node_drop] at hr
    split at hr
    · rename_i hb
      exact ⟨_, List.mem_cons_self, hb.imp_right fun hb => ⟨rfl, .inr hb⟩⟩
    · exact absurd rfl hr

theorem remove_iff {h : Handling} {dir : Bool} (hp : p ≠ "") (hseen : h.unseen = false)
    (hrun : (removeCalls w h t p dir).foldlM (fun t c => c t) t = some t') :
    AllAnnounced t t' [⟨p, .replaced⟩] ↔ ∀ q, w.locate t p = some q → t.node q ≠ none → q = p := by
  unfold removeCalls at hrun
  rw [hseen, if_neg Bool.false_ne_true] at hrun
  split at hrun
  · rename_i hq
    obtain rfl := foldlM_nil_iff.1 hrun
    exact iff_of_true (allAnnounced_refl _ _) fun q h => by rw [hq] at h; cases h
  · rename_i q hq
    have hone : ∀ {P : String → Prop}, (∀ q', w.locate t p = some q' → P q') ↔ P q := by simp [hq]
    rw [hone]
    split at hrun
    · rename_i hn
      obtain rfl := foldlM_nil_iff.1 hrun
      exact iff_of_true (allAnnounced_refl _ _) fun h => absurd hn h
    · rename_i hn
      split at hrun
      · rw [removeDirAll_drop hrun, drop_iff hp hq (by simp [hn])]
        simp [hn]
      · obtain ⟨_, hfail, -⟩ := foldlM_cons_iff.1 hrun
        cases hfail
    · rename_i n _ hn
      obtain ⟨t1, hd, ht⟩ := foldlM_cons_iff.1 hrun
      cases hd
      obtain rfl := foldlM_nil_iff.1 ht
      rw [drop_iff hp hq (by simp [hn])]
      simp [hn]

/-! ## Uploads -/

theorem start_iff {stamp : Stamp} {uploadId : String}
    (hrun : (createDirAll w stamp (ancestors p) ++ [fun t => (uploadTempPath p uploadId).bind fun temp =>
      if w.there t temp then some t else openCreate w stamp temp t]).foldlM (fun t c => c t) t = some t') :
    AllAnnounced t t' [] ↔ NoneMissing w t p ∧ ∀ temp, uploadTempPath p uploadId = some temp → w.there t temp = true := by
  obtain ⟨t1, hmk, hrun⟩ := createDirAll_append.1 hrun
  obtain ⟨t2, hc, ht⟩ := foldlM_cons_iff.1 hrun
  obtain rfl := foldlM_nil_iff.1 ht
  obtain ⟨temp, htemp, hc⟩ := Option.bind_eq_some_iff.1 hc
  have hone : (∀ temp', uploadTempPath p uploadId = some temp' → w.there t temp' = true) ↔ w.there t temp = true := by
    simp [htemp]
  rw [hone]
  by_cases hthere : w.there t1 temp = true
  · rw [if_pos hthere] at hc
    cases hc
    rw [made_iff (fun q h => absurd h (not_announced_nil q)) hmk]
    refine ⟨fun hnone => ⟨hnone, ?_⟩, And.left⟩
    obtain rfl := createDirs_of_lookup hnone hmk
    exact hthere
  · rw [if_neg hthere] at hc
    unfold openCreate at hc
    split at hc
    · cases hc
    · rename_i q hq
      have hn : t1.node q = none := by simpa [Walks.there, hq] using hthere
      rw [hn] at hc
      obtain ⟨-, -, hnode⟩ := Tree.place_eq_some hc
      rw [edit_silent_iff hmk hnode]
      refine and_congr_right fun hnone => ?_
      obtain rfl := createDirs_of_lookup hnone hmk
      simp [hn, hthere]

theorem chunk_iff {stamp : Stamp} {offset : Nat} {data : Bytes} {temp : String}
    (hrun : [openFile w temp, writeAll w stamp temp offset data].foldlM (fun t c => c t) t = some t') :
    AllAnnounced t t' [] ↔ ∀ q, w.follow t temp = some q → Unwritten stamp offset data t q := by
  obtain ⟨t1, ho, hwr⟩ := foldlM_two_iff.1 hrun
  unfold openFile at ho
  split at ho
  swap
  · cases ho
  rename_i hfile
  cases ho
  obtain ⟨q, hq, hn⟩ := Option.bind_eq_some_iff.1 hfile
  unfold writeAll at hwr
  split at hwr
  · rename_i hd
    cases hwr
    refine iff_of_true (allAnnounced_refl _ _) fun q' hq' => ?_
    cases hq.symm.trans hq'
    exact ⟨by simp [hn], .inl hd⟩
  · rename_i hd
    obtain ⟨q', n, hq', hnode, hun⟩ := editFile_reaches hwr
    cases hq.symm.trans hq'
    rw [put_iff hnode, hun, or_iff_left (not_announced_nil q), ← unwritten_iff hd]
    simp [hq]

end Facts

end Mobfs
