import Mobfs.Daemon.SameTree
/-!
# Requests that are handled again

A request that was handled up to some call is handled again from its first call on, at
another time. Times apart, this comes to what handling it once would have come to
(`handle_again`), if no directory on the way to its paths is a link.
-/

namespace Mobfs

open Lib Std

/-! ## Calls that are made again -/

section Again
variable {w : Walks} {blobs : String → Bytes} {stamp stamp' : Stamp} {p : String} {ds : List String} {t t1 P : Tree}

/-- The first of the calls `cs`, made once, are made again as `cs'` without effect. -/
def AgainSame (t : Tree) (cs cs' : List (Tree → Option Tree)) : Prop :=
  ∀ n P, doAll t (cs.take n) = some P → ∃ P', doAll P (cs'.take n) = some P' ∧ P.Same P'

/-- The directories on the way to a path are there before the calls `cs` are made, which
leave them alone and are made again without effect. -/
def AgainInDirs (ds : List String) (t : Tree) (cs cs' : List (Tree → Option Tree)) : Prop :=
  ∀ t1, AddsDirs t t1 (· ∈ ds) → (∀ d ∈ ds, t1.isDir d = true) → ∀ n P, doAll t1 (cs.take n) = some P →
    (∀ d ∈ ds, P.isDir d = true) ∧ ∃ P', doAll P (cs'.take n) = some P' ∧ P.Same P'

theorem doAll_createDirAll : doAll t (createDirAll w stamp ds) = createDirs w.toLinks stamp.dirMode t ds :=
  foldlM_createDirAll

theorem AgainSame.in_dirs {cs cs' : List (Tree → Option Tree)} (hds : ∀ d ∈ ds, t.Plain d)
    (hl : ∀ d ∈ ds, t.isLink d = false) (h : AgainInDirs ds t cs cs') :
    AgainSame t (createDirAll w stamp ds ++ cs) (createDirAll w stamp' ds ++ cs') := by
  intro n P hP
  have hmem : ∀ d ∈ ds.take n, d ∈ ds := fun d hd => List.mem_of_mem_take hd
  have hlen : ∀ st, (createDirAll w st ds).length = ds.length := fun st => List.length_map _
  have htake : ∀ st, (createDirAll w st ds).take n = createDirAll w st (ds.take n) := fun st => List.map_take.symm
  rw [List.take_append, htake, hlen, doAll_append, doAll_createDirAll] at hP
  obtain ⟨t1, h1, h2⟩ := hP
  have hdir1 := createDirs_isDir (fun d hd => hds d (hmem d hd)) (fun d hd => hl d (hmem d hd)) h1
  -- All of the directories are there before the first of the other calls.
  have hrest : (∀ d ∈ ds.take n, P.isDir d = true) ∧
      ∃ P', doAll P (cs'.take (n - ds.length)) = some P' ∧ P.Same P' := by
    by_cases hn : n ≤ ds.length
    · rw [Nat.sub_eq_zero_of_le hn, List.take_zero] at h2 ⊢
      cases h2
      exact ⟨hdir1, P, rfl, .refl P⟩
    · rw [List.take_of_length_le (by omega)] at h1 hdir1 ⊢
      exact h t1 (createDirs_spec hds h1).1 hdir1 _ P h2
  obtain ⟨hdirs, P', hP', hsame⟩ := hrest
  refine ⟨P', ?_, hsame⟩
  rw [List.take_append, htake, hlen, doAll_append, doAll_createDirAll, createDirs_of_isDir hdirs]
  exact ⟨P, rfl, hP'⟩

/-! ### Files -/

theorem openCreate_of_file {q : String} {data : Bytes} {mode : Nat} {mtime : Int} (stamp : Stamp)
    (hq : w.follow t p = some q) (hn : t.node q = some (.file data mode mtime)) : openCreate w stamp p t = some t := by
  simp only [openCreate, hq, hn]

theorem openCreate_file (hc : openCreate w stamp p t = some P) :
    ∃ q data mode mtime, w.follow P p = some q ∧ P.node q = some (.file data mode mtime) := by
  unfold openCreate at hc
  split at hc
  · cases hc
  · rename_i q hq
    split at hc
    · rename_i hn
      have hlink : t.isLink q = false := by simp [Tree.isLink, hn]
      exact ⟨q, _, _, _, w.follow_place t P p q _ hq hlink rfl hc, by rw [(Tree.place_eq_some hc).2.2, if_pos rfl]⟩
    · rename_i data mode mtime hn
      cases hc
      exact ⟨q, data, mode, mtime, hq, hn⟩
    · cases hc

theorem editFile_of_file {f : Bytes → Bytes} {q : String} {data : Bytes} {mode : Nat} {mtime : Int} (stamp : Stamp)
    (hq : w.follow t p = some q) (hn : t.node q = some (.file data mode mtime)) :
    ∃ P, editFile w stamp p f t = some P ∧ w.follow P p = some q ∧
      ∀ r, P.node r = if r = q then some (.file (f data) mode stamp.mtime) else t.node r := by
  have hlink : t.isLink q = false := by simp [Tree.isLink, hn, Node.isLink]
  have hdirs : ∀ d, below d q = true → t.isDir d = true := fun d hd => Tree.isDir_of_below hd (by simp [hn])
  obtain ⟨P, hP⟩ := Tree.place_isSome (.file (f data) mode stamp.mtime) hdirs (by simp [Tree.isDir, hn, Node.isDir])
  refine ⟨P, by simp only [editFile, hq, hn, hP], ?_, (Tree.place_eq_some hP).2.2⟩
  exact w.follow_place t P p q _ hq hlink rfl hP

/-- A file is opened and changed: what is done once changes nothing when done again. -/
theorem againInDirs_edit {f : Bytes → Bytes} (hf : ∀ data, f (f data) = f data) :
    AgainInDirs ds t [openCreate w stamp p, editFile w stamp p f] [openCreate w stamp' p, editFile w stamp' p f] := by
  intro t1 _ hdirs n P hP
  have hopen : ∀ t2, openCreate w stamp p t1 = some t2 → ∀ d ∈ ds, t2.isDir d = true := by
    intro t2 h2 d hd
    have hdir := hdirs d hd
    rcases openCreate_spec h2 d with e | hn
    · rw [Tree.isDir, e]
      exact hdir
    · simp [Tree.isDir, hn] at hdir
  match n with
  | 0 =>
    cases hP
    exact ⟨hdirs, t1, rfl, .refl t1⟩
  | 1 =>
    obtain ⟨t2, h2, hP⟩ := doAll_cons.1 hP
    cases hP
    obtain ⟨q, data, mode, mtime, hq, hn⟩ := openCreate_file h2
    exact ⟨hopen P h2, P, doAll_cons.2 ⟨P, openCreate_of_file stamp' hq hn, rfl⟩, .refl P⟩
  | n + 2 =>
    obtain ⟨t2, h2, hP⟩ := doAll_cons.1 hP
    obtain ⟨t3, h3, hP⟩ := doAll_cons.1 hP
    rw [List.take_nil] at hP
    cases hP
    obtain ⟨q, data, mode, mtime, hq, hn, hnode⟩ := editFile_spec h3
    have hfile : P.node q = some (.file (f data) mode stamp.mtime) := by rw [hnode, if_pos rfl]
    obtain ⟨P', hP', -, hnode'⟩ := editFile_of_file stamp' (f := f) hq hfile
    refine ⟨?_, P', ?_, ?_⟩
    · intro d hd
      have hdir := hopen t2 h2 d hd
      have hne : d ≠ q := by
        rintro rfl
        simp [Tree.isDir, hn, Node.isDir] at hdir
      rw [Tree.isDir, hnode, if_neg hne]
      exact hdir
    · rw [List.take_succ_cons, List.take_succ_cons, List.take_nil]
      exact doAll_cons.2 ⟨P, openCreate_of_file stamp' hq hfile, doAll_cons.2 ⟨P', hP', rfl⟩⟩
    · intro r
      rw [hnode']
      split
      · rename_i hr
        rw [hr, hfile, hf]
        rfl
      · rfl

/-! ### Directories, links and renames -/

theorem againInDirs_mkdir (hp : t.Plain p) {mode : Nat} :
    AgainInDirs ds t [fun t => createDir w.toLinks mode t p] [fun t => createDir w.toLinks mode t p] := by
  intro t1 hadds hdirs n P hP
  match n with
  | 0 =>
    cases hP
    exact ⟨hdirs, t1, rfl, .refl t1⟩
  | n + 1 =>
    obtain ⟨t2, h2, hP⟩ := doAll_cons.1 hP
    rw [List.take_nil] at hP
    cases hP
    refine ⟨fun d hd => (createDir_adds h2).isDir (hdirs d hd), P, ?_, .refl P⟩
    rw [List.take_succ_cons, List.take_nil]
    refine doAll_cons.2 ⟨P, ?_, rfl⟩
    obtain ⟨q, hq, ⟨-, hplace⟩ | ⟨rfl, -⟩⟩ := createDir_cases h2
    · obtain rfl : p = q := Option.some.inj ((w.locate_plain t1 p (hadds.plain hp)).symm.trans hq)
      have hn : P.node p = some (.dir mode) := by rw [(Tree.place_eq_some hplace).2.2, if_pos rfl]
      simp only [createDir, w.locate_plain P p (Tree.plain_of_node (by simp [hn])), hn]
    · exact h2

theorem removeFile_plain (hp : t.Plain p) : removeFile w p t = some (if t.isDir p then t else t.drop p) := by
  simp only [removeFile, w.locate_plain t p hp]

/-- The directories of a path do not lie under it. -/
theorem isDir_drop {d : String} (hd : d ∈ ancestors p) (hdir : t.isDir d = true) : (t.drop p).isDir d = true := by
  have hb := mem_ancestors_iff.1 hd
  rw [Tree.isDir, Tree.node_drop, if_neg]
  · exact hdir
  · rintro (rfl | h)
    · rw [below_irrefl] at hb
      cases hb
    · have := below_trans hb h
      rw [below_irrefl] at this
      cases this

theorem plain_of_isDir (h : ∀ d ∈ ancestors p, t.isDir d = true) : t.Plain p :=
  fun d hd => Tree.isLink_of_isDir (h d (mem_ancestors_iff.2 hd))

theorem makeLink_spec {target : String} (hp : t.Plain p) (hc : makeLink w stamp p target t = some P) :
    t.node p = none ∧
      ∀ r, P.node r = if r = p then some (.symlink target stamp.linkMode stamp.mtime) else t.node r := by
  unfold makeLink at hc
  rw [w.locate_plain t p hp] at hc
  simp only at hc
  split at hc
  · rename_i hn
    exact ⟨hn, (Tree.place_eq_some hc).2.2⟩
  · cases hc

theorem makeLink_of_none (stamp : Stamp) (target : String) (hdirs : ∀ d ∈ ancestors p, t.isDir d = true)
    (hn : t.node p = none) :
    ∃ P, makeLink w stamp p target t = some P ∧
      ∀ r, P.node r = if r = p then some (.symlink target stamp.linkMode stamp.mtime) else t.node r := by
  obtain ⟨P, hP⟩ := Tree.place_isSome (.symlink target stamp.linkMode stamp.mtime)
    (fun d hd => hdirs d (mem_ancestors_iff.2 hd)) (by simp [Tree.isDir, hn])
  refine ⟨P, ?_, (Tree.place_eq_some hP).2.2⟩
  simp only [makeLink, w.locate_plain t p (plain_of_isDir hdirs), hn, if_true, hP]

theorem againInDirs_symlink (hm : stamp.SameModes stamp') {target : String} :
    AgainInDirs (ancestors p) t [removeFile w p, makeLink w stamp p target]
      [removeFile w p, makeLink w stamp' p target] := by
  intro t1 _ hdirs n P hP
  match n with
  | 0 =>
    cases hP
    exact ⟨hdirs, t1, rfl, .refl t1⟩
  | n + 1 =>
    obtain ⟨t2, h2, hP⟩ := doAll_cons.1 hP
    rw [removeFile_plain (plain_of_isDir hdirs)] at h2
    have hdirs2 : ∀ d ∈ ancestors p, t2.isDir d = true := by
      intro d hd
      obtain rfl := Option.some.inj h2
      split
      · exact hdirs d hd
      · exact isDir_drop hd (hdirs d hd)
    -- There is a directory, or there is nothing left.
    have hgone : t2.isDir p = true ∨ t2.node p = none := by
      obtain rfl := Option.some.inj h2
      split
      · rename_i hdir
        exact .inl hdir
      · exact .inr (by rw [Tree.node_drop, if_pos (.inl rfl)])
    have hplain2 := plain_of_isDir hdirs2
    match n with
    | 0 =>
      cases hP
      refine ⟨hdirs2, P, doAll_cons.2 ⟨P, ?_, rfl⟩, .refl P⟩
      rw [removeFile_plain hplain2]
      rcases hgone with hdir | hn
      · rw [if_pos hdir]
      · rw [if_neg (by simp [Tree.isDir, hn]), Tree.drop_of_none hn]
    | n + 1 =>
      obtain ⟨t3, h3, hP⟩ := doAll_cons.1 hP
      rw [List.take_nil] at hP
      cases hP
      obtain ⟨hn, hnode⟩ := makeLink_spec hplain2 h3
      have hback : P.drop p = t2 := by
        have hnd : P.isDir p = false := by simp [Tree.isDir, hnode, Node.isDir]
        refine Tree.ext_node fun q => ?_
        rw [Tree.node_drop_of_not_isDir hnd, hnode]
        split
        · rename_i hq
          rw [hq, hn]
        · rfl
      have hdirs3 : ∀ d ∈ ancestors p, P.isDir d = true := by
        intro d hd
        have hne : d ≠ p := by
          rintro rfl
          have hdir := hdirs2 d hd
          simp [Tree.isDir, hn] at hdir
        rw [Tree.isDir, hnode, if_neg hne]
        exact hdirs2 d hd
      obtain ⟨P', hP', hnode'⟩ := makeLink_of_none stamp' target hdirs2 hn
      refine ⟨hdirs3, P', ?_, ?_⟩
      · rw [List.take_succ_cons, List.take_succ_cons, List.take_nil]
        refine doAll_cons.2 ⟨t2, ?_, doAll_cons.2 ⟨P', hP', rfl⟩⟩
        rw [removeFile_plain (plain_of_isDir hdirs3), hback, if_neg (by simp [Tree.isDir, hnode, Node.isDir])]
      · intro r
        rw [hnode, hnode', hm.link]
        split <;> rfl

theorem againInDirs_rename {src dst : String} (hps : t.Plain src) (hpd : t.Plain dst) :
    AgainInDirs (ancestors dst) t [renameSeen w false src dst] [renameSeen w false src dst] := by
  intro t1 hadds hdirs n P hP
  match n with
  | 0 =>
    cases hP
    exact ⟨hdirs, t1, rfl, .refl t1⟩
  | n + 1 =>
    obtain ⟨t2, h2, hP⟩ := doAll_cons.1 hP
    rw [List.take_nil] at hP
    cases hP
    have hstay : renameSeen w false src dst t1 = some t1 → P = t1 → (∀ d ∈ ancestors dst, P.isDir d = true) ∧
        renameSeen w false src dst P = some P := by
      rintro h rfl
      exact ⟨hdirs, h⟩
    have hboth : (∀ d ∈ ancestors dst, P.isDir d = true) ∧ renameSeen w false src dst P = some P := by
      have hlookup : w.lookup t1 src = t1.node src := lookup_plain (hadds.plain hps)
      cases hn : t1.node src with
      | none =>
        have hsame : renameSeen w false src dst t1 = some t1 := by simp [renameSeen, hlookup, hn]
        exact hstay hsame (Option.some.inj (h2.symm.trans hsame))
      | some n =>
        have hmv : t1.rename src dst = some P := by
          simpa [renameSeen, hlookup, hn, w.locate_plain t1 src (hadds.plain hps),
            w.locate_plain t1 dst (hadds.plain hpd)] using h2
        by_cases hne : src = dst
        · subst hne
          obtain rfl := Tree.rename_self hmv
          exact hstay h2 rfl
        · have hm := Tree.moved_of_rename hne hmv
          have hgone : w.lookup P src = none := by rw [lookup_plain hm.plain_src, hm.node_src]
          refine ⟨fun d hd => ?_, by simp [renameSeen, hgone]⟩
          rw [Tree.isDir, hm.node_above (.inl (mem_ancestors_iff.1 hd))]
          exact hdirs d hd
    refine ⟨hboth.1, P, ?_, .refl P⟩
    rw [List.take_succ_cons, List.take_nil]
    exact doAll_cons.2 ⟨P, hboth.2, rfl⟩

/-! ### Metadata -/

theorem setPermissions_keeps {q : String} {n : Node} {mode : Nat} (hq : w.follow t p = some q) (hn : t.node q = some n)
    (hmode : ∀ m ∈ n.mode?, m = w.modeFor mode) : Keeps Tree.Same (setPermissions w p mode) t := by
  obtain ⟨P, hP⟩ := Tree.alter_isSome (Node.isDir_chmod (w.modeFor mode)) hn
  refine ⟨P, by simp only [setPermissions, hq, Option.bind_some, hP], Tree.same_of_alter hP fun n' hn' => ?_⟩
  obtain rfl : n = n' := Option.some.inj (hn.symm.trans hn')
  cases n with
  | other => rfl
  | _ =>
    obtain rfl := hmode _ rfl
    rfl

/-- Only the time is changed. -/
theorem setFileMtime_same {modified : Int} (hc : setFileMtime w p modified t = some P) : t.Same P := by
  obtain ⟨q, -, ha⟩ := Option.bind_eq_some_iff.1 hc
  refine Tree.same_of_alter ha fun n _ => ?_
  cases n <;> rfl

theorem setFileMtime_keeps {q : String} {n : Node} {modified : Int} (hq : w.follow t p = some q)
    (hn : t.node q = some n) : Keeps Tree.Same (setFileMtime w p modified) t := by
  obtain ⟨P, hP⟩ := Tree.alter_isSome (Node.isDir_utime (w.keptTime modified)) hn
  have hc : setFileMtime w p modified t = some P := by simp only [setFileMtime, hq, Option.bind_some, hP]
  exact ⟨P, hc, setFileMtime_same hc⟩

/-- Once set, mode and time are set again without effect. -/
theorem againSame_meta {cs : List (Tree → Option Tree)} {mode : Nat} {modified : Int}
    (hcs : ∀ c ∈ cs, c = setPermissions w p mode ∨ c = setFileMtime w p modified) : AgainSame t cs cs := by
  intro n P hP
  have hcs : ∀ c ∈ cs.take n, c = setPermissions w p mode ∨ c = setFileMtime w p modified :=
    fun c hc => hcs c (List.mem_of_mem_take hc)
  have hperm : ∀ t t', setPermissions w p mode t = some t' → Keeps Tree.Same (setPermissions w p mode) t' ∧
      Keeps Tree.Same (setFileMtime w p modified) t' := by
    intro t t' hc
    obtain ⟨-, q, n, hq, hn, hmode⟩ := setPermissions_spec hc
    exact ⟨setPermissions_keeps hq hn hmode, setFileMtime_keeps hq hn⟩
  have htime : ∀ t t', setFileMtime w p modified t = some t' → Keeps Tree.Same (setFileMtime w p modified) t' := by
    intro t t' hc
    obtain ⟨-, q, n, hq, hn, -⟩ := setFileMtime_spec hc
    exact setFileMtime_keeps hq hn
  refine doAll_keeps Tree.same_equivalence ?_ (keeps_of_doAll ?_ ?_ hP)
  · intro c hc
    rcases hcs c hc with rfl | rfl
    · exact setPermissions_alike w p mode
    · exact setFileMtime_alike w p modified
  · intro c hc t t' hct
    rcases hcs c hc with rfl | rfl
    · exact (hperm t t' hct).1
    · exact htime t t' hct
  · intro c hc c' hc' t t' hkeeps hct
    rcases hcs c' hc' with rfl | rfl
    · rcases hcs c hc with rfl | rfl
      · exact (hperm t t' hct).1
      · exact (hperm t t' hct).2
    · rcases hcs c hc with rfl | rfl
      · exact hkeeps.alike Tree.same_equivalence (setPermissions_alike w p mode) (setFileMtime_same hct)
      · exact htime t t' hct

end Again

/-! ## Operations that are handled again -/

/-- The paths an operation is about. -/
def JournalOp.paths : JournalOp → List String
  | .truncate p _ | .setMetadata p _ _ | .mkdir p | .symlink p _ | .remove p _ => [p]
  | .writeAt p _ _ | .writeBlob p _ _ => [p]
  | .rename src dst => [src, dst]

section Handling
variable {w : Walks} {blobs : String → Bytes} {op : JournalOp} {h h' : Handling} {t t' : Tree}

variable (w blobs) in
theorem calls_again (hplain : ∀ p ∈ op.paths, t.Plain p) (hm : h.stamp.SameModes h'.stamp) (hu : h.unseen = false)
    (hu' : h'.unseen = false) (hop : ∀ p dir, op ≠ .remove p dir) (u u' : Tree) :
    AgainSame t (op.calls w blobs h u) (op.calls w blobs h' u') := by
  have hin : ∀ {p : String} {cs cs' : List (Tree → Option Tree)}, t.Plain p → AgainInDirs (ancestors p) t cs cs' →
      AgainSame t (createDirAll w h.stamp (ancestors p) ++ cs) (createDirAll w h'.stamp (ancestors p) ++ cs') :=
    fun hp hcs => .in_dirs (plain_ancestors hp) (fun d hd => hp d (mem_ancestors_iff.1 hd)) hcs
  cases op with
  | truncate p size => exact hin (hplain p (by simp [JournalOp.paths])) (againInDirs_edit fun d => resize_resize d size)
  | setMetadata p mode modified =>
    have hcs : ∀ c ∈ (JournalOp.setMetadata p mode modified).calls w blobs h u, c = setPermissions w p (mode.getD 0) ∨
        c = setFileMtime w p (modified.getD 0) := by
      intro c hc
      rcases List.mem_append.1 hc with hc | hc
      · left
        split at hc
        · split at hc
          · cases hc
          · exact List.mem_singleton.1 hc
        · cases hc
      · right
        split at hc
        · split at hc
          · exact List.mem_singleton.1 hc
          · cases hc
        · cases hc
    exact againSame_meta hcs
  | mkdir p =>
    have hp := hplain p (by simp [JournalOp.paths])
    simp only [JournalOp.calls, createDirAll, List.map_append, List.map_cons, List.map_nil]
    refine hin hp ?_
    rw [hm.dir]
    exact againInDirs_mkdir hp
  | symlink p target => exact hin (hplain p (by simp [JournalOp.paths])) (againInDirs_symlink hm)
  | rename src dst =>
    simp only [JournalOp.calls, hu, hu']
    exact hin (hplain dst (by simp [JournalOp.paths]))
      (againInDirs_rename (hplain src (by simp [JournalOp.paths])) (hplain dst (by simp [JournalOp.paths])))
  | remove p dir => exact absurd rfl (hop p dir)
  | writeAt p offset data =>
    exact hin (hplain p (by simp [JournalOp.paths])) (againInDirs_edit fun d => Lib.writeAt_writeAt 0 d offset data)
  | writeBlob p offset blob =>
    exact hin (hplain p (by simp [JournalOp.paths]))
      (againInDirs_edit fun d => Lib.writeAt_writeAt 0 d offset (blobs blob))

theorem runCalls_eq (refused : Option Nat) (t : Tree) (cs : List (Tree → Option Tree)) :
    runCalls refused t cs = runSteps refused t cs := by
  induction cs generalizing refused t with
  | nil => rfl
  | cons c cs ih =>
    unfold runCalls runSteps
    split
    · rfl
    · split
      · rename_i hc
        rw [hc]
      · rename_i t' hc
        rw [hc]
        exact ih _ _

/-- Looking for the marker and writing it play no part. -/
theorem AgainSame.marked {cs cs' : List (Tree → Option Tree)} (hlen : cs.length = cs'.length) (h : AgainSame t cs cs') :
    AgainSame t (some :: cs ++ [some]) (some :: cs' ++ [some]) := by
  intro n P hP
  have hmark : ∀ (k : Nat) (t t' : Tree), doAll t (List.take k [some]) = some t' ↔ t = t' := by
    intro k t t'
    cases k <;> simp [doAll]
  cases n with
  | zero =>
    cases hP
    exact ⟨t, rfl, .refl t⟩
  | succ n =>
    rw [List.cons_append, List.take_succ_cons, doAll_cons] at hP
    obtain ⟨_, ⟨⟩, hP⟩ := hP
    rw [List.take_append, doAll_append] at hP
    obtain ⟨t1, h1, h2⟩ := hP
    obtain rfl := (hmark _ _ _).1 h2
    obtain ⟨P', hP', hsame⟩ := h n t1 h1
    refine ⟨P', ?_, hsame⟩
    rw [List.cons_append, List.take_succ_cons, doAll_cons]
    refine ⟨t1, rfl, ?_⟩
    rw [List.take_append, doAll_append, ← hlen]
    exact ⟨P', hP', (hmark _ _ _).2 rfl⟩

theorem marked_alike {cs cs' : List (Tree → Option Tree)} (h : List.Forall₂ (Alike Tree.Same) cs cs') :
    List.Forall₂ (Alike Tree.Same) (some :: cs ++ [some]) (some :: cs' ++ [some]) := by
  have hsome : Alike Tree.Same some some := fun _ _ h => .some h
  exact List.rel_append (.cons hsome h) (.cons hsome .nil)

/-! ### Removals -/

section Remove
variable {p : String} {dir : Bool}

theorem doAll_drops (t : Tree) (ps : List String) :
    ∃ t', doAll t (ps.map fun p t => some (Tree.drop t p)) = some t' := by
  induction ps generalizing t with
  | nil => exact ⟨t, rfl⟩
  | cons p ps ih =>
    obtain ⟨t', ht'⟩ := ih (t.drop p)
    exact ⟨t', doAll_cons.2 ⟨t.drop p, rfl, ht'⟩⟩

theorem doAll_removeDirAll (t : Tree) (q : String) : doAll t (removeDirAll t q) = some (t.drop q) := by
  obtain ⟨t', ht'⟩ := doAll_drops t ((t.paths.filter fun p => below q p).reverse ++ [q])
  obtain rfl := removeDirAll_drop ht'
  exact ht'

theorem handle_remove (hp : t.Plain p) (hu : h.unseen = false) (hr : h.refused = none) :
    handle w blobs h false t (.remove p dir) = removeRemote w.toLinks t p dir := by
  have hdone : ∀ {cs : List (Tree → Option Tree)} {t' : Tree}, doAll t cs = some t' →
      runSteps none t (some :: cs ++ [some]) = (t', true) := by
    intro cs t' hcs
    exact runSteps_append [some] (doAll_cons.2 ⟨t, rfl, hcs⟩)
  rw [handle, hr, runCalls_eq]
  simp only [Bool.false_eq_true, if_false, JournalOp.calls, removeCalls, hu, removeRemote, w.locate_plain t p hp]
  cases hn : t.node p with
  | none => exact hdone rfl
  | some n =>
    cases n with
    | dir mode =>
      cases dir with
      | true => exact hdone (doAll_removeDirAll t p)
      | false => rfl
    | _ => exact hdone rfl

theorem removeCalls_mem {c : Tree → Option Tree} (hp : t.Plain p) (hc : c ∈ removeCalls w h t p dir) :
    (c = fun _ => none) ∨
      ((t.isDir p = true → dir = true) ∧ ∃ q, (q = p ∨ below p q = true) ∧ c = fun u => some (u.drop q)) := by
  unfold removeCalls at hc
  rw [w.locate_plain t p hp] at hc
  split at hc
  · cases hc
  · simp only at hc
    split at hc
    · cases hc
    · split at hc
      · rename_i hdir
        right
        obtain ⟨q, hq, rfl⟩ := List.mem_map.1 hc
        refine ⟨fun _ => hdir, q, ?_, rfl⟩
        rcases List.mem_append.1 hq with hq | hq
        · exact .inr (List.mem_filter.1 (List.mem_reverse.1 hq)).2
        · exact .inl (List.mem_singleton.1 hq)
      · exact .inl (List.mem_singleton.1 hc)
    · rename_i n hnd hn
      right
      refine ⟨fun hdir => ?_, p, .inl rfl, List.mem_singleton.1 hc⟩
      rw [Tree.isDir, hn] at hdir
      cases n with
      | dir mode => exact absurd rfl (hnd mode)
      | _ => cases hdir

/-- What has been removed of what lies at a path and below it. -/
structure RemovedSome (p : String) (dir : Bool) (t u : Tree) : Prop where
  outside : ∀ r, ¬ (r = p ∨ below p r = true) → u.node r = t.node r
  here : u.node p = none ∨ u.node p = t.node p
  refused : t.isDir p = true → dir = false → u = t

theorem RemovedSome.drop {u : Tree} {q : String} (hs : RemovedSome p dir t u) (hd : t.isDir p = true → dir = true)
    (hq : q = p ∨ below p q = true) : RemovedSome p dir t (u.drop q) := by
  refine ⟨fun r hr => ?_, ?_, fun hdir hfalse => ?_⟩
  · rw [Tree.node_drop, if_neg]
    · exact hs.outside r hr
    · rintro (rfl | hb)
      · exact hr hq
      · rcases hq with rfl | hq
        · exact hr (.inr hb)
        · exact hr (.inr (below_trans hq hb))
  · rw [Tree.node_drop]
    split
    · exact .inl rfl
    · exact hs.here
  · rw [hd hdir] at hfalse
    cases hfalse

theorem handle_remove_some (hp : t.Plain p) : RemovedSome p dir t (handle w blobs h false t (.remove p dir)).1 := by
  refine runCalls_inv (R := RemovedSome p dir t) ?_ ⟨fun _ _ => rfl, .inr rfl, fun _ _ => rfl⟩
  intro c hc u u' hu hcu
  simp only [Bool.false_eq_true, if_false, JournalOp.calls, List.mem_append, List.mem_cons, List.not_mem_nil,
    or_false] at hc
  have hsome : c = some → RemovedSome p dir t u' := by
    rintro rfl
    cases hcu
    exact hu
  rcases hc with (hc | hc) | hc
  · exact hsome hc
  · rcases removeCalls_mem hp hc with rfl | ⟨hd, q, hq, rfl⟩
    · cases hcu
    · cases hcu
      exact hu.drop hd hq
  · exact hsome hc

theorem RemovedSome.plain {u : Tree} (hs : RemovedSome p dir t u) (hp : t.Plain p) : u.Plain p := by
  intro d hd
  rw [Tree.isLink, hs.outside d]
  · exact hp d hd
  · rintro (rfl | hb)
    · rw [below_irrefl] at hd
      cases hd
    · have := below_trans hd hb
      rw [below_irrefl] at this
      cases this

theorem RemovedSome.drop_eq {u : Tree} (hs : RemovedSome p dir t u) : u.drop p = t.drop p := by
  refine Tree.ext_node fun r => ?_
  rw [Tree.node_drop, Tree.node_drop]
  split
  · rfl
  · rename_i hr
    exact hs.outside r hr

/-- What is left is removed the second time. -/
theorem RemovedSome.again {u : Tree} (hs : RemovedSome p dir t u) (hp : t.Plain p) :
    removeRemote w.toLinks u p dir = removeRemote w.toLinks t p dir := by
  have hdrop := hs.drop_eq
  rw [removeRemote_spec hp, removeRemote_spec (hs.plain hp)]
  rcases hs.here with hn | he
  · rw [if_pos hn]
    have hu : u = t.drop p := (Tree.drop_of_none hn).symm.trans hdrop
    split
    · rename_i ht
      rw [hu, Tree.drop_of_none ht]
    · split
      · rename_i hdir
        have hgone : t.node p = none := hs.refused hdir.1 hdir.2 ▸ hn
        have hisDir := hdir.1
        simp [Tree.isDir, hgone] at hisDir
      · rw [hu]
  · rw [Tree.isDir, he, ← Tree.isDir, hdrop]
    split
    · rename_i ht
      rw [← Tree.drop_of_none (he.trans ht), hdrop, Tree.drop_of_none ht]
    · split
      · rename_i hdir
        rw [hs.refused hdir.1 hdir.2]
      · rfl

theorem removeRemote_same (hs : t.Same t') (hp : t.Plain p) :
    (removeRemote w.toLinks t p dir).1.Same (removeRemote w.toLinks t' p dir).1 ∧
      (removeRemote w.toLinks t p dir).2 = (removeRemote w.toLinks t' p dir).2 := by
  have hp' : t'.Plain p := fun d hd => by rw [hs.metaOnly.isLink, hp d hd]
  rw [removeRemote_spec hp, removeRemote_spec hp', hs.metaOnly.isDir]
  simp only [hs.metaOnly.node_none]
  split
  · exact ⟨hs, rfl⟩
  · split
    · exact ⟨hs, rfl⟩
    · exact ⟨Tree.drop_same hs p, rfl⟩

end Remove

theorem not_remove_of (hop : ¬ ∃ p dir, op = .remove p dir) (p : String) (dir : Bool) : op ≠ .remove p dir :=
  fun he => hop ⟨p, dir, he⟩

variable (h h') in
/-- Handled on trees that differ in times only. -/
theorem handle_alike (hplain : ∀ p dir, op = .remove p dir → t.Plain p) (hs : t.Same t')
    (hm : h.stamp.SameModes h'.stamp) (hu : h.unseen = false) (hu' : h'.unseen = false) (hr : h.refused = none) (hr' : h'.refused = none) :
    (handle w blobs h false t op).1.Same (handle w blobs h' false t' op).1 ∧
      (handle w blobs h false t op).2 = (handle w blobs h' false t' op).2 := by
  by_cases hop : ∃ p dir, op = .remove p dir
  · obtain ⟨p, dir, rfl⟩ := hop
    have hp := hplain p dir rfl
    have hp' : t'.Plain p := fun d hd => by rw [hs.metaOnly.isLink, hp d hd]
    rw [handle_remove hp hu hr, handle_remove hp' hu' hr']
    exact removeRemote_same hs hp
  · unfold handle
    rw [hr, hr', runCalls_eq, runCalls_eq]
    exact runSteps_alike (marked_alike (calls_alike w blobs hm (hu'.trans hu.symm) (not_remove_of hop) t t')) hs

/-- A request is handled up to some call, and again later: times apart, all is as if it had
been handled once. -/
theorem handle_again (hplain : ∀ p ∈ op.paths, t.Plain p) (hm : h.stamp.SameModes h'.stamp) (hu : h.unseen = false)
    (hu' : h'.unseen = false) (hr' : h'.refused = none) :
    (handle w blobs { h with refused := none } false t op).1.Same
        (handle w blobs h' false (handle w blobs h false t op).1 op).1 ∧
      (handle w blobs { h with refused := none } false t op).2 =
        (handle w blobs h' false (handle w blobs h false t op).1 op).2 := by
  by_cases hop : ∃ p dir, op = .remove p dir
  · obtain ⟨p, dir, rfl⟩ := hop
    have hp := hplain p (by simp [JournalOp.paths])
    have hsome : RemovedSome p dir t (handle w blobs h false t (.remove p dir)).1 := handle_remove_some hp
    have hfull : handle w blobs { h with refused := none } false t (.remove p dir) = removeRemote w.toLinks t p dir :=
      handle_remove hp hu rfl
    rw [hfull, handle_remove (hsome.plain hp) hu' hr', hsome.again hp]
    exact ⟨.refl _, rfl⟩
  · have hop := not_remove_of hop
    have hcalls := calls_alike w blobs hm (hu'.trans hu.symm) hop t (handle w blobs h false t op).1
    have hagain := (calls_again w blobs hplain hm hu hu' hop t (handle w blobs h false t op).1).marked
      hcalls.length_eq
    have hredo := redo (marked_alike hcalls) hagain h.refused
    unfold handle at hredo ⊢
    simp only [Bool.false_eq_true, if_false, runCalls_eq, hr'] at hredo ⊢
    exact hredo

end Handling

end Mobfs
