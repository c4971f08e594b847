import Mobfs.Daemon.Again
import Mobfs.Vfs.Mutate
/-!
# Replays of the journal

The journal keeps one operation of a call, and `apply_journal_op` sends the one request
for it. The action of a call sends this request too, and `create` and `mkdir` another one
for the mode, of which the journal knows nothing.

`replay_same_iff` says when this makes no difference, however far the action has come.
-/

namespace Mobfs

open Lib Std

section Replays
variable (w : Walks) (blobs : String → Bytes)

/-- The requests of an action, one after the other, up to the first that fails. -/
def runAction : List (JournalOp × Handling) → Tree → Tree × Bool
  | [], t => (t, true)
  | (op, h) :: rest, t =>
    let r := handle w blobs h false t op
    if r.2 then runAction rest r.1 else r

/-- The request for the operation itself, with an op id of its own. -/
def applyJournalOp (h : Handling) (t : Tree) (op : JournalOp) : Tree × Bool := handle w blobs h false t op

/-- Every call is let through. -/
def Handling.full (stamp : Stamp) : Handling := ⟨stamp, false, none⟩

/-- However many requests of the action are sent and however far the last of them is
handled, the replay makes of the tree what the whole action would have made of it. Each
request has a time of its own. -/
def ReplaySame (stamp : Stamp) (op : JournalOp) (mode : Option Nat) (t : Tree) : Prop :=
  ∀ (fares : List Handling) (later : Stamp), (∀ h ∈ fares, h.unseen = false ∧ stamp.SameModes h.stamp) →
    stamp.SameModes later →
      (runAction w blobs ((action op mode).map fun o => (o, .full stamp)) t).1.Same
        (applyJournalOp w blobs (.full later) (runAction w blobs ((action op mode).zip fares) t).1 op).1

/-- The mode of what a path leads to. -/
def Walks.modeAt (t : Tree) (p : String) : Option Nat := ((w.follow t p).bind t.node).bind Node.mode?

/-- The directories of a path are there or can be made. -/
def Tree.Clear (t : Tree) (p : String) : Prop := ∀ d ∈ ancestors p, t.node d = none ∨ t.isDir d = true

instance (t : Tree) (p : String) : Decidable (t.Clear p) :=
  inferInstanceAs (Decidable (∀ d ∈ ancestors p, t.node d = none ∨ t.isDir d = true))

/-- The mode that a file or directory has when it has been created, if it can be created
in the tree and `create` or `mkdir` does it. -/
def Walks.createdMode (stamp : Stamp) (t : Tree) : JournalOp → Option Nat
  | .truncate p 0 =>
    if t.Clear p then
      match w.follow t p with
      | none => none
      | some q =>
        match t.node q with
        | none => if t.isLink p = false ∨ ∀ d ∈ ancestors q, t.isDir d = true then some stamp.fileMode else none
        | some (.file _ mode _) => some mode
        | some _ => none
    else none
  | .mkdir p =>
    if t.Clear p then
      match t.node p with
      | none => some stamp.dirMode
      | some (.dir mode) => some mode
      | some (.symlink _ _ _) => if w.leadsToDir t p then w.modeAt t p else none
      | some _ => none
    else none
  | _ => none

end Replays

/-! ## The directories of a path -/

section Created
variable {w : Walks} {blobs : String → Bytes} {stamp stamp' : Stamp} {t t' : Tree} {p : String}

theorem createDirs_iff (w : Walks) (mode : Nat) (hp : t.Plain p) :
    (∃ t1, createDirs w.toLinks mode t (ancestors p) = some t1) ↔ t.Clear p := by
  constructor
  · rintro ⟨t1, h1⟩ d hd
    have hdir := createDirs_isDir (plain_ancestors hp) (fun d hd => hp d (mem_ancestors_iff.1 hd)) h1 d hd
    rcases (createDirs_spec (plain_ancestors hp) h1).1 d with e | ⟨-, hn, -⟩
    · rw [Tree.isDir, e] at hdir
      exact .inr hdir
    · exact .inl hn
  · intro hclear
    refine createDirs_ok w.toLinks mode ?_ ?_ hclear
    · exact (List.pairwise_append.1 (ancestors_ordered p)).1
    · intro d hd e he
      exact .inr (mem_ancestors_iff.2 (below_trans he (mem_ancestors_iff.1 hd)))

theorem AddsDirs.self (h : AddsDirs t t' (· ∈ ancestors p)) : t'.node p = t.node p := by
  rcases h p with e | ⟨hd, -, -⟩
  · exact e
  · have hb := mem_ancestors_iff.1 hd
    rw [below_irrefl] at hb
    cases hb

/-- The directories of a link are there. -/
theorem dirs_of_link (hl : t.isLink p = true) : ∀ d ∈ ancestors p, t.isDir d = true := by
  intro d hd
  refine Tree.isDir_of_below (mem_ancestors_iff.1 hd) ?_
  intro hn
  simp [Tree.isLink, hn] at hl

/-! ## What is created -/

theorem openEdit_spec {f : Bytes → Bytes} (hc : doAll t [openCreate w stamp p, editFile w stamp p f] = some t') :
    ∃ q data mode mtime, w.follow t p = some q ∧ w.follow t' p = some q ∧ t'.node q = some (.file data mode mtime) ∧
      ((t.node q = none ∧ (∀ d ∈ ancestors q, t.isDir d = true) ∧ mode = stamp.fileMode) ∨
        ∃ old mtime', t.node q = some (.file old mode mtime')) := by
  obtain ⟨t2, h2, hc⟩ := doAll_cons.1 hc
  obtain ⟨t3, h3, hc⟩ := doAll_cons.1 hc
  cases hc
  have hedit : ∀ {q data mode mtime}, w.follow t2 p = some q → t2.node q = some (.file data mode mtime) →
      w.follow t' p = some q ∧ t'.node q = some (.file (f data) mode stamp.mtime) := by
    intro q data mode mtime hq hn
    obtain ⟨u, hu, hqu, hnode⟩ := editFile_of_file stamp (f := f) hq hn
    obtain rfl : t' = u := Option.some.inj (h3.symm.trans hu)
    exact ⟨hqu, by rw [hnode, if_pos rfl]⟩
  unfold openCreate at h2
  split at h2
  · cases h2
  · rename_i q hq
    split at h2
    · rename_i hn
      obtain ⟨hdirs, -, hnode⟩ := Tree.place_eq_some h2
      have hlink : t.isLink q = false := by simp [Tree.isLink, hn]
      have hq2 := w.follow_place t t2 p q _ hq hlink rfl h2
      obtain ⟨hq', hn'⟩ := hedit hq2 (by rw [hnode, if_pos rfl])
      exact ⟨q, _, _, _, hq, hq', hn', .inl ⟨hn, fun d hd => hdirs d (mem_ancestors_iff.1 hd), rfl⟩⟩
    · rename_i data mode mtime hn
      cases h2
      obtain ⟨hq', hn'⟩ := hedit hq hn
      exact ⟨q, _, _, _, hq, hq', hn', .inr ⟨data, mtime, hn⟩⟩
    · cases h2

theorem openEdit_isSome (stamp : Stamp) (f : Bytes → Bytes) {q : String} (hq : w.follow t p = some q)
    (hn : (t.node q = none ∧ ∀ d ∈ ancestors q, t.isDir d = true) ∨
      ∃ data mode mtime, t.node q = some (.file data mode mtime)) :
    ∃ t', doAll t [openCreate w stamp p, editFile w stamp p f] = some t' := by
  have hopen : ∃ t2 data mode mtime, openCreate w stamp p t = some t2 ∧ w.follow t2 p = some q ∧
      t2.node q = some (.file data mode mtime) := by
    rcases hn with ⟨hn, hdirs⟩ | ⟨data, mode, mtime, hn⟩
    · obtain ⟨t2, h2⟩ := Tree.place_isSome (.file [] stamp.fileMode stamp.mtime)
        (fun d hd => hdirs d (mem_ancestors_iff.2 hd)) (by simp [Tree.isDir, hn])
      have hlink : t.isLink q = false := by simp [Tree.isLink, hn]
      exact ⟨t2, _, _, _, by simp only [openCreate, hq, hn, h2], w.follow_place t t2 p q _ hq hlink rfl h2,
        by rw [(Tree.place_eq_some h2).2.2, if_pos rfl]⟩
    · exact ⟨t, data, mode, mtime, openCreate_of_file stamp hq hn, hq, hn⟩
  obtain ⟨t2, data, mode, mtime, h2, hq2, hn2⟩ := hopen
  obtain ⟨t3, h3, -⟩ := editFile_of_file stamp (f := f) hq2 hn2
  exact ⟨t3, doAll_cons.2 ⟨t2, h2, doAll_cons.2 ⟨t3, h3, rfl⟩⟩⟩

/-- Where a path leads is the same after its directories have been made. -/
theorem follow_createDirs {mode : Nat} {t1 : Tree} (hp : t.Plain p)
    (h1 : createDirs w.toLinks mode t (ancestors p) = some t1) :
    (t.isLink p = false ∧ w.follow t p = some p ∧ w.follow t1 p = some p ∧ t1.node p = t.node p) ∨
      (t.isLink p = true ∧ t1 = t) := by
  have ha := (createDirs_spec (plain_ancestors hp) h1).1
  cases hl : t.isLink p with
  | false =>
    have hl1 : t1.isLink p = false := by rw [ha.isLink, hl]
    exact .inl ⟨rfl, follow_plain hp hl, follow_plain (ha.plain hp) hl1, ha.self⟩
  | true => exact .inr ⟨rfl, Option.some.inj (h1.symm.trans (createDirs_of_isDir (dirs_of_link hl)))⟩

variable {h : Handling} {u : Tree}

theorem modeAt_of_node {q : String} {n : Node} (hq : w.follow t p = some q) (hn : t.node q = some n) :
    w.modeAt t p = n.mode? := by
  simp only [Walks.modeAt, hq, Option.bind_some, hn]

theorem createdMode_truncate (hp : t.Plain p) (hm : stamp.SameModes h.stamp)
    (hc : doAll t ((JournalOp.truncate p 0).calls w blobs h u) = some t') :
    w.modeAt t' p = w.createdMode stamp t (.truncate p 0) := by
  obtain ⟨t1, h1, hc⟩ := doAll_append.1 hc
  rw [doAll_createDirAll] at h1
  have hclear := (createDirs_iff w _ hp).1 ⟨t1, h1⟩
  obtain ⟨q, data, mode, mtime, hq1, hq', hn', hcases⟩ := openEdit_spec hc
  rw [modeAt_of_node hq' hn', Walks.createdMode, if_pos hclear]
  have hsame : w.follow t p = some q ∧ t.node q = t1.node q ∧ (t.isLink p = false ∨ t1 = t) := by
    rcases follow_createDirs hp h1 with ⟨hl, hq, hq1', hn⟩ | ⟨-, rfl⟩
    · obtain rfl : p = q := Option.some.inj (hq1'.symm.trans hq1)
      exact ⟨hq, hn.symm, .inl hl⟩
    · exact ⟨hq1, rfl, .inr rfl⟩
  obtain ⟨hq, hn, hl⟩ := hsame
  rcases hcases with ⟨hn1, hdirs, rfl⟩ | ⟨old, mtime', hn1⟩
  · have hcan : t.isLink p = false ∨ ∀ d ∈ ancestors q, t.isDir d = true := by
      rcases hl with hl | rfl
      · exact .inl hl
      · exact .inr hdirs
    simp only [hq, hn, hn1, if_pos hcan, hm.file, Node.mode?]
  · simp only [hq, hn, hn1, Node.mode?]

theorem createdMode_mkdir (hp : t.Plain p) (hm : stamp.SameModes h.stamp)
    (hc : doAll t ((JournalOp.mkdir p).calls w blobs h u) = some t') :
    w.modeAt t' p = w.createdMode stamp t (.mkdir p) := by
  simp only [JournalOp.calls, createDirAll, List.map_append, List.map_cons, List.map_nil] at hc
  obtain ⟨t1, h1, hc⟩ := doAll_append.1 hc
  obtain ⟨t2, h2, hc⟩ := doAll_cons.1 hc
  cases hc
  have h1 : createDirs w.toLinks h.stamp.dirMode t (ancestors p) = some t1 := doAll_createDirAll.symm.trans h1
  have hclear := (createDirs_iff w _ hp).1 ⟨t1, h1⟩
  have ha := (createDirs_spec (plain_ancestors hp) h1).1
  rw [Walks.createdMode, if_pos hclear]
  obtain ⟨q, hq, hcases⟩ := createDir_cases h2
  obtain rfl : p = q := Option.some.inj ((w.locate_plain t1 p (ha.plain hp)).symm.trans hq)
  rw [ha.self] at hcases
  rcases hcases with ⟨hn, hplace⟩ | ⟨rfl, n, hn, hdir | ⟨hlink, hl⟩⟩
  · have hn' : t'.node p = some (.dir h.stamp.dirMode) := by rw [(Tree.place_eq_some hplace).2.2, if_pos rfl]
    have hl' : t'.isLink p = false := by simp [Tree.isLink, hn', Node.isLink]
    rw [modeAt_of_node (follow_plain (Tree.plain_of_node (by simp [hn'])) hl') hn']
    simp only [hn, Node.mode?, hm.dir]
  · have hl' : t'.isLink p = false := by
      rw [ha.isLink]
      exact Tree.isLink_of_isDir (Tree.isDir_iff.2 ⟨n, hn, hdir⟩)
    rw [modeAt_of_node (follow_plain (ha.plain hp) hl') (ha.self.trans hn)]
    cases n with
    | dir mode => simp only [hn, Node.mode?]
    | _ => cases hdir
  · have hlt : t.isLink p = true := by simp [Tree.isLink, hn, hlink]
    rcases follow_createDirs hp h1 with ⟨hl', -⟩ | ⟨-, rfl⟩
    · rw [hlt] at hl'
      cases hl'
    · cases n with
      | symlink target mode mtime => simp only [hn, hl, if_true]
      | _ => cases hlink

theorem calls_of_createdMode_truncate {mode : Nat} (hp : t.Plain p)
    (hmode : w.createdMode stamp t (.truncate p 0) = some mode) :
    ∃ t', doAll t ((JournalOp.truncate p 0).calls w blobs h u) = some t' := by
  rw [Walks.createdMode] at hmode
  split at hmode
  · rename_i hclear
    obtain ⟨t1, h1⟩ := (createDirs_iff w h.stamp.dirMode hp).2 hclear
    have hfile : ∃ q, w.follow t1 p = some q ∧ ((t1.node q = none ∧ ∀ d ∈ ancestors q, t1.isDir d = true) ∨
        ∃ data mode mtime, t1.node q = some (.file data mode mtime)) := by
      split at hmode
      · cases hmode
      · rename_i q hq
        rcases follow_createDirs hp h1 with ⟨hl, hqp, hq1, hn1⟩ | ⟨hl, rfl⟩
        · obtain rfl : q = p := Option.some.inj (hq.symm.trans hqp)
          refine ⟨q, hq1, ?_⟩
          rw [hn1]
          split at hmode
          · rename_i hn
            refine .inl ⟨hn, createDirs_isDir (plain_ancestors hp) (fun d hd => hp d (mem_ancestors_iff.1 hd)) h1⟩
          · rename_i hn
            exact .inr ⟨_, _, _, hn⟩
          · cases hmode
        · refine ⟨q, hq, ?_⟩
          split at hmode
          · rename_i hn
            split at hmode
            · rename_i hcan
              exact .inl ⟨hn, hcan.resolve_left (by simp [hl])⟩
            · cases hmode
          · rename_i hn
            exact .inr ⟨_, _, _, hn⟩
          · cases hmode
    obtain ⟨q, hq, hn⟩ := hfile
    obtain ⟨t', ht'⟩ := openEdit_isSome h.stamp (resize · 0) hq hn
    exact ⟨t', doAll_append.2 ⟨t1, doAll_createDirAll.trans h1, ht'⟩⟩
  · cases hmode

theorem calls_of_createdMode_mkdir {mode : Nat} (hp : t.Plain p)
    (hmode : w.createdMode stamp t (.mkdir p) = some mode) :
    ∃ t', doAll t ((JournalOp.mkdir p).calls w blobs h u) = some t' := by
  rw [Walks.createdMode] at hmode
  split at hmode
  · rename_i hclear
    obtain ⟨t1, h1⟩ := (createDirs_iff w h.stamp.dirMode hp).2 hclear
    have ha := (createDirs_spec (plain_ancestors hp) h1).1
    have hdirs := createDirs_isDir (plain_ancestors hp) (fun d hd => hp d (mem_ancestors_iff.1 hd)) h1
    have hmake : ∃ t', createDir w.toLinks h.stamp.dirMode t1 p = some t' := by
      have hok : t.node p = none ∨ t.isDir p = true →
          ∃ t', createDir w.toLinks h.stamp.dirMode t1 p = some t' := by
        intro hn
        refine createDir_ok w.toLinks _ (fun e he => hdirs e (mem_ancestors_iff.2 he)) ?_
        rwa [Tree.isDir, ha.self]
      split at hmode
      · rename_i hn
        exact hok (.inl hn)
      · rename_i hn
        exact hok (.inr (Tree.isDir_iff.2 ⟨_, hn, rfl⟩))
      · rename_i hn
        split at hmode
        · rename_i hl
          have hlt : t.isLink p = true := by simp [Tree.isLink, hn, Node.isLink]
          rcases follow_createDirs hp h1 with ⟨hl', -⟩ | ⟨-, rfl⟩
          · rw [hlt] at hl'
            cases hl'
          · exact ⟨t1, by simp only [createDir, w.locate_plain t1 p hp, hn, hl, if_true]⟩
        · cases hmode
      · cases hmode
    obtain ⟨t', ht'⟩ := hmake
    refine ⟨t', ?_⟩
    simp only [JournalOp.calls, createDirAll, List.map_append, List.map_cons, List.map_nil]
    exact doAll_append.2 ⟨t1, doAll_createDirAll.trans h1, doAll_cons.2 ⟨t', ht', rfl⟩⟩
  · cases hmode

end Created

/-! ## The request for the mode -/

section Mode
variable {w : Walks} {blobs : String → Bytes} {h : Handling} {op : JournalOp} {t t' : Tree} {p : String} {m : Nat}

theorem handle_ok (hok : (handle w blobs h false t op).2 = true) :
    doAll t (op.calls w blobs h t) = some (handle w blobs h false t op).1 := by
  unfold handle at hok ⊢
  rw [runCalls_eq] at hok ⊢
  have hall := runSteps_true hok
  simp only [Bool.false_eq_true, if_false, List.cons_append] at hall ⊢
  obtain ⟨_, ⟨⟩, hall⟩ := doAll_cons.1 hall
  obtain ⟨t1, h1, hall⟩ := doAll_append.1 hall
  rw [h1]
  exact hall

theorem handle_of_doAll (hr : h.refused = none) (hc : doAll t (op.calls w blobs h t) = some t') :
    handle w blobs h false t op = (t', true) := by
  rw [handle, hr, runCalls_eq]
  exact runSteps_append [some] (doAll_cons.2 ⟨t, rfl, hc⟩)

theorem setPermissions_same (hmode : ∀ old ∈ w.modeAt t p, old = w.modeFor m) (hc : setPermissions w p m t = some t') :
    t.Same t' := by
  obtain ⟨q, hq, ha⟩ := Option.bind_eq_some_iff.1 hc
  refine Tree.same_of_alter ha fun n hn => ?_
  rw [modeAt_of_node hq hn] at hmode
  cases n with
  | other => rfl
  | _ =>
    obtain rfl := hmode _ rfl
    rfl

/-- A mode that is there already is set without effect, and so is mode zero. -/
theorem handle_setMode_same (h : Handling) (hm : m = 0 ∨ ∀ old ∈ w.modeAt t p, old = w.modeFor m) :
    t.Same (handle w blobs h false t (.setMetadata p (some m) none)).1 := by
  refine runCalls_inv (R := t.Same) ?_ (.refl t)
  intro c hc t1 t2 h1 hct
  simp only [Bool.false_eq_true, if_false, JournalOp.calls, List.mem_append, List.mem_cons, List.not_mem_nil,
    or_false] at hc
  have hsome : c = some → t.Same t2 := by
    rintro rfl
    cases hct
    exact h1
  rcases hc with (hc | hc) | hc
  · exact hsome hc
  · split at hc
    · cases hc
    · rename_i hm0
      obtain rfl := List.mem_singleton.1 hc
      obtain ⟨u, hu, hsame⟩ := (setPermissions_alike w p m).some h1.symm hct
      exact (setPermissions_same (hm.resolve_left hm0) hu).trans hsame.symm
  · exact hsome hc

theorem setMode_of_same (hr : h.refused = none)
    (hs : t.Same (handle w blobs h false t (.setMetadata p (some m) none)).1) :
    m = 0 ∨ ∀ old ∈ w.modeAt t p, old = w.modeFor m := by
  by_cases hm : m = 0
  · exact .inl hm
  · right
    intro old hold
    obtain ⟨n, hn, hmode⟩ := Option.bind_eq_some_iff.1 hold
    obtain ⟨q, hq, hn⟩ := Option.bind_eq_some_iff.1 hn
    obtain ⟨u, hu⟩ := Tree.alter_isSome (Node.isDir_chmod (w.modeFor m)) hn
    have hcall : doAll t ((JournalOp.setMetadata p (some m) none).calls w blobs h t) = some u := by
      simp only [JournalOp.calls, if_neg hm, List.append_nil]
      exact doAll_cons.2 ⟨u, by simp only [setPermissions, hq, Option.bind_some, hu], rfl⟩
    rw [handle_of_doAll hr hcall] at hs
    obtain ⟨n', hn', hnode⟩ := Tree.alter_eq_some hu
    obtain rfl : n = n' := Option.some.inj (hn.symm.trans hn')
    have hsame := hs q
    rw [hnode, if_pos rfl, hn] at hsame
    have hmodes : (n.chmod (w.modeFor m)).mode? = some old := by
      rw [← hmode, ← Node.mode?_utime 0 n, ← Node.mode?_utime 0 (n.chmod (w.modeFor m))]
      exact congrArg Node.mode? (Option.some.inj hsame)
    cases n with
    | other => cases hmode
    | _ => exact (Option.some.inj hmodes).symm

end Mode

/-! ## Replays -/

section Main
variable {w : Walks} {blobs : String → Bytes} {stamp : Stamp} {op : JournalOp} {t : Tree}

theorem Stamp.SameModes.refl (stamp : Stamp) : stamp.SameModes stamp := ⟨rfl, rfl, rfl⟩

theorem Stamp.SameModes.symm {stamp' : Stamp} (h : stamp.SameModes stamp') : stamp'.SameModes stamp :=
  ⟨h.file.symm, h.dir.symm, h.link.symm⟩

theorem Stamp.SameModes.trans {stamp' stamp'' : Stamp} (h : stamp.SameModes stamp') (h' : stamp'.SameModes stamp'') :
    stamp.SameModes stamp'' :=
  ⟨h'.file.trans h.file, h'.dir.trans h.dir, h'.link.trans h.link⟩

/-- The operation makes an entry that is given a mode besides. -/
def JournalOp.Creates (p : String) (op : JournalOp) : Prop := op = .truncate p 0 ∨ op = .mkdir p

theorem action_created (op : JournalOp) (mode : Option Nat) :
    (action op mode = [op] ∧ ∀ m, mode = some m → w.createdMode stamp t op = none) ∨
      ∃ p m, mode = some m ∧ op.Creates p ∧ action op mode = [op, .setMetadata p (some m) none] := by
  unfold action
  split
  · rename_i p m
    exact .inr ⟨p, m, rfl, .inl rfl, rfl⟩
  · rename_i p m
    exact .inr ⟨p, m, rfl, .inr rfl, rfl⟩
  · rename_i htrunc hmkdir
    refine .inl ⟨rfl, fun m hm => ?_⟩
    unfold Walks.createdMode
    split
    · exact absurd hm (htrunc _ m rfl)
    · exact absurd hm (hmkdir _ m rfl)
    · rfl

theorem calls_of_createdMode {p : String} {h : Handling} {u : Tree} {mode : Nat} (hop : op.Creates p) (hp : t.Plain p)
    (hmode : w.createdMode stamp t op = some mode) : ∃ t', doAll t (op.calls w blobs h u) = some t' := by
  rcases hop with rfl | rfl
  · exact calls_of_createdMode_truncate hp hmode
  · exact calls_of_createdMode_mkdir hp hmode

theorem createdMode_eq {p : String} {h : Handling} {t' : Tree} (hop : op.Creates p) (hp : t.Plain p)
    (hm : stamp.SameModes h.stamp) (hc : doAll t (op.calls w blobs h t) = some t') :
    w.modeAt t' p = w.createdMode stamp t op := by
  rcases hop with rfl | rfl
  · exact createdMode_truncate hp hm hc
  · exact createdMode_mkdir hp hm hc

theorem plain_of_remove (hplain : ∀ p ∈ op.paths, t.Plain p) (p : String) (dir : Bool) (he : op = .remove p dir) :
    t.Plain p :=
  hplain p (by simp [he, JournalOp.paths])

theorem replay_untouched (hplain : ∀ p ∈ op.paths, t.Plain p) {later : Stamp} (hl : stamp.SameModes later) :
    (handle w blobs (.full stamp) false t op).1.Same (applyJournalOp w blobs (.full later) t op).1 :=
  (handle_alike (.full stamp) (.full later) (plain_of_remove hplain) (.refl t) hl rfl rfl rfl rfl).1

/-- The replay of an operation whose request was handled up to some call. -/
theorem replay_handled (hplain : ∀ p ∈ op.paths, t.Plain p) {h : Handling} (hu : h.unseen = false)
    (hm : stamp.SameModes h.stamp) {later : Stamp} (hl : stamp.SameModes later) :
    (handle w blobs (.full stamp) false t op).1.Same
      (applyJournalOp w blobs (.full later) (handle w blobs h false t op).1 op).1 := by
  have hstamp : (handle w blobs (.full stamp) false t op).1.Same
      (handle w blobs { h with refused := none } false t op).1 :=
    (handle_alike (.full stamp) { h with refused := none } (plain_of_remove hplain) (.refl t) hm rfl hu rfl rfl).1
  have hagain : (handle w blobs { h with refused := none } false t op).1.Same
      (applyJournalOp w blobs (.full later) (handle w blobs h false t op).1 op).1 :=
    (handle_again hplain (hm.symm.trans hl) hu rfl rfl).1
  exact hstamp.trans hagain

/-- The mode that the second request sets is there. -/
theorem setMode_kept {p : String} {m : Nat} {h : Handling} (hop : op.Creates p) (hp : t.Plain p)
    (hm : stamp.SameModes h.stamp) (hmode : m = 0 ∨ ∀ old ∈ w.createdMode stamp t op, old = w.modeFor m)
    (hok : (handle w blobs h false t op).2 = true) (h' : Handling) :
    (handle w blobs h false t op).1.Same
      (handle w blobs h' false (handle w blobs h false t op).1 (.setMetadata p (some m) none)).1 := by
  refine handle_setMode_same h' ?_
  rwa [createdMode_eq hop hp hm (handle_ok hok)]

theorem runAction_one {h : Handling} : (runAction w blobs [(op, h)] t).1 = (handle w blobs h false t op).1 := by
  rw [runAction]
  cases hok : (handle w blobs h false t op).2 <;> simp [runAction]

/-- The first of two requests, up to some call, or both. -/
theorem runAction_pair {o : JournalOp} (fares : List Handling) (P : Tree → Prop) (hnone : P t)
    (hone : ∀ h ∈ fares, P (handle w blobs h false t op).1)
    (htwo : ∀ h ∈ fares, ∀ h' ∈ fares, (handle w blobs h false t op).2 = true →
      P (handle w blobs h' false (handle w blobs h false t op).1 o).1) :
    P (runAction w blobs ([op, o].zip fares) t).1 := by
  match fares with
  | [] => exact hnone
  | h :: fares =>
    rw [List.zip_cons_cons, runAction]
    split
    · rename_i hok
      match fares with
      | [] => exact hone h List.mem_cons_self
      | h' :: fares =>
        have h2 := htwo h List.mem_cons_self h' (List.mem_cons_of_mem _ List.mem_cons_self) hok
        rw [List.zip_cons_cons, runAction]
        split
        · exact h2
        · exact h2
    · exact hone h List.mem_cons_self

/-- One request is all there is. -/
theorem replay_one {mode : Option Nat} (hplain : ∀ p ∈ op.paths, t.Plain p) (hact : action op mode = [op]) :
    ReplaySame w blobs stamp op mode t := by
  intro fares later hfares hl
  rw [hact, List.map_singleton, runAction_one]
  match fares with
  | [] => exact replay_untouched hplain hl
  | h :: fares =>
    obtain ⟨hu, hm⟩ := hfares h List.mem_cons_self
    rw [List.zip_cons_cons, List.zip_nil_left, runAction_one]
    exact replay_handled hplain hu hm hl

theorem replay_two {p : String} {m : Nat} (hplain : ∀ p ∈ op.paths, t.Plain p) (hop : op.Creates p) (hp : t.Plain p)
    (hact : action op (some m) = [op, .setMetadata p (some m) none])
    (hmode : m = 0 ∨ ∀ old ∈ w.createdMode stamp t op, old = w.modeFor m) : ReplaySame w blobs stamp op (some m) t := by
  intro fares later hfares hl
  rw [hact]
  have hfull : (runAction w blobs ([op, .setMetadata p (some m) none].map fun o => (o, .full stamp)) t).1.Same
      (handle w blobs (.full stamp) false t op).1 := by
    rw [List.map_cons, List.map_singleton, runAction]
    split
    · rename_i hok
      rw [runAction_one]
      exact (setMode_kept hop hp (.refl stamp) hmode hok _).symm
    · exact .refl _
  refine hfull.trans ?_
  refine runAction_pair fares (fun P => (handle w blobs (.full stamp) false t op).1.Same
    (applyJournalOp w blobs (.full later) P op).1) (replay_untouched hplain hl) ?_ ?_
  · intro h hh
    exact replay_handled hplain (hfares h hh).1 (hfares h hh).2 hl
  · intro h hh h' _ hok
    refine (replay_handled hplain (hfares h hh).1 (hfares h hh).2 hl).trans ?_
    refine (handle_alike (.full later) (.full later) ?_ (setMode_kept hop hp (hfares h hh).2 hmode hok h') (.refl later)
      rfl rfl rfl rfl).1
    rintro q dir rfl
    rcases hop with ⟨⟨⟩⟩ | ⟨⟨⟩⟩

/-- The replay of a journaled operation comes to what its action comes to if and only if
`create` or `mkdir` is asked for the mode that the entry has anyway. -/
theorem replay_same_iff (w : Walks) (blobs : String → Bytes) (stamp : Stamp) (mode : Option Nat)
    (hplain : ∀ p ∈ op.paths, t.Plain p) :
    ReplaySame w blobs stamp op mode t ↔ ∀ m, mode = some m → m = 0 ∨ ∀ old ∈ w.createdMode stamp t op, old = w.modeFor m := by
  rcases action_created op mode with ⟨hact, hnone⟩ | ⟨p, m, rfl, hop, hact⟩
  · refine iff_of_true (replay_one hplain hact) fun m hm => ?_
    rw [hnone m hm]
    exact .inr fun old hold => by cases hold
  · have hp : t.Plain p := hplain p (by rcases hop with rfl | rfl <;> simp [JournalOp.paths])
    refine ⟨?_, fun hmode => replay_two hplain hop hp hact (hmode m rfl)⟩
    rintro hsame _ ⟨⟩
    by_cases hok : (handle w blobs (.full stamp) false t op).2 = true
    · -- The replay of an action that has not started.
      have hs := hsame [] stamp (fun h hh => absurd hh List.not_mem_nil) (.refl stamp)
      rw [hact, List.map_cons, List.map_singleton, runAction, if_pos hok, runAction_one] at hs
      rw [← createdMode_eq hop hp (.refl stamp) (handle_ok hok)]
      exact setMode_of_same rfl hs.symm
    · refine .inr fun old hold => absurd ?_ hok
      obtain ⟨t', ht'⟩ := calls_of_createdMode (h := .full stamp) (u := t) hop hp hold
      rw [handle_of_doAll rfl ht']

end Main

/-- A file that is created with the mode it would have anyway. -/
theorem replay_same_plain_mode : ReplaySame textWalks noBlobs letThrough.stamp (.truncate "a" 0) (some 420) .empty := by
  refine (replay_same_iff textWalks noBlobs letThrough.stamp (some 420) ?_).2 ?_
  · intro p hp
    obtain rfl := List.mem_singleton.1 hp
    decide
  · rintro _ ⟨⟩
    right
    decide

/-- A private file: its request is handled, the one for its mode is lost. The replay leaves
the file open to all. -/
theorem replay_loses_mode :
    let handled := (runAction textWalks noBlobs ((action (.truncate "a" 0) (some 0o600)).zip [letThrough]) .empty).1
    (runAction textWalks noBlobs ((action (.truncate "a" 0) (some 0o600)).map fun o => (o, .full letThrough.stamp))
        .empty).1.node "a" = some (.file [] 0o600 9) ∧
      (applyJournalOp textWalks noBlobs (.full letThrough.stamp) handled (.truncate "a" 0)).1.node "a" =
        some (.file [] 0o644 9) ∧
      ¬ ReplaySame textWalks noBlobs letThrough.stamp (.truncate "a" 0) (some 0o600) .empty := by
  refine ⟨by decide, by decide, fun hsame => ?_⟩
  have hs := hsame [letThrough] letThrough.stamp (by simp [letThrough, Stamp.SameModes.refl]) (.refl _) "a"
  revert hs
  decide

end Mobfs
