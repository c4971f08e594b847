import Mobfs.Daemon.Again
import Mobfs.Daemon.Rejected
/-!
# What a request leaves alone

However a request fares, it changes no entry but those at or below its paths and the missing
directories above them (`handle_elsewhere`), if its paths lead through no links. One that is
refused early enough changes nothing (`handle_stops`).
-/

namespace Mobfs

open Lib Std
open WriteBack (matching)

namespace JournalOp

/-- The directories that are made before anything else is done. -/
def dirs : JournalOp → List String
  | .truncate p _ | .mkdir p | .symlink p _ | .writeAt p _ _ | .writeBlob p _ _ => ancestors p
  | .rename _ dst => ancestors dst
  | .setMetadata _ _ _ | .remove _ _ => []

/-- A link at the end of the path is followed. -/
def follows : JournalOp → Bool
  | .truncate _ _ | .setMetadata _ _ _ | .writeAt _ _ _ | .writeBlob _ _ _ => true
  | _ => false

/-- The paths of the operation lead through no link, nor to one that is followed. -/
def Direct (op : JournalOp) (t : Tree) : Prop :=
  ∀ p ∈ op.paths, t.Plain p ∧ (op.follows = true → t.isLink p = false)

/-- The entry is at or below a path of the operation, or a missing directory above one. -/
def Reaches (op : JournalOp) (t : Tree) (c : String) : Prop :=
  ∃ p ∈ op.paths, matching p c = true ∨ (below c p = true ∧ t.node c = none)

/-- A rename that the tree does not allow. -/
def Refused (op : JournalOp) (t : Tree) : Prop :=
  ∃ src dst, op = .rename src dst ∧ t.Plain src ∧ t.Plain dst ∧ t.rename src dst = none

/-- The request is cut off at its marker; or no directory is missing, and it is cut off at
the call after those for the directories, or is a rename that the tree does not allow. -/
def Stops (op : JournalOp) (w : Walks) (h : Handling) (t : Tree) : Prop :=
  h.cuts 0 = true ∨
    (∀ d ∈ op.dirs, w.lookup t d ≠ none) ∧ (h.cuts (op.dirs.length + 1) = true ∨ op.Refused t)

end JournalOp

section Reach
variable {w : Walks} {blobs : String → Bytes} {op : JournalOp} {h : Handling} {t t1 t2 : Tree} {p c : String}

/-- The operation has changed only what it reaches, and finds its paths where they say. -/
structure Within (op : JournalOp) (t t1 : Tree) : Prop where
  nodes : ∀ c, t1.node c ≠ t.node c → op.Reaches t c
  direct : op.Direct t1

namespace Within

/-- A call that changes something at or below the only path. -/
theorem change (h : Within op t t1) (hp : op.paths = [p]) (hnode : ∀ c, t2.node c ≠ t1.node c → matching p c = true)
    (hlink : op.follows = true → t2.isLink p = false) : Within op t t2 := by
  refine ⟨fun c hc => ?_, fun q hq => ?_⟩
  · by_cases hsame : t2.node c = t1.node c
    · exact h.nodes c (hsame ▸ hc)
    · exact ⟨p, by simp [hp], .inl (hnode c hsame)⟩
  · obtain ⟨hplain, -⟩ := h.direct q hq
    obtain rfl : q = p := by simpa [hp] using hq
    refine ⟨fun d hd => ?_, hlink⟩
    have hsame : t2.node d = t1.node d := by
      by_contra hne
      have hloop := matching_below (hnode d hne) hd
      rw [below_irrefl] at hloop
      cases hloop
    rw [Tree.isLink, hsame]
    exact hplain d hd

/-- A directory is made at a path, or above one. -/
theorem createDir (h : Within op t t1) {mode : Nat} {d : String} (hp : p ∈ op.paths) (hd : d = p ∨ below d p = true)
    (hc : createDir w.toLinks mode t1 d = some t2) : Within op t t2 := by
  obtain ⟨hplain, -⟩ := h.direct p hp
  have hplain' : t1.Plain d := by
    rcases hd with rfl | hd
    · exact hplain
    · exact fun e he => hplain e (below_trans he hd)
  have hadds := (createDir_spec hplain' hc).1
  refine ⟨fun c hne => ?_, fun q hq => ⟨hadds.plain (h.direct q hq).1, fun hf => ?_⟩⟩
  · rcases hadds c with hsame | ⟨rfl, hn, -⟩
    · exact h.nodes c (hsame ▸ hne)
    · by_cases hold : t.node c = none
      · rcases hd with rfl | hd
        · exact ⟨c, hp, .inl (matching_self c)⟩
        · exact ⟨p, hp, .inr ⟨hd, hold⟩⟩
      · exact h.nodes c (hn ▸ Ne.symm hold)
  · rw [hadds.isLink]
    exact (h.direct q hq).2 hf

/-- A file is put at the only path, or changed there. -/
theorem place (h : Within op t t1) (hp : op.paths = [p]) {n : Node} (hn : op.follows = true → n.isLink = false)
    (hc : t1.place p n = some t2) : Within op t t2 := by
  obtain ⟨-, -, hnode⟩ := Tree.place_eq_some hc
  refine h.change hp (fun c hne => ?_) fun hf => ?_
  · by_cases hcp : c = p
    · rw [hcp]
      exact matching_self p
    · rw [hnode, if_neg hcp] at hne
      exact absurd rfl hne
  · rw [Tree.isLink, hnode, if_pos rfl]
    exact hn hf

theorem follow (h : Within op t t1) (hp : op.paths = [p]) (hf : op.follows = true) : w.follow t1 p = some p := by
  obtain ⟨hplain, hlink⟩ := h.direct p (by simp [hp])
  exact follow_plain hplain (hlink hf)

theorem openCreate (h : Within op t t1) (hp : op.paths = [p]) (hf : op.follows = true) {stamp : Stamp}
    (hc : openCreate w stamp p t1 = some t2) : Within op t t2 := by
  simp only [Mobfs.openCreate, h.follow hp hf] at hc
  split at hc
  · exact h.place hp (fun _ => rfl) hc
  · cases hc
    exact h
  · cases hc

theorem editFile (h : Within op t t1) (hp : op.paths = [p]) (hf : op.follows = true) {stamp : Stamp} {f : Bytes → Bytes}
    (hc : editFile w stamp p f t1 = some t2) : Within op t t2 := by
  simp only [Mobfs.editFile, h.follow hp hf] at hc
  split at hc
  · exact h.place hp (fun _ => rfl) hc
  · cases hc

theorem alter (h : Within op t t1) (hp : op.paths = [p]) {f : Node → Node} (hf : ∀ n, (f n).isDir = n.isDir)
    (hb : ∀ n, (f n).bare = n.bare) (hc : t1.alter p f hf = some t2) : Within op t t2 := by
  obtain ⟨n, -, hnode⟩ := Tree.alter_eq_some hc
  refine h.change hp (fun c hne => ?_) fun hfollow => ?_
  · by_cases hcp : c = p
    · rw [hcp]
      exact matching_self p
    · rw [hnode, if_neg hcp] at hne
      exact absurd rfl hne
  · rw [(Tree.metaOnly_of_alter hc hb).isLink]
    exact (h.direct p (by simp [hp])).2 hfollow

theorem drop (h : Within op t t1) (hp : op.paths = [p]) (hf : op.follows = false) {q : String}
    (hq : matching p q = true) : Within op t (t1.drop q) := by
  refine h.change hp (fun c hne => ?_) fun hfollow => ?_
  · rw [Tree.node_drop] at hne
    split at hne
    · rename_i hcq
      exact matching_trans hq (matching_iff.2 hcq)
    · exact absurd rfl hne
  · rw [hf] at hfollow
    cases hfollow

theorem rename {src dst : String} (h : Within (.rename src dst) t t1) (hc : t1.rename src dst = some t2) :
    Within (.rename src dst) t t2 := by
  by_cases hne : src = dst
  · rw [hne] at hc
    rwa [Tree.rename_self hc]
  · have hm := Tree.moved_of_rename hne hc
    refine ⟨fun c hcne => ?_, fun q hq => ⟨fun d hd => ?_, fun hf => by cases hf⟩⟩
    · by_cases hsame : t2.node c = t1.node c
      · exact h.nodes c (hsame ▸ hcne)
      · rw [hm.node] at hsame
        split at hsame
        · exact ⟨dst, by simp [JournalOp.paths], .inl ‹_›⟩
        · split at hsame
          · exact ⟨src, by simp [JournalOp.paths], .inl ‹_›⟩
          · exact absurd rfl hsame
    · have habove : below d dst = true ∨ below d src = true := by
        simp only [JournalOp.paths, List.mem_cons, List.not_mem_nil, or_false] at hq
        rcases hq with rfl | rfl
        · exact .inr hd
        · exact .inl hd
      rw [Tree.isLink, hm.node_above habove]
      exact (h.direct q hq).1 d hd

end Within

/-- Directories that are made at the paths, or above them. -/
theorem within_createDirAll {ds : List String} (hds : ∀ d ∈ ds, ∃ p ∈ op.paths, d = p ∨ below d p = true) {stamp : Stamp}
    {call : Tree → Option Tree} (hcall : call ∈ createDirAll w stamp ds) (h : Within op t t1) (hc : call t1 = some t2) :
    Within op t t2 := by
  obtain ⟨d, hd, rfl⟩ := createDirAll_mem hcall
  obtain ⟨p, hp, hdp⟩ := hds d hd
  exact h.createDir hp hdp hc

theorem above_of_ancestors (hp : p ∈ op.paths) : ∀ d ∈ ancestors p, ∃ q ∈ op.paths, d = q ∨ below d q = true :=
  fun _ hd => ⟨p, hp, .inr (mem_ancestors_iff.1 hd)⟩

/-- The calls that write a file. -/
theorem within_edit (hp : op.paths = [p]) (hf : op.follows = true) {stamp : Stamp} {f : Bytes → Bytes}
    {call : Tree → Option Tree}
    (hcall : call ∈ createDirAll w stamp (ancestors p) ++ [openCreate w stamp p, editFile w stamp p f])
    (h : Within op t t1) (hc : call t1 = some t2) : Within op t t2 := by
  simp only [List.mem_append, List.mem_cons, List.not_mem_nil, or_false] at hcall
  rcases hcall with hcall | rfl | rfl
  · exact within_createDirAll (above_of_ancestors (by simp [hp])) hcall h hc
  · exact h.openCreate hp hf hc
  · exact h.editFile hp hf hc

theorem within_setMetadata {mode : Option Nat} {modified : Option Int} {call : Tree → Option Tree}
    (hcall : call ∈ (JournalOp.setMetadata p mode modified).calls w blobs h t)
    (hin : Within (.setMetadata p mode modified) t t1) (hc : call t1 = some t2) :
    Within (.setMetadata p mode modified) t t2 := by
  have hfollow := hin.follow (w := w) rfl rfl
  rcases List.mem_append.1 hcall with hcall | hcall
  · split at hcall
    · split at hcall
      · cases hcall
      · obtain rfl := List.mem_singleton.1 hcall
        rw [setPermissions, hfollow] at hc
        exact hin.alter rfl (Node.isDir_chmod _) (Node.bare_chmod _) hc
    · cases hcall
  · split at hcall
    · split at hcall
      · obtain rfl := List.mem_singleton.1 hcall
        rw [setFileMtime, hfollow] at hc
        exact hin.alter rfl (Node.isDir_utime _) (Node.bare_utime _) hc
      · cases hcall
    · cases hcall

theorem within_symlink {target : String} {call : Tree → Option Tree}
    (hcall : call ∈ (JournalOp.symlink p target).calls w blobs h t) (hin : Within (.symlink p target) t t1)
    (hc : call t1 = some t2) : Within (.symlink p target) t t2 := by
  have hlocate := w.locate_plain t1 p (hin.direct p (by simp [JournalOp.paths])).1
  simp only [JournalOp.calls, List.mem_append, List.mem_cons, List.not_mem_nil, or_false] at hcall
  rcases hcall with hcall | rfl | rfl
  · exact within_createDirAll (above_of_ancestors (by simp [JournalOp.paths])) hcall hin hc
  · simp only [removeFile, hlocate, Option.some.injEq] at hc
    subst hc
    split
    · exact hin
    · exact hin.drop rfl rfl (matching_self p)
  · simp only [makeLink, hlocate] at hc
    split at hc
    · exact hin.place rfl (fun hf => by cases hf) hc
    · cases hc

theorem within_rename {src dst : String} {call : Tree → Option Tree}
    (hcall : call ∈ (JournalOp.rename src dst).calls w blobs h t) (hin : Within (.rename src dst) t t1)
    (hc : call t1 = some t2) : Within (.rename src dst) t t2 := by
  have hsrc := w.locate_plain t1 src (hin.direct src (by simp [JournalOp.paths])).1
  have hdst := w.locate_plain t1 dst (hin.direct dst (by simp [JournalOp.paths])).1
  rcases List.mem_append.1 hcall with hcall | hcall
  · exact within_createDirAll (above_of_ancestors (by simp [JournalOp.paths])) hcall hin hc
  · obtain rfl := List.mem_singleton.1 hcall
    simp only [renameSeen, hsrc, hdst, Option.bind_some] at hc
    split at hc
    · cases hc
      exact hin
    · split at hc
      · cases hc
        exact hin
      · exact hin.rename hc

theorem within_remove {dir : Bool} {call : Tree → Option Tree}
    (hcall : call ∈ (JournalOp.remove p dir).calls w blobs h t) (hp : t.Plain p) (hin : Within (.remove p dir) t t1)
    (hc : call t1 = some t2) : Within (.remove p dir) t t2 := by
  simp only [JournalOp.calls, removeCalls, w.locate_plain t p hp] at hcall
  split at hcall
  · cases hcall
  · split at hcall
    · cases hcall
    · split at hcall
      · simp only [removeDirAll, List.mem_map, List.mem_append, List.mem_reverse, List.mem_filter, List.mem_singleton] at hcall
        obtain ⟨q, hq, rfl⟩ := hcall
        cases hc
        refine hin.drop rfl rfl ?_
        rcases hq with ⟨-, hq⟩ | rfl
        · exact matching_iff.2 (.inr hq)
        · exact matching_self q
      · obtain rfl := List.mem_singleton.1 hcall
        cases hc
    · obtain rfl := List.mem_singleton.1 hcall
      cases hc
      exact hin.drop rfl rfl (matching_self p)

theorem calls_within (hd : op.Direct t) {call : Tree → Option Tree} (hcall : call ∈ op.calls w blobs h t)
    (hin : Within op t t1) (hc : call t1 = some t2) : Within op t t2 := by
  cases op with
  | truncate p size => exact within_edit rfl rfl hcall hin hc
  | setMetadata p mode modified => exact within_setMetadata hcall hin hc
  | mkdir p =>
    refine within_createDirAll (fun d hd => ⟨p, by simp [JournalOp.paths], ?_⟩) hcall hin hc
    rcases List.mem_append.1 hd with hd | hd
    · exact .inr (mem_ancestors_iff.1 hd)
    · exact .inl (List.mem_singleton.1 hd)
  | symlink p target => exact within_symlink hcall hin hc
  | rename src dst => exact within_rename hcall hin hc
  | remove p dir => exact within_remove hcall (hd p (by simp [JournalOp.paths])).1 hin hc
  | writeAt p offset data => exact within_edit rfl rfl hcall hin hc
  | writeBlob p offset blob => exact within_edit rfl rfl hcall hin hc

/-- What a request does not reach stays as it is, wherever the request is cut off. -/
theorem handle_elsewhere {marked : Bool} (hd : op.Direct t) (hc : ¬ op.Reaches t c) :
    (handle w blobs h marked t op).1.node c = t.node c := by
  have hin : Within op t (handle w blobs h marked t op).1 := by
    refine runCalls_inv (fun call hcall t1 t2 hin hstep => ?_) ⟨fun c hne => absurd rfl hne, hd⟩
    have hsome : call = some → Within op t t2 := by
      rintro rfl
      cases hstep
      exact hin
    cases marked with
    | true => exact hsome (List.mem_singleton.1 hcall)
    | false =>
      simp only [Bool.false_eq_true, if_false, List.cons_append, List.mem_cons, List.mem_append, List.not_mem_nil,
        or_false] at hcall
      rcases hcall with hcall | hcall | hcall
      · exact hsome hcall
      · exact calls_within hd hcall hin hstep
      · exact hsome hcall
  by_contra hne
  exact hc (hin.nodes c hne)

/-! ## Requests that come to nothing -/

/-- The first calls change nothing, and the others are not made. -/
theorem runCalls_idle {refused : Option Nat} {cs ds : List (Tree → Option Tree)}
    (hcs : ∀ c ∈ cs, ∀ t', c t = some t' → t' = t) (hds : refused.any (· ≤ cs.length) = true ∨ ds = []) :
    (runCalls refused t (cs ++ ds)).1 = t := by
  induction cs generalizing refused with
  | nil =>
    cases ds with
    | nil => rfl
    | cons d ds =>
      obtain rfl : refused = some 0 := by
        rcases hds with hds | hds
        · obtain ⟨n, rfl, hn⟩ := (Option.any_eq_true _ _).1 hds
          simpa using hn
        · cases hds
      rfl
  | cons c cs ih =>
    rw [List.cons_append, runCalls]
    split
    · rfl
    · split
      · rfl
      · rename_i hne _ t' hc
        rw [hcs c List.mem_cons_self t' hc]
        refine ih (fun d hd => hcs d (List.mem_cons_of_mem _ hd)) (hds.imp_left fun hr => ?_)
        obtain ⟨n, rfl, hn⟩ := (Option.any_eq_true _ _).1 hr
        rw [decide_eq_true_eq, List.length_cons] at hn
        simp only [Option.map_some, Option.any_some, decide_eq_true_eq]
        omega

variable (w blobs op h t) in
/-- The calls begin with those for the directories. -/
theorem calls_dirs : ∃ cs, op.calls w blobs h t = createDirAll w h.stamp op.dirs ++ cs := by
  cases op with
  | mkdir p => exact ⟨createDirAll w h.stamp [p], by simp [JournalOp.calls, JournalOp.dirs, createDirAll]⟩
  | _ => exact ⟨_, rfl⟩

theorem handle_stops {marked : Bool} (hs : op.Stops w h t) : (handle w blobs h marked t op).1 = t := by
  cases marked with
  | true => exact handle_marked
  | false =>
    obtain ⟨cs, hcalls⟩ := calls_dirs w blobs op h t
    rw [handle, if_neg Bool.false_ne_true, hcalls]
    rcases hs with hfirst | ⟨hthere, hrest⟩
    · have hnil : ∀ c ∈ ([] : List (Tree → Option Tree)), ∀ t', c t = some t' → t' = t := fun c hc => by cases hc
      rw [← List.nil_append (some :: _ ++ _)]
      exact runCalls_idle hnil (.inl hfirst)
    · have hdirs : ∀ c ∈ some :: createDirAll w h.stamp op.dirs, ∀ t', c t = some t' → t' = t := by
        intro c hc t' hstep
        rcases List.mem_cons.1 hc with rfl | hc
        · exact (Option.some.inj hstep).symm
        · obtain ⟨d, hd, rfl⟩ := createDirAll_mem hc
          exact createDir_of_lookup (hthere d hd) hstep
      rcases hrest with hcut | ⟨src, dst, rfl, hsrc, hdst, hnone⟩
      · have hlen : (some :: createDirAll w h.stamp op.dirs).length = op.dirs.length + 1 := by simp [createDirAll]
        rw [List.cons_append, List.append_assoc, ← List.cons_append]
        refine runCalls_idle hdirs (.inl ?_)
        rwa [hlen]
      · obtain rfl : cs = [renameSeen w h.unseen src dst] := (List.append_cancel_left hcalls).symm
        refine (congrArg (fun cs => (runCalls h.refused t cs).1) (List.append_nil _).symm).trans (runCalls_idle ?_ (.inr rfl))
        intro c hc t' hstep
        simp only [List.cons_append, List.append_assoc, List.mem_cons, List.mem_append, List.not_mem_nil, or_false,
          false_or] at hc
        rcases hc with rfl | hc | rfl | rfl
        · exact (Option.some.inj hstep).symm
        · exact hdirs c (List.mem_cons_of_mem _ hc) t' hstep
        · simp only [renameSeen, w.locate_plain t src hsrc, w.locate_plain t dst hdst, Option.bind_some, hnone] at hstep
          split at hstep
          · exact (Option.some.inj hstep).symm
          · split at hstep
            · exact (Option.some.inj hstep).symm
            · cases hstep
        · exact (Option.some.inj hstep).symm

end Reach

end Mobfs
