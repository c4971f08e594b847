import Mobfs.Daemon.Requests
import Mobfs.Vfs.Operations
/-!
# Removing a directory

`remove` asks for the listing of a directory, and sends the `Remove` if that is empty.
The listing leaves out ignored names and what is no file, directory or link; the daemon
removes the directory with all that is in it then, and what is at the path if that is no
directory any more. Between the two, and between the attempts that a `Remove` takes, others
change the remote.

`rmdir_destroys_nothing` says when no entry is lost.
-/

namespace Mobfs

open Lib Std
open WriteBack (matching)

/-- A removal of a directory among the requests of others. `sweep` is the directory whose
`remove_dir_all` is under way, and `entered`, whether that has looked for a link. For stating
properties: `unseen`, the entries in the directory that the listing has left out or that came
into it since, and `destroyed`, the entries that `remove_dir_all` has deleted in it and those
that were removed in its place. -/
structure Rmdir where
  op : Operation
  sweep : Option String
  entered : Bool
  unseen : List String
  destroyed : List String

inductive RmdirAct where
  /-- Others change the remote. -/
  | others (tree : Tree)
  | op (a : OpAct)
  /-- The daemon finds the directory. -/
  | begins
  /-- `remove_dir_all` begins. A link is removed itself, which ends the request. -/
  | enters (answered reconnects : Bool)
  | unlink (entry : String)
  /-- `rmdir` of the directory, or an error before that, ends the request. -/
  | ends (refused answered reconnects : Bool)

/-- The entries in a directory, at any depth. -/
def entriesIn (t : Tree) (d : String) : List String := if t.isDir d then t.paths.filter fun r => below d r else []

/-- The entries that a listing leaves out: those with an ignored name, those that are
neither a file, a directory nor a link, and what lies below them. -/
def leftOut (ignore : List String) (t : Tree) (d : String) : List String :=
  (entriesIn t d).filter fun r => t.paths.any fun c =>
    (splitParent c).1 = d && matching c r &&
      (shouldIgnorePart (splitParent c).2.toList ignore || ((t.node c).bind entryMetaFast).isNone)

namespace Rmdir

section System
variable (w : Walks) (blobs : String → Bytes) (retries : Nat) (ignore : List String) (p : String) (dir : Option Bool)

/-- The directory that the path leads to, or that is being removed. -/
def dirOf (sweep : Option String) (t : Tree) : Option String := sweep.or (w.locate t p)

/-- The entries in it. -/
def inside (sweep : Option String) (t : Tree) : List String := ((dirOf w p sweep t).map (entriesIn t)).getD []

/-- What is now inside and was not, nobody has looked at. -/
def track (s : Rmdir) (o : Operation) (sweep : Option String) : Rmdir :=
  { s with
    op := o
    sweep
    unseen := (inside w p sweep o.remote.tree).filter fun r =>
      s.unseen.contains r || !(inside w p s.sweep s.op.remote.tree).contains r }

/-- The request under way, if it is the `Remove` of the directory. -/
def removing (s : Rmdir) : Option Sending :=
  match s.op.stage, s.op.remote.phase with
  | .running (.mutate (.remove q true) _ :: _), .acting _ (.remove q' true :: _) sending
  | .running (.mutate (.remove q true) _ :: _), .replaying _ _ (.remove q' true :: _) sending =>
    if q = p ∧ q' = p then some sending else none
  | _, _ => none

/-- The daemon's `remove_dir_all` for the request under way: `once` has found no marker,
and the path is that of a directory. -/
def sweeps (s : Rmdir) : Option String :=
  match s.removing p with
  | some sending =>
    if sending.marked then none else (w.locate s.op.remote.tree p).filter fun q => s.op.remote.tree.isDir q
  | none => none

/-- The phase after the request. -/
def ended (s : Rmdir) (ok answered reconnects : Bool) : MutatePhase :=
  let result (sending : Sending) : SendResult :=
    if answered then .answered ok else retry retries sending reconnects (sending.marked || ok)
  match s.op.remote.phase with
  | .acting m (op :: rest) sending => afterAct (m.hears (some ok)) op rest (result sending)
  | .replaying m n (op :: rest) sending =>
    afterReplay (if op = m.op then m.hears (some ok) else m) n op rest (result sending)
  | phase => phase

/-- Whether a step of the operation is one of the workers, beside a request under way. -/
def isWorkers : OpAct → Bool
  | .dispatch _ | .upload _ _ _ => true
  | _ => false

/-- The entry that is removed by a `Remove` that is handled at once, where the path is not
that of a directory. -/
def displaced (s : Rmdir) (o : Operation) : OpAct → List String
  | .remote (.send (.handled _ _ _)) =>
    match s.removing p, w.locate s.op.remote.tree p with
    | some _, some q => if (s.op.remote.tree.node q).any (!·.isDir) && (o.remote.tree.node q).isNone then [q] else []
    | _, _ => []
  | _ => []

/-- A `Remove` that is handled at once removes no directory. -/
def isSweep (s : Rmdir) : OpAct → Bool
  | .remote (.send (.handled h _ _)) => !h.unseen && (s.sweeps w p).isSome
  | _ => false

def step (s : Rmdir) : RmdirAct → Option Rmdir
  | .others tree => some (s.track w p { s.op with remote := { s.op.remote with tree } } s.sweep)
  | .op a =>
    if s.sweep.isSome && !isWorkers a || s.isSweep w p a then none
    else
      (s.op.step w blobs retries ignore (.remove p dir) a).map fun o =>
        let s' := { s.track w p o s.sweep with destroyed := s.displaced w p o a ++ s.destroyed }
        match s.op.stage, a with
        | .running (.listDir _ :: _), .ask none =>
          { s' with unseen := ((w.follow o.remote.tree p).map (leftOut ignore o.remote.tree)).getD [] }
        | _, _ => s'
  | .begins =>
    match s.sweep, s.sweeps w p with
    | none, some q => some { s.track w p s.op (some q) with entered := false }
    | _, _ => none
  | .enters answered reconnects =>
    match s.sweep with
    | some q =>
      let t := s.op.remote.tree
      if s.entered then none
      else if t.isLink q then
        let remote := ⟨t.drop q, s.op.remote.journal, s.ended retries true answered reconnects⟩
        some { s.track w p { s.op with remote } none with destroyed := q :: s.destroyed }
      else some { s with entered := true }
    | none => none
  | .unlink r =>
    match s.sweep with
    | some q =>
      let t := s.op.remote.tree
      if s.entered && below q r && (t.node r).isSome && !(t.paths.any fun x => below r x) then
        some { s.track w p { s.op with remote := { s.op.remote with tree := t.drop r } } s.sweep with
          destroyed := r :: s.destroyed }
      else none
    | none => none
  | .ends refused answered reconnects =>
    match s.sweep with
    | some q =>
      let t := s.op.remote.tree
      let ok := !refused && s.entered && t.isDir q && (entriesIn t q).isEmpty
      let remote := ⟨if ok then t.drop q else t, s.op.remote.journal, s.ended retries ok answered reconnects⟩
      some (s.track w p { s.op with remote } none)
    | none => none

/-- When the daemon handles the `Remove`, there is a directory at the path, or nothing, and no
link takes its place before `remove_dir_all` begins. When this deletes an entry, it is none that
the listing has left out, and none that has come into the directory since. -/
def SweepGuard (s : Rmdir) : RmdirAct → Prop
  | .op (.remote (.send (.handled _ _ _))) => (s.removing p).isSome = true → ∀ q, w.locate s.op.remote.tree p = some q →
      s.op.remote.tree.node q = none ∨ s.op.remote.tree.isDir q = true
  | .enters _ _ => ∀ q, s.sweep = some q → s.op.remote.tree.isLink q = false
  | .unlink r => r ∉ s.unseen
  | _ => True

structure Begins (s : Rmdir) : Prop where
  stage : s.op.stage = .running ((VfsOp.remove p dir).tasks ignore)
  sweep : s.sweep = none
  destroyed : s.destroyed = []

end System
end Rmdir

/-! ## What the listing of an empty directory leaves -/

section Entries
variable {w : Walks} {ignore : List String} {t : Tree} {d p q r : String}

theorem mem_entriesIn : r ∈ entriesIn t d ↔ t.isDir d = true ∧ t.node r ≠ none ∧ below d r = true := by
  unfold entriesIn
  split
  · rename_i h
    simp [List.mem_filter, Tree.mem_paths, h]
  · rename_i h
    simp [h]

theorem node_of_matching {c : String} (hc : matching c r = true) (hr : t.node r ≠ none) : t.node c ≠ none := by
  rw [WriteBack.matching, Bool.or_eq_true, decide_eq_true_eq] at hc
  rcases hc with rfl | hc
  · exact hr
  · have hdir := Tree.isDir_of_below hc hr
    intro hnone
    simp [Tree.isDir, hnone] at hdir

/-- Where the listing is empty, all that is there has been left out. -/
theorem leftOut_of_empty (hlist : listRemote w ignore t p = some []) (hq : w.follow t p = some q)
    (hr : r ∈ entriesIn t q) : r ∈ leftOut ignore t q := by
  obtain ⟨hdir, hnode, hbelow⟩ := mem_entriesIn.1 hr
  obtain ⟨c, hparent, hc⟩ := child_of_below hbelow
  have hcnode := node_of_matching hc hnode
  refine List.mem_filter.2 ⟨hr, List.any_eq_true.2 ⟨c, Tree.mem_paths.2 hcnode, ?_⟩⟩
  simp only [hparent, hc, decide_true, Bool.true_and, Bool.or_eq_true]
  cases hm : (t.node c).bind entryMetaFast with
  | none => exact .inr rfl
  | some m =>
    refine .inl ?_
    obtain ⟨entries, hentries, hnone⟩ := Option.map_eq_some_iff.1 hlist
    have hmem : ((splitParent c).2, m) ∈ entries := by
      rw [listDir, hq, Option.bind_some, if_pos (.inr hdir)] at hentries
      cases hentries
      refine List.mem_filterMap.2 ⟨c, Tree.mem_paths.2 hcnode, ?_⟩
      rw [if_pos hparent, hm]
      rfl
    have := List.filter_eq_nil_iff.1 hnone _ hmem
    simpa using this

end Entries

/-! ## What a step of the operation does to its tasks -/

section Tasks
variable {w : Walks} {blobs : String → Bytes} {retries : Nat} {ignore : List String} {op : VfsOp} {s s' : Operation}
variable {a : OpAct}

/-- How the tasks left change in a step. -/
inductive Advances (w : Walks) (ignore : List String) (s s' : Operation) (a : OpAct) : List Task → Prop where
  | same (todo : List Task) (h : s'.stage = .running todo) : Advances w ignore s s' a todo
  | done (todo : List Task) (r : Except Errno Unit) (h : s'.stage = .returned r) : Advances w ignore s s' a todo
  | next (task : Task) (rest : List Task) (h : s'.stage = .running rest) (hlist : ∀ p, task ≠ .listDir p) :
    Advances w ignore s s' a (task :: rest)
  | listed (p : String) (rest : List Task) (h : s'.stage = .running rest) (ha : a = .ask none)
    (hremote : s'.remote = s.remote) (hempty : listRemote w ignore s.remote.tree p = some []) :
    Advances w ignore s s' a (.listDir p :: rest)
  | unsaid (purpose : Purpose) (p : String) (rest : List Task) (h : s'.stage = .running (.stat purpose p :: rest)) :
    Advances w ignore s s' a (.look purpose p :: rest)
  | kind (task : Task) (p : String) (dir : Bool) (rest : List Task) (htask : task = .look .kind p ∨ task = .stat .kind p)
    (h : s'.stage = .running (removeTasks p dir)) : Advances w ignore s s' a (task :: rest)

theorem advances_looked {t : Operation} {task : Task} {rest : List Task} {p : String} {purpose : Purpose} (m : Option EntryMeta)
    (htask : task = .look purpose p ∨ task = .stat purpose p) :
    Advances w ignore s (t.looked rest p purpose m) a (task :: rest) := by
  have hlist : ∀ q, task ≠ .listDir q := by
    rintro q rfl
    rcases htask with h | h <;> cases h
  cases purpose with
  | absent ignoreErrors =>
    cases m with
    | none => exact .next task rest rfl hlist
    | some m => exact .done _ _ rfl
  | kind =>
    cases m with
    | none => exact .done _ _ rfl
    | some m => exact .kind task p _ rest htask rfl
  | attributes mode modified =>
    cases m with
    | none => exact .done _ _ rfl
    | some m => exact .done _ _ rfl

theorem step_advances {todo : List Task} (hst : s.stage = .running todo)
    (h : s.step w blobs retries ignore op a = some s') : Advances w ignore s s' a todo := by
  unfold Operation.step at h
  rw [hst] at h
  simp only at h
  split at h
  case h_1 => -- aside
    cases h
    exact .done _ _ rfl
  case h_2 => -- look
    split at h
    · cases h
      exact advances_looked _ (.inl rfl)
    · cases h
      exact .unsaid _ _ _ rfl
  case h_3 fault purpose p rest => -- stat
    cases h
    cases fault with
    | none => exact advances_looked _ (.inr rfl)
    | some e =>
      cases purpose with
      | absent ignoreErrors =>
        cases ignoreErrors with
        | true => exact .next _ _ rfl fun p hp => by cases hp
        | false => exact .done _ _ rfl
      | kind => exact .done _ _ rfl
      | attributes mode modified => exact .done _ _ rfl
  case h_4 => -- listDir
    cases h
    exact .done _ _ rfl
  case h_5 =>
    split at h
    · cases h
      exact .listed _ _ rfl rfl rfl ‹_›
    · cases h
      exact .done _ _ rfl
    · cases h
  case h_6 => -- dropBuffers
    cases h
    exact .next _ _ rfl fun p hp => by cases hp
  case h_7 => -- waitUploads
    split at h
    · cases h
    · cases h
      exact .next _ _ rfl fun p hp => by cases hp
  case h_8 => -- flush
    split at h
    · cases h
    · cases h
      exact .next _ _ rfl fun p hp => by cases hp
  case h_9 =>
    cases h
    exact .done _ _ rfl
  case h_10 => -- mutate
    split at h
    · obtain ⟨remote, -, rfl⟩ := Option.map_eq_some_iff.1 h
      exact .same _ rfl
    · cases h
  case h_11 =>
    split at h
    · cases h
      exact .next _ _ rfl fun p hp => by cases hp
    · cases h
  case h_12 =>
    split at h
    · cases h
      exact .done _ _ rfl
    · cases h
  case h_13 => -- cut
    cases h
    exact .next _ _ rfl fun p hp => by cases hp
  case h_14 => -- finish
    cases h
    exact .done _ _ rfl
  case h_15 => -- dispatch
    obtain ⟨part, -, rfl⟩ := Option.map_eq_some_iff.1 h
    exact .same _ rfl
  case h_16 => -- upload
    split at h
    · cases h
      exact .same _ rfl
    · cases h
  case h_17 => cases h

/-- A step of the workers leaves the task as it is. -/
theorem stage_of_workers (hw : Rmdir.isWorkers a = true) (h : s.step w blobs retries ignore op a = some s') :
    s'.stage = s.stage := by
  unfold Operation.step at h
  split at h
  · cases h
  · rename_i todo hst
    cases a with
    | dispatch n =>
      obtain ⟨part, -, rfl⟩ := Option.map_eq_some_iff.1 h
      exact rfl
    | upload n written hd =>
      simp only at h
      split at h
      · cases h
        rfl
      · cases h
    | _ => cases hw

end Tasks

/-! ## Nothing unseen is destroyed -/

namespace Rmdir

section Invariant
variable {w : Walks} {blobs : String → Bytes} {retries : Nat} {ignore : List String} {p : String} {dir : Option Bool}
variable {s s₀ s' : Rmdir} {o : Operation}

/-- All that is in the directory has been left out of the listing, or came later. -/
def Covered (w : Walks) (p : String) (s : Rmdir) : Prop := ∀ r ∈ inside w p s.sweep s.op.remote.tree, r ∈ s.unseen

theorem Covered.track (h : Covered w p s) (o : Operation) (sweep : Option String) : Covered w p (s.track w p o sweep) := by
  intro r hr
  refine List.mem_filter.2 ⟨hr, ?_⟩
  by_cases hin : r ∈ inside w p s.sweep s.op.remote.tree
  · simp [h r hin]
  · simp [hin]

/-- The tasks before the listing, and those of the removal of a file. -/
inductive NotListed (p : String) : List Task → Prop where
  | aside : NotListed p [.aside]
  | look : NotListed p [.look .kind p]
  | stat : NotListed p [.stat .kind p]
  | file (todo : List Task) (h : todo <:+ removeTasks p false) : NotListed p todo
  | dir : NotListed p (removeTasks p true)

structure RmdirInv (w : Walks) (p : String) (s : Rmdir) : Prop where
  listed : ∀ todo, s.op.stage = .running todo → NotListed p todo ∨ todo <:+ (removeTasks p true).tail ∧ Covered w p s
  sweeping : s.sweep ≠ none → Covered w p s ∧ ∃ mode rest, s.op.stage = .running (.mutate (.remove p true) mode :: rest)
  kept : s.destroyed = []

theorem notListed_start (h : s.op.stage = .running ((VfsOp.remove p dir).tasks ignore)) {todo : List Task}
    (hst : s.op.stage = .running todo) : NotListed p todo := by
  rw [h] at hst
  cases hst
  unfold VfsOp.tasks
  split
  · exact .aside
  · cases dir with
    | none => exact .look
    | some dir =>
      cases dir with
      | false => exact .file _ (List.suffix_refl _)
      | true => exact .dir

/-- Before the listing, a step comes to the listing of an empty directory or stays before it. -/
theorem notListed_step {a : OpAct} {todo todo' : List Task} (hst : s.op.stage = .running todo)
    (hstep : s.op.step w blobs retries ignore (.remove p dir) a = some o) (h : NotListed p todo)
    (hst' : o.stage = .running todo') :
    NotListed p todo' ∨
      todo' = (removeTasks p true).tail ∧ todo = removeTasks p true ∧ a = .ask none ∧ o.remote = s.op.remote ∧
        listRemote w ignore s.op.remote.tree p = some [] := by
  have hmem : ∀ {task rest d}, task :: rest <:+ removeTasks p d → task ∈ removeTasks p d := fun h => h.subset List.mem_cons_self
  cases step_advances hst hstep with
  | same _ hsame =>
    rw [hsame] at hst'
    cases hst'
    exact .inl h
  | done _ r hdone =>
    rw [hdone] at hst'
    cases hst'
  | next task rest hnext hlist =>
    rw [hnext] at hst'
    cases hst'
    left
    cases h with
    | aside | look | stat => exact .file _ List.nil_suffix
    | file _ h => exact .file _ ((List.suffix_cons _ _).trans h)
    | dir => exact absurd rfl (hlist p)
  | listed q rest hnext ha hremote hempty =>
    rw [hnext] at hst'
    cases hst'
    cases h with
    | file _ h => exact absurd (hmem h) (by simp [removeTasks])
    | dir => exact .inr ⟨rfl, rfl, ha, hremote, hempty⟩
  | unsaid purpose q rest hnext =>
    rw [hnext] at hst'
    cases hst'
    cases h with
    | look => exact .inl .stat
    | file _ h => exact absurd (hmem h) (by simp [removeTasks])
  | kind task q d rest htask hnext =>
    rw [hnext] at hst'
    cases hst'
    have hq : q = p := by
      cases h with
      | look => rcases htask with h | h <;> cases h; rfl
      | stat => rcases htask with h | h <;> cases h; rfl
      | aside | dir => rcases htask with h | h <;> cases h
      | file _ h =>
        have hm := hmem h
        rcases htask with rfl | rfl <;> simp [removeTasks] at hm
    rw [hq]
    cases d with
    | false => exact .inl (.file _ (List.suffix_refl _))
    | true => exact .inl .dir

/-- After the listing, only the tasks that follow it are left. -/
theorem listed_step {a : OpAct} {todo todo' : List Task} (hst : s.op.stage = .running todo)
    (hstep : s.op.step w blobs retries ignore (.remove p dir) a = some o) (h : todo <:+ (removeTasks p true).tail)
    (hst' : o.stage = .running todo') : todo' <:+ (removeTasks p true).tail := by
  have hmem : ∀ {task rest}, task :: rest <:+ (removeTasks p true).tail → task ∈ (removeTasks p true).tail :=
    fun h => h.subset List.mem_cons_self
  cases step_advances hst hstep with
  | same _ hsame =>
    rw [hsame] at hst'
    cases hst'
    exact h
  | done _ r hdone =>
    rw [hdone] at hst'
    cases hst'
  | next task rest hnext hlist =>
    rw [hnext] at hst'
    cases hst'
    exact (List.suffix_cons _ _).trans h
  | listed q rest => exact absurd (hmem h) (by simp [removeTasks])
  | unsaid purpose q rest => exact absurd (hmem h) (by simp [removeTasks])
  | kind task q d rest htask =>
    have hm := hmem h
    rcases htask with rfl | rfl <;> simp [removeTasks] at hm

theorem inside_sweep (q : String) (t : Tree) : inside w p (some q) t = entriesIn t q := rfl

theorem mem_inside_none {t : Tree} {r : String} : r ∈ inside w p none t ↔ ∃ q, w.locate t p = some q ∧ r ∈ entriesIn t q := by
  unfold inside dirOf
  cases w.locate t p with
  | none => simp
  | some q => simp

/-- After the listing, what is there has been left out of it. -/
theorem covered_listed {t : Tree} (hlist : listRemote w ignore t p = some []) :
    ∀ r ∈ inside w p none t, r ∈ ((w.follow t p).map (leftOut ignore t)).getD [] := by
  intro r hr
  obtain ⟨q, hq, hr⟩ := mem_inside_none.1 hr
  have hdir := (mem_entriesIn.1 hr).1
  have hfollow : w.follow t p = some q := w.follow_eq t p q hq (Tree.isLink_of_isDir hdir)
  rw [hfollow, Option.map_some, Option.getD_some]
  exact leftOut_of_empty hlist hfollow hr

theorem removing_stage {sending : Sending} (h : s.removing p = some sending) :
    ∃ mode rest, s.op.stage = .running (.mutate (.remove p true) mode :: rest) := by
  unfold removing at h
  split at h
  · rename_i q mode rest _ _ _ _ hst _
    split at h
    · rename_i hq
      exact ⟨mode, rest, hq.1 ▸ hst⟩
    · cases h
  · rename_i q mode rest _ _ _ _ _ hst _
    split at h
    · rename_i hq
      exact ⟨mode, rest, hq.1 ▸ hst⟩
    · cases h
  · cases h

/-- Nothing is removed in place of the directory. -/
theorem displaced_of_guard {a : OpAct} (hg : SweepGuard w p s (.op a)) : s.displaced w p o a = [] := by
  unfold displaced
  split
  · split
    · rename_i sending q hsending hq
      refine if_neg fun h => ?_
      rw [Bool.and_eq_true, Option.any_eq_true] at h
      obtain ⟨⟨n, hn, hdir⟩, -⟩ := h
      rcases hg (by simp [hsending]) q hq with hnone | hisdir
      · rw [hnone] at hn
        cases hn
      · rw [Tree.isDir, hn, Option.any_some] at hisdir
        simp [hisdir] at hdir
    · rfl
  · rfl

/-- What happens beside the tasks of the operation. -/
theorem RmdirInv.beside (h : RmdirInv w p s) (hst : o.stage = s.op.stage) :
    RmdirInv w p (s.track w p o s.sweep) where
  listed todo htodo := (h.listed todo (hst ▸ htodo)).imp_right fun hl => ⟨hl.1, hl.2.track o _⟩
  sweeping hs := ⟨(h.sweeping hs).1.track o _, by rw [show (s.track w p o s.sweep).op.stage = _ from hst]; exact (h.sweeping hs).2⟩
  kept := h.kept

theorem RmdirInv.op (h : RmdirInv w p s) {a : OpAct} (hg : SweepGuard w p s (.op a))
    (hs : s.step w blobs retries ignore p dir (.op a) = some s') : RmdirInv w p s' := by
  simp only [step] at hs
  split at hs
  · cases hs
  · rename_i hfree
    obtain ⟨o, ho, rfl⟩ := Option.map_eq_some_iff.1 hs
    rw [displaced_of_guard hg, List.nil_append]
    cases hsweep : s.sweep with
    | some q =>
      -- Only the workers go on while the directory is being removed.
      have hw : isWorkers a = true := by
        by_contra hw
        simp [hsweep, hw] at hfree
      have hst := stage_of_workers hw ho
      obtain ⟨mode, rest, hrun⟩ := (h.sweeping (by simp [hsweep])).2
      have hb := h.beside hst
      rw [hsweep] at hb
      simp only [hrun]
      exact hb
    | none =>
      refine ⟨fun todo' htodo' => ?_, fun hs => ?_, ?_⟩
      · have hrun : ∃ todo, s.op.stage = .running todo := by
          unfold Operation.step at ho
          split at ho
          · cases ho
          · exact ⟨_, ‹_›⟩
        obtain ⟨todo, hst⟩ := hrun
        have hst' : o.stage = .running todo' := by
          rw [← htodo']
          split <;> rfl
        rcases h.listed todo hst with hn | ⟨hl, hc⟩
        · rcases notListed_step hst ho hn hst' with hn' | ⟨rfl, rfl, rfl, hremote, hempty⟩
          · exact .inl hn'
          · refine .inr ⟨List.suffix_refl _, ?_⟩
            have := covered_listed hempty
            simp only [hst, removeTasks, if_true, List.cons_append, List.nil_append, Covered, track, hremote]
            exact this
        · refine .inr ⟨listed_step hst ho hl hst', ?_⟩
          have hc' := hc.track o none
          have hhead : ∀ q rest, todo ≠ .listDir q :: rest := by
            rintro q rest rfl
            exact absurd (hl.subset List.mem_cons_self) (by simp [removeTasks])
          split
          · rename_i hq
            rw [hst] at hq
            cases hq
            exact absurd rfl (hhead _ _)
          · exact hc'
      · refine absurd ?_ hs
        split <;> rfl
      · split <;> exact h.kept

theorem RmdirInv.step (h : RmdirInv w p s) {a : RmdirAct} (hg : SweepGuard w p s a)
    (hs : s.step w blobs retries ignore p dir a = some s') : RmdirInv w p s' := by
  cases a with
  | others tree =>
    cases hs
    exact h.beside rfl
  | op a => exact h.op hg hs
  | begins =>
    simp only [Rmdir.step] at hs
    split at hs
    · rename_i q hsweep hfound
      cases hs
      have hsending : ∃ sending, s.removing p = some sending := by
        unfold sweeps at hfound
        split at hfound
        · exact ⟨_, ‹_›⟩
        · cases hfound
      obtain ⟨sending, hsending⟩ := hsending
      obtain ⟨mode, rest, hst⟩ := removing_stage hsending
      have hcov : Covered w p s := by
        rcases h.listed _ hst with hn | hl
        · cases hn with
          | file _ hn => exact absurd (hn.subset List.mem_cons_self) (by simp [removeTasks])
        · exact hl.2
      exact ⟨fun todo htodo => (h.listed todo htodo).imp_right fun hl => ⟨hl.1, hl.2.track _ _⟩,
        fun _ => ⟨hcov.track _ _, mode, rest, hst⟩, h.kept⟩
    · cases hs
  | enters answered reconnects =>
    simp only [Rmdir.step] at hs
    split at hs
    · rename_i q hsweep
      split at hs
      · cases hs
      · split at hs
        · rename_i hlink
          rw [hg q hsweep] at hlink
          cases hlink
        · cases hs
          exact ⟨h.listed, h.sweeping, h.kept⟩
    · cases hs
  | unlink r =>
    simp only [Rmdir.step] at hs
    split at hs
    · rename_i q hsweep
      split at hs
      · rename_i hr
        simp only [Bool.and_eq_true] at hr
        -- The entry is in the directory, so nobody has looked at it.
        have hnode : s.op.remote.tree.node r ≠ none := Option.isSome_iff_ne_none.1 hr.1.2
        have hdir : s.op.remote.tree.isDir q = true := Tree.isDir_of_below hr.1.1.2 hnode
        refine absurd ((h.sweeping (by simp [hsweep])).1 r ?_) hg
        rw [hsweep, inside_sweep]
        exact mem_entriesIn.2 ⟨hdir, hnode, hr.1.1.2⟩
      · cases hs
    · cases hs
  | ends refused answered reconnects =>
    simp only [Rmdir.step] at hs
    split at hs
    · cases hs
      exact ⟨fun todo htodo => (h.listed todo htodo).imp_right fun hl => ⟨hl.1, hl.2.track _ _⟩,
        fun hs => absurd rfl hs, h.kept⟩
    · cases hs

/-- A removal of a directory, among any requests of others and with any answers, destroys
no entry, provided that the daemon finds a directory and `remove_dir_all` meets no entry that
the listing left out or that came later. -/
theorem rmdir_destroys_nothing {acts : List RmdirAct} (h₀ : s₀.Begins ignore p dir)
    (hg : Guarded (Rmdir.step w blobs retries ignore p dir) (SweepGuard w p) s₀ acts)
    (hr : exec (Rmdir.step w blobs retries ignore p dir) s₀ acts = some s) : s.destroyed = [] := by
  have h₀ : RmdirInv w p s₀ :=
    ⟨fun todo hst => .inl (notListed_start h₀.stage hst), fun hs => absurd h₀.sweep hs, h₀.destroyed⟩
  exact (exec_guarded_inv (RmdirInv w p) (fun s a s' hs hg hstep => hs.step hg hstep) h₀ hg hr).kept

end Invariant

/-! ## Entries that the listing does not tell of -/

/-- `remove` of the directory `d` begins, with these entries on the remote. -/
def removingD (entries : List (String × Node)) : Rmdir where
  op := {
    remote := .start (Tree.build entries) []
    pending := []
    caches := Caches.empty
    blocks _ _ := none
    stage := .running (removeTasks "d" true) }
  sweep := none
  entered := false
  unseen := []
  destroyed := []

def succeeded (s : Rmdir) : Bool :=
  match s.op.stage with
  | .returned (.ok ()) => true
  | _ => false

abbrev textStep (ignore : List String) : Rmdir → RmdirAct → Option Rmdir := step textWalks noBlobs 0 ignore "d" (some true)

/-- From the listing to the request. -/
def asks : List RmdirAct := [.op (.ask none), .op (.go 0 0), .op (.go 0 0), .op (.remote (.call (.remove "d" true) none))]

/-- The request has been answered. -/
def returns : List RmdirAct := [.ends false true false, .op (.remote (.clear .ok)), .op (.go 0 0), .op (.go 0 0)]

/-- The daemon finds the directory and goes into it. -/
def sweepsIt : List RmdirAct := [.begins, .enters false false]

def heldDir : List (String × Node) := [("d", .dir 493), ("d/.cache", .file [1] 420 0)]

/-- Another client puts a file in place of the directory, and the request is handled. -/
def replacedByFile : List RmdirAct :=
  [.others (Tree.build [("d", .file [1] 420 0)]), .op (.remote (.send (.handled letThrough true false))),
    .op (.remote (.clear .ok)), .op (.go 0 0), .op (.go 0 0)]

/-- An ignored file is deleted with the directory, and so is a file that comes after the
listing, and one that takes the place of the directory, and the call returns `Ok`. -/
theorem rmdir_destroys_unseen :
    (∃ s, exec (textStep [".cache"]) (removingD heldDir) (asks ++ sweepsIt ++ .unlink "d/.cache" :: returns) = some s ∧
      s.succeeded = true ∧ s.destroyed = ["d/.cache"]) ∧
    (∃ s, exec (textStep []) (removingD [("d", .dir 493)])
        (asks ++ .others (Tree.build heldDir) :: sweepsIt ++ .unlink "d/.cache" :: returns) = some s ∧
      s.succeeded = true ∧ s.destroyed = ["d/.cache"]) ∧
    ∃ s, exec (textStep []) (removingD [("d", .dir 493)]) (asks ++ replacedByFile) = some s ∧
      s.succeeded = true ∧ s.destroyed = ["d"] := by
  have hignored : ((exec (textStep [".cache"]) (removingD heldDir) (asks ++ sweepsIt ++ .unlink "d/.cache" :: returns)).any
      fun s => s.succeeded && s.destroyed = ["d/.cache"]) = true := by decide
  have hlater : ((exec (textStep []) (removingD [("d", .dir 493)])
      (asks ++ .others (Tree.build heldDir) :: sweepsIt ++ .unlink "d/.cache" :: returns)).any
      fun s => s.succeeded && s.destroyed = ["d/.cache"]) = true := by decide
  have hfile : ((exec (textStep []) (removingD [("d", .dir 493)]) (asks ++ replacedByFile)).any
      fun s => s.succeeded && s.destroyed = ["d"]) = true := by decide
  obtain ⟨s, hs, h⟩ := (Option.any_eq_true _ _).1 hignored
  obtain ⟨s', hs', h'⟩ := (Option.any_eq_true _ _).1 hlater
  obtain ⟨s'', hs'', h''⟩ := (Option.any_eq_true _ _).1 hfile
  simp only [Bool.and_eq_true, decide_eq_true_eq] at h h' h''
  exact ⟨⟨s, hs, h⟩, ⟨s', hs', h'⟩, s'', hs'', h''⟩

/-- Deletes nothing, as a test: neither an entry nor what is at the path. -/
def harmless : RmdirAct → Bool
  | .unlink _ | .op (.remote (.send (.handled _ _ _))) => false
  | _ => true

theorem rmdir_destroys_nothing_empty :
    ∃ s, exec (textStep []) (removingD [("d", .dir 493)]) (asks ++ sweepsIt ++ returns) = some s ∧
      s.succeeded = true ∧ s.destroyed = [] := by
  have hrun : ((exec (textStep []) (removingD [("d", .dir 493)]) (asks ++ sweepsIt ++ returns)).any succeeded) = true := by decide
  obtain ⟨s, hs, hok⟩ := (Option.any_eq_true _ _).1 hrun
  have hbegins : (removingD [("d", .dir 493)]).Begins [] "d" (some true) := ⟨rfl, rfl, rfl⟩
  refine ⟨s, hs, hok, rmdir_destroys_nothing hbegins ?_ hs⟩
  refine guarded_of_checkRun (fun _ => True) (fun _ => True)
    (fun s a => harmless a && s.sweep.all fun q => !s.op.remote.tree.isLink q) (fun _ _ _ _ _ _ => trivial) ?_ trivial
    (fun _ _ => trivial) (by decide)
  intro s a _ _ hg
  rw [Bool.and_eq_true, Option.all_eq_true] at hg
  obtain ⟨hharmless, hlink⟩ := hg
  cases a with
  | unlink r => cases hharmless
  | enters answered reconnects => exact fun q hq => by simpa using hlink q hq
  | op a =>
    unfold SweepGuard
    split
    · simp_all [harmless]
    · exact fun q hq => by simpa using hlink q hq
    · contradiction
    · trivial
  | _ => trivial

end Rmdir

end Mobfs
