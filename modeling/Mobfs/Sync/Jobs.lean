import Mobfs.Lib.Runs
import Mobfs.Sync.Commands
/-!
# Commands among edits

A workspace over time: both trees may be edited at any moment, also while a
command is under way. A command is a job that reads the base and takes its
snapshots, makes its plan, works it off one item at a time, takes the second
remote snapshot (all but `pull` and `mirror`) and saves. Any step of it can fail,
which ends it.

`hadLoc`, `hadRem`, `seen` and `dirty` are for the specification only: the paths
each side ever had, what both copies of a path were when they were last equal,
and whether the user has edited the local copy since. Copies are equal if they
have the same contents; mode and time do not count.
-/

namespace Mobfs

open Std Lib

/-- What the user can start; `mirror` is its first pull. -/
inductive Cmd where
  | sync (delete dryRun : Bool)
  | resilient (delete : Bool)
  | pull (delete dryRun : Bool)
  | mirror
  | push (delete dryRun : Bool)
  deriving DecidableEq

inductive Read where
  | base
  | loc
  | rem
  deriving DecidableEq

inductive Work where
  | mkdirLocal (rel : String)
  | mkdirRemote (rel : String)
  | item (i : PlanItem)
  deriving DecidableEq

inductive Stage where
  | read (todo : List Read)
  | work (todo : List Work)
  | save
  deriving DecidableEq

/-- A command under way, with the snapshots it holds. -/
structure Job where
  cmd : Cmd
  base : Snapshot
  loc : Snapshot
  rem : Snapshot
  stage : Stage

/-- What each command reads, in its order. -/
def Cmd.reads : Cmd → List Read
  | .sync _ _ => [.base, .loc, .rem]
  | .resilient _ => [.base, .loc, .rem]
  | .pull _ _ => [.rem, .loc]
  | .mirror => [.rem, .loc]
  | .push _ _ => [.loc, .rem]

/-- The command takes a second remote snapshot before it saves. -/
def Cmd.rescans : Cmd → Bool
  | .pull _ _ => false
  | .mirror => false
  | _ => true

def Cmd.job (c : Cmd) : Job := ⟨c, ∅, ∅, ∅, .read c.reads⟩

/-- Which planner a command uses, and whether it deletes. -/
def Cmd.command (base : Snapshot) : Cmd → Command
  | .sync _ _ => .sync base
  | .resilient _ => .sync base
  | .pull _ _ => .pull
  | .mirror => .pull
  | .push _ _ => .push

def Cmd.delete : Cmd → Bool
  | .sync delete _ => delete
  | .resilient delete => delete
  | .pull delete _ => delete
  | .mirror => false
  | .push delete _ => delete

def Job.plan (j : Job) : List PlanItem := (j.cmd.command j.base).plan j.loc j.rem j.cmd.delete

/-- What a command goes on to do once it has read everything, if anything. A
`push` that is a dry run still creates directories and saves. -/
def Job.planned (j : Job) : Option (List Work) :=
  match j.cmd with
  | .sync _ dryRun =>
    if j.plan.any PlanItem.isConflict then none
    else if dryRun then none
    else some (j.plan.map .item)
  | .resilient _ =>
    if j.plan.isEmpty then none
    else if j.plan.any PlanItem.isConflict then none
    else some (j.plan.map .item)
  | .pull _ dryRun => if dryRun then none else some (j.rem.dirs.map .mkdirLocal ++ j.plan.map .item)
  | .mirror => some (j.rem.dirs.map .mkdirLocal ++ j.plan.map .item)
  | .push _ dryRun =>
    some (j.loc.dirs.map .mkdirRemote ++ if dryRun then [] else j.plan.map .item)

structure Workspace where
  loc : Tree
  rem : Tree
  base : Snapshot
  job : Option Job
  hadLoc : String → Bool
  hadRem : String → Bool
  seen : String → Option EntryMeta
  dirty : String → Bool

inductive WorkspaceAct where
  | editLocal (t : Tree)
  | editRemote (t : Tree)
  /-- What a command that has ended left on the local side: conflict copies and
  temporary files. -/
  | leftover (t : Tree)
  | start (c : Cmd)
  | run (stamp : Stamp) (fault : Fault)

/-- The contents of a path, of an entry without its mode and time. -/
def Snapshot.version (snap : Snapshot) (p : String) : Option EntryMeta :=
  snap[p]?.map fun m => { m with modified := 0, mode := 0 }

namespace Workspace

section Steps
variable (links : Links) (sha : List UInt8 → String) (ignore : List String)

/-- The trees become `l` and `r`; `user` if the user edited the local one. -/
def move (s : Workspace) (l r : Tree) (user : Bool) : Workspace :=
  let same := fun p => (scan sha ignore l).version p = (scan sha ignore r).version p
  { s with
    loc := l
    rem := r
    hadLoc := fun p => s.hadLoc p || (l.node p).isSome
    hadRem := fun p => s.hadRem p || (r.node p).isSome
    seen := fun p => if same p then (scan sha ignore r).version p else s.seen p
    dirty := fun p =>
      if same p then false
      else s.dirty p || (user && (scan sha ignore l)[p]? != (scan sha ignore s.loc)[p]?) }

/-- A workspace before its first command. -/
def fresh (l r : Tree) : Workspace :=
  move sha ignore ⟨l, r, ∅, none, fun _ => false, fun _ => false, fun _ => none, fun _ => false⟩ l r false

def readNext (s : Workspace) (j : Job) : Read → Job
  | .base => { j with base := s.base }
  | .loc => { j with loc := scan sha ignore s.loc }
  | .rem => { j with rem := scan sha ignore s.rem }

/-- One piece of work: the trees after it and whether it succeeded. The loop of
`push_plan` does the same with its items as `apply_plan` (`runItems_pushItem`). -/
def workNext (s : Workspace) (stamp : Stamp) (j : Job) : Work → Sides × Bool
  | .mkdirLocal d =>
    match createDirs links stamp.dirMode s.loc (ancestors d ++ [d]) with
    | some t => (⟨t, s.rem⟩, true)
    | none => (⟨s.loc, s.rem⟩, false)
  | .mkdirRemote d =>
    match createDirs links stamp.dirMode s.rem (ancestors d ++ [d]) with
    | some t => (⟨s.loc, t⟩, true)
    | none => (⟨s.loc, s.rem⟩, false)
  | .item i => applyItem links j.rem stamp ⟨s.loc, s.rem⟩ i

/-- The next step of a job that meets no fault. -/
def advance (s : Workspace) (stamp : Stamp) (j : Job) : Workspace :=
  match j.stage with
  | .read (r :: rs) => { s with job := some { readNext sha ignore s j r with stage := .read rs } }
  | .read [] => { s with job := j.planned.map fun ws => { j with stage := .work ws } }
  | .work (w :: ws) =>
    let r := workNext links s stamp j w
    { move sha ignore s r.1.loc r.1.rem false with
      job := if r.2 then some { j with stage := .work ws } else none }
  | .work [] =>
    if j.cmd.rescans then { s with job := some { j with rem := scan sha ignore s.rem, stage := .save } }
    else { s with base := j.rem, job := none }
  | .save => { s with base := j.rem, job := none }

def step (s : Workspace) : WorkspaceAct → Option Workspace
  | .editLocal t => some (move sha ignore s t s.rem true)
  | .editRemote t => some (move sha ignore s s.loc t false)
  | .leftover t => if s.job.isNone then some (move sha ignore s t s.rem false) else none
  | .start c => if s.job.isNone then some { s with job := some c.job } else none
  | .run stamp fault =>
    s.job.map fun j =>
      match fault with
      | .none => advance links sha ignore s stamp j
      | .before => { s with job := none }
      | .after => { advance links sha ignore s stamp j with job := none }

end Steps

section Move
variable {sha : List UInt8 → String} {ignore : List String} {s : Workspace} {l r : Tree} {user : Bool}

@[simp] theorem move_loc : (s.move sha ignore l r user).loc = l := rfl

@[simp] theorem move_rem : (s.move sha ignore l r user).rem = r := rfl

@[simp] theorem move_base : (s.move sha ignore l r user).base = s.base := rfl

@[simp] theorem move_job : (s.move sha ignore l r user).job = s.job := rfl

theorem move_hadLoc {p : String} :
    (s.move sha ignore l r user).hadLoc p = true ↔ s.hadLoc p = true ∨ l.node p ≠ none := by
  simp [move, Option.isSome_iff_ne_none]

theorem move_hadRem {p : String} :
    (s.move sha ignore l r user).hadRem p = true ↔ s.hadRem p = true ∨ r.node p ≠ none := by
  simp [move, Option.isSome_iff_ne_none]

end Move

end Workspace

end Mobfs
