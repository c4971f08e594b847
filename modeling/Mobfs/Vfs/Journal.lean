import Mobfs.Protocol
/-!
# The mount journal

Every mutation of a mount is appended to one file before it is tried, as a line
of JSON, and the file is truncated once a mutation is over. `append_journal`
writes the JSON and the newline by two calls, so a line may be cut off, or run
into the next one; `replay_journal` skips lines it cannot read.

A file is a list of what was written to it. The JSON of an operation has no
newline in it, and no proper part of it is itself JSON.
-/

namespace Mobfs

inductive JournalOp where
  | truncate (path : String) (size : Nat)
  | setMetadata (path : String) (mode : Option Nat) (modified : Option Int)
  | mkdir (path : String)
  | symlink (path target : String)
  | rename (src dst : String)
  | remove (path : String) (dir : Bool)
  | writeAt (path : String) (offset : Nat) (data : Bytes)
  | writeBlob (path : String) (offset : Nat) (blob : String)
  deriving DecidableEq, Repr

/-- A piece of the journal file. -/
inductive Written where
  | json (op : JournalOp)
  /-- The start of an operation's JSON, left by a write that failed. -/
  | cutOff
  | newline
  deriving DecidableEq, Repr

abbrev JournalFile := List Written

/-- `serde_json::from_str` on one line. -/
def readLine : List Written → Option JournalOp
  | [.json op] => some op
  | _ => none

/-- The operations `replay_journal` finds in the file. -/
def journalOps (file : JournalFile) : List JournalOp := (file.splitOn .newline).filterMap readLine

/-- The next write starts a line. -/
def AtLineStart (file : JournalFile) : Prop := file = [] ∨ file.getLast? = some .newline

instance (file : JournalFile) : Decidable (AtLineStart file) := inferInstanceAs (Decidable (_ ∨ _))

/-! ## What a write does to the operations found -/

@[simp] theorem journalOps_nil : journalOps [] = [] := rfl

/-- A line read on its own. -/
theorem journalOps_line {line : List Written} (h : .newline ∉ line) :
    journalOps line = (readLine line).toList := by
  rw [journalOps, List.splitOn_eq_singleton h]
  cases hr : readLine line <;> simp [hr]

theorem journalOps_append_newline (a b : JournalFile) :
    journalOps (a ++ .newline :: b) = journalOps a ++ journalOps b := by
  simp only [journalOps]
  rw [List.splitOn_append_cons_self, List.filterMap_append]

/-- Ending a line changes nothing. -/
@[simp] theorem journalOps_newline (file : JournalFile) : journalOps (file ++ [.newline]) = journalOps file := by
  rw [journalOps_append_newline]
  simp

/-- A piece written at the start of a line is read on its own. -/
theorem journalOps_atLineStart {file : JournalFile} (h : AtLineStart file) {w : Written} (hw : w ≠ .newline) :
    journalOps (file ++ [w]) = journalOps file ++ (readLine [w]).toList := by
  have hline : journalOps [w] = (readLine [w]).toList := journalOps_line (by simpa using hw.symm)
  rcases h with rfl | h
  · simpa using hline
  · obtain ⟨init, rfl⟩ := List.getLast?_eq_some_iff.1 h
    rw [List.append_assoc, List.singleton_append, journalOps_append_newline, hline, journalOps_newline]

theorem journalOps_json {file : JournalFile} (h : AtLineStart file) (op : JournalOp) :
    journalOps (file ++ [.json op]) = journalOps file ++ [op] :=
  journalOps_atLineStart h (by simp)

theorem journalOps_cutOff {file : JournalFile} (h : AtLineStart file) :
    journalOps (file ++ [.cutOff]) = journalOps file := by
  rw [journalOps_atLineStart h (by simp)]
  simp [readLine]

/-- Two records on one line are both lost. -/
example (op op' : JournalOp) : journalOps [.json op, .json op', .newline, .newline] = [] := by
  rw [show [Written.json op, .json op', .newline, .newline] = [.json op, .json op'] ++ .newline :: ([] ++ [.newline])
    from rfl, journalOps_append_newline, journalOps_newline, journalOps_line (by simp)]
  rfl

end Mobfs
