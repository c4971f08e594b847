import Mobfs.Vfs.SetAttributes
/-!
# What a new entry has

The requests of `create` and `mkdir` may reach the daemon any number of times, and stop at any
call. What is at the path then has the mode it was made with, or the one it had before.
-/

namespace Mobfs

open Lib Std

/-! ## A request for the operation -/

section Making
variable {w : Walks} {blobs : String → Bytes} {s s' : TimedTree} {t t' : Tree} {p : String} {op : JournalOp} {h : Handling}

/-- What a new entry is. -/
def JournalOp.makes (stamp : Stamp) : JournalOp → EntryKind × Nat
  | .truncate _ _ => (.file, stamp.fileMode)
  | _ => (.dir, stamp.dirMode)

end Making

end Mobfs
