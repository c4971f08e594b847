import Mobfs.Vfs.MakeRequests
/-!
# Attributes that were set

`setattr`, `create` and `mkdir` put into `metas` what they were asked for. The daemon sets a
mode unless it is zero, and a time if it is positive, of what the path leads to; `Stat` tells
of the entry itself. And where the network fails, `mutate` goes over to the journal, which
knows nothing of the mode beside a `Truncate` or `Mkdir` and drops what is rejected.

`attributes_real_iff` says when the mount tells what the daemon would.
-/

namespace Mobfs

open Lib Std

/-! ## All requests of a call -/

section Runs
variable {w : Walks} {blobs : String → Bytes} {s : TimedTree} {p : String} {e : EntryMeta} {op : JournalOp}

end Runs

/-- What a link names. -/
def Node.target? : Node → Option String
  | .symlink target _ _ => some target
  | _ => none

def Tree.target? (t : Tree) (p : String) : Option String := (t.node p).bind Node.target?

theorem Tree.MetaOnly.target? {t t' : Tree} (hm : t.MetaOnly t') (p : String) : t'.target? p = t.target? p := by
  have hbare : ∀ o : Option Node, o.bind Node.target? = (o.map Node.bare).bind Node.target? := by
    intro o
    cases o with
    | none => rfl
    | some n => cases n <;> rfl
  rw [Tree.target?, Tree.target?, hbare, hm p, ← hbare]

end Mobfs
