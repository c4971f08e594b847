import Mobfs.Path
import Mobfs.Snapshot
/-!
# Directory trees

The tree of files under a root, local or remote. An entry is kept under its path
relative to the root; whatever holds an entry is a directory (`Tree.closed`), so
a tree with a file inside a file cannot be built.

`Links` is what the operating system makes of symbolic links. A path is found
where its text says if no directory on the way is a link (`locate_plain`); what
a path through a link leads to is left open.
-/

namespace Mobfs

open Std Lib

/-- An entry on disk. Times are whole seconds since the epoch; `other` stands for
sockets, pipes and devices. -/
inductive Node where
  | file (data : List UInt8) (mode : Nat) (mtime : Int)
  | dir (mode : Nat)
  | symlink (target : String) (mode : Nat) (mtime : Int)
  | other
  deriving DecidableEq, Repr

def Node.isDir : Node → Bool
  | .dir _ => true
  | _ => false

def Node.isLink : Node → Bool
  | .symlink _ _ _ => true
  | _ => false

/-- The bits of a mode that can be set. -/
def masked (mode : Nat) : Nat := mode &&& 0o7777

namespace Node

def chmod (mode : Nat) : Node → Node
  | .file data _ mtime => .file data mode mtime
  | .dir _ => .dir mode
  | .symlink target _ mtime => .symlink target mode mtime
  | .other => .other

/-- The times of directories are not kept. -/
def utime (modified : Int) : Node → Node
  | .file data mode _ => .file data mode modified
  | .symlink target mode _ => .symlink target mode modified
  | n => n

def mode? : Node → Option Nat
  | .file _ mode _ => some mode
  | .dir mode => some mode
  | .symlink _ mode _ => some mode
  | .other => none

def mtime? : Node → Option Int
  | .file _ _ mtime => some mtime
  | .symlink _ _ mtime => some mtime
  | _ => none

/-- The entry without mode and time. -/
def bare (n : Node) : Node := (n.chmod 0).utime 0

@[simp] theorem isDir_chmod (mode : Nat) (n : Node) : (n.chmod mode).isDir = n.isDir := by
  cases n <;> rfl

@[simp] theorem isDir_utime (modified : Int) (n : Node) : (n.utime modified).isDir = n.isDir := by
  cases n <;> rfl

@[simp] theorem bare_chmod (mode : Nat) (n : Node) : (n.chmod mode).bare = n.bare := by
  cases n <;> rfl

@[simp] theorem bare_utime (modified : Int) (n : Node) : (n.utime modified).bare = n.bare := by
  cases n <;> rfl

theorem mode?_utime (modified : Int) (n : Node) : (n.utime modified).mode? = n.mode? := by
  cases n <;> rfl

end Node

structure Tree where
  nodes : ExtTreeMap String Node
  closed : ∀ d p n, below d p = true → nodes[p]? = some n → nodes[d]?.any Node.isDir = true

namespace Tree

def node (t : Tree) (p : String) : Option Node := t.nodes[p]?

def isDir (t : Tree) (p : String) : Bool := (t.node p).any Node.isDir

def isLink (t : Tree) (p : String) : Bool := (t.node p).any Node.isLink

/-- The paths of all entries. -/
def paths (t : Tree) : List String := t.nodes.keys

theorem mem_paths {t : Tree} {p : String} : p ∈ t.paths ↔ t.node p ≠ none := by
  rw [paths, ExtTreeMap.mem_keys, mem_iff_get?, node, Option.ne_none_iff_exists']

theorem isDir_of_below {t : Tree} {d p : String} (hd : below d p = true) (hp : t.node p ≠ none) :
    t.isDir d = true := by
  obtain ⟨n, hn⟩ := Option.ne_none_iff_exists'.1 hp
  exact t.closed d p n hd hn

theorem none_of_below {t : Tree} {d p : String} (hd : below d p = true) (h : t.isDir d = false) :
    t.node p = none := by
  by_contra hp
  rw [isDir_of_below hd hp] at h
  cases h

theorem isDir_iff {t : Tree} {p : String} : t.isDir p = true ↔ ∃ n, t.node p = some n ∧ n.isDir = true := by
  rw [isDir, Option.any_eq_true]

theorem isLink_of_isDir {t : Tree} {p : String} (h : t.isDir p = true) : t.isLink p = false := by
  simp only [isDir, Option.any_eq_true] at h
  obtain ⟨n, hn, hd⟩ := h
  cases n with
  | dir m => simp [isLink, hn, Node.isLink]
  | _ => cases hd

/-! ## Changing a tree -/

def empty : Tree := ⟨∅, fun _ _ _ _ h => by simp at h⟩

/-- Puts an entry in place of a file, a link or nothing, in a directory that
exists. -/
def place (t : Tree) (p : String) (n : Node) : Option Tree :=
  if h : (∀ d ∈ ancestors p, t.isDir d = true) ∧ t.isDir p = false then
    some ⟨t.nodes.insert p n, by
      intro d q m hd hq
      rw [get?_insert] at hq ⊢
      by_cases hqp : q = p
      · -- The directories of `p` exist and are not `p` itself.
        subst hqp
        have hne : d ≠ q := fun e => by rw [e, below_irrefl] at hd; cases hd
        rw [if_neg hne]
        exact h.1 d (mem_ancestors_iff.2 hd)
      · rw [if_neg hqp] at hq
        have hdir : t.isDir d = true := t.closed d q m hd hq
        have hne : d ≠ p := fun e => by rw [e, h.2] at hdir; cases hdir
        rw [if_neg hne]
        exact hdir⟩
  else none

/-- Removes an entry and all that lies below it. -/
def drop (t : Tree) (p : String) : Tree :=
  ⟨eraseWhere t.nodes fun q => q = p ∨ below p q = true, by
    intro d q m hd hq
    rw [get?_eraseWhere] at hq ⊢
    simp only [decide_eq_true_eq] at hq ⊢
    by_cases hq' : q = p ∨ below p q = true
    · rw [if_pos hq'] at hq
      cases hq
    · have hd' : ¬ (d = p ∨ below p d = true) := by
        rintro (rfl | hpd)
        · exact hq' (.inr hd)
        · exact hq' (.inr (below_trans hpd hd))
      rw [if_neg hq'] at hq
      rw [if_neg hd']
      exact t.closed d q m hd hq⟩

/-- The tree with the given entries, each placed after the directories it is in. -/
def build (entries : List (String × Node)) : Tree :=
  entries.foldl (fun t x => (t.place x.1 x.2).getD t) empty

theorem place_eq_some {t t' : Tree} {p : String} {n : Node} (h : t.place p n = some t') :
    (∀ d, below d p = true → t.isDir d = true) ∧ t.isDir p = false ∧
      ∀ q, t'.node q = if q = p then some n else t.node q := by
  unfold place at h
  split at h
  · rename_i hc
    cases h
    refine ⟨fun d hd => hc.1 d (mem_ancestors_iff.2 hd), hc.2, ?_⟩
    intro q
    exact get?_insert _ _ _ _
  · cases h

theorem place_isSome {t : Tree} {p : String} (n : Node) (hd : ∀ d, below d p = true → t.isDir d = true)
    (hp : t.isDir p = false) : ∃ t', t.place p n = some t' := by
  refine ⟨_, dif_pos ⟨?_, hp⟩⟩
  intro d hm
  exact hd d (mem_ancestors_iff.1 hm)

theorem node_drop (t : Tree) (p q : String) :
    (t.drop p).node q = if q = p ∨ below p q = true then none else t.node q := by
  simp [node, drop, get?_eraseWhere]

/-- There is nothing below a file or a link. -/
theorem node_drop_of_not_isDir {t : Tree} {p : String} (h : t.isDir p = false) (q : String) :
    (t.drop p).node q = if q = p then none else t.node q := by
  rw [node_drop]
  by_cases hq : q = p
  · rw [if_pos (.inl hq), if_pos hq]
  · by_cases hb : below p q = true
    · rw [if_pos (.inr hb), if_neg hq, none_of_below hb h]
    · rw [if_neg (by simp [hq, hb]), if_neg hq]

end Tree

/-! ## Symbolic links -/

/-- `locate` is the entry a path leads to when the links on the way to its last
part are followed, if that is inside the tree; the other fields are about a link
at the path itself. -/
structure Links where
  locate : Tree → String → Option String
  leadsToDir : Tree → String → Bool
  leadsSomewhere : Tree → String → Bool
  read : Tree → String → Option (List UInt8)
  locate_plain : ∀ t p, (∀ d, below d p = true → t.isLink d = false) → locate t p = some p

/-- No directory on the way to the path is a link. -/
def Tree.Plain (t : Tree) (p : String) : Prop := ∀ d, below d p = true → t.isLink d = false

theorem Tree.plain_of_node {t : Tree} {p : String} (h : t.node p ≠ none) : t.Plain p :=
  fun _ hd => isLink_of_isDir (isDir_of_below hd h)

instance (t : Tree) (p : String) : Decidable (t.Plain p) :=
  decidable_of_iff (∀ d ∈ ancestors p, t.isLink d = false)
    ⟨fun h d hd => h d (mem_ancestors_iff.2 hd), fun h d hd => h d (mem_ancestors_iff.1 hd)⟩

/-! ## Snapshots of a tree -/

/-- `modified_secs`: a time before the epoch counts as zero. -/
def modifiedSecs (mtime : Int) : Int := max mtime 0

section Scan
variable (sha : List UInt8 → String) (ignore : List String)

/-- What a snapshot says of an entry. -/
def entryMeta : Node → Option EntryMeta
  | .symlink target mode mtime =>
    some ⟨.symlink, target.utf8ByteSize, modifiedSecs mtime, some (sha target.toUTF8.toList), mode, some target⟩
  | .dir mode => some ⟨.dir, 0, 0, none, mode, none⟩
  | .file data mode mtime => some ⟨.file, data.length, modifiedSecs mtime, some (sha data), mode, none⟩
  | .other => none

/-- `snapshot`, of the client and of the daemon alike. -/
def scan (t : Tree) : Snapshot :=
  collect (fun rel n => if shouldIgnoreRel ignore rel then none else entryMeta sha n) t.nodes

theorem get?_scan (t : Tree) (p : String) :
    (scan sha ignore t)[p]? = if shouldIgnoreRel ignore p then none else (t.node p).bind (entryMeta sha) := by
  rw [scan, get?_collect]
  cases h : shouldIgnoreRel ignore p with
  | true => cases t.nodes[p]? <;> rfl
  | false => rfl

variable {sha ignore}

theorem scan_congr {t t' : Tree} {p : String} (h : t.node p = t'.node p) :
    (scan sha ignore t)[p]? = (scan sha ignore t')[p]? := by
  rw [get?_scan, get?_scan, h]

theorem node_of_scan {t : Tree} {p : String} {m : EntryMeta} (h : (scan sha ignore t)[p]? = some m) :
    shouldIgnoreRel ignore p = false ∧ ∃ n, t.node p = some n ∧ entryMeta sha n = some m := by
  rw [get?_scan] at h
  split at h
  · cases h
  · rename_i hi
    exact ⟨by simpa using hi, Option.bind_eq_some_iff.1 h⟩

theorem node_ne_none_of_scan {t : Tree} {p : String} (h : (scan sha ignore t)[p]? ≠ none) : t.node p ≠ none := by
  obtain ⟨m, hm⟩ := Option.ne_none_iff_exists'.1 h
  obtain ⟨-, n, hn, -⟩ := node_of_scan hm
  simp [hn]

theorem isDir_of_scan {t : Tree} {p : String} {m : EntryMeta} (h : (scan sha ignore t)[p]? = some m) :
    t.isDir p = decide (m.kind = .dir) := by
  obtain ⟨-, n, hn, hm⟩ := node_of_scan h
  rw [Tree.isDir, hn]
  cases n <;> cases hm <;> rfl

/-- What holds a visible entry is a visible directory. -/
theorem scan_dir_of_below {t : Tree} {d p : String} (hd : below d p = true)
    (hp : (scan sha ignore t)[p]? ≠ none) :
    ∃ m, (scan sha ignore t)[d]? = some m ∧ m.kind = .dir := by
  obtain ⟨m, hm⟩ := Option.ne_none_iff_exists'.1 hp
  obtain ⟨hi, n, hn, -⟩ := node_of_scan hm
  have hdir : t.isDir d = true := Tree.isDir_of_below hd (by rw [hn]; simp)
  simp only [Tree.isDir, Option.any_eq_true] at hdir
  obtain ⟨n', hn', hisDir⟩ := hdir
  have hi' : shouldIgnoreRel ignore d = false := by
    by_contra h
    rw [ignored_below hd (by simpa using h)] at hi
    cases hi
  cases n' with
  | dir mode =>
    refine ⟨⟨.dir, 0, 0, none, mode, none⟩, ?_, rfl⟩
    rw [get?_scan, hi', hn']
    rfl
  | _ => cases hisDir

end Scan

end Mobfs
