import Mobfs.Vfs.Threads
/-!
# Renames and removals

`rename` flushes what it finds under both names, renames on the remote and then
moves the inodes. `remove` drops the buffers under the name, waits for the uploads
to it, removes on the remote and then forgets the inodes. Both are threads beside
those of `Mobfs.Vfs.WriteBack`; a flush of a rename runs there.

`left` is for stating properties: the names given up by a rename or removal that has
returned `Ok`, until a rename brings something there again.
-/

namespace Mobfs

open Lib Std

/-! ## Inodes -/

/-- `Inodes`, by its map from inodes to paths. The map back, `by_path`, is its inverse. -/
structure Inodes where
  path : Nat → Option String
  next : Nat
  fresh : ∀ i, next ≤ i → path i = none
  inj : ∀ i j p, path i = some p → path j = some p → i = j

/-- `format!("{to}{}", &key[from.len()..])`. -/
def rebase (src dst key : String) : String := String.ofList (dst.toList ++ key.toList.drop src.toList.length)

open WriteBack (matching)

theorem matching_iff {d p : String} : matching d p = true ↔ p = d ∨ below d p = true := by
  simp [matching]

theorem matching_self (p : String) : matching p p = true := matching_iff.2 (.inl rfl)

/-- The path begins with the name, which a slash follows if anything does. -/
theorem matching_iff_append {d p : String} :
    matching d p = true ↔ ∃ r, p.toList = d.toList ++ r ∧ (r = [] ∨ ∃ q, r = '/' :: q) := by
  rw [matching_iff, below_iff]
  constructor
  · rintro (rfl | ⟨q, hq⟩)
    · exact ⟨[], by simp, .inl rfl⟩
    · exact ⟨'/' :: q, hq, .inr ⟨q, rfl⟩⟩
  · rintro ⟨r, hr, rfl | ⟨q, rfl⟩⟩
    · exact .inl (String.toList_inj.1 (by simpa using hr))
    · exact .inr ⟨q, hr⟩

theorem matching_rebase {src key : String} (dst : String) (h : matching src key = true) :
    matching dst (rebase src dst key) = true := by
  obtain ⟨r, hr, hshape⟩ := matching_iff_append.1 h
  exact matching_iff_append.2 ⟨r, by simp [rebase, hr], hshape⟩

theorem rebase_self (src dst : String) : rebase src dst src = dst := by
  rw [← String.toList_inj]
  simp [rebase]

theorem rebase_inj {src dst k k' : String} (hk : matching src k = true) (hk' : matching src k' = true)
    (h : rebase src dst k = rebase src dst k') : k = k' := by
  obtain ⟨r, hr, -⟩ := matching_iff_append.1 hk
  obtain ⟨r', hr', -⟩ := matching_iff_append.1 hk'
  have hrr : r = r' := by
    have := congrArg String.toList h
    simpa [rebase, hr, hr'] using this
  rw [← String.toList_inj, hr, hr', hrr]

theorem rebase_rebase {src key : String} (dst : String) (h : matching src key = true) :
    rebase dst src (rebase src dst key) = key := by
  obtain ⟨r, hr, -⟩ := matching_iff_append.1 h
  rw [← String.toList_inj]
  simp [rebase, hr]

theorem matching_below {a b p : String} (hab : matching a b = true) (hp : below b p = true) : below a p = true := by
  rcases matching_iff.1 hab with rfl | h
  · exact hp
  · exact below_trans h hp

theorem matching_trans {a b p : String} (hab : matching a b = true) (hp : matching b p = true) : matching a p = true := by
  rcases matching_iff.1 hp with rfl | h
  · exact hab
  · exact matching_iff.2 (.inr (matching_below hab h))

/-- Two names a path lies under, one lies under the other. -/
theorem matching_total {a b p : String} (ha : matching a p = true) (hb : matching b p = true) :
    matching a b = true ∨ matching b a = true := by
  simp only [matching_iff] at *
  rcases ha with rfl | ha
  · exact .inr hb
  · rcases hb with rfl | hb
    · exact .inl (.inr ha)
    · rcases below_total ha hb with rfl | h | h
      · exact .inl (.inl rfl)
      · exact .inl (.inr h)
      · exact .inr (.inr h)

namespace Inodes

def get (n : Inodes) (p : String) : Option Nat := (List.range n.next).find? fun i => n.path i = some p

theorem ne_of_get_eq_none {n : Inodes} {p : String} (h : n.get p = none) (i : Nat) : n.path i ≠ some p := by
  intro hi
  have hlt : i < n.next := by
    apply Nat.lt_of_not_le
    intro hle
    rw [n.fresh i hle] at hi
    cases hi
  have := List.find?_eq_none.1 h i (List.mem_range.2 hlt)
  simp [hi] at this

/-- `ino`: the inode of a path, a new one if it has none. -/
def ino (n : Inodes) (p : String) : Inodes :=
  match h : n.get p with
  | some _ => n
  | none =>
    { path := Function.update n.path n.next (some p)
      next := n.next + 1
      fresh := by
        intro i hi
        rw [Function.update_of_ne (by omega)]
        exact n.fresh i (by omega)
      inj := by
        intro i j q hi hj
        have hnew := ne_of_get_eq_none h
        simp only [Function.update_apply] at hi hj
        grind [n.inj] }

/-- An inode keeps the path it has. -/
theorem ino_path {n : Inodes} {p : String} {i : Nat} (hi : n.path i ≠ none) : (n.ino p).path i = n.path i := by
  unfold ino
  split
  · rfl
  · refine Function.update_of_ne ?_ _ _
    rintro rfl
    exact hi (n.fresh _ (Nat.le_refl _))

def removeTree (n : Inodes) (p : String) : Inodes where
  path := fun i => (n.path i).filter fun q => !matching p q
  next := n.next
  fresh := by
    intro i hi
    rw [n.fresh i hi]
    rfl
  inj := by
    intro i j q hi hj
    simp only [Option.filter_eq_some_iff] at hi hj
    exact n.inj i j q hi.1 hj.1

theorem removeTree_path {n : Inodes} {p q : String} {i : Nat} :
    (n.removeTree p).path i = some q ↔ n.path i = some q ∧ matching p q = false := by
  simp [removeTree, Option.filter_eq_some_iff]

/-- The paths under `src` move, and what was under `dst` is gone. -/
def rename (n : Inodes) (src dst : String) : Inodes where
  path := fun i => ((n.removeTree dst).path i).map fun q => if matching src q then rebase src dst q else q
  next := n.next
  fresh := by
    intro i hi
    rw [(n.removeTree dst).fresh i hi]
    rfl
  inj := by
    intro i j p hi hj
    obtain ⟨q, hq, rfl⟩ := Option.map_eq_some_iff.1 hi
    obtain ⟨q', hq', he⟩ := Option.map_eq_some_iff.1 hj
    have hout : ∀ i q, (n.removeTree dst).path i = some q → matching dst q = false := fun i q h => (removeTree_path.1 h).2
    -- What has moved is under `dst`, what has not is not.
    have hqq : q' = q := by
      split at he
      · split at he
        · exact rebase_inj ‹_› ‹_› he
        · have := matching_rebase dst ‹matching src q' = true›
          rw [he, hout i q hq] at this
          cases this
      · split at he
        · have := matching_rebase dst ‹matching src q = true›
          rw [← he, hout j q' hq'] at this
          cases this
        · exact he
    exact (n.removeTree dst).inj i j q hq (hqq ▸ hq')

theorem rename_path {n : Inodes} {src dst p : String} {i : Nat} (h : (n.rename src dst).path i = some p) :
    (matching dst p = true ∧ ∃ q, n.path i = some q ∧ matching src q = true) ∨
    (n.path i = some p ∧ matching src p = false) := by
  obtain ⟨q, hq, rfl⟩ := Option.map_eq_some_iff.1 h
  obtain ⟨hq, -⟩ := removeTree_path.1 hq
  by_cases hs : matching src q = true
  · rw [if_pos hs]
    exact .inl ⟨matching_rebase dst hs, q, hq, hs⟩
  · rw [if_neg hs]
    exact .inr ⟨hq, Bool.not_eq_true _ ▸ hs⟩

theorem rename_path_of_not {n : Inodes} {src dst q : String} {i : Nat} (h : n.path i = some q)
    (hdst : matching dst q = false) (hsrc : matching src q = false) : (n.rename src dst).path i = some q := by
  have hkept := removeTree_path.2 ⟨h, hdst⟩
  simp only [rename, hkept, Option.map_some, hsrc, Bool.false_eq_true, if_false]

/-- Only what is under `dst` goes. -/
theorem rename_path_ne_none {n : Inodes} {src dst q : String} {i : Nat} (h : n.path i = some q)
    (hdst : matching dst q = false) : (n.rename src dst).path i ≠ none := by
  have hkept := removeTree_path.2 ⟨h, hdst⟩
  simp [rename, hkept]

end Inodes

/-! ## Threads of renames and removals -/

/-- A rename or removal under way, by what it does next. -/
inductive NameOp where
  | flushFrom (src dst : String)
  | flushTo (src dst : String)
  /-- `mutate` with the rename. -/
  | rename (src dst : String)
  | moveInodes (src dst : String)
  | dropBuffers (p : String)
  | waitUploads (p : String)
  /-- `mutate` with the removal. -/
  | remove (p : String)
  | forgetInodes (p : String)

/-- A name given up, with the numbers of writes and of inodes there were then. -/
structure Left where
  path : String
  written : Nat
  inodes : Nat

structure Names where
  wb : WriteBack
  inodes : Inodes
  ops : Nat → Option NameOp
  left : List Left

inductive NameAct where
  | vfs (a : WriteBackAct)
  /-- A path gets its inode, in a lookup, a listing or a creation. -/
  | ino (p : String)
  | rename (t : Nat) (src dst : String)
  | remove (t : Nat) (p : String)
  /-- `mutate` returns, and the operation was applied on the remote or not. -/
  | mutated (t : Nat) (applied ok : Bool)
  | run (t : Nat)

namespace Names

def goOn (s : Names) (t : Nat) (op : Option NameOp) : Names := { s with ops := Function.update s.ops t op }

def setInodes (s : Names) (n : Inodes) : Names := { s with inodes := n, wb := { s.wb with inodes := n.path } }

/-- The thread calls `flush_matching`. -/
def flushes (s : Names) (t : Nat) (p : String) : Names :=
  { s with wb := s.wb.goOn t [.collect p, .matched p (s.wb.writtenTo p)] }

def setRemote (s : Names) (remote : String → Bytes) : Names := { s with wb := { s.wb with remote } }

/-- What a rename does to the remote files. -/
def renameRemote (s : Names) (src dst : String) : Names :=
  s.setRemote fun q =>
    if matching dst q then s.wb.remote (rebase dst src q)
    else if matching src q then []
    else s.wb.remote q

def removeRemote (s : Names) (p : String) : Names :=
  s.setRemote fun q => if matching p q then [] else s.wb.remote q

/-- `write_buffers.retain`. -/
def dropBuffers (s : Names) (p : String) : Names :=
  { s with wb := { s.wb with buffers := collect (fun _ c => if matching p c.path then none else some c) s.wb.buffers } }

/-- The thread has executed an instruction. If its `flush_matching` is over, the
rename goes on or returns the error. -/
def afterRun (s : Names) (t : Nat) (wb : WriteBack) : Names :=
  let ok := match s.wb.threads t with
    | .matched _ _ :: _ => true
    | _ => false
  let s := { s with wb }
  match s.ops t, wb.threads t with
  | some (.flushFrom src dst), [] => if ok then (s.flushes t dst).goOn t (some (.flushTo src dst)) else s.goOn t none
  | some (.flushTo src dst), [] => s.goOn t (if ok then some (.rename src dst) else none)
  | _, _ => s

/-- A name is given up, and one that a rename leads to is not given up any more. -/
def leave (s : Names) (p : String) (dst : Option String) : Names :=
  { s with left := (⟨p, s.wb.written.length, s.inodes.next⟩ :: s.left).filter fun l =>
      dst.all fun d => !(matching l.path d || matching d l.path) }

/-- The next critical section of a rename or removal. -/
def runOp (s : Names) (t : Nat) : NameOp → Option Names
  | .moveInodes src dst => some (((s.leave src (some dst)).setInodes (s.inodes.rename src dst)).goOn t none)
  | .forgetInodes p => some (((s.leave p none).setInodes (s.inodes.removeTree p)).goOn t none)
  | .dropBuffers p => some ((s.dropBuffers p).goOn t (some (.waitUploads p)))
  | .waitUploads p =>
    if s.wb.inflight.any fun u => u.pending.path = p then none else some (s.goOn t (some (.remove p)))
  | _ => none

def step (ignore : List String) (s : Names) : NameAct → Option Names
  | .vfs (.setInodes _) => none
  | .vfs (.call t c) =>
    match s.ops t with
    | none => (s.wb.step ignore (.call t c)).map fun wb => { s with wb }
    | some _ => none
  | .vfs (.run t) => (s.wb.step ignore (.run t)).map (s.afterRun t)
  | .vfs a => (s.wb.step ignore a).map fun wb => { s with wb }
  | .ino p => some (s.setInodes (s.inodes.ino p))
  | .rename t src dst =>
    match s.ops t, s.wb.threads t with
    | none, [] =>
      if isSidecar src || isSidecar dst || shouldIgnoreRel ignore dst then none
      else some ((s.flushes t src).goOn t (some (.flushFrom src dst)))
    | _, _ => none
  | .remove t p =>
    match s.ops t, s.wb.threads t with
    | none, [] => if isSidecar p || shouldIgnoreRel ignore p then none else some (s.goOn t (some (.dropBuffers p)))
    | _, _ => none
  | .mutated t applied ok =>
    match s.ops t with
    | some (.rename src dst) =>
      some ((if applied then s.renameRemote src dst else s).goOn t (if ok then some (.moveInodes src dst) else none))
    | some (.remove p) =>
      some ((if applied then s.removeRemote p else s).goOn t (if ok then some (.forgetInodes p) else none))
    | _ => none
  | .run t => (s.ops t).bind (s.runOp t)

/-- Nothing has been written yet, and no rename or removal is under way. -/
def start (inodes : Inodes) (remote : String → Bytes) : Names :=
  ⟨WriteBack.start inodes.path remote, inodes, fun _ => none, []⟩

end Names

end Mobfs
