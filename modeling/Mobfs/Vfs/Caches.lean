import Mobfs.Vfs.Subtree
/-!
# The tables of names

`metas` and `dirs` as tables, with what the calls of the mount do to them. An entry
of `metas` is used however old it is, a listing only by `dir_listing`, which looks at
its age where no change feed is live.
-/

namespace Mobfs

open Lib Std
open WriteBack (matching)

/-- What `dir_listing` looks at beside the listing. -/
structure CacheClock where
  ttl : Nat
  feedLive : Bool
  now : Nat
  deriving DecidableEq, Repr

/-- A listing made then is still used. -/
def CacheClock.fresh (k : CacheClock) (created : Nat) : Bool :=
  k.ttl = 0 || k.feedLive || k.now - created ≤ k.ttl

abbrev DirEntries (μ : Type) := List (String × μ)

structure Caches (μ : Type) where
  metas : ExtTreeMap String μ
  dirs : ExtTreeMap String (Nat × DirEntries μ)

namespace Caches

variable {μ : Type}

def empty : Caches μ := ⟨∅, ∅⟩

def dirListing (c : Caches μ) (k : CacheClock) (dir : String) : Option (DirEntries μ) :=
  match c.dirs[dir]? with
  | none => none
  | some (created, entries) => if k.fresh created then some entries else none

def knownAbsent (c : Caches μ) (k : CacheClock) (dir name : String) : Bool :=
  match c.dirListing k dir with
  | none => false
  | some entries => !entries.any fun e => e.1 = name

def setMeta (c : Caches μ) (path : String) (m : μ) : Caches μ := { c with metas := c.metas.insert path m }

def forget (c : Caches μ) (path : String) : Caches μ := { c with metas := c.metas.erase path }

def setDir (c : Caches μ) (dir : String) (now : Nat) (entries : DirEntries μ) : Caches μ :=
  { c with dirs := c.dirs.insert dir (now, entries) }

/-- `get_mut` of a listing. -/
def editDir (c : Caches μ) (dir : String) (f : DirEntries μ → DirEntries μ) : Caches μ :=
  match c.dirs[dir]? with
  | none => c
  | some (created, entries) => { c with dirs := c.dirs.insert dir (created, f entries) }

def without (name : String) (entries : DirEntries μ) : DirEntries μ := entries.filter fun e => e.1 ≠ name

def dirUpsert (c : Caches μ) (path : String) (m : μ) : Caches μ :=
  c.editDir (splitParent path).1 fun entries => without (splitParent path).2 entries ++ [((splitParent path).2, m)]

def dirRemove (c : Caches μ) (path : String) : Caches μ :=
  let c := c.editDir (splitParent path).1 (without (splitParent path).2)
  { c with dirs := removeSubtree c.dirs path }

/-- What `remove` does to the tables. -/
def removed (c : Caches μ) (path : String) : Caches μ :=
  { c with metas := removeSubtree c.metas path }.dirRemove path

/-- What `rename` does to the tables. -/
def renamed (c : Caches μ) (src dst : String) : Caches μ :=
  let c := (⟨moveSubtree c.metas src dst, moveSubtree c.dirs src dst⟩ : Caches μ).dirRemove src
  match c.metas[dst]? with
  | some m => c.dirUpsert dst m
  | none => { c with dirs := c.dirs.erase (splitParent dst).1 }

/-- A critical section of a call or of the feed thread that changes a table. -/
inductive Edit (μ : Type) where
  | setMeta (path : String) (m : μ)
  | forget (path : String)
  | setDir (dir : String) (now : Nat) (entries : DirEntries μ)
  | dropDir (dir : String)
  | dirUpsert (path : String) (m : μ)
  | dirRemove (path : String)
  | moveMetas (src dst : String)
  | moveDirs (src dst : String)
  | dropMetas (path : String)
  | dropDirs (path : String)

def edit (c : Caches μ) : Edit μ → Caches μ
  | .setMeta path m => c.setMeta path m
  | .forget path => c.forget path
  | .setDir dir now entries => c.setDir dir now entries
  | .dropDir dir => { c with dirs := c.dirs.erase dir }
  | .dirUpsert path m => c.dirUpsert path m
  | .dirRemove path => c.dirRemove path
  | .moveMetas src dst => { c with metas := moveSubtree c.metas src dst }
  | .moveDirs src dst => { c with dirs := moveSubtree c.dirs src dst }
  | .dropMetas path => { c with metas := removeSubtree c.metas path }
  | .dropDirs path => { c with dirs := removeSubtree c.dirs path }

/-! ## What is then in the tables -/

variable {c : Caches μ} {path dir : String}

@[simp] theorem metas_setMeta (m : μ) : (c.setMeta path m).metas = c.metas.insert path m := rfl

@[simp] theorem dirs_setMeta (m : μ) : (c.setMeta path m).dirs = c.dirs := rfl

@[simp] theorem metas_forget : (c.forget path).metas = c.metas.erase path := rfl

@[simp] theorem dirs_forget : (c.forget path).dirs = c.dirs := rfl

@[simp] theorem metas_setDir (now : Nat) (es : DirEntries μ) : (c.setDir dir now es).metas = c.metas := rfl

@[simp] theorem dirs_setDir (now : Nat) (es : DirEntries μ) :
    (c.setDir dir now es).dirs = c.dirs.insert dir (now, es) := rfl

@[simp] theorem metas_editDir (f : DirEntries μ → DirEntries μ) : (c.editDir dir f).metas = c.metas := by
  unfold editDir
  split <;> rfl

theorem dirs_editDir (f : DirEntries μ → DirEntries μ) (d : String) :
    (c.editDir dir f).dirs[d]? = if d = dir then c.dirs[d]?.map (fun x => (x.1, f x.2)) else c.dirs[d]? := by
  unfold editDir
  split
  · rename_i h
    split
    · rename_i hd
      simp [hd, h]
    · rfl
  · rename_i created entries h
    rw [get?_insert]
    split
    · rename_i hd
      simp [hd, h]
    · rfl

@[simp] theorem metas_dirUpsert (m : μ) : (c.dirUpsert path m).metas = c.metas := metas_editDir _

@[simp] theorem metas_dirRemove : (c.dirRemove path).metas = c.metas := metas_editDir _

@[simp] theorem metas_removed : (c.removed path).metas = removeSubtree c.metas path := metas_dirRemove

@[simp] theorem metas_renamed (src dst : String) : (c.renamed src dst).metas = moveSubtree c.metas src dst := by
  simp only [renamed]
  split
  · rw [metas_dirUpsert, metas_dirRemove]
  · exact metas_dirRemove

/-! ## What holds of every listing -/

def AllListings (P : Nat → DirEntries μ → Prop) (c : Caches μ) : Prop :=
  ∀ (d : String) (created : Nat) (entries : DirEntries μ), c.dirs[d]? = some (created, entries) → P created entries

section AllListings
variable {P : Nat → DirEntries μ → Prop}

theorem allListings_empty : (empty : Caches μ).AllListings P := by
  intro d created entries h
  simp [empty] at h

theorem AllListings.editDir (h : c.AllListings P) {f : DirEntries μ → DirEntries μ}
    (hf : ∀ created entries, c.dirs[dir]? = some (created, entries) → P created (f entries)) :
    (c.editDir dir f).AllListings P := by
  intro d created entries hd
  rw [dirs_editDir] at hd
  split at hd
  · rename_i heq
    obtain ⟨⟨created', entries'⟩, hd', he⟩ := Option.map_eq_some_iff.1 hd
    cases he
    exact hf _ _ (heq ▸ hd')
  · exact h d created entries hd

/-- Listings are taken out or put elsewhere. -/
theorem AllListings.mono (h : c.AllListings P) {c' : Caches μ}
    (hd : ∀ (d : String) x, c'.dirs[d]? = some x → ∃ d' : String, c.dirs[d']? = some x) : c'.AllListings P := by
  intro d created entries hx
  obtain ⟨d', hd'⟩ := hd d _ hx
  exact h d' created entries hd'

theorem AllListings.dropDirs (h : c.AllListings P) (path : String) :
    ({ c with dirs := removeSubtree c.dirs path } : Caches μ).AllListings P := by
  refine h.mono fun d x hx => ⟨d, ?_⟩
  simp only [getElem?_removeSubtree] at hx
  split at hx
  · cases hx
  · exact hx

/-- An edit other than of a whole listing or of one of its entries takes away at most. -/
theorem AllListings.edit (h : c.AllListings P)
    (hwithout : ∀ created name (entries : DirEntries μ), P created entries → P created (without name entries)) {e : Edit μ}
    (hset : ∀ dir now entries, e = .setDir dir now entries → P now entries)
    (hupsert : ∀ path m created entries, e = .dirUpsert path m → c.dirs[(splitParent path).1]? = some (created, entries) →
      P created (without (splitParent path).2 entries ++ [((splitParent path).2, m)])) : (c.edit e).AllListings P := by
  cases e with
  | setMeta path m => exact h
  | forget path => exact h
  | moveMetas src dst => exact h
  | dropMetas path => exact h
  | setDir dir now entries =>
    intro d created entries' hd
    simp only [Caches.edit, dirs_setDir, get?_insert] at hd
    split at hd
    · cases hd
      exact hset dir now entries rfl
    · exact h d created entries' hd
  | dropDir dir =>
    refine h.mono fun d x hx => ⟨d, ?_⟩
    simp only [Caches.edit, get?_erase] at hx
    split at hx
    · cases hx
    · exact hx
  | dirUpsert path m => exact h.editDir fun created entries hd => hupsert path m created entries rfl hd
  | dirRemove path => exact (h.editDir fun created entries hd => hwithout _ _ _ (h _ _ _ hd)).dropDirs path
  | moveDirs src dst =>
    refine h.mono fun d x hx => ?_
    simp only [Caches.edit, getElem?_moveSubtree] at hx
    split at hx
    · split at hx
      · cases hx
      · exact ⟨_, hx⟩
    · split at hx
      · cases hx
      · exact ⟨_, hx⟩
  | dropDirs path => exact h.dropDirs path

end AllListings

/-! ## Names in a listing -/

def names (entries : DirEntries μ) : List String := entries.map (·.1)

/-- No name stands twice in a listing. -/
def Distinct (c : Caches μ) : Prop :=
  ∀ (d : String) (created : Nat) (entries : DirEntries μ), c.dirs[d]? = some (created, entries) → (names entries).Nodup

theorem distinct_empty : (empty : Caches μ).Distinct := allListings_empty

theorem names_without (name : String) (entries : DirEntries μ) :
    names (without name entries) = (names entries).filter (· ≠ name) := by
  simp [names, without, List.filter_map, Function.comp_def]

theorem nodup_without {name : String} {entries : DirEntries μ} (h : (names entries).Nodup) :
    (names (without name entries)).Nodup := by
  rw [names_without]
  exact h.filter _

theorem Distinct.edit (h : c.Distinct) {e : Edit μ} (he : ∀ dir now entries, e = .setDir dir now entries → (names entries).Nodup) :
    (c.edit e).Distinct := by
  refine AllListings.edit (P := fun _ entries => (names entries).Nodup) h (fun _ _ _ => nodup_without) he ?_
  intro path m created entries _ hd
  have hnot : (splitParent path).2 ∉ (names entries).filter (· ≠ (splitParent path).2) := by simp
  rw [names, List.map_append]
  change (names (without _ entries) ++ [(splitParent path).2]).Nodup
  rw [names_without]
  exact List.nodup_append.2 ⟨(h _ _ _ hd).filter _, by simp, by
    rintro a ha b hb rfl
    exact hnot (List.mem_singleton.1 hb ▸ ha)⟩

end Caches

end Mobfs
