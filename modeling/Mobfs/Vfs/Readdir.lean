import Mobfs.Lib.Paging
import Mobfs.Lib.Runs
import Mobfs.Vfs.Caches
import Mobfs.Vfs.InodeMaps
import Mobfs.Vfs.NameCache
/-!
# Paging through a directory

A client reads a directory by `readdir`, page by page. Each page lists the directory
anew, from the cached listing or the remote, and `build_listing` gives every entry its
number, one critical section for each. Then it sorts by number and returns what comes
after the last number of the page before.

Other calls run in between, also while a listing is numbered. A rename can then give a
number already in the listing to a name the listing has still to number
(`rename_lists_twice`). `readdir_pages` is for the runs in which none does.
-/

namespace Mobfs

open Lib Std
open WriteBack (matching)

abbrev DirItem := Nat × String × EntryMeta

/-- A listing that is being numbered. `fresh`: it has come from the remote. -/
structure Listing where
  dir : String
  max : Nat
  fresh : Bool
  done : List DirItem
  rest : DirEntries EntryMeta

inductive ReaddirStage where
  | idle
  /-- `list_dir` asks the daemon. -/
  | asking (dir : String) (max : Nat)
  | listing (l : Listing)

/-- The inodes and the names of the mount, and a client that pages through the directory
`dirid`. -/
structure Readdir where
  inodes : InodeMaps
  caches : Caches EntryMeta
  reading : ReaddirStage
  pages : List (Page DirItem)

inductive ReaddirAct where
  /-- The client asks for a page. -/
  | begin (max : Nat) (k : CacheClock)
  | answer (now : Nat) (entries : DirEntries EntryMeta)
  | fails
  /-- The next entry gets its number. -/
  | number (pendingWrite : Bool)
  | finish
  /-- Other calls and the feed thread. -/
  | ino (path : String)
  | rename (src dst : String)
  | removeTree (path : String)
  | edit (e : Caches.Edit EntryMeta)

namespace Readdir

def number (s : Readdir) (l : Listing) (name : String) (m : EntryMeta) (rest : DirEntries EntryMeta) (pendingWrite : Bool) :
    Readdir :=
  let path := joinRel l.dir name
  let caches := if l.fresh && !pendingWrite then s.caches.setMeta path m else s.caches
  let m := if l.fresh then m else (s.caches.metas[path]?).getD m
  let (inodes, ino) := s.inodes.ino path
  { s with inodes, caches, reading := .listing { l with done := l.done ++ [(ino, name, m)], rest } }

/-- The names in a remote directory are distinct. A call of another thread that asks the
daemon puts such an answer into the table, too. -/
def step (dirid : Nat) (s : Readdir) : ReaddirAct → Option Readdir
  | .begin max k =>
    match s.reading, s.inodes.byIno[dirid]? with
    | .idle, some dir =>
      if ended s.pages then none
      else
        match s.caches.dirListing k dir with
        | some entries => some { s with reading := .listing ⟨dir, max, false, [], entries⟩ }
        | none => some { s with reading := .asking dir max }
    | _, _ => none
  | .answer now entries =>
    match s.reading with
    | .asking dir max =>
      if (Caches.names entries).Nodup then
        some { s with caches := s.caches.setDir dir now entries, reading := .listing ⟨dir, max, true, [], entries⟩ }
      else none
    | _ => none
  | .fails =>
    match s.reading with
    | .asking _ _ => some { s with reading := .idle }
    | _ => none
  | .number pendingWrite =>
    match s.reading with
    | .listing l =>
      match l.rest with
      | (name, m) :: rest => some (s.number l name m rest pendingWrite)
      | [] => none
    | _ => none
  | .finish =>
    match s.reading with
    | .listing l =>
      match l.rest with
      | [] =>
        let page := Page.make Prod.fst l.done (cursor Prod.fst s.pages) l.max
        some { s with reading := .idle, pages := s.pages ++ [page] }
      | _ => none
    | _ => none
  | .ino path => some { s with inodes := (s.inodes.ino path).1 }
  | .rename src dst => some { s with inodes := s.inodes.rename src dst }
  | .removeTree path => some { s with inodes := s.inodes.removeTree path }
  | .edit e =>
    match e with
    | .setDir _ _ entries => if (Caches.names entries).Nodup then some { s with caches := s.caches.edit e } else none
    | _ => some { s with caches := s.caches.edit e }

def start : Readdir := ⟨InodeMaps.new, .empty, .idle, []⟩

/-- A rename gives no number that is in the listing to a name that has still to get one. -/
def PagingGuard (s : Readdir) : ReaddirAct → Bool
  | .rename src dst =>
    match s.reading with
    | .listing l =>
      l.rest.all fun e =>
        let path := joinRel l.dir e.1
        !(matching dst path && !matching dst (rebase dst src path)) ||
          l.done.all fun x => s.inodes.byPath[rebase dst src path]? ≠ some x.1
    | _ => true
  | _ => true

/-! ## The numbers of a listing -/

/-- The numbers given out are distinct, and none is that of a name still to come. -/
structure Numbering (t : InodeMaps) (l : Listing) : Prop where
  names : (Caches.names l.rest).Nodup
  distinct : (l.done.map Prod.fst).Nodup
  known : ∀ x ∈ l.done, 0 < x.1 ∧ x.1 < t.next
  apart : ∀ x ∈ l.done, ∀ e ∈ l.rest, t.byPath[joinRel l.dir e.1]? ≠ some x.1

structure Inv (s : Readdir) : Prop where
  valid : s.inodes.Valid
  zero : 0 < s.inodes.next ∧ s.inodes.byIno[0]? = none
  names : s.caches.Distinct
  numbering : ∀ l, s.reading = .listing l → Numbering s.inodes l
  positive : ∀ p ∈ s.pages, ∀ x ∈ p.listed, 0 < x.1
  paged : Paged Prod.fst s.pages

variable {t t' : InodeMaps} {l : Listing} {s s' : Readdir}

theorem Numbering.mono (h : Numbering t l) (hnext : t.next ≤ t'.next)
    (hpath : ∀ x ∈ l.done, ∀ e ∈ l.rest, t'.byPath[joinRel l.dir e.1]? = some x.1 → t.byPath[joinRel l.dir e.1]? = some x.1) :
    Numbering t' l where
  names := h.names
  distinct := h.distinct
  known x hx := ⟨(h.known x hx).1, Nat.lt_of_lt_of_le (h.known x hx).2 hnext⟩
  apart x hx e he hp := h.apart x hx e he (hpath x hx e he hp)

/-- A number that was given out before belongs to the path it belonged to. -/
theorem ino_byPath {p q : String} {i : Nat} (hi : i < t.next) (h : (t.ino p).1.byPath[q]? = some i) : t.byPath[q]? = some i := by
  unfold InodeMaps.ino at h
  split at h
  · exact h
  · simp only [get?_insert] at h
    split at h
    · cases h
      exact absurd hi (Nat.lt_irrefl _)
    · exact h

theorem Numbering.ino (h : Numbering t l) (hv : t.Valid) (p : String) : Numbering (t.ino p).1 l :=
  h.mono (InodeMaps.ino_valid hv p).2.1.1 fun x hx _ _ => ino_byPath (h.known x hx).2

/-- The next entry gets its number. -/
theorem Numbering.number {name : String} {m m' : EntryMeta} {rest : DirEntries EntryMeta} (h : Numbering t l) (hv : t.Valid)
    (hzero : 0 < t.next ∧ t.byIno[0]? = none) (hrest : l.rest = (name, m) :: rest) :
    Numbering (t.ino (joinRel l.dir name)).1 { l with done := l.done ++ [((t.ino (joinRel l.dir name)).2, name, m')], rest } := by
  obtain ⟨hv', hret, hown⟩ := InodeMaps.ino_valid hv (joinRel l.dir name)
  have hkeep := h.ino hv (joinRel l.dir name)
  have hnames := h.names
  rw [hrest] at hnames
  obtain ⟨hname, hnames⟩ := List.nodup_cons.1 hnames
  have hnew : ∀ x ∈ l.done, x.1 ≠ (t.ino (joinRel l.dir name)).2 := by
    intro x hx he
    exact hkeep.apart x hx (name, m) (by simp [hrest]) (he ▸ hown)
  have hpos : (t.ino (joinRel l.dir name)).2 ≠ 0 := by
    intro he
    have hino := (hv'.inverse _ _).1 hown
    rw [he, hret.2 0 hzero.1 hzero.2] at hino
    cases hino
  refine ⟨hnames, ?_, ?_, ?_⟩
  · rw [List.map_append, List.nodup_append]
    refine ⟨h.distinct, by simp, ?_⟩
    rintro a ha b hb rfl
    obtain ⟨x, hx, rfl⟩ := List.mem_map.1 ha
    exact hnew x hx (List.mem_singleton.1 hb)
  · intro x hx
    rcases List.mem_append.1 hx with hx | hx
    · exact hkeep.known x hx
    · rw [List.mem_singleton.1 hx]
      exact ⟨Nat.pos_of_ne_zero hpos, hv'.below _ _ hown⟩
  · intro x hx e he
    rcases List.mem_append.1 hx with hx | hx
    · exact hkeep.apart x hx e (by rw [hrest]; exact List.mem_cons_of_mem _ he)
    · rw [List.mem_singleton.1 hx]
      intro hp
      have heq := joinRel_inj (hv'.inj hp hown)
      exact hname (List.mem_map.2 ⟨e, he, heq⟩)

theorem Numbering.rename (h : Numbering t l) (hv : t.Valid) {src dst : String}
    (hg : ∀ e ∈ l.rest, matching dst (joinRel l.dir e.1) = true → matching dst (rebase dst src (joinRel l.dir e.1)) = false →
      ∀ x ∈ l.done, t.byPath[rebase dst src (joinRel l.dir e.1)]? ≠ some x.1) :
    Numbering (t.rename src dst) l := by
  refine h.mono (InodeMaps.rename_valid hv src dst).2.1 fun x hx e he hp => ?_
  rw [InodeMaps.rename_byPath, getElem?_moveSubtree] at hp
  split at hp
  · rename_i hd
    split at hp
    · cases hp
    · rename_i hd'
      exact absurd hp (hg e he hd (by simpa using hd') x hx)
  · split at hp
    · cases hp
    · exact hp

theorem Numbering.removeTree (h : Numbering t l) (hv : t.Valid) (path : String) : Numbering (t.removeTree path) l := by
  refine h.mono (InodeMaps.removeTree_valid hv path).2.1 fun x _ e _ hp => ?_
  rw [InodeMaps.removeTree_byPath, getElem?_removeSubtree] at hp
  split at hp
  · cases hp
  · exact hp

/-- A step that leaves the listing and the pages alone. -/
theorem Inv.inodes (h : Inv s) (hv : t.Valid) (hret : InodeMaps.Retires s.inodes t)
    (hl : ∀ l, s.reading = .listing l → Numbering t l) : Inv { s with inodes := t } where
  valid := hv
  zero := ⟨Nat.lt_of_lt_of_le h.zero.1 hret.1, hret.2 0 h.zero.1 h.zero.2⟩
  names := h.names
  numbering := hl
  positive := h.positive
  paged := h.paged

theorem Inv.edit (h : Inv s) {e : Caches.Edit EntryMeta}
    (he : ∀ dir now entries, e = .setDir dir now entries → (Caches.names entries).Nodup) :
    Inv { s with caches := s.caches.edit e } :=
  ⟨h.valid, h.zero, h.names.edit he, h.numbering, h.positive, h.paged⟩

theorem Inv.listed (h : Inv s) (dir : String) (max : Nat) (fresh : Bool) {entries : DirEntries EntryMeta}
    (hn : (Caches.names entries).Nodup) : Inv { s with reading := .listing ⟨dir, max, fresh, [], entries⟩ } := by
  refine ⟨h.valid, h.zero, h.names, fun l hl => ?_, h.positive, h.paged⟩
  cases hl
  exact ⟨hn, List.nodup_nil, by simp, by simp⟩

theorem Inv.begin {dirid max : Nat} {k : CacheClock} (h : Inv s) (hs : step dirid s (.begin max k) = some s') : Inv s' := by
  simp only [step] at hs
  split at hs
  · split at hs
    · cases hs
    · split at hs
      · rename_i entries hlist
        cases hs
        refine h.listed _ max false ?_
        unfold Caches.dirListing at hlist
        split at hlist
        · cases hlist
        · rename_i created entries' hd
          split at hlist
          · cases hlist
            exact h.names _ created _ hd
          · cases hlist
      · cases hs
        exact ⟨h.valid, h.zero, h.names, by simp, h.positive, h.paged⟩
  · cases hs

theorem Inv.answer {dirid now : Nat} {entries : DirEntries EntryMeta} (h : Inv s)
    (hs : step dirid s (.answer now entries) = some s') : Inv s' := by
  simp only [step] at hs
  split at hs
  · rename_i dir max hr
    split at hs
    · rename_i hn
      cases hs
      have hedit : Inv { s with caches := s.caches.edit (.setDir dir now entries) } :=
        h.edit fun _ _ _ he => by
          cases he
          exact hn
      exact hedit.listed dir max true hn
    · cases hs
  · cases hs

theorem Inv.number {dirid : Nat} {pendingWrite : Bool} (h : Inv s) (hs : step dirid s (.number pendingWrite) = some s') :
    Inv s' := by
  simp only [step] at hs
  split at hs
  · rename_i l hl
    split at hs
    · rename_i name m rest hrest
      cases hs
      obtain ⟨hv, hret, -⟩ := InodeMaps.ino_valid h.valid (joinRel l.dir name)
      refine ⟨hv, ⟨Nat.lt_of_lt_of_le h.zero.1 hret.1, hret.2 0 h.zero.1 h.zero.2⟩, ?_, fun l' hl' => ?_, h.positive, h.paged⟩
      · simp only [Mobfs.Readdir.number]
        split
        · exact h.names
        · exact h.names
      · cases hl'
        exact (h.numbering l hl).number h.valid h.zero hrest
    · cases hs
  · cases hs

theorem Inv.finish {dirid : Nat} (h : Inv s) (hs : step dirid s .finish = some s') : Inv s' := by
  simp only [step] at hs
  split at hs
  · rename_i l hl
    split at hs
    · cases hs
      have hnum := h.numbering l hl
      refine ⟨h.valid, h.zero, h.names, by simp, fun p hp => ?_, h.paged.next hnum.distinct⟩
      rcases List.mem_append.1 hp with hp | hp
      · exact h.positive p hp
      · rw [List.mem_singleton.1 hp]
        exact fun x hx => (hnum.known x hx).1
    · cases hs
  · cases hs

theorem Inv.edited {dirid : Nat} {e : Caches.Edit EntryMeta} (h : Inv s) (hs : step dirid s (.edit e) = some s') : Inv s' := by
  simp only [step] at hs
  split at hs
  · split at hs
    · rename_i hn
      cases hs
      refine h.edit fun dir now entries he => ?_
      cases he
      exact hn
    · cases hs
  · rename_i hne
    cases hs
    exact h.edit fun dir now entries he => absurd he (hne dir now entries)

theorem step_inv {dirid : Nat} {a : ReaddirAct} (h : Inv s) (hg : PagingGuard s a = true) (hs : step dirid s a = some s') :
    Inv s' := by
  cases a with
  | begin max k => exact h.begin hs
  | answer now entries => exact h.answer hs
  | fails =>
    simp only [step] at hs
    split at hs
    · cases hs
      exact ⟨h.valid, h.zero, h.names, by simp, h.positive, h.paged⟩
    · cases hs
  | number pendingWrite => exact h.number hs
  | finish => exact h.finish hs
  | ino path =>
    cases hs
    obtain ⟨hv, hret, -⟩ := InodeMaps.ino_valid h.valid path
    exact h.inodes hv hret fun l hl => (h.numbering l hl).ino h.valid path
  | rename src dst =>
    cases hs
    obtain ⟨hv, hret⟩ := InodeMaps.rename_valid h.valid src dst
    refine h.inodes hv hret fun l hl => (h.numbering l hl).rename h.valid fun e he hd hd' x hx => ?_
    simp only [PagingGuard, hl, List.all_eq_true] at hg
    have hg := hg e he
    simp only [hd, hd', Bool.not_false, Bool.and_self, Bool.not_true, Bool.false_or, List.all_eq_true] at hg
    simpa using hg x hx
  | removeTree path =>
    cases hs
    obtain ⟨hv, hret⟩ := InodeMaps.removeTree_valid h.valid path
    exact h.inodes hv hret fun l hl => (h.numbering l hl).removeTree h.valid path
  | edit e => exact h.edited hs

theorem start_inv : Inv start where
  valid := InodeMaps.new_valid
  zero := ⟨by decide, by decide⟩
  names := Caches.distinct_empty
  numbering l hl := by cases hl
  positive p hp := by cases hp
  paged := .nil

/-- No number is returned twice; a page says it is the last if and only if no greater
number is listed; and after the last page, every number that was listed for each page has
been returned on exactly one. -/
theorem readdir_pages {dirid : Nat} {acts : List ReaddirAct}
    (hg : Guarded (step dirid) (fun s a => PagingGuard s a = true) start acts) (hr : exec (step dirid) start acts = some s') :
    (returned Prod.fst s'.pages).Nodup ∧
      (∀ p ∈ s'.pages, p.eof = true ↔ ∀ x ∈ p.listed, x.1 ≤ p.last Prod.fst) ∧
      (ended s'.pages = true → ∀ i, (∀ p ∈ s'.pages, ∃ x ∈ p.listed, x.1 = i) → (returned Prod.fst s'.pages).count i = 1) := by
  have h := exec_guarded_inv Inv (fun _ _ _ => step_inv) start_inv hg hr
  have hnodup : (returned Prod.fst s'.pages).Nodup := h.paged.increasing.imp Nat.ne_of_lt
  refine ⟨hnodup, fun p hp => ?_, fun hend i hi => ?_⟩
  · rw [h.paged.eof p hp]
    simp
  · have hpos : 0 < i := by
      cases hp : s'.pages with
      | nil => simp [hp, ended] at hend
      | cons p ps =>
        have hmem : p ∈ s'.pages := by simp [hp]
        obtain ⟨x, hx, rfl⟩ := hi p hmem
        exact h.positive p hmem x hx
    have hall : ∀ p ∈ s'.pages, i ∈ p.listed.map Prod.fst := fun p hp => List.mem_map.2 (hi p hp)
    rcases h.paged.complete i hpos hall with hret | ⟨-, hnot⟩
    · exact List.count_eq_one_of_mem hnodup hret
    · rw [hend] at hnot
      cases hnot

/-! ## A rename between and during pages -/

def live : CacheClock := ⟨1, true, 0⟩

def twoFiles : DirEntries EntryMeta := [("a", fileMeta 0 0o644 0), ("b", fileMeta 0 0o644 0)]

/-- Pages of one entry; `a` is renamed after the first. -/
def twoPages : List ReaddirAct :=
  [.begin 1 live, .answer 0 twoFiles, .number false, .number false, .finish, .rename "a" "c", .edit (.dirRemove "a"),
    .edit (.dirUpsert "c" (fileMeta 0 0o644 0)), .begin 1 live, .number false, .number false, .finish]

/-- Number 2, first `a` and then `c`, is returned once. -/
theorem readdir_pages_renamed :
    ∃ s, exec (step 1) start twoPages = some s ∧ ended s.pages = true ∧ (returned Prod.fst s.pages).count 2 = 1 := by
  have hrun : (exec (step 1) start twoPages).any (fun s => ended s.pages && s.pages.all fun p => p.listed.any fun x => x.1 == 2) := by
    decide
  obtain ⟨s, hs, hrun⟩ := (Option.any_eq_true _ _).1 hrun
  simp only [Bool.and_eq_true, List.all_eq_true, List.any_eq_true, beq_iff_eq] at hrun
  exact ⟨s, hs, hrun.1, (readdir_pages (guarded_of_checkRun (fun _ => True) (fun _ => True) PagingGuard
    (fun _ _ _ _ _ _ => trivial) (fun _ _ _ _ h => h) trivial (fun _ _ => trivial) (by decide)) hs).2.2 hrun.1 2 hrun.2⟩

/-- `a` is renamed to `b` when `a` has got its number and `b` has not. -/
def renamedMidway : List ReaddirAct :=
  [.begin 2 live, .answer 0 twoFiles, .number false, .rename "a" "b", .number false, .finish]

/-- The page returns the number under both names. -/
theorem rename_lists_twice :
    ∃ s, exec (step 1) start renamedMidway = some s ∧ returned Prod.fst s.pages = [2, 2] := by
  have hrun : (exec (step 1) start renamedMidway).any (fun s => returned Prod.fst s.pages == [2, 2]) := by
    decide
  obtain ⟨s, hs, hrun⟩ := (Option.any_eq_true _ _).1 hrun
  exact ⟨s, hs, beq_iff_eq.1 hrun⟩

end Readdir

end Mobfs
