import Mathlib.Data.List.Perm.Basic
import Mobfs.Vfs.SoloMount
/-!
# Where a file will end

A file of a mount has bytes on the remote, in uploads and in the buffers of handles. Once all is
flushed it ends behind the last of them (`Reaches`). `SizesInv` says that the sizes of `metas`
are these; buffers and uploads go on without a change to that.
-/

namespace Mobfs

open Lib Std
open WriteBack (matching)
open MountTables (Numbered ino_numbered)

/-! ## Where a file will end -/

/-- Where the data ends; nowhere if there is none. -/
def Pending.stop (c : Pending) : Nat := if c.data = [] then 0 else c.offset + c.data.length

def Dispatching.path (t : InodeMaps) (x : Dispatching) : String :=
  if x.resolved then x.pending.path else (x.pending.resolve t).path

namespace SoloMount

section States
variable (s : SoloMount)

def displaced : Option Pending := s.writing.bind (·.displaced)

/-- A write to the path that reaches up to there and has not been uploaded. -/
def Waiting (p : String) (stop : Nat) : Prop :=
  (∃ (fh : Nat) (c : Pending), s.tables.buffers[fh]? = some c ∧ c.path = p ∧ c.stop = stop) ∨
  (∃ c, s.displaced = some c ∧ c.path = p ∧ c.stop = stop) ∨
  (∃ x ∈ s.dispatching, x.path s.tables.side.inodes = p ∧ x.pending.stop = stop) ∨
  ∃ u ∈ s.tables.uploads, u.state = .queued ∧ u.pending.path = p ∧ u.pending.stop = stop

/-- The file has a byte there, or will have once all is uploaded. -/
def Reaches (p : String) (k : Nat) : Prop :=
  (∃ n, s.tree.sizeAt p = some n ∧ k < n) ∨ ∃ n, s.Waiting p n ∧ k < n

/-- Data for the path that still goes by its inode. -/
def Unbound (p : String) : Prop :=
  (∃ (fh : Nat) (c : Pending), s.tables.buffers[fh]? = some c ∧ c.path = p) ∨
    ∃ x ∈ s.dispatching, x.resolved = false ∧ x.path s.tables.side.inodes = p

/-- What is taken from the buffers for the path and not among the uploads yet is not all
that is pending. -/
def Seen (p : String) : Prop :=
  ∀ x ∈ s.dispatching, x.path s.tables.side.inodes = p → s.tables.caches.metas[p]? = none →
    s.tables.hasPendingWrite p = true

end States

/-! ## The condition -/

section Condition
variable (w : Walks) (ignore : List String) (s : SoloMount)

/-- No directory on the way to a path is a link. A `create` that is not refused by its test
is made where no link is and no write is waiting. A write is to a file, and if it is empty
it does not begin after its end. A `setattr`, and a `rename` for its new path, finds nothing
taken from the buffers and not among the uploads yet; for its old path a `rename` finds
nothing of the kind that has looked up its path. A `rename` of sidecars finds no data for a
path under them. -/
def CallOk : SoloCall → Prop
  | .lookup parent name _ => ∀ p, s.tables.side.inodes.childPath parent name = .ok p → isAside ignore p = false →
      s.tree.Plain p ∧ s.Seen p
  | .create parent name _ exclusive k _ _ => ∀ p, s.tables.side.inodes.childPath parent name = .ok p →
      isAside ignore p = false → s.tree.Plain p ∧ (exclusive = true → s.Seen p) ∧
        ((s.looks w exclusive k p).2 = false → s.tree.isLink p = false ∧ ∀ n, ¬ s.Waiting p n)
  | .write ino _ offset data _ => ∀ p, s.tables.side.inodes.pathOf ino = .ok p → p ≠ "" → isAside ignore p = false →
      s.tree.sizeAt p ≠ none ∧ (data = [] → ∀ i < offset, s.Reaches p i)
  | .setSize ino _ _ _ => ∀ p, s.tables.side.inodes.pathOf ino = .ok p → p ≠ "" → isSidecar p = false →
      s.tree.Plain p ∧ s.tree.isLink p = false ∧ ∀ x ∈ s.dispatching, x.path s.tables.side.inodes ≠ p
  | .rename parent name newparent newname noreplace k _ => ∀ src dst,
      s.tables.side.inodes.childPath parent name = .ok src →
      s.tables.side.inodes.childPath newparent newname = .ok dst →
      if isSidecar src = true ∧ isSidecar dst = true then
        ∀ p, s.Unbound p → matching src p = false ∧ matching dst p = false
      else isSidecar src = false → isAside ignore dst = false →
        s.tree.Plain src ∧ s.tree.Plain dst ∧ (noreplace = true → s.Seen dst) ∧
        ((s.looks w noreplace k dst).2 = false → ∀ x ∈ s.dispatching,
          matching dst (x.path s.tables.side.inodes) = false ∧
          (x.resolved = true → matching src (x.path s.tables.side.inodes) = false))

/-- The calls are as `CallOk` says. A write that finds no entry to note itself on reaches to
the end of the file. `flush_all_buffers` returns when no buffer is between the buffers and
the uploads. -/
def SizesGuard : SoloAct → Prop
  | .call c => s.CallOk w ignore c
  | .notes _ => ∀ wr, s.writing = some wr → s.tables.caches.metas[wr.chunk.path]? = none →
      ∀ i, s.Reaches wr.chunk.path i → i < wr.chunk.offset + wr.chunk.len
  | .flushAll => s.dispatching = []
  | _ => True

end Condition

/-! ## The invariant -/

section Invariant
variable (s : SoloMount)

/-- What goes by its inode goes to the path it was written to. -/
structure Named : Prop where
  inodes : s.tables.side.inodes.Valid
  buffers : ∀ (fh : Nat) (c : Pending), s.tables.buffers[fh]? = some c →
    s.tables.side.inodes.byIno[c.ino]? = some c.path
  displaced : ∀ c, s.displaced = some c → s.tables.side.inodes.byIno[c.ino]? = some c.path
  dispatching : ∀ x ∈ s.dispatching, x.resolved = false → s.tables.side.inodes.byIno[x.pending.ino]? ≠ none

/-- A write that has buffered its data, and reaches so far, is not noted yet. -/
def Unnoted (p : String) (k : Nat) : Prop :=
  ∃ wr, s.writing = some wr ∧ wr.chunk.path = p ∧ k < wr.chunk.offset + wr.chunk.len

/-- The entry is of what is there, and of a file it has the size that will be. -/
structure Shows (p : String) (m : EntryMeta) : Prop where
  there : s.tree.node p ≠ none
  kind : m.kind = .file ↔ s.tree.sizeAt p ≠ none
  size : m.kind = .file → ∀ k, k < m.size ∨ s.Unnoted p k ↔ s.Reaches p k

/-- A mount that has just started, or one that is at rest: `metas` is as the remote is. -/
structure SizesStart : Prop where
  inodes : s.tables.side.inodes.Valid
  buffers : ∀ fh : Nat, s.tables.buffers[fh]? = none
  uploads : s.tables.uploads = []
  writing : s.writing = none
  dispatching : s.dispatching = []
  metas : ∀ (p : String) (m : EntryMeta), s.tables.caches.metas[p]? = some m → ∃ n m', s.tree.node p = some n ∧
    entryMetaFast n = some m' ∧ m.kind = m'.kind ∧ m.size = m'.size

/-- Every file in `metas` has the size there that the remote tells. -/
def SizesAgree (w : Walks) : Prop :=
  ∀ (p : String) (m : EntryMeta), s.tables.caches.metas[p]? = some m → m.kind = .file →
    ∃ m', Mobfs.statRemote w s.tree p = some m' ∧ m'.kind = .file ∧ m'.size = m.size

structure SizesInv : Prop where
  named : s.Named
  files : ∀ p n, s.Waiting p n → s.tree.sizeAt p ≠ none
  noted : ∀ wr, s.writing = some wr → s.tree.sizeAt wr.chunk.path ≠ none ∧
    ∀ k < wr.chunk.offset + wr.chunk.len, s.Reaches wr.chunk.path k
  cached : ∀ (p : String) (m : EntryMeta), s.tables.caches.metas[p]? = some m → s.Shows p m

end Invariant

end SoloMount

namespace SoloMount

section Facts
variable {w : Walks} {blobs : String → Bytes} {ignore : List String} {s s' : SoloMount} {p q : String} {m : EntryMeta}
  {stamp : Stamp}

/-- What is at `p` has moved to `q`, with the writes for it. -/
theorem Shows.moved (h : s.Shows p m) (ht : s.tree.SameAt p s'.tree q) (hw : ∀ n, s'.Waiting q n ↔ s.Waiting p n)
    (hu : ∀ k, s'.Unnoted q k ↔ s.Unnoted p k) : s'.Shows q m := by
  obtain ⟨hthere, hsize⟩ := ht h.there
  refine ⟨hthere, by rw [hsize]; exact h.kind, fun hm k => ?_⟩
  unfold Reaches
  simp only [hw, hu, hsize]
  exact h.size hm k

/-- Between the buffers and the remote nothing is lost, and `metas` learns what is so. -/
theorem SizesInv.of_steady (h : s.SizesInv) (hn : s'.Named)
    (hwriting : s'.writing.map (·.chunk) = s.writing.map (·.chunk))
    (ht : ∀ p, s.tree.node p ≠ none → s'.tree.node p ≠ none ∧ (s'.tree.sizeAt p = none ↔ s.tree.sizeAt p = none))
    (hw : ∀ p n, s'.Waiting p n → s.Waiting p n)
    (hr : ∀ p k, s.tree.node p ≠ none → (s'.Reaches p k ↔ s.Reaches p k))
    (hm : ∀ (p : String) (m : EntryMeta), s'.tables.caches.metas[p]? = some m → s.Shows p m) : s'.SizesInv := by
  have hfile : ∀ p, s.tree.sizeAt p ≠ none → s'.tree.sizeAt p ≠ none := fun p hp =>
    fun hnone => hp ((ht p (Tree.node_of_sizeAt hp)).2.1 hnone)
  have hchunk : ∀ wr, s'.writing = some wr → ∃ wr', s.writing = some wr' ∧ wr'.chunk = wr.chunk := by
    intro wr hwr
    rw [hwr, Option.map_some] at hwriting
    exact Option.map_eq_some_iff.1 hwriting.symm
  have hun : ∀ p k, s'.Unnoted p k ↔ s.Unnoted p k := by
    have hiff : ∀ (u : SoloMount) p k, u.Unnoted p k ↔
        ∃ c ∈ u.writing.map (·.chunk), c.path = p ∧ k < c.offset + c.len := by
      intro u p k
      simp [Unnoted]
    intro p k
    rw [hiff, hiff, hwriting]
  refine ⟨hn, fun p n hp => hfile p (h.files p n (hw p n hp)), fun wr hwr => ?_, fun p m hp => ?_⟩
  · obtain ⟨wr', hwr', hc⟩ := hchunk wr hwr
    obtain ⟨hsize, hreach⟩ := h.noted wr' hwr'
    rw [hc] at hsize hreach
    exact ⟨hfile _ hsize, fun k hk => (hr _ k (Tree.node_of_sizeAt hsize)).2 (hreach k hk)⟩
  · have hshows := hm p m hp
    obtain ⟨hthere, hsize⟩ := ht p hshows.there
    refine ⟨hthere, by rw [Ne, hsize]; exact hshows.kind, fun hfile k => ?_⟩
    rw [hun, hr p k hshows.there]
    exact hshows.size hfile k

/-! ## Buffers on their way -/

theorem exists_mem_eraseIdx {α : Type} {l : List α} {i : Nat} {x : α} (h : l[i]? = some x) (P : α → Prop) :
    (∃ y ∈ l, P y) ↔ P x ∨ ∃ y ∈ l.eraseIdx i, P y := by
  obtain ⟨hi, hx⟩ := List.getElem?_eq_some_iff.1 h
  have hmem : ∀ y, y ∈ l ↔ y = x ∨ y ∈ l.eraseIdx i := by
    intro y
    rw [← (List.getElem_cons_eraseIdx_perm hi).mem_iff, List.mem_cons, hx]
  simp [hmem, or_and_right, exists_or]

theorem exists_mem_set {α : Type} {l : List α} {i : Nat} {x : α} (h : l[i]? = some x) (z : α) (P : α → Prop) :
    (∃ y ∈ l.set i z, P y) ↔ P z ∨ ∃ y ∈ l.eraseIdx i, P y := by
  obtain ⟨hi, -⟩ := List.getElem?_eq_some_iff.1 h
  have hmem : ∀ y, y ∈ l.set i z ↔ y = z ∨ y ∈ l.eraseIdx i := by
    intro y
    rw [(List.set_perm_cons_eraseIdx hi z).mem_iff, List.mem_cons]
  simp [hmem, or_and_right, exists_or]

theorem exists_mem_snoc {α : Type} (l : List α) (z : α) (P : α → Prop) :
    (∃ y ∈ l ++ [z], P y) ↔ (∃ y ∈ l, P y) ∨ P z := by
  simp [or_and_right, exists_or]

theorem exists_erase (b : ExtTreeMap Nat Pending) (fh : Nat) (P : Pending → Prop) :
    (∃ (fh' : Nat) (c : Pending), b[fh']? = some c ∧ P c) ↔
      (∃ c, b[fh]? = some c ∧ P c) ∨ ∃ (fh' : Nat) (c : Pending), (b.erase fh)[fh']? = some c ∧ P c := by
  constructor
  · rintro ⟨fh', c, hc, hP⟩
    by_cases he : fh' = fh
    · exact .inl ⟨c, by rw [← he, hc], hP⟩
    · exact .inr ⟨fh', c, by rwa [get?_erase, if_neg he], hP⟩
  · rintro (⟨c, hc, hP⟩ | ⟨fh', c, hc, hP⟩)
    · exact ⟨fh, c, hc, hP⟩
    · rw [get?_erase] at hc
      split at hc
      · cases hc
      · exact ⟨fh', c, hc, hP⟩

/-- A step from the buffers to the uploads keeps the rest. -/
structure Passes (s s' : SoloMount) : Prop where
  tree : s'.tree = s.tree
  metas : s'.tables.caches = s.tables.caches
  inodes : s'.tables.side = s.tables.side
  writing : s'.writing.map (·.chunk) = s.writing.map (·.chunk)
  waiting : ∀ p n, s'.Waiting p n ↔ s.Waiting p n

theorem Passes.inv (hp : Passes s s') (h : s.SizesInv) (hn : s'.Named) : s'.SizesInv := by
  refine h.of_steady hn hp.writing ?_ (fun p n => (hp.waiting p n).1) ?_ ?_
  · intro p hthere
    rw [hp.tree]
    exact ⟨hthere, Iff.rfl⟩
  · intro p k _
    unfold Reaches
    rw [hp.tree]
    simp only [hp.waiting]
  · intro p m hm
    rw [hp.metas] at hm
    exact h.cached p m hm

theorem resolve_path {t : InodeMaps} {c : Pending} (h : t.byIno[c.ino]? = some c.path) :
    (c.resolve t).path = c.path := by
  rw [Pending.resolve, h]
  rfl

theorem take_passes {fh : Nat} (hs : s.step w blobs ignore (.take fh) = some s') (hn : s.Named) :
    Passes s s' ∧ s'.Named := by
  simp only [step] at hs
  split at hs
  · rename_i c hc
    cases hs
    have hpath := resolve_path (hn.buffers fh c hc)
    refine ⟨⟨rfl, rfl, rfl, rfl, fun p n => ?_⟩, hn.inodes, fun fh' c' hc' => ?_, hn.displaced, fun x hx hr => ?_⟩
    · simp only [Waiting, exists_erase s.tables.buffers fh, hc, Option.some.injEq, exists_eq_left', exists_mem_snoc,
        Dispatching.path, hpath, Bool.false_eq_true, if_false]
      exact iff_of_eq (by ac_rfl)
    · rw [get?_erase] at hc'
      split at hc'
      · cases hc'
      · exact hn.buffers fh' c' hc'
    · rcases List.mem_append.1 hx with hx | hx
      · exact hn.dispatching x hx hr
      · obtain rfl := List.mem_singleton.1 hx
        rw [hn.buffers fh c hc]
        exact Option.some_ne_none _
  · cases hs

theorem resolve_passes {i : Nat} (hs : s.step w blobs ignore (.resolve i) = some s') (hn : s.Named) :
    Passes s s' ∧ s'.Named := by
  simp only [step] at hs
  split at hs
  · rename_i fh c hx
    cases hs
    refine ⟨⟨rfl, rfl, rfl, rfl, fun p n => ?_⟩, hn.inodes, hn.buffers, hn.displaced, fun x hmem hr => ?_⟩
    · simp only [Waiting, exists_mem_eraseIdx hx, exists_mem_set hx, Dispatching.path, Bool.false_eq_true, if_false,
        if_true]
      rfl
    · rcases List.mem_or_eq_of_mem_set hmem with hmem | rfl
      · exact hn.dispatching x hmem hr
      · cases hr
  · cases hs

theorem register_eq {t t' : MountTables} {id fh : Nat} {c : Pending} (h : t.register id fh c = some t') :
    t' = { t with uploads := t.uploads ++ [⟨id, fh, c, .queued⟩] } := by
  unfold MountTables.register at h
  split at h
  · cases h
  · exact (Option.some.inj h).symm

theorem register_passes {i : Nat} (hs : s.step w blobs ignore (.register i) = some s') (hn : s.Named) :
    Passes s s' ∧ s'.Named := by
  simp only [step] at hs
  split at hs
  · rename_i fh c hx
    obtain ⟨t, ht, rfl⟩ := Option.map_eq_some_iff.1 hs
    obtain rfl := register_eq ht
    refine ⟨⟨rfl, rfl, rfl, rfl, fun p n => ?_⟩, hn.inodes, hn.buffers, hn.displaced, fun x hmem hr => ?_⟩
    · simp only [Waiting, exists_mem_eraseIdx hx, exists_mem_snoc, Dispatching.path, if_true, true_and]
      exact iff_of_eq (by ac_rfl)
    · exact hn.dispatching x (List.mem_of_mem_eraseIdx hmem) hr
  · cases hs

theorem displaces_passes (hs : s.step w blobs ignore .displaces = some s') (hn : s.Named) : Passes s s' ∧ s'.Named := by
  simp only [step] at hs
  split at hs
  · rename_i fh c chunk hwr
    obtain ⟨t, ht, rfl⟩ := Option.map_eq_some_iff.1 hs
    obtain rfl := register_eq ht
    have hpath := resolve_path (hn.displaced c (by rw [displaced, hwr]; rfl))
    refine ⟨⟨rfl, rfl, rfl, by rw [hwr]; rfl, fun p n => ?_⟩, hn.inodes, hn.buffers, fun c' hc' => ?_, hn.dispatching⟩
    · simp only [Waiting, displaced, hwr, Option.bind_some, exists_mem_snoc, hpath, true_and, Option.some.injEq,
        exists_eq_left', reduceCtorEq, false_and, exists_false, false_or]
      exact iff_of_eq (by ac_rfl)
    · cases hc'
  · cases hs

theorem ends_passes {i : Nat} (hs : s.step w blobs ignore (.ends i) = some s') (hn : s.Named) :
    Passes s s' ∧ s'.Named := by
  simp only [step] at hs
  split at hs
  · rename_i u hu
    obtain ⟨hstate, hs⟩ := Option.ite_none_right_eq_some.1 hs
    cases hs
    refine ⟨⟨rfl, rfl, rfl, rfl, fun p n => ?_⟩, hn.inodes, hn.buffers, hn.displaced, hn.dispatching⟩
    simp only [Waiting, exists_mem_eraseIdx hu, hstate, reduceCtorEq, false_and, false_or]
    rfl
  · cases hs

/-! ## Uploads -/

theorem length_upload (cs : Bytes) (c : Pending) :
    (Lib.writeAt 0 cs c.offset c.data).length = max cs.length c.stop := by
  unfold Pending.stop
  by_cases hd : c.data = []
  · rw [hd, writeAt_nil, if_pos rfl, Nat.max_zero]
  · rw [length_writeAt _ _ _ _ hd, if_neg hd]

theorem Tree.direct_of_sizeAt {t : Tree} (h : t.sizeAt p ≠ none) : t.Plain p ∧ t.isLink p = false := by
  obtain ⟨n, hn⟩ := Option.ne_none_iff_exists'.1 h
  obtain ⟨data, mode, mtime, hnode, -⟩ := Tree.sizeAt_eq_some.1 hn
  exact ⟨Tree.plain_of_node (Tree.node_of_sizeAt h), by simp [Tree.isLink, hnode, Node.isLink]⟩

/-- The file then reaches as far as it would have. -/
theorem lands_inv {i : Nat} {stamp : Stamp} (h : s.SizesInv) (hs : s.step w blobs ignore (.lands i stamp) = some s') :
    s'.SizesInv := by
  simp only [step] at hs
  split at hs
  · rename_i u hu
    obtain ⟨hstate, hs⟩ := Option.ite_none_right_eq_some.1 hs
    obtain ⟨s1, hreq, hs'⟩ := Option.map_eq_some_iff.1 hs
    obtain ⟨hs1, hcalls⟩ := request_eq hreq
    have hwait : ∀ p n, s.Waiting p n ↔ (u.pending.path = p ∧ u.pending.stop = n) ∨ s'.Waiting p n := by
      intro p n
      rw [← hs', hs1]
      simp only [Waiting, exists_mem_eraseIdx hu, exists_mem_set hu, setTables, hstate, true_and, reduceCtorEq,
        false_and, false_or]
      exact iff_of_eq (by ac_rfl)
    have hfile := h.files _ _ ((hwait _ _).2 (.inl ⟨rfl, rfl⟩))
    obtain ⟨hp, hl⟩ := Tree.direct_of_sizeAt hfile
    obtain ⟨⟨data, hsize, hold⟩, hother⟩ := openEdit_sizeAt hp hl hcalls
    rw [length_upload] at hsize
    have hn := hold (Tree.node_of_sizeAt hfile)
    have htree : s'.tree = s1.tree := by rw [← hs']; rfl
    have hnamed : s'.Named := by
      rw [← hs', hs1]
      exact ⟨h.named.inodes, h.named.buffers, h.named.displaced, h.named.dispatching⟩
    have hsame : ∀ p, ¬ u.pending.path = p → s.tree.SameAt p s'.tree p := by
      intro p hp
      rw [htree]
      exact hother p (Ne.symm hp)
    refine h.of_steady hnamed (by rw [← hs', hs1]; rfl) ?_ (fun p n hw => (hwait p n).2 (.inr hw)) ?_ ?_
    · intro p hthere
      by_cases hpu : u.pending.path = p
      · subst hpu
        have hsome : s'.tree.sizeAt u.pending.path ≠ none := by simp [htree, hsize]
        exact ⟨Tree.node_of_sizeAt hsome, iff_of_false hsome hfile⟩
      · obtain ⟨hthere', hsize'⟩ := hsame p hpu hthere
        exact ⟨hthere', by rw [hsize']⟩
    · intro p k hthere
      unfold Reaches
      by_cases hpu : u.pending.path = p
      · subst hpu
        simp only [hwait, htree, hsize, hn, Option.some.injEq, exists_eq_left', true_and, or_and_right, exists_or,
          lt_max_iff, or_assoc]
      · simp only [hwait, (hsame p hpu hthere).2, hpu, false_and, false_or]
    · intro p m hm
      rw [← hs', hs1] at hm
      exact h.cached p m hm
  · cases hs

/-! ## What `metas` forgets, and what a write notes -/

theorem retain_inv {paths : List String} (h : s.SizesInv) (hs : s.step w blobs ignore (.retain paths) = some s') :
    s'.SizesInv := by
  cases hs
  refine h.of_steady ⟨h.named.inodes, h.named.buffers, h.named.displaced, h.named.dispatching⟩ rfl
    (fun p hp => ⟨hp, Iff.rfl⟩) (fun _ _ hw => hw) (fun _ _ _ => Iff.rfl) fun p m hm => ?_
  simp only [setTables, MountTables.retain, get?_eraseWhere] at hm
  split at hm
  · cases hm
  · exact h.cached p m hm

theorem noteWrite_metas (t : MountTables) (clock : Int) (c : Chunk) : ∃ m : EntryMeta, m.kind = .file ∧
    m.size = max ((t.caches.metas[c.path]?.map (·.size)).getD 0) (c.offset + c.len) ∧
    ∀ p : String, (t.noteWrite clock c).caches.metas[p]? = if p = c.path then some m else t.caches.metas[p]? := by
  refine ⟨(noteLocalWrite 0 clock c (t.caches.metas[c.path]?.map (⟨·, 0⟩))).value, ?_, ?_, fun p => ?_⟩
  · cases t.caches.metas[c.path]? <;> rfl
  · cases t.caches.metas[c.path]? <;> simp [noteLocalWrite, fileMeta]
  · simp only [MountTables.noteWrite, Caches.metas_setMeta, get?_insert]

theorem notes_inv {clock : Int} (h : s.SizesInv) (hg : s.SizesGuard w ignore (.notes clock))
    (hs : s.step w blobs ignore (.notes clock) = some s') : s'.SizesInv := by
  simp only [step] at hs
  split at hs
  · rename_i fh chunk hwr
    have hs' := (Option.some.inj hs).symm
    have hwait : ∀ p n, s'.Waiting p n ↔ s.Waiting p n := by
      intro p n
      rw [hs']
      simp only [Waiting, displaced, hwr, Option.bind_some, Option.bind_none, MountTables.noteWrite]
    have htree : s'.tree = s.tree := by rw [hs']
    have hreaches : ∀ p k, s'.Reaches p k ↔ s.Reaches p k := by
      intro p k
      simp only [Reaches, htree, hwait]
    have hnone : ∀ p k, ¬ s'.Unnoted p k := by
      rw [hs']
      rintro p k ⟨wr, hwr', -⟩
      cases hwr'
    have hun : ∀ p k, s.Unnoted p k ↔ chunk.path = p ∧ k < chunk.offset + chunk.len := by
      intro p k
      simp [Unnoted, hwr]
    obtain ⟨m', hkind, hsize, hmetas⟩ := noteWrite_metas s.tables clock chunk
    obtain ⟨hfile, hreach⟩ := h.noted _ hwr
    refine ⟨?_, fun p n hw => ?_, fun wr hwr' => ?_, fun p m hm => ?_⟩
    · rw [hs']
      refine ⟨h.named.inodes, h.named.buffers, fun c hc => ?_, h.named.dispatching⟩
      cases hc
    · rw [htree]
      exact h.files p n ((hwait p n).1 hw)
    · rw [hs'] at hwr'
      cases hwr'
    · rw [hs', hmetas] at hm
      split at hm
      · rename_i hp
        cases hm
        subst hp
        rw [← htree] at hfile
        refine ⟨Tree.node_of_sizeAt hfile, iff_of_true hkind hfile, fun _ k => ?_⟩
        rw [htree] at hfile
        rw [hreaches, hsize, or_iff_left (hnone _ k)]
        cases hm0 : s.tables.caches.metas[chunk.path]? with
        | some m0 =>
          have hshows := h.cached _ m0 hm0
          rw [← hshows.size (hshows.kind.2 hfile) k, hun]
          simp
        | none =>
          have hup := hg _ hwr hm0 k
          simp only [Option.map_none, Option.getD_none, Nat.zero_max]
          exact ⟨hreach k, hup⟩
      · rename_i hp
        refine (h.cached p m hm).moved (.of_node (by rw [htree])) (hwait p) fun k => ?_
        rw [hun]
        exact iff_of_false (hnone p k) fun hk => hp hk.1.symm
  · cases hs

end Facts

end SoloMount

end Mobfs
