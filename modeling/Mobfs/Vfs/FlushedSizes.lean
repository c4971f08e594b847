import Mobfs.Vfs.SoloRenames
/-!
# Sizes after a flush

The size that `metas` has for a file is the one it will have once all that is written to it
is uploaded. `create` sets it to zero while writes may still be waiting, and `note_local_write`
makes up an entry where there is none.

`flushed_sizes` says when `metas` has the sizes of the remote once all is flushed.
-/

namespace Mobfs

open Lib Std
open WriteBack (matching)
open MountTables (Numbered ino_numbered)

namespace SoloMount

section Facts
variable {w : Walks} {blobs : String → Bytes} {ignore : List String} {s s' : SoloMount} {p q : String} {m : EntryMeta}
  {stamp : Stamp}

/-! ## Runs -/

theorem not_waiting (hb : ∀ fh : Nat, s.tables.buffers[fh]? = none) (hw : s.writing = none) (hd : s.dispatching = [])
    (hu : s.tables.uploads = []) (p : String) (n : Nat) : ¬ s.Waiting p n := by
  simp [Waiting, displaced, hb, hw, hd, hu]

theorem SizesStart.inv (h : s.SizesStart) : s.SizesInv := by
  have hno := not_waiting h.buffers h.writing h.dispatching h.uploads
  refine ⟨⟨h.inodes, fun fh c hc => ?_, fun c hc => ?_, fun x hx => ?_⟩, fun p n hp => absurd hp (hno p n),
    fun wr hwr => ?_, fun p m hm => ?_⟩
  · rw [h.buffers] at hc
    cases hc
  · rw [displaced, h.writing] at hc
    cases hc
  · rw [h.dispatching] at hx
    cases hx
  · rw [h.writing] at hwr
    cases hwr
  · obtain ⟨n, m', hn, hm', hkind, hsize⟩ := h.metas p m hm
    exact shows_of_meta h.writing (hno p) hn hm' hkind hsize

theorem call_inv {c : SoloCall} (h : s.SizesInv) (hw : s.writing = none) (hg : s.CallOk w ignore c)
    (hs : s.call w blobs ignore c = some s') : s'.SizesInv := by
  cases c with
  | lookup parent name k =>
    cases hs
    exact lookup_inv h hw hg
  | create parent name mode exclusive k clock stamp => exact create_inv h hw hg hs
  | write ino fh offset data clock =>
    cases hs
    exact write_inv h hw hg
  | setSize ino size clock stamp => exact setSize_inv h hw hg hs
  | rename parent name newparent newname noreplace k stamp => exact rename_inv h hw hg hs

theorem step_inv {a : SoloAct} (h : s.SizesInv) (hg : s.SizesGuard w ignore a)
    (hs : s.step w blobs ignore a = some s') : s'.SizesInv := by
  have hpass : ∀ {s'}, Passes s s' ∧ s'.Named → s'.SizesInv := fun hp => hp.1.inv h hp.2
  cases a with
  | call c =>
    obtain ⟨hw, hs⟩ := Option.ite_none_left_eq_some.1 hs
    exact call_inv h (by simpa using hw) hg hs
  | displaces => exact hpass (displaces_passes hs h.named)
  | notes clock => exact notes_inv h hg hs
  | take fh => exact hpass (take_passes hs h.named)
  | resolve i => exact hpass (resolve_passes hs h.named)
  | register i => exact hpass (register_passes hs h.named)
  | lands i stamp => exact lands_inv h hs
  | ends i => exact hpass (ends_passes hs h.named)
  | retain paths => exact retain_inv h hs
  | flushAll =>
    obtain ⟨-, hs⟩ := Option.ite_none_right_eq_some.1 hs
    cases hs
    exact h

theorem Shows.agrees (h : s.Shows p m) (hw : s.writing = none) (hno : ∀ n, ¬ s.Waiting p n) (hkind : m.kind = .file) :
    ∃ m', Mobfs.statRemote w s.tree p = some m' ∧ m'.kind = .file ∧ m'.size = m.size := by
  obtain ⟨n, hn⟩ := Option.ne_none_iff_exists'.1 (h.kind.1 hkind)
  obtain ⟨data, mode, mtime, hnode, hlength⟩ := Tree.sizeAt_eq_some.1 hn
  have hlt : ∀ k, k < m.size ↔ k < n := by
    intro k
    have hsize := h.size hkind k
    rw [or_iff_left (not_unnoted hw p k)] at hsize
    simpa [Reaches, hn, hno] using hsize
  refine ⟨_, by rw [Mobfs.statRemote, lookup_of_node hnode]; rfl, rfl, ?_⟩
  show data.length = m.size
  have hm := hlt m.size
  have hd := hlt n
  omega

/-- Whenever `flush_all_buffers` returns in a run that meets the condition. -/
theorem flushed_sizes {as : List SoloAct} (h0 : s.SizesStart)
    (hg : Guarded (step w blobs ignore) (SizesGuard w ignore) s (as ++ [.flushAll]))
    (h : exec (step w blobs ignore) s (as ++ [.flushAll]) = some s') : s'.SizesAgree w := by
  obtain ⟨t, ht, hlast⟩ := exec_append.1 h
  obtain ⟨s₁, hs₁, hend⟩ := exec_cons.1 hlast
  cases hend
  have hinv := exec_guarded_inv SizesInv (fun _ _ _ h hg hs => step_inv h hg hs) h0.inv hg.append.1 ht
  have hdisp : t.dispatching = [] := (hg.append.2 t ht).1
  obtain ⟨hflushed, hs₁⟩ := Option.ite_none_right_eq_some.1 hs₁
  cases hs₁
  simp only [Bool.and_eq_true, Option.isNone_iff_eq_none, List.isEmpty_iff, ExtTreeMap.isEmpty_iff] at hflushed
  obtain ⟨⟨hw, hbuffers⟩, huploads⟩ := hflushed
  have hno := not_waiting (s := s') (by simp [hbuffers]) hw hdisp huploads
  intro p m hm hkind
  exact (hinv.cached p m hm).agrees hw (hno p) hkind

end Facts

/-! ## A file that is created again -/

/-- The mount and the remote are empty. -/
def started : SoloMount := ⟨.new, .empty, none, [], 0, 0⟩

theorem started_start : started.SizesStart where
  inodes := InodeMaps.new_valid
  buffers := fun fh => by simp [started, MountTables.new]
  uploads := rfl
  writing := rfl
  dispatching := rfl
  metas := fun p m hm => by simp [started, MountTables.new, Caches.empty] at hm

def createsA : SoloAct := .call (.create 1 "a" 0o644 false ⟨1, true, 0⟩ 0 ⟨9, 0o644, 0o755, 0o777⟩)

/-- The buffer of the handle goes to the remote. -/
def uploadsOf (fh : Nat) : List SoloAct :=
  [.take fh, .resolve 0, .register 0, .lands 0 ⟨9, 0o644, 0o755, 0o777⟩, .ends 0]

def writesA : List SoloAct := [createsA, .call (.write 2 7 0 [65] 0), .notes 0] ++ uploadsOf 7

/-- NFS creates without `exclusive`. -/
def createsAgain : List SoloAct := [createsA, .call (.write 2 7 0 [65] 0), .notes 0, createsA] ++ uploadsOf 7

def atRest (s : SoloMount) : Bool :=
  s.tables.buffers.isEmpty && s.tables.uploads.isEmpty && s.writing.isNone && s.dispatching.isEmpty

/-- Implies the condition, for these runs. -/
def resting (s : SoloMount) : SoloAct → Bool
  | .call (.create parent name _ false _ _ _) =>
    match s.tables.side.inodes.childPath parent name with
    | .ok p => decide (s.tree.Plain p) && !s.tree.isLink p && s.atRest
    | .error _ => true
  | .call (.write ino _ _ data _) =>
    match s.tables.side.inodes.pathOf ino with
    | .ok p => (s.tree.sizeAt p).isSome && !data.isEmpty
    | .error _ => true
  | .call _ => false
  | .notes _ => s.writing.all fun wr => (s.tables.caches.metas[wr.chunk.path]?).isSome
  | .flushAll => s.dispatching.isEmpty
  | _ => true

theorem guard_of_resting {w : Walks} {ignore : List String} {s : SoloMount} {a : SoloAct} (h : s.resting a = true) :
    s.SizesGuard w ignore a := by
  cases a with
  | call c =>
    cases c with
    | create parent name mode exclusive k clock stamp =>
      cases exclusive with
      | true => cases h
      | false =>
        intro p hc _
        simp only [resting, hc, atRest, Bool.and_eq_true, decide_eq_true_eq, Bool.not_eq_true', ExtTreeMap.isEmpty_iff,
          List.isEmpty_iff, Option.isNone_iff_eq_none] at h
        obtain ⟨⟨hp, hl⟩, ⟨⟨hb, hu⟩, hw⟩, hd⟩ := h
        exact ⟨hp, fun h => absurd h Bool.false_ne_true, fun _ => ⟨hl, not_waiting (by simp [hb]) hw hd hu p⟩⟩
    | write ino fh offset data clock =>
      intro p hc _ _
      simp only [resting, hc, Bool.and_eq_true, Option.isSome_iff_ne_none, Bool.not_eq_true',
        List.isEmpty_eq_false_iff] at h
      exact ⟨h.1, fun hd => absurd hd h.2⟩
    | _ => cases h
  | notes clock =>
    intro wr hwr hnone
    rw [resting, hwr, Option.all_some, hnone] at h
    cases h
  | flushAll => exact List.isEmpty_iff.1 h
  | _ => trivial

theorem flushed_sizes_written : ∃ s, exec (step textWalks noBlobs []) started (writesA ++ [.flushAll]) = some s ∧
    (s.tables.caches.metas["a"]?).map (·.size) = some 1 ∧ s.SizesAgree textWalks := by
  have hrun : (exec (step textWalks noBlobs []) started (writesA ++ [.flushAll])).any (fun s =>
      (s.tables.caches.metas["a"]?).map (·.size) = some 1) = true := by decide
  have hg : Guarded (step textWalks noBlobs []) (SizesGuard textWalks []) started (writesA ++ [.flushAll]) :=
    guarded_of_checkRun (fun _ => True) (fun _ => True) resting (fun _ _ _ _ _ _ => trivial)
      (fun _ _ _ _ h => guard_of_resting h) trivial (fun _ _ => trivial) (by decide)
  obtain ⟨s, hs, hsize⟩ := (Option.any_eq_true _ _).1 hrun
  exact ⟨s, hs, by simpa using hsize, flushed_sizes started_start hg hs⟩

/-- The byte is still in its buffer when the file is created again; so `metas` has an empty
file, and the remote has the byte. -/
theorem create_keeps_buffer : ∃ s, exec (step textWalks noBlobs []) started (createsAgain ++ [.flushAll]) = some s ∧
    (s.tables.caches.metas["a"]?).map (·.size) = some 0 ∧ (statRemote textWalks s.tree "a").map (·.size) = some 1 ∧
    ¬ s.SizesAgree textWalks := by
  have hrun : (exec (step textWalks noBlobs []) started (createsAgain ++ [.flushAll])).any (fun s =>
      (s.tables.caches.metas["a"]?).map (fun m => (m.kind, m.size)) = some (.file, 0) ∧
        (statRemote textWalks s.tree "a").map (·.size) = some 1) = true := by decide
  obtain ⟨s, hs, h⟩ := (Option.any_eq_true _ _).1 hrun
  obtain ⟨hcached, hremote⟩ := of_decide_eq_true h
  obtain ⟨m, hm, hkind⟩ := Option.map_eq_some_iff.1 hcached
  obtain ⟨hfile, hsize⟩ := Prod.mk.inj hkind
  refine ⟨s, hs, by rw [hm, Option.map_some, hsize], hremote, fun hagree => ?_⟩
  obtain ⟨m', hm', -, hsame⟩ := hagree "a" m hm hfile
  rw [hm', Option.map_some, hsame, hsize] at hremote
  cases hremote

end SoloMount

end Mobfs
