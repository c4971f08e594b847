import Mobfs.Vfs.SoloSizes
/-!
# Calls of a mount and their sizes

What `lookup`, `create`, `setattr` and `write` do to the sizes of `metas`, and to where the files
will end.
-/

namespace Mobfs

open Lib Std
open WriteBack (matching)
open MountTables (Numbered ino_numbered)

namespace SoloMount

section Facts
variable {w : Walks} {blobs : String → Bytes} {ignore : List String} {s s' : SoloMount} {p q : String} {m : EntryMeta}
  {stamp : Stamp}

/-! ## Looking up -/

/-- What goes by its inode goes where it did. -/
structure Renumbers (s s' : SoloMount) : Prop where
  buffers : s'.tables.buffers = s.tables.buffers
  uploads : s'.tables.uploads = s.tables.uploads
  writing : s'.writing = s.writing
  dispatching : s'.dispatching = s.dispatching
  inodes : Numbered s.tables.side.inodes s'.tables.side.inodes

theorem Renumbers.path (h : Renumbers s s') (hn : s.Named) {x : Dispatching} (hx : x ∈ s.dispatching) :
    x.path s'.tables.side.inodes = x.path s.tables.side.inodes := by
  unfold Dispatching.path
  cases hr : x.resolved with
  | true => rfl
  | false =>
    obtain ⟨q, hq⟩ := Option.ne_none_iff_exists'.1 (hn.dispatching x hx hr)
    rw [Pending.resolve, Pending.resolve, hq, h.inodes.byIno hn.inodes hq]

theorem Renumbers.named (h : Renumbers s s') (hn : s.Named) : s'.Named := by
  refine ⟨h.inodes.valid hn.inodes, fun fh c hc => ?_, fun c hc => ?_, fun x hx hr => ?_⟩
  · rw [h.buffers] at hc
    exact h.inodes.byIno hn.inodes (hn.buffers fh c hc)
  · rw [displaced, h.writing] at hc
    exact h.inodes.byIno hn.inodes (hn.displaced c hc)
  · rw [h.dispatching] at hx
    obtain ⟨q, hq⟩ := Option.ne_none_iff_exists'.1 (hn.dispatching x hx hr)
    rw [h.inodes.byIno hn.inodes hq]
    exact Option.some_ne_none q

theorem Renumbers.waiting (h : Renumbers s s') (hn : s.Named) (p : String) (n : Nat) :
    s'.Waiting p n ↔ s.Waiting p n := by
  have hd : (∃ x ∈ s.dispatching, x.path s'.tables.side.inodes = p ∧ x.pending.stop = n) ↔
      ∃ x ∈ s.dispatching, x.path s.tables.side.inodes = p ∧ x.pending.stop = n := by
    constructor
    · rintro ⟨x, hx, hp, hstop⟩
      exact ⟨x, hx, by rw [← h.path hn hx, hp], hstop⟩
    · rintro ⟨x, hx, hp, hstop⟩
      exact ⟨x, hx, by rw [h.path hn hx, hp], hstop⟩
  rw [Waiting, Waiting, displaced, displaced, h.buffers, h.writing, h.dispatching, h.uploads, hd]

/-- What the tables learn of a path by asking the remote for it. -/
structure Learns (p : String) (found : Option EntryMeta) (t t' : MountTables) : Prop where
  buffers : t'.buffers = t.buffers
  uploads : t'.uploads = t.uploads
  inodes : Numbered t.side.inodes t'.side.inodes
  metas : ∀ (q : String) (m : EntryMeta), t'.caches.metas[q]? = some m → t.caches.metas[q]? = some m ∨
    q = p ∧ found = some m ∧ t.caches.metas[p]? = none ∧ t.hasPendingWrite p = false

theorem Learns.refl (p : String) (found : Option EntryMeta) (t : MountTables) : Learns p found t t :=
  ⟨rfl, rfl, .refl _, fun _ _ h => .inl h⟩

theorem Learns.found {found : Option EntryMeta} {t t' : MountTables} (h : Learns p found t t') (q : String)
    (m : EntryMeta) : Learns p found t (t'.found q m).1 :=
  ⟨h.buffers, h.uploads, h.inodes.trans (ino_numbered _ q), h.metas⟩

theorem statRemote_learns {t : MountTables} (hm : t.caches.metas[p]? = none) (found : Option EntryMeta) :
    Learns p found t (t.statRemote p (.ok found)).1 := by
  cases found with
  | none =>
    refine ⟨rfl, rfl, .refl _, fun q m hq => .inl ?_⟩
    simp only [MountTables.statRemote, Caches.metas_forget, get?_erase] at hq
    split at hq
    · cases hq
    · exact hq
  | some m' =>
    simp only [MountTables.statRemote]
    cases hp : t.hasPendingWrite p with
    | true => exact .refl p _ t
    | false =>
      refine ⟨rfl, rfl, .refl _, fun q m hq => ?_⟩
      simp only [Bool.false_eq_true, if_false, Caches.metas_setMeta, get?_insert] at hq
      split at hq
      · rename_i he
        exact .inr ⟨he, hq, hm, hp⟩
      · exact .inl hq

theorem lookup_learns {t : MountTables} {k : CacheClock} {parent : Nat} {name : String}
    (hc : t.side.inodes.childPath parent name = .ok p) (hp : isAside ignore p = false) (found : Option EntryMeta) :
    Learns p found t (t.lookup ignore k parent name (.ok found)).1 := by
  obtain ⟨hside, hign⟩ := Bool.or_eq_false_iff.1 hp
  rw [MountTables.lookup_eq hc hside hign]
  cases hm : t.caches.metas[p]? with
  | some m => exact (Learns.refl p found t).found p m
  | none =>
    dsimp only
    split
    · exact .refl p found t
    · have hl := statRemote_learns hm found
      cases found with
      | none => exact hl
      | some m => exact hl.found p m

theorem occupied_learns (t : MountTables) (k : CacheClock) (p : String) (found : Option EntryMeta) :
    Learns p found t (t.occupied k p found).1 := by
  unfold MountTables.occupied
  cases hm : t.caches.metas[p]? with
  | some m => exact .refl p found t
  | none =>
    dsimp only
    split
    · exact .refl p found t
    · exact statRemote_learns hm found

theorem hasPendingWrite_eq_false {t : MountTables} (h : t.hasPendingWrite p = false) :
    (∀ (fh : Nat) (c : Pending), t.buffers[fh]? = some c → matching p c.path = false) ∧
      ∀ u ∈ t.uploads, matching p u.pending.path = false := by
  obtain ⟨hb, hu⟩ := Bool.or_eq_false_iff.1 h
  refine ⟨fun fh c hc => ?_, fun u hmem => ?_⟩
  · have hmem : (fh, c) ∈ t.buffers.toList := ExtTreeMap.mem_toList_iff_getElem?_eq_some.2 hc
    simpa using List.any_eq_false.1 hb (fh, c) hmem
  · simpa using List.any_eq_false.1 hu u hmem

/-- Between calls, writes for a path without pending ones are on their way to the uploads. -/
theorem dispatching_of_waiting {n : Nat} (hw : s.writing = none) (hp : s.tables.hasPendingWrite p = false)
    (hq : matching p q = true) (h : s.Waiting q n) :
    ∃ x ∈ s.dispatching, x.path s.tables.side.inodes = q ∧ x.pending.stop = n := by
  obtain ⟨hb, hu⟩ := hasPendingWrite_eq_false hp
  rcases h with ⟨fh, c, hc, rfl, -⟩ | ⟨c, hc, -⟩ | h | ⟨u, hmem, -, rfl, -⟩
  · rw [hb fh c hc] at hq
    cases hq
  · rw [displaced, hw] at hc
    cases hc
  · exact h
  · rw [hu u hmem] at hq
    cases hq

theorem not_unnoted (hw : s.writing = none) (p : String) (k : Nat) : ¬ s.Unnoted p k := by
  rintro ⟨wr, hwr, -⟩
  rw [hw] at hwr
  cases hwr

theorem shows_of_meta {n : Node} {m' : EntryMeta} (hw : s.writing = none) (hno : ∀ n, ¬ s.Waiting p n)
    (hn : s.tree.node p = some n) (hm : entryMetaFast n = some m') (hkind : m.kind = m'.kind)
    (hsize : m.size = m'.size) : s.Shows p m := by
  have hat : s.tree.sizeAt p = n.length? := by rw [Tree.sizeAt, hn, Option.bind_some]
  refine ⟨by simp [hn], ?_, fun hfile k => ?_⟩
  · rw [hkind, hat]
    cases n <;> cases hm <;> simp [Node.length?]
  · have hlength : n.length? = some m.size := by
      rw [hkind] at hfile
      rw [hsize]
      cases n <;> cases hm
      · rfl
      · cases hfile
      · cases hfile
    simp [Reaches, hat, hlength, hno, not_unnoted hw]

/-- Of what has no writes on their way, the remote tells what there will be. -/
theorem shows_of_statRemote (hw : s.writing = none) (hp : s.tree.Plain p) (hno : ∀ n, ¬ s.Waiting p n)
    (hm : Mobfs.statRemote w s.tree p = some m) : s.Shows p m := by
  rw [Mobfs.statRemote, lookup_plain hp] at hm
  obtain ⟨n, hn, hm⟩ := Option.bind_eq_some_iff.1 hm
  exact shows_of_meta hw hno hn hm rfl rfl

theorem Renumbers.inv (hr : Renumbers s s') (h : s.SizesInv) (ht : s'.tree = s.tree)
    (hm : ∀ (p : String) (m : EntryMeta), s'.tables.caches.metas[p]? = some m → s.Shows p m) : s'.SizesInv := by
  have hwait := hr.waiting h.named
  refine h.of_steady (hr.named h.named) (by rw [hr.writing]) (fun p hp => ?_) (fun p n => (hwait p n).1)
    (fun p k _ => ?_) hm
  · rw [ht]
    exact ⟨hp, Iff.rfl⟩
  · unfold Reaches
    simp only [hwait, ht]

theorem learns_inv {t : MountTables} (h : s.SizesInv) (hw : s.writing = none) (hp : s.tree.Plain p) (hseen : s.Seen p)
    (hl : Learns p (Mobfs.statRemote w s.tree p) s.tables t) : (s.setTables t).SizesInv := by
  have hr : Renumbers s (s.setTables t) := ⟨hl.buffers, hl.uploads, rfl, rfl, hl.inodes⟩
  refine hr.inv h rfl fun q m hm => ?_
  rcases hl.metas q m hm with hm | ⟨rfl, hfound, hnone, hpend⟩
  · exact h.cached q m hm
  · refine shows_of_statRemote hw hp (fun n hn => ?_) hfound
    obtain ⟨x, hx, hpath, -⟩ := dispatching_of_waiting hw hpend (matching_self q) hn
    rw [hseen x hx hpath hnone] at hpend
    cases hpend

/-- Sidecars and what is ignored have no entries in `metas`. -/
theorem aside_inv {side : SideData} (h : s.SizesInv) (hn : Numbered s.tables.side.inodes side.inodes) :
    (s.aside side).SizesInv :=
  Renumbers.inv (s := s) ⟨rfl, rfl, rfl, rfl, hn⟩ h rfl h.cached

theorem lookup_inv {parent : Nat} {name : String} {k : CacheClock} (h : s.SizesInv) (hw : s.writing = none)
    (hg : s.CallOk w ignore (.lookup parent name k)) : (s.lookup w ignore parent name k).SizesInv := by
  unfold lookup
  cases hc : s.tables.side.inodes.childPath parent name with
  | error e => exact h
  | ok p =>
    dsimp only
    cases hp : isAside ignore p with
    | false =>
      obtain ⟨hplain, hseen⟩ := hg p hc hp
      exact learns_inv h hw hplain hseen (lookup_learns hc hp _)
    | true =>
      unfold MountTables.lookup MountTables.lookupFast
      rw [hc]
      dsimp only
      by_cases hs : isSidecar p = true
      · rw [if_pos hs]
        cases s.tables.side.sidecars[p]? with
        | none => exact h
        | some x =>
          exact Renumbers.inv (s := s) ⟨rfl, rfl, rfl, rfl, ino_numbered s.tables.side.inodes p⟩ h rfl h.cached
      · have hign : shouldIgnoreRel ignore p = true := by simpa [isAside, hs] using hp
        rw [if_neg hs, if_pos hign]
        exact h

/-! ## Creating -/

theorem create_numbered (sd : SideData) (parent : Nat) (name : String) (mode : Nat) (exclusive : Bool) (clock : Int) :
    Numbered sd.inodes (sd.create ignore parent name mode exclusive clock (.ok ())).1.inodes := by
  unfold SideData.create
  cases sd.inodes.childPath parent name with
  | error e => exact .refl _
  | ok p =>
    dsimp only
    split
    · split
      · exact .refl _
      · exact ino_numbered _ p
    · split
      · exact .refl _
      · exact ino_numbered _ p

/-- A file for which no write is waiting gets another size, which `metas` has then, too. -/
theorem resized_inv (p : String) (size : Nat) (h : s.SizesInv) (hw : s.writing = none) (hr : Renumbers s s')
    (hno : ∀ n, ¬ s.Waiting p n)
    (hsame : ∀ q, q ≠ p → s.tree.SameAt q s'.tree q) (hsize : s'.tree.sizeAt p = some size)
    (hm : ∀ (q : String) (m : EntryMeta), s'.tables.caches.metas[q]? = some m →
      if q = p then m.kind = .file ∧ m.size = size else s.tables.caches.metas[q]? = some m) : s'.SizesInv := by
  have hwait := hr.waiting h.named
  have hw' : s'.writing = none := by rw [hr.writing, hw]
  have hfile : s'.tree.sizeAt p ≠ none := by simp [hsize]
  refine ⟨hr.named h.named, fun q n hq => ?_, fun wr hwr => ?_, fun q m hq => ?_⟩
  · have hq := (hwait q n).1 hq
    have hne : q ≠ p := by
      rintro rfl
      exact hno n hq
    have hfile := h.files q n hq
    rwa [(hsame q hne (Tree.node_of_sizeAt hfile)).2]
  · rw [hw'] at hwr
    cases hwr
  · have hq := hm q m hq
    split at hq
    · rename_i he
      subst he
      refine ⟨Tree.node_of_sizeAt hfile, iff_of_true hq.1 hfile, fun _ k => ?_⟩
      simp [Reaches, hsize, hwait, hno, not_unnoted hw', hq.2]
    · rename_i hne
      exact (h.cached q m hq).moved (hsame q hne) (hwait q) fun k =>
        iff_of_false (not_unnoted hw' q k) (not_unnoted hw q k)

theorem looks_inv {asked : Bool} {k : CacheClock} (h : s.SizesInv) (hw : s.writing = none) (hp : s.tree.Plain p)
    (hseen : asked = true → s.Seen p) : (s.setTables (s.looks w asked k p).1).SizesInv := by
  unfold looks
  cases asked with
  | false => exact h
  | true => exact learns_inv h hw hp (hseen rfl) (occupied_learns s.tables k p _)

theorem looks_renumbers (asked : Bool) (k : CacheClock) (p : String) :
    Renumbers s (s.setTables (s.looks w asked k p).1) := by
  unfold looks
  cases asked with
  | false => exact ⟨rfl, rfl, rfl, rfl, .refl _⟩
  | true =>
    have hl := occupied_learns s.tables k p (Mobfs.statRemote w s.tree p)
    exact ⟨hl.buffers, hl.uploads, rfl, rfl, hl.inodes⟩

theorem create_inv {parent : Nat} {name : String} {mode : Nat} {exclusive : Bool} {k : CacheClock} {clock : Int}
    (h : s.SizesInv) (hw : s.writing = none)
    (hg : s.CallOk w ignore (.create parent name mode exclusive k clock stamp))
    (hs : s.create w blobs ignore parent name mode exclusive k clock stamp = some s') : s'.SizesInv := by
  unfold create at hs
  cases hc : s.tables.side.inodes.childPath parent name with
  | error e =>
    rw [hc] at hs
    cases hs
    exact h
  | ok p =>
    rw [hc] at hs
    dsimp only at hs
    split at hs
    · cases hs
      exact aside_inv h (create_numbered _ _ _ _ _ _)
    · rename_i hp
      obtain ⟨hplain, hseen, hfree⟩ := hg p hc (by simpa using hp)
      have hlooked := looks_inv (w := w) (k := k) h hw hplain hseen
      have hr := looks_renumbers (s := s) (w := w) exclusive k p
      split at hs
      · cases hs
        exact hlooked
      · rename_i htaken
        obtain ⟨hlink, hno⟩ := hfree (by simpa using htaken)
        obtain ⟨s1, h1, hs⟩ := Option.bind_eq_some_iff.1 hs
        obtain ⟨s2, h2, hs⟩ := Option.map_eq_some_iff.1 hs
        obtain ⟨hs1, hcalls⟩ := request_eq h1
        obtain ⟨hs2, -⟩ := request_eq h2
        obtain ⟨⟨data, hsize, -⟩, hother⟩ := openEdit_sizeAt hplain hlink hcalls
        have hmeta : s1.tree.MetaOnly s2.tree := by
          rw [hs2]
          exact handle_setMetadata
        have htree : s'.tree = s2.tree := by rw [← hs]; rfl
        refine resized_inv p 0 hlooked hw ?_ (fun n hn => hno n ((hr.waiting h.named p n).1 hn)) (fun q hq => ?_) ?_
          fun q m hm => ?_
        · rw [← hs, hs2, hs1]
          exact ⟨rfl, rfl, rfl, rfl, ino_numbered _ p⟩
        · rw [htree]
          exact (hother q hq).trans (hmeta.sameAt q)
        · rw [htree, hmeta.sizeAt, hsize, length_resize]
        · rw [← hs] at hm
          simp only [setTables, MountTables.found, MountTables.setInodes, Caches.metas_dirUpsert, Caches.metas_setMeta,
            get?_insert] at hm
          split at hm
          · rename_i hq
            cases hm
            rw [if_pos hq]
            exact ⟨rfl, rfl⟩
          · rename_i hq
            rw [if_neg hq]
            exact hm

/-! ## Setting the size -/

theorem editSidecar_inodes (sd : SideData) (path : String) (f : EntryMeta × Bytes → EntryMeta × Bytes) :
    (sd.editSidecar path f).1.inodes = sd.inodes := by
  unfold SideData.editSidecar
  split <;> rfl

theorem setattr_inodes (sd : SideData) (ino : Nat) (mode size : Option Nat) (modified : Option Int) :
    (sd.setattr ino mode size modified).1.inodes = sd.inodes := by
  unfold SideData.setattr
  split
  · rfl
  · split
    · rfl
    · split
      · exact editSidecar_inodes _ _ _
      · rfl

theorem setSize_inv {ino size : Nat} {clock : Int} (h : s.SizesInv) (hw : s.writing = none)
    (hg : s.CallOk w ignore (.setSize ino size clock stamp)) (hs : s.setSize w blobs ino size clock stamp = some s') :
    s'.SizesInv := by
  unfold setSize at hs
  cases hc : s.tables.side.inodes.pathOf ino with
  | error e =>
    rw [hc] at hs
    cases hs
    exact h
  | ok p =>
    rw [hc] at hs
    dsimp only at hs
    split at hs
    · cases hs
      refine aside_inv h ?_
      rw [setattr_inodes]
      exact .refl _
    · rename_i hp
      rw [Bool.or_eq_true, not_or] at hp
      obtain ⟨hplain, hlink, htaken⟩ := hg p hc (by simpa using hp.1) (by simpa using hp.2)
      obtain ⟨hpend, hs⟩ := Option.ite_none_left_eq_some.1 hs
      obtain ⟨s1, h1, hs⟩ := Option.map_eq_some_iff.1 hs
      obtain ⟨hs1, hcalls⟩ := request_eq h1
      obtain ⟨⟨data, hsize, hold⟩, hother⟩ := openEdit_sizeAt hplain hlink hcalls
      have htree : s'.tree = s1.tree := by rw [← hs]; rfl
      refine resized_inv p size h hw ?_ (fun n hn => ?_) (fun q hq => ?_) ?_ fun q m hm => ?_
      · rw [← hs, hs1]
        exact ⟨rfl, rfl, rfl, rfl, .refl _⟩
      · obtain ⟨x, hx, hpath, -⟩ := dispatching_of_waiting hw (by simpa using hpend) (matching_self p) hn
        exact htaken x hx hpath
      · rw [htree]
        exact hother q hq
      · rw [htree, hsize, length_resize]
      · rw [← hs, hs1] at hm
        simp only [setTables, Caches.metas_setMeta, get?_insert] at hm
        split at hm
        · rename_i hq
          cases hm
          rw [if_pos hq]
          refine ⟨?_, rfl⟩
          cases hm0 : s.tables.caches.metas[p]? with
          | none => rfl
          | some m0 =>
            -- The entry was one of a file, or the request had failed.
            have hshows := h.cached p m0 hm0
            exact hshows.kind.2 (by rw [hold hshows.there]; exact Option.some_ne_none _)
        · rename_i hq
          rw [if_neg hq]
          exact hm

/-! ## Writing -/

theorem write_inodes (sd : SideData) (ino offset : Nat) (data : Bytes) (clock : Int) :
    (sd.write ino offset data clock).1.inodes = sd.inodes := by
  unfold SideData.write
  split
  · rfl
  · split
    · rfl
    · split
      · exact editSidecar_inodes _ _ _
      · rfl

theorem exists_insert (b : ExtTreeMap Nat Pending) (fh : Nat) (c : Pending) (P : Pending → Prop) :
    (∃ (fh' : Nat) (c' : Pending), (b.insert fh c)[fh']? = some c' ∧ P c') ↔
      P c ∨ ∃ (fh' : Nat) (c' : Pending), (b.erase fh)[fh']? = some c' ∧ P c' := by
  have herase : ∀ fh' : Nat, ((b.insert fh c).erase fh)[fh']? = (b.erase fh)[fh']? := by
    intro fh'
    simp only [get?_erase, get?_insert]
    split <;> rfl
  rw [exists_erase _ fh]
  simp [herase]

/-- The buffer of the handle is then a new one, and the old one makes room, or the old one
that goes on. -/
theorem buffer_cases (t : MountTables) (ino : Nat) (part : Part) : ∃ c,
    (t.buffer ino part).1 = { t with buffers := t.buffers.insert part.fh c } ∧
      ((c = .single ino part ∧ (t.buffer ino part).2 = t.buffers[part.fh]?) ∨
        ∃ c₀ h, t.buffers[part.fh]? = some c₀ ∧ c₀.ino = ino ∧ c = c₀.extend part h ∧
          (t.buffer ino part).2 = none) := by
  unfold MountTables.buffer
  cases hc : t.buffers[part.fh]? with
  | none => exact ⟨_, rfl, .inl ⟨rfl, rfl⟩⟩
  | some c₀ =>
    dsimp only
    split
    · rename_i h
      exact ⟨_, rfl, .inr ⟨c₀, h.2.1, rfl, h.1, rfl, rfl⟩⟩
    · exact ⟨_, rfl, .inl ⟨rfl, rfl⟩⟩

theorem stop_extend {c : Pending} {part : Part} (ino : Nat) (h : part.offset = c.offset + c.data.length) :
    (c.extend part h).stop = max c.stop (Pending.single ino part).stop := by
  have hdata : (c.extend part h).data = c.data ++ part.data := by
    simp [Pending.extend, Pending.data, partsData]
  have hsingle : (Pending.single ino part).data = part.data := by
    simp [Pending.single, Pending.data, partsData]
  have hoffset : (c.extend part h).offset = c.offset := rfl
  have hoffset' : (Pending.single ino part).offset = part.offset := rfl
  unfold Pending.stop
  rw [hdata, hsingle, hoffset, hoffset', List.length_append, h]
  by_cases hc : c.data = []
  · by_cases hd : part.data = [] <;> simp [hc, hd]
  · by_cases hd : part.data = []
    · simp [hc, hd]
    · simp only [List.append_eq_nil_iff, hc, hd, false_and, if_false]
      omega

/-- The write waits with the others. -/
theorem buffer_waiting {ino : Nat} (part : Part) (hw : s.writing = none) (hn : s.Named)
    (hi : s.tables.side.inodes.byIno[ino]? = some part.path) (hs' : s' = { s with
      tables := (s.tables.buffer ino part).1
      writing := some ⟨part.fh, (s.tables.buffer ino part).2, part.path, part.offset, part.data.length⟩
      written := s.written + 1 }) :
    s'.Named ∧ (∀ q n, q ≠ part.path → (s'.Waiting q n ↔ s.Waiting q n)) ∧
      ∀ k, (∃ n, s'.Waiting part.path n ∧ k < n) ↔
        (∃ n, s.Waiting part.path n ∧ k < n) ∨ k < (Pending.single ino part).stop := by
  obtain ⟨c, htables, hcases⟩ := buffer_cases s.tables ino part
  rw [htables] at hs'
  have hbuffers : ∀ (fh : Nat) (c' : Pending), s'.tables.buffers[fh]? = some c' →
      c' = c ∨ s.tables.side.inodes.byIno[c'.ino]? = some c'.path := by
    intro fh c' hc'
    rw [hs', get?_insert] at hc'
    split at hc'
    · cases hc'
      exact .inl rfl
    · exact .inr (hn.buffers fh c' hc')
  have hnamed : s.tables.side.inodes.byIno[c.ino]? = some c.path →
      (∀ c', (s.tables.buffer ino part).2 = some c' → s.tables.side.inodes.byIno[c'.ino]? = some c'.path) →
      s'.Named := by
    intro hc hd
    have hside : s'.tables.side = s.tables.side := by rw [hs']
    refine ⟨by rw [hside]; exact hn.inodes, fun fh c' hc' => ?_, fun c' hc' => ?_, fun x hx hr => ?_⟩
    · rw [hside]
      rcases hbuffers fh c' hc' with rfl | h
      · exact hc
      · exact h
    · rw [hs'] at hc'
      rw [hside]
      exact hd c' hc'
    · rw [hs'] at hx
      rw [hside]
      exact hn.dispatching x hx hr
  rcases hcases with ⟨rfl, hold⟩ | ⟨c₀, h, hc₀, hino, rfl, hold⟩
  · have hpath : (Pending.single ino part).path = part.path := rfl
    have hwait : ∀ q n, s'.Waiting q n ↔ s.Waiting q n ∨ part.path = q ∧ (Pending.single ino part).stop = n := by
      intro q n
      rw [hs']
      simp only [Waiting, displaced, hw, hold, Option.bind_some, Option.bind_none, exists_insert, hpath,
        exists_erase s.tables.buffers part.fh, reduceCtorEq, false_and, exists_false, false_or]
      exact iff_of_eq (by ac_rfl)
    refine ⟨hnamed hi fun c' hc' => hn.buffers part.fh c' (hold ▸ hc'), fun q n hq => ?_, fun k => ?_⟩
    · simp [hwait, Ne.symm hq]
    · simp [hwait, or_and_right, exists_or]
  · have hpath : c₀.path = part.path := by
      have hbyIno := hn.buffers _ c₀ hc₀
      rw [hino, hi] at hbyIno
      exact (Option.some.inj hbyIno).symm
    have hext : (c₀.extend part h).path = part.path := hpath
    -- Beside the buffer that goes on.
    obtain ⟨R, hnew, hbefore⟩ : ∃ R : String → Nat → Prop,
        (∀ q n, s'.Waiting q n ↔ (part.path = q ∧ (c₀.extend part h).stop = n) ∨ R q n) ∧
        ∀ q n, s.Waiting q n ↔ (part.path = q ∧ c₀.stop = n) ∨ R q n := by
      refine ⟨fun q n => (∃ (fh : Nat) (c : Pending), (s.tables.buffers.erase part.fh)[fh]? = some c ∧ c.path = q ∧
          c.stop = n) ∨ (∃ x ∈ s.dispatching, x.path s.tables.side.inodes = q ∧ x.pending.stop = n) ∨
          ∃ u ∈ s.tables.uploads, u.state = .queued ∧ u.pending.path = q ∧ u.pending.stop = n,
        fun q n => ?_, fun q n => ?_⟩
      · rw [hs']
        simp only [Waiting, displaced, hold, Option.bind_some, exists_insert, hext, reduceCtorEq, false_and,
          exists_false, false_or, or_assoc]
      · simp only [Waiting, displaced, hw, Option.bind_none, exists_erase s.tables.buffers part.fh, hc₀, hpath,
          Option.some.injEq, exists_eq_left', reduceCtorEq, false_and, exists_false, false_or, or_assoc]
    refine ⟨hnamed ?_ fun c' hc' => ?_, fun q n hq => ?_, fun k => ?_⟩
    · rw [hext, ← hi, ← hino]
      rfl
    · rw [hold] at hc'
      cases hc'
    · simp [hnew, hbefore, Ne.symm hq]
    · simp only [hnew, hbefore, true_and, or_and_right, exists_or, exists_eq_left', stop_extend ino h, lt_max_iff]
      exact iff_of_eq (by ac_rfl)

theorem write_inv {ino fh offset : Nat} {data : Bytes} {clock : Int} (h : s.SizesInv) (hw : s.writing = none)
    (hg : s.CallOk w ignore (.write ino fh offset data clock)) :
    (s.write ignore ino fh offset data clock).SizesInv := by
  unfold write
  cases hc : s.tables.side.inodes.pathOf ino with
  | error e => exact h
  | ok p =>
    dsimp only
    split
    · refine aside_inv h ?_
      rw [write_inodes]
      exact .refl _
    · rename_i hp
      rw [Bool.or_eq_true, not_or] at hp
      obtain ⟨hfile, hempty⟩ := hg p hc (by simpa using hp.1) (by simpa using hp.2)
      have hi := MountTables.pathOf_iff.1 hc
      obtain ⟨hnamed, hother, hself⟩ := buffer_waiting ⟨s.written, fh, p, offset, data⟩ hw h.named hi rfl
      obtain ⟨c, htables, -⟩ := buffer_cases s.tables ino ⟨s.written, fh, p, offset, data⟩
      have hstop : ∀ k, s.Reaches p k ∨ k < (Pending.single ino ⟨s.written, fh, p, offset, data⟩).stop ↔
          s.Reaches p k ∨ k < offset + data.length := by
        intro k
        unfold Pending.stop
        by_cases hd : data = []
        · have hbefore : k < offset + data.length → s.Reaches p k := by simpa [hd] using hempty hd k
          simpa [hd, Pending.single, Pending.data, partsData] using hbefore
        · simp [hd, Pending.single, Pending.data, partsData]
      generalize hs' : SoloMount.mk _ _ _ _ _ _ = s'
      rw [hs'] at hnamed
      simp only [hs'] at hother hself
      have htree : s'.tree = s.tree := by rw [← hs']
      have hreaches : ∀ k, s'.Reaches p k ↔ s.Reaches p k ∨ k < offset + data.length := by
        intro k
        rw [← hstop, Reaches, Reaches, htree, hself, or_assoc]
      have hun : ∀ q k, s'.Unnoted q k ↔ p = q ∧ k < offset + data.length := by
        intro q k
        rw [← hs']
        simp [Unnoted]
      refine ⟨hnamed, fun q n hq => ?_, fun wr hwr => ?_, fun q m hm => ?_⟩
      · rw [htree]
        by_cases he : q = p
        · rwa [he]
        · exact h.files q n ((hother q n he).1 hq)
      · rw [← hs'] at hwr
        cases hwr
        exact ⟨by rwa [htree], fun k hk => (hreaches k).2 (.inr hk)⟩
      · rw [← hs', htables] at hm
        have hshows := h.cached q m hm
        by_cases he : q = p
        · subst he
          refine ⟨by rw [htree]; exact hshows.there, by rw [htree]; exact hshows.kind, fun hkind k => ?_⟩
          have hsize := hshows.size hkind k
          rw [or_iff_left (not_unnoted hw q k)] at hsize
          rw [hun, hreaches, hsize]
          simp
        · refine hshows.moved (.of_node (by rw [htree])) (fun n => hother q n he) fun k => ?_
          rw [hun]
          exact iff_of_false (fun hk => he hk.1.symm) (not_unnoted hw q k)

end Facts

end SoloMount

end Mobfs
