import Mobfs.Remote.UploadFile
/-!
# Downloading a file

`download_file` asks for one piece after the other, writes each to a temporary and moves this
to the path when a piece is said to be the last. The daemon makes one call of `read` for each
piece, and says so of every piece that is shorter than what was asked for.

`download_faithful_iff`: a download that returns `Ok` is a faithful copy if and only if every
short piece that has come back ends where the file ends. `short_read_cuts_off`: a read that
returns less, as it may, ends the download.
-/

namespace Mobfs

open Lib

/-! ## The client's machine -/

/-- The system of the client. A step of the program is a list of calls; `refused` says for
each step how many of its calls are let through. -/
structure LocalOs where
  refused : Nat → Option Nat
  stamp : Stamp
  pid : Nat

/-- The client's files, and the number of steps made. -/
structure Machine where
  tree : Tree
  steps : Nat

def Machine.run (os : LocalOs) (m : Machine) (calls : List (Tree → Option Tree)) : Bool × Machine :=
  let res := runCalls (os.refused m.steps) m.tree calls
  (res.2, ⟨res.1, m.steps + 1⟩)

/-- `set_mtime`. -/
def utimeCalls (w : Walks) (p : String) (modified : Int) : List (Tree → Option Tree) :=
  if 0 < modified then [setFileMtime w p modified] else []

/-! ## The daemon -/

/-- A piece that the daemon has read, and whether it has come back. -/
structure ChunkRead where
  offset : Nat
  data : Bytes
  answered : Bool

/-- The network, and the file on the daemon's machine. It does not change; opening it may fail. -/
structure ReadRoute where
  net : Nat → Attempt
  retries : Nat
  file : OpenFile
  opens : Nat → Bool

def ReadRoute.serve (c : ReadRoute) (offset len i : Nat) (log : List ChunkRead) : Option (Bytes × Bool) × List ChunkRead :=
  if c.opens i then
    match c.file.readFileChunk i offset len with
    | .error _ => (none, log)
    | .ok (data, eof) => (some (data, eof), log ++ [⟨offset, data, (c.net i).answered⟩])
  else (none, log)

/-- `read_file_chunk` of the client. -/
def ReadRoute.readFileChunk (c : ReadRoute) (offset len : Nat) (s : Peer (List ChunkRead)) :
    Lib.Answer (Bytes × Bool) × Peer (List ChunkRead) :=
  sendAgain c.net (c.serve offset len) c.retries s

/-! ## The download -/

structure Client where
  disk : Machine
  remote : Peer (List ChunkRead)

section Download
variable (w : Walks) (os : LocalOs) (c : ReadRoute)

/-- The loop. What has been written ends at `offset`. -/
def downloadChunks (temp : String) : Nat → Nat → Client → Bool × Client
  | 0, _, s => (true, s)
  | fuel + 1, offset, s =>
    match c.readFileChunk offset transferChunkSize s.remote with
    | (.ok (data, eof), remote) =>
      match s.disk.run os [writeAll w os.stamp temp offset data] with
      | (false, disk) => (false, ⟨disk, remote⟩)
      | (true, disk) =>
        if eof then (true, ⟨disk, remote⟩) else downloadChunks temp fuel (satAdd offset data.length) ⟨disk, remote⟩
    | (_, remote) => (false, ⟨s.disk, remote⟩)

/-- `download_file` of a regular file: whether it returns `Ok`. The loop takes no more
rounds than the file has bytes, and one for its end. -/
def downloadRegular (rel : String) (m : EntryMeta) (s : Client) : Bool × Client :=
  let temp := atomicTempPath os.pid rel
  match s.disk.run os (createDirAll w os.stamp (ancestors rel) ++ [createFile w os.stamp temp]) with
  | (false, disk) => (false, ⟨disk, s.remote⟩)
  | (true, disk) =>
    match downloadChunks w os c temp (c.file.contents.length + 1) 0 ⟨disk, s.remote⟩ with
    | (false, s) => (false, s)
    | (true, s) =>
      let last := s.disk.run os (moveEntry w temp rel :: (chmodCalls w rel m.mode ++ utimeCalls w rel m.modified))
      (last.1, ⟨last.2, s.remote⟩)

end Download

/-! ## The temporary -/

/-- The temporary is a file with the contents. -/
def TempHolds (w : Walks) (temp : String) (data : Bytes) (t : Tree) : Prop :=
  ∃ q mode mtime, w.follow t temp = some q ∧ t.node q = some (.file data mode mtime)

section Temp
variable {w : Walks} {t t' : Tree} {p temp : String} {stamp : Stamp} {data piece : Bytes}

theorem tempHolds_createFile (h : createFile w stamp temp t = some t') : TempHolds w temp [] t' := by
  obtain ⟨t1, -, hedit⟩ := Option.bind_eq_some_iff.1 h
  obtain ⟨q, old, mode, mtime, hq, -, hnode⟩ := editFile_spec hedit
  exact ⟨q, mode, stamp.mtime, hq, by rw [hnode, if_pos rfl]⟩

/-- A write goes on where the last one ended. -/
theorem TempHolds.writeAll (hh : TempHolds w temp data t) (h : writeAll w stamp temp data.length piece t = some t') :
    TempHolds w temp (data ++ piece) t' := by
  unfold Mobfs.writeAll at h
  split at h
  · rename_i hp
    cases h
    rwa [hp, List.append_nil]
  · obtain ⟨q, mode, mtime, hq, hn⟩ := hh
    unfold editFile at h
    rw [hq] at h
    simp only [hn] at h
    have hq' := w.follow_place t t' temp q _ hq (by rw [Tree.isLink, hn]; rfl) rfl h
    refine ⟨q, mode, stamp.mtime, hq', ?_⟩
    rw [(Tree.place_eq_some h).2.2, if_pos rfl, writeAt_end]

theorem TempReady.createFile (hr : TempReady w p temp t) (hw : w.Real) (h : createFile w stamp temp t = some t') :
    TempReady w p temp t' := by
  obtain ⟨t1, hopen, hedit⟩ := Option.bind_eq_some_iff.1 h
  exact (hr.openCreate hw hopen).editFile hw hedit

theorem TempReady.writeAll {offset : Nat} (hr : TempReady w p temp t) (hw : w.Real)
    (h : writeAll w stamp temp offset piece t = some t') : TempReady w p temp t' := by
  unfold Mobfs.writeAll at h
  split at h
  · cases h
    exact hr
  · exact hr.editFile hw h

end Temp

/-! ## The pieces -/

/-- Every piece that has come back is a full one. -/
def AllFull (log : List ChunkRead) : Prop := ∀ x ∈ log, x.answered = true → transferChunkSize ≤ x.data.length

/-- Every short piece that has come back ends where the file does. -/
def ShortAtEnd (f : OpenFile) (log : List ChunkRead) : Prop :=
  ∀ x ∈ log, x.answered = true → x.data.length < transferChunkSize → x.offset + x.data.length = f.contents.length

section Pieces
variable {c : ReadRoute} {offset : Nat} {data : Bytes} {eof : Bool}

theorem AllFull.serve {log : List ChunkRead} (h : AllFull log) {len i : Nat} (hlost : (c.net i).answered = false) :
    AllFull (c.serve offset len i log).2 := by
  unfold ReadRoute.serve
  split
  · split
    · exact h
    · intro x hx hans
      rcases List.mem_append.1 hx with hx | hx
      · exact h x hx hans
      · rw [List.mem_singleton.1 hx, hlost] at hans
        cases hans
  · exact h

/-- A piece that comes back is the last of the log, and tells of the end by its length. -/
theorem readFileChunk_ok {s s' : Peer (List ChunkRead)} (hs : AllFull s.state)
    (h : c.readFileChunk offset transferChunkSize s = (.ok (data, eof), s')) :
    ∃ i log, AllFull log ∧ s'.state = log ++ [⟨offset, data, true⟩] ∧ offset < 2 ^ 63 ∧
      data = c.file.read i offset transferChunkSize ∧ (eof = true ↔ data.length < transferChunkSize) := by
  have hends : Ends c.net (c.serve offset transferChunkSize) AllFull (.ok (data, eof), s') :=
    h ▸ sendAgain_cases (fun i log hlost hl => AllFull.serve hl hlost) c.retries hs
  obtain ⟨i, log, hfull, hans, hsv⟩ := hends
  unfold ReadRoute.serve at hsv
  split at hsv
  · split at hsv
    · cases hsv
    · rename_i hread
      obtain ⟨hanswer, hlog⟩ := Prod.mk.inj hsv
      cases hanswer
      unfold OpenFile.readFileChunk at hread
      split at hread
      · rename_i hseek
        cases hread
        refine ⟨i, log, hfull, by rw [← hlog, hans], hseek.1, rfl, ?_⟩
        rw [show min transferChunkSize maxChunkBytes = transferChunkSize from rfl]
        simp only [Bool.or_eq_true, List.isEmpty_iff, decide_eq_true_eq, or_iff_right_iff_imp]
        intro hnil
        rw [hnil]
        decide
      · cases hread
  · cases hsv

end Pieces

/-! ## Whole downloads -/

section Download
variable {w : Walks} {os : LocalOs} {c : ReadRoute} {rel temp : String} {m : EntryMeta}

theorem run_ok {disk disk' : Machine} {calls : List (Tree → Option Tree)} (h : disk.run os calls = (true, disk')) :
    calls.foldlM (fun t c => c t) disk.tree = some disk'.tree := by
  obtain ⟨hok, hdisk⟩ := Prod.mk.inj h
  rw [← hdisk]
  exact runCalls_ok hok

theorem run_one_ok {disk disk' : Machine} {call : Tree → Option Tree} (h : disk.run os [call] = (true, disk')) :
    call disk.tree = some disk'.tree := by
  obtain ⟨t1, h1, h2⟩ := foldlM_cons_iff.1 (run_ok h)
  rw [← foldlM_nil_iff.1 h2]
  exact h1

/-- The temporary has what comes before the end of the first short piece. -/
theorem downloadChunks_spec (hw : w.Real) {fuel n : Nat} {s : Client} (hready : TempReady w rel temp s.disk.tree)
    (hholds : TempHolds w temp (c.file.contents.take n) s.disk.tree) (hn : n ≤ c.file.contents.length)
    (hlog : AllFull s.remote.state) (hfuel : c.file.contents.length < n + fuel) {s' : Client}
    (hres : downloadChunks w os c temp fuel n s = (true, s')) :
    TempReady w rel temp s'.disk.tree ∧ ∃ k ≤ c.file.contents.length,
      TempHolds w temp (c.file.contents.take k) s'.disk.tree ∧
        (k = c.file.contents.length ↔ ShortAtEnd c.file s'.remote.state) := by
  induction fuel generalizing n s with
  | zero => omega
  | succ fuel ih =>
    unfold downloadChunks at hres
    split at hres
    · rename_i data eof remote hread
      obtain ⟨i, log, hfull, hremote, hseek, hdata, heof⟩ := readFileChunk_ok hlog hread
      obtain ⟨-, k, hk, -, happ⟩ := c.file.read_next hn i transferChunkSize (by decide)
      rw [← hdata] at happ
      have hlen : n + data.length = k := by
        have := congrArg List.length happ
        rwa [List.length_append, List.length_take_of_le hn, List.length_take_of_le hk] at this
      have hsize : data.length ≤ transferChunkSize := by
        rw [hdata, OpenFile.read, List.length_take]
        omega
      split at hres
      · cases hres
      · rename_i disk hwrite
        have hcall := run_one_ok hwrite
        have hready' : TempReady w rel temp disk.tree := hready.writeAll hw hcall
        have hholds' : TempHolds w temp (c.file.contents.take k) disk.tree := by
          have hlast : writeAll w os.stamp temp (c.file.contents.take n).length data s.disk.tree = some disk.tree := by
            rwa [List.length_take_of_le hn]
          rw [← happ]
          exact hholds.writeAll hlast
        split at hres
        · rename_i hlast
          cases hres
          refine ⟨hready', k, hk, hholds', ?_⟩
          rw [ShortAtEnd, hremote]
          constructor
          · intro hkl x hx hans hshort
            rcases List.mem_append.1 hx with hx | hx
            · have := hfull x hx hans
              omega
            · rw [List.mem_singleton.1 hx, ← hkl]
              exact hlen
          · intro h
            rw [← hlen]
            exact h ⟨n, data, true⟩ (List.mem_append_right _ List.mem_cons_self) rfl (heof.1 hlast)
        · rename_i hmore
          have hpiece : transferChunkSize ≤ data.length := by
            by_contra hshort
            exact hmore (heof.2 (by omega))
          have hnext : satAdd n data.length = k := by
            have : transferChunkSize ≤ 2 ^ 62 := by decide
            unfold satAdd
            omega
          rw [hnext] at hres
          refine ih hready' hholds' hk ?_ ?_ hres
          · rw [hremote]
            intro x hx hans
            rcases List.mem_append.1 hx with hx | hx
            · exact hfull x hx hans
            · rw [List.mem_singleton.1 hx]
              exact hpiece
          · have : 0 < transferChunkSize := by decide
            omega
    · cases hres

/-- Where a download begins: nothing has been sent. -/
def Tree.client (t : Tree) : Client := ⟨⟨t, 0⟩, ⟨[], 0⟩⟩

/-- The path is a file with the contents. -/
def Holds (w : Walks) (p : String) (data : Bytes) (t : Tree) : Prop :=
  ∃ q mode mtime, w.locate t p = some q ∧ t.node q = some (.file data mode mtime)

theorem metaOnly_of_mem_utimeCalls {t t' : Tree} {p : String} {modified : Int} {call : Tree → Option Tree}
    (hcall : call ∈ utimeCalls w p modified) (hc : call t = some t') : t.MetaOnly t' := by
  unfold utimeCalls at hcall
  split at hcall
  · rw [List.mem_singleton.1 hcall] at hc
    exact (setFileMtime_spec hc).1
  · cases hcall

theorem utimeCalls_metaOnly {t t' : Tree} {p : String} {modified : Int}
    (h : (utimeCalls w p modified).foldlM (fun t c => c t) t = some t') : t.MetaOnly t' := by
  unfold utimeCalls at h
  split at h
  · obtain ⟨t1, h1, h2⟩ := foldlM_cons_iff.1 h
    obtain rfl := foldlM_nil_iff.1 h2
    exact (setFileMtime_spec h1).1
  · obtain rfl := foldlM_nil_iff.1 h
    exact Tree.MetaOnly.refl t

theorem Holds.metaOnly {p : String} {data : Bytes} {t t' : Tree} (h : Holds w p data t) (hm : t.MetaOnly t') :
    Holds w p data t' := by
  obtain ⟨q, mode, mtime, hq, hn⟩ := h
  obtain ⟨mode', mtime', hn'⟩ := hm.file hn
  exact ⟨q, mode', mtime', by rw [w.meta_locate t t' hm, hq], hn'⟩

theorem Holds.inj {p : String} {data data' : Bytes} {t : Tree} (h : Holds w p data t) (h' : Holds w p data' t) : data = data' := by
  obtain ⟨q, mode, mtime, hq, hn⟩ := h
  obtain ⟨q', mode', mtime', hq', hn'⟩ := h'
  obtain rfl : q = q' := Option.some.inj (hq.symm.trans hq')
  have heq := Option.some.inj (hn.symm.trans hn')
  exact (Node.file.inj heq).1

/-- A download that returns `Ok` leaves a beginning of the file at the path. -/
theorem downloadRegular_spec (hw : w.Fresh) {t : Tree} (hready : TempReady w rel (atomicTempPath os.pid rel) t)
    (hok : (downloadRegular w os c rel m t.client).1 = true) :
    ∃ k ≤ c.file.contents.length, Holds w rel (c.file.contents.take k) (downloadRegular w os c rel m t.client).2.disk.tree ∧
      (k = c.file.contents.length ↔ ShortAtEnd c.file (downloadRegular w os c rel m t.client).2.remote.state) := by
  have hsib := sibling_atomicTempPath os.pid rel
  unfold downloadRegular at hok ⊢
  dsimp only at hok ⊢
  split at hok
  · cases hok
  · rename_i disk hstart
    split at hok
    · cases hok
    · rename_i s hchunks
      obtain ⟨t1, hdirs, hcreate⟩ := foldlM_append_iff.1 (run_ok hstart)
      obtain ⟨t2, hcreate, ht⟩ := foldlM_cons_iff.1 hcreate
      rw [foldlM_nil_iff.1 ht] at hcreate
      have hready1 : TempReady w rel (atomicTempPath os.pid rel) t1 := by
        refine foldlM_inv (fun call hcall t t' ht hct => ?_) hready hdirs
        obtain ⟨d, hd, rfl⟩ := createDirAll_mem hcall
        exact ht.createDir hw hsib hd hct
      obtain ⟨hready2, k, hk, ⟨q, mode, mtime, hq, hn⟩, hiff⟩ := downloadChunks_spec hw.toReal (n := 0)
        (hready1.createFile hw.toReal hcreate) (tempHolds_createFile hcreate) (Nat.zero_le _) (fun x hx => by cases hx)
        (by omega) hchunks
      refine ⟨k, hk, ?_, hiff⟩
      -- The temporary is moved, and then modes and times are set.
      obtain ⟨t3, hmove, hmeta⟩ := foldlM_cons_iff.1 (runCalls_ok hok)
      obtain ⟨t4, hchmod, hutime⟩ := foldlM_append_iff.1 hmeta
      obtain ⟨-, q', hq', hn'⟩ := hready2.moveEntry hw.toReal hsib hq hn rfl rfl hmove
      have hmoved : Holds w rel (c.file.contents.take k) t3 := ⟨q', mode, mtime, hq', hn'⟩
      exact (hmoved.metaOnly (chmodCalls_metaOnly hchmod)).metaOnly (utimeCalls_metaOnly hutime)

/-- A download that returns `Ok` is a faithful copy if and only if every short piece that
has come back ends where the file does. -/
theorem download_faithful_iff (hw : w.Fresh) {t : Tree} (hready : TempReady w rel (atomicTempPath os.pid rel) t)
    (hok : (downloadRegular w os c rel m t.client).1 = true) :
    Holds w rel c.file.contents (downloadRegular w os c rel m t.client).2.disk.tree ↔
      ShortAtEnd c.file (downloadRegular w os c rel m t.client).2.remote.state := by
  obtain ⟨k, hk, hholds, hiff⟩ := downloadRegular_spec hw hready hok
  rw [← hiff]
  constructor
  · intro hall
    have hlen := congrArg List.length (hholds.inj hall)
    rwa [List.length_take_of_le hk] at hlen
  · rintro rfl
    rwa [List.take_length] at hholds

end Download

/-- Two bytes on the daemon's machine, of which a read returns so many at most. -/
def servesTwo (most : Nat) (net : Nat → Attempt) : ReadRoute := ⟨net, 2, ⟨[2, 3], fun _ => most, 2 ^ 44 - 1⟩, fun _ => true⟩

def twoBytesMeta : EntryMeta := ⟨.file, 2, 5, none, 420, none⟩

/-- A client whose calls are all let through. -/
def calmClient : LocalOs := ⟨fun _ => none, ⟨9, 420, 493, 511⟩, 1⟩

/-- The first answer is lost; the piece is read again and has all of the file. -/
theorem download_faithful_whole :
    let c := servesTwo 2 (fun i => ⟨true, i ≠ 0, true⟩)
    (Holds textWalks "a" [2, 3] (downloadRegular textWalks calmClient c "a" twoBytesMeta fileA.client).2.disk.tree ↔
      ShortAtEnd c.file (downloadRegular textWalks calmClient c "a" twoBytesMeta fileA.client).2.remote.state) ∧
    Holds textWalks "a" [2, 3] (downloadRegular textWalks calmClient c "a" twoBytesMeta fileA.client).2.disk.tree := by
  intro c
  have hiff : Holds textWalks "a" c.file.contents
      (downloadRegular textWalks calmClient c "a" twoBytesMeta fileA.client).2.disk.tree ↔
      ShortAtEnd c.file (downloadRegular textWalks calmClient c "a" twoBytesMeta fileA.client).2.remote.state :=
    download_faithful_iff textWalks_fresh (textWalks_ready "a" _ (by decide) (by decide)) (by decide)
  exact ⟨hiff, hiff.2 (by unfold ShortAtEnd; decide)⟩

/-- A read returns one byte of two, as it may. The download ends there and returns `Ok`. -/
theorem short_read_cuts_off :
    let res := downloadRegular textWalks calmClient (servesTwo 1 fun _ => ⟨true, true, true⟩) "a" twoBytesMeta fileA.client
    res.1 = true ∧ Holds textWalks "a" [2] res.2.disk.tree ∧ ¬ Holds textWalks "a" [2, 3] res.2.disk.tree := by
  intro res
  have hcut : Holds textWalks "a" [2] res.2.disk.tree := ⟨"a", 420, 5, rfl, by decide⟩
  exact ⟨by decide, hcut, fun h => absurd (hcut.inj h) (by decide)⟩

end Mobfs
