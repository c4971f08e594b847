import Mobfs.Lib.Retries
import Mobfs.Daemon.FileReads
import Mobfs.Daemon.Uploads
/-!
# Uploading a file

`upload_file` asks the daemon how much of an earlier attempt is there, hashes so much of the
file, sends the rest in pieces and finishes with the checksum of the whole. Each request is
sent again while its answer is lost.

`upload_faithful`: an upload that returns `Ok` leaves the contents of the file at the path,
whatever the temporary held before and whatever was lost on the way. `upload_leaves_iff`:
one that returns `Err` has left the path alone, unless the answer to a `WriteFileFinish`
that took effect was lost. Sent again, the request finds its temporary gone
(`finish_answer_lost`).
-/

namespace Mobfs

open Lib

def transferChunkSize : Nat := 1024 * 1024

/-- A file that is uploaded, and which of the local calls succeed. -/
structure LocalFile where
  file : OpenFile
  mode : Nat
  /-- `journal::record` -/
  recorded : Bool
  opened : Bool
  /-- The `i`-th call of `read`. -/
  reads : Nat → Bool
  /-- `journal::complete` -/
  completed : Bool

/-- A request that the daemon has handled, whether with `Ok`, and whether its answer has
come back. -/
structure Sent where
  request : Request
  ok : Bool
  answered : Bool

/-- The rename has been made, the last of the calls. -/
def Sent.replaces (x : Sent) : Bool :=
  match x.request with
  | .writeFileFinish _ _ _ _ _ => x.ok
  | _ => false

/-- The daemon, with the requests it has handled and the contents it has hashed. -/
structure Server where
  tree : Tree
  log : List Sent
  hashed : List Bytes

/-- What `file_sha256` reads for the request. -/
def Request.hashes (w : Walks) (t : Tree) : Request → List Bytes
  | .writeFileFinish _ rel uploadId _ _ =>
    match (uploadTempPath rel uploadId).bind fun temp => (w.follow t temp).bind t.node with
    | some (.file data _ _) => [data]
    | _ => []
  | _ => []

/-- The network and the machine of the daemon. -/
structure Route where
  net : Nat → Attempt
  handling : Nat → Handling
  pid : Nat
  /-- `operation_retries` -/
  retries : Nat
  /-- What `metadata` says of the length of an entry that is no file. -/
  otherLen : Node → Nat

namespace Route
variable (w : Walks) (sha : Bytes → String) (c : Route)

/-- The answer to a request that has been handled. -/
def reply (t : Tree) : Request → Option Response
  | .writeFileOffset _ rel uploadId =>
    (uploadTempPath rel uploadId).map fun temp => .fileOffset (
      match (w.follow t temp).bind t.node with
      | none => 0
      | some (.file data _ _) => data.length
      | some n => c.otherLen n)
  | _ => some .ok

def serve (r : Request) (i : Nat) (s : Server) : Option Response × Server :=
  let res := r.handle w sha c.pid (c.handling i) false [] s.tree
  let answer := if res.ok then c.reply w s.tree r else none
  (answer, ⟨res.tree, s.log ++ [⟨r, answer.isSome, (c.net i).answered⟩], s.hashed ++ r.hashes w s.tree⟩)

def op (r : Request) (s : Peer Server) : Lib.Answer Response × Peer Server :=
  sendAgain c.net (c.serve w sha r) c.retries s

end Route

/-- Hashes what the daemon has already: what has been read and the number of reads. The
file stands after what has been read. -/
def LocalFile.hashPrefix (l : LocalFile) (offset : Nat) : Nat → Nat → Bytes → Option (Bytes × Nat)
  | 0, i, hashed => some (hashed, i)
  | fuel + 1, i, hashed =>
    if hashed.length < offset then
      if l.reads i then
        match l.file.read i hashed.length (min (offset - hashed.length) transferChunkSize) with
        | [] => some (hashed, i + 1)
        | data => hashPrefix l offset fuel (i + 1) (hashed ++ data)
      else none
    else some (hashed, i)

section Upload
variable (w : Walks) (sha : Bytes → String) (c : Route) (l : LocalFile) (root rel uploadId : String)

/-- Sends the rest, and returns all that has been read. -/
def sendChunks : Nat → Nat → Nat → Bytes → Peer Server → Option Bytes × Peer Server
  | 0, _, _, hashed, s => (some hashed, s)
  | fuel + 1, i, offset, hashed, s =>
    if l.reads i then
      match l.file.read i hashed.length transferChunkSize with
      | [] => (some hashed, s)
      | data =>
        match c.op w sha (.writeFileChunk root rel uploadId offset data) s with
        | (.ok _, s) => sendChunks fuel (i + 1) (satAdd offset data.length) (hashed ++ data) s
        | (_, s) => (none, s)
    else (none, s)

/-- `upload_file` of a regular file: whether it returns `Ok`. The loops take no more rounds
than the file has bytes, and one to find its end. -/
def uploadRegular (s : Peer Server) : Bool × Peer Server :=
  let len := l.file.contents.length
  if l.recorded then
    match c.op w sha (.writeFileStart root rel uploadId) s with
    | (.ok _, s) =>
      if l.opened then
        match c.op w sha (.writeFileOffset root rel uploadId) s with
        | (.ok (.fileOffset value), s) =>
          let offset := min value len
          match l.hashPrefix offset offset 0 [] with
          | none => (false, s)
          | some (hashed, i) =>
            match sendChunks w sha c l root rel uploadId (len + 1) i offset hashed s with
            | (none, s) => (false, s)
            | (some hashed, s) =>
              match c.op w sha (.writeFileFinish root rel uploadId (sha hashed) l.mode) s with
              | (.ok _, s) => (l.completed, s)
              | (_, s) => (false, s)
        | (_, s) => (false, s)
      else (false, s)
    | (_, s) => (false, s)
  else (false, s)

end Upload

/-! ## What the client reads -/

section Reads
variable {l : LocalFile}

theorem hashPrefix_take {offset i j n : Nat} (hn : n ≤ l.file.contents.length) {fuel : Nat} {hashed : Bytes}
    (h : l.hashPrefix offset fuel i (l.file.contents.take n) = some (hashed, j)) :
    ∃ m, m ≤ l.file.contents.length ∧ hashed = l.file.contents.take m := by
  induction fuel generalizing i n with
  | zero =>
    cases h
    exact ⟨n, hn, rfl⟩
  | succ fuel ih =>
    unfold LocalFile.hashPrefix at h
    split at h
    · split at h
      · split at h
        · cases h
          exact ⟨n, hn, rfl⟩
        · rename_i hlt _ _ _
          rw [List.length_take, Nat.min_eq_left hn] at h hlt
          obtain ⟨-, m, hm, -, happ⟩ := l.file.read_next hn i (min (offset - n) transferChunkSize)
            (by simp only [transferChunkSize]; omega)
          rw [happ] at h
          exact ih hm h
      · cases h
    · cases h
      exact ⟨n, hn, rfl⟩

end Reads

/-! ## Before the last request -/

/-- The upload can go through, and none has. -/
structure Preparing (w : Walks) (rel temp : String) (s : Server) : Prop where
  ready : TempReady w rel temp s.tree
  none : ∀ x ∈ s.log, x.replaces = false

/-- The requests but the last. -/
inductive Prepares (rel uploadId : String) : Request → Prop
  | start (root : String) : Prepares rel uploadId (.writeFileStart root rel uploadId)
  | offset (root : String) : Prepares rel uploadId (.writeFileOffset root rel uploadId)
  | chunk (root : String) (offset : Nat) (data : Bytes) : Prepares rel uploadId (.writeFileChunk root rel uploadId offset data)

section Upload
variable {w : Walks} {sha : Bytes → String} {c : Route} {l : LocalFile} {root rel uploadId temp : String}

theorem Preparing.serve {r : Request} {s : Server} (h : Preparing w rel temp s) (hw : w.Fresh)
    (htemp : uploadTempPath rel uploadId = some temp) (hr : Prepares rel uploadId r) (i : Nat) :
    Preparing w rel temp (c.serve w sha r i s).2 := by
  constructor
  · cases hr with
    | start => exact h.ready.start hw htemp
    | offset => exact h.ready
    | chunk => exact h.ready.chunk hw htemp
  · intro x hx
    rcases List.mem_append.1 hx with hx | hx
    · exact h.none x hx
    · rw [List.mem_singleton.1 hx]
      cases hr <;> rfl

theorem Preparing.op {r : Request} {s : Peer Server} (h : Preparing w rel temp s.state) (hw : w.Fresh)
    (htemp : uploadTempPath rel uploadId = some temp) (hr : Prepares rel uploadId r) :
    Preparing w rel temp (c.op w sha r s).2.state :=
  sendAgain_inv (fun i _ hs => hs.serve hw htemp hr i) c.retries h

/-- All of the file is read in the end, and nothing is replaced by it. -/
theorem sendChunks_spec (hw : w.Fresh) (htemp : uploadTempPath rel uploadId = some temp) {fuel i offset n : Nat}
    {s : Peer Server} (hs : Preparing w rel temp s.state) (hn : n ≤ l.file.contents.length)
    (hfuel : l.file.contents.length < n + fuel) :
    Preparing w rel temp (sendChunks w sha c l root rel uploadId fuel i offset (l.file.contents.take n) s).2.state ∧
      ∀ hashed ∈ (sendChunks w sha c l root rel uploadId fuel i offset (l.file.contents.take n) s).1, hashed = l.file.contents := by
  induction fuel generalizing i offset n s with
  | zero => omega
  | succ fuel ih =>
    unfold sendChunks
    split
    · have hlen : (l.file.contents.take n).length = n := List.length_take_of_le hn
      rw [hlen]
      obtain ⟨hend, m, hm, hgrows, happ⟩ := l.file.read_next hn i transferChunkSize (by decide)
      split
      · rename_i hnil
        refine ⟨hs, fun hashed h => ?_⟩
        rw [hend hnil, List.take_length] at h
        exact (Option.some.inj h).symm
      · rename_i hdata
        have hop : Preparing w rel temp
            (c.op w sha (.writeFileChunk root rel uploadId offset (l.file.read i n transferChunkSize)) s).2.state :=
          hs.op hw htemp (.chunk root offset _)
        split
        · rename_i s' hsent
          rw [hsent] at hop
          rw [happ]
          exact ih hop hm (by have := hgrows hdata; omega)
        · rename_i hsent
          rw [hsent] at hop
          exact ⟨hop, fun hashed h => by cases h⟩
    · exact ⟨hs, fun hashed h => by cases h⟩

/-- The last request of an upload and what `upload_file` returns after it. -/
def finishUpload (w : Walks) (sha : Bytes → String) (c : Route) (l : LocalFile) (root rel uploadId : String) (s : Peer Server) :
    Bool × Peer Server :=
  match c.op w sha (.writeFileFinish root rel uploadId (sha l.file.contents) l.mode) s with
  | (.ok _, s) => (l.completed, s)
  | (_, s) => (false, s)

/-- An upload fails before its last request, or makes it with the checksum of the file. -/
theorem uploadRegular_cases (hw : w.Fresh) (htemp : uploadTempPath rel uploadId = some temp) {s : Peer Server}
    (hs : Preparing w rel temp s.state) :
    ((uploadRegular w sha c l root rel uploadId s).1 = false ∧
      Preparing w rel temp (uploadRegular w sha c l root rel uploadId s).2.state) ∨
    ∃ s1 : Peer Server, Preparing w rel temp s1.state ∧
      uploadRegular w sha c l root rel uploadId s = finishUpload w sha c l root rel uploadId s1 := by
  unfold uploadRegular
  dsimp only
  split
  · have hstart : Preparing w rel temp (c.op w sha (.writeFileStart root rel uploadId) s).2.state :=
      hs.op hw htemp (.start root)
    split
    · rename_i s1 h1
      rw [h1] at hstart
      split
      · have hoffset : Preparing w rel temp (c.op w sha (.writeFileOffset root rel uploadId) s1).2.state :=
          hstart.op hw htemp (.offset root)
        split
        · rename_i value s2 h2
          rw [h2] at hoffset
          split
          · exact .inl ⟨rfl, hoffset⟩
          · rename_i hashed i hprefix
            obtain ⟨n, hn, rfl⟩ := hashPrefix_take (Nat.zero_le _) hprefix
            generalize hsent : sendChunks w sha c l root rel uploadId (l.file.contents.length + 1) i _ _ s2 = sent
            have hchunks : Preparing w rel temp sent.2.state ∧ ∀ hashed ∈ sent.1, hashed = l.file.contents :=
              hsent ▸ sendChunks_spec hw htemp hoffset hn (by omega)
            obtain ⟨read, s3⟩ := sent
            cases read with
            | none => exact .inl ⟨rfl, hchunks.1⟩
            | some hashed =>
              obtain rfl := hchunks.2 hashed rfl
              exact .inr ⟨s3, hchunks.1, rfl⟩
        · rename_i s2 _ h2
          rw [h2] at hoffset
          exact .inl ⟨rfl, hoffset⟩
      · exact .inl ⟨rfl, hstart⟩
    · rename_i s1 _ h1
      rw [h1] at hstart
      exact .inl ⟨rfl, hstart⟩
  · exact .inl ⟨rfl, hs⟩

/-! ## The last request -/

/-- Copies of the last request have been handled whose answers are lost. -/
def Finishing (w : Walks) (rel temp : String) (s : Server) : Prop :=
  Preparing w rel temp s ∨ (TempGone w temp s.tree ∧ ∃ x ∈ s.log, x.replaces = true ∧ x.answered = false)

/-- What a copy of the last request does. -/
theorem serve_finish {sum : String} {mode i : Nat} {s : Server} (hs : Finishing w rel temp s) (hw : w.Fresh)
    (htemp : uploadTempPath rel uploadId = some temp) {res : Option Response × Server}
    (hres : c.serve w sha (.writeFileFinish root rel uploadId sum mode) i s = res) :
    (res.1 = none ∧ res.2.log = s.log ++ [⟨.writeFileFinish root rel uploadId sum mode, false, (c.net i).answered⟩] ∧
        (Preparing w rel temp s → TempReady w rel temp res.2.tree) ∧
        (TempGone w temp s.tree → res.2.tree = s.tree)) ∨
      (res.1.isSome ∧ Preparing w rel temp s ∧ TempGone w temp res.2.tree ∧
        res.2.log = s.log ++ [⟨.writeFileFinish root rel uploadId sum mode, true, (c.net i).answered⟩] ∧
        ∃ q data mode mtime, sha data = sum ∧ data ∈ res.2.hashed ∧ w.locate res.2.tree rel = some q ∧
          res.2.tree.node q = some (.file data mode mtime)) := by
  generalize hh : (Request.writeFileFinish root rel uploadId sum mode).handle w sha c.pid (c.handling i) false [] s.tree = h
  have hserve : res = (if h.ok then some .ok else none,
      ⟨h.tree, s.log ++ [⟨.writeFileFinish root rel uploadId sum mode, h.ok, (c.net i).answered⟩],
        s.hashed ++ (Request.writeFileFinish root rel uploadId sum mode).hashes w s.tree⟩) := by
    rw [← hres, Route.serve, hh]
    cases h.ok <;> rfl
  rw [hserve]
  rcases hs with hp | ⟨hgone, -⟩
  · rcases finish_cases hp.ready hw.toReal htemp hh with ⟨hok, hready⟩ | ⟨hok, hgone, q, data, m, mtime, hsum, ⟨old, time, hfile⟩, hat⟩
    · rw [hok]
      refine .inl ⟨rfl, rfl, fun _ => hready, fun hgone => ?_⟩
      exact (finish_gone htemp hgone hh).2
    · rw [hok]
      have hhashes : (Request.writeFileFinish root rel uploadId sum mode).hashes w s.tree = [data] := by
        simp only [Request.hashes, htemp, Option.bind_some, hfile]
      exact .inr ⟨rfl, hp, hgone, rfl, q, data, m, mtime, hsum, by simp [hhashes], hat⟩
  · obtain ⟨hok, htree⟩ := finish_gone htemp hgone hh
    rw [hok]
    refine .inl ⟨rfl, rfl, fun hp => ?_, fun _ => htree⟩
    rw [htree]
    exact hp.ready

theorem Finishing.serve {sum : String} {mode i : Nat} {s : Server} (hs : Finishing w rel temp s) (hw : w.Fresh)
    (htemp : uploadTempPath rel uploadId = some temp) (hlost : (c.net i).answered = false) :
    Finishing w rel temp (c.serve w sha (.writeFileFinish root rel uploadId sum mode) i s).2 := by
  generalize hres : c.serve w sha (.writeFileFinish root rel uploadId sum mode) i s = res
  rcases serve_finish hs hw htemp hres with ⟨-, hlog, hready, hsame⟩ | ⟨-, -, hgone, hlog, -⟩
  · rcases hs with hp | ⟨hgone, x, hx, hmade, hans⟩
    · refine .inl ⟨hready hp, fun x hx => ?_⟩
      rw [hlog] at hx
      rcases List.mem_append.1 hx with hx | hx
      · exact hp.none x hx
      · rw [List.mem_singleton.1 hx]
        rfl
    · refine .inr ⟨?_, x, ?_, hmade, hans⟩
      · rw [hsame hgone]
        exact hgone
      · rw [hlog]
        exact List.mem_append_left _ hx
  · refine .inr ⟨hgone, ⟨.writeFileFinish root rel uploadId sum mode, true, (c.net i).answered⟩, ?_, rfl, hlost⟩
    rw [hlog]
    exact List.mem_append_right _ List.mem_cons_self

/-- How an upload ends whose last request is made. -/
theorem finishUpload_cases (hw : w.Fresh) (htemp : uploadTempPath rel uploadId = some temp) {s : Peer Server}
    (hs : Preparing w rel temp s.state) {res : Bool × Peer Server} (hres : finishUpload w sha c l root rel uploadId s = res) :
    (res.1 = false ∧ ((∀ x ∈ res.2.state.log, x.replaces = false) ∨
        ∃ x ∈ res.2.state.log, x.replaces = true ∧ x.answered = false)) ∨
      (res.1 = l.completed ∧ (∀ x ∈ res.2.state.log, x.replaces = true → x.answered = true) ∧
        (∃ x ∈ res.2.state.log, x.replaces = true) ∧
        ∃ q data mode mtime, sha data = sha l.file.contents ∧ data ∈ res.2.state.hashed ∧
          w.locate res.2.state.tree rel = some q ∧
          res.2.state.tree.node q = some (.file data mode mtime)) := by
  generalize hop : c.op w sha (.writeFileFinish root rel uploadId (sha l.file.contents) l.mode) s = sent
  have hends : Ends c.net (c.serve w sha (.writeFileFinish root rel uploadId (sha l.file.contents) l.mode))
      (Finishing w rel temp) sent :=
    hop ▸ sendAgain_cases (fun i _ hlost h => h.serve hw htemp hlost) c.retries (.inl hs)
  unfold finishUpload at hres
  rw [hop] at hres
  obtain ⟨answer, s'⟩ := sent
  have hfails : ∀ s0 : Server, Finishing w rel temp s0 →
      (∀ x ∈ s0.log, x.replaces = false) ∨ ∃ x ∈ s0.log, x.replaces = true ∧ x.answered = false := by
    rintro s0 (hp | ⟨-, hx⟩)
    · exact .inl hp.none
    · exact .inr hx
  cases answer with
  | lost =>
    subst hres
    exact .inl ⟨rfl, hfails _ hends⟩
  | rejected =>
    subst hres
    obtain ⟨i, s0, h0, -, hsv⟩ := hends
    rcases serve_finish h0 hw htemp hsv with ⟨-, hlog, -, -⟩ | ⟨hsome, -⟩
    · refine .inl ⟨rfl, ?_⟩
      rw [show s'.state.log = s0.log ++ _ from hlog]
      refine (hfails s0 h0).imp (fun h x hx => ?_) fun ⟨x, hx, h⟩ => ⟨x, List.mem_append_left _ hx, h⟩
      rcases List.mem_append.1 hx with hx | hx
      · exact h x hx
      · rw [List.mem_singleton.1 hx]
        rfl
    · cases hsome
  | ok r =>
    subst hres
    obtain ⟨i, s0, h0, hans, hsv⟩ := hends
    rcases serve_finish h0 hw htemp hsv with ⟨hnone, -⟩ | ⟨-, hp, -, hlog, hat⟩
    · cases hnone
    · refine .inr ⟨rfl, ?_, ?_, hat⟩
      · rw [show s'.state.log = s0.log ++ _ from hlog]
        intro x hx hmade
        rcases List.mem_append.1 hx with hx | hx
        · rw [hp.none x hx] at hmade
          cases hmade
        · rw [List.mem_singleton.1 hx]
          exact hans
      · rw [show s'.state.log = s0.log ++ _ from hlog]
        exact ⟨_, List.mem_append_right _ List.mem_cons_self, rfl⟩

/-! ## Whole uploads -/

/-- Where `upload_file` begins: whatever is on the daemon's machine, nothing has been sent. -/
def Tree.serving (t : Tree) : Peer Server := ⟨⟨t, [], []⟩, 0⟩

/-- An upload that returns `Ok` is a faithful copy, if nothing that the daemon hashed for it
collides with the file. -/
theorem upload_faithful (hw : w.Fresh) (htemp : uploadTempPath rel uploadId = some temp) {t : Tree}
    (hready : TempReady w rel temp t)
    (hsha : ∀ data ∈ (uploadRegular w sha c l root rel uploadId t.serving).2.state.hashed,
      sha data = sha l.file.contents → data = l.file.contents)
    (hok : (uploadRegular w sha c l root rel uploadId t.serving).1 = true) :
    ∃ q mode mtime, w.locate (uploadRegular w sha c l root rel uploadId t.serving).2.state.tree rel = some q ∧
      (uploadRegular w sha c l root rel uploadId t.serving).2.state.tree.node q =
        some (.file l.file.contents mode mtime) := by
  have hp : Preparing w rel temp t.serving.state := ⟨hready, fun x hx => by cases hx⟩
  rcases uploadRegular_cases hw htemp hp with ⟨hfail, -⟩ | ⟨s1, h1, hlast⟩
  · rw [hok] at hfail
    cases hfail
  · rw [hlast] at hok hsha ⊢
    rcases finishUpload_cases hw htemp h1 rfl with ⟨hfail, -⟩ | ⟨-, -, -, q, data, mode, mtime, hsum, hhashed, hq, hn⟩
    · rw [hok] at hfail
      cases hfail
    · exact ⟨q, mode, mtime, hq, by rw [hn, hsha data hhashed hsum]⟩

end Upload

/-- A checksum for the runs below: the bytes as characters. -/
def bytesText (data : Bytes) : String := String.ofList (data.map fun b => Char.ofNat b.toNat)

/-- Two bytes that are read one at a time. -/
def twoBytes : LocalFile := ⟨⟨[2, 3], fun _ => 1, 2 ^ 44 - 1⟩, 420, true, true, fun _ => true, true⟩

/-- The answer to one copy is lost. -/
def losesAnswer (i : Nat) : Route := ⟨fun j => ⟨true, j ≠ i, true⟩, fun _ => letThrough, 1, 2, fun _ => 0⟩

/-- SHA-256 of two bytes, in hex digits. -/
def digestOfTwo (data : Bytes) : String :=
  if data = [2, 3] then "ee9040f65c341855e070ff438eb0ea9d5b831b2a2c270fb7ef592d750408e3b3" else ""

/-- A byte of an earlier attempt is there. -/
def leftoverOfA : Tree := Tree.build [("a", .file [1] 420 5), (".a.mobfs-upload-u", .file [2] 420 6)]

/-- The first answer is lost. -/
theorem upload_faithful_resumed :
    ∃ q mode mtime,
      textWalks.locate (uploadRegular textWalks digestOfTwo (losesAnswer 0) twoBytes "" "a" "u" leftoverOfA.serving).2.state.tree "a" =
          some q ∧
        (uploadRegular textWalks digestOfTwo (losesAnswer 0) twoBytes "" "a" "u" leftoverOfA.serving).2.state.tree.node q =
          some (.file [2, 3] mode mtime) := by
  refine upload_faithful textWalks_fresh (by decide) (textWalks_ready _ ".a.mobfs-upload-u" (by decide) (by decide)) ?_
    (by decide)
  intro data _ h
  simpa [twoBytes, digestOfTwo] using h

section Leaves
variable {w : Walks} {sha : Bytes → String} {c : Route} {l : LocalFile} {root rel uploadId temp : String}

/-- A failed upload leaves the path alone. -/
def LeavesTarget (res : Bool × Peer Server) : Prop := res.1 = false → ∀ x ∈ res.2.state.log, x.replaces = false

/-- It does if and only if every `WriteFileFinish` that takes effect has its answer come
back, and the journal is written after it. -/
theorem upload_leaves_iff (hw : w.Fresh) (htemp : uploadTempPath rel uploadId = some temp) {t : Tree}
    (hready : TempReady w rel temp t) :
    LeavesTarget (uploadRegular w sha c l root rel uploadId t.serving) ↔
      ∀ x ∈ (uploadRegular w sha c l root rel uploadId t.serving).2.state.log, x.replaces = true →
        x.answered = true ∧ l.completed = true := by
  have hp : Preparing w rel temp t.serving.state := ⟨hready, fun x hx => by cases hx⟩
  unfold LeavesTarget
  rcases uploadRegular_cases hw htemp hp with ⟨-, hprep⟩ | ⟨s1, h1, hlast⟩
  · refine iff_of_true (fun _ => hprep.none) fun x hx hmade => ?_
    rw [hprep.none x hx] at hmade
    cases hmade
  · rw [hlast]
    generalize hres : finishUpload w sha c l root rel uploadId s1 = res
    rcases finishUpload_cases hw htemp h1 hres with ⟨hfail, hnone | ⟨x, hx, hmade, hlost⟩⟩ | ⟨hdone, hans, ⟨x, hx, hmade⟩, -⟩
    · refine iff_of_true (fun _ => hnone) fun x hx hmade => ?_
      rw [hnone x hx] at hmade
      cases hmade
    · refine iff_of_false (fun h => ?_) fun h => ?_
      · rw [h hfail x hx] at hmade
        cases hmade
      · rw [(h x hx hmade).1] at hlost
        cases hlost
    · rw [hdone]
      constructor
      · intro h y hy hmadey
        refine ⟨hans y hy hmadey, ?_⟩
        by_contra hc
        rw [h (by simpa using hc) x hx] at hmade
        cases hmade
      · intro h hc
        rw [(h x hx hmade).2] at hc
        cases hc

end Leaves

/-- All answers come back. -/
theorem upload_leaves_answered :
    LeavesTarget (uploadRegular textWalks bytesText (losesAnswer 9) twoBytes "" "a" "u" fileA.serving) := by
  refine (upload_leaves_iff textWalks_fresh (by decide)
    (textWalks_ready _ ".a.mobfs-upload-u" (by decide) (by decide))).2 ?_
  decide

/-- The answer to the `WriteFileFinish` is lost. The file has been replaced, the request is
sent again and finds no temporary, and `upload_file` returns `Err`. -/
theorem finish_answer_lost :
    (uploadRegular textWalks bytesText (losesAnswer 4) twoBytes "" "a" "u" fileA.serving).1 = false ∧
      (∃ mode mtime, (uploadRegular textWalks bytesText (losesAnswer 4) twoBytes "" "a" "u" fileA.serving).2.state.tree.node "a" =
        some (.file [2, 3] mode mtime)) ∧
      ¬ LeavesTarget (uploadRegular textWalks bytesText (losesAnswer 4) twoBytes "" "a" "u" fileA.serving) := by
  have hfails : (uploadRegular textWalks bytesText (losesAnswer 4) twoBytes "" "a" "u" fileA.serving).1 = false := by decide
  refine ⟨hfails, ⟨420, 9, by decide⟩, fun h => ?_⟩
  have hmade : ∃ x ∈ (uploadRegular textWalks bytesText (losesAnswer 4) twoBytes "" "a" "u" fileA.serving).2.state.log,
      x.replaces = true := by decide
  obtain ⟨x, hx, hx'⟩ := hmade
  rw [h hfails x hx] at hx'
  cases hx'

end Mobfs
