import Mathlib.Algebra.GroupWithZero.Nat
import Mobfs.Lib.Runs
import Mobfs.Daemon.Stream
/-!
# Payload frames and request frames

After a streamed write the stream must be at the next request. `Consumes` says
exactly when it is: the operation is already done and its data is drained, or
the file could be opened and every frame but the last could be written. On any
other way out the handler leaves the rest of the data on the stream, and the
loop takes it for requests (`rejected_write_runs_its_payload`).

`payload_never_request` has both halves: the exact condition for one write, and
what follows for every run in which each write meets it.
-/

namespace Mobfs

open Lib

/-! ## What the client sends -/

def streamWriteChunkSize : Nat := 1024 * 1024

/-- Requests that the daemon reads further frames for. -/
def Request.streamed : Request → Bool
  | .writeFileAtBinary .. => true
  | .writeFileAtStream .. => true
  | _ => false

/-- One call of the client: a request sent with `send`, or a write sent with
`send_with_byte_stream`, whose data fits in memory. -/
inductive Call where
  | plain (r : Request) (h : r.streamed = false)
  | write (root rel : String) (offset : Nat) (data : Bytes) (opId : Option String) (h : data.length < 2 ^ 64)

def Call.request : Call → Request
  | .plain r _ => r
  | .write root rel offset data opId _ => .writeFileAtStream root rel offset data.length opId

def Call.payload : Call → List Frame
  | .plain _ _ => []
  | .write _ _ _ data _ _ => payloadFrames data streamWriteChunkSize

def Call.frames (codec : Codec) : Call → List Frame
  | .plain r _ => [codec.requestFrame r]
  | .write root rel offset data opId _ =>
    sendWithByteStream codec (.writeFileAtStream root rel offset data.length opId) data streamWriteChunkSize

theorem Call.frames_eq (codec : Codec) (c : Call) :
    c.frames codec = codec.requestFrame c.request :: c.payload := by
  cases c <;> rfl

/-! ## When a write's data is consumed -/

def totalBytes (frames : List Frame) : Nat := (frames.map (·.bytes.length)).sum

section Consumes
variable {σ : Type} (os : Os σ) (policy : RootPolicy)

/-- Every frame but the last is written to the file without an error. -/
def WritesButLast (file : Nat) : List Frame → σ → Prop
  | f :: g :: frames, s =>
    (os.writeAll file f.bytes s).1 = .ok () ∧ WritesButLast file (g :: frames) (os.writeAll file f.bytes s).2
  | _, _ => True

/-- The root is allowed, `rel` is valid, its directory can be made and the file
can be opened and positioned. -/
def Opens (w : StreamWrite) (t : Target) (s s' : σ) : Prop :=
  ∃ path s₁ s₂ s₃,
    policy.check os w.root s = (.ok t.rootPath, s₁) ∧ safeJoin t.rootPath w.rel = .ok path ∧
    createParent os path s₁ = (.ok (), s₂) ∧ os.openWrite path s₂ = (.ok t.file, s₃) ∧
    os.seek t.file w.offset s₃ = (.ok (), s')

/-- The condition under which a streamed write consumes its data: there is
none, the operation is already done, or the file is opened and all frames but
the last are written. -/
def Consumes (w : StreamWrite) (payload : List Frame) (s : σ) : Prop :=
  payload = [] ∨ (writeDone os policy w s).1 = .ok true ∨
    ∃ t s₁ s₂, writeDone os policy w s = (.ok false, s₁) ∧ Opens os policy w t s₁ s₂ ∧
      WritesButLast os t.file payload s₂

theorem openTarget_ok_iff {w : StreamWrite} {t : Target} {s s' : σ} :
    openTarget os policy w s = (.ok t, s') ↔ Opens os policy w t s s' := by
  unfold openTarget Opens
  constructor
  · intro h
    rcases hc : policy.check os w.root s with ⟨e | rootPath, s₁⟩ <;> simp only [hc] at h
    · cases h
    cases hj : safeJoin rootPath w.rel with
    | error e => simp [hj] at h
    | ok path =>
      simp only [hj] at h
      rcases hp : createParent os path s₁ with ⟨e | u, s₂⟩ <;> simp only [hp] at h
      · cases h
      rcases ho : os.openWrite path s₂ with ⟨e | file, s₃⟩ <;> simp only [ho] at h
      · cases h
      rcases hs : os.seek file w.offset s₃ with ⟨e | u, s₄⟩ <;> simp only [hs] at h
      · cases h
      cases h
      exact ⟨path, s₁, s₂, s₃, rfl, hj, hp, ho, hs⟩
  · rintro ⟨path, s₁, s₂, s₃, hc, hj, hp, ho, hs⟩
    simp only [hc, hj, hp, ho, hs]

theorem satAdd_eq {a b len : Nat} (h : a + b ≤ len) (hlen : len < 2 ^ 64) : satAdd a b = a + b := by
  unfold satAdd
  omega

theorem WritesButLast_cons {file : Nat} {f : Frame} {ps : List Frame} {s : σ}
    (h : (os.writeAll file f.bytes s).1 = .ok ()) :
    WritesButLast os file (f :: ps) s ↔ WritesButLast os file ps (os.writeAll file f.bytes s).2 := by
  cases ps with
  | nil => simp [WritesButLast]
  | cons g ps => simp [WritesButLast, h]

theorem totalBytes_cons (f : Frame) (frames : List Frame) :
    totalBytes (f :: frames) = f.bytes.length + totalBytes frames := by
  simp [totalBytes]

/-- Data that is drained is consumed. -/
theorem drainStreamBytes_left {len : Nat} (hlen : len < 2 ^ 64) (rest : List Frame) :
    ∀ (ps : List Frame) (read : Nat), (∀ f ∈ ps, f.bytes ≠ []) → read + totalBytes ps ≤ len →
      (read + totalBytes ps = len ∨ rest = []) → (drainStreamBytes len (ps ++ rest) read).2 = rest
  | [], read, _, _, hend => by
    cases rest with
    | nil => by_cases h : read < len <;> simp [drainStreamBytes, h]
    | cons g rest =>
      simp only [totalBytes, List.map_nil, List.sum_nil, Nat.add_zero, reduceCtorEq, or_false] at hend
      simp [drainStreamBytes, hend]
  | f :: ps, read, hne, hle, hend => by
    rw [totalBytes_cons, ← Nat.add_assoc] at hle hend
    have hpos : 0 < f.bytes.length := List.length_pos_iff.2 (hne f List.mem_cons_self)
    have hlt : read < len := by omega
    have hadd : satAdd read f.bytes.length = read + f.bytes.length := satAdd_eq (by omega) hlen
    have hno : ¬ len < read + f.bytes.length := by omega
    have ih := drainStreamBytes_left hlen rest ps (read + f.bytes.length)
      (fun g hg => hne g (List.mem_cons_of_mem _ hg)) hle hend
    simpa only [List.cons_append, drainStreamBytes, hlt, if_true, hadd, hno, if_false] using ih

/-- The write loop leaves the stream at the next request exactly when every
frame but the last could be written. -/
theorem writeFrames_left (w : StreamWrite) (hlen : w.len < 2 ^ 64) (t : Target) (rest : List Frame) :
    ∀ (ps : List Frame) (written announced : Nat) (d : Daemon σ), (∀ f ∈ ps, f.bytes ≠ []) →
      written + totalBytes ps ≤ w.len → (written + totalBytes ps = w.len ∨ rest = []) →
      ((writeFrames os w t (ps ++ rest) written announced d).2.1 = rest ↔ WritesButLast os t.file ps d.disk)
  | [], written, announced, d, _, _, hend => by
    simp only [List.nil_append, WritesButLast, iff_true]
    cases rest with
    | nil => by_cases h : written < w.len <;> simp [writeFrames, h]
    | cons g rest =>
      simp only [totalBytes, List.map_nil, List.sum_nil, Nat.add_zero, reduceCtorEq, or_false] at hend
      simp [writeFrames, hend]
  | f :: ps, written, announced, d, hne, hle, hend => by
    rw [totalBytes_cons, ← Nat.add_assoc] at hle hend
    have hpos : 0 < f.bytes.length := List.length_pos_iff.2 (hne f List.mem_cons_self)
    have hlt : written < w.len := by omega
    have hadd : satAdd written f.bytes.length = written + f.bytes.length := satAdd_eq (by omega) hlen
    have hno : ¬ w.len < written + f.bytes.length := by omega
    have ih := fun a d => writeFrames_left w hlen t rest ps (written + f.bytes.length) a d
      (fun g hg => hne g (List.mem_cons_of_mem _ hg)) hle hend
    simp only [List.cons_append, writeFrames, hlt, if_true, hadd, hno, if_false, Daemon.call]
    rcases hw : (os.writeAll t.file f.bytes d.disk).1 with e | u
    · -- The rest of the data stays on the stream, so this frame must be the last.
      cases ps with
      | nil => simp [WritesButLast]
      | cons g ps =>
        have hlong : ¬ g :: ps ++ rest = rest := by
          intro h
          have := congrArg List.length h
          simp only [List.cons_append, List.length_cons, List.length_append] at this
          omega
        simpa [WritesButLast, hw] using hlong
    · rw [WritesButLast_cons os hw]
      simp only
      split
      · exact ih _ _
      · exact ih _ _

/-- A streamed write leaves the stream at the next request exactly when it
`Consumes` its data. The data is all there, or the stream ends with it. -/
theorem handleWriteFileAtStream_left (w : StreamWrite) (hlen : w.len < 2 ^ 64) (ps rest : List Frame)
    (hne : ∀ f ∈ ps, f.bytes ≠ []) (hle : totalBytes ps ≤ w.len) (hend : totalBytes ps = w.len ∨ rest = [])
    (d : Daemon σ) :
    (handleWriteFileAtStream os policy w (ps ++ rest) d).2.1 = rest ↔ Consumes os policy w ps d.disk := by
  have hle' : 0 + totalBytes ps ≤ w.len := by omega
  have hend' : 0 + totalBytes ps = w.len ∨ rest = [] := by simpa using hend
  rw [Consumes, handleWriteFileAtStream, Daemon.call]
  rcases hdone : writeDone os policy w d.disk with ⟨e | b, s₁⟩
  · simp
  cases b with
  | true => simp [drainStreamBytes_left hlen rest ps 0 hne hle' hend']
  | false =>
    simp only [Daemon.call]
    rcases hopen : openTarget os policy w s₁ with ⟨e | t, s₂⟩
    · have hno : ∀ t s₂, ¬ Opens os policy w t s₁ s₂ := by
        intro t s₂ h
        rw [← openTarget_ok_iff, hopen] at h
        cases h
      simp [hno]
    · have hopens := (openTarget_ok_iff os policy).1 hopen
      have hloop := writeFrames_left os w hlen t rest ps 0 0 { d with disk := s₂ } hne hle' hend'
      have honly : ∀ t' s₂', Opens os policy w t' s₁ s₂' → t' = t ∧ s₂' = s₂ := by
        intro t' s₂' h
        rw [← openTarget_ok_iff, hopen] at h
        cases h
        exact ⟨rfl, rfl⟩
      have hcond : (ps = [] ∨ ∃ t' s₂', Opens os policy w t' s₁ s₂' ∧ WritesButLast os t'.file ps s₂') ↔
          WritesButLast os t.file ps s₂ := by
        constructor
        · rintro (rfl | ⟨t', s₂', h, hw⟩)
          · trivial
          · obtain ⟨rfl, rfl⟩ := honly _ _ h
            exact hw
        · exact fun h => .inr ⟨t, s₂, hopens, h⟩
      simp only [Prod.mk.injEq, Except.ok.injEq, Bool.false_eq_true, false_or, true_and] at hloop ⊢
      simp only [exists_and_left, exists_eq_left']
      rw [hcond, ← hloop]
      rcases writeFrames os w t (ps ++ rest) 0 0 { d with disk := s₂ } with ⟨e | r, left, d'⟩
      · simp
      · cases w.opId <;> simp
end Consumes

/-! ## Runs of a connection -/

section Run
variable {σ : Type} (codec : Codec) (os : Os σ) (policy : RootPolicy) (handlers : Handlers σ)

/-- The write that the next frame asks for, if it is one, consumes its data. -/
def NextConsumes (c : Conn σ) : Prop :=
  match c.incoming with
  | [] => True
  | f :: frames =>
    match codec.fromSlice f.bytes with
    | .ok (.writeFileAtStream root rel offset len opId) =>
      Consumes os policy ⟨root, rel, offset, len, opId, c.clientId⟩
        (frames.takeWhile fun g => g.sentAs = .payload)
        (os.shouldDropRequest (.writeFileAtStream root rel offset len opId) c.daemon.disk).2
    | _ => True

/-- The frames are what some calls send, possibly cut off. -/
def AtRequest (frames : List Frame) : Prop :=
  ∃ calls : List Call, (∀ c ∈ calls, codec.ReadsBack c.request) ∧ frames <+: calls.flatMap (·.frames codec)

theorem payloadFrames_ne_nil (data : Bytes) : ∀ f ∈ payloadFrames data streamWriteChunkSize, f.bytes ≠ [] := by
  intro f hf
  obtain ⟨c, hc, rfl⟩ := List.mem_map.1 hf
  exact chunks_ne_nil (by decide) data c hc

theorem totalBytes_payloadFrames (data : Bytes) :
    totalBytes (payloadFrames data streamWriteChunkSize) = data.length := by
  have hsum : totalBytes (payloadFrames data streamWriteChunkSize) =
      (chunks streamWriteChunkSize data).flatten.length := by
    simp [totalBytes, payloadFrames, List.length_flatten, Function.comp_def]
  rw [hsum, chunks_flatten (by decide)]

theorem payloadFrames_sentAs (data : Bytes) :
    ∀ f ∈ payloadFrames data streamWriteChunkSize, f.sentAs = .payload := by
  intro f hf
  obtain ⟨c, -, rfl⟩ := List.mem_map.1 hf
  rfl

/-- What follows a call's data starts with a request. -/
theorem takeWhile_payload (ps : List Frame) (hps : ∀ f ∈ ps, f.sentAs = .payload) (calls : List Call)
    (rest : List Frame) (hrest : rest <+: calls.flatMap (·.frames codec)) :
    (ps ++ rest).takeWhile (fun g => g.sentAs = .payload) = ps := by
  rw [List.takeWhile_append_of_pos (by simpa using hps)]
  cases rest with
  | nil => simp
  | cons g rest =>
    have hg : g.sentAs = .request := by
      cases calls with
      | nil => simp at hrest
      | cons c calls =>
        simp only [List.flatMap_cons, Call.frames_eq, List.cons_append, List.cons_prefix_cons] at hrest
        rw [hrest.1]
        rfl
    simp [hg]

/-- What is left of the frames of `c :: calls` after a first frame: a part of
the data of `c`, and then what is left of the other calls. -/
theorem atRequest_tail {f : Frame} {frames : List Frame} (h : AtRequest codec (f :: frames)) :
    ∃ (c : Call) (calls : List Call) (ps rest : List Frame),
      codec.ReadsBack c.request ∧ (∀ c ∈ calls, codec.ReadsBack c.request) ∧ f = codec.requestFrame c.request ∧
      frames = ps ++ rest ∧ ps <+: c.payload ∧ (ps = c.payload ∨ rest = []) ∧
      rest <+: calls.flatMap (·.frames codec) := by
  obtain ⟨calls, hreads, hpre⟩ := h
  cases calls with
  | nil => simp at hpre
  | cons c calls =>
    simp only [List.flatMap_cons, Call.frames_eq, List.cons_append, List.cons_prefix_cons] at hpre
    obtain ⟨rfl, hpre⟩ := hpre
    have hc := hreads c List.mem_cons_self
    have hcalls : ∀ c ∈ calls, codec.ReadsBack c.request := fun c h => hreads c (List.mem_cons_of_mem _ h)
    -- Either the stream ends inside the data of `c`, or the data is all there.
    obtain ⟨more, hmore⟩ := hpre
    rcases List.append_eq_append_iff.1 hmore with ⟨cut, hcut, -⟩ | ⟨rest, rfl, hrest⟩
    · exact ⟨c, calls, frames, [], hc, hcalls, rfl, by simp, ⟨cut, hcut.symm⟩, .inr rfl, List.nil_prefix⟩
    · exact ⟨c, calls, c.payload, rest, hc, hcalls, rfl, rfl, List.prefix_refl _, .inl rfl,
        ⟨more, by simpa only [Call.frames_eq] using hrest.symm⟩⟩

theorem answer_plain {r : Request} (h : r.streamed = false) (frames : List Frame) (id : Nat) (d : Daemon σ) :
    (answer os policy handlers r frames id d).1 = frames := by
  cases r <;> first | rfl | cases h

/-- The invariant of the loop. -/
structure Framed (c : Conn σ) : Prop where
  atRequest : c.isOpen = true → AtRequest codec c.incoming
  decoded : ∀ f ∈ c.decoded, f.sentAs = .request

/-- A turn that consumes the data of its write ends at a request. -/
theorem answer_left {c : Call} {ps rest : List Frame} (hps : ps <+: c.payload)
    (hend : ps = c.payload ∨ rest = []) (id : Nat) (d : Daemon σ)
    (hw : ∀ root rel offset len opId, c.request = .writeFileAtStream root rel offset len opId →
      Consumes os policy ⟨root, rel, offset, len, opId, id⟩ ps d.disk) :
    (answer os policy handlers c.request (ps ++ rest) id d).1 = rest := by
  cases c with
  | plain r hr =>
    obtain rfl := List.prefix_nil.1 hps
    exact answer_plain os policy handlers hr _ _ _
  | write root rel offset data opId hlen =>
    have hne : ∀ f ∈ ps, f.bytes ≠ [] := fun f hf => payloadFrames_ne_nil data f (hps.mem hf)
    have htotal : totalBytes (Call.write root rel offset data opId hlen).payload = data.length :=
      totalBytes_payloadFrames data
    have hle : totalBytes ps ≤ data.length := by
      obtain ⟨more, hmore⟩ := hps
      rw [← htotal, ← hmore, totalBytes, totalBytes, List.map_append, List.sum_append]
      omega
    have hall : totalBytes ps = data.length ∨ rest = [] := by
      rcases hend with rfl | rfl
      · exact .inl htotal
      · exact .inr rfl
    exact (handleWriteFileAtStream_left os policy ⟨root, rel, offset, data.length, opId, id⟩ hlen ps rest hne
      hle hall d).2 (hw _ _ _ _ _ rfl)

theorem handleClient_framed {c c' : Conn σ} {sends : Bool} (h : Framed codec c)
    (hg : NextConsumes codec os policy c) (hs : handleClient codec os policy handlers c sends = some c') :
    Framed codec c' := by
  unfold handleClient at hs
  cases hopen : c.isOpen with
  | false => simp [hopen] at hs
  | true =>
    simp only [hopen, Bool.not_true, Bool.false_eq_true, if_false] at hs
    have hat := h.atRequest hopen
    rw [NextConsumes] at hg
    cases hin : c.incoming with
    | nil =>
      simp only [hin, Option.some.injEq] at hs
      subst hs
      exact ⟨by simp, h.decoded⟩
    | cons f frames =>
      rw [hin] at hat
      obtain ⟨call, calls, ps, rest, hreads, hcalls, rfl, rfl, hps, hend, hrest⟩ := atRequest_tail codec hat
      have hfrom : codec.fromSlice (codec.requestFrame call.request).bytes = .ok call.request := hreads
      have hdec : ∀ g ∈ c.decoded ++ [codec.requestFrame call.request], g.sentAs = .request := by
        intro g hgm
        rcases List.mem_append.1 hgm with hgm | hgm
        · exact h.decoded g hgm
        · rw [List.mem_singleton.1 hgm]
          rfl
      have hall : ∀ f ∈ ps, f.sentAs = .payload := by
        intro f hf
        cases call with
        | plain r hr => simp [List.prefix_nil.1 hps] at hf
        | write root rel offset data opId hlen => exact payloadFrames_sentAs data f (hps.mem hf)
      simp only [hin, hfrom] at hs hg
      rw [takeWhile_payload codec ps hall calls rest hrest] at hg
      split at hs
      · obtain rfl := Option.some.inj hs
        exact ⟨by simp, hdec⟩
      · obtain rfl := Option.some.inj hs
        refine ⟨fun _ => ⟨calls, hcalls, ?_⟩, hdec⟩
        have hleft := answer_left os policy handlers hps hend c.clientId
          { c.daemon with disk := (os.shouldDropRequest call.request c.daemon.disk).2 }
          (fun root rel offset len opId hreq => by simpa only [hreq] using hg)
        simpa only [hleft] using hrest

/-- A connection on which the client is about to send `frames`. -/
def Conn.start (frames : List Frame) (d : Daemon σ) : Conn σ :=
  { incoming := frames, outgoing := [], clientId := 0, isOpen := true, daemon := d, decoded := [] }

/-- A streamed write's data is all consumed when the loop goes back to reading
a request exactly if it `Consumes` it. In every run in which each write does,
every frame decoded as a request was sent as one. -/
theorem payload_never_request :
    (∀ (w : StreamWrite) (data : Bytes) (rest : List Frame) (d : Daemon σ),
      w.len = data.length → data.length < 2 ^ 64 →
      ((handleWriteFileAtStream os policy w (payloadFrames data streamWriteChunkSize ++ rest) d).2.1 = rest ↔
        Consumes os policy w (payloadFrames data streamWriteChunkSize) d.disk)) ∧
    (∀ (calls : List Call) (frames : List Frame) (d : Daemon σ) (turns : List Bool) (c : Conn σ),
      (∀ call ∈ calls, codec.ReadsBack call.request) → frames <+: calls.flatMap (·.frames codec) →
      Guarded (handleClient codec os policy handlers) (fun c _ => NextConsumes codec os policy c)
        (Conn.start frames d) turns →
      exec (handleClient codec os policy handlers) (Conn.start frames d) turns = some c →
      ∀ f ∈ c.decoded, f.sentAs = .request) := by
  constructor
  · intro w data rest d hlen hdata
    have htotal : totalBytes (payloadFrames data streamWriteChunkSize) = w.len := by
      rw [hlen, totalBytes_payloadFrames]
    exact handleWriteFileAtStream_left os policy w (by omega) _ rest (payloadFrames_ne_nil data) (by omega)
      (.inl htotal) d
  · intro calls frames d turns c hreads hpre hg hrun
    have hstart : Framed codec (Conn.start frames d) := ⟨fun _ => ⟨calls, hreads, hpre⟩, by simp [Conn.start]⟩
    exact (exec_guarded_inv (Framed codec)
      (fun _ _ _ h hg hs => handleClient_framed codec os policy handlers h hg hs) hstart hg hrun).decoded

end Run

/-! ## A write that is rejected -/

/-- A system on which every call succeeds. -/
def calmOs : Os Unit where
  canonicalize _ s := (.ok ["srv"], s)
  exists_ _ s := (false, s)
  createDirAll _ s := (.ok (), s)
  openWrite _ s := (.ok 3, s)
  seek _ _ s := (.ok (), s)
  writeAll _ _ s := (.ok (), s)
  write _ _ s := (.ok (), s)
  readDir _ s := (.ok [], s)
  elapsed _ s := (none, s)
  removeFile _ s := (.ok (), s)
  tempDir := ["tmp"]
  pathHash _ := "0"
  shouldDropRequest _ s := (false, s)

def calmHandlers : Handlers Unit where
  handleRequest _ _ _ d := (.ok (.hello 13), d)
  readRange _ _ _ _ _ d := (.ok ([], true), d)
  handleRun _ _ _ d := ([], .ok (some 0), d)
  handleWriteFileAtBytes _ _ _ _ _ d := (.ok (), d)

/-- The seven bytes `"Hello"`: a file's contents, and also the JSON of a request. -/
def helloBytes : Bytes := [34, 72, 101, 108, 108, 111, 34]

/-- `serde_json` on `Hello` and on one write, whose JSON is abbreviated. -/
def tinyCodec (w : Request) : Codec where
  toVec r := if r = .hello then helloBytes else [123]
  fromSlice b := if b = helloBytes then .ok .hello else if b = [123] then .ok w else .error (.json "")

def writeHello (rel : String) : Call := .write "/srv" rel 0 helloBytes none (by decide)

/-- A write of `"Hello"` to `rel`, as it comes in. -/
def writeHelloConn (rel : String) : Conn Unit :=
  Conn.start ((writeHello rel).frames (tinyCodec (writeHello rel).request)) ⟨(), 0, []⟩

def runWriteHello (rel : String) (turns : List Bool) : Option (Conn Unit) :=
  exec (handleClient (tinyCodec (writeHello rel).request) calmOs ⟨[], true⟩ calmHandlers) (writeHelloConn rel) turns

/-- A write to `../x` is rejected, its data stays on the stream, and the next
turn of the loop answers the data as a request. -/
theorem rejected_write_runs_its_payload :
    (tinyCodec (writeHello "../x").request).ReadsBack (writeHello "../x").request ∧
    (handleWriteFileAtStream calmOs ⟨[], true⟩ ⟨"/srv", "../x", 0, 7, none, 0⟩
      (payloadFrames helloBytes streamWriteChunkSize) ⟨(), 0, []⟩).2.1 = [⟨helloBytes, .payload⟩] ∧
    ¬ ∀ c, runWriteHello "../x" [true, true] = some c → ∀ f ∈ c.decoded, f.sentAs = .request := by
  refine ⟨rfl, by decide, ?_⟩
  intro h
  have hrun : (runWriteHello "../x" [true, true]).map (·.decoded) =
      some [⟨[123], .request⟩, ⟨helloBytes, .payload⟩] := by decide
  obtain ⟨c, hc, hdec⟩ := Option.map_eq_some_iff.1 hrun
  have hlast := h c hc ⟨helloBytes, .payload⟩ (by simp [hdec])
  cases hlast

/-- The same write to `x` is accepted: its data is consumed, and two turns
decode its request only. -/
theorem payload_never_request_accepted :
    (handleWriteFileAtStream calmOs ⟨[], true⟩ ⟨"/srv", "x", 0, 7, none, 0⟩
      (payloadFrames helloBytes streamWriteChunkSize ++ []) ⟨(), 0, []⟩).2.1 = [] ∧
    ∃ c, runWriteHello "x" [true, true] = some c ∧ c.decoded = [⟨[123], .request⟩] ∧
      ∀ f ∈ c.decoded, f.sentAs = .request := by
  have hopens : Opens calmOs ⟨[], true⟩ ⟨"/srv", "x", 0, 7, none, 0⟩ ⟨["srv"], 3⟩ () () :=
    ⟨["srv", "x"], (), (), (), rfl, rfl, rfl, rfl, rfl⟩
  have hrun : (runWriteHello "x" [true, true]).map (·.decoded) = some [⟨[123], .request⟩] := by decide
  obtain ⟨c, hc, hdec⟩ := Option.map_eq_some_iff.1 hrun
  refine ⟨?_, c, hc, hdec, ?_⟩
  · exact ((payload_never_request (tinyCodec (writeHello "x").request) calmOs ⟨[], true⟩ calmHandlers).1
      ⟨"/srv", "x", 0, 7, none, 0⟩ helloBytes [] ⟨(), 0, []⟩ rfl (by decide)).2
      (.inr (.inr ⟨⟨["srv"], 3⟩, (), (), rfl, hopens, trivial⟩))
  refine (payload_never_request (tinyCodec (writeHello "x").request) calmOs ⟨[], true⟩ calmHandlers).2
    [writeHello "x"] _ ⟨(), 0, []⟩ [true, true] c ?_ ?_ ?_ hc
  · simp only [List.mem_singleton, forall_eq]
    rfl
  · simp
  · refine ⟨.inr (.inr ⟨⟨["srv"], 3⟩, (), (), rfl, hopens, trivial⟩), ?_⟩
    intro c' hc'
    obtain rfl := Option.some.inj hc'
    exact ⟨trivial, fun _ _ => trivial⟩

end Mobfs
