import Mobfs.Daemon.FileReads
import Mobfs.Remote.Pairing
/-!
# Range reads from end to end

The daemon answers a `ReadRange` with a header and the data in pieces of
`RANGE_FRAME_BYTES`; `send_expecting_frames` reads the header and then pieces until it has
as many bytes as the header says. `range_read_exact` follows one request through both
sides: what the client has then are the bytes of the file, and the next frame on either
side is the first of the next message.
-/

namespace Mobfs

open Lib

section Client
variable (rc : ReplyCodec)

/-- The loop of `send_expecting_frames` over the frames that come in, with the bytes and
the frames received so far: the result and the frames left. -/
def receiveFrames (len : Nat) : List Bytes → Nat → List Bytes → Except MobfsError (List Bytes) × List Bytes
  | [], received, frames => if received < len then (.error .eof, []) else (.ok frames, [])
  | chunk :: incoming, received, frames =>
    if received < len then
      if chunk.isEmpty || len < received + chunk.length then (.error (.remote "range read length mismatch"), incoming)
      else receiveFrames len incoming (received + chunk.length) (frames ++ [chunk])
    else (.ok frames, chunk :: incoming)

/-- `send_expecting_frames`, after the request has been written. -/
def sendExpectingFrames : List Bytes → Except MobfsError (List Bytes × Bool) × List Bytes
  | [] => (.error .eof, [])
  | f :: incoming =>
    match rc.fromSlice f with
    | none => (.error (.json "invalid response"), incoming)
    | some (.error message) => (.error (.server message), incoming)
    | some (.rangeHeader len eof) =>
      match receiveFrames len incoming 0 [] with
      | (.error e, left) => (.error e, left)
      | (.ok frames, left) => (.ok (frames, eof), left)
    | some _ => (.error (.remote "invalid range response"), incoming)

end Client

/-- The pieces are taken up to the last, and what follows them is left. -/
theorem receiveFrames_pieces (pieces later frames : List Bytes) (received : Nat) (hne : ∀ p ∈ pieces, p ≠ []) :
    receiveFrames (received + pieces.flatten.length) (pieces ++ later) received frames = (.ok (frames ++ pieces), later) := by
  induction pieces generalizing received frames with
  | nil =>
    cases later with
    | nil => simp [receiveFrames]
    | cons c later => simp [receiveFrames]
  | cons p pieces ih =>
    have hpos : 0 < p.length := List.length_pos_iff.2 (hne p List.mem_cons_self)
    have hempty : p.isEmpty = false := by simpa using hne p List.mem_cons_self
    have hsum : received + (p :: pieces).flatten.length = received + p.length + pieces.flatten.length := by
      rw [List.flatten_cons, List.length_append, Nat.add_assoc]
    rw [hsum, List.cons_append, receiveFrames, if_pos (by omega), hempty, Bool.false_or,
      if_neg (by simp only [decide_eq_true_eq]; omega), ih _ _ fun q hq => hne q (List.mem_cons_of_mem _ hq),
      List.append_assoc, List.singleton_append]

/-- The frames of a range read, as the client has them. -/
structure ExactRange (contents : Bytes) (offset len : Nat) (frames : List Bytes) (eof : Bool) : Prop where
  data : frames.flatten = (contents.take (min (offset + min len maxRangeBytes) contents.length)).drop offset
  nonempty : ∀ f ∈ frames, f ≠ []
  full : ∀ f ∈ frames.dropLast, f.length = rangeFrameBytes
  eof : eof = true ↔ contents.length ≤ offset + frames.flatten.length

theorem exactRange_chunks {contents : Bytes} {offset len : Nat} {data : Bytes} {eof : Bool}
    (hdata : data = (contents.take (min (offset + min len maxRangeBytes) contents.length)).drop offset)
    (heof : eof = decide (contents.length ≤ offset + data.length)) :
    ExactRange contents offset len (chunks rangeFrameBytes data) eof where
  data := by rw [chunks_flatten (by decide), hdata]
  nonempty := chunks_ne_nil (by decide) data
  full := length_of_mem_dropLast_chunks _ data
  eof := by rw [chunks_flatten (by decide), heof, decide_eq_true_iff]

section EndToEnd
variable {σ : Type} {codec : Codec} {rc : ReplyCodec} {os : Os σ} {policy : RootPolicy} {handlers : Handlers σ}

/-- What `send_expecting_frames` makes of the daemon's answer. -/
theorem sendExpectingFrames_range (hrc : ∀ len eof, rc.fromSlice (rc.toVec (.rangeHeader len eof)) = some (.rangeHeader len eof))
    (data : Bytes) (eof : Bool) (later : List Bytes) :
    sendExpectingFrames rc ((rangeReplies (.ok (data, eof))).map (Reply.asBytes rc) ++ later) =
      (.ok (chunks rangeFrameBytes data, eof), later) := by
  have hpieces := receiveFrames_pieces (chunks rangeFrameBytes data) later [] 0 (chunks_ne_nil (by decide) data)
  rw [chunks_flatten (by decide), Nat.zero_add, List.nil_append] at hpieces
  have hmap : ((chunks rangeFrameBytes data).map Reply.data).map (Reply.asBytes rc) = chunks rangeFrameBytes data := by
    rw [List.map_map]
    exact List.map_id _
  simp only [rangeReplies, List.map_cons, Reply.asBytes, List.cons_append, sendExpectingFrames, hrc, hmap, hpieces]

/-- An error is read as such, and nothing after it. -/
theorem sendExpectingFrames_error (herr : ∀ message, rc.fromSlice (rc.toVec (.error message)) = some (.error message))
    (e : MobfsError) (later : List Bytes) :
    sendExpectingFrames rc ((rangeReplies (.error e)).map (Reply.asBytes rc) ++ later) = (.error (.server e.text), later) := by
  simp only [rangeReplies, List.map_cons, List.map_nil, Reply.asBytes, List.cons_append, List.nil_append, sendExpectingFrames,
    herr]

/-- One `ReadRange` from end to end: the daemon takes its frame and no other, and the
client takes the frames of the answer and no other. The answer is the range, unless `seek`
does not take the offset; then it is an error. -/
theorem range_read_exact (openRead : AbsPath → Io σ OpenFile) (hread : handlers.readRange = readRange os openRead)
    (hrc : ∀ len eof, rc.fromSlice (rc.toVec (.rangeHeader len eof)) = some (.rangeHeader len eof))
    (herr : ∀ message, rc.fromSlice (rc.toVec (.error message)) = some (.error message))
    {root rel : String} {offset len : Nat} (hreads : codec.ReadsBack (.readRange root rel offset len))
    {c : Conn σ} {rest : List Frame} (hopen : c.isOpen = true)
    (hin : c.incoming = codec.requestFrame (.readRange root rel offset len) :: rest)
    {s s' : σ} (hdrop : os.shouldDropRequest (.readRange root rel offset len) c.daemon.disk = (false, s))
    {f : OpenFile} (hfile : openFor os openRead root rel policy s = (.ok f, s')) :
    ∃ c' replies, handleClient codec os policy handlers c true = some c' ∧
      c'.isOpen = true ∧ c'.incoming = rest ∧ c'.outgoing = c.outgoing ++ replies ∧
      ∀ later,
        (f.Seekable offset → ∃ frames eof,
          sendExpectingFrames rc (replies.map (Reply.asBytes rc) ++ later) = (.ok (frames, eof), later) ∧
            ExactRange f.contents offset len frames eof) ∧
        (¬ f.Seekable offset →
          sendExpectingFrames rc (replies.map (Reply.asBytes rc) ++ later) = (.error (.server OpenFile.seekError.text), later)) := by
  have hfrom : codec.fromSlice (codec.requestFrame (.readRange root rel offset len)).bytes =
      .ok (.readRange root rel offset len) := hreads
  have hstep : handleClient codec os policy handlers c true = some
      { incoming := rest
        outgoing := c.outgoing ++ rangeReplies (f.readRange offset len)
        clientId := c.clientId
        isOpen := true
        daemon := { c.daemon with disk := s' }
        decoded := c.decoded ++ [codec.requestFrame (.readRange root rel offset len)] } := by
    rw [handleClient, hopen, hin]
    simp only [Bool.not_true, Bool.false_eq_true, if_false, hfrom, hdrop, answer, hread, readRange, Daemon.call, hfile]
  refine ⟨_, _, hstep, rfl, rfl, rfl, fun later => ⟨fun hseek => ?_, fun hseek => ?_⟩⟩
  · rw [f.readRange_eq len hseek]
    generalize hdata : (f.contents.take (min (offset + min len maxRangeBytes) f.contents.length)).drop offset = data
    exact ⟨_, _, sendExpectingFrames_range hrc _ _ later, exactRange_chunks hdata.symm rfl⟩
  · rw [OpenFile.readRange, if_neg hseek]
    exact sendExpectingFrames_error herr _ later

end EndToEnd

/-- A header as a byte for `eof` and as many bytes as the length says, an error as its text. -/
def headerCodec : ReplyCodec where
  toVec
    | .rangeHeader len eof => (if eof then 1 else 0) :: List.replicate len 0
    | .error message => 2 :: message.toUTF8.data.toList
    | _ => []
  fromSlice
    | [] => none
    | b :: bytes =>
      if b = 2 then (String.fromUTF8? ⟨bytes.toArray⟩).map .error else some (.rangeHeader bytes.length (b = 1))

theorem headerCodec_header (len : Nat) (eof : Bool) :
    headerCodec.fromSlice (headerCodec.toVec (.rangeHeader len eof)) = some (.rangeHeader len eof) := by
  cases eof <;> simp [headerCodec]

theorem headerCodec_error (message : String) :
    headerCodec.fromSlice (headerCodec.toVec (.error message)) = some (.error message) := by
  have hback : String.fromUTF8? ⟨message.toUTF8.data.toList.toArray⟩ = some message := by
    rw [Array.toArray_toList]
    exact dif_pos message.isValidUTF8
  simp only [headerCodec, if_pos, hback, Option.map_some]

/-- A file of three bytes that is read byte by byte, where offsets end before `2 ^ 44`. -/
def threeBytes : OpenFile := ⟨[7, 8, 9], fun _ => 1, 2 ^ 44 - 1⟩

def openThree : AbsPath → Io Unit OpenFile := fun _ s => (.ok threeBytes, s)

def servesThree : Handlers Unit := { calmHandlers with readRange := readRange calmOs openThree }

/-- The request has come in. -/
def asksThree (offset : Nat) : Conn Unit :=
  ⟨[(tinyCodec (.readRange "/srv" "x" offset 10)).requestFrame (.readRange "/srv" "x" offset 10)], [], 0, true, ⟨(), 0, []⟩, []⟩

theorem range_read_exact_bytes :
    ∃ c' replies, handleClient (tinyCodec (.readRange "/srv" "x" 1 10)) calmOs ⟨[], true⟩ servesThree (asksThree 1) true = some c' ∧
      c'.isOpen = true ∧ c'.incoming = [] ∧ c'.outgoing = [] ++ replies ∧
      ∀ later, ∃ frames eof,
        sendExpectingFrames headerCodec (replies.map (Reply.asBytes headerCodec) ++ later) = (.ok (frames, eof), later) ∧
          ExactRange threeBytes.contents 1 10 frames eof := by
  have hreads : (tinyCodec (.readRange "/srv" "x" 1 10)).ReadsBack (.readRange "/srv" "x" 1 10) := rfl
  obtain ⟨c', replies, hstep, hopen, hin, hout, hread⟩ : ∃ c' replies,
      handleClient (tinyCodec (.readRange "/srv" "x" 1 10)) calmOs ⟨[], true⟩ servesThree (asksThree 1) true = some c' ∧
        c'.isOpen = true ∧ c'.incoming = [] ∧ c'.outgoing = [] ++ replies ∧ _ :=
    range_read_exact openThree rfl headerCodec_header headerCodec_error hreads rfl rfl rfl rfl
  exact ⟨c', replies, hstep, hopen, hin, hout, fun later => (hread later).1 (by decide)⟩

/-- The offset is below `2 ^ 63`, and the answer is an error and no empty range. -/
theorem seek_limit_ends_range_read : (2 ^ 44 : Nat) < 2 ^ 63 ∧
    ∃ c' replies, handleClient (tinyCodec (.readRange "/srv" "x" (2 ^ 44) 10)) calmOs ⟨[], true⟩ servesThree (asksThree (2 ^ 44)) true =
        some c' ∧ c'.outgoing = replies ∧
      ¬ ∃ frames eof, sendExpectingFrames headerCodec (replies.map (Reply.asBytes headerCodec)) = (.ok (frames, eof), []) ∧
        ExactRange threeBytes.contents (2 ^ 44) 10 frames eof := by
  have hseek : ¬ threeBytes.Seekable (2 ^ 44) := by decide
  have hread : threeBytes.readRange (2 ^ 44) 10 = .error OpenFile.seekError := by
    rw [OpenFile.readRange, if_neg hseek]
  have hstep : handleClient (tinyCodec (.readRange "/srv" "x" (2 ^ 44) 10)) calmOs ⟨[], true⟩ servesThree (asksThree (2 ^ 44)) true =
      some ⟨[], rangeReplies (threeBytes.readRange (2 ^ 44) 10), 0, true, ⟨(), 0, []⟩, (asksThree (2 ^ 44)).incoming⟩ := rfl
  refine ⟨by decide, _, _, hstep, rfl, ?_⟩
  rintro ⟨frames, eof, hok, -⟩
  have herr := sendExpectingFrames_error headerCodec_error OpenFile.seekError []
  rw [List.append_nil] at herr
  rw [hread, herr] at hok
  cases hok

end Mobfs
