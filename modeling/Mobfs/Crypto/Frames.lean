import Mobfs.Lib.BigEndian
import Mobfs.Protocol
/-!
# Frames

`write_encrypted` sends a message as a frame: the length in four bytes, the data
encrypted, the tag. Each side counts its calls and makes the nonce from its own count.

The two sides lose step in two ways. A call that fails has already advanced the count,
and the peer reads nothing. And the writer takes messages up to the four gigabytes that
a length can say, the reader none above `maxFrame`.
-/

namespace Mobfs

open Lib

def tagLen : Nat := 16

def maxFrame : Nat := 128 * 1024 * 1024

abbrev Nonce := { bytes : Bytes // bytes.length = 12 }

/-- ChaCha20-Poly1305 under one key, with the tag detached. A frame opens under the nonce
it was sealed with, and no other. -/
structure Aead where
  encrypt : Nonce → Bytes → Bytes × Bytes
  decrypt : Nonce → Bytes → Bytes → Option Bytes
  length_data : ∀ nonce data, (encrypt nonce data).1.length = data.length
  length_tag : ∀ nonce data, (encrypt nonce data).2.length = tagLen
  decrypt_encrypt : ∀ nonce data, decrypt nonce (encrypt nonce data).1 (encrypt nonce data).2 = some data
  other_nonce : ∀ nonce nonce' data, nonce ≠ nonce' →
    decrypt nonce' (encrypt nonce data).1 (encrypt nonce data).2 = none

def nonce (counter : Nat) : Nonce := ⟨List.replicate 4 0 ++ toBytes 8 counter, by simp⟩

/-- `u64::saturating_add(1)`. -/
def advance (counter : Nat) : Nat := min (counter + 1) (2 ^ 64 - 1)

/-! ## Writing -/

/-- The sending half of a `SecureStream`, with the bytes that TCP has taken. -/
structure SendHalf where
  counter : Nat
  sent : Bytes

/-- A call of `write_encrypted`. Where `write_all` fails, it has sent some bytes of the
frame before, but not all. -/
structure WriteCall where
  data : Bytes
  fails : Option (Nat × String)
  deriving DecidableEq

section Streams
variable (A : Aead)

def frame (counter : Nat) (data : Bytes) : Bytes :=
  toBytes 4 (data.length + tagLen) ++ (A.encrypt (nonce counter) data).1 ++ (A.encrypt (nonce counter) data).2

def writeEncrypted (s : SendHalf) (c : WriteCall) : Except MobfsError Unit × SendHalf :=
  -- The cipher itself takes up to 2 ^ 38 bytes, so it does not fail.
  if 2 ^ 32 ≤ c.data.length + tagLen then
    (.error (.remote "protocol frame too large"), { s with counter := advance s.counter })
  else
    match c.fails with
    | none => (.ok (), ⟨advance s.counter, s.sent ++ frame A s.counter c.data⟩)
    | some (n, e) => (.error (.io e), ⟨advance s.counter, s.sent ++ (frame A s.counter c.data).dropLast.take n⟩)

/-- Calls one after the other: the messages for which they return `Ok`, and what is sent. -/
def writeEach (s : SendHalf) : List WriteCall → List Bytes × SendHalf
  | [] => ([], s)
  | c :: calls =>
    match writeEncrypted A s c with
    | (.ok (), s) => (c.data :: (writeEach s calls).1, (writeEach s calls).2)
    | (.error _, s) => writeEach s calls

/-! ## Reading -/

/-- The receiving half, with the bytes it has still to read. -/
structure RecvHalf where
  counter : Nat
  unread : Bytes

def readRaw (unread : Bytes) : Except MobfsError Bytes × Bytes :=
  if unread.length < 4 then (.error .eof, [])
  else
    let len := ofBytes (unread.take 4)
    let rest := unread.drop 4
    if maxFrame < len then (.error (.remote "protocol frame too large"), rest)
    else if rest.length < len then (.error .eof, [])
    else (.ok (rest.take len), rest.drop len)

def readEncrypted (r : RecvHalf) : Except MobfsError Bytes × RecvHalf :=
  match readRaw r.unread with
  | (.error e, unread) => (.error e, { r with unread })
  | (.ok data, unread) =>
    let r' : RecvHalf := ⟨advance r.counter, unread⟩
    if data.length < tagLen then (.error (.remote "encrypted frame authentication failed"), r')
    else
      let tagStart := data.length - tagLen
      match A.decrypt (nonce r.counter) (data.take tagStart) (data.drop tagStart) with
      | some data => (.ok data, r')
      | none => (.error (.remote "encrypted frame authentication failed"), r')

/-- What the next `n` calls return, `none` for an error. -/
def reads (r : RecvHalf) : Nat → List (Option Bytes)
  | 0 => []
  | n + 1 => (readEncrypted A r).1.toOption :: reads (readEncrypted A r).2 n

/-- However often the peer reads: it gets the messages for which the writes returned
`Ok`, in order, and then no more. -/
def RoundTrips (calls : List WriteCall) : Prop :=
  ∀ n, reads A ⟨0, (writeEach A ⟨0, []⟩ calls).2.sent⟩ n =
    ((writeEach A ⟨0, []⟩ calls).1.take n).map some ++ List.replicate (n - (writeEach A ⟨0, []⟩ calls).1.length) none

end Streams

/-! ## One frame -/

section Frames
variable {A : Aead}

theorem nonce_inj {m n : Nat} (hm : m < 2 ^ 64) (hn : n < 2 ^ 64) (h : nonce m = nonce n) : m = n :=
  toBytes_inj (by simpa using hm) (by simpa using hn) (List.append_cancel_left (congrArg Subtype.val h))

theorem length_frame (counter : Nat) (data : Bytes) : (frame A counter data).length = 4 + (data.length + tagLen) := by
  simp only [frame, List.length_append, length_toBytes, A.length_data, A.length_tag]
  omega

/-- What the reader finds in front of it: the length and the body of a frame. -/
theorem frame_parts {data : Bytes} (counter : Nat) (hlen : data.length + tagLen < 2 ^ 32) :
    ofBytes ((frame A counter data).take 4) = data.length + tagLen ∧
      (frame A counter data).drop 4 = (A.encrypt (nonce counter) data).1 ++ (A.encrypt (nonce counter) data).2 := by
  have hhead : (toBytes 4 (data.length + tagLen)).length = 4 := length_toBytes _ _
  rw [frame, List.append_assoc, List.take_left' hhead, List.drop_left' hhead]
  exact ⟨ofBytes_toBytes (by simpa using hlen), rfl⟩

/-- A whole frame is read as its body, if the reader takes frames of that length. -/
theorem readRaw_frame {data rest : Bytes} (counter : Nat) (hlen : data.length + tagLen < 2 ^ 32) :
    readRaw (frame A counter data ++ rest) =
      if maxFrame < data.length + tagLen then
        (.error (.remote "protocol frame too large"), (frame A counter data).drop 4 ++ rest)
      else (.ok ((A.encrypt (nonce counter) data).1 ++ (A.encrypt (nonce counter) data).2), rest) := by
  obtain ⟨hhead, hbody⟩ := frame_parts (A := A) counter hlen
  have hfour : 4 ≤ (frame A counter data).length := by
    rw [length_frame]
    omega
  have hsize : ((A.encrypt (nonce counter) data).1 ++ (A.encrypt (nonce counter) data).2).length =
      data.length + tagLen := by
    rw [List.length_append, A.length_data, A.length_tag]
  have hshort : ¬(frame A counter data ++ rest).length < 4 := by
    rw [List.length_append]
    omega
  simp only [readRaw, if_neg hshort, List.take_append_of_le_length hfour, List.drop_append_of_le_length hfour, hhead,
    hbody]
  split
  · rfl
  · rw [if_neg (by rw [List.length_append, hsize]; omega), List.take_left' hsize, List.drop_left' hsize]

/-- A frame that has been cut off is no frame. -/
theorem readRaw_cut {data : Bytes} (counter n : Nat) (hfit : data.length + tagLen ≤ maxFrame) :
    readRaw ((frame A counter data).dropLast.take n) = (.error .eof, []) := by
  have hlen : data.length + tagLen < 2 ^ 32 := Nat.lt_of_le_of_lt hfit (by decide)
  obtain ⟨hhead, -⟩ := frame_parts (A := A) counter hlen
  have hcut : (frame A counter data).dropLast.take n =
      (frame A counter data).take (min n (3 + (data.length + tagLen))) := by
    rw [List.dropLast_eq_take, List.take_take, length_frame]
    congr 1
    omega
  simp only [hcut, readRaw, List.length_take, length_frame, List.length_drop]
  split
  · rfl
  · rename_i hfour
    rw [List.take_take, Nat.min_eq_left (by omega), hhead, if_neg (Nat.not_lt.2 hfit), if_pos (by omega)]

/-- The reader gets the message of a whole frame, if it takes frames of that length and
is at the frame's count. -/
theorem readEncrypted_frame {data rest : Bytes} {counter : Nat} (hfit : data.length + tagLen ≤ maxFrame) :
    readEncrypted A ⟨counter, frame A counter data ++ rest⟩ = (.ok data, ⟨advance counter, rest⟩) := by
  have hlen : data.length + tagLen < 2 ^ 32 := Nat.lt_of_le_of_lt hfit (by decide)
  have hdata := A.length_data (nonce counter) data
  simp only [readEncrypted, readRaw_frame counter hlen, if_neg (Nat.not_lt.2 hfit), List.length_append, hdata,
    A.length_tag]
  rw [if_neg (by omega), Nat.add_sub_cancel, List.take_left' hdata, List.drop_left' hdata, A.decrypt_encrypt]

/-- At another count, or if the frame is too long for it, the reader gets no message. -/
theorem readEncrypted_frame_fails {data rest : Bytes} {counter r : Nat} (hlen : data.length + tagLen < 2 ^ 32)
    (h : maxFrame < data.length + tagLen ∨ nonce counter ≠ nonce r) :
    (readEncrypted A ⟨r, frame A counter data ++ rest⟩).1.toOption = none := by
  have hdata := A.length_data (nonce counter) data
  by_cases hmax : maxFrame < data.length + tagLen
  · simp only [readEncrypted, readRaw_frame counter hlen, if_pos hmax]
    rfl
  · simp only [readEncrypted, readRaw_frame counter hlen, if_neg hmax, List.length_append, hdata, A.length_tag]
    rw [if_neg (by omega), Nat.add_sub_cancel, List.take_left' hdata, List.drop_left' hdata,
      A.other_nonce _ _ _ (h.resolve_left hmax)]
    rfl

theorem readRaw_nil : readRaw [] = (.error .eof, []) := rfl

/-- There is nothing more to read. -/
theorem reads_of_eof {r : RecvHalf} (h : readRaw r.unread = (.error .eof, [])) (n : Nat) :
    reads A r n = List.replicate n none := by
  induction n generalizing r with
  | zero => rfl
  | succ n ih =>
    simp only [reads, readEncrypted, h]
    rw [ih readRaw_nil]
    rfl

end Frames

/-! ## When they do -/

namespace WriteCall

/-- The stream takes the whole frame. -/
def taken (c : WriteCall) : Bool := c.data.length + tagLen < 2 ^ 32 && c.fails.isNone

/-- Nothing is sent. -/
def silent (c : WriteCall) : Bool := 2 ^ 32 ≤ c.data.length + tagLen || c.fails.any (·.1 = 0)

end WriteCall

/-- Every frame that is taken is one the reader takes too, and no call before it failed. -/
def InStep (calls : List WriteCall) : Prop :=
  (∀ c ∈ calls, c.taken = true → c.data.length + tagLen ≤ maxFrame) ∧
    calls.Pairwise fun e c => c.taken = true → e.taken = true

/-- A frame that has been cut off is one the reader would take, and nothing more is sent
behind it. -/
def CutLast (calls : List WriteCall) : Prop :=
  (∀ c ∈ calls, c.taken = true ∨ c.silent = true ∨ c.data.length + tagLen ≤ maxFrame) ∧
    calls.Pairwise fun e c => e.taken = true ∨ e.silent = true ∨ c.silent = true

section Calls
variable {A : Aead} {calls : List WriteCall}

theorem WriteCall.silent_of_taken {c : WriteCall} (h : c.taken = true) : c.silent = false := by
  simp only [taken, silent, Bool.and_eq_true, decide_eq_true_eq, Option.isNone_iff_eq_none] at h ⊢
  simp [h.2]
  omega

theorem not_taken_of_silent (h : ∀ c ∈ calls, c.silent = true) : ∀ c ∈ calls, c.taken = false := by
  intro c hc
  by_contra hne
  have hs := h c hc
  rw [c.silent_of_taken (Bool.not_eq_false _ ▸ hne)] at hs
  cases hs

/-- What a call puts on the stream. -/
def sends (A : Aead) (counter : Nat) (c : WriteCall) : Bytes := (writeEncrypted A ⟨counter, []⟩ c).2.sent

theorem writeEncrypted_eq (counter : Nat) (sent : Bytes) (c : WriteCall) :
    writeEncrypted A ⟨counter, sent⟩ c =
      ((writeEncrypted A ⟨counter, []⟩ c).1, ⟨advance counter, sent ++ sends A counter c⟩) := by
  simp only [sends, writeEncrypted]
  split
  · simp
  · split <;> simp

/-- The three ways a call ends: the whole frame is sent, nothing, or some bytes of it. -/
theorem sends_cases (A : Aead) (counter : Nat) (c : WriteCall) :
    (c.taken = true ∧ (writeEncrypted A ⟨counter, []⟩ c).1 = .ok () ∧ sends A counter c = frame A counter c.data) ∨
    (c.taken = false ∧ ∃ e, (writeEncrypted A ⟨counter, []⟩ c).1 = .error e) ∧
      (c.silent = true ∧ sends A counter c = [] ∨
        c.silent = false ∧ ∃ n, sends A counter c = (frame A counter c.data).dropLast.take n) := by
  obtain ⟨data, fails⟩ := c
  by_cases hlong : 2 ^ 32 ≤ data.length + tagLen
  · refine .inr ⟨⟨?_, _, by rw [writeEncrypted, if_pos hlong]⟩, .inl ⟨?_, by rw [sends, writeEncrypted, if_pos hlong]⟩⟩
    · rw [WriteCall.taken, decide_eq_false (Nat.not_lt.2 hlong), Bool.false_and]
    · rw [WriteCall.silent, decide_eq_true hlong, Bool.true_or]
  · have hshort : data.length + tagLen < 2 ^ 32 := Nat.lt_of_not_le hlong
    cases fails with
    | none =>
      refine .inl ⟨?_, by rw [writeEncrypted, if_neg hlong], ?_⟩
      · rw [WriteCall.taken, decide_eq_true hshort]
        rfl
      · rw [sends, writeEncrypted, if_neg hlong]
        rfl
    | some f =>
      obtain ⟨n, e⟩ := f
      refine .inr ⟨⟨by simp [WriteCall.taken], _, by rw [writeEncrypted, if_neg hlong]⟩, ?_⟩
      have hsends : sends A counter ⟨data, some (n, e)⟩ = (frame A counter data).dropLast.take n := by
        rw [sends, writeEncrypted, if_neg hlong]
        rfl
      have hsilent : (⟨data, some (n, e)⟩ : WriteCall).silent = decide (n = 0) := by
        rw [WriteCall.silent, decide_eq_false hlong, Bool.false_or]
        rfl
      by_cases hn : n = 0
      · exact .inl ⟨by rw [hsilent, decide_eq_true hn], by rw [hsends, hn, List.take_zero]⟩
      · exact .inr ⟨by rw [hsilent, decide_eq_false hn], n, hsends⟩

theorem sends_of_taken {c : WriteCall} (ht : c.taken = true) (counter : Nat) :
    sends A counter c = frame A counter c.data := by
  rcases sends_cases A counter c with ⟨-, -, hs⟩ | ⟨⟨hf, -⟩, -⟩
  · exact hs
  · rw [ht] at hf
    cases hf

theorem sends_of_silent {c : WriteCall} (hs : c.silent = true) (counter : Nat) : sends A counter c = [] := by
  rcases sends_cases A counter c with ⟨ht, -, -⟩ | ⟨-, ⟨-, hn⟩ | ⟨hs', -⟩⟩
  · rw [c.silent_of_taken ht] at hs
    cases hs
  · exact hn
  · rw [hs] at hs'
    cases hs'

theorem sends_of_cut {c : WriteCall} (ht : c.taken = false) (hs : c.silent = false) (counter : Nat) :
    ∃ n, sends A counter c = (frame A counter c.data).dropLast.take n := by
  rcases sends_cases A counter c with ⟨ht', -, -⟩ | ⟨-, ⟨hs', -⟩ | ⟨-, hn⟩⟩
  · rw [ht] at ht'
    cases ht'
  · rw [hs] at hs'
    cases hs'
  · exact hn

/-- What has been sent before is no part of it. -/
theorem writeEach_sent (calls : List WriteCall) : ∀ counter sent,
    writeEach A ⟨counter, sent⟩ calls = ((writeEach A ⟨counter, []⟩ calls).1,
      ⟨(writeEach A ⟨counter, []⟩ calls).2.counter, sent ++ (writeEach A ⟨counter, []⟩ calls).2.sent⟩) := by
  induction calls with
  | nil => simp [writeEach]
  | cons c calls ih =>
    intro counter sent
    simp only [writeEach]
    rw [writeEncrypted_eq counter sent, writeEncrypted_eq counter []]
    cases (writeEncrypted A ⟨counter, []⟩ c).1 with
    | ok =>
      dsimp only
      rw [ih _ (sent ++ _), ih _ ([] ++ _)]
      simp
    | error e =>
      dsimp only
      rw [ih _ (sent ++ _), ih _ ([] ++ _)]
      simp

/-- The messages accepted by calls from some count on, and their bytes. -/
def accepted (A : Aead) (counter : Nat) (calls : List WriteCall) : List Bytes := (writeEach A ⟨counter, []⟩ calls).1

def wire (A : Aead) (counter : Nat) (calls : List WriteCall) : Bytes := (writeEach A ⟨counter, []⟩ calls).2.sent

theorem accepted_cons (counter : Nat) (c : WriteCall) :
    accepted A counter (c :: calls) =
      if c.taken then c.data :: accepted A (advance counter) calls else accepted A (advance counter) calls := by
  simp only [accepted, writeEach]
  rw [writeEncrypted_eq]
  rcases sends_cases A counter c with ⟨ht, hr, -⟩ | ⟨⟨ht, e, hr⟩, -⟩
  · rw [if_pos ht, hr]
    dsimp only
    rw [writeEach_sent]
  · rw [ht, hr]
    dsimp only
    rw [writeEach_sent]
    rfl

theorem wire_cons (counter : Nat) (c : WriteCall) :
    wire A counter (c :: calls) = sends A counter c ++ wire A (advance counter) calls := by
  simp only [wire, writeEach]
  rw [writeEncrypted_eq]
  cases (writeEncrypted A ⟨counter, []⟩ c).1 with
  | ok =>
    dsimp only
    rw [writeEach_sent]
    rfl
  | error e =>
    dsimp only
    rw [writeEach_sent]
    rfl

/-! ## The reader and the calls -/

/-- A reader at count `r` gets what calls from `counter` on accept. -/
def Delivers (A : Aead) (r counter : Nat) (calls : List WriteCall) : Prop :=
  ∀ n, reads A ⟨r, wire A counter calls⟩ n =
    ((accepted A counter calls).take n).map some ++ List.replicate (n - (accepted A counter calls).length) none

theorem accepted_eq_nil (h : ∀ c ∈ calls, c.taken = false) (counter : Nat) : accepted A counter calls = [] := by
  induction calls generalizing counter with
  | nil => rfl
  | cons c calls ih =>
    rw [accepted_cons, h c List.mem_cons_self, ih fun c hc => h c (List.mem_cons_of_mem _ hc)]
    rfl

theorem wire_eq_nil (h : ∀ c ∈ calls, c.silent = true) (counter : Nat) : wire A counter calls = [] := by
  induction calls generalizing counter with
  | nil => rfl
  | cons c calls ih =>
    rw [wire_cons, ih fun c hc => h c (List.mem_cons_of_mem _ hc), List.append_nil]
    exact sends_of_silent (h c List.mem_cons_self) counter

theorem CutLast.tail {c : WriteCall} (h : CutLast (c :: calls)) : CutLast calls :=
  ⟨fun c hc => h.1 c (List.mem_cons_of_mem _ hc), (List.pairwise_cons.1 h.2).2⟩

/-- Behind a frame that has been cut off the stream ends. -/
theorem CutLast.wire {c : WriteCall} (h : CutLast (c :: calls)) (ht : c.taken = false) (hs : c.silent = false)
    (counter : Nat) : (∀ c ∈ calls, c.silent = true) ∧
      ∃ n, wire A counter (c :: calls) = (frame A counter c.data).dropLast.take n ∧ c.data.length + tagLen ≤ maxFrame := by
  have hrest : ∀ c ∈ calls, c.silent = true := by
    intro d hd
    rcases (List.pairwise_cons.1 h.2).1 d hd with h | h | h
    · rw [ht] at h
      cases h
    · rw [hs] at h
      cases h
    · exact h
  have hfit : c.data.length + tagLen ≤ maxFrame := by
    rcases h.1 c List.mem_cons_self with h | h | h
    · rw [ht] at h
      cases h
    · rw [hs] at h
      cases h
    · exact h
  obtain ⟨n, hn⟩ := sends_of_cut ht hs counter (A := A)
  exact ⟨hrest, n, by rw [wire_cons, wire_eq_nil hrest, List.append_nil, hn], hfit⟩

/-- The first frame in front of the reader, and the calls that follow. -/
theorem delivers_taken (calls : List WriteCall) {c : WriteCall} (ht : c.taken = true) (counter : Nat) :
    (c.data.length + tagLen ≤ maxFrame → (Delivers A counter counter (c :: calls) ↔
      Delivers A (advance counter) (advance counter) calls)) ∧
    ∀ r, maxFrame < c.data.length + tagLen ∨ nonce counter ≠ nonce r → ¬Delivers A r counter (c :: calls) := by
  have hsends := sends_of_taken ht counter (A := A)
  have hlen : c.data.length + tagLen < 2 ^ 32 := by
    simp only [WriteCall.taken, Bool.and_eq_true, decide_eq_true_eq] at ht
    exact ht.1
  simp only [Delivers, wire_cons, accepted_cons, if_pos ht, hsends]
  refine ⟨fun hfit => ⟨fun h n => ?_, fun h n => ?_⟩, fun r hr h => ?_⟩
  · have hn := h (n + 1)
    rw [reads, readEncrypted_frame hfit] at hn
    simpa [Except.toOption] using hn
  · cases n with
    | zero => simp [reads]
    | succ n =>
      rw [reads, readEncrypted_frame hfit, h n]
      simp [Except.toOption]
  · have h1 := h 1
    rw [reads, readEncrypted_frame_fails hlen hr] at h1
    simp at h1

theorem delivers_silent {c : WriteCall} {counter : Nat} (ht : c.taken = false) (hs : sends A counter c = []) (r : Nat) :
    Delivers A r counter (c :: calls) ↔ Delivers A r (advance counter) calls := by
  simp only [Delivers, wire_cons, hs, List.nil_append, accepted_cons, ht, Bool.false_eq_true, if_false]

/-- Where no call is accepted, the reader gets nothing. -/
theorem delivers_of_none (hcut : CutLast calls) (h : ∀ c ∈ calls, c.taken = false) (r counter : Nat) :
    Delivers A r counter calls := by
  induction calls generalizing counter with
  | nil =>
    intro n
    rw [reads_of_eof (by rfl)]
    simp [accepted, writeEach]
  | cons c calls ih =>
    have ht := h c List.mem_cons_self
    have hnone := accepted_eq_nil (A := A) h counter
    cases hs : c.silent with
    | true =>
      have hrest := ih hcut.tail (fun c hc => h c (List.mem_cons_of_mem _ hc)) (advance counter)
      exact (delivers_silent ht (sends_of_silent hs counter) r).2 hrest
    | false =>
      obtain ⟨-, n, hwire, hfit⟩ := hcut.wire ht hs (A := A) counter
      intro m
      rw [hnone, reads_of_eof (by rw [hwire]; exact readRaw_cut counter n hfit)]
      simp

/-- A reader that is behind in its count gets none of the messages accepted. -/
theorem not_delivers_of_behind (hcut : CutLast calls) {r counter : Nat} (hr : r < counter)
    (hcount : counter + calls.length < 2 ^ 64) (h : ∃ c ∈ calls, c.taken = true) : ¬Delivers A r counter calls := by
  induction calls generalizing counter with
  | nil => simp at h
  | cons c calls ih =>
    rw [List.length_cons] at hcount
    have hadv : advance counter = counter + 1 := by
      unfold advance
      omega
    cases ht : c.taken with
    | true =>
      refine (delivers_taken calls ht counter).2 r (.inr fun heq => ?_)
      have := nonce_inj (by omega) (by omega) heq
      omega
    | false =>
      have hrest : ∃ c ∈ calls, c.taken = true := by
        obtain ⟨d, hd, hdt⟩ := h
        rcases List.mem_cons.1 hd with rfl | hd
        · rw [ht] at hdt
          cases hdt
        · exact ⟨d, hd, hdt⟩
      cases hs : c.silent with
      | true =>
        rw [delivers_silent ht (sends_of_silent hs counter)]
        exact ih hcut.tail (by omega) (by omega) hrest
      | false =>
        obtain ⟨hsilent, -⟩ := hcut.wire ht hs (A := A) counter
        obtain ⟨d, hd, hdt⟩ := hrest
        rw [not_taken_of_silent hsilent d hd] at hdt
        cases hdt

theorem inStep_cons {c : WriteCall} : InStep (c :: calls) ↔
    if c.taken then c.data.length + tagLen ≤ maxFrame ∧ InStep calls else ∀ d ∈ calls, d.taken = false := by
  simp only [InStep, List.forall_mem_cons, List.pairwise_cons]
  cases hc : c.taken with
  | true => simp [and_assoc]
  | false =>
    simp only [Bool.false_eq_true, imp_false, if_false, Bool.not_eq_true]
    constructor
    · exact fun h => h.2.1
    · intro h
      refine ⟨⟨fun h => absurd h (by decide), fun d hd ht => ?_⟩, h, ?_⟩
      · rw [h d hd] at ht
        cases ht
      · refine List.Pairwise.imp_of_mem (R := fun _ _ => True) (fun _ hd _ ht => ?_) (by simp [List.pairwise_iff_forall_sublist])
        rw [h _ hd] at ht
        cases ht

/-- From equal counts on. -/
theorem delivers_iff (hcut : CutLast calls) {counter : Nat} (hcount : counter + calls.length < 2 ^ 64) :
    Delivers A counter counter calls ↔ InStep calls := by
  induction calls generalizing counter with
  | nil => exact iff_of_true (delivers_of_none hcut (by simp) _ _) ⟨by simp, List.Pairwise.nil⟩
  | cons c calls ih =>
    rw [List.length_cons] at hcount
    have hadv : advance counter = counter + 1 := by
      unfold advance
      omega
    rw [inStep_cons]
    cases ht : c.taken with
    | true =>
      rw [if_pos rfl]
      obtain ⟨hfits, hlong⟩ := delivers_taken (A := A) calls ht counter
      by_cases hfit : c.data.length + tagLen ≤ maxFrame
      · rw [hfits hfit, ih hcut.tail (by omega)]
        exact ⟨fun h => ⟨hfit, h⟩, fun h => h.2⟩
      · exact iff_of_false (hlong counter (.inl (Nat.lt_of_not_le hfit))) fun h => hfit h.1
    | false =>
      simp only [Bool.false_eq_true, if_false]
      constructor
      · intro h
        by_contra hne
        have hsome : ∃ d ∈ calls, d.taken = true := by
          simpa using hne
        cases hs : c.silent with
        | true =>
          rw [delivers_silent ht (sends_of_silent hs counter)] at h
          exact not_delivers_of_behind hcut.tail (by omega) (by omega) hsome h
        | false =>
          obtain ⟨hsilent, -⟩ := hcut.wire ht hs (A := A) counter
          exact hne (not_taken_of_silent hsilent)
      · intro h
        apply delivers_of_none hcut
        simpa [ht] using h

end Calls

/-! ## Round trips -/

/-- In every sequence of calls in which nothing is sent behind a frame that was cut off:
the peer gets exactly the messages for which the calls return `Ok` if and only if the
frame of each is one it takes, and no call before it has failed. -/
theorem frames_round_trip (A : Aead) (calls : List WriteCall) (hcount : calls.length < 2 ^ 64) (hcut : CutLast calls) :
    RoundTrips A calls ↔ InStep calls :=
  delivers_iff hcut (by omega)

/-- A cipher that is none: the data as it is, and the nonce for a tag. -/
def clearAead : Aead where
  encrypt nonce data := (data, nonce.1 ++ List.replicate 4 0)
  decrypt nonce data tag := if tag = nonce.1 ++ List.replicate 4 0 then some data else none
  length_data _ _ := rfl
  length_tag nonce _ := by simp [nonce.2, tagLen]
  decrypt_encrypt _ _ := by simp
  other_nonce nonce nonce' _ h := by
    rw [if_neg]
    exact fun heq => h (Subtype.ext (List.append_cancel_right heq))

/-- Three messages, the last cut off in the middle. -/
theorem frames_round_trip_cut : RoundTrips clearAead [⟨[1, 2], none⟩, ⟨[], none⟩, ⟨[3], some (7, "timed out")⟩] :=
  (frames_round_trip clearAead [⟨[1, 2], none⟩, ⟨[], none⟩, ⟨[3], some (7, "timed out")⟩] (by decide)
    ⟨by decide, by decide⟩).2 ⟨by decide, by decide⟩

section Lost
variable {A : Aead}

theorem not_roundTrips_long {data : Bytes} (hlen : data.length = maxFrame) : ¬RoundTrips A [⟨data, none⟩] := by
  have htaken : (⟨data, none⟩ : WriteCall).taken = true := by simp [WriteCall.taken, hlen, maxFrame, tagLen]
  exact (delivers_taken [] htaken 0).2 0 (.inl (by simp [hlen, tagLen]))

theorem not_roundTrips_refused {data next : Bytes} (hlen : data.length = 2 ^ 32)
    (hnext : next.length + tagLen < 2 ^ 32) : ¬RoundTrips A [⟨data, none⟩, ⟨next, none⟩] := by
  have hrefused : (⟨data, none⟩ : WriteCall).taken = false := by simp [WriteCall.taken, hlen, tagLen]
  have hsilent : (⟨data, none⟩ : WriteCall).silent = true := by simp [WriteCall.silent, hlen, tagLen]
  have htaken : (⟨next, none⟩ : WriteCall).taken = true := by
    rw [WriteCall.taken, decide_eq_true hnext]
    rfl
  have hcut : CutLast [⟨data, none⟩, ⟨next, none⟩] := by simp [CutLast, hsilent, htaken]
  have hiff : Delivers A 0 0 _ ↔ _ := delivers_iff hcut (by simp)
  refine fun h => absurd (hiff.1 h).2 ?_
  simp [hrefused, htaken]

end Lost

/-- The write of 128 MiB returns `Ok`, and the peer gets nothing. A message too long for
any frame is refused, and the peer gets none of those that follow. -/
theorem messages_lost :
    ¬RoundTrips clearAead [⟨List.replicate maxFrame 0, none⟩] ∧
      ¬RoundTrips clearAead [⟨List.replicate (2 ^ 32) 0, none⟩, ⟨[1], none⟩] :=
  ⟨not_roundTrips_long List.length_replicate, not_roundTrips_refused List.length_replicate (by decide)⟩

end Mobfs
