import Mobfs.Daemon.Framing
/-!
# Which request a response answers

No response says which request it answers. The client takes the next frames on
its stream for the answer to what it sent last, so it must not use a stream on
which an earlier exchange is still open.

The system is one `RemoteClient` in its pool slot, the stream it holds and the
daemon at the other end, which runs the loop of `Mobfs.Daemon.Stream`. Frames
carry the number of the call they were sent for, which no code reads.

`op` gives a failed stream up in two places, when its retries are used up and
when it cannot reconnect, and leaves it in the slot
(`late_response_answers_next_call`). `response_of_own_request`: if every call
starts on a quiet stream, every response is that of the request.
-/

namespace Mobfs

open Lib

/-! ## Reading a response -/

/-- `serde_json` on responses: a response as bytes, and bytes read as one. -/
structure ReplyCodec where
  toVec : Response → Bytes
  fromSlice : Bytes → Option Response

/-- What the client still has to read. -/
inductive Reading where
  /-- `read_response`. -/
  | one
  /-- The header of `send_expecting_frames`. -/
  | rangeHeader
  /-- The data of `send_expecting_frames`. -/
  | rangeData (left : Nat)
  /-- The loop of `run`. -/
  | run
  deriving DecidableEq, Repr

inductive Outcome where
  | more (rd : Reading)
  /-- The call returns `Ok`. -/
  | ok
  /-- The call returns a `Server` error. -/
  | rejected
  /-- Any other error: the attempt has failed. -/
  | failed
  deriving DecidableEq, Repr

def Reply.asResponse (rc : ReplyCodec) : Reply → Option Response
  | .response r => some r
  | .data b => rc.fromSlice b

def Reply.asBytes (rc : ReplyCodec) : Reply → Bytes
  | .response r => rc.toVec r
  | .data b => b

/-- What the client makes of the next frame. -/
def readReply (rc : ReplyCodec) : Reading → Reply → Outcome
  | .one, reply =>
    match reply.asResponse rc with
    | some (.error _) => .rejected
    | some _ => .ok
    | none => .failed
  | .rangeHeader, reply =>
    match reply.asResponse rc with
    | some (.error _) => .rejected
    | some (.rangeHeader len _) => if len = 0 then .ok else .more (.rangeData len)
    | _ => .failed
  | .rangeData left, reply =>
    let chunk := reply.asBytes rc
    if chunk = [] || left < chunk.length then .failed
    else if left = chunk.length then .ok
    else .more (.rangeData (left - chunk.length))
  | .run, reply =>
    match reply.asResponse rc with
    | some (.runOutput ..) => .more .run
    | some (.runResult ..) => .ok
    | _ => .failed

/-- How the answer to a call is read. -/
def Call.reading (c : Call) : Reading :=
  match c.request with
  | .readRange .. => .rangeHeader
  | .run .. => .run
  | _ => .one

/-- Reading ends with the last of these frames and not before. -/
def EndsWith (rc : ReplyCodec) : Reading → List Reply → Prop
  | _, [] => False
  | rd, reply :: replies =>
    match readReply rc rd reply with
    | .more rd => EndsWith rc rd replies
    | _ => replies = []

theorem rangeData_endsWith (rc : ReplyCodec) (pieces : List Bytes) (hne : ∀ p ∈ pieces, p ≠ [])
    (hpos : pieces ≠ []) :
    EndsWith rc (.rangeData pieces.flatten.length) (pieces.map .data) := by
  induction pieces with
  | nil => exact absurd rfl hpos
  | cons p pieces ih =>
    have hp : p ≠ [] := hne p List.mem_cons_self
    cases pieces with
    | nil => simp [EndsWith, readReply, Reply.asBytes, hp]
    | cons q pieces =>
      have ih := ih (fun r hr => hne r (List.mem_cons_of_mem _ hr)) (by simp)
      have hlen : 0 < (q :: pieces).flatten.length := by
        have hq : 0 < q.length := List.length_pos_iff.2 (hne q (by simp))
        rw [List.flatten_cons, List.length_append]
        omega
      have hread : readReply rc (.rangeData (p :: q :: pieces).flatten.length) (.data p) =
          .more (.rangeData (q :: pieces).flatten.length) := by
        rw [List.flatten_cons, List.length_append]
        have hle : ¬ p.length + (q :: pieces).flatten.length < p.length := by omega
        have hlt : p.length + (q :: pieces).flatten.length ≠ p.length := by omega
        simp only [readReply, Reply.asBytes, hp, decide_false, hle, Bool.or_self, Bool.false_eq_true, if_false, hlt,
          Nat.add_sub_cancel_left]
      rw [List.map_cons, EndsWith, hread]
      exact ih

theorem rangeReplies_endsWith (rc : ReplyCodec) (r : Except MobfsError (Bytes × Bool)) :
    EndsWith rc .rangeHeader (rangeReplies r) := by
  rcases r with e | ⟨data, eof⟩
  · simp [rangeReplies, EndsWith, readReply, Reply.asResponse]
  · by_cases hd : data = []
    · subst hd
      simp [rangeReplies, EndsWith, readReply, Reply.asResponse]
    · have hpieces : chunks rangeFrameBytes data ≠ [] := by
        rw [ne_eq, chunks_eq_nil_iff (by decide)]
        exact hd
      have hrest := rangeData_endsWith rc (chunks rangeFrameBytes data)
        (chunks_ne_nil (by decide) data) hpieces
      rw [chunks_flatten (by decide)] at hrest
      simpa [rangeReplies, EndsWith, readReply, Reply.asResponse, hd] using hrest

theorem outputs_endsWith (rc : ReplyCodec) (outputs : List (RunStream × Bytes)) {last : Reply}
    (h : EndsWith rc .run [last]) :
    EndsWith rc .run (outputs.map (fun o => .response (.runOutput o.1 o.2)) ++ [last]) := by
  induction outputs with
  | nil => exact h
  | cons o outputs ih => exact ih

theorem runReplies_endsWith (rc : ReplyCodec) (outputs : List (RunStream × Bytes))
    (result : Except MobfsError (Option Int)) : EndsWith rc .run (runReplies outputs result) := by
  apply outputs_endsWith
  cases result <;> rfl

/-- The daemon answers a call with what the client reads for it. -/
theorem answer_endsWith {σ : Type} (rc : ReplyCodec) (os : Os σ) (policy : RootPolicy) (handlers : Handlers σ)
    (c : Call) (frames : List Frame) (id : Nat) (d : Daemon σ) :
    EndsWith rc c.reading (answer os policy handlers c.request frames id d).2.1 := by
  have hone : ∀ r : Response, EndsWith rc .one [.response r] := by
    intro r
    cases r <;> rfl
  cases c with
  | write root rel offset data opId h => exact hone _
  | plain r h =>
    cases r
    case readRange => exact rangeReplies_endsWith rc _
    case run => exact runReplies_endsWith rc _ _
    case writeFileAtBinary => cases h
    case writeFileAtStream => cases h
    all_goals exact hone _

/-! ## The client, its stream and the daemon -/

/-- The call a frame was sent for, and as what. -/
abbrev Tag := Nat × SentAs

/-- A stream, with the frames written and not yet read. -/
structure Link where
  toDaemon : List (Nat × Frame)
  toClient : List (Tag × Reply)
  /-- The daemon still reads from it. -/
  isOpen : Bool
  /-- A frame was written in part: nothing written after it can be read. -/
  tornOut : Bool
  /-- A frame was read in part: nothing after it can be read. -/
  tornIn : Bool

def Link.fresh : Link := ⟨[], [], true, false, false⟩

/-- No earlier exchange is open: there is nothing left to read for the client,
and nothing left to answer for the daemon. -/
def Link.Quiet (l : Link) : Prop := l.toClient = [] ∧ (l.isOpen → l.toDaemon = [])

/-- How far a call of `op` has come. -/
inductive CallPhase where
  | idle
  | trying (n : Nat) (call : Call) (retries attempt : Nat)
  | reading (n : Nat) (call : Call) (retries attempt : Nat) (rd : Reading) (got : List Tag)
  | failed (n : Nat) (call : Call) (retries attempt : Nat)

/-- A call that has returned an answer: what its frames answered. -/
structure Answered where
  call : Nat
  got : List Tag
  deriving DecidableEq, Repr

structure Slot (σ : Type) where
  link : Option Link
  phase : CallPhase
  /-- The number of calls so far. -/
  calls : Nat
  answered : List Answered
  daemon : Daemon σ

inductive SlotAct (σ : Type) where
  /-- A connection is made: by `use_slot`, by `reconnect`, or by `op` after a failed attempt. -/
  | connect
  /-- A call with so many retries; `watch_changes` has none. -/
  | call (call : Call) (retries : Nat)
  /-- Writes so many frames, and fails there unless these are all. -/
  | write (frames : Nat) (torn : Bool)
  /-- One turn of the daemon's loop. -/
  | serve (sends : Bool)
  /-- The connection breaks, and only so many of the frames sent can still be read. -/
  | hangUp (replies : Nat)
  | read
  /-- A timeout or another error, possibly inside a frame. -/
  | readFails (torn : Bool)
  /-- The retries are used up, or `reconnect` fails: the call returns the
  error, and the stream stays where it is. -/
  | giveUp
  /-- Others use the daemon. -/
  | others (d : Daemon σ)

section System
variable {σ : Type} (codec : Codec) (rc : ReplyCodec) (os : Os σ) (policy : RootPolicy) (handlers : Handlers σ)
variable (clientId : Nat)

/-- A turn of the daemon on the link: it reads a frame and answers it. -/
def Link.serve (l : Link) (d : Daemon σ) (sends : Bool) : Option (Link × Daemon σ) :=
  match l.toDaemon with
  | [] => none
  | (n, f) :: frames =>
    (handleClient codec os policy handlers
      { incoming := f :: frames.map Prod.snd, outgoing := [], clientId, isOpen := l.isOpen, daemon := d,
        decoded := [] } sends).map fun c =>
      ({ l with toDaemon := frames.drop (frames.length - c.incoming.length),
                toClient := l.toClient ++ c.outgoing.map fun r => ((n, f.sentAs), r), isOpen := c.isOpen },
        c.daemon)

def slotStep (s : Slot σ) : SlotAct σ → Option (Slot σ)
  | .connect =>
    match s.phase with
    | .idle => some { s with link := some .fresh }
    | .failed n call retries attempt =>
      if attempt < retries then
        some { s with link := some .fresh, phase := .trying n call retries (attempt + 1) }
      else none
    | _ => none
  | .call call retries =>
    match s.phase, s.link with
    | .idle, some _ => some { s with phase := .trying s.calls call retries 0, calls := s.calls + 1 }
    | _, _ => none
  | .write k torn =>
    match s.phase, s.link with
    | .trying n call retries attempt, some l =>
      let frames := (call.frames codec).map fun f => (n, f)
      let l' := if l.tornOut then l else { l with toDaemon := l.toDaemon ++ frames.take k }
      if frames.length ≤ k then
        some { s with link := some l', phase := .reading n call retries attempt call.reading [] }
      else
        some { s with link := some { l' with tornOut := l.tornOut || torn },
                      phase := .failed n call retries attempt }
    | _, _ => none
  | .serve sends =>
    match s.link with
    | none => none
    | some l => (l.serve codec os policy handlers clientId s.daemon sends).map fun r =>
        { s with link := some r.1, daemon := r.2 }
  | .hangUp k =>
    s.link.map fun l => { s with link := some { l with isOpen := false, toClient := l.toClient.take k } }
  | .read =>
    match s.phase, s.link with
    | .reading n call retries attempt rd got, some l =>
      match l.toClient with
      | [] => none
      | (tag, reply) :: replies =>
        if l.tornIn then none
        else
          let s' := { s with link := some { l with toClient := replies } }
          let done := { s' with phase := .idle, answered := s.answered ++ [⟨n, got ++ [tag]⟩] }
          match readReply rc rd reply with
          | .more rd => some { s' with phase := .reading n call retries attempt rd (got ++ [tag]) }
          | .ok => some done
          | .rejected => some done
          | .failed => some { s' with phase := .failed n call retries attempt }
    | _, _ => none
  | .readFails torn =>
    match s.phase, s.link with
    | .reading n call retries attempt _ _, some l =>
      some { s with link := some { l with tornIn := l.tornIn || torn }, phase := .failed n call retries attempt }
    | _, _ => none
  | .giveUp =>
    match s.phase with
    | .failed .. => some { s with phase := .idle }
    | _ => none
  | .others d => some { s with daemon := d }

/-! ## The invariant -/

/-- What is on the link while call `n` reads its answer: the request and not
yet an answer, or the answer, possibly cut off, and then whatever follows it. -/
def Exchange (n : Nat) (call : Call) (rd : Reading) (l : Link) : Prop :=
  (rd = call.reading ∧ l.toClient = [] ∧
    (l.isOpen → l.toDaemon = [] ∨ l.toDaemon = (call.frames codec).map fun f => (n, f))) ∨
  ∃ own extra, l.toClient <+: own ++ extra ∧ (l.isOpen → l.toClient = own ++ extra) ∧
    EndsWith rc rd (own.map Prod.snd) ∧ ∀ x ∈ own, x.1 = (n, .request)

def PhaseOk : CallPhase → Option Link → Prop
  | .trying _ call _ _, some l => codec.ReadsBack call.request ∧ l.Quiet
  | .reading n call _ _ rd got, some l =>
    codec.ReadsBack call.request ∧ (∀ t ∈ got, t = (n, .request)) ∧ Exchange codec rc n call rd l
  | .failed _ call _ _, _ => codec.ReadsBack call.request
  | _, _ => True

structure Paired (s : Slot σ) : Prop where
  answered : ∀ a ∈ s.answered, ∀ t ∈ a.got, t = (a.call, .request)
  phase : PhaseOk codec rc s.phase s.link

/-- A frame that is a request is answered, or the connection ends. -/
theorem handleClient_reads {c c' : Conn σ} {f : Frame} {frames : List Frame} {r : Request} {sends : Bool}
    (hin : c.incoming = f :: frames) (hr : codec.fromSlice f.bytes = .ok r)
    (hs : handleClient codec os policy handlers c sends = some c') :
    (c'.isOpen = false ∧ c'.outgoing = c.outgoing) ∨
      ∃ d, c'.outgoing = c.outgoing ++ (answer os policy handlers r frames c.clientId d).2.1 := by
  unfold handleClient at hs
  cases hopen : c.isOpen with
  | false => simp [hopen] at hs
  | true =>
    simp only [hopen, Bool.not_true, Bool.false_eq_true, if_false, hin, hr] at hs
    split at hs
    · obtain rfl := Option.some.inj hs
      exact .inl ⟨rfl, rfl⟩
    · obtain rfl := Option.some.inj hs
      exact .inr ⟨_, rfl⟩

theorem Link.serve_open {l l' : Link} {d d' : Daemon σ} {sends : Bool}
    (h : l.serve codec os policy handlers clientId d sends = some (l', d')) :
    l.isOpen = true ∧ ∃ more, l'.toClient = l.toClient ++ more := by
  unfold Link.serve at h
  split at h
  · cases h
  · obtain ⟨c, hc, he⟩ := Option.map_eq_some_iff.1 h
    cases he
    refine ⟨?_, _, rfl⟩
    cases hopen : l.isOpen with
    | false => simp [handleClient, hopen] at hc
    | true => rfl

/-- A turn of the daemon keeps an exchange: it answers the request, or adds
something after the answer. -/
theorem Exchange.serve {n : Nat} {call : Call} {rd : Reading} {l l' : Link} {d d' : Daemon σ} {sends : Bool}
    (h : Exchange codec rc n call rd l) (hr : codec.ReadsBack call.request)
    (hs : l.serve codec os policy handlers clientId d sends = some (l', d')) :
    Exchange codec rc n call rd l' := by
  obtain ⟨hopen, more, hmore⟩ := Link.serve_open codec os policy handlers clientId hs
  rcases h with ⟨hrd, hc, hd⟩ | ⟨own, extra, -, hall, hends, htags⟩
  · unfold Link.serve at hs
    rcases hd hopen with hd | hd
    · simp [hd] at hs
    · rw [Call.frames_eq, List.map_cons] at hd
      simp only [hd] at hs
      obtain ⟨c, hcl, he⟩ := Option.map_eq_some_iff.1 hs
      cases he
      have hfrom : codec.fromSlice (codec.requestFrame call.request).bytes = .ok call.request := hr
      rcases handleClient_reads codec os policy handlers rfl hfrom hcl with ⟨hclosed, hout⟩ | ⟨d, hout⟩
      · exact .inl ⟨hrd, by simp [hc, hout], by simp [hclosed]⟩
      · refine .inr ⟨c.outgoing.map fun r => ((n, .request), r), [], ?_, ?_, ?_, ?_⟩
        · simp [hc, Codec.requestFrame]
        · simp [hc, Codec.requestFrame]
        · rw [hout, List.map_map, hrd]
          simpa [Function.comp_def] using answer_endsWith rc os policy handlers call _ _ d
        · simp
  · refine .inr ⟨own, extra ++ more, ?_, ?_, hends, htags⟩
    · exact ⟨[], by rw [List.append_nil, hmore, hall hopen, List.append_assoc]⟩
    · intro _
      rw [hmore, hall hopen, List.append_assoc]

/-- The next frame of an exchange is one of the answer to its request. -/
theorem Exchange.read {n : Nat} {call : Call} {rd : Reading} {l : Link} {tag : Tag} {reply : Reply}
    {replies : List (Tag × Reply)} (h : Exchange codec rc n call rd l) (hl : l.toClient = (tag, reply) :: replies) :
    tag = (n, .request) ∧
      ∀ rd', readReply rc rd reply = .more rd' → Exchange codec rc n call rd' { l with toClient := replies } := by
  rcases h with ⟨-, hc, -⟩ | ⟨own, extra, hpre, hall, hends, htags⟩
  · simp [hc] at hl
  · cases own with
    | nil => exact hends.elim
    | cons x own =>
      rw [hl, List.cons_append, List.cons_prefix_cons] at hpre
      obtain ⟨rfl, hpre⟩ := hpre
      refine ⟨htags _ List.mem_cons_self, ?_⟩
      intro rd' hmore
      rw [List.map_cons, EndsWith, hmore] at hends
      refine .inr ⟨own, extra, hpre, ?_, hends, fun x hx => htags x (List.mem_cons_of_mem _ hx)⟩
      intro hopen
      have h := hall hopen
      rw [hl, List.cons_append] at h
      exact (List.cons.inj h).2

/-- Breaking the connection can only cut an answer off. -/
theorem Exchange.hangUp {n : Nat} {call : Call} {rd : Reading} {l : Link} (h : Exchange codec rc n call rd l)
    (k : Nat) : Exchange codec rc n call rd { l with isOpen := false, toClient := l.toClient.take k } := by
  rcases h with ⟨hrd, hc, -⟩ | ⟨own, extra, hpre, -, hends, htags⟩
  · exact .inl ⟨hrd, by simp [hc], by simp⟩
  · exact .inr ⟨own, extra, (List.take_prefix _ _).trans hpre, by simp, hends, htags⟩

/-- Each call starts on a quiet stream. -/
def StartsQuiet (s : Slot σ) : SlotAct σ → Prop
  | .call .. => ∀ l, s.link = some l → l.Quiet
  | _ => True

/-- The requests of the run are read back as they were written. -/
def ActReadsBack : SlotAct σ → Prop
  | .call call _ => codec.ReadsBack call.request
  | _ => True

/-- A request is written whole, and its answer is waited for, or the attempt fails. -/
theorem Paired.write {s s' : Slot σ} {k : Nat} {torn : Bool} (h : Paired codec rc s)
    (hs : slotStep codec rc os policy handlers clientId s (.write k torn) = some s') : Paired codec rc s' := by
  obtain ⟨hans, hph⟩ := h
  simp only [slotStep] at hs
  split at hs
  · rename_i n call retries attempt l hp hl
    rw [hp, hl] at hph
    obtain ⟨hr, hc, hd⟩ := hph
    split at hs
    · rename_i hk
      cases hs
      refine ⟨hans, hr, by simp, .inl ⟨rfl, ?_, ?_⟩⟩
      · split <;> exact hc
      · intro hopen
        split at hopen
        · rename_i htorn
          simp [htorn, hd hopen]
        · rename_i htorn
          simp [htorn, hd hopen, List.take_of_length_le hk]
    · cases hs
      exact ⟨hans, hr⟩
  · cases hs

theorem Paired.serve {s s' : Slot σ} {sends : Bool} (h : Paired codec rc s)
    (hs : slotStep codec rc os policy handlers clientId s (.serve sends) = some s') : Paired codec rc s' := by
  obtain ⟨hans, hph⟩ := h
  simp only [slotStep] at hs
  split at hs
  · cases hs
  · rename_i l hl
    obtain ⟨⟨l', d'⟩, hserve, rfl⟩ := Option.map_eq_some_iff.1 hs
    obtain ⟨hopen, -⟩ := Link.serve_open codec os policy handlers clientId hserve
    refine ⟨hans, ?_⟩
    cases hp : s.phase with
    | idle => trivial
    | failed n call retries attempt => simpa [hp, PhaseOk] using hph
    | trying n call retries attempt =>
      -- A quiet stream has nothing to serve.
      rw [hp, hl] at hph
      obtain ⟨-, -, hd⟩ := hph
      simp [Link.serve, hd hopen] at hserve
    | reading n call retries attempt rd got =>
      rw [hp, hl] at hph
      obtain ⟨hr, hgot, hex⟩ := hph
      exact ⟨hr, hgot, hex.serve codec rc os policy handlers clientId hr hserve⟩

theorem Paired.hangUp {s s' : Slot σ} {k : Nat} (h : Paired codec rc s)
    (hs : slotStep codec rc os policy handlers clientId s (.hangUp k) = some s') : Paired codec rc s' := by
  obtain ⟨hans, hph⟩ := h
  obtain ⟨l, hl, rfl⟩ := Option.map_eq_some_iff.1 hs
  refine ⟨hans, ?_⟩
  cases hp : s.phase with
  | idle => trivial
  | failed n call retries attempt => simpa [hp, PhaseOk] using hph
  | trying n call retries attempt =>
    rw [hp, hl] at hph
    exact ⟨hph.1, by simp [hph.2.1], by simp⟩
  | reading n call retries attempt rd got =>
    rw [hp, hl] at hph
    exact ⟨hph.1, hph.2.1, hph.2.2.hangUp codec rc k⟩

/-- A frame is read: the answer goes on, is complete, or makes no sense. -/
theorem Paired.read {s s' : Slot σ} (h : Paired codec rc s)
    (hs : slotStep codec rc os policy handlers clientId s .read = some s') : Paired codec rc s' := by
  obtain ⟨hans, hph⟩ := h
  simp only [slotStep] at hs
  split at hs
  · rename_i n call retries attempt rd got l hp hl
    rw [hp, hl] at hph
    obtain ⟨hr, hgot, hex⟩ := hph
    split at hs
    · cases hs
    · rename_i tag reply replies hc
      obtain ⟨htag, hmore⟩ := hex.read codec rc hc
      have hgot' : ∀ t ∈ got ++ [tag], t = (n, .request) := by
        intro t ht
        rcases List.mem_append.1 ht with ht | ht
        · exact hgot t ht
        · rw [List.mem_singleton.1 ht, htag]
      have hdone : ∀ a ∈ s.answered ++ [⟨n, got ++ [tag]⟩], ∀ t ∈ a.got, t = (a.call, .request) := by
        intro a ha
        rcases List.mem_append.1 ha with ha | ha
        · exact hans a ha
        · rw [List.mem_singleton.1 ha]
          exact hgot'
      split at hs
      · cases hs
      · split at hs
        · rename_i rd' hrd
          cases hs
          exact ⟨hans, hr, hgot', hmore rd' hrd⟩
        · cases hs
          exact ⟨hdone, trivial⟩
        · cases hs
          exact ⟨hdone, trivial⟩
        · cases hs
          exact ⟨hans, hr⟩
  · cases hs

theorem slotStep_paired {s s' : Slot σ} {a : SlotAct σ} (h : Paired codec rc s)
    (hg : StartsQuiet s a ∧ ActReadsBack codec a)
    (hs : slotStep codec rc os policy handlers clientId s a = some s') : Paired codec rc s' := by
  have hans := h.answered
  have hph := h.phase
  cases a with
  | connect =>
    simp only [slotStep] at hs
    split at hs
    · cases hs
      exact ⟨hans, by simp_all [PhaseOk]⟩
    · rename_i n call retries attempt hp
      split at hs
      · cases hs
        exact ⟨hans, by simpa [PhaseOk, hp] using hph, rfl, fun _ => rfl⟩
      · cases hs
    · cases hs
  | call call retries =>
    simp only [slotStep] at hs
    split at hs
    · rename_i l hp hl
      cases hs
      refine ⟨hans, ?_⟩
      rw [hl]
      exact ⟨hg.2, hg.1 l hl⟩
    · cases hs
  | write k torn => exact h.write codec rc os policy handlers clientId hs
  | serve sends => exact h.serve codec rc os policy handlers clientId hs
  | hangUp k => exact h.hangUp codec rc os policy handlers clientId hs
  | read => exact h.read codec rc os policy handlers clientId hs
  | readFails torn =>
    simp only [slotStep] at hs
    split at hs
    · rename_i n call retries attempt rd got l hp hl
      rw [hp, hl] at hph
      cases hs
      exact ⟨hans, hph.1⟩
    · cases hs
  | giveUp =>
    simp only [slotStep] at hs
    split at hs
    · cases hs
      exact ⟨hans, trivial⟩
    · cases hs
  | others d =>
    cases hs
    exact ⟨hans, hph⟩

/-- A slot that has not been used. -/
def Slot.start (d : Daemon σ) : Slot σ := ⟨none, .idle, 0, [], d⟩

/-- In every run in which each call starts on a quiet stream, a call returns
only what the daemon sent in answer to its own request. -/
theorem response_of_own_request (d : Daemon σ) (as : List (SlotAct σ)) (s : Slot σ)
    (hreads : ∀ a ∈ as, ActReadsBack codec a)
    (hquiet : Guarded (slotStep codec rc os policy handlers clientId) StartsQuiet (.start d) as)
    (h : exec (slotStep codec rc os policy handlers clientId) (.start d) as = some s) :
    ∀ a ∈ s.answered, ∀ t ∈ a.got, t = (a.call, .request) := by
  have hstart : Paired codec rc (Slot.start d) := ⟨by simp [Slot.start], trivial⟩
  exact (exec_guarded_inv (Paired codec rc)
    (fun _ _ _ hp hg hs => slotStep_paired codec rc os policy handlers clientId hp hg hs) hstart
    (hquiet.and_mem hreads) h).answered

end System

/-! ## A response that comes late -/

/-- `serde_json` on the requests `Hello` and `StatFs`, whose JSON is abbreviated. -/
def twoRequests : Codec where
  toVec r := if r = .hello then [1] else [2]
  fromSlice b := if b = [1] then .ok .hello else if b = [2] then .ok (.statFs "/srv") else .error (.json "")

def noReplies : ReplyCodec := ⟨fun _ => [], fun _ => none⟩

def runSlot (as : List (SlotAct Unit)) : Option (Slot Unit) :=
  exec (slotStep twoRequests noReplies calmOs ⟨[], true⟩ calmHandlers 1) (.start ⟨(), 0, []⟩) as

def helloCall : Call := .plain .hello rfl

def statFsCall : Call := .plain (.statFs "/srv") rfl

/-- The first call times out and cannot reconnect, its answer comes later, and
the second call takes it for its own. -/
theorem late_response_answers_next_call :
    ¬ ∀ as s, runSlot as = some s → ∀ a ∈ s.answered, ∀ t ∈ a.got, t = (a.call, .request) := by
  intro h
  have hrun : (runSlot [.connect, .call helloCall 12, .write 1 false, .readFails false, .giveUp, .serve true,
      .call statFsCall 12, .write 1 false, .read]).map (·.answered) = some [⟨1, [(0, .request)]⟩] := by decide
  obtain ⟨s, hs, hans⟩ := Option.map_eq_some_iff.1 hrun
  have hfirst := h _ s hs ⟨1, [(0, .request)]⟩ (by simp [hans]) (0, .request) (by simp)
  cases hfirst

/-- A call that is retried on a new stream and answered there. -/
theorem response_of_own_request_retried :
    ∃ s, runSlot [.connect, .call helloCall 12, .write 1 false, .readFails false, .connect, .write 1 false,
        .serve true, .read] = some s ∧ s.answered = [⟨0, [(0, .request)]⟩] ∧
      ∀ a ∈ s.answered, ∀ t ∈ a.got, t = (a.call, .request) := by
  have hrun : (runSlot [.connect, .call helloCall 12, .write 1 false, .readFails false, .connect, .write 1 false,
      .serve true, .read]).map (·.answered) = some [⟨0, [(0, .request)]⟩] := by decide
  obtain ⟨s, hs, hans⟩ := Option.map_eq_some_iff.1 hrun
  refine ⟨s, hs, hans, ?_⟩
  refine response_of_own_request twoRequests noReplies calmOs ⟨[], true⟩ calmHandlers 1 ⟨(), 0, []⟩ _ s ?_ ?_ hs
  · simp [ActReadsBack, Codec.ReadsBack, helloCall, Call.request, twoRequests]
  · refine ⟨trivial, ?_⟩
    intro s₁ h₁
    obtain rfl := Option.some.inj h₁
    refine ⟨?_, ?_⟩
    · intro l hl
      obtain rfl := Option.some.inj hl
      exact ⟨rfl, fun _ => rfl⟩
    · simp [Guarded, StartsQuiet]

end Mobfs
