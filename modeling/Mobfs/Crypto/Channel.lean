import Mobfs.Crypto.Frames
import Mobfs.Crypto.Handshake
/-!
# Secure streams

A session that has returned `Ok` writes and reads frames, each sealed under the key of its
direction with the count of the call. As for the handshake the model is symbolic: the body of
a frame is a term that tells key, nonce and message, and the attacker, who holds the network,
has the bodies that were sent and all those that it can seal itself. It can do that under any
key that is not made from the ephemeral keys of two sessions.

`channel_authentic`: what the call with some count returns was given to the call with the
same count on the other side, and the other side is one session. So no frame is taken twice,
out of order, from another stream or from the wrong direction.
-/

namespace Mobfs

open Lib

deriving instance DecidableEq for HkdfInput

/-- The body of a frame: a message sealed under a key, with its tag, or something else. -/
inductive FrameBody (Shared : Type) where
  | sealed (key : HkdfInput Shared) (nonce : Nonce) (data : Bytes)
  | other (bytes : Bytes)
  deriving DecidableEq

def FrameBody.length {Shared : Type} : FrameBody Shared → Nat
  | .sealed _ _ data => data.length + tagLen
  | .other bytes => bytes.length

/-- What the body opens to. -/
def FrameBody.decrypt {Shared : Type} [DecidableEq Shared] (key : HkdfInput Shared) (nonce : Nonce) :
    FrameBody Shared → Option Bytes
  | .sealed key' nonce' data => if key' = key ∧ nonce' = nonce then some data else none
  | .other _ => none

/-- `Ok` has been returned. -/
def Session.ready {Secret : Type} : Session Secret → Bool
  | .clientAuth _ _ ok | .serverEnds _ _ ok => ok
  | _ => false

/-- The sessions, each with its counts, and what was given to its calls of `write_encrypted`
and has come from those of `read_encrypted` that got a frame. -/
structure Channels (Secret Shared : Type) where
  hands : Handshakes Secret
  sendCounter : Nat → Nat
  recvCounter : Nat → Nat
  net : List (FrameBody Shared)
  written : Nat → List Bytes
  got : Nat → List (Option Bytes)

inductive ChannelAct (Secret Shared : Type) where
  | handshake (a : HandshakeAct Secret)
  | write (i : Nat) (data : Bytes)
  /-- The body of the frame that the session reads, if it reads one. -/
  | read (i : Nat) (body : Option (FrameBody Shared))

namespace Channels

variable {Secret Shared : Type}

/-- `write_encrypted`. Where the write fails, some of the frame may have been sent: it counts
as sent. -/
def writes (s : Channels Secret Shared) (i : Nat) (key : HkdfInput Shared) (data : Bytes) : Channels Secret Shared :=
  { s with
    sendCounter := Function.update s.sendCounter i (advance (s.sendCounter i))
    net := if 2 ^ 32 ≤ data.length + tagLen then s.net else s.net ++ [.sealed key (nonce (s.sendCounter i)) data]
    written := Function.update s.written i (s.written i ++ [data]) }

/-- `read_encrypted`. A frame above `maxFrame` is refused before the count is advanced. -/
def reads [DecidableEq Shared] (s : Channels Secret Shared) (i : Nat) (key : HkdfInput Shared) :
    Option (FrameBody Shared) → Channels Secret Shared
  | none => s
  | some body =>
    if maxFrame < body.length then s
    else
      { s with
        recvCounter := Function.update s.recvCounter i (advance (s.recvCounter i))
        got := Function.update s.got i (s.got i ++ [body.decrypt key (nonce (s.recvCounter i))]) }

variable (D : DiffieHellman Secret Shared) (sha : Bytes → Bytes) (known : List String)

/-- The keys of a session that has returned `Ok`, for sending and for receiving. -/
def keys (s : Channels Secret Shared) (i : Nat) : Option (HkdfInput Shared × HkdfInput Shared) :=
  (s.hands.parties i).bind fun p => if p.session.ready then p.session.keys D sha p.token else none

def step [DecidableEq Shared] (s : Channels Secret Shared) : ChannelAct Secret Shared → Option (Channels Secret Shared)
  | .handshake a => (s.hands.step D known a).map fun hands => { s with hands }
  | .write i data => (s.keys D sha i).map fun keys => s.writes i keys.1 data
  | .read i body => (s.keys D sha i).map fun keys => s.reads i keys.2 body

def start : Channels Secret Shared := ⟨.start, fun _ => 0, fun _ => 0, [], fun _ => [], fun _ => []⟩

/-- The key is made from the ephemeral keys of two sessions. -/
def Between (s : Channels Secret Shared) (key : HkdfInput Shared) : Prop :=
  ∃ x y, D.pub x ∈ s.hands.made ∧ D.pub y ∈ s.hands.made ∧ key.ikm = D.dh x (D.pub y)

/-- The attacker has every body that is read, or can make it. -/
def Possible (s : Channels Secret Shared) : ChannelAct Secret Shared → Prop
  | .read _ (some (.sealed key nonce data)) => .sealed key nonce data ∈ s.net ∨ ¬ s.Between D key
  | _ => True

end Channels

/-! ## The keys of a session -/

namespace Handshakes

variable {Secret Shared : Type} {D : DiffieHellman Secret Shared} {known : List String} {s s' : Handshakes Secret}

/-- A session that has returned `Ok` has its keys, and takes no more part in handshakes. -/
theorem Turn.old_not_ready {token : String} {old : Option (Session Secret)} {session : Session Secret}
    {frames : List HandshakeFrame} {new : List PublicKey} (h : Turn D known s token old session frames new)
    {o : Session Secret} (ho : old = some o) : o.ready = false := by
  subst ho
  cases h with
  | accepts => rfl
  | answers => rfl
  | ends => rfl
  | refuses _ hold =>
    rcases hold with ⟨x, rfl⟩ | rfl
    · rfl
    · rfl

theorem ready_stays {a : HandshakeAct Secret} {i : Nat} {p : Party Secret} (hi : s.parties i = some p)
    (hp : p.session.ready = true) (h : s.step D known a = some s') : s'.parties i = some p := by
  obtain ⟨j, token, old, session, frames, new, hold, hturn, rfl⟩ := step_turn h
  by_cases hij : i = j
  · subst hij
    rw [hi] at hold
    obtain ⟨o, ho, hpo⟩ := Option.map_eq_some_iff.1 hold.symm
    have := hturn.old_not_ready ho
    rw [← hpo] at hp
    exact absurd hp (by simp [this])
  · exact (Function.update_of_ne hij ..).trans hi

end Handshakes

namespace Session

variable {Secret Shared : Type} {D : DiffieHellman Secret Shared} {sha : Bytes → Bytes} {p q : Session Secret}
  {c v c' v' : PublicKey} {shared shared' : Shared} {token token' : String}

/-- What a key is for, and whose keys it is made from. -/
theorem info_serverToClient (sha : Bytes → Bytes) (shared : Shared) (token : String) (c v : PublicKey) :
    (deriveKeys sha shared token c v).serverToClient.info = utf8 "mobfs-e2ee-v2" ++ c.1 ++ v.1 ++ utf8 "server-to-client" := by
  have hhead : (utf8 "mobfs-e2ee-v2" ++ c.1 ++ v.1).length = (utf8 "mobfs-e2ee-v2").length + 64 := by
    simp [c.2, v.2]
  simp only [deriveKeys, List.take_left' hhead]

theorem info_inj {l l' : Bytes} (hl : l.length = l'.length)
    (h : utf8 "mobfs-e2ee-v2" ++ c.1 ++ v.1 ++ l = utf8 "mobfs-e2ee-v2" ++ c'.1 ++ v'.1 ++ l') : c = c' ∧ v = v' ∧ l = l' := by
  obtain ⟨hkeys, hlabel⟩ := List.append_inj' h hl
  rw [List.append_assoc, List.append_assoc] at hkeys
  obtain ⟨hc, hv⟩ := List.append_inj (List.append_cancel_left hkeys) (by rw [c.2, c'.2])
  exact ⟨Subtype.ext hc, Subtype.ext hv, hlabel⟩

theorem clientToServer_inj (h : (deriveKeys sha shared token c v).clientToServer =
    (deriveKeys sha shared' token' c' v').clientToServer) : c = c' ∧ v = v' := by
  obtain ⟨hc, hv, -⟩ := info_inj rfl (congrArg HkdfInput.info h)
  exact ⟨hc, hv⟩

theorem serverToClient_inj (h : (deriveKeys sha shared token c v).serverToClient =
    (deriveKeys sha shared' token' c' v').serverToClient) : c = c' ∧ v = v' := by
  have h := congrArg HkdfInput.info h
  rw [info_serverToClient, info_serverToClient] at h
  obtain ⟨hc, hv, -⟩ := info_inj rfl h
  exact ⟨hc, hv⟩

theorem directions_ne : (deriveKeys sha shared token c v).clientToServer ≠
    (deriveKeys sha shared' token' c' v').serverToClient := by
  intro h
  have h := congrArg HkdfInput.info h
  rw [info_serverToClient] at h
  obtain ⟨-, -, hl⟩ := info_inj (by decide) h
  exact absurd hl (by decide)

/-- A client and a server with one token and one pair of keys. -/
theorem keys_match (sha : Bytes → Bytes) (token : String) (hp : p.clientPair D = some (c, v))
    (hq : q.serverPair D = some (c, v)) : ∃ x y, D.pub x = c ∧ D.pub y = v ∧ p.own D = some c ∧ q.own D = some v ∧
      p.keys D sha token = some ((deriveKeys sha (D.dh x (D.pub y)) token c v).clientToServer,
        (deriveKeys sha (D.dh x (D.pub y)) token c v).serverToClient) ∧
      q.keys D sha token = some ((deriveKeys sha (D.dh x (D.pub y)) token c v).serverToClient,
        (deriveKeys sha (D.dh x (D.pub y)) token c v).clientToServer) := by
  have hclient : ∃ x, D.pub x = c ∧ p.own D = some c ∧ p.keys D sha token =
      some ((deriveKeys sha (D.dh x v) token c v).clientToServer, (deriveKeys sha (D.dh x v) token c v).serverToClient) := by
    cases p with
    | clientAuth x w ok =>
      cases hp
      exact ⟨x, rfl, rfl, rfl⟩
    | _ => cases hp
  have hserver : ∃ y, D.pub y = v ∧ q.own D = some v ∧ q.keys D sha token =
      some ((deriveKeys sha (D.dh y c) token c v).serverToClient, (deriveKeys sha (D.dh y c) token c v).clientToServer) := by
    cases q with
    | serverHello y w =>
      cases hq
      exact ⟨y, rfl, rfl, rfl⟩
    | serverEnds y w ok =>
      cases hq
      exact ⟨y, rfl, rfl, rfl⟩
    | _ => cases hq
  obtain ⟨x, rfl, hpo, hpk⟩ := hclient
  obtain ⟨y, rfl, hqo, hqk⟩ := hserver
  refine ⟨x, y, rfl, rfl, hpo, hqo, hpk, ?_⟩
  rw [hqk, D.comm y x]

/-- A session that has keys has both public keys. -/
theorem pair_of_keys {a b : HkdfInput Shared} (h : p.keys D sha token = some (a, b)) : ∃ c v, p.pair D = some (c, v) := by
  cases p with
  | clientAuth x w ok => exact ⟨_, _, rfl⟩
  | serverHello y w => exact ⟨_, _, rfl⟩
  | serverEnds y w ok => exact ⟨_, _, rfl⟩
  | _ => cases h

end Session

namespace Handshakes

variable {Secret Shared : Type} {D : DiffieHellman Secret Shared} {sha : Bytes → Bytes} {known : List String}
  {s s' : Handshakes Secret} {i j : Nat}

/-- A key for sending is that of one session. -/
theorem HandshakeInv.sender_unique (hi : HandshakeInv D known s) {p q : Party Secret} {a b b' : HkdfInput Shared}
    (hp : s.parties i = some p) (hq : s.parties j = some q) (hpk : p.session.keys D sha p.token = some (a, b))
    (hqk : q.session.keys D sha q.token = some (a, b')) : i = j := by
  obtain ⟨c, v, hpp⟩ := Session.pair_of_keys hpk
  obtain ⟨c', v', hqp⟩ := Session.pair_of_keys hqk
  rcases Session.pair_cases hpp with ⟨x, -, hpo, hpk'⟩ | ⟨x, -, hpo, hpk'⟩
  · rcases Session.pair_cases hqp with ⟨y, -, hqo, hqk'⟩ | ⟨y, -, hqo, hqk'⟩
    · rw [hpk', Option.some.injEq, Prod.mk.injEq] at hpk
      rw [hqk', Option.some.injEq, Prod.mk.injEq] at hqk
      obtain ⟨rfl, -⟩ := Session.clientToServer_inj (hpk.1.trans hqk.1.symm)
      exact hi.distinct i j p q c hp hq hpo hqo
    · rw [hpk', Option.some.injEq, Prod.mk.injEq] at hpk
      rw [hqk', Option.some.injEq, Prod.mk.injEq] at hqk
      exact absurd (hpk.1.trans hqk.1.symm) Session.directions_ne
  · rcases Session.pair_cases hqp with ⟨y, -, hqo, hqk'⟩ | ⟨y, -, hqo, hqk'⟩
    · rw [hpk', Option.some.injEq, Prod.mk.injEq] at hpk
      rw [hqk', Option.some.injEq, Prod.mk.injEq] at hqk
      exact absurd (hqk.1.trans hpk.1.symm) Session.directions_ne
    · rw [hpk', Option.some.injEq, Prod.mk.injEq] at hpk
      rw [hqk', Option.some.injEq, Prod.mk.injEq] at hqk
      obtain ⟨-, rfl⟩ := Session.serverToClient_inj (hpk.1.trans hqk.1.symm)
      exact hi.distinct i j p q v hp hq hpo hqo

/-- A session that has returned `Ok`, with a token that the attacker does not know, has one
partner. The two send under each other's keys for receiving, and no third session has their
pair of public keys. -/
structure Partners (D : DiffieHellman Secret Shared) (sha : Bytes → Bytes) (s : Handshakes Secret) (i j : Nat) : Prop where
  ne : i ≠ j
  keys : ∃ token p q a b, s.parties i = some ⟨token, p⟩ ∧ s.parties j = some ⟨token, q⟩ ∧ p.pair D = q.pair D ∧
    p.keys D sha token = some (a, b) ∧ q.keys D sha token = some (b, a) ∧
    ∃ x y, D.pub x ∈ s.made ∧ D.pub y ∈ s.made ∧ b.ikm = D.dh x (D.pub y)
  only : ∀ p l r, s.parties i = some p → s.parties l = some r → r.session.pair D = p.session.pair D → l = i ∨ l = j

theorem HandshakeInv.only_two (hi : HandshakeInv D known s) {token : String} {p q : Session Secret} {c v : PublicKey}
    (hp : s.parties i = some ⟨token, p⟩) (hq : s.parties j = some ⟨token, q⟩) (hpo : p.own D = some c)
    (hqo : q.own D = some v) (l : Nat) (r : Party Secret) (hl : s.parties l = some r)
    (hr : r.session.pair D = some (c, v)) : l = i ∨ l = j := by
  rcases Session.pair_cases hr with ⟨x, -, hro, -⟩ | ⟨y, -, hro, -⟩
  · exact .inl (hi.distinct l i r ⟨token, p⟩ c hl hp hro hpo)
  · exact .inr (hi.distinct l j r ⟨token, q⟩ v hl hq hro hqo)

theorem HandshakeInv.partner (hi : HandshakeInv D known s) (sha : Bytes → Bytes) {token : String} {p : Session Secret}
    (hp : s.parties i = some ⟨token, p⟩) (hready : p.ready = true) (hk : token ∉ known) : ∃ j, Partners D sha s i j := by
  have hmade : ∀ {l : Nat} {t : String} {r : Session Secret} {k : PublicKey}, s.parties l = some ⟨t, r⟩ →
      r.own D = some k → k ∈ s.made := fun hl ho => hi.made _ _ _ _ hl ho
  cases p with
  | clientAuth x v ok =>
    obtain ⟨j, q, hq, hqp⟩ := hi.clients i token x v ok hp hk
    obtain ⟨x', y, hx, rfl, hpo, hqo, hpk, hqk⟩ := Session.keys_match (p := .clientAuth x v ok) sha token rfl hqp
    have hij : i ≠ j := by
      rintro rfl
      rw [hp] at hq
      cases hq
      cases hqp
    have hqpair : q.pair D = some (D.pub x, D.pub y) := by
      cases q <;> first | cases hqp | exact hqp
    refine ⟨j, hij, ⟨token, _, q, _, _, hp, hq, hqpair.symm, hpk, hqk, x', y, ?_, hmade hq hqo, rfl⟩, ?_⟩
    · exact hx ▸ hmade hp hpo
    · intro p' l r hp' hl hr
      rw [hp] at hp'
      cases hp'
      exact hi.only_two hp hq hpo hqo l r hl hr
  | serverEnds y c ok =>
    obtain rfl : ok = true := hready
    obtain ⟨j, q, hq, hqp⟩ := hi.servers i token y c hp hk
    obtain ⟨x, y', rfl, hy, hqo, hpo, hqk, hpk⟩ := Session.keys_match (q := .serverEnds y c true) sha token hqp rfl
    have hij : i ≠ j := by
      rintro rfl
      rw [hp] at hq
      cases hq
      cases hqp
    have hqpair : q.pair D = some (D.pub x, D.pub y) := by
      cases q <;> first | cases hqp | exact hqp
    refine ⟨j, hij, ⟨token, _, q, _, _, hp, hq, hqpair.symm, hpk, hqk, x, y', hmade hq hqo, ?_, rfl⟩, ?_⟩
    · exact hy ▸ hmade hp hpo
    · intro p' l r hp' hl hr
      rw [hp] at hp'
      cases hp'
      exact (hi.only_two hq hp hqo hpo l r hl hr).symm
  | _ => cases hready

end Handshakes

/-! ## What is on the network, and what is read -/

namespace Channels

variable {Secret Shared : Type} {D : DiffieHellman Secret Shared} {sha : Bytes → Bytes} {known : List String}
  {s s' : Channels Secret Shared}

/-- The count at the call with that number. -/
def count (n : Nat) : Nat := min n (2 ^ 64 - 1)

theorem advance_count (n : Nat) : advance (count n) = count (n + 1) := by
  unfold advance count
  omega

/-- Every frame was sealed by a call of the session whose key it is. What a session with a
secret token has read was on the network, under the nonce of the call. -/
structure ChannelInv (D : DiffieHellman Secret Shared) (sha : Bytes → Bytes) (known : List String)
    (s : Channels Secret Shared) : Prop where
  hands : s.hands.HandshakeInv D known
  sent : ∀ i, s.sendCounter i = count (s.written i).length
  received : ∀ i, s.recvCounter i = count (s.got i).length
  net : ∀ key n data, .sealed key n data ∈ s.net → ∃ i b m, s.keys D sha i = some (key, b) ∧
    (s.written i)[m]? = some data ∧ n = nonce (count m)
  got : ∀ i n data, (s.got i)[n]? = some (some data) → ∃ p a b, s.hands.parties i = some p ∧
    s.keys D sha i = some (a, b) ∧ (p.token ∉ known → .sealed b (nonce (count n)) data ∈ s.net)

theorem keys_eq_some {i : Nat} {k : HkdfInput Shared × HkdfInput Shared} : s.keys D sha i = some k ↔
    ∃ p, s.hands.parties i = some p ∧ p.session.ready = true ∧ p.session.keys D sha p.token = some k := by
  simp only [keys, Option.bind_eq_some_iff, Option.ite_none_right_eq_some]

theorem channelInv_start (D : DiffieHellman Secret Shared) (sha : Bytes → Bytes) (known : List String) :
    ChannelInv D sha known (start : Channels Secret Shared) := by
  refine ⟨Handshakes.start_inv D known, fun i => rfl, fun i => rfl, fun key n data h => ?_, fun i n data h => ?_⟩
  · cases h
  · simp [start] at h

theorem ChannelInv.handshake {a : HandshakeAct Secret} {hands : Handshakes Secret} (hi : ChannelInv D sha known s)
    (h : s.hands.step D known a = some hands) : ChannelInv D sha known { s with hands } := by
  have hkeys : ∀ {i k}, s.keys D sha i = some k → keys D sha { s with hands } i = some k := by
    intro i k hk
    obtain ⟨p, hp, hr, hpk⟩ := keys_eq_some.1 hk
    exact keys_eq_some.2 ⟨p, Handshakes.ready_stays hp hr h, hr, hpk⟩
  refine ⟨hi.hands.step h, hi.sent, hi.received, fun key n data hmem => ?_, fun i n data hg => ?_⟩
  · obtain ⟨i, b, m, hk, hw⟩ := hi.net key n data hmem
    exact ⟨i, b, m, hkeys hk, hw⟩
  · obtain ⟨p, a, b, hp, hk, hsealed⟩ := hi.got i n data hg
    obtain ⟨p', hp', hr, -⟩ := keys_eq_some.1 hk
    rw [hp] at hp'
    cases hp'
    exact ⟨p, a, b, Handshakes.ready_stays hp hr h, hkeys hk, hsealed⟩

theorem ChannelInv.writes {i : Nat} {data : Bytes} {k : HkdfInput Shared × HkdfInput Shared} (hi : ChannelInv D sha known s)
    (hk : s.keys D sha i = some k) : ChannelInv D sha known (s.writes i k.1 data) := by
  have hold : ∀ {j m : Nat} {d : Bytes}, (s.written j)[m]? = some d → ((s.writes i k.1 data).written j)[m]? = some d := by
    intro j m d hm
    by_cases hj : j = i
    · subst hj
      have hlt := (List.getElem?_eq_some_iff.1 hm).1
      simpa [Channels.writes, List.getElem?_append_left hlt] using hm
    · simpa [Channels.writes, Function.update_of_ne hj] using hm
  refine ⟨hi.hands, fun j => ?_, hi.received, fun key n d hmem => ?_, fun j n d hg => ?_⟩
  · by_cases hj : j = i
    · subst hj
      simp only [Channels.writes, Function.update_self, List.length_append, List.length_singleton]
      rw [hi.sent, advance_count]
    · simpa [Channels.writes, Function.update_of_ne hj] using hi.sent j
  · simp only [Channels.writes] at hmem
    have hnet : FrameBody.sealed key n d ∈ s.net → ∃ j b m, s.keys D sha j = some (key, b) ∧
        ((s.writes i k.1 data).written j)[m]? = some d ∧ n = nonce (count m) := by
      intro hmem
      obtain ⟨j, b, m, hj, hw, hn⟩ := hi.net key n d hmem
      exact ⟨j, b, m, hj, hold hw, hn⟩
    split at hmem
    · exact hnet hmem
    · rcases List.mem_append.1 hmem with hmem | hmem
      · exact hnet hmem
      · -- The frame of this call.
        cases List.mem_singleton.1 hmem
        refine ⟨i, k.2, (s.written i).length, hk, by simp [Channels.writes], ?_⟩
        rw [hi.sent]
  · obtain ⟨p, a, b, hp, hkey, hsealed⟩ := hi.got j n d hg
    refine ⟨p, a, b, hp, hkey, fun ht => ?_⟩
    simp only [Channels.writes]
    split
    · exact hsealed ht
    · exact List.mem_append_left _ (hsealed ht)

variable [DecidableEq Shared]

theorem ChannelInv.reads {i : Nat} {body : Option (FrameBody Shared)} {k : HkdfInput Shared × HkdfInput Shared}
    (hi : ChannelInv D sha known s) (hpos : s.Possible D (.read i body)) (hk : s.keys D sha i = some k) :
    ChannelInv D sha known (s.reads i k.2 body) := by
  obtain ⟨p, hp, hready, hpk⟩ := keys_eq_some.1 hk
  cases body with
  | none => exact hi
  | some body =>
    by_cases hlong : maxFrame < body.length
    · rw [Channels.reads, if_pos hlong]
      exact hi
    · simp only [Channels.reads, if_neg hlong]
      refine ⟨hi.hands, hi.sent, fun j => ?_, hi.net, fun j n d hg => ?_⟩
      · by_cases hj : j = i
        · subst hj
          simp only [Function.update_self, List.length_append, List.length_singleton]
          rw [hi.received, advance_count]
        · simpa [Function.update_of_ne hj] using hi.received j
      · by_cases hj : j = i
        · subst hj
          simp only [Function.update_self] at hg
          rcases Nat.lt_or_ge n (s.got j).length with hn | hn
          · rw [List.getElem?_append_left hn] at hg
            exact hi.got j n d hg
          · -- This call: what it opens is sealed under the key of the session.
            rw [List.getElem?_append_right hn, List.getElem?_singleton, Option.ite_none_right_eq_some,
              Option.some.injEq] at hg
            obtain ⟨hlen, hopen⟩ := hg
            obtain rfl : n = (s.got j).length := by omega
            refine ⟨p, k.1, k.2, hp, hk, fun ht => ?_⟩
            cases body with
            | other bytes => cases hopen
            | sealed key n d' =>
              simp only [FrameBody.decrypt, Option.ite_none_right_eq_some, Option.some.injEq] at hopen
              obtain ⟨⟨rfl, rfl⟩, rfl⟩ := hopen
              rw [hi.received] at hpos
              refine hpos.resolve_right (not_not.2 ?_)
              obtain ⟨j', hpar⟩ := hi.hands.partner sha hp hready ht
              obtain ⟨token, p', q, a, b, hp', hq, -, hpk', -, hbetween⟩ := hpar.keys
              rw [hp] at hp'
              cases hp'
              rw [hpk] at hpk'
              cases hpk'
              exact hbetween
        · simp only [Function.update_of_ne hj] at hg
          exact hi.got j n d hg

theorem ChannelInv.step {a : ChannelAct Secret Shared} (hi : ChannelInv D sha known s) (hpos : s.Possible D a)
    (h : s.step D sha known a = some s') : ChannelInv D sha known s' := by
  cases a with
  | handshake a =>
    obtain ⟨hands, hh, rfl⟩ := Option.map_eq_some_iff.1 h
    exact hi.handshake hh
  | write i data =>
    obtain ⟨k, hk, rfl⟩ := Option.map_eq_some_iff.1 h
    exact hi.writes hk
  | read i body =>
    obtain ⟨k, hk, rfl⟩ := Option.map_eq_some_iff.1 h
    exact hi.reads hpos hk

/-- In every run of any number of sessions in which none makes 2 ^ 64 calls: a session that has
returned `Ok`, with a token that the attacker does not know, has a partner, and what its call
of `read_encrypted` with some count has returned was given to the partner's call of
`write_encrypted` with the same count. -/
theorem channel_authentic (D : DiffieHellman Secret Shared) (sha : Bytes → Bytes) (known : List String)
    (acts : List (ChannelAct Secret Shared)) (s : Channels Secret Shared)
    (hg : Guarded (step D sha known) (Possible D) start acts) (h : exec (step D sha known) start acts = some s)
    (hcalls : ∀ j, (s.written j).length < 2 ^ 64) (i : Nat) (p : Party Secret) (hp : s.hands.parties i = some p)
    (hready : p.session.ready = true) (htoken : p.token ∉ known) :
    ∃ j, s.hands.Partners D sha i j ∧ ∀ (n : Nat) (data : Bytes), (s.got i)[n]? = some (some data) → (s.written j)[n]? = some data := by
  have hi : ChannelInv D sha known s :=
    exec_guarded_inv _ (fun _ _ _ hi hg hs => hi.step hg hs) (channelInv_start D sha known) hg h
  obtain ⟨j, hpar⟩ := hi.hands.partner sha hp hready htoken
  refine ⟨j, hpar, fun n data hgot => ?_⟩
  obtain ⟨token, p', q, a, b, hp', hq, -, hpk, hqk, -⟩ := hpar.keys
  rw [hp] at hp'
  cases hp'
  obtain ⟨p', a', b', hp', hk, hsealed⟩ := hi.got i n data hgot
  rw [hp] at hp'
  cases hp'
  obtain ⟨p', hp', -, hk⟩ := keys_eq_some.1 hk
  rw [hp] at hp'
  cases hp'
  rw [hpk] at hk
  cases hk
  -- The frame was sealed by a session with the partner's key, which is the partner, at one count.
  obtain ⟨l, b', m, hl, hw, hn⟩ := hi.net b _ data (hsealed htoken)
  obtain ⟨r, hr, -, hrk⟩ := keys_eq_some.1 hl
  obtain rfl : l = j := hi.hands.sender_unique hr hq hrk hqk
  have hm := (List.getElem?_eq_some_iff.1 hw).1
  have hlt := hcalls l
  have hcount : count n = count m := nonce_inj (by unfold count; omega) (by unfold count; omega) hn
  obtain rfl : n = m := by
    unfold count at hcount
    omega
  exact hw

/-! ## A frame that is sent twice -/

def toServer : HkdfInput UInt8 :=
  (deriveKeys id (Handshakes.sumGroup.dh 1 (Handshakes.sumGroup.pub 2)) "token" (Handshakes.sumGroup.pub 1)
    (Handshakes.sumGroup.pub 2)).clientToServer

/-- The server gets the first frame of the client, again the first one, and then the third. -/
def replayed : List (ChannelAct UInt8 UInt8) :=
  Handshakes.twoClients.map .handshake ++
    [.write 0 [7], .write 0 [8], .write 0 [9], .read 1 (some (.sealed toServer (nonce 0) [7])),
      .read 1 (some (.sealed toServer (nonce 0) [7])), .read 1 (some (.sealed toServer (nonce 2) [9]))]

theorem length_written_le {acts : List (ChannelAct Secret Shared)} {s₀ : Channels Secret Shared}
    (h : exec (step D sha known) s₀ acts = some s) (j : Nat) : (s.written j).length ≤ (s₀.written j).length + acts.length := by
  induction acts generalizing s₀ with
  | nil =>
    cases h
    exact Nat.le_add_right _ _
  | cons a acts ih =>
    obtain ⟨t, ht, h⟩ := exec_cons.1 h
    have hstep : (t.written j).length ≤ (s₀.written j).length + 1 := by
      cases a with
      | handshake a =>
        obtain ⟨hands, -, rfl⟩ := Option.map_eq_some_iff.1 ht
        exact Nat.le_succ _
      | write i data =>
        obtain ⟨k, -, rfl⟩ := Option.map_eq_some_iff.1 ht
        by_cases hj : j = i
        · simp [writes, hj]
        · simp [writes, Function.update_of_ne hj]
      | read i body =>
        obtain ⟨k, -, rfl⟩ := Option.map_eq_some_iff.1 ht
        unfold reads
        split
        · exact Nat.le_succ _
        · split <;> exact Nat.le_succ _
    have := ih h
    rw [List.length_cons]
    omega

/-- Nothing is read that was not sent. -/
def sentBefore (s : Channels UInt8 UInt8) : ChannelAct UInt8 UInt8 → Bool
  | .read _ (some body) => body ∈ s.net
  | _ => true

theorem channel_authentic_replayed : ∃ s, exec (step Handshakes.sumGroup id ["stolen"]) start replayed = some s ∧
    s.got 1 = [some [7], none, some [9]] ∧ ∃ j, s.hands.Partners Handshakes.sumGroup id 1 j ∧ (s.written j)[2]? = some [9] := by
  have hguard : Guarded (step Handshakes.sumGroup id ["stolen"]) (Possible Handshakes.sumGroup) start replayed := by
    refine guarded_of_checkRun (fun _ => True) (fun _ => True) sentBefore (fun _ _ _ _ _ _ => trivial) ?_ trivial
      (fun _ _ => trivial) (by decide)
    intro s a _ _ h
    cases a with
    | read i body =>
      cases body with
      | none => trivial
      | some body =>
        cases body with
        | sealed key nonce data => exact .inl (of_decide_eq_true h)
        | other bytes => trivial
    | _ => trivial
  obtain ⟨s, hs, hgot, hparty⟩ : ∃ s, exec (step Handshakes.sumGroup id ["stolen"]) start replayed = some s ∧
      s.got 1 = [some [7], none, some [9]] ∧
      s.hands.parties 1 = some ⟨"token", .serverEnds 2 (Handshakes.sumGroup.pub 1) true⟩ :=
    ⟨_, rfl, by decide, rfl⟩
  have hcalls : ∀ j, (s.written j).length < 2 ^ 64 :=
    fun j => Nat.lt_of_le_of_lt (length_written_le hs j)
      (show ([] : List Bytes).length + replayed.length < 2 ^ 64 by decide)
  obtain ⟨j, hpar, hread⟩ := channel_authentic Handshakes.sumGroup id ["stolen"] replayed s hguard hs hcalls 1 _ hparty rfl
    (by decide)
  exact ⟨s, hs, hgot, j, hpar, hread 2 [9] (by rw [hgot]; rfl)⟩

end Channels

end Mobfs
