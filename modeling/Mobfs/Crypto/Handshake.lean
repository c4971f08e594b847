import Mathlib.Logic.Function.Basic
import Mobfs.Lib.Runs
import Mobfs.Protocol
/-!
# The handshake

Client and server exchange ephemeral public keys, and each proves with an HMAC under the
shared token that it has seen both. The model is symbolic: a tag is a term that tells
token and input, and the attacker has only the tags that were sent and those under the
tokens it knows. It holds the network: what a session reads is any frame that the
attacker can make.

`handshake_agrees`: a session that returns `Ok` has a partner with the same token and the
same pair of keys. Both derive the same keys, what one sends with being what the other
receives with.
-/

namespace Mobfs

open Lib

abbrev PublicKey := { bytes : Bytes // bytes.length = 32 }

/-- X25519. -/
structure DiffieHellman (Secret Shared : Type) where
  pub : Secret → PublicKey
  dh : Secret → PublicKey → Shared
  comm : ∀ x y, dh x (pub y) = dh y (pub x)

/-- The bytes of a text. -/
def utf8 (text : String) : Bytes := text.toList.flatMap String.utf8EncodeChar

/-! ## Tags and keys -/

/-- Thirty-two bytes that stand for a tag: HMAC-SHA256 of an input under a token, or
something else. -/
inductive HmacTag where
  | mac (token : String) (input : Bytes)
  | other (bytes : Bytes)
  deriving DecidableEq

def authInput (label : String) (clientPublic serverPublic : PublicKey) : Bytes :=
  utf8 "mobfs-e2ee-auth-v1" ++ utf8 label ++ clientPublic.1 ++ serverPublic.1

def authTag (token label : String) (clientPublic serverPublic : PublicKey) : HmacTag :=
  .mac token (authInput label clientPublic serverPublic)

/-- What HKDF makes thirty-two bytes of key from. -/
structure HkdfInput (Shared : Type) where
  salt : Bytes
  ikm : Shared
  info : Bytes

structure DirectionKeys (Shared : Type) where
  clientToServer : HkdfInput Shared
  serverToClient : HkdfInput Shared

def deriveKeys {Shared : Type} (sha : Bytes → Bytes) (shared : Shared) (token : String)
    (clientPublic serverPublic : PublicKey) : DirectionKeys Shared :=
  let salt := sha (utf8 token)
  let info := utf8 "mobfs-e2ee-v2" ++ clientPublic.1 ++ serverPublic.1 ++ utf8 "client-to-server"
  -- The buffer is used again for the other direction.
  let info' := info.take ((utf8 "mobfs-e2ee-v2").length + 64) ++ utf8 "server-to-client"
  ⟨⟨salt, shared, info⟩, ⟨salt, shared, info'⟩⟩

/-! ## Sessions -/

inductive HandshakeFrame where
  | clientHello (publicKey : PublicKey)
  | serverHello (publicKey : PublicKey) (auth : HmacTag)
  | clientAuth (auth : HmacTag)
  deriving DecidableEq

/-- The tag in a frame. -/
def HandshakeFrame.auth : HandshakeFrame → Option HmacTag
  | .clientHello _ => none
  | .serverHello _ auth => some auth
  | .clientAuth auth => some auth

/-- How far a call of `SecureStream::client` or `SecureStream::server` is. -/
inductive Session (Secret : Type) where
  /-- `ClientHello` is sent. -/
  | clientHello (secret : Secret)
  /-- The tag of the server was right. It returns `Ok` if `ClientAuth` could be sent. -/
  | clientAuth (secret : Secret) (serverPublic : PublicKey) (ok : Bool)
  | serverStart
  /-- `ServerHello` is sent. -/
  | serverHello (secret : Secret) (clientPublic : PublicKey)
  | serverEnds (secret : Secret) (clientPublic : PublicKey) (ok : Bool)
  /-- An error, with no pair of keys or with a wrong tag of the server. -/
  | refused

structure Party (Secret : Type) where
  token : String
  session : Session Secret

/-- The sessions by number, the frames they have sent, and the keys they have made. -/
structure Handshakes (Secret : Type) where
  parties : Nat → Option (Party Secret)
  net : List HandshakeFrame
  made : List PublicKey

inductive HandshakeAct (Secret : Type) where
  | client (i : Nat) (token : String) (secret : Secret) (ok : Bool)
  | server (i : Nat) (token : String)
  /-- The session reads a frame, or reading fails. It makes the key it needs from
  `secret`, and a write of it succeeds or not. -/
  | read (i : Nat) (f : Option HandshakeFrame) (secret : Secret) (ok : Bool)

section Model
variable {Secret Shared : Type} (D : DiffieHellman Secret Shared) (known : List String)

namespace Handshakes

/-- The attacker has the tag. -/
def hasTag (s : Handshakes Secret) : HmacTag → Bool
  | .other _ => true
  | .mac token input => token ∈ known || s.net.any fun f => f.auth = some (.mac token input)

/-- The attacker can make the frame. -/
def hasFrame (s : Handshakes Secret) (f : HandshakeFrame) : Bool := f.auth.all (s.hasTag known)

/-- A session goes on to `session` and sends `frames`. What it has written of them
before an error counts as sent. -/
def goes (s : Handshakes Secret) (i : Nat) (token : String) (session : Session Secret) (frames : List HandshakeFrame) :
    Handshakes Secret :=
  { s with parties := Function.update s.parties i (some ⟨token, session⟩), net := s.net ++ frames }

/-- A key is made that no session has made before. -/
def make (s : Handshakes Secret) (secret : Secret) : Option (Handshakes Secret) :=
  if D.pub secret ∈ s.made then none else some { s with made := D.pub secret :: s.made }

/-- A session that waits for a frame reads one. -/
def reads (s : Handshakes Secret) (i : Nat) (token : String) (f : Option HandshakeFrame) (secret : Secret) (ok : Bool) :
    Session Secret → Option (Handshakes Secret)
  | .clientHello x =>
    match f with
    | some (.serverHello serverPublic auth) =>
      if auth = authTag token "server" (D.pub x) serverPublic then
        some (s.goes i token (.clientAuth x serverPublic ok) [.clientAuth (authTag token "client" (D.pub x) serverPublic)])
      else some (s.goes i token .refused [])
    | _ => some (s.goes i token .refused [])
  | .serverStart =>
    match f with
    | some (.clientHello clientPublic) =>
      (s.make D secret).map fun s =>
        s.goes i token (if ok then .serverHello secret clientPublic else .serverEnds secret clientPublic false)
          [.serverHello (D.pub secret) (authTag token "server" clientPublic (D.pub secret))]
    | _ => some (s.goes i token .refused [])
  | .serverHello y clientPublic =>
    match f with
    | some (.clientAuth auth) =>
      some (s.goes i token (.serverEnds y clientPublic (auth = authTag token "client" clientPublic (D.pub y))) [])
    | _ => some (s.goes i token (.serverEnds y clientPublic false) [])
  | _ => none

def step (s : Handshakes Secret) : HandshakeAct Secret → Option (Handshakes Secret)
  | .client i token x ok =>
    match s.parties i with
    | some _ => none
    | none =>
      (s.make D x).map fun s =>
        s.goes i token (if ok then .clientHello x else .refused) [.clientHello (D.pub x)]
  | .server i token =>
    match s.parties i with
    | some _ => none
    | none => some (s.goes i token .serverStart [])
  | .read i f secret ok =>
    match s.parties i with
    | none => none
    | some p => if f.all (s.hasFrame known) then s.reads D i p.token f secret ok p.session else none

def start : Handshakes Secret := ⟨fun _ => none, [], []⟩

end Handshakes

/-! ## What a step can do -/

namespace Session

/-- The key the session has made. -/
def own : Session Secret → Option PublicKey
  | .clientHello x | .clientAuth x _ _ => some (D.pub x)
  | .serverHello y _ | .serverEnds y _ _ => some (D.pub y)
  | _ => none

/-- The pair of keys of a client that has accepted the server. -/
def clientPair : Session Secret → Option (PublicKey × PublicKey)
  | .clientAuth x serverPublic _ => some (D.pub x, serverPublic)
  | _ => none

/-- The pair of keys of a server. -/
def serverPair : Session Secret → Option (PublicKey × PublicKey)
  | .serverHello y clientPublic | .serverEnds y clientPublic _ => some (clientPublic, D.pub y)
  | _ => none

end Session

namespace Handshakes

/-- A session with the token goes from one stage to the next and sends frames; `new` is
the key it makes. -/
inductive Turn (s : Handshakes Secret) (token : String) :
    Option (Session Secret) → Session Secret → List HandshakeFrame → List PublicKey → Prop where
  | client (x : Secret) (fresh : D.pub x ∉ s.made) : Turn s token none (.clientHello x) [.clientHello (D.pub x)] [D.pub x]
  | clientFails (x : Secret) : Turn s token none .refused [.clientHello (D.pub x)] [D.pub x]
  | server : Turn s token none .serverStart [] []
  | accepts (x : Secret) (serverPublic : PublicKey) (ok : Bool)
      (has : s.hasTag known (authTag token "server" (D.pub x) serverPublic) = true) :
      Turn s token (some (.clientHello x)) (.clientAuth x serverPublic ok)
        [.clientAuth (authTag token "client" (D.pub x) serverPublic)] []
  | answers (y : Secret) (clientPublic : PublicKey) (fresh : D.pub y ∉ s.made) (session : Session Secret)
      (hs : session = .serverHello y clientPublic ∨ session = .serverEnds y clientPublic false) :
      Turn s token (some .serverStart) session
        [.serverHello (D.pub y) (authTag token "server" clientPublic (D.pub y))] [D.pub y]
  | ends (y : Secret) (clientPublic : PublicKey) (ok : Bool)
      (has : ok = true → s.hasTag known (authTag token "client" clientPublic (D.pub y)) = true) :
      Turn s token (some (.serverHello y clientPublic)) (.serverEnds y clientPublic ok) [] []
  | refuses (old : Session Secret) (hold : (∃ x, old = .clientHello x) ∨ old = .serverStart) :
      Turn s token (some old) .refused [] []

variable {D known} {s s' : Handshakes Secret}

theorem make_eq_some {x : Secret} {t : Handshakes Secret} :
    s.make D x = some t ↔ D.pub x ∉ s.made ∧ t = { s with made := D.pub x :: s.made } := by
  unfold make
  split <;> simp_all [eq_comm]

/-- The state after a turn of a session. -/
def Turned (s : Handshakes Secret) (i : Nat) (token : String) (session : Session Secret) (frames : List HandshakeFrame)
    (new : List PublicKey) : Handshakes Secret :=
  ⟨Function.update s.parties i (some ⟨token, session⟩), s.net ++ frames, new ++ s.made⟩

theorem reads_turn {i : Nat} {token : String} {f : Option HandshakeFrame} {secret : Secret} {ok : Bool}
    {old : Session Secret} (hf : f.all (s.hasFrame known) = true)
    (h : s.reads D i token f secret ok old = some s') :
    ∃ session frames new, Turn D known s token (some old) session frames new ∧
      s' = s.Turned i token session frames new := by
  cases old with
  | clientHello x =>
    simp only [reads] at h
    split at h
    · rename_i serverPublic auth
      split at h
      · rename_i hauth
        cases h
        refine ⟨_, _, _, .accepts x serverPublic ok ?_, rfl⟩
        simpa [hasFrame, HandshakeFrame.auth, hauth] using hf
      · cases h
        exact ⟨_, _, _, .refuses _ (.inl ⟨x, rfl⟩), rfl⟩
    · cases h
      exact ⟨_, _, _, .refuses _ (.inl ⟨x, rfl⟩), rfl⟩
  | serverStart =>
    simp only [reads] at h
    split at h
    · rename_i clientPublic
      obtain ⟨t, ht, rfl⟩ := Option.map_eq_some_iff.1 h
      obtain ⟨hfresh, rfl⟩ := make_eq_some.1 ht
      refine ⟨_, _, [D.pub secret], .answers secret clientPublic hfresh _ ?_, rfl⟩
      cases ok
      · exact .inr rfl
      · exact .inl rfl
    · cases h
      exact ⟨_, _, _, .refuses _ (.inr rfl), rfl⟩
  | serverHello y clientPublic =>
    simp only [reads] at h
    split at h
    · rename_i auth
      cases h
      refine ⟨_, _, _, .ends y clientPublic _ fun hauth => ?_, rfl⟩
      rw [decide_eq_true_eq] at hauth
      simpa [hasFrame, HandshakeFrame.auth, hauth] using hf
    · cases h
      exact ⟨_, _, _, .ends y clientPublic false fun h => absurd h (by decide), rfl⟩
  | _ => cases h

theorem step_turn {a : HandshakeAct Secret} (h : s.step D known a = some s') :
    ∃ i token old session frames new, s.parties i = Option.map (Party.mk token) old ∧
      Turn D known s token old session frames new ∧ s' = s.Turned i token session frames new := by
  cases a with
  | client i token x ok =>
    simp only [step] at h
    split at h
    · cases h
    · rename_i hi
      obtain ⟨t, ht, rfl⟩ := Option.map_eq_some_iff.1 h
      obtain ⟨hfresh, rfl⟩ := make_eq_some.1 ht
      cases ok
      · exact ⟨i, token, none, _, _, [D.pub x], hi, .clientFails x, rfl⟩
      · exact ⟨i, token, none, _, _, [D.pub x], hi, .client x hfresh, rfl⟩
  | server i token =>
    simp only [step] at h
    split at h
    · cases h
    · rename_i hi
      cases h
      exact ⟨i, token, none, _, _, [], hi, .server, rfl⟩
  | read i f secret ok =>
    simp only [step] at h
    split at h
    · cases h
    · rename_i p hi
      split at h
      · rename_i hf
        obtain ⟨session, frames, new, hturn, hs'⟩ := reads_turn hf h
        exact ⟨i, p.token, some p.session, session, frames, new, hi, hturn, hs'⟩
      · cases h

/-! ## Every tag comes from a session -/

/-- A client with the token has accepted the pair. -/
def ClientRan (D : DiffieHellman Secret Shared) (s : Handshakes Secret) (token : String) (clientPublic serverPublic : PublicKey) :
    Prop :=
  ∃ i session, s.parties i = some ⟨token, session⟩ ∧ session.clientPair D = some (clientPublic, serverPublic)

/-- A server with the token has answered with the pair. -/
def ServerRan (D : DiffieHellman Secret Shared) (s : Handshakes Secret) (token : String) (clientPublic serverPublic : PublicKey) :
    Prop :=
  ∃ i session, s.parties i = some ⟨token, session⟩ ∧ session.serverPair D = some (clientPublic, serverPublic)

structure HandshakeInv (D : DiffieHellman Secret Shared) (known : List String) (s : Handshakes Secret) : Prop where
  made : ∀ i token session k, s.parties i = some ⟨token, session⟩ → session.own D = some k → k ∈ s.made
  distinct : ∀ i j p q k, s.parties i = some p → s.parties j = some q →
    p.session.own D = some k → q.session.own D = some k → i = j
  tags : ∀ f ∈ s.net, ∀ token input, f.auth = some (.mac token input) → token ∉ known → ∃ clientPublic serverPublic,
    (input = authInput "client" clientPublic serverPublic ∧ ClientRan D s token clientPublic serverPublic) ∨
    (input = authInput "server" clientPublic serverPublic ∧ ServerRan D s token clientPublic serverPublic)
  clients : ∀ i token x serverPublic ok, s.parties i = some ⟨token, .clientAuth x serverPublic ok⟩ → token ∉ known →
    ServerRan D s token (D.pub x) serverPublic
  servers : ∀ i token y clientPublic, s.parties i = some ⟨token, .serverEnds y clientPublic true⟩ → token ∉ known →
    ClientRan D s token clientPublic (D.pub y)

/-- The label and both keys can be read off the input of a tag. -/
theorem authInput_inj {label label' : String} {c c' v v' : PublicKey} (hlen : (utf8 label).length = (utf8 label').length)
    (h : authInput label c v = authInput label' c' v') : utf8 label = utf8 label' ∧ c = c' ∧ v = v' := by
  simp only [authInput, List.append_assoc] at h
  obtain ⟨hlabel, hkeys⟩ := List.append_inj (List.append_cancel_left h) hlen
  obtain ⟨hc, hv⟩ := List.append_inj hkeys (by rw [c.2, c'.2])
  exact ⟨hlabel, Subtype.ext hc, Subtype.ext hv⟩

theorem Turn.keeps_pairs {token : String} {old session : Session Secret} {frames : List HandshakeFrame} {new : List PublicKey}
    (h : Turn D known s token (some old) session frames new) (pair : PublicKey × PublicKey) :
    (old.clientPair D = some pair → session.clientPair D = some pair) ∧
      (old.serverPair D = some pair → session.serverPair D = some pair) := by
  cases h with
  | accepts => exact ⟨nofun, nofun⟩
  | answers => exact ⟨nofun, nofun⟩
  | ends => exact ⟨nofun, id⟩
  | refuses _ hold =>
    rcases hold with ⟨x, rfl⟩ | rfl
    · exact ⟨nofun, nofun⟩
    · exact ⟨nofun, nofun⟩

section Turned
variable {i : Nat} {token : String} {old : Option (Session Secret)} {session : Session Secret}
  {frames : List HandshakeFrame} {new : List PublicKey}

theorem Turn.ran (h : Turn D known s token old session frames new) (hi : s.parties i = old.map (Party.mk token))
    {tok : String} {clientPublic serverPublic : PublicKey} :
    (ClientRan D s tok clientPublic serverPublic →
      ClientRan D (s.Turned i token session frames new) tok clientPublic serverPublic) ∧
    (ServerRan D s tok clientPublic serverPublic →
      ServerRan D (s.Turned i token session frames new) tok clientPublic serverPublic) := by
  have hkeep : ∀ j q, s.parties j = some ⟨tok, q⟩ → ∃ q',
      (s.Turned i token session frames new).parties j = some ⟨tok, q'⟩ ∧
      (q.clientPair D = some (clientPublic, serverPublic) → q'.clientPair D = some (clientPublic, serverPublic)) ∧
      (q.serverPair D = some (clientPublic, serverPublic) → q'.serverPair D = some (clientPublic, serverPublic)) := by
    intro j q hj
    by_cases hji : j = i
    · subst hji
      rw [hi] at hj
      obtain ⟨o, rfl, ho⟩ := Option.map_eq_some_iff.1 hj
      cases ho
      exact ⟨session, Function.update_self .., h.keeps_pairs _⟩
    · exact ⟨q, (Function.update_of_ne hji ..).trans hj, id, id⟩
  constructor
  · rintro ⟨j, q, hj, hq⟩
    obtain ⟨q', hj', hc, -⟩ := hkeep j q hj
    exact ⟨j, q', hj', hc hq⟩
  · rintro ⟨j, q, hj, hq⟩
    obtain ⟨q', hj', -, hs⟩ := hkeep j q hj
    exact ⟨j, q', hj', hs hq⟩

/-- The key of a session after a turn is the one it had, or new. -/
theorem Turn.own (h : Turn D known s token old session frames new) {k : PublicKey} (hk : session.own D = some k) :
    (∃ o, old = some o ∧ o.own D = some k) ∨ k ∈ new ∧ k ∉ s.made := by
  cases h with
  | client x fresh =>
    cases hk
    exact .inr ⟨List.mem_singleton.2 rfl, fresh⟩
  | clientFails => cases hk
  | server => cases hk
  | accepts x => exact .inl ⟨_, rfl, hk⟩
  | answers y _ fresh _ hs =>
    rcases hs with rfl | rfl
    · cases hk
      exact .inr ⟨List.mem_singleton.2 rfl, fresh⟩
    · cases hk
      exact .inr ⟨List.mem_singleton.2 rfl, fresh⟩
  | ends y => exact .inl ⟨_, rfl, hk⟩
  | refuses => cases hk

/-- The attacker has a tag under a token it does not know only from a session. -/
theorem HandshakeInv.origin (hi : HandshakeInv D known s) {tok : String} {input : Bytes}
    (h : s.hasTag known (.mac tok input) = true) (hk : tok ∉ known) : ∃ clientPublic serverPublic,
    (input = authInput "client" clientPublic serverPublic ∧ ClientRan D s tok clientPublic serverPublic) ∨
    (input = authInput "server" clientPublic serverPublic ∧ ServerRan D s tok clientPublic serverPublic) := by
  simp only [hasTag, hk, decide_false, Bool.false_or, List.any_eq_true, decide_eq_true_eq] at h
  obtain ⟨f, hf, hauth⟩ := h
  exact hi.tags f hf tok input hauth hk

theorem HandshakeInv.server_ran (hi : HandshakeInv D known s) {tok : String} {c v : PublicKey}
    (h : s.hasTag known (authTag tok "server" c v) = true) (hk : tok ∉ known) : ServerRan D s tok c v := by
  obtain ⟨c', v', ⟨hin, -⟩ | ⟨hin, hran⟩⟩ := hi.origin h hk
  · exact absurd (authInput_inj (by decide) hin).1 (by decide)
  · obtain ⟨-, rfl, rfl⟩ := authInput_inj rfl hin
    exact hran

theorem HandshakeInv.client_ran (hi : HandshakeInv D known s) {tok : String} {c v : PublicKey}
    (h : s.hasTag known (authTag tok "client" c v) = true) (hk : tok ∉ known) : ClientRan D s tok c v := by
  obtain ⟨c', v', ⟨hin, hran⟩ | ⟨hin, -⟩⟩ := hi.origin h hk
  · obtain ⟨-, rfl, rfl⟩ := authInput_inj rfl hin
    exact hran
  · exact absurd (authInput_inj (by decide) hin).1 (by decide)

/-- What a turn sends is a tag of the session itself. -/
theorem Turn.sends (h : Turn D known s token old session frames new) {f : HandshakeFrame} (hf : f ∈ frames) {tok : String}
    {input : Bytes} (hauth : f.auth = some (.mac tok input)) : tok = token ∧ ∃ c v,
    (input = authInput "client" c v ∧ session.clientPair D = some (c, v)) ∨
    (input = authInput "server" c v ∧ session.serverPair D = some (c, v)) := by
  cases h with
  | client | clientFails =>
    obtain rfl := List.mem_singleton.1 hf
    cases hauth
  | accepts x v ok =>
    obtain rfl := List.mem_singleton.1 hf
    cases hauth
    exact ⟨rfl, _, _, .inl ⟨rfl, rfl⟩⟩
  | answers y c _ _ hs =>
    obtain rfl := List.mem_singleton.1 hf
    cases hauth
    refine ⟨rfl, c, D.pub y, .inr ⟨rfl, ?_⟩⟩
    rcases hs with rfl | rfl
    · rfl
    · rfl
  | server | ends | refuses => cases hf

theorem HandshakeInv.turn (hi : HandshakeInv D known s) (h : Turn D known s token old session frames new)
    (hold : s.parties i = old.map (Party.mk token)) : HandshakeInv D known (s.Turned i token session frames new) := by
  have hself : (s.Turned i token session frames new).parties i = some ⟨token, session⟩ := Function.update_self ..
  have hother : ∀ j, j ≠ i → (s.Turned i token session frames new).parties j = s.parties j :=
    fun j hj => Function.update_of_ne hj ..
  -- The key of the session is its own from before, or one that nobody has made.
  have howner : ∀ k, session.own D = some k → ∀ j q, j ≠ i → s.parties j = some q → q.session.own D ≠ some k := by
    intro k hk j q hj hq hqk
    rcases h.own hk with ⟨o, rfl, ho⟩ | ⟨-, hnot⟩
    · exact hj (hi.distinct j i _ _ k hq hold hqk ho)
    · exact hnot (hi.made j _ _ k hq hqk)
  refine ⟨?_, ?_, ?_, ?_, ?_⟩
  · intro j tok q k hj hk
    by_cases hji : j = i
    · subst hji
      rw [hself] at hj
      cases hj
      rcases h.own hk with ⟨o, rfl, ho⟩ | ⟨hnew, -⟩
      · exact List.mem_append_right _ (hi.made j token o k hold ho)
      · exact List.mem_append_left _ hnew
    · rw [hother j hji] at hj
      exact List.mem_append_right _ (hi.made j tok q k hj hk)
  · intro j l p q k hj hl hp hq
    by_cases hji : j = i
    · by_cases hli : l = i
      · rw [hji, hli]
      · subst hji
        rw [hself] at hj
        cases hj
        exact absurd hq (howner k hp l q hli (hother l hli ▸ hl))
    · by_cases hli : l = i
      · subst hli
        rw [hself] at hl
        cases hl
        exact absurd hp (howner k hq j p hji (hother j hji ▸ hj))
      · exact hi.distinct j l p q k (hother j hji ▸ hj) (hother l hli ▸ hl) hp hq
  · intro f hf tok input hauth hk
    rcases List.mem_append.1 hf with hf | hf
    · obtain ⟨c, v, ⟨hin, hran⟩ | ⟨hin, hran⟩⟩ := hi.tags f hf tok input hauth hk
      · exact ⟨c, v, .inl ⟨hin, (h.ran hold).1 hran⟩⟩
      · exact ⟨c, v, .inr ⟨hin, (h.ran hold).2 hran⟩⟩
    · obtain ⟨rfl, c, v, ⟨hin, hpair⟩ | ⟨hin, hpair⟩⟩ := h.sends hf hauth
      · exact ⟨c, v, .inl ⟨hin, i, session, hself, hpair⟩⟩
      · exact ⟨c, v, .inr ⟨hin, i, session, hself, hpair⟩⟩
  · intro j tok x v ok hj hk
    apply (h.ran hold).2
    by_cases hji : j = i
    · subst hji
      rw [hself] at hj
      cases hj
      cases h with
      | accepts _ _ _ has => exact hi.server_ran has hk
      | answers _ _ _ _ hs =>
        rcases hs with hs | hs
        · cases hs
        · cases hs
    · rw [hother j hji] at hj
      exact hi.clients j tok x v ok hj hk
  · intro j tok y c hj hk
    apply (h.ran hold).1
    by_cases hji : j = i
    · subst hji
      rw [hself] at hj
      cases hj
      cases h with
      | ends _ _ _ has => exact hi.client_ran (has rfl) hk
      | answers _ _ _ _ hs =>
        rcases hs with hs | hs
        · cases hs
        · cases hs
    · rw [hother j hji] at hj
      exact hi.servers j tok y c hj hk

end Turned

theorem start_inv (D : DiffieHellman Secret Shared) (known : List String) : HandshakeInv D known (start : Handshakes Secret) :=
  ⟨nofun, nofun, nofun, nofun, nofun⟩

theorem HandshakeInv.step {a : HandshakeAct Secret} (hi : HandshakeInv D known s) (h : s.step D known a = some s') :
    HandshakeInv D known s' := by
  obtain ⟨i, token, old, session, frames, new, hold, hturn, rfl⟩ := step_turn h
  exact hi.turn hturn hold

end Handshakes

/-! ## Agreement -/

namespace Session

/-- The pair of keys of a session that has both. -/
def pair (session : Session Secret) : Option (PublicKey × PublicKey) :=
  (session.clientPair D).or (session.serverPair D)

/-- What it makes its keys for sending and receiving from. -/
def keys (sha : Bytes → Bytes) (token : String) : Session Secret → Option (HkdfInput Shared × HkdfInput Shared)
  | .clientAuth x serverPublic _ =>
    let keys := deriveKeys sha (D.dh x serverPublic) token (D.pub x) serverPublic
    some (keys.clientToServer, keys.serverToClient)
  | .serverHello y clientPublic | .serverEnds y clientPublic _ =>
    let keys := deriveKeys sha (D.dh y clientPublic) token clientPublic (D.pub y)
    some (keys.serverToClient, keys.clientToServer)
  | _ => none

variable {D}

/-- A session with a pair is a client or a server. -/
theorem pair_cases {session : Session Secret} {c v : PublicKey} (h : session.pair D = some (c, v)) :
    (∃ x, D.pub x = c ∧ session.own D = some c ∧ ∀ sha token, session.keys D sha token =
      some ((deriveKeys sha (D.dh x v) token c v).clientToServer, (deriveKeys sha (D.dh x v) token c v).serverToClient)) ∨
    (∃ y, D.pub y = v ∧ session.own D = some v ∧ ∀ sha token, session.keys D sha token =
      some ((deriveKeys sha (D.dh y c) token c v).serverToClient, (deriveKeys sha (D.dh y c) token c v).clientToServer)) := by
  cases session with
  | clientAuth x serverPublic ok =>
    cases h
    exact .inl ⟨x, rfl, rfl, fun _ _ => rfl⟩
  | serverHello y clientPublic =>
    cases h
    exact .inr ⟨y, rfl, rfl, fun _ _ => rfl⟩
  | serverEnds y clientPublic ok =>
    cases h
    exact .inr ⟨y, rfl, rfl, fun _ _ => rfl⟩
  | _ => cases h

end Session

theorem deriveKeys_ne (sha : Bytes → Bytes) (shared : Shared) (token : String) (c v : PublicKey) :
    (deriveKeys sha shared token c v).clientToServer ≠ (deriveKeys sha shared token c v).serverToClient := by
  intro h
  have hinfo := congrArg HkdfInput.info h
  have hhead : (utf8 "mobfs-e2ee-v2" ++ c.1 ++ v.1).length = (utf8 "mobfs-e2ee-v2").length + 64 := by
    simp [c.2, v.2]
  simp only [deriveKeys, List.take_left' hhead] at hinfo
  exact absurd (List.append_cancel_left hinfo) (by decide)

end Model

namespace Handshakes

/-- In every run of any number of sessions, with an attacker who holds the network and
knows the tokens in `known`: where a server with another token has returned `Ok`, a
client with that token has accepted the same pair, and where a client has, a server has
answered with the pair. Two sessions with one token and one pair of keys, whatever the
token, have the same keys, with sending and receiving swapped; and the keys of the two
directions are made from different inputs. -/
theorem handshake_agrees {Secret Shared : Type} (D : DiffieHellman Secret Shared) (sha : Bytes → Bytes) (known : List String)
    (acts : List (HandshakeAct Secret)) (s : Handshakes Secret) (h : exec (step D known) start acts = some s) :
    (∀ i token y clientPublic, s.parties i = some ⟨token, .serverEnds y clientPublic true⟩ → token ∉ known →
      ClientRan D s token clientPublic (D.pub y)) ∧
    (∀ i token x serverPublic, s.parties i = some ⟨token, .clientAuth x serverPublic true⟩ → token ∉ known →
      ServerRan D s token (D.pub x) serverPublic) ∧
    (∀ i j token p q pair, i ≠ j → s.parties i = some ⟨token, p⟩ → s.parties j = some ⟨token, q⟩ →
      p.pair D = some pair → q.pair D = some pair →
      ∃ a b, p.keys D sha token = some (a, b) ∧ q.keys D sha token = some (b, a)) ∧
    ∀ i token p a b, s.parties i = some ⟨token, p⟩ → p.keys D sha token = some (a, b) → a ≠ b := by
  have hi : HandshakeInv D known s := exec_inv _ (fun _ _ _ hi hs => hi.step hs) (start_inv D known) h
  refine ⟨hi.servers, fun i token x v hs => hi.clients i token x v true hs, ?_, ?_⟩
  · rintro i j token p q ⟨c, v⟩ hij hp hq hpp hqp
    have hone : ∀ k, p.own D = some k → q.own D = some k → False :=
      fun k hpk hqk => hij (hi.distinct i j _ _ k hp hq hpk hqk)
    rcases Session.pair_cases hpp with ⟨x, hx, hpo, hpk⟩ | ⟨y, hy, hpo, hpk⟩
    · rcases Session.pair_cases hqp with ⟨x', -, hqo, -⟩ | ⟨y, hy, -, hqk⟩
      · exact (hone c hpo hqo).elim
      · refine ⟨_, _, hpk sha token, ?_⟩
        rw [hqk, ← hx, ← hy, D.comm x y]
    · rcases Session.pair_cases hqp with ⟨x, hx, -, hqk⟩ | ⟨y', -, hqo, -⟩
      · refine ⟨_, _, hpk sha token, ?_⟩
        rw [hqk, ← hx, ← hy, D.comm x y]
      · exact (hone v hpo hqo).elim
  · intro i token p a b _ hk
    cases p with
    | clientAuth x v ok =>
      cases hk
      exact deriveKeys_ne _ _ _ _ _
    | serverHello y c =>
      cases hk
      exact (deriveKeys_ne _ _ _ _ _).symm
    | serverEnds y c ok =>
      cases hk
      exact (deriveKeys_ne _ _ _ _ _).symm
    | _ => cases hk

/-- A group with these laws: the sum of two bytes. -/
def sumGroup : DiffieHellman UInt8 UInt8 where
  pub x := ⟨x :: List.replicate 31 0, by simp⟩
  dh x k := x + k.1.headD 0
  comm x y := UInt8.add_comm x y

/-- A client and a server with one token, and between them the frames of another client
with a token the attacker knows. -/
def twoClients : List (HandshakeAct UInt8) :=
  let client := sumGroup.pub 1
  let server := sumGroup.pub 2
  [.client 0 "token" 1 true, .server 1 "token", .client 2 "stolen" 3 true,
    .read 1 (some (.clientHello client)) 2 true,
    .read 2 (some (.serverHello server (authTag "stolen" "server" (sumGroup.pub 3) server))) 0 true,
    .read 0 (some (.serverHello server (authTag "token" "server" client server))) 0 true,
    .read 1 (some (.clientAuth (authTag "token" "client" client server))) 0 true]

theorem handshake_agrees_twoClients : ∃ s, exec (step sumGroup ["stolen"]) start twoClients = some s ∧
    ClientRan sumGroup s "token" (sumGroup.pub 1) (sumGroup.pub 2) :=
  ⟨_, rfl, (handshake_agrees sumGroup id ["stolen"] twoClients _ rfl).1 1 "token" 2 (sumGroup.pub 1) rfl (by decide)⟩

end Handshakes

end Mobfs
