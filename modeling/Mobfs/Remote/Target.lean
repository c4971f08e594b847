import Mathlib.Data.List.DropRight
import Mathlib.Data.String.Basic
import Mobfs.Lib.Splits
/-!
# Remote specifications

`parse_remote` reads a specification, `remote_source_spec` writes one for the builder, which
reads it again. A specification of a daemon survives that; one of another backend does not, since
what is written has no scheme, and the path `/` is trimmed to nothing (`parsed_again_iff`).
-/

namespace Mobfs

open Lib

inductive StorageBackend where
  | daemon
  | r2
  | s3
  | icloud
  | gdrive
  deriving DecidableEq, Repr

structure RemoteTarget where
  backend : StorageBackend
  host : String
  user : String
  path : String
  deriving DecidableEq, Repr

/-- The backend that a scheme stands for. -/
def backendOf (scheme : String) : Option StorageBackend :=
  if scheme = "icloud" then some .icloud
  else if scheme = "gdrive" ∨ scheme = "google-drive" then some .gdrive
  else if scheme = "r2" then some .r2
  else if scheme = "s3" then some .s3
  else if scheme = "file" then some .icloud
  else none

/-- `trim_end_matches('/')`. -/
def trimSlashes (path : List Char) : List Char := path.rdropWhile (· = '/')

/-- The path is the home directory or below it. -/
def inHome (path : List Char) : Bool := path = ['/', '~'] || ['/', '~', '/'].isPrefixOf path

/-- `expand_home`, where `dirs::home_dir` returns `home`. -/
def expandHome (home : Option String) (path : List Char) : String :=
  match home with
  | some home => if inHome path then home ++ String.ofList (path.drop 2) else String.ofList (trimSlashes path)
  | none => String.ofList (trimSlashes path)

/-- The path of a specification with a scheme. -/
def rooted (rest : List Char) : List Char := if rest.head? = some '/' then rest else '/' :: rest

def expectedRemote : String := "expected [user@]host:/absolute/path or backend:///absolute/path"

/-- The user and the host of a daemon. -/
def splitUser (hostPart : List Char) : List Char × List Char :=
  match rsplitOnce ['@'] hostPart with
  | some (user, host) => if user ≠ [] ∧ host ≠ [] then (user, host) else ([], hostPart)
  | none => ([], hostPart)

/-- `parse_remote`; an error has the text of its `InvalidRemote`. -/
def parseRemote (home : Option String) (input : String) : Except String RemoteTarget :=
  match splitOnce [':', '/', '/'] input.toList with
  | some (scheme, rest) =>
    match backendOf (String.ofList scheme) with
    | some backend => .ok ⟨backend, String.ofList scheme, "", expandHome home (rooted rest)⟩
    | none => .error ("unsupported backend scheme: " ++ String.ofList scheme)
  | none =>
    match splitOnce [':'] input.toList with
    | none => .error expectedRemote
    | some (hostPart, path) =>
      if hostPart = [] ∨ path = [] ∨ path.head? ≠ some '/' then .error expectedRemote
      else
        let (user, host) := splitUser hostPart
        .ok ⟨.daemon, String.ofList host, String.ofList user, String.ofList (trimSlashes path)⟩

/-- `remote_source_spec`, of the configuration that a target is copied to. -/
def remoteSourceSpec (t : RemoteTarget) : String :=
  (if t.user = "" then t.host else t.user ++ "@" ++ t.host) ++ ":" ++ t.path

/-! ## What a specification names -/

/-- The part of a specification that is its path. -/
def pathPart (input : String) : List Char :=
  match splitOnce [':', '/', '/'] input.toList with
  | some (_, rest) => rooted rest
  | none => ((splitOnce [':'] input.toList).map (·.2)).getD []

/-- The names on a path, which are all that matters for where it leads. -/
def names (path : List Char) : List (List Char) := (path.splitOn '/').filter (· ≠ [])

/-- The target has an absolute path to the place that was given, and is read again from what is
written, wherever that is. -/
structure ReadsBack (input : String) (t : RemoteTarget) : Prop where
  absolute : t.path.toList.head? = some '/'
  place : names t.path.toList = names (pathPart input)
  again : ∀ home, parseRemote home (remoteSourceSpec t) = .ok t

/-! ## Where the round trip succeeds -/

theorem backendOf_ne_daemon {scheme : String} {b : StorageBackend} (h : backendOf scheme = some b) : b ≠ .daemon := by
  unfold backendOf at h
  rintro rfl
  split_ifs at h <;> cases h

theorem length_trimSlashes_le (path : List Char) : (trimSlashes path).length ≤ path.length :=
  (List.rdropWhile_prefix _ path).length_le

theorem length_rooted_le (rest : List Char) : (rooted rest).length ≤ rest.length + 1 := by
  unfold rooted
  split
  · omega
  · rw [List.length_cons]

theorem names_trimSlashes (path : List Char) : names (trimSlashes path) = names path := by
  induction path using List.reverseRecOn with
  | nil => rfl
  | append_singleton path c ih =>
    by_cases hc : c = '/'
    · have hsplit : (path ++ [c]).splitOn '/' = path.splitOn '/' ++ [[]] := by
        rw [hc, List.splitOn_append_cons_self, List.splitOn_nil]
      rw [trimSlashes, List.rdropWhile_concat_pos _ _ _ (by simpa using hc), ← trimSlashes, ih, names, names, hsplit,
        List.filter_append]
      simp
    · rw [trimSlashes, List.rdropWhile_concat_neg _ _ _ (by simpa using hc)]

theorem toList_spec (t : RemoteTarget) : (remoteSourceSpec t).toList =
    (if t.user = "" then t.host.toList else t.user.toList ++ '@' :: t.host.toList) ++ ':' :: t.path.toList := by
  unfold remoteSourceSpec
  split <;> simp

/-- What is written has no scheme: it names a daemon, or is read as a shorter path. -/
theorem not_read_again {t : RemoteTarget} (hb : t.backend ≠ .daemon) (huser : t.user = "") :
    parseRemote none (remoteSourceSpec t) ≠ .ok t := by
  intro h
  have hspec := toList_spec t
  rw [if_pos huser] at hspec
  unfold parseRemote at h
  split at h
  · rename_i scheme rest hsplit
    split at h
    · cases h
      have happ := splitOnce_eq_append hsplit
      rw [hspec] at happ
      simp only [String.toList_ofList, expandHome, List.append_assoc, List.append_cancel_left_eq, List.cons_append,
        List.nil_append, List.cons.injEq, true_and] at happ
      have hlen := congrArg List.length happ
      have h1 := length_trimSlashes_le (rooted rest)
      have h2 := length_rooted_le rest
      simp only [List.length_cons] at hlen
      omega
    · cases h
  · split at h
    · cases h
    · split at h
      · cases h
      · cases h
        exact hb rfl

theorem splitUser_eq (hostPart : List Char) :
    (if (splitUser hostPart).1 = [] then (splitUser hostPart).2 else (splitUser hostPart).1 ++ '@' :: (splitUser hostPart).2) =
      hostPart := by
  unfold splitUser
  split
  · rename_i user host hsplit
    split
    · rename_i hne
      rw [if_neg hne.1]
      simpa using (rsplitOnce_eq_append hsplit).symm
    · rfl
  · rfl

section Daemon
variable {input : String} {hostPart path : List Char}

/-- The target of a daemon. -/
def daemonTarget (hostPart path : List Char) : RemoteTarget :=
  ⟨.daemon, String.ofList (splitUser hostPart).2, String.ofList (splitUser hostPart).1, String.ofList (trimSlashes path)⟩

theorem toList_daemonSpec : (remoteSourceSpec (daemonTarget hostPart path)).toList = hostPart ++ ':' :: trimSlashes path := by
  rw [toList_spec]
  simp only [daemonTarget, String.toList_ofList, String.ofList_eq_empty_iff, splitUser_eq]

theorem daemon_read_again (hs : splitOnce [':', '/', '/'] input.toList = none)
    (hsplit : splitOnce [':'] input.toList = some (hostPart, path)) (hhost : hostPart ≠ []) (hpath : path.head? = some '/')
    (hne : trimSlashes path ≠ []) (home : Option String) :
    parseRemote home (remoteSourceSpec (daemonTarget hostPart path)) = .ok (daemonTarget hostPart path) := by
  have hinput : input.toList = hostPart ++ ':' :: path := by simpa using splitOnce_eq_append hsplit
  obtain ⟨r, hr⟩ : trimSlashes path <+: path := List.rdropWhile_prefix _ path
  have hnone : splitOnce [':', '/', '/'] (hostPart ++ ':' :: trimSlashes path) = none := by
    have hpre : hostPart ++ ':' :: trimSlashes path <+: input.toList := ⟨r, by rw [List.append_assoc, List.cons_append, hr, hinput]⟩
    rw [splitOnce_eq_none] at hs ⊢
    exact fun hin => hs (hin.trans hpre.isInfix)
  have hhead : (trimSlashes path).head? = some '/' := by
    rw [← hr, List.head?_append_of_ne_nil _ hne] at hpath
    exact hpath
  have htrim : trimSlashes (trimSlashes path) = trimSlashes path := List.rdropWhile_idempotent _ _
  unfold parseRemote
  rw [toList_daemonSpec, hnone, splitOnce_append (splitOnce_not_mem hsplit)]
  simp only
  rw [if_neg (by simp [hhost, hne, hhead]), htrim]
  rfl

/-- The path `/` is all that is trimmed away: two slashes after the host would be a scheme's. -/
theorem trimSlashes_eq_nil (hs : splitOnce [':', '/', '/'] input.toList = none)
    (hsplit : splitOnce [':'] input.toList = some (hostPart, path)) (hpath : path.head? = some '/') :
    trimSlashes path = [] ↔ path = ['/'] := by
  refine ⟨fun h => ?_, fun h => by rw [h]; rfl⟩
  rw [trimSlashes, List.rdropWhile_eq_nil_iff] at h
  obtain ⟨r, rfl⟩ : ∃ r, path = '/' :: r := by
    cases path with
    | nil => cases hpath
    | cons c r => exact ⟨r, by rw [Option.some.inj hpath]⟩
  cases r with
  | nil => rfl
  | cons c r =>
    have hc : c = '/' := by simpa using h c (by simp)
    refine absurd ?_ (splitOnce_eq_none.1 hs)
    rw [splitOnce_eq_append hsplit, hc]
    exact ⟨hostPart, r, by simp⟩

end Daemon

theorem parseRemote_cases {home : Option String} {input : String} {t : RemoteTarget} (h : parseRemote home input = .ok t) :
    (∃ scheme rest, splitOnce [':', '/', '/'] input.toList = some (scheme, rest) ∧ t.backend ≠ .daemon ∧ t.user = "" ∧
        t.path = expandHome home (rooted rest)) ∨
      ∃ hostPart path, splitOnce [':', '/', '/'] input.toList = none ∧
        splitOnce [':'] input.toList = some (hostPart, path) ∧ hostPart ≠ [] ∧ path.head? = some '/' ∧
        t = daemonTarget hostPart path := by
  unfold parseRemote at h
  split at h
  · rename_i scheme rest hsplit
    split at h
    · cases h
      exact .inl ⟨scheme, rest, hsplit, backendOf_ne_daemon ‹_›, rfl, rfl⟩
    · cases h
  · rename_i hnone
    split at h
    · cases h
    · rename_i hostPart path hsplit
      split at h
      · cases h
      · rename_i hok
        cases h
        simp only [not_or, not_not] at hok
        exact .inr ⟨hostPart, path, hnone, hsplit, hok.1, hok.2.2, rfl⟩

/-- A specification that is accepted survives the round trip if and only if it has no scheme and its
path is not the root. -/
theorem parsed_again_iff (home : Option String) (input : String) (t : RemoteTarget) (h : parseRemote home input = .ok t) :
    ReadsBack input t ↔ ¬ [':', '/', '/'] <:+: input.toList ∧ pathPart input ≠ ['/'] := by
  rcases parseRemote_cases h with ⟨scheme, rest, hsplit, hb, huser, -⟩ | ⟨hostPart, path, hs, hsplit, hhost, hpath, rfl⟩
  · have hscheme : [':', '/', '/'] <:+: input.toList := by
      by_contra hin
      rw [← splitOnce_eq_none, hsplit] at hin
      cases hin
    exact ⟨fun hr => absurd (hr.again none) (not_read_again hb huser), fun hr => absurd hscheme hr.1⟩
  · have hpart : pathPart input = path := by rw [pathPart, hs, hsplit]; rfl
    rw [hpart, ne_eq, ← trimSlashes_eq_nil hs hsplit hpath]
    constructor
    · intro hr
      refine ⟨splitOnce_eq_none.1 hs, fun hnil => ?_⟩
      have hslash := hr.absolute
      rw [daemonTarget, String.toList_ofList, hnil] at hslash
      cases hslash
    · rintro ⟨-, hne⟩
      refine ⟨?_, ?_, daemon_read_again hs hsplit hhost hpath hne⟩
      · obtain ⟨r, hr⟩ : trimSlashes path <+: path := List.rdropWhile_prefix _ path
        rw [← hr, List.head?_append_of_ne_nil _ hne] at hpath
        rw [daemonTarget, String.toList_ofList]
        exact hpath
      · rw [daemonTarget, String.toList_ofList, hpart]
        exact names_trimSlashes path

theorem parsed_again_user : ReadsBack "u@v@h:/a//" ⟨.daemon, "h", "u@v", "/a"⟩ :=
  (parsed_again_iff none "u@v@h:/a//" ⟨.daemon, "h", "u@v", "/a"⟩ rfl).2 (by decide)

/-- The root of a host, and a folder in iCloud. -/
theorem root_and_folder_lost :
    (∃ t, parseRemote none "h:/" = .ok t ∧ t.path = "" ∧ parseRemote none (remoteSourceSpec t) = .error expectedRemote ∧
      ¬ ReadsBack "h:/" t) ∧
      ∃ t t', parseRemote none "icloud:///a" = .ok t ∧ parseRemote none (remoteSourceSpec t) = .ok t' ∧
        t.backend = .icloud ∧ t'.backend = .daemon ∧ ¬ ReadsBack "icloud:///a" t := by
  refine ⟨⟨⟨.daemon, "h", "", ""⟩, rfl, rfl, rfl, fun h => ?_⟩,
    ⟨⟨.icloud, "icloud", "", "/a"⟩, ⟨.daemon, "icloud", "", "/a"⟩, rfl, rfl, rfl, rfl, fun h => ?_⟩⟩
  · exact absurd h.absolute (by decide)
  · exact absurd (h.again none) (not_read_again (by decide) rfl)

end Mobfs
