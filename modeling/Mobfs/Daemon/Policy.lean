import Mobfs.Protocol
/-!
# What the daemon asks of the operating system

`Os` is the part of `std::fs` that the daemon's streamed write uses. Every call
may fail, and may find the disk changed by anyone since the last one, so a call
is a function of a state `σ` about which nothing is assumed.

`RootPolicy.check` and `safeJoin` decide which path a request may touch.
-/

namespace Mobfs

/-- An absolute path without `.` and `..`, by its names. -/
abbrev AbsPath := List String

/-- A fallible call on the state `σ`. -/
abbrev Io (σ α : Type) := σ → Except MobfsError α × σ

structure Os (σ : Type) where
  canonicalize : String → Io σ AbsPath
  /-- `Path::exists`: an error counts as absent. -/
  exists_ : AbsPath → σ → Bool × σ
  createDirAll : AbsPath → Io σ Unit
  /-- `OpenOptions::new().create(true).write(true).truncate(false).open`. -/
  openWrite : AbsPath → Io σ Nat
  seek : Nat → Nat → Io σ Unit
  writeAll : Nat → Bytes → Io σ Unit
  /-- `fs::write`. -/
  write : AbsPath → Bytes → Io σ Unit
  readDir : AbsPath → Io σ (List AbsPath)
  /-- Seconds since the last change, where the system can tell. -/
  elapsed : AbsPath → σ → Option Nat × σ
  removeFile : AbsPath → Io σ Unit
  tempDir : AbsPath
  /-- The hexadecimal SHA-256 of a path's text. -/
  pathHash : AbsPath → String
  /-- The test hook `MOBFS_TEST_DROP_ONCE`. -/
  shouldDropRequest : Request → σ → Bool × σ

structure RootPolicy where
  allowRoots : List AbsPath
  allowAnyRoot : Bool

def displayPath (p : AbsPath) : String := "/" ++ "/".intercalate p

def RootPolicy.check {σ : Type} (policy : RootPolicy) (os : Os σ) (root : String) : Io σ AbsPath := fun s =>
  match os.canonicalize root s with
  | (.error e, s) => (.error e, s)
  | (.ok path, s) =>
    if policy.allowAnyRoot || policy.allowRoots.any (·.isPrefixOf path) then (.ok path, s)
    else (.error (.remote ("remote root " ++ displayPath path ++ " is not allowed by mobfsd")), s)

/-- `Path::components`: a leading slash and a leading `.` stand for themselves,
other empty and `.` parts vanish. -/
inductive Component where
  | rootDir
  | curDir
  | parentDir
  | normal (name : String)
  deriving DecidableEq, Repr

def component (first : Bool) (part : List Char) : Option Component :=
  if part = [] then none
  else if part = ['.'] then (if first then some .curDir else none)
  else if part = ['.', '.'] then some .parentDir
  else some (.normal (String.ofList part))

def components (path : String) : List Component :=
  match path.toList.splitOn '/' with
  | [] => []
  | [] :: parts =>
    if path = "" then [] else .rootDir :: parts.filterMap (component false)
  | first :: parts => (component true first).toList ++ parts.filterMap (component false)

def Component.name? : Component → Option String
  | .normal name => some name
  | _ => none

def safeJoin (root : AbsPath) (rel : String) : Except MobfsError AbsPath :=
  match (components rel).mapM Component.name? with
  | some names => .ok (root ++ names)
  | none => .error (.invalidPath rel)

example : safeJoin ["tmp", "root"] "src/lib.rs" = .ok ["tmp", "root", "src", "lib.rs"] := by decide
example : safeJoin ["tmp", "root"] "a/../../secret" = .error (.invalidPath "a/../../secret") := by decide

end Mobfs
