import Mobfs.Daemon.Confinement
import Mobfs.Daemon.Requests
import Mobfs.Lib.Resolve
/-!
# Where requests lead

`check` resolves the links of a root once, and `safe_join` joins names below it. A call
for the path that results follows whatever links are then on the way, and clients make
links with any target: the call acts on the place it comes to (`PathCall.places`).

The disk is `Mobfs.Lib.Disk`, contents apart. A request makes its calls one after the
other, up to one that fails, and then the calls for the marker of `once`. Commands are
left out: they do what they like.
-/

namespace Mobfs

open Lib

/-! ## Paths -/

def pathStep (part : List Char) : PathStep String :=
  if part = [] ∨ part = ['.'] then .here
  else if part = ['.', '.'] then .up
  else .name (String.ofList part)

def linkTarget (target : String) : LinkTarget String :=
  ⟨target.toList.head? = some '/', (target.toList.splitOn '/').map pathStep⟩

example : linkTarget "../etc/./passwd" = ⟨false, [.up, .name "etc", .here, .name "passwd"]⟩ := by decide

/-- The links that are followed on one path. -/
def maxLinks : Nat := 40

/-- The place a path leads to. -/
def placeOf (s : Disk String) (follow : Bool) (p : AbsPath) : Option AbsPath := s.walk follow maxLinks [] (p.map .name)

/-- `Path::exists`. -/
def pathExists (s : Disk String) (p : AbsPath) : Bool := ((placeOf s true p).bind s.look).isSome

/-- `canonicalize`, in the working directory `cwd`. -/
def canonicalizeOn (s : Disk String) (cwd : AbsPath) (root : String) : Option AbsPath :=
  if root = "" ∨ ¬s.RealDir cwd then none
  else (s.walk true maxLinks ((linkTarget root).base cwd) (linkTarget root).steps).filter fun p => (s.look p).isSome

section Real
variable {s : Disk String} {cwd r p : AbsPath} {root : String}

/-- A canonical root: only directories on the way, and no link. -/
structure Anchored (s : Disk String) (r : AbsPath) : Prop where
  real : s.Real r
  plain : ∀ t, s.look r ≠ some (.link t)

theorem anchored_of_canonicalize (h : canonicalizeOn s cwd root = some r) : Anchored s r ∧ (s.look r).isSome := by
  unfold canonicalizeOn at h
  split at h
  · cases h
  · rename_i hcwd
    obtain ⟨-, hcwd⟩ := not_or.1 hcwd
    obtain ⟨hw, hr⟩ := Option.filter_eq_some_iff.1 h
    have hbase : s.RealDir ((linkTarget root).base cwd) := by
      unfold LinkTarget.base
      split
      · exact Disk.realDir_nil
      · exact not_not.1 hcwd
    obtain ⟨hreal, hplain⟩ := (Disk.leads_of_walk hw).real hbase
    exact ⟨⟨hreal, hplain rfl⟩, hr⟩

theorem Anchored.placeOf (h : Anchored s r) (follow : Bool) : placeOf s follow r = some r :=
  (Disk.leads_real h.real h.plain).walk

/-- What a canonical root is in is there. -/
theorem exists_of_canonicalize (h : canonicalizeOn s cwd root = some r) (hp : p <+: r) : pathExists s p = true := by
  obtain ⟨hr, hthere⟩ := anchored_of_canonicalize h
  by_cases hpr : p = r
  · rw [hpr, pathExists, hr.placeOf]
    exact hthere
  · have hdir : s.look p = some .dir := hr.real p hp hpr
    have hp' : Anchored s p := by
      refine ⟨fun q hq _ => hr.real q (hq.trans hp) fun hqr => hpr ?_, by simp [hdir]⟩
      exact List.IsPrefix.eq_of_length_le hp (hqr ▸ hq.length_le)
    rw [pathExists, hp'.placeOf, Option.bind_some, hdir]
    rfl

end Real

/-- The disk as a request finds it. -/
def DiskView.on (s : Disk String) (cwd : AbsPath) : DiskView where
  canonicalize := canonicalizeOn s cwd
  there := pathExists s
  names p := (placeOf s true p).elim [] fun q => ((s.under q).filter (·.length = q.length + 1)).map (·.getLast?.getD "")
  walk p := ((s.under p).filter (· ≠ p)).map (·.drop p.length)
  canonical _ _ _ h hq := exists_of_canonicalize h hq

/-! ## Calls -/

inductive PathCall where
  /-- `WalkDir`. -/
  | walk (p : AbsPath)
  | readDir (p : AbsPath)
  | symlinkMetadata (p : AbsPath)
  /-- A file that is not a link, read whole. -/
  | readSmall (p : AbsPath)
  /-- `File::open` of a file that is there, to read or to write. -/
  | openFile (p : AbsPath)
  /-- `OpenOptions::new().create(true).write(true).open`, `File::create`. -/
  | createFile (p : AbsPath)
  /-- `set_permissions`, `set_file_mtime`. -/
  | setMeta (p : AbsPath)
  | createDir (p : AbsPath)
  | rename (p q : AbsPath)
  | symlink (target : String) (p : AbsPath)
  /-- `let _ = fs::remove_file`. -/
  | discard (p : AbsPath)
  /-- What `Remove` does with what it finds. -/
  | remove (p : AbsPath) (dir : Bool)
  deriving DecidableEq

namespace PathCall

def paths : PathCall → List AbsPath
  | .rename p q => [p, q]
  | .walk p | .readDir p | .symlinkMetadata p | .readSmall p | .openFile p | .createFile p | .setMeta p | .createDir p
  | .symlink _ p | .discard p | .remove p _ => [p]

/-- A link at the end of the path is followed too. -/
def follows : PathCall → Bool
  | .walk _ | .readDir _ | .openFile _ | .createFile _ | .setMeta _ => true
  | _ => false

/-- The places a call comes to, and all below. -/
def places (s : Disk String) (c : PathCall) : List AbsPath :=
  (c.paths.filterMap (placeOf s c.follows)).flatMap fun q => q :: s.under q

/-- The disk after the call, unless it fails. -/
def run (s : Disk String) (c : PathCall) : Option (Disk String) :=
  match c with
  | .walk p | .readDir p => (placeOf s true p).bind fun q => if s.look q = some .dir then some s else none
  | .symlinkMetadata _ | .readSmall _ => some s
  | .openFile p => (placeOf s true p).bind fun q => if s.look q = some .file then some s else none
  | .createFile p =>
    (placeOf s true p).bind fun q =>
      match s.look q with
      | none => some (s.add q .file)
      | some .file => some s
      | some _ => none
  | .setMeta p => (placeOf s true p).bind fun q => if (s.look q).isSome then some s else none
  | .createDir p => (placeOf s false p).bind fun q => if s.look q = none then some (s.add q .dir) else none
  | .rename p q => (placeOf s false p).bind fun a => (placeOf s false q).bind fun b => s.move a b
  | .symlink target p =>
    (placeOf s false p).bind fun q =>
      if s.look q = none ∧ target ≠ "" then some (s.add q (.link (linkTarget target))) else none
  | .discard p =>
    match placeOf s false p with
    | none => some s
    | some q => some (if s.look q = some .dir then s else s.drop q)
  | .remove p dir =>
    match placeOf s false p with
    | none => some s
    | some q =>
      match s.look q with
      | none => some s
      | some .dir => if dir then some (s.dropTree q) else none
      | some _ => some (s.drop q)

end PathCall

/-! ## Requests -/

section Calls
variable (v : DiskView) (pid : Nat)

def createDirAllCalls (p : AbsPath) : List PathCall := (createdDirs v p).map .createDir

def setModeCalls (mode : Nat) (p : AbsPath) : List PathCall := if mode = 0 then [] else [.setMeta p]

def joined (r : AbsPath) (rel : String) (f : AbsPath → List PathCall) : List PathCall :=
  (safeJoin r rel).toOption.elim [] f

namespace Request

/-- The root a request names, commands apart. -/
def root : Request → Option String
  | .hello | .setClientId _ | .run _ _ => none
  | .snapshot root _ | .snapshotMeta root _ _ | .watchChanges root _ _ _ _ | .search root _ _ _ | .statFs root
  | .listDir root _ | .stat root _ | .readFile root _ | .readFileChunk root _ _ _ | .readRange root _ _ _
  | .fsync root _ | .setMetadata root _ _ _ _ | .readSmallFiles root _ _ _ | .writeFile root _ _ _
  | .writeFileStart root _ _ | .writeFileChunk root _ _ _ _ | .writeFileOffset root _ _ | .writeFileFinish root _ _ _ _
  | .writeFileAt root _ _ _ | .writeFileAtBinary root _ _ _ | .writeFileAtStream root _ _ _ _ | .truncate root _ _ _
  | .symlink root _ _ _ | .rename root _ _ _ | .mkdir root _ _ | .remove root _ _ _ => some root

/-- The calls of a request below the root `r`, in order. `intact`: the upload has the
checksum. `StatFs` and `WriteFileOffset` ask for numbers and open nothing. -/
def callsIn (r : AbsPath) (intact : Bool) : Request → List PathCall
  | .snapshot _ _ | .snapshotMeta _ _ _ | .watchChanges _ _ _ _ _ | .search _ _ _ _ => [.walk r]
  | .listDir _ rel => joined r rel fun p => [.readDir p]
  | .stat _ rel => joined r rel fun p => [.symlinkMetadata p]
  | .readFile _ rel | .readFileChunk _ rel _ _ | .readRange _ rel _ _ | .fsync _ rel => joined r rel fun p => [.openFile p]
  | .readSmallFiles _ rels _ _ => (joinEach r rels).map .readSmall
  | .writeFile _ rel _ mode =>
    joined r rel fun p =>
      let temp := AbsPath.atomicTempPath pid p
      createDirAllCalls v p.dropLast ++ .createFile temp :: (setModeCalls mode temp ++ [.rename temp p])
  | .writeFileStart _ rel uploadId =>
    joined r rel fun p =>
      createDirAllCalls v p.dropLast ++ (AbsPath.uploadTempPath p uploadId).toList.flatMap fun temp =>
        if v.there temp then [] else [.createFile temp]
  | .writeFileChunk _ rel uploadId _ _ =>
    joined r rel fun p => (AbsPath.uploadTempPath p uploadId).toList.map .openFile
  | .writeFileFinish _ rel uploadId _ mode =>
    joined r rel fun p => (AbsPath.uploadTempPath p uploadId).toList.flatMap fun temp =>
      .openFile temp :: if intact then setModeCalls mode temp ++ [.rename temp p] else [.discard temp]
  | .writeFileAt _ rel _ _ | .writeFileAtBinary _ rel _ _ | .writeFileAtStream _ rel _ _ _ | .truncate _ rel _ _ =>
    joined r rel fun p => createDirAllCalls v p.dropLast ++ [.createFile p]
  | .rename _ src dst _ =>
    joined r src fun p => joined r dst fun q => createDirAllCalls v q.dropLast ++ [.symlinkMetadata p, .rename p q]
  | .symlink _ rel target _ =>
    joined r rel fun p => createDirAllCalls v p.dropLast ++ [.discard p, .symlink target p]
  | .setMetadata _ rel mode modified _ =>
    joined r rel fun p =>
      setModeCalls (mode.getD 0) p ++ if 0 < modified.getD 0 then [.setMeta p] else []
  | .mkdir _ rel _ => joined r rel fun p => createDirAllCalls v p
  | .remove _ rel dir _ => joined r rel fun p => [.remove p dir]
  | .hello | .setClientId _ | .run _ _ | .statFs _ | .writeFileOffset _ _ _ => []

/-- The op id, of the requests that look for a marker. -/
def opId : Request → Option String
  | .writeFileAtStream _ _ _ _ opId => opId
  | r => r.onceId

/-- An upload to the root itself: its temporary file is beside the root. -/
def AtRoot (r : Request) : Prop := ∃ root, r.staged = some (root, "")

/-- A link with the target leads down, wherever it is. -/
def LinksDown : Request → Prop
  | .symlink _ _ target _ => (linkTarget target).Down
  | _ => True

end Request

end Calls

/-! ## Runs -/

/-- A request as it comes, and how it fares. -/
structure Serving where
  request : Request
  /-- The working directory. -/
  cwd : AbsPath
  intact : Bool
  /-- The calls that are let through: none, where the marker is found. -/
  calls : Nat
  /-- The calls for the marker, and the stale ones it finds. -/
  markerCalls : Nat
  stale : List String

/-- The calls that are made, each with the disk it finds. -/
def made : List PathCall → Disk String → List (PathCall × Disk String)
  | [], _ => []
  | c :: cs, s => (c, s) :: (c.run s).elim [] (made cs)

def runAll : List PathCall → Disk String → Disk String
  | [], s => s
  | c :: cs, s => (c.run s).elim s (runAll cs)

section Run
variable (policy : RootPolicy) (pid : Nat) (tempDir : AbsPath) (pathHash : AbsPath → String)

/-- `mark_op_done`. -/
def markCalls (v : DiskView) (r : AbsPath) (opId : String) (stale : List String) : List PathCall :=
  let dir := tempDir ++ ["mobfsd", "ops", pathHash r]
  let safe := String.ofList (opId.toList.filter fun c => c.isDigit || ('a' ≤ c && c ≤ 'f') || ('A' ≤ c && c ≤ 'F'))
  createDirAllCalls v dir ++ (stale.map fun name => .discard (dir ++ [name])) ++
    [.createFile (if safe = "" then dir else dir ++ [safe])]

namespace Serving

def requestCalls (e : Serving) (s : Disk String) : List PathCall :=
  ((e.request.root.bind (policy.rootOf (.on s e.cwd))).elim []
    fun r => e.request.callsIn (.on s e.cwd) pid r e.intact).take e.calls

def marks (e : Serving) (s : Disk String) : List PathCall :=
  ((e.request.root.bind (policy.rootOf (.on s e.cwd))).elim []
    fun r => e.request.opId.elim [] fun opId => markCalls tempDir pathHash (.on s e.cwd) r opId e.stale).take e.markerCalls

def serve (e : Serving) (s : Disk String) : Disk String :=
  let s' := runAll (e.requestCalls policy pid s) s
  runAll (e.marks policy tempDir pathHash s') s'

end Serving

/-- The calls of a run of requests, each with its request and the disk it finds. -/
def history : List Serving → Disk String → List (Serving × PathCall × Disk String)
  | [], _ => []
  | e :: es, s =>
    ((made (e.requestCalls policy pid s) s).map fun x => (e, x)) ++ history es (e.serve policy pid tempDir pathHash s)

end Run

end Mobfs
