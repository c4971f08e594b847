import Mathlib.Data.List.Infix
import Mobfs.Daemon.Policy
/-!
# The paths a request touches

`check` allows a root, `safe_join` joins a path below it, and what the handlers then
touch is the path, its missing parents and, for an upload, a temporary file beside it.
Of the empty path, the root itself, that file is beside the root: outside, where nothing
above the root is allowed (`confined_iff`).
-/

namespace Mobfs

/-- The disk as a request finds it. What `canonicalize` returns is there, and every
directory it is in. -/
structure DiskView where
  canonicalize : String → Option AbsPath
  there : AbsPath → Bool
  /-- The names in a directory. -/
  names : AbsPath → List String
  /-- All that is below a directory, links not followed, by the names from there on. -/
  walk : AbsPath → List (List String)
  canonical : ∀ root p q, canonicalize root = some p → q <+: p → there q = true

namespace RootPolicy

def allows (policy : RootPolicy) (root : AbsPath) : Bool :=
  policy.allowAnyRoot || policy.allowRoots.any (·.isPrefixOf root)

/-- `check`, on such a disk. -/
def rootOf (policy : RootPolicy) (v : DiskView) (root : String) : Option AbsPath :=
  (v.canonicalize root).filter policy.allows

/-- The path starts with an allowed root. -/
def Confines (policy : RootPolicy) (p : AbsPath) : Prop := ∃ allowed ∈ policy.allowRoots, allowed <+: p

end RootPolicy

/-! ## Temporary files -/

namespace AbsPath

/-- `with_file_name`; the root of the file system has no name, and the new one is pushed. -/
def withFileName (p : AbsPath) (name : String) : AbsPath := p.dropLast ++ [name]

def fileName (p : AbsPath) : String := p.getLast?.getD "file"

def uploadTempPath (p : AbsPath) (uploadId : String) : Option AbsPath :=
  if uploadId.toList.all fun c => c.isAlphanum || c = '-' || c = '_' then
    some (withFileName p ("." ++ fileName p ++ ".mobfs-upload-" ++ uploadId))
  else none

def atomicTempPath (pid : Nat) (p : AbsPath) : AbsPath :=
  withFileName p ("." ++ fileName p ++ ".mobfs-tmp-" ++ toString pid)

end AbsPath

/-! ## Requests -/

section Touched
variable (policy : RootPolicy) (v : DiskView) (pid : Nat)

/-- What `create_dir_all` makes. -/
def createdDirs (p : AbsPath) : List AbsPath := p.inits.filter fun q => !v.there q

def onRoot (root : String) (f : AbsPath → List AbsPath) : List AbsPath := (policy.rootOf v root).elim [] f

def onPath (root rel : String) (f : AbsPath → List AbsPath) : List AbsPath :=
  onRoot policy v root fun r => (safeJoin r rel).toOption.elim [] f

/-- A directory and all that is below it. -/
def tree (p : AbsPath) : List AbsPath := p :: (v.walk p).map (p ++ ·)

/-- The paths of `ReadSmallFiles`, up to the first that is not valid. -/
def joinEach (r : AbsPath) : List String → List AbsPath
  | [] => []
  | rel :: rels =>
    match safeJoin r rel with
    | .ok p => p :: joinEach r rels
    | .error _ => []

namespace Request

/-- The temporary file a request opens or creates for its path. -/
def temp (p : AbsPath) : Request → Option AbsPath
  | .writeFile .. => some (AbsPath.atomicTempPath pid p)
  | .writeFileStart _ _ uploadId => (AbsPath.uploadTempPath p uploadId).filter fun t => !v.there t
  | .writeFileChunk _ _ uploadId _ _ | .writeFileFinish _ _ uploadId _ _ => AbsPath.uploadTempPath p uploadId
  | _ => none

/-- The paths that the calls for a request open, create, rename or remove. A command and
the markers of `once` apart. -/
def touched (r : Request) : List AbsPath :=
  match r with
  | .snapshot root _ | .snapshotMeta root _ _ | .watchChanges root _ _ _ _ | .search root _ _ _ =>
    onRoot policy v root (tree v)
  | .statFs root => onRoot policy v root fun p => [p]
  | .listDir root rel => onPath policy v root rel fun p => p :: (v.names p).map fun name => p ++ [name]
  | .stat root rel | .readFile root rel | .readFileChunk root rel _ _ | .readRange root rel _ _ | .fsync root rel
  | .setMetadata root rel _ _ _ => onPath policy v root rel fun p => [p]
  | .readSmallFiles root rels _ _ => onRoot policy v root fun p => joinEach p rels
  | .writeFile root rel _ _ =>
    onPath policy v root rel fun p => createdDirs v p.dropLast ++ (r.temp v pid p).toList ++ [p]
  | .writeFileStart root rel _ => onPath policy v root rel fun p => createdDirs v p.dropLast ++ (r.temp v pid p).toList
  | .writeFileChunk root rel _ _ _ => onPath policy v root rel fun p => (r.temp v pid p).toList
  | .writeFileFinish root rel _ _ _ =>
    onPath policy v root rel fun p => (r.temp v pid p).elim [] fun temp => [temp, p]
  | .writeFileAt root rel _ _ | .writeFileAtBinary root rel _ _ | .writeFileAtStream root rel _ _ _ | .truncate root rel _ _
  | .symlink root rel _ _ => onPath policy v root rel fun p => createdDirs v p.dropLast ++ [p]
  | .rename root src dst _ =>
    onPath policy v root src fun p => onPath policy v root dst fun q => createdDirs v q.dropLast ++ [p, q]
  | .mkdir root rel _ => onPath policy v root rel (createdDirs v)
  | .remove root rel _ _ => onPath policy v root rel (tree v)
  -- `WriteFileOffset` asks for the size of the temporary file and opens nothing.
  | .hello | .setClientId _ | .run _ _ | .writeFileOffset _ _ _ => []

/-- The root and path of a request that goes through a temporary file. -/
def staged : Request → Option (String × String)
  | .writeFile root rel _ _ | .writeFileStart root rel _ | .writeFileChunk root rel _ _ _ | .writeFileFinish root rel _ _ _ =>
    some (root, rel)
  | _ => none

end Request

end Touched

/-! ## Joined paths -/

theorem component_isSome {part : List Char} (h : part ≠ []) : (component true part).isSome = true := by
  rw [component, if_neg h]
  split
  · rfl
  · split
    · rfl
    · rfl

/-- Only the empty path has no components. -/
theorem components_eq_nil {path : String} : components path = [] ↔ path = "" := by
  constructor
  · intro h
    unfold components at h
    split at h
    · rename_i hs
      exact absurd hs (List.splitOn_ne_nil _ _)
    · split at h
      · assumption
      · cases h
    · rename_i first parts hne hs
      have hfirst : first ≠ [] := hne
      obtain ⟨c, hc⟩ := Option.isSome_iff_exists.1 (component_isSome hfirst)
      simp [hc] at h
  · rintro rfl
    decide

/-- A joined path is below the root, or the root where the path is empty. -/
theorem safeJoin_eq_ok {r p : AbsPath} {rel : String} (h : safeJoin r rel = .ok p) :
    ∃ names, p = r ++ names ∧ (names = [] ↔ rel = "") := by
  unfold safeJoin at h
  split at h
  · rename_i names hnames
    cases h
    refine ⟨names, rfl, ?_⟩
    rw [← components_eq_nil]
    constructor
    · rintro rfl
      cases hc : components rel with
      | nil => rfl
      | cons c cs =>
        rw [hc, List.mapM_cons] at hnames
        cases hn : c.name? <;> cases ht : cs.mapM Component.name? <;> simp [hn, ht] at hnames
    · intro hc
      rw [hc] at hnames
      cases hnames
      rfl
  · cases h

section Below
variable {policy : RootPolicy} {v : DiskView} {root rel : String} {r p q : AbsPath}

theorem confines_of_prefix (hr : policy.Confines r) (h : r <+: p) : policy.Confines p := by
  obtain ⟨allowed, ha, hpre⟩ := hr
  exact ⟨allowed, ha, hpre.trans h⟩

theorem confines_of_rootOf (hany : policy.allowAnyRoot = false) (h : policy.rootOf v root = some r) : policy.Confines r := by
  obtain ⟨-, hr⟩ := Option.filter_eq_some_iff.1 h
  simpa [RootPolicy.allows, hany, RootPolicy.Confines] using hr

theorem there_of_rootOf (h : policy.rootOf v root = some r) (hq : q <+: r) : v.there q = true :=
  v.canonical root r q (Option.filter_eq_some_iff.1 h).1 hq

/-- The directories that are made on the way to a path below the root are below it too. -/
theorem prefix_of_createdDirs (h : policy.rootOf v root = some r) (hr : r <+: p) {d : AbsPath} (hd : d <+: p)
    (hq : q ∈ createdDirs v d) : r <+: q := by
  obtain ⟨hin, hnot⟩ := List.mem_filter.1 hq
  have hpre : q <+: p := ((List.mem_inits _ _).1 hin).trans hd
  rcases List.prefix_or_prefix_of_prefix hpre hr with hqr | hrq
  · simp [there_of_rootOf h hqr] at hnot
  · exact hrq

theorem mem_elim {o : Option AbsPath} {f : AbsPath → List AbsPath} : q ∈ o.elim [] f ↔ ∃ t, o = some t ∧ q ∈ f t := by
  cases o <;> simp

theorem mem_onRoot {f : AbsPath → List AbsPath} :
    q ∈ onRoot policy v root f ↔ ∃ r, policy.rootOf v root = some r ∧ q ∈ f r :=
  mem_elim

theorem mem_onPath {f : AbsPath → List AbsPath} :
    q ∈ onPath policy v root rel f ↔ ∃ r p, policy.rootOf v root = some r ∧ safeJoin r rel = .ok p ∧ q ∈ f p := by
  rw [onPath, mem_onRoot]
  constructor
  · rintro ⟨r, hr, hq⟩
    cases hp : safeJoin r rel with
    | error e => simp [hp, Except.toOption] at hq
    | ok p => exact ⟨r, p, hr, hp, by simpa [hp, Except.toOption] using hq⟩
  · rintro ⟨r, p, hr, hp, hq⟩
    exact ⟨r, hr, by simpa [hp, Except.toOption] using hq⟩

theorem prefix_of_safeJoin (h : safeJoin r rel = .ok p) : r <+: p := by
  obtain ⟨names, rfl, -⟩ := safeJoin_eq_ok h
  exact List.prefix_append _ _

theorem prefix_of_joinEach {rels : List String} (h : q ∈ joinEach r rels) : r <+: q := by
  induction rels with
  | nil => cases h
  | cons rel rels ih =>
    unfold joinEach at h
    split at h
    · rename_i p hp
      rcases List.mem_cons.1 h with rfl | h
      · exact prefix_of_safeJoin hp
      · exact ih h
    · cases h

theorem prefix_of_tree (h : q ∈ tree v p) : p <+: q := by
  rcases List.mem_cons.1 h with rfl | h
  · exact List.prefix_rfl
  · obtain ⟨names, -, rfl⟩ := List.mem_map.1 h
    exact List.prefix_append _ _

/-- A temporary file of a path below the root is below it. -/
theorem prefix_of_withFileName {names : List String} (hn : names ≠ []) (name : String) :
    r <+: AbsPath.withFileName (r ++ names) name := by
  rw [AbsPath.withFileName, List.dropLast_append_of_ne_nil hn, List.append_assoc]
  exact List.prefix_append _ _

theorem eq_withFileName_of_temp {pid : Nat} {request : Request} (h : request.temp v pid p = some q) :
    ∃ name, q = AbsPath.withFileName p name := by
  have hupload : ∀ uploadId t, AbsPath.uploadTempPath p uploadId = some t → ∃ name, t = AbsPath.withFileName p name := by
    intro uploadId t ht
    unfold AbsPath.uploadTempPath at ht
    split at ht
    · cases ht
      exact ⟨_, rfl⟩
    · cases ht
  cases request with
  | writeFile =>
    cases h
    exact ⟨_, rfl⟩
  | writeFileStart => exact hupload _ _ (Option.filter_eq_some_iff.1 h).1
  | writeFileChunk => exact hupload _ _ h
  | writeFileFinish => exact hupload _ _ h
  | _ => cases h

end Below

/-! ## Confinement -/

section Confined
variable {policy : RootPolicy} {v : DiskView} {pid : Nat} {request : Request} {q : AbsPath}

/-- What a request touches is confined, its temporary file apart. -/
theorem touched_cases (hany : policy.allowAnyRoot = false) (h : q ∈ request.touched policy v pid) :
    policy.Confines q ∨ ∃ root rel r p, request.staged = some (root, rel) ∧ policy.rootOf v root = some r ∧
      safeJoin r rel = .ok p ∧ request.temp v pid p = some q := by
  have hconf : ∀ {root r p}, policy.rootOf v root = some r → r <+: p → policy.Confines p :=
    fun hr hp => confines_of_prefix (confines_of_rootOf hany hr) hp
  have hmade : ∀ {root rel r p}, policy.rootOf v root = some r → safeJoin r rel = .ok p →
      q ∈ createdDirs v p.dropLast → policy.Confines q := by
    intro root rel r p hr hp hq
    exact hconf hr (prefix_of_createdDirs hr (prefix_of_safeJoin hp) (List.dropLast_prefix p) hq)
  cases request with
  | snapshot | snapshotMeta | watchChanges | search =>
    obtain ⟨r, hr, hq⟩ := mem_onRoot.1 h
    exact .inl (hconf hr (prefix_of_tree hq))
  | statFs =>
    obtain ⟨r, hr, hq⟩ := mem_onRoot.1 h
    obtain rfl := List.mem_singleton.1 hq
    exact .inl (hconf hr List.prefix_rfl)
  | listDir =>
    obtain ⟨r, p, hr, hp, hq⟩ := mem_onPath.1 h
    refine .inl (hconf hr ((prefix_of_safeJoin hp).trans ?_))
    rcases List.mem_cons.1 hq with rfl | hq
    · exact List.prefix_rfl
    · obtain ⟨name, -, rfl⟩ := List.mem_map.1 hq
      exact List.prefix_append _ _
  | stat | readFile | readFileChunk | readRange | fsync | setMetadata =>
    obtain ⟨r, p, hr, hp, hq⟩ := mem_onPath.1 h
    obtain rfl := List.mem_singleton.1 hq
    exact .inl (hconf hr (prefix_of_safeJoin hp))
  | readSmallFiles =>
    obtain ⟨r, hr, hq⟩ := mem_onRoot.1 h
    exact .inl (hconf hr (prefix_of_joinEach hq))
  | writeFile =>
    obtain ⟨r, p, hr, hp, hq⟩ := mem_onPath.1 h
    rw [List.mem_append, List.mem_append, List.mem_singleton, Option.mem_toList] at hq
    rcases hq with (hq | hq) | rfl
    · exact .inl (hmade hr hp hq)
    · exact .inr ⟨_, _, r, p, rfl, hr, hp, hq⟩
    · exact .inl (hconf hr (prefix_of_safeJoin hp))
  | writeFileStart =>
    obtain ⟨r, p, hr, hp, hq⟩ := mem_onPath.1 h
    rw [List.mem_append, Option.mem_toList] at hq
    rcases hq with hq | hq
    · exact .inl (hmade hr hp hq)
    · exact .inr ⟨_, _, r, p, rfl, hr, hp, hq⟩
  | writeFileChunk =>
    obtain ⟨r, p, hr, hp, hq⟩ := mem_onPath.1 h
    exact .inr ⟨_, _, r, p, rfl, hr, hp, Option.mem_toList.1 hq⟩
  | writeFileFinish =>
    obtain ⟨r, p, hr, hp, hq⟩ := mem_onPath.1 h
    obtain ⟨temp, ht, hq⟩ := mem_elim.1 hq
    rcases List.mem_cons.1 hq with rfl | hq
    · exact .inr ⟨_, _, r, p, rfl, hr, hp, ht⟩
    · obtain rfl := List.mem_singleton.1 hq
      exact .inl (hconf hr (prefix_of_safeJoin hp))
  | writeFileAt | writeFileAtBinary | writeFileAtStream | truncate | symlink =>
    obtain ⟨r, p, hr, hp, hq⟩ := mem_onPath.1 h
    rcases List.mem_append.1 hq with hq | hq
    · exact .inl (hmade hr hp hq)
    · obtain rfl := List.mem_singleton.1 hq
      exact .inl (hconf hr (prefix_of_safeJoin hp))
  | rename =>
    obtain ⟨r, p, hr, hp, hq⟩ := mem_onPath.1 h
    obtain ⟨r', p', hr', hp', hq⟩ := mem_onPath.1 hq
    rcases List.mem_append.1 hq with hq | hq
    · exact .inl (hmade hr' hp' hq)
    · rcases List.mem_cons.1 hq with rfl | hq
      · exact .inl (hconf hr (prefix_of_safeJoin hp))
      · obtain rfl := List.mem_singleton.1 hq
        exact .inl (hconf hr' (prefix_of_safeJoin hp'))
  | mkdir =>
    obtain ⟨r, p, hr, hp, hq⟩ := mem_onPath.1 h
    exact .inl (hconf hr (prefix_of_createdDirs hr (prefix_of_safeJoin hp) List.prefix_rfl hq))
  | remove =>
    obtain ⟨r, p, hr, hp, hq⟩ := mem_onPath.1 h
    exact .inl (hconf hr ((prefix_of_safeJoin hp).trans (prefix_of_tree hq)))
  | _ => cases h

/-- The temporary file of a request is among what it touches. -/
theorem temp_touched {root rel : String} {r p t : AbsPath} (hs : request.staged = some (root, rel))
    (hr : policy.rootOf v root = some r) (hp : safeJoin r rel = .ok p) (ht : request.temp v pid p = some t) :
    t ∈ request.touched policy v pid := by
  cases request with
  | writeFile =>
    cases hs
    refine mem_onPath.2 ⟨r, p, hr, hp, ?_⟩
    simp [ht]
  | writeFileStart =>
    cases hs
    refine mem_onPath.2 ⟨r, p, hr, hp, ?_⟩
    simp [ht]
  | writeFileChunk =>
    cases hs
    exact mem_onPath.2 ⟨r, p, hr, hp, Option.mem_toList.2 ht⟩
  | writeFileFinish =>
    cases hs
    exact mem_onPath.2 ⟨r, p, hr, hp, mem_elim.2 ⟨t, ht, List.mem_cons_self⟩⟩
  | _ => cases hs

/-- Every path that a request opens, creates, renames or removes starts with an allowed
root, if and only if, should it be an upload to the root itself, an allowed root lies above
that root (or is the temporary file beside it). -/
theorem confined_iff (policy : RootPolicy) (v : DiskView) (pid : Nat) (request : Request)
    (hany : policy.allowAnyRoot = false) :
    (∀ q ∈ request.touched policy v pid, policy.Confines q) ↔
      ∀ root r t, request.staged = some (root, "") → policy.rootOf v root = some r → request.temp v pid r = some t →
        ∃ allowed ∈ policy.allowRoots, allowed <+: r.dropLast ∨ allowed = t := by
  constructor
  · intro h root r t hs hr ht
    have hself : safeJoin r "" = .ok r := by
      rw [safeJoin, components_eq_nil.2 rfl]
      simp
    obtain ⟨allowed, ha, hpre⟩ := h t (temp_touched hs hr hself ht)
    obtain ⟨name, rfl⟩ := eq_withFileName_of_temp ht
    exact ⟨allowed, ha, (List.prefix_concat_iff.1 hpre).symm⟩
  · intro h q hq
    rcases touched_cases hany hq with hc | ⟨root, rel, r, p, hs, hr, hp, ht⟩
    · exact hc
    · obtain ⟨names, rfl, hnames⟩ := safeJoin_eq_ok hp
      by_cases hrel : rel = ""
      · obtain rfl := hnames.2 hrel
        rw [List.append_nil] at ht
        obtain ⟨allowed, ha, hpre | rfl⟩ := h root r q (hrel ▸ hs) hr ht
        · obtain ⟨name, rfl⟩ := eq_withFileName_of_temp ht
          exact ⟨allowed, ha, hpre.trans (List.prefix_append _ _)⟩
        · exact ⟨allowed, ha, List.prefix_rfl⟩
      · obtain ⟨name, rfl⟩ := eq_withFileName_of_temp ht
        exact confines_of_prefix (confines_of_rootOf hany hr) (prefix_of_withFileName (fun hn => hrel (hnames.1 hn)) name)

end Confined

/-- A disk with a directory and one in it. -/
def srvDisk : DiskView where
  canonicalize root := if root = "/srv" then some ["srv"] else if root = "/srv/data" then some ["srv", "data"] else none
  there _ := true
  names _ := []
  walk _ := []
  canonical _ _ _ _ _ := rfl

/-- The temporary file of an upload to a root that lies below the allowed one. -/
theorem confined_below_allowed : RootPolicy.Confines ⟨[["srv"]], false⟩ ["srv", ".data.mobfs-tmp-7"] :=
  (confined_iff ⟨[["srv"]], false⟩ srvDisk 7 (.writeFile "/srv/data" "" [1] 0) rfl).2
    (fun root r t hs hr ht => by
      cases hs
      cases hr
      exact ⟨["srv"], List.mem_singleton.2 rfl, .inl (by decide)⟩)
    _ (by decide)

/-- An upload to the allowed root itself makes a file beside it. -/
theorem upload_beside_root : ¬∀ q ∈ (Request.writeFile "/srv" "" [1] 0).touched ⟨[["srv"]], false⟩ srvDisk 7,
    RootPolicy.Confines ⟨[["srv"]], false⟩ q := by
  intro h
  obtain ⟨allowed, ha, hpre⟩ := h [".srv.mobfs-tmp-7"] (by decide)
  obtain rfl := List.mem_singleton.1 ha
  revert hpre
  decide

end Mobfs
