import Mobfs.Lib.Runs
import Mobfs.Vfs.Caches
import Mobfs.Vfs.NameCache
/-!
# How old answers are

The calls that answer from the tables of names, by their critical sections, with what the
other calls and the feed thread do to the tables in between. An entry is dated by the
time the daemon told it or carried out the operation it is from, and a listing by the time
it is put into the table, which is its own time stamp.

Without a live feed `dir_listing` keeps to the TTL. An entry of `metas` answers however
old it is (`old_entry_answers`), and `rename` puts the entry it finds there into a listing
that may be newer. `answers_within_ttl` is for the runs in which no answer takes an old
entry from `metas`, and no listing gets one that is older than itself.
-/

namespace Mobfs

open Lib Std

/-- A critical section that changes the tables. -/
inductive TableEdit where
  | table (e : Caches.Edit (Dated EntryMeta))
  /-- `mkdir` lists the new directory. -/
  | newDir (path : String)
  | attr (path : String) (a : Attr) (asOf : Nat)
  | wrote (c : Chunk)
  /-- `rename` looks for the entry at the new name. -/
  | carry (dst : String)
  /-- `invalidate_all` keeps the entries with buffered writes. -/
  | retain (pending : List String)
  | clearDirs

/-- An operation of the mount that the daemon has carried out, a write that is buffered, or
what the feed thread has got. -/
inductive TableChange where
  | create (path : String) (mode : Nat)
  | mkdir (path : String) (mode : Nat)
  | symlink (path target : String)
  | setattr (path : String) (a : Attr)
  | write (c : Chunk)
  | remove (path : String)
  | rename (src dst : String)
  | applyChange (e : ChangeEvent)
  | invalidateAll (pending : List String)

inductive TableAnswer where
  | entry (r : Except Errno EntryMeta)
  | listing (r : Except Errno (DirEntries EntryMeta))

/-- Where a call is: its next critical section, or the answer it waits for. `dates`: of
what the answer is made from. -/
inductive Errand where
  | lookup (path : String)
  | absent (path : String)
  | getattr (path : String)
  | stat (path : String)
  | listDir (dir : String)
  | fetch (dir : String)
  | build (dir : String) (fresh : Bool) (rest : DirEntries (Dated EntryMeta)) (done : DirEntries EntryMeta)
    (dates : List Nat)
  | edits (todo : List TableEdit)
  | answered (answer : TableAnswer) (dates : List Nat)

structure DatedCall where
  asked : Nat
  errand : Errand

/-- `calls`: all there have been, in the order they were made. -/
structure TimedMount where
  now : Nat
  feedLive : Bool
  caches : Caches (Dated EntryMeta)
  calls : List DatedCall

/-- Calls are given the path that `child_path` or `path_of` returns. Where an operation
looks an entry up, that is a lookup or a getattr. -/
inductive TimedAct where
  | tick (d : Nat)
  | feed (live : Bool)
  | lookup (path : String)
  | getattr (path : String)
  | listDir (dir : String)
  | change (c : TableChange) (clock : Int)
  /-- The next critical section of a call. -/
  | run (i : Nat) (pendingWrite : Bool) (sidecar : Option EntryMeta) (clock : Int)
  /-- The daemon's answer to `Stat`, and to `ListDir`. -/
  | stat (i : Nat) (r : Except Errno (Option EntryMeta)) (pendingWrite : Bool)
  | list (i : Nat) (r : Except Errno (DirEntries EntryMeta))

def TableChange.edits (now : Nat) (clock : Int) : TableChange → List TableEdit
  | .create path mode =>
    let m := ⟨fileMeta 0 (mode &&& 0o7777) clock, now⟩
    [.table (.setMeta path m), .table (.dirUpsert path m)]
  | .mkdir path mode =>
    let m := ⟨⟨.dir, 0, clock, none, mode &&& 0o7777, none⟩, now⟩
    [.table (.setMeta path m), .table (.dirUpsert path m), .newDir path]
  | .symlink path target =>
    let m := ⟨⟨.symlink, target.utf8ByteSize, clock, none, 0o777, some target⟩, now⟩
    [.table (.setMeta path m), .table (.dirUpsert path m)]
  | .setattr path a => [.attr path a now]
  | .write c => [.wrote c]
  | .remove path => [.table (.dropMetas path), .table (.dirRemove path)]
  | .rename src dst =>
    [.table (.moveMetas src dst), .table (.moveDirs src dst), .table (.dirRemove src), .carry dst]
  | .applyChange e =>
    match e.kind with
    | .replaced => [.table (.dropMetas e.path), .table (.dropDirs e.path), .table (.dropDir (splitParent e.path).1)]
    | _ => [.table (.forget e.path), .table (.dropDir (splitParent e.path).1)]
  | .invalidateAll pending => [.retain pending, .clearDirs]

/-- The tables after a critical section, and what it adds to the next ones. -/
def TableEdit.apply (now : Nat) (clock : Int) (c : Caches (Dated EntryMeta)) :
    TableEdit → Caches (Dated EntryMeta) × List TableEdit
  | .table e => (c.edit e, [])
  | .newDir path => (c.setDir path now [], [])
  | .attr path a asOf =>
    match a.edit asOf clock c.metas[path]? with
    | some x => (c.setMeta path x, [])
    | none => (c, [])
  | .wrote ch => (c.setMeta ch.path (noteLocalWrite now clock ch c.metas[ch.path]?), [])
  | .carry dst =>
    match c.metas[dst]? with
    | some x => (c, [.table (.dirUpsert dst x)])
    | none => (c, [.table (.dropDir (splitParent dst).1)])
  | .retain pending => ({ c with metas := eraseWhere c.metas fun p => p ∉ pending }, [])
  | .clearDirs => ({ c with dirs := ∅ }, [])

namespace TimedMount

/-- `Vfs::start`: the snapshot, and the directories it has whole. -/
def start (complete : List String) (entries : DirEntries EntryMeta) : TimedMount where
  now := 0
  feedLive := false
  caches :=
    entries.foldl (fun c e =>
        (c.setMeta e.1 ⟨e.2, 0⟩).editDir (splitParent e.1).1 fun es => es ++ [((splitParent e.1).2, ⟨e.2, 0⟩)])
      (complete.foldl (fun c d => c.setDir d 0 []) .empty)
  calls := []

def answer (r : Except Errno EntryMeta) (dates : List Nat) : Errand := .answered (.entry r) dates

def sidecarMeta : Option EntryMeta → Except Errno EntryMeta
  | some m => .ok m
  | none => .error .enoent

/-- The time stamp of a listing. -/
def created (s : TimedMount) (dir : String) : List Nat := (s.caches.dirs[dir]?.map Prod.fst).toList

/-- The entry of `metas` that the next critical section of a call takes for its answer. -/
def taken (ignore : List String) (s : TimedMount) : Errand → Option (Dated EntryMeta)
  | .lookup path => if isSidecar path || shouldIgnoreRel ignore path then none else s.caches.metas[path]?
  | .getattr path => if path = "" || isSidecar path then none else s.caches.metas[path]?
  | .build dir false ((name, _) :: _) _ _ => s.caches.metas[joinRel dir name]?
  | _ => none

section System
variable (ttl : Nat) (ignore : List String) (root : EntryMeta)

def cacheClock (s : TimedMount) : CacheClock := ⟨ttl, s.feedLive, s.now⟩

/-- The next critical section of a call: the tables after it, and where the call is then. -/
def next (s : TimedMount) (pendingWrite : Bool) (sidecar : Option EntryMeta) (clock : Int) :
    Errand → Option (Caches (Dated EntryMeta) × Errand)
  | .lookup path =>
    if isSidecar path then some (s.caches, answer (sidecarMeta sidecar) [])
    else if shouldIgnoreRel ignore path then some (s.caches, answer (.error .enoent) [])
    else
      match s.taken ignore (.lookup path) with
      | some x => some (s.caches, answer (.ok x.value) [x.asOf])
      | none => some (s.caches, .absent path)
  | .absent path =>
    let (dir, name) := splitParent path
    if s.caches.knownAbsent (s.cacheClock ttl) dir name then some (s.caches, answer (.error .enoent) (s.created dir))
    else some (s.caches, .stat path)
  | .getattr path =>
    if path = "" then some (s.caches, answer (.ok root) [])
    else if isSidecar path then some (s.caches, answer (sidecarMeta sidecar) [])
    else
      match s.taken ignore (.getattr path) with
      | some x => some (s.caches, answer (.ok x.value) [x.asOf])
      | none => some (s.caches, .stat path)
  | .listDir dir =>
    match s.caches.dirListing (s.cacheClock ttl) dir with
    | some entries => some (s.caches, .build dir false entries [] (s.created dir))
    | none => some (s.caches, .fetch dir)
  | .build dir fresh ((name, x) :: rest) done dates =>
    let caches := if fresh && !pendingWrite then s.caches.setMeta (joinRel dir name) x else s.caches
    let x := (s.taken ignore (.build dir fresh ((name, x) :: rest) done dates)).getD x
    some (caches, .build dir fresh rest (done ++ [(name, x.value)]) (x.asOf :: dates))
  | .build _ _ [] done dates => some (s.caches, .answered (.listing (.ok done)) dates)
  | .edits (e :: todo) =>
    let r := e.apply s.now clock s.caches
    some (r.1, .edits (r.2 ++ todo))
  | _ => none

/-- `stat_remote` has its answer. -/
def told (s : TimedMount) (path : String) (pendingWrite : Bool) :
    Except Errno (Option EntryMeta) → Caches (Dated EntryMeta) × Errand
  | .error e => (s.caches, answer (.error e) [])
  | .ok (some m) => (if pendingWrite then s.caches else s.caches.setMeta path ⟨m, s.now⟩, answer (.ok m) [s.now])
  | .ok none => (s.caches.forget path, answer (.error .enoent) [s.now])

def listed (s : TimedMount) (dir : String) : Except Errno (DirEntries EntryMeta) → Caches (Dated EntryMeta) × Errand
  | .error e => (s.caches, .answered (.listing (.error e)) [])
  | .ok entries =>
    let entries : DirEntries (Dated EntryMeta) := entries.map fun x => (x.1, ⟨x.2, s.now⟩)
    (s.caches.setDir dir s.now entries, .build dir true entries [] [s.now])

def ask (s : TimedMount) (errand : Errand) : TimedMount := { s with calls := s.calls ++ [⟨s.now, errand⟩] }

def goOn (s : TimedMount) (i : Nat) (call : DatedCall) (r : Caches (Dated EntryMeta) × Errand) : TimedMount :=
  { s with caches := r.1, calls := s.calls.set i { call with errand := r.2 } }

def step (s : TimedMount) : TimedAct → Option TimedMount
  | .tick d => some { s with now := s.now + d }
  | .feed live => some { s with feedLive := live }
  | .lookup path => some (s.ask (.lookup path))
  | .getattr path => some (s.ask (.getattr path))
  | .listDir dir => some (s.ask (.listDir dir))
  | .change c clock => some (s.ask (.edits (c.edits s.now clock)))
  | .run i pendingWrite sidecar clock =>
    s.calls[i]?.bind fun call => (s.next ttl ignore root pendingWrite sidecar clock call.errand).map (s.goOn i call)
  | .stat i r pendingWrite =>
    match s.calls[i]? with
    | some ⟨asked, .stat path⟩ => some (s.goOn i ⟨asked, .stat path⟩ (s.told path pendingWrite r))
    | _ => none
  | .list i r =>
    match s.calls[i]? with
    | some ⟨asked, .fetch dir⟩ => some (s.goOn i ⟨asked, .fetch dir⟩ (s.listed dir r))
    | _ => none

/-- A listing gets no entry that is older than itself. -/
def UpsertsNew (s : TimedMount) : TimedAct → Prop
  | .run i _ _ _ => ∀ call path x todo, s.calls[i]? = some call → call.errand = .edits (.table (.dirUpsert path x) :: todo) →
      ∀ created entries, s.caches.dirs[(splitParent path).1]? = some (created, entries) → created ≤ x.asOf
  | _ => True

/-- The answer to a call, the first `n` apart, takes no entry from `metas` that was older
than the TTL when the call was made. -/
def TakesRecent (n : Nat) (s : TimedMount) : TimedAct → Prop
  | .run i _ _ _ => ∀ call x, n ≤ i → s.calls[i]? = some call → s.taken ignore call.errand = some x → call.asked ≤ x.asOf + ttl
  | _ => True

end System

/-! ## Listings and their entries -/

/-- No entry of a listing is older than the listing. -/
def Newer (created : Nat) (entries : DirEntries (Dated EntryMeta)) : Prop := ∀ x ∈ entries, created ≤ x.2.asOf

/-- The listings that are put into the table whole are those of the daemon and of `mkdir`. -/
def Plain : Errand → Prop
  | .edits todo => ∀ e ∈ todo, ∀ dir created entries, e ≠ .table (.setDir dir created entries)
  | _ => True

structure Sound (s : TimedMount) : Prop where
  listings : s.caches.AllListings Newer
  calls : ∀ call ∈ s.calls, call.asked ≤ s.now ∧ Plain call.errand

/-- What the call has taken up for its answer was at most the TTL old when it was made. -/
def Recent (ttl asked : Nat) : Errand → Prop
  | .build _ _ rest _ dates => (∀ x ∈ rest, asked ≤ x.2.asOf + ttl) ∧ ∀ d ∈ dates, asked ≤ d + ttl
  | .answered _ dates => ∀ d ∈ dates, asked ≤ d + ttl
  | _ => True

variable {ttl : Nat} {ignore : List String} {root : EntryMeta} {s s' : TimedMount} {c : Caches (Dated EntryMeta)}

theorem Newer.without {created : Nat} {entries : DirEntries (Dated EntryMeta)} (name : String) (h : Newer created entries) :
    Newer created (Caches.without name entries) := fun x hx => h x (List.mem_of_mem_filter hx)

theorem newer_setDir (h : c.AllListings Newer) (dir : String) {created : Nat} {entries : DirEntries (Dated EntryMeta)}
    (he : Newer created entries) : (c.setDir dir created entries).AllListings Newer := by
  refine Caches.AllListings.edit (e := .setDir dir created entries) h (fun _ name _ => Newer.without name) ?_ ?_
  · intro dir' created' entries' heq
    cases heq
    exact he
  · intro path m created' entries' heq
    cases heq

theorem edits_plain (t : TableChange) (now : Nat) (clock : Int) : Plain (.edits (t.edits now clock)) := by
  intro e he dir created entries heq
  subst heq
  cases t with
  | applyChange e => cases hk : e.kind <;> simp [TableChange.edits, hk] at he
  | _ => simp [TableChange.edits] at he

/-- A critical section of a change. -/
theorem newer_apply (h : c.AllListings Newer) {e : TableEdit} (now : Nat) (clock : Int)
    (hset : ∀ dir created entries, e ≠ .table (.setDir dir created entries))
    (hupsert : ∀ path x, e = .table (.dirUpsert path x) →
      ∀ created entries, c.dirs[(splitParent path).1]? = some (created, entries) → created ≤ x.asOf) :
    (e.apply now clock c).1.AllListings Newer ∧ Plain (.edits (e.apply now clock c).2) := by
  cases e with
  | table e =>
    refine ⟨h.edit (fun _ name _ => Newer.without name) ?_ ?_, fun _ he => absurd he (List.not_mem_nil)⟩
    · intro dir created entries heq
      exact absurd (congrArg TableEdit.table heq) (hset dir created entries)
    · intro path x created entries heq hd y hy
      rcases List.mem_append.1 hy with hy | hy
      · exact (h _ _ _ hd).without _ y hy
      · rw [List.mem_singleton.1 hy]
        exact hupsert path x (congrArg TableEdit.table heq) created entries hd
  | newDir path => exact ⟨newer_setDir h path fun x hx => absurd hx List.not_mem_nil, fun _ he => absurd he List.not_mem_nil⟩
  | attr path a asOf =>
    simp only [TableEdit.apply]
    split
    · exact ⟨h, fun _ he => absurd he List.not_mem_nil⟩
    · exact ⟨h, fun _ he => absurd he List.not_mem_nil⟩
  | wrote ch => exact ⟨h, fun _ he => absurd he List.not_mem_nil⟩
  | carry dst =>
    simp only [TableEdit.apply]
    split
    · exact ⟨h, by simp [Plain]⟩
    · exact ⟨h, by simp [Plain]⟩
  | retain pending => exact ⟨h, fun _ he => absurd he List.not_mem_nil⟩
  | clearDirs => exact ⟨fun d created entries hd => by simp [TableEdit.apply] at hd, fun _ he => absurd he List.not_mem_nil⟩

/-- A critical section of a call. -/
theorem newer_next (h : s.caches.AllListings Newer) {pendingWrite : Bool} {sidecar : Option EntryMeta} {clock : Int}
    {e : Errand} {r : Caches (Dated EntryMeta) × Errand} (hp : Plain e)
    (hg : ∀ path x todo, e = .edits (.table (.dirUpsert path x) :: todo) →
      ∀ created entries, s.caches.dirs[(splitParent path).1]? = some (created, entries) → created ≤ x.asOf)
    (hr : s.next ttl ignore root pendingWrite sidecar clock e = some r) : r.1.AllListings Newer ∧ Plain r.2 := by
  cases e with
  | edits todo =>
    cases todo with
    | nil => cases hr
    | cons e todo =>
      cases hr
      obtain ⟨hl, hpl⟩ := newer_apply h s.now clock (hp e List.mem_cons_self) fun path x he => hg path x todo (by rw [he])
      refine ⟨hl, fun e' he' => ?_⟩
      rcases List.mem_append.1 he' with he' | he'
      · exact hpl e' he'
      · exact hp e' (List.mem_cons_of_mem _ he')
  | build dir fresh rest done dates =>
    cases rest with
    | nil =>
      cases hr
      exact ⟨h, trivial⟩
    | cons y rest =>
      cases hr
      refine ⟨?_, trivial⟩
      simp only
      split
      · exact h
      · exact h
  | stat path => cases hr
  | fetch dir => cases hr
  | answered answer dates => cases hr
  | _ =>
    -- The tables are only read.
    simp only [next] at hr
    repeat' split at hr
    all_goals
      cases hr
      exact ⟨h, trivial⟩

theorem newer_told (h : s.caches.AllListings Newer) (path : String) (pendingWrite : Bool)
    (r : Except Errno (Option EntryMeta)) : (s.told path pendingWrite r).1.AllListings Newer ∧ Plain (s.told path pendingWrite r).2 := by
  rcases r with e | _ | m
  · exact ⟨h, trivial⟩
  · exact ⟨h, trivial⟩
  · simp only [told]
    split
    · exact ⟨h, trivial⟩
    · exact ⟨h, trivial⟩

theorem newer_listed (h : s.caches.AllListings Newer) (dir : String) (r : Except Errno (DirEntries EntryMeta)) :
    (s.listed dir r).1.AllListings Newer ∧ Plain (s.listed dir r).2 := by
  cases r with
  | error e => exact ⟨h, trivial⟩
  | ok entries =>
    refine ⟨newer_setDir h dir fun x hx => ?_, trivial⟩
    obtain ⟨y, -, rfl⟩ := List.mem_map.1 hx
    exact Nat.le_refl _

/-- What a step does: the clock or the feed moves, a call is made, or a call moves on. -/
inductive Stepped (ttl : Nat) (ignore : List String) (root : EntryMeta) (s s' : TimedMount) (a : TimedAct) : Prop
  | clock (hcalls : s'.calls = s.calls) (hcaches : s'.caches = s.caches) (hnow : s.now ≤ s'.now)
      (hfeed : s'.feedLive = s.feedLive ∨ a = .feed true ∨ s'.feedLive = false)
  | asks (e : Errand) (hs : s' = s.ask e) (hp : Plain e) (hr : ∀ ttl asked, Recent ttl asked e)
  | runs (i : Nat) (call : DatedCall) (pendingWrite : Bool) (sidecar : Option EntryMeta) (clock : Int)
      (r : Caches (Dated EntryMeta) × Errand) (ha : a = .run i pendingWrite sidecar clock) (hcall : s.calls[i]? = some call)
      (hr : s.next ttl ignore root pendingWrite sidecar clock call.errand = some r) (hs : s' = s.goOn i call r)
  | told (i : Nat) (call : DatedCall) (path : String) (pendingWrite : Bool) (r : Except Errno (Option EntryMeta))
      (hcall : s.calls[i]? = some call) (hs : s' = s.goOn i call (s.told path pendingWrite r))
  | listed (i : Nat) (call : DatedCall) (dir : String) (r : Except Errno (DirEntries EntryMeta))
      (hcall : s.calls[i]? = some call) (hs : s' = s.goOn i call (s.listed dir r))

theorem step_cases {a : TimedAct} (h : s.step ttl ignore root a = some s') : Stepped ttl ignore root s s' a := by
  cases a with
  | tick d =>
    cases h
    exact .clock rfl rfl (Nat.le_add_right _ _) (.inl rfl)
  | feed live =>
    cases h
    cases live with
    | false => exact .clock rfl rfl (Nat.le_refl _) (.inr (.inr rfl))
    | true => exact .clock rfl rfl (Nat.le_refl _) (.inr (.inl rfl))
  | lookup path => exact .asks (.lookup path) (Option.some.inj h).symm trivial fun _ _ => trivial
  | getattr path => exact .asks (.getattr path) (Option.some.inj h).symm trivial fun _ _ => trivial
  | listDir dir => exact .asks (.listDir dir) (Option.some.inj h).symm trivial fun _ _ => trivial
  | change t clock => exact .asks _ (Option.some.inj h).symm (edits_plain t s.now clock) fun _ _ => trivial
  | run i pendingWrite sidecar clock =>
    obtain ⟨call, hcall, hn⟩ := Option.bind_eq_some_iff.1 h
    obtain ⟨r, hr, hs⟩ := Option.map_eq_some_iff.1 hn
    exact .runs i call pendingWrite sidecar clock r rfl hcall hr hs.symm
  | stat i r pendingWrite =>
    simp only [step] at h
    split at h
    · rename_i asked path hcall
      exact .told i ⟨asked, .stat path⟩ path pendingWrite r hcall (Option.some.inj h).symm
    · cases h
  | list i r =>
    simp only [step] at h
    split at h
    · rename_i asked dir hcall
      exact .listed i ⟨asked, .fetch dir⟩ dir r hcall (Option.some.inj h).symm
    · cases h

theorem mem_goOn {i : Nat} {call call' : DatedCall} {r : Caches (Dated EntryMeta) × Errand}
    (h : call' ∈ (s.goOn i call r).calls) : call' ∈ s.calls ∨ call' = { call with errand := r.2 } :=
  List.mem_or_eq_of_mem_set h

theorem Sound.goOn (h : s.Sound) {i : Nat} {call : DatedCall} {r : Caches (Dated EntryMeta) × Errand}
    (hcall : s.calls[i]? = some call) (hr : r.1.AllListings Newer ∧ Plain r.2) : (s.goOn i call r).Sound := by
  refine ⟨hr.1, fun call' hc => ?_⟩
  rcases mem_goOn hc with hc | rfl
  · exact h.calls call' hc
  · exact ⟨(h.calls call (List.mem_of_getElem? hcall)).1, hr.2⟩

/-- One step. -/
theorem Sound.step (h : s.Sound) {a : TimedAct} (hg : s.UpsertsNew a) (hs : s.step ttl ignore root a = some s') :
    s'.Sound := by
  cases step_cases hs with
  | clock hcalls hcaches hnow hfeed =>
    refine ⟨hcaches ▸ h.listings, fun call hc => ?_⟩
    obtain ⟨hasked, hp⟩ := h.calls call (hcalls ▸ hc)
    exact ⟨Nat.le_trans hasked hnow, hp⟩
  | asks e hs hp hr =>
    subst hs
    refine ⟨h.listings, fun call hc => ?_⟩
    rcases List.mem_append.1 hc with hc | hc
    · exact h.calls call hc
    · rw [List.mem_singleton.1 hc]
      exact ⟨Nat.le_refl _, hp⟩
  | runs i call pendingWrite sidecar clock r ha hcall hr hs =>
    subst hs ha
    have hp := (h.calls call (List.mem_of_getElem? hcall)).2
    exact h.goOn hcall (newer_next h.listings hp (fun path x todo he => hg call path x todo hcall he) hr)
  | told i call path pendingWrite r hcall hs =>
    subst hs
    exact h.goOn hcall (newer_told h.listings path pendingWrite r)
  | listed i call dir r hcall hs =>
    subst hs
    exact h.goOn hcall (newer_listed h.listings dir r)

/-! ## Answers without a live feed -/

/-- Where the feed is not live, `dir_listing` looks at the time stamp. -/
theorem dirListing_stamp (httl : 1 ≤ ttl) (hdead : s.feedLive = false) {dir : String} {entries : DirEntries (Dated EntryMeta)}
    (h : s.caches.dirListing (s.cacheClock ttl) dir = some entries) :
    ∃ created, s.caches.dirs[dir]? = some (created, entries) ∧ s.created dir = [created] ∧ s.now ≤ created + ttl := by
  unfold Caches.dirListing at h
  split at h
  · cases h
  · rename_i created entries' hd
    split at h
    · rename_i hfresh
      cases h
      refine ⟨created, hd, by simp [TimedMount.created, hd], ?_⟩
      simp only [CacheClock.fresh, cacheClock, hdead, Bool.or_false, Bool.or_eq_true, decide_eq_true_eq] at hfresh
      omega
    · cases h

theorem knownAbsent_stamp (httl : 1 ≤ ttl) (hdead : s.feedLive = false) {dir name : String}
    (h : s.caches.knownAbsent (s.cacheClock ttl) dir name = true) : ∀ d ∈ s.created dir, s.now ≤ d + ttl := by
  unfold Caches.knownAbsent at h
  split at h
  · cases h
  · rename_i entries hl
    obtain ⟨created, -, hc, hle⟩ := dirListing_stamp httl hdead hl
    rw [hc]
    simpa using hle

theorem recent_nil (ttl asked : Nat) (answer : TableAnswer) : Recent ttl asked (.answered answer []) :=
  fun _ hd => absurd hd List.not_mem_nil

theorem recent_answer {asked : Nat} {answer : TableAnswer} {d : Nat} (h : asked ≤ d + ttl) :
    Recent ttl asked (.answered answer [d]) := by
  intro d' hd
  rw [List.mem_singleton.1 hd]
  exact h

/-- A critical section of a call. -/
theorem recent_next (hl : s.caches.AllListings Newer) (httl : 1 ≤ ttl) (hdead : s.feedLive = false) {asked : Nat}
    (hasked : asked ≤ s.now) {pendingWrite : Bool} {sidecar : Option EntryMeta} {clock : Int} {e : Errand}
    {r : Caches (Dated EntryMeta) × Errand} (he : Recent ttl asked e)
    (hg : ∀ x, s.taken ignore e = some x → asked ≤ x.asOf + ttl)
    (hr : s.next ttl ignore root pendingWrite sidecar clock e = some r) : Recent ttl asked r.2 := by
  cases e with
  | lookup path | getattr path =>
    simp only [next] at hr
    repeat' split at hr
    all_goals cases hr
    · exact recent_nil _ _ _
    · exact recent_nil _ _ _
    · exact recent_answer (hg _ ‹_›)
    · trivial
  | absent path =>
    simp only [next] at hr
    split at hr
    · rename_i habsent
      cases hr
      exact fun d hd => Nat.le_trans hasked (knownAbsent_stamp httl hdead habsent d hd)
    · cases hr
      trivial
  | listDir dir =>
    simp only [next] at hr
    split at hr
    · rename_i entries hlisting
      cases hr
      obtain ⟨created, hd, hc, hle⟩ := dirListing_stamp httl hdead hlisting
      refine ⟨fun x hx => ?_, ?_⟩
      · have hnew := hl _ _ _ hd x hx
        omega
      · rw [hc]
        simpa using Nat.le_trans hasked hle
    · cases hr
      trivial
  | build dir fresh rest done dates =>
    cases rest with
    | nil =>
      cases hr
      exact he.2
    | cons y rest =>
      cases hr
      refine ⟨fun x hx => he.1 x (List.mem_cons_of_mem _ hx), fun d hd => ?_⟩
      rcases List.mem_cons.1 hd with rfl | hd
      · cases ht : s.taken ignore (.build dir fresh (y :: rest) done dates) with
        | none => exact he.1 y List.mem_cons_self
        | some x => exact hg x ht
      · exact he.2 d hd
  | edits todo =>
    cases todo with
    | nil => cases hr
    | cons e todo =>
      cases hr
      trivial
  | stat path => cases hr
  | fetch dir => cases hr
  | answered answer dates => cases hr

theorem recent_told (path : String) (pendingWrite : Bool) (r : Except Errno (Option EntryMeta)) {asked : Nat}
    (hasked : asked ≤ s.now) : Recent ttl asked (s.told path pendingWrite r).2 := by
  have hnow : asked ≤ s.now + ttl := by omega
  rcases r with e | _ | m
  · exact recent_nil _ _ _
  · exact recent_answer hnow
  · exact recent_answer hnow

theorem recent_listed (dir : String) (r : Except Errno (DirEntries EntryMeta)) {asked : Nat} (hasked : asked ≤ s.now) :
    Recent ttl asked (s.listed dir r).2 := by
  have hnow : asked ≤ s.now + ttl := by omega
  cases r with
  | error e => exact recent_nil _ _ _
  | ok entries =>
    refine ⟨fun x hx => ?_, by simpa using hnow⟩
    obtain ⟨y, -, rfl⟩ := List.mem_map.1 hx
    exact hnow

/-- The feed has not been live since, and the calls made since have taken up nothing old. -/
structure Since (ttl n : Nat) (s : TimedMount) : Prop where
  sound : s.Sound
  dead : s.feedLive = false
  recent : ∀ i call, n ≤ i → s.calls[i]? = some call → Recent ttl call.asked call.errand

theorem Since.goOn {n i : Nat} {call : DatedCall} {r : Caches (Dated EntryMeta) × Errand} (h : s.Since ttl n)
    (hs : (s.goOn i call r).Sound) (hr : n ≤ i → Recent ttl call.asked r.2) : (s.goOn i call r).Since ttl n := by
  refine ⟨hs, h.dead, fun j call' hj hc => ?_⟩
  simp only [TimedMount.goOn, List.getElem?_set] at hc
  split at hc
  · rename_i hij
    split at hc
    · cases hc
      exact hr (hij ▸ hj)
    · cases hc
  · exact h.recent j call' hj hc

/-- One step. -/
theorem Since.step {n : Nat} (h : s.Since ttl n) (httl : 1 ≤ ttl) {a : TimedAct} (hup : s.UpsertsNew a)
    (htake : s.TakesRecent ttl ignore n a) (hdead : a ≠ .feed true) (hs : s.step ttl ignore root a = some s') :
    s'.Since ttl n := by
  have hsound := h.sound.step hup hs
  have hasked : ∀ {i : Nat} {call : DatedCall}, s.calls[i]? = some call → call.asked ≤ s.now := fun hcall =>
    (h.sound.calls _ (List.mem_of_getElem? hcall)).1
  cases step_cases hs with
  | clock hcalls hcaches hnow hfeed =>
    refine ⟨hsound, ?_, hcalls ▸ h.recent⟩
    rcases hfeed with hf | hf | hf
    · exact hf.trans h.dead
    · exact absurd hf hdead
    · exact hf
  | asks e hs hp hr =>
    subst hs
    refine ⟨hsound, h.dead, fun i call hi hc => ?_⟩
    simp only [ask, List.getElem?_append] at hc
    split at hc
    · exact h.recent i call hi hc
    · rw [List.mem_singleton.1 (List.mem_of_getElem? hc)]
      exact hr _ _
  | runs i call pendingWrite sidecar clock r ha hcall hr hs =>
    subst hs ha
    exact h.goOn hsound fun hi =>
      recent_next h.sound.listings httl h.dead (hasked hcall) (h.recent i call hi hcall) (htake call · hi hcall) hr
  | told i call path pendingWrite r hcall hs =>
    subst hs
    exact h.goOn hsound fun _ => recent_told path pendingWrite r (hasked hcall)
  | listed i call dir r hcall hs =>
    subst hs
    exact h.goOn hsound fun _ => recent_listed dir r (hasked hcall)

theorem start_sound (complete : List String) (entries : DirEntries EntryMeta) : (start complete entries).Sound := by
  -- Everything is as old as the mount.
  suffices h : (start complete entries).caches.AllListings fun created _ => created = 0 from
    ⟨fun d created es hd x _ => by rw [h d created es hd]; exact Nat.zero_le _, fun _ hc => absurd hc List.not_mem_nil⟩
  have hdirs : ∀ (c : Caches (Dated EntryMeta)), (c.AllListings fun created _ => created = 0) →
      (complete.foldl (fun c d => c.setDir d 0 []) c).AllListings fun created _ => created = 0 := by
    induction complete with
    | nil => exact fun c hc => hc
    | cons d complete ih =>
      intro c hc
      refine ih _ (Caches.AllListings.edit (e := .setDir d 0 []) hc (fun _ _ _ he => he) ?_ ?_)
      · intro dir now es heq
        cases heq
        rfl
      · intro path m created es heq
        cases heq
  have hentries : ∀ (c : Caches (Dated EntryMeta)), (c.AllListings fun created _ => created = 0) →
      (entries.foldl (fun c e => (c.setMeta e.1 ⟨e.2, 0⟩).editDir (splitParent e.1).1 fun es =>
        es ++ [((splitParent e.1).2, ⟨e.2, 0⟩)]) c).AllListings fun created _ => created = 0 := by
    induction entries with
    | nil => exact fun c hc => hc
    | cons e entries ih =>
      intro c hc
      have hset : (c.setMeta e.1 ⟨e.2, 0⟩).AllListings fun created _ => created = 0 := hc
      exact ih _ (hset.editDir fun created es hd => hset _ _ _ hd)
  exact hentries _ (hdirs _ Caches.allListings_empty)

/-- In every run of the mount, with the feed not live from a state `s₀` on: what an answer
is made from was at most the TTL old when the call was made, if from the start on no
listing gets an entry older than itself, and the calls made after `s₀` take no entry from
`metas` that was older. -/
theorem answers_within_ttl (httl : 1 ≤ ttl) (complete : List String) (entries : DirEntries EntryMeta) {pre post : List TimedAct}
    {s₀ s : TimedMount} (hpre : exec (step ttl ignore root) (start complete entries) pre = some s₀)
    (hgpre : Guarded (step ttl ignore root) UpsertsNew (start complete entries) pre) (hdead : s₀.feedLive = false)
    (hpost : exec (step ttl ignore root) s₀ post = some s) (hnever : ∀ a ∈ post, a ≠ .feed true)
    (hgpost : Guarded (step ttl ignore root) (fun s a => s.UpsertsNew a ∧ s.TakesRecent ttl ignore s₀.calls.length a) s₀ post)
    (i : Nat) (hi : s₀.calls.length ≤ i) (asked : Nat) (answer : TableAnswer) (dates : List Nat)
    (hans : s.calls[i]? = some ⟨asked, .answered answer dates⟩) : ∀ d ∈ dates, asked ≤ d + ttl := by
  have hsound : s₀.Sound :=
    exec_guarded_inv Sound (fun _ _ _ h hg hs => h.step hg hs) (start_sound complete entries) hgpre hpre
  have hstart : s₀.Since ttl s₀.calls.length := by
    refine ⟨hsound, hdead, fun j call hj hc => ?_⟩
    rw [List.getElem?_eq_none hj] at hc
    cases hc
  have hsince : s.Since ttl s₀.calls.length :=
    exec_guarded_inv (Since ttl s₀.calls.length)
      (fun _ _ _ h hg hs => h.step httl hg.1.1 hg.1.2 hg.2 hs) hstart (hgpost.and_mem hnever) hpost
  exact hsince.recent i _ hi hans

/-! ## An entry that never gets old -/

def aDir : EntryMeta := ⟨.dir, 0, 0, none, 0o755, none⟩

abbrev textTimed : TimedMount → TimedAct → Option TimedMount := step 1 [] aDir

/-- When a call was made, and the dates of its answer. -/
def replied (s : TimedMount) (i : Nat) : Option (Nat × List Nat) :=
  match s.calls[i]? with
  | some ⟨asked, .answered _ dates⟩ => some (asked, dates)
  | _ => none

theorem answered_of_replied {i asked : Nat} {dates : List Nat} (h : s.replied i = some (asked, dates)) :
    ∃ answer, s.calls[i]? = some ⟨asked, .answered answer dates⟩ := by
  unfold replied at h
  split at h
  · rename_i answer _ hc
    cases h
    exact ⟨answer, hc⟩
  · cases h

/-- A directory with one file is listed, as old as the TTL. -/
def listedInTime : List TimedAct :=
  [.tick 1, .listDir "", .run 0 false none 0, .run 0 false none 0, .run 0 false none 0]

/-- `TakesRecent` as a test. -/
def takesRecent (s : TimedMount) : TimedAct → Bool
  | .run i _ _ _ => (s.calls[i]?).all fun call => (s.taken [] call.errand).all fun x => call.asked ≤ x.asOf + 1
  | _ => true

/-- No listing gets an entry. -/
def upsertsNone (s : TimedMount) : TimedAct → Bool
  | .run i _ _ _ => (s.calls[i]?).all fun call => match call.errand with
    | .edits _ => false
    | _ => true
  | _ => true

theorem guard_of_tests {n : Nat} {a : TimedAct} (h : (s.upsertsNone a && s.takesRecent a) = true) :
    s.UpsertsNew a ∧ s.TakesRecent 1 [] n a := by
  rw [Bool.and_eq_true] at h
  cases a with
  | run i pendingWrite sidecar clock =>
    refine ⟨?_, ?_⟩
    · intro call path x todo hc he
      have hnone := h.1
      simp [upsertsNone, hc, he] at hnone
    · intro call x _ hc hx
      have htake := h.2
      simpa [takesRecent, hc, hx] using htake
  | _ => exact ⟨trivial, trivial⟩

theorem answers_within_ttl_listing :
    ∃ s dates answer, exec textTimed (start [""] [("f", fileMeta 1 420 5)]) listedInTime = some s ∧ dates = [0, 0] ∧
      s.calls[0]? = some ⟨1, .answered answer dates⟩ ∧ ∀ d ∈ dates, 1 ≤ d + 1 := by
  have hrun : ((exec textTimed (start [""] [("f", fileMeta 1 420 5)]) listedInTime).any fun s =>
      s.replied 0 = some (1, [0, 0])) = true := by decide
  obtain ⟨s, hs, h⟩ := (Option.any_eq_true _ _).1 hrun
  obtain ⟨answer, hans⟩ := answered_of_replied (of_decide_eq_true h)
  have hg : Guarded textTimed (fun s a => s.UpsertsNew a ∧ s.TakesRecent 1 [] 0 a) (start [""] [("f", fileMeta 1 420 5)])
      listedInTime :=
    guarded_of_checkRun (fun _ => True) (fun _ => True) (fun s a => s.upsertsNone a && s.takesRecent a)
      (fun _ _ _ _ _ _ => trivial) (fun _ _ _ _ => guard_of_tests) trivial (fun _ _ => trivial) (by decide)
  refine ⟨s, [0, 0], answer, hs, rfl, hans, ?_⟩
  have hpre : exec textTimed (start [""] [("f", fileMeta 1 420 5)]) [] = some (start [""] [("f", fileMeta 1 420 5)]) := rfl
  exact answers_within_ttl (Nat.le_refl 1) [""] [("f", fileMeta 1 420 5)] hpre trivial rfl hs (by simp [listedInTime]) hg 0
    (Nat.zero_le _) 1 answer [0, 0] hans

/-- The daemon is asked for a file once. -/
def askedOnce : List TimedAct :=
  [.lookup "f", .run 0 false none 0, .run 0 false none 0, .stat 0 (.ok (some (fileMeta 1 420 5))) false, .tick 2,
    .lookup "f", .run 1 false none 0]

/-- The second lookup is answered by what is older than the TTL. -/
theorem old_entry_answers :
    ∃ s answer dates, exec textTimed (start [] []) askedOnce = some s ∧ (start [] []).feedLive = false ∧
      (∀ a ∈ askedOnce, a ≠ .feed true) ∧ s.calls[1]? = some ⟨2, .answered answer dates⟩ ∧ ¬ ∀ d ∈ dates, 2 ≤ d + 1 := by
  have hrun : ((exec textTimed (start [] []) askedOnce).any fun s => s.replied 1 = some (2, [0])) = true := by decide
  obtain ⟨s, hs, h⟩ := (Option.any_eq_true _ _).1 hrun
  obtain ⟨answer, hans⟩ := answered_of_replied (of_decide_eq_true h)
  exact ⟨s, answer, [0], hs, rfl, by simp [askedOnce], hans, by simp⟩

end TimedMount

end Mobfs
