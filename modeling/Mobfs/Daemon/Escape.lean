import Mobfs.Daemon.PathCalls
/-!
# Links out of the allowed roots

As long as no link below an allowed root leads outside of all of them, what a request
touches is confined, an upload to the root itself apart (`confines_places`). The
daemon makes links with any target, and follows them (`touches_of_link`). Where every
link that clients make is relative and without `..`, none ever leads outside: only
`Symlink` and `Rename` bring links, and such a link leads down from wherever it is moved
to (`through_callsIn`).
-/

namespace Mobfs

open Lib

namespace RootPolicy

/-- No link below an allowed root. -/
def NoLinks (policy : RootPolicy) (s : Disk String) : Prop :=
  ∀ p a t, policy.Confines p → s.look (p ++ [a]) ≠ some (.link t)

/-- Every link below an allowed root leads down. -/
def LinksDown (policy : RootPolicy) (s : Disk String) : Prop :=
  ∀ p a t, policy.Confines p → s.look (p ++ [a]) = some (.link t) → t.Down

/-- Every link below an allowed root that leads anywhere leads to a confined place. -/
def LinksStay (policy : RootPolicy) (s : Disk String) : Prop :=
  ∀ p a t q, policy.Confines p → s.look (p ++ [a]) = some (.link t) → s.walk true maxLinks p [.name a] = some q →
    policy.Confines q

end RootPolicy

/-- All paths of a call are below the root. -/
def PathCall.Below (r : AbsPath) (c : PathCall) : Prop := ∀ q ∈ c.paths, r <+: q

section Confined
variable {policy : RootPolicy} {s s' : Disk String} {r p q : AbsPath}

theorem confines_concat (hp : policy.Confines p) (a : String) : policy.Confines (p ++ [a]) :=
  confines_of_prefix hp (List.prefix_append _ _)

theorem linksDown_of_noLinks (h : policy.NoLinks s) : policy.LinksDown s := fun p a t hp hl => absurd hl (h p a t hp)

theorem linksStay_of_linksDown (h : policy.LinksDown s) : policy.LinksStay s := by
  rintro p a t q ⟨allowed, ha, hp⟩ - hw
  refine ⟨allowed, ha, (Disk.leads_of_walk hw).within ?_ hp (by simp)⟩
  intro x t hx hne hl
  rcases List.eq_nil_or_concat x with rfl | ⟨d, b, rfl⟩
  · cases hl
  · rw [List.concat_eq_append] at hx hne hl
    rcases List.prefix_concat_iff.1 hx with he | hd
    · exact absurd he.symm hne
    · exact h d b t ⟨allowed, ha, hd⟩ hl

/-- Where the links stay, a path below a canonical root leads to a confined place; if no
link is followed at its end, to the root or a name in one. -/
theorem confines_place (hs : policy.LinksStay s) (hr : policy.Confines r) (ha : Anchored s r) {names : List String}
    {follow : Bool} (h : placeOf s follow (r ++ names) = some q) :
    policy.Confines q ∧ (follow = false → q = r ∨ ∃ d a, policy.Confines d ∧ q = d ++ [a]) := by
  rcases (Disk.leads_of_walk h).under_real ha.real ha.plain with ⟨-, rfl⟩ | hw
  · exact ⟨hr, fun _ => .inl rfl⟩
  · obtain ⟨hq, hend⟩ := hw.names_within (P := policy.Confines) (fun p a hp => confines_concat hp a)
      (fun p a t q hp hl hw => hs p a t q hp hl hw.walk) le_rfl hr
    refine ⟨hq, fun hf => ?_⟩
    by_cases hn : names = []
    · subst hn
      cases hw
      exact .inl rfl
    · exact .inr (hend hn hf)

theorem prefix_of_under (h : p ∈ s.under q) : q <+: p :=
  List.isPrefixOf_iff_prefix.1 (List.mem_filter.1 h).2

/-- What a call for paths below a canonical root touches is confined. -/
theorem confines_places (hs : policy.LinksStay s) (hr : policy.Confines r) (ha : Anchored s r) {c : PathCall}
    (hc : c.Below r) (hq : q ∈ c.places s) : policy.Confines q := by
  obtain ⟨x, hx, hq⟩ := List.mem_flatMap.1 hq
  obtain ⟨p, hp, hpx⟩ := List.mem_filterMap.1 hx
  obtain ⟨names, rfl⟩ := hc p hp
  have hxc := (confines_place hs hr ha hpx).1
  rcases List.mem_cons.1 hq with rfl | hq
  · exact hxc
  · exact confines_of_prefix hxc (prefix_of_under hq)

end Confined

/-! ## What calls leave as it is -/

/-- Directories stay, and no link is new. -/
structure Mild (s s' : Disk String) : Prop where
  dirs : ∀ q, s.look q = some .dir → s'.look q = some .dir
  links : ∀ q t, s'.look q = some (.link t) → s.look q = some (.link t)

/-- The calls that are mild. -/
def PathCall.isMild : PathCall → Bool
  | .rename _ _ | .symlink _ _ | .remove _ _ => false
  | _ => true

section Mild
variable {policy : RootPolicy} {s s' : Disk String} {r p q : AbsPath} {c : PathCall}

theorem Mild.refl : Mild s s := ⟨fun _ h => h, fun _ _ h => h⟩

theorem Mild.add {e : Entry String} (hp : s.look p = none) (he : ∀ t, e ≠ .link t) : Mild s (s.add p e) := by
  refine ⟨fun q hq => Disk.look_add hp hq, fun q t hq => ?_⟩
  rcases Disk.of_look_add hp hq with hq | ⟨-, hq⟩
  · exact hq
  · exact absurd hq.symm (he t)

theorem Mild.drop (hp : s.look p ≠ some .dir) : Mild s (s.drop p) := by
  refine ⟨fun q hq => ?_, fun q t hq => Disk.of_look_keep hq⟩
  have hne : q ≠ p := by
    rintro rfl
    exact hp hq
  exact (Disk.look_keep (by simpa using hne)).trans hq

theorem Anchored.mild (h : Anchored s r) (hm : Mild s s') : Anchored s' r :=
  ⟨fun q hq hne => hm.dirs q (h.real q hq hne), fun t ht => h.plain t (hm.links r t ht)⟩

theorem mild_of_run (hc : c.isMild = true) (h : c.run s = some s') : Mild s s' := by
  cases c with
  | rename => cases hc
  | symlink => cases hc
  | remove => cases hc
  | walk | readDir | openFile | setMeta =>
    obtain ⟨q, -, h⟩ := Option.bind_eq_some_iff.1 h
    split at h
    · cases h
      exact .refl
    · cases h
  | symlinkMetadata | readSmall =>
    cases h
    exact .refl
  | createFile p =>
    obtain ⟨q, -, h⟩ := Option.bind_eq_some_iff.1 h
    split at h
    · rename_i hq
      cases h
      exact .add hq (by simp)
    · cases h
      exact .refl
    · cases h
  | createDir p =>
    obtain ⟨q, -, h⟩ := Option.bind_eq_some_iff.1 h
    split at h
    · rename_i hq
      cases h
      exact .add hq (by simp)
    · cases h
  | discard p =>
    rw [PathCall.run] at h
    split at h
    · cases h
      exact .refl
    · split at h
      · cases h
        exact .refl
      · rename_i hq
        cases h
        exact .drop hq

/-- Only `symlink` and `rename` bring links. -/
theorem links_of_remove {dir : Bool} (h : (PathCall.remove p dir).run s = some s') {t : LinkTarget String}
    (hq : s'.look q = some (.link t)) : s.look q = some (.link t) := by
  rw [PathCall.run] at h
  split at h
  · cases h
    exact hq
  · split at h
    · cases h
      exact hq
    · split at h
      · cases h
        exact Disk.of_look_keep hq
      · cases h
    · cases h
      exact Disk.of_look_keep hq

end Mild

/-! ## Calls in order -/

/-- `I` holds before each call, and `F` after the last. -/
def Through (I F : Disk String → Prop) : List PathCall → Disk String → Prop
  | [], s => F s
  | c :: cs, s => I s ∧ ∀ s', c.run s = some s' → Through I F cs s'

section Through
variable {I F : Disk String → Prop} {s : Disk String} {cs pre last : List PathCall}

/-- Mild calls keep what mild changes keep. -/
theorem through_append (hpre : ∀ c ∈ pre, c.isMild = true) (hI : ∀ s s', I s → Mild s s' → I s')
    (hlast : ∀ s, I s → Through I F last s) (h : I s) : Through I F (pre ++ last) s := by
  induction pre generalizing s with
  | nil => exact hlast s h
  | cons c pre ih =>
    refine ⟨h, fun s' hrun => ih (fun c hc => hpre c (List.mem_cons_of_mem _ hc)) ?_⟩
    exact hI s s' h (mild_of_run (hpre c List.mem_cons_self) hrun)

theorem through_mild (hcs : ∀ c ∈ cs, c.isMild = true) (hI : ∀ s s', I s → Mild s s' → I s') (hF : ∀ s, I s → F s)
    (h : I s) : Through I F cs s := by
  rw [← List.append_nil cs]
  exact through_append hcs hI hF h

theorem Through.take (hF : ∀ s, I s → F s) (h : Through I F cs s) (n : Nat) : Through I F (cs.take n) s := by
  induction cs generalizing s n with
  | nil => simpa using h
  | cons c cs ih =>
    cases n with
    | zero => exact hF s h.1
    | succ n => exact ⟨h.1, fun s' hrun => ih (h.2 s' hrun) n⟩

theorem Through.of_made (h : Through I F cs s) {x : PathCall × Disk String} (hx : x ∈ made cs s) : I x.2 := by
  induction cs generalizing s with
  | nil => cases hx
  | cons c cs ih =>
    rcases List.mem_cons.1 hx with rfl | hx
    · exact h.1
    · cases hrun : c.run s with
      | none => simp [hrun] at hx
      | some s' =>
        rw [hrun] at hx
        exact ih (h.2 s' hrun) hx

theorem Through.runAll (hF : ∀ s, I s → F s) (h : Through I F cs s) : F (runAll cs s) := by
  induction cs generalizing s with
  | nil => exact h
  | cons c cs ih =>
    unfold Mobfs.runAll
    cases hrun : c.run s with
    | none => exact hF s h.1
    | some s' => exact ih (h.2 s' hrun)

end Through

/-! ## One request -/

/-- While a request for the root `r` is served, the root is canonical, and the links lead
down if they did before (`D`). -/
structure Steady (policy : RootPolicy) (D : Prop) (r : AbsPath) (s : Disk String) : Prop where
  anchored : Anchored s r
  down : D → policy.LinksDown s

section Steady
variable {policy : RootPolicy} {D : Prop} {r p q a b : AbsPath} {s s' : Disk String}

theorem LinksDown.mild (h : policy.LinksDown s) (hm : Mild s s') : policy.LinksDown s' :=
  fun p a t hp hl => h p a t hp (hm.links _ t hl)

theorem Steady.mild (h : Steady policy D r s) (hm : Mild s s') : Steady policy D r s' :=
  ⟨h.anchored.mild hm, fun hD => LinksDown.mild (h.down hD) hm⟩

theorem Anchored.parent (h : Anchored s r) : s.RealDir r.dropLast := by
  rcases List.eq_nil_or_concat r with rfl | ⟨d, a, rfl⟩
  · exact Disk.realDir_nil
  · rw [List.concat_eq_append] at h ⊢
    rw [List.dropLast_concat]
    exact h.real.parent

/-- A link at or below a name inside leads down. -/
theorem down_below (h : policy.LinksDown s) {d rest : AbsPath} {n : String} {t : LinkTarget String}
    (hd : policy.Confines d) (hl : s.look (d ++ [n] ++ rest) = some (.link t)) : t.Down := by
  rcases List.eq_nil_or_concat rest with rfl | ⟨rest, m, rfl⟩
  · rw [List.append_nil] at hl
    exact h d n t hd hl
  · rw [List.concat_eq_append, ← List.append_assoc] at hl
    have hrest : policy.Confines (d ++ [n] ++ rest) := confines_of_prefix (confines_concat hd n) (List.prefix_append _ _)
    exact h _ m t hrest hl

theorem LinksDown.move (h : policy.LinksDown s) (hm : s.move a b = some s')
    (hsrc : ∀ d n rest t, policy.Confines d → d ++ [n] = b ++ rest → s.look (a ++ rest) = some (.link t) →
      (rest ≠ [] → s.look a = some .dir) → t.Down) : policy.LinksDown s' := by
  intro d n t hd hl
  rcases Disk.of_look_move hm hl with hl | ⟨rest, hq, hl, hdir⟩
  · exact h d n t hd hl
  · exact hsrc d n rest t hd hq hl hdir

/-- A rename of something below the root. -/
theorem through_rename (hr : policy.Confines r) (hp : r <+: p) (h : Steady policy D r s) :
    Through (Steady policy D r) (fun s => D → policy.LinksDown s) [.rename p q] s := by
  refine ⟨h, fun s' hrun hD => ?_⟩
  have hdown := h.down hD
  obtain ⟨a, ha, hrun⟩ := Option.bind_eq_some_iff.1 hrun
  obtain ⟨b, -, hm⟩ := Option.bind_eq_some_iff.1 hrun
  obtain ⟨names, rfl⟩ := hp
  refine LinksDown.move hdown hm fun d n rest t _ _ hl _ => ?_
  rcases (confines_place (linksStay_of_linksDown hdown) hr h.anchored ha).2 rfl with rfl | ⟨d', m, hd', rfl⟩
  · rcases List.eq_nil_or_concat rest with rfl | ⟨rest, m, rfl⟩
    · rw [List.append_nil] at hl
      exact absurd hl (h.anchored.plain t)
    · rw [List.concat_eq_append, ← List.append_assoc] at hl
      have hrest : policy.Confines (a ++ rest) := confines_of_prefix hr (List.prefix_append _ _)
      exact hdown _ m t hrest hl
  · exact down_below hdown hd' hl

theorem run_setModeCalls {mode : Nat} {last : List PathCall} {F : Disk String → Prop}
    (h : Steady policy D r s) (hlast : Through (Steady policy D r) F last s) :
    Through (Steady policy D r) F (setModeCalls mode p ++ last) s := by
  unfold setModeCalls
  split
  · exact hlast
  · refine ⟨h, fun s' hrun => ?_⟩
    obtain ⟨q, -, hrun⟩ := Option.bind_eq_some_iff.1 hrun
    split at hrun
    · cases hrun
      exact hlast
    · cases hrun

/-- What has been opened in a real directory is no directory. -/
theorem not_dir_of_open {d : AbsPath} {n : String} {c : PathCall} (hd : s.RealDir d)
    (hc : c = .createFile (d ++ [n]) ∨ c = .openFile (d ++ [n])) (hrun : c.run s = some s') :
    s'.look (d ++ [n]) ≠ some .dir := by
  -- Were it one, it would have been there before, and the call would have come to it.
  have hplace : ∀ q, placeOf s true (d ++ [n]) = some q → s.look (d ++ [n]) = some .dir → q = d ++ [n] := by
    intro q hq hdir
    have hanch : Anchored s (d ++ [n]) := ⟨Disk.real_concat hd, by simp [hdir]⟩
    rw [hanch.placeOf] at hq
    exact (Option.some.inj hq).symm
  rcases hc with rfl | rfl
  · obtain ⟨q, hq, hrun⟩ := Option.bind_eq_some_iff.1 hrun
    split at hrun
    · rename_i hnone
      cases hrun
      intro hdir
      rcases Disk.of_look_add hnone hdir with hdir | ⟨-, he⟩
      · rw [hplace q hq hdir, hdir] at hnone
        cases hnone
      · cases he
    · rename_i hfile
      cases hrun
      intro hdir
      rw [hplace q hq hdir, hdir] at hfile
      cases hfile
    · cases hrun
  · obtain ⟨q, hq, hrun⟩ := Option.bind_eq_some_iff.1 hrun
    split at hrun
    · rename_i hfile
      cases hrun
      intro hdir
      rw [hplace q hq hdir, hdir] at hfile
      cases hfile
    · cases hrun

/-- A temporary file takes the place of its path. For the root itself it comes from beside
the root, where there may be anything; but it is no directory. -/
theorem through_swap (hr : policy.Confines r) {names : List String} {name : String} {mode : Nat} {c : PathCall}
    (hc : c = .createFile (AbsPath.withFileName (r ++ names) name) ∨
      c = .openFile (AbsPath.withFileName (r ++ names) name)) (h : Steady policy D r s) :
    Through (Steady policy D r) (fun s => D → policy.LinksDown s)
      (c :: (setModeCalls mode (AbsPath.withFileName (r ++ names) name) ++
        [.rename (AbsPath.withFileName (r ++ names) name) (r ++ names)])) s := by
  have hmild : c.isMild = true := by
    rcases hc with rfl | rfl
    · rfl
    · rfl
  refine ⟨h, fun s' hrun => ?_⟩
  have h' := h.mild (mild_of_run hmild hrun)
  refine run_setModeCalls h' ?_
  by_cases hn : names = []
  · subst hn
    rw [List.append_nil] at hc ⊢
    have hdir := not_dir_of_open h.anchored.parent hc hrun
    refine ⟨h', fun s'' hrun hD => ?_⟩
    obtain ⟨a, ha, hrun⟩ := Option.bind_eq_some_iff.1 hrun
    obtain ⟨b, hb, hm⟩ := Option.bind_eq_some_iff.1 hrun
    have hab : a = r.dropLast ++ [name] := (Disk.leads_of_walk ha).in_realDir h'.anchored.parent
    rw [h'.anchored.placeOf] at hb
    cases hb
    subst hab
    refine LinksDown.move (h'.down hD) hm fun d n rest t hd heq hl hrest => ?_
    by_cases hrn : rest = []
    · subst hrn
      rw [List.append_nil] at heq hl
      rw [← heq, List.dropLast_concat] at hl
      exact h'.down hD d name t hd hl
    · exact absurd (hrest hrn) hdir
  · exact through_rename hr (prefix_of_withFileName hn name) h'

end Steady

section Request
variable {policy : RootPolicy} {pid : Nat} {D : Prop} {s : Disk String} {cwd r : AbsPath} {root : String}

theorem through_joined {I F : Disk String → Prop} {rel : String} {f : AbsPath → List PathCall} (hF : F s)
    (h : ∀ names, Through I F (f (r ++ names)) s) : Through I F (joined r rel f) s := by
  unfold joined
  cases hp : safeJoin r rel with
  | error e => exact hF
  | ok p =>
    obtain ⟨names, rfl, -⟩ := safeJoin_eq_ok hp
    exact h names

theorem mild_createDirAllCalls {v : DiskView} {p : AbsPath} : ∀ c ∈ createDirAllCalls v p, c.isMild = true := by
  intro c hc
  obtain ⟨d, -, rfl⟩ := List.mem_map.1 hc
  rfl

theorem mild_setModeCalls {mode : Nat} {p : AbsPath} : ∀ c ∈ setModeCalls mode p, c.isMild = true := by
  intro c hc
  unfold setModeCalls at hc
  split at hc
  · cases hc
  · rw [List.mem_singleton.1 hc]
    rfl

theorem withFileName_of_uploadTempPath {p temp : AbsPath} {uploadId : String}
    (h : AbsPath.uploadTempPath p uploadId = some temp) : ∃ name, temp = AbsPath.withFileName p name := by
  unfold AbsPath.uploadTempPath at h
  split at h
  · cases h
    exact ⟨_, rfl⟩
  · cases h

/-- The calls of a request, one by one: before each the root is canonical, and the links
lead down at last, if they did and the request brings no other. -/
theorem through_callsIn (v : DiskView) (hr : policy.Confines r) {request : Request} (hD : D → request.LinksDown)
    (intact : Bool) (h : Steady policy D r s) :
    Through (Steady policy D r) (fun s => D → policy.LinksDown s) (request.callsIn v pid r intact) s := by
  have hmild : ∀ s s', Steady policy D r s → Mild s s' → Steady policy D r s' := fun _ _ h hm => h.mild hm
  have hF : ∀ s, Steady policy D r s → D → policy.LinksDown s := fun _ h => h.down
  have hall : ∀ {cs}, (∀ c ∈ cs, c.isMild = true) → Through (Steady policy D r) (fun s => D → policy.LinksDown s) cs s :=
    fun hcs => through_mild hcs hmild hF h
  have hone : ∀ {c s}, c.isMild = true → Steady policy D r s →
      Through (Steady policy D r) (fun s => D → policy.LinksDown s) [c] s :=
    fun hc hs => through_mild (by simpa using hc) hmild hF hs
  cases request with
  | hello | setClientId | run | statFs | writeFileOffset => exact h.down
  | snapshot | snapshotMeta | watchChanges | search => exact hone rfl h
  | listDir | stat | readFile | readFileChunk | readRange | fsync => exact through_joined h.down fun names => hone rfl h
  | readSmallFiles =>
    refine hall fun c hc => ?_
    obtain ⟨p, -, rfl⟩ := List.mem_map.1 hc
    rfl
  | writeFile _ rel _ mode =>
    refine through_joined h.down fun names => ?_
    exact through_append mild_createDirAllCalls hmild (fun s hs => through_swap hr (.inl rfl) hs) h
  | writeFileStart _ rel uploadId =>
    refine through_joined h.down fun names => hall fun c hc => ?_
    rcases List.mem_append.1 hc with hc | hc
    · exact mild_createDirAllCalls c hc
    · obtain ⟨temp, -, hc⟩ := List.mem_flatMap.1 hc
      split at hc
      · cases hc
      · rw [List.mem_singleton.1 hc]
        rfl
  | writeFileChunk =>
    refine through_joined h.down fun names => hall fun c hc => ?_
    obtain ⟨temp, -, rfl⟩ := List.mem_map.1 hc
    rfl
  | writeFileAt | writeFileAtBinary | writeFileAtStream | truncate =>
    exact through_joined h.down fun names => through_append mild_createDirAllCalls hmild (fun s hs => hone rfl hs) h
  | rename _ src dst =>
    refine through_joined h.down fun names => through_joined h.down fun names' => ?_
    refine through_append mild_createDirAllCalls hmild (fun s hs => ?_) h
    refine ⟨hs, fun s' hrun => ?_⟩
    exact through_rename hr (List.prefix_append _ _) (hs.mild (mild_of_run rfl hrun))
  | writeFileFinish _ rel uploadId _ mode =>
    refine through_joined h.down fun names => ?_
    cases ht : AbsPath.uploadTempPath (r ++ names) uploadId with
    | none => exact h.down
    | some temp =>
      obtain ⟨name, rfl⟩ := withFileName_of_uploadTempPath ht
      rw [Option.toList_some, List.flatMap_singleton]
      cases intact with
      | true => exact through_swap hr (.inr rfl) h
      | false => exact ⟨h, fun s' hrun => hone rfl (h.mild (mild_of_run rfl hrun))⟩
  | symlink _ rel target =>
    refine through_joined h.down fun names => ?_
    refine through_append mild_createDirAllCalls hmild (fun s hs => ?_) h
    refine ⟨hs, fun s' hrun => ?_⟩
    have hs := hs.mild (mild_of_run rfl hrun)
    refine ⟨hs, fun s'' hrun hDown => ?_⟩
    obtain ⟨q, -, hrun⟩ := Option.bind_eq_some_iff.1 hrun
    split at hrun
    · rename_i hq
      cases hrun
      intro d n t hd hl
      rcases Disk.of_look_add hq.1 hl with hl | ⟨-, ht⟩
      · exact hs.down hDown d n t hd hl
      · cases ht
        exact hD hDown
    · cases hrun
  | setMetadata _ rel mode modified =>
    refine through_joined h.down fun names => hall fun c hc => ?_
    rcases List.mem_append.1 hc with hc | hc
    · exact mild_setModeCalls c hc
    · split at hc
      · rw [List.mem_singleton.1 hc]
        rfl
      · cases hc
  | mkdir => exact through_joined h.down fun names => hall mild_createDirAllCalls
  | remove =>
    refine through_joined h.down fun names => ⟨h, fun s' hrun hDown => ?_⟩
    exact fun d n t hd hl => h.down hDown d n t hd (links_of_remove hrun hl)

/-! ## The paths of the calls -/

variable {v : DiskView} {p q : AbsPath}

theorem below_one {c : PathCall} (hc : c.paths = [p]) (hp : r <+: p) : c.Below r := by
  intro q hq
  rw [hc] at hq
  rw [List.mem_singleton.1 hq]
  exact hp

theorem below_rename (hp : r <+: p) (hq : r <+: q) : (PathCall.rename p q).Below r := by
  intro x hx
  rcases List.mem_cons.1 hx with rfl | hx
  · exact hp
  · rw [List.mem_singleton.1 hx]
    exact hq

theorem below_setModeCalls {mode : Nat} (hp : r <+: p) : ∀ c ∈ setModeCalls mode p, c.Below r := by
  intro c hc
  unfold setModeCalls at hc
  split at hc
  · cases hc
  · rw [List.mem_singleton.1 hc]
    exact below_one rfl hp

theorem below_createDirAllCalls (hr : policy.rootOf v root = some r) (hp : r <+: p) (hq : q <+: p) :
    ∀ c ∈ createDirAllCalls v q, c.Below r := by
  intro c hc
  obtain ⟨d, hd, rfl⟩ := List.mem_map.1 hc
  exact below_one rfl (prefix_of_createdDirs hr hp hq hd)

theorem below_joined {rel : String} {f : AbsPath → List PathCall}
    (h : ∀ names, (names = [] ↔ rel = "") → ∀ c ∈ f (r ++ names), c.Below r) : ∀ c ∈ joined r rel f, c.Below r := by
  unfold joined
  cases hp : safeJoin r rel with
  | error e =>
    intro c hc
    cases hc
  | ok p =>
    obtain ⟨names, rfl, hn⟩ := safeJoin_eq_ok hp
    exact h names hn

/-- All paths of the calls are below the root, unless it is an upload to the root itself. -/
theorem below_callsIn {request : Request} (hr : policy.rootOf v root = some r) (hat : ¬request.AtRoot) (intact : Bool) :
    ∀ c ∈ request.callsIn v pid r intact, c.Below r := by
  have hone : ∀ {c : PathCall} {p}, c.paths = [p] → r <+: p → ∀ c' ∈ [c], c'.Below r := fun hc hp c' hc' => by
    rw [List.mem_singleton.1 hc']
    exact below_one hc hp
  have hnames : ∀ {names : List String}, r <+: r ++ names := fun {names} => List.prefix_append _ _
  have hdirs : ∀ {names : List String}, ∀ c ∈ createDirAllCalls v (r ++ names).dropLast, c.Below r := fun {names} =>
    below_createDirAllCalls hr hnames (List.dropLast_prefix _)
  -- The temporary file of a path is beside it, and below the root.
  have htemp : ∀ {root rel names} name, request.staged = some (root, rel) → (names = [] ↔ rel = "") →
      r <+: AbsPath.withFileName (r ++ names) name := fun {root rel names} name hs hn =>
    prefix_of_withFileName (fun h => hat ⟨root, by rw [hs, hn.1 h]⟩) name
  cases request with
  | hello | setClientId | run | statFs | writeFileOffset =>
    intro c hc
    cases hc
  | snapshot | snapshotMeta | watchChanges | search => exact hone rfl List.prefix_rfl
  | listDir | stat | readFile | readFileChunk | readRange | fsync | remove =>
    exact below_joined fun names _ => hone rfl hnames
  | readSmallFiles =>
    intro c hc
    obtain ⟨p, hp, rfl⟩ := List.mem_map.1 hc
    exact below_one rfl (prefix_of_joinEach hp)
  | writeFile _ rel =>
    refine below_joined fun names hn => List.forall_mem_append.2 ⟨hdirs, ?_⟩
    have ht : r <+: AbsPath.atomicTempPath pid (r ++ names) := htemp _ rfl hn
    refine List.forall_mem_cons.2 ⟨below_one rfl ht, List.forall_mem_append.2 ⟨below_setModeCalls ht, ?_⟩⟩
    exact List.forall_mem_singleton.2 (below_rename ht hnames)
  | writeFileStart _ rel uploadId =>
    refine below_joined fun names hn => List.forall_mem_append.2 ⟨hdirs, fun c hc => ?_⟩
    obtain ⟨temp, ht, hc⟩ := List.mem_flatMap.1 hc
    obtain ⟨name, rfl⟩ := withFileName_of_uploadTempPath (Option.mem_toList.1 ht)
    split at hc
    · cases hc
    · exact hone rfl (htemp name rfl hn) c hc
  | writeFileChunk _ rel uploadId =>
    refine below_joined fun names hn c hc => ?_
    obtain ⟨temp, ht, rfl⟩ := List.mem_map.1 hc
    obtain ⟨name, rfl⟩ := withFileName_of_uploadTempPath (Option.mem_toList.1 ht)
    exact below_one rfl (htemp name rfl hn)
  | writeFileFinish _ rel uploadId =>
    refine below_joined fun names hn c hc => ?_
    obtain ⟨temp, ht, hc⟩ := List.mem_flatMap.1 hc
    obtain ⟨name, rfl⟩ := withFileName_of_uploadTempPath (Option.mem_toList.1 ht)
    have ht := htemp name rfl hn
    rcases List.mem_cons.1 hc with rfl | hc
    · exact below_one rfl ht
    · split at hc
      · rcases List.mem_append.1 hc with hc | hc
        · exact below_setModeCalls ht c hc
        · rw [List.mem_singleton.1 hc]
          exact below_rename ht hnames
      · exact hone rfl ht c hc
  | writeFileAt | writeFileAtBinary | writeFileAtStream | truncate =>
    exact below_joined fun names _ => List.forall_mem_append.2 ⟨hdirs, hone rfl hnames⟩
  | rename =>
    refine below_joined fun names _ => below_joined fun names' _ => List.forall_mem_append.2 ⟨hdirs, ?_⟩
    exact List.forall_mem_cons.2 ⟨below_one rfl hnames, List.forall_mem_singleton.2 (below_rename hnames hnames)⟩
  | symlink =>
    refine below_joined fun names _ => List.forall_mem_append.2 ⟨hdirs, ?_⟩
    exact List.forall_mem_cons.2 ⟨below_one rfl hnames, hone rfl hnames⟩
  | setMetadata =>
    refine below_joined fun names _ => List.forall_mem_append.2 ⟨below_setModeCalls hnames, fun c hc => ?_⟩
    split at hc
    · exact hone rfl hnames c hc
    · cases hc
  | mkdir => exact below_joined fun names _ => below_createDirAllCalls hr hnames List.prefix_rfl

end Request

/-! ## Runs -/

section Run
variable {policy : RootPolicy} {pid : Nat} {tempDir : AbsPath} {pathHash : AbsPath → String} {s : Disk String}

theorem mem_of_made {cs : List PathCall} {x : PathCall × Disk String} (h : x ∈ made cs s) : x.1 ∈ cs := by
  induction cs generalizing s with
  | nil => cases h
  | cons c cs ih =>
    rcases List.mem_cons.1 h with rfl | h
    · exact List.mem_cons_self
    · cases hrun : c.run s with
      | none => simp [hrun] at h
      | some s' =>
        rw [hrun] at h
        exact List.mem_cons_of_mem _ (ih h)

/-- What holds before each call of a request, and of its paths. -/
theorem through_requestCalls (hany : policy.allowAnyRoot = false) (e : Serving) {D : Prop}
    (hreq : D → e.request.LinksDown) (hs : D → policy.LinksDown s) :
    e.requestCalls policy pid s = [] ∨ ∃ r, policy.Confines r ∧
      Through (Steady policy D r) (fun s => D → policy.LinksDown s) (e.requestCalls policy pid s) s ∧
      (¬e.request.AtRoot → ∀ c ∈ e.requestCalls policy pid s, c.Below r) := by
  unfold Serving.requestCalls
  cases hroot : e.request.root with
  | none => exact .inl (by simp)
  | some root =>
    rw [Option.bind_some]
    cases hr : policy.rootOf (.on s e.cwd) root with
    | none => exact .inl (by simp)
    | some r =>
      rw [Option.elim_some]
      have hconf := confines_of_rootOf hany hr
      have hsteady : Steady policy D r s := ⟨(anchored_of_canonicalize (Option.filter_eq_some_iff.1 hr).1).1, hs⟩
      refine .inr ⟨r, hconf, (through_callsIn _ hconf hreq _ hsteady).take (fun _ h => h.down) _, fun hat c hc => ?_⟩
      exact below_callsIn hr hat _ c (List.mem_of_mem_take hc)

/-- Where the links stay when a call is made, what it touches is confined. -/
theorem request_confined (hany : policy.allowAnyRoot = false) {e : Serving} (hat : ¬e.request.AtRoot)
    {x : PathCall × Disk String} (hx : x ∈ made (e.requestCalls policy pid s) s) (hs : policy.LinksStay x.2) :
    ∀ q ∈ x.1.places x.2, policy.Confines q := by
  rcases through_requestCalls hany e False.elim False.elim with hnil | ⟨r, hconf, hthrough, hbelow⟩
  · rw [hnil] at hx
    cases hx
  · intro q hq
    exact confines_places hs hconf (hthrough.of_made hx).anchored (hbelow hat x.1 (mem_of_made hx)) hq

/-- A link that leads outside is followed for whoever reads it. -/
theorem touches_of_link {e : Serving} {root rel : String} {r p q : AbsPath} {a : String}
    (hreq : e.request = .readFile root rel) (hcalls : e.calls ≠ 0) (hr : policy.rootOf (.on s e.cwd) root = some r)
    (hp : safeJoin r rel = .ok (p ++ [a])) (hdir : s.RealDir p) (hq : s.walk true maxLinks p [.name a] = some q) :
    ∃ x ∈ made (e.requestCalls policy pid s) s, q ∈ x.1.places x.2 := by
  have hc : e.requestCalls policy pid s = [.openFile (p ++ [a])] := by
    obtain ⟨n, hn⟩ := Nat.exists_eq_succ_of_ne_zero hcalls
    have hin : e.request.callsIn (.on s e.cwd) pid r e.intact = [.openFile (p ++ [a])] := by
      rw [hreq]
      simp [Request.callsIn, joined, hp, Except.toOption]
    have hroot : e.request.root = some root := by rw [hreq, Request.root]
    rw [Serving.requestCalls, hroot, Option.bind_some, hr, Option.elim_some, hin, hn, List.take_succ_cons, List.take_nil]
  have hplace : placeOf s true (p ++ [a]) = some q := by
    have hlead := (Disk.leads_from_top hdir).2 (Disk.leads_of_walk hq)
    rw [placeOf, List.map_append]
    exact hlead.walk
  rw [hc]
  refine ⟨_, List.mem_cons_self, ?_⟩
  simp [PathCall.places, PathCall.paths, PathCall.follows, hplace]

theorem mild_markCalls {v : DiskView} {r : AbsPath} {opId : String} {stale : List String} :
    ∀ c ∈ markCalls tempDir pathHash v r opId stale, c.isMild = true := by
  refine List.forall_mem_append.2 ⟨List.forall_mem_append.2 ⟨mild_createDirAllCalls, fun c hc => ?_⟩, ?_⟩
  · obtain ⟨name, -, rfl⟩ := List.mem_map.1 hc
    rfl
  · exact List.forall_mem_singleton.2 rfl

theorem mild_marks {e : Serving} : ∀ c ∈ e.marks policy tempDir pathHash s, c.isMild = true := by
  intro c hc
  have hc := List.mem_of_mem_take hc
  cases hr : e.request.root.bind (policy.rootOf (.on s e.cwd)) with
  | none =>
    rw [hr] at hc
    cases hc
  | some r =>
    rw [hr, Option.elim_some] at hc
    cases ho : e.request.opId with
    | none =>
      rw [ho] at hc
      cases hc
    | some opId =>
      rw [ho] at hc
      exact mild_markCalls c hc

/-- While a request is served that brings no other links, the links lead down. -/
theorem serve_linksDown (hany : policy.allowAnyRoot = false) {e : Serving} (hreq : e.request.LinksDown)
    (hs : policy.LinksDown s) :
    (∀ x ∈ made (e.requestCalls policy pid s) s, policy.LinksDown x.2) ∧
      policy.LinksDown (e.serve policy pid tempDir pathHash s) := by
  have hmarks : ∀ t, policy.LinksDown t → policy.LinksDown (runAll (e.marks policy tempDir pathHash t) t) := by
    intro t ht
    have hthrough : Through policy.LinksDown policy.LinksDown (e.marks policy tempDir pathHash t) t :=
      through_mild mild_marks (fun _ _ h hm => LinksDown.mild h hm) (fun _ h => h) ht
    exact hthrough.runAll fun _ h => h
  have hF : ∀ r t, Steady policy True r t → True → policy.LinksDown t := fun _ _ h => h.down
  rcases through_requestCalls hany e (fun _ : True => hreq) (fun _ => hs) with hnil | ⟨r, -, hthrough, -⟩
  · rw [Serving.serve, hnil]
    exact ⟨fun x hx => (by cases hx), hmarks s hs⟩
  · exact ⟨fun x hx => (hthrough.of_made hx).down trivial, hmarks _ (hthrough.runAll (hF r) trivial)⟩

end Run

section Escape
variable (policy : RootPolicy) (pid : Nat) (tempDir : AbsPath) (pathHash : AbsPath → String)

/-- No request of a run leads outside of the allowed roots, uploads to the root itself
apart. -/
def NoEscape (es : List Serving) (s : Disk String) : Prop :=
  ∀ x ∈ history policy pid tempDir pathHash es s, ¬x.1.request.AtRoot → ∀ q ∈ x.2.1.places x.2.2, policy.Confines q

/-- No link leads outside when a call is made. -/
def NoneLeadsOut (es : List Serving) (s : Disk String) : Prop :=
  ∀ x ∈ history policy pid tempDir pathHash es s, policy.LinksStay x.2.2

variable {policy pid tempDir pathHash}

theorem noEscape_of_noneLeadsOut (hany : policy.allowAnyRoot = false) {es : List Serving} {s : Disk String}
    (h : NoneLeadsOut policy pid tempDir pathHash es s) : NoEscape policy pid tempDir pathHash es s := by
  induction es generalizing s with
  | nil =>
    intro x hx
    cases hx
  | cons e es ih =>
    intro x hx hat
    rcases List.mem_append.1 hx with hx | hx
    · have hstay := h x (List.mem_append_left _ hx)
      obtain ⟨y, hy, rfl⟩ := List.mem_map.1 hx
      exact request_confined hany hat hy hstay
    · exact ih (fun x hx => h x (List.mem_append_right _ hx)) x hx hat

theorem noneLeadsOut_of_linksDown (hany : policy.allowAnyRoot = false) {es : List Serving} {s : Disk String}
    (hs : policy.LinksDown s) (hes : ∀ e ∈ es, e.request.LinksDown) : NoneLeadsOut policy pid tempDir pathHash es s := by
  induction es generalizing s with
  | nil =>
    intro x hx
    cases hx
  | cons e es ih =>
    obtain ⟨hmade, hserved⟩ := serve_linksDown hany (hes e List.mem_cons_self) hs
    intro x hx
    rcases List.mem_append.1 hx with hx | hx
    · obtain ⟨y, hy, rfl⟩ := List.mem_map.1 hx
      exact linksStay_of_linksDown (hmade y hy)
    · exact ih hserved (fun e he => hes e (List.mem_cons_of_mem _ he)) x hx

/-- In every run from a disk without links below the allowed roots: no request leads
outside as long as no link does, and none ever does if the clients' links all lead down. -/
theorem run_confined (policy : RootPolicy) (pid : Nat) (tempDir : AbsPath) (pathHash : AbsPath → String)
    (es : List Serving) (s : Disk String) (hany : policy.allowAnyRoot = false) (hs : policy.NoLinks s) :
    (NoneLeadsOut policy pid tempDir pathHash es s → NoEscape policy pid tempDir pathHash es s) ∧
      ((∀ e ∈ es, e.request.LinksDown) → NoneLeadsOut policy pid tempDir pathHash es s) :=
  ⟨noEscape_of_noneLeadsOut hany, noneLeadsOut_of_linksDown hany (linksDown_of_noLinks hs)⟩

end Escape

theorem noLinks_of_entries {policy : RootPolicy} {s : Disk String} (h : ∀ x ∈ s.entries, ∀ t, x.2 ≠ .link t) :
    policy.NoLinks s := by
  intro p a t _ hl
  rw [Disk.look_of_ne (by simp)] at hl
  obtain ⟨l₁, l₂, hl, -⟩ := List.lookup_eq_some_iff.1 hl
  exact h (p ++ [a], .link t) (by simp [hl]) t rfl

def srvPolicy : RootPolicy := ⟨[["srv"]], false⟩

/-- A file inside, and one outside. -/
def twoFiles : Disk String := ⟨[(["srv"], .dir), (["srv", "notes"], .file), (["etc"], .dir), (["etc", "passwd"], .file)]⟩

/-- A request that fares well. -/
def Serving.ok (request : Request) : Serving := ⟨request, [], true, 100, 100, []⟩

/-- A link to a file next to it, and a read through it. -/
theorem link_down_confined : NoEscape srvPolicy 7 ["tmp"] (fun _ => "0")
    [.ok (.symlink "/srv" "l" "notes" none), .ok (.readFile "/srv" "l")] twoFiles :=
  have h := run_confined srvPolicy 7 ["tmp"] (fun _ => "0")
    [.ok (.symlink "/srv" "l" "notes" none), .ok (.readFile "/srv" "l")] twoFiles rfl
    (noLinks_of_entries (by simp [twoFiles]))
  h.1 (h.2 (by
    intro e he
    rcases List.mem_cons.1 he with rfl | he
    · exact ⟨by decide, by decide⟩
    · rw [List.mem_singleton.1 he]
      trivial))

/-- A link to a file outside, and a read through it. -/
theorem link_escapes : ¬∀ s es, srvPolicy.NoLinks s → NoEscape srvPolicy 7 ["tmp"] (fun _ => "0") es s := by
  intro h
  have hread : (Serving.ok (.readFile "/srv" "l"), PathCall.openFile ["srv", "l"],
      twoFiles.add ["srv", "l"] (.link (linkTarget "/etc/passwd"))) ∈ history srvPolicy 7 ["tmp"] (fun _ => "0")
        [.ok (.symlink "/srv" "l" "/etc/passwd" none), .ok (.readFile "/srv" "l")] twoFiles :=
    List.mem_of_getElem? (i := 2) (by rfl)
  obtain ⟨allowed, ha, hpre⟩ := h twoFiles _ (noLinks_of_entries (by simp [twoFiles])) _ hread
    (by rintro ⟨root, hroot⟩; cases hroot) ["etc", "passwd"] (by decide)
  obtain rfl := List.mem_singleton.1 ha
  revert hpre
  decide

end Mobfs
