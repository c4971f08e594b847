import Mobfs.Sync.Jobs
import Mobfs.Sync.Converge
/-!
# What a base snapshot may contain

A later sync takes a path that the base has and one side lacks for deleted there.
That is right if the side once had it. Every base is a snapshot of the remote, so
this is about the local side: `BaseInv` says that what is in the base was once
there too, and follows each command from its first snapshot to its save.

Four things can put a path into the base that local never had: a push that does
not delete (or a dry run of one) next to entries only the remote has; a sync that
finds a new remote directory with nothing in it to fetch; a creation on the remote
between the two remote snapshots of a command; and a transfer through a link.
`BaseGuard` excludes them.
-/

namespace Mobfs

open Std Lib

/-- The work leaves something at the local path. -/
def Work.Brings (p : String) : Work → Prop
  | .mkdirLocal d => p = d
  | .item (.get q) => p = q ∨ below p q = true
  | _ => False

/-- The work removes the remote path. -/
def Work.Clears (p : String) : Work → Prop
  | .item (.deleteRemote q) => p = q
  | _ => False

/-- The work does not go through a link. -/
def Workspace.Direct (s : Workspace) : Work → Prop
  | .mkdirLocal d => s.loc.Plain d
  | .mkdirRemote d => s.rem.Plain d
  | .item (.put p) => s.loc.Plain p ∧ s.rem.Plain p
  | .item (.get p) => s.loc.Plain p ∧ s.rem.Plain p
  | _ => True

/-- The job has its first remote snapshot and is going to take a second. -/
def Job.Between (j : Job) : Prop :=
  j.cmd.rescans = true ∧ match j.stage with
    | .read ts => .rem ∉ ts
    | .work _ => True
    | .save => False

/-- The plan covers what only the remote has and local never had. -/
def Workspace.PlanCovers (s : Workspace) (j : Job) : Prop :=
  match j.cmd with
  | .push delete dryRun => (delete = true ∧ dryRun = false) ∨ ∀ p, j.rem[p]? ≠ none → s.hadLoc p = true
  | .pull _ _ => True
  | .mirror => True
  | _ => ∀ d m, j.rem[d]? = some m → m.kind = .dir → j.loc[d]? = none → j.base[d]? = none →
      s.hadLoc d = true ∨ ∃ q, below d q = true ∧ .get q ∈ j.plan

section Guard
variable (links : Links) (sha : List UInt8 → String) (ignore : List String)

/-- A remote edit between the two remote snapshots of a command creates nothing
that local never had; a plan covers what only the remote has; no work goes through
a link. -/
def BaseGuard (s : Workspace) : WorkspaceAct → Prop
  | .editRemote t => (∃ j, s.job = some j ∧ j.Between) →
      ∀ p, (scan sha ignore t)[p]? ≠ none → (scan sha ignore s.rem)[p]? ≠ none ∨ s.hadLoc p = true
  | .run _ _ => ∀ j, s.job = some j → match j.stage with
      | .read [] => s.PlanCovers j
      | .work (w :: _) => s.Direct w
      | _ => True
  | _ => True

/-! ## The invariant -/

structure ReadInv (s : Workspace) (j : Job) (ts : List Read) : Prop where
  base : .base ∈ j.cmd.reads → .base ∉ ts → j.base = s.base
  loc : .loc ∉ ts → ∀ p, j.loc[p]? ≠ none → s.hadLoc p = true ∧ ∀ d, below d p = true → s.hadLoc d = true
  hadRem : .rem ∉ ts → ∀ p, j.rem[p]? ≠ none → s.hadRem p = true
  rem : .rem ∉ ts → j.cmd.rescans = true →
    ∀ p, (scan sha ignore s.rem)[p]? ≠ none → s.hadLoc p = true ∨ j.rem[p]? ≠ none

/-- While the plan is worked off, what goes into the base was once local or will
be brought there, or will be gone from the remote. -/
structure WorkInv (s : Workspace) (j : Job) (ws : List Work) : Prop where
  plan : ∀ i, .item i ∈ ws → i ∈ j.plan
  dirs : ∀ d, .mkdirRemote d ∈ ws → s.hadLoc d = true ∧ ∀ e, below e d = true → s.hadLoc e = true
  hadRem : ∀ p, j.rem[p]? ≠ none → s.hadRem p = true
  rem : j.cmd.rescans = true → ∀ p, (scan sha ignore s.rem)[p]? ≠ none →
    s.hadLoc p = true ∨ (∃ w ∈ ws, w.Brings p) ∨ ∃ w ∈ ws, w.Clears p
  pulled : j.cmd.rescans = false → ∀ p, j.rem[p]? ≠ none → s.hadLoc p = true ∨ ∃ w ∈ ws, w.Brings p

def SaveInv (s : Workspace) (j : Job) : Prop := ∀ p, j.rem[p]? ≠ none → s.hadLoc p = true ∧ s.hadRem p = true

def JobInv (s : Workspace) (j : Job) : Prop :=
  match j.stage with
  | .read ts => ReadInv sha ignore s j ts
  | .work ws => WorkInv sha ignore s j ws
  | .save => SaveInv s j

structure BaseInv (s : Workspace) : Prop where
  loc : ∀ p, s.loc.node p ≠ none → s.hadLoc p = true
  rem : ∀ p, s.rem.node p ≠ none → s.hadRem p = true
  base : ∀ p, s.base[p]? ≠ none → s.hadLoc p = true ∧ s.hadRem p = true
  job : ∀ j, s.job = some j → JobInv sha ignore s j

end Guard

variable {links : Links} {sha : List UInt8 → String} {ignore : List String} {s : Workspace}

/-! ## One piece of work -/

section Piece
variable {stamp : Stamp} {j : Job} {w : Work}

theorem dirs_plain {t : Tree} {d : String} (h : t.Plain d) : ∀ e ∈ ancestors d ++ [d], t.Plain e := by
  intro e he
  rcases List.mem_append.1 he with he | he
  · exact plain_ancestors h e he
  · rwa [List.mem_singleton.1 he]

/-- What is new on the remote was once local: it is uploaded from there. -/
theorem workNext_rem (hb : BaseInv sha ignore s)
    (hdirs : ∀ d, w = .mkdirRemote d → s.hadLoc d = true ∧ ∀ e, below e d = true → s.hadLoc e = true)
    (hd : s.Direct w) {p : String} (hp : (scan sha ignore (s.workNext links stamp j w).1.rem)[p]? ≠ none) :
    (scan sha ignore s.rem)[p]? ≠ none ∨ s.hadLoc p = true := by
  have hsame : ∀ {t : Tree}, t.node p = s.rem.node p → (scan sha ignore t)[p]? ≠ none →
      (scan sha ignore s.rem)[p]? ≠ none ∨ s.hadLoc p = true := by
    intro t he ht
    rw [scan_congr he] at ht
    exact .inl ht
  cases w with
  | mkdirLocal d =>
    simp only [Workspace.workNext] at hp
    split at hp <;> exact .inl hp
  | mkdirRemote d =>
    simp only [Workspace.workNext] at hp
    cases hc : createDirs links stamp.dirMode s.rem (ancestors d ++ [d]) with
    | none => rw [hc] at hp; exact .inl hp
    | some t =>
      rw [hc] at hp
      rcases (createDirs_spec (dirs_plain hd) hc).1 p with e | ⟨hm, -⟩
      · exact hsame e hp
      · obtain ⟨hdl, hel⟩ := hdirs d rfl
        rcases List.mem_append.1 hm with hm | hm
        · exact .inr (hel p (mem_ancestors_iff.1 hm))
        · exact .inr (List.mem_singleton.1 hm ▸ hdl)
  | item i =>
    cases i with
    | put q =>
      obtain ⟨hloc, hrem⟩ := hd
      obtain ⟨n, hi⟩ := applyItem_put_rem links j.rem stamp (s := ⟨s.loc, s.rem⟩) hrem
      rcases applyItem_put_lookup links j.rem stamp (s := ⟨s.loc, s.rem⟩) (p := q) with e | hl
      · simp only [Workspace.workNext, e] at hp
        exact .inl hp
      · -- The entry is local, and so are the directories it is in.
        rw [lookup_plain hloc] at hl
        rcases hi.node p with e | ⟨hb', -, -⟩ | ⟨rfl, -, -⟩
        · exact hsame e hp
        · have hdir := Tree.isDir_of_below hb' hl
          refine .inr (hb.loc p fun hn => ?_)
          simp [Tree.isDir, hn] at hdir
        · exact .inr (hb.loc p hl)
    | get q =>
      simp only [Workspace.workNext, applyItem_get_rem] at hp
      exact .inl hp
    | deleteRemote q =>
      rcases applyItem_deleteRemote_shrinks links j.rem stamp (s := ⟨s.loc, s.rem⟩) q p with e | e
      · exact hsame e hp
      · exact absurd e (node_ne_none_of_scan hp)
    | deleteLocal q => exact .inl hp
    | conflict q => exact .inl hp

/-- What work that succeeds should bring is there afterwards. -/
theorem workNext_brings (hrem : ∀ q, w = .item (.get q) → j.rem[q]? ≠ none) (hd : s.Direct w) {p : String}
    (hok : (s.workNext links stamp j w).2 = true) (hp : w.Brings p) :
    (s.workNext links stamp j w).1.loc.node p ≠ none := by
  cases w with
  | mkdirLocal d =>
    have hpd : p = d := hp
    subst hpd
    simp only [Workspace.workNext] at hok ⊢
    cases hc : createDirs links stamp.dirMode s.loc (ancestors p ++ [p]) with
    | none => rw [hc] at hok; cases hok
    | some t => exact (createDirs_spec (dirs_plain hd) hc).2 p (by simp)
  | mkdirRemote d => cases hp
  | item i =>
    cases i with
    | get q =>
      rcases applyItem_get_loc links j.rem stamp (s := ⟨s.loc, s.rem⟩) hd.1 with ⟨hno, -⟩ | ⟨n, hi⟩
      · exact absurd hno (hrem q rfl)
      · have hq := hi.done hok
        have hq' : (s.workNext links stamp j (.item (.get q))).1.loc.node q ≠ none := by
          rw [Workspace.workNext, hq]
          simp
        rcases hp with rfl | hp
        · exact hq'
        · have hdir := Tree.isDir_of_below hp hq'
          intro hn
          simp [Tree.isDir, hn] at hdir
    | put q => cases hp
    | deleteLocal q => cases hp
    | deleteRemote q => cases hp
    | conflict q => cases hp

/-- What work that succeeds should clear is gone afterwards. -/
theorem workNext_clears (hrem : ∀ q, w = .item (.deleteRemote q) → j.rem[q]? ≠ none) {p : String}
    (hok : (s.workNext links stamp j w).2 = true) (hp : w.Clears p) :
    (s.workNext links stamp j w).1.rem.node p = none := by
  cases w with
  | mkdirLocal d => cases hp
  | mkdirRemote d => cases hp
  | item i =>
    cases i with
    | deleteRemote q =>
      have hpq : p = q := hp
      subst hpq
      by_cases hpl : s.rem.Plain p
      · rcases applyItem_deleteRemote_rem links j.rem stamp (s := ⟨s.loc, s.rem⟩) hpl with ⟨e, hno⟩ | e
        · rcases hno with hno | hno | hno
          · exact absurd hno (hrem p rfl)
          · rw [Workspace.workNext, e]
            exact hno
          · rw [Workspace.workNext, hno] at hok
            cases hok
        · rw [Workspace.workNext, e, Tree.node_drop, if_pos (.inl rfl)]
      · -- Below a link there is no entry under this path.
        have hn : s.rem.node p = none := by
          by_contra hn
          exact hpl (Tree.plain_of_node hn)
        rcases applyItem_deleteRemote_shrinks links j.rem stamp (s := ⟨s.loc, s.rem⟩) p p with e | e
        · exact e.trans hn
        · exact e
    | put q => cases hp
    | get q => cases hp
    | deleteLocal q => cases hp
    | conflict q => cases hp

end Piece

/-! ## A step -/

section Step
variable {s' : Workspace} {j : Job}

/-- A job goes on as before while what each side had only grows and nothing that
local never had appears on the remote between its snapshots. -/
theorem JobInv.mono (h : JobInv sha ignore s j) (hL : ∀ p, s.hadLoc p = true → s'.hadLoc p = true)
    (hR : ∀ p, s.hadRem p = true → s'.hadRem p = true) (hbase : s'.base = s.base)
    (hrem : j.Between → ∀ p, (scan sha ignore s'.rem)[p]? ≠ none →
      (scan sha ignore s.rem)[p]? ≠ none ∨ s'.hadLoc p = true) :
    JobInv sha ignore s' j := by
  unfold JobInv at h ⊢
  cases hst : j.stage with
  | read ts =>
    simp only [hst] at h ⊢
    refine ⟨fun hb hn => (h.base hb hn).trans hbase.symm, ?_, fun hn p hp => hR p (h.hadRem hn p hp), ?_⟩
    · intro hn p hp
      obtain ⟨hp', hd⟩ := h.loc hn p hp
      exact ⟨hL p hp', fun d hb => hL d (hd d hb)⟩
    · intro hn hre p hp
      rcases hrem ⟨hre, by simpa only [hst] using hn⟩ p hp with hp' | hp'
      · exact (h.rem hn hre p hp').imp_left (hL p)
      · exact .inl hp'
  | work ws =>
    simp only [hst] at h ⊢
    refine ⟨h.plan, ?_, fun p hp => hR p (h.hadRem p hp), ?_, fun hre p hp => (h.pulled hre p hp).imp_left (hL p)⟩
    · intro d hd
      obtain ⟨hd', he⟩ := h.dirs d hd
      exact ⟨hL d hd', fun e hb => hL e (he e hb)⟩
    · intro hre p hp
      rcases hrem ⟨hre, by simp only [hst]⟩ p hp with hp' | hp'
      · exact (h.rem hre p hp').imp_left (hL p)
      · exact .inl hp'
  | save =>
    simp only [hst] at h ⊢
    intro p hp
    exact ⟨hL p (h p hp).1, hR p (h p hp).2⟩

/-- Edits keep the invariant. -/
theorem BaseInv.move (h : BaseInv sha ignore s) {l r : Tree} {user : Bool}
    (hrem : ∀ j, s.job = some j → j.Between → ∀ p, (scan sha ignore r)[p]? ≠ none →
      (scan sha ignore s.rem)[p]? ≠ none ∨ s.hadLoc p = true) :
    BaseInv sha ignore (s.move sha ignore l r user) := by
  have hL : ∀ p, s.hadLoc p = true → (s.move sha ignore l r user).hadLoc p = true :=
    fun p hp => Workspace.move_hadLoc.2 (.inl hp)
  have hR : ∀ p, s.hadRem p = true → (s.move sha ignore l r user).hadRem p = true :=
    fun p hp => Workspace.move_hadRem.2 (.inl hp)
  refine ⟨fun p hp => Workspace.move_hadLoc.2 (.inr hp), fun p hp => Workspace.move_hadRem.2 (.inr hp), ?_, ?_⟩
  · intro p hp
    exact ⟨hL p (h.base p hp).1, hR p (h.base p hp).2⟩
  · intro j hj
    exact (h.job j hj).mono hL hR rfl fun hb p hp => (hrem j hj hb p hp).imp_right (hL p)

theorem BaseInv.withJob (h : BaseInv sha ignore s) {job : Option Job}
    (hj : ∀ j, job = some j → JobInv sha ignore { s with job := job } j) : BaseInv sha ignore { s with job := job } :=
  ⟨h.loc, h.rem, h.base, hj⟩

theorem ReadInv.start (c : Cmd) : ReadInv sha ignore s c.job c.reads := by
  refine ⟨fun hb hn => absurd hb hn, fun hn => ?_, fun hn => ?_, fun hn => ?_⟩ <;> cases c <;> simp [Cmd.reads] at hn

/-- Taking a snapshot or reading the base. -/
theorem ReadInv.next (hb : BaseInv sha ignore s) {r : Read} {rs : List Read} (h : ReadInv sha ignore s j (r :: rs)) :
    ReadInv sha ignore s (s.readNext sha ignore j r) rs := by
  have hmem : ∀ {x : Read}, x ≠ r → x ∉ rs → x ∉ r :: rs := by
    intro x hx hn hm
    rcases List.mem_cons.1 hm with e | hm
    · exact hx e
    · exact hn hm
  cases r with
  | base =>
    exact ⟨fun _ _ => rfl, fun hn => h.loc (hmem (by simp) hn), fun hn => h.hadRem (hmem (by simp) hn),
      fun hn => h.rem (hmem (by simp) hn)⟩
  | loc =>
    refine ⟨fun hr hn => h.base hr (hmem (by simp) hn), ?_, fun hn => h.hadRem (hmem (by simp) hn),
      fun hn => h.rem (hmem (by simp) hn)⟩
    intro _ p hp
    have hnode := node_ne_none_of_scan hp
    refine ⟨hb.loc p hnode, fun d hd => hb.loc d fun hn => ?_⟩
    have hdir := Tree.isDir_of_below hd hnode
    simp [Tree.isDir, hn] at hdir
  | rem =>
    refine ⟨fun hr hn => h.base hr (hmem (by simp) hn), fun hn => h.loc (hmem (by simp) hn), ?_, ?_⟩
    · intro _ p hp
      exact hb.rem p (node_ne_none_of_scan hp)
    · intro _ _ p hp
      exact .inr hp

/-- What the sync has not yet to fetch and does not delete, local has had. -/
theorem covered_sync (base loc rem : Snapshot) (delete : Bool) (p : String)
    (hl : loc[p]? ≠ none → s.hadLoc p = true) (hb : base[p]? ≠ none → s.hadLoc p = true)
    (hd : ∀ m, rem[p]? = some m → m.kind = .dir → loc[p]? = none → base[p]? = none →
      s.hadLoc p = true ∨ ∃ q, below p q = true ∧ .get q ∈ syncItems base loc rem delete)
    (hr : rem[p]? ≠ none) :
    s.hadLoc p = true ∨ ∃ q, .get q ∈ syncItems base loc rem delete ∧ (p = q ∨ below p q = true) := by
  obtain ⟨m, hm⟩ := Option.ne_none_iff_exists'.1 hr
  by_cases hln : loc[p]? = none
  · by_cases hbn : base[p]? = none
    · cases hk : m.kind.carried with
      | true =>
        refine .inr ⟨p, mem_syncItems.2 ⟨p, syncItem_eq_some.2 (.inr (.inr (.inl ⟨rfl, ?_, ?_, m, hm, hk⟩)))⟩, .inl rfl⟩
        · rw [hln, hbn]
        · rw [hm, hbn]
          simp
      | false =>
        have hdir : m.kind = .dir := by
          cases hkk : m.kind with
          | dir => rfl
          | file => rw [hkk] at hk; cases hk
          | symlink => rw [hkk] at hk; cases hk
        rcases hd m hm hdir hln hbn with h | ⟨q, hq, hg⟩
        · exact .inl h
        · exact .inr ⟨q, hg, .inr hq⟩
    · exact .inl (hb hbn)
  · exact .inl (hl hln)

/-- What a pull has not yet to bring, local has had. -/
theorem covered_pull {loc rem : Snapshot} {delete : Bool} {p : String} (hl : loc[p]? ≠ none → s.hadLoc p = true)
    (hr : rem[p]? ≠ none) :
    s.hadLoc p = true ∨ ∃ w ∈ rem.dirs.map .mkdirLocal ++ (pullItems loc rem delete).map .item, Work.Brings p w := by
  obtain ⟨m, hm⟩ := Option.ne_none_iff_exists'.1 hr
  by_cases hln : loc[p]? = none
  · right
    cases hk : m.kind.carried with
    | true =>
      refine ⟨.item (.get p), List.mem_append_right _ (List.mem_map_of_mem ?_), .inl rfl⟩
      exact mem_carryItems.2 (.inl ⟨p, m, rfl, hm, hk, by simp [hln]⟩)
    | false =>
      refine ⟨.mkdirLocal p, List.mem_append_left _ (List.mem_map_of_mem (mem_dirs.2 ⟨m, hm, ?_⟩)), rfl⟩
      cases hkk : m.kind with
      | dir => rfl
      | file => rw [hkk] at hk; cases hk
      | symlink => rw [hkk] at hk; cases hk
  · exact .inl (hl hln)

/-- What a job holds when it has read everything. -/
theorem ReadInv.covers_sync (hb : BaseInv sha ignore s) (h : ReadInv sha ignore s j []) (delete : Bool)
    (hplan : j.plan = syncItems j.base j.loc j.rem delete) (hreads : .base ∈ j.cmd.reads) (hre : j.cmd.rescans = true)
    (hd : ∀ d m, j.rem[d]? = some m → m.kind = .dir → j.loc[d]? = none → j.base[d]? = none →
      s.hadLoc d = true ∨ ∃ q, below d q = true ∧ .get q ∈ j.plan) :
    WorkInv sha ignore s j (j.plan.map .item) := by
  have hbase : j.base = s.base := h.base hreads (by simp)
  refine ⟨by simp, by simp, h.hadRem (by simp), ?_, fun hno => by rw [hre] at hno; cases hno⟩
  intro _ p hp
  rcases h.rem (by simp) hre p hp with hh | hr
  · exact .inl hh
  · have hcov := covered_sync (s := s) j.base j.loc j.rem delete p (fun hl => (h.loc (by simp) p hl).1) (fun hbp => (hb.base p (hbase ▸ hbp)).1)
      (fun m hm hk hl hb' => by rw [← hplan]; exact hd p m hm hk hl hb') hr
    rw [← hplan] at hcov
    rcases hcov with hh | ⟨q, hq, hpq⟩
    · exact .inl hh
    · exact .inr (.inl ⟨.item (.get q), List.mem_map_of_mem hq, hpq⟩)

theorem ReadInv.covers_pull (h : ReadInv sha ignore s j []) (delete : Bool)
    (hplan : j.plan = pullItems j.loc j.rem delete) (hre : j.cmd.rescans = false) :
    WorkInv sha ignore s j (j.rem.dirs.map .mkdirLocal ++ j.plan.map .item) := by
  refine ⟨by simp, by simp, h.hadRem (by simp), (fun hno => by rw [hre] at hno; cases hno), ?_⟩
  intro _ p hp
  rw [hplan]
  exact covered_pull (fun hl => (h.loc (by simp) p hl).1) hp

theorem ReadInv.covers_push (h : ReadInv sha ignore s j []) {delete dryRun : Bool}
    (hplan : j.plan = pushItems j.loc j.rem delete) (hre : j.cmd.rescans = true)
    (hd : (delete = true ∧ dryRun = false) ∨ ∀ p, j.rem[p]? ≠ none → s.hadLoc p = true) :
    WorkInv sha ignore s j (j.loc.dirs.map .mkdirRemote ++ if dryRun then [] else j.plan.map .item) := by
  refine ⟨?_, ?_, h.hadRem (by simp), ?_, fun hno => by rw [hre] at hno; cases hno⟩
  · intro i hi
    cases dryRun with
    | true => simp at hi
    | false => simpa using hi
  · intro d hd'
    obtain ⟨m, hm, -⟩ : ∃ m, j.loc[d]? = some m ∧ m.kind = .dir := mem_dirs.1 (by
      cases dryRun <;> simpa using hd')
    exact h.loc (by simp) d (by simp [hm])
  · intro _ p hp
    rcases h.rem (by simp) hre p hp with hh | hr
    · exact .inl hh
    · by_cases hl : j.loc[p]? = none
      · rcases hd with ⟨rfl, rfl⟩ | hall
        · refine .inr (.inr ⟨.item (.deleteRemote p), ?_, rfl⟩)
          rw [hplan]
          exact List.mem_append_right _ (List.mem_map_of_mem (mem_carryItems.2 (.inr ⟨p, rfl, rfl, hr, hl⟩)))
        · exact .inl (hall p hr)
      · exact .inl (h.loc (by simp) p hl).1

/-- Making the plan. -/
theorem ReadInv.planned (hb : BaseInv sha ignore s) (h : ReadInv sha ignore s j []) (hc : s.PlanCovers j)
    {ws : List Work} (hw : j.planned = some ws) : WorkInv sha ignore s j ws := by
  unfold Job.planned at hw
  unfold Workspace.PlanCovers at hc
  cases hcmd : j.cmd with
  | sync delete dryRun =>
    simp only [hcmd, Option.ite_none_left_eq_some, Option.some.injEq] at hw
    simp only [hcmd] at hc
    rw [← hw.2.2]
    exact h.covers_sync hb delete (by simp [Job.plan, hcmd, Cmd.command, Cmd.delete, Command.plan])
      (by simp [hcmd, Cmd.reads]) (by simp [hcmd, Cmd.rescans]) hc
  | resilient delete =>
    simp only [hcmd, Option.ite_none_left_eq_some, Option.some.injEq] at hw
    simp only [hcmd] at hc
    rw [← hw.2.2]
    exact h.covers_sync hb delete (by simp [Job.plan, hcmd, Cmd.command, Cmd.delete, Command.plan])
      (by simp [hcmd, Cmd.reads]) (by simp [hcmd, Cmd.rescans]) hc
  | pull delete dryRun =>
    simp only [hcmd, Option.ite_none_left_eq_some, Option.some.injEq] at hw
    rw [← hw.2]
    exact h.covers_pull delete (by simp [Job.plan, hcmd, Cmd.command, Cmd.delete, Command.plan])
      (by simp [hcmd, Cmd.rescans])
  | mirror =>
    simp only [hcmd, Option.some.injEq] at hw
    rw [← hw]
    exact h.covers_pull false (by simp [Job.plan, hcmd, Cmd.command, Cmd.delete, Command.plan])
      (by simp [hcmd, Cmd.rescans])
  | push delete dryRun =>
    simp only [hcmd, Option.some.injEq] at hw hc
    rw [← hw]
    exact h.covers_push (by simp [Job.plan, hcmd, Cmd.command, Cmd.delete, Command.plan])
      (by simp [hcmd, Cmd.rescans]) hc

/-- One piece of work, done or failed. -/
theorem BaseInv.work (h : BaseInv sha ignore s) (links : Links) (stamp : Stamp) {w : Work} {ws : List Work}
    (hw : WorkInv sha ignore s j (w :: ws)) (hd : s.Direct w) {s1 : Workspace}
    (hs1 : s1 = s.move sha ignore (s.workNext links stamp j w).1.loc (s.workNext links stamp j w).1.rem false) :
    BaseInv sha ignore { s1 with job := none } ∧
    ((s.workNext links stamp j w).2 = true → WorkInv sha ignore s1 j ws) := by
  have hdirs : ∀ d, w = .mkdirRemote d → s.hadLoc d = true ∧ ∀ e, below e d = true → s.hadLoc e = true :=
    fun d hd' => hw.dirs d (hd' ▸ List.mem_cons_self)
  have hL : ∀ p, s.hadLoc p = true → s1.hadLoc p = true := by
    subst hs1
    exact fun p hp => Workspace.move_hadLoc.2 (.inl hp)
  have hR : ∀ p, s.hadRem p = true → s1.hadRem p = true := by
    subst hs1
    exact fun p hp => Workspace.move_hadRem.2 (.inl hp)
  have hloc : ∀ p, s1.loc.node p ≠ none → s1.hadLoc p = true := by
    subst hs1
    exact fun p hp => Workspace.move_hadLoc.2 (.inr hp)
  have hrem : ∀ p, s1.rem.node p ≠ none → s1.hadRem p = true := by
    subst hs1
    exact fun p hp => Workspace.move_hadRem.2 (.inr hp)
  have hbase : s1.base = s.base := by
    subst hs1
    rfl
  refine ⟨⟨hloc, hrem, fun p hp => ?_, by simp⟩, ?_⟩
  · replace hp : s.base[p]? ≠ none := by
      rw [← hbase]
      exact hp
    exact ⟨hL p (h.base p hp).1, hR p (h.base p hp).2⟩
  · intro hok
    have hget : ∀ q, w = .item (.get q) → j.rem[q]? ≠ none := by
      rintro q rfl
      obtain ⟨m, hm, -⟩ := Command.of_get (hw.plan _ List.mem_cons_self)
      simp [hm]
    have hdel : ∀ q, w = .item (.deleteRemote q) → j.rem[q]? ≠ none := by
      rintro q rfl
      exact (Command.of_deleteRemote (hw.plan _ List.mem_cons_self)).2.2.1
    have hbring : ∀ p, w.Brings p → s1.hadLoc p = true := by
      subst hs1
      exact fun p hp => Workspace.move_hadLoc.2 (.inr (workNext_brings hget hd hok hp))
    refine ⟨fun i hi => hw.plan i (List.mem_cons_of_mem _ hi), ?_, fun p hp => hR p (hw.hadRem p hp), ?_, ?_⟩
    · intro d hd'
      obtain ⟨h1, h2⟩ := hw.dirs d (List.mem_cons_of_mem _ hd')
      exact ⟨hL d h1, fun e he => hL e (h2 e he)⟩
    · intro hre p hp
      have hp1 : (scan sha ignore (s.workNext links stamp j w).1.rem)[p]? ≠ none := by
        subst hs1
        exact hp
      rcases workNext_rem h hdirs hd hp1 with hp' | hp'
      · rcases hw.rem hre p hp' with hh | ⟨x, hx, hxp⟩ | ⟨x, hx, hxp⟩
        · exact .inl (hL p hh)
        · rcases List.mem_cons.1 hx with rfl | hx
          · exact .inl (hbring p hxp)
          · exact .inr (.inl ⟨x, hx, hxp⟩)
        · rcases List.mem_cons.1 hx with rfl | hx
          · exact absurd (workNext_clears hdel hok hxp) (node_ne_none_of_scan hp1)
          · exact .inr (.inr ⟨x, hx, hxp⟩)
      · exact .inl (hL p hp')
    · intro hre p hp
      rcases hw.pulled hre p hp with hh | ⟨x, hx, hxp⟩
      · exact .inl (hL p hh)
      · rcases List.mem_cons.1 hx with rfl | hx
        · exact .inl (hbring p hxp)
        · exact .inr ⟨x, hx, hxp⟩

theorem BaseInv.saved (h : BaseInv sha ignore s)
    (hj : ∀ p, j.rem[p]? ≠ none → s.hadLoc p = true ∧ s.hadRem p = true) :
    BaseInv sha ignore { s with base := j.rem, job := none } :=
  ⟨h.loc, h.rem, hj, by simp⟩

/-- The next step of a job. -/
theorem advance_inv (h : BaseInv sha ignore s) (links : Links) (stamp : Stamp) (hj : s.job = some j)
    (hg : match j.stage with
      | .read [] => s.PlanCovers j
      | .work (w :: _) => s.Direct w
      | _ => True) :
    BaseInv sha ignore (s.advance links sha ignore stamp j) := by
  have hjob := h.job j hj
  unfold JobInv at hjob
  unfold Workspace.advance
  cases hst : j.stage with
  | read ts =>
    simp only [hst] at hjob hg
    cases ts with
    | nil =>
      simp only
      refine h.withJob fun j' hj' => ?_
      obtain ⟨ws, hws, rfl⟩ := Option.map_eq_some_iff.1 hj'
      obtain ⟨h1, h2, h3, h4, h5⟩ := hjob.planned h hg hws
      exact ⟨h1, h2, h3, h4, h5⟩
    | cons r rs =>
      simp only
      refine h.withJob fun j' hj' => ?_
      cases hj'
      obtain ⟨h1, h2, h3, h4⟩ := hjob.next h
      exact ⟨h1, h2, h3, h4⟩
  | work ws =>
    simp only [hst] at hjob hg
    cases ws with
    | nil =>
      have hnone : ∀ p, ¬ (∃ w ∈ ([] : List Work), w.Brings p) := by simp
      have hnone' : ∀ p, ¬ (∃ w ∈ ([] : List Work), w.Clears p) := by simp
      simp only
      cases hre : j.cmd.rescans with
      | true =>
        simp only [if_true]
        refine h.withJob fun j' hj' => ?_
        cases hj'
        intro p hp
        refine ⟨?_, h.rem p (node_ne_none_of_scan hp)⟩
        rcases hjob.rem hre p hp with hh | hh | hh
        · exact hh
        · exact absurd hh (hnone p)
        · exact absurd hh (hnone' p)
      | false =>
        simp only [Bool.false_eq_true, if_false]
        refine h.saved fun p hp => ⟨?_, hjob.hadRem p hp⟩
        rcases hjob.pulled hre p hp with hh | hh
        · exact hh
        · exact absurd hh (hnone p)
    | cons w ws =>
      obtain ⟨hb, hok⟩ := h.work links stamp hjob hg rfl
      simp only
      refine ⟨hb.loc, hb.rem, hb.base, fun j' hj' => ?_⟩
      simp only [Option.ite_none_right_eq_some, Option.some.injEq] at hj'
      obtain ⟨hok', rfl⟩ := hj'
      obtain ⟨h1, h2, h3, h4, h5⟩ := hok hok'
      exact ⟨h1, h2, h3, h4, h5⟩
  | save =>
    simp only [hst] at hjob
    exact h.saved hjob

theorem baseInv_step {a : WorkspaceAct} (h : BaseInv sha ignore s) (hg : BaseGuard sha ignore s a)
    (hs : s.step links sha ignore a = some s') : BaseInv sha ignore s' := by
  cases a with
  | editLocal t =>
    cases hs
    exact h.move fun _ _ _ p hp => .inl hp
  | editRemote t =>
    cases hs
    exact h.move fun j hj hbt => hg ⟨j, hj, hbt⟩
  | leftover t =>
    simp only [Workspace.step, Option.ite_none_right_eq_some, Option.some.injEq] at hs
    rw [← hs.2]
    exact h.move fun _ _ _ p hp => .inl hp
  | start c =>
    simp only [Workspace.step, Option.ite_none_right_eq_some, Option.some.injEq] at hs
    rw [← hs.2]
    refine h.withJob fun j hj => ?_
    cases hj
    exact ReadInv.start c
  | run stamp fault =>
    obtain ⟨j, hj, rfl⟩ := Option.map_eq_some_iff.1 hs
    have hadv := advance_inv h links stamp hj (hg j hj)
    cases fault with
    | none => exact hadv
    | before => exact h.withJob (by simp)
    | after => exact hadv.withJob (by simp)

theorem fresh_inv (l r : Tree) : BaseInv sha ignore (Workspace.fresh sha ignore l r) := by
  refine ⟨fun p hp => Workspace.move_hadLoc.2 (.inr hp), fun p hp => Workspace.move_hadRem.2 (.inr hp), ?_, ?_⟩
  · intro p hp
    simp [Workspace.fresh] at hp
  · intro j hj
    simp [Workspace.fresh] at hj

end Step

/-- In every run of edits and commands that meets `BaseGuard`, whatever a sync is
about to delete on one side the other side once had, and so has everything in the
base. -/
theorem deletions_were_there (links : Links) (sha : List UInt8 → String) (ignore : List String) (l r : Tree)
    (as : List WorkspaceAct) (s : Workspace)
    (hguard : Guarded (Workspace.step links sha ignore) (BaseGuard sha ignore) (Workspace.fresh sha ignore l r) as)
    (hrun : exec (Workspace.step links sha ignore) (Workspace.fresh sha ignore l r) as = some s) :
    (∀ j base, s.job = some j → j.stage = .read [] → j.cmd.command base = .sync base →
      (∀ p, .deleteRemote p ∈ j.plan → s.hadLoc p = true) ∧ (∀ p, .deleteLocal p ∈ j.plan → s.hadRem p = true)) ∧
    ∀ p, s.base[p]? ≠ none → s.hadLoc p = true ∧ s.hadRem p = true := by
  have h : BaseInv sha ignore s :=
    exec_guarded_inv (BaseInv sha ignore) (fun _ _ _ h hg hs => baseInv_step h hg hs) (fresh_inv l r) hguard hrun
  refine ⟨?_, h.base⟩
  intro j base hj hst hcmd
  have hjob := h.job j hj
  simp only [JobInv, hst] at hjob
  have hbase : j.base = s.base := by
    refine hjob.base ?_ (by simp)
    cases hc : j.cmd <;> simp [hc, Cmd.command, Cmd.reads] at hcmd ⊢
  have hplan : j.plan = (Command.sync j.base).plan j.loc j.rem j.cmd.delete := by
    cases hc : j.cmd <;> simp [hc, Cmd.command, Job.plan] at hcmd ⊢
  refine ⟨?_, ?_⟩
  · intro p hp
    rw [hplan] at hp
    obtain ⟨-, -, hr, hsame⟩ := Command.of_deleteRemote hp
    exact (h.base p (by rw [← hbase, ← (show j.rem[p]? = j.base[p]? from hsame)]; exact hr)).1
  · intro p hp
    rw [hplan] at hp
    obtain ⟨-, -, hl, hsame⟩ := Command.of_deleteLocal hp
    exact (h.base p (by rw [← hbase, ← (show j.loc[p]? = j.base[p]? from hsame)]; exact hl)).2

/-! ## A deletion that is real, and one that is not -/

/-- A test for `BaseGuard` in runs without remote edits. -/
def Workspace.checkBase (s : Workspace) : WorkspaceAct → Bool
  | .editRemote _ => false
  | .run _ _ =>
    match s.job with
    | none => true
    | some j =>
      match j.stage with
      | .read [] =>
        match j.cmd with
        | .push delete dryRun => delete && !dryRun
        | _ => j.rem.dirs.isEmpty
      | .work (.item (.put p) :: _) => decide (s.loc.Plain p ∧ s.rem.Plain p)
      | .work (_ :: _) => false
      | _ => true
  | _ => true

theorem baseGuard_of_check {sha : List UInt8 → String} {ignore : List String} {s : Workspace} {a : WorkspaceAct}
    (h : s.checkBase a = true) : BaseGuard sha ignore s a := by
  cases a with
  | editRemote t => cases h
  | run stamp fault =>
    intro j hj
    simp only [Workspace.checkBase, hj] at h
    cases hst : j.stage with
    | read ts =>
      cases ts with
      | cons r rs => trivial
      | nil =>
        -- A snapshot without directories has none to cover.
        have hnodirs : j.rem.dirs.isEmpty = true → ∀ (d : String) (m : EntryMeta), j.rem[d]? = some m → m.kind ≠ .dir := by
          intro he d m hm hk
          have hmem : d ∈ j.rem.dirs := mem_dirs.2 ⟨m, hm, hk⟩
          rw [List.isEmpty_iff.1 he] at hmem
          cases hmem
        simp only [hst] at h
        unfold Workspace.PlanCovers
        cases hc : j.cmd with
        | push delete dryRun =>
          simp only [hc, Bool.and_eq_true, Bool.not_eq_true'] at h
          exact .inl h
        | pull delete dryRun => trivial
        | mirror => trivial
        | sync delete dryRun =>
          simp only [hc] at h
          exact fun d m hm hk => absurd hk (hnodirs h d m hm)
        | resilient delete =>
          simp only [hc] at h
          exact fun d m hm hk => absurd hk (hnodirs h d m hm)
    | work ws =>
      simp only [hst] at h
      split at h
      all_goals simp_all [Workspace.Direct]
    | save => trivial
  | editLocal t => trivial
  | leftover t => trivial
  | start c => trivial

def calmRun : WorkspaceAct := .run calmStamp .none

/-- The note is pushed, then deleted locally, and a sync is about to delete it on
the remote. -/
def deletesNote : List WorkspaceAct :=
  [.start (.push true false)] ++ List.replicate 6 calmRun ++ [.editLocal .empty, .start (.sync true false)] ++
    List.replicate 3 calmRun

theorem deletions_were_there_note :
    ∃ s j, exec (Workspace.step brokenLinks (fun _ => "") []) (.fresh (fun _ => "") [] note .empty) deletesNote = some s ∧
      s.job = some j ∧ j.stage = .read [] ∧ .deleteRemote "note" ∈ j.plan ∧ s.hadLoc "note" = true := by
  have hrun : (exec (Workspace.step brokenLinks (fun _ => "") []) (.fresh (fun _ => "") [] note .empty) deletesNote).any
      (fun s => s.job.any fun j => decide (j.stage = .read [] ∧ j.cmd = .sync true false ∧ .deleteRemote "note" ∈ j.plan)) := by
    decide
  obtain ⟨s, hs, hj⟩ := (Option.any_eq_true _ _).1 hrun
  obtain ⟨j, hj, hd⟩ := (Option.any_eq_true _ _).1 hj
  obtain ⟨hst, hcmd, hd⟩ := of_decide_eq_true hd
  have hg : Guarded (Workspace.step brokenLinks (fun _ => "") []) (BaseGuard (fun _ => "") [])
      (.fresh (fun _ => "") [] note .empty) deletesNote :=
    guarded_of_checkRun (fun _ => True) (fun _ => True) Workspace.checkBase (fun _ _ _ _ _ _ => trivial)
      (fun _ _ _ _ => baseGuard_of_check) trivial (fun _ _ => trivial) (by decide)
  have h := deletions_were_there brokenLinks (fun _ => "") [] note .empty deletesNote s hg hs
  exact ⟨s, j, hs, hj, hst, hd, (h.1 j ∅ hj hst (by rw [hcmd]; rfl)).1 "note" hd⟩

/-- The remote has a note that local never had. A push without `delete` saves it
in the base all the same, and the next sync deletes it. -/
def pushesBesideNote : List WorkspaceAct :=
  [.start (.push false false)] ++ List.replicate 5 calmRun ++ [.start (.sync true false)] ++ List.replicate 3 calmRun

theorem sync_deletes_what_local_never_had :
    ∃ s j, exec (Workspace.step brokenLinks (fun _ => "") []) (.fresh (fun _ => "") [] .empty note) pushesBesideNote = some s ∧
      s.job = some j ∧ j.cmd = .sync true false ∧ j.stage = .read [] ∧ j.plan = [.deleteRemote "note"] ∧
      s.hadLoc "note" = false := by
  have hrun : (exec (Workspace.step brokenLinks (fun _ => "") []) (.fresh (fun _ => "") [] .empty note) pushesBesideNote).any
      (fun s => s.job.any fun j => decide (j.cmd = .sync true false ∧ j.stage = .read [] ∧
        j.plan = [.deleteRemote "note"] ∧ s.hadLoc "note" = false)) := by
    decide
  obtain ⟨s, hs, hj⟩ := (Option.any_eq_true _ _).1 hrun
  obtain ⟨j, hj, hd⟩ := (Option.any_eq_true _ _).1 hj
  exact ⟨s, j, hs, hj, of_decide_eq_true hd⟩

end Mobfs
