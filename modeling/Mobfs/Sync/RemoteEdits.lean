import Mobfs.Sync.Known
/-!
# Edits made on the remote

The base is a second snapshot, taken after the plan is worked off. So a remote edit that
comes between the two snapshots goes into the base unseen, and the next sync takes the
old local copy for newer (`edit_between_snapshots_lost`).

`EditInv` follows a sync from its snapshots to its save: what is unknown differs from the
base, so it is fetched or the sync stops, and what goes into the base is known.
-/

namespace Mobfs

open Std Lib

namespace Workspace

section Guard
variable (sha : List UInt8 → String) (ignore : List String)

/-- What is to be done for the path is the same for the new entry as for the one in the
snapshot: a file is read when it is fetched. -/
def Tracks (entry snap : Option EntryMeta) : Prop :=
  entry = snap ∨ ∃ m m', entry = some m ∧ snap = some m' ∧ m.kind = .file ∧ m'.kind = .file

/-- Where the path's new remote entry is not known: it is not what the base has, and the
job under way will still see it, or fetches the path anyway. -/
def Noticed (s : Workspace) (entry : Option EntryMeta) (p : String) : Prop :=
  entry ≠ s.base[p]? ∧ ∀ j, s.job = some j → match j.stage with
    | .read ts =>
      if .rem ∈ ts then .loc ∉ ts → entry ≠ j.loc[p]?
      else Tracks entry j.rem[p]? ∧ j.rem[p]? ≠ j.loc[p]? ∧ j.rem[p]? ≠ j.base[p]?
    | .work ws => .item (.get p) ∈ ws ∧ Tracks entry j.rem[p]?
    | .save => entry ≠ j.rem[p]?

/-- A remote edit leaves each path it changes known, or is noticed. When a sync plans,
each unknown remote directory has something to fetch below it. Nothing is transferred or
deleted through a link, and a directory is deleted only where all that the remote
snapshot has below it is as in the base. -/
def EditGuard (s : Workspace) : WorkspaceAct → Prop
  | .editRemote t => ∀ p, (scan sha ignore t)[p]? ≠ (scan sha ignore s.rem)[p]? →
      (s.move sha ignore s.loc t false).Known sha ignore p ∨ s.Noticed (scan sha ignore t)[p]? p
  | .run _ _ => ∀ j, s.job = some j → match j.stage with
      | .read [] => ∀ d m, j.rem[d]? = some m → m.kind = .dir →
          s.Known sha ignore d ∨ ∃ q, below d q = true ∧ .get q ∈ j.plan
      | .work (.item (.put p) :: _) => s.loc.Plain p ∧ s.rem.Plain p
      | .work (.item (.get p) :: _) => s.loc.Plain p ∧ s.rem.Plain p
      | .work (.item (.deleteRemote d) :: _) => s.rem.Plain d ∧
          ∀ q, below d q = true → j.rem[q]? ≠ none → j.rem[q]? = j.base[q]?
      | _ => True
  | _ => True

end Guard

end Workspace

/-- `sync` and `resilient_sync_once`. -/
def Cmd.syncs : Cmd → Bool
  | .sync _ _ => true
  | .resilient _ => true
  | _ => false

/-- Edits of either side, and syncs. -/
def WorkspaceAct.Syncs : WorkspaceAct → Prop
  | .start c => c.syncs = true
  | _ => True

section Step
variable {links : Links} {sha : List UInt8 → String} {ignore : List String} {s s' : Workspace} {j : Job} {p : String}

/-! ## The invariant -/

/-- The path will be fetched, or is a directory with something to fetch below it. -/
def ToFetch (j : Job) (ws : List Work) (p : String) : Prop :=
  ∃ m q, j.rem[p]? = some m ∧ .item (.get q) ∈ ws ∧ (q = p ∨ (m.kind = .dir ∧ below p q = true))

section Inv
variable (sha ignore)

structure ReadKnown (s : Workspace) (j : Job) (ts : List Read) : Prop where
  order : ts <:+ [.base, .loc, .rem]
  base : .base ∉ ts → j.base = s.base
  hadLoc : .loc ∉ ts → ∀ p, j.loc[p]? ≠ none → s.hadLoc p = true
  loc : .loc ∉ ts → .rem ∈ ts → ∀ p, s.Known sha ignore p ∨ (scan sha ignore s.rem)[p]? ≠ j.loc[p]?
  rem : .rem ∉ ts → ∀ p, s.Known sha ignore p ∨
    (Workspace.Tracks (scan sha ignore s.rem)[p]? j.rem[p]? ∧ j.rem[p]? ≠ j.loc[p]? ∧ j.rem[p]? ≠ j.base[p]?)

structure WorkKnown (s : Workspace) (j : Job) (ws : List Work) : Prop where
  plan : ∀ w ∈ ws, ∃ i ∈ j.plan, w = .item i
  kept : ∀ p, j.rem[p]? = j.base[p]? → s.Known sha ignore p
  rem : ∀ p, s.Known sha ignore p ∨ (Workspace.Tracks (scan sha ignore s.rem)[p]? j.rem[p]? ∧ ToFetch j ws p)

structure SaveKnown (s : Workspace) (j : Job) : Prop where
  rem : ∀ p, (scan sha ignore s.rem)[p]? = j.rem[p]? → s.Known sha ignore p
  hadLoc : ∀ p, j.rem[p]? ≠ none → s.hadLoc p = true

def JobKnown (s : Workspace) (j : Job) : Prop :=
  match j.stage with
  | .read ts => ReadKnown sha ignore s j ts
  | .work ws => WorkKnown sha ignore s j ws
  | .save => SaveKnown sha ignore s j

structure EditInv (s : Workspace) : Prop where
  loc : ∀ p, s.loc.node p ≠ none → s.hadLoc p = true
  dirty : ∀ p, s.dirty p = true → s.hadLoc p = true
  seen : ∀ p, s.seen p ≠ none → s.hadLoc p = true
  same : ∀ p, (scan sha ignore s.loc).version p = (scan sha ignore s.rem).version p → s.Known sha ignore p
  base : ∀ p, (scan sha ignore s.rem)[p]? = s.base[p]? → s.Known sha ignore p
  had : ∀ p, s.base[p]? ≠ none → s.hadLoc p = true
  job : ∀ j, s.job = some j → j.cmd.syncs = true ∧ JobKnown sha ignore s j

end Inv

/-! ## The plan of a sync -/

theorem plan_of_syncs (h : j.cmd.syncs = true) : j.plan = syncItems j.base j.loc j.rem j.cmd.delete := by
  cases hc : j.cmd with
  | sync delete dryRun => simp [Job.plan, hc, Cmd.command, Command.plan]
  | resilient delete => simp [Job.plan, hc, Cmd.command, Command.plan]
  | _ => rw [hc] at h; cases h

theorem base_of_put (hc : j.cmd.syncs = true) (h : .put p ∈ j.plan) : j.rem[p]? = j.base[p]? := by
  rw [plan_of_syncs hc] at h
  obtain ⟨q, hq⟩ := mem_syncItems.1 h
  obtain ⟨he, -, hr, -⟩ | ⟨he, -⟩ | ⟨he, -⟩ | ⟨he, -⟩ | ⟨he, -⟩ := syncItem_eq_some.1 hq <;> cases he
  exact hr

theorem base_of_deleteRemote (hc : j.cmd.syncs = true) (h : .deleteRemote p ∈ j.plan) : j.rem[p]? = j.base[p]? := by
  rw [plan_of_syncs hc] at h
  obtain ⟨q, hq⟩ := mem_syncItems.1 h
  obtain ⟨he, -⟩ | ⟨he, -, -, hr, -⟩ | ⟨he, -⟩ | ⟨he, -⟩ | ⟨he, -⟩ := syncItem_eq_some.1 hq <;> cases he
  exact hr

theorem base_of_get (hc : j.cmd.syncs = true) (h : .get p ∈ j.plan) : j.rem[p]? ≠ j.base[p]? := by
  rw [plan_of_syncs hc] at h
  obtain ⟨q, hq⟩ := mem_syncItems.1 h
  obtain ⟨he, -⟩ | ⟨he, -⟩ | ⟨he, -, hr, -⟩ | ⟨he, -⟩ | ⟨he, -⟩ := syncItem_eq_some.1 hq <;> cases he
  exact hr

/-! ## A step -/

/-- A job goes on as before while what is known stays known and remote edits are
noticed. -/
theorem JobKnown.mono (h : JobKnown sha ignore s j) (hj : s.job = some j) (hc : j.cmd.syncs = true)
    (hL : ∀ p, s.hadLoc p = true → s'.hadLoc p = true) (hbase : s'.base = s.base)
    (hk : ∀ p, (scan sha ignore s'.rem)[p]? = (scan sha ignore s.rem)[p]? → s.Known sha ignore p → s'.Known sha ignore p)
    (hn : ∀ p, (scan sha ignore s'.rem)[p]? ≠ (scan sha ignore s.rem)[p]? →
      s'.Known sha ignore p ∨ s.Noticed (scan sha ignore s'.rem)[p]? p) : JobKnown sha ignore s' j := by
  -- The remote entry is as before, or the edit of it leaves the path known or is noticed.
  have hedit : ∀ p, (scan sha ignore s'.rem)[p]? = (scan sha ignore s.rem)[p]? ∨ s'.Known sha ignore p ∨
      s.Noticed (scan sha ignore s'.rem)[p]? p := by
    intro p
    by_cases he : (scan sha ignore s'.rem)[p]? = (scan sha ignore s.rem)[p]?
    · exact .inl he
    · exact .inr (hn p he)
  unfold JobKnown at h ⊢
  cases hst : j.stage with
  | read ts =>
    simp only [hst] at h ⊢
    refine ⟨h.order, fun hb => (h.base hb).trans hbase.symm, fun hl p hp => hL p (h.hadLoc hl p hp), ?_, ?_⟩
    · intro hl hr p
      rcases hedit p with he | hkn | ⟨-, hno⟩
      · rw [he]
        exact (h.loc hl hr p).imp_left (hk p he)
      · exact .inl hkn
      · have := hno j hj
        simp only [hst, if_pos hr] at this
        exact .inr (this hl)
    · intro hr p
      rcases hedit p with he | hkn | ⟨-, hno⟩
      · rw [he]
        exact (h.rem hr p).imp_left (hk p he)
      · exact .inl hkn
      · have := hno j hj
        simp only [hst, if_neg hr] at this
        exact .inr this
  | work ws =>
    simp only [hst] at h ⊢
    refine ⟨h.plan, ?_, ?_⟩
    · intro p hp
      rcases hedit p with he | hkn | ⟨-, hno⟩
      · exact hk p he (h.kept p hp)
      · exact hkn
      · -- What is fetched is not as in the base.
        have hno := hno j hj
        simp only [hst] at hno
        obtain ⟨_, hmem, ⟨⟩⟩ := h.plan _ hno.1
        exact absurd hp (base_of_get hc hmem)
    · intro p
      rcases hedit p with he | hkn | ⟨-, hno⟩
      · rw [he]
        exact (h.rem p).imp_left (hk p he)
      · exact .inl hkn
      · have hno := hno j hj
        simp only [hst] at hno
        obtain ⟨_, hmem, ⟨⟩⟩ := h.plan _ hno.1
        obtain ⟨m, hm, -⟩ := Command.of_get hmem
        exact .inr ⟨hno.2, m, p, hm, hno.1, .inl rfl⟩
  | save =>
    simp only [hst] at h ⊢
    refine ⟨?_, fun p hp => hL p (h.hadLoc p hp)⟩
    intro p hp
    rcases hedit p with he | hkn | ⟨-, hno⟩
    · exact hk p he (h.rem p (he ▸ hp))
    · exact hkn
    · have := hno j hj
      simp only [hst] at this
      exact absurd hp this

theorem JobKnown.withJob {job : Option Job} (h : JobKnown sha ignore s j) :
    JobKnown sha ignore { s with job := job } j := by
  unfold JobKnown at h ⊢
  split
  · rename_i ts hst
    simp only [hst] at h
    exact ⟨h.order, h.base, h.hadLoc, h.loc, h.rem⟩
  · rename_i ws hst
    simp only [hst] at h
    exact ⟨h.plan, h.kept, h.rem⟩
  · rename_i hst
    simp only [hst] at h
    exact ⟨h.rem, h.hadLoc⟩

theorem EditInv.withJob {job : Option Job} (h : EditInv sha ignore s)
    (hj : ∀ j, job = some j → j.cmd.syncs = true ∧ JobKnown sha ignore s j) :
    EditInv sha ignore { s with job := job } :=
  ⟨h.loc, h.dirty, h.seen, h.same, h.base, h.had, fun j hj' => ⟨(hj j hj').1, (hj j hj').2.withJob⟩⟩

/-- The trees change, and the job goes on or ends. -/
theorem EditInv.move (h : EditInv sha ignore s) {l r : Tree} {user : Bool} {job : Option Job}
    (hb : ∀ p, (scan sha ignore r)[p]? ≠ (scan sha ignore s.rem)[p]? →
      (s.move sha ignore l r user).Known sha ignore p ∨ (scan sha ignore r)[p]? ≠ s.base[p]?)
    (hj : ∀ j, job = some j → j.cmd.syncs = true ∧ JobKnown sha ignore (s.move sha ignore l r user) j) :
    EditInv sha ignore { s.move sha ignore l r user with job := job } := by
  have hL : ∀ p, s.hadLoc p = true → (s.move sha ignore l r user).hadLoc p = true :=
    fun p hp => Workspace.move_hadLoc.2 (.inl hp)
  have hl : ∀ p, (scan sha ignore l)[p]? ≠ none → (s.move sha ignore l r user).hadLoc p = true :=
    fun p hp => Workspace.move_hadLoc.2 (.inr (node_ne_none_of_scan hp))
  have hloc : ∀ p, l.node p ≠ none → (s.move sha ignore l r user).hadLoc p = true :=
    fun p hp => Workspace.move_hadLoc.2 (.inr hp)
  have hdirty : ∀ p, (s.move sha ignore l r user).dirty p = true → (s.move sha ignore l r user).hadLoc p = true := by
    intro p hp
    simp only [Workspace.move, Bool.if_false_left, Bool.and_eq_true, Bool.or_eq_true, bne_iff_ne] at hp
    rcases hp.2 with hd | ⟨-, hne⟩
    · exact hL p (h.dirty p hd)
    · by_cases hold : (scan sha ignore s.loc)[p]? = none
      · exact hl p (fun hnew => hne (hnew.trans hold.symm))
      · exact hL p (h.loc p (node_ne_none_of_scan hold))
  have hseen : ∀ p, (s.move sha ignore l r user).seen p ≠ none → (s.move sha ignore l r user).hadLoc p = true := by
    intro p hp
    simp only [Workspace.move] at hp
    split at hp
    · rename_i hsame
      exact hl p (version_ne_none.1 (hsame ▸ hp))
    · exact hL p (h.seen p hp)
  have hbase : ∀ p, (scan sha ignore r)[p]? = s.base[p]? → (s.move sha ignore l r user).Known sha ignore p := by
    intro p hp
    by_cases he : (scan sha ignore r)[p]? = (scan sha ignore s.rem)[p]?
    · exact (h.base p (he ▸ hp)).move he
    · rcases hb p he with hkn | hne
      · exact hkn
      · exact absurd hp hne
  exact ⟨hloc, hdirty, hseen, fun p hp => known_of_same hp, hbase, fun p hp => hL p (h.had p hp),
    fun j hj' => ⟨(hj j hj').1, (hj j hj').2.withJob⟩⟩

/-- What is known local once had. -/
theorem EditInv.hadLoc_of_known (h : EditInv sha ignore s) (hk : s.Known sha ignore p)
    (hp : (scan sha ignore s.rem)[p]? ≠ none) : s.hadLoc p = true := by
  rcases hk with hd | hn | hv
  · exact h.dirty p hd
  · exact absurd hn hp
  · exact h.seen p (hv ▸ version_ne_none.2 hp)

theorem suffix_reads {ts : List Read} {r : Read} {rs : List Read} (h : ts <:+ [.base, .loc, .rem]) (hts : ts = r :: rs) :
    (r = .base ∧ rs = [.loc, .rem]) ∨ (r = .loc ∧ rs = [.rem]) ∨ (r = .rem ∧ rs = []) := by
  subst hts
  simp only [List.suffix_cons_iff, List.suffix_nil, List.cons.injEq, reduceCtorEq, or_false] at h
  rcases h with ⟨h1, h2⟩ | ⟨h1, h2⟩ | ⟨h1, h2⟩
  · exact .inl ⟨h1, h2⟩
  · exact .inr (.inl ⟨h1, h2⟩)
  · exact .inr (.inr ⟨h1, h2⟩)

/-- Reading the base or taking a snapshot. -/
theorem ReadKnown.next (hs : EditInv sha ignore s) {r : Read} {rs : List Read} (h : ReadKnown sha ignore s j (r :: rs)) :
    ReadKnown sha ignore s (s.readNext sha ignore j r) rs := by
  have horder : rs <:+ [.base, .loc, .rem] := (List.suffix_cons r rs).trans h.order
  rcases suffix_reads h.order rfl with ⟨rfl, rfl⟩ | ⟨rfl, rfl⟩ | ⟨rfl, rfl⟩
  · exact ⟨horder, fun _ => rfl, by simp, by simp, by simp⟩
  · refine ⟨horder, fun _ => h.base (by simp), ?_, ?_, by simp⟩
    · intro _ p hp
      exact hs.loc p (node_ne_none_of_scan hp)
    · intro _ _ p
      by_cases he : (scan sha ignore s.rem)[p]? = (scan sha ignore s.loc)[p]?
      · exact .inl (hs.same p (version_congr he.symm))
      · exact .inr he
  · refine ⟨horder, fun _ => h.base (by simp), fun _ => h.hadLoc (by simp), by simp, ?_⟩
    intro _ p
    -- What is unknown is not as in the local snapshot, and not as in the base either.
    rcases h.loc (by simp) (by simp) p with hk | hne
    · exact .inl hk
    · by_cases hb : (scan sha ignore s.rem)[p]? = s.base[p]?
      · exact .inl (hs.base p hb)
      · exact .inr ⟨.inl rfl, hne, by rw [Workspace.readNext, h.base (by simp)]; exact hb⟩

theorem planned_of_syncs (h : j.cmd.syncs = true) {ws : List Work} (hw : j.planned = some ws) :
    ws = j.plan.map .item ∧ j.plan.any PlanItem.isConflict = false := by
  unfold Job.planned at hw
  cases hc : j.cmd with
  | sync delete dryRun =>
    simp only [hc] at hw
    split at hw
    · cases hw
    · rename_i hno
      split at hw
      · cases hw
      · exact ⟨(Option.some.inj hw).symm, by simpa using hno⟩
  | resilient delete =>
    simp only [hc] at hw
    split at hw
    · cases hw
    · split at hw
      · cases hw
      · rename_i hno
        exact ⟨(Option.some.inj hw).symm, by simpa using hno⟩
  | _ => rw [hc] at h; cases h

/-- What is unknown when a sync plans is fetched: it differs from the base, and if local
did too there would be a conflict. -/
theorem ReadKnown.planned (h : ReadKnown sha ignore s j []) (hc : j.cmd.syncs = true)
    (hd : ∀ d m, j.rem[d]? = some m → m.kind = .dir →
      s.Known sha ignore d ∨ ∃ q, below d q = true ∧ .get q ∈ j.plan)
    {ws : List Work} (hw : j.planned = some ws) : WorkKnown sha ignore s j ws := by
  obtain ⟨rfl, hno⟩ := planned_of_syncs hc hw
  refine ⟨?_, ?_, ?_⟩
  · intro w hw'
    obtain ⟨i, hi, rfl⟩ := List.mem_map.1 hw'
    exact ⟨i, hi, rfl⟩
  · intro p hp
    rcases h.rem (by simp) p with hk | ⟨-, -, hne⟩
    · exact hk
    · exact absurd hp hne
  · intro p
    rcases h.rem (by simp) p with hk | ⟨hr, hl, hb⟩
    · exact .inl hk
    · cases hm : j.rem[p]? with
      | none =>
        rcases hr with hr | ⟨_, _, -, hsome, -⟩
        · exact .inl (.inr (.inl (hr.trans hm)))
        · rw [hm] at hsome
          cases hsome
      | some m =>
        -- If local differed from the base as well, there would be a conflict.
        have hlb : j.loc[p]? = j.base[p]? := by
          by_contra hlb
          have hconf : .conflict p ∈ j.plan := by
            rw [plan_of_syncs hc]
            exact mem_syncItems.2 ⟨p, syncItem_eq_some.2 (.inr (.inr (.inr (.inr ⟨rfl, hlb, hb, Ne.symm hl⟩))))⟩
          have := List.any_eq_false.1 hno _ hconf
          exact this rfl
        -- A file or link is fetched; a directory has something to fetch below it.
        by_cases hk : m.kind.carried = true
        · refine .inr ⟨hm ▸ hr, m, p, hm, List.mem_map_of_mem ?_, .inl rfl⟩
          rw [plan_of_syncs hc]
          exact mem_syncItems.2 ⟨p, syncItem_eq_some.2 (.inr (.inr (.inl ⟨rfl, hlb, hb, m, hm, hk⟩)))⟩
        · have hdir : m.kind = .dir := by
            cases hkk : m.kind with
            | dir => rfl
            | file => rw [hkk] at hk; exact absurd rfl hk
            | symlink => rw [hkk] at hk; exact absurd rfl hk
          rcases hd p m hm hdir with hkn | ⟨q, hq, hg⟩
          · exact .inl hkn
          · exact .inr ⟨hm ▸ hr, m, q, hm, List.mem_map_of_mem hg, .inr ⟨hdir, hq⟩⟩

/-- A download that succeeds makes its path the same on both sides. -/
theorem get_known {stamp : Stamp} {m : EntryMeta} (hl : s.loc.Plain p)
    (hok : (s.workNext links stamp j (.item (.get p))).2 = true) (hm : j.rem[p]? = some m) (hk : m.kind.carried = true)
    (hr : Workspace.Tracks (scan sha ignore s.rem)[p]? j.rem[p]?) :
    (s.move sha ignore (s.workNext links stamp j (.item (.get p))).1.loc
      (s.workNext links stamp j (.item (.get p))).1.rem false).Known sha ignore p := by
  simp only [Workspace.workNext, applyItem, hm] at hok ⊢
  apply known_of_same
  rcases hr with hr | ⟨m1, m2, h1, h2, hf1, hf2⟩
  · exact download_same hl (hr.trans hm) hk hok
  · rw [hm] at h2
    cases h2
    exact download_same_file hl h1 hf1 hf2 hok

/-- And so it does for the directories the path is in. -/
theorem get_known_above {stamp : Stamp} {q : String} {m m' : EntryMeta} (hl : s.loc.Plain q)
    (hok : (s.workNext links stamp j (.item (.get q))).2 = true) (hq : j.rem[q]? = some m') (hb : below p q = true)
    (hr : (scan sha ignore s.rem)[p]? = some m) (hd : m.kind = .dir) :
    (s.move sha ignore (s.workNext links stamp j (.item (.get q))).1.loc
      (s.workNext links stamp j (.item (.get q))).1.rem false).Known sha ignore p := by
  simp only [Workspace.workNext, applyItem, hq] at hok ⊢
  have hspec : ∃ n, Installs s.loc (downloadFile links stamp s.rem s.loc q m').1 q n
      (downloadFile links stamp s.rem s.loc q m').2 := downloadFile_installs hl
  obtain ⟨n, hi⟩ := hspec
  apply known_of_same
  apply version_eq_of_dirs
  · exact Tree.isDir_of_below hb (by rw [hi.done hok]; simp)
  · rw [isDir_of_scan hr, hd]
    rfl

/-- One item of the plan, done. -/
theorem WorkKnown.next {stamp : Stamp} {i : PlanItem} {ws : List Work} {s1 : Workspace}
    (hw : WorkKnown sha ignore s j (.item i :: ws))
    (hdirect : ∀ q, i = .put q ∨ i = .get q → s.loc.Plain q ∧ s.rem.Plain q)
    (hs1 : s1 = s.move sha ignore (s.workNext links stamp j (.item i)).1.loc (s.workNext links stamp j (.item i)).1.rem false)
    (hok : (s.workNext links stamp j (.item i)).2 = true) : WorkKnown sha ignore s1 j ws := by
  subst hs1
  have hput : ∀ q, i = .put q → s.loc.Plain q ∧ s.rem.Plain q := fun q hq => hdirect q (.inl hq)
  refine ⟨fun w hm => hw.plan w (List.mem_cons_of_mem _ hm), fun p hp => known_work (hw.kept p hp) hput, ?_⟩
  intro p
  by_cases hn : (s.workNext links stamp j (.item i)).1.rem.node p = s.rem.node p
  · have he : (scan sha ignore (s.workNext links stamp j (.item i)).1.rem)[p]? = (scan sha ignore s.rem)[p]? :=
      scan_congr hn
    rcases hw.rem p with hk | ⟨hr, m, q, hm, hmem, hpq⟩
    · exact .inl (known_work hk hput)
    · rcases List.mem_cons.1 hmem with hhead | hmem
      · -- The item is the one that was to fetch this path, or something below it.
        cases hhead
        obtain ⟨hl, -⟩ := hdirect q (.inr rfl)
        obtain ⟨_, hin, ⟨⟩⟩ := hw.plan _ List.mem_cons_self
        obtain ⟨m', hm', hk', -⟩ := Command.of_get hin
        rcases hpq with rfl | ⟨hdir, hb⟩
        · exact .inl (get_known hl hok hm' hk' hr)
        · -- A directory in the snapshot is one still.
          have hr' : (scan sha ignore s.rem)[p]? = some m := by
            rcases hr with hr | ⟨_, m2, -, h2, -, hf⟩
            · exact hr.trans hm
            · rw [hm] at h2
              cases h2
              rw [hdir] at hf
              cases hf
          exact .inl (get_known_above hl hok hm' hb hr' hdir)
      · exact .inr ⟨he ▸ hr, m, q, hm, hmem, hpq⟩
  · exact .inl (known_of_changed hput hn)

/-- One item of the plan, done or failed. -/
theorem EditInv.work (h : EditInv sha ignore s) (links : Links) (stamp : Stamp) (hc : j.cmd.syncs = true) {i : PlanItem}
    {ws : List Work} (hw : WorkKnown sha ignore s j (.item i :: ws))
    (hdirect : ∀ q, i = .put q ∨ i = .get q → s.loc.Plain q ∧ s.rem.Plain q) :
    EditInv sha ignore { s.move sha ignore (s.workNext links stamp j (.item i)).1.loc
      (s.workNext links stamp j (.item i)).1.rem false with
        job := if (s.workNext links stamp j (.item i)).2 then some { j with stage := .work ws } else none } := by
  refine h.move ?_ ?_
  · intro p hne
    refine .inl (known_of_changed (fun q hq => hdirect q (.inl hq)) ?_)
    intro e
    exact hne (scan_congr e)
  · intro j' hj'
    simp only [Option.ite_none_right_eq_some, Option.some.injEq] at hj'
    obtain ⟨hok, rfl⟩ := hj'
    obtain ⟨h1, h2, h3⟩ := hw.next hdirect rfl hok
    exact ⟨hc, h1, h2, h3⟩

/-- The next step of a sync. -/
theorem EditInv.advance (h : EditInv sha ignore s) (links : Links) (stamp : Stamp) (hj : s.job = some j) {fault : Fault}
    (hg : s.EditGuard sha ignore (.run stamp fault)) : EditInv sha ignore (s.advance links sha ignore stamp j) := by
  obtain ⟨hc, hjob⟩ := h.job j hj
  have hg := hg j hj
  unfold JobKnown at hjob
  unfold Workspace.advance
  cases hst : j.stage with
  | read ts =>
    simp only [hst] at hjob hg
    cases ts with
    | nil =>
      simp only at hg ⊢
      refine h.withJob fun j' hj' => ?_
      obtain ⟨ws, hws, rfl⟩ := Option.map_eq_some_iff.1 hj'
      obtain ⟨h1, h2, h3⟩ := hjob.planned hc hg hws
      exact ⟨hc, h1, h2, h3⟩
    | cons r rs =>
      simp only
      refine h.withJob fun j' hj' => ?_
      cases hj'
      obtain ⟨h1, h2, h3, h4, h5⟩ := hjob.next h
      refine ⟨?_, h1, h2, h3, h4, h5⟩
      cases r <;> exact hc
  | work ws =>
    simp only [hst] at hjob hg
    cases ws with
    | nil =>
      have hre : j.cmd.rescans = true := by
        cases hcmd : j.cmd <;> simp [hcmd, Cmd.syncs] at hc ⊢ <;> rfl
      have hall : ∀ p, s.Known sha ignore p := by
        intro p
        rcases hjob.rem p with hk | ⟨-, m, q, -, hmem, -⟩
        · exact hk
        · cases hmem
      simp only [hre, if_true]
      refine h.withJob fun j' hj' => ?_
      cases hj'
      exact ⟨hc, fun p _ => hall p, fun p hp => h.hadLoc_of_known (hall p) hp⟩
    | cons w ws =>
      obtain ⟨i, hi, rfl⟩ := hjob.plan w List.mem_cons_self
      simp only
      refine h.work links stamp hc hjob ?_
      rintro q (rfl | rfl)
      · exact hg
      · exact hg
  | save =>
    simp only [hst] at hjob ⊢
    exact ⟨h.loc, h.dirty, h.seen, h.same, hjob.rem, hjob.hadLoc, by simp⟩

theorem editInv_step {a : WorkspaceAct} (h : EditInv sha ignore s) (hg : s.EditGuard sha ignore a) (ha : a.Syncs)
    (hs : s.step links sha ignore a = some s') : EditInv sha ignore s' := by
  have hlocal : ∀ {l user}, EditInv sha ignore (s.move sha ignore l s.rem user) := by
    intro l user
    refine h.move (fun p hne => absurd rfl hne) fun j hj => ?_
    obtain ⟨hc, hjob⟩ := h.job j hj
    exact ⟨hc, hjob.mono hj hc (fun p hp => Workspace.move_hadLoc.2 (.inl hp)) rfl (fun p he hk => hk.move he)
      fun p hne => absurd rfl hne⟩
  cases a with
  | editLocal t =>
    cases hs
    exact hlocal
  | editRemote t =>
    cases hs
    refine h.move (fun p hne => (hg p hne).imp_right And.left) fun j hj => ?_
    obtain ⟨hc, hjob⟩ := h.job j hj
    exact ⟨hc, hjob.mono hj hc (fun p hp => Workspace.move_hadLoc.2 (.inl hp)) rfl (fun p he hk => hk.move he) hg⟩
  | leftover t =>
    simp only [Workspace.step, Option.ite_none_right_eq_some, Option.some.injEq] at hs
    rw [← hs.2]
    exact hlocal
  | start c =>
    simp only [Workspace.step, Option.ite_none_right_eq_some, Option.some.injEq] at hs
    rw [← hs.2]
    refine h.withJob fun j hj => ?_
    cases hj
    refine ⟨ha, ?_⟩
    have hreads : c.reads = [.base, .loc, .rem] := by
      cases c <;> first | rfl | cases ha
    simp only [JobKnown, Cmd.job, hreads]
    exact ⟨List.suffix_refl _, by simp, by simp, by simp, by simp⟩
  | run stamp fault =>
    obtain ⟨j, hj, rfl⟩ := Option.map_eq_some_iff.1 hs
    have hadv := h.advance links stamp hj hg
    cases fault with
    | none => exact hadv
    | before => exact h.withJob (by simp)
    | after => exact hadv.withJob (by simp)

theorem fresh_editInv (l r : Tree) : EditInv sha ignore (Workspace.fresh sha ignore l r) := by
  refine ⟨fun p hp => Workspace.move_hadLoc.2 (.inr hp), ?_, ?_, fun p hp => known_of_same hp, ?_, ?_, ?_⟩
  · intro p hp
    simp [Workspace.fresh, Workspace.move] at hp
  · intro p hp
    simp only [Workspace.fresh, Workspace.move] at hp
    split at hp
    · rename_i hsame
      exact Workspace.move_hadLoc.2 (.inr (node_ne_none_of_scan (version_ne_none.1 (hsame ▸ hp))))
    · exact absurd rfl hp
  · intro p hp
    exact .inr (.inl (hp.trans (by simp [Workspace.fresh])))
  · intro p hp
    simp [Workspace.fresh] at hp
  · intro j hj
    simp [Workspace.fresh] at hj

/-! ## What a sync changes on the remote -/

/-- A path whose remote entry an item changes was known before. -/
theorem WorkKnown.known_of_changed {stamp : Stamp} {i : PlanItem} {ws : List Work} (hc : j.cmd.syncs = true)
    (hw : WorkKnown sha ignore s j (.item i :: ws)) (hput : ∀ q, i = .put q → s.loc.Plain q ∧ s.rem.Plain q)
    (hdel : ∀ d, i = .deleteRemote d → s.rem.Plain d ∧
      ∀ q, below d q = true → j.rem[q]? ≠ none → j.rem[q]? = j.base[q]?)
    (hne : (scan sha ignore (s.workNext links stamp j (.item i)).1.rem)[p]? ≠ (scan sha ignore s.rem)[p]?) :
    s.Known sha ignore p := by
  have hn : (s.workNext links stamp j (.item i)).1.rem.node p ≠ s.rem.node p := fun e => hne (scan_congr e)
  obtain ⟨_, hmem, ⟨⟩⟩ := hw.plan _ List.mem_cons_self
  cases i with
  | put q =>
    obtain ⟨-, hr⟩ := hput q rfl
    obtain ⟨n, hi⟩ := applyItem_put_rem links j.rem stamp (s := ⟨s.loc, s.rem⟩) hr
    rcases hi.node p with e | ⟨-, hnone, -⟩ | ⟨rfl, -, -⟩
    · exact absurd e hn
    · refine .inr (.inl ?_)
      rw [get?_scan, hnone]
      simp
    · exact hw.kept p (base_of_put hc hmem)
  | deleteRemote d =>
    obtain ⟨hplain, hbelow⟩ := hdel d rfl
    rcases applyItem_deleteRemote_rem links j.rem stamp (s := ⟨s.loc, s.rem⟩) hplain with ⟨e, -⟩ | e
    · exact absurd (by rw [Workspace.workNext, e]) hn
    · rw [Workspace.workNext, e, Tree.node_drop] at hn
      by_cases hp : p = d ∨ below d p = true
      · rcases hp with rfl | hb
        · exact hw.kept p (base_of_deleteRemote hc hmem)
        · by_cases hnone : j.rem[p]? = none
          · rcases hw.rem p with hk | ⟨-, m, -, hm, -⟩
            · exact hk
            · rw [hnone] at hm
              cases hm
          · exact hw.kept p (hbelow p hb hnone)
      · rw [if_neg hp] at hn
        exact absurd rfl hn
  | get q => exact absurd (by rw [Workspace.workNext, applyItem_get_rem]) hn
  | deleteLocal q => exact absurd rfl hn
  | conflict q => exact absurd rfl hn

theorem EditInv.not_losesEdit (h : EditInv sha ignore s) {stamp : Stamp} {fault : Fault}
    (hg : s.EditGuard sha ignore (.run stamp fault)) (hs : s.step links sha ignore (.run stamp fault) = some s') :
    ¬ s.LosesEdit sha ignore s' p := by
  rintro ⟨hne, hunknown⟩
  obtain ⟨j, hj, rfl⟩ := Option.map_eq_some_iff.1 hs
  obtain ⟨hc, hjob⟩ := h.job j hj
  have hg := hg j hj
  -- The remote changes only in a step of the plan.
  have hadv : (scan sha ignore (s.advance links sha ignore stamp j).rem)[p]? ≠ (scan sha ignore s.rem)[p]? := by
    cases fault with
    | none => exact hne
    | before => exact absurd rfl hne
    | after => exact hne
  unfold JobKnown at hjob
  unfold Workspace.advance at hadv
  cases hst : j.stage with
  | read ts => cases ts <;> simp [hst] at hadv
  | save => simp [hst] at hadv
  | work ws =>
    simp only [hst] at hjob hg hadv
    cases ws with
    | nil =>
      simp only at hadv
      split at hadv <;> exact absurd rfl hadv
    | cons w ws =>
      obtain ⟨i, hi, rfl⟩ := hjob.plan w List.mem_cons_self
      refine hunknown (hjob.known_of_changed hc ?_ ?_ hadv)
      · rintro q rfl
        exact hg
      · rintro d rfl
        exact hg

/-- What local never had is fetched, and not taken for deleted. -/
theorem EditInv.fetches_new (h : EditInv sha ignore s) (hj : s.job = some j) (hst : j.stage = .read []) {m : EntryMeta}
    (hm : j.rem[p]? = some m) (hk : m.kind.carried = true) (hnew : s.hadLoc p = false) :
    .get p ∈ j.plan ∧ .deleteRemote p ∉ j.plan := by
  obtain ⟨hc, hjob⟩ := h.job j hj
  simp only [JobKnown, hst] at hjob
  have hloc : j.loc[p]? = none := by
    by_contra hl
    rw [hjob.hadLoc (by simp) p hl] at hnew
    cases hnew
  have hbase : j.base[p]? = none := by
    by_contra hb
    rw [hjob.base (by simp)] at hb
    rw [h.had p hb] at hnew
    cases hnew
  refine ⟨?_, ?_⟩
  · rw [plan_of_syncs hc]
    refine mem_syncItems.2 ⟨p, syncItem_eq_some.2 (.inr (.inr (.inl ⟨rfl, ?_, ?_, m, hm, hk⟩)))⟩
    · rw [hloc, hbase]
    · rw [hm, hbase]
      simp
  · intro hdel
    have := base_of_deleteRemote hc hdel
    rw [hm, hbase] at this
    cases this

end Step

/-- In every run of edits and syncs that meets `EditGuard`: no step of a sync changes or
deletes a remote version of a path that is newer than the one local had when both were
last equal, unless the user has edited the local copy since; and when a sync plans, a
remote file or link that local never had is to be fetched, and not to be deleted. -/
theorem remote_edit_never_lost (links : Links) (sha : List UInt8 → String) (ignore : List String) (l r : Tree)
    (as : List WorkspaceAct) (s : Workspace) (hsyncs : ∀ a ∈ as, a.Syncs)
    (hguard : Guarded (Workspace.step links sha ignore) (Workspace.EditGuard sha ignore) (.fresh sha ignore l r) as)
    (hrun : exec (Workspace.step links sha ignore) (.fresh sha ignore l r) as = some s) :
    (∀ stamp fault s', s.EditGuard sha ignore (.run stamp fault) →
      s.step links sha ignore (.run stamp fault) = some s' → ∀ p, ¬ s.LosesEdit sha ignore s' p) ∧
    (∀ j p m, s.job = some j → j.stage = .read [] → j.rem[p]? = some m → m.kind.carried = true → s.hadLoc p = false →
      .get p ∈ j.plan ∧ .deleteRemote p ∉ j.plan) := by
  have h : EditInv sha ignore s :=
    exec_guarded_inv (EditInv sha ignore) (fun _ _ _ h hg hs => editInv_step h hg.1 hg.2 hs) (fresh_editInv l r)
      (hguard.and_mem hsyncs) hrun
  refine ⟨?_, ?_⟩
  · intro stamp fault s' hg hs p
    exact h.not_losesEdit hg hs
  · intro j p m hj hst hm hk hnew
    exact h.fetches_new hj hst hm hk hnew

/-! ## An upload of the user's edit, and one of an old copy -/

/-- A test for `EditGuard` in runs without directories and remote deletions, with remote
edits only between commands. -/
def Workspace.checkEdits (s : Workspace) : WorkspaceAct → Bool
  | .editRemote t => s.job.isNone && ((scan (fun _ => "") [] t).keys ++ (scan (fun _ => "") [] s.rem).keys).all fun p =>
      (scan (fun _ => "") [] t)[p]? = (scan (fun _ => "") [] s.rem)[p]? || (scan (fun _ => "") [] t)[p]? ≠ s.base[p]?
  | .run _ _ =>
    match s.job with
    | none => true
    | some j =>
      match j.stage with
      | .read [] => j.rem.dirs.isEmpty
      | .work (.item (.put p) :: _) => decide (s.loc.Plain p ∧ s.rem.Plain p)
      | .work (.item (.get p) :: _) => decide (s.loc.Plain p ∧ s.rem.Plain p)
      | .work (_ :: _) => false
      | _ => true
  | _ => true

theorem editGuard_of_check {s : Workspace} {a : WorkspaceAct} (h : s.checkEdits a = true) :
    s.EditGuard (fun _ => "") [] a := by
  cases a with
  | editRemote t =>
    simp only [Workspace.checkEdits, Bool.and_eq_true, Option.isNone_iff_eq_none, List.all_eq_true, List.mem_append,
      ExtTreeMap.mem_keys, Bool.or_eq_true, decide_eq_true_eq] at h
    intro p hne
    refine .inr ⟨?_, fun j hj => ?_⟩
    · have hmem : p ∈ scan (fun _ => "") [] t ∨ p ∈ scan (fun _ => "") [] s.rem := by
        by_contra hno
        rw [not_or] at hno
        exact hne ((ExtTreeMap.getElem?_eq_none hno.1).trans (ExtTreeMap.getElem?_eq_none hno.2).symm)
      exact (h.2 p hmem).resolve_left hne
    · rw [h.1] at hj
      cases hj
  | run stamp fault =>
    intro j hj
    simp only [Workspace.checkEdits, hj] at h
    split
    · rename_i hst
      simp only [hst, List.isEmpty_iff] at h
      intro d m hm hk
      have hmem : d ∈ j.rem.dirs := mem_dirs.2 ⟨m, hm, hk⟩
      rw [h] at hmem
      cases hmem
    · rename_i hst
      simpa [hst] using h
    · rename_i hst
      simpa [hst] using h
    · rename_i hst
      simp [hst] at h
    · trivial
  | editLocal t => trivial
  | leftover t => trivial
  | start c => trivial

/-- A whole sync that finds nothing to do. -/
def cleanSync : List WorkspaceAct := .start (.sync true false) :: List.replicate 6 calmRun

def noteEdited : Tree := .build [("note", .file [1, 1] 420 7)]

def noteAndNew : Tree := .build [("new", .file [3] 420 8), ("note", .file [1] 420 5)]

/-- The user edits the note, and a file is created on the remote; then a sync, up to its
plan. -/
def bothEdit : List WorkspaceAct :=
  cleanSync ++ ([.editLocal noteEdited, .editRemote noteAndNew, .start (.sync true false)] : List WorkspaceAct) ++
    List.replicate 3 calmRun

abbrev noteStep : Workspace → WorkspaceAct → Option Workspace := Workspace.step brokenLinks (fun _ => "") []

abbrev noteStart : Workspace := .fresh (fun _ => "") [] note note

theorem edits_guarded {as : List WorkspaceAct} (h : checkRun noteStep Workspace.checkEdits noteStart as = true) :
    Guarded noteStep (Workspace.EditGuard (fun _ => "") []) noteStart as :=
  guarded_of_checkRun (fun _ => True) (fun _ => True) Workspace.checkEdits (fun _ _ _ _ _ _ => trivial)
    (fun _ _ _ _ => editGuard_of_check) trivial (fun _ _ => trivial) h

/-- The new file is to be fetched, and two steps on, the user's note is uploaded. -/
theorem remote_edit_never_lost_upload :
    (∃ s j, exec noteStep noteStart bothEdit = some s ∧ s.job = some j ∧ j.stage = .read [] ∧
      .get "new" ∈ j.plan ∧ .deleteRemote "new" ∉ j.plan) ∧
    (∃ s s', exec noteStep noteStart (bothEdit ++ [calmRun, calmRun]) = some s ∧ noteStep s calmRun = some s' ∧
      (scan (fun _ => "") [] s'.rem)["note"]? ≠ (scan (fun _ => "") [] s.rem)["note"]? ∧
      ¬ s.LosesEdit (fun _ => "") [] s' "note") := by
  have hsyncs : ∀ a ∈ bothEdit ++ [calmRun, calmRun], a.Syncs := by
    simp [bothEdit, cleanSync, calmRun, WorkspaceAct.Syncs, Cmd.syncs]
  refine ⟨?_, ?_⟩
  · have hrun : (exec noteStep noteStart bothEdit).any fun s => s.job.any fun j =>
        decide (j.stage = .read [] ∧ (j.rem["new"]?.any fun m => m.kind.carried) = true ∧ s.hadLoc "new" = false) := by decide
    obtain ⟨s, hs, hj⟩ := (Option.any_eq_true _ _).1 hrun
    obtain ⟨j, hj, hd⟩ := (Option.any_eq_true _ _).1 hj
    obtain ⟨hst, hm, hnew⟩ := of_decide_eq_true hd
    obtain ⟨m, hm, hk⟩ := (Option.any_eq_true _ _).1 hm
    have h := remote_edit_never_lost brokenLinks (fun _ => "") [] note note bothEdit s
      (fun a ha => hsyncs a (List.mem_append_left _ ha)) (edits_guarded (by decide)) hs
    exact ⟨s, j, hs, hj, hst, h.2 j "new" m hj hst hm hk hnew⟩
  · have hrun : (exec noteStep noteStart (bothEdit ++ [calmRun, calmRun])).any fun s => s.checkEdits calmRun &&
        (noteStep s calmRun).any fun s' =>
          decide ((scan (fun _ => "") [] s'.rem)["note"]? ≠ (scan (fun _ => "") [] s.rem)["note"]?) := by decide
    obtain ⟨s, hs, hd⟩ := (Option.any_eq_true _ _).1 hrun
    simp only [Bool.and_eq_true] at hd
    obtain ⟨s', hs', hne⟩ := (Option.any_eq_true _ _).1 hd.2
    have h := remote_edit_never_lost brokenLinks (fun _ => "") [] note note (bothEdit ++ [calmRun, calmRun]) s hsyncs
      (edits_guarded (by decide)) hs
    exact ⟨s, s', hs, hs', of_decide_eq_true hne,
      h.1 calmStamp .none s' (editGuard_of_check hd.1) hs' "note"⟩

def newAndNoteEdited : Tree := .build [("new", .file [3] 420 8), ("note", .file [2, 2] 420 8)]

/-- A sync finds both sides equal; before its second snapshot the note is edited and a
file created on the remote. Then the next sync, up to its work. -/
def editedBetween : List WorkspaceAct :=
  (.start (.sync true false) :: List.replicate 4 calmRun : List WorkspaceAct) ++
    (.editRemote newAndNoteEdited :: List.replicate 2 calmRun : List WorkspaceAct) ++
    (.start (.sync true false) :: List.replicate 4 calmRun : List WorkspaceAct)

/-- The next sync deletes the new file and overwrites the edited note. -/
theorem edit_between_snapshots_lost :
    ∃ s s1 s2, exec noteStep noteStart editedBetween = some s ∧ s.hadLoc "new" = false ∧
      (∃ j, s.job = some j ∧ j.stage = .work [.item (.deleteRemote "new"), .item (.put "note")]) ∧
      noteStep s calmRun = some s1 ∧ noteStep s1 calmRun = some s2 ∧
      s.LosesEdit (fun _ => "") [] s1 "new" ∧ s1.LosesEdit (fun _ => "") [] s2 "note" := by
  have hrun : (exec noteStep noteStart editedBetween).any fun s => decide (s.hadLoc "new" = false) &&
      (s.job.any fun j => decide (j.stage = .work [.item (.deleteRemote "new"), .item (.put "note")])) &&
      (noteStep s calmRun).any fun s1 => decide (s.LosesEdit (fun _ => "") [] s1 "new") &&
        (noteStep s1 calmRun).any fun s2 => decide (s1.LosesEdit (fun _ => "") [] s2 "note") := by decide
  obtain ⟨s, hs, hd⟩ := (Option.any_eq_true _ _).1 hrun
  simp only [Bool.and_eq_true] at hd
  obtain ⟨⟨hnew, hjob⟩, hstep⟩ := hd
  obtain ⟨j, hj, hst⟩ := (Option.any_eq_true _ _).1 hjob
  obtain ⟨s1, hs1, hd⟩ := (Option.any_eq_true _ _).1 hstep
  simp only [Bool.and_eq_true] at hd
  obtain ⟨s2, hs2, hlost⟩ := (Option.any_eq_true _ _).1 hd.2
  exact ⟨s, s1, s2, hs, of_decide_eq_true hnew, ⟨j, hj, of_decide_eq_true hst⟩, hs1, hs2, of_decide_eq_true hd.1,
    of_decide_eq_true hlost⟩

end Mobfs
