import Mobfs.Sync.Commands
/-!
# What carrying out a plan deletes

A plan names the paths to delete one by one; `remove_local` and the daemon's
`Remove` delete a directory with everything in it. `deletes_only_named` says when
the two agree: when each entry below a directory to be deleted is one the plan
names as well, which is when it is visible and, for a sync, the same as in the
base.

`SideInv` is what stays true of one side while a plan is carried out. It is
about any carried and deleted paths that fit together (`Fits`), so it serves the
local and the remote side alike.
-/

namespace Mobfs

open Std Lib

/-! ## One side -/

/-- The paths a plan carries to a side and those it deletes there. -/
structure Fits (t0 : Tree) (carried deleted : String → Prop) : Prop where
  plain : ∀ p, carried p → t0.Plain p
  apart : ∀ p d, carried p → below d p = true → ¬ carried d
  kept : ∀ p d, carried p → (p = d ∨ below d p = true) → ¬ deleted d
  present : ∀ p, deleted p → t0.node p ≠ none

/-- How a side that was `t0` may look while the plan is carried out. -/
structure SideInv (t0 : Tree) (carried deleted : String → Prop) (t : Tree) : Prop where
  gone : ∀ q, t0.node q ≠ none → t.node q = none → ∃ d, deleted d ∧ (q = d ∨ below d q = true)
  dirs : ∀ q, t0.isDir q = true → t.isDir q = true ∨ t.node q = none
  links : ∀ q, t.isLink q = true → t0.isLink q = true ∨ carried q

section Side
variable {t0 t t' : Tree} {carried deleted : String → Prop}

theorem SideInv.refl : SideInv t0 carried deleted t0 :=
  ⟨fun _ h1 h2 => absurd h2 h1, fun _ h => .inl h, fun _ h => .inl h⟩

theorem SideInv.adds {ds : String → Prop} (h : SideInv t0 carried deleted t) (ha : AddsDirs t t' ds) :
    SideInv t0 carried deleted t' := by
  refine ⟨?_, ?_, ?_⟩
  · intro q hq hn
    rcases ha q with e | ⟨-, ht, -⟩
    · exact h.gone q hq (e ▸ hn)
    · exact h.gone q hq ht
  · intro q hq
    rcases h.dirs q hq with hd | hn
    · exact .inl (ha.isDir hd)
    · rcases ha q with e | ⟨-, -, hd⟩
      · exact .inr (e.trans hn)
      · exact .inl hd
  · intro q hq
    rw [ha.isLink] at hq
    exact h.links q hq

variable (hf : Fits t0 carried deleted)
include hf

theorem SideInv.plain_carried {p : String} (h : SideInv t0 carried deleted t) (hp : carried p) : t.Plain p := by
  intro d hd
  by_contra hl
  rcases h.links d (by simpa using hl) with h0 | hc
  · rw [hf.plain p hp d hd] at h0
    cases h0
  · exact hf.apart p d hp hd hc

theorem SideInv.plain_deleted {p : String} (h : SideInv t0 carried deleted t) (hp : deleted p) : t.Plain p := by
  intro d hd
  rcases h.dirs d (Tree.isDir_of_below hd (hf.present p hp)) with hdir | hn
  · exact Tree.isLink_of_isDir hdir
  · rw [Tree.isLink, hn]
    rfl

theorem SideInv.installs {p : String} {n : Node} {ok : Bool} (h : SideInv t0 carried deleted t) (hp : carried p)
    (hi : Installs t t' p n ok) : SideInv t0 carried deleted t' := by
  refine ⟨?_, ?_, ?_⟩
  · intro q hq hn
    rcases hi.node q with e | ⟨-, ht, -⟩ | ⟨rfl, hok, -⟩
    · exact h.gone q hq (e ▸ hn)
    · exact h.gone q hq ht
    · rw [hi.done hok] at hn
      cases hn
  · intro q hq
    rcases hi.node q with e | ⟨-, -, hd⟩ | ⟨rfl, -, hnd⟩
    · simpa only [Tree.isDir, e] using h.dirs q hq
    · exact .inl hd
    · -- A directory that was here has been deleted, but nothing is carried there then.
      rcases h.dirs q hq with hd | hn
      · rw [hd] at hnd
        cases hnd
      · obtain ⟨d, hd, hqd⟩ := h.gone q (fun e => by simp [Tree.isDir, e] at hq) hn
        exact absurd hd (hf.kept q d hp hqd)
  · intro q hq
    rcases hi.node q with e | ⟨-, -, hd⟩ | ⟨rfl, -, -⟩
    · exact h.links q (by simpa only [Tree.isLink, e] using hq)
    · rw [Tree.isLink_of_isDir hd] at hq
      cases hq
    · exact .inr hp

omit hf in
theorem SideInv.drop {p : String} (h : SideInv t0 carried deleted t) (hp : deleted p) :
    SideInv t0 carried deleted (t.drop p) := by
  refine ⟨?_, ?_, ?_⟩
  · intro q hq hn
    rw [Tree.node_drop] at hn
    split at hn
    · exact ⟨p, hp, ‹_›⟩
    · exact h.gone q hq hn
  · intro q hq
    rw [Tree.isDir, Tree.node_drop]
    split
    · exact .inr rfl
    · exact h.dirs q hq
  · intro q hq
    rw [Tree.isLink, Tree.node_drop] at hq
    split at hq
    · cases hq
    · exact h.links q hq

/-- What is below a deleted directory stays away: nothing is carried there. -/
theorem Installs.keeps_away {p d q : String} {n : Node} {ok : Bool} (hp : carried p) (hd : deleted d)
    (hi : Installs t t' p n ok) (hq : below d q = true) (hn : t.node q = none) : t'.node q = none := by
  rcases hi.node q with e | ⟨hqp, -⟩ | ⟨rfl, -⟩
  · rw [e, hn]
  · exact absurd hd (hf.kept p d hp (.inr (below_trans hq hqp)))
  · exact absurd hd (hf.kept q d hp (.inr hq))

end Side

/-! ## The commands -/

/-- The item is not carried through a link: none of the directories of its path is
one on the side it goes to. -/
def Sides.Direct (s : Sides) : PlanItem → Prop
  | .put p => s.rem.Plain p
  | .get p => s.loc.Plain p
  | _ => True

def PlanItem.deletes : PlanItem → Bool
  | .deleteLocal _ | .deleteRemote _ => true
  | _ => false

/-- Every path removed from a side is one the plan deletes there. -/
def DeletesNamed (plan : List PlanItem) (s s' : Sides) : Prop :=
  (∀ p, s.loc.node p ≠ none → s'.loc.node p = none → .deleteLocal p ∈ plan) ∧
  (∀ p, s.rem.node p ≠ none → s'.rem.node p = none → .deleteRemote p ∈ plan)

/-- The entry is in the snapshot and, for a sync, the same as in the base. -/
def Command.Known (c : Command) (snap : Snapshot) (p : String) : Prop := snap[p]? ≠ none ∧ c.SameAsBase snap p

/-- If the item deletes a directory, each entry on disk below it is known. -/
def Command.Whole (c : Command) (loc rem : Snapshot) (s : Sides) : PlanItem → Prop
  | .deleteLocal d => ∀ q ∈ s.loc.paths, below d q = true → c.Known loc q
  | .deleteRemote d => ∀ q ∈ s.rem.paths, below d q = true → c.Known rem q
  | _ => True

/-- Each directory the plan deletes holds only known entries. -/
def Command.WholeDirs (sha : List UInt8 → String) (ignore : List String) (c : Command) (delete : Bool) (s : Sides) :
    Prop :=
  ∀ i ∈ c.planned sha ignore delete s, c.Whole (scan sha ignore s.loc) (scan sha ignore s.rem) s i

instance (s : Sides) : DecidablePred s.Direct
  | .put p => inferInstanceAs (Decidable (s.rem.Plain p))
  | .get p => inferInstanceAs (Decidable (s.loc.Plain p))
  | .deleteLocal _ => instDecidableTrue
  | .deleteRemote _ => instDecidableTrue
  | .conflict _ => instDecidableTrue

instance (c : Command) (snap : Snapshot) (p : String) : Decidable (c.SameAsBase snap p) :=
  match c with
  | .sync base => inferInstanceAs (Decidable (snap[p]? = base[p]?))
  | .pull => instDecidableTrue
  | .push => instDecidableTrue

instance (c : Command) (snap : Snapshot) (p : String) : Decidable (c.Known snap p) :=
  inferInstanceAs (Decidable (_ ∧ _))

instance (c : Command) (loc rem : Snapshot) (s : Sides) : DecidablePred (c.Whole loc rem s)
  | .deleteLocal d => inferInstanceAs (Decidable (∀ q ∈ s.loc.paths, below d q = true → c.Known loc q))
  | .deleteRemote d => inferInstanceAs (Decidable (∀ q ∈ s.rem.paths, below d q = true → c.Known rem q))
  | .put _ => instDecidableTrue
  | .get _ => instDecidableTrue
  | .conflict _ => instDecidableTrue

instance (sha : List UInt8 → String) (ignore : List String) (c : Command) (delete : Bool) (s : Sides) :
    Decidable (c.WholeDirs sha ignore delete s) :=
  inferInstanceAs (Decidable (∀ i ∈ _, _))

section Plan
variable {links : Links} {sha : List UInt8 → String} {ignore : List String} {c : Command} {delete : Bool} {s : Sides}
  {plan : List PlanItem}

/-- Nothing is left below what a snapshot does not have. -/
theorem scan_none_below {t : Tree} {d p : String} (hd : p = d ∨ below d p = true)
    (h : (scan sha ignore t)[d]? = none) : (scan sha ignore t)[p]? = none := by
  rcases hd with rfl | hd
  · exact h
  · by_contra hp
    obtain ⟨m, hm, -⟩ := scan_dir_of_below hd hp
    rw [h] at hm
    cases hm

theorem scan_not_carried {t : Tree} {d p : String} {m : EntryMeta} (hd : below d p = true)
    (hp : (scan sha ignore t)[p]? ≠ none) (hm : (scan sha ignore t)[d]? = some m) : m.kind.carried = false := by
  obtain ⟨m', hm', hk⟩ := scan_dir_of_below hd hp
  rw [hm] at hm'
  cases hm'
  rw [hk]
  rfl

theorem fits_rem (hl : ∀ i ∈ c.planned sha ignore delete s, s.Direct i) :
    Fits s.rem (.put · ∈ c.planned sha ignore delete s) (.deleteRemote · ∈ c.planned sha ignore delete s) := by
  refine ⟨fun p hp => hl _ hp, ?_, ?_, ?_⟩
  · intro p d hp hd hd'
    obtain ⟨m, hm, -⟩ := Command.of_put hp
    obtain ⟨m', hm', hk, -⟩ := Command.of_put hd'
    rw [scan_not_carried hd (by simp [hm]) hm'] at hk
    cases hk
  · intro p d hp hd hd'
    obtain ⟨m, hm, -⟩ := Command.of_put hp
    rw [scan_none_below hd (Command.of_deleteRemote hd').2.1] at hm
    cases hm
  · intro p hp
    exact node_ne_none_of_scan (Command.of_deleteRemote hp).2.2.1

theorem fits_loc (hl : ∀ i ∈ c.planned sha ignore delete s, s.Direct i) :
    Fits s.loc (.get · ∈ c.planned sha ignore delete s) (.deleteLocal · ∈ c.planned sha ignore delete s) := by
  refine ⟨fun p hp => hl _ hp, ?_, ?_, ?_⟩
  · intro p d hp hd hd'
    obtain ⟨m, hm, -⟩ := Command.of_get hp
    obtain ⟨m', hm', hk, -⟩ := Command.of_get hd'
    rw [scan_not_carried hd (by simp [hm]) hm'] at hk
    cases hk
  · intro p d hp hd hd'
    obtain ⟨m, hm, -⟩ := Command.of_get hp
    rw [scan_none_below hd (Command.of_deleteLocal hd').2.1] at hm
    cases hm
  · intro p hp
    exact node_ne_none_of_scan (Command.of_deleteLocal hp).2.2.1

/-! ## Along a plan -/

/-- Both sides, while the plan is carried out from `s0`. -/
def PlanInv (plan : List PlanItem) (s0 s : Sides) : Prop :=
  SideInv s0.loc (.get · ∈ plan) (.deleteLocal · ∈ plan) s.loc ∧
  SideInv s0.rem (.put · ∈ plan) (.deleteRemote · ∈ plan) s.rem

/-- Nothing is below a directory the item deleted. -/
def Emptied (s : Sides) : PlanItem → Prop
  | .deleteLocal d => ∀ q, below d q = true → s.loc.node q = none
  | .deleteRemote d => ∀ q, below d q = true → s.rem.node q = none
  | _ => True

section Steps
variable {remote : Snapshot} {s0 : Sides} {i : PlanItem} {stamp : Stamp}
  (hfl : Fits s0.loc (.get · ∈ plan) (.deleteLocal · ∈ plan))
  (hfr : Fits s0.rem (.put · ∈ plan) (.deleteRemote · ∈ plan))
include hfl hfr

theorem applyItem_planInv (hi : i ∈ plan) (h : PlanInv plan s0 s) :
    PlanInv plan s0 (applyItem links remote stamp s i).1 := by
  obtain ⟨hl, hr⟩ := h
  cases i with
  | put p =>
    obtain ⟨n, hn⟩ := applyItem_put_rem links remote stamp (hr.plain_carried hfr hi)
    exact ⟨hl, hr.installs hfr hi hn⟩
  | get p =>
    refine ⟨?_, by rw [applyItem_get_rem]; exact hr⟩
    rcases applyItem_get_loc links remote stamp (hl.plain_carried hfl hi) with
      ⟨-, e⟩ | ⟨n, hn⟩
    · rw [e]; exact hl
    · exact hl.installs hfl hi hn
  | deleteLocal p =>
    refine ⟨?_, hr⟩
    rcases applyItem_deleteLocal_loc links remote stamp
      (hl.plain_deleted hfl hi) with ⟨e, -⟩ | e
    · rw [e]; exact hl
    · rw [e]; exact hl.drop hi
  | deleteRemote p =>
    refine ⟨by rw [applyItem_deleteRemote_loc]; exact hl, ?_⟩
    rcases applyItem_deleteRemote_rem links remote stamp
      (hr.plain_deleted hfr hi) with ⟨e, -⟩ | e
    · rw [e]; exact hr
    · rw [e]; exact hr.drop hi
  | conflict p => exact ⟨hl, hr⟩

theorem applyItem_emptied (hrem : ∀ d, .deleteRemote d ∈ plan → remote[d]? ≠ none) (hi : i ∈ plan)
    (h : PlanInv plan s0 s) (hok : (applyItem links remote stamp s i).2 = true) :
    Emptied (applyItem links remote stamp s i).1 i := by
  obtain ⟨hl, hr⟩ := h
  cases i with
  | deleteLocal d =>
    intro q hq
    rcases applyItem_deleteLocal_loc links remote stamp (hl.plain_deleted hfl hi) with ⟨e, hd⟩ | e
    · rw [e]; exact Tree.none_of_below hq hd
    · rw [e, Tree.node_drop, if_pos (.inr hq)]
  | deleteRemote d =>
    intro q hq
    rcases applyItem_deleteRemote_rem links remote stamp (hr.plain_deleted hfr hi) with ⟨e, hno⟩ | e
    · rcases hno with hno | hno | hno
      · exact absurd hno (hrem d hi)
      · rw [e]; exact Tree.none_of_below hq (by rw [Tree.isDir, hno]; rfl)
      · rw [hok] at hno
        cases hno
    · rw [e, Tree.node_drop, if_pos (.inr hq)]
  | put p => trivial
  | get p => trivial
  | conflict p => trivial

theorem applyItem_keeps_emptied {j : PlanItem} (hi : i ∈ plan) (hj : j ∈ plan) (h : PlanInv plan s0 s)
    (he : Emptied s j) : Emptied (applyItem links remote stamp s i).1 j := by
  obtain ⟨hl, hr⟩ := h
  cases j with
  | deleteLocal d =>
    intro q hq
    have hn := he q hq
    cases i with
    | get p =>
      rcases applyItem_get_loc links remote stamp (hl.plain_carried hfl hi) with ⟨-, e⟩ | ⟨n, hins⟩
      · rw [e, hn]
      · exact hins.keeps_away hfl hi hj hq hn
    | deleteLocal p =>
      rcases applyItem_deleteLocal_loc links remote stamp (hl.plain_deleted hfl hi) with ⟨e, -⟩ | e
      · rw [e, hn]
      · rw [e, Tree.node_drop, hn, ite_self]
    | deleteRemote p => rw [applyItem_deleteRemote_loc, hn]
    | put p => exact hn
    | conflict p => exact hn
  | deleteRemote d =>
    intro q hq
    have hn := he q hq
    cases i with
    | put p =>
      obtain ⟨n, hins⟩ := applyItem_put_rem links remote stamp (hr.plain_carried hfr hi)
      exact hins.keeps_away hfr hi hj hq hn
    | deleteRemote p =>
      rcases applyItem_deleteRemote_rem links remote stamp (hr.plain_deleted hfr hi) with ⟨e, -⟩ | e
      · rw [e, hn]
      · rw [e, Tree.node_drop, hn, ite_self]
    | get p => rw [applyItem_get_rem, hn]
    | deleteLocal p => exact hn
    | conflict p => exact hn
  | put p => trivial
  | get p => trivial
  | conflict p => trivial

end Steps

theorem PlanInv.start {s1 : Sides} (hl : AddsDirs s.loc s1.loc fun _ => True)
    (hr : AddsDirs s.rem s1.rem fun _ => True) : PlanInv plan s s1 :=
  ⟨SideInv.refl.adds hl, SideInv.refl.adds hr⟩

/-- What is gone from a side lay in something the plan deletes there; if that
directory was wholly known, the plan names it too. -/
theorem PlanInv.named {s' : Sides} (h : PlanInv (c.planned sha ignore delete s) s s')
    (hw : c.WholeDirs sha ignore delete s) : DeletesNamed (c.planned sha ignore delete s) s s' := by
  refine ⟨?_, ?_⟩
  · intro p hp hn
    obtain ⟨d, hd, hpd⟩ := h.1.gone p hp hn
    rcases hpd with rfl | hpd
    · exact hd
    · have hk := hw _ hd p (Tree.mem_paths.2 hp) hpd
      exact Command.deleteLocal_mem hd (scan_none_below (.inr hpd) (Command.of_deleteLocal hd).2.1) hk.1 hk.2
  · intro p hp hn
    obtain ⟨d, hd, hpd⟩ := h.2.gone p hp hn
    rcases hpd with rfl | hpd
    · exact hd
    · have hk := hw _ hd p (Tree.mem_paths.2 hp) hpd
      exact Command.deleteRemote_mem hd (scan_none_below (.inr hpd) (Command.of_deleteRemote hd).2.1) hk.1 hk.2

/-- If all below the deleted directories is gone and every path that is gone was
named, what was there was known. -/
theorem wholeDirs_of_named {s' : Sides} (he : ∀ i ∈ c.planned sha ignore delete s, Emptied s' i)
    (hd : DeletesNamed (c.planned sha ignore delete s) s s') : c.WholeDirs sha ignore delete s := by
  intro i hi
  cases i with
  | deleteLocal d =>
    intro q hq hb
    exact (Command.of_deleteLocal (hd.1 q (Tree.mem_paths.1 hq) (he _ hi q hb))).2.2
  | deleteRemote d =>
    intro q hq hb
    exact (Command.of_deleteRemote (hd.2 q (Tree.mem_paths.1 hq) (he _ hi q hb))).2.2
  | put p => trivial
  | get p => trivial
  | conflict p => trivial

theorem run_planInv (links : Links) (hd : ∀ i ∈ c.planned sha ignore delete s, s.Direct i) (env : Env) :
    PlanInv (c.planned sha ignore delete s) s (c.run links sha ignore env delete s).1 := by
  obtain ⟨s1, hl, hr, hrun | hrun⟩ := c.carryOut_cases links env (scan sha ignore s.loc) (scan sha ignore s.rem) delete s
  · rw [Command.run, hrun]
    exact PlanInv.start hl hr
  · rw [Command.run, hrun]
    exact runItems_inv (PlanInv _ s) (fun i hi _ h => applyItem_planInv (fits_loc hd) (fits_rem hd) hi h)
      (PlanInv.start hl hr)

theorem run_emptied (links : Links) (hd : ∀ i ∈ c.planned sha ignore delete s, s.Direct i) (env : Env)
    (hdone : (c.run links sha ignore env delete s).2 = true) :
    ∀ i ∈ c.planned sha ignore delete s, Emptied (c.run links sha ignore env delete s).1 i := by
  obtain ⟨s1, hl, hr, hrun | hrun⟩ := c.carryOut_cases links env (scan sha ignore s.loc) (scan sha ignore s.rem) delete s
  · rw [Command.run, hrun] at hdone
    cases hdone
  · rw [Command.run, hrun] at hdone ⊢
    intro i hi
    refine runItems_done (PlanInv (c.planned sha ignore delete s) s) (fun j s' => j ∈ c.planned sha ignore delete s → Emptied s' j) ?_ ?_ ?_
      (PlanInv.start hl hr) hdone i hi hi
    · intro i hi s' h
      exact applyItem_planInv (fits_loc hd) (fits_rem hd) hi h
    · intro i hi s' h hok _
      exact applyItem_emptied (fits_loc hd) (fits_rem hd) (fun d hd' => (Command.of_deleteRemote hd').2.2.1) hi h hok
    · intro i hi j s' h he hj
      exact applyItem_keeps_emptied (fits_loc hd) (fits_rem hd) hi hj h (he hj)

/-- What is installed takes nothing away, wherever the links lead. -/
theorem install_keeps {links : Links} {stamp : Stamp} {t : Tree} {p q : String} {n : Node} (hq : t.node q ≠ none) :
    (install links stamp t p n).1.node q ≠ none := by
  unfold install
  split
  · exact hq
  · rename_i t1 hdirs
    have h1 : t1.node q ≠ none := (createDirs_adds hdirs).node_ne_none hq
    split
    · exact h1
    · rename_i t2 hplace
      obtain ⟨x, -, hplace⟩ := Option.bind_eq_some_iff.1 hplace
      rw [(Tree.place_eq_some hplace).2.2 q]
      split
      · simp
      · exact h1

/-- Every path of the one sides is one of the others. -/
def Sides.Grow (s s' : Sides) : Prop :=
  (∀ q, s.loc.node q ≠ none → s'.loc.node q ≠ none) ∧ ∀ q, s.rem.node q ≠ none → s'.rem.node q ≠ none

/-- Where nothing is deleted, nothing goes. -/
theorem applyItem_keeps {remote : Snapshot} {stamp : Stamp} {i : PlanItem} (hi : i.deletes = false) :
    s.Grow (applyItem links remote stamp s i).1 := by
  cases i with
  | put p =>
    refine ⟨fun q hq => hq, fun q hq => ?_⟩
    simp only [applyItem, uploadFile]
    split
    · exact install_keeps hq
    · exact install_keeps hq
    · exact hq
  | get p =>
    refine ⟨fun q hq => ?_, fun q hq => by rwa [applyItem_get_rem]⟩
    cases hm : remote[p]? with
    | none => simpa only [applyItem, hm] using hq
    | some m =>
      have hparents : ((createDirs links stamp.dirMode s.loc (ancestors p)).getD s.loc).node q ≠ none := by
        cases hdirs : createDirs links stamp.dirMode s.loc (ancestors p) with
        | none => exact hq
        | some t1 => exact (createDirs_adds hdirs).node_ne_none hq
      simp only [applyItem, hm, downloadFile]
      split
      · split
        · exact install_keeps hq
        · exact hparents
      · split
        · exact install_keeps hq
        · exact hparents
  | deleteLocal p => cases hi
  | deleteRemote p => cases hi
  | conflict p => exact ⟨fun q hq => hq, fun q hq => hq⟩

theorem run_kept (links : Links) (env : Env) (hnone : (c.planned sha ignore delete s).any PlanItem.deletes = false) :
    DeletesNamed (c.planned sha ignore delete s) s (c.run links sha ignore env delete s).1 := by
  have hkeeps : s.Grow (c.run links sha ignore env delete s).1 := by
    obtain ⟨s1, hl, hr, hrun⟩ := c.carryOut_cases links env (scan sha ignore s.loc) (scan sha ignore s.rem) delete s
    have h1 : s.Grow s1 := ⟨fun q => hl.node_ne_none, fun q => hr.node_ne_none⟩
    rw [Command.run]
    rcases hrun with hrun | hrun
    · rw [hrun]
      exact h1
    · rw [hrun]
      refine runItems_inv s.Grow (fun i hi s2 h2 => ?_) h1
      obtain ⟨hloc, hrem⟩ : s2.Grow (applyItem links (scan sha ignore s.rem) (env.stamp i.path) s2 i).1 :=
        applyItem_keeps (Bool.eq_false_iff.2 (List.any_eq_false.1 hnone i hi))
      exact ⟨fun q hq => hloc q (h2.1 q hq), fun q hq => hrem q (h2.2 q hq)⟩
  exact ⟨fun p hp hn => absurd hn (hkeeps.1 p hp), fun p hp hn => absurd hn (hkeeps.2 p hp)⟩

theorem wholeDirs_of_no_deletes (hnone : (c.planned sha ignore delete s).any PlanItem.deletes = false) :
    c.WholeDirs sha ignore delete s := by
  intro i hi
  have hno := List.any_eq_false.1 hnone i hi
  cases i with
  | deleteLocal d => exact absurd rfl hno
  | deleteRemote d => exact absurd rfl hno
  | put p => trivial
  | get p => trivial
  | conflict p => trivial

/-- A command that stops at a conflict changes nothing. -/
theorem run_conflict (links : Links) (env : Env)
    (h : (c.planned sha ignore delete s).any PlanItem.isConflict = true) : (c.run links sha ignore env delete s).1 = s := by
  cases c with
  | sync base =>
    rw [Command.run, Command.carryOut]
    exact congrArg Prod.fst (if_pos h)
  | pull =>
    obtain ⟨i, hi, hc⟩ := List.any_eq_true.1 h
    rcases mem_carryItems.1 hi with ⟨p, _, rfl, -⟩ | ⟨p, rfl, -⟩ <;> cases hc
  | push =>
    obtain ⟨i, hi, hc⟩ := List.any_eq_true.1 h
    rcases mem_carryItems.1 hi with ⟨p, _, rfl, -⟩ | ⟨p, rfl, -⟩ <;> cases hc

end Plan

/-- Unless something is deleted and something carried through a link: a command deletes only
what its plan names if it stops at a conflict or each directory to be deleted holds only known
entries, whatever goes wrong on the way; and one that completes deletes only that if and only
if they do. -/
theorem deletes_only_named (links : Links) (sha : List UInt8 → String) (ignore : List String) (c : Command)
    (delete : Bool) (s : Sides) (env : Env)
    (hdirect : (c.planned sha ignore delete s).any PlanItem.deletes = true →
      ∀ i ∈ c.planned sha ignore delete s, s.Direct i) :
    let plan := c.planned sha ignore delete s
    let after := c.run links sha ignore env delete s
    (plan.any PlanItem.isConflict = true ∨ c.WholeDirs sha ignore delete s → DeletesNamed plan s after.1) ∧
    (after.2 = true → (DeletesNamed plan s after.1 ↔ c.WholeDirs sha ignore delete s)) := by
  intro plan after
  by_cases hnone : plan.any PlanItem.deletes = false
  · have hnamed : DeletesNamed plan s after.1 := run_kept links env hnone
    exact ⟨fun _ => hnamed, fun _ => iff_of_true hnamed (wholeDirs_of_no_deletes hnone)⟩
  have hdirect := hdirect (by simpa using hnone)
  have hinv := run_planInv links hdirect env
  refine ⟨?_, ?_⟩
  · rintro (hc | hw)
    · have he : after.1 = s := run_conflict links env hc
      rw [he]
      exact ⟨fun p h1 h2 => absurd h2 h1, fun p h1 h2 => absurd h2 h1⟩
    · exact hinv.named hw
  · intro hdone
    exact ⟨wholeDirs_of_named (run_emptied links hdirect env hdone), hinv.named⟩

/-! ## A directory with a new file in it -/

/-- Paths below a link lead nowhere. -/
def brokenLinks : Links where
  locate t p := if t.Plain p then some p else none
  leadsToDir _ _ := false
  leadsSomewhere _ _ := false
  read _ _ := none
  locate_plain _ _ h := if_pos h

def calmStamp : Stamp := ⟨9, 420, 493, 511⟩

def calmEnv : Env := ⟨fun _ => calmStamp, fun _ => .none⟩

/-- A directory with one file, as both sides had it. -/
def docs : Tree := .build [("docs", .dir 493), ("docs/a", .file [1] 420 5)]

theorem deletes_only_named_docs :
    (∀ i ∈ (Command.sync (scan (fun _ => "") [] docs)).planned (fun _ => "") [] true ⟨.empty, docs⟩,
      (Sides.mk .empty docs).Direct i) ∧
    (Command.sync (scan (fun _ => "") [] docs)).WholeDirs (fun _ => "") [] true ⟨.empty, docs⟩ ∧
    DeletesNamed ((Command.sync (scan (fun _ => "") [] docs)).planned (fun _ => "") [] true ⟨.empty, docs⟩)
      ⟨.empty, docs⟩ ((Command.sync (scan (fun _ => "") [] docs)).run brokenLinks (fun _ => "") [] calmEnv true
        ⟨.empty, docs⟩).1 := by
  have hw : (Command.sync (scan (fun _ => "") [] docs)).WholeDirs (fun _ => "") [] true ⟨.empty, docs⟩ := by decide
  have hd : ∀ i ∈ (Command.sync (scan (fun _ => "") [] docs)).planned (fun _ => "") [] true ⟨.empty, docs⟩,
      (Sides.mk .empty docs).Direct i := by decide
  exact ⟨hd, hw, (deletes_only_named brokenLinks (fun _ => "") [] _ true ⟨.empty, docs⟩ calmEnv fun _ => hd).1 (.inr hw)⟩

/-- The same directory after a file was created in it on the remote. -/
def docsGrown : Tree := .build [("docs", .dir 493), ("docs/a", .file [1] 420 5), ("docs/new", .file [2] 420 7)]

/-- The directory was deleted locally and a file created in it on the remote: the
plan would fetch the new file, but deleting the directory takes it along. -/
theorem sync_deletes_new_entry :
    ∃ (links : Links) (base : Snapshot) (s : Sides) (env : Env),
      (Command.sync base).planned (fun _ => "") [] true s =
        [.deleteRemote "docs", .deleteRemote "docs/a", .get "docs/new"] ∧
      s.rem.node "docs/new" ≠ none ∧
      ((Command.sync base).run links (fun _ => "") [] env true s).1.rem.node "docs/new" = none ∧
      ¬ DeletesNamed ((Command.sync base).planned (fun _ => "") [] true s) s
        ((Command.sync base).run links (fun _ => "") [] env true s).1 := by
  refine ⟨brokenLinks, scan (fun _ => "") [] docs, ⟨.empty, docsGrown⟩, calmEnv, by decide, by decide, by decide, ?_⟩
  intro h
  exact absurd (h.2 "docs/new" (by decide) (by decide)) (by decide)

end Mobfs
