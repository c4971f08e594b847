import Mobfs.Sync.OneWay
/-!
# Mirroring

`push` and `pull` with `delete` are to make the other side the same, outside what is
ignored (`Mirrored`). `mirrors_iff` says when they do, if nothing goes wrong: when no
path is a directory on one side and something else on the other, since directories
are made first and nothing is replaced by or with one; and for `pull` when each link
that has to go leads somewhere as its turn comes, since `remove_local` asks
`path.exists()`.

`OneWay.mirrors_iff` proves both at once.
-/

namespace Mobfs

open Std Lib

/-- `t` has the entries of `source` outside what is ignored, each of its kind and with
its contents or target. -/
def Mirrored (ignore : List String) (source t : Tree) : Prop :=
  ∀ p, shouldIgnoreRel ignore p = false → (t.node p).map Node.bare = (source.node p).map Node.bare

/-- No sockets, pipes or devices. -/
def Tree.Ordinary (t : Tree) : Prop := ∀ p, t.node p ≠ some .other

/-- No path is a directory in one tree and something else in the other. -/
def KindsAgree (ignore : List String) (a b : Tree) : Prop :=
  ∀ p, shouldIgnoreRel ignore p = false → a.node p ≠ none → b.node p ≠ none → a.isDir p = b.isDir p

/-- Different files that stand at one path have different hashes. -/
def NoCollision (sha : List UInt8 → String) (a b : Tree) : Prop :=
  ∀ p data mode mtime data' mode' mtime', a.node p = some (.file data mode mtime) →
    b.node p = some (.file data' mode' mtime') → sha data = sha data' → data = data'

section OneWay
variable {sha : List UInt8 → String} {ignore : List String} {links : Links} {mode : String → Nat}
  {item : Stamp → Sides → PlanItem → Sides × Bool} {src dst : Sides → Tree} {carry remove : String → PlanItem}
  {stays : Tree → String → Prop} {env : Env} {s0 : Sides} {source t : Tree}

theorem sound_scan : Sound sha (scan sha ignore t) t := fun _ _ hm => (node_of_scan hm).2

theorem scan_of_node (sha : List UInt8 → String) {p : String} {n : Node} (hp : shouldIgnoreRel ignore p = false) (hn : t.node p = some n)
    (ho : n ≠ .other) : ∃ m, (scan sha ignore t)[p]? = some m ∧ entryMeta sha n = some m := by
  rw [get?_scan, hp, hn]
  cases n with
  | other => exact absurd rfl ho
  | _ => exact ⟨_, rfl, rfl⟩

theorem not_ignored_of_scan {p : String} (hp : (scan sha ignore t)[p]? ≠ none) : shouldIgnoreRel ignore p = false := by
  obtain ⟨m, hm⟩ := Option.ne_none_iff_exists'.1 hp
  exact (node_of_scan hm).1

theorem not_ignored_of_upto {d e : String} (hd : shouldIgnoreRel ignore d = false) (he : Upto d e) :
    shouldIgnoreRel ignore e = false := by
  rcases he with rfl | he
  · exact hd
  · by_contra hi
    rw [ignored_below he (by simpa using hi)] at hd
    cases hd

/-- Entries that a snapshot cannot tell apart have the same contents. -/
theorem bare_of_entryMeta {p : String} {n n' : Node} {m : EntryMeta} (hsha : NoCollision sha source t)
    (hn : source.node p = some n) (hn' : t.node p = some n') (hm : entryMeta sha n = some m)
    (hm' : entryMeta sha n' = some m) : n'.bare = n.bare := by
  cases n with
  | file data mode mtime =>
    cases n' with
    | file data' mode' mtime' =>
      cases hm
      simp only [entryMeta, Option.some.injEq, EntryMeta.mk.injEq] at hm'
      obtain rfl := hsha p data mode mtime data' mode' mtime' hn hn' hm'.2.2.2.1.symm
      rfl
    | _ => cases hm; cases hm'
  | dir mode =>
    cases n' with
    | dir mode' => rfl
    | _ => cases hm; cases hm'
  | symlink target mode mtime =>
    cases n' with
    | symlink target' mode' mtime' =>
      cases hm
      simp only [entryMeta, Option.some.injEq, EntryMeta.mk.injEq] at hm'
      rw [hm'.2.2.2.2.2]
      rfl
    | _ => cases hm; cases hm'
  | other => cases hm

/-! ## The directories -/

/-- Where the kinds agree the source's directories are made, and nothing else. -/
theorem KindsAgree.ensureDirs (links : Links) (sha : List UInt8 → String) (mode : String → Nat)
    (hk : KindsAgree ignore source t) :
    let made := ensureDirs links mode t (scan sha ignore source).dirs
    made.2 = true ∧ (AddsDirs t made.1 fun q => source.isDir q = true) ∧
      ∀ q, shouldIgnoreRel ignore q = false → source.isDir q = true → made.1.isDir q = true := by
  have hdir : ∀ d ∈ (scan sha ignore source).dirs, ∀ e, Upto d e →
      source.isDir e = true ∧ (t.node e = none ∨ t.isDir e = true) := by
    intro d hd e he
    obtain ⟨m, hm, hkind⟩ := mem_dirs.1 hd
    have hsd : source.isDir d = true := by
      rw [isDir_of_scan hm, hkind]
      rfl
    have hse : source.isDir e = true := by
      rcases he with rfl | he
      · exact hsd
      · exact Tree.isDir_of_below he (Tree.node_ne_none_of_isDir hsd)
    refine ⟨hse, ?_⟩
    by_cases hn : t.node e = none
    · exact .inl hn
    · refine .inr ?_
      rw [← hk e (not_ignored_of_upto (node_of_scan hm).1 he) (Tree.node_ne_none_of_isDir hse) hn, hse]
  have hlinks : ∀ d ∈ (scan sha ignore source).dirs, ∀ e, Upto d e → t.isLink e = false := by
    intro d hd e he
    rcases (hdir d hd e he).2 with hn | hde
    · rw [Tree.isLink, hn]
      rfl
    · exact Tree.isLink_of_isDir hde
  intro made
  have hok : made.2 = true := ensureDirs_ok fun d hd e he => (hdir d hd e he).2
  obtain ⟨hadds, hdirs⟩ := ensureDirs_spec links mode hlinks
  refine ⟨hok, hadds.mono ?_, ?_⟩
  · rintro q ⟨d, hd, hq⟩
    exact (hdir d hd q hq).1
  · intro q hq hdq
    obtain ⟨m, hm, hkind⟩ := scan_of_isDir sha hq hdq
    exact hdirs hok q (mem_dirs.2 ⟨m, hm, hkind⟩)

/-! ## The paths of the plan -/

section Paths
variable {delete : Bool} {p : String} {dstSnap : Snapshot}

theorem Carried.node_source (hp : Carried (scan sha ignore source) dstSnap p) :
    shouldIgnoreRel ignore p = false ∧ ∃ n, source.node p = some n ∧ n.carried = true := by
  obtain ⟨m, hm, hk, -⟩ := hp
  obtain ⟨hi, n, hn, hmeta⟩ := node_of_scan hm
  exact ⟨hi, n, hn, by rw [entryMeta_carried hmeta, hk]⟩

/-- Paths carried over and paths removed keep out of each other's way. -/
theorem fits_of_plain (hplain : ∀ p, Carried (scan sha ignore source) dstSnap p → t.Plain p)
    (hthere : ∀ p, dstSnap[p]? ≠ none → t.node p ≠ none) :
    Fits t (Carried (scan sha ignore source) dstSnap) (Removed delete (scan sha ignore source) dstSnap) := by
  refine ⟨hplain, ?_, ?_, fun p hp => hthere p hp.2.1⟩
  · rintro p d ⟨m, hm, -⟩ hd ⟨m', hm', hk, -⟩
    rw [scan_not_carried hd (by simp [hm]) hm'] at hk
    cases hk
  · rintro p d ⟨m, hm, -⟩ hd ⟨-, -, hd'⟩
    rw [scan_none_below hd hd'] at hm
    cases hm

end Paths

/-! ## What is left -/

/-- What the destination is when the plan is started: the directories are made. -/
structure Begins (links : Links) (sha : List UInt8 → String) (ignore : List String) (mode : String → Nat)
    (source t : Tree) (src dst : Sides → Tree) (s0 : Sides) : Prop where
  src : src s0 = source
  dst : dst s0 = (ensureDirs links mode t (scan sha ignore source).dirs).1

section Begins
variable (h : OneWay sha (scan sha ignore source) (scan sha ignore t) item src dst carry remove stays)
  (hb : Begins links sha ignore mode source t src dst s0)

/-- The plan of the two trees, with deletions. -/
abbrev mirrorPlan (sha : List UInt8 → String) (ignore : List String) (carry remove : String → PlanItem) (source t : Tree) :
    List PlanItem :=
  carryItems carry remove (scan sha ignore source) (scan sha ignore t) true

/-- A link that is left when its turn comes is inside something else that goes. -/
def NoneStays (sha : List UInt8 → String) (ignore : List String) (item : Stamp → Sides → PlanItem → Sides × Bool)
    (dst : Sides → Tree) (carry remove : String → PlanItem) (stays : Tree → String → Prop) (env : Env) (s0 : Sides)
    (source t : Tree) : Prop :=
  ∀ pre d post, mirrorPlan sha ignore carry remove source t = pre ++ remove d :: post →
    stays (dst (runItems item env s0 pre).1) d →
    ∃ e, below e d = true ∧ Removed true (scan sha ignore source) (scan sha ignore t) e

include hb in
theorem Begins.adds : AddsDirs t (dst s0) fun _ => True := by
  rw [hb.dst]
  exact ensureDirs_adds

include hb in
theorem Begins.sound : ∀ p, (scan sha ignore t)[p]? ≠ none → (dst s0).node p ≠ none :=
  fun _ hp => hb.adds.node_ne_none (node_ne_none_of_scan hp)

include hb in
theorem Begins.fits (hk : KindsAgree ignore source t) :
    Fits (dst s0) (Carried (scan sha ignore source) (scan sha ignore t))
      (Removed true (scan sha ignore source) (scan sha ignore t)) := by
  obtain ⟨-, -, hdirs⟩ := hk.ensureDirs links sha mode
  rw [← hb.dst] at hdirs
  refine fits_of_plain ?_ hb.sound
  intro p hp d hd
  obtain ⟨hi, n, hn, -⟩ := hp.node_source
  exact Tree.isLink_of_isDir (hdirs d (not_ignored_of_upto hi (.inr hd)) (Tree.isDir_of_below hd (by simp [hn])))

include h hb

/-- If the sides end the same, no path had two kinds: nothing changes its kind in place. -/
theorem OneWay.kinds_of_mirrored
    (hm : Mirrored ignore source (dst (runItems item env s0 (mirrorPlan sha ignore carry remove source t)).1)) :
    KindsAgree ignore source t := by
  intro p hp hs ht
  obtain ⟨n, hn⟩ := Option.ne_none_iff_exists'.1 hs
  obtain ⟨n1, hn1⟩ := Option.ne_none_iff_exists'.1 ht
  have hsame := hm p hp
  rw [hn] at hsame
  obtain ⟨n', hn', hbare⟩ := Option.map_eq_some_iff.1 hsame
  rw [Tree.isDir, Tree.isDir, hn, hn1]
  rcases h.run_place hb.sound p n1 (hb.adds.node_eq hn1) with hi | ⟨hnone, -⟩
  · have hdir := hi.any_isDir
    rw [hn'] at hdir
    exact (Node.isDir_of_bare hbare).symm.trans hdir
  · rw [hn'] at hnone
    cases hnone

omit hb in
theorem OneWay.path_ne_after {pre post : List PlanItem} {d : String}
    (e : mirrorPlan sha ignore carry remove source t = pre ++ remove d :: post) : ∀ i ∈ post, i.path ≠ d := by
  have hpaths : (mirrorPlan sha ignore carry remove source t).Pairwise fun i j => i.path ≠ j.path :=
    carryItems_paths h.carry_path h.remove_path
  rw [e, List.pairwise_append] at hpaths
  intro i hi he
  exact (List.pairwise_cons.1 hpaths.2.1).1 i hi (by rw [h.remove_path, he])

/-- If the sides end the same, nothing stayed that had to go. -/
theorem OneWay.noneStays_of_mirrored (hord : source.Ordinary)
    (hdone : (runItems item env s0 (mirrorPlan sha ignore carry remove source t)).2 = true)
    (hm : Mirrored ignore source (dst (runItems item env s0 (mirrorPlan sha ignore carry remove source t)).1)) :
    NoneStays sha ignore item dst carry remove stays env s0 source t := by
  have hk := h.kinds_of_mirrored hb hm
  have hf := hb.fits hk
  have hsnd : Sound sha (scan sha ignore source) (src s0) := hb.src ▸ sound_scan
  intro pre d post e hstay
  by_contra habove
  have hmem : remove d ∈ mirrorPlan sha ignore carry remove source t := by simp [e]
  have hd : Removed true (scan sha ignore source) (scan sha ignore t) d := by
    rcases mem_oneWay.1 hmem with ⟨p, hp, -⟩ | ⟨p, hp, hr⟩
    · exact absurd hp.symm (h.carry_ne_remove p d)
    · rwa [h.remove_inj hp]
  have hvis := not_ignored_of_scan hd.2.1
  have hgone : source.node d = none := by
    by_contra hn
    obtain ⟨n, hn⟩ := Option.ne_none_iff_exists'.1 hn
    obtain ⟨m, hm, -⟩ := scan_of_node sha hvis hn fun ho => hord d (ho ▸ hn)
    rw [hd.2.2] at hm
    cases hm
  have hleft := hm d hvis
  rw [hgone] at hleft
  -- It is there still when its turn is over, and what follows takes other paths.
  have hpre : Midway src dst true (scan sha ignore source) (scan sha ignore t) s0 (runItems item env s0 pre).1 :=
    h.prefix_along hsnd hf e
  have hplain := hpre.along.side.plain_deleted hf hd
  obtain ⟨l, hl, -⟩ := Tree.isLink_iff.1 (h.stays_link _ _ hstay)
  have hthere : (dst (item (env.stamp (remove d).path) (runItems item env s0 pre).1 (remove d)).1).node d ≠ none := by
    rw [h.remove_stays _ _ d hplain hstay, hl]
    simp
  have hpost : ∀ i ∈ post, i ∈ mirrorPlan sha ignore carry remove source t := by
    intro i hi
    rw [e]
    exact List.mem_append_right _ (List.mem_cons_of_mem _ hi)
  have hother := h.path_ne_after e
  rw [e, (runItems_split (e ▸ hdone)).2] at hleft
  have hafter : Midway src dst true (scan sha ignore source) (scan sha ignore t) s0
      (item (env.stamp (remove d).path) (runItems item env s0 pre).1 (remove d)).1 :=
    h.step_along hsnd hf (remove d) hmem _ hpre
  refine (runItems_inv (fun s => Midway src dst true (scan sha ignore source) (scan sha ignore t) s0 s ∧
    (dst s).node d ≠ none) ?_ ⟨hafter, hthere⟩).2 (Option.map_eq_none_iff.1 hleft)
  rintro i hi s ⟨hsa, hn⟩
  refine ⟨h.step_along hsnd hf i (hpost i hi) s hsa, ?_⟩
  rcases mem_oneWay.1 (hpost i hi) with ⟨q, rfl, hq⟩ | ⟨q, rfl, hq⟩
  · obtain ⟨n, hn⟩ := Option.ne_none_iff_exists'.1 hn
    obtain ⟨n', hn', -⟩ := h.carry_keeps (env.stamp (carry q).path) s q d n hn
    simp [hn']
  · rcases h.remove_spec (env.stamp (remove q).path) s q hq.2.1 (hsa.along.side.plain_deleted hf hq) with e' | ⟨e', -⟩
    · rw [e', Tree.node_drop, if_neg]
      · exact hn
      · rintro (rfl | hqd)
        · exact hother _ hi (h.remove_path d)
        · exact habove ⟨q, hqd, hq⟩
    · rwa [e']

/-- Where the kinds agree and nothing goes wrong, the plan is done. -/
theorem OneWay.mirror_ok (hcalm : ∀ p, env.fault p = .none) (hk : KindsAgree ignore source t) :
    (runItems item env s0 (mirrorPlan sha ignore carry remove source t)).2 = true := by
  have hf := hb.fits hk
  have hsnd : Sound sha (scan sha ignore source) (src s0) := hb.src ▸ sound_scan
  obtain ⟨-, hadds, hdirs⟩ := hk.ensureDirs links sha mode
  rw [← hb.dst] at hadds hdirs
  refine h.run_ok hsnd hf hcalm ?_ ?_ ?_
  · intro p hp d hd
    obtain ⟨hi, n, hn, -⟩ := hp.node_source
    exact hdirs d (not_ignored_of_upto hi (.inr hd)) (Tree.isDir_of_below hd (by simp [hn]))
  · intro p hp
    obtain ⟨hi, n, hn, hc⟩ := hp.node_source
    have hns : source.isDir p = false := Tree.not_isDir_of_node hn (Node.not_dir_of_carried hc)
    rcases hadds p with e | ⟨hd, -⟩
    · rw [Tree.isDir, e]
      by_cases ht : t.node p = none
      · rw [ht]
        rfl
      · rw [← hns]
        exact (hk p hi (by simp [hn]) ht).symm
    · rw [hns] at hd
      cases hd
  · intro p m hp hm
    obtain ⟨n, hn⟩ := Option.ne_none_iff_exists'.1 (node_ne_none_of_scan hp.2.1)
    rw [Tree.isDir, hadds.node_eq hn, ← hn, show (t.node p).any Node.isDir = t.isDir p from rfl, isDir_of_scan hm,
      decide_eq_true_eq]

section Done
variable (hk : KindsAgree ignore source t)
  (hdone : (runItems item env s0 (mirrorPlan sha ignore carry remove source t)).2 = true)
include hk hdone

/-- What the source has is there in the end. -/
theorem OneWay.source_there (hsha : NoCollision sha source t) {p : String} {n : Node}
    (hp : shouldIgnoreRel ignore p = false) (hn : source.node p = some n) (ho : n ≠ .other) :
    ∃ n', (dst (runItems item env s0 (mirrorPlan sha ignore carry remove source t)).1).node p = some n' ∧
      n'.bare = n.bare := by
  have hf := hb.fits hk
  have hsnd : Sound sha (scan sha ignore source) (src s0) := hb.src ▸ sound_scan
  obtain ⟨-, hadds, hdirs⟩ := hk.ensureDirs links sha mode
  rw [← hb.dst] at hadds hdirs
  obtain ⟨m, hm, hmeta⟩ := scan_of_node sha hp hn ho
  have hdst : Sound sha (scan sha ignore t) (dst s0) := by
    intro q m hq
    obtain ⟨-, n, hn, hmeta⟩ := node_of_scan hq
    exact ⟨n, hadds.node_eq hn, hmeta⟩
  have hmade : ∀ q m, (scan sha ignore source)[q]? = some m → m.kind = .dir → (dst s0).isDir q = true := by
    intro q m hq hkind
    refine hdirs q (node_of_scan hq).1 ?_
    rw [isDir_of_scan hq, hkind]
    rfl
  obtain ⟨n1, n', hn1, -, hn', hbare | ⟨hn0, hmeta'⟩⟩ :=
    h.run_source hsnd hf hdst hmade (fun d q hd hq => scan_none_below hq hd) hm hdone
  · rw [hb.src, hn] at hn1
    cases hn1
    exact ⟨n', hn', hbare⟩
  · refine ⟨n', hn', ?_⟩
    rcases hadds p with e | ⟨hd, -, hd'⟩
    · exact bare_of_entryMeta hsha hn (e.symm.trans hn0) hmeta hmeta'
    · rw [Tree.isDir, hn] at hd
      rw [Tree.isDir, hn0] at hd'
      exact Node.bare_of_isDir hd hd'

/-- What the source lacks is gone in the end. -/
theorem OneWay.rest_gone (hord : t.Ordinary)
    (hstay : NoneStays sha ignore item dst carry remove stays env s0 source t) {p : String}
    (hp : shouldIgnoreRel ignore p = false) (hn : source.node p = none) :
    (dst (runItems item env s0 (mirrorPlan sha ignore carry remove source t)).1).node p = none := by
  have hf := hb.fits hk
  have hsnd : Sound sha (scan sha ignore source) (src s0) := hb.src ▸ sound_scan
  have hnodir : ∀ q, Upto q p → source.node q = none := by
    rintro q (rfl | hq)
    · exact hn
    · by_contra hne
      exact absurd hn (Tree.node_ne_none_of_isDir (Tree.isDir_of_below hq hne))
  by_contra hleft
  rcases (h.run_along hsnd hf).along.only p hleft with h0 | ⟨q, hq, hpq⟩
  · have ht : t.node p ≠ none := by
      rcases (hk.ensureDirs links sha mode).2.1 p with e | ⟨hd, -⟩
      · rwa [← e, ← hb.dst]
      · exact absurd hn (Tree.node_ne_none_of_isDir hd)
    obtain ⟨n, ht⟩ := Option.ne_none_iff_exists'.1 ht
    obtain ⟨m, hm, -⟩ := scan_of_node sha hp ht fun ho => hord p (ho ▸ ht)
    have hr : Removed true (scan sha ignore source) (scan sha ignore t) p := by
      refine ⟨rfl, by simp [hm], ?_⟩
      rw [get?_scan, hn]
      exact ite_self _
    rcases h.run_removed hb.sound hr hdone with hgone | ⟨pre, post, e, hs, -⟩
    · exact hleft hgone
    · -- It was left as it was, but a directory around it goes.
      obtain ⟨d, hdp, hd⟩ := hstay pre p post e hs
      rcases h.run_removed hb.sound hd hdone with hgone | ⟨pre', post', e', hs', -⟩
      · exact hleft (Tree.none_of_below hdp (by rw [Tree.isDir, hgone]; rfl))
      · have hdir : (dst s0).isDir d = true := Tree.isDir_of_below hdp h0
        have hlink := h.stays_link _ _ hs'
        rcases (h.prefix_along hsnd hf e').along.side.dirs d hdir with h1 | h1
        · rw [Tree.isLink_of_isDir h1] at hlink
          cases hlink
        · rw [Tree.isLink, h1] at hlink
          cases hlink
  · obtain ⟨-, n, hnq, -⟩ := hq.node_source
    rw [hnodir q hpq] at hnq
    cases hnq

end Done

/-- Where the kinds agree and nothing stays, the sides end the same. -/
theorem OneWay.mirrors (hord : t.Ordinary) (hords : source.Ordinary) (hsha : NoCollision sha source t)
    (hk : KindsAgree ignore source t)
    (hdone : (runItems item env s0 (mirrorPlan sha ignore carry remove source t)).2 = true)
    (hstay : NoneStays sha ignore item dst carry remove stays env s0 source t) :
    Mirrored ignore source (dst (runItems item env s0 (mirrorPlan sha ignore carry remove source t)).1) := by
  intro p hp
  cases hn : source.node p with
  | none => rw [h.rest_gone hb hk hdone hord hstay hp hn]
  | some n =>
    obtain ⟨n', hn', hbare⟩ := h.source_there hb hk hdone hsha hp hn fun ho => hords p (ho ▸ hn)
    rw [hn', Option.map_some, Option.map_some, hbare]

/-- A command that makes the directories and then carries out its plan mirrors the
source exactly if the kinds agree and nothing stays. -/
theorem OneWay.mirror_iff (hcalm : ∀ p, env.fault p = .none) (hord : t.Ordinary) (hords : source.Ordinary)
    (hsha : NoCollision sha source t) {r : Sides × Bool}
    (hr : r = if (ensureDirs links mode t (scan sha ignore source).dirs).2 then
      runItems item env s0 (mirrorPlan sha ignore carry remove source t) else (s0, false)) :
    r.2 = true ∧ Mirrored ignore source (dst r.1) ↔
      KindsAgree ignore source t ∧ NoneStays sha ignore item dst carry remove stays env s0 source t := by
  constructor
  · rintro ⟨hdone, hm⟩
    have hmade : (ensureDirs links mode t (scan sha ignore source).dirs).2 = true := by
      by_contra hf
      rw [hr, if_neg hf] at hdone
      cases hdone
    rw [hr, if_pos hmade] at hdone hm
    exact ⟨h.kinds_of_mirrored hb hm, h.noneStays_of_mirrored hb hords hdone hm⟩
  · rintro ⟨hk, hstay⟩
    rw [hr, if_pos (hk.ensureDirs links sha mode).1]
    have hdone := h.mirror_ok hb hcalm hk
    exact ⟨hdone, h.mirrors hb hord hords hsha hk hdone hstay⟩

end Begins

end OneWay

/-! ## The daemon backend -/

section Daemon
variable {links : Links} {sha : List UInt8 → String} {ignore : List String} {env : Env} {s : Sides}
  {srcSnap dstSnap : Snapshot}

theorem uploadFile_inPlace {stamp : Stamp} {loc rem : Tree} {p q : String} {n : Node} (hn : rem.node q = some n) :
    InPlace n ((uploadFile links stamp loc rem p).1.node q) := by
  unfold uploadFile
  split
  · exact install_inPlace rfl hn
  · exact install_inPlace rfl hn
  · exact ⟨n, hn, .inl rfl⟩

theorem downloadFile_inPlace {stamp : Stamp} {rem loc : Tree} {p q : String} {m : EntryMeta} {n : Node}
    (hn : loc.node q = some n) : InPlace n ((downloadFile links stamp rem loc p m).1.node q) := by
  have hparents : InPlace n (((createDirs links stamp.dirMode loc (ancestors p)).getD loc).node q) := by
    cases h : createDirs links stamp.dirMode loc (ancestors p) with
    | none => exact ⟨n, hn, .inl rfl⟩
    | some t => exact (createDirs_adds h).inPlace hn
  unfold downloadFile
  split
  · split
    · exact install_inPlace rfl hn
    · exact hparents
  · split
    · exact install_inPlace rfl hn
    · exact hparents

/-- A link that leads nowhere, which `remove_local` leaves. -/
def Links.Dangling (links : Links) (t : Tree) (p : String) : Prop :=
  t.isLink p = true ∧ links.leadsSomewhere t p = false

/-- `push` with the daemon: its `Remove` leaves nothing. -/
theorem oneWay_push : OneWay sha srcSnap dstSnap (applyItem links dstSnap) Sides.loc Sides.rem .put .deleteRemote
    fun _ _ => False where
  carry_path _ := rfl
  remove_path _ := rfl
  carry_ne _ := nofun
  carry_src _ _ _ := rfl
  remove_src st s p := applyItem_deleteRemote_loc links dstSnap st
  carry_spec st s p m n hm hk hn hmeta hplain := by
    simp only [applyItem, uploadFile_of_node hn hmeta hk]
    exact ⟨_, uploaded_bare st n, install_spec hplain⟩
  carry_ok st s p m n hm hk hn hmeta hd hp := by
    simp only [applyItem, uploadFile_of_node hn hmeta hk]
    exact (install_of_isDir links st _ hd hp).1
  carry_keeps st s p q n hn := uploadFile_inPlace hn
  remove_spec st s p hp hplain := by
    rcases applyItem_deleteRemote_rem links dstSnap st hplain with ⟨e, hno | hno | hno⟩ | e
    · exact absurd hno hp
    · exact .inr ⟨e, .inl hno⟩
    · exact .inr ⟨e, .inr (.inl hno)⟩
    · exact .inl e
  remove_ok st s p m hm hplain hd := by
    simp only [applyItem, hm, removeRemote_spec hplain]
    split
    · rfl
    · rw [if_neg]
      rintro ⟨hdir, hk⟩
      obtain ⟨n, hn, hdn⟩ := Tree.isDir_iff.1 hdir
      simp [(hd n hn).1 hdn] at hk
  remove_stays _ _ _ _ := nofun
  stays_link _ _ := nofun

/-- `pull` with the daemon: `remove_local` leaves a link that leads nowhere. -/
theorem oneWay_pull : OneWay sha srcSnap dstSnap (applyItem links srcSnap) Sides.rem Sides.loc .get .deleteLocal
    links.Dangling where
  carry_path _ := rfl
  remove_path _ := rfl
  carry_ne _ := nofun
  carry_src st s p := applyItem_get_rem links srcSnap st
  remove_src _ _ _ := rfl
  carry_spec st s p m n hm hk hn hmeta hplain := by
    simp only [applyItem, hm, downloadFile_of_node hn hmeta hk]
    exact ⟨_, downloaded_bare st n, install_spec hplain⟩
  carry_ok st s p m n hm hk hn hmeta hd hp := by
    simp only [applyItem, hm, downloadFile_of_node hn hmeta hk]
    exact (install_of_isDir links st _ hd hp).1
  carry_keeps st s p q n hn := by
    cases hm : srcSnap[p]? with
    | none =>
      simp only [applyItem, hm]
      exact ⟨n, hn, .inl rfl⟩
    | some m =>
      simp only [applyItem, hm]
      exact downloadFile_inPlace hn
  remove_spec st s p _ hplain := by
    simp only [applyItem, removeLocal_spec hplain]
    split
    · rename_i h
      exact .inr ⟨rfl, h.imp_right .inr⟩
    · exact .inl rfl
  remove_ok _ _ _ _ _ _ _ := rfl
  remove_stays st s p hplain hs := by
    simp only [applyItem, removeLocal_spec hplain]
    exact if_pos (.inr hs)
  stays_link _ _ hs := hs.1

theorem KindsAgree.symm {a b : Tree} (h : KindsAgree ignore a b) : KindsAgree ignore b a :=
  fun p hp hb ha => (h p hp ha hb).symm

theorem NoCollision.symm {a b : Tree} (h : NoCollision sha a b) : NoCollision sha b a :=
  fun p d m mt d' m' mt' hb ha e => (h p d' m' mt' d m mt ha hb e.symm).symm

/-- The local tree of `pull` when the items before some point of the plan are done. -/
def pullAt (links : Links) (sha : List UInt8 → String) (ignore : List String) (env : Env) (s : Sides)
    (pre : List PlanItem) : Tree :=
  (runItems (applyItem links (scan sha ignore s.rem)) env
    ⟨(ensureDirs links (fun d => (env.stamp d).dirMode) s.loc (scan sha ignore s.rem).dirs).1, s.rem⟩ pre).1.loc

/-- Each link `pull` has to delete leads somewhere when its turn comes, or is inside a
directory that `pull` deletes. -/
def LinksLead (links : Links) (sha : List UInt8 → String) (ignore : List String) (env : Env) (s : Sides) : Prop :=
  ∀ pre p post, Command.pull.planned sha ignore true s = pre ++ .deleteLocal p :: post →
    (pullAt links sha ignore env s pre).isLink p = true →
    links.leadsSomewhere (pullAt links sha ignore env s pre) p = true ∨
    ∃ d, below d p = true ∧ .deleteLocal d ∈ Command.pull.planned sha ignore true s

theorem linksLead_iff :
    LinksLead links sha ignore env s ↔
      NoneStays sha ignore (applyItem links (scan sha ignore s.rem)) Sides.loc .get .deleteLocal links.Dangling env
        ⟨(ensureDirs links (fun d => (env.stamp d).dirMode) s.loc (scan sha ignore s.rem).dirs).1, s.rem⟩ s.rem s.loc := by
  have hdel : ∀ d, .deleteLocal d ∈ Command.pull.planned sha ignore true s ↔
      Removed true (scan sha ignore s.rem) (scan sha ignore s.loc) d := by
    intro d
    refine mem_oneWay.trans ?_
    simp
  constructor
  · rintro h pre p post e ⟨hlink, hlost⟩
    rcases h pre p post e hlink with hl | ⟨d, hd, hdel'⟩
    · rw [pullAt, hlost] at hl
      cases hl
    · exact ⟨d, hd, (hdel d).1 hdel'⟩
  · intro h pre p post e hlink
    by_cases hl : links.leadsSomewhere (pullAt links sha ignore env s pre) p = true
    · exact .inl hl
    · obtain ⟨d, hd, hr⟩ := h pre p post e ⟨hlink, Bool.eq_false_of_not_eq_true hl⟩
      exact .inr ⟨d, hd, (hdel d).2 hr⟩

theorem run_push (links : Links) (sha : List UInt8 → String) (ignore : List String) (env : Env) (s : Sides) :
    let made := ensureDirs links (fun d => (env.stamp d).dirMode) s.rem (scan sha ignore s.loc).dirs
    Command.push.run links sha ignore env true s =
      if made.2 then runItems (applyItem links (scan sha ignore s.rem)) env ⟨s.loc, made.1⟩
        (mirrorPlan sha ignore .put .deleteRemote s.loc s.rem) else (⟨s.loc, made.1⟩, false) := by
  intro made
  simp only [Command.run, Command.carryOut, runItems_pushItem pushItems_put_or_delete, Command.plan]
  rcases hmade : ensureDirs links (fun d => (env.stamp d).dirMode) s.rem (scan sha ignore s.loc).dirs with ⟨r, ok⟩
  simp only [made, hmade]
  cases ok <;> rfl

theorem run_pull (links : Links) (sha : List UInt8 → String) (ignore : List String) (env : Env) (s : Sides) :
    let made := ensureDirs links (fun d => (env.stamp d).dirMode) s.loc (scan sha ignore s.rem).dirs
    Command.pull.run links sha ignore env true s =
      if made.2 then runItems (applyItem links (scan sha ignore s.rem)) env ⟨made.1, s.rem⟩
        (mirrorPlan sha ignore .get .deleteLocal s.rem s.loc) else (⟨made.1, s.rem⟩, false) := by
  intro made
  simp only [Command.run, Command.carryOut, Command.plan]
  rcases hmade : ensureDirs links (fun d => (env.stamp d).dirMode) s.loc (scan sha ignore s.rem).dirs with ⟨r, ok⟩
  simp only [made, hmade]
  cases ok <;> rfl

/-- `push` and `pull` with deletions, when nothing goes wrong: `push` ends with the
remote like the local tree exactly if no path is a directory on one side and
something else on the other; for `pull` the links it deletes must lead somewhere,
too. -/
theorem mirrors_iff (links : Links) (sha : List UInt8 → String) (ignore : List String) (env : Env) (s : Sides)
    (hcalm : ∀ p, env.fault p = .none) (hloc : s.loc.Ordinary) (hrem : s.rem.Ordinary)
    (hsha : NoCollision sha s.loc s.rem) :
    let push := Command.push.run links sha ignore env true s
    let pull := Command.pull.run links sha ignore env true s
    (push.2 = true ∧ Mirrored ignore s.loc push.1.rem ↔ KindsAgree ignore s.loc s.rem) ∧
    (pull.2 = true ∧ Mirrored ignore s.rem pull.1.loc ↔
      KindsAgree ignore s.loc s.rem ∧ LinksLead links sha ignore env s) := by
  intro push pull
  refine ⟨?_, ?_⟩
  · have hb : Begins links sha ignore (fun d => (env.stamp d).dirMode) s.loc s.rem Sides.loc Sides.rem
        ⟨s.loc, (ensureDirs links (fun d => (env.stamp d).dirMode) s.rem (scan sha ignore s.loc).dirs).1⟩ := ⟨rfl, rfl⟩
    rw [oneWay_push.mirror_iff hb hcalm hrem hloc hsha (run_push links sha ignore env s)]
    exact and_iff_left fun _ _ _ _ hs => hs.elim
  · have hb : Begins links sha ignore (fun d => (env.stamp d).dirMode) s.rem s.loc Sides.rem Sides.loc
        ⟨(ensureDirs links (fun d => (env.stamp d).dirMode) s.loc (scan sha ignore s.rem).dirs).1, s.rem⟩ := ⟨rfl, rfl⟩
    rw [oneWay_pull.mirror_iff hb hcalm hloc hrem hsha.symm (run_pull links sha ignore env s), linksLead_iff]
    exact and_congr_left fun _ => ⟨KindsAgree.symm, KindsAgree.symm⟩

end Daemon

/-! ## Two trees with nothing in common -/

theorem ordinary_of_paths {t : Tree} (h : ∀ p ∈ t.paths, t.node p ≠ some .other) : t.Ordinary :=
  fun p hp => h p (Tree.mem_paths.2 (by simp [hp])) hp

/-- With no path on both sides there is nothing to disagree about. -/
theorem apart_of_paths {sha : List UInt8 → String} {ignore : List String} {a b : Tree}
    (h : ∀ p ∈ a.paths, b.node p = none) : NoCollision sha a b ∧ KindsAgree ignore a b := by
  refine ⟨?_, ?_⟩
  · intro p data mode mtime data' mode' mtime' ha hb
    rw [h p (Tree.mem_paths.2 (by simp [ha]))] at hb
    cases hb
  · intro p _ ha hb
    exact absurd (h p (Tree.mem_paths.2 ha)) hb

theorem mirrors_docs :
    (Command.push.run brokenLinks (fun _ => "") [] calmEnv true ⟨docs, note⟩).2 = true ∧
    Mirrored [] docs (Command.push.run brokenLinks (fun _ => "") [] calmEnv true ⟨docs, note⟩).1.rem :=
  have hapart := apart_of_paths (by decide)
  (mirrors_iff brokenLinks (fun _ => "") [] calmEnv ⟨docs, note⟩ (fun _ => rfl) (ordinary_of_paths (by decide))
    (ordinary_of_paths (by decide)) hapart.1).1.2 hapart.2

/-! ## A file against a directory, and a link that leads nowhere -/

def fileOverDir : Sides := ⟨.build [("a", .file [1] 420 5)], .build [("a", .dir 493)]⟩

def lostLink : Sides := ⟨.build [("l", .symlink "gone" 511 5)], .empty⟩

/-- `push` fails to put a file where the remote has a directory, and `pull` completes
and leaves a link that leads nowhere. -/
theorem mirror_fails :
    (Command.push.run brokenLinks (fun _ => "") [] calmEnv true fileOverDir).2 = false ∧
    (Command.pull.run brokenLinks (fun _ => "") [] calmEnv true lostLink).2 = true ∧
    ¬ Mirrored [] lostLink.rem (Command.pull.run brokenLinks (fun _ => "") [] calmEnv true lostLink).1.loc := by
  refine ⟨by decide, by decide, ?_⟩
  intro h
  have hl := h "l" (by decide)
  revert hl
  decide

end Mobfs
