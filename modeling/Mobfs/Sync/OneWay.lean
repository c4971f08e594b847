import Mobfs.Sync.Converge
/-!
# Making one side like the other

`push` and `pull` carry entries one way and then delete what the source lacks.
`OneWay` is what the items of such a plan do to the side they change, whichever
backend and direction it is; what a whole plan leaves there is proved from it
once (`run_inv`, `run_carried`, `run_removed`, `run_ok`).

Two facts hold even where items go through links: an entry that is there keeps
its place, as a directory or as something else, until a removal takes it
(`run_place`), and nothing is carried onto a directory (`run_blocked`).
-/

namespace Mobfs

open Std Lib

/-- Files and links are carried over. -/
def Node.carried : Node → Bool
  | .file _ _ _ => true
  | .symlink _ _ _ => true
  | _ => false

theorem Node.isDir_of_bare {n n' : Node} (h : n'.bare = n.bare) : n'.isDir = n.isDir := by
  cases n <;> cases n' <;> cases h <;> rfl

theorem Node.isLink_of_bare {n n' : Node} (h : n'.bare = n.bare) : n'.isLink = n.isLink := by
  cases n <;> cases n' <;> cases h <;> rfl

theorem Node.not_dir_of_carried {n : Node} (h : n.carried = true) : n.isDir = false := by
  cases n <;> first | rfl | cases h

theorem Node.bare_of_isDir {n n' : Node} (h : n.isDir = true) (h' : n'.isDir = true) : n'.bare = n.bare := by
  cases n with
  | dir mode =>
    cases n' with
    | dir mode' => rfl
    | _ => cases h'
  | _ => cases h

theorem entryMeta_carried {sha : List UInt8 → String} {n : Node} {m : EntryMeta} (h : entryMeta sha n = some m) :
    n.carried = m.kind.carried := by
  cases n <;> cases h <;> rfl

theorem entryMeta_isLink {sha : List UInt8 → String} {n : Node} {m : EntryMeta} (h : entryMeta sha n = some m) :
    n.isLink = decide (m.kind = .symlink) := by
  cases n <;> cases h <;> rfl

theorem entryMeta_isDir {sha : List UInt8 → String} {n : Node} {m : EntryMeta} (h : entryMeta sha n = some m) :
    n.isDir = decide (m.kind = .dir) := by
  cases n <;> cases h <;> rfl

theorem Tree.not_isDir_of_node {t : Tree} {p : String} {n : Node} (h : t.node p = some n) (hn : n.isDir = false) :
    t.isDir p = false := by
  rw [isDir, h]
  exact hn

theorem Tree.isLink_iff {t : Tree} {p : String} : t.isLink p = true ↔ ∃ n, t.node p = some n ∧ n.isLink = true := by
  rw [isLink, Option.any_eq_true]

theorem Tree.node_ne_none_of_isDir {t : Tree} {p : String} (h : t.isDir p = true) : t.node p ≠ none := by
  intro hn
  rw [isDir, hn] at h
  cases h

/-! ## Putting an entry in its place -/

theorem uploaded_bare (stamp : Stamp) (n : Node) : (uploaded stamp n).bare = n.bare := by
  cases n <;> rfl

theorem downloaded_bare (stamp : Stamp) (n : Node) : (downloaded stamp n).bare = n.bare := by
  cases n <;> rfl

/-- The entry at a path is still there, unless it is no directory and another that
is none was carried over it. -/
def InPlace (n : Node) (o : Option Node) : Prop := ∃ n', o = some n' ∧ (n' = n ∨ n.isDir = false ∧ n'.carried = true)

theorem InPlace.eq_of_isDir {n : Node} {o : Option Node} (hp : InPlace n o) (hd : n.isDir = true) : o = some n := by
  obtain ⟨n', rfl, rfl | ⟨hn, -⟩⟩ := hp
  · rfl
  · rw [hd] at hn
    cases hn

theorem InPlace.any_isDir {n : Node} {o : Option Node} (hp : InPlace n o) : o.any Node.isDir = n.isDir := by
  obtain ⟨n', rfl, rfl | ⟨hn, hc⟩⟩ := hp
  · rfl
  · rw [hn]
    exact Node.not_dir_of_carried hc

theorem AddsDirs.node_eq {t t' : Tree} {ds : String → Prop} (h : AddsDirs t t' ds) {q : String} {n : Node}
    (hn : t.node q = some n) : t'.node q = some n := by
  rcases h q with e | ⟨-, hnone, -⟩
  · exact e.trans hn
  · rw [hn] at hnone
    cases hnone

theorem place_inPlace {t t' : Tree} {p q : String} {n n' : Node} (hc : n'.carried = true) (h : t.place p n' = some t')
    (hn : t.node q = some n) : InPlace n (t'.node q) := by
  obtain ⟨-, hd, hnode⟩ := Tree.place_eq_some h
  rw [hnode]
  by_cases hq : q = p
  · subst hq
    rw [Tree.isDir, hn] at hd
    exact ⟨n', if_pos rfl, .inr ⟨hd, hc⟩⟩
  · exact ⟨n, by rw [if_neg hq, hn], .inl rfl⟩

theorem AddsDirs.inPlace {t t' : Tree} {ds : String → Prop} (h : AddsDirs t t' ds) {q : String} {n : Node}
    (hn : t.node q = some n) : InPlace n (t'.node q) :=
  ⟨n, h.node_eq hn, .inl rfl⟩

/-- Wherever the path leads, nothing but what is no directory is replaced. -/
theorem install_inPlace {links : Links} {stamp : Stamp} {t : Tree} {p q : String} {n n' : Node} (hc : n'.carried = true)
    (hn : t.node q = some n) : InPlace n ((install links stamp t p n').1.node q) := by
  unfold install
  cases h1 : createDirs links stamp.dirMode t (ancestors p) with
  | none => exact ⟨n, hn, .inl rfl⟩
  | some t1 =>
    have hn1 : t1.node q = some n := (createDirs_adds h1).node_eq hn
    cases h2 : (links.locate t1 p).bind fun q => t1.place q n' with
    | none =>
      simp only [h2]
      exact ⟨n, hn1, .inl rfl⟩
    | some t2 =>
      obtain ⟨r, -, hr⟩ := Option.bind_eq_some_iff.1 h2
      simp only [h2]
      exact place_inPlace hc hr hn1

/-! ## The directories, made first -/

section Directories
variable {links : Links} {t t' : Tree} {d : String} {ds : List String}

/-- The path itself or a directory it lies in. -/
def Upto (d e : String) : Prop := e = d ∨ below e d = true

theorem mem_upto {e : String} : e ∈ ancestors d ++ [d] ↔ Upto d e := by
  rw [List.mem_append, mem_ancestors_iff, List.mem_singleton, Or.comm]
  rfl

theorem Upto.below_of_below {a e : String} (he : Upto d e) (ha : below a e = true) : Upto d a := by
  rcases he with rfl | he
  · exact .inr ha
  · exact .inr (below_trans ha he)

theorem plain_of_no_link (hl : ∀ e, Upto d e → t.isLink e = false) {e : String} (he : Upto d e) : t.Plain e :=
  fun a ha => hl a (he.below_of_below ha)

theorem ensureDirs_spec (links : Links) (mode : String → Nat) (hl : ∀ d ∈ ds, ∀ e, Upto d e → t.isLink e = false) :
    (AddsDirs t (ensureDirs links mode t ds).1 fun q => ∃ d ∈ ds, Upto d q) ∧
    ((ensureDirs links mode t ds).2 = true → ∀ d ∈ ds, (ensureDirs links mode t ds).1.isDir d = true) := by
  induction ds generalizing t with
  | nil => exact ⟨AddsDirs.refl _ _, by simp⟩
  | cons d ds ih =>
    have hd := hl d List.mem_cons_self
    have hplain : ∀ e ∈ ancestors d ++ [d], t.Plain e := fun e he => plain_of_no_link hd (mem_upto.1 he)
    unfold ensureDirs
    cases h : createDirs links (mode d) t (ancestors d ++ [d]) with
    | none => exact ⟨AddsDirs.refl _ _, by simp⟩
    | some t1 =>
      obtain ⟨ha, -⟩ := createDirs_spec hplain h
      obtain ⟨hadds, hdirs⟩ := ih (t := t1) fun e he a hae => by rw [ha.isLink, hl e (List.mem_cons_of_mem _ he) a hae]
      refine ⟨(ha.mono ?_).trans (hadds.mono ?_), ?_⟩
      · intro q hq
        exact ⟨d, List.mem_cons_self, mem_upto.1 hq⟩
      · rintro q ⟨e, he, hq⟩
        exact ⟨e, List.mem_cons_of_mem _ he, hq⟩
      · intro hok e he
        rcases List.mem_cons.1 he with rfl | he
        · exact hadds.isDir (createDirs_isDir hplain (fun a ha => hd a (mem_upto.1 ha)) h e (mem_upto.2 (.inl rfl)))
        · exact hdirs hok e he

theorem ensureDirs_ok {mode : String → Nat} (h : ∀ d ∈ ds, ∀ e, Upto d e → t.node e = none ∨ t.isDir e = true) :
    (ensureDirs links mode t ds).2 = true := by
  induction ds generalizing t with
  | nil => rfl
  | cons d ds ih =>
    have hd := h d List.mem_cons_self
    obtain ⟨t1, h1⟩ := createDirs_ok links (mode d) (ancestors_ordered d)
      (fun e he a ha => .inr (mem_upto.2 ((mem_upto.1 he).below_of_below ha))) fun e he => hd e (mem_upto.1 he)
    simp only [ensureDirs, h1]
    refine ih fun e he a hae => ?_
    rcases createDirs_adds h1 a with e' | ⟨-, -, hdir⟩
    · rw [Tree.isDir, e']
      exact h e (List.mem_cons_of_mem _ he) a hae
    · exact .inr hdir

end Directories

/-! ## A plan that goes one way -/

/-- The paths carried over: files and links that the destination has not just so. -/
def Carried (src dst : Snapshot) (p : String) : Prop :=
  ∃ m, src[p]? = some m ∧ m.kind.carried = true ∧ dst[p]? ≠ some m

/-- The paths removed: those the source lacks. -/
def Removed (delete : Bool) (src dst : Snapshot) (p : String) : Prop :=
  delete = true ∧ dst[p]? ≠ none ∧ src[p]? = none

/-- `t` has lost what removals took, and nothing else of what `t0` has. -/
def Placed (delete : Bool) (src dst : Snapshot) (t0 t : Tree) : Prop :=
  ∀ q n, t0.node q = some n → InPlace n (t.node q) ∨
    t.node q = none ∧ ∃ d, Removed delete src dst d ∧ (q = d ∨ below d q = true)

/-- What is removed is found where its path says: its directories are ones or gone. -/
theorem Placed.plain {delete : Bool} {src dst : Snapshot} {t0 t : Tree} {p : String} (hp : Placed delete src dst t0 t)
    (h0 : t0.node p ≠ none) : t.Plain p := by
  intro d hd
  obtain ⟨n, hn, hdir⟩ := Tree.isDir_iff.1 (Tree.isDir_of_below hd h0)
  rcases hp d n hn with hi | ⟨hnone, -⟩
  · exact Tree.isLink_of_isDir (Tree.isDir_iff.2 ⟨n, hi.eq_of_isDir hdir, hdir⟩)
  · rw [Tree.isLink, hnone]
    rfl

/-- The snapshot tells the truth about the tree. -/
def Sound (sha : List UInt8 → String) (snap : Snapshot) (t : Tree) : Prop :=
  ∀ p m, snap[p]? = some m → ∃ n, t.node p = some n ∧ entryMeta sha n = some m

/-- What the items of a one-way plan do: `carry` brings a path over and leaves the
source alone, `remove` takes one away or leaves what `stays`. -/
structure OneWay (sha : List UInt8 → String) (srcSnap dstSnap : Snapshot)
    (item : Stamp → Sides → PlanItem → Sides × Bool) (src dst : Sides → Tree) (carry remove : String → PlanItem)
    (stays : Tree → String → Prop) : Prop where
  carry_path : ∀ p, (carry p).path = p
  remove_path : ∀ p, (remove p).path = p
  carry_ne : ∀ p, carry p ≠ remove p
  carry_src : ∀ st s p, src (item st s (carry p)).1 = src s
  remove_src : ∀ st s p, src (item st s (remove p)).1 = src s
  carry_spec : ∀ st s p m n, srcSnap[p]? = some m → m.kind.carried = true → (src s).node p = some n →
    entryMeta sha n = some m → (dst s).Plain p →
    ∃ n', n'.bare = n.bare ∧ Installs (dst s) (dst (item st s (carry p)).1) p n' (item st s (carry p)).2
  carry_ok : ∀ st s p m n, srcSnap[p]? = some m → m.kind.carried = true → (src s).node p = some n →
    entryMeta sha n = some m → (∀ d, below d p = true → (dst s).isDir d = true) → (dst s).isDir p = false →
    (item st s (carry p)).2 = true
  carry_keeps : ∀ st s p q n, (dst s).node q = some n → InPlace n ((dst (item st s (carry p)).1).node q)
  remove_spec : ∀ st s p, dstSnap[p]? ≠ none → (dst s).Plain p →
    dst (item st s (remove p)).1 = (dst s).drop p ∨
    dst (item st s (remove p)).1 = dst s ∧
      ((dst s).node p = none ∨ (item st s (remove p)).2 = false ∨ stays (dst s) p)
  remove_ok : ∀ st s p m, dstSnap[p]? = some m → (dst s).Plain p →
    (∀ n, (dst s).node p = some n → (n.isDir = true ↔ m.kind = .dir)) → (item st s (remove p)).2 = true
  remove_stays : ∀ st s p, (dst s).Plain p → stays (dst s) p → dst (item st s (remove p)).1 = dst s
  stays_link : ∀ t p, stays t p → t.isLink p = true

section Plan
variable {sha : List UInt8 → String} {srcSnap dstSnap : Snapshot} {item : Stamp → Sides → PlanItem → Sides × Bool}
  {src dst : Sides → Tree} {carry remove : String → PlanItem} {stays : Tree → String → Prop} {delete : Bool}
  {env : Env} {s0 s : Sides}

theorem mem_oneWay {i : PlanItem} :
    i ∈ carryItems carry remove srcSnap dstSnap delete ↔
      (∃ p, i = carry p ∧ Carried srcSnap dstSnap p) ∨ ∃ p, i = remove p ∧ Removed delete srcSnap dstSnap p := by
  rw [mem_carryItems]
  constructor
  · rintro (⟨p, m, rfl, h⟩ | ⟨p, rfl, h⟩)
    · exact .inl ⟨p, rfl, m, h⟩
    · exact .inr ⟨p, rfl, h⟩
  · rintro (⟨p, rfl, m, h⟩ | ⟨p, rfl, h⟩)
    · exact .inl ⟨p, m, rfl, h⟩
    · exact .inr ⟨p, rfl, h⟩

/-- First everything is carried over, then everything is removed. -/
theorem oneWay_phases (carry remove : String → PlanItem) (srcSnap dstSnap : Snapshot) (delete : Bool) :
    ∃ carries removes, carryItems carry remove srcSnap dstSnap delete = carries ++ removes ∧
    (∀ i ∈ carries, ∃ p, i = carry p ∧ Carried srcSnap dstSnap p) ∧
    ∀ i ∈ removes, ∃ p, i = remove p ∧ Removed delete srcSnap dstSnap p := by
  refine ⟨_, _, rfl, ?_, ?_⟩
  · intro i hi
    simp only [List.mem_filterMap, Option.ite_none_right_eq_some, Bool.and_eq_true, bne_iff_ne,
      Option.some.injEq] at hi
    obtain ⟨⟨p, m⟩, hm, ⟨hk, hd⟩, rfl⟩ := hi
    exact ⟨p, rfl, m, ExtTreeMap.mem_toList_iff_getElem?_eq_some.1 hm, hk, hd⟩
  · intro i hi
    cases delete with
    | false => cases hi
    | true =>
      simp only [if_true, List.mem_filterMap, List.mem_reverse, ExtTreeMap.mem_keys,
        Option.ite_none_left_eq_some, Option.some.injEq] at hi
      obtain ⟨p, hp, hs, rfl⟩ := hi
      refine ⟨p, rfl, rfl, ?_, ?_⟩
      · exact Option.isSome_iff_ne_none.1 (ExtTreeMap.mem_iff_isSome_getElem?.1 hp)
      · exact ExtTreeMap.getElem?_eq_none fun hm => hs (ExtTreeMap.contains_iff_mem.2 hm)

variable (h : OneWay sha srcSnap dstSnap item src dst carry remove stays)
include h

theorem OneWay.remove_inj {p q : String} (e : remove p = remove q) : p = q := by
  rw [← h.remove_path p, e, h.remove_path]

theorem OneWay.carry_ne_remove (p q : String) : carry p ≠ remove q := by
  intro e
  have hpq : p = q := by rw [← h.carry_path p, e, h.remove_path]
  exact h.carry_ne p (hpq ▸ e)

/-! ## What stays in its place -/

theorem OneWay.carry_placed {t0 : Tree} {p : String} {st : Stamp} (hp : Placed false srcSnap dstSnap t0 (dst s)) :
    Placed false srcSnap dstSnap t0 (dst (item st s (carry p)).1) := by
  intro q n hn
  rcases hp q n hn with ⟨n1, hn1, h1⟩ | ⟨-, d, ⟨hd, -⟩, -⟩
  · obtain ⟨n2, hn2, h2⟩ := h.carry_keeps st s p q n1 hn1
    refine .inl ⟨n2, hn2, ?_⟩
    rcases h2 with rfl | ⟨hd, hc⟩
    · exact h1
    · rcases h1 with rfl | ⟨hd', -⟩
      · exact .inr ⟨hd, hc⟩
      · exact .inr ⟨hd', hc⟩
  · cases hd

theorem OneWay.remove_placed {t0 : Tree} {p : String} {st : Stamp} (hr : Removed delete srcSnap dstSnap p)
    (hsound : t0.node p ≠ none) (hp : Placed delete srcSnap dstSnap t0 (dst s)) :
    Placed delete srcSnap dstSnap t0 (dst (item st s (remove p)).1) := by
  intro q n hn
  rcases h.remove_spec st s p hr.2.1 (hp.plain hsound) with e | ⟨e, -⟩
  · rw [e, Tree.node_drop]
    by_cases hq : q = p ∨ below p q = true
    · rw [if_pos hq]
      exact .inr ⟨rfl, p, hr, hq⟩
    · rw [if_neg hq]
      exact hp q n hn
  · rw [e]
    exact hp q n hn

omit h in
theorem Placed.refl (t : Tree) : Placed delete srcSnap dstSnap t t := fun _ n hn => .inl ⟨n, hn, .inl rfl⟩

section Phases
variable {carries removes : List PlanItem} (hsound : ∀ p, dstSnap[p]? ≠ none → (dst s0).node p ≠ none)
  (hc : ∀ i ∈ carries, ∃ p, i = carry p ∧ Carried srcSnap dstSnap p)
  (hr : ∀ i ∈ removes, ∃ p, i = remove p ∧ Removed delete srcSnap dstSnap p)

include hc in
theorem OneWay.carries_placed :
    Placed false srcSnap dstSnap (dst s0) (dst (runItems item env s0 carries).1) := by
  refine runItems_inv (fun s => Placed false srcSnap dstSnap (dst s0) (dst s)) ?_ (Placed.refl _)
  intro i hi s hs
  obtain ⟨p, rfl, -⟩ := hc i hi
  exact h.carry_placed hs

include hsound hr in
theorem OneWay.removes_placed (hs : Placed delete srcSnap dstSnap (dst s0) (dst s)) :
    Placed delete srcSnap dstSnap (dst s0) (dst (runItems item env s removes).1) := by
  refine runItems_inv (fun s => Placed delete srcSnap dstSnap (dst s0) (dst s)) ?_ hs
  intro i hi s hs
  obtain ⟨p, rfl, hp⟩ := hr i hi
  exact h.remove_placed hp (hsound p hp.2.1) hs

include hsound hc hr in
theorem OneWay.phases_placed :
    Placed delete srcSnap dstSnap (dst s0) (dst (runItems item env s0 (carries ++ removes)).1) := by
  have hfirst : Placed delete srcSnap dstSnap (dst s0) (dst (runItems item env s0 carries).1) := by
    intro q n hn
    rcases h.carries_placed hc q n hn with hi | ⟨-, d, ⟨hd, -⟩, -⟩
    · exact .inl hi
    · cases hd
  rw [runItems_append]
  split
  · exact h.removes_placed hsound hr hfirst
  · exact hfirst

end Phases

variable (hsound : ∀ p, dstSnap[p]? ≠ none → (dst s0).node p ≠ none)
include hsound

/-- An entry of the destination keeps its place until a removal takes it, whatever
links there are and whatever goes wrong. -/
theorem OneWay.run_place :
    Placed delete srcSnap dstSnap (dst s0) (dst (runItems item env s0 (carryItems carry remove srcSnap dstSnap delete)).1) := by
  obtain ⟨carries, removes, e, hc, hr⟩ := oneWay_phases carry remove srcSnap dstSnap delete
  rw [e]
  exact h.phases_placed hsound hc hr

/-- In a plan that is done, what is to be removed is gone, or stayed when its turn
came and is there as it was then. -/
theorem OneWay.run_removed {d : String} (hd : Removed delete srcSnap dstSnap d)
    (hdone : (runItems item env s0 (carryItems carry remove srcSnap dstSnap delete)).2 = true) :
    (dst (runItems item env s0 (carryItems carry remove srcSnap dstSnap delete)).1).node d = none ∨
    ∃ pre post, carryItems carry remove srcSnap dstSnap delete = pre ++ remove d :: post ∧
      stays (dst (runItems item env s0 pre).1) d ∧
      (dst (runItems item env s0 (carryItems carry remove srcSnap dstSnap delete)).1).node d =
        (dst (runItems item env s0 pre).1).node d := by
  obtain ⟨carries, removes, e, hc, hr⟩ := oneWay_phases carry remove srcSnap dstSnap delete
  have hmem : remove d ∈ removes := by
    have hplan : remove d ∈ carries ++ removes := e ▸ mem_oneWay.2 (.inr ⟨d, rfl, hd⟩)
    rcases List.mem_append.1 hplan with hi | hi
    · obtain ⟨p, hp, -⟩ := hc _ hi
      exact absurd hp.symm (h.carry_ne_remove p d)
    · exact hi
  obtain ⟨before, post, rfl⟩ := List.append_of_mem hmem
  rw [← List.append_assoc] at e
  rw [e] at hdone ⊢
  obtain ⟨hok, hrun⟩ := runItems_split hdone
  -- Up to its turn the directories of `d` are as they were or gone; what follows only takes away.
  have hpre : Placed delete srcSnap dstSnap (dst s0) (dst (runItems item env s0 (carries ++ before)).1) :=
    h.phases_placed hsound hc fun i hi => hr i (List.mem_append_left _ hi)
  have hplain := hpre.plain (hsound d hd.2.1)
  have hpost : ∀ t s, Placed delete srcSnap dstSnap (dst s0) (dst s) → (dst s).node d = none ∨ (dst s).node d = t →
      (dst (runItems item env s post).1).node d = none ∨ (dst (runItems item env s post).1).node d = t := by
    intro t s hp hn
    refine (runItems_inv (fun s => Placed delete srcSnap dstSnap (dst s0) (dst s) ∧
      ((dst s).node d = none ∨ (dst s).node d = t)) ?_ ⟨hp, hn⟩).2
    rintro i hi s ⟨hp, hn⟩
    obtain ⟨q, rfl, hq⟩ := hr i (List.mem_append_right _ (List.mem_cons_of_mem _ hi))
    refine ⟨h.remove_placed hq (hsound q hq.2.1) hp, ?_⟩
    rcases h.remove_spec (env.stamp (remove q).path) s q hq.2.1 (hp.plain (hsound q hq.2.1)) with e | ⟨e, -⟩
    · rw [e, Tree.node_drop]
      split
      · exact .inl rfl
      · exact hn
    · rw [e]
      exact hn
  have hthen : Placed delete srcSnap dstSnap (dst s0)
      (dst (item (env.stamp (remove d).path) (runItems item env s0 (carries ++ before)).1 (remove d)).1) :=
    h.remove_placed hd (hsound d hd.2.1) hpre
  rw [hrun]
  rcases h.remove_spec (env.stamp (remove d).path) (runItems item env s0 (carries ++ before)).1 d hd.2.1 hplain with
    hgo | ⟨hsame, hno | hno | hstay⟩
  · have := hpost none _ hthen (.inl (by rw [hgo, Tree.node_drop, if_pos (.inl rfl)]))
    exact .inl (by simpa using this)
  · have := hpost none _ hthen (.inl (by rw [hsame, hno]))
    exact .inl (by simpa using this)
  · rw [hok] at hno
    cases hno
  · rcases hpost _ _ hthen (.inr (by rw [hsame])) with hn | hn
    · exact .inl hn
    · exact .inr ⟨_, post, rfl, hstay, hn⟩

omit hsound

/-! ## What is carried -/

theorem OneWay.carry_of_sound {p : String} (hsrc : Sound sha srcSnap (src s0)) (hp : Carried srcSnap dstSnap p)
    (hs : src s = src s0) (hplain : (dst s).Plain p) (st : Stamp) :
    ∃ n n', (src s0).node p = some n ∧ n.carried = true ∧ n'.bare = n.bare ∧
      Installs (dst s) (dst (item st s (carry p)).1) p n' (item st s (carry p)).2 := by
  obtain ⟨m, hm, hk, -⟩ := hp
  obtain ⟨n, hn, hmeta⟩ := hsrc p m hm
  obtain ⟨n', hb, hi⟩ := h.carry_spec st s p m n hm hk (hs ▸ hn) hmeta hplain
  exact ⟨n, n', hn, by rw [entryMeta_carried hmeta, hk], hb, hi⟩

theorem OneWay.run_src : src (runItems item env s0 (carryItems carry remove srcSnap dstSnap delete)).1 = src s0 := by
  refine runItems_inv (fun s => src s = src s0) ?_ rfl
  intro i hi s hs
  rcases mem_oneWay.1 hi with ⟨p, rfl, -⟩ | ⟨p, rfl, -⟩
  · rw [h.carry_src, hs]
  · rw [h.remove_src, hs]

/-- Nothing is carried onto a directory: a plan that would do so fails. -/
theorem OneWay.run_blocked (hsrc : Sound sha srcSnap (src s0)) {p : String} (hp : Carried srcSnap dstSnap p)
    (hdir : (dst s0).isDir p = true) :
    (runItems item env s0 (carryItems carry remove srcSnap dstSnap delete)).2 = false := by
  obtain ⟨carries, removes, e, hc, hr⟩ := oneWay_phases carry remove srcSnap dstSnap delete
  have hmem : carry p ∈ carries := by
    have hplan : carry p ∈ carries ++ removes := e ▸ mem_oneWay.2 (.inl ⟨p, rfl, hp⟩)
    rcases List.mem_append.1 hplan with hi | hi
    · exact hi
    · obtain ⟨d, hd, -⟩ := hr _ hi
      exact absurd hd (h.carry_ne_remove p d)
  by_contra hdone
  rw [Bool.not_eq_false, e, runItems_append] at hdone
  have hfirst : (runItems item env s0 carries).2 = true := by
    split at hdone
    · assumption
    · exact hdone
  -- A directory is one still when its turn comes.
  have hkeep : ∀ q st s, (dst s).isDir p = true → (dst (item st s (carry q)).1).isDir p = true := by
    intro q st s hs
    obtain ⟨n, hn, hd⟩ := Tree.isDir_iff.1 hs
    obtain ⟨n', hn', rfl | ⟨hd', -⟩⟩ := h.carry_keeps st s q p n hn
    · exact Tree.isDir_iff.2 ⟨n', hn', hd⟩
    · rw [hd] at hd'
      cases hd'
  refine runItems_done (fun s => src s = src s0 ∧ (dst s).isDir p = true) (fun i _ => i = carry p → False) ?_ ?_ ?_
    ⟨rfl, hdir⟩ hfirst (carry p) hmem rfl
  · rintro i hi s ⟨hs, hd⟩
    obtain ⟨q, rfl, -⟩ := hc i hi
    exact ⟨by rw [h.carry_src, hs], hkeep q _ s hd⟩
  · rintro i hi s ⟨hs, hd⟩ hok rfl
    obtain ⟨n, n', -, hcar, hb, hins⟩ :=
      h.carry_of_sound hsrc hp hs (Tree.plain_of_node (Tree.node_ne_none_of_isDir hd)) (env.stamp (carry p).path)
    have hnd := Tree.not_isDir_of_node (hins.done hok) (by rw [Node.isDir_of_bare hb, Node.not_dir_of_carried hcar])
    rw [hkeep p _ s hd] at hnd
    cases hnd
  · intro i hi j s hs hj
    exact hj

end Plan

/-! ## What a plan leaves -/

/-- The destination on the way from `t0`, with the source as it is: paths the plan
does not name keep their entries, and those it carries have the old one or the
source's. -/
structure Along (delete : Bool) (srcSnap dstSnap : Snapshot) (source t0 t : Tree) : Prop where
  side : SideInv t0 (Carried srcSnap dstSnap) (Removed delete srcSnap dstSnap) t
  frame : ∀ q, t0.node q ≠ none → (∀ d, Removed delete srcSnap dstSnap d → ¬ (q = d ∨ below d q = true)) →
    t.node q = t0.node q ∨
    (Carried srcSnap dstSnap q ∧ ∃ n n', source.node q = some n ∧ t.node q = some n' ∧ n'.bare = n.bare)
  only : ∀ q, t.node q ≠ none → t0.node q ≠ none ∨ ∃ p, Carried srcSnap dstSnap p ∧ (q = p ∨ below q p = true)
  dirs : ∀ q, t.isDir q = true → t0.isDir q = true ∨ ∃ p, Carried srcSnap dstSnap p ∧ below q p = true

section Along
variable {srcSnap dstSnap : Snapshot} {delete : Bool} {source t0 t t' : Tree}

theorem Along.refl : Along delete srcSnap dstSnap source t0 t0 :=
  ⟨SideInv.refl, fun _ _ _ => .inl rfl, fun _ h => .inl h, fun _ h => .inl h⟩

theorem Along.installs {p : String} {n n' : Node} {ok : Bool}
    (hf : Fits t0 (Carried srcSnap dstSnap) (Removed delete srcSnap dstSnap))
    (h : Along delete srcSnap dstSnap source t0 t) (hp : Carried srcSnap dstSnap p) (hn : source.node p = some n)
    (hc : n.carried = true) (hb : n'.bare = n.bare) (hi : Installs t t' p n' ok) :
    Along delete srcSnap dstSnap source t0 t' := by
  refine ⟨h.side.installs hf hp hi, ?_, ?_, ?_⟩
  · intro q hq hd
    rcases hi.node q with e | ⟨-, hnone, -⟩ | ⟨rfl, hok, -⟩
    · rw [e]
      exact h.frame q hq hd
    · -- What was there before the plan was not missing now.
      rcases h.frame q hq hd with e | ⟨-, n1, n2, -, hn2, -⟩
      · exact absurd (e ▸ hnone) hq
      · rw [hnone] at hn2
        cases hn2
    · exact .inr ⟨hp, n, n', hn, hi.done hok, hb⟩
  · intro q hq
    rcases hi.node q with e | ⟨hqp, -⟩ | ⟨rfl, -⟩
    · exact h.only q (e ▸ hq)
    · exact .inr ⟨p, hp, .inr hqp⟩
    · exact .inr ⟨q, hp, .inl rfl⟩
  · intro q hq
    rcases hi.node q with e | ⟨hqp, -⟩ | ⟨rfl, hok, -⟩
    · exact h.dirs q (by simpa only [Tree.isDir, e] using hq)
    · exact .inr ⟨p, hp, hqp⟩
    · rw [Tree.not_isDir_of_node (hi.done hok) (by rw [Node.isDir_of_bare hb, Node.not_dir_of_carried hc])] at hq
      cases hq

theorem Along.drop {p : String} (h : Along delete srcSnap dstSnap source t0 t) (hp : Removed delete srcSnap dstSnap p) :
    Along delete srcSnap dstSnap source t0 (t.drop p) := by
  refine ⟨h.side.drop hp, ?_, ?_, ?_⟩
  · intro q hq hd
    rw [Tree.node_drop, if_neg (hd p hp)]
    exact h.frame q hq hd
  · intro q hq
    rw [Tree.node_drop] at hq
    split at hq
    · exact absurd rfl hq
    · exact h.only q hq
  · intro q hq
    rw [Tree.isDir, Tree.node_drop] at hq
    split at hq
    · cases hq
    · exact h.dirs q hq

/-- The directories a carried path lies in are not touched. -/
theorem Along.parent_isDir {p d : String} (hf : Fits t0 (Carried srcSnap dstSnap) (Removed delete srcSnap dstSnap))
    (h : Along delete srcSnap dstSnap source t0 t) (hp : Carried srcSnap dstSnap p) (hd : below d p = true)
    (hdir : t0.isDir d = true) : t.isDir d = true := by
  have hkept : ∀ r, Removed delete srcSnap dstSnap r → ¬ (d = r ∨ below r d = true) := by
    rintro r hr (rfl | hrd)
    · exact hf.kept p d hp (.inr hd) hr
    · exact hf.kept p r hp (.inr (below_trans hrd hd)) hr
  rcases h.frame d (Tree.node_ne_none_of_isDir hdir) hkept with e | ⟨hc, -⟩
  · rwa [Tree.isDir, e]
  · exact absurd hc (hf.apart p d hp hd)

end Along

/-- What is true of the two trees while a plan runs from `s0` on. -/
structure Midway (src dst : Sides → Tree) (delete : Bool) (srcSnap dstSnap : Snapshot) (s0 s : Sides) : Prop where
  source : src s = src s0
  along : Along delete srcSnap dstSnap (src s0) (dst s0) (dst s)

section Run
variable {sha : List UInt8 → String} {srcSnap dstSnap : Snapshot} {item : Stamp → Sides → PlanItem → Sides × Bool}
  {src dst : Sides → Tree} {carry remove : String → PlanItem} {stays : Tree → String → Prop} {delete : Bool}
  {env : Env} {s0 s : Sides} (h : OneWay sha srcSnap dstSnap item src dst carry remove stays)
  (hsrc : Sound sha srcSnap (src s0)) (hf : Fits (dst s0) (Carried srcSnap dstSnap) (Removed delete srcSnap dstSnap))
include h hsrc hf

theorem OneWay.carry_along {p : String} {st : Stamp} (hp : Carried srcSnap dstSnap p) (hs : src s = src s0)
    (ha : Along delete srcSnap dstSnap (src s0) (dst s0) (dst s)) :
    Along delete srcSnap dstSnap (src s0) (dst s0) (dst (item st s (carry p)).1) := by
  obtain ⟨n, n', hn, hc, hb, hi⟩ := h.carry_of_sound hsrc hp hs (ha.side.plain_carried hf hp) st
  exact ha.installs hf hp hn hc hb hi

omit hsrc in
theorem OneWay.remove_along {p : String} {st : Stamp} (hp : Removed delete srcSnap dstSnap p)
    (ha : Along delete srcSnap dstSnap (src s0) (dst s0) (dst s)) :
    Along delete srcSnap dstSnap (src s0) (dst s0) (dst (item st s (remove p)).1) := by
  rcases h.remove_spec st s p hp.2.1 (ha.side.plain_deleted hf hp) with e | ⟨e, -⟩
  · rw [e]
    exact ha.drop hp
  · rw [e]
    exact ha

theorem OneWay.step_along : ∀ i ∈ carryItems carry remove srcSnap dstSnap delete, ∀ s,
    Midway src dst delete srcSnap dstSnap s0 s →
    Midway src dst delete srcSnap dstSnap s0 (item (env.stamp i.path) s i).1 := by
  rintro i hi s ⟨hs, ha⟩
  rcases mem_oneWay.1 hi with ⟨p, rfl, hp⟩ | ⟨p, rfl, hp⟩
  · exact ⟨by rw [h.carry_src, hs], h.carry_along hsrc hf hp hs ha⟩
  · exact ⟨by rw [h.remove_src, hs], h.remove_along hf hp ha⟩

/-- What a plan has done to the destination at any point. -/
theorem OneWay.prefix_along {pre post : List PlanItem} (e : carryItems carry remove srcSnap dstSnap delete = pre ++ post) :
    Midway src dst delete srcSnap dstSnap s0 (runItems item env s0 pre).1 :=
  runItems_inv (Midway src dst delete srcSnap dstSnap s0)
    (fun i hi => h.step_along hsrc hf i (e ▸ List.mem_append_left _ hi)) ⟨rfl, Along.refl⟩

theorem OneWay.run_along :
    Midway src dst delete srcSnap dstSnap s0
      (runItems item env s0 (carryItems carry remove srcSnap dstSnap delete)).1 :=
  h.prefix_along hsrc hf (List.append_nil _).symm

/-- A plan that is done has carried what it was to carry. -/
theorem OneWay.run_carried {p : String} (hp : Carried srcSnap dstSnap p)
    (hdone : (runItems item env s0 (carryItems carry remove srcSnap dstSnap delete)).2 = true) :
    ∃ n n', (src s0).node p = some n ∧
      (dst (runItems item env s0 (carryItems carry remove srcSnap dstSnap delete)).1).node p = some n' ∧
      n'.bare = n.bare := by
  refine runItems_done (Midway src dst delete srcSnap dstSnap s0)
    (fun i s => i = carry p → ∃ n n', (src s0).node p = some n ∧ (dst s).node p = some n' ∧ n'.bare = n.bare)
    (h.step_along hsrc hf) ?_ ?_ ⟨rfl, Along.refl⟩ hdone (carry p) (mem_oneWay.2 (.inl ⟨p, rfl, hp⟩)) rfl
  · rintro i - s ⟨hs, ha⟩ hok rfl
    obtain ⟨n, n', hn, -, hb, hi⟩ := h.carry_of_sound hsrc hp hs (ha.side.plain_carried hf hp) (env.stamp (carry p).path)
    exact ⟨n, n', hn, hi.done hok, hb⟩
  · rintro i hi j s ⟨hs, ha⟩ hj e
    obtain ⟨n, n', hn, hn', hb⟩ := hj e
    rcases mem_oneWay.1 hi with ⟨q, rfl, hq⟩ | ⟨q, rfl, hq⟩
    · obtain ⟨n1, n2, hn1, -, hb2, hins⟩ := h.carry_of_sound hsrc hq hs (ha.side.plain_carried hf hq) (env.stamp (carry q).path)
      rcases hins.node p with hsame | ⟨-, hnone, -⟩ | ⟨rfl, hok, -⟩
      · exact ⟨n, n', hn, hsame.trans hn', hb⟩
      · rw [hnone] at hn'
        cases hn'
      · exact ⟨n1, n2, hn1, hins.done hok, hb2⟩
    · -- A removal takes nothing that is carried.
      refine ⟨n, n', hn, ?_, hb⟩
      rcases h.remove_spec (env.stamp (remove q).path) s q hq.2.1 (ha.side.plain_deleted hf hq) with e | ⟨e, -⟩
      · rw [e, Tree.node_drop, if_neg fun hqp => hf.kept p q hp hqp hq]
        exact hn'
      · rw [e]
        exact hn'

/-- Where nothing is in the way of what is carried and nothing goes wrong, the plan
is done. -/
theorem OneWay.run_ok (hcalm : ∀ p, env.fault p = .none)
    (hparents : ∀ p, Carried srcSnap dstSnap p → ∀ d, below d p = true → (dst s0).isDir d = true)
    (hfree : ∀ p, Carried srcSnap dstSnap p → (dst s0).isDir p = false)
    (hkinds : ∀ p m, Removed delete srcSnap dstSnap p → dstSnap[p]? = some m →
      ((dst s0).isDir p = true ↔ m.kind = .dir)) :
    (runItems item env s0 (carryItems carry remove srcSnap dstSnap delete)).2 = true := by
  refine runItems_ok (Midway src dst delete srcSnap dstSnap s0) hcalm ?_
    ⟨rfl, Along.refl⟩
  rintro i hi s ⟨hs, ha⟩
  refine ⟨h.step_along hsrc hf i hi s ⟨hs, ha⟩, ?_⟩
  rcases mem_oneWay.1 hi with ⟨p, rfl, hp⟩ | ⟨p, rfl, hp⟩
  · obtain ⟨m, hm, hk, hne⟩ := hp
    obtain ⟨n, hn, hmeta⟩ := hsrc p m hm
    have hp : Carried srcSnap dstSnap p := ⟨m, hm, hk, hne⟩
    refine h.carry_ok _ s p m n hm hk (hs ▸ hn) hmeta (fun d hd => ha.parent_isDir hf hp hd (hparents p hp d hd)) ?_
    by_contra hd
    rcases ha.dirs p (by simpa using hd) with h0 | ⟨q, hq, hpq⟩
    · rw [hfree p hp] at h0
      cases h0
    · exact hf.apart q p hq hpq hp
  · obtain ⟨m, hm⟩ := Option.ne_none_iff_exists'.1 hp.2.1
    refine h.remove_ok _ s p m hm (ha.side.plain_deleted hf hp) fun n hn => ⟨?_, ?_⟩
    · intro hd
      rcases ha.dirs p (Tree.isDir_iff.2 ⟨n, hn, hd⟩) with h0 | ⟨q, hq, hpq⟩
      · exact (hkinds p m hp hm).1 h0
      · exact absurd hp (hf.kept q p hq (.inr hpq))
    · intro hk
      rcases ha.side.dirs p ((hkinds p m hp hm).2 hk) with hd | hnone
      · rwa [Tree.isDir, hn] at hd
      · rw [hn] at hnone
        cases hnone

/-- A plan that is done has left what the source lists: with the contents carried, or
as it was where both snapshots said the same. -/
theorem OneWay.run_source (hdst : Sound sha dstSnap (dst s0))
    (hdirs : ∀ p m, srcSnap[p]? = some m → m.kind = .dir → (dst s0).isDir p = true)
    (hclosed : ∀ d p, srcSnap[d]? = none → (p = d ∨ below d p = true) → srcSnap[p]? = none) {p : String} {m : EntryMeta}
    (hm : srcSnap[p]? = some m)
    (hdone : (runItems item env s0 (carryItems carry remove srcSnap dstSnap delete)).2 = true) :
    ∃ n n', (src s0).node p = some n ∧ entryMeta sha n = some m ∧
      (dst (runItems item env s0 (carryItems carry remove srcSnap dstSnap delete)).1).node p = some n' ∧
      (n'.bare = n.bare ∨ (dst s0).node p = some n' ∧ entryMeta sha n' = some m) := by
  obtain ⟨n, hn, hmeta⟩ := hsrc p m hm
  by_cases hc : Carried srcSnap dstSnap p
  · obtain ⟨n1, n', hn1, hn', hbare⟩ := h.run_carried hsrc hf hc hdone
    rw [hn] at hn1
    cases hn1
    exact ⟨n, n', hn, hmeta, hn', .inl hbare⟩
  · -- A directory was made; any other entry looks like the source's.
    obtain ⟨n', hn', hsame⟩ : ∃ n', (dst s0).node p = some n' ∧
        (n'.bare = n.bare ∨ (dst s0).node p = some n' ∧ entryMeta sha n' = some m) := by
      by_cases hk : m.kind = .dir
      · obtain ⟨n', hn', hd⟩ := Tree.isDir_iff.1 (hdirs p m hm hk)
        exact ⟨n', hn', .inl (Node.bare_of_isDir (by rw [entryMeta_isDir hmeta, hk]; rfl) hd)⟩
      · have hdm : dstSnap[p]? = some m := by
          by_contra hne
          refine hc ⟨m, hm, ?_, hne⟩
          cases hkind : m.kind with
          | dir => exact absurd hkind hk
          | _ => rfl
        obtain ⟨n', hn', hmeta'⟩ := hdst p m hdm
        exact ⟨n', hn', .inr ⟨hn', hmeta'⟩⟩
    have hkept : ∀ d, Removed delete srcSnap dstSnap d → ¬ (p = d ∨ below d p = true) := by
      intro d hd hpd
      rw [hclosed d p hd.2.2 hpd] at hm
      cases hm
    rcases (h.run_along hsrc hf).along.frame p (by simp [hn']) hkept with e | ⟨hc', -⟩
    · exact ⟨n, n', hn, hmeta, e.trans hn', hsame⟩
    · exact absurd hc' hc

end Run

end Mobfs
