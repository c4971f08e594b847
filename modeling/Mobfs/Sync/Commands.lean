import Mobfs.Sync.Apply
/-!
# The commands

`sync`, `pull` and `push` from end to end, while nobody else touches either tree.
The conflict copies that a stopped `sync` leaves next to the files are not
modelled.

`runItems_inv` and `runItems_done` are the rules by which facts about one item
become facts about a whole plan.
-/

namespace Mobfs

open Std Lib

/-- A command; `sync` with the base snapshot it loaded. -/
inductive Command where
  | sync (base : Snapshot)
  | pull
  | push

def Command.plan (c : Command) (loc rem : Snapshot) (delete : Bool) : List PlanItem :=
  match c with
  | .sync base => syncItems base loc rem delete
  | .pull => pullItems loc rem delete
  | .push => pushItems loc rem delete

section Exec
variable (links : Links) (sha : List UInt8 → String) (ignore : List String)

/-- What a command does to the trees once it has both snapshots. -/
def Command.carryOut (c : Command) (env : Env) (loc rem : Snapshot) (delete : Bool) (s : Sides) : Sides × Bool :=
  let plan := c.plan loc rem delete
  match c with
  | .sync _ =>
    if plan.any PlanItem.isConflict then (s, false) else runItems (applyItem links rem) env s plan
  | .pull =>
    match ensureDirs links (fun d => (env.stamp d).dirMode) s.loc rem.dirs with
    | (l, true) => runItems (applyItem links rem) env ⟨l, s.rem⟩ plan
    | (l, false) => (⟨l, s.rem⟩, false)
  | .push =>
    match ensureDirs links (fun d => (env.stamp d).dirMode) s.rem loc.dirs with
    | (r, true) => runItems (pushItem links rem) env ⟨s.loc, r⟩ plan
    | (r, false) => (⟨s.loc, r⟩, false)

/-- The plan a command makes of the two trees. -/
def Command.planned (c : Command) (delete : Bool) (s : Sides) : List PlanItem :=
  c.plan (scan sha ignore s.loc) (scan sha ignore s.rem) delete

/-- A command up to the point where its plan is done or has failed. -/
def Command.run (c : Command) (env : Env) (delete : Bool) (s : Sides) : Sides × Bool :=
  c.carryOut links env (scan sha ignore s.loc) (scan sha ignore s.rem) delete s

/-- The trees after a command and the snapshot it saves: `pull` saves the one it
worked from, the others take a new one. -/
def Command.exec (c : Command) (env : Env) (delete : Bool) (s : Sides) : Sides × Option Snapshot :=
  match c.run links sha ignore env delete s with
  | (s', true) =>
    (s', some (match c with
      | .pull => scan sha ignore s.rem
      | _ => scan sha ignore s'.rem))
  | (s', false) => (s', none)

end Exec

theorem mem_dirs {snap : Snapshot} {d : String} : d ∈ snap.dirs ↔ ∃ m, snap[d]? = some m ∧ m.kind = .dir := by
  simp only [Snapshot.dirs, List.mem_map, List.mem_filter, decide_eq_true_eq, Prod.exists]
  constructor
  · rintro ⟨p, m, ⟨hm, hk⟩, rfl⟩
    exact ⟨m, ExtTreeMap.mem_toList_iff_getElem?_eq_some.1 hm, hk⟩
  · rintro ⟨m, hm, hk⟩
    exact ⟨d, m, ⟨ExtTreeMap.mem_toList_iff_getElem?_eq_some.2 hm, hk⟩, rfl⟩

/-! ## From an item to a plan -/

section Items
variable {item : Stamp → Sides → PlanItem → Sides × Bool} {env : Env} {s : Sides} {is : List PlanItem}

theorem Fault.hit_cases (f : Fault) (s : Sides) (r : Sides × Bool) :
    (f.hit s r).1 = s ∨ (f.hit s r).1 = r.1 := by
  cases f
  · exact .inr rfl
  · exact .inl rfl
  · exact .inr rfl

theorem Fault.hit_ok {f : Fault} {s : Sides} {r : Sides × Bool} (h : (f.hit s r).2 = true) : f.hit s r = r := by
  cases f
  · rfl
  · cases h
  · cases h

/-- What each item keeps, a plan keeps, whatever goes wrong on the way. -/
theorem runItems_inv (I : Sides → Prop)
    (hstep : ∀ i ∈ is, ∀ s, I s → I (item (env.stamp i.path) s i).1) (h : I s) : I (runItems item env s is).1 := by
  induction is generalizing s with
  | nil => exact h
  | cons i is ih =>
    have hi : I ((env.fault i.path).hit s (item (env.stamp i.path) s i)).1 := by
      rcases (env.fault i.path).hit_cases s (item (env.stamp i.path) s i) with e | e
      · rw [e]; exact h
      · rw [e]; exact hstep i List.mem_cons_self s h
    rcases he : (env.fault i.path).hit s (item (env.stamp i.path) s i) with ⟨s', ok⟩
    rw [he] at hi
    simp only [runItems, he]
    cases ok with
    | true => exact ih (fun j hj => hstep j (List.mem_cons_of_mem _ hj)) hi
    | false => exact hi

/-- What each item establishes and the others keep holds of all of them once the
plan is done. -/
theorem runItems_done (I : Sides → Prop) (E : PlanItem → Sides → Prop)
    (hstep : ∀ i ∈ is, ∀ s, I s → I (item (env.stamp i.path) s i).1)
    (hnew : ∀ i ∈ is, ∀ s, I s → (item (env.stamp i.path) s i).2 = true → E i (item (env.stamp i.path) s i).1)
    (hkeep : ∀ i ∈ is, ∀ j, ∀ s, I s → E j s → E j (item (env.stamp i.path) s i).1)
    (h : I s) (hdone : (runItems item env s is).2 = true) : ∀ i ∈ is, E i (runItems item env s is).1 := by
  -- Along the plan, `E` holds of what is done already; so prove it of any such set.
  suffices hall : ∀ (done : PlanItem → Prop), (∀ i, done i → E i s) →
      ∀ i, done i ∨ i ∈ is → E i (runItems item env s is).1 from
    fun i hi => hall (fun _ => False) (by simp) i (.inr hi)
  intro done hE
  induction is generalizing s done with
  | nil =>
    rintro i (hi | hi)
    · exact hE i hi
    · cases hi
  | cons j is ih =>
    rcases he : (env.fault j.path).hit s (item (env.stamp j.path) s j) with ⟨s', ok⟩
    simp only [runItems, he] at hdone ⊢
    cases ok with
    | false => cases hdone
    | true =>
      have hok : ((env.fault j.path).hit s (item (env.stamp j.path) s j)).2 = true := by rw [he]
      have hs' : item (env.stamp j.path) s j = (s', true) := by rw [← Fault.hit_ok hok, he]
      have hI : I s' := by
        have := hstep j List.mem_cons_self s h
        rwa [hs'] at this
      have hEj : E j s' := by
        have := hnew j List.mem_cons_self s h (by rw [hs'])
        rwa [hs'] at this
      intro i hi
      refine ih (fun k hk => hstep k (List.mem_cons_of_mem _ hk)) (fun k hk => hnew k (List.mem_cons_of_mem _ hk))
        (fun k hk => hkeep k (List.mem_cons_of_mem _ hk)) hI hdone (fun i => i = j ∨ done i) ?_ i ?_
      · rintro k (rfl | hk)
        · exact hEj
        · have := hkeep j List.mem_cons_self k s h (hE k hk)
          rwa [hs'] at this
      · rcases hi with hi | hi
        · exact .inl (.inr hi)
        · rcases List.mem_cons.1 hi with rfl | hi
          · exact .inl (.inl rfl)
          · exact .inr hi

/-- A plan that is done was done up to each of its items, which then succeeded. -/
theorem runItems_split {pre post : List PlanItem} {i : PlanItem}
    (h : (runItems item env s (pre ++ i :: post)).2 = true) :
    (item (env.stamp i.path) (runItems item env s pre).1 i).2 = true ∧
    runItems item env s (pre ++ i :: post) =
      runItems item env (item (env.stamp i.path) (runItems item env s pre).1 i).1 post := by
  induction pre generalizing s with
  | nil =>
    rcases he : (env.fault i.path).hit s (item (env.stamp i.path) s i) with ⟨s', ok⟩
    simp only [List.nil_append, runItems, he] at h ⊢
    cases ok with
    | false => cases h
    | true =>
      have hi := Fault.hit_ok (f := env.fault i.path) (s := s) (r := item (env.stamp i.path) s i) (by rw [he])
      rw [← hi, he]
      exact ⟨rfl, rfl⟩
  | cons j pre ih =>
    rcases he : (env.fault j.path).hit s (item (env.stamp j.path) s j) with ⟨s', ok⟩
    simp only [List.cons_append, runItems, he] at h ⊢
    cases ok with
    | false => cases h
    | true => exact ih h

/-- A plan in two parts is carried out one after the other. -/
theorem runItems_append (is js : List PlanItem) :
    runItems item env s (is ++ js) =
      if (runItems item env s is).2 then runItems item env (runItems item env s is).1 js else runItems item env s is := by
  induction is generalizing s with
  | nil => rfl
  | cons i is ih =>
    rcases he : (env.fault i.path).hit s (item (env.stamp i.path) s i) with ⟨s', ok⟩
    simp only [List.cons_append, runItems, he]
    cases ok with
    | true => exact ih
    | false => rfl

/-- Nothing goes wrong, so a plan is done if each of its items succeeds. -/
theorem runItems_ok (I : Sides → Prop) (hcalm : ∀ p, env.fault p = .none)
    (hstep : ∀ i ∈ is, ∀ s, I s → I (item (env.stamp i.path) s i).1 ∧ (item (env.stamp i.path) s i).2 = true) (h : I s) :
    (runItems item env s is).2 = true := by
  induction is generalizing s with
  | nil => rfl
  | cons i is ih =>
    obtain ⟨hI, hok⟩ := hstep i List.mem_cons_self s h
    rcases he : item (env.stamp i.path) s i with ⟨s', ok⟩
    rw [he] at hI hok
    simp only [runItems, hcalm, Fault.hit, he]
    cases hok
    exact ih (fun j hj => hstep j (List.mem_cons_of_mem _ hj)) hI

/-- On what `push` plans, its loop is that of `apply_plan`. -/
theorem runItems_pushItem {links : Links} {remote : Snapshot}
    (h : ∀ i ∈ is, (∃ p, i = .put p) ∨ ∃ p, i = .deleteRemote p) :
    runItems (pushItem links remote) env s is = runItems (applyItem links remote) env s is := by
  induction is generalizing s with
  | nil => rfl
  | cons i is ih =>
    have hi : ∀ st, pushItem links remote st s i = applyItem links remote st s i := by
      intro st
      rcases h i List.mem_cons_self with ⟨p, rfl⟩ | ⟨p, rfl⟩
      · rfl
      · rfl
    have ih' := fun s' => ih (s := s') fun j hj => h j (List.mem_cons_of_mem _ hj)
    simp only [runItems, hi, ih']

end Items

theorem pushItems_put_or_delete {loc rem : Snapshot} {delete : Bool} :
    ∀ i ∈ pushItems loc rem delete, (∃ p, i = .put p) ∨ ∃ p, i = .deleteRemote p := by
  intro i hi
  rcases mem_carryItems.1 hi with ⟨p, _, rfl, -⟩ | ⟨p, rfl, -⟩
  · exact .inl ⟨p, rfl⟩
  · exact .inr ⟨p, rfl⟩

/-- A command stops before it changes anything but missing directories, or
carries out its plan from there. -/
theorem Command.carryOut_cases (links : Links) (c : Command) (env : Env) (loc rem : Snapshot) (delete : Bool)
    (s : Sides) :
    ∃ s1 : Sides, (AddsDirs s.loc s1.loc fun _ => True) ∧ (AddsDirs s.rem s1.rem fun _ => True) ∧
      (c.carryOut links env loc rem delete s = (s1, false) ∨
       c.carryOut links env loc rem delete s =
         runItems (applyItem links rem) env s1 (c.plan loc rem delete)) := by
  cases c with
  | sync base =>
    refine ⟨s, AddsDirs.refl _ _, AddsDirs.refl _ _, ?_⟩
    simp only [carryOut]
    by_cases hc : ((Command.sync base).plan loc rem delete).any PlanItem.isConflict = true
    · exact .inl (if_pos hc)
    · exact .inr (if_neg hc)
  | pull =>
    refine ⟨⟨(ensureDirs links (fun d => (env.stamp d).dirMode) s.loc rem.dirs).1, s.rem⟩, ensureDirs_adds,
      AddsDirs.refl _ _, ?_⟩
    simp only [carryOut]
    rcases ensureDirs links (fun d => (env.stamp d).dirMode) s.loc rem.dirs with ⟨l, ok⟩
    cases ok
    · exact .inl rfl
    · exact .inr rfl
  | push =>
    refine ⟨⟨s.loc, (ensureDirs links (fun d => (env.stamp d).dirMode) s.rem loc.dirs).1⟩, AddsDirs.refl _ _,
      ensureDirs_adds, ?_⟩
    simp only [carryOut, runItems_pushItem pushItems_put_or_delete, plan]
    rcases ensureDirs links (fun d => (env.stamp d).dirMode) s.rem loc.dirs with ⟨r, ok⟩
    cases ok
    · exact .inl rfl
    · exact .inr rfl

/-! ## What a plan says of the snapshots -/

section Plans
variable {c : Command} {loc rem : Snapshot} {delete : Bool} {p : String}

theorem Command.of_put (h : .put p ∈ c.plan loc rem delete) :
    ∃ m, loc[p]? = some m ∧ m.kind.carried = true ∧ rem[p]? ≠ some m := by
  cases c with
  | sync base =>
    obtain ⟨q, hq⟩ := mem_syncItems.1 h
    obtain ⟨he, h1, h2, m, hm, hk⟩ | ⟨he, -⟩ | ⟨he, -⟩ | ⟨he, -⟩ | ⟨he, -⟩ := syncItem_eq_some.1 hq <;> cases he
    exact ⟨m, hm, hk, fun e => h1 (by rw [hm, ← e, h2])⟩
  | pull => obtain ⟨_, _, he, -⟩ | ⟨_, he, -⟩ := mem_carryItems.1 h <;> cases he
  | push =>
    obtain ⟨q, m, he, hm, hk, hr⟩ | ⟨q, he, -⟩ := mem_carryItems.1 h <;> cases he
    exact ⟨m, hm, hk, hr⟩

theorem Command.of_get (h : .get p ∈ c.plan loc rem delete) :
    ∃ m, rem[p]? = some m ∧ m.kind.carried = true ∧ loc[p]? ≠ some m := by
  cases c with
  | sync base =>
    obtain ⟨q, hq⟩ := mem_syncItems.1 h
    obtain ⟨he, -⟩ | ⟨he, -⟩ | ⟨he, h1, h2, m, hm, hk⟩ | ⟨he, -⟩ | ⟨he, -⟩ := syncItem_eq_some.1 hq <;> cases he
    exact ⟨m, hm, hk, fun e => h2 (by rw [hm, ← e, h1])⟩
  | pull =>
    obtain ⟨q, m, he, hm, hk, hr⟩ | ⟨q, he, -⟩ := mem_carryItems.1 h <;> cases he
    exact ⟨m, hm, hk, hr⟩
  | push => obtain ⟨_, _, he, -⟩ | ⟨_, he, -⟩ := mem_carryItems.1 h <;> cases he

/-- A sync deletes only what is as it was in the base. -/
def Command.SameAsBase (c : Command) (snap : Snapshot) (p : String) : Prop :=
  match c with
  | .sync base => snap[p]? = base[p]?
  | _ => True

theorem Command.of_deleteRemote (h : .deleteRemote p ∈ c.plan loc rem delete) :
    delete = true ∧ loc[p]? = none ∧ rem[p]? ≠ none ∧ c.SameAsBase rem p := by
  cases c with
  | sync base =>
    obtain ⟨q, hq⟩ := mem_syncItems.1 h
    obtain ⟨he, -⟩ | ⟨he, hd, hl, hr, hn⟩ | ⟨he, -⟩ | ⟨he, -⟩ | ⟨he, -⟩ := syncItem_eq_some.1 hq <;> cases he
    exact ⟨hd, hl, hn, hr⟩
  | pull => obtain ⟨_, _, he, -⟩ | ⟨_, he, -⟩ := mem_carryItems.1 h <;> cases he
  | push =>
    obtain ⟨_, _, he, -⟩ | ⟨q, he, hd, hr, hl⟩ := mem_carryItems.1 h <;> cases he
    exact ⟨hd, hl, hr, trivial⟩

theorem Command.of_deleteLocal (h : .deleteLocal p ∈ c.plan loc rem delete) :
    delete = true ∧ rem[p]? = none ∧ loc[p]? ≠ none ∧ c.SameAsBase loc p := by
  cases c with
  | sync base =>
    obtain ⟨q, hq⟩ := mem_syncItems.1 h
    obtain ⟨he, -⟩ | ⟨he, -⟩ | ⟨he, -⟩ | ⟨he, hd, hr, hl, hn⟩ | ⟨he, -⟩ := syncItem_eq_some.1 hq <;> cases he
    exact ⟨hd, hr, hn, hl⟩
  | pull =>
    obtain ⟨_, _, he, -⟩ | ⟨q, he, hd, hl, hr⟩ := mem_carryItems.1 h <;> cases he
    exact ⟨hd, hr, hl, trivial⟩
  | push => obtain ⟨_, _, he, -⟩ | ⟨_, he, -⟩ := mem_carryItems.1 h <;> cases he

/-- If a command deletes something, it deletes all that only that side has,
unless a sync finds it changed. -/
theorem Command.deleteRemote_mem {d : String} (h : .deleteRemote d ∈ c.plan loc rem delete)
    (hl : loc[p]? = none) (hr : rem[p]? ≠ none) (hb : c.SameAsBase rem p) :
    .deleteRemote p ∈ c.plan loc rem delete := by
  have hd := (Command.of_deleteRemote h).1
  cases c with
  | sync base => exact mem_syncItems.2 ⟨p, syncItem_eq_some.2 (.inr (.inl ⟨rfl, hd, hl, hb, hr⟩))⟩
  | pull => obtain ⟨_, _, he, -⟩ | ⟨_, he, -⟩ := mem_carryItems.1 h <;> cases he
  | push => exact mem_carryItems.2 (.inr ⟨p, rfl, hd, hr, hl⟩)

theorem Command.deleteLocal_mem {d : String} (h : .deleteLocal d ∈ c.plan loc rem delete)
    (hr : rem[p]? = none) (hl : loc[p]? ≠ none) (hb : c.SameAsBase loc p) :
    .deleteLocal p ∈ c.plan loc rem delete := by
  have hd := (Command.of_deleteLocal h).1
  cases c with
  | sync base =>
    exact mem_syncItems.2 ⟨p, syncItem_eq_some.2 (.inr (.inr (.inr (.inl ⟨rfl, hd, hr, hb, hl⟩))))⟩
  | pull => exact mem_carryItems.2 (.inr ⟨p, rfl, hd, hl, hr⟩)
  | push => obtain ⟨_, _, he, -⟩ | ⟨_, he, -⟩ := mem_carryItems.1 h <;> cases he

/-! ## One item for each path -/

theorem carryItems_paths {carry remove : String → PlanItem} {src dst : Snapshot}
    (hc : ∀ p, (carry p).path = p) (hr : ∀ p, (remove p).path = p) :
    (carryItems carry remove src dst delete).Pairwise fun i j => i.path ≠ j.path := by
  rw [carryItems, List.pairwise_append]
  refine ⟨?_, ?_, ?_⟩
  · have hd := ExtTreeMap.distinct_keys_toList (t := src)
    refine List.Pairwise.filterMap _ ?_ hd
    intro x y hxy i hi j hj
    simp only [Option.ite_none_right_eq_some, Option.some.injEq] at hi hj
    rw [← hi.2, ← hj.2, hc, hc]
    intro e
    exact hxy (by rw [e]; exact ReflCmp.compare_self)
  · cases delete with
    | false => exact List.Pairwise.nil
    | true =>
      have hd := List.pairwise_reverse.2 ((ExtTreeMap.distinct_keys (t := dst)).imp
        fun {a b} h (e : compare b a = .eq) => h (OrientedCmp.eq_symm e))
      refine List.Pairwise.filterMap _ ?_ hd
      intro x y hxy i hi j hj
      simp only [Option.ite_none_left_eq_some, Option.some.injEq] at hi hj
      rw [← hi.2, ← hj.2, hr, hr]
      intro e
      exact hxy (by rw [e]; exact ReflCmp.compare_self)
  · intro i hi j hj
    -- What is carried the source has, what is removed it has not.
    simp only [List.mem_filterMap, Option.ite_none_right_eq_some, Option.some.injEq] at hi
    obtain ⟨⟨p, m⟩, hp, -, rfl⟩ := hi
    cases delete with
    | false => cases hj
    | true =>
      simp only [if_true, List.mem_filterMap, Option.ite_none_left_eq_some, Option.some.injEq] at hj
      obtain ⟨q, -, hq, rfl⟩ := hj
      rw [hc, hr]
      rintro rfl
      exact hq (ExtTreeMap.contains_iff_mem.2 (ExtTreeMap.mem_iff_isSome_getElem?.2 (by
        rw [ExtTreeMap.mem_toList_iff_getElem?_eq_some.1 hp]; rfl)))

theorem Command.plan_paths : (c.plan loc rem delete).Pairwise fun i j => i.path ≠ j.path := by
  cases c with
  | sync base =>
    have hd := ExtTreeSet.distinct_toList (t := ExtTreeSet.ofList (base.keys ++ loc.keys ++ rem.keys))
    refine List.Pairwise.filterMap _ ?_ hd
    intro x y hxy i hi j hj
    have hpath : ∀ {p : String} {k : PlanItem}, syncItem delete p base[p]? loc[p]? rem[p]? = some k → k.path = p := by
      intro p k hk
      obtain ⟨rfl, -⟩ | ⟨rfl, -⟩ | ⟨rfl, -⟩ | ⟨rfl, -⟩ | ⟨rfl, -⟩ := syncItem_eq_some.1 hk <;> rfl
    rw [hpath hi, hpath hj]
    intro e
    exact hxy (by rw [e]; exact ReflCmp.compare_self)
  | pull => exact carryItems_paths (fun _ => rfl) fun _ => rfl
  | push => exact carryItems_paths (fun _ => rfl) fun _ => rfl

end Plans

end Mobfs
