import Mobfs.Lib.Disk
/-!
# Places and symbolic links

A path may lead through links: `walk` finds the place it leads to and follows so many
links at most. `Leads` is the walk as a relation with a rule for each kind of step, and what holds of
the places on the way is proved by induction on it.

`Leads.within`: where the links below a place lead down, no walk from there leaves it.
`Leads.names_within`: nor does one where each link, followed, stays inside.
-/

namespace Lib

variable {α : Type} [DecidableEq α]

namespace Disk

/-! ## Walking -/

/-- A walk that goes on with `jump` where it follows a link. At its end a link is
followed if `follow` says so, and nothing need be there. -/
def walkWith (s : Disk α) (jump : List α → List (PathStep α) → Option (List α)) (follow : Bool) :
    List α → List (PathStep α) → Option (List α)
  | loc, [] => some loc
  | loc, .here :: rest => walkWith s jump follow loc rest
  | loc, .up :: rest => walkWith s jump follow loc.dropLast rest
  | loc, .name a :: rest =>
    match s.look (loc ++ [a]) with
    | some .dir => walkWith s jump follow (loc ++ [a]) rest
    | some (.link t) =>
      if rest = [] ∧ follow = false then some (loc ++ [a]) else jump (t.base loc) (t.steps ++ rest)
    | _ => if rest = [] then some (loc ++ [a]) else none

/-- A walk from a directory that follows `n` links at most. -/
def walk (s : Disk α) (follow : Bool) : Nat → List α → List (PathStep α) → Option (List α)
  | 0 => walkWith s (fun _ _ => none) follow
  | n + 1 => walkWith s (walk s follow n) follow

/-- The walk, step by step. -/
inductive Leads (s : Disk α) (follow : Bool) : Nat → List α → List (PathStep α) → List α → Prop
  | nil {n loc} : Leads s follow n loc [] loc
  | here {n loc rest q} (h : Leads s follow n loc rest q) : Leads s follow n loc (.here :: rest) q
  | up {n loc rest q} (h : Leads s follow n loc.dropLast rest q) : Leads s follow n loc (.up :: rest) q
  | dir {n loc a rest q} (ha : s.look (loc ++ [a]) = some .dir) (h : Leads s follow n (loc ++ [a]) rest q) :
    Leads s follow n loc (.name a :: rest) q
  | link {n loc a t rest q} (ha : s.look (loc ++ [a]) = some (.link t)) (hon : rest = [] → follow = true)
    (h : Leads s follow n (t.base loc) (t.steps ++ rest) q) : Leads s follow (n + 1) loc (.name a :: rest) q
  | last {n loc a} (hdir : s.look (loc ++ [a]) ≠ some .dir)
    (hend : follow = true → ∀ t, s.look (loc ++ [a]) ≠ some (.link t)) : Leads s follow n loc [.name a] (loc ++ [a])

variable {s : Disk α} {follow : Bool} {n m : Nat} {loc q top : List α} {steps rest : List (PathStep α)}

/-- The steps of a walk, for any way to follow a link. -/
theorem leads_of_walkWith {jump : List α → List (PathStep α) → Option (List α)}
    (hjump : ∀ loc steps q, jump loc steps = some q → ∃ m, n = m + 1 ∧ Leads s follow m loc steps q)
    (h : walkWith s jump follow loc steps = some q) : Leads s follow n loc steps q := by
  induction steps generalizing loc with
  | nil =>
    cases h
    exact .nil
  | cons step rest ih =>
    cases step with
    | here => exact .here (ih h)
    | up => exact .up (ih h)
    | name a =>
      unfold walkWith at h
      split at h
      · rename_i ha
        exact .dir ha (ih h)
      · rename_i t ha
        split at h
        · rename_i hend
          obtain ⟨rfl, rfl⟩ := hend
          cases h
          exact .last (by simp [ha]) (by simp)
        · rename_i hend
          obtain ⟨m, rfl, hm⟩ := hjump _ _ _ h
          refine .link ha (fun hrest => ?_) hm
          by_contra hf
          exact hend ⟨hrest, by simpa using hf⟩
      · rename_i hdir hlink
        split at h
        · rename_i hrest
          subst hrest
          cases h
          exact .last hdir fun _ => hlink
        · cases h

theorem leads_of_walk (h : s.walk follow n loc steps = some q) : Leads s follow n loc steps q := by
  induction n generalizing loc steps q with
  | zero => exact leads_of_walkWith (by simp) h
  | succ n ih => exact leads_of_walkWith (fun _ _ _ hj => ⟨n, rfl, ih hj⟩) h

theorem Leads.walk (h : Leads s follow n loc steps q) : s.walk follow n loc steps = some q := by
  induction h with
  | @nil n => cases n <;> rfl
  | @here n _ _ _ _ ih => cases n <;> exact ih
  | @up n _ _ _ _ ih => cases n <;> exact ih
  | @dir n loc a rest _ ha _ ih =>
    cases n <;>
      unfold Disk.walk walkWith <;>
      rw [ha] <;>
      exact ih
  | @link n loc a t rest _ ha hon _ ih =>
    unfold Disk.walk walkWith
    have hnot : ¬(rest = [] ∧ follow = false) := fun hend => by simp [hon hend.1] at hend
    simp only [ha, if_neg hnot]
    exact ih
  | @last n loc a hdir hend =>
    cases hl : s.look (loc ++ [a]) with
    | none => cases n <;> simp [Disk.walk, walkWith, hl]
    | some e =>
      cases e with
      | dir => exact absurd hl hdir
      | file => cases n <;> simp [Disk.walk, walkWith, hl]
      | link t =>
        have hf : follow = false := by
          by_contra hf
          exact hend (by simpa using hf) t hl
        cases n <;> simp [Disk.walk, walkWith, hl, hf]

/-- More links may be followed. -/
theorem Leads.mono (h : Leads s follow n loc steps q) (hm : n ≤ m) : Leads s follow m loc steps q := by
  induction h generalizing m with
  | nil => exact .nil
  | here _ ih => exact .here (ih hm)
  | up _ ih => exact .up (ih hm)
  | dir ha _ ih => exact .dir ha (ih hm)
  | link ha hon _ ih =>
    cases m with
    | zero => exact absurd hm (Nat.not_succ_le_zero _)
    | succ m => exact .link ha hon (ih (Nat.le_of_succ_le_succ hm))
  | last hdir hend => exact .last hdir hend

/-- A walk along two paths in a row comes by the place where the first leads. -/
theorem Leads.split {xs ys : List (PathStep α)} (h : Leads s follow n loc (xs ++ ys) q) (hys : ys ≠ []) :
    ∃ mid m, m ≤ n ∧ Leads s true n loc xs mid ∧ Leads s follow m mid ys q := by
  generalize hsteps : xs ++ ys = steps at h
  have hnil : ∀ {n loc q}, Leads s follow n loc ys q →
      ∃ mid m, m ≤ n ∧ Leads s true n loc [] mid ∧ Leads s follow m mid ys q :=
    fun h => ⟨_, _, le_rfl, .nil, h⟩
  induction h generalizing xs with
  | nil => exact absurd (List.append_eq_nil_iff.1 hsteps).2 hys
  | here h ih =>
    cases xs with
    | nil =>
      subst hsteps
      exact hnil (.here h)
    | cons x xs =>
      cases hsteps
      obtain ⟨mid, m, hm, hmid, hq⟩ := ih rfl
      exact ⟨mid, m, hm, .here hmid, hq⟩
  | up h ih =>
    cases xs with
    | nil =>
      subst hsteps
      exact hnil (.up h)
    | cons x xs =>
      cases hsteps
      obtain ⟨mid, m, hm, hmid, hq⟩ := ih rfl
      exact ⟨mid, m, hm, .up hmid, hq⟩
  | dir ha h ih =>
    cases xs with
    | nil =>
      subst hsteps
      exact hnil (.dir ha h)
    | cons x xs =>
      cases hsteps
      obtain ⟨mid, m, hm, hmid, hq⟩ := ih rfl
      exact ⟨mid, m, hm, .dir ha hmid, hq⟩
  | link ha hon h ih =>
    cases xs with
    | nil =>
      subst hsteps
      exact hnil (.link ha hon h)
    | cons x xs =>
      cases hsteps
      obtain ⟨mid, m, hm, hmid, hq⟩ := ih (List.append_assoc _ _ _)
      exact ⟨mid, m, Nat.le_succ_of_le hm, .link ha (fun _ => rfl) hmid, hq⟩
  | last hdir hend =>
    cases xs with
    | nil =>
      subst hsteps
      exact hnil (.last hdir hend)
    | cons x xs =>
      obtain ⟨-, htail⟩ := List.cons.inj hsteps
      exact absurd (List.append_eq_nil_iff.1 htail).2 hys

/-! ## Staying inside -/

/-- Where every link below a place leads down, a walk from there without a step up stays
below. -/
theorem Leads.within (htop : ∀ p t, top <+: p → p ≠ top → s.look p = some (.link t) → t.Down)
    (h : Leads s follow n loc steps q) (hloc : top <+: loc) (hup : PathStep.up ∉ steps) : top <+: q := by
  induction h with
  | nil => exact hloc
  | here _ ih => exact ih hloc fun hu => hup (List.mem_cons_of_mem _ hu)
  | up => exact absurd List.mem_cons_self hup
  | dir _ _ ih => exact ih (hloc.trans (List.prefix_append _ _)) fun hu => hup (List.mem_cons_of_mem _ hu)
  | @link n loc a t rest q ha _ _ ih =>
    have hne : loc ++ [a] ≠ top := by
      intro he
      have := hloc.length_le
      rw [← he, List.length_append, List.length_singleton] at this
      omega
    obtain ⟨hrel, hdown⟩ := htop _ t (hloc.trans (List.prefix_append _ _)) hne ha
    refine ih ?_ ?_
    · rw [LinkTarget.base, hrel]
      exact hloc
    · intro hu
      rcases List.mem_append.1 hu with hu | hu
      · exact hdown hu
      · exact hup (List.mem_cons_of_mem _ hu)
  | last => exact hloc.trans (List.prefix_append _ _)

/-- A walk by names stays inside where each link that is followed stays inside. Not to
follow a link at its end, it ends at a name inside. -/
theorem Leads.names_within {P : List α → Prop} {limit : Nat} {names : List α} (hP : ∀ p a, P p → P (p ++ [a]))
    (hlink : ∀ p a t q, P p → s.look (p ++ [a]) = some (.link t) → Leads s true limit p [.name a] q → P q)
    (h : Leads s follow n loc (names.map .name) q) (hn : n ≤ limit) (hloc : P loc) :
    P q ∧ (names ≠ [] → follow = false → ∃ p a, P p ∧ q = p ++ [a]) := by
  induction names generalizing n loc with
  | nil =>
    cases h
    exact ⟨hloc, fun hne => absurd rfl hne⟩
  | cons a names ih =>
    have hname : P (loc ++ [a]) ∧ (a :: names ≠ [] → follow = false → ∃ p b, P p ∧ loc ++ [a] = p ++ [b]) :=
      ⟨hP _ _ hloc, fun _ _ => ⟨loc, a, hloc, rfl⟩⟩
    generalize hsteps : (a :: names).map PathStep.name = steps at h
    cases h with
    | nil => cases hsteps
    | here => cases hsteps
    | up => cases hsteps
    | dir ha h =>
      cases hsteps
      cases names with
      | nil =>
        rw [List.map_nil] at h
        cases h
        exact hname
      | cons b names =>
        obtain ⟨hq, hend⟩ := ih h hn (hP _ _ hloc)
        exact ⟨hq, fun _ => hend (List.cons_ne_nil _ _)⟩
    | @link n _ _ t _ _ ha hon h =>
      cases hsteps
      cases names with
      | nil =>
        have hf := hon rfl
        subst hf
        exact ⟨hlink loc a t q hloc ha ((Leads.link ha hon h).mono hn), by simp⟩
      | cons b names =>
        -- Followed by itself, the link leads inside, and the walk goes on from there.
        have hall : Leads s follow (n + 1) loc ([.name a] ++ (b :: names).map .name) q := .link ha hon h
        obtain ⟨mid, m, hm, hmid, hrest⟩ := hall.split (by simp)
        have hmidP : P mid := hlink loc a t mid hloc ha (hmid.mono hn)
        obtain ⟨hq, hend⟩ := ih hrest (hm.trans hn) hmidP
        exact ⟨hq, fun _ => hend (List.cons_ne_nil _ _)⟩
    | last =>
      cases (List.cons.inj hsteps).1
      exact hname

/-! ## Real directories -/

/-- All on the way to the place are directories. -/
def Real (s : Disk α) (p : List α) : Prop := ∀ q, q <+: p → q ≠ p → s.look q = some .dir

/-- So is what is there. -/
def RealDir (s : Disk α) (p : List α) : Prop := ∀ q, q <+: p → s.look q = some .dir

instance : Decidable (s.RealDir loc) :=
  decidable_of_iff (∀ p ∈ loc.inits, s.look p = some .dir) (by simp only [List.mem_inits, RealDir])

theorem realDir_nil : s.RealDir [] := by
  intro q hq
  rw [List.prefix_nil.1 hq]
  rfl

theorem realDir_concat {a : α} (h : s.RealDir loc) (ha : s.look (loc ++ [a]) = some .dir) : s.RealDir (loc ++ [a]) := by
  intro q hq
  rcases List.prefix_concat_iff.1 hq with rfl | hq
  · exact ha
  · exact h q hq

theorem RealDir.above (h : s.RealDir loc) (hq : q <+: loc) : s.RealDir q := fun p hp => h p (hp.trans hq)

theorem real_concat {a : α} (h : s.RealDir loc) : s.Real (loc ++ [a]) := by
  intro q hq hne
  rcases List.prefix_concat_iff.1 hq with rfl | hq
  · exact absurd rfl hne
  · exact h q hq

theorem RealDir.real (h : s.RealDir loc) : s.Real loc := fun q hq _ => h q hq

theorem Real.parent {a : α} (h : s.Real (loc ++ [a])) : s.RealDir loc := by
  intro q hq
  refine h q (hq.trans (List.prefix_append _ _)) fun he => ?_
  have := hq.length_le
  rw [he, List.length_append, List.length_singleton] at this
  omega

/-- The place where a walk ends has only directories on the way. -/
theorem Leads.real (h : Leads s follow n loc steps q) (hloc : s.RealDir loc) :
    s.Real q ∧ (follow = true → ∀ t, s.look q ≠ some (.link t)) := by
  induction h with
  | @nil n loc => exact ⟨hloc.real, fun _ t ht => by cases (hloc loc List.prefix_rfl).symm.trans ht⟩
  | here _ ih => exact ih hloc
  | up _ ih => exact ih (hloc.above (List.dropLast_prefix _))
  | dir ha _ ih => exact ih (realDir_concat hloc ha)
  | @link n loc a t _ _ _ _ _ ih =>
    refine ih ?_
    unfold LinkTarget.base
    split
    · exact realDir_nil
    · exact hloc
  | last _ hend => exact ⟨real_concat hloc, hend⟩

/-- A walk along real directories. -/
theorem leads_along {d : List α} (hd : s.RealDir (loc ++ d)) :
    Leads s follow n loc (d.map .name ++ rest) q ↔ Leads s follow n (loc ++ d) rest q := by
  induction d generalizing loc with
  | nil => simp
  | cons a d ih =>
    have ha : s.look (loc ++ [a]) = some .dir := hd _ ⟨d, by simp⟩
    rw [List.append_cons] at hd ⊢
    rw [List.map_cons, List.cons_append, ← ih hd]
    constructor
    · intro h
      generalize hsteps : d.map PathStep.name ++ rest = steps at h ⊢
      cases h with
      | dir _ h => exact h
      | link hl => cases ha.symm.trans hl
      | last hdir => exact absurd ha hdir
    · exact .dir ha

theorem leads_from_top {d : List α} (hd : s.RealDir d) :
    Leads s follow n [] (d.map .name ++ rest) q ↔ Leads s follow n d rest q := by
  have h : s.RealDir ([] ++ d) := hd
  exact leads_along h

/-- A walk to a place below a real one that is no link comes by it. -/
theorem Leads.under_real {r names : List α} (hr : s.Real r) (hlink : ∀ t, s.look r ≠ some (.link t))
    (h : Leads s follow n [] ((r ++ names).map .name) q) :
    (names = [] ∧ q = r) ∨ Leads s follow n r (names.map .name) q := by
  rcases List.eq_nil_or_concat r with rfl | ⟨d, a, rfl⟩
  · exact .inr h
  · rw [List.concat_eq_append] at hr hlink h ⊢
    rw [List.append_assoc, List.map_append] at h
    have hd := (leads_from_top hr.parent).1 h
    rw [List.singleton_append, List.map_cons] at hd
    generalize hsteps : names.map PathStep.name = steps at hd ⊢
    cases hd with
    | dir _ hd => exact .inr hd
    | link hl => exact absurd hl (hlink _)
    | last => exact .inl ⟨List.map_eq_nil_iff.1 hsteps, rfl⟩

/-- A walk to a real place that is no link ends there. -/
theorem leads_real {r : List α} (hr : s.Real r) (hlink : ∀ t, s.look r ≠ some (.link t)) :
    Leads s follow n [] (r.map .name) r := by
  rcases List.eq_nil_or_concat r with rfl | ⟨d, a, rfl⟩
  · exact .nil
  · rw [List.concat_eq_append] at hr hlink ⊢
    rw [List.map_append]
    rw [leads_from_top hr.parent]
    by_cases ha : s.look (d ++ [a]) = some .dir
    · exact .dir ha .nil
    · exact .last ha fun _ => hlink

/-- A name in a real directory is found there, if no link is followed at the end. -/
theorem Leads.in_realDir {d : List α} {a : α} (hd : s.RealDir d) (h : Leads s false n [] ((d ++ [a]).map .name) q) :
    q = d ++ [a] := by
  rw [List.map_append] at h
  have h := (leads_from_top hd).1 h
  rw [List.map_singleton] at h
  cases h with
  | dir _ h =>
    cases h
    rfl
  | link _ hon => cases hon rfl
  | last => rfl

end Disk

end Lib
