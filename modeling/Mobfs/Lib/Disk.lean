import Mathlib.Data.List.Infix
/-!
# Disks

A disk has its entries by their places, the names from the top down. The operations
are those of a file system on places: how a path leads to one is `Mobfs.Lib.Resolve`.
Each comes with what it may bring: an entry found afterwards was there before, or is
the one that was added, or was moved along.
-/

namespace Lib

inductive PathStep (α : Type) where
  | here
  | up
  | name (a : α)
  deriving DecidableEq

structure LinkTarget (α : Type) where
  absolute : Bool
  steps : List (PathStep α)
  deriving DecidableEq

/-- Neither absolute nor with a step up. -/
def LinkTarget.Down {α : Type} (t : LinkTarget α) : Prop := t.absolute = false ∧ PathStep.up ∉ t.steps

/-- Where a walk along the target starts, for a link in the directory `loc`. -/
def LinkTarget.base {α : Type} (t : LinkTarget α) (loc : List α) : List α := if t.absolute then [] else loc

inductive Entry (α : Type) where
  | dir
  | file
  | link (target : LinkTarget α)
  deriving DecidableEq

structure Disk (α : Type) where
  entries : List (List α × Entry α)

variable {α : Type} [DecidableEq α]

namespace Disk

/-- What is at a place. The top is always there. -/
def look (s : Disk α) (p : List α) : Option (Entry α) := if p = [] then some .dir else s.entries.lookup p

/-- The entries from a place on. -/
def under (s : Disk α) (p : List α) : List (List α) := (s.entries.map (·.1)).filter fun q => p.isPrefixOf q

def add (s : Disk α) (p : List α) (e : Entry α) : Disk α := ⟨(p, e) :: s.entries⟩

def keep (s : Disk α) (f : List α → Bool) : Disk α := ⟨s.entries.filter fun x => f x.1⟩

def drop (s : Disk α) (p : List α) : Disk α := s.keep fun q => q ≠ p

def dropTree (s : Disk α) (p : List α) : Disk α := s.keep fun q => !p.isPrefixOf q

/-- All from `a` on is found from `b` on instead, and what was there is gone. -/
def moved (s : Disk α) (a b : List α) : Disk α :=
  ⟨((s.entries.filter fun x => a.isPrefixOf x.1).map fun x => (b ++ x.1.drop a.length, x.2)) ++
    s.entries.filter fun x => !a.isPrefixOf x.1 && !b.isPrefixOf x.1⟩

/-- A directory takes the place of an empty one, anything else that of anything else. -/
def takes (s : Disk α) (e : Entry α) (b : List α) : Bool :=
  match s.look b with
  | none => true
  | some .dir => e = .dir && (s.under b).all (· = b)
  | some _ => e ≠ .dir

/-- `rename`: nothing is moved into itself. -/
def move (s : Disk α) (a b : List α) : Option (Disk α) :=
  match s.look a with
  | none => none
  | some e =>
    if a = b then some s
    else if a <+: b ∨ b <+: a then none
    else if s.takes e b then some (if e = .dir then s.moved a b else ((s.drop a).drop b).add b e)
    else none

variable {s s' : Disk α} {p q a b : List α} {e e' : Entry α}

theorem look_of_ne (h : p ≠ []) : s.look p = s.entries.lookup p := if_neg h

theorem lookup_tail {l : List (List α × Entry α)} (h : q ≠ p) : ((p, e) :: l).lookup q = l.lookup q := by
  have hq : (q == p) = false := by simpa using h
  rw [List.lookup_cons, hq]

theorem look_add_self (h : s.look p = none) : (s.add p e).look p = some e := by
  have hp : p ≠ [] := by
    rintro rfl
    cases h
  rw [look_of_ne hp]
  exact List.lookup_cons_self

theorem look_add_of_ne (h : q ≠ p) : (s.add p e).look q = s.look q := by
  by_cases hq : q = []
  · rw [hq]
    rfl
  · rw [look_of_ne hq, look_of_ne hq]
    exact lookup_tail h

/-- What is added where nothing was hides nothing. -/
theorem look_add (hp : s.look p = none) (hq : s.look q = some e') : (s.add p e).look q = some e' := by
  have hne : q ≠ p := by
    rintro rfl
    cases hp.symm.trans hq
  rw [look_add_of_ne hne, hq]

theorem of_look_add (hp : s.look p = none) (h : (s.add p e).look q = some e') : s.look q = some e' ∨ (q = p ∧ e' = e) := by
  by_cases hq : q = p
  · subst hq
    rw [look_add_self hp] at h
    exact .inr ⟨rfl, (Option.some.inj h).symm⟩
  · exact .inl ((look_add_of_ne hq).symm.trans h)

theorem lookup_filter {l : List (List α × Entry α)} (f : List α → Bool) :
    (l.filter fun x => f x.1).lookup q = if f q then l.lookup q else none := by
  induction l with
  | nil => simp
  | cons x l ih =>
    obtain ⟨p, e⟩ := x
    rw [List.filter_cons]
    by_cases hp : q = p
    · subst hp
      rw [List.lookup_cons_self]
      split
      · exact List.lookup_cons_self
      · rename_i hf
        rw [ih, if_neg hf]
    · rw [lookup_tail hp, ← ih]
      split
      · exact lookup_tail hp
      · rfl

theorem look_keep {f : List α → Bool} (hf : f q = true) : (s.keep f).look q = s.look q := by
  unfold look keep
  rw [lookup_filter, if_pos hf]

theorem of_look_keep {f : List α → Bool} (h : (s.keep f).look q = some e) : s.look q = some e := by
  by_cases hq : q = []
  · rw [hq] at h ⊢
    exact h
  · rw [look_of_ne hq] at h ⊢
    rw [keep, lookup_filter] at h
    split at h
    · exact h
    · cases h

theorem of_lookup_map {l : List (List α × Entry α)}
    (h : ((l.filter fun x => a.isPrefixOf x.1).map fun x => (b ++ x.1.drop a.length, x.2)).lookup q = some e) :
    ∃ rest, q = b ++ rest ∧ l.lookup (a ++ rest) = some e := by
  induction l with
  | nil => cases h
  | cons x l ih =>
    obtain ⟨p, e'⟩ := x
    rw [List.filter_cons] at h
    split at h
    · rename_i hpre
      obtain ⟨r, rfl⟩ := List.isPrefixOf_iff_prefix.1 hpre
      rw [List.map_cons, List.drop_left] at h
      by_cases hq : q = b ++ r
      · subst hq
        rw [List.lookup_cons_self] at h
        exact ⟨r, rfl, List.lookup_cons_self.trans h⟩
      · rw [lookup_tail hq] at h
        obtain ⟨rest, rfl, hl⟩ := ih h
        exact ⟨rest, rfl, (lookup_tail fun he => hq (by rw [List.append_cancel_left he])).trans hl⟩
    · rename_i hpre
      obtain ⟨rest, rfl, hl⟩ := ih h
      refine ⟨rest, rfl, (lookup_tail fun he => hpre ?_).trans hl⟩
      rw [← he]
      exact List.isPrefixOf_iff_prefix.2 (List.prefix_append _ _)

theorem of_look_moved (ha : a ≠ []) (h : (s.moved a b).look q = some e) :
    s.look q = some e ∨ ∃ rest, q = b ++ rest ∧ s.look (a ++ rest) = some e := by
  by_cases hq : q = []
  · rw [hq] at h ⊢
    exact .inl h
  · rw [look_of_ne hq, moved, List.lookup_append] at h
    rcases Option.or_eq_some_iff.1 h with h | ⟨-, h⟩
    · obtain ⟨rest, hrest, hl⟩ := of_lookup_map h
      exact .inr ⟨rest, hrest, by rw [look_of_ne (by simp [ha]), hl]⟩
    · rw [lookup_filter fun q => !a.isPrefixOf q && !b.isPrefixOf q] at h
      split at h
      · exact .inl (by rw [look_of_ne hq, h])
      · cases h

theorem look_drop_self (hp : p ≠ []) : (s.drop p).look p = none := by
  rw [look_of_ne hp, drop, keep, lookup_filter fun q => q ≠ p]
  simp

/-- What a move brings was there or has come along, below the place only with a directory. -/
theorem of_look_move (hm : s.move a b = some s') (h : s'.look q = some e) :
    s.look q = some e ∨ ∃ rest, q = b ++ rest ∧ s.look (a ++ rest) = some e ∧ (rest ≠ [] → s.look a = some .dir) := by
  unfold move at hm
  split at hm
  · cases hm
  · rename_i ea ha
    split at hm
    · cases hm
      exact .inl h
    · split at hm
      · cases hm
      · rename_i hne hpre
        split at hm
        · cases hm
          split at h
          · rename_i hdir
            subst hdir
            have hnil : a ≠ [] := by
              rintro rfl
              exact hpre (.inl List.nil_prefix)
            rcases of_look_moved hnil h with h | ⟨rest, hq, hrest⟩
            · exact .inl h
            · exact .inr ⟨rest, hq, hrest, fun _ => ha⟩
          · have hnil : b ≠ [] := by
              rintro rfl
              exact hpre (.inr List.nil_prefix)
            rcases of_look_add (look_drop_self hnil) h with h | ⟨rfl, rfl⟩
            · exact .inl (of_look_keep (of_look_keep h))
            · exact .inr ⟨[], by simp, by simpa using ha, fun hr => absurd rfl hr⟩
        · cases hm

end Disk

end Lib
